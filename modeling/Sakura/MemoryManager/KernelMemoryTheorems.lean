import Sakura.Lib.Run
import Sakura.MemoryManager.InitTheorems

/-!
# Kernel memory over whole runs

`memoryAllocate` looks for frames in the bitmap and for addresses in the page tables, and
nothing but the history ties the two together. `KernelInv` is that tie: every present page
of `kernelPageDirectory` maps a frame that is marked used, and no two map the same.

The operations are taken one at a time (`kernelInv_freeVirtualPage`,
`memoryAllocate_kernel`), each with the pages whose mapping it changes, and `KernelStep` puts
them together with the list of live regions.
-/

namespace Sakura.MemoryManager

open MemoryManagerData

/-! ## The search for addresses -/

/-- The search of `VirtualAllocate` below an aligned bound ends, and what it finds is a run
of absent pages. -/
theorem searchRange_below {m : Machine} {pd M n : ℕ} (hM : M < 2 ^ 20) (fuel : ℕ) :
    ∀ {s idx : ℕ}, s + idx ≤ M → M - (s + idx) < fuel →
    (∀ p, s ≤ p → p < s + idx → pagePresent m pd p = false) →
    ∃ r, searchRange m pd (M * pageSize) n fuel ((s + idx) * pageSize) (s * pageSize) idx
        = some r ∧
      ∀ a, r = some a → ∃ k, a = k * pageSize ∧ s ≤ k ∧ k + n ≤ M ∧
        ∀ p, k ≤ p → p < k + n → pagePresent m pd p = false := by
  induction fuel with
  | zero => intro s idx _ hfuel; omega
  | succ fuel ih =>
    intro s idx hle hfuel habs
    rw [searchRange]
    by_cases hlt : s + idx < M
    · have hltps : (s + idx) * pageSize < M * pageSize :=
        Nat.mul_lt_mul_of_pos_right hlt (by decide)
      have hnext : ((s + idx) * pageSize + pageSize) % 2 ^ 32 = (s + idx + 1) * pageSize := by
        rw [pageSize]; omega
      have hpage : pageOf ((s + idx) * pageSize) = s + idx := pageOf_mul_of_lt (by omega)
      rw [if_pos hltps]
      simp only [hnext, isPagePresent_eq, hpage]
      by_cases hp : pagePresent m pd (s + idx) = true
      · -- the page is taken: the run starts again after it
        rw [if_pos hp]
        obtain ⟨r, hr, hfound⟩ := ih (show s + idx + 1 + 0 ≤ M by omega) (by omega)
          (by intro p h1 h2; omega)
        refine ⟨r, hr, ?_⟩
        intro a ha
        obtain ⟨k, rfl, hk, hrest⟩ := hfound a ha
        exact ⟨k, rfl, by omega, hrest⟩
      · rw [if_neg hp]
        have habs' : ∀ p, s ≤ p → p < s + (idx + 1) → pagePresent m pd p = false := by
          intro p h1 h2
          by_cases hpe : p = s + idx
          · rw [hpe]
            simpa using hp
          · exact habs p h1 (by omega)
        have hidx : (idx + 1) % 2 ^ 32 = idx + 1 := Nat.mod_eq_of_lt (by omega)
        rw [hidx]
        by_cases hn : idx + 1 = n
        · rw [if_pos hn]
          refine ⟨_, rfl, ?_⟩
          rintro a ha
          obtain rfl := Option.some.inj ha
          exact ⟨s, rfl, Nat.le_refl _, by omega, by rw [← hn]; exact habs'⟩
        · rw [if_neg hn]
          exact @ih s (idx + 1) (by omega) (by omega) habs'
    · have hge : ¬ (s + idx) * pageSize < M * pageSize := by
        rw [pageSize]; omega
      rw [if_neg hge]
      exact ⟨none, rfl, fun a ha => by cases ha⟩

/-! ## The invariant -/

/-- The frame page `p` of `kernelPageDirectory` is mapped to. -/
def frameOf (L : Layout) (m : Machine) (p : ℕ) : ℕ :=
  Entry.pageFrameNumber (pageEntry m L.kernelPageDirectory p)

theorem frameOf_lt (L : Layout) (m : Machine) (p : ℕ) : frameOf L m p < 2 ^ 20 :=
  Entry.pageFrameNumber_lt _

/-- What ties the bitmap to the tables of the kernel. `R` are the pages of `init`. -/
structure KernelInv (L : Layout) (R : ℕ → Prop) (m : Machine) : Prop where
  directory : KernelDirectory L m
  high : ∀ s, 256 ≤ s → slotPresent m L.kernelPageDirectory s = false
  cr3 : m.cr3 = L.kernelPageDirectory
  mapped : ∀ q < kernelPages, pagePresent m L.kernelPageDirectory q = true →
    m.used (frameOf L m q) = true
  inj : ∀ q < kernelPages, ∀ q' < kernelPages, pagePresent m L.kernelPageDirectory q = true →
    pagePresent m L.kernelPageDirectory q' = true → frameOf L m q = frameOf L m q' → q = q'
  below : ∀ p, R p → p < kernelPages
  self : ∀ p, R p → SelfMapped L m p
  own : ∀ f, L.Own f → R f

section

variable {L : Layout} {R : ℕ → Prop} {m m' : Machine}

theorem KernelInv.used_of_init (h : KernelInv L R m) {p : ℕ} (hp : R p) : m.used p = true := by
  have hself := h.self p hp
  have hmapped := h.mapped p (h.below p hp) hself.present
  rwa [frameOf, hself.frame] at hmapped

/-- Only pages of the GiB are present. -/
theorem KernelInv.lt_of_present (h : KernelInv L R m) {p : ℕ}
    (hp : pagePresent m L.kernelPageDirectory p = true) : p < kernelPages := by
  by_contra hlt
  rw [kernelPages] at hlt
  rw [pagePresent, h.high _ (by omega), Bool.false_and] at hp
  exact Bool.false_ne_true hp

/-- `init` establishes the invariant. -/
theorem kernelInv_init (h : BootExact L R m) (hcr3 : m.cr3 = L.kernelPageDirectory)
    (hbelow : ∀ p, R p → p < kernelPages) : KernelInv L R m := by
  have hself : ∀ q < kernelPages, pagePresent m L.kernelPageDirectory q = true →
      R q ∧ frameOf L m q = q := by
    intro q hq hp
    have hR := h.present q hq hp
    exact ⟨hR, (h.self q hq hR).frame⟩
  refine ⟨h.directory, h.high, hcr3, ?_, ?_, hbelow, fun p hp => h.self p (hbelow p hp) hp, h.own⟩
  · intro q hq hp
    obtain ⟨hR, hframe⟩ := hself q hq hp
    rw [hframe]
    exact h.used q hR
  · intro q hq q' hq' hp hp' heq
    rw [(hself q hq hp).2, (hself q' hq' hp').2] at heq
    exact heq

/-- `m'` has the kernel's directory and tables of `m`, and its bitmap. -/
structure SameKernel (L : Layout) (m m' : Machine) : Prop where
  ram : ∀ f i, L.Own f → m'.ram f i = m.ram f i
  used : ∀ p, m'.used p = m.used p
  cr3 : m'.cr3 = m.cr3

/-- The entries of the kernel's pages are kept. -/
theorem SameKernel.entry (h : SameKernel L m m') (hdir : KernelDirectory L m) {q : ℕ}
    (hq : q < kernelPages) :
    pageEntry m' L.kernelPageDirectory q = pageEntry m L.kernelPageDirectory q := by
  have hdir' : KernelDirectory L m' := hdir.of_ram fun i => h.ram _ i (Or.inl rfl)
  rw [pageEntry_kernel hdir' hq, pageEntry_kernel hdir hq]
  rw [kernelPages] at hq
  exact h.ram _ _ (L.own_table (by omega))

theorem SameKernel.present (h : SameKernel L m m') (hdir : KernelDirectory L m) {q : ℕ}
    (hq : q < kernelPages) :
    pagePresent m' L.kernelPageDirectory q = pagePresent m L.kernelPageDirectory q := by
  have hdir' : KernelDirectory L m' := hdir.of_ram fun i => h.ram _ i (Or.inl rfl)
  rw [pagePresent_kernel hdir' hq, pagePresent_kernel hdir hq, h.entry hdir hq]

/-- What the invariant says is about the kernel's entries and the bitmap. -/
theorem KernelInv.of_same (h : KernelInv L R m) (hs : SameKernel L m m') : KernelInv L R m' := by
  have hkeep : KeepsSelfMapped L m m' := by
    apply KeepsSelfMapped.of_entry h.directory
      (h.directory.of_ram fun i => hs.ram _ i (Or.inl rfl))
    intro q hq
    exact hs.entry h.directory hq
  have hframe : ∀ q < kernelPages, frameOf L m' q = frameOf L m q := by
    intro q hq
    rw [frameOf, hs.entry h.directory hq, frameOf]
  refine ⟨hkeep.directory, ?_, hs.cr3.trans h.cr3, ?_, ?_, h.below,
    fun p hp => hkeep.self p (h.below p hp) (h.self p hp), h.own⟩
  · intro s hs'
    rw [slotPresent, hs.ram _ _ (Or.inl rfl)]
    exact h.high s hs'
  · intro q hq hp
    rw [hs.present h.directory hq] at hp
    rw [hs.used, hframe q hq]
    exact h.mapped q hq hp
  · intro q hq q' hq' hp hp' heq
    rw [hs.present h.directory hq] at hp
    rw [hs.present h.directory hq'] at hp'
    rw [hframe q hq, hframe q' hq'] at heq
    exact h.inj q hq q' hq' hp hp' heq

/-! ## Freeing pages -/

/-- `VirtualFree` of one page clears its entry, unless it is the last of the address
space. -/
theorem virtualFree_one (m : Machine) (pd : ℕ) {q : ℕ} (hq : q < kernelPages) :
    virtualFree m pd (q * pageSize) 1 = m.store (tableOf m pd (q / 1024)) (q % 1024) 0 := by
  rw [kernelPages] at hq
  have hlen : ((q * pageSize + 1 * pageSize) % 2 ^ 32 - q * pageSize) / pageSize = 1 := by
    rw [pageSize]; omega
  have hpage : pageOf (q * pageSize) = q := pageOf_mul_of_lt (by omega)
  simp only [virtualFree, hlen, List.range_one, List.foldl_cons, List.foldl_nil, Nat.zero_mul,
    Nat.add_zero, getPageTable_eq, pageTableIndex_eq, hpage]

/-- Clearing the entry of a page of the GiB. -/
theorem KernelDirectory.clear_kernel (h : KernelDirectory L m) {q : ℕ} (hq : q < kernelPages) :
    KernelDirectory L (m.store (tableOf m L.kernelPageDirectory (q / 1024)) (q % 1024) 0) ∧
      (∀ i, (m.store (tableOf m L.kernelPageDirectory (q / 1024)) (q % 1024) 0).ram
        L.kernelPageDirectory i = m.ram L.kernelPageDirectory i) ∧
      ∀ q' < kernelPages, pageEntry
        (m.store (tableOf m L.kernelPageDirectory (q / 1024)) (q % 1024) 0)
        L.kernelPageDirectory q' =
          if q' = q then 0 else pageEntry m L.kernelPageDirectory q' := by
  have hqs : q / 1024 < 256 := by rw [kernelPages] at hq; omega
  rw [h.table _ hqs]
  have hdir : ∀ i, (m.store (L.kernelPageTable + q / 1024) (q % 1024) 0).ram
      L.kernelPageDirectory i = m.ram L.kernelPageDirectory i := by
    intro i
    apply Machine.ram_store_of_ne
    rintro ⟨he, -⟩
    exact L.table_ne_directory hqs he.symm
  have hkd := h.of_ram hdir
  refine ⟨hkd, hdir, ?_⟩
  intro q' hq'
  rw [pageEntry_kernel hkd hq']
  by_cases he : q' = q
  · subst he
    rw [if_pos rfl, Machine.ram_store_self]
  · rw [if_neg he, pageEntry_kernel h hq']
    apply Machine.ram_store_of_ne
    rintro ⟨h1, h2⟩
    exact he (by omega)

/-- One iteration of `memoryFree`: the page, which `init` did not map, is absent afterwards
and its frame is free. -/
theorem kernelInv_freeVirtualPage (h : KernelInv L R m) {q : ℕ} (hq : q < kernelPages)
    (hR : ¬ R q) :
    KernelInv L R (freeVirtualPage m L.kernelPageDirectory (q * pageSize)) ∧
      ∀ q' < kernelPages, q' ≠ q →
        pageEntry (freeVirtualPage m L.kernelPageDirectory (q * pageSize))
          L.kernelPageDirectory q' = pageEntry m L.kernelPageDirectory q' := by
  have hpage : pageOf (q * pageSize) = q := by
    rw [kernelPages] at hq
    exact pageOf_mul_of_lt (by omega)
  rw [freeVirtualPage, isPagePresent_eq, hpage]
  by_cases hp : pagePresent m L.kernelPageDirectory q = true
  · rw [if_pos hp, virtualFree_one _ _ hq]
    set m₁ := m.physicalFree (getPhysicalAddress m L.kernelPageDirectory (q * pageSize)) 1
      with hm₁
    have hframe : pageOf (getPhysicalAddress m L.kernelPageDirectory (q * pageSize))
        = frameOf L m q := by
      rw [getPhysicalAddress, getPageTableEntry_eq, hpage, Nat.mul_mod_left, Nat.add_zero,
        pageOf_mul_of_lt (Entry.pageFrameNumber_lt _), frameOf]
    have hused : ∀ p, m₁.used p = true ↔ m.used p = true ∧ p ≠ frameOf L m q := by
      intro p
      rw [hm₁, used_machine_physicalFree, hframe, inRun_succ, Nat.add_zero,
        Nat.mod_eq_of_lt (frameOf_lt L m q)]
      simp only [not_inRun_zero, false_or]
    have hkeep : KeepsSelfMapped L m m₁ := KeepsSelfMapped.of_ram h.directory rfl
    obtain ⟨hkd, hdir, hentry⟩ := hkeep.directory.clear_kernel hq
    set m₂ := m₁.store (tableOf m₁ L.kernelPageDirectory (q / 1024)) (q % 1024) 0
    have hentry' : ∀ q' < kernelPages, q' ≠ q →
        pageEntry m₂ L.kernelPageDirectory q' = pageEntry m L.kernelPageDirectory q' := by
      intro q' hq' hne
      rw [hentry q' hq', if_neg hne]
      rfl
    -- a page that is still present is another page, mapped as before
    have hstill : ∀ q' < kernelPages, pagePresent m₂ L.kernelPageDirectory q' = true →
        q' ≠ q ∧ pagePresent m L.kernelPageDirectory q' = true ∧
          frameOf L m₂ q' = frameOf L m q' := by
      intro q' hq' hp'
      rw [pagePresent_kernel hkd hq'] at hp'
      have hne : q' ≠ q := by
        rintro rfl
        rw [hentry q' hq', if_pos rfl] at hp'
        exact absurd hp' (by decide)
      rw [hentry' q' hq' hne] at hp'
      rw [pagePresent_kernel h.directory hq', frameOf, frameOf, hentry' q' hq' hne]
      exact ⟨hne, hp', rfl⟩
    refine ⟨⟨hkd, ?_, h.cr3, ?_, ?_, h.below, ?_, h.own⟩, hentry'⟩
    · intro s hs
      rw [slotPresent, hdir]
      exact h.high s hs
    · intro q' hq' hp'
      obtain ⟨hne, hpm, hfr⟩ := hstill q' hq' hp'
      rw [hfr]
      refine (hused _).mpr ⟨h.mapped q' hq' hpm, ?_⟩
      intro heq
      exact hne (h.inj q' hq' q hq hpm hp heq)
    · intro q₁ hq₁ q₂ hq₂ hp₁ hp₂ heq
      obtain ⟨-, hpm₁, hfr₁⟩ := hstill q₁ hq₁ hp₁
      obtain ⟨-, hpm₂, hfr₂⟩ := hstill q₂ hq₂ hp₂
      rw [hfr₁, hfr₂] at heq
      exact h.inj q₁ hq₁ q₂ hq₂ hpm₁ hpm₂ heq
    · intro p hRp
      have hlt := h.below p hRp
      have hne : p ≠ q := by
        rintro rfl
        exact hR hRp
      exact (h.self p hRp).of_entry h.directory hkd hlt (hentry' p hlt hne)
  · rw [if_neg hp]
    exact ⟨h, fun _ _ _ => rfl⟩

/-- The loop of `memoryFree` over `n` pages from page `k` on. -/
theorem kernelInv_freeLoop {k : ℕ} (n : ℕ) : KernelInv L R m → k + n ≤ kernelPages →
    (∀ q, k ≤ q → q < k + n → ¬ R q) →
    KernelInv L R ((List.range n).foldl (fun m i => freeVirtualPage m L.kernelPageDirectory
        ((k * pageSize + i * pageSize) % 2 ^ 32)) m) ∧
      ∀ q < kernelPages, ¬ (k ≤ q ∧ q < k + n) →
        pageEntry ((List.range n).foldl (fun m i => freeVirtualPage m L.kernelPageDirectory
          ((k * pageSize + i * pageSize) % 2 ^ 32)) m) L.kernelPageDirectory q
          = pageEntry m L.kernelPageDirectory q := by
  induction n with
  | zero => intro h _ _; exact ⟨h, fun _ _ _ => rfl⟩
  | succ n ih =>
    intro h hle hR
    obtain ⟨hinv, hentry⟩ := ih h (by omega) fun q h1 h2 => hR q h1 (by omega)
    have haddr : (k * pageSize + n * pageSize) % 2 ^ 32 = (k + n) * pageSize := by
      rw [kernelPages] at hle
      rw [pageSize]
      omega
    obtain ⟨hinv', hentry'⟩ := kernelInv_freeVirtualPage hinv (q := k + n) (by omega)
      (hR _ (by omega) (by omega))
    rw [List.range_succ, List.foldl_append, List.foldl_cons, List.foldl_nil, haddr]
    refine ⟨hinv', ?_⟩
    intro q hq hout
    rw [hentry' q hq (by omega), hentry q hq (by omega)]

theorem SameKernel.of_eq (hram : m'.ram = m.ram) (hused : ∀ p, m'.used p = m.used p)
    (hcr3 : m'.cr3 = m.cr3) : SameKernel L m m' :=
  ⟨fun f i _ => by rw [hram], hused, hcr3⟩

/-- `memoryFree` of a range that was allocated. -/
theorem memoryFree_kernel {k size : ℕ} (h : KernelInv L R m)
    (hle : k + size / pageSize ≤ kernelPages)
    (hR : ∀ q, k ≤ q → q < k + size / pageSize → ¬ R q) :
    KernelInv L R (memoryFree m L.kernelPageDirectory (k * pageSize) size) ∧
      ∀ q < kernelPages, ¬ (k ≤ q ∧ q < k + size / pageSize) →
        pageEntry (memoryFree m L.kernelPageDirectory (k * pageSize) size)
          L.kernelPageDirectory q = pageEntry m L.kernelPageDirectory q := by
  have henable : SameKernel L m m.atomicEnable := .of_eq rfl (fun _ => rfl) rfl
  obtain ⟨hinv, hentry⟩ := kernelInv_freeLoop (size / pageSize) (h.of_same henable) hle hR
  refine ⟨hinv.of_same (.of_eq rfl (fun _ => rfl) rfl), ?_⟩
  intro q hq hout
  exact hentry q hq hout

/-! ## Allocating pages -/

/-- `m₁` is `m` with the `n` frames from frame `f` on, which were free, taken. -/
structure FramesTaken (m m₁ : Machine) (f n : ℕ) : Prop where
  ram : m₁.ram = m.ram
  cr3 : m₁.cr3 = m.cr3
  used : ∀ p, m₁.used p = true ↔ m.used p = true ∨ InRun f n p
  free : ∀ p, InRun f n p → m.used p = false

theorem framesTaken_physicalAllocateAt {f n : ℕ} (hf : f < 2 ^ 20)
    (hfree : FreeRun m.memManData f n) :
    FramesTaken m (m.atomicEnable.physicalAllocateAt (f * pageSize) n) f n := by
  refine ⟨rfl, rfl, ?_, hfree⟩
  intro p
  rw [used_machine_physicalAllocateAt, pageOf_mul_of_lt hf]
  rfl

/-- Frames that are taken and given back leave the bitmap as it was. -/
theorem FramesTaken.used_giveBack {m₁ : Machine} {f n : ℕ} (h : FramesTaken m m₁ f n)
    (hf : f < 2 ^ 20) (p : ℕ) :
    (m₁.physicalFree (f * pageSize) n).atomicDisable.used p = m.used p := by
  rw [Bool.eq_iff_iff]
  have hfreed := used_machine_physicalFree m₁ (f * pageSize) n p
  rw [pageOf_mul_of_lt hf, h.used] at hfreed
  refine hfreed.trans ⟨?_, ?_⟩
  · rintro ⟨hp | hp, hout⟩
    · exact hp
    · exact absurd hp hout
  · intro hp
    refine ⟨Or.inl hp, ?_⟩
    intro hrun
    rw [h.free p hrun] at hp
    exact Bool.false_ne_true hp

/-- Mapping absent pages to frames that were free. -/
theorem KernelInv.map {m₁ : Machine} {k n f : ℕ} (h : KernelInv L R m)
    (htaken : FramesTaken m m₁ f n) (hmap : KernelMapped L m₁ m' k n f false)
    (hle : k + n ≤ kernelPages)
    (habs : ∀ q, k ≤ q → q < k + n → pagePresent m L.kernelPageDirectory q = false) :
    KernelInv L R m' := by
  obtain ⟨hsame, hcr3, hused, hfree⟩ := htaken
  have hentry₁ : ∀ q, pageEntry m₁ L.kernelPageDirectory q = pageEntry m L.kernelPageDirectory q := by
    intro q
    rw [pageEntry, tableOf, hsame, ← tableOf, ← pageEntry]
  have hused' : ∀ p, m'.used p = true ↔ m.used p = true ∨ InRun f n p := by
    intro p
    rw [Machine.used, hmap.data]
    exact hused p
  -- a present page is one of the new ones, or is mapped as before
  have hnew : ∀ q < kernelPages, k ≤ q → q < k + n → frameOf L m' q = (f + (q - k)) % 2 ^ 20 := by
    intro q hq h1 h2
    rw [frameOf, hmap.entry q hq, if_pos ⟨h1, h2⟩, Entry.pageFrameNumber_map, Nat.mod_mod]
  have hold : ∀ q < kernelPages, ¬ (k ≤ q ∧ q < k + n) →
      pageEntry m' L.kernelPageDirectory q = pageEntry m L.kernelPageDirectory q := by
    intro q hq hout
    rw [hmap.entry q hq, if_neg hout, hentry₁]
  have holdp : ∀ q < kernelPages, ¬ (k ≤ q ∧ q < k + n) →
      pagePresent m' L.kernelPageDirectory q = pagePresent m L.kernelPageDirectory q := by
    intro q hq hout
    rw [pagePresent_kernel hmap.directory hq, hold q hq hout, pagePresent_kernel h.directory hq]
  have hfresh : ∀ q < kernelPages, pagePresent m L.kernelPageDirectory q = true →
      ∀ i < n, frameOf L m q ≠ (f + i) % 2 ^ 20 := by
    intro q hq hp i hi heq
    have h1 := h.mapped q hq hp
    rw [heq, hfree _ ⟨i, hi, rfl⟩] at h1
    exact Bool.false_ne_true h1
  rw [kernelPages] at hle
  refine ⟨hmap.directory, ?_, (hmap.cr3.trans hcr3).trans h.cr3, ?_, ?_, h.below, ?_, h.own⟩
  · intro s hs
    rw [slotPresent, hmap.ram, hsame]
    · exact h.high s hs
    · rintro ⟨h1, h2⟩
      exact L.table_ne_directory (s := L.kernelPageDirectory - L.kernelPageTable) (by omega)
        (by omega)
  · intro q hq hp
    rw [hused']
    by_cases hin : k ≤ q ∧ q < k + n
    · right
      rw [hnew q hq hin.1 hin.2]
      exact ⟨q - k, by omega, rfl⟩
    · rw [holdp q hq hin] at hp
      rw [frameOf, hold q hq hin]
      exact Or.inl (h.mapped q hq hp)
  · intro q hq q' hq' hp hp' heq
    by_cases hin : k ≤ q ∧ q < k + n <;> by_cases hin' : k ≤ q' ∧ q' < k + n
    · rw [hnew q hq hin.1 hin.2, hnew q' hq' hin'.1 hin'.2] at heq
      omega
    · rw [holdp q' hq' hin'] at hp'
      rw [hnew q hq hin.1 hin.2, frameOf, hold q' hq' hin'] at heq
      exact absurd heq.symm (hfresh q' hq' hp' _ (by omega))
    · rw [holdp q hq hin] at hp
      rw [hnew q' hq' hin'.1 hin'.2, frameOf, hold q hq hin] at heq
      exact absurd heq (hfresh q hq hp _ (by omega))
    · rw [holdp q hq hin] at hp
      rw [holdp q' hq' hin'] at hp'
      rw [frameOf, frameOf, hold q hq hin, hold q' hq' hin'] at heq
      exact h.inj q hq q' hq' hp hp' heq
  · intro p hR
    have hlt := h.below p hR
    have hself := h.self p hR
    have hout : ¬ (k ≤ p ∧ p < k + n) := by
      rintro ⟨h1, h2⟩
      have hpres := hself.present
      rw [habs p h1 h2] at hpres
      exact Bool.false_ne_true hpres
    exact hself.of_entry h.directory hmap.directory hlt (hold p hlt hout)

/-- `memset` over present pages of the GiB whose frames are not the kernel's own. -/
theorem memset_kernel (n : ℕ) : ∀ {m : Machine} {k : ℕ}, KernelDirectory L m →
    m.cr3 = L.kernelPageDirectory → k + n ≤ kernelPages →
    (∀ q, k ≤ q → q < k + n → pagePresent m L.kernelPageDirectory q = true ∧
      ¬ L.Own (frameOf L m q)) →
    ∃ m', memset n m (k * pageSize) = some m' ∧ SameKernel L m m' := by
  induction n with
  | zero => intro m k _ _ _ _; exact ⟨m, rfl, .of_eq rfl (fun _ => rfl) rfl⟩
  | succ n ih =>
    intro m k hdir hcr3 hle hpages
    have hk : k < 2 ^ 20 := by rw [kernelPages] at hle; omega
    obtain ⟨hpres, hnot⟩ := hpages k (Nat.le_refl _) (by omega)
    have htrans : translate m (k * pageSize) = some (frameOf L m k) := by
      rw [translate, hcr3, isPagePresent_eq, getPageTableEntry_eq, pageOf_mul_of_lt hk,
        if_pos hpres, frameOf]
    have hnext : (k * pageSize + pageSize) % 2 ^ 32 = (k + 1) * pageSize := by
      rw [kernelPages] at hle
      rw [pageSize]
      omega
    -- the frame cleared is none of the kernel's, so every page still translates as before
    have hsame : SameKernel L m (m.zeroFrame (frameOf L m k)) := by
      refine ⟨?_, fun _ => rfl, rfl⟩
      intro f i hf
      have hne : f ≠ frameOf L m k := by
        rintro rfl
        exact hnot hf
      rw [Machine.zeroFrame]
      simp only [hne, if_false]
    obtain ⟨m', hm', hsame'⟩ := ih (m := m.zeroFrame (frameOf L m k)) (k := k + 1)
      (hdir.of_ram fun i => hsame.ram _ i (Or.inl rfl)) hcr3 (by omega)
      (by
        intro q h1 h2
        have hq : q < kernelPages := by omega
        rw [hsame.present hdir hq, frameOf, hsame.entry hdir hq]
        exact hpages q (by omega) (by omega))
    refine ⟨m', ?_, ?_⟩
    · rw [memset, htrans, Option.bind_some, hnext, hm']
    · refine ⟨?_, fun p => (hsame'.used p).trans (hsame.used p), hsame'.cr3.trans hsame.cr3⟩
      intro f i hf
      rw [hsame'.ram f i hf, hsame.ram f i hf]

/-- `VirtualAllocate` for the kernel finds no room, or maps absent pages of the GiB above
1 MiB. -/
theorem virtualAllocate_kernel {fuel : ℕ} (hdir : KernelDirectory L m) (hfuel : 2 ^ 20 < fuel)
    (pa n : ℕ) :
    virtualAllocate fuel m L.kernelPageDirectory pa n false = some (0, m) ∨
    ∃ k m', virtualAllocate fuel m L.kernelPageDirectory pa n false = some (k * pageSize, m') ∧
      256 ≤ k ∧ k + n ≤ kernelPages ∧
      (∀ q, k ≤ q → q < k + n → pagePresent m L.kernelPageDirectory q = false) ∧
      KernelMapped L m m' k n (pageOf pa) false := by
  obtain ⟨r, hr, hfound⟩ := searchRange_below (m := m) (n := n)
    (M := kernelPages) (by decide) fuel (show 256 + 0 ≤ kernelPages by decide)
    (by rw [kernelPages]; omega) (by intro p h1 h2; omega)
  have hstart : searchStart false = (256 + 0) * pageSize := by decide
  have hend : searchEnd false = kernelPages * pageSize := by decide
  rw [virtualAllocate, hstart, hend, hr, Option.bind_some]
  cases r with
  | none => exact Or.inl rfl
  | some a =>
    obtain ⟨k, rfl, hk, hle, habs⟩ := hfound a rfl
    have hlen := length_freeFrames_lt m.memManData
    have hk20 : k < 2 ^ 20 := by rw [kernelPages] at hle; omega
    have hmap := virtualMap_eq (k * pageSize) pa n false (hdir.slot 0 (by omega))
      (show _ + 1 < fuel by omega)
    rw [pageOf_mul_of_lt hk20] at hmap
    refine Or.inr ⟨k, _, ?_, hk, hle, habs, installPages_kernel false n (pageOf pa) hdir hle⟩
    simp only [hmap, Option.map_some]

/-- The `n` pages from page `k` on were absent and are present now; the others are mapped as
before. -/
structure AllocatedPages (L : Layout) (m m' : Machine) (k n : ℕ) : Prop where
  pos : 0 < n
  ge : 256 ≤ k
  le : k + n ≤ kernelPages
  absent : ∀ q, k ≤ q → q < k + n → pagePresent m L.kernelPageDirectory q = false
  present : ∀ q, k ≤ q → q < k + n → pagePresent m' L.kernelPageDirectory q = true
  other : ∀ q < kernelPages, ¬ (k ≤ q ∧ q < k + n) →
    pageEntry m' L.kernelPageDirectory q = pageEntry m L.kernelPageDirectory q

/-- The pages just mapped are present, and their frames are not the kernel's own. -/
theorem KernelInv.mapped_pages {m₁ : Machine} {k n f : ℕ} (h : KernelInv L R m)
    (htaken : FramesTaken m m₁ f n) (hmap : KernelMapped L m₁ m' k n f false)
    (hle : k + n ≤ kernelPages) {q : ℕ} (h1 : k ≤ q) (h2 : q < k + n) :
    pagePresent m' L.kernelPageDirectory q = true ∧ ¬ L.Own (frameOf L m' q) := by
  have hq : q < kernelPages := by omega
  have hentry := hmap.entry q hq
  rw [if_pos ⟨h1, h2⟩] at hentry
  refine ⟨?_, ?_⟩
  · rw [pagePresent_kernel hmap.directory hq, hentry, Entry.present_map]
  · intro hown
    have hused := h.used_of_init (h.own _ hown)
    rw [frameOf, hentry, Entry.pageFrameNumber_map, Nat.mod_mod,
      htaken.free _ ⟨q - k, by omega, rfl⟩] at hused
    exact Bool.false_ne_true hused

/-- What `memoryAllocate` for the kernel does once it has its frames. -/
theorem memoryAllocate_taken {fuel f n : ℕ} {m₁ : Machine} (h : KernelInv L R m)
    (htaken : FramesTaken m m₁ f n) (hf : f < 2 ^ 20) (hn : 0 < n) (hfuel : 2 ^ 20 < fuel) :
    ∃ a m', ((virtualAllocate fuel m₁ L.kernelPageDirectory (f * pageSize) n false).bind
        fun (virtualAddress, m) =>
          if virtualAddress = 0 then some (0, (m.physicalFree (f * pageSize) n).atomicDisable)
          else (memset n m.atomicDisable virtualAddress).map fun m => (virtualAddress, m))
        = some (a, m') ∧
      KernelInv L R m' ∧
      ((a = 0 ∧ ∀ q < kernelPages,
          pageEntry m' L.kernelPageDirectory q = pageEntry m L.kernelPageDirectory q) ∨
        ∃ k, a = k * pageSize ∧ AllocatedPages L m m' k n) := by
  have hkeep : KeepsSelfMapped L m m₁ := KeepsSelfMapped.of_ram h.directory htaken.ram
  have hentry₁ : ∀ q, pageEntry m₁ L.kernelPageDirectory q
      = pageEntry m L.kernelPageDirectory q := by
    intro q
    rw [pageEntry, tableOf, htaken.ram, ← tableOf, ← pageEntry]
  rcases virtualAllocate_kernel hkeep.directory hfuel (f * pageSize) n with
    hva | ⟨k, m₂, hva, hk, hle, habs₁, hmap⟩
  · -- no room for the pages: the frames are given back
    have hsame : SameKernel L m (m₁.physicalFree (f * pageSize) n).atomicDisable :=
      .of_eq htaken.ram (htaken.used_giveBack hf) htaken.cr3
    simp only [hva, Option.bind_some, if_true]
    exact ⟨_, _, rfl, h.of_same hsame, Or.inl ⟨rfl, fun q hq => hsame.entry h.directory hq⟩⟩
  · rw [pageOf_mul_of_lt hf] at hmap
    have habs : ∀ q, k ≤ q → q < k + n → pagePresent m L.kernelPageDirectory q = false := by
      intro q h1 h2
      rw [← habs₁ q h1 h2, pagePresent, pagePresent, hentry₁, slotPresent, slotPresent, htaken.ram]
    have hinv₂ : KernelInv L R m₂ := h.map htaken hmap hle habs
    have hdis : SameKernel L m₂ m₂.atomicDisable := .of_eq rfl (fun _ => rfl) rfl
    have hinv₂' := hinv₂.of_same hdis
    obtain ⟨m₃, hm₃, hsame₃⟩ := memset_kernel n (m := m₂.atomicDisable) (k := k)
      hinv₂'.directory hinv₂.cr3 hle fun q h1 h2 => h.mapped_pages htaken hmap hle h1 h2
    have hne : ¬ k * pageSize = 0 := by
      rw [pageSize]
      omega
    simp only [hva, Option.bind_some, if_neg hne, hm₃, Option.map_some]
    refine ⟨_, _, rfl, hinv₂'.of_same hsame₃, Or.inr ⟨k, rfl, hn, hk, hle, habs, ?_, ?_⟩⟩
    · intro q h1 h2
      rw [hsame₃.present hinv₂'.directory (by omega)]
      exact (h.mapped_pages htaken hmap hle h1 h2).1
    · intro q hq hout
      rw [hsame₃.entry hinv₂'.directory hq, ← hentry₁ q]
      exact (hmap.entry q hq).trans (if_neg hout)

/-- `memoryAllocate` for the kernel returns, keeps the invariant, and either changes no
mapping and returns 0 or maps a run of absent pages. -/
theorem memoryAllocate_kernel {fuel : ℕ} (h : KernelInv L R m) (h0 : R 0)
    (hfuel : 2 ^ 20 < fuel) (size : ℕ) :
    ∃ a m', memoryAllocate fuel m L.kernelPageDirectory size false = some (a, m') ∧
      KernelInv L R m' ∧
      ((a = 0 ∧ ∀ q < kernelPages,
          pageEntry m' L.kernelPageDirectory q = pageEntry m L.kernelPageDirectory q) ∨
        ∃ k, a = k * pageSize ∧ AllocatedPages L m m' k (pagesFor size)) := by
  set n := pagesFor size with hn
  rw [memoryAllocate]
  simp only [← hn, Machine.physicalAllocate]
  rcases physicalAllocate_cases m.atomicEnable.memManData n with
    ⟨f, hf, hfree, hfirst, halloc⟩ | ⟨-, halloc⟩
  · have hf20 : f < 2 ^ 20 := Nat.lt_trans hf (totalMemory_div_lt _)
    have htaken := framesTaken_physicalAllocateAt (m := m) hf20 hfree
    rw [halloc]
    by_cases hpos : 0 < f * pageSize
    · -- a run of no pages would have been found at page 0
      have hnpos : 0 < n := by
        by_contra hn0
        have hzero : n = 0 := by omega
        rw [hzero] at hfirst
        exact hfirst 0 (by rw [pageSize] at hpos; omega)
          fun p hp => absurd hp (not_inRun_zero 0 p)
      rw [if_pos hpos]
      exact memoryAllocate_taken h htaken hf20 hnpos hfuel
    · -- only a request for no pages gets frame 0
      rw [if_neg hpos]
      have hzero : f = 0 := by
        rw [pageSize] at hpos
        omega
      have hn0 : n = 0 := by
        by_contra hne
        have hused := h.used_of_init h0
        rw [htaken.free 0 ⟨0, by omega, by omega⟩] at hused
        exact Bool.false_ne_true hused
      have hsame : SameKernel L m (m.atomicEnable.physicalAllocateAt (f * pageSize) n) := by
        rw [hn0]
        exact .of_eq rfl (fun _ => rfl) rfl
      exact ⟨_, _, rfl, h.of_same hsame, Or.inl ⟨rfl, fun q hq => hsame.entry h.directory hq⟩⟩
  · rw [halloc, if_neg (Nat.lt_irrefl 0)]
    have hsame : SameKernel L m m.atomicEnable := .of_eq rfl (fun _ => rfl) rfl
    exact ⟨_, _, rfl, h.of_same hsame, Or.inl ⟨rfl, fun q hq => hsame.entry h.directory hq⟩⟩

end

/-! ## Runs -/

/-- A region `memoryAllocate` returned: its address and the size asked for. -/
structure Region where
  address : ℕ
  size : ℕ
deriving DecidableEq

/-- The pages of a region. -/
def Region.Page (r : Region) (p : ℕ) : Prop :=
  pageOf r.address ≤ p ∧ p < pageOf r.address + pagesFor r.size

/-- The machine, and the regions that were returned and not freed since. -/
structure KernelState where
  machine : Machine
  live : List Region

/-- One call of the kernel's on its own directory. -/
inductive KernelStep (L : Layout) (fuel : ℕ) : KernelState → KernelState → Prop where
  | allocate {m m' : Machine} {live : List Region} {size a : ℕ} :
    size < 2 ^ 32 → memoryAllocate fuel m L.kernelPageDirectory size false = some (a, m') →
    KernelStep L fuel ⟨m, live⟩ ⟨m', if a = 0 then live else ⟨a, size⟩ :: live⟩
  | free {m : Machine} {live : List Region} {r : Region} {size : ℕ} :
    r ∈ live → size ≤ r.size →
    KernelStep L fuel ⟨m, live⟩ ⟨memoryFree m L.kernelPageDirectory r.address size, live.erase r⟩

/-- The invariant of a run: `KernelInv`, and the live regions hold present pages that are
not `init`'s and no two of them the same. -/
structure KernelRunInv (L : Layout) (R : ℕ → Prop) (s : KernelState) : Prop where
  inv : KernelInv L R s.machine
  aligned : ∀ r ∈ s.live, pageOf r.address * pageSize = r.address
  sized : ∀ r ∈ s.live, r.size < 2 ^ 32 ∧ 0 < pagesFor r.size
  present : ∀ r ∈ s.live, ∀ p, r.Page p →
    pagePresent s.machine L.kernelPageDirectory p = true ∧ ¬ R p
  disjoint : s.live.Pairwise fun r r' => ∀ p, r.Page p → ¬ r'.Page p

section

variable {L : Layout} {R : ℕ → Prop} {fuel : ℕ} {m m' : Machine} {live : List Region}

/-- Pages whose entry is unchanged stay present. -/
theorem KernelInv.present_of_entry (h : KernelInv L R m) (h' : KernelInv L R m') {p : ℕ}
    (hp : pagePresent m L.kernelPageDirectory p = true)
    (he : pageEntry m' L.kernelPageDirectory p = pageEntry m L.kernelPageDirectory p) :
    pagePresent m' L.kernelPageDirectory p = true := by
  have hlt := h.lt_of_present hp
  rw [pagePresent_kernel h'.directory hlt, he, ← pagePresent_kernel h.directory hlt]
  exact hp

/-- `memoryAllocate` of any size. -/
theorem kernelRunInv_allocate {size a : ℕ} (h0 : R 0) (hfuel : 2 ^ 20 < fuel)
    (hsize : size < 2 ^ 32) (h : KernelRunInv L R ⟨m, live⟩)
    (halloc : memoryAllocate fuel m L.kernelPageDirectory size false = some (a, m')) :
    KernelRunInv L R ⟨m', if a = 0 then live else ⟨a, size⟩ :: live⟩ := by
  obtain ⟨a', m'', heq, hinv', hcases⟩ := memoryAllocate_kernel h.inv h0 hfuel size
  obtain ⟨rfl, rfl⟩ := Prod.mk.inj (Option.some.inj (halloc.symm.trans heq))
  rcases hcases with ⟨rfl, hentry⟩ | ⟨k, rfl, hpages⟩
  · rw [if_pos rfl]
    refine ⟨hinv', h.aligned, h.sized, ?_, h.disjoint⟩
    intro r hr p hp
    obtain ⟨hpres, hR⟩ := h.present r hr p hp
    exact ⟨h.inv.present_of_entry hinv' hpres (hentry p (h.inv.lt_of_present hpres)), hR⟩
  · have hne : ¬ k * pageSize = 0 := by
      have := hpages.ge
      rw [pageSize]
      omega
    have hk : pageOf (k * pageSize) = k := by
      have := hpages.le
      rw [kernelPages] at this
      exact pageOf_mul_of_lt (by omega)
    rw [if_neg hne]
    -- a page that was present is not one of the new ones
    have hold : ∀ p, pagePresent m L.kernelPageDirectory p = true →
        ¬ (k ≤ p ∧ p < k + pagesFor size) := by
      rintro p hp ⟨h1, h2⟩
      rw [hpages.absent p h1 h2] at hp
      exact Bool.false_ne_true hp
    refine ⟨hinv', ?_, ?_, ?_, ?_⟩
    · intro r hr
      rcases List.mem_cons.mp hr with rfl | hr
      · rw [hk]
      · exact h.aligned r hr
    · intro r hr
      rcases List.mem_cons.mp hr with rfl | hr
      · exact ⟨hsize, hpages.pos⟩
      · exact h.sized r hr
    · intro r hr p hp
      rcases List.mem_cons.mp hr with rfl | hr
      · rw [Region.Page, hk] at hp
        refine ⟨hpages.present p hp.1 hp.2, ?_⟩
        intro hR
        exact hold p (h.inv.self p hR).present hp
      · obtain ⟨hpres, hR⟩ := h.present r hr p hp
        exact ⟨h.inv.present_of_entry hinv' hpres
          (hpages.other p (h.inv.lt_of_present hpres) (hold p hpres)), hR⟩
    · refine List.Pairwise.cons ?_ h.disjoint
      intro r hr p hp hp'
      rw [Region.Page, hk] at hp
      exact hold p (h.present r hr p hp').1 hp

/-- A request is never rounded down to fewer whole pages than it spans. -/
theorem div_le_pagesFor {size s : ℕ} (hs : s ≤ size) (hsize : 0 < pagesFor size)
    (hlt : size < 2 ^ 32) : s / pageSize ≤ pagesFor size := by
  rw [pagesFor] at *
  by_cases h : size % pageSize = 0
  · rw [if_pos h]
    exact Nat.div_le_div_right hs
  · rw [if_neg h] at *
    rw [pageAlign] at *
    rw [pageSize] at *
    omega

/-- `memoryFree` of a region that is live. -/
theorem kernelRunInv_free {r : Region} {size : ℕ} (h : KernelRunInv L R ⟨m, live⟩)
    (hr : r ∈ live) (hsize : size ≤ r.size) :
    KernelRunInv L R ⟨memoryFree m L.kernelPageDirectory r.address size, live.erase r⟩ := by
  obtain ⟨hlt, hpos⟩ := h.sized r hr
  have hcount := div_le_pagesFor hsize hpos hlt
  set n := size / pageSize with hn
  have hpage : ∀ q, pageOf r.address ≤ q → q < pageOf r.address + n → r.Page q := by
    intro q h1 h2
    exact ⟨h1, by omega⟩
  have hlast := h.inv.lt_of_present
    (h.present r hr (pageOf r.address + pagesFor r.size - 1) ⟨by omega, by omega⟩).1
  obtain ⟨hinv', hentry⟩ := memoryFree_kernel (k := pageOf r.address) h.inv
    (by rw [← hn]; omega)
    fun q h1 h2 => (h.present r hr q (hpage q h1 h2)).2
  rw [h.aligned r hr] at hinv' hentry
  have hsub : ∀ r' ∈ live.erase r, r' ∈ live := fun r' hr' => List.mem_of_mem_erase hr'
  have hperm := h.disjoint.perm (List.perm_cons_erase hr)
    (fun {r₁ r₂} hdis p hp₂ hp₁ => hdis p hp₁ hp₂)
  obtain ⟨hother, hdisjoint⟩ := List.pairwise_cons.mp hperm
  refine ⟨hinv', fun r' hr' => h.aligned r' (hsub r' hr'), fun r' hr' => h.sized r' (hsub r' hr'),
    ?_, hdisjoint⟩
  intro r' hr' p hp
  obtain ⟨hpres, hR⟩ := h.present r' (hsub r' hr') p hp
  refine ⟨h.inv.present_of_entry hinv' hpres (hentry p (h.inv.lt_of_present hpres) ?_), hR⟩
  rintro ⟨h1, h2⟩
  exact hother r' hr' p (hpage p h1 h2) hp

/-- One call keeps the invariant. -/
theorem kernelRunInv_step (h0 : R 0) (hfuel : 2 ^ 20 < fuel) {s s' : KernelState}
    (h : KernelRunInv L R s) (hstep : KernelStep L fuel s s') : KernelRunInv L R s' := by
  cases hstep with
  | allocate hsize halloc => exact kernelRunInv_allocate h0 hfuel hsize h halloc
  | free hr hsize => exact kernelRunInv_free h hr hsize

/-- What a run of the kernel can rely on, read off the tables the way the code does. -/
structure KernelSafe (L : Layout) (R : ℕ → Prop) (s : KernelState) : Prop where
  mapped : ∀ va, isPagePresent s.machine L.kernelPageDirectory va = true →
    s.machine.used (pageOf (getPhysicalAddress s.machine L.kernelPageDirectory va)) = true
  injective : ∀ va va', isPagePresent s.machine L.kernelPageDirectory va = true →
    isPagePresent s.machine L.kernelPageDirectory va' = true →
    pageOf (getPhysicalAddress s.machine L.kernelPageDirectory va)
      = pageOf (getPhysicalAddress s.machine L.kernelPageDirectory va') → pageOf va = pageOf va'
  pages : s.live.Pairwise fun r r' => ∀ p, r.Page p → ¬ r'.Page p
  frames : s.live.Pairwise fun r r' => ∀ p p', r.Page p → r'.Page p' →
    pageOf (getPhysicalAddress s.machine L.kernelPageDirectory (p * pageSize))
      ≠ pageOf (getPhysicalAddress s.machine L.kernelPageDirectory (p' * pageSize))
  present : ∀ r ∈ s.live, ∀ p, r.Page p →
    isPagePresent s.machine L.kernelPageDirectory (p * pageSize) = true
  init : ∀ r ∈ s.live, ∀ p, r.Page p → ¬ R p ∧
    ¬ R (pageOf (getPhysicalAddress s.machine L.kernelPageDirectory (p * pageSize)))

theorem pageOf_getPhysicalAddress (L : Layout) (m : Machine) (va : ℕ) :
    pageOf (getPhysicalAddress m L.kernelPageDirectory va) = frameOf L m (pageOf va) := by
  have hlt := frameOf_lt L m (pageOf va)
  rw [getPhysicalAddress, getPageTableEntry_eq, ← frameOf, pageOf]
  rw [pageSize]
  omega

/-- From the invariant, what clients rely on. -/
theorem KernelRunInv.safe {s : KernelState} (h : KernelRunInv L R s) : KernelSafe L R s := by
  have hlt : ∀ {r p}, r ∈ s.live → r.Page p → p < kernelPages :=
    fun hr hp => h.inv.lt_of_present (h.present _ hr _ hp).1
  have hpage : ∀ {r p}, r ∈ s.live → r.Page p → pageOf (p * pageSize) = p := by
    intro r p hr hp
    have := hlt hr hp
    rw [kernelPages] at this
    exact pageOf_mul_of_lt (by omega)
  -- the frames of different pages differ, so disjoint pages have disjoint frames
  have hframes : ∀ {r r' p p'}, r ∈ s.live → r' ∈ s.live → r.Page p → r'.Page p' →
      frameOf L s.machine p = frameOf L s.machine p' → p = p' := by
    intro r r' p p' hr hr' hp hp'
    exact h.inv.inj p (hlt hr hp) p' (hlt hr' hp') (h.present r hr p hp).1
      (h.present r' hr' p' hp').1
  refine ⟨?_, ?_, h.disjoint, ?_, ?_, ?_⟩
  · intro va hp
    rw [isPagePresent_eq] at hp
    rw [pageOf_getPhysicalAddress]
    exact h.inv.mapped _ (h.inv.lt_of_present hp) hp
  · intro va va' hp hp' heq
    rw [isPagePresent_eq] at hp hp'
    rw [pageOf_getPhysicalAddress, pageOf_getPhysicalAddress] at heq
    exact h.inv.inj _ (h.inv.lt_of_present hp) _ (h.inv.lt_of_present hp') hp hp' heq
  · refine h.disjoint.imp_of_mem ?_
    intro r r' hr hr' hdis p p' hp hp' heq
    rw [pageOf_getPhysicalAddress, pageOf_getPhysicalAddress, hpage hr hp, hpage hr' hp'] at heq
    exact hdis p hp (hframes hr hr' hp hp' heq ▸ hp')
  · intro r hr p hp
    rw [isPagePresent_eq, hpage hr hp]
    exact (h.present r hr p hp).1
  · intro r hr p hp
    obtain ⟨hpres, hR⟩ := h.present r hr p hp
    refine ⟨hR, ?_⟩
    rw [pageOf_getPhysicalAddress, hpage hr hp]
    intro hRf
    have hself := h.inv.self _ hRf
    have heq : p = frameOf L s.machine p := by
      apply h.inv.inj _ (hlt hr hp) _ (h.inv.below _ hRf) hpres hself.present
      exact hself.frame.symm
    rw [← heq] at hRf
    exact hR hRf

theorem initRun_lt {modules : List ModuleInfo}
    (hmods : ∀ module ∈ modules, WellPlaced module ∧ module.modEnd ≠ 2 ^ 30) {p : ℕ}
    (hp : InitRun L modules p) : p < kernelPages := by
  have hle := L.kernelRun_le
  rw [kernelPages] at *
  rcases hp with (hp | hp) | ⟨module, hmem, hp⟩
  · rw [inRun_iff (by omega)] at hp
    omega
  · rw [inRun_iff (by omega)] at hp
    omega
  · obtain ⟨⟨hal, hord, hbelow⟩, hne⟩ := hmods module hmem
    rw [ModuleRun, inRun_iff (by rw [pageSize]; omega)] at hp
    rw [pageSize] at hal hp
    omega

end

/-- In every state of every run the pages that are live are the client's alone, and nothing of the
kernel's. -/
theorem kernelMemory_safe (L : Layout) (fuel : ℕ) (m : Machine) (maps : List MemoryMap)
    (modules : List ModuleInfo) (hboot : Booted L m)
    (hmods : ∀ module ∈ modules, WellPlaced module ∧ module.modEnd ≠ 2 ^ 30)
    (hfuel : 2 ^ 20 < fuel) :
    ∃ m₀, init L fuel m maps modules = some m₀ ∧
      ∀ s, Relation.ReflTransGen (KernelStep L fuel) ⟨m₀, []⟩ s →
        KernelSafe L (InitRun L modules) s ∧
        ∀ size, ∃ r, memoryAllocate fuel s.machine L.kernelPageDirectory size false = some r := by
  obtain ⟨m₀, hm₀, hexact, hcr3⟩ := bootExact_init maps hboot hmods hfuel
  have h0 : InitRun L modules 0 :=
    Or.inl (Or.inr ((inRun_iff (by omega)).mpr ⟨Nat.le_refl _, by omega⟩))
  have hstart : KernelRunInv L (InitRun L modules) ⟨m₀, []⟩ :=
    ⟨kernelInv_init hexact hcr3 fun _ => initRun_lt hmods, by simp, by simp, by simp,
      List.Pairwise.nil⟩
  refine ⟨m₀, hm₀, ?_⟩
  intro s hrun
  have hinv := Run.invariant hrun hstart fun _ _ => kernelRunInv_step h0 hfuel
  refine ⟨hinv.safe, ?_⟩
  intro size
  obtain ⟨a, m', halloc, -⟩ := memoryAllocate_kernel hinv.inv h0 hfuel size
  exact ⟨_, halloc⟩

/-- A run of one allocation, on a machine with 128 MiB and a module after the image. -/
theorem kernelMemory_safe_allocate :
    ∃ m₀ a m₁, init minimalLayout (2 ^ 20 + 1) blankMachine [⟨0, 0x8000000, 1⟩]
        [⟨0x201000, 0x203000⟩] = some m₀ ∧
      memoryAllocate (2 ^ 20 + 1) m₀ minimalLayout.kernelPageDirectory 0x2000 false
        = some (a, m₁) ∧
      KernelSafe minimalLayout (InitRun minimalLayout [⟨0x201000, 0x203000⟩])
        ⟨m₁, if a = 0 then [] else [⟨a, 0x2000⟩]⟩ := by
  obtain ⟨m₀, hm₀, hsafe⟩ := kernelMemory_safe minimalLayout (2 ^ 20 + 1) blankMachine
    [⟨0, 0x8000000, 1⟩] [⟨0x201000, 0x203000⟩] (booted_blankMachine minimalLayout)
    (by
      intro module hmem
      rw [List.mem_singleton] at hmem
      subst hmem
      exact ⟨⟨by decide, by decide, by decide⟩, by decide⟩)
    (by omega)
  obtain ⟨⟨a, m₁⟩, halloc⟩ := (hsafe ⟨m₀, []⟩ .refl).2 0x2000
  exact ⟨m₀, a, m₁, hm₀, halloc, (hsafe _ (.single (.allocate (by decide) halloc))).1⟩

/-! ## A module that ends at 1 GiB -/

/-- A table frame `t` that is not the kernel's own: mapping it to itself in the kernel's
tables and putting it in a slot above the GiB changes one word of it. -/
theorem fillSlot_high {L : Layout} {m : Machine} {p t : ℕ} (h : KernelDirectory L m)
    (ht : t < kernelPages) (hnot : ¬ L.Own t) (f : ℕ) (isUser : Bool) :
    let m' := fillSlot (mapTo m L.kernelPageDirectory t false t).atomicDisable
      L.kernelPageDirectory p isUser f t
    slotPresent m' L.kernelPageDirectory (p / 1024) = true ∧
      tableOf m' L.kernelPageDirectory (p / 1024) = t ∧
      ∀ i, i ≠ p % 1024 → m'.ram t i = m.ram t i := by
  have hts : t / 1024 < 256 := by rw [kernelPages] at ht; omega
  have ht20 : t < 2 ^ 20 := by rw [kernelPages] at ht; omega
  have hne : t ≠ L.kernelPageDirectory := by
    rintro rfl
    exact hnot (Or.inl rfl)
  intro m'
  have hslot : m'.ram L.kernelPageDirectory (p / 1024) = Entry.map
      ((mapTo m L.kernelPageDirectory t false t).ram L.kernelPageDirectory (p / 1024)) isUser t := by
    rw [ram_fillSlot ht20 hne, if_neg fun h => hne h.1.symm, if_pos ⟨rfl, rfl⟩]
    rfl
  refine ⟨?_, ?_, ?_⟩
  · rw [slotPresent, hslot, Entry.present_map]
  · rw [tableOf, hslot, Entry.pageFrameNumber_map, Nat.mod_eq_of_lt ht20]
  · intro i hi
    rw [ram_fillSlot ht20 hne, if_neg fun h => hi h.2, if_neg fun h => hne h.1]
    apply Machine.ram_store_of_ne
    rintro ⟨he, -⟩
    rw [h.table _ hts] at he
    exact hnot (he ▸ L.own_table hts)

/-- A page above the GiB gets a table that is not the kernel's, with whatever that frame
held, when the free frames lie in the GiB. -/
theorem installPage_high {L : Layout} {m : Machine} {frames : List ℕ} {p : ℕ}
    (h : KernelDirectory L m)
    (hslot : slotPresent m L.kernelPageDirectory (p / 1024) = false)
    (hframes : ∀ t ∈ frames, t < kernelPages ∧ ¬ L.Own t) (f : ℕ) (isUser : Bool) :
    let m' := installPage L.kernelPageDirectory frames m p f isUser
    ∃ t, ¬ L.Own t ∧ slotPresent m' L.kernelPageDirectory (p / 1024) = true ∧
      tableOf m' L.kernelPageDirectory (p / 1024) = t ∧
      ∀ i, i ≠ p % 1024 → m'.ram t i = m.ram t i := by
  cases frames with
  | nil =>
    have hdir : KernelDirectory L (m.atomicEnable.allocatePage 0) := h.of_ram fun _ => rfl
    rw [installPage_nil hslot]
    exact ⟨0, L.not_own_zero, fillSlot_high hdir (by decide) L.not_own_zero f isUser⟩
  | cons t ts =>
    obtain ⟨ht, hnot⟩ := hframes t List.mem_cons_self
    have hdir : KernelDirectory L (m.allocatePage t).atomicEnable := h.of_ram fun _ => rfl
    have hpres : slotPresent (m.allocatePage t).atomicEnable L.kernelPageDirectory (t / 1024)
        = true := hdir.slot _ (by rw [kernelPages] at ht; omega)
    rw [installPage_cons hslot, installPage_of_present hpres]
    exact ⟨t, hnot, fillSlot_high hdir ht hnot f isUser⟩

/-- A machine whose memory, but for the kernel's tables, holds words with bit 0 set. -/
def dirtyMachine : Machine := { blankMachine with ram := dirtyRam }

theorem booted_dirtyMachine : Booted minimalLayout dirtyMachine := by
  refine ⟨fun _ => rfl, ?_⟩
  intro s hs i
  have htable : minimalLayout.kernelPageTable = 0x101 := rfl
  rw [htable, dirtyMachine]
  simp only [dirtyRam]
  rw [if_pos ⟨by omega, by omega⟩]

theorem ram_dirtyMachine {f : ℕ} (h : ¬ minimalLayout.Own f) (i : ℕ) :
    dirtyMachine.ram f i = 1 := by
  have hdir : minimalLayout.kernelPageDirectory = 0x100 := rfl
  have htable : minimalLayout.kernelPageTable = 0x101 := rfl
  rw [Layout.Own, hdir, htable] at h
  rw [dirtyMachine]
  simp only [dirtyRam]
  rw [if_neg (by omega)]

/-- The last page below 1 GiB. -/
def topModule : ModuleInfo := ⟨0x3FFFF000, 0x40000000⟩

theorem wellPlaced_topModule : WellPlaced topModule := ⟨by decide, by decide, by decide⟩

/-- The state after `reserveModule` of `topModule`: slot 256 names a frame with stray words
in it. -/
theorem reserveModule_topModule {R : ℕ → Prop} {fuel : ℕ} {m : Machine}
    (h : BootExact minimalLayout R m) (hfuel : 2 ^ 20 < fuel)
    (htotal : m.memManData.totalMemory = 0x40000000)
    (hram : ∀ g i, ¬ minimalLayout.Own g → m.ram g i = 1) :
    ∃ m', Multiboot.reserveModule fuel minimalLayout.kernelPageDirectory m topModule = some m' ∧
      ∀ i < 1024, i ≠ 0 → slotPresent m' minimalLayout.kernelPageDirectory 256 = true ∧
        pageEntry m' minimalLayout.kernelPageDirectory (0x40000 + i) = 1 := by
  set L := minimalLayout with hL
  set m₁ := m.physicalFree topModule.modStart 1 with hm₁
  have hdir₁ : KernelDirectory L m₁ := h.directory.of_ram fun _ => rfl
  have heq := reserveModule_eq wellPlaced_topModule fuel L.kernelPageDirectory m
  have hid := identityMap_eq (k := 0x3FFFF) 0x1000 hdir₁ (by omega) hfuel
  have hcount : pageAlign 0x1000 / pageSize = 2 := by decide
  rw [hcount] at hid
  set m₂ := m₁.atomicEnable.physicalAllocateAt (0x3FFFF * pageSize) 2 with hm₂
  have hdir₂ : KernelDirectory L m₂ := hdir₁.of_ram fun _ => rfl
  -- the page of the module itself
  have hstep := kernelMapped_mapTo hdir₂ (p := 0x3FFFF) (by decide) false 0x3FFFF
  set m₃ := mapTo m₂ L.kernelPageDirectory 0x3FFFF false 0x3FFFF with hm₃
  -- the page `identityMap` adds, in slot 256
  have hslot : slotPresent m₃ L.kernelPageDirectory (0x40000 / 1024) = false := by
    rw [slotPresent, hstep.ram]
    · exact h.high 256 (by omega)
    · rintro ⟨h1, h2⟩
      exact L.table_ne_directory (s := L.kernelPageDirectory - L.kernelPageTable) (by omega)
        (by omega)
  have hframes : ∀ t ∈ freeFrames m₃.memManData, t < kernelPages ∧ ¬ L.Own t := by
    intro t ht
    obtain ⟨hlt, hfree⟩ := mem_freeFrames.mp ht
    refine ⟨?_, ?_⟩
    · have htot : m₃.memManData.totalMemory = m.memManData.totalMemory := by
        rw [hstep.data]
        exact (totalMemory_physicalAllocateAt _ _ _).trans (totalMemory_physicalFree _ _ _)
      rw [htot, htotal] at hlt
      exact Nat.lt_of_lt_of_le hlt (by decide)
    · intro hown
      have hrun := L.inRun_of_own hown
      rw [inRun_iff (by decide)] at hrun
      have hused : m₂.used t = true := by
        rw [hm₂, used_machine_physicalAllocateAt]
        left
        refine (used_machine_physicalFree _ _ _ _).mpr ⟨h.used t (h.own t hown), ?_⟩
        rw [show pageOf topModule.modStart = 0x3FFFF by decide, inRun_iff (by omega)]
        have hk : L.kernelRun = 0x103 := by decide
        omega
      rw [hstep.data, ← Machine.used, hused] at hfree
      exact Bool.false_ne_true hfree.symm
  obtain ⟨t, hnot, hpres, htable, hwords⟩ := installPage_high hstep.directory hslot hframes
    0x40000 false
  refine ⟨_, heq.trans hid, ?_⟩
  have hinstall : installPages L.kernelPageDirectory false 2 m₂ 0x3FFFF 0x3FFFF
      = installPage L.kernelPageDirectory (freeFrames m₃.memManData) m₃ 0x40000 0x40000 false := by
    rw [installPages, installPage_of_present (hdir₂.slot _ (by omega)), installPages, installPages,
      show (0x3FFFF + 1) % 2 ^ 20 = 0x40000 by omega]
  rw [hinstall]
  intro i hi hne
  refine ⟨hpres, ?_⟩
  have hpage : (0x40000 + i) / 1024 = 0x40000 / 1024 := by omega
  have hidx : (0x40000 + i) % 1024 = i := by omega
  have hword : m₃.ram t i = 1 := by
    rw [hstep.ram t i fun ht => hnot (Or.inr ht)]
    exact hram t i hnot
  rw [pageEntry, hpage, hidx]
  change Machine.ram _ (tableOf (installPage L.kernelPageDirectory (freeFrames m₃.memManData) m₃
    0x40000 0x40000 false) L.kernelPageDirectory (0x40000 / 1024)) i = 1
  rw [htable, ← hword, ← hwords i (by omega)]
  rfl

/-- Two pages of the table `init` takes for the end of `topModule` map frame 0. -/
theorem topModule_maps_twice :
    ∃ m₀, init minimalLayout (2 ^ 20 + 1) dirtyMachine [⟨0, 0x40000000, 1⟩] [topModule] = some m₀ ∧
      ¬ KernelSafe minimalLayout (InitRun minimalLayout [topModule]) ⟨m₀, []⟩ := by
  obtain ⟨m₁, m₂, hm₁, hm₂, hex, hdata, hram⟩ := bootExact_lowMemory
    [⟨0, 0x40000000, 1⟩] booted_dirtyMachine (show 2 ^ 20 < 2 ^ 20 + 1 by omega)
  obtain ⟨m₃, hm₃, hstray⟩ := reserveModule_topModule hex (show 2 ^ 20 < 2 ^ 20 + 1 by omega)
    (by
      rw [hdata]
      simp only [totalMemory_physicalAllocateAt]
      apply BitVec.eq_of_toNat_eq
      rw [totalMemory_physicalAllocatorInit]
      decide)
    (fun g i hg => (hram g i hg).trans (ram_dirtyMachine hg i))
  refine ⟨{ m₃ with cr3 := pageOf (getPhysicalAddress m₃ minimalLayout.kernelPageDirectory
    (minimalLayout.kernelPageDirectory * pageSize)) }, ?_, ?_⟩
  · simp only [init, hm₁, hm₂, Multiboot.reserveModuleMemory, List.foldlM_cons, List.foldlM_nil,
      hm₃, Option.pure_def, Option.bind_eq_bind, Option.bind_some]
  · intro hsafe
    -- the pages after the first of the stray table are mapped, all to frame 0
    have hpage : ∀ i < 1024, i ≠ 0 →
        isPagePresent m₃ minimalLayout.kernelPageDirectory ((0x40000 + i) * pageSize) = true ∧
        pageOf (getPhysicalAddress m₃ minimalLayout.kernelPageDirectory
          ((0x40000 + i) * pageSize)) = 0 := by
      intro i hi hne
      obtain ⟨hslot, hentry⟩ := hstray i hi hne
      have hof : pageOf ((0x40000 + i) * pageSize) = 0x40000 + i := pageOf_mul_of_lt (by omega)
      refine ⟨?_, ?_⟩
      · rw [isPagePresent_eq, hof, pagePresent, hentry,
          show (0x40000 + i) / 1024 = 256 by omega, hslot]
        decide
      · rw [pageOf_getPhysicalAddress, hof, frameOf, hentry]
        decide
    obtain ⟨hp₁, hf₁⟩ := hpage 1 (by omega) (by omega)
    obtain ⟨hp₂, hf₂⟩ := hpage 2 (by omega) (by omega)
    exact absurd (hsafe.injective _ _ hp₁ hp₂ (hf₁.trans hf₂.symm)) (by decide)

end Sakura.MemoryManager
