import Sakura.MemoryManager.DirectoryRoles

/-!
# First fit

The search of `VirtualAllocate` for kernel memory finds the lowest run of absent pages
(`foundAddress_first`), and `physicalAllocate` the lowest free frame. For a single page in the
active directory `memoryAllocate` is then known exactly (`memoryAllocate_page`).
-/

namespace Sakura.MemoryManager

open MemoryManagerData

/-- The `n` pages from page `k` on are absent, and lie below page `M`. -/
def AbsentRun (m : Machine) (pd M n k : ℕ) : Prop :=
  k + n ≤ M ∧ ∀ p, k ≤ p → p < k + n → pagePresent m pd p = false

/-- One pass of the search over the pages from `s` up to `M`, `idx` absent pages into a run: it
stops at the lowest run of `n` absent pages, or comes to page `M` with the absent pages right
below it as its candidate. Addresses are modulo `2 ^ 32`, so page `2 ^ 20` is page 0. -/
theorem searchRange_pass (m : Machine) (pd : ℕ) {bound M n : ℕ} (hM : M ≤ 2 ^ 20)
    (hbound : ∀ p < M, p * pageSize < bound) (fuel rest : ℕ) : ∀ {s idx : ℕ},
    s + idx + rest = M → idx < n →
    (∀ p, s ≤ p → p < s + idx → pagePresent m pd p = false) →
    (∃ k, searchRange m pd bound n (rest + fuel) ((s + idx) * pageSize % 2 ^ 32)
        (s * pageSize % 2 ^ 32) idx = some (some (k * pageSize)) ∧ s ≤ k ∧ AbsentRun m pd M n k ∧
      ∀ j, s ≤ j → j < k → ¬ AbsentRun m pd M n j) ∨
    (∃ s' idx', s' + idx' = M ∧ (∀ p, s' ≤ p → p < M → pagePresent m pd p = false) ∧
      searchRange m pd bound n (rest + fuel) ((s + idx) * pageSize % 2 ^ 32)
          (s * pageSize % 2 ^ 32) idx
        = searchRange m pd bound n fuel (M * pageSize % 2 ^ 32) (s' * pageSize % 2 ^ 32) idx' ∧
      ∀ j, s ≤ j → ¬ AbsentRun m pd M n j) := by
  induction rest with
  | zero =>
    intro s idx hle hidx habs
    right
    refine ⟨s, idx, hle, fun p h1 h2 => habs p h1 (by omega), ?_, ?_⟩
    · rw [Nat.zero_add, show s + idx = M by omega]
    · rintro j h1 ⟨h2, -⟩
      omega
  | succ rest ih =>
    intro s idx hle hidx habs
    have hlt : (s + idx) * pageSize < 2 ^ 32 := by
      rw [pageSize]
      omega
    have hnext : ((s + idx) * pageSize + pageSize) % 2 ^ 32 = (s + idx + 1) * pageSize % 2 ^ 32 := by
      rw [Nat.add_mul (s + idx) 1, Nat.one_mul]
    have hpage : pageOf ((s + idx) * pageSize) = s + idx := pageOf_mul_of_lt (by omega)
    rw [Nat.add_right_comm rest 1 fuel, Nat.mod_eq_of_lt hlt, searchRange,
      if_pos (hbound _ (by omega))]
    simp only [hnext, isPagePresent_eq, hpage]
    by_cases hp : pagePresent m pd (s + idx) = true
    · -- no run that starts at or before this page gets past it
      have hskip : ∀ {j}, s ≤ j → AbsentRun m pd M n j → s + idx + 1 ≤ j := by
        rintro j h1 ⟨-, hrun⟩
        by_contra hlt'
        rw [hrun (s + idx) (by omega) (by omega)] at hp
        exact Bool.false_ne_true hp
      rw [if_pos hp]
      obtain ⟨k, hk, hsk, hrun, hfirst⟩ | ⟨s', idx', hsum, hrun, hgo, hfirst⟩ :=
        ih (show s + idx + 1 + 0 + rest = M by omega) (by omega) (by intro p h1 h2; omega)
      · exact Or.inl ⟨k, hk, by omega, hrun, fun j h1 h2 hj => hfirst j (hskip h1 hj) h2 hj⟩
      · exact Or.inr ⟨s', idx', hsum, hrun, hgo, fun j h1 hj => hfirst j (hskip h1 hj) hj⟩
    · rw [if_neg hp]
      have habs' : ∀ p, s ≤ p → p < s + (idx + 1) → pagePresent m pd p = false := by
        intro p h1 h2
        by_cases hpe : p = s + idx
        · rw [hpe]
          simpa using hp
        · exact habs p h1 (by omega)
      rw [Nat.mod_eq_of_lt (show idx + 1 < 2 ^ 32 by omega)]
      by_cases hn : idx + 1 = n
      · rw [if_pos hn]
        left
        refine ⟨s, ?_, Nat.le_refl _, ⟨by omega, by rw [← hn]; exact habs'⟩,
          fun j h1 h2 => by omega⟩
        rw [Nat.mod_eq_of_lt (show s * pageSize < 2 ^ 32 by rw [pageSize]; omega)]
      · rw [if_neg hn]
        exact @ih s (idx + 1) (by omega) (by omega) habs'

/-- The search from page `s` on, `idx` absent pages into a run. -/
theorem searchRange_first {m : Machine} {pd M n : ℕ} (hM : M < 2 ^ 20) (fuel : ℕ)
    {s idx : ℕ} (hle : s + idx ≤ M) (hfuel : M - (s + idx) < fuel) (hidx : idx < n)
    (habs : ∀ p, s ≤ p → p < s + idx → pagePresent m pd p = false) :
    (∃ k, searchRange m pd (M * pageSize) n fuel ((s + idx) * pageSize) (s * pageSize) idx
        = some (some (k * pageSize)) ∧ s ≤ k ∧ AbsentRun m pd M n k ∧
      ∀ j, s ≤ j → j < k → ¬ AbsentRun m pd M n j) ∨
    (searchRange m pd (M * pageSize) n fuel ((s + idx) * pageSize) (s * pageSize) idx
        = some none ∧ ∀ j, s ≤ j → ¬ AbsentRun m pd M n j) := by
  obtain ⟨fuel, rfl⟩ : ∃ k, fuel = M - (s + idx) + (k + 1) := ⟨fuel - (M - (s + idx)) - 1, by omega⟩
  have hmod : ∀ p ≤ M, p * pageSize % 2 ^ 32 = p * pageSize := by
    intro p hp
    rw [pageSize]
    omega
  have hpass := searchRange_pass m pd (n := n) (Nat.le_of_lt hM)
    (fun p hp => Nat.mul_lt_mul_of_pos_right hp (show 0 < pageSize by decide)) (fuel + 1)
    (M - (s + idx)) (show s + idx + (M - (s + idx)) = M by omega) hidx habs
  rw [hmod _ hle, hmod s (by omega), hmod M (Nat.le_refl _)] at hpass
  obtain hfound | ⟨s', idx', hsum, -, hgo, hnone⟩ := hpass
  · exact Or.inl hfound
  · right
    refine ⟨?_, hnone⟩
    rw [hgo, searchRange, if_neg (Nat.lt_irrefl _)]

/-- Kernel memory is found at the lowest run of absent pages from 1 MiB on. -/
theorem foundAddress_first {fuel n : ℕ} {m : Machine} {pd : ℕ} (hfuel : 2 ^ 20 < fuel)
    (hn : 0 < n) :
    (∃ k, foundAddress fuel m pd n false = some (some (k * pageSize)) ∧ 256 ≤ k ∧
        AbsentRun m pd kernelPages n k ∧
        ∀ j, 256 ≤ j → j < k → ¬ AbsentRun m pd kernelPages n j) ∨
    (foundAddress fuel m pd n false = some none ∧
      ∀ j, 256 ≤ j → ¬ AbsentRun m pd kernelPages n j) := by
  have hstart : searchStart false = (256 + 0) * pageSize := by decide
  have hend : searchEnd false = kernelPages * pageSize := by decide
  rw [foundAddress, hstart, hend]
  exact searchRange_first (by decide) fuel (s := 256) (by decide)
    (by rw [kernelPages]; omega) hn (by intro p h1 h2; omega)

/-- Page `k` is the lowest absent page of the kernel's from 1 MiB on. -/
def FirstAbsent (m : Machine) (pd k : ℕ) : Prop :=
  256 ≤ k ∧ k < kernelPages ∧ pagePresent m pd k = false ∧
    ∀ j, 256 ≤ j → j < k → pagePresent m pd j = true

theorem absentRun_one {m : Machine} {pd k : ℕ} :
    AbsentRun m pd kernelPages 1 k ↔ k < kernelPages ∧ pagePresent m pd k = false := by
  constructor
  · rintro ⟨h1, h2⟩
    exact ⟨by omega, h2 k (Nat.le_refl _) (by omega)⟩
  · rintro ⟨h1, h2⟩
    refine ⟨by omega, fun p h3 h4 => ?_⟩
    rw [show p = k by omega]
    exact h2

theorem foundAddress_page {fuel : ℕ} {m : Machine} {pd : ℕ} (hfuel : 2 ^ 20 < fuel) (k : ℕ) :
    foundAddress fuel m pd 1 false = some (some (k * pageSize)) ↔ FirstAbsent m pd k := by
  have hfirst : ∀ {j k}, 256 ≤ j → (∀ i, 256 ≤ i → i < k → ¬ AbsentRun m pd kernelPages 1 i) →
      k ≤ kernelPages → j < k → pagePresent m pd j = true := by
    intro j k h1 h2 h3 h4
    have := h2 j h1 h4
    rw [absentRun_one, not_and] at this
    simpa using this (by omega)
  obtain ⟨k', hk', h256, hrun, hlow⟩ | ⟨hnone, hlow⟩ :=
    foundAddress_first (m := m) hfuel (Nat.zero_lt_one)
  · -- the page found is the first absent one, and there is one such page only
    rw [absentRun_one] at hrun
    rw [hk']
    constructor
    · intro heq
      have hkk : k' = k := by
        have := Option.some.inj (Option.some.inj heq)
        rw [pageSize] at this
        omega
      subst hkk
      exact ⟨h256, hrun.1, hrun.2, fun j h1 h2 => hfirst h1 hlow (by omega) h2⟩
    · rintro ⟨h1, h2, h3, h4⟩
      have hkk : k' = k := by
        rcases Nat.lt_trichotomy k' k with hlt | heq | hgt
        · rw [h4 k' h256 hlt] at hrun
          exact absurd hrun.2 (by simp)
        · exact heq
        · exact absurd (absentRun_one.mpr ⟨h2, h3⟩) (hlow k h1 hgt)
      rw [hkk]
  · rw [hnone]
    constructor
    · intro h
      cases h
    · rintro ⟨h1, h2, h3, -⟩
      exact absurd (absentRun_one.mpr ⟨h2, h3⟩) (hlow k h1)

/-! ## One page -/

section

variable {L : Layout} {m : Machine} {fuel pd f k : ℕ} {fs : List ℕ}

/-- A page of kernel memory in the active directory: the lowest free frame at the lowest absent
page, cleared. -/
theorem memoryAllocate_page (hkernel : HoldsKernelEntries L m pd) (hown : OwnFrame m pd)
    (hcr3 : m.cr3 = pd) (hfuel : 2 ^ 20 < fuel) (hfree : freeFrames m.memManData = f :: fs)
    (hf : f ≠ 0) (hk : FirstAbsent m pd k) :
    memoryAllocate fuel m pd pageSize false = some (k * pageSize,
      ((mapTo (m.atomicEnable.allocatePage f) pd k false f).atomicDisable).zeroFrame f) := by
  have hone : pagesFor pageSize = 1 := by decide
  have hk20 : k < 2 ^ 20 := by
    have := hk.2.1
    rw [kernelPages] at this
    omega
  have hf20 : f < 2 ^ 20 := freeFrames_lt (hfree ▸ List.mem_cons_self)
  have hslotk : slotPresent (m.atomicEnable.allocatePage f) pd (k / 1024) = true := by
    have := hk.2.1
    rw [kernelPages] at this
    exact (hkernel (k / 1024) (by omega)).1
  have hframes : m.atomicEnable.physicalAllocate 1
      = (f * pageSize, m.atomicEnable.allocatePage f) := by
    have hfree' : freeFrames m.atomicEnable.memManData = f :: fs := hfree
    rw [Machine.physicalAllocate, physicalAllocate_one, hfree']
    rfl
  have hfound : foundAddress fuel (m.atomicEnable.allocatePage f) pd 1 false
      = some (some (k * pageSize)) := (foundAddress_page hfuel k).mpr hk
  have hlen := length_freeFrames_lt (m.atomicEnable.allocatePage f).memManData
  have hmap : virtualMap fuel (m.atomicEnable.allocatePage f) pd (k * pageSize) (f * pageSize) 1
      false = some (mapTo (m.atomicEnable.allocatePage f) pd k false f) := by
    have hslot0 : slotPresent (m.atomicEnable.allocatePage f) pd 0 = true := hown.slot_zero
    rw [virtualMap_eq _ _ _ _ hslot0 (by omega), pageOf_mul_of_lt hk20, pageOf_mul_of_lt hf20,
      installPages, installPages, installPage_of_present hslotk]
  have hpos : 0 < f * pageSize := by
    rw [pageSize]
    omega
  have hkpos : k * pageSize ≠ 0 := by
    have := hk.1
    rw [pageSize]
    omega
  -- the page is mapped to the frame
  set m₁ := mapTo (m.atomicEnable.allocatePage f) pd k false f with hm₁
  have hdir : ∀ s, m₁.ram pd s = m.ram pd s := by
    intro s
    apply Machine.ram_store_of_ne
    rintro ⟨he, -⟩
    exact hown.table_ne (k / 1024) (by omega) hslotk he.symm
  have hentry : pageEntry m₁ pd k = Entry.map (pageEntry m pd k) false f := by
    rw [pageEntry, tableOf, hdir, ← tableOf]
    exact Machine.ram_store_self (m.atomicEnable.allocatePage f) _ _ _
  have htrans : translate m₁.atomicDisable (k * pageSize) = some f := by
    have hpres : pagePresent m₁ pd k = true := by
      rw [pagePresent, slotPresent, hdir, hentry, Entry.present_map, Bool.and_true]
      exact hslotk
    rw [translate, isPagePresent_eq, getPageTableEntry_eq, pageOf_mul_of_lt hk20,
      show m₁.atomicDisable.cr3 = pd from hcr3]
    refine (if_pos hpres).trans (congrArg some ?_)
    rw [show pageEntry m₁.atomicDisable pd k = pageEntry m₁ pd k from rfl, hentry,
      Entry.pageFrameNumber_map, Nat.mod_eq_of_lt hf20]
  rw [memoryAllocate, hone, hframes]
  simp only
  rw [if_pos hpos, virtualAllocate, ← foundAddress, hfound, Option.bind_some]
  simp only [hmap, Option.map_some, Option.bind_some]
  rw [if_neg hkpos, memset, htrans, Option.bind_some, memset, Option.map_some]

/-- The effect of giving a page of kernel memory: frame `f` at page `k`, with whatever in it. -/
structure PageGiven (m m' : Machine) (k f : ℕ) : Prop where
  free : freeFrames m.memManData = f :: freeFrames m'.memManData
  used : ∀ g, m'.used g = true ↔ m.used g = true ∨ g = f
  cr3 : m'.cr3 = m.cr3
  frame : translate m' (k * pageSize) = some f
  page : ∀ q < kernelPages, q ≠ k → pagePresent m' m.cr3 q = pagePresent m m.cr3 q ∧
    pageEntry m' m.cr3 q = pageEntry m m.cr3 q
  ram : ∀ g i, g ≠ f → g ≠ tableOf m m.cr3 (k / 1024) → m'.ram g i = m.ram g i

/-- The frame of a page that is given holds nothing a kernel page is found through. -/
structure FreshFrame (L : Layout) (m : Machine) (f : ℕ) : Prop where
  directory : m.cr3 ≠ f
  table : ∀ s < 256, L.kernelPageTable + s ≠ f

/-- What is written into the page given does not matter. -/
theorem PageGiven.of_ram {m' w : Machine} (h : PageGiven m m' k f) (hfresh : FreshFrame L m f)
    (hkernel : HoldsKernelEntries L m' m.cr3) (hk : k < kernelPages)
    (hdata : w.memManData = m'.memManData) (hcr3 : w.cr3 = m'.cr3)
    (hram : ∀ g i, g ≠ f → w.ram g i = m'.ram g i) : PageGiven m w k f := by
  have hsame : ∀ q < kernelPages, pagePresent w m.cr3 q = pagePresent m' m.cr3 q ∧
      pageEntry w m.cr3 q = pageEntry m' m.cr3 q := by
    intro q hq
    have hslot : q / 1024 < 256 := by
      rw [kernelPages] at hq
      omega
    have hdir : w.ram m.cr3 (q / 1024) = m'.ram m.cr3 (q / 1024) := hram _ _ hfresh.directory
    have hentry : pageEntry w m.cr3 q = pageEntry m' m.cr3 q := by
      rw [pageEntry, tableOf, hdir, ← tableOf, hram, ← pageEntry]
      rw [(hkernel _ hslot).2]
      exact hfresh.table _ hslot
    exact ⟨by rw [pagePresent, slotPresent, hdir, hentry, ← slotPresent, ← pagePresent], hentry⟩
  have hk20 : k < 2 ^ 20 := by
    rw [kernelPages] at hk
    omega
  refine ⟨by rw [hdata]; exact h.free, ?_, hcr3.trans h.cr3, ?_, ?_, ?_⟩
  · intro g
    rw [Machine.used, hdata]
    exact h.used g
  · have hframe := h.frame
    rw [translate, isPagePresent_eq, getPageTableEntry_eq, pageOf_mul_of_lt hk20, h.cr3] at hframe
    rw [translate, isPagePresent_eq, getPageTableEntry_eq, pageOf_mul_of_lt hk20, hcr3, h.cr3,
      (hsame k hk).1, (hsame k hk).2]
    exact hframe
  · intro q hq hne
    rw [(hsame q hq).1, (hsame q hq).2]
    exact h.page q hq hne
  · intro g i hg ht
    rw [hram g i hg, h.ram g i hg ht]

theorem freshFrame_of_unused (hown : OwnFrame m m.cr3) (hown' : ∀ g, L.Own g → m.used g = true)
    (hunused : m.used f = false) : FreshFrame L m f :=
  ⟨ne_of_used hown.used hunused, fun _ hs => ne_of_used (hown' _ (L.own_table hs)) hunused⟩

/-- A page of kernel memory in the active directory, in full. -/
theorem pageGiven_memoryAllocate (hkernel : HoldsKernelEntries L m m.cr3) (hown : OwnFrame m m.cr3)
    (hown' : ∀ g, L.Own g → m.used g = true) (hfuel : 2 ^ 20 < fuel)
    (hfree : freeFrames m.memManData = f :: fs) (hf : f ≠ 0) (hk : FirstAbsent m m.cr3 k) :
    ∃ m', memoryAllocate fuel m m.cr3 pageSize false = some (k * pageSize, m') ∧
      PageGiven m m' k f ∧ ∀ i, m'.ram f i = 0 := by
  have hk20 : k < 2 ^ 20 := by
    have := hk.2.1
    rw [kernelPages] at this
    omega
  have hf20 : f < 2 ^ 20 := freeFrames_lt (hfree ▸ List.mem_cons_self)
  have hfresh : FreshFrame L m f := freshFrame_of_unused hown hown'
    (mem_freeFrames.mp (hfree ▸ List.mem_cons_self)).2
  have hks : k / 1024 < 256 := by
    have := hk.2.1
    rw [kernelPages] at this
    omega
  have hslotk : slotPresent m m.cr3 (k / 1024) = true := (hkernel (k / 1024) hks).1
  have htf : tableOf m m.cr3 (k / 1024) ≠ f := by
    rw [(hkernel (k / 1024) hks).2]
    exact hfresh.table _ hks
  refine ⟨_, memoryAllocate_page hkernel hown rfl hfuel hfree hf hk, ?_, fun i => if_pos rfl⟩
  set m₁ := ((mapTo (m.atomicEnable.allocatePage f) m.cr3 k false f).atomicDisable).zeroFrame f
    with hm₁
  -- nothing but the frame and the entry of the page has been written
  have hstore : ∀ g i, g ≠ f → m₁.ram g i
      = (mapTo (m.atomicEnable.allocatePage f) m.cr3 k false f).ram g i :=
    fun g i hg => if_neg hg
  have hram : ∀ g i, g ≠ f → ¬ (g = tableOf m m.cr3 (k / 1024) ∧ i = k % 1024) →
      m₁.ram g i = m.ram g i := by
    intro g i hg ht
    rw [hstore g i hg]
    exact Machine.ram_store_of_ne _ _ ht
  have hdir : ∀ s, m₁.ram m.cr3 s = m.ram m.cr3 s := fun s =>
    hram _ _ hfresh.directory fun he => hown.table_ne (k / 1024) (by omega) hslotk he.1.symm
  have hentry : pageEntry m₁ m.cr3 k = Entry.map (pageEntry m m.cr3 k) false f := by
    rw [pageEntry, tableOf, hdir, ← tableOf, hstore _ _ htf]
    exact Machine.ram_store_self (m.atomicEnable.allocatePage f) _ _ _
  refine ⟨?_, ?_, rfl, ?_, ?_, ?_⟩
  · rw [hfree]
    exact congrArg _ (freeFrames_allocatePage hfree).symm
  · intro g
    have hused := used_allocatePage m.memManData (f * pageSize) g
    rw [pageOf_mul_of_lt hf20] at hused
    exact hused
  · have hpres : pagePresent m₁ m.cr3 k = true := by
      rw [pagePresent, slotPresent, hdir, hentry, Entry.present_map, Bool.and_true]
      exact hslotk
    rw [translate, isPagePresent_eq, getPageTableEntry_eq, pageOf_mul_of_lt hk20,
      show m₁.cr3 = m.cr3 from rfl, if_pos hpres, hentry, Entry.pageFrameNumber_map,
      Nat.mod_eq_of_lt hf20]
  · intro q hq hne
    have hqs : q / 1024 < 256 := by
      rw [kernelPages] at hq
      omega
    have hsame : pageEntry m₁ m.cr3 q = pageEntry m m.cr3 q := by
      rw [pageEntry, tableOf, hdir, ← tableOf, hram, ← pageEntry]
      · rw [(hkernel _ hqs).2]
        exact hfresh.table _ hqs
      · rintro ⟨ht, hi⟩
        rw [(hkernel _ hqs).2, (hkernel _ hks).2] at ht
        omega
    exact ⟨by rw [pagePresent, slotPresent, hdir, hsame, ← slotPresent, ← pagePresent], hsame⟩
  · exact fun g i hg ht => hram g i hg fun he => ht he.1

/-- What `mapKernelPageTable` does to a page that was allocated. -/
theorem createUserPageDirectory_eq {m₁ : Machine} {va : ℕ}
    (halloc : memoryAllocate fuel m.atomicEnable m.cr3 pageSize false = some (va, m₁))
    (hva : va ≠ 0) (htrans : translate m₁ va = some f) :
    ∃ w, createUserPageDirectory L fuel m = some (va, w) ∧ w.cr3 = m₁.cr3 ∧
      w.memManData = m₁.memManData ∧ ∀ g i, w.ram g i =
        if g = f ∧ i < 256 then kernelEntry (m₁.ram g i) (L.kernelPageTable + i)
        else m₁.ram g i := by
  obtain ⟨hdata, hcr3⟩ := fields_mapKernelPageTable L m₁ f
  have hram := ram_mapKernelPageTable L m₁ f
  obtain ⟨w, hw⟩ : ∃ w, w = mapKernelPageTable L m₁ f := ⟨_, rfl⟩
  rw [← hw] at hdata hcr3 hram
  refine ⟨w.atomicDisable, ?_, hcr3, hdata, hram⟩
  rw [createUserPageDirectory, halloc, Option.bind_some]
  simp only
  rw [if_neg hva, htrans, Option.map_some, hw]

/-- `createUserPageDirectory` when there is a frame and a page: the frame becomes the directory,
found at the page. -/
theorem pageGiven_createUserPageDirectory (hkernel : HoldsKernelEntries L m m.cr3)
    (hown : OwnFrame m m.cr3) (hown' : ∀ g, L.Own g → m.used g = true) (hfuel : 2 ^ 20 < fuel)
    (hfree : freeFrames m.memManData = f :: fs) (hf : f ≠ 0) (hk : FirstAbsent m m.cr3 k) :
    ∃ w, createUserPageDirectory L fuel m = some (k * pageSize, w) ∧ PageGiven m w k f ∧
      ∀ i, w.ram f i = if i < 256 then kernelEntry 0 (L.kernelPageTable + i) else 0 := by
  have hfresh : FreshFrame L m f := freshFrame_of_unused hown hown'
    (mem_freeFrames.mp (hfree ▸ List.mem_cons_self)).2
  obtain ⟨m₁, halloc, hgiven, hzero⟩ := pageGiven_memoryAllocate (L := L) (m := m.atomicEnable)
    hkernel ⟨hown.ne_zero, hown.used, hown.slot_zero, hown.table_ne⟩ hown' hfuel hfree hf hk
  have hgiven : PageGiven m m₁ k f :=
    ⟨hgiven.free, hgiven.used, hgiven.cr3, hgiven.frame, hgiven.page, hgiven.ram⟩
  have hkpos : k * pageSize ≠ 0 := by
    have := hk.1
    rw [pageSize]
    omega
  obtain ⟨w, hcreate, hcr3, hdata, hram⟩ := createUserPageDirectory_eq (L := L) halloc hkpos
    hgiven.frame
  have hkernel₁ : HoldsKernelEntries L m₁ m.cr3 := hkernel.congr fun i hi =>
    hgiven.ram _ _ hfresh.directory fun he => hown.table_ne (k / 1024)
      (by have := hk.2.1; rw [kernelPages] at this; omega)
      (hkernel _ (by have := hk.2.1; rw [kernelPages] at this; omega)).1 he.symm
  refine ⟨w, hcreate, hgiven.of_ram hfresh hkernel₁ hk.2.1 hdata hcr3 ?_, ?_⟩
  · intro g i hg
    rw [hram, if_neg fun he => hg he.1]
  · intro i
    rw [hram, hzero]
    simp only [true_and]

theorem createUserPageDirectory_page (hkernel : HoldsKernelEntries L m m.cr3)
    (hown : OwnFrame m m.cr3) (hown' : ∀ g, L.Own g → m.used g = true) (hfuel : 2 ^ 20 < fuel)
    (hfree : freeFrames m.memManData = f :: fs) (hf : f ≠ 0) (hk : FirstAbsent m m.cr3 k) :
    ∃ w, createUserPageDirectory L fuel m = some (k * pageSize, w) ∧ w.cr3 = m.cr3 ∧
      freeFrames w.memManData = fs ∧ translate w (k * pageSize) = some f ∧
      (∀ i, w.ram f i = if i < 256 then kernelEntry 0 (L.kernelPageTable + i) else 0) ∧
      ∀ g i, g ≠ f → g ≠ tableOf m m.cr3 (k / 1024) → w.ram g i = m.ram g i := by
  obtain ⟨w, hcreate, hgiven, hram⟩ :=
    pageGiven_createUserPageDirectory hkernel hown hown' hfuel hfree hf hk
  have hfs := hgiven.free
  rw [hfree] at hfs
  exact ⟨w, hcreate, hgiven.cr3, (List.cons.inj hfs).2.symm, hgiven.frame, hram, hgiven.ram⟩

end

end Sakura.MemoryManager
