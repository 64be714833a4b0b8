import Sakura.MemoryManager.MemoryManager
import Sakura.MemoryManager.VirtualMapTheorems

/-!
# The kernel's GiB

The first 256 slots of `kernelPageDirectory` name the tables `kernelPageTable[0..255]`, so
a page below 1 GiB always has its table and mapping it only writes that table.
`KernelDirectory` states this, together with what keeps it true: no other slot names one of
the frames the directory and these tables live in (`Layout.Own`).

* `installPages_kernel` is the exact effect of `VirtualMap` below 1 GiB;
* `selfMap_installPages` is what survives of it for a run that leaves the GiB (the page
  `identityMap` adds after a module that ends there) and needs new tables.
-/

namespace Sakura.MemoryManager

open MemoryManagerData

/-- The number of pages of the kernel's GiB. -/
def kernelPages : ℕ := 2 ^ 18

/-- The frames of `kernelPageDirectory` and `kernelPageTable`. -/
def Layout.Own (L : Layout) (f : ℕ) : Prop :=
  f = L.kernelPageDirectory ∨ (L.kernelPageTable ≤ f ∧ f < L.kernelPageTable + 256)

theorem Layout.own_table (L : Layout) {s : ℕ} (hs : s < 256) : L.Own (L.kernelPageTable + s) :=
  Or.inr ⟨by omega, by omega⟩

theorem Layout.table_ne_directory (L : Layout) {s : ℕ} (hs : s < 256) :
    L.kernelPageTable + s ≠ L.kernelPageDirectory := by
  have h := L.disjoint
  rw [numKernelPageTables] at h
  omega

theorem Layout.own_lt (L : Layout) {f : ℕ} (h : L.Own f) : f < 2 ^ 20 := by
  have h1 := L.kernelEnd_le
  have h2 := L.directory_le
  have h3 := L.table_le
  rw [pageSize] at h1 h2 h3
  rw [numKernelPageTables] at h3
  rcases h with rfl | ⟨-, h⟩ <;> omega

/-- Frame 0, the table of last resort, is not the kernel's. -/
theorem Layout.not_own_zero (L : Layout) : ¬ L.Own 0 := by
  have h1 := L.le_directory
  have h2 := L.le_table
  rw [kernelStart, pageSize] at h1 h2
  rintro (h | ⟨h, -⟩) <;> omega

/-- The kernel directory as `init` sets it up and every operation keeps it. -/
structure KernelDirectory (L : Layout) (m : Machine) : Prop where
  slot : ∀ s < 256, slotPresent m L.kernelPageDirectory s = true
  table : ∀ s < 256, tableOf m L.kernelPageDirectory s = L.kernelPageTable + s
  user : ∀ s < 256, Entry.user (m.ram L.kernelPageDirectory s) = false
  other : ∀ s, 256 ≤ s → slotPresent m L.kernelPageDirectory s = true →
    ¬ L.Own (tableOf m L.kernelPageDirectory s)

section

variable {L : Layout} {m m' : Machine}

/-- Only the memory of the directory matters. -/
theorem KernelDirectory.of_ram (h : KernelDirectory L m)
    (hram : ∀ i, m'.ram L.kernelPageDirectory i = m.ram L.kernelPageDirectory i) :
    KernelDirectory L m' := by
  refine ⟨?_, ?_, ?_, ?_⟩ <;> simp only [slotPresent, tableOf, hram]
  · exact h.slot
  · exact h.table
  · exact h.user
  · exact h.other

/-- The entry of a kernel page lies in the kernel's tables. -/
theorem pageEntry_kernel (h : KernelDirectory L m) {q : ℕ} (hq : q < kernelPages) :
    pageEntry m L.kernelPageDirectory q = m.ram (L.kernelPageTable + q / 1024) (q % 1024) := by
  rw [kernelPages] at hq
  rw [pageEntry, h.table _ (by omega)]

/-- A kernel page is present if its entry is. -/
theorem pagePresent_kernel (h : KernelDirectory L m) {q : ℕ} (hq : q < kernelPages) :
    pagePresent m L.kernelPageDirectory q
      = Entry.present (pageEntry m L.kernelPageDirectory q) := by
  rw [kernelPages] at hq
  rw [pagePresent, h.slot _ (by omega), Bool.true_and]

/-- A write to a table that is not the kernel's own leaves its GiB alone. -/
theorem KernelDirectory.store_of_not_own (h : KernelDirectory L m) {f : ℕ} (hf : ¬ L.Own f)
    (i w : ℕ) :
    KernelDirectory L (m.store f i w) ∧ ∀ q < kernelPages,
      pageEntry (m.store f i w) L.kernelPageDirectory q
        = pageEntry m L.kernelPageDirectory q := by
  have hram : ∀ g j, L.Own g → (m.store f i w).ram g j = m.ram g j := by
    intro g j hg
    apply Machine.ram_store_of_ne
    rintro ⟨rfl, -⟩
    exact hf hg
  have hkd : KernelDirectory L (m.store f i w) := h.of_ram fun j => hram _ j (Or.inl rfl)
  refine ⟨hkd, ?_⟩
  intro q hq
  rw [pageEntry_kernel hkd hq, pageEntry_kernel h hq]
  rw [kernelPages] at hq
  exact hram _ _ (L.own_table (by omega))

/-! ## Mapping one page of the GiB -/

/-- Mapping a kernel page keeps the directory. -/
theorem KernelDirectory.mapTo_kernel (h : KernelDirectory L m) {p : ℕ} (hp : p < kernelPages)
    (isUser : Bool) (f : ℕ) :
    KernelDirectory L (mapTo m L.kernelPageDirectory p isUser f) ∧ ∀ q < kernelPages,
      pageEntry (mapTo m L.kernelPageDirectory p isUser f) L.kernelPageDirectory q
        = if q = p then Entry.map (pageEntry m L.kernelPageDirectory q) isUser f
          else pageEntry m L.kernelPageDirectory q := by
  have hps : p / 1024 < 256 := by rw [kernelPages] at hp; omega
  have hkd : KernelDirectory L (mapTo m L.kernelPageDirectory p isUser f) := by
    apply h.of_ram
    intro i
    apply Machine.ram_store_of_ne
    rintro ⟨he, -⟩
    rw [h.table _ hps] at he
    exact L.table_ne_directory hps he.symm
  refine ⟨hkd, ?_⟩
  intro q hq
  rw [pageEntry_kernel hkd hq, mapTo, h.table _ hps]
  by_cases hqp : q = p
  · subst hqp
    rw [if_pos rfl, Machine.ram_store_self]
  · rw [if_neg hqp, pageEntry_kernel h hq]
    apply Machine.ram_store_of_ne
    rintro ⟨h1, h2⟩
    exact hqp (by omega)

/-! ## Mapping a run of the GiB -/

/-- The effect of mapping the `n` pages from `p` on to the frames from `f` on, below
1 GiB: the tables change in these entries, and nothing else changes. -/
structure KernelMapped (L : Layout) (m m' : Machine) (p n f : ℕ) (isUser : Bool) : Prop where
  directory : KernelDirectory L m'
  data : m'.memManData = m.memManData
  interrupts : m'.interrupts = m.interrupts
  cr3 : m'.cr3 = m.cr3
  ram : ∀ g i, ¬ (L.kernelPageTable ≤ g ∧ g < L.kernelPageTable + 256) → m'.ram g i = m.ram g i
  entry : ∀ q < kernelPages, pageEntry m' L.kernelPageDirectory q =
    if p ≤ q ∧ q < p + n then
      Entry.map (pageEntry m L.kernelPageDirectory q) isUser ((f + (q - p)) % 2 ^ 20)
    else pageEntry m L.kernelPageDirectory q

/-- And maps the page. -/
theorem kernelMapped_mapTo (h : KernelDirectory L m) {p : ℕ} (hp : p < kernelPages)
    (isUser : Bool) (f : ℕ) :
    KernelMapped L m (mapTo m L.kernelPageDirectory p isUser f) p 1 f isUser := by
  obtain ⟨hkd, hentry⟩ := h.mapTo_kernel hp isUser f
  have hps : p / 1024 < 256 := by rw [kernelPages] at hp; omega
  refine ⟨hkd, rfl, rfl, rfl, ?_, ?_⟩
  · intro g i hg
    apply Machine.ram_store_of_ne
    rintro ⟨rfl, -⟩
    rw [h.table _ hps] at hg
    exact hg ⟨by omega, by omega⟩
  · intro q hq
    rw [hentry q hq]
    by_cases hqp : q = p
    · subst hqp
      rw [if_pos rfl, if_pos ⟨Nat.le_refl _, by omega⟩, Nat.sub_self, Nat.add_zero,
        Entry.map_mod]
    · rw [if_neg hqp, if_neg (by omega)]

/-- Two runs of pages, one behind the other. -/
theorem KernelMapped.trans {m₁ m₂ m₃ : Machine} {p n f : ℕ} {isUser : Bool}
    (h₁ : KernelMapped L m₁ m₂ p 1 f isUser)
    (h₂ : KernelMapped L m₂ m₃ (p + 1) n ((f + 1) % 2 ^ 20) isUser) :
    KernelMapped L m₁ m₃ p (n + 1) f isUser := by
  refine ⟨h₂.directory, h₂.data.trans h₁.data, h₂.interrupts.trans h₁.interrupts,
    h₂.cr3.trans h₁.cr3, ?_, ?_⟩
  · intro g i hg
    rw [h₂.ram g i hg, h₁.ram g i hg]
  · intro q hq
    rw [h₂.entry q hq, h₁.entry q hq]
    rcases Nat.lt_trichotomy q p with hlt | heq | hgt
    · rw [if_neg (by omega), if_neg (by omega), if_neg (by omega)]
    · rw [if_neg (by omega), if_pos (by omega), if_pos (by omega)]
    · rw [if_neg (c := p ≤ q ∧ q < p + 1) (by omega)]
      by_cases hin : q < p + (n + 1)
      · rw [if_pos (by omega), if_pos (by omega)]
        congr 1
        omega
      · rw [if_neg (by omega), if_neg (by omega)]

/-- `VirtualMap` below 1 GiB maps exactly the pages it is asked for. -/
theorem installPages_kernel (isUser : Bool) (n : ℕ) : ∀ {m : Machine} {p : ℕ} (f : ℕ),
    KernelDirectory L m → p + n ≤ kernelPages →
    KernelMapped L m (installPages L.kernelPageDirectory isUser n m p f) p n f isUser := by
  induction n with
  | zero =>
    intro m p f h _
    refine ⟨h, rfl, rfl, rfl, fun _ _ _ => rfl, ?_⟩
    intro q _
    rw [if_neg (by omega), installPages]
  | succ n ih =>
    intro m p f h hp
    have hpk : p < kernelPages := by omega
    have hslot : slotPresent m L.kernelPageDirectory (p / 1024) = true := by
      rw [kernelPages] at hpk
      exact h.slot _ (by omega)
    have hstep := kernelMapped_mapTo h hpk isUser f
    rw [installPages, installPage_of_present hslot,
      Nat.mod_eq_of_lt (show p + 1 < 2 ^ 20 by rw [kernelPages] at hp; omega)]
    exact hstep.trans (ih _ hstep.directory (by omega))

/-! ## Pages mapped to themselves -/

/-- `kernelPageDirectory` maps page `q` to itself, out of reach of user code. -/
structure SelfMapped (L : Layout) (m : Machine) (q : ℕ) : Prop where
  present : pagePresent m L.kernelPageDirectory q = true
  frame : Entry.pageFrameNumber (pageEntry m L.kernelPageDirectory q) = q
  user : Entry.user (pageEntry m L.kernelPageDirectory q) = false

/-- A page whose entry is the same is mapped alike. -/
theorem SelfMapped.of_entry {q : ℕ} (hs : SelfMapped L m q) (h : KernelDirectory L m)
    (h' : KernelDirectory L m') (hq : q < kernelPages)
    (he : pageEntry m' L.kernelPageDirectory q = pageEntry m L.kernelPageDirectory q) :
    SelfMapped L m' q := by
  refine ⟨?_, ?_, ?_⟩
  · rw [pagePresent_kernel h' hq, he, ← pagePresent_kernel h hq]
    exact hs.present
  · rw [he]
    exact hs.frame
  · rw [he]
    exact hs.user

/-- The kernel's directory survives, and with it every page mapped to itself. -/
structure KeepsSelfMapped (L : Layout) (m m' : Machine) : Prop where
  directory : KernelDirectory L m'
  self : ∀ q < kernelPages, SelfMapped L m q → SelfMapped L m' q

theorem KeepsSelfMapped.trans {m₁ m₂ m₃ : Machine} (h : KeepsSelfMapped L m₁ m₂)
    (h' : KeepsSelfMapped L m₂ m₃) : KeepsSelfMapped L m₁ m₃ :=
  ⟨h'.directory, fun q hq hs => h'.self q hq (h.self q hq hs)⟩

theorem KeepsSelfMapped.of_entry (h : KernelDirectory L m) (h' : KernelDirectory L m')
    (he : ∀ q < kernelPages, pageEntry m' L.kernelPageDirectory q
      = pageEntry m L.kernelPageDirectory q) : KeepsSelfMapped L m m' :=
  ⟨h', fun q hq hs => hs.of_entry h h' hq (he q hq)⟩

theorem KeepsSelfMapped.of_ram (h : KernelDirectory L m) (hram : m'.ram = m.ram) :
    KeepsSelfMapped L m m' := by
  apply KeepsSelfMapped.of_entry h (h.of_ram fun i => by rw [hram])
  intro q _
  rw [pageEntry, pageEntry, tableOf, tableOf, hram]

/-- Mapping a page of the GiB to itself. -/
theorem selfMap_mapTo (h : KernelDirectory L m) {p : ℕ} (hp : p < kernelPages) :
    KeepsSelfMapped L m (mapTo m L.kernelPageDirectory p false p) ∧
      SelfMapped L (mapTo m L.kernelPageDirectory p false p) p := by
  obtain ⟨hkd, hentry⟩ := h.mapTo_kernel hp false p
  have hp20 : p % 2 ^ 20 = p := Nat.mod_eq_of_lt (by rw [kernelPages] at hp; omega)
  have hself : SelfMapped L (mapTo m L.kernelPageDirectory p false p) p := by
    refine ⟨?_, ?_, ?_⟩
    · rw [pagePresent_kernel hkd hp, hentry p hp, if_pos rfl, Entry.present_map]
    · rw [hentry p hp, if_pos rfl, Entry.pageFrameNumber_map, hp20]
    · rw [hentry p hp, if_pos rfl, Entry.user_map]
  refine ⟨⟨hkd, ?_⟩, hself⟩
  intro q hq hs
  by_cases hqp : q = p
  · exact hqp ▸ hself
  · exact hs.of_entry h hkd hq (by rw [hentry q hq, if_neg hqp])

/-- Mapping a page above the GiB, in a table that is not the kernel's. -/
theorem selfMap_mapTo_other (h : KernelDirectory L m) {p : ℕ} (hp : 256 ≤ p / 1024)
    (hs : slotPresent m L.kernelPageDirectory (p / 1024) = true) (isUser : Bool) (f : ℕ) :
    KeepsSelfMapped L m (mapTo m L.kernelPageDirectory p isUser f) := by
  have hnot := h.other _ hp hs
  obtain ⟨hkd, hentry⟩ := h.store_of_not_own hnot (p % 1024)
    (Entry.map (pageEntry m L.kernelPageDirectory p) isUser f)
  exact KeepsSelfMapped.of_entry h hkd hentry

/-- Filling a slot above the GiB with a table that is not the kernel's. -/
theorem selfMap_mapSlot (h : KernelDirectory L m) {s f : ℕ} (hs : 256 ≤ s) (hf : f < 2 ^ 20)
    (hnot : ¬ L.Own f) (isUser : Bool) :
    KeepsSelfMapped L m (mapSlot m L.kernelPageDirectory s isUser f) := by
  have hlow : ∀ t < 256, (mapSlot m L.kernelPageDirectory s isUser f).ram L.kernelPageDirectory t
      = m.ram L.kernelPageDirectory t := by
    intro t ht
    apply Machine.ram_store_of_ne
    omega
  have hkd : KernelDirectory L (mapSlot m L.kernelPageDirectory s isUser f) := by
    refine ⟨?_, ?_, ?_, ?_⟩
    · intro t ht
      rw [slotPresent, hlow t ht]
      exact h.slot t ht
    · intro t ht
      rw [tableOf, hlow t ht]
      exact h.table t ht
    · intro t ht
      rw [hlow t ht]
      exact h.user t ht
    · intro t ht hpres
      by_cases hts : t = s
      · subst hts
        rw [tableOf, mapSlot, Machine.ram_store_self, Entry.pageFrameNumber_map,
          Nat.mod_eq_of_lt hf]
        exact hnot
      · have hsame : (mapSlot m L.kernelPageDirectory s isUser f).ram L.kernelPageDirectory t
            = m.ram L.kernelPageDirectory t :=
          Machine.ram_store_of_ne m _ fun hts' => hts hts'.2
        rw [slotPresent, hsame] at hpres
        rw [tableOf, hsame]
        exact h.other t ht hpres
  -- the word written is in the directory, and the entries of the GiB are not
  apply KeepsSelfMapped.of_entry h hkd
  intro q hq
  rw [pageEntry_kernel hkd hq, pageEntry_kernel h hq]
  have hqs : q / 1024 < 256 := by rw [kernelPages] at hq; omega
  apply Machine.ram_store_of_ne
  rintro ⟨he, -⟩
  exact L.table_ne_directory hqs he

/-- The slot of `p` has been given the table `f`: the last two writes of `installPage`. -/
theorem selfMap_fillSlot (h : KernelDirectory L m) {p f : ℕ} (hp : 256 ≤ p / 1024)
    (hf : f < 2 ^ 20) (hnot : ¬ L.Own f) (isUser : Bool) (g : ℕ) :
    KeepsSelfMapped L m (fillSlot m L.kernelPageDirectory p isUser g f) := by
  have hslot := selfMap_mapSlot h hp hf hnot isUser
  have hpres : slotPresent (mapSlot m L.kernelPageDirectory (p / 1024) isUser f)
      L.kernelPageDirectory (p / 1024) = true := by
    rw [slotPresent, mapSlot, Machine.ram_store_self, Entry.present_map]
  exact hslot.trans (selfMap_mapTo_other hslot.directory hp hpres isUser g)

/-- `VirtualMap` of a page to itself, wherever the page is and whatever tables it takes. -/
theorem selfMap_installPage (frames : List ℕ) : ∀ {m : Machine} (p : ℕ),
    KernelDirectory L m → (∀ t ∈ frames, t < 2 ^ 20 ∧ ¬ L.Own t) →
    KeepsSelfMapped L m (installPage L.kernelPageDirectory frames m p p false) ∧
      (p < kernelPages → SelfMapped L (installPage L.kernelPageDirectory frames m p p false) p) := by
  -- the slot is present: one write, into a table of the kernel's or another one
  have hpresent : ∀ {m : Machine} (p : ℕ), KernelDirectory L m →
      slotPresent m L.kernelPageDirectory (p / 1024) = true →
      KeepsSelfMapped L m (mapTo m L.kernelPageDirectory p false p) ∧
        (p < kernelPages → SelfMapped L (mapTo m L.kernelPageDirectory p false p) p) := by
    intro m p h hs
    by_cases hp : p < kernelPages
    · exact ⟨(selfMap_mapTo h hp).1, fun _ => (selfMap_mapTo h hp).2⟩
    · have hslot : 256 ≤ p / 1024 := by rw [kernelPages] at hp; omega
      exact ⟨selfMap_mapTo_other h hslot hs false p, fun hlt => absurd hlt hp⟩
  -- the slot is absent, so the page lies above the GiB
  have habsent : ∀ {m : Machine} {p : ℕ}, KernelDirectory L m →
      slotPresent m L.kernelPageDirectory (p / 1024) = false → 256 ≤ p / 1024 := by
    intro m p h hs
    by_contra hlt
    rw [h.slot _ (by omega)] at hs
    exact Bool.false_ne_true hs.symm
  induction frames with
  | nil =>
    intro m p h _
    by_cases hs : slotPresent m L.kernelPageDirectory (p / 1024) = true
    · rw [installPage_of_present hs]
      exact hpresent p h hs
    · have hs' : slotPresent m L.kernelPageDirectory (p / 1024) = false := by simpa using hs
      have hp := habsent h hs'
      rw [installPage_nil hs']
      have h1 : KeepsSelfMapped L m (m.atomicEnable.allocatePage 0) :=
        KeepsSelfMapped.of_ram h rfl
      have h2 := (selfMap_mapTo h1.directory (p := 0) (by decide)).1
      have h3 : KeepsSelfMapped L _
          (mapTo (m.atomicEnable.allocatePage 0) L.kernelPageDirectory 0 false 0).atomicDisable :=
        KeepsSelfMapped.of_ram h2.directory rfl
      have h4 := selfMap_fillSlot h3.directory hp (f := 0) (by omega) L.not_own_zero false p
      refine ⟨h1.trans (h2.trans (h3.trans h4)), ?_⟩
      intro hlt
      rw [kernelPages] at hlt
      omega
  | cons t ts ih =>
    intro m p h hframes
    by_cases hs : slotPresent m L.kernelPageDirectory (p / 1024) = true
    · rw [installPage_of_present hs]
      exact hpresent p h hs
    · have hs' : slotPresent m L.kernelPageDirectory (p / 1024) = false := by simpa using hs
      have hp := habsent h hs'
      obtain ⟨ht, hnot⟩ := hframes t List.mem_cons_self
      rw [installPage_cons hs']
      have h1 : KeepsSelfMapped L m (m.allocatePage t).atomicEnable := KeepsSelfMapped.of_ram h rfl
      have h2 := (ih t h1.directory fun u hu => hframes u (List.mem_cons_of_mem _ hu)).1
      have h3 : KeepsSelfMapped L _ (installPage L.kernelPageDirectory ts
          (m.allocatePage t).atomicEnable t t false).atomicDisable :=
        KeepsSelfMapped.of_ram h2.directory rfl
      have h4 := selfMap_fillSlot h3.directory hp ht hnot false p
      refine ⟨h1.trans (h2.trans (h3.trans h4)), ?_⟩
      intro hlt
      rw [kernelPages] at hlt
      omega

/-- `VirtualMap` of a run of pages to themselves. -/
theorem selfMap_installPages (n : ℕ) : ∀ {m : Machine} {p : ℕ}, KernelDirectory L m →
    (∀ f, L.Own f → m.used f = true) → p < 2 ^ 20 →
    KeepsSelfMapped L m (installPages L.kernelPageDirectory false n m p p) ∧
      ∀ q < kernelPages, InRun p n q →
        SelfMapped L (installPages L.kernelPageDirectory false n m p p) q := by
  induction n with
  | zero =>
    intro m p h _ _
    exact ⟨KeepsSelfMapped.of_ram h rfl, fun q _ hq => absurd hq (not_inRun_zero p q)⟩
  | succ n ih =>
    intro m p h hown hp
    rw [installPages]
    have hgrow := grows_installPage L.kernelPageDirectory (freeFrames m.memManData) m p p false
    have hframes : ∀ t ∈ freeFrames m.memManData, t < 2 ^ 20 ∧ ¬ L.Own t := by
      intro t ht
      refine ⟨freeFrames_lt ht, ?_⟩
      intro hot
      have hfree := (mem_freeFrames.mp ht).2
      rw [← Machine.used, hown t hot] at hfree
      exact Bool.false_ne_true hfree.symm
    obtain ⟨h1, hself⟩ := selfMap_installPage (freeFrames m.memManData) p h hframes
    obtain ⟨h2, hrest⟩ := ih (p := (p + 1) % 2 ^ 20) h1.directory
      (fun f hf => hgrow.used f (hown f hf)) (by omega)
    refine ⟨h1.trans h2, ?_⟩
    rintro q hq ⟨i, hi, rfl⟩
    rcases Nat.eq_zero_or_pos i with rfl | hpos
    · have hp0 : (p + 0) % 2 ^ 20 = p := by omega
      rw [hp0] at hq ⊢
      exact h2.self p hq (hself hq)
    · exact hrest _ hq ⟨i - 1, by omega, by omega⟩

end

end Sakura.MemoryManager
