import Sakura.MemoryManager.DirectoryTheorems

/-!
# Mapping and the pages that are present

Over whole runs of the memory calls: as long as every call is `Safe`, `VirtualAllocate`
loses no page (`allocation_keeps_pages`). A run of two calls shows that it can otherwise
(`remap_loses_page`): `memoryMap` puts frame `0x203` at page `0x205`, and the next table
goes to frame `0x205` and takes that page.
-/

namespace Sakura.MemoryManager

open MemoryManagerData

/-! ## Runs -/

/-- The condition on a call, in the state it is made in. -/
def MemoryCall.Safe (L : Layout) (fuel : ℕ) (s : MemoryState) : MemoryCall → Prop
  | allocate pd size user => SafeAllocate fuel s.machine pd size user
  | map pd virtualAddress size _ => SafeMap s.machine pd virtualAddress size
  | free pd startAddress size => SafeFree L s pd startAddress size
  | create => True
  | switch _ => True

/-- One call that meets the condition. -/
def SafeStep (L : Layout) (fuel : ℕ) (s s' : MemoryState) : Prop :=
  ∃ c : MemoryCall, c.Valid s ∧ c.Safe L fuel s ∧ c.run L fuel s = some s'

/-- What the directories need: the frames for tables last, and no directory or table is freed. -/
def MemoryCall.Lasting (L : Layout) (fuel : ℕ) (s : MemoryState) : MemoryCall → Prop
  | allocate pd size user => LastingAllocate fuel s.machine pd size user
  | map pd virtualAddress size _ => SafeMap s.machine pd virtualAddress size
  | free pd startAddress size => SafeFree L s pd startAddress size
  | create => True
  | switch _ => True

def LastingStep (L : Layout) (fuel : ℕ) (s s' : MemoryState) : Prop :=
  ∃ c : MemoryCall, c.Valid s ∧ c.Lasting L fuel s ∧ c.run L fuel s = some s'

theorem SafeStep.lasting {L : Layout} {fuel : ℕ} {s s' : MemoryState} (h : SafeStep L fuel s s') :
    LastingStep L fuel s s' := by
  obtain ⟨c, hvalid, hsafe, hrun⟩ := h
  refine ⟨c, hvalid, ?_, hrun⟩
  cases c with
  | allocate pd size user => exact SafeAllocate.lasting hsafe
  | map pd va size isUser => exact hsafe
  | free pd a size => exact hsafe
  | create => exact hsafe
  | switch pd => exact hsafe

theorem directoriesInv_step {L : Layout} {fuel : ℕ} (hfuel : 2 ^ 20 < fuel) {s s' : MemoryState}
    (h : DirectoriesInv L s) (hstep : LastingStep L fuel s s') : DirectoriesInv L s' := by
  obtain ⟨c, hvalid, hsafe, hrun⟩ := hstep
  obtain ⟨m, D⟩ := s
  cases c with
  | allocate pd size user =>
    simp only [MemoryCall.run, Option.map_eq_some_iff] at hrun
    obtain ⟨⟨a, m'⟩, halloc, rfl⟩ := hrun
    exact directoriesInv_allocate h hvalid hfuel hsafe halloc
  | map pd va size isUser =>
    simp only [MemoryCall.run, Option.map_eq_some_iff] at hrun
    obtain ⟨m', hmap, rfl⟩ := hrun
    exact directoriesInv_map h hvalid hfuel hsafe hmap
  | free pd a size =>
    obtain rfl := Option.some.inj hrun
    exact directoriesInv_free h hvalid hsafe
  | create =>
    simp only [MemoryCall.run, Option.map_eq_some_iff] at hrun
    obtain ⟨⟨a, m'⟩, hcreate, rfl⟩ := hrun
    exact directoriesInv_create h hfuel hcreate
  | switch pd =>
    obtain rfl := Option.some.inj hrun
    exact h.of_ram (fun _ _ _ => rfl) h.used hvalid

theorem directoriesInv_init {L : Layout} {R : ℕ → Prop} {m : Machine} (h : BootExact L R m)
    (hcr3 : m.cr3 = L.kernelPageDirectory) : DirectoriesInv L ⟨m, [L.kernelPageDirectory]⟩ := by
  have htable : ∀ {pd i t}, pd ∈ [L.kernelPageDirectory] → ¬ UserTable m pd i t := by
    rintro pd i t hpd ⟨hge, -, hpres, -⟩
    rw [List.mem_singleton.mp hpd, h.high i hge] at hpres
    exact Bool.false_ne_true hpres
  have hown : L.Own L.kernelPageDirectory := Or.inl rfl
  refine ⟨?_, ?_, ?_, ?_, ?_, ?_, ?_, by simp [hcr3]⟩
  · intro pd hpd i hi
    rw [List.mem_singleton.mp hpd]
    exact ⟨h.directory.slot i hi, h.directory.table i hi⟩
  · rintro f (hf | hf | ⟨pd, hpd, i, ht⟩)
    · rw [List.mem_singleton.mp hf]
      exact h.used _ (h.own _ hown)
    · exact h.used _ (h.own _ hf)
    · exact absurd ht (htable hpd)
  · intro pd hpd hzero
    rw [List.mem_singleton.mp hpd] at hzero
    exact L.not_own_zero (hzero ▸ hown)
  · intro pd hpd i hi
    rw [List.mem_singleton.mp hpd]
    exact L.table_ne_directory hi
  · intro pd hpd i t ht
    exact absurd ht (htable hpd)
  · intro pd hpd i t ht
    exact absurd ht (htable hpd)
  · intro pd hpd _ _ i _ t ht
    exact absurd ht (htable hpd)

/-- The mapping of a safe allocation loses no page. -/
theorem keepsPages_of_safe {L : Layout} {D : List ℕ} {m m' : Machine} {fuel pd size a : ℕ}
    {user : Bool} (h : DirectoriesInv L ⟨m, D⟩) (hpd : pd ∈ D) (hfuel : 2 ^ 20 < fuel)
    (hsafe : SafeAllocate fuel m pd size user)
    (hva : virtualAllocate fuel (framesAllocated m size) pd (allocatedAddress m size)
      (pagesFor size) user = some (a, m')) :
    KeepsPages (framesAllocated m size) m' pd := by
  have h₁ : DirectoriesInv L ⟨framesAllocated m size, D⟩ :=
    h.of_ram (fun _ _ _ => rfl) (fun g hg => used_physicalAllocate (h.used g hg)) h.cr3
  rcases virtualAllocate_cases hva with ⟨-, rfl⟩ | ⟨hfound, hmap, habs⟩
  · exact fun p _ hp => ⟨hp, rfl, rfl⟩
  · obtain ⟨m₂, hm₂, -, hdealt⟩ := virtualMap_dealt a (allocatedAddress m size) (pagesFor size) user
      (h₁.roles.ownFrame hpd) hfuel
    obtain rfl := Option.some.inj (hmap.symm.trans hm₂)
    obtain ⟨henough, hdeal⟩ := hsafe.2 a hfound
    exact hdealt.keepsPages (h₁.separate hpd) henough habs hdeal

theorem allocation_keeps_pages (L : Layout) (fuel : ℕ) (m : Machine) (maps : List MemoryMap)
    (modules : List ModuleInfo) (hboot : Booted L m)
    (hmods : ∀ module ∈ modules, WellPlaced module ∧ module.modEnd ≠ 2 ^ 30)
    (hfuel : 2 ^ 20 < fuel) :
    ∃ m₀, init L fuel m maps modules = some m₀ ∧
      ∀ s, Relation.ReflTransGen (SafeStep L fuel) ⟨m₀, [L.kernelPageDirectory]⟩ s →
        ∀ pd ∈ s.directories, ∀ size user, SafeAllocate fuel s.machine pd size user →
        ∀ a m', virtualAllocate fuel (framesAllocated s.machine size) pd
            (allocatedAddress s.machine size) (pagesFor size) user = some (a, m') →
          KeepsPages (framesAllocated s.machine size) m' pd := by
  obtain ⟨m₀, hm₀, hexact, hcr3⟩ := bootExact_init maps hboot hmods hfuel
  refine ⟨m₀, hm₀, ?_⟩
  intro s hrun pd hpd size user hsafe a m' hva
  have hinv := Run.invariant hrun (directoriesInv_init hexact hcr3)
    fun _ _ h hstep => directoriesInv_step hfuel h hstep.lasting
  exact keepsPages_of_safe hinv hpd hfuel hsafe hva

/-- From `init` on: the first allocation keeps every page. -/
theorem allocation_keeps_pages_first :
    ∃ m₀, init minimalLayout (2 ^ 20 + 1) blankMachine [⟨0, 0x8000000, 1⟩] [] = some m₀ ∧
      ∀ a m', virtualAllocate (2 ^ 20 + 1) (framesAllocated m₀ 0x2000) 0x100
          (allocatedAddress m₀ 0x2000) 2 false = some (a, m') →
        KeepsPages (framesAllocated m₀ 0x2000) m' 0x100 := by
  obtain ⟨m₀, hm₀, h⟩ := allocation_keeps_pages minimalLayout (2 ^ 20 + 1) blankMachine
    [⟨0, 0x8000000, 1⟩] [] (booted_blankMachine minimalLayout) (by simp) (by omega)
  obtain ⟨m₁, hm₁, hexact, hcr3⟩ := bootExact_init_minimal
  obtain rfl := Option.some.inj (hm₀.symm.trans hm₁)
  refine ⟨m₀, hm₀, ?_⟩
  exact h _ Relation.ReflTransGen.refl 0x100 (List.mem_singleton.mpr rfl) 0x2000 false
    (safeAllocate_kernel (directoriesInv_init hexact hcr3) (List.mem_singleton.mpr rfl) (by omega)
      0x2000)

/-! ## A page that is lost -/

/-- A frame taken for a table takes the page of its own number. -/
theorem installPage_takes_page {m : Machine} {pd p f t : ℕ} {ts : List ℕ} {isUser : Bool}
    (habs : slotPresent m pd (p / 1024) = false) (ht : t < 2 ^ 20) (hne : t ≠ pd)
    (hslot : slotPresent m pd (t / 1024) = true) (htable : tableOf m pd (t / 1024) ≠ t)
    (hdir : tableOf m pd (t / 1024) ≠ pd) :
    Entry.pageFrameNumber (pageEntry (installPage pd (t :: ts) m p f isUser) pd t) = t := by
  have hslots : t / 1024 ≠ p / 1024 := by
    intro heq
    rw [heq, habs] at hslot
    exact Bool.false_ne_true hslot
  have hpres : slotPresent (m.allocatePage t).atomicEnable pd (t / 1024) = true := hslot
  rw [installPage_cons habs, installPage_of_present hpres]
  set m₁ := (mapTo (m.allocatePage t).atomicEnable pd t false t).atomicDisable with hm₁
  have hkeep : m₁.ram pd (t / 1024) = m.ram pd (t / 1024) :=
    Machine.ram_store_of_ne _ _ fun h => hdir h.1.symm
  have hword : m₁.ram (tableOf m pd (t / 1024)) (t % 1024)
      = Entry.map (pageEntry m pd t) false t := Machine.ram_store_self _ _ _ _
  have htable₁ : tableOf (fillSlot m₁ pd p isUser f t) pd (t / 1024) = tableOf m pd (t / 1024) := by
    rw [tableOf, ram_fillSlot ht hne, if_neg fun h => hne h.1.symm, if_neg fun h => hslots h.2,
      hkeep, ← tableOf]
  rw [pageEntry, htable₁, ram_fillSlot ht hne, if_neg fun h => htable h.1, if_neg fun h => hdir h.1,
    hword, Entry.pageFrameNumber_map, Nat.mod_eq_of_lt ht]

/-- Without modules `init` reserves the frames below `0x203`. -/
theorem initRun_minimal {p : ℕ} : InitRun minimalLayout [] p ↔ p < 0x203 := by
  have hrun : minimalLayout.kernelRun = 0x103 := by decide
  rw [InitRun, hrun, inRun_iff (by omega), inRun_iff (by omega)]
  simp only [List.not_mem_nil, false_and, exists_false, or_false]
  omega

/-- After `init` the frames behind the image are free, up to the end of memory. -/
theorem used_init_minimal {m m₀ : Machine} (hboot : Booted minimalLayout m)
    (h : init minimalLayout (2 ^ 20 + 1) m [⟨0, 0x8000000, 1⟩] [] = some m₀) :
    m₀.memManData.totalMemory.toNat / pageSize = 0x8000 ∧
      ∀ p, InBitmap p → (m₀.memManData.used p = true ↔ p < 0x203 ∨ 0x8000 ≤ p) := by
  obtain ⟨m', hm', htotal, hused⟩ := used_init [⟨0, 0x8000000, 1⟩] hboot
    (show 2 ^ 20 < 2 ^ 20 + 1 by omega)
  obtain rfl := Option.some.inj (h.symm.trans hm')
  constructor
  · rw [htotal, totalMemory_physicalAllocatorInit]
    decide
  · intro p hp
    have hfrees : MemoryMap.Frees ⟨0, 0x8000000, 1⟩ p ↔ p < 0x8000 := by
      have hfirst : MemoryMap.firstPage ⟨0, 0x8000000, 1⟩ = 0 := by decide
      have hcount : MemoryMap.pageCount ⟨0, 0x8000000, 1⟩ = 0x8000 := by decide
      rw [MemoryMap.Frees, hfirst, hcount, inRun_iff (by omega)]
      omega
    have hreserved : (physicalAllocatorInit m.memManData [⟨0, 0x8000000, 1⟩]).used p
        = true ↔ 0x8000 ≤ p := by
      rw [used_physicalAllocatorInit _ _ hp, List.forall_mem_singleton, hfrees]
      exact ⟨fun h => Nat.le_of_not_lt (h rfl), fun h _ => Nat.not_lt_of_le h⟩
    rw [hused, initRun_minimal, hreserved, or_comm]

/-- After `init` the free frames are those behind the image. -/
theorem freeFrames_init_range {m₀ : Machine}
    (h : init minimalLayout (2 ^ 20 + 1) blankMachine [⟨0, 0x8000000, 1⟩] [] = some m₀) :
    freeFrames m₀.memManData = List.range' 0x203 0x7DFD := by
  obtain ⟨htotal, hused⟩ := used_init_minimal (booted_blankMachine minimalLayout) h
  have hpages : m₀.memManData.totalMemory.toNat / pageSize = 0x203 + 0x7DFD := htotal
  have hbit : ∀ p < 0x8000, m₀.memManData.used p = true ↔ p < 0x203 := by
    intro p hp
    rw [hused p (by rw [InBitmap]; exact Nat.lt_trans hp (by decide)),
      or_iff_left (Nat.not_le_of_lt hp)]
  have hlow : ∀ p ∈ List.range 0x203, ¬ (!m₀.memManData.used p) = true := by
    intro p hp
    rw [List.mem_range] at hp
    rw [(hbit p (by omega)).mpr hp]
    exact Bool.false_ne_true
  have hhigh : ∀ p ∈ List.range' 0x203 0x7DFD, (!m₀.memManData.used p) = true := by
    intro p hp
    rw [List.mem_range'_1] at hp
    rw [Bool.not_eq_true', ← Bool.not_eq_true, hbit p (by omega)]
    omega
  rw [freeFrames, hpages, List.range_eq_range', ← List.range'_append_1, List.filter_append,
    ← List.range_eq_range', List.filter_eq_nil_iff.mpr hlow, List.nil_append, Nat.zero_add,
    List.filter_eq_self.mpr hhigh]

/-- After `init` the free frames start right behind the image. -/
theorem freeFrames_init_minimal {m₀ : Machine}
    (h : init minimalLayout (2 ^ 20 + 1) blankMachine [⟨0, 0x8000000, 1⟩] [] = some m₀) :
    ∃ fs, freeFrames m₀.memManData = 0x203 :: 0x204 :: 0x205 :: fs := by
  refine ⟨List.range' 0x206 0x7DFA, ?_⟩
  rw [freeFrames_init_range h, List.range'_succ, List.range'_succ, List.range'_succ]

theorem virtualMap_one {m : Machine} {pd : ℕ} (va pa : ℕ) (isUser : Bool)
    (h0 : slotPresent m pd 0 = true) :
    virtualMap (2 ^ 20 + 1) m pd va pa 1 isUser
      = some (installPage pd (freeFrames m.memManData) m (pageOf va) (pageOf pa) isUser) := by
  have hlen := length_freeFrames_lt m.memManData
  rw [virtualMap_eq va pa 1 isUser h0 (by omega), installPages, installPages]

theorem physicalAllocate_head {m : Machine} {f : ℕ} {fs : List ℕ}
    (h : freeFrames m.memManData = f :: fs) :
    m.physicalAllocate 1 = (f * pageSize, m.allocatePage f) := by
  rw [Machine.physicalAllocate, physicalAllocate_one, h]
  rfl

/-- User memory is looked for from 1 GiB on, and found there when the slot is empty. -/
theorem foundAddress_empty {m : Machine} {pd : ℕ} (h : slotPresent m pd 256 = false) :
    foundAddress (2 ^ 20 + 1) m pd 1 true = some (some 0x40000000) := by
  have habs : isPagePresent m pd 0x40000000 = false := by
    rw [isPagePresent_eq, pagePresent, show pageOf 0x40000000 / 1024 = 256 by decide, h,
      Bool.false_and]
  have hstart : searchStart true = 0x40000000 := by decide
  have hend : 0x40000000 < searchEnd true := by decide
  rw [foundAddress, hstart, searchRange, if_pos hend, habs]
  rfl

/-- Frame `0x203` is mapped at page `0x205`. The next two frames are `0x204`, for the memory
of a task, and `0x205`, for its table, which takes the page. -/
theorem remap_loses_page :
    ∃ m₀, init minimalLayout (2 ^ 20 + 1) blankMachine [⟨0, 0x8000000, 1⟩] [] = some m₀ ∧
      ∃ s, Relation.ReflTransGen (MemoryStep minimalLayout (2 ^ 20 + 1)) ⟨m₀, [0x100]⟩ s ∧
      ∃ a m', virtualAllocate (2 ^ 20 + 1) (framesAllocated s.machine 0x1000) 0x100
          (allocatedAddress s.machine 0x1000) (pagesFor 0x1000) true = some (a, m') ∧
        ¬ KeepsPages (framesAllocated s.machine 0x1000) m' 0x100 := by
  obtain ⟨m₀, hm₀, hexact, -⟩ := bootExact_init_minimal
  obtain ⟨fs, hfs⟩ := freeFrames_init_minimal hm₀
  have hslot : slotPresent m₀ 0x100 0 = true := hexact.directory.slot 0 (by omega)
  have htable : tableOf m₀ 0x100 0 = 0x101 := hexact.directory.table 0 (by omega)
  have hhigh : slotPresent m₀ 0x100 256 = false := hexact.high 256 (by omega)
  have hpages : pagesFor 0x1000 = 1 := by decide
  -- `memoryMap` of one page at `0x205000`
  set m₁ := mapTo (m₀.allocatePage 0x203) 0x100 0x205 false 0x203 with hm₁
  have hmap : memoryMap (2 ^ 20 + 1) m₀ 0x100 0x205000 0x1000 false = some m₁ := by
    rw [memoryMap, hpages, physicalAllocate_head hfs]
    simp only
    have hslot' : slotPresent (m₀.allocatePage 0x203) 0x100 (0x205 / 1024) = true := hslot
    rw [virtualMap_one _ _ _ hslot', pageOf_mul_of_lt (by omega),
      show pageOf 0x205000 = 0x205 by decide, installPage_of_present hslot']
  have hdir₁ : ∀ s, m₁.ram 0x100 s = m₀.ram 0x100 s := by
    intro s
    have hne : ¬ (0x100 = tableOf m₀ 0x100 0 ∧ s = 0x205 % 1024) := by
      rw [htable]
      omega
    exact Machine.ram_store_of_ne (m₀.allocatePage 0x203) _ hne
  have hfs₁ : freeFrames m₁.memManData = 0x204 :: 0x205 :: fs := freeFrames_allocatePage hfs
  have hentry₁ : pageEntry m₁ 0x100 0x205
      = Entry.map (pageEntry m₀ 0x100 0x205) false 0x203 := by
    rw [pageEntry, tableOf, hdir₁, ← tableOf]
    exact Machine.ram_store_self (m₀.allocatePage 0x203) _ _ _
  -- the frame of the memory
  have hfs₁' : freeFrames m₁.atomicEnable.memManData = 0x204 :: 0x205 :: fs := hfs₁
  have hframes : framesAllocated m₁ 0x1000 = m₁.atomicEnable.allocatePage 0x204 := by
    rw [framesAllocated, hpages, physicalAllocate_head hfs₁']
  set m₂ := m₁.atomicEnable.allocatePage 0x204 with hm₂
  have hfs₂ : freeFrames m₂.memManData = 0x205 :: fs := freeFrames_allocatePage hfs₁'
  have hslot₂ : slotPresent m₂ 0x100 0 = true := (congrArg Entry.present (hdir₁ 0)).trans hslot
  have htable₂ : tableOf m₂ 0x100 0 = 0x101 :=
    (congrArg Entry.pageFrameNumber (hdir₁ 0)).trans htable
  have hhigh₂ : slotPresent m₂ 0x100 256 = false :=
    (congrArg Entry.present (hdir₁ 256)).trans hhigh
  have hentry₂ : pageEntry m₂ 0x100 0x205
      = Entry.map (pageEntry m₀ 0x100 0x205) false 0x203 := hentry₁
  refine ⟨m₀, hm₀, ⟨m₁, [0x100]⟩, .single ⟨.map 0x100 0x205000 0x1000 false, ?_, ?_⟩,
    0x40000000, installPage 0x100 (0x205 :: fs) m₂ 0x40000 (pageOf (allocatedAddress m₁ 0x1000)) true,
    ?_, ?_⟩
  · exact List.mem_singleton.mpr rfl
  · simp only [MemoryCall.run, hmap, Option.map_some]
  · rw [hframes, hpages, virtualAllocate, ← foundAddress, foundAddress_empty hhigh₂,
      Option.bind_some]
    simp only
    rw [virtualMap_one _ _ _ hslot₂, hfs₂, Option.map_some,
      show pageOf 0x40000000 = 0x40000 by decide]
  · rw [hframes]
    intro hkeep
    have hpres : pagePresent m₂ 0x100 0x205 = true := by
      rw [pagePresent, hentry₂, Entry.present_map, Bool.and_true]
      exact hslot₂
    obtain ⟨-, heq, -⟩ := hkeep 0x205 (by omega) hpres
    have htaken := @installPage_takes_page m₂ 0x100 0x40000
      (pageOf (allocatedAddress m₁ 0x1000)) 0x205 fs true hhigh₂ (by omega) (by omega) hslot₂
      (by rw [htable₂]; omega) (by rw [htable₂]; omega)
    rw [heq, hentry₂, Entry.pageFrameNumber_map] at htaken
    omega

end Sakura.MemoryManager
