import Sakura.MemoryManager.KernelHalfTheorems
import Sakura.MemoryManager.VirtualAllocateTheorems

/-!
# The kernel's GiB over a run

In a run of harmless calls all directories translate the first GiB alike, and no entry there
lets the user in (`kernelHalf_common`). The condition is needed: `memoryAllocate` clears a
directory when the active one maps the address it found in another directory to it
(`allocate_clears_directory`).
-/

namespace Sakura.MemoryManager

open MemoryManagerData

/-- A directory translates an address as the kernel's does, and does not let the user in. -/
structure CommonAndPrivate (L : Layout) (m : Machine) (pd virtualAddress : ℕ) : Prop where
  present : isPagePresent m pd virtualAddress
    = isPagePresent m L.kernelPageDirectory virtualAddress
  entry : getPageTableEntry m pd virtualAddress
    = getPageTableEntry m L.kernelPageDirectory virtualAddress
  write : Entry.write (getPageDirectoryEntry m pd virtualAddress)
    = Entry.write (getPageDirectoryEntry m L.kernelPageDirectory virtualAddress)
  user : Entry.user (getPageDirectoryEntry m pd virtualAddress) = false

theorem RunInv.commonAndPrivate {L : Layout} {s : MemoryState} (h : RunInv L s) {pd va : ℕ}
    (hpd : pd ∈ s.directories) (hva : va < 2 ^ 30) : CommonAndPrivate L s.machine pd va := by
  have hpage : pageOf va < kernelPages := by
    rw [pageOf, kernelPages]
    rw [pageSize]
    omega
  have hslot : pageOf va / 1024 < 256 := by
    rw [kernelPages] at hpage
    omega
  have hK := h.kernelDirectory
  have hentry := h.pageEntry_shared hpd hK hpage
  refine ⟨?_, ?_, ?_, ?_⟩
  · rw [isPagePresent_eq, isPagePresent_eq, pagePresent, pagePresent, hentry,
      (h.kernel pd hpd _ hslot).1, (h.kernel _ hK _ hslot).1]
  · rw [getPageTableEntry_eq, getPageTableEntry_eq, hentry]
  · rw [getPageDirectoryEntry_eq, getPageDirectoryEntry_eq, (h.guarded pd hpd _ hslot).2,
      (h.guarded _ hK _ hslot).2]
  · rw [getPageDirectoryEntry_eq]
    exact (h.guarded pd hpd _ hslot).1

theorem kernelHalf_common (L : Layout) (fuel : ℕ) (m : Machine) (maps : List MemoryMap)
    (modules : List ModuleInfo) (hboot : Booted L m) (hmods : ∀ module ∈ modules, Sized module)
    (hfuel : 2 ^ 20 < fuel) :
    ∃ m₀, init L fuel m maps modules = some m₀ ∧
      ∀ s, Relation.ReflTransGen (HarmlessStep L fuel) ⟨m₀, [L.kernelPageDirectory]⟩ s →
        ∀ pd ∈ s.directories, ∀ va < 2 ^ 30, CommonAndPrivate L s.machine pd va := by
  obtain ⟨m₀, hm₀, hinit⟩ := runInv_init maps hboot hmods hfuel
  refine ⟨m₀, hm₀, ?_⟩
  intro s hrun pd hpd va hva
  have hinv := Run.invariant hrun hinit fun _ _ => runInv_step hfuel
  exact hinv.commonAndPrivate hpd hva

/-! ## A directory that is cleared -/

/-- One call, harmless or not. -/
def SpaceStep (L : Layout) (fuel : ℕ) (s s' : MemoryState) : Prop :=
  ∃ c : SpaceCall, c.Valid s ∧ c.run L fuel s = some s'

theorem HarmlessStep.spaceStep {L : Layout} {fuel : ℕ} {s s' : MemoryState}
    (h : HarmlessStep L fuel s s') : SpaceStep L fuel s s' := by
  obtain ⟨c, hvalid, -, hrun⟩ := h
  exact ⟨c, hvalid, hrun⟩

section

variable {L : Layout} {D : List ℕ} {m m' : Machine} {pd : ℕ}

/-- A page of user memory for a directory that has none yet is cleared where the active
directory finds `0x40000000`. -/
theorem memoryAllocate_clears {f g : ℕ} {fs : List ℕ} (h : DirectoryRoles L ⟨m, D⟩) (hpd : pd ∈ D)
    (hcr3 : m.cr3 ∈ D) (hne : m.cr3 ≠ pd) (hfree : freeFrames m.memManData = f :: fs) (hf : f ≠ 0)
    (hempty : slotPresent m pd 256 = false) (hslot : slotPresent m m.cr3 256 = true)
    (htable : ∀ s < 1024, slotPresent m pd s = true → tableOf m pd s ≠ tableOf m m.cr3 256)
    (hused : m.used (tableOf m m.cr3 256) = true) (htable0 : tableOf m m.cr3 256 ≠ 0)
    (hpres : pagePresent m m.cr3 0x40000 = true)
    (hentry : Entry.pageFrameNumber (pageEntry m m.cr3 0x40000) = g) :
    ∃ m', memoryAllocate (2 ^ 20 + 1) m pd 0x1000 true = some (0x40000000, m') ∧
      (∀ i, m'.ram g i = 0) ∧
      ∀ q < 2 ^ 20, m.cr3 ≠ g → tableOf m m.cr3 (q / 1024) ≠ g →
        pagePresent m m.cr3 q = true → pagePresent m' m.cr3 q = true := by
  have hpages : pagesFor 0x1000 = 1 := by decide
  have hfree' : freeFrames m.atomicEnable.memManData = f :: fs := hfree
  have hf20 : f < 2 ^ 20 := freeFrames_lt (hfree ▸ List.mem_cons_self)
  have hframes : framesAllocated m 0x1000 = m.atomicEnable.allocatePage f := by
    rw [framesAllocated, hpages, physicalAllocate_head hfree']
  have haddr : allocatedAddress m 0x1000 = f * pageSize := by
    rw [allocatedAddress, hpages, physicalAllocate_head hfree']
  have hpos : 0 < f * pageSize := by
    rw [pageSize]
    omega
  -- mapping the frame in `pd`
  have hgrow : Grows m (m.atomicEnable.allocatePage f) :=
    (grows_atomicEnable m).trans (grows_allocatePage _ f)
  obtain ⟨m₁, hm₁⟩ : ∃ m₁, m₁ = m.atomicEnable.allocatePage f := ⟨_, rfl⟩
  have hram₁ : m₁.ram = m.ram := by rw [hm₁]; rfl
  have hcr3₁ : m₁.cr3 = m.cr3 := by rw [hm₁]; rfl
  rw [← hm₁] at hframes hgrow
  have h₁ : DirectoryRoles L ⟨m₁, D⟩ := h.of_ram (fun _ _ _ => by rw [hram₁]) fun q hq hst =>
    hgrow.used _ (h.used q hq hst)
  obtain ⟨m₂, hm₂, hgrow₂, hdealt⟩ := virtualMap_dealt 0x40000000
    (f * pageSize) 1 true (h₁.ownFrame hpd) (show 2 ^ 20 < 2 ^ 20 + 1 by omega)
  have hfound : foundAddress (2 ^ 20 + 1) m₁ pd 1 true = some (some 0x40000000) :=
    foundAddress_empty (by rw [slotPresent, hram₁]; exact hempty)
  have hcr3₂ : m₂.cr3 = m.cr3 := hdealt.cr3.trans hcr3₁
  have hdir : ∀ i, m₂.ram m.cr3 i = m.ram m.cr3 i := by
    intro i
    rw [hdealt.ram_other h₁ hpd hcr3 hne, hram₁]
  -- the table of the active directory is not in the way
  have hword : m₂.ram (tableOf m m.cr3 256) 0 = m.ram (tableOf m m.cr3 256) 0 := by
    rcases hdealt.other (tableOf m m.cr3 256) (h.table_ne hcr3 hpd (by omega) hslot) 0 with
      heq | ⟨-, w, hw, -, -, ⟨hs, ht⟩ | hmem⟩
    · rw [heq, hram₁]
    · rw [slotPresent, hram₁] at hs
      rw [tableOf, hram₁] at ht
      exact absurd ht (htable (w / 1024) (by omega) hs)
    · have hfresh := hdealt.frame_fresh (List.mem_map.mpr ⟨_, hmem, rfl⟩) htable0
      rw [hgrow.used _ hused] at hfresh
      exact absurd hfresh (by decide)
  have htrans : translate m₂.atomicDisable 0x40000000 = some g := by
    have hpage : pageOf 0x40000000 = 0x40000 := by decide
    have hentry₂ : pageEntry m₂ m.cr3 0x40000 = pageEntry m m.cr3 0x40000 := by
      rw [pageEntry, tableOf, hdir, ← tableOf, pageEntry]
      exact hword
    have hpres₂ : pagePresent m₂ m.cr3 0x40000 = true := by
      rw [pagePresent, slotPresent, hdir, hentry₂]
      exact hpres
    rw [translate, isPagePresent_eq, getPageTableEntry_eq, hpage,
      show m₂.atomicDisable.cr3 = m.cr3 from hcr3₂]
    exact (if_pos hpres₂).trans (congrArg some (hentry₂ ▸ hentry))
  refine ⟨m₂.atomicDisable.zeroFrame g, ?_, fun i => if_pos rfl, ?_⟩
  · rw [memoryAllocate_eq, haddr, hframes, hpages, if_pos hpos, virtualAllocate, ← foundAddress,
      hfound, Option.bind_some]
    simp only [hm₂, Option.map_some, Option.bind_some]
    rw [if_neg (by omega), memset, htrans, Option.bind_some, memset, Option.map_some]
  · intro q hq hcg htg hp
    have hkeep : ∀ i j, i ≠ g → (m₂.atomicDisable.zeroFrame g).ram i j = m₂.ram i j :=
      fun i j hi => if_neg hi
    rw [pagePresent, Bool.and_eq_true] at hp
    rw [pagePresent, slotPresent, pageEntry, tableOf, hkeep _ _ hcg, hdir, ← tableOf, hkeep _ _ htg,
      ← slotPresent, hp.1, Bool.true_and]
    exact hgrow₂.present _ _ (hgrow.present _ _ hp.2)

/-- A page in a slot that is empty: the lowest free frame becomes its table. -/
theorem installPage_newTable {p f t : ℕ} {ts : List ℕ} {isUser : Bool}
    (hfree : freeFrames m.memManData = t :: ts) (habs : slotPresent m pd (p / 1024) = false)
    (hne : t ≠ pd) (hf : f < 2 ^ 20) (hslot : slotPresent m pd (t / 1024) = true)
    (hdir : tableOf m pd (t / 1024) ≠ pd)
    (hm' : m' = installPage pd (t :: ts) m p f isUser) :
    slotPresent m' pd (p / 1024) = true ∧ tableOf m' pd (p / 1024) = t ∧
      pagePresent m' pd p = true ∧ Entry.pageFrameNumber (pageEntry m' pd p) = f ∧
      freeFrames m'.memManData = ts ∧
      (∀ i, i ≠ p / 1024 → m'.ram pd i = m.ram pd i) ∧
      ∀ g i, g ≠ pd → g ≠ t → g ≠ tableOf m pd (t / 1024) → m'.ram g i = m.ram g i := by
  have ht : t < 2 ^ 20 := freeFrames_lt (hfree ▸ List.mem_cons_self)
  have hpres : slotPresent (m.allocatePage t).atomicEnable pd (t / 1024) = true := hslot
  rw [installPage_cons habs, installPage_of_present hpres] at hm'
  set m₁ := (mapTo (m.allocatePage t).atomicEnable pd t false t).atomicDisable with hm₁
  have hfree₁ : freeFrames m₁.memManData = ts := freeFrames_allocatePage hfree
  have hkeep : ∀ g i, g ≠ tableOf m pd (t / 1024) → m₁.ram g i = m.ram g i :=
    fun g i hg => Machine.ram_store_of_ne _ _ fun h => hg h.1
  have hram := ram_fillSlot (m := m₁) (p := p) ht hne isUser f
  have hdirs : m'.ram pd (p / 1024) = Entry.map (m₁.ram pd (p / 1024)) isUser t := by
    rw [hm', hram, if_neg fun h => hne h.1.symm, if_pos ⟨rfl, rfl⟩]
  have htable : tableOf m' pd (p / 1024) = t := by
    rw [tableOf, hdirs, Entry.pageFrameNumber_map, Nat.mod_eq_of_lt ht]
  have hslot' : slotPresent m' pd (p / 1024) = true := by
    rw [slotPresent, hdirs, Entry.present_map]
  have hentry : pageEntry m' pd p = Entry.map (m₁.ram t (p % 1024)) isUser f := by
    rw [pageEntry, htable, hm', hram, if_pos ⟨rfl, rfl⟩]
  refine ⟨hslot', htable, ?_, ?_, ?_, ?_, ?_⟩
  · rw [pagePresent, hslot', hentry, Entry.present_map]
    rfl
  · rw [hentry, Entry.pageFrameNumber_map, Nat.mod_eq_of_lt hf]
  · rw [hm']
    exact hfree₁
  · intro i hi
    rw [hm', hram, if_neg fun h => hne h.1.symm, if_neg fun h => hi h.2, hkeep _ _ hdir.symm]
  · intro g i hg ht' hgt
    rw [hm', hram, if_neg fun h => ht' h.1, if_neg fun h => hg h.1, hkeep _ _ hgt]

end

/-- After `init` page `0x203` is the first that is absent. -/
theorem firstAbsent_init_minimal {m₀ : Machine}
    (h : BootExact minimalLayout (InitRun minimalLayout []) m₀) : FirstAbsent m₀ 0x100 0x203 := by
  have hpages : (0x203 : ℕ) < kernelPages := by decide
  refine ⟨by omega, hpages, ?_, ?_⟩
  · rw [← Bool.not_eq_true]
    intro hp
    have := initRun_minimal.mp (h.present 0x203 hpages hp)
    omega
  · intro j h1 h2
    have hj := initRun_minimal.mpr h2
    exact (h.self j (by omega) hj).present

/-- The first directory lies at `0x203000`, in the frame of that number. -/
structure FirstDirectory (m₀ w : Machine) : Prop where
  init : init minimalLayout (2 ^ 20 + 1) blankMachine [⟨0, 0x8000000, 1⟩] [] = some m₀
  inv : RunInv minimalLayout ⟨m₀, [0x100]⟩
  create : createUserPageDirectory minimalLayout (2 ^ 20 + 1) m₀ = some (0x203000, w)
  free : ∃ fs, freeFrames w.memManData = 0x204 :: 0x205 :: fs
  cr3 : w.cr3 = 0x100
  frame : translate w 0x203000 = some 0x203
  slot : slotPresent w 0x100 256 = false
  empty : ∀ i, 256 ≤ i → w.ram 0x203 i = 0

theorem firstDirectory : ∃ m₀ w, FirstDirectory m₀ w := by
  obtain ⟨m₀, hm₀, hexact, hcr3⟩ := bootExact_init_minimal
  obtain ⟨m₀', hm₀', hinv₀⟩ := runInv_init
    [⟨0, 0x8000000, 1⟩] (booted_blankMachine minimalLayout) (List.forall_mem_nil _)
    (show 2 ^ 20 < 2 ^ 20 + 1 by omega)
  obtain rfl := Option.some.inj (hm₀.symm.trans hm₀')
  obtain ⟨fs, hfs⟩ := freeFrames_init_minimal hm₀
  rw [show minimalLayout.kernelPageDirectory = 0x100 from rfl] at hcr3 hinv₀
  have hmem₀ : (0x100 : ℕ) ∈ [0x100] := List.mem_singleton.mpr rfl
  have htable₀ : tableOf m₀ 0x100 0 = 0x101 := hexact.directory.table 0 (by omega)
  obtain ⟨w, hcreate, hcr3w, hfreew, htransw, hramw, hkeepw⟩ := createUserPageDirectory_page
    (L := minimalLayout) (m := m₀) (hcr3.symm ▸ hinv₀.kernel _ hmem₀)
    (hcr3.symm ▸ hinv₀.ownFrame hmem₀) (fun g hg => hexact.used g (hexact.own g hg))
    (show 2 ^ 20 < 2 ^ 20 + 1 by omega) hfs (by omega) (hcr3.symm ▸ firstAbsent_init_minimal hexact)
  refine ⟨m₀, w, hm₀, hinv₀, hcreate, ⟨fs, hfreew⟩, hcr3w.trans hcr3, htransw, ?_, ?_⟩
  · have hne : 0x100 ≠ tableOf m₀ m₀.cr3 (0x203 / 1024) := by
      rw [hcr3, show 0x203 / 1024 = 0 by decide, htable₀]
      omega
    rw [slotPresent, hkeepw _ _ (by omega) hne]
    exact hexact.high 256 (by omega)
  · intro i hi
    rw [hramw, if_neg (by omega)]

theorem FirstDirectory.step {m₀ w : Machine} (h : FirstDirectory m₀ w) :
    HarmlessStep minimalLayout (2 ^ 20 + 1) ⟨m₀, [0x100]⟩ ⟨w, [0x203, 0x100]⟩ := by
  refine ⟨.memory .create, trivial, trivial, ?_⟩
  simp only [SpaceCall.run, MemoryCall.run, h.create, Option.map_some, h.frame]
  rfl

/-- The first directory shares the page it lies in. -/
theorem kernelHalf_common_first :
    ∃ m₀ w, FirstDirectory m₀ w ∧ CommonAndPrivate minimalLayout w 0x203 0x203000 := by
  obtain ⟨m₀, w, hfirst⟩ := firstDirectory
  obtain ⟨m₀', hm₀', h⟩ := kernelHalf_common minimalLayout (2 ^ 20 + 1) blankMachine
    [⟨0, 0x8000000, 1⟩] [] (booted_blankMachine minimalLayout) (by simp) (by omega)
  obtain rfl := Option.some.inj (hfirst.init.symm.trans hm₀')
  exact ⟨m₀, w, hfirst, h _ (.single hfirst.step) 0x203 (by simp) 0x203000 (by omega)⟩

/-- The kernel's directory maps `0x40000000` to the first directory; a task's first page in the
new directory is found at the same address, and clears it. -/
theorem allocate_clears_directory :
    ∃ m₀, init minimalLayout (2 ^ 20 + 1) blankMachine [⟨0, 0x8000000, 1⟩] [] = some m₀ ∧
      ∃ s, Relation.ReflTransGen (SpaceStep minimalLayout (2 ^ 20 + 1)) ⟨m₀, [0x100]⟩ s ∧
        0x203 ∈ s.directories ∧ ¬ CommonAndPrivate minimalLayout s.machine 0x203 0x203000 := by
  obtain ⟨m₀, w, hfirst⟩ := firstDirectory
  have hstep₁ := hfirst.step
  have hinv₁ := runInv_step (by omega) hfirst.inv hstep₁
  obtain ⟨hm₀, -, -, ⟨fs, hfreew⟩, hcr3w, htransw, hhigh, hempty⟩ := hfirst
  have hmem₁ : (0x100 : ℕ) ∈ [0x203, 0x100] := by simp
  have hmemD : (0x203 : ℕ) ∈ [0x203, 0x100] := by simp
  have htablew : tableOf w 0x100 0 = 0x101 := (hinv₁.kernel _ hmem₁ 0 (by omega)).2
  -- the kernel's directory maps `0x40000000` to it
  obtain ⟨w₂, hw₂⟩ : ∃ w₂, w₂ = installPage 0x100 (0x204 :: 0x205 :: fs) w 0x40000 0x203 false :=
    ⟨_, rfl⟩
  have hmap : virtualMap (2 ^ 20 + 1) w 0x100 0x40000000 0x203000 1 false = some w₂ := by
    rw [virtualMap_one _ _ _ (hinv₁.kernel _ hmem₁ 0 (by omega)).1, hfreew, hw₂,
      show pageOf 0x40000000 = 0x40000 by decide, show pageOf 0x203000 = 0x203 by decide]
  have hstep₂ : HarmlessStep minimalLayout (2 ^ 20 + 1) ⟨w, [0x203, 0x100]⟩ ⟨w₂, [0x203, 0x100]⟩ :=
    ⟨.virtual 0x100 0x40000000 0x203000 1 false, hmem₁, trivial, by
      simp only [SpaceCall.run, hmap, Option.map_some]⟩
  have hinv₂ := runInv_step (by omega) hinv₁ hstep₂
  obtain ⟨w₂', hmap', hgrow₂, hdealt₂⟩ := virtualMap_dealt 0x40000000
    0x203000 1 false (hinv₁.ownFrame hmem₁) (show 2 ^ 20 < 2 ^ 20 + 1 by omega)
  obtain rfl := Option.some.inj (hmap.symm.trans hmap')
  obtain ⟨hslot₂, htable₂, hpres₂, hentry₂, hfree₂, hdir₂, hkeep₂⟩ := installPage_newTable
    (p := 0x40000) hfreew hhigh (by omega) (by omega) (hinv₁.kernel _ hmem₁ 0 (by omega)).1
    (by change tableOf w 0x100 0 ≠ 0x100; rw [htablew]; omega) hw₂
  have hcr3₃ : w₂.cr3 = 0x100 := hdealt₂.cr3.trans hcr3w
  have hD : ∀ i, 256 ≤ i → w₂.ram 0x203 i = 0 := by
    intro i hi
    rw [hkeep₂ 0x203 i (by omega) (by omega) (by change 0x203 ≠ tableOf w 0x100 0; rw [htablew]; omega),
      hempty i hi]
  have htablesD : ∀ i < 1024, slotPresent w₂ 0x203 i = true → tableOf w₂ 0x203 i ≠ 0x204 := by
    intro i hi hp
    by_cases hlow : i < 256
    · rw [(hinv₂.kernel _ hmemD i hlow).2, show minimalLayout.kernelPageTable = 0x101 from rfl]
      omega
    · rw [slotPresent, hD i (by omega), Entry.present_zero] at hp
      exact absurd hp (by decide)
  have hused₂ : w₂.used 0x204 = true :=
    hinv₂.used _ (by omega) (Or.inr (Or.inr ⟨0x100, hmem₁, 256, by omega, by omega, hslot₂, htable₂⟩))
  have hpage₂ : pagePresent w₂ 0x100 0x203 = true := by
    have hpagew : pagePresent w 0x100 0x203 = true := by
      rw [translate, hcr3w, isPagePresent_eq, show pageOf 0x203000 = 0x203 by decide] at htransw
      by_contra hp
      rw [if_neg hp] at htransw
      cases htransw
    have htable : tableOf w₂ 0x100 0 = tableOf w 0x100 0 := by
      rw [tableOf, hdir₂ 0 (by decide), tableOf]
    rw [pagePresent, Bool.and_eq_true] at hpagew ⊢
    refine ⟨hgrow₂.present _ _ hpagew.1, ?_⟩
    rw [pageEntry, show 0x203 / 1024 = 0 by decide, htable]
    exact hgrow₂.present _ _ hpagew.2
  -- the page of the task is found there, and clears it
  obtain ⟨w₃, halloc, hclear, hkeep₃⟩ := memoryAllocate_clears (L := minimalLayout) (m := w₂)
    (g := 0x203) hinv₂.toDirectoryRoles hmemD (hcr3₃ ▸ hmem₁) (by omega) hfree₂
    (by omega) (by rw [slotPresent, hD 256 (by omega), Entry.present_zero])
    (by rw [hcr3₃]; exact hslot₂) (by rw [hcr3₃]; exact htable₂.symm ▸ htablesD)
    (by rw [hcr3₃]; exact htable₂.symm ▸ hused₂)
    (by rw [hcr3₃, show tableOf w₂ 0x100 256 = 0x204 from htable₂]; omega)
    (by rw [hcr3₃]; exact hpres₂) (by rw [hcr3₃]; exact hentry₂)
  have hstep₃ : SpaceStep minimalLayout (2 ^ 20 + 1) ⟨w₂, [0x203, 0x100]⟩ ⟨w₃, [0x203, 0x100]⟩ :=
    ⟨.memory (.allocate 0x203 0x1000 true), hmemD, by
      simp only [SpaceCall.run, MemoryCall.run, halloc, Option.map_some]⟩
  refine ⟨m₀, hm₀, ⟨w₃, [0x203, 0x100]⟩, ?_, hmemD, ?_⟩
  · exact ((Relation.ReflTransGen.single hstep₁.spaceStep).tail hstep₂.spaceStep).tail hstep₃
  · intro hcommon
    have hpres := hcommon.present
    have hpage : pageOf 0x203000 = 0x203 := by decide
    have hK₃ : pagePresent w₃ 0x100 0x203 = true := by
      have htable : tableOf w₂ 0x100 0 = 0x101 := (hinv₂.kernel _ hmem₁ 0 (by omega)).2
      rw [hcr3₃] at hkeep₃
      exact hkeep₃ 0x203 (by omega) (by omega)
        (by rw [show 0x203 / 1024 = 0 by decide, htable]; omega) hpage₂
    rw [isPagePresent_eq, isPagePresent_eq, hpage,
      show minimalLayout.kernelPageDirectory = 0x100 from rfl, hK₃, pagePresent, slotPresent, hclear,
      Entry.present_zero, Bool.false_and] at hpres
    exact Bool.false_ne_true hpres

end Sakura.MemoryManager
