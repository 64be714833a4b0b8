import Sakura.MemoryManager.KeepsPagesTheorems

/-!
# The kernel's GiB

The first 256 entries of every directory name the kernel's tables, so all directories share
the translation of the first GiB, and none of these entries lets the user in. No call writes
one of them on purpose: `VirtualMap` fills only empty slots. What can hit them is a write to
something else in the same frame, so `KernelHalf` is about frames: a directory is never a page
table, and neither is ever free.

Two calls break this. `memoryFree` frees the frame a page is mapped to whatever is in it, and
`memoryAllocate` clears the memory it mapped in one directory at the same addresses of the
active one. A run in which neither hits a directory or a table keeps `KernelHalf`
(`kernelHalf_common`). Tables may share frame 0 when frames run out; this does no harm here.
-/

namespace Sakura.MemoryManager

open MemoryManagerData

/-! ## Calls -/

/-- The calls on an address space: those of the rest of the kernel, and the two functions they
are made of. -/
inductive SpaceCall where
  | memory (c : MemoryCall)
  | identity (pd address size : ℕ)
  | virtual (pd virtualAddress physicalAddress numPages : ℕ) (isUser : Bool)

namespace SpaceCall

/-- The call is made on a directory there is. -/
def Valid (s : MemoryState) : SpaceCall → Prop
  | memory c => c.Valid s
  | identity pd _ _ | virtual pd _ _ _ _ => pd ∈ s.directories

/-- The effect of a call, `none` if it does not return. -/
def run (L : Layout) (fuel : ℕ) (s : MemoryState) : SpaceCall → Option MemoryState
  | memory c => c.run L fuel s
  | identity pd address size =>
    (identityMap fuel s.machine pd address size).map fun m => ⟨m, s.directories⟩
  | virtual pd virtualAddress physicalAddress numPages isUser =>
    (virtualMap fuel s.machine pd virtualAddress physicalAddress numPages isUser).map
      fun m => ⟨m, s.directories⟩

/-- `memoryAllocate` clears no directory: the memory is found in the kernel's GiB or in the
active directory, or the active directory maps none of its pages to a directory. -/
def ClearsNoDirectory (fuel : ℕ) (s : MemoryState) (pd size : ℕ) (user : Bool) : Prop :=
  user = false ∨ pd = s.machine.cr3 ∨
    ∀ va, foundAddress fuel (framesAllocated s.machine size) pd (pagesFor size) user
        = some (some va) →
      ∀ p, InRun (pageOf va) (pagesFor size) p → pagePresent s.machine s.machine.cr3 p = true →
        Entry.pageFrameNumber (pageEntry s.machine s.machine.cr3 p) ∉ s.directories

/-- The condition on a call, in the state it is made in. -/
def Harmless (L : Layout) (fuel : ℕ) (s : MemoryState) : SpaceCall → Prop
  | memory (.allocate pd size user) => ClearsNoDirectory fuel s pd size user
  | memory (.free pd startAddress size) => SafeFree L s pd startAddress size
  | _ => True

end SpaceCall

/-- One call that meets the condition. -/
def HarmlessStep (L : Layout) (fuel : ℕ) (s s' : MemoryState) : Prop :=
  ∃ c : SpaceCall, c.Valid s ∧ c.Harmless L fuel s ∧ c.run L fuel s = some s'

/-! ## The invariant -/

/-- The roles of the frames, and entries of the kernel's that let it write and the user not in. -/
structure KernelHalf (L : Layout) (s : MemoryState) : Prop extends DirectoryRoles L s where
  guarded : ∀ pd ∈ s.directories, ∀ i < 256,
    Entry.user (s.machine.ram pd i) = false ∧ Entry.write (s.machine.ram pd i) = true

section

variable {L : Layout} {D : List ℕ} {m m' : Machine} {pd : ℕ}

/-- A step that leaves the directories alone and frees none of their frames. -/
theorem KernelHalf.of_ram (h : KernelHalf L ⟨m, D⟩)
    (hram : ∀ pd ∈ D, ∀ i, m'.ram pd i = m.ram pd i)
    (hused : ∀ f, f ≠ 0 → Structural L ⟨m, D⟩ f → m'.used f = true) :
    KernelHalf L ⟨m', D⟩ := by
  refine ⟨h.toDirectoryRoles.of_ram hram hused, ?_⟩
  intro pd hpd i hi
  rw [hram pd hpd]
  exact h.guarded pd hpd i hi

/-- Taking frames writes to no directory. -/
theorem FramesTaken.kernelHalf {m₁ : Machine} {f n : ℕ} (htaken : FramesTaken m m₁ f n)
    (h : KernelHalf L ⟨m, D⟩) : KernelHalf L ⟨m₁, D⟩ :=
  h.of_ram (fun _ _ _ => by rw [htaken.ram]) fun g hg0 hg =>
    (htaken.used g).mpr (Or.inl (h.used g hg0 hg))

/-! ## Mapping -/

/-- Tables that are dealt go to other slots than the kernel's. -/
theorem Dealt.kernelHalf {A : List (ℕ × ℕ)} {mapped target : ℕ → Prop}
    (h : Dealt m m' pd A mapped target) (hinv : KernelHalf L ⟨m, D⟩) (hpd : pd ∈ D) :
    KernelHalf L ⟨m', D⟩ := by
  refine ⟨h.roles hinv.toDirectoryRoles hpd, ?_⟩
  intro pd₁ hpd₁ i hi
  rw [h.ram_kernelSlot hinv.toDirectoryRoles hpd hpd₁ hi]
  exact hinv.guarded pd₁ hpd₁ i hi

/-- `VirtualMap` returns, and keeps the invariant. -/
theorem kernelHalf_virtualMap {fuel : ℕ} (h : KernelHalf L ⟨m, D⟩) (hpd : pd ∈ D)
    (hfuel : 2 ^ 20 < fuel) (va pa n : ℕ) (isUser : Bool) :
    ∃ m', virtualMap fuel m pd va pa n isUser = some m' ∧ KernelHalf L ⟨m', D⟩ ∧
      m'.cr3 = m.cr3 := by
  obtain ⟨m', hm', -, hdealt⟩ := virtualMap_dealt va pa n isUser (h.ownFrame hpd) hfuel
  exact ⟨m', hm', hdealt.kernelHalf h hpd, hdealt.cr3⟩

/-- `memoryMap`. -/
theorem kernelHalf_map {fuel va size : ℕ} {isUser : Bool} (h : KernelHalf L ⟨m, D⟩)
    (hpd : pd ∈ D) (hfuel : 2 ^ 20 < fuel)
    (hmap : memoryMap fuel m pd va size isUser = some m') :
    KernelHalf L ⟨m', D⟩ ∧ m'.cr3 = m.cr3 := by
  have h₁ : KernelHalf L ⟨(m.physicalAllocate (pagesFor size)).2, D⟩ :=
    h.of_ram (fun _ _ _ => rfl) (fun g hg0 hg => used_physicalAllocate (h.used g hg0 hg))
  obtain ⟨m'', hm'', hinv, hcr3⟩ := kernelHalf_virtualMap h₁ hpd hfuel va
    (m.physicalAllocate (pagesFor size)).1 (pagesFor size) isUser
  have heq : memoryMap fuel m pd va size isUser = some m'' := hm''
  obtain rfl := Option.some.inj (hmap.symm.trans heq)
  exact ⟨hinv, hcr3⟩

/-- `identityMap` returns. What it reserves may have been free before. -/
theorem kernelHalf_identityMap {fuel : ℕ} (hpd : pd ∈ D) (hfuel : 2 ^ 20 < fuel)
    (address size : ℕ)
    (h : KernelHalf L ⟨m.atomicEnable.physicalAllocateAt address (pageAlign size / pageSize), D⟩) :
    ∃ m', identityMap fuel m pd address size = some m' ∧ KernelHalf L ⟨m', D⟩ ∧
      m'.cr3 = m.cr3 := by
  obtain ⟨m', hm', hinv, hcr3⟩ := kernelHalf_virtualMap h hpd hfuel address address
    (pageAlign size / pageSize) false
  refine ⟨m'.atomicDisable, ?_, hinv.of_ram (fun _ _ _ => rfl) hinv.used, hcr3⟩
  rw [identityMap, identityMapWith, hm']
  rfl

/-- Marking frames writes to no directory. -/
theorem kernelHalf_physicalAllocateAt (h : KernelHalf L ⟨m, D⟩) (address n : ℕ) :
    KernelHalf L ⟨m.atomicEnable.physicalAllocateAt address n, D⟩ :=
  h.of_ram (fun _ _ _ => rfl) fun g hg0 hg =>
    (used_machine_physicalAllocateAt _ _ _ _).mpr (Or.inl (h.used g hg0 hg))

/-! ## `memoryAllocate` -/

/-- What the mapping of `memoryAllocate` puts in a page is no directory. -/
theorem MapsTo.not_directory {A : List (ℕ × ℕ)} {mapped : ℕ → Prop} {m₁ m₂ : Machine}
    {f n e : ℕ} (he : MapsTo A (InRun f n) e) (htaken : FramesTaken m m₁ f n)
    (hdealt : Dealt m₁ m₂ pd A mapped (InRun f n)) (h : DirectoryRoles L ⟨m, D⟩) :
    Entry.pageFrameNumber e ∉ D := by
  rcases he.2 with hrun | hmem
  · intro hD
    have hfree := htaken.free _ hrun
    rw [h.directory_used hD] at hfree
    exact Bool.false_ne_true hfree.symm
  · exact hdealt.frame_not_directory (htaken.roles h) hmem

/-- Mapping in one directory changes the pages of another only where they share a table, and
then to what it maps. -/
theorem Dealt.pageEntry_other {A : List (ℕ × ℕ)} {mapped target : ℕ → Prop}
    (h : Dealt m m' pd A mapped target) (hinv : DirectoryRoles L ⟨m, D⟩) (hpd : pd ∈ D) {c q : ℕ}
    (hc : c ∈ D) (hne : c ≠ pd) (hq : q < 2 ^ 20) (hpres : pagePresent m' c q = true) :
    (pagePresent m c q = true ∧ pageEntry m' c q = pageEntry m c q) ∨
      MapsTo A target (pageEntry m' c q) := by
  have hdir := h.ram_other hinv hpd hc hne (q / 1024)
  rw [pagePresent, slotPresent, hdir, ← slotPresent, Bool.and_eq_true] at hpres
  have htable : tableOf m' c (q / 1024) = tableOf m c (q / 1024) := by
    rw [tableOf, hdir, ← tableOf]
  rcases h.other _ (hinv.table_ne hc hpd (by omega) hpres.1) (q % 1024) with heq | ⟨hto, -⟩
  · have hentry : pageEntry m' c q = pageEntry m c q := by
      rw [pageEntry, htable, heq, ← pageEntry]
    refine Or.inl ⟨?_, hentry⟩
    rw [pagePresent, hpres.1, ← hentry]
    exact hpres.2
  · rw [← htable] at hto
    exact Or.inr hto

/-- The pages that `memoryAllocate` clears are mapped to no directory. -/
theorem cleared_not_directory {fuel f va size : ℕ} {user : Bool} {m₂ : Machine}
    (h : DirectoryRoles L ⟨m, D⟩) (hcr3 : m.cr3 ∈ D) (hpd : pd ∈ D) (hfuel : 2 ^ 20 < fuel)
    (hclear : SpaceCall.ClearsNoDirectory fuel ⟨m, D⟩ pd size user)
    (htaken : FramesTaken m (framesAllocated m size) f (pagesFor size))
    (hfound : foundAddress fuel (framesAllocated m size) pd (pagesFor size) user = some (some va))
    {A : List (ℕ × ℕ)} (hdealt : Dealt (framesAllocated m size) m₂ pd A
      (InRun (pageOf va) (pagesFor size)) (InRun f (pagesFor size))) {q : ℕ}
    (hq : InRun (pageOf va) (pagesFor size) q) (hpres : pagePresent m₂ m.cr3 q = true) :
    Entry.pageFrameNumber (pageEntry m₂ m.cr3 q) ∉ D := by
  have hown := (hdealt.maps q hq).2.2.not_directory htaken hdealt h
  rcases hclear with rfl | hactive | hclear
  · obtain ⟨k, rfl, -, hle⟩ := foundAddress_kernel hfuel hfound
    rw [kernelPages] at hle
    rw [pageOf_mul_of_lt (by omega), inRun_iff (by omega)] at hq
    have hroles := hdealt.roles (htaken.roles h) hpd
    rw [hroles.pageEntry_shared hcr3 hpd (by rw [kernelPages]; omega)]
    exact hown
  · rw [← show pd = m.cr3 from hactive]
    exact hown
  · by_cases hsame : m.cr3 = pd
    · rw [hsame]
      exact hown
    · rcases hdealt.pageEntry_other (htaken.roles h) hpd hcr3 hsame hq.lt hpres with
        ⟨hold, hentry⟩ | hto
      · have hram : ∀ g i, (framesAllocated m size).ram g i = m.ram g i := by
          intro g i
          rw [htaken.ram]
        rw [pagePresent, slotPresent, pageEntry, tableOf, hram, hram] at hold
        rw [hentry, pageEntry, tableOf, hram, hram]
        exact hclear va hfound q hq hold
      · exact hto.not_directory htaken hdealt h

/-- So no directory is written. -/
theorem memset_directories {fuel f va size : ℕ} {user : Bool} {m₂ : Machine}
    (h : DirectoryRoles L ⟨m, D⟩) (hcr3 : m.cr3 ∈ D) (hpd : pd ∈ D) (hfuel : 2 ^ 20 < fuel)
    (hclear : SpaceCall.ClearsNoDirectory fuel ⟨m, D⟩ pd size user)
    (htaken : FramesTaken m (framesAllocated m size) f (pagesFor size))
    (hfound : foundAddress fuel (framesAllocated m size) pd (pagesFor size) user = some (some va))
    {A : List (ℕ × ℕ)} (hdealt : Dealt (framesAllocated m size) m₂ pd A
      (InRun (pageOf va) (pagesFor size)) (InRun f (pagesFor size)))
    (hset : memset (pagesFor size) m₂.atomicDisable va = some m') :
    (∀ pd₁ ∈ D, ∀ i, m'.ram pd₁ i = m₂.ram pd₁ i) ∧ m'.memManData = m₂.memManData ∧
      m'.cr3 = m₂.cr3 := by
  have hactive : m₂.atomicDisable.cr3 = m.cr3 := hdealt.cr3.trans htaken.cr3
  obtain ⟨hram, hdata, hcr3'⟩ := @memset_fresh (fun g => g ∉ D) (pagesFor size)
    m₂.atomicDisable m' va (by rw [hactive]; exact not_not.mpr hcr3)
    (by
      intro q hq hpres
      rw [hactive] at hpres ⊢
      exact cleared_not_directory h hcr3 hpd hfuel hclear htaken hfound hdealt hq hpres)
    hset
  exact ⟨fun pd₁ hpd₁ i => hram pd₁ i (not_not.mpr hpd₁), hdata, hcr3'⟩

/-- `memoryAllocate`. -/
theorem kernelHalf_allocate {fuel size a : ℕ} {user : Bool} (h : KernelHalf L ⟨m, D⟩)
    (hcr3 : m.cr3 ∈ D) (hpd : pd ∈ D) (hfuel : 2 ^ 20 < fuel)
    (hclear : SpaceCall.ClearsNoDirectory fuel ⟨m, D⟩ pd size user)
    (halloc : memoryAllocate fuel m pd size user = some (a, m')) :
    KernelHalf L ⟨m', D⟩ ∧ m'.cr3 = m.cr3 := by
  rcases memoryAllocate_cases halloc with
    ⟨-, hram, hcr3', hused⟩ | ⟨f, va, m₂, hf, htaken, -, -, hfound, hmap, hend⟩
  · exact ⟨h.of_ram (fun _ _ _ => by rw [hram]) fun g hg0 hg => hused g (h.used g hg0 hg), hcr3'⟩
  · have h₁ := htaken.kernelHalf h
    obtain ⟨m₂', hm₂', -, hdealt⟩ := virtualMap_dealt va (f * pageSize) (pagesFor size) user
      (h₁.ownFrame hpd) hfuel
    obtain rfl := Option.some.inj (hmap.symm.trans hm₂')
    rw [pageOf_mul_of_lt hf] at hdealt
    have h₂ := hdealt.kernelHalf h₁ hpd
    have hcr3₂ : m₂.cr3 = m.cr3 := hdealt.cr3.trans htaken.cr3
    rcases hend with ⟨-, rfl⟩ | ⟨-, -, hset⟩
    · -- found at address 0, which is taken for a failure
      refine ⟨h₂.of_ram (fun _ _ _ => rfl) ?_, hcr3₂⟩
      intro g hg0 hg
      refine (used_machine_physicalFree _ _ _ _).mpr ⟨h₂.used g hg0 hg, ?_⟩
      rw [pageOf_mul_of_lt hf]
      intro hrun
      have hclash : ¬ Structural L ⟨m, D⟩ g := by
        intro hst
        have := h.used g hg0 hst
        rw [htaken.free g hrun] at this
        exact Bool.false_ne_true this
      rcases hg with hg | hg | ⟨pd₁, hpd₁, i, ht⟩
      · exact hclash (Or.inl hg)
      · exact hclash (Or.inr (Or.inl hg))
      · rcases hdealt.userTable_cases h₁.toDirectoryRoles hpd hpd₁ ht with hold | ⟨-, hmem⟩
        · exact hclash (Or.inr (Or.inr ⟨pd₁, hpd₁, i, hold.congr (by rw [htaken.ram])⟩))
        · have hfree := hdealt.frame_fresh (List.mem_map.mpr ⟨_, hmem, rfl⟩) hg0
          rw [(htaken.used g).mpr (Or.inr hrun)] at hfree
          exact Bool.false_ne_true hfree.symm
    · obtain ⟨hram, hdata, hcr3'⟩ := memset_directories h.toDirectoryRoles hcr3 hpd hfuel hclear htaken
        hfound hdealt hset
      refine ⟨h₂.of_ram hram ?_, hcr3'.trans hcr3₂⟩
      intro g hg0 hg
      rw [Machine.used, hdata]
      exact h₂.used g hg0 hg

/-! ## `memoryFree` and `createUserPageDirectory` -/

/-- `memoryFree`. -/
theorem kernelHalf_free {a size : ℕ} (h : KernelHalf L ⟨m, D⟩) (hpd : pd ∈ D)
    (hsafe : SafeFree L ⟨m, D⟩ pd a size) :
    KernelHalf L ⟨memoryFree m pd a size, D⟩ ∧ (memoryFree m pd a size).cr3 = m.cr3 := by
  have hend := @unmapped_memoryFree D m pd (fun f => f ≠ 0 ∧ Structural L ⟨m, D⟩ f) a size hpd
    (fun _ hpd₁ _ hi hp => h.table_ne hpd hpd₁ hi hp) (fun f hf => h.used f hf.1 hf.2)
    fun i hi hp hkeep => hsafe i hi hp hkeep.2
  exact ⟨h.of_ram hend.ram fun f hf0 hf => hend.used f ⟨hf0, hf⟩, hend.cr3⟩

/-- The page of a new directory, with the kernel's entries filled in. -/
theorem DirectoryPage.kernelHalf {m₁ w : Machine} {a f : ℕ} (hpage : DirectoryPage m m₁ D a f)
    (h : KernelHalf L ⟨m, D⟩) (hmem : m.cr3 ∈ D) (h₁ : KernelHalf L ⟨m₁, D⟩)
    (hdata : w.memManData = m₁.memManData) (hcr3 : w.cr3 = m₁.cr3)
    (hwrite : ∀ g i, w.ram g i =
      if g = f ∧ i < 256 then kernelEntry (m₁.ram g i) (L.kernelPageTable + i) else m₁.ram g i) :
    translate w.atomicDisable a = some f ∧ KernelHalf L ⟨w.atomicDisable, f :: D⟩ ∧
      w.atomicDisable.cr3 = m.cr3 := by
  obtain ⟨htrans, hroles, -⟩ := hpage.roles h.toDirectoryRoles hmem h₁.toDirectoryRoles hdata hcr3
    hwrite
  suffices hinv : KernelHalf L ⟨w, f :: D⟩ from
    ⟨htrans, hinv.of_ram (fun _ _ _ => rfl) hinv.used, hcr3.trans hpage.cr3⟩
  refine ⟨hroles, ?_⟩
  intro pd hnew i hi
  rcases List.mem_cons.mp hnew with rfl | hpd
  · simp only [hwrite, hi, and_self, if_true]
    exact ⟨user_kernelEntry _ _, write_kernelEntry _ _⟩
  · have hne : pd ≠ f := ne_of_used (h.directory_used hpd) hpage.unused
    simp only [hwrite, if_neg fun he : pd = f ∧ i < 256 => hne he.1]
    exact h₁.guarded pd hpd i hi

/-- `createUserPageDirectory`. -/
theorem kernelHalf_create {fuel a : ℕ} (h : KernelHalf L ⟨m, D⟩) (hmem : m.cr3 ∈ D)
    (hfuel : 2 ^ 20 < fuel) (hcreate : createUserPageDirectory L fuel m = some (a, m')) :
    KernelHalf L ⟨m', if a = 0 then D else (translate m' a).toList ++ D⟩ ∧ m'.cr3 = m.cr3 := by
  have henable : KernelHalf L ⟨m.atomicEnable, D⟩ := h.of_ram (fun _ _ _ => rfl) h.used
  rw [createUserPageDirectory, Option.bind_eq_some_iff] at hcreate
  obtain ⟨⟨va, m₁⟩, halloc, hrest⟩ := hcreate
  obtain ⟨h₁, hcr3₁⟩ := kernelHalf_allocate henable hmem hmem hfuel (Or.inl rfl) halloc
  by_cases hva : va = 0
  · simp only [hva, if_true] at hrest
    obtain ⟨rfl, rfl⟩ := Prod.mk.inj (Option.some.inj hrest)
    rw [if_pos rfl]
    exact ⟨h₁.of_ram (fun _ _ _ => rfl) h₁.used, hcr3₁⟩
  · simp only [if_neg hva, Option.map_eq_some_iff, Prod.mk.injEq] at hrest
    obtain ⟨frame, hframe, rfl, rfl⟩ := hrest
    obtain ⟨f, hpage⟩ := memoryAllocate_directoryPage henable.toDirectoryRoles hmem hfuel hva halloc
    obtain rfl : frame = f := Option.some.inj (hframe.symm.trans hpage.frame)
    obtain ⟨hdata, hcr3⟩ := fields_mapKernelPageTable L m₁ frame
    obtain ⟨htrans, hinv⟩ := hpage.kernelHalf henable hmem h₁ hdata hcr3
      (ram_mapKernelPageTable L m₁ frame)
    rw [if_neg hva, htrans]
    exact hinv

end

/-! ## Runs -/

/-- The invariant of a run: `KernelHalf`, with one of the directories active, and the kernel's
own among them. -/
structure RunInv (L : Layout) (s : MemoryState) : Prop extends KernelHalf L s where
  active : s.machine.cr3 ∈ s.directories
  kernelDirectory : L.kernelPageDirectory ∈ s.directories

/-- One call keeps the invariant. -/
theorem runInv_step {L : Layout} {fuel : ℕ} (hfuel : 2 ^ 20 < fuel) {s s' : MemoryState}
    (h : RunInv L s) (hstep : HarmlessStep L fuel s s') : RunInv L s' := by
  obtain ⟨c, hvalid, hsafe, hrun⟩ := hstep
  obtain ⟨m, D⟩ := s
  obtain ⟨hhalf, hcr3, hmem⟩ := h
  cases c with
  | memory c =>
    cases c with
    | allocate pd size user =>
      simp only [SpaceCall.run, MemoryCall.run, Option.map_eq_some_iff] at hrun
      obtain ⟨⟨a, m'⟩, halloc, rfl⟩ := hrun
      obtain ⟨hhalf', hcr3'⟩ := kernelHalf_allocate hhalf hcr3 hvalid hfuel hsafe halloc
      exact ⟨hhalf', hcr3' ▸ hcr3, hmem⟩
    | map pd va size isUser =>
      simp only [SpaceCall.run, MemoryCall.run, Option.map_eq_some_iff] at hrun
      obtain ⟨m', hmap, rfl⟩ := hrun
      obtain ⟨hhalf', hcr3'⟩ := kernelHalf_map hhalf hvalid hfuel hmap
      exact ⟨hhalf', hcr3' ▸ hcr3, hmem⟩
    | free pd a size =>
      obtain rfl := Option.some.inj hrun
      obtain ⟨hhalf', hcr3'⟩ := kernelHalf_free hhalf hvalid hsafe
      exact ⟨hhalf', hcr3' ▸ hcr3, hmem⟩
    | create =>
      simp only [SpaceCall.run, MemoryCall.run, Option.map_eq_some_iff] at hrun
      obtain ⟨⟨a, m'⟩, hcreate, rfl⟩ := hrun
      obtain ⟨hhalf', hcr3'⟩ := kernelHalf_create hhalf hcr3 hfuel hcreate
      have hgrow : ∀ pd ∈ D, pd ∈ if a = 0 then D else (translate m' a).toList ++ D := by
        intro pd hpd
        split
        · exact hpd
        · exact List.mem_append_right _ hpd
      refine ⟨hhalf', ?_, hgrow _ hmem⟩
      simp only at hcr3' ⊢
      rw [hcr3']
      exact hgrow _ hcr3
    | switch pd =>
      obtain rfl := Option.some.inj hrun
      exact ⟨hhalf.of_ram (fun _ _ _ => rfl) hhalf.used, hvalid, hmem⟩
  | identity pd address size =>
    simp only [SpaceCall.run, Option.map_eq_some_iff] at hrun
    obtain ⟨m', hmap, rfl⟩ := hrun
    obtain ⟨m'', hm'', hhalf', hcr3'⟩ := kernelHalf_identityMap hvalid hfuel address size
      (kernelHalf_physicalAllocateAt hhalf _ _)
    obtain rfl := Option.some.inj (hmap.symm.trans hm'')
    exact ⟨hhalf', hcr3' ▸ hcr3, hmem⟩
  | virtual pd va pa n isUser =>
    simp only [SpaceCall.run, Option.map_eq_some_iff] at hrun
    obtain ⟨m', hmap, rfl⟩ := hrun
    obtain ⟨m'', hm'', hhalf', hcr3'⟩ := kernelHalf_virtualMap hhalf hvalid hfuel va pa n isUser
    obtain rfl := Option.some.inj (hmap.symm.trans hm'')
    exact ⟨hhalf', hcr3' ▸ hcr3, hmem⟩

/-! ## `init` -/

/-- A module whose size `PAGE_ALIGN` does not carry past 32 bits. -/
def Sized (module : ModuleInfo) : Prop :=
  (module.modEnd + 2 ^ 32 - module.modStart) % 2 ^ 32 + pageSize < 2 ^ 32

theorem Sized.count {module : ModuleInfo} (h : Sized module) :
    pageAlign ((module.modEnd + 2 ^ 32 - module.modStart) % 2 ^ 32) / pageSize
      = (module.modEnd + 2 ^ 32 - module.modStart) % 2 ^ 32 / pageSize + 1 := by
  rw [Sized] at h
  rw [pageAlign]
  rw [pageSize] at *
  omega

section

variable {L : Layout} {m : Machine} {fuel : ℕ}

/-- Only the page of an address matters to `identityMap`. -/
theorem identityMap_page {pd : ℕ} (hslot : slotPresent m pd 0 = true) (hfuel : 2 ^ 20 < fuel)
    (address size : ℕ) :
    identityMap fuel m pd address size
      = identityMap fuel m pd (pageOf address * pageSize) size := by
  have hpage : ∀ i, pageOf ((pageOf address * pageSize + i * pageSize) % 2 ^ 32)
      = pageOf ((address + i * pageSize) % 2 ^ 32) := by
    intro i
    rw [pageOf_mod, pageOf_mod, pageOf_add_mul, pageOf_add_mul,
      pageOf_mul_of_lt (pageOf_lt address)]
  have hreserve : ∀ d n, physicalAllocateAt d address n
      = physicalAllocateAt d (pageOf address * pageSize) n := by
    intro d n
    rw [physicalAllocateAt, physicalAllocateAt]
    congr 1
    funext d i
    rw [allocatePage, allocatePage, isUsed, isUsed, hpage i]
  have hmachine : m.atomicEnable.physicalAllocateAt address (pageAlign size / pageSize)
      = m.atomicEnable.physicalAllocateAt (pageOf address * pageSize)
        (pageAlign size / pageSize) := by
    rw [Machine.physicalAllocateAt, Machine.physicalAllocateAt, hreserve]
  have hslot₁ : slotPresent (m.atomicEnable.physicalAllocateAt (pageOf address * pageSize)
      (pageAlign size / pageSize)) pd 0 = true := hslot
  have hlen := length_freeFrames_lt (m.atomicEnable.physicalAllocateAt (pageOf address * pageSize)
    (pageAlign size / pageSize)).memManData
  rw [identityMap, identityMapWith, identityMap, identityMapWith]
  simp only [hmachine]
  rw [virtualMap_eq _ _ _ _ hslot₁ (by omega), virtualMap_eq _ _ _ _ hslot₁ (by omega),
    pageOf_mul_of_lt (pageOf_lt address)]

/-- A machine `w` with the directory of `mapKernelPageTable`, once the image is reserved. -/
theorem kernelHalf_reserveImage {w : Machine} (hboot : ∀ i, m.ram L.kernelPageDirectory i = 0)
    (hram : ∀ g i, w.ram g i = if g = L.kernelPageDirectory ∧ i < 256
      then kernelEntry (m.ram g i) (L.kernelPageTable + i) else m.ram g i)
    (hdir : KernelDirectory L w) :
    KernelHalf L ⟨w.atomicEnable.physicalAllocateAt (256 * pageSize) L.kernelRun,
      [L.kernelPageDirectory]⟩ := by
  set w₁ := w.atomicEnable.physicalAllocateAt (256 * pageSize) L.kernelRun with hw₁
  have hram₁ : ∀ g i, w₁.ram g i = w.ram g i := fun _ _ => rfl
  have hdir₁ : KernelDirectory L w₁ := hdir.of_ram fun i => hram₁ _ i
  have hown : ∀ f, L.Own f → w₁.used f = true := by
    intro f hf
    rw [hw₁, used_machine_physicalAllocateAt, pageOf_mul_of_lt (by omega)]
    exact Or.inr (L.inRun_of_own hf)
  have htable : ∀ {pd i t}, pd ∈ [L.kernelPageDirectory] → ¬ UserTable w₁ pd i t := by
    rintro pd i t hpd ⟨hge, -, hpres, -⟩
    rw [List.mem_singleton.mp hpd, slotPresent, hram₁, hram, if_neg (by omega), hboot,
      Entry.present_zero] at hpres
    exact Bool.false_ne_true hpres
  refine ⟨⟨?_, ?_, ?_, ?_, ?_⟩, ?_⟩
  · intro pd hpd i hi
    rw [List.mem_singleton.mp hpd]
    exact ⟨hdir₁.slot i hi, hdir₁.table i hi⟩
  · rintro f - (hf | hf | ⟨pd, hpd, i, ht⟩)
    · rw [List.mem_singleton.mp hf]
      exact hown _ (Or.inl rfl)
    · exact hown f hf
    · exact absurd ht (htable hpd)
  · intro pd hpd hzero
    rw [List.mem_singleton.mp hpd] at hzero
    exact L.not_own_zero (hzero ▸ Or.inl rfl)
  · intro pd hpd i hi
    rw [List.mem_singleton.mp hpd]
    exact L.table_ne_directory hi
  · intro pd hpd i t ht
    exact absurd ht (htable hpd)
  · intro pd hpd i hi
    simp only [hram₁, hram, List.mem_singleton.mp hpd, hi, and_self, if_true]
    exact ⟨user_kernelEntry _ _, write_kernelEntry _ _⟩

/-- The directory `init` begins with. -/
theorem kernelHalf_mapKernelMemory (hboot : ∀ i, m.ram L.kernelPageDirectory i = 0)
    (hfuel : 2 ^ 20 < fuel) :
    ∃ m₁, mapKernelMemory L fuel m = some m₁ ∧ KernelHalf L ⟨m₁, [L.kernelPageDirectory]⟩ := by
  obtain ⟨size, hsize, hkernel⟩ := mapKernelMemory_eq L fuel m
  have hdir := kernelDirectory_mapKernelPageTable (L := L) (m := m) hboot
  have hram := ram_mapKernelPageTable L m L.kernelPageDirectory
  rw [hkernel]
  generalize mapKernelPageTable L m L.kernelPageDirectory = w at hdir hram
  have hreserved := kernelHalf_reserveImage (m := m) hboot hram hdir
  rw [← hsize] at hreserved
  obtain ⟨m₁, hm₁, hhalf, -⟩ := kernelHalf_identityMap (List.mem_singleton.mpr rfl) hfuel
    (256 * pageSize) size hreserved
  exact ⟨m₁, hm₁, hhalf⟩

/-- A module of one page. -/
theorem reserveModule_page {pd : ℕ} (hslot : slotPresent m pd 0 = true) (hfuel : 2 ^ 20 < fuel)
    (module : ModuleInfo) {size : ℕ}
    (hsize : (module.modEnd + 2 ^ 32 - module.modStart) % 2 ^ 32 = size) :
    Multiboot.reserveModule fuel pd m module
      = identityMap fuel (m.physicalFree module.modStart (size / pageSize)) pd
        (pageOf module.modStart * pageSize) size := by
  have hslot₁ : slotPresent (m.physicalFree module.modStart (size / pageSize)) pd 0 = true := hslot
  rw [Multiboot.reserveModule, hsize]
  exact identityMap_page hslot₁ hfuel _ _

/-- What is freed of a run that is mapped again, with the page after it, is reserved again. -/
theorem used_refill {address size : ℕ} (hcount : pageAlign size / pageSize = size / pageSize + 1)
    (p : ℕ) (hp : m.used p = true) :
    (m.physicalFree address (size / pageSize)).used p = true ∨
      InRun (pageOf address) (pageAlign size / pageSize) p := by
  rw [used_machine_physicalFree, hcount, inRun_succ]
  by_cases hrun : InRun (pageOf address) (size / pageSize) p
  · exact Or.inr (Or.inl hrun)
  · exact Or.inl ⟨hp, hrun⟩

theorem kernelHalf_refilled {address size : ℕ} (hhalf : KernelHalf L ⟨m, [L.kernelPageDirectory]⟩)
    (hcount : pageAlign size / pageSize = size / pageSize + 1) :
    KernelHalf L ⟨(m.physicalFree address
      (size / pageSize)).atomicEnable.physicalAllocateAt (pageOf address * pageSize)
      (pageAlign size / pageSize), [L.kernelPageDirectory]⟩ := by
  refine hhalf.of_ram (fun _ _ _ => rfl) fun f hf0 hf => ?_
  rw [used_machine_physicalAllocateAt, pageOf_mul_of_lt (pageOf_lt _)]
  exact used_refill hcount f (hhalf.used f hf0 hf)

/-- A run of pages that is freed and mapped again, with the page after it. -/
theorem kernelHalf_refill {R : ℕ → Prop} {address size : ℕ} (h : BootInv L R m)
    (hhalf : KernelHalf L ⟨m, [L.kernelPageDirectory]⟩)
    (hcount : pageAlign size / pageSize = size / pageSize + 1) (hfuel : 2 ^ 20 < fuel) :
    ∃ m' R', identityMap fuel (m.physicalFree address (size / pageSize)) L.kernelPageDirectory
        (pageOf address * pageSize) size = some m' ∧
      BootInv L R' m' ∧ KernelHalf L ⟨m', [L.kernelPageDirectory]⟩ := by
  have hkeep : KeepsSelfMapped L m (m.physicalFree address (size / pageSize)) :=
    KeepsSelfMapped.of_ram h.directory rfl
  obtain ⟨m', hm', hinv, -⟩ := bootInv_identityMap (R := R) (k := pageOf address) size
    hkeep.directory (pageOf_lt _) hfuel (fun p hp => used_refill hcount p (h.used p hp))
    (fun p hp hR => hkeep.self p hp (h.self p hp hR)) (fun f hf => Or.inl (h.own f hf))
  obtain ⟨m'', hm'', hhalf', -⟩ := kernelHalf_identityMap (List.mem_singleton.mpr rfl) hfuel
    (pageOf address * pageSize) size (kernelHalf_refilled hhalf hcount)
  obtain rfl := Option.some.inj (hm'.symm.trans hm'')
  exact ⟨m', _, hm', hinv, hhalf'⟩

/-- A module, wherever it is: all that is freed is reserved again. -/
theorem kernelHalf_reserveModule {R : ℕ → Prop} {module : ModuleInfo} (h : BootInv L R m)
    (hhalf : KernelHalf L ⟨m, [L.kernelPageDirectory]⟩) (hmod : Sized module)
    (hfuel : 2 ^ 20 < fuel) :
    ∃ m' R', Multiboot.reserveModule fuel L.kernelPageDirectory m module = some m' ∧
      BootInv L R' m' ∧ KernelHalf L ⟨m', [L.kernelPageDirectory]⟩ := by
  rw [reserveModule_page (h.directory.slot 0 (by omega)) hfuel module rfl]
  exact kernelHalf_refill h hhalf hmod.count hfuel

/-- What holds once the kernel is mapped, and is kept by every module, holds after `init`. -/
theorem init_induct (maps : List MemoryMap) {modules : List ModuleInfo} (hboot : Booted L m)
    (hfuel : 2 ^ 20 < fuel) {Q : Machine → Prop}
    (hlow : ∀ m R, BootExact L R m → KernelHalf L ⟨m, [L.kernelPageDirectory]⟩ → Q m)
    (hstep : ∀ m, ∀ module ∈ modules, Q m →
      ∃ m', Multiboot.reserveModule fuel L.kernelPageDirectory m module = some m' ∧ Q m')
    (hinv : ∀ m, Q m → ∃ R, BootInv L R m) :
    ∃ m', init L fuel m maps modules = some { m' with cr3 := L.kernelPageDirectory } ∧ Q m' := by
  obtain ⟨m₁, m₂, hm₁, hm₂, hexact, -⟩ := bootExact_lowMemory maps hboot hfuel
  obtain ⟨m₁', hm₁', hhalf₁⟩ := kernelHalf_mapKernelMemory (L := L)
    (m := { m with memManData := physicalAllocatorInit m.memManData maps }) hboot.directory hfuel
  obtain rfl := Option.some.inj (hm₁.symm.trans hm₁')
  obtain ⟨m₂', hm₂', hhalf₂, -⟩ := kernelHalf_identityMap (List.mem_singleton.mpr rfl) hfuel 0
    kernelStart (kernelHalf_physicalAllocateAt hhalf₁ _ _)
  obtain rfl := Option.some.inj (hm₂.symm.trans hm₂')
  obtain ⟨m₃, hm₃, hQ⟩ := reserveModuleMemory_induct modules (hlow m₂ _ hexact hhalf₂) hstep
  obtain ⟨R, hboot₃⟩ := hinv m₃ hQ
  refine ⟨m₃, ?_, hQ⟩
  simp only [init, hm₁, hm₂, hm₃, Option.bind_eq_bind, Option.bind_some, pageOf_directory hboot₃]

/-- `init` establishes the invariant. -/
theorem runInv_init (maps : List MemoryMap) {modules : List ModuleInfo} (hboot : Booted L m)
    (hmods : ∀ module ∈ modules, Sized module) (hfuel : 2 ^ 20 < fuel) :
    ∃ m', init L fuel m maps modules = some m' ∧ RunInv L ⟨m', [L.kernelPageDirectory]⟩ := by
  have hmem : L.kernelPageDirectory ∈ [L.kernelPageDirectory] := List.mem_singleton.mpr rfl
  obtain ⟨m', hm', -, hhalf⟩ := init_induct maps hboot hfuel
    (Q := fun m => (∃ R, BootInv L R m) ∧ KernelHalf L ⟨m, [L.kernelPageDirectory]⟩)
    (fun m R hexact hhalf => ⟨⟨R, hexact.toBootInv⟩, hhalf⟩)
    (fun m module hmod h => by
      obtain ⟨⟨R, hinv⟩, hhalf⟩ := h
      obtain ⟨m', R', hm', hinv', hhalf'⟩ :=
        kernelHalf_reserveModule hinv hhalf (hmods module hmod) hfuel
      exact ⟨m', hm', ⟨R', hinv'⟩, hhalf'⟩)
    fun m h => h.1
  exact ⟨_, hm', hhalf.of_ram (fun _ _ _ => rfl) hhalf.used, hmem, hmem⟩

end

end Sakura.MemoryManager
