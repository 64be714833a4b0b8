import Sakura.MemoryManager.Routines

/-!
# A call on its own

Step by step and with nothing in between, a call does what the functions of `MemoryManager.lean`
compute (`run_memoryAllocate`, `run_memoryMap`, `run_memoryFree`, `run_identityMap`,
`run_createUserPageDirectory`).
-/

namespace Sakura.MemoryManager.Stepwise

/-- A call that nobody interrupts. -/
abbrev alone {α : Type} (p : Steps α) : Machine → Option (α × Machine) := p.run Op.exec

@[simp] theorem alone_step (o : Op) (m : Machine) :
    alone (α := no_index o.Result) (step o) m = o.exec m :=
  Routine.run_perform o m

@[simp] theorem alone_pure {α : Type} (a : α) (m : Machine) : alone (pure a) m = some (a, m) := rfl

@[simp] theorem alone_bind {α β : Type} (p : Steps α) (f : α → Steps β) (m : Machine) :
    alone (p >>= f) m = (alone p m).bind fun (a, m) => alone (f a) m :=
  Routine.run_bind p f m

/-! ## The physical allocator -/

/-- A loop over the bitmap leaves the rest of the machine alone. -/
theorem foldl_memManData (f : MemoryManagerData → ℕ → MemoryManagerData) (l : List ℕ) :
    ∀ m : Machine, l.foldl (fun m i => { m with memManData := f m.memManData i }) m =
      { m with memManData := l.foldl f m.memManData } := by
  induction l with
  | nil => intro m; rfl
  | cons i l ih => intro m; exact ih _

/-- The test of a run of frames, bit by bit. -/
theorem alone_isPhysicalFree (a : ℕ) (count : ℕ) : ∀ (i : ℕ) (m : Machine),
    alone (isPhysicalFree a count i) m = some ((List.range' i count).all fun j =>
      !m.memManData.isUsed ((a + j * pageSize) % 2 ^ 32), m) := by
  induction count with
  | zero => intro i m; rfl
  | succ count ih =>
    intro i m
    rw [isPhysicalFree, alone_bind, alone_step, Op.exec, List.range'_succ, List.all_cons]
    cases h : m.memManData.isUsed ((a + i * pageSize) % 2 ^ 32) with
    | true => rfl
    | false => exact ih (i + 1) m

/-- The loop that marks a run, bit by bit. -/
theorem alone_physicalAllocateAt (a n : ℕ) (m : Machine) :
    alone (physicalAllocateAt a n) m = some ((), m.physicalAllocateAt a n) := by
  have hbody : ∀ (i : ℕ) (m : Machine), alone (do
      let address := (a + i * pageSize) % 2 ^ 32
      if ← step (.isUnused address) then step (.set address) else pure ()) m =
      some ((), { m with memManData := m.memManData.allocatePage ((a + i * pageSize) % 2 ^ 32) }) := by
    intro i m
    rw [alone_bind, alone_step, Op.exec, MemoryManagerData.allocatePage]
    cases m.memManData.isUsed ((a + i * pageSize) % 2 ^ 32) <;> rfl
  rw [alone, physicalAllocateAt, Routine.run_loop hbody, ← List.range_eq_range', foldl_memManData
    fun d i => d.allocatePage ((a + i * pageSize) % 2 ^ 32)]
  rfl

/-- The loop that clears a run. -/
theorem alone_physicalFree (a n : ℕ) (m : Machine) :
    alone (physicalFree a n) m = some ((), m.physicalFree a n) := by
  have hbody : ∀ (i : ℕ) (m : Machine), alone (do
      let address := (a + i * pageSize) % 2 ^ 32
      if ← step (.isUsed address) then step (.clear address) else pure ()) m =
      some ((), { m with memManData := m.memManData.freePage ((a + i * pageSize) % 2 ^ 32) }) := by
    intro i m
    rw [alone_bind, alone_step, Op.exec, MemoryManagerData.freePage]
    cases m.memManData.isUsed ((a + i * pageSize) % 2 ^ 32) <;> rfl
  rw [alone, physicalFree, Routine.run_loop hbody, ← List.range_eq_range', foldl_memManData
    fun d i => d.freePage ((a + i * pageSize) % 2 ^ 32)]
  rfl

/-- The search goes on from any start page as `physicalAllocate` does from page 0. -/
theorem alone_searchFrames (n count : ℕ) : ∀ (i : ℕ) (m : Machine),
    alone (searchFrames n count i) m = some (match (List.range' i count).find?
        fun pageIndex => MemoryManager.isPhysicalFree m.memManData (pageIndex * pageSize) n with
      | some pageIndex => (pageIndex * pageSize, m.physicalAllocateAt (pageIndex * pageSize) n)
      | none => (0, m)) := by
  induction count with
  | zero => intro i m; rfl
  | succ count ih =>
    intro i m
    have hfree : alone (isPhysicalFree (i * pageSize) n 0) m =
        some (MemoryManager.isPhysicalFree m.memManData (i * pageSize) n, m) := by
      rw [alone_isPhysicalFree, ← List.range_eq_range']
      rfl
    rw [searchFrames, alone_bind, hfree, List.range'_succ]
    cases h : MemoryManager.isPhysicalFree m.memManData (i * pageSize) n with
    | true =>
      rw [List.find?_cons, h]
      simp [Op.exec, alone_physicalAllocateAt]
    | false =>
      rw [List.find?_cons, h]
      exact ih (i + 1) m

/-- The search for a run, with the marking behind it. -/
theorem alone_physicalAllocate (n : ℕ) (m : Machine) :
    alone (physicalAllocate n) m = some (m.physicalAllocate n) := by
  rw [physicalAllocate, alone_bind, alone_step, Op.exec]
  show alone (searchFrames n (m.memManData.totalMemory.toNat / pageSize) 0) m = _
  rw [alone_searchFrames, ← List.range_eq_range', Machine.physicalAllocate,
    MemoryManager.physicalAllocate]
  cases (List.range (m.memManData.totalMemory.toNat / pageSize)).find?
    fun pageIndex => MemoryManager.isPhysicalFree m.memManData (pageIndex * pageSize) n <;> rfl

/-! ## Mapping -/

section

variable {identity : ℕ → Steps Unit} {identity' : Machine → ℕ → Option Machine}

/-- One iteration of `VirtualMap`, over whatever `identityMap` is. -/
theorem alone_mapPage (hid : ∀ f m, alone (identity f) m = (identity' m f).map ((), ·))
    (pd va pa : ℕ) (isUser : Bool) (m : Machine) : alone (mapPage identity pd va pa isUser) m =
      (MemoryManager.mapPage identity' m pd va pa isUser).map ((), ·) := by
  rw [mapPage, MemoryManager.mapPage, alone_bind, alone_step, Op.exec]
  cases Entry.present (getPageDirectoryEntry m pd va) with
  | true => rfl
  | false =>
    simp only [Option.bind_some, Bool.false_eq_true, if_false, alone_bind, alone_physicalAllocate,
      hid, alone_step, Op.exec, Option.bind_map, Option.map_map]
    cases identity' (m.physicalAllocate 1).2 (m.physicalAllocate 1).1 <;> rfl

/-- The loop of `VirtualMap`. -/
theorem alone_mapPages (hid : ∀ f m, alone (identity f) m = (identity' m f).map ((), ·)) (pd : ℕ)
    (isUser : Bool) (n : ℕ) : ∀ (va pa : ℕ) (m : Machine),
    alone (mapPages identity pd isUser n va pa) m =
      (MemoryManager.mapPages identity' pd isUser n m va pa).map ((), ·) := by
  induction n with
  | zero => intro va pa m; rfl
  | succ n ih =>
    intro va pa m
    rw [mapPages, MemoryManager.mapPages, alone_bind, alone_mapPage hid, Option.bind_map,
      Option.map_bind]
    exact congrArg _ (funext fun m => ih _ _ m)

end

/-- `identityMap` over whatever `VirtualMap` is. -/
theorem alone_identityMapWith {vm : ℕ → ℕ → ℕ → ℕ → Bool → Steps Unit}
    {vm' : Machine → ℕ → ℕ → ℕ → ℕ → Bool → Option Machine}
    (hvm : ∀ pd va pa n isUser m,
      alone (vm pd va pa n isUser) m = (vm' m pd va pa n isUser).map ((), ·))
    (pd address size : ℕ) (m : Machine) : alone (identityMapWith vm pd address size) m =
      (MemoryManager.identityMapWith vm' m pd address size).map ((), ·) := by
  simp only [identityMapWith, MemoryManager.identityMapWith, alone_bind, alone_step, Op.exec,
    Option.bind_some, alone_physicalAllocateAt, hvm, Option.bind_map, Option.map_map]
  cases vm' (m.atomicEnable.physicalAllocateAt address (pageAlign size / pageSize)) pd address
    address (pageAlign size / pageSize) false <;> rfl

/-- The two together, by induction on the depth. -/
theorem alone_virtualMap (fuel : ℕ) : ∀ (pd va pa n : ℕ) (isUser : Bool) (m : Machine),
    alone (virtualMap fuel pd va pa n isUser) m =
      (MemoryManager.virtualMap fuel m pd va pa n isUser).map ((), ·) := by
  induction fuel with
  | zero => intros; rfl
  | succ fuel ih =>
    intro pd va pa n isUser m
    exact alone_mapPages (fun f m => alone_identityMapWith ih pd f 0 m) pd isUser n va pa m

/-- `identityMap`. -/
theorem run_identityMap (fuel pd address size : ℕ) (m : Machine) :
    alone (identityMap fuel pd address size) m =
      (MemoryManager.identityMap fuel m pd address size).map ((), ·) :=
  alone_identityMapWith (alone_virtualMap fuel) pd address size m

/-- `memoryMap`. -/
theorem run_memoryMap (fuel pd va size : ℕ) (isUser : Bool) (m : Machine) :
    alone (memoryMap fuel pd va size isUser) m =
      (MemoryManager.memoryMap fuel m pd va size isUser).map ((), ·) := by
  rw [memoryMap, alone_bind, alone_physicalAllocate]
  exact alone_virtualMap fuel pd va _ _ isUser _

/-! ## Allocating -/

/-- The search for a run of pages reads only. -/
theorem alone_searchRange (pd maxAddress n fuel : ℕ) : ∀ (va start i : ℕ) (m : Machine),
    alone (searchRange pd maxAddress n fuel va start i) m =
      (MemoryManager.searchRange m pd maxAddress n fuel va start i).map (·, m) := by
  induction fuel with
  | zero => intros; rfl
  | succ fuel ih =>
    intro va start i m
    rw [searchRange, MemoryManager.searchRange]
    split
    · rw [alone_bind, alone_step, Op.exec]
      cases MemoryManager.isPagePresent m pd va with
      | true => exact ih _ _ _ m
      | false =>
        simp only [Option.bind_some, Bool.not_false, Bool.false_eq_true, if_true, if_false]
        by_cases hend : (i + 1) % 2 ^ 32 = n
        · rw [if_pos hend, if_pos hend]
          rfl
        · rw [if_neg hend, if_neg hend]
          exact ih _ _ _ m
    · rfl

/-- The search with the mapping behind it. -/
theorem alone_virtualAllocate (fuel pd pa n : ℕ) (user : Bool) (m : Machine) :
    alone (virtualAllocate fuel pd pa n user) m =
      MemoryManager.virtualAllocate fuel m pd pa n user := by
  rw [virtualAllocate, MemoryManager.virtualAllocate, alone_bind, alone_searchRange,
    Option.bind_map]
  congr 1
  funext found
  cases found with
  | none => rfl
  | some start =>
    have hmap := alone_bind (virtualMap fuel pd start pa n user)
      (fun _ => do step .endSearch; pure start) m
    rw [alone_virtualMap] at hmap
    refine hmap.trans ?_
    show _ = (MemoryManager.virtualMap fuel m pd start pa n user).map (start, ·)
    cases MemoryManager.virtualMap fuel m pd start pa n user <;> rfl

/-- Clearing pages, each found through the directory in CR3. -/
theorem alone_memset (n : ℕ) : ∀ (va : ℕ) (m : Machine),
    alone (memset n va) m = (MemoryManager.memset n m va).map ((), ·) := by
  induction n with
  | zero => intros; rfl
  | succ n ih =>
    intro va m
    rw [memset, MemoryManager.memset, alone_bind, alone_step, Op.exec, Option.bind_map,
      Option.map_bind]
    exact congrArg _ (funext fun frame => ih _ _)

/-- `memoryAllocate`. -/
theorem run_memoryAllocate (fuel pd size : ℕ) (user : Bool) (m : Machine) :
    alone (memoryAllocate fuel pd size user) m =
      MemoryManager.memoryAllocate fuel m pd size user := by
  rw [memoryAllocate, MemoryManager.memoryAllocate]
  simp only [alone_bind, alone_step, Op.exec, Option.bind_some, alone_physicalAllocate]
  split
  · rw [alone_bind, alone_virtualAllocate]
    congr 1
    funext ⟨va, m⟩
    by_cases hva : va = 0
    · simp only [hva, if_true, alone_bind, alone_physicalFree, alone_step, Op.exec,
        Option.bind_some, alone_pure]
    · simp only [hva, if_false, alone_bind, alone_memset, alone_step, Op.exec, Option.bind_some,
        Option.bind_map, alone_pure]
      cases MemoryManager.memset (pagesFor size) m.atomicDisable va <;> rfl
  · rfl

/-! ## Freeing -/

/-- Clearing the entries of a run. -/
theorem alone_virtualFree (pd va n : ℕ) (m : Machine) :
    alone (virtualFree pd va n) m = some ((), MemoryManager.virtualFree m pd va n) := by
  rw [alone, virtualFree, Routine.run_loop (fun i m => alone_step (.clearEntry pd _) m),
    ← List.range_eq_range']
  rfl

/-- One iteration of `memoryFree`. -/
theorem alone_freeVirtualPage (pd va : ℕ) (m : Machine) :
    alone (freeVirtualPage pd va) m = some ((), MemoryManager.freeVirtualPage m pd va) := by
  rw [freeVirtualPage, MemoryManager.freeVirtualPage, alone_bind, alone_step, Op.exec]
  cases MemoryManager.isPagePresent m pd va with
  | true =>
    simp only [Option.bind_some, if_true, alone_bind, alone_step, Op.exec, alone_physicalFree,
      alone_virtualFree]
  | false => rfl

/-- `memoryFree`. -/
theorem run_memoryFree (pd start size : ℕ) (m : Machine) :
    alone (memoryFree pd start size) m = some ((), MemoryManager.memoryFree m pd start size) := by
  have hloop : ∀ m, alone (Routine.loop
      (fun i => freeVirtualPage pd ((start + i * pageSize) % 2 ^ 32)) (size / pageSize) 0) m =
      some ((), (List.range (size / pageSize)).foldl
        (fun m i => MemoryManager.freeVirtualPage m pd ((start + i * pageSize) % 2 ^ 32)) m) := by
    intro m
    rw [alone, Routine.run_loop (fun i m => alone_freeVirtualPage pd _ m), ← List.range_eq_range']
  simp only [memoryFree, alone_bind, alone_step, Op.exec, Option.bind_some, hloop]
  rfl

/-! ## Creating a directory -/

/-- The 256 assignments to a new directory. -/
theorem alone_mapKernelPageTable (L : Layout) (pd : ℕ) (m : Machine) :
    alone (mapKernelPageTable L pd) m = some ((), MemoryManager.mapKernelPageTable L m pd) := by
  rw [alone, mapKernelPageTable, Routine.run_loop (fun i m => alone_step (.kernelEntry pd i _) m),
    ← List.range_eq_range']
  rfl

/-- `createUserPageDirectory`. -/
theorem run_createUserPageDirectory (L : Layout) (fuel : ℕ) (m : Machine) :
    alone (createUserPageDirectory L fuel) m = MemoryManager.createUserPageDirectory L fuel m := by
  rw [createUserPageDirectory, MemoryManager.createUserPageDirectory]
  simp only [alone_bind, alone_step, Op.exec, Option.bind_some, run_memoryAllocate]
  congr 1
  funext ⟨va, m⟩
  by_cases hva : va = 0
  · simp only [hva, if_true, alone_bind, alone_step, Op.exec, Option.bind_some, alone_pure]
  · simp only [hva, if_false, alone_bind, alone_step, Op.exec, Option.bind_map,
      alone_mapKernelPageTable, Option.bind_some, alone_pure]
    cases translate m va <;> rfl

end Sakura.MemoryManager.Stepwise
