import Sakura.LoadTheorems

/-!
# The modules of the bootloader

`Multiboot::loadModules`, undisturbed: each module is mapped to itself, and handed to `load`. The
list of the modules is not among what the modules' segments overwrite, nor are the records of the
tasks and the data of the allocators: these are kept apart from the memory that calls and segments
write (see `Kernel`), so a segment at a page of the heap is outside what is said here.

Each file that `load` accepts is a task at the end of the ring, in the order of the modules, that
starts at the entry of its file, and nothing happens to the records of the tasks that were there
(`loadModules_join`).
-/

namespace Sakura.Multiboot

open MemoryManager Kernel Routine
open I386 (Word)
open TaskRef (mainTask)
open Scheduler (Ring Started)

section

variable (L : Layout) (fuel : ℕ) (alloc : ℕ → Machine → Option (ℕ × Machine))

/-- One iteration of `loadModules`, with the answer of `load`, which is not looked at. -/
def loadModule (k : Kernel) (module : ModuleInfo) : Option (Bool × Kernel) :=
  let size := (module.modEnd + 2 ^ 32 - module.modStart) % 2 ^ 32
  (identityMap fuel k.machine L.kernelPageDirectory module.modStart size).bind fun machine =>
    (Elf.load L module.modStart size).run (Primitive.exec L fuel alloc) { k with machine }

/-- `loadModules`. -/
def loadModules (k : Kernel) (modules : List ModuleInfo) : Option (List Bool × Kernel) :=
  Run.answers? (loadModule L fuel alloc) k modules

end

/-! ## What is spared -/

/-- The statement leaves the tasks and the blocks alone. -/
def Spares : Primitive → Prop
  | .kmalloc _ | .assign .. | .taskStart .. => False
  | _ => True

section

variable {L : Layout} {fuel : ℕ} {alloc : ℕ → Machine → Option (ℕ × Machine)} {k k' : Kernel}

theorem exec_spares {o : Primitive} {r : o.Result} (ho : Spares o)
    (h : o.exec L fuel alloc k = some (r, k')) :
    k'.scheduler = k.scheduler ∧ k'.blocks = k.blocks := by
  cases o with
  | kmalloc size => cases ho
  | assign t f => cases ho
  | taskStart t entry => cases ho
  | task t =>
    obtain ⟨-, rfl⟩ := Prod.mk.inj (Option.some.inj h)
    exact ⟨rfl, rfl⟩
  | printk text =>
    obtain ⟨-, rfl⟩ := Prod.mk.inj (Option.some.inj h)
    exact ⟨rfl, rfl⟩
  | copyByte dst elfData offset =>
    obtain ⟨b, -, h⟩ := Option.bind_eq_some_iff.mp h
    obtain ⟨x, -, heq⟩ := Option.map_eq_some_iff.mp h
    obtain ⟨-, rfl⟩ := Prod.mk.inj heq
    exact ⟨rfl, rfl⟩
  | _ =>
    obtain ⟨x, -, heq⟩ := Option.map_eq_some_iff.mp h
    obtain ⟨-, rfl⟩ := Prod.mk.inj heq
    exact ⟨rfl, rfl⟩

/-- A function whose statements leave the tasks and the blocks alone does so. -/
theorem run_spares {α : Type} {a : α} (p : Routine Primitive.Result α) :
    ∀ {k : Kernel}, Performs (Primitive.exec L fuel alloc) Spares p k →
      p.run (Primitive.exec L fuel alloc) k = some (a, k') →
      k'.scheduler = k.scheduler ∧ k'.blocks = k.blocks := by
  induction p with
  | done b =>
    intro k _ hrun
    obtain ⟨-, rfl⟩ := Prod.mk.inj (Option.some.inj hrun)
    exact ⟨rfl, rfl⟩
  | spin =>
    intro k _ hrun
    cases hrun
  | op o next ih =>
    intro k hp hrun
    obtain ⟨ho, hnext⟩ := (performs_op o next).mp hp
    obtain ⟨⟨r, k₁⟩, hexec, hrun⟩ := Option.bind_eq_some_iff.mp hrun
    obtain ⟨hscheduler, hblocks⟩ := exec_spares ho hexec
    obtain ⟨hscheduler', hblocks'⟩ := ih r (hnext r k₁ hexec) hrun
    exact ⟨hscheduler'.trans hscheduler, hblocks'.trans hblocks⟩

variable {elfData : ℕ} {task : TaskRef}

/-- One segment. -/
theorem loadSegment_spares (sec : ℕ) (k : Kernel) :
    Performs (Primitive.exec L fuel alloc) Spares (Elf.loadSegment elfData task sec) k := by
  have hcopy : ∀ dst offset i k, Performs (Primitive.exec L fuel alloc) Spares
      (step (.copyByte ((dst + i) % 2 ^ 32) elfData (offset + i))) k :=
    fun _ _ _ _ => (performs_perform _).mpr trivial
  simp only [Elf.loadSegment, Elf.programHeader, Elf.alignSegment, Elf.mapSegment, Elf.copySegment,
    performs_bind, step, performs_perform, performs_pure, Spares, true_and, implies_true, and_true]
  intro _ _ _ _ _ _ _ _ _ _ _ _ _ _ _ _ _ _
  exact performs_loop (hcopy _ _) _ _ _

/-- All segments. -/
theorem loadSegments_spares (rounds : ℕ) : ∀ (sec : ℕ) (k : Kernel),
    Performs (Primitive.exec L fuel alloc) Spares (Elf.loadSegments elfData task rounds sec) k := by
  induction rounds with
  | zero =>
    intro sec k
    exact List.forall_mem_nil _
  | succ rounds ih =>
    intro sec k
    rw [Elf.loadSegments, performs_bind]
    refine ⟨(performs_perform _).mpr trivial, fun phnum k' _ => ?_⟩
    split_ifs
    · exact (performs_bind _ _).mpr ⟨loadSegment_spares sec k', fun _ k'' _ => ih (sec + 1) k''⟩
    · exact (performs_pure ()).mpr trivial

end

/-! ## One module -/

/-- A task is as it was, but for its link. -/
structure Kept (t t' : Task) : Prop where
  regs : t'.regs = t.regs
  state : t'.state = t.state
  wakeupTime : t'.wakeupTime = t.wakeupTime

theorem Kept.trans {t t' t'' : Task} (h : Kept t t') (h' : Kept t' t'') : Kept t t'' :=
  ⟨h'.regs.trans h.regs, h'.state.trans h.state, h'.wakeupTime.trans h.wakeupTime⟩

/-- The task is ready to run at the entry of the file at `elfData`, in the kernel's directory. -/
structure Enters (L : Layout) (elfData : ℕ) (m : Machine) (t : Task) : Prop where
  state : t.state = .running
  cr3 : t.regs.cr3 = BitVec.ofNat 32 (L.kernelPageDirectory * pageSize)
  eip : ∃ entry, readInt m 4 ((elfData + Elf.eEntry) % 2 ^ 32) = some entry ∧
    t.regs.eip = BitVec.ofNat 32 entry

/-- What a task starts with does not depend on its link. -/
theorem Enters.kept {L : Layout} {elfData : ℕ} {m : Machine} {t t' : Task} (h : Enters L elfData m t)
    (hkept : Kept t t') : Enters L elfData m t' := by
  obtain ⟨hstate, hcr3, heip⟩ := h
  refine ⟨hkept.state.trans hstate, ?_, ?_⟩
  · rw [hkept.regs, hcr3]
  · rw [hkept.regs]
    exact heip

/-- The task at `p` has joined the ring, at the entry of the file. -/
structure Joins (L : Layout) (elfData p : ℕ) (k k' : Kernel) : Prop where
  blocks : k'.blocks = if p = 0 then k.blocks else p :: k.blocks
  ring : ∀ ts, Ring k.scheduler ts → .heap p ∉ mainTask :: ts → Ring k'.scheduler (ts ++ [.heap p])
  running : k'.scheduler.runningTask = k.scheduler.runningTask
  enters : Enters L elfData k'.machine (k'.scheduler.tasks (.heap p))
  kept : ∀ x, x ≠ .heap p → Kept (k.scheduler.tasks x) (k'.scheduler.tasks x)

section

variable {L : Layout} {fuel : ℕ} {alloc : ℕ → Machine → Option (ℕ × Machine)} {k k' : Kernel}
  {elfData length : ℕ}

/-- `taskStart` puts the task into the ring and sets where it starts. -/
theorem taskStart_cases {s s' : Scheduler} {task : TaskRef} {entry : Word}
    (h : s.taskStart task entry = .ok s') : ∃ tail, s.taskTail = some tail ∧
      Started s tail task s' ∧ ∀ x, (s'.tasks x).regs =
        if x = task then { (s.tasks x).regs with eip := entry } else (s.tasks x).regs := by
  cases htail : s.taskTail with
  | none =>
    rw [Scheduler.taskStart, Scheduler.modify_taskTail, htail] at h
    cases h
  | some tail =>
    obtain ⟨s₁, hs₁, hstarted⟩ := @Scheduler.taskStart_started s tail task entry htail
    obtain rfl := Except.ok.inj (hs₁.symm.trans h)
    refine ⟨tail, rfl, hstarted, ?_⟩
    rw [Scheduler.taskStart, Scheduler.modify_taskTail, htail] at h
    cases h
    intro x
    simp only [Scheduler.modify_tasks]
    split_ifs <;> rfl

/-- What `createTask` does for a task of the kernel. -/
theorem createTask_record {task : TaskRef}
    (h : (createTask L false 0).run (Primitive.exec L fuel alloc) k = some (task, k')) :
    ∃ p record, task = .heap p ∧ k'.blocks = (if p = 0 then k.blocks else p :: k.blocks) ∧
      k'.scheduler = k.scheduler.modify (.heap p) (fun _ => record) ∧
      record.regs.cr3 = BitVec.ofNat 32 (L.kernelPageDirectory * pageSize) := by
  rw [run_createTask, Option.bind_eq_some_iff] at h
  obtain ⟨⟨p, k₁⟩, halloc, h⟩ := h
  obtain ⟨⟨p', m₁⟩, -, heq⟩ := Option.map_eq_some_iff.mp halloc
  obtain ⟨rfl, rfl⟩ := Prod.mk.inj heq
  obtain ⟨⟨record, m₂⟩, hcreate, heq⟩ := Option.map_eq_some_iff.mp h
  obtain ⟨rfl, rfl⟩ := Prod.mk.inj heq
  refine ⟨p', record, rfl, rfl, rfl, ?_⟩
  simp only [Scheduler.createTask, Bool.false_eq_true, if_false, Option.bind_some,
    Option.map_eq_some_iff] at hcreate
  obtain ⟨stack, -, heq⟩ := hcreate
  rw [← (Prod.mk.inj heq).1]

/-- A file that is not accepted changes nothing; one that is becomes a task. -/
theorem load_cases {b : Bool}
    (h : (Elf.load L elfData length).run (Primitive.exec L fuel alloc) k = some (b, k')) :
    (b = false ∧ k' = k) ∨ (b = true ∧ ∃ p, Joins L elfData p k k') := by
  rw [Elf.load, run_bind_eq_some] at h
  obtain ⟨accepted, k₀, hverify, h⟩ := h
  obtain rfl : k = k₀ := (Elf.run_verifyElfHeader hverify).1.symm
  cases accepted with
  | false =>
    obtain ⟨rfl, rfl⟩ := Prod.mk.inj (Option.some.inj h)
    exact Or.inl ⟨rfl, rfl⟩
  | true =>
    obtain ⟨task, k₁, hcreate, h⟩ := run_bind_eq_some.mp h
    obtain ⟨⟨⟩, k₂, hsegments, h⟩ := run_bind_eq_some.mp h
    rw [Elf.run_read, Option.bind_eq_some_iff] at h
    obtain ⟨entry, hentry, h⟩ := h
    obtain ⟨⟨⟩, k₃, hstart, h⟩ := run_bind_eq_some.mp h
    obtain ⟨rfl, rfl⟩ := Prod.mk.inj (Option.some.inj h)
    rw [step, run_perform, Primitive.exec] at hstart
    obtain ⟨s, hs, heq⟩ := Scheduler.of_toOption_map hstart
    obtain rfl := (Prod.mk.inj heq).2
    obtain ⟨p, record, rfl, hblocks, hscheduler, hcr3⟩ := createTask_record hcreate
    obtain ⟨hspared, hspared'⟩ := run_spares _ (loadSegments_spares _ _ _) hsegments
    rw [hspared, hscheduler] at hs
    obtain ⟨tail, htail, hstarted, hregs⟩ := taskStart_cases hs
    have hrecord : (k.scheduler.modify (.heap p) fun _ => record).tasks (.heap p) = record :=
      tasks_modify_self
    refine Or.inr ⟨rfl, p, hspared'.trans hblocks, ?_, hstarted.runningTask, ?_, ?_⟩
    · intro ts hring hfresh
      exact (hring.modify hfresh _).started hfresh htail hstarted
    · refine ⟨?_, ?_, entry, hentry, ?_⟩
      · rw [hstarted.state, if_pos rfl]
      · rw [hregs, if_pos rfl, hrecord]
        exact hcr3
      · rw [hregs, if_pos rfl]
    · intro x hx
      have hother : (k.scheduler.modify (.heap p) fun _ => record).tasks x = k.scheduler.tasks x :=
        tasks_modify_of_ne hx
      refine ⟨?_, ?_, ?_⟩
      · rw [hregs, if_neg hx, hother]
      · rw [hstarted.state, if_neg hx, hother]
      · rw [hstarted.wakeupTime, hother]

/-- A module is refused, and the tasks and blocks are as they were, or its task joins. -/
theorem loadModule_cases {module : ModuleInfo} {b : Bool}
    (h : loadModule L fuel alloc k module = some (b, k')) :
    (b = false ∧ k'.scheduler = k.scheduler ∧ k'.blocks = k.blocks) ∨
      (b = true ∧ ∃ p, Joins L module.modStart p k k') := by
  obtain ⟨machine, -, h⟩ := Option.bind_eq_some_iff.mp h
  rcases load_cases h with ⟨hb, rfl⟩ | ⟨hb, p, hjoins⟩
  · exact Or.inl ⟨hb, rfl, rfl⟩
  · exact Or.inr ⟨hb, p, hjoins.blocks, hjoins.ring, hjoins.running, hjoins.enters, hjoins.kept⟩

/-! ## All modules -/

/-- A module that has been loaded, the answer of `load`, and the machine after it. -/
structure Loaded where
  module : ModuleInfo
  answer : Bool
  machine : Machine

/-- `loadModule`, and what is to be said of it later. -/
def LoadStep (L : Layout) (fuel : ℕ) (alloc : ℕ → Machine → Option (ℕ × Machine)) (k : Kernel)
    (e : Loaded) (k' : Kernel) : Prop :=
  loadModule L fuel alloc k e.module = some (e.answer, k') ∧ e.machine = k'.machine

/-- Each module in turn, the answers in their order. -/
theorem loadModules_trace {modules : List ModuleInfo} : ∀ {k : Kernel} {answers : List Bool},
    loadModules L fuel alloc k modules = some (answers, k') →
    ∃ es : List Loaded, es.map Loaded.module = modules ∧ es.map Loaded.answer = answers ∧
      Run.Trace (LoadStep L fuel alloc) k es k' := by
  induction modules with
  | nil =>
    intro k answers h
    obtain ⟨rfl, rfl⟩ := Prod.mk.inj (Option.some.inj h)
    exact ⟨[], rfl, rfl, .nil k⟩
  | cons module modules ih =>
    intro k answers h
    obtain ⟨⟨b, k₁⟩, hone, h⟩ := Option.bind_eq_some_iff.mp h
    obtain ⟨⟨bs, k₂⟩, hrest, h⟩ := Option.bind_eq_some_iff.mp h
    obtain ⟨rfl, rfl⟩ := Prod.mk.inj (Option.some.inj h)
    obtain ⟨es, rfl, rfl, htrace⟩ := ih hrest
    exact ⟨⟨module, b, k₁.machine⟩ :: es, rfl, rfl, .cons ⟨hone, rfl⟩ htrace⟩

/-- The tasks at `ps` have joined the tasks `ts`, one for each file that was accepted. -/
structure AllJoined (L : Layout) (k k' : Kernel) (es : List Loaded) (ts : List TaskRef)
    (ps : List ℕ) : Prop where
  ring : Ring k'.scheduler (ts ++ ps.map TaskRef.heap)
  running : k'.scheduler.runningTask = k.scheduler.runningTask
  enters : List.Forall₂ (fun e p => Enters L e.module.modStart e.machine (k'.scheduler.tasks (.heap p)))
    (es.filter Loaded.answer) ps
  kept : ∀ x, x ∉ ps.map TaskRef.heap → Kept (k.scheduler.tasks x) (k'.scheduler.tasks x)

/-- As many tasks join as modules are accepted, each with a record of its own. -/
theorem trace_joins {es : List Loaded} (h : Run.Trace (LoadStep L fuel alloc) k es k') :
    ∃ ps : List ℕ, ps.length = (es.map Loaded.answer).count true ∧
      k'.blocks = (ps.filter (· ≠ 0)).reverse ++ k.blocks ∧
      (∀ x, x ∉ ps.map TaskRef.heap → Kept (k.scheduler.tasks x) (k'.scheduler.tasks x)) ∧
      ∀ ts, Ring k.scheduler ts →
        (mainTask :: (ts ++ ps.map TaskRef.heap)).Nodup → AllJoined L k k' es ts ps := by
  induction h with
  | nil k =>
    refine ⟨[], rfl, rfl, fun x _ => ⟨rfl, rfl, rfl⟩,
      fun ts hring _ => ⟨?_, rfl, .nil, fun x _ => ⟨rfl, rfl, rfl⟩⟩⟩
    rw [List.map_nil, List.append_nil]
    exact hring
  | @cons k k₁ k' e es hstep _ ih =>
    obtain ⟨hload, hmachine⟩ := hstep
    obtain ⟨ps, hlength, hblocks, hkept, hall⟩ := ih
    rcases loadModule_cases hload with ⟨hb, hscheduler, hblocks₁⟩ | ⟨hb, p, hjoins⟩
    · refine ⟨ps, ?_, hblocks₁ ▸ hblocks, hscheduler ▸ hkept, fun ts hring hnodup => ?_⟩
      · rw [List.map_cons, hb]
        exact hlength
      · obtain ⟨h1, h2, h3, h4⟩ := hall ts (hscheduler ▸ hring) hnodup
        rw [hscheduler] at h2 h4
        refine ⟨h1, h2, ?_, h4⟩
        rw [List.filter_cons_of_neg (by rw [hb]; exact Bool.false_ne_true)]
        exact h3
    · have hkept' : ∀ x, x ∉ (p :: ps).map TaskRef.heap →
          Kept (k.scheduler.tasks x) (k'.scheduler.tasks x) := by
        intro x hx
        rw [List.map_cons, List.mem_cons, not_or] at hx
        exact (hjoins.kept x hx.1).trans (hkept x hx.2)
      refine ⟨p :: ps, ?_, ?_, hkept', fun ts hring hnodup => ?_⟩
      · rw [List.map_cons, hb, List.count_cons_self, List.length_cons, hlength]
      · rw [hblocks, hjoins.blocks, List.filter_cons]
        by_cases hp : p = 0
        · simp [hp]
        · simp [hp]
      · have hapart := List.nodup_append.mp (List.cons_append ▸ hnodup)
        have hfresh : TaskRef.heap p ∉ mainTask :: ts :=
          fun hmem => hapart.2.2 _ hmem _ List.mem_cons_self rfl
        have hlater : TaskRef.heap p ∉ ps.map TaskRef.heap := (List.nodup_cons.mp hapart.2.1).1
        have hnodup' : (mainTask :: (ts ++ [.heap p] ++ ps.map TaskRef.heap)).Nodup := by
          rw [List.append_assoc, List.singleton_append]
          exact hnodup
        obtain ⟨h1, h2, h3, h4⟩ := hall _ (hjoins.ring ts hring hfresh) hnodup'
        rw [List.append_assoc, List.singleton_append] at h1
        refine ⟨h1, h2.trans hjoins.running, ?_, hkept'⟩
        rw [List.filter_cons_of_pos hb]
        refine .cons ?_ h3
        rw [hmachine]
        -- the tasks that join later are other ones
        exact hjoins.enters.kept (h4 _ hlater)

end

/-- Whatever the modules are, `loadModules` adds the tasks of those that are accepted to the ring, at
its end and in their order, and none of the others. What `kmalloc` has answered for them are blocks
in use, and it must not have handed one out twice. -/
theorem loadModules_join (L : Layout) (fuel : ℕ) (alloc : ℕ → Machine → Option (ℕ × Machine))
    (k k' : Kernel) (ts : List TaskRef) (modules : List ModuleInfo) (answers : List Bool)
    (hring : Ring k.scheduler ts)
    (hrun : loadModules L fuel alloc k modules = some (answers, k')) :
    ∃ (es : List Loaded) (ps : List ℕ), es.map Loaded.module = modules ∧
      es.map Loaded.answer = answers ∧ Run.Trace (LoadStep L fuel alloc) k es k' ∧
      ps.length = answers.count true ∧ k'.blocks = (ps.filter (· ≠ 0)).reverse ++ k.blocks ∧
      ((ts ++ ps.map TaskRef.heap).Nodup → AllJoined L k k' es ts ps) := by
  obtain ⟨es, hmodules, hanswers, htrace⟩ := loadModules_trace hrun
  obtain ⟨ps, hlength, hblocks, -, hall⟩ := trace_joins htrace
  refine ⟨es, ps, hmodules, hanswers, htrace, hanswers ▸ hlength, hblocks, ?_⟩
  refine fun hnodup => hall ts hring ?_
  refine List.nodup_cons.mpr ⟨?_, hnodup⟩
  rw [List.mem_append, not_or]
  refine ⟨(List.nodup_cons.mp hring.nodup).1, ?_⟩
  rw [List.mem_map]
  rintro ⟨p, -, hp⟩
  cases hp

/-- What does not begin with the magic number is no file. -/
theorem load_refused {L : Layout} {fuel elfData length v : ℕ}
    {alloc : ℕ → Machine → Option (ℕ × Machine)} {k : Kernel}
    (hread : readInt k.machine 1 (elfData % 2 ^ 32) = some v) (hv : v ≠ 0x7F) :
    (Elf.load L elfData length).run (Primitive.exec L fuel alloc) k = some (false, k) := by
  have hverify : (Elf.verifyElfHeader elfData).run (Primitive.exec L fuel alloc) k
      = some (false, k) := by
    unfold Elf.verifyElfHeader
    by_cases hzero : elfData = 0
    · rw [if_pos hzero]
      rfl
    · rw [if_neg hzero, Elf.checks, Elf.verify, Elf.run_read, Nat.add_zero, hread, Option.bind_some,
        if_neg (by simpa using hv)]
      rfl
  rw [Elf.load, run_bind, hverify]
  rfl

/-- Two modules after boot, of which the second is a file: its task joins, to run at 1 GiB. -/
theorem loadModules_join_file :
    ∃ m₀ k' p, init minimalLayout (2 ^ 20 + 1) (Elf.fileMachine (Elf.imageFile 0x1000))
        [⟨0, 0x8000000, 1⟩] [] = some m₀ ∧
      loadModules minimalLayout (2 ^ 20 + 1) (kmallocEmpty minimalLayout (2 ^ 20 + 1))
        ⟨m₀, (Scheduler.boot Scheduler.zeroed).start 0 0, []⟩
        [⟨0x60000, 0x61000⟩, ⟨0x50000, 0x51000⟩] = some ([false, true], k') ∧
      Ring k'.scheduler [.heap p] ∧ (k'.scheduler.tasks (.heap p)).state = .running ∧
      (k'.scheduler.tasks (.heap p)).regs.eip = 0x40000000 := by
  obtain ⟨m₀, hm₀, -⟩ := ram_init (L := minimalLayout) [⟨0, 0x8000000, 1⟩]
    (Elf.booted_fileMachine (Elf.imageFile 0x1000)) (show 2 ^ 20 < 2 ^ 20 + 1 by omega)
  -- each module is mapped to itself, as it was
  obtain ⟨m₁, hm₁, hfile₁⟩ := (Elf.fileMapped_init hm₀).identityMap (k := 0x60) 0x1000
    (by decide)
  obtain ⟨m₂, hm₂, hfile₂⟩ := hfile₁.identityMap (k := 0x50) 0x1000 (by decide)
  have hread : readInt m₁ 1 (0x60000 % 2 ^ 32) = some 0 := by
    rw [readInt, readByte, hfile₁.self (by decide), Option.map_some, Machine.byte,
      hfile₁.ram _ _ (Elf.not_own_low (by decide))]
    rfl
  obtain ⟨hinv, hready, -, k', hload⟩ := Elf.load_imageFile (Or.inr rfl) hfile₂
    (show 84 ≤ 0x1000 by omega) (Nat.le_refl _) (Nat.le_refl _)
  have hrun : loadModules minimalLayout (2 ^ 20 + 1) (kmallocEmpty minimalLayout (2 ^ 20 + 1))
      ⟨m₀, (Scheduler.boot Scheduler.zeroed).start 0 0, []⟩
      [⟨0x60000, 0x61000⟩, ⟨0x50000, 0x51000⟩] = some ([false, true], k') := by
    have hfirst : loadModule minimalLayout (2 ^ 20 + 1) (kmallocEmpty minimalLayout (2 ^ 20 + 1))
        ⟨m₀, (Scheduler.boot Scheduler.zeroed).start 0 0, []⟩ ⟨0x60000, 0x61000⟩
          = some (false, ⟨m₁, (Scheduler.boot Scheduler.zeroed).start 0 0, []⟩) :=
      Option.bind_eq_some_iff.mpr ⟨m₁, hm₁, load_refused hread (by decide)⟩
    have hsecond : loadModule minimalLayout (2 ^ 20 + 1) (kmallocEmpty minimalLayout (2 ^ 20 + 1))
        ⟨m₁, (Scheduler.boot Scheduler.zeroed).start 0 0, []⟩ ⟨0x50000, 0x51000⟩ = some (true, k') :=
      Option.bind_eq_some_iff.mpr ⟨m₂, hm₂, hload⟩
    simp only [loadModules, Run.answers?, hfirst, hsecond, Option.bind_eq_bind, Option.bind_some,
      Option.pure_def]
  obtain ⟨es, ps, hmodules, hanswers, htrace, hlength, -, hall⟩ := loadModules_join _ _ _ _ _ [] _ _
    (Scheduler.ring_start Scheduler.zeroed 0 0) hrun
  obtain ⟨p, rfl⟩ := List.length_eq_one_iff.mp hlength
  obtain ⟨hring, -, henters, -⟩ := hall (List.nodup_singleton _)
  obtain ⟨hcount, hoffset, -⟩ := @Elf.fields_imageFile 0x1000 (Or.inr rfl)
  -- the entry is in front of the program headers, and as it was
  obtain ⟨⟨B, hplace, hB⟩, -⟩ := Elf.atHeader_load (by omega) hinv hready hload
  have hentry := hplace.readInt (n := 4) (o := Elf.eEntry) (by decide)
  rw [Elf.field_eq hB (Or.inl (by rw [hoffset]; decide))] at hentry
  refine ⟨m₀, k', p, hm₀, hrun, hring, ?_⟩
  -- the second module is the only one that joins
  obtain ⟨e₁, e₂, rfl⟩ := List.length_eq_two.mp
    (show es.length = 2 by rw [← List.length_map Loaded.module, hmodules]; rfl)
  obtain ⟨hrefused, hanswers⟩ := List.cons.inj hanswers
  have haccepted := (List.cons.inj hanswers).1
  have hmodule := (List.cons.inj (List.cons.inj hmodules).2).1
  rw [List.filter_cons_of_neg (by simp [hrefused]), List.filter_cons_of_pos haccepted,
    List.filter_nil, List.forall₂_cons] at henters
  obtain ⟨⟨hstate, -, entry, hreads, heip⟩, -⟩ := henters
  cases htrace with
  | cons _ htrace => cases htrace with
    | cons hstep htrace =>
      cases htrace
      rw [hstep.2, hmodule] at hreads
      obtain rfl := Option.some.inj (hentry.symm.trans hreads)
      exact ⟨hstate, heip⟩

end Sakura.Multiboot
