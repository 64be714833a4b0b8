import Sakura.CreateTask
import Sakura.SchedulerTheorems

/-!
# Starting tasks, statement by statement

`Scheduler::start`, `createTask` and `taskStart`, with a timer interrupt possible between any two
statements. A thread is at a `Place` in one of the three or outside, and an `Action` is one
statement of the running thread, one call it makes, or one interrupt. Any thread may make and
start tasks. With no interrupt in between the statements are the functions
(`statements_eq_start`, `statements_eq_createTask`, `statements_eq_taskStart`).
-/

namespace Sakura

open TaskRef (mainTask)
open I386 (Word)

/-! ## Interrupts -/

namespace InterruptHandler

/-- `NumInterrupts`. -/
def numInterrupts : ℕ := 48

/-- `InterruptSource::Timer`. -/
def timer : ℕ := 32

/-- The objects in the callback table. -/
inductive Handler where
  | scheduler
  | keyboard
deriving DecidableEq, Repr

/-- `registerInterrupt`. -/
def registerInterrupt (callbackTable : ℕ → Option Handler) (this : Handler) (intNum : ℕ) :
    ℕ → Option Handler :=
  if intNum < numInterrupts then fun i => if i = intNum then some this else callbackTable i
  else callbackTable

/-- `interruptHandler`: the object whose `irqCallback` is called. -/
def interruptHandler (callbackTable : ℕ → Option Handler) (intNum : ℕ) : Option Handler :=
  if intNum < numInterrupts then callbackTable intNum else none

end InterruptHandler

namespace Starting

open InterruptHandler (Handler timer)
open Scheduler (deref taskStackSize)

/-! ## Statements -/

/-- The statements of `start`. -/
inductive StartPoint where
  | cr3
  | eflags
  | registerInterrupt
  | runningTask
  | name
  | state
  | taskTail
  | configurePit
deriving DecidableEq, Repr

/-- The statements of `createTask` after `kmalloc`. -/
inductive CreatePoint where
  | eax
  | ebx
  | ecx
  | edx
  | esi
  | edi
  | eflags
  | cr3
  | esp
  | push
  | arg
  | next
deriving DecidableEq, Repr

/-- The statements of `taskStart`. -/
inductive TaskStartPoint where
  | eip
  /-- `m_taskTail->next = &task`. -/
  | link
  | taskTail
  | next
  | state
deriving DecidableEq, Repr

/-- The statement a thread comes to next. -/
inductive Place where
  | outside
  | start (p : StartPoint)
  /-- With what `createUserPageDirectory` and `memoryAllocate` return in it. -/
  | createTask (task : TaskRef) (cr3 stack : Word) (p : CreatePoint)
  | taskStart (task : TaskRef) (entry : Word) (p : TaskStartPoint)
deriving DecidableEq

/-- How far a record is. -/
inductive Stage where
  /-- In memory that `kmalloc` has not handed out. -/
  | unused
  | creating
  /-- `createTask` has returned it. -/
  | created
  | starting
  | started
deriving DecidableEq, Repr

/-- The scheduler, the callback table, and where each thread and each record is. -/
structure State where
  scheduler : Scheduler
  callbackTable : ℕ → Option Handler
  place : TaskRef → Place
  stage : TaskRef → Stage

/-- What can happen next: something the running thread does, or a timer interrupt. -/
inductive Action where
  | tick
  /-- The next statement. -/
  | statement
  /-- The call of `createTask`, up to where `kmalloc` returns memory that holds `raw`. -/
  | createTask (task : TaskRef) (raw : Task) (cr3 stack : Word)
  | taskStart (task : TaskRef) (entry : Word)
  | schedule
  | sleep (sleepMs : UInt64)
  | enable
  | disable

def StartPoint.after : StartPoint → Place
  | cr3 => .start .eflags
  | eflags => .start .registerInterrupt
  | registerInterrupt => .start .runningTask
  | runningTask => .start .name
  | name => .start .state
  | state => .start .taskTail
  | taskTail => .start .configurePit
  | configurePit => .outside

def CreatePoint.after (task : TaskRef) (cr3 stack : Word) : CreatePoint → Place
  | eax => .createTask task cr3 stack .ebx
  | ebx => .createTask task cr3 stack .ecx
  | ecx => .createTask task cr3 stack .edx
  | edx => .createTask task cr3 stack .esi
  | esi => .createTask task cr3 stack .edi
  | edi => .createTask task cr3 stack .eflags
  | eflags => .createTask task cr3 stack .cr3
  | .cr3 => .createTask task cr3 stack .esp
  | esp => .createTask task cr3 stack .push
  | push => .createTask task cr3 stack .arg
  | arg => .createTask task cr3 stack .next
  | next => .outside

def TaskStartPoint.after (task : TaskRef) (entry : Word) : TaskStartPoint → Place
  | eip => .taskStart task entry .link
  | link => .taskStart task entry .taskTail
  | taskTail => .taskStart task entry .next
  | next => .taskStart task entry .state
  | state => .outside

/-- What a statement of `createTask` does to the record; `main` is `mainTask`. -/
def CreatePoint.assign (main : Task) (cr3 stack : Word) (p : CreatePoint) (task : Task) : Task :=
  match p with
  | eax => { task with regs := { task.regs with eax := 0 } }
  | ebx => { task with regs := { task.regs with ebx := 0 } }
  | ecx => { task with regs := { task.regs with ecx := 0 } }
  | edx => { task with regs := { task.regs with edx := 0 } }
  | esi => { task with regs := { task.regs with esi := 0 } }
  | edi => { task with regs := { task.regs with edi := 0 } }
  | eflags => { task with regs := { task.regs with eflags := main.regs.eflags } }
  | .cr3 => { task with regs := { task.regs with cr3 := cr3 } }
  | esp => { task with regs := { task.regs with esp := stack + BitVec.ofNat 32 taskStackSize } }
  | push => { task with regs := { task.regs with esp := task.regs.esp - 4 } }
  -- the argument is written to the stack
  | arg => task
  | next => { task with next := none }

namespace State

/-- The kernel as it calls `start`: what other devices have registered, and any memory for the
heap to hand out. -/
def boot (others : ℕ → Option Handler) (memory : ℕ → Task) : State where
  scheduler := Scheduler.boot memory
  callbackTable := fun i => if i = timer then none else others i
  place := fun t => if t = mainTask then .start .cr3 else .outside
  stage := fun _ => .unused

/-- The running thread. Until `m_runningTask` is set it is the one that calls `start`. -/
def current (w : State) : TaskRef := w.scheduler.runningTask.getD mainTask

/-- Thread `u` comes to `p`. -/
def goTo (w : State) (u : TaskRef) (p : Place) : State :=
  { w with place := fun t => if t = u then p else w.place t }

/-- Record `task` gets to `g`. -/
def reach (w : State) (task : TaskRef) (g : Stage) : State :=
  { w with stage := fun t => if t = task then g else w.stage t }

/-- The scheduler comes to be `s`. -/
def update (w : State) (s : Scheduler) : State := { w with scheduler := s }

/-- A statement of `start`; `cpu` holds the registers it reads. -/
def startStatement (cpu : TaskRegisters) (w : State) (p : StartPoint) : State :=
  match p with
  | .cr3 =>
    w.update (w.scheduler.modify mainTask fun task =>
      { task with regs := { task.regs with cr3 := cpu.cr3 } })
  | .eflags =>
    w.update (w.scheduler.modify mainTask fun task =>
      { task with regs := { task.regs with eflags := cpu.eflags } })
  | .registerInterrupt =>
    { w with callbackTable :=
        InterruptHandler.registerInterrupt w.callbackTable .scheduler timer }
  | .runningTask => w.update { w.scheduler with runningTask := some mainTask }
  | .name => w
  | .state => w.update (w.scheduler.modify mainTask fun task => { task with state := .running })
  | .taskTail => w.update { w.scheduler with taskTail := some mainTask }
  | .configurePit => w

/-- A statement of `createTask`. -/
def createStatement (w : State) (task : TaskRef) (cr3 stack : Word) (p : CreatePoint) : State :=
  let w := w.update
    (w.scheduler.modify task (p.assign (w.scheduler.tasks mainTask) cr3 stack))
  match p with
  | .next => w.reach task .created
  | _ => w

/-- A statement of `taskStart`. -/
def taskStartStatement (w : State) (task : TaskRef) (entry : Word) (p : TaskStartPoint) :
    Except Stop State :=
  match p with
  | .eip =>
    pure (w.update (w.scheduler.modify task fun t => { t with regs := { t.regs with eip := entry } }))
  | .link => do
    let tail ← deref w.scheduler.taskTail
    pure (w.update (w.scheduler.modify tail fun t => { t with next := some task }))
  | .taskTail => pure (w.update { w.scheduler with taskTail := some task })
  | .next => pure (w.update (w.scheduler.modify task fun t => { t with next := some mainTask }))
  | .state =>
    let w := w.update (w.scheduler.modify task fun t => { t with state := .running })
    pure (w.reach task .started)

/-- The next statement of thread `u`. Outside the three functions it is one that leaves the
scheduler alone. -/
def statement (cpu : TaskRegisters) (w : State) (u : TaskRef) : Except Stop State :=
  match w.place u with
  | .outside => pure w
  | .start p => pure ((w.startStatement cpu p).goTo u p.after)
  | .createTask task cr3 stack p =>
    pure ((w.createStatement task cr3 stack p).goTo u (p.after task cr3 stack))
  | .taskStart task entry p => do
    let w ← w.taskStartStatement task entry p
    pure (w.goTo u (p.after task entry))

/-- A call that selects a task, or none. -/
def call (w : State) (r : Except Stop (Option TaskRef × Scheduler)) :
    Except Stop (Option TaskRef × State) := do
  let (selected, s) ← r
  pure (selected, w.update s)

/-- One action, with the task that `goToNextTask` selects in it. -/
def exec (fuel : ℕ) (cpu : TaskRegisters) (w : State) (a : Action) :
    Except Stop (Option TaskRef × State) :=
  match a with
  | .tick =>
    match InterruptHandler.interruptHandler w.callbackTable timer with
    | some .scheduler => w.call (w.scheduler.irqCallback fuel cpu)
    | _ => pure (none, w)
  | .statement => do
    let w ← w.statement cpu w.current
    pure (none, w)
  | .createTask task raw cr3 stack =>
    let w := w.update (w.scheduler.modify task fun _ => raw)
    pure (none, (w.reach task .creating).goTo w.current (.createTask task cr3 stack .eax))
  | .taskStart task entry =>
    pure (none, (w.reach task .starting).goTo w.current (.taskStart task entry .eip))
  | .schedule => w.call (w.scheduler.schedule fuel cpu)
  | .sleep sleepMs => w.call (w.scheduler.sleep fuel cpu sleepMs)
  | .enable => pure (none, w.update w.scheduler.enable)
  | .disable => pure (none, w.update w.scheduler.disable)

/-- Calls are made outside the three functions; `kmalloc` returns memory that is not in use, and a
task that `createTask` has returned is started once. -/
def Possible (w : State) : Action → Prop
  | .tick | .statement => True
  | .createTask task _ _ _ =>
    w.place w.current = .outside ∧ w.stage task = .unused ∧ task ≠ mainTask
  | .taskStart task _ => w.place w.current = .outside ∧ w.stage task = .created
  | .schedule | .sleep _ | .enable | .disable => w.place w.current = .outside

end State

/-- An action of a run, the state it was done in, and the task selected in it. -/
structure Event where
  before : State
  action : Action
  selected : Option TaskRef

/-- The statement at `p` of `taskStart`, called on `task`. -/
def Event.Runs (e : Event) (task : TaskRef) (p : TaskStartPoint) : Prop :=
  e.action = .statement ∧ ∃ entry, e.before.place e.before.current = .taskStart task entry p

/-- An action that comes to its end, whatever the processor holds. -/
def Step (w : State) (e : Event) (w' : State) : Prop :=
  e.before = w ∧ w.Possible e.action ∧
    ∃ fuel cpu, w.exec fuel cpu e.action = .ok (e.selected, w')

namespace State

/-! ## Without interrupts -/

/-- `n` statements of thread `u`. -/
def statements (cpu : TaskRegisters) (u : TaskRef) : ℕ → State → Except Stop State
  | 0, w => pure w
  | n + 1, w => do
    let w ← w.statement cpu u
    statements cpu u n w

section

variable {w : State} {u task : TaskRef} {cr3 stack entry : Word}

/-- Moving on to another statement is seen in the place of the thread only. -/
@[simp] theorem goTo_scheduler {p : Place} : (w.goTo u p).scheduler = w.scheduler := rfl
/-- The table of callbacks is not part of the place. -/
@[simp] theorem goTo_callbackTable {p : Place} : (w.goTo u p).callbackTable = w.callbackTable := rfl
@[simp] theorem goTo_stage {p : Place} : (w.goTo u p).stage = w.stage := rfl
/-- Only the thread that runs moves. -/
@[simp] theorem goTo_place {p : Place} {t : TaskRef} :
    (w.goTo u p).place t = if t = u then p else w.place t := rfl
/-- A stage is a note about the task, and nothing else changes. -/
@[simp] theorem reach_scheduler {g : Stage} : (w.reach task g).scheduler = w.scheduler := rfl
@[simp] theorem reach_callbackTable {g : Stage} :
    (w.reach task g).callbackTable = w.callbackTable := rfl
@[simp] theorem reach_place {g : Stage} : (w.reach task g).place = w.place := rfl
/-- Only the stage of this task is noted. -/
@[simp] theorem reach_stage {g : Stage} {t : TaskRef} :
    (w.reach task g).stage t = if t = task then g else w.stage t := rfl
/-- An assignment to the scheduler's data changes nothing else. -/
@[simp] theorem update_scheduler {s : Scheduler} : (w.update s).scheduler = s := rfl
@[simp] theorem update_callbackTable {s : Scheduler} :
    (w.update s).callbackTable = w.callbackTable := rfl
/-- The threads stay where they are. -/
@[simp] theorem update_place {s : Scheduler} : (w.update s).place = w.place := rfl
@[simp] theorem update_stage {s : Scheduler} : (w.update s).stage = w.stage := rfl

/-- The statements of `start`, one after the other, are `Scheduler.start`. -/
theorem statements_eq_start (cpu : TaskRegisters) (hu : w.place mainTask = .start .cr3) :
    ∃ w', w.statements cpu mainTask 8 = .ok w' ∧ w'.place mainTask = .outside ∧
      w'.scheduler = w.scheduler.start cpu.cr3 cpu.eflags := by
  refine ⟨_, by simp only [statements, statement, hu, StartPoint.after, pure, Except.pure, bind,
    Except.bind, goTo_place, if_true]; rfl, rfl, ?_⟩
  simp only [goTo_scheduler, startStatement, update_scheduler, Scheduler.modify_modify,
    Scheduler.start]

/-- The record is the one that `createTask` makes. -/
theorem statements_eq_createTask {L : MemoryManager.Layout} {fuel : ℕ} {m m' : MemoryManager.Machine}
    {isUser : Bool} {arg : Word} {made : Task} (cpu : TaskRegisters) (hne : task ≠ mainTask)
    (hu : w.place u = .createTask task made.regs.cr3
      (made.regs.esp + 4 - BitVec.ofNat 32 taskStackSize) .eax)
    (hmake : Scheduler.createTask L fuel (w.scheduler.tasks mainTask) (w.scheduler.tasks task) m
      isUser arg = some (made, m')) :
    ∃ w', w.statements cpu u 12 = .ok w' ∧ w'.place u = .outside ∧
      w'.scheduler = w.scheduler.modify task fun _ => made := by
  refine ⟨_, by simp only [statements, statement, hu, CreatePoint.after, pure, Except.pure, bind,
    Except.bind, goTo_place, if_true]; rfl, if_pos rfl, ?_⟩
  simp only [goTo_scheduler, createStatement, reach_scheduler, update_scheduler,
    Scheduler.modify_modify, CreatePoint.assign]
  refine Scheduler.modify_congr ?_
  rw [Scheduler.modify_tasks, if_neg hne.symm]
  rw [Scheduler.createTask, Option.bind_eq_some_iff] at hmake
  obtain ⟨⟨cr3, m₁⟩, -, hstack⟩ := hmake
  obtain ⟨⟨esp, m₂⟩, -, heq⟩ := Option.map_eq_some_iff.mp hstack
  obtain ⟨rfl, -⟩ := Prod.mk.inj heq
  simp only [BitVec.sub_add_cancel, BitVec.add_sub_cancel]

/-- The statements of `taskStart`, undisturbed, are `Scheduler.taskStart`. -/
theorem statements_eq_taskStart (cpu : TaskRegisters) (hu : w.place u = .taskStart task entry .eip) :
    (w.statements cpu u 5).map State.scheduler = w.scheduler.taskStart task entry := by
  cases htail : w.scheduler.taskTail with
  | none =>
    simp only [statements, statement, hu, TaskStartPoint.after, taskStartStatement, pure,
      Except.pure, bind, Except.bind, goTo_place, if_true, goTo_scheduler, update_scheduler,
      Scheduler.modify_taskTail, htail, deref, Scheduler.taskStart]
    rfl
  | some tail =>
    simp only [statements, statement, hu, TaskStartPoint.after, taskStartStatement, pure,
      Except.pure, bind, Except.bind, goTo_place, if_true, goTo_scheduler, update_scheduler,
      Scheduler.modify_taskTail, htail, deref, Scheduler.taskStart, Except.map, reach_scheduler,
      Scheduler.modify_modify]

end

end State

end Starting

end Sakura
