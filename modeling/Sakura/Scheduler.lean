import Sakura.TaskSwitch

/-!
# The scheduler

`Scheduler.cpp`. The started tasks are on a list that `taskStart` closes into a ring through
`mainTask`; `goToNextTask` walks it from the running task. Its loop has no bound of its own, so
it is given one: `Stop.fuel` is a loop that is still going.

Statics and tasks are one record. A task is the static `mainTask` or one that `createTask` got
from the heap.
-/

namespace Sakura

open I386 (Word)

/-- `TaskState`. -/
inductive TaskState where
  | none
  | running
  | sleep
deriving DecidableEq, Repr

/-- The address of a `Task`. -/
inductive TaskRef where
  | mainTask
  | heap (address : ℕ)
deriving DecidableEq, Repr

/-- `Task`, less its name, which only a debugger reads. -/
structure Task where
  regs : TaskRegisters
  next : Option TaskRef
  wakeupTime : UInt64
  state : TaskState

/-- The statics of `Scheduler` and the tasks they point to. -/
structure Scheduler where
  tasks : TaskRef → Task
  schedulerEnabled : Bool
  timeMs : UInt64
  taskTail : Option TaskRef
  runningTask : Option TaskRef

/-- Why code does not come to its end. -/
inductive Stop where
  /-- The loop has not ended yet. -/
  | fuel
  /-- A null pointer was followed. -/
  | null
deriving DecidableEq, Repr

namespace Scheduler

open TaskRef (mainTask)

/-- `*task = f(*task)`. -/
def modify (s : Scheduler) (task : TaskRef) (f : Task → Task) : Scheduler :=
  { s with tasks := fun t => if t = task then f (s.tasks t) else s.tasks t }

/-- The task a pointer points to. -/
def deref (p : Option TaskRef) : Except Stop TaskRef :=
  match p with
  | none => .error .null
  | some t => .ok t

/-- What `goToNextTask` asks of a task. -/
def eligible (s : Scheduler) (t : TaskRef) : Bool :=
  (s.tasks t).state = .running ∨
    ((s.tasks t).state = .sleep ∧ s.timeMs > (s.tasks t).wakeupTime)

/-- The loop of `goToNextTask`. -/
def findTask (s : Scheduler) : ℕ → Option TaskRef → Except Stop (Option TaskRef)
  | 0, _ => .error .fuel
  | _ + 1, none => .ok none
  | fuel + 1, some nextTask =>
    if s.eligible nextTask then .ok (some nextTask)
    else findTask s fuel (s.tasks nextTask).next

/-- `goToNextTask`. -/
def goToNextTask (fuel : ℕ) (s : Scheduler) : Except Stop (Option TaskRef × Scheduler) := do
  let running ← deref s.runningTask
  match ← findTask s fuel (s.tasks running).next with
  | none => pure (none, s)
  | some nextTask =>
    pure (some nextTask, s.modify nextTask fun task => { task with state := .running })

/-- `schedule`, with the task it switches to. `switchTask` leaves `cpu`, the registers of the
processor, in the task it leaves. -/
def schedule (fuel : ℕ) (cpu : TaskRegisters) (s : Scheduler) :
    Except Stop (Option TaskRef × Scheduler) :=
  if s.schedulerEnabled then do
    let last := s.runningTask
    let (next, s) ← goToNextTask fuel s
    match next with
    | none => pure (none, s)
    | some next =>
      let last ← deref last
      let s := { s with runningTask := some next }
      pure (some next, s.modify last fun task => { task with regs := cpu })
  else
    pure (none, s)

/-- `enable`. -/
def enable (s : Scheduler) : Scheduler :=
  { s with schedulerEnabled := true }

/-- `disable`. -/
def disable (s : Scheduler) : Scheduler :=
  { s with schedulerEnabled := false }

/-- `m_timeMs++`. -/
def countTick (s : Scheduler) : Scheduler :=
  { s with timeMs := s.timeMs + 1 }

/-- `irqCallback`. -/
def irqCallback (fuel : ℕ) (cpu : TaskRegisters) (s : Scheduler) :
    Except Stop (Option TaskRef × Scheduler) :=
  schedule fuel cpu s.countTick

/-- The assignments of `sleep` to the running task. -/
def fallAsleep (sleepMs : UInt64) (s : Scheduler) (running : TaskRef) : Scheduler :=
  s.modify running fun task =>
    { task with state := .sleep, wakeupTime := s.timeMs + sleepMs }

/-- `sleep`. -/
def sleep (fuel : ℕ) (cpu : TaskRegisters) (sleepMs : UInt64) (s : Scheduler) :
    Except Stop (Option TaskRef × Scheduler) := do
  let running ← deref s.runningTask
  schedule fuel cpu (s.fallAsleep sleepMs running)

/-- `taskStart`. -/
def taskStart (s : Scheduler) (task : TaskRef) (entry : Word) : Except Stop Scheduler := do
  let s := s.modify task fun t => { t with regs := { t.regs with eip := entry } }
  let tail ← deref s.taskTail
  -- this task is now the tail
  let s := s.modify tail fun t => { t with next := some task }
  let s := { s with taskTail := some task }
  -- loop back to the first task
  pure (s.modify task fun t => { t with next := some mainTask, state := .running })

/-- `start`, given what it reads of the processor. -/
def start (s : Scheduler) (cr3 eflags : Word) : Scheduler :=
  let s := s.modify mainTask fun t =>
    { t with regs := { t.regs with cr3 := cr3, eflags := eflags } }
  let s := { s with runningTask := some mainTask }
  let s := s.modify mainTask fun t => { t with state := .running }
  { s with taskTail := some mainTask }

/-- The statics as the kernel image has them, with any memory for the heap to hand out. -/
def boot (memory : ℕ → Task) : Scheduler where
  tasks
    | .mainTask => ⟨⟨0, 0, 0, 0, 0, 0, 0, 0, 0, 0, 0⟩, none, 0, .none⟩
    | .heap address => memory address
  schedulerEnabled := true
  timeMs := 0
  taskTail := none
  runningTask := none

end Scheduler

end Sakura
