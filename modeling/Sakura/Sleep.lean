import Sakura.SchedulerTheorems

/-!
# `sleep`, statement by statement

`Scheduler::sleep` is two assignments and a call of `schedule`, and a timer interrupt can come
between any two of them. `Threads` adds to the scheduler the place of each task in `sleep`, and
an `Action` is one statement of the running task, or one interrupt. With no interrupt in between
the three statements are `Scheduler.sleep` (`statements_eq_sleep`).
-/

namespace Sakura.Scheduler

open TaskRef (mainTask)
open I386 (Word)

/-- Where a task is in `sleep`. -/
inductive Point where
  | outside
  /-- Before `m_runningTask->state = TaskState::Sleep`. -/
  | entered (sleepMs : UInt64)
  /-- Before `m_runningTask->wakeupTime = m_timeMs + sleepMs`. -/
  | stateSet (sleepMs : UInt64)
  /-- Before `schedule()`. -/
  | wakeupSet
  /-- Past `schedule()`. -/
  | scheduled
deriving DecidableEq, Repr

/-- The scheduler, and where each task is. -/
structure Threads where
  scheduler : Scheduler
  point : TaskRef → Point

/-- What can happen next: something the running task does, or a timer interrupt. -/
inductive Action where
  | tick
  /-- The call of `sleep`. -/
  | call (sleepMs : UInt64)
  /-- The next statement of `sleep`. -/
  | statement
  /-- The end of `sleep`. -/
  | finish
  | schedule
  | enable
  | disable
  | taskStart (task : TaskRef) (entry : Word)
deriving DecidableEq

namespace Threads

/-- The kernel after `start`: no task is in `sleep`. -/
def boot (memory : ℕ → Task) (cr3 eflags : Word) : Threads :=
  ⟨(Scheduler.boot memory).start cr3 eflags, fun _ => .outside⟩

/-- Task `t` gets to `p`, with the scheduler as `s`. -/
def goTo (x : Threads) (s : Scheduler) (t : TaskRef) (p : Point) : Threads :=
  ⟨s, fun u => if u = t then p else x.point u⟩

/-- The statements of `sleep`, and what follows them; `none` where the task is at none. -/
def statement (fuel : ℕ) (cpu : TaskRegisters) (x : Threads) (running : TaskRef) :
    Option Threads :=
  match x.point running with
  | .entered sleepMs =>
    some (x.goTo (x.scheduler.modify running fun task => { task with state := .sleep }) running
      (.stateSet sleepMs))
  | .stateSet sleepMs =>
    some (x.goTo (x.scheduler.modify running fun task =>
      { task with wakeupTime := x.scheduler.timeMs + sleepMs }) running .wakeupSet)
  | .wakeupSet =>
    (x.scheduler.schedule fuel cpu).toOption.map fun r => x.goTo r.2 running .scheduled
  | .outside | .scheduled => none

/-- One action, where it is possible and comes to its end. -/
def exec (fuel : ℕ) (cpu : TaskRegisters) (x : Threads) (a : Action) : Option Threads :=
  x.scheduler.runningTask.bind fun running =>
    match a with
    | .tick => (x.scheduler.irqCallback fuel cpu).toOption.map fun r => ⟨r.2, x.point⟩
    | .statement => x.statement fuel cpu running
    | .finish =>
      if x.point running = .scheduled then some (x.goTo x.scheduler running .outside) else none
    | .call sleepMs =>
      if x.point running = .outside then some (x.goTo x.scheduler running (.entered sleepMs))
      else none
    | .schedule =>
      if x.point running = .outside then
        (x.scheduler.schedule fuel cpu).toOption.map fun r => ⟨r.2, x.point⟩
      else none
    | .enable => if x.point running = .outside then some ⟨x.scheduler.enable, x.point⟩ else none
    | .disable => if x.point running = .outside then some ⟨x.scheduler.disable, x.point⟩ else none
    | .taskStart task entry =>
      if x.point running = .outside then
        (x.scheduler.taskStart task entry).toOption.map fun s => ⟨s, x.point⟩
      else none

/-- An action that comes to its end, whatever the processor holds. -/
def Step (x : Threads) (a : Action) (y : Threads) : Prop :=
  ∃ fuel cpu, x.exec fuel cpu a = some y

/-- The task an action starts. -/
def starts : Action → Option TaskRef
  | .taskStart task _ => some task
  | _ => none

/-- The tasks started in a run, in order. -/
def started (as : List Action) : List TaskRef :=
  as.filterMap starts

section

variable {x y : Threads} {a : Action} {s : Scheduler} {t u r : TaskRef} {p : Point}
  {sleepMs : UInt64} {ts : List TaskRef}

@[simp] theorem goTo_scheduler : (x.goTo s t p).scheduler = s := rfl

@[simp] theorem goTo_point : (x.goTo s t p).point u = if u = t then p else x.point u := rfl

/-- With no interrupt between them the statements are `sleep`. -/
theorem statements_eq_sleep {fuel : ℕ} {cpu : TaskRegisters}
    (hr : x.scheduler.runningTask = some r) (hp : x.point r = .entered sleepMs) :
    (x.exec fuel cpu .statement).bind (fun x => (x.exec fuel cpu .statement).bind fun x =>
        (x.exec fuel cpu .statement).map Threads.scheduler) =
      (x.scheduler.sleep fuel cpu sleepMs).toOption.map Prod.snd := by
  have hmodify : (x.scheduler.modify r fun task => { task with state := .sleep }).modify r
      (fun task => { task with wakeupTime := x.scheduler.timeMs + sleepMs })
      = x.scheduler.fallAsleep sleepMs r := by
    unfold fallAsleep modify
    congr 1
    funext u
    dsimp only
    split_ifs <;> rfl
  simp only [exec, hr, Option.bind_some, statement, hp, goTo_scheduler, modify_runningTask,
    goTo_point, if_true, modify_timeMs, hmodify, fallAsleep_runningTask, sleep, deref, bind,
    Except.bind, Option.map_map]
  rfl

end

end Threads

end Sakura.Scheduler
