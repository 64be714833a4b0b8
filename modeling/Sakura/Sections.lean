import Sakura.Devices.Keyboard
import Sakura.SchedulerTheorems

/-!
# Sections with the scheduler disabled

The lock of the heap (`liballoc_lock`, `liballoc_unlock`) and the bodies of `RingBuffer::push`
and `pop` are sections between `Scheduler::disable` and `enable`. There is one flag for all of
them, and the keyboard's interrupt handler goes through a section of its own in the middle of
anyone's: its `enable` opens the other section too.
-/

namespace Sakura

open Libk Devices

/-- The scheduler, the keyboard's buffer, and the tasks between `disable` and their `enable`. -/
structure SectionState where
  scheduler : Scheduler
  ringbuffer : RingBuffer (BitVec 8) keyboardRingbufSize
  inside : TaskRef → Bool

namespace SectionState

/-- What happens next. -/
inductive Action where
  | disable
  | enable
  /-- A statement of a section. -/
  | body (ringbuffer : RingBuffer (BitVec 8) keyboardRingbufSize)
  | call (c : Scheduler.Call)
  | key (keycode : BitVec 8)

/-- The running task enters a section or leaves it. -/
def setInside (s : SectionState) (task : TaskRef) (b : Bool) (scheduler : Scheduler) :
    SectionState :=
  { s with scheduler, inside := fun t => if t = task then b else s.inside t }

/-- One action, and the task it switches to. Sections do not nest, and nothing in them calls the
scheduler; interrupts come anywhere. -/
inductive Step (beyond : ℕ → BitVec 8) :
    SectionState → Action → Option TaskRef → SectionState → Prop
  | disable {s : SectionState} {r : TaskRef} : s.scheduler.runningTask = some r →
      s.inside r = false → Step beyond s .disable none (s.setInside r true s.scheduler.disable)
  | enable {s : SectionState} {r : TaskRef} : s.scheduler.runningTask = some r →
      s.inside r = true → Step beyond s .enable none (s.setInside r false s.scheduler.enable)
  | body {s : SectionState} {r : TaskRef} (ringbuffer : RingBuffer (BitVec 8) keyboardRingbufSize) :
      s.scheduler.runningTask = some r → s.inside r = true →
      Step beyond s (.body ringbuffer) none { s with ringbuffer }
  | call {s : SectionState} {r : TaskRef} {c : Scheduler.Call} {fuel : ℕ} {cpu : TaskRegisters}
      {selected : Option TaskRef} {scheduler : Scheduler} : s.scheduler.runningTask = some r →
      (c = .tick ∨ s.inside r = false) → c.exec fuel cpu s.scheduler = .ok (selected, scheduler) →
      Step beyond s (.call c) selected { s with scheduler }
  | key {s : SectionState} {keycode : BitVec 8} {scheduler : Scheduler}
      {ringbuffer : RingBuffer (BitVec 8) keyboardRingbufSize} :
      Keyboard.irqCallback beyond s.scheduler s.ringbuffer keycode = some (scheduler, ringbuffer) →
      Step beyond s (.key keycode) none { s with scheduler, ringbuffer }

/-- No key is pressed while a task is in a section. -/
def Quiet (s : SectionState) : Action → Prop
  | .key keycode => Keyboard.Pressed keycode → ∀ t, s.inside t = false
  | _ => True

/-- A step in which no key is pressed inside a section. -/
def QuietStep (beyond : ℕ → BitVec 8) (s s' : SectionState) : Prop :=
  ∃ a selected, s.Quiet a ∧ Step beyond s a selected s'

/-- The invariant: a task in a section is the one that runs, and the scheduler is disabled. -/
def Exclusive (s : SectionState) : Prop :=
  ∀ t, s.inside t = true → s.scheduler.runningTask = some t ∧ s.scheduler.schedulerEnabled = false

end SectionState

end Sakura
