import Sakura.Scheduler
import Sakura.Libk.RingBuffer

/-!
# The keyboard

`Keyboard.cpp`: the interrupt handler, which stores the characters of the keys that are
pressed, and `read`, which polls for them. `push` and `pop` disable the scheduler and enable it
again; that is all they do to it.

Interrupts, and other readers, come between the check of `read` and its `pop`. A call is therefore
taken in steps (`Event`), and a run is any order of them.
-/

namespace Sakura.Devices

open Libk

/-- `KEYBOARD_RINGBUF_SIZE`. -/
def keyboardRingbufSize : ℕ := 1024

/-- `keymap`, as ASCII. -/
def keymap : List (BitVec 8) := [
  0, 27, 49, 50, 51, 52, 53, 54, 55, 56, 57, 48, 45, 61, 8,
  9, 113, 119, 101, 114, 116, 121, 117, 105, 111, 112, 91, 93, 10,
  0, 97, 115, 100, 102, 103, 104, 106, 107, 108, 59, 39, 96, 0,
  92, 122, 120, 99, 118, 98, 110, 109, 44, 46, 47, 0, 42, 0,
  32, 0, 0,
  0, 0, 0, 0, 0, 0, 0, 0, 0, 0, 0, 55, 56, 57, 45, 52, 53, 54, 43, 49, 50, 51, 48, 46, 0, 0, 92, 0, 0, 0]

namespace Keyboard

/-- The keyboard reports a key that is pressed. -/
def Pressed (keycode : BitVec 8) : Prop := keycode &&& 0x80 = 0

instance (keycode : BitVec 8) : Decidable (Pressed keycode) :=
  inferInstanceAs (Decidable (_ = _))

/-- `irqCallback`, on the code read from the port. `beyond` is what lies behind the table. -/
def irqCallback (beyond : ℕ → BitVec 8) (s : Scheduler)
    (ringbuffer : RingBuffer (BitVec 8) keyboardRingbufSize) (keycode : BitVec 8) :
    Option (Scheduler × RingBuffer (BitVec 8) keyboardRingbufSize) :=
  if Pressed keycode then
    let code := (keycode &&& 0x7F).toNat
    let c := keymap.getD code (beyond code)
    (ringbuffer.push c false).map fun (_, ringbuffer) => (s.disable.enable, ringbuffer)
  else some (s, ringbuffer)

/-! ## Readers -/

/-- A call of `read`, between two steps of its loop. -/
structure Reader where
  read : ℕ
  length : ℕ
  /-- `numElements() > 0` has been seen, and `pop` is next. -/
  popping : Bool
deriving DecidableEq, Repr

/-- The keyboard with the calls of `read` that have not returned, by task. `stored` lists the
bytes in the readers' buffers in the order they were stored. -/
structure State where
  scheduler : Scheduler
  ringbuffer : RingBuffer (BitVec 8) keyboardRingbufSize
  reader : TaskRef → Option Reader
  stored : List (TaskRef × BitVec 8)

/-- A step of the keyboard or of a reader. -/
inductive Event where
  /-- An interrupt, with the byte at the port. -/
  | irq (keycode : BitVec 8)
  | read (task : TaskRef) (length : ℕ)
  /-- The check of `numElements`. -/
  | poll (task : TaskRef)
  /-- `pop(&c)` and the two statements after it, with what is in `c` before. -/
  | pop (task : TaskRef) (c : BitVec 8)
  /-- The end of the loop. -/
  | ret (task : TaskRef)

namespace State

/-- A new keyboard. -/
def new (scheduler : Scheduler) (buffer : Vector (BitVec 8) keyboardRingbufSize) : State where
  scheduler
  ringbuffer := .new buffer
  reader := fun _ => none
  stored := []

/-- Whether a call of `read` by `task` goes on and is where `p` says. -/
def At (s : State) (task : TaskRef) (p : Reader → Prop) : Prop :=
  match s.reader task with
  | some reader => p reader
  | none => False

/-- What the call of `read` by `task` becomes. -/
def setReader (s : State) (task : TaskRef) (reader : Option Reader) : State :=
  { s with reader := Function.update s.reader task reader }

/-- Where an event can happen. -/
def Enabled (s : State) : Event → Prop
  | .irq _ => True
  | .read task _ => s.reader task = none
  | .poll task => s.At task fun reader => reader.read < reader.length ∧ reader.popping = false
  | .pop task _ => s.At task fun reader => reader.popping = true
  | .ret task => s.At task fun reader => ¬ reader.read < reader.length ∧ reader.popping = false

/-- What it does. -/
def exec (beyond : ℕ → BitVec 8) (s : State) : Event → Option State
  | .irq keycode =>
    (irqCallback beyond s.scheduler s.ringbuffer keycode).map fun (scheduler, ringbuffer) =>
      { s with scheduler, ringbuffer }
  | .read task length => some (s.setReader task (some ⟨0, length, false⟩))
  | .poll task => some (s.setReader task ((s.reader task).map fun reader =>
      { reader with popping := decide (0 < s.ringbuffer.numElements) }))
  | .pop task c =>
    -- the loop does not look at what `pop` returns
    (s.ringbuffer.pop c).map fun (_, c, ringbuffer) =>
      { s.setReader task ((s.reader task).map fun reader =>
          { reader with read := reader.read + 1, popping := false }) with
        scheduler := s.scheduler.disable.enable
        ringbuffer
        stored := s.stored ++ [(task, c)] }
  | .ret task => some (s.setReader task none)

end State

/-- A step of a run. -/
def Step (beyond : ℕ → BitVec 8) (s : State) (e : Event) (s' : State) : Prop :=
  s.Enabled e ∧ s.exec beyond e = some s'

end Keyboard

end Sakura.Devices
