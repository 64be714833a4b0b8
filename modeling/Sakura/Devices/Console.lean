import Sakura.Devices.Keyboard
import Sakura.Devices.TTY

/-!
# The console

`TTY::tty_process`, the task that reads one character after the other from the keyboard and
prints it, step by step between the interrupts of the keyboard. Nobody else reads this keyboard,
and nobody else prints meanwhile.
-/

namespace Sakura.Devices

open Libk

/-- The statement of `tty_process` that is next, or that is being executed. -/
inductive ConsolePoint where
  | read
  /-- In the call of `read`. -/
  | reading
  | writeChar
  | updateCursor
deriving DecidableEq, Repr

/-- The keyboard, the terminal, and the task with its variable `c`. -/
structure Console where
  keyboard : Keyboard.State
  tty : TTY
  point : ConsolePoint
  c : BitVec 8

namespace Console

/-- What happens on a console. -/
inductive Event where
  | keyboard (e : Keyboard.Event)
  | writeChar
  | updateCursor

/-- `TTY::open`, with what is in memory before. -/
def opened (t : TTY) (scheduler : Scheduler) (buffer : Vector (BitVec 8) keyboardRingbufSize)
    (c : BitVec 8) : Console where
  keyboard := .new scheduler buffer
  tty := t.ttyOpen
  point := .read
  c := c

/-- An interrupt of the keyboard, or a step of `tty_process`, which `task` runs. The buffer that
`read` stores to is `c`. -/
inductive Step (beyond : ℕ → BitVec 8) (task : TaskRef) : Console → Event → Console → Prop
  | irq {s : Console} {k : Keyboard.State} (keycode : BitVec 8) :
      Keyboard.Step beyond s.keyboard (.irq keycode) k →
      Step beyond task s (.keyboard (.irq keycode)) { s with keyboard := k }
  | read {s : Console} {k : Keyboard.State} : s.point = .read →
      Keyboard.Step beyond s.keyboard (.read task 1) k →
      Step beyond task s (.keyboard (.read task 1)) { s with keyboard := k, point := .reading }
  | poll {s : Console} {k : Keyboard.State} : s.point = .reading →
      Keyboard.Step beyond s.keyboard (.poll task) k →
      Step beyond task s (.keyboard (.poll task)) { s with keyboard := k }
  | pop {s : Console} {k : Keyboard.State} (junk c : BitVec 8) : s.point = .reading →
      Keyboard.Step beyond s.keyboard (.pop task junk) k →
      k.stored = s.keyboard.stored ++ [(task, c)] →
      Step beyond task s (.keyboard (.pop task junk)) { s with keyboard := k, c := c }
  | ret {s : Console} {k : Keyboard.State} : s.point = .reading →
      Keyboard.Step beyond s.keyboard (.ret task) k →
      Step beyond task s (.keyboard (.ret task)) { s with keyboard := k, point := .writeChar }
  | writeChar {s : Console} : s.point = .writeChar →
      Step beyond task s .writeChar
        { s with tty := s.tty.writeChar (UInt8.ofBitVec s.c), point := .updateCursor }
  | updateCursor {s : Console} : s.point = .updateCursor →
      Step beyond task s .updateCursor { s with tty := s.tty.showCursor, point := .read }

end Console

end Sakura.Devices
