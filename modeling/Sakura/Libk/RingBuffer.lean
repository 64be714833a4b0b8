import Mathlib.Algebra.Group.Nat.Defs
import Sakura.Lib.Fifo

/-!
# The ring buffer

`RingBuffer<Type, maxElements>` of `Libk/RingBuffer.h`. Only `m_head`, where the next element
goes, and `m_numElements` are stored; `getTail` works out where the oldest element is. All
three are `size_t`, 32 bits wide.

An access to `m_buffer` outside its `maxElements` elements is `none`. The bodies of `push` and
`pop` run with the scheduler disabled.
-/

namespace Sakura.Libk

/-- `RingBuffer`. -/
structure RingBuffer (α : Type*) (maxElements : ℕ) where
  buffer : Vector α maxElements
  head : ℕ
  numElements : ℕ

namespace RingBuffer

variable {α : Type*} {maxElements : ℕ}

/-- The constructor, which leaves `m_buffer` as it is. -/
def new (buffer : Vector α maxElements) : RingBuffer α maxElements where
  buffer
  head := 0
  numElements := 0

/-- `isFull`. -/
def isFull (b : RingBuffer α maxElements) : Bool :=
  maxElements ≤ b.numElements

/-- `isEmpty`. -/
def isEmpty (b : RingBuffer α maxElements) : Bool :=
  b.numElements == 0

/-- `getTail`. -/
def getTail (b : RingBuffer α maxElements) : ℕ :=
  (b.head + (maxElements + 2 ^ 32 - b.numElements) % 2 ^ 32) % 2 ^ 32 % maxElements

/-- `m_buffer[i] = element`. -/
def store (b : RingBuffer α maxElements) (i : ℕ) (element : α) :
    Option (RingBuffer α maxElements) :=
  if h : i < maxElements then some { b with buffer := b.buffer.set i element h } else none

/-- `push`. -/
def push (b : RingBuffer α maxElements) (element : α) (force : Bool) :
    Option (Bool × RingBuffer α maxElements) :=
  let full := b.isFull
  if !full || force then do
    let b ← b.store b.head element
    pure (!full, { b with
      head := (b.head + 1) % 2 ^ 32 % maxElements
      numElements := if full then b.numElements else (b.numElements + 1) % 2 ^ 32 })
  else
    pure (!full, b)

/-- `pop`, with what `*element` holds before and after. -/
def pop (b : RingBuffer α maxElements) (element : α) :
    Option (Bool × α × RingBuffer α maxElements) :=
  if !b.isEmpty then do
    let element ← b.buffer[b.getTail]?
    pure (true, element, { b with numElements := (b.numElements + 2 ^ 32 - 1) % 2 ^ 32 })
  else
    pure (false, element, b)

/-- A request to the buffer. The caller of `pop` looks at `*element` if it returns true; what
was there before is `junk`. -/
def step (junk : α) (b : RingBuffer α maxElements) :
    Fifo.Op α → Option (Fifo.Answer α × RingBuffer α maxElements)
  | .push element force => do
    let (ret, b) ← b.push element force
    pure (.pushed ret, b)
  | .pop => do
    let (ret, element, b) ← b.pop junk
    pure (.popped (if ret then some element else none), b)

end RingBuffer

end Sakura.Libk
