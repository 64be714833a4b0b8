import Mathlib.Data.List.Basic

/-!
# A bounded queue

A queue that holds at most `cap` elements, first in first out, with the two ways of adding to
it when it is full: leave it alone, or drop its oldest element.
-/

namespace Fifo

variable {α : Type*}

/-- Adds `e` at the end. A full queue is left alone unless `force` is set; then its oldest
element makes room. The answer says whether there was room. -/
def push (cap : ℕ) (q : List α) (e : α) (force : Bool) : Bool × List α :=
  if q.length < cap then (true, q ++ [e])
  else if force then (false, q.tail ++ [e])
  else (false, q)

/-- Takes the oldest element, if there is one. -/
def pop (q : List α) : Option α × List α :=
  (q.head?, q.tail)

/-- What a client of a queue can ask for. -/
inductive Op (α : Type*) where
  | push (e : α) (force : Bool)
  | pop
deriving DecidableEq, Repr

/-- What it gets back. -/
inductive Answer (α : Type*) where
  | pushed (room : Bool)
  | popped (e : Option α)
deriving DecidableEq, Repr

/-- One request. -/
def step (cap : ℕ) (q : List α) : Op α → Answer α × List α
  | .push e force => ((push cap q e force).map .pushed id)
  | .pop => ((pop q).map .popped id)

end Fifo
