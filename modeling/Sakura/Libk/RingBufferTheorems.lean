import Sakura.Libk.RingBuffer
import Sakura.Lib.Run

/-!
# The ring buffer is a bounded queue

Element `i` of the queue is at `slot b i`, counted back from `m_head`. A push writes the slot
before `m_head` that no element uses, or the one the oldest element uses when the buffer is
full; a pop only shortens the count.
-/

namespace Sakura.Libk.RingBuffer

variable {α : Type*} {maxElements : ℕ}

/-- Where element `i`, counted from the oldest, is. -/
def slot (b : RingBuffer α maxElements) (i : ℕ) : ℕ :=
  (b.head + (maxElements - b.numElements) + i) % maxElements

/-- The buffer holds the queue `q`. -/
structure Holds (b : RingBuffer α maxElements) (q : List α) : Prop where
  head_lt : b.head < maxElements
  numElements_le : b.numElements ≤ maxElements
  length : q.length = b.numElements
  elements : ∀ i (h : i < q.length), b.buffer[b.slot i]? = some q[i]

theorem holds_new (hpos : 0 < maxElements) (buffer : Vector α maxElements) :
    Holds (new buffer) [] where
  head_lt := hpos
  numElements_le := Nat.zero_le _
  length := rfl
  elements := fun i h => absurd h (Nat.not_lt_zero i)

section

variable {b : RingBuffer α maxElements} {q : List α}

theorem isFull_iff (h : Holds b q) : b.isFull = true ↔ ¬ q.length < maxElements := by
  simp [isFull, h.length]

theorem getTail_eq (hmax : maxElements ≤ 2 ^ 31) (h : Holds b q) : b.getTail = b.slot 0 := by
  have hhead := h.head_lt
  have hnum := h.numElements_le
  have hsub : (maxElements + 2 ^ 32 - b.numElements) % 2 ^ 32 = maxElements - b.numElements := by
    omega
  rw [getTail, slot, hsub, Nat.add_zero]
  -- the sum is below twice the capacity, which is where the bound on it is needed
  rw [Nat.mod_eq_of_lt (show b.head + (maxElements - b.numElements) < 2 ^ 32 by omega)]

/-- The slot `m_head` is `maxElements` further round from any other. -/
theorem slot_ne_head (h : Holds b q) {i : ℕ} (hi : i < b.numElements)
    (hlt : b.numElements < maxElements ∨ 0 < i) : b.slot i ≠ b.head := by
  have hhead := h.head_lt
  have hnum := h.numElements_le
  rw [slot]
  by_cases hwrap : b.head + (maxElements - b.numElements) + i < maxElements
  · rw [Nat.mod_eq_of_lt hwrap]
    omega
  · rw [Nat.mod_eq_sub_mod (by omega), Nat.mod_eq_of_lt (by omega)]
    omega

/-- Slots are counted from `m_head`, so moving it on by one moves them on by one. -/
theorem mod_head_succ (head k : ℕ) :
    ((head + 1) % maxElements + k) % maxElements = (head + (k + 1)) % maxElements := by
  rw [Nat.mod_add_mod]
  congr 1
  omega

/-- What is at a slot other than the one that was written. -/
theorem getElem?_set_slot (h : Holds b q) {i j : ℕ} {e : α} (hne : b.slot i ≠ b.head)
    (hj : j = b.slot i) :
    (b.buffer.set b.head e h.head_lt)[j]? = b.buffer[b.slot i]? := by
  subst hj
  exact Vector.getElem?_set_ne _ (Ne.symm hne)

/-! ## One request -/

theorem push_room (hmax : maxElements ≤ 2 ^ 31) (h : Holds b q) (e : α) (force : Bool)
    (hroom : q.length < maxElements) :
    ∃ b', b.push e force = some (true, b') ∧ Holds b' (q ++ [e]) := by
  have hhead := h.head_lt
  have hlen := h.length
  have hfull : b.isFull = false := by
    rw [← Bool.not_eq_true, isFull_iff h, not_not]
    exact hroom
  refine ⟨⟨b.buffer.set b.head e hhead, (b.head + 1) % 2 ^ 32 % maxElements,
    (b.numElements + 1) % 2 ^ 32⟩, by simp [push, hfull, store, hhead], ?_⟩
  have hnum : (b.numElements + 1) % 2 ^ 32 = b.numElements + 1 := by omega
  have hnext : (b.head + 1) % 2 ^ 32 = b.head + 1 := by omega
  rw [hnum, hnext]
  refine ⟨Nat.mod_lt _ (by omega), by simp only; omega, by simp [hlen], ?_⟩
  intro i hi
  -- the count has gone up with `m_head`, so every element keeps its slot
  have hslot : slot ⟨b.buffer.set b.head e hhead, (b.head + 1) % maxElements,
      b.numElements + 1⟩ i = b.slot i := by
    simp only [slot]
    rw [Nat.add_assoc, mod_head_succ]
    congr 1
    omega
  rw [hslot]
  simp only [List.length_append, List.length_cons, List.length_nil] at hi
  by_cases hlast : i < q.length
  · rw [getElem?_set_slot h (slot_ne_head h (by omega) (.inl (by omega))) rfl,
      h.elements i hlast, List.getElem_append_left hlast]
  · have hi' : i = b.numElements := by omega
    have hself : b.slot i = b.head := by
      rw [slot, hi', show b.head + (maxElements - b.numElements) + b.numElements =
        b.head + maxElements by omega, Nat.add_mod_right, Nat.mod_eq_of_lt hhead]
    simp only [hself, Vector.getElem?_set_self]
    simp [List.getElem_append_right (Nat.not_lt.mp hlast)]

theorem push_full (h : Holds b q) (hmax : maxElements ≤ 2 ^ 31) (e : α)
    (hroom : ¬ q.length < maxElements) :
    ∃ b', b.push e true = some (false, b') ∧ Holds b' (q.tail ++ [e]) := by
  have hhead := h.head_lt
  have hlen := h.length
  have hle := h.numElements_le
  have hfull : b.isFull = true := (isFull_iff h).mpr hroom
  refine ⟨⟨b.buffer.set b.head e hhead, (b.head + 1) % 2 ^ 32 % maxElements, b.numElements⟩,
    by simp [push, hfull, store, hhead], ?_⟩
  have hnext : (b.head + 1) % 2 ^ 32 = b.head + 1 := by omega
  rw [hnext]
  refine ⟨Nat.mod_lt _ (by omega), hle, by simp; omega, ?_⟩
  intro i hi
  -- the count stays, so every element moves up one place
  have hslot : slot ⟨b.buffer.set b.head e hhead, (b.head + 1) % maxElements,
      b.numElements⟩ i = b.slot (i + 1) := by
    simp only [slot]
    rw [Nat.add_assoc, mod_head_succ]
    congr 1
    omega
  rw [hslot]
  simp only [List.length_append, List.length_tail, List.length_cons, List.length_nil] at hi
  by_cases hlast : i < q.tail.length
  · rw [List.length_tail] at hlast
    rw [getElem?_set_slot h (slot_ne_head h (by omega) (.inr (by omega))) rfl,
      h.elements (i + 1) (by omega), List.getElem_append_left (by simpa using hlast)]
    simp
  · have hi' : i + 1 = b.numElements := by
      rw [List.length_tail] at hlast
      omega
    have hself : b.slot (i + 1) = b.head := by
      rw [slot, hi', show b.head + (maxElements - b.numElements) + b.numElements =
        b.head + maxElements by omega, Nat.add_mod_right, Nat.mod_eq_of_lt hhead]
    simp only [hself, Vector.getElem?_set_self]
    simp [List.getElem_append_right (Nat.not_lt.mp hlast)]

theorem push_spec (hmax : maxElements ≤ 2 ^ 31) (h : Holds b q) (e : α) (force : Bool) :
    ∃ b', b.push e force = some ((Fifo.push maxElements q e force).1, b') ∧
      Holds b' (Fifo.push maxElements q e force).2 := by
  by_cases hroom : q.length < maxElements
  · simp only [Fifo.push, if_pos hroom]
    exact push_room hmax h e force hroom
  · simp only [Fifo.push, if_neg hroom]
    cases force with
    | true => exact push_full h hmax e hroom
    | false =>
      have hfull : b.isFull = true := (isFull_iff h).mpr hroom
      exact ⟨b, by simp [push, hfull], h⟩

theorem pop_spec (hmax : maxElements ≤ 2 ^ 31) (h : Holds b q) (junk : α) :
    ∃ b', b.pop junk = some (q.head?.isSome, q.head?.getD junk, b') ∧ Holds b' q.tail := by
  have hlen := h.length
  have hle := h.numElements_le
  cases q with
  | nil =>
    have hempty : b.isEmpty = true := by simpa [isEmpty] using hlen.symm
    exact ⟨b, by simp [pop, hempty], h⟩
  | cons x q =>
    simp only [List.length_cons] at hlen
    have hempty : b.isEmpty = false := by simp [isEmpty]; omega
    have htail : b.buffer[b.getTail]? = some x := by
      rw [getTail_eq hmax h]
      exact h.elements 0 (by simp)
    have hnum : (b.numElements + 2 ^ 32 - 1) % 2 ^ 32 = b.numElements - 1 := by omega
    have hpop : b.pop junk = some (true, x, { b with numElements := b.numElements - 1 }) := by
      rw [pop, hempty, htail, hnum]
      rfl
    refine ⟨{ b with numElements := b.numElements - 1 }, hpop, ?_⟩
    refine ⟨h.head_lt, by simp only; omega, by simp only [List.tail_cons]; omega, ?_⟩
    intro i hi
    simp only [List.tail_cons] at hi ⊢
    have hslot : slot { b with numElements := b.numElements - 1 } i = b.slot (i + 1) := by
      simp only [slot]
      rw [show b.head + (maxElements - (b.numElements - 1)) + i =
        b.head + (maxElements - b.numElements) + (i + 1) by omega]
    rw [hslot, h.elements (i + 1) (by simpa using hi), List.getElem_cons_succ]

theorem step_spec (hmax : maxElements ≤ 2 ^ 31) (junk : α) (h : Holds b q) (op : Fifo.Op α) :
    ∃ b', b.step junk op = some ((Fifo.step maxElements q op).1, b') ∧
      Holds b' (Fifo.step maxElements q op).2 := by
  cases op with
  | push e force =>
    obtain ⟨b', hb', h'⟩ := push_spec hmax h e force
    exact ⟨b', by simp [step, hb', Fifo.step], h'⟩
  | pop =>
    obtain ⟨b', hb', h'⟩ := pop_spec hmax h junk
    refine ⟨b', ?_, h'⟩
    cases q <;> simp [step, hb', Fifo.step, Fifo.pop]

end

/-! ## Every sequence of requests -/

/-- A new buffer gives the answers of the bounded queue to every sequence of requests: no access
leaves `m_buffer`, and afterwards it holds the queue. -/
theorem ringBuffer_refines_fifo (hpos : 0 < maxElements) (hmax : maxElements ≤ 2 ^ 31)
    (buffer : Vector α maxElements) (junk : α) (ops : List (Fifo.Op α)) :
    ∃ b, Run.answers? (step junk) (new buffer) ops =
        some ((Run.answers (Fifo.step maxElements) [] ops).1, b) ∧
      Holds b (Run.answers (Fifo.step maxElements) [] ops).2 :=
  Run.answers?_refines (R := Holds) (fun _ _ op h => step_spec hmax junk h op) ops (holds_new hpos buffer)

/-- The overwriting of a full buffer of two. -/
theorem ringBuffer_refines_fifo_two :
    ∃ b, Run.answers? (step 0) (new #v[7, 7])
        [.push 1 false, .push 2 false, .push 3 false, .push 4 true, .pop] =
        some ([.pushed true, .pushed true, .pushed false, .pushed false, .popped (some 2)], b) ∧
      Holds b [4] :=
  ringBuffer_refines_fifo (by decide) (by decide) #v[7, 7] 0
    [.push 1 false, .push 2 false, .push 3 false, .push 4 true, .pop]

end Sakura.Libk.RingBuffer
