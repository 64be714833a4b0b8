import Mathlib.Data.List.Basic

/-!
# Doubly linked lists

Cells with a pointer each way, either of which may be null. `Linked prev next l` says that the
cells of `l`, in that order, are a whole list. It can be told from the pointers alone, so an
edit is described by what it does to them: `Linked.insert` and `Linked.unlink` take the
pointers before and after, and say what the list is then.
-/

namespace DoublyLinked

variable {α : Type*} {prev next prev' next' : α → Option α} {p p' n n' : Option α} {a b : α}
  {l xs ys : List α}

/-- Part of a list: the cells of `l` are linked, with `p` before them and `n` behind. -/
def Segment (prev next : α → Option α) (p : Option α) : List α → Option α → Prop
  | [], _ => True
  | a :: l, n => prev a = p ∧ next a = l.head?.or n ∧ Segment prev next (some a) l n

/-- A whole list. -/
def Linked (prev next : α → Option α) (l : List α) : Prop :=
  Segment prev next none l none

@[simp] theorem segment_nil : Segment prev next p [] n := trivial

theorem segment_cons : Segment prev next p (a :: l) n ↔
    prev a = p ∧ next a = l.head?.or n ∧ Segment prev next (some a) l n := Iff.rfl

/-- What is behind a cell is before the next one. -/
theorem getLast?_or_some (a : α) (l : List α) (p : Option α) :
    l.getLast?.or (some a) = (a :: l).getLast?.or p := by
  cases hl : l.getLast? <;> simp [List.getLast?_cons, hl]

theorem segment_append : ∀ {xs : List α} {p : Option α}, Segment prev next p (xs ++ ys) n ↔
    Segment prev next p xs (ys.head?.or n) ∧ Segment prev next (xs.getLast?.or p) ys n
  | [], p => by simp
  | a :: xs, p => by
    rw [List.cons_append, segment_cons, segment_cons, segment_append, List.head?_append,
      Option.or_assoc, getLast?_or_some a xs p]
    tauto

theorem Segment.congr : ∀ {l : List α} {p : Option α}, Segment prev next p l n →
    (∀ b ∈ l, prev' b = prev b ∧ next' b = next b) → Segment prev' next' p l n
  | [], _, _, _ => trivial
  | a :: l, p, ⟨hp, hn, hl⟩, hsame => by
    have ha := hsame a List.mem_cons_self
    exact ⟨ha.1.trans hp, ha.2.trans hn,
      hl.congr fun b hb => hsame b (List.mem_cons_of_mem a hb)⟩

theorem Linked.congr (h : Linked prev next l)
    (hsame : ∀ b ∈ l, prev' b = prev b ∧ next' b = next b) : Linked prev' next' l :=
  Segment.congr h hsame

/-- The neighbours of a cell. -/
theorem Linked.neighbours (h : Linked prev next (xs ++ a :: ys)) :
    prev a = xs.getLast? ∧ next a = ys.head? := by
  have hseg := (segment_append.mp h).2
  rw [segment_cons, Option.or_none, Option.or_none] at hseg
  exact ⟨hseg.1, hseg.2.1⟩

/-- A pointer goes to the neighbour in the list. -/
theorem Linked.exists_next (h : Linked prev next l) (ha : a ∈ l) (hb : next a = some b) :
    ∃ xs ys, l = xs ++ a :: b :: ys := by
  obtain ⟨xs, ys, rfl⟩ := List.append_of_mem ha
  obtain ⟨zs, rfl⟩ := List.head?_eq_some_iff.mp (h.neighbours.2.symm.trans hb)
  exact ⟨xs, zs, rfl⟩

theorem Linked.exists_prev (h : Linked prev next l) (ha : a ∈ l) (hb : prev a = some b) :
    ∃ xs ys, l = xs ++ b :: a :: ys := by
  obtain ⟨xs, ys, rfl⟩ := List.append_of_mem ha
  obtain ⟨zs, rfl⟩ := List.getLast?_eq_some_iff.mp (h.neighbours.1.symm.trans hb)
  exact ⟨zs, ys, by rw [List.append_assoc, List.singleton_append]⟩

/-- What two neighbours have in their pointers. -/
theorem Linked.adjacent (h : Linked prev next (xs ++ a :: b :: ys)) :
    next a = some b ∧ prev b = some a := by
  have hb : Linked prev next ((xs ++ [a]) ++ b :: ys) := by
    rwa [List.append_assoc, List.singleton_append]
  exact ⟨h.neighbours.2, by rw [hb.neighbours.1, List.getLast?_concat]⟩

/-! ## Edits -/

theorem getLast?_ne_of_mem_right (hnodup : (xs ++ ys).Nodup) (hb : b ∈ ys) :
    xs.getLast? ≠ some b := fun h =>
  (List.nodup_append.mp hnodup).2.2 b (List.mem_of_getLast? h) b hb rfl

theorem head?_ne_of_mem_left (hnodup : (xs ++ ys).Nodup) (hb : b ∈ xs) :
    ys.head? ≠ some b := fun h =>
  (List.nodup_append.mp hnodup).2.2 b hb b (List.mem_of_head? h) rfl

section

variable [DecidableEq α]

/-- Another cell behind the last. -/
theorem Segment.setNext : ∀ {xs : List α} {p : Option α}, Segment prev next p xs n →
    xs.Nodup → (∀ b ∈ xs, prev' b = prev b) →
    (∀ b ∈ xs, next' b = if xs.getLast? = some b then n' else next b) →
    Segment prev' next' p xs n'
  | [], _, _, _, _, _ => trivial
  | [a], p, ⟨hp, _, _⟩, _, hprev, hnext => by
    have ha := hnext a List.mem_cons_self
    rw [List.getLast?_singleton, if_pos rfl] at ha
    exact ⟨(hprev a List.mem_cons_self).trans hp, ha, trivial⟩
  | a :: b :: xs, p, ⟨hp, hn, hseg⟩, hnodup, hprev, hnext => by
    have hlast : (a :: b :: xs).getLast? = (b :: xs).getLast? := List.getLast?_cons_cons
    rw [hlast] at hnext
    have ha := hnext a List.mem_cons_self
    have hne : (b :: xs).getLast? ≠ some a := fun h =>
      (List.nodup_cons.mp hnodup).1 (List.mem_of_getLast? h)
    rw [if_neg hne, hn] at ha
    exact ⟨(hprev a List.mem_cons_self).trans hp, ha,
      hseg.setNext (List.nodup_cons.mp hnodup).2
        (fun c hc => hprev c (List.mem_cons_of_mem a hc))
        (fun c hc => hnext c (List.mem_cons_of_mem a hc))⟩

/-- Another cell before the first. -/
theorem Segment.setPrev (h : Segment prev next p ys n) (hnodup : ys.Nodup)
    (hnext : ∀ b ∈ ys, next' b = next b)
    (hprev : ∀ b ∈ ys, prev' b = if ys.head? = some b then p' else prev b) :
    Segment prev' next' p' ys n := by
  cases ys with
  | nil => trivial
  | cons a ys =>
    obtain ⟨-, hn, hseg⟩ := h
    have ha := hprev a List.mem_cons_self
    rw [List.head?_cons, if_pos rfl] at ha
    refine ⟨ha, (hnext a List.mem_cons_self).trans hn, hseg.congr fun b hb => ⟨?_, ?_⟩⟩
    · have hne : (a :: ys).head? ≠ some b := by
        rw [List.head?_cons]
        rintro ⟨⟩
        exact (List.nodup_cons.mp hnodup).1 hb
      rw [hprev b (List.mem_cons_of_mem a hb), if_neg hne]
    · exact hnext b (List.mem_cons_of_mem a hb)

/-- Both halves of a list whose seam is moved to other cells. -/
theorem Linked.reseam (h : Segment prev next none xs n ∧ Segment prev next p ys none)
    (hnodup : (xs ++ ys).Nodup)
    (hprev : ∀ b ∈ xs ++ ys, prev' b = if ys.head? = some b then p' else prev b)
    (hnext : ∀ b ∈ xs ++ ys, next' b = if xs.getLast? = some b then n' else next b) :
    Segment prev' next' none xs n' ∧ Segment prev' next' p' ys none := by
  have hxs := (List.nodup_append.mp hnodup).1
  have hys := (List.nodup_append.mp hnodup).2.1
  constructor
  · refine h.1.setNext hxs (fun b hb => ?_) (fun b hb => hnext b (List.mem_append_left ys hb))
    rw [hprev b (List.mem_append_left ys hb), if_neg (head?_ne_of_mem_left hnodup hb)]
  · refine h.2.setPrev hys (fun b hb => ?_) (fun b hb => hprev b (List.mem_append_right xs hb))
    rw [hnext b (List.mem_append_right xs hb), if_neg (getLast?_ne_of_mem_right hnodup hb)]

/-- A new cell `a`, and the pointers of its neighbours set to it. -/
theorem Linked.insert (h : Linked prev next (xs ++ ys)) (hnodup : (xs ++ ys).Nodup)
    (hprev : ∀ b ∈ xs ++ ys, prev' b = if ys.head? = some b then some a else prev b)
    (hnext : ∀ b ∈ xs ++ ys, next' b = if xs.getLast? = some b then some a else next b)
    (hprev_a : prev' a = xs.getLast?) (hnext_a : next' a = ys.head?) :
    Linked prev' next' (xs ++ a :: ys) := by
  obtain ⟨hxs, hys⟩ := Linked.reseam (segment_append.mp h) hnodup hprev hnext
  refine segment_append.mpr ⟨hxs, ?_, ?_, hys⟩
  · rw [hprev_a, Option.or_none]
  · rw [hnext_a, Option.or_none]

/-- A cell `a` taken out: its neighbours get each other. -/
theorem Linked.unlink (h : Linked prev next (xs ++ a :: ys)) (hnodup : (xs ++ a :: ys).Nodup)
    (hprev : ∀ b ∈ xs ++ ys, prev' b = if next a = some b then prev a else prev b)
    (hnext : ∀ b ∈ xs ++ ys, next' b = if prev a = some b then next a else next b) :
    Linked prev' next' (xs ++ ys) := by
  obtain ⟨hprev_a, hnext_a⟩ := h.neighbours
  obtain ⟨hxs, -, -, hys⟩ := segment_append.mp h
  have hsub : (xs ++ ys).Nodup :=
    hnodup.sublist (List.Sublist.append_left (List.sublist_cons_self a ys) xs)
  simp only [hprev_a, hnext_a] at hprev hnext
  have hseam := Linked.reseam ⟨hxs, hys⟩ hsub hprev hnext
  refine segment_append.mpr ⟨?_, ?_⟩
  · rw [Option.or_none]
    exact hseam.1
  · rw [Option.or_none]
    exact hseam.2

end

/-! ## Walks -/

/-- From a cell along `next` to the first one that `found` holds of; `none` when there is no
end to it within `fuel` cells. -/
def walk (next : α → Option α) (found : α → Bool) : ℕ → Option α → Option (Option α)
  | 0, _ => none
  | _ + 1, none => some none
  | fuel + 1, some a => if found a then some (some a) else walk next found fuel (next a)

/-- A walk over a whole list is a search of it. -/
theorem walk_eq_find? {found : α → Bool} : ∀ {fuel : ℕ} {l : List α} {p : Option α},
    Segment prev next p l none → l.length < fuel →
    walk next found fuel l.head? = some (l.find? found)
  | 0, _, _, _, hlt => absurd hlt (Nat.not_lt_zero _)
  | fuel + 1, [], _, _, _ => rfl
  | fuel + 1, a :: l, p, ⟨_, hn, hseg⟩, hlt => by
    rw [Option.or_none] at hn
    rw [List.head?_cons, walk, List.find?_cons]
    cases found a with
    | true => rfl
    | false =>
      rw [if_neg Bool.false_ne_true, hn]
      exact walk_eq_find? hseg (Nat.lt_of_succ_lt_succ hlt)

end DoublyLinked
