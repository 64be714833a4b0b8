import Mathlib.Data.List.Perm.Basic
import Sakura.Lib.Run

/-!
# Functions to call at the end

A list of functions with their arguments, of which the newest is called first. There are `cap`
places in it, and none is used twice. A function can be called before the end, with each of its
arguments, and is then gone; at the end all that are left are called, and stay. No function is
`none`, which takes a place all the same.

What is registered is called once by name, or is still there at the end (`registered_eq`).
-/

/-- The functions that are left, newest first, and the places that have been used. -/
structure ExitList (κ α : Type*) where
  live : List (κ × α)
  used : ℕ

namespace ExitList

variable {κ α : Type*} [DecidableEq κ]

inductive Op (κ α : Type*) where
  | register (f : Option κ) (a : α)
  /-- Call one function, or all. -/
  | finalize (f : Option κ)

inductive Answer (κ α : Type*) where
  | registered (ok : Bool)
  | called (calls : List (κ × α))
deriving DecidableEq

def step (cap : ℕ) (s : ExitList κ α) : Op κ α → Answer κ α × ExitList κ α
  | .register f a =>
    if s.used < cap then (.registered true, ⟨f.toList.map (·, a) ++ s.live, s.used + 1⟩)
    else (.registered false, s)
  | .finalize none => (.called s.live, s)
  | .finalize (some f) =>
    (.called (s.live.filter fun x => x.1 = f), { s with live := s.live.filter fun x => x.1 ≠ f })

variable [DecidableEq α] (x : κ × α)

/-- How often a request registers `x`. -/
def registers : Op κ α × Answer κ α → ℕ
  | (.register f a, .registered true) => (f.toList.map (·, a)).count x
  | _ => 0

/-- How often `x` is called by name. -/
def calls : Op κ α × Answer κ α → ℕ
  | (.finalize (some _), .called l) => l.count x
  | _ => 0

/-- The sum over a run. -/
def total (f : Op κ α × Answer κ α → ℕ) (ops : List (Op κ α)) (as : List (Answer κ α)) : ℕ :=
  (ops.zip as).foldr (fun x n => f x + n) 0

theorem step_eq (cap : ℕ) (s : ExitList κ α) (op : Op κ α) :
    s.live.count x + registers x (op, (s.step cap op).1) =
      (s.step cap op).2.live.count x + calls x (op, (s.step cap op).1) := by
  cases op with
  | register f a =>
    rw [step]
    split_ifs
    · simp only [registers, calls, List.count_append]
      omega
    · rfl
  | finalize f =>
    cases f with
    | none => rfl
    | some f =>
      have hsplit := (List.filter_append_perm (fun y => decide (y.1 = f)) s.live).count_eq x
      rw [List.count_append] at hsplit
      simp only [step, registers, calls, decide_not]
      omega

theorem registered_eq (cap : ℕ) (ops : List (Op κ α)) : ∀ s : ExitList κ α,
    s.live.count x + total (registers x) ops (Run.answers (step cap) s ops).1 =
      (Run.answers (step cap) s ops).2.live.count x +
        total (calls x) ops (Run.answers (step cap) s ops).1 := by
  induction ops with
  | nil =>
    intro s
    rfl
  | cons op ops ih =>
    intro s
    have hone := step_eq x cap s op
    have hrest := ih (s.step cap op).2
    simp only [Run.answers, total, List.zip_cons_cons, List.foldr_cons] at hrest ⊢
    omega

end ExitList
