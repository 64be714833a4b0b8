import Mathlib.Data.List.Induction
import Mathlib.Tactic.Common

/-!
# Reading numerals

A numeral is a list of digits, the first the most significant. `value` says what digit a character
stands for, and a character that stands for none, or for one that the base does not have, ends the
reading with `none`.
-/

namespace Numeral

variable {α : Type*} (value : α → Option ℕ) (base : ℕ)

/-- The value of a numeral that `acc` has been read of. -/
def read : ℕ → List α → Option ℕ
  | acc, [] => some acc
  | acc, c :: cs => (value c).bind fun d => if d < base then read (acc * base + d) cs else none

variable {value base}

theorem read_append (acc : ℕ) (xs ys : List α) :
    read value base acc (xs ++ ys) = (read value base acc xs).bind fun n => read value base n ys := by
  induction xs generalizing acc with
  | nil => rfl
  | cons c xs ih =>
    rw [List.cons_append, read, read]
    cases value c with
    | none => rfl
    | some d =>
      rw [Option.bind_some, Option.bind_some]
      split_ifs
      · exact ih _
      · rfl

theorem read_concat {c : α} {d : ℕ} (hc : value c = some d) (hd : d < base) (acc : ℕ) (xs : List α) :
    read value base acc (xs ++ [c]) = (read value base acc xs).map fun n => n * base + d := by
  rw [read_append]
  cases read value base acc xs with
  | none => rfl
  | some n => rw [Option.bind_some, Option.map_some, read, hc, Option.bind_some, if_pos hd, read]

/-- Zeros in front change nothing. -/
theorem read_zeros {z : α} (hz : value z = some 0) (hbase : 0 < base) (n : ℕ) (cs : List α) :
    read value base 0 (List.replicate n z ++ cs) = read value base 0 cs := by
  induction n with
  | zero => rw [List.replicate_zero, List.nil_append]
  | succ n ih =>
    rw [List.replicate_succ, List.cons_append, read, hz, Option.bind_some, if_pos hbase, Nat.zero_mul,
      ih]

end Numeral
