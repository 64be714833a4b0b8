import Mathlib.Tactic.Common
import Mathlib.Logic.Function.Basic

/-!
# Bitmaps over bytes

A bitmap is an array of bytes in which bit `n % 8` of byte `n / 8` stands for item `n`.
The three operations are the usual C idioms (`& (1 << k)`, `|= (1 << k)`,
`&= ~(1 << k)`); `isSet_set` and `isSet_clear` are all that a client needs, since they
say that distinct items never share a bit.
-/

/-- A byte array. -/
structure Bitmap where
  byte : ℕ → BitVec 8

namespace Bitmap

/-- The mask of item `n` in its byte, `1 << (n % 8)`. -/
def mask (n : ℕ) : BitVec 8 := 1#8 <<< (n % 8)

/-- Whether the bit of item `n` is set. -/
def isSet (b : Bitmap) (n : ℕ) : Bool := b.byte (n / 8) &&& mask n != 0#8

/-- Set the bit of item `n`. -/
def set (b : Bitmap) (n : ℕ) : Bitmap :=
  { byte := Function.update b.byte (n / 8) (b.byte (n / 8) ||| mask n) }

/-- Clear the bit of item `n`. -/
def clear (b : Bitmap) (n : ℕ) : Bitmap :=
  { byte := Function.update b.byte (n / 8) (b.byte (n / 8) &&& ~~~mask n) }

theorem mask_getLsbD (n i : ℕ) : (mask n).getLsbD i = decide (i = n % 8) := by
  have hn : n % 8 < 8 := Nat.mod_lt _ (by omega)
  simp only [mask, BitVec.getLsbD_shiftLeft, BitVec.getLsbD_one]
  by_cases h : i = n % 8
  · simp [h, hn]
  · simp only [h, decide_false, Bool.and_eq_false_iff, decide_eq_false_iff_not,
      Bool.not_eq_false', decide_eq_true_eq]
    omega

/-- Testing with a one-bit mask reads that bit. -/
theorem and_mask_ne_zero (x : BitVec 8) (n : ℕ) :
    (x &&& mask n != 0#8) = x.getLsbD (n % 8) := by
  have hn : n % 8 < 8 := Nat.mod_lt _ (by omega)
  rw [Bool.eq_iff_iff, bne_iff_ne, ne_eq]
  constructor
  · intro h
    by_contra hx
    apply h
    apply BitVec.eq_of_getLsbD_eq
    intro i hi
    rw [BitVec.getLsbD_and, mask_getLsbD n i, BitVec.getLsbD_zero]
    by_cases he : i = n % 8
    · simpa [he] using hx
    · simp [he]
  · intro hx h
    have hbit := congrArg (fun y : BitVec 8 => y.getLsbD (n % 8)) h
    simp [BitVec.getLsbD_and, mask_getLsbD n, hx] at hbit

theorem isSet_eq (b : Bitmap) (n : ℕ) : b.isSet n = (b.byte (n / 8)).getLsbD (n % 8) :=
  and_mask_ne_zero _ _

/-- Setting item `k` adds exactly item `k`. -/
theorem isSet_set (b : Bitmap) (k n : ℕ) :
    (b.set k).isSet n = (decide (n = k) || b.isSet n) := by
  have hn : n % 8 < 8 := Nat.mod_lt _ (by omega)
  simp only [isSet_eq, set]
  by_cases hbyte : n / 8 = k / 8
  · rw [hbyte, Function.update_self, BitVec.getLsbD_or, mask_getLsbD k, Bool.or_comm]
    have hbit : n % 8 = k % 8 ↔ n = k := by omega
    simp only [hbit]
  · rw [Function.update_of_ne hbyte]
    have hne : n ≠ k := by
      intro h
      exact hbyte (h ▸ rfl)
    simp [hne]

/-- Clearing item `k` removes exactly item `k`. -/
theorem isSet_clear (b : Bitmap) (k n : ℕ) :
    (b.clear k).isSet n = (!decide (n = k) && b.isSet n) := by
  have hn : n % 8 < 8 := Nat.mod_lt _ (by omega)
  simp only [isSet_eq, clear]
  by_cases hbyte : n / 8 = k / 8
  · rw [hbyte, Function.update_self, BitVec.getLsbD_and, BitVec.getLsbD_not,
      mask_getLsbD k]
    have hbit : n % 8 = k % 8 ↔ n = k := by omega
    simp only [hbit, hn, decide_true, Bool.true_and, Bool.and_comm]
  · rw [Function.update_of_ne hbyte]
    have hne : n ≠ k := by
      intro h
      exact hbyte (h ▸ rfl)
    simp [hne]

/-- A bitmap is known by its bits. -/
theorem ext_isSet {b c : Bitmap} (h : ∀ n, b.isSet n = c.isSet n) : b = c := by
  have hbyte : b.byte = c.byte := by
    apply funext
    intro i
    apply BitVec.eq_of_getLsbD_eq
    intro j hj
    have hbit := h (8 * i + j)
    rwa [isSet_eq, isSet_eq, show (8 * i + j) / 8 = i by omega,
      show (8 * i + j) % 8 = j by omega] at hbit
  cases b
  cases c
  exact congrArg mk hbyte

end Bitmap
