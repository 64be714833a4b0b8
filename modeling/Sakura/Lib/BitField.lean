import Mathlib.Tactic.Common
import Mathlib.Tactic.Ring
import Mathlib.Algebra.Order.Group.Nat

/-!
# Bit fields of a machine word

A C bit-field struct laid over an unsigned word: field `(lo, len)` is the `len` bits that
start at bit `lo`. Reading is a shift and a mask, assigning replaces exactly those bits.
Words are naturals, so that `get` and `put` are ordinary arithmetic.

* `get_put_self`: a field reads back what was assigned, cut to its width;
* `get_put_above`, `get_put_below`: assigning one field leaves the others alone;
* `put_get_self`: assigning the value a field already holds changes nothing.
-/

namespace BitField

/-- The field of `len` bits that starts at bit `lo` of `w`. -/
def get (lo len w : ℕ) : ℕ := w / 2 ^ lo % 2 ^ len

/-- `w` with its field `(lo, len)` assigned `v`. -/
def put (lo len v w : ℕ) : ℕ := w / 2 ^ (lo + len) * 2 ^ (lo + len) + v % 2 ^ len * 2 ^ lo + w % 2 ^ lo

/-- The bits of a word above, inside and below a field. -/
theorem decompose (lo len w : ℕ) :
    w = w / 2 ^ (lo + len) * 2 ^ (lo + len) + get lo len w * 2 ^ lo + w % 2 ^ lo := by
  have hlow := Nat.div_add_mod' w (2 ^ lo)
  have hmid := Nat.div_add_mod' (w / 2 ^ lo) (2 ^ len)
  rw [Nat.div_div_eq_div_mul, ← pow_add] at hmid
  calc w = w / 2 ^ lo * 2 ^ lo + w % 2 ^ lo := hlow.symm
    _ = (w / 2 ^ (lo + len) * 2 ^ len + get lo len w) * 2 ^ lo + w % 2 ^ lo := by
        rw [get, hmid]
    _ = w / 2 ^ (lo + len) * 2 ^ (lo + len) + get lo len w * 2 ^ lo + w % 2 ^ lo := by
        rw [pow_add]; ring

/-- Assigning a field the value it already holds changes nothing. -/
theorem put_get_self (lo len w : ℕ) : put lo len (get lo len w) w = w := by
  conv_rhs => rw [decompose lo len w]
  rw [put, get, Nat.mod_mod]

/-- The part of an assigned word from bit `lo` up. -/
theorem put_div (lo len v w : ℕ) :
    put lo len v w / 2 ^ lo = w / 2 ^ (lo + len) * 2 ^ len + v % 2 ^ len := by
  have hlt : w % 2 ^ lo < 2 ^ lo := Nat.mod_lt _ (Nat.two_pow_pos lo)
  have hput : put lo len v w
      = w % 2 ^ lo + (w / 2 ^ (lo + len) * 2 ^ len + v % 2 ^ len) * 2 ^ lo := by
    rw [put, pow_add]; ring
  rw [hput, Nat.add_mul_div_right _ _ (Nat.two_pow_pos lo), Nat.div_eq_of_lt hlt, Nat.zero_add]

/-- A field reads back the value assigned to it. -/
theorem get_put_self (lo len v w : ℕ) : get lo len (put lo len v w) = v % 2 ^ len := by
  rw [get, put_div, Nat.mul_add_mod', Nat.mod_mod]

/-- Assigning a field leaves the fields above it alone. -/
theorem get_put_above {lo len lo' len' : ℕ} (v w : ℕ) (h : lo + len ≤ lo') :
    get lo' len' (put lo len v w) = get lo' len' w := by
  obtain ⟨k, rfl⟩ := Nat.exists_eq_add_of_le h
  have hdiv : put lo len v w / 2 ^ (lo + len) = w / 2 ^ (lo + len) := by
    rw [pow_add, ← Nat.div_div_eq_div_mul, put_div, Nat.add_comm,
      Nat.add_mul_div_right _ _ (Nat.two_pow_pos len),
      Nat.div_eq_of_lt (Nat.mod_lt _ (Nat.two_pow_pos len)), Nat.zero_add, ← pow_add]
  rw [get, get, pow_add, ← Nat.div_div_eq_div_mul, ← Nat.div_div_eq_div_mul, hdiv]

/-- Assigning a field leaves the fields below it alone. -/
theorem get_put_below {lo len lo' len' : ℕ} (v w : ℕ) (h : lo' + len' ≤ lo) :
    get lo' len' (put lo len v w) = get lo' len' w := by
  have hmod : put lo len v w % 2 ^ lo = w % 2 ^ lo := by
    have hput : put lo len v w
        = w % 2 ^ lo + (w / 2 ^ (lo + len) * 2 ^ len + v % 2 ^ len) * 2 ^ lo := by
      rw [put, pow_add]; ring
    rw [hput, Nat.add_mul_mod_self_right, Nat.mod_mod]
  -- a field below bit `lo` only sees the word modulo `2 ^ lo`
  have hsee : ∀ x : ℕ, get lo' len' x = get lo' len' (x % 2 ^ lo) := by
    intro x
    obtain ⟨k, rfl⟩ := Nat.exists_eq_add_of_le h
    rw [get, get, pow_add, pow_add, mul_assoc, Nat.mod_mul_right_div_self,
      Nat.mod_mul_right_mod]
  rw [hsee (put lo len v w), hmod, ← hsee w]

end BitField
