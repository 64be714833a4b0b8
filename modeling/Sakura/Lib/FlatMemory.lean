import Mathlib.Algebra.Group.Nat.Defs
import Mathlib.Logic.Function.Basic
import Mathlib.Tactic.Common

/-!
# Flat memory

Memory as C sees it: a cell for every `w`-bit address, and `p[i]` for the cell `i` places from
`p`. Addresses wrap at the end of the address space.

Copying loops are specified by `CopiedOn`, the indices that are done: each holds what its source
held at the start, and no other cell has changed. `CopiedOn.step` is the rule for one more index,
in whatever order a loop takes them: its source must not have been written over.
-/

/-- A cell of type `β` at every `w`-bit address. -/
structure FlatMemory (w : ℕ) (β : Type*) where
  cell : BitVec w → β

namespace FlatMemory

variable {w : ℕ} {β : Type*}

/-- `&p[i]`. -/
def index (p : BitVec w) (i : ℕ) : BitVec w := p + BitVec.ofNat w i

/-- `p[i]`. -/
def read (m : FlatMemory w β) (p : BitVec w) (i : ℕ) : β := m.cell (index p i)

/-- `p[i] = b`. -/
def write (m : FlatMemory w β) (p : BitVec w) (i : ℕ) (b : β) : FlatMemory w β :=
  { cell := Function.update m.cell (index p i) b }

/-- One of the `n` cells from `p` on. -/
def Within (p : BitVec w) (n : ℕ) (a : BitVec w) : Prop := ∃ i < n, a = index p i

/-! ## Addresses -/

theorem toNat_index {p : BitVec w} {i : ℕ} (h : p.toNat + i < 2 ^ w) :
    (index p i).toNat = p.toNat + i := by
  have hi : i < 2 ^ w := by omega
  rw [index, BitVec.toNat_add, BitVec.toNat_ofNat, Nat.mod_eq_of_lt hi, Nat.mod_eq_of_lt h]

/-- The cells of a range no longer than memory are different ones. -/
theorem index_inj (p : BitVec w) {i j : ℕ} (hi : i < 2 ^ w) (hj : j < 2 ^ w) :
    index p i = index p j ↔ i = j := by
  constructor
  · intro h
    rw [index, index, BitVec.add_right_inj] at h
    have hnat := congrArg BitVec.toNat h
    rwa [BitVec.toNat_ofNat, BitVec.toNat_ofNat, Nat.mod_eq_of_lt hi, Nat.mod_eq_of_lt hj] at hnat
  · intro h
    rw [h]

/-- Going once round memory leads back. -/
theorem index_mod (p : BitVec w) (i : ℕ) : index p (i % 2 ^ w) = index p i := by
  rw [index, index]
  congr 1
  apply BitVec.eq_of_toNat_eq
  rw [BitVec.toNat_ofNat, BitVec.toNat_ofNat, Nat.mod_mod]

/-- A range that does not wrap is an interval. -/
theorem within_iff {p a : BitVec w} {n : ℕ} (h : p.toNat + n ≤ 2 ^ w) :
    Within p n a ↔ p.toNat ≤ a.toNat ∧ a.toNat < p.toNat + n := by
  constructor
  · rintro ⟨i, hi, rfl⟩
    rw [toNat_index (by omega)]
    omega
  · rintro ⟨hle, hlt⟩
    refine ⟨a.toNat - p.toNat, by omega, ?_⟩
    apply BitVec.eq_of_toNat_eq
    rw [toNat_index (by omega)]
    omega

/-! ## Cells -/

section

variable {m m' : FlatMemory w β} {p : BitVec w} {i : ℕ} {b : β}

@[simp] theorem cell_write_self : (m.write p i b).cell (index p i) = b :=
  Function.update_self _ _ _

theorem cell_write_of_ne {a : BitVec w} (h : a ≠ index p i) : (m.write p i b).cell a = m.cell a :=
  Function.update_of_ne h _ _

@[simp] theorem read_write_self : (m.write p i b).read p i = b := cell_write_self

theorem read_mod (m : FlatMemory w β) (p : BitVec w) (i : ℕ) : m.read p (i % 2 ^ w) = m.read p i := by
  rw [read, read, index_mod]

end

/-! ## Copying -/

/-- The elements of `src` whose index is `done` have been copied to `dst`, from memory `m`. -/
structure CopiedOn (m m' : FlatMemory w β) (dst src : BitVec w) (done : ℕ → Prop) : Prop where
  copied : ∀ i, done i → m'.read dst i = m.read src i
  other : ∀ a, (∀ i, done i → a ≠ index dst i) → m'.cell a = m.cell a

section

variable {m m' : FlatMemory w β} {dst src : BitVec w} {done : ℕ → Prop}

theorem CopiedOn.refl (m : FlatMemory w β) (dst src : BitVec w) (h : ∀ i, ¬ done i) :
    CopiedOn m m dst src done :=
  ⟨fun i hi => absurd hi (h i), fun _ _ => rfl⟩

theorem CopiedOn.congr {done' : ℕ → Prop} (h : CopiedOn m m' dst src done)
    (hdone : ∀ i, done i ↔ done' i) : CopiedOn m m' dst src done' :=
  ⟨fun i hi => h.copied i ((hdone i).mpr hi),
    fun a ha => h.other a fun i hi => ha i ((hdone i).mp hi)⟩

/-- What has not been written over is still there to be read. -/
theorem CopiedOn.read_src (h : CopiedOn m m' dst src done) {i : ℕ}
    (hunwritten : ∀ j, done j → index src i ≠ index dst j) : m'.read src i = m.read src i :=
  h.other _ hunwritten

/-- One element more. -/
theorem CopiedOn.step (h : CopiedOn m m' dst src done) {i : ℕ}
    (hunwritten : ∀ j, done j → index src i ≠ index dst j)
    (hnew : ∀ j, done j → index dst j ≠ index dst i) :
    CopiedOn m (m'.write dst i (m'.read src i)) dst src fun j => done j ∨ j = i := by
  refine ⟨?_, ?_⟩
  · rintro j (hj | rfl)
    · rw [read, cell_write_of_ne (hnew j hj)]
      exact h.copied j hj
    · rw [read_write_self]
      exact h.read_src hunwritten
  · intro a ha
    rw [cell_write_of_ne (ha i (Or.inr rfl))]
    exact h.other a fun j hj => ha j (Or.inl hj)

end

end FlatMemory
