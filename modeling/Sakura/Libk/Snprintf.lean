import Mathlib.Data.List.Basic
import Sakura.Libk.LibkTheorems
import Sakura.Libk.PrintkTheorems

/-!
# Formatting into a buffer

`snprintf` and `sprintf` of `vsnprintf.c`; `vsnprintf` itself does what `snprintf` does. The text is
the one of `Printf.vsnprintf`, of a format and arguments that are not in the buffer.

What fits into the buffer is written there, and is a string (`snprintf_cut`).
-/

namespace Sakura.Libk.Printf

open I386 (Word)
open FlatMemory (index Within)

/-- `_out_buffer`. An index has 32 bits. -/
def outBuffer (buffer : Word) (maxlen : ℕ) (m : Memory) (w : Byte × ℕ) : Memory :=
  let idx := w.2 % 2 ^ 32
  if idx < maxlen then m.write buffer idx w.1 else m

/-- `snprintf`: the number it returns, and memory. -/
def snprintf (env : Environment) (m : Memory) (buffer count : Word) (format : List Byte)
    (args : List Word) : Option (Int32 × Memory) :=
  (vsnprintf env format args).map fun text =>
    let idx := text.length % 2 ^ 32
    let out := outBuffer buffer count.toNat
    let termination := (0, if idx < count.toNat then idx else (count - 1).toNat)
    -- `_out_null` writes nothing
    (Int32.ofNat text.length, if buffer = 0 then m else out (text.zipIdx.foldl out m) termination)

/-- `sprintf`. -/
def sprintf (env : Environment) (m : Memory) (buffer : Word) (format : List Byte)
    (args : List Word) : Option (Int32 × Memory) :=
  snprintf env m buffer (-1) format args

/-- `m'` is `m` but for the string of the characters `cs` at `buffer`. -/
structure Holds (m m' : Memory) (buffer : Word) (cs : List Byte) : Prop where
  chars : ∀ i (hi : i < cs.length), m'.read buffer i = cs[i]
  nul : m'.read buffer cs.length = 0
  other : ∀ a, ¬ Within buffer (cs.length + 1) a → m'.cell a = m.cell a

section

variable {m m' : Memory} {buffer : Word} {n : ℕ}

theorem Holds.isString {cs : List Byte} (h : Holds m m' buffer cs) (hcs : 0 ∉ cs) :
    Memory.IsString m' buffer cs.length := by
  refine ⟨h.nul, ?_⟩
  intro i hi hzero
  rw [h.chars i hi] at hzero
  exact hcs (hzero ▸ List.getElem_mem hi)

/-- The characters that fit. -/
theorem foldl_outBuffer (hn : n ≤ 2 ^ 32) (cs : List Byte) (hcs : cs.length ≤ 2 ^ 32) :
    (∀ i (hi : i < cs.length), i < n →
      (cs.zipIdx.foldl (outBuffer buffer n) m).read buffer i = cs[i]) ∧
    ∀ a, ¬ Within buffer (min cs.length n) a →
      (cs.zipIdx.foldl (outBuffer buffer n) m).cell a = m.cell a := by
  induction cs using List.reverseRecOn with
  | nil => exact ⟨fun i hi => absurd hi (Nat.not_lt_zero i), fun _ _ => rfl⟩
  | append_singleton cs c ih =>
    rw [List.length_append, List.length_singleton] at hcs
    obtain ⟨hchars, hother⟩ := ih (by omega)
    have hlast : (cs ++ [c]).zipIdx.foldl (outBuffer buffer n) m =
        outBuffer buffer n (cs.zipIdx.foldl (outBuffer buffer n) m) (c, cs.length) := by
      rw [List.zipIdx_append, List.foldl_append, List.zipIdx_singleton, Nat.zero_add]
      rfl
    have hidx : cs.length % 2 ^ 32 = cs.length := Nat.mod_eq_of_lt (by omega)
    rw [hlast, outBuffer]
    simp only [hidx]
    by_cases hroom : cs.length < n
    · rw [if_pos hroom]
      refine ⟨?_, ?_⟩
      · intro i hi hin
        rw [List.length_append, List.length_singleton] at hi
        by_cases heq : i = cs.length
        · subst heq
          rw [FlatMemory.read_write_self, List.getElem_concat_length rfl]
        · have hne : index buffer i ≠ index buffer cs.length := by
            rw [ne_eq, FlatMemory.index_inj buffer (by omega) (by omega)]
            exact heq
          rw [List.getElem_append_left (by omega), ← hchars i (by omega) hin]
          exact FlatMemory.cell_write_of_ne hne
      · intro a ha
        rw [List.length_append, List.length_singleton] at ha
        have hne : a ≠ index buffer cs.length := fun h => ha ⟨cs.length, by omega, h⟩
        rw [FlatMemory.cell_write_of_ne hne]
        exact hother a fun ⟨i, hi, h⟩ => ha ⟨i, by omega, h⟩
    · -- the character is dropped
      rw [if_neg hroom]
      refine ⟨?_, ?_⟩
      · intro i hi hin
        rw [List.getElem_append_left (by omega)]
        exact hchars i (by omega) hin
      · intro a ha
        rw [List.length_append, List.length_singleton] at ha
        exact hother a fun ⟨i, hi, h⟩ => ha ⟨i, by omega, h⟩

/-- What fits into `count` bytes with a 0 behind it. -/
theorem holds_cut {text : List Byte} {count : ℕ} (hlen : text.length < 2 ^ 32) (hpos : 0 < count)
    (hcount : count < 2 ^ 32) : Holds m
      (outBuffer buffer count (text.zipIdx.foldl (outBuffer buffer count) m)
        (0, if text.length < count then text.length else count - 1))
      buffer (text.take (count - 1)) := by
  obtain ⟨hchars, hother⟩ := @foldl_outBuffer m buffer count (by omega) text (by omega)
  have hlast : (if text.length < count then text.length else count - 1) =
      (text.take (count - 1)).length := by
    rw [List.length_take]
    split_ifs <;> omega
  have hle : (text.take (count - 1)).length ≤ count - 1 := List.length_take_le _ _
  have hidx : (text.take (count - 1)).length % 2 ^ 32 = (text.take (count - 1)).length :=
    Nat.mod_eq_of_lt (by omega)
  rw [hlast, outBuffer]
  simp only [hidx]
  rw [if_pos (by omega)]
  refine ⟨?_, FlatMemory.read_write_self, ?_⟩
  · intro i hi
    have hne : index buffer i ≠ index buffer (text.take (count - 1)).length := by
      rw [ne_eq, FlatMemory.index_inj buffer (by omega) (by omega)]
      exact Nat.ne_of_lt hi
    have htext : i < text.length := Nat.lt_of_lt_of_le hi (List.length_take_le' _ _)
    rw [List.getElem_take, ← hchars i htext (by omega)]
    exact FlatMemory.cell_write_of_ne hne
  · intro a ha
    rw [FlatMemory.cell_write_of_ne fun h => ha ⟨_, Nat.lt_succ_self _, h⟩]
    apply hother
    rintro ⟨i, hi, rfl⟩
    refine ha ⟨i, ?_, rfl⟩
    rw [List.length_take]
    omega

end

/-- `snprintf` returns the length of the whole text, and leaves what fits of it as a string in the
buffer. It writes to no other byte, and to none at all if the buffer has none or is null. -/
theorem snprintf_cut (env : Environment) (m : Memory) (buffer count : Word) (format : List Byte)
    (args : List Word) (text : List Byte) (htext : vsnprintf env format args = some text)
    (hlen : text.length < 2 ^ 32) :
    ∃ m', snprintf env m buffer count format args = some (Int32.ofNat text.length, m') ∧
      (buffer = 0 ∨ count = 0 → m' = m) ∧
      (buffer ≠ 0 → count ≠ 0 → Holds m m' buffer (text.take (count.toNat - 1)) ∧
        (0 ∉ text → m'.strlen buffer = some (min (count.toNat - 1) text.length))) := by
  refine ⟨_, by rw [snprintf, htext]; rfl, ?_, ?_⟩
  · rintro (rfl | rfl)
    · exact if_pos rfl
    · have hnone : ∀ w, outBuffer buffer (0 : Word).toNat m w = m := by
        intro w
        rw [outBuffer]
        exact if_neg (Nat.not_lt_zero _)
      rw [List.foldl_fixed' hnone, hnone, ite_self]
  · intro hbuffer hcount
    have hpos : 0 < count.toNat := Nat.pos_of_ne_zero fun h => hcount (BitVec.eq_of_toNat_eq h)
    have hone : (count - 1).toNat = count.toNat - 1 := by bv_omega
    rw [if_neg hbuffer, Nat.mod_eq_of_lt hlen, hone]
    have hholds := @holds_cut m buffer text count.toNat hlen hpos count.isLt
    refine ⟨hholds, fun hzero => ?_⟩
    have hstring := hholds.isString fun h => hzero (List.mem_of_mem_take h)
    rw [List.length_take] at hstring
    exact Memory.strlen_eq_some.mpr hstring

/-- Three characters, and room for one. -/
theorem snprintf_cut_one : ∃ m', snprintf bareEnv ⟨fun _ => 0xFF⟩ 0x1000 2
    [chr 'a', chr 'b', chr 'c', 0] [] = some (3, m') ∧ m'.read 0x1000 0 = chr 'a' ∧
      m'.strlen 0x1000 = some 1 ∧ m'.cell 0x1002 = 0xFF := by
  have htext : vsnprintf bareEnv [chr 'a', chr 'b', chr 'c', 0] [] =
      some [chr 'a', chr 'b', chr 'c'] :=
    vsnprintf_plain bareEnv [] [] [chr 'a', chr 'b', chr 'c'] (by simp only [Plain]; decide)
  obtain ⟨m', hrun, -, hcut⟩ := snprintf_cut bareEnv ⟨fun _ => 0xFF⟩ 0x1000 2 _ [] _ htext
    (by decide)
  obtain ⟨hholds, hlength⟩ := hcut (by decide) (by decide)
  refine ⟨m', hrun, hholds.chars 0 (by decide), hlength (by decide), hholds.other _ ?_⟩
  rw [FlatMemory.within_iff (by decide)]
  decide

end Sakura.Libk.Printf
