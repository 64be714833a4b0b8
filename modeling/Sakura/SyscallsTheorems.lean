import Sakura.Syscalls
import Sakura.Libk.PrintfTheorems

/-!
# Writing

`SyscallWrite` passes the data to `printk` as its format and leaves the length alone, and both
`SyscallWrite` and the stub answer 0. So `write` is transparent only where there is nothing to
write (`write_transparent_iff`), although plain text that ends with a 0 does arrive
(`write_plain`).
-/

namespace Sakura.Syscalls

open I386 (Word)
open Libk (Byte chr)
open Libk.Printf

section

variable (env : Environment) (ptr len : Word)

theorem write_eq : write env 1 ptr len
    = (printk env (env.memory ptr.toNat) env.stack).map fun text => (0, text) := by
  have hopen : sysWrite ≠ sysOpen := by decide
  rw [write, syscall, interrupt128, handle, if_neg hopen, if_pos rfl, syscallWrite, if_pos rfl]
  simp only [Option.map_map]
  rfl

/-- Plain text that fits `printkBuffer` arrives. -/
theorem write_plain {text rest : List Byte} (hmem : env.memory ptr.toNat = text ++ 0 :: rest)
    (hplain : ∀ c ∈ text, Plain c) (hlen : text.length < printkBufferSize) :
    write env 1 ptr len = some (0, text) := by
  rw [write_eq, hmem, printk_plain env rest env.stack hplain hlen, Option.map_some]

/-- `write(1, ptr, len)` hands over the first `len` bytes of the buffer, and returns `len`. -/
def Transparent (buf : List Byte) : Prop := write env 1 ptr len = some (len, buf.take len.toNat)

/-- The buffer is whatever is mapped at `ptr`, up to `rest`. -/
theorem write_transparent_iff {buf rest : List Byte} (hmem : env.memory ptr.toNat = buf ++ rest)
    (hlen : len.toNat ≤ buf.length) :
    Transparent env ptr len buf ↔ len = 0 ∧ SilentText env (buf ++ rest) env.stack := by
  rw [Transparent, write_eq, Option.map_eq_some_iff, ← hmem, ← printk_eq_nil]
  constructor
  · rintro ⟨text, htext, heq⟩
    obtain ⟨rfl, rfl⟩ := Prod.mk.inj heq
    exact ⟨rfl, htext⟩
  · rintro ⟨rfl, htext⟩
    exact ⟨[], htext, rfl⟩

end

/-- Two percent signs at `0x1000`, and the end of the string. -/
def percentEnv : Environment where
  memory p := if 0x1000 ≤ p then [chr '%', chr '%', 0].drop (p - 0x1000) else []
  stack := []
  room := printkBufferSize
  floats := zeroFormat
  le_room := Nat.le_refl _
  room_lt := printkBufferSize_lt

/-- Nothing, written from the end of the string. -/
theorem write_transparent_nothing : Transparent percentEnv 0x1002 0 [] :=
  (write_transparent_iff percentEnv 0x1002 0 rfl (by decide)).mpr ⟨rfl, .nul⟩

/-- Two percent signs: one arrives, and the answer is 0. -/
theorem write_percent : write percentEnv 1 0x1000 2 = some (0, [chr '%']) ∧
    ¬ Transparent percentEnv 0x1000 2 [chr '%', chr '%'] := by
  have hwrite : write percentEnv 1 0x1000 2 = some (0, [chr '%']) := by
    have hdirective : directive [chr '%', 0] = some (⟨{}, .given 0, .given 0, chr '%'⟩, [0]) := by
      rfl
    have hmem : percentEnv.memory (0x1000 : Word).toNat = [chr '%', chr '%', 0] := rfl
    rw [write_eq, hmem, printk, vsnprintf_directive _ _ _ hdirective]
    have hrender : render percentEnv ⟨{}, .given 0, .given 0, chr '%'⟩ percentEnv.stack
        = some ([chr '%'], []) := rfl
    rw [hrender, Option.bind_some]
    simp only
    rw [vsnprintf_nul, Option.map_some, Option.bind_some]
    rfl
  refine ⟨hwrite, ?_⟩
  rw [Transparent, hwrite]
  intro h
  exact absurd (Prod.mk.inj (Option.some.inj h)).1 (by decide)

end Sakura.Syscalls
