import Mathlib.Data.List.Forall2
import Sakura.Devices.PageTheorems
import Sakura.Libk.PrintkTheorems
import Sakura.SyscallsTheorems

/-!
# What tasks write

Strings that are no formats and fit the buffer of `printk`, written to file 1 in one system call
after the other, stand on the screen one behind the other (`writes_shown`). Nothing comes between
the characters of one call: its interrupt gate keeps the other interrupts out.
-/

namespace Sakura.Syscalls

open I386 (Word)
open Libk (Byte chr)
open Libk.Printf (Environment Plain printkBufferSize bareEnv)
open Devices (TTY Page vgaEntry vgaHeight)
open Devices.TTY (Action chars screenSize newlines maxRow)

/-- A call `write(1, ptr, len)`, with the memory and the stack it is made with. -/
structure WriteCall where
  env : Environment
  ptr : Word
  len : Word

/-- The call, and what it does to the terminal. -/
def WriteCall.exec (t : TTY) (call : WriteCall) : Option TTY :=
  (write call.env 1 call.ptr call.len).map fun (_, text) => t.write (text.map UInt8.ofBitVec)

/-- At `ptr` is the string `text`. -/
structure Writes (call : WriteCall) (text : List Byte) : Prop where
  memory : ∃ rest, call.env.memory call.ptr.toNat = text ++ 0 :: rest
  plain : ∀ c ∈ text, Plain c
  printable : ∀ c ∈ text, Page.Printable (UInt8.ofBitVec c)
  length : text.length < printkBufferSize

/-- What the terminal does for a text. -/
def printing (text : List Byte) : List Action :=
  (text.map UInt8.ofBitVec).map .writeChar ++ [.showCursor]

theorem Writes.exec {call : WriteCall} {text : List Byte} (h : Writes call text) (t : TTY) :
    call.exec t = some (t.run (printing text)) := by
  obtain ⟨⟨rest, hmemory⟩, hplain, -, hlength⟩ := h
  rw [WriteCall.exec, write_plain _ _ _ hmemory hplain hlength, Option.map_some]
  exact congrArg some (TTY.write_eq_run t _)

theorem exec_writes {calls : List WriteCall} {texts : List (List Byte)}
    (h : List.Forall₂ Writes calls texts) :
    ∀ t : TTY, calls.foldlM WriteCall.exec t = some (t.run (texts.flatMap printing)) := by
  induction h with
  | nil =>
    intro t
    rfl
  | cons hcall _ ih =>
    intro t
    rw [List.foldlM_cons, hcall.exec, List.flatMap_cons, TTY.run_append]
    exact ih _

theorem printable_writes {calls : List WriteCall} {texts : List (List Byte)}
    (h : List.Forall₂ Writes calls texts) :
    ∀ c ∈ texts.flatten.map UInt8.ofBitVec, Page.Printable c := by
  induction h with
  | nil => exact List.forall_mem_nil _
  | cons hcall _ ih =>
    rw [List.flatten_cons, List.map_append]
    refine List.forall_mem_append.mpr ⟨?_, ih⟩
    rw [List.forall_mem_map]
    exact hcall.printable

theorem chars_printing (texts : List (List Byte)) :
    chars (texts.flatMap printing) = texts.flatten.map UInt8.ofBitVec := by
  induction texts with
  | nil => rfl
  | cons text texts ih =>
    have hone : chars (printing text) = text.map UInt8.ofBitVec := by
      rw [printing, chars, List.filterMap_append, ← chars, TTY.chars_map_writeChar]
      exact List.append_nil _
    rw [List.flatMap_cons, chars, List.filterMap_append, ← chars, ← chars, hone, ih,
      List.flatten_cons, List.map_append]

/-- The last thing a call does is to move the cursor. -/
theorem cursor_printing {texts : List (List Byte)} (hne : texts ≠ []) (t : TTY) :
    (t.run (texts.flatMap printing)).cursor = (t.run (texts.flatMap printing)).showCursor.cursor := by
  obtain ⟨before, last, rfl⟩ := (List.eq_nil_or_concat texts).resolve_left hne
  rw [List.concat_eq_append, List.flatMap_append, TTY.run_append, List.flatMap_singleton, printing,
    TTY.run_append]
  rfl

/-- What tasks write stands on the screen from the position on, call after call and character
after character, and nothing else changes. The cursor is behind it. -/
theorem writes_shown (t : TTY) (as : List Action) (calls : List WriteCall) (texts : List (List Byte))
    (hcalls : List.Forall₂ Writes calls texts) (hnewlines : newlines as + 25 ≤ maxRow)
    (hrow : (t.ttyOpen.run as).row < vgaHeight) (hlength : texts.flatten.length ≤ screenSize) :
    let u := t.ttyOpen.run as
    let q := (u.row.toInt * 80 + u.column.toInt).toNat
    ∃ v, calls.foldlM WriteCall.exec u = some v ∧
      (∀ i (hi : i < texts.flatten.length), v.buffer ((q + i) % screenSize : ℕ) =
        vgaEntry (UInt8.ofBitVec texts.flatten[i]) Page.color) ∧
      (∀ j < screenSize, (∀ i < texts.flatten.length, j ≠ (q + i) % screenSize) →
        v.buffer j = u.buffer j) ∧
      (calls ≠ [] → v.cursor = (q + texts.flatten.length) % screenSize) := by
  intro u q
  have hrun := TTY.text_run t as (texts.flatMap printing) hnewlines hrow
  simp only [chars_printing, List.length_map] at hrun
  obtain ⟨hcell, hother, hcursor⟩ := hrun (printable_writes hcalls) hlength
  refine ⟨_, exec_writes hcalls u, ?_, ?_, ?_⟩
  · intro i hi
    rw [← TTY.run_append, hcell i hi, List.getElem_map]
  · intro j hj hne
    rw [← TTY.run_append]
    exact hother j hj hne
  · intro hne
    have htexts : texts ≠ [] := by
      rintro rfl
      exact hne (List.forall₂_nil_right_iff.mp hcalls)
    rw [cursor_printing htexts, ← TTY.run_append, hcursor]

/-- A call on the string `s`. -/
def writeOf (s : String) : WriteCall := ⟨{ bareEnv with memory := fun _ => literal s }, 0x1000, 0⟩

theorem writes_hi : Writes (writeOf "Hi") [chr 'H', chr 'i'] := by
  refine ⟨⟨[], rfl⟩, ?_, ?_, by decide⟩
  · simp only [Plain]
    decide
  · simp only [Page.Printable]
    decide

/-- The same call twice, and the two texts. -/
theorem writes_shown_twice : ∃ v,
    [writeOf "Hi", writeOf "Hi"].foldlM WriteCall.exec (TTY.closed.ttyOpen.run []) = some v ∧
      v.buffer (3 : ℕ) = 0x0769 ∧ v.cursor = 4 := by
  have hposition := (TTY.shows_ttyOpen TTY.closed).position
  have hrow : (TTY.closed.ttyOpen.run []).row < vgaHeight := by
    have hzero : (TTY.closed.ttyOpen.run []).row = 0 := TTY.row_ttyOpen TTY.closed
    rw [hzero]
    decide
  obtain ⟨v, hrun, hcells, -, hcursor⟩ := writes_shown TTY.closed [] [writeOf "Hi", writeOf "Hi"]
    [[chr 'H', chr 'i'], [chr 'H', chr 'i']] (.cons writes_hi (.cons writes_hi .nil)) (by decide)
    hrow (by decide)
  have hstart : ((TTY.closed.ttyOpen.run []).row.toInt * 80 +
      (TTY.closed.ttyOpen.run []).column.toInt).toNat = 0 := congrArg Int.toNat hposition.symm
  have hcell := hcells 3 (by decide)
  have hend := hcursor (List.cons_ne_nil _ _)
  rw [hstart] at hcell hend
  exact ⟨v, hrun, hcell, hend⟩

end Sakura.Syscalls
