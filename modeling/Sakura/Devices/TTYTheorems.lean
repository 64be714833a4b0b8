import Mathlib.Data.List.Induction
import Mathlib.Tactic.Common
import Sakura.Devices.TTY

/-!
# The terminal and the edge of the screen

A run is any mix of characters written and cursor updates, as `write` and `ttyProcess` make
them. Nothing scrolls: a line feed on the last row moves the position below the screen, and the
check of `writeCharAt` is about the cell index, which the next character may still pass.
-/

namespace Sakura.Devices

namespace TTY

/-- The number of cells of the screen. -/
def screenSize : ℕ := 2000

/-- What the terminal does with its state: a character, or the cursor. -/
inductive Action where
  | writeChar (c : UInt8)
  | showCursor
deriving DecidableEq

def Action.exec (t : TTY) : Action → TTY
  | .writeChar c => t.writeChar c
  | .showCursor => t.showCursor

def run (t : TTY) (as : List Action) : TTY := as.foldl Action.exec t

theorem run_append (t : TTY) (as bs : List Action) : t.run (as ++ bs) = (t.run as).run bs :=
  List.foldl_append

/-- A text is its characters, one after the other. -/
theorem run_writeChars (t : TTY) (buffer : List UInt8) :
    t.run (buffer.map .writeChar) = buffer.foldl writeChar t := by
  rw [run, List.foldl_map]
  rfl

/-- `write` is its characters and the cursor. -/
theorem write_eq_run (t : TTY) (buffer : List UInt8) :
    t.write buffer = t.run (buffer.map .writeChar ++ [.showCursor]) := by
  rw [run_append, run_writeChars]
  rfl

/-- What `tty_process` does with a character. -/
theorem ttyProcess_eq_run (t : TTY) (c : UInt8) :
    t.ttyProcess c = t.run [.writeChar c, .showCursor] := rfl

/-- Every cell written to, the position and the cursor are on the screen. -/
structure OnScreen (t : TTY) : Prop where
  cells : ∀ i ∈ t.written, 0 ≤ i ∧ i < screenSize
  row : 0 ≤ t.row ∧ t.row < vgaHeight
  column : 0 ≤ t.column ∧ t.column < vgaWidth
  cursor : t.cursor < screenSize

/-! ## Positions -/

/-- A position on the screen. -/
def Visible (x y : Int32) : Prop := (0 ≤ x ∧ x < vgaWidth) ∧ 0 ≤ y ∧ y < vgaHeight

instance (x y : Int32) : Decidable (Visible x y) := inferInstanceAs (Decidable (_ ∧ _))

theorem Visible.toInt {x y : Int32} (h : Visible x y) :
    (0 ≤ x.toInt ∧ x.toInt < 80) ∧ 0 ≤ y.toInt ∧ y.toInt < 25 := by
  obtain ⟨⟨hx, hx'⟩, hy, hy'⟩ := h
  exact ⟨⟨Int32.le_iff_toInt_le.mp hx, Int32.lt_iff_toInt_lt.mp hx'⟩,
    Int32.le_iff_toInt_le.mp hy, Int32.lt_iff_toInt_lt.mp hy'⟩

/-- The cell of a position of the screen is counted without overflow. -/
theorem toInt_getBufferIndex {x y : Int32} (h : Visible x y) :
    (getBufferIndex x y).toInt = y.toInt * 80 + x.toInt := by
  obtain ⟨hx, hy⟩ := h.toInt
  have hwidth : vgaWidth.toInt = 80 := rfl
  rw [getBufferIndex, Int32.toInt_add, Int32.toInt_mul, hwidth]
  simp only [Int.bmod]
  omega

/-- A position on the screen has a cell of the screen. -/
theorem getBufferIndex_mem {x y : Int32} (h : Visible x y) :
    0 ≤ (getBufferIndex x y).toInt ∧ (getBufferIndex x y).toInt < screenSize := by
  obtain ⟨hx, hy⟩ := h.toInt
  rw [toInt_getBufferIndex h, screenSize]
  omega

theorem msb_of_nonneg {p : Int32} (h : 0 ≤ p.toInt) : p.toBitVec.msb = false := by
  have htoInt : p.toBitVec.toInt = p.toInt := rfl
  rw [BitVec.msb_eq_toInt, htoInt]
  exact decide_eq_false (by omega)

/-- An `int` that is not negative is the same number as a `size_t`. -/
theorem toNat_of_nonneg {p : Int32} (h : 0 ≤ p.toInt) : (p.toUInt32.toNat : ℤ) = p.toInt :=
  (BitVec.toInt_eq_toNat_of_msb (msb_of_nonneg h)).symm

/-- The byte that goes to the low register of the cursor. -/
theorem low_byte (p : Int32) :
    (p &&& 0xFF).toUInt32.toUInt8.toNat = p.toUInt32.toNat % 256 := by
  have hand : (p &&& 0xFF).toUInt32.toNat = p.toUInt32.toNat &&& (2 ^ 8 - 1) := rfl
  rw [UInt32.toNat_toUInt8, hand, Nat.and_two_pow_sub_one_eq_mod]
  omega

/-- The byte that goes to the high register of the cursor. -/
theorem high_byte {p : Int32} (h : 0 ≤ p.toInt) :
    (p >>> 8 &&& 0xFF).toUInt32.toUInt8.toNat = p.toUInt32.toNat / 256 % 256 := by
  have hand : (p >>> 8 &&& 0xFF).toUInt32.toNat = (p >>> 8).toUInt32.toNat &&& (2 ^ 8 - 1) := rfl
  have hshift : (p >>> 8).toUInt32.toNat = p.toUInt32.toNat >>> 8 := by
    show (p.toBitVec.sshiftRight 8).toNat = p.toBitVec.toNat >>> 8
    rw [BitVec.sshiftRight_eq_of_msb_false (msb_of_nonneg h), BitVec.toNat_ushiftRight]
  rw [UInt32.toNat_toUInt8, hand, hshift, Nat.and_two_pow_sub_one_eq_mod,
    Nat.shiftRight_eq_div_pow]
  omega

/-- The controller is told the cell of the position. -/
theorem cursor_updateCursor (t : TTY) {x y : Int32} (h : Visible x y) :
    ((t.updateCursor x y).cursor : ℤ) = (getBufferIndex x y).toInt := by
  obtain ⟨hnonneg, hlt⟩ := getBufferIndex_mem h
  have hlow := low_byte (getBufferIndex x y)
  have hhigh := high_byte hnonneg
  have hnat := toNat_of_nonneg hnonneg
  have hcursor : (t.updateCursor x y).cursor
      = (getBufferIndex x y >>> 8 &&& 0xFF).toUInt32.toUInt8.toNat * 256
        + (getBufferIndex x y &&& 0xFF).toUInt32.toUInt8.toNat := rfl
  rw [screenSize] at hlt
  rw [hcursor, hlow, hhigh]
  omega

/-! ## Painting -/

/-- `t'` is `t` with cells of the screen painted over. -/
structure Repaints (t t' : TTY) : Prop where
  row : t'.row = t.row
  column : t'.column = t.column
  registers : t'.registers = t.registers
  cells : ∀ i ∈ t'.written, i ∈ t.written ∨ 0 ≤ i ∧ i < screenSize

variable {t t' t'' : TTY}

theorem Repaints.refl (t : TTY) : Repaints t t :=
  ⟨rfl, rfl, rfl, fun _ hi => .inl hi⟩

theorem Repaints.trans (h : Repaints t t') (h' : Repaints t' t'') : Repaints t t'' where
  row := h'.row.trans h.row
  column := h'.column.trans h.column
  registers := h'.registers.trans h.registers
  cells i hi := (h'.cells i hi).elim (h.cells i) .inr

theorem repaints_store (t : TTY) {i : ℤ} (e : UInt16) (hi : 0 ≤ i ∧ i < screenSize) :
    Repaints t (t.store i e) := by
  refine ⟨rfl, rfl, rfl, ?_⟩
  intro j hj
  rcases List.mem_cons.mp hj with rfl | hj
  · exact .inr hi
  · exact .inl hj

/-- A loop that paints cells repaints the screen. -/
theorem repaints_foldl {f : TTY → ℕ → TTY} (l : List ℕ)
    (hf : ∀ t, ∀ x ∈ l, Repaints t (f t x)) : ∀ t, Repaints t (l.foldl f t) := by
  induction l with
  | nil => exact Repaints.refl
  | cons x l ih =>
    intro t
    have hrest := ih (fun t y hy => hf t y (List.mem_cons_of_mem x hy))
    exact (hf t x List.mem_cons_self).trans (hrest (f t x))

/-- `clear` paints all of the screen and no more. -/
theorem repaints_clear (t : TTY) : Repaints t t.clear := by
  rw [clear]
  refine repaints_foldl _ (fun t y hy => ?_) t
  refine repaints_foldl _ (fun t x hx => ?_) t
  apply repaints_store
  have hy' := List.mem_range.mp hy
  have hx' := List.mem_range.mp hx
  rw [screenSize]
  omega

/-! ## The terminal stays on the screen -/

theorem OnScreen.visible (h : OnScreen t) : Visible t.column t.row := ⟨h.column, h.row⟩

theorem OnScreen.repaints (h : OnScreen t) (hp : Repaints t t') : OnScreen t' where
  cells i hi := (hp.cells i hi).elim (h.cells i) id
  row := by rw [hp.row]; exact h.row
  column := by rw [hp.column]; exact h.column
  cursor := by rw [TTY.cursor, hp.registers]; exact h.cursor

/-- Another position on the screen. -/
theorem OnScreen.move (h : OnScreen t) {x y : Int32} (hv : Visible x y) :
    OnScreen { t with row := y, column := x } :=
  ⟨h.cells, hv.2, hv.1, h.cursor⟩

/-- The cursor that is shown is the position. -/
theorem OnScreen.showCursor (h : OnScreen t) : OnScreen t.showCursor := by
  refine ⟨h.cells, h.row, h.column, ?_⟩
  have hcursor := cursor_updateCursor t h.visible
  have hmem := getBufferIndex_mem h.visible
  rw [TTY.showCursor]
  omega

/-- A character at a position of the screen is painted on the screen. -/
theorem writeCharAt_visible (t : TTY) (c color : UInt8) {x y : Int32} (h : Visible x y) :
    Repaints t (t.writeCharAt c color x y) := by
  obtain ⟨hnonneg, hlt⟩ := getBufferIndex_mem h
  have hnat := toNat_of_nonneg hnonneg
  have hsize : (vgaWidth * vgaHeight).toUInt32.toNat = screenSize := rfl
  have hindex : ¬ (getBufferIndex x y).toUInt32 > (vgaWidth * vgaHeight).toUInt32 := by
    intro hgt
    have hgt' := UInt32.lt_iff_toNat_lt.mp hgt
    omega
  rw [writeCharAt, if_neg hindex]
  apply repaints_store
  omega

/-- Counting up stays below a bound that is not met. -/
theorem succ_lt {x n : Int32} (h : 0 ≤ x ∧ x < n) (hne : x + 1 ≠ n) : 0 ≤ x + 1 ∧ x + 1 < n := by
  grind

/-- After the last column comes the next row, after the last row the top. -/
theorem OnScreen.advance (h : OnScreen t) : OnScreen t.advance := by
  rw [TTY.advance]
  split
  · split
    · exact h.move (by decide)
    · next hrow => exact h.move ⟨by decide, succ_lt h.row hrow⟩
  · next hcolumn => exact h.move ⟨succ_lt h.column hcolumn, h.row⟩

theorem OnScreen.backspace (h : OnScreen t) : OnScreen t.backspace := by
  rw [TTY.backspace]
  split
  · next hpos =>
    have hv : Visible (t.column - 1) t.row := ⟨by have := h.column; grind, h.row⟩
    exact (h.repaints (repaints_store t _ (getBufferIndex_mem hv))).move hv
  · exact h

/-- A character keeps the position on the screen, a line feed except in the last row. -/
theorem OnScreen.writeChar (h : OnScreen t) {c : UInt8} (hc : IsNewline c → t.row ≠ 24) :
    OnScreen (t.writeChar c) := by
  rw [TTY.writeChar]
  split
  · next hnl =>
    have hrow := hc hnl
    exact h.move ⟨by decide, by have := h.row; grind [vgaHeight]⟩
  · split
    · exact h.backspace
    · exact (h.repaints (writeCharAt_visible t c t.color h.visible)).advance

/-- Where the cursor is set up from, nothing else changes. -/
theorem OnScreen.setCursor {x y : Int32} (hcells : ∀ i ∈ t.written, 0 ≤ i ∧ i < screenSize)
    (hx : t.column = x) (hy : t.row = y) (hv : Visible x y) :
    OnScreen ((t.enableCursor 0 0).updateCursor x y) := by
  refine ⟨hcells, hy ▸ hv.2, hx ▸ hv.1, ?_⟩
  have hcursor := cursor_updateCursor (t.enableCursor 0 0) hv
  have hmem := getBufferIndex_mem hv
  omega

/-- The terminal is opened at the top left. -/
theorem onScreen_ttyOpen (t : TTY) : OnScreen t.ttyOpen := by
  rw [ttyOpen]
  have hclear := repaints_clear
    { t with row := 0, column := 0, color := vgaEntryColor 7 0, written := [] }
  refine OnScreen.setCursor ?_ hclear.column hclear.row (by decide)
  intro i hi
  exact (hclear.cells i hi).resolve_left List.not_mem_nil

@[simp] theorem row_enableCursor (t : TTY) (a b : UInt8) : (t.enableCursor a b).row = t.row := rfl

@[simp] theorem row_updateCursor (t : TTY) (x y : Int32) : (t.updateCursor x y).row = t.row := rfl

theorem row_ttyOpen (t : TTY) : t.ttyOpen.row = 0 := by
  have hclear := repaints_clear
    { t with row := 0, column := 0, color := vgaEntryColor 7 0, written := [] }
  rw [ttyOpen, row_updateCursor, row_enableCursor, hclear.row]

/-- One action keeps the position on the screen, a line feed except in the last row. -/
theorem OnScreen.exec (h : OnScreen t) {a : Action}
    (ha : ∀ c, a = .writeChar c → IsNewline c → t.row ≠ 24) : OnScreen (a.exec t) := by
  cases a with
  | writeChar c => exact h.writeChar (ha c rfl)
  | showCursor => exact h.showCursor

/-- The terminal stays on the screen in exactly the runs that begin no new line on the last
row. -/
theorem stays_on_screen_iff (t : TTY) (as : List Action) :
    (∀ past, past <+: as → OnScreen (t.ttyOpen.run past)) ↔
      ∀ past c, past ++ [.writeChar c] <+: as → IsNewline c →
        (t.ttyOpen.run past).row ≠ 24 := by
  constructor
  · intro h past c hpre hc hrow
    have hafter := (h _ hpre).row
    have hnext : (t.ttyOpen.run (past ++ [.writeChar c])).row = (t.ttyOpen.run past).row + 1 := by
      rw [run_append]
      show ((t.ttyOpen.run past).writeChar c).row = _
      rw [writeChar, if_pos hc]
    rw [hnext, hrow] at hafter
    exact absurd hafter.2 (by decide)
  · intro h past
    induction past using List.reverseRecOn with
    | nil => intro _; exact onScreen_ttyOpen t
    | append_singleton past a ih =>
      intro hpre
      have hpast := ih ((List.prefix_append past [a]).trans hpre)
      rw [run_append]
      refine hpast.exec ?_
      rintro c rfl hc
      exact h past c hpre hc

/-- Line feeds count the row up without an end. -/
theorem row_newlines (t : TTY) (n : ℕ) :
    (t.run (List.replicate n (.writeChar 0x0A))).row = t.row + Int32.ofNat n := by
  induction n with
  | zero => simp [run]
  | succ n ih =>
    rw [List.replicate_succ', run_append]
    show ((t.run (List.replicate n (.writeChar 0x0A))).writeChar 0x0A).row = _
    rw [writeChar, if_pos (by decide)]
    show (t.run (List.replicate n (.writeChar 0x0A))).row + 1 = _
    rw [ih, Int32.ofNat_add]
    grind

/-- Twenty-five line feeds put the position below the screen. -/
theorem newlines_leave_screen : ¬ ∀ (t : TTY) (as past : List Action), past <+: as →
    OnScreen (t.ttyOpen.run past) := by
  intro h
  let t : TTY := ⟨0, 0, 0, fun _ => 0, fun _ => 0, []⟩
  have hrow := (h t _ _ (List.prefix_refl (List.replicate 25 (.writeChar 0x0A)))).row
  rw [row_newlines, row_ttyOpen] at hrow
  exact absurd hrow.2 (by decide)

end TTY

end Sakura.Devices
