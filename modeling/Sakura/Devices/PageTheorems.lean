import Mathlib.Algebra.Group.Nat.Defs
import Sakura.Devices.TTYTheorems

/-!
# What the terminal shows

The terminal as a page of cells with one position, and that `TTY` shows this page in every run
(`page_shown`): rows, columns and the index of a cell are the one position, as long as the line
feeds do not overflow it. Nothing scrolls: behind the last cell the position goes back to the
first, and below the page a new one is begun, but for the cell just behind the page. So a text
stands where it was written, as it was written (`text_shown`).
-/

namespace Sakura.Devices

open TTY (screenSize Action IsNewline)

/-- A page of text, cell by cell, and the next cell. -/
structure Page where
  cell : ℕ → UInt16
  position : ℕ

namespace Page

/-- The colour of the terminal. -/
def color : UInt8 := vgaEntryColor 7 0

def empty : Page := ⟨fun _ => vgaEntry 0x20 color, 0⟩

def newline (p : Page) : Page := { p with position := (p.position / 80 + 1) * 80 }

/-- Back by one in the row. -/
def backspace (p : Page) : Page :=
  if p.position % 80 = 0 then p
  else ⟨Function.update p.cell (p.position - 1) 0x20, p.position - 1⟩

/-- A new page, below the old one. -/
def turn (p : Page) : Page := if screenSize < p.position then empty else p

def print (p : Page) (entry : UInt16) : Page :=
  ⟨Function.update p.cell p.position entry,
    if p.position + 1 = screenSize then 0 else p.position + 1⟩

def writeChar (p : Page) (c : UInt8) : Page :=
  if IsNewline c then p.newline
  else if c = 0x08 then p.backspace
  else p.turn.print (vgaEntry c color)

def exec (p : Page) : Action → Page
  | .writeChar c => p.writeChar c
  | .showCursor => p

def run (p : Page) (as : List Action) : Page := as.foldl exec p

theorem run_append (p : Page) (as bs : List Action) : p.run (as ++ bs) = (p.run as).run bs :=
  List.foldl_append

/-! ## A text on the page -/

/-- What no character of a text is to be. -/
def Printable (c : UInt8) : Prop := ¬ IsNewline c ∧ c ≠ 0x08

variable {p : Page} {c : UInt8}

/-- A printable character goes to the position, which goes on by one. -/
theorem writeChar_printable (hc : Printable c) (hp : p.position < screenSize) :
    p.writeChar c = ⟨Function.update p.cell p.position (vgaEntry c color),
      (p.position + 1) % screenSize⟩ := by
  rw [writeChar, if_neg hc.1, if_neg hc.2, turn, if_neg (by omega), print]
  congr 1
  split_ifs with hlast
  · rw [hlast, Nat.mod_self]
  · exact (Nat.mod_eq_of_lt (by omega)).symm

/-- A text of at most a page stands from the position on. -/
theorem foldl_writeChar (hp : p.position < screenSize) (text : List UInt8)
    (hprintable : ∀ c ∈ text, Printable c) (hlength : text.length ≤ screenSize) :
    (text.foldl writeChar p).position = (p.position + text.length) % screenSize ∧
    (∀ i (hi : i < text.length), (text.foldl writeChar p).cell ((p.position + i) % screenSize) =
      vgaEntry text[i] color) ∧
    ∀ j < screenSize, (∀ i < text.length, j ≠ (p.position + i) % screenSize) →
      (text.foldl writeChar p).cell j = p.cell j := by
  induction text using List.reverseRecOn with
  | nil =>
    refine ⟨?_, fun i hi => absurd hi (Nat.not_lt_zero i), fun j _ _ => rfl⟩
    rw [List.foldl_nil, List.length_nil, Nat.add_zero, Nat.mod_eq_of_lt hp]
  | append_singleton text c ih =>
    have hsucc : (text ++ [c]).length = text.length + 1 := by simp
    rw [hsucc] at hlength
    obtain ⟨hposition, hcell, hother⟩ :=
      ih (fun d hd => hprintable d (List.mem_append_left _ hd)) (by omega)
    have hsize : 0 < screenSize := by decide
    have hc : Printable c := hprintable c (by simp)
    rw [List.foldl_append, List.foldl_cons, List.foldl_nil, writeChar_printable hc (by
      rw [hposition]
      exact Nat.mod_lt _ hsize), hposition]
    -- Less than a page has been written, so `c` falls on no character before it.
    have happart : ∀ i < text.length,
        (p.position + i) % screenSize ≠ (p.position + text.length) % screenSize := by
      intro i hi
      rw [screenSize] at *
      omega
    refine ⟨by rw [hsucc, Nat.mod_add_mod, Nat.add_assoc], ?_, ?_⟩
    · intro i hi
      rw [hsucc] at hi
      rcases Nat.lt_succ_iff_lt_or_eq.mp hi with hi' | rfl
      · simp only [Function.update_of_ne (happart i hi'), hcell i hi',
          List.getElem_append_left hi']
      · simp
    · intro j hj hne
      rw [hsucc] at hne
      have hlast : j ≠ (p.position + text.length) % screenSize := hne _ (Nat.lt_succ_self _)
      simp only [Function.update_of_ne hlast]
      exact hother j hj fun i hi => hne i (Nat.lt_succ_of_lt hi)

end Page

namespace TTY

variable {t : TTY} {p : Page} {c : UInt8}

/-! ## Painting -/

theorem buffer_store (t : TTY) (index i : ℤ) (entry : UInt16) :
    (t.store index entry).buffer i = if i = index then entry else t.buffer i := rfl

/-- `f t x` paints the cells `P x`, in the colour of the terminal. -/
theorem buffer_foldl {f : TTY → ℕ → TTY} {P : ℕ → ℤ → Prop} [∀ x i, Decidable (P x i)] (l : List ℕ)
    (hcolor : ∀ t, ∀ x ∈ l, (f t x).color = t.color)
    (hbuffer : ∀ t, ∀ x ∈ l, ∀ i, (f t x).buffer i =
      if P x i then vgaEntry 0x20 t.color else t.buffer i) :
    ∀ t, (l.foldl f t).color = t.color ∧
      ∀ i, (l.foldl f t).buffer i =
        if ∃ x ∈ l, P x i then vgaEntry 0x20 t.color else t.buffer i := by
  induction l with
  | nil => intro t; simp
  | cons x l ih =>
    intro t
    obtain ⟨hcolor', hbuffer'⟩ := ih (fun t y hy => hcolor t y (List.mem_cons_of_mem x hy))
      (fun t y hy => hbuffer t y (List.mem_cons_of_mem x hy)) (f t x)
    have hx := hcolor t x List.mem_cons_self
    rw [List.foldl_cons]
    refine ⟨hcolor'.trans hx, fun i => ?_⟩
    rw [hbuffer', hx, hbuffer t x List.mem_cons_self]
    by_cases hrest : ∃ y ∈ l, P y i
    · obtain ⟨y, hy, hpy⟩ := hrest
      rw [if_pos ⟨y, hy, hpy⟩, if_pos ⟨y, List.mem_cons_of_mem x hy, hpy⟩]
    · rw [if_neg hrest]
      simp only [List.mem_cons, exists_eq_or_imp]
      simp [hrest]

/-- `clear` blanks the screen and nothing else. -/
theorem clear_spec (t : TTY) : t.clear.color = t.color ∧
    ∀ i, t.clear.buffer i =
      if 0 ≤ i ∧ i < screenSize then vgaEntry 0x20 t.color else t.buffer i := by
  -- A row first, and then the rows.
  have hrow : ∀ (t : TTY) (y : ℕ), _ := fun t y =>
    buffer_foldl (f := fun t x => t.store (y * 80 + x : ℕ) (vgaEntry 0x20 t.color))
      (P := fun x i => i = (y * 80 + x : ℕ)) (List.range 80) (fun _ _ _ => rfl)
      (fun t x _ i => buffer_store t _ i _) t
  have hrows := buffer_foldl (P := fun y i => ∃ x ∈ List.range 80, i = (y * 80 + x : ℕ))
    (List.range 25) (fun t y _ => (hrow t y).1) (fun t y _ => (hrow t y).2) t
  refine ⟨hrows.1, fun i => ?_⟩
  have hiff : (∃ y ∈ List.range 25, ∃ x ∈ List.range 80, i = (y * 80 + x : ℕ)) ↔
      0 ≤ i ∧ i < screenSize := by
    simp only [List.mem_range, screenSize]
    constructor
    · rintro ⟨y, hy, x, hx, rfl⟩
      omega
    · rintro ⟨hnonneg, hlt⟩
      exact ⟨i.toNat / 80, by omega, i.toNat % 80, by omega, by omega⟩
  rw [clear, hrows.2 i, if_congr hiff rfl rfl]

/-! ## The terminal and its page -/

/-- The terminal shows the page. Its position may be below the screen, and then a row begins, or
the cell behind the screen has just been written to. -/
structure Shows (t : TTY) (p : Page) : Prop where
  color : t.color = Page.color
  row : 0 ≤ t.row.toInt
  column : 0 ≤ t.column.toInt ∧ t.column.toInt < 80
  position : (p.position : ℤ) = t.row.toInt * 80 + t.column.toInt
  below : p.position ≤ screenSize + 1 ∨ t.column.toInt = 0
  cells : ∀ i < screenSize, t.buffer i = p.cell i
  written : ∀ i ∈ t.written, 0 ≤ i ∧ i ≤ screenSize

/-- The rows in which a cell has an index that is an `int`. -/
def maxRow : ℕ := 26843543

/-- The cell of a position is counted without overflow, below the screen as well. -/
theorem toInt_index {x y : Int32} (hx : 0 ≤ x.toInt ∧ x.toInt < 80)
    (hy : 0 ≤ y.toInt ∧ y.toInt ≤ maxRow) :
    (getBufferIndex x y).toInt = y.toInt * 80 + x.toInt := by
  have hwidth : vgaWidth.toInt = 80 := rfl
  rw [maxRow] at hy
  rw [getBufferIndex, Int32.toInt_add, Int32.toInt_mul, hwidth]
  simp only [Int.bmod]
  omega

theorem toInt_succ {x : Int32} (hx : 0 ≤ x.toInt ∧ x.toInt ≤ maxRow) :
    (x + 1).toInt = x.toInt + 1 := by
  have hone : (1 : Int32).toInt = 1 := rfl
  rw [maxRow] at hx
  rw [Int32.toInt_add, hone]
  simp only [Int.bmod]
  omega

theorem toInt_pred {x : Int32} (hx : 0 < x.toInt) : (x - 1).toInt = x.toInt - 1 := by
  have hone : (1 : Int32).toInt = 1 := rfl
  have hlt := x.toInt_lt
  rw [Int32.toInt_sub, hone]
  simp only [Int.bmod]
  omega

/-- A cell of the screen that is painted over. -/
theorem cells_store (hcells : ∀ i < screenSize, t.buffer i = p.cell i) (k : ℕ) (entry : UInt16) :
    ∀ i < screenSize, (t.store k entry).buffer i = Function.update p.cell k entry i := by
  intro i hi
  rw [buffer_store]
  by_cases hik : i = k
  · rw [hik, if_pos rfl, Function.update_self]
  · rw [if_neg (by omega), Function.update_of_ne hik]
    exact hcells i hi

/-- Nothing is written but cells of the screen and the one behind it. -/
theorem written_store (hwritten : ∀ i ∈ t.written, 0 ≤ i ∧ i ≤ screenSize) {k : ℤ}
    (hk : 0 ≤ k ∧ k ≤ screenSize) (entry : UInt16) :
    ∀ i ∈ (t.store k entry).written, 0 ≤ i ∧ i ≤ screenSize := by
  intro i hi
  rcases List.mem_cons.mp hi with rfl | hi
  · exact hk
  · exact hwritten i hi

/-- A position for what is painted. -/
theorem shows_at {cell : ℕ → UInt16} {position : ℕ} {x y : Int32} (hcolor : t.color = Page.color)
    (hcells : ∀ i < screenSize, t.buffer i = cell i)
    (hwritten : ∀ i ∈ t.written, 0 ≤ i ∧ i ≤ screenSize) (hy : 0 ≤ y.toInt)
    (hx : 0 ≤ x.toInt ∧ x.toInt < 80) (hposition : (position : ℤ) = y.toInt * 80 + x.toInt)
    (hbelow : position ≤ screenSize + 1 ∨ x.toInt = 0) :
    Shows { t with row := y, column := x } ⟨cell, position⟩ :=
  ⟨hcolor, hy, hx, hposition, hbelow, hcells, hwritten⟩

theorem toInt_zero : (0 : Int32).toInt = 0 := rfl

/-- A line feed. -/
theorem Shows.newline (h : Shows t p) (hrow : t.row.toInt ≤ maxRow) :
    Shows { t with row := t.row + 1, column := 0 } p.newline := by
  have hsucc := toInt_succ ⟨h.row, hrow⟩
  have hrow := h.row
  have hcolumn := h.column
  have hposition := h.position
  refine shows_at h.color h.cells h.written (by omega) (by rw [toInt_zero]; omega) ?_
    (.inr toInt_zero)
  rw [hsucc, toInt_zero]
  omega

/-- A backspace. -/
theorem Shows.backspace (h : Shows t p) (hrow : t.row.toInt ≤ maxRow) :
    Shows t.backspace p.backspace := by
  have hrow' := h.row
  have hcolumn := h.column
  have hposition := h.position
  have hbelow := h.below
  rw [TTY.backspace, Page.backspace]
  by_cases hpos : t.column > 0
  · have hpos' : 0 < t.column.toInt := Int32.lt_iff_toInt_lt.mp hpos
    have hpred := toInt_pred hpos'
    have hindex : (getBufferIndex (t.column - 1) t.row).toInt = (p.position - 1 : ℕ) := by
      rw [toInt_index (by omega) ⟨hrow', hrow⟩]
      omega
    rw [if_pos hpos, if_neg (by omega), hindex]
    refine shows_at (y := t.row) h.color (cells_store h.cells _ _)
      (written_store h.written (by omega) _) hrow' (by omega) ?_ (.inl (by omega))
    rw [hpred]
    omega
  · have hcolumn' : t.column.toInt ≤ 0 := by
      have hnot := mt Int32.lt_iff_toInt_lt.mpr hpos
      rw [toInt_zero] at hnot
      omega
    have hstart : p.position % 80 = 0 := by omega
    rw [if_neg hpos, if_pos hstart]
    exact h

theorem eq_of_toInt {x y : Int32} (h : x.toInt = y.toInt) : x = y := Int32.toInt_inj.mp h

/-- A cell is written, and then the position moves on. -/
theorem Shows.print (h : Shows t p) (hsize : p.position ≤ screenSize) (entry : UInt16) :
    Shows (t.store p.position entry).advance (p.print entry) := by
  have hrow := h.row
  have hcolumn := h.column
  have hposition := h.position
  have hwidth : vgaWidth.toInt = 80 := rfl
  have hheight : vgaHeight.toInt = 25 := rfl
  have hsize' : screenSize = 2000 := rfl
  have hmax : maxRow = 26843543 := rfl
  have hcells := cells_store h.cells p.position entry
  have hwritten := written_store h.written (k := p.position) (by omega) entry
  have hcolumn' := toInt_succ (x := t.column) (by omega)
  have hrow' := toInt_succ (x := t.row) (by omega)
  have hstored : (t.store p.position entry).column = t.column ∧
      (t.store p.position entry).row = t.row := ⟨rfl, rfl⟩
  rw [advance, Page.print, hstored.1, hstored.2]
  by_cases hlast : t.column.toInt = 79
  · rw [if_pos (eq_of_toInt (by omega))]
    by_cases hbottom : t.row.toInt = 24
    · rw [if_pos (eq_of_toInt (by omega)), if_pos (by omega)]
      exact shows_at h.color hcells hwritten (by decide) (by decide) rfl (.inr toInt_zero)
    · have hrow_ne : t.row + 1 ≠ vgaHeight := fun he => by
        have := congrArg Int32.toInt he
        omega
      rw [if_neg hrow_ne, if_neg (by omega)]
      refine shows_at h.color hcells hwritten (by omega) (by decide) ?_ (.inr toInt_zero)
      rw [hrow', toInt_zero]
      omega
  · have hcolumn_ne : t.column + 1 ≠ vgaWidth := fun he => by
      have := congrArg Int32.toInt he
      omega
    rw [if_neg hcolumn_ne, if_neg (by omega)]
    refine shows_at (y := t.row) h.color hcells hwritten hrow (by omega) ?_ (.inl (by omega))
    rw [hcolumn']
    omega

/-- The terminal that has been cleared shows the empty page. -/
theorem Shows.clear (h : Shows t p) :
    Shows { t.clear with row := 0, column := 0 } Page.empty := by
  obtain ⟨hcolor, hbuffer⟩ := clear_spec t
  refine shows_at (hcolor.trans h.color) ?_ ?_ (by decide) (by decide) rfl (.inr toInt_zero)
  · intro i hi
    have hblank := hbuffer i
    rw [if_pos (by omega), h.color] at hblank
    exact hblank
  · intro i hi
    rcases (repaints_clear t).cells i hi with hmem | hmem
    · exact h.written i hmem
    · omega

/-- Any character. -/
theorem Shows.writeChar (h : Shows t p) (hrow : t.row.toInt ≤ maxRow) (c : UInt8) :
    Shows (t.writeChar c) (p.writeChar c) := by
  rw [TTY.writeChar, Page.writeChar]
  by_cases hnl : IsNewline c
  · rw [if_pos hnl, if_pos hnl]
    exact h.newline hrow
  rw [if_neg hnl, if_neg hnl]
  by_cases hbs : c = 0x08
  · rw [if_pos hbs, if_pos hbs]
    exact h.backspace hrow
  rw [if_neg hbs, if_neg hbs]
  -- The check is about the index of the cell, which is the position.
  have hindex := toInt_index h.column ⟨h.row, hrow⟩
  have hposition := h.position
  have hnat := toNat_of_nonneg (p := getBufferIndex t.column t.row) (by omega)
  have hsize : (vgaWidth * vgaHeight).toUInt32.toNat = screenSize := rfl
  have hgt : (getBufferIndex t.column t.row).toUInt32 > (vgaWidth * vgaHeight).toUInt32 ↔
      screenSize < p.position := by
    rw [gt_iff_lt, UInt32.lt_iff_toNat_lt, hsize]
    omega
  rw [writeCharAt, Page.turn, h.color]
  by_cases hbelow : screenSize < p.position
  · rw [if_pos (hgt.mpr hbelow), if_pos hbelow]
    exact h.clear.print (by decide) _
  · rw [if_neg (mt hgt.mp hbelow), if_neg hbelow]
    have hcell : ((getBufferIndex t.column t.row).toUInt32.toNat : ℤ) = p.position := by omega
    rw [hcell]
    exact h.print (by omega) _

/-! ## Runs -/

/-- Whether a new line is begun. -/
def Action.newline : Action → Bool
  | .writeChar c => decide (IsNewline c)
  | .showCursor => false

/-- How often a run begins a new line. -/
def newlines (as : List Action) : ℕ := as.countP Action.newline

/-- Any action. -/
theorem Shows.exec (h : Shows t p) (hrow : t.row.toInt ≤ maxRow) (a : Action) :
    Shows (a.exec t) (p.exec a) := by
  cases a with
  | writeChar c => exact h.writeChar hrow c
  | showCursor => exact ⟨h.color, h.row, h.column, h.position, h.below, h.cells, h.written⟩

theorem newlines_append (as bs : List Action) :
    newlines (as ++ bs) = newlines as + newlines bs := List.countP_append

/-- After a print the position is at most one behind the screen. -/
theorem position_print_turn (p : Page) (entry : UInt16) :
    (p.turn.print entry).position ≤ screenSize + 1 := by
  have hsize : screenSize = 2000 := rfl
  rw [Page.turn]
  split_ifs
  · exact Nat.le_add_left 1 screenSize
  · rw [Page.print]
    split_ifs
    · exact Nat.zero_le _
    · simp only
      omega

/-- Only a new line moves the position away from the page. -/
theorem position_exec {n : ℕ} (hp : p.position ≤ screenSize + 1 + 80 * n) (a : Action) :
    (p.exec a).position ≤ screenSize + 1 + 80 * (n + newlines [a]) := by
  cases a with
  | showCursor =>
    rw [Page.exec]
    omega
  | writeChar c =>
    rw [Page.exec, Page.writeChar]
    by_cases hnl : IsNewline c
    · have hone : newlines [.writeChar c] = 1 := by simp [newlines, Action.newline, hnl]
      rw [if_pos hnl, hone, Page.newline]
      simp only
      omega
    · rw [if_neg hnl]
      split_ifs
      · rw [Page.backspace]
        split_ifs
        · omega
        · simp only
          omega
      · have hprint := position_print_turn p (vgaEntry c Page.color)
        omega

/-- The controller is not part of the page. -/
theorem Shows.setCursor (h : Shows t p) (x y : Int32) :
    Shows ((t.enableCursor 0 0).updateCursor x y) p :=
  ⟨h.color, h.row, h.column, h.position, h.below, h.cells, h.written⟩

/-- The terminal that is opened shows the empty page. -/
theorem shows_ttyOpen (t : TTY) : Shows t.ttyOpen Page.empty := by
  obtain ⟨u, hopen, hrow, hcolumn, hcolor, hwritten⟩ : ∃ u : TTY,
      t.ttyOpen = (u.clear.enableCursor 0 0).updateCursor 0 0 ∧
      u.row = 0 ∧ u.column = 0 ∧ u.color = Page.color ∧ u.written = [] :=
    ⟨_, rfl, rfl, rfl, rfl, rfl⟩
  obtain ⟨hcolor', hbuffer⟩ := clear_spec u
  have hclear := repaints_clear u
  rw [hopen]
  refine Shows.setCursor ⟨hcolor'.trans hcolor, ?_, ?_, ?_, .inl (Nat.zero_le _), ?_, ?_⟩ 0 0
  · rw [hclear.row, hrow]
    decide
  · rw [hclear.column, hcolumn]
    decide
  · rw [hclear.row, hclear.column, hrow, hcolumn]
    rfl
  · intro i hi
    rw [hbuffer, if_pos (by omega), hcolor]
    rfl
  · intro i hi
    have hmem := (hclear.cells i hi).resolve_left (hwritten ▸ List.not_mem_nil)
    omega

/-- What is printed, one character after the other. -/
def chars (as : List Action) : List UInt8 :=
  as.filterMap fun
    | .writeChar c => some c
    | .showCursor => none

/-- The page of a run is the page of its characters. -/
theorem page_chars (as : List Action) :
    ∀ p : Page, p.run as = (chars as).foldl Page.writeChar p := by
  induction as with
  | nil =>
    intro p
    rfl
  | cons a as ih =>
    intro p
    cases a with
    | writeChar c => exact ih _
    | showCursor => exact ih _

/-- The new lines of a run are those of its characters. -/
theorem newlines_chars (as : List Action) :
    newlines as = (chars as).countP fun c => decide (IsNewline c) := by
  induction as with
  | nil => rfl
  | cons a as ih =>
    cases a with
    | writeChar c =>
      rw [newlines, List.countP_cons, ← newlines, ih]
      exact (List.countP_cons ..).symm
    | showCursor =>
      rw [newlines, List.countP_cons, ← newlines, ih]
      rfl

/-- In a run that does not overflow the position the terminal shows its page. -/
theorem shows_run (t : TTY) (as : List Action) (hnewlines : newlines as + 25 ≤ maxRow) :
    Shows (t.ttyOpen.run as) (Page.empty.run as) ∧
      (Page.empty.run as).position ≤ screenSize + 1 + 80 * newlines as := by
  induction as using List.reverseRecOn with
  | nil => exact ⟨shows_ttyOpen t, Nat.zero_le _⟩
  | append_singleton as a ih =>
    rw [newlines_append] at hnewlines
    obtain ⟨hshows, hposition⟩ := ih (by omega)
    have hsize : screenSize = 2000 := rfl
    have hrow : (t.ttyOpen.run as).row.toInt ≤ maxRow := by
      have hpos := hshows.position
      have hcolumn := hshows.column
      omega
    rw [run_append, Page.run_append, newlines_append]
    exact ⟨hshows.exec hrow a, position_exec hposition a⟩

/-- The controller is told the position, as far as its two registers go. -/
theorem Shows.cursor (h : Shows t p) (hrow : t.row.toInt ≤ maxRow) :
    t.showCursor.cursor = p.position % 2 ^ 16 := by
  have hindex := toInt_index h.column ⟨h.row, hrow⟩
  have hposition := h.position
  have hnonneg : 0 ≤ (getBufferIndex t.column t.row).toInt := by omega
  have hlow := low_byte (getBufferIndex t.column t.row)
  have hhigh := high_byte hnonneg
  have hnat := toNat_of_nonneg hnonneg
  have hcursor : t.showCursor.cursor
      = (getBufferIndex t.column t.row >>> 8 &&& 0xFF).toUInt32.toUInt8.toNat * 256
        + (getBufferIndex t.column t.row &&& 0xFF).toUInt32.toUInt8.toNat := rfl
  rw [hcursor, hlow, hhigh]
  omega

/-- Every run that does not overflow the position shows the page: the screen its cells, and the
cursor its position. The cell just behind the screen is the only other that is ever written. -/
theorem page_shown (t : TTY) (as : List Action) (hnewlines : newlines as + 25 ≤ maxRow) :
    let u := t.ttyOpen.run as
    let p := Page.empty.run as
    (∀ i < screenSize, u.buffer i = p.cell i) ∧ (∀ i ∈ u.written, 0 ≤ i ∧ i ≤ screenSize) ∧
      (p.position : ℤ) = u.row.toInt * 80 + u.column.toInt ∧
      u.showCursor.cursor = p.position % 2 ^ 16 := by
  intro u p
  obtain ⟨hshows, hposition⟩ := shows_run t as hnewlines
  have hsize : screenSize = 2000 := rfl
  have hpos := hshows.position
  have hcolumn := hshows.column
  exact ⟨hshows.cells, hshows.written, hpos, hshows.cursor (by omega)⟩

/-- A terminal before it is opened. -/
def closed : TTY := ⟨0, 0, 0, fun _ => 0, fun _ => 0, []⟩

theorem page_shown_line :
    (closed.ttyOpen.run [.writeChar 0x0A, .writeChar 0x41]).buffer (80 : ℕ) = 0x0741 ∧
    (closed.ttyOpen.run [.writeChar 0x0A, .writeChar 0x41]).showCursor.cursor = 81 := by
  obtain ⟨hcells, -, -, hcursor⟩ :=
    page_shown closed [.writeChar 0x0A, .writeChar 0x41] (by decide)
  rw [hcells 80 (by decide), hcursor]
  decide

/-- What a run prints stands on the screen where the position was, and nothing else changes. -/
theorem text_run (t : TTY) (as bs : List Action) (hnewlines : newlines as + 25 ≤ maxRow)
    (hrow : (t.ttyOpen.run as).row < vgaHeight) (hprintable : ∀ c ∈ chars bs, Page.Printable c)
    (hlength : (chars bs).length ≤ screenSize) :
    let u := t.ttyOpen.run as
    let v := t.ttyOpen.run (as ++ bs)
    let q := (u.row.toInt * 80 + u.column.toInt).toNat
    (∀ i (hi : i < (chars bs).length), v.buffer ((q + i) % screenSize : ℕ) =
      vgaEntry (chars bs)[i] Page.color) ∧
    (∀ j < screenSize, (∀ i < (chars bs).length, j ≠ (q + i) % screenSize) →
      v.buffer j = u.buffer j) ∧
    v.showCursor.cursor = (q + (chars bs).length) % screenSize := by
  intro u v q
  have hsize : screenSize = 2000 := rfl
  have hshows : Shows u (Page.empty.run as) := (shows_run t as hnewlines).1
  have hcolumn := hshows.column
  have hposition := hshows.position
  have hrow' : u.row.toInt < 25 := Int32.lt_iff_toInt_lt.mp hrow
  have hq : q = (Page.empty.run as).position := by omega
  -- What is printable begins no new line, so the longer run does not overflow either.
  have hnone : newlines bs = 0 := by
    rw [newlines_chars, List.countP_eq_zero]
    intro c hc
    simpa using (hprintable c hc).1
  obtain ⟨hshows' : Shows v _, -⟩ := shows_run t (as ++ bs) (by
    rw [newlines_append, hnone]
    exact hnewlines)
  rw [Page.run_append, page_chars bs] at hshows'
  obtain ⟨hend, hcell, hother⟩ := Page.foldl_writeChar (p := Page.empty.run as) (by omega) (chars bs)
    hprintable hlength
  have hcolumn' := hshows'.column
  have hposition' := hshows'.position
  rw [← hq] at hend hcell hother
  have hlast : ((chars bs).foldl Page.writeChar (Page.empty.run as)).position < screenSize := by
    rw [hend]
    exact Nat.mod_lt _ (by decide)
  refine ⟨?_, ?_, ?_⟩
  · intro i hi
    rw [hshows'.cells _ (Nat.mod_lt _ (by decide))]
    exact hcell i hi
  · intro j hj hne
    rw [hshows'.cells j hj, hshows.cells j hj]
    exact hother j hj hne
  · rw [hshows'.cursor (by omega), hend]
    exact Nat.mod_eq_of_lt (by omega)

theorem chars_map_writeChar (text : List UInt8) : chars (text.map .writeChar) = text := by
  rw [chars, List.filterMap_map]
  exact List.filterMap_some

/-- A text stands on the screen where the position was, as it was written, and nothing else
changes. The cursor is behind it. -/
theorem text_shown (t : TTY) (as : List Action) (text : List UInt8)
    (hnewlines : newlines as + 25 ≤ maxRow) (hrow : (t.ttyOpen.run as).row < vgaHeight)
    (hprintable : ∀ c ∈ text, Page.Printable c) (hlength : text.length ≤ screenSize) :
    let u := t.ttyOpen.run as
    let q := (u.row.toInt * 80 + u.column.toInt).toNat
    (∀ i (hi : i < text.length), (u.write text).buffer ((q + i) % screenSize : ℕ) =
      vgaEntry text[i] Page.color) ∧
    (∀ j < screenSize, (∀ i < text.length, j ≠ (q + i) % screenSize) →
      (u.write text).buffer j = u.buffer j) ∧
    (u.write text).cursor = (q + text.length) % screenSize := by
  intro u q
  have hchars := chars_map_writeChar text
  have hrun := text_run t as (text.map .writeChar) hnewlines hrow
  rw [hchars] at hrun
  obtain ⟨hcell, hother, hcursor⟩ := hrun hprintable hlength
  have hwrite : u.write text = (t.ttyOpen.run (as ++ text.map .writeChar)).showCursor := by
    rw [run_append, run_writeChars]
    rfl
  rw [hwrite]
  exact ⟨hcell, hother, hcursor⟩

theorem text_shown_hi : (closed.ttyOpen.write [0x48, 0x69]).buffer (1 : ℕ) = 0x0769 ∧
    (closed.ttyOpen.write [0x48, 0x69]).cursor = 2 := by
  have hposition := (shows_ttyOpen closed).position
  have hrow := row_ttyOpen closed
  have hempty : closed.ttyOpen = closed.ttyOpen.run [] := rfl
  rw [hempty] at hrow hposition ⊢
  obtain ⟨hcells, -, hcursor⟩ := text_shown closed [] [0x48, 0x69] (by decide) (hrow ▸ by decide)
    (by simp [Page.Printable, IsNewline]) (by decide)
  have hcell := hcells 1 (by decide)
  have hstart : (Page.empty.position : ℤ).toNat = 0 := rfl
  have hone : (0 + 1) % screenSize = 1 := by decide
  rw [← hposition, hstart] at hcursor
  rw [← hposition, hstart, hone] at hcell
  exact ⟨hcell, hcursor⟩

end TTY

end Sakura.Devices
