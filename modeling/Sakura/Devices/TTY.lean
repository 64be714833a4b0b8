import Mathlib.Data.Int.Notation
import Mathlib.Data.Nat.Notation

/-!
# The terminal

`TTY.cpp` and `vga.h`: the text screen, its cursor and the position the next character goes
to. The task and the keyboard `TTY::open` sets up as well are not part of the terminal itself;
what the keyboard delivers is the argument of `ttyProcess`.

`int` is `Int32`, `size_t` is `UInt32`. The screen is a pointer, so a cell has any index;
`written` lists the indices written to since `TTY::open`.
-/

namespace Sakura.Devices

/-- `VGA_WIDTH`. -/
def vgaWidth : Int32 := 80

/-- `VGA_HEIGHT`. -/
def vgaHeight : Int32 := 25

/-- `VGA_REG_CURSOR_START` and its siblings. -/
def vgaRegCursorStart : UInt8 := 0x0A

def vgaRegCursorEnd : UInt8 := 0x0B

def vgaRegCursorLocHigh : UInt8 := 0x0E

def vgaRegCursorLocLow : UInt8 := 0x0F

def vgaEntryColor (fg bg : UInt8) : UInt8 := fg ||| bg <<< 4

def vgaEntry (uc color : UInt8) : UInt16 := uc.toUInt16 ||| color.toUInt16 <<< 8

/-- `TTY`, with the screen and the registers of the controller. -/
structure TTY where
  color : UInt8
  row : Int32
  column : Int32
  buffer : ℤ → UInt16
  registers : UInt8 → UInt8
  written : List ℤ

namespace TTY

/-- `m_buffer[index] = entry`. -/
def store (t : TTY) (index : ℤ) (entry : UInt16) : TTY :=
  { t with
    buffer := fun i => if i = index then entry else t.buffer i
    written := index :: t.written }

def vgaWrite (t : TTY) (address value : UInt8) : TTY :=
  { t with registers := fun a => if a = address then value else t.registers a }

def vgaRead (t : TTY) (address : UInt8) : UInt8 := t.registers address

def getBufferIndex (x y : Int32) : Int32 := y * vgaWidth + x

def updateCursor (t : TTY) (x y : Int32) : TTY :=
  let pos := getBufferIndex x y
  (t.vgaWrite vgaRegCursorLocLow (pos &&& 0xFF).toUInt32.toUInt8).vgaWrite vgaRegCursorLocHigh
    (pos >>> 8 &&& 0xFF).toUInt32.toUInt8

/-- `enableCursor`. The start register is written twice. -/
def enableCursor (t : TTY) (cursorStart cursorEnd : UInt8) : TTY :=
  let t := t.vgaWrite vgaRegCursorStart (t.vgaRead vgaRegCursorStart &&& 0xC0 ||| cursorStart)
  t.vgaWrite vgaRegCursorStart (t.vgaRead vgaRegCursorEnd &&& 0xE0 ||| cursorEnd)

def clear (t : TTY) : TTY :=
  (List.range 25).foldl (fun t y =>
    (List.range 80).foldl (fun t x => t.store (y * 80 + x : ℕ) (vgaEntry 0x20 t.color)) t) t

/-- `writeChar(c, color, x, y)`. -/
def writeCharAt (t : TTY) (c color : UInt8) (x y : Int32) : TTY :=
  let index := (getBufferIndex x y).toUInt32
  if index > (vgaWidth * vgaHeight).toUInt32 then
    { t.clear with row := 0, column := 0 }.store 0 (vgaEntry c color)
  else t.store index.toNat (vgaEntry c color)

/-- The two bytes that begin a new line. -/
def IsNewline (c : UInt8) : Prop := c = 0x0D ∨ c = 0x0A

instance (c : UInt8) : Decidable (IsNewline c) := inferInstanceAs (Decidable (_ ∨ _))

/-- What follows a printed character. -/
def advance (t : TTY) : TTY :=
  if t.column + 1 = vgaWidth then
    if t.row + 1 = vgaHeight then { t with row := 0, column := 0 }
    else { t with row := t.row + 1, column := 0 }
  else { t with column := t.column + 1 }

/-- The case of a backspace. The blank it leaves has no colour. -/
def backspace (t : TTY) : TTY :=
  if t.column > 0 then
    { t.store (getBufferIndex (t.column - 1) t.row).toInt 0x20 with column := t.column - 1 }
  else t

/-- `writeChar(c)`. -/
def writeChar (t : TTY) (c : UInt8) : TTY :=
  if IsNewline c then { t with row := t.row + 1, column := 0 }
  else if c = 0x08 then t.backspace
  else (t.writeCharAt c t.color t.column t.row).advance

/-- `TTY::open`. -/
def ttyOpen (t : TTY) : TTY :=
  let t := { t with row := 0, column := 0, color := vgaEntryColor 7 0, written := [] }
  (t.clear.enableCursor 0 0).updateCursor 0 0

/-- `updateCursor(m_column, m_row)`. -/
def showCursor (t : TTY) : TTY := t.updateCursor t.column t.row

/-- `TTY::write`. -/
def write (t : TTY) (buffer : List UInt8) : TTY := (buffer.foldl writeChar t).showCursor

/-- One turn of the loop of `tty_process`, on the character that the keyboard delivers. -/
def ttyProcess (t : TTY) (c : UInt8) : TTY := (t.writeChar c).showCursor

/-- The position the controller shows the cursor at. -/
def cursor (t : TTY) : ℕ :=
  (t.registers vgaRegCursorLocHigh).toNat * 256 + (t.registers vgaRegCursorLocLow).toNat

end TTY

end Sakura.Devices
