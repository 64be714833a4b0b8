import Sakura.Lib.I386

/-!
# The formatter

`vsnprintf.c`, and `printk` of `Libk.cpp`. A format is the list of the bytes that are mapped
from its address on: reading past its end is a page fault, on which the exception handler
spins, and the result is then `none`. So it is with the words of the argument list.

What `out` is called with, in order, is the result. The floating point conversions are not
embedded: `FloatFormat` holds what they write, which is never nothing.
-/

namespace Sakura.Libk

open I386 (Word)

abbrev Byte := BitVec 8

def chr (c : Char) : Byte := BitVec.ofNat 8 c.toNat

namespace Printf

/-- `PRINTF_NTOA_BUFFER_SIZE`. -/
def ntoaBufferSize : ℕ := 32

/-- The `FLAGS_` bits. -/
structure Flags where
  zeropad : Bool := false
  left : Bool := false
  plus : Bool := false
  space : Bool := false
  hash : Bool := false
  uppercase : Bool := false
  char : Bool := false
  short : Bool := false
  long : Bool := false
  longLong : Bool := false
  precision : Bool := false
  adaptExp : Bool := false
deriving DecidableEq

/-- What `_ftoa` and `_etoa` write, from the flags, the precision, the width and the two words
of the number. -/
structure FloatFormat where
  ftoa : Flags → ℕ → ℕ → Word × Word → List Byte
  etoa : Flags → ℕ → ℕ → Word × Word → List Byte
  ftoa_ne_nil : ∀ flags prec width value, ftoa flags prec width value ≠ []
  etoa_ne_nil : ∀ flags prec width value, etoa flags prec width value ≠ []

/-! ## Reading a conversion -/

def isDigit (c : Byte) : Bool := chr '0' ≤ c && c ≤ chr '9'

/-- `_atoi`, from the value so far. -/
def atoi : ℕ → List Byte → Option (ℕ × List Byte)
  | _, [] => none
  | i, c :: cs =>
    if isDigit c then atoi ((i * 10 + (c - chr '0').toNat) % 2 ^ 32) cs else some (i, c :: cs)

/-- The flag a character sets. -/
def flagOf (flags : Flags) (c : Byte) : Option Flags :=
  if c = chr '0' then some { flags with zeropad := true }
  else if c = chr '-' then some { flags with left := true }
  else if c = chr '+' then some { flags with plus := true }
  else if c = chr ' ' then some { flags with space := true }
  else if c = chr '#' then some { flags with hash := true }
  else none

def evalFlags : Flags → List Byte → Option (Flags × List Byte)
  | _, [] => none
  | flags, c :: cs =>
    match flagOf flags c with
    | some flags => evalFlags flags cs
    | none => some (flags, c :: cs)

/-- A width or a precision: a number, or `*`. -/
inductive Count where
  | given (n : ℕ)
  | star
deriving DecidableEq

/-- A number, `*` or nothing, which is 0. -/
def evalCount : List Byte → Option (Count × List Byte)
  | [] => none
  | c :: cs =>
    if isDigit c then (atoi 0 (c :: cs)).map fun (n, rest) => (.given n, rest)
    else if c = chr '*' then some (.star, cs)
    else some (.given 0, c :: cs)

/-- The precision, if there is one. -/
def evalPrecision (flags : Flags) : List Byte → Option (Flags × Count × List Byte)
  | [] => none
  | c :: cs =>
    if c = chr '.' then
      (evalCount cs).map fun (count, rest) => ({ flags with precision := true }, count, rest)
    else some (flags, .given 0, c :: cs)

/-- A length letter that may be doubled. -/
def evalDouble (c : Byte) (one two : Flags) : List Byte → Option (Flags × List Byte)
  | [] => none
  | c' :: cs => if c' = c then some (two, cs) else some (one, c' :: cs)

/-- The length field. `long`, `size_t` and `ptrdiff_t` have four bytes, `intmax_t` has eight. -/
def evalLength (flags : Flags) : List Byte → Option (Flags × List Byte)
  | [] => none
  | c :: cs =>
    if c = chr 'l' then
      evalDouble c { flags with long := true } { flags with long := true, longLong := true } cs
    else if c = chr 'h' then
      evalDouble c { flags with short := true } { flags with short := true, char := true } cs
    else if c = chr 't' then some ({ flags with long := true }, cs)
    else if c = chr 'j' then some ({ flags with longLong := true }, cs)
    else if c = chr 'z' then some ({ flags with long := true }, cs)
    else some (flags, c :: cs)

/-- `%[flags][width][.precision][length]specifier`. -/
structure Directive where
  flags : Flags
  width : Count
  precision : Count
  specifier : Byte

/-- Read a conversion from behind its `%`. The specifier is skipped whatever it is. -/
def directive (format : List Byte) : Option (Directive × List Byte) :=
  (evalFlags {} format).bind fun (flags, format) =>
  (evalCount format).bind fun (width, format) =>
  (evalPrecision flags format).bind fun (flags, precision, format) =>
  (evalLength flags format).bind fun (flags, format) =>
    match format with
    | [] => none
    | c :: rest => some (⟨flags, width, precision, c⟩, rest)

/-! ## Writing a conversion -/

def spaces (n : ℕ) : List Byte := List.replicate n (chr ' ')

/-- `_out_rev`: the digits are stored backwards. -/
def outRev (flags : Flags) (width : ℕ) (buf : List Byte) : List Byte :=
  (if !flags.left && !flags.zeropad then spaces (width - buf.length) else []) ++ buf.reverse ++
    if flags.left then spaces (width - buf.length) else []

/-- `buf[len++] = c`, while there is room. -/
def pushChar (buf : List Byte) (c : Byte) : List Byte :=
  if buf.length < ntoaBufferSize then buf ++ [c] else buf

/-- Zeros up to a length, while there is room. -/
def padZeros (buf : List Byte) (n : ℕ) : List Byte :=
  buf ++ List.replicate (min n ntoaBufferSize - buf.length) (chr '0')

/-- The padding of `_ntoa_format`, and the width that is left. -/
def ntoaPad (buf : List Byte) (negative : Bool) (prec width : ℕ) (flags : Flags) : List Byte × ℕ :=
  if flags.left then (buf, width)
  else
    let width := if flags.zeropad && (negative || flags.plus || flags.space) then width - 1 else width
    let buf := padZeros buf prec
    (if flags.zeropad then padZeros buf width else buf, width)

/-- The `#` prefix of `_ntoa_format`. It takes back the zeros of the padding. -/
def ntoaHash (buf : List Byte) (base prec width : ℕ) (flags : Flags) : List Byte :=
  if flags.hash then
    let full := !flags.precision && (buf.length = prec ∨ buf.length = width)
    let buf := if full then (if base = 16 then buf.dropLast.dropLast else buf.dropLast) else buf
    let buf :=
      if base = 16 then pushChar buf (if flags.uppercase then chr 'X' else chr 'x')
      else if base = 2 then pushChar buf (chr 'b')
      else buf
    pushChar buf (chr '0')
  else buf

def ntoaSign (buf : List Byte) (negative : Bool) (flags : Flags) : List Byte :=
  if negative then pushChar buf (chr '-')
  else if flags.plus then pushChar buf (chr '+')
  else if flags.space then pushChar buf (chr ' ')
  else buf

def ntoaFormat (buf : List Byte) (negative : Bool) (base prec width : ℕ) (flags : Flags) :
    List Byte :=
  let (buf, width) := ntoaPad buf negative prec width flags
  outRev flags width (ntoaSign (ntoaHash buf base prec width flags) negative flags)

def digit (flags : Flags) (d : ℕ) : Byte :=
  if d < 10 then BitVec.ofNat 8 ((chr '0').toNat + d)
  else BitVec.ofNat 8 ((if flags.uppercase then chr 'A' else chr 'a').toNat + d - 10)

/-- The digits of a value, the last first, at most `n` of them. -/
def digits (flags : Flags) (base : ℕ) : ℕ → ℕ → List Byte
  | 0, _ => []
  | n + 1, value =>
    digit flags (value % base) ::
      if value / base = 0 then [] else digits flags base n (value / base)

/-- `_ntoa_long` and `_ntoa_long_long`, which differ in the size of the value. -/
def ntoa (value : ℕ) (negative : Bool) (base prec width : ℕ) (flags : Flags) : List Byte :=
  -- no hash for 0 values
  let flags := if value = 0 then { flags with hash := false } else flags
  let buf := if !flags.precision || value ≠ 0 then digits flags base ntoaBufferSize value else []
  ntoaFormat buf negative base prec width flags

/-- `va_arg` of a word, and of two. -/
def vaWord : List Word → Option (Word × List Word)
  | [] => none
  | w :: args => some (w, args)

def vaTwo : List Word → Option ((Word × Word) × List Word)
  | low :: high :: args => some ((low, high), args)
  | _ => none

/-- `_strnlen_s`. -/
def strnlen : List Byte → ℕ → Option ℕ
  | [], _ => none
  | c :: cs, maxsize =>
    if c = 0 then some 0
    else
      match maxsize with
      | 0 => some 0
      | maxsize + 1 => (strnlen cs maxsize).map (· + 1)

/-- The characters of a string, at most `limit` of them if there is a limit. -/
def takeString : List Byte → Option ℕ → Option (List Byte)
  | [], _ => none
  | c :: cs, limit =>
    if c = 0 ∨ limit = some 0 then some []
    else (takeString cs (limit.map (· - 1))).map (c :: ·)

/-- The base of an integer conversion. -/
def baseOf (c : Byte) : ℕ :=
  if c = chr 'x' ∨ c = chr 'X' then 16 else if c = chr 'o' then 8 else if c = chr 'b' then 2 else 10

def isSigned (c : Byte) : Bool := c = chr 'i' ∨ c = chr 'd'

/-- The flags an integer conversion goes by. -/
def integerFlags (c : Byte) (flags : Flags) : Flags :=
  let flags := if baseOf c = 10 then { flags with hash := false } else flags
  let flags := if c = chr 'X' then { flags with uppercase := true } else flags
  let flags := if isSigned c then flags else { flags with plus := false, space := false }
  if flags.precision then { flags with zeropad := false } else flags

/-- The argument of an integer conversion: its magnitude, and whether it is negative. -/
def integerArg (c : Byte) (flags : Flags) (args : List Word) :
    Option ((ℕ × Bool) × List Word) :=
  if flags.longLong then
    (vaTwo args).map fun ((low, high), args) =>
      let value := high ++ low
      (if isSigned c && value.msb then ((-value).toNat, true) else (value.toNat, false), args)
  else
    (vaWord args).map fun (w, args) =>
      let value :=
        if flags.long then w
        else if flags.char then
          (if isSigned c then (w.setWidth 8).signExtend 32 else (w.setWidth 8).setWidth 32)
        else if flags.short then
          (if isSigned c then (w.setWidth 16).signExtend 32 else (w.setWidth 16).setWidth 32)
        else w
      (if isSigned c && value.msb then ((-value).toNat, true) else (value.toNat, false), args)

/-- A character or a string of length `l`, padded on the left or on the right. -/
def padded (flags : Flags) (width l : ℕ) (text : List Byte) : List Byte :=
  if flags.left then text ++ spaces (width - l) else spaces (width - l) ++ text

/-- `PRINTK_BUFFER_SIZE`. -/
def printkBufferSize : ℕ := 100

/-- What `printk` can see: the mapped bytes from an address on, the words on the stack above
its named arguments, and how many bytes are mapped from `printkBuffer` on. They end within the
kernel's GiB. -/
structure Environment where
  memory : ℕ → List Byte
  stack : List Word
  room : ℕ
  floats : FloatFormat
  le_room : printkBufferSize ≤ room
  room_lt : room < 2 ^ 31

/-- The value of a width, which a negative argument turns into one on the other side. -/
def widthOf (flags : Flags) (args : List Word) : Count → Option ((Flags × ℕ) × List Word)
  | .given n => some ((flags, n), args)
  | .star => (vaWord args).map fun (w, args) =>
    (if w.msb then ({ flags with left := true }, (-w).toNat) else (flags, w.toNat), args)

def precisionOf (args : List Word) : Count → Option (ℕ × List Word)
  | .given n => some (n, args)
  | .star => (vaWord args).map fun (w, args) => (if w.msb then 0 else w.toNat, args)

def integerSpecifiers : List Byte :=
  [chr 'd', chr 'i', chr 'u', chr 'x', chr 'X', chr 'o', chr 'b']

/-- The `switch` on the specifier. -/
def convert (env : Environment) (c : Byte) (flags : Flags) (width prec : ℕ) (args : List Word) :
    Option (List Byte × List Word) :=
  if c ∈ integerSpecifiers then
    (integerArg c flags args).map fun ((value, negative), args) =>
      (ntoa value negative (baseOf c) prec width (integerFlags c flags), args)
  else if c = chr 'f' ∨ c = chr 'F' then
    (vaTwo args).map fun (value, args) =>
      (env.floats.ftoa (if c = chr 'F' then { flags with uppercase := true } else flags)
        prec width value, args)
  else if c ∈ [chr 'e', chr 'E', chr 'g', chr 'G'] then
    (vaTwo args).map fun (value, args) =>
      let flags := if c = chr 'g' ∨ c = chr 'G' then { flags with adaptExp := true } else flags
      let flags := if c = chr 'E' ∨ c = chr 'G' then { flags with uppercase := true } else flags
      (env.floats.etoa flags prec width value, args)
  else if c = chr 'c' then
    (vaWord args).map fun (w, args) => (padded flags width 1 [w.setWidth 8], args)
  else if c = chr 's' then
    (vaWord args).bind fun (w, args) =>
    (strnlen (env.memory w.toNat) (if prec = 0 then 2 ^ 32 - 1 else prec)).bind fun l =>
    (takeString (env.memory w.toNat) (if flags.precision then some prec else none)).map fun text =>
      (padded flags width (if flags.precision then min l prec else l) text, args)
  else if c = chr 'p' then
    (vaWord args).map fun (w, args) =>
      (ntoa w.toNat false 16 prec 8 { flags with zeropad := true, uppercase := true }, args)
  else
    -- `%` and every other character
    some ([c], args)

/-- A conversion: its arguments in order, and what it writes. -/
def render (env : Environment) (d : Directive) (args : List Word) :
    Option (List Byte × List Word) :=
  (widthOf d.flags args d.width).bind fun ((flags, width), args) =>
  (precisionOf args d.precision).bind fun (prec, args) =>
    convert env d.specifier flags width prec args

/-! ## The loop -/

theorem length_atoi {i n : ℕ} {format rest : List Byte} (h : atoi i format = some (n, rest)) :
    rest.length ≤ format.length := by
  induction format generalizing i with
  | nil => cases h
  | cons c cs ih =>
    rw [atoi] at h
    split at h
    · exact Nat.le_succ_of_le (ih h)
    · exact Nat.le_of_eq (congrArg List.length (Prod.mk.inj (Option.some.inj h)).2.symm)

theorem length_evalFlags {flags flags' : Flags} {format rest : List Byte}
    (h : evalFlags flags format = some (flags', rest)) : rest.length ≤ format.length := by
  induction format generalizing flags with
  | nil => cases h
  | cons c cs ih =>
    rw [evalFlags] at h
    split at h
    · exact Nat.le_succ_of_le (ih h)
    · exact Nat.le_of_eq (congrArg List.length (Prod.mk.inj (Option.some.inj h)).2.symm)

theorem length_evalCount {count : Count} {format rest : List Byte}
    (h : evalCount format = some (count, rest)) : rest.length ≤ format.length := by
  cases format with
  | nil => cases h
  | cons c cs =>
    rw [evalCount] at h
    split at h
    · obtain ⟨⟨n, rest'⟩, hatoi, heq⟩ := Option.map_eq_some_iff.mp h
      rw [← (Prod.mk.inj heq).2]
      exact length_atoi hatoi
    · split at h
      · rw [← (Prod.mk.inj (Option.some.inj h)).2]
        exact Nat.le_succ _
      · exact Nat.le_of_eq (congrArg List.length (Prod.mk.inj (Option.some.inj h)).2.symm)

theorem length_evalPrecision {flags flags' : Flags} {count : Count} {format rest : List Byte}
    (h : evalPrecision flags format = some (flags', count, rest)) :
    rest.length ≤ format.length := by
  cases format with
  | nil => cases h
  | cons c cs =>
    rw [evalPrecision] at h
    split at h
    · obtain ⟨⟨n, rest'⟩, hcount, heq⟩ := Option.map_eq_some_iff.mp h
      rw [← (Prod.mk.inj (Prod.mk.inj heq).2).2]
      exact Nat.le_succ_of_le (length_evalCount hcount)
    · exact Nat.le_of_eq (congrArg List.length (Prod.mk.inj (Prod.mk.inj (Option.some.inj h)).2).2.symm)

theorem length_evalDouble {c : Byte} {one two flags : Flags} {format rest : List Byte}
    (h : evalDouble c one two format = some (flags, rest)) : rest.length ≤ format.length := by
  cases format with
  | nil => cases h
  | cons c' cs =>
    rw [evalDouble] at h
    split at h
    · rw [← (Prod.mk.inj (Option.some.inj h)).2]
      exact Nat.le_succ _
    · exact Nat.le_of_eq (congrArg List.length (Prod.mk.inj (Option.some.inj h)).2.symm)

theorem length_evalLength {flags flags' : Flags} {format rest : List Byte}
    (h : evalLength flags format = some (flags', rest)) : rest.length ≤ format.length := by
  cases format with
  | nil => cases h
  | cons c cs =>
    have hskip : ∀ {f : Flags}, some (f, cs) = some (flags', rest) → rest.length ≤ (c :: cs).length := by
      intro f heq
      rw [← (Prod.mk.inj (Option.some.inj heq)).2]
      exact Nat.le_succ _
    rw [evalLength] at h
    split_ifs at h
    · exact Nat.le_succ_of_le (length_evalDouble h)
    · exact Nat.le_succ_of_le (length_evalDouble h)
    · exact hskip h
    · exact hskip h
    · exact hskip h
    · exact Nat.le_of_eq (congrArg List.length (Prod.mk.inj (Option.some.inj h)).2.symm)

theorem length_directive {d : Directive} {format rest : List Byte}
    (h : directive format = some (d, rest)) : rest.length < format.length := by
  simp only [directive, Option.bind_eq_some_iff, Prod.exists] at h
  obtain ⟨flags, f₁, h₁, width, f₂, h₂, flags', prec, f₃, h₃, flags'', f₄, h₄, h₅⟩ := h
  have hlen := Nat.le_trans (length_evalLength h₄) <| Nat.le_trans (length_evalPrecision h₃) <|
    Nat.le_trans (length_evalCount h₂) (length_evalFlags h₁)
  cases f₄ with
  | nil => cases h₅
  | cons c cs =>
    obtain ⟨-, rfl⟩ := Prod.mk.inj (Option.some.inj h₅)
    exact hlen

/-- `_vsnprintf`: what is written, less the terminating 0. -/
def vsnprintf (env : Environment) : List Byte → List Word → Option (List Byte)
  | [], _ => none
  | c :: format, args =>
    if c = 0 then some []
    else if c ≠ chr '%' then (vsnprintf env format args).map (c :: ·)
    else
      match h : directive format with
      | none => none
      | some (d, rest) =>
        have : rest.length < format.length := length_directive h
        (render env d args).bind fun (text, args) => (vsnprintf env rest args).map (text ++ ·)
termination_by format => format.length

/-- `printk`: what it hands to the console. The text and the 0 behind it are all written, and
have to find their room; the console gets what the buffer can hold. -/
def printk (env : Environment) (format : List Byte) (args : List Word) : Option (List Byte) :=
  (vsnprintf env format args).bind fun text =>
    if text.length < env.room then some (text.take printkBufferSize) else none

/-! ## The buffer -/

/-- The blanks before a character or a string of length `l`. -/
def prePadding (flags : Flags) (width l : ℕ) : List Byte :=
  if flags.left then [] else spaces (width - l)

/-- What a conversion writes that a page fault stops: `%c` is padded before its argument is
read, and a string may end where nothing is mapped. -/
def convertStopped (env : Environment) (c : Byte) (flags : Flags) (width prec : ℕ)
    (args : List Word) : List Byte :=
  if c = chr 'c' then prePadding flags width 1
  else if c = chr 's' then
    match args with
    | [] => []
    | w :: _ =>
      match strnlen (env.memory w.toNat) (if prec = 0 then 2 ^ 32 - 1 else prec) with
      | none => []
      | some l =>
        prePadding flags width (if flags.precision then min l prec else l) ++ env.memory w.toNat
  else []

def renderStopped (env : Environment) (d : Directive) (args : List Word) : List Byte :=
  match widthOf d.flags args d.width with
  | none => []
  | some ((flags, width), args) =>
    match precisionOf args d.precision with
    | none => []
    | some (prec, args) => convertStopped env d.specifier flags width prec args

/-- What `out` is called with, the terminating 0 included, up to the end or to the page fault
that stops `_vsnprintf`. -/
def output (env : Environment) : List Byte → List Word → List Byte
  | [], _ => []
  | c :: format, args =>
    if c = 0 then [0]
    else if c ≠ chr '%' then c :: output env format args
    else
      match h : directive format with
      | none => []
      | some (d, rest) =>
        have : rest.length < format.length := length_directive h
        match render env d args with
        | none => renderStopped env d args
        | some (text, args) => text ++ output env rest args
termination_by format => format.length

/-- The stores of `_out_buffer` to `printkBuffer`, with the index of each. `printk` says that
the buffer has `(size_t)-1` bytes, so that no byte is dropped: the last store may be one to a
page that is not mapped. -/
def stores (env : Environment) (format : List Byte) (args : List Word) : List (Byte × ℕ) :=
  ((output env format args).take (env.room + 1)).zipIdx

/-- `printkBuffer`, and what lies behind it, after stores. -/
def contents (buffer : ℕ → Byte) (ws : List (Byte × ℕ)) : ℕ → Byte :=
  ws.foldl (fun buffer w i => if i = w.2 then w.1 else buffer i) buffer

/-- The indices that `printk` hands to the console, of a text that it has formatted. -/
def handed (text : List Byte) : List ℕ :=
  List.range (if text.length > printkBufferSize then printkBufferSize else text.length)

end Printf

end Sakura.Libk
