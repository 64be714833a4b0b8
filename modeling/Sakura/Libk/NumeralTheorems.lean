import Mathlib.Algebra.Group.Nat.Defs
import Sakura.Lib.Numeral
import Sakura.Libk.PrintkTheorems

/-!
# What an integer conversion writes reads back

A reader of numbers, which knows blanks on both sides, a sign and digits, and that it reads from
the text of an integer conversion the value of the argument (`convert_reads_iff`). The exceptions
are all of the conversion's buffer of 32 characters, and of a zero without digits: padded to the
end of the buffer a number loses its sign, and a binary number of more digits the others.
-/

namespace Sakura.Libk.Printf

open I386 (Word)

/-! ## The reader -/

/-- The digit a character stands for. -/
def digitValue (c : Byte) : Option ℕ :=
  if chr '0' ≤ c ∧ c ≤ chr '9' then some (c - chr '0').toNat
  else if chr 'a' ≤ c ∧ c ≤ chr 'f' then some ((c - chr 'a').toNat + 10)
  else if chr 'A' ≤ c ∧ c ≤ chr 'F' then some ((c - chr 'A').toNat + 10)
  else none

def isBlank (c : Byte) : Bool := c = chr ' '

/-- A text without the blanks on both sides. -/
def strip (text : List Byte) : List Byte :=
  ((text.dropWhile isBlank).reverse.dropWhile isBlank).reverse

/-- At least one digit. -/
def readDigits (base : ℕ) (text : List Byte) : Option ℕ :=
  if text = [] then none else Numeral.read digitValue base 0 text

def readSigned (base : ℕ) : List Byte → Option ℤ
  | [] => none
  | c :: cs =>
    if c = chr '-' then (readDigits base cs).map fun n => -(n : ℤ)
    else if c = chr '+' then (readDigits base cs).map fun n => (n : ℤ)
    else (readDigits base (c :: cs)).map fun n => (n : ℤ)

def readInteger (base : ℕ) (text : List Byte) : Option ℤ := readSigned base (strip text)

/-! ## Digits -/

variable {flags : Flags} {base prec width value : ℕ} {negative : Bool}

/-- A digit that is written reads back. -/
theorem digitValue_digit (flags : Flags) {d : ℕ} (hd : d < 16) :
    digitValue (digit flags d) = some d := by
  have hall : ∀ u : Bool, ∀ d < 16, digitValue (digit { uppercase := u } d) = some d := by decide
  exact hall flags.uppercase d hd

/-- The digits of a value read back to what of it there was room for. -/
theorem read_digits (flags : Flags) (hbase : 2 ≤ base ∧ base ≤ 16) (n value : ℕ) :
    Numeral.read digitValue base 0 (digits flags base n value).reverse = some (value % base ^ n) := by
  induction n generalizing value with
  | zero =>
    rw [digits, List.reverse_nil, Numeral.read, Nat.pow_zero, Nat.mod_one]
  | succ n ih =>
    have hd : value % base < base := Nat.mod_lt _ (by omega)
    rw [digits, List.reverse_cons, Numeral.read_concat (digitValue_digit flags (by omega)) hd]
    have hsplit : value % base ^ (n + 1) = value / base % base ^ n * base + value % base := by
      rw [Nat.pow_succ', Nat.mod_mul, Nat.mul_comm base, Nat.add_comm]
    by_cases hlast : value / base = 0
    · rw [if_pos hlast, hsplit, hlast, Nat.zero_mod]
      rfl
    · rw [if_neg hlast, ih, Option.map_some, hsplit]

/-- As many digits as the value needs. -/
theorem length_digits (flags : Flags) (hbase : 0 < base) {k : ℕ} (hk : 0 < k) (n : ℕ)
    (hvalue : value < base ^ k) : (digits flags base n value).length ≤ k := by
  induction k generalizing n value with
  | zero => exact absurd hk (Nat.lt_irrefl 0)
  | succ k ih =>
    cases n with
    | zero => exact Nat.zero_le _
    | succ n =>
      have hquotient : value / base < base ^ k := by
        rw [Nat.div_lt_iff_lt_mul hbase, ← Nat.pow_succ]
        exact hvalue
      rw [digits, List.length_cons]
      split_ifs with hlast
      · exact Nat.succ_le_succ (Nat.zero_le k)
      · have hpos : 0 < k := by
          by_contra hzero
          rw [Nat.eq_zero_of_not_pos hzero, Nat.pow_zero] at hquotient
          exact hlast (Nat.lt_one_iff.mp hquotient)
        exact Nat.succ_le_succ (ih hpos n hquotient)

/-- A character that stands for a digit is no blank and no sign. -/
theorem digitValue_ne {c : Byte} (hc : (digitValue c).isSome = true) :
    isBlank c = false ∧ c ≠ chr '-' ∧ c ≠ chr '+' := by
  have hblank : digitValue (chr ' ') = none := by decide
  have hminus : digitValue (chr '-') = none := by decide
  have hplus : digitValue (chr '+') = none := by decide
  refine ⟨?_, ?_, ?_⟩
  · rw [isBlank, decide_eq_false_iff_not]
    rintro rfl
    rw [hblank] at hc
    cases hc
  · rintro rfl
    rw [hminus] at hc
    cases hc
  · rintro rfl
    rw [hplus] at hc
    cases hc

/-- All that is written are digits. -/
theorem isSome_digits (flags : Flags) (hbase : 2 ≤ base ∧ base ≤ 16) (n value : ℕ) :
    ∀ c ∈ digits flags base n value, (digitValue c).isSome = true := by
  induction n generalizing value with
  | zero => exact fun c hc => absurd hc List.not_mem_nil
  | succ n ih =>
    have hd : value % base < base := Nat.mod_lt _ (by omega)
    rw [digits]
    intro c hc
    rcases List.mem_cons.mp hc with rfl | hc
    · rw [digitValue_digit flags (by omega)]
      rfl
    · split_ifs at hc
      · exact absurd hc List.not_mem_nil
      · exact ih _ c hc

/-! ## Blanks and signs -/

theorem dropWhile_spaces (n : ℕ) (text : List Byte) :
    (spaces n ++ text).dropWhile isBlank = text.dropWhile isBlank := by
  induction n with
  | zero => rfl
  | succ n ih =>
    have hblank : isBlank (chr ' ') = true := by decide
    rw [spaces, List.replicate_succ, List.cons_append, List.dropWhile_cons, if_pos hblank]
    exact ih

theorem dropWhile_of_isSome {text : List Byte} (h : ∀ c ∈ text, isBlank c = false) :
    text.dropWhile isBlank = text := by
  cases text with
  | nil => rfl
  | cons c cs => rw [List.dropWhile_cons, h c List.mem_cons_self, if_neg Bool.false_ne_true]

/-- The blanks around a text are stripped. -/
theorem strip_spaces (a b : ℕ) {text : List Byte} (h : ∀ c ∈ text, isBlank c = false) :
    strip (spaces a ++ text ++ spaces b) = text := by
  have hreverse : (spaces b).reverse = spaces b := List.reverse_replicate
  rw [strip, List.append_assoc, dropWhile_spaces]
  cases text with
  | nil =>
    have hall := dropWhile_spaces b []
    rw [List.append_nil] at hall
    rw [List.nil_append, hall]
    rfl
  | cons c cs =>
    rw [List.cons_append, List.dropWhile_cons, h c List.mem_cons_self, if_neg Bool.false_ne_true,
      ← List.cons_append, List.reverse_append, hreverse, dropWhile_spaces,
      dropWhile_of_isSome fun d hd => h d (List.mem_reverse.mp hd), List.reverse_reverse]

/-- The sign that `ntoaSign` writes where there is room. -/
def signOf (negative : Bool) (flags : Flags) : List Byte :=
  if negative then [chr '-'] else if flags.plus then [chr '+'] else if flags.space then [chr ' ']
  else []

theorem reverse_signOf (negative : Bool) (flags : Flags) :
    (signOf negative flags).reverse = signOf negative flags := by
  rw [signOf]
  split_ifs <;> rfl

/-- A sign is written if the buffer has room. -/
theorem ntoaSign_eq (buf : List Byte) (negative : Bool) (flags : Flags) :
    ntoaSign buf negative flags =
      buf ++ if buf.length < ntoaBufferSize then signOf negative flags else [] := by
  rw [ntoaSign, signOf]
  split_ifs <;> simp_all [pushChar]

/-- The buffer comes out from its end, with blanks on either side. -/
theorem outRev_eq (flags : Flags) (width : ℕ) (buf : List Byte) :
    ∃ a b, outRev flags width buf = spaces a ++ buf.reverse ++ spaces b := by
  refine ⟨if !flags.left && !flags.zeropad then width - buf.length else 0,
    if flags.left then width - buf.length else 0, ?_⟩
  rw [outRev]
  split_ifs <;> rfl

/-- A text of digits reads as a number. -/
theorem readInteger_digits (base a b : ℕ) {text : List Byte}
    (h : ∀ c ∈ text, (digitValue c).isSome = true) :
    readInteger base (spaces a ++ text ++ spaces b) = (readDigits base text).map fun n => (n : ℤ) := by
  rw [readInteger, strip_spaces a b fun c hc => (digitValue_ne (h c hc)).1]
  cases text with
  | nil => rfl
  | cons c cs =>
    obtain ⟨-, hminus, hplus⟩ := digitValue_ne (h c List.mem_cons_self)
    rw [readSigned, if_neg hminus, if_neg hplus]

/-- So does one with a sign. -/
theorem readInteger_sign (base a b : ℕ) {sign : Byte} {text : List Byte}
    (hsign : isBlank sign = false) (h : ∀ c ∈ text, (digitValue c).isSome = true) :
    readInteger base (spaces a ++ sign :: text ++ spaces b) = readSigned base (sign :: text) := by
  rw [readInteger, strip_spaces a b]
  intro c hc
  rcases List.mem_cons.mp hc with rfl | hc
  · exact hsign
  · exact (digitValue_ne (h c hc)).1

/-- Digits with the sign before them, between blanks. -/
theorem readInteger_signOf (base a b : ℕ) (negative : Bool) (flags : Flags) {text : List Byte}
    (h : ∀ c ∈ text, (digitValue c).isSome = true) :
    readInteger base (spaces a ++ (signOf negative flags ++ text) ++ spaces b) =
      (readDigits base text).map fun n => if negative then -(n : ℤ) else n := by
  rw [signOf]
  split_ifs with hnegative hplus hspace
  · exact readInteger_sign base a b (by decide) h
  · exact readInteger_sign base a b (by decide) h
  · -- This sign is one more blank.
    have hblank : spaces a ++ ([chr ' '] ++ text) = spaces (a + 1) ++ text := by
      rw [spaces, spaces, List.replicate_succ', List.append_assoc]
    rw [hblank]
    exact readInteger_digits base (a + 1) b h
  · exact readInteger_digits base a b h

/-! ## What `ntoa` writes -/

/-- The width `ntoaPad` pads to. -/
def padWidth (negative : Bool) (width : ℕ) (flags : Flags) : ℕ :=
  if flags.zeropad && (negative || flags.plus || flags.space) then width - 1 else width

/-- How many digits `ntoaPad` makes of `n`. -/
def paddedLength (n : ℕ) (negative : Bool) (prec width : ℕ) (flags : Flags) : ℕ :=
  if flags.left then n
  else max (max n (min prec ntoaBufferSize))
    (if flags.zeropad then min (padWidth negative width flags) ntoaBufferSize else 0)

/-- Zeros are added up to the width that is padded to. -/
theorem ntoaPad_eq (buf : List Byte) (negative : Bool) (prec width : ℕ) (flags : Flags) :
    ∃ k, (ntoaPad buf negative prec width flags).1 = buf ++ List.replicate k (chr '0') ∧
      buf.length + k = paddedLength buf.length negative prec width flags := by
  rw [ntoaPad, paddedLength]
  cases flags.left with
  | true => exact ⟨0, (List.append_nil buf).symm, rfl⟩
  | false =>
    simp only [Bool.false_eq_true, if_false]
    cases hzeropad : flags.zeropad with
    | false =>
      refine ⟨min prec ntoaBufferSize - buf.length, rfl, ?_⟩
      rw [if_neg Bool.false_ne_true]
      omega
    | true =>
      have hwidth : (if true && (negative || flags.plus || flags.space) then width - 1 else width) =
          padWidth negative width flags := by
        rw [padWidth, hzeropad]
      rw [hwidth, if_pos rfl, if_pos rfl]
      refine ⟨(min prec ntoaBufferSize - buf.length) + (min (padWidth negative width flags)
        ntoaBufferSize - (padZeros buf prec).length), ?_, ?_⟩
      · rw [← List.replicate_append_replicate, ← List.append_assoc]
        rfl
      · rw [padZeros, List.length_append, List.length_replicate]
        omega

/-- What `ntoa` writes reads back to what of the value there was room for. The sign is lost when
the digits have filled the buffer. -/
theorem readInteger_ntoa (flags : Flags) (prec width value : ℕ) (negative : Bool)
    (hbase : 2 ≤ base ∧ base ≤ 16) (hhash : flags.hash = false) :
    let n := if flags.precision = true ∧ value = 0 then 0
      else (digits flags base ntoaBufferSize value).length
    let padded := paddedLength n negative prec width flags
    readInteger base (ntoa value negative base prec width flags) =
      if padded = 0 then none
      else some (if negative = true ∧ padded < ntoaBufferSize then
        -((value % base ^ ntoaBufferSize : ℕ) : ℤ) else (value % base ^ ntoaBufferSize : ℕ)) := by
  intro n padded
  obtain ⟨buf, hbuf⟩ : ∃ buf, buf = if !flags.precision || value ≠ 0 then
      digits flags base ntoaBufferSize value else [] := ⟨_, rfl⟩
  -- With a precision a zero has no digits, and reads as one all the same.
  obtain ⟨hlength, hread, hsome⟩ : buf.length = n ∧
      Numeral.read digitValue base 0 buf.reverse = some (value % base ^ ntoaBufferSize) ∧
      ∀ c ∈ buf, (digitValue c).isSome = true := by
    by_cases hnone : flags.precision = true ∧ value = 0
    · have hnil : buf = [] := by rw [hbuf, hnone.1, hnone.2]; rfl
      have hn : n = 0 := if_pos hnone
      rw [hnil, hn, hnone.2, Nat.zero_mod]
      exact ⟨rfl, rfl, fun c hc => absurd hc List.not_mem_nil⟩
    · have hdigits : buf = digits flags base ntoaBufferSize value := by
        rw [hbuf, if_pos]
        cases hprec : flags.precision with
        | false => rfl
        | true => simpa [hprec] using hnone
      have hn : n = (digits flags base ntoaBufferSize value).length := if_neg hnone
      rw [hdigits, hn]
      exact ⟨rfl, read_digits flags hbase _ _, isSome_digits flags hbase _ _⟩
  have hflags : (if value = 0 then { flags with hash := false } else flags) = flags := by
    split_ifs
    · rw [← hhash]
    · rfl
  obtain ⟨k, hpad, hk⟩ := ntoaPad_eq buf negative prec width flags
  rw [hlength] at hk
  obtain ⟨a, b, hrev⟩ := outRev_eq flags (ntoaPad buf negative prec width flags).2
    (ntoaSign (ntoaPad buf negative prec width flags).1 negative flags)
  have hntoa : ntoa value negative base prec width flags = spaces a ++
      (ntoaSign (ntoaPad buf negative prec width flags).1 negative flags).reverse ++ spaces b := by
    rw [← hrev, ntoa]
    simp only [hflags]
    rw [← hbuf, ntoaFormat]
    simp only [ntoaHash, hhash, Bool.false_eq_true, if_false]
  -- The text is the sign, zeros and the digits.
  obtain ⟨text, htext⟩ : ∃ text, text = List.replicate k (chr '0') ++ buf.reverse := ⟨_, rfl⟩
  have hzero : digitValue (chr '0') = some 0 := by decide
  have hsome' : ∀ c ∈ text, (digitValue c).isSome = true := by
    rw [htext]
    intro c hc
    rcases List.mem_append.mp hc with hc | hc
    · rw [List.eq_of_mem_replicate hc, hzero]
      rfl
    · exact hsome c (List.mem_reverse.mp hc)
  have hlength' : text.length = padded := by
    rw [htext, List.length_append, List.length_replicate, List.length_reverse, hlength,
      Nat.add_comm]
    exact hk
  have hread' : readDigits base text =
      if padded = 0 then none else some (value % base ^ ntoaBufferSize) := by
    rw [readDigits, ← hlength']
    simp only [List.length_eq_zero_iff]
    split_ifs
    · rfl
    · rw [htext, Numeral.read_zeros hzero (by omega), hread]
  have hreverse : (buf ++ List.replicate k (chr '0')).reverse = text := by
    rw [htext, List.reverse_append, List.reverse_replicate]
  have hpadded : (buf ++ List.replicate k (chr '0')).length = padded := by
    rw [← List.length_reverse, hreverse, hlength']
  rw [hntoa, ntoaSign_eq, hpad, List.reverse_append, hreverse, hpadded]
  by_cases hroom : padded < ntoaBufferSize
  · rw [if_pos hroom, reverse_signOf, readInteger_signOf base a b negative flags hsome', hread']
    split_ifs <;> simp_all
  · rw [if_neg hroom, List.reverse_nil, List.nil_append, readInteger_digits base a b hsome', hread']
    split_ifs <;> simp_all

/-! ## Arguments -/

def valueOf (c : Byte) {w : ℕ} (v : BitVec w) : ℤ := if isSigned c then v.toInt else v.toNat

/-- The integer an argument is, as its type has it. -/
def integerValue (c : Byte) (flags : Flags) (args : List Word) : Option ℤ :=
  if flags.longLong then (vaTwo args).map fun x => valueOf c (x.1.2 ++ x.1.1)
  else (vaWord args).map fun x =>
    if flags.long then valueOf c x.1
    else if flags.char then valueOf c (x.1.setWidth 8)
    else if flags.short then valueOf c (x.1.setWidth 16)
    else valueOf c x.1

/-- The magnitude and the sign of an argument. -/
def magnitude (c : Byte) {w : ℕ} (v : BitVec w) : ℕ × Bool :=
  if isSigned c && v.msb then ((-v).toNat, true) else (v.toNat, false)

/-- The value is the magnitude with its sign. -/
theorem magnitude_spec {c : Byte} {w : ℕ} {v : BitVec w} (h : magnitude c v = (value, negative)) :
    valueOf c v = (if negative then -(value : ℤ) else value) ∧
    (negative = true → value ≠ 0 ∧ isSigned c = true) ∧ value < 2 ^ w := by
  have hlt := v.isLt
  rw [magnitude] at h
  rw [valueOf]
  cases hsigned : isSigned c with
  | false =>
    rw [hsigned] at h
    obtain ⟨rfl, rfl⟩ := Prod.mk.inj h
    exact ⟨rfl, by simp, hlt⟩
  | true =>
    rw [hsigned, Bool.true_and] at h
    rw [BitVec.toInt_eq_msb_cond]
    cases hmsb : v.msb with
    | false =>
      rw [hmsb] at h
      obtain ⟨rfl, rfl⟩ := Prod.mk.inj h
      exact ⟨rfl, by simp, hlt⟩
    | true =>
      rw [hmsb] at h
      obtain ⟨rfl, rfl⟩ := Prod.mk.inj h
      have hge := BitVec.msb_eq_true_iff_two_mul_ge.mp hmsb
      have hneg : (-v).toNat = 2 ^ w - v.toNat := by
        rw [BitVec.toNat_neg]
        exact Nat.mod_eq_of_lt (by omega)
      have hpow : ((2 ^ w : ℕ) : ℤ) = 2 ^ w := Int.natCast_pow 2 w
      rw [hneg]
      refine ⟨?_, fun _ => ⟨by omega, rfl⟩, by omega⟩
      rw [if_pos rfl, if_pos rfl, if_pos rfl]
      omega

/-- Promoted to an `int`, an argument is the same number. -/
theorem valueOf_promoted (c : Byte) {w : ℕ} (v : BitVec w) (hw : w ≤ 32) :
    valueOf c (if isSigned c then v.signExtend 32 else v.setWidth 32) = valueOf c v := by
  rw [valueOf, valueOf]
  split_ifs
  · exact BitVec.toInt_signExtend_of_le hw
  · rw [BitVec.toNat_setWidth_of_le hw]

/-- The argument of a conversion, as magnitude and sign. -/
theorem integerArg_spec {c : Byte} {args rest : List Word} (harg : integerArg c flags args =
    some ((value, negative), rest)) :
    integerValue c flags args = some (if negative then -(value : ℤ) else value) ∧
    (negative = true → value ≠ 0 ∧ isSigned c = true) ∧ value < 2 ^ 64 := by
  rw [integerArg] at harg
  rw [integerValue]
  by_cases hlong : flags.longLong = true
  · rw [if_pos hlong] at harg ⊢
    obtain ⟨⟨⟨low, high⟩, args'⟩, htwo, heq⟩ := Option.map_eq_some_iff.mp harg
    have hmagnitude : magnitude c (high ++ low) = (value, negative) := congrArg Prod.fst heq
    obtain ⟨hvalue, hrest⟩ := magnitude_spec hmagnitude
    rw [htwo, Option.map_some, ← hvalue]
    exact ⟨rfl, hrest⟩
  · rw [if_neg hlong] at harg ⊢
    obtain ⟨⟨w, args'⟩, hword, heq⟩ := Option.map_eq_some_iff.mp harg
    have hmagnitude : magnitude c (if flags.long then w
        else if flags.char then
          (if isSigned c then (w.setWidth 8).signExtend 32 else (w.setWidth 8).setWidth 32)
        else if flags.short then
          (if isSigned c then (w.setWidth 16).signExtend 32 else (w.setWidth 16).setWidth 32)
        else w) = (value, negative) := congrArg Prod.fst heq
    obtain ⟨hvalue, hsign, hlt⟩ := magnitude_spec hmagnitude
    rw [hword, Option.map_some, ← hvalue]
    refine ⟨?_, hsign, Nat.lt_trans hlt (by decide)⟩
    refine congrArg some ?_
    simp only
    by_cases hl : flags.long = true
    · rw [if_pos hl, if_pos hl]
    rw [if_neg hl, if_neg hl]
    by_cases hchar : flags.char = true
    · rw [if_pos hchar, if_pos hchar]
      exact (valueOf_promoted c (w.setWidth 8) (by decide)).symm
    rw [if_neg hchar, if_neg hchar]
    by_cases hshort : flags.short = true
    · rw [if_pos hshort, if_pos hshort]
      exact (valueOf_promoted c (w.setWidth 16) (by decide)).symm
    rw [if_neg hshort, if_neg hshort]

/-! ## Integer conversions -/

/-- The base of a conversion, which is ten for the signed ones. -/
theorem baseOf_spec {c : Byte} (hc : c ∈ integerSpecifiers) :
    (2 ≤ baseOf c ∧ baseOf c ≤ 16) ∧ (isSigned c = true → baseOf c = 10) := by
  have hall : ∀ c ∈ integerSpecifiers, (2 ≤ baseOf c ∧ baseOf c ≤ 16) ∧
      (isSigned c = true → baseOf c = 10) := by decide
  exact hall c hc

theorem integerFlags_zeropad (c : Byte) (flags : Flags) :
    (integerFlags c flags).zeropad = (flags.zeropad && !flags.precision) := by
  rw [integerFlags]
  cases h : flags.precision <;> split_ifs <;> simp_all

theorem integerFlags_hash (c : Byte) (flags : Flags) (h : flags.hash = true → baseOf c = 10) :
    (integerFlags c flags).hash = false := by
  have hhash : (if baseOf c = 10 then { flags with hash := false } else flags).hash = false := by
    split_ifs with hten
    · rfl
    · simpa [hten] using h
  rw [integerFlags]
  split_ifs at hhash ⊢ <;> exact hhash

/-- What a conversion needs for its text to be read back: a zero some digit, a negative number
room for the sign, and every number room for its digits. -/
def Legible (c : Byte) (flags : Flags) (width prec : ℕ) (z : ℤ) : Prop :=
  (z = 0 → flags.precision = true → flags.left = false ∧ 0 < prec) ∧
  (z < 0 → flags.left = false → prec < ntoaBufferSize ∧
    (flags.zeropad = true → flags.precision = false → width ≤ ntoaBufferSize)) ∧
  z < (baseOf c ^ ntoaBufferSize : ℕ)

/-- Only a zero with a precision has no digits, and it is padded by the precision alone. -/
theorem paddedLength_eq_zero {n : ℕ} (hn : n = 0 → flags.precision = true)
    (hzeropad : flags.precision = true → flags.zeropad = false) :
    paddedLength n negative prec width flags = 0 ↔ n = 0 ∧ (flags.left = true ∨ prec = 0) := by
  have hsize : ntoaBufferSize = 32 := rfl
  rw [paddedLength]
  cases flags.left with
  | true => simp
  | false =>
    simp only [Bool.false_eq_true, if_false, false_or]
    constructor
    · intro hzero
      omega
    · rintro ⟨hzero, hprec⟩
      rw [hzeropad (hn hzero), if_neg Bool.false_ne_true]
      omega

/-- The room for the sign of a negative number. -/
theorem paddedLength_lt {n : ℕ} (hn : n < ntoaBufferSize) :
    paddedLength n true prec width flags < ntoaBufferSize ↔
      (flags.left = false → prec < ntoaBufferSize ∧
        (flags.zeropad = true → width ≤ ntoaBufferSize)) := by
  have hsize : ntoaBufferSize = 32 := rfl
  rw [paddedLength, padWidth]
  cases flags.left with
  | true => simp [hn]
  | false =>
    simp only [Bool.false_eq_true, if_false, true_imp_iff]
    cases flags.zeropad with
    | false =>
      simp only [Bool.false_eq_true, if_false, false_imp_iff, and_true]
      omega
    | true =>
      simp only [Bool.true_or, Bool.and_self, if_true, true_imp_iff]
      omega

/-- The text of an integer conversion, whatever its width, precision, flags but `#`, and length,
reads back to the argument exactly when it is legible. -/
theorem convert_reads_iff (env : Environment) {c : Byte} {args rest : List Word} {text : List Byte}
    {z : ℤ} (hc : c ∈ integerSpecifiers) (hhash : flags.hash = true → baseOf c = 10)
    (hconvert : convert env c flags width prec args = some (text, rest))
    (hz : integerValue c flags args = some z) :
    readInteger (baseOf c) text = some z ↔ Legible c flags width prec z := by
  obtain ⟨hbase, hsigned⟩ := baseOf_spec hc
  have hleft := integerFlags_left c flags
  have hprecision := integerFlags_precision c flags
  have hzeropad := integerFlags_zeropad c flags
  rw [convert, if_pos hc, Option.map_eq_some_iff] at hconvert
  obtain ⟨⟨⟨value, negative⟩, args'⟩, harg, heq⟩ := hconvert
  obtain ⟨rfl, -⟩ := Prod.mk.inj heq
  obtain ⟨hvalue, hnegative, hlt⟩ := integerArg_spec harg
  rw [hz] at hvalue
  obtain rfl := Option.some.inj hvalue
  have hread := readInteger_ntoa (integerFlags c flags) prec width value negative hbase
    (integerFlags_hash c flags hhash)
  obtain ⟨n, hn⟩ : ∃ n, n = if (integerFlags c flags).precision = true ∧ value = 0 then 0
      else (digits (integerFlags c flags) (baseOf c) ntoaBufferSize value).length := ⟨_, rfl⟩
  simp only at hread
  rw [← hn] at hread
  have hn_zero : n = 0 ↔ flags.precision = true ∧ value = 0 := by
    rw [hn, hprecision]
    split_ifs with hnone
    · exact ⟨fun _ => hnone, fun _ => rfl⟩
    · refine ⟨fun hnil => ?_, fun h => absurd h hnone⟩
      exact absurd (List.length_eq_zero_iff.mp hnil) (digits_ne_nil _ _ _ _)
  have hzero : paddedLength n negative prec width (integerFlags c flags) = 0 ↔
      (flags.precision = true ∧ value = 0) ∧ (flags.left = true ∨ prec = 0) := by
    rw [paddedLength_eq_zero, hn_zero, hleft]
    · intro hnil
      rw [hprecision]
      exact (hn_zero.mp hnil).1
    · intro hprec
      rw [hprecision] at hprec
      rw [hzeropad, hprec]
      exact Bool.and_false _
  rw [hread, Legible]
  obtain ⟨padded, hpadded⟩ : ∃ p, p = paddedLength n negative prec width (integerFlags c flags) :=
    ⟨_, rfl⟩
  rw [← hpadded] at hzero ⊢
  cases negative with
  | false =>
    simp only [Bool.false_eq_true, false_and, if_false]
    constructor
    · intro h
      split_ifs at h with hnone
      have hmod := Int.natCast_inj.mp (Option.some.inj h)
      have hlt := Nat.mod_lt value (Nat.pow_pos (n := ntoaBufferSize) (Nat.lt_of_lt_of_le Nat.two_pos
        hbase.1))
      refine ⟨fun hz hprec => ?_, fun hneg => absurd hneg (by omega), by omega⟩
      have hsome := mt hzero.mpr hnone
      have hvalue : value = 0 := by omega
      simp only [hprec, hvalue, and_self, true_and, not_or, Bool.not_eq_true] at hsome
      exact ⟨hsome.1, Nat.pos_of_ne_zero hsome.2⟩
    · rintro ⟨hdigits, -, hfits⟩
      have hpos : padded ≠ 0 := by
        intro h
        obtain ⟨⟨hprec, rfl⟩, hnone⟩ := hzero.mp h
        obtain ⟨hl, hp⟩ := hdigits rfl hprec
        rcases hnone with hnone | hnone
        · rw [hl] at hnone
          cases hnone
        · omega
      rw [if_neg hpos, Nat.mod_eq_of_lt (by omega)]
  | true =>
    obtain ⟨hvalue, hsign⟩ := hnegative rfl
    have hten := hsigned hsign
    have hpos : padded ≠ 0 := fun h => hvalue (hzero.mp h).1.2
    have hsize : ntoaBufferSize = 32 := rfl
    -- A number with a sign is decimal, and has at most twenty digits.
    have hshort : n < ntoaBufferSize := by
      have hlength := length_digits (integerFlags c flags) (by decide) (k := 20)
        (by decide) ntoaBufferSize (Nat.lt_trans hlt (by decide : 2 ^ 64 < 10 ^ 20))
      rw [hn, if_neg fun h => hvalue h.2, hten]
      omega
    have hroom : padded < ntoaBufferSize ↔ (flags.left = false → prec < ntoaBufferSize ∧
        (flags.zeropad = true → flags.precision = false → width ≤ ntoaBufferSize)) := by
      rw [hpadded, paddedLength_lt hshort, hleft, hzeropad]
      simp [and_imp]
    have hmod : value % baseOf c ^ ntoaBufferSize = value := by
      rw [hten]
      exact Nat.mod_eq_of_lt (Nat.lt_trans hlt (by decide))
    rw [if_neg hpos, hmod]
    simp only [if_true, true_and]
    constructor
    · intro h
      have hp : padded < ntoaBufferSize := by
        by_contra hp
        rw [if_neg hp] at h
        have := Option.some.inj h
        omega
      exact ⟨fun hz => absurd hz (by omega), fun _ => hroom.mp hp, by omega⟩
    · rintro ⟨-, hsigned, -⟩
      rw [if_pos (hroom.mpr (hsigned (by omega)))]

/-- `%8d`, and `%.40d`, which loses the sign. -/
theorem convert_reads_minus :
    readInteger 10 (spaces 5 ++ [chr '-', chr '4', chr '2']) = some (-42) ∧
    readInteger 10 (List.replicate 30 (chr '0') ++ [chr '4', chr '2']) ≠ some (-42) := by
  constructor
  · have hconvert : convert bareEnv (chr 'd') {} 8 0 [-42] =
        some (spaces 5 ++ [chr '-', chr '4', chr '2'], []) := by decide
    exact (convert_reads_iff bareEnv (by decide) (by decide) hconvert rfl).mpr
      ⟨by decide, by decide, by decide⟩
  · have hconvert : convert bareEnv (chr 'd') { precision := true } 0 40 [-42] =
        some (List.replicate 30 (chr '0') ++ [chr '4', chr '2'], []) := by decide
    intro h
    have hlegible := (convert_reads_iff bareEnv (by decide) (by decide) hconvert rfl).mp h
    exact absurd (hlegible.2.1 (by decide) rfl).1 (by decide)

end Sakura.Libk.Printf
