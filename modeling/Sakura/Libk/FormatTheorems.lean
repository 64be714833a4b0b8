import Mathlib.Data.List.Basic
import Mathlib.Data.List.Induction
import Mathlib.Data.Nat.Digits.Defs
import Sakura.Libk.PrintkTheorems

/-!
# The language of formats

A format is a list of pieces: characters, and conversions of which each part is there or not.
`vsnprintf` accepts exactly the formats that consist of pieces, and writes piece after piece
(`vsnprintf_iff`). No format has two readings (`pieces_unique`), and a conversion with one of the
documented specifiers is read as it is meant, whatever comes behind it (`vsnprintf_documented`).
-/

namespace Sakura.Libk.Printf

open I386 (Word)

/-! ## Conversions as they are written -/

/-- The characters between the `%` and the width. -/
inductive FlagChar where
  | zero
  | minus
  | plus
  | space
  | hash
deriving DecidableEq

def FlagChar.char : FlagChar → Byte
  | zero => chr '0'
  | minus => chr '-'
  | plus => chr '+'
  | space => chr ' '
  | hash => chr '#'

def FlagChar.set (flags : Flags) : FlagChar → Flags
  | zero => { flags with zeropad := true }
  | minus => { flags with left := true }
  | plus => { flags with plus := true }
  | space => { flags with space := true }
  | hash => { flags with hash := true }

def digitChar (d : Fin 10) : Byte := BitVec.ofNat 8 ((chr '0').toNat + d)

/-- The number that digits are written for. -/
def decimal (ds : List (Fin 10)) : ℕ := Nat.ofDigits 10 (ds.reverse.map Fin.val)

/-- A width or a precision. -/
inductive CountText where
  | nothing
  | number (d : Fin 10) (ds : List (Fin 10))
  | star
deriving DecidableEq

def CountText.text : CountText → List Byte
  | nothing => []
  | number d ds => (d :: ds).map digitChar
  | star => [chr '*']

/-- Nobody looks whether the number fits into 32 bits. -/
def CountText.count : CountText → Count
  | nothing => .given 0
  | number d ds => .given (decimal (d :: ds) % 2 ^ 32)
  | star => .star

def precisionText : Option CountText → List Byte
  | none => []
  | some p => chr '.' :: p.text

def setPrecision (flags : Flags) : Option CountText → Flags
  | none => flags
  | some _ => { flags with precision := true }

/-- The size of the argument. -/
inductive LengthText where
  | nothing
  | h
  | hh
  | l
  | ll
  | t
  | j
  | z
deriving DecidableEq

def LengthText.text : LengthText → List Byte
  | nothing => []
  | h => [chr 'h']
  | hh => [chr 'h', chr 'h']
  | l => [chr 'l']
  | ll => [chr 'l', chr 'l']
  | t => [chr 't']
  | j => [chr 'j']
  | z => [chr 'z']

def LengthText.set (flags : Flags) : LengthText → Flags
  | nothing => flags
  | h => { flags with short := true }
  | hh => { flags with short := true, char := true }
  | l => { flags with long := true }
  | ll => { flags with long := true, longLong := true }
  | t => { flags with long := true }
  | j => { flags with longLong := true }
  | z => { flags with long := true }

/-- What stands behind a `%`. -/
structure Conversion where
  flags : List FlagChar
  width : CountText
  precision : Option CountText
  length : LengthText
  specifier : Byte
deriving DecidableEq

namespace Conversion

def afterPrecision (d : Conversion) : List Byte := d.length.text ++ [d.specifier]
def afterWidth (d : Conversion) : List Byte := precisionText d.precision ++ d.afterPrecision
def afterFlags (d : Conversion) : List Byte := d.width.text ++ d.afterWidth
def text (d : Conversion) : List Byte := d.flags.map FlagChar.char ++ d.afterFlags

/-- What it means. -/
def directive (d : Conversion) : Directive where
  flags := d.length.set (setPrecision (d.flags.foldl FlagChar.set {}) d.precision)
  width := d.width.count
  precision := (d.precision.getD .nothing).count
  specifier := d.specifier

end Conversion

/-! ## Where a part ends -/

/-- The text begins with a character for which `P` holds. -/
def Begins (P : Byte → Prop) (text : List Byte) : Prop := ∃ c ∈ text.head?, P c

/-- No flag is taken for another one. -/
def FlagsEnd : List Byte → Prop := Begins fun c => ∀ x : FlagChar, x.char ≠ c

def CountText.End : CountText → List Byte → Prop
  | nothing => Begins fun c => isDigit c = false ∧ c ≠ chr '*'
  | number _ _ => Begins fun c => isDigit c = false
  | star => fun _ => True

def PrecisionEnd : Option CountText → List Byte → Prop
  | none => Begins fun c => c ≠ chr '.'
  | some p => p.End

def LengthText.End : LengthText → List Byte → Prop
  | nothing => Begins fun c => c ∉ [chr 'l', chr 'h', chr 't', chr 'j', chr 'z']
  | h => Begins fun c => c ≠ chr 'h'
  | l => Begins fun c => c ≠ chr 'l'
  | _ => fun _ => True

/-- Each part is as long as it can be. -/
structure Conversion.WellFormed (d : Conversion) : Prop where
  flags : FlagsEnd d.afterFlags
  width : d.width.End d.afterWidth
  precision : PrecisionEnd d.precision d.afterPrecision
  length : d.length.End [d.specifier]

section

variable {P : Byte → Prop} {text rest format : List Byte} {c : Byte}

theorem begins_cons : Begins P (c :: rest) ↔ P c := by simp [Begins]

/-- Only the text itself decides how it begins, unless it is empty. -/
theorem begins_append (hne : text ≠ []) : Begins P (text ++ rest) ↔ Begins P text := by
  cases text with
  | nil => exact absurd rfl hne
  | cons c text => rw [List.cons_append, begins_cons, begins_cons]

/-- A text that ends a width ends it whatever comes behind it. -/
theorem countEnd_append (w : CountText) (hne : text ≠ []) : w.End (text ++ rest) ↔ w.End text := by
  cases w with
  | nothing => exact begins_append hne
  | number d ds => exact begins_append hne
  | star => exact Iff.rfl

/-- The same for a precision. -/
theorem precisionEnd_append (p : Option CountText) (hne : text ≠ []) :
    PrecisionEnd p (text ++ rest) ↔ PrecisionEnd p text := by
  cases p with
  | none => exact begins_append hne
  | some p => exact countEnd_append p hne

end

/-! ## Reading the parts -/

theorem flagOf_char (flags : Flags) (x : FlagChar) : flagOf flags x.char = some (x.set flags) := by
  cases x <;> rfl

/-- Every other character ends the flags. -/
theorem flagOf_of_ne {c : Byte} (flags : Flags) (h : ∀ x : FlagChar, x.char ≠ c) :
    flagOf flags c = none := by
  have hzero := (h .zero).symm
  have hminus := (h .minus).symm
  have hplus := (h .plus).symm
  have hspace := (h .space).symm
  have hhash := (h .hash).symm
  simp only [FlagChar.char] at hzero hminus hplus hspace hhash
  rw [flagOf, if_neg hzero, if_neg hminus, if_neg hplus, if_neg hspace, if_neg hhash]

/-- The flags that are read are all there are up to the first character that is none. -/
theorem evalFlags_iff {flags flags' : Flags} {format rest : List Byte} :
    evalFlags flags format = some (flags', rest) ↔
      ∃ xs : List FlagChar, format = xs.map FlagChar.char ++ rest ∧
        flags' = xs.foldl FlagChar.set flags ∧ FlagsEnd rest := by
  induction format generalizing flags with
  | nil =>
    refine iff_of_false (by rintro ⟨⟩) ?_
    rintro ⟨xs, hformat, -, c, hc, -⟩
    rw [(List.append_eq_nil_iff.mp hformat.symm).2] at hc
    cases hc
  | cons c cs ih =>
    by_cases hflag : ∃ x : FlagChar, x.char = c
    · obtain ⟨x, rfl⟩ := hflag
      rw [evalFlags, flagOf_char]
      show evalFlags _ cs = _ ↔ _
      rw [ih]
      constructor
      · rintro ⟨xs, rfl, rfl, hend⟩
        exact ⟨x :: xs, rfl, rfl, hend⟩
      · rintro ⟨xs, hformat, rfl, hend⟩
        cases xs with
        | nil =>
          -- the flags would end before a flag
          obtain rfl : _ = rest := hformat
          exact absurd rfl (begins_cons.mp hend x)
        | cons y xs =>
          obtain ⟨hchar, rfl⟩ := List.cons.inj hformat
          obtain rfl : x = y := by
            revert hchar
            cases x <;> cases y <;> decide
          exact ⟨xs, rfl, rfl, hend⟩
    · have hne : ∀ x : FlagChar, x.char ≠ c := fun x hx => hflag ⟨x, hx⟩
      rw [evalFlags, flagOf_of_ne flags hne]
      constructor
      · intro heq
        obtain ⟨rfl, rfl⟩ := Prod.mk.inj (Option.some.inj heq)
        exact ⟨[], rfl, rfl, begins_cons.mpr hne⟩
      · rintro ⟨xs, hformat, rfl, -⟩
        cases xs with
        | nil =>
          obtain rfl : _ = rest := hformat
          rfl
        | cons y xs => exact absurd (List.cons.inj hformat).1.symm (hne y)

theorem isDigit_digitChar : ∀ d : Fin 10, isDigit (digitChar d) = true := by decide

theorem digitChar_sub : ∀ d : Fin 10, (digitChar d - chr '0').toNat = d.val := by decide

/-- The digits are the characters from `0` to `9`. -/
theorem isDigit_iff {c : Byte} : isDigit c = true ↔ ∃ d, digitChar d = c := by
  constructor
  · intro h
    simp only [isDigit, Bool.and_eq_true, decide_eq_true_eq, BitVec.le_def] at h
    have hzero : (chr '0').toNat = 48 := rfl
    have hnine : (chr '9').toNat = 57 := rfl
    refine ⟨⟨c.toNat - 48, by omega⟩, ?_⟩
    apply BitVec.eq_of_toNat_eq
    rw [digitChar, BitVec.toNat_ofNat, hzero]
    show (48 + (c.toNat - 48)) % 256 = c.toNat
    omega
  · rintro ⟨d, rfl⟩
    exact isDigit_digitChar d

/-- One step of `_atoi`. -/
def atoiStep (i : ℕ) (d : Fin 10) : ℕ := (i * 10 + d) % 2 ^ 32

/-- `_atoi` takes all the digits that stand there. -/
theorem atoi_iff {i n : ℕ} {format rest : List Byte} : atoi i format = some (n, rest) ↔
    ∃ ds : List (Fin 10), format = ds.map digitChar ++ rest ∧ n = ds.foldl atoiStep i ∧
      Begins (fun c => isDigit c = false) rest := by
  induction format generalizing i with
  | nil =>
    refine iff_of_false (by rintro ⟨⟩) ?_
    rintro ⟨ds, hformat, -, c, hc, -⟩
    rw [(List.append_eq_nil_iff.mp hformat.symm).2] at hc
    cases hc
  | cons c cs ih =>
    by_cases hdigit : isDigit c = true
    · obtain ⟨d, rfl⟩ := isDigit_iff.mp hdigit
      rw [atoi, if_pos hdigit, digitChar_sub, ih]
      constructor
      · rintro ⟨ds, rfl, rfl, hend⟩
        exact ⟨d :: ds, rfl, rfl, hend⟩
      · rintro ⟨ds, hformat, rfl, hend⟩
        cases ds with
        | nil =>
          obtain rfl : _ = rest := hformat
          rw [begins_cons, hdigit] at hend
          cases hend
        | cons e ds =>
          obtain ⟨hchar, rfl⟩ := List.cons.inj hformat
          have hsame : d = e := Fin.ext (by rw [← digitChar_sub, hchar, digitChar_sub])
          exact ⟨ds, rfl, by rw [hsame]; rfl, hend⟩
    · rw [atoi, if_neg hdigit]
      rw [Bool.not_eq_true] at hdigit
      constructor
      · intro heq
        obtain ⟨rfl, rfl⟩ := Prod.mk.inj (Option.some.inj heq)
        exact ⟨[], rfl, rfl, begins_cons.mpr hdigit⟩
      · rintro ⟨ds, hformat, rfl, -⟩
        cases ds with
        | nil =>
          obtain rfl : _ = rest := hformat
          rfl
        | cons e ds =>
          rw [(List.cons.inj hformat).1, isDigit_digitChar] at hdigit
          cases hdigit

/-- The number is computed in 32 bits. -/
theorem foldl_atoiStep (ds : List (Fin 10)) : ds.foldl atoiStep 0 = decimal ds % 2 ^ 32 := by
  induction ds using List.reverseRecOn with
  | nil => rfl
  | append_singleton ds d ih =>
    have hvalue : decimal (ds ++ [d]) = d + 10 * decimal ds := by
      rw [decimal, List.reverse_append, List.map_append]
      exact Nat.ofDigits_cons
    rw [List.foldl_append, ih, hvalue, List.foldl_cons, List.foldl_nil, atoiStep]
    omega

/-- A width is what a `CountText` writes, up to where it ends. -/
theorem evalCount_iff {count : Count} {format rest : List Byte} :
    evalCount format = some (count, rest) ↔
      ∃ w : CountText, format = w.text ++ rest ∧ count = w.count ∧ w.End rest := by
  cases format with
  | nil =>
    refine iff_of_false (by rintro ⟨⟩) ?_
    rintro ⟨w, hformat, -, hend⟩
    obtain ⟨htext, rfl⟩ := List.append_eq_nil_iff.mp hformat.symm
    cases w with
    | nothing =>
      obtain ⟨c, hc, -⟩ := hend
      cases hc
    | number d ds => cases htext
    | star => cases htext
  | cons c cs =>
    rw [evalCount]
    by_cases hdigit : isDigit c = true
    · rw [if_pos hdigit, Option.map_eq_some_iff]
      constructor
      · rintro ⟨⟨n, rest'⟩, hatoi, heq⟩
        obtain ⟨rfl, rfl⟩ := Prod.mk.inj heq
        obtain ⟨ds, hformat, rfl, hend⟩ := atoi_iff.mp hatoi
        cases ds with
        | nil =>
          obtain rfl : _ = rest' := hformat
          rw [begins_cons, hdigit] at hend
          cases hend
        | cons d ds => exact ⟨.number d ds, hformat, by rw [foldl_atoiStep]; rfl, hend⟩
      · rintro ⟨w, hformat, rfl, hend⟩
        cases w with
        | nothing =>
          obtain rfl : _ = rest := hformat
          rw [CountText.End, begins_cons, hdigit] at hend
          cases hend.1
        | number d ds =>
          refine ⟨(decimal (d :: ds) % 2 ^ 32, rest), atoi_iff.mpr ⟨d :: ds, hformat, ?_, hend⟩, rfl⟩
          exact (foldl_atoiStep _).symm
        | star =>
          rw [(List.cons.inj hformat).1] at hdigit
          cases hdigit
    · rw [if_neg hdigit]
      rw [Bool.not_eq_true] at hdigit
      by_cases hstar : c = chr '*'
      · rw [if_pos hstar]
        constructor
        · intro heq
          obtain ⟨rfl, rfl⟩ := Prod.mk.inj (Option.some.inj heq)
          exact ⟨.star, by rw [hstar]; rfl, rfl, trivial⟩
        · rintro ⟨w, hformat, rfl, hend⟩
          cases w with
          | nothing =>
            obtain rfl : _ = rest := hformat
            exact absurd hstar (begins_cons.mp hend).2
          | number d ds =>
            rw [(List.cons.inj hformat).1, isDigit_digitChar] at hdigit
            cases hdigit
          | star =>
            rw [(List.cons.inj hformat).2]
            rfl
      · rw [if_neg hstar]
        constructor
        · intro heq
          obtain ⟨rfl, rfl⟩ := Prod.mk.inj (Option.some.inj heq)
          exact ⟨.nothing, rfl, rfl, begins_cons.mpr ⟨hdigit, hstar⟩⟩
        · rintro ⟨w, hformat, rfl, -⟩
          cases w with
          | nothing =>
            obtain rfl : _ = rest := hformat
            rfl
          | number d ds =>
            rw [(List.cons.inj hformat).1, isDigit_digitChar] at hdigit
            cases hdigit
          | star => exact absurd (List.cons.inj hformat).1 hstar

/-- A precision is a dot with such a number behind it, or nothing. -/
theorem evalPrecision_iff {flags flags' : Flags} {count : Count} {format rest : List Byte} :
    evalPrecision flags format = some (flags', count, rest) ↔
      ∃ p : Option CountText, format = precisionText p ++ rest ∧
        flags' = setPrecision flags p ∧ count = (p.getD .nothing).count ∧ PrecisionEnd p rest := by
  cases format with
  | nil =>
    refine iff_of_false (by rintro ⟨⟩) ?_
    rintro ⟨p, hformat, -, -, hend⟩
    obtain ⟨htext, rfl⟩ := List.append_eq_nil_iff.mp hformat.symm
    cases p with
    | none =>
      obtain ⟨c, hc, -⟩ := hend
      cases hc
    | some p => cases htext
  | cons c cs =>
    rw [evalPrecision]
    by_cases hdot : c = chr '.'
    · rw [if_pos hdot, Option.map_eq_some_iff]
      constructor
      · rintro ⟨⟨count', rest'⟩, hcount, heq⟩
        obtain ⟨rfl, hread⟩ := Prod.mk.inj heq
        obtain ⟨rfl, rfl⟩ := Prod.mk.inj hread
        obtain ⟨p, rfl, rfl, hend⟩ := evalCount_iff.mp hcount
        exact ⟨some p, by rw [hdot]; rfl, rfl, rfl, hend⟩
      · rintro ⟨p, hformat, rfl, rfl, hend⟩
        cases p with
        | none =>
          obtain rfl : _ = rest := hformat
          exact absurd hdot (begins_cons.mp hend)
        | some p =>
          exact ⟨(p.count, rest), evalCount_iff.mpr ⟨p, (List.cons.inj hformat).2, rfl, hend⟩, rfl⟩
    · rw [if_neg hdot]
      constructor
      · intro heq
        obtain ⟨rfl, hread⟩ := Prod.mk.inj (Option.some.inj heq)
        obtain ⟨rfl, rfl⟩ := Prod.mk.inj hread
        exact ⟨none, rfl, rfl, rfl, begins_cons.mpr hdot⟩
      · rintro ⟨p, hformat, rfl, rfl, -⟩
        cases p with
        | none =>
          obtain rfl : _ = rest := hformat
          rfl
        | some p => exact absurd (List.cons.inj hformat).1 hdot

/-- A letter that may stand there twice is counted, up to two of them. -/
theorem evalDouble_iff {c : Byte} {one two flags : Flags} {format rest : List Byte} :
    evalDouble c one two format = some (flags, rest) ↔
      (format = c :: rest ∧ flags = two) ∨
        (format = rest ∧ flags = one ∧ Begins (fun c' => c' ≠ c) rest) := by
  cases format with
  | nil =>
    refine iff_of_false (by rintro ⟨⟩) ?_
    rintro (⟨hformat, -⟩ | ⟨rfl, -, c, hc, -⟩)
    · cases hformat
    · cases hc
  | cons c' cs =>
    rw [evalDouble]
    by_cases hc : c' = c
    · rw [if_pos hc]
      constructor
      · intro heq
        obtain ⟨rfl, rfl⟩ := Prod.mk.inj (Option.some.inj heq)
        exact Or.inl ⟨by rw [hc], rfl⟩
      · rintro (⟨hformat, rfl⟩ | ⟨rfl, rfl, hend⟩)
        · rw [(List.cons.inj hformat).2]
        · exact absurd hc (begins_cons.mp hend)
    · rw [if_neg hc]
      constructor
      · intro heq
        obtain ⟨rfl, rfl⟩ := Prod.mk.inj (Option.some.inj heq)
        exact Or.inr ⟨rfl, rfl, begins_cons.mpr hc⟩
      · rintro (⟨hformat, rfl⟩ | ⟨rfl, rfl, -⟩)
        · exact absurd (List.cons.inj hformat).1 hc
        · rfl

/-- A length is what a `LengthText` writes, up to where it ends. -/
theorem evalLength_iff {flags flags' : Flags} {format rest : List Byte} :
    evalLength flags format = some (flags', rest) ↔
      ∃ n : LengthText, format = n.text ++ rest ∧ flags' = n.set flags ∧ n.End rest := by
  constructor
  · intro h
    cases format with
    | nil => cases h
    | cons c cs =>
      rw [evalLength] at h
      split_ifs at h with hl hh ht hj hz
      · rcases evalDouble_iff.mp h with ⟨rfl, rfl⟩ | ⟨rfl, rfl, hend⟩
        · exact ⟨.ll, by rw [hl]; rfl, rfl, trivial⟩
        · exact ⟨.l, by rw [hl]; rfl, rfl, by rw [hl] at hend; exact hend⟩
      · rcases evalDouble_iff.mp h with ⟨rfl, rfl⟩ | ⟨rfl, rfl, hend⟩
        · exact ⟨.hh, by rw [hh]; rfl, rfl, trivial⟩
        · exact ⟨.h, by rw [hh]; rfl, rfl, by rw [hh] at hend; exact hend⟩
      · obtain ⟨rfl, rfl⟩ := Prod.mk.inj (Option.some.inj h)
        exact ⟨.t, by rw [ht]; rfl, rfl, trivial⟩
      · obtain ⟨rfl, rfl⟩ := Prod.mk.inj (Option.some.inj h)
        exact ⟨.j, by rw [hj]; rfl, rfl, trivial⟩
      · obtain ⟨rfl, rfl⟩ := Prod.mk.inj (Option.some.inj h)
        exact ⟨.z, by rw [hz]; rfl, rfl, trivial⟩
      · obtain ⟨rfl, rfl⟩ := Prod.mk.inj (Option.some.inj h)
        exact ⟨.nothing, rfl, rfl, begins_cons.mpr (by simp [hl, hh, ht, hj, hz])⟩
  · rintro ⟨n, rfl, rfl, hend⟩
    cases n with
    | nothing =>
      obtain ⟨c, hc, hother⟩ := hend
      obtain ⟨cs, rfl⟩ := List.head?_eq_some_iff.mp hc
      simp only [List.mem_cons, List.not_mem_nil, or_false, not_or] at hother
      obtain ⟨hl, hh, ht, hj, hz⟩ := hother
      show evalLength flags (c :: cs) = _
      rw [evalLength, if_neg hl, if_neg hh, if_neg ht, if_neg hj, if_neg hz]
      rfl
    | h => exact evalDouble_iff.mpr (Or.inr ⟨rfl, rfl, hend⟩)
    | hh =>
      show evalDouble (chr 'h') { flags with short := true } _ (chr 'h' :: rest) = _
      exact evalDouble_iff.mpr (Or.inl ⟨rfl, rfl⟩)
    | l => exact evalDouble_iff.mpr (Or.inr ⟨rfl, rfl, hend⟩)
    | ll =>
      show evalDouble (chr 'l') { flags with long := true } _ (chr 'l' :: rest) = _
      exact evalDouble_iff.mpr (Or.inl ⟨rfl, rfl⟩)
    | t => rfl
    | j => rfl
    | z => rfl

/-! ## Reading a conversion -/

/-- Only the next character decides whether a length has ended. -/
theorem lengthEnd_cons (n : LengthText) (c : Byte) (rest : List Byte) :
    n.End (c :: rest) ↔ n.End [c] := by
  cases n with
  | nothing => rw [LengthText.End, begins_cons, begins_cons]
  | h => rw [LengthText.End, begins_cons, begins_cons]
  | l => rw [LengthText.End, begins_cons, begins_cons]
  | hh => exact Iff.rfl
  | ll => exact Iff.rfl
  | t => exact Iff.rfl
  | j => exact Iff.rfl
  | z => exact Iff.rfl

namespace Conversion

variable (d : Conversion) (rest : List Byte)

theorem afterPrecision_append : d.afterPrecision ++ rest = d.length.text ++ d.specifier :: rest :=
  List.append_assoc _ _ _

theorem afterWidth_append :
    d.afterWidth ++ rest = precisionText d.precision ++ (d.afterPrecision ++ rest) :=
  List.append_assoc _ _ _

theorem afterFlags_append : d.afterFlags ++ rest = d.width.text ++ (d.afterWidth ++ rest) :=
  List.append_assoc _ _ _

theorem text_append : d.text ++ rest = d.flags.map FlagChar.char ++ (d.afterFlags ++ rest) :=
  List.append_assoc _ _ _

/-- It makes no difference what comes behind the specifier. -/
theorem wellFormed_iff : d.WellFormed ↔
    FlagsEnd (d.afterFlags ++ rest) ∧ d.width.End (d.afterWidth ++ rest) ∧
      PrecisionEnd d.precision (d.afterPrecision ++ rest) ∧ d.length.End (d.specifier :: rest) := by
  have hprecision : d.afterPrecision ≠ [] :=
    List.append_ne_nil_of_right_ne_nil _ (List.cons_ne_nil _ _)
  have hwidth : d.afterWidth ≠ [] := List.append_ne_nil_of_right_ne_nil _ hprecision
  have hflags : d.afterFlags ≠ [] := List.append_ne_nil_of_right_ne_nil _ hwidth
  rw [FlagsEnd, begins_append hflags, countEnd_append _ hwidth, precisionEnd_append _ hprecision,
    lengthEnd_cons]
  exact ⟨fun h => ⟨h.flags, h.width, h.precision, h.length⟩, fun ⟨h1, h2, h3, h4⟩ => ⟨h1, h2, h3, h4⟩⟩

end Conversion

/-- What is read behind a `%` is a conversion whose parts end where they must. -/
theorem directive_iff {x : Directive} {format rest : List Byte} :
    directive format = some (x, rest) ↔
      ∃ d : Conversion, d.WellFormed ∧ format = d.text ++ rest ∧ x = d.directive := by
  simp only [directive, Option.bind_eq_some_iff, Prod.exists, evalFlags_iff, evalCount_iff,
    evalPrecision_iff, evalLength_iff]
  constructor
  · rintro ⟨flags, f₁, ⟨xs, rfl, rfl, hflags⟩, width, f₂, ⟨w, rfl, rfl, hwidth⟩, flags', prec, f₃,
      ⟨p, rfl, rfl, rfl, hprec⟩, flags'', f₄, ⟨n, rfl, rfl, hlength⟩, h⟩
    cases f₄ with
    | nil => cases h
    | cons c cs =>
      obtain ⟨rfl, rfl⟩ := Prod.mk.inj (Option.some.inj h)
      let d : Conversion := ⟨xs, w, p, n, c⟩
      refine ⟨d, (d.wellFormed_iff cs).mpr ⟨?_, ?_, ?_, hlength⟩, ?_, rfl⟩
      · rw [d.afterFlags_append, d.afterWidth_append, d.afterPrecision_append]
        exact hflags
      · rw [d.afterWidth_append, d.afterPrecision_append]
        exact hwidth
      · rw [d.afterPrecision_append]
        exact hprec
      · rw [d.text_append, d.afterFlags_append, d.afterWidth_append, d.afterPrecision_append]
  · rintro ⟨d, hd, rfl, rfl⟩
    obtain ⟨hflags, hwidth, hprec, hlength⟩ := (d.wellFormed_iff rest).mp hd
    exact ⟨_, _, ⟨d.flags, d.text_append rest, rfl, hflags⟩, _, _,
      ⟨d.width, d.afterFlags_append rest, rfl, hwidth⟩, _, _, _,
      ⟨d.precision, d.afterWidth_append rest, rfl, rfl, hprec⟩, _, _,
      ⟨d.length, d.afterPrecision_append rest, rfl, hlength⟩, rfl⟩

/-! ## Pieces -/

/-- What a format is made of. -/
inductive Piece where
  | char (c : Byte)
  | conversion (d : Conversion)
deriving DecidableEq

namespace Piece

def text : Piece → List Byte
  | char c => [c]
  | conversion d => chr '%' :: d.text

def WellFormed : Piece → Prop
  | char c => Plain c
  | conversion d => d.WellFormed

end Piece

/-- What is written for the pieces, one after the other. -/
def expand (env : Environment) : List Piece → List Word → Option (List Byte)
  | [], _ => some []
  | .char c :: ps, args => (expand env ps args).map (c :: ·)
  | .conversion d :: ps, args =>
    (render env d.directive args).bind fun (text, args) => (expand env ps args).map (text ++ ·)

/-- The pieces of a format are written one after the other, with the arguments each has left. -/
theorem vsnprintf_pieces (env : Environment) (rest : List Byte) (ps : List Piece)
    (hps : ∀ p ∈ ps, p.WellFormed) : ∀ args : List Word,
    vsnprintf env (ps.flatMap Piece.text ++ 0 :: rest) args = expand env ps args := by
  induction ps with
  | nil =>
    intro args
    exact vsnprintf_nul env rest args
  | cons p ps ih =>
    intro args
    obtain ⟨hp, htail⟩ := List.forall_mem_cons.mp hps
    rw [List.flatMap_cons, List.append_assoc]
    cases p with
    | char c =>
      rw [Piece.text, List.singleton_append, vsnprintf_char env _ _ hp.1 hp.2, ih htail, expand]
    | conversion d =>
      have hread : directive (d.text ++ (ps.flatMap Piece.text ++ 0 :: rest)) = some (d.directive, _) :=
        directive_iff.mpr ⟨d, hp, rfl, rfl⟩
      rw [Piece.text, List.cons_append, vsnprintf_directive env _ _ hread, expand]
      simp only [ih htail]

/-- A format is accepted if it consists of pieces up to its end, and if the arguments are there. -/
theorem vsnprintf_iff (env : Environment) (format : List Byte) (args : List Word) (out : List Byte) :
    vsnprintf env format args = some out ↔
      ∃ (ps : List Piece) (rest : List Byte), format = ps.flatMap Piece.text ++ 0 :: rest ∧
        (∀ p ∈ ps, p.WellFormed) ∧ expand env ps args = some out := by
  constructor
  · induction format, args using vsnprintf.induct generalizing out with
    | case1 args =>
      intro h
      rw [vsnprintf] at h
      cases h
    | case2 format args =>
      intro h
      rw [vsnprintf_nul] at h
      exact ⟨[], format, rfl, List.forall_mem_nil _, h⟩
    | case3 c format args hnul hpercent ih =>
      intro h
      rw [vsnprintf_char env format args hnul hpercent, Option.map_eq_some_iff] at h
      obtain ⟨out, hout, rfl⟩ := h
      obtain ⟨ps, rest, rfl, hps, hexpand⟩ := ih out hout
      refine ⟨.char c :: ps, rest, rfl, List.forall_mem_cons.mpr ⟨⟨hnul, hpercent⟩, hps⟩, ?_⟩
      rw [expand, hexpand, Option.map_some]
    | case4 c format args hnul hpercent hnone =>
      obtain rfl := not_not.mp hpercent
      intro h
      rw [vsnprintf_unfinished env format args hnone] at h
      cases h
    | case5 c format args hnul hpercent x rest hx _ ih =>
      obtain rfl := not_not.mp hpercent
      intro h
      rw [vsnprintf_directive env format args hx, Option.bind_eq_some_iff] at h
      obtain ⟨⟨text, args'⟩, hrender, h⟩ := h
      obtain ⟨out, hout, rfl⟩ := Option.map_eq_some_iff.mp h
      obtain ⟨d, hd, rfl, rfl⟩ := directive_iff.mp hx
      obtain ⟨ps, rest', rfl, hps, hexpand⟩ := ih args' out hout
      refine ⟨.conversion d :: ps, rest', ?_, List.forall_mem_cons.mpr ⟨hd, hps⟩, ?_⟩
      · rw [List.flatMap_cons, Piece.text, List.append_assoc, List.cons_append]
      · rw [expand, hrender, Option.bind_some]
        simp only [hexpand, Option.map_some]
  · rintro ⟨ps, rest, rfl, hps, hexpand⟩
    rw [vsnprintf_pieces env rest ps hps, hexpand]

/-! ## One reading -/

section

variable {α : Type} {read : Option (α × List Byte)} {a a' : α} {s s' rest rest' : List Byte}

/-- A reader that reads both texts leaves the same, and has taken the same. -/
theorem taken_eq (h : read = some (a, rest)) (h' : read = some (a', rest'))
    (heq : s ++ rest = s' ++ rest') : s = s' ∧ rest = rest' := by
  obtain rfl := (Prod.mk.inj (Option.some.inj (h.symm.trans h'))).2
  exact ⟨List.append_cancel_right heq, rfl⟩

end

theorem digitChar_injective : Function.Injective digitChar := by
  intro d e h
  exact Fin.ext (by rw [← digitChar_sub, h, digitChar_sub])

theorem flagChar_injective : Function.Injective FlagChar.char := by
  intro x y
  cases x <;> cases y <;> decide

/-- No two widths are written alike. -/
theorem countText_injective {w w' : CountText} (h : w.text = w'.text) : w = w' := by
  have hstar : ∀ d, digitChar d ≠ chr '*' := by decide
  cases w with
  | nothing =>
    cases w' with
    | nothing => rfl
    | number d ds => cases h
    | star => cases h
  | number d ds =>
    cases w' with
    | nothing => cases h
    | number e es =>
      obtain ⟨rfl, rfl⟩ := List.cons.inj (digitChar_injective.list_map h)
      rfl
    | star => exact absurd (List.cons.inj h).1 (hstar d)
  | star =>
    cases w' with
    | nothing => cases h
    | number e es => exact absurd (List.cons.inj h).1.symm (hstar e)
    | star => rfl

theorem precisionText_injective {p p' : Option CountText} (h : precisionText p = precisionText p') :
    p = p' := by
  cases p with
  | none =>
    cases p' with
    | none => rfl
    | some p' => cases h
  | some p =>
    cases p' with
    | none => cases h
    | some p' => rw [countText_injective (List.cons.inj h).2]

/-- No two lengths are written alike. -/
theorem lengthText_injective {n n' : LengthText} (h : n.text = n'.text) : n = n' := by
  revert h
  cases n <;> cases n' <;> decide

section

variable {rest rest' : List Byte}

/-- In a text there is one way to take the flags off. -/
theorem flags_taken {xs ys : List FlagChar} (hend : FlagsEnd rest) (hend' : FlagsEnd rest')
    (h : xs.map FlagChar.char ++ rest = ys.map FlagChar.char ++ rest') : xs = ys ∧ rest = rest' := by
  have hread : evalFlags {} (xs.map FlagChar.char ++ rest) = some (_, rest) :=
    evalFlags_iff.mpr ⟨xs, rfl, rfl, hend⟩
  obtain ⟨htext, hrest⟩ := taken_eq hread (evalFlags_iff.mpr ⟨ys, h, rfl, hend'⟩) h
  exact ⟨flagChar_injective.list_map htext, hrest⟩

/-- There is one way to take the width off. -/
theorem width_taken {w w' : CountText} (hend : w.End rest) (hend' : w'.End rest')
    (h : w.text ++ rest = w'.text ++ rest') : w = w' ∧ rest = rest' := by
  obtain ⟨htext, hrest⟩ := taken_eq (evalCount_iff.mpr ⟨w, rfl, rfl, hend⟩)
    (evalCount_iff.mpr ⟨w', h, rfl, hend'⟩) h
  exact ⟨countText_injective htext, hrest⟩

/-- There is one way to take the precision off. -/
theorem precision_taken {p p' : Option CountText} (hend : PrecisionEnd p rest)
    (hend' : PrecisionEnd p' rest') (h : precisionText p ++ rest = precisionText p' ++ rest') :
    p = p' ∧ rest = rest' := by
  have hread : evalPrecision {} (precisionText p ++ rest) = some (_, _, rest) :=
    evalPrecision_iff.mpr ⟨p, rfl, rfl, rfl, hend⟩
  have hread' : evalPrecision {} (precisionText p ++ rest) = some (_, _, rest') :=
    evalPrecision_iff.mpr ⟨p', h, rfl, rfl, hend'⟩
  have hrest := (Prod.mk.inj (Prod.mk.inj (Option.some.inj (hread.symm.trans hread'))).2).2
  subst hrest
  exact ⟨precisionText_injective (List.append_cancel_right h), rfl⟩

/-- There is one way to take the length off. -/
theorem length_taken {n n' : LengthText} (hend : n.End rest) (hend' : n'.End rest')
    (h : n.text ++ rest = n'.text ++ rest') : n = n' ∧ rest = rest' := by
  have hread : evalLength {} (n.text ++ rest) = some (_, rest) :=
    evalLength_iff.mpr ⟨n, rfl, rfl, hend⟩
  obtain ⟨htext, hrest⟩ := taken_eq hread (evalLength_iff.mpr ⟨n', h, rfl, hend'⟩) h
  exact ⟨lengthText_injective htext, hrest⟩

/-- A text begins with one conversion at most, since each of its parts ends where it must. -/
theorem conversion_taken {d d' : Conversion} (hd : d.WellFormed) (hd' : d'.WellFormed)
    (h : d.text ++ rest = d'.text ++ rest') : d = d' ∧ rest = rest' := by
  obtain ⟨hflags, hwidth, hprec, hlength⟩ := (d.wellFormed_iff rest).mp hd
  obtain ⟨hflags', hwidth', hprec', hlength'⟩ := (d'.wellFormed_iff rest').mp hd'
  -- part by part: the same is taken, and the same is left
  rw [d.text_append, d'.text_append] at h
  obtain ⟨h1, h⟩ := flags_taken hflags hflags' h
  rw [d.afterFlags_append, d'.afterFlags_append] at h
  obtain ⟨h2, h⟩ := width_taken hwidth hwidth' h
  rw [d.afterWidth_append, d'.afterWidth_append] at h
  obtain ⟨h3, h⟩ := precision_taken hprec hprec' h
  rw [d.afterPrecision_append, d'.afterPrecision_append] at h
  obtain ⟨h4, h⟩ := length_taken hlength hlength' h
  obtain ⟨h5, hrest⟩ := List.cons.inj h
  cases d
  cases d'
  simp only [Conversion.mk.injEq]
  exact ⟨⟨h1, h2, h3, h4, h5⟩, hrest⟩

end

/-- No format has two readings. -/
theorem pieces_unique (ps : List Piece) : ∀ (qs : List Piece) (rest rest' : List Byte),
    (∀ p ∈ ps, p.WellFormed) → (∀ q ∈ qs, q.WellFormed) →
    ps.flatMap Piece.text ++ 0 :: rest = qs.flatMap Piece.text ++ 0 :: rest' →
    ps = qs ∧ rest = rest' := by
  have hpercent : (0 : Byte) ≠ chr '%' := by decide
  induction ps with
  | nil =>
    intro qs rest rest' _ hqs h
    cases qs with
    | nil => exact ⟨rfl, (List.cons.inj h).2⟩
    | cons q qs =>
      have hq := hqs q List.mem_cons_self
      cases q with
      | char c => exact absurd (List.cons.inj h).1.symm hq.1
      | conversion d => exact absurd (List.cons.inj h).1 hpercent
  | cons p ps ih =>
    intro qs rest rest' hps hqs h
    obtain ⟨hp, hps'⟩ := List.forall_mem_cons.mp hps
    cases qs with
    | nil =>
      cases p with
      | char c => exact absurd (List.cons.inj h).1 hp.1
      | conversion d => exact absurd (List.cons.inj h).1.symm hpercent
    | cons q qs =>
      obtain ⟨hq, hqs'⟩ := List.forall_mem_cons.mp hqs
      rw [List.flatMap_cons, List.flatMap_cons, List.append_assoc, List.append_assoc] at h
      cases p with
      | char c =>
        cases q with
        | char c' =>
          obtain ⟨rfl, htail⟩ := List.cons.inj h
          obtain ⟨rfl, hrest⟩ := ih qs rest rest' hps' hqs' htail
          exact ⟨rfl, hrest⟩
        | conversion d => exact absurd (List.cons.inj h).1 hp.2
      | conversion d =>
        cases q with
        | char c => exact absurd (List.cons.inj h).1.symm hq.2
        | conversion d' =>
          obtain ⟨rfl, htail⟩ := conversion_taken hp hq (List.cons.inj h).2
          obtain ⟨rfl, hrest⟩ := ih qs rest rest' hps' hqs' htail
          exact ⟨rfl, hrest⟩

/-- A flag, a width, and a specifier. -/
def leftFour : Conversion := ⟨[.minus], .number 4 [], none, .nothing, chr 'd'⟩

theorem wellFormed_leftFour : leftFour.WellFormed := by
  have hflag : ∀ x : FlagChar, x.char ≠ chr '4' := by
    intro x
    cases x <;> decide
  exact ⟨begins_cons.mpr hflag, begins_cons.mpr (by decide), begins_cons.mpr (by decide),
    begins_cons.mpr (by decide)⟩

theorem pieces_unique_four : [Piece.conversion leftFour] = [Piece.conversion leftFour] ∧
    [chr 'x'] = [chr 'x'] :=
  pieces_unique [.conversion leftFour] [.conversion leftFour] [chr 'x'] [chr 'x']
    (List.forall_mem_singleton.mpr wellFormed_leftFour)
    (List.forall_mem_singleton.mpr wellFormed_leftFour) rfl

/-! ## The documented conversions -/

/-- The specifiers that `vsnprintf` has a case for. -/
def documented : List Byte :=
  integerSpecifiers ++ [chr 'f', chr 'F', chr 'e', chr 'E', chr 'g', chr 'G', chr 'c', chr 's',
    chr 'p', chr '%']

/-- A number is not written with a zero in front, which is a flag. -/
def Conversion.Documented (d : Conversion) : Prop :=
  d.specifier ∈ documented ∧ ∀ ds, d.width ≠ .number 0 ds

/-- A character that continues no part but a length. -/
structure Closes (c : Byte) : Prop where
  flag : ∀ x : FlagChar, x.char ≠ c
  digit : isDigit c = false
  star : c ≠ chr '*'

section

variable {text rest : List Byte} {c : Byte}

/-- A character that closes a number ends every width. -/
theorem countEnd_of_closes (w : CountText) (h : Closes c) : w.End (c :: rest) := by
  cases w with
  | nothing => exact begins_cons.mpr ⟨h.digit, h.star⟩
  | number d ds => exact begins_cons.mpr h.digit
  | star => trivial

theorem closes_dot : Closes (chr '.') := by
  refine ⟨?_, by decide, by decide⟩
  intro x
  cases x <;> decide

/-- The letters of lengths and of documented specifiers close a number. -/
theorem closes_letter (hc : c ∈ [chr 'h', chr 'l', chr 't', chr 'j', chr 'z'] ++ documented) :
    Closes c ∧ c ≠ chr '.' := by
  refine ⟨⟨?_, ?_, ?_⟩, ?_⟩
  · intro x
    revert c
    cases x <;> decide
  all_goals
    revert c
    decide

end

theorem digitChar_ne_flag {d : Fin 10} (hd : d ≠ 0) (x : FlagChar) : x.char ≠ digitChar d := by
  revert d
  cases x <;> decide

/-- No documented specifier could be taken for a letter of a length. -/
theorem documented_ne_length : ∀ c ∈ documented, c ∉ [chr 'l', chr 'h', chr 't', chr 'j', chr 'z'] := by
  decide

/-- A documented conversion ends where it is meant to. -/
theorem Conversion.Documented.wellFormed {d : Conversion} (h : d.Documented) : d.WellFormed := by
  obtain ⟨hspecifier, hzero⟩ := h
  obtain ⟨c, cs, hletter, hc⟩ : ∃ c cs, d.afterPrecision = c :: cs ∧
      c ∈ [chr 'h', chr 'l', chr 't', chr 'j', chr 'z'] ++ documented := by
    rw [Conversion.afterPrecision]
    cases d.length with
    | nothing => exact ⟨_, _, rfl, List.mem_append_right _ hspecifier⟩
    | h => exact ⟨_, _, rfl, by decide⟩
    | hh => exact ⟨_, _, rfl, by decide⟩
    | l => exact ⟨_, _, rfl, by decide⟩
    | ll => exact ⟨_, _, rfl, by decide⟩
    | t => exact ⟨_, _, rfl, by decide⟩
    | j => exact ⟨_, _, rfl, by decide⟩
    | z => exact ⟨_, _, rfl, by decide⟩
  obtain ⟨hcloses, hdot⟩ := closes_letter hc
  obtain ⟨c', cs', hwidth, hcloses'⟩ : ∃ c' cs', d.afterWidth = c' :: cs' ∧ Closes c' := by
    rw [Conversion.afterWidth, hletter]
    cases d.precision with
    | none => exact ⟨c, cs, rfl, hcloses⟩
    | some p => exact ⟨_, _, rfl, closes_dot⟩
  refine ⟨?_, ?_, ?_, ?_⟩
  · rw [FlagsEnd, Conversion.afterFlags, hwidth]
    cases hw : d.width with
    | nothing => exact begins_cons.mpr hcloses'.flag
    | number e es =>
      have hne : e ≠ 0 := by
        rintro rfl
        exact hzero es hw
      exact begins_cons.mpr fun x => digitChar_ne_flag hne x
    | star =>
      refine begins_cons.mpr ?_
      intro x
      cases x <;> decide
  · rw [hwidth]
    exact countEnd_of_closes _ hcloses'
  · rw [hletter]
    cases d.precision with
    | none => exact begins_cons.mpr hdot
    | some p => exact countEnd_of_closes _ hcloses
  · have hother := documented_ne_length _ hspecifier
    cases d.length with
    | nothing => exact begins_cons.mpr hother
    | h => exact begins_cons.mpr fun hc => hother (by rw [hc]; decide)
    | l => exact begins_cons.mpr fun hc => hother (by rw [hc]; decide)
    | _ => trivial

def Piece.Documented : Piece → Prop
  | char c => Plain c
  | conversion d => d.Documented

/-- Plain characters and documented conversions are written as they are meant, with the flags in any
order and whatever is next to what. -/
theorem vsnprintf_documented (env : Environment) (rest : List Byte) (ps : List Piece)
    (hps : ∀ p ∈ ps, p.Documented) (args : List Word) :
    vsnprintf env (ps.flatMap Piece.text ++ 0 :: rest) args = expand env ps args := by
  apply vsnprintf_pieces
  intro p hp
  have hdocumented := hps p hp
  cases p with
  | char c => exact hdocumented
  | conversion d => exact Conversion.Documented.wellFormed hdocumented

/-- `%-4d|`, with 42. -/
theorem vsnprintf_documented_four :
    vsnprintf bareEnv [chr '%', chr '-', chr '4', chr 'd', chr '|', 0] [42] =
      some [chr '4', chr '2', chr ' ', chr ' ', chr '|'] := by
  have hfour : leftFour.Documented := ⟨by decide, fun ds h => by cases h⟩
  have hbar : Plain (chr '|') := ⟨by decide, by decide⟩
  have hrun := vsnprintf_documented bareEnv [] [.conversion leftFour, .char (chr '|')]
    (List.forall_mem_cons.mpr ⟨hfour, List.forall_mem_singleton.mpr hbar⟩) [42]
  exact hrun.trans (by decide)

end Sakura.Libk.Printf
