import Sakura.Libk.Printf

/-!
# What the formatter writes

Text without a `%` is written as it is (`printk_plain`). The other end: a format that writes
nothing consists of conversions that write nothing, of which there are two kinds
(`SilentConversion`), so that `vsnprintf` is empty on `SilentText` only (`vsnprintf_eq_nil`).
-/

namespace Sakura.Libk.Printf

open I386 (Word)

/-! ## One step of the loop -/

section

variable (env : Environment) (format : List Byte) (args : List Word)

/-- The NUL ends the format. -/
theorem vsnprintf_nul : vsnprintf env (0 :: format) args = some [] := by
  rw [vsnprintf, if_pos rfl]

/-- Any character but NUL and `%` is written as it is. -/
theorem vsnprintf_char {c : Byte} (hnul : c ≠ 0) (hpercent : c ≠ chr '%') :
    vsnprintf env (c :: format) args = (vsnprintf env format args).map (c :: ·) := by
  rw [vsnprintf, if_neg hnul, if_pos hpercent]

/-- A format that ends inside a conversion is read beyond its end. -/
theorem vsnprintf_unfinished (h : directive format = none) :
    vsnprintf env (chr '%' :: format) args = none := by
  rw [vsnprintf, if_neg (by decide), if_neg (not_not.mpr rfl)]
  split
  · rfl
  · rename_i heq
    rw [h] at heq
    cases heq

/-- A conversion takes its arguments, and the rest of the format the others. -/
theorem vsnprintf_directive {d : Directive} {rest : List Byte}
    (h : directive format = some (d, rest)) :
    vsnprintf env (chr '%' :: format) args
      = (render env d args).bind fun (text, args) => (vsnprintf env rest args).map (text ++ ·) := by
  rw [vsnprintf, if_neg (by decide), if_neg (not_not.mpr rfl)]
  split
  · rename_i heq
    rw [h] at heq
    cases heq
  · rename_i heq
    rw [h] at heq
    obtain ⟨rfl, rfl⟩ := Prod.mk.inj (Option.some.inj heq)
    rfl

end

/-! ## Plain text -/

/-- Neither the end of a format nor a conversion. -/
def Plain (c : Byte) : Prop := c ≠ 0 ∧ c ≠ chr '%'

/-- Plain text is written as it is. -/
theorem vsnprintf_plain (env : Environment) (rest : List Byte) (args : List Word) (text : List Byte)
    (h : ∀ c ∈ text, Plain c) : vsnprintf env (text ++ 0 :: rest) args = some text := by
  induction text with
  | nil => rw [List.nil_append, vsnprintf_nul]
  | cons c text ih =>
    obtain ⟨hnul, hpercent⟩ := h c List.mem_cons_self
    rw [List.cons_append, vsnprintf_char _ _ _ hnul hpercent,
      ih fun c' hc' => h c' (List.mem_cons_of_mem _ hc'), Option.map_some]

/-- What fits the buffer is handed over whole. -/
theorem printk_plain (env : Environment) (rest : List Byte) (args : List Word) {text : List Byte}
    (h : ∀ c ∈ text, Plain c) (hlen : text.length < printkBufferSize) :
    printk env (text ++ 0 :: rest) args = some text := by
  rw [printk, vsnprintf_plain env rest args text h, Option.bind_some,
    if_pos (Nat.lt_of_lt_of_le hlen env.le_room), List.take_of_length_le (Nat.le_of_lt hlen)]

/-! ## Integers -/

theorem pushChar_ne_nil (buf : List Byte) (c : Byte) : pushChar buf c ≠ [] := by
  rw [pushChar]
  split
  · simp
  · rintro rfl
    simp [ntoaBufferSize] at *

theorem spaces_eq_nil {n : ℕ} : spaces n = [] ↔ n = 0 := by
  rw [spaces, List.replicate_eq_nil_iff]

/-- `_out_rev` writes nothing only if it has nothing to write and nothing to pad. -/
theorem outRev_eq_nil {flags : Flags} {width : ℕ} {buf : List Byte} :
    outRev flags width buf = [] ↔
      buf = [] ∧ ((flags.left = true ∨ flags.zeropad = false) → width = 0) := by
  rw [outRev]
  cases buf with
  | nil =>
    cases flags.left <;> cases flags.zeropad <;> simp [spaces_eq_nil]
  | cons c buf => simp

/-- No zeros are added only if none are missing. -/
theorem padZeros_eq_nil {buf : List Byte} {n : ℕ} : padZeros buf n = [] ↔ buf = [] ∧ n = 0 := by
  rw [padZeros, List.append_eq_nil_iff, List.replicate_eq_nil_iff]
  constructor
  · rintro ⟨rfl, h⟩
    rw [ntoaBufferSize, List.length_nil] at h
    exact ⟨rfl, by omega⟩
  · rintro ⟨rfl, rfl⟩
    exact ⟨rfl, by omega⟩

/-- A base prefix leaves nothing empty. -/
theorem ntoaHash_eq_nil {buf : List Byte} {base prec width : ℕ} {flags : Flags} :
    ntoaHash buf base prec width flags = [] ↔ buf = [] ∧ flags.hash = false := by
  rw [ntoaHash]
  cases flags.hash with
  | false => simp
  | true =>
    simp only [if_true, Bool.true_eq_false, and_false, iff_false]
    exact pushChar_ne_nil _ _

/-- A sign leaves nothing empty. -/
theorem ntoaSign_eq_nil {buf : List Byte} {negative : Bool} {flags : Flags} :
    ntoaSign buf negative flags = [] ↔
      buf = [] ∧ negative = false ∧ flags.plus = false ∧ flags.space = false := by
  rw [ntoaSign]
  cases negative <;> cases flags.plus <;> cases flags.space <;> simp [pushChar_ne_nil]

/-- `_ntoa_format` writes nothing only without digits, width, precision, sign and prefix. -/
theorem ntoaFormat_eq_nil {buf : List Byte} {negative : Bool} {base prec width : ℕ} {flags : Flags} :
    ntoaFormat buf negative base prec width flags = [] ↔
      buf = [] ∧ width = 0 ∧ (prec = 0 ∨ flags.left = true) ∧ negative = false ∧
        flags.hash = false ∧ flags.plus = false ∧ flags.space = false := by
  rw [ntoaFormat]
  simp only [outRev_eq_nil, ntoaSign_eq_nil, ntoaHash_eq_nil]
  rw [ntoaPad]
  cases flags.left with
  | true =>
    simp
    tauto
  | false =>
    cases flags.zeropad with
    | false =>
      simp [padZeros_eq_nil]
      tauto
    | true =>
      -- with a sign the width is one less, but then the sign is written
      cases negative <;> cases flags.plus <;> cases flags.space <;> simp [padZeros_eq_nil]
      tauto

/-- A number has a digit, 0 too. -/
theorem digits_ne_nil (flags : Flags) (base n value : ℕ) : digits flags base (n + 1) value ≠ [] := by
  rw [digits]
  exact List.cons_ne_nil _ _

/-- Of the integers only 0 can be written as nothing, and only where a precision is given. -/
theorem ntoa_eq_nil {value base prec width : ℕ} {negative : Bool} {flags : Flags} :
    ntoa value negative base prec width flags = [] ↔
      value = 0 ∧ flags.precision = true ∧ width = 0 ∧ (prec = 0 ∨ flags.left = true) ∧
        negative = false ∧ flags.plus = false ∧ flags.space = false := by
  rw [ntoa]
  simp only [ntoaFormat_eq_nil]
  by_cases hvalue : value = 0
  · cases hprec : flags.precision with
    | true => simp [hvalue]
    | false =>
      simp only [hvalue, if_true, Bool.not_false, Bool.true_or, true_and, Bool.false_eq_true,
        false_and, iff_false, not_and]
      intro h
      exact absurd h (digits_ne_nil _ _ _ _)
  · simp only [hvalue, if_false, ne_eq, not_false_eq_true, decide_true, Bool.or_true, if_true, false_and,
      iff_false, not_and]
    intro h
    exact absurd h (digits_ne_nil _ _ _ _)

/-! ## Conversions that write nothing -/

/-- The two kinds of conversions that write nothing: zero with a precision of 0, and an empty
string. -/
inductive SilentConversion (env : Environment) :
    Byte → Flags → ℕ → ℕ → List Word → List Word → Prop
  | integer {c : Byte} {flags : Flags} {prec : ℕ} {args args' : List Word} :
      c ∈ integerSpecifiers → flags.precision = true → (prec = 0 ∨ flags.left = true) →
      (isSigned c = true → flags.plus = false ∧ flags.space = false) →
      integerArg c flags args = some ((0, false), args') →
      SilentConversion env c flags 0 prec args args'
  | emptyString {flags : Flags} {prec : ℕ} {w : Word} {rest : List Byte} {args : List Word} :
      env.memory w.toNat = 0 :: rest → SilentConversion env (chr 's') flags 0 prec (w :: args) args
  | noString {flags : Flags} {w : Word} {l : ℕ} {args : List Word} :
      flags.precision = true → strnlen (env.memory w.toNat) (2 ^ 32 - 1) = some l →
      SilentConversion env (chr 's') flags 0 0 (w :: args) args

/-- Padding writes nothing only if the text reaches the width and is empty. -/
theorem padded_eq_nil {flags : Flags} {width l : ℕ} {text : List Byte} :
    padded flags width l text = [] ↔ text = [] ∧ width - l = 0 := by
  rw [padded]
  cases flags.left
  · simp only [Bool.false_eq_true, if_false, List.append_eq_nil_iff, spaces_eq_nil]
    exact and_comm
  · simp only [if_true, List.append_eq_nil_iff, spaces_eq_nil]

/-- What the specifier does to the flags leaves `-` alone. -/
theorem integerFlags_left (c : Byte) (flags : Flags) : (integerFlags c flags).left = flags.left := by
  rw [integerFlags]
  split_ifs <;> rfl

/-- It leaves the mark of a given precision alone. -/
theorem integerFlags_precision (c : Byte) (flags : Flags) :
    (integerFlags c flags).precision = flags.precision := by
  rw [integerFlags]
  split_ifs <;> rfl

/-- `+` and space count for signed integers only. -/
theorem integerFlags_sign (c : Byte) (flags : Flags) :
    (integerFlags c flags).plus = (isSigned c && flags.plus) ∧
      (integerFlags c flags).space = (isSigned c && flags.space) := by
  rw [integerFlags]
  cases isSigned c <;> split_ifs <;> simp_all

theorem strnlen_nul (rest : List Byte) (maxsize : ℕ) : strnlen (0 :: rest) maxsize = some 0 := by
  cases maxsize <;> rfl

/-- Of a string nothing is taken only if it is empty, or nothing may be taken. -/
theorem takeString_eq_nil {text : List Byte} {limit : Option ℕ} :
    takeString text limit = some [] ↔ (∃ rest, text = 0 :: rest) ∨ (limit = some 0 ∧ text ≠ []) := by
  cases text with
  | nil => simp [takeString]
  | cons c cs =>
    rw [takeString]
    by_cases h : c = 0 ∨ limit = some 0
    · rw [if_pos h]
      rcases h with rfl | rfl <;> simp
    · rw [if_neg h, Option.map_eq_some_iff]
      rw [not_or] at h
      constructor
      · rintro ⟨text, -, heq⟩
        cases heq
      · rintro (⟨rest, heq⟩ | ⟨heq, -⟩)
        · exact absurd (List.cons.inj heq).1 h.1
        · exact absurd heq h.2

/-- `%s` writes nothing exactly for an empty string in an empty field. -/
theorem convert_string {env : Environment} {flags : Flags} {width prec : ℕ}
    {args args' : List Word} :
    convert env (chr 's') flags width prec args = some ([], args') ↔
      SilentConversion env (chr 's') flags width prec args args' := by
  rw [convert, if_neg (by decide), if_neg (by decide), if_neg (by decide), if_neg (by decide),
    if_pos rfl]
  cases args with
  | nil =>
    constructor
    · intro h
      cases h
    · intro h
      cases h with
      | integer hc => exact absurd hc (by decide)
  | cons w args =>
    simp only [vaWord, Option.bind_some, Option.bind_eq_some_iff, Option.map_eq_some_iff,
      Prod.mk.injEq]
    constructor
    · rintro ⟨l, hl, text, htext, hnil, rfl⟩
      obtain ⟨rfl, hwidth⟩ := padded_eq_nil.mp hnil
      -- no character is taken: there is none, or the precision allows none
      rcases takeString_eq_nil.mp htext with ⟨rest, hempty⟩ | ⟨hlimit, -⟩
      · rw [hempty, strnlen_nul] at hl
        obtain rfl := Option.some.inj hl
        have hwidth' : width = 0 := by
          split at hwidth <;> omega
        rw [hwidth']
        exact .emptyString hempty
      · have hprec : flags.precision = true ∧ prec = 0 := by
          split at hlimit
          · exact ⟨‹_›, Option.some.inj hlimit⟩
          · cases hlimit
        obtain ⟨hprec, rfl⟩ := hprec
        rw [if_pos hprec, Nat.min_zero, Nat.sub_zero] at hwidth
        rw [hwidth]
        exact .noString hprec (by rwa [if_pos rfl] at hl)
    · intro h
      cases h with
      | integer hc => exact absurd hc (by decide)
      | @emptyString _ _ _ rest _ hempty =>
        refine ⟨0, by rw [hempty, strnlen_nul], [], takeString_eq_nil.mpr (Or.inl ⟨rest, hempty⟩),
          padded_eq_nil.mpr ⟨rfl, Nat.zero_sub _⟩, rfl⟩
      | @noString _ _ l _ hprec hl =>
        refine ⟨l, by rwa [if_pos rfl], [], takeString_eq_nil.mpr (Or.inr ⟨by rw [if_pos hprec], ?_⟩),
          padded_eq_nil.mpr ⟨rfl, Nat.zero_sub _⟩, rfl⟩
        intro hnil
        rw [hnil] at hl
        cases hl

/-- An integer conversion writes nothing exactly in the silent case. -/
theorem convert_integer {env : Environment} {c : Byte} {flags : Flags} {width prec : ℕ}
    {args args' : List Word} (hc : c ∈ integerSpecifiers) :
    convert env c flags width prec args = some ([], args') ↔
      SilentConversion env c flags width prec args args' := by
  have hs : c ≠ chr 's' := by
    rintro rfl
    revert hc
    decide
  rw [convert, if_pos hc, Option.map_eq_some_iff]
  constructor
  · rintro ⟨⟨⟨value, negative⟩, rest⟩, harg, heq⟩
    obtain ⟨hnil, rfl⟩ := Prod.mk.inj heq
    rw [ntoa_eq_nil, integerFlags_left, integerFlags_precision, (integerFlags_sign c flags).1,
      (integerFlags_sign c flags).2] at hnil
    obtain ⟨rfl, hprec, rfl, hleft, rfl, hplus, hspace⟩ := hnil
    refine .integer hc hprec hleft ?_ harg
    intro hsigned
    rw [hsigned, Bool.true_and] at hplus hspace
    exact ⟨hplus, hspace⟩
  · intro h
    cases h with
    | integer _ hprec hleft hsign harg =>
      refine ⟨_, harg, ?_⟩
      simp only [Prod.mk.injEq, and_true]
      rw [ntoa_eq_nil, integerFlags_left, integerFlags_precision, (integerFlags_sign c flags).1,
        (integerFlags_sign c flags).2]
      refine ⟨rfl, hprec, rfl, hleft, rfl, ?_⟩
      cases hsigned : isSigned c with
      | false => exact ⟨rfl, rfl⟩
      | true => exact hsign hsigned
    | emptyString => exact absurd rfl hs
    | noString => exact absurd rfl hs

/-- Only these conversions write nothing. -/
theorem convert_eq_nil {env : Environment} {c : Byte} {flags : Flags} {width prec : ℕ}
    {args args' : List Word} :
    convert env c flags width prec args = some ([], args') ↔
      SilentConversion env c flags width prec args args' := by
  by_cases hint : c ∈ integerSpecifiers
  · exact convert_integer hint
  by_cases hstr : c = chr 's'
  · rw [hstr]
    exact convert_string
  have hsilent : ¬ SilentConversion env c flags width prec args args' := by
    intro h
    cases h with
    | integer hc => exact hint hc
    | emptyString => exact hstr rfl
    | noString => exact hstr rfl
  refine iff_of_false ?_ hsilent
  rw [convert, if_neg hint]
  by_cases hfloat : c = chr 'f' ∨ c = chr 'F'
  · rw [if_pos hfloat, Option.map_eq_some_iff]
    rintro ⟨⟨value, args⟩, -, heq⟩
    exact env.floats.ftoa_ne_nil _ _ _ _ (Prod.mk.inj heq).1
  rw [if_neg hfloat]
  by_cases hexp : c ∈ [chr 'e', chr 'E', chr 'g', chr 'G']
  · rw [if_pos hexp, Option.map_eq_some_iff]
    rintro ⟨⟨value, args⟩, -, heq⟩
    exact env.floats.etoa_ne_nil _ _ _ _ (Prod.mk.inj heq).1
  rw [if_neg hexp]
  by_cases hchar : c = chr 'c'
  · rw [if_pos hchar, Option.map_eq_some_iff]
    rintro ⟨⟨w, args⟩, -, heq⟩
    exact List.cons_ne_nil _ _ (padded_eq_nil.mp (Prod.mk.inj heq).1).1
  rw [if_neg hchar, if_neg hstr]
  by_cases hpointer : c = chr 'p'
  · -- a pointer has a width of its own
    rw [if_pos hpointer, Option.map_eq_some_iff]
    rintro ⟨⟨w, args⟩, -, heq⟩
    have hwidth := (ntoa_eq_nil.mp (Prod.mk.inj heq).1).2.2.1
    exact absurd hwidth (by decide)
  · rw [if_neg hpointer]
    intro heq
    exact List.cons_ne_nil _ _ (Prod.mk.inj (Option.some.inj heq)).1

/-! ## Formats that write nothing -/

/-- A format that writes nothing: conversions that do, up to its end. -/
inductive SilentText (env : Environment) : List Byte → List Word → Prop
  | nul {rest : List Byte} {args : List Word} : SilentText env (0 :: rest) args
  | conversion {format rest : List Byte} {args args₁ args₂ args₃ : List Word} {d : Directive}
      {flags : Flags} {width prec : ℕ} :
      directive format = some (d, rest) → widthOf d.flags args d.width = some ((flags, width), args₁) →
      precisionOf args₁ d.precision = some (prec, args₂) →
      SilentConversion env d.specifier flags width prec args₂ args₃ → SilentText env rest args₃ →
      SilentText env (chr '%' :: format) args

/-- A format writes nothing exactly if all its conversions do. -/
theorem vsnprintf_eq_nil (env : Environment) (format : List Byte) (args : List Word) :
    vsnprintf env format args = some [] ↔ SilentText env format args := by
  induction format, args using vsnprintf.induct with
  | case1 args =>
    refine iff_of_false ?_ (by rintro ⟨⟩)
    rw [vsnprintf]
    exact Option.some_ne_none _ ∘ Eq.symm
  | case2 format args => exact iff_of_true (vsnprintf_nul env format args) .nul
  | case3 c format args hnul hpercent ih =>
    refine iff_of_false ?_ ?_
    · rw [vsnprintf_char env format args hnul hpercent, Option.map_eq_some_iff]
      rintro ⟨text, -, heq⟩
      cases heq
    · intro h
      cases h with
      | nul => exact hnul rfl
      | conversion => exact hpercent rfl
  | case4 c format args hnul hpercent hnone =>
    obtain rfl := not_not.mp hpercent
    refine iff_of_false ?_ ?_
    · rw [vsnprintf_unfinished env format args hnone]
      exact Option.some_ne_none _ ∘ Eq.symm
    · intro h
      cases h with
      | conversion hd =>
        rw [hnone] at hd
        cases hd
  | case5 c format args hnul hpercent d rest hd _ ih =>
    -- the text of the directive and the rest are both empty
    obtain rfl := not_not.mp hpercent
    rw [vsnprintf_directive env format args hd]
    simp only [render, Option.bind_eq_some_iff, Option.map_eq_some_iff, Prod.exists,
      List.append_eq_nil_iff]
    constructor
    · rintro ⟨text, args₃, ⟨flags, width, args₁, hwidth, prec, args₂, hprec, hconv⟩, out, hout, rfl, rfl⟩
      exact .conversion hd hwidth hprec (convert_eq_nil.mp hconv) ((ih args₃).mp hout)
    · intro h
      cases h with
      | conversion hd' hwidth hprec hconv hrest =>
        rw [hd] at hd'
        obtain ⟨rfl, rfl⟩ := Prod.mk.inj (Option.some.inj hd')
        exact ⟨[], _, ⟨_, _, _, hwidth, _, _, hprec, convert_eq_nil.mpr hconv⟩, [],
          (ih _).mpr hrest, rfl, rfl⟩

/-- And so does `printk`. -/
theorem printk_eq_nil (env : Environment) (format : List Byte) (args : List Word) :
    printk env format args = some [] ↔ SilentText env format args := by
  rw [← vsnprintf_eq_nil, printk, Option.bind_eq_some_iff]
  constructor
  · rintro ⟨text, htext, hprint⟩
    split at hprint
    · have htake := Option.some.inj hprint
      rw [List.take_eq_nil_iff] at htake
      rw [htext, htake.resolve_left (by decide)]
    · cases hprint
  · intro h
    refine ⟨[], h, ?_⟩
    have hroom := env.le_room
    rw [printkBufferSize] at hroom
    rw [List.length_nil, if_pos (by omega), List.take_nil]

theorem zero_ne_nil (_ : Flags) (_ _ : ℕ) (_ : Word × Word) : [chr '0'] ≠ [] := List.cons_ne_nil _ _

/-- A format that writes a 0 for every number. -/
def zeroFormat : FloatFormat where
  ftoa _ _ _ _ := [chr '0']
  etoa _ _ _ _ := [chr '0']
  ftoa_ne_nil := zero_ne_nil
  etoa_ne_nil := zero_ne_nil

theorem printkBufferSize_lt : printkBufferSize < 2 ^ 31 := by decide

end Sakura.Libk.Printf
