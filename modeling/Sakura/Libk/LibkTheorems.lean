import Sakura.Libk.Libk

/-!
# `memmove` is a simultaneous copy, `strcpy` an unterminated one

A loop that copies upwards may overlap its source as long as it writes below what it has still to
read, a loop that copies downwards as long as it writes above; `memmove` chooses accordingly
(`memmove_copies`).

`strcpy` copies `strlen(source)` bytes, and so not the terminator. The copy ends where the source
does exactly if the byte there was 0 before (`strcpy_equal_iff`).
-/

namespace Sakura.Libk.Memory

open FlatMemory

variable {m m' : Memory} {dst src str : BitVec 32} {size n : ℕ}

/-! ## The two loops -/

theorem copyByte_step {done : ℕ → Prop} (h : CopiedOn m m' dst src done) {i : ℕ}
    (hunwritten : ∀ j, done j → index src i ≠ index dst j)
    (hnew : ∀ j, done j → index dst j ≠ index dst i) :
    CopiedOn m (copyByte dst src m' i) dst src fun j => done j ∨ j = i :=
  h.step hunwritten hnew

/-- Upwards: the bytes below `n` are done, and none of them is the source of a later one. -/
theorem copiedOn_up (hn : n ≤ 2 ^ 32)
    (hbelow : ∀ i < n, ∀ j < i, index src i ≠ index dst j) :
    CopiedOn m ((List.range n).foldl (copyByte dst src) m) dst src (· < n) := by
  induction n with
  | zero => exact CopiedOn.refl m dst src Nat.not_lt_zero
  | succ n ih =>
    have hrest := ih (by omega) fun i hi => hbelow i (by omega)
    rw [List.range_succ, List.foldl_append]
    refine (copyByte_step hrest (hbelow n (by omega)) ?_).congr fun j => by omega
    intro j hj
    rw [Ne, index_inj dst (by omega) (by omega)]
    omega

/-- Downwards: the bytes from `i` on are done, and none of them is the source of an earlier one. -/
theorem copiedOn_down (hsize : size ≤ 2 ^ 32)
    (habove : ∀ i < size, ∀ j < size, i < j → index src i ≠ index dst j) (i : ℕ) :
    ∀ {m' : Memory}, i ≤ size → CopiedOn m m' dst src (fun j => i ≤ j ∧ j < size) →
      CopiedOn m (copyDown dst src i m') dst src (· < size) := by
  induction i with
  | zero =>
    intro m' _ h
    exact h.congr fun j => by omega
  | succ i ih =>
    intro m' hi h
    rw [copyDown]
    apply ih (by omega)
    refine (copyByte_step h ?_ ?_).congr fun j => by omega
    · intro j hj
      exact habove i (by omega) j hj.2 (by omega)
    · intro j hj
      rw [Ne, index_inj dst (by omega) (by omega)]
      omega

/-! ## `memmove` -/

/-- However the ranges overlap, each byte of the destination becomes what its source held before
the call, and nothing else changes. -/
theorem memmove_copies (m : Memory) (dst src : BitVec 32) (size : ℕ)
    (hdst : dst.toNat + size ≤ 2 ^ 32) (hsrc : src.toNat + size ≤ 2 ^ 32) :
    (∀ i < size, (m.memmove dst src size).read dst i = m.read src i) ∧
      ∀ a, ¬ Within dst size a → (m.memmove dst src size).cell a = m.cell a := by
  have hcopied : CopiedOn m (m.memmove dst src size) dst src (· < size) := by
    unfold memmove
    split
    · rename_i hlt
      rw [BitVec.lt_def] at hlt
      apply copiedOn_up (by omega)
      intro i hi j hj heq
      have hnat := congrArg BitVec.toNat heq
      rw [toNat_index (by omega), toNat_index (by omega)] at hnat
      omega
    · rename_i hge
      rw [BitVec.lt_def] at hge
      apply copiedOn_down (by omega) _ size (Nat.le_refl size)
      · exact CopiedOn.refl m dst src fun j hj => by omega
      · intro i hi j hj hij heq
        have hnat := congrArg BitVec.toNat heq
        rw [toNat_index (by omega), toNat_index (by omega)] at hnat
        omega
  refine ⟨hcopied.copied, ?_⟩
  intro a ha
  apply hcopied.other
  intro i hi heq
  exact ha ⟨i, hi, heq⟩

/-- Memory in which every byte holds the last byte of its address. -/
def numbered : Memory := ⟨fun a => a.setWidth 8⟩

/-- Four bytes, moved up by one and down by one. -/
theorem memmove_copies_overlap :
    (numbered.memmove 0x101 0x100 4).read 0x101 3 = 3 ∧
      (numbered.memmove 0x100 0x101 4).read 0x100 3 = 4 :=
  ⟨(memmove_copies numbered 0x101 0x100 4 (by decide) (by decide)).1 3 (by decide),
    (memmove_copies numbered 0x100 0x101 4 (by decide) (by decide)).1 3 (by decide)⟩

/-! ## `strlen` -/

/-- A string of `n` bytes at `str`, the terminator not counted. -/
structure IsString (m : Memory) (str : BitVec 32) (n : ℕ) : Prop where
  terminated : m.read str n = 0
  nonzero : ∀ i < n, m.read str i ≠ 0

/-- What is 0 further round memory is 0 before. -/
theorem IsString.lt (h : IsString m str n) : n < 2 ^ 32 := by
  by_contra hge
  have hmod : n % 2 ^ 32 < n := by omega
  apply h.nonzero _ hmod
  rw [read_mod]
  exact h.terminated

theorem strlenFrom_eq_some (fuel : ℕ) : ∀ {len : ℕ}, (∀ i < len, m.read str i ≠ 0) →
    (m.strlenFrom str fuel len = some n ↔ len ≤ n ∧ n < len + fuel ∧ IsString m str n) := by
  induction fuel with
  | zero =>
    intro len _
    rw [strlenFrom]
    constructor
    · intro h
      cases h
    · intro h
      omega
  | succ fuel ih =>
    intro len hbefore
    rw [strlenFrom]
    split
    · rename_i hzero
      constructor
      · intro h
        obtain rfl := Option.some.inj h
        exact ⟨Nat.le_refl len, by omega, hzero, hbefore⟩
      · rintro ⟨hle, -, hstring⟩
        congr 1
        by_contra hne
        exact hstring.nonzero len (by omega) hzero
    · rename_i hnonzero
      rw [ih]
      · constructor
        · rintro ⟨hle, hlt, hstring⟩
          exact ⟨by omega, by omega, hstring⟩
        · rintro ⟨hle, hlt, hstring⟩
          refine ⟨?_, by omega, hstring⟩
          by_contra hgt
          obtain rfl : n = len := by omega
          exact hnonzero hstring.terminated
      · intro i hi
        rcases Nat.lt_succ_iff_lt_or_eq.mp hi with hlt | rfl
        · exact hbefore i hlt
        · exact hnonzero

/-- `strlen` returns exactly if there is a string, and then its length. -/
theorem strlen_eq_some : m.strlen str = some n ↔ IsString m str n := by
  rw [strlen, strlenFrom_eq_some _ fun i hi => absurd hi (Nat.not_lt_zero i)]
  constructor
  · intro h
    exact h.2.2
  · intro h
    have hlt := h.lt
    exact ⟨Nat.zero_le n, by omega, h⟩

/-! ## `strcpy` -/

/-- The bytes of the string at `str`. -/
def string (m : Memory) (str : BitVec 32) : Option (List (BitVec 8)) :=
  (m.strlen str).map fun n => (List.range n).map (m.read str)

/-- `m'` has at `destination` the string of `n` bytes that `m` has at `source`, and is otherwise
like `m`. -/
structure StringCopied (m m' : Memory) (destination source : BitVec 32) (n : ℕ) : Prop where
  string : m'.string destination = m.string source
  strlen : m'.strlen destination = m.strlen source
  beyond : ∀ a, ¬ Within destination (n + 1) a → m'.cell a = m.cell a

/-- The ranges of `n` bytes do not overlap. -/
def Apart (p q : BitVec 32) (n : ℕ) : Prop := ∀ a, Within p n a → ¬ Within q n a

theorem copiedOn_memcpy {destination source : BitVec 32} (hn : n < 2 ^ 32)
    (hapart : Apart source destination (n + 1)) :
    CopiedOn m (m.memcpy destination source n) destination source (· < n) := by
  apply copiedOn_up (by omega)
  intro i hi j hj heq
  exact hapart _ ⟨i, by omega, rfl⟩ ⟨j, by omega, heq⟩

theorem strcpy_eq_some {destination source : BitVec 32} (h : IsString m source n) :
    m.strcpy destination source = some (m.memcpy destination source n) := by
  rw [strcpy, strlen_eq_some.mpr h]
  rfl

/-- The copy of the bytes of a string is that string exactly if the byte behind it is 0. -/
theorem stringCopied_iff {destination source : BitVec 32} (hsource : IsString m source n)
    (hapart : Apart source destination (n + 1)) :
    StringCopied m (m.memcpy destination source n) destination source n ↔
      m.read destination n = 0 := by
  have hlt := hsource.lt
  have hlen : m.strlen source = some n := strlen_eq_some.mpr hsource
  have hcopied := copiedOn_memcpy (m := m) hlt hapart
  -- the byte behind the copy is the old one
  have hlast : (m.memcpy destination source n).read destination n = m.read destination n := by
    apply hcopied.other
    intro i hi
    rw [Ne, index_inj destination hlt (by omega)]
    omega
  constructor
  · intro h
    rw [← hlast]
    exact (strlen_eq_some.mp (h.strlen.trans hlen)).terminated
  · intro hzero
    have hstring : IsString (m.memcpy destination source n) destination n := by
      refine ⟨hlast.trans hzero, ?_⟩
      intro i hi
      rw [hcopied.copied i hi]
      exact hsource.nonzero i hi
    have hlen' := strlen_eq_some.mpr hstring
    refine ⟨?_, hlen'.trans hlen.symm, ?_⟩
    · rw [string, string, hlen, hlen']
      simp only [Option.map_some, Option.some.injEq]
      apply List.map_congr_left
      intro i hi
      exact hcopied.copied i (List.mem_range.mp hi)
    · intro a ha
      apply hcopied.other
      intro i hi heq
      exact ha ⟨i, by omega, heq⟩

/-- `strcpy` returns, and the string is at `destination` exactly if the byte behind the bytes it
copies was 0 all along. -/
theorem strcpy_equal_iff (m : Memory) (destination source : BitVec 32) (n : ℕ)
    (hsource : IsString m source n) (hapart : Apart source destination (n + 1)) :
    ∃ m', m.strcpy destination source = some m' ∧
      (StringCopied m m' destination source n ↔ m.read destination n = 0) :=
  ⟨_, strcpy_eq_some hsource, stringCopied_iff hsource hapart⟩

/-- The string `"a"` at `0x200`, and behind `0x100` whatever was there. -/
def letter (there : BitVec 8) : Memory :=
  ⟨fun a => if a = 0x200 then 0x61 else if a = 0x201 then 0 else there⟩

theorem isString_letter (there : BitVec 8) : IsString (letter there) 0x200 1 := by
  refine ⟨rfl, ?_⟩
  intro i hi
  obtain rfl : i = 0 := by omega
  have hread : (letter there).read 0x200 0 = 0x61 := rfl
  rw [hread]
  decide

theorem apart_letter : Apart 0x200 0x100 2 := by
  intro a hsource hdestination
  have hend : (0x100 : BitVec 32).toNat + 2 ≤ (0x200 : BitVec 32).toNat := by decide
  rw [within_iff (by decide)] at hsource hdestination
  omega

/-- A copy to cleared memory. -/
theorem strcpy_equal_cleared :
    ∃ m', (letter 0).strcpy 0x100 0x200 = some m' ∧ StringCopied (letter 0) m' 0x100 0x200 1 := by
  obtain ⟨m', hm', hiff⟩ := strcpy_equal_iff (letter 0) 0x100 0x200 1 (isString_letter 0) apart_letter
  exact ⟨m', hm', hiff.mpr rfl⟩

/-- A copy over something else does not end. -/
theorem strcpy_unterminated :
    IsString (letter 0xFF) 0x200 1 ∧ Apart 0x200 0x100 2 ∧
      ∃ m', (letter 0xFF).strcpy 0x100 0x200 = some m' ∧
        ¬ StringCopied (letter 0xFF) m' 0x100 0x200 1 := by
  refine ⟨isString_letter 0xFF, apart_letter, _, strcpy_eq_some (isString_letter 0xFF), ?_⟩
  rw [stringCopied_iff (isString_letter 0xFF) apart_letter]
  decide

end Sakura.Libk.Memory
