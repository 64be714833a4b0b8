import Mathlib.Data.Nat.Log
import Mathlib.Data.List.Nodup
import Sakura.Lib.Tiling
import Sakura.Libk.Kmalloc

/-!
# The lists of tags

What one operation of `kmalloc.cpp` does to the lists of the free blocks, and to the list of the
blocks of a region. Both are doubly linked lists; a region's blocks also tile it.
-/

namespace Sakura.Libk.Liballoc

open DoublyLinked

variable {h h' : Liballoc} {a b tag : ℕ} {i k : ℤ}

/-! ## Numbers -/

theorem sub_eq {x y : ℕ} (hyx : y ≤ x) (hx : x < 2 ^ 32) : sub x y = x - y := by
  rw [sub, show x + 2 ^ 32 - y = x - y + 2 ^ 32 by omega, Nat.add_mod_right]
  exact Nat.mod_eq_of_lt (by omega)

/-- The loop finds the first power of two above `size`. -/
theorem getexpLoop_spec {size : ℕ} (hsize : size < 2 ^ 32) : ∀ n shift : ℕ, n + shift = 32 →
    0 < shift → 2 ^ (shift - 1) ≤ size →
    2 ^ (getexpLoop size n shift - 1) ≤ size ∧ size < 2 ^ getexpLoop size n shift ∧
      shift ≤ getexpLoop size n shift ∧ getexpLoop size n shift ≤ 32
  | 0, shift, hn, _, hle => by
    obtain rfl : shift = 32 := by omega
    exact ⟨hle, hsize, Nat.le_refl _, Nat.le_refl _⟩
  | n + 1, shift, hn, hpos, hle => by
    rw [getexpLoop]
    split
    · next hlt => exact ⟨hle, hlt, Nat.le_refl _, by omega⟩
    · next hge =>
      obtain ⟨h1, h2, h3, h4⟩ := getexpLoop_spec hsize n (shift + 1) (by omega)
        (Nat.succ_pos _) (Nat.not_lt.mp hge)
      exact ⟨h1, h2, by omega, h4⟩

/-- The list a free block with so many bytes belongs on. -/
def indexOf (size : ℕ) : ℤ := max 8 (Nat.log 2 size : ℤ)

theorem getexp_of_lt {size : ℕ} (hsize : size < 2 ^ 8) : getexp size = -1 := if_pos hsize

/-- The exponent is the logarithm, rounded down. -/
theorem getexp_of_le {size : ℕ} (hle : 2 ^ 8 ≤ size) (hsize : size < 2 ^ 32) :
    getexp size = Nat.log 2 size := by
  obtain ⟨hlo, hhi, hge, -⟩ := getexpLoop_spec hsize 24 8 rfl (by omega)
    (by omega)
  rw [getexp, if_neg (Nat.not_lt.mpr hle)]
  have hlog : Nat.log 2 size = getexpLoop size 24 8 - 1 := by
    refine Nat.log_eq_of_pow_le_of_lt_pow hlo ?_
    rw [show getexpLoop size 24 8 - 1 + 1 = getexpLoop size 24 8 by omega]
    exact hhi
  omega

theorem log_lt {size : ℕ} (hsize : size < 2 ^ 32) : Nat.log 2 size < 32 := by
  by_cases hzero : size = 0
  · rw [hzero, Nat.log_zero_right]
    omega
  · exact Nat.log_lt_of_lt_pow hzero hsize

/-- `getexp`, with the lists that begin at `MINEXP`. -/
theorem max_getexp {size : ℕ} (hsize : size < 2 ^ 32) : max (getexp size) minExp = indexOf size := by
  rw [indexOf, minExp, max_comm]
  by_cases hlt : size < 2 ^ 8
  · have hlog : Nat.log 2 size < 8 := by
      by_cases hzero : size = 0
      · rw [hzero, Nat.log_zero_right]
        omega
      · exact Nat.log_lt_of_lt_pow hzero hlt
    rw [getexp_of_lt hlt]
    omega
  · rw [getexp_of_le (Nat.not_lt.mp hlt) hsize]

/-- The index of a block lies in the array. -/
theorem indexOf_range {size : ℕ} (hsize : size < 2 ^ 32) : 0 ≤ indexOf size ∧ indexOf size < maxExp := by
  have := log_lt hsize
  rw [indexOf, maxExp]
  omega

/-- Within the array its element is read. -/
theorem element_eq {β : Type*} {f : ℤ → β} (hi : 0 ≤ i ∧ i < maxExp) : element f i = some (f i) :=
  if_pos hi

/-! ## The fields of the tags -/

section

variable {f : BoundaryTag → BoundaryTag} {p : Option ℕ}

theorem tags_modify : (h.modify a f).tags b = if b = a then f (h.tags b) else h.tags b := rfl

theorem tags_modify? : (h.modify? p f).tags b = if p = some b then f (h.tags b) else h.tags b := by
  cases p with
  | none => rfl
  | some a => simp only [modify?, tags_modify, Option.some.injEq, eq_comm]

@[simp] theorem freePages_modify : (h.modify a f).freePages = h.freePages := rfl
@[simp] theorem completePages_modify : (h.modify a f).completePages = h.completePages := rfl
@[simp] theorem initialized_modify : (h.modify a f).initialized = h.initialized := rfl

@[simp] theorem freePages_modify? : (h.modify? p f).freePages = h.freePages := by cases p <;> rfl
@[simp] theorem completePages_modify? : (h.modify? p f).completePages = h.completePages := by
  cases p <;> rfl
@[simp] theorem initialized_modify? : (h.modify? p f).initialized = h.initialized := by
  cases p <;> rfl

end

/-- Only the lists of the free blocks differ. -/
structure SameBlocks (h h' : Liballoc) : Prop where
  magic : ∀ b, (h'.tags b).magic = (h.tags b).magic
  size : ∀ b, (h'.tags b).size = (h.tags b).size
  realSize : ∀ b, (h'.tags b).realSize = (h.tags b).realSize
  splitLeft : ∀ b, (h'.tags b).splitLeft = (h.tags b).splitLeft
  splitRight : ∀ b, (h'.tags b).splitRight = (h.tags b).splitRight
  completePages : h'.completePages = h.completePages
  initialized : h'.initialized = h.initialized

/-- Only the blocks differ. -/
structure SameLists (h h' : Liballoc) : Prop where
  index : ∀ b, (h'.tags b).index = (h.tags b).index
  next : ∀ b, (h'.tags b).next = (h.tags b).next
  prev : ∀ b, (h'.tags b).prev = (h.tags b).prev
  size : ∀ b, (h'.tags b).size = (h.tags b).size
  freePages : h'.freePages = h.freePages
  completePages : h'.completePages = h.completePages
  initialized : h'.initialized = h.initialized

/-! ## The lists of the free blocks -/

/-- `lists i` is the list at `l_freePages[i]`: the tags with that index. The others are on no
list. -/
structure Lists (h : Liballoc) (Tag : ℕ → Prop) (lists : ℤ → List ℕ) : Prop where
  first : ∀ i, 0 ≤ i ∧ i < maxExp → h.freePages i = (lists i).head?
  linked : ∀ i, Linked (fun b => (h.tags b).prev) (fun b => (h.tags b).next) (lists i)
  nodup : ∀ i, (lists i).Nodup
  mem_iff : ∀ i b, b ∈ lists i ↔ Tag b ∧ 0 ≤ i ∧ (h.tags b).index = i
  index_lt : ∀ b, Tag b → (h.tags b).index < maxExp
  unlisted : ∀ b, Tag b → (h.tags b).index < 0 →
    (h.tags b).index = -1 ∧ (h.tags b).next = none ∧ (h.tags b).prev = none

/-- There are such lists. -/
def Listed (h : Liballoc) (Tag : ℕ → Prop) : Prop := ∃ lists, Lists h Tag lists

/-- What `remove_tag` writes. -/
theorem removeTag_eq (hi : 0 ≤ (h.tags a).index ∧ (h.tags a).index < maxExp)
    (hprev : (h.tags a).prev ≠ some a) :
    ∃ h', h.removeTag a = some h' ∧ SameBlocks h h' ∧
      (∀ b, (h'.tags b).index = if b = a then -1 else (h.tags b).index) ∧
      (∀ b, (h'.tags b).next = if b = a then none else
        if (h.tags a).prev = some b then (h.tags a).next else (h.tags b).next) ∧
      (∀ b, (h'.tags b).prev = if b = a then none else
        if (h.tags a).next = some b then (h.tags a).prev else (h.tags b).prev) ∧
      h'.freePages = if h.freePages (h.tags a).index = some a then
        Function.update h.freePages (h.tags a).index (h.tags a).next else h.freePages := by
  obtain ⟨h₀, hh₀, htags, hcomplete, hinit, hfree⟩ : ∃ h₀ : Liballoc,
      (if h.freePages (h.tags a).index = some a then
        { h with freePages := Function.update h.freePages (h.tags a).index (h.tags a).next }
      else h) = h₀ ∧ h₀.tags = h.tags ∧ h₀.completePages = h.completePages ∧
      h₀.initialized = h.initialized ∧ h₀.freePages =
        if h.freePages (h.tags a).index = some a then
          Function.update h.freePages (h.tags a).index (h.tags a).next else h.freePages := by
    refine ⟨_, rfl, ?_⟩
    split_ifs <;> exact ⟨rfl, rfl, rfl, rfl⟩
  have heq : h.removeTag a = some (((h₀.modify? (h.tags a).prev fun t =>
        { t with next := (h.tags a).next }).modify? (h.tags a).next fun t =>
        { t with prev := (h.tags a).prev }).modify a fun t =>
        { t with next := none, prev := none, index := -1 }) := by
    rw [removeTag, element_eq hi, Option.bind_eq_bind, Option.bind_some, hh₀]
    simp only [tags_modify?, htags, if_neg hprev, Option.pure_def]
  refine ⟨_, heq, ⟨?_, ?_, ?_, ?_, ?_, ?_, ?_⟩, ?_, ?_, ?_, ?_⟩
  case refine_6 => simpa using hcomplete
  case refine_7 => simpa using hinit
  case refine_11 => simpa using hfree
  all_goals
    intro b
    simp only [tags_modify, tags_modify?, htags]
    split_ifs <;> rfl

/-- What `insert_tag` writes, on the list `k`. -/
theorem insertTag_eq {index : ℤ} (hk : 0 ≤ k ∧ k < maxExp)
    (hindex : (if index < 0 then max (getexp (sub (h.tags a).realSize sizeofTag)) minExp
      else index) = k) (hfirst : h.freePages k ≠ some a) (hnext : (h.tags a).next = none) :
    ∃ h', h.insertTag a index = some h' ∧ SameBlocks h h' ∧
      (∀ b, (h'.tags b).index = if b = a then k else (h.tags b).index) ∧
      (∀ b, (h'.tags b).next = if b = a then h.freePages k else (h.tags b).next) ∧
      (∀ b, (h'.tags b).prev = if h.freePages k = some b then some a else (h.tags b).prev) ∧
      h'.freePages = Function.update h.freePages k (some a) := by
  obtain ⟨h₀, hh₀, htags, hcomplete, hinit, hfree⟩ : ∃ h₀ : Liballoc,
      (if (h.freePages k).isSome then
        ((h.modify a fun t => { t with index := k }).modify? (h.freePages k) fun t =>
          { t with prev := some a }).modify a fun t => { t with next := h.freePages k }
      else (h.modify a fun t => { t with index := k }).modify? (h.freePages k) fun t =>
          { t with prev := some a }) = h₀ ∧
      (∀ b, h₀.tags b = { h.tags b with
        index := if b = a then k else (h.tags b).index
        next := if b = a then h.freePages k else (h.tags b).next
        prev := if h.freePages k = some b then some a else (h.tags b).prev }) ∧
      h₀.completePages = h.completePages ∧ h₀.initialized = h.initialized ∧
      h₀.freePages = h.freePages := by
    refine ⟨_, rfl, ?_⟩
    cases hp : h.freePages k with
    | none =>
      refine ⟨fun b => ?_, rfl, rfl, rfl⟩
      simp only [Option.isSome_none, Bool.false_eq_true, if_false, modify?, tags_modify]
      split_ifs with hb <;> simp_all
    | some c =>
      refine ⟨fun b => ?_, rfl, rfl, rfl⟩
      simp only [Option.isSome_some, if_true, tags_modify, tags_modify?]
      split_ifs <;> simp_all
  have heq : h.insertTag a index =
      some { h₀ with freePages := Function.update h₀.freePages k (some a) } := by
    rw [insertTag]
    simp only [hindex, freePages_modify, element_eq hk, Option.bind_eq_bind, Option.bind_some,
      Option.pure_def, hh₀]
  refine ⟨_, heq, ⟨?_, ?_, ?_, ?_, ?_, ?_, ?_⟩, ?_, ?_, ?_, ?_⟩
  case refine_6 => exact hcomplete
  case refine_7 => exact hinit
  case refine_11 => exact congrArg (Function.update · k (some a)) hfree
  all_goals
    intro b
    simp only [htags]

section

variable {Tag Tag' : ℕ → Prop} {lists : ℤ → List ℕ}

/-- A tag in a list has the index of the list. -/
theorem Lists.index_eq (hl : Lists h Tag lists) (hb : b ∈ lists i) : (h.tags b).index = i :=
  ((hl.mem_iff i b).mp hb).2.2

/-- The neighbours of a tag on a list are on the same list. -/
theorem Lists.mem_neighbours (hl : Lists h Tag lists) (ha : a ∈ lists i) :
    ((h.tags a).prev = some b → b ∈ lists i) ∧ ((h.tags a).next = some b → b ∈ lists i) := by
  constructor
  · intro hb
    obtain ⟨xs, ys, hsplit⟩ := (hl.linked i).exists_prev ha hb
    simp [hsplit]
  · intro hb
    obtain ⟨xs, ys, hsplit⟩ := (hl.linked i).exists_next ha hb
    simp [hsplit]

/-- A tag is taken out of the list of its index, and no other field changes. -/
theorem removeTag_spec (hl : Listed h Tag) (ha : Tag a) (hi : 0 ≤ (h.tags a).index) :
    ∃ h', h.removeTag a = some h' ∧ Listed h' Tag ∧ SameBlocks h h' ∧
      ∀ b, (h'.tags b).index = if b = a then -1 else (h.tags b).index := by
  obtain ⟨lists, hl⟩ := hl
  obtain ⟨i, hindex⟩ : ∃ i, (h.tags a).index = i := ⟨_, rfl⟩
  have hrange : 0 ≤ (h.tags a).index ∧ (h.tags a).index < maxExp := ⟨hi, hl.index_lt a ha⟩
  have hmem : a ∈ lists i := (hl.mem_iff i a).mpr ⟨ha, hindex ▸ hi, hindex⟩
  obtain ⟨xs, ys, hsplit⟩ := List.append_of_mem hmem
  have hlinked := hl.linked i
  have hnodup := hl.nodup i
  rw [hsplit] at hlinked hnodup
  obtain ⟨hprev, hnext⟩ := hlinked.neighbours
  obtain ⟨hnotin, hnodup'⟩ := List.nodup_cons.mp (List.nodup_middle.mp hnodup)
  have hprev_ne : (h.tags a).prev ≠ some a := fun hself =>
    hnotin (List.mem_append_left ys (List.mem_of_getLast? (hprev.symm.trans hself)))
  obtain ⟨h', heq, hsame, hindex', hnext', hprev', hfree'⟩ := removeTag_eq hrange hprev_ne
  refine ⟨h', heq, ⟨fun j => if j = i then xs ++ ys else lists j, ?_⟩, hsame, hindex'⟩
  have hne : ∀ j b, b ∈ (if j = i then xs ++ ys else lists j) → b ≠ a := by
    rintro j b hb rfl
    split_ifs at hb with hj
    · exact hnotin hb
    · exact hj ((hl.index_eq hb).symm.trans hindex)
  constructor
  case first =>
    intro j hj
    have hfirst := hl.first j hj
    rw [hfree', hindex]
    by_cases hji : j = i
    · subst hji
      rw [hfirst, hsplit, if_pos rfl]
      cases xs with
      | nil => simpa using hnext
      | cons x xs =>
        have hx : x ≠ a := hne j x (by simp)
        simp [hx, hfirst, hsplit]
    · rw [if_neg hji, ← hfirst]
      split_ifs
      · exact Function.update_of_ne hji _ _
      · rfl
  case linked =>
    intro j
    by_cases hji : j = i
    · subst hji
      rw [if_pos rfl]
      refine hlinked.unlink hnodup (fun b hb => ?_) (fun b hb => ?_)
      · rw [hprev' b, if_neg (hne j b (by rwa [if_pos rfl]))]
      · rw [hnext' b, if_neg (hne j b (by rwa [if_pos rfl]))]
    · rw [if_neg hji]
      refine (hl.linked j).congr fun b hb => ?_
      have hba : b ≠ a := hne j b (by rwa [if_neg hji])
      -- a neighbour of `a` is on its list, and no tag is on two
      have hother : ¬ b ∈ lists i := fun hbi => hji ((hl.index_eq hb).symm.trans (hl.index_eq hbi))
      have hnear := hl.mem_neighbours (b := b) hmem
      rw [hprev' b, hnext' b, if_neg hba, if_neg hba, if_neg (mt hnear.1 hother),
        if_neg (mt hnear.2 hother)]
      exact ⟨rfl, rfl⟩
  case nodup =>
    intro j
    split_ifs
    · exact hnodup'
    · exact hl.nodup j
  case mem_iff =>
    intro j b
    rw [hindex' b]
    by_cases hba : b = a
    · subst hba
      rw [if_pos rfl]
      constructor
      · exact fun hb => absurd rfl (hne j b hb)
      · rintro ⟨-, hj, rfl⟩
        omega
    · rw [if_neg hba, ← hl.mem_iff j b]
      by_cases hji : j = i
      · subst hji
        rw [if_pos rfl, hsplit]
        simp [hba]
      · rw [if_neg hji]
  case index_lt =>
    intro b hb
    rw [hindex' b]
    split_ifs
    · decide
    · exact hl.index_lt b hb
  case unlisted =>
    intro b hb hneg
    rw [hindex' b] at hneg ⊢
    rw [hnext' b, hprev' b]
    by_cases hba : b = a
    · simp [hba]
    · rw [if_neg hba] at hneg
      rw [if_neg hba, if_neg hba, if_neg hba]
      have hother : ¬ b ∈ lists i := fun hbi => by
        have := ((hl.mem_iff i b).mp hbi).2
        omega
      have hnear := hl.mem_neighbours (b := b) hmem
      rw [if_neg (mt hnear.1 hother), if_neg (mt hnear.2 hother)]
      exact hl.unlisted b hb hneg

/-- A tag is put at the head of the list of its size or of the index that is given. -/
theorem insertTag_spec (index : ℤ) (hl : Listed h Tag) (hout : Tag a → (h.tags a).index < 0)
    (hnext_a : (h.tags a).next = none) (hprev_a : (h.tags a).prev = none)
    (hk : 0 ≤ k ∧ k < maxExp)
    (hindex : (if index < 0 then max (getexp (sub (h.tags a).realSize sizeofTag)) minExp
      else index) = k) :
    ∃ h', h.insertTag a index = some h' ∧ Listed h' (fun b => b = a ∨ Tag b) ∧ SameBlocks h h' ∧
      ∀ b, (h'.tags b).index = if b = a then k else (h.tags b).index := by
  obtain ⟨lists, hl⟩ := hl
  have hnotin : ∀ j, a ∉ lists j := fun j hj => by
    obtain ⟨ha, hj, hindex⟩ := (hl.mem_iff j a).mp hj
    have := hout ha
    omega
  have hfirst : h.freePages k = (lists k).head? := hl.first k hk
  have hfirst_ne : h.freePages k ≠ some a := fun hself =>
    hnotin k (List.mem_of_head? (hfirst.symm.trans hself))
  obtain ⟨h', heq, hsame, hindex', hnext', hprev', hfree'⟩ :=
    insertTag_eq hk hindex hfirst_ne hnext_a
  have hne : ∀ j b, b ∈ lists j → b ≠ a := by
    rintro j b hb rfl
    exact hnotin j hb
  refine ⟨h', heq, ⟨fun j => if j = k then a :: lists k else lists j, ?_⟩, hsame, hindex'⟩
  constructor
  case first =>
    intro j hj
    rw [hfree']
    by_cases hjk : j = k
    · rw [hjk, Function.update_self, if_pos rfl, List.head?_cons]
    · rw [Function.update_of_ne hjk, if_neg hjk, hl.first j hj]
  case linked =>
    -- the list `k` has the tag in front, and no tag of another list is written
    intro j
    by_cases hjk : j = k
    · rw [if_pos hjk]
      have hlinked : Linked (fun b => (h.tags b).prev) (fun b => (h.tags b).next)
          ([] ++ lists k) := hl.linked k
      refine hlinked.insert (hl.nodup k) (fun b hb => ?_) (fun b hb => ?_) ?_ ?_
      · rw [hprev' b, hfirst]
      · rw [hnext' b, if_neg (hne k b hb)]
        rfl
      · rw [hprev' a, if_neg hfirst_ne, hprev_a]
        rfl
      · rw [hnext' a, if_pos rfl, hfirst]
    · rw [if_neg hjk]
      refine (hl.linked j).congr fun b hb => ?_
      have hother : h.freePages k ≠ some b := fun hb' => by
        have hbk := List.mem_of_head? (hfirst.symm.trans hb')
        exact hjk ((hl.index_eq hb).symm.trans (hl.index_eq hbk))
      rw [hprev' b, hnext' b, if_neg hother, if_neg (hne j b hb)]
      exact ⟨rfl, rfl⟩
  case nodup =>
    intro j
    split_ifs
    · exact List.nodup_cons.mpr ⟨hnotin k, hl.nodup k⟩
    · exact hl.nodup j
  case mem_iff =>
    intro j b
    rw [hindex' b]
    by_cases hba : b = a
    · subst hba
      rw [if_pos rfl]
      by_cases hjk : j = k
      · simp [hjk, hk.1]
      · simp [hjk, hnotin j, Ne.symm hjk]
    · rw [if_neg hba, or_iff_right hba, ← hl.mem_iff j b]
      by_cases hjk : j = k
      · simp [hjk, hba]
      · rw [if_neg hjk]
  case index_lt =>
    intro b hb
    rw [hindex' b]
    split_ifs with hba
    · exact hk.2
    · exact hl.index_lt b (hb.resolve_left hba)
  case unlisted =>
    intro b hb hneg'
    rw [hindex' b] at hneg' ⊢
    by_cases hba : b = a
    · rw [if_pos hba] at hneg'
      omega
    · replace hb := hb.resolve_left hba
      rw [if_neg hba] at hneg' ⊢
      have hother : h.freePages k ≠ some b := fun hb' => by
        have := ((hl.mem_iff k b).mp (List.mem_of_head? (hfirst.symm.trans hb'))).2
        omega
      rw [hprev' b, hnext' b, if_neg hother, if_neg hba]
      exact hl.unlisted b hb hneg'

/-- The tags that are on lists stay as they are, and the others are on none. -/
theorem Listed.congr (hl : Listed h Tag) (hfree : h'.freePages = h.freePages)
    (hkept : ∀ b, Tag b → 0 ≤ (h.tags b).index → Tag' b ∧
      (h'.tags b).index = (h.tags b).index ∧ (h'.tags b).next = (h.tags b).next ∧
      (h'.tags b).prev = (h.tags b).prev)
    (hrest : ∀ b, Tag' b → ¬ (Tag b ∧ 0 ≤ (h.tags b).index) →
      (h'.tags b).index = -1 ∧ (h'.tags b).next = none ∧ (h'.tags b).prev = none) :
    Listed h' Tag' := by
  obtain ⟨lists, hl⟩ := hl
  refine ⟨lists, ?_⟩
  constructor
  case first =>
    intro i hi
    rw [hfree, hl.first i hi]
  case linked =>
    intro i
    refine (hl.linked i).congr fun b hb => ?_
    obtain ⟨hb, hi, hindex⟩ := (hl.mem_iff i b).mp hb
    obtain ⟨-, -, hnext, hprev⟩ := hkept b hb (hindex ▸ hi)
    exact ⟨hprev, hnext⟩
  case nodup => exact hl.nodup
  case mem_iff =>
    intro i b
    rw [hl.mem_iff i b]
    constructor
    · rintro ⟨hb, hi, rfl⟩
      obtain ⟨hb', hindex, -⟩ := hkept b hb hi
      exact ⟨hb', hi, hindex⟩
    · rintro ⟨hb', hi, rfl⟩
      by_cases hb : Tag b ∧ 0 ≤ (h.tags b).index
      · exact ⟨hb.1, hi, (hkept b hb.1 hb.2).2.1.symm⟩
      · have := (hrest b hb' hb).1
        omega
  case index_lt =>
    intro b hb'
    by_cases hb : Tag b ∧ 0 ≤ (h.tags b).index
    · rw [(hkept b hb.1 hb.2).2.1]
      exact hl.index_lt b hb.1
    · rw [(hrest b hb' hb).1]
      decide
  case unlisted =>
    intro b hb' hneg
    by_cases hb : Tag b ∧ 0 ≤ (h.tags b).index
    · rw [(hkept b hb.1 hb.2).2.1] at hneg
      omega
    · exact hrest b hb' hb

/-- The lists are in the tags and in `l_freePages`. -/
theorem Listed.of_eq (hl : Listed h Tag) (htags : h'.tags = h.tags)
    (hfree : h'.freePages = h.freePages) : Listed h' Tag := by
  obtain ⟨lists, hl⟩ := hl
  refine ⟨lists, ⟨?_, ?_, hl.nodup, ?_, ?_, ?_⟩⟩
  · rw [hfree]
    exact hl.first
  all_goals rw [htags]
  · exact hl.linked
  · exact hl.mem_iff
  · exact hl.index_lt
  · exact hl.unlisted

/-- The lists, when tags go that are on none. -/
theorem Listed.of_sameLists (hl : Listed h Tag) (hs : SameLists h h')
    (htag : ∀ b, Tag' b → Tag b) (hfree : ∀ b, Tag b → 0 ≤ (h.tags b).index → Tag' b) :
    Listed h' Tag' := by
  refine hl.congr hs.freePages (fun b hb hi => ⟨hfree b hb hi, hs.index b, hs.next b, hs.prev b⟩)
    fun b hb hrest => ?_
  obtain ⟨lists, hl⟩ := hl
  rw [hs.index b, hs.next b, hs.prev b]
  refine hl.unlisted b (htag b hb) ?_
  have := mt (And.intro (htag b hb)) hrest
  omega

end

end Sakura.Libk.Liballoc
