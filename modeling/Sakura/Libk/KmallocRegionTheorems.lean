import Mathlib.Data.List.Pairwise
import Sakura.Libk.KmallocTagTheorems

/-!
# The regions of the heap

The tags of a region are linked both ways and cut it into blocks (`Cut`). Two neighbours may
become one block, and a block may become two; whatever happens to the tags of one region leaves
the other regions as they are.
-/

namespace Sakura.Libk.Liballoc

open DoublyLinked Tiling

variable {tags tags' : ℕ → BoundaryTag} {r r' : ℕ × ℕ} {c c' xs ys : List ℕ} {a b d : ℕ}

/-- Where a region ends. A region is its address and the number of its pages. -/
def regionEnd (r : ℕ × ℕ) : ℕ := r.1 + r.2 * pageSize

/-- The tags of `c` cut the region `r` into blocks. -/
structure Cut (tags : ℕ → BoundaryTag) (r : ℕ × ℕ) (c : List ℕ) : Prop where
  linked : Linked (fun b => (tags b).splitLeft) (fun b => (tags b).splitRight) c
  tiles : Tiles (fun b => (tags b).realSize) r.1 c (regionEnd r)
  header : ∀ b ∈ c, sizeofTag ≤ (tags b).realSize
  magic : ∀ b ∈ c, (tags b).magic = liballocMagic

/-- The tag `b` has the same block. -/
def SameBlock (tags tags' : ℕ → BoundaryTag) (b : ℕ) : Prop :=
  (tags' b).splitLeft = (tags b).splitLeft ∧ (tags' b).splitRight = (tags b).splitRight ∧
    (tags' b).realSize = (tags b).realSize ∧ (tags' b).magic = (tags b).magic

theorem Cut.congr (hc : Cut tags r c) (hsame : ∀ b ∈ c, SameBlock tags tags' b) :
    Cut tags' r c where
  linked := hc.linked.congr fun b hb => ⟨(hsame b hb).1, (hsame b hb).2.1⟩
  tiles := hc.tiles.congr fun b hb => (hsame b hb).2.2.1
  header := fun b hb => (hsame b hb).2.2.1 ▸ hc.header b hb
  magic := fun b hb => (hsame b hb).2.2.2.trans (hc.magic b hb)

theorem Cut.nodup (hc : Cut tags r c) : c.Nodup :=
  hc.tiles.nodup fun b hb => Nat.lt_of_lt_of_le (by decide) (hc.header b hb)

/-- A block lies in its region. -/
theorem Cut.within (hc : Cut tags r c) (hb : b ∈ c) :
    r.1 ≤ b ∧ b + (tags b).realSize ≤ regionEnd r ∧ sizeofTag ≤ (tags b).realSize :=
  ⟨(hc.tiles.within hb).1, (hc.tiles.within hb).2, hc.header b hb⟩

/-- A tag with nothing split off to either side is alone. -/
theorem Cut.eq_singleton (hc : Cut tags r c) (hb : b ∈ c) (hleft : (tags b).splitLeft = none)
    (hright : (tags b).splitRight = none) : c = [b] := by
  obtain ⟨xs, ys, rfl⟩ := List.append_of_mem hb
  obtain ⟨hprev, hnext⟩ := hc.linked.neighbours
  rw [hleft, eq_comm, List.getLast?_eq_none_iff] at hprev
  rw [hright, eq_comm, List.head?_eq_none_iff] at hnext
  rw [hprev, hnext, List.nil_append]

theorem Cut.singleton (hc : Cut tags r [b]) :
    b = r.1 ∧ (tags b).splitLeft = none ∧ (tags b).splitRight = none ∧
      (tags b).realSize = r.2 * pageSize := by
  have hlinked : Linked (fun b => (tags b).splitLeft) (fun b => (tags b).splitRight)
      ([] ++ b :: []) := hc.linked
  obtain ⟨hprev, hnext⟩ := hlinked.neighbours
  obtain ⟨haddr, hend⟩ := tiles_singleton.mp hc.tiles
  refine ⟨haddr, hprev, hnext, ?_⟩
  rw [regionEnd, ← haddr] at hend
  omega

/-! ## One region -/

/-- `b` becomes part of `a`, its left neighbour. -/
structure Merged (tags tags' : ℕ → BoundaryTag) (a b : ℕ) : Prop where
  splitLeft : ∀ d, (tags' d).splitLeft =
    if (tags b).splitRight = some d then some a else (tags d).splitLeft
  splitRight : ∀ d, (tags' d).splitRight = if d = a then (tags b).splitRight
    else (tags d).splitRight
  realSize : ∀ d, (tags' d).realSize = if d = a then (tags a).realSize + (tags b).realSize
    else (tags d).realSize
  magic : ∀ d, (tags' d).magic = (tags d).magic

theorem Merged.of_same {tags'' : ℕ → BoundaryTag} (hs : ∀ d, SameBlock tags tags' d)
    (hm : Merged tags' tags'' a b) : Merged tags tags'' a b where
  splitLeft := fun d => by rw [hm.splitLeft d, (hs b).2.1, (hs d).1]
  splitRight := fun d => by rw [hm.splitRight d, (hs b).2.1, (hs d).2.1]
  realSize := fun d => by rw [hm.realSize d, (hs a).2.2.1, (hs b).2.2.1, (hs d).2.2.1]
  magic := fun d => by rw [hm.magic d, (hs d).2.2.2]

theorem Merged.trans_same {tags'' : ℕ → BoundaryTag} (hm : Merged tags tags' a b)
    (hs : ∀ d, SameBlock tags' tags'' d) : Merged tags tags'' a b where
  splitLeft := fun d => by rw [(hs d).1, hm.splitLeft d]
  splitRight := fun d => by rw [(hs d).2.1, hm.splitRight d]
  realSize := fun d => by rw [(hs d).2.2.1, hm.realSize d]
  magic := fun d => by rw [(hs d).2.2.2, hm.magic d]

/-- Two neighbours have room for their sizes in 32 bits. -/
theorem Cut.sum_lt (hc : Cut tags r (xs ++ a :: b :: ys)) (hpos : 0 < r.1)
    (hend : regionEnd r ≤ 2 ^ 32) : (tags a).realSize + (tags b).realSize < 2 ^ 32 := by
  have hb := hc.tiles.adjacent
  have ha := hc.within (b := a) (by simp)
  have hb' := hc.within (b := b) (by simp)
  omega

theorem Cut.merge (hc : Cut tags r (xs ++ a :: b :: ys)) (hm : Merged tags tags' a b) :
    Cut tags' r (xs ++ a :: ys) := by
  have hassoc : ∀ l : List ℕ, (xs ++ [a]) ++ l = xs ++ a :: l := fun l => by
    rw [List.append_assoc, List.singleton_append]
  have hmem : ∀ d ∈ xs ++ a :: ys, d ∈ xs ++ a :: b :: ys := fun d hd => by
    simp only [List.mem_append, List.mem_cons] at hd ⊢
    tauto
  have hleft_b : (tags b).splitLeft = some a := hc.linked.adjacent.2
  constructor
  case linked =>
    have hlinked := hc.linked
    have hnodup := hc.nodup
    rw [← hassoc] at hlinked hnodup ⊢
    refine hlinked.unlink hnodup (fun d _ => ?_) (fun d _ => ?_)
    · rw [hm.splitLeft d, hleft_b]
    · simp only [hm.splitRight d, hleft_b, Option.some.injEq, eq_comm]
  case tiles =>
    refine hc.tiles.merge hc.nodup ?_ fun d hd => ?_
    · simp only [hm.realSize a, if_true]
    · simp only [hm.realSize d, if_neg hd]
  case header =>
    intro d hd
    have := hc.header d (hmem d hd)
    rw [hm.realSize d]
    split_ifs with hda
    · subst hda
      omega
    · exact this
  case magic => exact fun d hd => (hm.magic d).trans (hc.magic d (hmem d hd))

/-- `d` becomes the right part of `a`. -/
structure Parted (tags tags' : ℕ → BoundaryTag) (a d : ℕ) : Prop where
  splitLeft : ∀ b, (tags' b).splitLeft = if b = d then some a else
    if (tags a).splitRight = some b then some d else (tags b).splitLeft
  splitRight : ∀ b, (tags' b).splitRight = if b = a then some d else
    if b = d then (tags a).splitRight else (tags b).splitRight
  realSize : ∀ b, b ≠ a → b ≠ d → (tags' b).realSize = (tags b).realSize
  sizes : (tags' a).realSize + (tags' d).realSize = (tags a).realSize
  address : d = a + (tags' a).realSize
  headers : sizeofTag ≤ (tags' a).realSize ∧ sizeofTag ≤ (tags' d).realSize
  magic : ∀ b, (tags' b).magic = if b = d then liballocMagic else (tags b).magic

/-- What comes after a split and keeps the blocks. -/
theorem Parted.trans_same {tags'' : ℕ → BoundaryTag} (hp : Parted tags tags' a d)
    (hs : ∀ b, SameBlock tags' tags'' b) : Parted tags tags'' a d where
  splitLeft := fun b => by rw [(hs b).1, hp.splitLeft b]
  splitRight := fun b => by rw [(hs b).2.1, hp.splitRight b]
  realSize := fun b hba hbd => by rw [(hs b).2.2.1, hp.realSize b hba hbd]
  sizes := by rw [(hs a).2.2.1, (hs d).2.2.1, hp.sizes]
  address := by rw [(hs a).2.2.1, hp.address]
  headers := by rw [(hs a).2.2.1, (hs d).2.2.1]; exact hp.headers
  magic := fun b => by rw [(hs b).2.2.2, hp.magic b]

/-- The address of the right part is inside the block, so there is no tag there. -/
theorem Cut.not_mem_parted (hc : Cut tags r c) (ha : a ∈ c) (hp : Parted tags tags' a d) :
    d ∉ c := by
  intro hd
  have hsizes := hp.sizes
  have haddress := hp.address
  have hheaders := hp.headers
  rw [sizeofTag] at hheaders
  rcases hc.tiles.disjoint ha hd (by omega) with hlt | hlt
  · omega
  · have := hc.header d hd
    rw [sizeofTag] at this
    omega

/-- A region in which a block has been split. -/
theorem Cut.part (hc : Cut tags r (xs ++ a :: ys)) (hp : Parted tags tags' a d) :
    Cut tags' r (xs ++ a :: d :: ys) := by
  have hd : d ∉ xs ++ a :: ys := hc.not_mem_parted (by simp) hp
  have hda : d ≠ a := by
    rintro rfl
    simp at hd
  have hassoc : ∀ l : List ℕ, (xs ++ [a]) ++ l = xs ++ a :: l := fun l => by
    rw [List.append_assoc, List.singleton_append]
  have hnext : (tags a).splitRight = ys.head? := hc.linked.neighbours.2
  have hne : ∀ b ∈ xs ++ a :: ys, b ≠ d := fun b hb hbd => hd (hbd ▸ hb)
  have hold : ∀ b ∈ xs ++ a :: d :: ys, b ≠ d → b ∈ xs ++ a :: ys := fun b hb hbd => by
    simp only [List.mem_append, List.mem_cons] at hb ⊢
    tauto
  constructor
  case linked =>
    have hlinked := hc.linked
    have hnodup := hc.nodup
    rw [← hassoc] at hlinked hnodup hne ⊢
    refine hlinked.insert hnodup (fun b hb => ?_) (fun b hb => ?_) ?_ ?_
    · rw [hp.splitLeft b, if_neg (hne b hb), hnext]
    · rw [hp.splitRight b, if_neg (hne b hb), List.getLast?_concat]
      simp only [Option.some.injEq, eq_comm]
    · rw [hp.splitLeft d, if_pos rfl, List.getLast?_concat]
    · rw [hp.splitRight d, if_neg hda, if_pos rfl, hnext]
  case tiles =>
    refine hc.tiles.split hc.nodup hp.address hda (fun h => hd ?_) hp.sizes hp.realSize
    simp only [List.mem_append, List.mem_cons] at h ⊢
    tauto
  case header =>
    intro b hb
    by_cases hba : b = a
    · exact hba ▸ hp.headers.1
    by_cases hbd : b = d
    · exact hbd ▸ hp.headers.2
    rw [hp.realSize b hba hbd]
    exact hc.header b (hold b hb hbd)
  case magic =>
    intro b hb
    rw [hp.magic b]
    split_ifs with hbd
    · rfl
    · exact hc.magic b (hold b hb hbd)

section

variable {h : Liballoc} {t : ℕ}

/-- What `melt_left` and `absorb_right` write: `b` is joined to `a`. -/
def join (h : Liballoc) (a b : ℕ) : Liballoc :=
  let h := h.modify a fun t => { t with realSize := (t.realSize + (h.tags b).realSize) % 2 ^ 32 }
  let h := h.modify a fun t => { t with splitRight := (h.tags b).splitRight }
  h.modify? (h.tags b).splitRight fun t => { t with splitLeft := some a }

/-- `melt_left` joins the tag to its left neighbour. -/
theorem meltLeft_eq (hleft : (h.tags t).splitLeft = some a) :
    h.meltLeft t = some (a, h.join a t) := by
  rw [meltLeft, hleft]
  rfl

/-- `absorb_right` takes the right neighbour off its list and joins it. -/
theorem absorbRight_eq (hright : (h.tags t).splitRight = some b) :
    h.absorbRight t = (h.removeTag b).map fun h => (t, h.join t b) := by
  rw [absorbRight, hright, Option.map_eq_bind]
  rfl

/-- Two tags become one, and the lists are as they were. -/
theorem join_spec (hne : a ≠ b) (hsum : (h.tags a).realSize + (h.tags b).realSize < 2 ^ 32) :
    Merged h.tags (h.join a b).tags a b ∧ SameLists h (h.join a b) := by
  have htags : ∀ d, (h.join a b).tags d = { h.tags d with
      splitLeft := if (h.tags b).splitRight = some d then some a else (h.tags d).splitLeft
      splitRight := if d = a then (h.tags b).splitRight else (h.tags d).splitRight
      realSize := if d = a then (h.tags a).realSize + (h.tags b).realSize
        else (h.tags d).realSize } := by
    intro d
    simp only [join, tags_modify, tags_modify?, if_neg hne.symm]
    by_cases hd : d = a
    · subst hd
      simp only [if_true, Nat.mod_eq_of_lt hsum]
      split_ifs <;> rfl
    · simp only [if_neg hd]
      split_ifs <;> rfl
  refine ⟨⟨?_, ?_, ?_, ?_⟩, ⟨?_, ?_, ?_, ?_, ?_, ?_, ?_⟩⟩
  case refine_9 => simp [join]
  case refine_10 => simp [join]
  case refine_11 => simp [join]
  all_goals
    intro d
    rw [htags d]

/-- What `split_tag` writes before it calls `insert_tag`. -/
theorem splitTag_eq {size : ℕ} (hsize : (h.tags a).size = size)
    (hn : a + sizeofTag + size < 2 ^ 32)
    (hfit : sizeofTag + size + sizeofTag ≤ (h.tags a).realSize)
    (hlt : (h.tags a).realSize < 2 ^ 32) (hself : (h.tags a).splitRight ≠ some a)
    (hnew : (h.tags a).splitRight ≠ some (a + sizeofTag + size)) :
    ∃ h' : Liballoc, h.splitTag a = h'.insertTag (a + sizeofTag + size) (-1) ∧
      Parted h.tags h'.tags a (a + sizeofTag + size) ∧
      (h'.tags (a + sizeofTag + size)).next = none ∧
      (h'.tags (a + sizeofTag + size)).prev = none ∧
      (∀ b, b ≠ a + sizeofTag + size → (h'.tags b).next = (h.tags b).next ∧
        (h'.tags b).prev = (h.tags b).prev) ∧
      (∀ b, (h'.tags b).index = (h.tags b).index ∧ (h'.tags b).size = (h.tags b).size) ∧
      h'.freePages = h.freePages ∧ h'.completePages = h.completePages ∧
      h'.initialized = h.initialized := by
  obtain ⟨n, hn_eq⟩ : ∃ n, n = a + sizeofTag + size := ⟨_, rfl⟩
  have hna : n ≠ a := by
    rw [sizeofTag] at hn_eq
    omega
  have hrem : sub (sub (h.tags a).realSize sizeofTag) size =
      (h.tags a).realSize - sizeofTag - size := by
    rw [sub_eq (by omega) hlt, sub_eq (by omega) (by omega)]
  have hleft : sub (h.tags a).realSize ((h.tags a).realSize - sizeofTag - size) =
      sizeofTag + size := by
    rw [sub_eq (by omega) hlt]
    omega
  rw [← hn_eq] at hn hnew ⊢
  obtain ⟨h', heq, htags, hfree, hcomplete, hinit⟩ : ∃ h' : Liballoc, h.splitTag a = h'.insertTag n (-1) ∧
      (∀ b, h'.tags b = { h.tags b with
        magic := if b = n then liballocMagic else (h.tags b).magic
        realSize := if b = a then sizeofTag + size else
          if b = n then (h.tags a).realSize - sizeofTag - size else (h.tags b).realSize
        splitLeft := if b = n then some a else
          if (h.tags a).splitRight = some b then some n else (h.tags b).splitLeft
        splitRight := if b = a then some n else
          if b = n then (h.tags a).splitRight else (h.tags b).splitRight
        next := if b = n then none else (h.tags b).next
        prev := if b = n then none else (h.tags b).prev }) ∧
      h'.freePages = h.freePages ∧ h'.completePages = h.completePages ∧
      h'.initialized = h.initialized := by
    refine ⟨_, by rw [splitTag, hsize, ← hn_eq, Nat.mod_eq_of_lt hn, hrem], fun b => ?_, ?_, ?_, ?_⟩
    · simp only [tags_modify, tags_modify?, if_true, if_neg hna, if_neg hna.symm, if_neg hnew]
      by_cases hb : b = a
      · subst hb
        simp only [if_true, if_neg hna.symm, if_neg hself, hleft]
      · by_cases hbn : b = n
        · subst hbn
          simp only [if_true, if_neg hna, if_neg hnew]
        · simp only [if_neg hb, if_neg hbn]
          split_ifs <;> rfl
    · simp
    · simp
    · simp
  refine ⟨h', heq, ⟨?_, ?_, ?_, ?_, ?_, ?_, ?_⟩, ?_, ?_, ?_, ?_, hfree, hcomplete, hinit⟩
  case refine_1 => exact fun b => by rw [htags b]
  case refine_2 => exact fun b => by rw [htags b]
  case refine_3 => exact fun b hba hbn => by simp only [htags, if_neg hba, if_neg hbn]
  case refine_4 =>
    simp only [htags, if_true, if_neg hna]
    omega
  case refine_5 =>
    simp only [htags, if_true]
    rw [hn_eq, Nat.add_assoc]
  case refine_6 =>
    simp only [htags, if_true, if_neg hna]
    omega
  case refine_7 => exact fun b => by rw [htags b]
  case refine_8 => simp only [htags, if_true]
  case refine_9 => simp only [htags, if_true]
  case refine_10 => exact fun b hb => by simp only [htags, if_neg hb, and_self]
  case refine_11 => exact fun b => by rw [htags b]; exact ⟨rfl, rfl⟩

end

/-! ## All regions -/

/-- What `liballoc_alloc` may give. -/
def IsRegion (r : ℕ × ℕ) : Prop := 0 < r.1 ∧ pageCount ≤ r.2 ∧ regionEnd r ≤ 2 ^ 32

/-- Two regions have no address in common. -/
def Apart (r r' : ℕ × ℕ) : Prop := regionEnd r ≤ r'.1 ∨ regionEnd r' ≤ r.1

instance : Std.Symm Apart := ⟨fun _ _ h => h.symm⟩

/-- The regions the heap has got, and the tags that cut them. -/
structure Regions (tags : ℕ → BoundaryTag) (regions : List (ℕ × ℕ)) (chain : ℕ × ℕ → List ℕ) :
    Prop where
  cut : ∀ r ∈ regions, Cut tags r (chain r)
  apart : regions.Pairwise Apart
  isRegion : ∀ r ∈ regions, IsRegion r

/-- There is a tag at the address. -/
def Tag (regions : List (ℕ × ℕ)) (chain : ℕ × ℕ → List ℕ) (b : ℕ) : Prop :=
  ∃ r ∈ regions, b ∈ chain r

section

variable {regions : List (ℕ × ℕ)} {chain : ℕ × ℕ → List ℕ}

theorem IsRegion.lt (hr : IsRegion r) : r.1 < regionEnd r := by
  have := hr.2.1
  rw [regionEnd, pageSize]
  rw [pageCount] at this
  omega

/-- A region is there once. -/
theorem Regions.nodup (hR : Regions tags regions chain) : regions.Nodup := by
  refine hR.apart.imp_of_mem fun {r r'} hr _ hapart heq => ?_
  subst heq
  have := (hR.isRegion r hr).lt
  rw [Apart] at hapart
  omega

/-- Two regions of the heap are apart, whichever came first. -/
theorem Regions.apart_of_ne (hR : Regions tags regions chain) (hr : r ∈ regions)
    (hr' : r' ∈ regions) (hne : r ≠ r') : Apart r r' :=
  hR.apart.forall hr hr' hne

/-- A tag is in one region. -/
theorem Regions.unique (hR : Regions tags regions chain) (hr : r ∈ regions)
    (hr' : r' ∈ regions) (hb : b ∈ chain r) (hb' : b ∈ chain r') : r = r' := by
  by_contra hne
  have hin := (hR.cut r hr).within hb
  have hin' := (hR.cut r' hr').within hb'
  rw [sizeofTag] at hin hin'
  rcases hR.apart_of_ne hr hr' hne with h | h <;> omega

/-- The blocks of two tags have no address in common. -/
theorem Regions.disjoint (hR : Regions tags regions chain) (ha : Tag regions chain a)
    (hb : Tag regions chain b) (hne : a ≠ b) :
    a + (tags a).realSize ≤ b ∨ b + (tags b).realSize ≤ a := by
  obtain ⟨r, hr, ha⟩ := ha
  obtain ⟨r', hr', hb⟩ := hb
  by_cases hrr : r = r'
  · subst hrr
    exact (hR.cut r hr).tiles.disjoint ha hb hne
  · have hin := (hR.cut r hr).within ha
    have hin' := (hR.cut r' hr').within hb
    rcases hR.apart_of_ne hr hr' hrr with h | h <;> omega

/-- A block lies in 32 bits. -/
theorem Regions.tag_lt (hR : Regions tags regions chain) (hb : Tag regions chain b) :
    0 < b ∧ b + (tags b).realSize ≤ 2 ^ 32 ∧ sizeofTag ≤ (tags b).realSize := by
  obtain ⟨r, hr, hb⟩ := hb
  obtain ⟨hpos, -, hend⟩ := hR.isRegion r hr
  obtain ⟨hlo, hhi, hsize⟩ := (hR.cut r hr).within hb
  exact ⟨Nat.lt_of_lt_of_le hpos hlo, Nat.le_trans hhi hend, hsize⟩

/-- An address inside a block, behind its tag, is no tag's. -/
theorem Regions.not_tag_parted (hR : Regions tags regions chain) (hr : r ∈ regions)
    (ha : a ∈ chain r) (hp : Parted tags tags' a d) : ¬ Tag regions chain d := by
  rintro ⟨r', hr', hd⟩
  have hne : r ≠ r' := by
    rintro rfl
    exact (hR.cut r hr).not_mem_parted ha hp hd
  have hin := (hR.cut r hr).within ha
  have hin' := (hR.cut r' hr').within hd
  have hsizes := hp.sizes
  have haddress := hp.address
  have hheaders := hp.headers
  rw [sizeofTag] at hheaders hin hin'
  rcases hR.apart_of_ne hr hr' hne with h | h <;> omega

theorem tag_of_mem (hr : r ∈ regions) (hb : b ∈ chain r) : Tag regions chain b := ⟨r, hr, hb⟩

/-- The tags, when those of one region become others. -/
theorem Regions.tag_update_iff (hR : Regions tags regions chain) (hr : r ∈ regions) :
    Tag regions (Function.update chain r c') b ↔
      b ∈ c' ∨ Tag regions chain b ∧ b ∉ chain r := by
  constructor
  · rintro ⟨r', hr', hb⟩
    by_cases hne : r' = r
    · rw [hne, Function.update_self] at hb
      exact .inl hb
    · rw [Function.update_of_ne hne] at hb
      exact .inr ⟨⟨r', hr', hb⟩, fun hb' => hne (hR.unique hr' hr hb hb')⟩
  · rintro (hb | ⟨⟨r', hr', hb⟩, hnot⟩)
    · exact ⟨r, hr, by rwa [Function.update_self]⟩
    · have hne : r' ≠ r := by
        rintro rfl
        exact hnot hb
      exact ⟨r', hr', by rwa [Function.update_of_ne hne]⟩

/-- One region is cut anew, and the blocks of the others are as they were. -/
theorem Regions.update (hR : Regions tags regions chain) (hr : r ∈ regions)
    (hcut : Cut tags' r c')
    (hsame : ∀ b, Tag regions chain b → b ∉ chain r → SameBlock tags tags' b) :
    Regions tags' regions (Function.update chain r c') where
  cut := by
    intro r' hr'
    by_cases hne : r' = r
    · rw [hne, Function.update_self]
      exact hcut
    · rw [Function.update_of_ne hne]
      exact (hR.cut r' hr').congr fun b hb =>
        hsame b ⟨r', hr', hb⟩ fun hb' => hne (hR.unique hr' hr hb hb')
  apart := hR.apart
  isRegion := hR.isRegion

/-- One more region. -/
theorem Regions.cons (hR : Regions tags regions chain) (hr : IsRegion r)
    (hapart : ∀ r' ∈ regions, Apart r r') (hcut : Cut tags' r c')
    (hsame : ∀ b, Tag regions chain b → SameBlock tags tags' b) :
    Regions tags' (r :: regions) (Function.update chain r c') where
  cut := by
    intro r' hr'
    by_cases hne : r' = r
    · rw [hne, Function.update_self]
      exact hcut
    · have hold : r' ∈ regions := (List.mem_cons.mp hr').resolve_left hne
      rw [Function.update_of_ne hne]
      exact (hR.cut r' hold).congr fun b hb => hsame b ⟨r', hold, hb⟩
  apart := List.pairwise_cons.mpr ⟨hapart, hR.apart⟩
  isRegion := List.forall_mem_cons.mpr ⟨hr, hR.isRegion⟩

/-- A region that is apart from the others is not one of them. -/
theorem IsRegion.not_mem (hr : IsRegion r) (hapart : ∀ r' ∈ regions, Apart r r') :
    r ∉ regions := by
  intro hmem
  have := hr.lt
  have := hapart r hmem
  rw [Apart] at this
  omega

/-- The tags after a region has been added. -/
theorem tag_cons_iff (hr : r ∉ regions) :
    Tag (r :: regions) (Function.update chain r c') b ↔ b ∈ c' ∨ Tag regions chain b := by
  constructor
  · rintro ⟨r', hr', hb⟩
    by_cases hne : r' = r
    · rw [hne, Function.update_self] at hb
      exact .inl hb
    · rw [Function.update_of_ne hne] at hb
      exact .inr ⟨r', (List.mem_cons.mp hr').resolve_left hne, hb⟩
  · rintro (hb | ⟨r', hr', hb⟩)
    · exact ⟨r, List.mem_cons_self, by rwa [Function.update_self]⟩
    · have hne : r' ≠ r := by
        rintro rfl
        exact hr hr'
      exact ⟨r', List.mem_cons_of_mem r hr', by rwa [Function.update_of_ne hne]⟩

/-- One region less. -/
theorem Regions.erase (hR : Regions tags regions chain) : Regions tags (regions.erase r) chain where
  cut := fun r' hr' => hR.cut r' (List.mem_of_mem_erase hr')
  apart := hR.apart.sublist List.erase_sublist
  isRegion := fun r' hr' => hR.isRegion r' (List.mem_of_mem_erase hr')

/-- The tags after a region has been given back. -/
theorem Regions.tag_erase_iff (hR : Regions tags regions chain) (hr : r ∈ regions) :
    Tag (regions.erase r) chain b ↔ Tag regions chain b ∧ b ∉ chain r := by
  constructor
  · rintro ⟨r', hr', hb⟩
    obtain ⟨hne, hr'⟩ := hR.nodup.mem_erase_iff.mp hr'
    exact ⟨⟨r', hr', hb⟩, fun hb' => hne (hR.unique hr' hr hb hb')⟩
  · rintro ⟨⟨r', hr', hb⟩, hnot⟩
    have hne : r' ≠ r := by
      rintro rfl
      exact hnot hb
    exact ⟨r', hR.nodup.mem_erase_iff.mpr ⟨hne, hr'⟩, hb⟩

end

end Sakura.Libk.Liballoc
