import Mathlib.Data.List.Count
import Sakura.Libk.KmallocRegionTheorems

/-!
# The invariant of the kernel heap

`Inv` says what holds of the tags, the lists and the counts between two calls, and inside a call
while one tag is held: it is on no list, and its block belongs to nobody.
-/

namespace Sakura.Libk.Liballoc

open DoublyLinked Tiling

variable {h h' : Liballoc} {regions : List (ℕ × ℕ)} {chain : ℕ × ℕ → List ℕ}
  {live live' : ℕ → Option ℕ} {held held' : Option ℕ} {r : ℕ × ℕ} {c' xs ys : List ℕ}
  {a b d t : ℕ} {i : ℤ}

/-- The block of `b` belongs to a client. -/
def Used (h : Liballoc) (regions : List (ℕ × ℕ)) (chain : ℕ × ℕ → List ℕ) (held : Option ℕ)
    (b : ℕ) : Prop :=
  Tag regions chain b ∧ (h.tags b).index < 0 ∧ held ≠ some b

/-- The region `r` is one free block, and on list `i`. -/
def wholeFree (tags : ℕ → BoundaryTag) (chain : ℕ × ℕ → List ℕ) (i : ℤ) (r : ℕ × ℕ) : Bool :=
  decide (chain r = [r.1] ∧ (tags r.1).index = i)

/-- The invariant. `live` has the sizes of the blocks of the clients, by their addresses. -/
structure Inv (h : Liballoc) (regions : List (ℕ × ℕ)) (chain : ℕ × ℕ → List ℕ)
    (live : ℕ → Option ℕ) (held : Option ℕ) : Prop where
  cut : Regions h.tags regions chain
  listed : Listed h (Tag regions chain)
  separate : ∀ b d, Tag regions chain b → (h.tags b).splitRight = some d →
    ¬ (0 ≤ (h.tags b).index ∧ 0 ≤ (h.tags d).index)
  index_eq : ∀ b, Tag regions chain b → 0 ≤ (h.tags b).index →
    (h.tags b).index = indexOf ((h.tags b).realSize - sizeofTag)
  complete : ∀ i, 0 ≤ i ∧ i < maxExp →
    h.completePages i = regions.countP (wholeFree h.tags chain i) ∧
      h.completePages i ≤ maxComplete
  live_iff : ∀ p n, live p = some n ↔
    ∃ b, Used h regions chain held b ∧ p = b + sizeofTag ∧ (h.tags b).size = n
  fits : ∀ b, Used h regions chain held b →
    sizeofTag + (h.tags b).size ≤ (h.tags b).realSize ∧ b + sizeofTag < 2 ^ 32
  started : h.initialized = false → regions = []

/-! ## What happens in one region -/

/-- A change to the tags of the region `r`, which are those of `c'` afterwards. -/
structure LocalStep (h h' : Liballoc) (regions : List (ℕ × ℕ)) (chain : ℕ × ℕ → List ℕ)
    (r : ℕ × ℕ) (c' : List ℕ) (held held' : Option ℕ) : Prop where
  cut : Cut h'.tags r c'
  elsewhere : ∀ b, Tag regions chain b → b ∉ chain r → SameBlock h.tags h'.tags b ∧
    (h'.tags b).index = (h.tags b).index ∧ (h'.tags b).size = (h.tags b).size
  used_iff : ∀ b, b ∈ c' ∧ (h'.tags b).index < 0 ∧ held' ≠ some b ↔
    b ∈ chain r ∧ (h.tags b).index < 0 ∧ held ≠ some b
  used_kept : ∀ b ∈ chain r, (h.tags b).index < 0 → held ≠ some b →
    (h'.tags b).size = (h.tags b).size ∧ (h'.tags b).realSize = (h.tags b).realSize
  separate : ∀ b ∈ c', ∀ d, (h'.tags b).splitRight = some d →
    ¬ (0 ≤ (h'.tags b).index ∧ 0 ≤ (h'.tags d).index)
  index_eq : ∀ b ∈ c', 0 ≤ (h'.tags b).index →
    (h'.tags b).index = indexOf ((h'.tags b).realSize - sizeofTag)
  held_mem : ∀ b, held = some b → b ∈ chain r
  held_mem' : ∀ b, held' = some b → b ∈ c'
  initialized : h'.initialized = h.initialized

/-- The right neighbour of a tag is in the same region. -/
theorem Regions.mem_of_splitRight {tags : ℕ → BoundaryTag} (hR : Regions tags regions chain)
    (hr : r ∈ regions) (hb : b ∈ chain r) (hd : (tags b).splitRight = some d) :
    d ∈ chain r ∧ (tags d).splitLeft = some b ∧ d ≠ b := by
  have hcut := hR.cut r hr
  obtain ⟨xs, ys, hsplit⟩ := hcut.linked.exists_next hb hd
  have hnodup := hcut.nodup
  rw [hsplit] at hcut hnodup ⊢
  refine ⟨by simp, hcut.linked.adjacent.2, ?_⟩
  rintro rfl
  simp [List.nodup_middle] at hnodup

theorem Regions.mem_of_splitLeft {tags : ℕ → BoundaryTag} (hR : Regions tags regions chain)
    (hr : r ∈ regions) (hb : b ∈ chain r) (hd : (tags b).splitLeft = some d) :
    d ∈ chain r ∧ (tags d).splitRight = some b ∧ d ≠ b := by
  have hcut := hR.cut r hr
  obtain ⟨xs, ys, hsplit⟩ := hcut.linked.exists_prev hb hd
  have hnodup := hcut.nodup
  rw [hsplit] at hcut hnodup ⊢
  refine ⟨by simp, hcut.linked.adjacent.1, ?_⟩
  rintro rfl
  simp [List.nodup_middle] at hnodup

/-- When two predicates agree but on one element, so do the counts. -/
theorem countP_agree {α : Type*} [DecidableEq α] {l : List α} {p q : α → Bool} {x : α}
    (hnodup : l.Nodup) (hx : x ∈ l) (hsame : ∀ y ∈ l, y ≠ x → q y = p y) :
    l.countP q + (if p x then 1 else 0) = l.countP p + if q x then 1 else 0 := by
  have hperm := List.perm_cons_erase hx
  have hrest : (l.erase x).countP q = (l.erase x).countP p := by
    refine List.countP_congr fun y hy => ?_
    obtain ⟨hne, hy⟩ := hnodup.mem_erase_iff.mp hy
    rw [hsame y hy hne]
  rw [hperm.countP_eq, hperm.countP_eq, List.countP_cons, List.countP_cons, hrest]
  omega

/-- The regions after the change. -/
theorem LocalStep.allCut (hs : LocalStep h h' regions chain r c' held held')
    (hI : Inv h regions chain live held) (hr : r ∈ regions) :
    Regions h'.tags regions (Function.update chain r c') :=
  hI.cut.update hr hs.cut fun b hb hbr => (hs.elsewhere b hb hbr).1

/-- A tag of another region is not a new one of this region either. -/
theorem LocalStep.not_mem (hs : LocalStep h h' regions chain r c' held held')
    (hI : Inv h regions chain live held) (hr : r ∈ regions) (hb : Tag regions chain b)
    (hbr : b ∉ chain r) : b ∉ c' := by
  obtain ⟨r', hr', hb⟩ := hb
  intro hbc
  have hne : r' ≠ r := by
    rintro rfl
    exact hbr hb
  refine hne ((hs.allCut hI hr).unique (b := b) hr' hr ?_ ?_)
  · rwa [Function.update_of_ne hne]
  · rwa [Function.update_self]

/-- The clients have the blocks they had. -/
theorem LocalStep.used (hs : LocalStep h h' regions chain r c' held held')
    (hI : Inv h regions chain live held) (hr : r ∈ regions) (b : ℕ) :
    Used h' regions (Function.update chain r c') held' b ↔ Used h regions chain held b := by
  unfold Used
  rw [hI.cut.tag_update_iff hr]
  have hiff := hs.used_iff b
  constructor
  · rintro ⟨hb | ⟨hb, hbr⟩, hindex, hheld⟩
    · obtain ⟨hb, hindex, hheld⟩ := hiff.mp ⟨hb, hindex, hheld⟩
      exact ⟨tag_of_mem hr hb, hindex, hheld⟩
    · rw [(hs.elsewhere b hb hbr).2.1] at hindex
      exact ⟨hb, hindex, fun h => hbr (hs.held_mem b h)⟩
  · rintro ⟨hb, hindex, hheld⟩
    by_cases hbr : b ∈ chain r
    · obtain ⟨hb, hindex, hheld⟩ := hiff.mpr ⟨hbr, hindex, hheld⟩
      exact ⟨.inl hb, hindex, hheld⟩
    · refine ⟨.inr ⟨hb, hbr⟩, ?_, fun h => hs.not_mem hI hr hb hbr (hs.held_mem' b h)⟩
      rw [(hs.elsewhere b hb hbr).2.1]
      exact hindex

theorem LocalStep.kept (hs : LocalStep h h' regions chain r c' held held')
    (hb : Used h regions chain held b) :
    (h'.tags b).size = (h.tags b).size ∧ (h'.tags b).realSize = (h.tags b).realSize := by
  obtain ⟨hb, hindex, hheld⟩ := hb
  by_cases hbr : b ∈ chain r
  · exact hs.used_kept b hbr hindex hheld
  · obtain ⟨hblock, -, hsize⟩ := hs.elsewhere b hb hbr
    exact ⟨hsize, hblock.2.2.1⟩

/-- Of the regions that are one free block only `r` can have come or gone. -/
theorem LocalStep.countP_agree (hs : LocalStep h h' regions chain r c' held held')
    (hI : Inv h regions chain live held) (hr : r ∈ regions) :
    regions.countP (wholeFree h'.tags (Function.update chain r c') i) +
        (if wholeFree h.tags chain i r then 1 else 0) =
      regions.countP (wholeFree h.tags chain i) +
        if wholeFree h'.tags (Function.update chain r c') i r then 1 else 0 := by
  refine Liballoc.countP_agree hI.cut.nodup hr fun r' hr' hne => ?_
  unfold wholeFree
  rw [Function.update_of_ne hne]
  by_cases hwhole : chain r' = [r'.1]
  · have hmem : r'.1 ∈ chain r' := by rw [hwhole]; exact List.mem_singleton_self _
    have hnot : r'.1 ∉ chain r := fun hbr => hne (hI.cut.unique hr' hr hmem hbr)
    rw [(hs.elsewhere r'.1 ⟨r', hr', hmem⟩ hnot).2.1]
  · simp [hwhole]

/-- A change in one region keeps the invariant, if the lists and the counts are kept with it. -/
theorem Inv.step (hI : Inv h regions chain live held) (hr : r ∈ regions)
    (hs : LocalStep h h' regions chain r c' held held')
    (hlisted : Listed h' (Tag regions (Function.update chain r c')))
    (hcomplete : ∀ i, 0 ≤ i ∧ i < maxExp → h'.completePages i +
        (if wholeFree h.tags chain i r then 1 else 0) = h.completePages i +
        (if wholeFree h'.tags (Function.update chain r c') i r then 1 else 0) ∧
      h'.completePages i ≤ maxComplete) :
    Inv h' regions (Function.update chain r c') live held' := by
  have hused := hs.used hI hr
  constructor
  case cut => exact hs.allCut hI hr
  case listed => exact hlisted
  case separate =>
    intro b d hb hd
    rcases (hI.cut.tag_update_iff hr).mp hb with hb | ⟨⟨r', hr', hb⟩, hbr⟩
    · exact hs.separate b hb d hd
    · obtain ⟨hblock, hindex, -⟩ := hs.elsewhere b ⟨r', hr', hb⟩ hbr
      rw [hblock.2.1] at hd
      -- the neighbour is in the other region too
      have hdr' := (hI.cut.mem_of_splitRight hr' hb hd).1
      have hdr : d ∉ chain r := fun hdr => hbr (hI.cut.unique hr' hr hdr' hdr ▸ hb)
      rw [hindex, (hs.elsewhere d ⟨r', hr', hdr'⟩ hdr).2.1]
      exact hI.separate b d ⟨r', hr', hb⟩ hd
  case index_eq =>
    intro b hb hindex
    rcases (hI.cut.tag_update_iff hr).mp hb with hb | ⟨hb, hbr⟩
    · exact hs.index_eq b hb hindex
    · obtain ⟨hblock, heq, -⟩ := hs.elsewhere b hb hbr
      rw [heq] at hindex ⊢
      rw [hblock.2.2.1]
      exact hI.index_eq b hb hindex
  case complete =>
    intro i hi
    obtain ⟨hcount, hle⟩ := hcomplete i hi
    refine ⟨?_, hle⟩
    have hagree := hs.countP_agree (i := i) hI hr
    rw [(hI.complete i hi).1] at hcount
    split_ifs at hcount hagree <;> omega
  case live_iff =>
    intro p n
    rw [hI.live_iff p n]
    constructor
    · rintro ⟨b, hb, hp, hn⟩
      exact ⟨b, (hused b).mpr hb, hp, (hs.kept hb).1.trans hn⟩
    · rintro ⟨b, hb, hp, hn⟩
      have hb' := (hused b).mp hb
      exact ⟨b, hb', hp, (hs.kept hb').1.symm.trans hn⟩
  case fits =>
    intro b hb
    have hb' := (hused b).mp hb
    rw [(hs.kept hb').1, (hs.kept hb').2]
    exact hI.fits b hb'
  case started =>
    intro hinit
    exact hI.started (hs.initialized ▸ hinit)

/-! ## Blocks that stay as they are -/

/-- The neighbours of the block are not free. -/
def Isolated (h : Liballoc) (a : ℕ) : Prop :=
  (∀ b, (h.tags a).splitLeft = some b → (h.tags b).index < 0) ∧
    ∀ b, (h.tags a).splitRight = some b → (h.tags b).index < 0

theorem SameBlocks.block (hs : SameBlocks h h') (b : ℕ) : SameBlock h.tags h'.tags b :=
  ⟨hs.splitLeft b, hs.splitRight b, hs.realSize b, hs.magic b⟩

/-- A tag in the middle of its region. -/
theorem Inv.exists_region (hI : Inv h regions chain live held) (ha : Tag regions chain a) :
    ∃ r ∈ regions, a ∈ chain r ∧ Cut h.tags r (chain r) := by
  obtain ⟨r, hr, ha⟩ := ha
  exact ⟨r, hr, ha, hI.cut.cut r hr⟩

theorem Cut.whole_iff (hc : Cut h.tags r (chain r)) (ha : a ∈ chain r) :
    h.whole a = true ↔ chain r = [r.1] := by
  rw [whole, Bool.and_eq_true, Option.isNone_iff_eq_none, Option.isNone_iff_eq_none]
  constructor
  · rintro ⟨hleft, hright⟩
    have hone := hc.eq_singleton ha hleft hright
    rw [hone] at hc
    rw [hone, hc.singleton.1]
  · intro hone
    rw [hone] at ha hc
    rw [List.mem_singleton.mp ha]
    exact ⟨hc.singleton.2.1, hc.singleton.2.2.1⟩

/-- A held tag becomes free, or a free one held: only its index changes, and the counts. -/
theorem Inv.reindex {k : ℤ} (hI : Inv h regions chain live held)
    (hr : r ∈ regions) (ha : a ∈ chain r)
    (hblock : ∀ b, SameBlock h.tags h'.tags b ∧ (h'.tags b).size = (h.tags b).size)
    (hinit : h'.initialized = h.initialized)
    (hindex : ∀ b, (h'.tags b).index = if b = a then k else (h.tags b).index)
    (hlisted : Listed h' (Tag regions chain))
    (hheld : held = none ∧ held' = some a ∧ 0 ≤ (h.tags a).index ∧ k < 0 ∨
      held = some a ∧ held' = none ∧ (h.tags a).index < 0 ∧ 0 ≤ k)
    (hfree : 0 ≤ k → Isolated h a ∧ k = indexOf ((h.tags a).realSize - sizeofTag))
    (hcomplete : ∀ i, 0 ≤ i ∧ i < maxExp → h'.completePages i +
        (if chain r = [r.1] ∧ (h.tags a).index = i then 1 else 0) = h.completePages i +
        (if chain r = [r.1] ∧ k = i then 1 else 0) ∧ h'.completePages i ≤ maxComplete) :
    Inv h' regions chain live held' := by
  have hother : ∀ b, b ≠ a → (h'.tags b).index = (h.tags b).index := fun b hb => by
    rw [hindex b, if_neg hb]
  have hself : (h'.tags a).index = k := by rw [hindex a, if_pos rfl]
  have hne : ∀ b, b ∉ chain r → b ≠ a := by
    rintro b hb rfl
    exact hb ha
  have hstep : LocalStep h h' regions chain r (chain r) held held' := by
    constructor
    case cut => exact (hI.cut.cut r hr).congr fun b _ => (hblock b).1
    case elsewhere => exact fun b _ hb => ⟨(hblock b).1, hother b (hne b hb), (hblock b).2⟩
    case used_iff =>
      intro b
      by_cases hb : b = a
      · subst hb
        rw [hself]
        rcases hheld with ⟨rfl, rfl, h1, h2⟩ | ⟨rfl, rfl, h1, h2⟩ <;> simp <;> omega
      · rw [hother b hb]
        have hb' : some a ≠ some b := fun h => hb (Option.some.inj h).symm
        rcases hheld with ⟨rfl, rfl, -⟩ | ⟨rfl, rfl, -⟩ <;> simp [hb']
    case used_kept => exact fun b _ _ _ => ⟨(hblock b).2, (hblock b).1.2.2.1⟩
    case separate =>
      -- only the neighbours of `a` can have got a free neighbour, and they are in use
      intro b hb d hd hboth
      rw [(hblock b).1.2.1] at hd
      obtain ⟨hdr, hleft, hdb⟩ := hI.cut.mem_of_splitRight hr hb hd
      by_cases hba : b = a
      · subst hba
        rw [hself, hother d hdb] at hboth
        have := (hfree hboth.1).1.2 d hd
        omega
      · by_cases hda : d = a
        · subst hda
          rw [hself, hother b hba] at hboth
          have := (hfree hboth.2).1.1 b hleft
          omega
        · rw [hother b hba, hother d hda] at hboth
          exact hI.separate b d ⟨r, hr, hb⟩ hd hboth
    case index_eq =>
      intro b hb hpos
      rw [(hblock b).1.2.2.1]
      by_cases hba : b = a
      · subst hba
        rw [hself] at hpos ⊢
        exact (hfree hpos).2
      · rw [hother b hba] at hpos ⊢
        exact hI.index_eq b ⟨r, hr, hb⟩ hpos
    case held_mem =>
      rintro b rfl
      rcases hheld with ⟨h1, -⟩ | ⟨h1, -⟩
      · cases h1
      · exact Option.some.inj h1 ▸ ha
    case held_mem' =>
      rintro b rfl
      rcases hheld with ⟨-, h1, -⟩ | ⟨-, h1, -⟩
      · exact Option.some.inj h1 ▸ ha
      · cases h1
    case initialized => exact hinit
  have hI' := hI.step hr hstep (by rwa [Function.update_eq_self]) (fun i hi => ?_)
  · rwa [Function.update_eq_self] at hI'
  · rw [Function.update_eq_self]
    obtain ⟨hcount, hle⟩ := hcomplete i hi
    refine ⟨?_, hle⟩
    -- the region is counted if `a` is all of it
    by_cases hone : chain r = [r.1]
    · have har : r.1 = a := by
        rw [hone] at ha
        exact (List.mem_singleton.mp ha).symm
      simpa [wholeFree, hone, har, hself] using hcount
    · simpa [wholeFree, hone] using hcount

/-- A free block is taken off its list. -/
theorem Inv.take (hI : Inv h regions chain live none) (ha : Tag regions chain a)
    (hfree : 0 ≤ (h.tags a).index) :
    ∃ h₁ h₂, h.removeTag a = some h₁ ∧
      (if h₁.whole a then h₁.addComplete (h.tags a).index (-1) else some h₁) = some h₂ ∧
      Inv h₂ regions chain live (some a) ∧ Isolated h₂ a ∧ (h₂.tags a).index < 0 ∧
      (h₂.tags a).realSize = (h.tags a).realSize := by
  obtain ⟨r, hr, har, hcut⟩ := hI.exists_region ha
  obtain ⟨h₁, hremove, hlisted, hsame, hindex⟩ := removeTag_spec hI.listed ha hfree
  have hrange : 0 ≤ (h.tags a).index ∧ (h.tags a).index < maxExp := by
    obtain ⟨lists, hl⟩ := hI.listed
    exact ⟨hfree, hl.index_lt a ha⟩
  have hwhole : h₁.whole a = true ↔ chain r = [r.1] :=
    (hcut.congr fun b _ => hsame.block b).whole_iff har
  -- what the counters of whole regions come to
  obtain ⟨h₂, hh₂, htags, hfreePages, hinit, hcomplete⟩ : ∃ h₂ : Liballoc,
      (if h₁.whole a then h₁.addComplete (h.tags a).index (-1) else some h₁) = some h₂ ∧
      h₂.tags = h₁.tags ∧ h₂.freePages = h₁.freePages ∧ h₂.initialized = h₁.initialized ∧
      ∀ i, h₂.completePages i = h.completePages i -
        if chain r = [r.1] ∧ (h.tags a).index = i then 1 else 0 := by
    rw [← hsame.completePages]
    by_cases hone : chain r = [r.1]
    · rw [if_pos (hwhole.mpr hone), addComplete, element_eq hrange]
      refine ⟨_, rfl, rfl, rfl, rfl, fun i => ?_⟩
      by_cases hi : (h.tags a).index = i
      · subst hi
        simp [hone, Int.sub_eq_add_neg]
      · simp [hi, Function.update_of_ne (Ne.symm hi)]
    · rw [if_neg (mt hwhole.mp hone)]
      exact ⟨h₁, rfl, rfl, rfl, rfl, fun i => by simp [hone]⟩
  have hindex₂ : ∀ b, (h₂.tags b).index = if b = a then -1 else (h.tags b).index := fun b => by
    rw [htags, hindex b]
  have hlisted₂ : Listed h₂ (Tag regions chain) := hlisted.of_eq htags hfreePages
  refine ⟨h₁, h₂, hremove, hh₂, ?_, ⟨?_, ?_⟩, ?_, ?_⟩
  · refine hI.reindex hr har (fun b => ?_) (hinit.trans hsame.initialized) hindex₂ hlisted₂
      (.inl ⟨rfl, rfl, hfree, by decide⟩) (fun hk => absurd hk (by decide))
      fun i hi => ?_
    · rw [htags]
      exact ⟨hsame.block b, hsame.size b⟩
    · have hneg : ¬ (chain r = [r.1] ∧ -1 = i) := by omega
      rw [hcomplete i, if_neg hneg]
      have := (hI.complete i hi).2
      split_ifs <;> omega
  · -- a free block had no free neighbour
    intro b hb
    rw [htags, hsame.splitLeft a] at hb
    obtain ⟨hbr, hright, hne⟩ := hI.cut.mem_of_splitLeft hr har hb
    rw [hindex₂ b, if_neg hne]
    have := hI.separate b a ⟨r, hr, hbr⟩ hright
    omega
  · intro b hb
    rw [htags, hsame.splitRight a] at hb
    obtain ⟨-, -, hne⟩ := hI.cut.mem_of_splitRight hr har hb
    rw [hindex₂ b, if_neg hne]
    have := hI.separate a b ha hb
    omega
  · rw [hindex₂ a, if_pos rfl]
    decide
  · rw [htags, hsame.realSize a]

theorem Inv.size_lt (hI : Inv h regions chain live held) (ha : Tag regions chain a) :
    sizeofTag ≤ (h.tags a).realSize ∧ (h.tags a).realSize < 2 ^ 32 := by
  obtain ⟨hpos, hend, hsize⟩ := hI.cut.tag_lt ha
  exact ⟨hsize, by omega⟩

/-- The list a block goes back to. -/
theorem Inv.index_put (hI : Inv h regions chain live held) (ha : Tag regions chain a) :
    max (getexp (sub (h.tags a).realSize sizeofTag)) minExp =
      indexOf ((h.tags a).realSize - sizeofTag) := by
  obtain ⟨hle, hlt⟩ := hI.size_lt ha
  rw [sub_eq hle hlt, max_getexp (by omega)]

theorem Inv.index_put_range (hI : Inv h regions chain live held) (ha : Tag regions chain a) :
    0 ≤ indexOf ((h.tags a).realSize - sizeofTag) ∧
      indexOf ((h.tags a).realSize - sizeofTag) < maxExp :=
  indexOf_range (Nat.lt_of_le_of_lt (Nat.sub_le ..) (hI.size_lt ha).2)

/-- The held block becomes free. -/
theorem Inv.put {k : ℤ} (hI : Inv h regions chain live (some a)) (ha : Tag regions chain a)
    (hneg : (h.tags a).index < 0) (hiso : Isolated h a)
    (hk : k = indexOf ((h.tags a).realSize - sizeofTag))
    (hroom : h.whole a = true → h.completePages k ≠ maxComplete) :
    ∃ h', (if h.whole a then (h.addComplete k 1).bind fun h => h.insertTag a k
        else h.insertTag a k) = some h' ∧ Inv h' regions chain live none := by
  obtain ⟨r, hr, har, hcut⟩ := hI.exists_region ha
  have hrange : 0 ≤ k ∧ k < maxExp := hk ▸ hI.index_put_range ha
  have hwhole : h.whole a = true ↔ chain r = [r.1] := hcut.whole_iff har
  obtain ⟨h₁, hh₁, htags, hfreePages, hinit, hcomplete⟩ : ∃ h₁ : Liballoc,
      (if h.whole a then h.addComplete k 1 else some h) = some h₁ ∧ h₁.tags = h.tags ∧
      h₁.freePages = h.freePages ∧ h₁.initialized = h.initialized ∧
      ∀ i, h₁.completePages i = h.completePages i + if chain r = [r.1] ∧ k = i then 1 else 0 := by
    by_cases hone : chain r = [r.1]
    · rw [if_pos (hwhole.mpr hone), addComplete, element_eq hrange]
      refine ⟨_, rfl, rfl, rfl, rfl, fun i => ?_⟩
      by_cases hi : k = i
      · subst hi
        simp [hone]
      · simp [hi, Function.update_of_ne (Ne.symm hi)]
    · rw [if_neg (mt hwhole.mp hone)]
      exact ⟨h, rfl, rfl, rfl, rfl, fun i => by simp [hone]⟩
  -- a held tag is on no list, as `insert_tag` expects
  obtain ⟨lists, hl⟩ := hI.listed.of_eq htags hfreePages
  have hneg₁ : (h₁.tags a).index < 0 := htags ▸ hneg
  obtain ⟨-, hnext, hprev⟩ := hl.unlisted a ha hneg₁
  obtain ⟨h', hinsert, hlisted, hsame, hindex⟩ := insertTag_spec k ⟨lists, hl⟩ (fun _ => hneg₁)
    hnext hprev hrange (if_neg (by omega))
  have htag : (fun b => b = a ∨ Tag regions chain b) = Tag regions chain :=
    funext fun b => propext (or_iff_right_of_imp (by rintro rfl; exact ha))
  rw [htag] at hlisted
  refine ⟨h', ?_, hI.reindex hr har (fun b => ?_) (hsame.initialized.trans hinit) (k := k)
    (fun b => ?_) hlisted (.inr ⟨rfl, rfl, hneg, hrange.1⟩) (fun _ => ⟨hiso, hk⟩) fun i hi => ?_⟩
  · split_ifs at hh₁ ⊢
    · rw [hh₁]
      exact hinsert
    · rw [Option.some.inj hh₁]
      exact hinsert
  · rw [← htags]
    exact ⟨hsame.block b, hsame.size b⟩
  · rw [hindex b, htags]
  · have hneg' : ¬ (chain r = [r.1] ∧ (h.tags a).index = i) := by omega
    rw [hsame.completePages, hcomplete i, if_neg hneg', Int.add_zero]
    refine ⟨rfl, ?_⟩
    have hle := (hI.complete i hi).2
    split_ifs with hone
    · obtain ⟨hone, rfl⟩ := hone
      have := hroom (hwhole.mpr hone)
      omega
    · omega

/-- The held block is a whole region, which is given back. -/
theorem Inv.release (hI : Inv h regions chain live (some a)) (hr : r ∈ regions)
    (hone : chain r = [a]) (hneg : (h.tags a).index < 0) :
    (a, h.pagesOf a) = r ∧ Inv h (regions.erase r) chain live none := by
  have hcut := hI.cut.cut r hr
  rw [hone] at hcut
  obtain ⟨haddr, -, -, hsize⟩ := hcut.singleton
  have htag : ∀ b, Tag (regions.erase r) chain b ↔ Tag regions chain b ∧ b ≠ a := fun b => by
    rw [hI.cut.tag_erase_iff hr, hone, List.mem_singleton]
  have hused : ∀ b, Used h (regions.erase r) chain none b ↔ Used h regions chain (some a) b := by
    intro b
    unfold Used
    rw [htag b]
    simp only [ne_eq, Option.some.injEq, reduceCtorEq, not_false_eq_true, and_true, eq_comm]
    tauto
  constructor
  · -- the pages the block is given back with are those of the region
    have hpages := (hI.cut.isRegion r hr).2.1
    rw [pageCount] at hpages
    refine Prod.ext haddr ?_
    simp only [pagesOf, hsize, pageSize, pageCount, Nat.mul_mod_left, ne_eq, not_true_eq_false,
      if_false]
    rw [Nat.mul_div_cancel _ (by decide), if_neg (by omega)]
  constructor
  case cut => exact hI.cut.erase
  case listed =>
    refine hI.listed.of_sameLists ⟨?_, ?_, ?_, ?_, rfl, rfl, rfl⟩ (fun b hb => ((htag b).mp hb).1)
      fun b hb hi => (htag b).mpr ⟨hb, ?_⟩
    · exact fun _ => rfl
    · exact fun _ => rfl
    · exact fun _ => rfl
    · exact fun _ => rfl
    · rintro rfl
      omega
  case separate => exact fun b d hb => hI.separate b d ((htag b).mp hb).1
  case index_eq => exact fun b hb => hI.index_eq b ((htag b).mp hb).1
  case complete =>
    intro i hi
    obtain ⟨hcount, hle⟩ := hI.complete i hi
    refine ⟨?_, hle⟩
    -- the block is held, so its region was not counted
    have hnot : ¬ (r ∈ regions ∧ wholeFree h.tags chain i r = true) := by
      rintro ⟨-, hfree⟩
      rw [wholeFree, decide_eq_true_iff, ← haddr] at hfree
      omega
    rw [List.countP_erase, if_neg hnot, Nat.sub_zero]
    exact hcount
  case live_iff =>
    intro p n
    rw [hI.live_iff p n]
    simp only [hused]
  case fits => exact fun b hb => hI.fits b ((hused b).mp hb)
  case started =>
    intro hinit
    rw [hI.started hinit]
    rfl

/-! ## What clients get and give -/

/-- The client of a block gives it up. -/
theorem Inv.hold (hI : Inv h regions chain live none) (ha : Used h regions chain none a) :
    Inv h regions chain (Function.update live (a + sizeofTag) none) (some a) := by
  have hused : ∀ b, Used h regions chain (some a) b ↔ Used h regions chain none b ∧ b ≠ a := by
    intro b
    unfold Used
    simp only [ne_eq, Option.some.injEq, reduceCtorEq, not_false_eq_true, and_true, eq_comm]
    tauto
  refine { hI with live_iff := fun p n => ?_, fits := fun b hb => hI.fits b ((hused b).mp hb).1 }
  simp only [hused]
  by_cases hp : p = a + sizeofTag
  · subst hp
    rw [Function.update_self]
    constructor
    · rintro ⟨⟩
    · rintro ⟨b, ⟨-, hne⟩, hb, -⟩
      exact absurd (Nat.add_right_cancel hb).symm hne
  · rw [Function.update_of_ne hp, hI.live_iff p n]
    constructor
    · rintro ⟨b, hb, hpb, hn⟩
      refine ⟨b, ⟨hb, ?_⟩, hpb, hn⟩
      rintro rfl
      exact hp hpb
    · rintro ⟨b, ⟨hb, -⟩, hpb, hn⟩
      exact ⟨b, hb, hpb, hn⟩

/-- A client gets the held block. -/
theorem Inv.give (hI : Inv h regions chain live (some a)) (ha : Tag regions chain a)
    (hneg : (h.tags a).index < 0) (hfit : sizeofTag + (h.tags a).size ≤ (h.tags a).realSize)
    (hlt : a + sizeofTag < 2 ^ 32) :
    Inv h regions chain (Function.update live (a + sizeofTag) (some (h.tags a).size)) none := by
  have hused : ∀ b, Used h regions chain none b ↔ b = a ∨ Used h regions chain (some a) b := by
    intro b
    unfold Used
    simp only [ne_eq, Option.some.injEq, reduceCtorEq, not_false_eq_true, and_true]
    by_cases hb : b = a
    · subst hb
      simp [ha, hneg]
    · simp [hb, Ne.symm hb]
  refine { hI with live_iff := fun p n => ?_, fits := fun b hb => ?_ }
  · -- an address names one block
    simp only [hused]
    by_cases hp : p = a + sizeofTag
    · subst hp
      rw [Function.update_self, Option.some.injEq]
      constructor
      · exact fun hn => ⟨a, .inl rfl, rfl, hn⟩
      · rintro ⟨b, -, hb, hn⟩
        rwa [← Nat.add_right_cancel hb] at hn
    · rw [Function.update_of_ne hp, hI.live_iff p n]
      constructor
      · rintro ⟨b, hb, hpb, hn⟩
        exact ⟨b, .inr hb, hpb, hn⟩
      · rintro ⟨b, rfl | hb, hpb, hn⟩
        · exact absurd hpb hp
        · exact ⟨b, hb, hpb, hn⟩
  · rcases (hused b).mp hb with rfl | hb
    · exact ⟨hfit, hlt⟩
    · exact hI.fits b hb

/-- The requested size is noted in the held tag. -/
theorem Inv.resize (size : ℕ) (hI : Inv h regions chain live (some a))
    (ha : Tag regions chain a) :
    Inv (h.modify a fun t => { t with size }) regions chain live (some a) := by
  obtain ⟨r, hr, har, hcut⟩ := hI.exists_region ha
  have hfields : ∀ b, SameBlock h.tags (h.modify a fun t => { t with size }).tags b ∧
      ((h.modify a fun t => { t with size }).tags b).index = (h.tags b).index ∧
      ((h.modify a fun t => { t with size }).tags b).next = (h.tags b).next ∧
      ((h.modify a fun t => { t with size }).tags b).prev = (h.tags b).prev := by
    intro b
    unfold SameBlock
    rw [tags_modify]
    split_ifs <;> exact ⟨⟨rfl, rfl, rfl, rfl⟩, rfl, rfl, rfl⟩
  have hsize : ∀ b, b ≠ a →
      ((h.modify a fun t => { t with size }).tags b).size = (h.tags b).size := fun b hb => by
    rw [tags_modify, if_neg hb]
  have hne : ∀ b, some a ≠ some b → b ≠ a := fun b hb hba => hb (congrArg some hba).symm
  -- the size of a held tag is nobody's, so every part but the lists is as it was
  have hstep : LocalStep h (h.modify a fun t => { t with size }) regions chain r (chain r)
      (some a) (some a) := by
    constructor
    case cut => exact hcut.congr fun b _ => (hfields b).1
    case elsewhere =>
      refine fun b _ hb => ⟨(hfields b).1, (hfields b).2.1, hsize b ?_⟩
      rintro rfl
      exact hb har
    case used_iff => exact fun b => by rw [(hfields b).2.1]
    case used_kept => exact fun b _ _ hb => ⟨hsize b (hne b hb), (hfields b).1.2.2.1⟩
    case separate =>
      intro b hb d hd
      rw [(hfields b).1.2.1] at hd
      rw [(hfields b).2.1, (hfields d).2.1]
      exact hI.separate b d ⟨r, hr, hb⟩ hd
    case index_eq =>
      intro b hb
      rw [(hfields b).2.1, (hfields b).1.2.2.1]
      exact hI.index_eq b ⟨r, hr, hb⟩
    case held_mem =>
      rintro b ⟨⟩
      exact har
    case held_mem' =>
      rintro b ⟨⟩
      exact har
    case initialized => rfl
  have hI' := hI.step hr hstep ?_ fun i hi => ?_
  · rwa [Function.update_eq_self] at hI'
  · rw [Function.update_eq_self]
    obtain ⟨lists, hl⟩ := hI.listed
    refine Listed.congr ⟨lists, hl⟩ rfl (fun b hb _ => ⟨hb, (hfields b).2⟩) fun b hb hneg => ?_
    obtain ⟨hindex, hnext, hprev⟩ := (hfields b).2
    rw [hindex, hnext, hprev]
    refine hl.unlisted b hb ?_
    have := mt (And.intro hb) hneg
    omega
  · rw [Function.update_eq_self]
    refine ⟨?_, (hI.complete i hi).2⟩
    unfold wholeFree
    rw [(hfields r.1).2.1]
    rfl

/-! ## Blocks that change -/

/-- A list without one of its elements. -/
theorem mem_without (hnodup : (xs ++ a :: b :: ys).Nodup) :
    d ∈ xs ++ a :: ys ↔ d ∈ xs ++ a :: b :: ys ∧ d ≠ b := by
  rw [List.append_cons, List.nodup_middle, List.nodup_cons, List.append_assoc,
    List.singleton_append] at hnodup
  have hb := hnodup.1
  simp only [List.mem_append, List.mem_cons] at hb ⊢
  constructor
  · intro hd
    exact ⟨by tauto, by rintro rfl; tauto⟩
  · tauto

/-- A list with one more element. -/
theorem mem_with : b ∈ xs ++ a :: d :: ys ↔ b = d ∨ b ∈ xs ++ a :: ys := by
  simp only [List.mem_append, List.mem_cons, or_left_comm]

theorem Regions.tag_merge_iff {tags : ℕ → BoundaryTag} (hR : Regions tags regions chain)
    (hr : r ∈ regions) (hc : chain r = xs ++ a :: b :: ys) :
    Tag regions (Function.update chain r (xs ++ a :: ys)) d ↔ Tag regions chain d ∧ d ≠ b := by
  have hnodup := (hR.cut r hr).nodup
  rw [hc] at hnodup
  rw [hR.tag_update_iff hr, mem_without hnodup, ← hc]
  constructor
  · rintro (⟨hd, hne⟩ | ⟨hd, hdr⟩)
    · exact ⟨⟨r, hr, hd⟩, hne⟩
    · refine ⟨hd, ?_⟩
      rintro rfl
      exact hdr (by simp [hc])
  · rintro ⟨hd, hne⟩
    by_cases hdr : d ∈ chain r
    · exact .inl ⟨hdr, hne⟩
    · exact .inr ⟨hd, hdr⟩

/-- Of the neighbours `a` and `b` one is held and the other was free; they become one held block. -/
structure Melted (h h' : Liballoc) (held : Option ℕ) (a b : ℕ) : Prop where
  merged : Merged h.tags h'.tags a b
  free : held = some a ∧ 0 ≤ (h.tags b).index ∨ held = some b ∧ 0 ≤ (h.tags a).index
  index : ∀ d, (h'.tags d).index = if d = a ∨ d = b then -1 else (h.tags d).index
  size : ∀ d, (h'.tags d).size = (h.tags d).size
  completePages : h'.completePages = h.completePages
  initialized : h'.initialized = h.initialized

theorem Melted.index_left (hm : Melted h h' held a b) : (h'.tags a).index = -1 := by
  rw [hm.index a, if_pos (.inl rfl)]

theorem Melted.index_right (hm : Melted h h' held a b) : (h'.tags b).index = -1 := by
  rw [hm.index b, if_pos (.inr rfl)]

theorem Melted.index_other (hm : Melted h h' held a b) (hda : d ≠ a) (hdb : d ≠ b) :
    (h'.tags d).index = (h.tags d).index := by
  rw [hm.index d, if_neg (by tauto)]

/-- The two tags belonged to nobody, and belong to nobody. -/
theorem Melted.used_iff (hm : Melted h h' held a b) (hc : chain r = xs ++ a :: b :: ys)
    (hnodup : (chain r).Nodup) (d : ℕ) :
    d ∈ xs ++ a :: ys ∧ (h'.tags d).index < 0 ∧ some a ≠ some d ↔
      d ∈ chain r ∧ (h.tags d).index < 0 ∧ held ≠ some d := by
  rw [hc] at hnodup ⊢
  rw [mem_without hnodup]
  by_cases hda : d = a
  · subst hda
    rcases hm.free with ⟨rfl, -⟩ | ⟨rfl, hpos⟩
    · simp
    · simp
      omega
  · by_cases hdb : d = b
    · subst hdb
      rcases hm.free with ⟨rfl, hpos⟩ | ⟨rfl, -⟩
      · simp
        omega
      · simp
    · have hne : held ≠ some d := by
        rcases hm.free with ⟨rfl, -⟩ | ⟨rfl, -⟩
        · exact fun h => hda (Option.some.inj h).symm
        · exact fun h => hdb (Option.some.inj h).symm
      have hne' : some a ≠ some d := fun h => hda (Option.some.inj h).symm
      simp [hm.index_other hda hdb, hdb, hne, hne']

/-- The held block is not free, so no two free blocks have become neighbours. -/
theorem Melted.separate (hm : Melted h h' held a b) (hI : Inv h regions chain live held)
    (hr : r ∈ regions) {e : ℕ} (hd : d ∈ chain r) (hdb : d ≠ b)
    (he : (h'.tags d).splitRight = some e) :
    ¬ (0 ≤ (h'.tags d).index ∧ 0 ≤ (h'.tags e).index) := by
  intro hboth
  have hda : d ≠ a := by
    rintro rfl
    rw [hm.index_left] at hboth
    omega
  have hea : e ≠ a := by
    rintro rfl
    rw [hm.index_left] at hboth
    omega
  have heb : e ≠ b := by
    rintro rfl
    rw [hm.index_right] at hboth
    omega
  rw [hm.index_other hda hdb, hm.index_other hea heb] at hboth
  rw [hm.merged.splitRight d, if_neg hda] at he
  exact hI.separate d e ⟨r, hr, hd⟩ he hboth

theorem Melted.localStep (hm : Melted h h' held a b) (hI : Inv h regions chain live held)
    (hr : r ∈ regions) (hc : chain r = xs ++ a :: b :: ys) :
    LocalStep h h' regions chain r (xs ++ a :: ys) held (some a) := by
  have hcut := hI.cut.cut r hr
  have har : a ∈ chain r := by simp [hc]
  have hbr : b ∈ chain r := by simp [hc]
  have hmem : ∀ d, d ∈ xs ++ a :: ys ↔ d ∈ chain r ∧ d ≠ b := fun d => by
    have hnodup := hcut.nodup
    rw [hc] at hnodup ⊢
    exact mem_without hnodup
  constructor
  case cut =>
    rw [hc] at hcut
    exact hcut.merge hm.merged
  case elsewhere =>
    intro d hd hdr
    have hda : d ≠ a := fun h => hdr (h ▸ har)
    have hdb : d ≠ b := fun h => hdr (h ▸ hbr)
    have hright : (h.tags b).splitRight ≠ some d := fun h =>
      hdr (hI.cut.mem_of_splitRight hr hbr h).1
    refine ⟨⟨?_, ?_, ?_, hm.merged.magic d⟩, hm.index_other hda hdb, hm.size d⟩
    · rw [hm.merged.splitLeft d, if_neg hright]
    · rw [hm.merged.splitRight d, if_neg hda]
    · rw [hm.merged.realSize d, if_neg hda]
  case used_iff => exact hm.used_iff hc hcut.nodup
  case used_kept =>
    intro d hd hneg hne
    have hda : d ≠ a := by
      rintro rfl
      rcases hm.free with ⟨rfl, -⟩ | ⟨-, hpos⟩
      · exact hne rfl
      · omega
    exact ⟨hm.size d, by rw [hm.merged.realSize d, if_neg hda]⟩
  case separate =>
    intro d hd e he
    obtain ⟨hdr, hdb⟩ := (hmem d).mp hd
    exact hm.separate hI hr hdr hdb he
  case index_eq =>
    intro d hd hpos
    obtain ⟨hdr, hdb⟩ := (hmem d).mp hd
    have hda : d ≠ a := by
      rintro rfl
      rw [hm.index_left] at hpos
      omega
    rw [hm.index_other hda hdb] at hpos ⊢
    rw [hm.merged.realSize d, if_neg hda]
    exact hI.index_eq d ⟨r, hr, hdr⟩ hpos
  case held_mem =>
    rintro d hd
    rcases hm.free with ⟨rfl, -⟩ | ⟨rfl, -⟩
    · exact Option.some.inj hd ▸ har
    · exact Option.some.inj hd ▸ hbr
  case held_mem' =>
    rintro d ⟨⟩
    simp
  case initialized => exact hm.initialized

/-- Melting two blocks keeps the invariant. -/
theorem Inv.merge (hI : Inv h regions chain live held) (hr : r ∈ regions)
    (hc : chain r = xs ++ a :: b :: ys) (hm : Melted h h' held a b)
    (hlisted : Listed h' (Tag regions (Function.update chain r (xs ++ a :: ys)))) :
    Inv h' regions (Function.update chain r (xs ++ a :: ys)) live (some a) := by
  refine hI.step hr (hm.localStep hI hr hc) hlisted fun i hi => ?_
  -- the region was cut before, and is held now
  have hold : ¬ (chain r = [r.1] ∧ (h.tags r.1).index = i) := by
    rintro ⟨hone, -⟩
    have hlen := congrArg List.length (hc.symm.trans hone)
    simp at hlen
    omega
  have hnew : ¬ (xs ++ a :: ys = [r.1] ∧ (h'.tags r.1).index = i) := by
    rintro ⟨hone, hr1⟩
    have ha : a ∈ [r.1] := by
      rw [← hone]
      simp
    rw [← List.mem_singleton.mp ha, hm.index_left] at hr1
    omega
  rw [hm.completePages]
  simpa [wholeFree, hold, hnew] using (hI.complete i hi).2

/-- One round of the first loop of `kfree`. -/
theorem Inv.meltLeft (hI : Inv h regions chain live (some t)) (hr : r ∈ regions)
    (ht : t ∈ chain r) (hneg : (h.tags t).index < 0) (ha : (h.tags t).splitLeft = some a)
    (hfree : 0 ≤ (h.tags a).index) :
    ∃ h₁ h₂ c', h.meltLeft t = some (a, h₁) ∧ h₁.removeTag a = some h₂ ∧
      Inv h₂ regions (Function.update chain r c') live (some a) ∧ a ∈ c' ∧
      (h₂.tags a).index < 0 ∧ c'.length < (chain r).length := by
  obtain ⟨xs, ys, hc⟩ := (hI.cut.cut r hr).linked.exists_prev ht ha
  have hcut := hI.cut.cut r hr
  rw [hc] at hcut
  obtain ⟨hpos, -, hend⟩ := hI.cut.isRegion r hr
  obtain ⟨har, -, hne⟩ := hI.cut.mem_of_splitLeft hr ht ha
  obtain ⟨hm, hsame⟩ := join_spec (h := h) hne (hcut.sum_lt hpos hend)
  -- the tag that goes is held, so the lists do not have it
  have hmem : ∀ d, Tag regions (Function.update chain r (xs ++ a :: ys)) d ↔
      Tag regions chain d ∧ d ≠ t := fun d => hI.cut.tag_merge_iff hr hc
  have hlisted : Listed (h.join a t) (Tag regions (Function.update chain r (xs ++ a :: ys))) :=
    hI.listed.of_sameLists hsame (fun d hd => ((hmem d).mp hd).1) fun d hd hd' =>
      (hmem d).mpr ⟨hd, by rintro rfl; omega⟩
  obtain ⟨h₂, hremove, hlisted₂, hsame₂, hindex₂⟩ := removeTag_spec hlisted
    ((hmem a).mpr ⟨⟨r, hr, har⟩, hne⟩) (by rwa [hsame.index a])
  have hminus : (h.tags t).index = -1 := by
    obtain ⟨lists, hl⟩ := hI.listed
    exact (hl.unlisted t ⟨r, hr, ht⟩ hneg).1
  refine ⟨h.join a t, h₂, xs ++ a :: ys, meltLeft_eq ha, hremove, ?_, by simp, ?_, ?_⟩
  · refine hI.merge hr hc ⟨hm.trans_same hsame₂.block, .inr ⟨rfl, hfree⟩, fun d => ?_,
      fun d => (hsame₂.size d).trans (hsame.size d),
      hsame₂.completePages.trans hsame.completePages,
      hsame₂.initialized.trans hsame.initialized⟩ hlisted₂
    rw [hindex₂ d, hsame.index d]
    by_cases hdt : d = t
    · subst hdt
      simp [hminus]
    · simp [hdt]
  · rw [hindex₂ a, if_pos rfl]
    decide
  · simp [hc]

/-- One round of the second loop of `kfree`. What is to the left of the held tag stays. -/
theorem Inv.absorbRight (hI : Inv h regions chain live (some t)) (hr : r ∈ regions)
    (ht : t ∈ chain r) (hneg : (h.tags t).index < 0) (hb : (h.tags t).splitRight = some b)
    (hfree : 0 ≤ (h.tags b).index)
    (hleft : ∀ d, (h.tags t).splitLeft = some d → (h.tags d).index < 0) :
    ∃ h' c', h.absorbRight t = some (t, h') ∧
      Inv h' regions (Function.update chain r c') live (some t) ∧ t ∈ c' ∧
      (h'.tags t).index < 0 ∧ c'.length < (chain r).length ∧
      ∀ d, (h'.tags t).splitLeft = some d → (h'.tags d).index < 0 := by
  obtain ⟨xs, ys, hc⟩ := (hI.cut.cut r hr).linked.exists_next ht hb
  have hcut := hI.cut.cut r hr
  obtain ⟨hpos, -, hend⟩ := hI.cut.isRegion r hr
  obtain ⟨hbr, -, hne⟩ := hI.cut.mem_of_splitRight hr ht hb
  obtain ⟨h₁, hremove, hlisted₁, hsame₁, hindex₁⟩ := removeTag_spec hI.listed ⟨r, hr, hbr⟩ hfree
  have hcut₁ : Cut h₁.tags r (chain r) := hcut.congr fun d _ => hsame₁.block d
  rw [hc] at hcut₁
  obtain ⟨hm, hsame⟩ := join_spec (h := h₁) (Ne.symm hne) (hcut₁.sum_lt hpos hend)
  have hminus : (h.tags t).index = -1 := by
    obtain ⟨lists, hl⟩ := hI.listed
    exact (hl.unlisted t ⟨r, hr, ht⟩ hneg).1
  have hindex : ∀ d, ((h₁.join t b).tags d).index =
      if d = t ∨ d = b then -1 else (h.tags d).index := fun d => by
    rw [hsame.index d, hindex₁ d]
    by_cases hdt : d = t
    · subst hdt
      simp [hminus]
    · simp [hdt]
  have hlisted : Listed (h₁.join t b) (Tag regions (Function.update chain r (xs ++ t :: ys))) :=
    hlisted₁.of_sameLists hsame (fun d hd => ((hI.cut.tag_merge_iff hr hc).mp hd).1)
      fun d hd hd' => (hI.cut.tag_merge_iff hr hc).mpr ⟨hd, by
        rintro rfl
        rw [hindex₁ d, if_pos rfl] at hd'
        omega⟩
  have hmerged := Merged.of_same (fun d => hsame₁.block d) hm
  -- the block behind `b` is not `t` again, so the left neighbour of `t` is kept
  have hright : (h.tags b).splitRight ≠ some t := by
    intro hbt
    have hnodup := hcut.nodup
    rw [hc] at hcut hnodup
    rw [List.append_cons] at hcut
    have ht' := List.mem_of_head? (hcut.linked.neighbours.2.symm.trans hbt)
    simp [List.nodup_middle, ht'] at hnodup
  refine ⟨h₁.join t b, xs ++ t :: ys, ?_, ?_, by simp, ?_, by simp [hc], ?_⟩
  · rw [absorbRight_eq hb, hremove]
    rfl
  · exact hI.merge hr hc ⟨hmerged, .inl ⟨rfl, hfree⟩, hindex,
      fun d => (hsame.size d).trans (hsame₁.size d),
      hsame.completePages.trans hsame₁.completePages,
      hsame.initialized.trans hsame₁.initialized⟩ hlisted
  · rw [hindex t, if_pos (.inl rfl)]
    decide
  · intro d hd
    rw [hmerged.splitLeft t, if_neg hright] at hd
    rw [hindex d]
    split_ifs
    · decide
    · exact hleft d hd

/-- The held block `a` has been split, and its right part, at `d`, is free and for list `i`. -/
structure SplitOff (h h' : Liballoc) (a d : ℕ) (i : ℤ) : Prop where
  parted : Parted h.tags h'.tags a d
  index : ∀ b, (h'.tags b).index = if b = d then i else (h.tags b).index
  index_eq : i = indexOf ((h'.tags d).realSize - sizeofTag)
  index_nonneg : 0 ≤ i
  size : ∀ b, (h'.tags b).size = (h.tags b).size
  completePages : h'.completePages = h.completePages
  initialized : h'.initialized = h.initialized

theorem SplitOff.index_other (hs : SplitOff h h' a d i) (hb : b ≠ d) :
    (h'.tags b).index = (h.tags b).index := by
  rw [hs.index b, if_neg hb]

/-- The tag of the right part is written into the block, where no tag is. -/
theorem Inv.splitRight_ne {size : ℕ} (hI : Inv h regions chain live held) (hr : r ∈ regions)
    (har : a ∈ chain r) (hfit : sizeofTag + size + sizeofTag ≤ (h.tags a).realSize) :
    (h.tags a).splitRight ≠ some (a + sizeofTag + size) := by
  intro hb
  have hcut := hI.cut.cut r hr
  have hnr := (hI.cut.mem_of_splitRight hr har hb).1
  have hheader := hcut.header _ hnr
  have hdisjoint := hcut.tiles.disjoint har hnr
  rw [sizeofTag] at *
  rcases hdisjoint (by omega) with h | h <;> omega

/-- `split_tag` puts the right part on the list for its size. -/
theorem Inv.splitTag_spec {size : ℕ} (hI : Inv h regions chain live (some a)) (hr : r ∈ regions)
    (har : a ∈ chain r) (hsize : (h.tags a).size = size)
    (hfit : sizeofTag + size + sizeofTag ≤ (h.tags a).realSize) :
    ∃ h' i, h.splitTag a = some h' ∧ SplitOff h h' a (a + sizeofTag + size) i ∧
      Listed h' fun b => b = a + sizeofTag + size ∨ Tag regions chain b := by
  obtain ⟨hpos, hend, -⟩ := hI.cut.tag_lt ⟨r, hr, har⟩
  have hself : (h.tags a).splitRight ≠ some a := fun hb =>
    (hI.cut.mem_of_splitRight hr har hb).2.2 rfl
  obtain ⟨h₁, heq, hparted, hnext, hprev, hlinks, hkept, hfree, hcomplete, hinit⟩ :=
    splitTag_eq hsize (by rw [sizeofTag] at hfit ⊢; omega) hfit (by omega) hself
      (hI.splitRight_ne hr har hfit)
  obtain ⟨n, hn⟩ : ∃ n, n = a + sizeofTag + size := ⟨_, rfl⟩
  rw [← hn] at heq hparted hnext hprev hlinks ⊢
  have hnotag := hI.cut.not_tag_parted hr har hparted
  -- so far the lists are as they were
  have hlisted₁ : Listed h₁ (Tag regions chain) := by
    obtain ⟨lists, hl⟩ := hI.listed
    have hother : ∀ b, Tag regions chain b → b ≠ n := by
      rintro b hb rfl
      exact hnotag hb
    refine Listed.congr ⟨lists, hl⟩ hfree
      (fun b hb _ => ⟨hb, (hkept b).1, hlinks b (hother b hb)⟩) fun b hb hneg => ?_
    rw [(hkept b).1, (hlinks b (hother b hb)).1, (hlinks b (hother b hb)).2]
    refine hl.unlisted b hb ?_
    have := mt (And.intro hb) hneg
    omega
  have hsizes := hparted.sizes
  have hindex_n : max (getexp (sub (h₁.tags n).realSize sizeofTag)) minExp =
      indexOf ((h₁.tags n).realSize - sizeofTag) := by
    rw [sub_eq hparted.headers.2 (by omega), max_getexp (by omega)]
  have hrange : 0 ≤ indexOf ((h₁.tags n).realSize - sizeofTag) ∧
      indexOf ((h₁.tags n).realSize - sizeofTag) < maxExp := indexOf_range (by omega)
  obtain ⟨h', hinsert, hlisted, hsame, hindex⟩ := insertTag_spec (-1) hlisted₁
    (fun h => absurd h hnotag) hnext hprev hrange
    (by rw [if_pos (by decide)]; exact hindex_n)
  refine ⟨h', _, heq.trans hinsert, ⟨hparted.trans_same hsame.block, fun b => ?_, ?_, hrange.1,
    fun b => (hsame.size b).trans (hkept b).2, hsame.completePages.trans hcomplete,
    hsame.initialized.trans hinit⟩, hlisted⟩
  · rw [hindex b, (hkept b).1]
  · rw [hsame.realSize n]

/-- The right part of the block belongs to nobody. -/
theorem SplitOff.used_iff (hs : SplitOff h h' a d i) (hc : chain r = xs ++ a :: ys)
    (hd : d ∉ chain r) (b : ℕ) :
    b ∈ xs ++ a :: d :: ys ∧ (h'.tags b).index < 0 ∧ held ≠ some b ↔
      b ∈ chain r ∧ (h.tags b).index < 0 ∧ held ≠ some b := by
  rw [mem_with, ← hc]
  by_cases hbd : b = d
  · subst hbd
    have hnonneg := hs.index_nonneg
    rw [hs.index b, if_pos rfl]
    constructor
    · rintro ⟨-, hneg, -⟩
      omega
    · rintro ⟨hbr, -⟩
      exact absurd hbr hd
  · rw [hs.index_other hbd, or_iff_right hbd]

/-- The block to the right of the held one was not free, so the right part has no free neighbour. -/
theorem SplitOff.separate (hs : SplitOff h h' a d i) (hI : Inv h regions chain live (some a))
    (hr : r ∈ regions) (har : a ∈ chain r) (hneg : (h.tags a).index < 0) (hiso : Isolated h a)
    (hd : d ∉ chain r) {e : ℕ} (hb : b = d ∨ b ∈ chain r)
    (he : (h'.tags b).splitRight = some e) :
    ¬ (0 ≤ (h'.tags b).index ∧ 0 ≤ (h'.tags e).index) := by
  intro hboth
  rw [hs.parted.splitRight b] at he
  by_cases hba : b = a
  · subst hba
    rw [hs.index_other fun h => hd (h ▸ har)] at hboth
    omega
  rw [if_neg hba] at he
  by_cases hbd : b = d
  · rw [if_pos hbd] at he
    have her := (hI.cut.mem_of_splitRight hr har he).1
    rw [hs.index_other (b := e) fun h => hd (h ▸ her)] at hboth
    have := hiso.2 e he
    omega
  · rw [if_neg hbd] at he
    have hbr := hb.resolve_left hbd
    have her := (hI.cut.mem_of_splitRight hr hbr he).1
    rw [hs.index_other hbd, hs.index_other fun h => hd (h ▸ her)] at hboth
    exact hI.separate b e ⟨r, hr, hbr⟩ he hboth

theorem SplitOff.localStep (hs : SplitOff h h' a d i) (hI : Inv h regions chain live (some a))
    (hr : r ∈ regions) (hc : chain r = xs ++ a :: ys) (hneg : (h.tags a).index < 0)
    (hiso : Isolated h a) (hnotag : ¬ Tag regions chain d) :
    LocalStep h h' regions chain r (xs ++ a :: d :: ys) (some a) (some a) := by
  have hcut := hI.cut.cut r hr
  have har : a ∈ chain r := by simp [hc]
  have hdr : d ∉ chain r := fun h => hnotag ⟨r, hr, h⟩
  have hmem : ∀ b, b ∈ xs ++ a :: d :: ys ↔ b = d ∨ b ∈ chain r := fun b => hc ▸ mem_with
  constructor
  case cut =>
    rw [hc] at hcut
    exact hcut.part hs.parted
  case elsewhere =>
    intro b hb hbr
    have hba : b ≠ a := fun h => hbr (h ▸ har)
    have hbd : b ≠ d := by
      rintro rfl
      exact hnotag hb
    have hright : (h.tags a).splitRight ≠ some b := fun h =>
      hbr (hI.cut.mem_of_splitRight hr har h).1
    refine ⟨⟨?_, ?_, ?_, ?_⟩, hs.index_other hbd, hs.size b⟩
    · rw [hs.parted.splitLeft b, if_neg hbd, if_neg hright]
    · rw [hs.parted.splitRight b, if_neg hba, if_neg hbd]
    · exact hs.parted.realSize b hba hbd
    · rw [hs.parted.magic b, if_neg hbd]
  case used_iff => exact hs.used_iff hc hdr
  case used_kept =>
    intro b hb _ hba
    have hbd : b ≠ d := fun h => hdr (h ▸ hb)
    have hba : b ≠ a := fun h => hba (congrArg some h).symm
    exact ⟨hs.size b, hs.parted.realSize b hba hbd⟩
  case separate =>
    intro b hb e he
    exact hs.separate hI hr har hneg hiso hdr ((hmem b).mp hb) he
  case index_eq =>
    intro b hb hpos
    by_cases hbd : b = d
    · subst hbd
      rw [hs.index b, if_pos rfl]
      exact hs.index_eq
    · have hbr := ((hmem b).mp hb).resolve_left hbd
      rw [hs.index_other hbd] at hpos ⊢
      have hba : b ≠ a := by
        rintro rfl
        omega
      rw [hs.parted.realSize b hba hbd]
      exact hI.index_eq b ⟨r, hr, hbr⟩ hpos
  case held_mem =>
    rintro b ⟨⟩
    exact har
  case held_mem' =>
    rintro b ⟨⟩
    simp
  case initialized => exact hs.initialized

/-- The tags of a region in which a block has been split. -/
theorem Regions.tag_split_iff {tags : ℕ → BoundaryTag} (hR : Regions tags regions chain)
    (hr : r ∈ regions) (hc : chain r = xs ++ a :: ys) :
    Tag regions (Function.update chain r (xs ++ a :: d :: ys)) b ↔
      b = d ∨ Tag regions chain b := by
  rw [hR.tag_update_iff hr, mem_with, ← hc, or_assoc]
  refine or_congr_right ⟨fun hb => hb.elim (tag_of_mem hr) And.left, fun hb => ?_⟩
  by_cases hbr : b ∈ chain r
  · exact .inl hbr
  · exact .inr ⟨hb, hbr⟩

/-- The held block is split, and its right part is free. -/
theorem Inv.split {size : ℕ} (hI : Inv h regions chain live (some a)) (hr : r ∈ regions)
    (har : a ∈ chain r) (hneg : (h.tags a).index < 0) (hiso : Isolated h a)
    (hsize : (h.tags a).size = size)
    (hfit : sizeofTag + size + sizeofTag ≤ (h.tags a).realSize) :
    ∃ h' c', h.splitTag a = some h' ∧ Inv h' regions (Function.update chain r c') live (some a) ∧
      a ∈ c' ∧ (h'.tags a).index < 0 ∧ (h'.tags a).realSize = sizeofTag + size ∧
      (h'.tags a).size = size := by
  obtain ⟨h', i, hsplit, hs, hlisted⟩ := hI.splitTag_spec hr har hsize hfit
  obtain ⟨n, hn⟩ : ∃ n, n = a + sizeofTag + size := ⟨_, rfl⟩
  rw [← hn] at hs hlisted
  have hnotag := hI.cut.not_tag_parted hr har hs.parted
  have hna : a ≠ n := by
    rw [sizeofTag] at hn
    omega
  obtain ⟨xs, ys, hc⟩ := List.append_of_mem har
  have htag : Tag regions (Function.update chain r (xs ++ a :: n :: ys)) =
      fun b => b = n ∨ Tag regions chain b :=
    funext fun b => propext (hI.cut.tag_split_iff hr hc)
  refine ⟨h', xs ++ a :: n :: ys, hsplit, ?_, by simp, ?_, ?_, ?_⟩
  · refine hI.step hr (hs.localStep hI hr hc hneg hiso hnotag) (htag ▸ hlisted) fun k hk => ?_
    -- the region is not one free block before or after
    have hold : ¬ (chain r = [r.1] ∧ (h.tags r.1).index = k) := by
      rintro ⟨hone, hr1⟩
      rw [hone, List.mem_singleton] at har
      rw [← har] at hr1
      omega
    have hnew : ¬ (xs ++ a :: n :: ys = [r.1] ∧ (h'.tags r.1).index = k) := by
      rintro ⟨hone, -⟩
      have hlen := congrArg List.length hone
      simp at hlen
      omega
    rw [hs.completePages]
    simpa [wholeFree, hold, hnew] using (hI.complete k hk).2
  · rw [hs.index_other hna]
    exact hneg
  · have haddress := hs.parted.address
    omega
  · rw [hs.size a, hsize]

/-! ## The loops of `kfree` -/

/-- Addresses in a list without repetitions are no more than there are. -/
theorem length_lt_rounds {l : List ℕ} (hnodup : l.Nodup) (hlt : ∀ b ∈ l, b < 2 ^ 32 - 1) :
    l.length < rounds := by
  have hsub : l.Subperm (List.range (2 ^ 32 - 1)) :=
    List.subperm_of_subset hnodup fun b hb => List.mem_range.mpr (hlt b hb)
  have hle := hsub.length_le
  rw [List.length_range] at hle
  rw [rounds]
  omega

theorem Inv.address_lt (hI : Inv h regions chain live held) (ha : Tag regions chain a) :
    a < 2 ^ 32 - 1 := by
  obtain ⟨-, hend, hsize⟩ := hI.cut.tag_lt ha
  rw [sizeofTag] at hsize
  omega

theorem Inv.chain_length (hI : Inv h regions chain live held) (hr : r ∈ regions) :
    (chain r).length < rounds :=
  length_lt_rounds (hI.cut.cut r hr).nodup fun _ hb => hI.address_lt ⟨r, hr, hb⟩

theorem Inv.meltLefts (hr : r ∈ regions) : ∀ (fuel : ℕ) {h : Liballoc}
    {chain : ℕ × ℕ → List ℕ} {t : ℕ}, Inv h regions chain live (some t) → t ∈ chain r →
    (h.tags t).index < 0 → (chain r).length < fuel →
    ∃ t' h' c', h.meltLefts fuel t = some (t', h') ∧
      Inv h' regions (Function.update chain r c') live (some t') ∧ t' ∈ c' ∧
      (h'.tags t').index < 0 ∧
      ∀ d, (h'.tags t').splitLeft = some d → (h'.tags d).index < 0
  | 0, _, _, _, _, _, _, hlt => absurd hlt (Nat.not_lt_zero _)
  | fuel + 1, h, chain, t, hI, ht, hneg, hlt => by
    rw [Liballoc.meltLefts]
    cases hleft : (h.tags t).splitLeft with
    | none =>
      refine ⟨t, h, chain r, rfl, ?_, ht, hneg, fun d hd => ?_⟩
      · rwa [Function.update_eq_self]
      · rw [hleft] at hd
        cases hd
    | some a =>
      -- each round takes a tag off the region, so the fuel suffices
      by_cases hfree : 0 ≤ (h.tags a).index
      · obtain ⟨h₁, h₂, c₁, hmelt, hremove, hI₂, ha, hneg₂, hshort⟩ :=
          hI.meltLeft hr ht hneg hleft hfree
        obtain ⟨t', h', c', hloop, hI', ht', hneg', hiso⟩ :=
          Inv.meltLefts hr fuel hI₂ (by rwa [Function.update_self]) hneg₂
            (by rw [Function.update_self]; omega)
        rw [Function.update_idem] at hI'
        refine ⟨t', h', c', ?_, hI', ht', hneg', hiso⟩
        simp [hfree, hmelt, hremove, hloop]
      · refine ⟨t, h, chain r, by simp [hfree], ?_, ht, hneg, fun d hd => ?_⟩
        · rwa [Function.update_eq_self]
        · rw [hleft, Option.some.injEq] at hd
          subst hd
          omega

theorem Inv.absorbRights (hr : r ∈ regions) : ∀ (fuel : ℕ) {h : Liballoc}
    {chain : ℕ × ℕ → List ℕ}, Inv h regions chain live (some t) → t ∈ chain r →
    (h.tags t).index < 0 → (∀ d, (h.tags t).splitLeft = some d → (h.tags d).index < 0) →
    (chain r).length < fuel →
    ∃ h' c', h.absorbRights fuel t = some (t, h') ∧
      Inv h' regions (Function.update chain r c') live (some t) ∧ t ∈ c' ∧
      (h'.tags t).index < 0 ∧ Isolated h' t
  | 0, _, _, _, _, _, _, hlt => absurd hlt (Nat.not_lt_zero _)
  | fuel + 1, h, chain, hI, ht, hneg, hleft, hlt => by
    rw [Liballoc.absorbRights]
    cases hright : (h.tags t).splitRight with
    | none =>
      refine ⟨h, chain r, rfl, ?_, ht, hneg, hleft, fun d hd => ?_⟩
      · rwa [Function.update_eq_self]
      · rw [hright] at hd
        cases hd
    | some b =>
      -- the same, to the right: the left neighbour stays in use
      by_cases hfree : 0 ≤ (h.tags b).index
      · obtain ⟨h₂, c₁, habsorb, hI₂, ht₂, hneg₂, hshort, hleft₂⟩ :=
          hI.absorbRight hr ht hneg hright hfree hleft
        obtain ⟨h', c', hloop, hI', ht', hneg', hiso⟩ :=
          Inv.absorbRights hr fuel hI₂ (by rwa [Function.update_self]) hneg₂ hleft₂
            (by rw [Function.update_self]; omega)
        rw [Function.update_idem] at hI'
        refine ⟨h', c', ?_, hI', ht', hneg', hiso⟩
        simp [hfree, habsorb, hloop]
      · refine ⟨h, chain r, by simp [hfree], ?_, ht, hneg, hleft, fun d hd => ?_⟩
        · rwa [Function.update_eq_self]
        · rw [hright, Option.some.injEq] at hd
          subst hd
          omega

/-! ## New regions -/

/-- The first call finds no regions, and empties the arrays once more. -/
theorem Inv.initOnce (hI : Inv h regions chain live none) :
    Inv h.initOnce regions chain live none ∧ h.initOnce.initialized = true := by
  unfold Liballoc.initOnce
  by_cases hinit : h.initialized = true
  · rw [if_pos hinit]
    exact ⟨hI, hinit⟩
  rw [if_neg hinit]
  refine ⟨?_, rfl⟩
  obtain rfl := hI.started (Bool.not_eq_true _ ▸ hinit)
  have hnone : ∀ b, ¬ Tag [] chain b := fun b ⟨_, hr, _⟩ => List.not_mem_nil hr
  refine { hI with
    listed := ⟨fun _ => [], ?_⟩
    complete := fun i _ => ⟨rfl, (by decide : (0 : ℤ) ≤ maxComplete)⟩
    started := fun _ => rfl }
  constructor
  case first => exact fun _ _ => rfl
  case linked => exact fun _ => trivial
  case nodup => exact fun _ => List.nodup_nil
  case mem_iff =>
    exact fun i b => ⟨fun hb => absurd hb List.not_mem_nil, fun hb => absurd hb.1 (hnone b)⟩
  case index_lt => exact fun b hb => absurd hb (hnone b)
  case unlisted => exact fun b hb => absurd hb (hnone b)

/-- `h'` is `h` with a first tag for the region `r`. -/
structure Opened (h h' : Liballoc) (r : ℕ × ℕ) (size : ℕ) : Prop where
  first : h'.tags r.1 = firstTag size r.2
  other : ∀ b, b ≠ r.1 → h'.tags b = h.tags b
  freePages : h'.freePages = h.freePages
  completePages : h'.completePages = h.completePages
  initialized : h'.initialized = h.initialized

theorem opened_modify (h : Liballoc) (r : ℕ × ℕ) (size : ℕ) :
    Opened h (h.modify r.1 fun _ => firstTag size r.2) r size := by
  refine ⟨?_, fun b hb => ?_, rfl, rfl, initialized_modify ..⟩
  · rw [tags_modify, if_pos rfl]
  · rw [tags_modify, if_neg hb]

section

variable {size : ℕ}

theorem Opened.index (ho : Opened h h' r size) : (h'.tags r.1).index = -1 := by
  rw [ho.first]
  rfl

/-- The region is apart from the others, so no tag was at its start. -/
theorem Inv.ne_of_apart (hI : Inv h regions chain live none) (hr : IsRegion r)
    (hapart : ∀ r' ∈ regions, Apart r r') (hb : Tag regions chain b) : b ≠ r.1 := by
  have hlt := hr.lt
  obtain ⟨r', hr', hb⟩ := hb
  rintro rfl
  have hin := (hI.cut.cut r' hr').within hb
  rw [sizeofTag] at hin
  rcases hapart r' hr' with h | h <;> omega

theorem tag_opened (hnot : r ∉ regions) :
    Tag (r :: regions) (Function.update chain r [r.1]) b ↔ b = r.1 ∨ Tag regions chain b := by
  rw [tag_cons_iff hnot, List.mem_singleton]

theorem Opened.cut (ho : Opened h h' r size) (hI : Inv h regions chain live none)
    (hr : IsRegion r) (hapart : ∀ r' ∈ regions, Apart r r') :
    Regions h'.tags (r :: regions) (Function.update chain r [r.1]) := by
  have hpages := hr.2.1
  have hreal : (h'.tags r.1).realSize = r.2 * pageSize := by
    obtain ⟨hpos, -, hend⟩ := hr
    rw [regionEnd] at hend
    rw [ho.first]
    exact Nat.mod_eq_of_lt (by omega)
  refine hI.cut.cons hr hapart ⟨?_, ?_, ?_, ?_⟩ fun b hb => ?_
  · refine ⟨?_, ?_, trivial⟩ <;> simp only [ho.first] <;> rfl
  · refine tiles_singleton.mpr ⟨rfl, ?_⟩
    simp only [hreal, regionEnd]
  · intro b hb
    rw [List.mem_singleton.mp hb, hreal]
    rw [pageCount] at hpages
    rw [sizeofTag, pageSize]
    omega
  · intro b hb
    rw [List.mem_singleton.mp hb, ho.first]
    rfl
  · unfold SameBlock
    rw [ho.other b (hI.ne_of_apart hr hapart hb)]
    exact ⟨rfl, rfl, rfl, rfl⟩

/-- The new block is held, and the others belong to those they belonged to. -/
theorem Opened.used_iff (ho : Opened h h' r size) (hI : Inv h regions chain live none)
    (hr : IsRegion r) (hapart : ∀ r' ∈ regions, Apart r r') :
    Used h' (r :: regions) (Function.update chain r [r.1]) (some r.1) b ↔
      Used h regions chain none b := by
  unfold Used
  rw [tag_opened (hr.not_mem hapart)]
  by_cases hb : b = r.1
  · subst hb
    simp only [ne_eq, not_true_eq_false, and_false, false_iff]
    rintro ⟨hb, -⟩
    exact hI.ne_of_apart hr hapart hb rfl
  · have hb' : some r.1 ≠ some b := fun h => hb (Option.some.inj h).symm
    simp [ho.other b hb, hb, hb']

theorem Opened.listed (ho : Opened h h' r size) (hI : Inv h regions chain live none)
    (hr : IsRegion r) (hapart : ∀ r' ∈ regions, Apart r r') :
    Listed h' (Tag (r :: regions) (Function.update chain r [r.1])) := by
  obtain ⟨lists, hl⟩ := hI.listed
  refine Listed.congr ⟨lists, hl⟩ ho.freePages (fun b hb _ => ?_) fun b hb hneg => ?_
  · rw [ho.other b (hI.ne_of_apart hr hapart hb)]
    exact ⟨(tag_opened (hr.not_mem hapart)).mpr (.inr hb), rfl, rfl, rfl⟩
  · by_cases hbr : b = r.1
    · rw [hbr, ho.first]
      exact ⟨rfl, rfl, rfl⟩
    · have hb := ((tag_opened (hr.not_mem hapart)).mp hb).resolve_left hbr
      rw [ho.other b hbr]
      refine hl.unlisted b hb ?_
      have := mt (And.intro hb) hneg
      omega

/-- A held block is not on a list, so the region is not counted. -/
theorem Opened.countP_eq (ho : Opened h h' r size) (hI : Inv h regions chain live none)
    (hr : IsRegion r) (hapart : ∀ r' ∈ regions, Apart r r') (hi : 0 ≤ i) :
    (r :: regions).countP (wholeFree h'.tags (Function.update chain r [r.1]) i) =
      regions.countP (wholeFree h.tags chain i) := by
  have hnew : wholeFree h'.tags (Function.update chain r [r.1]) i r = false := by
    rw [wholeFree, decide_eq_false_iff_not, ho.index]
    omega
  rw [List.countP_cons, hnew, if_neg Bool.false_ne_true, Nat.add_zero]
  refine List.countP_congr fun r' hr' => ?_
  have hne : r' ≠ r := by
    rintro rfl
    exact hr.not_mem hapart hr'
  rw [wholeFree, wholeFree, Function.update_of_ne hne, decide_eq_true_iff, decide_eq_true_iff]
  refine and_congr_right fun hone => ?_
  have hb : Tag regions chain r'.1 := ⟨r', hr', by rw [hone]; exact List.mem_singleton_self _⟩
  rw [ho.other r'.1 (hI.ne_of_apart hr hapart hb)]

/-- The heap gets a region, whose one block is held. -/
theorem Inv.add (size : ℕ) (hI : Inv h regions chain live none) (hinit : h.initialized = true)
    (hr : IsRegion r) (hapart : ∀ r' ∈ regions, Apart r r') :
    Inv (h.modify r.1 fun _ => firstTag size r.2) (r :: regions) (Function.update chain r [r.1])
      live (some r.1) := by
  have ho := opened_modify h r size
  generalize (h.modify r.1 fun _ => firstTag size r.2) = h' at ho ⊢
  have hother : ∀ b, Tag regions chain b → h'.tags b = h.tags b := fun b hb =>
    ho.other b (hI.ne_of_apart hr hapart hb)
  have htag : ∀ b, Tag (r :: regions) (Function.update chain r [r.1]) b ↔
      b = r.1 ∨ Tag regions chain b := fun b => tag_opened (hr.not_mem hapart)
  constructor
  case cut => exact ho.cut hI hr hapart
  case listed => exact ho.listed hI hr hapart
  case separate =>
    -- the new block is alone in its region
    intro b d hb hd
    rcases (htag b).mp hb with rfl | hb
    · rw [ho.first] at hd
      cases hd
    · rw [hother b hb] at hd ⊢
      obtain ⟨r', hr', hbr⟩ := hb
      rw [hother d (tag_of_mem hr' (hI.cut.mem_of_splitRight hr' hbr hd).1)]
      exact hI.separate b d ⟨r', hr', hbr⟩ hd
  case index_eq =>
    intro b hb hpos
    rcases (htag b).mp hb with rfl | hb
    · rw [ho.index] at hpos
      omega
    · rw [hother b hb] at hpos ⊢
      exact hI.index_eq b hb hpos
  case complete =>
    intro i hi
    rw [ho.completePages, ho.countP_eq hI hr hapart hi.1]
    exact hI.complete i hi
  case live_iff =>
    intro p n
    rw [hI.live_iff p n]
    simp only [ho.used_iff hI hr hapart]
    refine exists_congr fun b => and_congr_right fun hb => ?_
    rw [hother b hb.1]
  case fits =>
    intro b hb
    have hb' := (ho.used_iff hI hr hapart).mp hb
    rw [hother b hb'.1]
    exact hI.fits b hb'
  case started =>
    intro hfalse
    rw [ho.initialized, hinit] at hfalse
    cases hfalse

end

end Sakura.Libk.Liballoc
