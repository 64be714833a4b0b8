import Sakura.Libk.KmallocTheorems
import Sakura.Libk.Krealloc

/-!
# What the allocator writes to

The allocator goes from tag to tag along their pointers, and writes to no tag it does not come to.
So what a call changes is confined to a set of tags that is closed under the pointers (`Confined`),
which for `kfree` is the tags of the heap, and for `kmalloc` these and at most two more: the first
tag of a new region, and the one that `split_tag` makes inside a free block. None of them has a
byte in the block of a client.
-/

namespace Sakura.Libk.Liballoc

open DoublyLinked

variable {h h' h'' : Liballoc} {T : ℕ → Prop} {a b d n tag : ℕ}

/-- The pointers of a tag stay in `T`. -/
structure PointsInto (T : ℕ → Prop) (t : BoundaryTag) : Prop where
  next : ∀ d, t.next = some d → T d
  prev : ∀ d, t.prev = some d → T d
  splitLeft : ∀ d, t.splitLeft = some d → T d
  splitRight : ∀ d, t.splitRight = some d → T d

/-- The pointers of the tags of `T` stay in `T`, and the lists begin there. -/
structure Closed (T : ℕ → Prop) (h : Liballoc) : Prop where
  tags : ∀ b, T b → PointsInto T (h.tags b)
  first : ∀ i, 0 ≤ i ∧ i < maxExp → ∀ d, h.freePages i = some d → T d

/-- Only tags of `T` are changed, and it is closed afterwards. -/
structure Confined (T : ℕ → Prop) (h h' : Liballoc) : Prop where
  closed : Closed T h'
  same : ∀ b, ¬ T b → h'.tags b = h.tags b

theorem Closed.confined (hc : Closed T h) : Confined T h h := ⟨hc, fun _ _ => rfl⟩

theorem Confined.trans (h₁ : Confined T h h') (h₂ : Confined T h' h'') : Confined T h h'' :=
  ⟨h₂.closed, fun b hb => (h₂.same b hb).trans (h₁.same b hb)⟩

/-! ## Single writes -/

section

variable {f : BoundaryTag → BoundaryTag} {p : Option ℕ}

/-- A tag of `T` is written, and points into `T`. -/
theorem Closed.modify (hc : Closed T h) (ha : T a) (hf : PointsInto T (f (h.tags a))) :
    Confined T h (h.modify a f) := by
  constructor
  case closed =>
    refine ⟨fun b hb => ?_, hc.first⟩
    rw [tags_modify]
    split_ifs with hba
    · exact hba ▸ hf
    · exact hc.tags b hb
  case same =>
    intro b hb
    rw [tags_modify, if_neg]
    rintro rfl
    exact hb ha

theorem Closed.modify? (hc : Closed T h) (hp : ∀ a, p = some a → T a)
    (hf : ∀ a, p = some a → PointsInto T (f (h.tags a))) : Confined T h (h.modify? p f) := by
  cases p with
  | none => exact hc.confined
  | some a => exact hc.modify (hp a rfl) (hf a rfl)

/-- `l_freePages[i] = p`. -/
theorem Closed.setFirst (hc : Closed T h) (i : ℤ) (hp : ∀ d, p = some d → T d) :
    Confined T h { h with freePages := Function.update h.freePages i p } := by
  refine ⟨⟨hc.tags, fun j hj d hd => ?_⟩, fun _ _ => rfl⟩
  by_cases hji : j = i
  · rw [hji] at hd
    exact hp d ((Function.update_self i p h.freePages).symm.trans hd)
  · exact hc.first j hj d ((Function.update_of_ne hji p h.freePages).symm.trans hd)

/-- Only `l_completePages` changes. -/
theorem Closed.addComplete {i k : ℤ} (hc : Closed T h) (heq : h.addComplete i k = some h') :
    Confined T h h' := by
  rw [Liballoc.addComplete, Option.bind_eq_bind, Option.bind_eq_some_iff] at heq
  obtain ⟨complete, -, heq⟩ := heq
  obtain rfl := Option.some.inj heq
  exact ⟨⟨hc.tags, hc.first⟩, fun _ _ => rfl⟩

end

/-! ## The lists -/

/-- `remove_tag` writes to the tag and its neighbours in the list. -/
theorem Closed.removeTag (hc : Closed T h) (ha : T a) (heq : h.removeTag a = some h') :
    Confined T h h' := by
  rw [Liballoc.removeTag, Option.bind_eq_bind, Option.bind_eq_some_iff] at heq
  obtain ⟨first, -, heq⟩ := heq
  obtain rfl := Option.some.inj heq
  obtain ⟨h₁, hh₁, htags⟩ : ∃ h₁ : Liballoc, (if first = some a then
      { h with freePages := Function.update h.freePages (h.tags a).index (h.tags a).next }
    else h) = h₁ ∧ h₁.tags = h.tags := ⟨_, rfl, by split_ifs <;> rfl⟩
  have hconf₁ : Confined T h h₁ := by
    rw [← hh₁]
    split_ifs
    · exact hc.setFirst _ (hc.tags a ha).next
    · exact hc.confined
  simp only [hh₁]
  -- the neighbours of `a` get each other
  have hptr₁ := hconf₁.closed.tags a ha
  have hconf₂ := hconf₁.closed.modify? (f := fun t => { t with next := (h₁.tags a).next })
    hptr₁.prev fun b hb => { hconf₁.closed.tags b (hptr₁.prev b hb) with next := hptr₁.next }
  have hptr₂ := hconf₂.closed.tags a ha
  have hconf₃ := hconf₂.closed.modify? (f := fun t => { t with prev :=
      ((h₁.modify? (h₁.tags a).prev fun t => { t with next := (h₁.tags a).next }).tags a).prev })
    hptr₂.next fun b hb => { hconf₂.closed.tags b (hptr₂.next b hb) with prev := hptr₂.prev }
  refine ((hconf₁.trans hconf₂).trans hconf₃).trans (hconf₃.closed.modify ha ?_)
  exact { hconf₃.closed.tags a ha with next := by simp, prev := by simp }

/-- `insert_tag` writes to the tag and the head of the list. -/
theorem Closed.insertTag {i : ℤ} (hc : Closed T h) (ha : T a) (heq : h.insertTag a i = some h') :
    Confined T h h' := by
  rw [Liballoc.insertTag] at heq
  obtain ⟨k, hk⟩ : ∃ k, (if i < 0 then max (getexp (sub (h.tags a).realSize sizeofTag)) minExp
    else i) = k := ⟨_, rfl⟩
  simp only [hk, Option.bind_eq_bind, Option.bind_eq_some_iff] at heq
  obtain ⟨first, hfirst, heq⟩ := heq
  obtain rfl := Option.some.inj heq
  have hconf₁ : Confined T h (h.modify a fun t => { t with index := k }) :=
    hc.modify ha { hc.tags a ha with }
  have hin : ∀ d, first = some d → T d := by
    rw [element, Option.ite_none_right_eq_some, Option.some.injEq] at hfirst
    rw [← hfirst.2]
    exact hconf₁.closed.first k hfirst.1
  have hconf₂ := hconf₁.closed.modify? (f := fun t => { t with prev := some a }) hin fun b hb =>
    { hconf₁.closed.tags b (hin b hb) with prev := by rintro d ⟨⟩; exact ha }
  -- the old first of the list points back at `a`
  have hconf₂ := hconf₁.trans hconf₂
  have hconf₃ : Confined T h (if first.isSome then
        ((h.modify a fun t => { t with index := k }).modify? first fun t =>
          { t with prev := some a }).modify a fun t => { t with next := first }
      else (h.modify a fun t => { t with index := k }).modify? first fun t =>
          { t with prev := some a }) := by
    split_ifs
    · exact hconf₂.trans (hconf₂.closed.modify ha { hconf₂.closed.tags a ha with next := hin })
    · exact hconf₂
  refine hconf₃.trans (hconf₃.closed.setFirst k ?_)
  rintro d ⟨⟩
  exact ha

/-! ## Blocks -/

/-- `b` is joined to `a`. -/
theorem Closed.join (hc : Closed T h) (ha : T a) (hb : T b) : Confined T h (h.join a b) := by
  have hconf₁ : Confined T h (h.modify a fun t =>
      { t with realSize := (t.realSize + (h.tags b).realSize) % 2 ^ 32 }) :=
    hc.modify ha { hc.tags a ha with }
  have hptr₁ := hconf₁.closed.tags b hb
  have hconf₂ := hconf₁.trans (hconf₁.closed.modify ha (f := fun t => { t with splitRight :=
    ((h.modify a fun t => { t with realSize := (t.realSize + (h.tags b).realSize) % 2 ^ 32 }).tags
      b).splitRight }) { hconf₁.closed.tags a ha with splitRight := hptr₁.splitRight })
  have hptr₂ := hconf₂.closed.tags b hb
  refine hconf₂.trans (hconf₂.closed.modify? hptr₂.splitRight fun d hd => ?_)
  refine { hconf₂.closed.tags d (hptr₂.splitRight d hd) with splitLeft := ?_ }
  rintro e ⟨⟩
  exact ha

/-- `melt_left` writes to the tag and its left neighbour. -/
theorem Closed.meltLeft (hc : Closed T h) (ha : T a) (heq : h.meltLeft a = some (b, h')) :
    Confined T h h' ∧ T b := by
  cases hleft : (h.tags a).splitLeft with
  | none =>
    rw [Liballoc.meltLeft, hleft] at heq
    cases heq
  | some left =>
    rw [meltLeft_eq hleft] at heq
    obtain ⟨rfl, rfl⟩ := Prod.mk.inj (Option.some.inj heq)
    have hb := (hc.tags a ha).splitLeft _ hleft
    exact ⟨hc.join hb ha, hb⟩

/-- `absorb_right` writes to the tag and its right neighbours. -/
theorem Closed.absorbRight (hc : Closed T h) (ha : T a) (heq : h.absorbRight a = some (b, h')) :
    Confined T h h' ∧ T b := by
  cases hright : (h.tags a).splitRight with
  | none =>
    rw [Liballoc.absorbRight, hright] at heq
    cases heq
  | some right =>
    rw [absorbRight_eq hright, Option.map_eq_some_iff] at heq
    obtain ⟨h₁, hremove, heq⟩ := heq
    obtain ⟨rfl, rfl⟩ := Prod.mk.inj heq
    have hb := (hc.tags a ha).splitRight _ hright
    have hconf := hc.removeTag hb hremove
    exact ⟨hconf.trans (hconf.closed.join ha hb), ha⟩

theorem Closed.meltLefts : ∀ (fuel : ℕ) {h : Liballoc} {a : ℕ}, Closed T h → T a →
    h.meltLefts fuel a = some (b, h') → Confined T h h' ∧ T b
  | 0, _, _, _, _, heq => by cases heq
  | fuel + 1, h, a, hc, ha, heq => by
    rw [Liballoc.meltLefts] at heq
    split at heq
    · simp only [Option.bind_eq_bind, Option.bind_eq_some_iff, Prod.exists] at heq
      obtain ⟨left, h₁, hmelt, h₂, hremove, hrest⟩ := heq
      obtain ⟨hconf₁, hleft⟩ := hc.meltLeft ha hmelt
      have hconf₂ := hconf₁.closed.removeTag hleft hremove
      obtain ⟨hconf, hb⟩ := Closed.meltLefts fuel hconf₂.closed hleft hrest
      exact ⟨(hconf₁.trans hconf₂).trans hconf, hb⟩
    · obtain ⟨rfl, rfl⟩ := Prod.mk.inj (Option.some.inj heq)
      exact ⟨hc.confined, ha⟩

theorem Closed.absorbRights : ∀ (fuel : ℕ) {h : Liballoc} {a : ℕ}, Closed T h → T a →
    h.absorbRights fuel a = some (b, h') → Confined T h h' ∧ T b
  | 0, _, _, _, _, heq => by cases heq
  | fuel + 1, h, a, hc, ha, heq => by
    rw [Liballoc.absorbRights] at heq
    split at heq
    · simp only [Option.bind_eq_bind, Option.bind_eq_some_iff, Prod.exists] at heq
      obtain ⟨tag, h₁, habsorb, hrest⟩ := heq
      obtain ⟨hconf₁, htag⟩ := hc.absorbRight ha habsorb
      obtain ⟨hconf, hb⟩ := Closed.absorbRights fuel hconf₁.closed htag hrest
      exact ⟨hconf₁.trans hconf, hb⟩
    · obtain ⟨rfl, rfl⟩ := Prod.mk.inj (Option.some.inj heq)
      exact ⟨hc.confined, ha⟩

/-- So does all that `kfree` does. -/
theorem Closed.giveBack {i : ℤ} {call : Option (ℕ × ℕ)} (hc : Closed T h) (ha : T a)
    (heq : h.giveBack a i = some (call, h')) : Confined T h h' := by
  rw [Liballoc.giveBack] at heq
  split at heq
  · simp only [Option.bind_eq_bind, Option.bind_eq_some_iff] at heq
    obtain ⟨complete, -, heq⟩ := heq
    split at heq
    · obtain ⟨-, rfl⟩ := Prod.mk.inj (Option.some.inj heq)
      exact hc.confined
    · simp only [Option.bind_eq_some_iff] at heq
      obtain ⟨h₁, hcount, h₂, hinsert, heq⟩ := heq
      obtain ⟨-, rfl⟩ := Prod.mk.inj (Option.some.inj heq)
      have hconf := hc.addComplete hcount
      exact hconf.trans (hconf.closed.insertTag ha hinsert)
  · simp only [Option.bind_eq_bind, Option.bind_eq_some_iff] at heq
    obtain ⟨h₁, hinsert, heq⟩ := heq
    obtain ⟨-, rfl⟩ := Prod.mk.inj (Option.some.inj heq)
    exact hc.insertTag ha hinsert

/-- `kfree` stays where its tag is. -/
theorem Closed.kfree {p : ℕ} {call : Option (ℕ × ℕ)} (hc : Closed T h) (hp : T (sub p sizeofTag))
    (heq : h.kfree (some p) = some (call, h')) : Confined T h h' := by
  rw [Liballoc.kfree] at heq
  dsimp only at heq
  split at heq
  · obtain ⟨-, rfl⟩ := Prod.mk.inj (Option.some.inj heq)
    exact hc.confined
  · simp only [Option.bind_eq_bind, Option.bind_eq_some_iff, Prod.exists] at heq
    obtain ⟨left, h₁, hmelt, tag, h₂, habsorb, hgive⟩ := heq
    obtain ⟨hconf₁, hleft⟩ := hc.meltLefts rounds hp hmelt
    obtain ⟨hconf₂, htag⟩ := hconf₁.closed.absorbRights rounds hleft habsorb
    exact (hconf₁.trans hconf₂).trans (hconf₂.closed.giveBack htag hgive)

/-! ## New tags -/

section

variable {T' : ℕ → Prop}

theorem PointsInto.mono {t : BoundaryTag} (ht : PointsInto T t) (hT : ∀ b, T b → T' b) :
    PointsInto T' t :=
  ⟨fun d hd => hT d (ht.next d hd), fun d hd => hT d (ht.prev d hd),
    fun d hd => hT d (ht.splitLeft d hd), fun d hd => hT d (ht.splitRight d hd)⟩

theorem Confined.trans_mono (h₁ : Confined T h h') (h₂ : Confined T' h' h'')
    (hT : ∀ b, T b → T' b) : Confined T' h h'' :=
  ⟨h₂.closed, fun b hb => (h₂.same b hb).trans (h₁.same b (mt (hT b) hb))⟩

/-- One more tag, whose pointers are set. -/
theorem Closed.insert (hc : Closed T h) {f : BoundaryTag → BoundaryTag}
    (hf : PointsInto (fun b => T b ∨ b = n) (f (h.tags n))) :
    Confined (fun b => T b ∨ b = n) h (h.modify n f) := by
  constructor
  case closed =>
    refine ⟨fun b hb => ?_, fun i hi d hd => .inl (hc.first i hi d hd)⟩
    rw [tags_modify]
    split_ifs with hbn
    · exact hbn ▸ hf
    · exact (hc.tags b (hb.resolve_right hbn)).mono fun _ => .inl
  case same =>
    intro b hb
    rw [tags_modify, if_neg fun hbn => hb (.inr hbn)]

end

theorem modify_modify (f g : BoundaryTag → BoundaryTag) :
    (h.modify n f).modify n g = h.modify n fun t => g (f t) := by
  unfold modify
  congr 1
  ext b
  dsimp only
  split_ifs <;> rfl

/-- `split_tag` writes to the new tag as well. -/
theorem Closed.splitTag (hc : Closed T h) (ha : T a) (heq : h.splitTag a = some h')
    (hn : n = (a + sizeofTag + (h.tags a).size) % 2 ^ 32) :
    Confined (fun b => T b ∨ b = n) h h' := by
  unfold Liballoc.splitTag at heq
  simp only [← hn] at heq
  obtain ⟨f, hf⟩ : ∃ f : BoundaryTag → BoundaryTag, f = fun t => { t with
      magic := liballocMagic
      realSize := sub (sub (h.tags a).realSize sizeofTag) (h.tags a).size
      next := none
      prev := none
      splitLeft := some a } := ⟨_, rfl⟩
  obtain ⟨h₁, hh₁⟩ : ∃ h₁, h₁ = (h.modify n f).modify n fun t =>
      { t with splitRight := ((h.modify n f).tags a).splitRight } := ⟨_, rfl⟩
  rw [← hf, ← hh₁] at heq
  have hright : ∀ d, ((h.modify n f).tags a).splitRight = some d → T d := by
    intro d hd
    refine (hc.tags a ha).splitRight d ?_
    rw [tags_modify] at hd
    split_ifs at hd
    · rwa [hf] at hd
    · exact hd
  -- the new tag, before its neighbours know of it
  have hconf₁ : Confined (fun b => T b ∨ b = n) h h₁ := by
    rw [hh₁, modify_modify]
    refine hc.insert { next := ?_, prev := ?_, splitLeft := ?_, splitRight := fun d hd => ?_ }
    · simp [hf]
    · simp [hf]
    · simp [hf, ha]
    · exact .inl (hright d hd)
  have hptr₁ := hconf₁.closed.tags n (.inr rfl)
  have hconf₂ := hconf₁.trans (hconf₁.closed.modify? (f := fun t => { t with splitLeft := some n })
    hptr₁.splitRight fun d hd =>
      { hconf₁.closed.tags d (hptr₁.splitRight d hd) with
        splitLeft := by rintro e ⟨⟩; exact .inr rfl })
  have hconf₃ := hconf₂.trans (hconf₂.closed.modify (.inl ha)
    (f := fun t => { t with splitRight := some n })
    { hconf₂.closed.tags a (.inl ha) with splitRight := by rintro e ⟨⟩; exact .inr rfl })
  have hconf₄ := hconf₃.trans (hconf₃.closed.modify (.inl ha)
    (f := fun t => { t with realSize := sub t.realSize (((((h₁.modify? (h₁.tags n).splitRight fun t =>
      { t with splitLeft := some n }).modify a fun t => { t with splitRight := some n }).tags
        n).realSize)) })
    { hconf₃.closed.tags a (.inl ha) with })
  exact hconf₄.trans (hconf₄.closed.insertTag (.inr rfl) heq)

/-! ## `kmalloc` -/

/-- The end of `kmalloc`. A tag that is made lies behind the block, where there is room for it. -/
theorem Closed.use {size ptr : ℕ} (hc : Closed T h) (ha : T a) (heq : h.use a size = some (ptr, h'))
    (hfit : sizeofTag + size ≤ (h.tags a).realSize) (hpos : 0 < a)
    (hlt : a + (h.tags a).realSize ≤ 2 ^ 32) :
    ptr = (a + sizeofTag) % 2 ^ 32 ∧ (Confined T h h' ∨
      a + sizeofTag + size + sizeofTag ≤ a + (h.tags a).realSize ∧
      Confined (fun b => T b ∨ b = a + sizeofTag + size) h h') := by
  rw [Liballoc.use] at heq
  have hconf₁ : Confined T h (h.modify a fun t => { t with size }) :=
    hc.modify ha { hc.tags a ha with }
  obtain ⟨h₁, hh₁⟩ : ∃ h₁, h₁ = h.modify a fun t => { t with size } := ⟨_, rfl⟩
  have hfields : (h₁.tags a).realSize = (h.tags a).realSize ∧ (h₁.tags a).size = size := by
    rw [hh₁, tags_modify, if_pos rfl]
    exact ⟨rfl, rfl⟩
  simp only [← hh₁, hfields.1] at heq hconf₁
  split at heq
  · next hcond =>
    rw [Option.bind_eq_bind, Option.bind_eq_some_iff] at heq
    obtain ⟨h₂, hsplit, heq⟩ := heq
    obtain ⟨rfl, rfl⟩ := Prod.mk.inj (Option.some.inj heq)
    obtain ⟨hmore, hsmall, -⟩ := hcond
    -- a difference below zero would be taken for one of `2 ^ 31` or more
    have hroom : sizeofTag + size + sizeofTag ≤ (h.tags a).realSize := by
      rw [sub_eq (x := (h.tags a).realSize) (by omega) (by omega), sub, sizeofTag] at hsmall hmore
      rw [sizeofTag] at hfit ⊢
      omega
    have hn : a + sizeofTag + size = (a + sizeofTag + (h₁.tags a).size) % 2 ^ 32 := by
      rw [sizeofTag] at hroom
      rw [hfields.2, sizeofTag, Nat.mod_eq_of_lt (by omega)]
    exact ⟨rfl, .inr ⟨by omega,
      hconf₁.trans_mono (hconf₁.closed.splitTag ha hsplit hn) fun _ => .inl⟩⟩
  · obtain ⟨rfl, rfl⟩ := Prod.mk.inj (Option.some.inj heq)
    exact ⟨rfl, .inl hconf₁⟩

/-! ## The blocks of the clients -/

section

variable {regions : List (ℕ × ℕ)} {chain : ℕ × ℕ → List ℕ} {live : ℕ → Option ℕ}
  {held : Option ℕ} {alloc : ℕ → Option ℕ} {p q m x size : ℕ} {ptr : Option ℕ}
  {got call : Option (ℕ × ℕ)}

/-- The tags of the heap are closed. -/
theorem Inv.closed (hI : Inv h regions chain live held) : Closed (Tag regions chain) h := by
  obtain ⟨lists, hl⟩ := hI.listed
  constructor
  case tags =>
    intro b hb
    obtain ⟨r, hr, hbr⟩ := hb
    have hnear : (h.tags b).index < 0 ∨ b ∈ lists (h.tags b).index := by
      by_cases hfree : 0 ≤ (h.tags b).index
      · exact .inr ((hl.mem_iff _ b).mpr ⟨⟨r, hr, hbr⟩, hfree, rfl⟩)
      · exact .inl (not_le.mp hfree)
    constructor
    case splitLeft => exact fun d hd => ⟨r, hr, (hI.cut.mem_of_splitLeft hr hbr hd).1⟩
    case splitRight => exact fun d hd => ⟨r, hr, (hI.cut.mem_of_splitRight hr hbr hd).1⟩
    case next =>
      intro d hd
      rcases hnear with hneg | hmem
      · rw [(hl.unlisted b ⟨r, hr, hbr⟩ hneg).2.1] at hd
        cases hd
      · exact ((hl.mem_iff _ d).mp ((hl.mem_neighbours hmem).2 hd)).1
    case prev =>
      intro d hd
      rcases hnear with hneg | hmem
      · rw [(hl.unlisted b ⟨r, hr, hbr⟩ hneg).2.2] at hd
        cases hd
      · exact ((hl.mem_iff _ d).mp ((hl.mem_neighbours hmem).1 hd)).1
  case first =>
    intro i hi d hd
    rw [hl.first i hi] at hd
    exact ((hl.mem_iff i d).mp (List.mem_of_head? hd)).1

/-- A block lies behind its tag, and inside the space that this has. -/
theorem Inv.block (hI : Inv h regions chain live none) (hlive : live p = some n) :
    ∃ d, Tag regions chain d ∧ (h.tags d).index < 0 ∧ p = d + sizeofTag ∧
      p + n ≤ d + (h.tags d).realSize := by
  obtain ⟨d, hused, rfl, rfl⟩ := (hI.live_iff p n).mp hlive
  have hfits := (hI.fits d hused).1
  exact ⟨d, hused.1, hused.2.1, rfl, by omega⟩

/-- No tag has a byte in a block. -/
theorem Inv.tag_apart (hI : Inv h regions chain live none) (hb : Tag regions chain b)
    (hlive : live p = some n) : b + sizeofTag ≤ p ∨ p + n ≤ b := by
  obtain ⟨d, hd, -, rfl, hend⟩ := hI.block hlive
  have hsize := (hI.size_lt hb).1
  by_cases hbd : b = d
  · exact .inl (Nat.le_of_eq (congrArg (· + sizeofTag) hbd))
  · rcases hI.cut.disjoint hb hd hbd with h | h <;> omega

/-- A block is in a region of the heap, and apart from every other. -/
theorem Inv.region_apart {r : ℕ × ℕ} (hI : Inv h regions chain live none)
    (hapart : ∀ r' ∈ regions, Apart r r') (hlive : live p = some n) :
    regionEnd r + sizeofTag ≤ p ∨ p + n ≤ r.1 := by
  obtain ⟨d, ⟨r', hr', hd⟩, -, rfl, hend⟩ := hI.block hlive
  have hin := (hI.cut.cut r' hr').within hd
  rcases hapart r' hr' with h | h <;> omega

/-- What changes when a free block is used. -/
theorem Inv.fromList_apart {i : ℤ} (hI : Inv h regions chain live none)
    (htag : Tag regions chain tag) (hindex : (h.tags tag).index = i)
    (hfree : 0 ≤ (h.tags tag).index)
    (hfit : sizeofTag + size + sizeofTag ≤ (h.tags tag).realSize)
    (heq : h.fromList i tag size = some (ptr, got, h')) :
    ptr = some (tag + sizeofTag) ∧ got = none ∧ ∀ b, h'.tags b ≠ h.tags b →
      ∀ p n, live p = some n → b + sizeofTag ≤ p ∨ p + n ≤ b := by
  obtain ⟨h₁, h₂, hremove, hcount, hI₂, -, -, hreal⟩ := hI.take htag hfree
  obtain ⟨hpos, hend, -⟩ := hI.cut.tag_lt htag
  have hconf : Confined (Tag regions chain) h h₂ := by
    have hconf₁ := hI.closed.removeTag htag hremove
    split at hcount
    · exact hconf₁.trans (hconf₁.closed.addComplete hcount)
    · exact Option.some.inj hcount ▸ hconf₁
  obtain ⟨p', huse, rfl, rfl⟩ : ∃ p', h₂.use tag size = some (p', h') ∧ ptr = some p' ∧
      got = none := by
    rw [hindex] at hcount
    rw [Liballoc.fromList, hremove, Option.bind_eq_bind, Option.bind_some] at heq
    by_cases hwhole : h₁.whole tag = true
    · rw [if_pos hwhole] at hcount heq
      rw [hcount, Option.bind_eq_bind, Option.bind_some] at heq
      obtain ⟨⟨p', h''⟩, huse, heq⟩ := Option.bind_eq_some_iff.mp heq
      cases heq
      exact ⟨p', huse, rfl, rfl⟩
    · rw [if_neg hwhole] at hcount heq
      rw [Option.some.inj hcount, Option.bind_eq_bind, Option.bind_some] at heq
      obtain ⟨⟨p', h''⟩, huse, heq⟩ := Option.bind_eq_some_iff.mp heq
      cases heq
      exact ⟨p', huse, rfl, rfl⟩
  rw [← hreal] at hend hfit
  obtain ⟨hptr, hchange⟩ := hconf.closed.use htag huse (by omega) hpos hend
  refine ⟨?_, rfl, fun b hb p n hlive => ?_⟩
  · rw [sizeofTag] at hfit
    rw [hptr, sizeofTag, Nat.mod_eq_of_lt (by omega)]
  rcases hchange with hchange | ⟨hroom, hchange⟩
  · exact hI.tag_apart (by_contra fun hnot => hb ((hconf.trans hchange).same b hnot)) hlive
  · have hb' := by_contra fun hnot => hb ((hconf.trans_mono hchange fun _ => .inl).same b hnot)
    rcases hb' with hb' | rfl
    · exact hI.tag_apart hb' hlive
    · -- the new tag is in the free block, which is not the client's
      obtain ⟨d, hd, hneg, rfl, hblock⟩ := hI.block hlive
      have hne : tag ≠ d := by
        rintro rfl
        omega
      rw [hreal] at hroom
      rcases hI.cut.disjoint htag hd hne with h | h <;> omega

/-- What changes when there is a new region. -/
theorem Inv.fromRegion_apart (hI : Inv h regions chain live none) (hsize : size < 2 ^ 31)
    (halloc : Fresh regions alloc) (heq : h.fromRegion alloc size = some (ptr, got, h')) :
    (ptr = none ∧ got = none ∧ h' = h) ∨ ∃ base, got = some (base, pagesFor size) ∧
      alloc (pagesFor size) = some base ∧ ptr = some (base + sizeofTag) ∧
      ∀ b, h'.tags b ≠ h.tags b → Tag regions chain b ∨
        base ≤ b ∧ b + sizeofTag ≤ regionEnd (base, pagesFor size) := by
  rw [Liballoc.fromRegion, allocateNewTag] at heq
  cases hbase : alloc (pagesFor size) with
  | none =>
    rw [hbase] at heq
    cases heq
    exact .inl ⟨rfl, rfl, rfl⟩
  | some base =>
    obtain ⟨hpos, -, hend, hapart⟩ := halloc _ _ hbase
    obtain ⟨hpages, hroom⟩ := pagesFor_spec hsize
    rw [hbase] at heq
    obtain ⟨⟨p', h''⟩, huse, heq⟩ := Option.bind_eq_some_iff.mp heq
    cases heq
    obtain ⟨h₁, hh₁⟩ : ∃ h₁, h₁ = h.modify base fun _ => firstTag size (pagesFor size) := ⟨_, rfl⟩
    rw [← hh₁] at huse
    have hconf : Confined (fun b => Tag regions chain b ∨ b = base) h h₁ := by
      rw [hh₁]
      refine hI.closed.insert ⟨?_, ?_, ?_, ?_⟩ <;> simp [firstTag]
    simp only [regionEnd] at hend ⊢
    have hreal : (h₁.tags base).realSize = pagesFor size * pageSize := by
      rw [hh₁, tags_modify, if_pos rfl]
      exact Nat.mod_eq_of_lt (by omega)
    obtain ⟨hptr, hchange⟩ := hconf.closed.use (.inr rfl) huse (by rw [hreal]; exact hroom) hpos
      (by rw [hreal]; exact hend)
    rw [pageCount] at hpages
    rw [hreal] at hchange
    rw [sizeofTag, pageSize] at *
    have hfirst : base + 32 ≤ base + pagesFor size * 4096 := by omega
    refine .inr ⟨base, rfl, rfl, ?_, fun b hb => ?_⟩
    · rw [hptr, Nat.mod_eq_of_lt (by omega)]
    rcases hchange with hchange | ⟨hroom, hchange⟩
    · rcases by_contra fun hnot => hb ((hconf.trans hchange).same b hnot) with hb' | rfl
      · exact .inl hb'
      · exact .inr ⟨Nat.le_refl _, hfirst⟩
    · rcases by_contra fun hnot => hb ((hconf.trans_mono hchange fun _ => .inl).same b hnot) with
        (hb' | rfl) | rfl
      · exact .inl hb'
      · exact .inr ⟨Nat.le_refl _, hfirst⟩
      · exact .inr ⟨by omega, hroom⟩

/-- Neither a block, nor an address where one may be handed out. -/
theorem Inv.kmalloc_apart (hI : Inv h regions chain live none) (hsize : size < 2 ^ 31)
    (halloc : Fresh regions alloc) (heq : h.kmalloc alloc size = some (ptr, got, h')) :
    (∀ q, ptr = some q → live q = none) ∧
      ∀ p n x, live p = some n → p ≤ x → x < p + n → ¬ Touched h h' got x := by
  obtain ⟨hI₀, -⟩ := hI.initOnce
  have htags : h.initOnce.tags = h.tags := by
    rw [Liballoc.initOnce]
    split_ifs <;> rfl
  obtain ⟨found, hwalk, hfound⟩ := hI₀.search hsize
  have hrange : 0 ≤ indexOf size ∧ indexOf size < maxExp := indexOf_range (by omega)
  rw [Liballoc.kmalloc, max_getexp (by omega), element_eq hrange, Option.bind_eq_bind,
    Option.bind_some, hwalk] at heq
  unfold Touched
  simp only [← htags]
  cases found with
  | some tag =>
    obtain ⟨htag, hindex, hfree, hfit⟩ := hfound tag rfl
    obtain ⟨rfl, rfl, hchange⟩ := hI₀.fromList_apart htag hindex hfree hfit heq
    refine ⟨?_, ?_⟩
    · rintro q ⟨⟩
      cases hlive : live (tag + sizeofTag) with
      | none => rfl
      | some n =>
        obtain ⟨d, -, hneg, hd, -⟩ := hI₀.block hlive
        rw [← Nat.add_right_cancel hd] at hneg
        omega
    · rintro p n x hlive hle hlt (⟨b, hbx, hb⟩ | ⟨r, hr, -⟩)
      · have := hchange b hb p n hlive
        unfold InTag at hbx
        omega
      · cases hr
  | none =>
    rcases hI₀.fromRegion_apart hsize halloc heq with ⟨rfl, rfl, rfl⟩ | ⟨base, rfl, hbase, rfl, hchange⟩
    · refine ⟨fun q hq => absurd hq.symm (Option.some_ne_none q), ?_⟩
      rintro p n x - - - (⟨b, -, hb⟩ | ⟨r, hr, -⟩)
      · exact hb rfl
      · cases hr
    · obtain ⟨hpos, -, hend, hapart⟩ := halloc _ _ hbase
      have hregion : IsRegion (base, pagesFor size) := ⟨hpos, (pagesFor_spec hsize).1, hend⟩
      have hlt := hregion.lt
      refine ⟨?_, ?_⟩
      · rintro q ⟨⟩
        cases hlive : live (base + sizeofTag) with
        | none => rfl
        | some n =>
          have := hI₀.region_apart hapart hlive
          rw [sizeofTag] at this
          dsimp only at hlt this
          omega
      · rintro p n x hlive hle hlt (⟨b, ⟨hbx, hxb⟩, hb⟩ | ⟨r, hr, hrx, hxr⟩)
        · have := hI₀.region_apart hapart hlive
          rcases hchange b hb with hb | ⟨hlo, hhi⟩
          · have := hI₀.tag_apart hb hlive
            omega
          · dsimp only at this
            omega
        · cases hr
          have := hI₀.region_apart hapart hlive
          rw [regionEnd] at this
          omega

/-- A block that is not freed. -/
theorem Inv.kfree_apart (hI : Inv h regions chain live none) (hp : live p = some n)
    (heq : h.kfree (some p) = some (call, h')) (hq : live q = some m) (hne : q ≠ p) (hle : q ≤ x)
    (hlt : x < q + m) : ¬ Touched h h' call x := by
  obtain ⟨a, hused, rfl, -⟩ := (hI.live_iff p n).mp hp
  have haddress : sub (a + sizeofTag) sizeofTag = a := by
    rw [sub_eq (Nat.le_add_left ..) (hI.fits a hused).2, Nat.add_sub_cancel]
  have hconf := hI.closed.kfree (p := a + sizeofTag) (by rw [haddress]; exact hused.1) heq
  rintro (⟨b, ⟨hbx, hxb⟩, hb⟩ | ⟨r, hr, hrx, hxr⟩)
  · have := hI.tag_apart (by_contra fun hnot => hb (hconf.same b hnot)) hq
    omega
  · -- the region is no longer one of the heap, and the block still is in one
    obtain ⟨call', h'', chain', heq', hI', hmem⟩ := hI.kfree hp
    obtain ⟨rfl, rfl⟩ := Prod.mk.inj (Option.some.inj (heq'.symm.trans heq))
    obtain rfl : call' = some r := hr
    have hr := hmem r rfl
    have hq' : Function.update live (a + sizeofTag) none q = some m :=
      (Function.update_of_ne hne none live).trans hq
    have := hI'.region_apart (r := r) (fun r' hr' => ?_) hq'
    · rw [regionEnd] at this
      omega
    · obtain ⟨hne', hr'⟩ := hI.cut.nodup.mem_erase_iff.mp hr'
      exact hI.cut.apart_of_ne hr hr' (Ne.symm hne')

end

end Sakura.Libk.Liballoc
