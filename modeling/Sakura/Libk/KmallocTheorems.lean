import Mathlib.Algebra.Order.BigOperators.Group.Finset
import Sakura.Libk.KmallocStepTheorems
import Sakura.Lib.Run

/-!
# `kmalloc` and `kfree` keep the heap intact

Both return from every state that satisfies the invariant, and keep it; so it holds after every
sequence of calls (`heap_intact`).
-/

namespace Sakura.Libk.Liballoc

open DoublyLinked Tiling

variable {h h' : Liballoc} {regions : List (ℕ × ℕ)} {chain : ℕ × ℕ → List ℕ}
  {live : ℕ → Option ℕ} {a size : ℕ} {alloc : ℕ → Option ℕ}

/-! ## `kmalloc` -/

/-- The end of `kmalloc`: the held block, or as much of it as is needed, goes to the client. -/
theorem Inv.use (size : ℕ) (hI : Inv h regions chain live (some a)) (ha : Tag regions chain a)
    (hneg : (h.tags a).index < 0) (hiso : Isolated h a)
    (hfit : sizeofTag + size ≤ (h.tags a).realSize) (hptr : a + sizeofTag < 2 ^ 32) :
    ∃ h' chain', h.use a size = some (a + sizeofTag, h') ∧
      Inv h' regions chain' (Function.update live (a + sizeofTag) (some size)) none := by
  obtain ⟨r, hr, har, -⟩ := hI.exists_region ha
  obtain ⟨-, hlt⟩ := hI.size_lt ha
  have hI₁ := hI.resize size ha
  obtain ⟨h₁, hh₁⟩ : ∃ h₁, h₁ = h.modify a fun t => { t with size } := ⟨_, rfl⟩
  rw [← hh₁] at hI₁
  have hfields : (h₁.tags a).realSize = (h.tags a).realSize ∧ (h₁.tags a).size = size ∧
      (h₁.tags a).index = (h.tags a).index := by
    rw [hh₁, tags_modify, if_pos rfl]
    exact ⟨rfl, rfl, rfl⟩
  have hiso₁ : Isolated h₁ a := by
    have hindex : ∀ b, (h₁.tags b).index = (h.tags b).index := fun b => by
      rw [hh₁, tags_modify]
      split_ifs <;> rfl
    have hsplit : (h₁.tags a).splitLeft = (h.tags a).splitLeft ∧
        (h₁.tags a).splitRight = (h.tags a).splitRight := by
      rw [hh₁, tags_modify, if_pos rfl]
      exact ⟨rfl, rfl⟩
    unfold Isolated
    rw [hsplit.1, hsplit.2]
    simp only [hindex]
    exact hiso
  have hmod : (a + sizeofTag) % 2 ^ 32 = a + sizeofTag := Nat.mod_eq_of_lt hptr
  rw [Liballoc.use]
  simp only [← hh₁, hmod]
  split
  case isTrue hcond =>
    obtain ⟨hpos, hsmall, -⟩ := hcond
    -- a difference below zero would be taken for one of `2 ^ 31` or more
    have hroom : sizeofTag + size + sizeofTag ≤ (h₁.tags a).realSize := by
      rw [sub_eq (x := (h₁.tags a).realSize) (by omega) (by omega), sub, sizeofTag] at hsmall hpos
      rw [sizeofTag] at hfit ⊢
      omega
    obtain ⟨h', c', hsplit, hI', ha', hneg', hreal', hsize'⟩ :=
      hI₁.split hr har (hfields.2.2 ▸ hneg) hiso₁ hfields.2.1 hroom
    refine ⟨h', Function.update chain r c', by rw [hsplit]; rfl, ?_⟩
    have hgive := hI'.give ⟨r, hr, by rwa [Function.update_self]⟩ hneg' (by omega) hptr
    rwa [hsize'] at hgive
  case isFalse =>
    refine ⟨h₁, chain, rfl, ?_⟩
    have hgive := hI₁.give ha (hfields.2.2 ▸ hneg) (by omega) hptr
    rwa [hfields.2.1] at hgive

/-- The pages that are asked for hold the tag and the block. -/
theorem pagesFor_spec (hsize : size < 2 ^ 31) :
    pageCount ≤ pagesFor size ∧ sizeofTag + size ≤ pagesFor size * pageSize := by
  obtain ⟨q, hq⟩ : ∃ q, q = if (size + 32) % 4096 ≠ 0 then (size + 32) / 4096 + 1
      else (size + 32) / 4096 := ⟨_, rfl⟩
  have hroom : size + 32 ≤ q * 4096 := by
    rw [hq]
    split_ifs <;> omega
  have hpages : pagesFor size = if q < 16 then 16 else q := by
    have hmod : (size + sizeofTag) % 2 ^ 32 = size + 32 := by
      rw [sizeofTag]
      omega
    rw [hq, pagesFor, hmod]
    rfl
  rw [hpages, pageCount, sizeofTag, pageSize]
  split_ifs <;> omega

/-- What the search finds is a free block with room enough. -/
theorem Inv.search (hI : Inv h regions chain live none) (hsize : size < 2 ^ 31) :
    ∃ found, DoublyLinked.walk (fun tag => (h.tags tag).next) (h.enough size) rounds
        (h.freePages (indexOf size)) = some found ∧
      ∀ tag, found = some tag → Tag regions chain tag ∧ (h.tags tag).index = indexOf size ∧
        0 ≤ (h.tags tag).index ∧ sizeofTag + size + sizeofTag ≤ (h.tags tag).realSize := by
  obtain ⟨lists, hl⟩ := hI.listed
  have hrange : 0 ≤ indexOf size ∧ indexOf size < maxExp := indexOf_range (by omega)
  have hlength : (lists (indexOf size)).length < rounds :=
    length_lt_rounds (hl.nodup _) fun b hb => hI.address_lt ((hl.mem_iff _ b).mp hb).1
  refine ⟨_, by rw [hl.first _ hrange]; exact walk_eq_find? (hl.linked _) hlength, ?_⟩
  intro tag htag
  obtain ⟨hmem, hpos, hindex⟩ := (hl.mem_iff _ tag).mp (List.mem_of_find?_eq_some htag)
  have henough := List.find?_some htag
  obtain ⟨hle, hlt⟩ := hI.size_lt hmem
  rw [enough, decide_eq_true_iff, sub_eq hle hlt, sizeofTag] at henough
  rw [sizeofTag] at hle ⊢
  exact ⟨hmem, hindex, hindex ▸ hpos, by omega⟩

/-- What `liballoc_alloc` promises: a region of pages, apart from those it has given. -/
def Fresh (regions : List (ℕ × ℕ)) (alloc : ℕ → Option ℕ) : Prop :=
  ∀ pages base, alloc pages = some base →
    0 < base ∧ base % pageSize = 0 ∧ regionEnd (base, pages) ≤ 2 ^ 32 ∧
      ∀ r ∈ regions, Apart (base, pages) r

/-- The blocks of the clients after `kmalloc`. -/
def handOut (live : ℕ → Option ℕ) (size : ℕ) : Option ℕ → ℕ → Option ℕ
  | none => live
  | some ptr => Function.update live ptr (some size)

/-- `kmalloc` takes a block that is on a list. -/
theorem Inv.fromList {tag : ℕ} {i : ℤ} (hI : Inv h regions chain live none)
    (htag : Tag regions chain tag) (hindex : (h.tags tag).index = i)
    (hfree : 0 ≤ (h.tags tag).index)
    (hfit : sizeofTag + size + sizeofTag ≤ (h.tags tag).realSize) :
    ∃ ptr h' chain', h.fromList i tag size = some (some ptr, none, h') ∧
      Inv h' regions chain' (Function.update live ptr (some size)) none := by
  obtain ⟨h₁, h₂, hremove, hcount, hI₂, hiso, hneg, hreal⟩ := hI.take htag hfree
  have haddress := hI₂.cut.tag_lt htag
  rw [sizeofTag] at hfit
  obtain ⟨h', chain', huse, hI'⟩ := hI₂.use size htag hneg hiso
    (by rw [sizeofTag]; omega) (by rw [sizeofTag]; omega)
  refine ⟨tag + sizeofTag, h', chain', ?_, hI'⟩
  rw [hindex] at hcount
  rw [Liballoc.fromList, hremove, Option.bind_eq_bind, Option.bind_some]
  by_cases hwhole : h₁.whole tag = true
  · rw [if_pos hwhole] at hcount ⊢
    rw [hcount, Option.bind_eq_bind, Option.bind_some]
    beta_reduce
    rw [huse]
    rfl
  · rw [if_neg hwhole] at hcount ⊢
    rw [Option.some.inj hcount, Option.bind_eq_bind, Option.bind_some]
    beta_reduce
    rw [huse]
    rfl

/-- Or asks for a region. -/
theorem Inv.fromRegion (hI : Inv h regions chain live none) (hinit : h.initialized = true)
    (hsize : size < 2 ^ 31) (halloc : Fresh regions alloc) :
    ∃ ptr got h' chain', h.fromRegion alloc size = some (ptr, got, h') ∧
      Inv h' (got.toList ++ regions) chain' (handOut live size ptr) none ∧
      ∀ r, got = some r → alloc r.2 = some r.1 := by
  rw [Liballoc.fromRegion, allocateNewTag]
  cases hbase : alloc (pagesFor size) with
  | none => exact ⟨none, none, h, chain, rfl, hI, fun _ h => nomatch h⟩
  | some base =>
    obtain ⟨hpos, -, hend, hapart⟩ := halloc _ _ hbase
    obtain ⟨hpages, hroom⟩ := pagesFor_spec hsize
    have hregion : IsRegion (base, pagesFor size) := ⟨hpos, hpages, hend⟩
    have hI₁ := hI.add size hinit hregion hapart
    obtain ⟨h₁, hh₁⟩ : ∃ h₁, h₁ = h.modify base fun _ => firstTag size (pagesFor size) := ⟨_, rfl⟩
    simp only [← hh₁] at hI₁ ⊢
    have hfields : h₁.tags base = firstTag size (pagesFor size) := by
      rw [hh₁, tags_modify, if_pos rfl]
    have hreal : (h₁.tags base).realSize = pagesFor size * pageSize := by
      simp only [regionEnd] at hend
      rw [hfields]
      exact Nat.mod_eq_of_lt (by omega)
    have htag : Tag ((base, pagesFor size) :: regions)
        (Function.update chain (base, pagesFor size) [base]) base :=
      ⟨(base, pagesFor size), List.mem_cons_self, by simp⟩
    have hneg : (h₁.tags base).index < 0 := by
      rw [hfields]
      exact Int.negSucc_lt_zero 0
    have hiso : Isolated h₁ base := by
      rw [Isolated, hfields]
      constructor <;> rintro b ⟨⟩
    have hptr : base + sizeofTag < 2 ^ 32 := by
      have haddress := hI₁.cut.tag_lt htag
      rw [pageCount] at hpages
      rw [hreal, pageSize] at haddress
      rw [sizeofTag]
      omega
    obtain ⟨h', chain', huse, hI'⟩ := hI₁.use size htag hneg hiso
      (by rw [hreal]; exact hroom) hptr
    refine ⟨some (base + sizeofTag), some (base, pagesFor size), h', chain', ?_, hI', ?_⟩
    · rw [huse]
      rfl
    · rintro _ ⟨⟩
      exact hbase

/-- `kmalloc` returns, with a block for the client or none. -/
theorem Inv.kmalloc (hI : Inv h regions chain live none) (hsize : size < 2 ^ 31)
    (halloc : Fresh regions alloc) :
    ∃ ptr got h' chain', h.kmalloc alloc size = some (ptr, got, h') ∧
      Inv h' (got.toList ++ regions) chain' (handOut live size ptr) none ∧
      ∀ r, got = some r → alloc r.2 = some r.1 := by
  obtain ⟨hI₀, hinit⟩ := hI.initOnce
  obtain ⟨found, hwalk, hfound⟩ := hI₀.search hsize
  have hrange : 0 ≤ indexOf size ∧ indexOf size < maxExp := indexOf_range (by omega)
  rw [Liballoc.kmalloc, max_getexp (by omega), element_eq hrange, Option.bind_eq_bind,
    Option.bind_some, hwalk]
  cases found with
  | none => exact hI₀.fromRegion hinit hsize halloc
  | some tag =>
    obtain ⟨htag, hindex, hfree, hfit⟩ := hfound tag rfl
    obtain ⟨ptr, h', chain', hlist, hI'⟩ := hI₀.fromList htag hindex hfree hfit
    exact ⟨some ptr, none, h', chain', hlist, hI', fun _ h => nomatch h⟩

/-! ## `kfree` -/

/-- The regions after `kfree`, which may have called `liballoc_free`. -/
def handBack (regions : List (ℕ × ℕ)) : Option (ℕ × ℕ) → List (ℕ × ℕ)
  | none => regions
  | some r => regions.erase r

/-- The end of `kfree`: the block goes on a list, or its region back. -/
theorem Inv.giveBack (hI : Inv h regions chain live (some a)) (ha : Tag regions chain a)
    (hneg : (h.tags a).index < 0) (hiso : Isolated h a) :
    ∃ call h', h.giveBack a (indexOf ((h.tags a).realSize - sizeofTag)) = some (call, h') ∧
      Inv h' (handBack regions call) chain live none ∧ ∀ r, call = some r → r ∈ regions := by
  obtain ⟨r, hr, har, hcut⟩ := hI.exists_region ha
  have hrange := hI.index_put_range ha
  obtain ⟨k, hk⟩ : ∃ k, k = indexOf ((h.tags a).realSize - sizeofTag) := ⟨_, rfl⟩
  rw [← hk] at hrange ⊢
  rw [Liballoc.giveBack]
  by_cases hwhole : h.whole a = true
  · rw [if_pos hwhole, element_eq hrange, Option.bind_eq_bind, Option.bind_some]
    by_cases hfull : h.completePages k = maxComplete
    · rw [if_pos hfull]
      have hone : chain r = [a] := by
        have hone := (hcut.whole_iff har).mp hwhole
        rw [hone] at har ⊢
        rw [List.mem_singleton.mp har]
      obtain ⟨hregion, hI'⟩ := hI.release hr hone hneg
      rw [hregion]
      refine ⟨some r, h, rfl, hI', ?_⟩
      rintro _ ⟨⟩
      exact hr
    · rw [if_neg hfull]
      obtain ⟨h', hput, hI'⟩ := hI.put ha hneg hiso hk fun _ => hfull
      rw [if_pos hwhole, Option.bind_eq_some_iff] at hput
      obtain ⟨h₁, hcount, hinsert⟩ := hput
      rw [hcount, Option.bind_eq_bind, Option.bind_some, hinsert]
      exact ⟨none, h', rfl, hI', fun _ h => nomatch h⟩
  · rw [if_neg hwhole]
    obtain ⟨h', hput, hI'⟩ := hI.put ha hneg hiso hk fun h => absurd h hwhole
    rw [if_neg hwhole] at hput
    rw [hput]
    exact ⟨none, h', rfl, hI', fun _ h => nomatch h⟩

/-- `kfree` returns, and the block is the client's no more. -/
theorem Inv.kfree {p n : ℕ} (hI : Inv h regions chain live none) (hlive : live p = some n) :
    ∃ call h' chain', h.kfree (some p) = some (call, h') ∧
      Inv h' (handBack regions call) chain' (Function.update live p none) none ∧
      ∀ r, call = some r → r ∈ regions := by
  obtain ⟨a, hused, rfl, -⟩ := (hI.live_iff p n).mp hlive
  have ha := hused.1
  have hneg := hused.2.1
  obtain ⟨-, hlt⟩ := hI.fits a hused
  obtain ⟨r, hr, har, hcut⟩ := hI.exists_region ha
  have haddress : sub (a + sizeofTag) sizeofTag = a := by
    rw [sub_eq (Nat.le_add_left ..) hlt, Nat.add_sub_cancel]
  obtain ⟨t, h₁, c₁, hmelt, hI₁, ht₁, hneg₁, hleft⟩ :=
    Inv.meltLefts hr rounds (hI.hold hused) har hneg (hI.chain_length hr)
  have hlength := hI₁.chain_length hr
  obtain ⟨h₂, c₂, habsorb, hI₂, ht₂, hneg₂, hiso⟩ :=
    Inv.absorbRights hr rounds hI₁ (by rwa [Function.update_self]) hneg₁ hleft hlength
  rw [Function.update_idem] at hI₂
  have htag : Tag regions (Function.update chain r c₂) t := ⟨r, hr, by rwa [Function.update_self]⟩
  obtain ⟨call, h', hgive, hI', hcall⟩ := hI₂.giveBack htag hneg₂ hiso
  refine ⟨call, h', _, ?_, hI', hcall⟩
  rw [Liballoc.kfree, haddress, if_neg (not_not.mpr (hcut.magic a har)), hmelt,
    Option.bind_eq_bind, Option.bind_some]
  dsimp only
  rw [habsorb, Option.bind_some]
  dsimp only
  rw [hI₂.index_put htag, hgive]

/-! ## Sequences of calls -/

/-- The heap, the regions it has got and not given back, and the blocks of the clients, by
their addresses and with the sizes they asked for. -/
structure World where
  heap : Liballoc
  regions : List (ℕ × ℕ)
  live : ℕ → Option ℕ

/-- Before the first call: the statics are zero. -/
def boot (tags : ℕ → BoundaryTag) : World where
  heap := { tags, freePages := fun _ => none, completePages := fun _ => 0, initialized := false }
  regions := []
  live := fun _ => none

/-- A call, or a client that writes into its blocks: any tag may change but those that have no
byte in a block. -/
inductive Step : World → World → Prop
  | kmalloc {w : World} {size : ℕ} {alloc : ℕ → Option ℕ} {ptr : Option ℕ}
      {got : Option (ℕ × ℕ)} {h : Liballoc} (hsize : size < 2 ^ 31)
      (halloc : Fresh w.regions alloc) (hcall : w.heap.kmalloc alloc size = some (ptr, got, h)) :
      Step w ⟨h, got.toList ++ w.regions, handOut w.live size ptr⟩
  | kfree {w : World} {p n : ℕ} {call : Option (ℕ × ℕ)} {h : Liballoc}
      (hlive : w.live p = some n) (hcall : w.heap.kfree (some p) = some (call, h)) :
      Step w ⟨h, handBack w.regions call, Function.update w.live p none⟩
  | write {w : World} {tags : ℕ → BoundaryTag}
      (hkept : ∀ b, (∀ p n, w.live p = some n → b + sizeofTag ≤ p ∨ p + n ≤ b) →
        tags b = w.heap.tags b) :
      Step w { w with heap := { w.heap with tags } }

/-- Clients do not reach the tags. -/
theorem Inv.write (hI : Inv h regions chain live none)
    (hkept : ∀ b, (∀ p n, live p = some n → b + sizeofTag ≤ p ∨ p + n ≤ b) →
      h'.tags b = h.tags b)
    (hfree : h'.freePages = h.freePages) (hcomplete : h'.completePages = h.completePages)
    (hinit : h'.initialized = h.initialized) : Inv h' regions chain live none := by
  have hsame : ∀ b, Tag regions chain b → h'.tags b = h.tags b := by
    intro b hb
    refine hkept b fun p n hlive => ?_
    obtain ⟨d, hused, rfl, rfl⟩ := (hI.live_iff p n).mp hlive
    have hfits := (hI.fits d hused).1
    by_cases hbd : b = d
    · exact .inl (Nat.le_of_eq (congrArg (· + sizeofTag) hbd))
    · have hsize := (hI.size_lt hb).1
      rcases hI.cut.disjoint hb hused.1 hbd with h | h <;> omega
  have hused : ∀ b, Used h' regions chain none b ↔ Used h regions chain none b :=
    fun b => and_congr_right fun hb => by rw [hsame b hb]
  constructor
  case cut =>
    refine ⟨fun r hr => (hI.cut.cut r hr).congr fun b hb => ?_, hI.cut.apart, hI.cut.isRegion⟩
    unfold SameBlock
    rw [hsame b ⟨r, hr, hb⟩]
    exact ⟨rfl, rfl, rfl, rfl⟩
  case listed =>
    obtain ⟨lists, hl⟩ := hI.listed
    refine Listed.congr ⟨lists, hl⟩ hfree (fun b hb _ => ?_) fun b hb hneg => ?_
    · rw [hsame b hb]
      exact ⟨hb, rfl, rfl, rfl⟩
    · rw [hsame b hb]
      refine hl.unlisted b hb ?_
      have := mt (And.intro hb) hneg
      omega
  case separate =>
    rintro b d ⟨r, hr, hb⟩ hd
    rw [hsame b ⟨r, hr, hb⟩] at hd ⊢
    rw [hsame d ⟨r, hr, (hI.cut.mem_of_splitRight hr hb hd).1⟩]
    exact hI.separate b d ⟨r, hr, hb⟩ hd
  case index_eq =>
    intro b hb
    rw [hsame b hb]
    exact hI.index_eq b hb
  case complete =>
    intro i hi
    obtain ⟨hcount, hle⟩ := hI.complete i hi
    rw [hcomplete]
    refine ⟨hcount.trans (congrArg Nat.cast (List.countP_congr fun r hr => ?_)), hle⟩
    rw [wholeFree, wholeFree, decide_eq_true_iff, decide_eq_true_iff]
    refine and_congr_right fun hone => ?_
    rw [hsame r.1 ⟨r, hr, by rw [hone]; exact List.mem_singleton_self _⟩]
  case live_iff =>
    intro p n
    rw [hI.live_iff p n]
    simp only [hused]
    refine exists_congr fun b => and_congr_right fun hb => ?_
    rw [hsame b hb.1]
  case fits =>
    intro b hb
    rw [hsame b hb.1]
    exact hI.fits b ((hused b).mp hb)
  case started => exact fun h => hI.started (hinit ▸ h)

/-- The empty heap. -/
theorem inv_boot (tags : ℕ → BoundaryTag) :
    Inv (boot tags).heap (boot tags).regions (fun _ => []) (boot tags).live none := by
  have hnone : ∀ b, ¬ Tag [] (fun _ => []) b := fun b ⟨_, hr, _⟩ => List.not_mem_nil hr
  constructor
  case cut =>
    exact ⟨fun r hr => absurd hr List.not_mem_nil, .nil, fun r hr => absurd hr List.not_mem_nil⟩
  case listed =>
    refine ⟨fun _ => [], fun _ _ => rfl, fun _ => trivial, fun _ => List.nodup_nil, ?_, ?_, ?_⟩
    · exact fun i b => ⟨fun hb => absurd hb List.not_mem_nil, fun hb => absurd hb.1 (hnone b)⟩
    · exact fun b hb => absurd hb (hnone b)
    · exact fun b hb => absurd hb (hnone b)
  case separate => exact fun b d hb => absurd hb (hnone b)
  case index_eq => exact fun b hb => absurd hb (hnone b)
  case complete => exact fun i _ => ⟨rfl, (by decide : (0 : ℤ) ≤ maxComplete)⟩
  case live_iff =>
    intro p n
    constructor
    · rintro ⟨⟩
    · rintro ⟨b, hb, -⟩
      exact absurd hb.1 (hnone b)
  case fits => exact fun b hb => absurd hb.1 (hnone b)
  case started => exact fun _ => rfl

/-- One call keeps the invariant. -/
theorem inv_step {w w' : World} (hI : ∃ chain, Inv w.heap w.regions chain w.live none)
    (hstep : Step w w') : ∃ chain, Inv w'.heap w'.regions chain w'.live none := by
  obtain ⟨chain, hI⟩ := hI
  cases hstep with
  | kmalloc hsize halloc hcall =>
    obtain ⟨ptr, got, h', chain', heq, hI', -⟩ := hI.kmalloc hsize halloc
    obtain ⟨rfl, rfl, rfl⟩ : ptr = _ ∧ got = _ ∧ h' = _ := by simpa using heq.symm.trans hcall
    exact ⟨chain', hI'⟩
  | kfree hlive hcall =>
    obtain ⟨call, h', chain', heq, hI', -⟩ := hI.kfree hlive
    obtain ⟨rfl, rfl⟩ : call = _ ∧ h' = _ := by simpa using heq.symm.trans hcall
    exact ⟨chain', hI'⟩
  | write hkept => exact ⟨chain, hI.write hkept rfl rfl rfl⟩

/-- So does a run. -/
theorem inv_run {tags : ℕ → BoundaryTag} {w : World}
    (hrun : Relation.ReflTransGen Step (boot tags) w) :
    ∃ chain, Inv w.heap w.regions chain w.live none :=
  @Run.invariant World Step (fun w => ∃ chain, Inv w.heap w.regions chain w.live none) _ _ hrun
    ⟨_, inv_boot tags⟩ fun _ _ => inv_step

/-- What a heap in order looks like: `chain r` are the tags of the region `r`, and `lists i` are
those on `l_freePages[i]`. -/
structure Intact (w : World) (chain : ℕ × ℕ → List ℕ) (lists : ℤ → List ℕ) : Prop where
  /-- The tags of a region are linked, and their blocks make it up. -/
  partition : ∀ r ∈ w.regions,
    Linked (fun b => (w.heap.tags b).splitLeft) (fun b => (w.heap.tags b).splitRight) (chain r) ∧
    Tiles (fun b => (w.heap.tags b).realSize) r.1 (chain r) (regionEnd r) ∧
    ∀ b ∈ chain r, sizeofTag ≤ (w.heap.tags b).realSize
  /-- The lists of the free blocks are linked, and no tag is on one twice. -/
  linked : ∀ i, 0 ≤ i ∧ i < maxExp → w.heap.freePages i = (lists i).head? ∧
    Linked (fun b => (w.heap.tags b).prev) (fun b => (w.heap.tags b).next) (lists i) ∧
    (lists i).Nodup
  /-- A tag is on the list that its index tells, and on none if that is negative. -/
  mem_lists : ∀ i b, b ∈ lists i ↔
    Tag w.regions chain b ∧ 0 ≤ i ∧ (w.heap.tags b).index = i
  /-- The index tells how big the block is. -/
  index_eq : ∀ b, Tag w.regions chain b → 0 ≤ (w.heap.tags b).index →
    (w.heap.tags b).index < maxExp ∧
      (w.heap.tags b).index = max 8 (Nat.log 2 ((w.heap.tags b).realSize - sizeofTag) : ℤ)
  /-- Of two neighbours one is in use. -/
  separate : ∀ b d, Tag w.regions chain b → (w.heap.tags b).splitRight = some d →
    ¬ (0 ≤ (w.heap.tags b).index ∧ 0 ≤ (w.heap.tags d).index)
  /-- The whole free regions on a list are counted, and there are at most five. -/
  complete : ∀ i, 0 ≤ i ∧ i < maxExp → w.heap.completePages i =
      w.regions.countP (fun r => decide (chain r = [r.1] ∧ r.1 ∈ lists i)) ∧
    w.heap.completePages i ≤ 5
  /-- A client's block is behind the tag of a block in use, and inside it. -/
  inside : ∀ p n, w.live p = some n → ∃ b, Tag w.regions chain b ∧ (w.heap.tags b).index < 0 ∧
    p = b + sizeofTag ∧ p + n ≤ b + (w.heap.tags b).realSize
  /-- The clients' blocks have no byte in common. -/
  disjoint : ∀ p q n m, w.live p = some n → w.live q = some m → p ≠ q → p + n ≤ q ∨ q + m ≤ p

/-- What the invariant says of the blocks. -/
theorem Inv.intact {w : World} (hI : Inv w.heap w.regions chain w.live none) :
    ∃ lists, Intact w chain lists := by
  obtain ⟨lists, hl⟩ := hI.listed
  have hinside : ∀ p n, w.live p = some n → ∃ b, Tag w.regions chain b ∧
      (w.heap.tags b).index < 0 ∧ p = b + sizeofTag ∧
      p + n ≤ b + (w.heap.tags b).realSize := by
    intro p n hlive
    obtain ⟨b, hused, rfl, rfl⟩ := (hI.live_iff p n).mp hlive
    have hfits := (hI.fits b hused).1
    exact ⟨b, hused.1, hused.2.1, rfl, by omega⟩
  refine ⟨lists, ?_, ?_, hl.mem_iff, ?_, hI.separate, ?_, hinside, ?_⟩
  · exact fun r hr => ⟨(hI.cut.cut r hr).linked, (hI.cut.cut r hr).tiles, (hI.cut.cut r hr).header⟩
  · exact fun i hi => ⟨hl.first i hi, hl.linked i, hl.nodup i⟩
  · exact fun b hb hpos => ⟨hl.index_lt b hb, hI.index_eq b hb hpos⟩
  · intro i hi
    obtain ⟨hcount, hle⟩ := hI.complete i hi
    refine ⟨hcount.trans (congrArg Nat.cast (List.countP_congr fun r hr => ?_)), hle⟩
    rw [wholeFree, decide_eq_true_iff, decide_eq_true_iff]
    refine and_congr_right fun hone => ?_
    have htag : Tag w.regions chain r.1 := ⟨r, hr, by rw [hone]; exact List.mem_singleton_self _⟩
    rw [hl.mem_iff i r.1]
    exact ⟨fun h => ⟨htag, hi.1, h⟩, fun h => h.2.2⟩
  · intro p q n m hp hq hne
    obtain ⟨b, hb, -, rfl, hbn⟩ := hinside p n hp
    obtain ⟨d, hd, -, rfl, hdm⟩ := hinside q m hq
    rcases hI.cut.disjoint hb hd (fun h => hne (congrArg (· + sizeofTag) h)) with h | h <;> omega

/-- After every sequence of calls, whatever the clients write into their blocks: the heap is in
order; `kmalloc` returns, and has asked for what it got; and `kfree` of a block returns, and what
it passes to `liballoc_free` is a region that `liballoc_alloc` gave. -/
theorem heap_intact {tags : ℕ → BoundaryTag} {w : World}
    (hrun : Relation.ReflTransGen Step (boot tags) w) :
    (∃ chain lists, Intact w chain lists) ∧
    (∀ size alloc, size < 2 ^ 31 → Fresh w.regions alloc →
      ∃ ptr got h, w.heap.kmalloc alloc size = some (ptr, got, h) ∧
        ∀ r, got = some r → alloc r.2 = some r.1) ∧
    ∀ p n, w.live p = some n → ∃ call h, w.heap.kfree (some p) = some (call, h) ∧
      ∀ r, call = some r → r ∈ w.regions := by
  obtain ⟨chain, hI⟩ := inv_run hrun
  refine ⟨⟨chain, hI.intact⟩, fun size alloc hsize halloc => ?_, fun p n hlive => ?_⟩
  · obtain ⟨ptr, got, h, -, hcall, -, hgot⟩ := hI.kmalloc hsize halloc
    exact ⟨ptr, got, h, hcall, hgot⟩
  · obtain ⟨call, h, -, hcall, -, hregion⟩ := hI.kfree hlive
    exact ⟨call, h, hcall, hregion⟩

/-- A hundred bytes from the region at `0x10000`, and what may be asked for next. -/
theorem heap_intact_hundred :
    ∃ w, Relation.ReflTransGen Step (boot fun _ => firstTag 0 0) w ∧ w.live 0x10020 = some 100 ∧
      (∃ chain lists, Intact w chain lists) ∧
      (∃ ptr got h, w.heap.kmalloc (fun _ => none) 5000 = some (ptr, got, h) ∧
        ∀ r : ℕ × ℕ, got = some r → none = some r.1) ∧
      ∃ call h, w.heap.kfree (some 0x10020) = some (call, h) ∧
        ∀ r, call = some r → r ∈ w.regions := by
  obtain ⟨alloc, halloc⟩ : ∃ alloc : ℕ → Option ℕ,
      alloc = fun pages => if pages = 16 then some 0x10000 else none := ⟨_, rfl⟩
  have hfresh : Fresh [] alloc := by
    intro pages base hbase
    simp only [halloc] at hbase
    split_ifs at hbase with hpages
    obtain rfl := Option.some.inj hbase
    rw [hpages]
    exact ⟨by decide, by decide, by decide, fun _ hr => absurd hr List.not_mem_nil⟩
  obtain ⟨⟨ptr, got, h⟩, hcall, hptr⟩ : ∃ x, (boot fun _ => firstTag 0 0).heap.kmalloc alloc 100 =
      some x ∧ x.1 = some 0x10020 := by
    rw [halloc]
    exact Option.map_eq_some_iff.mp (by decide +kernel)
  simp only at hptr
  subst hptr
  have hrun := Relation.ReflTransGen.single (Step.kmalloc (by decide) hfresh hcall)
  have hlive : Function.update (fun _ => none) 0x10020 (some 100) 0x10020 = some 100 :=
    Function.update_self ..
  obtain ⟨hintact, hkmalloc, hkfree⟩ := heap_intact hrun
  have hnull : Fresh (got.toList ++ []) fun _ => none := fun _ _ h => nomatch h
  exact ⟨_, hrun, hlive, hintact, hkmalloc 5000 _ (by decide) hnull, hkfree 0x10020 100 hlive⟩

/-! ## A heap without blocks -/

/-- When no block is in use, a region is one free block. -/
theorem Inv.idle (hI : Inv h regions chain live none) (hidle : ∀ p, live p = none) {r : ℕ × ℕ}
    (hr : r ∈ regions) : chain r = [r.1] ∧ (h.tags r.1).index = indexOf (r.2 * pageSize - sizeofTag) := by
  have hcut := hI.cut.cut r hr
  have hfree : ∀ b ∈ chain r, 0 ≤ (h.tags b).index := by
    intro b hb
    by_contra hneg
    have hused : Used h regions chain none b := ⟨⟨r, hr, hb⟩, not_le.mp hneg,
      (Option.some_ne_none b).symm⟩
    have hlive := (hI.live_iff (b + sizeofTag) (h.tags b).size).mpr ⟨b, hused, rfl, rfl⟩
    exact Option.some_ne_none _ (hlive.symm.trans (hidle _))
  have hone : ∃ b, chain r = [b] := by
    cases hc : chain r with
    | nil =>
      have hempty := hcut.tiles
      rw [hc] at hempty
      exact absurd hempty (Nat.ne_of_lt (hI.cut.isRegion r hr).lt)
    | cons b l =>
      cases l with
      | nil => exact ⟨b, rfl⟩
      | cons d l =>
        -- two neighbours would both be free
        have hlinked : DoublyLinked.Linked (fun b => (h.tags b).splitLeft)
            (fun b => (h.tags b).splitRight) ([] ++ b :: d :: l) := hc ▸ hcut.linked
        have hb : b ∈ chain r := by simp [hc]
        have hd : d ∈ chain r := by simp [hc]
        exact absurd ⟨hfree b hb, hfree d hd⟩
          (hI.separate b d ⟨r, hr, hb⟩ hlinked.adjacent.1)
  obtain ⟨b, hb⟩ := hone
  rw [hb] at hcut
  obtain ⟨rfl, -, -, hreal⟩ := hcut.singleton
  have hmem : r.1 ∈ chain r := by simp [hb]
  rw [hI.index_eq r.1 ⟨r, hr, hmem⟩ (hfree r.1 hmem), hreal]
  exact ⟨hb, rfl⟩

/-- The sizes of regions are of seventeen orders of magnitude. -/
theorem IsRegion.log_range {r : ℕ × ℕ} (hr : IsRegion r) :
    15 ≤ Nat.log 2 (r.2 * pageSize - sizeofTag) ∧ Nat.log 2 (r.2 * pageSize - sizeofTag) < 32 := by
  obtain ⟨hpos, hpages, hend⟩ := hr
  rw [pageCount] at hpages
  rw [regionEnd, pageSize] at hend
  rw [pageSize, sizeofTag]
  exact ⟨Nat.le_log_of_pow_le (by decide) (by omega), log_lt (by omega)⟩

/-- After every sequence of calls that leaves no block in use: every region is one free block, on
the list for its size, and the heap has kept 85 regions at most. -/
theorem heap_idle {tags : ℕ → BoundaryTag} {w : World}
    (hrun : Relation.ReflTransGen Step (boot tags) w) (hidle : ∀ p, w.live p = none) :
    (∃ chain lists, Intact w chain lists ∧ ∀ r ∈ w.regions, chain r = [r.1] ∧
      r.1 ∈ lists (max 8 (Nat.log 2 (r.2 * pageSize - sizeofTag) : ℤ))) ∧
    w.regions.length ≤ 85 := by
  obtain ⟨chain, hI⟩ := inv_run hrun
  obtain ⟨lists, hintact⟩ := hI.intact
  have hlist : ∀ r ∈ w.regions, chain r = [r.1] ∧
      r.1 ∈ lists (indexOf (r.2 * pageSize - sizeofTag)) := by
    intro r hr
    obtain ⟨hone, hindex⟩ := hI.idle hidle hr
    refine ⟨hone, (hintact.mem_lists _ _).mpr ⟨⟨r, hr, by simp [hone]⟩, ?_, hindex⟩⟩
    rw [indexOf]
    omega
  refine ⟨⟨chain, lists, hintact, hlist⟩, ?_⟩
  -- at most five regions are on each of the seventeen lists
  have hcount : ∀ i ∈ Finset.range 17, (w.regions.toFinset.filter fun r =>
      Nat.log 2 (r.2 * pageSize - sizeofTag) - 15 = i).card ≤ 5 := by
    intro i hi
    have hi := Finset.mem_range.mp hi
    obtain ⟨hcomplete, hle⟩ := hintact.complete (i + 15 : ℤ) (by rw [maxExp]; omega)
    have hsame : (w.regions.toFinset.filter fun r =>
        Nat.log 2 (r.2 * pageSize - sizeofTag) - 15 = i).card =
        w.regions.countP fun r => decide (chain r = [r.1] ∧ r.1 ∈ lists (i + 15)) := by
      rw [List.countP_eq_length_filter, ← List.toFinset_card_of_nodup (hI.cut.nodup.filter _),
        List.toFinset_filter]
      congr 1
      ext1 r
      rw [Finset.mem_filter, Finset.mem_filter, decide_eq_true_iff]
      refine and_congr_right fun hr => ?_
      have hr := List.mem_toFinset.mp hr
      obtain ⟨hone, hmem⟩ := hlist r hr
      have hrange := (hI.cut.isRegion r hr).log_range
      rw [hintact.mem_lists] at hmem ⊢
      obtain ⟨htag, -, hindex⟩ := hmem
      rw [hindex, indexOf]
      constructor
      · intro h
        exact ⟨hone, htag, by omega, by omega⟩
      · rintro ⟨-, -, -, h⟩
        omega
    omega
  have hmaps : ∀ r ∈ w.regions.toFinset,
      Nat.log 2 (r.2 * pageSize - sizeofTag) - 15 ∈ Finset.range 17 := by
    intro r hr
    have hrange := (hI.cut.isRegion r (List.mem_toFinset.mp hr)).log_range
    rw [Finset.mem_range]
    omega
  have hcard := Finset.card_le_mul_card_image_of_maps_to hmaps 5 hcount
  rwa [List.toFinset_card_of_nodup hI.cut.nodup, Finset.card_range] at hcard

/-- A hundred bytes from the region at `0x10000`, given and freed. -/
theorem heap_idle_hundred : ∃ w, Relation.ReflTransGen Step (boot fun _ => firstTag 0 0) w ∧
    w.regions = [(0x10000, 16)] ∧
    (∃ chain lists, Intact w chain lists ∧ ∀ r ∈ w.regions, chain r = [r.1] ∧
      r.1 ∈ lists (max 8 (Nat.log 2 (r.2 * pageSize - sizeofTag) : ℤ))) ∧
    w.regions.length ≤ 85 := by
  obtain ⟨alloc, halloc⟩ : ∃ alloc : ℕ → Option ℕ,
      alloc = fun pages => if pages = 16 then some 0x10000 else none := ⟨_, rfl⟩
  have hfresh : Fresh [] alloc := by
    intro pages base hbase
    simp only [halloc] at hbase
    split_ifs at hbase with hpages
    obtain rfl := Option.some.inj hbase
    rw [hpages]
    exact ⟨by decide, by decide, by decide, fun _ hr => absurd hr List.not_mem_nil⟩
  have hanswers : (((boot fun _ => firstTag 0 0).heap.kmalloc alloc 100).bind fun x =>
      (x.2.2.kfree x.1).map fun y => (x.1, x.2.1, y.1)) =
        some (some 0x10020, some (0x10000, 16), none) := by
    rw [halloc]
    decide +kernel
  simp only [Option.bind_eq_some_iff, Option.map_eq_some_iff, Prod.exists] at hanswers
  obtain ⟨ptr, got, h, hkmalloc, call, h', hkfree, heq⟩ := hanswers
  cases heq
  have hlive : handOut (fun _ => none) 100 (some 0x10020) 0x10020 = some 100 := by
    rw [handOut, Function.update_self]
  have hrun := (Relation.ReflTransGen.single (Step.kmalloc (by decide) hfresh hkmalloc)).tail
    (Step.kfree (p := 0x10020) (n := 100) hlive hkfree)
  refine ⟨_, hrun, rfl, heap_idle hrun fun p => ?_⟩
  have hnone : Function.update (Function.update (fun _ => none) 0x10020 (some 100)) 0x10020 none p =
      (none : Option ℕ) := by
    rw [Function.update_idem, Function.update_eq_self]
  exact hnone

end Sakura.Libk.Liballoc
