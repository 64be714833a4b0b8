import Sakura.Libk.Blocks
import Sakura.Libk.KmallocFrameTheorems

/-!
# The heap keeps its clients' bytes

Whatever is called in whatever order, the heap is to its clients a set of blocks that keep their
bytes: every run of the store is one of the blocks (`trace_blocks`). Only where a loop goes through
a null pointer does a call not return (`krealloc_eq_none_iff`, `kcalloc_eq_none_iff`).
-/

namespace Sakura.Libk.Liballoc

open Run (Trace)

variable {A : Overlay} {s s' : Store} {regions : List (ℕ × ℕ)} {chain : ℕ × ℕ → List ℕ}
  {live : ℕ → Option ℕ} {mem mem' : Bytes} {p q n m size : ℕ} {alloc : ℕ → Option ℕ}
  {ptr : Option ℕ} {got call : Option (ℕ × ℕ)}

/-! ## Loops over bytes -/

/-- Every byte of the range is set, and no other. -/
theorem liballocMemset_eq (s : ℕ) (c : BitVec 8) (n : ℕ) (mem : Bytes) (x : ℕ) :
    liballocMemset s c n mem x = if s ≤ x ∧ x < s + n then c else mem x := by
  unfold liballocMemset
  induction n with
  | zero => rw [if_neg (by omega), List.range_zero, List.foldl_nil]
  | succ n ih =>
    rw [List.range_succ, List.foldl_append, List.foldl_cons, List.foldl_nil]
    by_cases hx : x = s + n
    · rw [hx, Function.update_self, if_pos (by omega)]
    · rw [Function.update_of_ne hx, ih]
      congr 1
      exact propext (by omega)

/-- The words that have been copied, when the blocks are apart. -/
theorem foldl_copyWord {s1 s2 k : ℕ} (hapart : s1 + 4 * k ≤ s2 ∨ s2 + 4 * k ≤ s1) (x : ℕ) :
    (List.range k).foldl (copyWord s1 s2) mem x =
      if s1 ≤ x ∧ x < s1 + 4 * k then mem (s2 + (x - s1)) else mem x := by
  induction k generalizing x with
  | zero => rw [if_neg (by omega), List.range_zero, List.foldl_nil]
  | succ k ih =>
    rw [List.range_succ, List.foldl_append, List.foldl_cons, List.foldl_nil, copyWord]
    by_cases hx : s1 + 4 * k ≤ x ∧ x < s1 + 4 * k + 4
    · -- the source of the last word has not been written over
      rw [if_pos hx, if_pos (by omega), ih (by omega), if_neg (by omega)]
      congr 1
      omega
    · rw [if_neg hx, ih (by omega)]
      congr 1
      exact propext (by omega)

theorem foldl_copyByte {s1 s2 k : ℕ} (hapart : s1 + k ≤ s2 ∨ s2 + k ≤ s1) (x : ℕ) :
    (List.range k).foldl (copyByte s1 s2) mem x =
      if s1 ≤ x ∧ x < s1 + k then mem (s2 + (x - s1)) else mem x := by
  induction k generalizing x with
  | zero => rw [if_neg (by omega), List.range_zero, List.foldl_nil]
  | succ k ih =>
    rw [List.range_succ, List.foldl_append, List.foldl_cons, List.foldl_nil, copyByte]
    by_cases hx : x = s1 + k
    · rw [hx, Function.update_self, if_pos (by omega), ih (by omega), if_neg (by omega)]
      congr 1
      omega
    · rw [Function.update_of_ne hx, ih (by omega)]
      congr 1
      exact propext (by omega)

/-- A copy between ranges that are apart. -/
theorem liballocMemcpy_eq {s1 s2 n : ℕ} (hapart : s1 + n ≤ s2 ∨ s2 + n ≤ s1) (x : ℕ) :
    liballocMemcpy s1 s2 n mem x =
      if s1 ≤ x ∧ x < s1 + n then mem (s2 + (x - s1)) else mem x := by
  have hn : 4 * (n / 4) + n % 4 = n := Nat.div_add_mod n 4
  rw [liballocMemcpy, foldl_copyByte (by omega)]
  by_cases htail : s1 + 4 * (n / 4) ≤ x ∧ x < s1 + 4 * (n / 4) + n % 4
  · rw [if_pos htail, if_pos (by omega), foldl_copyWord (by omega), if_neg (by omega)]
    congr 1
    omega
  · rw [if_neg htail, foldl_copyWord (by omega)]
    congr 1
    exact propext (by omega)

/-! ## Blocks in a store -/

/-- A block is its bytes. -/
theorem blockAt_congr (h : ∀ x, p ≤ x → x < p + n → mem' x = mem x) :
    blockAt mem' p n = blockAt mem p n := by
  refine List.map_congr_left fun i hi => ?_
  have hi := List.mem_range.mp hi
  exact h (p + i) (by omega) (by omega)

@[simp] theorem length_blockAt : (blockAt mem p n).length = n := by
  rw [blockAt, List.length_map, List.length_range]

@[simp] theorem getElem?_blockAt (i : ℕ) :
    (blockAt mem p n)[i]? = if i < n then some (mem (p + i)) else none := by
  rw [blockAt, List.getElem?_map]
  split_ifs with hi
  · rw [List.getElem?_range hi, Option.map_some]
  · rw [List.getElem?_eq_none (by rw [List.length_range]; omega), Option.map_none]

theorem viewOf_some (h : live p = some n) : viewOf live mem p = some (blockAt mem p n) := by
  rw [viewOf, h, Option.map_some]

theorem viewOf_none (h : live p = none) : viewOf live mem p = none := by
  rw [viewOf, h, Option.map_none]

/-- What the clients see depends on the bytes of their blocks. -/
theorem viewOf_congr (hsame : ∀ p n, live p = some n → blockAt mem' p n = blockAt mem p n) :
    viewOf live mem' = viewOf live mem := by
  ext1 p
  rw [viewOf, viewOf]
  cases hlive : live p with
  | none => rfl
  | some n => exact congrArg some (hsame p n hlive)

/-- One block comes or goes, or gets other bytes. -/
theorem viewOf_update (v : Option ℕ)
    (hsame : ∀ p n, p ≠ q → live p = some n → blockAt mem' p n = blockAt mem p n) :
    viewOf (Function.update live q v) mem' =
      Function.update (viewOf live mem) q (v.map (blockAt mem' q)) := by
  ext1 p
  by_cases hp : p = q
  · rw [hp, Function.update_self, viewOf, Function.update_self]
  · rw [Function.update_of_ne hp, viewOf, viewOf, Function.update_of_ne hp]
    cases hlive : live p with
    | none => rfl
    | some n => exact congrArg some (hsame p n hp hlive)

/-! ## Calls -/

/-- What `kmalloc` does to a store. -/
theorem Store.kmalloc_spec (hI : Inv s.heap regions chain live none) (hsize : size < 2 ^ 31)
    (halloc : Fresh regions alloc) (hcall : s.kmalloc A alloc size = some (ptr, got, s')) :
    (∃ chain', Inv s'.heap (got.toList ++ regions) chain' (handOut live size ptr) none) ∧
      (∀ q, ptr = some q → live q = none) ∧
      ∀ p n, live p = some n → blockAt s'.mem p n = blockAt s.mem p n := by
  rw [Store.kmalloc, Option.map_eq_some_iff] at hcall
  obtain ⟨⟨ptr, got, h⟩, hcall, heq⟩ := hcall
  cases heq
  obtain ⟨hnew, hkept⟩ := hI.kmalloc_apart hsize halloc hcall
  obtain ⟨ptr', got', h', chain', hcall', hI', -⟩ := hI.kmalloc hsize halloc
  rw [hcall] at hcall'
  cases hcall'
  refine ⟨⟨chain', hI'⟩, hnew, fun p n hlive => blockAt_congr fun x hle hlt => ?_⟩
  exact A.bytes_eq _ _ _ _ _ (hkept p n x hlive hle hlt)

/-- What `kfree` does to a store. -/
theorem Store.kfree_spec (hI : Inv s.heap regions chain live none) (hp : live p = some n)
    (hcall : s.kfree A (some p) = some (call, s')) :
    (∃ chain', Inv s'.heap (handBack regions call) chain' (Function.update live p none) none) ∧
      ∀ q m, q ≠ p → live q = some m → blockAt s'.mem q m = blockAt s.mem q m := by
  rw [Store.kfree, Option.map_eq_some_iff] at hcall
  obtain ⟨⟨call, h⟩, hcall, heq⟩ := hcall
  cases heq
  obtain ⟨call', h', chain', hcall', hI', -⟩ := hI.kfree hp
  rw [hcall] at hcall'
  cases hcall'
  refine ⟨⟨chain', hI'⟩, fun q m hne hq => blockAt_congr fun x hle hlt => ?_⟩
  exact A.bytes_eq _ _ _ _ _ (hI.kfree_apart hp hcall hq hne hle hlt)

/-- Two blocks have no byte in common. -/
theorem Inv.apart {h : Liballoc} (hI : Inv h regions chain live none) (hp : live p = some n)
    (hq : live q = some m) (hne : p ≠ q) : p + n ≤ q ∨ q + m ≤ p := by
  obtain ⟨b, hb, -, rfl, hbn⟩ := hI.block hp
  obtain ⟨d, hd, -, rfl, hdm⟩ := hI.block hq
  rcases hI.cut.disjoint hb hd (fun h => hne (congrArg (· + sizeofTag) h)) with h | h <;> omega

/-- Bytes are written into a block. -/
theorem Store.put_spec (mem' : Bytes) (hI : Inv s.heap regions chain live none) (hp : live p = some n)
    (hin : ∀ x, ¬ (p ≤ x ∧ x < p + n) → mem' x = s.mem x) :
    Inv (s.put A mem').heap regions chain live none ∧
      ∀ q m, q ≠ p → live q = some m → blockAt (s.put A mem').mem q m = blockAt s.mem q m := by
  refine ⟨hI.write (fun b hb => ?_) rfl rfl rfl, fun q m hne hq => blockAt_congr fun x hle hlt => ?_⟩
  · refine A.tags_eq _ _ _ _ fun x hx => hin x ?_
    have := hb p n hp
    unfold InTag at hx
    omega
  · have := hI.apart hq hp hne
    exact hin x (by omega)

/-! ## Steps -/

/-- `kmalloc` gives a block of any bytes, or none. -/
theorem kmalloc_block (hI : Inv s.heap regions chain live none) (hsize : size < 2 ^ 31)
    (halloc : Fresh regions alloc) (hcall : s.kmalloc A alloc size = some (ptr, got, s')) :
    BlockStep (viewOf live s.mem) (.kmalloc size ptr) (viewOf (handOut live size ptr) s'.mem) := by
  obtain ⟨-, hnew, hkept⟩ := Store.kmalloc_spec hI hsize halloc hcall
  cases ptr with
  | none =>
    rw [handOut, viewOf_congr hkept]
    exact .refused
  | some q =>
    rw [handOut, viewOf_update _ fun p n _ hlive => hkept p n hlive]
    exact .kmalloc _ (viewOf_none (hnew q rfl)) length_blockAt

/-- `kfree` takes a block, or none, and leaves the bytes of the others. -/
theorem kfree_block {p : Option ℕ} (hI : Inv s.heap regions chain live none)
    (hlive : ∀ q ∈ p, (live q).isSome) (hcall : s.kfree A p = some (call, s')) :
    (∃ chain', Inv s'.heap (handBack regions call) chain' (takeBack live p) none) ∧
      BlockStep (viewOf live s.mem) (.kfree p) (viewOf (takeBack live p) s'.mem) := by
  cases p with
  | none =>
    rw [Store.kfree, Liballoc.kfree, Option.map_some, Option.some.injEq, Prod.mk.injEq] at hcall
    obtain ⟨rfl, rfl⟩ := hcall
    refine ⟨⟨chain, hI⟩, ?_⟩
    rw [takeBack, viewOf_congr fun p n _ => blockAt_congr fun x _ _ => A.bytes_eq _ _ _ _ _ ?_]
    · exact .null
    · rintro (⟨b, -, hb⟩ | ⟨r, hr, -⟩)
      · exact hb rfl
      · cases hr
  | some p =>
    obtain ⟨n, hp⟩ := Option.isSome_iff_exists.mp (hlive p rfl)
    obtain ⟨hI', hkept⟩ := Store.kfree_spec hI hp hcall
    refine ⟨hI', ?_⟩
    rw [takeBack, viewOf_update _ hkept]
    exact .kfree (viewOf_some hp)

/-- `kcalloc` gives a block of zeros, or none. -/
theorem kcalloc_block {nobj : ℕ} (hI : Inv s.heap regions chain live none)
    (hsize : nobj * size % 2 ^ 32 < 2 ^ 31) (halloc : Fresh regions alloc)
    (hcall : s.kcalloc A alloc nobj size = some (ptr, got, s')) :
    (∃ chain', Inv s'.heap (got.toList ++ regions) chain'
        (handOut live (nobj * size % 2 ^ 32) ptr) none) ∧
      BlockStep (viewOf live s.mem) (.kcalloc nobj size ptr)
        (viewOf (handOut live (nobj * size % 2 ^ 32) ptr) s'.mem) := by
  obtain ⟨k, hk⟩ : ∃ k, k = nobj * size % 2 ^ 32 := ⟨_, rfl⟩
  rw [Store.kcalloc] at hcall
  simp only [← hk, Option.bind_eq_bind, Option.bind_eq_some_iff, Prod.exists] at hcall hsize ⊢
  obtain ⟨ptr', got', s₁, hkmalloc, s₂, hmemset, heq⟩ := hcall
  cases heq
  obtain ⟨⟨chain₁, hI₁⟩, hnew, hkept⟩ := Store.kmalloc_spec hI hsize halloc hkmalloc
  rw [Store.memset] at hmemset
  cases ptr with
  | none =>
    split at hmemset
    · next hzero =>
      cases hmemset
      refine ⟨⟨chain₁, hI₁⟩, ?_⟩
      rw [handOut, viewOf_congr hkept]
      exact .nothing (hk.symm.trans hzero)
    · cases hmemset
  | some q =>
    have hq : handOut live k (some q) q = some k := Function.update_self ..
    have hnew := hnew q rfl
    -- the new block is zeroed, and no other is written to
    obtain ⟨hI₂, hother, hzero⟩ : Inv s'.heap (got.toList ++ regions) chain₁
          (handOut live k (some q)) none ∧
        (∀ p m, p ≠ q → handOut live k (some q) p = some m →
          blockAt s'.mem p m = blockAt s₁.mem p m) ∧
        blockAt s'.mem q k = List.replicate k 0 := by
      split at hmemset
      · next hzero =>
        cases hmemset
        exact ⟨hI₁, fun _ _ _ _ => rfl, by rw [hzero]; rfl⟩
      · cases hmemset
        obtain ⟨hI₂, hother⟩ := Store.put_spec (A := A) (liballocMemset q 0 k s₁.mem) hI₁ hq
          fun x hx => by rw [liballocMemset_eq, if_neg hx]
        refine ⟨hI₂, hother, ?_⟩
        rw [blockAt, List.eq_replicate_iff, List.length_map, List.length_range]
        refine ⟨rfl, List.forall_mem_map.mpr fun i hi => ?_⟩
        have hi := List.mem_range.mp hi
        exact (liballocMemset_eq ..).trans (if_pos (by omega))
    refine ⟨⟨chain₁, hI₂⟩, ?_⟩
    rw [handOut, viewOf_update, Option.map_some, hzero, hk]
    · exact .kcalloc (viewOf_none hnew)
    · exact fun p n hne hlive =>
        (hother p n hne ((Function.update_of_ne hne ..).trans hlive)).trans (hkept p n hlive)

/-- The tag of a block has the size that was asked for. -/
theorem Inv.size_eq {h : Liballoc} (hI : Inv h regions chain live none) (hp : live p = some n) :
    (h.tags (sub p sizeofTag)).size = n := by
  obtain ⟨a, hused, rfl, rfl⟩ := (hI.live_iff p n).mp hp
  rw [sub_eq (Nat.le_add_left ..) (hI.fits a hused).2, Nat.add_sub_cancel]

/-- The beginning of one block is that of another. -/
theorem take_blockAt (h : ∀ i, i < n → i < m → mem' (q + i) = mem (p + i)) :
    (blockAt mem' q m).take n = (blockAt mem p n).take m := by
  ext1 i
  rw [List.getElem?_take, List.getElem?_take, getElem?_blockAt, getElem?_blockAt]
  split_ifs with hn hm
  · rw [h i hn hm]
  all_goals rfl

/-- The middle of `krealloc`: as much of the old block as fits is copied to the new one. -/
theorem memcpy_block (hI : Inv s.heap regions chain live none) (hp : live p = some n)
    (hq : ∀ q ∈ ptr, live q = some m ∧ q ≠ p)
    (hcall : s.memcpy A ptr p (min n m) = some s') :
    Inv s'.heap regions chain live none ∧
      (∀ r k, ptr ≠ some r → live r = some k → blockAt s'.mem r k = blockAt s.mem r k) ∧
      (∀ q ∈ ptr, (blockAt s'.mem q m).take n = (blockAt s.mem p n).take m) ∧
      (ptr = none → min n m = 0) := by
  rw [Store.memcpy] at hcall
  split at hcall
  · next hzero =>
    cases hcall
    refine ⟨hI, fun _ _ _ _ => rfl, fun q _ => take_blockAt fun i hn hm => ?_, fun _ => hzero⟩
    omega
  · next hpos =>
    obtain ⟨q, rfl, rfl⟩ := Option.map_eq_some_iff.mp hcall
    obtain ⟨hlive, hne⟩ := hq q rfl
    have hapart := hI.apart hlive hp hne
    obtain ⟨hI', hother⟩ := Store.put_spec (A := A) (liballocMemcpy q p (min n m) s.mem) hI
      hlive fun x hx => by rw [liballocMemcpy_eq (by omega), if_neg (by omega)]
    refine ⟨hI', fun r k hr => hother r k fun h => hr (congrArg some h.symm), ?_,
      fun h => absurd h (Option.some_ne_none q)⟩
    rintro _ ⟨⟩
    refine take_blockAt fun i hn hm => ?_
    have hcopied : liballocMemcpy q p (min n m) s.mem (q + i) = s.mem (p + i) := by
      rw [liballocMemcpy_eq (by omega), if_pos (by omega), Nat.add_sub_cancel_left]
    exact hcopied

/-- The old block beside the new one. -/
theorem handOut_spec (size : ℕ) (hp : live p = some n) (hnew : ∀ q, ptr = some q → live q = none) :
    handOut live size ptr p = some n ∧
      ∀ q ∈ ptr, handOut live size ptr q = some size ∧ q ≠ p := by
  have hne : ∀ q, ptr = some q → q ≠ p := by
    rintro q hq rfl
    exact Option.some_ne_none n (hp.symm.trans (hnew q hq))
  cases ptr with
  | none => exact ⟨hp, fun q hq => absurd hq (Option.not_mem_none q)⟩
  | some q =>
    refine ⟨(Function.update_of_ne (hne q rfl).symm ..).trans hp, ?_⟩
    rintro _ ⟨⟩
    exact ⟨Function.update_self .., hne q rfl⟩

/-- `krealloc` gives a block that begins with the bytes of the old one, which is gone. -/
theorem krealloc_block {p : Option ℕ} (hI : Inv s.heap regions chain live none)
    (hlive : ∀ q ∈ p, (live q).isSome) (hsize : size < 2 ^ 31) (halloc : Fresh regions alloc)
    (hcall : s.krealloc A alloc p size = some (ptr, got, call, s')) :
    (∃ chain', Inv s'.heap (handBack (got.toList ++ regions) call) chain'
        (takeBack (handOut live size ptr) p) none) ∧
      BlockStep (viewOf live s.mem) (.krealloc p size ptr)
        (viewOf (takeBack (handOut live size ptr) p) s'.mem) := by
  unfold Store.krealloc at hcall
  split at hcall
  · next hzero =>
    subst hzero
    obtain ⟨⟨call', s₁⟩, hkfree, heq⟩ := Option.bind_eq_some_iff.mp hcall
    cases heq
    obtain ⟨hI', hstep⟩ := kfree_block hI hlive hkfree
    exact ⟨hI', .last hstep⟩
  next hpos =>
  cases p with
  | none =>
    obtain ⟨⟨ptr', got', s₁⟩, hkmalloc, heq⟩ := Option.bind_eq_some_iff.mp hcall
    cases heq
    exact ⟨(Store.kmalloc_spec hI hsize halloc hkmalloc).1,
      .first hpos (kmalloc_block hI hsize halloc hkmalloc)⟩
  | some p =>
    obtain ⟨n, hp⟩ := Option.isSome_iff_exists.mp (hlive p rfl)
    have hmin : (if n > size then size else n) = min n size := by split_ifs <;> omega
    simp only [hI.size_eq hp, hmin, Option.bind_eq_bind, Option.bind_eq_some_iff,
      Prod.exists] at hcall
    obtain ⟨ptr', got', s₁, hkmalloc, s₂, hmemcpy, call', s₃, hkfree, heq⟩ := hcall
    cases heq
    obtain ⟨⟨chain₁, hI₁⟩, hnew, hkept₁⟩ := Store.kmalloc_spec hI hsize halloc hkmalloc
    obtain ⟨hp₁, hq₁⟩ := handOut_spec size hp hnew
    obtain ⟨hI₂, hkept₂, hcopied, hnothing⟩ := memcpy_block hI₁ hp₁ hq₁ hmemcpy
    obtain ⟨hI₃, hkept₃⟩ := Store.kfree_spec hI₂ hp₁ hkfree
    refine ⟨hI₃, ?_⟩
    cases ptr with
    | none =>
      obtain rfl : n = 0 := by
        have := hnothing rfl
        omega
      have hview : viewOf live s₂.mem = viewOf live s.mem :=
        viewOf_congr fun q m hq =>
          (hkept₂ q m (Option.some_ne_none q).symm hq).trans (hkept₁ q m hq)
      rw [takeBack, viewOf_update none hkept₃, handOut, hview]
      exact .lost hpos (viewOf_some hp)
    | some q =>
      rw [takeBack, viewOf_update none hkept₃, handOut, viewOf_update _ fun r k hr hlive =>
        (hkept₂ r k (fun h => hr (Option.some.inj h).symm)
          ((Function.update_of_ne hr ..).trans hlive)).trans (hkept₁ r k hlive)]
      refine .moved _ hpos (viewOf_some hp) (viewOf_none (hnew q rfl)) length_blockAt ?_
      rw [length_blockAt, hcopied q rfl, hkept₁ p n hp]

/-- A client writes to a byte of its block. -/
theorem write_block {i : ℕ} {c : BitVec 8} (hI : Inv s.heap regions chain live none)
    (hp : live p = some n) (hi : i < n) :
    Inv (s.put A (Function.update s.mem (p + i) c)).heap regions chain live none ∧
      BlockStep (viewOf live s.mem) (.write p i c)
        (viewOf live (s.put A (Function.update s.mem (p + i) c)).mem) := by
  obtain ⟨hI', hother⟩ := Store.put_spec (A := A) (Function.update s.mem (p + i) c) hI hp
    fun x hx => Function.update_of_ne (by omega) ..
  refine ⟨hI', ?_⟩
  have hset : blockAt (Function.update s.mem (p + i) c) p n = (blockAt s.mem p n).set i c := by
    ext1 j
    rw [List.getElem?_set, getElem?_blockAt, getElem?_blockAt, length_blockAt]
    by_cases hij : i = j
    · rw [hij, Function.update_self, if_pos rfl]
    · rw [Function.update_of_ne (by omega), if_neg hij]
  have hview := viewOf_update (some n) hother
  rw [← hp, Function.update_eq_self] at hview
  rw [hview, hp, Option.map_some, Store.put, hset]
  exact .write (viewOf_some hp) (by rwa [length_blockAt])

/-- What one step of the store is to the clients. -/
theorem dataStep_blockStep {w w' : DataWorld} {e : Call}
    (hI : ∃ chain, Inv w.store.heap w.regions chain w.live none) (hstep : DataStep A w e w') :
    (∃ chain, Inv w'.store.heap w'.regions chain w'.live none) ∧
      BlockStep (view w) e (view w') := by
  obtain ⟨chain, hI⟩ := hI
  cases hstep with
  | kmalloc hsize halloc hcall =>
    exact ⟨(Store.kmalloc_spec hI hsize halloc hcall).1, kmalloc_block hI hsize halloc hcall⟩
  | kcalloc hsize halloc hcall => exact kcalloc_block hI hsize halloc hcall
  | krealloc hlive hsize halloc hcall => exact krealloc_block hI hlive hsize halloc hcall
  | kfree hlive hcall => exact kfree_block hI hlive hcall
  | write hlive hi =>
    obtain ⟨hI', hstep⟩ := write_block hI hlive hi
    exact ⟨⟨chain, hI'⟩, hstep⟩

/-- A run of the allocator is a run of the store of blocks. -/
theorem simulate {tags : ℕ → BoundaryTag} {es : List Call} {w : DataWorld}
    (hrun : Trace (DataStep A) (bootData tags mem) es w) :
    (∃ chain, Inv w.store.heap w.regions chain w.live none) ∧
      Trace BlockStep (fun _ => none) es (view w) :=
  hrun.simulate dataStep_blockStep ⟨_, inv_boot tags⟩

/-- Whatever the clients call and write, in whatever order: what they find in their blocks is what
a set of blocks would have for them. -/
theorem trace_blocks (A : Overlay) {tags : ℕ → BoundaryTag} {mem : Bytes} {es : List Call}
    {w : DataWorld} (hrun : Trace (DataStep A) (bootData tags mem) es w) :
    Trace BlockStep (fun _ => none) es (view w) :=
  (simulate hrun).2

/-- Bytes and tags that keep out of each other's way. -/
def plain : Overlay where
  bytes _ _ _ mem := mem
  tags _ _ t := t
  bytes_eq _ _ _ _ _ _ := rfl
  tags_eq _ _ _ _ _ := rfl

/-- The blocks after the first call gave a hundred bytes. -/
def hundred : ℕ → Option ℕ := Function.update (fun _ => none) 0x10020 (some 100)

/-- A hundred bytes from the region at `0x10000`, that become forty thousand. -/
theorem krealloc_hundred : ∃ (got : Option (ℕ × ℕ)) (s : Store),
    DataStep plain (bootData (fun _ => firstTag 0 0) fun _ => 0) (.kmalloc 100 (some 0x10020))
      ⟨s, got.toList ++ [], hundred⟩ ∧
    ∃ got' call s', (s.put plain (Function.update s.mem (0x10020 + 0) 7)).krealloc plain
      (fun _ => none) (some 0x10020) 40000 = some (some 0x100a4, got', call, s') := by
  obtain ⟨alloc, halloc⟩ : ∃ alloc : ℕ → Option ℕ,
      alloc = fun pages => if pages = 16 then some 0x10000 else none := ⟨_, rfl⟩
  have hfresh : Fresh [] alloc := by
    intro pages base hbase
    simp only [halloc] at hbase
    split_ifs at hbase with hpages
    obtain rfl := Option.some.inj hbase
    rw [hpages]
    exact ⟨by decide, by decide, by decide, fun _ hr => absurd hr List.not_mem_nil⟩
  have hanswers : (((bootData (fun _ => firstTag 0 0) fun _ => 0).store.kmalloc plain alloc
      100).bind fun x => ((x.2.2.put plain (Function.update x.2.2.mem (0x10020 + 0) 7)).krealloc plain
      (fun _ => none) (some 0x10020) 40000).map fun y => (x.1, y.1)) =
        some (some 0x10020, some 0x100a4) := by
    rw [halloc]
    decide +kernel
  simp only [Option.bind_eq_some_iff, Option.map_eq_some_iff, Prod.exists] at hanswers
  obtain ⟨ptr, got, s, hkmalloc, ptr', got', call, s', hkrealloc, heq⟩ := hanswers
  cases heq
  exact ⟨got, s, .kmalloc (by decide) hfresh hkmalloc, got', call, s', hkrealloc⟩

theorem hundred_eq : hundred 0x10020 = some 100 := Function.update_self ..

theorem hundred_live : ∀ q ∈ some 0x10020, (hundred q).isSome := by
  intro q hq
  cases hq
  exact Option.isSome_iff_exists.mpr ⟨100, hundred_eq⟩

theorem fresh_refused (regions : List (ℕ × ℕ)) : Fresh regions fun _ => none :=
  fun _ _ h => nomatch h

/-- The hundred bytes are written to and moved. -/
theorem trace_blocks_krealloc : ∃ w,
    Trace (DataStep plain) (bootData (fun _ => firstTag 0 0) fun _ => 0)
      [.kmalloc 100 (some 0x10020), .write 0x10020 0 7, .krealloc (some 0x10020) 40000 (some 0x100a4)]
      w ∧
    Trace BlockStep (fun _ => none)
      [.kmalloc 100 (some 0x10020), .write 0x10020 0 7, .krealloc (some 0x10020) 40000 (some 0x100a4)]
      (view w) := by
  obtain ⟨got, s, hfirst, got', call, s', hkrealloc⟩ := krealloc_hundred
  have hsecond := DataStep.write (A := plain) (p := 0x10020) (i := 0) (n := 100) (c := 7)
    (w := ⟨s, got.toList ++ [], hundred⟩) hundred_eq (by decide)
  have hthird := DataStep.krealloc (w := ⟨s.put plain (Function.update s.mem (0x10020 + 0) 7),
    got.toList ++ [], hundred⟩) hundred_live (by decide) (fresh_refused _) hkrealloc
  have hrun := Trace.cons hfirst (.cons hsecond (.cons hthird (.nil _)))
  exact ⟨_, hrun, trace_blocks plain hrun⟩

/-! ## Calls that do not return -/

/-- `kmalloc` returns. -/
theorem Store.kmalloc_returns (hI : Inv s.heap regions chain live none) (hsize : size < 2 ^ 31)
    (halloc : Fresh regions alloc) : ∃ ptr got s', s.kmalloc A alloc size = some (ptr, got, s') := by
  obtain ⟨ptr, got, h', -, hcall, -⟩ := hI.kmalloc hsize halloc
  exact ⟨ptr, got, _, by rw [Store.kmalloc, hcall, Option.map_some]⟩

/-- `kfree` returns. -/
theorem Store.kfree_returns (hI : Inv s.heap regions chain live none) (hp : live p = some n) :
    ∃ call s', s.kfree A (some p) = some (call, s') := by
  obtain ⟨call, h', -, hcall, -⟩ := hI.kfree hp
  exact ⟨call, _, by rw [Store.kfree, hcall, Option.map_some]⟩

/-- `kcalloc` goes through a null pointer when there are bytes to set and no block for them. -/
theorem kcalloc_eq_none_iff {nobj : ℕ} (hI : Inv s.heap regions chain live none)
    (hsize : nobj * size % 2 ^ 32 < 2 ^ 31) (halloc : Fresh regions alloc) :
    ∃ ptr got s', s.kmalloc A alloc (nobj * size % 2 ^ 32) = some (ptr, got, s') ∧
      (s.kcalloc A alloc nobj size = none ↔ ptr = none ∧ nobj * size % 2 ^ 32 ≠ 0) := by
  obtain ⟨ptr, got, s', hcall⟩ := Store.kmalloc_returns (A := A) hI hsize halloc
  refine ⟨ptr, got, s', hcall, ?_⟩
  obtain ⟨k, hk⟩ : ∃ k, k = nobj * size % 2 ^ 32 := ⟨_, rfl⟩
  rw [Store.kcalloc]
  simp only [← hk, Option.bind_eq_bind] at hcall ⊢
  rw [hcall, Option.bind_some]
  dsimp only
  rw [Store.memset]
  by_cases hzero : k = 0
  · simp [hzero]
  · cases ptr <;> simp [hzero]

theorem krealloc_eq_none_iff (hI : Inv s.heap regions chain live none) (hp : live p = some n)
    (hsize : size < 2 ^ 31) (hpos : size ≠ 0) (halloc : Fresh regions alloc) :
    ∃ ptr got s', s.kmalloc A alloc size = some (ptr, got, s') ∧
      (s.krealloc A alloc (some p) size = none ↔ ptr = none ∧ n ≠ 0) := by
  obtain ⟨ptr, got, s₁, hcall⟩ := Store.kmalloc_returns (A := A) hI hsize halloc
  refine ⟨ptr, got, s₁, hcall, ?_⟩
  have hmin : (if n > size then size else n) = min n size := by split_ifs <;> omega
  unfold Store.krealloc
  rw [if_neg hpos]
  simp only [hI.size_eq hp, hmin, hcall, Option.bind_eq_bind, Option.bind_some]
  obtain ⟨⟨chain₁, hI₁⟩, hnew, -⟩ := Store.kmalloc_spec hI hsize halloc hcall
  obtain ⟨hp₁, hq₁⟩ := handOut_spec size hp hnew
  cases hmemcpy : s₁.memcpy A ptr p (min n size) with
  | none =>
    rw [Store.memcpy] at hmemcpy
    split at hmemcpy
    · cases hmemcpy
    · next hne =>
      rw [Option.map_eq_none_iff] at hmemcpy
      simp only [Option.bind_none, true_iff]
      exact ⟨hmemcpy, by omega⟩
  | some s₂ =>
    obtain ⟨hI₂, -, -, hnothing⟩ := memcpy_block hI₁ hp₁ hq₁ hmemcpy
    obtain ⟨call, s₃, hkfree⟩ := Store.kfree_returns (A := A) hI₂ hp₁
    simp only [Option.bind_some, hkfree, Option.pure_def, reduceCtorEq, false_iff]
    rintro ⟨hptr, hne⟩
    have := hnothing hptr
    omega

/-- After every run: `kcalloc` and `krealloc` return but when `kmalloc` is refused and there are
bytes to be cleared or copied, which they then do through the null pointer. -/
theorem null_loops_iff (A : Overlay) {tags : ℕ → BoundaryTag} {mem : Bytes} {es : List Call}
    {w : DataWorld} (hrun : Trace (DataStep A) (bootData tags mem) es w) {alloc : ℕ → Option ℕ}
    (halloc : Fresh w.regions alloc) :
    (∀ nobj size, nobj * size % 2 ^ 32 < 2 ^ 31 →
      ∃ ptr got s, w.store.kmalloc A alloc (nobj * size % 2 ^ 32) = some (ptr, got, s) ∧
        (w.store.kcalloc A alloc nobj size = none ↔ ptr = none ∧ nobj * size % 2 ^ 32 ≠ 0)) ∧
    ∀ p n size, w.live p = some n → size < 2 ^ 31 → size ≠ 0 →
      ∃ ptr got s, w.store.kmalloc A alloc size = some (ptr, got, s) ∧
        (w.store.krealloc A alloc (some p) size = none ↔ ptr = none ∧ n ≠ 0) := by
  obtain ⟨⟨chain, hI⟩, -⟩ := simulate hrun
  constructor
  · intro nobj size hsize
    exact kcalloc_eq_none_iff hI hsize halloc
  · intro p n size hp hsize hpos
    exact krealloc_eq_none_iff hI hp hsize hpos halloc

/-- The hundred bytes, when five thousand are refused. -/
theorem null_loops_hundred : ∃ w,
    Trace (DataStep plain) (bootData (fun _ => firstTag 0 0) fun _ => 0)
      [.kmalloc 100 (some 0x10020)] w ∧
    (∃ ptr got s, w.store.kmalloc plain (fun _ => none) (3 * 5 % 2 ^ 32) = some (ptr, got, s) ∧
      (w.store.kcalloc plain (fun _ => none) 3 5 = none ↔ ptr = none ∧ 3 * 5 % 2 ^ 32 ≠ 0)) ∧
    ∃ ptr got s, w.store.kmalloc plain (fun _ => none) 5000 = some (ptr, got, s) ∧
      (w.store.krealloc plain (fun _ => none) (some 0x10020) 5000 = none ↔ ptr = none ∧ 100 ≠ 0) := by
  obtain ⟨got, s, hfirst, -⟩ := krealloc_hundred
  have hrun := Trace.cons hfirst (.nil _)
  obtain ⟨hkcalloc, hkrealloc⟩ := null_loops_iff plain hrun (fresh_refused _)
  exact ⟨_, hrun, hkcalloc 3 5 (by decide),
    hkrealloc 0x10020 100 5000 hundred_eq (by decide) (by decide)⟩

end Sakura.Libk.Liballoc
