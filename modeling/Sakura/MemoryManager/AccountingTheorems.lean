import Mathlib.Data.Finset.Card
import Sakura.Lib.Run
import Sakura.MemoryManager.FirstFitTheorems

/-!
# What `UsedMemory` and `TotalMemory` count

`UsedMemory` changes by a page whenever a bit of the bitmap does, so from `physicalAllocatorInit`
on it counts the free pages, downwards from 0 (`Balanced`). Clearing pages is commutative, and the
order of the memory map is of no account (`physicalAllocatorInit_perm`).

But all pages are marked used when `UsedMemory` is 0, and `TotalMemory` counts the pages that are
then freed. The difference of the two, which is printed as the memory that is left, is the free
pages and all the pages there are once more (`accounting_exact_iff`).
-/

namespace Sakura

namespace MemoryManager

open MemoryManagerData

/-! ## The order of the memory map -/

section

variable {d : MemoryManagerData}

/-- A page that is in use is counted back, a free one is not. -/
theorem usedMemory_freePage_ite (d : MemoryManagerData) (a : ℕ) :
    (d.freePage a).usedMemory
      = d.usedMemory - if d.used (pageOf a) = true then BitVec.ofNat 32 pageSize else 0#32 := by
  by_cases h : d.used (pageOf a) = true
  · rw [usedMemory_freePage h, if_pos h]
  · rw [if_neg h, freePage, isUsed, if_neg h, BitVec.sub_zero]

/-- The order in which two pages are freed makes no difference. -/
theorem freePage_comm (d : MemoryManagerData) (a b : ℕ) :
    (d.freePage a).freePage b = (d.freePage b).freePage a := by
  apply MemoryManagerData.ext_used
  · simp only [totalMemory_freePage]
  · simp only [usedMemory_freePage_ite, used_freePage]
    by_cases hab : pageOf a = pageOf b
    · simp only [hab, ne_eq, not_true_eq_false, and_false, if_false]
    · have hba : ¬ pageOf b = pageOf a := fun h => hab h.symm
      simp only [hab, hba, ne_eq, not_false_eq_true, and_true]
      rw [BitVec.sub_sub, BitVec.sub_sub, BitVec.add_comm]
  · intro p
    rw [Bool.eq_iff_iff]
    simp only [used_freePage]
    tauto

/-- The addresses of a run of pages. -/
def addresses (startAddress numPages : ℕ) : List ℕ :=
  (List.range numPages).map fun pageIndex => (startAddress + pageIndex * pageSize) % 2 ^ 32

/-- `physicalFree` is its pages, one after the other. -/
theorem physicalFree_eq (d : MemoryManagerData) (startAddress numPages : ℕ) :
    physicalFree d startAddress numPages = (addresses startAddress numPages).foldl freePage d := by
  rw [physicalFree, addresses, List.foldl_map]

theorem physicalFree_comm (d : MemoryManagerData) (a n b k : ℕ) :
    physicalFree (physicalFree d a n) b k = physicalFree (physicalFree d b k) a n := by
  simp only [physicalFree_eq, ← List.foldl_append]
  exact List.perm_append_comm.foldl_eq' (fun _ _ _ _ d => freePage_comm d _ _) d

end

/-- The order of two entries of the memory map makes no difference. -/
theorem loadEntry_comm (s : BitVec 32 × MemoryManagerData) (e e' : MemoryMap) :
    Multiboot.loadEntry (Multiboot.loadEntry s e) e'
      = Multiboot.loadEntry (Multiboot.loadEntry s e') e := by
  unfold Multiboot.loadEntry
  by_cases he : e.type = 1
  · by_cases he' : e'.type = 1
    · simp only [he, he', if_true, physicalFree_comm s.2]
      rw [BitVec.add_assoc, BitVec.add_assoc, BitVec.add_comm (Multiboot.align e).2]
    · simp only [he, he', if_true, if_false]
  · simp only [he, if_false]

/-- In whatever order the entries come, overlapping or not, the bitmap, `UsedMemory` and
`TotalMemory` end up the same. -/
theorem physicalAllocatorInit_perm (d : MemoryManagerData) {maps maps' : List MemoryMap}
    (h : maps.Perm maps') : physicalAllocatorInit d maps = physicalAllocatorInit d maps' := by
  unfold physicalAllocatorInit Multiboot.loadMemoryMap
  rw [h.foldl_eq' fun e _ e' _ s => loadEntry_comm s e e']

/-- Two regions that overlap. -/
theorem physicalAllocatorInit_swap :
    physicalAllocatorInit ⟨0, 0, ⟨fun _ => 0⟩⟩ [⟨0, 0x9FC00, 1⟩, ⟨0x9F000, 0x8000000, 1⟩]
      = physicalAllocatorInit ⟨0, 0, ⟨fun _ => 0⟩⟩ [⟨0x9F000, 0x8000000, 1⟩, ⟨0, 0x9FC00, 1⟩] :=
  physicalAllocatorInit_perm _ (List.Perm.swap _ _ _)

/-! ## `UsedMemory` and the free pages -/

/-- The free pages of the bitmap. -/
def freePageSet (d : MemoryManagerData) : Finset ℕ :=
  (Finset.range (8 * allocationBytes)).filter fun p => d.used p = false

/-- How many pages are free. -/
def numFree (d : MemoryManagerData) : ℕ := (freePageSet d).card

/-- `UsedMemory` is short of 0 by the free pages. -/
def Balanced (d : MemoryManagerData) : Prop :=
  d.usedMemory + BitVec.ofNat 32 (numFree d * pageSize) = 0#32

section

variable {d : MemoryManagerData} {a n p : ℕ}

theorem mem_freePageSet : p ∈ freePageSet d ↔ InBitmap p ∧ d.used p = false := by
  rw [freePageSet, Finset.mem_filter, Finset.mem_range, InBitmap]

theorem numFree_le (d : MemoryManagerData) : numFree d ≤ 0xFFFF8 := by
  have hle := Finset.card_filter_le (Finset.range (8 * allocationBytes)) fun p => d.used p = false
  rw [Finset.card_range] at hle
  have hbytes : 8 * allocationBytes = 0xFFFF8 := by decide
  rw [numFree, freePageSet]
  omega

/-! ### One page -/

/-- One free page more. -/
theorem numFree_freePage (hp : InBitmap (pageOf a)) (hused : d.used (pageOf a) = true) :
    numFree (d.freePage a) = numFree d + 1 := by
  have hset : freePageSet (d.freePage a) = insert (pageOf a) (freePageSet d) := by
    ext p
    rw [Finset.mem_insert, mem_freePageSet, mem_freePageSet, ← Bool.not_eq_true, used_freePage,
      ← Bool.not_eq_true (d.used p), not_and, not_not]
    constructor
    · rintro ⟨hbit, h⟩
      by_cases hpa : p = pageOf a
      · exact Or.inl hpa
      · exact Or.inr ⟨hbit, fun hu => hpa (h hu)⟩
    · rintro (rfl | ⟨hbit, h⟩)
      · exact ⟨hp, fun _ => rfl⟩
      · exact ⟨hbit, fun hu => absurd hu h⟩
  have hnot : pageOf a ∉ freePageSet d := by
    rw [mem_freePageSet, hused]
    rintro ⟨-, h⟩
    cases h
  rw [numFree, hset, Finset.card_insert_of_notMem hnot, numFree]

/-- One free page less. -/
theorem numFree_allocatePage (hp : InBitmap (pageOf a)) (hfree : d.used (pageOf a) = false) :
    numFree (d.allocatePage a) + 1 = numFree d := by
  have hset : freePageSet (d.allocatePage a) = (freePageSet d).erase (pageOf a) := by
    ext p
    rw [Finset.mem_erase, mem_freePageSet, mem_freePageSet, ← Bool.not_eq_true, used_allocatePage,
      not_or, Bool.not_eq_true]
    tauto
  rw [numFree, hset, Finset.card_erase_add_one (mem_freePageSet.mpr ⟨hp, hfree⟩), numFree]

theorem balanced_freePage (h : Balanced d) (hp : InBitmap (pageOf a)) :
    Balanced (d.freePage a) := by
  by_cases hused : d.used (pageOf a) = true
  · rw [Balanced, usedMemory_freePage hused, numFree_freePage hp hused, ofNat_succ_mul,
      BitVec.add_comm (BitVec.ofNat 32 (numFree d * pageSize)), ← BitVec.add_assoc,
      BitVec.sub_add_cancel]
    exact h
  · rw [freePage, isUsed, if_neg hused]
    exact h

theorem balanced_allocatePage (h : Balanced d) (hp : InBitmap (pageOf a)) :
    Balanced (d.allocatePage a) := by
  by_cases hused : d.used (pageOf a) = true
  · rw [allocatePage_of_used hused]
    exact h
  · rw [Bool.not_eq_true] at hused
    rw [Balanced, ← numFree_allocatePage hp hused, ofNat_succ_mul] at h
    rw [Balanced, usedMemory_allocatePage hused, BitVec.add_assoc,
      BitVec.add_comm (BitVec.ofNat 32 pageSize)]
    exact h

/-! ### Runs of pages -/

/-- Giving pages back keeps the account, if they are in the bitmap. -/
theorem balanced_physicalFree (h : Balanced d) (hp : ∀ p, InRun (pageOf a) n p → InBitmap p) :
    Balanced (physicalFree d a n) := by
  induction n with
  | zero => exact h
  | succ n ih =>
    rw [physicalFree_succ]
    apply balanced_freePage (ih fun p hrun => hp p (inRun_succ.mpr (Or.inl hrun)))
    rw [pageOf_mod, pageOf_add_mul]
    exact hp _ (inRun_succ.mpr (Or.inr rfl))

/-- Taking pages keeps the account, if they are in the bitmap. -/
theorem balanced_physicalAllocateAt (h : Balanced d)
    (hp : ∀ p, InRun (pageOf a) n p → InBitmap p) : Balanced (physicalAllocateAt d a n) := by
  induction n with
  | zero => exact h
  | succ n ih =>
    rw [physicalAllocateAt_succ]
    apply balanced_allocatePage (ih fun p hrun => hp p (inRun_succ.mpr (Or.inl hrun)))
    rw [pageOf_mod, pageOf_add_mul]
    exact hp _ (inRun_succ.mpr (Or.inr rfl))

/-- Pages that are all used become free one by one. -/
theorem numFree_physicalFree (hn : n ≤ 2 ^ 20)
    (hp : ∀ p, InRun (pageOf a) n p → InBitmap p ∧ d.used p = true) :
    numFree (physicalFree d a n) = numFree d + n := by
  induction n with
  | zero => rw [physicalFree_zero, Nat.add_zero]
  | succ n ih =>
    have hrest := ih (by omega) fun p hrun => hp p (inRun_succ.mpr (Or.inl hrun))
    have hpage : pageOf ((a + n * pageSize) % 2 ^ 32) = (pageOf a + n) % 2 ^ 20 := by
      rw [pageOf_mod, pageOf_add_mul]
    obtain ⟨hbit, hused⟩ := hp _ (inRun_succ.mpr (Or.inr rfl))
    have hstill : (physicalFree d a n).used ((pageOf a + n) % 2 ^ 20) = true :=
      (used_physicalFree d a n _).mpr ⟨hused, not_inRun_end (by omega)⟩
    rw [physicalFree_succ, numFree_freePage (by rw [hpage]; exact hbit) (by rw [hpage]; exact hstill),
      hrest, Nat.add_assoc]

end

/-! ## After `physicalAllocatorInit` -/

end MemoryManager

open MemoryManager

namespace MemoryMap

/-- Some byte belongs to both regions. -/
def Overlaps (e e' : MemoryMap) : Prop :=
  ∃ x, (e.address.toNat ≤ x ∧ x < e.address.toNat + e.length.toNat) ∧
    e'.address.toNat ≤ x ∧ x < e'.address.toNat + e'.length.toNat

/-- Two entries that cover one page overlap. -/
theorem overlaps_of_covers {e e' : MemoryMap} {p : ℕ} (h : e.Covers p) (h' : e'.Covers p) :
    e.Overlaps e' := by
  obtain ⟨h1, h2⟩ := h
  obtain ⟨h3, h4⟩ := h'
  rw [pageSize] at *
  exact ⟨p * 0x1000, by omega, by omega⟩

/-- The available regions are page-aligned and disjoint, and lie below the end of the bitmap. -/
structure AlignedRegions (maps : List MemoryMap) : Prop where
  aligned : ∀ e ∈ maps, e.Available → e.address.toNat % pageSize = 0
  below : ∀ e ∈ maps, e.Available → e.address.toNat + e.length.toNat ≤ 0xFFFF8000
  disjoint : maps.Pairwise fun e e' => e.Available → e'.Available → ¬ e.Overlaps e'

/-- Page `p` lies in a region of available memory. -/
def RegionPage (maps : List MemoryMap) (p : ℕ) : Prop := ∃ e ∈ maps, e.Available ∧ e.Covers p

section

variable {e : MemoryMap} {maps : List MemoryMap} {p : ℕ}

theorem AlignedRegions.tail (h : AlignedRegions (e :: maps)) : AlignedRegions maps :=
  ⟨fun e' he' => h.aligned e' (List.mem_cons_of_mem _ he'),
    fun e' he' => h.below e' (List.mem_cons_of_mem _ he'), (List.pairwise_cons.mp h.disjoint).2⟩

/-- An aligned region frees its own pages. -/
theorem AlignedRegions.frees_iff (h : AlignedRegions maps) (he : e ∈ maps) (hav : e.Available) :
    e.Frees p ↔ e.Covers p := by
  have haligned := h.aligned e he hav
  have hbelow := h.below e he hav
  constructor
  · apply covers_of_not_overruns
    rintro (hend | ⟨hstart, -⟩)
    · omega
    · exact hstart haligned
  · intro hcov
    obtain ⟨h1, h2⟩ := hcov
    have hlen : e.length.toNat % 2 ^ 32 = e.length.toNat := Nat.mod_eq_of_lt (by omega)
    rw [Frees, firstPage, pageCount, if_pos haligned, hlen]
    rw [pageSize] at *
    exact (inRun_iff (by omega)).mpr ⟨by omega, by omega⟩

theorem AlignedRegions.inBitmap (h : AlignedRegions maps) (hp : RegionPage maps p) : InBitmap p := by
  obtain ⟨e, he, hav, -, hend⟩ := hp
  have hbelow := h.below e he hav
  have hbytes : 8 * allocationBytes = 0xFFFF8 := by decide
  rw [InBitmap, hbytes]
  rw [pageSize] at hend
  omega

/-- Of an aligned entry the whole pages are left. -/
theorem trimmedLength_aligned (h : e.address.toNat % pageSize = 0) :
    e.trimmedLength = e.pageCount * pageSize := by
  rw [trimmedLength, pageCount, if_pos h, if_pos h]

theorem pageCount_le (e : MemoryMap) : e.pageCount ≤ 2 ^ 20 := by
  have hlen : e.length.toNat % 2 ^ 32 < 2 ^ 32 := Nat.mod_lt _ (by decide)
  rw [pageCount, pageSize]
  split
  · omega
  · split <;> omega

end

end MemoryMap

namespace MemoryManager

open MemoryManagerData MemoryMap

/-- What `loadMemoryMap` keeps: the total is the size of the pages that are free. -/
structure Loaded (s : BitVec 32 × MemoryManagerData) : Prop where
  balanced : Balanced s.2
  total : s.1 = BitVec.ofNat 32 (numFree s.2 * pageSize)

section

variable {s : BitVec 32 × MemoryManagerData} {maps : List MemoryMap} {e : MemoryMap}

/-- An entry whose pages are all used. -/
theorem Loaded.loadEntry (h : Loaded s) (haligned : e.Available → e.address.toNat % pageSize = 0)
    (hpages : e.Available → ∀ p, e.Frees p → InBitmap p ∧ s.2.used p = true) :
    Loaded (Multiboot.loadEntry s e) := by
  rw [Multiboot.loadEntry]
  split
  · rename_i hav
    have hruns : ∀ p, InRun (pageOf (Multiboot.align e).1.toNat) e.pageCount p →
        InBitmap p ∧ s.2.used p = true := by
      rw [Multiboot.pageOf_align]
      exact hpages hav
    rw [Multiboot.toNat_align_snd, Multiboot.trimmedLength_div]
    refine ⟨balanced_physicalFree h.balanced fun p hp => (hruns p hp).1, ?_⟩
    have hlen : (Multiboot.align e).2 = BitVec.ofNat 32 (e.pageCount * pageSize) := by
      rw [← trimmedLength_aligned (haligned hav), ← Multiboot.toNat_align_snd, BitVec.ofNat_toNat,
        BitVec.setWidth_eq]
    rw [numFree_physicalFree (pageCount_le e) hruns, h.total, hlen, ← BitVec.ofNat_add,
      ← Nat.add_mul]
  · exact h

/-- The entries, one after the other. -/
theorem Loaded.loadMemoryMap (maps : List MemoryMap) : ∀ {s : BitVec 32 × MemoryManagerData},
    Loaded s → AlignedRegions maps →
    (∀ e ∈ maps, e.Available → ∀ p, e.Frees p → s.2.used p = true) →
    Loaded (maps.foldl Multiboot.loadEntry s) := by
  induction maps with
  | nil => intro s h _ _; exact h
  | cons e maps ih =>
    intro s h hmaps hused
    have hpages : e.Available → ∀ p, e.Frees p → InBitmap p ∧ s.2.used p = true := by
      intro hav p hp
      have hcov := (hmaps.frees_iff List.mem_cons_self hav).mp hp
      exact ⟨hmaps.inBitmap ⟨e, List.mem_cons_self, hav, hcov⟩, hused e List.mem_cons_self hav p hp⟩
    rw [List.foldl_cons]
    apply ih (h.loadEntry (hmaps.aligned e List.mem_cons_self) hpages) hmaps.tail
    -- the pages of the other regions are not touched
    intro e' he' hav' p hp
    have hmem' := List.mem_cons_of_mem e he'
    rw [Multiboot.used_loadEntry]
    refine ⟨hused e' hmem' hav' p hp, ?_⟩
    intro hav hfrees
    apply (List.pairwise_cons.mp hmaps.disjoint).1 e' he' hav hav'
    exact overlaps_of_covers ((hmaps.frees_iff List.mem_cons_self hav).mp hfrees)
      ((hmaps.frees_iff hmem' hav').mp hp)

end

/-- With everything used there is nothing free. -/
theorem loaded_filled (d : MemoryManagerData) :
    Loaded (0, { d with usedMemory := 0, physicalAllocation := fillBitmap d.physicalAllocation }) := by
  have hzero : numFree { d with
      usedMemory := 0, physicalAllocation := fillBitmap d.physicalAllocation } = 0 := by
    rw [numFree, Finset.card_eq_zero, Finset.eq_empty_iff_forall_notMem]
    intro p hp
    obtain ⟨hbit, hfree⟩ := mem_freePageSet.mp hp
    exact Bool.false_ne_true (hfree.symm.trans (isSet_fillBitmap d.physicalAllocation hbit))
  refine ⟨?_, ?_⟩
  · rw [Balanced, hzero]
    rfl
  · rw [hzero]
    rfl

/-- After `physicalAllocatorInit` `TotalMemory` is the free pages, and `UsedMemory` is short of 0
by them. -/
theorem loaded_init (d : MemoryManagerData) {maps : List MemoryMap} (hmaps : AlignedRegions maps) :
    Balanced (physicalAllocatorInit d maps) ∧ (physicalAllocatorInit d maps).totalMemory
      = BitVec.ofNat 32 (numFree (physicalAllocatorInit d maps) * pageSize) := by
  have h := (loaded_filled d).loadMemoryMap maps hmaps fun e he hav p hp =>
    isSet_fillBitmap d.physicalAllocation
      (hmaps.inBitmap ⟨e, he, hav, (hmaps.frees_iff he hav).mp hp⟩)
  exact ⟨h.balanced, h.total⟩

/-- Nothing is free exactly if no available region holds a page. -/
theorem numFree_init_eq_zero (d : MemoryManagerData) {maps : List MemoryMap}
    (hmaps : AlignedRegions maps) : numFree (physicalAllocatorInit d maps) = 0 ↔
      ∀ e ∈ maps, e.Available → e.length.toNat < pageSize := by
  have hfree : ∀ {p}, InBitmap p →
      ((physicalAllocatorInit d maps).used p = false ↔ RegionPage maps p) := by
    intro p hp
    rw [← Bool.not_eq_true, used_physicalAllocatorInit d maps hp]
    push Not
    constructor
    · rintro ⟨e, he, hav, hfrees⟩
      exact ⟨e, he, hav, (hmaps.frees_iff he hav).mp hfrees⟩
    · rintro ⟨e, he, hav, hcov⟩
      exact ⟨e, he, hav, (hmaps.frees_iff he hav).mpr hcov⟩
  rw [numFree, Finset.card_eq_zero, Finset.eq_empty_iff_forall_notMem]
  constructor
  · intro hnone e he hav
    by_contra hlong
    -- the first page of the region
    have haligned := hmaps.aligned e he hav
    have hpage : RegionPage maps (e.address.toNat / pageSize) := by
      refine ⟨e, he, hav, ?_⟩
      rw [Covers]
      rw [pageSize] at *
      omega
    have hbit := hmaps.inBitmap hpage
    exact hnone _ (mem_freePageSet.mpr ⟨hbit, (hfree hbit).mpr hpage⟩)
  · intro hshort p hp
    obtain ⟨hbit, hunused⟩ := mem_freePageSet.mp hp
    obtain ⟨e, he, hav, h1, h2⟩ := (hfree hbit).mp hunused
    have hlen := hshort e he hav
    rw [pageSize] at *
    omega

/-! ## Every sequence of calls -/

namespace AllocatorCall

/-- The pages a call is about: those it is given, or those it finds. -/
def Concerns (d : MemoryManagerData) (p : ℕ) : AllocatorCall → Prop
  | allocate numPages => d.used p = false ∧ (physicalAllocate d numPages).2.used p = true
  | allocateAt startAddress numPages => InRun (pageOf startAddress) numPages p
  | free startAddress numPages => InRun (pageOf startAddress) numPages p

/-- A call keeps the account, if its pages are in the bitmap. -/
theorem balanced_run {d : MemoryManagerData} (c : AllocatorCall) (h : Balanced d)
    (hpages : ∀ p, c.Concerns d p → InBitmap p) : Balanced (c.run d) := by
  cases c with
  | allocate numPages =>
    rw [run]
    rcases physicalAllocate_cases d numPages with ⟨k, hk, hfree, -, halloc⟩ | ⟨-, halloc⟩
    · rw [halloc]
      apply balanced_physicalAllocateAt h
      intro p hp
      rw [pageOf_mul_of_lt (Nat.lt_trans hk (totalMemory_div_lt d))] at hp
      apply hpages p
      rw [Concerns, halloc, used_physicalAllocateAt,
        pageOf_mul_of_lt (Nat.lt_trans hk (totalMemory_div_lt d))]
      exact ⟨hfree p hp, Or.inr hp⟩
    · rw [halloc]
      exact h
  | allocateAt startAddress numPages => exact balanced_physicalAllocateAt h hpages
  | free startAddress numPages => exact balanced_physicalFree h hpages

theorem totalMemory_run (d : MemoryManagerData) (c : AllocatorCall) :
    (c.run d).totalMemory = d.totalMemory := by
  cases c with
  | allocate numPages => exact totalMemory_physicalAllocate d numPages
  | allocateAt startAddress numPages => exact totalMemory_physicalAllocateAt d _ _
  | free startAddress numPages => exact totalMemory_physicalFree d _ _

end AllocatorCall

/-- A call on pages of the regions. -/
def RegionStep (maps : List MemoryMap) (d d' : MemoryManagerData) : Prop :=
  ∃ c : AllocatorCall, (∀ p, c.Concerns d p → RegionPage maps p) ∧ d' = c.run d

/-- The memory that is left, as `physicalAllocate` reports it, is that of the free pages. -/
def ExactlyLeft (d : MemoryManagerData) : Prop :=
  (d.totalMemory - d.usedMemory).toNat = pageSize * numFree d

/-- What a balanced allocator reports is `TotalMemory` too much. -/
theorem exactlyLeft_iff {d : MemoryManagerData} {k : ℕ} (h : Balanced d)
    (htotal : d.totalMemory = BitVec.ofNat 32 (k * pageSize)) (hk : k ≤ 0xFFFF8) :
    ExactlyLeft d ↔ k = 0 := by
  have hle := numFree_le d
  have hused : d.totalMemory - d.usedMemory = BitVec.ofNat 32 ((k + numFree d) * pageSize) := by
    rw [Nat.add_mul, BitVec.ofNat_add, ← htotal]
    have hneg : d.usedMemory = -BitVec.ofNat 32 (numFree d * pageSize) := by
      rw [← BitVec.zero_sub, ← h, BitVec.add_sub_cancel]
    rw [hneg, BitVec.sub_neg]
  rw [ExactlyLeft, hused, BitVec.toNat_ofNat, pageSize]
  omega

/-- The invariant of a run: the free pages are counted, and so are the pages there were. -/
theorem balanced_runs {maps : List MemoryMap} {d d' : MemoryManagerData}
    (hmaps : AlignedRegions maps) (hrun : Relation.ReflTransGen (RegionStep maps) d d')
    (h : Balanced d) : Balanced d' ∧ d'.totalMemory = d.totalMemory := by
  have hstep : ∀ d₁ d₂, (Balanced d₁ ∧ d₁.totalMemory = d.totalMemory) → RegionStep maps d₁ d₂ →
      Balanced d₂ ∧ d₂.totalMemory = d.totalMemory := by
    rintro d₁ d₂ ⟨hbal, htotal⟩ ⟨c, hc, rfl⟩
    refine ⟨c.balanced_run hbal fun p hp => hmaps.inBitmap (hc p hp), ?_⟩
    rw [c.totalMemory_run, htotal]
  exact @Run.invariant _ _ (fun d' => Balanced d' ∧ d'.totalMemory = d.totalMemory) _ _ hrun
    ⟨h, rfl⟩ hstep

/-- In every state of every run the memory that is left is reported rightly exactly if there is no
memory. -/
theorem accounting_exact_iff (d : MemoryManagerData) (maps : List MemoryMap)
    (hmaps : AlignedRegions maps) {d' : MemoryManagerData}
    (hrun : Relation.ReflTransGen (RegionStep maps) (physicalAllocatorInit d maps) d') :
    ExactlyLeft d' ↔ ∀ e ∈ maps, e.Available → e.length.toNat < pageSize := by
  obtain ⟨hbal, htotal⟩ := loaded_init d hmaps
  obtain ⟨hbal', htotal'⟩ := balanced_runs hmaps hrun hbal
  rw [exactlyLeft_iff hbal' (htotal'.trans htotal) (numFree_le _), numFree_init_eq_zero d hmaps]

/-- A map of reserved memory: nothing is left, and nothing is reported. -/
theorem accounting_exact_reserved :
    ExactlyLeft (physicalAllocatorInit ⟨0, 0, ⟨fun _ => 0⟩⟩ [⟨0, 0x8000000, 2⟩]) := by
  refine (accounting_exact_iff _ _ ⟨?_, ?_, List.pairwise_singleton _ _⟩ .refl).mpr ?_ <;>
  · intro e he hav
    rw [List.mem_singleton] at he
    rw [he] at hav
    exact absurd hav (by decide)

/-- 128 MiB of memory are reported as 256 MiB. -/
theorem accounting_doubled :
    AlignedRegions [⟨0, 0x8000000, 1⟩] ∧
      ¬ ExactlyLeft (physicalAllocatorInit ⟨0, 0, ⟨fun _ => 0⟩⟩ [⟨0, 0x8000000, 1⟩]) := by
  have hmaps : AlignedRegions [⟨0, 0x8000000, 1⟩] :=
    ⟨by decide, by decide, List.pairwise_singleton _ _⟩
  refine ⟨hmaps, ?_⟩
  obtain ⟨hbal, htotal⟩ := loaded_init ⟨0, 0, ⟨fun _ => 0⟩⟩ hmaps
  rw [exactlyLeft_iff hbal htotal (numFree_le _), numFree_init_eq_zero _ hmaps]
  decide

end MemoryManager

end Sakura
