import Sakura.Lib.Bitmap
import Sakura.MemoryManager.Paging

/-!
# The physical allocator

`PhysicalAllocator.cpp`: one bit for every page of the 32-bit address space, and the
first-fit search over it. Addresses are 32-bit, so a run that reaches the top of the
address space goes on at page 0; `InRun` is the set of pages such a run touches.

`PhysicalAllocation` has `ALLOCATION_BYTES = 131071` bytes, eight pages short of the
address space. The byte index of the last eight pages is 131071, the tail padding of
`memManData`, so the bitmap is modelled with that byte and `physicalAllocatorInit` leaves
it as it was.
-/

namespace Sakura.MemoryManager

/-- `ALLOCATION_BYTES`. -/
def allocationBytes : ℕ := maxNumPhysicalPages / 8

/-- `MemoryManagerData`. -/
structure MemoryManagerData where
  totalMemory : BitVec 32
  usedMemory : BitVec 32
  physicalAllocation : Bitmap

namespace MemoryManagerData

/-- Whether a page is marked used. -/
def used (d : MemoryManagerData) (page : ℕ) : Bool := d.physicalAllocation.isSet page

/-- `PHYSICAL_ALLOCATOR_IS_USED`. -/
def isUsed (d : MemoryManagerData) (pageAddress : ℕ) : Bool := d.used (pageOf pageAddress)

/-- One iteration of `physicalAllocate(startAddress, numPages)`. -/
def allocatePage (d : MemoryManagerData) (address : ℕ) : MemoryManagerData :=
  if d.isUsed address then d
  else { d with
    usedMemory := d.usedMemory + BitVec.ofNat 32 pageSize
    physicalAllocation := d.physicalAllocation.set (pageOf address) }

/-- One iteration of `physicalFree`. -/
def freePage (d : MemoryManagerData) (address : ℕ) : MemoryManagerData :=
  if d.isUsed address then { d with
    usedMemory := d.usedMemory - BitVec.ofNat 32 pageSize
    physicalAllocation := d.physicalAllocation.clear (pageOf address) }
  else d

end MemoryManagerData

open MemoryManagerData

def isPhysicalFree (d : MemoryManagerData) (startAddress numPages : ℕ) : Bool :=
  (List.range numPages).all fun pageIndex =>
    !d.isUsed ((startAddress + pageIndex * pageSize) % 2 ^ 32)

/-- `physicalAllocate(startAddress, numPages)`: pages that are already used are passed
over in silence. -/
def physicalAllocateAt (d : MemoryManagerData) (startAddress numPages : ℕ) :
    MemoryManagerData :=
  (List.range numPages).foldl
    (fun d pageIndex => d.allocatePage ((startAddress + pageIndex * pageSize) % 2 ^ 32)) d

def physicalFree (d : MemoryManagerData) (startAddress numPages : ℕ) : MemoryManagerData :=
  (List.range numPages).foldl
    (fun d pageIndex => d.freePage ((startAddress + pageIndex * pageSize) % 2 ^ 32)) d

/-- `physicalAllocate(numPages)`: the first page from which `numPages` pages are free. The
search stops at `TotalMemory`, and failure is reported as address 0. -/
def physicalAllocate (d : MemoryManagerData) (numPages : ℕ) : ℕ × MemoryManagerData :=
  match (List.range (d.totalMemory.toNat / pageSize)).find?
      fun pageIndex => isPhysicalFree d (pageIndex * pageSize) numPages with
  | some pageIndex =>
    (pageIndex * pageSize, physicalAllocateAt d (pageIndex * pageSize) numPages)
  | none => (0, d)

/-! ## What the loops do to the bitmap -/

/-- Page `p` is one of the `n` pages from page `k` on, counted modulo `2 ^ 20`. -/
def InRun (k n p : ℕ) : Prop := ∃ i < n, p = (k + i) % 2 ^ 20

theorem InRun.lt {k n p : ℕ} (h : InRun k n p) : p < 2 ^ 20 := by
  obtain ⟨i, _, rfl⟩ := h
  omega

theorem not_inRun_zero (k p : ℕ) : ¬ InRun k 0 p := by
  rintro ⟨i, hi, _⟩
  omega

theorem inRun_succ {k n p : ℕ} : InRun k (n + 1) p ↔ InRun k n p ∨ p = (k + n) % 2 ^ 20 := by
  constructor
  · rintro ⟨i, hi, hp⟩
    rcases Nat.lt_succ_iff_lt_or_eq.mp hi with h | h
    · exact Or.inl ⟨i, h, hp⟩
    · exact Or.inr (h ▸ hp)
  · rintro (⟨i, hi, hp⟩ | hp)
    · exact ⟨i, by omega, hp⟩
    · exact ⟨n, by omega, hp⟩

/-- A run that ends inside the address space is an interval. -/
theorem inRun_iff {k n p : ℕ} (h : k + n ≤ 2 ^ 20) : InRun k n p ↔ k ≤ p ∧ p < k + n := by
  constructor
  · rintro ⟨i, hi, rfl⟩
    omega
  · rintro ⟨h1, h2⟩
    exact ⟨p - k, by omega, by omega⟩

@[simp] theorem totalMemory_allocatePage (d : MemoryManagerData) (a : ℕ) :
    (d.allocatePage a).totalMemory = d.totalMemory := by
  rw [allocatePage]; split <;> rfl

@[simp] theorem totalMemory_freePage (d : MemoryManagerData) (a : ℕ) :
    (d.freePage a).totalMemory = d.totalMemory := by
  rw [freePage]; split <;> rfl

/-- One page is marked used. -/
theorem used_allocatePage (d : MemoryManagerData) (a p : ℕ) :
    (d.allocatePage a).used p = true ↔ d.used p = true ∨ p = pageOf a := by
  rw [allocatePage]
  split
  · rename_i h
    constructor
    · exact Or.inl
    · rintro (hp | rfl)
      · exact hp
      · exact h
  · simp only [used, Bitmap.isSet_set, Bool.or_eq_true, decide_eq_true_eq]
    exact or_comm

/-- One page is marked free. -/
theorem used_freePage (d : MemoryManagerData) (a p : ℕ) :
    (d.freePage a).used p = true ↔ d.used p = true ∧ p ≠ pageOf a := by
  rw [freePage]
  split
  · simp only [used, Bitmap.isSet_clear, Bool.and_eq_true, Bool.not_eq_true',
      decide_eq_false_iff_not]
    exact and_comm
  · rename_i h
    constructor
    · intro hp
      refine ⟨hp, ?_⟩
      rintro rfl
      exact h hp
    · exact And.left

/-- The loop, with one page more. -/
theorem physicalAllocateAt_succ (d : MemoryManagerData) (a n : ℕ) :
    physicalAllocateAt d a (n + 1)
      = (physicalAllocateAt d a n).allocatePage ((a + n * pageSize) % 2 ^ 32) := by
  rw [physicalAllocateAt, List.range_succ, List.foldl_append]
  rfl

/-- The loop, with one page more. -/
theorem physicalFree_succ (d : MemoryManagerData) (a n : ℕ) :
    physicalFree d a (n + 1)
      = (physicalFree d a n).freePage ((a + n * pageSize) % 2 ^ 32) := by
  rw [physicalFree, List.range_succ, List.foldl_append]
  rfl

@[simp] theorem physicalAllocateAt_zero (d : MemoryManagerData) (a : ℕ) :
    physicalAllocateAt d a 0 = d := rfl

@[simp] theorem physicalFree_zero (d : MemoryManagerData) (a : ℕ) :
    physicalFree d a 0 = d := rfl

@[simp] theorem totalMemory_physicalAllocateAt (d : MemoryManagerData) (a n : ℕ) :
    (physicalAllocateAt d a n).totalMemory = d.totalMemory := by
  induction n with
  | zero => rfl
  | succ n ih => rw [physicalAllocateAt_succ, totalMemory_allocatePage, ih]

@[simp] theorem totalMemory_physicalFree (d : MemoryManagerData) (a n : ℕ) :
    (physicalFree d a n).totalMemory = d.totalMemory := by
  induction n with
  | zero => rfl
  | succ n ih => rw [physicalFree_succ, totalMemory_freePage, ih]

/-- Reserving a range marks exactly its pages. -/
theorem used_physicalAllocateAt (d : MemoryManagerData) (a n p : ℕ) :
    (physicalAllocateAt d a n).used p = true ↔ d.used p = true ∨ InRun (pageOf a) n p := by
  induction n with
  | zero => simp [not_inRun_zero]
  | succ n ih =>
    rw [physicalAllocateAt_succ, used_allocatePage, ih, pageOf_mod, pageOf_add_mul, inRun_succ,
      or_assoc]

/-- Freeing a range clears exactly its pages. -/
theorem used_physicalFree (d : MemoryManagerData) (a n p : ℕ) :
    (physicalFree d a n).used p = true ↔ d.used p = true ∧ ¬ InRun (pageOf a) n p := by
  induction n with
  | zero => simp [not_inRun_zero]
  | succ n ih =>
    rw [physicalFree_succ, used_freePage, ih, pageOf_mod, pageOf_add_mul, inRun_succ]
    tauto

/-- The answer is about each page of the run. -/
theorem isPhysicalFree_iff (d : MemoryManagerData) (a n : ℕ) :
    isPhysicalFree d a n = true ↔ ∀ p, InRun (pageOf a) n p → d.used p = false := by
  simp only [isPhysicalFree, List.all_eq_true, List.mem_range, isUsed, pageOf_mod,
    pageOf_add_mul, Bool.not_eq_true']
  constructor
  · rintro h p ⟨i, hi, rfl⟩
    exact h i hi
  · intro h i hi
    exact h _ ⟨i, hi, rfl⟩

/-! ## The first-fit search -/

/-- The `n` pages from page `k` on are all free. -/
def FreeRun (d : MemoryManagerData) (k n : ℕ) : Prop := ∀ p, InRun k n p → d.used p = false

/-- The bound of the search is below the number of pages. -/
theorem totalMemory_div_lt (d : MemoryManagerData) : d.totalMemory.toNat / pageSize < 2 ^ 20 := by
  have h := d.totalMemory.isLt
  rw [pageSize]; omega

/-- The same, for a run that is named by its first page. -/
theorem isPhysicalFree_mul (d : MemoryManagerData) {k : ℕ} (n : ℕ) (hk : k < 2 ^ 20) :
    isPhysicalFree d (k * pageSize) n = true ↔ FreeRun d k n := by
  rw [isPhysicalFree_iff, pageOf_mul_pageSize, Nat.mod_eq_of_lt hk]
  rfl

/-- All that `physicalAllocate(n)` can do: it takes the first run of `n` free pages that
starts below `TotalMemory`, or there is none and nothing changes. -/
theorem physicalAllocate_cases (d : MemoryManagerData) (n : ℕ) :
    (∃ k < d.totalMemory.toNat / pageSize, FreeRun d k n ∧ (∀ j < k, ¬ FreeRun d j n) ∧
      physicalAllocate d n = (k * pageSize, physicalAllocateAt d (k * pageSize) n)) ∨
    ((∀ k < d.totalMemory.toNat / pageSize, ¬ FreeRun d k n) ∧
      physicalAllocate d n = (0, d)) := by
  have htot := totalMemory_div_lt d
  cases hfind : (List.range (d.totalMemory.toNat / pageSize)).find?
      (fun pageIndex => isPhysicalFree d (pageIndex * pageSize) n) with
  | some k =>
    left
    obtain ⟨hfree, hmem, hfirst⟩ := List.find?_range_eq_some.mp hfind
    have hk : k < d.totalMemory.toNat / pageSize := List.mem_range.mp hmem
    refine ⟨k, hk, (isPhysicalFree_mul d n (by omega)).mp hfree, ?_, ?_⟩
    · intro j hj hrun
      have hj' := hfirst j hj
      rw [(isPhysicalFree_mul d n (by omega)).mpr hrun] at hj'
      exact absurd hj' (by decide)
    · rw [physicalAllocate, hfind]
  | none =>
    right
    have hnone := List.find?_range_eq_none.mp hfind
    refine ⟨?_, ?_⟩
    · intro k hk hrun
      have hk' := hnone k hk
      rw [(isPhysicalFree_mul d n (by omega)).mpr hrun] at hk'
      exact absurd hk' (by decide)
    · rw [physicalAllocate, hfind]

@[simp] theorem totalMemory_physicalAllocate (d : MemoryManagerData) (n : ℕ) :
    (physicalAllocate d n).2.totalMemory = d.totalMemory := by
  rcases physicalAllocate_cases d n with ⟨k, _, _, _, h⟩ | ⟨_, h⟩ <;> rw [h]
  exact totalMemory_physicalAllocateAt d _ n

end Sakura.MemoryManager
