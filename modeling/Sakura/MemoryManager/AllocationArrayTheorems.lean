import Sakura.MemoryManager.AllocationArray

/-!
# Which addresses the bitmap covers

As long as an address has its byte in the array, the functions on the array do what those on
`MemoryManagerData` do (`physicalFree_inside` and its siblings).

`TOTAL_MEMORY` is a byte short of the address space. The divisions that make `ALLOCATION_BYTES`
of it round down to the eight pages of a byte, and these pages have none
(`bitmap_covers_iff`).
-/

namespace Sakura.MemoryManager.AllocatorArray

open MemoryManager (MemoryManagerData)

variable {d : AllocatorArray} {a startAddress numPages : ℕ}

/-- The byte of the page lies in the array. -/
def Inside (pageAddress : ℕ) : Prop := byteIndex pageAddress < allocationBytes

instance (a : ℕ) : Decidable (Inside a) := inferInstanceAs (Decidable (_ < _))

/-! ## One page -/

/-- Inside the array the bit is that of the bitmap. -/
theorem isUsed_inside (beyond : ℕ → BitVec 8) (h : Inside a) : d.isUsed a = some ((d.data beyond).isUsed a) := by
  unfold isUsed MemoryManagerData.isUsed MemoryManagerData.used Bitmap.isSet data
  have hlt : byteIndex a < allocationBytes := h
  have hget : d.physicalAllocation[byteIndex a]? = some d.physicalAllocation[byteIndex a] :=
    Vector.getElem?_eq_getElem hlt
  have hbyte : pageOf a / 8 = byteIndex a := rfl
  simp only [hbyte, hget, Option.map_some, Option.getD_some]
  rfl

/-- Outside there is none. -/
theorem isUsed_outside (h : ¬ Inside a) : d.isUsed a = none := by
  unfold isUsed
  rw [Vector.getElem?_eq_none (Nat.le_of_not_lt h)]
  rfl

/-- An assignment in the array is the same assignment among all the bytes. -/
theorem assign_inside (beyond : ℕ → BitVec 8) (h : Inside a) (f : BitVec 8 → BitVec 8) :
    ∃ d', d.assign a f = some d' ∧ d'.data beyond = { d.data beyond with
      physicalAllocation := ⟨Function.update (d.data beyond).physicalAllocation.byte (pageOf a / 8)
        (f ((d.data beyond).physicalAllocation.byte (pageOf a / 8)))⟩ } := by
  refine ⟨_, dif_pos h, ?_⟩
  have hbyte : pageOf a / 8 = byteIndex a := rfl
  have hlt : byteIndex a < allocationBytes := h
  unfold data
  congr 2
  funext i
  rw [hbyte]
  by_cases hi : i = byteIndex a
  · subst hi
    rw [Function.update_self]
    simp only [Vector.getElem?_eq_getElem hlt, Option.getD_some]
    exact Vector.getElem_set_self hlt
  · rw [Function.update_of_ne hi]
    simp only [Vector.getElem?_set_ne hlt (Ne.symm hi)]

/-- Setting a bit, once `usedMemory` has been counted. -/
theorem set_inside (beyond : ℕ → BitVec 8) (usedMemory : BitVec 32) (h : Inside a) :
    ∃ d', set { d with usedMemory := usedMemory } a = some d' ∧ d'.data beyond
      = ⟨d.totalMemory, usedMemory, (d.data beyond).physicalAllocation.set (pageOf a)⟩ :=
  assign_inside beyond h _

theorem clear_inside (beyond : ℕ → BitVec 8) (usedMemory : BitVec 32) (h : Inside a) :
    ∃ d', clear { d with usedMemory := usedMemory } a = some d' ∧ d'.data beyond
      = ⟨d.totalMemory, usedMemory, (d.data beyond).physicalAllocation.clear (pageOf a)⟩ :=
  assign_inside beyond h _

/-- One iteration of a loop over pages, on the array and on all the bytes. -/
structure SamePage (step : AllocatorArray → ℕ → Option AllocatorArray)
    (step' : MemoryManagerData → ℕ → MemoryManagerData) : Prop where
  inside : ∀ d beyond a, Inside a →
    ∃ d', step d a = some d' ∧ d'.data beyond = step' (d.data beyond) a
  outside : ∀ d a, ¬ Inside a → step d a = none

/-- Marking a page used, in the array and in the bitmap. -/
theorem samePage_allocatePage : SamePage allocatePage MemoryManagerData.allocatePage := by
  refine ⟨?_, ?_⟩
  · intro d beyond a h
    unfold allocatePage MemoryManagerData.allocatePage
    rw [isUsed_inside beyond h]
    cases (d.data beyond).isUsed a with
    | true => exact ⟨d, rfl, rfl⟩
    | false => exact set_inside beyond _ h
  · intro d a h
    unfold allocatePage
    rw [isUsed_outside h]
    rfl

/-- Marking a page free. -/
theorem samePage_freePage : SamePage freePage MemoryManagerData.freePage := by
  refine ⟨?_, ?_⟩
  · intro d beyond a h
    unfold freePage MemoryManagerData.freePage
    rw [isUsed_inside beyond h]
    cases (d.data beyond).isUsed a with
    | true => exact clear_inside beyond _ h
    | false => exact ⟨d, rfl, rfl⟩
  · intro d a h
    unfold freePage
    rw [isUsed_outside h]
    rfl

/-! ## The loops -/

section Loop

variable {step : AllocatorArray → ℕ → Option AllocatorArray}
  {step' : MemoryManagerData → ℕ → MemoryManagerData}

theorem foldlM_succ (d : AllocatorArray) (startAddress n : ℕ) :
    (List.range (n + 1)).foldlM (fun d i => step d (address startAddress i)) d
      = ((List.range n).foldlM (fun d i => step d (address startAddress i)) d).bind
          fun d => step d (address startAddress n) := by
  rw [List.range_succ, List.foldlM_append]
  apply bind_congr
  intro d
  exact bind_pure _

/-- A loop over pages in the array does to the data what it does among all the bytes. -/
theorem loop_inside (hstep : SamePage step step') (d : AllocatorArray) (beyond : ℕ → BitVec 8)
    (startAddress : ℕ) (n : ℕ) (h : ∀ i < n, Inside (address startAddress i)) :
    ∃ d', (List.range n).foldlM (fun d i => step d (address startAddress i)) d = some d' ∧
      d'.data beyond = (List.range n).foldl (fun d i => step' d (address startAddress i))
        (d.data beyond) := by
  induction n with
  | zero => exact ⟨d, rfl, rfl⟩
  | succ n ih =>
    obtain ⟨d₁, hrun, hdata⟩ := ih fun i hi => h i (Nat.lt_succ_of_lt hi)
    obtain ⟨d₂, hlast, hdata₂⟩ := hstep.inside d₁ beyond _ (h n (Nat.lt_succ_self n))
    refine ⟨d₂, ?_, ?_⟩
    · rw [foldlM_succ, hrun]
      exact hlast
    · rw [List.range_succ, List.foldl_append, ← hdata]
      exact hdata₂

/-- A loop that reaches a page without a byte does not go on. -/
theorem inside_of_loop (hstep : SamePage step step') {d d' : AllocatorArray} {startAddress n : ℕ}
    (h : (List.range n).foldlM (fun d i => step d (address startAddress i)) d = some d') :
    ∀ i < n, Inside (address startAddress i) := by
  induction n generalizing d' with
  | zero =>
    intro i hi
    exact absurd hi (Nat.not_lt_zero i)
  | succ n ih =>
    rw [foldlM_succ] at h
    obtain ⟨d₁, hrun, hlast⟩ := Option.bind_eq_some_iff.mp h
    intro i hi
    rcases Nat.lt_succ_iff_lt_or_eq.mp hi with hlt | rfl
    · exact ih hrun i hlt
    · by_contra hout
      rw [hstep.outside _ _ hout] at hlast
      exact absurd hlast (by simp)

end Loop

/-- `physicalAllocate(startAddress, numPages)` inside the array. -/
theorem physicalAllocateAt_inside (d : AllocatorArray) (beyond : ℕ → BitVec 8)
    (h : ∀ i < numPages, Inside (address startAddress i)) :
    ∃ d', d.physicalAllocateAt startAddress numPages = some d' ∧
      d'.data beyond = MemoryManager.physicalAllocateAt (d.data beyond) startAddress numPages :=
  loop_inside samePage_allocatePage d beyond startAddress numPages h

/-- `physicalFree` inside the array. -/
theorem physicalFree_inside (d : AllocatorArray) (beyond : ℕ → BitVec 8)
    (h : ∀ i < numPages, Inside (address startAddress i)) :
    ∃ d', d.physicalFree startAddress numPages = some d' ∧
      d'.data beyond = MemoryManager.physicalFree (d.data beyond) startAddress numPages :=
  loop_inside samePage_freePage d beyond startAddress numPages h

/-- The search for a used page, from `pageIndex` on. -/
theorem isFreeFrom_inside (beyond : ℕ → BitVec 8) (n pageIndex : ℕ)
    (h : ∀ i < n, Inside (address startAddress (pageIndex + i))) :
    d.isFreeFrom startAddress n pageIndex = some ((List.range' pageIndex n).all fun i =>
      !(d.data beyond).isUsed (address startAddress i)) := by
  induction n generalizing pageIndex with
  | zero => rfl
  | succ n ih =>
    have hhere : Inside (address startAddress pageIndex) := h 0 (Nat.succ_pos n)
    have hrest : ∀ i < n, Inside (address startAddress (pageIndex + 1 + i)) := by
      intro i hi
      rw [Nat.add_right_comm]
      exact h (i + 1) (Nat.succ_lt_succ hi)
    unfold isFreeFrom
    rw [isUsed_inside beyond hhere, List.range'_succ, List.all_cons,
      ih (pageIndex + 1) hrest]
    cases (d.data beyond).isUsed (address startAddress pageIndex) with
    | true => rfl
    | false => simp

/-- `isPhysicalFree` inside the array. -/
theorem isPhysicalFree_inside (beyond : ℕ → BitVec 8)
    (h : ∀ i < numPages, Inside (address startAddress i)) :
    d.isPhysicalFree startAddress numPages
      = some (MemoryManager.isPhysicalFree (d.data beyond) startAddress numPages) := by
  unfold isPhysicalFree MemoryManager.isPhysicalFree
  rw [List.range_eq_range']
  apply isFreeFrom_inside
  intro i hi
  rw [Nat.zero_add]
  exact h i hi

/-! ## Which pages have a byte -/

/-- The last eight pages of the address space have no byte. -/
theorem inside_iff : Inside a ↔ a % 2 ^ 32 < 0xFFFF8000 := by
  have hbytes : allocationBytes = 131071 := rfl
  unfold Inside byteIndex
  rw [hbytes, pageSize]
  omega

/-- Two pages share no bit. -/
theorem same_bit {a b : ℕ} (ha : a < 2 ^ 32) (hb : b < 2 ^ 32) (hbyte : byteIndex a = byteIndex b)
    (hbit : bitIndex a = bitIndex b) : a / pageSize = b / pageSize := by
  unfold byteIndex at hbyte
  unfold bitIndex at hbit
  rw [Nat.mod_eq_of_lt ha, Nat.mod_eq_of_lt hb] at hbyte hbit
  rw [← Nat.div_add_mod (a / pageSize) 8, hbyte, hbit, Nat.div_add_mod]

/-- When a run of pages is inside. -/
theorem inside_run_iff (h : startAddress + numPages * pageSize ≤ 2 ^ 32) :
    (∀ i < numPages, Inside (address startAddress i)) ↔
      numPages = 0 ∨ startAddress + (numPages - 1) * pageSize < 0xFFFF8000 := by
  have hpage : pageSize = 4096 := rfl
  have haddress : ∀ i < numPages, address startAddress i % 2 ^ 32 = startAddress + i * pageSize := by
    intro i hi
    unfold address
    rw [hpage] at h ⊢
    omega
  constructor
  · intro hin
    by_cases hn : numPages = 0
    · exact Or.inl hn
    · right
      have hlast := inside_iff.mp (hin (numPages - 1) (by omega))
      rw [haddress (numPages - 1) (by omega)] at hlast
      exact hlast
  · intro hend i hi
    rw [inside_iff, haddress i hi]
    rw [hpage] at hend ⊢
    omega

/-- For a run of pages in the address space: the three loops touch only bytes of the array, and
no two pages share a bit, if and only if the run stays below the last eight pages. -/
theorem bitmap_covers_iff (d : AllocatorArray) (startAddress numPages : ℕ)
    (h : startAddress + numPages * pageSize ≤ 2 ^ 32) :
    ((d.isPhysicalFree startAddress numPages).isSome ∧
      (d.physicalAllocateAt startAddress numPages).isSome ∧
      (d.physicalFree startAddress numPages).isSome ∧
      ∀ a < 2 ^ 32, ∀ b < 2 ^ 32, byteIndex a = byteIndex b → bitIndex a = bitIndex b →
        a / pageSize = b / pageSize) ↔
    numPages = 0 ∨ startAddress + (numPages - 1) * pageSize < 0xFFFF8000 := by
  rw [← inside_run_iff h]
  constructor
  · intro hcovers
    obtain ⟨d', hd'⟩ := Option.isSome_iff_exists.mp hcovers.2.1
    exact inside_of_loop samePage_allocatePage hd'
  · intro hin
    obtain ⟨d₁, hallocate, _⟩ := physicalAllocateAt_inside d (fun _ => 0) hin
    obtain ⟨d₂, hfree, _⟩ := physicalFree_inside d (fun _ => 0) hin
    refine ⟨?_, ?_, ?_, ?_⟩
    · rw [isPhysicalFree_inside (fun _ => 0) hin]
      rfl
    · rw [hallocate]
      rfl
    · rw [hfree]
      rfl
    · intro a ha b hb
      exact same_bit ha hb

/-- An array of zeros. -/
def zeros : AllocatorArray := ⟨0, 0, Vector.replicate allocationBytes 0⟩

/-- The last page that has a byte. -/
theorem bitmap_covers_below :
    (zeros.isPhysicalFree 0xFFFF7000 1).isSome ∧ (zeros.physicalAllocateAt 0xFFFF7000 1).isSome ∧
      (zeros.physicalFree 0xFFFF7000 1).isSome :=
  have h := (bitmap_covers_iff zeros 0xFFFF7000 1 (by decide)).mpr (Or.inr (by decide))
  ⟨h.1, h.2.1, h.2.2.1⟩

/-- The page after it: `PhysicalAllocation[131071]`. -/
theorem bitmap_stops_short :
    ¬ ∀ (d : AllocatorArray) (startAddress numPages : ℕ),
      startAddress + numPages * pageSize ≤ 2 ^ 32 →
      (d.isPhysicalFree startAddress numPages).isSome ∧
        (d.physicalAllocateAt startAddress numPages).isSome ∧
        (d.physicalFree startAddress numPages).isSome ∧
        ∀ a < 2 ^ 32, ∀ b < 2 ^ 32, byteIndex a = byteIndex b → bitIndex a = bitIndex b →
          a / pageSize = b / pageSize := by
  intro h
  have hfree := (h zeros 0xFFFF8000 1 (by decide)).2.2.1
  have hout : zeros.physicalFree 0xFFFF8000 1 = none := by
    unfold physicalFree
    rw [foldlM_succ]
    exact samePage_freePage.outside zeros 0xFFFF8000 (by decide)
  rw [hout] at hfree
  exact absurd hfree (by decide)

end Sakura.MemoryManager.AllocatorArray
