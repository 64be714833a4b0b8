import Mathlib.Order.Bounds.Defs
import Sakura.MemoryManager.VirtualAllocateTheorems

/-!
# Physical first fit, and what a failure leaves behind

With page 0 and the last page of the bitmap in use a run of free pages never goes round the
end of the address space. `physicalAllocate(n)` then takes the lowest run of `n` free pages,
and `physicalFree` of the same run takes it back to the last bit (`physicalAllocate_firstFit`).
`memoryAllocate` relies on both when it fails (`memoryAllocate_failure`).
-/

namespace Sakura.MemoryManager

open MemoryManagerData

/-- The last page that has a bit in `PhysicalAllocation`. -/
def lastPage : ℕ := 8 * allocationBytes - 1

/-- Page 0 and the last page of the bitmap are used, and RAM ends at the bitmap's end. -/
structure Bounded (d : MemoryManagerData) : Prop where
  first : d.used 0 = true
  last : d.used lastPage = true
  total : d.totalMemory.toNat ≤ 0xFFFF8000

/-- The `n` pages from page `k` on are free. -/
def FreePages (d : MemoryManagerData) (k n : ℕ) : Prop :=
  ∀ p, k ≤ p → p < k + n → d.used p = false

section

variable {d : MemoryManagerData} {k n : ℕ}

/-- A run that is tried starts in the bitmap. -/
theorem Bounded.start_le (h : Bounded d) (hk : k < d.totalMemory.toNat / pageSize) :
    k ≤ lastPage := by
  have htotal := h.total
  rw [pageSize] at hk
  rw [show lastPage = 0xFFFF7 by decide]
  omega

/-- A run of free pages ends below the last page. -/
theorem Bounded.freeRun_le (h : Bounded d) (hk : k < d.totalMemory.toNat / pageSize)
    (hrun : FreeRun d k n) : k + n ≤ lastPage := by
  have hstart := h.start_le hk
  by_contra hlt
  have hlast : d.used lastPage = false := by
    apply hrun
    refine ⟨lastPage - k, by omega, ?_⟩
    rw [show k + (lastPage - k) = lastPage by omega]
    decide
  rw [h.last] at hlast
  exact absurd hlast (by decide)

/-- The same of a run that is not counted around. -/
theorem Bounded.freePages_le (h : Bounded d) (hk : k < d.totalMemory.toNat / pageSize)
    (hrun : FreePages d k n) : k + n ≤ lastPage := by
  have hstart := h.start_le hk
  by_contra hlt
  have hlast := hrun lastPage hstart (by omega)
  rw [h.last] at hlast
  exact absurd hlast (by decide)

/-- The test of a run is about frames, without wrapping. -/
theorem Bounded.freeRun_iff (h : Bounded d) (hk : k < d.totalMemory.toNat / pageSize) :
    FreeRun d k n ↔ FreePages d k n := by
  have hlast : lastPage < 2 ^ 20 := by decide
  constructor
  · intro hrun p h1 h2
    have hle := h.freeRun_le hk hrun
    apply hrun
    rw [inRun_iff (by omega)]
    exact ⟨h1, h2⟩
  · intro hrun p hp
    have hle := h.freePages_le hk hrun
    rw [inRun_iff (by omega)] at hp
    exact hrun p hp.1 hp.2

end

/-! ## Taking a run and giving it back -/

section

variable {d : MemoryManagerData} {k n : ℕ}

theorem MemoryManagerData.ext_used {d d' : MemoryManagerData}
    (htotal : d.totalMemory = d'.totalMemory) (hmemory : d.usedMemory = d'.usedMemory)
    (hused : ∀ p, d.used p = d'.used p) : d = d' := by
  have hbits : d.physicalAllocation = d'.physicalAllocation := Bitmap.ext_isSet hused
  cases d
  cases d'
  congr

/-- A frame that becomes used is counted. -/
theorem usedMemory_allocatePage {a : ℕ} (h : d.used (pageOf a) = false) :
    (d.allocatePage a).usedMemory = d.usedMemory + BitVec.ofNat 32 pageSize := by
  unfold MemoryManagerData.allocatePage isUsed
  rw [h, if_neg Bool.false_ne_true]

/-- A frame that becomes free is counted back. -/
theorem usedMemory_freePage {a : ℕ} (h : d.used (pageOf a) = true) :
    (d.freePage a).usedMemory = d.usedMemory - BitVec.ofNat 32 pageSize := by
  unfold MemoryManagerData.freePage isUsed
  rw [h, if_pos rfl]

theorem ofNat_succ_mul (n : ℕ) :
    BitVec.ofNat 32 ((n + 1) * pageSize)
      = BitVec.ofNat 32 (n * pageSize) + BitVec.ofNat 32 pageSize := by
  rw [Nat.add_mul, Nat.one_mul, BitVec.ofNat_add]

/-- Distinct pages of a run of at most `2 ^ 20`. -/
theorem not_inRun_end {k n : ℕ} (hn : n < 2 ^ 20) : ¬ InRun k n ((k + n) % 2 ^ 20) := by
  rintro ⟨i, hi, heq⟩
  omega

/-- Taking `n` free pages counts each of them. -/
theorem usedMemory_physicalAllocateAt (hn : n ≤ 2 ^ 20) (hk : k < 2 ^ 20)
    (hfree : FreeRun d k n) :
    (physicalAllocateAt d (k * pageSize) n).usedMemory
      = d.usedMemory + BitVec.ofNat 32 (n * pageSize) := by
  induction n with
  | zero => simp
  | succ n ih =>
    have hrun : FreeRun d k n := fun p hp => hfree p (inRun_succ.mpr (Or.inl hp))
    have hpage : pageOf ((k * pageSize + n * pageSize) % 2 ^ 32) = (k + n) % 2 ^ 20 := by
      rw [pageOf_mod, pageOf_add_mul, pageOf_mul_of_lt hk]
    have hunused : (physicalAllocateAt d (k * pageSize) n).used ((k + n) % 2 ^ 20) = false := by
      rw [← Bool.not_eq_true, used_physicalAllocateAt, pageOf_mul_of_lt hk, not_or]
      refine ⟨?_, not_inRun_end (by omega)⟩
      rw [hfree _ (inRun_succ.mpr (Or.inr rfl))]
      exact Bool.false_ne_true
    rw [physicalAllocateAt_succ, usedMemory_allocatePage (by rw [hpage]; exact hunused),
      ih (by omega) hrun, ofNat_succ_mul, BitVec.add_assoc]

/-- Giving back `n` used pages counts each of them. -/
theorem usedMemory_physicalFree (hn : n ≤ 2 ^ 20) (hk : k < 2 ^ 20)
    (hused : ∀ p, InRun k n p → d.used p = true) :
    (physicalFree d (k * pageSize) n).usedMemory
      = d.usedMemory - BitVec.ofNat 32 (n * pageSize) := by
  induction n with
  | zero => simp
  | succ n ih =>
    have hrun : ∀ p, InRun k n p → d.used p = true := fun p hp =>
      hused p (inRun_succ.mpr (Or.inl hp))
    have hpage : pageOf ((k * pageSize + n * pageSize) % 2 ^ 32) = (k + n) % 2 ^ 20 := by
      rw [pageOf_mod, pageOf_add_mul, pageOf_mul_of_lt hk]
    have hlast : (physicalFree d (k * pageSize) n).used ((k + n) % 2 ^ 20) = true := by
      rw [used_physicalFree, pageOf_mul_of_lt hk]
      exact ⟨hused _ (inRun_succ.mpr (Or.inr rfl)), not_inRun_end (by omega)⟩
    rw [physicalFree_succ, usedMemory_freePage (by rw [hpage]; exact hlast), ih (by omega) hrun,
      ofNat_succ_mul, BitVec.sub_sub]

/-- A run that was free is given back exactly. -/
theorem physicalFree_physicalAllocateAt (hn : n ≤ 2 ^ 20) (hk : k < 2 ^ 20)
    (hfree : FreeRun d k n) :
    physicalFree (physicalAllocateAt d (k * pageSize) n) (k * pageSize) n = d := by
  have hused : ∀ p, InRun k n p → (physicalAllocateAt d (k * pageSize) n).used p = true := by
    intro p hp
    rw [used_physicalAllocateAt, pageOf_mul_of_lt hk]
    exact Or.inr hp
  apply MemoryManagerData.ext_used
  · rw [totalMemory_physicalFree, totalMemory_physicalAllocateAt]
  · rw [usedMemory_physicalFree hn hk hused, usedMemory_physicalAllocateAt hn hk hfree,
      BitVec.add_sub_cancel]
  · intro p
    rw [Bool.eq_iff_iff, used_physicalFree, used_physicalAllocateAt, pageOf_mul_of_lt hk]
    constructor
    · rintro ⟨hp | hp, hnot⟩
      · exact hp
      · exact absurd hp hnot
    · intro hp
      refine ⟨Or.inl hp, ?_⟩
      intro hin
      rw [hfree p hin] at hp
      exact Bool.false_ne_true hp

end

/-! ## First fit -/

/-- The starts from which `physicalAllocate(n)` may take `n` free pages. -/
def freeStarts (d : MemoryManagerData) (n : ℕ) : Set ℕ :=
  {k | k < d.totalMemory.toNat / pageSize ∧ FreePages d k n}

/-- `physicalAllocate` on a bounded bitmap: the lowest run, and only its bits. -/
theorem physicalAllocate_firstFit (d : MemoryManagerData) (n : ℕ) (hd : Bounded d) :
    (∃ k d', IsLeast (freeStarts d n) k ∧ physicalAllocate d n = (k * pageSize, d') ∧
      (∀ p, d'.used p = true ↔ d.used p = true ∨ (k ≤ p ∧ p < k + n)) ∧
      d'.usedMemory = d.usedMemory + BitVec.ofNat 32 (n * pageSize) ∧
      d'.totalMemory = d.totalMemory ∧ physicalFree d' (k * pageSize) n = d) ∨
    freeStarts d n = ∅ ∧ physicalAllocate d n = (0, d) := by
  have hlast : lastPage < 2 ^ 20 := by decide
  rcases physicalAllocate_cases d n with ⟨k, hk, hfree, hfirst, halloc⟩ | ⟨hnone, halloc⟩
  · left
    have hle := hd.freeRun_le hk hfree
    have hk20 : k < 2 ^ 20 := by omega
    refine ⟨k, _, ⟨⟨hk, (hd.freeRun_iff hk).mp hfree⟩, ?_⟩, halloc, ?_, ?_, ?_, ?_⟩
    · rintro j ⟨hj, hrun⟩
      by_contra hlt
      exact hfirst j (by omega) ((hd.freeRun_iff hj).mpr hrun)
    · intro p
      rw [used_physicalAllocateAt, pageOf_mul_of_lt hk20, inRun_iff (by omega)]
    · exact usedMemory_physicalAllocateAt (by omega) hk20 hfree
    · exact totalMemory_physicalAllocateAt d _ n
    · exact physicalFree_physicalAllocateAt (by omega) hk20 hfree
  · right
    refine ⟨?_, halloc⟩
    apply Set.eq_empty_of_forall_notMem
    rintro k ⟨hk, hrun⟩
    exact hnone k hk ((hd.freeRun_iff hk).mpr hrun)

/-- 128 MiB with page `0x300` free. -/
def oneFree : MemoryManagerData := ⟨0x8000000#32, 0#32, oneFreeBitmap⟩

theorem used_oneFree (p : ℕ) : oneFree.used p = true ↔ p ≠ 0x300 := isSet_oneFreeBitmap p

theorem bounded_oneFree : Bounded oneFree :=
  ⟨(used_oneFree _).mpr (by decide), (used_oneFree _).mpr (by decide), by decide⟩

/-- The free page is found, taken and given back. -/
theorem physicalAllocate_firstFit_oneFree :
    ∃ d', physicalAllocate oneFree 1 = (0x300000, d') ∧ d'.used 0x300 = true ∧
      d'.usedMemory = 0x1000#32 ∧ physicalFree d' 0x300000 1 = oneFree := by
  have hfree : 0x300 ∈ freeStarts oneFree 1 := by
    refine ⟨by decide, ?_⟩
    intro p h1 h2
    rw [← Bool.not_eq_true, used_oneFree]
    omega
  rcases physicalAllocate_firstFit oneFree 1 bounded_oneFree with
    ⟨k, d', hleast, halloc, hused, hmemory, -, hback⟩ | ⟨hnone, -⟩
  · have hk : k = 0x300 := by
      have hpage := hleast.1.2 k (Nat.le_refl _) (by omega)
      rw [← Bool.not_eq_true, used_oneFree, not_not] at hpage
      exact hpage
    subst hk
    exact ⟨d', halloc, (hused _).mpr (Or.inr (by omega)), hmemory, hback⟩
  · rw [hnone] at hfree
    exact absurd hfree (Set.notMem_empty _)

/-! ## A failed allocation -/

/-- The number of pages that hold `size` bytes. -/
def pagesOf (size : ℕ) : ℕ := (size + (pageSize - 1)) / pageSize

/-- `pagesFor` is that number, except that it wraps to 0 in the last page of sizes. -/
theorem pagesFor_cases {size : ℕ} (h : size < 2 ^ 32) :
    pagesFor size = pagesOf size ∨ pagesFor size = 0 ∧ pagesOf size = 2 ^ 20 := by
  unfold pagesFor pagesOf pageAlign
  rw [pageSize]
  split <;> omega

/-- A run as long as the bitmap is never free. -/
theorem Bounded.freeStarts_all {d : MemoryManagerData} (h : Bounded d) {n : ℕ} (hn : 2 ^ 20 ≤ n) :
    freeStarts d n = ∅ := by
  have hlast : lastPage < 2 ^ 20 := by decide
  apply Set.eq_empty_of_forall_notMem
  rintro k ⟨hk, hrun⟩
  have hle := h.freePages_le hk hrun
  omega

section

variable {m : Machine} {fuel pd size : ℕ}

theorem allocatedAddress_eq :
    allocatedAddress m size = (physicalAllocate m.memManData (pagesFor size)).1 := rfl

theorem memManData_framesAllocated :
    (framesAllocated m size).memManData = (physicalAllocate m.memManData (pagesFor size)).2 := rfl

/-- Sizes for which `pagesFor` is 0 have a reason to fail. -/
theorem Bounded.reason_of_pagesFor (hd : Bounded m.memManData) (hsize : size < 2 ^ 32)
    (hzero : pagesFor size = 0) : size = 0 ∨ freeStarts m.memManData (pagesOf size) = ∅ := by
  rcases pagesFor_cases hsize with heq | ⟨-, hall⟩
  · left
    rw [hzero] at heq
    unfold pagesOf at heq
    rw [pageSize] at heq
    omega
  · right
    apply hd.freeStarts_all
    omega

/-- What `memoryAllocate` gets from `physicalAllocate` when the bitmap is bounded: frames from a
page other than 0, or nothing, and then everything is as it was. -/
theorem framesAllocated_bounded (hd : Bounded m.memManData) (hsize : size < 2 ^ 32) :
    (∃ k, 0 < k ∧ 0 < pagesFor size ∧ allocatedAddress m size = k * pageSize ∧
      MemoryManager.physicalFree (framesAllocated m size).memManData (k * pageSize) (pagesFor size)
        = m.memManData) ∨
    (allocatedAddress m size = 0 ∧ (framesAllocated m size).memManData = m.memManData ∧
      (size = 0 ∨ freeStarts m.memManData (pagesOf size) = ∅)) := by
  rw [allocatedAddress_eq, memManData_framesAllocated]
  rcases physicalAllocate_firstFit m.memManData (pagesFor size) hd with
    ⟨k, d', hleast, halloc, -, -, -, hback⟩ | ⟨hnone, halloc⟩
  · rw [halloc]
    by_cases hn : pagesFor size = 0
    · -- no page is asked for, and page 0 starts such a run
      right
      have hzero : 0 ∈ freeStarts m.memManData (pagesFor size) := by
        refine ⟨Nat.zero_lt_of_lt hleast.1.1, ?_⟩
        intro p h1 h2
        omega
      obtain rfl : k = 0 := Nat.le_zero.mp (hleast.2 hzero)
      rw [hn, Nat.zero_mul, physicalFree_zero] at hback
      exact ⟨Nat.zero_mul _, hback, hd.reason_of_pagesFor hsize hn⟩
    · left
      have hpos : 0 < k := by
        by_contra hk
        have hfirst := hleast.1.2 0 (by omega) (by omega)
        rw [hd.first] at hfirst
        exact absurd hfirst (by decide)
      exact ⟨k, hpos, by omega, rfl, hback⟩
  · right
    rw [halloc]
    refine ⟨rfl, rfl, ?_⟩
    rcases pagesFor_cases hsize with heq | ⟨hzero, -⟩
    · right
      rw [← heq]
      exact hnone
    · exact hd.reason_of_pagesFor hsize hzero

/-- `VirtualAllocate` when its search finds nothing. -/
theorem virtualAllocate_none {pa n : ℕ} {user : Bool}
    (hfound : foundAddress fuel m pd n user = some none) :
    virtualAllocate fuel m pd pa n user = some (0, m) := by
  unfold virtualAllocate
  rw [← foundAddress, hfound]
  rfl

/-- `VirtualAllocate` when its search stops. -/
theorem virtualAllocate_some {pa n a : ℕ} {user : Bool}
    (hfound : foundAddress fuel m pd n user = some (some a)) :
    virtualAllocate fuel m pd pa n user =
      (virtualMap fuel m pd a pa n user).map fun m' => (a, m') := by
  unfold virtualAllocate
  rw [← foundAddress, hfound]
  rfl

/-- When `memoryAllocate` of kernel memory returns 0, nothing has changed, and there was a
reason. -/
theorem memoryAllocate_failure (fuel : ℕ) (m m' : Machine) (pd size : ℕ)
    (hd : Bounded m.memManData) (hsize : size < 2 ^ 32) (hfuel : 2 ^ 20 < fuel)
    (h : memoryAllocate fuel m pd size false = some (0, m')) :
    m'.memManData = m.memManData ∧ m'.ram = m.ram ∧
      (size = 0 ∨ freeStarts m.memManData (pagesOf size) = ∅ ∨
        ∀ k, 256 ≤ k → ¬ AbsentRun m pd kernelPages (pagesOf size) k) := by
  rw [memoryAllocate_eq] at h
  rcases framesAllocated_bounded hd hsize with
    ⟨k, hk, hn, haddr, hback⟩ | ⟨haddr, hdata, hreason⟩
  · have hpos : 0 < k * pageSize := Nat.mul_pos hk (by decide)
    rw [haddr, if_pos hpos, Option.bind_eq_some_iff] at h
    obtain ⟨⟨va, m₂⟩, hva, hrest⟩ := h
    rcases foundAddress_first hfuel hn with ⟨j, hfound, hj, -⟩ | ⟨hfound, hnone⟩
    · -- the address found is the one returned, and not 0
      rw [virtualAllocate_some hfound, Option.map_eq_some_iff] at hva
      obtain ⟨m₃, -, heq⟩ := hva
      obtain rfl := (Prod.mk.inj heq).1
      have hne : j * pageSize ≠ 0 := Nat.mul_ne_zero (by omega) (by decide)
      simp only [if_neg hne, Option.map_eq_some_iff] at hrest
      obtain ⟨m₄, -, heq'⟩ := hrest
      exact absurd (Prod.mk.inj heq').1 hne
    · rw [virtualAllocate_none hfound] at hva
      obtain ⟨rfl, rfl⟩ := Prod.mk.inj (Option.some.inj hva)
      simp only [if_true] at hrest
      obtain rfl := (Prod.mk.inj (Option.some.inj hrest)).2
      refine ⟨hback, rfl, Or.inr ?_⟩
      rcases pagesFor_cases hsize with heq | ⟨hzero, hall⟩
      · right
        rw [← heq]
        exact hnone
      · left
        exact hd.freeStarts_all (by omega)
  · rw [haddr, if_neg (Nat.lt_irrefl 0)] at h
    obtain rfl := (Prod.mk.inj (Option.some.inj h)).2
    refine ⟨hdata, rfl, ?_⟩
    rcases hreason with hzero | hnone
    · exact Or.inl hzero
    · exact Or.inr (Or.inl hnone)

end

/-- A page asked for when every frame is used. -/
theorem memoryAllocate_failure_full :
    ∃ m', memoryAllocate (2 ^ 20 + 1) (directoryMachine (fun _ _ => 0) fullBitmap) 0x100 0x1000
        false = some (0, m') ∧
      m'.memManData = (directoryMachine (fun _ _ => 0) fullBitmap).memManData ∧
      m'.ram = (directoryMachine (fun _ _ => 0) fullBitmap).ram := by
  have hused : ∀ p, (directoryMachine (fun _ _ => 0) fullBitmap).memManData.used p = true := by
    intro p
    exact (used_directoryMachine p).trans (isSet_fullBitmap p)
  have hd : Bounded (directoryMachine (fun _ _ => 0) fullBitmap).memManData := by
    refine ⟨hused 0, hused _, ?_⟩
    unfold directoryMachine
    rw [memManData_mapKernelPageTable]
    decide
  have hpages : pagesFor 0x1000 = 1 := by decide
  have haddr : allocatedAddress (directoryMachine (fun _ _ => 0) fullBitmap) 0x1000 = 0 := by
    rw [allocatedAddress_eq, hpages, physicalAllocate_one, freeFrames_fullBitmap]
  have hcall : memoryAllocate (2 ^ 20 + 1) (directoryMachine (fun _ _ => 0) fullBitmap) 0x100 0x1000
      false = some (0, framesAllocated (directoryMachine (fun _ _ => 0) fullBitmap) 0x1000) := by
    rw [memoryAllocate_eq, haddr, if_neg (Nat.lt_irrefl 0)]
  obtain ⟨hdata, hram, -⟩ := memoryAllocate_failure _ _ _ _ _ hd (by decide) (by decide) hcall
  exact ⟨_, hcall, hdata, hram⟩

/-! ### A page that `TotalMemory` cuts -/

/-- The runs of `n` free pages that start below `TotalMemory`, in its last page, too. -/
def startsBelowTotal (d : MemoryManagerData) (n : ℕ) : Set ℕ :=
  {k | k * pageSize < d.totalMemory.toNat ∧ FreePages d k n}

/-- Every page but `0x204` is used. -/
def cutFreeBitmap : Bitmap := ⟨fun i => if i = 0x40 then 0xEF#8 else 0xFF#8⟩

theorem isSet_cutFreeBitmap (p : ℕ) : cutFreeBitmap.isSet p = true ↔ p ≠ 0x204 := by
  have hall : ∀ i < 8, (0xFF#8).getLsbD i = true := by decide
  have hone : ∀ i < 8, (0xEF#8).getLsbD i = true ↔ i ≠ 4 := by decide
  have hlt : p % 8 < 8 := Nat.mod_lt _ (by omega)
  rw [Bitmap.isSet_eq, cutFreeBitmap]
  simp only
  by_cases hp : p / 8 = 0x40
  · rw [if_pos hp, hone _ hlt]
    omega
  · rw [if_neg hp]
    exact ⟨fun _ => by omega, fun _ => hall _ hlt⟩

/-- The regions `[0, 0x203000)` and `[0x203800, 0x205800)`: of the second `loadMemoryMap` counts
the length `0x1800` and frees the page `0x204`. -/
def cutMaps : List MemoryMap := [⟨0, 0x203000, 1⟩, ⟨0x203800, 0x2000, 1⟩]

/-- The kernel's directory on a machine with these regions and one free page, the last. -/
def cutMachine : Machine :=
  { directoryMachine (fun _ _ => 0) cutFreeBitmap with
    memManData := ⟨(Multiboot.loadMemoryMap ⟨0, 0, fullBitmap⟩ cutMaps).1, 0, cutFreeBitmap⟩ }

theorem ram_cutMachine : cutMachine.ram = (directoryMachine (fun _ _ => 0) cutFreeBitmap).ram := by
  unfold cutMachine
  rfl

theorem totalMemory_cutMachine : cutMachine.memManData.totalMemory = 0x204800#32 := by
  show (Multiboot.loadMemoryMap ⟨0, 0, fullBitmap⟩ cutMaps).1 = _
  decide +kernel

theorem used_cutMachine (p : ℕ) : cutMachine.memManData.used p = true ↔ p ≠ 0x204 :=
  isSet_cutFreeBitmap p

/-- `physicalAllocate` tries the starts below `TotalMemory / PAGE_SIZE`, so it never looks at the
free page `0x204`, which starts below `TotalMemory`. -/
theorem memoryAllocate_fails_below_total :
    Bounded cutMachine.memManData ∧ HoldsKernelEntries minimalLayout cutMachine 0x100 ∧
      ∃ m', memoryAllocate (2 ^ 20 + 1) cutMachine 0x100 0x1000 false = some (0, m') ∧
        ¬ ((0x1000 : ℕ) = 0 ∨ startsBelowTotal cutMachine.memManData (pagesOf 0x1000) = ∅ ∨
          ∀ k, 256 ≤ k → ¬ AbsentRun cutMachine 0x100 kernelPages (pagesOf 0x1000) k) := by
  have hd : Bounded cutMachine.memManData := by
    refine ⟨(used_cutMachine _).mpr (by decide), (used_cutMachine _).mpr (by decide), ?_⟩
    rw [totalMemory_cutMachine]
    decide
  have hkernel : HoldsKernelEntries minimalLayout cutMachine 0x100 := by
    unfold HoldsKernelEntries slotPresent tableOf
    rw [ram_cutMachine]
    exact holdsKernelEntries_directoryMachine fun _ => rfl
  have hpages : pagesOf 0x1000 = 1 := by decide
  have hnone : freeFrames cutMachine.memManData = [] := by
    rw [List.eq_nil_iff_forall_not_mem]
    intro f hf
    obtain ⟨hlt, hfree⟩ := mem_freeFrames.mp hf
    rw [totalMemory_cutMachine, show (0x204800#32).toNat / pageSize = 0x204 by decide] at hlt
    rw [(used_cutMachine f).mpr (by omega)] at hfree
    exact Bool.false_ne_true hfree.symm
  have haddr : allocatedAddress cutMachine 0x1000 = 0 := by
    rw [allocatedAddress_eq, show pagesFor 0x1000 = 1 by decide, physicalAllocate_one, hnone]
  refine ⟨hd, hkernel, framesAllocated cutMachine 0x1000, ?_, ?_⟩
  · rw [memoryAllocate_eq, haddr, if_neg (Nat.lt_irrefl 0)]
  · rw [hpages]
    rintro (hzero | hempty | habsent)
    · exact absurd hzero (by decide)
    · have hmem : 0x204 ∈ startsBelowTotal cutMachine.memManData 1 := by
        refine ⟨?_, fun p h1 h2 => ?_⟩
        · rw [totalMemory_cutMachine]
          decide
        · rw [← Bool.not_eq_true, used_cutMachine]
          omega
      rw [hempty] at hmem
      exact absurd hmem (Set.notMem_empty _)
    · -- the kernel's tables are empty, so the first page of the search is absent
      refine habsent 256 (Nat.le_refl _) ⟨by decide, fun p h1 h2 => ?_⟩
      obtain rfl : p = 256 := by omega
      have hslot := hkernel 0 (by omega)
      rw [pagePresent, pageEntry, show 256 / 1024 = 0 by decide, hslot.1, hslot.2, Bool.true_and]
      rw [ram_cutMachine, directoryMachine, ram_mapKernelPageTable, if_neg fun h => absurd h.1 (by decide)]
      rfl

end Sakura.MemoryManager
