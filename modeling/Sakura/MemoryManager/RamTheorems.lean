import Sakura.MemoryManager.InitTheorems

/-!
# Which RAM `physicalAllocate(1)` can reach

Called again and again, `physicalAllocate(1)` hands out the free frames below `TotalMemory`
in ascending order and then returns 0. Two things keep a page of RAM out of that list:

* `loadMemoryMap` charges a page for an unaligned start before it rounds the length, so an
  entry can lose a whole page at its end (`LosesLastPage`);
* `TotalMemory` is a sum of lengths, but it bounds page numbers: every hole in the map, the
  one below 1 MiB for a start, hides as many pages at the top.

`allRamUsable_iff` says that nothing else does.
-/

namespace Sakura

open MemoryManager

namespace MemoryMap

/-- The start and the length overhang their pages by a page together. -/
def LosesLastPage (e : MemoryMap) : Prop :=
  pageSize ≤ e.length.toNat ∧
    pageSize ≤ e.address.toNat % pageSize + e.length.toNat % pageSize

/-- The last whole page of an entry. -/
def lastPage (e : MemoryMap) : ℕ := (e.address.toNat + e.length.toNat) / pageSize - 1

theorem covers_lastPage {e : MemoryMap} (h : e.LosesLastPage) : e.Covers e.lastPage := by
  obtain ⟨h1, h2⟩ := h
  rw [Covers, lastPage]
  rw [pageSize] at *
  omega

/-- An entry frees every page it covers but the one it loses. -/
theorem frees_of_covers {e : MemoryMap} {p : ℕ}
    (hend : e.address.toNat + e.length.toNat ≤ 0xFFFF8000) (hcov : e.Covers p)
    (hlast : e.LosesLastPage → p ≠ e.lastPage) : e.Frees p := by
  obtain ⟨h1, h2⟩ := hcov
  have hlen : e.length.toNat % 2 ^ 32 = e.length.toNat := Nat.mod_eq_of_lt (by omega)
  have hfirst : e.firstPage = (e.address.toNat + (pageSize - 1)) / pageSize := by
    rw [firstPage]
    rw [pageSize] at *
    omega
  rw [Frees, hfirst]
  by_cases ha : e.address.toNat % pageSize = 0
  · rw [pageCount, if_pos ha, hlen, inRun_iff (by rw [pageSize] at *; omega)]
    rw [pageSize] at *
    omega
  · rw [pageCount, if_neg ha, hlen, if_neg (by omega), inRun_iff (by rw [pageSize] at *; omega)]
    by_cases hlose : e.LosesLastPage
    · have hne := hlast hlose
      rw [lastPage] at hne
      obtain ⟨h3, h4⟩ := hlose
      rw [pageSize] at *
      omega
    · rw [LosesLastPage, not_and, not_le] at hlose
      have h3 := hlose (by omega)
      rw [pageSize] at *
      omega

end MemoryMap

open MemoryMap

namespace MemoryManager

open MemoryManagerData

/-! ## Repeated allocation -/

/-- The allocator's data after `n` calls of `physicalAllocate(1)`. -/
def afterCalls (d : MemoryManagerData) : ℕ → MemoryManagerData
  | 0 => d
  | n + 1 => (physicalAllocate (afterCalls d n) 1).2

/-- What the next call after `n` of them returns. -/
def returned (d : MemoryManagerData) (n : ℕ) : ℕ := (physicalAllocate (afterCalls d n) 1).1

theorem freeFrames_afterCalls (d : MemoryManagerData) (n : ℕ) :
    freeFrames (afterCalls d n) = (freeFrames d).drop n := by
  induction n with
  | zero => rfl
  | succ n ih =>
    rw [afterCalls, physicalAllocate_one, ← List.drop_drop, ← ih]
    cases h : freeFrames (afterCalls d n) with
    | nil => exact h
    | cons f fs => exact freeFrames_allocatePage h

/-- The calls go through the list of free frames. -/
theorem returned_eq (d : MemoryManagerData) (n : ℕ) :
    returned d n = (freeFrames d)[n]?.getD 0 * pageSize := by
  have hhead : (freeFrames d)[n]? = (freeFrames (afterCalls d n)).head? := by
    rw [freeFrames_afterCalls, List.head?_drop]
  rw [returned, physicalAllocate_one, hhead]
  cases freeFrames (afterCalls d n) with
  | nil => rw [List.head?_nil, Option.getD_none, Nat.zero_mul]
  | cons f fs => rfl

/-- Page `p` is returned before the first 0, and once only. -/
def ReturnedOnce (d : MemoryManagerData) (p : ℕ) : Prop :=
  ∃! n, returned d n = p * pageSize ∧ ∀ j ≤ n, returned d j ≠ 0

theorem returned_eq_iff {d : MemoryManagerData} (h0 : d.used 0 = true) {p n : ℕ} :
    (returned d n = p * pageSize ∧ ∀ j ≤ n, returned d j ≠ 0) ↔ (freeFrames d)[n]? = some p := by
  have hpos : ∀ f ∈ freeFrames d, f * pageSize ≠ 0 := by
    intro f hf hzero
    rcases Nat.mul_eq_zero.mp hzero with rfl | hps
    · rw [(mem_freeFrames.mp hf).2] at h0
      exact Bool.false_ne_true h0
    · exact absurd hps (by decide)
  constructor
  · rintro ⟨hn, hbefore⟩
    cases hget : (freeFrames d)[n]? with
    | none =>
      refine absurd ?_ (hbefore n le_rfl)
      rw [returned_eq, hget, Option.getD_none, Nat.zero_mul]
    | some f =>
      rw [returned_eq, hget, Option.getD_some] at hn
      rw [Nat.eq_of_mul_eq_mul_right (by decide) hn]
  · intro hget
    refine ⟨by rw [returned_eq, hget, Option.getD_some], ?_⟩
    intro j hj
    have hlt : j < (freeFrames d).length := by
      have := (List.getElem?_eq_some_iff.mp hget).1
      omega
    rw [returned_eq, List.getElem?_eq_getElem hlt, Option.getD_some]
    exact hpos _ (List.getElem_mem hlt)

/-- Once page 0 is reserved, the pages returned are the free frames. -/
theorem returnedOnce_iff {d : MemoryManagerData} (h0 : d.used 0 = true) {p : ℕ} :
    ReturnedOnce d p ↔ p ∈ freeFrames d := by
  simp only [ReturnedOnce, returned_eq_iff h0]
  constructor
  · rintro ⟨n, hn, -⟩
    exact List.mem_of_getElem? hn
  · intro hp
    obtain ⟨n, hlt, hn⟩ := List.mem_iff_getElem.mp hp
    have hget : (freeFrames d)[n]? = some p := by rw [List.getElem?_eq_getElem hlt, hn]
    refine ⟨n, hget, ?_⟩
    intro k hk
    exact ((List.getElem?_inj hlt (nodup_freeFrames d)).mp (hget.trans hk.symm)).symm

/-! ## All RAM is usable, if it adds up -/

/-- The value of `TotalMemory` after `loadMemoryMap`. -/
def loadedMemory (maps : List MemoryMap) : ℕ :=
  (maps.map fun e => if e.Available then e.trimmedLength else 0).sum % 2 ^ 32

/-- A page of RAM that `init` has no use for itself. -/
def Usable (L : Layout) (maps : List MemoryMap) (p : ℕ) : Prop :=
  (∃ e ∈ maps, e.Available ∧ e.Covers p) ∧ ¬ InitRun L [] p

/-- `physicalAllocate(1)` returns every usable page. -/
def AllRamUsable (L : Layout) (maps : List MemoryMap) (d : MemoryManagerData) : Prop :=
  ∀ p, Usable L maps p → ReturnedOnce d p

theorem usable_inBitmap {L : Layout} {maps : List MemoryMap} {p : ℕ}
    (hend : ∀ e ∈ maps, e.Available → e.address.toNat + e.length.toNat ≤ 0xFFFF8000)
    (h : Usable L maps p) : InBitmap p := by
  obtain ⟨⟨e, he, hav, -, hcov⟩, -⟩ := h
  have := hend e he hav
  have hbytes : 8 * allocationBytes = 0xFFFF8 := by decide
  rw [InBitmap, hbytes]
  rw [pageSize] at hcov
  omega

/-- A usable page is returned if some entry frees it and it lies below `TotalMemory`. -/
theorem returnedOnce_init_iff {L : Layout} {fuel : ℕ} {m : Machine} {maps : List MemoryMap}
    (hboot : Booted L m) (hfuel : 2 ^ 20 < fuel)
    (hend : ∀ e ∈ maps, e.Available → e.address.toNat + e.length.toNat ≤ 0xFFFF8000) :
    ∃ m', init L fuel m maps [] = some m' ∧ ∀ p, Usable L maps p →
      (ReturnedOnce m'.memManData p ↔
        (∃ e ∈ maps, e.Available ∧ e.Frees p) ∧ p < loadedMemory maps / pageSize) := by
  obtain ⟨m', hm', htotal, hused⟩ := used_init maps hboot hfuel
  have h0 : m'.memManData.used 0 = true :=
    (hused 0).mpr (Or.inr (Or.inl (Or.inr ((inRun_iff (by omega)).mpr ⟨by omega, by omega⟩))))
  refine ⟨m', hm', ?_⟩
  intro p hp
  rw [returnedOnce_iff h0, mem_freeFrames, htotal, totalMemory_physicalAllocatorInit,
    ← Bool.not_eq_true, hused, used_physicalAllocatorInit _ _ (usable_inBitmap hend hp), not_or,
    and_comm]
  simp only [hp.2, not_false_eq_true, and_true, loadedMemory]
  push Not
  rfl

theorem allRamUsable_iff (L : Layout) (fuel : ℕ) (m : Machine) (maps : List MemoryMap)
    (hboot : Booted L m) (hfuel : 2 ^ 20 < fuel)
    (hend : ∀ e ∈ maps, e.Available → e.address.toNat + e.length.toNat ≤ 0xFFFF8000) :
    ∃ m', init L fuel m maps [] = some m' ∧
      (AllRamUsable L maps m'.memManData ↔
        (∀ e ∈ maps, e.Available → e.LosesLastPage →
          InitRun L [] e.lastPage ∨ ∃ e' ∈ maps, e'.Available ∧ e'.Frees e.lastPage) ∧
        ∀ p, Usable L maps p → p < loadedMemory maps / pageSize) := by
  obtain ⟨m', hm', hiff⟩ := returnedOnce_init_iff hboot hfuel hend
  refine ⟨m', hm', ?_⟩
  constructor
  · intro h
    refine ⟨?_, fun p hp => ((hiff p hp).mp (h p hp)).2⟩
    intro e he hav hlose
    by_cases hres : InitRun L [] e.lastPage
    · exact Or.inl hres
    · have husable : Usable L maps e.lastPage := ⟨⟨e, he, hav, covers_lastPage hlose⟩, hres⟩
      exact Or.inr ((hiff _ husable).mp (h _ husable)).1
  · rintro ⟨hlast, htotal⟩ p hp
    refine (hiff p hp).mpr ⟨?_, htotal p hp⟩
    obtain ⟨⟨e, he, hav, hcov⟩, hres⟩ := hp
    by_cases hlose : e.LosesLastPage ∧ p = e.lastPage
    · obtain ⟨hl, rfl⟩ := hlose
      exact (hlast e he hav hl).resolve_left hres
    · exact ⟨e, he, hav, frees_of_covers (hend e he hav) hcov fun hl hp => hlose ⟨hl, hp⟩⟩

/-- Memory in one piece from address 0 is usable to its end. -/
theorem allRamUsable_onePiece :
    ∃ m', init minimalLayout (2 ^ 20 + 1) blankMachine [⟨0, 0x8000000, 1⟩] [] = some m' ∧
      AllRamUsable minimalLayout [⟨0, 0x8000000, 1⟩] m'.memManData := by
  obtain ⟨m', hm', hiff⟩ := allRamUsable_iff minimalLayout (2 ^ 20 + 1) blankMachine
    [⟨0, 0x8000000, 1⟩] (booted_blankMachine minimalLayout) (by omega) (by decide)
  refine ⟨m', hm', hiff.mpr ⟨?_, ?_⟩⟩
  · rintro e he - ⟨-, hlose⟩
    rw [List.mem_singleton] at he
    subst he
    exact absurd hlose (by decide)
  · rintro p ⟨⟨e, he, -, -, hcov⟩, -⟩
    rw [List.mem_singleton] at he
    subst he
    have htotal : loadedMemory [⟨0, 0x8000000, 1⟩] / pageSize = 0x8000 := by decide
    have hsum : (0 : BitVec 64).toNat + (0x8000000 : BitVec 64).toNat = 0x8000000 := by decide
    rw [hsum, pageSize] at hcov
    rw [htotal]
    omega

/-- The map of a PC with 128 MiB: memory stops short of the BIOS area and goes on at 1 MiB. -/
def pcMap : List MemoryMap := [⟨0, 0x9FC00, 1⟩, ⟨0x100000, 0x7F00000, 1⟩]

/-- The hole below 1 MiB hides the last pages, `0x7FFF` among them. -/
theorem pcMap_hides_lastPage :
    ∃ m', init minimalLayout (2 ^ 20 + 1) blankMachine pcMap [] = some m' ∧
      ¬ AllRamUsable minimalLayout pcMap m'.memManData := by
  obtain ⟨m', hm', hiff⟩ := returnedOnce_init_iff
    (booted_blankMachine minimalLayout) (show 2 ^ 20 < 2 ^ 20 + 1 by omega)
    (show ∀ e ∈ pcMap, e.Available → e.address.toNat + e.length.toNat ≤ 0xFFFF8000 by decide)
  refine ⟨m', hm', ?_⟩
  have husable : Usable minimalLayout pcMap 0x7FFF := by
    refine ⟨⟨⟨0x100000, 0x7F00000, 1⟩, by decide, by decide, by decide⟩, ?_⟩
    have hrun : minimalLayout.kernelRun = 0x103 := by decide
    rw [InitRun, hrun, inRun_iff (by omega), inRun_iff (by omega)]
    simp
  intro h
  have hlt := ((hiff _ husable).mp (h _ husable)).2
  exact absurd hlt (by decide)

end MemoryManager

end Sakura
