import Sakura.Multiboot

/-!
# Which pages the memory map makes allocatable

`loadMemoryMap` truncates a 64-bit entry to 32 bits, aligns its start up and shortens its
length twice. `firstPage` and `pageCount` say in plain arithmetic which pages come out, and
`used_physicalAllocatorInit` that the allocator marks exactly those free. From there:

* an entry that ends below 4 GiB, and that has an aligned start or at least a page of
  length, frees only pages of its own (`covers_of_not_overruns`);
* the others (`Overruns`) free pages somewhere else, and `onlyRamFree_iff` says that this
  is the only way memory outside the available entries is marked free.
-/

namespace Sakura

open MemoryManager

namespace MemoryMap

/-- The entry describes available memory. -/
def Available (e : MemoryMap) : Prop := e.type = 1

instance (e : MemoryMap) : Decidable e.Available := inferInstanceAs (Decidable (e.type = 1))

/-- The whole page `p` lies inside the entry, by its full 64-bit address and length. -/
def Covers (e : MemoryMap) (p : ℕ) : Prop :=
  e.address.toNat ≤ p * pageSize ∧ p * pageSize + pageSize ≤ e.address.toNat + e.length.toNat

instance (e : MemoryMap) (p : ℕ) : Decidable (e.Covers p) :=
  inferInstanceAs (Decidable (_ ∧ _))

/-- The page `loadMemoryMap` starts to free at: the low 32 bits of the address, aligned
up. -/
def firstPage (e : MemoryMap) : ℕ :=
  (e.address.toNat % 2 ^ 32 + (pageSize - 1)) / pageSize % 2 ^ 20

/-- The number of pages it frees. An unaligned start always costs a page, and where there
is no page to give up the unsigned subtraction wraps. -/
def pageCount (e : MemoryMap) : ℕ :=
  if e.address.toNat % pageSize = 0 then e.length.toNat % 2 ^ 32 / pageSize
  else if e.length.toNat % 2 ^ 32 < pageSize then 2 ^ 20 - 1
  else e.length.toNat % 2 ^ 32 / pageSize - 1

/-- What the entry adds to `TotalMemory`. -/
def trimmedLength (e : MemoryMap) : ℕ :=
  if e.address.toNat % pageSize = 0 then e.length.toNat % 2 ^ 32 / pageSize * pageSize
  else (e.length.toNat % 2 ^ 32 / pageSize * pageSize + 2 ^ 32
    - (pageSize - e.address.toNat % pageSize)) % 2 ^ 32

/-- Page `p` is one of those the entry makes free. -/
def Frees (e : MemoryMap) (p : ℕ) : Prop := InRun e.firstPage e.pageCount p

/-- The entry reaches past 4 GiB, or starts inside a page and is shorter than one. -/
def Overruns (e : MemoryMap) : Prop :=
  2 ^ 32 < e.address.toNat + e.length.toNat ∨
    (e.address.toNat % pageSize ≠ 0 ∧ e.length.toNat < pageSize)

end MemoryMap

open MemoryMap

namespace Multiboot

/-! ## The rounding, in plain arithmetic -/

/-- The base is rounded up to a page, in 32 bits. -/
theorem toNat_align_fst (e : MemoryMap) :
    (align e).1.toNat =
      if e.address.toNat % pageSize = 0 then e.address.toNat % 2 ^ 32
      else (e.address.toNat % 2 ^ 32 + (pageSize - e.address.toNat % pageSize)) % 2 ^ 32 := by
  have hlow : e.address.toNat % 2 ^ 32 % 4096 = e.address.toNat % 4096 := by omega
  simp only [align, pageSize, BitVec.toNat_umod, BitVec.toNat_setWidth, BitVec.toNat_ofNat,
    Nat.reducePow, Nat.reduceMod] at hlow ⊢
  by_cases h : e.address.toNat % 4096 = 0
  · simp only [hlow, h, lt_irrefl, if_true, if_false, BitVec.toNat_setWidth, Nat.reducePow]
  · have hpos : 0 < e.address.toNat % 4096 := by omega
    simp only [hlow, h, hpos, if_true, if_false, BitVec.toNat_add, BitVec.toNat_sub,
      BitVec.toNat_umod, BitVec.toNat_setWidth, BitVec.toNat_ofNat, Nat.reducePow, Nat.reduceMod]
    omega

/-- The length is what is left, rounded down. -/
theorem toNat_align_snd (e : MemoryMap) : (align e).2.toNat = e.trimmedLength := by
  have hlow : e.address.toNat % 2 ^ 32 % 4096 = e.address.toNat % 4096 := by omega
  simp only [align, trimmedLength, pageSize, BitVec.toNat_sub, BitVec.toNat_umod,
    BitVec.toNat_setWidth, BitVec.toNat_ofNat, Nat.reducePow, Nat.reduceMod] at hlow ⊢
  by_cases h : e.address.toNat % 4096 = 0
  · simp only [hlow, h, lt_irrefl, if_true, if_false, BitVec.toNat_setWidth, Nat.reducePow]
    omega
  · have hpos : 0 < e.address.toNat % 4096 := by omega
    simp only [hlow, h, hpos, if_true, if_false, BitVec.toNat_sub, BitVec.toNat_umod,
      BitVec.toNat_setWidth, BitVec.toNat_ofNat, Nat.reducePow, Nat.reduceMod]
    omega

/-- The first page that is freed. -/
theorem pageOf_align (e : MemoryMap) : pageOf (align e).1.toNat = e.firstPage := by
  rw [toNat_align_fst, pageOf, firstPage]
  by_cases h : e.address.toNat % pageSize = 0
  · rw [if_pos h]
    rw [pageSize] at h ⊢
    omega
  · rw [if_neg h]
    rw [pageSize] at h ⊢
    omega

/-- The number of pages that are freed. -/
theorem trimmedLength_div (e : MemoryMap) : e.trimmedLength / pageSize = e.pageCount := by
  rw [trimmedLength, pageCount]
  by_cases h : e.address.toNat % pageSize = 0
  · rw [if_pos h, if_pos h, Nat.mul_div_cancel _ (by decide)]
  · rw [if_neg h, if_neg h]
    by_cases hl : e.length.toNat % 2 ^ 32 < pageSize
    · rw [if_pos hl]
      rw [pageSize] at h hl ⊢
      omega
    · rw [if_neg hl]
      rw [pageSize] at h hl ⊢
      omega

/-! ## The loop -/

/-- One entry frees its pages, if it is available. -/
theorem used_loadEntry (s : BitVec 32 × MemoryManagerData) (e : MemoryMap) (p : ℕ) :
    (loadEntry s e).2.used p = true ↔ s.2.used p = true ∧ (e.Available → ¬ e.Frees p) := by
  rw [loadEntry]
  split
  · rename_i h
    have hav : e.Available := h
    rw [used_physicalFree, pageOf_align, toNat_align_snd, trimmedLength_div]
    simp only [hav, true_implies, Frees]
  · rename_i h
    have hav : ¬ e.Available := h
    simp only [hav, false_implies, and_true]

/-- One entry counts its trimmed length, if it is available. -/
theorem fst_loadEntry (s : BitVec 32 × MemoryManagerData) (e : MemoryMap) :
    (loadEntry s e).1.toNat
      = (s.1.toNat + if e.Available then e.trimmedLength else 0) % 2 ^ 32 := by
  rw [loadEntry]
  by_cases h : e.type = 1
  · have hav : e.Available := h
    rw [if_pos h, if_pos hav, BitVec.toNat_add, toNat_align_snd]
  · have hav : ¬ e.Available := h
    rw [if_neg h, if_neg hav, Nat.add_zero, Nat.mod_eq_of_lt s.1.isLt]

/-- All entries: a page stays in use unless one frees it. -/
theorem used_foldl_loadEntry (maps : List MemoryMap) (s : BitVec 32 × MemoryManagerData)
    (p : ℕ) :
    (maps.foldl loadEntry s).2.used p = true ↔
      s.2.used p = true ∧ ∀ e ∈ maps, e.Available → ¬ e.Frees p := by
  induction maps generalizing s with
  | nil => simp
  | cons e maps ih =>
    rw [List.foldl_cons, ih, used_loadEntry, List.forall_mem_cons, and_assoc]

/-- All entries: the trimmed lengths are summed in 32 bits. -/
theorem fst_foldl_loadEntry (maps : List MemoryMap) (s : BitVec 32 × MemoryManagerData) :
    (maps.foldl loadEntry s).1.toNat
      = (s.1.toNat
          + (maps.map fun e => if e.Available then e.trimmedLength else 0).sum) % 2 ^ 32 := by
  induction maps generalizing s with
  | nil => simp [Nat.mod_eq_of_lt s.1.isLt]
  | cons e maps ih =>
    rw [List.foldl_cons, ih, fst_loadEntry, List.map_cons, List.sum_cons, Nat.mod_add_mod,
      Nat.add_assoc]

end Multiboot

namespace MemoryManager

/-- A page the bitmap has a bit for. -/
def InBitmap (p : ℕ) : Prop := p < 8 * allocationBytes

instance (p : ℕ) : Decidable (InBitmap p) := inferInstanceAs (Decidable (_ < _))

/-- `fillBitmap` sets every bit of the bitmap. -/
theorem isSet_fillBitmap (b : Bitmap) {p : ℕ} (hp : InBitmap p) :
    (fillBitmap b).isSet p = true := by
  have hbyte : p / 8 < allocationBytes := Nat.div_lt_of_lt_mul hp
  have hbit : p % 8 < 8 := Nat.mod_lt _ (by omega)
  rw [Bitmap.isSet_eq, fillBitmap]
  simp only [hbyte, if_true]
  have hall : ∀ i < 8, (0xFF#8).getLsbD i = true := by decide
  exact hall _ hbit

/-- After `physicalAllocatorInit` a page is free exactly if some available entry freed
it. -/
theorem used_physicalAllocatorInit (d : MemoryManagerData) (maps : List MemoryMap) {p : ℕ}
    (hp : InBitmap p) :
    (physicalAllocatorInit d maps).used p = true ↔
      ∀ e ∈ maps, e.Available → ¬ e.Frees p := by
  have h := Multiboot.used_foldl_loadEntry maps
    (0, { d with usedMemory := 0, physicalAllocation := fillBitmap d.physicalAllocation }) p
  have hset : ({ d with usedMemory := 0, physicalAllocation := fillBitmap d.physicalAllocation } :
      MemoryManagerData).used p = true := isSet_fillBitmap _ hp
  simp only [hset, true_and] at h
  exact h

/-- `TotalMemory` is the sum of the trimmed lengths, in 32 bits. -/
theorem totalMemory_physicalAllocatorInit (d : MemoryManagerData) (maps : List MemoryMap) :
    (physicalAllocatorInit d maps).totalMemory.toNat
      = (maps.map fun e => if e.Available then e.trimmedLength else 0).sum % 2 ^ 32 := by
  have h := Multiboot.fst_foldl_loadEntry maps
    (0, { d with usedMemory := 0, physicalAllocation := fillBitmap d.physicalAllocation })
  rw [show (0 : BitVec 32).toNat = 0 from rfl, Nat.zero_add] at h
  exact h

/-! ## Only RAM becomes allocatable, unless an entry overruns -/

/-- Every page marked free lies wholly inside an available entry. -/
def OnlyRamFree (d : MemoryManagerData) (maps : List MemoryMap) : Prop :=
  ∀ p, InBitmap p → (physicalAllocatorInit d maps).used p = false →
    ∃ e ∈ maps, e.Available ∧ e.Covers p

/-- The pages an entry frees are its own, unless it overruns. -/
theorem covers_of_not_overruns {e : MemoryMap} {p : ℕ} (h : ¬ e.Overruns) (hp : e.Frees p) :
    e.Covers p := by
  obtain ⟨i, hi, rfl⟩ := hp
  rw [Overruns, not_or, not_lt, not_and, not_lt] at h
  obtain ⟨hend, hlong⟩ := h
  rw [Covers, firstPage]
  by_cases ha : e.address.toNat % pageSize = 0
  · rw [pageCount, if_pos ha] at hi
    rw [pageSize] at *
    omega
  · have hlen := hlong ha
    have hmod : e.length.toNat % 2 ^ 32 = e.length.toNat := by
      apply Nat.mod_eq_of_lt
      have : 0 < e.address.toNat := by
        rcases Nat.eq_zero_or_pos e.address.toNat with h0 | h0
        · rw [h0] at ha
          exact absurd rfl ha
        · exact h0
      omega
    rw [pageCount, if_neg ha, hmod, if_neg (by omega)] at hi
    rw [pageSize] at *
    omega

theorem onlyRamFree_iff (d : MemoryManagerData) (maps : List MemoryMap) :
    OnlyRamFree d maps ↔
      ∀ e ∈ maps, e.Available → e.Overruns → ∀ p, InBitmap p → e.Frees p →
        ∃ e' ∈ maps, e'.Available ∧ e'.Covers p := by
  constructor
  · intro h e he hav _ p hp hfree
    apply h p hp
    rw [← Bool.not_eq_true, used_physicalAllocatorInit d maps hp]
    intro hall
    exact hall e he hav hfree
  · intro h p hp hused
    rw [← Bool.not_eq_true, used_physicalAllocatorInit d maps hp] at hused
    push Not at hused
    obtain ⟨e, he, hav, hfree⟩ := hused
    by_cases ho : e.Overruns
    · exact h e he hav ho p hp hfree
    · exact ⟨e, he, hav, covers_of_not_overruns ho hfree⟩

/-- The map of a machine with 4 GiB of memory, the last GiB of it above the 4 GiB line. -/
def fourGiBMap : List MemoryMap :=
  [⟨0, 0x9FC00, 1⟩, ⟨0x100000, 0xBFF00000, 1⟩, ⟨0x100000000, 0x40000000, 1⟩]

/-- The GiB above the line is read as the GiB at address 0, and the video memory at
`0xA0000` becomes allocatable. -/
theorem fourGiBMap_frees_videoMemory :
    ¬ OnlyRamFree ⟨0, 0, ⟨fun _ => 0⟩⟩ fourGiBMap := by
  intro h
  have hbit : InBitmap 0xA0 := by decide
  have hfree : (physicalAllocatorInit ⟨0, 0, ⟨fun _ => 0⟩⟩ fourGiBMap).used 0xA0 = false := by
    rw [← Bool.not_eq_true, used_physicalAllocatorInit _ _ hbit]
    intro hall
    exact hall ⟨0x100000000, 0x40000000, 1⟩ (by decide) (by decide) ⟨0xA0, by decide, rfl⟩
  obtain ⟨e, he, -, hcov⟩ := h 0xA0 hbit hfree
  simp only [fourGiBMap, List.mem_cons, List.not_mem_nil, or_false] at he
  rcases he with rfl | rfl | rfl <;> revert hcov <;> decide

end MemoryManager

end Sakura
