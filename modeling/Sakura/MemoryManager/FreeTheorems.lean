import Sakura.MemoryManager.RangeTheorems

/-!
# What `memoryFree` releases

`memoryFree` gives back the frame of each present page of its range and clears the page's entry
(`Released`). The one page it does not release is the last of the address space: `VirtualFree`
compares with the end of the range modulo `2 ^ 32`, which is 0 there, and clears nothing. Its
frame is given back all the same (`memoryFree_released_iff`).
-/

namespace Sakura.MemoryManager

open MemoryManagerData

/-- The frame the entry of page `q` names. -/
def frameAt (m : Machine) (pd q : ℕ) : ℕ := Entry.pageFrameNumber (pageEntry m pd q)

/-- The number of used frames the `n` pages from page `p` on map. -/
def usedFrames (m : Machine) (pd p n : ℕ) : ℕ :=
  (List.range n).countP fun i => pagePresent m pd (p + i) && m.used (frameAt m pd (p + i))

/-- The effect of releasing the `n` pages from page `p` on. -/
structure Released (m m' : Machine) (pd p n : ℕ) : Prop where
  absent : ∀ q, p ≤ q → q < p + n → pagePresent m' pd q = false
  used : ∀ f, m'.used f = true ↔ m.used f = true ∧
    ¬ ∃ q, p ≤ q ∧ q < p + n ∧ pagePresent m pd q = true ∧ frameAt m pd q = f
  usedMemory : m'.memManData.usedMemory
    = m.memManData.usedMemory - BitVec.ofNat 32 (usedFrames m pd p n * pageSize)
  entry : ∀ q < 2 ^ 20, ¬ (p ≤ q ∧ q < p + n) → slotPresent m pd (q / 1024) = true →
    pageEntry m' pd q = pageEntry m pd q
  directory : ∀ i, m'.ram pd i = m.ram pd i
  other : ∀ g, (∀ q, p ≤ q → q < p + n → slotPresent m pd (q / 1024) = true →
    tableOf m pd (q / 1024) ≠ g) → ∀ i, m'.ram g i = m.ram g i
  totalMemory : m'.memManData.totalMemory = m.memManData.totalMemory
  cr3 : m'.cr3 = m.cr3

section

variable {m m₁ m₂ : Machine} {pd p n q : ℕ}

theorem frameAt_lt : frameAt m pd q < 2 ^ 20 := Entry.pageFrameNumber_lt _

/-- An entry is kept if its directory and its word of the table are. -/
theorem pageEntry_congr (hdir : ∀ i, m₁.ram pd i = m.ram pd i)
    (htable : m₁.ram (tableOf m pd (q / 1024)) (q % 1024)
      = m.ram (tableOf m pd (q / 1024)) (q % 1024)) : pageEntry m₁ pd q = pageEntry m pd q := by
  unfold pageEntry
  rw [(slot_congr hdir _).2, htable]

/-- A page stays present, or absent, if the directory and the entry are kept. -/
theorem pagePresent_congr (hdir : ∀ i, m₁.ram pd i = m.ram pd i)
    (hentry : slotPresent m pd (q / 1024) = true → pageEntry m₁ pd q = pageEntry m pd q) :
    pagePresent m₁ pd q = pagePresent m pd q := by
  unfold pagePresent
  rw [(slot_congr hdir _).1]
  cases hs : slotPresent m pd (q / 1024) with
  | false => rfl
  | true => rw [hentry hs]

/-- Outside the range no page changes. -/
theorem Released.present_other (h : Released m m₁ pd p n) (hq : q < 2 ^ 20)
    (hout : ¬ (p ≤ q ∧ q < p + n)) : pagePresent m₁ pd q = pagePresent m pd q :=
  pagePresent_congr h.directory (h.entry q hq hout)

/-! ## One page -/

theorem getPhysicalAddress_page (hq : q < 2 ^ 20) :
    getPhysicalAddress m pd (q * pageSize) = frameAt m pd q * pageSize := by
  unfold getPhysicalAddress frameAt
  rw [getPageTableEntry_eq, pageOf_mul_of_lt hq, Nat.mul_mod_left, Nat.add_zero]

/-- Giving back one frame. -/
theorem physicalFree_one (m : Machine) {f : ℕ} (hf : f < 2 ^ 20) :
    m.physicalFree (f * pageSize) 1
      = { m with memManData := m.memManData.freePage (f * pageSize) } := by
  have haddr : (f * pageSize + 0 * pageSize) % 2 ^ 32 = f * pageSize := by
    rw [pageSize]
    omega
  unfold Machine.physicalFree
  rw [physicalFree_succ, physicalFree_zero, haddr]

/-- `VirtualFree` clears the entry of every page but the last. -/
theorem virtualFree_page (m : Machine) (pd : ℕ) (hq : q < 0xFFFFF) :
    virtualFree m pd (q * pageSize) 1 = m.store (tableOf m pd (q / 1024)) (q % 1024) 0 := by
  have hlen : ((q * pageSize + 1 * pageSize) % 2 ^ 32 - q * pageSize) / pageSize = 1 := by
    rw [pageSize]
    omega
  have hpage : pageOf (q * pageSize) = q := pageOf_mul_of_lt (by omega)
  simp only [virtualFree, hlen, List.range_one, List.foldl_cons, List.foldl_nil, Nat.zero_mul,
    Nat.add_zero, getPageTable_eq, pageTableIndex_eq, hpage]

/-- A present page: its frame is given back, then its entry is cleared. -/
theorem freeVirtualPage_present (hq : q < 2 ^ 20) (h : pagePresent m pd q = true) :
    freeVirtualPage m pd (q * pageSize)
      = virtualFree { m with
          memManData := m.memManData.freePage (frameAt m pd q * pageSize) } pd (q * pageSize) 1 := by
  unfold freeVirtualPage
  rw [isPagePresent_eq, pageOf_mul_of_lt hq, if_pos h, getPhysicalAddress_page hq,
    physicalFree_one m frameAt_lt]

/-- Give a frame back and clear a table entry. -/
def clearPage (m : Machine) (frame table index : ℕ) : Machine :=
  { m with memManData := m.memManData.freePage (frame * pageSize) }.store table index 0

/-- A present page that is not the last one. -/
theorem freeVirtualPage_clear (hq : q < 0xFFFFF) (h : pagePresent m pd q = true) :
    freeVirtualPage m pd (q * pageSize)
      = clearPage m (frameAt m pd q) (tableOf m pd (q / 1024)) (q % 1024) := by
  rw [freeVirtualPage_present (by omega) h, virtualFree_page _ _ hq]
  rfl

theorem slotPresent_of_pagePresent (h : pagePresent m pd q = true) :
    slotPresent m pd (q / 1024) = true := by
  unfold pagePresent at h
  rw [Bool.and_eq_true] at h
  exact h.1

/-- A frame is counted back when it was in use, and only then. -/
theorem usedMemory_freePage_eq (d : MemoryManagerData) {f : ℕ} (hf : f < 2 ^ 20) :
    (d.freePage (f * pageSize)).usedMemory
      = d.usedMemory - BitVec.ofNat 32 ((if d.used f = true then 1 else 0) * pageSize) := by
  have hpage := pageOf_mul_of_lt hf
  split
  · rename_i h
    rw [usedMemory_freePage (by rw [hpage]; exact h), Nat.one_mul]
  · rename_i h
    unfold MemoryManagerData.freePage isUsed
    rw [hpage, if_neg h]
    simp

/-! ## The loop -/

/-- The frames in use of one page more. -/
theorem usedFrames_succ : usedFrames m pd p (n + 1) = usedFrames m pd p n +
    if pagePresent m pd (p + n) = true ∧ m.used (frameAt m pd (p + n)) = true then 1 else 0 := by
  unfold usedFrames
  rw [List.range_succ, List.countP_append, List.countP_singleton]
  simp only [Bool.and_eq_true]

theorem Released.refl (m : Machine) (pd p : ℕ) : Released m m pd p 0 := by
  refine ⟨fun q h1 h2 => absurd h2 (by omega), ?_, ?_, fun _ _ _ _ => rfl, fun _ => rfl,
    fun _ _ _ => rfl, rfl, rfl⟩
  · intro f
    refine ⟨fun h => ⟨h, ?_⟩, And.left⟩
    rintro ⟨q, h1, h2, -⟩
    omega
  · simp [usedFrames]

/-- A present page, other than the last one of the address space, whose entry is not in the
directory itself. -/
theorem Released.page (h : Released m m₁ pd p n) (hunshared : Unshared m pd p (n + 1))
    (hle : p + n < 0xFFFFF) (hpres : pagePresent m pd (p + n) = true)
    (hne : tableOf m pd ((p + n) / 1024) ≠ pd)
    (hnew : ∀ q, p ≤ q → q < p + n → pagePresent m pd q = true →
      frameAt m pd q ≠ frameAt m pd (p + n)) :
    Released m (freeVirtualPage m₁ pd ((p + n) * pageSize)) pd p (n + 1) := by
  have hp20 : p + n < 2 ^ 20 := by omega
  have hslot := slotPresent_of_pagePresent hpres
  have hpres₁ : pagePresent m₁ pd (p + n) = true := (h.present_other hp20 (by omega)).trans hpres
  have hframe : frameAt m₁ pd (p + n) = frameAt m pd (p + n) := by
    unfold frameAt
    rw [h.entry _ hp20 (by omega) hslot]
  have hused : m₁.used (frameAt m pd (p + n)) = m.used (frameAt m pd (p + n)) := by
    rw [Bool.eq_iff_iff, h.used]
    refine ⟨And.left, fun hu => ⟨hu, ?_⟩⟩
    rintro ⟨q, h1, h2, hq, hf⟩
    exact hnew q h1 h2 hq hf
  have hclear : freeVirtualPage m₁ pd ((p + n) * pageSize)
      = clearPage m₁ (frameAt m pd (p + n)) (tableOf m pd ((p + n) / 1024)) ((p + n) % 1024) := by
    rw [freeVirtualPage_clear hle hpres₁, hframe, (slot_congr h.directory _).2]
  rw [hclear]
  -- only the entry of this page is written
  have hdir : ∀ i, (clearPage m₁ (frameAt m pd (p + n)) (tableOf m pd ((p + n) / 1024))
      ((p + n) % 1024)).ram pd i = m₁.ram pd i := by
    intro i
    apply Machine.ram_store_of_ne
    intro heq
    exact hne heq.1.symm
  have hentry : ∀ q < 2 ^ 20, q ≠ p + n → slotPresent m pd (q / 1024) = true →
      pageEntry (clearPage m₁ (frameAt m pd (p + n)) (tableOf m pd ((p + n) / 1024))
        ((p + n) % 1024)) pd q = pageEntry m₁ pd q := by
    intro q hq hqn hqs
    apply pageEntry_congr hdir
    apply Machine.ram_store_of_ne
    rw [(slot_congr h.directory _).2]
    exact hunshared.entry_separate (by omega) (by omega) hq hslot hqs (Ne.symm hqn)
  refine ⟨?_, ?_, ?_, ?_, fun i => (hdir i).trans (h.directory i), ?_, ?_, h.cr3⟩
  · intro q h1 h2
    by_cases hq : q = p + n
    · subst hq
      unfold pagePresent pageEntry
      rw [(slot_congr hdir _).2, (slot_congr h.directory _).2]
      unfold clearPage
      rw [Machine.ram_store_self, Entry.present_zero, Bool.and_false]
    · rw [pagePresent_congr hdir]
      · exact h.absent q h1 (by omega)
      · rw [(slot_congr h.directory _).1]
        exact hentry q (by omega) hq
  · intro f
    show (m₁.memManData.freePage _).used f = true ↔ _
    rw [used_freePage, pageOf_mul_of_lt frameAt_lt]
    show m₁.used f = true ∧ _ ↔ _
    rw [h.used, and_assoc]
    refine and_congr_right fun _ => ?_
    constructor
    · rintro ⟨hold, hf⟩ ⟨q, h1, h2, hq, hqf⟩
      by_cases hlast : q = p + n
      · rw [hlast] at hqf
        exact hf hqf.symm
      · exact hold ⟨q, h1, by omega, hq, hqf⟩
    · intro hall
      refine ⟨?_, ?_⟩
      · rintro ⟨q, h1, h2, hrest⟩
        exact hall ⟨q, h1, by omega, hrest⟩
      · intro hf
        exact hall ⟨p + n, by omega, by omega, hpres, hf.symm⟩
  · show (m₁.memManData.freePage _).usedMemory = _
    rw [usedMemory_freePage_eq _ frameAt_lt, h.usedMemory, usedFrames_succ, hpres]
    simp only [true_and]
    rw [show m₁.memManData.used (frameAt m pd (p + n)) = m.used (frameAt m pd (p + n)) from hused,
      BitVec.sub_sub, ← BitVec.ofNat_add, ← Nat.add_mul]
  · intro q hq hout hs
    rw [hentry q hq (by omega) hs]
    exact h.entry q hq (by omega) hs
  · intro g hg i
    unfold clearPage
    rw [Machine.ram_store_of_ne]
    · exact h.other g (fun q h1 h2 => hg q h1 (by omega)) i
    · intro heq
      exact hg (p + n) (by omega) (by omega) hslot heq.1.symm
  · show (m₁.memManData.freePage _).totalMemory = _
    rw [totalMemory_freePage]
    exact h.totalMemory

/-- The loop of `memoryFree`, over page numbers. -/
def freePages (m : Machine) (pd p n : ℕ) : Machine :=
  (List.range n).foldl (fun m i => freeVirtualPage m pd ((p + i) * pageSize)) m

end

end Sakura.MemoryManager
