import Sakura.MemoryManager.FirstFitTheorems

/-!
# Ranges whose page tables exist

Where the directory entries of a range are present `VirtualMap` writes one table entry for
each page and nothing else. A page number is the pair of a slot and an index in its table, so
with distinct tables the entry of one page is the entry of no other (`Unshared.entry_separate`),
and the effect of the whole loop is known word by word (`MappedRange`). `VirtualAllocate` for the
kernel only ever maps such ranges.
-/

namespace Sakura.MemoryManager

open MemoryManagerData

/-- No two present slots name the same table. -/
def DistinctTables (m : Machine) (pd : ℕ) : Prop :=
  ∀ s < 1024, ∀ s' < 1024, slotPresent m pd s = true → slotPresent m pd s' = true →
    tableOf m pd s = tableOf m pd s' → s = s'

/-- The tables of the `n` pages from page `p` on are named by no other slots. -/
def Unshared (m : Machine) (pd p n : ℕ) : Prop :=
  ∀ q, p ≤ q → q < p + n → slotPresent m pd (q / 1024) = true →
    ∀ s < 1024, slotPresent m pd s = true → tableOf m pd s = tableOf m pd (q / 1024) → s = q / 1024

/-- The slots of the `n` pages from page `p` on are present, and the directory is none of their
tables. -/
structure Covered (m : Machine) (pd p n : ℕ) : Prop where
  slot : ∀ q, p ≤ q → q < p + n → slotPresent m pd (q / 1024) = true
  table_ne : ∀ q, p ≤ q → q < p + n → tableOf m pd (q / 1024) ≠ pd

/-- The effect of mapping the `n` pages from `p` on to the frames from `f` on, where their tables
exist. -/
structure MappedRange (m m' : Machine) (pd p n f : ℕ) (isUser : Bool) : Prop where
  directory : ∀ i, m'.ram pd i = m.ram pd i
  entry : ∀ q < 2 ^ 20, slotPresent m pd (q / 1024) = true → pageEntry m' pd q =
    if p ≤ q ∧ q < p + n then Entry.map (pageEntry m pd q) isUser ((f + (q - p)) % 2 ^ 20)
    else pageEntry m pd q
  other : ∀ g, (∀ q, p ≤ q → q < p + n → tableOf m pd (q / 1024) ≠ g) →
    ∀ i, m'.ram g i = m.ram g i
  data : m'.memManData = m.memManData
  interrupts : m'.interrupts = m.interrupts
  cr3 : m'.cr3 = m.cr3

section

variable {m m₁ m₂ : Machine} {pd p n f : ℕ} {isUser : Bool}

/-- With tables of their own no two pages share an entry. -/
theorem DistinctTables.unshared (h : DistinctTables m pd) (hle : p + n ≤ 2 ^ 20) :
    Unshared m pd p n := by
  intro q _ hq hqs s hs hss heq
  exact h s hs _ (by omega) hss hqs heq

theorem Unshared.mono (h : Unshared m pd p n) {p' n' : ℕ} (hp : p ≤ p') (hn : p' + n' ≤ p + n) :
    Unshared m pd p' n' :=
  fun q h1 h2 => h q (by omega) (by omega)

/-- No other page has its entry in the same place. -/
theorem Unshared.entry_separate (h : Unshared m pd p n) {q r : ℕ} (h1 : p ≤ q) (h2 : q < p + n)
    (hr : r < 2 ^ 20) (hqs : slotPresent m pd (q / 1024) = true)
    (hrs : slotPresent m pd (r / 1024) = true) (hne : q ≠ r) :
    ¬ (tableOf m pd (r / 1024) = tableOf m pd (q / 1024) ∧ r % 1024 = q % 1024) := by
  intro heq
  apply hne
  have hslot := h q h1 h2 hqs _ (by omega) hrs heq.1
  omega

/-- The directory decides which slots are present and what they name. -/
theorem slot_congr (h : ∀ i, m₁.ram pd i = m.ram pd i) (s : ℕ) :
    slotPresent m₁ pd s = slotPresent m pd s ∧ tableOf m₁ pd s = tableOf m pd s := by
  unfold slotPresent tableOf
  rw [h]
  exact ⟨rfl, rfl⟩

/-- Sharing is about the directory's words. -/
theorem Unshared.congr (h : Unshared m pd p n) (hram : ∀ i, m₁.ram pd i = m.ram pd i) :
    Unshared m₁ pd p n := by
  intro q h1 h2
  rw [(slot_congr hram _).1, (slot_congr hram _).2]
  intro hqs s hs
  rw [(slot_congr hram s).1, (slot_congr hram s).2]
  exact h q h1 h2 hqs s hs

/-- So is having tables. -/
theorem Covered.congr (h : Covered m pd p n) (hram : ∀ i, m₁.ram pd i = m.ram pd i) :
    Covered m₁ pd p n := by
  constructor
  · intro q h1 h2
    rw [(slot_congr hram _).1]
    exact h.slot q h1 h2
  · intro q h1 h2
    rw [(slot_congr hram _).2]
    exact h.table_ne q h1 h2

theorem Covered.mono (h : Covered m pd p n) {p' n' : ℕ} (hp : p ≤ p') (hn : p' + n' ≤ p + n) :
    Covered m pd p' n' :=
  ⟨fun q h1 h2 => h.slot q (by omega) (by omega), fun q h1 h2 => h.table_ne q (by omega) (by omega)⟩

/-! ## Mapping -/

theorem MappedRange.refl (m : Machine) (pd p f : ℕ) (isUser : Bool) :
    MappedRange m m pd p 0 f isUser := by
  refine ⟨fun _ => rfl, ?_, fun _ _ _ => rfl, rfl, rfl, rfl⟩
  intro q _ _
  rw [if_neg (by omega)]

/-- The first page, and then the rest. -/
theorem MappedRange.cons (h : MappedRange m m₁ pd p 1 f isUser)
    (h' : MappedRange m₁ m₂ pd (p + 1) n ((f + 1) % 2 ^ 20) isUser) :
    MappedRange m m₂ pd p (n + 1) f isUser := by
  refine ⟨?_, ?_, ?_, h'.data.trans h.data, h'.interrupts.trans h.interrupts, h'.cr3.trans h.cr3⟩
  · intro i
    rw [h'.directory, h.directory]
  · intro q hq hqs
    rw [h'.entry q hq ((slot_congr h.directory _).1.trans hqs), h.entry q hq hqs]
    rcases Nat.lt_trichotomy q p with hlt | heq | hgt
    · rw [if_neg (by omega), if_neg (by omega), if_neg (by omega)]
    · rw [if_neg (by omega), if_pos (by omega), if_pos (by omega)]
    · rw [if_neg (show ¬ (p ≤ q ∧ q < p + 1) by omega)]
      by_cases hin : q < p + (n + 1)
      · rw [if_pos (by omega), if_pos (by omega)]
        congr 1
        omega
      · rw [if_neg (by omega), if_neg (by omega)]
  · intro g hg i
    rw [h'.other g, h.other g]
    · intro q h1 h2
      exact hg q h1 (by omega)
    · intro q h1 h2
      rw [(slot_congr h.directory _).2]
      exact hg q (by omega) (by omega)

end

end Sakura.MemoryManager
