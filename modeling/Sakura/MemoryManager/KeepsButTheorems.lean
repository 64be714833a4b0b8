import Sakura.MemoryManager.FreeBlockTheorems

/-!
# Data that stays, with exceptions

`KeepsData` for calls that also take something away: which pages are mapped elsewhere, and which
bytes are written, is said beside it. Mapping a range takes its pages, and, where it needs tables,
may take pages below 1 GiB, where the new tables are mapped to themselves (`Remaps`).
-/

namespace Sakura.MemoryManager

open MemoryManagerData

/-- What is in the settled frames stays, but for the bytes `W` (of a frame, at an offset), and so
do the pages mapped to them, but for the pages `P` (with that frame). -/
structure KeepsBut (L : Layout) (D : List ℕ) (P W : ℕ → ℕ → Prop) (m m' : Machine) : Prop where
  page : ∀ q < 2 ^ 20, pagePresent m m.cr3 q = true → Settled L ⟨m, D⟩ (frameAt m m.cr3 q) →
    ¬ P q (frameAt m m.cr3 q) →
    pagePresent m' m.cr3 q = true ∧ frameAt m' m.cr3 q = frameAt m m.cr3 q
  byte : ∀ f, Settled L ⟨m, D⟩ f → ∀ o, ¬ W f o → m'.byte f o = m.byte f o
  settled : ∀ f, Settled L ⟨m, D⟩ f → Settled L ⟨m', D⟩ f
  cr3 : m'.cr3 = m.cr3

section

variable {L : Layout} {D : List ℕ} {P P' W W' : ℕ → ℕ → Prop} {m m' m₁ m₂ : Machine}

theorem KeepsBut.refl (L : Layout) (D : List ℕ) (P W : ℕ → ℕ → Prop) (m : Machine) :
    KeepsBut L D P W m m :=
  ⟨fun _ _ hpres _ _ => ⟨hpres, rfl⟩, fun _ _ _ _ => rfl, fun _ h => h, rfl⟩

theorem KeepsBut.mono (h : KeepsBut L D P W m m') (hP : ∀ q f, P q f → P' q f)
    (hW : ∀ f o, W f o → W' f o) : KeepsBut L D P' W' m m' :=
  ⟨fun q hq hpres hset hnot => h.page q hq hpres hset fun hp => hnot (hP _ _ hp),
    fun f hf o hnot => h.byte f hf o fun hw => hnot (hW _ _ hw), h.settled, h.cr3⟩

theorem KeepsBut.trans (h : KeepsBut L D P W m m₁) (h' : KeepsBut L D P W m₁ m₂) :
    KeepsBut L D P W m m₂ := by
  refine ⟨fun q hq hpres hset hnot => ?_, fun f hf o hnot => ?_,
    fun f hf => h'.settled f (h.settled f hf), h'.cr3.trans h.cr3⟩
  · obtain ⟨h1, h2⟩ := h.page q hq hpres hset hnot
    have hset' := h.settled _ hset
    have hkeep := h'.page q hq
    rw [h.cr3, h2] at hkeep
    exact hkeep h1 hset' hnot
  · rw [h'.byte f (h.settled f hf) o hnot, h.byte f hf o hnot]

/-- A call that keeps data has no exceptions. -/
theorem KeepsData.keepsBut (h : KeepsData L D m.cr3 m m') :
    KeepsBut L D (fun _ _ => False) (fun _ _ => False) m m' := by
  refine ⟨fun q hq hpres hset _ => ?_, fun f hf o _ => ?_, h.settled, h.cr3⟩
  · obtain ⟨h1, h2⟩ := h.page q hq hpres hset
    exact ⟨h1, by rw [frameAt, h2, ← frameAt]⟩
  · rw [Machine.byte, h.ram f hf, ← Machine.byte]

/-- Writing data. -/
theorem Wrote.keepsBut {F : ℕ → Prop} (hw : Wrote F m m') (hinv : DirectoriesInv L ⟨m, D⟩)
    (hF : ∀ f, F f → ¬ Structural L ⟨m, D⟩ f)
    (hbyte : ∀ f o, ¬ W f o → m'.byte f o = m.byte f o) : KeepsBut L D P W m m' := by
  refine ⟨fun q hq hpres _ _ => ?_, fun f _ o => hbyte f o, fun f => hw.settled hF, hw.cr3⟩
  obtain ⟨h1, h2⟩ := hw.page hinv hF hinv.cr3 hq
  exact ⟨h1.trans hpres, by rw [frameAt, h2 hpres, ← frameAt]⟩

/-- After it, only frames were written that were not in use before and hold no table. -/
theorem KeepsBut.wrote {F : ℕ → Prop} (h : KeepsBut L D P W m m₁)
    (hinv : DirectoriesInv L ⟨m₁, D⟩)
    (hF : ∀ f, F f → m.used f = false ∧ ¬ Structural L ⟨m₁, D⟩ f) (hw : Wrote F m₁ m₂) :
    KeepsBut L D P W m m₂ := by
  have hdata : ∀ f, F f → ¬ Structural L ⟨m₁, D⟩ f := fun f hf => (hF f hf).2
  refine ⟨fun q hq hpres hset hnot => ?_, fun f hf o hnot => ?_,
    fun f hf => hw.settled hdata (h.settled f hf), hw.cr3.trans h.cr3⟩
  · obtain ⟨h1, h2⟩ := h.page q hq hpres hset hnot
    obtain ⟨h3, h4⟩ := hw.page hinv hdata (h.cr3 ▸ hinv.cr3) hq
    exact ⟨h3.trans h1, by rw [frameAt, h4 h1, ← frameAt, h2]⟩
  · have hnot' : ¬ F f := by
      intro hFf
      have hunused := (hF f hFf).1
      rw [hf.used] at hunused
      exact Bool.false_ne_true hunused.symm
    rw [Machine.byte, hw.ram f _ hnot', ← Machine.byte, h.byte f hf o hnot]

end

/-! ## Mapping -/

/-- Mapping the `n` pages from page `p` on takes page `q` from frame `f`: it is one of them, or the
table for one of them may be mapped there. -/
def Remaps (p n q f : ℕ) : Prop := InRun p n q ∨ kernelPages < p + n ∧ q < kernelPages ∧ q ≠ f

section

variable {L : Layout} {D : List ℕ} {m m₁ m' : Machine} {p n f : ℕ} {A : List (ℕ × ℕ)}

theorem RangeDealt.keepsBut (h : RangeDealt L D m m₁ m' p n f A)
    (hinv : DirectoriesInv L ⟨m, D⟩) (hside : OneSide p n) :
    KeepsBut L D (Remaps p n) (fun _ _ => False) m m' := by
  have hgiven := h.given hinv hside
  refine ⟨fun q hq hpres hset hnot => ?_, fun g hg o _ => ?_, fun g hg => (hgiven.settled g hg).1,
    hgiven.cr3⟩
  · rw [Remaps, not_or] at hnot
    obtain ⟨hrun, hself⟩ := hnot
    by_cases hq' : q = frameAt m m.cr3 q
    · -- the frames of new tables were not in use, so none of them is mapped to itself
      have hentry := hgiven.page q hq hpres hrun (by rw [hq']; exact hset.used)
      exact ⟨hgiven.present q hq hpres, by rw [frameAt, hentry, ← frameAt]⟩
    · obtain ⟨h1, h2⟩ := h.keepsPage_apart hinv.cr3 hq hpres hrun (by
        by_contra hside'
        rw [not_or] at hside'
        exact hself ⟨by omega, by omega, hq'⟩)
      exact ⟨h1, by rw [frameAt, h2, ← frameAt]⟩
  · rw [Machine.byte, (hgiven.settled g hg).2, ← Machine.byte]

end

end Sakura.MemoryManager
