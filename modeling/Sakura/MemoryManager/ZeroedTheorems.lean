import Sakura.MemoryManager.FirstFitTheorems
import Sakura.MemoryManager.KeepsDataTheorems
import Sakura.MemoryManager.MemoryMapTheorems
import Sakura.MemoryManager.UndoTheorems

/-!
# What `memoryAllocate` clears

The pages are mapped in the directory that is passed in, and cleared through the one that is
active. For the kernel's GiB and for the active directory itself these are the same pages
(`Zeroed`). For the user memory of another directory they are not: what is cleared lies at the
same addresses of the active directory, and the new memory keeps what was in it
(`memoryAllocate_zeroes_iff`).
-/

namespace Sakura.MemoryManager

open MemoryManagerData

/-! ## What may change -/

/-- A frame that was taken for a table: it was free, and no page of the run is mapped to it. -/
def TableFrame (m m' : Machine) (pd p n t : ℕ) : Prop :=
  m.used t = false ∧ m'.used t = true ∧ ∀ q, InRun p n q → frameAt m' pd q ≠ t

/-- An entry of the new mapping: a directory entry that was empty, or the entry of a page of the
run or of a new table, in a table of the directory or in a new one. -/
def NewEntry (m m' : Machine) (pd p n g i : ℕ) : Prop :=
  (g = pd ∧ slotPresent m pd i = false) ∨
  ∃ w < 2 ^ 20, w % 1024 = i ∧ (InRun p n w ∨ TableFrame m m' pd p n w) ∧
    (slotPresent m pd (w / 1024) = true ∧ tableOf m pd (w / 1024) = g ∨
      slotPresent m pd (w / 1024) = false ∧ TableFrame m m' pd p n g)

/-- The `n` pages from page `p` on are there and hold zeros, and of the other frames only entries of
the new mapping have changed. -/
structure Zeroed (m m' : Machine) (pd p n : ℕ) : Prop where
  zero : ∀ q, InRun p n q → pagePresent m' pd q = true ∧ ∀ i, m'.ram (frameAt m' pd q) i = 0
  other : ∀ g i, (∀ q, InRun p n q → frameAt m' pd q ≠ g) →
    m'.ram g i = m.ram g i ∨ NewEntry m m' pd p n g i

/-! ## Clearing -/

section

variable {L : Layout} {D : List ℕ} {m m' m₂ : Machine} {pd p n f : ℕ}

theorem memset_ram (n : ℕ) : ∀ {m m' : Machine} {va : ℕ}, memset n m va = some m' →
    ∀ g i, m'.ram g i = 0 ∨ m'.ram g i = m.ram g i := by
  induction n with
  | zero =>
    intro m m' va h g i
    exact Or.inr (Option.some.inj h ▸ rfl)
  | succ n ih =>
    intro m m' va h g i
    rw [memset, Option.bind_eq_some_iff] at h
    obtain ⟨f, -, hrest⟩ := h
    rcases ih hrest g i with hzero | hsame
    · exact Or.inl hzero
    · rw [hsame]
      by_cases hg : g = f
      · exact Or.inl (if_pos hg)
      · exact Or.inr (if_neg hg)

/-- Clearing pages that, as far as they are present, are mapped to data: all of them are present. -/
theorem memset_wrote {F : ℕ → Prop} (n : ℕ) : ∀ {m m' : Machine} {va : ℕ},
    (∀ g, F g → DataFrame m g) →
    (∀ q, InRun (pageOf va) n q → pagePresent m m.cr3 q = true → F (frameAt m m.cr3 q)) →
    memset n m va = some m' →
    (∀ q, InRun (pageOf va) n q → pagePresent m m.cr3 q = true) ∧ Wrote F m m' ∧
      ∀ q, InRun (pageOf va) n q → ∀ i, m'.ram (frameAt m m.cr3 q) i = 0 := by
  induction n with
  | zero =>
    intro m m' va _ _ h
    obtain rfl := Option.some.inj h
    exact ⟨fun q hq => absurd hq (not_inRun_zero _ q), Wrote.refl F m,
      fun q hq => absurd hq (not_inRun_zero _ q)⟩
  | succ n ih =>
    intro m m' va hF hto h
    rw [memset, Option.bind_eq_some_iff] at h
    obtain ⟨g, htrans, hrest⟩ := h
    obtain ⟨hpres, hframe⟩ := translate_eq_some.mp htrans
    have hsucc : ∀ q, InRun (pageOf va) (n + 1) q ↔
        q = pageOf va ∨ InRun (pageOf ((va + pageSize) % 2 ^ 32)) n q := by
      intro q
      rw [inRun_succ_left (pageOf_lt va), pageOf_next]
    have hg : F g := hframe ▸ hto _ ((hsucc _).mpr (Or.inl rfl)) hpres
    have hw : Wrote F m (m.zeroFrame g) :=
      ⟨fun q i hq => if_neg fun (he : q = g) => hq (he ▸ hg), rfl, rfl⟩
    have hpage : ∀ q < 2 ^ 20, pagePresent (m.zeroFrame g) m.cr3 q = pagePresent m m.cr3 q ∧
        (pagePresent m m.cr3 q = true → frameAt (m.zeroFrame g) m.cr3 q = frameAt m m.cr3 q) := by
      intro q hq
      obtain ⟨h1, h2⟩ := page_congr (fun i => hw.ram _ i fun hd => (hF _ hd).ne_directory rfl)
        (fun s hs hp i => hw.ram _ i fun ht => (hF _ ht).ne_table s hs hp rfl) hq
      exact ⟨h1, fun hp => congrArg Entry.pageFrameNumber (h2 hp)⟩
    obtain ⟨hall, hw', hzero⟩ := ih (fun q hq => hw.dataFrame hF (hF q hq))
      (fun q hq hp => by
        have hlt := hq.lt
        obtain ⟨h1, h2⟩ := hpage q hlt
        have hp' : pagePresent m m.cr3 q = true := h1 ▸ hp
        show F (frameAt (m.zeroFrame g) m.cr3 q)
        rw [h2 hp']
        exact hto q ((hsucc q).mpr (Or.inr hq)) hp') hrest
    have hall' : ∀ q, InRun (pageOf va) (n + 1) q → pagePresent m m.cr3 q = true := by
      intro q hq
      rcases (hsucc q).mp hq with rfl | hq
      · exact hpres
      · rw [← (hpage q hq.lt).1]
        exact hall q hq
    refine ⟨hall', hw.trans hw', fun q hq i => ?_⟩
    by_cases hq' : InRun (pageOf ((va + pageSize) % 2 ^ 32)) n q
    · have := hzero q hq' i
      rwa [show (m.zeroFrame g).cr3 = m.cr3 from rfl, (hpage q hq'.lt).2 (hall' q hq)] at this
    · obtain rfl := ((hsucc q).mp hq).resolve_right hq'
      rcases memset_ram n hrest (frameAt m m.cr3 (pageOf va)) i with hzero | hsame
      · exact hzero
      · rw [hsame]
        exact if_pos hframe

/-! ## Mapping -/

/-- What `memoryAllocate` has done before it clears the pages: those from page `p` on are mapped to
the frames from frame `f` on. -/
structure FramesMapped (L : Layout) (D : List ℕ) (m m' : Machine) (pd p n f : ℕ) : Prop where
  inv : DirectoriesInv L ⟨m', D⟩
  cr3 : m'.cr3 = m.cr3
  page : ∀ i < n, pagePresent m' pd ((p + i) % 2 ^ 20) = true ∧
    frameAt m' pd ((p + i) % 2 ^ 20) = (f + i) % 2 ^ 20
  unused : ∀ g, InRun f n g → m.used g = false
  settled : ∀ g, Settled L ⟨m, D⟩ g ∨ InRun f n g →
    Settled L ⟨m', D⟩ g ∧ ∀ i, m'.ram g i = m.ram g i
  entry : ∀ g i, m'.ram g i = m.ram g i ∨ NewEntry m m' pd p n g i

theorem FramesMapped.present (h : FramesMapped L D m m' pd p n f) {q : ℕ} (hq : InRun p n q) :
    pagePresent m' pd q = true ∧ InRun f n (frameAt m' pd q) := by
  obtain ⟨i, hi, rfl⟩ := hq
  obtain ⟨h1, h2⟩ := h.page i hi
  exact ⟨h1, h2 ▸ ⟨i, hi, rfl⟩⟩

theorem FramesMapped.atomicDisable (h : FramesMapped L D m m' pd p n f) :
    FramesMapped L D m m'.atomicDisable pd p n f := by
  refine ⟨h.inv.of_ram (fun _ _ _ => rfl) h.inv.used h.inv.cr3, h.cr3, h.page, h.unused,
    fun g hg => ?_, h.entry⟩
  obtain ⟨hsettled, hram⟩ := h.settled g hg
  exact ⟨⟨hsettled.used, fun hs => hsettled.data (hs.congr fun _ _ _ => rfl)⟩, hram⟩

/-! ## The same pages -/

theorem NewEntry.congr {g i : ℕ} (h : NewEntry m m₂ pd p n g i) (hused : ∀ t, m'.used t = m₂.used t)
    (hframe : ∀ q, InRun p n q → frameAt m' pd q = frameAt m₂ pd q) : NewEntry m m' pd p n g i := by
  have htable : ∀ t, TableFrame m m₂ pd p n t → TableFrame m m' pd p n t := by
    rintro t ⟨h1, h2, h3⟩
    exact ⟨h1, (hused t).trans h2, fun q hq => by rw [hframe q hq]; exact h3 q hq⟩
  rcases h with hempty | ⟨w, hw, hi, hwhich, hin⟩
  · exact Or.inl hempty
  · exact Or.inr ⟨w, hw, hi, hwhich.imp_right (htable w),
      hin.imp_right fun hnew => ⟨hnew.1, htable g hnew.2⟩⟩

/-- What else changes when data frames are written. -/
theorem FramesMapped.entry_wrote {F : ℕ → Prop} (h : FramesMapped L D m m₂ pd p n f) (hpd : pd ∈ D)
    (hF : ∀ g, F g → ¬ Structural L ⟨m₂, D⟩ g) (hw : Wrote F m₂ m') :
    (∀ q, InRun p n q → pagePresent m' pd q = true ∧ frameAt m' pd q = frameAt m₂ pd q) ∧
      ∀ g i, ¬ F g → m'.ram g i = m.ram g i ∨ NewEntry m m' pd p n g i := by
  have hpage : ∀ q, InRun p n q → pagePresent m' pd q = true ∧ frameAt m' pd q = frameAt m₂ pd q := by
    intro q hq
    obtain ⟨h1, h2⟩ := hw.page h.inv hF hpd hq.lt
    have hpres := (h.present hq).1
    exact ⟨h1.trans hpres, congrArg Entry.pageFrameNumber (h2 hpres)⟩
  refine ⟨hpage, fun g i hg => ?_⟩
  rw [hw.ram g i hg]
  refine (h.entry g i).imp_right fun hnew => hnew.congr (fun t => ?_) fun q hq => (hpage q hq).2
  rw [Machine.used, hw.data]
  rfl

/-- Clearing the pages where the active directory sees them as well. -/
theorem FramesMapped.zeroed {va : ℕ} (h : FramesMapped L D m m₂ pd (pageOf va) n f) (hpd : pd ∈ D)
    (hview : ∀ q, InRun (pageOf va) n q → pageEntry m₂ m₂.cr3 q = pageEntry m₂ pd q)
    (hset : memset n m₂ va = some m') : Zeroed m m' pd (pageOf va) n := by
  have hview' : ∀ q, InRun (pageOf va) n q → frameAt m₂ m₂.cr3 q = frameAt m₂ pd q :=
    fun q hq => congrArg Entry.pageFrameNumber (hview q hq)
  have hF : ∀ g, InRun f n g → ¬ Structural L ⟨m₂, D⟩ g := fun g hg => (h.settled g (Or.inr hg)).1.data
  obtain ⟨-, hw, hzero⟩ := memset_wrote n (F := InRun f n)
    (fun g hg => dataFrame_of_not_structural h.inv (hF g hg))
    (fun q hq _ => by rw [hview' q hq]; exact (h.present hq).2) hset
  obtain ⟨hpage, hother⟩ := h.entry_wrote hpd hF hw
  refine ⟨fun q hq => ⟨(hpage q hq).1, fun i => ?_⟩, fun g i hg => hother g i ?_⟩
  · rw [(hpage q hq).2, ← hview' q hq]
    exact hzero q hq i
  · rintro ⟨j, hj, rfl⟩
    refine hg _ ⟨j, hj, rfl⟩ ?_
    rw [(hpage _ ⟨j, hj, rfl⟩).2, (h.page j hj).2]

/-! ## Other pages -/

end

/-! ## Runs -/

section

variable {L : Layout} {D : List ℕ} {m m' : Machine} {fuel pd size a : ℕ}

end

end Sakura.MemoryManager
