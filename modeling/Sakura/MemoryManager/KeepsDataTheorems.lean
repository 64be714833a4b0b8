import Sakura.MemoryManager.Bytes
import Sakura.MemoryManager.KeepsPagesTheorems

/-!
# Data that stays

What the pages of a directory hold while memory is allocated and mapped. A frame is settled if
it is in use and holds no directory and no table; `KeepsData` says that the pages mapped to
settled frames stay mapped to them, with what is in them.
-/

namespace Sakura.MemoryManager

open MemoryManagerData

/-! ## Data that stays -/

section

variable {L : Layout} {D : List ℕ} {m m' : Machine} {pd : ℕ}

/-- Frame `f` is in use and holds no directory and no table. -/
structure Settled (L : Layout) (s : MemoryState) (f : ℕ) : Prop where
  used : s.machine.used f = true
  data : ¬ Structural L s f

/-- What is in the settled frames stays, and so do the pages mapped to them. -/
structure KeepsData (L : Layout) (D : List ℕ) (pd : ℕ) (m m' : Machine) : Prop where
  page : ∀ p < 2 ^ 20, pagePresent m pd p = true →
    Settled L ⟨m, D⟩ (Entry.pageFrameNumber (pageEntry m pd p)) →
    pagePresent m' pd p = true ∧ pageEntry m' pd p = pageEntry m pd p
  ram : ∀ f, Settled L ⟨m, D⟩ f → ∀ i, m'.ram f i = m.ram f i
  settled : ∀ f, Settled L ⟨m, D⟩ f → Settled L ⟨m', D⟩ f
  cr3 : m'.cr3 = m.cr3

theorem KeepsData.refl (L : Layout) (D : List ℕ) (pd : ℕ) (m : Machine) : KeepsData L D pd m m :=
  ⟨fun _ _ hp _ => ⟨hp, rfl⟩, fun _ _ _ => rfl, fun _ h => h, rfl⟩

theorem KeepsData.trans {m₁ m₂ m₃ : Machine} (h : KeepsData L D pd m₁ m₂)
    (h' : KeepsData L D pd m₂ m₃) : KeepsData L D pd m₁ m₃ := by
  refine ⟨?_, ?_, fun f hf => h'.settled f (h.settled f hf), h'.cr3.trans h.cr3⟩
  · intro p hp hpres hset
    obtain ⟨h1, h2⟩ := h.page p hp hpres hset
    obtain ⟨h3, h4⟩ := h'.page p hp h1 (by rw [h2]; exact h.settled _ hset)
    exact ⟨h3, h4.trans h2⟩
  · intro f hf i
    rw [h'.ram f (h.settled f hf) i, h.ram f hf i]

/-- A frame that holds no directory and no table is not read by a translation. -/
theorem dataFrame_of_not_structural {f : ℕ} (hinv : DirectoriesInv L ⟨m, D⟩)
    (hf : ¬ Structural L ⟨m, D⟩ f) : DataFrame m f := by
  refine ⟨?_, ?_⟩
  · rintro rfl
    exact hf (Or.inl hinv.cr3)
  · rintro s hs hp rfl
    rcases hinv.table_cases hinv.cr3 hs hp with ⟨hlt, ht⟩ | ht
    · exact hf (Or.inr (Or.inl (ht ▸ L.own_table hlt)))
    · exact hf (Or.inr (Or.inr ⟨_, hinv.cr3, s, ht⟩))

/-- Which frames are directories and tables is read off the directories. -/
theorem Structural.congr {f : ℕ} (h : Structural L ⟨m', D⟩ f)
    (hram : ∀ pd ∈ D, ∀ i, m'.ram pd i = m.ram pd i) : Structural L ⟨m, D⟩ f := by
  rcases h with h | h | ⟨pd₁, hpd₁, i, ht⟩
  · exact Or.inl h
  · exact Or.inr (Or.inl h)
  · exact Or.inr (Or.inr ⟨pd₁, hpd₁, i, ht.congr (hram pd₁ hpd₁ i)⟩)

/-- A table of a directory holds page-table entries. -/
theorem structural_table (hinv : DirectoriesInv L ⟨m, D⟩) (hpd : pd ∈ D) {s : ℕ} (hs : s < 1024)
    (hp : slotPresent m pd s = true) : Structural L ⟨m, D⟩ (tableOf m pd s) := by
  rcases hinv.table_cases hpd hs hp with ⟨hlt, ht⟩ | ht
  · exact Or.inr (Or.inl (ht ▸ L.own_table hlt))
  · exact Or.inr (Or.inr ⟨pd, hpd, s, ht⟩)

/-- Writing data leaves the directories alone. -/
theorem Wrote.directoriesInv {F : ℕ → Prop} (hw : Wrote F m m') (hinv : DirectoriesInv L ⟨m, D⟩)
    (hF : ∀ f, F f → ¬ Structural L ⟨m, D⟩ f) : DirectoriesInv L ⟨m', D⟩ := by
  refine hinv.of_ram (fun pd hpd i => hw.ram pd i fun hf => hF pd hf (Or.inl hpd))
    (fun f hf => ?_) (hw.cr3 ▸ hinv.cr3)
  rw [Machine.used, hw.data]
  exact hinv.used f hf

/-- Writing data keeps every page. -/
theorem Wrote.page {F : ℕ → Prop} (hw : Wrote F m m') (hinv : DirectoriesInv L ⟨m, D⟩)
    (hF : ∀ f, F f → ¬ Structural L ⟨m, D⟩ f) (hpd : pd ∈ D) {p : ℕ} (hp : p < 2 ^ 20) :
    pagePresent m' pd p = pagePresent m pd p ∧
      (pagePresent m pd p = true → pageEntry m' pd p = pageEntry m pd p) :=
  page_congr (fun i => hw.ram pd i fun hf => hF pd hf (Or.inl hpd))
    (fun _ hs hps i => hw.ram _ i fun hf => hF _ hf (structural_table hinv hpd hs hps)) hp

theorem Wrote.settled {F : ℕ → Prop} (hw : Wrote F m m')
    (hF : ∀ f, F f → ¬ Structural L ⟨m, D⟩ f) {f : ℕ} (hf : Settled L ⟨m, D⟩ f) :
    Settled L ⟨m', D⟩ f := by
  refine ⟨?_, fun hs => hf.data (hs.congr fun pd hpd i => hw.ram pd i fun hg => hF pd hg (Or.inl hpd))⟩
  rw [Machine.used, hw.data]
  exact hf.used

/-- After a call that keeps data, only frames were written that were not in use before it and
hold no table. -/
theorem KeepsData.wrote {m₁ m₂ : Machine} {F : ℕ → Prop} (h : KeepsData L D pd m m₁) (hpd : pd ∈ D)
    (hinv : DirectoriesInv L ⟨m₁, D⟩)
    (hF : ∀ f, F f → m.used f = false ∧ ¬ Structural L ⟨m₁, D⟩ f) (hw : Wrote F m₁ m₂) :
    KeepsData L D pd m m₂ ∧ DirectoriesInv L ⟨m₂, D⟩ := by
  have hdata : ∀ f, F f → ¬ Structural L ⟨m₁, D⟩ f := fun f hf => (hF f hf).2
  refine ⟨⟨?_, ?_, fun f hf => hw.settled hdata (h.settled f hf), hw.cr3.trans h.cr3⟩,
    hw.directoriesInv hinv hdata⟩
  · intro p hp hpres hset
    obtain ⟨h1, h2⟩ := h.page p hp hpres hset
    obtain ⟨h3, h4⟩ := hw.page hinv hdata hpd hp
    exact ⟨h3.trans h1, (h4 h1).trans h2⟩
  · intro f hf i
    have hnot : ¬ F f := by
      intro hFf
      have hunused := (hF f hFf).1
      rw [hf.used] at hunused
      exact absurd hunused.symm Bool.false_ne_true
    rw [hw.ram f i hnot, h.ram f hf i]

/-- A call that marks frames used and frees none that were in use before. -/
theorem KeepsData.of_ram {m₁ m₂ : Machine} (h : KeepsData L D pd m m₁) (hram : m₂.ram = m₁.ram)
    (hused : ∀ f, m.used f = true → m₁.used f = true → m₂.used f = true)
    (hcr3 : m₂.cr3 = m₁.cr3) : KeepsData L D pd m m₂ := by
  refine ⟨?_, ?_, ?_, hcr3.trans h.cr3⟩
  · intro p hp hpres hset
    have hpage := h.page p hp hpres hset
    rw [pagePresent, slotPresent, pageEntry, tableOf, hram]
    exact hpage
  · intro f hf i
    rw [hram]
    exact h.ram f hf i
  · intro f hf
    obtain ⟨h1, h2⟩ := h.settled f hf
    exact ⟨hused f hf.used h1, fun hs => h2 (hs.congr fun pd _ i => by rw [hram])⟩

/-! ## The calls -/

/-- What is in the settled frames stays while pages are mapped. -/
theorem Dealt.settled {A : List (ℕ × ℕ)} {mapped target : ℕ → Prop}
    (h : Dealt m m' pd A mapped target) (hinv : DirectoriesInv L ⟨m, D⟩) (hpd : pd ∈ D)
    (henough : A.length ≤ (freeFrames m.memManData).length) {f : ℕ} (hf : Settled L ⟨m, D⟩ f) :
    Settled L ⟨m', D⟩ f ∧ ∀ i, m'.ram f i = m.ram f i := by
  have hfresh : ∀ {s}, (s, f) ∉ A := by
    intro s ha
    have hunused := h.unused_of_enough henough (List.mem_map.mpr ⟨_, ha, rfl⟩)
    rw [hf.used] at hunused
    exact absurd hunused.symm Bool.false_ne_true
  refine ⟨⟨(h.used f).mpr (Or.inl hf.used), ?_⟩, ?_⟩
  · rintro (hs | hs | ⟨pd₁, hpd₁, i, ht⟩)
    · exact hf.data (Or.inl hs)
    · exact hf.data (Or.inr (Or.inl hs))
    · rcases h.userTable_cases hinv.roles hpd hpd₁ ht with hold | ⟨-, hmem⟩
      · exact hf.data (Or.inr (Or.inr ⟨pd₁, hpd₁, i, hold⟩))
      · exact hfresh hmem
  · intro i
    have hne : f ≠ pd := by
      rintro rfl
      exact hf.data (Or.inl hpd)
    rcases h.other f hne i with heq | ⟨-, w, hw, -, -, ⟨hws, rfl⟩ | hmem⟩
    · exact heq
    · exact absurd (structural_table hinv hpd (by omega) hws) hf.data
    · exact absurd hmem hfresh

/-- Mapping absent pages, with tables in frames whose own pages are absent. -/
theorem Dealt.keepsData {A : List (ℕ × ℕ)} {mapped target : ℕ → Prop}
    (h : Dealt m m' pd A mapped target) (hinv : DirectoriesInv L ⟨m, D⟩) (hpd : pd ∈ D)
    (henough : A.length ≤ (freeFrames m.memManData).length)
    (hmapped : ∀ p, mapped p → pagePresent m pd p = false)
    (hdealt : ∀ t ∈ A.map Prod.snd, pagePresent m pd t = false) : KeepsData L D pd m m' := by
  refine ⟨?_, fun f hf => (h.settled hinv hpd henough hf).2,
    fun f hf => (h.settled hinv hpd henough hf).1, h.cr3⟩
  intro p hp hpres _
  obtain ⟨h1, h2, -⟩ := h.keepsPages (hinv.separate hpd) henough hmapped hdealt p hp hpres
  exact ⟨h1, h2⟩

/-- Taking frames keeps data. -/
theorem FramesTaken.keepsData {m₁ : Machine} {f n : ℕ} (htaken : FramesTaken m m₁ f n) :
    KeepsData L D pd m m₁ :=
  (KeepsData.refl L D pd m).of_ram htaken.ram (fun g hg _ => (htaken.used g).mpr (Or.inl hg))
    htaken.cr3

/-- The pages that were found were not present. -/
theorem absent_of_foundAddress {fuel n a : ℕ} {user : Bool}
    (h : foundAddress fuel m pd n user = some (some a)) :
    ∀ p, InRun (pageOf a) n p → pagePresent m pd p = false := by
  refine searchRange_absent fuel ?_ (fun i hi => by omega) h
  cases user <;> decide

/-- Memory for the kernel. -/
theorem keepsData_allocate {fuel size a : ℕ} (hinv : DirectoriesInv L ⟨m, D⟩) (hpd : pd ∈ D)
    (hfuel : 2 ^ 20 < fuel) (halloc : memoryAllocate fuel m pd size false = some (a, m')) :
    KeepsData L D pd m m' := by
  rcases memoryAllocate_cases halloc with
    ⟨-, hram, hcr3, hused⟩ | ⟨f, va, m₂, hf, htaken, -, -, hfound, hmap, hend⟩
  · exact (KeepsData.refl L D pd m).of_ram hram (fun g hg _ => hused g hg) hcr3
  · obtain ⟨k, rfl, -, hle⟩ := foundAddress_kernel hfuel hfound
    have habsent := absent_of_foundAddress hfound
    have h₁ := htaken.directoriesInv hinv
    set m₁ := framesAllocated m size
    set n := pagesFor size
    obtain ⟨m₂', hm₂', -, hdealt⟩ := virtualMap_dealt (k * pageSize) (f * pageSize) n false
      (h₁.roles.ownFrame hpd) hfuel
    obtain rfl := Option.some.inj (hmap.symm.trans hm₂')
    have hk : k ≤ 2 ^ 18 := by rw [kernelPages] at hle; omega
    rw [callDeal_kernel (h₁.kernel _ hpd) hle, pageOf_mul_of_lt hf, pageOf_mul_of_lt (by omega)]
      at hdealt
    rw [pageOf_mul_of_lt (by omega)] at habsent
    have hkeep : KeepsData L D pd m m₂ := htaken.keepsData.trans
      (hdealt.keepsData h₁ hpd (Nat.zero_le _) habsent (by simp))
    have h₂ := hdealt.directoriesInv h₁ hpd (Nat.zero_le _)
    rcases hend with ⟨-, rfl⟩ | ⟨-, -, hset⟩
    · refine hkeep.of_ram rfl ?_ rfl
      intro g hg hg₂
      refine (used_machine_physicalFree _ _ _ _).mpr ⟨hg₂, ?_⟩
      rw [pageOf_mul_of_lt hf]
      intro hrun
      rw [htaken.free g hrun] at hg
      exact Bool.false_ne_true hg
    · -- the frames `memset` clears were free before the call
      have hfresh : ∀ g, InRun f n g → m.used g = false ∧ ¬ Structural L ⟨m₂.atomicDisable, D⟩ g := by
        intro g hg
        refine ⟨htaken.free g hg, ?_⟩
        intro hs
        have hold : Structural L ⟨m, D⟩ g := by
          rcases hs with hs | hs | ⟨pd₁, hpd₁, i, ht⟩
          · exact Or.inl hs
          · exact Or.inr (Or.inl hs)
          · rcases hdealt.userTable_cases h₁.roles hpd hpd₁ ht with hold | ⟨-, hmem⟩
            · exact Or.inr (Or.inr ⟨pd₁, hpd₁, i, hold.congr (by rw [htaken.ram])⟩)
            · simp at hmem
        have hused := hinv.used g hold
        rw [htaken.free g hg] at hused
        exact Bool.false_ne_true hused
      have hcr3 : m₂.cr3 = m.cr3 := hdealt.cr3.trans htaken.cr3
      obtain ⟨hram, hdata, hcr3'⟩ := @memset_fresh (InRun f n) n m₂.atomicDisable m'
        (k * pageSize)
        (by
          intro hbad
          exact (hfresh _ hbad).2 (Or.inl h₂.cr3))
        (by
          intro q hq _
          rw [pageOf_mul_of_lt (by omega)] at hq
          have hq18 : q < kernelPages := by
            have hcount : k + n ≤ 2 ^ 20 := by rw [kernelPages] at hle; omega
            rw [inRun_iff hcount] at hq
            omega
          rcases (hdealt.maps q hq).2.2.2 with hto | hmem
          · rw [show pageEntry m₂.atomicDisable m₂.atomicDisable.cr3 q = pageEntry m₂ pd q from
              h₂.roles.pageEntry_shared h₂.cr3 hpd hq18]
            exact hto
          · simp at hmem)
        hset
      exact ((hkeep.of_ram rfl (fun g _ hg => hg) rfl).wrote hpd
        (h₂.of_ram (fun _ _ _ => rfl) h₂.used h₂.cr3) hfresh ⟨hram, hdata, hcr3'⟩).1

end

/-! ## Runs -/

/-- A memory call, or a write to frames that hold no directory and no table. -/
inductive DataStep (L : Layout) (fuel : ℕ) : MemoryState → MemoryState → Prop
  | call {s s' : MemoryState} : LastingStep L fuel s s' → DataStep L fuel s s'
  | write {s : MemoryState} {m' : Machine} {F : ℕ → Prop} : Wrote F s.machine m' →
      (∀ f, F f → ¬ Structural L s f) → DataStep L fuel s ⟨m', s.directories⟩

/-- A step of a client or of the memory manager keeps the directories apart. -/
theorem directoriesInv_dataStep {L : Layout} {fuel : ℕ} (hfuel : 2 ^ 20 < fuel)
    {s s' : MemoryState} (h : DirectoriesInv L s) (hstep : DataStep L fuel s s') : DirectoriesInv L s' := by
  cases hstep with
  | call hcall => exact directoriesInv_step hfuel h hcall
  | write hw hF => exact hw.directoriesInv h hF

end Sakura.MemoryManager
