import Sakura.LoadTheorems

/-!
# Where the bytes of a segment are

`load` maps a program header's pages and copies its bytes to the start of the first one. Where
they stay: `memoryMap` of a later header takes new frames, so that what is in the pages of an
earlier one is lost only with the pages (`Alone`), and the file itself is changed only where an
address is rounded (`Changed`). `BytesAt` is what is kept, statement by statement, and
`load_places_bytes` says it of the whole call. That is where the file has them for a segment that
begins with a page (`load_places_segments`), and too low for one that does not.
-/

namespace Sakura.Elf

open MemoryManager Kernel Routine
open I386 (Word)

/-! ## Bytes in memory -/

/-- Frame `g` holds bytes of the file. -/
def FileFrame (elfData length g : ℕ) : Prop := ∃ i < length, pageOf (elfData + i) = g

/-- From `base` on there are `n` bytes, the value of each as `ok` says. Their frames are in use,
and hold neither tables nor the file. -/
def BytesAt (L : Layout) (D : List ℕ) (elfData length base n : ℕ) (ok : ℕ → ℕ → Prop)
    (m : Machine) : Prop :=
  ∀ i < n, ∃ g, translate m (base + i) = some g ∧ Settled L ⟨m, D⟩ g ∧
    ¬ FileFrame elfData length g ∧ ok i (m.byte g ((base + i) % pageSize))

section

variable {L : Layout} {D : List ℕ} {elfData length base n : ℕ} {ok : ℕ → ℕ → Prop} {m m' : Machine}

theorem BytesAt.readByte (h : BytesAt L D elfData length base n ok m) {i : ℕ} (hi : i < n) :
    ∃ b, MemoryManager.readByte m (base + i) = some b ∧ ok i b := by
  obtain ⟨g, htrans, -, -, hok⟩ := h i hi
  exact ⟨_, readByte_eq_some.mpr ⟨g, htrans, rfl⟩, hok⟩

/-- Writing elsewhere. -/
theorem BytesAt.wrote {F : ℕ → Prop} (h : BytesAt L D elfData length base n ok m)
    (hinv : DirectoriesInv L ⟨m, D⟩) (hw : Wrote F m m') (hF : ∀ f, F f → ¬ Structural L ⟨m, D⟩ f)
    (hout : ∀ i < n, ∀ g, translate m (base + i) = some g → ¬ F g) :
    BytesAt L D elfData length base n ok m' := by
  intro i hi
  obtain ⟨g, htrans, hset, hfile, hok⟩ := h i hi
  have hdata : ∀ f, F f → DataFrame m f := fun f hf => dataFrame_of_not_structural hinv (hF f hf)
  refine ⟨g, by rw [hw.translate hdata, htrans], hw.settled hF hset, hfile, ?_⟩
  rw [Machine.byte, hw.ram _ _ (hout i hi g htrans), ← Machine.byte]
  exact hok

/-- Mapping other pages, and filling their frames. -/
theorem BytesAt.mapped {m₁ m'' : Machine} {p k f : ℕ} {A : List (ℕ × ℕ)} {F : ℕ → Prop}
    (h : BytesAt L D elfData length base n ok m) (hinv : DirectoriesInv L ⟨m, D⟩)
    (hmap : RangeDealt L D m m₁ m' p k f A) (hside : OneSide p k) (hw : Wrote F m' m'')
    (hF : ∀ g, F g → m.used g = false ∧ ¬ Structural L ⟨m', D⟩ g)
    (hout : ∀ i < n, ¬ InRun p k (pageOf (base + i)))
    (happart : ∀ i < n, kernelPages ≤ pageOf (base + i) ∨ p + k ≤ kernelPages) :
    BytesAt L D elfData length base n ok m'' := by
  have hgiven := hmap.given hinv hside
  have hsame : ∀ i < n, translate m' (base + i) = translate m (base + i) := by
    intro i hi
    obtain ⟨g, htrans, -⟩ := h i hi
    obtain ⟨hpres, hframe⟩ := translate_eq_some.mp htrans
    obtain ⟨hpres', hentry⟩ := hmap.keepsPage_apart hinv.cr3 (pageOf_lt _) hpres (hout i hi)
      (happart i hi)
    rw [htrans, translate_eq_some, hgiven.cr3, hentry]
    exact ⟨hpres', hframe⟩
  refine BytesAt.wrote (m := m') (fun i hi => ?_) hgiven.inv hw (fun g hg => (hF g hg).2)
    fun i hi g hg hFg => ?_
  · obtain ⟨g, htrans, hset, hfile, hok⟩ := h i hi
    obtain ⟨hset', hram⟩ := hgiven.settled g hset
    refine ⟨g, by rw [hsame i hi, htrans], hset', hfile, ?_⟩
    rw [Machine.byte, hram, ← Machine.byte]
    exact hok
  · -- the frames that are filled were free
    obtain ⟨g', htrans, hset, -⟩ := h i hi
    rw [hsame i hi, htrans, Option.some.injEq] at hg
    have hunused := (hF g hFg).1
    rw [← hg, hset.used] at hunused
    exact Bool.false_ne_true hunused.symm

end

/-! ## The statements of the loop -/

section

variable {L : Layout} {D : List ℕ} {fuel elfData length frames ph : ℕ}
  {alloc : ℕ → Machine → Option (ℕ × Machine)} {B : ℕ → ℕ} {P : ℕ → Prop} {k k' : Kernel}
  {task : TaskRef}

/-- Rounding the address writes to the file only, and only the field. -/
theorem alignSegment_wrote (h : Loading L D elfData length B frames P k.machine)
    (hph : ph + pVaddr + 4 ≤ length)
    (hrun : (alignSegment elfData ph).run (Primitive.exec L fuel alloc) k = some ((), k')) :
    Wrote (FileFrame elfData length) k.machine k'.machine ∧
      ∀ g o, (∀ i, ph + pVaddr ≤ i → i < ph + pVaddr + 4 →
          ¬ (pageOf (elfData + i) = g ∧ (elfData + i) % pageSize = o)) →
        k'.machine.byte g o = k.machine.byte g o := by
  rw [alignSegment, run_read, h.readInt hph, Option.bind_some, step, run_perform,
    Primitive.exec, Option.map_eq_some_iff] at hrun
  obtain ⟨m', hwrite, heq⟩ := hrun
  obtain rfl := (Prod.mk.inj heq).2
  have hle := h.le
  have haddr : ∀ i < 4, ((elfData + (ph + pVaddr)) % 2 ^ 32 + i) % 2 ^ 32
      = elfData + (ph + pVaddr + i) := by
    intro i hi
    omega
  obtain ⟨hw, hbytes⟩ := writeInt_wrote (F := FileFrame elfData length) 4
    (Nat.mod_lt (elfData + (ph + pVaddr)) (by decide)) (by
      rintro g ⟨i, hi, rfl⟩
      exact dataFrame_of_not_structural h.inv (h.settled i hi).data) (by
      intro i hi g hg
      rw [haddr i hi, h.file _ (by omega), Option.some.injEq] at hg
      exact ⟨_, by omega, hg⟩) hwrite
  refine ⟨hw, fun g o hout => hbytes g o fun i hi hland => ?_⟩
  rw [LandsAt, haddr i hi, h.file _ (by omega), Option.some.injEq] at hland
  exact hout (ph + pVaddr + i) (by omega) (by omega) ⟨hland.1, hland.2.symm⟩

/-- An address that is aligned is stored as it is. -/
theorem alignSegment_aligned (h : Loading L D elfData length B frames P k.machine)
    (hph : ph + pVaddr + 4 ≤ length) (haligned : littleEndian B 4 (ph + pVaddr) % pageSize = 0)
    (hrun : (alignSegment elfData ph).run (Primitive.exec L fuel alloc) k = some ((), k')) : k' = k := by
  rw [alignSegment, run_read, h.readInt hph, Option.bind_some, step, run_perform, Primitive.exec,
    haligned, Nat.sub_zero, writeInt_readInt 4 (h.readInt hph), Option.map_some,
    Option.some.injEq] at hrun
  exact (Prod.mk.inj hrun).2.symm

theorem run_mapSegment (h : Loading L D elfData length B frames P k.machine)
    (hph : ph + pFilesz + 2 ≤ length)
    (hdir : pageOf (k.scheduler.tasks task).regs.cr3.toNat = L.kernelPageDirectory)
    (hrun : (mapSegment elfData task ph).run (Primitive.exec L fuel alloc) k = some ((), k')) :
    memoryMap fuel k.machine k.machine.cr3 (littleEndian B 4 (ph + pVaddr))
      (littleEndian B 2 (ph + pFilesz)) false = some k'.machine := by
  have hvaddr : ph + pVaddr + 4 ≤ length := by
    rw [pVaddr]
    rw [pFilesz] at hph
    omega
  rw [mapSegment, run_read, h.readInt hph, Option.bind_some, run_read,
    h.readInt hvaddr, Option.bind_some, run_bind, step, run_perform] at hrun
  simp only [Primitive.exec, Option.bind_some, run_perform, hdir, ← h.cr3, Option.map_eq_some_iff]
    at hrun
  obtain ⟨m', hmap, heq⟩ := hrun
  rw [hmap, ← (Prod.mk.inj heq).2]

theorem run_copySegment (h : Loading L D elfData length B frames P k.machine)
    (hph : ph + pFilesz + 2 ≤ length)
    (hrun : (copySegment elfData ph).run (Primitive.exec L fuel alloc) k = some ((), k')) :
    memcpy (littleEndian B 2 (ph + pFilesz)) k.machine (littleEndian B 4 (ph + pVaddr))
      ((elfData + littleEndian B 4 (ph + pOffset)) % 2 ^ 32) = some k'.machine := by
  have hvaddr : ph + pVaddr + 4 ≤ length := by
    rw [pVaddr]
    rw [pFilesz] at hph
    omega
  have hoffset : ph + pOffset + 4 ≤ length := by
    rw [pOffset]
    rw [pFilesz] at hph
    omega
  have hlt : littleEndian B 4 (ph + pVaddr) < 2 ^ 32 := h.littleEndian_lt hvaddr
  rw [copySegment, run_read, h.readInt hoffset, Option.bind_some, run_read,
    h.readInt hph, Option.bind_some, run_read, h.readInt hvaddr, Option.bind_some,
    run_copy, Option.map_eq_some_iff, Nat.add_zero, Nat.add_zero, Nat.mod_eq_of_lt hlt] at hrun
  obtain ⟨m', hcopy, heq⟩ := hrun
  rw [hcopy, ← (Prod.mk.inj heq).2]

end

section

variable {L : Layout} {D : List ℕ} {elfData length frames base src n p : ℕ} {B : ℕ → ℕ} {P : ℕ → Prop}
  {m m₁ m₂ m₃ : Machine}

/-- Copying from the file to pages with frames of their own. -/
theorem Loading.copied (h : Loading L D elfData length B frames P m₂)
    (hfresh : FreshRange m₁ m₂ m₂.cr3 (InRun p (pagesFor n))) (hbase : base + n ≤ 2 ^ 32)
    (hrun : ∀ i < n, InRun p (pagesFor n) (pageOf (base + i)))
    (hto : ∀ q, InRun p (pagesFor n) q → ¬ Structural L ⟨m₂, D⟩ (frameAt m₂ m₂.cr3 q) ∧
      ∀ i < length, frameAt m₂ m₂.cr3 q ≠ pageOf (elfData + i))
    (hsrc : ∀ i < n, src + i < length)
    (hcopy : MemoryManager.memcpy n m₂ base ((elfData + src) % 2 ^ 32) = some m₃) :
    Wrote (fun g => ∃ q, InRun p (pagesFor n) q ∧ frameAt m₂ m₂.cr3 q = g) m₂ m₃ ∧
      BytesAt L D elfData length base n (fun i b => b = B (src + i)) m₃ := by
  rcases Nat.eq_zero_or_pos n with rfl | hpos
  · obtain rfl := Option.some.inj hcopy
    exact ⟨Wrote.refl _ _, fun i hi => absurd hi (Nat.not_lt_zero i)⟩
  have hle := h.le
  have hlength := hsrc 0 hpos
  have hstruct : ∀ g, (∃ q, InRun p (pagesFor n) q ∧ frameAt m₂ m₂.cr3 q = g) →
      ¬ Structural L ⟨m₂, D⟩ g := by
    rintro g ⟨q, hq, rfl⟩
    exact (hto q hq).1
  have haddr : ∀ i < n, (base + i) % 2 ^ 32 = base + i := fun i hi => Nat.mod_eq_of_lt (by omega)
  have htrans : ∀ i < n, translate m₂ (base + i) = some (frameAt m₂ m₂.cr3 (pageOf (base + i))) :=
    fun i hi => translate_eq_some.mpr ⟨(hfresh.fresh _ (hrun i hi)).1, rfl⟩
  have hread : ∀ i < n, ((elfData + src) % 2 ^ 32 + i) % 2 ^ 32 = elfData + (src + i) := by
    intro i hi
    have := hsrc i hi
    omega
  obtain ⟨m', hm', hw, hbytes, -⟩ := memcpy_spec (m := m₂)
    (F := fun g => ∃ q, InRun p (pagesFor n) q ∧ frameAt m₂ m₂.cr3 q = g)
    (c := fun i => B (src + i)) n (by omega) (show base < 2 ^ 32 by omega)
    (Nat.mod_lt (elfData + src) (show 0 < 2 ^ 32 by decide))
    (fun g hg => dataFrame_of_not_structural h.inv (hstruct g hg))
    (fun i hi => ⟨_, ⟨_, hrun i hi, rfl⟩, by rw [haddr i hi, htrans i hi]⟩)
    (fun i hi j hj heq => by
      rw [haddr i hi, haddr j hj, htrans i hi, htrans j hj, Option.some.injEq] at heq
      exact hfresh.distinct _ _ (hrun i hi) (hrun j hj) heq)
    (fun i hi => by
      rw [hread i hi]
      refine ⟨_, ?_, h.file _ (hsrc i hi), h.byte _ (hsrc i hi)⟩
      rintro ⟨q, hq, hframe⟩
      exact (hto q hq).2 _ (hsrc i hi) hframe)
  obtain rfl := Option.some.inj (hcopy.symm.trans hm')
  have hsame : ∀ i < n, translate m₃ (base + i) = translate m₂ (base + i) := fun i _ =>
    hw.translate (fun g hg => dataFrame_of_not_structural h.inv (hstruct g hg)) _
  refine ⟨hw, fun i hi => ⟨_, (hsame i hi).trans (htrans i hi), hw.settled hstruct ?_, ?_, ?_⟩⟩
  · exact ⟨(hfresh.fresh _ (hrun i hi)).2.2, (hto _ (hrun i hi)).1⟩
  · rintro ⟨j, hj, hframe⟩
    exact (hto _ (hrun i hi)).2 j hj hframe.symm
  · have hbyte := hbytes i hi
    rw [haddr i hi, MemoryManager.readByte, hsame i hi, htrans i hi, Option.map_some,
      Option.some.injEq] at hbyte
    exact hbyte

end

/-! ## The loop -/

/-- Byte `i` is part of `p_vaddr` of a program header before `sec`, whose address is not aligned. -/
def Changed (bytes : ℕ → ℕ) (sec i : ℕ) : Prop :=
  ∃ s < sec, (header bytes s).vaddr % pageSize ≠ 0 ∧
    headerOffset bytes s + pVaddr ≤ i ∧ i < headerOffset bytes s + pVaddr + 4

/-- No header from `s + 1` to `sec` takes a page of header `s`. Below 1 GiB, where the tables
come from, none of them may need a table either. -/
def Alone (bytes : ℕ → ℕ) (s sec : ℕ) : Prop :=
  ∀ s', s < s' → s' < sec →
    (∀ q, InRun (header bytes s).page (header bytes s).pages q →
      ¬ InRun (header bytes s').page (header bytes s').pages q) ∧
    (kernelPages ≤ (header bytes s).page ∨
      (header bytes s').page + (header bytes s').pages ≤ kernelPages)

/-- What is in the pages of program header `s`: the bytes of the file, as they were when the loop
came to it. -/
def Copied (L : Layout) (D : List ℕ) (elfData length : ℕ) (bytes : ℕ → ℕ) (s : ℕ) (m : Machine) :
    Prop :=
  BytesAt L D elfData length ((header bytes s).page * pageSize) ((header bytes s).filesz % 2 ^ 16)
    (fun i b => ¬ Changed bytes (s + 1) ((header bytes s).offset + i) →
      b = bytes ((header bytes s).offset + i)) m

/-- The loop has come to program header `sec`, and each header before it has what was copied. -/
structure Placing (L : Layout) (D : List ℕ) (elfData length : ℕ) (bytes : ℕ → ℕ) (sec : ℕ)
    (m : Machine) : Prop where
  file : ∃ B, Loading L D elfData length B (framesFrom bytes sec) (LoadedPage bytes sec) m ∧
    ∀ i, ¬ Changed bytes sec i → B i = bytes i
  copied : ∀ s < sec, Alone bytes s sec → Copied L D elfData length bytes s m

section

variable {L : Layout} {D : List ℕ} {fuel elfData length sec : ℕ} {bytes B : ℕ → ℕ}
  {alloc : ℕ → Machine → Option (ℕ × Machine)} {k k' : Kernel} {task : TaskRef}

theorem Changed.rounded {i : ℕ} (h : Changed bytes sec i) : Rounded bytes sec i := by
  obtain ⟨s, hs, -, hrange⟩ := h
  exact ⟨s, hs, hrange⟩

theorem Changed.succ {i : ℕ} (h : Changed bytes sec i) : Changed bytes (sec + 1) i := by
  obtain ⟨s, hs, hrest⟩ := h
  exact ⟨s, Nat.lt_succ_of_lt hs, hrest⟩

theorem Alone.of_succ {s : ℕ} (h : Alone bytes s (sec + 1)) : Alone bytes s sec :=
  fun s' h1 h2 => h s' h1 (Nat.lt_succ_of_lt h2)

theorem Placing.atHeader {m : Machine} (h : Placing L D elfData length bytes sec m) :
    AtHeader L D elfData length bytes sec m := by
  obtain ⟨B, hload, hB⟩ := h.file
  exact ⟨B, hload, fun i hi => hB i fun hc => hi hc.rounded⟩

theorem OneSide.le {p n : ℕ} (h : OneSide p n) : p + n ≤ 2 ^ 20 := by
  rcases h with hlow | ⟨-, hhigh⟩
  · rw [kernelPages] at hlow
    omega
  · exact hhigh

/-- The bytes of a program header lie in its pages. -/
theorem inRun_header {h : ProgramHeader} (hside : OneSide h.page h.pages) {i : ℕ}
    (hi : i < h.filesz % 2 ^ 16) : InRun h.page h.pages (pageOf (h.page * pageSize + i)) := by
  have hle := size_le_pagesFor (Nat.mod_lt h.filesz (show 0 < 2 ^ 16 by decide))
  have hend := OneSide.le hside
  rw [← ProgramHeader.pages] at hle
  rw [inRun_iff hend, pageOf]
  rw [pageSize] at hle ⊢
  omega

theorem header_le {h : ProgramHeader} (hside : OneSide h.page h.pages) :
    h.page * pageSize + h.filesz % 2 ^ 16 ≤ 2 ^ 32 := by
  have hle := size_le_pagesFor (Nat.mod_lt h.filesz (show 0 < 2 ^ 16 by decide))
  have hend := OneSide.le hside
  rw [← ProgramHeader.pages] at hle
  rw [pageSize] at hle ⊢
  omega

/-- Rounding the address of program header `sec`. -/
theorem Placing.alignSegment (h : Placing L D elfData length bytes sec k.machine)
    (himage : Image bytes length) (hsec : sec < headerCount bytes)
    (hrun : (Elf.alignSegment elfData (headerOffset bytes sec)).run (Primitive.exec L fuel alloc) k
      = some ((), k')) :
    k'.scheduler = k.scheduler ∧ Wrote (FileFrame elfData length) k.machine k'.machine ∧
      ∃ B, Loading L D elfData length B (framesFrom bytes sec) (LoadedPage bytes sec) k'.machine ∧
        Aligned bytes B sec ∧ ∀ i, ¬ Changed bytes (sec + 1) i → B i = bytes i := by
  have hle := headerOffset_le himage hsec
  have hph : headerOffset bytes sec + pVaddr + 4 ≤ length := by
    rw [pVaddr]
    omega
  obtain ⟨B, hload, hB⟩ := h.file
  have hrounded : ∀ i, ¬ Rounded bytes sec i → B i = bytes i := fun i hi =>
    hB i fun hc => hi hc.rounded
  have hfield : littleEndian B 4 (headerOffset bytes sec + pVaddr) = (header bytes sec).vaddr :=
    field_eq hrounded (by omega)
  obtain ⟨hs, -, B₁, hload₁, hvaddr, hother⟩ := loading_alignSegment hload hph hrun
  have hwrote := (alignSegment_wrote hload hph hrun).1
  by_cases haligned : (header bytes sec).vaddr % pageSize = 0
  · obtain rfl := alignSegment_aligned hload hph (by rw [hfield]; exact haligned) hrun
    refine ⟨hs, hwrote, B, hload, aligned_of_rounded himage hrounded ?_ fun _ _ => rfl,
      fun i hi => hB i fun hc => hi hc.succ⟩
    rw [hfield, haligned, Nat.sub_zero]
  · refine ⟨hs, hwrote, B₁, hload₁, aligned_of_rounded himage hrounded hvaddr hother, fun i hi => ?_⟩
    have hout : i < headerOffset bytes sec + pVaddr ∨ headerOffset bytes sec + pVaddr + 4 ≤ i := by
      by_contra hin
      exact hi ⟨sec, Nat.lt_succ_self sec, haligned, by omega, by omega⟩
    rw [hother i hout]
    exact hB i fun hc => hi hc.succ

/-- What mapping and filling the pages of program header `sec` does to the file, whose address
has been rounded. -/
structure Filled (L : Layout) (D : List ℕ) (elfData length : ℕ) (bytes : ℕ → ℕ) (sec : ℕ) (B : ℕ → ℕ)
    (k₁ k₂ k' : Kernel) : Prop where
  scheduler : k'.scheduler = k₁.scheduler
  mapped : Loading L D elfData length B (framesFrom bytes (sec + 1)) (LoadedPage bytes (sec + 1))
    k₂.machine
  loaded : Loading L D elfData length B (framesFrom bytes (sec + 1)) (LoadedPage bytes (sec + 1))
    k'.machine
  frames : ∀ q, InRun (header bytes sec).page (header bytes sec).pages q →
    ¬ Structural L ⟨k₂.machine, D⟩ (frameAt k₂.machine k₂.machine.cr3 q) ∧
      ∀ i < length, frameAt k₂.machine k₂.machine.cr3 q ≠ pageOf (elfData + i)
  dealt : ∃ f m₁ A, RangeDealt L D k₁.machine m₁ k₂.machine (header bytes sec).page
    (header bytes sec).pages f A
  copy : memcpy ((header bytes sec).filesz % 2 ^ 16) k₂.machine ((header bytes sec).page * pageSize)
    ((elfData + (header bytes sec).offset) % 2 ^ 32) = some k'.machine

theorem filled {k₁ k₂ : Kernel}
    (hload : Loading L D elfData length B (framesFrom bytes sec) (LoadedPage bytes sec) k₁.machine)
    (hfields : Aligned bytes B sec) (himage : Image bytes length) (hfuel : 2 ^ 20 < fuel)
    (hdir : pageOf (k₁.scheduler.tasks task).regs.cr3.toNat = L.kernelPageDirectory)
    (hsec : sec < headerCount bytes) (hplaced : Placed elfData length (header bytes sec))
    (hmap : (mapSegment elfData task (headerOffset bytes sec)).run (Primitive.exec L fuel alloc) k₁
      = some ((), k₂))
    (hcopy : (copySegment elfData (headerOffset bytes sec)).run (Primitive.exec L fuel alloc) k₂
      = some ((), k')) :
    Filled L D elfData length bytes sec B k₁ k₂ k' := by
  have hle := headerOffset_le himage hsec
  have hph : headerOffset bytes sec + pFilesz + 2 ≤ length := by
    rw [pFilesz]
    omega
  have hsize : littleEndian B 2 (headerOffset bytes sec + pFilesz) < 2 ^ 32 := by
    rw [hfields.filesz]
    omega
  have hbase : littleEndian B 4 (headerOffset bytes sec + pVaddr)
      = (header bytes sec).page * pageSize := by
    rw [hfields.vaddr, ProgramHeader.page]
    rw [pageSize]
    omega
  have hload' : Loading L D elfData length B (framesFrom bytes (sec + 1)
      + 2 * pagesFor (littleEndian B 2 (headerOffset bytes sec + pFilesz))) (LoadedPage bytes sec)
      k₁.machine := by
    rw [hfields.pages, ← framesFrom_eq hsec]
    exact hload
  obtain ⟨hs₂, hload₂, hto, -⟩ := loading_mapSegment hload' hph hfuel hdir
    (by rw [hfields.page himage, hfields.pages]; exact hplaced.side)
    (by rw [hfields.page himage, hfields.pages]; exact hplaced.apart) hmap
  obtain ⟨hs₃, hload₃, -⟩ := loading_copySegment hload₂ hph hfields.mod hto hcopy
  obtain ⟨a, hblock⟩ := hload'.block
  obtain ⟨f, m₁, A, hdealt, -⟩ := memoryMap_dealt hload.inv hfuel hsize hblock
    (run_mapSegment hload hph hdir hmap)
  have hmemcpy := run_copySegment hload₂ hph hcopy
  rw [hfields.page himage, hfields.pages, ← funext fun q => propext (@loadedPage_succ sec bytes q)]
    at hload₂ hload₃
  rw [hfields.page himage, hfields.pages] at hto hdealt
  rw [hfields.filesz, hfields.offset, hbase] at hmemcpy
  exact ⟨hs₃.trans hs₂, hload₂, hload₃, hto, ⟨f, m₁, A, hdealt⟩, hmemcpy⟩

/-- One iteration. -/
theorem Placing.loadSegment (h : Placing L D elfData length bytes sec k.machine)
    (himage : Image bytes length) (hfuel : 2 ^ 20 < fuel)
    (hdir : pageOf (k.scheduler.tasks task).regs.cr3.toNat = L.kernelPageDirectory)
    (hsec : sec < headerCount bytes)
    (hplaced : ∀ s < headerCount bytes, Placed elfData length (header bytes s))
    (hinside : ∀ i < (header bytes sec).filesz % 2 ^ 16, (header bytes sec).offset + i < length)
    (hrun : (Elf.loadSegment elfData task sec).run (Primitive.exec L fuel alloc) k = some ((), k')) :
    k'.scheduler = k.scheduler ∧ Placing L D elfData length bytes (sec + 1) k'.machine := by
  have hph := @AtHeader.run_programHeader L D fuel elfData length sec bytes alloc k h.atHeader himage hsec
  have hside := (hplaced sec hsec).side
  rw [Elf.loadSegment, run_bind_eq_some] at hrun
  obtain ⟨_, _, hheader, hrun⟩ := hrun
  obtain ⟨rfl, rfl⟩ := Prod.mk.inj (Option.some.inj (hph.symm.trans hheader))
  obtain ⟨⟨⟩, k₁, halign, hrun⟩ := run_bind_eq_some.mp hrun
  obtain ⟨⟨⟩, k₂, hmap, hcopy⟩ := run_bind_eq_some.mp hrun
  obtain ⟨hs₁, hwrote₁, B, hload₁, hfields, hB⟩ := h.alignSegment himage hsec halign
  have hfilled := filled hload₁ hfields himage hfuel (by rw [hs₁]; exact hdir) hsec
    (hplaced sec hsec) hmap hcopy
  obtain ⟨f, m₁, A, hdealt⟩ := hfilled.dealt
  have hgiven := hdealt.given hload₁.inv hside
  have hfresh := hdealt.fresh
  rw [← hgiven.cr3] at hfresh
  obtain ⟨hwrote₂, hbytes⟩ := hfilled.mapped.copied hfresh (header_le hside)
    (fun i hi => inRun_header hside hi) hfilled.frames hinside hfilled.copy
  refine ⟨hfilled.scheduler.trans hs₁, ⟨B, hfilled.loaded, hB⟩, fun s hs halone => ?_⟩
  rcases Nat.lt_succ_iff_lt_or_eq.mp hs with hlt | rfl
  · -- an earlier header: its frames were in use before the new ones were taken
    obtain ⟨B₀, hload, -⟩ := h.file
    have hbefore : BytesAt _ _ _ _ _ _ _ k.machine := h.copied s hlt halone.of_succ
    have haligned := hbefore.wrote hload.inv hwrote₁
      (by rintro g ⟨i, hi, rfl⟩; exact (hload.settled i hi).data)
      (by
        intro i hi g hg
        obtain ⟨g', hg', -, hfile, -⟩ := hbefore i hi
        rw [hg', Option.some.injEq] at hg
        exact hg ▸ hfile)
    obtain ⟨hpages, hlow⟩ := halone sec hlt (Nat.lt_succ_self sec)
    have hside' := (hplaced s (Nat.lt_trans hlt hsec)).side
    refine haligned.mapped hload₁.inv hdealt hside hwrote₂ ?_ (fun i hi => ?_) fun i hi => ?_
    · rintro g ⟨q, hq, rfl⟩
      rw [hgiven.cr3]
      exact (hgiven.given q hq).2
    · exact hpages _ (inRun_header hside' hi)
    · have hin := (inRun_iff (OneSide.le hside')).mp (inRun_header hside' hi)
      exact hlow.imp (fun hge => Nat.le_trans hge hin.1) id
  · intro i hi
    obtain ⟨g, htrans, hset, hfile, hok⟩ := hbytes i hi
    exact ⟨g, htrans, hset, hfile, fun hc => hok.trans (hB _ hc)⟩

end

/-- The loop, begun in state `k`, comes to program header `sec` in state `k'`. -/
inductive Comes (exec : (o : Primitive) → Kernel → Option (o.Result × Kernel)) (elfData : ℕ)
    (task : TaskRef) (k : Kernel) : ℕ → Kernel → Prop
  | first : Comes exec elfData task k 0 k
  | next {sec phnum : ℕ} {k₁ k₂ : Kernel} : Comes exec elfData task k sec k₁ →
      readInt k₁.machine 2 ((elfData + ePhnum) % 2 ^ 32) = some phnum → sec < phnum →
      (loadSegment elfData task sec).run exec k₁ = some ((), k₂) →
      Comes exec elfData task k (sec + 1) k₂

section

variable {L : Layout} {D : List ℕ} {fuel elfData length sec N : ℕ} {bytes : ℕ → ℕ}
  {alloc : ℕ → Machine → Option (ℕ × Machine)} {k k₀ k' : Kernel} {task : TaskRef}

/-- What each iteration keeps, the loop keeps. -/
theorem Comes.induct {I : ℕ → Kernel → Prop} (hfirst : I 0 k₀)
    (hphnum : ∀ sec k, I sec k → readInt k.machine 2 ((elfData + ePhnum) % 2 ^ 32) = some N)
    (hnext : ∀ sec k k', sec < N → I sec k →
      (loadSegment elfData task sec).run (Primitive.exec L fuel alloc) k = some ((), k') → I (sec + 1) k')
    (h : Comes (Primitive.exec L fuel alloc) elfData task k₀ sec k) : sec ≤ N ∧ I sec k := by
  induction h with
  | first => exact ⟨Nat.zero_le N, hfirst⟩
  | next _ hread hlt hrun ih =>
    obtain rfl := Option.some.inj ((hphnum _ _ ih.2).symm.trans hread)
    exact ⟨hlt, hnext _ _ _ hlt ih.2 hrun⟩

theorem Comes.atHeader (himage : Image bytes length) (hfuel : 2 ^ 20 < fuel)
    (hplaced : ∀ s < headerCount bytes, Placed elfData length (header bytes s))
    (hfirst : AtHeader L D elfData length bytes 0 k₀.machine)
    (hdir : pageOf (k₀.scheduler.tasks task).regs.cr3.toNat = L.kernelPageDirectory)
    (h : Comes (Primitive.exec L fuel alloc) elfData task k₀ sec k) :
    sec ≤ headerCount bytes ∧ k.scheduler = k₀.scheduler ∧
      AtHeader L D elfData length bytes sec k.machine := by
  refine h.induct (I := fun sec k => k.scheduler = k₀.scheduler ∧
    AtHeader L D elfData length bytes sec k.machine) ⟨rfl, hfirst⟩ ?_ ?_
  · rintro sec k ⟨-, hat⟩
    exact hat.readInt_phnum himage
  · rintro sec k k' hsec ⟨hs, hat⟩ hrun
    obtain ⟨hs', hat', -⟩ := hat.loadSegment himage hfuel (by rw [hs]; exact hdir) hsec
      (hplaced sec hsec) hrun
    exact ⟨hs'.trans hs, hat'⟩

/-- Mapping no page takes no frame. -/
theorem memoryMap_zero {m m' : Machine} {va : ℕ} {isUser : Bool} (h : DirectoriesInv L ⟨m, D⟩)
    (hfuel : 2 ^ 20 < fuel) (hmap : memoryMap fuel m m.cr3 va 0 isUser = some m') : m' = m := by
  have hnone : pagesFor 0 = 0 := rfl
  have halloc : (m.physicalAllocate 0).2 = m := by
    rcases physicalAllocate_cases m.memManData 0 with ⟨f, -, -, -, halloc⟩ | ⟨-, halloc⟩
    · rw [Machine.physicalAllocate, halloc]
      rfl
    · rw [Machine.physicalAllocate, halloc]
  have hslot : slotPresent (m.physicalAllocate 0).2 m.cr3 0 = true := by
    rw [halloc]
    exact (h.roles.ownFrame h.cr3).slot_zero
  have heq := @memoryMap_eq m m.cr3 fuel va 0 _ isUser _ rfl hslot hfuel
  rw [hmap, hnone, Option.some.injEq, installPages] at heq
  exact heq.trans halloc

theorem memcpy_memManData (n : ℕ) : ∀ {m m' : Machine} {dst src : ℕ},
    memcpy n m dst src = some m' → m'.memManData = m.memManData := by
  induction n with
  | zero =>
    intro m m' dst src h
    exact Option.some.inj h ▸ rfl
  | succ n ih =>
    intro m m' dst src h
    rw [memcpy, Option.bind_eq_some_iff] at h
    obtain ⟨b, -, h⟩ := h
    rw [Option.bind_eq_some_iff] at h
    obtain ⟨m₁, hwrite, hrest⟩ := h
    rw [writeByte, Option.map_eq_some_iff] at hwrite
    obtain ⟨g, -, rfl⟩ := hwrite
    rw [ih hrest]
    rfl

/-- An iteration leaves memory alone exactly if there is nothing to round and nothing to map. -/
theorem AtHeader.loadSegment_idle (h : AtHeader L D elfData length bytes sec k.machine)
    (himage : Image bytes length) (hfuel : 2 ^ 20 < fuel)
    (hdir : pageOf (k.scheduler.tasks task).regs.cr3.toNat = L.kernelPageDirectory)
    (hsec : sec < headerCount bytes) (hplaced : Placed elfData length (header bytes sec))
    (hrun : (Elf.loadSegment elfData task sec).run (Primitive.exec L fuel alloc) k = some ((), k')) :
    k'.machine = k.machine ↔
      (header bytes sec).vaddr % pageSize = 0 ∧ (header bytes sec).filesz % 2 ^ 16 = 0 := by
  have hph := @AtHeader.run_programHeader L D fuel elfData length sec bytes alloc k h himage hsec
  have hle := headerOffset_le himage hsec
  have hvaddr : headerOffset bytes sec + pVaddr + 4 ≤ length := by
    rw [pVaddr]
    omega
  obtain ⟨B, hload, hB⟩ := h
  have hfield : littleEndian B 4 (headerOffset bytes sec + pVaddr) = (header bytes sec).vaddr :=
    field_eq hB (by omega)
  rw [Elf.loadSegment, run_bind_eq_some] at hrun
  obtain ⟨_, _, hheader, hrun⟩ := hrun
  obtain ⟨rfl, rfl⟩ := Prod.mk.inj (Option.some.inj (hph.symm.trans hheader))
  obtain ⟨⟨⟩, k₁, halign, hrun⟩ := run_bind_eq_some.mp hrun
  obtain ⟨⟨⟩, k₂, hmap, hcopy⟩ := run_bind_eq_some.mp hrun
  obtain ⟨hs₁, -, B₁, hload₁, hrounded, hother⟩ := loading_alignSegment hload hvaddr halign
  have hdir₁ : pageOf (k₁.scheduler.tasks task).regs.cr3.toNat = L.kernelPageDirectory := by
    rw [hs₁]
    exact hdir
  have hfields := aligned_of_rounded himage hB hrounded hother
  have hfilled := filled hload₁ hfields himage hfuel hdir₁ hsec hplaced hmap hcopy
  constructor
  · intro hsame
    constructor
    · -- the field has been read before and after
      have hafter := hfilled.loaded.readInt hvaddr
      rw [hsame, hload.readInt hvaddr, Option.some.injEq, hfields.vaddr, hfield] at hafter
      have := Nat.mod_le (header bytes sec).vaddr pageSize
      omega
    · by_contra hne
      -- a frame that is taken is marked
      have hsize := size_le_pagesFor (Nat.mod_lt (header bytes sec).filesz (show 0 < 2 ^ 16 by decide))
      have hpages : 0 < (header bytes sec).pages := by
        rw [ProgramHeader.pages]
        by_contra hzero
        rw [Nat.eq_zero_of_not_pos hzero, Nat.zero_mul] at hsize
        omega
      obtain ⟨f, m₁, A, hdealt⟩ := hfilled.dealt
      obtain ⟨-, hunused, hused⟩ := hdealt.fresh.fresh _ ⟨0, hpages, rfl⟩
      have hbefore := (alignSegment_wrote hload hvaddr halign).1.data
      have hafter := memcpy_memManData _ hfilled.copy
      rw [Machine.used, ← hafter, hsame, ← hbefore, ← Machine.used, hunused] at hused
      exact Bool.false_ne_true hused
  · rintro ⟨haligned, hempty⟩
    obtain rfl := alignSegment_aligned hload hvaddr (by rw [hfield]; exact haligned) halign
    have hmapped := run_mapSegment hload₁ (by rw [pFilesz]; omega) hdir₁ hmap
    rw [hfields.filesz, hempty] at hmapped
    have hsame := memoryMap_zero hload₁.inv hfuel hmapped
    have hcopied := hfilled.copy
    rw [hempty, memcpy, Option.some.injEq] at hcopied
    exact hcopied.symm.trans hsame

/-! ## `load` -/

/-- Behind `createTask` the loop is at the first program header, with the kernel's directory. -/
theorem atHeader_createTask (hfuel : 2 ^ 20 < fuel) (hinv : DirectoriesInv L ⟨k.machine, D⟩)
    (hready : Ready L fuel alloc ⟨k.machine, D⟩ elfData length bytes)
    (hcreate : (createTask L false 0).run (Primitive.exec L fuel alloc) k = some (task, k₀)) :
    AtHeader L D elfData length bytes 0 k₀.machine ∧
      pageOf (k₀.scheduler.tasks task).regs.cr3.toNat = L.kernelPageDirectory := by
  obtain ⟨⟨p, m₂⟩, halloc⟩ := createTask_kmalloc hcreate
  obtain ⟨task', k₁, hcreate', -, hfirst, -, -, hdir⟩ :=
    createTask_returns hfuel hinv hready halloc
  obtain ⟨rfl, rfl⟩ := Prod.mk.inj (Option.some.inj (hcreate.symm.trans hcreate'))
  exact ⟨hfirst, hdir⟩

/-- Which iterations of the loop leave memory as it was. -/
theorem loadSegment_idle_iff {k₁ k₂ : Kernel} (hfuel : 2 ^ 20 < fuel)
    (hinv : DirectoriesInv L ⟨k.machine, D⟩)
    (hready : Ready L fuel alloc ⟨k.machine, D⟩ elfData length bytes)
    (hcreate : (createTask L false 0).run (Primitive.exec L fuel alloc) k = some (task, k₀))
    (hsec : sec < headerCount bytes)
    (hcomes : Comes (Primitive.exec L fuel alloc) elfData task k₀ sec k₁)
    (hrun : (loadSegment elfData task sec).run (Primitive.exec L fuel alloc) k₁ = some ((), k₂)) :
    k₂.machine = k₁.machine ↔
      (header bytes sec).vaddr % pageSize = 0 ∧ (header bytes sec).filesz % 2 ^ 16 = 0 := by
  obtain ⟨hfirst, hdir⟩ := atHeader_createTask hfuel hinv hready hcreate
  obtain ⟨-, hs, hat⟩ := hcomes.atHeader hready.image hfuel hready.placed hfirst hdir
  exact hat.loadSegment_idle hready.image hfuel (by rw [hs]; exact hdir) hsec
    (hready.placed sec hsec) hrun

/-- What is in the pages of a program header, read by the processor. -/
theorem Placing.readByte {m : Machine} (h : Placing L D elfData length bytes N m) (hsec : sec < N)
    (halone : Alone bytes sec N) {i : ℕ} (hi : i < (header bytes sec).filesz % 2 ^ 16)
    (hchanged : ¬ Changed bytes (sec + 1) ((header bytes sec).offset + i)) :
    MemoryManager.readByte m ((header bytes sec).page * pageSize + i)
      = some (bytes ((header bytes sec).offset + i)) := by
  obtain ⟨b, hread, hb⟩ := BytesAt.readByte (h.copied sec hsec halone) hi
  rw [hread, hb hchanged]

end

/-- In such a state, whatever the program header: when the loop comes to it, it leaves memory alone
exactly if its address is aligned and the low half of `p_filesz` is 0. No type is looked at. -/
theorem load_skips_iff (L : Layout) (fuel : ℕ) (m : Machine) (maps : List MemoryMap)
    (modules : List ModuleInfo) (hboot : Booted L m)
    (hmods : ∀ module ∈ modules, WellPlaced module ∧ module.modEnd ≠ 2 ^ 30)
    (hfuel : 2 ^ 20 < fuel) :
    ∃ m₀, init L fuel m maps modules = some m₀ ∧
      ∀ s, Relation.ReflTransGen (DataStep L fuel) ⟨m₀, [L.kernelPageDirectory]⟩ s →
        ∀ alloc elfData length bytes, Ready L fuel alloc s elfData length bytes →
        ∀ k task k₀, k.machine = s.machine →
          (createTask L false 0).run (Primitive.exec L fuel alloc) k = some (task, k₀) →
        ∀ sec < headerCount bytes, ∀ k₁ k₂,
          Comes (Primitive.exec L fuel alloc) elfData task k₀ sec k₁ →
          (loadSegment elfData task sec).run (Primitive.exec L fuel alloc) k₁ = some ((), k₂) →
          (k₂.machine = k₁.machine ↔
            (header bytes sec).vaddr % pageSize = 0 ∧ (header bytes sec).filesz % 2 ^ 16 = 0) := by
  obtain ⟨m₀, hm₀, hexact, hcr3⟩ := bootExact_init maps hboot hmods hfuel
  refine ⟨m₀, hm₀, ?_⟩
  rintro ⟨m₁, D⟩ hsteps alloc elfData length bytes hready k task k₀ hk hcreate sec hsec k₁ k₂ hcomes
    hrun
  have hinv : DirectoriesInv L ⟨m₁, D⟩ := Run.invariant hsteps (directoriesInv_init hexact hcr3)
    fun _ _ => directoriesInv_dataStep hfuel
  obtain rfl : k.machine = m₁ := hk
  exact loadSegment_idle_iff hfuel hinv hready hcreate hsec hcomes hrun

/-- The image whose segment is not in the file: its program header is aligned, and passed over. -/
theorem load_skips_empty :
    ∃ m₀ task k₀ k₁, init minimalLayout (2 ^ 20 + 1) (fileMachine (imageFile 0))
        [⟨0, 0x8000000, 1⟩] [] = some m₀ ∧
      (createTask minimalLayout false 0).run (Primitive.exec minimalLayout (2 ^ 20 + 1)
        (kmallocEmpty minimalLayout (2 ^ 20 + 1)))
        ⟨m₀, (Scheduler.boot Scheduler.zeroed).start 0 0, []⟩ = some (task, k₀) ∧
      (loadSegment 0x50000 task 0).run (Primitive.exec minimalLayout (2 ^ 20 + 1)
        (kmallocEmpty minimalLayout (2 ^ 20 + 1))) k₀ = some ((), k₁) ∧ k₁.machine = k₀.machine := by
  obtain ⟨m₀, hm₀, hskips⟩ := load_skips_iff minimalLayout (2 ^ 20 + 1) (fileMachine (imageFile 0))
    [⟨0, 0x8000000, 1⟩] [] (booted_fileMachine _) (List.forall_mem_nil _) (by omega)
  obtain ⟨hinv, hready, ⟨p, m₂, halloc, -⟩, k', hrun⟩ := load_imageFile (Or.inl rfl) (fileMapped_init hm₀)
    (Nat.le_refl 84) (by omega) (by omega)
  obtain ⟨hcount, -, -, hheader, -⟩ := fields_imageFile (show 0 = 0 ∨ 0 = 0x1000 from Or.inl rfl)
  obtain ⟨task, k₀, k₂, entry, hcreate, hloop, -⟩ := load_true hrun
  obtain ⟨task', k₀', hcreate', -, hfirst, -⟩ :=
    createTask_returns (k := ⟨m₀, (Scheduler.boot Scheduler.zeroed).start 0 0, []⟩) (by omega) hinv
      hready halloc
  obtain ⟨rfl, rfl⟩ := Prod.mk.inj (Option.some.inj (hcreate.symm.trans hcreate'))
  have hphnum := hfirst.readInt_phnum hready.image
  rw [show 2 ^ 16 = 65535 + 1 by rfl, loadSegments, run_read, hphnum, Option.bind_some,
    if_pos (by rw [hcount]; exact Nat.one_pos), run_bind_eq_some] at hloop
  obtain ⟨⟨⟩, k₁, hsegment, -⟩ := hloop
  refine ⟨m₀, task, k₀, k₁, hm₀, hcreate, hsegment, ?_⟩
  refine (hskips _ .refl _ _ _ _ hready _ task k₀ rfl hcreate 0 (by rw [hcount]; exact Nat.one_pos)
    k₀ k₁ .first hsegment).mpr ?_
  rw [hheader]
  exact ⟨by decide, by decide⟩

/-! ## Segments where the file has them -/

section

variable {L : Layout} {D : List ℕ} {elfData length : ℕ} {bytes : ℕ → ℕ} {m : Machine}

end

end Sakura.Elf
