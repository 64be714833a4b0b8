import Mathlib.Algebra.BigOperators.Intervals
import Sakura.ElfTheorems
import Sakura.MemoryManager.FreeBlockTheorems

/-!
# What is loaded

`Loading` is the state of `load` between two statements of its loop: the file is in memory, with
the bytes `B`, there is a block of free frames, and some pages have been loaded. Each statement
keeps it (`loading_alignSegment`, `loading_mapSegment`, `loading_copySegment`), as long as no
program header's pages are the file's own.
-/

namespace Sakura.Elf

open MemoryManager Kernel Routine
open I386 (Word)

/-! ## Program headers -/

/-- A program header, as far as it is needed here, with the fields ELF gives it. -/
structure ProgramHeader where
  type : ℕ
  offset : ℕ
  vaddr : ℕ
  filesz : ℕ
  memsz : ℕ
deriving DecidableEq

/-- `PT_LOAD`. -/
def ptLoad : ℕ := 1

namespace ProgramHeader

/-- The page of `p_vaddr`. -/
def page (h : ProgramHeader) : ℕ := h.vaddr / pageSize

/-- The pages `load` maps: it takes the low half of `p_filesz` for the size. -/
def pages (h : ProgramHeader) : ℕ := pagesFor (h.filesz % 2 ^ 16)

end ProgramHeader

/-- The number of program headers. -/
def headerCount (bytes : ℕ → ℕ) : ℕ := littleEndian bytes 2 ePhnum

/-- The offset of program header `sec`, of 32 bytes as all of them. -/
def headerOffset (bytes : ℕ → ℕ) (sec : ℕ) : ℕ := littleEndian bytes 4 ePhoff + 32 * sec

/-- Program header `sec`. -/
def header (bytes : ℕ → ℕ) (sec : ℕ) : ProgramHeader where
  type := littleEndian bytes 4 (headerOffset bytes sec)
  offset := littleEndian bytes 4 (headerOffset bytes sec + 4)
  vaddr := littleEndian bytes 4 (headerOffset bytes sec + 8)
  filesz := littleEndian bytes 4 (headerOffset bytes sec + 16)
  memsz := littleEndian bytes 4 (headerOffset bytes sec + 20)

/-- The program headers have the size ELF gives them, and lie in the file, behind its header. -/
structure Image (bytes : ℕ → ℕ) (length : ℕ) : Prop where
  byte_lt : ∀ i, bytes i < 256
  phentsize : littleEndian bytes 2 ePhentsize = 32
  behind : 52 ≤ headerOffset bytes 0
  inside : headerOffset bytes (headerCount bytes) ≤ length

/-! ## The file in memory -/

/-- The file is at `elfData`, with the bytes `B`, in pages mapped to themselves. Its frames are in
use, and hold no tables. -/
structure FileAt (L : Layout) (D : List ℕ) (elfData length : ℕ) (B : ℕ → ℕ) (m : Machine) :
    Prop where
  le : elfData + length ≤ 2 ^ 32
  file : ∀ i < length, translate m (elfData + i) = some (pageOf (elfData + i))
  settled : ∀ i < length, Settled L ⟨m, D⟩ (pageOf (elfData + i))
  byte : ∀ i < length, m.byte (pageOf (elfData + i)) ((elfData + i) % pageSize) = B i

/-- The file is there, with a block of `frames` free frames, and the pages `P` are present. -/
structure Loading (L : Layout) (D : List ℕ) (elfData length : ℕ) (B : ℕ → ℕ) (frames : ℕ)
    (P : ℕ → Prop) (m : Machine) : Prop extends FileAt L D elfData length B m where
  inv : DirectoriesInv L ⟨m, D⟩
  cr3 : m.cr3 = L.kernelPageDirectory
  block : ∃ a, FreeBlock m a frames
  present : ∀ q < 2 ^ 20, P q → pagePresent m m.cr3 q = true

/-- The kernel's directory is as it was. -/
def SameDirectory (L : Layout) (m m' : Machine) : Prop :=
  ∀ i, m'.ram L.kernelPageDirectory i = m.ram L.kernelPageDirectory i

section

variable {L : Layout} {D : List ℕ} {elfData length frames : ℕ} {B B' : ℕ → ℕ} {P : ℕ → Prop}
  {m m' : Machine}

theorem SameDirectory.trans {m₁ m₂ m₃ : Machine} (h : SameDirectory L m₁ m₂)
    (h' : SameDirectory L m₂ m₃) : SameDirectory L m₁ m₃ :=
  fun i => (h' i).trans (h i)

/-- A field of the file reads as it stands there. -/
theorem FileAt.readInt (h : FileAt L D elfData length B m) {n o : ℕ} (ho : o + n ≤ length) :
    readInt m n ((elfData + o) % 2 ^ 32) = some (littleEndian B n o) := by
  refine readInt_eq n fun i hi => ?_
  have hlt : o + i < length := by omega
  have hle := h.le
  rw [Nat.mod_eq_of_lt (by omega), readByte, h.file _ hlt, Option.map_some, h.byte _ hlt]

/-- Writing data that is no table. -/
theorem Loading.wrote {F : ℕ → Prop} (h : Loading L D elfData length B frames P m)
    (hw : Wrote F m m') (hF : ∀ f, F f → ¬ Structural L ⟨m, D⟩ f)
    (hbyte : ∀ i < length, m'.byte (pageOf (elfData + i)) ((elfData + i) % pageSize) = B' i) :
    Loading L D elfData length B' frames P m' := by
  have hdata : ∀ f, F f → DataFrame m f := fun f hf => dataFrame_of_not_structural h.inv (hF f hf)
  obtain ⟨a, hblock⟩ := h.block
  refine ⟨⟨h.le, fun i hi => ?_, fun i hi => hw.settled hF (h.settled i hi), hbyte⟩,
    hw.directoriesInv h.inv hF, hw.cr3.trans h.cr3, ⟨a, hblock.le, ?_⟩, fun q hq hP => ?_⟩
  · rw [hw.translate hdata, h.file i hi]
  · rw [hw.data]
    exact hblock.free
  · rw [hw.cr3, (hw.page h.inv hF h.inv.cr3 hq).1]
    exact h.present q hq hP

theorem Loading.sameDirectory {F : ℕ → Prop} (h : Loading L D elfData length B frames P m)
    (hw : Wrote F m m') (hF : ∀ f, F f → ¬ Structural L ⟨m, D⟩ f) : SameDirectory L m m' :=
  fun i => hw.ram _ i fun hf => hF _ hf (Or.inl (h.cr3 ▸ h.inv.cr3))

/-- Copying to frames that hold neither tables nor the file. -/
theorem Loading.memcpy (h : Loading L D elfData length B frames P m) {n dst src : ℕ}
    (hdst : dst < 2 ^ 32)
    (hto : ∀ i < n, ∀ g, translate m ((dst + i) % 2 ^ 32) = some g →
      ¬ Structural L ⟨m, D⟩ g ∧ ∀ j < length, g ≠ pageOf (elfData + j))
    (hcopy : MemoryManager.memcpy n m dst src = some m') :
    Loading L D elfData length B frames P m' ∧ SameDirectory L m m' := by
  have hw := memcpy_wrote (F := fun g => ¬ Structural L ⟨m, D⟩ g ∧
    ∀ j < length, g ≠ pageOf (elfData + j)) n hdst
    (fun g hg => dataFrame_of_not_structural h.inv hg.1) hto hcopy
  refine ⟨h.wrote hw (fun g hg => hg.1) fun i hi => ?_, h.sameDirectory hw fun g hg => hg.1⟩
  rw [Machine.byte, hw.ram, ← Machine.byte, h.byte i hi]
  exact fun hg => hg.2 i hi rfl

/-- Storing an integer in the file. -/
theorem Loading.writeInt (h : Loading L D elfData length B frames P m) {n o v : ℕ}
    (ho : o + n ≤ length)
    (hwrite : MemoryManager.writeInt n m ((elfData + o) % 2 ^ 32) v = some m') :
    SameDirectory L m m' ∧ ∃ B', Loading L D elfData length B' frames P m' ∧
      littleEndian B' n o = v % 256 ^ n ∧ ∀ i, i < o ∨ o + n ≤ i → B' i = B i := by
  have hle := h.le
  have haddr : ∀ i < n, ((elfData + o) % 2 ^ 32 + i) % 2 ^ 32 = elfData + (o + i) := by
    intro i hi
    omega
  have hlands : ∀ i < n, ∀ g q, LandsAt m ((elfData + o) % 2 ^ 32) i g q ↔
      pageOf (elfData + (o + i)) = g ∧ q = (elfData + (o + i)) % pageSize := by
    intro i hi g q
    rw [LandsAt, haddr i hi, h.file _ (by omega), Option.some.injEq]
  -- an address is its page and its offset
  have hinj : ∀ i < length, ∀ j < length, pageOf (elfData + i) = pageOf (elfData + j) →
      (elfData + i) % pageSize = (elfData + j) % pageSize → i = j := by
    intro i hi j hj h1 h2
    rw [pageOf, pageOf] at h1
    rw [pageSize] at h1 h2
    omega
  have hF : ∀ g, (∃ i < length, pageOf (elfData + i) = g) → ¬ Structural L ⟨m, D⟩ g := by
    rintro g ⟨i, hi, rfl⟩
    exact (h.settled i hi).data
  have hdata : ∀ g, (∃ i < length, pageOf (elfData + i) = g) → DataFrame m g :=
    fun g hg => dataFrame_of_not_structural h.inv (hF g hg)
  have hto : ∀ i < n, ∀ g, translate m (((elfData + o) % 2 ^ 32 + i) % 2 ^ 32) = some g →
      ∃ i < length, pageOf (elfData + i) = g := by
    intro i hi g hg
    rw [haddr i hi, h.file _ (by omega), Option.some.injEq] at hg
    exact ⟨o + i, by omega, hg⟩
  have hp : (elfData + o) % 2 ^ 32 < 2 ^ 32 := by omega
  obtain ⟨hw, hbytes⟩ := writeInt_wrote n hp hdata hto hwrite
  have hread := readByte_writeInt n hp hdata hto
    (fun i hi j hj g q h1 h2 => by
      rw [hlands i hi] at h1
      rw [hlands j hj] at h2
      have := hinj (o + i) (by omega) (o + j) (by omega) (h1.1.trans h2.1.symm) (h1.2.symm.trans h2.2)
      omega) hwrite
  obtain ⟨B', hB'⟩ : ∃ B' : ℕ → ℕ, ∀ i, B' i = if i < length
      then m'.byte (pageOf (elfData + i)) ((elfData + i) % pageSize) else B i :=
    ⟨_, fun _ => rfl⟩
  refine ⟨h.sameDirectory hw hF, B', h.wrote hw hF fun i hi => by rw [hB', if_pos hi], ?_, ?_⟩
  · refine littleEndian_digits n fun i hi => ?_
    have hbyte := hread i hi
    rw [haddr i hi, readByte, hw.translate hdata, h.file _ (by omega), Option.map_some,
      Option.some.injEq] at hbyte
    rw [hB', if_pos (by omega), hbyte]
  · intro i hi
    by_cases hlt : i < length
    · rw [hB', if_pos hlt, hbytes, h.byte i hlt]
      intro j hj hland
      rw [hlands j hj] at hland
      have := hinj (o + j) (by omega) i hlt hland.1 hland.2.symm
      omega
    · rw [hB', if_neg hlt]

/-- A field can be written. -/
theorem Loading.writeInt_ends (h : Loading L D elfData length B frames P m) {n o : ℕ} (v : ℕ)
    (ho : o + n ≤ length) :
    ∃ m', MemoryManager.writeInt n m ((elfData + o) % 2 ^ 32) v = some m' := by
  have hle := h.le
  refine MemoryManager.writeInt_ends (F := fun g => ∃ i < length, pageOf (elfData + i) = g) n
    (Nat.mod_lt _ (by decide)) ?_ ?_
  · rintro g ⟨i, hi, rfl⟩
    exact dataFrame_of_not_structural h.inv (h.settled i hi).data
  · intro i hi
    rw [show ((elfData + o) % 2 ^ 32 + i) % 2 ^ 32 = elfData + (o + i) by omega]
    exact ⟨_, ⟨o + i, by omega, rfl⟩, h.file _ (by omega)⟩

/-- The pages of the file are present, and mapped to themselves. -/
theorem FileAt.page (h : FileAt L D elfData length B m) {i : ℕ} (hi : i < length) :
    pagePresent m m.cr3 (pageOf (elfData + i)) = true ∧
      frameAt m m.cr3 (pageOf (elfData + i)) = pageOf (elfData + i) :=
  translate_eq_some.mp (h.file i hi)

/-- Mapping pages that are not the file's. -/
theorem Loading.memoryMap {fuel va size : ℕ} {isUser : Bool}
    (h : Loading L D elfData length B (frames + 2 * pagesFor size) P m) (hfuel : 2 ^ 20 < fuel)
    (hsize : size < 2 ^ 32) (hside : OneSide (pageOf va) (pagesFor size))
    (hapart : ∀ i < length, ¬ InRun (pageOf va) (pagesFor size) (pageOf (elfData + i)))
    (hmap : MemoryManager.memoryMap fuel m m.cr3 va size isUser = some m') :
    Loading L D elfData length B frames
        (fun q => P q ∨ InRun (pageOf va) (pagesFor size) q) m' ∧
      (∀ q, InRun (pageOf va) (pagesFor size) q → ¬ Structural L ⟨m', D⟩ (frameAt m' m'.cr3 q) ∧
        ∀ i < length, frameAt m' m'.cr3 q ≠ pageOf (elfData + i)) ∧
      (pageOf va + pagesFor size ≤ kernelPages → SameDirectory L m m') := by
  obtain ⟨a, hblock⟩ := h.block
  obtain ⟨hgiven, hblock'⟩ := memoryMap_given h.inv hfuel hsize hblock hside hmap
  refine ⟨⟨⟨h.le, fun i hi => ?_, fun i hi => (hgiven.settled _ (h.settled i hi)).1,
    fun i hi => ?_⟩, hgiven.inv, hgiven.cr3.trans h.cr3, hblock', ?_⟩, ?_, ?_⟩
  · obtain ⟨hpres, hframe⟩ := h.page hi
    have hpage := pageOf_lt (elfData + i)
    rw [translate_eq_some, hgiven.cr3, hgiven.page _ hpage hpres (hapart i hi) (h.settled i hi).used]
    exact ⟨hgiven.present _ hpage hpres, hframe⟩
  · rw [Machine.byte, (hgiven.settled _ (h.settled i hi)).2]
    exact h.byte i hi
  · rw [hgiven.cr3]
    rintro q hq (hP | hrun)
    · exact hgiven.present q hq (h.present q hq hP)
    · exact (hgiven.given q hrun).1
  · rw [hgiven.cr3]
    intro q hq
    obtain ⟨-, hunused, hdata⟩ := hgiven.given q hq
    refine ⟨hdata, fun i hi heq => ?_⟩
    rw [heq, (h.settled i hi).used] at hunused
    exact Bool.false_ne_true hunused.symm
  · rw [SameDirectory, ← h.cr3]
    exact hgiven.directory

end

/-! ## The statements of the loop -/

section

variable {L : Layout} {D : List ℕ} {fuel elfData length frames ph : ℕ}
  {alloc : ℕ → Machine → Option (ℕ × Machine)} {B : ℕ → ℕ} {P : ℕ → Prop} {k k' : Kernel}
  {task : TaskRef}

theorem FileAt.littleEndian_lt (h : FileAt L D elfData length B k.machine) {n o : ℕ}
    (ho : o + n ≤ length) : littleEndian B n o < 256 ^ n :=
  readInt_lt n (h.readInt ho)

/-- Aligning a segment writes its own header. -/
theorem loading_alignSegment (h : Loading L D elfData length B frames P k.machine)
    (hph : ph + pVaddr + 4 ≤ length)
    (hrun : (alignSegment elfData ph).run (Primitive.exec L fuel alloc) k = some ((), k')) :
    k'.scheduler = k.scheduler ∧ SameDirectory L k.machine k'.machine ∧
      ∃ B', Loading L D elfData length B' frames P k'.machine ∧
      littleEndian B' 4 (ph + pVaddr)
        = littleEndian B 4 (ph + pVaddr) - littleEndian B 4 (ph + pVaddr) % pageSize ∧
      ∀ i, i < ph + pVaddr ∨ ph + pVaddr + 4 ≤ i → B' i = B i := by
  rw [alignSegment, run_read, h.readInt hph, Option.bind_some, step, run_perform,
    Primitive.exec, Option.map_eq_some_iff] at hrun
  obtain ⟨m', hwrite, heq⟩ := hrun
  obtain rfl := (Prod.mk.inj heq).2
  have hlt := h.littleEndian_lt hph
  obtain ⟨hsame, B', hload, hvaddr, hother⟩ := h.writeInt hph hwrite
  refine ⟨rfl, hsame, B', hload, ?_, hother⟩
  rw [hvaddr, Nat.mod_eq_of_lt (by omega)]

/-- And returns. -/
theorem alignSegment_ends (h : Loading L D elfData length B frames P k.machine)
    (hph : ph + pVaddr + 4 ≤ length) :
    ∃ k', (alignSegment elfData ph).run (Primitive.exec L fuel alloc) k = some ((), k') := by
  obtain ⟨m', hm'⟩ := h.writeInt_ends (littleEndian B 4 (ph + pVaddr)
    - littleEndian B 4 (ph + pVaddr) % pageSize) hph
  refine ⟨{ k with machine := m' }, ?_⟩
  rw [alignSegment, run_read, h.readInt hph, Option.bind_some, step, run_perform, Primitive.exec, hm',
    Option.map_some]

/-- Mapping a segment takes frames for it. -/
theorem loading_mapSegment
    (h : Loading L D elfData length B (frames + 2 * pagesFor (littleEndian B 2 (ph + pFilesz))) P
      k.machine)
    (hph : ph + pFilesz + 2 ≤ length) (hfuel : 2 ^ 20 < fuel)
    (hdir : pageOf (k.scheduler.tasks task).regs.cr3.toNat = L.kernelPageDirectory)
    (hside : OneSide (pageOf (littleEndian B 4 (ph + pVaddr)))
      (pagesFor (littleEndian B 2 (ph + pFilesz))))
    (hapart : ∀ i < length, ¬ InRun (pageOf (littleEndian B 4 (ph + pVaddr)))
      (pagesFor (littleEndian B 2 (ph + pFilesz))) (pageOf (elfData + i)))
    (hrun : (mapSegment elfData task ph).run (Primitive.exec L fuel alloc) k = some ((), k')) :
    k'.scheduler = k.scheduler ∧
      Loading L D elfData length B frames (fun q => P q ∨
        InRun (pageOf (littleEndian B 4 (ph + pVaddr)))
          (pagesFor (littleEndian B 2 (ph + pFilesz))) q) k'.machine ∧
      (∀ q, InRun (pageOf (littleEndian B 4 (ph + pVaddr)))
          (pagesFor (littleEndian B 2 (ph + pFilesz))) q →
        ¬ Structural L ⟨k'.machine, D⟩ (frameAt k'.machine k'.machine.cr3 q) ∧
        ∀ i < length, frameAt k'.machine k'.machine.cr3 q ≠ pageOf (elfData + i)) ∧
      (pageOf (littleEndian B 4 (ph + pVaddr)) + pagesFor (littleEndian B 2 (ph + pFilesz))
        ≤ kernelPages → SameDirectory L k.machine k'.machine) := by
  have hvaddr : ph + pVaddr + 4 ≤ length := by
    rw [pVaddr]
    rw [pFilesz] at hph
    omega
  rw [mapSegment, run_read, h.readInt hph, Option.bind_some, run_read,
    h.readInt hvaddr, Option.bind_some, run_bind, step, run_perform] at hrun
  simp only [Primitive.exec, Option.bind_some, run_perform, hdir, ← h.cr3, Option.map_eq_some_iff] at hrun
  obtain ⟨m', hmap, heq⟩ := hrun
  obtain rfl := (Prod.mk.inj heq).2
  have hsize := h.littleEndian_lt hph
  exact ⟨rfl, h.memoryMap hfuel (by omega) hside hapart hmap⟩

/-- And returns when there are frames. -/
theorem mapSegment_ends (h : Loading L D elfData length B frames P k.machine)
    (hph : ph + pFilesz + 2 ≤ length) (hfuel : 2 ^ 20 < fuel)
    (hdir : pageOf (k.scheduler.tasks task).regs.cr3.toNat = L.kernelPageDirectory) :
    ∃ k', (mapSegment elfData task ph).run (Primitive.exec L fuel alloc) k = some ((), k') := by
  have hvaddr : ph + pVaddr + 4 ≤ length := by
    rw [pVaddr]
    rw [pFilesz] at hph
    omega
  have hslot : slotPresent (k.machine.physicalAllocate
      (pagesFor (littleEndian B 2 (ph + pFilesz)))).2 k.machine.cr3 0 = true :=
    (h.inv.roles.ownFrame h.inv.cr3).slot_zero
  obtain ⟨m', hmap⟩ : ∃ m', memoryMap fuel k.machine k.machine.cr3
      (littleEndian B 4 (ph + pVaddr)) (littleEndian B 2 (ph + pFilesz)) false = some m' :=
    ⟨_, memoryMap_eq rfl hslot hfuel⟩
  refine ⟨{ k with machine := m' }, ?_⟩
  rw [mapSegment, run_read, h.readInt hph, Option.bind_some, run_read,
    h.readInt hvaddr, Option.bind_some, run_bind, step, run_perform]
  simp only [Primitive.exec, Option.bind_some, run_perform, hdir, ← h.cr3, hmap, Option.map_some]

/-- The pages of a size hold it. -/
theorem size_le_pagesFor {size : ℕ} (h : size < 2 ^ 16) : size ≤ pagesFor size * pageSize := by
  unfold pagesFor pageAlign
  rw [pageSize]
  split <;> omega

/-- The bytes of a segment lie in the pages that are mapped for it. -/
theorem inRun_segment {vaddr size i : ℕ} (hva : vaddr < 2 ^ 32) (hsize : size < 2 ^ 16)
    (haligned : vaddr % pageSize = 0) (hi : i < size) :
    InRun (pageOf vaddr) (pagesFor size) (pageOf ((((vaddr + 0) % 2 ^ 32) + i) % 2 ^ 32)) := by
  have hle := size_le_pagesFor hsize
  refine ⟨i / pageSize, ?_, ?_⟩
  · rw [pageSize] at hle ⊢
    omega
  · rw [pageOf, pageOf]
    rw [pageSize] at haligned ⊢
    omega

/-- Copying a segment writes to its frames. -/
theorem loading_copySegment (h : Loading L D elfData length B frames P k.machine)
    (hph : ph + pFilesz + 2 ≤ length)
    (haligned : littleEndian B 4 (ph + pVaddr) % pageSize = 0)
    (hto : ∀ q, InRun (pageOf (littleEndian B 4 (ph + pVaddr)))
        (pagesFor (littleEndian B 2 (ph + pFilesz))) q →
      ¬ Structural L ⟨k.machine, D⟩ (frameAt k.machine k.machine.cr3 q) ∧
        ∀ i < length, frameAt k.machine k.machine.cr3 q ≠ pageOf (elfData + i))
    (hrun : (copySegment elfData ph).run (Primitive.exec L fuel alloc) k = some ((), k')) :
    k'.scheduler = k.scheduler ∧ Loading L D elfData length B frames P k'.machine ∧
      SameDirectory L k.machine k'.machine := by
  have hvaddr : ph + pVaddr + 4 ≤ length := by
    rw [pVaddr]
    rw [pFilesz] at hph
    omega
  have hoffset : ph + pOffset + 4 ≤ length := by
    rw [pOffset]
    rw [pFilesz] at hph
    omega
  rw [copySegment, run_read, h.readInt hoffset, Option.bind_some, run_read,
    h.readInt hph, Option.bind_some, run_read, h.readInt hvaddr, Option.bind_some,
    run_copy, Option.map_eq_some_iff] at hrun
  obtain ⟨m', hcopy, heq⟩ := hrun
  obtain rfl := (Prod.mk.inj heq).2
  have hsize := h.littleEndian_lt hph
  have hva := h.littleEndian_lt hvaddr
  refine ⟨rfl, h.memcpy (Nat.mod_lt _ (by decide)) (fun i hi g hg => ?_) hcopy⟩
  obtain ⟨-, hframe⟩ := translate_eq_some.mp hg
  exact hframe ▸ hto _ (inRun_segment hva hsize haligned hi)

/-- And returns when the source can be read. -/
theorem copySegment_ends (h : Loading L D elfData length B frames P k.machine)
    (hph : ph + pFilesz + 2 ≤ length)
    (haligned : littleEndian B 4 (ph + pVaddr) % pageSize = 0)
    (hinside : littleEndian B 4 (ph + pOffset) + littleEndian B 2 (ph + pFilesz) ≤ length)
    (hpresent : ∀ q, InRun (pageOf (littleEndian B 4 (ph + pVaddr)))
      (pagesFor (littleEndian B 2 (ph + pFilesz))) q → P q)
    (hto : ∀ q, InRun (pageOf (littleEndian B 4 (ph + pVaddr)))
        (pagesFor (littleEndian B 2 (ph + pFilesz))) q →
      ¬ Structural L ⟨k.machine, D⟩ (frameAt k.machine k.machine.cr3 q)) :
    ∃ k', (copySegment elfData ph).run (Primitive.exec L fuel alloc) k = some ((), k') := by
  have hvaddr : ph + pVaddr + 4 ≤ length := by
    rw [pVaddr]
    rw [pFilesz] at hph
    omega
  have hoffset : ph + pOffset + 4 ≤ length := by
    rw [pOffset]
    rw [pFilesz] at hph
    omega
  have hsize := h.littleEndian_lt hph
  have hle := h.le
  obtain ⟨m', hcopy⟩ := memcpy_ends (m := k.machine)
    (F := fun g => ¬ Structural L ⟨k.machine, D⟩ g) (littleEndian B 2 (ph + pFilesz))
    (show (littleEndian B 4 (ph + pVaddr) + 0) % 2 ^ 32 < 2 ^ 32 by omega)
    (show (elfData + (littleEndian B 4 (ph + pOffset) + 0)) % 2 ^ 32 < 2 ^ 32 by omega)
    (fun g hg => dataFrame_of_not_structural h.inv hg)
    (fun i hi => by
      have hrun := inRun_segment (h.littleEndian_lt hvaddr) hsize haligned hi
      have hpres := h.present _ (pageOf_lt _) (hpresent _ hrun)
      exact ⟨_, hto _ hrun, translate_eq_some.mpr ⟨hpres, rfl⟩⟩)
    (fun i hi => by
      rw [show ((elfData + (littleEndian B 4 (ph + pOffset) + 0)) % 2 ^ 32 + i) % 2 ^ 32
        = elfData + (littleEndian B 4 (ph + pOffset) + i) by omega]
      exact ⟨_, h.file _ (by omega)⟩)
  refine ⟨{ k with machine := m' }, ?_⟩
  rw [copySegment, run_read, h.readInt hoffset, Option.bind_some, run_read,
    h.readInt hph, Option.bind_some, run_read, h.readInt hvaddr, Option.bind_some,
    run_copy, hcopy, Option.map_some]

end

/-! ## The loop -/

/-- The frames for the program headers from `sec` on, and for their tables. -/
def framesFrom (bytes : ℕ → ℕ) (sec : ℕ) : ℕ :=
  ∑ s ∈ Finset.Ico sec (headerCount bytes), 2 * (header bytes s).pages

/-- The pages of the program headers before `sec`. -/
def LoadedPage (bytes : ℕ → ℕ) (sec q : ℕ) : Prop :=
  ∃ s < sec, InRun (header bytes s).page (header bytes s).pages q

/-- Byte `i` is part of `p_vaddr` of a program header before `sec`. -/
def Rounded (bytes : ℕ → ℕ) (sec i : ℕ) : Prop :=
  ∃ s < sec, headerOffset bytes s + pVaddr ≤ i ∧ i < headerOffset bytes s + pVaddr + 4

/-- The pages of a program header lie on one side of 1 GiB, and none of them is a page of the
file. -/
structure Placed (elfData length : ℕ) (h : ProgramHeader) : Prop where
  side : OneSide h.page h.pages
  apart : ∀ i < length, ¬ InRun h.page h.pages (pageOf (elfData + i))

/-- The loop has come to program header `sec`. -/
def AtHeader (L : Layout) (D : List ℕ) (elfData length : ℕ) (bytes : ℕ → ℕ) (sec : ℕ)
    (m : Machine) : Prop :=
  ∃ B, Loading L D elfData length B (framesFrom bytes sec) (LoadedPage bytes sec) m ∧
    ∀ i, ¬ Rounded bytes sec i → B i = bytes i

section

variable {L : Layout} {D : List ℕ} {fuel elfData length sec : ℕ} {bytes B : ℕ → ℕ}
  {alloc : ℕ → Machine → Option (ℕ × Machine)} {k k' : Kernel} {task : TaskRef}

theorem headerOffset_succ (bytes : ℕ → ℕ) (sec : ℕ) :
    headerOffset bytes (sec + 1) = headerOffset bytes sec + 32 := by
  rw [headerOffset, headerOffset, Nat.mul_succ, Nat.add_assoc]

/-- Later headers lie behind. -/
theorem headerOffset_mono (bytes : ℕ → ℕ) {s t : ℕ} (h : s ≤ t) :
    headerOffset bytes s ≤ headerOffset bytes t :=
  Nat.add_le_add_left (Nat.mul_le_mul_left 32 h) _

/-- Nothing in front of the program headers is rounded, and nothing of those to come. -/
theorem not_rounded {i : ℕ} (h : i < headerOffset bytes 0 ∨ headerOffset bytes sec ≤ i) :
    ¬ Rounded bytes sec i := by
  rintro ⟨s, hs, h1, h2⟩
  have hfirst := headerOffset_mono bytes (Nat.zero_le s)
  have hlast := headerOffset_mono bytes (Nat.succ_le_of_lt hs)
  rw [headerOffset_succ] at hlast
  rw [pVaddr] at h1 h2
  omega

/-- A field that was not rounded is the file's. -/
theorem field_eq (hB : ∀ i, ¬ Rounded bytes sec i → B i = bytes i) {n o : ℕ}
    (h : o + n ≤ headerOffset bytes 0 ∨ headerOffset bytes sec ≤ o) :
    littleEndian B n o = littleEndian bytes n o :=
  littleEndian_congr n fun i _ => hB _ (not_rounded (by omega))

/-- The low half of `p_filesz` is what `load` takes for the size. -/
theorem filesz_eq (himage : Image bytes length) :
    littleEndian bytes 2 (headerOffset bytes sec + pFilesz) = (header bytes sec).filesz % 2 ^ 16 :=
  (littleEndian_mod himage.byte_lt 2 2 _).symm

/-- Every header lies in the file. -/
theorem headerOffset_le (himage : Image bytes length) (hsec : sec < headerCount bytes) :
    headerOffset bytes sec + 32 ≤ length := by
  have hle := headerOffset_mono bytes (Nat.succ_le_of_lt hsec)
  rw [headerOffset_succ] at hle
  have := himage.inside
  omega

theorem framesFrom_eq (hsec : sec < headerCount bytes) :
    framesFrom bytes sec = framesFrom bytes (sec + 1) + 2 * (header bytes sec).pages := by
  rw [framesFrom, Finset.sum_eq_sum_Ico_succ_bot hsec, Nat.add_comm, ← framesFrom]

/-- The pages of one segment more. -/
theorem loadedPage_succ {q : ℕ} : LoadedPage bytes (sec + 1) q ↔
    LoadedPage bytes sec q ∨ InRun (header bytes sec).page (header bytes sec).pages q := by
  constructor
  · rintro ⟨s, hs, hq⟩
    rcases Nat.lt_succ_iff_lt_or_eq.mp hs with h | rfl
    · exact Or.inl ⟨s, h, hq⟩
    · exact Or.inr hq
  · rintro (⟨s, hs, hq⟩ | hq)
    · exact ⟨s, Nat.lt_succ_of_lt hs, hq⟩
    · exact ⟨sec, Nat.lt_succ_self sec, hq⟩

/-- The pointer to the program header. -/
theorem AtHeader.run_programHeader (h : AtHeader L D elfData length bytes sec k.machine)
    (himage : Image bytes length) (hsec : sec < headerCount bytes) :
    (programHeader elfData sec).run (Primitive.exec L fuel alloc) k
      = some (headerOffset bytes sec, k) := by
  obtain ⟨B, hload, hB⟩ := h
  have hbehind := himage.behind
  have hle := headerOffset_le himage hsec
  have hlength := hload.le
  have hfirst := headerOffset_mono bytes (Nat.zero_le sec)
  have hphoff : littleEndian B 4 ePhoff = littleEndian bytes 4 ePhoff :=
    field_eq hB (by rw [ePhoff]; omega)
  have hphentsize : littleEndian B 2 ePhentsize = 32 := by
    rw [field_eq hB (by rw [ePhentsize]; omega), himage.phentsize]
  rw [Elf.run_programHeader, hload.readInt (by rw [ePhoff]; omega), Option.bind_some,
    hload.readInt (by rw [ePhentsize]; omega), Option.map_some, hphoff, hphentsize,
    ← headerOffset, Nat.mod_eq_of_lt (by omega)]

/-- The number of program headers is where it was. -/
theorem AtHeader.readInt_phnum (h : AtHeader L D elfData length bytes sec k.machine)
    (himage : Image bytes length) :
    readInt k.machine 2 ((elfData + ePhnum) % 2 ^ 32) = some (headerCount bytes) := by
  obtain ⟨B, hload, hB⟩ := h
  have hbehind := himage.behind
  have hinside := himage.inside
  have hmono := headerOffset_mono bytes (Nat.zero_le (headerCount bytes))
  rw [hload.readInt (by rw [ePhnum]; omega), field_eq hB (by rw [ePhnum]; omega), headerCount]

/-- The fields of program header `sec` once its address has been rounded down. -/
structure Aligned (bytes B : ℕ → ℕ) (sec : ℕ) : Prop where
  offset : littleEndian B 4 (headerOffset bytes sec + pOffset) = (header bytes sec).offset
  filesz : littleEndian B 2 (headerOffset bytes sec + pFilesz) = (header bytes sec).filesz % 2 ^ 16
  vaddr : littleEndian B 4 (headerOffset bytes sec + pVaddr)
    = (header bytes sec).vaddr - (header bytes sec).vaddr % pageSize

/-- After the round for one segment its header is aligned. -/
theorem aligned_of_rounded {B₁ : ℕ → ℕ} (himage : Image bytes length)
    (hB : ∀ i, ¬ Rounded bytes sec i → B i = bytes i)
    (hvaddr : littleEndian B₁ 4 (headerOffset bytes sec + pVaddr)
      = littleEndian B 4 (headerOffset bytes sec + pVaddr)
        - littleEndian B 4 (headerOffset bytes sec + pVaddr) % pageSize)
    (hother : ∀ i, i < headerOffset bytes sec + pVaddr ∨ headerOffset bytes sec + pVaddr + 4 ≤ i →
      B₁ i = B i) :
    Aligned bytes B₁ sec := by
  refine ⟨?_, ?_, ?_⟩
  · rw [show (header bytes sec).offset
      = littleEndian bytes 4 (headerOffset bytes sec + pOffset) from rfl, ← field_eq hB (by omega)]
    exact littleEndian_congr 4 fun i hi => hother _ (by rw [pVaddr, pOffset]; omega)
  · rw [← filesz_eq himage, ← field_eq hB (by omega)]
    exact littleEndian_congr 2 fun i _ => hother _ (by rw [pVaddr, pFilesz]; omega)
  · rw [hvaddr, field_eq hB (by omega)]
    rfl

theorem Aligned.page (h : Aligned bytes B sec) (himage : Image bytes length) :
    pageOf (littleEndian B 4 (headerOffset bytes sec + pVaddr)) = (header bytes sec).page := by
  have hlt : (header bytes sec).vaddr < 2 ^ 32 := littleEndian_lt himage.byte_lt 4 _
  rw [h.vaddr, pageOf, ProgramHeader.page]
  rw [pageSize]
  omega

theorem Aligned.pages (h : Aligned bytes B sec) :
    pagesFor (littleEndian B 2 (headerOffset bytes sec + pFilesz)) = (header bytes sec).pages := by
  rw [h.filesz, ProgramHeader.pages]

theorem Aligned.mod (h : Aligned bytes B sec) :
    littleEndian B 4 (headerOffset bytes sec + pVaddr) % pageSize = 0 := by
  rw [h.vaddr]
  rw [pageSize]
  omega

/-- One iteration. -/
theorem AtHeader.loadSegment (h : AtHeader L D elfData length bytes sec k.machine)
    (himage : Image bytes length) (hfuel : 2 ^ 20 < fuel)
    (hdir : pageOf (k.scheduler.tasks task).regs.cr3.toNat = L.kernelPageDirectory)
    (hsec : sec < headerCount bytes) (hplaced : Placed elfData length (header bytes sec))
    (hrun : (Elf.loadSegment elfData task sec).run (Primitive.exec L fuel alloc) k = some ((), k')) :
    k'.scheduler = k.scheduler ∧ AtHeader L D elfData length bytes (sec + 1) k'.machine ∧
      ((header bytes sec).page + (header bytes sec).pages ≤ kernelPages →
        SameDirectory L k.machine k'.machine) := by
  have hph := @AtHeader.run_programHeader L D fuel elfData length sec bytes alloc k h himage hsec
  have hle := headerOffset_le himage hsec
  obtain ⟨B, hload, hB⟩ := h
  rw [Elf.loadSegment, run_bind_eq_some] at hrun
  obtain ⟨_, _, hheader, hrun⟩ := hrun
  obtain ⟨rfl, rfl⟩ := Prod.mk.inj (Option.some.inj (hph.symm.trans hheader))
  obtain ⟨⟨⟩, k₁, halign, hrun⟩ := run_bind_eq_some.mp hrun
  obtain ⟨⟨⟩, k₂, hmap, hcopy⟩ := run_bind_eq_some.mp hrun
  obtain ⟨hs₁, hsame₁, B₁, hload₁, hvaddr, hother⟩ := loading_alignSegment hload
    (by rw [pVaddr]; omega) halign
  have hfields := aligned_of_rounded himage hB hvaddr hother
  obtain ⟨hs₂, hload₂, hto, hsame₂⟩ := @loading_mapSegment L D fuel elfData length
    (framesFrom bytes (sec + 1)) (headerOffset bytes sec) alloc B₁ (LoadedPage bytes sec) k₁ k₂ task
    (by rw [hfields.pages, ← framesFrom_eq hsec]; exact hload₁) (by rw [pFilesz]; omega) hfuel
    (by rw [hs₁]; exact hdir) (by rw [hfields.page himage, hfields.pages]; exact hplaced.side)
    (by rw [hfields.page himage, hfields.pages]; exact hplaced.apart) hmap
  obtain ⟨hs₃, hload₃, hsame₃⟩ := loading_copySegment hload₂ (by rw [pFilesz]; omega) hfields.mod
    hto hcopy
  rw [hfields.page himage, hfields.pages] at hload₃ hsame₂
  refine ⟨hs₃.trans (hs₂.trans hs₁), ⟨B₁, ?_, ?_⟩, fun hlow =>
    hsame₁.trans ((hsame₂ hlow).trans hsame₃)⟩
  · rw [funext fun q => propext (@loadedPage_succ sec bytes q)]
    exact hload₃
  · intro i hi
    have hout : i < headerOffset bytes sec + pVaddr ∨ headerOffset bytes sec + pVaddr + 4 ≤ i := by
      by_contra hin
      exact hi ⟨sec, Nat.lt_succ_self sec, by omega, by omega⟩
    rw [hother i hout]
    refine hB i ?_
    rintro ⟨s, hs, hrange⟩
    exact hi ⟨s, Nat.lt_succ_of_lt hs, hrange⟩

/-- An iteration returns if what it copies is in the file. -/
theorem AtHeader.loadSegment_ends (h : AtHeader L D elfData length bytes sec k.machine)
    (himage : Image bytes length) (hfuel : 2 ^ 20 < fuel)
    (hdir : pageOf (k.scheduler.tasks task).regs.cr3.toNat = L.kernelPageDirectory)
    (hsec : sec < headerCount bytes) (hplaced : Placed elfData length (header bytes sec))
    (hinside : (header bytes sec).offset + (header bytes sec).filesz % 2 ^ 16 ≤ length) :
    ∃ k', (Elf.loadSegment elfData task sec).run (Primitive.exec L fuel alloc) k = some ((), k') := by
  have hph := @AtHeader.run_programHeader L D fuel elfData length sec bytes alloc k h himage hsec
  have hle := headerOffset_le himage hsec
  obtain ⟨B, hload, hB⟩ := h
  obtain ⟨k₁, halign⟩ := @alignSegment_ends L D fuel elfData length _ (headerOffset bytes sec) alloc
    B _ k hload (by rw [pVaddr]; omega)
  obtain ⟨hs₁, -, B₁, hload₁, hvaddr, hother⟩ := loading_alignSegment hload
    (by rw [pVaddr]; omega) halign
  have hfields := aligned_of_rounded himage hB hvaddr hother
  obtain ⟨k₂, hmap⟩ := @mapSegment_ends L D fuel elfData length _ (headerOffset bytes sec) alloc
    B₁ _ k₁ task hload₁ (by rw [pFilesz]; omega) hfuel (by rw [hs₁]; exact hdir)
  obtain ⟨-, hload₂, hto, -⟩ := @loading_mapSegment L D fuel elfData length
    (framesFrom bytes (sec + 1)) (headerOffset bytes sec) alloc B₁ (LoadedPage bytes sec) k₁ k₂ task
    (by rw [hfields.pages, ← framesFrom_eq hsec]; exact hload₁) (by rw [pFilesz]; omega) hfuel
    (by rw [hs₁]; exact hdir) (by rw [hfields.page himage, hfields.pages]; exact hplaced.side)
    (by rw [hfields.page himage, hfields.pages]; exact hplaced.apart) hmap
  obtain ⟨k₃, hcopy⟩ := @copySegment_ends L D fuel elfData length _ (headerOffset bytes sec) alloc
    B₁ _ k₂ hload₂ (by rw [pFilesz]; omega) hfields.mod
    (by rw [hfields.offset, hfields.filesz]; exact hinside) (fun q hq => Or.inr hq)
    fun q hq => (hto q hq).1
  refine ⟨k₃, ?_⟩
  rw [Elf.loadSegment, run_bind_eq_some]
  refine ⟨_, k, hph, ?_⟩
  rw [run_bind_eq_some]
  refine ⟨(), k₁, halign, ?_⟩
  rw [run_bind_eq_some]
  exact ⟨(), k₂, hmap, hcopy⟩

/-- The rest of the loop. -/
theorem AtHeader.loadSegments (himage : Image bytes length) (hfuel : 2 ^ 20 < fuel)
    (hplaced : ∀ sec < headerCount bytes, Placed elfData length (header bytes sec)) (rounds : ℕ) :
    ∀ {sec : ℕ} {k : Kernel}, AtHeader L D elfData length bytes sec k.machine →
      sec ≤ headerCount bytes →
      pageOf (k.scheduler.tasks task).regs.cr3.toNat = L.kernelPageDirectory →
      (Elf.loadSegments elfData task rounds sec).run (Primitive.exec L fuel alloc) k = some ((), k') →
      k'.scheduler = k.scheduler ∧
        AtHeader L D elfData length bytes (headerCount bytes) k'.machine ∧
        ((∀ s < headerCount bytes, (header bytes s).page + (header bytes s).pages ≤ kernelPages) →
          SameDirectory L k.machine k'.machine) := by
  induction rounds with
  | zero => intro sec k _ _ _ hrun; cases hrun
  | succ rounds ih =>
    intro sec k h hle hdir hrun
    have hcount := h.readInt_phnum himage
    rw [Elf.loadSegments, run_read, hcount, Option.bind_some] at hrun
    by_cases hsec : sec < headerCount bytes
    · rw [if_pos hsec, run_bind_eq_some] at hrun
      obtain ⟨⟨⟩, k₁, hsegment, hrest⟩ := hrun
      obtain ⟨hs₁, h₁, hsame₁⟩ := h.loadSegment himage hfuel hdir hsec (hplaced sec hsec) hsegment
      obtain ⟨hs', h', hsame'⟩ := ih h₁ hsec (by rw [hs₁]; exact hdir) hrest
      exact ⟨hs'.trans hs₁, h', fun hlow => (hsame₁ (hlow sec hsec)).trans (hsame' hlow)⟩
    · rw [if_neg hsec] at hrun
      obtain rfl : sec = headerCount bytes := by omega
      obtain ⟨-, rfl⟩ := Prod.mk.inj (Option.some.inj hrun)
      exact ⟨rfl, h, fun _ _ => rfl⟩

/-- The loop ends. -/
theorem AtHeader.loadSegments_ends (himage : Image bytes length) (hfuel : 2 ^ 20 < fuel)
    (hplaced : ∀ sec < headerCount bytes, Placed elfData length (header bytes sec))
    (hinside : ∀ sec < headerCount bytes,
      (header bytes sec).offset + (header bytes sec).filesz % 2 ^ 16 ≤ length) (rounds : ℕ) :
    ∀ {sec : ℕ} {k : Kernel}, AtHeader L D elfData length bytes sec k.machine →
      sec ≤ headerCount bytes → headerCount bytes < sec + rounds →
      pageOf (k.scheduler.tasks task).regs.cr3.toNat = L.kernelPageDirectory →
      ∃ k', (Elf.loadSegments elfData task rounds sec).run (Primitive.exec L fuel alloc) k
        = some ((), k') := by
  induction rounds with
  | zero => intro sec k _ hle hlt _; omega
  | succ rounds ih =>
    intro sec k h hle hlt hdir
    rw [Elf.loadSegments, run_read, h.readInt_phnum himage, Option.bind_some]
    by_cases hsec : sec < headerCount bytes
    · obtain ⟨k₁, hsegment⟩ := @AtHeader.loadSegment_ends L D fuel elfData length sec bytes alloc k
        task h himage hfuel hdir hsec (hplaced sec hsec) (hinside sec hsec)
      obtain ⟨hs₁, h₁, -⟩ := h.loadSegment himage hfuel hdir hsec (hplaced sec hsec) hsegment
      obtain ⟨k', hrest⟩ := ih h₁ hsec (by omega) (by rw [hs₁]; exact hdir)
      refine ⟨k', ?_⟩
      rw [if_pos hsec, run_bind_eq_some]
      exact ⟨(), k₁, hsegment, hrest⟩
    · rw [if_neg hsec]
      exact ⟨k, rfl⟩

/-! ## The task -/

/-- A call that keeps data keeps the file. -/
theorem FileAt.keepsData {m m' : Machine} (h : FileAt L D elfData length B m)
    (hkeep : KeepsData L D m.cr3 m m') : FileAt L D elfData length B m' := by
  refine ⟨h.le, fun i hi => ?_, fun i hi => hkeep.settled _ (h.settled i hi), fun i hi => ?_⟩
  · obtain ⟨hpres, hframe⟩ := h.page hi
    have hset := h.settled i hi
    rw [← hframe] at hset
    obtain ⟨h1, h2⟩ := hkeep.page _ (pageOf_lt _) hpres hset
    rw [translate_eq_some, hkeep.cr3, h2]
    exact ⟨h1, hframe⟩
  · rw [Machine.byte, hkeep.ram _ (h.settled i hi)]
    exact h.byte i hi

/-- The page of a stack is new, so no data is lost. -/
theorem keepsData_pageGiven {m m' : Machine} {p f : ℕ} (h : DirectoriesInv L ⟨m, D⟩)
    (hgiven : PageGiven m m' p f) (hp : FirstAbsent m m.cr3 p) (hf : m.used f = false) :
    KeepsData L D m.cr3 m m' ∧ DirectoriesInv L ⟨m', D⟩ ∧
      ∀ pd ∈ D, ∀ i, m'.ram pd i = m.ram pd i := by
  have hslot : p / 1024 < 256 := by
    have := hp.2.1
    rw [kernelPages] at this
    omega
  have htable := (h.kernel _ h.cr3 _ hslot).2
  -- the page's frame was free, and its table is the kernel's
  have hother : ∀ g, m.used g = true → g ≠ L.kernelPageTable + p / 1024 →
      ∀ i, m'.ram g i = m.ram g i :=
    fun g hg hne i => hgiven.ram g i (ne_of_used hg hf) (by rw [htable]; exact hne)
  have hdir : ∀ pd ∈ D, ∀ i, m'.ram pd i = m.ram pd i := fun pd hpd =>
    hother pd (h.used pd (Or.inl hpd)) (h.not_kernelTable pd hpd _ hslot).symm
  refine ⟨⟨?_, ?_, ?_, hgiven.cr3⟩, h.of_ram hdir ?_ (hgiven.cr3 ▸ h.cr3), hdir⟩
  · intro q hq hpres _
    by_cases hlow : q < kernelPages
    · have hne : q ≠ p := by
        rintro rfl
        rw [hp.2.2.1] at hpres
        exact Bool.false_ne_true hpres
      obtain ⟨h1, h2⟩ := hgiven.page q hlow hne
      exact ⟨h1.trans hpres, h2⟩
    · rw [kernelPages] at hlow
      obtain ⟨h1, h2⟩ := page_congr_slot (hdir _ h.cr3 _) fun hs => by
        rcases h.table_cases h.cr3 (show q / 1024 < 1024 by omega) hs with ⟨hlt, -⟩ | ht
        · omega
        · exact hother _ (h.used _ (Or.inr (Or.inr ⟨_, h.cr3, _, ht⟩)))
            (fun heq => h.not_own _ h.cr3 _ _ ht (heq ▸ L.own_table hslot)) _
      exact ⟨h1.trans hpres, h2 hpres⟩
  · intro g hg
    exact hother g hg.used fun heq => hg.data (heq ▸ Or.inr (Or.inl (L.own_table hslot)))
  · intro g hg
    exact ⟨(hgiven.used g).mpr (Or.inl hg.used), fun hs => hg.data (hs.congr hdir)⟩
  · exact fun g hg => (hgiven.used g).mpr (Or.inl (h.used g hg))

/-- The stack of a task takes one frame. -/
theorem keepsData_taskStack {m : Machine} (arg : Word) (h : DirectoriesInv L ⟨m, D⟩)
    (hfuel : 2 ^ 20 < fuel) (hroom : Room m 1) :
    ∃ esp m', Scheduler.taskStack fuel m arg = some (esp, m') ∧ KeepsData L D m.cr3 m m' ∧
      DirectoriesInv L ⟨m', D⟩ ∧ (∀ pd ∈ D, ∀ i, m'.ram pd i = m.ram pd i) ∧
      freeFrames m'.memManData = (freeFrames m.memManData).drop 1 := by
  obtain ⟨f, fs, p, hfree, hf, hp⟩ := hroom.first
  obtain ⟨m', hstack, hgiven, -⟩ := taskStack_page arg hfuel h.roles h.cr3
    (fun g hg => h.used g (Or.inr (Or.inl hg))) hfree hf hp
  obtain ⟨hkeep, hinv, hdir⟩ := keepsData_pageGiven h hgiven hp
    (mem_freeFrames.mp (hfree ▸ List.mem_cons_self)).2
  exact ⟨_, m', hstack, hkeep, hinv, hdir, by rw [hgiven.free]; rfl⟩

end

/-! ## `load` -/

/-- All of the segment is in the file, and the pages that are mapped reach to its end. -/
structure Covered (bytes : ℕ → ℕ) (h : ProgramHeader) : Prop where
  memsz_le : h.memsz ≤ h.filesz
  reach : ∀ a, h.vaddr ≤ a → a < h.vaddr + h.memsz →
    LoadedPage bytes (headerCount bytes) (pageOf a)

/-- `kmalloc` makes memory calls and writes data, in the same directory, and leaves the file
alone. -/
def KmallocSpares (L : Layout) (fuel : ℕ) (alloc : ℕ → Machine → Option (ℕ × Machine))
    (s : MemoryState) (elfData length : ℕ) (bytes : ℕ → ℕ) : Prop :=
  ∀ p m₁, alloc taskSize s.machine = some (p, m₁) →
    Relation.ReflTransGen (DataStep L fuel) s ⟨m₁, s.directories⟩ ∧
    m₁.cr3 = s.machine.cr3 ∧ FileAt L s.directories elfData length bytes m₁

/-- Once `kmalloc` has answered, there is a page for the stack, and twice as many frames in a block
as the program headers have pages. -/
def EnoughMemory (alloc : ℕ → Machine → Option (ℕ × Machine)) (m : Machine) (bytes : ℕ → ℕ) :
    Prop :=
  ∀ p m₁, alloc taskSize m = some (p, m₁) →
    Room m₁ 1 ∧ ∃ a, FreeBlock m₁ a (framesFrom bytes 0 + 1)

/-- The state `load` is called in: the kernel's directory is active, the file is in memory, and no
program header has pages where they would be in the way. -/
structure Ready (L : Layout) (fuel : ℕ) (alloc : ℕ → Machine → Option (ℕ × Machine))
    (s : MemoryState) (elfData length : ℕ) (bytes : ℕ → ℕ) : Prop where
  cr3 : s.machine.cr3 = L.kernelPageDirectory
  file : FileAt L s.directories elfData length bytes s.machine
  image : Image bytes length
  placed : ∀ sec < headerCount bytes, Placed elfData length (header bytes sec)
  kmalloc : KmallocSpares L fuel alloc s elfData length bytes
  memory : EnoughMemory alloc s.machine bytes

section

variable {L : Layout} {D : List ℕ} {fuel elfData length : ℕ} {bytes : ℕ → ℕ}
  {alloc : ℕ → Machine → Option (ℕ × Machine)} {k k' : Kernel} {task : TaskRef}

/-- Where a task is made `kmalloc` has answered. -/
theorem createTask_kmalloc
    (h : (createTask L false 0).run (Primitive.exec L fuel alloc) k = some (task, k')) :
    ∃ answer, alloc taskSize k.machine = some answer := by
  rw [run_createTask, Primitive.exec, Option.bind_map, Option.bind_eq_some_iff] at h
  obtain ⟨answer, halloc, -⟩ := h
  exact ⟨answer, halloc⟩

/-- The task that is made, and the file after it. -/
theorem createTask_returns (hfuel : 2 ^ 20 < fuel) (hinv : DirectoriesInv L ⟨k.machine, D⟩)
    (hready : Ready L fuel alloc ⟨k.machine, D⟩ elfData length bytes) {p : ℕ} {m₁ : Machine}
    (halloc : alloc taskSize k.machine = some (p, m₁)) :
    ∃ task k', (createTask L false 0).run (Primitive.exec L fuel alloc) k = some (task, k') ∧
      k'.scheduler.taskTail = k.scheduler.taskTail ∧
      AtHeader L D elfData length bytes 0 k'.machine ∧ KeepsData L D m₁.cr3 m₁ k'.machine ∧
      SameDirectory L m₁ k'.machine ∧
      pageOf (k'.scheduler.tasks task).regs.cr3.toNat = L.kernelPageDirectory := by
  obtain ⟨hsteps, hcr3, hfile⟩ := hready.kmalloc p m₁ halloc
  obtain ⟨hroom, a, hblock⟩ := hready.memory p m₁ halloc
  have hinv₁ : DirectoriesInv L ⟨m₁, D⟩ :=
    Run.invariant hsteps hinv fun _ _ => directoriesInv_dataStep hfuel
  have hkernel : m₁.cr3 = L.kernelPageDirectory := hcr3.trans hready.cr3
  obtain ⟨esp, m₂, hstack, hkeep, hinv₂, hdir, hfree⟩ := keepsData_taskStack 0 hinv₁ hfuel hroom
  obtain ⟨record, hcreate, hrecord⟩ : ∃ record, Scheduler.createTask L fuel
      (k.scheduler.tasks .mainTask) (k.scheduler.tasks (.heap p)) m₁ false 0 = some (record, m₂) ∧
      record.regs.cr3 = BitVec.ofNat 32 (L.kernelPageDirectory * pageSize) := by
    simp only [Scheduler.createTask, Bool.false_eq_true, if_false, Option.bind_some, hstack,
      Option.map_some]
    exact ⟨_, rfl, rfl⟩
  refine ⟨.heap p, ⟨m₂, k.scheduler.modify (.heap p) fun _ => record,
    if p = 0 then k.blocks else p :: k.blocks⟩, ?_, rfl,
    ⟨bytes, ⟨hfile.keepsData hkeep, hinv₂, hkeep.cr3.trans hkernel,
      ⟨a + 1, hblock.drop (by omega) hfree⟩, ?_⟩, fun i _ => rfl⟩, hkeep, ?_, ?_⟩
  · simp only [run_createTask, Primitive.exec, halloc, Option.map_some, Option.bind_some, hcreate]
  · rintro q - ⟨s, hs, -⟩
    exact absurd hs (Nat.not_lt_zero s)
  · exact hdir _ (hkernel ▸ hinv₁.cr3)
  · have hlt := L.own_lt (f := L.kernelPageDirectory) (Or.inl rfl)
    rw [tasks_modify_self, hrecord, BitVec.toNat_ofNat, Nat.mod_eq_of_lt (kernelPageDirectory_lt L),
      pageOf_mul_of_lt hlt]

/-- `taskStart` makes the task the tail. -/
theorem taskStart_tail {s s' : Scheduler} {entry : Word} (h : s.taskStart task entry = .ok s') :
    s'.taskTail = some task ∧ (s'.tasks task).regs.cr3 = (s.tasks task).regs.cr3 := by
  rw [Scheduler.taskStart, Scheduler.modify_taskTail] at h
  cases htail : s.taskTail with
  | none =>
    rw [htail] at h
    cases h
  | some tail =>
    rw [htail] at h
    cases h
    refine ⟨rfl, ?_⟩
    simp only [Scheduler.modify_tasks, if_true]
    split <;> rfl

/-- What `load` does with a file it accepts. -/
theorem load_true (hrun : (load L elfData length).run (Primitive.exec L fuel alloc) k = some (true, k')) :
    ∃ task k₁ k₂ entry, (createTask L false 0).run (Primitive.exec L fuel alloc) k = some (task, k₁) ∧
      (loadSegments elfData task (2 ^ 16) 0).run (Primitive.exec L fuel alloc) k₁ = some ((), k₂) ∧
      k'.machine = k₂.machine ∧ k₂.scheduler.taskStart task entry = .ok k'.scheduler := by
  rw [load, run_bind_eq_some] at hrun
  obtain ⟨b, k₀, hverify, hrun⟩ := hrun
  obtain ⟨rfl, -⟩ := run_verifyElfHeader hverify
  cases b with
  | false => cases hrun
  | true =>
    obtain ⟨task, k₁, hcreate, hrun⟩ := run_bind_eq_some.mp hrun
    obtain ⟨⟨⟩, k₂, hloop, hrun⟩ := run_bind_eq_some.mp hrun
    rw [run_read, Option.bind_eq_some_iff] at hrun
    obtain ⟨entry, -, hrun⟩ := hrun
    obtain ⟨⟨⟩, k₃, hstart, hrun⟩ := run_bind_eq_some.mp hrun
    obtain ⟨-, rfl⟩ := Prod.mk.inj (Option.some.inj hrun)
    rw [step, run_perform, Primitive.exec] at hstart
    obtain ⟨s, hs, heq⟩ := Scheduler.of_toOption_map hstart
    obtain rfl := (Prod.mk.inj heq).2
    exact ⟨task, k₁, k₂, BitVec.ofNat 32 entry, hcreate, hloop, rfl, hs⟩

/-- After `load`: the pages of all program headers are there, in the directory of the task that was
started. -/
theorem atHeader_load (hfuel : 2 ^ 20 < fuel) (hinv : DirectoriesInv L ⟨k.machine, D⟩)
    (hready : Ready L fuel alloc ⟨k.machine, D⟩ elfData length bytes)
    (hrun : (load L elfData length).run (Primitive.exec L fuel alloc) k = some (true, k')) :
    AtHeader L D elfData length bytes (headerCount bytes) k'.machine ∧
      (∃ t, k'.scheduler.taskTail = some t ∧
        pageOf (k'.scheduler.tasks t).regs.cr3.toNat = L.kernelPageDirectory) ∧
      ((∀ s < headerCount bytes, (header bytes s).page + (header bytes s).pages ≤ kernelPages) →
        ∀ p m₁, alloc taskSize k.machine = some (p, m₁) → SameDirectory L m₁ k'.machine) := by
  obtain ⟨task, k₁, k₂, entry, hcreate, hloop, hmachine, hstart⟩ := load_true hrun
  obtain ⟨⟨p, m₁⟩, halloc⟩ := createTask_kmalloc hcreate
  obtain ⟨task', k₁', hcreate', -, hfirst, -, hsame₁, hdir⟩ :=
    createTask_returns hfuel hinv hready halloc
  obtain ⟨rfl, rfl⟩ := Prod.mk.inj (Option.some.inj (hcreate.symm.trans hcreate'))
  obtain ⟨hs, hlast, hsame₂⟩ := AtHeader.loadSegments hready.image hfuel hready.placed _ hfirst
    (Nat.zero_le _) hdir hloop
  obtain ⟨htail, hregs⟩ := taskStart_tail hstart
  rw [hmachine]
  refine ⟨hlast, ⟨task, htail, by rw [hregs, hs, hdir]⟩, ?_⟩
  · intro hlow p' m₁' halloc'
    obtain ⟨-, rfl⟩ := Prod.mk.inj (Option.some.inj (halloc.symm.trans halloc'))
    exact hsame₁.trans (hsame₂ hlow)

/-- The fields `verifyElfHeader` looks at are in the file. -/
theorem run_verifyElfHeader_true (himage : Image bytes length)
    (hfile : FileAt L D elfData length bytes k.machine) (hdata : elfData ≠ 0)
    (haccepts : ∀ c ∈ checks, littleEndian bytes c.bytes c.offset ∈ c.accepts) :
    (verifyElfHeader elfData).run (Primitive.exec L fuel alloc) k = some (true, k) := by
  have hlength : 52 ≤ length := Nat.le_trans himage.behind
    (Nat.le_trans (headerOffset_mono bytes (Nat.zero_le _)) himage.inside)
  have hinside : ∀ c ∈ checks, c.offset + c.bytes ≤ length := by
    intro c hc
    have hle : ∀ c ∈ checks, c.offset + c.bytes ≤ 52 := by decide
    exact Nat.le_trans (hle c hc) hlength
  have hverify : ∀ cs, (∀ c ∈ cs, c ∈ checks) →
      (verify elfData cs).run (Primitive.exec L fuel alloc) k = some (true, k) := by
    intro cs
    induction cs with
    | nil => intro _; rfl
    | cons c cs ih =>
      intro hsub
      obtain ⟨hc, hcs⟩ := List.forall_mem_cons.mp hsub
      rw [verify, run_read, hfile.readInt (hinside c hc), Option.bind_some, if_pos (haccepts c hc)]
      exact ih hcs
  rw [verifyElfHeader, if_neg hdata]
  exact hverify checks fun _ hc => hc

/-- `load` returns if what it copies is in the file. -/
theorem load_ends (hfuel : 2 ^ 20 < fuel) (hinv : DirectoriesInv L ⟨k.machine, D⟩)
    (hready : Ready L fuel alloc ⟨k.machine, D⟩ elfData length bytes) (hdata : elfData ≠ 0)
    (haccepts : ∀ c ∈ checks, littleEndian bytes c.bytes c.offset ∈ c.accepts)
    (hinside : ∀ sec < headerCount bytes,
      (header bytes sec).offset + (header bytes sec).filesz % 2 ^ 16 ≤ length)
    (htail : k.scheduler.taskTail ≠ none) {p : ℕ} {m₁ : Machine}
    (halloc : alloc taskSize k.machine = some (p, m₁)) :
    ∃ k', (load L elfData length).run (Primitive.exec L fuel alloc) k = some (true, k') := by
  obtain ⟨task, k₁, hcreate, htail₁, hfirst, -, -, hdir⟩ :=
    createTask_returns hfuel hinv hready halloc
  have hcount : headerCount bytes < 0 + 2 ^ 16 := by
    have := littleEndian_lt hready.image.byte_lt 2 ePhnum
    rw [← headerCount] at this
    omega
  obtain ⟨k₂, hloop⟩ := @AtHeader.loadSegments_ends L D fuel elfData length bytes alloc task
    hready.image hfuel hready.placed hinside (2 ^ 16) 0 k₁ hfirst (Nat.zero_le _) hcount hdir
  obtain ⟨hs, ⟨B, hload, hB⟩, -⟩ := AtHeader.loadSegments hready.image hfuel hready.placed _ hfirst
    (Nat.zero_le _) hdir hloop
  have hbehind := hready.image.behind
  have hmono := headerOffset_mono bytes (Nat.zero_le (headerCount bytes))
  have hinside := hready.image.inside
  have hentry := hload.readInt (n := 4) (o := eEntry) (by rw [eEntry]; omega)
  obtain ⟨tail, htail₂⟩ := Option.ne_none_iff_exists'.mp htail
  obtain ⟨s', hstart, -⟩ := @Scheduler.taskStart_started k₂.scheduler tail task
    (BitVec.ofNat 32 (littleEndian B 4 eEntry)) (by rw [hs, htail₁, htail₂])
  refine ⟨{ k₂ with scheduler := s' }, ?_⟩
  rw [load, run_bind_eq_some]
  refine ⟨true, k, run_verifyElfHeader_true hready.image hready.file hdata haccepts, ?_⟩
  rw [if_pos rfl, run_bind_eq_some]
  refine ⟨task, k₁, hcreate, ?_⟩
  rw [run_bind_eq_some]
  refine ⟨(), k₂, hloop, ?_⟩
  rw [run_read, hentry, Option.bind_some, run_bind_eq_some]
  refine ⟨(), { k₂ with scheduler := s' }, ?_, rfl⟩
  rw [step, run_perform, Primitive.exec, hstart]
  rfl

end

section

variable {file : List ℕ} {m₀ m₁ : Machine} {p length : ℕ}

/-- Below the kernel's directory there is data. -/
theorem FileMapped.settled (h : FileMapped file m₀) {g : ℕ} (hg : g < 0x100) :
    Settled minimalLayout ⟨m₀, [minimalLayout.kernelPageDirectory]⟩ g := by
  refine ⟨h.boot.used _ (initRun_minimal.mpr (by omega)), ?_⟩
  rintro (hdir | hown | ⟨pd, hpd, i, hge, -, hpres, -⟩)
  · rw [List.mem_singleton.mp hdir] at hg
    exact absurd hg (by decide)
  · exact not_own_low hg hown
  · rw [List.mem_singleton.mp hpd, h.boot.high i hge] at hpres
    exact Bool.false_ne_true hpres

/-- The file as `init` leaves it. -/
theorem FileMapped.fileAt (h : FileMapped file m₀) (hle : length ≤ 4096) :
    FileAt minimalLayout [minimalLayout.kernelPageDirectory] 0x50000 length (fileBytes file) m₀ := by
  refine ⟨by omega, fun i hi => ?_, fun i hi => ?_, fun i hi => ?_⟩ <;>
    obtain ⟨hpage, hoffset, htrans, hbyte⟩ := h.byte (show i < 4096 by omega)
  · rw [hpage, htrans]
  · rw [hpage]
    exact h.settled (by omega)
  · rw [hpage, hoffset, hbyte]

/-- After 16 pages for the heap, there is still a page. -/
theorem room_heap (h : KernelInv minimalLayout (InitRun minimalLayout []) m₀)
    (habsent : ∀ q, 0x203 ≤ q → q < kernelPages →
      pagePresent m₀ minimalLayout.kernelPageDirectory q = false)
    (h₁ : KernelInv minimalLayout (InitRun minimalLayout []) m₁)
    (hpages : (∀ q < kernelPages, pageEntry m₁ minimalLayout.kernelPageDirectory q
        = pageEntry m₀ minimalLayout.kernelPageDirectory q) ∨
      ∃ k, AllocatedPages minimalLayout m₀ m₁ k 16)
    (hfree : (freeFrames m₁.memManData) ≠ []) : Room m₁ 1 := by
  obtain ⟨q, hge, hlt, hsame⟩ : ∃ q, 0x203 ≤ q ∧ q < kernelPages ∧
      pageEntry m₁ minimalLayout.kernelPageDirectory q
        = pageEntry m₀ minimalLayout.kernelPageDirectory q := by
    rcases hpages with hsame | ⟨k, halloc⟩
    · exact ⟨0x300, by decide, by decide, hsame _ (by decide)⟩
    · by_cases hin : k ≤ 0x300 ∧ 0x300 < k + 16
      · exact ⟨0x400, by decide, by decide, halloc.other _ (by decide) (by omega)⟩
      · exact ⟨0x300, by decide, by decide, halloc.other _ (by decide) hin⟩
  refine ⟨?_, List.length_pos_iff.mpr hfree, ?_⟩
  · intro hmem
    have hzero : m₁.used 0 = true := h₁.used_of_init (initRun_minimal.mpr (by omega))
    exact Bool.false_ne_true ((mem_freeFrames.mp hmem).2.symm.trans hzero)
  · refine List.length_pos_of_mem (a := q) ?_
    rw [absentPages, List.mem_filter, List.mem_range, Bool.and_eq_true, decide_eq_true_eq,
      Bool.not_eq_true', h₁.cr3, pagePresent_kernel h₁.directory hlt, hsame,
      ← pagePresent_kernel h.directory hlt]
    exact ⟨hlt, by omega, habsent q hge hlt⟩

/-- `load` can be called on a file of up to a page. -/
theorem FileMapped.ready (h : FileMapped file m₀) (hle : length ≤ 4096)
    (himage : Image (fileBytes file) length)
    (hplaced : ∀ sec < headerCount (fileBytes file),
      Placed 0x50000 length (header (fileBytes file) sec))
    (hframes : framesFrom (fileBytes file) 0 < 0x7000) :
    DirectoriesInv minimalLayout ⟨m₀, [minimalLayout.kernelPageDirectory]⟩ ∧
      Ready minimalLayout (2 ^ 20 + 1) (kmallocEmpty minimalLayout (2 ^ 20 + 1))
        ⟨m₀, [minimalLayout.kernelPageDirectory]⟩ 0x50000 length (fileBytes file) ∧
      ∃ p m₁, kmallocEmpty minimalLayout (2 ^ 20 + 1) taskSize m₀ = some (p, m₁) ∧
        KernelInv minimalLayout (InitRun minimalLayout []) m₁ := by
  have hfile := h.fileAt hle
  obtain ⟨hexact, hcr3, -, htotal, hused⟩ := h
  have hfuel : 2 ^ 20 < 2 ^ 20 + 1 := by omega
  have hmem : minimalLayout.kernelPageDirectory ∈ [minimalLayout.kernelPageDirectory] :=
    List.mem_singleton.mpr rfl
  have hinv := directoriesInv_init hexact hcr3
  have hkernel : KernelInv minimalLayout (InitRun minimalLayout []) m₀ :=
    kernelInv_init hexact hcr3 fun _ => initRun_lt (List.forall_mem_nil _)
  -- behind what `init` mapped the pages are absent, and the frames free
  have habsent : ∀ q, 0x203 ≤ q → q < kernelPages →
      pagePresent m₀ minimalLayout.kernelPageDirectory q = false := by
    intro q hge hlt
    rw [← Bool.not_eq_true]
    intro hpres
    have := initRun_minimal.mp (hexact.present q hlt hpres)
    omega
  have hblock : FreeBlock m₀ 0x203 (0x7DED + pagesFor (16 * pageSize)) := by
    rw [show pagesFor (16 * pageSize) = 16 by decide]
    refine ⟨by decide, fun q h1 h2 => mem_freeFrames.mpr ⟨by omega, ?_⟩⟩
    rw [← Bool.not_eq_true, hused q (Nat.lt_trans (show q < 0x8000 by omega) (by decide))]
    omega
  obtain ⟨tag, m₁, halloc, hkernel₁, hpages⟩ := memoryAllocate_kernel hkernel
    (initRun_minimal.mpr (by decide)) hfuel (16 * pageSize)
  have hanswer : kmallocEmpty minimalLayout (2 ^ 20 + 1) taskSize m₀
      = some (if tag = 0 then 0 else tag + 32, m₁) := by
    rw [kmallocEmpty, halloc]
    rfl
  refine ⟨hinv, ⟨hcr3, hfile, himage, hplaced, ?_, ?_⟩, _, m₁, hanswer, hkernel₁⟩
  · -- the request for the task keeps the file
    intro p m₂ hp
    obtain ⟨-, rfl⟩ := Prod.mk.inj (Option.some.inj (hanswer.symm.trans hp))
    have hkeep : KeepsData minimalLayout [minimalLayout.kernelPageDirectory] m₀.cr3 m₀ m₁ := by
      rw [hcr3]
      exact keepsData_allocate hinv hmem hfuel halloc
    refine ⟨.single (.call ⟨.allocate minimalLayout.kernelPageDirectory (16 * pageSize) false,
      hmem, (safeAllocate_kernel hinv hmem hfuel _).lasting, ?_⟩), hkeep.cr3, hfile.keepsData hkeep⟩
    simp only [MemoryCall.run, halloc, Option.map_some]
  · -- and leaves frames and pages for the segments
    intro p m₂ hp
    obtain ⟨-, rfl⟩ := Prod.mk.inj (Option.some.inj (hanswer.symm.trans hp))
    obtain ⟨a, hblock₁⟩ := hblock.memoryAllocate hinv hmem hfuel halloc
    refine ⟨room_heap hkernel habsent hkernel₁ ?_ ?_, a, hblock₁.mono (by omega)⟩
    · rcases hpages with ⟨-, hsame⟩ | ⟨k, -, hallocated⟩
      · exact Or.inl hsame
      · exact Or.inr ⟨k, hallocated⟩
    · have := hblock₁.length_le
      rintro hnil
      rw [hnil, List.length_nil] at this
      omega

end

/-- An image with one segment, at 1 GiB, whose memory is a page. -/
def imageFile (filesz : ℕ) : List ℕ := [
  0x464C457F, 0x00010101, 0, 0, 0x00030002, 1, 0x40000000, 52, 0, 0, 0x00200034, 1, 0,
  ptLoad, 0, 0x40000000, 0x40000000, filesz, 0x1000, 6, 0x1000]

/-- The file has the one program header `h`, right behind the ELF header, and is accepted. -/
structure OneSegment (file : List ℕ) (h : ProgramHeader) : Prop where
  count : headerCount (fileBytes file) = 1
  offset : headerOffset (fileBytes file) 0 = 52
  phentsize : littleEndian (fileBytes file) 2 ePhentsize = 32
  header_eq : header (fileBytes file) 0 = h
  accepts : ∀ c ∈ checks, littleEndian (fileBytes file) c.bytes c.offset ∈ c.accepts

/-- The fields of the image, if its segment is empty or a page. -/
theorem fields_imageFile {filesz : ℕ} (h : filesz = 0 ∨ filesz = 0x1000) :
    OneSegment (imageFile filesz) ⟨ptLoad, 0, 0x40000000, filesz, 0x1000⟩ := by
  rcases h with rfl | rfl <;>
    exact ⟨by decide, by decide, by decide, by decide, by decide⟩

/-- A page at 1 GiB is in nobody's way. -/
theorem placed_high {h : ProgramHeader} {length : ℕ} (hpage : h.page = kernelPages)
    (hpages : h.pages ≤ 1) (hle : length ≤ 4096) : Placed 0x50000 length h := by
  have hlast : kernelPages + 1 ≤ 2 ^ 20 := by decide
  refine ⟨Or.inr ⟨hpage.ge, by omega⟩, fun i hi hrun => ?_⟩
  rw [inRun_iff (by omega)] at hrun
  have hlow : pageOf (0x50000 + i) < kernelPages := by
    rw [pageOf, kernelPages, pageSize]
    omega
  omega

/-- `load` accepts a file with one segment of a page, and returns. -/
theorem load_oneSegment {file : List ℕ} {h : ProgramHeader} {length : ℕ} {m₀ : Machine}
    (hmapped : FileMapped file m₀) (hone : OneSegment file h) (hge : 84 ≤ length)
    (hle : length ≤ 4096) (hplaced : Placed 0x50000 length h) (hpages : h.pages ≤ 1)
    (hinside : h.offset + h.filesz % 2 ^ 16 ≤ length) :
    DirectoriesInv minimalLayout ⟨m₀, [minimalLayout.kernelPageDirectory]⟩ ∧
      Ready minimalLayout (2 ^ 20 + 1) (kmallocEmpty minimalLayout (2 ^ 20 + 1))
        ⟨m₀, [minimalLayout.kernelPageDirectory]⟩ 0x50000 length (fileBytes file) ∧
      (∃ p m₁, kmallocEmpty minimalLayout (2 ^ 20 + 1) taskSize m₀ = some (p, m₁) ∧
        KernelInv minimalLayout (InitRun minimalLayout []) m₁) ∧
      ∀ s : Scheduler, s.taskTail ≠ none → ∃ k', (load minimalLayout 0x50000 length).run
        (Primitive.exec minimalLayout (2 ^ 20 + 1) (kmallocEmpty minimalLayout (2 ^ 20 + 1)))
        ⟨m₀, s, []⟩ = some (true, k') := by
  obtain ⟨hcount, hoffset, hsize, hheader, haccepts⟩ := hone
  have hfirst : ∀ sec < headerCount (fileBytes file), sec = 0 := by
    intro sec hsec
    omega
  have himage : Image (fileBytes file) length := by
    refine ⟨fun i => Nat.mod_lt _ (by decide), hsize, Nat.le_of_eq hoffset.symm, ?_⟩
    rw [hcount, headerOffset_succ, hoffset]
    exact hge
  have hplaced : ∀ sec < headerCount (fileBytes file),
      Placed 0x50000 length (header (fileBytes file) sec) := by
    intro sec hsec
    rw [hfirst sec hsec, hheader]
    exact hplaced
  have hframes : framesFrom (fileBytes file) 0 < 0x7000 := by
    rw [framesFrom, hcount, Finset.sum_Ico_succ_top (Nat.zero_le 0), Finset.Ico_self,
      Finset.sum_empty, hheader]
    omega
  obtain ⟨hinv, hready, p, m₁, halloc, hkernel⟩ := hmapped.ready hle himage hplaced hframes
  refine ⟨hinv, hready, ⟨p, m₁, halloc, hkernel⟩, fun s htail => ?_⟩
  refine load_ends (k := ⟨m₀, s, []⟩) (by omega) hinv hready (by decide) haccepts (fun sec hsec => ?_)
    htail halloc
  rw [hfirst sec hsec, hheader]
  exact hinside

/-- So it does with the image. -/
theorem load_imageFile {filesz length : ℕ} {m₀ : Machine} (hfilesz : filesz = 0 ∨ filesz = 0x1000)
    (h : FileMapped (imageFile filesz) m₀) (hge : 84 ≤ length) (hle : length ≤ 4096)
    (hinside : filesz ≤ length) :
    DirectoriesInv minimalLayout ⟨m₀, [minimalLayout.kernelPageDirectory]⟩ ∧
      Ready minimalLayout (2 ^ 20 + 1) (kmallocEmpty minimalLayout (2 ^ 20 + 1))
        ⟨m₀, [minimalLayout.kernelPageDirectory]⟩ 0x50000 length (fileBytes (imageFile filesz)) ∧
      (∃ p m₁, kmallocEmpty minimalLayout (2 ^ 20 + 1) taskSize m₀ = some (p, m₁) ∧
        KernelInv minimalLayout (InitRun minimalLayout []) m₁) ∧
      ∃ k', (load minimalLayout 0x50000 length).run (Primitive.exec minimalLayout (2 ^ 20 + 1)
        (kmallocEmpty minimalLayout (2 ^ 20 + 1)))
        ⟨m₀, (Scheduler.boot Scheduler.zeroed).start 0 0, []⟩ = some (true, k') := by
  have hpages : (⟨ptLoad, 0, 0x40000000, filesz, 0x1000⟩ : ProgramHeader).pages ≤ 1 := by
    rcases hfilesz with rfl | rfl <;> decide
  obtain ⟨hinv, hready, halloc, hload⟩ := load_oneSegment h (fields_imageFile hfilesz) hge hle
    (placed_high (show 0x40000000 / pageSize = kernelPages by decide) hpages hle) hpages
    (show 0 + filesz % 2 ^ 16 ≤ length by omega)
  exact ⟨hinv, hready, halloc, hload _ (Option.some_ne_none _)⟩

end Sakura.Elf
