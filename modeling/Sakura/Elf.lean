import Sakura.Kernel

/-!
# Loading an executable

`Elf.cpp`. `load` works on the file in place: the module's bytes at the address `elfData`, which it
reads through the running task's directory, and in which it rounds the addresses of the program
headers down. `length` is a parameter of `load` that it never looks at.

`ElfHeader` is laid out as in the ELF specification. `ElfProgramHeader` is not: its last four fields
have 16 bits, so `m_filesz` is the low half of `p_filesz`, and `m_memsz` its high half.
-/

namespace Sakura.Elf

open MemoryManager Kernel
open I386 (Word)

/-! ## Fields -/

/-- The offsets of the fields of `ElfHeader` that are read. -/
def eType : ℕ := 16
def eMachine : ℕ := 18
def eEntry : ℕ := 24
def ePhoff : ℕ := 28
def ePhentsize : ℕ := 42
def ePhnum : ℕ := 44

/-- The offsets of the fields of `ElfProgramHeader` that are read. -/
def pOffset : ℕ := 4
def pVaddr : ℕ := 8
def pFilesz : ℕ := 16

/-- A field `verifyElfHeader` looks at: its size and offset, the values it may have, and what is
printed if it has another. -/
structure Check where
  bytes : ℕ
  offset : ℕ
  accepts : List ℕ
  message : String

/-- The fields in the order `verifyElfHeader` looks at them. -/
def checks : List Check := [
  ⟨1, 0, [0x7F], "ELF Header EI_MAG0 incorrect.\n"⟩,
  ⟨1, 1, [0x45], "ELF Header EI_MAG1 incorrect.\n"⟩,
  ⟨1, 2, [0x4C], "ELF Header EI_MAG2 incorrect.\n"⟩,
  ⟨1, 3, [0x46], "ELF Header EI_MAG3 incorrect.\n"⟩,
  ⟨1, 4, [1], "Unsupported ELF File Class.\n"⟩,
  ⟨1, 5, [1], "Unsupported ELF File byte order.\n"⟩,
  ⟨2, eMachine, [3], "Unsupported ELF File target.\n"⟩,
  ⟨1, 6, [1], "Unsupported ELF File version.\n"⟩,
  ⟨2, eType, [1, 2], "Unsupported ELF File type.\n"⟩]

/-! ## `load` -/

/-- Check one field after the other. -/
def verify (elfData : ℕ) : List Check → Routine Primitive.Result Bool
  | [] => pure true
  | c :: cs => do
    let v ← step (.read c.bytes elfData c.offset)
    if v ∈ c.accepts then verify elfData cs
    else do
      step (.printk c.message)
      pure false

/-- `verifyElfHeader`. -/
def verifyElfHeader (elfData : ℕ) : Routine Primitive.Result Bool :=
  if elfData = 0 then pure false else verify elfData checks

/-- The offset of program header `sec`, as the pointer is computed. -/
def programHeader (elfData sec : ℕ) : Routine Primitive.Result ℕ := do
  let phoff ← step (.read 4 elfData ePhoff)
  let phentsize ← step (.read 2 elfData ePhentsize)
  pure ((phoff + phentsize * sec) % 2 ^ 32)

/-- The first statement on a program header: `m_vaddr` is rounded down in place. -/
def alignSegment (elfData ph : ℕ) : Routine Primitive.Result Unit := do
  let vaddr ← step (.read 4 elfData (ph + pVaddr))
  step (.write 4 elfData (ph + pVaddr) (vaddr - vaddr % pageSize))

/-- The call of `memoryMap`, its last argument first. -/
def mapSegment (elfData : ℕ) (task : TaskRef) (ph : ℕ) : Routine Primitive.Result Unit := do
  let filesz ← step (.read 2 elfData (ph + pFilesz))
  let vaddr ← step (.read 4 elfData (ph + pVaddr))
  let t ← step (.task task)
  step (.memoryMap (pageOf t.regs.cr3.toNat) vaddr filesz false)

/-- The call of `memcpy`. -/
def copySegment (elfData ph : ℕ) : Routine Primitive.Result Unit := do
  let offset ← step (.read 4 elfData (ph + pOffset))
  let filesz ← step (.read 2 elfData (ph + pFilesz))
  let vaddr ← step (.read 4 elfData (ph + pVaddr))
  Routine.loop (fun i => step (.copyByte ((vaddr + i) % 2 ^ 32) elfData (offset + i))) filesz 0

/-- One iteration. -/
def loadSegment (elfData : ℕ) (task : TaskRef) (sec : ℕ) : Routine Primitive.Result Unit := do
  let ph ← programHeader elfData sec
  alignSegment elfData ph
  mapSegment elfData task ph
  copySegment elfData ph

/-- The loop. `m_phnum` is read again each time; it is below `2 ^ 16`, so that many rounds are
enough. -/
def loadSegments (elfData : ℕ) (task : TaskRef) : ℕ → ℕ → Routine Primitive.Result Unit
  | 0, _ => .spin
  | rounds + 1, sec => do
    let phnum ← step (.read 2 elfData ePhnum)
    if sec < phnum then do
      loadSegment elfData task sec
      loadSegments elfData task rounds (sec + 1)
    else pure ()

/-- `load`. -/
def load (L : Layout) (elfData _length : ℕ) : Routine Primitive.Result Bool := do
  if ← verifyElfHeader elfData then do
    let task ← createTask L false 0
    loadSegments elfData task (2 ^ 16) 0
    let entry ← step (.read 4 elfData eEntry)
    step (.taskStart task (BitVec.ofNat 32 entry))
    pure true
  else pure false

end Sakura.Elf
