import Sakura.Multiboot

/-!
# The memory manager

`MemoryManager.cpp`: boot-time set-up of the kernel's address space and the operations the
rest of the kernel calls. `Layout` is what the linker decides: where the image ends and
which frames of it hold `kernelPageDirectory` and `kernelPageTable`.

An operation that returns `none` does not return: the recursion of `VirtualMap` or the
search of `VirtualAllocate` does not end within `fuel`, or `memset` touches a page that is
not mapped, on which the exception handler spins.
-/

namespace Sakura.MemoryManager

/-- `&__start`: the image is linked at 1 MiB. -/
def kernelStart : ℕ := 0x100000

/-- The addresses the linker fixes. `kernelPageDirectory` and `kernelPageTable` are page
frames; the image, with the two pages `mapKernelMemory` maps past its end, lies in the
GiB of the kernel's tables. -/
structure Layout where
  kernelEnd : ℕ
  kernelPageDirectory : ℕ
  kernelPageTable : ℕ
  kernelEnd_le : kernelEnd + 2 * pageSize ≤ 2 ^ 30
  le_directory : kernelStart ≤ kernelPageDirectory * pageSize
  directory_le : (kernelPageDirectory + 1) * pageSize ≤ kernelEnd
  le_table : kernelStart ≤ kernelPageTable * pageSize
  table_le : (kernelPageTable + numKernelPageTables) * pageSize ≤ kernelEnd
  disjoint : kernelPageDirectory < kernelPageTable ∨
    kernelPageTable + numKernelPageTables ≤ kernelPageDirectory

/-! ## Boot -/

/-- The assignments of `mapKernelPageTable` to one entry. -/
def kernelEntry (e frame : ℕ) : ℕ :=
  Entry.setPageFrameNumber frame (Entry.setPresent true (Entry.setWrite true (Entry.setUser false e)))

/-- `mapKernelPageTable`: the first 256 entries of a directory name the kernel's tables. -/
def mapKernelPageTable (L : Layout) (m : Machine) (pd : ℕ) : Machine :=
  (List.range numKernelPageTables).foldl
    (fun m index => m.store pd index (kernelEntry (m.ram pd index) (L.kernelPageTable + index))) m

def mapKernelMemory (L : Layout) (fuel : ℕ) (m : Machine) : Option Machine :=
  let size := L.kernelEnd - kernelStart + kernelStart % pageSize
  let kernelSize := size + (pageSize - size % pageSize)
  identityMap fuel (mapKernelPageTable L m L.kernelPageDirectory) L.kernelPageDirectory
    (kernelStart - kernelStart % pageSize) kernelSize

/-- `MemoryManager::init`. -/
def init (L : Layout) (fuel : ℕ) (m : Machine) (maps : List MemoryMap)
    (modules : List ModuleInfo) : Option Machine := do
  let m := { m with memManData := physicalAllocatorInit m.memManData maps }
  let m ← mapKernelMemory L fuel m
  -- the first MiB, for addresses the hardware fixes
  let m ← identityMap fuel m L.kernelPageDirectory 0 kernelStart
  let m ← Multiboot.reserveModuleMemory fuel L.kernelPageDirectory m modules
  some { m with
    cr3 := pageOf (getPhysicalAddress m L.kernelPageDirectory (L.kernelPageDirectory * pageSize)) }

/-! ## Operations -/

/-- The page count `memoryAllocate` and `memoryMap` compute from a size. -/
def pagesFor (size : ℕ) : ℕ :=
  if size % pageSize = 0 then size / pageSize else pageAlign size / pageSize

/-- The frame the processor finds for an address in the directory in CR3. -/
def translate (m : Machine) (virtualAddress : ℕ) : Option ℕ :=
  if isPagePresent m m.cr3 virtualAddress then
    some (Entry.pageFrameNumber (getPageTableEntry m m.cr3 virtualAddress))
  else none

/-- Clear every word of a frame. -/
def Machine.zeroFrame (m : Machine) (frame : ℕ) : Machine :=
  { m with ram := fun f i => if f = frame then 0 else m.ram f i }

/-- `memset(virtualAddress, 0, numPages * PAGE_SIZE)`, a page at a time: the pages are
found through the directory in CR3. -/
def memset : ℕ → Machine → ℕ → Option Machine
  | 0, m, _ => some m
  | numPages + 1, m, virtualAddress =>
    (translate m virtualAddress).bind fun frame =>
      memset numPages (m.zeroFrame frame) ((virtualAddress + pageSize) % 2 ^ 32)

/-- `memoryAllocate`. When no frames are left it returns with interrupts still off. -/
def memoryAllocate (fuel : ℕ) (m : Machine) (pd size : ℕ) (user : Bool) :
    Option (ℕ × Machine) :=
  let numPages := pagesFor size
  let (physicalAddress, m) := m.atomicEnable.physicalAllocate numPages
  if 0 < physicalAddress then
    (virtualAllocate fuel m pd physicalAddress numPages user).bind fun (virtualAddress, m) =>
      if virtualAddress = 0 then
        some (0, (m.physicalFree physicalAddress numPages).atomicDisable)
      else
        (memset numPages m.atomicDisable virtualAddress).map fun m => (virtualAddress, m)
  else some (0, m)

/-- `memoryMap`. The address `physicalAllocate` returns is not checked. -/
def memoryMap (fuel : ℕ) (m : Machine) (pd virtualAddress size : ℕ) (isUser : Bool) :
    Option Machine :=
  let numPages := pagesFor size
  let (physicalAddress, m) := m.physicalAllocate numPages
  virtualMap fuel m pd virtualAddress physicalAddress numPages isUser

/-- One iteration of `memoryFree`. -/
def freeVirtualPage (m : Machine) (pd virtualAddress : ℕ) : Machine :=
  if isPagePresent m pd virtualAddress then
    virtualFree (m.physicalFree (getPhysicalAddress m pd virtualAddress) 1) pd virtualAddress 1
  else m

def memoryFree (m : Machine) (pd startAddress size : ℕ) : Machine :=
  ((List.range (size / pageSize)).foldl
    (fun m i => freeVirtualPage m pd ((startAddress + i * pageSize) % 2 ^ 32))
    m.atomicEnable).atomicDisable

/-- `createUserPageDirectory`. The directory is allocated in the running task's address
space and written through it. -/
def createUserPageDirectory (L : Layout) (fuel : ℕ) (m : Machine) : Option (ℕ × Machine) :=
  (memoryAllocate fuel m.atomicEnable m.cr3 pageSize false).bind fun (pageDirectory, m) =>
    if pageDirectory = 0 then some (0, m.atomicDisable)
    else
      (translate m pageDirectory).map fun frame =>
        (pageDirectory, (mapKernelPageTable L m frame).atomicDisable)

end Sakura.MemoryManager
