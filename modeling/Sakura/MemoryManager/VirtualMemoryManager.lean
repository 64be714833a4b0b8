import Sakura.MemoryManager.PhysicalAllocator

/-!
# Virtual memory

`VirtualMemoryManager.cpp` and the part of `MemoryManager.cpp` it is mutually recursive
with. A `Machine` holds what these functions read and write: the allocator's data, the
words of physical memory, the interrupt flag and the directory in CR3.

A directory is named by the frame it is stored in, and a page table is taken as reached at its
physical frame, the one its directory entry names. The code dereferences that frame number as a
pointer. That is the same thing while paging is off (all of `init`), and afterwards as long as
the table's page is mapped to itself in the directory in CR3, which is what `VirtualMap` calls
`identityMap` for: frames below 1 GiB always can be. For a table frame at or above 1 GiB the
lookup may fault or find another frame. `Paged.lean` has the same functions with every lookup
made, and `PagedTheorems.lean` says when both come to the same.

`VirtualMap` and `identityMap` call each other, and nothing in the code bounds the depth.
`fuel` is the depth the model follows; the result is `none` when that was not enough, or
when the code never returns.
-/

namespace Sakura.MemoryManager

/-- The state the memory manager works on. `ram f i` is word `i` of physical frame `f`. -/
structure Machine where
  memManData : MemoryManagerData
  ram : ℕ → ℕ → ℕ
  interrupts : Bool
  cr3 : ℕ

namespace Machine

/-- Store a word in physical memory. -/
def store (m : Machine) (frame index word : ℕ) : Machine :=
  { m with ram := fun f i => if f = frame ∧ i = index then word else m.ram f i }

/-- Whether a physical page is marked used. -/
def used (m : Machine) (page : ℕ) : Bool := m.memManData.used page

/-- `Libk::atomicEnable`, a `cli`. -/
def atomicEnable (m : Machine) : Machine := { m with interrupts := false }

/-- `Libk::atomicDisable`, a `sti` whatever the flag was before. -/
def atomicDisable (m : Machine) : Machine := { m with interrupts := true }

def physicalAllocateAt (m : Machine) (startAddress numPages : ℕ) : Machine :=
  { m with memManData := MemoryManager.physicalAllocateAt m.memManData startAddress numPages }

def physicalFree (m : Machine) (startAddress numPages : ℕ) : Machine :=
  { m with memManData := MemoryManager.physicalFree m.memManData startAddress numPages }

def physicalAllocate (m : Machine) (numPages : ℕ) : ℕ × Machine :=
  ((MemoryManager.physicalAllocate m.memManData numPages).1,
    { m with memManData := (MemoryManager.physicalAllocate m.memManData numPages).2 })

end Machine

/-! ## Reading the tables -/

def getPageDirectoryEntry (m : Machine) (pd virtualAddress : ℕ) : ℕ :=
  m.ram pd (pageDirIndex virtualAddress)

/-- The frame of the page table that covers an address. -/
def getPageTable (m : Machine) (pd virtualAddress : ℕ) : ℕ :=
  Entry.pageFrameNumber (getPageDirectoryEntry m pd virtualAddress)

def getPageTableEntry (m : Machine) (pd virtualAddress : ℕ) : ℕ :=
  m.ram (getPageTable m pd virtualAddress) (pageTableIndex virtualAddress)

def isPagePresent (m : Machine) (pd virtualAddress : ℕ) : Bool :=
  if Entry.present (getPageDirectoryEntry m pd virtualAddress) then
    Entry.present (getPageTableEntry m pd virtualAddress)
  else false

def getPhysicalAddress (m : Machine) (pd virtualAddress : ℕ) : ℕ :=
  Entry.pageFrameNumber (getPageTableEntry m pd virtualAddress) * pageSize
    + virtualAddress % pageSize

/-! ## Writing the tables -/

/-- The assignments to a directory entry that is to name a new page table. -/
def setPageDirectoryEntry (m : Machine) (pd virtualAddress : ℕ) (isUser : Bool)
    (pageTablePhysicalAddress : ℕ) : Machine :=
  m.store pd (pageDirIndex virtualAddress)
    (Entry.map (getPageDirectoryEntry m pd virtualAddress) isUser
      (pageTablePhysicalAddress / 2 ^ 12))

/-- The assignments to the table entry of a page. -/
def setPageTableEntry (m : Machine) (pd virtualAddress physicalAddress : ℕ)
    (isUser : Bool) : Machine :=
  m.store (getPageTable m pd virtualAddress) (pageTableIndex virtualAddress)
    (Entry.map (getPageTableEntry m pd virtualAddress) isUser (physicalAddress / 2 ^ 12))

/-- One iteration of `VirtualMap`. `identity` is the call of `identityMap` on the frame
just taken for a page table; the frame is not cleared, and a failed allocation
(frame 0) is not noticed. -/
def mapPage (identity : Machine → ℕ → Option Machine) (m : Machine)
    (pd virtualAddress physicalAddress : ℕ) (isUser : Bool) : Option Machine :=
  if Entry.present (getPageDirectoryEntry m pd virtualAddress) then
    some (setPageTableEntry m pd virtualAddress physicalAddress isUser)
  else
    let (pageTablePhysicalAddress, m) := m.physicalAllocate 1
    (identity m pageTablePhysicalAddress).map fun m =>
      setPageTableEntry (setPageDirectoryEntry m pd virtualAddress isUser pageTablePhysicalAddress)
        pd virtualAddress physicalAddress isUser

/-- The loop of `VirtualMap`. -/
def mapPages (identity : Machine → ℕ → Option Machine) (pd : ℕ) (isUser : Bool) :
    ℕ → Machine → ℕ → ℕ → Option Machine
  | 0, m, _, _ => some m
  | numPages + 1, m, virtualAddress, physicalAddress =>
    (mapPage identity m pd virtualAddress physicalAddress isUser).bind fun m =>
      mapPages identity pd isUser numPages m ((virtualAddress + pageSize) % 2 ^ 32)
        ((physicalAddress + pageSize) % 2 ^ 32)

/-- The body of `identityMap`, over the `VirtualMap` it calls. -/
def identityMapWith (virtualMap : Machine → ℕ → ℕ → ℕ → ℕ → Bool → Option Machine)
    (m : Machine) (pd address size : ℕ) : Option Machine :=
  let pageCount := pageAlign size / pageSize
  (virtualMap (m.atomicEnable.physicalAllocateAt address pageCount) pd address address
    pageCount false).map Machine.atomicDisable

def virtualMap : ℕ → Machine → ℕ → ℕ → ℕ → ℕ → Bool → Option Machine
  | 0, _, _, _, _, _, _ => none
  | fuel + 1, m, pd, virtualAddress, physicalAddress, numPages, isUser =>
    -- `identityMap(pageDirectory, pageTablePhysicalAddress, false)`: the size is `false`
    mapPages (fun m frame => identityMapWith (virtualMap fuel) m pd frame 0) pd isUser
      numPages m virtualAddress physicalAddress

def identityMap (fuel : ℕ) (m : Machine) (pd address size : ℕ) : Option Machine :=
  identityMapWith (virtualMap fuel) m pd address size

/-- `VirtualFree`. The end address is computed modulo `2 ^ 32`, so a range that reaches the
top of the address space is not freed at all. -/
def virtualFree (m : Machine) (pd virtualAddress numPages : ℕ) : Machine :=
  let last := (virtualAddress + numPages * pageSize) % 2 ^ 32
  (List.range ((last - virtualAddress) / pageSize)).foldl
    (fun m i =>
      let address := virtualAddress + i * pageSize
      m.store (getPageTable m pd address) (pageTableIndex address) 0) m

/-- The search loop of `VirtualAllocate`: `some none` when it ran past `maxAddress`. -/
def searchRange (m : Machine) (pd maxAddress numPages : ℕ) :
    ℕ → ℕ → ℕ → ℕ → Option (Option ℕ)
  | 0, _, _, _ => none
  | fuel + 1, virtualAddress, startAddr, pageIndex =>
    if virtualAddress < maxAddress then
      let next := (virtualAddress + pageSize) % 2 ^ 32
      if isPagePresent m pd virtualAddress then
        searchRange m pd maxAddress numPages fuel next next 0
      else if (pageIndex + 1) % 2 ^ 32 = numPages then some (some startAddr)
      else searchRange m pd maxAddress numPages fuel next startAddr (pageIndex + 1)
    else some none

/-- `userStartAddress` of `VirtualAllocate`: user memory starts after the kernel's GiB. -/
def userStartAddress : ℕ := numKernelPageTables * pageSize * 1024

/-- The first address `VirtualAllocate` looks at. -/
def searchStart (user : Bool) : ℕ := if user then userStartAddress else kernelStartAddress

/-- The bound at which its search gives up. -/
def searchEnd (user : Bool) : ℕ := if user then totalMemory else userStartAddress

def virtualAllocate (fuel : ℕ) (m : Machine) (pd physicalAddress numPages : ℕ)
    (user : Bool) : Option (ℕ × Machine) :=
  (searchRange m pd (searchEnd user) numPages fuel (searchStart user) (searchStart user) 0).bind
    fun
    | none => some (0, m)
    | some startAddr =>
      (virtualMap fuel m pd startAddr physicalAddress numPages user).map fun m => (startAddr, m)

end Sakura.MemoryManager
