import Sakura.MemoryManager.MemoryManager

/-!
# `VirtualMap` behind paging

The code reaches a directory and its page tables through pointers, and once `enablePaging` has set
bit 31 of CR0 the processor looks every pointer up in the directory in CR3. Here the functions of
`VirtualMemoryManager.lean` are written with these lookups: `dir` is the page of the reference the
caller passes, and a page table is accessed at the page of its frame's number. A page that is not
present raises a page fault, and for an exception `interruptHandler` ends in `while(1)`.

Bit 16 of CR0 is never set, so the kernel may write to every page that is present. The pages of the
kernel's own code, data and stack are taken to stay where they are, and the processor to hold no
translations of its own: it never keeps one of a page that was not present.
-/

namespace Sakura.MemoryManager.Paged

/-- How a function ends. -/
inductive Outcome where
  | returned (m : Machine)
  /-- The processor has raised a page fault, and its handler does not return. -/
  | faulted

def Outcome.bind : Outcome → (Machine → Outcome) → Outcome
  | returned m, next => next m
  | faulted, _ => faulted

/-- The frame that is accessed at a page. -/
def reach (paging : Bool) (m : Machine) (page : ℕ) : Option ℕ :=
  if paging then translate m (page * pageSize) else some page

/-- The assignments to a directory entry that is to name a new page table. -/
def setPageDirectoryEntry (paging : Bool) (m : Machine) (dir virtualAddress : ℕ) (isUser : Bool)
    (pageTablePhysicalAddress : ℕ) : Outcome :=
  match reach paging m dir with
  | none => .faulted
  | some pd => .returned
      (MemoryManager.setPageDirectoryEntry m pd virtualAddress isUser pageTablePhysicalAddress)

/-- The assignments to the table entry of a page. The entry is looked up in the directory again. -/
def setPageTableEntry (paging : Bool) (m : Machine) (dir virtualAddress physicalAddress : ℕ)
    (isUser : Bool) : Outcome :=
  match reach paging m dir with
  | none => .faulted
  | some pd =>
    match reach paging m (getPageTable m pd virtualAddress) with
    | none => .faulted
    | some table => .returned (m.store table (pageTableIndex virtualAddress)
        (Entry.map (m.ram table (pageTableIndex virtualAddress)) isUser (physicalAddress / 2 ^ 12)))

/-- One iteration of `VirtualMap`, over the `identityMap` it calls. -/
def mapPage (paging : Bool) (identity : Machine → ℕ → Option Outcome) (m : Machine)
    (dir virtualAddress physicalAddress : ℕ) (isUser : Bool) : Option Outcome :=
  match reach paging m dir with
  | none => some .faulted
  | some pd =>
    if Entry.present (getPageDirectoryEntry m pd virtualAddress) then
      some (setPageTableEntry paging m dir virtualAddress physicalAddress isUser)
    else
      let (pageTablePhysicalAddress, m) := m.physicalAllocate 1
      (identity m pageTablePhysicalAddress).map fun r =>
        (r.bind fun m =>
          setPageDirectoryEntry paging m dir virtualAddress isUser pageTablePhysicalAddress).bind
        fun m => setPageTableEntry paging m dir virtualAddress physicalAddress isUser

/-- The loop of `VirtualMap`. -/
def mapPages (paging : Bool) (identity : Machine → ℕ → Option Outcome) (dir : ℕ) (isUser : Bool) :
    ℕ → Machine → ℕ → ℕ → Option Outcome
  | 0, m, _, _ => some (.returned m)
  | numPages + 1, m, virtualAddress, physicalAddress =>
    (mapPage paging identity m dir virtualAddress physicalAddress isUser).bind fun
    | .faulted => some .faulted
    | .returned m => mapPages paging identity dir isUser numPages m
        ((virtualAddress + pageSize) % 2 ^ 32) ((physicalAddress + pageSize) % 2 ^ 32)

/-- The body of `identityMap`, over the `VirtualMap` it calls. -/
def identityMapWith (virtualMap : Machine → ℕ → ℕ → ℕ → ℕ → Bool → Option Outcome) (m : Machine)
    (dir address size : ℕ) : Option Outcome :=
  let pageCount := pageAlign size / pageSize
  (virtualMap (m.atomicEnable.physicalAllocateAt address pageCount) dir address address pageCount
    false).map fun r => r.bind fun m => .returned m.atomicDisable

/-- `VirtualMap`. As in `MemoryManager.virtualMap`, `fuel` is the depth the model follows. -/
def virtualMap (paging : Bool) : ℕ → Machine → ℕ → ℕ → ℕ → ℕ → Bool → Option Outcome
  | 0, _, _, _, _, _, _ => none
  | fuel + 1, m, dir, virtualAddress, physicalAddress, numPages, isUser =>
    mapPages paging (fun m frame => identityMapWith (virtualMap paging fuel) m dir frame 0) dir
      isUser numPages m virtualAddress physicalAddress

end Sakura.MemoryManager.Paged
