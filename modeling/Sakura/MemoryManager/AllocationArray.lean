import Sakura.MemoryManager.PhysicalAllocator

/-!
# The bitmap as it is declared

`PhysicalAllocator.cpp` on the array `PhysicalAllocation` of `ALLOCATION_BYTES` bytes. An access
to another byte is `none`. (`MemoryManagerData` has all the bytes there could be.)
-/

namespace Sakura.MemoryManager

/-- `MemoryManagerData`, with the array as it is declared. -/
structure AllocatorArray where
  totalMemory : BitVec 32
  usedMemory : BitVec 32
  physicalAllocation : Vector (BitVec 8) allocationBytes

namespace AllocatorArray

/-- The index in `PHYSICAL_ALLOCATOR_GET_BYTE`. -/
def byteIndex (pageAddress : ℕ) : ℕ := pageAddress % 2 ^ 32 / pageSize / 8

/-- What the other macros shift 1 by. -/
def bitIndex (pageAddress : ℕ) : ℕ := pageAddress % 2 ^ 32 / pageSize % 8

/-- `1 << bitIndex`. -/
def bit (pageAddress : ℕ) : BitVec 8 := 1#8 <<< bitIndex pageAddress

/-- `PHYSICAL_ALLOCATOR_IS_USED`. -/
def isUsed (d : AllocatorArray) (pageAddress : ℕ) : Option Bool :=
  d.physicalAllocation[byteIndex pageAddress]?.map fun byte => byte &&& bit pageAddress != 0#8

/-- An assignment to `PHYSICAL_ALLOCATOR_GET_BYTE(pageAddress)`. -/
def assign (d : AllocatorArray) (pageAddress : ℕ) (f : BitVec 8 → BitVec 8) :
    Option AllocatorArray :=
  if h : byteIndex pageAddress < allocationBytes then
    some { d with
      physicalAllocation := d.physicalAllocation.set (byteIndex pageAddress)
        (f (d.physicalAllocation[byteIndex pageAddress])) h }
  else none

/-- `PHYSICAL_ALLOCATOR_SET`. -/
def set (d : AllocatorArray) (pageAddress : ℕ) : Option AllocatorArray :=
  d.assign pageAddress (· ||| bit pageAddress)

/-- `PHYSICAL_ALLOCATOR_CLEAR`. -/
def clear (d : AllocatorArray) (pageAddress : ℕ) : Option AllocatorArray :=
  d.assign pageAddress (· &&& ~~~bit pageAddress)

/-- The address of page `pageIndex` of a run. -/
def address (startAddress pageIndex : ℕ) : ℕ := (startAddress + pageIndex * pageSize) % 2 ^ 32

/-- The loop of `isPhysicalFree`, `count` pages before its end. -/
def isFreeFrom (d : AllocatorArray) (startAddress : ℕ) : ℕ → ℕ → Option Bool
  | 0, _ => some true
  | count + 1, pageIndex => do
    if ← d.isUsed (address startAddress pageIndex) then some false
    else isFreeFrom d startAddress count (pageIndex + 1)

def isPhysicalFree (d : AllocatorArray) (startAddress numPages : ℕ) : Option Bool :=
  d.isFreeFrom startAddress numPages 0

/-- One iteration of `physicalAllocate(startAddress, numPages)`. -/
def allocatePage (d : AllocatorArray) (address : ℕ) : Option AllocatorArray := do
  if ← d.isUsed address then some d
  else set { d with usedMemory := d.usedMemory + BitVec.ofNat 32 pageSize } address

/-- One iteration of `physicalFree`. -/
def freePage (d : AllocatorArray) (address : ℕ) : Option AllocatorArray := do
  if ← d.isUsed address then
    clear { d with usedMemory := d.usedMemory - BitVec.ofNat 32 pageSize } address
  else some d

/-- `physicalAllocate(startAddress, numPages)`. -/
def physicalAllocateAt (d : AllocatorArray) (startAddress numPages : ℕ) : Option AllocatorArray :=
  (List.range numPages).foldlM (fun d pageIndex => d.allocatePage (address startAddress pageIndex)) d

def physicalFree (d : AllocatorArray) (startAddress numPages : ℕ) : Option AllocatorArray :=
  (List.range numPages).foldlM (fun d pageIndex => d.freePage (address startAddress pageIndex)) d

/-- The same data among all the bytes, of which those `beyond` the array are what they are. -/
def data (d : AllocatorArray) (beyond : ℕ → BitVec 8) : MemoryManagerData where
  totalMemory := d.totalMemory
  usedMemory := d.usedMemory
  physicalAllocation := ⟨fun i => d.physicalAllocation[i]?.getD (beyond i)⟩

end AllocatorArray

end Sakura.MemoryManager
