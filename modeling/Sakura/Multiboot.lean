import Sakura.MemoryManager.VirtualMemoryManager

/-!
# What the bootloader hands over

`Multiboot.cpp`: the memory map, which decides the pages `physicalAllocatorInit` marks
free, and the module list, whose pages `init` reserves. Both are arrays walked with a
pointer; here they are lists.
-/

namespace Sakura

open MemoryManager

/-- An entry of the memory map. The field `size` only gives the distance to the next
entry. -/
structure MemoryMap where
  address : BitVec 64
  length : BitVec 64
  type : BitVec 32
deriving DecidableEq

/-- The fields of a module the memory manager reads. -/
structure ModuleInfo where
  modStart : ℕ
  modEnd : ℕ
deriving DecidableEq

namespace Multiboot

/-- The start address and length of an available entry after the truncation to 32 bits and
the two roundings of `loadMemoryMap`. -/
def align (map : MemoryMap) : BitVec 32 × BitVec 32 :=
  let base := map.address.setWidth 32
  let size := map.length.setWidth 32
  let page := BitVec.ofNat 32 pageSize
  let alignUp := page - base % page
  -- an address that is not page aligned is aligned up to the next page
  let start := if 0 < (base % page).toNat then (base + alignUp, size - alignUp) else (base, size)
  -- make sure the last page is aligned down
  (start.1, start.2 - size % page)

/-- One iteration of `loadMemoryMap`, on the running total and the allocator's data. -/
def loadEntry (s : BitVec 32 × MemoryManagerData) (map : MemoryMap) :
    BitVec 32 × MemoryManagerData :=
  if map.type = 1 then
    (s.1 + (align map).2,
      physicalFree s.2 (align map).1.toNat ((align map).2.toNat / pageSize))
  else s

/-- `Multiboot::loadMemoryMap`: the total of the available lengths, with their pages
marked free. -/
def loadMemoryMap (d : MemoryManagerData) (maps : List MemoryMap) :
    BitVec 32 × MemoryManagerData :=
  maps.foldl loadEntry (0, d)

/-- One iteration of `reserveModuleMemory`. -/
def reserveModule (fuel pd : ℕ) (m : Machine) (module : ModuleInfo) : Option Machine :=
  let size := (module.modEnd + 2 ^ 32 - module.modStart) % 2 ^ 32
  identityMap fuel (m.physicalFree module.modStart (size / pageSize)) pd module.modStart size

/-- `Multiboot::reserveModuleMemory`, on the kernel page directory `pd`. -/
def reserveModuleMemory (fuel pd : ℕ) (m : Machine) (modules : List ModuleInfo) :
    Option Machine :=
  modules.foldlM (reserveModule fuel pd) m

end Multiboot

namespace MemoryManager

/-- `memset(&memManData.PhysicalAllocation, 0xFF, ALLOCATION_BYTES)`. -/
def fillBitmap (b : Bitmap) : Bitmap :=
  { byte := fun i => if i < allocationBytes then 0xFF#8 else b.byte i }

def physicalAllocatorInit (d : MemoryManagerData) (maps : List MemoryMap) : MemoryManagerData :=
  let loaded := Multiboot.loadMemoryMap
    { d with usedMemory := 0, physicalAllocation := fillBitmap d.physicalAllocation } maps
  { loaded.2 with totalMemory := loaded.1 }

end MemoryManager

end Sakura
