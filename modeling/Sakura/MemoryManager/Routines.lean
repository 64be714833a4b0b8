import Sakura.Lib.Routine
import Sakura.MemoryManager.MemoryManager

/-!
# The memory manager step by step

The functions of `PhysicalAllocator.cpp`, `VirtualMemoryManager.cpp` and `MemoryManager.cpp` again,
as routines: one step tests or writes one bit of the bitmap, reads or writes one entry of a table,
clears one page, or turns interrupts off or on. `Op.exec` is what a step does to the machine.

Beside the machine, a `World` records what the tasks have found and been given. A test that finds a
frame free or a page not present is a `Check` until the task acts on it or ends its search, and
`take` records the frames `physicalAllocate(numPages)` settles on; nothing in the code reads these
records.
-/

namespace Sakura.MemoryManager

/-! ## The steps -/

/-- What a test has found. -/
inductive Check where
  /-- The frame is free. -/
  | frameFree (frame : ℕ)
  /-- The page is not present. -/
  | pageAbsent (pd page : ℕ)
  /-- The directory entry names no table. -/
  | tableAbsent (pd index : ℕ)
  deriving DecidableEq

def Check.isFrame : Check → Bool
  | frameFree _ => true
  | _ => false

def Check.isPage : Check → Bool
  | pageAbsent .. => true
  | _ => false

/-- What was found is still so. -/
def Check.Holds (m : Machine) : Check → Prop
  | frameFree frame => m.used frame = false
  | pageAbsent pd page => isPagePresent m pd (page * pageSize) = false
  | tableAbsent pd index => Entry.present (m.ram pd index) = false

inductive Op where
  | atomicEnable
  | atomicDisable
  /-- `Scheduler::enable` and `Scheduler::disable`. -/
  | setScheduler (enabled : Bool)
  /-- Read `TotalMemory`. -/
  | totalMemory
  /-- The test of `isPhysicalFree`. A used page ends the run. -/
  | isFree (address : ℕ)
  /-- `physicalAllocate(numPages)` has found its run. -/
  | take (startAddress numPages : ℕ)
  /-- The test of `physicalAllocate(startAddress, numPages)`. -/
  | isUnused (address : ℕ)
  | set (address : ℕ)
  /-- The test of `physicalFree`. -/
  | isUsed (address : ℕ)
  | clear (address : ℕ)
  /-- The test of `VirtualAllocate`. A page that is present ends the run. -/
  | isAbsent (pd virtualAddress : ℕ)
  /-- `VirtualAllocate` returns: it has mapped the pages it has found, or is out of virtual
  memory. -/
  | endSearch
  /-- The test of `VirtualMap`. -/
  | hasTable (pd virtualAddress : ℕ)
  | setPageDirectoryEntry (pd virtualAddress : ℕ) (isUser : Bool) (pageTablePhysicalAddress : ℕ)
  | setPageTableEntry (pd virtualAddress physicalAddress : ℕ) (isUser : Bool)
  /-- The test of `memoryFree`. -/
  | isPagePresent (pd virtualAddress : ℕ)
  | getPhysicalAddress (pd virtualAddress : ℕ)
  /-- The store of `VirtualFree`. -/
  | clearEntry (pd virtualAddress : ℕ)
  /-- `memset` of one page. -/
  | clearPage (virtualAddress : ℕ)
  /-- The directory in CR3. -/
  | cr3
  /-- The frame an address stands for. -/
  | translate (virtualAddress : ℕ)
  /-- One iteration of `mapKernelPageTable`. -/
  | kernelEntry (pd index frame : ℕ)

namespace Op

/-- What a step answers. -/
abbrev Result : Op → Type
  | isFree _ | isUnused _ | isUsed _ | isAbsent .. | hasTable .. | isPagePresent .. => Bool
  | totalMemory | getPhysicalAddress .. | cr3 | translate _ => ℕ
  | _ => Unit

/-- What a step does to the machine. Where it does not return, the page is not mapped. -/
def exec : (o : Op) → Machine → Option (o.Result × Machine)
  | atomicEnable, m => some ((), m.atomicEnable)
  | atomicDisable, m => some ((), m.atomicDisable)
  | setScheduler _, m => some ((), m)
  | totalMemory, m => some (m.memManData.totalMemory.toNat, m)
  | isFree address, m => some (!m.memManData.isUsed address, m)
  | take .., m => some ((), m)
  | isUnused address, m => some (!m.memManData.isUsed address, m)
  | set address, m => some ((), { m with memManData := { m.memManData with
      usedMemory := m.memManData.usedMemory + BitVec.ofNat 32 pageSize
      physicalAllocation := m.memManData.physicalAllocation.set (pageOf address) } })
  | isUsed address, m => some (m.memManData.isUsed address, m)
  | clear address, m => some ((), { m with memManData := { m.memManData with
      usedMemory := m.memManData.usedMemory - BitVec.ofNat 32 pageSize
      physicalAllocation := m.memManData.physicalAllocation.clear (pageOf address) } })
  | isAbsent pd virtualAddress, m => some (!MemoryManager.isPagePresent m pd virtualAddress, m)
  | endSearch, m => some ((), m)
  | hasTable pd virtualAddress, m =>
    some (Entry.present (getPageDirectoryEntry m pd virtualAddress), m)
  | setPageDirectoryEntry pd virtualAddress isUser pageTablePhysicalAddress, m => some ((),
      MemoryManager.setPageDirectoryEntry m pd virtualAddress isUser pageTablePhysicalAddress)
  | setPageTableEntry pd virtualAddress physicalAddress isUser, m =>
    some ((), MemoryManager.setPageTableEntry m pd virtualAddress physicalAddress isUser)
  | isPagePresent pd virtualAddress, m => some (MemoryManager.isPagePresent m pd virtualAddress, m)
  | getPhysicalAddress pd virtualAddress, m =>
    some (MemoryManager.getPhysicalAddress m pd virtualAddress, m)
  | clearEntry pd virtualAddress, m => some ((),
      m.store (getPageTable m pd virtualAddress) (pageTableIndex virtualAddress) 0)
  | clearPage virtualAddress, m =>
    (MemoryManager.translate m virtualAddress).map fun frame => ((), m.zeroFrame frame)
  | cr3, m => some (m.cr3, m)
  | translate virtualAddress, m =>
    (MemoryManager.translate m virtualAddress).map fun frame => (frame, m)
  | kernelEntry pd index frame, m => some ((),
      m.store pd index (MemoryManager.kernelEntry (m.ram pd index) frame))

/-- The checks of the task after a step: a test that finds what it looks for adds one, the write it
was made for ends it, and so does the end of the search it belongs to. -/
def found : (o : Op) → o.Result → List Check → List Check
  | isFree address, true, l => .frameFree (pageOf address) :: l
  | isFree _, false, l => l.filter (!·.isFrame)
  | isUnused address, true, l => .frameFree (pageOf address) :: l
  | isUnused address, false, l | set address, _, l => l.filter (· ≠ .frameFree (pageOf address))
  | isAbsent pd virtualAddress, true, l => .pageAbsent pd (pageOf virtualAddress) :: l
  | isAbsent .., false, l | endSearch, _, l => l.filter (!·.isPage)
  | setPageTableEntry pd virtualAddress .., _, l =>
    l.filter (· ≠ .pageAbsent pd (pageOf virtualAddress))
  | hasTable pd virtualAddress, false, l => .tableAbsent pd (pageDirIndex virtualAddress) :: l
  | setPageDirectoryEntry pd virtualAddress .., _, l =>
    l.filter (· ≠ .tableAbsent pd (pageDirIndex virtualAddress))
  | _, _, l => l

/-- The frames given out and not freed since. -/
def handed : Op → List ℕ → List ℕ
  | take startAddress numPages, l =>
    (List.range numPages).map (fun i => pageOf (startAddress + i * pageSize)) ++ l
  | clear address, l => l.filter (· ≠ pageOf address)
  | _, l => l

/-- The scheduler's flag. -/
def schedulerEnabled : Op → Bool → Bool
  | setScheduler enabled, _ => enabled
  | _, b => b

end Op

/-! ## The functions -/

namespace Stepwise

open Op (Result)

/-- A function of the memory manager, step by step. -/
abbrev Steps := Routine Result

/-- One step. -/
abbrev step (o : Op) : Steps o.Result := Routine.perform o

/-- The loop of `isPhysicalFree`, with the pages left to test. -/
def isPhysicalFree (startAddress : ℕ) : ℕ → ℕ → Steps Bool
  | 0, _ => pure true
  | count + 1, pageIndex => do
    if ← step (.isFree ((startAddress + pageIndex * pageSize) % 2 ^ 32)) then
      isPhysicalFree startAddress count (pageIndex + 1)
    else pure false

/-- `physicalAllocate(startAddress, numPages)`. -/
def physicalAllocateAt (startAddress numPages : ℕ) : Steps Unit :=
  Routine.loop (fun pageIndex => do
    let address := (startAddress + pageIndex * pageSize) % 2 ^ 32
    if ← step (.isUnused address) then step (.set address) else pure ()) numPages 0

def physicalFree (startAddress numPages : ℕ) : Steps Unit :=
  Routine.loop (fun pageIndex => do
    let address := (startAddress + pageIndex * pageSize) % 2 ^ 32
    if ← step (.isUsed address) then step (.clear address) else pure ()) numPages 0

/-- The search of `physicalAllocate(numPages)`, with the start pages left to try. -/
def searchFrames (numPages : ℕ) : ℕ → ℕ → Steps ℕ
  | 0, _ => pure 0
  | count + 1, pageIndex => do
    let physicalAddress := pageIndex * pageSize
    if ← isPhysicalFree physicalAddress numPages 0 then
      step (.take physicalAddress numPages)
      physicalAllocateAt physicalAddress numPages
      pure physicalAddress
    else searchFrames numPages count (pageIndex + 1)

def physicalAllocate (numPages : ℕ) : Steps ℕ := do
  let totalMemory ← step .totalMemory
  searchFrames numPages (totalMemory / pageSize) 0

/-- One iteration of `VirtualMap`, over the `identityMap` it calls. -/
def mapPage (identity : ℕ → Steps Unit) (pd virtualAddress physicalAddress : ℕ) (isUser : Bool) :
    Steps Unit := do
  if ← step (.hasTable pd virtualAddress) then
    step (.setPageTableEntry pd virtualAddress physicalAddress isUser)
  else
    let pageTablePhysicalAddress ← physicalAllocate 1
    identity pageTablePhysicalAddress
    step (.setPageDirectoryEntry pd virtualAddress isUser pageTablePhysicalAddress)
    step (.setPageTableEntry pd virtualAddress physicalAddress isUser)

/-- The loop of `VirtualMap`. -/
def mapPages (identity : ℕ → Steps Unit) (pd : ℕ) (isUser : Bool) : ℕ → ℕ → ℕ → Steps Unit
  | 0, _, _ => pure ()
  | numPages + 1, virtualAddress, physicalAddress => do
    mapPage identity pd virtualAddress physicalAddress isUser
    mapPages identity pd isUser numPages ((virtualAddress + pageSize) % 2 ^ 32)
      ((physicalAddress + pageSize) % 2 ^ 32)

/-- The body of `identityMap`, over the `VirtualMap` it calls. -/
def identityMapWith (virtualMap : ℕ → ℕ → ℕ → ℕ → Bool → Steps Unit) (pd address size : ℕ) :
    Steps Unit := do
  let pageCount := pageAlign size / pageSize
  step .atomicEnable
  physicalAllocateAt address pageCount
  virtualMap pd address address pageCount false
  step .atomicDisable

def virtualMap : ℕ → ℕ → ℕ → ℕ → ℕ → Bool → Steps Unit
  | 0, _, _, _, _, _ => .spin
  | fuel + 1, pd, virtualAddress, physicalAddress, numPages, isUser =>
    mapPages (fun frame => identityMapWith (virtualMap fuel) pd frame 0) pd isUser numPages
      virtualAddress physicalAddress

def identityMap (fuel pd address size : ℕ) : Steps Unit :=
  identityMapWith (virtualMap fuel) pd address size

def virtualFree (pd virtualAddress numPages : ℕ) : Steps Unit :=
  let last := (virtualAddress + numPages * pageSize) % 2 ^ 32
  Routine.loop (fun i => step (.clearEntry pd (virtualAddress + i * pageSize)))
    ((last - virtualAddress) / pageSize) 0

/-- The search loop of `VirtualAllocate`. -/
def searchRange (pd maxAddress numPages : ℕ) : ℕ → ℕ → ℕ → ℕ → Steps (Option ℕ)
  | 0, _, _, _ => .spin
  | fuel + 1, virtualAddress, startAddr, pageIndex =>
    if virtualAddress < maxAddress then do
      let next := (virtualAddress + pageSize) % 2 ^ 32
      if ← step (.isAbsent pd virtualAddress) then
        if (pageIndex + 1) % 2 ^ 32 = numPages then pure (some startAddr)
        else searchRange pd maxAddress numPages fuel next startAddr (pageIndex + 1)
      else searchRange pd maxAddress numPages fuel next next 0
    else pure none

def virtualAllocate (fuel pd physicalAddress numPages : ℕ) (user : Bool) : Steps ℕ := do
  match ← searchRange pd (searchEnd user) numPages fuel (searchStart user) (searchStart user) 0 with
  | none =>
    step .endSearch
    pure 0
  | some startAddr =>
    virtualMap fuel pd startAddr physicalAddress numPages user
    step .endSearch
    pure startAddr

/-- `memset(virtualAddress, 0, numPages * PAGE_SIZE)`, a page at a time. -/
def memset : ℕ → ℕ → Steps Unit
  | 0, _ => pure ()
  | numPages + 1, virtualAddress => do
    step (.clearPage virtualAddress)
    memset numPages ((virtualAddress + pageSize) % 2 ^ 32)

def memoryAllocate (fuel pd size : ℕ) (user : Bool) : Steps ℕ := do
  let numPages := pagesFor size
  step .atomicEnable
  let physicalAddress ← physicalAllocate numPages
  if 0 < physicalAddress then
    let virtualAddress ← virtualAllocate fuel pd physicalAddress numPages user
    if virtualAddress = 0 then
      physicalFree physicalAddress numPages
      step .atomicDisable
      pure 0
    else
      step .atomicDisable
      memset numPages virtualAddress
      pure virtualAddress
  else pure 0

def memoryMap (fuel pd virtualAddress size : ℕ) (isUser : Bool) : Steps Unit := do
  let numPages := pagesFor size
  let physicalAddress ← physicalAllocate numPages
  virtualMap fuel pd virtualAddress physicalAddress numPages isUser

/-- One iteration of `memoryFree`. -/
def freeVirtualPage (pd virtualAddress : ℕ) : Steps Unit := do
  if ← step (.isPagePresent pd virtualAddress) then
    let physicalAddress ← step (.getPhysicalAddress pd virtualAddress)
    physicalFree physicalAddress 1
    virtualFree pd virtualAddress 1
  else pure ()

def memoryFree (pd startAddress size : ℕ) : Steps Unit := do
  step .atomicEnable
  Routine.loop (fun i => freeVirtualPage pd ((startAddress + i * pageSize) % 2 ^ 32))
    (size / pageSize) 0
  step .atomicDisable

def mapKernelPageTable (L : Layout) (pd : ℕ) : Steps Unit :=
  Routine.loop (fun index => step (.kernelEntry pd index (L.kernelPageTable + index)))
    numKernelPageTables 0

def createUserPageDirectory (L : Layout) (fuel : ℕ) : Steps ℕ := do
  step .atomicEnable
  let cr3 ← step .cr3
  let pageDirectory ← memoryAllocate fuel cr3 pageSize false
  if pageDirectory = 0 then
    step .atomicDisable
    pure 0
  else
    let frame ← step (.translate pageDirectory)
    mapKernelPageTable L frame
    step .atomicDisable
    pure pageDirectory

/-! ## Tasks -/

/-- A call of a task. Sizes are 32-bit. -/
inductive Call where
  | memoryAllocate (pd : ℕ) (size : BitVec 32) (user : Bool)
  | memoryMap (pd virtualAddress : ℕ) (size : BitVec 32) (isUser : Bool)
  | memoryFree (pd startAddress : ℕ) (size : BitVec 32)
  | identityMap (pd address : ℕ) (size : BitVec 32)
  | createUserPageDirectory
  | setScheduler (enabled : Bool)

def Call.routine (L : Layout) (fuel : ℕ) : Call → Steps Unit
  | memoryAllocate pd size user => do
    let _ ← Stepwise.memoryAllocate fuel pd size.toNat user
    pure ()
  | memoryMap pd virtualAddress size isUser =>
    Stepwise.memoryMap fuel pd virtualAddress size.toNat isUser
  | memoryFree pd startAddress size => Stepwise.memoryFree pd startAddress size.toNat
  | identityMap pd address size => Stepwise.identityMap fuel pd address size.toNat
  | createUserPageDirectory => do
    let _ ← Stepwise.createUserPageDirectory L fuel
    pure ()
  | setScheduler enabled => step (.setScheduler enabled)

/-- The machine and the records. `directory` is the CR3 of each task. -/
structure World where
  machine : Machine
  schedulerEnabled : Bool
  directory : ℕ → ℕ
  handed : List ℕ
  found : ℕ → List Check

namespace World

/-- The records after a step of task `t` that left `machine` and answered `r`. -/
def after (w : World) (t : ℕ) (o : Op) (r : o.Result) (machine : Machine) : World where
  machine := machine
  schedulerEnabled := o.schedulerEnabled w.schedulerEnabled
  directory := w.directory
  handed := o.handed w.handed
  found := Function.update w.found t (o.found r (w.found t))

/-- A step of task `t`. -/
def exec (t : ℕ) (o : Op) (w : World) : Option (o.Result × World) :=
  (o.exec w.machine).map fun (r, machine) => (r, w.after t o r machine)

/-- The timer interrupt switches tasks. -/
def preemptible (w : World) : Bool := w.machine.interrupts && w.schedulerEnabled

/-- A switch to task `t`, which was itself left, or starts, with interrupts on. -/
def enter (t : ℕ) (w : World) : World :=
  { w with machine := { w.machine with cr3 := w.directory t } }

/-- `VirtualMap` meets an empty directory entry only while the scheduler is disabled: the
`identityMap` it then calls turns interrupts on in the middle of its caller's section. -/
def Proper (o : Op) (w : World) : Prop :=
  match o with
  | .hasTable pd virtualAddress => w.schedulerEnabled = false ∨
    Entry.present (getPageDirectoryEntry w.machine pd virtualAddress) = true
  | _ => True

instance (o : Op) (w : World) : Decidable (Proper o w) :=
  match o with
  | .hasTable .. => inferInstanceAs (Decidable (_ ∨ _))
  | .atomicEnable | .atomicDisable | .setScheduler _ | .totalMemory | .isFree _ | .take ..
  | .isUnused _ | .set _ | .isUsed _ | .clear _ | .isAbsent .. | .endSearch
  | .setPageDirectoryEntry .. | .setPageTableEntry .. | .isPagePresent .. | .getPhysicalAddress ..
  | .clearEntry .. | .clearPage _ | .cr3 | .translate _ | .kernelEntry .. =>
    inferInstanceAs (Decidable True)

end World

/-- `memoryMap`, which has no section of its own, is called only where no interrupt can come. -/
def Call.Admits (c : Call) (w : World) : Prop :=
  match c with
  | memoryMap .. => w.preemptible = false
  | _ => True

instance (c : Call) (w : World) : Decidable (c.Admits w) :=
  match c with
  | .memoryMap .. => inferInstanceAs (Decidable (_ = _))
  | .memoryAllocate .. | .memoryFree .. | .identityMap .. | .createUserPageDirectory
  | .setScheduler _ => inferInstanceAs (Decidable True)

/-- Tasks that call the memory manager. -/
def system (L : Layout) (fuel : ℕ) : System ℕ Call Result World where
  exec := World.exec
  routine := Call.routine L fuel
  preemptible := World.preemptible
  enter := World.enter

/-- The tasks on one machine. -/
abbrev Tasks := System.Pool ℕ World Result

/-- No frame is given out twice, and what a task has found stays so while another task runs. -/
def Exclusive (L : Layout) (fuel : ℕ) (p : Tasks) : Prop :=
  p.state.handed.Nodup ∧ ∀ a p', (system L fuel).next p a = some p' → ∀ t ≠ p.running,
    ∀ c ∈ p.state.found t, c.Holds p.state.machine → c.Holds p'.state.machine

end Stepwise

end Sakura.MemoryManager
