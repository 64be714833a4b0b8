import Sakura.CreateTask
import Sakura.Lib.Routine
import Sakura.MemoryManager.Bytes

/-!
# The kernel, statement by statement

`Scheduler::createTask` again, as a routine: one step is a call of an allocator or an assignment
to the new task. Here nothing is promised about the allocators, and a failed one goes unnoticed:
`kmalloc` may answer `NULL`, and the task is then the memory at address 0.

What `kmalloc` answers is a parameter, with what it does to the machine. Its own records of the
heap are not part of the model, but for the blocks it has handed out.

The records of the tasks and the data of the allocators are kept apart from the machine's memory:
no memory call and no byte of a segment writes to them, and they are written nowhere else. In the
kernel they lie in memory as well, the records of tasks in blocks of the heap, and what is said
here is about runs in which nobody writes there.
-/

namespace Sakura

open MemoryManager
open I386 (Word)
open Scheduler (taskStackSize)
open TaskRef (mainTask)

/-- The machine, the tasks, and the blocks of the heap that are in use. -/
structure Kernel where
  machine : Machine
  scheduler : Scheduler
  blocks : List ℕ

namespace Kernel

/-- `sizeof(Task)`. -/
def taskSize : ℕ := 92

/-- `NULL`, as a pointer to a task. -/
def null : TaskRef := .heap 0

inductive Primitive where
  /-- `kmalloc(size)`. -/
  | kmalloc (size : ℕ)
  /-- Read the fields of a task. -/
  | task (t : TaskRef)
  /-- Assign fields of a task. -/
  | assign (t : TaskRef) (f : Task → Task)
  | createUserPageDirectory
  | memoryAllocate (size : ℕ) (user : Bool)
  /-- `*((uintptr_t *)esp) = arg`. -/
  | push (esp arg : Word)
  | printk (text : String)
  /-- Read an integer of the file at `elfData`. -/
  | read (bytes elfData offset : ℕ)
  /-- Assign an integer of the file at `elfData`. -/
  | write (bytes elfData offset value : ℕ)
  /-- `*dst = elfData[offset]`. -/
  | copyByte (dst elfData offset : ℕ)
  | memoryMap (pd virtualAddress size : ℕ) (isUser : Bool)
  | taskStart (t : TaskRef) (entry : Word)

namespace Primitive

/-- What a step answers. -/
abbrev Result : Primitive → Type
  | kmalloc _ | memoryAllocate .. | createUserPageDirectory | read .. => ℕ
  | task _ => Task
  | _ => Unit

section

variable (L : Layout) (fuel : ℕ) (alloc : ℕ → Machine → Option (ℕ × Machine))

/-- What a step does to the kernel; `none` if it does not return. -/
def exec : (o : Primitive) → Kernel → Option (o.Result × Kernel)
  | kmalloc size, k => (alloc size k.machine).map fun (p, machine) =>
      (p, { k with machine, blocks := if p = 0 then k.blocks else p :: k.blocks })
  | task t, k => some (k.scheduler.tasks t, k)
  | assign t f, k => some ((), { k with scheduler := k.scheduler.modify t f })
  | createUserPageDirectory, k =>
    (MemoryManager.createUserPageDirectory L fuel k.machine).map fun (p, machine) =>
      (p, { k with machine })
  | memoryAllocate size user, k =>
    (MemoryManager.memoryAllocate fuel k.machine k.machine.cr3 size user).map fun (p, machine) =>
      (p, { k with machine })
  | push esp arg, k => (translate k.machine esp.toNat).map fun frame =>
      ((), { k with machine := k.machine.store frame (esp.toNat % pageSize / 4) arg.toNat })
  | printk _, k => some ((), k)
  | read bytes elfData offset, k =>
    (readInt k.machine bytes ((elfData + offset) % 2 ^ 32)).map fun v => (v, k)
  | write bytes elfData offset value, k =>
    (writeInt bytes k.machine ((elfData + offset) % 2 ^ 32) value).map fun machine =>
      ((), { k with machine })
  | copyByte dst elfData offset, k =>
    (readByte k.machine ((elfData + offset) % 2 ^ 32)).bind fun b =>
      (writeByte k.machine dst b).map fun machine => ((), { k with machine })
  | memoryMap pd virtualAddress size isUser, k =>
    (MemoryManager.memoryMap fuel k.machine pd virtualAddress size isUser).map fun machine =>
      ((), { k with machine })
  | taskStart t entry, k => (k.scheduler.taskStart t entry).toOption.map fun scheduler =>
      ((), { k with scheduler })

end

end Primitive

abbrev step (o : Primitive) : Routine Primitive.Result o.Result := Routine.perform o

/-- `Scheduler::createTask`. -/
def createTask (L : Layout) (isUser : Bool) (arg : Word) : Routine Primitive.Result TaskRef := do
  let p ← step (.kmalloc taskSize)
  let task := .heap p
  step (.assign task fun t => { t with regs := { t.regs with
    eax := 0, ebx := 0, ecx := 0, edx := 0, esi := 0, edi := 0 } })
  let main ← step (.task mainTask)
  step (.assign task fun t => { t with regs := { t.regs with eflags := main.regs.eflags } })
  let cr3 ← if isUser then step .createUserPageDirectory
    else pure (L.kernelPageDirectory * pageSize)
  step (.assign task fun t => { t with regs := { t.regs with cr3 := BitVec.ofNat 32 cr3 } })
  let stack ← step (.memoryAllocate taskStackSize false)
  step (.assign task fun t => { t with regs := { t.regs with
    esp := BitVec.ofNat 32 (stack + taskStackSize) } })
  step (.assign task fun t => { t with regs := { t.regs with esp := t.regs.esp - 4 } })
  let t ← step (.task task)
  step (.push t.regs.esp arg)
  step (.assign task fun t => { t with next := none })
  pure task

end Kernel

end Sakura
