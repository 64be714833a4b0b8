import Sakura.Scheduler
import Sakura.MemoryManager.KernelHalfRunTheorems

/-!
# Making a task

`Scheduler::createTask`. The directory of a user task is the pointer `createUserPageDirectory`
returns: `VirtualAllocate` chose the address and `physicalAllocate` the frame behind it, each
the first that fits. `switchTask` takes the pointer for the frame's address, which it is
exactly if the two searches come to the same number (`directory_physical_iff`).
-/

namespace Sakura

open MemoryManager MemoryManagerData
open I386 (Word)

namespace Scheduler

/-- `TASK_STACK_SIZE`. -/
def taskStackSize : ℕ := 0x1000

/-- The stack pointer of a task whose stack lies at `stack`. -/
def stackTop (stack : ℕ) : ℕ := (stack + taskStackSize + 2 ^ 32 - 4) % 2 ^ 32

/-- The stack `createTask` makes: the pointer, and the argument pushed onto it. -/
def taskStack (fuel : ℕ) (m : Machine) (arg : Word) : Option (ℕ × Machine) :=
  (memoryAllocate fuel m m.cr3 taskStackSize false).bind fun (stack, m) =>
    (translate m (stackTop stack)).map fun frame =>
      (stackTop stack, m.store frame (stackTop stack % pageSize / 4) arg.toNat)

/-- `createTask`, once `kmalloc` has found memory for the record: `raw` is what it holds. -/
def createTask (L : Layout) (fuel : ℕ) (main raw : Task) (m : Machine) (isUser : Bool) (arg : Word) :
    Option (Task × Machine) :=
  (if isUser then createUserPageDirectory L fuel m
    else some (L.kernelPageDirectory * pageSize, m)).bind fun (cr3, m) =>
  (taskStack fuel m arg).map fun (esp, m) =>
    ({ raw with
        regs := { raw.regs with
          eax := 0, ebx := 0, ecx := 0, edx := 0, esi := 0, edi := 0
          eflags := main.regs.eflags
          cr3 := BitVec.ofNat 32 cr3
          esp := BitVec.ofNat 32 esp }
        next := none }, m)

/-! ## Runs -/

section

variable {L : Layout} {fuel : ℕ} {m m' : Machine} {D : List ℕ}

/-- The top of a stack is in its page. -/
theorem pageOf_stackTop {k : ℕ} (hk : k < 2 ^ 20) : pageOf (stackTop (k * pageSize)) = k := by
  have htop : stackTop (k * pageSize) = k * pageSize + 0xFFC := by
    rw [stackTop, taskStackSize]
    rw [pageSize]
    omega
  rw [htop, pageOf]
  rw [pageSize]
  omega

theorem FirstAbsent.unique {pd j k : ℕ} (h : FirstAbsent m pd j) (h' : FirstAbsent m pd k) :
    j = k := by
  obtain ⟨h1, h2, h3, h4⟩ := h
  obtain ⟨h1', h2', h3', h4'⟩ := h'
  rcases Nat.lt_trichotomy j k with hlt | heq | hgt
  · rw [h4' j h1 hlt] at h3
    exact absurd h3 (by decide)
  · exact heq
  · rw [h4 k h1' hgt] at h3'
    exact absurd h3' (by decide)

end

/-- The lowest free frame. -/
theorem head?_freeFrames {d : MemoryManagerData} {p : ℕ}
    (hp : p < d.totalMemory.toNat / pageSize) (hfree : d.used p = false)
    (hlow : ∀ j < p, d.used j = true) : (freeFrames d).head? = some p := by
  rw [freeFrames, List.head?_filter, List.find?_range_eq_some]
  refine ⟨by rw [hfree]; rfl, List.mem_range.mpr hp, ?_⟩
  intro j hj
  rw [hlow j hj]
  rfl

end Scheduler

end Sakura
