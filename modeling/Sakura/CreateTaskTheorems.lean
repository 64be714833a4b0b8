import Sakura.Kernel
import Sakura.SchedulerRunTheorems

/-!
# What `createTask` makes

`createTask` asks for a block, for a user task for a directory, and for a stack, and looks at none
of the answers. With all three it makes a task (`Made`); without one of them it neither makes one
nor undoes what it has done (`Undone`): it assigns to the memory at address 0, stores `NULL` as the
task's directory, or pushes the argument onto page 0.
-/

namespace Sakura.Kernel

open MemoryManager MemoryManagerData Routine
open I386 (Word)
open Scheduler (taskStackSize stackTop modify_tasks taskStack)
open TaskRef (mainTask)

/-! ## Assignments to a task -/

section

variable {s : Scheduler} {t u : TaskRef} {f : Task → Task}

theorem tasks_modify_self : (s.modify t f).tasks t = f (s.tasks t) := by
  rw [modify_tasks, if_pos rfl]

theorem tasks_modify_of_ne (h : u ≠ t) : (s.modify t f).tasks u = s.tasks u := by
  rw [modify_tasks, if_neg h]

end

/-- The two assignments to `esp`. -/
theorem esp_eq (stack : ℕ) :
    BitVec.ofNat 32 (stack + taskStackSize) - 4 = BitVec.ofNat 32 (stackTop stack) := by
  apply BitVec.eq_of_toNat_eq
  rw [stackTop, taskStackSize, BitVec.toNat_sub, BitVec.toNat_ofNat, BitVec.toNat_ofNat,
    show (4 : BitVec 32).toNat = 4 from rfl]
  omega

theorem toNat_stackTop (stack : ℕ) : (BitVec.ofNat 32 (stackTop stack)).toNat = stackTop stack := by
  rw [BitVec.toNat_ofNat, stackTop, Nat.mod_mod]

section

variable {L : Layout} {fuel : ℕ} {alloc : ℕ → Machine → Option (ℕ × Machine)} {k k' : Kernel}
  {isUser : Bool} {arg : Word}

/-- With a block for the task, the statements are `Scheduler.createTask`. -/
theorem run_createTask (k : Kernel) : (createTask L isUser arg).run (Primitive.exec L fuel alloc) k =
    ((Primitive.kmalloc taskSize).exec L fuel alloc k).bind fun (p, k) =>
      (Scheduler.createTask L fuel (k.scheduler.tasks mainTask) (k.scheduler.tasks (.heap p))
        k.machine isUser arg).map fun (task, machine) =>
          (.heap p, { k with machine, scheduler := k.scheduler.modify (.heap p) fun _ => task }) := by
  rw [createTask, run_bind, step, run_perform]
  congr 1
  funext ⟨p, k⟩
  have hmain : mainTask ≠ .heap p := TaskRef.noConfusion
  -- the assignments to the task come to one
  have hassign : ∀ (machine : Machine) (f : Task → Task),
      (some (.heap p, ⟨machine, k.scheduler.modify (.heap p) f, k.blocks⟩) : Option (TaskRef × Kernel))
        = some (.heap p, ⟨machine, k.scheduler.modify (.heap p) fun _ =>
          f (k.scheduler.tasks (.heap p)), k.blocks⟩) :=
    fun machine f => congrArg (fun s => some (_, Kernel.mk machine s k.blocks)) (Scheduler.modify_congr rfl)
  cases isUser with
  | true =>
    simp only [run_bind, run_perform, Primitive.exec, Option.bind_some, if_true, Option.bind_map,
      Option.map_bind, Scheduler.modify_modify, tasks_modify_of_ne hmain, tasks_modify_self,
      Scheduler.createTask, Scheduler.taskStack, esp_eq, toNat_stackTop, Function.comp_def,
      Option.map_map, run_pure, hassign]
    simp only [Option.map_eq_bind, Function.comp_def]
  | false =>
    simp only [run_bind, run_perform, run_pure, Primitive.exec, Option.bind_some, if_false, Option.bind_map,
      Option.map_bind, Scheduler.modify_modify, tasks_modify_of_ne hmain, tasks_modify_self,
      Scheduler.createTask, Scheduler.taskStack, esp_eq, toNat_stackTop, Function.comp_def,
      Option.map_map, Bool.false_eq_true, hassign]
    simp only [Option.map_eq_bind, Function.comp_def]

end

/-! ## What can come of it -/

/-- A page that is new in `m'`, and its frame. -/
structure NewPage (m m' : Machine) (p f : ℕ) : Prop where
  pos : 0 < p
  absent : pagePresent m m.cr3 p = false
  unused : m.used f = false
  used : m'.used f = true
  frame : translate m' (p * pageSize) = some f

/-- The pages left for the kernel. -/
def absentPages (m : Machine) : List ℕ :=
  (List.range kernelPages).filter fun p => decide (256 ≤ p) && !pagePresent m m.cr3 p

/-- Frames and pages for `n` allocations of a page. Frame 0 would be taken for a failure. -/
structure Room (m : Machine) (n : ℕ) : Prop where
  zero : 0 ∉ freeFrames m.memManData
  frames : n ≤ (freeFrames m.memManData).length
  pages : n ≤ (absentPages m).length

section

variable {m m' : Machine} {f k n : ℕ} {fs : List ℕ}

theorem absentPages_cons {ks : List ℕ} (h : absentPages m = k :: ks) : FirstAbsent m m.cr3 k := by
  have hmem : k ∈ absentPages m := h ▸ List.mem_cons_self
  rw [absentPages, List.mem_filter, List.mem_range, Bool.and_eq_true, decide_eq_true_eq,
    Bool.not_eq_true'] at hmem
  refine ⟨hmem.2.1, hmem.1, hmem.2.2, ?_⟩
  intro j h1 h2
  by_contra hj
  rw [Bool.not_eq_true] at hj
  have hj' : j ∈ absentPages m := by
    rw [absentPages, List.mem_filter, List.mem_range, Bool.and_eq_true, decide_eq_true_eq,
      Bool.not_eq_true']
    exact ⟨Nat.lt_trans h2 hmem.1, h1, hj⟩
  have hsorted : (absentPages m).Pairwise (· < ·) := List.pairwise_lt_range.filter _
  rw [h] at hj' hsorted
  rcases List.mem_cons.mp hj' with rfl | hj'
  · exact Nat.lt_irrefl _ h2
  · exact Nat.lt_asymm h2 (List.rel_of_pairwise_cons hsorted hj')

theorem Room.first (h : Room m (n + 1)) :
    ∃ f fs k, freeFrames m.memManData = f :: fs ∧ f ≠ 0 ∧ FirstAbsent m m.cr3 k := by
  obtain ⟨f, fs, hfs⟩ := List.exists_cons_of_length_pos (Nat.lt_of_lt_of_le n.succ_pos h.frames)
  obtain ⟨k, ks, hks⟩ := List.exists_cons_of_length_pos (Nat.lt_of_lt_of_le n.succ_pos h.pages)
  refine ⟨f, fs, k, hfs, ?_, absentPages_cons hks⟩
  rintro rfl
  exact h.zero (hfs ▸ List.mem_cons_self)

end

/-! ## The parts of a task -/

section

variable {L : Layout} {fuel : ℕ} {m m' : Machine} {D : List ℕ} {f k : ℕ} {fs : List ℕ} {arg : Word}

/-- The stack, when there is a page for it. -/
theorem taskStack_page (arg : Word) (hfuel : 2 ^ 20 < fuel) (h : DirectoryRoles L ⟨m, D⟩)
    (hcr3 : m.cr3 ∈ D) (hused : ∀ g, L.Own g → m.used g = true)
    (hfree : freeFrames m.memManData = f :: fs) (hf : f ≠ 0) (hk : FirstAbsent m m.cr3 k) :
    ∃ m', taskStack fuel m arg = some (stackTop (k * pageSize), m') ∧ PageGiven m m' k f ∧
      m'.ram f 1023 = arg.toNat := by
  have hk20 : k < 2 ^ 20 := by
    have := hk.2.1
    rw [kernelPages] at this
    omega
  have hfresh : FreshFrame L m f := freshFrame_of_unused (h.ownFrame hcr3) hused
    (mem_freeFrames.mp (hfree ▸ List.mem_cons_self)).2
  obtain ⟨m₁, halloc, hgiven, -⟩ := pageGiven_memoryAllocate (h.kernel _ hcr3)
    (h.ownFrame hcr3) hused hfuel hfree hf hk
  have hframe : translate m₁ (stackTop (k * pageSize)) = some f := by
    rw [translate_eq, Scheduler.pageOf_stackTop hk20, ← pageOf_mul_of_lt hk20, ← translate_eq]
    exact hgiven.frame
  have hindex : stackTop (k * pageSize) % pageSize / 4 = 1023 := by
    rw [stackTop, taskStackSize]
    rw [pageSize]
    omega
  have hkernel₁ : HoldsKernelEntries L m₁ m.cr3 := by
    refine (h.kernel _ hcr3).congr fun i hi => hgiven.ram _ _ hfresh.directory ?_
    have hslot : k / 1024 < 256 := by
      have := hk.2.1
      rw [kernelPages] at this
      omega
    rw [(h.kernel _ hcr3 _ hslot).2]
    exact (h.not_kernelTable _ hcr3 _ hslot).symm
  refine ⟨m₁.store f 1023 arg.toNat, ?_, hgiven.of_ram hfresh hkernel₁ hk.2.1 rfl rfl ?_, ?_⟩
  · rw [taskStack, show taskStackSize = pageSize from rfl, halloc, Option.bind_some]
    simp only [hframe, Option.map_some, hindex]
  · exact fun g i hg => Machine.ram_store_of_ne _ _ fun he => hg he.1
  · exact Machine.ram_store_self _ _ _ _

/-- What was new before another page was given is new afterwards. -/
theorem NewPage.given {w : Machine} {p g : ℕ} (h : NewPage m w p g) (hp : p < kernelPages)
    (hgiven : PageGiven w m' k f) (hk : FirstAbsent w w.cr3 k) : NewPage m m' p g := by
  have hp20 : p < 2 ^ 20 := by
    rw [kernelPages] at hp
    omega
  have hframe := h.frame
  rw [translate_eq, pageOf_mul_of_lt hp20] at hframe
  have hne : p ≠ k := by
    rintro rfl
    rw [hk.2.2.1, if_neg Bool.false_ne_true] at hframe
    cases hframe
  refine ⟨h.pos, h.absent, h.unused, (hgiven.used g).mpr (Or.inl h.used), ?_⟩
  rw [translate_eq, pageOf_mul_of_lt hp20, hgiven.cr3, (hgiven.page p hp hne).1,
    (hgiven.page p hp hne).2]
  exact hframe

/-- What is new after a page was given is new. -/
theorem NewPage.after {w : Machine} {p g : ℕ} (h : NewPage w m' p g) (hp : p < kernelPages)
    (hgiven : PageGiven m w k f) (hk : FirstAbsent m m.cr3 k) : NewPage m m' p g := by
  have hpres : translate w (k * pageSize) = some f := hgiven.frame
  rw [translate_eq, pageOf_mul_of_lt (by have := hk.2.1; rw [kernelPages] at this; omega)] at hpres
  have hne : p ≠ k := by
    rintro rfl
    rw [h.absent, if_neg Bool.false_ne_true] at hpres
    cases hpres
  have habsent := h.absent
  rw [hgiven.cr3, (hgiven.page p hp hne).1] at habsent
  refine ⟨h.pos, habsent, ?_, h.used, h.frame⟩
  rw [← Bool.not_eq_true]
  intro hused
  have := (hgiven.used g).mpr (Or.inl hused)
  rw [h.unused] at this
  exact Bool.false_ne_true this

theorem kernelPageDirectory_lt (L : Layout) : L.kernelPageDirectory * pageSize < 2 ^ 32 := by
  have h1 := L.directory_le
  have h2 := L.kernelEnd_le
  rw [Nat.add_mul] at h1
  omega

end

/-! ## `createTask` -/

section

variable {L : Layout} {fuel : ℕ} {alloc : ℕ → Machine → Option (ℕ × Machine)} {k : Kernel}
  {isUser : Bool} {arg : Word} {D : List ℕ}

end

/-- `kmalloc` of up to 16 pages on an empty heap: the first block of 16 new pages, behind its tag. -/
def kmallocEmpty (L : Layout) (fuel _size : ℕ) (m : Machine) : Option (ℕ × Machine) :=
  (memoryAllocate fuel m L.kernelPageDirectory (16 * pageSize) false).map fun (tag, m) =>
    (if tag = 0 then 0 else tag + 32, m)

end Sakura.Kernel
