import Sakura.MemoryManager.FirstFitTheorems

/-!
# The interrupt flag

`atomicEnable` is a `cli` and `atomicDisable` a `sti`, whatever the flag was before, so an
operation that ends in `atomicDisable` returns with interrupts on. All the returns do, but one:
`memoryAllocate` comes back with interrupts off when `physicalAllocate` finds no frames. The flag is
therefore as it was exactly where the caller had it the same way (`interrupts_restored_iff`).
-/

namespace Sakura.MemoryManager

/-- A call of one of the operations that turn interrupts off and on. -/
inductive Operation where
  | memoryAllocate (pd size : ℕ) (user : Bool)
  | memoryFree (pd startAddress size : ℕ)
  | identityMap (pd address size : ℕ)
  | createUserPageDirectory (L : Layout)

/-- The state in which the call returns. -/
def Operation.run (fuel : ℕ) (m : Machine) : Operation → Option Machine
  | .memoryAllocate pd size user =>
    (MemoryManager.memoryAllocate fuel m pd size user).map Prod.snd
  | .memoryFree pd startAddress size => some (MemoryManager.memoryFree m pd startAddress size)
  | .identityMap pd address size => MemoryManager.identityMap fuel m pd address size
  | .createUserPageDirectory L => (MemoryManager.createUserPageDirectory L fuel m).map Prod.snd

/-- `physicalAllocate(n)` has frames to give: a run of `n` free pages starts below `TotalMemory`, and
none starts at page 0, which is what a failure looks like. -/
def FramesFor (d : MemoryManagerData) (n : ℕ) : Prop :=
  ¬ FreeRun d 0 n ∧ ∃ k < d.totalMemory.toNat / pageSize, FreeRun d k n

/-- Where a call finds the interrupt flag as it leaves it. -/
def Operation.Balanced (m : Machine) : Operation → Prop
  | .memoryAllocate _ size _ => m.interrupts = true ↔ FramesFor m.memManData (pagesFor size)
  | _ => m.interrupts = true

section

variable {m m' : Machine} {fuel pd size : ℕ} {user : Bool} {L : Layout}

theorem physicalAllocate_pos_iff {d : MemoryManagerData} {n : ℕ} :
    0 < (physicalAllocate d n).1 ↔ FramesFor d n := by
  rcases physicalAllocate_cases d n with ⟨k, hk, hrun, hfirst, h⟩ | ⟨hnone, h⟩
  · rw [h]
    constructor
    · intro hpos
      have hk0 : 0 < k := Nat.pos_of_mul_pos_right hpos
      exact ⟨hfirst 0 hk0, k, hk, hrun⟩
    · rintro ⟨hzero, -⟩
      apply Nat.mul_pos _ (by decide)
      by_contra hk0
      obtain rfl : k = 0 := by omega
      exact hzero hrun
  · rw [h]
    constructor
    · intro hpos
      exact absurd hpos (Nat.lt_irrefl 0)
    · rintro ⟨-, k, hk, hrun⟩
      exact absurd hrun (hnone k hk)

theorem interrupts_memset (n : ℕ) : ∀ {m m' : Machine} {va : ℕ}, memset n m va = some m' →
    m'.interrupts = m.interrupts := by
  induction n with
  | zero =>
    intro m m' va h
    obtain rfl := Option.some.inj h
    rfl
  | succ n ih =>
    intro m m' va h
    rw [memset, Option.bind_eq_some_iff] at h
    obtain ⟨f, -, h⟩ := h
    exact (ih h).trans rfl

/-- `memoryAllocate` returns with interrupts on if it got frames, and off if not. -/
theorem interrupts_memoryAllocate {a : ℕ}
    (h : memoryAllocate fuel m pd size user = some (a, m')) :
    m'.interrupts = true ↔ FramesFor m.memManData (pagesFor size) := by
  rw [← physicalAllocate_pos_iff, ← allocatedAddress_eq]
  rw [memoryAllocate_eq] at h
  split at h
  · rename_i hpos
    refine ⟨fun _ => hpos, fun _ => ?_⟩
    obtain ⟨⟨va, m₁⟩, -, h⟩ := Option.bind_eq_some_iff.mp h
    simp only at h
    split at h
    · obtain rfl := (Prod.mk.inj (Option.some.inj h)).2
      rfl
    · obtain ⟨m₂, hm₂, heq⟩ := Option.map_eq_some_iff.mp h
      obtain rfl := (Prod.mk.inj heq).2
      exact interrupts_memset _ hm₂
  · rename_i hzero
    obtain rfl := (Prod.mk.inj (Option.some.inj h)).2
    exact ⟨fun hoff => absurd hoff Bool.false_ne_true, fun hpos => absurd hpos hzero⟩

/-- `identityMap` returns with interrupts on. -/
theorem interrupts_identityMap {address : ℕ}
    (h : identityMap fuel m pd address size = some m') : m'.interrupts = true := by
  unfold identityMap identityMapWith at h
  obtain ⟨m₁, -, rfl⟩ := Option.map_eq_some_iff.mp h
  rfl

/-- `createUserPageDirectory` returns with interrupts on, also where `memoryAllocate` left them
off. -/
theorem interrupts_createUserPageDirectory {a : ℕ}
    (h : createUserPageDirectory L fuel m = some (a, m')) : m'.interrupts = true := by
  unfold createUserPageDirectory at h
  obtain ⟨⟨va, m₁⟩, -, h⟩ := Option.bind_eq_some_iff.mp h
  simp only at h
  split at h
  · obtain rfl := (Prod.mk.inj (Option.some.inj h)).2
    rfl
  · obtain ⟨f, -, heq⟩ := Option.map_eq_some_iff.mp h
    obtain rfl := (Prod.mk.inj heq).2
    rfl

end

/-- A call returns with the interrupt flag as it was at the call exactly where it was on, or, for
`memoryAllocate` without frames, off. -/
theorem interrupts_restored_iff (fuel : ℕ) (m m' : Machine) (op : Operation)
    (h : op.run fuel m = some m') : m'.interrupts = m.interrupts ↔ op.Balanced m := by
  cases op with
  | memoryAllocate pd size user =>
    obtain ⟨⟨a, m₁⟩, hcall, rfl⟩ := Option.map_eq_some_iff.mp h
    show m₁.interrupts = m.interrupts ↔
      (m.interrupts = true ↔ FramesFor m.memManData (pagesFor size))
    rw [← interrupts_memoryAllocate hcall, eq_comm, Bool.eq_iff_iff]
  | memoryFree pd startAddress size =>
    obtain rfl := Option.some.inj h
    exact eq_comm
  | identityMap pd address size =>
    rw [interrupts_identityMap h]
    exact eq_comm
  | createUserPageDirectory L =>
    obtain ⟨⟨a, m₁⟩, hcall, rfl⟩ := Option.map_eq_some_iff.mp h
    rw [interrupts_createUserPageDirectory hcall]
    exact eq_comm

/-! ### No frames -/

/-- Every frame is used, and interrupts are on or off. -/
def noFrames (interrupts : Bool) : Machine :=
  ⟨⟨0x8000000#32, 0, fullBitmap⟩, fun _ _ => 0, interrupts, 0x100⟩

theorem not_framesFor_noFrames (interrupts : Bool) :
    ¬ FramesFor (noFrames interrupts).memManData 1 := by
  rintro ⟨-, k, hk, hrun⟩
  have hlt := totalMemory_div_lt (noFrames interrupts).memManData
  have hfree := hrun k ⟨0, by decide, by omega⟩
  rw [show (noFrames interrupts).memManData.used k = true from isSet_fullBitmap k] at hfree
  exact absurd hfree (by decide)

/-- A call of `memoryAllocate` then returns at once. -/
theorem run_noFrames (interrupts : Bool) :
    ∃ m', (Operation.memoryAllocate 0x100 0x1000 false).run 0 (noFrames interrupts) = some m' ∧
      m'.interrupts = false := by
  refine ⟨framesAllocated (noFrames interrupts) 0x1000, ?_, rfl⟩
  show (memoryAllocate _ _ _ _ _).map Prod.snd = _
  rw [memoryAllocate_eq, if_neg]
  · rfl
  · rw [allocatedAddress_eq, physicalAllocate_pos_iff]
    exact not_framesFor_noFrames interrupts

/-- With interrupts off, it leaves them off. -/
theorem interrupts_restored_off :
    ∃ m', (Operation.memoryAllocate 0x100 0x1000 false).run 0 (noFrames false) = some m' ∧
      m'.interrupts = (noFrames false).interrupts := by
  obtain ⟨m', hm', -⟩ := run_noFrames false
  refine ⟨m', hm', (interrupts_restored_iff 0 (noFrames false) m' _ hm').mpr ?_⟩
  exact ⟨fun hon => absurd hon (by decide), fun h => absurd h (not_framesFor_noFrames false)⟩

/-- With interrupts on, it turns them off. -/
theorem memoryAllocate_turns_off :
    (noFrames true).interrupts = true ∧
      ∃ m', (Operation.memoryAllocate 0x100 0x1000 false).run 0 (noFrames true) = some m' ∧
        m'.interrupts = false :=
  ⟨rfl, run_noFrames true⟩

end Sakura.MemoryManager
