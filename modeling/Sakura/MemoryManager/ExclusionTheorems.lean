import Mathlib.Data.List.Nodup
import Sakura.MemoryManager.MemoryMapTheorems
import Sakura.MemoryManager.RoutineTheorems

/-!
# Calls of different tasks

A call tests that a frame is free or a page not present and acts on it some steps later. The
sections between `atomicEnable` and `atomicDisable` are there to keep other tasks out in between, but
`memoryMap` has none, and the `identityMap` that `VirtualMap` calls for a new table ends its
caller's. Where no `memoryMap` is called and no new table is needed while the timer may switch, the
calls do exclude each other: wherever a switch can come, the running task has acted on all it has
found (`calls_exclude_each_other`).
-/

namespace Sakura.MemoryManager

/-! ## What a step does to the records -/

namespace Op

/-- The steps that add no check and mark no frame. -/
def Plain : Op → Prop
  | isFree _ | take .. | isUnused _ | set _ | isAbsent .. | hasTable .. => False
  | _ => True

/-- The steps allowed in a section: interrupts are not turned on while the scheduler is enabled,
and the scheduler is left as it is. -/
def Inside (disabled : Bool) : Op → Prop
  | atomicDisable => disabled = true
  | setScheduler _ => False
  | _ => True

variable {o : Op} {m m' : Machine} {r : o.Result} {f : ℕ}

/-- A plain step frees a frame that it takes off the record, and no other. -/
theorem used_exec (ho : o.Plain) (h : o.exec m = some (r, m')) {l : List ℕ} (hf : f ∈ o.handed l) :
    f ∈ l ∧ m'.used f = m.used f := by
  cases o with
  | isFree | take | isUnused | set | isAbsent | hasTable => exact ho.elim
  | clear address =>
    obtain ⟨hmem, hne⟩ := List.mem_filter.mp hf
    obtain ⟨-, rfl⟩ := Prod.mk.inj (Option.some.inj h)
    refine ⟨hmem, ?_⟩
    show Bitmap.isSet (Bitmap.clear _ _) f = _
    rw [Bitmap.isSet_clear]
    rw [show decide (f = pageOf address) = false by simpa using hne]
    rfl
  | clearPage | translate =>
    obtain ⟨frame, -, heq⟩ := Option.map_eq_some_iff.mp h
    obtain ⟨-, rfl⟩ := Prod.mk.inj heq
    exact ⟨hf, rfl⟩
  | _ =>
    obtain ⟨-, rfl⟩ := Prod.mk.inj (Option.some.inj h)
    exact ⟨hf, rfl⟩

/-- A plain step gives no frame out. -/
theorem nodup_handed (ho : o.Plain) {l : List ℕ} (hl : l.Nodup) : (o.handed l).Nodup := by
  cases o with
  | take => exact ho.elim
  | clear address => exact hl.filter _
  | _ => exact hl

/-- A plain step finds nothing. -/
theorem mem_found (ho : o.Plain) {l : List Check} {c : Check} (hc : c ∈ o.found r l) : c ∈ l := by
  cases o with
  | isFree | take | isUnused | set | isAbsent | hasTable => exact ho.elim
  | endSearch | setPageTableEntry | setPageDirectoryEntry => exact (List.mem_filter.mp hc).1
  | _ => exact hc

/-- In a section only `atomicEnable` touches the interrupt flag, unless the scheduler is
disabled. -/
theorem interrupts_exec (ho : o.Inside false) (h : o.exec m = some (r, m'))
    (hm : m.interrupts = false) : m'.interrupts = false := by
  cases o with
  | atomicDisable => exact absurd ho Bool.false_ne_true
  | clearPage | translate =>
    obtain ⟨frame, -, heq⟩ := Option.map_eq_some_iff.mp h
    obtain ⟨-, rfl⟩ := Prod.mk.inj heq
    exact hm
  | atomicEnable =>
    obtain ⟨-, rfl⟩ := Prod.mk.inj (Option.some.inj h)
    rfl
  | _ =>
    obtain ⟨-, rfl⟩ := Prod.mk.inj (Option.some.inj h)
    exact hm

end Op

namespace Stepwise

open Routine World

/-! ## The invariant -/

/-- While task `t` runs: the frames given out are used or `t` is about to mark them, those it
has found free are free, and where it can be interrupted it has acted on all it has found. -/
structure Inv (t : ℕ) (w : World) : Prop where
  other : ∀ u ≠ t, w.found u = []
  nodup : w.handed.Nodup
  handed : ∀ f ∈ w.handed, w.machine.used f = true ∨ .frameFree f ∈ w.found t
  free : ∀ f, .frameFree f ∈ w.found t → w.machine.used f = false
  acted : w.preemptible = true → w.found t = []

/-- No task is in the middle of anything. -/
structure Rest (w : World) : Prop where
  found : ∀ t, w.found t = []
  nodup : w.handed.Nodup
  handed : ∀ f ∈ w.handed, w.machine.used f = true

variable {t : ℕ} {w w' : World}

/-- When the running task has acted on all it has found, anyone may go on. -/
theorem Inv.rest_of_nil (h : Inv t w) (hnil : w.found t = []) : Rest w := by
  refine ⟨fun u => ?_, h.nodup, fun f hf => ?_⟩
  · by_cases hu : u = t
    · exact hu ▸ hnil
    · exact h.other u hu
  · rcases h.handed f hf with hused | hmem
    · exact hused
    · rw [hnil] at hmem
      exact absurd hmem List.not_mem_nil

/-- And from there any task may run. -/
theorem Rest.inv (h : Rest w) (t : ℕ) : Inv t w where
  other u _ := h.found u
  nodup := h.nodup
  handed f hf := Or.inl (h.handed f hf)
  free f hf := by rw [h.found t] at hf; exact absurd hf List.not_mem_nil
  acted _ := h.found t

/-- A task that is switched to finds what the one before it left. -/
theorem Rest.enter (h : Rest w) (t : ℕ) : Rest (w.enter t) := ⟨h.found, h.nodup, h.handed⟩

/-- The routine of task `t`, with the other tasks in between wherever an interrupt can come. -/
abbrev SafeFor (t : ℕ) {α : Type} (p : Steps α) (Q : α → World → Prop) : World → Prop :=
  p.Safe (World.exec t) World.Proper (Inv t) (fun w => w.preemptible = true) Rest Q

/-- Task `t` is where it was again after `p`, as far as `P` tells. -/
def Keeps (t : ℕ) (P : World → Prop) {α : Type} (p : Steps α) : Prop :=
  ∀ w, P w → SafeFor t p (fun _ => P) w

section

variable {P : World → Prop}

theorem keeps_pure {α : Type} (a : α) : Keeps t P (pure a : Steps α) := fun _ hw => hw

/-- What both parts keep, one after the other keeps. -/
theorem Keeps.bind {α β : Type} {p : Steps α} {f : α → Steps β} (hp : Keeps t P p)
    (hf : ∀ a, Keeps t P (f a)) : Keeps t P (p >>= f) :=
  fun w hw => Safe.bind (hp w hw) fun a w' hw' => hf a w' hw'

/-- A loop keeps what its body keeps. -/
theorem Keeps.loop {body : ℕ → Steps Unit} (hbody : ∀ i, Keeps t P (body i)) (count first : ℕ) :
    Keeps t P (Routine.loop body count first) := fun w hw =>
  Safe.loop (P := fun _ => P) (fun i w _ hw => hbody i w hw) count first w rfl hw

/-- So does a branch. -/
theorem Keeps.ite {α : Type} {c : Prop} [Decidable c] {p q : Steps α} (hp : Keeps t P p)
    (hq : Keeps t P q) : Keeps t P (if c then p else q) := by
  split
  · exact hp
  · exact hq

end

/-! ## One step -/

/-- A step is a step of the machine, with a record of what was found and given out. -/
theorem exec_eq_some {o : Op} {r : o.Result} (h : World.exec t o w = some (r, w')) :
    ∃ m, o.exec w.machine = some (r, m) ∧ w' = w.after t o r m := by
  obtain ⟨⟨r', m⟩, hm, heq⟩ := Option.map_eq_some_iff.mp h
  obtain ⟨rfl, rfl⟩ := Prod.mk.inj heq
  exact ⟨m, hm, rfl⟩

section

variable {o : Op} {r : o.Result} {m : Machine}

@[simp] theorem found_after : (w.after t o r m).found t = o.found r (w.found t) :=
  Function.update_self ..

/-- What other tasks have found is not touched. -/
theorem found_after_of_ne {u : ℕ} (hu : u ≠ t) : (w.after t o r m).found u = w.found u :=
  Function.update_of_ne hu ..

end

/-- At rest, a plain step leaves everything at rest. -/
theorem keeps_rest {o : Op} (ho : o.Plain) : Keeps t Rest (step o) := by
  intro w hw
  apply Safe.perform fun _ _ _ _ _ h => h
  intro _ r w' hexec
  obtain ⟨m, hm, rfl⟩ := exec_eq_some hexec
  have hnil : (w.after t o r m).found t = [] := by
    rw [found_after, hw.found t, List.eq_nil_iff_forall_not_mem]
    exact fun c hc => List.not_mem_nil (Op.mem_found ho hc)
  have hrest : Rest (w.after t o r m) := by
    refine ⟨fun u => ?_, Op.nodup_handed ho hw.nodup, fun f hf => ?_⟩
    · by_cases hu : u = t
      · exact hu ▸ hnil
      · rw [found_after_of_ne hu, hw.found u]
    · obtain ⟨hmem, hused⟩ := Op.used_exec ho hm hf
      exact hused.trans (hw.handed f hmem)
  exact ⟨hrest.inv t, hrest⟩

/-! ## Sections -/

/-- No switch can come: the scheduler is disabled or, if that is not asked for, interrupts are
off. -/
def Held (disabled : Bool) (w : World) : Prop :=
  w.schedulerEnabled = false ∨ (disabled = false ∧ w.machine.interrupts = false)

/-- Task `t` is in a section. -/
structure InSection (t : ℕ) (disabled : Bool) (w : World) : Prop extends Inv t w where
  held : Held disabled w

/-- In a section, and the checks of the task are among `K`. -/
structure Kept (t : ℕ) (disabled : Bool) (K : Check → Prop) (w : World) : Prop
    extends InSection t disabled w where
  only : ∀ c ∈ w.found t, K c

/-- Nothing in `K` is a check of a frame. -/
def NoFrames (K : Check → Prop) : Prop := ∀ f, ¬ K (.frameFree f)

/-- No check at all. -/
def noCheck (_ : Check) : Prop := False

variable {disabled : Bool} {K K' : Check → Prop}

theorem noFrames_noCheck : NoFrames noCheck := fun _ h => h

/-- Inside a section no switch can come. -/
theorem Held.preemptible (h : Held disabled w) : w.preemptible = false := by
  rcases h with h | ⟨-, h⟩
  · rw [World.preemptible, h, Bool.and_false]
  · rw [World.preemptible, h, Bool.false_and]

theorem held_of_preemptible (h : w.preemptible = false) : Held false w := by
  rw [World.preemptible, Bool.and_eq_false_iff] at h
  exact h.symm.imp id fun h => ⟨rfl, h⟩

/-- A section in which nothing is left to act on may end. -/
theorem Kept.rest (h : Kept t disabled noCheck w) : Rest w :=
  h.rest_of_nil (List.eq_nil_iff_forall_not_mem.mpr h.only)

/-- A section may begin anywhere. -/
theorem Rest.kept (h : Rest w) (hheld : Held disabled w) : Kept t disabled K w where
  toInv := h.inv t
  held := hheld
  only c hc := by rw [h.found t] at hc; exact absurd hc List.not_mem_nil

/-- More checks may be left than there are. -/
theorem Kept.mono (h : Kept t disabled K w) (hK : ∀ c, K c → K' c) : Kept t disabled K' w :=
  ⟨h.toInSection, fun c hc => hK c (h.only c hc)⟩

/-- With the scheduler disabled, so is any section. -/
theorem Kept.weaken (h : Kept t true K w) (disabled : Bool) : Kept t disabled K w := by
  refine ⟨⟨h.toInv, ?_⟩, h.only⟩
  rcases h.held with h | ⟨h, -⟩
  · exact Or.inl h
  · cases h

/-- While no frame is left to act on, all that have been given out are in use. -/
theorem Kept.used (h : Kept t disabled K w) (hK : NoFrames K) {f : ℕ} (hf : f ∈ w.handed) :
    w.machine.used f = true :=
  (h.handed f hf).resolve_right fun hmem => hK f (h.only _ hmem)

section

variable {o : Op} {r : o.Result} {m : Machine}

/-- A step that belongs inside a section does not end it. -/
theorem Held.after (h : Held disabled w) (ho : o.Inside disabled)
    (hexec : o.exec w.machine = some (r, m)) : Held disabled (w.after t o r m) := by
  rcases h with h | ⟨rfl, h⟩
  · cases o with
    | setScheduler => exact ho.elim
    | _ => exact Or.inl h
  · exact Or.inr ⟨rfl, Op.interrupts_exec ho hexec h⟩

/-- A step stays in the section if the records agree with the bitmap. -/
theorem InSection.after (h : InSection t disabled w) (ho : o.Inside disabled)
    (hexec : o.exec w.machine = some (r, m)) (hnodup : (o.handed w.handed).Nodup)
    (hhanded : ∀ f ∈ o.handed w.handed, m.used f = true ∨ .frameFree f ∈ o.found r (w.found t))
    (hfree : ∀ f, .frameFree f ∈ o.found r (w.found t) → m.used f = false) :
    InSection t disabled (w.after t o r m) := by
  have hheld : Held disabled (w.after t o r m) := h.held.after ho hexec
  refine ⟨⟨fun u hu => (found_after_of_ne hu).trans (h.other u hu), hnodup, fun f hf => ?_,
    fun f hf => ?_, fun hopen => ?_⟩, hheld⟩
  · rw [found_after]
    exact hhanded f hf
  · rw [found_after] at hf
    exact hfree f hf
  · rw [hheld.preemptible] at hopen
    exact absurd hopen Bool.false_ne_true

end

/-- The rule for a step that stays in the section: no other task comes in between. -/
theorem safe_step {o : Op} {P : o.Result → World → Prop}
    (hP : ∀ r w, P r w → ∃ disabled, InSection t disabled w)
    (h : World.Proper o w → ∀ r m, o.exec w.machine = some (r, m) → P r (w.after t o r m)) :
    SafeFor t (step o) P w := by
  apply Safe.perform
  · intro r s s' hs hopen
    obtain ⟨_, hin⟩ := hP r s hs
    rw [hin.held.preemptible] at hopen
    exact absurd hopen Bool.false_ne_true
  · intro hproper r w' hexec
    obtain ⟨m, hm, rfl⟩ := exec_eq_some hexec
    obtain ⟨_, hin⟩ := hP r _ (h hproper r m hm)
    exact ⟨hin.toInv, h hproper r m hm⟩

/-- A plain step in a section. -/
theorem Kept.plain {o : Op} (h : Kept t disabled K w) (hK : NoFrames K) (ho : o.Plain)
    (hin : o.Inside disabled) (hfound : ∀ r, ∀ c ∈ o.found r (w.found t), K' c) :
    SafeFor t (step o) (fun _ => Kept t disabled K') w := by
  refine safe_step (fun _ _ h => ⟨_, h.toInSection⟩) fun _ r m hm => ?_
  have hnone : ∀ f, .frameFree f ∉ o.found r (w.found t) :=
    fun f hf => hK f (h.only _ (Op.mem_found ho hf))
  refine ⟨h.toInSection.after hin hm (Op.nodup_handed ho h.nodup) (fun f hf => ?_)
    fun f hf => absurd hf (hnone f), fun c hc => hfound r c (found_after (w := w) ▸ hc)⟩
  obtain ⟨hmem, hused⟩ := Op.used_exec ho hm hf
  exact Or.inl (hused.trans (h.used hK hmem))

/-- A plain step in a section, with any checks of pages left to act on. -/
theorem keeps_step {o : Op} (hK : NoFrames K) (ho : o.Plain) (hin : o.Inside disabled) :
    Keeps t (Kept t disabled K) (step o) :=
  fun _ hw => hw.plain hK ho hin fun _ c hc => hw.only c (Op.mem_found ho hc)

/-- `atomicEnable` opens a section. -/
theorem Rest.atomicEnable (h : Rest w) :
    SafeFor t (step .atomicEnable) (fun _ => Kept t false noCheck) w := by
  refine safe_step (fun _ _ h => ⟨_, h.toInSection⟩) fun _ r m hm => ?_
  obtain ⟨-, rfl⟩ := Prod.mk.inj (Option.some.inj hm)
  have hrest : Rest (w.after t .atomicEnable r w.machine.atomicEnable) := by
    refine ⟨fun u => ?_, h.nodup, h.handed⟩
    by_cases hu : u = t
    · rw [hu, found_after]
      exact h.found t
    · rw [found_after_of_ne hu, h.found u]
  exact hrest.kept (Or.inr ⟨rfl, rfl⟩)

/-- And `atomicDisable` ends it, if nothing that was found is left. -/
theorem Kept.atomicDisable (h : Kept t disabled noCheck w) :
    SafeFor t (step .atomicDisable) (fun _ => Rest) w := keeps_rest (by trivial) w h.rest

/-! ## Frames -/

/-- Marking frames: the checks that are left are of the pages from the `i`-th on, or among `K`. -/
structure Marking (t : ℕ) (disabled : Bool) (K : Check → Prop) (startAddress numPages i : ℕ)
    (w : World) : Prop extends InSection t disabled w where
  only : ∀ c ∈ w.found t, K c ∨
    ∃ j, i ≤ j ∧ j < numPages ∧ c = .frameFree (pageOf (startAddress + j * pageSize))

/-- Looking for frames: the first `i` pages of the run have been found free. -/
structure Found (t : ℕ) (disabled : Bool) (K : Check → Prop) (startAddress i : ℕ) (w : World) : Prop
    extends InSection t disabled w where
  used : ∀ f ∈ w.handed, w.machine.used f = true
  only : ∀ c ∈ w.found t, K c ∨ ∃ j < i, c = .frameFree (pageOf (startAddress + j * pageSize))
  mem : ∀ j < i, .frameFree (pageOf (startAddress + j * pageSize)) ∈ w.found t

/-- A search begins with nothing found. -/
theorem Kept.found (h : Kept t disabled K w) (hK : NoFrames K) (a : ℕ) :
    Found t disabled K a 0 w where
  toInSection := h.toInSection
  used _ hf := h.used hK hf
  only c hc := Or.inl (h.only c hc)
  mem j hj := absurd hj (by omega)

/-- Addresses count modulo `2 ^ 32`. -/
theorem isUsed_mod (m : Machine) (address : ℕ) :
    m.memManData.isUsed (address % 2 ^ 32) = m.used (pageOf address) := by
  rw [MemoryManagerData.isUsed, pageOf_mod, Machine.used]

/-- The test of `isPhysicalFree`: one more page of the run, or the run is given up. -/
theorem Found.isFree {a i : ℕ} (h : Found t disabled K a i w) (hK : NoFrames K) :
    SafeFor t (step (.isFree ((a + i * pageSize) % 2 ^ 32))) (fun (free : Bool) w =>
      (free = true → Found t disabled K a (i + 1) w) ∧ (free = false → Kept t disabled K w)) w := by
  refine safe_step (fun free w hw => ?_) fun _ free m hm => ?_
  · cases free with
    | true => exact ⟨_, (hw.1 rfl).toInSection⟩
    | false => exact ⟨_, (hw.2 rfl).toInSection⟩
  obtain ⟨hfree, rfl⟩ := Prod.mk.inj (Option.some.inj hm)
  rw [isUsed_mod] at hfree
  cases free with
  | true =>
    have hunused : w.machine.used (pageOf (a + i * pageSize)) = false := by simpa using hfree
    have hmem : ∀ c, c ∈ (Op.isFree ((a + i * pageSize) % 2 ^ 32)).found true (w.found t) ↔
        c = .frameFree (pageOf (a + i * pageSize)) ∨ c ∈ w.found t := by
      intro c
      rw [Op.found, pageOf_mod, List.mem_cons]
    refine ⟨fun _ => ⟨?_, h.used, fun c hc => ?_, fun j hj => ?_⟩, nofun⟩
    · refine h.toInSection.after trivial hm h.nodup (fun f hf => Or.inl (h.used f hf))
        fun f hf => ?_
      rcases (hmem _).mp hf with heq | hf
      · rw [Check.frameFree.inj heq]
        exact hunused
      · exact h.free f hf
    · rw [found_after, hmem] at hc
      rcases hc with rfl | hc
      · exact Or.inr ⟨i, by omega, rfl⟩
      · exact (h.only c hc).imp id fun ⟨j, hj, heq⟩ => ⟨j, by omega, heq⟩
    · rw [found_after, hmem]
      rcases Nat.lt_succ_iff_lt_or_eq.mp hj with hlt | rfl
      · exact Or.inr (h.mem j hlt)
      · exact Or.inl rfl
  | false =>
    -- the run is given up, and with it the frames that were found
    have hmem : ∀ c ∈ (Op.isFree ((a + i * pageSize) % 2 ^ 32)).found false (w.found t), K c := by
      intro c hc
      obtain ⟨hc, hframe⟩ := List.mem_filter.mp hc
      rcases h.only c hc with hKc | ⟨j, -, rfl⟩
      · exact hKc
      · exact absurd hframe Bool.false_ne_true
    refine ⟨nofun, fun _ => ⟨?_, fun c hc => hmem c (found_after (w := w) ▸ hc)⟩⟩
    exact h.toInSection.after trivial hm h.nodup (fun f hf => Or.inl (h.used f hf))
      fun f hf => absurd (hmem _ hf) (hK f)

/-- `isPhysicalFree` finds the whole run free, or nothing. -/
theorem Found.isPhysicalFree {a n : ℕ} (hK : NoFrames K) (count : ℕ) : ∀ (i : ℕ) (w : World),
    i + count = n → Found t disabled K a i w → SafeFor t (isPhysicalFree a count i)
      (fun (free : Bool) w =>
        (free = true → Found t disabled K a n w) ∧ (free = false → Kept t disabled K w)) w := by
  induction count with
  | zero =>
    intro i w hi h
    obtain rfl : i = n := by omega
    exact ⟨fun _ => h, nofun⟩
  | succ count ih =>
    intro i w hi h
    refine Safe.bind (h.isFree hK) fun free w' hw' => ?_
    cases free with
    | true => exact ih (i + 1) w' (by omega) (hw'.1 rfl)
    | false => exact ⟨nofun, fun _ => hw'.2 rfl⟩

/-- A run of at most `2 ^ 20` pages does not come round to where it started. -/
theorem nodup_run {a n : ℕ} (hn : n ≤ 2 ^ 20) :
    ((List.range n).map fun i => pageOf (a + i * pageSize)).Nodup := by
  refine List.Nodup.map_on (fun i hi j hj heq => ?_) List.nodup_range
  rw [pageOf_add_mul, pageOf_add_mul] at heq
  have hi' := List.mem_range.mp hi
  have hj' := List.mem_range.mp hj
  omega

/-- Frames that were found free were not given out before. -/
theorem Found.take {a n : ℕ} (hn : n ≤ 2 ^ 20) (h : Found t disabled K a n w) :
    SafeFor t (step (.take a n)) (fun _ => Marking t disabled K a n 0) w := by
  refine safe_step (fun _ _ h => ⟨_, h.toInSection⟩) fun _ r m hm => ?_
  obtain ⟨rfl, rfl⟩ := Prod.mk.inj (Option.some.inj hm)
  have hfound : (w.after t (.take a n) () w.machine).found t = w.found t := found_after
  refine ⟨h.toInSection.after trivial hm ?_ (fun f hf => ?_) h.free, fun c hc => ?_⟩
  · refine List.nodup_append'.mpr ⟨nodup_run hn, h.nodup, fun f hrun hold => ?_⟩
    obtain ⟨j, hj, rfl⟩ := List.mem_map.mp hrun
    have hfree := h.free _ (h.mem j (List.mem_range.mp hj))
    rw [h.used _ hold] at hfree
    exact absurd hfree (by decide)
  · rcases List.mem_append.mp hf with hrun | hold
    · obtain ⟨j, hj, rfl⟩ := List.mem_map.mp hrun
      exact Or.inr (h.mem j (List.mem_range.mp hj))
    · exact Or.inl (h.used f hold)
  · rw [hfound] at hc
    exact (h.only c hc).imp id fun ⟨j, hj, heq⟩ => ⟨j, Nat.zero_le j, hj, heq⟩

/-- The checks that are left when page `i` is done with. -/
theorem Marking.advance {a n i : ℕ} (h : Marking t disabled K a n i w) {c : Check}
    (hc : c ∈ w.found t) (hne : c ≠ .frameFree (pageOf (a + i * pageSize))) :
    K c ∨ ∃ j, i + 1 ≤ j ∧ j < n ∧ c = .frameFree (pageOf (a + j * pageSize)) := by
  refine (h.only c hc).imp id ?_
  rintro ⟨j, hij, hjn, rfl⟩
  have hji : j ≠ i := by
    rintro rfl
    exact hne rfl
  exact ⟨j, by omega, hjn, rfl⟩

/-- The test of `physicalAllocate(startAddress, numPages)`. A page that is used is passed over. -/
theorem Marking.isUnused {a n i : ℕ} (hi : i < n) (h : Marking t disabled K a n i w) :
    SafeFor t (step (.isUnused ((a + i * pageSize) % 2 ^ 32))) (fun (free : Bool) w =>
      (free = true → Marking t disabled K a n i w) ∧
      (free = false → Marking t disabled K a n (i + 1) w)) w := by
  refine safe_step (fun free w hw => ?_) fun _ free m hm => ?_
  · cases free with
    | true => exact ⟨_, (hw.1 rfl).toInSection⟩
    | false => exact ⟨_, (hw.2 rfl).toInSection⟩
  obtain ⟨hfree, rfl⟩ := Prod.mk.inj (Option.some.inj hm)
  rw [isUsed_mod] at hfree
  cases free with
  | true =>
    have hunused : w.machine.used (pageOf (a + i * pageSize)) = false := by simpa using hfree
    have hmem : ∀ c, c ∈ (Op.isUnused ((a + i * pageSize) % 2 ^ 32)).found true (w.found t) ↔
        c = .frameFree (pageOf (a + i * pageSize)) ∨ c ∈ w.found t := by
      intro c
      rw [Op.found, pageOf_mod, List.mem_cons]
    -- the test has found the frame free, which holds until the bit is set
    refine ⟨fun _ => ⟨?_, fun c hc => ?_⟩, nofun⟩
    · refine h.toInSection.after trivial hm h.nodup
        (fun f hf => (h.handed f hf).imp id fun hf => (hmem _).mpr (Or.inr hf)) fun f hf => ?_
      rcases (hmem _).mp hf with heq | hf
      · rw [Check.frameFree.inj heq]
        exact hunused
      · exact h.free f hf
    · rw [found_after, hmem] at hc
      rcases hc with rfl | hc
      · exact Or.inr ⟨i, le_rfl, hi, rfl⟩
      · exact h.only c hc
  | false =>
    have hused : w.machine.used (pageOf (a + i * pageSize)) = true := by simpa using hfree
    have hmem : ∀ c, c ∈ (Op.isUnused ((a + i * pageSize) % 2 ^ 32)).found false (w.found t) ↔
        c ∈ w.found t ∧ c ≠ .frameFree (pageOf (a + i * pageSize)) := by
      intro c
      rw [Op.found, pageOf_mod]
      simp
    -- a used frame is passed over, and what an earlier test found of it is void
    refine ⟨nofun, fun _ => ⟨?_, fun c hc => ?_⟩⟩
    · refine h.toInSection.after trivial hm h.nodup (fun f hf => ?_)
        fun f hf => h.free f ((hmem _).mp hf).1
      by_cases hp : f = pageOf (a + i * pageSize)
      · exact Or.inl (hp ▸ hused)
      · exact (h.handed f hf).imp id fun hf =>
          (hmem _).mpr ⟨hf, fun heq => hp (Check.frameFree.inj heq)⟩
    · rw [found_after, hmem] at hc
      exact h.advance hc.1 hc.2

/-- One bit of the loop that marks frames: the frame is in use before it is given out. -/
theorem Marking.set {a n i : ℕ} (h : Marking t disabled K a n i w) :
    SafeFor t (step (.set ((a + i * pageSize) % 2 ^ 32)))
      (fun _ => Marking t disabled K a n (i + 1)) w := by
  refine safe_step (fun _ _ h => ⟨_, h.toInSection⟩) fun _ r m hm => ?_
  have hused : ∀ f, m.used f = (decide (f = pageOf (a + i * pageSize)) || w.machine.used f) := by
    intro f
    rw [← (Prod.mk.inj (Option.some.inj hm)).2]
    show Bitmap.isSet (Bitmap.set _ _) f = _
    rw [Bitmap.isSet_set, pageOf_mod]
    rfl
  have hmem : ∀ c, c ∈ (Op.set ((a + i * pageSize) % 2 ^ 32)).found r (w.found t) ↔
      c ∈ w.found t ∧ c ≠ .frameFree (pageOf (a + i * pageSize)) := by
    intro c
    rw [Op.found, pageOf_mod]
    simp
  refine ⟨h.toInSection.after trivial hm h.nodup (fun f hf => ?_) fun f hf => ?_, fun c hc => ?_⟩
  · by_cases hp : f = pageOf (a + i * pageSize)
    · exact Or.inl ((hused f).trans (by rw [decide_eq_true hp, Bool.true_or]))
    · rcases h.handed f hf with hold | hold
      · exact Or.inl ((hused f).trans (by rw [hold, Bool.or_true]))
      · exact Or.inr ((hmem _).mpr ⟨hold, fun heq => hp (Check.frameFree.inj heq)⟩)
  · obtain ⟨hf, hp⟩ := (hmem _).mp hf
    have hne : f ≠ pageOf (a + i * pageSize) := by
      rintro rfl
      exact hp rfl
    exact (hused f).trans (by rw [h.free f hf, decide_eq_false hne, Bool.or_false])
  · rw [found_after, hmem] at hc
    exact h.advance hc.1 hc.2

/-- `physicalAllocate(startAddress, numPages)` marks the frames it was told to, or finds them
used. -/
theorem Marking.physicalAllocateAt {a n : ℕ} (h : Marking t disabled K a n 0 w) :
    SafeFor t (physicalAllocateAt a n) (fun _ => Kept t disabled K) w := by
  have hloop : SafeFor t (Stepwise.physicalAllocateAt a n)
      (fun _ => Marking t disabled K a n n) w := by
    refine Safe.loop (P := Marking t disabled K a n) (fun i w hi hw => ?_) n 0 w (Nat.zero_add n) h
    refine Safe.bind (hw.isUnused hi) fun free w' hw' => ?_
    cases free with
    | true => exact (hw'.1 rfl).set
    | false => exact hw'.2 rfl
  refine Safe.mono hloop fun _ w' hw' => ⟨hw'.toInSection, fun c hc => ?_⟩
  rcases hw'.only c hc with hKc | ⟨j, hij, hjn, -⟩
  · exact hKc
  · omega

/-- `physicalAllocateAt` gives nothing out. -/
theorem keeps_physicalAllocateAt (a n : ℕ) :
    Keeps t (Kept t disabled K) (physicalAllocateAt a n) := fun _ hw =>
  Marking.physicalAllocateAt ⟨hw.toInSection, fun c hc => Or.inl (hw.only c hc)⟩

section

variable (hK : NoFrames K)

include hK

/-- The frames the search settles on are marked before it returns. -/
theorem keeps_searchFrames {n : ℕ} (hn : n ≤ 2 ^ 20) (count : ℕ) : ∀ i : ℕ,
    Keeps t (Kept t disabled K) (searchFrames n count i) := by
  induction count with
  | zero => exact fun i => keeps_pure 0
  | succ count ih =>
    intro i w hw
    refine Safe.bind ((hw.found hK (i * pageSize)).isPhysicalFree hK n 0 w (Nat.zero_add n))
      fun free w' hw' => ?_
    cases free with
    | true =>
      refine Safe.bind ((hw'.1 rfl).take hn) fun _ w'' hw'' => ?_
      exact Safe.bind hw''.physicalAllocateAt fun _ _ h => h
    | false => exact ih (i + 1) w' (hw'.2 rfl)

/-- `physicalAllocate` finds and marks inside one section. -/
theorem keeps_physicalAllocate {n : ℕ} (hn : n ≤ 2 ^ 20) :
    Keeps t (Kept t disabled K) (physicalAllocate n) :=
  (keeps_step hK (by trivial) (by trivial)).bind fun _ => keeps_searchFrames hK hn _ 0

/-- `physicalFree` clears bits, and finds nothing. -/
theorem keeps_physicalFree (a n : ℕ) : Keeps t (Kept t disabled K) (physicalFree a n) :=
  Keeps.loop (fun _ => (keeps_step hK (by trivial) (by trivial)).bind fun _ =>
    (keeps_step hK (by trivial) (by trivial)).ite (keeps_pure ())) n 0

/-! ## Tables -/

/-- The test of `VirtualMap`. An entry that names no table is met only with the scheduler
disabled. -/
theorem Kept.hasTable (h : Kept t disabled K w) (pd va : ℕ) :
    SafeFor t (step (.hasTable pd va)) (fun (present : Bool) w =>
      (present = true → Kept t disabled K w) ∧ (present = false →
        Kept t true (fun c => K c ∨ c = .tableAbsent pd (pageDirIndex va)) w)) w := by
  refine safe_step (fun present w hw => ?_) fun hproper present m hm => ?_
  · cases present with
    | true => exact ⟨_, (hw.1 rfl).toInSection⟩
    | false => exact ⟨_, (hw.2 rfl).toInSection⟩
  obtain ⟨hpresent, rfl⟩ := Prod.mk.inj (Option.some.inj hm)
  cases present with
  | true =>
    refine ⟨fun _ => ⟨h.toInSection.after trivial hm h.nodup h.handed h.free, fun c hc => ?_⟩, nofun⟩
    rw [found_after] at hc
    exact h.only c hc
  | false =>
    -- an empty entry is met with the scheduler disabled, so what was found stays so although the
    -- nested `identityMap` turns the interrupts on
    have hoff : w.schedulerEnabled = false := by
      rcases hproper with hoff | htable
      · exact hoff
      · rw [hpresent] at htable
        cases htable
    have hsection : InSection t true w := ⟨h.toInv, Or.inl hoff⟩
    refine ⟨nofun, fun _ => ⟨hsection.after trivial hm h.nodup (fun f hf => Or.inl (h.used hK hf))
      fun f hf => ?_, fun c hc => ?_⟩⟩
    · rcases List.mem_cons.mp hf with heq | hf
      · cases heq
      · exact h.free f hf
    · rw [found_after] at hc
      rcases List.mem_cons.mp hc with rfl | hc
      · exact Or.inr rfl
      · exact Or.inl (h.only c hc)

/-- One iteration of `VirtualMap`. The check that the entry was empty ends when the new table is
entered. -/
theorem keeps_mapPage {identity : ℕ → Steps Unit}
    (hid : ∀ f, ∀ K, NoFrames K → Keeps t (Kept t true K) (identity f)) (pd va pa : ℕ)
    (isUser : Bool) : Keeps t (Kept t disabled K) (mapPage identity pd va pa isUser) := by
  intro w hw
  refine Safe.bind (hw.hasTable hK pd va) fun present w' hw' => ?_
  cases present with
  | true => exact keeps_step hK (by trivial) (by trivial) w' (hw'.1 rfl)
  | false =>
    have hK' : NoFrames fun c => K c ∨ c = .tableAbsent pd (pageDirIndex va) := by
      rintro f (hf | hf)
      · exact hK f hf
      · cases hf
    refine Safe.bind (keeps_physicalAllocate hK' (by omega) w' (hw'.2 rfl)) fun frame w' hw' => ?_
    refine Safe.bind (hid frame _ hK' w' hw') fun _ w' hw' => ?_
    have hentry : SafeFor t (step (.setPageDirectoryEntry pd va isUser frame))
        (fun _ => Kept t true K) w' := by
      refine hw'.plain hK' (by trivial) (by trivial) fun _ c hc => ?_
      obtain ⟨hmem, hne⟩ := List.mem_filter.mp hc
      exact (hw'.only c hmem).resolve_right (by simpa using hne)
    refine Safe.bind hentry fun _ w' hw' => ?_
    exact keeps_step hK (by trivial) (by trivial) w' (hw'.weaken disabled)

/-- The loop of `VirtualMap` keeps what its nested call keeps. -/
theorem keeps_mapPages {identity : ℕ → Steps Unit}
    (hid : ∀ f, ∀ K, NoFrames K → Keeps t (Kept t true K) (identity f)) (pd : ℕ) (isUser : Bool)
    (n : ℕ) : ∀ va pa : ℕ, Keeps t (Kept t disabled K) (mapPages identity pd isUser n va pa) := by
  induction n with
  | zero => exact fun _ _ => keeps_pure ()
  | succ n ih => exact fun va pa => (keeps_mapPage hK hid pd va pa isUser).bind fun _ => ih _ _

end

/-- A nested `identityMap`: interrupts come on, but the scheduler is disabled. -/
theorem keeps_identityMapWith {vm : ℕ → ℕ → ℕ → ℕ → Bool → Steps Unit}
    (hvm : ∀ K, NoFrames K → ∀ pd va pa n isUser, Keeps t (Kept t true K) (vm pd va pa n isUser))
    (hK : NoFrames K) (pd address size : ℕ) :
    Keeps t (Kept t true K) (identityMapWith vm pd address size) :=
  (keeps_step hK (by trivial) (by trivial)).bind fun _ => (keeps_physicalAllocateAt _ _).bind fun _ =>
    (hvm K hK _ _ _ _ _).bind fun _ => keeps_step hK (by trivial) rfl

/-- `VirtualMap`, by induction on how deep `identityMap` is nested. -/
theorem keeps_virtualMap (fuel : ℕ) : ∀ (disabled : Bool) (K : Check → Prop), NoFrames K →
    ∀ (pd va pa n : ℕ) (isUser : Bool),
    Keeps t (Kept t disabled K) (virtualMap fuel pd va pa n isUser) := by
  induction fuel with
  | zero => exact fun _ _ _ _ _ _ _ _ _ _ => trivial
  | succ fuel ih =>
    intro disabled K hK pd va pa n isUser
    refine keeps_mapPages hK (fun f K hK => ?_) pd isUser n va pa
    exact keeps_identityMapWith (ih true) hK pd f 0

/-! ## The calls -/

/-- The checks of pages. -/
def pageCheck (c : Check) : Prop := c.isPage = true

theorem noFrames_pageCheck : NoFrames pageCheck := fun _ h => Bool.false_ne_true h

/-- The test of `VirtualAllocate`. -/
theorem Kept.isAbsent (h : Kept t disabled pageCheck w) (pd va : ℕ) :
    SafeFor t (step (.isAbsent pd va)) (fun _ => Kept t disabled pageCheck) w := by
  refine safe_step (fun _ _ h => ⟨_, h.toInSection⟩) fun _ r m hm => ?_
  obtain ⟨-, rfl⟩ := Prod.mk.inj (Option.some.inj hm)
  have honly : ∀ c ∈ (Op.isAbsent pd va).found r (w.found t), pageCheck c := by
    intro c hc
    cases r with
    | true =>
      rcases List.mem_cons.mp hc with rfl | hc
      · rfl
      · exact h.only c hc
    | false => exact h.only c (List.mem_filter.mp hc).1
  refine ⟨h.toInSection.after trivial hm h.nodup (fun f hf => Or.inl (h.used noFrames_pageCheck hf))
    fun f hf => absurd (honly _ hf) (noFrames_pageCheck f), fun c hc => ?_⟩
  rw [found_after] at hc
  exact honly c hc

/-- The search of `VirtualAllocate` finds pages only. -/
theorem keeps_searchRange (pd maxAddress n fuel : ℕ) : ∀ va start i : ℕ,
    Keeps t (Kept t disabled pageCheck) (searchRange pd maxAddress n fuel va start i) := by
  induction fuel with
  | zero => exact fun _ _ _ _ _ => trivial
  | succ fuel ih =>
    intro va start i
    refine Keeps.ite ?_ (keeps_pure none)
    have htest : Keeps t (Kept t disabled pageCheck) (step (.isAbsent pd va)) :=
      fun w hw => hw.isAbsent pd va
    exact htest.bind fun _ => Keeps.ite ((keeps_pure _).ite (ih _ _ _)) (ih _ _ _)

/-- The end of a search. -/
theorem Kept.endSearch (h : Kept t disabled pageCheck w) :
    SafeFor t (step .endSearch) (fun _ => Kept t disabled noCheck) w := by
  refine h.plain noFrames_pageCheck (by trivial) (by trivial) fun _ c hc => ?_
  obtain ⟨hmem, hpage⟩ := List.mem_filter.mp hc
  have hc' : c.isPage = true := h.only c hmem
  rw [hc'] at hpage
  cases hpage

/-- `VirtualAllocate` returns with nothing found that it has not acted on. -/
theorem keeps_virtualAllocate (fuel pd pa n : ℕ) (user : Bool) :
    Keeps t (Kept t disabled noCheck) (virtualAllocate fuel pd pa n user) := by
  intro w hw
  have hpages : Kept t disabled pageCheck w := hw.mono fun _ h => h.elim
  refine Safe.bind (keeps_searchRange _ _ _ _ _ _ _ w hpages) fun found w' hw' => ?_
  cases found with
  | none => exact Safe.bind hw'.endSearch fun _ _ h => h
  | some start =>
    refine Safe.bind (keeps_virtualMap fuel disabled _ noFrames_pageCheck pd start pa n user w' hw')
      fun _ w'' hw'' => ?_
    exact Safe.bind hw''.endSearch fun _ _ h => h

/-- `memset` is outside the section, with nothing left to act on. -/
theorem keeps_memset (n : ℕ) : ∀ va : ℕ, Keeps t Rest (memset n va) := by
  induction n with
  | zero => exact fun _ => keeps_pure ()
  | succ n ih => exact fun va => (keeps_rest (by trivial)).bind fun _ => ih _

/-- `memoryAllocate` is one section, up to the `memset`. -/
theorem keeps_memoryAllocate {size : ℕ} (hsize : size < 2 ^ 32) (fuel pd : ℕ) (user : Bool) :
    Keeps t Rest (memoryAllocate fuel pd size user) := by
  intro w hw
  refine Safe.bind hw.atomicEnable fun _ w hw => ?_
  refine Safe.bind (keeps_physicalAllocate noFrames_noCheck (pagesFor_lt hsize).le w hw)
    fun pa w hw => ?_
  by_cases hpa : 0 < pa
  · rw [if_pos hpa]
    refine Safe.bind (keeps_virtualAllocate fuel pd pa _ user w hw) fun va w hw => ?_
    by_cases hva : va = 0
    · rw [if_pos hva]
      refine Safe.bind (keeps_physicalFree noFrames_noCheck _ _ w hw) fun _ w hw => ?_
      exact Safe.bind hw.atomicDisable fun _ _ h => h
    · rw [if_neg hva]
      refine Safe.bind hw.atomicDisable fun _ w hw => ?_
      exact Safe.bind (keeps_memset _ va w hw) fun _ _ h => h
  · -- interrupts stay off, and nothing is left to act on
    rw [if_neg hpa]
    exact hw.rest

/-- One iteration of `memoryFree`. -/
theorem keeps_freeVirtualPage (pd va : ℕ) : Keeps t Rest (freeVirtualPage pd va) := by
  refine (keeps_rest (by trivial)).bind fun _ => Keeps.ite ?_ (keeps_pure ())
  refine (keeps_rest (by trivial)).bind fun pa => Keeps.bind ?_ fun _ => ?_
  · exact Keeps.loop (fun _ => (keeps_rest (by trivial)).bind fun _ =>
      (keeps_rest (by trivial)).ite (keeps_pure ())) 1 0
  · exact Keeps.loop (fun _ => keeps_rest (by trivial)) _ 0

/-- `createUserPageDirectory` goes on after the section of its `memoryAllocate`, with nothing found. -/
theorem keeps_createUserPageDirectory (L : Layout) (fuel : ℕ) :
    Keeps t Rest (createUserPageDirectory L fuel) := by
  refine (keeps_rest (by trivial)).bind fun _ => (keeps_rest (by trivial)).bind fun cr3 => ?_
  refine (keeps_memoryAllocate (by decide) fuel cr3 false).bind fun pd => Keeps.ite ?_ ?_
  · exact (keeps_rest (by trivial)).bind fun _ => keeps_pure 0
  · refine (keeps_rest (by trivial)).bind fun frame => ?_
    refine (Keeps.loop (fun _ => keeps_rest (by trivial)) _ 0).bind fun _ => ?_
    exact (keeps_rest (by trivial)).bind fun _ => keeps_pure pd

/-- `identityMap`, called by a task: one section. -/
theorem keeps_identityMap (fuel pd address size : ℕ) :
    Keeps t Rest (identityMap fuel pd address size) := by
  intro w hw
  refine Safe.bind hw.atomicEnable fun _ w hw => ?_
  refine Safe.bind (keeps_physicalAllocateAt _ _ w hw) fun _ w hw => ?_
  exact Safe.bind (keeps_virtualMap fuel false _ noFrames_noCheck _ _ _ _ _ w hw)
    fun _ w hw => hw.atomicDisable

/-- `memoryMap`, called where no interrupt can come. -/
theorem Rest.memoryMap (h : Rest w) (hheld : Held false w) {size : ℕ} (hsize : size < 2 ^ 32)
    (fuel pd va : ℕ) (isUser : Bool) :
    SafeFor t (memoryMap fuel pd va size isUser) (fun _ => Rest) w := by
  have hkept : Kept t false noCheck w := h.kept hheld
  refine Safe.bind (keeps_physicalAllocate noFrames_noCheck (pagesFor_lt hsize).le w hkept)
    fun pa w hw => ?_
  exact Safe.mono (keeps_virtualMap fuel false _ noFrames_noCheck pd va pa _ isUser w hw)
    fun _ _ h => h.rest

/-- Every call leaves its task with nothing found, and the frames it was given marked. -/
theorem safe_call (L : Layout) (fuel : ℕ) (c : Call) (hadmits : c.Admits w) (hw : Rest w)
    (hrely : Rely (fun w => w.preemptible = true) Rest w w') :
    SafeFor t (c.routine L fuel) (fun _ => Rest) w' := by
  have hw' : Rest w' := by
    rcases hrely with rfl | ⟨-, h⟩
    · exact hw
    · exact h
  cases c with
  | memoryAllocate pd size user =>
    exact Safe.bind (keeps_memoryAllocate size.isLt fuel pd user w' hw') fun _ _ h => h
  | memoryMap pd va size isUser =>
    obtain rfl : w' = w := by
      refine hrely.resolve_right fun ⟨hopen, _⟩ => ?_
      have hclosed : w.preemptible = false := hadmits
      exact Bool.false_ne_true (hclosed.symm.trans hopen)
    exact hw'.memoryMap (held_of_preemptible hadmits) size.isLt fuel pd va isUser
  | memoryFree pd start size =>
    refine Keeps.bind (keeps_rest (by trivial)) (fun _ => ?_) w' hw'
    exact (Keeps.loop (fun _ => keeps_freeVirtualPage pd _) _ 0).bind fun _ => keeps_rest (by trivial)
  | identityMap pd address size => exact keeps_identityMap fuel pd address size.toNat w' hw'
  | createUserPageDirectory =>
    exact Safe.bind (keeps_createUserPageDirectory L fuel w' hw') fun _ _ h => h
  | setScheduler enabled => exact keeps_rest (by trivial) w' hw'

/-! ## Exclusion -/

/-- No call is in progress, and nothing has been found or given out. -/
structure Start (p : Tasks) : Prop where
  idle : p.Idle
  found : ∀ t, p.state.found t = []
  handed : p.state.handed = []

/-- At the start nothing has been found. -/
theorem Start.rest {p : Tasks} (h : Start p) : Rest p.state := by
  refine ⟨h.found, ?_, fun f hf => ?_⟩
  · rw [h.handed]
    exact List.nodup_nil
  · rw [h.handed] at hf
    exact absurd hf List.not_mem_nil

/-- Where `memoryMap` is called only while no switch can come, and `VirtualMap` meets an empty
directory entry only while the scheduler is disabled, the calls of different tasks exclude each
other, in any order of their steps and with a switch wherever interrupts and the scheduler allow
one. -/
theorem calls_exclude_each_other (L : Layout) (fuel : ℕ) {p p' : Tasks} (hstart : Start p)
    (hrun : Relation.ReflTransGen
      ((system L fuel).ProperStep Call.Admits World.Proper) p p') :
    Exclusive L fuel p' := by
  have hinv : Inv p'.running p'.state := System.invariant (S := system L fuel)
    (fun c _ _ _ hadmits hw hrely => safe_call L fuel c hadmits hw hrely)
    (fun _ _ h hopen => h.rest_of_nil (h.acted hopen)) (fun t _ hw => hw.inv t)
    (fun t _ hw => hw.enter t) hstart.idle hstart.rest hrun
  refine ⟨hinv.nodup, fun a p'' _ t ht c hc => ?_⟩
  rw [hinv.other t ht] at hc
  exact absurd hc List.not_mem_nil

/-! ### Two calls of `memoryMap` -/

/-- Every frame is used but page 1. -/
def pageOneFree : Bitmap := ⟨fun i => if i = 0 then 0xFD#8 else 0xFF#8⟩

/-- Two tasks in the directory `0x100`, and nothing called yet. -/
def twoCallers : Tasks where
  state :=
    { machine := { directoryMachine (fun _ _ => 0) pageOneFree with interrupts := true, cr3 := 0x100 }
      schedulerEnabled := true
      directory := fun _ => 0x100
      handed := []
      found := fun _ => [] }
  running := 0
  todo := fun _ => .done ()

/-- A page at 1 GiB. -/
def mapOne : System.Action ℕ Call := .call (.memoryMap 0x100 0x40000000 0x1000#32 false)

/-- Task 0 finds page 1 free, and the timer switches to task 1, which finds it free, too. -/
theorem memoryMap_gives_frame_twice :
    ∃ p, Relation.ReflTransGen (system minimalLayout 2).Step twoCallers p ∧
      ¬ Exclusive minimalLayout 2 p := by
  obtain ⟨p, hp, hhanded⟩ : ∃ p, [mapOne, .op, .op, .op, .op, .switch 1,
      mapOne, .op, .op, .op, .op].foldlM (system minimalLayout 2).next twoCallers = some p ∧
      p.state.handed = [1, 1] := ⟨_, rfl, rfl⟩
  refine ⟨p, Run.reaches_of_foldlM (fun _ a _ h => ⟨a, h⟩) _ hp, fun h => ?_⟩
  have hnodup := h.1
  rw [hhanded] at hnodup
  exact absurd hnodup (by decide)

/-- Every frame is used but pages 1 and 2. -/
def pagesTwoFree : Bitmap := ⟨fun i => if i = 0 then 0xF9#8 else 0xFF#8⟩

/-- The two tasks, with a page for each of them. -/
def twoAllocators : Tasks where
  state :=
    { machine :=
        { directoryMachine (fun _ _ => 0) pagesTwoFree with interrupts := true, cr3 := 0x100 }
      schedulerEnabled := true
      directory := fun _ => 0x100
      handed := []
      found := fun _ => [] }
  running := 0
  todo := fun _ => .done ()

/-- A page for the kernel. -/
def allocateOne : System.Action ℕ Call := .call (.memoryAllocate 0x100 0x1000#32 false)

/-- Task 0 calls, and the timer switches to task 1 before the section is entered. Task 1 gets to the
end of its own, where the timer switches back. -/
def alternating : List (System.Action ℕ Call) :=
  [allocateOne, .switch 1, allocateOne] ++ List.replicate 12 .op ++
    .switch 0 :: List.replicate 13 .op

/-- They get a page each. -/
theorem calls_exclude_each_other_two :
    ∃ p, Relation.ReflTransGen
        ((system minimalLayout 2).ProperStep Call.Admits World.Proper) twoAllocators p ∧
      p.state.handed = [2, 1] ∧ Exclusive minimalLayout 2 p := by
  have hends : (alternating.foldlM ((system minimalLayout 2).properNext Call.Admits World.Proper)
      twoAllocators).map (fun p => p.state.handed) = some [2, 1] := by decide +kernel
  obtain ⟨p, hp, hhanded⟩ := Option.map_eq_some_iff.mp hends
  have hrun := Run.reaches_of_foldlM System.properStep_of_properNext _ hp
  have hstart : Start twoAllocators := ⟨fun _ => rfl, fun _ => rfl, rfl⟩
  exact ⟨p, hrun, hhanded, calls_exclude_each_other minimalLayout 2 hstart hrun⟩

end Stepwise

end Sakura.MemoryManager
