import Sakura.Sections
import Sakura.SchedulerRunTheorems

/-!
# What a section keeps out

As long as no key is pressed inside a section, no call of `schedule` switches tasks there
(`section_not_preempted`). A key opens the section (`key_opens`), and the next tick can leave it
(`key_preempts`).
-/

namespace Sakura.SectionState

open Libk Devices Scheduler

open TaskRef (mainTask)

section

variable {beyond : ℕ → BitVec 8} {s s' : SectionState} {a : Action} {selected : Option TaskRef}

/-- Releasing a key changes nothing; pressing one ends with the scheduler enabled. -/
theorem irqCallback_cases {scheduler : Scheduler}
    {b b' : RingBuffer (BitVec 8) keyboardRingbufSize} {keycode : BitVec 8} {t : Scheduler}
    (h : Keyboard.irqCallback beyond scheduler b keycode = some (t, b')) :
    (¬ Keyboard.Pressed keycode ∧ t = scheduler) ∨
      (Keyboard.Pressed keycode ∧ t = scheduler.disable.enable) := by
  rw [Keyboard.irqCallback] at h
  by_cases hp : Keyboard.Pressed keycode
  · rw [if_pos hp] at h
    obtain ⟨⟨pushed, b''⟩, -, heq⟩ := Option.map_eq_some_iff.mp h
    exact Or.inr ⟨hp, (Prod.mk.inj heq).1.symm⟩
  · rw [if_neg hp] at h
    exact Or.inl ⟨hp, (Prod.mk.inj (Option.some.inj h)).1.symm⟩

/-- A disabled scheduler stays where it is when the timer ticks. -/
theorem tick_disabled {scheduler t : Scheduler} {fuel : ℕ} {cpu : TaskRegisters}
    (hdis : scheduler.schedulerEnabled = false)
    (h : Scheduler.Call.tick.exec fuel cpu scheduler = .ok (selected, t)) :
    selected = none ∧ t = scheduler.countTick := by
  have hexec : Scheduler.Call.tick.exec fuel cpu scheduler = .ok (none, scheduler.countTick) :=
    Scheduler.schedule_disabled (s := scheduler.countTick) hdis fuel cpu
  rw [hexec] at h
  obtain ⟨rfl, rfl⟩ := Prod.mk.inj (Except.ok.inj h)
  exact ⟨rfl, rfl⟩

/-- Nothing is selected while a task is in a section. -/
theorem Exclusive.none_selected (h : Exclusive s) {t : TaskRef} (ht : s.inside t = true)
    (hstep : Step beyond s a selected s') : selected = none := by
  obtain ⟨hrun, hdis⟩ := h t ht
  cases hstep with
  | @call r c fuel cpu _ scheduler hr hc hexec =>
    rcases hc with rfl | hout
    · exact (tick_disabled hdis hexec).1
    · rw [hrun] at hr
      rw [Option.some.inj hr, hout] at ht
      exact absurd ht (by decide)
  | _ => rfl

theorem exclusive_step (h : Exclusive s) (hquiet : s.Quiet a) (hstep : Step beyond s a selected s') :
    Exclusive s' := by
  cases hstep with
  | @disable r hr hout =>
    intro t ht
    have htr : t = r := by
      by_contra hne
      have hin : s.inside t = true := by simpa [setInside, hne] using ht
      exact hne (Option.some.inj ((h t hin).1.symm.trans hr))
    exact ⟨htr ▸ hr, rfl⟩
  | @enable r hr hin =>
    intro t ht
    have hne : t ≠ r := by
      rintro rfl
      simp [setInside] at ht
    have ht' : s.inside t = true := by simpa [setInside, hne] using ht
    exact absurd (Option.some.inj ((h t ht').1.symm.trans hr)) hne
  | body => exact h
  | @call r c fuel cpu _ scheduler hr hc hexec =>
    intro t ht
    obtain ⟨hrun, hdis⟩ := h t ht
    rcases hc with rfl | hout
    · -- a tick in a section does not schedule
      obtain ⟨-, rfl⟩ := tick_disabled hdis hexec
      exact ⟨hrun, hdis⟩
    · rw [hrun] at hr
      rw [show s.inside r = true from Option.some.inj hr ▸ ht] at hout
      exact absurd hout (by decide)
  | @key keycode scheduler ringbuffer hirq =>
    intro t ht
    rcases irqCallback_cases hirq with ⟨-, rfl⟩ | ⟨hp, -⟩
    · exact h t ht
    · rw [hquiet hp t] at ht
      exact absurd ht (by decide)

/-- A key pressed in a section enables the scheduler. -/
theorem key_opens {keycode : BitVec 8} (hp : Keyboard.Pressed keycode)
    (hstep : Step beyond s (.key keycode) selected s') : s'.scheduler.schedulerEnabled = true := by
  cases hstep with
  | key hirq =>
    rcases irqCallback_cases hirq with ⟨hnot, -⟩ | ⟨-, rfl⟩
    · exact absurd hp hnot
    · rfl

end

/-- No section is preempted, whatever was started before and whoever runs. -/
theorem section_not_preempted (beyond : ℕ → BitVec 8) {s₀ s s' : SectionState} {a : Action}
    {selected : Option TaskRef} (h₀ : ∀ t, s₀.inside t = false)
    (hrun : Relation.ReflTransGen (QuietStep beyond) s₀ s) (hstep : Step beyond s a selected s')
    {t : TaskRef} (ht : s.inside t = true) : selected = none := by
  have hinit : Exclusive s₀ := by
    intro t ht
    rw [h₀ t] at ht
    exact absurd ht (by decide)
  have hinv := Run.invariant hrun hinit fun _ _ h ⟨_, _, hquiet, hstep⟩ =>
    exclusive_step h hquiet hstep
  exact Exclusive.none_selected hinv ht hstep

/-- After `Scheduler::start`, with nothing typed. -/
def initial : SectionState where
  scheduler := (boot zeroed).start 0 0
  ringbuffer := .new (Vector.replicate _ 0)
  inside := fun _ => false

/-- `mainTask` has started another task and is in a section. -/
def inSection : SectionState :=
  let s := initial
  let s := { s with scheduler := (s.scheduler.taskStart (.heap 0) 0).toOption.getD s.scheduler }
  s.setInside mainTask true s.scheduler.disable

theorem initial_start : Step (fun _ => 0) initial (.call (.taskStart (.heap 0) 0)) none
    { initial with
      scheduler := (initial.scheduler.taskStart (.heap 0) 0).toOption.getD initial.scheduler } :=
  .call rfl (.inr rfl) (show Scheduler.Call.exec 0 resetRegisters _ _ = _ from rfl)

theorem initial_disable : Step (fun _ => 0)
    { initial with
      scheduler := (initial.scheduler.taskStart (.heap 0) 0).toOption.getD initial.scheduler }
    .disable none inSection :=
  .disable rfl rfl

/-- The timer finds `mainTask` in its section and leaves it there. -/
theorem section_not_preempted_tick :
    ∃ selected s', Step (fun _ => 0) inSection (.call .tick) selected s' ∧ selected = none := by
  have hrun : Relation.ReflTransGen (QuietStep fun _ => 0) initial inSection :=
    .tail (.single ⟨.call (.taskStart (.heap 0) 0), _, trivial, initial_start⟩)
      ⟨.disable, _, trivial, initial_disable⟩
  have hstep : Step (fun _ => 0) inSection (.call .tick) none
      { inSection with scheduler := inSection.scheduler.countTick } :=
    .call rfl (.inl rfl) (show Scheduler.Call.exec 0 resetRegisters _ _ = _ from rfl)
  exact ⟨_, _, hstep, section_not_preempted _ (fun _ => rfl) hrun hstep (t := mainTask) rfl⟩

/-- The key A pressed in a section, and the next tick switches to the other task. -/
theorem key_preempts :
    ∃ s s', Relation.ReflTransGen (fun s s' => ∃ a selected, Step (fun _ => 0) s a selected s')
        initial s ∧
      s.inside mainTask = true ∧ Step (fun _ => 0) s (.call .tick) (some (.heap 0)) s' := by
  obtain ⟨b, hkey⟩ : ∃ b, Keyboard.irqCallback (fun _ => 0) inSection.scheduler
      inSection.ringbuffer 0x1E = some (inSection.scheduler.disable.enable, b) := ⟨_, rfl⟩
  have hpressed : Step (fun _ => 0) inSection (.key 0x1E) none
      { inSection with scheduler := inSection.scheduler.disable.enable, ringbuffer := b } :=
    .key hkey
  obtain ⟨t, htick⟩ : ∃ t, Call.tick.exec 3 resetRegisters inSection.scheduler.disable.enable =
      .ok (some (.heap 0), t) := ⟨_, rfl⟩
  have hrun := Relation.ReflTransGen.single (r := fun s s' => ∃ a selected,
    Step (fun _ => 0) s a selected s') ⟨_, _, initial_start⟩
  exact ⟨_, _, (hrun.tail ⟨_, _, initial_disable⟩).tail ⟨_, _, hpressed⟩, rfl,
    .call rfl (.inl rfl) htick⟩

end Sakura.SectionState
