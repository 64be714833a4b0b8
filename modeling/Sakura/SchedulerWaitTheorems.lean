import Sakura.SleepTheorems

/-!
# How long a task waits

`goToNextTask` brings every eligible task nearer that it does not select, and `taskStart` puts it
back by one at most. So an eligible task is selected within one more call of `schedule` than tasks
have been started (`waits_at_most`), and a sleep of `sleepMs` ends within `sleepMs` and that many
ticks (`sleep_ends`).
-/

namespace Sakura.Scheduler

open TaskRef (mainTask)
open I386 (Word)

/-- How often a run gets to `schedule`. -/
def scheduled (es : List Event) : ℕ := es.countP fun e => e.call.starts.isNone

def Call.isTick : Call → Bool
  | .tick => true
  | _ => false

/-- How many ticks come in a run. -/
def ticks (es : List Event) : ℕ := es.countP fun e => e.call.isTick

section

variable {s s' s₁ : Scheduler} {ts l : List TaskRef} {v : TaskRef} {e : Event} {c : Call} {wake : ℕ}

theorem scheduled_cons (e : Event) (es : List Event) :
    scheduled (e :: es) = scheduled es + if e.call.starts.isNone then 1 else 0 :=
  List.countP_cons

theorem ticks_cons (e : Event) (es : List Event) :
    ticks (e :: es) = ticks es + if e.call.isTick then 1 else 0 :=
  List.countP_cons

theorem started_append (es es' : List Event) : started (es ++ es') = started es ++ started es' :=
  List.filterMap_append

/-! ## Places -/

theorem Walk.idxOf_le (hw : Walk s ts l) (hv : v ∈ mainTask :: ts) : l.idxOf v ≤ ts.length := by
  have hlength : l.length = ts.length + 1 := hw.rotated.perm.length_eq
  have hlt := List.idxOf_lt_length_iff.mpr (hw.mem_iff.mpr hv)
  omega

/-- What a step that does not select `v` does to the place of `v`. -/
theorem place_step (h : Ring s ts) (hts : ts ≠ []) (hen : s.schedulerEnabled = true)
    (hw : Walk s ts l) (hv : v ∈ mainTask :: ts)
    (hfresh : (mainTask :: (ts ++ e.call.starts.toList)).Nodup) (hstep : Step s e s')
    (hsel : e.selected ≠ some v) :
    ∃ l', Walk s' (ts ++ e.call.starts.toList) l' ∧
      (e.call.starts.isNone = false → l'.idxOf v ≤ l.idxOf v + 1) ∧
      ∀ s₁, e.call.atSchedule s = some s₁ → s₁.eligible v = true → l'.idxOf v < l.idxOf v := by
  obtain ⟨task, entry, tail, hcall, -, -, hst⟩ | ⟨s₁, fuel, cpu, hat, hexec⟩ := step_cases h hstep
  · obtain ⟨a, b, rfl, hw'⟩ := hw.started hst
    rw [hcall] at hfresh ⊢
    refine ⟨_, hw', fun _ => ?_, fun s₁ hat => absurd hat (by simp [Call.atSchedule])⟩
    have hne : task ≠ v := by
      rintro rfl
      rw [← List.cons_append] at hfresh
      exact (List.nodup_append.mp hfresh).2.2 _ hv _ (by simp [Call.starts]) rfl
    exact RoundRobin.idxOf_join hne
  · have hstarts := atSchedule_starts hat
    rw [hstarts, Option.toList_none, List.append_nil]
    have hw₁ := hw.atSchedule hat
    have hen₁ : s₁.schedulerEnabled = true := (Call.atSchedule_frame hat).2.2.2.trans hen
    obtain ⟨-, -, hts' | hdis⟩ | ⟨r, t, l', -, -, -, hpicked, rfl, hpick⟩ :=
      schedule_cases (h.atSchedule hat) hw₁ hexec
    · exact absurd hts' hts
    · rw [hen₁] at hdis
      cases hdis
    · refine ⟨l', hw₁.switchTo hpick, fun hsome => absurd hsome (by simp), fun s₂ hat₂ hel => ?_⟩
      obtain rfl := Option.some.inj (hat.symm.trans hat₂)
      refine RoundRobin.idxOf_pick (hw.mem_iff.mpr hv) hel hpick ?_
      rintro rfl
      exact hsel hpicked

/-! ## A task that is eligible -/

theorem waits_run {es : List Event} (hrun : Run.Trace Step s es s') (h : Ring s ts) (hts : ts ≠ [])
    (hen : s.schedulerEnabled = true) (hw : Walk s ts l) (hv : v ∈ mainTask :: ts)
    (hfresh : (mainTask :: (ts ++ started es)).Nodup)
    (hready : ∀ e ∈ es, ∀ s₁, e.call.atSchedule e.before = some s₁ → s₁.eligible v = true)
    (hsel : ∀ e ∈ es, e.selected ≠ some v) :
    scheduled es ≤ l.idxOf v + (started es).length := by
  induction hrun generalizing ts l with
  | nil s => exact Nat.zero_le _
  | @cons s s₁ s' e es hstep _ ih =>
    have hready' := hready e (by simp)
    rw [hstep.1] at hready'
    rw [started_cons, ← List.append_assoc] at hfresh
    have hfresh' : (mainTask :: (ts ++ e.call.starts.toList)).Nodup := by
      rw [← List.cons_append] at hfresh
      exact hfresh.of_append_left
    obtain ⟨l', hw', hjoin, hpick⟩ :=
      place_step h hts hen hw hv hfresh' hstep (hsel e (by simp))
    have hrest := ih (h.step hstep hfresh') (by simp [hts]) (awake_step h hen hstep).2 hw'
      (by rw [← List.cons_append]; exact List.mem_append_left _ hv) hfresh
      (fun e he => hready e (by simp [he])) fun e he => hsel e (by simp [he])
    rw [scheduled_cons, started_cons, List.length_append]
    obtain ⟨task, entry, -, hcall, -⟩ | ⟨s₂, -, -, hat, -⟩ := step_cases h hstep
    · have hplace := hjoin (by rw [hcall]; rfl)
      rw [hcall, Call.starts, Option.toList_some, List.length_singleton, Option.isNone_some,
        if_neg Bool.false_ne_true]
      omega
    · have hplace := hpick s₂ hat (hready' s₂ hat)
      rw [atSchedule_starts hat, Option.isNone_none, if_pos rfl]
      omega

/-! ## A task that sleeps -/

/-- The task `v` sleeps until the clock is past `wake`. -/
structure Asleep (s : Scheduler) (v : TaskRef) (wake : ℕ) : Prop where
  state : (s.tasks v).state = .sleep
  wakeupTime : (s.tasks v).wakeupTime.toNat = wake
  runningTask : s.runningTask ≠ some v

theorem Asleep.eligible_iff (h : Asleep s v wake) : s.eligible v = true ↔ wake < s.timeMs.toNat := by
  simp [eligible, h.state, UInt64.lt_iff_toNat_lt, h.wakeupTime]

theorem Asleep.atSchedule (h : Asleep s v wake) (hc : c.atSchedule s = some s₁) :
    Asleep s₁ v wake ∧ s₁.timeMs = if c.isTick then s.timeMs + 1 else s.timeMs := by
  cases c with
  | taskStart task entry => cases hc
  | schedule => cases hc; exact ⟨h, rfl⟩
  | tick => cases hc; exact ⟨⟨h.state, h.wakeupTime, h.runningTask⟩, rfl⟩
  | sleep sleepMs =>
    obtain ⟨r, hr, rfl⟩ := Option.map_eq_some_iff.mp hc
    have hne : v ≠ r := by
      rintro rfl
      exact h.runningTask hr
    have htask : (s.fallAsleep sleepMs r).tasks v = s.tasks v := if_neg hne
    exact ⟨⟨htask ▸ h.state, htask ▸ h.wakeupTime, h.runningTask⟩, rfl⟩

/-- It sleeps on in a step that does not select it. -/
theorem Asleep.step (h : Asleep s v wake) (hring : Ring s ts) (hv : v ∈ mainTask :: ts)
    (hfresh : (mainTask :: (ts ++ e.call.starts.toList)).Nodup) (hstep : Step s e s')
    (hsel : e.selected ≠ some v) :
    Asleep s' v wake ∧ s'.timeMs = if e.call.isTick then s.timeMs + 1 else s.timeMs := by
  obtain ⟨task, entry, tail, hcall, -, -, hst⟩ | ⟨s₁, fuel, cpu, hat, hexec⟩ :=
    step_cases hring hstep
  · rw [hcall] at hfresh ⊢
    have hne : v ≠ task := by
      rintro rfl
      rw [← List.cons_append] at hfresh
      exact (List.nodup_append.mp hfresh).2.2 _ hv _ (by simp [Call.starts]) rfl
    refine ⟨⟨?_, ?_, ?_⟩, hst.timeMs⟩
    · rw [hst.state, if_neg hne, h.state]
    · rw [hst.wakeupTime, h.wakeupTime]
    · rw [hst.runningTask]
      exact h.runningTask
  · obtain ⟨h₁, htime⟩ := h.atSchedule hat
    obtain ⟨l, hw⟩ := (hring.atSchedule hat).exists_walk
    obtain ⟨-, rfl, -⟩ | ⟨r, t, l', -, -, -, hpicked, rfl, -⟩ :=
      schedule_cases (hring.atSchedule hat) hw hexec
    · exact ⟨h₁, htime⟩
    · have hne : v ≠ t := by
        rintro rfl
        exact hsel hpicked
      refine ⟨⟨?_, ?_, ?_⟩, htime⟩
      · rw [switchTo_state, if_neg hne, h₁.state]
      · rw [Threads.switchTo_wakeupTime, h₁.wakeupTime]
      · rw [switchTo_runningTask]
        simpa using hne.symm

/-- What there is to come before a sleeper on the ring `ts` is selected: the ticks until it is
eligible, with the whole ring after them, or its place. -/
def toCome (s : Scheduler) (ts l : List TaskRef) (v : TaskRef) (wake : ℕ) : ℕ :=
  if wake < s.timeMs.toNat then l.idxOf v else wake - s.timeMs.toNat + ts.length

theorem sleep_run {es : List Event} (hrun : Run.Trace Step s es s') (h : Ring s ts) (hts : ts ≠ [])
    (hen : s.schedulerEnabled = true) (hw : Walk s ts l) (hv : v ∈ mainTask :: ts)
    (hasleep : Asleep s v wake) (hfresh : (mainTask :: (ts ++ started es)).Nodup)
    (hclock : s.timeMs.toNat + ticks es < 2 ^ 64) (hsel : ∀ e ∈ es, e.selected ≠ some v) :
    ticks es ≤ toCome s ts l v wake + (started es).length := by
  induction hrun generalizing ts l with
  | nil s => exact Nat.zero_le _
  | @cons s s₁ s' e es hstep _ ih =>
    rw [started_cons, ← List.append_assoc] at hfresh
    have hfresh' : (mainTask :: (ts ++ e.call.starts.toList)).Nodup := by
      rw [← List.cons_append] at hfresh
      exact hfresh.of_append_left
    obtain ⟨l', hw', hjoin, hpick⟩ :=
      place_step h hts hen hw hv hfresh' hstep (hsel e (by simp))
    obtain ⟨hasleep', htime⟩ := hasleep.step h hv hfresh' hstep (hsel e (by simp))
    have hv' : v ∈ mainTask :: (ts ++ e.call.starts.toList) := by
      rw [← List.cons_append]
      exact List.mem_append_left _ hv
    have hplace := hw.idxOf_le hv
    rw [ticks_cons] at hclock ⊢
    have htime' : s₁.timeMs.toNat = s.timeMs.toNat + if e.call.isTick then 1 else 0 := by
      rw [htime]
      split_ifs with htick
      · rw [if_pos htick] at hclock
        rw [UInt64.toNat_add, UInt64.toNat_one]
        exact Nat.mod_eq_of_lt (by omega)
      · rfl
    have hrest := ih (h.step hstep hfresh') (by simp [hts]) (awake_step h hen hstep).2 hw' hv'
      hasleep' hfresh (by omega) fun e he => hsel e (by simp [he])
    rw [started_cons, List.length_append]
    rw [toCome] at hrest ⊢
    obtain ⟨task, entry, -, hcall, -⟩ | ⟨s₂, -, -, hat, -⟩ := step_cases h hstep
    · -- A start lengthens the ring, and the clock stands still.
      have hjoin := hjoin (by rw [hcall]; rfl)
      simp only [hcall, Call.isTick, Call.starts, Option.toList_some, List.length_append,
        List.length_singleton, Bool.false_eq_true, if_false] at htime' hrest ⊢
      split_ifs at htime' hrest ⊢ <;> omega
    · -- Where the clock gets past `wake` in this tick, the sleeper is eligible at once.
      obtain ⟨hasleep₂, htime₂⟩ := hasleep.atSchedule hat
      have hnearer : wake < s₁.timeMs.toNat → l'.idxOf v < l.idxOf v := by
        intro hwake
        exact hpick s₂ hat (hasleep₂.eligible_iff.mpr (by rw [htime₂, ← htime]; exact hwake))
      rw [atSchedule_starts hat, Option.toList_none, List.append_nil] at hrest
      rw [atSchedule_starts hat, Option.toList_none, List.length_nil]
      split_ifs at htime' hrest ⊢ <;> omega

end

/-- However often other tasks fall asleep, wake up or are started, an eligible task is selected
within one more call of `schedule` than tasks have been started. -/
theorem waits_at_most (memory : ℕ → Task) (cr3 eflags : Word) {v : TaskRef} {es es' : List Event}
    {s s' : Scheduler} (hfresh : (mainTask :: started (es ++ es')).Nodup)
    (hrun : Run.Trace Step ((boot memory).start cr3 eflags) es s) (hstarted : started es ≠ [])
    (hring : v ∈ mainTask :: started es) (hafter : Run.Trace Step s es' s')
    (heligible : ∀ e ∈ es', ∀ s₁, e.call.atSchedule e.before = some s₁ → s₁.eligible v = true)
    (hmany : (started (es ++ es')).length < scheduled es') : ∃ e ∈ es', e.selected = some v := by
  rw [started_append] at hfresh hmany
  have h₀ := ring_start memory cr3 eflags
  have hfresh' : (mainTask :: started es).Nodup := by
    rw [← List.cons_append] at hfresh
    exact hfresh.of_append_left
  have h : Ring s (started es) := ring_run h₀ hrun hfresh'
  obtain ⟨-, hen⟩ := awake_run hrun h₀ rfl (fun hne => absurd rfl hne) hfresh'
  obtain ⟨l, hw⟩ := h.exists_walk
  by_contra hnone
  push Not at hnone
  have hwait := waits_run hafter h hstarted hen hw hring hfresh heligible hnone
  have hplace := hw.idxOf_le hring
  rw [List.length_append] at hmany
  omega

/-- With one task started, two calls of `schedule` are enough. -/
theorem waits_at_most_two :
    ∃ start first second s', runCalls 3 resetRegisters ((boot zeroed).start 0 0)
        [.taskStart (.heap 0) 0, .tick, .tick] = .ok ([start, first, second], s') ∧
      ∃ e ∈ [first, second], e.selected = some (.heap 0) := by
  refine ⟨_, _, _, _, rfl, ?_⟩
  have htrace := (trace_of_runCalls _ (show runCalls 3 resetRegisters
    ((boot zeroed).start 0 0) [.taskStart (.heap 0) 0, .tick, .tick] = .ok (_, _) from rfl)).1
  cases htrace with
  | cons hstart hafter =>
    refine waits_at_most zeroed 0 0 (by decide) (.cons hstart (.nil _)) (by decide) (by decide)
      hafter ?_ (by decide)
    intro e he s₁ hs₁
    simp only [List.mem_cons, List.not_mem_nil, or_false] at he
    rcases he with rfl | rfl <;> cases hs₁ <;> rfl

/-- Whatever the other tasks do, a task that calls `sleep` is selected again within `sleepMs`
ticks and as many as tasks have been started, and one. -/
theorem sleep_ends (memory : ℕ → Task) (cr3 eflags : Word) {v : TaskRef} {sleepMs : UInt64}
    {es es' : List Event} {sleeping : Event} {s s₁ s' : Scheduler}
    (hfresh : (mainTask :: started (es ++ es')).Nodup)
    (hrun : Run.Trace Step ((boot memory).start cr3 eflags) es s) (hstarted : started es ≠ [])
    (hrunning : s.runningTask = some v) (hcall : sleeping.call = .sleep sleepMs)
    (hsleep : Step s sleeping s₁) (hafter : Run.Trace Step s₁ es' s')
    (hclock : s.timeMs.toNat + ticks es' < 2 ^ 64)
    (hmany : sleepMs.toNat + (started (es ++ es')).length < ticks es') :
    ∃ e ∈ es', e.selected = some v := by
  rw [started_append] at hfresh hmany
  rw [List.length_append] at hmany
  have h₀ := ring_start memory cr3 eflags
  have hfresh' : (mainTask :: started es).Nodup := by
    rw [← List.cons_append] at hfresh
    exact hfresh.of_append_left
  have h : Ring s (started es) := ring_run h₀ hrun hfresh'
  obtain ⟨-, hen⟩ := awake_run hrun h₀ rfl (fun hne => absurd rfl hne) hfresh'
  have hring : v ∈ mainTask :: started es := by
    obtain ⟨r, hmem, hr⟩ := h.running
    obtain rfl := Option.some.inj (hrunning.symm.trans hr)
    exact hmem
  obtain ⟨-, fuel, cpu, hexec⟩ := hsleep
  have hat : sleeping.call.atSchedule s = some (s.fallAsleep sleepMs v) := by
    rw [hcall, Call.atSchedule, hrunning, Option.map_some]
  rw [Call.exec_atSchedule hat] at hexec
  obtain ⟨l, hw⟩ := (h.atSchedule hat).exists_walk
  obtain ⟨-, -, hts | hdis⟩ | ⟨r, t, l', -, -, hr, -, rfl, hpick⟩ :=
    schedule_cases (h.atSchedule hat) hw hexec
  · exact absurd hts hstarted
  · rw [fallAsleep_schedulerEnabled, hen] at hdis
    cases hdis
  · -- The sleeper is not eligible, so another task is selected.
    have hwake : (s.timeMs + sleepMs).toNat = s.timeMs.toNat + sleepMs.toNat := by
      rw [UInt64.toNat_add]
      exact Nat.mod_eq_of_lt (by omega)
    obtain ⟨-, -, -, -, hel, -⟩ := RoundRobin.pick_eq_some hpick
    have hne : v ≠ t := by
      rintro rfl
      rw [eligible_fallAsleep, if_pos rfl] at hel
      omega
    have hasleep : Asleep ((s.fallAsleep sleepMs v).switchTo cpu r t) v
        (s.timeMs.toNat + sleepMs.toNat) := by
      refine ⟨?_, ?_, ?_⟩
      · rw [switchTo_state, if_neg hne, fallAsleep, modify_tasks, if_pos rfl]
      · rw [Threads.switchTo_wakeupTime, fallAsleep, modify_tasks, if_pos rfl]
        exact hwake
      · rw [switchTo_runningTask]
        simpa using hne.symm
    by_contra hnone
    push Not at hnone
    have hwait := sleep_run hafter ((h.atSchedule hat).switchTo
      (hw.mem_iff.mp (RoundRobin.mem_pick hpick))) hstarted hen (hw.switchTo hpick) hring hasleep
      hfresh hclock hnone
    have htime : ((s.fallAsleep sleepMs v).switchTo cpu r t).timeMs = s.timeMs := rfl
    rw [toCome, htime, if_neg (by omega)] at hwait
    omega

/-- A task that sleeps for a tick is back three ticks later. -/
theorem sleep_ends_one :
    ∃ start tick sleeping es' s', runCalls 3 resetRegisters ((boot zeroed).start 0 0)
        [.taskStart (.heap 0) 0, .tick, .sleep 1, .tick, .tick, .tick] =
        .ok (start :: tick :: sleeping :: es', s') ∧
      ∃ e ∈ es', e.selected = some (.heap 0) := by
  refine ⟨_, _, _, _, _, rfl, ?_⟩
  have htrace := (trace_of_runCalls _ (show runCalls 3 resetRegisters ((boot zeroed).start 0 0)
    [.taskStart (.heap 0) 0, .tick, .sleep 1, .tick, .tick, .tick] = .ok (_, _) from rfl)).1
  cases htrace with
  | cons hstart htrace =>
    cases htrace with
    | cons htick htrace =>
      cases htrace with
      | cons hsleep hafter =>
        obtain rfl := hsleep.1
        exact sleep_ends zeroed 0 0 (by decide) (.cons hstart (.cons htick (.nil _))) (by decide)
          rfl rfl hsleep hafter (by decide) (by decide)

end Sakura.Scheduler
