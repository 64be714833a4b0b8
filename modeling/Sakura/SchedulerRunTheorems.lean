import Sakura.SchedulerTheorems

/-!
# Runs of the scheduler

What holds after any sequence of calls. The list stays the ring of the tasks that have been
started (`ring_integrity`), and no eligible task is passed over (`no_task_bypassed`).

`schedule` does not always end. Some task of the ring is awake after every call, so a timer
tick between calls finds one; but a task that falls asleep when no other is eligible leaves
`goToNextTask` walking for ever (`schedule_ends_iff`, `all_asleep_spins`).
-/

namespace Sakura.Scheduler

open TaskRef (mainTask)
open I386 (Word)

/-! ## Running calls -/

/-- Makes the calls one after the other, with the same registers in the processor at each
switch. -/
def runCalls (fuel : ℕ) (cpu : TaskRegisters) :
    Scheduler → List Call → Except Stop (List Event × Scheduler)
  | s, [] => pure ([], s)
  | s, c :: cs => do
    let (selected, s') ← c.exec fuel cpu s
    let (es, s'') ← runCalls fuel cpu s' cs
    pure (⟨s, c, selected⟩ :: es, s'')

theorem trace_of_runCalls {fuel : ℕ} {cpu : TaskRegisters} (cs : List Call) :
    ∀ {s s' : Scheduler} {es : List Event}, runCalls fuel cpu s cs = .ok (es, s') →
      Run.Trace Step s es s' ∧ es.map Event.call = cs := by
  induction cs with
  | nil =>
    intro s s' es h
    obtain ⟨rfl, rfl⟩ := Prod.mk.inj (Except.ok.inj h)
    exact ⟨.nil s, rfl⟩
  | cons c cs ih =>
    intro s s' es h
    rw [runCalls] at h
    cases hexec : c.exec fuel cpu s with
    | error stop => rw [hexec] at h; cases h
    | ok r =>
      obtain ⟨selected, s₁⟩ := r
      cases hrest : runCalls fuel cpu s₁ cs with
      | error stop => simp only [hexec, hrest, bind, Except.bind] at h; cases h
      | ok r' =>
        obtain ⟨es', s₂⟩ := r'
        simp only [hexec, hrest, bind, Except.bind] at h
        obtain ⟨rfl, rfl⟩ := Prod.mk.inj (Except.ok.inj h)
        obtain ⟨htrace, hcalls⟩ := ih hrest
        exact ⟨.cons ⟨rfl, fuel, cpu, hexec⟩ htrace, by rw [List.map_cons, hcalls]⟩

/-- A heap of zeroed memory. -/
def zeroed : ℕ → Task := fun _ => ⟨⟨0, 0, 0, 0, 0, 0, 0, 0, 0, 0, 0⟩, none, 0, .none⟩

/-- The registers of a processor that has not run anything. -/
def resetRegisters : TaskRegisters := ⟨0, 0, 0, 0, 0, 0, 0, 0, 0, 0, 0⟩

/-! ## The ring -/

/-- The tasks met by following `next` from `t`, at most `n` times. -/
def follow (s : Scheduler) : ℕ → TaskRef → List TaskRef
  | 0, t => [t]
  | n + 1, t => t :: match (s.tasks t).next with
    | none => []
    | some t' => s.follow n t'

theorem follow_of_isChain {s : Scheduler} (l : List TaskRef) :
    ∀ {t : TaskRef}, List.IsChain s.Links (t :: l) → s.follow l.length t = t :: l := by
  induction l with
  | nil => intro t _; rfl
  | cons t' l ih =>
    intro t h
    rw [List.length_cons, follow, next_of_isChain h]
    simp only
    rw [ih (List.isChain_of_isChain_cons h)]

/-- After any calls `next` leads from `mainTask` through the tasks that were started, in that
order, and back; the last of them is the tail, and one of them runs. -/
theorem ring_integrity (memory : ℕ → Task) (cr3 eflags : Word) {es : List Event} {s : Scheduler}
    (hfresh : (mainTask :: started es).Nodup)
    (hrun : Run.Trace Step ((boot memory).start cr3 eflags) es s) :
    (started es ≠ [] →
      s.follow ((started es).length + 1) mainTask = mainTask :: (started es ++ [mainTask])) ∧
    s.taskTail = (mainTask :: started es).getLast? ∧
    (∃ r ∈ mainTask :: started es, s.runningTask = some r) ∧
    (started es = [] → (s.tasks mainTask).next = none ∧ s.runningTask = some mainTask ∧
      s.taskTail = some mainTask) := by
  have h : Ring s (started es) := ring_run (ring_start memory cr3 eflags) hrun hfresh
  refine ⟨fun hts => ?_, h.tail, h.running, fun hts => ?_⟩
  · have hchain := h.links hts
    rw [Cycle.chain_coe_cons] at hchain
    have hfollow := follow_of_isChain _ hchain
    rw [List.length_append, List.length_singleton] at hfollow
    exact hfollow
  · obtain ⟨r, hr, hrunning⟩ := h.running
    have htail := h.tail
    rw [hts] at hr htail
    rw [List.mem_singleton] at hr
    exact ⟨h.alone hts, hr ▸ hrunning, htail⟩

/-- Two tasks, a sleep and a tick. -/
theorem ring_integrity_two :
    ∃ es s, runCalls 3 resetRegisters ((boot zeroed).start 0 0)
        [.taskStart (.heap 0) 0, .sleep 5, .taskStart (.heap 1) 0, .tick] = .ok (es, s) ∧
      s.follow 3 mainTask = [mainTask, .heap 0, .heap 1, mainTask] ∧
      s.taskTail = some (.heap 1) := by
  refine ⟨_, _, rfl, ?_⟩
  have htrace := (trace_of_runCalls _ (show runCalls 3 resetRegisters
    ((boot zeroed).start 0 0) [.taskStart (.heap 0) 0, .sleep 5, .taskStart (.heap 1) 0, .tick]
      = .ok (_, _) from rfl)).1
  have h := ring_integrity zeroed 0 0 (by decide) htrace
  exact ⟨h.1 (by decide), h.2.1⟩

/-! ## The selection -/

/-- On a ring of two tasks or more, `goToNextTask` selects the first eligible task that the walk
from the running task meets, the running task last, and sets its state. -/
theorem goToNextTask_first (memory : ℕ → Task) (cr3 eflags : Word) {es : List Event}
    {built s : Scheduler} {running t : TaskRef} (hfresh : (mainTask :: started es).Nodup)
    (hstarted : started es ≠ [])
    (hrun : Run.Trace Step ((boot memory).start cr3 eflags) es built)
    (hring : ∀ x, (s.tasks x).next = (built.tasks x).next)
    (hrunning : s.runningTask = some running) (hmem : running ∈ mainTask :: started es)
    (ht : t ∈ mainTask :: started es) (he : s.eligible t = true) :
    ∃ l first, s.follow l.length running = running :: l ∧ l.getLast? = some running ∧
      l.Perm (mainTask :: started es) ∧ l.find? s.eligible = some first ∧
      ¬ ((s.tasks first).state = .sleep ∧ s.timeMs ≤ (s.tasks first).wakeupTime) ∧
      ∀ fuel, l.length ≤ fuel → s.goToNextTask fuel =
        .ok (some first, s.modify first fun task => { task with state := .running }) := by
  have hbuilt : Ring built (started es) := ring_run (ring_start memory cr3 eflags) hrun hfresh
  -- the links are those of the ring, whatever the statics are
  have h : Ring { s with taskTail := built.taskTail } (started es) :=
    hbuilt.congr hring rfl ⟨running, hmem, hrunning⟩
  obtain ⟨l, hw⟩ := h.exists_walk
  have hchain : List.IsChain s.Links (running :: l) := hw.chain h hstarted hrunning
  obtain ⟨first, hfind⟩ : ∃ first, l.find? s.eligible = some first :=
    Option.isSome_iff_exists.mp (List.find?_isSome.mpr ⟨t, hw.mem_iff.mpr ht, he⟩)
  obtain ⟨hfirst, passed, rest, hl, hpassed⟩ := List.find?_eq_some_iff_append.mp hfind
  refine ⟨l, first, follow_of_isChain l hchain, hw.running.symm.trans hrunning, hw.rotated.perm,
    hfind, ?_, ?_⟩
  · rintro ⟨hsleep, htime⟩
    simp [eligible, hsleep] at hfirst
    exact absurd hfirst (by grind)
  · intro fuel hfuel
    rw [hl] at hchain
    have hlength : passed.length < fuel := by
      rw [hl, List.length_append, List.length_cons] at hfuel
      omega
    have hsearch : findTask s fuel (s.tasks running).next =
        if passed.length < fuel then .ok (some first) else .error .fuel :=
      findTask_eq hfirst passed hchain fun x hx => by simpa using hpassed x hx
    rw [if_pos hlength] at hsearch
    simp [goToNextTask, hrunning, deref, hsearch, bind, Except.bind, pure, Except.pure]

/-- Of two tasks the first is asleep and due in the next tick. -/
theorem goToNextTask_first_two :
    ∃ es built, runCalls 3 resetRegisters ((boot zeroed).start 0 0)
        [.taskStart (.heap 0) 0, .taskStart (.heap 1) 0] = .ok (es, built) ∧
      let s := (built.modify (.heap 0) fun task => { task with state := .sleep, wakeupTime := 5 })
      ∃ l first, s.follow l.length mainTask = mainTask :: l ∧ l.find? s.eligible = some first ∧
        ∀ fuel, l.length ≤ fuel → s.goToNextTask fuel =
          .ok (some first, s.modify first fun task => { task with state := .running }) := by
  refine ⟨_, _, rfl, ?_⟩
  intro s
  have htrace := (trace_of_runCalls _ (show runCalls 3 resetRegisters ((boot zeroed).start 0 0)
    [.taskStart (.heap 0) 0, .taskStart (.heap 1) 0] = .ok (_, _) from rfl)).1
  have hrunning : s.runningTask = some mainTask := rfl
  have hready : s.eligible (.heap 1) = true := rfl
  obtain ⟨l, first, hfollow, -, -, hfind, -, hgo⟩ := goToNextTask_first zeroed 0 0 (by decide)
    (by decide) htrace (by intro x; simp only [s, modify_tasks]; split <;> rfl) hrunning (by decide)
    (by decide) hready
  exact ⟨l, first, hfollow, hfind, hgo⟩

/-! ## No task is passed over -/

section

variable {s s' : Scheduler} {ts l : List TaskRef} {u v : TaskRef} {e : Event}

/-- A step that does not select an eligible task ahead of `u` does not select `u`, and the task
stays ahead. -/
theorem ahead_step (h : Ring s ts) (hw : Walk s ts l) (hahead : RoundRobin.Ahead v u l)
    (hstep : Step s e s')
    (hready : ∀ s₁, e.call.atSchedule s = some s₁ → s₁.eligible v = true)
    (hv : e.selected ≠ some v) :
    e.selected ≠ some u ∧
      ∃ l', Walk s' (ts ++ e.call.starts.toList) l' ∧ RoundRobin.Ahead v u l' := by
  obtain ⟨task, entry, tail, hcall, hsel, -, hst⟩ | ⟨s₁, fuel, cpu, hat, hexec⟩ :=
    step_cases h hstep
  · obtain ⟨a, b, rfl, hw'⟩ := hw.started hst
    rw [hcall]
    exact ⟨by rw [hsel]; simp, _, hw', hahead.join⟩
  · rw [atSchedule_starts hat, Option.toList_none, List.append_nil]
    have h₁ := h.atSchedule hat
    have hw₁ := hw.atSchedule hat
    obtain ⟨hsel, rfl, -⟩ | ⟨r, t, l', -, -, -, hsel, rfl, hpick⟩ := schedule_cases h₁ hw₁ hexec
    · exact ⟨by rw [hsel]; simp, l, hw₁, hahead⟩
    · obtain rfl | ⟨hne, hahead'⟩ := hahead.pick (hready s₁ hat) (hw.nodup h) hpick
      · exact absurd hsel hv
      · refine ⟨?_, l', hw₁.switchTo hpick, hahead'⟩
        rw [hsel]
        simpa using hne

/-- A run that does not select an eligible task ahead of `u` does not select `u`. -/
theorem ahead_run {es : List Event} (hrun : Run.Trace Step s es s') (h : Ring s ts)
    (hw : Walk s ts l) (hahead : RoundRobin.Ahead v u l)
    (hfresh : (mainTask :: (ts ++ started es)).Nodup)
    (hready : ∀ e ∈ es, ∀ s₁, e.call.atSchedule e.before = some s₁ → s₁.eligible v = true)
    (hv : ∀ e ∈ es, e.selected ≠ some v) : ∀ e ∈ es, e.selected ≠ some u := by
  induction hrun generalizing ts l with
  | nil s => simp
  | @cons s s₁ s' e es hstep _ ih =>
    have hready' := hready e (by simp)
    rw [hstep.1] at hready'
    obtain ⟨hu, l', hw', hahead'⟩ := ahead_step h hw hahead hstep hready' (hv e (by simp))
    rw [started_cons, ← List.append_assoc] at hfresh
    have hring' := h.step hstep (by rw [← List.cons_append] at hfresh; exact hfresh.of_append_left)
    have hrest := ih hring' hw' hahead' hfresh (fun e he => hready e (by simp [he]))
      fun e he => hv e (by simp [he])
    intro e' he'
    rcases List.mem_cons.mp he' with rfl | he'
    · exact hu
    · exact hrest e' he'

end

/-- Between two selections of `u` every task that is eligible whenever `schedule` is called is
selected. -/
theorem no_task_bypassed (memory : ℕ → Task) (cr3 eflags : Word) {u v : TaskRef}
    {es es' : List Event} {first second : Event} {s s₁ s' : Scheduler}
    (hfresh : (mainTask :: started (es ++ first :: es' ++ [second])).Nodup)
    (hrun : Run.Trace Step ((boot memory).start cr3 eflags) es s)
    (hfirst : Step s first s₁) (hu : first.selected = some u)
    (hbetween : Run.Trace Step s₁ (es' ++ [second]) s')
    (hu' : second.selected = some u)
    (hring : v ∈ mainTask :: started es) (hne : v ≠ u)
    (heligible : ∀ e ∈ es' ++ [second], ∀ s₂, e.call.atSchedule e.before = some s₂ →
      s₂.eligible v = true) :
    ∃ e ∈ es', e.selected = some v := by
  have hsplit : started (es ++ first :: es' ++ [second]) =
      started es ++ first.call.starts.toList ++ started (es' ++ [second]) := by
    cases hst : first.call.starts <;> simp [started, hst]
  rw [hsplit] at hfresh
  have hold := hfresh
  rw [← List.cons_append, ← List.cons_append] at hold
  have h : Ring s (started es) :=
    ring_run (ring_start memory cr3 eflags) hrun hold.of_append_left.of_append_left
  have h₁ := h.step hfirst hold.of_append_left
  obtain ⟨l, hw⟩ := h.exists_walk
  -- the first selection puts every other task ahead of `u`
  obtain ⟨l', hw', hahead⟩ : ∃ l', Walk s₁ (started es ++ first.call.starts.toList) l' ∧
      RoundRobin.Ahead v u l' := by
    obtain ⟨-, -, -, -, hsel, -⟩ | ⟨s₂, fuel, cpu, hat, hexec⟩ := step_cases h hfirst
    · rw [hsel] at hu
      cases hu
    · rw [atSchedule_starts hat, Option.toList_none, List.append_nil]
      have hw₂ := hw.atSchedule hat
      obtain ⟨hsel, -⟩ | ⟨r, t, l', -, -, -, hsel, rfl, hpick⟩ :=
        schedule_cases (h.atSchedule hat) hw₂ hexec
      · rw [hsel] at hu
        cases hu
      · rw [hsel] at hu
        obtain rfl := Option.some.inj hu
        exact ⟨l', hw₂.switchTo hpick,
          RoundRobin.ahead_of_picked hpick (hw.mem_iff.mpr hring) hne⟩
  by_contra hnone
  push Not at hnone
  have hsecond : second.selected ≠ some v := by
    rw [hu']
    simpa using hne.symm
  refine ahead_run hbetween h₁ hw' hahead hfresh heligible ?_ second (by simp) hu'
  intro e he
  rcases List.mem_append.mp he with he | he
  · exact hnone e he
  · rw [List.mem_singleton.mp he]
    exact hsecond

/-- Two tasks take turns. -/
theorem no_task_bypassed_two :
    ∃ start first between second s', runCalls 3 resetRegisters ((boot zeroed).start 0 0)
        [.taskStart (.heap 0) 0, .tick, .tick, .tick] =
        .ok ([start, first, between, second], s') ∧
      first.selected = some (.heap 0) ∧ second.selected = some (.heap 0) ∧
      between.selected = some mainTask := by
  refine ⟨_, _, _, _, _, rfl, rfl, rfl, ?_⟩
  have htrace := (trace_of_runCalls _ (show runCalls 3 resetRegisters
    ((boot zeroed).start 0 0) [.taskStart (.heap 0) 0, .tick, .tick, .tick] = .ok (_, _) from rfl)).1
  cases htrace with
  | cons hstart htrace =>
    cases htrace with
    | cons hfirst hbetween =>
      obtain ⟨e, he, hsel⟩ := no_task_bypassed zeroed 0 0 (v := mainTask) (u := .heap 0)
        (by decide) (.cons hstart (.nil _)) hfirst rfl
        (show Run.Trace Step _ ([_] ++ [_]) _ from hbetween) rfl (by decide)
        (by decide) (by
          intro e he s₂ hs₂
          simp only [List.singleton_append, List.mem_cons, List.not_mem_nil, or_false] at he
          rcases he with rfl | rfl <;> cases hs₂ <;> rfl)
      exact List.mem_singleton.mp he ▸ hsel

/-! ## Whether `schedule` ends -/

/-- The call of `schedule` comes to its end. -/
def ScheduleEnds (s : Scheduler) : Prop :=
  ∀ cpu, ∃ fuel r, schedule fuel cpu s = .ok r

/-- The tasks that `next` leads to from `mainTask`. -/
def OnRing (s : Scheduler) (t : TaskRef) : Prop :=
  Relation.ReflTransGen s.Links mainTask t

/-- What a call has to meet for its `schedule` to end. Only `sleep` has a condition: that
`mainTask` is alone, that another task is eligible, or that `m_timeMs + sleepMs` wraps round, so
that the task is eligible itself. -/
def Call.Wakes (s : Scheduler) : Call → Prop
  | .sleep sleepMs => (s.tasks mainTask).next = none ∨
      (∃ t, OnRing s t ∧ s.runningTask ≠ some t ∧ s.eligible t = true) ∨
      2 ^ 64 ≤ s.timeMs.toNat + sleepMs.toNat
  | _ => True

/-- Some task is awake, or `mainTask` is alone. -/
def Awake (s : Scheduler) (ts : List TaskRef) : Prop :=
  ts ≠ [] → ∃ t ∈ mainTask :: ts, (s.tasks t).state = .running

section

variable {s s' s₁ : Scheduler} {ts : List TaskRef} {c : Call}

theorem Ring.onRing_iff (h : Ring s ts) (hts : ts ≠ []) {t : TaskRef} :
    OnRing s t ↔ t ∈ mainTask :: ts := by
  constructor
  · intro ht
    refine Run.invariant ht (by simp) fun a b ha hab => ?_
    obtain ⟨b', hb', hab'⟩ := h.exists_next hts ha
    rw [Links, hab'] at hab
    exact Option.some.inj hab ▸ hb'
  · intro ht
    have hchain := h.links hts
    rw [Cycle.chain_coe_cons, ← List.cons_append] at hchain
    rcases List.mem_cons.mp ht with rfl | ht
    · exact .refl
    · refine List.IsChain.cons_induction (r := s.Links) (OnRing s) ts hchain.left_of_append ?_ .refl
        t ht
      intro a b hab ha
      exact ha.tail hab

theorem eligible_of_running {t : TaskRef} (h : (s.tasks t).state = .running) :
    s.eligible t = true := by
  simp [eligible, h]

/-- `schedule` ends when it finds an eligible task, and only then. -/
theorem scheduleEnds_iff (h : Ring s ts) (hts : ts ≠ []) (hen : s.schedulerEnabled = true) :
    ScheduleEnds s ↔ ∃ t ∈ mainTask :: ts, s.eligible t = true := by
  constructor
  · intro hends
    by_contra hnone
    obtain ⟨fuel, r, hr⟩ := hends resetRegisters
    rw [schedule_spin h hts hen fun t ht => by
      by_contra hel
      exact hnone ⟨t, ht, by simpa using hel⟩] at hr
    cases hr
  · rintro ⟨t, ht, hel⟩ cpu
    obtain ⟨l, hw⟩ := h.exists_walk
    obtain ⟨r, -, hr⟩ := h.running
    obtain ⟨t', l', hpick⟩ := RoundRobin.exists_pick (hw.mem_iff.mpr ht) hel
    obtain ⟨n, hn⟩ := schedule_pick h hts hen hw hr hpick
    exact ⟨n + 1, _, by rw [hn, if_pos (Nat.lt_succ_self n)]⟩

/-- A task that has fallen asleep is eligible only if its wake-up time has wrapped round. -/
theorem eligible_fallAsleep {t r : TaskRef} {sleepMs : UInt64} :
    (s.fallAsleep sleepMs r).eligible t = true ↔
      if t = r then 2 ^ 64 ≤ s.timeMs.toNat + sleepMs.toNat else s.eligible t = true := by
  by_cases htr : t = r
  · subst htr
    have htime := s.timeMs.toNat_lt
    have hms := sleepMs.toNat_lt
    simp only [eligible, fallAsleep, modify_tasks, modify_timeMs, if_true, gt_iff_lt,
      UInt64.lt_iff_toNat_lt, UInt64.toNat_add]
    simp
    omega
  · simp [eligible, fallAsleep, modify_tasks, htr]

/-- In a ring with a task awake, `schedule` ends in every call that meets its condition. -/
theorem scheduleEnds_call (h : Ring s ts) (hts : ts ≠ []) (hen : s.schedulerEnabled = true)
    (hawake : Awake s ts) (hc : c.atSchedule s = some s₁) : ScheduleEnds s₁ ↔ c.Wakes s := by
  have hen₁ : s₁.schedulerEnabled = true := (c.atSchedule_frame hc).2.2.2.trans hen
  rw [scheduleEnds_iff (h.atSchedule hc) hts hen₁]
  obtain ⟨w, hw, hstate⟩ := hawake hts
  cases c with
  | taskStart task entry => cases hc
  | schedule =>
    cases hc
    exact ⟨fun _ => trivial, fun _ => ⟨w, hw, eligible_of_running hstate⟩⟩
  | tick =>
    cases hc
    exact ⟨fun _ => trivial, fun _ => ⟨w, hw, eligible_of_running hstate⟩⟩
  | sleep sleepMs =>
    obtain ⟨r, hr, rfl⟩ := Option.map_eq_some_iff.mp hc
    obtain ⟨next, -, hnext⟩ := h.exists_next hts (List.mem_cons_self ..)
    simp only [Call.Wakes, hnext, eligible_fallAsleep, h.onRing_iff hts, hr, reduceCtorEq,
      false_or, ne_eq, Option.some.injEq]
    constructor
    · rintro ⟨t, ht, hel⟩
      split at hel
      · exact .inr hel
      · next hne => exact .inl ⟨t, ht, fun heq => hne heq.symm, hel⟩
    · rintro (⟨t, ht, hne, hel⟩ | hwrap)
      · exact ⟨t, ht, by rw [if_neg fun heq => hne heq.symm]; exact hel⟩
      · obtain ⟨r', hmem, hr'⟩ := h.running
        obtain rfl := Option.some.inj (hr.symm.trans hr')
        exact ⟨r, hmem, by rw [if_pos rfl]; exact hwrap⟩

/-- After a step some task is awake: the one that was started, or the one that was selected. -/
theorem awake_step (h : Ring s ts) (hen : s.schedulerEnabled = true) {e : Event}
    (hstep : Step s e s') :
    Awake s' (ts ++ e.call.starts.toList) ∧ s'.schedulerEnabled = true := by
  obtain ⟨task, entry, tail, hcall, -, -, hst⟩ | ⟨s₁, fuel, cpu, hat, hexec⟩ :=
    step_cases h hstep
  · refine ⟨fun _ => ⟨task, by simp [hcall, Call.starts], ?_⟩, hst.schedulerEnabled.trans hen⟩
    rw [hst.state, if_pos rfl]
  · rw [atSchedule_starts hat, Option.toList_none, List.append_nil]
    have hen₁ : s₁.schedulerEnabled = true := (Call.atSchedule_frame hat).2.2.2.trans hen
    obtain ⟨l, hw⟩ := (h.atSchedule hat).exists_walk
    obtain ⟨-, rfl, hts⟩ | ⟨r, t, l', hts, -, -, -, rfl, hpick⟩ :=
      schedule_cases (h.atSchedule hat) hw hexec
    · refine ⟨fun hne => ?_, hen₁⟩
      rcases hts with hts | hdis
      · exact absurd hts hne
      · rw [hen₁] at hdis
        cases hdis
    · refine ⟨fun _ => ⟨t, hw.mem_iff.mp (RoundRobin.mem_pick hpick), ?_⟩, hen₁⟩
      rw [switchTo_state, if_pos rfl]

theorem awake_run {es : List Event} (hrun : Run.Trace Step s es s') (h : Ring s ts)
    (hen : s.schedulerEnabled = true) (hawake : Awake s ts)
    (hfresh : (mainTask :: (ts ++ started es)).Nodup) :
    Awake s' (ts ++ started es) ∧ s'.schedulerEnabled = true := by
  induction hrun generalizing ts with
  | nil s => simpa [started] using ⟨hawake, hen⟩
  | @cons s s₁ s' e es hstep _ ih =>
    rw [started_cons, ← List.append_assoc] at hfresh ⊢
    obtain ⟨hawake₁, hen₁⟩ := awake_step h hen hstep
    refine ih (h.step hstep ?_) hen₁ hawake₁ hfresh
    rw [← List.cons_append] at hfresh
    exact hfresh.of_append_left

end

/-- In every state that calls can lead to, the `schedule` of the next call ends exactly when the
call meets its condition. -/
theorem schedule_ends_iff (memory : ℕ → Task) (cr3 eflags : Word) {es : List Event}
    {s s₁ : Scheduler} (hfresh : (mainTask :: started es).Nodup)
    (hrun : Run.Trace Step ((boot memory).start cr3 eflags) es s) (hstarted : started es ≠ [])
    {c : Call} (hc : c.atSchedule s = some s₁) : ScheduleEnds s₁ ↔ c.Wakes s := by
  have h₀ := ring_start memory cr3 eflags
  have h : Ring s (started es) := ring_run h₀ hrun hfresh
  obtain ⟨hawake, hen⟩ := awake_run hrun h₀ rfl (fun hne => absurd rfl hne) hfresh
  exact scheduleEnds_call h hstarted hen hawake hc

/-- `mainTask` can sleep while another task is awake. -/
theorem schedule_ends_main :
    ∃ es s s₁, runCalls 3 resetRegisters ((boot zeroed).start 0 0) [.taskStart (.heap 0) 0] =
        .ok (es, s) ∧
      (Call.sleep 10).atSchedule s = some s₁ ∧ ScheduleEnds s₁ := by
  refine ⟨_, _, _, rfl, rfl, ?_⟩
  have htrace := (trace_of_runCalls _ (show runCalls 3 resetRegisters
    ((boot zeroed).start 0 0) [.taskStart (.heap 0) 0] = .ok (_, _) from rfl)).1
  refine (schedule_ends_iff zeroed 0 0 (c := .sleep 10) (by decide) htrace (by decide) rfl).mpr ?_
  exact .inr (.inl ⟨.heap 0, .single rfl, by decide, rfl⟩)

/-- If it is not, neither the `schedule` of `sleep` ends nor that of the tick that comes while
it goes round. -/
theorem all_asleep_spins :
    ∃ es s s₁, runCalls 3 resetRegisters ((boot zeroed).start 0 0)
        [.taskStart (.heap 0) 0, .sleep 10] = .ok (es, s) ∧
      Run.Trace Step ((boot zeroed).start 0 0) es s ∧
      (Call.sleep 10).atSchedule s = some s₁ ∧
      ¬ ScheduleEnds s₁ ∧ ¬ ScheduleEnds s₁.countTick := by
  have htrace := (trace_of_runCalls _ (show runCalls 3 resetRegisters
    ((boot zeroed).start 0 0) [.taskStart (.heap 0) 0, .sleep 10] = .ok (_, _) from rfl)).1
  refine ⟨_, _, _, rfl, htrace, rfl, ?_⟩
  have h := ring_run (ring_start zeroed 0 0) htrace (by decide)
  have h₁ := h.atSchedule (c := .sleep 10) rfl
  have h₂ := h₁.atSchedule (c := .tick) rfl
  have hne : ([] ++ [TaskRef.heap 0] : List TaskRef) ≠ [] := by decide
  constructor
  · rw [scheduleEnds_iff h₁ hne rfl]
    decide
  · rw [scheduleEnds_iff h₂ hne rfl]
    decide

end Sakura.Scheduler
