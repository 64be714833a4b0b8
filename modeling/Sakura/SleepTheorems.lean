import Sakura.SchedulerRunTheorems
import Sakura.Sleep

/-!
# `sleep` does not return early

From the second assignment of `sleep` on the task is in state `Sleep` with its wake-up time
set, or the time has passed (`Due`), so it is selected again only when the time has passed. Two
things break this, and they are the only ones (`sleep_not_early`): the sum `m_timeMs + sleepMs`
wraps round, or a tick comes between the two assignments. Then the task is already in state
`Sleep`, but its wake-up time is an old one: it is woken, and goes on to call `schedule` in
state `Running` (`sleep_early`).
-/

namespace Sakura.Scheduler.Threads

open TaskRef (mainTask)
open I386 (Word)

/-! ## What an action does -/

/-- What action `a` of the running task `r` can have done to `x`. -/
inductive Effect (x : Threads) (r : TaskRef) : Action → Threads → Prop
  | tick {fuel cpu picked s} (h : x.scheduler.countTick.schedule fuel cpu = .ok (picked, s)) :
      Effect x r .tick ⟨s, x.point⟩
  | call {sleepMs} (hp : x.point r = .outside) :
      Effect x r (.call sleepMs) (x.goTo x.scheduler r (.entered sleepMs))
  | setState {sleepMs} (hp : x.point r = .entered sleepMs) :
      Effect x r .statement
        (x.goTo (x.scheduler.modify r fun task => { task with state := .sleep }) r
          (.stateSet sleepMs))
  | setWakeup {sleepMs} (hp : x.point r = .stateSet sleepMs) :
      Effect x r .statement
        (x.goTo (x.scheduler.modify r fun task =>
          { task with wakeupTime := x.scheduler.timeMs + sleepMs }) r .wakeupSet)
  | leave {fuel cpu picked s} (hp : x.point r = .wakeupSet)
      (h : x.scheduler.schedule fuel cpu = .ok (picked, s)) :
      Effect x r .statement (x.goTo s r .scheduled)
  | finish (hp : x.point r = .scheduled) : Effect x r .finish (x.goTo x.scheduler r .outside)
  | schedule {fuel cpu picked s} (hp : x.point r = .outside)
      (h : x.scheduler.schedule fuel cpu = .ok (picked, s)) : Effect x r .schedule ⟨s, x.point⟩
  | enable (hp : x.point r = .outside) : Effect x r .enable ⟨x.scheduler.enable, x.point⟩
  | disable (hp : x.point r = .outside) : Effect x r .disable ⟨x.scheduler.disable, x.point⟩
  | taskStart {task entry s} (hp : x.point r = .outside)
      (h : x.scheduler.taskStart task entry = .ok s) :
      Effect x r (.taskStart task entry) ⟨s, x.point⟩

section

variable {x y z : Threads} {a : Action} {as : List Action} {s s' : Scheduler} {t u v r : TaskRef}
  {ts : List TaskRef} {sleepMs : UInt64} {fuel : ℕ} {cpu : TaskRegisters}

theorem effect_of_statement (h : x.statement fuel cpu r = some y) : Effect x r .statement y := by
  unfold statement at h
  split at h
  · rename_i hp
    cases h
    exact .setState hp
  · rename_i hp
    cases h
    exact .setWakeup hp
  · rename_i hp
    obtain ⟨⟨picked, s⟩, hs, rfl⟩ := of_toOption_map h
    exact .leave hp hs
  · cases h
  · cases h

/-- Every step is the effect of its action. -/
theorem Step.effect (hstep : Step x a y) :
    ∃ r, x.scheduler.runningTask = some r ∧ Effect x r a y := by
  obtain ⟨fuel, cpu, h⟩ := hstep
  obtain ⟨r, hr, h⟩ := Option.bind_eq_some_iff.mp h
  refine ⟨r, hr, ?_⟩
  cases a with
  | tick =>
    obtain ⟨⟨picked, s⟩, hs, rfl⟩ := of_toOption_map h
    exact .tick hs
  | statement => exact effect_of_statement h
  | finish =>
    obtain ⟨hp, h⟩ := Option.ite_none_right_eq_some.mp h
    exact Option.some.inj h ▸ .finish hp
  | call sleepMs =>
    obtain ⟨hp, h⟩ := Option.ite_none_right_eq_some.mp h
    exact Option.some.inj h ▸ .call hp
  | schedule =>
    obtain ⟨hp, h⟩ := Option.ite_none_right_eq_some.mp h
    obtain ⟨⟨picked, s⟩, hs, rfl⟩ := of_toOption_map h
    exact .schedule hp hs
  | enable =>
    obtain ⟨hp, h⟩ := Option.ite_none_right_eq_some.mp h
    exact Option.some.inj h ▸ .enable hp
  | disable =>
    obtain ⟨hp, h⟩ := Option.ite_none_right_eq_some.mp h
    exact Option.some.inj h ▸ .disable hp
  | taskStart task entry =>
    obtain ⟨hp, h⟩ := Option.ite_none_right_eq_some.mp h
    obtain ⟨s, hs, rfl⟩ := of_toOption_map h
    exact .taskStart hp hs

/-! ## The ring -/

theorem ring_modify {f : Task → Task} (h : Ring s ts) (hf : ∀ task, (f task).next = task.next) :
    Ring (s.modify t f) ts := by
  refine h.congr ?_ rfl h.running
  intro u
  rw [modify_tasks]
  split
  · exact hf _
  · rfl

/-- A tick keeps the ring. -/
theorem ring_countTick (h : Ring s ts) : Ring s.countTick ts :=
  h.congr (fun _ => rfl) rfl h.running

theorem started_of_taskStart (h : Ring s ts) {entry : Word}
    (hstart : s.taskStart t entry = .ok s') :
    ∃ tail, s.taskTail = some tail ∧ Started s tail t s' := by
  have htail : s.taskTail = some ((mainTask :: ts).getLast (by simp)) := by
    rw [h.tail, List.getLast?_eq_some_getLast]
  obtain ⟨s₁, hs₁, hst⟩ := @taskStart_started s _ t entry htail
  rw [hs₁] at hstart
  cases hstart
  exact ⟨_, htail, hst⟩

/-- An action that starts no task keeps the ring. -/
theorem Effect.keepsRing (heff : Effect x r a y) (h : Ring x.scheduler ts)
    (hnone : starts a = none) : Ring y.scheduler ts := by
  cases heff with
  | taskStart hp hstart => cases hnone
  | tick hs => exact (ring_countTick h).schedule hs
  | leave hp hs => exact h.schedule hs
  | schedule hp hs => exact h.schedule hs
  | setState hp =>
    rw [goTo_scheduler]
    exact ring_modify h fun _ => rfl
  | setWakeup hp =>
    rw [goTo_scheduler]
    exact ring_modify h fun _ => rfl
  | call hp => exact h
  | finish hp => exact h
  | enable hp => exact h.congr (fun _ => rfl) rfl h.running
  | disable hp => exact h.congr (fun _ => rfl) rfl h.running

/-- An action keeps the ring, or puts the new task into it. -/
theorem Effect.ring (heff : Effect x r a y) (h : Ring x.scheduler ts)
    (hfresh : (mainTask :: (ts ++ (starts a).toList)).Nodup) :
    Ring y.scheduler (ts ++ (starts a).toList) := by
  cases hst : starts a with
  | none =>
    rw [Option.toList_none, List.append_nil]
    exact heff.keepsRing h hst
  | some task =>
    rw [hst] at hfresh
    cases heff with
    | @taskStart t entry s hp hstart =>
      obtain rfl : t = task := Option.some.inj hst
      obtain ⟨tail, htail, hstarted⟩ := started_of_taskStart h hstart
      refine h.started ?_ htail hstarted
      intro hmem
      rw [← List.cons_append] at hfresh
      exact (List.nodup_append.mp hfresh).2.2 _ hmem _ (by simp) rfl
    | _ => cases hst

theorem started_cons (a : Action) (as : List Action) :
    started (a :: as) = (starts a).toList ++ started as := by
  cases hst : starts a <;> simp [started, hst]

/-- The ring holds the tasks that have been started. -/
theorem ring_run (hrun : Run.Trace Step x as y) (h : Ring x.scheduler ts)
    (hfresh : (mainTask :: (ts ++ started as)).Nodup) : Ring y.scheduler (ts ++ started as) := by
  induction hrun generalizing ts with
  | nil x => simpa [started] using h
  | @cons x y z a as hstep _ ih =>
    rw [started_cons, ← List.append_assoc] at hfresh ⊢
    obtain ⟨r, -, heff⟩ := hstep.effect
    refine ih (heff.ring h ?_) hfresh
    rw [← List.cons_append] at hfresh
    exact hfresh.of_append_left

/-! ## When a task is due -/

/-- Of a task that called `sleep` at time `t₀`, `n` ticks ago: more than `sleepMs` ticks have come
since then, or the task is in state `Sleep` until they have. -/
def Due (s : Scheduler) (v : TaskRef) (t₀ sleepMs : UInt64) (n : ℕ) : Prop :=
  sleepMs.toNat < n ∨ (s.tasks v).state = .sleep ∧ ∃ k ≤ n,
    (s.tasks v).wakeupTime.toNat = (t₀ + UInt64.ofNat k).toNat + sleepMs.toNat

variable {t₀ : UInt64} {n : ℕ}

/-- A task that is due is selected only when its time has passed. -/
theorem Due.elapsed (h : Due s v t₀ sleepMs n) (hclock : s.timeMs = t₀ + UInt64.ofNat n)
    (hel : s.eligible v = true) : sleepMs.toNat < n := by
  rcases h with h | ⟨hstate, k, hk, hwake⟩
  · exact h
  · simp only [eligible, hstate, reduceCtorEq, true_and, false_or, decide_eq_true_eq, gt_iff_lt,
      UInt64.lt_iff_toNat_lt, hclock] at hel
    rw [hwake] at hel
    simp only [UInt64.toNat_add, UInt64.toNat_ofNat'] at hel
    omega

/-- When a task is due is read off its state and its time. -/
theorem Due.congr (h : Due s v t₀ sleepMs n) (hstate : (s'.tasks v).state = (s.tasks v).state)
    (hwake : (s'.tasks v).wakeupTime = (s.tasks v).wakeupTime) : Due s' v t₀ sleepMs n := by
  unfold Due
  rw [hstate, hwake]
  exact h

@[simp] theorem switchTo_wakeupTime :
    ((s.switchTo cpu r t).tasks u).wakeupTime = (s.tasks u).wakeupTime := by
  simp only [switchTo, modify_tasks]
  split_ifs <;> rfl

/-- `switchTo` wakes no other task. -/
theorem Due.switchTo (h : Due s v t₀ sleepMs n) (hclock : s.timeMs = t₀ + UInt64.ofNat n)
    (hel : s.eligible t = true) :
    Due (s.switchTo cpu r t) v t₀ sleepMs n ∧ (t = v → sleepMs.toNat < n) := by
  by_cases htv : t = v
  · subst htv
    have hpassed := h.elapsed hclock hel
    exact ⟨Or.inl hpassed, fun _ => hpassed⟩
  · refine ⟨h.congr ?_ switchTo_wakeupTime, fun heq => absurd heq htv⟩
    rw [switchTo_state, if_neg (Ne.symm htv)]

/-- A tick more. -/
theorem Due.countTick (h : Due s v t₀ sleepMs n) : Due s.countTick v t₀ sleepMs (n + 1) := by
  rcases h with h | ⟨hstate, k, hk, hwake⟩
  · exact Or.inl (by omega)
  · exact Or.inr ⟨hstate, k, by omega, hwake⟩

/-! ## The invariant of a sleep -/

/-- What holds of task `v` at each place of its `sleep`. -/
def AtPoint (s : Scheduler) (v : TaskRef) (t₀ sleepMs : UInt64) (n : ℕ) : Point → Prop
  | .outside => False
  | .entered ms => ms = sleepMs
  | .stateSet ms => ms = sleepMs ∧ s.runningTask = some v ∧ (s.tasks v).state = .sleep
  | .wakeupSet => Due s v t₀ sleepMs n
  | .scheduled => Due s v t₀ sleepMs n ∧ (s.runningTask = some v → sleepMs.toNat < n)

/-- Task `v` is in the `sleep` it called at time `t₀`, `n` ticks ago. -/
structure Sleeping (v : TaskRef) (t₀ sleepMs : UInt64) (n : ℕ) (x : Threads) : Prop where
  clock : x.scheduler.timeMs = t₀ + UInt64.ofNat n
  place : AtPoint x.scheduler v t₀ sleepMs n (x.point v)

/-- What does not concern the task keeps it where it is. -/
theorem Sleeping.frame (h : Sleeping v t₀ sleepMs n x) (hpoint : y.point v = x.point v)
    (htime : y.scheduler.timeMs = x.scheduler.timeMs)
    (hrun : y.scheduler.runningTask = x.scheduler.runningTask)
    (hstate : (y.scheduler.tasks v).state = (x.scheduler.tasks v).state)
    (hwake : (y.scheduler.tasks v).wakeupTime = (x.scheduler.tasks v).wakeupTime) :
    Sleeping v t₀ sleepMs n y := by
  refine ⟨htime.trans h.clock, ?_⟩
  have hplace := h.place
  rw [hpoint]
  cases hp : x.point v with
  | outside =>
    rw [hp] at hplace
    exact hplace
  | entered ms =>
    rw [hp] at hplace
    exact hplace
  | stateSet ms =>
    rw [hp] at hplace
    exact ⟨hplace.1, hrun.trans hplace.2.1, hstate.trans hplace.2.2⟩
  | wakeupSet =>
    rw [hp] at hplace
    exact Due.congr hplace hstate hwake
  | scheduled =>
    rw [hp] at hplace
    exact ⟨hplace.1.congr hstate hwake, fun hv => hplace.2 (hrun.symm.trans hv)⟩

/-- The same for the whole invariant. -/
theorem Sleeping.countTick (h : Sleeping v t₀ sleepMs n x) :
    Sleeping v t₀ sleepMs (n + 1) ⟨x.scheduler.countTick, x.point⟩ := by
  constructor
  · show x.scheduler.timeMs + 1 = _
    rw [h.clock, UInt64.add_assoc, UInt64.ofNat_add]
    rfl
  · have hplace := h.place
    show AtPoint x.scheduler.countTick v t₀ sleepMs (n + 1) (x.point v)
    cases hp : x.point v with
    | outside =>
      rw [hp] at hplace
      exact hplace
    | entered ms =>
      rw [hp] at hplace
      exact hplace
    | stateSet ms =>
      rw [hp] at hplace
      exact hplace
    | wakeupSet =>
      rw [hp] at hplace
      exact Due.countTick hplace
    | scheduled =>
      rw [hp] at hplace
      exact ⟨hplace.1.countTick, fun hv => Nat.lt_succ_of_lt (hplace.2 hv)⟩

/-- A call of `schedule`, by any task and not between the two assignments of `v`. -/
theorem Sleeping.switchTo (h : Sleeping v t₀ sleepMs n x) (hel : x.scheduler.eligible t = true)
    (hsplit : ∀ ms, x.point v ≠ .stateSet ms) :
    Sleeping v t₀ sleepMs n ⟨x.scheduler.switchTo cpu r t, x.point⟩ := by
  refine ⟨h.clock, ?_⟩
  have hplace := h.place
  show AtPoint (x.scheduler.switchTo cpu r t) v t₀ sleepMs n (x.point v)
  cases hp : x.point v with
  | outside =>
    rw [hp] at hplace
    exact hplace
  | entered ms =>
    rw [hp] at hplace
    exact hplace
  | stateSet ms => exact absurd hp (hsplit ms)
  | wakeupSet =>
    rw [hp] at hplace
    exact (Due.switchTo hplace h.clock hel).1
  | scheduled =>
    rw [hp] at hplace
    obtain ⟨hdue, hpassed⟩ := hplace.1.switchTo h.clock hel
    exact ⟨hdue, fun hv => hpassed (Option.some.inj hv)⟩

/-! ## Steps and runs -/

/-- What is assumed while `v` sleeps: the scheduler is enabled, another task is in state `Running`,
and the end of `sleep` is not passed yet. -/
structure Within (v : TaskRef) (x : Threads) (a : Action) : Prop where
  enabled : x.scheduler.schedulerEnabled = true
  other : ∃ u ≠ v, OnRing x.scheduler u ∧ (x.scheduler.tasks u).state = .running
  inside : a = .finish → x.scheduler.runningTask ≠ some v

/-- No tick comes between the two assignments of `v`, and the sum in the second does not wrap
round. -/
structure Undisturbed (v : TaskRef) (x : Threads) (a : Action) : Prop where
  noTick : a = .tick → x.scheduler.runningTask = some v → ∀ ms, x.point v ≠ .stateSet ms
  noWrap : a = .statement → x.scheduler.runningTask = some v → ∀ ms, x.point v = .stateSet ms →
    x.scheduler.timeMs.toNat + ms.toNat < 2 ^ 64

/-- There is another task on the ring than `v`. -/
theorem Within.ne_nil (h : Within v x a) (hring : Ring x.scheduler ts) (hv : v ∈ mainTask :: ts) :
    ts ≠ [] := by
  intro hts
  subst hts
  obtain ⟨u, hne, hon, -⟩ := h.other
  apply hne
  rw [List.mem_singleton.mp hv]
  rcases Relation.ReflTransGen.cases_head hon with heq | ⟨w, hlink, -⟩
  · exact heq.symm
  · unfold Links at hlink
    rw [hring.alone rfl] at hlink
    cases hlink

/-- Where other tasks are on the ring, `schedule` goes to an eligible one. -/
theorem schedule_switch (h : Ring s ts) (hts : ts ≠ []) (hen : s.schedulerEnabled = true)
    {picked : Option TaskRef} (hrun : Scheduler.schedule fuel cpu s = .ok (picked, s')) :
    ∃ r t, s.eligible t = true ∧ s' = s.switchTo cpu r t := by
  obtain ⟨l, hw⟩ := h.exists_walk
  rcases schedule_cases h hw hrun with ⟨-, -, hnone | hdis⟩ | ⟨r, t, l', -, -, -, -, hs', hpick⟩
  · exact absurd hnone hts
  · rw [hen] at hdis
    cases hdis
  · obtain ⟨-, -, -, -, hready, -⟩ := RoundRobin.pick_eq_some hpick
    exact ⟨r, t, hready, hs'⟩

theorem Sleeping.place_at (h : Sleeping v t₀ sleepMs n x) {p : Point} (hp : x.point v = p) :
    AtPoint x.scheduler v t₀ sleepMs n p :=
  hp ▸ h.place

/-- Where `v` sleeps it does nothing else. -/
theorem Sleeping.not_outside (h : Sleeping v t₀ sleepMs n x) : x.point v ≠ .outside :=
  fun hp => h.place_at hp

/-- An action of another task, other than a call of `schedule`. -/
theorem Sleeping.other (h : Sleeping v t₀ sleepMs n x) (hring : Ring x.scheduler ts)
    (hv : v ∈ mainTask :: ts) (hfresh : (mainTask :: (ts ++ (starts a).toList)).Nodup)
    (hrv : r ≠ v) (heff : Effect x r a y) (htick : a ≠ .tick) (hschedule : a ≠ .schedule)
    (hleave : x.point r ≠ .wakeupSet) : Sleeping v t₀ sleepMs n y := by
  have hpoint : ∀ s p, (x.goTo s r p).point v = x.point v :=
    fun s p => if_neg (Ne.symm hrv)
  have hmodify : ∀ f p, (x.goTo (x.scheduler.modify r f) r p).scheduler.tasks v
      = x.scheduler.tasks v := fun f p => if_neg (Ne.symm hrv)
  cases heff with
  | tick hs => exact absurd rfl htick
  | schedule hp hs => exact absurd rfl hschedule
  | leave hp hs => exact absurd hp hleave
  | call hp => exact h.frame (hpoint _ _) rfl rfl rfl rfl
  | finish hp => exact h.frame (hpoint _ _) rfl rfl rfl rfl
  | enable hp => exact h.frame rfl rfl rfl rfl rfl
  | disable hp => exact h.frame rfl rfl rfl rfl rfl
  | setState hp =>
    exact h.frame (hpoint _ _) rfl rfl (congrArg Task.state (hmodify _ _))
      (congrArg Task.wakeupTime (hmodify _ _))
  | setWakeup hp =>
    exact h.frame (hpoint _ _) rfl rfl (congrArg Task.state (hmodify _ _))
      (congrArg Task.wakeupTime (hmodify _ _))
  | @taskStart t entry s hp hstart =>
    obtain ⟨tail, -, hst⟩ := started_of_taskStart hring hstart
    have hvt : v ≠ t := by
      intro heq
      subst heq
      rw [← List.cons_append] at hfresh
      exact (List.nodup_append.mp hfresh).2.2 _ hv _ (by simp [starts]) rfl
    refine h.frame rfl hst.timeMs hst.runningTask ?_ (hst.wakeupTime v)
    rw [hst.state, if_neg hvt]

/-- One step of any task, where nothing disturbs the sleep of `v`. -/
theorem Sleeping.step (h : Sleeping v t₀ sleepMs n x) (hring : Ring x.scheduler ts)
    (hv : v ∈ mainTask :: ts) (hfresh : (mainTask :: (ts ++ (starts a).toList)).Nodup)
    (hstep : Step x a y) (hin : Within v x a) (hun : Undisturbed v x a) :
    Sleeping v t₀ sleepMs (n + if a = .tick then 1 else 0) y := by
  obtain ⟨r, hr, heff⟩ := hstep.effect
  have hts := hin.ne_nil hring hv
  by_cases htick : a = .tick
  · subst htick
    rw [if_pos rfl]
    cases heff with
    | tick hs =>
      obtain ⟨r, t, hel, rfl⟩ := schedule_switch (ring_countTick hring) hts hin.enabled hs
      refine h.countTick.switchTo hel fun ms hp => ?_
      exact hun.noTick rfl (h.place_at hp).2.1 ms hp
  rw [if_neg htick, Nat.add_zero]
  by_cases hrv : r = v
  · -- `v` is in `sleep`, so what it does is its next statement
    subst hrv
    have hout := h.not_outside
    cases heff with
    | tick hs => exact absurd rfl htick
    | call hp => exact absurd hp hout
    | schedule hp hs => exact absurd hp hout
    | enable hp => exact absurd hp hout
    | disable hp => exact absurd hp hout
    | taskStart hp hs => exact absurd hp hout
    | finish hp => exact absurd hr (hin.inside rfl)
    | setState hp =>
      refine ⟨h.clock, ?_⟩
      simp only [goTo_scheduler, goTo_point, if_true, AtPoint, modify_runningTask, modify_tasks]
      exact ⟨h.place_at hp, hr, trivial⟩
    | @setWakeup ms hp =>
      obtain ⟨rfl, -, hstate⟩ := h.place_at hp
      -- the sum does not wrap, so the wake-up time is `sleepMs` ticks away
      have hwrap := hun.noWrap rfl hr _ hp
      refine ⟨h.clock, ?_⟩
      simp only [goTo_scheduler, goTo_point, if_true, AtPoint]
      refine Or.inr ⟨?_, n, Nat.le_refl n, ?_⟩
      · rw [modify_tasks, if_pos rfl]
        exact hstate
      · rw [modify_tasks, if_pos rfl, ← h.clock]
        show (x.scheduler.timeMs + ms).toNat = _
        rw [UInt64.toNat_add, Nat.mod_eq_of_lt hwrap]
    | leave hp hs =>
      obtain ⟨r', t, hel, rfl⟩ := schedule_switch hring hts hin.enabled hs
      obtain ⟨hdue, hpassed⟩ := Due.switchTo (h.place_at hp) h.clock hel
      refine ⟨h.clock, ?_⟩
      simp only [goTo_scheduler, goTo_point, if_true, AtPoint]
      exact ⟨hdue, fun hv => hpassed (Option.some.inj hv)⟩
  · -- `v` is not running, so it is not between its two assignments
    have hsplit : ∀ ms, x.point v ≠ .stateSet ms := by
      intro ms hp
      exact hrv (Option.some.inj (hr.symm.trans (h.place_at hp).2.1))
    by_cases hschedule : a = .schedule
    · subst hschedule
      cases heff with
      | schedule hp hs =>
        obtain ⟨r', t, hel, rfl⟩ := schedule_switch hring hts hin.enabled hs
        exact h.switchTo hel hsplit
    by_cases hleave : x.point r = .wakeupSet
    · cases heff with
      | leave hp hs =>
        obtain ⟨r', t, hel, rfl⟩ := schedule_switch hring hts hin.enabled hs
        exact (h.switchTo hel hsplit).frame (if_neg (Ne.symm hrv)) rfl rfl rfl rfl
      | tick hs => exact absurd rfl htick
      | schedule hp hs => exact absurd rfl hschedule
      | taskStart hp hs => cases hp.symm.trans hleave
      | _ => rename_i hp; cases hp.symm.trans hleave
    · exact h.other hring hv hfresh hrv heff htick hschedule hleave

/-- A run in which the conditions hold keeps the invariant, and counts its ticks. -/
theorem Sleeping.run (hrun : Run.Trace (fun x a y => Step x a y ∧ Within v x a ∧
      Undisturbed v x a) x as z) (h : Sleeping v t₀ sleepMs n x) (hring : Ring x.scheduler ts)
    (hv : v ∈ mainTask :: ts) (hfresh : (mainTask :: (ts ++ started as)).Nodup) :
    Sleeping v t₀ sleepMs (n + as.count .tick) z := by
  induction hrun generalizing ts n with
  | nil x => exact h
  | @cons x y z a as hstep _ ih =>
    rw [started_cons, ← List.append_assoc] at hfresh
    have hfresh₁ : (mainTask :: (ts ++ (starts a).toList)).Nodup := by
      rw [← List.cons_append] at hfresh
      exact hfresh.of_append_left
    obtain ⟨r, -, heff⟩ := hstep.1.effect
    have hnext := h.step hring hv hfresh₁ hstep.1 hstep.2.1 hstep.2.2
    have hlast := ih hnext (heff.ring hring hfresh₁)
      (by rw [← List.cons_append]; exact List.mem_append_left _ hv) hfresh
    rw [Nat.add_assoc] at hlast
    rw [List.count_cons, Nat.add_comm (as.count _)]
    simpa using hlast

end

/-! ## Two tasks -/

/-- Takes the actions one after the other, each if it passes `check`. -/
def runActions (check : Threads → Action → Bool) : Threads → List Action → Option Threads
  | x, [] => some x
  | x, a :: as =>
    if check x a then (x.exec 3 resetRegisters a).bind fun y => runActions check y as else none

/-- A run that is computed is a run. -/
theorem trace_of_runActions {check : Threads → Action → Bool} {G : Threads → Action → Prop}
    (hcheck : ∀ x a, check x a = true → G x a) (as : List Action) :
    ∀ {x y : Threads}, runActions check x as = some y →
      Run.Trace (fun x a y => Step x a y ∧ G x a) x as y := by
  induction as with
  | nil =>
    intro x y h
    cases h
    exact .nil x
  | cons a as ih =>
    intro x y h
    rw [runActions] at h
    obtain ⟨hc, h⟩ := Option.ite_none_right_eq_some.mp h
    obtain ⟨z, hz, h⟩ := Option.bind_eq_some_iff.mp h
    exact .cons ⟨⟨3, resetRegisters, hz⟩, hcheck x a hc⟩ (ih h)

/-- A second task has been started, and the processor has been given to it and back. -/
def twoTasks : Threads :=
  (runActions (fun _ _ => true) (boot zeroed 0 0)
    [.taskStart (.heap 0) 0, .tick, .tick]).getD (boot zeroed 0 0)

theorem trace_twoTasks :
    Run.Trace Step (boot zeroed 0 0) [.taskStart (.heap 0) 0, .tick, .tick] twoTasks :=
  (trace_of_runActions (G := fun _ _ => True) (fun _ _ _ => trivial) _
    (show runActions (fun _ _ => true) _ _ = some twoTasks from rfl)).imp fun _ _ _ h => h.1

/-- `mainTask` calls `sleep`. -/
def mainCalls (sleepMs : UInt64) : Threads :=
  twoTasks.goTo twoTasks.scheduler mainTask (.entered sleepMs)

theorem step_mainCalls (sleepMs : UInt64) : Step twoTasks (.call sleepMs) (mainCalls sleepMs) :=
  ⟨3, resetRegisters, rfl⟩

/-- `Within mainTask`, for a second task on the heap. -/
def otherAwake (x : Threads) (a : Action) : Bool :=
  x.scheduler.schedulerEnabled && decide ((x.scheduler.tasks mainTask).next = some (.heap 0)) &&
    decide ((x.scheduler.tasks (.heap 0)).state = .running) && decide (a ≠ .finish)

theorem within_of_otherAwake (x : Threads) (a : Action) (h : otherAwake x a = true) :
    Within mainTask x a := by
  simp only [otherAwake, Bool.and_eq_true, decide_eq_true_eq] at h
  obtain ⟨⟨⟨hen, hlink⟩, hstate⟩, hfinish⟩ := h
  exact ⟨hen, ⟨.heap 0, by decide, .single hlink, hstate⟩, fun ha => absurd ha hfinish⟩

/-- `Undisturbed mainTask`. -/
def undisturbed (x : Threads) (a : Action) : Bool :=
  match x.point mainTask with
  | .stateSet ms => decide (a ≠ .tick) && decide (x.scheduler.timeMs.toNat + ms.toNat < 2 ^ 64)
  | _ => true

theorem undisturbed_of_check (x : Threads) (a : Action) (h : undisturbed x a = true) :
    Undisturbed mainTask x a := by
  constructor
  · intro ha _ ms hp
    rw [undisturbed, hp] at h
    simp only [Bool.and_eq_true, decide_eq_true_eq] at h
    exact h.1 ha
  · intro _ _ ms hp
    rw [undisturbed, hp] at h
    simp only [Bool.and_eq_true, decide_eq_true_eq] at h
    exact h.2

/-- `sleep` called from any state the kernel can get to does not return until more than `sleepMs`
ticks have come, unless a tick comes between its assignments or the sum of the second wraps round. -/
theorem sleep_not_early (memory : ℕ → Task) (cr3 eflags : Word) {as as' : List Action}
    {x y z : Threads} {v : TaskRef} {sleepMs : UInt64}
    (hfresh : (mainTask :: started (as ++ as')).Nodup)
    (hbefore : Run.Trace Step (boot memory cr3 eflags) as x)
    (hv : x.scheduler.runningTask = some v) (hcall : Step x (.call sleepMs) y)
    (hsleep : Run.Trace (fun x a y => Step x a y ∧ Within v x a ∧ Undisturbed v x a) y as' z)
    (hback : z.scheduler.runningTask = some v) (hend : z.point v = .scheduled) :
    z.scheduler.timeMs = x.scheduler.timeMs + UInt64.ofNat (as'.count .tick) ∧
      sleepMs.toNat < as'.count .tick := by
  have happ : started (as ++ as') = started as ++ started as' := List.filterMap_append ..
  rw [happ] at hfresh
  have hring : Ring x.scheduler (started as) := by
    refine ring_run hbefore (ring_start memory cr3 eflags) ?_
    rw [← List.cons_append] at hfresh
    exact hfresh.of_append_left
  have hmem : v ∈ mainTask :: started as := by
    obtain ⟨r, hr, hrun⟩ := hring.running
    obtain rfl : r = v := Option.some.inj (hrun.symm.trans hv)
    exact hr
  obtain ⟨r, hr, heff⟩ := hcall.effect
  obtain rfl : r = v := Option.some.inj (hr.symm.trans hv)
  have hringy := heff.keepsRing hring rfl
  cases heff with
  | call hp =>
    have hstart : Sleeping r x.scheduler.timeMs sleepMs 0
        (x.goTo x.scheduler r (.entered sleepMs)) := by
      refine ⟨(UInt64.add_zero _).symm, ?_⟩
      simp only [goTo_point, if_true, AtPoint]
    have hlast := hstart.run hsleep hringy hmem hfresh
    rw [Nat.zero_add] at hlast
    exact ⟨hlast.clock, (hlast.place_at hend).2 hback⟩

/-- A sleep of 1 ms takes two ticks. -/
theorem sleep_not_early_one :
    ∃ z, Run.Trace Step (mainCalls 1) [.statement, .statement, .statement, .tick, .tick] z ∧
      z.point mainTask = .scheduled ∧ z.scheduler.timeMs = twoTasks.scheduler.timeMs + 2 := by
  have hsleep := @trace_of_runActions (fun x a => otherAwake x a && undisturbed x a)
    (fun x a => Within mainTask x a ∧ Undisturbed mainTask x a)
    (fun x a h => by
      rw [Bool.and_eq_true] at h
      exact ⟨within_of_otherAwake x a h.1, undisturbed_of_check x a h.2⟩)
    [.statement, .statement, .statement, .tick, .tick] (mainCalls 1) _
    (show runActions _ (mainCalls 1) _ = some _ from rfl)
  have hlast := sleep_not_early zeroed 0 0 (by decide) trace_twoTasks rfl (step_mainCalls 1) hsleep
    rfl rfl
  exact ⟨_, hsleep.imp fun _ _ _ h => h.1, rfl, hlast.1⟩

/-- The task is woken between its two assignments, by a wake-up time of 0, and is back from
`sleep(10)` after three ticks. -/
theorem sleep_early :
    Run.Trace Step (boot zeroed 0 0) [.taskStart (.heap 0) 0, .tick, .tick] twoTasks ∧
      twoTasks.scheduler.runningTask = some mainTask ∧ Step twoTasks (.call 10) (mainCalls 10) ∧
      ∃ z, Run.Trace (fun x a y => Step x a y ∧ Within mainTask x a) (mainCalls 10)
          [.statement, .tick, .tick, .statement, .statement, .tick] z ∧
        z.scheduler.runningTask = some mainTask ∧ z.point mainTask = .scheduled ∧
        z.scheduler.timeMs = twoTasks.scheduler.timeMs + 3 := by
  have hsleep := trace_of_runActions within_of_otherAwake
    [.statement, .tick, .tick, .statement, .statement, .tick]
    (show runActions _ (mainCalls 10) _ = some _ from rfl)
  exact ⟨trace_twoTasks, rfl, step_mainCalls 10, _, hsleep, rfl, rfl, rfl⟩

end Sakura.Scheduler.Threads
