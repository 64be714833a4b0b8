import Sakura.Lib.RoundRobin
import Sakura.Lib.Run
import Sakura.Scheduler

/-!
# The ring of tasks

`Ring s ts` is the shape of the list of tasks when `ts` have been started, and `Walk s ts l`
the order in which `goToNextTask` meets them. What `schedule` does is then `RoundRobin.pick` on
that order (`schedule_pick`), and where no task of the ring is eligible it never ends
(`schedule_spin`).
-/

namespace Sakura.Scheduler

open TaskRef (mainTask)
open I386 (Word)

/-- A result of a mapped outcome comes from a result of the outcome. -/
theorem of_toOption_map {α β : Type} {e : Except Stop α} {f : α → β} {b : β}
    (h : e.toOption.map f = some b) : ∃ a, e = .ok a ∧ b = f a := by
  cases e with
  | error stop => cases h
  | ok a => exact ⟨a, rfl, (Option.some.inj h).symm⟩

/-! ## Fields -/

section

variable {s : Scheduler} {t x : TaskRef} {f : Task → Task}

@[simp] theorem modify_runningTask : (s.modify t f).runningTask = s.runningTask := rfl
@[simp] theorem modify_taskTail : (s.modify t f).taskTail = s.taskTail := rfl
@[simp] theorem modify_timeMs : (s.modify t f).timeMs = s.timeMs := rfl
@[simp] theorem modify_schedulerEnabled :
    (s.modify t f).schedulerEnabled = s.schedulerEnabled := rfl

theorem modify_tasks : (s.modify t f).tasks x = if x = t then f (s.tasks x) else s.tasks x := rfl

theorem modify_modify {g : Task → Task} :
    (s.modify t f).modify t g = s.modify t fun task => g (f task) := by
  unfold modify
  congr 1
  funext x
  dsimp only
  split_ifs <;> rfl

theorem modify_congr {g : Task → Task} (h : f (s.tasks t) = g (s.tasks t)) :
    s.modify t f = s.modify t g := by
  unfold modify
  congr 1
  funext x
  split_ifs with hx
  · rw [hx, h]
  · rfl

/-- The state `schedule` leaves when it goes from `last` to `next`. -/
def switchTo (s : Scheduler) (cpu : TaskRegisters) (last next : TaskRef) : Scheduler :=
  { s.modify next fun task => { task with state := .running } with
    runningTask := some next }.modify last fun task => { task with regs := cpu }

variable {cpu : TaskRegisters} {last next : TaskRef} {sleepMs : UInt64}

@[simp] theorem switchTo_runningTask : (s.switchTo cpu last next).runningTask = some next := rfl
@[simp] theorem switchTo_taskTail : (s.switchTo cpu last next).taskTail = s.taskTail := rfl
@[simp] theorem switchTo_schedulerEnabled :
    (s.switchTo cpu last next).schedulerEnabled = s.schedulerEnabled := rfl

@[simp] theorem switchTo_next :
    ((s.switchTo cpu last next).tasks x).next = (s.tasks x).next := by
  simp only [switchTo, modify_tasks]
  split_ifs <;> rfl

@[simp] theorem switchTo_state : ((s.switchTo cpu last next).tasks x).state =
    if x = next then .running else (s.tasks x).state := by
  simp only [switchTo, modify_tasks]
  split_ifs <;> rfl

@[simp] theorem fallAsleep_next :
    ((s.fallAsleep sleepMs t).tasks x).next = (s.tasks x).next := by
  simp only [fallAsleep, modify_tasks]
  split_ifs <;> rfl

@[simp] theorem fallAsleep_schedulerEnabled :
    (s.fallAsleep sleepMs t).schedulerEnabled = s.schedulerEnabled := rfl

@[simp] theorem fallAsleep_taskTail : (s.fallAsleep sleepMs t).taskTail = s.taskTail := rfl

@[simp] theorem fallAsleep_runningTask :
    (s.fallAsleep sleepMs t).runningTask = s.runningTask := rfl

end

/-! ## The shape of the list -/

/-- `a->next == b`. -/
def Links (s : Scheduler) (a b : TaskRef) : Prop :=
  (s.tasks a).next = some b

/-- The tasks `ts` have been started, in this order. -/
structure Ring (s : Scheduler) (ts : List TaskRef) : Prop where
  nodup : (mainTask :: ts).Nodup
  tail : s.taskTail = (mainTask :: ts).getLast?
  running : ∃ r ∈ mainTask :: ts, s.runningTask = some r
  alone : ts = [] → (s.tasks mainTask).next = none
  links : ts ≠ [] → Cycle.Chain s.Links (mainTask :: ts : List TaskRef)

/-- A walk from the running task meets the tasks in the order `l`, itself last. -/
structure Walk (s : Scheduler) (ts l : List TaskRef) : Prop where
  rotated : l.IsRotated (mainTask :: ts)
  running : s.runningTask = l.getLast?

section

variable {s s' : Scheduler} {ts l l' : List TaskRef} {t r : TaskRef}

/-- The ring is in the `next` fields of its tasks. -/
theorem Ring.congr_mem (h : Ring s ts)
    (hnext : ∀ x ∈ mainTask :: ts, (s'.tasks x).next = (s.tasks x).next)
    (htail : s'.taskTail = s.taskTail)
    (hrunning : ∃ r ∈ mainTask :: ts, s'.runningTask = some r) : Ring s' ts where
  nodup := h.nodup
  tail := htail.trans h.tail
  running := hrunning
  alone := fun hts => (hnext mainTask List.mem_cons_self).trans (h.alone hts)
  links := by
    intro hts
    have hlinks := h.links hts
    rw [Cycle.chain_coe_cons] at hlinks ⊢
    refine hlinks.imp_of_mem_imp fun a b ha _ hab => ?_
    have hmem : a ∈ mainTask :: ts := by
      rw [← List.cons_append, List.mem_append, List.mem_singleton] at ha
      rcases ha with ha | rfl
      · exact ha
      · exact List.mem_cons_self
    exact (hnext a hmem).trans hab

/-- The ring is read off the links, the tail and the running task. -/
theorem Ring.congr (h : Ring s ts) (hnext : ∀ x, (s'.tasks x).next = (s.tasks x).next)
    (htail : s'.taskTail = s.taskTail)
    (hrunning : ∃ r ∈ mainTask :: ts, s'.runningTask = some r) : Ring s' ts :=
  h.congr_mem (fun x _ => hnext x) htail hrunning

/-- A record that is not in the ring. -/
theorem Ring.modify (h : Ring s ts) (ht : t ∉ mainTask :: ts) (f : Task → Task) :
    Ring (s.modify t f) ts := by
  refine h.congr_mem (fun x hx => ?_) rfl h.running
  rw [modify_tasks, if_neg fun he : x = t => ht (he ▸ hx)]

/-- At the start the ring is the main task alone. -/
theorem ring_start (memory : ℕ → Task) (cr3 eflags : Word) :
    Ring ((boot memory).start cr3 eflags) [] where
  nodup := by simp
  tail := rfl
  running := ⟨mainTask, by simp, rfl⟩
  alone := fun _ => rfl
  links := fun h => absurd rfl h

/-- The running task has its place in the ring. -/
theorem Ring.exists_walk (h : Ring s ts) : ∃ l, Walk s ts l := by
  obtain ⟨r, hr, hrun⟩ := h.running
  obtain ⟨a, b, hab⟩ := List.append_of_mem hr
  refine ⟨b ++ a ++ [r], ?_, by simp [hrun]⟩
  rw [hab, List.append_assoc]
  refine List.isRotated_append.trans ?_
  rw [List.append_assoc, List.singleton_append]

theorem Walk.ne_nil (hw : Walk s ts l) : l ≠ [] := by
  rintro rfl
  have := hw.rotated.perm.length_eq
  simp at this

theorem Walk.mem_iff (hw : Walk s ts l) : t ∈ l ↔ t ∈ mainTask :: ts :=
  hw.rotated.mem_iff

theorem Walk.nodup (hw : Walk s ts l) (h : Ring s ts) : l.Nodup :=
  hw.rotated.nodup_iff.mpr h.nodup

/-- Each task of the walk points to the next, and the running task to the first. -/
theorem Walk.chain (hw : Walk s ts l) (h : Ring s ts) (hts : ts ≠ [])
    (hr : s.runningTask = some r) : List.IsChain s.Links (r :: l) := by
  have hcycle : (l : Cycle TaskRef) = (mainTask :: ts : List TaskRef) :=
    Cycle.coe_eq_coe.mpr hw.rotated
  have hlinks := h.links hts
  rw [← hcycle, Cycle.chain_ne_nil _ hw.ne_nil] at hlinks
  have hlast : l.getLast hw.ne_nil = r := by
    have hrun := hw.running
    rw [hr, List.getLast?_eq_some_getLast hw.ne_nil] at hrun
    exact (Option.some.inj hrun).symm
  rw [hlast] at hlinks
  exact hlinks

theorem next_of_isChain {a b : TaskRef} (h : List.IsChain s.Links (a :: b :: l)) :
    (s.tasks a).next = some b :=
  List.rel_of_isChain_cons_cons (R := s.Links) h

/-- A ring has no end. -/
theorem Ring.exists_next (h : Ring s ts) (hts : ts ≠ []) (ht : t ∈ mainTask :: ts) :
    ∃ t' ∈ mainTask :: ts, (s.tasks t).next = some t' := by
  obtain ⟨a, b, hab⟩ := List.append_of_mem ht
  have hrot : (t :: (b ++ a)).IsRotated (mainTask :: ts) := by
    rw [hab]
    exact List.isRotated_append (l := t :: b)
  have hlinks := h.links hts
  rw [← Cycle.coe_eq_coe.mpr hrot, Cycle.chain_coe_cons] at hlinks
  cases hba : b ++ a with
  | nil =>
    have hlen := hrot.perm.length_eq
    simp only [hba, List.length_cons, List.length_nil] at hlen
    exact absurd (List.length_eq_zero_iff.mp (by omega)) hts
  | cons t' rest =>
    rw [hba] at hlinks
    refine ⟨t', ?_, next_of_isChain hlinks⟩
    rw [← hrot.mem_iff, hba]
    simp

/-- A link of the ring stays in the ring. -/
theorem Ring.closed (h : Ring s ts) {t' : TaskRef} (ht : t ∈ mainTask :: ts) (hlink : s.Links t t') :
    t' ∈ mainTask :: ts := by
  by_cases hts : ts = []
  · subst hts
    obtain rfl := List.mem_singleton.mp ht
    rw [Links, h.alone rfl] at hlink
    cases hlink
  · obtain ⟨t₁, hmem, hnext⟩ := h.exists_next hts ht
    rw [Links, hnext, Option.some.injEq] at hlink
    exact hlink ▸ hmem

/-- What can be reached from the ring lies in the ring. -/
theorem Ring.mem_of_reaches (h : Ring s ts) {t' : TaskRef} (ht : t ∈ mainTask :: ts)
    (hreach : Relation.TransGen s.Links t t') : t' ∈ mainTask :: ts := by
  induction hreach with
  | single hlink => exact h.closed ht hlink
  | tail _ hlink ih => exact h.closed ih hlink

/-- From every task of the ring the links lead to `mainTask`. -/
theorem Ring.leads (h : Ring s ts) (ht : t ∈ mainTask :: ts) :
    Relation.ReflTransGen s.Links t mainTask := by
  by_cases hts : ts = []
  · subst hts
    rw [List.mem_singleton.mp ht]
  · have hlinks := h.links hts
    rw [Cycle.chain_coe_cons, ← List.cons_append] at hlinks
    exact hlinks.backwards_concat_induction (fun x => Relation.ReflTransGen s.Links x mainTask) _
      (fun _ _ hxy hy => .head hxy hy) .refl t ht

/-! ## The search -/

/-- What the loop comes to can be reached, and is eligible. -/
theorem findTask_reaches (fuel : ℕ) : ∀ {a : TaskRef},
    findTask s fuel (s.tasks a).next = .ok (some t) →
    Relation.TransGen s.Links a t ∧ s.eligible t = true := by
  induction fuel with
  | zero => intro a h; cases h
  | succ fuel ih =>
    intro a h
    cases hnext : (s.tasks a).next with
    | none =>
      rw [hnext] at h
      cases h
    | some b =>
      rw [hnext, findTask] at h
      split at h
      · next hb =>
        obtain rfl := Option.some.inj (Except.ok.inj h)
        exact ⟨.single hnext, hb⟩
      · obtain ⟨h1, h2⟩ := ih h
        exact ⟨.head hnext h1, h2⟩

/-- The loop follows no null pointer. -/
theorem findTask_ne_null (fuel : ℕ) : ∀ {p : Option TaskRef}, findTask s fuel p ≠ .error .null := by
  induction fuel with
  | zero => intro p h; cases h
  | succ fuel ih =>
    intro p h
    cases p with
    | none => cases h
    | some b =>
      rw [findTask] at h
      split at h
      · cases h
      · exact ih h

/-- The loop passes over what is not eligible. -/
theorem findTask_eq {y : List TaskRef} (he : s.eligible t = true) (x : List TaskRef) :
    ∀ {a : TaskRef} {fuel : ℕ}, List.IsChain s.Links (a :: (x ++ t :: y)) →
      (∀ z ∈ x, s.eligible z = false) →
      findTask s fuel (s.tasks a).next =
        if x.length < fuel then .ok (some t) else .error .fuel := by
  induction x with
  | nil =>
    intro a fuel hchain _
    have hnext : (s.tasks a).next = some t := next_of_isChain hchain
    rw [hnext]
    cases fuel with
    | zero => simp [findTask]
    | succ fuel => simp [findTask, he]
  | cons z x ih =>
    intro a fuel hchain hx
    have hnext : (s.tasks a).next = some z := next_of_isChain hchain
    rw [hnext]
    cases fuel with
    | zero => simp [findTask]
    | succ fuel =>
      have hz := hx z (by simp)
      rw [findTask, hz, if_neg (by simp),
        ih (List.isChain_of_isChain_cons hchain) fun w hw => hx w (by simp [hw])]
      simp

/-- A ring without an eligible task is walked for ever. -/
theorem findTask_spin (h : Ring s ts) (hts : ts ≠ [])
    (hnone : ∀ x ∈ mainTask :: ts, s.eligible x = false) (fuel : ℕ) :
    ∀ {a : TaskRef}, a ∈ mainTask :: ts → findTask s fuel (s.tasks a).next = .error .fuel := by
  induction fuel with
  | zero => intro a _; rfl
  | succ fuel ih =>
    intro a ha
    obtain ⟨b, hb, hab⟩ := h.exists_next hts ha
    rw [hab, findTask, hnone b hb, if_neg (by simp)]
    exact ih hb

/-! ## `schedule` -/

/-- A scheduler that is disabled selects nothing. -/
theorem schedule_disabled (hen : s.schedulerEnabled = false) (fuel : ℕ) (cpu : TaskRegisters) :
    schedule fuel cpu s = .ok (none, s) := by
  simp [schedule, hen, pure, Except.pure]

/-- Whatever the list is, the task that is selected can be reached, and is eligible. -/
theorem schedule_reaches {fuel : ℕ} {cpu : TaskRegisters} {picked : Option TaskRef}
    (h : schedule fuel cpu s = .ok (picked, s')) :
    (picked = none ∧ s' = s) ∨
    ∃ r t, s.schedulerEnabled = true ∧ s.runningTask = some r ∧ picked = some t ∧
      s' = s.switchTo cpu r t ∧ Relation.TransGen s.Links r t ∧ s.eligible t = true := by
  cases hen : s.schedulerEnabled with
  | false =>
    rw [schedule_disabled hen] at h
    obtain ⟨rfl, rfl⟩ := Prod.mk.inj (Except.ok.inj h)
    exact .inl ⟨rfl, rfl⟩
  | true =>
    cases hr : s.runningTask with
    | none =>
      simp only [schedule, hen, goToNextTask, hr, deref, bind, Except.bind, if_true] at h
      cases h
    | some r =>
      cases hfind : findTask s fuel (s.tasks r).next with
      | error stop =>
        simp only [schedule, hen, goToNextTask, hr, deref, hfind, bind, Except.bind, if_true] at h
        cases h
      | ok found =>
        simp only [schedule, hen, goToNextTask, hr, deref, hfind, bind, Except.bind, if_true] at h
        cases found with
        | none =>
          obtain ⟨rfl, rfl⟩ := Prod.mk.inj (Except.ok.inj h)
          exact .inl ⟨rfl, rfl⟩
        | some t =>
          obtain ⟨rfl, rfl⟩ := Prod.mk.inj (Except.ok.inj h)
          obtain ⟨hreach, helig⟩ := findTask_reaches fuel hfind
          exact .inr ⟨r, t, rfl, rfl, rfl, rfl, hreach, helig⟩

/-- `schedule` meets no null pointer. -/
theorem schedule_ne_null {fuel : ℕ} {cpu : TaskRegisters}
    (hr : s.schedulerEnabled = true → ∃ r, s.runningTask = some r) :
    schedule fuel cpu s ≠ .error .null := by
  intro h
  cases hen : s.schedulerEnabled with
  | false =>
    rw [schedule_disabled hen] at h
    cases h
  | true =>
    obtain ⟨r, hr⟩ := hr hen
    cases hfind : findTask s fuel (s.tasks r).next with
    | error stop =>
      simp only [schedule, hen, goToNextTask, hr, deref, hfind, bind, Except.bind, if_true] at h
      obtain rfl := Except.error.inj h
      exact findTask_ne_null fuel hfind
    | ok found =>
      simp only [schedule, hen, goToNextTask, hr, deref, hfind, bind, Except.bind, if_true] at h
      cases found <;> cases h

/-- `mainTask` alone is not left. -/
theorem schedule_alone (h : Ring s []) (hen : s.schedulerEnabled = true) (fuel : ℕ)
    (cpu : TaskRegisters) :
    schedule fuel cpu s = if 0 < fuel then .ok (none, s) else .error .fuel := by
  obtain ⟨r, hr, hrun⟩ := h.running
  obtain rfl : r = mainTask := by simpa using hr
  cases fuel with
  | zero =>
    simp [schedule, hen, goToNextTask, hrun, deref, findTask, bind, Except.bind]
  | succ fuel =>
    simp [schedule, hen, goToNextTask, hrun, deref, h.alone rfl, findTask, bind, Except.bind,
      pure, Except.pure]

/-- `schedule` goes on to the first eligible task of the walk. -/
theorem schedule_pick (h : Ring s ts) (hts : ts ≠ []) (hen : s.schedulerEnabled = true)
    (hw : Walk s ts l) (hr : s.runningTask = some r)
    (hpick : RoundRobin.pick s.eligible l = some (t, l')) :
    ∃ n, ∀ fuel cpu, schedule fuel cpu s =
      if n < fuel then .ok (some t, s.switchTo cpu r t) else .error .fuel := by
  obtain ⟨a, b, hl, ha, ht, -⟩ := RoundRobin.pick_eq_some hpick
  have hchain := hw.chain h hts hr
  rw [hl] at hchain
  refine ⟨a.length, fun fuel cpu => ?_⟩
  have hfind : findTask s fuel (s.tasks r).next =
      if a.length < fuel then .ok (some t) else .error .fuel := findTask_eq ht a hchain ha
  by_cases hfuel : a.length < fuel
  · rw [if_pos hfuel] at hfind ⊢
    simp [schedule, hen, goToNextTask, hr, deref, hfind, bind, Except.bind, pure, Except.pure,
      switchTo]
  · rw [if_neg hfuel] at hfind ⊢
    simp [schedule, hen, goToNextTask, hr, deref, hfind, bind, Except.bind]

/-- With every task asleep `schedule` does not come to an end. -/
theorem schedule_spin (h : Ring s ts) (hts : ts ≠ []) (hen : s.schedulerEnabled = true)
    (hnone : ∀ x ∈ mainTask :: ts, s.eligible x = false) (fuel : ℕ) (cpu : TaskRegisters) :
    schedule fuel cpu s = .error .fuel := by
  obtain ⟨r, hmem, hr⟩ := h.running
  have hfind := findTask_spin h hts hnone fuel hmem
  simp [schedule, hen, goToNextTask, hr, deref, hfind, bind, Except.bind]

/-- Everything a call of `schedule` that ends can have done. -/
theorem schedule_cases (h : Ring s ts) (hw : Walk s ts l) {fuel : ℕ} {cpu : TaskRegisters}
    {picked : Option TaskRef} (hrun : schedule fuel cpu s = .ok (picked, s')) :
    (picked = none ∧ s' = s ∧ (ts = [] ∨ s.schedulerEnabled = false)) ∨
    ∃ r t l', ts ≠ [] ∧ s.schedulerEnabled = true ∧ s.runningTask = some r ∧ picked = some t ∧
      s' = s.switchTo cpu r t ∧ RoundRobin.pick s.eligible l = some (t, l') := by
  cases hen : s.schedulerEnabled with
  | false =>
    rw [schedule_disabled hen] at hrun
    obtain ⟨rfl, rfl⟩ := Prod.mk.inj (Except.ok.inj hrun)
    exact .inl ⟨rfl, rfl, .inr rfl⟩
  | true =>
    by_cases hts : ts = []
    · subst hts
      rw [schedule_alone h hen] at hrun
      split at hrun
      · obtain ⟨rfl, rfl⟩ := Prod.mk.inj (Except.ok.inj hrun)
        exact .inl ⟨rfl, rfl, .inl rfl⟩
      · cases hrun
    · obtain ⟨r, hmem, hr⟩ := h.running
      rcases hpick : RoundRobin.pick s.eligible l with _ | ⟨t, l'⟩
      · have hnone := RoundRobin.pick_eq_none hpick
        rw [schedule_spin h hts hen fun x hx => hnone x (hw.mem_iff.mpr hx)] at hrun
        cases hrun
      · obtain ⟨n, hn⟩ := schedule_pick h hts hen hw hr hpick
        rw [hn] at hrun
        split at hrun
        · obtain ⟨rfl, rfl⟩ := Prod.mk.inj (Except.ok.inj hrun)
          exact .inr ⟨r, t, l', hts, rfl, hr, rfl, rfl, rfl⟩
        · cases hrun

/-- A switch keeps the ring. -/
theorem Ring.switchTo (h : Ring s ts) {cpu : TaskRegisters} {last : TaskRef}
    (ht : t ∈ mainTask :: ts) : Ring (s.switchTo cpu last t) ts :=
  h.congr (fun _ => switchTo_next) rfl ⟨t, ht, rfl⟩

/-- A switch turns the walk to the task that was picked. -/
theorem Walk.switchTo (hw : Walk s ts l) {cpu : TaskRegisters} {last : TaskRef}
    (hpick : RoundRobin.pick s.eligible l = some (t, l')) :
    Walk (s.switchTo cpu last t) ts l' := by
  refine ⟨(RoundRobin.pick_isRotated hpick).trans hw.rotated, ?_⟩
  obtain ⟨a, b, -, -, -, rfl⟩ := RoundRobin.pick_eq_some hpick
  simp

/-- A call of `schedule` keeps the ring. -/
theorem Ring.schedule (h : Ring s ts) {fuel : ℕ} {cpu : TaskRegisters}
    {picked : Option TaskRef} (hrun : schedule fuel cpu s = .ok (picked, s')) : Ring s' ts := by
  obtain ⟨l, hw⟩ := h.exists_walk
  obtain ⟨-, rfl, -⟩ | ⟨r, t, l', -, -, -, -, rfl, hpick⟩ := schedule_cases h hw hrun
  · exact h
  · exact h.switchTo (hw.mem_iff.mp (RoundRobin.mem_pick hpick))

/-! ## `taskStart` -/

/-- What `taskStart` leaves when the tail is `tail`. -/
structure Started (s : Scheduler) (tail task : TaskRef) (s' : Scheduler) : Prop where
  next : ∀ x, (s'.tasks x).next =
    if x = task then some mainTask else if x = tail then some task else (s.tasks x).next
  state : ∀ x, (s'.tasks x).state = if x = task then .running else (s.tasks x).state
  wakeupTime : ∀ x, (s'.tasks x).wakeupTime = (s.tasks x).wakeupTime
  taskTail : s'.taskTail = some task
  runningTask : s'.runningTask = s.runningTask
  timeMs : s'.timeMs = s.timeMs
  schedulerEnabled : s'.schedulerEnabled = s.schedulerEnabled

/-- `taskStart` returns when there is a tail. -/
theorem taskStart_started {tail task : TaskRef} {entry : Word}
    (htail : s.taskTail = some tail) :
    ∃ s', s.taskStart task entry = .ok s' ∧ Started s tail task s' := by
  refine ⟨_, by simp only [taskStart, modify_taskTail, htail, deref, bind, Except.bind]; rfl, ?_⟩
  constructor
  · intro x
    simp only [modify_tasks]
    split_ifs <;> rfl
  · intro x
    simp only [modify_tasks]
    split_ifs <;> rfl
  · intro x
    simp only [modify_tasks]
    split_ifs <;> rfl
  all_goals rfl

/-- What the assignments to the links leave. -/
structure Joined (s : Scheduler) (tail task : TaskRef) (s' : Scheduler) : Prop where
  next : ∀ x, (s'.tasks x).next =
    if x = task then some mainTask else if x = tail then some task else (s.tasks x).next
  taskTail : s'.taskTail = some task
  runningTask : s'.runningTask = s.runningTask

/-- The task joins the ring at its end. -/
theorem Ring.joined (h : Ring s ts) (ht : t ∉ mainTask :: ts) {tail : TaskRef}
    (htail : s.taskTail = some tail) (hst : Joined s tail t s') : Ring s' (ts ++ [t]) := by
  obtain ⟨front, hfront⟩ : ∃ front, mainTask :: ts = front ++ [tail] := by
    have hlast := h.tail
    rw [htail] at hlast
    exact List.getLast?_eq_some_iff.mp hlast.symm
  refine ⟨?_, ?_, ?_, fun hnil => by simp at hnil, fun _ => ?_⟩
  · rw [← List.cons_append]
    exact List.nodup_append.mpr ⟨h.nodup, by simp, by
      rintro a ha b hb rfl
      rw [List.mem_singleton] at hb
      exact ht (hb ▸ ha)⟩
  · rw [hst.taskTail, ← List.cons_append, List.getLast?_append]
    simp
  · obtain ⟨r, hr, hrun⟩ := h.running
    exact ⟨r, by simp at hr ⊢; tauto, hst.runningTask.trans hrun⟩
  · rw [Cycle.chain_coe_cons, ← List.cons_append, ← List.cons_append, hfront]
    -- up to the old tail the links are the old ones
    have hold : List.IsChain s.Links (front ++ [tail]) := by
      by_cases hts : ts = []
      · subst hts
        rw [← hfront]
        exact List.isChain_singleton _
      · have hlinks := h.links hts
        rw [Cycle.chain_coe_cons, ← List.cons_append, hfront] at hlinks
        exact hlinks.left_of_append
    have hnodup := h.nodup
    rw [hfront] at hnodup ht
    have hnew : List.IsChain s'.Links (front ++ [tail]) := by
      rw [List.isChain_iff_forall_rel_of_append_cons_cons] at hold ⊢
      intro a b x y hxy
      have hab := hold hxy
      have hne : a ≠ t := by
        rintro rfl
        exact ht (by rw [hxy]; simp)
      have htl : a ≠ tail := by
        rintro rfl
        -- `a` has a successor in the list and `tail` is its last element
        have hlast : (b :: y).getLast? = some a := by
          have := congrArg List.getLast? hxy
          simpa using this.symm
        rw [hxy] at hnodup
        have hmem : a ∈ b :: y := List.mem_of_getLast? hlast
        exact (List.nodup_cons.mp (List.nodup_append.mp hnodup).2.1).1 hmem
      rw [Links, hst.next, if_neg hne, if_neg htl]
      exact hab
    rw [List.append_assoc, List.append_assoc, List.singleton_append, List.singleton_append,
      List.isChain_split]
    refine ⟨hnew, ?_⟩
    have htt : tail ≠ t := by
      rintro rfl
      exact ht (by simp)
    refine List.IsChain.cons_cons ?_ (List.IsChain.cons_cons ?_ (List.isChain_singleton _))
    · rw [Links, hst.next, if_neg htt, if_pos rfl]
    · rw [Links, hst.next, if_pos rfl]

/-- The task that is started is the new tail. -/
theorem Ring.started (h : Ring s ts) (ht : t ∉ mainTask :: ts) {tail : TaskRef}
    (htail : s.taskTail = some tail) (hst : Started s tail t s') : Ring s' (ts ++ [t]) :=
  h.joined ht htail ⟨hst.next, hst.taskTail, hst.runningTask⟩

/-- It joins every walk, and the order of the others stays. -/
theorem Walk.started (hw : Walk s ts l) {tail : TaskRef} (hst : Started s tail t s') :
    ∃ a b, l = a ++ mainTask :: b ∧ Walk s' (ts ++ [t]) (a ++ t :: mainTask :: b) := by
  obtain ⟨a, b, rfl, rfl⟩ := RoundRobin.split_of_isRotated hw.rotated
  refine ⟨a, b, rfl, ?_, ?_⟩
  · have hrot : (a ++ [t] ++ mainTask :: b).IsRotated (mainTask :: b ++ (a ++ [t])) :=
      List.isRotated_append
    simpa using hrot
  · rw [hst.runningTask, hw.running]
    simp [List.getLast?_append]

end

/-! ## Runs -/

/-- What the rest of the kernel does with the scheduler. -/
inductive Call where
  | taskStart (task : TaskRef) (entry : Word)
  | schedule
  | sleep (sleepMs : UInt64)
  | tick

namespace Call

/-- One call, and the task that is switched to. -/
def exec (fuel : ℕ) (cpu : TaskRegisters) (s : Scheduler) :
    Call → Except Stop (Option TaskRef × Scheduler)
  | taskStart task entry => do
    let s ← s.taskStart task entry
    pure (none, s)
  | schedule => s.schedule fuel cpu
  | sleep sleepMs => s.sleep fuel cpu sleepMs
  | tick => s.irqCallback fuel cpu

/-- The state in which the call gets to `schedule`. -/
def atSchedule (s : Scheduler) : Call → Option Scheduler
  | taskStart _ _ => none
  | schedule => some s
  | sleep sleepMs => s.runningTask.map (s.fallAsleep sleepMs)
  | tick => some s.countTick

/-- The task the call starts. -/
def starts : Call → Option TaskRef
  | taskStart task _ => some task
  | _ => none

end Call

/-- A call of a run, the state it was made in, and the task `goToNextTask` selected in it. -/
structure Event where
  before : Scheduler
  call : Call
  selected : Option TaskRef

/-- The tasks started in a run, in order. -/
def started (es : List Event) : List TaskRef :=
  es.filterMap fun e => e.call.starts

/-- A call that comes to its end, whatever the processor holds when it is made. -/
def Step (s : Scheduler) (e : Event) (s' : Scheduler) : Prop :=
  e.before = s ∧ ∃ fuel cpu, e.call.exec fuel cpu s = .ok (e.selected, s')

section

variable {s s' s₁ : Scheduler} {ts l : List TaskRef} {c : Call}

/-- A call is some assignments, and then `schedule`. -/
theorem Call.exec_atSchedule (h : c.atSchedule s = some s₁) (fuel : ℕ) (cpu : TaskRegisters) :
    c.exec fuel cpu s = s₁.schedule fuel cpu := by
  cases c with
  | taskStart task entry => cases h
  | schedule => cases h; rfl
  | sleep sleepMs =>
    obtain ⟨r, hr, rfl⟩ := Option.map_eq_some_iff.mp h
    simp [exec, Scheduler.sleep, hr, deref, bind, Except.bind]
  | tick => cases h; rfl

/-- The assignments before `schedule` do not touch the ring. -/
theorem Call.atSchedule_frame (h : c.atSchedule s = some s₁) :
    (∀ x, (s₁.tasks x).next = (s.tasks x).next) ∧ s₁.taskTail = s.taskTail ∧
      s₁.runningTask = s.runningTask ∧ s₁.schedulerEnabled = s.schedulerEnabled := by
  cases c with
  | taskStart task entry => cases h
  | schedule => cases h; exact ⟨fun _ => rfl, rfl, rfl, rfl⟩
  | sleep sleepMs =>
    obtain ⟨r, hr, rfl⟩ := Option.map_eq_some_iff.mp h
    exact ⟨fun _ => fallAsleep_next, rfl, rfl, rfl⟩
  | tick => cases h; exact ⟨fun _ => rfl, rfl, rfl, rfl⟩

/-- What comes before `schedule` in a call keeps the ring. -/
theorem Ring.atSchedule (h : Ring s ts) (hc : c.atSchedule s = some s₁) : Ring s₁ ts := by
  obtain ⟨hnext, htail, hrun, -⟩ := c.atSchedule_frame hc
  exact h.congr hnext htail (hrun ▸ h.running)

theorem Walk.atSchedule (hw : Walk s ts l) (hc : c.atSchedule s = some s₁) : Walk s₁ ts l :=
  ⟨hw.rotated, (c.atSchedule_frame hc).2.2.1.trans hw.running⟩

/-- Everything a step can be: `taskStart`, or a call that gets to `schedule`. -/
theorem step_cases (h : Ring s ts) {e : Event} (hstep : Step s e s') :
    (∃ task entry tail, e.call = .taskStart task entry ∧ e.selected = none ∧
      s.taskTail = some tail ∧ Started s tail task s') ∨
    ∃ s₁ fuel cpu, e.call.atSchedule s = some s₁ ∧
      s₁.schedule fuel cpu = .ok (e.selected, s') := by
  obtain ⟨-, fuel, cpu, hexec⟩ := hstep
  cases hat : e.call.atSchedule s with
  | some s₁ =>
    rw [Call.exec_atSchedule hat] at hexec
    exact .inr ⟨s₁, fuel, cpu, rfl, hexec⟩
  | none =>
    left
    obtain ⟨r, -, hr⟩ := h.running
    cases hcall : e.call with
    | schedule => rw [hcall] at hat; cases hat
    | tick => rw [hcall] at hat; cases hat
    | sleep sleepMs => rw [hcall, Call.atSchedule, hr] at hat; cases hat
    | taskStart task entry =>
      have htail : s.taskTail = some ((mainTask :: ts).getLast (by simp)) := by
        rw [h.tail, List.getLast?_eq_some_getLast]
      obtain ⟨s₂, hs₂, hst⟩ := taskStart_started htail
      rw [hcall, Call.exec, hs₂] at hexec
      obtain ⟨hsel, rfl⟩ := Prod.mk.inj (Except.ok.inj hexec)
      exact ⟨task, entry, _, rfl, hsel.symm, htail, hst⟩

/-- A call that comes to `schedule` starts no task. -/
theorem atSchedule_starts (hc : c.atSchedule s = some s₁) : c.starts = none := by
  cases c <;> simp [Call.atSchedule, Call.starts] at hc ⊢

/-- Each step keeps the ring, and `taskStart` makes it longer. -/
theorem Ring.step (h : Ring s ts) {e : Event} (hstep : Step s e s')
    (hfresh : (mainTask :: (ts ++ (e.call.starts).toList)).Nodup) :
    Ring s' (ts ++ e.call.starts.toList) := by
  obtain ⟨task, entry, tail, hcall, -, htail, hst⟩ | ⟨s₁, fuel, cpu, hat, hexec⟩ :=
    step_cases h hstep
  · rw [hcall] at hfresh ⊢
    refine h.started ?_ htail hst
    intro hmem
    rw [← List.cons_append] at hfresh
    exact (List.nodup_append.mp hfresh).2.2 _ hmem _ (by simp [Call.starts]) rfl
  · rw [atSchedule_starts hat, Option.toList_none, List.append_nil]
    exact (h.atSchedule hat).schedule hexec

theorem started_cons (e : Event) (es : List Event) :
    started (e :: es) = e.call.starts.toList ++ started es := by
  cases hst : e.call.starts <;> simp [started, hst]

/-- The ring holds the tasks that have been started, whatever has been done. -/
theorem ring_run {es : List Event} (h : Ring s ts) (hrun : Run.Trace Step s es s')
    (hfresh : (mainTask :: (ts ++ started es)).Nodup) : Ring s' (ts ++ started es) := by
  induction hrun generalizing ts with
  | nil s => simpa [started] using h
  | @cons s s₁ s' e es hstep _ ih =>
    rw [started_cons, ← List.append_assoc] at hfresh ⊢
    refine ih (h.step hstep ?_) hfresh
    rw [← List.cons_append] at hfresh
    exact hfresh.of_append_left

end

end Sakura.Scheduler
