import Sakura.SchedulerRunTheorems
import Sakura.Starting

/-!
# Interrupts while tasks are started

`Harmless` says where an interrupt may come: not between `registerInterrupt` and the assignment to
`m_runningTask`; while a task is linked in and the ring is open, only if no task further down the
list is eligible; and before `taskStart` has set the state of a task, only if the state that its
memory held does not make it eligible. In a run of harmless actions no null pointer is followed,
and what is selected has been started and leads back to `mainTask` (`starting_safe`). Elsewhere an
interrupt finds `m_runningTask` null, or selects a task that leads nowhere (`starting_unsafe`).
-/

namespace Sakura.Starting

open TaskRef (mainTask)
open I386 (Word)
open InterruptHandler (Handler timer interruptHandler)
open Scheduler (deref Links Ring Joined)

/-! ## The condition -/

/-- The state in which an action gets to `schedule`. -/
def State.atSchedule (w : State) : Action → Option Scheduler
  | .tick =>
    match interruptHandler w.callbackTable timer with
    | some .scheduler => some w.scheduler.countTick
    | _ => none
  | .schedule => some w.scheduler
  | .sleep sleepMs => w.scheduler.runningTask.map (w.scheduler.fallAsleep sleepMs)
  | _ => none

/-- The ring is open before these statements. -/
def TaskStartPoint.isOpen : TaskStartPoint → Bool
  | .taskTail | .next => true
  | _ => false

/-- Where the threads are when `goToNextTask` runs in `s`. -/
structure Undisturbed (w : State) (s : Scheduler) : Prop where
  running : w.place mainTask ≠ .start .runningTask
  linking : ∀ task entry p, w.place w.current = .taskStart task entry p → p.isOpen = true →
    ∀ t, Relation.TransGen s.Links w.current t → s.eligible t = false
  state : ∀ u task entry, w.place u = .taskStart task entry .state → s.eligible task = false

def Harmless (w : State) (a : Action) : Prop :=
  ∀ s, w.atSchedule a = some s → s.schedulerEnabled = true → Undisturbed w s

/-! ## Records and threads -/

/-- The record a thread is at. -/
def Place.task : Place → Option TaskRef
  | .createTask task _ _ _ | .taskStart task _ _ => some task
  | _ => none

/-- The record a thread is at is as far as the thread says. -/
def Place.Fits (stage : TaskRef → Stage) : Place → Prop
  | .outside => True
  | .start _ => False
  | .createTask task _ _ _ => stage task = .creating
  | .taskStart task _ _ => stage task = .starting

/-- Each record has one thread at most, and those of the ring are started, or about to be. -/
structure Placed (w : State) (ts : List TaskRef) : Prop where
  fits : ∀ u, (w.place u).Fits w.stage
  alone : ∀ u v task, (w.place u).task = some task → (w.place v).task = some task → u = v
  main : w.stage mainTask = .unused
  linked : ∀ t ∈ ts, w.stage t = .started ∨ ∃ u entry, w.place u = .taskStart t entry .state

section

variable {w w' : State} {s s' : Scheduler} {ts ts' : List TaskRef} {t u r task : TaskRef} {q : Place}
  {g : Stage} {entry cr3 stack : Word} {p : TaskStartPoint}

/-- A thread is at a record only while the record is made or started. -/
theorem Placed.stage_of_task (h : Placed w ts) (hu : (w.place u).task = some task) :
    w.stage task = .creating ∨ w.stage task = .starting := by
  have hfits := h.fits u
  cases hplace : w.place u with
  | outside => rw [hplace] at hu; cases hu
  | start p => rw [hplace] at hu; cases hu
  | createTask t cr3 stack p =>
    rw [hplace] at hu hfits
    obtain rfl := Option.some.inj hu
    exact .inl hfits
  | taskStart t entry p =>
    rw [hplace] at hu hfits
    obtain rfl := Option.some.inj hu
    exact .inr hfits

theorem Placed.ne_main (h : Placed w ts) (hu : (w.place u).task = some task) : task ≠ mainTask := by
  rintro rfl
  rcases h.stage_of_task hu with hstage | hstage
  · rw [h.main] at hstage
    cases hstage
  · rw [h.main] at hstage
    cases hstage

/-- A record is not in the ring as long as its thread has not closed it again. -/
theorem Placed.not_mem (h : Placed w ts) (hu : (w.place u).task = some task)
    (hstate : ∀ entry, w.place u ≠ .taskStart task entry .state) : task ∉ mainTask :: ts := by
  intro hmem
  rcases List.mem_cons.mp hmem with rfl | hmem
  · exact h.ne_main hu rfl
  · rcases h.linked task hmem with hstarted | ⟨v, entry, hv⟩
    · rcases h.stage_of_task hu with hstage | hstage
      · rw [hstarted] at hstage
        cases hstage
      · rw [hstarted] at hstage
        cases hstage
    · have hvu : v = u := h.alone v u task (by rw [hv]; rfl) hu
      exact hstate entry (hvu ▸ hv)

/-- Thread `u`, which may be at record `task` but at no other, goes to `q`, and the record
gets to `g`. -/
theorem Placed.move (h : Placed w ts) (task : TaskRef) (q : Place) (g : Stage)
    (hplace : ∀ v, w'.place v = if v = u then q else w.place v)
    (hstage : ∀ t, w'.stage t = if t = task then g else w.stage t) (hne : task ≠ mainTask)
    (hholder : ∀ v, (w.place v).task = some task → v = u)
    (hold : ∀ t, (w.place u).task = some t → t = task) (hq : ∀ t, q.task = some t → t = task)
    (hfits : q.Fits fun t => if t = task then g else w.stage t) (hts : ∀ t ∈ ts', t ≠ task → t ∈ ts)
    (htask : task ∈ ts' → g = .started ∨ ∃ entry, q = .taskStart task entry .state) :
    Placed w' ts' := by
  have hstage' : w'.stage = fun t => if t = task then g else w.stage t := funext hstage
  have htaskOf : ∀ v t, (w'.place v).task = some t →
      (v = u ∧ t = task) ∨ (v ≠ u ∧ t ≠ task ∧ (w.place v).task = some t) := by
    intro v t hv
    rw [hplace] at hv
    by_cases hvu : v = u
    · rw [if_pos hvu] at hv
      exact .inl ⟨hvu, hq t hv⟩
    · rw [if_neg hvu] at hv
      exact .inr ⟨hvu, fun he => hvu (hholder v (he ▸ hv)), hv⟩
  refine ⟨?_, ?_, ?_, ?_⟩
  · intro v
    rw [hplace, hstage']
    by_cases hvu : v = u
    · rw [if_pos hvu]
      exact hfits
    · rw [if_neg hvu]
      have hv := h.fits v
      have hother : ∀ t, (w.place v).task = some t → t ≠ task :=
        fun t ht he => hvu (hholder v (he ▸ ht))
      cases hpl : w.place v with
      | outside => trivial
      | start p => rw [hpl] at hv; exact hv
      | createTask t cr3 stack p =>
        rw [hpl] at hv hother
        exact (if_neg (hother t rfl)).trans hv
      | taskStart t entry p =>
        rw [hpl] at hv hother
        exact (if_neg (hother t rfl)).trans hv
  · intro v₁ v₂ t h₁ h₂
    rcases htaskOf v₁ t h₁ with ⟨rfl, rfl⟩ | ⟨-, hn₁, hold₁⟩
    · rcases htaskOf v₂ t h₂ with ⟨rfl, -⟩ | ⟨-, hn₂, -⟩
      · rfl
      · exact absurd rfl hn₂
    · rcases htaskOf v₂ t h₂ with ⟨-, rfl⟩ | ⟨-, -, hold₂⟩
      · exact absurd rfl hn₁
      · exact h.alone v₁ v₂ t hold₁ hold₂
  · rw [hstage, if_neg hne.symm]
    exact h.main
  · intro t ht
    by_cases htt : t = task
    · subst htt
      rcases htask ht with hg | ⟨entry, hq'⟩
      · exact .inl (by rw [hstage, if_pos rfl, hg])
      · exact .inr ⟨u, entry, by rw [hplace, if_pos rfl, hq']⟩
    · rcases h.linked t (hts t ht htt) with hstarted | ⟨v, entry, hv⟩
      · exact .inl (by rw [hstage, if_neg htt, hstarted])
      · refine .inr ⟨v, entry, ?_⟩
        have hvu : v ≠ u := by
          rintro rfl
          exact htt (hold t (by rw [hv]; rfl))
        rw [hplace, if_neg hvu, hv]

/-! ## The invariant -/

/-- `m_runningTask` before each statement of `start`. -/
def StartPoint.runningTask? : StartPoint → Option TaskRef
  | .cr3 | .eflags | .registerInterrupt | .runningTask => none
  | _ => some mainTask

/-- `m_taskTail`. -/
def StartPoint.taskTail? : StartPoint → Option TaskRef
  | .configurePit => some mainTask
  | _ => none

/-- What a timer interrupt is passed to. -/
def StartPoint.timerHandler : StartPoint → Option Handler
  | .cr3 | .eflags | .registerInterrupt => none
  | _ => some .scheduler

/-- `start` is at `p`, and nothing else has been done. -/
structure Booting (w : State) (p : StartPoint) : Prop where
  place : ∀ u, w.place u = if u = mainTask then .start p else .outside
  stage : ∀ t, w.stage t = .unused
  next : (w.scheduler.tasks mainTask).next = none
  runningTask : w.scheduler.runningTask = p.runningTask?
  taskTail : w.scheduler.taskTail = p.taskTail?
  callbackTable : interruptHandler w.callbackTable timer = p.timerHandler

/-- The ring `ts` has been opened behind its tail, for `task`; `moved` once that is the tail. -/
structure Linking (s : Scheduler) (ts : List TaskRef) (task : TaskRef) (moved : Bool) : Prop where
  opened : ∃ s₀ tail, Ring s₀ ts ∧ s₀.taskTail = some tail ∧ s₀.runningTask = s.runningTask ∧
    (∀ x, (s.tasks x).next = if x = tail then some task else (s₀.tasks x).next) ∧
    s.taskTail = some (if moved then task else tail)

/-- Where a run of harmless actions can be: in `start`, with the ring closed, or with the ring
open and the thread that has opened it running. -/
inductive Inv (w : State) : Prop
  | booting (p : StartPoint) (h : Booting w p)
  | closed (ts : List TaskRef) (ring : Ring w.scheduler ts) (placed : Placed w ts)
      (closed : ∀ u task entry p, w.place u = .taskStart task entry p → p.isOpen = false)
  | linking (ts : List TaskRef) (r task : TaskRef) (entry : Word) (p : TaskStartPoint)
      (running : w.scheduler.runningTask = some r) (place : w.place r = .taskStart task entry p)
      (isOpen : p.isOpen = true) (shape : Linking w.scheduler ts task (p = .next))
      (placed : Placed w ts)
      (window : ∀ u task entry p, w.place u = .taskStart task entry p → p.isOpen = true → u = r)

/-- The invariant holds at boot. -/
theorem inv_boot (others : ℕ → Option Handler) (memory : ℕ → Task) :
    Inv (State.boot others memory) :=
  .booting .cr3 ⟨fun _ => rfl, fun _ => rfl, rfl, rfl, rfl, rfl⟩

theorem Booting.current {p : StartPoint} (h : Booting w p) : w.current = mainTask := by
  rw [State.current, h.runningTask]
  cases p <;> rfl

/-- A record that is being linked in, seen by the links, the tail and the running task. -/
theorem Linking.congr {moved : Bool} (h : Linking s ts task moved)
    (hnext : ∀ x, (s'.tasks x).next = (s.tasks x).next) (htail : s'.taskTail = s.taskTail)
    (hrunning : s'.runningTask = s.runningTask) : Linking s' ts task moved := by
  obtain ⟨s₀, tail, hring, h₀, hrun, hopen, hmoved⟩ := h.opened
  exact ⟨s₀, tail, hring, h₀, hrun.trans hrunning.symm, fun x => (hnext x).trans (hopen x),
    htail.trans hmoved⟩

/-- The invariant does not ask for the other fields of the scheduler. -/
theorem Inv.congr (h : Inv w) (hnext : ∀ x, (s.tasks x).next = (w.scheduler.tasks x).next)
    (htail : s.taskTail = w.scheduler.taskTail)
    (hrunning : s.runningTask = w.scheduler.runningTask) : Inv (w.update s) := by
  cases h with
  | booting p h =>
    exact .booting p ⟨h.place, h.stage, (hnext _).trans h.next, hrunning.trans h.runningTask,
      htail.trans h.taskTail, h.callbackTable⟩
  | closed ts ring placed closed =>
    refine .closed ts (ring.congr hnext htail (hrunning ▸ ring.running)) ?_ closed
    exact ⟨placed.fits, placed.alone, placed.main, placed.linked⟩
  | linking ts r task entry p running place isOpen shape placed window =>
    refine .linking ts r task entry p (hrunning.trans running) place isOpen
      (shape.congr hnext htail hrunning) ?_ window
    exact ⟨placed.fits, placed.alone, placed.main, placed.linked⟩

/-! ## `schedule` -/

/-- What is selected has been started, and leads back. -/
def Sound (w : State) (s' : Scheduler) (t : TaskRef) : Prop :=
  (t = mainTask ∨ w.stage t = .started) ∧ Relation.ReflTransGen s'.Links t mainTask

/-- A schedule keeps the invariant, and selects a task that has been started. -/
theorem inv_schedule {fuel : ℕ} {cpu : TaskRegisters} {selected : Option TaskRef} (h : Inv w)
    (hnext : ∀ x, (s.tasks x).next = (w.scheduler.tasks x).next)
    (htail : s.taskTail = w.scheduler.taskTail) (hrunning : s.runningTask = w.scheduler.runningTask)
    (hquiet : s.schedulerEnabled = true → Undisturbed w s)
    (hrun : s.schedule fuel cpu = .ok (selected, s')) :
    Inv (w.update s') ∧ ∀ t, selected = some t → Sound w s' t := by
  rcases Scheduler.schedule_reaches hrun with ⟨rfl, rfl⟩ | ⟨r, t, hen, hr, rfl, rfl, hreach, helig⟩
  · exact ⟨h.congr hnext htail hrunning, fun t ht => by cases ht⟩
  obtain hquiet := hquiet hen
  cases h with
  | booting p h =>
    -- `mainTask` has no next task yet
    exfalso
    have hmain : r = mainTask := by
      have hrun := h.runningTask
      rw [← hrunning, hr] at hrun
      cases p <;> first | exact Option.some.inj hrun | cases hrun
    subst hmain
    obtain ⟨x, hx, -⟩ := Relation.TransGen.head'_iff.mp hreach
    rw [Links, hnext, h.next] at hx
    cases hx
  | closed ts ring placed closed =>
    have hring : Ring s ts := ring.congr hnext htail (hrunning ▸ ring.running)
    obtain ⟨r', hmem, hr'⟩ := hring.running
    obtain rfl := Option.some.inj (hr.symm.trans hr')
    have ht := hring.mem_of_reaches hmem hreach
    have hring' : Ring (s.switchTo cpu r t) ts := hring.switchTo ht
    refine ⟨.closed ts hring' ⟨placed.fits, placed.alone, placed.main, placed.linked⟩ closed, ?_⟩
    rintro t' ht'
    obtain rfl := Option.some.inj ht'
    refine ⟨?_, hring'.leads ht⟩
    rcases List.mem_cons.mp ht with hmain | htask
    · exact .inl hmain
    · rcases placed.linked t htask with hstarted | ⟨u, entry, hu⟩
      · exact .inr hstarted
      · rw [hquiet.state u t entry hu] at helig
        cases helig
  | linking ts r' task entry p running place isOpen shape placed window =>
    exfalso
    rw [running, hr] at hrunning
    obtain rfl := Option.some.inj hrunning
    have hcur : w.current = r := by rw [State.current, running]; rfl
    have hnone := hquiet.linking task entry p (hcur ▸ place) isOpen t (hcur ▸ hreach)
    rw [hnone] at helig
    cases helig

/-! ## Statements -/

/-- A statement of `start`. -/
theorem inv_startStatement {p : StartPoint} (cpu : TaskRegisters) (h : Booting w p) :
    Inv ((w.startStatement cpu p).goTo mainTask p.after) := by
  have hplace : ∀ {q : StartPoint} (u : TaskRef), (if u = mainTask then Place.start q else w.place u)
      = if u = mainTask then .start q else .outside := by
    intro q u
    by_cases hu : u = mainTask
    · rw [if_pos hu, if_pos hu]
    · rw [if_neg hu, if_neg hu, h.place, if_neg hu]
  have hrun := h.runningTask
  have htail := h.taskTail
  have htable := h.callbackTable
  cases p with
  | cr3 => exact .booting .eflags ⟨hplace, h.stage, h.next, hrun, htail, htable⟩
  | eflags => exact .booting .registerInterrupt ⟨hplace, h.stage, h.next, hrun, htail, htable⟩
  | registerInterrupt => exact .booting .runningTask ⟨hplace, h.stage, h.next, hrun, htail, rfl⟩
  | runningTask => exact .booting .name ⟨hplace, h.stage, h.next, rfl, htail, htable⟩
  | name => exact .booting .state ⟨hplace, h.stage, h.next, hrun, htail, htable⟩
  | state => exact .booting .taskTail ⟨hplace, h.stage, h.next, hrun, htail, htable⟩
  | taskTail => exact .booting .configurePit ⟨hplace, h.stage, h.next, hrun, rfl, htable⟩
  | configurePit =>
    -- `mainTask` alone is a ring
    have hplace' : ∀ u, ((w.startStatement cpu .configurePit).goTo mainTask .outside).place u
        = .outside := by
      intro u
      show (if u = mainTask then Place.outside else w.place u) = .outside
      by_cases hu : u = mainTask
      · rw [if_pos hu]
      · rw [if_neg hu, h.place, if_neg hu]
    refine .closed [] ⟨by simp, htail, ⟨mainTask, by simp, hrun⟩, fun _ => h.next, fun hne =>
      absurd rfl hne⟩ ⟨?_, ?_, h.stage mainTask, fun t ht => absurd ht List.not_mem_nil⟩ ?_
    · intro u
      rw [StartPoint.after, hplace' u]
      trivial
    · intro u v task hu
      rw [StartPoint.after, hplace' u] at hu
      cases hu
    · intro u task entry p hu
      rw [StartPoint.after, hplace' u] at hu
      cases hu

theorem CreatePoint.after_cases (task : TaskRef) (cr3 stack : Word) (p : CreatePoint) :
    p = .next ∨ p ≠ .next ∧ ∃ p', p.after task cr3 stack = .createTask task cr3 stack p' := by
  cases p <;> simp [CreatePoint.after]

theorem createStatement_scheduler {p : CreatePoint} : (w.createStatement task cr3 stack p).scheduler
    = w.scheduler.modify task (p.assign (w.scheduler.tasks mainTask) cr3 stack) := by
  cases p <;> rfl

theorem createStatement_place {p : CreatePoint} :
    (w.createStatement task cr3 stack p).place = w.place := by
  cases p <;> rfl

theorem createStatement_stage {p : CreatePoint} (hp : p ≠ .next) :
    (w.createStatement task cr3 stack p).stage = w.stage := by
  cases p <;> first | rfl | exact absurd rfl hp

/-- A statement of `createTask`. -/
theorem inv_createStatement {p : CreatePoint} (ring : Ring w.scheduler ts) (placed : Placed w ts)
    (closed : ∀ u task entry p, w.place u = .taskStart task entry p → p.isOpen = false)
    (hu : w.place u = .createTask task cr3 stack p) :
    Inv ((w.createStatement task cr3 stack p).goTo u (p.after task cr3 stack)) := by
  have htask : (w.place u).task = some task := by rw [hu]; rfl
  have hout := placed.not_mem htask fun entry he => by rw [hu] at he; cases he
  have hcreating : w.stage task = .creating := by
    have := placed.fits u
    rwa [hu] at this
  have hholder : ∀ v, (w.place v).task = some task → v = u :=
    fun v hv => placed.alone v u task hv htask
  have hold : ∀ t, (w.place u).task = some t → t = task :=
    fun t ht => (Option.some.inj (htask.symm.trans ht)).symm
  have hplace : ∀ v, ((w.createStatement task cr3 stack p).goTo u (p.after task cr3 stack)).place v
      = if v = u then p.after task cr3 stack else w.place v := by
    intro v
    rw [State.goTo_place, createStatement_place]
  have hring : Ring ((w.createStatement task cr3 stack p).goTo u (p.after task cr3 stack)).scheduler
      ts := by
    rw [State.goTo_scheduler, createStatement_scheduler]
    exact ring.modify hout _
  refine .closed ts hring ?_ ?_
  · rcases p.after_cases task cr3 stack with rfl | ⟨hp, p', hafter⟩
    · exact placed.move task .outside .created hplace (fun _ => rfl) (placed.ne_main htask) hholder hold
        (fun t ht => by cases ht) trivial (fun t ht _ => ht)
        fun hmem => absurd (List.mem_cons_of_mem _ hmem) hout
    · rw [hafter] at hplace ⊢
      refine placed.move task (.createTask task cr3 stack p') .creating hplace (fun t => ?_)
        (placed.ne_main htask) hholder hold (fun t ht => (Option.some.inj ht).symm) (if_pos rfl)
        (fun t ht _ => ht) fun hmem => absurd (List.mem_cons_of_mem _ hmem) hout
      rw [State.goTo_stage, createStatement_stage hp]
      by_cases ht : t = task
      · rw [if_pos ht, ht, hcreating]
      · rw [if_neg ht]
  · intro v t entry p₁ hv
    rw [hplace] at hv
    by_cases hvu : v = u
    · rw [if_pos hvu] at hv
      cases p <;> cases hv
    · rw [if_neg hvu] at hv
      exact closed v t entry p₁ hv

/-- A thread in `taskStart` goes on to `p'`. -/
theorem Placed.advance (h : Placed w ts) (p' : TaskStartPoint)
    (hu : w.place u = .taskStart task entry p) (hstage : w'.stage = w.stage)
    (hplace : ∀ v, w'.place v = if v = u then .taskStart task entry p' else w.place v)
    (hts : ∀ t ∈ ts', t ≠ task → t ∈ ts) (htask : task ∈ ts' → p' = .state) : Placed w' ts' := by
  have htaskOf : (w.place u).task = some task := by rw [hu]; rfl
  have hstarting : w.stage task = .starting := by
    have := h.fits u
    rwa [hu] at this
  refine h.move task (.taskStart task entry p') .starting hplace (fun t => ?_) (h.ne_main htaskOf)
    (fun v hv => h.alone v u task hv htaskOf)
    (fun t ht => (Option.some.inj (htaskOf.symm.trans ht)).symm)
    (fun t ht => (Option.some.inj ht).symm) (if_pos rfl) hts
    fun hmem => .inr ⟨entry, by rw [htask hmem]⟩
  rw [hstage]
  by_cases ht : t = task
  · rw [if_pos ht, ht, hstarting]
  · rw [if_neg ht]

/-- The ring is opened, or a field is set that it does not depend on. -/
theorem inv_taskStart_closed (ring : Ring w.scheduler ts) (placed : Placed w ts)
    (closed : ∀ u task entry p, w.place u = .taskStart task entry p → p.isOpen = false)
    (hrun : w.scheduler.runningTask = some u) (hu : w.place u = .taskStart task entry p) :
    ∃ w₁, w.taskStartStatement task entry p = .ok w₁ ∧ Inv (w₁.goTo u (p.after task entry)) := by
  have htaskOf : (w.place u).task = some task := by rw [hu]; rfl
  have hout : p ≠ .state → task ∉ mainTask :: ts := by
    intro hp
    refine placed.not_mem htaskOf fun entry' he => hp ?_
    rw [hu] at he
    injection he
  have hothers : ∀ {q : Place} {v t : TaskRef} {entry' : Word} {p₁ : TaskStartPoint},
      (if v = u then q else w.place v) = .taskStart t entry' p₁ → v ≠ u → p₁.isOpen = false := by
    intro q v t entry' p₁ hv hvu
    rw [if_neg hvu] at hv
    exact closed v t entry' p₁ hv
  cases p with
  | eip =>
    have hring : Ring (w.scheduler.modify task fun t =>
        { t with regs := { t.regs with eip := entry } }) ts := ring.modify (hout (by decide)) _
    refine ⟨_, rfl, .closed ts hring ?_ ?_⟩
    · exact placed.advance .link hu rfl (fun v => rfl) (fun t ht _ => ht)
        fun hmem => absurd (List.mem_cons_of_mem _ hmem) (hout (by decide))
    · intro v t entry' p₁ hv
      by_cases hvu : v = u
      · have hv' : (if v = u then Place.taskStart task entry .link else w.place v) = _ := hv
        rw [if_pos hvu] at hv'
        injection hv' with _ _ hp
        rw [← hp]
        rfl
      · exact hothers hv hvu
  | link =>
    obtain ⟨tail, htail⟩ : ∃ tail, w.scheduler.taskTail = some tail := by
      rw [ring.tail, List.getLast?_eq_some_getLast (List.cons_ne_nil _ _)]
      exact ⟨_, rfl⟩
    refine ⟨w.update (w.scheduler.modify tail fun t => { t with next := some task }), ?_, ?_⟩
    · simp only [State.taskStartStatement, htail, deref, bind, Except.bind, pure, Except.pure]
    have hshape : Linking (w.scheduler.modify tail fun t => { t with next := some task }) ts task
        false := by
      refine ⟨w.scheduler, tail, ring, htail, rfl, fun x => ?_, htail⟩
      rw [Scheduler.modify_tasks]
      split_ifs <;> rfl
    refine .linking ts u task entry .taskTail hrun (if_pos rfl) rfl hshape ?_ ?_
    · exact placed.advance .taskTail hu rfl (fun v => rfl) (fun t ht _ => ht)
        fun hmem => absurd (List.mem_cons_of_mem _ hmem) (hout (by decide))
    · intro v t entry' p₁ hv hopen
      by_contra hvu
      rw [hothers hv hvu] at hopen
      cases hopen
  | taskTail => cases closed u task entry _ hu
  | next => cases closed u task entry _ hu
  | state =>
    have hring : Ring (w.scheduler.modify task fun t => { t with state := .running }) ts := by
      refine ring.congr (fun x => ?_) rfl ring.running
      rw [Scheduler.modify_tasks]
      split_ifs <;> rfl
    refine ⟨_, rfl, .closed ts hring ?_ ?_⟩
    · exact placed.move task .outside .started (fun v => rfl) (fun t => rfl)
        (placed.ne_main htaskOf) (fun v hv => placed.alone v u task hv htaskOf)
        (fun t ht => (Option.some.inj (htaskOf.symm.trans ht)).symm) (fun t ht => by cases ht)
        trivial (fun t ht _ => ht) fun _ => .inl rfl
    · intro v t entry' p₁ hv
      by_cases hvu : v = u
      · have hv' : (if v = u then Place.outside else w.place v) = _ := hv
        rw [if_pos hvu] at hv'
        cases hv'
      · exact hothers hv hvu

/-- The ring is closed again. -/
theorem inv_taskStart_open (hrun : w.scheduler.runningTask = some u)
    (hu : w.place u = .taskStart task entry p) (hopen : p.isOpen = true)
    (shape : Linking w.scheduler ts task (p = .next)) (placed : Placed w ts)
    (window : ∀ v task entry p, w.place v = .taskStart task entry p → p.isOpen = true → v = u) :
    ∃ w₁, w.taskStartStatement task entry p = .ok w₁ ∧ Inv (w₁.goTo u (p.after task entry)) := by
  have htaskOf : (w.place u).task = some task := by rw [hu]; rfl
  have hout : task ∉ mainTask :: ts := by
    refine placed.not_mem htaskOf fun entry' he => ?_
    rw [hu] at he
    injection he with _ _ hp
    rw [hp] at hopen
    cases hopen
  obtain ⟨s₀, tail, hring, h₀, hrun₀, hnext, htail⟩ := shape.opened
  cases p with
  | eip => cases hopen
  | link => cases hopen
  | taskTail =>
    refine ⟨_, rfl, .linking ts u task entry .next hrun (if_pos rfl) rfl ?_ ?_ ?_⟩
    · exact ⟨s₀, tail, hring, h₀, hrun₀, hnext, rfl⟩
    · exact placed.advance .next hu rfl (fun v => rfl) (fun t ht _ => ht)
        fun hmem => absurd (List.mem_cons_of_mem _ hmem) hout
    · intro v t entry' p₁ hv hopen'
      by_contra hvu
      have hv' : (if v = u then Place.taskStart task entry .next else w.place v) = _ := hv
      rw [if_neg hvu] at hv'
      exact hvu (window v t entry' p₁ hv' hopen')
  | next =>
    have hjoined : Joined s₀ tail task
        (w.scheduler.modify task fun t => { t with next := some mainTask }) := by
      refine ⟨fun x => ?_, htail, hrun₀.symm⟩
      rw [Scheduler.modify_tasks, ← hnext]
      split_ifs <;> rfl
    refine ⟨_, rfl, .closed (ts ++ [task]) (hring.joined hout h₀ hjoined) ?_ ?_⟩
    · refine placed.advance .state hu rfl (fun v => rfl) (fun t ht hne => ?_) fun _ => rfl
      exact (List.mem_append.mp ht).resolve_right fun he => hne (List.mem_singleton.mp he)
    · intro v t entry' p₁ hv
      have hv' : (if v = u then Place.taskStart task entry .state else w.place v) = _ := hv
      by_cases hvu : v = u
      · rw [if_pos hvu] at hv'
        injection hv' with _ _ hp
        rw [← hp]
        rfl
      · rw [if_neg hvu] at hv'
        rw [← Bool.not_eq_true]
        exact fun hopen' => hvu (window v t entry' p₁ hv' hopen')
  | state => cases hopen

theorem current_eq (hrun : w.scheduler.runningTask = some r) : w.current = r := by
  rw [State.current, hrun]
  rfl

/-- The next statement of the running thread follows no null pointer. -/
theorem inv_statement (h : Inv w) (cpu : TaskRegisters) :
    ∃ w', w.statement cpu w.current = .ok w' ∧ Inv w' := by
  cases h with
  | booting p h =>
    have hu : w.place mainTask = .start p := by rw [h.place, if_pos rfl]
    refine ⟨_, ?_, inv_startStatement cpu h⟩
    rw [h.current, State.statement, hu]
    rfl
  | closed ts ring placed closed =>
    obtain ⟨r, -, hrun⟩ := ring.running
    rw [current_eq hrun]
    cases hu : w.place r with
    | outside =>
      refine ⟨w, ?_, .closed ts ring placed closed⟩
      rw [State.statement, hu]
      rfl
    | start p =>
      have := placed.fits r
      rw [hu] at this
      exact absurd this id
    | createTask task cr3 stack p =>
      refine ⟨_, ?_, inv_createStatement ring placed closed hu⟩
      rw [State.statement, hu]
      rfl
    | taskStart task entry p =>
      obtain ⟨w₁, hw₁, hinv⟩ := inv_taskStart_closed ring placed closed hrun hu
      refine ⟨_, ?_, hinv⟩
      rw [State.statement, hu]
      simp only [hw₁, bind, Except.bind, pure, Except.pure]
  | linking ts r task entry p running place isOpen shape placed window =>
    obtain ⟨w₁, hw₁, hinv⟩ := inv_taskStart_open running place isOpen shape placed window
    refine ⟨_, ?_, hinv⟩
    rw [current_eq running, State.statement, place]
    simp only [hw₁, bind, Except.bind, pure, Except.pure]

/-! ## Calls -/

/-- A thread outside the three functions finds the ring closed. -/
theorem Inv.of_outside (h : Inv w) (hu : w.place w.current = .outside) :
    ∃ ts, Ring w.scheduler ts ∧ Placed w ts ∧
      ∀ u task entry p, w.place u = .taskStart task entry p → p.isOpen = false := by
  cases h with
  | booting p h =>
    rw [h.current, h.place, if_pos rfl] at hu
    cases hu
  | closed ts ring placed closed => exact ⟨ts, ring, placed, closed⟩
  | linking ts r task entry p running place isOpen shape placed window =>
    rw [current_eq running, place] at hu
    cases hu

/-- A thread goes from outside to a record that is not in the ring. -/
theorem inv_enter (ring : Ring w'.scheduler ts) (placed : Placed w ts)
    (closed : ∀ u task entry p, w.place u = .taskStart task entry p → p.isOpen = false)
    (hu : w.place u = .outside) (hne : task ≠ mainTask) (hout : task ∉ ts)
    (hfree : w.stage task ≠ .creating ∧ w.stage task ≠ .starting)
    (hplace : ∀ v, w'.place v = if v = u then q else w.place v)
    (hstage : ∀ t, w'.stage t = if t = task then g else w.stage t)
    (hq : ∀ t, q.task = some t → t = task) (hfits : q.Fits fun t => if t = task then g else w.stage t)
    (hopen : ∀ task entry p, q = .taskStart task entry p → p.isOpen = false) : Inv w' := by
  refine .closed ts ring ?_ ?_
  · refine placed.move task q g hplace hstage hne (fun v hv => ?_) (fun t ht => ?_) hq hfits
      (fun t ht _ => ht) fun hmem => absurd hmem hout
    · rcases placed.stage_of_task hv with hstage | hstage
      · exact absurd hstage hfree.1
      · exact absurd hstage hfree.2
    · rw [hu] at ht
      cases ht
  · intro v task' entry p hv
    rw [hplace] at hv
    by_cases hvu : v = u
    · rw [if_pos hvu] at hv
      exact hopen task' entry p hv
    · rw [if_neg hvu] at hv
      exact closed v task' entry p hv

/-- A record that is not started, and whose thread is not about to end `taskStart`, is not in the
ring. -/
theorem Placed.not_linked (h : Placed w ts) (hstage : w.stage t = .unused ∨ w.stage t = .created) :
    t ∉ ts := by
  intro hmem
  rcases h.linked t hmem with hstarted | ⟨u, entry, hu⟩
  · rw [hstarted] at hstage
    rcases hstage with hstage | hstage <;> cases hstage
  · have hfits := h.fits u
    rw [hu] at hfits
    have hstarting : w.stage t = .starting := hfits
    rw [hstarting] at hstage
    rcases hstage with hstage | hstage <;> cases hstage

/-- An action either gets to `schedule`, with a running task, or selects nothing and comes to its
end. -/
theorem exec_cases {a : Action} (h : Inv w) (hposs : w.Possible a) :
    (∃ s, w.atSchedule a = some s ∧ (∀ x, (s.tasks x).next = (w.scheduler.tasks x).next) ∧
      s.taskTail = w.scheduler.taskTail ∧ s.runningTask = w.scheduler.runningTask ∧
      (∀ fuel cpu, w.exec fuel cpu a = w.call (s.schedule fuel cpu)) ∧
      (Undisturbed w s → ∃ r, s.runningTask = some r)) ∨
    ∀ fuel cpu, ∃ w', w.exec fuel cpu a = .ok (none, w') ∧ Inv w' := by
  cases a with
  | tick =>
    rcases hhandler : interruptHandler w.callbackTable timer with _ | handler
    · refine .inr fun fuel cpu => ⟨w, ?_, h⟩
      rw [State.exec, hhandler]
      rfl
    cases handler with
    | keyboard =>
      refine .inr fun fuel cpu => ⟨w, ?_, h⟩
      rw [State.exec, hhandler]
      rfl
    | scheduler =>
      refine .inl ⟨w.scheduler.countTick, ?_, fun _ => rfl, rfl, rfl, fun fuel cpu => ?_, ?_⟩
      · rw [State.atSchedule, hhandler]
      · rw [State.exec, hhandler]
        rfl
      · intro hquiet
        show ∃ r, w.scheduler.runningTask = some r
        cases h with
        | booting p h =>
          -- the handler is registered, and the next statement has been executed as well
          have hmain := hquiet.running
          rw [h.place, if_pos rfl] at hmain
          rw [h.callbackTable] at hhandler
          rw [h.runningTask]
          cases p <;> first | exact ⟨_, rfl⟩ | exact absurd rfl hmain | cases hhandler
        | closed ts ring placed closed =>
          obtain ⟨r, -, hr⟩ := ring.running
          exact ⟨r, hr⟩
        | linking ts r task entry p running place isOpen shape placed window => exact ⟨r, running⟩
  | statement =>
    refine .inr fun fuel cpu => ?_
    obtain ⟨w', hw', hinv⟩ := inv_statement h cpu
    refine ⟨w', ?_, hinv⟩
    simp only [State.exec, hw', bind, Except.bind, pure, Except.pure]
  | createTask task raw cr3 stack =>
    obtain ⟨hu, hunused, hne⟩ := hposs
    obtain ⟨ts, ring, placed, closed⟩ := h.of_outside hu
    have hout := placed.not_linked (.inl hunused)
    have hring : Ring (w.scheduler.modify task fun _ => raw) ts :=
      ring.modify (fun hmem => (List.mem_cons.mp hmem).elim hne hout) _
    refine .inr fun fuel cpu => ⟨_, rfl, ?_⟩
    exact inv_enter (q := .createTask task cr3 stack .eax) (g := .creating) hring placed closed hu hne
      hout (by rw [hunused]; decide) (fun _ => rfl) (fun _ => rfl)
      (fun t ht => (Option.some.inj ht).symm) (if_pos rfl) (fun _ _ _ hq => by cases hq)
  | taskStart task entry =>
    obtain ⟨hu, hcreated⟩ := hposs
    obtain ⟨ts, ring, placed, closed⟩ := h.of_outside hu
    have hne : task ≠ mainTask := by
      rintro rfl
      rw [placed.main] at hcreated
      cases hcreated
    refine .inr fun fuel cpu => ⟨_, rfl, ?_⟩
    refine inv_enter (q := .taskStart task entry .eip) (g := .starting) ring placed closed hu hne
      (placed.not_linked (.inr hcreated)) (by rw [hcreated]; decide) (fun _ => rfl) (fun _ => rfl)
      (fun t ht => (Option.some.inj ht).symm) (if_pos rfl) fun task' entry' p hq => ?_
    injection hq with _ _ hp
    rw [← hp]
    rfl
  | schedule =>
    obtain ⟨ts, ring, -, -⟩ := h.of_outside hposs
    obtain ⟨r, -, hr⟩ := ring.running
    exact .inl ⟨w.scheduler, rfl, fun _ => rfl, rfl, rfl, fun _ _ => rfl, fun _ => ⟨r, hr⟩⟩
  | sleep sleepMs =>
    obtain ⟨ts, ring, -, -⟩ := h.of_outside hposs
    obtain ⟨r, -, hr⟩ := ring.running
    refine .inl ⟨w.scheduler.fallAsleep sleepMs r, ?_, fun _ => Scheduler.fallAsleep_next, rfl, rfl,
      fun fuel cpu => ?_, fun _ => ⟨r, hr⟩⟩
    · rw [State.atSchedule, hr]
      rfl
    · rw [State.exec, Scheduler.sleep, hr]
      rfl
  | enable => exact .inr fun fuel cpu => ⟨_, rfl, h.congr (fun _ => rfl) rfl rfl⟩
  | disable => exact .inr fun fuel cpu => ⟨_, rfl, h.congr (fun _ => rfl) rfl rfl⟩

/-- One harmless action. -/
theorem inv_exec {a : Action} (fuel : ℕ) (cpu : TaskRegisters) (h : Inv w) (hposs : w.Possible a)
    (hharm : Harmless w a) :
    w.exec fuel cpu a ≠ .error .null ∧ ∀ selected w', w.exec fuel cpu a = .ok (selected, w') →
      Inv w' ∧ ∀ t, selected = some t → Sound w w'.scheduler t := by
  rcases exec_cases h hposs with ⟨s, hat, hnext, htail, hrun, hexec, hsome⟩ | hother
  · rw [hexec]
    have hquiet := hharm s hat
    cases hsched : s.schedule fuel cpu with
    | error stop =>
      refine ⟨fun hnull => ?_, fun selected w' hok => by cases hok⟩
      obtain rfl : stop = .null := Except.error.inj hnull
      exact Scheduler.schedule_ne_null (fun hen => hsome (hquiet hen)) hsched
    | ok result =>
      refine ⟨fun hnull => (by cases hnull), fun selected w' hok => ?_⟩
      obtain ⟨rfl, rfl⟩ := Prod.mk.inj (Except.ok.inj hok)
      exact inv_schedule h hnext htail hrun hquiet hsched
  · obtain ⟨w₁, hw₁, hinv⟩ := hother fuel cpu
    rw [hw₁]
    refine ⟨fun hnull => (by cases hnull), fun selected w' hok => ?_⟩
    obtain ⟨rfl, rfl⟩ := Prod.mk.inj (Except.ok.inj hok)
    exact ⟨hinv, fun t ht => by cases ht⟩

/-- A run whose actions all meet the condition keeps the invariant. -/
theorem inv_run {es : List Event} (hrun : Run.Trace Step w es w') (h : Inv w)
    (hes : ∀ e ∈ es, Harmless e.before e.action) : Inv w' := by
  induction hrun with
  | nil w => exact h
  | @cons w w₁ w' e es hstep _ ih =>
    obtain ⟨rfl, hposs, fuel, cpu, hexec⟩ := hstep
    refine ih ?_ fun e' he' => hes e' (List.mem_cons_of_mem _ he')
    exact ((inv_exec fuel cpu h hposs (hes e List.mem_cons_self)).2 e.selected w₁ hexec).1

/-! ## What has been executed -/

/-- The statements of `taskStart` before each. -/
def TaskStartPoint.done : TaskStartPoint → List TaskStartPoint
  | .eip => []
  | .link => [.eip]
  | .taskTail => [.eip, .link]
  | .next => [.eip, .link, .taskTail]
  | .state => [.eip, .link, .taskTail, .next]

/-- The statements that have been executed are in the past. -/
structure Recorded (past : List Event) (w : State) : Prop where
  started : ∀ t, w.stage t = .started → ∀ p, ∃ e ∈ past, e.Runs t p
  place : ∀ u t entry p, w.place u = .taskStart t entry p →
    ∀ p' ∈ p.done, ∃ e ∈ past, e.Runs t p'

/-- One more event: what is new about a record has to be explained by the events. -/
theorem Recorded.append {past : List Event} (h : Recorded past w) (e : Event)
    (hstage : ∀ t, w'.stage t = .started → w.stage t = .started ∨ ∀ p, ∃ e' ∈ past ++ [e], e'.Runs t p)
    (hplace : ∀ u t entry p, w'.place u = .taskStart t entry p → w.place u = .taskStart t entry p ∨
      ∀ p' ∈ p.done, ∃ e' ∈ past ++ [e], e'.Runs t p') : Recorded (past ++ [e]) w' := by
  have hmore : ∀ {t p}, (∃ e' ∈ past, e'.Runs t p) → ∃ e' ∈ past ++ [e], e'.Runs t p := by
    rintro t p ⟨e', hmem, hruns⟩
    exact ⟨e', List.mem_append_left _ hmem, hruns⟩
  refine ⟨fun t ht p => ?_, fun u t entry p hu p' hp' => ?_⟩
  · rcases hstage t ht with hold | hnew
    · exact hmore (h.started t hold p)
    · exact hnew p
  · rcases hplace u t entry p hu with hold | hnew
    · exact hmore (h.place u t entry p hold p' hp')
    · exact hnew p' hp'

/-- An event that moves no thread and starts no record. -/
theorem Recorded.keep {past : List Event} (h : Recorded past w) (e : Event)
    (hplace : w'.place = w.place) (hstage : w'.stage = w.stage) : Recorded (past ++ [e]) w' :=
  h.append e (fun _ ht => .inl (hstage ▸ ht)) fun _ _ _ _ hu => .inl (hplace ▸ hu)

theorem TaskStartPoint.mem_done {p' p₁ : TaskStartPoint} {t : TaskRef} {entry' : Word}
    (h : p.after task entry = .taskStart t entry' p') (hp : p₁ ∈ p'.done) :
    t = task ∧ (p₁ ∈ p.done ∨ p₁ = p) := by
  cases p <;> cases h <;> refine ⟨rfl, ?_⟩ <;>
    simp only [TaskStartPoint.done, List.mem_cons, List.not_mem_nil, or_false, false_or,
      or_assoc] at hp ⊢ <;> exact hp

theorem TaskStartPoint.mem_done_state (p : TaskStartPoint) :
    p ∈ TaskStartPoint.state.done ∨ p = .state := by
  cases p <;> simp [TaskStartPoint.done]

/-- A statement of `taskStart` moves no thread, and starts its own record at most. -/
theorem taskStartStatement_frame (h : w.taskStartStatement task entry p = .ok w') :
    w'.place = w.place ∧
      ∀ t, w'.stage t = .started → w.stage t = .started ∨ t = task ∧ p = .state := by
  cases p with
  | link =>
    rw [State.taskStartStatement] at h
    cases htail : w.scheduler.taskTail with
    | none => rw [htail] at h; cases h
    | some tail =>
      rw [htail] at h
      obtain rfl := Except.ok.inj h
      exact ⟨rfl, fun t ht => .inl ht⟩
  | state =>
    obtain rfl := Except.ok.inj h
    refine ⟨rfl, fun t ht => ?_⟩
    by_cases htt : t = task
    · exact .inr ⟨htt, rfl⟩
    · exact .inl ((if_neg htt).symm.trans ht)
  | eip | taskTail | next =>
    obtain rfl := Except.ok.inj h
    exact ⟨rfl, fun t ht => .inl ht⟩

theorem call_eq_ok {r : Except Stop (Option TaskRef × Scheduler)} {selected : Option TaskRef}
    (h : w.call r = .ok (selected, w')) : w'.place = w.place ∧ w'.stage = w.stage := by
  cases r with
  | error stop => cases h
  | ok result =>
    obtain ⟨-, rfl⟩ := Prod.mk.inj (Except.ok.inj h)
    exact ⟨rfl, rfl⟩

/-- A statement goes into the record. -/
theorem Recorded.statement {past : List Event} {cpu : TaskRegisters} {e : Event}
    (h : Recorded past w) (he : e.before = w ∧ e.action = .statement)
    (hw : w.statement cpu w.current = .ok w') : Recorded (past ++ [e]) w' := by
  obtain ⟨rfl, haction⟩ := he
  rw [State.statement] at hw
  cases hu : e.before.place e.before.current with
  | outside =>
    rw [hu] at hw
    obtain rfl := Except.ok.inj hw
    exact h.keep e rfl rfl
  | start p =>
    rw [hu] at hw
    obtain rfl := Except.ok.inj hw
    refine h.append e (fun t ht => .inl ?_) fun u t entry p' hu' => .inl ?_
    · cases p <;> exact ht
    · rw [State.goTo_place] at hu'
      split_ifs at hu' with huc
      · cases p <;> cases hu'
      · cases p <;> exact hu'
  | createTask task cr3 stack p =>
    rw [hu] at hw
    obtain rfl := Except.ok.inj hw
    refine h.append e (fun t ht => .inl ?_) fun u t entry p' hu' => .inl ?_
    · rw [State.goTo_stage] at ht
      by_cases hp : p = .next
      · subst hp
        have ht' : (if t = task then Stage.created else e.before.stage t) = .started := ht
        split_ifs at ht'
        exact ht'
      · rwa [createStatement_stage hp] at ht
    · rw [State.goTo_place, createStatement_place] at hu'
      split_ifs at hu' with huc
      · cases p <;> cases hu'
      · exact hu'
  | taskStart task entry p =>
    simp only [hu] at hw
    cases hw₁ : e.before.taskStartStatement task entry p with
    | error stop => rw [hw₁] at hw; cases hw
    | ok w₁ =>
      rw [hw₁] at hw
      obtain rfl := Except.ok.inj hw
      obtain ⟨hplace, hstage⟩ := taskStartStatement_frame hw₁
      have hnow : ∃ e' ∈ past ++ [e], e'.Runs task p :=
        ⟨e, List.mem_append_right _ (List.mem_singleton.mpr rfl), haction, entry, hu⟩
      have hsofar : ∀ p₁, p₁ ∈ p.done ∨ p₁ = p → ∃ e' ∈ past ++ [e], e'.Runs task p₁ := by
        rintro p₁ (hp₁ | rfl)
        · obtain ⟨e', hmem, hruns⟩ := h.place _ task entry p hu p₁ hp₁
          exact ⟨e', List.mem_append_left _ hmem, hruns⟩
        · exact hnow
      refine h.append e (fun t ht => ?_) fun u t entry' p' hu' => ?_
      · rcases hstage t ht with hold | ⟨rfl, rfl⟩
        · exact .inl hold
        · exact .inr fun p₁ => hsofar p₁ p₁.mem_done_state
      · rw [State.goTo_place, hplace] at hu'
        split_ifs at hu' with huc
        · refine .inr fun p₁ hp₁ => ?_
          obtain ⟨rfl, hdone⟩ := TaskStartPoint.mem_done hu' hp₁
          exact hsofar p₁ hdone
        · exact .inl hu'

/-- A step records what it does. -/
theorem recorded_step {past : List Event} {e : Event} (h : Recorded past w) (hstep : Step w e w') :
    Recorded (past ++ [e]) w' := by
  obtain ⟨hbefore, hposs, fuel, cpu, hexec⟩ := hstep
  cases haction : e.action with
  | tick =>
    rw [haction, State.exec] at hexec
    split at hexec
    · obtain ⟨hplace, hstage⟩ := call_eq_ok hexec
      exact h.keep e hplace hstage
    · obtain ⟨-, rfl⟩ := Prod.mk.inj (Except.ok.inj hexec)
      exact h.keep e rfl rfl
  | statement =>
    simp only [haction, State.exec] at hexec
    cases hw₁ : w.statement cpu w.current with
    | error stop => rw [hw₁] at hexec; cases hexec
    | ok w₁ =>
      rw [hw₁] at hexec
      obtain ⟨-, rfl⟩ := Prod.mk.inj (Except.ok.inj hexec)
      exact h.statement ⟨hbefore, haction⟩ hw₁
  | createTask task raw cr3 stack =>
    rw [haction] at hexec
    obtain ⟨-, rfl⟩ := Prod.mk.inj (Except.ok.inj hexec)
    refine h.append e (fun t ht => .inl ?_) fun u t entry p hu => .inl ?_
    · have ht' : (if t = task then Stage.creating else w.stage t) = .started := ht
      split_ifs at ht'
      exact ht'
    · have hu' : (if u = w.current then _ else w.place u) = Place.taskStart t entry p := hu
      split_ifs at hu' with huc
      exact hu'
  | taskStart task entry =>
    rw [haction] at hexec
    obtain ⟨-, rfl⟩ := Prod.mk.inj (Except.ok.inj hexec)
    refine h.append e (fun t ht => .inl ?_) fun u t entry' p hu => ?_
    · have ht' : (if t = task then Stage.starting else w.stage t) = .started := ht
      split_ifs at ht'
      exact ht'
    · have hu' : (if u = w.current then _ else w.place u) = Place.taskStart t entry' p := hu
      split_ifs at hu' with huc
      · cases hu'
        exact .inr fun p₁ hp₁ => absurd hp₁ List.not_mem_nil
      · exact .inl hu'
  | schedule | sleep sleepMs =>
    rw [haction] at hexec
    obtain ⟨hplace, hstage⟩ := call_eq_ok hexec
    exact h.keep e hplace hstage
  | enable | disable =>
    rw [haction] at hexec
    obtain ⟨-, rfl⟩ := Prod.mk.inj (Except.ok.inj hexec)
    exact h.keep e rfl rfl

end

theorem recorded_boot (others : ℕ → Option Handler) (memory : ℕ → Task) :
    Recorded [] (State.boot others memory) := by
  refine ⟨fun t ht => (by cases ht), fun u t entry p hu => ?_⟩
  have hu' : (if u = mainTask then Place.start .cr3 else .outside) = .taskStart t entry p := hu
  split_ifs at hu'

/-- In every run of harmless actions a harmless action follows no null pointer, and what it selects
has been started by all the statements of `taskStart` and leads back to `mainTask`. -/
theorem starting_safe (others : ℕ → Option Handler) (memory : ℕ → Task) :
    ∀ es w, Run.Trace Step (State.boot others memory) es w →
      (∀ e ∈ es, Harmless e.before e.action) →
      ∀ a, w.Possible a → Harmless w a → ∀ fuel cpu, w.exec fuel cpu a ≠ .error .null ∧
        ∀ t w', w.exec fuel cpu a = .ok (some t, w') →
          (t = mainTask ∨ ∀ p, ∃ e ∈ es, e.Runs t p) ∧
            Relation.ReflTransGen w'.scheduler.Links t mainTask := by
  intro es w hrun hes a hposs hharm fuel cpu
  have hinv : Inv w := inv_run hrun (inv_boot others memory) hes
  have hrecorded : Recorded ([] ++ es) w :=
    hrun.invariant (fun _ _ _ _ h hstep => recorded_step h hstep) (recorded_boot others memory)
  rw [List.nil_append] at hrecorded
  obtain ⟨hnull, hok⟩ := inv_exec fuel cpu hinv hposs hharm
  refine ⟨hnull, fun t w' hexec => ?_⟩
  obtain ⟨hsel, hleads⟩ := (hok (some t) w' hexec).2 t rfl
  exact ⟨hsel.imp_right (hrecorded.started t), hleads⟩

/-! ## Runs on fixed inputs -/

instance (w : State) : DecidablePred w.Possible
  | .tick | .statement => inferInstanceAs (Decidable True)
  | .createTask task _ _ _ => inferInstanceAs
    (Decidable (w.place w.current = .outside ∧ w.stage task = .unused ∧ task ≠ mainTask))
  | .taskStart task _ =>
    inferInstanceAs (Decidable (w.place w.current = .outside ∧ w.stage task = .created))
  | .schedule | .sleep _ | .enable | .disable =>
    inferInstanceAs (Decidable (w.place w.current = .outside))

/-- The actions in turn, as far as they are possible. -/
def perform (cpu : TaskRegisters) : State → List Action → Option (List Event × State)
  | w, [] => some ([], w)
  | w, a :: as =>
    if w.Possible a then
      match w.exec 1 cpu a with
      | .ok (selected, w') => (perform cpu w' as).map fun r => (⟨w, a, selected⟩ :: r.1, r.2)
      | .error _ => none
    else none

/-- A run that is computed is a run. -/
theorem trace_of_perform (cpu : TaskRegisters) (as : List Action) : ∀ {w w' : State} {es : List Event},
    perform cpu w as = some (es, w') → Run.Trace Step w es w' := by
  induction as with
  | nil =>
    intro w w' es h
    obtain ⟨rfl, rfl⟩ := Prod.mk.inj (Option.some.inj h)
    exact .nil w
  | cons a as ih =>
    intro w w' es h
    rw [perform] at h
    split at h
    case isFalse => cases h
    case isTrue hposs =>
      cases hexec : w.exec 1 cpu a with
      | error stop => rw [hexec] at h; cases h
      | ok result =>
        rw [hexec] at h
        obtain ⟨r, hr, heq⟩ := Option.map_eq_some_iff.mp h
        obtain ⟨rfl, rfl⟩ := Prod.mk.inj heq
        exact .cons ⟨rfl, hposs, 1, cpu, hexec⟩ (ih hr)

/-- Actions that do not get to `schedule` are harmless. -/
def schedules : Action → Bool
  | .statement | .createTask .. | .taskStart .. | .enable | .disable => false
  | _ => true

theorem harmless_of_schedules {w : State} {a : Action} (h : schedules a = false) : Harmless w a := by
  intro s hat
  cases a with
  | statement | createTask | taskStart | enable | disable => cases hat
  | tick | schedule | sleep => cases h

open Scheduler (resetRegisters)

/-- The kernel as it calls `start`, with tasks in that state all over the heap. -/
def bootWith (state : TaskState) : State :=
  State.boot (fun _ => none) fun _ => ⟨resetRegisters, none, 0, state⟩

/-- `start`, `createTask` in memory that holds such a task, and `n` statements of `taskStart`. -/
def startOne (state : TaskState) (n : ℕ) : List Action :=
  List.replicate 8 .statement ++
    .createTask (.heap 0x1000) ⟨resetRegisters, none, 0, state⟩ 0 0 :: List.replicate 12 .statement ++
    .taskStart (.heap 0x1000) 0 :: List.replicate n .statement

/-- With all of `taskStart` executed, a timer interrupt selects the task. -/
theorem starting_safe_one : ∃ es w w', Run.Trace Step (bootWith .running) es w ∧
    w.exec 1 resetRegisters .tick = .ok (some (.heap 0x1000), w') ∧
    (∀ p, ∃ e ∈ es, e.Runs (.heap 0x1000) p) ∧
    Relation.ReflTransGen w'.scheduler.Links (.heap 0x1000) mainTask := by
  obtain ⟨es, w, hperform, hquiet, hcurrent, houtside, hothers, w', hexec⟩ : ∃ es w,
      perform resetRegisters (bootWith .running) (startOne .running 5) = some (es, w) ∧
      es.all (fun e => !schedules e.action) = true ∧ w.current = mainTask ∧
      w.place mainTask = .outside ∧ (∀ a, w.place (.heap a) = .outside) ∧
      ∃ w', w.exec 1 resetRegisters .tick = .ok (some (.heap 0x1000), w') :=
    ⟨_, _, rfl, rfl, rfl, rfl, fun _ => rfl, _, rfl⟩
  have hrun := trace_of_perform resetRegisters (startOne .running 5) hperform
  have hharm : Harmless w .tick := by
    refine fun s _ _ => ⟨by rw [houtside]; exact nofun, fun task entry p hu => ?_, ?_⟩
    · rw [hcurrent, houtside] at hu
      cases hu
    · rintro (_ | a) task entry hu
      · rw [houtside] at hu
        cases hu
      · rw [hothers] at hu
        cases hu
  have hsafe := starting_safe (fun _ => none) (fun _ => ⟨resetRegisters, none, 0, .running⟩) es w hrun
    (fun e he => harmless_of_schedules (by simpa using List.all_eq_true.mp hquiet e he)) .tick trivial
    hharm 1 resetRegisters
  obtain ⟨hdone, hleads⟩ := hsafe.2 _ w' hexec
  exact ⟨es, w, w', hrun, hexec, hdone.resolve_left (by decide), hleads⟩

/-- A timer interrupt right after `registerInterrupt` finds `m_runningTask` null. One right after
`m_taskTail->next = &task`, in memory that held a running task, selects that task: it is at no
state of its own yet, and leads nowhere. -/
theorem starting_unsafe :
    (∃ es w, Run.Trace Step (bootWith .none) es w ∧ w.exec 1 resetRegisters .tick = .error .null) ∧
    ∃ es w w', Run.Trace Step (bootWith .running) es w ∧
      w.exec 1 resetRegisters .tick = .ok (some (.heap 0x1000), w') ∧
      ¬ (∃ e ∈ es, e.Runs (.heap 0x1000) .state) ∧
      ¬ Relation.ReflTransGen w'.scheduler.Links (.heap 0x1000) mainTask := by
  constructor
  · obtain ⟨es, w, hperform, hnull⟩ : ∃ es w,
        perform resetRegisters (bootWith .none) (List.replicate 3 .statement) = some (es, w) ∧
        w.exec 1 resetRegisters .tick = .error .null := ⟨_, _, rfl, rfl⟩
    exact ⟨es, w, trace_of_perform _ _ hperform, hnull⟩
  · obtain ⟨es, w, hperform, hnone, w', hexec, hnext⟩ : ∃ es w,
        perform resetRegisters (bootWith .running) (startOne .running 2) = some (es, w) ∧
        es.all (fun e => match e.before.place e.before.current with
          | .taskStart _ _ .state => false
          | _ => true) = true ∧
        ∃ w', w.exec 1 resetRegisters .tick = .ok (some (.heap 0x1000), w') ∧
          (w'.scheduler.tasks (.heap 0x1000)).next = none := ⟨_, _, rfl, rfl, _, rfl, rfl⟩
    refine ⟨es, w, w', trace_of_perform _ _ hperform, hexec, ?_, ?_⟩
    · rintro ⟨e, he, -, entry, hplace⟩
      have hnot := List.all_eq_true.mp hnone e he
      rw [hplace] at hnot
      exact Bool.false_ne_true hnot
    · intro hleads
      rcases hleads.cases_head with heq | ⟨t, hlink, -⟩
      · cases heq
      · rw [Links, hnext] at hlink
        cases hlink

end Sakura.Starting
