import Mathlib.Tactic.Common
import Mathlib.Logic.Function.Basic
import Sakura.Lib.Run

/-!
# Routines and their interleavings

A routine performs operations on a state one at a time, and the answer of each decides how it
goes on. Several tasks run routines on one state: between two operations of a task an interrupt may
give the processor to another one.

`Safe` is what such a routine guarantees whatever the others do in between: as long as its
operations are proper where it performs them, an invariant holds after each of them, and where an
interrupt may come the others may leave any state at rest behind. It composes along the routine
(`Safe.bind`, `Safe.loop`), and routines that are safe one by one keep the invariant however they
are interleaved (`System.invariant`).
-/

/-- A routine over operations `Op`, each with its type of answers. `spin` never goes on. -/
inductive Routine {Op : Type} (Result : Op → Type) (α : Type) : Type
  | done (a : α)
  | spin
  | op (o : Op) (next : Result o → Routine Result α)

namespace Routine

variable {Op : Type} {Result : Op → Type} {α β σ : Type}

def bind : Routine Result α → (α → Routine Result β) → Routine Result β
  | done a, f => f a
  | spin, _ => spin
  | op o next, f => op o fun r => (next r).bind f

instance : Monad (Routine Result) where
  pure := done
  bind := bind

/-- The operation that is next. -/
def first : Routine Result α → Option Op
  | op o _ => some o
  | _ => none

/-- One operation. -/
def perform (o : Op) : Routine Result (Result o) := op o done

/-- The body for `count` indices from `first` on. -/
def loop (body : ℕ → Routine Result Unit) : ℕ → ℕ → Routine Result Unit
  | 0, _ => done ()
  | count + 1, first => (body first).bind fun _ => loop body count (first + 1)

/-! ## Undisturbed -/

/-- The routine on its own. An operation without a result stops it. -/
def run (exec : (o : Op) → σ → Option (Result o × σ)) : Routine Result α → σ → Option (α × σ)
  | done a, s => some (a, s)
  | spin, _ => none
  | op o next, s => (exec o s).bind fun (r, s) => (next r).run exec s

section

variable {exec : (o : Op) → σ → Option (Result o × σ)}

@[simp] theorem run_pure (a : α) (s : σ) : (pure a : Routine Result α).run exec s = some (a, s) := rfl

/-- A routine of one operation. -/
@[simp] theorem run_perform (o : Op) (s : σ) : (perform o).run exec s = exec o s := by
  rw [perform, run]
  cases exec o s <;> rfl

@[simp] theorem run_bind (p : Routine Result α) (f : α → Routine Result β) (s : σ) :
    (p >>= f).run exec s = (p.run exec s).bind fun (a, s) => (f a).run exec s := by
  show (p.bind f).run exec s = _
  induction p generalizing s with
  | done a => rfl
  | spin => rfl
  | op o next ih =>
    simp only [bind, run, Option.bind_assoc]
    exact congrArg _ (funext fun _ => ih _ _)

/-- A routine in two parts ends if both do. -/
theorem run_bind_eq_some {p : Routine Result α} {f : α → Routine Result β} {s : σ} {r : β × σ} :
    (p >>= f).run exec s = some r ↔
      ∃ a s', p.run exec s = some (a, s') ∧ (f a).run exec s' = some r := by
  rw [run_bind, Option.bind_eq_some_iff, Prod.exists]

/-- A loop over a body that always comes to its end. -/
theorem run_loop {body : ℕ → Routine Result Unit} {f : σ → ℕ → σ}
    (hbody : ∀ i s, (body i).run exec s = some ((), f s i)) (count : ℕ) : ∀ (first : ℕ) (s : σ),
    (loop body count first).run exec s = some ((), (List.range' first count).foldl f s) := by
  induction count with
  | zero => intro first s; rfl
  | succ count ih =>
    intro first s
    show (body first >>= fun _ => loop body count (first + 1)).run exec s = _
    rw [run_bind, hbody]
    exact ih (first + 1) (f s first)

end

/-! ## What is performed -/

/-- The operations performed, in order. The last is the one the routine stops at, if it stops at
one. -/
def performed (exec : (o : Op) → σ → Option (Result o × σ)) : Routine Result α → σ → List Op
  | done _, _ => []
  | spin, _ => []
  | op o next, s => o ::
    match exec o s with
    | none => []
    | some (r, s) => (next r).performed exec s

/-- All operations performed are allowed. -/
def Performs (exec : (o : Op) → σ → Option (Result o × σ)) (Allowed : Op → Prop)
    (p : Routine Result α) (s : σ) : Prop :=
  ∀ o ∈ p.performed exec s, Allowed o

section

variable {exec : (o : Op) → σ → Option (Result o × σ)} {Allowed : Op → Prop} {s : σ}

@[simp] theorem performs_pure (a : α) :
    Performs exec Allowed (pure a : Routine Result α) s ↔ True :=
  iff_true_intro (List.forall_mem_nil _)

/-- A routine of one operation performs it. -/
@[simp] theorem performs_perform (o : Op) : Performs exec Allowed (perform o) s ↔ Allowed o := by
  rw [Performs, perform, performed]
  cases exec o s with
  | none => exact List.forall_mem_singleton
  | some r => exact List.forall_mem_singleton

/-- The first operation is allowed, and all that follow whatever it answers. -/
theorem performs_op (o : Op) (next : Result o → Routine Result α) :
    Performs exec Allowed (op o next) s ↔
      Allowed o ∧ ∀ r s', exec o s = some (r, s') → Performs exec Allowed (next r) s' := by
  rw [Performs, performed, List.forall_mem_cons]
  cases hexec : exec o s with
  | none => simp
  | some r =>
    obtain ⟨r, s'⟩ := r
    simp only [Option.some.injEq, Prod.mk.injEq]
    exact and_congr_right fun _ => ⟨fun h _ _ ⟨hr, hs⟩ => hr ▸ hs ▸ h, fun h => h r s' ⟨rfl, rfl⟩⟩

/-- What a routine in two parts performs. -/
@[simp] theorem performs_bind (p : Routine Result α) (f : α → Routine Result β) :
    Performs exec Allowed (p >>= f) s ↔ Performs exec Allowed p s ∧
      ∀ a s', p.run exec s = some (a, s') → Performs exec Allowed (f a) s' := by
  show Performs exec Allowed (p.bind f) s ↔ _
  induction p generalizing s with
  | done a =>
    refine ⟨fun h => ⟨List.forall_mem_nil _, ?_⟩, fun h => h.2 a s rfl⟩
    rintro _ _ heq
    obtain ⟨rfl, rfl⟩ := Prod.mk.inj (Option.some.inj heq)
    exact h
  | spin => exact ⟨fun _ => ⟨List.forall_mem_nil _, fun _ _ h => by cases h⟩, fun h => h.1⟩
  | op o next ih =>
    rw [bind, performs_op, performs_op, run]
    cases hexec : exec o s with
    | none => simp
    | some r =>
      obtain ⟨r, s'⟩ := r
      simp only [Option.some.injEq, Prod.mk.injEq, Option.bind_some, and_assoc]
      refine and_congr_right fun _ => ?_
      constructor
      · intro h
        obtain ⟨h1, h2⟩ := (ih r).mp (h r s' ⟨rfl, rfl⟩)
        exact ⟨fun _ _ ⟨hr, hs⟩ => hr ▸ hs ▸ h1, h2⟩
      · rintro ⟨h1, h2⟩ _ _ ⟨rfl, rfl⟩
        exact (ih r).mpr ⟨h1 r s' ⟨rfl, rfl⟩, h2⟩

end

/-- A loop performs what its body performs. -/
theorem performs_loop {exec : (o : Op) → σ → Option (Result o × σ)} {Allowed : Op → Prop}
    {body : ℕ → Routine Result Unit} (hbody : ∀ i s, Performs exec Allowed (body i) s) (count : ℕ) :
    ∀ (first : ℕ) (s : σ), Performs exec Allowed (loop body count first) s := by
  induction count with
  | zero =>
    intro first s
    exact (performs_pure ()).mpr trivial
  | succ count ih =>
    intro first s
    exact (performs_bind _ _).mpr ⟨hbody first s, fun _ s' _ => ih (first + 1) s'⟩

/-! ## Interrupted -/

section

variable (exec : (o : Op) → σ → Option (Result o × σ)) (Proper : Op → σ → Prop)
  (Inv Open Rest : σ → Prop)

/-- Where the routine goes on after an interrupt: where one may come any state at rest is possible,
otherwise nothing has happened. -/
def Rely (s s' : σ) : Prop := s' = s ∨ (Open s ∧ Rest s')

/-- After each operation that is proper the invariant holds, and at the end the postcondition. -/
def Safe : Routine Result α → (α → σ → Prop) → σ → Prop
  | done a, Q, s => Q a s
  | spin, _, _ => True
  | op o next, Q, s => Proper o s → ∀ r s', exec o s = some (r, s') →
      Inv s' ∧ ∀ s'', Rely Open Rest s' s'' → (next r).Safe Q s''

/-- Unchanged by what happens where an interrupt may come. -/
def Stable (P : σ → Prop) : Prop := ∀ s s', P s → Open s → Rest s' → P s'

variable {exec Proper Inv Open Rest}

/-- What is stable survives everything others do. -/
theorem Stable.rely {P : σ → Prop} (hP : Stable Open Rest P) {s s' : σ} (h : P s)
    (hrely : Rely Open Rest s s') : P s' := by
  rcases hrely with rfl | ⟨hopen, hrest⟩
  · exact h
  · exact hP s s' h hopen hrest

/-- The operation rule: the operation gets to a stable postcondition. -/
theorem Safe.perform {o : Op} {s : σ} {P : Result o → σ → Prop}
    (hstable : ∀ r, Stable Open Rest (P r))
    (hop : Proper o s → ∀ r s', exec o s = some (r, s') → Inv s' ∧ P r s') :
    (Routine.perform o).Safe exec Proper Inv Open Rest P s := by
  intro hproper r s' hexec
  obtain ⟨hinv, hP⟩ := hop hproper r s' hexec
  exact ⟨hinv, fun s'' hrely => (hstable r).rely hP hrely⟩

/-- A weaker condition at the end. -/
theorem Safe.mono {p : Routine Result α} {Q Q' : α → σ → Prop} {s : σ}
    (h : p.Safe exec Proper Inv Open Rest Q s) (hQ : ∀ a s, Q a s → Q' a s) :
    p.Safe exec Proper Inv Open Rest Q' s := by
  induction p generalizing s with
  | done a => exact hQ a s h
  | spin => trivial
  | op o next ih =>
    intro hproper r s' hexec
    obtain ⟨hinv, hnext⟩ := h hproper r s' hexec
    exact ⟨hinv, fun s'' hrely => ih r (hnext s'' hrely)⟩

/-- A routine in two parts is safe if the second is from wherever the first ends. -/
theorem Safe.bind {p : Routine Result α} {f : α → Routine Result β} {Q : α → σ → Prop}
    {Q' : β → σ → Prop} {s : σ} (hp : p.Safe exec Proper Inv Open Rest Q s)
    (hf : ∀ a s, Q a s → (f a).Safe exec Proper Inv Open Rest Q' s) :
    (p >>= f).Safe exec Proper Inv Open Rest Q' s := by
  show (p.bind f).Safe exec Proper Inv Open Rest Q' s
  induction p generalizing s with
  | done a => exact hf a s hp
  | spin => trivial
  | op o next ih =>
    intro hproper r s' hexec
    obtain ⟨hinv, hnext⟩ := hp hproper r s' hexec
    exact ⟨hinv, fun s'' hrely => ih r (hnext s'' hrely)⟩

/-- The loop rule: the body gets from `P i` to `P (i + 1)`. -/
theorem Safe.loop {body : ℕ → Routine Result Unit} {P : ℕ → σ → Prop} {n : ℕ}
    (hbody : ∀ i s, i < n → P i s →
      (body i).Safe exec Proper Inv Open Rest (fun _ => P (i + 1)) s)
    (count : ℕ) : ∀ (first : ℕ) (s : σ), first + count = n → P first s →
    (loop body count first).Safe exec Proper Inv Open Rest (fun _ => P n) s := by
  induction count with
  | zero =>
    intro first s hn h
    obtain rfl : first = n := by omega
    exact h
  | succ count ih =>
    intro first s hn h
    exact Safe.bind (hbody first s (by omega) h) fun _ s' h' => ih (first + 1) s' (by omega) h'

end

end Routine

/-! ## Several tasks -/

/-- What runs: the operations of the running task, what a call does, when an interrupt may switch
tasks and what a switch changes. -/
structure System (Task Call : Type) {Op : Type} (Result : Op → Type) (σ : Type) where
  exec : Task → (o : Op) → σ → Option (Result o × σ)
  routine : Call → Routine Result Unit
  preemptible : σ → Bool
  enter : Task → σ → σ

namespace System

open Routine

/-- The state, the running task, and for each task what is left of its call. -/
structure Pool (Task σ : Type) {Op : Type} (Result : Op → Type) where
  state : σ
  running : Task
  todo : Task → Routine Result Unit

/-- What happens next: the running task starts a call or performs an operation, or an interrupt
switches to another task. -/
inductive Action (Task Call : Type) where
  | call (c : Call)
  | op
  | switch (t : Task)

variable {Task Call Op : Type} {Result : Op → Type} {σ : Type} [DecidableEq Task]

def next (S : System Task Call Result σ) (p : Pool Task σ Result) :
    Action Task Call → Option (Pool Task σ Result)
  | .call c =>
    match p.todo p.running with
    | .done _ => some { p with todo := Function.update p.todo p.running (S.routine c) }
    | _ => none
  | .op =>
    match p.todo p.running with
    | .op o rest => (S.exec p.running o p.state).map fun (r, state) =>
        { p with state, todo := Function.update p.todo p.running (rest r) }
    | _ => none
  | .switch t =>
    if S.preemptible p.state then some { p with state := S.enter t p.state, running := t } else none

/-- Some action leads from one state to the next. -/
def Step (S : System Task Call Result σ) (p p' : Pool Task σ Result) : Prop :=
  ∃ a, S.next p a = some p'

/-- No call is in progress. -/
def Pool.Idle (p : Pool Task σ Result) : Prop := ∀ t, p.todo t = .done ()

section

variable {S : System Task Call Result σ} {Proper : Op → σ → Prop} {Inv : Task → σ → Prop}
  {Rest : σ → Prop}

/-- What a routine of task `t` guarantees in this system. -/
abbrev SafeFor (S : System Task Call Result σ) (Proper : Op → σ → Prop) (Inv : Task → σ → Prop)
    (Rest : σ → Prop) (t : Task) {α : Type} (p : Routine Result α) (Q : α → σ → Prop) : σ → Prop :=
  p.Safe (S.exec t) Proper (Inv t) (fun s => S.preemptible s = true) Rest Q

/-- The running task is in its routine, the others are where an interrupt left them. -/
structure PoolInv (S : System Task Call Result σ) (Proper : Op → σ → Prop)
    (Inv : Task → σ → Prop) (Rest : σ → Prop) (p : Pool Task σ Result) : Prop where
  inv : Inv p.running p.state
  running : ∀ s, Rely (fun s => S.preemptible s = true) Rest p.state s →
    S.SafeFor Proper Inv Rest p.running (p.todo p.running) (fun _ => Rest) s
  other : ∀ t ≠ p.running, ∀ s, Rest s →
    S.SafeFor Proper Inv Rest t (p.todo t) (fun _ => Rest) s

/-- What the next action needs: a call is made where it is admitted, and the operation that is next
is proper. A switch is free. -/
def Pool.Meets (Admits : Call → σ → Prop) (Proper : Op → σ → Prop) (p : Pool Task σ Result) :
    Action Task Call → Prop
  | .call c => Admits c p.state
  | .op => ∀ o ∈ (p.todo p.running).first, Proper o p.state
  | .switch _ => True

instance (Admits : Call → σ → Prop) (Proper : Op → σ → Prop) [∀ c s, Decidable (Admits c s)]
    [∀ o s, Decidable (Proper o s)] (p : Pool Task σ Result) (a : Action Task Call) :
    Decidable (p.Meets Admits Proper a) :=
  match a with
  | .call c => inferInstanceAs (Decidable (Admits c p.state))
  | .op => inferInstanceAs (Decidable (∀ o ∈ (p.todo p.running).first, Proper o p.state))
  | .switch _ => inferInstanceAs (Decidable True)

variable {Admits : Call → σ → Prop}

/-- What any step of the pool keeps: the routines that are under way stay safe, and no two tasks
are inside at once. -/
theorem poolInv_next
    (hcalls : ∀ c t s s', Admits c s → Rest s → Rely (fun s => S.preemptible s = true) Rest s s' →
      S.SafeFor Proper Inv Rest t (S.routine c) (fun _ => Rest) s')
    (hrest : ∀ t s, Inv t s → S.preemptible s = true → Rest s) (hinv : ∀ t s, Rest s → Inv t s)
    (henter : ∀ t s, Rest s → Rest (S.enter t s)) {p p' : Pool Task σ Result}
    {a : Action Task Call} (h : PoolInv S Proper Inv Rest p) (ha : p.Meets Admits Proper a)
    (hnext : S.next p a = some p') : PoolInv S Proper Inv Rest p' := by
  cases a with
  | call c =>
    rw [next] at hnext
    split at hnext
    · next heq =>
      obtain rfl := Option.some.inj hnext
      have hdone := h.running p.state (Or.inl rfl)
      rw [heq] at hdone
      refine ⟨h.inv, fun s hs => ?_, fun t ht s hs => ?_⟩
      · simp only [Function.update_self]
        exact hcalls c p.running p.state s ha hdone hs
      · simp only [Function.update_of_ne ht]
        exact h.other t ht s hs
    · cases hnext
  | op =>
    rw [next] at hnext
    split at hnext
    · next o rest heq =>
      obtain ⟨⟨r, s'⟩, hexec, rfl⟩ := Option.map_eq_some_iff.mp hnext
      have hop := h.running p.state (Or.inl rfl)
      rw [heq] at hop
      have hproper : Proper o p.state := ha o (by rw [heq, first]; rfl)
      obtain ⟨hinv', hsafe⟩ := hop hproper r s' hexec
      refine ⟨hinv', fun s hs => ?_, fun t ht s hs => ?_⟩
      · simp only [Function.update_self]
        exact hsafe s hs
      · simp only [Function.update_of_ne ht]
        exact h.other t ht s hs
    · cases hnext
  | switch t =>
    rw [next] at hnext
    split at hnext
    · next hopen =>
      obtain rfl := Option.some.inj hnext
      -- where an interrupt may come the state is at rest, so the task goes on from any such state
      have hcur := hrest p.running p.state h.inv hopen
      have hsafe : ∀ u s, Rest s → S.SafeFor Proper Inv Rest u (p.todo u) (fun _ => Rest) s := by
        intro u s hs
        by_cases hu : u = p.running
        · exact hu ▸ h.running s (Or.inr ⟨hopen, hs⟩)
        · exact h.other u hu s hs
      refine ⟨hinv t _ (henter t _ hcur), fun s hs => hsafe t s ?_, fun u _ s hs => hsafe u s hs⟩
      rcases hs with rfl | ⟨-, hs⟩
      · exact henter t _ hcur
      · exact hs
    · cases hnext

/-- One action that meets what it needs. -/
def ProperStep (S : System Task Call Result σ) (Admits : Call → σ → Prop) (Proper : Op → σ → Prop)
    (p p' : Pool Task σ Result) : Prop :=
  ∃ a, p.Meets Admits Proper a ∧ S.next p a = some p'

/-- An action, if it meets what it needs. -/
def properNext (S : System Task Call Result σ) (Admits : Call → σ → Prop) (Proper : Op → σ → Prop)
    [∀ c s, Decidable (Admits c s)] [∀ o s, Decidable (Proper o s)] (p : Pool Task σ Result)
    (a : Action Task Call) : Option (Pool Task σ Result) :=
  if p.Meets Admits Proper a then S.next p a else none

/-- The computable step is a step. -/
theorem properStep_of_properNext [∀ c s, Decidable (Admits c s)] [∀ o s, Decidable (Proper o s)]
    (p : Pool Task σ Result) (a : Action Task Call) (p' : Pool Task σ Result)
    (h : S.properNext Admits Proper p a = some p') : S.ProperStep Admits Proper p p' := by
  obtain ⟨ha, hnext⟩ := Option.ite_none_right_eq_some.mp h
  exact ⟨a, ha, hnext⟩

/-- Calls that are safe one by one keep the invariant in any order of steps: the state is at rest
wherever an interrupt may come. -/
theorem invariant
    (hcalls : ∀ c t s s', Admits c s → Rest s → Rely (fun s => S.preemptible s = true) Rest s s' →
      S.SafeFor Proper Inv Rest t (S.routine c) (fun _ => Rest) s')
    (hrest : ∀ t s, Inv t s → S.preemptible s = true → Rest s) (hinv : ∀ t s, Rest s → Inv t s)
    (henter : ∀ t s, Rest s → Rest (S.enter t s)) {p p' : Pool Task σ Result} (hidle : p.Idle)
    (hp : Rest p.state) (hrun : Relation.ReflTransGen (S.ProperStep Admits Proper) p p') :
    Inv p'.running p'.state := by
  have hinit : PoolInv S Proper Inv Rest p := by
    refine ⟨hinv _ _ hp, fun s hs => ?_, fun t _ s hs => ?_⟩
    · rw [hidle]
      rcases hs with rfl | ⟨-, hs⟩
      · exact hp
      · exact hs
    · rw [hidle]
      exact hs
  exact (Run.invariant hrun hinit fun _ _ h ⟨_, ha, hnext⟩ =>
    poolInv_next hcalls hrest hinv henter h ha hnext).inv

end

end System
