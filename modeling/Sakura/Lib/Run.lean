import Mathlib.Logic.Relation

/-!
# Runs of a step relation

The induction every safety proof needs: what holds at the start and is kept by each step
holds in every state a run reaches. For machines that answer requests, the same induction
gives refinement: a machine that may fail follows one that does not, answer by answer.
-/

namespace Run

section

variable {σ : Type*} {step : σ → σ → Prop}

theorem invariant {Inv : σ → Prop} {s s' : σ} (hrun : Relation.ReflTransGen step s s')
    (hs : Inv s) (hstep : ∀ s s', Inv s → step s s' → Inv s') : Inv s' := by
  induction hrun with
  | refl => exact hs
  | tail _ h ih => exact hstep _ _ ih h

/-- A list of actions that can all be performed is a run. -/
theorem reaches_of_foldlM {ι : Type*} {f : σ → ι → Option σ}
    (hstep : ∀ s i s', f s i = some s' → step s s') (is : List ι) : ∀ {s s' : σ},
    is.foldlM f s = some s' → Relation.ReflTransGen step s s' := by
  induction is with
  | nil =>
    intro s s' h
    obtain rfl := Option.some.inj h
    exact .refl
  | cons i is ih =>
    intro s s' h
    obtain ⟨s₁, hs₁, h⟩ := Option.bind_eq_some_iff.mp h
    exact .head (hstep s i s₁ hs₁) (ih h)

end

section

variable {σ ε : Type*}

/-- The labels of a run, in order. -/
inductive Trace (step : σ → ε → σ → Prop) : σ → List ε → σ → Prop
  | nil (s : σ) : Trace step s [] s
  | cons {s s' s'' : σ} {e : ε} {es : List ε} :
      step s e s' → Trace step s' es s'' → Trace step s (e :: es) s''

variable {step : σ → ε → σ → Prop}

/-- `invariant` with the labels so far: `Inv` may look at what has been done. -/
theorem Trace.invariant {Inv : List ε → σ → Prop} {es : List ε} {s s' : σ}
    (h : Trace step s es s')
    (hstep : ∀ past e s s', Inv past s → step s e s' → Inv (past ++ [e]) s') :
    ∀ {past : List ε}, Inv past s → Inv (past ++ es) s' := by
  induction h with
  | nil s => intro past hs; simpa using hs
  | @cons s s₁ s' e es h _ ih =>
    intro past hs
    have hnext := ih (hstep past e s s₁ hs h)
    simpa using hnext

theorem Trace.imp {step' : σ → ε → σ → Prop} {s s' : σ} {es : List ε}
    (himp : ∀ s e s', step s e s' → step' s e s') (h : Trace step s es s') :
    Trace step' s es s' := by
  induction h with
  | nil s => exact .nil s
  | cons hstep _ ih => exact .cons (himp _ _ _ hstep) ih

theorem Trace.append {s s' s'' : σ} {es es' : List ε} (h : Trace step s es s')
    (h' : Trace step s' es' s'') : Trace step s (es ++ es') s'' := by
  induction h with
  | nil s => exact h'
  | cons hstep _ ih => exact .cons hstep (ih h')

/-- Forward simulation by a function: if each step of one machine is one of another in the states
that `view` makes of its own, so is each run. -/
theorem Trace.simulate {τ : Type*} {step' : τ → ε → τ → Prop} {view : σ → τ} {Inv : σ → Prop}
    {s s' : σ} {es : List ε} (h : Trace step s es s')
    (hstep : ∀ {s s' e}, Inv s → step s e s' → Inv s' ∧ step' (view s) e (view s')) (hs : Inv s) :
    Inv s' ∧ Trace step' (view s) es (view s') := by
  induction h with
  | nil s => exact ⟨hs, .nil _⟩
  | cons h _ ih =>
    obtain ⟨hs₁, hview⟩ := hstep hs h
    obtain ⟨hs', hrest⟩ := ih hs₁
    exact ⟨hs', .cons hview hrest⟩

end

section

variable {σ τ ι ο : Type*}

/-- The answers to a list of requests and the state they leave. -/
def answers (step : σ → ι → ο × σ) : σ → List ι → List ο × σ
  | s, [] => ([], s)
  | s, i :: is =>
    let (o, s') := step s i
    let (os, s'') := answers step s' is
    (o :: os, s'')

/-- A machine whose states another one has a view of, and whose requests it has a name for, gives
the other's answers. -/
theorem answers_map {κ : Type*} {view : σ → τ} {name : ι → κ} {step : σ → ι → ο × σ}
    {spec : τ → κ → ο × τ}
    (hstep : ∀ s i, ((step s i).1, view (step s i).2) = spec (view s) (name i)) (is : List ι) :
    ∀ s, ((answers step s is).1, view (answers step s is).2) =
      answers spec (view s) (is.map name) := by
  induction is with
  | nil =>
    intro s
    rfl
  | cons i is ih =>
    intro s
    simp only [List.map_cons, answers, ← hstep s i, ← ih]

/-- `answers` for a machine that may fail, and then stops. -/
def answers? (step : σ → ι → Option (ο × σ)) : σ → List ι → Option (List ο × σ)
  | s, [] => some ([], s)
  | s, i :: is => do
    let (o, s') ← step s i
    let (os, s'') ← answers? step s' is
    pure (o :: os, s'')

/-- If related states give the same answer and stay related, a run gives the same answers and
never fails. -/
theorem answers?_refines {R : σ → τ → Prop} {step : σ → ι → Option (ο × σ)}
    {spec : τ → ι → ο × τ}
    (hstep : ∀ s t i, R s t → ∃ s', step s i = some ((spec t i).1, s') ∧ R s' (spec t i).2)
    (is : List ι) : ∀ {s : σ} {t : τ}, R s t →
    ∃ s', answers? step s is = some ((answers spec t is).1, s') ∧ R s' (answers spec t is).2 := by
  induction is with
  | nil => intro s t h; exact ⟨s, rfl, h⟩
  | cons i is ih =>
    intro s t h
    obtain ⟨s₁, hs₁, h₁⟩ := hstep s t i h
    obtain ⟨s₂, hs₂, h₂⟩ := ih h₁
    exact ⟨s₂, by simp [answers?, answers, hs₁, hs₂], h₂⟩

end

end Run
