import Sakura.Libk.Cpp

/-!
# The exit functions are called once

The table is a list of functions to call at the end (`exit_refines`), so that no run calls a
destructor twice by name, and what has not been called by name is called at the end
(`destroyed_once`).
-/

namespace Sakura.Libk.Atexit

open ExitList (Op Answer)

/-- The functions that are left. -/
def live (t : Atexit) : List DestructorCall := callAll t.funcs t.funcCount t.funcCount_le

/-- A pointer to a function, or none. -/
def pointer (f : BitVec 32) : Option (BitVec 32) := if f = 0 then none else some f

def Request.op : Request → Op (BitVec 32) (BitVec 32)
  | .cxaAtexit f objptr _ => .register (pointer f) objptr
  | .cxaFinalize f => .finalize (pointer f)

def view (t : Atexit) : ExitList (BitVec 32) (BitVec 32) := ⟨t.live, t.funcCount⟩

variable {t : Atexit} {f : BitVec 32} {funcs : Vector AtexitFuncEntry atexitMaxFuncs}

/-! ## The loops -/

/-- Entries at `i` and above are not looked at. -/
theorem callAll_congr {funcs' : Vector AtexitFuncEntry atexitMaxFuncs} (i : ℕ)
    (hi : i ≤ atexitMaxFuncs) (h : ∀ j (hj : j < i), funcs'[j] = funcs[j]) :
    callAll funcs' i hi = callAll funcs i hi := by
  induction i with
  | zero => rfl
  | succ i ih =>
    have hrest := ih (Nat.le_of_succ_le hi) fun j hj => h j (Nat.lt_succ_of_lt hj)
    rw [callAll, callAll, hrest, h i (Nat.lt_succ_self i)]

theorem callEqual_of_le (f : BitVec 32) (i : ℕ) (hi : i ≤ atexitMaxFuncs) :
    ∀ (funcs : Vector AtexitFuncEntry atexitMaxFuncs) (j : ℕ) (hj : j < atexitMaxFuncs), i ≤ j →
      (callEqual f funcs i hi).2[j] = funcs[j] := by
  induction i with
  | zero =>
    intro funcs j hj _
    rfl
  | succ i ih =>
    intro funcs j hj hij
    rw [callEqual]
    split_ifs
    · rw [ih (Nat.le_of_succ_le hi) _ j hj (Nat.le_of_succ_le hij)]
      exact Vector.getElem_set_ne _ _ (Nat.ne_of_lt hij)
    · exact ih (Nat.le_of_succ_le hi) _ j hj (Nat.le_of_succ_le hij)

/-- A call by name is a call of those with the name, and the others stay. -/
theorem callEqual_spec (hf : f ≠ 0) (i : ℕ) (hi : i ≤ atexitMaxFuncs) :
    ∀ funcs : Vector AtexitFuncEntry atexitMaxFuncs,
      (callEqual f funcs i hi).1 = (callAll funcs i hi).filter (fun x => x.1 = f) ∧
      callAll (callEqual f funcs i hi).2 i hi = (callAll funcs i hi).filter fun x => x.1 ≠ f := by
  induction i with
  | zero =>
    intro funcs
    exact ⟨rfl, rfl⟩
  | succ i ih =>
    intro funcs
    have hi' := Nat.le_of_succ_le hi
    rw [callEqual]
    by_cases hequal : funcs[i].destructorFunc = f
    · obtain ⟨hcalls, hrest⟩ := ih hi' (funcs.set i { funcs[i] with destructorFunc := 0 } hi)
      -- The entry that is taken out is above what is still to be looked at.
      have hbelow : callAll (funcs.set i { funcs[i] with destructorFunc := 0 } hi) i hi' =
          callAll funcs i hi' :=
        callAll_congr i hi' fun j hj => Vector.getElem_set_ne _ _ (Nat.ne_of_gt hj)
      have hgone := callEqual_of_le f i hi' (funcs.set i { funcs[i] with destructorFunc := 0 } hi) i hi
        (Nat.le_refl i)
      rw [Vector.getElem_set_self] at hgone
      rw [hbelow] at hcalls hrest
      have hnone : ¬ f = 0 := hf
      simp only [callAll, hgone, hequal, hcalls, hrest, ne_eq, not_true_eq_false,
        if_false, hnone, not_false_eq_true, if_true]
      simp
    · obtain ⟨hcalls, hrest⟩ := ih hi' funcs
      have hsame := callEqual_of_le f i hi' funcs i hi (Nat.le_refl i)
      simp only [if_neg hequal, callAll, hsame]
      split_ifs with hnull
      · simp [hcalls, hrest, hequal]
      · exact ⟨hcalls, hrest⟩

/-! ## One request -/

theorem view_cxaAtexit (t : Atexit) (f objptr dso : BitVec 32) :
    ((t.step (.cxaAtexit f objptr dso)).1, (t.step (.cxaAtexit f objptr dso)).2.view) =
      t.view.step atexitMaxFuncs (.register (pointer f) objptr) := by
  rw [ExitList.step]
  by_cases hroom : t.funcCount < atexitMaxFuncs
  · rw [if_pos (show t.view.used < atexitMaxFuncs from hroom)]
    have hbelow : callAll (t.funcs.set t.funcCount ⟨f, objptr, dso⟩ hroom) t.funcCount
        (Nat.le_of_lt hroom) = t.live :=
      callAll_congr _ _ fun j hj => Vector.getElem_set_ne _ _ (Nat.ne_of_gt hj)
    have hlive : callAll (t.funcs.set t.funcCount ⟨f, objptr, dso⟩ hroom) (t.funcCount + 1) hroom =
        (pointer f).toList.map (·, objptr) ++ t.live := by
      rw [callAll, hbelow, Vector.getElem_set_self, pointer]
      split_ifs with hf <;> simp_all
    simp only [step, cxaAtexit, dif_pos hroom, view, live, hlive]
    rfl
  · rw [if_neg (show ¬ t.view.used < atexitMaxFuncs from hroom)]
    simp only [step, cxaAtexit, dif_neg hroom]
    rfl

theorem view_cxaFinalize (t : Atexit) (f : BitVec 32) :
    ((t.step (.cxaFinalize f)).1, (t.step (.cxaFinalize f)).2.view) =
      t.view.step atexitMaxFuncs (.finalize (pointer f)) := by
  by_cases hf : f = 0
  · simp only [step, cxaFinalize, if_pos hf, pointer, ExitList.step]
    rfl
  · obtain ⟨hcalls, hrest⟩ := callEqual_spec hf t.funcCount t.funcCount_le t.funcs
    simp only [step, cxaFinalize, if_neg hf, pointer, ExitList.step, view, live, hcalls, hrest]

theorem view_step (t : Atexit) (r : Request) :
    ((t.step r).1, (t.step r).2.view) = t.view.step atexitMaxFuncs r.op := by
  cases r with
  | cxaAtexit f objptr dso => exact view_cxaAtexit t f objptr dso
  | cxaFinalize f => exact view_cxaFinalize t f

/-! ## Every run -/

/-- In every run the table answers as the list of the functions that are left does: the 128 first
are registered, a call by name calls those with the name, the newest first, and takes them out,
and a call of all calls what is left and leaves it there. -/
theorem exit_refines (rs : List Request) : (Run.answers step boot rs).1 =
    (Run.answers (ExitList.step atexitMaxFuncs) ⟨[], 0⟩ (rs.map Request.op)).1 :=
  congrArg Prod.fst (Run.answers_map view_step rs boot)

/-- No destructor is called more often by name than it was registered with its object, and those
calls of it that are missing are made at the end. -/
theorem destroyed_once (rs : List Request) (x : DestructorCall) :
    ExitList.total (ExitList.registers x) (rs.map Request.op) (Run.answers step boot rs).1 =
      ((Run.answers step boot rs).2.cxaFinalize 0).1.count x +
        ExitList.total (ExitList.calls x) (rs.map Request.op) (Run.answers step boot rs).1 := by
  have hrun := Run.answers_map view_step rs boot
  have hcount := ExitList.registered_eq x atexitMaxFuncs (rs.map Request.op) boot.view
  rw [← hrun] at hcount
  have hnone : boot.view.live.count x = 0 := List.count_nil
  rw [hnone, Nat.zero_add] at hcount
  exact hcount

/-- A destructor that is registered twice, called by name, and not called again at the end. -/
example : (Run.answers step boot [.cxaAtexit 8 1 0, .cxaAtexit 4 2 0, .cxaAtexit 8 3 0,
    .cxaFinalize 8, .cxaFinalize 0]).1 = [.registered true, .registered true, .registered true,
      .called [(8, 3), (8, 1)], .called [(4, 2)]] := by
  decide

end Sakura.Libk.Atexit
