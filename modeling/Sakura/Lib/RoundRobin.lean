import Mathlib.Data.List.Cycle
import Mathlib.Data.List.TakeWhile

/-!
# Round robin

A ring of elements, one of them current, is the list `l` in which a walk round it from the
current one meets them: the current one last. `pick` moves on to the first element that is
ready, and a new element may join anywhere.

`Ahead v u l` says that the walk meets `v` before `u`. It holds of every other element when
`u` becomes current, and as long as `v` is ready and not picked it stays: `u` is not picked
again before `v`.
-/

namespace RoundRobin

variable {τ : Type*} {l l' : List τ} {t u v : τ} {ready : τ → Bool}

/-- The first ready element, and the walk from there. -/
def pick (ready : τ → Bool) (l : List τ) : Option (τ × List τ) :=
  match l.dropWhile (fun x => !ready x) with
  | [] => none
  | t :: rest => some (t, rest ++ l.takeWhile (fun x => !ready x) ++ [t])

/-- `v` is met before `u`. -/
def Ahead (v u : τ) (l : List τ) : Prop :=
  [v, u].Sublist l

theorem pick_eq_some (h : pick ready l = some (t, l')) :
    ∃ a b, l = a ++ t :: b ∧ (∀ x ∈ a, ready x = false) ∧ ready t = true ∧
      l' = b ++ a ++ [t] := by
  rw [pick] at h
  split at h
  · cases h
  case h_2 t' rest heq =>
    obtain ⟨rfl, rfl⟩ := Prod.mk.inj (Option.some.inj h)
    refine ⟨l.takeWhile (fun x => !ready x), rest, ?_, ?_, ?_, rfl⟩
    · rw [← heq, List.takeWhile_append_dropWhile]
    · intro x hx
      simpa using List.mem_takeWhile_imp hx
    · have hhead := List.head?_dropWhile_not (fun x => !ready x) l
      rw [heq] at hhead
      simpa using hhead

theorem pick_eq_none (h : pick ready l = none) : ∀ x ∈ l, ready x = false := by
  rw [pick] at h
  split at h
  · next heq =>
    intro x hx
    have := List.dropWhile_eq_nil_iff.mp heq x hx
    simpa using this
  · cases h

theorem exists_pick (hv : v ∈ l) (hready : ready v = true) :
    ∃ t l', pick ready l = some (t, l') := by
  rcases h : pick ready l with _ | ⟨t, l'⟩
  · rw [pick_eq_none h v hv] at hready
    cases hready
  · exact ⟨t, l', rfl⟩

/-- A pick only turns the ring. -/
theorem pick_isRotated (h : pick ready l = some (t, l')) : l'.IsRotated l := by
  obtain ⟨a, b, rfl, -, -, rfl⟩ := pick_eq_some h
  rw [List.append_assoc]
  refine List.isRotated_append.trans ?_
  rw [List.append_assoc, List.singleton_append]

theorem mem_pick (h : pick ready l = some (t, l')) : t ∈ l := by
  obtain ⟨a, b, rfl, -⟩ := pick_eq_some h
  simp

/-- Where a walk meets the element the ring starts with. -/
theorem split_of_isRotated {ts : List τ} (h : l.IsRotated (t :: ts)) :
    ∃ a b, l = a ++ t :: b ∧ ts = b ++ a := by
  obtain ⟨n, hn, hrot⟩ := List.isRotated_iff_mod.mp h
  rw [List.rotate_eq_drop_append_take hn] at hrot
  have hl := List.take_append_drop n l
  cases hdrop : l.drop n with
  | nil =>
    rw [hdrop, List.append_nil] at hl
    rw [hdrop, List.nil_append, hl] at hrot
    exact ⟨[], ts, hrot, (List.append_nil ts).symm⟩
  | cons x b =>
    rw [hdrop, List.cons_append] at hrot
    obtain ⟨rfl, rfl⟩ := List.cons.inj hrot
    exact ⟨l.take n, b, by rw [← hdrop, hl], rfl⟩

/-! ## Nothing is passed over -/

/-- When `u` has been picked, everything else is ahead of it. -/
theorem ahead_of_picked (h : pick ready l = some (u, l')) (hv : v ∈ l) (hne : v ≠ u) :
    Ahead v u l' := by
  obtain ⟨a, b, rfl, -, -, rfl⟩ := pick_eq_some h
  have hmem : v ∈ b ++ a := by
    simp only [List.mem_append, List.mem_cons] at hv ⊢
    tauto
  exact (List.singleton_sublist.mpr hmem).append (List.Sublist.refl [u])

/-- A ready `v` ahead of `u` is picked before `u` is, and until then stays ahead. -/
theorem Ahead.pick (hahead : Ahead v u l) (hready : ready v = true)
    (hnodup : l.Nodup) (h : pick ready l = some (t, l')) :
    t = v ∨ t ≠ u ∧ Ahead v u l' := by
  obtain ⟨a, b, rfl, ha, -, rfl⟩ := pick_eq_some h
  by_cases htv : t = v
  · exact .inl htv
  · -- nothing before `t` is ready, so both come after it
    have hva : v ∉ a := by
      intro hmem
      rw [ha v hmem] at hready
      cases hready
    have hsub : [v, u].Sublist (t :: b) := by
      obtain ⟨l₁, l₂, hl, h₁, h₂⟩ := List.sublist_append_iff.mp hahead
      cases l₁ with
      | nil => rw [List.nil_append] at hl; rw [hl]; exact h₂
      | cons x xs =>
        obtain ⟨rfl, -⟩ := List.cons.inj hl
        exact absurd (h₁.subset (List.mem_cons_self ..)) hva
    have hb : [v, u].Sublist b := (List.sublist_cons_iff.mp hsub).resolve_right (by
      rintro ⟨r, hr, -⟩
      exact htv (List.cons.inj hr).1.symm)
    refine .inr ⟨?_, ?_⟩
    · rintro rfl
      have htb : t ∈ b := hb.subset (by simp)
      have := (List.nodup_append.mp hnodup).2.1
      exact (List.nodup_cons.mp this).1 htb
    · rw [List.append_assoc]
      exact hb.trans (List.sublist_append_left ..)

/-- Joining the ring passes nobody. -/
theorem Ahead.join {a b : List τ} (h : Ahead v u (a ++ b)) : Ahead v u (a ++ t :: b) :=
  h.trans ((List.Sublist.refl a).append (List.sublist_cons_self t b))

/-! ## How long a wait is -/

section

variable [DecidableEq τ]

/-- A ready `v` that is not picked has come nearer. -/
theorem idxOf_pick (hv : v ∈ l) (hready : ready v = true) (h : pick ready l = some (t, l'))
    (hne : t ≠ v) : l'.idxOf v < l.idxOf v := by
  obtain ⟨a, b, rfl, ha, -, rfl⟩ := pick_eq_some h
  have hva : v ∉ a := by
    intro hmem
    rw [ha v hmem] at hready
    cases hready
  have hvb : v ∈ b := by
    simp only [List.mem_append, List.mem_cons] at hv
    tauto
  rw [List.append_assoc, List.idxOf_append_of_mem hvb, List.idxOf_append_of_notMem hva,
    List.idxOf_cons_ne _ hne]
  omega

/-- Whoever joins puts the others back by one at most. -/
theorem idxOf_join {a b : List τ} (hne : t ≠ v) :
    (a ++ t :: b).idxOf v ≤ (a ++ b).idxOf v + 1 := by
  by_cases hva : v ∈ a
  · rw [List.idxOf_append_of_mem hva, List.idxOf_append_of_mem hva]
    exact Nat.le_succ _
  · rw [List.idxOf_append_of_notMem hva, List.idxOf_append_of_notMem hva, List.idxOf_cons_ne _ hne]
    omega

end

end RoundRobin
