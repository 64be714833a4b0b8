import Mathlib.Data.List.Nodup

/-!
# Tilings of a range

Blocks of addresses, each beginning where the one before it ends. `Tiles size lo l hi` says that
the blocks at the addresses `l`, of the sizes `size` tells, make up the range from `lo` to `hi`.
-/

namespace Tiling

variable {size size' : ℕ → ℕ} {lo hi a b x : ℕ} {l xs ys : List ℕ}

/-- The blocks make up the range. -/
def Tiles (size : ℕ → ℕ) : ℕ → List ℕ → ℕ → Prop
  | lo, [], hi => lo = hi
  | lo, a :: l, hi => a = lo ∧ Tiles size (lo + size a) l hi

theorem tiles_cons : Tiles size lo (a :: l) hi ↔ a = lo ∧ Tiles size (lo + size a) l hi := Iff.rfl

theorem tiles_singleton : Tiles size lo [a] hi ↔ a = lo ∧ lo + size a = hi := Iff.rfl

theorem tiles_append : ∀ {xs : List ℕ} {lo : ℕ},
    Tiles size lo (xs ++ ys) hi ↔ ∃ mid, Tiles size lo xs mid ∧ Tiles size mid ys hi
  | [], lo => by simp [Tiles]
  | a :: xs, lo => by
    rw [List.cons_append, tiles_cons, tiles_append]
    constructor
    · rintro ⟨ha, mid, hxs, hys⟩
      exact ⟨mid, ⟨ha, hxs⟩, hys⟩
    · rintro ⟨mid, ⟨ha, hxs⟩, hys⟩
      exact ⟨ha, mid, hxs, hys⟩

theorem Tiles.le : ∀ {l : List ℕ} {lo : ℕ}, Tiles size lo l hi → lo ≤ hi
  | [], _, h => Nat.le_of_eq h
  | _ :: _, _, h => Nat.le_trans (Nat.le_add_right ..) h.2.le

theorem Tiles.congr : ∀ {l : List ℕ} {lo : ℕ}, Tiles size lo l hi →
    (∀ b ∈ l, size' b = size b) → Tiles size' lo l hi
  | [], _, h, _ => h
  | a :: l, lo, ⟨ha, hl⟩, hsame => by
    refine ⟨ha, ?_⟩
    rw [hsame a List.mem_cons_self]
    exact hl.congr fun b hb => hsame b (List.mem_cons_of_mem a hb)

/-- Where a block lies. -/
theorem Tiles.within : ∀ {l : List ℕ} {lo : ℕ}, Tiles size lo l hi → a ∈ l →
    lo ≤ a ∧ a + size a ≤ hi
  | b :: l, lo, ⟨hb, hl⟩, ha => by
    rcases List.mem_cons.mp ha with rfl | ha
    · subst hb
      exact ⟨Nat.le_refl _, hl.le⟩
    · obtain ⟨hlo, hhi⟩ := hl.within ha
      exact ⟨Nat.le_trans (Nat.le_add_right ..) hlo, hhi⟩

/-- The blocks follow one another. -/
theorem Tiles.pairwise : ∀ {l : List ℕ} {lo : ℕ}, Tiles size lo l hi →
    l.Pairwise fun a b => a + size a ≤ b
  | [], _, _ => .nil
  | a :: l, lo, ⟨ha, hl⟩ => by
    subst ha
    exact .cons (fun b hb => (hl.within hb).1) hl.pairwise

theorem Tiles.nodup (h : Tiles size lo l hi) (hpos : ∀ b ∈ l, 0 < size b) : l.Nodup := by
  refine h.pairwise.imp_of_mem fun {a b} ha _ hab hne => ?_
  have := hpos a ha
  omega

/-- Two blocks have no address in common. -/
theorem Tiles.disjoint : ∀ {l : List ℕ} {lo : ℕ}, Tiles size lo l hi → a ∈ l → b ∈ l → a ≠ b →
    a + size a ≤ b ∨ b + size b ≤ a
  | c :: l, lo, ⟨hc, hl⟩, ha, hb, hne => by
    subst hc
    rcases List.mem_cons.mp ha with rfl | hal <;> rcases List.mem_cons.mp hb with rfl | hbl
    · exact absurd rfl hne
    · exact .inl (hl.within hbl).1
    · exact .inr (hl.within hal).1
    · exact hl.disjoint hal hbl hne

theorem Tiles.adjacent (h : Tiles size lo (xs ++ a :: b :: ys) hi) : a + size a = b := by
  obtain ⟨_, -, rfl, hb, -⟩ := tiles_append.mp h
  exact hb.symm

/-- Two neighbours become one block. -/
theorem Tiles.merge (h : Tiles size lo (xs ++ a :: b :: ys) hi)
    (hnodup : (xs ++ a :: b :: ys).Nodup) (ha : size' a = size a + size b)
    (hsame : ∀ c, c ≠ a → size' c = size c) : Tiles size' lo (xs ++ a :: ys) hi := by
  obtain ⟨mid, hxs, rfl, hb, hys⟩ := tiles_append.mp h
  have hne : ∀ c ∈ xs ++ b :: ys, c ≠ a := by
    rintro c hc rfl
    rw [List.nodup_middle, List.nodup_cons] at hnodup
    exact hnodup.1 hc
  refine tiles_append.mpr ⟨a, hxs.congr fun c hc => hsame c (hne c (by simp [hc])), rfl, ?_⟩
  rw [ha, ← Nat.add_assoc]
  exact hys.congr fun c hc => hsame c (hne c (by simp [hc]))

/-- A block becomes two. -/
theorem Tiles.split (h : Tiles size lo (xs ++ a :: ys) hi)
    (hnodup : (xs ++ a :: ys).Nodup) (hb : b = a + size' a) (hba : b ≠ a)
    (hbl : b ∉ xs ++ ys) (ha : size' a + size' b = size a)
    (hsame : ∀ c, c ≠ a → c ≠ b → size' c = size c) :
    Tiles size' lo (xs ++ a :: b :: ys) hi := by
  obtain ⟨mid, hxs, rfl, hys⟩ := tiles_append.mp h
  have hne : ∀ c ∈ xs ++ ys, c ≠ a := by
    rintro c hc rfl
    rw [List.nodup_middle, List.nodup_cons] at hnodup
    exact hnodup.1 hc
  have hkept : ∀ c ∈ xs ++ ys, size' c = size c := fun c hc =>
    hsame c (hne c hc) fun h => hbl (h ▸ hc)
  refine tiles_append.mpr ⟨a, hxs.congr fun c hc => hkept c (by simp [hc]), rfl, hb, ?_⟩
  rw [Nat.add_assoc, ha]
  exact hys.congr fun c hc => hkept c (by simp [hc])

end Tiling
