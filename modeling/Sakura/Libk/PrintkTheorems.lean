import Mathlib.Data.List.Induction
import Sakura.Libk.PrintfTheorems

/-!
# The buffer of `printk`

`printk` formats first and cuts afterwards. What the console gets is the text cut to the buffer;
what is stored is the whole text and the 0 behind it.
-/

namespace Sakura.Libk.Printf

open I386 (Word)

section

variable (env : Environment)

theorem output_nul (format : List Byte) (args : List Word) : output env (0 :: format) args = [0] := by
  rw [output, if_pos rfl]

theorem output_char {c : Byte} (format : List Byte) (args : List Word) (hnul : c ≠ 0)
    (hpercent : c ≠ chr '%') : output env (c :: format) args = c :: output env format args := by
  rw [output, if_neg hnul, if_pos hpercent]

theorem output_directive {format rest : List Byte} {args args' : List Word} {d : Directive}
    {text : List Byte} (hd : directive format = some (d, rest))
    (hrender : render env d args = some (text, args')) :
    output env (chr '%' :: format) args = text ++ output env rest args' := by
  rw [output, if_neg (by decide), if_neg (not_not.mpr rfl)]
  split
  · rename_i heq
    rw [hd] at heq
    cases heq
  · rename_i heq
    rw [hd] at heq
    obtain ⟨rfl, rfl⟩ := Prod.mk.inj (Option.some.inj heq)
    rw [hrender]

variable {env} {format : List Byte} {args : List Word} {text : List Byte}

/-- A text that is formatted is put out whole, and the 0 behind it. -/
theorem output_eq (h : vsnprintf env format args = some text) :
    output env format args = text ++ [0] := by
  induction format, args using vsnprintf.induct generalizing text with
  | case1 args => rw [vsnprintf] at h; cases h
  | case2 format args =>
    rw [vsnprintf_nul] at h
    obtain rfl := Option.some.inj h
    rw [output_nul, List.nil_append]
  | case3 c format args hnul hpercent ih =>
    rw [vsnprintf_char env format args hnul hpercent, Option.map_eq_some_iff] at h
    obtain ⟨text, htext, rfl⟩ := h
    rw [output_char env format args hnul hpercent, ih htext, List.cons_append]
  | case4 c format args hnul hpercent hnone =>
    obtain rfl := not_not.mp hpercent
    rw [vsnprintf_unfinished env format args hnone] at h
    cases h
  | case5 c format args hnul hpercent d rest hd _ ih =>
    obtain rfl := not_not.mp hpercent
    rw [vsnprintf_directive env format args hd] at h
    obtain ⟨⟨text, args'⟩, hrender, h⟩ := Option.bind_eq_some_iff.mp h
    obtain ⟨out, hout, rfl⟩ := Option.map_eq_some_iff.mp h
    rw [output_directive env hd hrender, ih args' hout, List.append_assoc]

/-! ## What is stored -/

theorem stores_lt_iff : (∀ w ∈ stores env format args, w.2 < printkBufferSize) ↔
    (output env format args).length ≤ printkBufferSize := by
  have hroom := env.le_room
  constructor
  · intro h
    by_contra hlong
    -- the byte behind the buffer is stored, whether its page is mapped or not
    have hlt : printkBufferSize < ((output env format args).take (env.room + 1)).length := by
      rw [List.length_take]
      omega
    have hmem : (((output env format args).take (env.room + 1))[printkBufferSize], printkBufferSize)
        ∈ stores env format args := by
      rw [stores, List.mem_zipIdx_iff_getElem?, List.getElem?_eq_getElem hlt]
    exact absurd (h _ hmem) (Nat.lt_irrefl _)
  · rintro h ⟨c, i⟩ hmem
    rw [stores] at hmem
    have hlt := List.snd_lt_of_mem_zipIdx hmem
    rw [List.length_take] at hlt
    omega

theorem contents_append (buffer : ℕ → Byte) (ws ws' : List (Byte × ℕ)) :
    contents buffer (ws ++ ws') = contents (contents buffer ws) ws' :=
  List.foldl_append

/-- Stores to one index after the other do not overwrite each other. -/
theorem contents_zipIdx (buffer : ℕ → Byte) (cs : List Byte) {i : ℕ} (hi : i < cs.length) :
    contents buffer cs.zipIdx i = cs[i] := by
  induction cs using List.reverseRecOn with
  | nil => cases hi
  | append_singleton cs c ih =>
    have hlast : contents buffer (cs ++ [c]).zipIdx i
        = if i = cs.length then c else contents buffer cs.zipIdx i := by
      rw [List.zipIdx_append, contents_append, List.zipIdx_singleton, Nat.zero_add]
      rfl
    rw [hlast]
    rw [List.length_append, List.length_singleton] at hi
    by_cases heq : i = cs.length
    · simp [heq]
    · rw [if_neg heq, ih (by omega), List.getElem_append_left]

/-! ## What is handed to the console -/

theorem length_handed (text : List Byte) :
    (handed text).length = min text.length printkBufferSize := by
  rw [handed, List.length_range]
  split <;> omega

theorem handed_lt {i : ℕ} (hi : i ∈ handed text) : i < min text.length printkBufferSize := by
  have hlt := List.mem_range.mp hi
  rw [← length_handed, handed, List.length_range]
  exact hlt

/-- The console gets the text, cut to what the buffer can hold. -/
theorem contents_handed (buffer : ℕ → Byte) (h : vsnprintf env format args = some text) :
    (handed text).map (contents buffer (stores env format args)) = text.take printkBufferSize := by
  have hroom := env.le_room
  apply List.ext_getElem
  · rw [List.length_map, length_handed, List.length_take, Nat.min_comm]
  · intro i hi hi'
    rw [List.length_map, length_handed] at hi
    have hlt : i < ((output env format args).take (env.room + 1)).length := by
      rw [output_eq h, List.length_take, List.length_append]
      omega
    have hin : i < (handed text).length := by
      rw [length_handed]
      omega
    have hindex : (handed text)[i] = i := by
      simp only [handed, List.getElem_range]
    rw [List.getElem_map, hindex, stores, contents_zipIdx buffer _ hlt, List.getElem_take,
      List.getElem_take]
    simp only [output_eq h]
    rw [List.getElem_append_left]

/-- What `printk` hands over is read from the buffer. -/
theorem printk_eq (buffer : ℕ → Byte) (h : vsnprintf env format args = some text)
    (hroom : text.length < env.room) : printk env format args
      = some ((handed text).map (contents buffer (stores env format args))) := by
  rw [printk, h, Option.bind_some, if_pos hroom, contents_handed buffer h]

/-- `printk` touches nothing but its buffer, and hands over what that can hold. -/
structure StaysInBuffer (env : Environment) (format : List Byte) (args : List Word)
    (buffer : ℕ → Byte) : Prop where
  stored : ∀ w ∈ stores env format args, w.2 < printkBufferSize
  handed_lt : ∀ text, vsnprintf env format args = some text →
    ∀ i ∈ handed text, i < printkBufferSize
  handed_eq : ∀ text, vsnprintf env format args = some text →
    (handed text).map (contents buffer (stores env format args)) = text.take printkBufferSize

end

/-- `printk` stays in its buffer exactly where what is put out, with its 0, fits the buffer. -/
theorem printk_in_buffer_iff (env : Environment) (format : List Byte) (args : List Word)
    (buffer : ℕ → Byte) : StaysInBuffer env format args buffer ↔
      (output env format args).length ≤ printkBufferSize := by
  constructor
  · intro h
    exact stores_lt_iff.mp h.stored
  · intro h
    refine ⟨stores_lt_iff.mpr h, ?_, fun text htext => contents_handed buffer htext⟩
    intro text _ i hi
    exact Nat.lt_of_lt_of_le (handed_lt hi) (Nat.min_le_right ..)

/-- Nothing but the buffer is mapped. -/
def bareEnv : Environment where
  memory _ := []
  stack := []
  room := printkBufferSize
  floats := zeroFormat
  le_room := Nat.le_refl _
  room_lt := printkBufferSize_lt

/-- A text that fills the buffer, and the 0 that no longer fits. -/
theorem printk_leaves_buffer : ¬ ∀ (env : Environment) (format : List Byte) (args : List Word)
    (buffer : ℕ → Byte), StaysInBuffer env format args buffer := by
  intro h
  let text := List.replicate printkBufferSize (chr 'a')
  have hplain : ∀ c ∈ text, Plain c := by
    intro c hc
    rw [List.eq_of_mem_replicate hc]
    exact ⟨by decide, by decide⟩
  have hstored := stores_lt_iff.mp (h bareEnv (text ++ [0]) [] fun _ => 0).stored
  rw [output_eq (vsnprintf_plain bareEnv [] [] text hplain), List.length_append,
    List.length_replicate, List.length_singleton] at hstored
  omega

end Sakura.Libk.Printf
