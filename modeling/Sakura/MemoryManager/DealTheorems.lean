import Sakura.MemoryManager.MemoryManager
import Sakura.MemoryManager.VirtualMapTheorems

/-!
# Where the page tables of a call come from

A call of `VirtualMap` hands free frames, lowest first, to the empty slots it meets. A frame
whose own page lies in an empty slot asks for the next frame for that slot before it is put
in place. `deal` is this order, as a list of slots and frames, and `Dealt` says what a call
does to the machine in terms of the list:

* a slot on the list names the first frame it was dealt, because the outermost call writes
  last; other slots are untouched;
* outside the directory only the entries of the pages asked for and of the pages of the
  dealt frames are written, each in the table its slot named or was dealt;
* exactly the dealt frames become used.

Frame 0 on the list is a failed allocation, which the code does not notice.
-/

namespace Sakura.MemoryManager

open MemoryManagerData

/-- The slots that get a table when page `p` is mapped, each with its frame. -/
def deal (present : ℕ → Bool) : List ℕ → ℕ → List (ℕ × ℕ)
  | [], p => if present (p / 1024) then [] else [(p / 1024, 0)]
  | t :: ts, p => if present (p / 1024) then [] else (p / 1024, t) :: deal present ts t

/-- The same for the `n` pages from page `p` on. -/
def dealPages (present : ℕ → Bool) (frames : List ℕ) : ℕ → ℕ → List (ℕ × ℕ)
  | 0, _ => []
  | n + 1, p =>
    let dealt := deal present frames p
    dealt ++ dealPages (fun s => present s || (dealt.lookup s).isSome) (frames.drop dealt.length)
      n ((p + 1) % 2 ^ 20)

/-- The frames of a deal: the free frames in order, and 0 once there are none left. -/
def dealtFrames (frames : List ℕ) (k : ℕ) : List ℕ :=
  frames.take k ++ List.replicate (k - frames.length) 0

/-- The frames of two runs of requests, one behind the other. -/
theorem dealtFrames_add (frames : List ℕ) (j k : ℕ) :
    dealtFrames frames (j + k) = dealtFrames frames j ++ dealtFrames (frames.drop j) k := by
  rcases Nat.le_total j frames.length with h | h
  · have hj : j - frames.length = 0 := by omega
    have hk : j + k - frames.length = k - (frames.length - j) := by omega
    rw [dealtFrames, dealtFrames, dealtFrames, List.take_add, List.length_drop, hj, hk,
      List.replicate_zero, List.append_nil, List.append_assoc]
  · have hk : j + k - frames.length = (j - frames.length) + k := by omega
    rw [dealtFrames, dealtFrames, dealtFrames, List.drop_eq_nil_of_le h,
      List.take_of_length_le (by omega : frames.length ≤ j + k), List.take_of_length_le h,
      List.take_nil, List.length_nil, List.nil_append, List.append_assoc,
      ← List.replicate_add, hk, Nat.sub_zero]

/-- A frame that is dealt was free, or is 0. -/
theorem mem_dealtFrames {frames : List ℕ} {k f : ℕ} (h : f ∈ dealtFrames frames k) :
    f = 0 ∨ f ∈ frames := by
  rcases List.mem_append.mp h with h | h
  · exact Or.inr (List.mem_of_mem_take h)
  · exact Or.inl (List.eq_of_mem_replicate h)

/-- What the directory's own frame has to satisfy: it is in use, and no slot names it as a
table. Slot 0 is one of the kernel's. -/
structure OwnFrame (m : Machine) (pd : ℕ) : Prop where
  ne_zero : pd ≠ 0
  used : m.used pd = true
  slot_zero : slotPresent m pd 0 = true
  table_ne : ∀ s < 1024, slotPresent m pd s = true → tableOf m pd s ≠ pd

/-- An entry that maps a page to one of the frames `target`, or to a dealt frame. -/
def MapsTo (A : List (ℕ × ℕ)) (target : ℕ → Prop) (e : ℕ) : Prop :=
  Entry.present e = true ∧
    (target (Entry.pageFrameNumber e) ∨ Entry.pageFrameNumber e ∈ A.map Prod.snd)

/-- The effect of mapping the pages `mapped` to frames `target`, with the deal `A`. -/
structure Dealt (m m' : Machine) (pd : ℕ) (A : List (ℕ × ℕ)) (mapped target : ℕ → Prop) :
    Prop where
  absent : ∀ a ∈ A, a.1 < 1024 ∧ slotPresent m pd a.1 = false
  frames : A.map Prod.snd = dealtFrames (freeFrames m.memManData) A.length
  slot : ∀ s t, A.lookup s = some t → slotPresent m' pd s = true ∧ tableOf m' pd s = t
  keep : ∀ s, A.lookup s = none → m'.ram pd s = m.ram pd s
  other : ∀ g, g ≠ pd → ∀ i, m'.ram g i = m.ram g i ∨
    MapsTo A target (m'.ram g i) ∧ ∃ w < 2 ^ 20, (mapped w ∨ w ∈ A.map Prod.snd) ∧ w % 1024 = i ∧
      ((slotPresent m pd (w / 1024) = true ∧ tableOf m pd (w / 1024) = g) ∨ (w / 1024, g) ∈ A)
  maps : ∀ w, mapped w → w < 2 ^ 20 ∧ slotPresent m' pd (w / 1024) = true ∧
    MapsTo A target (pageEntry m' pd w)
  self : ∀ t ∈ A.map Prod.snd, slotPresent m pd (t / 1024) = true →
    Entry.present (pageEntry m' pd t) = true
  used : ∀ q, m'.used q = true ↔ m.used q = true ∨ q ∈ A.map Prod.snd
  free : freeFrames m'.memManData = (freeFrames m.memManData).drop A.length
  cr3 : m'.cr3 = m.cr3

section

variable {m m₁ m₂ : Machine} {pd : ℕ}

theorem mem_of_lookup_eq_some {A : List (ℕ × ℕ)} {s t : ℕ} (h : A.lookup s = some t) :
    (s, t) ∈ A := by
  induction A with
  | nil => cases h
  | cons a A ih =>
    obtain ⟨s', t'⟩ := a
    rw [List.lookup_cons] at h
    by_cases hs : s = s'
    · subst hs
      simp only [beq_self_eq_true] at h
      rw [Option.some.inj h]
      exact List.mem_cons_self
    · simp only [beq_false_of_ne hs] at h
      exact List.mem_cons_of_mem _ (ih h)

theorem lookup_ne_none_of_mem {A : List (ℕ × ℕ)} {s t : ℕ} (h : (s, t) ∈ A) :
    A.lookup s ≠ none := by
  intro hnone
  have hne := List.lookup_eq_none_iff.mp hnone (s, t) h
  simp at hne

/-- The frames of a deal are free ones, or frame 0. -/
theorem Dealt.frame_ne {A : List (ℕ × ℕ)} {mapped target : ℕ → Prop}
    (h : Dealt m m₁ pd A mapped target)
    (hown : OwnFrame m pd) {s t : ℕ} (ha : (s, t) ∈ A) : t ≠ pd := by
  have hmem : t ∈ A.map Prod.snd := List.mem_map.mpr ⟨(s, t), ha, rfl⟩
  rw [h.frames] at hmem
  rcases mem_dealtFrames hmem with rfl | hf
  · exact hown.ne_zero.symm
  · exact ne_of_mem_freeFrames hf hown.used

/-- A slot that is present is not in a deal. -/
theorem Dealt.lookup_none {A : List (ℕ × ℕ)} {mapped target : ℕ → Prop}
    (h : Dealt m m₁ pd A mapped target) {s : ℕ} (hs : slotPresent m pd s = true) :
    A.lookup s = none := by
  by_contra hne
  obtain ⟨t, ht⟩ := Option.ne_none_iff_exists'.mp hne
  rw [(h.absent _ (mem_of_lookup_eq_some ht)).2] at hs
  exact Bool.false_ne_true hs

/-- A slot that was present is kept. -/
theorem Dealt.keep_slot {A : List (ℕ × ℕ)} {mapped target : ℕ → Prop}
    (h : Dealt m m₁ pd A mapped target) {s : ℕ} (hs : slotPresent m pd s = true) :
    m₁.ram pd s = m.ram pd s :=
  h.keep s (h.lookup_none hs)

/-- A table has a frame number. -/
theorem Dealt.frame_lt {A : List (ℕ × ℕ)} {mapped target : ℕ → Prop}
    (h : Dealt m m₁ pd A mapped target) {t : ℕ} (ht : t ∈ A.map Prod.snd) : t < 2 ^ 20 := by
  rw [h.frames] at ht
  rcases mem_dealtFrames ht with rfl | hf
  · omega
  · exact freeFrames_lt hf

/-- The slots that are present are the old ones and those that got a table. -/
theorem Dealt.slotPresent_eq {A : List (ℕ × ℕ)} {mapped target : ℕ → Prop}
    (h : Dealt m m₁ pd A mapped target)
    (s : ℕ) : slotPresent m₁ pd s = (slotPresent m pd s || (A.lookup s).isSome) := by
  cases hl : A.lookup s with
  | none =>
    rw [slotPresent, h.keep s hl, ← slotPresent]
    simp
  | some t =>
    rw [(h.slot s t hl).1]
    simp

/-- The directory's frame stays its own. -/
theorem Dealt.ownFrame {A : List (ℕ × ℕ)} {mapped target : ℕ → Prop}
    (h : Dealt m m₁ pd A mapped target)
    (hown : OwnFrame m pd) : OwnFrame m₁ pd := by
  refine ⟨hown.ne_zero, (h.used pd).mpr (Or.inl hown.used), ?_, ?_⟩
  · rw [h.slotPresent_eq, hown.slot_zero, Bool.true_or]
  · intro s hs hp
    cases hl : A.lookup s with
    | none =>
      rw [slotPresent, h.keep s hl] at hp
      rw [tableOf, h.keep s hl]
      exact hown.table_ne s hs hp
    | some t =>
      rw [(h.slot s t hl).2]
      exact h.frame_ne hown (mem_of_lookup_eq_some hl)

/-- A slot of the first call that a later call sees is one it found, or one it was dealt. -/
theorem Dealt.table_cases {A : List (ℕ × ℕ)} {mapped target : ℕ → Prop}
    (h : Dealt m m₁ pd A mapped target)
    {s g : ℕ} (hp : slotPresent m₁ pd s = true) (ht : tableOf m₁ pd s = g) :
    (slotPresent m pd s = true ∧ tableOf m pd s = g) ∨ (s, g) ∈ A := by
  cases hl : A.lookup s with
  | none =>
    rw [slotPresent, h.keep s hl] at hp
    rw [tableOf, h.keep s hl] at ht
    exact Or.inl ⟨hp, ht⟩
  | some t =>
    rw [(h.slot s t hl).2] at ht
    exact Or.inr (ht ▸ mem_of_lookup_eq_some hl)

/-- Two calls one after the other. -/
theorem Dealt.trans {A B : List (ℕ × ℕ)} {mapped mapped' target target' : ℕ → Prop}
    (hown : OwnFrame m pd) (h : Dealt m m₁ pd A mapped target)
    (h' : Dealt m₁ m₂ pd B mapped' target') :
    Dealt m m₂ pd (A ++ B) (fun w => mapped w ∨ mapped' w) (fun f => target f ∨ target' f) := by
  -- a slot of the second deal was still empty after the first
  have hfresh : ∀ b ∈ B, slotPresent m pd b.1 = false ∧ A.lookup b.1 = none := by
    intro b hb
    have habs := (h'.absent b hb).2
    rw [h.slotPresent_eq, Bool.or_eq_false_iff] at habs
    exact ⟨habs.1, by simpa using habs.2⟩
  have hsnd : ∀ {q}, q ∈ A.map Prod.snd ∨ q ∈ B.map Prod.snd → q ∈ (A ++ B).map Prod.snd := by
    intro q hq
    rw [List.map_append]
    exact List.mem_append.mpr hq
  have hleft : ∀ {e}, MapsTo A target e → MapsTo (A ++ B) (fun f => target f ∨ target' f) e :=
    fun he => ⟨he.1, he.2.imp Or.inl fun h => hsnd (Or.inl h)⟩
  have hright : ∀ {e}, MapsTo B target' e → MapsTo (A ++ B) (fun f => target f ∨ target' f) e :=
    fun he => ⟨he.1, he.2.imp Or.inr fun h => hsnd (Or.inr h)⟩
  -- a slot that is present after the first call keeps its table
  have hkeepB : ∀ {s}, slotPresent m₁ pd s = true → m₂.ram pd s = m₁.ram pd s := h'.keep_slot
  refine ⟨?_, ?_, ?_, ?_, ?_, ?_, ?_, ?_, ?_, h'.cr3.trans h.cr3⟩
  · intro a ha
    rcases List.mem_append.mp ha with ha | ha
    · exact h.absent a ha
    · exact ⟨(h'.absent a ha).1, (hfresh a ha).1⟩
  · rw [List.map_append, h.frames, h'.frames, h.free, List.length_append, dealtFrames_add]
  · intro s t hl
    rw [List.lookup_append] at hl
    cases hA : A.lookup s with
    | some u =>
      rw [hA] at hl
      obtain rfl : u = t := by simpa using hl
      have hB : B.lookup s = none := by
        by_contra hne
        obtain ⟨v, hv⟩ := Option.ne_none_iff_exists'.mp hne
        rw [(hfresh _ (mem_of_lookup_eq_some hv)).2] at hA
        cases hA
      rw [slotPresent, tableOf, h'.keep s hB, ← slotPresent, ← tableOf]
      exact h.slot s u hA
    | none =>
      rw [hA] at hl
      exact h'.slot s t (by simpa using hl)
  · intro s hl
    rw [List.lookup_append, Option.or_eq_none_iff] at hl
    rw [h'.keep s hl.2, h.keep s hl.1]
  · intro g hg i
    rcases h'.other g hg i with heq | ⟨hto, w, hlt, hw, hi, hwhere⟩
    · rw [heq]
      rcases h.other g hg i with heq' | ⟨hto, w, hlt, hw, hi, hwhere⟩
      · exact Or.inl heq'
      · refine Or.inr ⟨hleft hto, w, hlt, ?_, hi, ?_⟩
        · exact hw.imp Or.inl fun h => hsnd (Or.inl h)
        · exact hwhere.imp id fun h => List.mem_append_left _ h
    · refine Or.inr ⟨hright hto, w, hlt, ?_, hi, ?_⟩
      · exact hw.imp Or.inr fun h => hsnd (Or.inr h)
      · rcases hwhere with ⟨hp, ht⟩ | hmem
        · exact (h.table_cases hp ht).imp id fun h => List.mem_append_left _ h
        · exact Or.inr (List.mem_append_right _ hmem)
  · rintro w (hw | hw)
    · -- mapped by the first call, and perhaps again by the second
      obtain ⟨hlt, hs, hto⟩ := h.maps w hw
      have hkeep := hkeepB hs
      have hne := (h.ownFrame hown).table_ne _ (by omega) hs
      refine ⟨hlt, by rwa [slotPresent, hkeep], ?_⟩
      rw [pageEntry, tableOf, hkeep, ← tableOf]
      rcases h'.other _ hne (w % 1024) with heq | ⟨hto', -⟩
      · rw [heq]
        exact hleft hto
      · exact hright hto'
    · obtain ⟨hlt, hs, hto⟩ := h'.maps w hw
      exact ⟨hlt, hs, hright hto⟩
  · intro t ht hs
    have hs₁ : slotPresent m₁ pd (t / 1024) = true := by
      rw [h.slotPresent_eq, hs, Bool.true_or]
    rw [List.map_append, List.mem_append] at ht
    rcases ht with ht | ht
    · have hlt : t < 2 ^ 20 := h.frame_lt ht
      have hne := (h.ownFrame hown).table_ne _ (by omega) hs₁
      rw [pageEntry, tableOf, hkeepB hs₁, ← tableOf]
      rcases h'.other _ hne (t % 1024) with heq | ⟨hto, -⟩
      · rw [heq]
        exact h.self t ht hs
      · exact hto.1
    · exact h'.self t ht hs₁
  · intro q
    rw [h'.used, h.used, List.map_append, List.mem_append, or_assoc]
  · rw [h'.free, h.free, List.drop_drop, List.length_append]

/-! ## One page -/

theorem dealtFrames_zero (frames : List ℕ) : dealtFrames frames 0 = [] := by
  rw [dealtFrames, List.take_zero, Nat.zero_sub, List.replicate_zero, List.append_nil]

theorem dealtFrames_cons (t : ℕ) (ts : List ℕ) (k : ℕ) :
    dealtFrames (t :: ts) (k + 1) = t :: dealtFrames ts k := by
  rw [dealtFrames, List.take_succ_cons, List.length_cons, Nat.add_sub_add_right, List.cons_append,
    ← dealtFrames]

/-- A page whose slot is present. -/
theorem dealt_mapTo {p : ℕ} (hown : OwnFrame m pd) (hp : p < 2 ^ 20)
    (hs : slotPresent m pd (p / 1024) = true) (isUser : Bool) {f : ℕ} (hf : f < 2 ^ 20) :
    Dealt m (mapTo m pd p isUser f) pd [] (· = p) (· = f) := by
  have hdir : ∀ s, (mapTo m pd p isUser f).ram pd s = m.ram pd s := by
    intro s
    apply Machine.ram_store_of_ne
    rintro ⟨he, -⟩
    exact hown.table_ne _ (by omega) hs he.symm
  have hto : MapsTo [] (· = f) ((mapTo m pd p isUser f).ram (tableOf m pd (p / 1024)) (p % 1024)) := by
    rw [mapTo, Machine.ram_store_self, MapsTo, Entry.present_map, Entry.pageFrameNumber_map,
      Nat.mod_eq_of_lt hf]
    exact ⟨rfl, Or.inl rfl⟩
  refine ⟨by simp, by simp [dealtFrames_zero], by simp, fun s _ => hdir s, ?_, ?_, by simp, ?_, rfl,
    rfl⟩
  · intro g hg i
    by_cases hw : g = tableOf m pd (p / 1024) ∧ i = p % 1024
    · obtain ⟨rfl, rfl⟩ := hw
      exact Or.inr ⟨hto, p, hp, Or.inl rfl, rfl, Or.inl ⟨hs, rfl⟩⟩
    · exact Or.inl (Machine.ram_store_of_ne m _ hw)
  · rintro w rfl
    refine ⟨hp, by rw [slotPresent, hdir]; exact hs, ?_⟩
    rw [pageEntry, tableOf, hdir, ← tableOf]
    exact hto
  · intro q
    simp only [List.map_nil, List.not_mem_nil, or_false]
    rfl

/-- `m₁` is `m` after `physicalAllocate(1)` returned frame `t`, which is 0 when it failed. -/
structure TableTaken (m m₁ : Machine) (t : ℕ) : Prop where
  ram : m₁.ram = m.ram
  cr3 : m₁.cr3 = m.cr3
  lt : t < 2 ^ 20
  used : ∀ q, m₁.used q = true ↔ m.used q = true ∨ q = t
  frames : ∀ k, t :: dealtFrames (freeFrames m₁.memManData) k
    = dealtFrames (freeFrames m.memManData) (k + 1)
  drop : ∀ k, (freeFrames m₁.memManData).drop k = (freeFrames m.memManData).drop (k + 1)

/-- With a free frame the table gets the first one. -/
theorem tableTaken_cons {t : ℕ} {ts : List ℕ} (hfree : freeFrames m.memManData = t :: ts) :
    TableTaken m (m.allocatePage t).atomicEnable t := by
  have ht : t < 2 ^ 20 := freeFrames_lt (hfree ▸ List.mem_cons_self)
  have hts : freeFrames (m.allocatePage t).atomicEnable.memManData = ts :=
    freeFrames_allocatePage hfree
  refine ⟨rfl, rfl, ht, ?_, ?_, ?_⟩
  · intro q
    have := used_allocatePage m.memManData (t * pageSize) q
    rw [pageOf_mul_of_lt ht] at this
    exact this
  · intro k
    rw [hts, hfree, dealtFrames_cons]
  · intro k
    rw [hts, hfree, List.drop_succ_cons]

/-- Without a free frame the table gets frame 0. -/
theorem tableTaken_nil (hfree : freeFrames m.memManData = []) :
    TableTaken m (m.atomicEnable.allocatePage 0) 0 := by
  have hnone : freeFrames (m.atomicEnable.allocatePage 0).memManData = [] := by
    have := ((grows_atomicEnable m).trans (grows_allocatePage _ 0)).freeFrames_sublist
    rw [hfree] at this
    exact List.sublist_nil.mp this
  refine ⟨rfl, rfl, by omega, fun q => used_allocatePage m.memManData (0 * pageSize) q, ?_, ?_⟩
  · intro k
    rw [hnone, hfree, dealtFrames, dealtFrames, List.take_nil, List.take_nil, List.length_nil,
      List.nil_append, List.nil_append, Nat.sub_zero, Nat.sub_zero, List.replicate_succ]
  · intro k
    rw [hnone, hfree, List.drop_nil, List.drop_nil]

/-- The directory stays apart from the tables. -/
theorem TableTaken.ownFrame {t : ℕ} (h : TableTaken m m₁ t) (hown : OwnFrame m pd) :
    OwnFrame m₁ pd := by
  refine ⟨hown.ne_zero, (h.used pd).mpr (Or.inl hown.used), ?_, ?_⟩
  · rw [slotPresent, h.ram]
    exact hown.slot_zero
  · intro s hs hp
    rw [slotPresent, h.ram] at hp
    rw [tableOf, h.ram]
    exact hown.table_ne s hs hp

/-- The frame `t` has been taken for the slot of `p` (`m₁`) and mapped to itself (`m₂`);
filling the slot completes the deal. -/
theorem Dealt.fillSlot {A : List (ℕ × ℕ)} {p t : ℕ} (htaken : TableTaken m m₁ t)
    (hp : p < 2 ^ 20) (htpd : t ≠ pd) (hs : slotPresent m pd (p / 1024) = false)
    (h : Dealt m₁ m₂ pd A (· = t) (· = t)) (isUser : Bool) {f : ℕ} (hf : f < 2 ^ 20) :
    Dealt m (fillSlot m₂.atomicDisable pd p isUser f t) pd ((p / 1024, t) :: A) (· = p) (· = f) := by
  obtain ⟨hram, hcr3, ht, hused, hframes, hdrop⟩ := htaken
  have hslot₁ : ∀ s, slotPresent m₁ pd s = slotPresent m pd s := by
    intro s
    rw [slotPresent, slotPresent, hram]
  have htable₁ : ∀ s, tableOf m₁ pd s = tableOf m pd s := by
    intro s
    rw [tableOf, tableOf, hram]
  have hdir : ∀ s, (MemoryManager.fillSlot m₂.atomicDisable pd p isUser f t).ram pd s =
      if s = p / 1024 then Entry.map (m₂.ram pd s) isUser t else m₂.ram pd s := by
    intro s
    rw [ram_fillSlot ht htpd, if_neg fun h => htpd h.1.symm]
    simp only [true_and]
    rfl
  have hto : MapsTo ((p / 1024, t) :: A) (· = f)
      ((MemoryManager.fillSlot m₂.atomicDisable pd p isUser f t).ram t (p % 1024)) := by
    rw [ram_fillSlot ht htpd, if_pos ⟨rfl, rfl⟩, MapsTo, Entry.present_map,
      Entry.pageFrameNumber_map, Nat.mod_eq_of_lt hf]
    exact ⟨rfl, Or.inl rfl⟩
  -- the two writes leave the other slots alone and clear no present bit
  have hself : ∀ q, slotPresent m pd (q / 1024) = true →
      Entry.present (pageEntry m₂ pd q) = true →
      Entry.present (pageEntry (MemoryManager.fillSlot m₂.atomicDisable pd p isUser f t) pd q)
        = true := by
    intro q hq hpres
    have hne : q / 1024 ≠ p / 1024 := by
      intro he
      rw [he, hs] at hq
      cases hq
    rw [pageEntry, tableOf, hdir, if_neg hne, ← tableOf, ram_fillSlot ht htpd]
    split
    · rw [Entry.present_map]
    · split
      · rw [Entry.present_map]
      · exact hpres
  refine ⟨?_, ?_, ?_, ?_, ?_, ?_, ?_, ?_, ?_, h.cr3.trans hcr3⟩
  · intro a ha
    rcases List.mem_cons.mp ha with rfl | ha
    · exact ⟨by omega, hs⟩
    · rw [← hslot₁]
      exact h.absent a ha
  · rw [List.map_cons, h.frames, List.length_cons, hframes]
  · intro s u hl
    rw [slotPresent, tableOf, hdir]
    by_cases he : s = p / 1024
    · subst he
      rw [List.lookup_cons_self] at hl
      obtain rfl := Option.some.inj hl
      rw [if_pos rfl, Entry.present_map, Entry.pageFrameNumber_map, Nat.mod_eq_of_lt ht]
      exact ⟨rfl, rfl⟩
    · rw [List.lookup_cons, beq_false_of_ne he] at hl
      rw [if_neg he, ← slotPresent, ← tableOf]
      exact h.slot s u hl
  · intro s hl
    by_cases he : s = p / 1024
    · subst he
      rw [List.lookup_cons_self] at hl
      cases hl
    · rw [List.lookup_cons, beq_false_of_ne he] at hl
      rw [hdir, if_neg he, h.keep s hl, hram]
  · intro g hg i
    by_cases hw : g = t ∧ i = p % 1024
    · obtain ⟨rfl, rfl⟩ := hw
      exact Or.inr ⟨hto, p, hp, Or.inl rfl, rfl, Or.inr List.mem_cons_self⟩
    · rw [ram_fillSlot ht htpd, if_neg hw, if_neg fun h => hg h.1]
      rcases h.other g hg i with heq | ⟨⟨hpres, hfr⟩, w, hlt, hw, hi, hwhere⟩
      · exact Or.inl (heq.trans (by rw [hram]))
      · refine Or.inr ⟨⟨hpres, Or.inr ?_⟩, w, hlt, Or.inr ?_, hi, ?_⟩
        · rw [List.map_cons, List.mem_cons]
          exact hfr
        · rw [List.map_cons, List.mem_cons]
          exact hw
        · rw [hslot₁, htable₁] at hwhere
          exact hwhere.imp id fun h => List.mem_cons_of_mem _ h
  · rintro w rfl
    have hslot := hdir (w / 1024)
    rw [if_pos rfl] at hslot
    refine ⟨hp, by rw [slotPresent, hslot, Entry.present_map], ?_⟩
    rw [pageEntry, tableOf, hslot, Entry.pageFrameNumber_map, Nat.mod_eq_of_lt ht]
    exact hto
  · intro q hq hs'
    rw [List.map_cons, List.mem_cons] at hq
    apply hself q hs'
    rcases hq with rfl | hq
    · exact (h.maps _ rfl).2.2.1
    · exact h.self q hq (by rw [hslot₁]; exact hs')
  · intro q
    have hq := h.used q
    rw [hused] at hq
    rw [List.map_cons, List.mem_cons, ← or_assoc]
    exact hq
  · rw [List.length_cons, ← hdrop]
    exact h.free

/-- `installPage` deals its frames as `deal` says. -/
theorem installPage_dealt (frames : List ℕ) : ∀ {m : Machine} {p f : ℕ} {isUser : Bool},
    freeFrames m.memManData = frames → OwnFrame m pd → p < 2 ^ 20 → f < 2 ^ 20 →
    Dealt m (installPage pd frames m p f isUser) pd (deal (slotPresent m pd) frames p)
      (· = p) (· = f) := by
  induction frames with
  | nil =>
    intro m p f isUser hfree hown hp hf
    by_cases hs : slotPresent m pd (p / 1024) = true
    · rw [installPage_of_present hs, deal, if_pos hs]
      exact dealt_mapTo hown hp hs isUser hf
    · have hs' : slotPresent m pd (p / 1024) = false := by simpa using hs
      have htaken := tableTaken_nil hfree
      have hself := dealt_mapTo (p := 0) (htaken.ownFrame hown) (by omega)
        (htaken.ownFrame hown).slot_zero false (f := 0) (by omega)
      rw [installPage_nil hs', deal, if_neg hs]
      exact hself.fillSlot htaken hp (Ne.symm hown.ne_zero) hs' isUser hf
  | cons t ts ih =>
    intro m p f isUser hfree hown hp hf
    by_cases hs : slotPresent m pd (p / 1024) = true
    · rw [installPage_of_present hs, deal, if_pos hs]
      exact dealt_mapTo hown hp hs isUser hf
    · have hs' : slotPresent m pd (p / 1024) = false := by simpa using hs
      have htaken := tableTaken_cons hfree
      have htpd : t ≠ pd := ne_of_mem_freeFrames (hfree ▸ List.mem_cons_self) hown.used
      have hts : freeFrames (m.allocatePage t).atomicEnable.memManData = ts :=
        freeFrames_allocatePage hfree
      have hself := @ih _ t t false hts (htaken.ownFrame hown) htaken.lt htaken.lt
      rw [installPage_cons hs', deal, if_neg hs]
      exact hself.fillSlot htaken hp htpd hs' isUser hf

/-! ## A run of pages -/

/-- A run is its first page and the rest. -/
theorem inRun_succ_left {p n w : ℕ} (hp : p < 2 ^ 20) :
    InRun p (n + 1) w ↔ w = p ∨ InRun ((p + 1) % 2 ^ 20) n w := by
  constructor
  · rintro ⟨i, hi, rfl⟩
    rcases Nat.eq_zero_or_pos i with rfl | hpos
    · exact Or.inl (by omega)
    · exact Or.inr ⟨i - 1, by omega, by omega⟩
  · rintro (rfl | ⟨i, hi, rfl⟩)
    · exact ⟨0, by omega, by omega⟩
    · exact ⟨i + 1, by omega, by omega⟩

/-- What was mapped may be said in another way. -/
theorem Dealt.congr {A : List (ℕ × ℕ)} {mapped mapped' target target' : ℕ → Prop}
    (h : Dealt m m₁ pd A mapped target) (hmapped : ∀ w, mapped w ↔ mapped' w)
    (htarget : ∀ f, target f ↔ target' f) : Dealt m m₁ pd A mapped' target' := by
  obtain rfl : mapped = mapped' := funext fun w => propext (hmapped w)
  obtain rfl : target = target' := funext fun f => propext (htarget f)
  exact h

/-- No page, no table. -/
theorem Dealt.refl (m : Machine) (pd p f : ℕ) : Dealt m m pd [] (InRun p 0) (InRun f 0) :=
  ⟨by simp, by simp [dealtFrames_zero], by simp, fun _ _ => rfl, fun _ _ _ => Or.inl rfl,
    fun w hw => absurd hw (not_inRun_zero p w), by simp, by simp, rfl, rfl⟩

/-- `VirtualMap` deals its frames as `dealPages` says. -/
theorem installPages_dealt (isUser : Bool) (n : ℕ) : ∀ {m : Machine} {p f : ℕ},
    OwnFrame m pd → p < 2 ^ 20 → f < 2 ^ 20 →
    Dealt m (installPages pd isUser n m p f) pd
      (dealPages (slotPresent m pd) (freeFrames m.memManData) n p) (InRun p n) (InRun f n) := by
  induction n with
  | zero => intro m p f _ _ _; exact Dealt.refl m pd p f
  | succ n ih =>
    intro m p f hown hp hf
    have h := @installPage_dealt pd _ m p f isUser rfl hown hp hf
    have hrest := ih (p := (p + 1) % 2 ^ 20) (f := (f + 1) % 2 ^ 20) (h.ownFrame hown) (by omega)
      (by omega)
    rw [h.free, show slotPresent _ pd = _ from funext h.slotPresent_eq] at hrest
    rw [installPages, dealPages]
    refine (h.trans hown hrest).congr ?_ ?_
    · intro w
      rw [inRun_succ_left hp]
    · intro g
      rw [inRun_succ_left hf]

end

end Sakura.MemoryManager
