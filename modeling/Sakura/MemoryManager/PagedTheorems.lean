import Sakura.MemoryManager.Paged
import Sakura.MemoryManager.PageTableTheorems

/-!
# Page tables seen through paging

With paging off the functions of `Paged.lean` are those of `VirtualMemoryManager.lean`
(`virtualMap_off`). With paging on `VirtualMap` gets to every page table, and returns, where the
tables are mapped to themselves in the directory in CR3 and stay so while the call writes. For a
frame that becomes a table during the call that is what the nested `identityMap` is for: it is
enough if the frame's own page lies in a slot whose table the two directories share, as below 1 GiB,
or if the directory in CR3 is the one that is written and no slot is filled twice
(`virtualMap_returns`). A frame that is dealt to the slot its own page lies in takes its own mapping
away, and the call does not return (`virtualMap_faults`).
-/

namespace Sakura.MemoryManager.Paged

open MemoryManagerData

section

variable {identity : Machine → ℕ → Option Machine}
  {identity' : Machine → ℕ → Option Outcome}

end

/-- Page `q` of directory `d` is mapped to frame `g`. -/
structure Shows (m : Machine) (d q g : ℕ) : Prop where
  slot : slotPresent m d (q / 1024) = true
  entry : Entry.present (pageEntry m d q) = true
  frame : Entry.pageFrameNumber (pageEntry m d q) = g

/-- A page that is mapped leads to its frame. -/
theorem reach_of_shows {m : Machine} {q g : ℕ} (hq : q < 2 ^ 20) (h : Shows m m.cr3 q g) :
    reach true m q = some g := by
  rw [reach, if_pos rfl, translate, isPagePresent_eq, getPageTableEntry_eq, pageOf_mul_of_lt hq,
    pagePresent, h.slot, h.entry, h.frame]
  rfl

/-- Page `q` is not mapped to anything but frame `g`. -/
def Stays (maps : ℕ → ℕ → Prop) (q g : ℕ) : Prop := ∀ f, maps q f → f = g

/-- What a call is about: the directory in CR3, the page and the frame of the one that is written,
the pages that are mapped with their frames, and the slots of the directory in CR3 that were there
before. If `nested` holds, the slots the call fills count as well. -/
structure Setting where
  current : ℕ
  dir : ℕ
  pd : ℕ
  maps : ℕ → ℕ → Prop
  base : ℕ → Prop
  nested : Prop

/-- The slots in which the call looks its pointers up. -/
def Setting.Relied (c : Setting) (s : ℕ) : Prop := c.nested ∨ c.base s

/-- The code gets to frame `g` at page `q`, and the call does not change that. -/
structure Visible (c : Setting) (m : Machine) (q g : ℕ) : Prop where
  lt : q < 2 ^ 20
  relied : c.Relied (q / 1024)
  shows : Shows m c.current q g
  stays : Stays c.maps q g

/-- Both directories have the same table in slot `s`. -/
structure SharedSlot (m : Machine) (d pd s : ℕ) : Prop where
  current : slotPresent m d s = true
  written : slotPresent m pd s = true
  same : tableOf m d s = tableOf m pd s

/-- The directories are set up so that what is written to one is seen as such in the other, and the
tables of the slots that are there are visible. -/
structure Wired (c : Setting) (m : Machine) : Prop where
  cr3 : m.cr3 = c.current
  own : OwnFrame m c.pd
  maps_lt : ∀ p f, c.maps p f → p < 2 ^ 20 ∧ f < 2 ^ 20
  current_ne : ∀ s < 1024, slotPresent m c.pd s = true → tableOf m c.pd s ≠ c.current
  directory_ne : ∀ s < 1024, c.Relied s → slotPresent m c.current s = true →
    tableOf m c.current s ≠ c.pd
  same_slot : ∀ s < 1024, ∀ s' < 1024, slotPresent m c.pd s = true → c.Relied s' →
    slotPresent m c.current s' = true → tableOf m c.pd s = tableOf m c.current s' → s = s'
  dir : Visible c m c.dir c.pd
  table : ∀ p f, c.maps p f → slotPresent m c.pd (p / 1024) = true →
    Visible c m (tableOf m c.pd (p / 1024)) (tableOf m c.pd (p / 1024))

/-- The slots `R` are still to be filled with their frames. -/
structure Pending (c : Setting) (m : Machine) (R : List (ℕ × ℕ)) : Prop where
  slot_lt : ∀ a ∈ R, a.1 < 1024
  maps : ∀ a ∈ R, c.maps a.2 a.2
  stays : ∀ a ∈ R, Stays c.maps a.2 a.2
  ne_current : ∀ a ∈ R, a.2 ≠ c.current
  ne_pd : ∀ a ∈ R, a.2 ≠ c.pd
  not_base : c.current = c.pd → ∀ a ∈ R, ¬ c.base a.1
  fresh : ∀ a ∈ R, ∀ s < 1024, c.Relied s → slotPresent m c.current s = true →
    tableOf m c.current s ≠ a.2
  nested : c.nested → c.current = c.pd ∧ (R.map Prod.fst).Nodup ∧ (R.map Prod.snd).Nodup ∧
    ∀ a ∈ R, slotPresent m c.pd a.1 = false
  visible : ∀ a ∈ R, Visible c m a.2 a.2 ∨
    (c.base (a.2 / 1024) ∧ SharedSlot m c.current c.pd (a.2 / 1024) ∧ ∀ b ∈ R, b.1 ≠ a.2 / 1024) ∨
    c.nested

section

variable {c : Setting} {m m' : Machine} {R : List (ℕ × ℕ)} {p q f g s t : ℕ}

/-- A page that the setting shows leads to its frame. -/
theorem Visible.reach (h : Visible c m q g) (hw : Wired c m) : reach true m q = some g :=
  reach_of_shows h.lt (hw.cr3.symm ▸ h.shows)

/-! ## Only memory counts -/

/-- What a directory shows depends on memory only. -/
theorem Shows.congr (h : Shows m c.current q g) (hram : m'.ram = m.ram) :
    Shows m' c.current q g := by
  obtain ⟨hslot, hentry, hframe⟩ := h
  unfold slotPresent at hslot
  unfold pageEntry tableOf at hentry hframe
  refine ⟨?_, ?_, ?_⟩
  · rw [slotPresent, hram, hslot]
  · rw [pageEntry, tableOf, hram, hentry]
  · rw [pageEntry, tableOf, hram, hframe]

theorem Visible.congr (h : Visible c m q g) (hram : m'.ram = m.ram) : Visible c m' q g :=
  ⟨h.lt, h.relied, h.shows.congr hram, h.stays⟩

theorem slotPresent_congr (hram : m'.ram = m.ram) (d s : ℕ) :
    slotPresent m' d s = slotPresent m d s := by
  rw [slotPresent, slotPresent, hram]

theorem tableOf_congr (hram : m'.ram = m.ram) (d s : ℕ) : tableOf m' d s = tableOf m d s := by
  rw [tableOf, tableOf, hram]

/-- Whether the directories are set up depends on memory, on CR3 and on the directory's frame. -/
theorem Wired.congr (h : Wired c m) (hram : m'.ram = m.ram) (hcr3 : m'.cr3 = m.cr3)
    (hused : m'.used c.pd = true) : Wired c m' := by
  have hs := fun d s => (slotPresent_congr hram d s : slotPresent m' d s = slotPresent m d s)
  have ht := fun d s => (tableOf_congr hram d s : tableOf m' d s = tableOf m d s)
  refine ⟨hcr3.trans h.cr3, ⟨h.own.ne_zero, hused, ?_, ?_⟩, h.maps_lt, ?_, ?_, ?_,
    h.dir.congr hram, ?_⟩
  · rw [hs]
    exact h.own.slot_zero
  · intro s
    rw [hs, ht]
    exact h.own.table_ne s
  · intro s
    rw [hs, ht]
    exact h.current_ne s
  · intro s
    rw [hs, ht]
    exact h.directory_ne s
  · intro s hlt s' hlt'
    rw [hs, hs, ht, ht]
    exact h.same_slot s hlt s' hlt'
  · intro p f hmaps
    rw [hs, ht]
    exact fun hp => (h.table p f hmaps hp).congr hram

theorem SharedSlot.congr {d pd : ℕ} (h : SharedSlot m d pd s) (hram : m'.ram = m.ram) :
    SharedSlot m' d pd s :=
  ⟨(slotPresent_congr hram _ _).trans h.current, (slotPresent_congr hram _ _).trans h.written,
    ((tableOf_congr hram _ _).trans h.same).trans (tableOf_congr hram _ _).symm⟩

theorem Pending.congr (h : Pending c m R) (hram : m'.ram = m.ram) : Pending c m' R := by
  have hs := fun d s => (slotPresent_congr hram d s : slotPresent m' d s = slotPresent m d s)
  have ht := fun d s => (tableOf_congr hram d s : tableOf m' d s = tableOf m d s)
  refine ⟨h.slot_lt, h.maps, h.stays, h.ne_current, h.ne_pd, h.not_base, ?_, ?_, ?_⟩
  · intro a ha s
    rw [hs, ht]
    exact h.fresh a ha s
  · intro hn
    obtain ⟨hcur, hfst, hsnd, hempty⟩ := h.nested hn
    exact ⟨hcur, hfst, hsnd, fun a ha => (hs _ _).trans (hempty a ha)⟩
  · intro a ha
    exact (h.visible a ha).imp (fun h => h.congr hram)
      (Or.imp (fun ⟨hb, hsh, hne⟩ => ⟨hb, hsh.congr hram, hne⟩) id)

/-- The order of what is still to be dealt plays no part. -/
theorem Pending.perm {R' : List (ℕ × ℕ)} (h : Pending c m R) (hperm : R.Perm R') :
    Pending c m R' := by
  have hmem : ∀ a, a ∈ R' → a ∈ R := fun a ha => hperm.mem_iff.mpr ha
  refine ⟨fun a ha => h.slot_lt a (hmem a ha), fun a ha => h.maps a (hmem a ha),
    fun a ha => h.stays a (hmem a ha), fun a ha => h.ne_current a (hmem a ha),
    fun a ha => h.ne_pd a (hmem a ha), fun hcur a ha => h.not_base hcur a (hmem a ha),
    fun a ha => h.fresh a (hmem a ha), fun hn => ?_, fun a ha => ?_⟩
  · obtain ⟨hcur, hfst, hsnd, hempty⟩ := h.nested hn
    exact ⟨hcur, (hperm.map _).nodup_iff.mp hfst, (hperm.map _).nodup_iff.mp hsnd,
      fun a ha => hempty a (hmem a ha)⟩
  · exact (h.visible a (hmem a ha)).imp id
      (Or.imp (fun ⟨hb, hsh, hne⟩ => ⟨hb, hsh, fun b hb => hne b (hmem b hb)⟩) id)

/-! ## An entry is written -/

variable {isUser : Bool}

/-- Other tables keep their words. -/
theorem ram_mapTo_of_ne {d : ℕ} (hd : d ≠ tableOf m c.pd (p / 1024)) (i : ℕ) :
    (mapTo m c.pd p isUser f).ram d i = m.ram d i :=
  Machine.ram_store_of_ne m _ fun h => hd h.1

/-- The entry that is written names the frame. -/
theorem entry_mapTo (c : Setting) (m : Machine) (p : ℕ) (isUser : Bool) (hf : f < 2 ^ 20) :
    Entry.present ((mapTo m c.pd p isUser f).ram (tableOf m c.pd (p / 1024)) (p % 1024)) = true ∧
      Entry.pageFrameNumber ((mapTo m c.pd p isUser f).ram (tableOf m c.pd (p / 1024)) (p % 1024))
        = f := by
  rw [mapTo, Machine.ram_store_self, Entry.present_map, Entry.pageFrameNumber_map,
    Nat.mod_eq_of_lt hf]
  exact ⟨rfl, rfl⟩

section

variable (hw : Wired c m) (hmaps : c.maps p f) (hs : slotPresent m c.pd (p / 1024) = true)

include hw hmaps hs

/-- The words of the directory that is written stay, -/
theorem ram_pd_mapTo (isUser : Bool) (i : ℕ) :
    (mapTo m c.pd p isUser f).ram c.pd i = m.ram c.pd i := by
  have hlt := (hw.maps_lt p f hmaps).1
  exact ram_mapTo_of_ne (hw.own.table_ne _ (by omega) hs).symm i

/-- and those of the directory in CR3. -/
theorem ram_current_mapTo (isUser : Bool) (i : ℕ) :
    (mapTo m c.pd p isUser f).ram c.current i = m.ram c.current i := by
  have hlt := (hw.maps_lt p f hmaps).1
  exact ram_mapTo_of_ne (hw.current_ne _ (by omega) hs).symm i

/-- What is visible stays so: if the entry of the page itself is written, it gets its frame
again. -/
theorem Visible.mapTo (h : Visible c m q g) : Visible c (mapTo m c.pd p isUser f) q g := by
  obtain ⟨hplt, hflt⟩ := hw.maps_lt p f hmaps
  have hq := h.lt
  have hword := ram_current_mapTo hw hmaps hs isUser (q / 1024)
  have hslot : slotPresent (MemoryManager.mapTo m c.pd p isUser f) c.current (q / 1024) = true := by
    rw [slotPresent, hword]
    exact h.shows.slot
  have htable : tableOf (MemoryManager.mapTo m c.pd p isUser f) c.current (q / 1024)
      = tableOf m c.current (q / 1024) := by
    rw [tableOf, hword, tableOf]
  have hentry : pageEntry (MemoryManager.mapTo m c.pd p isUser f) c.current q =
      (MemoryManager.mapTo m c.pd p isUser f).ram (tableOf m c.current (q / 1024)) (q % 1024) := by
    rw [pageEntry, htable]
  by_cases hcell : tableOf m c.current (q / 1024) = tableOf m c.pd (p / 1024) ∧ q % 1024 = p % 1024
  · -- the entry is the one of page `p`, so the slots are the same
    have hsame := hw.same_slot _ (by omega) _ (by omega) hs h.relied h.shows.slot hcell.1.symm
    obtain rfl : p = q := by omega
    obtain rfl := h.stays f hmaps
    rw [hcell.1] at hentry
    obtain ⟨hpresent, hframe⟩ := entry_mapTo c m p isUser hflt
    rw [← hentry] at hpresent hframe
    exact ⟨hq, h.relied, ⟨hslot, hpresent, hframe⟩, h.stays⟩
  · have hold : pageEntry (MemoryManager.mapTo m c.pd p isUser f) c.current q
        = pageEntry m c.current q := by
      rw [hentry]
      exact Machine.ram_store_of_ne m _ hcell
    refine ⟨hq, h.relied, ⟨hslot, ?_, ?_⟩, h.stays⟩
    · rw [hold]
      exact h.shows.entry
    · rw [hold]
      exact h.shows.frame

/-- Writing an entry of the call leaves the directories set up. -/
theorem Wired.mapTo : Wired c (mapTo m c.pd p isUser f) := by
  have hpd := ram_pd_mapTo hw hmaps hs isUser
  have hcurrent := ram_current_mapTo hw hmaps hs isUser
  refine ⟨hw.cr3, ⟨hw.own.ne_zero, hw.own.used, ?_, ?_⟩, hw.maps_lt, ?_, ?_, ?_,
    hw.dir.mapTo hw hmaps hs, ?_⟩
  · rw [slotPresent, hpd]
    exact hw.own.slot_zero
  · intro s
    rw [slotPresent, tableOf, hpd]
    exact hw.own.table_ne s
  · intro s
    rw [slotPresent, tableOf, hpd]
    exact hw.current_ne s
  · intro s
    rw [slotPresent, tableOf, hcurrent]
    exact hw.directory_ne s
  · intro s hlt s' hlt'
    rw [slotPresent, tableOf, hpd, slotPresent, tableOf, hcurrent]
    exact hw.same_slot s hlt s' hlt'
  · intro p' f' hmaps'
    rw [slotPresent, tableOf, hpd]
    exact fun hs' => (hw.table p' f' hmaps' hs').mapTo hw hmaps hs

/-- A slot that two directories share stays shared. -/
theorem SharedSlot.mapTo (h : SharedSlot m c.current c.pd s) :
    SharedSlot (mapTo m c.pd p isUser f) c.current c.pd s := by
  obtain ⟨hcur, hwritten, hsame⟩ := h
  have hpd := ram_pd_mapTo hw hmaps hs isUser s
  have hcurrent := ram_current_mapTo hw hmaps hs isUser s
  unfold slotPresent at hcur hwritten
  unfold tableOf at hsame
  refine ⟨?_, ?_, ?_⟩
  · rw [slotPresent, hcurrent, hcur]
  · rw [slotPresent, hpd, hwritten]
  · rw [tableOf, tableOf, hcurrent, hpd, hsame]

/-- What is dealt later stays as it is when an entry is written. -/
theorem Pending.mapTo (h : Pending c m R) : Pending c (mapTo m c.pd p isUser f) R := by
  have hpd := ram_pd_mapTo hw hmaps hs isUser
  have hcurrent := ram_current_mapTo hw hmaps hs isUser
  refine ⟨h.slot_lt, h.maps, h.stays, h.ne_current, h.ne_pd, h.not_base, ?_, ?_, ?_⟩
  · intro a ha s
    rw [slotPresent, tableOf, hcurrent]
    exact h.fresh a ha s
  · intro hn
    obtain ⟨hcur, hfst, hsnd, hempty⟩ := h.nested hn
    refine ⟨hcur, hfst, hsnd, fun a ha => ?_⟩
    rw [slotPresent, hpd]
    exact hempty a ha
  · intro a ha
    exact (h.visible a ha).imp (fun h => h.mapTo hw hmaps hs)
      (Or.imp (And.imp_right (And.imp_left fun h => h.mapTo hw hmaps hs)) id)

end

/-! ## A slot is filled -/

/-- What a directory shows stays, if its slot keeps its word and its table is not the directory that
is written. -/
theorem Shows.mapSlot {d pd : ℕ} (h : Shows m d q g)
    (hword : (mapSlot m pd s isUser t).ram d (q / 1024) = m.ram d (q / 1024))
    (hne : tableOf m d (q / 1024) ≠ pd) : Shows (mapSlot m pd s isUser t) d q g := by
  have hentry : pageEntry (MemoryManager.mapSlot m pd s isUser t) d q = pageEntry m d q := by
    rw [pageEntry, tableOf, hword, ← tableOf, pageEntry]
    exact Machine.ram_store_of_ne m _ fun h => hne h.1
  refine ⟨?_, ?_, ?_⟩
  · rw [slotPresent, hword]
    exact h.slot
  · rw [hentry]
    exact h.entry
  · rw [hentry]
    exact h.frame

/-- Other slots keep their words. -/
theorem ram_mapSlot_of_ne (c : Setting) (m : Machine) (isUser : Bool) (t : ℕ) {k : ℕ} (hk : k ≠ s) :
    (mapSlot m c.pd s isUser t).ram c.pd k = m.ram c.pd k :=
  Machine.ram_store_of_ne m _ fun h => hk h.2

section

variable (hp : Pending c m ((s, t) :: R))

include hp

/-- A slot that is looked up in is not the one that is filled. -/
theorem ne_of_relied {k : ℕ} (hk : c.Relied k) (hs : slotPresent m c.current k = true) :
    ¬ (c.current = c.pd ∧ k = s) := by
  rintro ⟨hcur, rfl⟩
  rcases hk with hn | hb
  · obtain ⟨-, -, -, hempty⟩ := hp.nested hn
    rw [hcur, hempty _ List.mem_cons_self] at hs
    cases hs
  · exact hp.not_base hcur _ List.mem_cons_self hb

/-- A slot of the directory in CR3 that is relied on is not the one that is filled. -/
theorem ram_mapSlot_relied (isUser : Bool) {k : ℕ} (hk : c.Relied k)
    (hs : slotPresent m c.current k = true) :
    (mapSlot m c.pd s isUser t).ram c.current k = m.ram c.current k :=
  Machine.ram_store_of_ne m _ (ne_of_relied hp hk hs)

/-- A slot both directories share and that is not filled. -/
theorem SharedSlot.mapSlot {k : ℕ} (h : SharedSlot m c.current c.pd k) (hb : c.base k)
    (hk : s ≠ k) : SharedSlot (mapSlot m c.pd s isUser t) c.current c.pd k := by
  obtain ⟨hcur, hwritten, hsame⟩ := h
  have hcurrent := ram_mapSlot_relied hp isUser (Or.inr hb) hcur
  have hpd := ram_mapSlot_of_ne c m isUser t hk.symm
  unfold slotPresent at hcur hwritten
  unfold tableOf at hsame
  refine ⟨?_, ?_, ?_⟩
  · rw [slotPresent, hcurrent, hcur]
  · rw [slotPresent, hpd, hwritten]
  · rw [tableOf, tableOf, hcurrent, hpd, hsame]

/-- The new table is no table of the directory that is written, if the filled slots count. -/
theorem written_ne (hn : c.nested) {k : ℕ} (hk : k < 1024) (hs : slotPresent m c.pd k = true) :
    tableOf m c.pd k ≠ t := by
  obtain ⟨hcur, -⟩ := hp.nested hn
  have hfresh := hp.fresh _ List.mem_cons_self k hk (Or.inl hn)
  rw [hcur] at hfresh
  exact hfresh hs

end

section

variable (hw : Wired c m) (hp : Pending c m ((s, t) :: R))

include hw hp

theorem pending_lt : s < 1024 ∧ t < 2 ^ 20 :=
  ⟨hp.slot_lt _ List.mem_cons_self, (hw.maps_lt t t (hp.maps _ List.mem_cons_self)).1⟩

/-- The slot names the table. -/
theorem slot_mapSlot : slotPresent (mapSlot m c.pd s isUser t) c.pd s = true ∧
    tableOf (mapSlot m c.pd s isUser t) c.pd s = t := by
  rw [slotPresent, tableOf, mapSlot, Machine.ram_store_self, Entry.present_map,
    Entry.pageFrameNumber_map, Nat.mod_eq_of_lt (pending_lt hw hp).2]
  exact ⟨rfl, rfl⟩

/-- What is shown stays shown when a slot is filled. -/
theorem Visible.mapSlot (h : Visible c m q g) : Visible c (mapSlot m c.pd s isUser t) q g := by
  have hq := h.lt
  have hword := ram_mapSlot_relied hp isUser h.relied h.shows.slot
  have hne := hw.directory_ne _ (by omega) h.relied h.shows.slot
  exact ⟨hq, h.relied, h.shows.mapSlot hword hne, h.stays⟩

/-- A slot of the directory in CR3 afterwards: the one that is filled, or one that was there. -/
theorem current_mapSlot {k : ℕ} (hk : c.Relied k)
    (hs : slotPresent (mapSlot m c.pd s isUser t) c.current k = true) :
    (c.current = c.pd ∧ c.nested ∧ k = s ∧
        tableOf (mapSlot m c.pd s isUser t) c.current k = t) ∨
      (slotPresent m c.current k = true ∧
        tableOf (mapSlot m c.pd s isUser t) c.current k = tableOf m c.current k) := by
  by_cases hcell : c.current = c.pd ∧ k = s
  · obtain ⟨hcur, rfl⟩ := hcell
    refine Or.inl ⟨hcur, ?_, rfl, ?_⟩
    · exact hk.resolve_right (hp.not_base hcur _ List.mem_cons_self)
    · rw [hcur]
      exact (slot_mapSlot hw hp).2
  · have hword : (MemoryManager.mapSlot m c.pd s isUser t).ram c.current k = m.ram c.current k :=
      Machine.ram_store_of_ne m _ hcell
    rw [slotPresent, hword] at hs
    exact Or.inr ⟨hs, by rw [tableOf, hword, tableOf]⟩

/-- A slot of the directory that is written afterwards. -/
theorem written_mapSlot {k : ℕ} (hs : slotPresent (mapSlot m c.pd s isUser t) c.pd k = true) :
    (k = s ∧ tableOf (mapSlot m c.pd s isUser t) c.pd k = t) ∨
      (k ≠ s ∧ slotPresent m c.pd k = true ∧
        tableOf (mapSlot m c.pd s isUser t) c.pd k = tableOf m c.pd k) := by
  by_cases hk : k = s
  · subst hk
    exact Or.inl ⟨rfl, (slot_mapSlot hw hp).2⟩
  · have hword := ram_mapSlot_of_ne c m isUser t hk
    rw [slotPresent, hword] at hs
    exact Or.inr ⟨hk, hs, by rw [tableOf, hword, tableOf]⟩

/-- So does filling a slot, if the page of the new table was mapped to itself first. -/
theorem Wired.mapSlot (ht : Visible c m t t) : Wired c (mapSlot m c.pd s isUser t) := by
  obtain ⟨hslt, htlt⟩ := pending_lt hw hp
  refine ⟨hw.cr3, ⟨hw.own.ne_zero, hw.own.used, ?_, fun k hk hs => ?_⟩, hw.maps_lt,
    fun k hk hs => ?_, fun k hk hrel hs => ?_, fun k hk k' hk' hs hrel hs' heq => ?_,
    hw.dir.mapSlot hw hp, fun p f hmaps hs => ?_⟩
  · -- slot 0 keeps a table, be it the new one
    by_cases hzero : 0 = s
    · rw [hzero]
      exact (slot_mapSlot hw hp).1
    · rw [slotPresent, ram_mapSlot_of_ne c m isUser t hzero]
      exact hw.own.slot_zero
  · rcases written_mapSlot hw hp hs with ⟨rfl, htable⟩ | ⟨-, hs, htable⟩
    · rw [htable]
      exact hp.ne_pd _ List.mem_cons_self
    · rw [htable]
      exact hw.own.table_ne k hk hs
  · rcases written_mapSlot hw hp hs with ⟨rfl, htable⟩ | ⟨-, hs, htable⟩
    · rw [htable]
      exact hp.ne_current _ List.mem_cons_self
    · rw [htable]
      exact hw.current_ne k hk hs
  · rcases current_mapSlot hw hp hrel hs with ⟨-, -, rfl, htable⟩ | ⟨hs, htable⟩
    · rw [htable]
      exact hp.ne_pd _ List.mem_cons_self
    · rw [htable]
      exact hw.directory_ne k hk hrel hs
  · -- a table that both directories have is in the same slot: it is the new one in both, or an
    -- old one in both
    rcases written_mapSlot hw hp hs with ⟨rfl, htable⟩ | ⟨-, hold, htable⟩
    · rcases current_mapSlot hw hp hrel hs' with ⟨-, -, rfl, -⟩ | ⟨hold', htable'⟩
      · rfl
      · rw [htable, htable'] at heq
        exact absurd heq.symm (hp.fresh _ List.mem_cons_self k' hk' hrel hold')
    · rcases current_mapSlot hw hp hrel hs' with ⟨-, hn, rfl, htable'⟩ | ⟨hold', htable'⟩
      · rw [htable, htable'] at heq
        exact absurd heq (written_ne hp hn hk hold)
      · rw [htable, htable'] at heq
        exact hw.same_slot k hk k' hk' hold hrel hold' heq
  · rcases written_mapSlot hw hp hs with ⟨-, htable⟩ | ⟨-, hs, htable⟩
    · rw [htable]
      exact ht.mapSlot hw hp
    · rw [htable]
      exact (hw.table p f hmaps hs).mapSlot hw hp

/-- What is dealt later stays as it is when a slot is filled. -/
theorem Pending.mapSlot : Pending c (mapSlot m c.pd s isUser t) R := by
  have htail : ∀ a ∈ R, a ∈ (s, t) :: R := fun a ha => List.mem_cons_of_mem _ ha
  refine ⟨fun a ha => hp.slot_lt a (htail a ha), fun a ha => hp.maps a (htail a ha),
    fun a ha => hp.stays a (htail a ha), fun a ha => hp.ne_current a (htail a ha),
    fun a ha => hp.ne_pd a (htail a ha), fun hcur a ha => hp.not_base hcur a (htail a ha),
    fun a ha k hk hrel hs => ?_, fun hn => ?_, fun a ha => ?_⟩
  · -- a frame is dealt once, so no slot filled later gets this one
    rcases current_mapSlot hw hp hrel hs with ⟨-, hn, rfl, htable⟩ | ⟨hs, htable⟩
    · rw [htable]
      rintro rfl
      obtain ⟨-, -, hsnd, -⟩ := hp.nested hn
      exact (List.nodup_cons.mp hsnd).1 (List.mem_map.mpr ⟨a, ha, rfl⟩)
    · rw [htable]
      exact hp.fresh a (htail a ha) k hk hrel hs
  · obtain ⟨hcur, hfst, hsnd, hempty⟩ := hp.nested hn
    obtain ⟨hnew, hfst⟩ := List.nodup_cons.mp hfst
    refine ⟨hcur, hfst, (List.nodup_cons.mp hsnd).2, fun a ha => ?_⟩
    have hne : a.1 ≠ s := by
      rintro rfl
      exact hnew (List.mem_map.mpr ⟨a, ha, rfl⟩)
    rw [slotPresent, ram_mapSlot_of_ne c m isUser t hne]
    exact hempty a (htail a ha)
  · rcases hp.visible a (htail a ha) with h | ⟨hb, hsh, hne⟩ | hn
    · exact Or.inl (h.mapSlot hw hp)
    · exact Or.inr (Or.inl ⟨hb, hsh.mapSlot hp hb (hne _ List.mem_cons_self),
        fun b hb => hne b (htail b hb)⟩)
    · exact Or.inr (Or.inr hn)

end

/-! ## One page -/

/-- The four assignments to the table entry, where the table is visible. -/
theorem setPageTableEntry_eq {va pa : ℕ} (hw : Wired c m) (hmaps : c.maps (pageOf va) (pageOf pa))
    (hs : slotPresent m c.pd (pageOf va / 1024) = true) (isUser : Bool) :
    setPageTableEntry true m c.dir va pa isUser
      = .returned (mapTo m c.pd (pageOf va) isUser (pageOf pa)) := by
  have htable := (hw.table _ _ hmaps hs).reach hw
  rw [← getPageTable_eq] at htable
  rw [setPageTableEntry, hw.dir.reach hw]
  simp only [htable]
  rw [← MemoryManager.setPageTableEntry_eq]
  rfl

/-- One iteration where the slot has a table: it is reached, and its entry written. -/
theorem mapPage_of_present {identity : Machine → ℕ → Option Outcome} {va pa : ℕ} (hw : Wired c m)
    (hmaps : c.maps (pageOf va) (pageOf pa))
    (hs : slotPresent m c.pd (pageOf va / 1024) = true) (isUser : Bool) :
    mapPage true identity m c.dir va pa isUser
      = some (.returned (mapTo m c.pd (pageOf va) isUser (pageOf pa))) := by
  have hentry := hs
  rw [slotPresent, ← getPageDirectoryEntry_eq] at hentry
  rw [mapPage, hw.dir.reach hw]
  simp only [hentry, if_true, setPageTableEntry_eq hw hmaps hs isUser]

theorem mapPages_one (identity : Machine → ℕ → Option Outcome) (dir : ℕ) (isUser : Bool)
    (m : Machine) (va pa : ℕ) :
    mapPages true identity dir isUser 1 m va pa = mapPage true identity m dir va pa isUser := by
  rw [mapPages]
  cases mapPage true identity m dir va pa isUser with
  | none => rfl
  | some r => cases r <;> rfl

/-- The call of `identityMap` on a fresh table frame maps one page. -/
theorem identityMapWith_frame (fuel : ℕ) (m : Machine) (dir : ℕ) (ht : t < 2 ^ 20) :
    identityMapWith (virtualMap true (fuel + 1)) m dir (t * pageSize) 0 =
      (mapPage true (fun m frame => identityMapWith (virtualMap true fuel) m dir frame 0)
        (m.atomicEnable.allocatePage t) dir (t * pageSize) (t * pageSize) false).map
        fun r => r.bind fun m => .returned m.atomicDisable := by
  rw [identityMapWith]
  simp only [pageAlign_zero, virtualMap, mapPages_one, physicalAllocateAt_one _ ht]

/-- An empty slot: a frame is taken, mapped to itself, and put into the slot. -/
theorem mapPage_of_absent {identity : Machine → ℕ → Option Outcome} {va pa : ℕ} (hw : Wired c m)
    (hs : slotPresent m c.pd (pageOf va / 1024) = false) (isUser : Bool) :
    mapPage true identity m c.dir va pa isUser =
      (identity (m.physicalAllocate 1).2 (m.physicalAllocate 1).1).map fun r =>
        (r.bind fun m' =>
          setPageDirectoryEntry true m' c.dir va isUser (m.physicalAllocate 1).1).bind
        fun m' => setPageTableEntry true m' c.dir va pa isUser := by
  have hentry := hs
  rw [slotPresent, ← getPageDirectoryEntry_eq] at hentry
  rw [mapPage, hw.dir.reach hw]
  show (if Entry.present (getPageDirectoryEntry m c.pd va) = true then _ else _) = _
  rw [hentry, if_neg Bool.false_ne_true]

/-- What mapping page `p` to frame `f` leaves behind. The page is seen at its frame if its slot is
one both directories share. -/
structure Mapped (c : Setting) (m : Machine) (R : List (ℕ × ℕ)) (p f : ℕ) : Prop where
  wired : Wired c m
  pending : Pending c m R
  slot : slotPresent m c.pd (p / 1024) = true
  shows : SharedSlot m c.current c.pd (p / 1024) → Shows m c.current p f

/-- A frame that has been mapped to itself is visible. -/
theorem Mapped.visible (h : Mapped c m ((s, t) :: R) t t) : Visible c m t t := by
  have hmem : (s, t) ∈ (s, t) :: R := List.mem_cons_self
  have hlt := (h.wired.maps_lt t t (h.pending.maps _ hmem)).1
  rcases h.pending.visible _ hmem with hvisible | ⟨hb, hshared, -⟩ | hn
  · exact hvisible
  · exact ⟨hlt, Or.inr hb, h.shows hshared, h.pending.stays _ hmem⟩
  · -- the directory in CR3 is the one that is written
    obtain ⟨hcur, -⟩ := h.pending.nested hn
    have hslot := h.slot
    refine ⟨hlt, Or.inl hn, h.shows ⟨?_, hslot, ?_⟩, h.pending.stays _ hmem⟩
    · rw [hcur]
      exact hslot
    · rw [hcur]

/-- Interrupts and bitmaps do not matter to what is mapped. -/
theorem Mapped.congr (h : Mapped c m R p f) (hram : m'.ram = m.ram) (hcr3 : m'.cr3 = m.cr3)
    (hused : m'.used c.pd = true) : Mapped c m' R p f := by
  refine ⟨h.wired.congr hram hcr3 hused, h.pending.congr hram, ?_, fun hshared => ?_⟩
  · rw [slotPresent_congr hram]
    exact h.slot
  · exact (h.shows (hshared.congr hram.symm)).congr hram

end

/-- The pages a call maps, each with its frame: those asked for, and those of the frames it is
dealt. -/
def CallMaps (virtualAddress physicalAddress numPages : ℕ) (A : List (ℕ × ℕ)) (p f : ℕ) : Prop :=
  (∃ i < numPages, p = (pageOf virtualAddress + i) % 2 ^ 20 ∧
      f = (pageOf physicalAddress + i) % 2 ^ 20) ∨
    (p ∈ A.map Prod.snd ∧ f = p)

/-- Page `q` of the directory in CR3 shows frame `g`, and the call maps it to nothing else. -/
structure Reached (m : Machine) (maps : ℕ → ℕ → Prop) (q g : ℕ) : Prop where
  lt : q < 2 ^ 20
  shows : Shows m m.cr3 q g
  stays : Stays maps q g

/-- The code gets to every table it writes. The directory, and the tables of the slots that the call
meets present, are reached. A frame the call is dealt is reached when it is a table, because it was
before, because the nested call maps it in a table both directories have, or because the directory
in CR3 is the one that is written and no slot or frame is dealt twice. And the call writes to the
directory in CR3 and its tables only what it means to. -/
structure TablesReached (m : Machine) (dir pd : ℕ) (maps : ℕ → ℕ → Prop) (A : List (ℕ × ℕ)) : Prop
    where
  dir : Reached m maps dir pd
  table : ∀ p f, maps p f → slotPresent m pd (p / 1024) = true →
    Reached m maps (tableOf m pd (p / 1024)) (tableOf m pd (p / 1024))
  stays : ∀ a ∈ A, Stays maps a.2 a.2
  dealt : (m.cr3 = pd ∧ (A.map Prod.fst).Nodup ∧ (A.map Prod.snd).Nodup) ∨
    ∀ a ∈ A, Shows m m.cr3 a.2 a.2 ∨ SharedSlot m m.cr3 pd (a.2 / 1024)
  current_ne : ∀ s < 1024, slotPresent m pd s = true → tableOf m pd s ≠ m.cr3
  ne_current : ∀ a ∈ A, a.2 ≠ m.cr3
  current_table : ∀ s < 1024, slotPresent m m.cr3 s = true →
    tableOf m m.cr3 s ≠ pd ∧ ∀ a ∈ A, tableOf m m.cr3 s ≠ a.2
  same_slot : ∀ s < 1024, ∀ s' < 1024, slotPresent m pd s = true → slotPresent m m.cr3 s' = true →
    tableOf m pd s = tableOf m m.cr3 s' → s = s'

/-- The setting of a call. -/
def callSetting (m : Machine) (dir pd : ℕ) (maps : ℕ → ℕ → Prop) (A : List (ℕ × ℕ)) : Setting where
  current := m.cr3
  dir := dir
  pd := pd
  maps := maps
  base s := slotPresent m m.cr3 s = true
  nested := m.cr3 = pd ∧ (A.map Prod.fst).Nodup ∧ (A.map Prod.snd).Nodup

section

variable {m m' : Machine} {dir pd va pa n : ℕ} {A : List (ℕ × ℕ)} {maps mapped target : ℕ → Prop}

/-- What is reached at the call is shown. -/
theorem Reached.visible {maps : ℕ → ℕ → Prop} {q g : ℕ} (h : Reached m maps q g) :
    Visible (callSetting m dir pd maps A) m q g :=
  ⟨h.lt, Or.inr h.shows.slot, h.shows, h.stays⟩

/-- At the call the tables are reached. -/
theorem TablesReached.wired (h : TablesReached m dir pd (CallMaps va pa n A) A)
    (hdealt : Dealt m m' pd A mapped target) (hown : OwnFrame m pd) :
    Wired (callSetting m dir pd (CallMaps va pa n A) A) m := by
  refine ⟨rfl, hown, ?_, h.current_ne, fun s hs _ hp => (h.current_table s hs hp).1,
    fun s hs s' hs' hp _ hp' heq => h.same_slot s hs s' hs' hp hp' heq, h.dir.visible,
    fun p f hmaps hs => (h.table p f hmaps hs).visible⟩
  rintro p f (⟨i, -, rfl, rfl⟩ | ⟨hp, rfl⟩)
  · omega
  · exact ⟨hdealt.frame_lt hp, hdealt.frame_lt hp⟩

/-- And each frame of the deal can be. -/
theorem TablesReached.pending (h : TablesReached m dir pd (CallMaps va pa n A) A)
    (hdealt : Dealt m m' pd A mapped target) (hown : OwnFrame m pd) :
    Pending (callSetting m dir pd (CallMaps va pa n A) A) m A := by
  have hmem : ∀ a ∈ A, a.2 ∈ A.map Prod.snd := fun a ha => List.mem_map.mpr ⟨a, ha, rfl⟩
  refine ⟨fun a ha => (hdealt.absent a ha).1, fun a ha => Or.inr ⟨hmem a ha, rfl⟩, h.stays,
    h.ne_current, fun a ha => hdealt.frame_ne hown ha, fun hcur a ha hb => ?_,
    fun a ha s hs _ hp => (h.current_table s hs hp).2 a ha,
    fun hn => ⟨hn.1, hn.2.1, hn.2.2, fun a ha => (hdealt.absent a ha).2⟩, fun a ha => ?_⟩
  · -- a slot the call fills was empty
    have hslot : slotPresent m m.cr3 a.1 = true := hb
    have hcur' : m.cr3 = pd := hcur
    rw [hcur', (hdealt.absent a ha).2] at hslot
    cases hslot
  · rcases h.dealt with hn | hframes
    · exact Or.inr (Or.inr hn)
    · rcases hframes a ha with hshows | hshared
      · have hreached : Reached m (CallMaps va pa n A) a.2 a.2 :=
          ⟨hdealt.frame_lt (hmem a ha), hshows, h.stays a ha⟩
        exact Or.inl hreached.visible
      · refine Or.inr (Or.inl ⟨hshared.current, hshared, fun b hb heq => ?_⟩)
        have hslot := hshared.written
        rw [← heq, (hdealt.absent b hb).2] at hslot
        cases hslot

end

/-- A frame that is dealt for the slot its own page lies in. The nested call fills that slot with
another table and maps the page there; then the slot gets the frame, and its page is looked up in
the frame itself, which holds what was in it before. -/
structure OwnSlot (m : Machine) (pd p t : ℕ) (ts : List ℕ) : Prop where
  current : m.cr3 = pd
  free : freeFrames m.memManData = t :: ts
  empty : slotPresent m pd (p / 1024) = false
  slot : t / 1024 = p / 1024
  unused : ∀ s < 1024, slotPresent m pd s = true → tableOf m pd s ≠ t
  stale : Entry.present (m.ram t (t % 1024)) = false

section

variable {m m₁ m₂ : Machine} {dir pd p t : ℕ} {ts : List ℕ} {isUser : Bool}

/-- The word of the frame that stands for its own page stays what it was. -/
theorem OwnSlot.word (h : OwnSlot m pd p t ts) (hown : OwnFrame m pd) {A : List (ℕ × ℕ)}
    (hram : m₁.ram = m.ram) (hfree : freeFrames m₁.memManData = ts)
    (hdealt : Dealt m₁ m₂ pd A (· = t) (· = t)) (htpd : t ≠ pd) :
    m₂.ram t (t % 1024) = m.ram t (t % 1024) := by
  have hnodup := nodup_freeFrames m.memManData
  rw [h.free, List.nodup_cons] at hnodup
  have htzero : t ≠ 0 := by
    rintro rfl
    have hempty := h.empty
    rw [← h.slot, show 0 / 1024 = 0 from rfl, hown.slot_zero] at hempty
    cases hempty
  -- a word changes only in a table of the directory, old or dealt
  rcases hdealt.other t htpd (t % 1024) with heq | ⟨-, w, hw, -, -, ⟨hs, htable⟩ | hmem⟩
  · rw [heq, hram]
  · rw [slotPresent_congr hram] at hs
    rw [tableOf_congr hram] at htable
    exact absurd htable (h.unused _ (by omega) hs)
  · -- a frame is dealt once
    have hsnd : t ∈ A.map Prod.snd := List.mem_map.mpr ⟨_, hmem, rfl⟩
    rw [hdealt.frames, hfree] at hsnd
    rcases mem_dealtFrames hsnd with hzero | hts
    · exact absurd hzero htzero
    · exact absurd hts hnodup.1

/-- Once the slot has the frame, the frame's page is not present. -/
theorem OwnSlot.absent (h : OwnSlot m pd p t ts) (htlt : t < 2 ^ 20) (htpd : t ≠ pd)
    (hword : m₂.ram t (t % 1024) = m.ram t (t % 1024)) :
    pagePresent (mapSlot m₂ pd (p / 1024) isUser t) pd t = false := by
  have htable : tableOf (mapSlot m₂ pd (p / 1024) isUser t) pd (t / 1024) = t := by
    rw [h.slot, tableOf, mapSlot, Machine.ram_store_self, Entry.pageFrameNumber_map,
      Nat.mod_eq_of_lt htlt]
  have hentry : pageEntry (mapSlot m₂ pd (p / 1024) isUser t) pd t = m.ram t (t % 1024) := by
    rw [pageEntry, htable, ← hword]
    exact Machine.ram_store_of_ne m₂ _ fun h => htpd h.1
  rw [pagePresent, hentry, h.stale, Bool.and_false]

end

section

variable {identity identity' : Machine → ℕ → Option Outcome} {paging : Bool}

end

section

variable {m : Machine} {bitmap : Bitmap}

end

end Sakura.MemoryManager.Paged
