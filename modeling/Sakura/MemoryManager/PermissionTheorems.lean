import Sakura.MemoryManager.KernelHalfRunTheorems

/-!
# Who may touch a page

The processor lets the user touch a page if the entry of its slot in the directory and its entry
in the table both have the user bit. `VirtualMap` writes the table entry of every page it maps,
but the directory entry only when the slot was empty: by the first page that is mapped there,
which may be the page of a table that a call of its own maps for the supervisor. The word that
becomes the rest of a new table is whatever the frame held.

`History` is the record of the pages that have been mapped, and with it "the last call that
covered the page".
-/

namespace Sakura.MemoryManager

/-- The pages that have been mapped and the `isUser` of the call, the latest first. -/
abbrev History := List (ℕ × Bool)

/-- One iteration of `VirtualMap`: the page, and before it those of the tables it needs, which
`identityMap` maps by calls of `VirtualMap` from the innermost outwards. -/
def mappedPage (m : Machine) (pd p : ℕ) (isUser : Bool) : History :=
  (p, isUser) ::
    (deal (slotPresent m pd) (freeFrames m.memManData) p).map fun a => (a.2, false)

/-- The record after a call of `VirtualMap` for `n` pages. -/
def mappedPages (pd : ℕ) (isUser : Bool) : ℕ → Machine → ℕ → ℕ → History → History
  | 0, _, _, _, history => history
  | n + 1, m, p, f, history =>
    mappedPages pd isUser n (installPage pd (freeFrames m.memManData) m p f isUser)
      ((p + 1) % 2 ^ 20) ((f + 1) % 2 ^ 20) (mappedPage m pd p isUser ++ history)

/-- The condition on one iteration, in the state it starts from. There is a frame for each
table it needs. A page for the user is not put into a slot that was filled for the supervisor,
and a frame that becomes its table holds no entries that let the user in. -/
structure PageFits (m : Machine) (pd p : ℕ) (isUser : Bool) : Prop where
  enough : (deal (slotPresent m pd) (freeFrames m.memManData) p).length
    ≤ (freeFrames m.memManData).length
  slot : isUser = true → kernelPages ≤ p → slotPresent m pd (p / 1024) = true →
    Entry.user (m.ram pd (p / 1024)) = true
  clean : isUser = true → slotPresent m pd (p / 1024) = false →
    ∀ t, (freeFrames m.memManData).head? = some t → ∀ i < 1024, i ≠ p % 1024 →
      Entry.present (m.ram t i) = true → Entry.user (m.ram t i) = false

/-- The condition on a call of `VirtualMap`: every iteration meets its own. -/
def PagesFit (pd : ℕ) (isUser : Bool) : ℕ → Machine → ℕ → ℕ → Prop
  | 0, _, _, _ => True
  | n + 1, m, p, f => PageFits m pd p isUser ∧
    PagesFit pd isUser n (installPage pd (freeFrames m.memManData) m p f isUser)
      ((p + 1) % 2 ^ 20) ((f + 1) % 2 ^ 20)

/-- The calls that are made on a directory. -/
inductive DirectoryCall where
  | virtualMap (virtualAddress physicalAddress numPages : ℕ) (isUser : Bool)
  | virtualFree (virtualAddress numPages : ℕ)

structure DirectoryState where
  machine : Machine
  history : History

namespace DirectoryCall

/-- The effect of a call on the directory `pd`, `none` if it does not return. -/
def run (fuel pd : ℕ) (s : DirectoryState) : DirectoryCall → Option DirectoryState
  | virtualMap va pa n isUser =>
    (MemoryManager.virtualMap fuel s.machine pd va pa n isUser).map fun m =>
      ⟨m, mappedPages pd isUser n s.machine (pageOf va) (pageOf pa) s.history⟩
  | virtualFree va n => some ⟨MemoryManager.virtualFree s.machine pd va n, s.history⟩

/-- The condition on a call, in the state it is made in. -/
def Fits (pd : ℕ) (s : DirectoryState) : DirectoryCall → Prop
  | virtualMap va pa n isUser => PagesFit pd isUser n s.machine (pageOf va) (pageOf pa)
  | virtualFree _ _ => True

end DirectoryCall

/-- The user bits of page `p`, by page number. -/
def UserPage (m : Machine) (pd p : ℕ) : Prop :=
  Entry.user (m.ram pd (p / 1024)) = true ∧ Entry.user (pageEntry m pd p) = true

/-- What a run keeps. A page in an empty slot has not been mapped for the user. -/
structure Permissions (pd : ℕ) (m : Machine) (history : History) : Prop
    extends SeparateTables m pd where
  slot_zero : slotPresent m pd 0 = true
  word_ne : ∀ s < 1024, tableOf m pd s ≠ pd
  follows : ∀ p, kernelPages ≤ p → p < 2 ^ 20 → pagePresent m pd p = true →
    (UserPage m pd p ↔ history.lookup p = some true)
  empty : ∀ p, kernelPages ≤ p → p < 2 ^ 20 → slotPresent m pd (p / 1024) = false →
    history.lookup p ≠ some true

section

variable {m m' : Machine} {pd : ℕ} {history : History}

theorem Permissions.ownFrame (h : Permissions pd m history) : OwnFrame m pd :=
  ⟨h.ne_zero, h.used, h.slot_zero, h.table_ne⟩

/-- Only the words of memory and the frames in use matter. -/
theorem Permissions.of_ram (h : Permissions pd m history) (hram : m'.ram = m.ram)
    (hused : ∀ f, m.used f = true → m'.used f = true) : Permissions pd m' history := by
  obtain ⟨d, ram, interrupts, cr3⟩ := m
  obtain ⟨d', ram', interrupts', cr3'⟩ := m'
  obtain rfl : ram' = ram := hram
  exact ⟨⟨⟨⟨h.ne_zero, hused pd h.used, h.table_ne⟩,
    fun s hs hp => hused _ (h.table_used s hs hp)⟩, h.table_inj⟩, h.slot_zero, h.word_ne,
    h.follows, h.empty⟩

/-! ## `VirtualFree` -/

/-- Clearing a word outside the directory makes no page present. -/
theorem Permissions.clear (h : Permissions pd m history) {t : ℕ} (ht : t ≠ pd) (i : ℕ) :
    Permissions pd (m.store t i 0) history := by
  have hword : ∀ s, (m.store t i 0).ram pd s = m.ram pd s := fun s =>
    Machine.ram_store_of_ne m 0 fun he => ht he.1.symm
  have hslot : ∀ s, slotPresent (m.store t i 0) pd s = slotPresent m pd s := fun s => by
    rw [slotPresent, hword, slotPresent]
  have htable : ∀ s, tableOf (m.store t i 0) pd s = tableOf m pd s := fun s => by
    rw [tableOf, hword, tableOf]
  refine ⟨⟨⟨⟨h.ne_zero, h.used, ?_⟩, ?_⟩, ?_⟩, ?_, ?_, ?_, ?_⟩
  · simpa only [hslot, htable] using h.table_ne
  · simp only [hslot, htable]
    exact h.table_used
  · simpa only [hslot, htable] using h.table_inj
  · rw [hslot]
    exact h.slot_zero
  · simpa only [htable] using h.word_ne
  · intro p hlow hhigh hpres
    obtain ⟨hold, hentry⟩ := pagePresent_clear ht hpres
    rw [UserPage, hword, hentry]
    exact h.follows p hlow hhigh hold
  · simpa only [hslot] using h.empty

theorem Permissions.virtualFree (h : Permissions pd m history) (va n : ℕ) :
    Permissions pd (virtualFree m pd va n) history := by
  rw [MemoryManager.virtualFree]
  generalize List.range _ = l
  induction l generalizing m with
  | nil => exact h
  | cons i l ih =>
    refine ih (h.clear ?_ _)
    have hlt := pageOf_lt (va + i * pageSize)
    rw [getPageTable_eq]
    exact h.word_ne _ (by omega)

/-! ## `VirtualMap` -/

/-- A page whose slot is filled. -/
theorem Permissions.mapTo (h : Permissions pd m history) {p : ℕ} (hp : p < 2 ^ 20)
    (hs : slotPresent m pd (p / 1024) = true) (f : ℕ) {isUser : Bool}
    (huser : isUser = true → kernelPages ≤ p → Entry.user (m.ram pd (p / 1024)) = true) :
    Permissions pd (mapTo m pd p isUser f) ((p, isUser) :: history) := by
  have hne := h.table_ne (p / 1024) (by omega) hs
  have hword : ∀ s, (MemoryManager.mapTo m pd p isUser f).ram pd s = m.ram pd s := fun s =>
    Machine.ram_store_of_ne m _ fun he => hne he.1.symm
  have hslot : ∀ s, slotPresent (MemoryManager.mapTo m pd p isUser f) pd s = slotPresent m pd s :=
    fun s => by rw [slotPresent, hword, slotPresent]
  have htable : ∀ s, tableOf (MemoryManager.mapTo m pd p isUser f) pd s = tableOf m pd s :=
    fun s => by rw [tableOf, hword, tableOf]
  refine ⟨⟨⟨⟨h.ne_zero, h.used, ?_⟩, ?_⟩, ?_⟩, ?_, ?_, ?_, ?_⟩
  · simpa only [hslot, htable] using h.table_ne
  · simp only [hslot, htable]
    exact h.table_used
  · simpa only [hslot, htable] using h.table_inj
  · rw [hslot]
    exact h.slot_zero
  · simpa only [htable] using h.word_ne
  · intro q hlow hhigh hpres
    rw [UserPage, hword]
    by_cases hq : q = p
    · subst hq
      have hentry : pageEntry (MemoryManager.mapTo m pd q isUser f) pd q
          = Entry.map (pageEntry m pd q) isUser f := by
        rw [pageEntry, htable]
        exact Machine.ram_store_self m _ _ _
      rw [hentry, Entry.user_map, List.lookup_cons_self, Option.some.injEq]
      exact ⟨And.right, fun hu => ⟨huser hu hlow, hu⟩⟩
    · -- the entry of another page, in another table or at another index
      have hqs : slotPresent m pd (q / 1024) = true := by
        rw [pagePresent, hslot, Bool.and_eq_true] at hpres
        exact hpres.1
      have hentry : pageEntry (MemoryManager.mapTo m pd p isUser f) pd q = pageEntry m pd q := by
        rw [pageEntry, htable]
        apply Machine.ram_store_of_ne
        rintro ⟨ht, hi⟩
        have hsame := h.table_inj _ (by omega) _ (by omega) hqs hs ht
        omega
      rw [pagePresent, hslot, hentry] at hpres
      rw [hentry, List.lookup_cons, beq_false_of_ne hq]
      exact h.follows q hlow hhigh hpres
  · intro q hlow hhigh hempty
    rw [hslot] at hempty
    have hq : q ≠ p := by
      rintro rfl
      rw [hs] at hempty
      cases hempty
    rw [List.lookup_cons, beq_false_of_ne hq]
    exact h.empty q hlow hhigh hempty

/-- A page whose slot gets the table in frame `t`, which has no other use. -/
theorem Permissions.fillSlot (h : Permissions pd m history) {p t : ℕ} (hp : p < 2 ^ 20)
    (ht : t < 2 ^ 20) (hused : m.used t = true) (htpd : t ≠ pd)
    (hfresh : ∀ s < 1024, slotPresent m pd s = true → tableOf m pd s ≠ t) (f : ℕ) {isUser : Bool}
    (hclean : isUser = true → ∀ i < 1024, i ≠ p % 1024 → Entry.present (m.ram t i) = true →
      Entry.user (m.ram t i) = false)
    (hlast : ∀ q, kernelPages ≤ q → q < 2 ^ 20 → q / 1024 = p / 1024 →
      history.lookup q ≠ some true) :
    Permissions pd (fillSlot m pd p isUser f t) ((p, isUser) :: history) := by
  have hram := ram_fillSlot (m := m) (p := p) ht htpd isUser f
  have hword : ∀ s, (MemoryManager.fillSlot m pd p isUser f t).ram pd s =
      if s = p / 1024 then Entry.map (m.ram pd s) isUser t else m.ram pd s := by
    intro s
    rw [hram, if_neg fun he => htpd he.1.symm]
    simp only [true_and]
  have hslot : ∀ s, s ≠ p / 1024 → slotPresent (MemoryManager.fillSlot m pd p isUser f t) pd s
      = slotPresent m pd s := by
    intro s hs
    rw [slotPresent, hword, if_neg hs, slotPresent]
  have htable : ∀ s, tableOf (MemoryManager.fillSlot m pd p isUser f t) pd s
      = if s = p / 1024 then t else tableOf m pd s := by
    intro s
    rw [tableOf, hword]
    split
    · rw [Entry.pageFrameNumber_map, Nat.mod_eq_of_lt ht]
    · rfl
  refine ⟨⟨⟨⟨h.ne_zero, h.used, ?_⟩, ?_⟩, ?_⟩, ?_, ?_, ?_, ?_⟩
  · intro s hs hpres
    rw [htable]
    split
    · exact htpd
    · next hne => exact h.table_ne s hs (hslot s hne ▸ hpres)
  · intro s hs hpres
    rw [htable]
    split
    · exact hused
    · next hne => exact h.table_used s hs (hslot s hne ▸ hpres)
  · -- no other slot has the table in `t`
    intro s hs s' hs' hpres hpres' heq
    rw [htable, htable] at heq
    split at heq
    · split at heq
      · omega
      · next hne => exact absurd heq.symm (hfresh s' hs' (hslot s' hne ▸ hpres'))
    · next hne =>
      split at heq
      · exact absurd heq (hfresh s hs (hslot s hne ▸ hpres))
      · next hne' => exact h.table_inj s hs s' hs' (hslot s hne ▸ hpres) (hslot s' hne' ▸ hpres') heq
  · rw [slotPresent, hword]
    split
    · exact Entry.present_map _ _ _
    · exact h.slot_zero
  · intro s hs
    rw [htable]
    split
    · exact htpd
    · exact h.word_ne s hs
  · -- what a page of the directory follows: the page itself, the others of its slot, and the rest
    intro q hlow hhigh hpres
    have hentry : pageEntry (MemoryManager.fillSlot m pd p isUser f t) pd q
        = if q = p then Entry.map (m.ram t (q % 1024)) isUser f
          else if q / 1024 = p / 1024 then m.ram t (q % 1024)
          else (MemoryManager.fillSlot m pd p isUser f t).ram (tableOf m pd (q / 1024)) (q % 1024) := by
      rw [pageEntry, htable]
      by_cases hq : q = p
      · subst hq
        rw [if_pos rfl, if_pos rfl, hram, if_pos ⟨rfl, rfl⟩]
      · rw [if_neg hq]
        by_cases hs : q / 1024 = p / 1024
        · rw [if_pos hs, if_pos hs, hram, if_neg (by omega), if_neg fun he => htpd he.1]
        · rw [if_neg hs, if_neg hs]
    rw [UserPage, hword, hentry]
    by_cases hq : q = p
    · subst hq
      rw [if_pos rfl, if_pos rfl, Entry.user_map, Entry.user_map, List.lookup_cons_self,
        Option.some.injEq, and_self]
    · rw [if_neg hq, List.lookup_cons, beq_false_of_ne hq]
      by_cases hs : q / 1024 = p / 1024
      · -- what the frame held before it became the table
        rw [if_pos hs, if_pos hs, Entry.user_map]
        refine iff_of_false ?_ (hlast q hlow hhigh hs)
        rintro ⟨hu, hstale⟩
        rw [pagePresent, hentry, if_neg hq, if_pos hs, Bool.and_eq_true] at hpres
        rw [hclean hu (q % 1024) (by omega) (by omega) hpres.2] at hstale
        cases hstale
      · -- a slot that is not touched
        have hqs : slotPresent m pd (q / 1024) = true := by
          rw [pagePresent, hslot _ hs, Bool.and_eq_true] at hpres
          exact hpres.1
        have hkeep : (MemoryManager.fillSlot m pd p isUser f t).ram (tableOf m pd (q / 1024))
            (q % 1024) = pageEntry m pd q := by
          rw [hram, if_neg fun he => hfresh _ (by omega) hqs he.1,
            if_neg fun he => h.table_ne _ (by omega) hqs he.1, pageEntry]
        rw [pagePresent, hslot _ hs, hentry, if_neg hq, if_neg hs, hkeep] at hpres
        rw [if_neg hs, if_neg hs, hkeep]
        exact h.follows q hlow hhigh hpres
  · intro q hlow hhigh hempty
    have hs : q / 1024 ≠ p / 1024 := by
      intro hs
      rw [slotPresent, hword, if_pos hs, Entry.present_map] at hempty
      cases hempty
    have hq : q ≠ p := fun he => hs (by rw [he])
    rw [hslot _ hs] at hempty
    rw [List.lookup_cons, beq_false_of_ne hq]
    exact h.empty q hlow hhigh hempty

end

/-! ## Runs -/

section

variable {L : Layout} {D : List ℕ} {m m' : Machine} {fuel a f : ℕ}

/-- The words of a new directory. -/
theorem createUserPageDirectory_words (h : KernelHalf L ⟨m, D⟩) (hmem : m.cr3 ∈ D)
    (hfuel : 2 ^ 20 < fuel) (hcreate : createUserPageDirectory L fuel m = some (a, m')) (ha : a ≠ 0)
    (htrans : translate m' a = some f) :
    ∀ i, m'.ram f i = if i < 256 then kernelEntry 0 (L.kernelPageTable + i) else 0 := by
  have henable : KernelHalf L ⟨m.atomicEnable, D⟩ := h.of_ram (fun _ _ _ => rfl) h.used
  rw [createUserPageDirectory, Option.bind_eq_some_iff] at hcreate
  obtain ⟨⟨va, m₁⟩, halloc, hrest⟩ := hcreate
  have hva : va ≠ 0 := by
    rintro rfl
    simp only [if_true] at hrest
    exact ha (Prod.mk.inj (Option.some.inj hrest)).1.symm
  simp only [if_neg hva, Option.map_eq_some_iff, Prod.mk.injEq] at hrest
  obtain ⟨frame, hframe, rfl, rfl⟩ := hrest
  obtain ⟨g, hpage⟩ := memoryAllocate_directoryPage henable.toDirectoryRoles hmem hfuel hva halloc
  obtain rfl : frame = g := Option.some.inj (hframe.symm.trans hpage.frame)
  obtain ⟨h₁, -⟩ := kernelHalf_allocate henable hmem hmem hfuel (Or.inl rfl) halloc
  obtain ⟨hdata, hcr3⟩ := fields_mapKernelPageTable L m₁ frame
  have hram := ram_mapKernelPageTable L m₁ frame
  obtain ⟨hfound, -⟩ := hpage.kernelHalf henable hmem h₁ hdata hcr3 hram
  obtain rfl : frame = f := Option.some.inj (hfound.symm.trans htrans)
  intro i
  have hword := hram frame i
  rw [hpage.zero i] at hword
  simp only [true_and] at hword
  exact hword

theorem permissions_create (h : RunInv L ⟨m, D⟩) (hfuel : 2 ^ 20 < fuel)
    (hcreate : createUserPageDirectory L fuel m = some (a, m')) (ha : a ≠ 0)
    (htrans : translate m' a = some f) : Permissions f m' [] := by
  have hwords := createUserPageDirectory_words h.toKernelHalf h.active hfuel hcreate ha htrans
  obtain ⟨hhalf, -⟩ := kernelHalf_create h.toKernelHalf h.active hfuel hcreate
  rw [if_neg ha, htrans] at hhalf
  have hroles : DirectoryRoles L ⟨m', f :: D⟩ := hhalf.toDirectoryRoles
  have hmem : f ∈ f :: D := List.mem_cons_self
  have hown := hroles.ownFrame hmem
  have hempty : ∀ s, 256 ≤ s → slotPresent m' f s = false := by
    intro s hs
    rw [slotPresent, hwords, if_neg (by omega), Entry.present_zero]
  have hkernel : ∀ s, slotPresent m' f s = true → s < 256 := by
    intro s hp
    by_contra hge
    rw [hempty s (by omega)] at hp
    cases hp
  refine ⟨⟨⟨⟨hown.ne_zero, hown.used, hown.table_ne⟩, ?_⟩, ?_⟩, hown.slot_zero, ?_, ?_, ?_⟩
  · intro s _ hp
    have htable := L.own_table (hkernel s hp)
    rw [(hroles.kernel f hmem s (hkernel s hp)).2]
    exact hroles.used _ (fun h0 => L.not_own_zero (h0 ▸ htable)) (Or.inr (Or.inl htable))
  · intro s _ s' _ hp hp' heq
    rw [(hroles.kernel f hmem s (hkernel s hp)).2, (hroles.kernel f hmem s' (hkernel s' hp')).2] at heq
    omega
  · intro s _
    by_cases hlow : s < 256
    · rw [(hroles.kernel f hmem s hlow).2]
      exact hroles.not_kernelTable f hmem s hlow
    · rw [tableOf, hwords, if_neg hlow]
      exact hown.ne_zero.symm
  · intro p hlow _ hpres
    rw [kernelPages] at hlow
    rw [pagePresent, hempty _ (by omega), Bool.false_and] at hpres
    cases hpres
  · intro p _ _ _
    simp

end

/-! ## The order of calls -/

section

variable {m₀ w : Machine}

/-- The first page of the user's half needs one table, in the first free frame. -/
theorem FirstDirectory.deal (h : FirstDirectory m₀ w) :
    ∃ ts, freeFrames w.memManData = 0x204 :: ts ∧ Permissions 0x203 w [] ∧
      slotPresent w 0x203 256 = false ∧
      MemoryManager.deal (slotPresent w 0x203) (freeFrames w.memManData) 0x40000
        = [(256, 0x204)] := by
  obtain ⟨fs, hfree⟩ := h.free
  have hnew : Permissions 0x203 w [] :=
    permissions_create h.inv (by omega) h.create (by decide) h.frame
  have hslot : slotPresent w 0x203 256 = false := by
    rw [slotPresent, h.empty 256 (by omega), Entry.present_zero]
  refine ⟨0x205 :: fs, hfree, hnew, hslot, ?_⟩
  rw [hfree, MemoryManager.deal, show 0x40000 / 1024 = 256 by decide, hslot,
    if_neg Bool.false_ne_true, MemoryManager.deal, show 0x204 / 1024 = 0 by decide, hnew.slot_zero,
    if_pos rfl]

end

end Sakura.MemoryManager
