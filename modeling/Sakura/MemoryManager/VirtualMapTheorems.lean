import Mathlib.Data.List.Basic
import Sakura.MemoryManager.VirtualMemoryManager

/-!
# `VirtualMap` as a total function

Seen from a page number `p`, directory slot `p / 1024` names a table and entry `p % 1024`
of it maps the page. `VirtualMap` on one page whose slot is empty takes the lowest free
frame for a table, maps that frame to itself (which may need a table again), and only then
fills the slot. The recursion therefore runs down the list of free frames:
`installPage` is that recursion, written on the list, and `virtualMap_eq` says that the
code computes it, and ends, as soon as slot 0 of the directory is present.

Nothing is written on the way down, so every slot is looked up in the memory the call
started with; the writes are made on the way back.
-/

namespace Sakura.MemoryManager

open MemoryManagerData

/-! ## Physical memory -/

@[simp] theorem Machine.ram_store_self (m : Machine) (f i w : ℕ) : (m.store f i w).ram f i = w := by
  simp only [Machine.store, and_self, if_true]

/-- The words beside the one that is written. -/
theorem Machine.ram_store_of_ne (m : Machine) {f i g j : ℕ} (w : ℕ) (h : ¬ (g = f ∧ j = i)) :
    (m.store f i w).ram g j = m.ram g j := by
  simp only [Machine.store, if_neg h]

/-! ## A directory, by page number -/

/-- Slot `s` of the directory names a table. -/
def slotPresent (m : Machine) (pd s : ℕ) : Bool := Entry.present (m.ram pd s)

/-- The frame of the table in slot `s`. -/
def tableOf (m : Machine) (pd s : ℕ) : ℕ := Entry.pageFrameNumber (m.ram pd s)

/-- The table entry of page `p`. -/
def pageEntry (m : Machine) (pd p : ℕ) : ℕ := m.ram (tableOf m pd (p / 1024)) (p % 1024)

/-- Page `p` is present. -/
def pagePresent (m : Machine) (pd p : ℕ) : Bool :=
  slotPresent m pd (p / 1024) && Entry.present (pageEntry m pd p)

/-- Fill slot `s` with the table in frame `f`. -/
def mapSlot (m : Machine) (pd s : ℕ) (isUser : Bool) (f : ℕ) : Machine :=
  m.store pd s (Entry.map (m.ram pd s) isUser f)

/-- Map page `p` to frame `f` in the table its slot names. -/
def mapTo (m : Machine) (pd p : ℕ) (isUser : Bool) (f : ℕ) : Machine :=
  m.store (tableOf m pd (p / 1024)) (p % 1024) (Entry.map (pageEntry m pd p) isUser f)

/-- The last two writes of `VirtualMap` to a page whose slot was empty: the slot gets the
table in frame `t`, and the page is mapped there. -/
def fillSlot (m : Machine) (pd p : ℕ) (isUser : Bool) (f t : ℕ) : Machine :=
  mapTo (mapSlot m pd (p / 1024) isUser t) pd p isUser f

/-- Mark frame `f` used. -/
def Machine.allocatePage (m : Machine) (f : ℕ) : Machine :=
  { m with memManData := m.memManData.allocatePage (f * pageSize) }

/-- The two words that change when a slot gets a table and the table an entry. -/
theorem ram_fillSlot {m : Machine} {pd p t : ℕ} (ht : t < 2 ^ 20) (hne : t ≠ pd) (isUser : Bool)
    (f g i : ℕ) :
    (fillSlot m pd p isUser f t).ram g i =
      if g = t ∧ i = p % 1024 then Entry.map (m.ram g i) isUser f
      else if g = pd ∧ i = p / 1024 then Entry.map (m.ram g i) isUser t
      else m.ram g i := by
  have htable : tableOf (mapSlot m pd (p / 1024) isUser t) pd (p / 1024) = t := by
    rw [tableOf, mapSlot, Machine.ram_store_self, Entry.pageFrameNumber_map, Nat.mod_eq_of_lt ht]
  have hentry : pageEntry (mapSlot m pd (p / 1024) isUser t) pd p = m.ram t (p % 1024) := by
    rw [pageEntry, htable]
    exact Machine.ram_store_of_ne m _ fun h => hne h.1
  rw [fillSlot, mapTo, htable, hentry]
  by_cases hg : g = t ∧ i = p % 1024
  · obtain ⟨rfl, rfl⟩ := hg
    rw [Machine.ram_store_self, if_pos ⟨rfl, rfl⟩]
  · rw [Machine.ram_store_of_ne _ _ hg, if_neg hg]
    by_cases hd : g = pd ∧ i = p / 1024
    · obtain ⟨rfl, rfl⟩ := hd
      rw [mapSlot, Machine.ram_store_self, if_pos ⟨rfl, rfl⟩]
    · rw [if_neg hd]
      exact Machine.ram_store_of_ne m _ hd

/-- A frame number has 20 bits. -/
theorem Entry.map_mod (e : ℕ) (isUser : Bool) (f : ℕ) :
    Entry.map e isUser (f % 2 ^ 20) = Entry.map e isUser f := by
  simp only [Entry.map, Entry.setPageFrameNumber, BitField.put, Nat.mod_mod]

/-- The directory entry of an address is the slot of its page. -/
theorem getPageDirectoryEntry_eq (m : Machine) (pd va : ℕ) :
    getPageDirectoryEntry m pd va = m.ram pd (pageOf va / 1024) := by
  rw [getPageDirectoryEntry, pageDirIndex_eq]

/-- The table of an address is the one its slot names. -/
theorem getPageTable_eq (m : Machine) (pd va : ℕ) :
    getPageTable m pd va = tableOf m pd (pageOf va / 1024) := by
  rw [getPageTable, getPageDirectoryEntry_eq, tableOf]

/-- The table entry of an address is the entry of its page. -/
theorem getPageTableEntry_eq (m : Machine) (pd va : ℕ) :
    getPageTableEntry m pd va = pageEntry m pd (pageOf va) := by
  rw [getPageTableEntry, getPageTable_eq, pageTableIndex_eq, pageEntry]

/-- An address is present exactly if its page is. -/
theorem isPagePresent_eq (m : Machine) (pd va : ℕ) :
    isPagePresent m pd va = pagePresent m pd (pageOf va) := by
  rw [isPagePresent, getPageDirectoryEntry_eq, getPageTableEntry_eq, pagePresent, slotPresent]
  cases Entry.present (m.ram pd (pageOf va / 1024)) <;> rfl

theorem pageOf_div (address : ℕ) : address / 2 ^ 12 % 2 ^ 20 = pageOf address := by
  rw [pageOf, pageSize]; omega

/-- Assigning to a table entry is `mapTo` on pages and frames. -/
theorem setPageTableEntry_eq (m : Machine) (pd va pa : ℕ) (isUser : Bool) :
    setPageTableEntry m pd va pa isUser = mapTo m pd (pageOf va) isUser (pageOf pa) := by
  rw [setPageTableEntry, mapTo, getPageTable_eq, getPageTableEntry_eq, pageTableIndex_eq,
    ← pageOf_div pa, Entry.map_mod]

/-- Assigning to a directory entry is `mapSlot`. -/
theorem setPageDirectoryEntry_eq (m : Machine) (pd va pa : ℕ) (isUser : Bool) :
    setPageDirectoryEntry m pd va isUser pa
      = mapSlot m pd (pageOf va / 1024) isUser (pageOf pa) := by
  rw [setPageDirectoryEntry, mapSlot, getPageDirectoryEntry_eq, pageDirIndex_eq,
    ← pageOf_div pa, Entry.map_mod]

/-! ## The free frames, lowest first -/

/-- The frames `physicalAllocate(1)` hands out, in the order it does. -/
def freeFrames (d : MemoryManagerData) : List ℕ :=
  (List.range (d.totalMemory.toNat / pageSize)).filter fun p => !d.used p

/-- The free frames are the pages below `TotalMemory` whose bit is clear. -/
theorem mem_freeFrames {d : MemoryManagerData} {f : ℕ} :
    f ∈ freeFrames d ↔ f < d.totalMemory.toNat / pageSize ∧ d.used f = false := by
  rw [freeFrames, List.mem_filter, List.mem_range, Bool.not_eq_true']

/-- All of them have a page number. -/
theorem freeFrames_lt {d : MemoryManagerData} {f : ℕ} (h : f ∈ freeFrames d) : f < 2 ^ 20 :=
  Nat.lt_trans (mem_freeFrames.mp h).1 (totalMemory_div_lt d)

/-- A frame in use is not a free one. -/
theorem ne_of_used {m : Machine} {f g : ℕ} (hf : m.used f = true) (hg : m.used g = false) :
    f ≠ g := by
  rintro rfl
  exact Bool.false_ne_true (hg.symm.trans hf)

/-- No frame is free and in use. -/
theorem ne_of_mem_freeFrames {m : Machine} {f t : ℕ} (ht : t ∈ freeFrames m.memManData)
    (hf : m.used f = true) : t ≠ f :=
  (ne_of_used hf (mem_freeFrames.mp ht).2).symm

theorem nodup_freeFrames (d : MemoryManagerData) : (freeFrames d).Nodup :=
  List.nodup_range.filter _

/-- A run of one page is free if its bit is clear. -/
theorem freeRun_one {d : MemoryManagerData} {k : ℕ} (hk : k < 2 ^ 20) :
    FreeRun d k 1 ↔ d.used k = false := by
  constructor
  · intro h
    exact h k ⟨0, by omega, by omega⟩
  · rintro h p ⟨i, hi, rfl⟩
    rwa [show (k + i) % 2 ^ 20 = k by omega]

/-- The search for one frame finds the lowest free one. -/
theorem head?_freeFrames (d : MemoryManagerData) :
    (freeFrames d).head? = (List.range (d.totalMemory.toNat / pageSize)).find?
      fun pageIndex => isPhysicalFree d (pageIndex * pageSize) 1 := by
  rw [freeFrames, ← List.head?_filter]
  congr 1
  apply List.filter_congr
  intro k hk
  have hk' : k < 2 ^ 20 := Nat.lt_trans (List.mem_range.mp hk) (totalMemory_div_lt d)
  rw [Bool.eq_iff_iff, isPhysicalFree_mul d 1 hk', freeRun_one hk', Bool.not_eq_true']

/-- `physicalAllocate(1)` takes the head of the list of free frames. -/
theorem physicalAllocate_one (d : MemoryManagerData) :
    physicalAllocate d 1 = match freeFrames d with
      | [] => (0, d)
      | f :: _ => (f * pageSize, d.allocatePage (f * pageSize)) := by
  rw [physicalAllocate, ← head?_freeFrames]
  cases h : freeFrames d with
  | nil => rfl
  | cons f fs =>
    have hf : f < 2 ^ 20 := freeFrames_lt (h ▸ List.mem_cons_self)
    have haddr : (f * pageSize + 0 * pageSize) % 2 ^ 32 = f * pageSize := by
      rw [pageSize]; omega
    simp only [List.head?_cons, physicalAllocateAt_succ, physicalAllocateAt_zero, haddr]

/-- The page of the address a page starts at. -/
theorem pageOf_mul_of_lt {f : ℕ} (h : f < 2 ^ 20) : pageOf (f * pageSize) = f := by
  rw [pageOf_mul_pageSize, Nat.mod_eq_of_lt h]

/-- Taking the head leaves the tail. -/
theorem freeFrames_allocatePage {d : MemoryManagerData} {f : ℕ} {fs : List ℕ}
    (h : freeFrames d = f :: fs) : freeFrames (d.allocatePage (f * pageSize)) = fs := by
  have hf : f < 2 ^ 20 := freeFrames_lt (h ▸ List.mem_cons_self)
  have hnodup := nodup_freeFrames d
  rw [h, List.nodup_cons] at hnodup
  have hfilter : freeFrames (d.allocatePage (f * pageSize))
      = (freeFrames d).filter fun p => !decide (p = f) := by
    rw [freeFrames, freeFrames, List.filter_filter, totalMemory_allocatePage]
    apply List.filter_congr
    intro p _
    rw [Bool.eq_iff_iff, Bool.not_eq_true', ← Bool.not_eq_true, used_allocatePage,
      pageOf_mul_of_lt hf]
    simp only [Bool.and_eq_true, Bool.not_eq_true', decide_eq_false_iff_not, not_or,
      Bool.not_eq_true]
    exact and_comm
  rw [hfilter, h, List.filter_cons_of_neg (by simp)]
  apply List.filter_eq_self.mpr
  intro p hp
  have hne : p ≠ f := by
    rintro rfl
    exact hnodup.1 hp
  simp [hne]

/-- A page that is in use already is not counted again. -/
theorem allocatePage_of_used {d : MemoryManagerData} {a : ℕ} (h : d.used (pageOf a) = true) :
    d.allocatePage a = d := by
  rw [MemoryManagerData.allocatePage, isUsed, if_pos h]

/-! ## The total form -/

/-- `VirtualMap` on the single page `p`, by recursion on the free frames. -/
def installPage (pd : ℕ) : List ℕ → Machine → ℕ → ℕ → Bool → Machine
  | [], m, p, f, isUser =>
    if slotPresent m pd (p / 1024) then mapTo m pd p isUser f
    else
      -- no frame is left: frame 0 is mapped to itself and becomes the table
      fillSlot (mapTo (m.atomicEnable.allocatePage 0) pd 0 false 0).atomicDisable pd p isUser f 0
  | t :: ts, m, p, f, isUser =>
    if slotPresent m pd (p / 1024) then mapTo m pd p isUser f
    else
      fillSlot (installPage pd ts (m.allocatePage t).atomicEnable t t false).atomicDisable
        pd p isUser f t

/-- `VirtualMap` on `n` pages from page `p` on. -/
def installPages (pd : ℕ) (isUser : Bool) : ℕ → Machine → ℕ → ℕ → Machine
  | 0, m, _, _ => m
  | n + 1, m, p, f =>
    installPages pd isUser n (installPage pd (freeFrames m.memManData) m p f isUser)
      ((p + 1) % 2 ^ 20) ((f + 1) % 2 ^ 20)

/-- Where the slot has a table, only the entry is written. -/
theorem installPage_of_present {pd : ℕ} {frames : List ℕ} {m : Machine} {p f : ℕ}
    {isUser : Bool} (h : slotPresent m pd (p / 1024) = true) :
    installPage pd frames m p f isUser = mapTo m pd p isUser f := by
  cases frames <;> simp only [installPage, h, if_true]

/-- Where it has none, the lowest free frame is mapped to itself first, and becomes the table. -/
theorem installPage_cons {pd t : ℕ} {ts : List ℕ} {m : Machine} {p f : ℕ} {isUser : Bool}
    (h : slotPresent m pd (p / 1024) = false) :
    installPage pd (t :: ts) m p f isUser =
      fillSlot (installPage pd ts (m.allocatePage t).atomicEnable t t false).atomicDisable
        pd p isUser f t := by
  rw [installPage, h, if_neg Bool.false_ne_true]

/-- With no frame left the table is frame 0. -/
theorem installPage_nil {pd : ℕ} {m : Machine} {p f : ℕ} {isUser : Bool}
    (h : slotPresent m pd (p / 1024) = false) :
    installPage pd [] m p f isUser =
      fillSlot (mapTo (m.atomicEnable.allocatePage 0) pd 0 false 0).atomicDisable
        pd p isUser f 0 := by
  rw [installPage, h, if_neg Bool.false_ne_true]

@[simp] theorem pageAlign_zero : pageAlign 0 / pageSize = 1 := by decide

/-- A count of 1 is one iteration. -/
theorem mapPages_one (identity : Machine → ℕ → Option Machine) (pd : ℕ) (isUser : Bool)
    (m : Machine) (va pa : ℕ) :
    mapPages identity pd isUser 1 m va pa = mapPage identity m pd va pa isUser := by
  rw [mapPages]
  cases mapPage identity m pd va pa isUser <;> rfl

/-- Reserving a page by its address. -/
theorem physicalAllocateAt_one (m : Machine) {t : ℕ} (ht : t < 2 ^ 20) :
    m.physicalAllocateAt (t * pageSize) 1 = m.allocatePage t := by
  have haddr : (t * pageSize + 0 * pageSize) % 2 ^ 32 = t * pageSize := by
    rw [pageSize]; omega
  rw [Machine.physicalAllocateAt, physicalAllocateAt_succ, physicalAllocateAt_zero, haddr,
    Machine.allocatePage]

/-- The call of `identityMap` on a fresh table frame maps one page. -/
theorem identityMapWith_frame (fuel : ℕ) (m : Machine) (pd : ℕ) {t : ℕ} (ht : t < 2 ^ 20) :
    identityMapWith (virtualMap (fuel + 1)) m pd (t * pageSize) 0 =
      (mapPage (fun m frame => identityMapWith (virtualMap fuel) m pd frame 0)
        (m.atomicEnable.allocatePage t) pd (t * pageSize) (t * pageSize) false).map
        Machine.atomicDisable := by
  rw [identityMapWith]
  simp only [pageAlign_zero, virtualMap, mapPages_one, physicalAllocateAt_one _ ht]

/-- One iteration of the loop of `VirtualMap`, where the slot has a table. -/
theorem mapPage_of_present {identity : Machine → ℕ → Option Machine} {m : Machine}
    {pd va pa : ℕ} {isUser : Bool} (h : slotPresent m pd (pageOf va / 1024) = true) :
    mapPage identity m pd va pa isUser = some (mapTo m pd (pageOf va) isUser (pageOf pa)) := by
  rw [slotPresent] at h
  rw [mapPage, getPageDirectoryEntry_eq, if_pos h, setPageTableEntry_eq]

/-- And where it has none: the frame that is dealt is mapped to itself before it is the table. -/
theorem mapPage_of_absent {identity : Machine → ℕ → Option Machine} {m : Machine}
    {pd va pa : ℕ} {isUser : Bool} (h : slotPresent m pd (pageOf va / 1024) = false) :
    mapPage identity m pd va pa isUser =
      (identity (m.physicalAllocate 1).2 (m.physicalAllocate 1).1).map fun m' =>
        fillSlot m' pd (pageOf va) isUser (pageOf pa) (pageOf (m.physicalAllocate 1).1) := by
  rw [slotPresent] at h
  rw [mapPage, getPageDirectoryEntry_eq, if_neg (by rw [h]; exact Bool.false_ne_true)]
  simp only [setPageDirectoryEntry_eq, setPageTableEntry_eq, fillSlot]

/-- One iteration of `VirtualMap` computes `installPage`. Slot 0 matters only when the
frames run out: the recursion then ends at page 0. -/
theorem mapPage_eq (pd : ℕ) : ∀ (fuel : ℕ) (m : Machine) (va pa : ℕ) (isUser : Bool),
    slotPresent m pd 0 = true → (freeFrames m.memManData).length < fuel →
    mapPage (fun m frame => identityMapWith (virtualMap fuel) m pd frame 0) m pd va pa isUser
      = some (installPage pd (freeFrames m.memManData) m (pageOf va) (pageOf pa) isUser) := by
  intro fuel
  induction fuel with
  | zero => intro m va pa isUser _ hfuel; omega
  | succ fuel ih =>
    intro m va pa isUser h0 hfuel
    by_cases hs : slotPresent m pd (pageOf va / 1024) = true
    · rw [mapPage_of_present hs, installPage_of_present hs]
    · have hs' : slotPresent m pd (pageOf va / 1024) = false := by simpa using hs
      rw [mapPage_of_absent hs', Machine.physicalAllocate, physicalAllocate_one]
      cases hfree : freeFrames m.memManData with
      | nil =>
        -- the allocation failed, and page 0 is mapped in the table slot 0 names
        have hid := identityMapWith_frame fuel m pd (t := 0) (by omega)
        rw [mapPage_of_present (by exact h0), Option.map_some, Nat.zero_mul] at hid
        simp only [hid, Option.map_some, installPage_nil hs']
        rfl
      | cons t ts =>
        have ht : t < 2 ^ 20 := freeFrames_lt (hfree ▸ List.mem_cons_self)
        have hused : (m.allocatePage t).memManData.used (pageOf (t * pageSize)) = true :=
          (used_allocatePage _ _ _).mpr (Or.inr rfl)
        have hstate : (m.allocatePage t).atomicEnable.allocatePage t
            = (m.allocatePage t).atomicEnable := by
          rw [Machine.allocatePage]
          congr 1
          exact allocatePage_of_used hused
        have hts : freeFrames (m.allocatePage t).atomicEnable.memManData = ts :=
          freeFrames_allocatePage hfree
        have hrec := ih (m.allocatePage t).atomicEnable (t * pageSize) (t * pageSize) false h0
          (by rw [hts]; rw [hfree, List.length_cons] at hfuel; omega)
        have hid := identityMapWith_frame fuel (m.allocatePage t) pd ht
        rw [hstate, hrec, hts, Option.map_some, pageOf_mul_of_lt ht] at hid
        have hcall : identityMapWith (virtualMap (fuel + 1))
            { m with memManData := m.memManData.allocatePage (t * pageSize) } pd (t * pageSize) 0
            = some (installPage pd ts (m.allocatePage t).atomicEnable t t false).atomicDisable :=
          hid
        simp only [hcall, Option.map_some, installPage_cons hs', pageOf_mul_of_lt ht]

/-! ## Mapping only adds -/

/-- `m'` has every present word and every used page of `m`. -/
structure Grows (m m' : Machine) : Prop where
  present : ∀ f i, Entry.present (m.ram f i) = true → Entry.present (m'.ram f i) = true
  used : ∀ p, m.used p = true → m'.used p = true
  total : m'.memManData.totalMemory = m.memManData.totalMemory

theorem Grows.refl (m : Machine) : Grows m m := ⟨fun _ _ h => h, fun _ h => h, rfl⟩

/-- What grows twice has grown. -/
theorem Grows.trans {m₁ m₂ m₃ : Machine} (h : Grows m₁ m₂) (h' : Grows m₂ m₃) : Grows m₁ m₃ :=
  ⟨fun f i hp => h'.present f i (h.present f i hp), fun p hp => h'.used p (h.used p hp),
    h'.total.trans h.total⟩

/-- An entry that is mapped is present afterwards, whatever it was. -/
theorem grows_store_map (m : Machine) (f i : ℕ) (e : ℕ) (isUser : Bool) (frame : ℕ) :
    Grows m (m.store f i (Entry.map e isUser frame)) := by
  refine ⟨?_, fun _ h => h, rfl⟩
  intro f' i' hp
  simp only [Machine.store]
  split
  · exact Entry.present_map _ _ _
  · exact hp

/-- Mapping a page keeps what is there. -/
theorem grows_mapTo (m : Machine) (pd p : ℕ) (isUser : Bool) (f : ℕ) :
    Grows m (mapTo m pd p isUser f) := grows_store_map m _ _ _ _ _

/-- Naming a table in a slot keeps what is there. -/
theorem grows_mapSlot (m : Machine) (pd s : ℕ) (isUser : Bool) (f : ℕ) :
    Grows m (mapSlot m pd s isUser f) := grows_store_map m _ _ _ _ _

/-- So do both. -/
theorem grows_fillSlot (m : Machine) (pd p : ℕ) (isUser : Bool) (f t : ℕ) :
    Grows m (fillSlot m pd p isUser f t) :=
  (grows_mapSlot m pd _ isUser t).trans (grows_mapTo _ pd p isUser f)

/-- Taking a frame keeps what is there. -/
theorem grows_allocatePage (m : Machine) (f : ℕ) : Grows m (m.allocatePage f) := by
  refine ⟨fun _ _ h => h, ?_, totalMemory_allocatePage _ _⟩
  intro p hp
  exact (used_allocatePage _ _ _).mpr (Or.inl hp)

theorem grows_atomicEnable (m : Machine) : Grows m m.atomicEnable :=
  ⟨fun _ _ h => h, fun _ h => h, rfl⟩

theorem grows_atomicDisable (m : Machine) : Grows m m.atomicDisable :=
  ⟨fun _ _ h => h, fun _ h => h, rfl⟩

/-- Mapping a page with all the tables it takes keeps what is there. -/
theorem grows_installPage (pd : ℕ) (frames : List ℕ) : ∀ (m : Machine) (p f : ℕ)
    (isUser : Bool), Grows m (installPage pd frames m p f isUser) := by
  induction frames with
  | nil =>
    intro m p f isUser
    by_cases hs : slotPresent m pd (p / 1024) = true
    · rw [installPage_of_present hs]
      exact grows_mapTo m pd p isUser f
    · rw [installPage_nil (by simpa using hs)]
      exact (grows_atomicEnable m).trans <| (grows_allocatePage _ _).trans <|
        (grows_mapTo _ _ _ _ _).trans <| (grows_atomicDisable _).trans (grows_fillSlot _ _ _ _ _ _)
  | cons t ts ih =>
    intro m p f isUser
    by_cases hs : slotPresent m pd (p / 1024) = true
    · rw [installPage_of_present hs]
      exact grows_mapTo m pd p isUser f
    · rw [installPage_cons (by simpa using hs)]
      exact (grows_allocatePage m t).trans <| (grows_atomicEnable _).trans <|
        (ih _ t t false).trans <| (grows_atomicDisable _).trans (grows_fillSlot _ _ _ _ _ _)

/-- And so does mapping a run of pages. -/
theorem grows_installPages (pd : ℕ) (isUser : Bool) (n : ℕ) : ∀ (m : Machine) (p f : ℕ),
    Grows m (installPages pd isUser n m p f) := by
  induction n with
  | zero => intro m p f; exact Grows.refl m
  | succ n ih => intro m p f; exact (grows_installPage pd _ m p f isUser).trans (ih _ _ _)

/-- A slot that has a table keeps one. -/
theorem Grows.slotPresent {m m' : Machine} (h : Grows m m') {pd s : ℕ}
    (hs : slotPresent m pd s = true) : slotPresent m' pd s = true := h.present pd s hs

/-- No frame becomes free. -/
theorem Grows.freeFrames_sublist {m m' : Machine} (h : Grows m m') :
    (freeFrames m'.memManData).Sublist (freeFrames m.memManData) := by
  rw [freeFrames, freeFrames, h.total]
  apply List.monotone_filter_right
  intro p hp
  rw [Bool.not_eq_true'] at hp ⊢
  by_contra hused
  rw [Bool.not_eq_false] at hused
  have := h.used p hused
  rw [Machine.used, hp] at this
  exact Bool.false_ne_true this

/-- With enough fuel the loop of `VirtualMap` is its total form. -/
theorem mapPages_eq (pd : ℕ) (isUser : Bool) (fuel n : ℕ) : ∀ (m : Machine) (va pa : ℕ),
    slotPresent m pd 0 = true → (freeFrames m.memManData).length < fuel →
    mapPages (fun m frame => identityMapWith (virtualMap fuel) m pd frame 0) pd isUser n m va pa
      = some (installPages pd isUser n m (pageOf va) (pageOf pa)) := by
  induction n with
  | zero => intro m va pa _ _; rfl
  | succ n ih =>
    intro m va pa h0 hfuel
    have hgrow := grows_installPage pd (freeFrames m.memManData) m (pageOf va) (pageOf pa) isUser
    rw [mapPages, mapPage_eq pd fuel m va pa isUser h0 hfuel, Option.bind_some,
      ih _ _ _ (hgrow.slotPresent h0)
        (Nat.lt_of_le_of_lt hgrow.freeFrames_sublist.length_le hfuel), pageOf_next, pageOf_next,
      installPages]

/-- `VirtualMap` returns, and computes `installPages`, in every directory whose slot 0 is
present: the recursion is never deeper than there are free frames. -/
theorem virtualMap_eq {fuel : ℕ} {m : Machine} {pd : ℕ} (va pa n : ℕ) (isUser : Bool)
    (h0 : slotPresent m pd 0 = true) (hfuel : (freeFrames m.memManData).length + 1 < fuel) :
    virtualMap fuel m pd va pa n isUser
      = some (installPages pd isUser n m (pageOf va) (pageOf pa)) := by
  obtain ⟨fuel, rfl⟩ : ∃ k, fuel = k + 1 := ⟨fuel - 1, by omega⟩
  rw [virtualMap, mapPages_eq pd isUser fuel n m va pa h0 (by omega)]

/-- There are fewer free frames than pages, so the fuel `2 ^ 20` is enough. -/
theorem length_freeFrames_lt (d : MemoryManagerData) : (freeFrames d).length < 2 ^ 20 := by
  have h := (List.range (d.totalMemory.toNat / pageSize)).length_filter_le fun p => !d.used p
  rw [List.length_range] at h
  exact Nat.lt_of_le_of_lt h (totalMemory_div_lt d)

/-- The recursion ends, in any directory that holds the kernel's entries and however few frames
are free: each level takes a frame, so that there is one level more than there are free frames,
and what is left when they have run out is page 0, whose slot is one of the kernel's. -/
theorem virtualMap_ends (m : Machine) (pd va pa n : ℕ) (isUser : Bool)
    (hkernel : ∀ s < numKernelPageTables, slotPresent m pd s = true) :
    ∃ m', ∀ fuel, (freeFrames m.memManData).length + 1 < fuel →
      virtualMap fuel m pd va pa n isUser = some m' :=
  ⟨_, fun _ hfuel => virtualMap_eq va pa n isUser (hkernel 0 (by decide)) hfuel⟩

end Sakura.MemoryManager
