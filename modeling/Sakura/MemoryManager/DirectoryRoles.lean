import Sakura.Lib.Run
import Sakura.MemoryManager.KernelMemoryTheorems
import Sakura.MemoryManager.PageTableTheorems

/-!
# Directories and their frames

The memory calls on any of the directories there are, and what each does to the frames that
hold directories and page tables. Every directory has the kernel's entries, no directory is a
table, and, apart from frame 0, directories and tables are in frames that are in use
(`DirectoryRoles`). Mapping in a directory keeps this: the frames it takes for tables are free
ones, or frame 0 when there are none left.
-/

namespace Sakura.MemoryManager

open MemoryManagerData

/-! ## Calls -/

/-- The calls of the rest of the kernel. A directory is named by its frame; `switch` is the
scheduler loading another one in CR3. -/
inductive MemoryCall where
  | allocate (pd size : ℕ) (user : Bool)
  | map (pd virtualAddress size : ℕ) (isUser : Bool)
  | free (pd startAddress size : ℕ)
  | create
  | switch (pd : ℕ)

/-- The machine, and the directories created so far. -/
structure MemoryState where
  machine : Machine
  directories : List ℕ

namespace MemoryCall

/-- The call is made on a directory there is. -/
def Valid (s : MemoryState) : MemoryCall → Prop
  | allocate pd _ _ | map pd _ _ _ | free pd _ _ | switch pd => pd ∈ s.directories
  | create => True

/-- The effect of a call, `none` if it does not return. -/
def run (L : Layout) (fuel : ℕ) (s : MemoryState) : MemoryCall → Option MemoryState
  | allocate pd size user =>
    (memoryAllocate fuel s.machine pd size user).map fun r => ⟨r.2, s.directories⟩
  | map pd virtualAddress size isUser =>
    (memoryMap fuel s.machine pd virtualAddress size isUser).map fun m => ⟨m, s.directories⟩
  | free pd startAddress size => some ⟨memoryFree s.machine pd startAddress size, s.directories⟩
  | create =>
    (createUserPageDirectory L fuel s.machine).map fun r =>
      ⟨r.2, if r.1 = 0 then s.directories else (translate r.2 r.1).toList ++ s.directories⟩
  | switch pd => some ⟨{ s.machine with cr3 := pd }, s.directories⟩

end MemoryCall

/-- One call. -/
def MemoryStep (L : Layout) (fuel : ℕ) (s s' : MemoryState) : Prop :=
  ∃ c : MemoryCall, c.Valid s ∧ c.run L fuel s = some s'

/-! ## The call of `VirtualAllocate` in `memoryAllocate` -/

/-- The machine `memoryAllocate` calls `VirtualAllocate` on. -/
def framesAllocated (m : Machine) (size : ℕ) : Machine :=
  (m.atomicEnable.physicalAllocate (pagesFor size)).2

/-- The frames it asks it to map. -/
def allocatedAddress (m : Machine) (size : ℕ) : ℕ :=
  (m.atomicEnable.physicalAllocate (pagesFor size)).1

/-- The address the search of `VirtualAllocate` comes to. -/
def foundAddress (fuel : ℕ) (m : Machine) (pd numPages : ℕ) (user : Bool) : Option (Option ℕ) :=
  searchRange m pd (searchEnd user) numPages fuel (searchStart user) (searchStart user) 0

/-- The search only stops at a run of absent pages, even if it went round the end of the
address space. -/
theorem searchRange_absent {m : Machine} {pd bound n : ℕ} (fuel : ℕ) : ∀ {va start idx a : ℕ},
    va = (start + idx * pageSize) % 2 ^ 32 →
    (∀ i < idx, pagePresent m pd ((pageOf start + i) % 2 ^ 20) = false) →
    searchRange m pd bound n fuel va start idx = some (some a) →
    ∀ p, InRun (pageOf a) n p → pagePresent m pd p = false := by
  induction fuel with
  | zero => intro va start idx a _ _ h; cases h
  | succ fuel ih =>
    intro va start idx a hva habs h
    rw [searchRange] at h
    split at h
    · by_cases hp : isPagePresent m pd va = true
      · rw [if_pos hp] at h
        exact ih (by rw [Nat.zero_mul, Nat.add_zero, Nat.mod_mod]) (fun i hi => by omega) h
      · rw [if_neg hp] at h
        have hpage : pageOf va = (pageOf start + idx) % 2 ^ 20 := by
          rw [hva, pageOf_mod, pageOf_add_mul]
        have habs' : ∀ i < idx + 1, pagePresent m pd ((pageOf start + i) % 2 ^ 20) = false := by
          intro i hi
          by_cases hlast : i = idx
          · rw [hlast, ← hpage, ← isPagePresent_eq]
            simpa using hp
          · exact habs i (by omega)
        split at h
        · rename_i hn
          obtain rfl := Option.some.inj (Option.some.inj h)
          rintro p ⟨i, hi, rfl⟩
          exact habs' i (by omega)
        · refine ih ?_ habs' h
          rw [hva, Nat.mod_add_mod, Nat.add_mul, Nat.one_mul, Nat.add_assoc]
    · cases h

/-- All that `VirtualAllocate` can do. -/
theorem virtualAllocate_cases {fuel : ℕ} {m m' : Machine} {pd pa n a : ℕ} {user : Bool}
    (h : virtualAllocate fuel m pd pa n user = some (a, m')) :
    (a = 0 ∧ m' = m) ∨
      (foundAddress fuel m pd n user = some (some a) ∧
        virtualMap fuel m pd a pa n user = some m' ∧
        ∀ p, InRun (pageOf a) n p → pagePresent m pd p = false) := by
  rw [virtualAllocate, ← foundAddress] at h
  cases hfound : foundAddress fuel m pd n user with
  | none =>
    rw [hfound] at h
    cases h
  | some r =>
    rw [hfound, Option.bind_some] at h
    cases r with
    | none =>
      left
      obtain ⟨rfl, rfl⟩ := Prod.mk.inj (Option.some.inj h)
      exact ⟨rfl, rfl⟩
    | some va =>
      right
      simp only [Option.map_eq_some_iff, Prod.mk.injEq] at h
      obtain ⟨m'', hmap, rfl, rfl⟩ := h
      refine ⟨rfl, hmap, searchRange_absent fuel ?_ (fun i hi => by omega) hfound⟩
      rw [Nat.zero_mul, Nat.add_zero]
      cases user <;> decide

/-! ## The roles of frames -/

/-- Slot `s` above the kernel's names the table in frame `t`. -/
def UserTable (m : Machine) (pd s t : ℕ) : Prop :=
  256 ≤ s ∧ s < 1024 ∧ slotPresent m pd s = true ∧ tableOf m pd s = t

/-- A frame that holds a directory or a page table. -/
def Structural (L : Layout) (s : MemoryState) (f : ℕ) : Prop :=
  f ∈ s.directories ∨ L.Own f ∨ ∃ pd ∈ s.directories, ∃ i, UserTable s.machine pd i f

/-- Every directory has the kernel's entries, no directory is a table, and apart from frame 0
directories and tables are in frames that are in use. -/
structure DirectoryRoles (L : Layout) (s : MemoryState) : Prop where
  kernel : ∀ pd ∈ s.directories, HoldsKernelEntries L s.machine pd
  used : ∀ f, f ≠ 0 → Structural L s f → s.machine.used f = true
  ne_zero : ∀ pd ∈ s.directories, pd ≠ 0
  not_kernelTable : ∀ pd ∈ s.directories, ∀ i < 256, L.kernelPageTable + i ≠ pd
  not_directory : ∀ pd ∈ s.directories, ∀ i t, UserTable s.machine pd i t → t ∉ s.directories

section

variable {L : Layout} {D : List ℕ} {m m' : Machine} {pd : ℕ}

theorem UserTable.congr {i t : ℕ} (h : UserTable m' pd i t)
    (hram : m'.ram pd i = m.ram pd i) : UserTable m pd i t := by
  obtain ⟨h1, h2, h3, h4⟩ := h
  rw [slotPresent, hram] at h3
  rw [tableOf, hram] at h4
  exact ⟨h1, h2, h3, h4⟩

theorem DirectoryRoles.directory_used (h : DirectoryRoles L ⟨m, D⟩) (hpd : pd ∈ D) :
    m.used pd = true :=
  h.used pd (h.ne_zero pd hpd) (Or.inl hpd)

/-- No table of a directory is a directory. -/
theorem DirectoryRoles.table_ne (h : DirectoryRoles L ⟨m, D⟩) (hpd : pd ∈ D) {pd' i : ℕ}
    (hpd' : pd' ∈ D) (hi : i < 1024) (hp : slotPresent m pd i = true) :
    tableOf m pd i ≠ pd' := by
  by_cases hlt : i < 256
  · rw [(h.kernel pd hpd i hlt).2]
    exact h.not_kernelTable pd' hpd' i hlt
  · rintro rfl
    exact h.not_directory pd hpd i _ ⟨by omega, hi, hp, rfl⟩ hpd'

theorem DirectoryRoles.ownFrame (h : DirectoryRoles L ⟨m, D⟩) (hpd : pd ∈ D) : OwnFrame m pd :=
  ⟨h.ne_zero pd hpd, h.directory_used hpd, (h.kernel pd hpd 0 (by omega)).1,
    fun _ hi hp => h.table_ne hpd hpd hi hp⟩

/-- The kernel's pages are the same in all directories. -/
theorem DirectoryRoles.pageEntry_shared (h : DirectoryRoles L ⟨m, D⟩) {pd' q : ℕ} (hpd : pd ∈ D)
    (hpd' : pd' ∈ D) (hq : q < kernelPages) : pageEntry m pd q = pageEntry m pd' q := by
  rw [kernelPages] at hq
  rw [pageEntry, pageEntry, (h.kernel pd hpd _ (by omega)).2, (h.kernel pd' hpd' _ (by omega)).2]

theorem HoldsKernelEntries.congr (h : HoldsKernelEntries L m pd)
    (hram : ∀ i < 256, m'.ram pd i = m.ram pd i) : HoldsKernelEntries L m' pd := by
  intro i hi
  have hold := h i hi
  rw [slotPresent, tableOf] at *
  rw [hram i hi]
  exact hold

/-- A step that leaves the directories alone and frees none of their frames. -/
theorem DirectoryRoles.of_ram (h : DirectoryRoles L ⟨m, D⟩)
    (hram : ∀ pd ∈ D, ∀ i, m'.ram pd i = m.ram pd i)
    (hused : ∀ f, f ≠ 0 → Structural L ⟨m, D⟩ f → m'.used f = true) :
    DirectoryRoles L ⟨m', D⟩ := by
  have hold : ∀ {pd i t}, pd ∈ D → UserTable m' pd i t → UserTable m pd i t :=
    fun hpd ht => ht.congr (hram _ hpd _)
  refine ⟨fun pd hpd => (h.kernel pd hpd).congr fun i _ => hram pd hpd i, ?_, h.ne_zero,
    h.not_kernelTable, fun pd hpd i t ht => h.not_directory pd hpd i t (hold hpd ht)⟩
  rintro f hf0 (hf | hf | ⟨pd, hpd, i, ht⟩)
  · exact hused f hf0 (Or.inl hf)
  · exact hused f hf0 (Or.inr (Or.inl hf))
  · exact hused f hf0 (Or.inr (Or.inr ⟨pd, hpd, i, hold hpd ht⟩))

/-! ## Mapping -/

section

variable {A : List (ℕ × ℕ)} {mapped target : ℕ → Prop}

/-- A frame dealt for a table is none of the frames in use. -/
theorem Dealt.frame_fresh (h : Dealt m m' pd A mapped target) {t : ℕ}
    (ht : t ∈ A.map Prod.snd) (h0 : t ≠ 0) : m.used t = false := by
  rw [h.frames] at ht
  exact (mem_freeFrames.mp ((mem_dealtFrames ht).resolve_left h0)).2

theorem Dealt.frame_not_directory (h : Dealt m m' pd A mapped target)
    (hinv : DirectoryRoles L ⟨m, D⟩) {t : ℕ} (ht : t ∈ A.map Prod.snd) : t ∉ D := by
  intro hD
  have hfree := h.frame_fresh ht (hinv.ne_zero t hD)
  rw [hinv.directory_used hD] at hfree
  exact Bool.false_ne_true hfree.symm

/-- Mapping in one directory does not touch the others. -/
theorem Dealt.ram_other (h : Dealt m m' pd A mapped target) (hinv : DirectoryRoles L ⟨m, D⟩)
    (hpd : pd ∈ D) {pd' : ℕ} (hpd' : pd' ∈ D) (hne : pd' ≠ pd) (i : ℕ) :
    m'.ram pd' i = m.ram pd' i := by
  rcases h.other pd' hne i with heq | ⟨-, w, hlt, -, -, ⟨hs, ht⟩ | hmem⟩
  · exact heq
  · exact absurd ht (hinv.table_ne hpd hpd' (by omega) hs)
  · exact absurd hpd' (h.frame_not_directory hinv (List.mem_map.mpr ⟨_, hmem, rfl⟩))

/-- Nor does it touch the kernel's entries of its own. -/
theorem Dealt.ram_kernelSlot (h : Dealt m m' pd A mapped target)
    (hinv : DirectoryRoles L ⟨m, D⟩) (hpd : pd ∈ D) {pd' : ℕ} (hpd' : pd' ∈ D) {i : ℕ}
    (hi : i < 256) : m'.ram pd' i = m.ram pd' i := by
  by_cases he : pd' = pd
  · subst he
    exact h.keep_slot (hinv.kernel pd' hpd i hi).1
  · exact h.ram_other hinv hpd hpd' he i

/-- A table after the call is one from before, or a frame it was dealt. -/
theorem Dealt.userTable_cases (h : Dealt m m' pd A mapped target)
    (hinv : DirectoryRoles L ⟨m, D⟩) (hpd : pd ∈ D) {pd₁ i t : ℕ} (hpd₁ : pd₁ ∈ D)
    (ht : UserTable m' pd₁ i t) : UserTable m pd₁ i t ∨ (pd₁ = pd ∧ (i, t) ∈ A) := by
  by_cases he : pd₁ = pd
  · subst he
    obtain ⟨h1, h2, h3, h4⟩ := ht
    exact (h.table_cases h3 h4).imp (fun hold => ⟨h1, h2, hold.1, hold.2⟩) fun hmem => ⟨rfl, hmem⟩
  · exact Or.inl (ht.congr (h.ram_other hinv hpd hpd₁ he i))

theorem Dealt.roles (h : Dealt m m' pd A mapped target) (hinv : DirectoryRoles L ⟨m, D⟩)
    (hpd : pd ∈ D) : DirectoryRoles L ⟨m', D⟩ := by
  have hgrow : ∀ f, m.used f = true → m'.used f = true := fun f hf => (h.used f).mpr (Or.inl hf)
  refine ⟨fun pd₁ hpd₁ => (hinv.kernel pd₁ hpd₁).congr fun i hi =>
    h.ram_kernelSlot hinv hpd hpd₁ hi, ?_, hinv.ne_zero, hinv.not_kernelTable, ?_⟩
  · rintro f hf0 (hf | hf | ⟨pd₁, hpd₁, i, ht⟩)
    · exact hgrow f (hinv.used f hf0 (Or.inl hf))
    · exact hgrow f (hinv.used f hf0 (Or.inr (Or.inl hf)))
    · rcases h.userTable_cases hinv hpd hpd₁ ht with hold | ⟨-, hmem⟩
      · exact hgrow f (hinv.used f hf0 (Or.inr (Or.inr ⟨pd₁, hpd₁, i, hold⟩)))
      · exact (h.used f).mpr (Or.inr (List.mem_map.mpr ⟨_, hmem, rfl⟩))
  · intro pd₁ hpd₁ i t ht
    rcases h.userTable_cases hinv hpd hpd₁ ht with hold | ⟨-, hmem⟩
    · exact hinv.not_directory pd₁ hpd₁ i t hold
    · exact h.frame_not_directory hinv (List.mem_map.mpr ⟨_, hmem, rfl⟩)

end

theorem FramesTaken.roles {m₁ : Machine} {f n : ℕ} (htaken : FramesTaken m m₁ f n)
    (h : DirectoryRoles L ⟨m, D⟩) : DirectoryRoles L ⟨m₁, D⟩ :=
  h.of_ram (fun _ _ _ => by rw [htaken.ram]) fun g hg0 hg =>
    (htaken.used g).mpr (Or.inl (h.used g hg0 hg))

/-! ## `memoryAllocate` -/

/-- Clearing a frame other than the directory makes no page present and remaps none. -/
theorem pagePresent_zeroFrame {f q : ℕ} (hne : pd ≠ f)
    (hp : pagePresent (m.zeroFrame f) pd q = true) :
    pagePresent m pd q = true ∧ pageEntry (m.zeroFrame f) pd q = pageEntry m pd q := by
  have hslot : slotPresent (m.zeroFrame f) pd (q / 1024) = slotPresent m pd (q / 1024) := by
    simp only [slotPresent, Machine.zeroFrame, if_neg hne]
  have htable : tableOf (m.zeroFrame f) pd (q / 1024) = tableOf m pd (q / 1024) := by
    simp only [tableOf, Machine.zeroFrame, if_neg hne]
  have hentry : pageEntry (m.zeroFrame f) pd q
      = if tableOf m pd (q / 1024) = f then 0 else pageEntry m pd q := by
    rw [pageEntry, htable]
    rfl
  rw [pagePresent, hslot, hentry] at hp
  by_cases ht : tableOf m pd (q / 1024) = f
  · rw [if_pos ht, Entry.present_zero, Bool.and_false] at hp
    exact absurd hp Bool.false_ne_true
  · rw [if_neg ht] at hp hentry
    exact ⟨hp, hentry⟩

/-- `memset` over pages that, as far as they are present, are mapped to `Fresh` frames
clears only such frames. Clearing a frame that is a table can only make pages absent. -/
theorem memset_fresh {Fresh : ℕ → Prop} (n : ℕ) : ∀ {m m' : Machine} {va : ℕ},
    ¬ Fresh m.cr3 →
    (∀ q, InRun (pageOf va) n q → pagePresent m m.cr3 q = true →
      Fresh (Entry.pageFrameNumber (pageEntry m m.cr3 q))) →
    memset n m va = some m' →
    (∀ g i, ¬ Fresh g → m'.ram g i = m.ram g i) ∧ m'.memManData = m.memManData ∧
      m'.cr3 = m.cr3 := by
  induction n with
  | zero =>
    intro m m' va _ _ h
    obtain rfl := Option.some.inj h
    exact ⟨fun _ _ _ => rfl, rfl, rfl⟩
  | succ n ih =>
    intro m m' va hcr3 hfresh h
    rw [memset, Option.bind_eq_some_iff] at h
    obtain ⟨frame, htrans, hrest⟩ := h
    rw [translate, isPagePresent_eq, getPageTableEntry_eq] at htrans
    split at htrans
    · -- the frame cleared is a fresh one, so it is not the directory that translates
      rename_i hp
      obtain rfl := Option.some.inj htrans
      have hrun : InRun (pageOf va) (n + 1) (pageOf va) := by
        have := pageOf_lt va
        exact ⟨0, by omega, by omega⟩
      have hframe := hfresh _ hrun hp
      set frame := Entry.pageFrameNumber (pageEntry m m.cr3 (pageOf va))
      have hram : ∀ g i, ¬ Fresh g → (m.zeroFrame frame).ram g i = m.ram g i := by
        intro g i hg
        have hne : g ≠ frame := by
          rintro rfl
          exact hg hframe
        simp only [Machine.zeroFrame, if_neg hne]
      have hne : m.cr3 ≠ frame := by
        intro he
        exact hcr3 (he ▸ hframe)
      obtain ⟨hram', hdata, hcr3'⟩ := ih (m := m.zeroFrame frame) hcr3 (by
        intro q hq hpres
        have hq' : InRun (pageOf va) (n + 1) q := by
          rw [pageOf_next] at hq
          rw [inRun_succ_left (pageOf_lt va)]
          exact Or.inr hq
        obtain ⟨hold, hentry⟩ := pagePresent_zeroFrame hne hpres
        have hmapped := hfresh q hq' hold
        rw [← hentry] at hmapped
        exact hmapped) hrest
      refine ⟨?_, hdata, hcr3'⟩
      intro g i hg
      rw [hram' g i hg, hram g i hg]
    · cases htrans

theorem memoryAllocate_eq (fuel : ℕ) (m : Machine) (pd size : ℕ) (user : Bool) :
    memoryAllocate fuel m pd size user =
      if 0 < allocatedAddress m size then
        (virtualAllocate fuel (framesAllocated m size) pd (allocatedAddress m size) (pagesFor size)
          user).bind fun (virtualAddress, m') =>
            if virtualAddress = 0 then
              some (0, (m'.physicalFree (allocatedAddress m size) (pagesFor size)).atomicDisable)
            else
              (memset (pagesFor size) m'.atomicDisable virtualAddress).map fun m' =>
                (virtualAddress, m')
      else some (0, framesAllocated m size) := rfl

/-- All that `memoryAllocate` can do: fail before it maps anything, or take the frames from
frame `f` on and map them. -/
theorem memoryAllocate_cases {fuel size a : ℕ} {user : Bool}
    (h : memoryAllocate fuel m pd size user = some (a, m')) :
    (a = 0 ∧ m'.ram = m.ram ∧ m'.cr3 = m.cr3 ∧ ∀ f, m.used f = true → m'.used f = true) ∨
    ∃ f va m₂, f < 2 ^ 20 ∧ FramesTaken m (framesAllocated m size) f (pagesFor size) ∧
      f * pageSize = allocatedAddress m size ∧ 0 < f ∧
      foundAddress fuel (framesAllocated m size) pd (pagesFor size) user = some (some va) ∧
      virtualMap fuel (framesAllocated m size) pd va (f * pageSize) (pagesFor size) user
        = some m₂ ∧
      ((a = 0 ∧ m' = (m₂.physicalFree (f * pageSize) (pagesFor size)).atomicDisable) ∨
        (a = va ∧ a ≠ 0 ∧ memset (pagesFor size) m₂.atomicDisable va = some m')) := by
  rw [memoryAllocate_eq] at h
  set n := pagesFor size with hn
  rcases physicalAllocate_cases m.atomicEnable.memManData n with
    ⟨f, hf, hfree, -, halloc⟩ | ⟨-, halloc⟩
  · have hf20 : f < 2 ^ 20 := Nat.lt_trans hf (totalMemory_div_lt _)
    have htaken : FramesTaken m (framesAllocated m size) f n := by
      have := framesTaken_physicalAllocateAt (m := m) hf20 hfree
      rw [framesAllocated, ← hn, Machine.physicalAllocate, halloc]
      exact this
    have haddr : allocatedAddress m size = f * pageSize := by
      rw [allocatedAddress, ← hn, Machine.physicalAllocate, halloc]
    rw [haddr] at h
    have hgrow : ∀ q, m.used q = true → (framesAllocated m size).used q = true :=
      fun q hq => (htaken.used q).mpr (Or.inl hq)
    by_cases hpos : 0 < f * pageSize
    · -- frames at a positive address: `VirtualAllocate` decides
      rw [if_pos hpos, Option.bind_eq_some_iff] at h
      obtain ⟨⟨va, m₂⟩, hva, hrest⟩ := h
      have hfpos : 0 < f := by
        rw [pageSize] at hpos
        omega
      rcases virtualAllocate_cases hva with ⟨rfl, rfl⟩ | ⟨hfound, hmap, -⟩
      · left
        simp only [if_true] at hrest
        obtain ⟨rfl, rfl⟩ := Prod.mk.inj (Option.some.inj hrest)
        exact ⟨rfl, htaken.ram, htaken.cr3, fun q hq => (htaken.used_giveBack hf20 q).trans hq⟩
      · right
        refine ⟨f, va, m₂, hf20, htaken, haddr.symm, hfpos, hfound, hmap, ?_⟩
        by_cases hzero : va = 0
        · simp only [hzero, if_true] at hrest
          obtain ⟨rfl, rfl⟩ := Prod.mk.inj (Option.some.inj hrest)
          exact Or.inl ⟨rfl, rfl⟩
        · simp only [if_neg hzero, Option.map_eq_some_iff, Prod.mk.injEq] at hrest
          obtain ⟨m'', hset, rfl, rfl⟩ := hrest
          exact Or.inr ⟨rfl, hzero, hset⟩
    · -- frames at address 0, which is taken for a failure: they stay reserved
      rw [if_neg hpos] at h
      obtain ⟨rfl, rfl⟩ := Prod.mk.inj (Option.some.inj h)
      exact Or.inl ⟨rfl, htaken.ram, htaken.cr3, hgrow⟩
  · have haddr : allocatedAddress m size = 0 := by
      rw [allocatedAddress, ← hn, Machine.physicalAllocate, halloc]
    rw [haddr, if_neg (Nat.lt_irrefl 0)] at h
    obtain ⟨rfl, rfl⟩ := Prod.mk.inj (Option.some.inj h)
    left
    refine ⟨rfl, rfl, rfl, ?_⟩
    intro q hq
    rw [framesAllocated, ← hn, Machine.physicalAllocate, halloc]
    exact hq

/-- The search for the kernel stays in the GiB, above the first MiB. -/
theorem foundAddress_kernel {fuel n a : ℕ} (hfuel : 2 ^ 20 < fuel)
    (h : foundAddress fuel m pd n false = some (some a)) :
    ∃ k, a = k * pageSize ∧ 256 ≤ k ∧ k + n ≤ kernelPages := by
  obtain ⟨r, hr, hfound⟩ := searchRange_below (m := m) (n := n)
    (M := kernelPages) (by decide) fuel (show 256 + 0 ≤ kernelPages by decide)
    (by rw [kernelPages]; omega) (by intro p h1 h2; omega)
  have hstart : searchStart false = (256 + 0) * pageSize := by decide
  have hend : searchEnd false = kernelPages * pageSize := by decide
  rw [foundAddress, hstart, hend, hr] at h
  obtain ⟨k, hk, h1, h2, -⟩ := hfound a (Option.some.inj h)
  exact ⟨k, hk, h1, h2⟩

/-! ## `memoryFree` -/

theorem used_physicalAllocate {d : MemoryManagerData} {n p : ℕ} (hp : d.used p = true) :
    (physicalAllocate d n).2.used p = true := by
  rcases physicalAllocate_cases d n with ⟨k, -, -, -, h⟩ | ⟨-, h⟩
  · rw [h]
    exact (used_physicalAllocateAt d _ n p).mpr (Or.inl hp)
  · rw [h]
    exact hp

/-- `VirtualFree` of a page clears its entry, or does nothing when the page is the last. -/
theorem virtualFree_cases (m : Machine) (pd va : ℕ) :
    virtualFree m pd va 1 = m ∨
      virtualFree m pd va 1
        = m.store (tableOf m pd (pageOf va / 1024)) (pageOf va % 1024) 0 := by
  have hcount : ((va + 1 * pageSize) % 2 ^ 32 - va) / pageSize = 0 ∨
      ((va + 1 * pageSize) % 2 ^ 32 - va) / pageSize = 1 := by
    rw [pageSize]
    omega
  rcases hcount with hcount | hcount
  · left
    simp only [virtualFree, hcount, List.range_zero, List.foldl_nil]
  · right
    simp only [virtualFree, hcount, List.range_one, List.foldl_cons, List.foldl_nil, Nat.zero_mul,
      Nat.add_zero, getPageTable_eq, pageTableIndex_eq]

/-- Clearing a table entry makes no page present and remaps none. -/
theorem pagePresent_clear {t i q : ℕ} (hne : t ≠ pd)
    (hp : pagePresent (m.store t i 0) pd q = true) :
    pagePresent m pd q = true ∧ pageEntry (m.store t i 0) pd q = pageEntry m pd q := by
  have hram : (m.store t i 0).ram pd (q / 1024) = m.ram pd (q / 1024) :=
    Machine.ram_store_of_ne m 0 fun h => hne h.1.symm
  have hslot : slotPresent (m.store t i 0) pd (q / 1024) = slotPresent m pd (q / 1024) := by
    rw [slotPresent, hram, slotPresent]
  have hentry : pageEntry (m.store t i 0) pd q
      = if tableOf m pd (q / 1024) = t ∧ q % 1024 = i then 0 else pageEntry m pd q := by
    rw [pageEntry, tableOf, hram]
    rfl
  rw [pagePresent, hslot, hentry] at hp
  by_cases hw : tableOf m pd (q / 1024) = t ∧ q % 1024 = i
  · rw [if_pos hw, Entry.present_zero, Bool.and_false] at hp
    exact absurd hp Bool.false_ne_true
  · rw [if_neg hw] at hp hentry
    exact ⟨hp, hentry⟩

/-- `m'` is `m` with some pages of `pd` unmapped and some frames freed, none of those in
`keep`. -/
structure Unmapped (keep : ℕ → Prop) (D : List ℕ) (pd : ℕ) (m m' : Machine) : Prop where
  ram : ∀ pd₁ ∈ D, ∀ i, m'.ram pd₁ i = m.ram pd₁ i
  used : ∀ f, keep f → m'.used f = true
  cr3 : m'.cr3 = m.cr3
  page : ∀ q, pagePresent m' pd q = true →
    pagePresent m pd q = true ∧ pageEntry m' pd q = pageEntry m pd q

theorem Unmapped.freeVirtualPage {keep : ℕ → Prop} {va : ℕ} (hpd : pd ∈ D)
    (htables : ∀ pd₁ ∈ D, ∀ i < 1024, slotPresent m pd i = true → tableOf m pd i ≠ pd₁)
    (hu : Unmapped keep D pd m m')
    (hsafe : pagePresent m pd (pageOf va) = true →
      ¬ keep (Entry.pageFrameNumber (pageEntry m pd (pageOf va)))) :
    Unmapped keep D pd m (freeVirtualPage m' pd va) := by
  rw [MemoryManager.freeVirtualPage, isPagePresent_eq]
  by_cases hp : pagePresent m' pd (pageOf va) = true
  · rw [if_pos hp]
    obtain ⟨hold, hentry⟩ := hu.page _ hp
    set frame := Entry.pageFrameNumber (pageEntry m pd (pageOf va)) with hframe
    set m₁ := m'.physicalFree (getPhysicalAddress m' pd va) 1 with hm₁
    have haddr : pageOf (getPhysicalAddress m' pd va) = frame := by
      have hlt := Entry.pageFrameNumber_lt (pageEntry m pd (pageOf va))
      rw [← hframe] at hlt
      rw [getPhysicalAddress, getPageTableEntry_eq, hentry, ← hframe, pageOf]
      rw [pageSize]
      omega
    -- first the frame is freed: it is none of those to keep
    have hu₁ : Unmapped keep D pd m m₁ := by
      refine ⟨hu.ram, ?_, hu.cr3, hu.page⟩
      intro f hf
      rw [hm₁, used_machine_physicalFree, haddr]
      refine ⟨hu.used f hf, ?_⟩
      rintro ⟨i, hi, rfl⟩
      have hlt := Entry.pageFrameNumber_lt (pageEntry m pd (pageOf va))
      rw [← hframe] at hlt
      rw [show (frame + i) % 2 ^ 20 = frame by omega] at hf
      exact hsafe hold hf
    -- then the entry is cleared, in a table that is no directory
    rcases virtualFree_cases m₁ pd va with heq | heq
    · rw [heq]
      exact hu₁
    · rw [heq]
      have htable : tableOf m₁ pd (pageOf va / 1024) = tableOf m pd (pageOf va / 1024) := by
        rw [tableOf, hu₁.ram pd hpd, ← tableOf]
      have hslot : slotPresent m pd (pageOf va / 1024) = true := by
        rw [pagePresent, Bool.and_eq_true] at hold
        exact hold.1
      have hlt := pageOf_lt va
      have hne : ∀ pd₁ ∈ D, tableOf m₁ pd (pageOf va / 1024) ≠ pd₁ := by
        intro pd₁ hpd₁
        rw [htable]
        exact htables pd₁ hpd₁ _ (by omega) hslot
      refine ⟨?_, hu₁.used, hu₁.cr3, ?_⟩
      · intro pd₁ hpd₁ i
        rw [← hu₁.ram pd₁ hpd₁ i]
        exact Machine.ram_store_of_ne m₁ 0 fun he => hne pd₁ hpd₁ he.1.symm
      · intro q hq
        obtain ⟨hq₁, he₁⟩ := pagePresent_clear (hne pd hpd) hq
        obtain ⟨hq₂, he₂⟩ := hu₁.page q hq₁
        exact ⟨hq₂, he₁.trans he₂⟩
  · rw [if_neg hp]
    exact hu

/-- `memoryFree` of pages none of which is mapped to a frame in `keep`. -/
theorem unmapped_memoryFree {keep : ℕ → Prop} {a size : ℕ} (hpd : pd ∈ D)
    (htables : ∀ pd₁ ∈ D, ∀ i < 1024, slotPresent m pd i = true → tableOf m pd i ≠ pd₁)
    (hused : ∀ f, keep f → m.used f = true)
    (hsafe : ∀ i < size / pageSize, pagePresent m pd (pageOf (a + i * pageSize)) = true →
      ¬ keep (Entry.pageFrameNumber (pageEntry m pd (pageOf (a + i * pageSize))))) :
    Unmapped keep D pd m (memoryFree m pd a size) := by
  have hloop : ∀ n ≤ size / pageSize, Unmapped keep D pd m ((List.range n).foldl
      (fun m i => freeVirtualPage m pd ((a + i * pageSize) % 2 ^ 32)) m.atomicEnable) := by
    intro n
    induction n with
    | zero => intro _; exact ⟨fun _ _ _ => rfl, hused, rfl, fun _ hq => ⟨hq, rfl⟩⟩
    | succ n ih =>
      intro hn
      rw [List.range_succ, List.foldl_append, List.foldl_cons, List.foldl_nil]
      refine (ih (by omega)).freeVirtualPage hpd htables ?_
      rw [pageOf_mod]
      exact hsafe n (by omega)
  have hend := hloop _ (Nat.le_refl _)
  exact ⟨hend.ram, hend.used, hend.cr3, hend.page⟩

/-! ## `createUserPageDirectory` -/

/-- Pages whose slots are present need no tables. -/
theorem dealPages_present {present : ℕ → Bool} {frames : List ℕ} (n : ℕ) : ∀ {p : ℕ}, p < 2 ^ 20 →
    (∀ q, InRun p n q → present (q / 1024) = true) → dealPages present frames n p = [] := by
  induction n with
  | zero => intro p _ _; rfl
  | succ n ih =>
    intro p hp hall
    have hdeal : deal present frames p = [] := by
      have hpres := hall p ((inRun_succ_left hp).mpr (Or.inl rfl))
      cases frames <;> rw [deal, if_pos hpres]
    rw [dealPages, hdeal]
    simp only [List.lookup_nil, Option.isSome_none, Bool.or_false, List.length_nil, List.drop_zero,
      List.nil_append]
    exact ih (by omega) fun q hq => hall q ((inRun_succ_left hp).mpr (Or.inr hq))

theorem callDeal_kernel {k n : ℕ} (h : HoldsKernelEntries L m pd) (hle : k + n ≤ kernelPages) :
    callDeal m pd (k * pageSize) n = [] := by
  rw [kernelPages] at hle
  rw [callDeal, pageOf_mul_of_lt (by omega)]
  apply dealPages_present n (by omega)
  intro q hq
  rw [inRun_iff (by omega)] at hq
  exact (h _ (by omega)).1

/-- The page `createUserPageDirectory` allocates: frame `f`, which was free, cleared. -/
structure DirectoryPage (m m₁ : Machine) (D : List ℕ) (a f : ℕ) : Prop where
  lt : f < 2 ^ 20
  ne_zero : f ≠ 0
  unused : m.used f = false
  used : m₁.used f = true
  zero : ∀ i, m₁.ram f i = 0
  ram : ∀ pd ∈ D, ∀ i, m₁.ram pd i = m.ram pd i
  cr3 : m₁.cr3 = m.cr3
  page : pageOf a < kernelPages
  frame : translate m₁ a = some f

theorem memoryAllocate_directoryPage {fuel a : ℕ} (h : DirectoryRoles L ⟨m, D⟩)
    (hmem : m.cr3 ∈ D) (hfuel : 2 ^ 20 < fuel) (ha : a ≠ 0) {m₁ : Machine}
    (halloc : memoryAllocate fuel m m.cr3 pageSize false = some (a, m₁)) :
    ∃ f, DirectoryPage m m₁ D a f := by
  have hone : pagesFor pageSize = 1 := by decide
  rcases memoryAllocate_cases halloc with
    ⟨hzero, -⟩ | ⟨f, va, m₂, hf, htaken, -, hfpos, hfound, hmap, ⟨hzero, -⟩ | ⟨rfl, -, hset⟩⟩
  · exact absurd hzero ha
  · exact absurd hzero ha
  rw [hone] at htaken hfound hmap hset
  obtain ⟨k, rfl, -, hle⟩ := foundAddress_kernel hfuel hfound
  have hk : k < kernelPages := by omega
  have hpage : pageOf (k * pageSize) = k := by
    rw [kernelPages] at hk
    exact pageOf_mul_of_lt (by omega)
  have h₁ := htaken.roles h
  set m₀ := framesAllocated m pageSize
  obtain ⟨m₂', hm₂', -, hdealt⟩ := virtualMap_dealt (k * pageSize) (f * pageSize) 1 false
    (h₁.ownFrame hmem) hfuel
  obtain rfl := Option.some.inj (hmap.symm.trans hm₂')
  rw [callDeal_kernel (h₁.kernel _ hmem) hle, hpage, pageOf_mul_of_lt hf] at hdealt
  have h₂ := hdealt.roles h₁ hmem
  have hunused : m.used f = false := htaken.free f ⟨0, by omega, by omega⟩
  have hclash : ∀ {g}, Structural L ⟨m, D⟩ g → g ≠ f := by
    rintro g hg rfl
    rw [h.used g (by omega) hg] at hunused
    exact Bool.false_ne_true hunused.symm
  have hcr3 : m₂.cr3 = m.cr3 := hdealt.cr3.trans htaken.cr3
  -- the page is mapped to `f`, and `memset` clears that frame
  obtain ⟨-, hslot, hpres, hto⟩ := hdealt.maps k ⟨0, by omega, by rw [kernelPages] at hk; omega⟩
  have hframe : Entry.pageFrameNumber (pageEntry m₂ m.cr3 k) = f := by
    rcases hto with ⟨i, hi, hfr⟩ | hmem
    · rw [hfr]
      omega
    · simp at hmem
  have hpk : pagePresent m₂ m.cr3 k = true := by
    rw [pagePresent, hslot, hpres]
    rfl
  have htrans : translate m₂.atomicDisable (k * pageSize) = some f := by
    rw [translate, isPagePresent_eq, getPageTableEntry_eq, hpage,
      show m₂.atomicDisable.cr3 = m.cr3 from hcr3]
    exact (if_pos hpk).trans (congrArg some hframe)
  rw [memset, htrans, Option.bind_some, memset] at hset
  obtain rfl := Option.some.inj hset
  have hne : m.cr3 ≠ f := hclash (Or.inl hmem)
  have htable : tableOf m₂ m.cr3 (k / 1024) ≠ f := by
    rw [(h₂.kernel _ hmem _ (by rw [kernelPages] at hk; omega)).2]
    exact hclash (Or.inr (Or.inl (L.own_table (by rw [kernelPages] at hk; omega))))
  refine ⟨f, hf, by omega, hunused, ?_, ?_, ?_, hcr3, by rw [hpage]; exact hk, ?_⟩
  · exact (hdealt.used f).mpr (Or.inl ((htaken.used f).mpr (Or.inr ⟨0, by omega, by omega⟩)))
  · intro i
    simp only [Machine.zeroFrame, if_true]
  · intro pd hpd i
    have hzero : (m₂.atomicDisable.zeroFrame f).ram pd i = m₂.ram pd i := by
      simp only [Machine.zeroFrame, if_neg (hclash (Or.inl hpd))]
      rfl
    rw [hzero, ← htaken.ram]
    by_cases he : pd = m.cr3
    · subst he
      exact hdealt.keep i rfl
    · exact hdealt.ram_other h₁ hmem hpd he i
  · have hslot' : (m₂.atomicDisable.zeroFrame f).ram m.cr3 (k / 1024) = m₂.ram m.cr3 (k / 1024) := by
      simp only [Machine.zeroFrame, if_neg hne]
      rfl
    have hentry : pageEntry (m₂.atomicDisable.zeroFrame f) m.cr3 k = pageEntry m₂ m.cr3 k := by
      rw [pageEntry, tableOf, hslot', ← tableOf]
      simp only [Machine.zeroFrame, if_neg htable]
      rfl
    have hpres' : pagePresent (m₂.atomicDisable.zeroFrame f) m.cr3 k = true := by
      rw [pagePresent, slotPresent, hslot', hentry]
      exact hpk
    rw [translate, isPagePresent_eq, getPageTableEntry_eq, hpage,
      show (m₂.atomicDisable.zeroFrame f).cr3 = m.cr3 from hcr3, if_pos hpres', hentry, hframe]

/-- With the kernel's entries filled in, the page is a directory like the others. -/
theorem DirectoryPage.roles {m₁ w : Machine} {a f : ℕ} (hpage : DirectoryPage m m₁ D a f)
    (h : DirectoryRoles L ⟨m, D⟩) (hmem : m.cr3 ∈ D) (h₁ : DirectoryRoles L ⟨m₁, D⟩)
    (hdata : w.memManData = m₁.memManData) (hcr3 : w.cr3 = m₁.cr3)
    (hwrite : ∀ g i, w.ram g i =
      if g = f ∧ i < 256 then kernelEntry (m₁.ram g i) (L.kernelPageTable + i) else m₁.ram g i) :
    translate w a = some f ∧ DirectoryRoles L ⟨w, f :: D⟩ ∧
      ∀ pd i t, pd ∈ f :: D → UserTable w pd i t → pd ∈ D ∧ UserTable m pd i t := by
  have hclash : ∀ {g}, g ≠ 0 → Structural L ⟨m, D⟩ g → g ≠ f := by
    intro g hg0 hg
    exact ne_of_used (h.used g hg0 hg) hpage.unused
  have hother : ∀ {pd}, pd ∈ D → pd ≠ f := fun hpd => hclash (h.ne_zero _ hpd) (Or.inl hpd)
  have htable : ∀ {i}, i < 256 → L.kernelPageTable + i ≠ f := by
    intro i hi
    refine hclash (fun h0 => L.not_own_zero ?_) (Or.inr (Or.inl (L.own_table hi)))
    rw [← h0]
    exact L.own_table hi
  have hram : ∀ g i, g ≠ f → w.ram g i = m₁.ram g i := by
    intro g i hg
    rw [hwrite, if_neg fun he => hg he.1]
  have hnew : ∀ i, w.ram f i = if i < 256 then kernelEntry 0 (L.kernelPageTable + i) else 0 := by
    intro i
    have heq := hwrite f i
    rw [hpage.zero i] at heq
    simpa using heq
  have hused : ∀ g, w.used g = m₁.used g := by
    intro g
    rw [Machine.used, hdata, ← Machine.used]
  -- a table after the call is one of an older directory, from before
  have hold : ∀ pd i t, pd ∈ f :: D → UserTable w pd i t → pd ∈ D ∧ UserTable m pd i t := by
    intro pd i t hpd ht
    rcases List.mem_cons.mp hpd with rfl | hpd
    · obtain ⟨hge, -, hpres, -⟩ := ht
      rw [slotPresent, hnew, if_neg (by omega), Entry.present_zero] at hpres
      exact absurd hpres Bool.false_ne_true
    · refine ⟨hpd, ht.congr ?_⟩
      rw [hram _ _ (hother hpd), hpage.ram _ hpd]
  refine ⟨?_, ⟨?_, ?_, ?_, ?_, ?_⟩, hold⟩
  · have hslot : w.ram w.cr3 (pageOf a / 1024) = m₁.ram m₁.cr3 (pageOf a / 1024) := by
      rw [hcr3, hram]
      rw [hpage.cr3]
      exact hother hmem
    have hlt : pageOf a / 1024 < 256 := by
      have := hpage.page
      rw [kernelPages] at this
      omega
    have hentry : pageEntry w w.cr3 (pageOf a) = pageEntry m₁ m₁.cr3 (pageOf a) := by
      rw [pageEntry, tableOf, hslot, ← tableOf, hram, ← pageEntry]
      rw [(h₁.kernel _ (hpage.cr3 ▸ hmem) _ hlt).2]
      exact htable hlt
    have hframe := hpage.frame
    rw [translate, isPagePresent_eq, getPageTableEntry_eq, pagePresent, slotPresent] at hframe ⊢
    rw [hslot, hentry]
    exact hframe
  · intro pd hpd
    rcases List.mem_cons.mp hpd with rfl | hpd
    · intro i hi
      have hentry := hnew i
      rw [if_pos hi] at hentry
      rw [slotPresent, tableOf, hentry, present_kernelEntry, pageFrameNumber_kernelEntry,
        Nat.mod_eq_of_lt (L.own_lt (L.own_table hi))]
      exact ⟨rfl, rfl⟩
    · exact (h₁.kernel pd hpd).congr fun i _ => hram _ _ (hother hpd)
  · rintro g hg0 (hg | hg | ⟨pd, hpd, i, ht⟩) <;> rw [hused]
    · rcases List.mem_cons.mp hg with rfl | hg
      · exact hpage.used
      · exact h₁.used g hg0 (Or.inl hg)
    · exact h₁.used g hg0 (Or.inr (Or.inl hg))
    · obtain ⟨hpd', ht'⟩ := hold pd i g hpd ht
      exact h₁.used g hg0 (Or.inr (Or.inr ⟨pd, hpd', i, ht'.congr (hpage.ram pd hpd' i).symm⟩))
  · intro pd hpd
    rcases List.mem_cons.mp hpd with rfl | hpd
    · exact hpage.ne_zero
    · exact h.ne_zero pd hpd
  · intro pd hpd i hi
    rcases List.mem_cons.mp hpd with rfl | hpd
    · exact htable hi
    · exact h.not_kernelTable pd hpd i hi
  · intro pd hpd i t ht hmem'
    obtain ⟨hpd', ht'⟩ := hold pd i t hpd ht
    rcases List.mem_cons.mp hmem' with rfl | hmem'
    · exact hclash hpage.ne_zero (Or.inr (Or.inr ⟨pd, hpd', i, ht'⟩)) rfl
    · exact h.not_directory pd hpd' i t ht' hmem'

end

end Sakura.MemoryManager
