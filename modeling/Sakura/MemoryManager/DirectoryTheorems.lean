import Sakura.MemoryManager.DirectoryRoles

/-!
# All directories

The kernel's tables are shared by all directories; the other tables each belong to one slot of
one directory (`DirectoriesInv`).

`VirtualAllocate` is meant to leave the pages that are there alone. It does not always: a
frame it takes for a table is mapped at its own address, whatever is mapped there already.
The calls of `SafeAllocate`, `SafeMap` and `SafeFree` are those where this does not happen,
where the frames last, where the memory is cleared in the address space it was mapped in,
and that free no directory and no table. They keep `DirectoriesInv`, for which it is enough
that the allocations are `LastingAllocate`.
-/

namespace Sakura.MemoryManager

open MemoryManagerData

/-! ## Safe allocation -/

/-- Every page that is present stays so, with the same table and the same entry. -/
def KeepsPages (m m' : Machine) (pd : ℕ) : Prop :=
  ∀ p < 2 ^ 20, pagePresent m pd p = true →
    pagePresent m' pd p = true ∧ pageEntry m' pd p = pageEntry m pd p ∧
      m'.ram pd (p / 1024) = m.ram pd (p / 1024)

/-- The frames last, and none of those taken for tables has its own page present. -/
def SafeDeal (m : Machine) (pd virtualAddress numPages : ℕ) : Prop :=
  (callDeal m pd virtualAddress numPages).length ≤ (freeFrames m.memManData).length ∧
    ∀ t ∈ (callDeal m pd virtualAddress numPages).map Prod.snd, pagePresent m pd t = false

/-- A call of `memoryAllocate` whose mapping does no harm, and whose memory is cleared in the
address space it is mapped in. -/
def SafeAllocate (fuel : ℕ) (m : Machine) (pd size : ℕ) (user : Bool) : Prop :=
  (user = false ∨ pd = m.cr3) ∧
    ∀ va, foundAddress fuel (framesAllocated m size) pd (pagesFor size) user = some (some va) →
      SafeDeal (framesAllocated m size) pd va (pagesFor size)

/-- A call of `memoryAllocate` for which the frames last, and whose memory is cleared in the
address space it is mapped in. -/
def LastingAllocate (fuel : ℕ) (m : Machine) (pd size : ℕ) (user : Bool) : Prop :=
  (user = false ∨ pd = m.cr3) ∧
    ∀ va, foundAddress fuel (framesAllocated m size) pd (pagesFor size) user = some (some va) →
      (callDeal (framesAllocated m size) pd va (pagesFor size)).length
        ≤ (freeFrames (framesAllocated m size).memManData).length

theorem SafeAllocate.lasting {fuel : ℕ} {m : Machine} {pd size : ℕ} {user : Bool}
    (h : SafeAllocate fuel m pd size user) : LastingAllocate fuel m pd size user :=
  ⟨h.1, fun va hfound => (h.2 va hfound).1⟩

/-- A page is kept unless it is mapped itself, or is the page of a dealt frame. -/
theorem Dealt.keepsPage {m m' : Machine} {pd : ℕ} {A : List (ℕ × ℕ)} {mapped target : ℕ → Prop}
    (h : Dealt m m' pd A mapped target) (hsep : SeparateTables m pd)
    (henough : A.length ≤ (freeFrames m.memManData).length) {p : ℕ} (hp : p < 2 ^ 20)
    (hpres : pagePresent m pd p = true) (hmapped : ¬ mapped p) (hdealt : p ∉ A.map Prod.snd) :
    pagePresent m' pd p = true ∧ pageEntry m' pd p = pageEntry m pd p ∧
      m'.ram pd (p / 1024) = m.ram pd (p / 1024) := by
  have hslot : slotPresent m pd (p / 1024) = true := by
    rw [pagePresent, Bool.and_eq_true] at hpres
    exact hpres.1
  have hkeep := h.keep_slot hslot
  have hword : m'.ram (tableOf m pd (p / 1024)) (p % 1024)
      = m.ram (tableOf m pd (p / 1024)) (p % 1024) := by
    rcases h.other _ (hsep.table_ne _ (by omega) hslot) (p % 1024) with
      heq | ⟨-, w, hlt, hw, hi, ⟨hws, hwt⟩ | hmem⟩
    · exact heq
    · -- the only entry written in this table at this index is the page's own
      have hslots := hsep.table_inj _ (by omega) _ (by omega) hws hslot hwt
      obtain rfl : w = p := by omega
      exact absurd hw (not_or.mpr ⟨hmapped, hdealt⟩)
    · have hfree := h.unused_of_enough henough (List.mem_map.mpr ⟨_, hmem, rfl⟩)
      rw [hsep.table_used _ (by omega) hslot] at hfree
      exact absurd hfree.symm Bool.false_ne_true
  have hentry : pageEntry m' pd p = pageEntry m pd p := by
    rw [pageEntry, tableOf, hkeep, ← tableOf, hword, pageEntry]
  refine ⟨?_, hentry, hkeep⟩
  rw [pagePresent, slotPresent, hkeep, hentry]
  exact hpres

/-- A safe deal loses no page. -/
theorem Dealt.keepsPages {m m' : Machine} {pd : ℕ} {A : List (ℕ × ℕ)} {mapped target : ℕ → Prop}
    (h : Dealt m m' pd A mapped target) (hsep : SeparateTables m pd)
    (henough : A.length ≤ (freeFrames m.memManData).length)
    (hmapped : ∀ p, mapped p → pagePresent m pd p = false)
    (hdealt : ∀ t ∈ A.map Prod.snd, pagePresent m pd t = false) : KeepsPages m m' pd := by
  intro p hp hpres
  refine h.keepsPage hsep henough hp hpres ?_ ?_
  · intro hm
    rw [hmapped p hm] at hpres
    exact Bool.false_ne_true hpres
  · intro hd
    rw [hdealt p hd] at hpres
    exact Bool.false_ne_true hpres

/-! ## The invariant -/

/-- Every directory has the kernel's entries; the frames of directories and tables are in
use, and each has one role only. -/
structure DirectoriesInv (L : Layout) (s : MemoryState) : Prop where
  kernel : ∀ pd ∈ s.directories, HoldsKernelEntries L s.machine pd
  used : ∀ f, Structural L s f → s.machine.used f = true
  ne_zero : ∀ pd ∈ s.directories, pd ≠ 0
  not_kernelTable : ∀ pd ∈ s.directories, ∀ i < 256, L.kernelPageTable + i ≠ pd
  not_directory : ∀ pd ∈ s.directories, ∀ i t, UserTable s.machine pd i t → t ∉ s.directories
  not_own : ∀ pd ∈ s.directories, ∀ i t, UserTable s.machine pd i t → ¬ L.Own t
  table_inj : ∀ pd ∈ s.directories, ∀ pd' ∈ s.directories, ∀ i i' t,
    UserTable s.machine pd i t → UserTable s.machine pd' i' t → pd = pd' ∧ i = i'
  cr3 : s.machine.cr3 ∈ s.directories

section

variable {L : Layout} {D : List ℕ} {m m' : Machine} {pd : ℕ}

theorem DirectoriesInv.roles (h : DirectoriesInv L ⟨m, D⟩) : DirectoryRoles L ⟨m, D⟩ :=
  ⟨h.kernel, fun f _ => h.used f, h.ne_zero, h.not_kernelTable, h.not_directory⟩

/-- A present slot names a table of the kernel's or one of the directory's own. -/
theorem DirectoriesInv.table_cases (h : DirectoriesInv L ⟨m, D⟩) (hpd : pd ∈ D) {i : ℕ}
    (hi : i < 1024) (hp : slotPresent m pd i = true) :
    (i < 256 ∧ tableOf m pd i = L.kernelPageTable + i) ∨ UserTable m pd i (tableOf m pd i) := by
  by_cases hlt : i < 256
  · exact Or.inl ⟨hlt, (h.kernel pd hpd i hlt).2⟩
  · exact Or.inr ⟨by omega, hi, hp, rfl⟩

theorem DirectoriesInv.separate (h : DirectoriesInv L ⟨m, D⟩) (hpd : pd ∈ D) :
    SeparateTables m pd := by
  refine ⟨⟨⟨h.ne_zero pd hpd, h.used pd (Or.inl hpd),
      fun i hi hp => h.roles.table_ne hpd hpd hi hp⟩, ?_⟩,
    ?_⟩
  · intro i hi hp
    rcases h.table_cases hpd hi hp with ⟨hlt, ht⟩ | ht
    · rw [ht]
      exact h.used _ (Or.inr (Or.inl (L.own_table hlt)))
    · exact h.used _ (Or.inr (Or.inr ⟨pd, hpd, i, ht⟩))
  · intro i hi i' hi' hp hp' heq
    rcases h.table_cases hpd hi hp with ⟨hlt, ht⟩ | ht <;>
      rcases h.table_cases hpd hi' hp' with ⟨hlt', ht'⟩ | ht'
    · omega
    · rw [← heq, ht] at ht'
      exact absurd (L.own_table hlt) (h.not_own pd hpd i' _ ht')
    · rw [heq, ht'] at ht
      exact absurd (L.own_table hlt') (h.not_own pd hpd i _ ht)
    · rw [← heq] at ht'
      exact (h.table_inj pd hpd pd hpd i i' _ ht ht').2

/-- A step that leaves the directories alone and frees none of their frames. -/
theorem DirectoriesInv.of_ram (h : DirectoriesInv L ⟨m, D⟩)
    (hram : ∀ pd ∈ D, ∀ i, m'.ram pd i = m.ram pd i)
    (hused : ∀ f, Structural L ⟨m, D⟩ f → m'.used f = true) (hcr3 : m'.cr3 ∈ D) :
    DirectoriesInv L ⟨m', D⟩ := by
  have hold : ∀ {pd i t}, pd ∈ D → UserTable m' pd i t → UserTable m pd i t :=
    fun hpd ht => ht.congr (hram _ hpd _)
  refine ⟨?_, ?_, h.ne_zero, h.not_kernelTable, ?_, ?_, ?_, hcr3⟩
  · intro pd hpd i hi
    have hkernel := h.kernel pd hpd i hi
    rw [slotPresent, tableOf] at *
    rw [hram pd hpd]
    exact hkernel
  · rintro f (hf | hf | ⟨pd, hpd, i, ht⟩)
    · exact hused f (Or.inl hf)
    · exact hused f (Or.inr (Or.inl hf))
    · exact hused f (Or.inr (Or.inr ⟨pd, hpd, i, hold hpd ht⟩))
  · intro pd hpd i t ht
    exact h.not_directory pd hpd i t (hold hpd ht)
  · intro pd hpd i t ht
    exact h.not_own pd hpd i t (hold hpd ht)
  · intro pd hpd pd' hpd' i i' t ht ht'
    exact h.table_inj pd hpd pd' hpd' i i' t (hold hpd ht) (hold hpd' ht')

/-- Mapping with frames enough keeps the roles of all frames apart. -/
theorem Dealt.directoriesInv {A : List (ℕ × ℕ)} {mapped target : ℕ → Prop}
    (h : Dealt m m' pd A mapped target) (hinv : DirectoriesInv L ⟨m, D⟩) (hpd : pd ∈ D)
    (henough : A.length ≤ (freeFrames m.memManData).length) : DirectoriesInv L ⟨m', D⟩ := by
  have hgrow : ∀ f, m.used f = true → m'.used f = true := fun f hf => (h.used f).mpr (Or.inl hf)
  have hcases : ∀ {pd₁ i t}, pd₁ ∈ D → UserTable m' pd₁ i t →
      UserTable m pd₁ i t ∨ (pd₁ = pd ∧ (i, t) ∈ A) := h.userTable_cases hinv.roles hpd
  have hfree : ∀ {i t}, (i, t) ∈ A → m.used t = false :=
    fun ha => h.unused_of_enough henough (List.mem_map.mpr ⟨_, ha, rfl⟩)
  have hclash : ∀ {i t}, (i, t) ∈ A → ¬ Structural L ⟨m, D⟩ t := by
    intro i t ha hst
    have hunused := hfree ha
    rw [hinv.used t hst] at hunused
    exact Bool.false_ne_true hunused.symm
  have hroles := h.roles hinv.roles hpd
  refine ⟨hroles.kernel, ?_, hinv.ne_zero, hinv.not_kernelTable, hroles.not_directory, ?_, ?_, ?_⟩
  · rintro f (hf | hf | ⟨pd₁, hpd₁, i, ht⟩)
    · exact hgrow f (hinv.used f (Or.inl hf))
    · exact hgrow f (hinv.used f (Or.inr (Or.inl hf)))
    · rcases hcases hpd₁ ht with hold | ⟨-, hmem⟩
      · exact hgrow f (hinv.used f (Or.inr (Or.inr ⟨pd₁, hpd₁, i, hold⟩)))
      · exact (h.used f).mpr (Or.inr (List.mem_map.mpr ⟨_, hmem, rfl⟩))
  · intro pd₁ hpd₁ i t ht
    rcases hcases hpd₁ ht with hold | ⟨-, hmem⟩
    · exact hinv.not_own pd₁ hpd₁ i t hold
    · exact fun hown => hclash hmem (Or.inr (Or.inl hown))
  · intro pd₁ hpd₁ pd₂ hpd₂ i j t ht ht'
    rcases hcases hpd₁ ht with hold | ⟨rfl, hmem⟩ <;>
      rcases hcases hpd₂ ht' with hold' | ⟨rfl, hmem'⟩
    · exact hinv.table_inj pd₁ hpd₁ pd₂ hpd₂ i j t hold hold'
    · exact absurd (Or.inr (Or.inr ⟨pd₁, hpd₁, i, hold⟩)) (hclash hmem')
    · exact absurd (Or.inr (Or.inr ⟨pd₂, hpd₂, j, hold'⟩)) (hclash hmem)
    · have hsame := List.inj_on_of_nodup_map (h.nodup_of_enough henough) hmem hmem' rfl
      exact ⟨rfl, congrArg Prod.fst hsame⟩
  · rw [h.cr3]
    exact hinv.cr3

/-! ## `memoryAllocate` -/

theorem FramesTaken.directoriesInv {m₁ : Machine} {f n : ℕ} (htaken : FramesTaken m m₁ f n)
    (h : DirectoriesInv L ⟨m, D⟩) : DirectoriesInv L ⟨m₁, D⟩ := by
  refine h.of_ram (fun _ _ _ => by rw [htaken.ram]) ?_ (htaken.cr3 ▸ h.cr3)
  intro g hg
  exact (htaken.used g).mpr (Or.inl (h.used g hg))

/-- The frames a call of `memoryAllocate` takes, for memory and for tables, were free. -/
theorem unused_of_fresh {m₁ : Machine} {f n : ℕ} {A : List (ℕ × ℕ)} {mapped target : ℕ → Prop}
    (htaken : FramesTaken m m₁ f n) (hdealt : Dealt m₁ m' pd A mapped target)
    (henough : A.length ≤ (freeFrames m₁.memManData).length) {g : ℕ}
    (hg : InRun f n g ∨ g ∈ A.map Prod.snd) : m.used g = false := by
  rcases hg with hg | hg
  · exact htaken.free g hg
  · have hfree := hdealt.unused_of_enough henough hg
    rw [← Bool.not_eq_true] at hfree ⊢
    exact fun hused => hfree ((htaken.used g).mpr (Or.inl hused))

/-- The frames the pages were mapped to are given back. -/
theorem Dealt.directoriesInv_giveBack {m₁ m₂ : Machine} {f n : ℕ} {A : List (ℕ × ℕ)}
    {mapped target : ℕ → Prop} (hdealt : Dealt m₁ m₂ pd A mapped target)
    (h : DirectoriesInv L ⟨m, D⟩) (hpd : pd ∈ D) (htaken : FramesTaken m m₁ f n) (hf : f < 2 ^ 20)
    (henough : A.length ≤ (freeFrames m₁.memManData).length) :
    DirectoriesInv L ⟨(m₂.physicalFree (f * pageSize) n).atomicDisable, D⟩ := by
  have h₁ := htaken.directoriesInv h
  have h₂ := hdealt.directoriesInv h₁ hpd henough
  refine h₂.of_ram (fun _ _ _ => rfl) ?_ h₂.cr3
  intro g hg
  refine (used_machine_physicalFree _ _ _ _).mpr ⟨h₂.used g hg, ?_⟩
  rw [pageOf_mul_of_lt hf]
  intro hrun
  have hclash : ¬ Structural L ⟨m, D⟩ g := by
    intro hst
    have := h.used g hst
    rw [htaken.free g hrun] at this
    exact Bool.false_ne_true this
  rcases hg with hg | hg | ⟨pd₁, hpd₁, i, ht⟩
  · exact hclash (Or.inl hg)
  · exact hclash (Or.inr (Or.inl hg))
  · rcases hdealt.userTable_cases h₁.roles hpd hpd₁ ht with hold | ⟨-, hmem⟩
    · exact hclash (Or.inr (Or.inr ⟨pd₁, hpd₁, i, hold.congr (by rw [htaken.ram])⟩))
    · have hfree := hdealt.unused_of_enough henough (List.mem_map.mpr ⟨_, hmem, rfl⟩)
      rw [(htaken.used g).mpr (Or.inr hrun)] at hfree
      exact Bool.false_ne_true hfree.symm

/-- A call that returns 0 leaves the directories as they are, in whatever directory it was made. -/
theorem directoriesInv_failed {fuel size : ℕ} {user : Bool} (h : DirectoriesInv L ⟨m, D⟩)
    (hpd : pd ∈ D) (hfuel : 2 ^ 20 < fuel)
    (hlast : ∀ va,
      foundAddress fuel (framesAllocated m size) pd (pagesFor size) user = some (some va) →
      (callDeal (framesAllocated m size) pd va (pagesFor size)).length
        ≤ (freeFrames (framesAllocated m size).memManData).length)
    (halloc : memoryAllocate fuel m pd size user = some (0, m')) : DirectoriesInv L ⟨m', D⟩ := by
  rcases memoryAllocate_cases halloc with
    ⟨-, hram, hcr3, hused⟩ | ⟨f, va, m₂, hf, htaken, -, -, hfound, hmap, ⟨-, rfl⟩ | ⟨-, hne, -⟩⟩
  · exact h.of_ram (fun _ _ _ => by rw [hram]) (fun g hg => hused g (h.used g hg)) (hcr3 ▸ h.cr3)
  · obtain ⟨m₂', hm₂', -, hdealt⟩ := virtualMap_dealt va (f * pageSize) (pagesFor size) user
      ((htaken.directoriesInv h).roles.ownFrame hpd) hfuel
    obtain rfl := Option.some.inj (hmap.symm.trans hm₂')
    exact hdealt.directoriesInv_giveBack h hpd htaken hf (hlast va hfound)
  · exact absurd rfl hne

theorem directoriesInv_allocate {fuel size a : ℕ} {user : Bool} (h : DirectoriesInv L ⟨m, D⟩)
    (hpd : pd ∈ D) (hfuel : 2 ^ 20 < fuel) (hsafe : LastingAllocate fuel m pd size user)
    (halloc : memoryAllocate fuel m pd size user = some (a, m')) :
    DirectoriesInv L ⟨m', D⟩ := by
  by_cases hzero : a = 0
  · exact directoriesInv_failed h hpd hfuel hsafe.2 (hzero ▸ halloc)
  rcases memoryAllocate_cases halloc with
    ⟨ha, -⟩ | ⟨f, va, m₂, hf, htaken, -, -, hfound, hmap, ⟨ha, -⟩ | ⟨-, -, hset⟩⟩
  · exact absurd ha hzero
  · exact absurd ha hzero
  · have h₁ := htaken.directoriesInv h
    set m₁ := framesAllocated m size
    set n := pagesFor size
    obtain ⟨m₂', hm₂', -, hdealt⟩ := virtualMap_dealt va (f * pageSize) n user (h₁.roles.ownFrame hpd)
      hfuel
    obtain rfl := Option.some.inj (hmap.symm.trans hm₂')
    rw [pageOf_mul_of_lt hf] at hdealt
    have henough := hsafe.2 va hfound
    have h₂ := hdealt.directoriesInv h₁ hpd henough
    have hunused : ∀ {g}, InRun f n g ∨ g ∈ (callDeal m₁ pd va n).map Prod.snd →
        m.used g = false := unused_of_fresh htaken hdealt henough
    -- the memory is cleared through the directory in CR3, which maps the new pages too
    have hcr3 : m₂.cr3 = m.cr3 := hdealt.cr3.trans htaken.cr3
    obtain ⟨hram, hdata, hcr3'⟩ := @memset_fresh
      (fun g => InRun f n g ∨ g ∈ (callDeal m₁ pd va n).map Prod.snd) n m₂.atomicDisable m' va
      (by
        intro hfresh
        have hold := h.used _ (Or.inl h.cr3)
        have := hunused hfresh
        rw [show m₂.atomicDisable.cr3 = m.cr3 from hcr3, hold] at this
        exact Bool.false_ne_true this.symm)
      (by
        intro q hq _
        have hmaps := (hdealt.maps q hq).2.2.2
        have hentry : pageEntry m₂.atomicDisable m₂.atomicDisable.cr3 q = pageEntry m₂ pd q := by
          rcases hsafe.1 with rfl | hpdcr3
          · obtain ⟨k, rfl, -, hle⟩ := foundAddress_kernel hfuel hfound
            have hk : k < 2 ^ 20 := by rw [kernelPages] at hle; omega
            rw [pageOf_mul_of_lt hk, inRun_iff (by rw [kernelPages] at hle; omega)] at hq
            exact h₂.roles.pageEntry_shared h₂.cr3 hpd (by omega)
          · rw [show m₂.atomicDisable.cr3 = m.cr3 from hcr3, ← hpdcr3]
            rfl
        rw [hentry]
        exact hmaps)
      hset
    have hsame : ∀ pd₁ ∈ D, ∀ i, m'.ram pd₁ i = m₂.ram pd₁ i := by
      intro pd₁ hpd₁ i
      apply hram
      intro hfresh
      have := hunused hfresh
      rw [h.used _ (Or.inl hpd₁)] at this
      exact Bool.false_ne_true this.symm
    refine h₂.of_ram hsame ?_ (hcr3' ▸ h₂.cr3)
    intro g hg
    rw [Machine.used, hdata]
    exact h₂.used g hg

/-! ## `memoryMap` and `memoryFree` -/

/-- A call of `memoryMap` for which the frames last. -/
def SafeMap (m : Machine) (pd virtualAddress size : ℕ) : Prop :=
  (callDeal (m.physicalAllocate (pagesFor size)).2 pd virtualAddress (pagesFor size)).length
    ≤ (freeFrames (m.physicalAllocate (pagesFor size)).2.memManData).length

theorem directoriesInv_map {fuel va size : ℕ} {isUser : Bool} (h : DirectoriesInv L ⟨m, D⟩)
    (hpd : pd ∈ D) (hfuel : 2 ^ 20 < fuel) (hsafe : SafeMap m pd va size)
    (hmap : memoryMap fuel m pd va size isUser = some m') : DirectoriesInv L ⟨m', D⟩ := by
  have h₁ : DirectoriesInv L ⟨(m.physicalAllocate (pagesFor size)).2, D⟩ :=
    h.of_ram (fun _ _ _ => rfl) (fun g hg => used_physicalAllocate (h.used g hg)) h.cr3
  obtain ⟨m'', hm'', -, hdealt⟩ := virtualMap_dealt va (m.physicalAllocate (pagesFor size)).1
    (pagesFor size) isUser (h₁.roles.ownFrame hpd) hfuel
  have heq : memoryMap fuel m pd va size isUser = some m'' := hm''
  obtain rfl := Option.some.inj (hmap.symm.trans heq)
  exact hdealt.directoriesInv h₁ hpd hsafe

/-- A call of `memoryFree` none of whose pages is mapped to a directory or a table. -/
def SafeFree (L : Layout) (s : MemoryState) (pd startAddress size : ℕ) : Prop :=
  ∀ i < size / pageSize, pagePresent s.machine pd (pageOf (startAddress + i * pageSize)) = true →
    ¬ Structural L s (Entry.pageFrameNumber
      (pageEntry s.machine pd (pageOf (startAddress + i * pageSize))))

theorem directoriesInv_free {a size : ℕ} (h : DirectoriesInv L ⟨m, D⟩) (hpd : pd ∈ D)
    (hsafe : SafeFree L ⟨m, D⟩ pd a size) : DirectoriesInv L ⟨memoryFree m pd a size, D⟩ := by
  have hend := unmapped_memoryFree hpd (fun _ hpd₁ _ hi hp => h.roles.table_ne hpd hpd₁ hi hp)
    h.used hsafe
  exact h.of_ram hend.ram hend.used (hend.cr3 ▸ h.cr3)

/-! ## `createUserPageDirectory` -/

/-- Memory for the kernel is always allocated safely. -/
theorem safeAllocate_kernel {fuel : ℕ} (h : DirectoriesInv L ⟨m, D⟩) (hpd : pd ∈ D)
    (hfuel : 2 ^ 20 < fuel) (size : ℕ) : SafeAllocate fuel m pd size false := by
  refine ⟨Or.inl rfl, ?_⟩
  intro va hfound
  obtain ⟨k, rfl, -, hle⟩ := foundAddress_kernel hfuel hfound
  have hdeal : callDeal (framesAllocated m size) pd (k * pageSize) (pagesFor size) = [] :=
    callDeal_kernel (h.kernel pd hpd) hle
  rw [SafeDeal, hdeal]
  exact ⟨Nat.zero_le _, by simp⟩

/-- With the kernel's entries filled in, the page is a directory like the others. -/
theorem DirectoryPage.directoriesInv {m₁ w : Machine} {a f : ℕ} (hpage : DirectoryPage m m₁ D a f)
    (h : DirectoriesInv L ⟨m, D⟩) (h₁ : DirectoriesInv L ⟨m₁, D⟩)
    (hdata : w.memManData = m₁.memManData) (hcr3 : w.cr3 = m₁.cr3)
    (hwrite : ∀ g i, w.ram g i =
      if g = f ∧ i < 256 then kernelEntry (m₁.ram g i) (L.kernelPageTable + i) else m₁.ram g i) :
    translate w.atomicDisable a = some f ∧ DirectoriesInv L ⟨w.atomicDisable, f :: D⟩ := by
  obtain ⟨htrans, hroles, hold⟩ := hpage.roles h.roles h.cr3 h₁.roles hdata hcr3 hwrite
  suffices hinv : DirectoriesInv L ⟨w, f :: D⟩ from
    ⟨htrans, hinv.of_ram (fun _ _ _ => rfl) hinv.used hinv.cr3⟩
  refine ⟨hroles.kernel, ?_, hroles.ne_zero, hroles.not_kernelTable, hroles.not_directory, ?_, ?_,
    ?_⟩
  · intro g hg
    by_cases hg0 : g = 0
    · rcases hg with hg | hg | ⟨pd, hpd, i, ht⟩
      · exact absurd hg0 (hroles.ne_zero g hg)
      · exact absurd (hg0 ▸ hg) L.not_own_zero
      · obtain ⟨hpd', ht'⟩ := hold pd i g hpd ht
        rw [Machine.used, hdata]
        exact h₁.used g (Or.inr (Or.inr ⟨pd, hpd', i, ht'.congr (hpage.ram pd hpd' i).symm⟩))
    · exact hroles.used g hg0 hg
  · intro pd hpd i t ht
    obtain ⟨hpd', ht'⟩ := hold pd i t hpd ht
    exact h.not_own pd hpd' i t ht'
  · intro pd hpd pd' hpd' i i' t ht ht'
    obtain ⟨h1, h2⟩ := hold pd i t hpd ht
    obtain ⟨h3, h4⟩ := hold pd' i' t hpd' ht'
    exact h.table_inj pd h1 pd' h3 i i' t h2 h4
  · rw [hcr3]
    exact List.mem_cons_of_mem _ h₁.cr3

theorem directoriesInv_create {fuel a : ℕ} (h : DirectoriesInv L ⟨m, D⟩) (hfuel : 2 ^ 20 < fuel)
    (hcreate : createUserPageDirectory L fuel m = some (a, m')) :
    DirectoriesInv L ⟨m', if a = 0 then D else (translate m' a).toList ++ D⟩ := by
  have henable : DirectoriesInv L ⟨m.atomicEnable, D⟩ :=
    h.of_ram (fun _ _ _ => rfl) h.used h.cr3
  rw [createUserPageDirectory, Option.bind_eq_some_iff] at hcreate
  obtain ⟨⟨va, m₁⟩, halloc, hrest⟩ := hcreate
  have h₁ : DirectoriesInv L ⟨m₁, D⟩ := directoriesInv_allocate henable h.cr3 hfuel
    (safeAllocate_kernel henable h.cr3 hfuel pageSize).lasting halloc
  by_cases hva : va = 0
  · simp only [hva, if_true] at hrest
    obtain ⟨rfl, rfl⟩ := Prod.mk.inj (Option.some.inj hrest)
    rw [if_pos rfl]
    exact h₁.of_ram (fun _ _ _ => rfl) h₁.used h₁.cr3
  · simp only [if_neg hva, Option.map_eq_some_iff, Prod.mk.injEq] at hrest
    obtain ⟨frame, hframe, rfl, rfl⟩ := hrest
    obtain ⟨f, hpage⟩ := memoryAllocate_directoryPage henable.roles h.cr3 hfuel hva halloc
    obtain rfl : frame = f := Option.some.inj (hframe.symm.trans hpage.frame)
    obtain ⟨hdata, hcr3⟩ := fields_mapKernelPageTable L m₁ frame
    obtain ⟨htrans, hinv⟩ := hpage.directoriesInv henable h₁ hdata hcr3
      (ram_mapKernelPageTable L m₁ frame)
    rw [if_neg hva, htrans]
    exact hinv

end

end Sakura.MemoryManager
