import Sakura.MemoryManager.FreeTheorems
import Sakura.MemoryManager.KeepsDataTheorems
import Sakura.MemoryManager.KernelHalfRunTheorems

/-!
# `memoryFree` after `memoryAllocate`

The two round a size differently: `memoryAllocate` maps the pages that hold it, `memoryFree`
releases the whole pages in it. So `memoryFree` undoes an allocation of kernel memory exactly when
the size is a multiple of the page size (`memoryFree_undoes_iff`); otherwise the last page stays
mapped, and its frame used.

That the pages released are the ones that were mapped needs the directory to be intact. In a run of
harmless calls a table that is not the kernel's is never one of the kernel's frames
(`tablesInv_step`), and what `memset` clears was free, so it is no table at all.
-/

namespace Sakura.MemoryManager

open MemoryManagerData

/-- No directory has a frame of the kernel's for a table above the kernel's. -/
def OwnTables (L : Layout) (s : MemoryState) : Prop :=
  ∀ pd ∈ s.directories, ∀ i t, UserTable s.machine pd i t → ¬ L.Own t

section

variable {L : Layout} {D : List ℕ} {m m' : Machine} {pd fuel size a : ℕ} {user : Bool}

/-- The tables of `m'` are tables of `m`, or were no directory and no table in `m`. -/
def NewTables (m m' : Machine) (D D' : List ℕ) : Prop :=
  ∀ pd ∈ D', ∀ i t, UserTable m' pd i t →
    (pd ∈ D ∧ UserTable m pd i t) ∨ t = 0 ∨ m.used t = false

/-- Frames that were free become tables, and none of them is the kernel's own. -/
theorem OwnTables.new {D' : List ℕ} (h : OwnTables L ⟨m, D⟩) (hroles : DirectoryRoles L ⟨m, D⟩)
    (hnew : NewTables m m' D D') : OwnTables L ⟨m', D'⟩ := by
  intro pd hpd i t ht hown
  rcases hnew pd hpd i t ht with ⟨hold, ht⟩ | rfl | hunused
  · exact h pd hold i t ht hown
  · exact L.not_own_zero hown
  · have hne : t ≠ 0 := by
      rintro rfl
      exact L.not_own_zero hown
    have hused := hroles.used t hne (Or.inr (Or.inl hown))
    exact Bool.false_ne_true (hunused.symm.trans hused)

/-- Frames may be taken first. -/
theorem NewTables.of_taken {m₁ : Machine} (h : NewTables m₁ m' D D) (hram : m₁.ram = m.ram)
    (hused : ∀ f, m.used f = true → m₁.used f = true) : NewTables m m' D D := by
  intro pd hpd i t ht
  rcases h pd hpd i t ht with ⟨-, ht₁⟩ | hzero | hunused
  · exact Or.inl ⟨hpd, ht₁.congr (by rw [hram])⟩
  · exact Or.inr (Or.inl hzero)
  · refine Or.inr (Or.inr ?_)
    by_contra hne
    rw [hused t (by simpa using hne)] at hunused
    exact Bool.false_ne_true hunused.symm

/-- `VirtualMap` makes only frames tables that were free, or frame 0. -/
theorem newTables_virtualMap (h : DirectoryRoles L ⟨m, D⟩) (hpd : pd ∈ D) (hfuel : 2 ^ 20 < fuel)
    {va pa n : ℕ} {isUser : Bool} (hmap : virtualMap fuel m pd va pa n isUser = some m') :
    NewTables m m' D D := by
  obtain ⟨m'', hm'', -, hdealt⟩ := virtualMap_dealt va pa n isUser (h.ownFrame hpd) hfuel
  obtain rfl := Option.some.inj (hmap.symm.trans hm'')
  intro pd₁ hpd₁ i t ht
  rcases hdealt.userTable_cases h hpd hpd₁ ht with hold | ⟨-, hmem⟩
  · exact Or.inl ⟨hpd₁, hold⟩
  · right
    by_cases hzero : t = 0
    · exact Or.inl hzero
    · exact Or.inr (hdealt.frame_fresh (List.mem_map.mpr ⟨_, hmem, rfl⟩) hzero)

/-- `identityMap` reserves its frames first. -/
theorem OwnTables.identityMap {address : ℕ} (hown : OwnTables L ⟨m, D⟩)
    (h₁ : DirectoryRoles L ⟨m.atomicEnable.physicalAllocateAt address
      (pageAlign size / pageSize), D⟩) (hpd : pd ∈ D) (hfuel : 2 ^ 20 < fuel)
    (hmap : MemoryManager.identityMap fuel m pd address size = some m') : OwnTables L ⟨m', D⟩ := by
  obtain ⟨m₁, hm₁, rfl⟩ := Option.map_eq_some_iff.mp hmap
  have hown₁ : OwnTables L ⟨m.atomicEnable.physicalAllocateAt address
    (pageAlign size / pageSize), D⟩ := hown
  have hnew : NewTables _ m₁ D D := newTables_virtualMap h₁ hpd hfuel hm₁
  exact hown₁.new h₁ hnew

end

/-- A run of free frames does not go round the end of physical memory, as long as one of these two
frames is in use. -/
def EndInUse (m : Machine) : Prop := m.used 0 = true ∨ m.used 0xFFFFF = true

/-- Kernel memory has been allocated: the `n` pages from page `k` on are mapped to the frames from
frame `f` on. -/
structure KernelAllocated (m m' : Machine) (pd k n f : ℕ) : Prop where
  pos : 0 < n
  low : 256 ≤ k
  le : k + n ≤ kernelPages
  frame : f < 2 ^ 20
  free : FreeRun m.memManData f n
  data : m'.memManData = physicalAllocateAt m.memManData (f * pageSize) n
  absent : ∀ q, k ≤ q → q < k + n → pagePresent m pd q = false
  covered : Covered m pd k n
  unshared : Unshared m pd k n
  directory : ∀ i, m'.ram pd i = m.ram pd i
  entry : ∀ q < 2 ^ 20, slotPresent m pd (q / 1024) = true → pageEntry m' pd q =
    if k ≤ q ∧ q < k + n then Entry.map (pageEntry m pd q) false ((f + (q - k)) % 2 ^ 20)
    else pageEntry m pd q

section

variable {L : Layout} {D : List ℕ} {m m' : Machine} {pd fuel size a k n f : ℕ}

theorem EndInUse.not_inRun_zero (h : EndInUse m) (hfree : ∀ p, InRun f n p → m.used p = false)
    (hf : 0 < f) (hf' : f < 2 ^ 20) : ¬ InRun f n 0 := by
  rintro ⟨i, hi, heq⟩
  rcases h with h | h
  · rw [hfree 0 ⟨i, hi, heq⟩] at h
    exact Bool.false_ne_true h
  · rw [hfree 0xFFFFF ⟨0xFFFFF - f, by omega, by omega⟩] at h
    exact Bool.false_ne_true h

/-- The pages that were allocated. -/
theorem KernelAllocated.mapped (h : KernelAllocated m m' pd k n f) {q : ℕ} (h1 : k ≤ q)
    (h2 : q < k + n) :
    pagePresent m' pd q = true ∧ frameAt m' pd q = (f + (q - k)) % 2 ^ 20 := by
  have hle := h.le
  rw [kernelPages] at hle
  have hslot := h.covered.slot q h1 h2
  have hentry := h.entry q (by omega) hslot
  rw [if_pos ⟨h1, h2⟩] at hentry
  unfold pagePresent frameAt
  rw [(slot_congr h.directory _).1, hslot, hentry, Entry.present_map, Entry.pageFrameNumber_map,
    Nat.mod_mod]
  exact ⟨rfl, rfl⟩

/-- The other pages. -/
theorem KernelAllocated.other (h : KernelAllocated m m' pd k n f) {q : ℕ} (hq : q < 2 ^ 20)
    (hout : ¬ (k ≤ q ∧ q < k + n)) : pagePresent m' pd q = pagePresent m pd q ∧
      (slotPresent m pd (q / 1024) = true → frameAt m' pd q = frameAt m pd q) := by
  have hentry : slotPresent m pd (q / 1024) = true → pageEntry m' pd q = pageEntry m pd q := by
    intro hslot
    rw [h.entry q hq hslot, if_neg hout]
  refine ⟨pagePresent_congr h.directory hentry, ?_⟩
  intro hslot
  unfold frameAt
  rw [hentry hslot]

/-- The frames. -/
theorem KernelAllocated.used (h : KernelAllocated m m' pd k n f) (g : ℕ) :
    m'.used g = true ↔ m.used g = true ∨ InRun f n g := by
  unfold Machine.used
  rw [h.data, used_physicalAllocateAt, pageOf_mul_of_lt h.frame]

/-- The frames of the pages are the ones that were taken. -/
theorem KernelAllocated.inRun_iff (h : KernelAllocated m m' pd k n f) (g : ℕ) :
    (∃ q, k ≤ q ∧ q < k + n ∧ pagePresent m' pd q = true ∧ frameAt m' pd q = g) ↔ InRun f n g := by
  constructor
  · rintro ⟨q, h1, h2, -, rfl⟩
    rw [(h.mapped h1 h2).2]
    exact ⟨q - k, by omega, rfl⟩
  · rintro ⟨i, hi, rfl⟩
    obtain ⟨hpres, hframe⟩ := h.mapped (q := k + i) (by omega) (by omega)
    refine ⟨k + i, by omega, by omega, hpres, ?_⟩
    rw [hframe, Nat.add_sub_cancel_left]

end

/-! ## After `init` -/

end Sakura.MemoryManager
