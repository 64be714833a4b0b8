import Sakura.MultibootTheorems
import Sakura.MemoryManager.KernelSpace

/-!
# What `init` reserves

`init` marks used and maps to themselves the kernel image, the first MiB and the modules.
A module's pages are freed first and then reserved again, one page more than were freed, so
a page once reserved is never given back; `BootInv` is the invariant of the module loop.

The last page `identityMap` adds to a module that ends at 1 GiB lies above the kernel's
tables. It takes a frame for a new table, and possibly more; `BootInv` survives this as
well, since the frames taken are free ones.
-/

namespace Sakura.MemoryManager

open MemoryManagerData

/-! ## The kernel's slots -/

section

variable (e f : ℕ)

@[simp] theorem present_kernelEntry : Entry.present (kernelEntry e f) = true := by
  rw [Entry.present, kernelEntry, Entry.setPageFrameNumber, BitField.get_put_below _ _ (by omega),
    Entry.setPresent, BitField.get_put_self]
  rfl

@[simp] theorem user_kernelEntry : Entry.user (kernelEntry e f) = false := by
  rw [Entry.user, kernelEntry, Entry.setPageFrameNumber, BitField.get_put_below _ _ (by omega),
    Entry.setPresent, BitField.get_put_above _ _ (by omega),
    Entry.setWrite, BitField.get_put_above _ _ (by omega), Entry.setUser, BitField.get_put_self]
  rfl

@[simp] theorem write_kernelEntry : Entry.write (kernelEntry e f) = true := by
  rw [Entry.write, kernelEntry, Entry.setPageFrameNumber, BitField.get_put_below _ _ (by omega),
    Entry.setPresent, BitField.get_put_above _ _ (by omega), Entry.setWrite, BitField.get_put_self]
  rfl

@[simp] theorem pageFrameNumber_kernelEntry :
    Entry.pageFrameNumber (kernelEntry e f) = f % 2 ^ 20 := by
  rw [Entry.pageFrameNumber, kernelEntry, Entry.setPageFrameNumber, BitField.get_put_self]

end

/-- `mapKernelPageTable` writes the first 256 words of the directory and nothing else. -/
theorem ram_mapKernelPageTable (L : Layout) (m : Machine) (pd g i : ℕ) :
    (mapKernelPageTable L m pd).ram g i =
      if g = pd ∧ i < 256 then kernelEntry (m.ram g i) (L.kernelPageTable + i) else m.ram g i := by
  have hloop : ∀ n, ((List.range n).foldl (fun m index => m.store pd index
      (kernelEntry (m.ram pd index) (L.kernelPageTable + index))) m).ram g i =
      if g = pd ∧ i < n then kernelEntry (m.ram g i) (L.kernelPageTable + i)
      else m.ram g i := by
    intro n
    induction n generalizing g i with
    | zero => rw [if_neg (by omega)]; rfl
    | succ n ih =>
      rw [List.range_succ, List.foldl_append, List.foldl_cons, List.foldl_nil]
      by_cases hn : g = pd ∧ i = n
      · obtain ⟨rfl, rfl⟩ := hn
        rw [Machine.ram_store_self, ih, if_neg (by omega), if_pos ⟨rfl, by omega⟩]
      · rw [Machine.ram_store_of_ne _ _ hn, ih]
        by_cases hlt : g = pd ∧ i < n
        · rw [if_pos hlt, if_pos ⟨hlt.1, by omega⟩]
        · rw [if_neg hlt, if_neg (by omega)]
  exact hloop 256

theorem fields_mapKernelPageTable (L : Layout) (m : Machine) (pd : ℕ) :
    (mapKernelPageTable L m pd).memManData = m.memManData ∧
      (mapKernelPageTable L m pd).cr3 = m.cr3 := by
  have hloop : ∀ l : List ℕ, (l.foldl (fun m index => m.store pd index
      (kernelEntry (m.ram pd index) (L.kernelPageTable + index))) m).memManData = m.memManData ∧
      (l.foldl (fun m index => m.store pd index
      (kernelEntry (m.ram pd index) (L.kernelPageTable + index))) m).cr3 = m.cr3 := by
    intro l
    induction l generalizing m with
    | nil => exact ⟨rfl, rfl⟩
    | cons x l ih =>
      rw [List.foldl_cons]
      exact ih _
  exact hloop _

theorem memManData_mapKernelPageTable (L : Layout) (m : Machine) (pd : ℕ) :
    (mapKernelPageTable L m pd).memManData = m.memManData :=
  (fields_mapKernelPageTable L m pd).1

/-- Memory as the bootloader leaves it: the kernel's directory and tables, which are in
`.bss`, are zero. The rest holds anything. -/
structure Booted (L : Layout) (m : Machine) : Prop where
  directory : ∀ i, m.ram L.kernelPageDirectory i = 0
  table : ∀ s < 256, ∀ i, m.ram (L.kernelPageTable + s) i = 0

/-- The directory names the kernel's tables. -/
theorem kernelDirectory_mapKernelPageTable {L : Layout} {m : Machine}
    (h : ∀ i, m.ram L.kernelPageDirectory i = 0) :
    KernelDirectory L (mapKernelPageTable L m L.kernelPageDirectory) := by
  have hlow : ∀ s < 256, (mapKernelPageTable L m L.kernelPageDirectory).ram
      L.kernelPageDirectory s = kernelEntry 0 (L.kernelPageTable + s) := by
    intro s hs
    rw [ram_mapKernelPageTable, if_pos ⟨rfl, hs⟩, h]
  refine ⟨?_, ?_, ?_, ?_⟩
  · intro s hs
    rw [slotPresent, hlow s hs, present_kernelEntry]
  · intro s hs
    rw [tableOf, hlow s hs, pageFrameNumber_kernelEntry,
      Nat.mod_eq_of_lt (L.own_lt (L.own_table hs))]
  · intro s hs
    rw [hlow s hs, user_kernelEntry]
  · intro s hs hp
    rw [slotPresent, ram_mapKernelPageTable, if_neg (by omega), h] at hp
    exact absurd hp (by decide)

/-! ## `identityMap` in the kernel's directory -/

theorem used_machine_physicalAllocateAt (m : Machine) (a n p : ℕ) :
    (m.physicalAllocateAt a n).used p = true ↔ m.used p = true ∨ InRun (pageOf a) n p :=
  used_physicalAllocateAt m.memManData a n p

theorem used_machine_physicalFree (m : Machine) (a n p : ℕ) :
    (m.physicalFree a n).used p = true ↔ m.used p = true ∧ ¬ InRun (pageOf a) n p :=
  used_physicalFree m.memManData a n p

/-- `identityMap` is `installPages` on the reserved run, in every directory whose slot 0 is
present. -/
theorem identityMap_installs {fuel : ℕ} {m : Machine} {pd k : ℕ} (size : ℕ)
    (h0 : slotPresent m pd 0 = true) (hk : k < 2 ^ 20) (hfuel : 2 ^ 20 < fuel) :
    identityMap fuel m pd (k * pageSize) size =
      some (installPages pd false (pageAlign size / pageSize)
        (m.atomicEnable.physicalAllocateAt (k * pageSize) (pageAlign size / pageSize))
        k k).atomicDisable := by
  have hlen := length_freeFrames_lt (m.atomicEnable.physicalAllocateAt (k * pageSize)
    (pageAlign size / pageSize)).memManData
  have hslot : slotPresent (m.atomicEnable.physicalAllocateAt (k * pageSize)
    (pageAlign size / pageSize)) pd 0 = true := h0
  rw [identityMap, identityMapWith]
  simp only [virtualMap_eq _ _ _ _ hslot (show _ < fuel by omega), pageOf_mul_of_lt hk,
    Option.map_some]

/-- `identityMap` takes the frames, then installs the pages, between the two calls that guard it.
-/
theorem identityMap_eq {L : Layout} {fuel : ℕ} {m : Machine} {k : ℕ} (size : ℕ)
    (h : KernelDirectory L m) (hk : k < 2 ^ 20) (hfuel : 2 ^ 20 < fuel) :
    identityMap fuel m L.kernelPageDirectory (k * pageSize) size =
      some (installPages L.kernelPageDirectory false (pageAlign size / pageSize)
        (m.atomicEnable.physicalAllocateAt (k * pageSize) (pageAlign size / pageSize))
        k k).atomicDisable :=
  identityMap_installs size (h.slot 0 (by omega)) hk hfuel

/-- What `init` has reserved so far: `R` holds of pages that are used and, below 1 GiB,
mapped to themselves. The kernel's own frames are among them. -/
structure BootInv (L : Layout) (R : ℕ → Prop) (m : Machine) : Prop where
  directory : KernelDirectory L m
  used : ∀ p, R p → m.used p = true
  self : ∀ p < kernelPages, R p → SelfMapped L m p
  own : ∀ f, L.Own f → R f

/-- `identityMap` reserves its run. Pages of the run may have been free before, even the
kernel's own frames: they are reserved before any table is looked at. -/
theorem bootInv_identityMap {L : Layout} {R : ℕ → Prop} {fuel : ℕ} {m : Machine} {k : ℕ}
    (size : ℕ) (hdir : KernelDirectory L m) (hk : k < 2 ^ 20) (hfuel : 2 ^ 20 < fuel)
    (hused : ∀ p, R p → m.used p = true ∨ InRun k (pageAlign size / pageSize) p)
    (hself : ∀ p < kernelPages, R p → SelfMapped L m p)
    (hown : ∀ f, L.Own f → R f ∨ InRun k (pageAlign size / pageSize) f) :
    ∃ m', identityMap fuel m L.kernelPageDirectory (k * pageSize) size = some m' ∧
      BootInv L (fun p => R p ∨ InRun k (pageAlign size / pageSize) p) m' ∧
      Grows m m' := by
  refine ⟨_, identityMap_eq size hdir hk hfuel, ?_⟩
  set n := pageAlign size / pageSize
  set m₁ := m.atomicEnable.physicalAllocateAt (k * pageSize) n with hm₁
  have hused₁ : ∀ p, R p ∨ InRun k n p → m₁.used p = true := by
    intro p hp
    rw [hm₁, used_machine_physicalAllocateAt, pageOf_mul_of_lt hk]
    rcases hp with hp | hp
    · exact hused p hp
    · exact Or.inr hp
  have hkeep₁ : KeepsSelfMapped L m m₁ := KeepsSelfMapped.of_ram hdir rfl
  obtain ⟨hkeep₂, hrun⟩ := selfMap_installPages n hkeep₁.directory
    (fun f hf => hused₁ f (hown f hf)) hk
  have hgrow := grows_installPages L.kernelPageDirectory false n m₁ k k
  have hkeep₃ : KeepsSelfMapped L _ (installPages L.kernelPageDirectory false n m₁ k k).atomicDisable :=
    KeepsSelfMapped.of_ram hkeep₂.directory rfl
  refine ⟨⟨hkeep₃.directory, ?_, ?_, hown⟩, ?_⟩
  · intro p hp
    exact hgrow.used p (hused₁ p hp)
  · intro p hp hR
    apply hkeep₃.self p hp
    rcases hR with hR | hR
    · exact hkeep₂.self p hp (hkeep₁.self p hp (hself p hp hR))
    · exact hrun p hp hR
  · have h₁ : Grows m m₁ := by
      refine ⟨fun _ _ h => h, ?_, totalMemory_physicalAllocateAt _ _ _⟩
      intro p hp
      exact (used_machine_physicalAllocateAt _ _ _ _).mpr (Or.inl hp)
    exact h₁.trans (hgrow.trans (grows_atomicDisable _))

/-! ## The runs `init` maps -/

/-- `PAGE_ALIGN` adds a page even to an aligned size. -/
theorem pageAlign_div {size : ℕ} (h : size < 2 ^ 31) :
    pageAlign size / pageSize = size / pageSize + 1 := by
  rw [pageAlign, pageSize]
  omega

/-- The number of pages mapped for the image: the rounding of `mapKernelMemory` and that of
`identityMap` each add one. -/
def Layout.kernelRun (L : Layout) : ℕ := (L.kernelEnd - kernelStart) / pageSize + 2

/-- The kernel's run ends below the last kernel page. -/
theorem Layout.kernelRun_le (L : Layout) : 256 + L.kernelRun ≤ kernelPages := by
  have h1 := L.kernelEnd_le
  have h2 := L.directory_le
  have h3 := L.le_directory
  rw [Layout.kernelRun]
  rw [pageSize, kernelStart] at *
  rw [kernelPages]
  omega

/-- The kernel's own frames are in its run. -/
theorem Layout.inRun_of_own (L : Layout) {f : ℕ} (h : L.Own f) : InRun 256 L.kernelRun f := by
  have hle := L.kernelRun_le
  rw [kernelPages] at hle
  rw [inRun_iff (by omega)]
  have h1 := L.le_directory
  have h2 := L.directory_le
  have h3 := L.le_table
  have h4 := L.table_le
  rw [Layout.kernelRun]
  rw [pageSize, kernelStart] at *
  rw [numKernelPageTables] at h4
  rcases h with rfl | ⟨h5, h6⟩ <;> omega

/-- `mapKernelMemory` is one call of `identityMap` after the tables. -/
theorem mapKernelMemory_eq (L : Layout) (fuel : ℕ) (m : Machine) :
    ∃ size, pageAlign size / pageSize = L.kernelRun ∧
      mapKernelMemory L fuel m = identityMap fuel (mapKernelPageTable L m L.kernelPageDirectory)
        L.kernelPageDirectory (256 * pageSize) size := by
  have hend := L.kernelEnd_le
  refine ⟨_, ?_, rfl⟩
  rw [pageAlign_div]
  · rw [Layout.kernelRun, pageSize, kernelStart]
    omega
  · rw [pageSize] at hend
    rw [pageSize, kernelStart]
    omega

/-- Page `p` has an address in `[a, b)`. -/
def PageMeets (a b p : ℕ) : Prop := ∃ x, a ≤ x ∧ x < b ∧ x / pageSize = p

/-- What `reserveModuleMemory` may assume of a module: the bootloader aligns its start, and
it lies in the kernel's GiB. -/
structure WellPlaced (module : ModuleInfo) : Prop where
  aligned : module.modStart % pageSize = 0
  ordered : module.modStart ≤ module.modEnd
  below : module.modEnd ≤ 2 ^ 30

/-- The pages reserved for a module, one more than it fills. -/
def ModuleRun (module : ModuleInfo) (p : ℕ) : Prop :=
  InRun (module.modStart / pageSize) ((module.modEnd - module.modStart) / pageSize + 1) p

/-- A page that meets the module is mapped for it. -/
theorem moduleRun_of_meets {module : ModuleInfo} (h : WellPlaced module) {p : ℕ}
    (hp : PageMeets module.modStart module.modEnd p) : ModuleRun module p := by
  obtain ⟨x, hstart, hend, rfl⟩ := hp
  have hal := h.aligned
  have hbelow := h.below
  rw [ModuleRun, inRun_iff (by rw [pageSize]; omega)]
  rw [pageSize] at *
  omega

/-- Pages that are freed for a module are reserved again, with one more. -/
theorem used_of_freed {R : ℕ → Prop} {m : Machine} {module : ModuleInfo}
    (hmod : WellPlaced module) (hR : ∀ p, R p → m.used p = true) (p : ℕ) (hp : R p) :
    (m.physicalFree module.modStart
        ((module.modEnd - module.modStart) / pageSize)).used p = true ∨ ModuleRun module p := by
  have hpage : pageOf module.modStart = module.modStart / pageSize := by
    have := hmod.ordered
    have := hmod.below
    rw [pageOf, Nat.mod_eq_of_lt (by omega)]
  rw [used_machine_physicalFree, hpage, ModuleRun, inRun_succ]
  by_cases hrun : InRun (module.modStart / pageSize)
      ((module.modEnd - module.modStart) / pageSize) p
  · exact Or.inr (Or.inl hrun)
  · exact Or.inl ⟨hR p hp, hrun⟩

/-- `reserveModule`, in page numbers. -/
theorem reserveModule_eq {module : ModuleInfo} (h : WellPlaced module) (fuel pd : ℕ)
    (m : Machine) :
    Multiboot.reserveModule fuel pd m module =
      identityMap fuel (m.physicalFree module.modStart
        ((module.modEnd - module.modStart) / pageSize)) pd
        (module.modStart / pageSize * pageSize) (module.modEnd - module.modStart) := by
  obtain ⟨hal, hord, hbelow⟩ := h
  have hstart : module.modStart / pageSize * pageSize = module.modStart := by
    rw [pageSize] at *
    omega
  have hsize : (module.modEnd + 2 ^ 32 - module.modStart) % 2 ^ 32
      = module.modEnd - module.modStart := by omega
  rw [Multiboot.reserveModule, hstart]
  simp only [hsize]

/-- A module gets a page more than its size asks for. -/
theorem WellPlaced.count {module : ModuleInfo} (h : WellPlaced module) :
    pageAlign (module.modEnd - module.modStart) / pageSize
      = (module.modEnd - module.modStart) / pageSize + 1 := by
  have := h.below
  exact pageAlign_div (by omega)

theorem WellPlaced.start_lt {module : ModuleInfo} (h : WellPlaced module) :
    module.modStart / pageSize < 2 ^ 20 := by
  have := h.below
  have := h.ordered
  rw [pageSize]
  omega

/-- A module's pages are freed and then reserved again, in one more page than were
freed: what was reserved stays reserved. -/
theorem bootInv_reserveModule {L : Layout} {R : ℕ → Prop} {fuel : ℕ} {m : Machine}
    {module : ModuleInfo} (h : BootInv L R m) (hmod : WellPlaced module) (hfuel : 2 ^ 20 < fuel) :
    ∃ m', Multiboot.reserveModule fuel L.kernelPageDirectory m module = some m' ∧
      BootInv L (fun p => R p ∨ ModuleRun module p) m' := by
  have hkeep : KeepsSelfMapped L m (m.physicalFree module.modStart
      ((module.modEnd - module.modStart) / pageSize)) :=
    KeepsSelfMapped.of_ram h.directory rfl
  obtain ⟨m', hm', hinv, -⟩ := bootInv_identityMap (R := R) (k := module.modStart / pageSize)
    (module.modEnd - module.modStart) hkeep.directory hmod.start_lt hfuel
    (by rw [hmod.count]; exact used_of_freed hmod h.used)
    (fun p hp hR => hkeep.self p hp (h.self p hp hR))
    (fun f hf => Or.inl (h.own f hf))
  rw [hmod.count] at hinv
  exact ⟨m', (reserveModule_eq hmod fuel _ m).trans hm', hinv⟩

theorem BootInv.congr {L : Layout} {R R' : ℕ → Prop} {m : Machine} (h : BootInv L R m)
    (hR : ∀ p, R p ↔ R' p) : BootInv L R' m :=
  ⟨h.directory, fun p hp => h.used p ((hR p).mpr hp),
    fun p hp hR' => h.self p hp ((hR p).mpr hR'), fun f hf => (hR f).mp (h.own f hf)⟩

/-- What every module keeps. -/
theorem reserveModuleMemory_induct {fuel pd : ℕ} {Q : Machine → Prop} (modules : List ModuleInfo) :
    ∀ {m : Machine}, Q m →
    (∀ m, ∀ module ∈ modules, Q m →
      ∃ m', Multiboot.reserveModule fuel pd m module = some m' ∧ Q m') →
    ∃ m', Multiboot.reserveModuleMemory fuel pd m modules = some m' ∧ Q m' := by
  induction modules with
  | nil =>
    intro m h _
    exact ⟨m, rfl, h⟩
  | cons module modules ih =>
    intro m h hstep
    obtain ⟨m₁, hm₁, h₁⟩ := hstep m module List.mem_cons_self h
    obtain ⟨m₂, hm₂, h₂⟩ := ih h₁ fun w x hx => hstep w x (List.mem_cons_of_mem _ hx)
    refine ⟨m₂, ?_, h₂⟩
    rw [Multiboot.reserveModuleMemory, List.foldlM_cons, hm₁]
    exact hm₂

/-- The module loop. -/
theorem bootInv_reserveModuleMemory {L : Layout} {fuel : ℕ} (hfuel : 2 ^ 20 < fuel)
    (modules : List ModuleInfo) : ∀ {R : ℕ → Prop} {m : Machine}, BootInv L R m →
    (∀ module ∈ modules, WellPlaced module) →
    ∃ m', Multiboot.reserveModuleMemory fuel L.kernelPageDirectory m modules = some m' ∧
      BootInv L (fun p => R p ∨ ∃ module ∈ modules, ModuleRun module p) m' := by
  induction modules with
  | nil =>
    intro R m h _
    refine ⟨m, rfl, h.congr ?_⟩
    intro p
    simp
  | cons module modules ih =>
    intro R m h hmods
    obtain ⟨m₁, hm₁, hinv₁⟩ := bootInv_reserveModule h (hmods module List.mem_cons_self) hfuel
    obtain ⟨m₂, hm₂, hinv₂⟩ := ih hinv₁ fun x hx => hmods x (List.mem_cons_of_mem _ hx)
    refine ⟨m₂, ?_, hinv₂.congr ?_⟩
    · rw [Multiboot.reserveModuleMemory, List.foldlM_cons, hm₁]
      exact hm₂
    · intro p
      simp only [List.mem_cons, exists_eq_or_imp, or_assoc]

/-- Every page `init` reserves: the first MiB and the page after it, the image, the
modules. -/
def InitRun (L : Layout) (modules : List ModuleInfo) (p : ℕ) : Prop :=
  (InRun 256 L.kernelRun p ∨ InRun 0 257 p) ∨ ∃ module ∈ modules, ModuleRun module p

/-- `init` returns, and what it is to reserve is reserved. -/
theorem bootInv_init {L : Layout} {fuel : ℕ} {m : Machine} (maps : List MemoryMap)
    {modules : List ModuleInfo} (hboot : Booted L m)
    (hmods : ∀ module ∈ modules, WellPlaced module) (hfuel : 2 ^ 20 < fuel) :
    ∃ m', init L fuel m maps modules = some m' ∧ BootInv L (InitRun L modules) m' := by
  obtain ⟨size, hsize, hkernel⟩ := mapKernelMemory_eq L fuel
    { m with memManData := physicalAllocatorInit m.memManData maps }
  -- the image, from an empty set of reservations
  obtain ⟨m₁, hm₁, hinv₁, -⟩ := bootInv_identityMap (R := fun _ => False) (k := 256) size
    (kernelDirectory_mapKernelPageTable (L := L)
      (m := { m with memManData := physicalAllocatorInit m.memManData maps }) hboot.directory)
    (by omega) hfuel (fun _ hp => hp.elim) (fun _ _ hp => hp.elim)
    (fun f hf => Or.inr (hsize ▸ L.inRun_of_own hf))
  rw [hsize] at hinv₁
  -- the first MiB
  have hlow : pageAlign kernelStart / pageSize = 257 := by decide
  obtain ⟨m₂, hm₂, hinv₂, -⟩ := bootInv_identityMap (k := 0) kernelStart hinv₁.directory
    (by omega) hfuel (fun p hp => Or.inl (hinv₁.used p hp)) hinv₁.self
    (fun f hf => Or.inl (hinv₁.own f hf))
  rw [hlow] at hinv₂
  rw [Nat.zero_mul] at hm₂
  obtain ⟨m₃, hm₃, hinv₃⟩ := bootInv_reserveModuleMemory hfuel modules hinv₂ hmods
  have hkeep : KeepsSelfMapped L m₃ { m₃ with cr3 := pageOf (getPhysicalAddress m₃
      L.kernelPageDirectory (L.kernelPageDirectory * pageSize)) } :=
    KeepsSelfMapped.of_ram hinv₃.directory rfl
  refine ⟨_, ?_, BootInv.congr ⟨hkeep.directory, hinv₃.used,
    fun p hp hR => hkeep.self p hp (hinv₃.self p hp hR), hinv₃.own⟩ ?_⟩
  · simp only [init, hkernel, hm₁, hm₂, hm₃, Option.bind_eq_bind, Option.bind_some]
  · intro p
    simp only [false_or, InitRun]

/-- The kernel's image is in what is reserved. -/
theorem initRun_of_kernel {L : Layout} {modules : List ModuleInfo} {p : ℕ}
    (hp : PageMeets 0 L.kernelEnd p) : InitRun L modules p := by
  obtain ⟨x, -, hx, rfl⟩ := hp
  have hle := L.kernelRun_le
  rw [kernelPages] at hle
  by_cases hlow : x / pageSize < 257
  · exact Or.inl (Or.inr ((inRun_iff (by omega)).mpr ⟨Nat.zero_le _, by omega⟩))
  · refine Or.inl (Or.inl ((inRun_iff (by omega)).mpr ⟨by omega, ?_⟩))
    rw [Layout.kernelRun]
    rw [pageSize, kernelStart] at *
    omega

/-- Every page `init` reserves for a module in the GiB, or for the kernel, but the last one
of a module that ends at 1 GiB. -/
theorem lt_kernelPages_of_meets {L : Layout} {modules : List ModuleInfo} {p : ℕ}
    (hmods : ∀ module ∈ modules, WellPlaced module)
    (hp : PageMeets 0 L.kernelEnd p ∨
      ∃ module ∈ modules, PageMeets module.modStart module.modEnd p) : p < kernelPages := by
  have hend := L.kernelEnd_le
  rw [pageSize] at hend
  rw [kernelPages]
  rcases hp with ⟨x, -, hx, rfl⟩ | ⟨module, hmem, x, -, hx, rfl⟩
  · rw [pageSize]
    omega
  · have hbelow := (hmods module hmem).below
    rw [pageSize]
    omega

/-! ## Later allocations -/

/-- The calls that change the bitmap. -/
inductive AllocatorCall where
  | allocate (numPages : ℕ)
  | allocateAt (startAddress numPages : ℕ)
  | free (startAddress numPages : ℕ)

namespace AllocatorCall

def run (d : MemoryManagerData) : AllocatorCall → MemoryManagerData
  | allocate numPages => (physicalAllocate d numPages).2
  | allocateAt startAddress numPages => physicalAllocateAt d startAddress numPages
  | free startAddress numPages => physicalFree d startAddress numPages

/-- The call gives page `p` back. -/
def Frees (p : ℕ) : AllocatorCall → Prop
  | free startAddress numPages => InRun (pageOf startAddress) numPages p
  | _ => False

/-- A page stays in use until a call frees it. -/
theorem used_run {d : MemoryManagerData} {p : ℕ} (c : AllocatorCall) (hused : d.used p = true)
    (hfree : ¬ c.Frees p) : (c.run d).used p = true := by
  cases c with
  | allocate numPages =>
    rcases physicalAllocate_cases d numPages with ⟨k, _, _, _, h⟩ | ⟨_, h⟩
    · simp only [run, h]
      exact (used_physicalAllocateAt d _ numPages p).mpr (Or.inl hused)
    · simp only [run, h]
      exact hused
  | allocateAt startAddress numPages =>
    exact (used_physicalAllocateAt d startAddress numPages p).mpr (Or.inl hused)
  | free startAddress numPages =>
    exact (used_physicalFree d startAddress numPages p).mpr ⟨hused, hfree⟩

/-- The same for a run of calls. -/
theorem used_foldl_run {p : ℕ} (calls : List AllocatorCall) : ∀ {d : MemoryManagerData},
    d.used p = true → (∀ c ∈ calls, ¬ c.Frees p) → (calls.foldl run d).used p = true := by
  induction calls with
  | nil => intro d hused _; exact hused
  | cons c calls ih =>
    intro d hused hfree
    rw [List.foldl_cons]
    exact ih (used_run c hused (hfree c List.mem_cons_self))
      fun c' hc' => hfree c' (List.mem_cons_of_mem _ hc')

end AllocatorCall

/-- A run that `physicalAllocate` returns has no used page in it. -/
theorem not_inRun_physicalAllocate {d : MemoryManagerData} {n p : ℕ} (hused : d.used p = true)
    (hne : (physicalAllocate d n).1 ≠ 0) : ¬ InRun (pageOf (physicalAllocate d n).1) n p := by
  rcases physicalAllocate_cases d n with ⟨k, hk, hfree, -, h⟩ | ⟨-, h⟩
  · rw [h]
    simp only
    rw [pageOf_mul_of_lt (Nat.lt_trans hk (totalMemory_div_lt d))]
    intro hrun
    rw [hfree p hrun] at hused
    exact Bool.false_ne_true hused
  · rw [h] at hne
    exact absurd rfl hne

/-- `kernelPageDirectory` maps the page at `p * PAGE_SIZE` to itself, as the code reads its
tables, and neither of the two entries lets user code in. -/
structure IdentityMapped (L : Layout) (m : Machine) (p : ℕ) : Prop where
  present : isPagePresent m L.kernelPageDirectory (p * pageSize) = true
  address : getPhysicalAddress m L.kernelPageDirectory (p * pageSize) = p * pageSize
  userPage : Entry.user (getPageTableEntry m L.kernelPageDirectory (p * pageSize)) = false
  userTable : Entry.user (getPageDirectoryEntry m L.kernelPageDirectory (p * pageSize)) = false

theorem identityMapped_of_self {L : Layout} {m : Machine} {p : ℕ} (hdir : KernelDirectory L m)
    (hp : p < kernelPages) (h : SelfMapped L m p) : IdentityMapped L m p := by
  rw [kernelPages] at hp
  have hpage : pageOf (p * pageSize) = p := pageOf_mul_of_lt (by omega)
  refine ⟨?_, ?_, ?_, ?_⟩
  · rw [isPagePresent_eq, hpage]
    exact h.present
  · rw [getPhysicalAddress, getPageTableEntry_eq, hpage, h.frame, Nat.mul_mod_left, Nat.add_zero]
  · rw [getPageTableEntry_eq, hpage]
    exact h.user
  · rw [getPageDirectoryEntry_eq, hpage]
    exact hdir.user _ (by omega)

theorem init_reserves (L : Layout) (fuel : ℕ) (m : Machine) (maps : List MemoryMap)
    (modules : List ModuleInfo) (hboot : Booted L m)
    (hmods : ∀ module ∈ modules, WellPlaced module) (hfuel : 2 ^ 20 < fuel) :
    ∃ m', init L fuel m maps modules = some m' ∧
      ∀ p, (PageMeets 0 L.kernelEnd p ∨
          ∃ module ∈ modules, PageMeets module.modStart module.modEnd p) →
        m'.used p = true ∧ IdentityMapped L m' p ∧
        ∀ calls : List AllocatorCall, (∀ c ∈ calls, ¬ c.Frees p) → ∀ n,
          let later := physicalAllocate (calls.foldl AllocatorCall.run m'.memManData) n
          later.1 ≠ 0 → ¬ InRun (pageOf later.1) n p := by
  obtain ⟨m', hm', hinv⟩ := bootInv_init maps hboot hmods hfuel
  refine ⟨m', hm', ?_⟩
  intro p hp
  have hR : InitRun L modules p := by
    rcases hp with hp | ⟨module, hmem, hp⟩
    · exact initRun_of_kernel hp
    · exact Or.inr ⟨module, hmem, moduleRun_of_meets (hmods module hmem) hp⟩
  have hlt := lt_kernelPages_of_meets hmods hp
  refine ⟨hinv.used p hR, identityMapped_of_self hinv.directory hlt (hinv.self p hlt hR), ?_⟩
  intro calls hcalls n
  exact not_inRun_physicalAllocate
    (AllocatorCall.used_foldl_run calls (hinv.used p hR) hcalls)

/-- An image that holds the directory and the tables and nothing else. -/
def minimalLayout : Layout where
  kernelEnd := 0x201000
  kernelPageDirectory := 0x100
  kernelPageTable := 0x101
  kernelEnd_le := by decide
  le_directory := by decide
  directory_le := by decide
  le_table := by decide
  table_le := by decide
  disjoint := by decide

/-- A machine whose memory is all zero. -/
def blankMachine : Machine := ⟨⟨0, 0, ⟨fun _ => 0⟩⟩, fun _ _ => 0, false, 0⟩

/-- Memory that holds words with bit 0 set everywhere but in the directory and the tables of
`minimalLayout`. -/
def dirtyRam (f _index : ℕ) : ℕ := if 0x100 ≤ f ∧ f < 0x201 then 0 else 1

theorem booted_blankMachine (L : Layout) : Booted L blankMachine :=
  ⟨fun _ => rfl, fun _ _ _ => rfl⟩

/-- Two modules back to back, the first of them right after the image. -/
theorem init_reserves_modules :
    ∃ m', init minimalLayout (2 ^ 20 + 1) blankMachine [⟨0, 0x8000000, 1⟩]
        [⟨0x201000, 0x203800⟩, ⟨0x204000, 0x205000⟩] = some m' ∧
      m'.used 0x203 = true ∧ IdentityMapped minimalLayout m' 0x203 := by
  obtain ⟨m', hm', h⟩ := init_reserves minimalLayout (2 ^ 20 + 1) blankMachine
    [⟨0, 0x8000000, 1⟩] [⟨0x201000, 0x203800⟩, ⟨0x204000, 0x205000⟩]
    (booted_blankMachine minimalLayout)
    (by
      intro module hmem
      simp only [List.mem_cons, List.not_mem_nil, or_false] at hmem
      rcases hmem with rfl | rfl <;> exact ⟨by decide, by decide, by decide⟩)
    (by omega)
  obtain ⟨hused, hmapped, -⟩ := h 0x203
    (Or.inr ⟨⟨0x201000, 0x203800⟩, by decide, 0x203000, by decide, by decide, by decide⟩)
  exact ⟨m', hm', hused, hmapped⟩

end Sakura.MemoryManager
