import Sakura.MemoryManager.BootTheorems

/-!
# The state `init` builds

As long as no module ends at 1 GiB, everything `init` maps lies in the kernel's GiB, so the
directory it leaves is known exactly: the pages of the reserved runs are present, each
mapped to itself, and no other page is, and no slot above the GiB is filled.
-/

namespace Sakura.MemoryManager

open MemoryManagerData

/-- `BootInv`, and nothing but the pages of `R` is present. -/
structure BootExact (L : Layout) (R : ℕ → Prop) (m : Machine) : Prop extends BootInv L R m where
  present : ∀ q < kernelPages, pagePresent m L.kernelPageDirectory q = true → R q
  high : ∀ s, 256 ≤ s → slotPresent m L.kernelPageDirectory s = false

theorem BootExact.congr {L : Layout} {R R' : ℕ → Prop} {m : Machine} (h : BootExact L R m)
    (hR : ∀ p, R p ↔ R' p) : BootExact L R' m :=
  ⟨h.toBootInv.congr hR, fun q hq hp => (hR q).mp (h.present q hq hp), h.high⟩

section

variable {L : Layout} {R : ℕ → Prop} {fuel : ℕ} {m : Machine}

/-- `identityMap` of a run of the GiB. -/
theorem bootExact_identityMap {k : ℕ} (size : ℕ) (hdir : KernelDirectory L m)
    (hk : k + pageAlign size / pageSize ≤ kernelPages) (hfuel : 2 ^ 20 < fuel)
    (hused : ∀ p, R p → m.used p = true ∨ InRun k (pageAlign size / pageSize) p)
    (hself : ∀ p < kernelPages, R p → SelfMapped L m p)
    (hown : ∀ f, L.Own f → R f ∨ InRun k (pageAlign size / pageSize) f)
    (hpresent : ∀ q < kernelPages, pagePresent m L.kernelPageDirectory q = true → R q)
    (hhigh : ∀ s, 256 ≤ s → slotPresent m L.kernelPageDirectory s = false) :
    ∃ m', identityMap fuel m L.kernelPageDirectory (k * pageSize) size = some m' ∧
      BootExact L (fun p => R p ∨ InRun k (pageAlign size / pageSize) p) m' ∧
      m'.cr3 = m.cr3 ∧
      m'.memManData
        = physicalAllocateAt m.memManData (k * pageSize) (pageAlign size / pageSize) ∧
      ∀ g i, ¬ L.Own g → m'.ram g i = m.ram g i := by
  have hk20 : k < 2 ^ 20 :=
    Nat.lt_of_le_of_lt (Nat.le_trans (Nat.le_add_right _ _) hk) (by decide)
  obtain ⟨m', hm', hinv, -⟩ := bootInv_identityMap size hdir hk20 hfuel hused hself hown
  set n := pageAlign size / pageSize with hn
  set m₁ := m.atomicEnable.physicalAllocateAt (k * pageSize) n with hm₁
  have hkeep : KeepsSelfMapped L m m₁ := KeepsSelfMapped.of_ram hdir rfl
  have hmapped := installPages_kernel false n k hkeep.directory hk
  have heq := identityMap_eq size hdir hk20 hfuel
  rw [← hn, ← hm₁, hm'] at heq
  have hm'eq := Option.some.inj heq
  have hram : m'.ram = (installPages L.kernelPageDirectory false n m₁ k k).ram := by rw [hm'eq]; rfl
  refine ⟨m', hm', ⟨hinv, ?_, ?_⟩, ?_, ?_, ?_⟩
  · -- a page that is present was present, or is in the run
    intro q hq hp
    rw [inRun_iff (by rw [kernelPages] at hk; omega)]
    rw [pagePresent_kernel hinv.directory hq, pageEntry, tableOf, hram, ← tableOf, ← pageEntry,
      hmapped.entry q hq] at hp
    by_cases hin : k ≤ q ∧ q < k + n
    · exact Or.inr hin
    · rw [if_neg hin] at hp
      left
      apply hpresent q hq
      rw [pagePresent_kernel hdir hq]
      exact hp
  · intro s hs
    rw [slotPresent, hram, hmapped.ram _ _ ?_]
    · exact hhigh s hs
    · rintro ⟨h1, h2⟩
      exact L.table_ne_directory (s := L.kernelPageDirectory - L.kernelPageTable) (by omega)
        (by omega)
  · rw [hm'eq]
    exact hmapped.cr3
  · rw [hm'eq]
    exact hmapped.data
  · intro g i hg
    rw [hram, hmapped.ram g i fun h => hg (Or.inr h)]
    rfl

/-- The image and the first MiB, which `init` maps before it looks at the modules. -/
theorem bootExact_lowMemory (maps : List MemoryMap) (hboot : Booted L m)
    (hfuel : 2 ^ 20 < fuel) :
    ∃ m₁ m₂, mapKernelMemory L fuel
          { m with memManData := physicalAllocatorInit m.memManData maps } = some m₁ ∧
      identityMap fuel m₁ L.kernelPageDirectory 0 kernelStart = some m₂ ∧
      BootExact L (fun p => InRun 256 L.kernelRun p ∨ InRun 0 257 p) m₂ ∧
      m₂.memManData = physicalAllocateAt (physicalAllocateAt
        (physicalAllocatorInit m.memManData maps) (256 * pageSize) L.kernelRun) 0 257 ∧
      ∀ g i, ¬ L.Own g → m₂.ram g i = m.ram g i := by
  set m₀ : Machine := { m with memManData := physicalAllocatorInit m.memManData maps } with hm₀
  obtain ⟨size, hsize, hkernel⟩ := mapKernelMemory_eq L fuel m₀
  have hrun := L.kernelRun_le
  have hdir := kernelDirectory_mapKernelPageTable (L := L) (m := m₀) hboot.directory
  have hzero : ∀ q < kernelPages, pageEntry (mapKernelPageTable L m₀ L.kernelPageDirectory)
      L.kernelPageDirectory q = 0 := by
    intro q hq
    have hqs : q / 1024 < 256 := by rw [kernelPages] at hq; omega
    rw [pageEntry_kernel hdir hq, ram_mapKernelPageTable,
      if_neg fun h => L.table_ne_directory hqs h.1]
    exact hboot.table _ hqs _
  -- the image, in a directory whose tables are empty
  obtain ⟨m₁, hm₁, hex₁, -, hdata₁, hram₁⟩ := bootExact_identityMap (R := fun _ => False) (k := 256) size
    hdir (hsize ▸ hrun) hfuel (fun _ hp => hp.elim) (fun _ _ hp => hp.elim)
    (fun f hf => Or.inr (hsize ▸ L.inRun_of_own hf))
    (by
      intro q hq hp
      rw [pagePresent_kernel hdir hq, hzero q hq] at hp
      exact absurd hp (by decide))
    (by
      intro s hs
      rw [slotPresent, ram_mapKernelPageTable, if_neg (by omega)]
      exact hboot.directory s ▸ rfl)
  rw [hsize] at hex₁ hdata₁
  rw [memManData_mapKernelPageTable] at hdata₁
  -- the first MiB, and the page after it
  have hlow : pageAlign kernelStart / pageSize = 257 := by decide
  obtain ⟨m₂, hm₂, hex₂, -, hdata₂, hram₂⟩ := bootExact_identityMap (k := 0) kernelStart hex₁.directory
    (by rw [hlow]; decide) hfuel (fun p hp => Or.inl (hex₁.used p hp)) hex₁.self
    (fun f hf => Or.inl (hex₁.own f hf)) hex₁.present hex₁.high
  rw [Nat.zero_mul] at hm₂ hdata₂
  rw [hlow] at hex₂ hdata₂
  refine ⟨m₁, m₂, hkernel.trans hm₁, hm₂, hex₂.congr ?_, by rw [hdata₂, hdata₁], ?_⟩
  · intro p
    simp only [false_or]
  · intro g i hg
    rw [hram₂ g i hg, hram₁ g i hg, ram_mapKernelPageTable,
      if_neg]
    rintro ⟨rfl, -⟩
    exact hg (Or.inl rfl)

/-- One module that ends below the last page of the GiB. -/
theorem bootExact_reserveModule {module : ModuleInfo} (h : BootExact L R m)
    (hmod : WellPlaced module) (hend : module.modEnd ≠ 2 ^ 30) (hfuel : 2 ^ 20 < fuel) :
    ∃ m', Multiboot.reserveModule fuel L.kernelPageDirectory m module = some m' ∧
      BootExact L (fun p => R p ∨ ModuleRun module p) m' := by
  have hkeep : KeepsSelfMapped L m (m.physicalFree module.modStart
      ((module.modEnd - module.modStart) / pageSize)) :=
    KeepsSelfMapped.of_ram h.directory rfl
  obtain ⟨m', hm', hex, -⟩ := bootExact_identityMap (R := R) (k := module.modStart / pageSize)
    (module.modEnd - module.modStart) hkeep.directory
    (by
      obtain ⟨hal, hord, hbelow⟩ := hmod
      rw [WellPlaced.count ⟨hal, hord, hbelow⟩, kernelPages]
      rw [pageSize] at *
      omega)
    hfuel (by rw [hmod.count]; exact used_of_freed hmod h.used)
    (fun p hp hR => hkeep.self p hp (h.self p hp hR))
    (fun f hf => Or.inl (h.own f hf)) h.present h.high
  rw [hmod.count] at hex
  exact ⟨m', (reserveModule_eq hmod fuel _ m).trans hm', hex⟩

theorem bootExact_reserveModuleMemory (hfuel : 2 ^ 20 < fuel) (modules : List ModuleInfo) :
    ∀ {R : ℕ → Prop} {m : Machine}, BootExact L R m →
    (∀ module ∈ modules, WellPlaced module ∧ module.modEnd ≠ 2 ^ 30) →
    ∃ m', Multiboot.reserveModuleMemory fuel L.kernelPageDirectory m modules = some m' ∧
      BootExact L (fun p => R p ∨ ∃ module ∈ modules, ModuleRun module p) m' := by
  induction modules with
  | nil =>
    intro R m h _
    refine ⟨m, rfl, h.congr ?_⟩
    intro p
    simp
  | cons module modules ih =>
    intro R m h hmods
    obtain ⟨hplaced, hend⟩ := hmods module List.mem_cons_self
    obtain ⟨m₁, hm₁, hex₁⟩ := bootExact_reserveModule h hplaced hend hfuel
    obtain ⟨m₂, hm₂, hex₂⟩ := ih hex₁ fun x hx => hmods x (List.mem_cons_of_mem _ hx)
    refine ⟨m₂, ?_, hex₂.congr ?_⟩
    · rw [Multiboot.reserveModuleMemory, List.foldlM_cons, hm₁]
      exact hm₂
    · intro p
      simp only [List.mem_cons, exists_eq_or_imp, or_assoc]

/-- The value `init` puts in CR3: the directory's own frame. -/
theorem pageOf_directory (h : BootInv L R m) :
    pageOf (getPhysicalAddress m L.kernelPageDirectory (L.kernelPageDirectory * pageSize))
      = L.kernelPageDirectory := by
  have hown : L.Own L.kernelPageDirectory := Or.inl rfl
  have hlt : L.kernelPageDirectory < kernelPages := by
    have h1 := L.directory_le
    have h2 := L.kernelEnd_le
    rw [pageSize] at h1 h2
    rw [kernelPages]
    omega
  have hself := h.self _ hlt (h.own _ hown)
  have haddr := (identityMapped_of_self h.directory hlt hself).address
  rw [haddr, pageOf_mul_of_lt (L.own_lt hown)]

theorem BootExact.setCr3 (h : BootExact L R m) (c : ℕ) : BootExact L R { m with cr3 := c } := by
  have hkeep : KeepsSelfMapped L m { m with cr3 := c } := KeepsSelfMapped.of_ram h.directory rfl
  exact ⟨⟨hkeep.directory, h.used, fun p hp hR => hkeep.self p hp (h.self p hp hR), h.own⟩,
    h.present, h.high⟩

theorem bootExact_init (maps : List MemoryMap) {modules : List ModuleInfo} (hboot : Booted L m)
    (hmods : ∀ module ∈ modules, WellPlaced module ∧ module.modEnd ≠ 2 ^ 30)
    (hfuel : 2 ^ 20 < fuel) :
    ∃ m', init L fuel m maps modules = some m' ∧ BootExact L (InitRun L modules) m' ∧
      m'.cr3 = L.kernelPageDirectory := by
  obtain ⟨m₁, m₂, hm₁, hm₂, hex₂, -⟩ := bootExact_lowMemory maps hboot hfuel
  obtain ⟨m₃, hm₃, hex₃⟩ := bootExact_reserveModuleMemory hfuel modules hex₂ hmods
  refine ⟨{ m₃ with cr3 := pageOf (getPhysicalAddress m₃ L.kernelPageDirectory
    (L.kernelPageDirectory * pageSize)) }, ?_, hex₃.setCr3 _, pageOf_directory hex₃.toBootInv⟩
  simp only [init, hm₁, hm₂, hm₃, Option.bind_eq_bind, Option.bind_some]

/-- Without modules the bitmap is known as well: what the memory map left used, and what
`init` reserved. -/
theorem used_init (maps : List MemoryMap) (hboot : Booted L m) (hfuel : 2 ^ 20 < fuel) :
    ∃ m', init L fuel m maps [] = some m' ∧
      m'.memManData.totalMemory = (physicalAllocatorInit m.memManData maps).totalMemory ∧
      ∀ p, m'.memManData.used p = true ↔
        (physicalAllocatorInit m.memManData maps).used p = true ∨ InitRun L [] p := by
  obtain ⟨m₁, m₂, hm₁, hm₂, -, hdata, -⟩ := bootExact_lowMemory maps hboot hfuel
  refine ⟨{ m₂ with cr3 := pageOf (getPhysicalAddress m₂ L.kernelPageDirectory
    (L.kernelPageDirectory * pageSize)) }, ?_, ?_, ?_⟩
  · simp only [init, hm₁, hm₂, Multiboot.reserveModuleMemory, List.foldlM_nil, Option.pure_def,
      Option.bind_eq_bind, Option.bind_some]
  · simp only [hdata, totalMemory_physicalAllocateAt]
  · intro p
    have h0 : pageOf 0 = 0 := rfl
    simp only [hdata, used_physicalAllocateAt, pageOf_mul_of_lt (show 256 < 2 ^ 20 by omega), h0,
      InitRun, List.not_mem_nil, false_and, exists_false, or_false, or_assoc]

/-- Without modules nothing is written but the kernel's tables. -/
theorem ram_init (maps : List MemoryMap) (hboot : Booted L m) (hfuel : 2 ^ 20 < fuel) :
    ∃ m', init L fuel m maps [] = some m' ∧ ∀ g i, ¬ L.Own g → m'.ram g i = m.ram g i := by
  obtain ⟨m₁, m₂, hm₁, hm₂, -, -, hram⟩ := bootExact_lowMemory maps hboot hfuel
  refine ⟨{ m₂ with cr3 := pageOf (getPhysicalAddress m₂ L.kernelPageDirectory
    (L.kernelPageDirectory * pageSize)) }, ?_, hram⟩
  simp only [init, hm₁, hm₂, Multiboot.reserveModuleMemory, List.foldlM_nil, Option.pure_def,
    Option.bind_eq_bind, Option.bind_some]

end

/-- 128 MiB of memory and no modules. -/
theorem bootExact_init_minimal :
    ∃ m₀, init minimalLayout (2 ^ 20 + 1) blankMachine [⟨0, 0x8000000, 1⟩] [] = some m₀ ∧
      BootExact minimalLayout (InitRun minimalLayout []) m₀ ∧
      m₀.cr3 = minimalLayout.kernelPageDirectory :=
  bootExact_init [⟨0, 0x8000000, 1⟩] (booted_blankMachine minimalLayout) (List.forall_mem_nil _)
    (show 2 ^ 20 < 2 ^ 20 + 1 by omega)

end Sakura.MemoryManager
