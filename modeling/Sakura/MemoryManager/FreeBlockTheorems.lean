import Mathlib.Data.List.Perm.Subperm
import Sakura.MemoryManager.KeepsDataTheorems
import Sakura.MemoryManager.MemoryMapTheorems

/-!
# Enough memory

A block of free frames below 1 GiB. What is taken is always taken as low as possible, so an
allocation takes no more of the block than it takes frames (`FreeBlock.allocate`,
`FreeBlock.drop`). The tables that `VirtualMap` takes then lie below 1 GiB, where every slot is
present, so that `n` pages take `n` tables at most; and what `memoryMap` does is known as far as
the rest of memory is concerned (`RangeGiven`).
-/

namespace Sakura.MemoryManager

open MemoryManagerData

/-- The `n` frames from frame `a` on are free, and lie in the kernel's GiB. -/
structure FreeBlock (m : Machine) (a n : ℕ) : Prop where
  le : a + n ≤ kernelPages
  free : ∀ p, a ≤ p → p < a + n → p ∈ freeFrames m.memManData

section

variable {m m' : Machine} {a n k : ℕ}

theorem FreeBlock.mono (h : FreeBlock m a n) (hk : k ≤ n) : FreeBlock m a k := by
  have hle := h.le
  exact ⟨by omega, fun p h1 h2 => h.free p h1 (by omega)⟩

theorem FreeBlock.length_le (h : FreeBlock m a n) : n ≤ (freeFrames m.memManData).length := by
  have hsub : List.range' a n ⊆ freeFrames m.memManData := by
    intro p hp
    rw [List.mem_range'_1] at hp
    exact h.free p hp.1 hp.2
  have hle := (List.Nodup.subperm List.nodup_range' hsub).length_le
  rwa [List.length_range'] at hle

theorem sorted_freeFrames (d : MemoryManagerData) : (freeFrames d).Pairwise (· < ·) :=
  List.pairwise_lt_range.filter _

/-- The frames in front of one of the first frames are among the first, too. -/
theorem mem_take_freeFrames {d : MemoryManagerData} {j p q : ℕ} (hq : q ∈ (freeFrames d).take j)
    (hp : p ∈ freeFrames d) (hlt : p < q) : p ∈ (freeFrames d).take j := by
  have hsorted := sorted_freeFrames d
  rw [← List.take_append_drop j (freeFrames d)] at hsorted hp
  rcases List.mem_append.mp hp with hp | hp
  · exact hp
  · have hgt := (List.pairwise_append.mp hsorted).2.2 q hq p hp
    omega

/-- The first frames lie below the end of the block. -/
theorem FreeBlock.lt_of_mem_take (h : FreeBlock m a n) {j p : ℕ} (hj : j ≤ n)
    (hp : p ∈ (freeFrames m.memManData).take j) : p < a + n := by
  by_contra hge
  have hsub : p :: List.range' a n ⊆ (freeFrames m.memManData).take j := by
    intro q hq
    rcases List.mem_cons.mp hq with rfl | hq
    · exact hp
    · rw [List.mem_range'_1] at hq
      exact mem_take_freeFrames hp (h.free q hq.1 hq.2) (by omega)
  have hnodup : (p :: List.range' a n).Nodup := by
    refine List.nodup_cons.mpr ⟨fun hmem => ?_, List.nodup_range'⟩
    rw [List.mem_range'_1] at hmem
    omega
  have hle := (hnodup.subperm hsub).length_le
  rw [List.length_cons, List.length_range', List.length_take] at hle
  omega

/-- When the first `j` frames are taken, no more than `j` are taken of the block. -/
theorem FreeBlock.drop (h : FreeBlock m a n) {j : ℕ} (hj : j ≤ n)
    (hfree : freeFrames m'.memManData = (freeFrames m.memManData).drop j) :
    FreeBlock m' (a + j) (n - j) := by
  have hle := h.le
  refine ⟨by omega, fun p h1 h2 => ?_⟩
  have hmem := h.free p (by omega) (by omega)
  rw [← List.take_append_drop j (freeFrames m.memManData)] at hmem
  rw [hfree]
  refine (List.mem_append.mp hmem).resolve_left fun htake => ?_
  have hsub : List.range' a (j + 1) ⊆ (freeFrames m.memManData).take j := by
    intro q hq
    rw [List.mem_range'_1] at hq
    by_cases hqp : q = p
    · exact hqp ▸ htake
    · exact mem_take_freeFrames htake (h.free q hq.1 (by omega)) (by omega)
  have hlen := (List.Nodup.subperm List.nodup_range' hsub).length_le
  rw [List.length_range', List.length_take] at hlen
  omega

/-- A run of frames is found, and taken no higher than at the start of the block. -/
theorem FreeBlock.allocate (h : FreeBlock m a (n + k)) :
    ∃ f < 2 ^ 20, (m.physicalAllocate k).1 = f * pageSize ∧
      FramesTaken m (m.physicalAllocate k).2 f k ∧
      FreeBlock (m.physicalAllocate k).2 (a + k) n := by
  have hle := h.le
  rw [kernelPages] at hle
  have hrun : FreeRun m.memManData a k := by
    intro p hp
    rw [inRun_iff (by omega)] at hp
    exact (mem_freeFrames.mp (h.free p hp.1 (by omega))).2
  have htotal := totalMemory_div_lt m.memManData
  rcases physicalAllocate_cases m.memManData k with ⟨f, hf, hfree, hfirst, halloc⟩ | ⟨hnone, halloc⟩
  · have hfa : f ≤ a := by
      by_contra hlt
      exact hfirst a (by omega) hrun
    have hused : ∀ g, (m.physicalAllocate k).2.used g = true ↔ m.used g = true ∨ InRun f k g := by
      intro g
      rw [Machine.used, Machine.physicalAllocate, halloc]
      have := used_physicalAllocateAt m.memManData (f * pageSize) k g
      rwa [pageOf_mul_of_lt (by omega)] at this
    refine ⟨f, by omega, congrArg Prod.fst halloc, ⟨rfl, rfl, hused, hfree⟩,
      by rw [kernelPages]; omega, ?_⟩
    intro p h1 h2
    have hp := mem_freeFrames.mp (h.free p (by omega) (by omega))
    refine mem_freeFrames.mpr ⟨?_, ?_⟩
    · rw [Machine.physicalAllocate, halloc, totalMemory_physicalAllocateAt]
      exact hp.1
    · rw [← Bool.not_eq_true]
      intro hup
      rcases (hused p).mp hup with hup | hin
      · exact Bool.false_ne_true (hp.2.symm.trans hup)
      · rw [inRun_iff (by omega)] at hin
        omega
  · rcases Nat.eq_zero_or_pos k with rfl | hk
    · refine ⟨0, by omega, ?_, ⟨rfl, rfl, ?_, fun g hg => absurd hg (not_inRun_zero _ _)⟩, ?_⟩
      · rw [Nat.zero_mul]
        exact congrArg Prod.fst halloc
      · intro g
        rw [Machine.used, Machine.physicalAllocate, halloc]
        exact (or_iff_left (not_inRun_zero _ _)).symm
      · refine ⟨by rw [kernelPages]; omega, fun p h1 h2 => ?_⟩
        rw [Machine.physicalAllocate, halloc]
        exact h.free p h1 h2
    · exact absurd hrun (hnone a (mem_freeFrames.mp (h.free a (by omega) (by omega))).1)

theorem mem_freeFrames_physicalFree {p f k : ℕ} (h : p ∈ freeFrames m.memManData) :
    p ∈ freeFrames (m.physicalFree f k).atomicDisable.memManData := by
  rw [mem_freeFrames] at h ⊢
  refine ⟨?_, ?_⟩
  · show p < (MemoryManager.physicalFree m.memManData f k).totalMemory.toNat / pageSize
    rw [totalMemory_physicalFree]
    exact h.1
  · rw [← Bool.not_eq_true]
    intro hused
    have hold := ((used_physicalFree m.memManData f k p).mp hused).1
    rw [h.2] at hold
    exact Bool.false_ne_true hold

theorem memset_memManData (k : ℕ) : ∀ {m m' : Machine} {va : ℕ}, memset k m va = some m' →
    m'.memManData = m.memManData := by
  induction k with
  | zero =>
    intro m m' va h
    exact Option.some.inj h ▸ rfl
  | succ k ih =>
    intro m m' va h
    rw [memset, Option.bind_eq_some_iff] at h
    obtain ⟨f, -, hrest⟩ := h
    rw [ih hrest]
    rfl

/-- Memory for the kernel takes no more of the block than it takes frames. -/
theorem FreeBlock.memoryAllocate {L : Layout} {D : List ℕ} {fuel pd size r : ℕ}
    (h : FreeBlock m a (n + pagesFor size)) (hinv : DirectoriesInv L ⟨m, D⟩) (hpd : pd ∈ D)
    (hfuel : 2 ^ 20 < fuel) (halloc : memoryAllocate fuel m pd size false = some (r, m')) :
    ∃ a', FreeBlock m' a' n := by
  have hatomic : FreeBlock m.atomicEnable a (n + pagesFor size) := ⟨h.le, h.free⟩
  obtain ⟨f, hf, hpa, htaken, hblock⟩ := hatomic.allocate
  refine ⟨a + pagesFor size, hblock.le, fun p h1 h2 => ?_⟩
  have hp := hblock.free p h1 h2
  obtain ⟨m₁, hm₁⟩ : ∃ m₁, m₁ = framesAllocated m size := ⟨_, rfl⟩
  have h₁ : DirectoriesInv L ⟨m₁, D⟩ :=
    hm₁ ▸ htaken.directoriesInv (hinv.of_ram (fun _ _ _ => rfl) hinv.used hinv.cr3)
  have hp₁ : p ∈ freeFrames m₁.memManData := hm₁ ▸ hp
  have haddr : allocatedAddress m size = f * pageSize := hpa
  rw [memoryAllocate_eq, haddr, ← hm₁] at halloc
  split at halloc
  · rw [Option.bind_eq_some_iff] at halloc
    obtain ⟨⟨va, m₂⟩, hva, hrest⟩ := halloc
    rcases virtualAllocate_cases hva with ⟨rfl, rfl⟩ | ⟨hfound, hmap, -⟩
    · simp only [if_true] at hrest
      obtain rfl := (Prod.mk.inj (Option.some.inj hrest)).2
      exact mem_freeFrames_physicalFree hp₁
    · obtain ⟨k, rfl, -, hle⟩ := foundAddress_kernel hfuel hfound
      obtain ⟨m₂', hm₂', -, hdealt⟩ := virtualMap_dealt (k * pageSize) (f * pageSize)
        (pagesFor size) false (h₁.roles.ownFrame hpd) hfuel
      obtain rfl := Option.some.inj (hmap.symm.trans hm₂')
      rw [callDeal_kernel (h₁.kernel _ hpd) hle] at hdealt
      have hp₂ : p ∈ freeFrames m₂.memManData := by
        rw [hdealt.free]
        exact hp₁
      by_cases hk : k * pageSize = 0
      · simp only [hk, if_true] at hrest
        obtain rfl := (Prod.mk.inj (Option.some.inj hrest)).2
        exact mem_freeFrames_physicalFree hp₂
      · simp only [if_neg hk, Option.map_eq_some_iff] at hrest
        obtain ⟨m₃, hset, heq⟩ := hrest
        obtain rfl := (Prod.mk.inj heq).2
        rw [memset_memManData _ hset]
        exact hp₂
  · obtain rfl := (Prod.mk.inj (Option.some.inj halloc)).2
    exact hp₁

end

/-! ## Tables -/

/-- A page takes one table at most if the next frame's own slot is there. -/
theorem length_deal_le {present : ℕ → Bool} {t : ℕ} {ts : List ℕ} (p : ℕ)
    (ht : present (t / 1024) = true) : (deal present (t :: ts) p).length ≤ 1 := by
  have hrest : deal present ts t = [] := by
    cases ts <;> rw [deal, if_pos ht]
  rw [deal]
  split
  · exact Nat.zero_le _
  · rw [hrest]
    exact Nat.le_refl _

theorem length_dealPages_le (n : ℕ) : ∀ {present : ℕ → Bool} {frames : List ℕ} (p : ℕ),
    n ≤ frames.length → (∀ t ∈ frames.take n, present (t / 1024) = true) →
    (dealPages present frames n p).length ≤ n := by
  induction n with
  | zero => intro present frames p _ _; exact Nat.le_refl _
  | succ n ih =>
    intro present frames p hlen hslots
    obtain ⟨t, ts, rfl⟩ := List.exists_cons_of_length_pos (Nat.lt_of_lt_of_le n.succ_pos hlen)
    have hone := @length_deal_le present t ts p (hslots t List.mem_cons_self)
    rw [List.length_cons] at hlen
    rw [dealPages]
    set dealt := deal present (t :: ts) p with hdealt
    have hdrop : ∀ u ∈ ((t :: ts).drop dealt.length).take n, u ∈ (t :: ts).take (n + 1) := by
      intro u hu
      rcases Nat.eq_zero_or_pos dealt.length with hzero | hpos
      · rw [hzero] at hu
        exact List.take_subset_take_left _ (Nat.le_succ n) hu
      · rw [show dealt.length = 1 by omega] at hu
        exact List.mem_cons_of_mem _ hu
    have hrest := @ih (fun s => present s || (dealt.lookup s).isSome)
      ((t :: ts).drop dealt.length) ((p + 1) % 2 ^ 20)
      (by rw [List.length_drop, List.length_cons]; omega)
      (fun u hu => by rw [hslots u (hdrop u hu), Bool.true_or])
    rw [List.length_append]
    omega

/-! ## `memoryMap` -/

section

variable {L : Layout} {D : List ℕ} {m m' : Machine} {p n : ℕ}

/-- The `n` pages from page `p` on lie on one side of 1 GiB. -/
def OneSide (p n : ℕ) : Prop := p + n ≤ kernelPages ∨ kernelPages ≤ p ∧ p + n ≤ 2 ^ 20

/-- The pages are present, each with a frame that was free and holds no table, and the rest of
memory is as it was. -/
structure RangeGiven (L : Layout) (D : List ℕ) (m m' : Machine) (p n : ℕ) : Prop where
  inv : DirectoriesInv L ⟨m', D⟩
  cr3 : m'.cr3 = m.cr3
  present : ∀ q < 2 ^ 20, pagePresent m m.cr3 q = true → pagePresent m' m.cr3 q = true
  page : ∀ q < 2 ^ 20, pagePresent m m.cr3 q = true → ¬ InRun p n q → m.used q = true →
    pageEntry m' m.cr3 q = pageEntry m m.cr3 q
  settled : ∀ f, Settled L ⟨m, D⟩ f → Settled L ⟨m', D⟩ f ∧ ∀ i, m'.ram f i = m.ram f i
  given : ∀ q, InRun p n q → pagePresent m' m.cr3 q = true ∧
    m.used (frameAt m' m.cr3 q) = false ∧ ¬ Structural L ⟨m', D⟩ (frameAt m' m.cr3 q)
  directory : p + n ≤ kernelPages → ∀ i, m'.ram m.cr3 i = m.ram m.cr3 i

/-- What `memoryMap` does for the `n` pages from page `p` on: the frames from `f` on are taken, `A`
is dealt for the tables, and each page is mapped. -/
structure RangeDealt (L : Layout) (D : List ℕ) (m m₁ m' : Machine) (p n f : ℕ)
    (A : List (ℕ × ℕ)) : Prop where
  taken : FramesTaken m m₁ f n
  inv : DirectoriesInv L ⟨m₁, D⟩
  dealt : Dealt m₁ m' m.cr3 A (InRun p n) (InRun f n)
  enough : A.length ≤ (freeFrames m₁.memManData).length
  low : ∀ t ∈ A.map Prod.snd, t < kernelPages
  none : p + n ≤ kernelPages → A = []
  maps : ∀ i < n, MapsPage A m' m.cr3 ((p + i) % 2 ^ 20) ((f + i) % 2 ^ 20)
  fresh : FreshRange m m' m.cr3 (InRun p n)

/-- With a block of twice as many frames there are enough for the pages and their tables. -/
theorem memoryMap_dealt {fuel va size N a : ℕ} {isUser : Bool} (h : DirectoriesInv L ⟨m, D⟩)
    (hfuel : 2 ^ 20 < fuel) (hsize : size < 2 ^ 32) (hblock : FreeBlock m a (N + 2 * pagesFor size))
    (hmap : memoryMap fuel m m.cr3 va size isUser = some m') :
    ∃ f m₁ A, RangeDealt L D m m₁ m' (pageOf va) (pagesFor size) f A ∧ ∃ a', FreeBlock m' a' N := by
  have hn : pagesFor size < 2 ^ 20 := pagesFor_lt hsize
  have hcr3 : m.cr3 ∈ D := h.cr3
  set n := pagesFor size with hnsize
  rw [Nat.two_mul, ← Nat.add_assoc] at hblock
  obtain ⟨f, hf, hpa, htaken, hblock₁⟩ := hblock.allocate
  obtain ⟨m₁, hm₁⟩ : ∃ m₁, m₁ = (m.physicalAllocate n).2 := ⟨_, rfl⟩
  rw [← hm₁] at htaken hblock₁
  have h₁ : DirectoriesInv L ⟨m₁, D⟩ := htaken.directoriesInv h
  have hown := h₁.roles.ownFrame hcr3
  have heq := @memoryMap_eq m m.cr3 fuel va size (f * pageSize) isUser m₁
    (Prod.ext hpa hm₁.symm) hown.slot_zero hfuel
  rw [pageOf_mul_of_lt hf, ← hnsize, hmap, Option.some.injEq] at heq
  -- the tables lie below 1 GiB, where slots are present
  have hlow : ∀ t ∈ (freeFrames m₁.memManData).take n, t < kernelPages := by
    intro t ht
    have hlt := hblock₁.lt_of_mem_take (by omega) ht
    have hle := hblock₁.le
    omega
  have hcount := @length_dealPages_le n (slotPresent m₁ m.cr3)
    (freeFrames m₁.memManData) (pageOf va)
    (by have := hblock₁.length_le; omega)
    (by
      intro t ht
      have hlt := hlow t ht
      rw [kernelPages] at hlt
      exact (h₁.kernel _ hcr3 _ (by omega)).1)
  have henough : (dealPages (slotPresent m₁ m.cr3) (freeFrames m₁.memManData) n (pageOf va)).length
      ≤ (freeFrames m₁.memManData).length := by
    have := hblock₁.length_le
    omega
  have hdealt := installPages_dealt isUser n (f := f) hown (pageOf_lt va) hf
  have hmaps := frame_installPages isUser n h₁ hcr3 (pageOf_lt va) hf (Nat.le_of_lt hn) henough
  have hfresh :
      FreshRange m (installPages m.cr3 isUser n m₁ (pageOf va) f) m.cr3 (InRun (pageOf va) n) :=
    freshRange_installPages h₁ hcr3 (pageOf_lt va) hf hn htaken.used htaken.free henough
  rw [← heq] at hdealt hmaps hfresh
  obtain ⟨A, hA⟩ : ∃ A, A = dealPages (slotPresent m₁ m.cr3) (freeFrames m₁.memManData) n
    (pageOf va) := ⟨_, rfl⟩
  rw [← hA] at hdealt hmaps hcount henough
  refine ⟨f, m₁, A, ⟨htaken, h₁, hdealt, henough, ?_, ?_, hmaps, hfresh⟩, ?_⟩
  · intro t ht
    rw [hdealt.frames_of_enough henough] at ht
    exact hlow t (List.take_subset_take_left _ hcount ht)
  · intro hbelow
    rw [hA]
    refine dealPages_present n (pageOf_lt va) fun q hq => ?_
    rw [kernelPages] at hbelow
    rw [inRun_iff (by omega)] at hq
    exact (h₁.kernel _ hcr3 _ (by omega)).1
  · have hblock₂ := hblock₁.drop (show A.length ≤ N + n by omega) hdealt.free
    exact ⟨_, hblock₂.mono (by omega)⟩

section

variable {m₁ : Machine} {f : ℕ} {A : List (ℕ × ℕ)}

/-- The pages of the tables are not mapped, where they are on one side of 1 GiB. -/
theorem RangeDealt.not_mem (h : RangeDealt L D m m₁ m' p n f A) (hside : OneSide p n) {q : ℕ}
    (hq : InRun p n q) : q ∉ A.map Prod.snd := by
  intro hmem
  rcases hside with hbelow | ⟨habove, hle⟩
  · rw [h.none hbelow] at hmem
    exact List.not_mem_nil hmem
  · have hlt := h.low q hmem
    rw [inRun_iff hle] at hq
    omega

/-- A page that is neither mapped nor the page of a table stays. -/
theorem RangeDealt.keepsPage (h : RangeDealt L D m m₁ m' p n f A) (hcr3 : m.cr3 ∈ D) {q : ℕ}
    (hq : q < 2 ^ 20) (hpres : pagePresent m m.cr3 q = true) (hrun : ¬ InRun p n q)
    (hdeal : q ∉ A.map Prod.snd) :
    pagePresent m' m.cr3 q = true ∧ pageEntry m' m.cr3 q = pageEntry m m.cr3 q := by
  have hsame : pagePresent m₁ m.cr3 q = pagePresent m m.cr3 q ∧
      pageEntry m₁ m.cr3 q = pageEntry m m.cr3 q := by
    rw [pagePresent, slotPresent, pageEntry, tableOf, h.taken.ram]
    exact ⟨rfl, rfl⟩
  obtain ⟨h1, h2, -⟩ := h.dealt.keepsPage (h.inv.separate hcr3) h.enough hq (hsame.1.trans hpres)
    hrun hdeal
  exact ⟨h1, h2.trans hsame.2⟩

/-- All tables lie below 1 GiB, and there are none for pages that do. -/
theorem RangeDealt.keepsPage_apart (h : RangeDealt L D m m₁ m' p n f A) (hcr3 : m.cr3 ∈ D) {q : ℕ}
    (hq : q < 2 ^ 20) (hpres : pagePresent m m.cr3 q = true) (hrun : ¬ InRun p n q)
    (hside : kernelPages ≤ q ∨ p + n ≤ kernelPages) :
    pagePresent m' m.cr3 q = true ∧ pageEntry m' m.cr3 q = pageEntry m m.cr3 q := by
  refine h.keepsPage hcr3 hq hpres hrun fun hmem => ?_
  rcases hside with hge | hbelow
  · exact absurd (h.low q hmem) (Nat.not_lt.mpr hge)
  · rw [h.none hbelow] at hmem
    exact List.not_mem_nil hmem

theorem RangeDealt.given (h : RangeDealt L D m m₁ m' p n f A) (hinv : DirectoriesInv L ⟨m, D⟩)
    (hside : OneSide p n) : RangeGiven L D m m' p n := by
  have hcr3 : m.cr3 ∈ D := hinv.cr3
  have htaken := h.taken
  have hdealt := h.dealt
  refine ⟨hdealt.directoriesInv h.inv hcr3 h.enough, hdealt.cr3.trans htaken.cr3, ?_, ?_, ?_, ?_, ?_⟩
  · intro q hq hpres
    by_cases hrun : InRun p n q
    · obtain ⟨i, hi, rfl⟩ := hrun
      exact (h.maps i hi).1
    · by_cases hdeal : q ∈ A.map Prod.snd
      · have hslot : slotPresent m₁ m.cr3 (q / 1024) = true := by
          rw [slotPresent, htaken.ram, ← slotPresent]
          rw [pagePresent, Bool.and_eq_true] at hpres
          exact hpres.1
        have hself := hdealt.self q hdeal hslot
        rw [pagePresent, hself, Bool.and_true, slotPresent, hdealt.keep_slot hslot]
        exact hslot
      · exact (h.keepsPage hcr3 hq hpres hrun hdeal).1
  · intro q hq hpres hrun hused
    refine (h.keepsPage hcr3 hq hpres hrun fun hdeal => ?_).2
    have hunused := hdealt.unused_of_enough h.enough hdeal
    rw [(htaken.used q).mpr (Or.inl hused)] at hunused
    exact Bool.false_ne_true hunused.symm
  · intro g hg
    have hg₁ : Settled L ⟨m₁, D⟩ g :=
      ⟨(htaken.used g).mpr (Or.inl hg.used), fun hs => hg.data (hs.congr fun _ _ i => by rw [htaken.ram])⟩
    obtain ⟨h1, h2⟩ := hdealt.settled h.inv hcr3 h.enough hg₁
    exact ⟨h1, fun i => by rw [h2, htaken.ram]⟩
  · rintro q ⟨i, hi, rfl⟩
    obtain ⟨hpres, hframe⟩ := h.maps i hi
    replace hframe := hframe.resolve_right fun hself => h.not_mem hside ⟨i, hi, rfl⟩ hself.2
    have hrun : InRun f n ((f + i) % 2 ^ 20) := ⟨i, hi, rfl⟩
    rw [hframe]
    refine ⟨hpres, htaken.free _ hrun, fun hs => ?_⟩
    have hold : ¬ Structural L ⟨m₁, D⟩ ((f + i) % 2 ^ 20) := by
      intro hs
      have hused := hinv.used _ (hs.congr fun _ _ i => by rw [htaken.ram])
      rw [htaken.free _ hrun] at hused
      exact Bool.false_ne_true hused
    rcases hs with hs | hs | ⟨pd, hpd, s, ht⟩
    · exact hold (Or.inl hs)
    · exact hold (Or.inr (Or.inl hs))
    · rcases hdealt.userTable_cases h.inv.roles hcr3 hpd ht with ht | ⟨-, hmem⟩
      · exact hold (Or.inr (Or.inr ⟨pd, hpd, s, ht⟩))
      · have hunused := hdealt.unused_of_enough h.enough (List.mem_map.mpr ⟨_, hmem, rfl⟩)
        rw [(htaken.used _).mpr (Or.inr hrun)] at hunused
        exact Bool.false_ne_true hunused.symm
  · intro hbelow i
    rw [hdealt.keep i (by rw [h.none hbelow]; rfl), htaken.ram]

end

theorem memoryMap_given {fuel va size N a : ℕ} {isUser : Bool} (h : DirectoriesInv L ⟨m, D⟩)
    (hfuel : 2 ^ 20 < fuel) (hsize : size < 2 ^ 32) (hblock : FreeBlock m a (N + 2 * pagesFor size))
    (hside : OneSide (pageOf va) (pagesFor size))
    (hmap : memoryMap fuel m m.cr3 va size isUser = some m') :
    RangeGiven L D m m' (pageOf va) (pagesFor size) ∧ ∃ a', FreeBlock m' a' N := by
  obtain ⟨f, m₁, A, hdealt, hblock'⟩ := memoryMap_dealt h hfuel hsize hblock hmap
  exact ⟨hdealt.given h hside, hblock'⟩

end

end Sakura.MemoryManager
