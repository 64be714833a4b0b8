import Mathlib.Data.List.Nodup
import Sakura.MemoryManager.DealTheorems
import Sakura.MemoryManager.BootTheorems

/-!
# The page tables `VirtualMap` installs

A law a call of `VirtualMap` is meant to keep, and exactly when it does: the frames it marks
used are those of the directory entries that became present, and no two entries share a table
(`virtualMap_frameOwnership_iff`). It breaks when the frames run out, because the failure
value 0 is installed as a table, when a frame is taken for a slot its own page lies in, because
the slot is then filled twice, and when a free frame is a table already. The law is read off
the deal of `DealTheorems`.
-/

namespace Sakura.MemoryManager

open MemoryManagerData

/-- The directory holds the 256 entries of `mapKernelPageTable`. -/
def HoldsKernelEntries (L : Layout) (m : Machine) (pd : ℕ) : Prop :=
  ∀ s < 256, slotPresent m pd s = true ∧ tableOf m pd s = L.kernelPageTable + s

/-- A frame the call marked used. -/
def NewlyUsed (m m' : Machine) (f : ℕ) : Prop := m.used f = false ∧ m'.used f = true

/-- A directory entry that became present. -/
def NewSlot (m m' : Machine) (pd s : ℕ) : Prop :=
  s < 1024 ∧ slotPresent m pd s = false ∧ slotPresent m' pd s = true

/-- The frames marked used are the tables of the new entries, and not frame 0, and no two
entries of the directory, new or old, share a table. -/
structure FrameOwnership (m m' : Machine) (pd : ℕ) : Prop where
  owned : ∀ f, NewlyUsed m m' f ↔ ∃ s, NewSlot m m' pd s ∧ tableOf m' pd s = f
  separate : ∀ s < 1024, ∀ s' < 1024, slotPresent m' pd s = true → slotPresent m' pd s' = true →
    tableOf m' pd s = tableOf m' pd s' → s = s'
  ne_zero : ∀ f, NewlyUsed m m' f → f ≠ 0

/-- No slot is dealt two frames, and a slot for which there was none (frame 0, which is in
use) is dealt a frame as well. -/
def SoundDeal (zeroUsed : Bool) (A : List (ℕ × ℕ)) : Prop :=
  ((A.filter fun a => a.2 ≠ 0).map Prod.fst).Nodup ∧
    ∀ s, (s, 0) ∈ A → zeroUsed = true ∧ ∃ f, f ≠ 0 ∧ (s, f) ∈ A

/-- No two slots share a table before the call, and no frame that is dealt is the table of a
slot. -/
def NoneShared (m : Machine) (pd : ℕ) (A : List (ℕ × ℕ)) : Prop :=
  (∀ s < 1024, ∀ s' < 1024, slotPresent m pd s = true → slotPresent m pd s' = true →
    tableOf m pd s = tableOf m pd s' → s = s') ∧
  ∀ a ∈ A, a.2 ≠ 0 → ∀ s < 1024, slotPresent m pd s = true → tableOf m pd s ≠ a.2

/-! ## The frames of a deal -/

section

variable {m m' : Machine} {pd : ℕ} {A : List (ℕ × ℕ)} {mapped target : ℕ → Prop}

/-- A frame that is dealt was free, unless it is frame 0. -/
theorem Dealt.free_of_mem (h : Dealt m m' pd A mapped target) {s f : ℕ} (ha : (s, f) ∈ A)
    (hf : f ≠ 0) : f ∈ freeFrames m.memManData := by
  have hmem : f ∈ A.map Prod.snd := List.mem_map.mpr ⟨(s, f), ha, rfl⟩
  rw [h.frames] at hmem
  exact (mem_dealtFrames hmem).resolve_left hf

/-- Only frame 0 is dealt twice. -/
theorem Dealt.nodup_frames (h : Dealt m m' pd A mapped target) :
    ((A.filter fun a => a.2 ≠ 0).map Prod.snd).Nodup := by
  have hfilter : (A.filter fun a => a.2 ≠ 0).map Prod.snd
      = ((freeFrames m.memManData).take A.length).filter fun f => f ≠ 0 := by
    have hzeros : (List.replicate (A.length - (freeFrames m.memManData).length) 0).filter
        (fun f => decide (f ≠ 0)) = [] := by
      rw [List.filter_eq_nil_iff]
      intro f hf
      simp [List.eq_of_mem_replicate hf]
    have hmap := congrArg (List.filter fun f => decide (f ≠ 0)) h.frames
    rw [dealtFrames, List.filter_append, hzeros, List.append_nil, List.filter_map] at hmap
    exact hmap
  rw [hfilter]
  exact ((nodup_freeFrames m.memManData).sublist (List.take_sublist _ _)).filter _

/-- A frame is dealt to one slot only. -/
theorem Dealt.slot_unique (h : Dealt m m' pd A mapped target) {s s' f : ℕ} (ha : (s, f) ∈ A)
    (ha' : (s', f) ∈ A) (hf : f ≠ 0) : s = s' := by
  have hmem : (s, f) ∈ A.filter fun a => a.2 ≠ 0 := List.mem_filter.mpr ⟨ha, by simpa using hf⟩
  have hmem' : (s', f) ∈ A.filter fun a => a.2 ≠ 0 := List.mem_filter.mpr ⟨ha', by simpa using hf⟩
  exact congrArg Prod.fst (List.inj_on_of_nodup_map h.nodup_frames hmem hmem' rfl)

/-- Once the frames have run out, every slot gets frame 0. -/
theorem lookup_zero_last (hA : A.Pairwise fun a b => a.2 = 0 → b.2 = 0) {s f : ℕ}
    (hl : A.lookup s = some 0) (hf : (s, f) ∈ A) : f = 0 := by
  induction A with
  | nil => cases hl
  | cons a A ih =>
    obtain ⟨s', t⟩ := a
    obtain ⟨hhead, htail⟩ := List.pairwise_cons.mp hA
    by_cases hs : s = s'
    · subst hs
      rw [List.lookup_cons_self] at hl
      have ht : t = 0 := Option.some.inj hl
      rcases List.mem_cons.mp hf with heq | hf
      · rw [(Prod.mk.inj heq).2, ht]
      · exact hhead (s, f) hf ht
    · rw [List.lookup_cons, beq_false_of_ne hs] at hl
      rcases List.mem_cons.mp hf with heq | hf
      · exact absurd (Prod.mk.inj heq).1 hs
      · exact ih htail hl hf

/-- Once an allocation fails, all later ones do. -/
theorem Dealt.zero_last (h : Dealt m m' pd A mapped target) (h0 : m.used 0 = true) :
    A.Pairwise fun a b => a.2 = 0 → b.2 = 0 := by
  have hpair : (A.map Prod.snd).Pairwise fun f g => f = 0 → g = 0 := by
    rw [h.frames, dealtFrames, List.pairwise_append]
    refine ⟨?_, ?_, ?_⟩
    · apply List.pairwise_of_forall_mem_list
      intro f hf g _ hzero
      subst hzero
      have hfree := (mem_freeFrames.mp (List.mem_of_mem_take hf)).2
      rw [← Machine.used, h0] at hfree
      exact absurd hfree.symm Bool.false_ne_true
    · apply List.pairwise_of_forall_mem_list
      intro f _ g hg _
      exact List.eq_of_mem_replicate hg
    · intro f _ g hg _
      exact List.eq_of_mem_replicate hg
  exact List.pairwise_map.mp hpair

/-- The frames that become used are those that are dealt, if they were free. -/
theorem Dealt.newlyUsed_iff (h : Dealt m m' pd A mapped target) {f : ℕ} :
    NewlyUsed m m' f ↔ m.used f = false ∧ f ∈ A.map Prod.snd := by
  rw [NewlyUsed, h.used]
  constructor
  · rintro ⟨hf, hu | hu⟩
    · rw [hf] at hu
      exact absurd hu Bool.false_ne_true
    · exact ⟨hf, hu⟩
  · rintro ⟨hf, hu⟩
    exact ⟨hf, Or.inr hu⟩

/-- Every frame that is dealt becomes used, unless it is frame 0. -/
theorem Dealt.newlyUsed_of_mem (h : Dealt m m' pd A mapped target) {s f : ℕ} (ha : (s, f) ∈ A)
    (hf : f ≠ 0) : NewlyUsed m m' f :=
  h.newlyUsed_iff.mpr
    ⟨(mem_freeFrames.mp (h.free_of_mem ha hf)).2, List.mem_map.mpr ⟨(s, f), ha, rfl⟩⟩

/-- The new entries are the slots of the deal. -/
theorem Dealt.newSlot_iff (h : Dealt m m' pd A mapped target) {s t : ℕ} :
    NewSlot m m' pd s ∧ tableOf m' pd s = t ↔ A.lookup s = some t := by
  constructor
  · rintro ⟨⟨-, habs, hpres⟩, ht⟩
    cases hl : A.lookup s with
    | none =>
      rw [slotPresent, h.keep s hl, ← slotPresent, habs] at hpres
      exact absurd hpres Bool.false_ne_true
    | some u => rw [← ht, (h.slot s u hl).2]
  · intro hl
    obtain ⟨hlt, habs⟩ := h.absent _ (mem_of_lookup_eq_some hl)
    obtain ⟨hpres, ht⟩ := h.slot s t hl
    exact ⟨⟨hlt, habs, hpres⟩, ht⟩

/-- A slot in the deal has a last frame. -/
theorem lookup_of_mem {s f : ℕ} (ha : (s, f) ∈ A) : ∃ t, A.lookup s = some t :=
  Option.ne_none_iff_exists'.mp (lookup_ne_none_of_mem ha)

/-! ## Ownership of the frames -/

/-- Every frame that was dealt is the one its slot ends up with. -/
theorem Dealt.lookup_of_owned (h : Dealt m m' pd A mapped target) (hlaw : FrameOwnership m m' pd)
    {s f : ℕ} (ha : (s, f) ∈ A) (hf : f ≠ 0) : A.lookup s = some f := by
  obtain ⟨s', hnew⟩ := (hlaw.owned f).mp (h.newlyUsed_of_mem ha hf)
  have hl := h.newSlot_iff.mp hnew
  rw [h.slot_unique ha (mem_of_lookup_eq_some hl) hf]
  exact hl

/-- Where ownership holds, the deal is sound. -/
theorem Dealt.soundDeal (h : Dealt m m' pd A mapped target) (hlaw : FrameOwnership m m' pd) :
    SoundDeal (m.used 0) A := by
  refine ⟨?_, ?_⟩
  · apply List.Nodup.map_on
    · rintro ⟨s, f⟩ ha ⟨s', f'⟩ ha' heq
      obtain ⟨ha, hf⟩ := List.mem_filter.mp ha
      obtain ⟨ha', hf'⟩ := List.mem_filter.mp ha'
      obtain rfl : s = s' := heq
      have hl := h.lookup_of_owned hlaw ha (by simpa using hf)
      rw [h.lookup_of_owned hlaw ha' (by simpa using hf')] at hl
      rw [Option.some.inj hl]
    · exact List.Nodup.of_map Prod.snd h.nodup_frames
  · intro s ha
    refine ⟨?_, ?_⟩
    · by_contra h0
      rw [Bool.not_eq_true] at h0
      exact hlaw.ne_zero 0 (h.newlyUsed_iff.mpr ⟨h0, List.mem_map.mpr ⟨(s, 0), ha, rfl⟩⟩) rfl
    · obtain ⟨t, hl⟩ := lookup_of_mem ha
      have hused := (hlaw.owned t).mpr ⟨s, h.newSlot_iff.mpr hl⟩
      exact ⟨t, hlaw.ne_zero t hused, mem_of_lookup_eq_some hl⟩

/-- A slot that was present is as it was. -/
theorem Dealt.slot_kept (h : Dealt m m' pd A mapped target) {s : ℕ}
    (hs : slotPresent m pd s = true) :
    slotPresent m' pd s = true ∧ tableOf m' pd s = tableOf m pd s := by
  unfold slotPresent tableOf
  rw [h.keep_slot hs]
  exact ⟨hs, rfl⟩

/-- A slot that is present afterwards was, with its table, or was dealt its table. -/
theorem Dealt.slot_cases (h : Dealt m m' pd A mapped target) {s : ℕ}
    (hs : slotPresent m' pd s = true) :
    (slotPresent m pd s = true ∧ tableOf m' pd s = tableOf m pd s) ∨
      A.lookup s = some (tableOf m' pd s) := by
  cases hl : A.lookup s with
  | none =>
    rw [slotPresent, h.keep s hl, ← slotPresent] at hs
    exact Or.inl ⟨hs, (h.slot_kept hs).2⟩
  | some t => exact Or.inr (by rw [(h.slot s t hl).2])

/-- Where ownership holds, no present slot shares its table. -/
theorem Dealt.noneShared (h : Dealt m m' pd A mapped target) (hlaw : FrameOwnership m m' pd) :
    NoneShared m pd A := by
  refine ⟨?_, ?_⟩
  · intro s hs s' hs' hp hp' heq
    obtain ⟨hpres, htable⟩ := h.slot_kept hp
    obtain ⟨hpres', htable'⟩ := h.slot_kept hp'
    exact hlaw.separate s hs s' hs' hpres hpres' (by rw [htable, htable', heq])
  · rintro ⟨s', f⟩ ha hf s hs hp heq
    -- the slot that was dealt the frame ends up with it, and was empty
    obtain ⟨hlt, habsent⟩ := h.absent _ ha
    obtain ⟨hpres', htable'⟩ := h.slot s' f (h.lookup_of_owned hlaw ha hf)
    obtain ⟨hpres, htable⟩ := h.slot_kept hp
    obtain rfl := hlaw.separate s hs s' hlt hpres hpres' (by rw [htable, htable', heq])
    rw [hp] at habsent
    exact Bool.false_ne_true habsent.symm

/-- A sound deal leaves no slot with frame 0. -/
theorem Dealt.lookup_ne_zero (h : Dealt m m' pd A mapped target) (hsound : SoundDeal (m.used 0) A)
    {s t : ℕ} (hl : A.lookup s = some t) : t ≠ 0 := by
  rintro rfl
  obtain ⟨h0, f, hf, ha⟩ := hsound.2 s (mem_of_lookup_eq_some hl)
  exact hf (lookup_zero_last (h.zero_last h0) hl ha)

/-- What a sound deal of frames that are no tables leaves: no two slots share one. -/
theorem Dealt.separate (h : Dealt m m' pd A mapped target) (hsound : SoundDeal (m.used 0) A)
    (hshared : NoneShared m pd A) {s s' : ℕ} (hs : s < 1024) (hs' : s' < 1024)
    (hp : slotPresent m' pd s = true) (hp' : slotPresent m' pd s' = true)
    (heq : tableOf m' pd s = tableOf m' pd s') : s = s' := by
  have hold : ∀ {s s'}, s < 1024 → slotPresent m pd s = true → tableOf m' pd s = tableOf m pd s →
      A.lookup s' = some (tableOf m' pd s') → tableOf m' pd s ≠ tableOf m' pd s' := by
    intro s s' hs hp htable hl heq
    exact hshared.2 _ (mem_of_lookup_eq_some hl) (h.lookup_ne_zero hsound hl) s hs hp
      (htable.symm.trans heq)
  rcases h.slot_cases hp with ⟨hold₁, htable⟩ | hl
  · rcases h.slot_cases hp' with ⟨hold₂, htable'⟩ | hl'
    · exact hshared.1 s hs s' hs' hold₁ hold₂ (by rw [← htable, ← htable', heq])
    · exact absurd heq (hold hs hold₁ htable hl')
  · rcases h.slot_cases hp' with ⟨hold₂, htable'⟩ | hl'
    · exact absurd heq.symm (hold hs' hold₂ htable' hl)
    · rw [← heq] at hl'
      exact h.slot_unique (mem_of_lookup_eq_some hl) (mem_of_lookup_eq_some hl')
        (h.lookup_ne_zero hsound hl)

/-- A sound deal among tables that nobody shares gives ownership. -/
theorem Dealt.frameOwnership (h : Dealt m m' pd A mapped target) (hsound : SoundDeal (m.used 0) A)
    (hshared : NoneShared m pd A) : FrameOwnership m m' pd := by
  have hused : ∀ {f}, NewlyUsed m m' f → f ≠ 0 := by
    rintro f hf rfl
    obtain ⟨h0, hmem⟩ := h.newlyUsed_iff.mp hf
    obtain ⟨⟨s, t⟩, ha, rfl⟩ := List.mem_map.mp hmem
    rw [(hsound.2 s ha).1] at h0
    exact Bool.false_ne_true h0.symm
  refine ⟨?_, fun s hs s' hs' hp hp' heq => h.separate hsound hshared hs hs' hp hp' heq,
    fun f => hused⟩
  intro f
  constructor
  · intro hf
    obtain ⟨-, hmem⟩ := h.newlyUsed_iff.mp hf
    obtain ⟨⟨s, t⟩, ha, rfl⟩ := List.mem_map.mp hmem
    obtain ⟨u, hl⟩ := lookup_of_mem ha
    -- the slot's first frame and this one are the same entry
    have hsame := List.inj_on_of_nodup_map hsound.1
      (List.mem_filter.mpr ⟨mem_of_lookup_eq_some hl, by simpa using h.lookup_ne_zero hsound hl⟩)
      (List.mem_filter.mpr ⟨ha, by simpa using hused hf⟩) rfl
    rw [(Prod.mk.inj hsame).2] at hl
    exact ⟨s, h.newSlot_iff.mpr hl⟩
  · rintro ⟨s, hnew⟩
    have hl := h.newSlot_iff.mp hnew
    exact h.newlyUsed_of_mem (mem_of_lookup_eq_some hl) (h.lookup_ne_zero hsound hl)

end

/-- The deal of a call of `VirtualMap`: a function of the slots that are present and the
frames that are free. -/
def callDeal (m : Machine) (pd virtualAddress numPages : ℕ) : List (ℕ × ℕ) :=
  dealPages (slotPresent m pd) (freeFrames m.memManData) numPages (pageOf virtualAddress)

/-- The directory's frame is in use, is not frame 0, and is none of its own tables. -/
structure DirectoryFrame (m : Machine) (pd : ℕ) : Prop where
  ne_zero : pd ≠ 0
  used : m.used pd = true
  table_ne : ∀ s < 1024, slotPresent m pd s = true → tableOf m pd s ≠ pd

/-- The directory is in a frame of its own, behind the kernel's tables. -/
theorem ownFrame_of_kernel {L : Layout} {m : Machine} {pd : ℕ}
    (hdir : HoldsKernelEntries L m pd) (hframe : DirectoryFrame m pd) : OwnFrame m pd :=
  ⟨hframe.ne_zero, hframe.used, (hdir 0 (by omega)).1, hframe.table_ne⟩

/-- `VirtualMap` returns, and its effect is that of its deal. -/
theorem virtualMap_dealt {fuel : ℕ} {m : Machine} {pd : ℕ} (va pa n : ℕ) (isUser : Bool)
    (hown : OwnFrame m pd) (hfuel : 2 ^ 20 < fuel) :
    ∃ m', virtualMap fuel m pd va pa n isUser = some m' ∧ Grows m m' ∧
      Dealt m m' pd (callDeal m pd va n) (InRun (pageOf va) n) (InRun (pageOf pa) n) := by
  have hlen := length_freeFrames_lt m.memManData
  exact ⟨_, virtualMap_eq va pa n isUser hown.slot_zero (by omega),
    grows_installPages pd isUser n m _ _,
    installPages_dealt isUser n hown (pageOf_lt va) (pageOf_lt pa)⟩

/-- After `VirtualMap` every frame it took is the table of its slot alone, and no two slots share a
table, exactly if the deal is sound and nothing was shared. -/
theorem virtualMap_frameOwnership_iff (L : Layout) (fuel : ℕ) (m : Machine) (pd va pa n : ℕ)
    (isUser : Bool) (hdir : HoldsKernelEntries L m pd) (hframe : DirectoryFrame m pd)
    (hfuel : 2 ^ 20 < fuel) :
    ∃ m', virtualMap fuel m pd va pa n isUser = some m' ∧
      (FrameOwnership m m' pd ↔ SoundDeal (m.used 0) (callDeal m pd va n) ∧
        NoneShared m pd (callDeal m pd va n)) := by
  obtain ⟨m', hm', -, hdealt⟩ := virtualMap_dealt va pa n isUser (ownFrame_of_kernel hdir hframe)
    hfuel
  exact ⟨m', hm', fun hlaw => ⟨hdealt.soundDeal hlaw, hdealt.noneShared hlaw⟩,
    fun h => hdealt.frameOwnership h.1 h.2⟩

/-! ### A directory with the kernel's entries and nothing else -/

/-- 128 MiB of memory with the given contents and bitmap, and the kernel's directory. -/
def directoryMachine (ram : ℕ → ℕ → ℕ) (bitmap : Bitmap) : Machine :=
  mapKernelPageTable minimalLayout ⟨⟨0x8000000#32, 0, bitmap⟩, ram, true, 0x100⟩ 0x100

/-- Every page is used. -/
def fullBitmap : Bitmap := ⟨fun _ => 0xFF#8⟩

/-- Every page but `0x300` is used. -/
def oneFreeBitmap : Bitmap := ⟨fun i => if i = 0x60 then 0xFE#8 else 0xFF#8⟩

theorem isSet_fullBitmap (p : ℕ) : fullBitmap.isSet p = true := by
  have hall : ∀ i < 8, (0xFF#8).getLsbD i = true := by decide
  rw [Bitmap.isSet_eq]
  exact hall _ (Nat.mod_lt _ (by omega))

/-- All frames are in use but `0x300`. -/
theorem isSet_oneFreeBitmap (p : ℕ) : oneFreeBitmap.isSet p = true ↔ p ≠ 0x300 := by
  have hall : ∀ i < 8, (0xFF#8).getLsbD i = true := by decide
  have hone : ∀ i < 8, (0xFE#8).getLsbD i = true ↔ i ≠ 0 := by decide
  have hlt : p % 8 < 8 := Nat.mod_lt _ (by omega)
  rw [Bitmap.isSet_eq, oneFreeBitmap]
  simp only
  by_cases hp : p / 8 = 0x60
  · rw [if_pos hp, hone _ hlt]
    omega
  · rw [if_neg hp]
    refine ⟨fun _ => by omega, fun _ => hall _ hlt⟩

section

variable {ram : ℕ → ℕ → ℕ} {bitmap : Bitmap}

theorem used_directoryMachine (p : ℕ) :
    (directoryMachine ram bitmap).used p = bitmap.isSet p := by
  rw [Machine.used, directoryMachine, memManData_mapKernelPageTable]
  rfl

/-- The directory has the kernel's tables in its first slots. -/
theorem kernelDirectory_directoryMachine (hzero : ∀ i, ram 0x100 i = 0) :
    KernelDirectory minimalLayout (directoryMachine ram bitmap) :=
  kernelDirectory_mapKernelPageTable (L := minimalLayout)
    (m := ⟨⟨0x8000000#32, 0, bitmap⟩, ram, true, 0x100⟩) hzero

theorem holdsKernelEntries_directoryMachine (hzero : ∀ i, ram 0x100 i = 0) :
    HoldsKernelEntries minimalLayout (directoryMachine ram bitmap) 0x100 := by
  have h : KernelDirectory minimalLayout (directoryMachine ram bitmap) :=
    kernelDirectory_directoryMachine hzero
  exact fun s hs => ⟨h.slot s hs, h.table s hs⟩

/-- No other slot has a table. -/
theorem slotPresent_directoryMachine (hzero : ∀ i, ram 0x100 i = 0) (s : ℕ) :
    slotPresent (directoryMachine ram bitmap) 0x100 s = decide (s < 256) := by
  by_cases hs : s < 256
  · rw [(holdsKernelEntries_directoryMachine hzero s hs).1, decide_eq_true hs]
  · rw [slotPresent, directoryMachine, ram_mapKernelPageTable, if_neg fun h => hs h.2,
      decide_eq_false hs]
    simp only [hzero, Entry.present_zero]

/-- The tables lie one after the other. -/
theorem table_directoryMachine (hzero : ∀ i, ram 0x100 i = 0) {s : ℕ}
    (hs : slotPresent (directoryMachine ram bitmap) 0x100 s = true) :
    s < 256 ∧ tableOf (directoryMachine ram bitmap) 0x100 s = 0x101 + s := by
  rw [slotPresent_directoryMachine hzero, decide_eq_true_eq] at hs
  exact ⟨hs, (holdsKernelEntries_directoryMachine hzero s hs).2⟩

theorem directoryFrame_directoryMachine (hzero : ∀ i, ram 0x100 i = 0)
    (hused : bitmap.isSet 0x100 = true) :
    DirectoryFrame (directoryMachine ram bitmap) 0x100 := by
  refine ⟨by decide, (used_directoryMachine _).trans hused, ?_⟩
  intro s _ hp
  rw [slotPresent_directoryMachine hzero, decide_eq_true_eq] at hp
  rw [(holdsKernelEntries_directoryMachine hzero s hp).2]
  exact minimalLayout.table_ne_directory hp

/-- Memory ends at 128 MiB. -/
theorem mem_freeFrames_directoryMachine {f : ℕ} :
    f ∈ freeFrames (directoryMachine ram bitmap).memManData ↔
      f < 0x8000 ∧ bitmap.isSet f = false := by
  have htotal : (0x8000000#32).toNat / pageSize = 0x8000 := by decide
  rw [mem_freeFrames, ← Machine.used, used_directoryMachine, directoryMachine,
    memManData_mapKernelPageTable]
  simp only [htotal]

theorem freeFrames_fullBitmap : freeFrames (directoryMachine ram fullBitmap).memManData = [] := by
  rw [List.eq_nil_iff_forall_not_mem]
  intro f hf
  have := (mem_freeFrames_directoryMachine.mp hf).2
  rw [isSet_fullBitmap] at this
  exact Bool.false_ne_true this.symm

theorem freeFrames_oneFreeBitmap :
    freeFrames (directoryMachine ram oneFreeBitmap).memManData = [0x300] := by
  have hmem : ∀ f, f ∈ freeFrames (directoryMachine ram oneFreeBitmap).memManData ↔ f = 0x300 := by
    intro f
    rw [mem_freeFrames_directoryMachine, ← Bool.not_eq_true, isSet_oneFreeBitmap, not_not]
    exact ⟨And.right, fun h => ⟨by omega, h⟩⟩
  have hnodup := nodup_freeFrames (directoryMachine ram oneFreeBitmap).memManData
  exact List.perm_singleton.mp
    ((List.perm_ext_iff_of_nodup hnodup (List.nodup_singleton _)).mpr fun f => by
      rw [hmem, List.mem_singleton])

/-- The first page above the GiB needs one table. -/
theorem callDeal_directoryMachine (hzero : ∀ i, ram 0x100 i = 0) :
    callDeal (directoryMachine ram bitmap) 0x100 0x40000000 1
      = deal (fun s => decide (s < 256)) (freeFrames (directoryMachine ram bitmap).memManData)
        0x40000 := by
  have hpage : pageOf 0x40000000 = 0x40000 := by decide
  rw [callDeal, hpage, dealPages, dealPages, List.append_nil]
  simp only [show slotPresent (directoryMachine ram bitmap) 0x100 = fun s => decide (s < 256) from
    funext (slotPresent_directoryMachine hzero)]

end

/-- With one free frame the new table gets it. -/
theorem frameOwnership_oneFree :
    ∃ m', virtualMap (2 ^ 20 + 1) (directoryMachine (fun _ _ => 0) oneFreeBitmap) 0x100 0x40000000
        0x500000 1 true = some m' ∧
      FrameOwnership (directoryMachine (fun _ _ => 0) oneFreeBitmap) m' 0x100 := by
  obtain ⟨m', hm', hiff⟩ := virtualMap_frameOwnership_iff minimalLayout (2 ^ 20 + 1)
    (directoryMachine (fun _ _ => 0) oneFreeBitmap) 0x100 0x40000000 0x500000 1 true
    (holdsKernelEntries_directoryMachine fun _ => rfl)
    (directoryFrame_directoryMachine (fun _ => rfl) ((isSet_oneFreeBitmap _).mpr (by decide)))
    (by omega)
  refine ⟨m', hm', hiff.mpr ?_⟩
  have hdeal : deal (fun s => decide (s < 256)) [0x300] 0x40000 = [(256, 0x300)] := by decide
  rw [callDeal_directoryMachine fun _ => rfl, freeFrames_oneFreeBitmap, hdeal]
  have htable : ∀ {s}, slotPresent (directoryMachine (fun _ _ => 0) oneFreeBitmap) 0x100 s = true →
      s < 256 ∧ tableOf (directoryMachine (fun _ _ => 0) oneFreeBitmap) 0x100 s = 0x101 + s :=
    table_directoryMachine fun _ => rfl
  refine ⟨⟨by decide, ?_⟩, ?_, ?_⟩
  · intro s hs
    simp at hs
  · intro s _ s' _ hs hs' heq
    rw [(htable hs).2, (htable hs').2] at heq
    omega
  · intro a ha _ s _ hs
    obtain rfl := List.mem_singleton.mp ha
    obtain ⟨hlt, ht⟩ := htable hs
    rw [ht]
    omega

/-- With a full bitmap frame 0 is installed as the table of slot 256. -/
theorem frameOwnership_fails_when_full :
    ∃ m', virtualMap (2 ^ 20 + 1) (directoryMachine (fun _ _ => 0) fullBitmap) 0x100 0x40000000
        0x500000 1 true = some m' ∧
      ¬ FrameOwnership (directoryMachine (fun _ _ => 0) fullBitmap) m' 0x100 := by
  have hown : OwnFrame (directoryMachine (fun _ _ => 0) fullBitmap) 0x100 :=
    ownFrame_of_kernel (holdsKernelEntries_directoryMachine fun _ => rfl)
      (directoryFrame_directoryMachine (fun _ => rfl) (isSet_fullBitmap _))
  obtain ⟨m', hm', -, hdealt⟩ := virtualMap_dealt 0x40000000 0x500000 1 true
    hown (show 2 ^ 20 < 2 ^ 20 + 1 by omega)
  refine ⟨m', hm', ?_⟩
  intro hlaw
  obtain ⟨-, hzero⟩ := hdealt.soundDeal hlaw
  have hdeal : deal (fun s => decide (s < 256)) [] 0x40000 = [(256, 0)] := by decide
  rw [callDeal_directoryMachine fun _ => rfl, freeFrames_fullBitmap, hdeal] at hzero
  obtain ⟨-, f, hf, hmem⟩ := hzero 256 List.mem_cons_self
  simp [hf] at hmem

/-! ## Tables in use -/

/-- The tables of a directory are frames in use. -/
structure UsedTables (m : Machine) (pd : ℕ) : Prop extends DirectoryFrame m pd where
  table_used : ∀ s < 1024, slotPresent m pd s = true → m.used (tableOf m pd s) = true

/-- And no two of them are the same. -/
structure SeparateTables (m : Machine) (pd : ℕ) : Prop extends UsedTables m pd where
  table_inj : ∀ s < 1024, ∀ s' < 1024, slotPresent m pd s = true → slotPresent m pd s' = true →
    tableOf m pd s = tableOf m pd s' → s = s'

section

variable {m m' : Machine} {pd : ℕ} {A : List (ℕ × ℕ)} {mapped target : ℕ → Prop}

/-- With frames enough, all frames of a deal are free ones, and different. -/
theorem Dealt.frames_of_enough (h : Dealt m m' pd A mapped target)
    (henough : A.length ≤ (freeFrames m.memManData).length) :
    A.map Prod.snd = (freeFrames m.memManData).take A.length := by
  have hzero : A.length - (freeFrames m.memManData).length = 0 := by omega
  rw [h.frames, dealtFrames, hzero, List.replicate_zero, List.append_nil]

/-- While the frames last, none is dealt twice. -/
theorem Dealt.nodup_of_enough (h : Dealt m m' pd A mapped target)
    (henough : A.length ≤ (freeFrames m.memManData).length) : (A.map Prod.snd).Nodup := by
  rw [h.frames_of_enough henough]
  exact (nodup_freeFrames _).sublist (List.take_sublist _ _)

/-- And all of them were free. -/
theorem Dealt.unused_of_enough (h : Dealt m m' pd A mapped target)
    (henough : A.length ≤ (freeFrames m.memManData).length) {f : ℕ} (hf : f ∈ A.map Prod.snd) :
    m.used f = false := by
  rw [h.frames_of_enough henough] at hf
  exact (mem_freeFrames.mp (List.mem_of_mem_take hf)).2

end

end Sakura.MemoryManager
