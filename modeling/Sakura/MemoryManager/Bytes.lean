import Sakura.MemoryManager.DirectoryRoles

/-!
# Bytes of memory

What the kernel reads and writes through a pointer. The page is found through the directory in
CR3; an access to a page that is not mapped faults, and the exception handler does not return:
that is `none`. Words of memory and integers are little-endian.
-/

namespace Sakura.MemoryManager

namespace Machine

/-- The byte at offset `o` of a frame. -/
def byte (m : Machine) (f o : ℕ) : ℕ := BitField.get (8 * (o % 4)) 8 (m.ram f (o / 4))

def setByte (m : Machine) (f o b : ℕ) : Machine :=
  m.store f (o / 4) (BitField.put (8 * (o % 4)) 8 b (m.ram f (o / 4)))

end Machine

/-- `*p`, for a `uint8_t *`. -/
def readByte (m : Machine) (p : ℕ) : Option ℕ :=
  (translate m p).map fun frame => m.byte frame (p % pageSize)

/-- `*p = b`, for a `uint8_t *`. -/
def writeByte (m : Machine) (p b : ℕ) : Option Machine :=
  (translate m p).map fun frame => m.setByte frame (p % pageSize) b

/-- An unsigned integer of `n` bytes at `p`. -/
def readInt (m : Machine) : ℕ → ℕ → Option ℕ
  | 0, _ => some 0
  | n + 1, p =>
    (readByte m p).bind fun low =>
      (readInt m n ((p + 1) % 2 ^ 32)).map fun high => low + 256 * high

def writeInt : ℕ → Machine → ℕ → ℕ → Option Machine
  | 0, m, _, _ => some m
  | n + 1, m, p, v =>
    (writeByte m p (v % 256)).bind fun m => writeInt n m ((p + 1) % 2 ^ 32) (v / 256)

/-- `memcpy(dstptr, srcptr, size)`. -/
def memcpy : ℕ → Machine → ℕ → ℕ → Option Machine
  | 0, m, _, _ => some m
  | size + 1, m, dst, src =>
    (readByte m src).bind fun b =>
      (writeByte m dst b).bind fun m =>
        memcpy size m ((dst + 1) % 2 ^ 32) ((src + 1) % 2 ^ 32)

/-! ## A byte of a frame -/

theorem Machine.byte_lt (m : Machine) (f o : ℕ) : m.byte f o < 256 :=
  Nat.mod_lt _ (by decide)

theorem Machine.byte_setByte (m : Machine) (f o b g p : ℕ) :
    (m.setByte f o b).byte g p = if g = f ∧ p = o then b % 256 else m.byte g p := by
  rw [Machine.byte, Machine.setByte]
  by_cases hword : g = f ∧ p / 4 = o / 4
  · obtain ⟨rfl, hp⟩ := hword
    rw [hp, Machine.ram_store_self]
    by_cases hbyte : p = o
    · rw [if_pos ⟨rfl, hbyte⟩, hbyte, BitField.get_put_self, show 2 ^ 8 = 256 by rfl]
    · rw [if_neg fun h => hbyte h.2, Machine.byte, hp]
      -- another byte of the same word
      rcases Nat.lt_or_gt_of_ne (show p % 4 ≠ o % 4 by omega) with h | h
      · exact BitField.get_put_below _ _ (by omega)
      · exact BitField.get_put_above _ _ (by omega)
  · rw [Machine.ram_store_of_ne _ _ hword, if_neg, Machine.byte]
    rintro ⟨rfl, rfl⟩
    exact hword ⟨rfl, rfl⟩

theorem Machine.ram_setByte_of_ne (m : Machine) {f g : ℕ} (o b i : ℕ) (h : g ≠ f) :
    (m.setByte f o b).ram g i = m.ram g i :=
  Machine.ram_store_of_ne m _ fun he => h he.1

/-- Writing the byte that is there changes nothing. -/
theorem Machine.setByte_self (m : Machine) (f o : ℕ) : m.setByte f o (m.byte f o) = m := by
  rw [Machine.setByte, Machine.byte, BitField.put_get_self, Machine.store]
  have hram : (fun g i => if g = f ∧ i = o / 4 then m.ram f (o / 4) else m.ram g i) = m.ram := by
    funext g i
    split
    · rename_i h
      rw [h.1, h.2]
    · rfl
  rw [hram]

/-! ## Translation -/

/-- A frame the processor does not read when it translates an address. -/
structure DataFrame (m : Machine) (f : ℕ) : Prop where
  ne_directory : f ≠ m.cr3
  ne_table : ∀ s < 1024, slotPresent m m.cr3 s = true → tableOf m m.cr3 s ≠ f

section

variable {m m' : Machine} {f : ℕ}

/-- The processor looks up the page in the directory in CR3. -/
theorem translate_eq (m : Machine) (p : ℕ) :
    translate m p = if pagePresent m m.cr3 (pageOf p) = true
      then some (Entry.pageFrameNumber (pageEntry m m.cr3 (pageOf p))) else none := by
  rw [translate, isPagePresent_eq, getPageTableEntry_eq]

theorem translate_eq_some {p g : ℕ} :
    translate m p = some g ↔ pagePresent m m.cr3 (pageOf p) = true ∧
      Entry.pageFrameNumber (pageEntry m m.cr3 (pageOf p)) = g := by
  rw [translate_eq]
  split
  · rename_i h
    simp [h]
  · rename_i h
    simp [h]

/-- Only two words decide whether a page is present, and where it is. -/
theorem page_congr_slot {pd p : ℕ} (hdir : m'.ram pd (p / 1024) = m.ram pd (p / 1024))
    (htable : slotPresent m pd (p / 1024) = true →
      m'.ram (tableOf m pd (p / 1024)) (p % 1024) = m.ram (tableOf m pd (p / 1024)) (p % 1024)) :
    pagePresent m' pd p = pagePresent m pd p ∧
      (pagePresent m pd p = true → pageEntry m' pd p = pageEntry m pd p) := by
  have hpresent : slotPresent m' pd (p / 1024) = slotPresent m pd (p / 1024) := by
    rw [slotPresent, hdir, ← slotPresent]
  have htableOf : tableOf m' pd (p / 1024) = tableOf m pd (p / 1024) := by
    rw [tableOf, hdir, ← tableOf]
  have hentry : slotPresent m pd (p / 1024) = true → pageEntry m' pd p = pageEntry m pd p := by
    intro hs
    rw [pageEntry, htableOf, htable hs, ← pageEntry]
  rw [pagePresent, pagePresent, hpresent]
  cases hs : slotPresent m pd (p / 1024) with
  | false => exact ⟨by rw [Bool.false_and, Bool.false_and], fun h => by simp at h⟩
  | true => exact ⟨by rw [hentry hs], fun _ => hentry hs⟩

/-- Only the directory and its tables decide which pages are present, and where they are. -/
theorem page_congr {pd : ℕ} (hdir : ∀ i, m'.ram pd i = m.ram pd i)
    (htable : ∀ s < 1024, slotPresent m pd s = true → ∀ i,
      m'.ram (tableOf m pd s) i = m.ram (tableOf m pd s) i) {p : ℕ} (hp : p < 2 ^ 20) :
    pagePresent m' pd p = pagePresent m pd p ∧
      (pagePresent m pd p = true → pageEntry m' pd p = pageEntry m pd p) :=
  page_congr_slot (hdir _) fun hs => htable _ (by omega) hs _

/-- Translation depends on CR3, the directory in it and that one's tables. -/
theorem translate_congr (hcr3 : m'.cr3 = m.cr3) (hdir : ∀ i, m'.ram m.cr3 i = m.ram m.cr3 i)
    (htable : ∀ s < 1024, slotPresent m m.cr3 s = true → ∀ i,
      m'.ram (tableOf m m.cr3 s) i = m.ram (tableOf m m.cr3 s) i) (p : ℕ) :
    translate m' p = translate m p := by
  obtain ⟨hpres, hentry⟩ := page_congr hdir htable (pageOf_lt p)
  rw [translate_eq, translate_eq, hcr3, hpres]
  split
  · rename_i h
    rw [hentry h]
  · rfl

/-- A byte of data makes no other frame a table. -/
theorem DataFrame.setByte {g : ℕ} (hg : DataFrame m g) (h : DataFrame m f) (o b : ℕ) :
    DataFrame (m.setByte f o b) g := by
  refine ⟨hg.ne_directory, ?_⟩
  intro s hs hp
  have hdir : (m.setByte f o b).ram m.cr3 s = m.ram m.cr3 s :=
    m.ram_setByte_of_ne o b s (Ne.symm h.ne_directory)
  have hp' : slotPresent m m.cr3 s = true := by
    rw [slotPresent, ← hdir]
    exact hp
  have ht := hg.ne_table s hs hp'
  rw [tableOf, ← hdir] at ht
  exact ht

/-- A byte that is read is one of the frame the page is mapped to. -/
theorem readByte_eq_some {p b : ℕ} :
    readByte m p = some b ↔ ∃ g, translate m p = some g ∧ m.byte g (p % pageSize) = b := by
  rw [readByte, Option.map_eq_some_iff]

/-! ## `memcpy` -/

/-- Only data in frames of `F` was written. -/
structure Wrote (F : ℕ → Prop) (m m' : Machine) : Prop where
  ram : ∀ g i, ¬ F g → m'.ram g i = m.ram g i
  data : m'.memManData = m.memManData
  cr3 : m'.cr3 = m.cr3

theorem Wrote.refl (F : ℕ → Prop) (m : Machine) : Wrote F m m := ⟨fun _ _ _ => rfl, rfl, rfl⟩

theorem Wrote.trans {F : ℕ → Prop} {m₁ m₂ m₃ : Machine} (h : Wrote F m₁ m₂) (h' : Wrote F m₂ m₃) :
    Wrote F m₁ m₃ :=
  ⟨fun g i hg => (h'.ram g i hg).trans (h.ram g i hg), h'.data.trans h.data, h'.cr3.trans h.cr3⟩

theorem wrote_setByte {F : ℕ → Prop} (m : Machine) (hf : F f) (o b : ℕ) :
    Wrote F m (m.setByte f o b) :=
  ⟨fun _ i hg => m.ram_setByte_of_ne o b i fun he => hg (he ▸ hf), rfl, rfl⟩

/-- Writing data changes no translation. -/
theorem Wrote.translate {F : ℕ → Prop} (h : Wrote F m m') (hF : ∀ g, F g → DataFrame m g) (p : ℕ) :
    translate m' p = translate m p :=
  translate_congr h.cr3 (fun i => h.ram _ i fun hf => (hF _ hf).ne_directory rfl)
    (fun s hs hp i => h.ram _ i fun hf => (hF _ hf).ne_table s hs hp rfl) p

/-- Nor which frames are data. -/
theorem Wrote.dataFrame {F : ℕ → Prop} (h : Wrote F m m') (hF : ∀ g, F g → DataFrame m g) {g : ℕ}
    (hg : DataFrame m g) : DataFrame m' g := by
  have hdir : ∀ s, m'.ram m.cr3 s = m.ram m.cr3 s :=
    fun s => h.ram _ s fun hf => (hF _ hf).ne_directory rfl
  refine ⟨fun he => hg.ne_directory (he.trans h.cr3), fun s hs hp => ?_⟩
  rw [h.cr3, slotPresent, hdir, ← slotPresent] at hp
  rw [h.cr3, tableOf, hdir, ← tableOf]
  exact hg.ne_table s hs hp

/-- The byte at `dst + i` is byte `o` of frame `g`. -/
def LandsAt (m : Machine) (dst i g o : ℕ) : Prop :=
  MemoryManager.translate m ((dst + i) % 2 ^ 32) = some g ∧ o = (dst + i) % 2 ^ 32 % pageSize

/-- Copying the bytes `c` into data frames that the copied pages do not share, and from which
nothing is read. -/
theorem memcpy_spec {F : ℕ → Prop} (n : ℕ) : ∀ {m : Machine} {dst src : ℕ}
    {c : ℕ → ℕ}, n ≤ 2 ^ 32 → dst < 2 ^ 32 → src < 2 ^ 32 → (∀ g, F g → DataFrame m g) →
    (∀ i < n, ∃ g, F g ∧ translate m ((dst + i) % 2 ^ 32) = some g) →
    (∀ i < n, ∀ j < n, translate m ((dst + i) % 2 ^ 32) = translate m ((dst + j) % 2 ^ 32) →
      pageOf (dst + i) = pageOf (dst + j)) →
    (∀ i < n, ∃ g, ¬ F g ∧ translate m ((src + i) % 2 ^ 32) = some g ∧
      m.byte g ((src + i) % 2 ^ 32 % pageSize) = c i) →
    ∃ m', memcpy n m dst src = some m' ∧ Wrote F m m' ∧
      (∀ i < n, readByte m' ((dst + i) % 2 ^ 32) = some (c i)) ∧
      ∀ g o, (∀ i < n, ¬ LandsAt m dst i g o) → m'.byte g o = m.byte g o := by
  induction n with
  | zero =>
    intro m dst src c _ _ _ _ _ _ _
    exact ⟨m, rfl, Wrote.refl F m, fun i hi => absurd hi (Nat.not_lt_zero i), fun _ _ _ => rfl⟩
  | succ n ih =>
    intro m dst src c hn hdst hsrc hF hto hinj hfrom
    obtain ⟨f, hf, htrans⟩ := hto 0 (by omega)
    obtain ⟨g, hg, hread, hbyte⟩ := hfrom 0 (by omega)
    rw [Nat.add_zero, Nat.mod_eq_of_lt hdst] at htrans
    rw [Nat.add_zero, Nat.mod_eq_of_lt hsrc] at hread hbyte
    set m₁ := m.setByte f (dst % pageSize) (c 0) with hm₁
    have hw₁ : Wrote F m m₁ := wrote_setByte m hf _ _
    have htr₁ : ∀ p, translate m₁ p = translate m p := hw₁.translate hF
    have hnext : ∀ a i : ℕ, ((a + 1) % 2 ^ 32 + i) % 2 ^ 32 = (a + (i + 1)) % 2 ^ 32 := by
      intro a i
      omega
    have hpage : ∀ i, pageOf ((dst + 1) % 2 ^ 32 + i) = pageOf (dst + (i + 1)) := by
      intro i
      rw [← pageOf_mod, hnext, pageOf_mod]
    -- the other bytes are read and written as if the first had not been
    obtain ⟨m', hm', hw', hread', hkeep⟩ := ih (m := m₁)
      (c := fun i => c (i + 1)) (by omega) (show (dst + 1) % 2 ^ 32 < 2 ^ 32 by omega)
      (show (src + 1) % 2 ^ 32 < 2 ^ 32 by omega)
      (fun q hq => (hF q hq).setByte (hF f hf) _ _)
      (by
        intro i hi
        obtain ⟨q, hq, htq⟩ := hto (i + 1) (by omega)
        exact ⟨q, hq, by rw [hnext, htr₁, htq]⟩)
      (by
        intro i hi j hj heq
        rw [hnext, hnext, htr₁, htr₁] at heq
        rw [hpage, hpage]
        exact hinj (i + 1) (by omega) (j + 1) (by omega) heq)
      (by
        intro i hi
        obtain ⟨q, hq, htq, hbq⟩ := hfrom (i + 1) (by omega)
        refine ⟨q, hq, by rw [hnext, htr₁, htq], ?_⟩
        have hne : ¬ (q = f ∧ (src + (i + 1)) % 2 ^ 32 % pageSize = dst % pageSize) :=
          fun h => hq (h.1 ▸ hf)
        rw [hnext, hm₁, Machine.byte_setByte, if_neg hne, hbq])
    refine ⟨m', ?_, hw₁.trans hw', ?_, ?_⟩
    · rw [memcpy, readByte, hread, Option.map_some, Option.bind_some, hbyte, writeByte, htrans,
        Option.map_some, Option.bind_some, hm']
    · intro i hi
      rcases Nat.eq_zero_or_pos i with rfl | hpos
      · -- the later bytes land elsewhere
        have hc : c 0 < 256 := hbyte ▸ m.byte_lt _ _
        have helse : m'.byte f (dst % pageSize) = m₁.byte f (dst % pageSize) := by
          refine hkeep f (dst % pageSize) ?_
          rintro j hj ⟨hlands, ho⟩
          rw [hnext] at hlands ho
          rw [htr₁] at hlands
          have hsame := hinj (j + 1) (by omega) 0 (by omega) (by
            rw [hlands, Nat.add_zero, Nat.mod_eq_of_lt hdst, htrans])
          rw [pageOf, pageOf] at hsame
          rw [pageSize] at hsame ho
          omega
        rw [Nat.add_zero, Nat.mod_eq_of_lt hdst, readByte, hw'.translate
          (fun q hq => (hF q hq).setByte (hF f hf) _ _), htr₁, htrans, Option.map_some, helse, hm₁,
          Machine.byte_setByte, if_pos ⟨rfl, rfl⟩, Nat.mod_eq_of_lt hc]
      · obtain ⟨k, rfl⟩ := Nat.exists_eq_add_of_le' hpos
        have hk := hread' k (by omega)
        rw [hnext] at hk
        exact hk
    · -- where no byte lands, neither the first one does
      intro q o hnot
      rw [hkeep q o, hm₁, Machine.byte_setByte, if_neg]
      · rintro ⟨rfl, rfl⟩
        refine hnot 0 (by omega) ⟨?_, ?_⟩
        · rw [Nat.add_zero, Nat.mod_eq_of_lt hdst, htrans]
        · rw [Nat.add_zero, Nat.mod_eq_of_lt hdst]
      · rintro j hj ⟨hlands, ho⟩
        refine hnot (j + 1) (by omega) ⟨?_, ?_⟩
        · rw [← hnext, ← htr₁, hlands]
        · rw [ho, hnext]

/-- A byte is written to the frame its page is mapped to. -/
theorem writeByte_wrote {F : ℕ → Prop} {p b : ℕ} (hto : ∀ g, translate m p = some g → F g)
    (h : writeByte m p b = some m') : Wrote F m m' ∧
      ∀ g o, ¬ (translate m p = some g ∧ o = p % pageSize) → m'.byte g o = m.byte g o := by
  rw [writeByte, Option.map_eq_some_iff] at h
  obtain ⟨g, htrans, rfl⟩ := h
  refine ⟨wrote_setByte m (hto g htrans) _ _, fun q o hne => ?_⟩
  rw [Machine.byte_setByte, if_neg]
  rintro ⟨rfl, rfl⟩
  exact hne ⟨htrans, rfl⟩

/-- When `memcpy` returns, only the frames it copies to have been written. -/
theorem memcpy_wrote {F : ℕ → Prop} (n : ℕ) : ∀ {m m' : Machine} {dst src : ℕ}, dst < 2 ^ 32 →
    (∀ g, F g → DataFrame m g) →
    (∀ i < n, ∀ g, translate m ((dst + i) % 2 ^ 32) = some g → F g) →
    memcpy n m dst src = some m' → Wrote F m m' := by
  induction n with
  | zero =>
    intro m m' dst src _ _ _ h
    exact Option.some.inj h ▸ Wrote.refl F m
  | succ n ih =>
    intro m m' dst src hdst hF hto h
    rw [memcpy, Option.bind_eq_some_iff] at h
    obtain ⟨b, -, h⟩ := h
    rw [Option.bind_eq_some_iff] at h
    obtain ⟨m₁, hwrite, hrest⟩ := h
    have hfirst := hto 0 (by omega)
    rw [Nat.add_zero, Nat.mod_eq_of_lt hdst] at hfirst
    have hw := (writeByte_wrote hfirst hwrite).1
    refine hw.trans (ih (show (dst + 1) % 2 ^ 32 < 2 ^ 32 by omega) (fun g hg => ?_)
      (fun i hi g hg => ?_) hrest)
    · exact hw.dataFrame hF (hF g hg)
    · rw [hw.translate hF, show ((dst + 1) % 2 ^ 32 + i) % 2 ^ 32 = (dst + (i + 1)) % 2 ^ 32 by omega]
        at hg
      exact hto (i + 1) (by omega) g hg

/-- `memcpy` returns if its pages are mapped, and those it copies to hold data. -/
theorem memcpy_ends {F : ℕ → Prop} (n : ℕ) : ∀ {m : Machine} {dst src : ℕ}, dst < 2 ^ 32 →
    src < 2 ^ 32 → (∀ g, F g → DataFrame m g) →
    (∀ i < n, ∃ g, F g ∧ translate m ((dst + i) % 2 ^ 32) = some g) →
    (∀ i < n, ∃ g, translate m ((src + i) % 2 ^ 32) = some g) →
    ∃ m', memcpy n m dst src = some m' := by
  induction n with
  | zero => intro m dst src _ _ _ _ _; exact ⟨m, rfl⟩
  | succ n ih =>
    intro m dst src hdst hsrc hF hto hfrom
    obtain ⟨f, hf, htrans⟩ := hto 0 (by omega)
    obtain ⟨g, hread⟩ := hfrom 0 (by omega)
    rw [Nat.add_zero, Nat.mod_eq_of_lt hdst] at htrans
    rw [Nat.add_zero, Nat.mod_eq_of_lt hsrc] at hread
    have hw : Wrote F m (m.setByte f (dst % pageSize) (m.byte g (src % pageSize))) :=
      wrote_setByte m hf _ _
    have hnext : ∀ a i : ℕ, ((a + 1) % 2 ^ 32 + i) % 2 ^ 32 = (a + (i + 1)) % 2 ^ 32 := by
      intro a i
      omega
    obtain ⟨m', hm'⟩ := ih (show (dst + 1) % 2 ^ 32 < 2 ^ 32 by omega)
      (show (src + 1) % 2 ^ 32 < 2 ^ 32 by omega) (fun q hq => hw.dataFrame hF (hF q hq))
      (fun i hi => by rw [hnext, hw.translate hF]; exact hto (i + 1) (by omega))
      (fun i hi => by rw [hnext, hw.translate hF]; exact hfrom (i + 1) (by omega))
    refine ⟨m', ?_⟩
    rw [memcpy, readByte, hread, Option.map_some, Option.bind_some, writeByte, htrans,
      Option.map_some, Option.bind_some, hm']

/-! ## Integers -/

theorem readInt_lt (n : ℕ) : ∀ {m : Machine} {p v : ℕ}, readInt m n p = some v → v < 256 ^ n := by
  induction n with
  | zero =>
    intro m p v h
    exact Option.some.inj h ▸ Nat.one_pos
  | succ n ih =>
    intro m p v h
    rw [readInt, Option.bind_eq_some_iff] at h
    obtain ⟨low, hlow, hrest⟩ := h
    rw [Option.map_eq_some_iff] at hrest
    obtain ⟨high, hhigh, rfl⟩ := hrest
    obtain ⟨g, -, hbyte⟩ := readByte_eq_some.mp hlow
    have hlt : low < 256 := hbyte ▸ m.byte_lt _ _
    have := ih hhigh
    rw [Nat.pow_succ]
    omega

/-- An integer can be written where its pages are mapped to data. -/
theorem writeInt_ends {F : ℕ → Prop} (n : ℕ) : ∀ {m : Machine} {p v : ℕ}, p < 2 ^ 32 →
    (∀ g, F g → DataFrame m g) →
    (∀ i < n, ∃ g, F g ∧ translate m ((p + i) % 2 ^ 32) = some g) →
    ∃ m', writeInt n m p v = some m' := by
  induction n with
  | zero => intro m p v _ _ _; exact ⟨m, rfl⟩
  | succ n ih =>
    intro m p v hp hF hto
    obtain ⟨f, hf, htrans⟩ := hto 0 (by omega)
    rw [Nat.add_zero, Nat.mod_eq_of_lt hp] at htrans
    have hw : Wrote F m (m.setByte f (p % pageSize) (v % 256)) := wrote_setByte m hf _ _
    have hnext : ∀ i, ((p + 1) % 2 ^ 32 + i) % 2 ^ 32 = (p + (i + 1)) % 2 ^ 32 := by
      intro i
      omega
    obtain ⟨m', hm'⟩ := ih (v := v / 256) (show (p + 1) % 2 ^ 32 < 2 ^ 32 by omega)
      (fun q hq => hw.dataFrame hF (hF q hq))
      (fun i hi => by rw [hnext, hw.translate hF]; exact hto (i + 1) (by omega))
    refine ⟨m', ?_⟩
    rw [writeInt, writeByte, htrans, Option.map_some, Option.bind_some, hm']

/-- When an integer has been stored, only its bytes have been written. -/
theorem writeInt_wrote {F : ℕ → Prop} (n : ℕ) : ∀ {m m' : Machine} {p v : ℕ}, p < 2 ^ 32 →
    (∀ g, F g → DataFrame m g) →
    (∀ i < n, ∀ g, translate m ((p + i) % 2 ^ 32) = some g → F g) →
    writeInt n m p v = some m' → Wrote F m m' ∧
      ∀ g o, (∀ i < n, ¬ LandsAt m p i g o) → m'.byte g o = m.byte g o := by
  induction n with
  | zero =>
    intro m m' p v _ _ _ h
    obtain rfl := Option.some.inj h
    exact ⟨Wrote.refl F m, fun _ _ _ => rfl⟩
  | succ n ih =>
    intro m m' p v hp hF hto h
    have hnext : ∀ i, ((p + 1) % 2 ^ 32 + i) % 2 ^ 32 = (p + (i + 1)) % 2 ^ 32 := by
      intro i
      omega
    rw [writeInt, Option.bind_eq_some_iff] at h
    obtain ⟨m₁, hwrite, hrest⟩ := h
    have hfirst := hto 0 (by omega)
    rw [Nat.add_zero, Nat.mod_eq_of_lt hp] at hfirst
    obtain ⟨hw, hbytes⟩ := writeByte_wrote hfirst hwrite
    obtain ⟨hw', hbytes'⟩ := ih (show (p + 1) % 2 ^ 32 < 2 ^ 32 by omega)
      (fun g hg => hw.dataFrame hF (hF g hg))
      (fun i hi g hg => by
        rw [hw.translate hF, hnext] at hg
        exact hto (i + 1) (by omega) g hg) hrest
    refine ⟨hw.trans hw', fun g o hnot => ?_⟩
    rw [hbytes' g o, hbytes g o]
    · have h0 := hnot 0 (by omega)
      rwa [LandsAt, Nat.add_zero, Nat.mod_eq_of_lt hp] at h0
    · intro i hi
      rw [LandsAt, hw.translate hF, hnext]
      exact hnot (i + 1) (by omega)

/-- If no two bytes of it land in the same place, the integer is there afterwards. -/
theorem readByte_writeInt {F : ℕ → Prop} (n : ℕ) : ∀ {m m' : Machine} {p v : ℕ}, p < 2 ^ 32 →
    (∀ g, F g → DataFrame m g) →
    (∀ i < n, ∀ g, translate m ((p + i) % 2 ^ 32) = some g → F g) →
    (∀ i < n, ∀ j < n, ∀ g o, LandsAt m p i g o → LandsAt m p j g o → i = j) →
    writeInt n m p v = some m' →
    ∀ i < n, readByte m' ((p + i) % 2 ^ 32) = some (v / 256 ^ i % 256) := by
  induction n with
  | zero => intro m m' p v _ _ _ _ _ i hi; exact absurd hi (Nat.not_lt_zero i)
  | succ n ih =>
    intro m m' p v hp hF hto hinj h i hi
    have hnext : ∀ i, ((p + 1) % 2 ^ 32 + i) % 2 ^ 32 = (p + (i + 1)) % 2 ^ 32 := by
      intro i
      omega
    have htrans : ∀ q, translate m' q = translate m q := (writeInt_wrote _ hp hF hto h).1.translate hF
    rw [writeInt, Option.bind_eq_some_iff] at h
    obtain ⟨m₁, hwrite, hrest⟩ := h
    have hfirst := hto 0 (by omega)
    rw [Nat.add_zero, Nat.mod_eq_of_lt hp] at hfirst
    have hw := (writeByte_wrote hfirst hwrite).1
    have htr₁ : ∀ q, translate m₁ q = translate m q := hw.translate hF
    have hp' : (p + 1) % 2 ^ 32 < 2 ^ 32 := by omega
    have hF' : ∀ g, F g → DataFrame m₁ g := fun g hg => hw.dataFrame hF (hF g hg)
    have hto' : ∀ i < n, ∀ g, translate m₁ (((p + 1) % 2 ^ 32 + i) % 2 ^ 32) = some g → F g := by
      intro i hi g hg
      rw [htr₁, hnext] at hg
      exact hto (i + 1) (by omega) g hg
    have hlands : ∀ i g o, LandsAt m₁ ((p + 1) % 2 ^ 32) i g o ↔ LandsAt m p (i + 1) g o := by
      intro i g o
      rw [LandsAt, LandsAt, htr₁, hnext]
    cases i with
    | zero =>
      rw [writeByte, Option.map_eq_some_iff] at hwrite
      obtain ⟨g, hg, rfl⟩ := hwrite
      have hbyte := (writeInt_wrote _ hp' hF' hto' hrest).2 g (p % pageSize) (by
        intro j hj hland
        rw [hlands] at hland
        have hzero : LandsAt m p 0 g (p % pageSize) :=
          ⟨by rw [Nat.add_zero, Nat.mod_eq_of_lt hp, hg], by rw [Nat.add_zero, Nat.mod_eq_of_lt hp]⟩
        have := hinj 0 (by omega) (j + 1) (by omega) g _ hzero hland
        omega)
      rw [Nat.add_zero, Nat.mod_eq_of_lt hp, readByte, htrans, hg, Option.map_some, hbyte,
        Machine.byte_setByte, if_pos ⟨rfl, rfl⟩, Nat.mod_mod, Nat.pow_zero, Nat.div_one]
    | succ i =>
      have hread := ih hp' hF' hto' (fun i hi j hj g o h1 h2 => by
        rw [hlands] at h1 h2
        have := hinj (i + 1) (by omega) (j + 1) (by omega) g o h1 h2
        omega) hrest i (by omega)
      rw [hnext, Nat.div_div_eq_div_mul, ← Nat.pow_succ'] at hread
      exact hread

/-- Storing the integer that is there changes nothing. -/
theorem writeInt_readInt (n : ℕ) : ∀ {m : Machine} {p v : ℕ}, readInt m n p = some v →
    writeInt n m p v = some m := by
  induction n with
  | zero => intro m p v _; rfl
  | succ n ih =>
    intro m p v h
    rw [readInt, Option.bind_eq_some_iff] at h
    obtain ⟨low, hlow, hrest⟩ := h
    rw [Option.map_eq_some_iff] at hrest
    obtain ⟨high, hhigh, rfl⟩ := hrest
    obtain ⟨g, htrans, hbyte⟩ := readByte_eq_some.mp hlow
    have hlt : low < 256 := hbyte ▸ m.byte_lt _ _
    have hmod : (low + 256 * high) % 256 = low := by omega
    have hdiv : (low + 256 * high) / 256 = high := by omega
    rw [writeInt, hmod, hdiv, writeByte, htrans, Option.map_some, Option.bind_some, ← hbyte,
      Machine.setByte_self, ih hhigh]

/-- The little-endian integer of the `n` bytes from `offset` on. -/
def littleEndian (bytes : ℕ → ℕ) : ℕ → ℕ → ℕ
  | 0, _ => 0
  | n + 1, offset => bytes offset + 256 * littleEndian bytes n (offset + 1)

/-- An integer depends on its own bytes. -/
theorem littleEndian_congr {bytes bytes' : ℕ → ℕ} (n : ℕ) : ∀ {offset : ℕ},
    (∀ i < n, bytes (offset + i) = bytes' (offset + i)) →
    littleEndian bytes n offset = littleEndian bytes' n offset := by
  induction n with
  | zero => intro offset _; rfl
  | succ n ih =>
    intro offset h
    have hrest := @ih (offset + 1) fun i hi => by
      rw [Nat.add_right_comm offset 1 i, Nat.add_assoc offset i 1]
      exact h (i + 1) (by omega)
    have hfirst := h 0 (Nat.zero_lt_succ n)
    rw [Nat.add_zero] at hfirst
    rw [littleEndian, littleEndian, hrest, hfirst]

/-- The bytes of an integer. -/
theorem littleEndian_digits {bytes : ℕ → ℕ} (n : ℕ) : ∀ {offset v : ℕ},
    (∀ i < n, bytes (offset + i) = v / 256 ^ i % 256) →
    littleEndian bytes n offset = v % 256 ^ n := by
  induction n with
  | zero =>
    intro offset v _
    rw [littleEndian, Nat.pow_zero, Nat.mod_one]
  | succ n ih =>
    intro offset v h
    have hrest := @ih (offset + 1) (v / 256) fun i hi => by
      rw [Nat.add_right_comm offset 1 i, Nat.add_assoc offset i 1, h (i + 1) (by omega),
        Nat.pow_succ', Nat.div_div_eq_div_mul]
    have hfirst := h 0 (Nat.zero_lt_succ n)
    rw [Nat.add_zero, Nat.pow_zero, Nat.div_one] at hfirst
    rw [littleEndian, hfirst, hrest, Nat.pow_succ', Nat.mod_mul]

theorem littleEndian_lt {bytes : ℕ → ℕ} (hlt : ∀ i, bytes i < 256) (n : ℕ) :
    ∀ offset, littleEndian bytes n offset < 256 ^ n := by
  induction n with
  | zero => intro offset; exact Nat.one_pos
  | succ n ih =>
    intro offset
    have h := ih (offset + 1)
    have hb := hlt offset
    rw [littleEndian, Nat.pow_succ]
    omega

/-- The low part of an integer is the integer of its first bytes. -/
theorem littleEndian_mod {bytes : ℕ → ℕ} (hlt : ∀ i, bytes i < 256) (k : ℕ) :
    ∀ n offset, littleEndian bytes (k + n) offset % 256 ^ k = littleEndian bytes k offset := by
  induction k with
  | zero =>
    intro n offset
    rw [Nat.pow_zero, Nat.mod_one, littleEndian]
  | succ k ih =>
    intro n offset
    have hb := hlt offset
    have hk := ih n (offset + 1)
    have hmod : ∀ x M : ℕ, (bytes offset + 256 * x) % (256 * M) = bytes offset + 256 * (x % M) := by
      intro x M
      rw [Nat.mod_mul, Nat.add_mul_mod_self_left, Nat.mod_eq_of_lt hb, Nat.add_mul_div_left _ _
        (by omega), Nat.div_eq_of_lt hb, Nat.zero_add]
    rw [Nat.succ_add, littleEndian, littleEndian, Nat.pow_succ, Nat.mul_comm (256 ^ k), hmod, hk]

/-- Bytes that are in memory are read as integers. -/
theorem readInt_eq {bytes : ℕ → ℕ} {base : ℕ} (n : ℕ) : ∀ {offset : ℕ},
    (∀ i < n, readByte m ((base + (offset + i)) % 2 ^ 32) = some (bytes (offset + i))) →
    readInt m n ((base + offset) % 2 ^ 32) = some (littleEndian bytes n offset) := by
  induction n with
  | zero => intro offset _; rfl
  | succ n ih =>
    intro offset h
    have hnext : ((base + offset) % 2 ^ 32 + 1) % 2 ^ 32 = (base + (offset + 1)) % 2 ^ 32 := by omega
    have hrest := ih fun i hi => by
      rw [Nat.add_right_comm offset 1 i, Nat.add_assoc offset i 1]
      exact h (i + 1) (by omega)
    have hhead := h 0 (by omega)
    rw [Nat.add_zero] at hhead
    rw [readInt, hhead, Option.bind_some, hnext, hrest, Option.map_some, littleEndian]

end

end Sakura.MemoryManager
