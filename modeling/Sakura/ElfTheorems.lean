import Sakura.CreateTaskTheorems
import Sakura.Elf

/-!
# Where `load` reaches

`load` and `verifyElfHeader` never look at the length of the file. `load_inside_iff` says for which
files they stay inside: the fields `verifyElfHeader` looks at up to the first it does not accept,
and then, header by header, the fields the loop uses and the bytes it copies. Each header is taken
as it is when the loop comes to it: an image may overwrite its own headers.
-/

namespace Sakura.Elf

open MemoryManager Kernel Routine
open I386 (Word)

/-! ## Accesses -/

/-- The offsets in the file a statement reads or writes. An offset is a number modulo `2 ^ 32`, as
the pointers are. -/
def Touches : Primitive → ℕ → Prop
  | .read bytes _ offset, i | .write bytes _ offset _, i => ∃ j < bytes, i = (offset + j) % 2 ^ 32
  | .copyByte _ _ offset, i => i = offset % 2 ^ 32
  | _, _ => False

/-- The statement stays inside a file of `length` bytes. -/
def Inside (length : ℕ) (o : Primitive) : Prop := ∀ i, Touches o i → i < length

/-- The `n` bytes from `offset` on are inside the file. -/
def BytesInside (length offset n : ℕ) : Prop := ∀ j < n, (offset + j) % 2 ^ 32 < length

/-! ## The condition -/

/-- The fields are inside the file, up to the first that is not accepted. -/
def ChecksFit (m : Machine) (elfData length : ℕ) : List Check → Prop
  | [] => True
  | c :: cs => BytesInside length c.offset c.bytes ∧
    ∀ v, readInt m c.bytes ((elfData + c.offset) % 2 ^ 32) = some v → v ∈ c.accepts →
      ChecksFit m elfData length cs

section

variable (exec : (o : Primitive) → Kernel → Option (o.Result × Kernel)) (elfData length : ℕ)
  (task : TaskRef)

/-- The bytes `memcpy` comes to are inside the file. -/
def CopyFits (ph : ℕ) (k : Kernel) : Prop :=
  ∀ offset filesz vaddr, readInt k.machine 4 ((elfData + (ph + pOffset)) % 2 ^ 32) = some offset →
    readInt k.machine 2 ((elfData + (ph + pFilesz)) % 2 ^ 32) = some filesz →
    readInt k.machine 4 ((elfData + (ph + pVaddr)) % 2 ^ 32) = some vaddr →
    ∀ i < filesz, (memcpy i k.machine vaddr ((elfData + offset) % 2 ^ 32)).isSome →
      (offset + i) % 2 ^ 32 < length

/-- What the loop uses of the program header at `ph` is inside the file, statement by statement. -/
structure SegmentFits (ph : ℕ) (k : Kernel) : Prop where
  vaddr : BytesInside length (ph + pVaddr) 4
  filesz : ∀ k₁, (alignSegment elfData ph).run exec k = some ((), k₁) →
    BytesInside length (ph + pFilesz) 2
  copy : ∀ k₁ k₂, (alignSegment elfData ph).run exec k = some ((), k₁) →
    (mapSegment elfData task ph).run exec k₁ = some ((), k₂) →
      BytesInside length (ph + pOffset) 4 ∧ CopyFits elfData length ph k₂

/-- The loop stays inside the file, from program header `sec` on. -/
def SegmentsFit : ℕ → ℕ → Kernel → Prop
  | 0, _, _ => True
  | rounds + 1, sec, k => BytesInside length ePhnum 2 ∧
    ∀ phnum, readInt k.machine 2 ((elfData + ePhnum) % 2 ^ 32) = some phnum → sec < phnum →
      (∀ phoff phentsize, readInt k.machine 4 ((elfData + ePhoff) % 2 ^ 32) = some phoff →
        readInt k.machine 2 ((elfData + ePhentsize) % 2 ^ 32) = some phentsize →
        SegmentFits exec elfData length task ((phoff + phentsize * sec) % 2 ^ 32) k) ∧
      ∀ k', (loadSegment elfData task sec).run exec k = some ((), k') →
        SegmentsFit rounds (sec + 1) k'

/-- `verifyElfHeader` rejects the file before it leaves it, or all that is used of it is inside. -/
def LoadFits (L : Layout) (k : Kernel) : Prop :=
  elfData = 0 ∨ ChecksFit k.machine elfData length checks ∧
    ((verifyElfHeader elfData).run exec k = some (true, k) →
      ∀ task k', (createTask L false 0).run exec k = some (task, k') →
        SegmentsFit exec elfData length task (2 ^ 16) 0 k')

end

/-! ## Statement by statement -/

section

variable {L : Layout} {fuel : ℕ} {alloc : ℕ → Machine → Option (ℕ × Machine)} {k k' : Kernel}
  {elfData length : ℕ} {task : TaskRef}

theorem inside_read {bytes offset : ℕ} :
    Inside length (.read bytes elfData offset) ↔ BytesInside length offset bytes :=
  ⟨fun h j hj => h _ ⟨j, hj, rfl⟩, by rintro h _ ⟨j, hj, rfl⟩; exact h j hj⟩

theorem inside_write {bytes offset value : ℕ} :
    Inside length (.write bytes elfData offset value) ↔ BytesInside length offset bytes :=
  ⟨fun h j hj => h _ ⟨j, hj, rfl⟩, by rintro h _ ⟨j, hj, rfl⟩; exact h j hj⟩

theorem inside_copyByte {dst offset : ℕ} :
    Inside length (.copyByte dst elfData offset) ↔ offset % 2 ^ 32 < length :=
  ⟨fun h => h _ rfl, by rintro h _ rfl; exact h⟩

/-- A read, and what follows it. -/
theorem run_read {α : Type} {bytes offset : ℕ}
    {f : (Primitive.read bytes elfData offset).Result → Routine Primitive.Result α} :
    (step (.read bytes elfData offset) >>= f).run (Primitive.exec L fuel alloc) k
      = (readInt k.machine bytes ((elfData + offset) % 2 ^ 32)).bind fun v =>
        (f v).run (Primitive.exec L fuel alloc) k := by
  rw [run_bind, step, run_perform, Primitive.exec, Option.bind_map]
  rfl

/-- A read is inside the file if its bytes are, and what follows is. -/
theorem performs_read {α : Type} {bytes offset : ℕ}
    {f : (Primitive.read bytes elfData offset).Result → Routine Primitive.Result α} :
    Performs (Primitive.exec L fuel alloc) (Inside length) (step (.read bytes elfData offset) >>= f) k ↔
      BytesInside length offset bytes ∧
        ∀ v, readInt k.machine bytes ((elfData + offset) % 2 ^ 32) = some v →
          Performs (Primitive.exec L fuel alloc) (Inside length) (f v) k := by
  rw [performs_bind, step, performs_perform, inside_read, run_perform, Primitive.exec]
  refine and_congr_right fun _ => ⟨fun h v hv => h v k (by rw [hv]; rfl), ?_⟩
  rintro h v k' hrun
  rw [Option.map_eq_some_iff] at hrun
  obtain ⟨w, hw, heq⟩ := hrun
  obtain ⟨rfl, rfl⟩ := Prod.mk.inj heq
  exact h w hw

/-- The checks read up to the first that is not accepted. -/
theorem performs_verify (cs : List Check) :
    Performs (Primitive.exec L fuel alloc) (Inside length) (verify elfData cs) k ↔
      ChecksFit k.machine elfData length cs := by
  induction cs with
  | nil => exact performs_pure _
  | cons c cs ih =>
    rw [verify, performs_read, ChecksFit]
    refine and_congr_right fun _ => forall_congr' fun v => imp_congr_right fun _ => ?_
    by_cases hv : v ∈ c.accepts
    · simp only [hv, if_true, true_imp_iff, ih]
    · simp only [hv, if_false, false_imp_iff, iff_true, performs_bind, step, performs_perform,
        performs_pure, implies_true, and_true]
      rintro i ⟨⟩

/-- `verifyElfHeader` changes nothing. -/
theorem run_verify {b : Bool} (cs : List Check)
    (h : (verify elfData cs).run (Primitive.exec L fuel alloc) k = some (b, k')) : k' = k := by
  induction cs with
  | nil => exact (Prod.mk.inj (Option.some.inj h)).2.symm
  | cons c cs ih =>
    rw [verify, run_read, Option.bind_eq_some_iff] at h
    obtain ⟨v, -, h⟩ := h
    by_cases hv : v ∈ c.accepts
    · rw [if_pos hv] at h
      exact ih h
    · rw [if_neg hv] at h
      exact (Prod.mk.inj (Option.some.inj h)).2.symm

/-- Nothing `createTask` does is an access to the file. -/
theorem performs_createTask {arg : Word} :
    Performs (Primitive.exec L fuel alloc) (Inside length) (createTask L false arg) k := by
  rw [createTask]
  simp only [performs_bind, step, performs_perform, performs_pure, Inside, Touches,
    false_imp_iff, implies_true, and_true, Bool.false_eq_true, if_false]

/-- To find a header `load` reads two fields. -/
theorem performs_programHeader {sec : ℕ} :
    Performs (Primitive.exec L fuel alloc) (Inside length) (programHeader elfData sec) k ↔
      BytesInside length ePhoff 4 ∧
        ∀ phoff, readInt k.machine 4 ((elfData + ePhoff) % 2 ^ 32) = some phoff →
          BytesInside length ePhentsize 2 := by
  rw [programHeader, performs_read]
  refine and_congr_right fun _ => forall_congr' fun phoff => imp_congr_right fun _ => ?_
  rw [performs_read]
  exact and_iff_left fun _ _ => (performs_pure _).mpr trivial

/-- Where a header is. -/
theorem run_programHeader {sec : ℕ} : (programHeader elfData sec).run (Primitive.exec L fuel alloc) k =
    (readInt k.machine 4 ((elfData + ePhoff) % 2 ^ 32)).bind fun phoff =>
      (readInt k.machine 2 ((elfData + ePhentsize) % 2 ^ 32)).map fun phentsize =>
        ((phoff + phentsize * sec) % 2 ^ 32, k) := by
  rw [programHeader, run_read]
  refine congrArg _ (funext fun phoff => ?_)
  rw [run_read, Option.map_eq_bind]
  rfl

/-- `memcpy` copies one byte after the other. -/
theorem memcpy_succ {dst offset : ℕ} (n : ℕ) (k : Kernel) :
    memcpy (n + 1) k.machine (dst % 2 ^ 32) ((elfData + offset) % 2 ^ 32) =
      (Primitive.exec L fuel alloc (.copyByte (dst % 2 ^ 32) elfData offset) k).bind fun (_, k') =>
        memcpy n k'.machine ((dst + 1) % 2 ^ 32) ((elfData + (offset + 1)) % 2 ^ 32) := by
  have hnext : ∀ a : ℕ, (a % 2 ^ 32 + 1) % 2 ^ 32 = (a + 1) % 2 ^ 32 := by
    intro a
    omega
  simp only [memcpy, Primitive.exec, Option.bind_assoc, Option.bind_map, Function.comp_def, hnext,
    Nat.add_assoc]

/-- The loop of `memcpy`. -/
theorem run_copy {dst offset : ℕ} (n : ℕ) : ∀ (first : ℕ) (k : Kernel),
    (loop (fun i => step (.copyByte ((dst + i) % 2 ^ 32) elfData (offset + i))) n first).run
        (Primitive.exec L fuel alloc) k =
      (memcpy n k.machine ((dst + first) % 2 ^ 32) ((elfData + (offset + first)) % 2 ^ 32)).map
        fun machine => ((), { k with machine }) := by
  induction n with
  | zero => intro first k; rfl
  | succ n ih =>
    intro first k
    show (step (.copyByte ((dst + first) % 2 ^ 32) elfData (offset + first)) >>= fun _ =>
      loop _ n (first + 1)).run (Primitive.exec L fuel alloc) k = _
    rw [run_bind, step, run_perform, @memcpy_succ L fuel alloc]
    simp only [Primitive.exec, Option.bind_assoc, Option.bind_map, Option.map_bind, Function.comp_def, ih,
      Nat.add_assoc]

/-- A byte is looked at once the bytes before it are copied. -/
theorem performs_copy {dst offset : ℕ} (n : ℕ) : ∀ (first : ℕ) (k : Kernel),
    Performs (Primitive.exec L fuel alloc) (Inside length)
        (loop (fun i => step (.copyByte ((dst + i) % 2 ^ 32) elfData (offset + i))) n first) k ↔
      ∀ i < n, (memcpy i k.machine ((dst + first) % 2 ^ 32)
        ((elfData + (offset + first)) % 2 ^ 32)).isSome →
          (offset + (first + i)) % 2 ^ 32 < length := by
  induction n with
  | zero =>
    intro first k
    exact iff_of_true ((performs_pure ()).mpr trivial) fun i hi => absurd hi (Nat.not_lt_zero i)
  | succ n ih =>
    intro first k
    show Performs _ _ (step (.copyByte ((dst + first) % 2 ^ 32) elfData (offset + first)) >>=
      fun _ => loop _ n (first + 1)) k ↔ _
    rw [performs_bind, step, performs_perform, inside_copyByte, run_perform]
    constructor
    · rintro ⟨hfirst, hnexts⟩ i hi hcopied
      cases i with
      | zero => exact hfirst
      | succ i =>
        rw [@memcpy_succ L fuel alloc] at hcopied
        obtain ⟨m, hm⟩ := Option.isSome_iff_exists.mp hcopied
        obtain ⟨⟨u, k'⟩, hexec, hm⟩ := Option.bind_eq_some_iff.mp hm
        have h := (ih (first + 1) k').mp (hnexts u k' hexec) i (by omega)
          (Option.isSome_iff_exists.mpr ⟨m, hm⟩)
        rwa [Nat.add_right_comm] at h
    · intro h
      refine ⟨h 0 (Nat.zero_lt_succ n) rfl, fun u k' hexec => (ih (first + 1) k').mpr ?_⟩
      intro i hi hcopied
      have h := h (i + 1) (by omega)
      rw [@memcpy_succ L fuel alloc, hexec] at h
      rw [Nat.add_right_comm first]
      exact h hcopied

/-- What lies in front of a field that is inside is inside. -/
theorem BytesInside.of_le {offset n offset' n' : ℕ} (h : BytesInside length offset n)
    (hle : offset' + n' ≤ offset + n) (hpos : 0 < n) (hlt : offset + n ≤ 2 ^ 32) :
    BytesInside length offset' n' := by
  intro j hj
  have hlast := h (n - 1) (by omega)
  rw [Nat.mod_eq_of_lt (by omega)] at hlast ⊢
  omega

/-! ## One program header -/

theorem performs_alignSegment {ph : ℕ} :
    Performs (Primitive.exec L fuel alloc) (Inside length) (alignSegment elfData ph) k ↔
      BytesInside length (ph + pVaddr) 4 := by
  rw [alignSegment, performs_read]
  refine and_iff_left_of_imp fun h _ _ => ?_
  rw [step, performs_perform, inside_write]
  exact h

/-- `m_vaddr` has been looked at before. -/
theorem performs_mapSegment {ph : ℕ} (hvaddr : BytesInside length (ph + pVaddr) 4) :
    Performs (Primitive.exec L fuel alloc) (Inside length) (mapSegment elfData task ph) k ↔
      BytesInside length (ph + pFilesz) 2 := by
  rw [mapSegment, performs_read]
  refine and_iff_left fun _ _ => ?_
  rw [performs_read]
  refine ⟨hvaddr, fun _ _ => ?_⟩
  simp only [performs_bind, step, performs_perform, Inside, Touches, false_imp_iff, implies_true,
    and_true]

/-- The copy of a segment reads two fields and the bytes of the segment. -/
theorem performs_copySegment {ph : ℕ} (hvaddr : BytesInside length (ph + pVaddr) 4)
    (hfilesz : BytesInside length (ph + pFilesz) 2) :
    Performs (Primitive.exec L fuel alloc) (Inside length) (copySegment elfData ph) k ↔
      BytesInside length (ph + pOffset) 4 ∧ CopyFits elfData length ph k := by
  have hcopy : ∀ offset filesz vaddr,
      readInt k.machine 4 ((elfData + (ph + pVaddr)) % 2 ^ 32) = some vaddr →
      (Performs (Primitive.exec L fuel alloc) (Inside length)
          (loop (fun i => step (.copyByte ((vaddr + i) % 2 ^ 32) elfData (offset + i))) filesz 0) k ↔
        ∀ i < filesz, (memcpy i k.machine vaddr ((elfData + offset) % 2 ^ 32)).isSome →
          (offset + i) % 2 ^ 32 < length) := by
    intro offset filesz vaddr hv
    have hlt : vaddr < 2 ^ 32 := readInt_lt 4 hv
    rw [performs_copy, Nat.add_zero, Nat.add_zero, Nat.mod_eq_of_lt hlt]
    simp only [Nat.zero_add]
  rw [copySegment, performs_read]
  refine and_congr_right fun _ => ?_
  constructor
  · intro h offset filesz vaddr ho hf hv
    have hf' := (performs_read.mp (h offset ho)).2 filesz hf
    exact (hcopy offset filesz vaddr hv).mp ((performs_read.mp hf').2 vaddr hv)
  · intro h offset ho
    refine performs_read.mpr ⟨hfilesz, fun filesz hf => ?_⟩
    refine performs_read.mpr ⟨hvaddr, fun vaddr hv => ?_⟩
    exact (hcopy offset filesz vaddr hv).mpr (h offset filesz vaddr ho hf hv)

/-- One iteration, once the program header has been found. -/
theorem performs_segment {ph : ℕ} :
    Performs (Primitive.exec L fuel alloc) (Inside length) (alignSegment elfData ph >>= fun _ =>
        mapSegment elfData task ph >>= fun _ => copySegment elfData ph) k ↔
      SegmentFits (Primitive.exec L fuel alloc) elfData length task ph k := by
  rw [performs_bind, performs_alignSegment]
  constructor
  · rintro ⟨hvaddr, hrest⟩
    have hfilesz : ∀ k₁, (alignSegment elfData ph).run (Primitive.exec L fuel alloc) k = some ((), k₁) →
        BytesInside length (ph + pFilesz) 2 := fun k₁ hk₁ =>
      (performs_mapSegment hvaddr).mp ((performs_bind _ _).mp (hrest () k₁ hk₁)).1
    refine ⟨hvaddr, hfilesz, fun k₁ k₂ hk₁ hk₂ => ?_⟩
    exact (performs_copySegment hvaddr (hfilesz k₁ hk₁)).mp
      (((performs_bind _ _).mp (hrest () k₁ hk₁)).2 () k₂ hk₂)
  · rintro ⟨hvaddr, hfilesz, hcopy⟩
    refine ⟨hvaddr, fun _ k₁ hk₁ => (performs_bind _ _).mpr ⟨?_, fun _ k₂ hk₂ => ?_⟩⟩
    · exact (performs_mapSegment hvaddr).mpr (hfilesz k₁ hk₁)
    · exact (performs_copySegment hvaddr (hfilesz k₁ hk₁)).mpr (hcopy k₁ k₂ hk₁ hk₂)

/-- `m_phnum` has been looked at before, and the fields in front of it with it. -/
theorem performs_loadSegment {sec : ℕ} (hphnum : BytesInside length ePhnum 2) :
    Performs (Primitive.exec L fuel alloc) (Inside length) (loadSegment elfData task sec) k ↔
      ∀ phoff phentsize, readInt k.machine 4 ((elfData + ePhoff) % 2 ^ 32) = some phoff →
        readInt k.machine 2 ((elfData + ePhentsize) % 2 ^ 32) = some phentsize →
        SegmentFits (Primitive.exec L fuel alloc) elfData length task ((phoff + phentsize * sec) % 2 ^ 32)
          k := by
  have hphoff : BytesInside length ePhoff 4 := hphnum.of_le (by decide) (by decide) (by decide)
  have hphentsize : BytesInside length ePhentsize 2 :=
    hphnum.of_le (by decide) (by decide) (by decide)
  rw [loadSegment, performs_bind, performs_programHeader]
  simp only [run_programHeader, Option.bind_eq_some_iff, Option.map_eq_some_iff]
  constructor
  · rintro ⟨-, h⟩ phoff phentsize h1 h2
    exact performs_segment.mp (h _ k ⟨phoff, h1, phentsize, h2, rfl⟩)
  · intro h
    refine ⟨⟨hphoff, fun _ _ => hphentsize⟩, ?_⟩
    rintro _ _ ⟨phoff, h1, phentsize, h2, heq⟩
    obtain ⟨rfl, rfl⟩ := Prod.mk.inj heq
    exact performs_segment.mpr (h phoff phentsize h1 h2)

/-! ## The whole call -/

/-- All segments. -/
theorem performs_loadSegments (rounds : ℕ) : ∀ (sec : ℕ) (k : Kernel),
    Performs (Primitive.exec L fuel alloc) (Inside length) (loadSegments elfData task rounds sec) k ↔
      SegmentsFit (Primitive.exec L fuel alloc) elfData length task rounds sec k := by
  induction rounds with
  | zero => intro sec k; exact iff_true_intro (List.forall_mem_nil _)
  | succ rounds ih =>
    intro sec k
    rw [loadSegments, performs_read, SegmentsFit]
    refine and_congr_right fun hphnum => forall_congr' fun phnum => imp_congr_right fun _ => ?_
    by_cases hsec : sec < phnum
    · rw [if_pos hsec, performs_bind, performs_loadSegment hphnum]
      simp only [hsec, ih, forall_const]
      exact and_congr_right fun _ => ⟨fun h => h (), fun h _ => h⟩
    · rw [if_neg hsec]
      exact iff_of_true ((performs_pure _).mpr trivial) fun h => absurd h hsec

/-- The loop looks at `m_phnum` at least once. -/
theorem SegmentsFit.phnum {exec : (o : Primitive) → Kernel → Option (o.Result × Kernel)} {rounds sec : ℕ}
    (h : SegmentsFit exec elfData length task rounds sec k) (hrounds : 0 < rounds) :
    BytesInside length ePhnum 2 := by
  cases rounds with
  | zero => exact absurd hrounds (Nat.lt_irrefl 0)
  | succ rounds => exact h.1

/-- The checks of the file header, which a null pointer passes over. -/
theorem performs_verifyElfHeader :
    Performs (Primitive.exec L fuel alloc) (Inside length) (verifyElfHeader elfData) k ↔
      (elfData = 0 ∨ ChecksFit k.machine elfData length checks) := by
  rw [verifyElfHeader]
  by_cases h : elfData = 0
  · rw [if_pos h]
    exact iff_of_true ((performs_pure _).mpr trivial) (Or.inl h)
  · rw [if_neg h, performs_verify]
    exact (or_iff_right h).symm

/-- Verifying changes nothing, and refuses a null pointer. -/
theorem run_verifyElfHeader {b : Bool}
    (h : (verifyElfHeader elfData).run (Primitive.exec L fuel alloc) k = some (b, k')) :
    k' = k ∧ (b = true → elfData ≠ 0) := by
  rw [verifyElfHeader] at h
  by_cases hzero : elfData = 0
  · rw [if_pos hzero] at h
    obtain ⟨rfl, rfl⟩ := Prod.mk.inj (Option.some.inj h)
    exact ⟨rfl, fun h => absurd h Bool.false_ne_true⟩
  · rw [if_neg hzero] at h
    exact ⟨run_verify checks h, fun _ => hzero⟩

end

/-- `load` once the header is accepted. -/
def loadAccepted (L : Layout) (elfData : ℕ) : Routine Primitive.Result Bool := do
  let task ← createTask L false 0
  loadSegments elfData task (2 ^ 16) 0
  let entry ← step (.read 4 elfData eEntry)
  step (.taskStart task (BitVec.ofNat 32 entry))
  pure true

/-- `load` stays inside the file exactly if all it uses of it is there, whatever state it is called
in and whatever `kmalloc` does. -/
theorem load_inside_iff (L : Layout) (fuel : ℕ) (alloc : ℕ → Machine → Option (ℕ × Machine))
    (elfData length : ℕ) (k : Kernel) :
    Performs (Primitive.exec L fuel alloc) (Inside length) (load L elfData length) k ↔
      LoadFits (Primitive.exec L fuel alloc) elfData length L k := by
  have haccepted : Performs (Primitive.exec L fuel alloc) (Inside length) (loadAccepted L elfData) k ↔
      ∀ task k', (createTask L false 0).run (Primitive.exec L fuel alloc) k = some (task, k') →
        SegmentsFit (Primitive.exec L fuel alloc) elfData length task (2 ^ 16) 0 k' := by
    rw [loadAccepted, performs_bind, and_iff_right performs_createTask]
    refine forall_congr' fun task => forall_congr' fun k' => imp_congr_right fun _ => ?_
    rw [performs_bind, performs_loadSegments]
    refine and_iff_left_of_imp fun hfit _ _ _ => performs_read.mpr ⟨?_, fun _ _ => ?_⟩
    · exact (hfit.phnum (by decide)).of_le (by decide) (by decide) (by decide)
    · simp only [performs_bind, step, performs_perform, performs_pure, Inside, Touches,
        false_imp_iff, implies_true, and_true]
  rw [load, performs_bind, performs_verifyElfHeader, LoadFits]
  constructor
  · rintro ⟨hzero | hchecks, hrest⟩
    · exact Or.inl hzero
    · exact Or.inr ⟨hchecks, fun hrun => haccepted.mp (hrest true k hrun)⟩
  · rintro (hzero | ⟨hchecks, hsegments⟩)
    · refine ⟨Or.inl hzero, fun b k' hrun => ?_⟩
      obtain ⟨rfl, hb⟩ := run_verifyElfHeader hrun
      cases b with
      | false => exact (performs_pure _).mpr trivial
      | true => exact absurd hzero (hb rfl)
    · refine ⟨Or.inr hchecks, fun b k' hrun => ?_⟩
      obtain ⟨rfl, -⟩ := run_verifyElfHeader hrun
      cases b with
      | false => exact (performs_pure _).mpr trivial
      | true => exact haccepted.mpr (hsegments hrun)

/-- A machine with the words of a file at 0x50000. -/
def fileMachine (file : List ℕ) : Machine :=
  { blankMachine with ram := fun f i => if f = 0x50 then file.getD i 0 else 0 }

theorem booted_fileMachine (file : List ℕ) : Booted minimalLayout (fileMachine file) := by
  have hram : ∀ f i, f ≠ 0x50 → (fileMachine file).ram f i = 0 := fun f i hf => if_neg hf
  have htable : minimalLayout.kernelPageTable = 0x101 := rfl
  refine ⟨fun i => hram _ i (by decide), fun s _ i => hram _ i ?_⟩
  omega

/-- The bytes of the file. -/
def fileBytes (file : List ℕ) (i : ℕ) : ℕ := BitField.get (8 * (i % 4)) 8 (file.getD (i / 4) 0)

/-- The machine `init` leaves, and those like it: the first pages are the kernel's, up to 128 MiB
the others are free, and the file is where it was. -/
structure FileMapped (file : List ℕ) (m : Machine) : Prop where
  boot : BootExact minimalLayout (InitRun minimalLayout []) m
  cr3 : m.cr3 = minimalLayout.kernelPageDirectory
  ram : ∀ g i, ¬ minimalLayout.Own g → m.ram g i = (fileMachine file).ram g i
  total : m.memManData.totalMemory.toNat / pageSize = 0x8000
  used : ∀ p, InBitmap p → (m.memManData.used p = true ↔ p < 0x203 ∨ 0x8000 ≤ p)

/-- `init` leaves the file mapped. -/
theorem fileMapped_init {file : List ℕ} {m₀ : Machine}
    (h : init minimalLayout (2 ^ 20 + 1) (fileMachine file) [⟨0, 0x8000000, 1⟩] [] = some m₀) :
    FileMapped file m₀ := by
  have hnone : ∀ module ∈ ([] : List ModuleInfo), WellPlaced module ∧ module.modEnd ≠ 2 ^ 30 :=
    List.forall_mem_nil _
  have hfuel : 2 ^ 20 < 2 ^ 20 + 1 := by omega
  obtain ⟨m₁, hm₁, hboot, hcr3⟩ := bootExact_init [⟨0, 0x8000000, 1⟩] (booted_fileMachine file) hnone
    hfuel
  obtain rfl := Option.some.inj (h.symm.trans hm₁)
  obtain ⟨m₂, hm₂, hram⟩ := ram_init (L := minimalLayout) [⟨0, 0x8000000, 1⟩]
    (booted_fileMachine file) hfuel
  obtain rfl := Option.some.inj (h.symm.trans hm₂)
  obtain ⟨htotal, hused⟩ := used_init_minimal (booted_fileMachine file) h
  exact ⟨hboot, hcr3, hram, htotal, hused⟩

/-- Mapping pages to themselves that are mapped so already. -/
theorem FileMapped.identityMap {file : List ℕ} {m : Machine} {k : ℕ} (size : ℕ)
    (h : FileMapped file m) (hk : k + pageAlign size / pageSize ≤ 0x203) :
    ∃ m', identityMap (2 ^ 20 + 1) m minimalLayout.kernelPageDirectory (k * pageSize) size
        = some m' ∧
      FileMapped file m' := by
  have hk20 : k < 2 ^ 20 :=
    Nat.lt_of_le_of_lt (Nat.le_trans (Nat.le_add_right _ _) hk) (by decide)
  have hrun : ∀ p, InRun k (pageAlign size / pageSize) p → p < 0x203 := by
    intro p hp
    rw [inRun_iff (by omega)] at hp
    omega
  obtain ⟨m', hm', hboot, hcr3, hdata, hram⟩ := bootExact_identityMap size
    h.boot.directory (Nat.le_trans hk (by decide)) (show 2 ^ 20 < 2 ^ 20 + 1 by omega)
    (fun p hp => Or.inl (h.boot.used p hp))
    h.boot.self (fun f hf => Or.inl (h.boot.own f hf)) h.boot.present h.boot.high
  refine ⟨m', hm', ⟨hboot.congr fun p => ?_, ?_, fun g i hg => ?_, ?_, fun p hp => ?_⟩⟩
  · exact or_iff_left_of_imp fun hp => initRun_minimal.mpr (hrun p hp)
  · rw [hcr3, h.cr3]
  · rw [hram g i hg, h.ram g i hg]
  · rw [hdata, totalMemory_physicalAllocateAt]
    exact h.total
  · rw [hdata, used_physicalAllocateAt, pageOf_mul_of_lt hk20, ← h.used p hp]
    exact or_iff_left_of_imp fun hin => (h.used p hp).mpr (Or.inl (hrun p hin))

/-- The pages the kernel maps are mapped to themselves. -/
theorem FileMapped.self {file : List ℕ} {m : Machine} {a : ℕ} (h : FileMapped file m)
    (ha : pageOf a < 0x203) : translate m a = some (pageOf a) := by
  have hself := h.boot.self (pageOf a) (Nat.lt_trans ha (by decide)) (initRun_minimal.mpr ha)
  rw [translate_eq, h.cr3, if_pos hself.present, hself.frame]

theorem not_own_low {g : ℕ} (hg : g < 0x100) : ¬ minimalLayout.Own g := by
  rintro (rfl | ⟨hge, -⟩)
  · exact absurd hg (by decide)
  · exact absurd (Nat.lt_of_le_of_lt hge hg) (by decide)

/-- The file is where it was. -/
theorem FileMapped.byte {file : List ℕ} {m : Machine} (h : FileMapped file m) {i : ℕ}
    (hi : i < 4096) : pageOf (0x50000 + i) = 0x50 ∧ (0x50000 + i) % pageSize = i ∧
      translate m (0x50000 + i) = some 0x50 ∧ m.byte 0x50 i = fileBytes file i := by
  have hpage : pageOf (0x50000 + i) = 0x50 := by
    rw [pageOf, pageSize]
    omega
  have hoffset : (0x50000 + i) % pageSize = i := by
    rw [pageSize]
    omega
  refine ⟨hpage, hoffset, ?_, ?_⟩
  · rw [h.self (by omega), hpage]
  · rw [Machine.byte, h.ram 0x50 _ (not_own_low (by omega)), fileBytes]
    rfl

/-- A field of the file reads as it was. -/
theorem FileMapped.readInt {file : List ℕ} {m : Machine} (h : FileMapped file m) {n o : ℕ}
    (hle : o + n ≤ 4096) :
    readInt m n ((0x50000 + o) % 2 ^ 32) = some (littleEndian (fileBytes file) n o) := by
  refine readInt_eq n fun i hi => ?_
  obtain ⟨-, hoffset, htrans, hbyte⟩ := h.byte (show o + i < 4096 by omega)
  rw [show (0x50000 + (o + i)) % 2 ^ 32 = 0x50000 + (o + i) by omega, readByte, htrans,
    Option.map_some, hoffset, hbyte]

/-- A file of four bytes, the magic number and no more: the class is looked at behind its end. -/
theorem load_leaves_file : ∃ m₀, init minimalLayout (2 ^ 20 + 1) (fileMachine [0x464C457F])
      [⟨0, 0x8000000, 1⟩] [] = some m₀ ∧
    ¬ Performs (Primitive.exec minimalLayout (2 ^ 20 + 1) (kmallocEmpty minimalLayout (2 ^ 20 + 1)))
      (Inside 4) (load minimalLayout 0x50000 4)
      ⟨m₀, (Scheduler.boot Scheduler.zeroed).start 0 0, []⟩ := by
  obtain ⟨m₀, hm₀, -⟩ := ram_init (L := minimalLayout) [⟨0, 0x8000000, 1⟩]
    (booted_fileMachine [0x464C457F]) (show 2 ^ 20 < 2 ^ 20 + 1 by omega)
  refine ⟨m₀, hm₀, fun h => ?_⟩
  have hread : ∀ o < 4, readInt m₀ 1 ((0x50000 + o) % 2 ^ 32)
      = some (littleEndian (fileBytes [0x464C457F]) 1 o) :=
    fun o ho => (fileMapped_init hm₀).readInt (by omega)
  rw [load, performs_bind, performs_verifyElfHeader] at h
  obtain ⟨-, h⟩ := h.1.resolve_left (by decide)
  obtain ⟨-, h⟩ := h _ (hread 0 (by decide)) (by decide)
  obtain ⟨-, h⟩ := h _ (hread 1 (by decide)) (by decide)
  obtain ⟨-, h⟩ := h _ (hread 2 (by decide)) (by decide)
  obtain ⟨hclass, -⟩ := h _ (hread 3 (by decide)) (by decide)
  exact absurd (hclass 0 Nat.one_pos) (by decide)

end Sakura.Elf
