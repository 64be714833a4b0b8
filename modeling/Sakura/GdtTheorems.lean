import Mathlib.Tactic.IntervalCases
import Sakura.Gdt
import Sakura.InterruptsTheorems

/-!
# Descriptors and flat segments

`create_descriptor` is a bijection between bases, limits of twenty bits and rights on the one side
and descriptors on the other (`descriptor_round_trip`). The segments it makes for the kernel are
flat, so that code which is entered through a gate sees linear addresses, whatever was in the
segment registers before (`enter_flat`).
-/

namespace Sakura.Gdt

open I386

/-- Where the bits of a descriptor come from. -/
theorem getLsbD_createDescriptor (base limit : Word) (flag : BitVec 16) {i : ℕ} (hi : i < 64) :
    (createDescriptor base limit flag).getLsbD i =
      if i < 16 then limit.getLsbD i
      else if i < 40 then base.getLsbD (i - 16)
      else if i < 48 then flag.getLsbD (i - 40)
      else if i < 52 then limit.getLsbD (i - 32)
      else if i < 56 then flag.getLsbD (i - 40)
      else base.getLsbD (i - 32) := by
  interval_cases i <;> simp [createDescriptor]

/-! ## The round trip -/

/-- The rights among the flags, which four bits between them have no part in. -/
def rightsOf (flag : BitVec 16) : BitVec 12 := flag.extractLsb' 12 4 ++ flag.extractLsb' 0 8

def flagOf (rights : BitVec 12) : BitVec 16 :=
  rights.extractLsb' 8 4 ++ ((0 : BitVec 4) ++ rights.extractLsb' 0 8)

/-- Where each bit of the rights comes from. -/
theorem getLsbD_rightsOf (flag : BitVec 16) (i : ℕ) : (rightsOf flag).getLsbD i =
    if i < 8 then flag.getLsbD i else decide (i < 12) && flag.getLsbD (4 + i) := by
  rw [rightsOf, BitVec.getLsbD_append, BitVec.getLsbD_extractLsb', BitVec.getLsbD_extractLsb']
  split_ifs with hi
  · simp [hi]
  · have hlow : 12 + (i - 8) = 4 + i := by omega
    have hlt : i - 8 < 4 ↔ i < 12 := by omega
    simp only [hlow, hlt]

/-- Where each bit of the flags comes from. -/
theorem getLsbD_flagOf (rights : BitVec 12) (i : ℕ) : (flagOf rights).getLsbD i =
    if i < 8 then rights.getLsbD i else decide (12 ≤ i ∧ i < 16) && rights.getLsbD (i - 4) := by
  rw [flagOf, BitVec.getLsbD_append, BitVec.getLsbD_append, BitVec.getLsbD_extractLsb',
    BitVec.getLsbD_extractLsb']
  by_cases hlow : i < 8
  · simp [hlow, show i < 12 by omega]
  · by_cases hmiddle : i < 12
    · simp [hlow, hmiddle]
    · have hsub : 8 + (i - 12) = i - 4 := by omega
      have hlt : i - 12 < 4 ↔ 12 ≤ i ∧ i < 16 := by omega
      simp only [if_neg hlow, if_neg hmiddle, hsub, hlt]

/-- The base comes back in full. -/
theorem base_createDescriptor (base limit : Word) (flag : BitVec 16) :
    (createDescriptor base limit flag).base = base := by
  refine BitVec.eq_of_getLsbD_eq fun i hi => ?_
  rw [Descriptor.getLsbD_base, getLsbD_createDescriptor _ _ _ (by omega),
    getLsbD_createDescriptor _ _ _ (by omega)]
  split_ifs <;> first | omega | simp_all

/-- The limit comes back with its 20 bits. -/
theorem limit_createDescriptor (base limit : Word) (flag : BitVec 16) :
    (createDescriptor base limit flag).limit = limit.setWidth 20 := by
  refine BitVec.eq_of_getLsbD_eq fun i hi => ?_
  rw [Descriptor.getLsbD_limit, getLsbD_createDescriptor _ _ _ (by omega),
    getLsbD_createDescriptor _ _ _ (by omega), BitVec.getLsbD_setWidth]
  split_ifs <;> first | omega | simp_all

/-- The rights come back without the four bits the limit has. -/
theorem rights_createDescriptor (base limit : Word) (flag : BitVec 16) :
    (createDescriptor base limit flag).rights = rightsOf flag := by
  refine BitVec.eq_of_getLsbD_eq fun i hi => ?_
  rw [Descriptor.getLsbD_rights, getLsbD_createDescriptor _ _ _ (by omega),
    getLsbD_createDescriptor _ _ _ (by omega), getLsbD_rightsOf]
  interval_cases i <;> simp

/-- A descriptor is made again from what is read out of it. -/
theorem createDescriptor_fields (d : Descriptor) :
    createDescriptor d.base (d.limit.setWidth 32) (flagOf d.rights) = d := by
  refine BitVec.eq_of_getLsbD_eq fun i hi => ?_
  rw [getLsbD_createDescriptor _ _ _ hi, BitVec.getLsbD_setWidth, BitVec.getLsbD_setWidth,
    Descriptor.getLsbD_limit, Descriptor.getLsbD_limit, Descriptor.getLsbD_base,
    Descriptor.getLsbD_base, getLsbD_flagOf, Descriptor.getLsbD_rights, Descriptor.getLsbD_rights]
  interval_cases i <;> rfl

/-- A descriptor has the base, the limit, cut to twenty bits, and the rights it was created with,
and every descriptor is created from its own. -/
theorem descriptor_round_trip :
    (∀ base limit flag, (createDescriptor base limit flag).base = base ∧
      (createDescriptor base limit flag).limit = limit.setWidth 20 ∧
      (createDescriptor base limit flag).rights = rightsOf flag) ∧
    ∀ d : Descriptor, createDescriptor d.base (d.limit.setWidth 32) (flagOf d.rights) = d :=
  ⟨fun base limit flag => ⟨base_createDescriptor base limit flag,
    limit_createDescriptor base limit flag, rights_createDescriptor base limit flag⟩,
    createDescriptor_fields⟩

/-! ## Flat segments -/

/-- A segment of level 0 that translates every offset to itself, for code or for data. -/
structure Flat (d : Descriptor) (code : Bool) : Prop where
  present : d.present = true
  privilege : d.privilege = 0
  executable : d.executable = code
  writable : d.writable = !code
  linear : ∀ offset, d.linear offset = some offset

/-- What a descriptor has to say for its segment to be flat. -/
theorem flat_of_rights {d : Descriptor} {code : Bool} (hbase : d.base = 0)
    (hlast : d.lastOffset = 2 ^ 32 - 1) (hpresent : d.present = true) (hkind : d.codeOrData = true)
    (hlevel : d.privilege = 0) (hcode : d.executable = code) (hwritable : d.writable = !code)
    (hdown : d.expandDown = false) : Flat d code := by
  refine ⟨hpresent, hlevel, hcode, hwritable, fun offset => ?_⟩
  have hoffset := offset.isLt
  have hcovers : d.covers offset = true := by
    rw [Descriptor.covers, hdown, hlast]
    simp only [Bool.false_eq_true, if_false, decide_eq_true_eq]
    omega
  rw [Descriptor.linear, hpresent, hkind, hcovers, hbase]
  simp

theorem flat_code : Flat (createDescriptor 0 0x000FFFFF gdtCodePl0) true :=
  flat_of_rights (by decide) (by decide) (by decide) (by decide) (by decide) (by decide) (by decide)
    (by decide)

theorem flat_data : Flat (createDescriptor 0 0x000FFFFF gdtDataPl0) false :=
  flat_of_rights (by decide) (by decide) (by decide) (by decide) (by decide) (by decide) (by decide)
    (by decide)

open Interrupts in
theorem seg_isrSave (t : Core) (r : Seg) :
    (runTrap isrSave t).seg r = if r = .cs then t.seg .cs else 0x10 := by
  have hlow : ∀ (w : BitVec 16) (w' : Selector), BitVec.setWidth 16 (w ++ w') = w' :=
    fun w w' => BitVec.setWidth_append_eq_right
  simp only [isrSave, runTrap_cons, runTrap_nil, TrapInstr.exec, Instr.exec]
  cases r <;> simp [hlow]

/-- The stub of an interrupt leaves with the segments it came with. -/
theorem seg_irq (index : ℕ) (s : Core) (r : Seg) :
    (runTrap (Interrupts.irq index) s).seg r = s.seg r := by
  rw [Interrupts.irq]
  split_ifs <;> simp [TrapInstr.exec]

/-- The segments that `interruptHandler` runs in, whatever the interrupted code had loaded. -/
theorem seg_enter {address : ℕ → Word} {index v : ℕ} (hgate : (index, v) ∈ Interrupts.gates)
    (s : Core) (errorCode : Word) (r : Seg) :
    (Interrupts.enter address index v errorCode s).seg r = if r = .cs then 0x08 else 0x10 := by
  rw [Interrupts.enter, runTrap_append, seg_isrSave, seg_irq, Interrupts.configureIdt_gate hgate,
    Interrupts.configureGate, Function.update_self, Core.interrupt, Core.seg_setSeg, if_pos rfl]

/-- Behind every gate the kernel runs with the linear addresses for offsets, in a code segment and
in data segments of level 0, whatever segments the interrupted code has and wherever the task
state segment is. -/
theorem enter_flat (address : ℕ → Word) (tss : Word) (s : Core) (errorCode : Word) (r : Seg)
    {index v : ℕ} (hgate : (index, v) ∈ Interrupts.gates) :
    ∃ d, segment (gdTable tss) ((Interrupts.enter address index v errorCode s).seg r) = some d ∧
      Flat d (r = .cs) := by
  rw [seg_enter hgate]
  by_cases hr : r = .cs
  · rw [if_pos hr]
    exact ⟨_, rfl, by simpa [hr] using flat_code⟩
  · rw [if_neg hr]
    exact ⟨_, rfl, by simpa [hr] using flat_data⟩

/-- The tick of a timer, in code that has null selectors. -/
theorem enter_flat_tick :
    ∃ d, segment (gdTable 0xC0200000) ((Interrupts.enter (fun _ => 0xC0100400) 32 32 0
        { Interrupts.running with seg := fun _ => 0 }).seg .ds) = some d ∧
      Flat d false :=
  enter_flat _ _ _ _ .ds (by decide)

end Sakura.Gdt
