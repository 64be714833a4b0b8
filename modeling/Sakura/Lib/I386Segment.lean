import Sakura.Lib.I386Trap

/-!
# Segments of the i386

What the processor takes a descriptor for, and which linear address it makes of an offset. In a
segment that expands down the offsets above the limit are the valid ones.
-/

namespace I386

/-- A segment descriptor, as it is in memory. -/
abbrev Descriptor := BitVec 64

namespace Descriptor

variable (d : Descriptor)

def base : Word := d.extractLsb' 56 8 ++ d.extractLsb' 16 24

def limit : BitVec 20 := d.extractLsb' 48 4 ++ d.extractLsb' 0 16

/-- Granularity, size, long mode and the bit for the system, and the access byte. -/
def rights : BitVec 12 := d.extractLsb' 52 4 ++ d.extractLsb' 40 8

def granular : Bool := d.getLsbD 55

def present : Bool := d.getLsbD 47

def privilege : BitVec 2 := d.extractLsb' 45 2

/-- For code or data, and not for the system. -/
def codeOrData : Bool := d.getLsbD 44

def executable : Bool := d.getLsbD 43

def expandDown : Bool := !d.executable && d.getLsbD 42

def writable : Bool := !d.executable && d.getLsbD 41

/-- The limit in bytes. -/
def lastOffset : ℕ := if d.granular then d.limit.toNat * 4096 + 4095 else d.limit.toNat

/-- Whether an access at the offset stays inside the segment. -/
def covers (offset : Word) : Bool :=
  if d.expandDown then d.lastOffset < offset.toNat else offset.toNat ≤ d.lastOffset

/-- The linear address of an offset. -/
def linear (offset : Word) : Option Word :=
  if d.present && d.codeOrData && d.covers offset then some (d.base + offset) else none

/-! Where the bits of the fields are. -/

theorem getLsbD_base (i : ℕ) : d.base.getLsbD i =
    if i < 24 then d.getLsbD (16 + i) else decide (i < 32) && d.getLsbD (32 + i) := by
  rw [base, BitVec.getLsbD_append, BitVec.getLsbD_extractLsb', BitVec.getLsbD_extractLsb']
  split_ifs with hi
  · simp [hi]
  · have hlow : 56 + (i - 24) = 32 + i := by omega
    have hlt : i - 24 < 8 ↔ i < 32 := by omega
    simp only [hlow, hlt]

theorem getLsbD_limit (i : ℕ) : d.limit.getLsbD i =
    if i < 16 then d.getLsbD i else decide (i < 20) && d.getLsbD (32 + i) := by
  rw [limit, BitVec.getLsbD_append, BitVec.getLsbD_extractLsb', BitVec.getLsbD_extractLsb']
  split_ifs with hi
  · simp [hi]
  · have hlow : 48 + (i - 16) = 32 + i := by omega
    have hlt : i - 16 < 4 ↔ i < 20 := by omega
    simp only [hlow, hlt]

theorem getLsbD_rights (i : ℕ) : d.rights.getLsbD i =
    if i < 8 then d.getLsbD (40 + i) else decide (i < 12) && d.getLsbD (44 + i) := by
  rw [rights, BitVec.getLsbD_append, BitVec.getLsbD_extractLsb', BitVec.getLsbD_extractLsb']
  split_ifs with hi
  · simp [hi]
  · have hlow : 52 + (i - 8) = 44 + i := by omega
    have hlt : i - 8 < 4 ↔ i < 12 := by omega
    simp only [hlow, hlt]

end Descriptor

/-- The descriptor a selector selects. There is no local table. -/
def segment (table : List Descriptor) (w : Selector) : Option Descriptor :=
  if w.toNat / 8 = 0 ∨ w.getLsbD 2 = true then none else table[w.toNat / 8]?

end I386
