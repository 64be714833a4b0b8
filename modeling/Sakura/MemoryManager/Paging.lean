import Sakura.Lib.BitField

/-!
# Page tables, as `Paging.h` and `Arch.h` declare them

The constants of the i386 port and the bit fields of a directory or table entry. An entry
is a 32-bit word; `PageTableEntry` and `PageDirectoryEntry` give the same positions to the
four fields the kernel assigns (`present`, `write`, `user`, `pageFrameNumber`), so one set
of accessors serves both. The other bits are only ever carried along.
-/

namespace Sakura.MemoryManager

/-! ## Constants -/

/-- `PAGE_SIZE`. -/
def pageSize : ℕ := 0x1000

/-- `TOTAL_MEMORY`: one byte short of the 32-bit address space. -/
def totalMemory : ℕ := 0xFFFFFFFF

/-- `KERNEL_START_ADDRESS`, the lowest address `VirtualAllocate` hands to the kernel. -/
def kernelStartAddress : ℕ := 0x100000

/-- `NUM_KERNEL_PAGETABLES`: the tables of the first GiB, common to every directory. -/
def numKernelPageTables : ℕ := 256

/-- `MAX_NUM_PHYSICAL_PAGES`. -/
def maxNumPhysicalPages : ℕ := totalMemory / pageSize

/-- `PAGE_ALIGN(size)` on a 32-bit `size`. It adds a whole page to a size that is already
a multiple of the page size. -/
def pageAlign (size : ℕ) : ℕ := (size + pageSize - size % pageSize) % 2 ^ 32

/-! ## Entries -/

namespace Entry

def present (e : ℕ) : Bool := BitField.get 0 1 e == 1

def write (e : ℕ) : Bool := BitField.get 1 1 e == 1

def user (e : ℕ) : Bool := BitField.get 2 1 e == 1

def pageFrameNumber (e : ℕ) : ℕ := BitField.get 12 20 e

def setPresent (b : Bool) (e : ℕ) : ℕ := BitField.put 0 1 b.toNat e

def setWrite (b : Bool) (e : ℕ) : ℕ := BitField.put 1 1 b.toNat e

def setUser (b : Bool) (e : ℕ) : ℕ := BitField.put 2 1 b.toNat e

def setPageFrameNumber (n e : ℕ) : ℕ := BitField.put 12 20 n e

/-- The four assignments `VirtualMap` makes to an entry: present, writable, the given
user bit and frame; every other bit stays as it was. -/
def map (e : ℕ) (isUser : Bool) (frame : ℕ) : ℕ :=
  setPageFrameNumber frame (setUser isUser (setWrite true (setPresent true e)))

@[simp] theorem present_map (e : ℕ) (isUser : Bool) (frame : ℕ) :
    present (map e isUser frame) = true := by
  rw [present, map, setPageFrameNumber, BitField.get_put_below _ _ (by omega),
    setUser, BitField.get_put_below _ _ (by omega),
    setWrite, BitField.get_put_below _ _ (by omega), setPresent, BitField.get_put_self]
  rfl

@[simp] theorem write_map (e : ℕ) (isUser : Bool) (frame : ℕ) :
    write (map e isUser frame) = true := by
  rw [write, map, setPageFrameNumber, BitField.get_put_below _ _ (by omega),
    setUser, BitField.get_put_below _ _ (by omega), setWrite, BitField.get_put_self]
  rfl

@[simp] theorem user_map (e : ℕ) (isUser : Bool) (frame : ℕ) :
    user (map e isUser frame) = isUser := by
  rw [user, map, setPageFrameNumber, BitField.get_put_below _ _ (by omega),
    setUser, BitField.get_put_self]
  cases isUser <;> rfl

@[simp] theorem pageFrameNumber_map (e : ℕ) (isUser : Bool) (frame : ℕ) :
    pageFrameNumber (map e isUser frame) = frame % 2 ^ 20 := by
  rw [pageFrameNumber, map, setPageFrameNumber, BitField.get_put_self]

theorem pageFrameNumber_lt (e : ℕ) : pageFrameNumber e < 2 ^ 20 :=
  Nat.mod_lt _ (Nat.two_pow_pos 20)

@[simp] theorem present_zero : present 0 = false := rfl

/-- Assigning a one-bit field the value it reads as changes nothing. -/
theorem put_flag {lo e : ℕ} {b : Bool} (h : (BitField.get lo 1 e == 1) = b) :
    BitField.put lo 1 b.toNat e = e := by
  have hlt : BitField.get lo 1 e < 2 := Nat.mod_lt _ (by omega)
  have hget : b.toNat = BitField.get lo 1 e := by
    cases b with
    | true =>
      rw [beq_iff_eq] at h
      exact h.symm
    | false =>
      rw [beq_eq_false_iff_ne] at h
      rw [Bool.toNat_false]
      omega
  rw [hget, BitField.put_get_self]

/-- The entries to which the four assignments do nothing. -/
theorem map_eq_self_iff {e frame : ℕ} {isUser : Bool} : map e isUser frame = e ↔
    present e = true ∧ write e = true ∧ user e = isUser ∧ pageFrameNumber e = frame % 2 ^ 20 := by
  constructor
  · intro h
    rw [← h]
    exact ⟨present_map _ _ _, write_map _ _ _, user_map _ _ _, pageFrameNumber_map _ _ _⟩
  · rintro ⟨hpresent, hwrite, huser, hframe⟩
    have hput : BitField.put 12 20 frame e = BitField.put 12 20 (pageFrameNumber e) e := by
      rw [hframe, BitField.put, BitField.put, Nat.mod_mod]
    unfold map setPresent setWrite setUser setPageFrameNumber
    rw [put_flag hpresent, put_flag hwrite, put_flag huser, hput]
    exact BitField.put_get_self 12 20 e

end Entry

/-! ## The parts of a virtual address -/

/-- `PAGE_DIR_INDEX`. -/
def pageDirIndex (virtualAddress : ℕ) : ℕ := virtualAddress % 2 ^ 32 / 2 ^ 22

/-- `PAGE_TABLE_INDEX`. -/
def pageTableIndex (virtualAddress : ℕ) : ℕ := virtualAddress / 2 ^ 12 % 1024

/-- The page an address lies in. Pages are numbered modulo `2 ^ 20`, as 32-bit addresses
are modulo `2 ^ 32`. -/
def pageOf (address : ℕ) : ℕ := address % 2 ^ 32 / pageSize

theorem pageOf_lt (address : ℕ) : pageOf address < 2 ^ 20 := by
  rw [pageOf, pageSize]; omega

@[simp] theorem pageOf_mul_pageSize (k : ℕ) : pageOf (k * pageSize) = k % 2 ^ 20 := by
  rw [pageOf, pageSize]; omega

@[simp] theorem pageOf_mod (address : ℕ) : pageOf (address % 2 ^ 32) = pageOf address := by
  rw [pageOf, Nat.mod_mod, pageOf]

/-- Going on by whole pages, page numbers wrap with the addresses. -/
theorem pageOf_add_mul (address i : ℕ) :
    pageOf (address + i * pageSize) = (pageOf address + i) % 2 ^ 20 := by
  simp only [pageOf, pageSize]; omega

/-- The next page, as the loops step to it. -/
theorem pageOf_next (address : ℕ) :
    pageOf ((address + pageSize) % 2 ^ 32) = (pageOf address + 1) % 2 ^ 20 := by
  have h := pageOf_add_mul address 1
  rw [Nat.one_mul] at h
  rw [pageOf_mod, h]

/-- The slot of an address is that of its page. -/
theorem pageDirIndex_eq (va : ℕ) : pageDirIndex va = pageOf va / 1024 := by
  simp only [pageDirIndex, pageOf, pageSize]; omega

/-- The index of an address in its table is that of its page. -/
theorem pageTableIndex_eq (va : ℕ) : pageTableIndex va = pageOf va % 1024 := by
  simp only [pageTableIndex, pageOf, pageSize]; omega

end Sakura.MemoryManager
