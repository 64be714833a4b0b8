import Mathlib.Algebra.Group.Nat.Defs
import Mathlib.Data.Int.Notation
import Mathlib.Tactic.Common
import Mathlib.Logic.Function.Basic

/-!
# Straight-line i386 code

The instructions a context switch is written in, on a register file and a memory of 32-bit
words. An address is the byte address of a word; accesses are taken to be aligned, so that
two of them meet only at equal addresses. `eip` is only set by `ret`: there are no jumps,
and a program is the list of its instructions.

Addresses are written `off a k`, a base and a displacement. `off` and `upd` are irreducible:
arithmetic goes through `off_off`, `off_zero` and `off_inj`, reading through `upd_self` and
`upd_of_ne`.
-/

namespace I386

/-- A register or memory word. -/
abbrev Word := BitVec 32

/-! ## Addresses -/

/-- The word `k` bytes from `a`, wrapping at the end of the address space. -/
@[irreducible] def off (a : Word) (k : ℤ) : Word := a + BitVec.ofInt 32 k

theorem off_eq_add (a : Word) (k : ℤ) : off a k = a + BitVec.ofInt 32 k := by
  rw [off]

@[simp] theorem off_off (a : Word) (j k : ℤ) : off (off a j) k = off a (j + k) := by
  rw [off_eq_add, off_eq_add, off_eq_add, BitVec.add_assoc, BitVec.ofInt_add]

@[simp] theorem off_zero (a : Word) : off a 0 = a := by
  rw [off_eq_add]
  exact BitVec.add_zero a

/-- Small displacements from one base give different addresses. -/
@[simp] theorem off_inj (a : Word) {j k : ℤ} (hj : j.natAbs < 2 ^ 30) (hk : k.natAbs < 2 ^ 30) :
    off a j = off a k ↔ j = k := by
  constructor
  · intro h
    rw [off_eq_add, off_eq_add, BitVec.add_right_inj] at h
    have htoInt := congrArg BitVec.toInt h
    rw [BitVec.toInt_ofInt, BitVec.toInt_ofInt, Int.bmod_def, Int.bmod_def] at htoInt
    omega
  · rintro rfl
    rfl

@[simp] theorem off_eq_self (a : Word) {k : ℤ} (hk : k.natAbs < 2 ^ 30) : off a k = a ↔ k = 0 := by
  conv_lhs => rhs; rw [← off_zero a]
  exact off_inj a hk (by decide)

@[simp] theorem self_eq_off (a : Word) {k : ℤ} (hk : k.natAbs < 2 ^ 30) : a = off a k ↔ k = 0 := by
  rw [eq_comm, off_eq_self a hk]

/-! ## Memory -/

/-- Memory with the word `w` at `a`. -/
@[irreducible] def upd (mem : Word → Word) (a w : Word) : Word → Word := Function.update mem a w

@[simp] theorem upd_self (mem : Word → Word) (a w : Word) : upd mem a w a = w := by
  rw [upd, Function.update_self]

@[simp] theorem upd_of_ne {a x : Word} (h : x ≠ a) (mem : Word → Word) (w : Word) :
    upd mem a w x = mem x := by
  rw [upd, Function.update_of_ne h]

/-- Memory with the given words written to it, the first of the list first. -/
def writeAll (mem : Word → Word) (l : List (Word × Word)) : Word → Word :=
  l.foldl (fun m w => upd m w.1 w.2) mem

@[simp] theorem writeAll_nil (mem : Word → Word) : writeAll mem [] = mem := by
  rw [writeAll, List.foldl_nil]

@[simp] theorem writeAll_cons (mem : Word → Word) (a w : Word) (l : List (Word × Word)) :
    writeAll mem ((a, w) :: l) = writeAll (upd mem a w) l := by
  rw [writeAll, List.foldl_cons, writeAll]

/-- A word that is not written to. -/
theorem writeAll_of_ne {l : List (Word × Word)} {x : Word} (h : ∀ w ∈ l, x ≠ w.1)
    (mem : Word → Word) : writeAll mem l x = mem x := by
  induction l generalizing mem with
  | nil => rw [writeAll_nil]
  | cons w l ih =>
    have hne : x ≠ w.1 := h w List.mem_cons_self
    rw [writeAll_cons, ih fun w' hw' => h w' (List.mem_cons_of_mem _ hw'), upd_of_ne hne]

/-! ## State -/

inductive Reg where
  | eax | ecx | edx | ebx | esp | ebp | esi | edi
  deriving DecidableEq, Repr

/-- The state of the processor and the memory it sees. -/
structure Cpu where
  reg : Reg → Word
  eip : Word
  eflags : Word
  cr3 : Word
  mem : Word → Word

namespace Cpu

def setReg (s : Cpu) (r : Reg) (w : Word) : Cpu :=
  { s with reg := fun r' => if r' = r then w else s.reg r' }

def setEip (s : Cpu) (w : Word) : Cpu := { s with eip := w }

def setEflags (s : Cpu) (w : Word) : Cpu := { s with eflags := w }

def setCr3 (s : Cpu) (w : Word) : Cpu := { s with cr3 := w }

def store (s : Cpu) (a w : Word) : Cpu := { s with mem := upd s.mem a w }

def push (s : Cpu) (w : Word) : Cpu :=
  (s.setReg .esp (off (s.reg .esp) (-4))).store (off (s.reg .esp) (-4)) w

/-- The word on top of the stack. -/
def top (s : Cpu) : Word := s.mem (s.reg .esp)

/-- Drop the top of the stack. -/
def drop (s : Cpu) : Cpu := s.setReg .esp (off (s.reg .esp) 4)

-- These are proved by `cases`, not `rfl`: `simp` then records each rewrite, and the kernel does
-- not run whole programs to check one equation.

@[simp] theorem reg_setReg (s : Cpu) (r r' : Reg) (w : Word) :
    (s.setReg r w).reg r' = if r' = r then w else s.reg r' := by cases s; rfl

@[simp] theorem eip_setReg (s : Cpu) (r : Reg) (w : Word) :
    (s.setReg r w).eip = s.eip := by cases s; rfl

@[simp] theorem eflags_setReg (s : Cpu) (r : Reg) (w : Word) :
    (s.setReg r w).eflags = s.eflags := by cases s; rfl

@[simp] theorem cr3_setReg (s : Cpu) (r : Reg) (w : Word) :
    (s.setReg r w).cr3 = s.cr3 := by cases s; rfl

@[simp] theorem mem_setReg (s : Cpu) (r : Reg) (w : Word) :
    (s.setReg r w).mem = s.mem := by cases s; rfl

@[simp] theorem reg_setEip (s : Cpu) (w : Word) : (s.setEip w).reg = s.reg := by cases s; rfl

@[simp] theorem eip_setEip (s : Cpu) (w : Word) : (s.setEip w).eip = w := by cases s; rfl

@[simp] theorem eflags_setEip (s : Cpu) (w : Word) :
    (s.setEip w).eflags = s.eflags := by cases s; rfl

@[simp] theorem cr3_setEip (s : Cpu) (w : Word) : (s.setEip w).cr3 = s.cr3 := by cases s; rfl

@[simp] theorem mem_setEip (s : Cpu) (w : Word) : (s.setEip w).mem = s.mem := by cases s; rfl

@[simp] theorem reg_setEflags (s : Cpu) (w : Word) : (s.setEflags w).reg = s.reg := by cases s; rfl

@[simp] theorem eip_setEflags (s : Cpu) (w : Word) : (s.setEflags w).eip = s.eip := by cases s; rfl

@[simp] theorem eflags_setEflags (s : Cpu) (w : Word) :
    (s.setEflags w).eflags = w := by cases s; rfl

@[simp] theorem cr3_setEflags (s : Cpu) (w : Word) : (s.setEflags w).cr3 = s.cr3 := by cases s; rfl

@[simp] theorem mem_setEflags (s : Cpu) (w : Word) : (s.setEflags w).mem = s.mem := by cases s; rfl

@[simp] theorem reg_setCr3 (s : Cpu) (w : Word) : (s.setCr3 w).reg = s.reg := by cases s; rfl

@[simp] theorem eip_setCr3 (s : Cpu) (w : Word) : (s.setCr3 w).eip = s.eip := by cases s; rfl

@[simp] theorem eflags_setCr3 (s : Cpu) (w : Word) :
    (s.setCr3 w).eflags = s.eflags := by cases s; rfl

@[simp] theorem cr3_setCr3 (s : Cpu) (w : Word) : (s.setCr3 w).cr3 = w := by cases s; rfl

@[simp] theorem mem_setCr3 (s : Cpu) (w : Word) : (s.setCr3 w).mem = s.mem := by cases s; rfl

@[simp] theorem reg_store (s : Cpu) (a w : Word) : (s.store a w).reg = s.reg := by cases s; rfl

@[simp] theorem eip_store (s : Cpu) (a w : Word) : (s.store a w).eip = s.eip := by cases s; rfl

@[simp] theorem eflags_store (s : Cpu) (a w : Word) :
    (s.store a w).eflags = s.eflags := by cases s; rfl

@[simp] theorem cr3_store (s : Cpu) (a w : Word) : (s.store a w).cr3 = s.cr3 := by cases s; rfl

@[simp] theorem mem_store (s : Cpu) (a w : Word) :
    (s.store a w).mem = upd s.mem a w := by cases s; rfl

@[simp] theorem reg_push (s : Cpu) (w : Word) (r : Reg) :
    (s.push w).reg r = if r = .esp then off (s.reg .esp) (-4) else s.reg r := by cases s; rfl

@[simp] theorem eip_push (s : Cpu) (w : Word) : (s.push w).eip = s.eip := by cases s; rfl

@[simp] theorem eflags_push (s : Cpu) (w : Word) : (s.push w).eflags = s.eflags := by cases s; rfl

@[simp] theorem cr3_push (s : Cpu) (w : Word) : (s.push w).cr3 = s.cr3 := by cases s; rfl

@[simp] theorem mem_push (s : Cpu) (w : Word) :
    (s.push w).mem = upd s.mem (off (s.reg .esp) (-4)) w := by cases s; rfl

@[simp] theorem reg_drop (s : Cpu) (r : Reg) :
    s.drop.reg r = if r = .esp then off (s.reg .esp) 4 else s.reg r := by cases s; rfl

@[simp] theorem eip_drop (s : Cpu) : s.drop.eip = s.eip := by cases s; rfl

@[simp] theorem eflags_drop (s : Cpu) : s.drop.eflags = s.eflags := by cases s; rfl

@[simp] theorem cr3_drop (s : Cpu) : s.drop.cr3 = s.cr3 := by cases s; rfl

@[simp] theorem mem_drop (s : Cpu) : s.drop.mem = s.mem := by cases s; rfl

@[simp] theorem top_eq (s : Cpu) : s.top = s.mem (s.reg .esp) := by cases s; rfl

end Cpu

/-! ## Instructions -/

/-- The flags `add` computes: carry, parity, adjust, zero, sign and overflow. -/
def addFlags (eflags x y : Word) : Word :=
  let r := x + y
  let bit (n : ℕ) (b : Bool) : Word := if b then 1 <<< n else 0
  let parity := (List.range 8).foldl (fun p i => p != r.getLsbD i) true
  (eflags &&& ~~~(0x8D5 : Word)) ||| bit 0 (decide (r < x)) ||| bit 2 parity
    ||| bit 4 (decide (16 ≤ x.toNat % 16 + y.toNat % 16)) ||| bit 6 (r == 0) ||| bit 7 r.msb
    ||| bit 11 (x.msb == y.msb && r.msb != x.msb)

/-- Instructions, in the order of operands of the AT&T assembler: source first. -/
inductive Instr where
  | pusha
  | pushf
  | popf
  | push (src : Reg)
  | pushImm (w : Word)
  | pop (dst : Reg)
  | load (disp : ℤ) (base dst : Reg)
  | store (src : Reg) (disp : ℤ) (base : Reg)
  | addImm (k : ℤ) (dst : Reg)
  | movFromCr3 (dst : Reg)
  | movToCr3 (src : Reg)
  | xchgTop (r : Reg)
  | ret
  deriving DecidableEq, Repr

/-- `pusha` pushes the stack pointer it started with. -/
def Instr.exec : Instr → Cpu → Cpu
  | pusha, s =>
    (((((((s.push (s.reg .eax)).push (s.reg .ecx)).push (s.reg .edx)).push (s.reg .ebx)).push
      (s.reg .esp)).push (s.reg .ebp)).push (s.reg .esi)).push (s.reg .edi)
  | pushf, s => s.push s.eflags
  | popf, s => s.drop.setEflags s.top
  | push src, s => s.push (s.reg src)
  | pushImm w, s => s.push w
  | pop dst, s => s.drop.setReg dst s.top
  | load disp base dst, s => s.setReg dst (s.mem (off (s.reg base) disp))
  | store src disp base, s => s.store (off (s.reg base) disp) (s.reg src)
  | addImm k dst, s =>
    (s.setReg dst (off (s.reg dst) k)).setEflags
      (addFlags s.eflags (s.reg dst) (BitVec.ofInt 32 k))
  | movFromCr3 dst, s => s.setReg dst s.cr3
  | movToCr3 src, s => s.setCr3 (s.reg src)
  | xchgTop r, s => (s.store (s.reg .esp) (s.reg r)).setReg r s.top
  | ret, s => s.drop.setEip s.top

/-- Run a program to its end. -/
def run (p : List Instr) (s : Cpu) : Cpu := p.foldl (fun s i => i.exec s) s

@[simp] theorem run_nil (s : Cpu) : run [] s = s := rfl

@[simp] theorem run_cons (i : Instr) (p : List Instr) (s : Cpu) :
    run (i :: p) s = run p (i.exec s) := rfl

theorem run_append (p q : List Instr) (s : Cpu) : run (p ++ q) s = run q (run p s) :=
  List.foldl_append

end I386
