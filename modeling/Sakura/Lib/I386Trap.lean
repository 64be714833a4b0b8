import Sakura.Lib.I386

/-!
# Interrupts on the i386

What an interrupt handler is entered and left with, inside one privilege level. The processor
pushes the flags, the code segment and the instruction pointer, and for some vectors an error
code; `iret` takes the first three back. A selector is pushed as a word with nothing in its upper
half.
-/

namespace I386

/-- A selector. -/
abbrev Selector := BitVec 16

/-- The segment registers, but for the stack's. -/
inductive Seg where
  | cs | ds | es | fs | gs
  deriving DecidableEq, Repr

/-- The processor and the memory it sees, with segment registers. -/
structure Core where
  cpu : Cpu
  seg : Seg → Selector

/-- The vectors that come with an error code. -/
def errorCodeVectors : List ℕ := [8, 10, 11, 12, 13, 14, 17, 21, 29, 30]

/-- The flags without the bit `n`. -/
def clearBit (eflags : Word) (n : ℕ) : Word := eflags &&& ~~~((1 : Word) <<< n)

namespace Core

def setSeg (s : Core) (r : Seg) (w : Selector) : Core :=
  { s with seg := fun r' => if r' = r then w else s.seg r' }

def withCpu (s : Core) (cpu : Cpu) : Core := { s with cpu }

-- As for `Cpu`, these are proved by `cases`, so that `simp` records each rewrite.

@[simp] theorem cpu_setSeg (s : Core) (r : Seg) (w : Selector) : (s.setSeg r w).cpu = s.cpu := by
  cases s; rfl

@[simp] theorem seg_setSeg (s : Core) (r r' : Seg) (w : Selector) :
    (s.setSeg r w).seg r' = if r' = r then w else s.seg r' := by cases s; rfl

@[simp] theorem cpu_withCpu (s : Core) (cpu : Cpu) : (s.withCpu cpu).cpu = cpu := by cases s; rfl

@[simp] theorem seg_withCpu (s : Core) (cpu : Cpu) : (s.withCpu cpu).seg = s.seg := by cases s; rfl

/-- Delivery of an interrupt through an interrupt gate. -/
def interrupt (s : Core) (selector : Selector) (entry : Word) (errorCode : Option Word) : Core :=
  let cpu := ((s.cpu.push s.cpu.eflags).push ((s.seg .cs).setWidth 32)).push s.cpu.eip
  let cpu := errorCode.elim cpu cpu.push
  (s.withCpu ((cpu.setEip entry).setEflags (clearBit s.cpu.eflags 9))).setSeg .cs selector

end Core

/-- The instructions around an interrupt. -/
inductive TrapInstr where
  | plain (i : Instr)
  | mov (src dst : Reg)
  | cli
  | cld
  | popa
  | pushSeg (src : Seg)
  | popSeg (dst : Seg)
  /-- Into the lower half of a register. -/
  | movImm16 (w : Selector) (dst : Reg)
  | movToSeg (src : Reg) (dst : Seg)
  | iret
  deriving DecidableEq, Repr

/-- `popa` skips the stack pointer. -/
def TrapInstr.exec : TrapInstr → Core → Core
  | plain i, s => s.withCpu (i.exec s.cpu)
  | mov src dst, s => s.withCpu (s.cpu.setReg dst (s.cpu.reg src))
  | cli, s => s.withCpu (s.cpu.setEflags (clearBit s.cpu.eflags 9))
  | cld, s => s.withCpu (s.cpu.setEflags (clearBit s.cpu.eflags 10))
  | popa, s =>
    let cpu := (Instr.pop .ebp).exec ((Instr.pop .esi).exec ((Instr.pop .edi).exec s.cpu))
    let cpu := (Instr.pop .edx).exec ((Instr.pop .ebx).exec cpu.drop)
    s.withCpu ((Instr.pop .eax).exec ((Instr.pop .ecx).exec cpu))
  | pushSeg src, s => s.withCpu (s.cpu.push ((s.seg src).setWidth 32))
  | popSeg dst, s => (s.withCpu s.cpu.drop).setSeg dst (s.cpu.top.setWidth 16)
  | movImm16 w dst, s =>
    s.withCpu (s.cpu.setReg dst ((s.cpu.reg dst).extractLsb' 16 16 ++ w))
  | movToSeg src dst, s => s.setSeg dst ((s.cpu.reg src).setWidth 16)
  | iret, s =>
    let eip := s.cpu.top
    let cpu := s.cpu.drop
    let cs := cpu.top
    let cpu := cpu.drop
    (s.withCpu ((cpu.drop.setEflags cpu.top).setEip eip)).setSeg .cs (cs.setWidth 16)

/-- Run a program to its end. -/
def runTrap (p : List TrapInstr) (s : Core) : Core := p.foldl (fun s i => i.exec s) s

@[simp] theorem runTrap_nil (s : Core) : runTrap [] s = s := rfl

@[simp] theorem runTrap_cons (i : TrapInstr) (p : List TrapInstr) (s : Core) :
    runTrap (i :: p) s = runTrap p (i.exec s) := rfl

theorem runTrap_append (p q : List TrapInstr) (s : Core) :
    runTrap (p ++ q) s = runTrap q (runTrap p s) := List.foldl_append

end I386
