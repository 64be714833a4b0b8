import Sakura.Lib.I386Trap
import Sakura.Syscalls

/-!
# The way of an interrupt

`interrupts.S`, line by line, the gates that `IDT.cpp` sets up for it, and `interruptHandler`,
which gets the `Registers` that `isr_common` has pushed. All tasks run in one privilege level, so
the processor does not change stacks.
-/

namespace Sakura

open I386
open Libk (Byte)
open Libk.Printf (Environment)

/-- `Registers`, as `Arch.h` lays it out. -/
structure Registers where
  gs : Word
  fs : Word
  es : Word
  ds : Word
  edi : Word
  esi : Word
  ebp : Word
  esp : Word
  ebx : Word
  edx : Word
  ecx : Word
  eax : Word
  intNo : Word
  errCode : Word
  eip : Word
  cs : Word
  eflags : Word
  useresp : Word
  ss : Word

/-- The `Registers` at address `p`. -/
def registers (mem : Word → Word) (p : Word) : Registers where
  gs := mem p
  fs := mem (off p 4)
  es := mem (off p 8)
  ds := mem (off p 12)
  edi := mem (off p 16)
  esi := mem (off p 20)
  ebp := mem (off p 24)
  esp := mem (off p 28)
  ebx := mem (off p 32)
  edx := mem (off p 36)
  ecx := mem (off p 40)
  eax := mem (off p 44)
  intNo := mem (off p 48)
  errCode := mem (off p 52)
  eip := mem (off p 56)
  cs := mem (off p 60)
  eflags := mem (off p 64)
  useresp := mem (off p 68)
  ss := mem (off p 72)

namespace Interrupts

/-! ## `interrupts.S` -/

/-- `irq0` and so on: `ISR_ERR` where the processor is taken to push an error code, else
`ISR_NOERR`. -/
def irq (index : ℕ) : List TrapInstr :=
  if index ∈ [8, 10, 11, 12, 13, 14] then [.cli, .plain (.pushImm (BitVec.ofNat 32 index))]
  else [.cli, .plain (.pushImm 0), .plain (.pushImm (BitVec.ofNat 32 index))]

/-- `isr_common`, up to the call of `interruptHandler`. -/
def isrSave : List TrapInstr := [
  .plain .pusha,
  .pushSeg .ds,
  .pushSeg .es,
  .pushSeg .fs,
  .pushSeg .gs,
  .movImm16 0x10 .eax,
  .movToSeg .eax .ds,
  .movToSeg .eax .es,
  .movToSeg .eax .fs,
  .movToSeg .eax .gs,
  .cld,
  .plain (.push .esp)]

/-- The rest of it. -/
def isrRestore : List TrapInstr := [
  .plain (.addImm 4 .esp),
  .popSeg .gs,
  .popSeg .fs,
  .popSeg .es,
  .popSeg .ds,
  .popa,
  -- "Cleanup error code and ISR #"
  .plain (.addImm 8 .esp),
  .iret]

/-! ## `IDT.cpp` -/

/-- `IDT_entry`. -/
structure IdtEntry where
  offsetLower : BitVec 16
  selector : Selector
  zero : BitVec 8
  typeAttribute : BitVec 8
  offsetHigher : BitVec 16

/-- What the processor takes an entry for. -/
def IdtEntry.offset (e : IdtEntry) : Word := e.offsetHigher ++ e.offsetLower

def IdtEntry.present (e : IdtEntry) : Bool := e.typeAttribute.msb

/-- `configureGate`. -/
def configureGate (idtTable : ℕ → IdtEntry) (offset : Word) (gateNum : ℕ) : ℕ → IdtEntry :=
  Function.update idtTable gateNum
    { offsetLower := (offset &&& 0xffff).setWidth 16
      selector := 0x08
      zero := 0
      typeAttribute := 0x8E
      offsetHigher := ((offset &&& 0xffff0000) >>> 16).setWidth 16 }

/-- The calls of `configureIdt`, each an `irq` and the gate it gets. -/
def gates : List (ℕ × ℕ) := [(0, 0), (1, 1), (3, 2), (4, 4), (5, 5), (6, 6), (7, 7), (8, 8), (10, 10),
  (11, 11), (12, 12), (13, 13), (14, 14), (17, 17), (32, 32), (33, 33), (128, 128)]

/-- `configureIdt`, with the addresses the `irq`s are at. -/
def configureIdt (address : ℕ → Word) (idtTable : ℕ → IdtEntry) : ℕ → IdtEntry :=
  gates.foldl (fun table g => configureGate table (address g.1) g.2) idtTable

/-- `IDTTable` before `configureIdt`. -/
def emptyTable : ℕ → IdtEntry := fun _ => ⟨0, 0, 0, 0, 0⟩

/-- `PIC1_COMMAND` and `PIC2_COMMAND`. -/
def pic1Command : BitVec 16 := 0x20

def pic2Command : BitVec 16 := 0xA0

/-- What `interruptHandler` does: the PIC it tells that the interrupt is over, the interrupt it
calls back for, the text it hands to the terminal, and how it leaves the registers. -/
structure Handled where
  port : BitVec 16
  callback : Option ℕ
  text : List Byte
  regs : Registers

/-- `interruptHandler`. An exception is printed, and then `while(1)`. -/
def interruptHandler (env : Environment) (regs : Registers) : Option Handled :=
  let port := if 40 ≤ regs.intNo.toNat then pic2Command else pic1Command
  if regs.intNo.toNat < 32 then none
  else if regs.intNo.toNat < 48 then some ⟨port, some regs.intNo.toNat, [], regs⟩
  else if regs.intNo.toNat = 128 then
    (Syscalls.handle env regs.eax regs.ebx regs.ecx regs.edx regs.esi regs.edi).map fun x =>
      ⟨port, none, x.2, { regs with eax := x.1 }⟩
  else some ⟨port, none, [], regs⟩

/-! ## From the interrupted code and back -/

/-- The interrupt `v`, up to the call of `interruptHandler`. It goes through the gate `v`, behind
which is `irq index`. -/
def enter (address : ℕ → Word) (index v : ℕ) (errorCode : Word) (s : Core) : Core :=
  let gate := configureIdt address emptyTable v
  runTrap (irq index ++ isrSave) (s.interrupt gate.selector gate.offset
    (if v ∈ errorCodeVectors then some errorCode else none))

/-- What compiled code makes of the call of `interruptHandler` in the state `s`: `t`, when it
returns. The argument is on top of the stack. -/
structure Calls (env : Environment) (s t : Core) : Prop where
  esp : t.cpu.reg .esp = s.cpu.reg .esp
  ebx : t.cpu.reg .ebx = s.cpu.reg .ebx
  ebp : t.cpu.reg .ebp = s.cpu.reg .ebp
  esi : t.cpu.reg .esi = s.cpu.reg .esi
  edi : t.cpu.reg .edi = s.cpu.reg .edi
  cr3 : t.cpu.cr3 = s.cpu.cr3
  seg : t.seg = s.seg
  handled : ∃ h, interruptHandler env (registers s.cpu.mem s.cpu.top) = some h ∧
    registers t.cpu.mem s.cpu.top = h.regs

/-- `__syscall`, when `handler` is the call of `interruptHandler`. The compiler has the first
argument in some register. -/
def syscall (address : ℕ → Word) (handler : Core → Core) (p1 : Reg) (s : Core) : Core :=
  let s := runTrap [.plain (.push .ebx), .mov p1 .ebx] s
  let s := handler (enter address 128 128 0 s)
  runTrap (isrRestore ++ [.plain (.pop .ebx)]) s

end Interrupts

end Sakura
