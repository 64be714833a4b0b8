import Sakura.Libk.Printf

/-!
# System calls

The way of a system call: the stubs of newlib's `syscalls.c`, `interruptHandler` for vector
128, `Syscalls::Handle` and the three calls of `Syscalls.cpp`. A call gives the value it leaves
and what it hands to `TTY::write`; `none` is a call that does not come back.
-/

namespace Sakura

open I386 (Word)
open Libk (Byte chr)
open Libk.Printf (Environment printk)

/-- `Registers`, as far as a system call goes by them. -/
structure SyscallRegisters where
  eax : Word
  ebx : Word
  ecx : Word
  edx : Word
  esi : Word
  edi : Word

/-- A string of the source. -/
def literal (s : String) : List Byte := s.toList.map chr ++ [0]

namespace Syscalls

/-- `SYSCALL_OPEN`, `SYSCALL_CLOSE` and `SYSCALL_WRITE`, numbered alike on both sides. -/
def sysOpen : Word := 0

def sysClose : Word := 1

def sysWrite : Word := 2

section

variable (env : Environment)

def syscallOpen (fileName : Word) : Option (Word × List Byte) :=
  (printk env (literal "syscall open. File = %s\r\n") (fileName :: env.stack)).map fun text => (1, text)

/-- `SyscallWrite`. The data is the format. -/
def syscallWrite (fd data _len : Word) : Option (Word × List Byte) :=
  if fd = 1 then (printk env (env.memory data.toNat) env.stack).map fun text => (0, text)
  else some (0, [])

def syscallClose (file : Word) : Option (Word × List Byte) :=
  (printk env (literal "syscall close. file = %d\r\n") (file :: env.stack)).map fun text => (0, text)

def handle (syscall p1 p2 p3 _p4 _p5 : Word) : Option (Word × List Byte) :=
  if syscall = sysOpen then syscallOpen env p1
  else if syscall = sysWrite then syscallWrite env p1 p2 p3
  else if syscall = sysClose then syscallClose env p1
  else (printk env (literal "Unknown syscall %d\r\n") (syscall :: env.stack)).map fun text => (1, text)

/-- `interruptHandler` on vector 128. -/
def interrupt128 (regs : SyscallRegisters) : Option (SyscallRegisters × List Byte) :=
  (handle env regs.eax regs.ebx regs.ecx regs.edx regs.esi regs.edi).map fun (eax, text) =>
    ({ regs with eax }, text)

/-! ## The side of the user -/

/-- `syscall`: the number in `eax`, the arguments in the registers after it, `int $0x80`. -/
def syscall (syscall p1 p2 p3 p4 p5 : Word) : Option (Word × List Byte) :=
  (interrupt128 env ⟨syscall, p1, p2, p3, p4, p5⟩).map fun (regs, text) => (regs.eax, text)

/-- `write` of newlib. -/
def write (file ptr len : Word) : Option (Word × List Byte) :=
  (syscall env sysWrite file ptr len 15 16).map fun (_, text) => (0, text)

end

end Syscalls

end Sakura
