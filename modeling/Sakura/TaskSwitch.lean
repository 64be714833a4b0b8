import Sakura.Lib.I386

/-!
# `switchTask`

`taskswitch.S`, line by line, and the `TaskRegisters` it saves and loads. At its entry the
stack holds the return address and the two arguments, the old and the new task's
`TaskRegisters`.
-/

namespace Sakura

open I386

/-- `TaskRegisters`, as `Scheduler.h` lays it out. -/
structure TaskRegisters where
  eax : Word
  ebx : Word
  ecx : Word
  edx : Word
  esi : Word
  edi : Word
  esp : Word
  ebp : Word
  eip : Word
  eflags : Word
  cr3 : Word

/-- The `TaskRegisters` at address `p`. -/
def taskRegisters (mem : Word → Word) (p : Word) : TaskRegisters where
  eax := mem p
  ebx := mem (off p 4)
  ecx := mem (off p 8)
  edx := mem (off p 12)
  esi := mem (off p 16)
  edi := mem (off p 20)
  esp := mem (off p 24)
  ebp := mem (off p 28)
  eip := mem (off p 32)
  eflags := mem (off p 36)
  cr3 := mem (off p 40)

namespace SwitchTask

/-- Save the caller in the first argument. -/
def saveOld : List Instr := [
  .pusha,
  .pushf,
  .movFromCr3 .eax,
  .push .eax,
  .load 44 .esp .eax,
  .store .ebx 4 .eax,
  .store .ecx 8 .eax,
  .store .edx 12 .eax,
  .store .esi 16 .eax,
  .store .edi 20 .eax,
  .load 36 .esp .ebx,
  .load 40 .esp .ecx,
  .load 20 .esp .edx,
  .addImm 4 .edx,
  .load 16 .esp .esi,
  .load 4 .esp .edi,
  .store .ebx 0 .eax,
  .store .edx 24 .eax,
  .store .esi 28 .eax,
  .store .ecx 32 .eax,
  .store .edi 36 .eax,
  .pop .ebx,
  .store .ebx 40 .eax,
  .push .ebx]

/-- Load all but `eax`, `esp`, `eip` and `cr3` from the second. -/
def loadNew : List Instr := [
  .load 48 .esp .eax,
  .load 4 .eax .ebx,
  .load 8 .eax .ecx,
  .load 12 .eax .edx,
  .load 16 .eax .esi,
  .load 20 .eax .edi,
  .load 28 .eax .ebp,
  .push .eax,
  .load 36 .eax .eax,
  .push .eax,
  .popf,
  .pop .eax]

/-- Go over to its stack and return there. -/
def enterNew : List Instr := [
  .load 24 .eax .esp,
  .push .eax,
  .load 40 .eax .eax,
  .movToCr3 .eax,
  .pop .eax,
  .push .eax,
  -- "we have to push something here, if not the argument we passed will be incorrect"
  .pushImm 0,
  .load 32 .eax .eax,
  .xchgTop .eax,
  .load 0 .eax .eax,
  .ret]

end SwitchTask

/-- `switchTask`, from its entry to its `ret`. -/
def switchTask (s : Cpu) : Cpu :=
  run (SwitchTask.saveOld ++ SwitchTask.loadNew ++ SwitchTask.enterNew) s

end Sakura
