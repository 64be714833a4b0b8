import Sakura.Lib.I386Segment

/-!
# The segments of the kernel

`create_descriptor` and the table that `gdt::init` fills with it, of `GDT.cpp`. The task state
segment is only an address here: nothing of the kernel loads it.
-/

namespace Sakura.Gdt

open I386

/-- The `SEG_` macros, which move a value to its place in the flags. -/
def segDesctype (x : BitVec 16) : BitVec 16 := x <<< 0x04

def segPres (x : BitVec 16) : BitVec 16 := x <<< 0x07

def segSavl (x : BitVec 16) : BitVec 16 := x <<< 0x0C

def segLong (x : BitVec 16) : BitVec 16 := x <<< 0x0D

def segSize (x : BitVec 16) : BitVec 16 := x <<< 0x0E

def segGran (x : BitVec 16) : BitVec 16 := x <<< 0x0F

def segPriv (x : BitVec 16) : BitVec 16 := (x &&& 0x03) <<< 0x05

def segDataRdwr : BitVec 16 := 0x02

def segCodeExrd : BitVec 16 := 0x0A

/-- `GDT_CODE_PL0` and its siblings, which differ in the privilege level and the type. -/
def gdtFlags (level type : BitVec 16) : BitVec 16 :=
  segDesctype 1 ||| segPres 1 ||| segSavl 0 ||| segLong 0 ||| segSize 1 ||| segGran 1 |||
    segPriv level ||| type

def gdtCodePl0 : BitVec 16 := gdtFlags 0 segCodeExrd

def gdtDataPl0 : BitVec 16 := gdtFlags 0 segDataRdwr

def gdtCodePl3 : BitVec 16 := gdtFlags 3 segCodeExrd

def gdtDataPl3 : BitVec 16 := gdtFlags 3 segDataRdwr

/-- `create_descriptor`. The first half is made, moved up, and the second half added. -/
def createDescriptor (base limit : Word) (flag : BitVec 16) : Descriptor :=
  let descriptor : Descriptor := (limit &&& 0x000F0000).setWidth 64
  let descriptor := descriptor ||| ((flag.setWidth 32 <<< 8) &&& 0x00F0FF00).setWidth 64
  let descriptor := descriptor ||| ((base >>> 16) &&& 0x000000FF).setWidth 64
  let descriptor := descriptor ||| (base &&& 0xFF000000).setWidth 64
  let descriptor := descriptor <<< 32
  let descriptor := descriptor ||| (base <<< 16).setWidth 64
  descriptor ||| (limit &&& 0x0000FFFF).setWidth 64

/-- `sizeof(TSS)`: twenty-five words and two halves. -/
def tssSize : Word := 104

/-- `gdTable`, when the task state segment is at `tss`. -/
def gdTable (tss : Word) : List Descriptor := [
  createDescriptor 0 0 0,
  createDescriptor 0 0x000FFFFF gdtCodePl0,
  createDescriptor 0 0x000FFFFF gdtDataPl0,
  createDescriptor 0 0x000FFFFF gdtCodePl3,
  createDescriptor 0 0x000FFFFF gdtDataPl3,
  createDescriptor tss tssSize 99]

end Sakura.Gdt
