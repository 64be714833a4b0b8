import Sakura.Lib.FlatMemory

/-!
# Copying memory and strings

`memmove`, `memcpy`, `strlen` and `strcpy` of `Libk.cpp`, on flat byte memory. The three that
copy return the pointer they were given; what they leave in memory is the result here.

A `size_t` is as wide as an address, so after `2 ^ 32` steps `strlen` has looked at every byte
there is: `none` is a loop that does not end.
-/

namespace Sakura.Libk

/-- Memory, byte by byte. -/
abbrev Memory := FlatMemory 32 (BitVec 8)

namespace Memory

/-- `dst[i] = src[i]`. -/
def copyByte (dst src : BitVec 32) (m : Memory) (i : ℕ) : Memory := m.write dst i (m.read src i)

/-- The second loop of `memmove`: `i` bytes are left, and the last of them is next. -/
def copyDown (dst src : BitVec 32) : ℕ → Memory → Memory
  | 0, m => m
  | i + 1, m => copyDown dst src i (copyByte dst src m i)

def memmove (m : Memory) (dstptr srcptr : BitVec 32) (size : ℕ) : Memory :=
  if dstptr < srcptr then (List.range size).foldl (copyByte dstptr srcptr) m
  else copyDown dstptr srcptr size m

def memcpy (m : Memory) (dstptr srcptr : BitVec 32) (size : ℕ) : Memory :=
  (List.range size).foldl (copyByte dstptr srcptr) m

/-- The loop of `strlen`, from `len` on. -/
def strlenFrom (m : Memory) (str : BitVec 32) : ℕ → ℕ → Option ℕ
  | 0, _ => none
  | fuel + 1, len => if m.read str len = 0 then some len else strlenFrom m str fuel (len + 1)

def strlen (m : Memory) (str : BitVec 32) : Option ℕ := m.strlenFrom str (2 ^ 32) 0

/-- `strcpy`. The terminator is not among the `strlen(source)` bytes it copies. -/
def strcpy (m : Memory) (destination source : BitVec 32) : Option Memory :=
  (m.strlen source).map fun size => m.memcpy destination source size

end Memory

end Sakura.Libk
