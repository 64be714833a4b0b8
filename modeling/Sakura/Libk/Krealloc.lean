import Sakura.Libk.Kmalloc

/-!
# `kcalloc` and `krealloc`

The functions of `Libk/kmalloc.cpp` that look into the blocks, and the loops they copy with. The
tags and the blocks share one memory. `Overlay` is what that means here: how bytes change when
tags do and the other way round, of which only this is known, that what no write reaches stays.

A loop through a null pointer is `none`, unless it ends at once. Blocks do not wrap at the end of
the address space, so an address is a number.
-/

namespace Sakura.Libk.Liballoc

/-- Memory, byte by byte. -/
abbrev Bytes := ℕ → BitVec 8

/-- `x` is a byte of the tag at `b`. -/
def InTag (b x : ℕ) : Prop := b ≤ x ∧ x < b + sizeofTag

/-- What a call of the allocator may change: the bytes of the tags it writes to, and those of the
region that it gets or gives back. -/
def Touched (h h' : Liballoc) (region : Option (ℕ × ℕ)) (x : ℕ) : Prop :=
  (∃ b, InTag b x ∧ h'.tags b ≠ h.tags b) ∨ ∃ r ∈ region, r.1 ≤ x ∧ x < r.1 + r.2 * pageSize

/-- The bytes after tags have been written to, and the tags after bytes have. -/
structure Overlay where
  bytes : Liballoc → Liballoc → Option (ℕ × ℕ) → Bytes → Bytes
  tags : Bytes → Bytes → (ℕ → BoundaryTag) → ℕ → BoundaryTag
  bytes_eq : ∀ h h' region mem x, ¬ Touched h h' region x → bytes h h' region mem x = mem x
  tags_eq : ∀ mem mem' t b, (∀ x, InTag b x → mem' x = mem x) → tags mem mem' t b = t b

/-! ## Loops over bytes -/

/-- `liballoc_memset`. -/
def liballocMemset (s : ℕ) (c : BitVec 8) (n : ℕ) (mem : Bytes) : Bytes :=
  (List.range n).foldl (fun mem i => Function.update mem (s + i) c) mem

/-- `*ldest++ = *lsrc++`, for the word `i`. -/
def copyWord (s1 s2 : ℕ) (mem : Bytes) (i : ℕ) : Bytes := fun x =>
  if s1 + 4 * i ≤ x ∧ x < s1 + 4 * i + 4 then mem (s2 + 4 * i + (x - (s1 + 4 * i))) else mem x

/-- `*cdest++ = *csrc++`, for the byte `i`. -/
def copyByte (s1 s2 : ℕ) (mem : Bytes) (i : ℕ) : Bytes :=
  Function.update mem (s1 + i) (mem (s2 + i))

/-- `liballoc_memcpy`: words as long as there are four bytes left, and then bytes. -/
def liballocMemcpy (s1 s2 n : ℕ) (mem : Bytes) : Bytes :=
  let words := n / 4
  let mem := (List.range words).foldl (copyWord s1 s2) mem
  (List.range (n % 4)).foldl (copyByte (s1 + 4 * words) (s2 + 4 * words)) mem

/-! ## The calls -/

/-- The heap, and the memory it lies in. -/
structure Store where
  heap : Liballoc
  mem : Bytes

namespace Store

section

variable (A : Overlay) (alloc : ℕ → Option ℕ) (s : Store)

/-- Bytes are written. -/
def put (mem : Bytes) : Store :=
  { heap := { s.heap with tags := A.tags s.mem mem s.heap.tags }, mem }

/-- `kmalloc`, with the region it got. -/
def kmalloc (size : ℕ) : Option (Option ℕ × Option (ℕ × ℕ) × Store) :=
  (s.heap.kmalloc alloc size).map fun (ptr, got, h) => (ptr, got, ⟨h, A.bytes s.heap h got s.mem⟩)

/-- `kfree`, with the region it gave back. -/
def kfree (ptr : Option ℕ) : Option (Option (ℕ × ℕ) × Store) :=
  (s.heap.kfree ptr).map fun (call, h) => (call, ⟨h, A.bytes s.heap h call s.mem⟩)

/-- `liballoc_memset` on a pointer that may be null. -/
def memset (p : Option ℕ) (c : BitVec 8) (n : ℕ) : Option Store :=
  if n = 0 then some s else p.map fun p => s.put A (liballocMemset p c n s.mem)

/-- `liballoc_memcpy` to a pointer that may be null. -/
def memcpy (s1 : Option ℕ) (s2 n : ℕ) : Option Store :=
  if n = 0 then some s else s1.map fun s1 => s.put A (liballocMemcpy s1 s2 n s.mem)

/-- `kcalloc`. The product is 32 bits wide. -/
def kcalloc (nobj size : ℕ) : Option (Option ℕ × Option (ℕ × ℕ) × Store) := do
  let realSize := nobj * size % 2 ^ 32
  let (p, got, s) ← s.kmalloc A alloc realSize
  let s ← s.memset A p 0 realSize
  pure (p, got, s)

/-- `krealloc`, with the regions it got and gave back. -/
def krealloc (p : Option ℕ) (size : ℕ) :
    Option (Option ℕ × Option (ℕ × ℕ) × Option (ℕ × ℕ) × Store) :=
  if size = 0 then do
    let (call, s) ← s.kfree A p
    pure (none, none, call, s)
  else match p with
    | none => do
      let (ptr, got, s) ← s.kmalloc A alloc size
      pure (ptr, got, none, s)
    | some p => do
      let tag := sub p sizeofTag
      let realSize := if (s.heap.tags tag).size > size then size else (s.heap.tags tag).size
      let (ptr, got, s) ← s.kmalloc A alloc size
      let s ← s.memcpy A ptr p realSize
      let (call, s) ← s.kfree A (some p)
      pure (ptr, got, call, s)

end

end Store

end Sakura.Libk.Liballoc
