import Mathlib.Algebra.Group.Nat.Defs
import Mathlib.Logic.Function.Basic
import Sakura.Lib.DoublyLinked

/-!
# The kernel heap

`kmalloc` and `kfree` of `Libk/kmalloc.cpp`. A region that `liballoc_alloc` gives is cut into
blocks, each with a `boundary_tag` before it. A tag is on a list of the blocks of its region
(`split_left`, `split_right`), and when its block is free on one of the `l_freePages` (`next`,
`prev`), which `index` tells.

The memory is modelled as tags: `tags a` is the tag at the address `a`. Sizes and addresses are
32 bits wide. An access outside the arrays, a null pointer that is followed and a loop that is
still going after `2 ^ 32` rounds are `none`. What `liballoc_alloc` answers is a parameter, and
the arguments of `liballoc_free` are an answer. Both functions run with the scheduler disabled.
-/

namespace Sakura.Libk

/-- `boundary_tag`. -/
structure BoundaryTag where
  magic : ℕ
  size : ℕ
  realSize : ℕ
  index : ℤ
  splitLeft : Option ℕ
  splitRight : Option ℕ
  next : Option ℕ
  prev : Option ℕ

/-- The tags, and the statics `l_freePages`, `l_completePages` and `l_initialized`. -/
structure Liballoc where
  tags : ℕ → BoundaryTag
  freePages : ℤ → Option ℕ
  completePages : ℤ → ℤ
  initialized : Bool

namespace Liballoc

/-- `LIBALLOC_MAGIC`. -/
def liballocMagic : ℕ := 0xc001c0de

/-- `MAXCOMPLETE`. -/
def maxComplete : ℤ := 5

/-- `MAXEXP`. -/
def maxExp : ℤ := 32

/-- `MINEXP`. -/
def minExp : ℤ := 8

/-- `l_pageSize`. -/
def pageSize : ℕ := 4096

/-- `l_pageCount`. -/
def pageCount : ℕ := 16

/-- `sizeof(struct boundary_tag)`. -/
def sizeofTag : ℕ := 32

/-- A difference of `unsigned int`s. -/
def sub (a b : ℕ) : ℕ := (a + 2 ^ 32 - b) % 2 ^ 32

/-- How often a loop is followed. -/
def rounds : ℕ := 2 ^ 32

/-- The loop of `getexp`, with the rounds it has left. -/
def getexpLoop (size : ℕ) : ℕ → ℕ → ℕ
  | 0, shift => shift
  | n + 1, shift => if 2 ^ shift > size then shift else getexpLoop size n (shift + 1)

/-- `getexp`. -/
def getexp (size : ℕ) : ℤ :=
  if size < 2 ^ 8 then -1 else getexpLoop size 24 8 - 1

/-- `*tag = f(*tag)`. -/
def modify (h : Liballoc) (tag : ℕ) (f : BoundaryTag → BoundaryTag) : Liballoc :=
  { h with tags := fun a => if a = tag then f (h.tags a) else h.tags a }

/-- `modify`, for a pointer that may be null. -/
def modify? (h : Liballoc) (tag : Option ℕ) (f : BoundaryTag → BoundaryTag) : Liballoc :=
  match tag with
  | none => h
  | some tag => h.modify tag f

/-- An element of an array of `MAXEXP` elements. -/
def element {β : Type*} (a : ℤ → β) (i : ℤ) : Option β :=
  if 0 ≤ i ∧ i < maxExp then some (a i) else none

/-- `insert_tag`. -/
def insertTag (h : Liballoc) (tag : ℕ) (index : ℤ) : Option Liballoc := do
  let realIndex :=
    if index < 0 then max (getexp (sub (h.tags tag).realSize sizeofTag)) minExp else index
  let h := h.modify tag fun t => { t with index := realIndex }
  let first ← element h.freePages realIndex
  let h := h.modify? first fun t => { t with prev := some tag }
  let h := if first.isSome then h.modify tag fun t => { t with next := first } else h
  pure { h with freePages := Function.update h.freePages realIndex (some tag) }

/-- `remove_tag`. -/
def removeTag (h : Liballoc) (tag : ℕ) : Option Liballoc := do
  let index := (h.tags tag).index
  let first ← element h.freePages index
  let h := if first = some tag then
      { h with freePages := Function.update h.freePages index (h.tags tag).next }
    else h
  let h := h.modify? (h.tags tag).prev fun t => { t with next := (h.tags tag).next }
  let h := h.modify? (h.tags tag).next fun t => { t with prev := (h.tags tag).prev }
  pure (h.modify tag fun t => { t with next := none, prev := none, index := -1 })

/-- `melt_left`. -/
def meltLeft (h : Liballoc) (tag : ℕ) : Option (ℕ × Liballoc) := do
  let left ← (h.tags tag).splitLeft
  let h := h.modify left fun t =>
    { t with realSize := (t.realSize + (h.tags tag).realSize) % 2 ^ 32 }
  let h := h.modify left fun t => { t with splitRight := (h.tags tag).splitRight }
  let h := h.modify? (h.tags tag).splitRight fun t => { t with splitLeft := some left }
  pure (left, h)

/-- `absorb_right`. -/
def absorbRight (h : Liballoc) (tag : ℕ) : Option (ℕ × Liballoc) := do
  let right ← (h.tags tag).splitRight
  let h ← h.removeTag right
  let h := h.modify tag fun t =>
    { t with realSize := (t.realSize + (h.tags right).realSize) % 2 ^ 32 }
  let h := h.modify tag fun t => { t with splitRight := (h.tags right).splitRight }
  let h := h.modify? (h.tags right).splitRight fun t => { t with splitLeft := some tag }
  pure (tag, h)

/-- `split_tag`. -/
def splitTag (h : Liballoc) (tag : ℕ) : Option Liballoc :=
  let remainder := sub (sub (h.tags tag).realSize sizeofTag) (h.tags tag).size
  let newTag := (tag + sizeofTag + (h.tags tag).size) % 2 ^ 32
  let h := h.modify newTag fun t => { t with
    magic := liballocMagic
    realSize := remainder
    next := none
    prev := none
    splitLeft := some tag }
  let h := h.modify newTag fun t => { t with splitRight := (h.tags tag).splitRight }
  let h := h.modify? (h.tags newTag).splitRight fun t => { t with splitLeft := some newTag }
  let h := h.modify tag fun t => { t with splitRight := some newTag }
  let h := h.modify tag fun t => { t with realSize := sub t.realSize (h.tags newTag).realSize }
  h.insertTag newTag (-1)

/-- The pages `allocate_new_tag` asks for. -/
def pagesFor (size : ℕ) : ℕ :=
  let usage := (size + sizeofTag) % 2 ^ 32
  let pages := usage / pageSize
  let pages := if usage % pageSize ≠ 0 then pages + 1 else pages
  if pages < pageCount then pageCount else pages

/-- The tag of a region that has just been got. -/
def firstTag (size pages : ℕ) : BoundaryTag where
  magic := liballocMagic
  size := size
  realSize := pages * pageSize % 2 ^ 32
  index := -1
  splitLeft := none
  splitRight := none
  next := none
  prev := none

/-- `allocate_new_tag`. -/
def allocateNewTag (liballocAlloc : ℕ → Option ℕ) (h : Liballoc) (size : ℕ) :
    Option ℕ × Liballoc :=
  let pages := pagesFor size
  match liballocAlloc pages with
  | none => (none, h)
  | some tag => (some tag, h.modify tag fun _ => firstTag size pages)

/-- The test for a whole region: nothing has been split off to either side. -/
def whole (h : Liballoc) (tag : ℕ) : Bool :=
  (h.tags tag).splitLeft.isNone && (h.tags tag).splitRight.isNone

/-- `l_completePages[index] += n`. -/
def addComplete (h : Liballoc) (index n : ℤ) : Option Liballoc := do
  let complete ← element h.completePages index
  pure { h with completePages := Function.update h.completePages index (complete + n) }

/-- What the search of `kmalloc` asks of a tag. -/
def enough (h : Liballoc) (size tag : ℕ) : Bool :=
  (size + sizeofTag) % 2 ^ 32 ≤ sub (h.tags tag).realSize sizeofTag

/-- What `kmalloc` does when it is first called. -/
def initOnce (h : Liballoc) : Liballoc :=
  if h.initialized then h
  else { h with freePages := fun _ => none, completePages := fun _ => 0, initialized := true }

/-- The rest of `kmalloc`, when there is a tag: the excess space is split off. -/
def use (h : Liballoc) (tag size : ℕ) : Option (ℕ × Liballoc) := do
  let h := h.modify tag fun t => { t with size }
  let remainder := sub (sub (h.tags tag).realSize size) (sizeofTag * 2)
  let h ← if 0 < remainder ∧ remainder < 2 ^ 31 ∧ 0 ≤ getexp remainder then h.splitTag tag
    else some h
  pure ((tag + sizeofTag) % 2 ^ 32, h)

/-- `kmalloc`, when no block on the list is big enough. -/
def fromRegion (liballocAlloc : ℕ → Option ℕ) (h : Liballoc) (size : ℕ) :
    Option (Option ℕ × Option (ℕ × ℕ) × Liballoc) :=
  match h.allocateNewTag liballocAlloc size with
  | (none, h) => some (none, none, h)
  | (some tag, h) => do
    let (ptr, h) ← h.use tag size
    pure (some ptr, some (tag, pagesFor size), h)

/-- `kmalloc`, when `tag` has been found on the list `index`. -/
def fromList (h : Liballoc) (index : ℤ) (tag size : ℕ) :
    Option (Option ℕ × Option (ℕ × ℕ) × Liballoc) := do
  let h ← h.removeTag tag
  let h ← if h.whole tag then h.addComplete index (-1) else some h
  let (ptr, h) ← h.use tag size
  pure (some ptr, none, h)

/-- `kmalloc`, with the region it got from `liballoc_alloc` if it got one. -/
def kmalloc (liballocAlloc : ℕ → Option ℕ) (h : Liballoc) (size : ℕ) :
    Option (Option ℕ × Option (ℕ × ℕ) × Liballoc) := do
  let h := h.initOnce
  let index := max (getexp size) minExp
  let first ← element h.freePages index
  match ← DoublyLinked.walk (fun tag => (h.tags tag).next) (h.enough size) rounds first with
  | none => h.fromRegion liballocAlloc size
  | some tag => h.fromList index tag size

/-- The first loop of `kfree`. -/
def meltLefts : ℕ → Liballoc → ℕ → Option (ℕ × Liballoc)
  | 0, _, _ => none
  | fuel + 1, h, tag =>
    if (h.tags tag).splitLeft.any fun left => 0 ≤ (h.tags left).index then do
      let (tag, h) ← h.meltLeft tag
      let h ← h.removeTag tag
      meltLefts fuel h tag
    else some (tag, h)

/-- The second loop of `kfree`. -/
def absorbRights : ℕ → Liballoc → ℕ → Option (ℕ × Liballoc)
  | 0, _, _ => none
  | fuel + 1, h, tag =>
    if (h.tags tag).splitRight.any fun right => 0 ≤ (h.tags right).index then do
      let (tag, h) ← h.absorbRight tag
      absorbRights fuel h tag
    else some (tag, h)

/-- The pages `kfree` gives back. -/
def pagesOf (h : Liballoc) (tag : ℕ) : ℕ :=
  let pages := (h.tags tag).realSize / pageSize
  let pages := if (h.tags tag).realSize % pageSize ≠ 0 then pages + 1 else pages
  if pages < pageCount then pageCount else pages

/-- `kfree`, when the block has been joined to its free neighbours and belongs on the list
`index`. -/
def giveBack (h : Liballoc) (tag : ℕ) (index : ℤ) : Option (Option (ℕ × ℕ) × Liballoc) :=
  if h.whole tag then do
    let complete ← element h.completePages index
    if complete = maxComplete then
      pure (some (tag, h.pagesOf tag), h)
    else
      let h ← h.addComplete index 1
      let h ← h.insertTag tag index
      pure (none, h)
  else do
    let h ← h.insertTag tag index
    pure (none, h)

/-- `kfree`, with the arguments of `liballoc_free` if it is called. -/
def kfree (h : Liballoc) (ptr : Option ℕ) : Option (Option (ℕ × ℕ) × Liballoc) :=
  match ptr with
  | none => some (none, h)
  | some ptr =>
    let tag := sub ptr sizeofTag
    if (h.tags tag).magic ≠ liballocMagic then some (none, h)
    else do
      let (tag, h) ← h.meltLefts rounds tag
      let (tag, h) ← h.absorbRights rounds tag
      h.giveBack tag (max (getexp (sub (h.tags tag).realSize sizeofTag)) minExp)

end Liballoc

end Sakura.Libk
