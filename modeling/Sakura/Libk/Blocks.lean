import Sakura.Libk.KmallocTheorems
import Sakura.Libk.Krealloc

/-!
# The heap as its clients see it

To a client the heap is blocks of bytes, which keep what is written to them until they are freed
(`BlockStep`). The heap of the source is a store with the tags among the bytes (`DataStep`); the
blocks can be seen in it (`view`).
-/

namespace Sakura.Libk.Liballoc

/-- What a client does, with the answer it gets. -/
inductive Call where
  | kmalloc (size : ℕ) (answer : Option ℕ)
  | kcalloc (nobj size : ℕ) (answer : Option ℕ)
  | krealloc (p : Option ℕ) (size : ℕ) (answer : Option ℕ)
  | kfree (p : Option ℕ)
  | write (p i : ℕ) (c : BitVec 8)

/-! ## Blocks -/

/-- The blocks of the clients, by their addresses. -/
abbrev Blocks := ℕ → Option (List (BitVec 8))

/-- What the calls mean. A block that is new has bytes of any value, unless `kcalloc` answers it,
and one that has been moved has the old ones first. -/
inductive BlockStep : Blocks → Call → Blocks → Prop
  | kmalloc {B : Blocks} {size q : ℕ} (data : List (BitVec 8)) (hfree : B q = none)
      (hlength : data.length = size) :
      BlockStep B (.kmalloc size (some q)) (Function.update B q (some data))
  | refused {B : Blocks} {size : ℕ} : BlockStep B (.kmalloc size none) B
  | kcalloc {B : Blocks} {nobj size q : ℕ} (hfree : B q = none) :
      BlockStep B (.kcalloc nobj size (some q))
        (Function.update B q (some (List.replicate (nobj * size % 2 ^ 32) 0)))
  | nothing {B : Blocks} {nobj size : ℕ} (hzero : nobj * size % 2 ^ 32 = 0) :
      BlockStep B (.kcalloc nobj size none) B
  | first {B B' : Blocks} {size : ℕ} {answer : Option ℕ} (hsize : size ≠ 0)
      (hnew : BlockStep B (.kmalloc size answer) B') : BlockStep B (.krealloc none size answer) B'
  | moved {B : Blocks} {p q size : ℕ} {old : List (BitVec 8)} (data : List (BitVec 8))
      (hsize : size ≠ 0) (hold : B p = some old) (hfree : B q = none)
      (hlength : data.length = size) (hkept : data.take old.length = old.take size) :
      BlockStep B (.krealloc (some p) size (some q))
        (Function.update (Function.update B q (some data)) p none)
  | lost {B : Blocks} {p size : ℕ} (hsize : size ≠ 0) (hold : B p = some []) :
      BlockStep B (.krealloc (some p) size none) (Function.update B p none)
  | last {B B' : Blocks} {p : Option ℕ} (hfree : BlockStep B (.kfree p) B') :
      BlockStep B (.krealloc p 0 none) B'
  | kfree {B : Blocks} {p : ℕ} {old : List (BitVec 8)} (hold : B p = some old) :
      BlockStep B (.kfree (some p)) (Function.update B p none)
  | null {B : Blocks} : BlockStep B (.kfree none) B
  | write {B : Blocks} {p i : ℕ} {c : BitVec 8} {data : List (BitVec 8)} (hold : B p = some data)
      (hi : i < data.length) :
      BlockStep B (.write p i c) (Function.update B p (some (data.set i c)))

/-! ## The store -/

/-- The store, the regions it has got and not given back, and the blocks of the clients, by their
addresses and with the sizes they asked for. -/
structure DataWorld where
  store : Store
  regions : List (ℕ × ℕ)
  live : ℕ → Option ℕ

/-- Before the first call. -/
def bootData (tags : ℕ → BoundaryTag) (mem : Bytes) : DataWorld where
  store := { heap := (boot tags).heap, mem }
  regions := []
  live := fun _ => none

/-- The blocks of the clients without one. -/
def takeBack (live : ℕ → Option ℕ) : Option ℕ → ℕ → Option ℕ
  | none => live
  | some p => Function.update live p none

/-- A call of a client that frees only blocks it has, and writes only into them. -/
inductive DataStep (A : Overlay) : DataWorld → Call → DataWorld → Prop
  | kmalloc {w : DataWorld} {size : ℕ} {alloc : ℕ → Option ℕ} {ptr : Option ℕ}
      {got : Option (ℕ × ℕ)} {s : Store} (hsize : size < 2 ^ 31) (halloc : Fresh w.regions alloc)
      (hcall : w.store.kmalloc A alloc size = some (ptr, got, s)) :
      DataStep A w (.kmalloc size ptr) ⟨s, got.toList ++ w.regions, handOut w.live size ptr⟩
  | kcalloc {w : DataWorld} {nobj size : ℕ} {alloc : ℕ → Option ℕ} {ptr : Option ℕ}
      {got : Option (ℕ × ℕ)} {s : Store} (hsize : nobj * size % 2 ^ 32 < 2 ^ 31)
      (halloc : Fresh w.regions alloc)
      (hcall : w.store.kcalloc A alloc nobj size = some (ptr, got, s)) :
      DataStep A w (.kcalloc nobj size ptr)
        ⟨s, got.toList ++ w.regions, handOut w.live (nobj * size % 2 ^ 32) ptr⟩
  | krealloc {w : DataWorld} {p : Option ℕ} {size : ℕ} {alloc : ℕ → Option ℕ} {ptr : Option ℕ}
      {got call : Option (ℕ × ℕ)} {s : Store} (hlive : ∀ q ∈ p, (w.live q).isSome)
      (hsize : size < 2 ^ 31) (halloc : Fresh w.regions alloc)
      (hcall : w.store.krealloc A alloc p size = some (ptr, got, call, s)) :
      DataStep A w (.krealloc p size ptr)
        ⟨s, handBack (got.toList ++ w.regions) call, takeBack (handOut w.live size ptr) p⟩
  | kfree {w : DataWorld} {p : Option ℕ} {call : Option (ℕ × ℕ)} {s : Store}
      (hlive : ∀ q ∈ p, (w.live q).isSome) (hcall : w.store.kfree A p = some (call, s)) :
      DataStep A w (.kfree p) ⟨s, handBack w.regions call, takeBack w.live p⟩
  | write {w : DataWorld} {p i n : ℕ} {c : BitVec 8} (hlive : w.live p = some n) (hi : i < n) :
      DataStep A w (.write p i c)
        { w with store := w.store.put A (Function.update w.store.mem (p + i) c) }

/-- The `n` bytes from `p` on. -/
def blockAt (mem : Bytes) (p n : ℕ) : List (BitVec 8) := (List.range n).map fun i => mem (p + i)

/-- The blocks with these sizes. -/
def viewOf (live : ℕ → Option ℕ) (mem : Bytes) : Blocks := fun p => (live p).map (blockAt mem p)

/-- The blocks of the clients, as they are in the store. -/
def view (w : DataWorld) : Blocks := viewOf w.live w.store.mem

end Sakura.Libk.Liballoc
