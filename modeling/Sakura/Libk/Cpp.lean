import Sakura.Lib.ExitList

/-!
# The run-time part of C++

The table of exit functions of `CPP.cpp`: `__cxa_atexit` and `__cxa_finalize`. A function is its
address, and 0 is none. The functions themselves do not come back to the table.
-/

namespace Sakura.Libk

/-- `ATEXIT_MAX_FUNCS`. -/
def atexitMaxFuncs : ℕ := 128

/-- `atexit_func_entry_t`. -/
structure AtexitFuncEntry where
  destructorFunc : BitVec 32
  objPtr : BitVec 32
  dsoHandle : BitVec 32

/-- `__atexit_funcs` and `__atexit_func_count`. -/
structure Atexit where
  funcs : Vector AtexitFuncEntry atexitMaxFuncs
  funcCount : ℕ
  funcCount_le : funcCount ≤ atexitMaxFuncs

namespace Atexit

/-- The table before the first constructor. -/
def boot : Atexit where
  funcs := Vector.replicate atexitMaxFuncs ⟨0, 0, 0⟩
  funcCount := 0
  funcCount_le := Nat.zero_le _

/-- `__cxa_atexit`. -/
def cxaAtexit (t : Atexit) (f objptr dso : BitVec 32) : Int32 × Atexit :=
  if h : t.funcCount < atexitMaxFuncs then
    (0, { funcs := t.funcs.set t.funcCount ⟨f, objptr, dso⟩ h
          funcCount := t.funcCount + 1
          funcCount_le := h })
  else (-1, t)

/-- A call of a destructor, and its argument. -/
abbrev DestructorCall := BitVec 32 × BitVec 32

/-- The first loop of `__cxa_finalize`, which calls all functions below `i`. -/
def callAll (funcs : Vector AtexitFuncEntry atexitMaxFuncs) :
    (i : ℕ) → i ≤ atexitMaxFuncs → List DestructorCall
  | 0, _ => []
  | i + 1, hi =>
    if funcs[i].destructorFunc ≠ 0 then
      (funcs[i].destructorFunc, funcs[i].objPtr) :: callAll funcs i (Nat.le_of_succ_le hi)
    else callAll funcs i (Nat.le_of_succ_le hi)

/-- The second, which calls those that are `f`, and takes them out. -/
def callEqual (f : BitVec 32) (funcs : Vector AtexitFuncEntry atexitMaxFuncs) :
    (i : ℕ) → i ≤ atexitMaxFuncs → List DestructorCall × Vector AtexitFuncEntry atexitMaxFuncs
  | 0, _ => ([], funcs)
  | i + 1, hi =>
    if funcs[i].destructorFunc = f then
      let funcs' := funcs.set i { funcs[i] with destructorFunc := 0 } hi
      let (calls, funcs'') := callEqual f funcs' i (Nat.le_of_succ_le hi)
      ((funcs[i].destructorFunc, funcs[i].objPtr) :: calls, funcs'')
    else callEqual f funcs i (Nat.le_of_succ_le hi)

/-- `__cxa_finalize`. -/
def cxaFinalize (t : Atexit) (f : BitVec 32) : List DestructorCall × Atexit :=
  if f = 0 then (callAll t.funcs t.funcCount t.funcCount_le, t)
  else
    let (calls, funcs) := callEqual f t.funcs t.funcCount t.funcCount_le
    (calls, { t with funcs })

/-- What the kernel asks for. -/
inductive Request where
  | cxaAtexit (f objptr dso : BitVec 32)
  | cxaFinalize (f : BitVec 32)

def step (t : Atexit) : Request → ExitList.Answer (BitVec 32) (BitVec 32) × Atexit
  | .cxaAtexit f objptr dso =>
    let (ret, t) := t.cxaAtexit f objptr dso
    (.registered (ret = 0), t)
  | .cxaFinalize f =>
    let (calls, t) := t.cxaFinalize f
    (.called calls, t)

end Atexit

end Sakura.Libk
