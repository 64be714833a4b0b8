import Mathlib.Data.List.Nodup
import Sakura.Interrupts
import Sakura.SyscallsTheorems

/-!
# Interrupted code goes on

`isr_common` pushes the interrupted code's registers in the order of `Registers`, and takes them
from there again. So an interrupt is not noticed by the code it interrupts (`interrupt_continues`),
and a system call changes `eax` alone (`syscall_returns`). The frame tells where it comes from but
for two of the gates: gate 2 has the code for vector 3, and the code for vector 17 does not expect
the error code (`frame_tells_iff`).
-/

namespace Sakura.Interrupts

open I386
open Libk.Printf (Environment)

variable {env : Environment} {address : ℕ → Word} {s t : Core} {e p errorCode : Word}
  {index v : ℕ}

/-! ## Gates -/

theorem offset_configureGate (idtTable : ℕ → IdtEntry) (offset : Word) (gateNum : ℕ) :
    (configureGate idtTable offset gateNum gateNum).offset = offset := by
  have hlower : (offset &&& 0xffff).setWidth 16 = offset.extractLsb' 0 16 := by
    rw [BitVec.setWidth_and, ← BitVec.setWidth_eq_extractLsb' (by decide)]
    exact BitVec.and_allOnes
  have hhigher : ((offset &&& 0xffff0000) >>> 16).setWidth 16 = offset.extractLsb' 16 16 := by
    rw [BitVec.ushiftRight_and_distrib, BitVec.setWidth_and,
      BitVec.setWidth_ushiftRight_eq_extractLsb]
    exact BitVec.and_allOnes
  rw [configureGate, Function.update_self, IdtEntry.offset, hlower, hhigher]
  exact BitVec.extractLsb'_append_extractLsb'

theorem foldl_configureGate_of_notMem (gs : List (ℕ × ℕ)) (idtTable : ℕ → IdtEntry)
    (hv : v ∉ gs.map Prod.snd) :
    gs.foldl (fun table g => configureGate table (address g.1) g.2) idtTable v = idtTable v := by
  induction gs generalizing idtTable with
  | nil => rw [List.foldl_nil]
  | cons g gs ih =>
    rw [List.map_cons, List.mem_cons, not_or] at hv
    rw [List.foldl_cons, ih _ hv.2, configureGate, Function.update_of_ne hv.1]

/-- Each gate is configured once. -/
theorem configureIdt_gate (hgate : (index, v) ∈ gates) (idtTable : ℕ → IdtEntry) :
    configureIdt address idtTable v = configureGate idtTable (address index) v v := by
  obtain ⟨before, after, hsplit⟩ := List.append_of_mem hgate
  have hnodup : (gates.map Prod.snd).Nodup := by decide
  rw [hsplit, List.map_append, List.map_cons, List.nodup_middle, List.nodup_cons,
    List.mem_append, not_or] at hnodup
  rw [configureIdt, hsplit, List.foldl_append, List.foldl_cons,
    foldl_configureGate_of_notMem after _ hnodup.1.2]
  simp only [configureGate, Function.update_self]

/-! ## Saving and restoring -/

theorem isrSave_spec (hesp : t.cpu.reg .esp = off p 48) :
    registers (runTrap isrSave t).cpu.mem p = {
      gs := (t.seg .gs).setWidth 32
      fs := (t.seg .fs).setWidth 32
      es := (t.seg .es).setWidth 32
      ds := (t.seg .ds).setWidth 32
      edi := t.cpu.reg .edi
      esi := t.cpu.reg .esi
      ebp := t.cpu.reg .ebp
      esp := off p 48
      ebx := t.cpu.reg .ebx
      edx := t.cpu.reg .edx
      ecx := t.cpu.reg .ecx
      eax := t.cpu.reg .eax
      intNo := t.cpu.mem (off p 48)
      errCode := t.cpu.mem (off p 52)
      eip := t.cpu.mem (off p 56)
      cs := t.cpu.mem (off p 60)
      eflags := t.cpu.mem (off p 64)
      useresp := t.cpu.mem (off p 68)
      ss := t.cpu.mem (off p 72) } ∧
    (runTrap isrSave t).cpu.top = p ∧ (runTrap isrSave t).cpu.reg .esp = off p (-4) ∧
    (runTrap isrSave t).cpu.cr3 = t.cpu.cr3 := by
  simp only [isrSave, runTrap_cons, runTrap_nil, TrapInstr.exec, Instr.exec]
  simp [registers, hesp]

/-- The code that `r` tells of goes on. -/
structure Loaded (r : Registers) (p : Word) (u : Core) : Prop where
  eax : u.cpu.reg .eax = r.eax
  ebx : u.cpu.reg .ebx = r.ebx
  ecx : u.cpu.reg .ecx = r.ecx
  edx : u.cpu.reg .edx = r.edx
  esi : u.cpu.reg .esi = r.esi
  edi : u.cpu.reg .edi = r.edi
  ebp : u.cpu.reg .ebp = r.ebp
  esp : u.cpu.reg .esp = off p 68
  eip : u.cpu.eip = r.eip
  eflags : u.cpu.eflags = r.eflags
  cs : u.seg .cs = r.cs.setWidth 16
  ds : u.seg .ds = r.ds.setWidth 16
  es : u.seg .es = r.es.setWidth 16
  fs : u.seg .fs = r.fs.setWidth 16
  gs : u.seg .gs = r.gs.setWidth 16

theorem isrRestore_spec (hesp : t.cpu.reg .esp = off p (-4)) :
    Loaded (registers t.cpu.mem p) p (runTrap isrRestore t) ∧
    (runTrap isrRestore t).cpu.mem = t.cpu.mem ∧ (runTrap isrRestore t).cpu.cr3 = t.cpu.cr3 := by
  simp only [isrRestore, runTrap_cons, runTrap_nil, TrapInstr.exec, Instr.exec]
  constructor
  · constructor <;> simp [registers, hesp]
  · simp

/-! ## Entering -/

/-- What the frame is to tell of the code interrupted in `s`. -/
def frameOf (s : Core) (intNo errCode : Word) : Registers where
  gs := (s.seg .gs).setWidth 32
  fs := (s.seg .fs).setWidth 32
  es := (s.seg .es).setWidth 32
  ds := (s.seg .ds).setWidth 32
  edi := s.cpu.reg .edi
  esi := s.cpu.reg .esi
  ebp := s.cpu.reg .ebp
  esp := off (s.cpu.reg .esp) (-20)
  ebx := s.cpu.reg .ebx
  edx := s.cpu.reg .edx
  ecx := s.cpu.reg .ecx
  eax := s.cpu.reg .eax
  intNo := intNo
  errCode := errCode
  eip := s.cpu.eip
  cs := (s.seg .cs).setWidth 32
  eflags := s.cpu.eflags
  useresp := s.cpu.mem (s.cpu.reg .esp)
  ss := s.cpu.mem (off (s.cpu.reg .esp) 4)

/-- The five words below `Registers` that the processor and the `irq` push, when the `irq` counts
on an error code just if there is one. -/
theorem irq_spec (hstub : v ∈ errorCodeVectors ↔ index ∈ [8, 10, 11, 12, 13, 14])
    (he : s.cpu.reg .esp = e) (selector : Selector) (entry : Word)
    (ht : t = runTrap (irq index) (s.interrupt selector entry
      (if v ∈ errorCodeVectors then some errorCode else none))) :
    t.cpu.mem = writeAll s.cpu.mem [(off e (-4), s.cpu.eflags),
      (off e (-8), (s.seg .cs).setWidth 32), (off e (-12), s.cpu.eip),
      (off e (-16), if v ∈ errorCodeVectors then errorCode else 0),
      (off e (-20), BitVec.ofNat 32 index)] ∧
    (∀ r, t.cpu.reg r = if r = .esp then off e (-20) else s.cpu.reg r) ∧
    (∀ r, r ≠ .cs → t.seg r = s.seg r) ∧ t.cpu.cr3 = s.cpu.cr3 := by
  subst ht
  rw [irq]
  by_cases hv : v ∈ errorCodeVectors
  · rw [if_pos hv, if_pos (hstub.mp hv), if_pos hv]
    simp only [Core.interrupt, runTrap_cons, runTrap_nil, TrapInstr.exec, Instr.exec]
    refine ⟨by simp [he], fun r => ?_, fun r hr => by simp [hr], by simp⟩
    cases r <;> simp [he]
  · rw [if_neg hv, if_neg (mt hstub.mpr hv), if_neg hv]
    simp only [Core.interrupt, runTrap_cons, runTrap_nil, TrapInstr.exec, Instr.exec]
    refine ⟨by simp [he], fun r => ?_, fun r hr => by simp [hr], by simp⟩
    cases r <;> simp [he]

/-- What is called, and with what. -/
structure Entered (s t : Core) (intNo errCode : Word) : Prop where
  frame : registers t.cpu.mem (off (s.cpu.reg .esp) (-68)) = frameOf s intNo errCode
  argument : t.cpu.top = off (s.cpu.reg .esp) (-68)
  esp : t.cpu.reg .esp = off (s.cpu.reg .esp) (-72)
  cr3 : t.cpu.cr3 = s.cpu.cr3

theorem enter_spec (address : ℕ → Word) (s : Core) (errorCode : Word)
    (hstub : v ∈ errorCodeVectors ↔ index ∈ [8, 10, 11, 12, 13, 14]) :
    Entered s (enter address index v errorCode s) (BitVec.ofNat 32 index)
      (if v ∈ errorCodeVectors then errorCode else 0) := by
  rw [enter, runTrap_append]
  obtain ⟨t, ht⟩ : ∃ t, t = runTrap (irq index) (s.interrupt
      (configureIdt address emptyTable v).selector (configureIdt address emptyTable v).offset
      (if v ∈ errorCodeVectors then some errorCode else none)) := ⟨_, rfl⟩
  obtain ⟨hmem, hreg, hseg, hcr3⟩ := irq_spec hstub rfl _ _ ht
  rw [← ht]
  have hesp : t.cpu.reg .esp = off (off (s.cpu.reg .esp) (-68)) 48 := by
    rw [hreg, if_pos rfl, off_off]
    rfl
  obtain ⟨hframe, htop, hesp', hcr3'⟩ := isrSave_spec hesp
  refine ⟨?_, htop, ?_, hcr3'.trans hcr3⟩
  · rw [hframe, frameOf]
    simp [hmem, hreg, hseg]
  · rw [hesp', off_off]
    rfl

/-! ## Coming back -/

/-- The gates whose code fits them. -/
theorem gate_fits (hgate : (index, v) ∈ gates) :
    (v ≠ 2 → index = v) ∧ (v ≠ 17 → (v ∈ errorCodeVectors ↔ index ∈ [8, 10, 11, 12, 13, 14])) := by
  have hall : ∀ g ∈ gates, (g.2 ≠ 2 → g.1 = g.2) ∧
      (g.2 ≠ 17 → (g.2 ∈ errorCodeVectors ↔ g.1 ∈ [8, 10, 11, 12, 13, 14])) := by decide
  exact hall _ hgate

/-- The code that is interrupted in `s` goes on in `u` as if nothing had happened. -/
structure Continues (s u : Core) : Prop where
  reg : ∀ r, u.cpu.reg r = s.cpu.reg r
  eip : u.cpu.eip = s.cpu.eip
  eflags : u.cpu.eflags = s.cpu.eflags
  cr3 : u.cpu.cr3 = s.cpu.cr3
  seg : ∀ r, u.seg r = s.seg r

/-- A call of `interruptHandler` is given the frame, and what it makes of it is loaded. -/
theorem restore_calls {n c : Word} {u : Core} (henter : Entered s u n c) (hcall : Calls env u t) :
    ∃ h, interruptHandler env (frameOf s n c) = some h ∧
      Loaded h.regs (off (s.cpu.reg .esp) (-68)) (runTrap isrRestore t) ∧
      h.regs = registers t.cpu.mem (off (s.cpu.reg .esp) (-68)) ∧
      (runTrap isrRestore t).cpu.mem = t.cpu.mem ∧
      (runTrap isrRestore t).cpu.cr3 = s.cpu.cr3 := by
  obtain ⟨h, hhandled, hregs⟩ := hcall.handled
  rw [henter.argument] at hhandled hregs
  rw [henter.frame] at hhandled
  have hesp : t.cpu.reg .esp = off (off (s.cpu.reg .esp) (-68)) (-4) := by
    rw [hcall.esp, henter.esp, off_off]
    rfl
  obtain ⟨hloaded, hmem, hcr3⟩ := isrRestore_spec hesp
  rw [hregs] at hloaded
  exact ⟨h, hhandled, hloaded, hregs.symm, hmem, hcr3.trans (hcall.cr3.trans henter.cr3)⟩

/-- A frame that is loaded as it was saved. -/
theorem Loaded.continues {n c : Word} {u : Core}
    (h : Loaded (frameOf s n c) (off (s.cpu.reg .esp) (-68)) u) (hcr3 : u.cpu.cr3 = s.cpu.cr3) :
    Continues s u := by
  constructor
  case reg =>
    intro r
    cases r
    case esp => rw [h.esp, off_off]; exact off_zero _
    case eax => exact h.eax
    case ecx => exact h.ecx
    case edx => exact h.edx
    case ebx => exact h.ebx
    case ebp => exact h.ebp
    case esi => exact h.esi
    case edi => exact h.edi
  case eip => exact h.eip
  case eflags => exact h.eflags
  case cr3 => exact hcr3
  case seg =>
    have hwidth : ∀ w : Selector, (w.setWidth 32).setWidth 16 = w := fun w => by simp
    intro r
    cases r
    case cs => rw [h.cs]; exact hwidth _
    case ds => rw [h.ds]; exact hwidth _
    case es => rw [h.es]; exact hwidth _
    case fs => rw [h.fs]; exact hwidth _
    case gs => rw [h.gs]; exact hwidth _

/-- Whatever code a timer or keyboard interrupt comes in, and whatever the handler does, if its
call is compiled as the calling convention says: the code goes on with all its registers. -/
theorem interrupt_continues (env : Environment) (address : ℕ → Word) (s t : Core)
    (errorCode : Word) {index v : ℕ} (hgate : (index, v) ∈ gates) (hlow : 32 ≤ v) (hhigh : v < 48)
    (hcall : Calls env (enter address index v errorCode s) t) :
    Continues s (runTrap isrRestore t) ∧ (runTrap isrRestore t).cpu.mem = t.cpu.mem := by
  obtain ⟨hindex, hstub⟩ := gate_fits hgate
  obtain rfl := hindex (by omega)
  obtain ⟨h, hhandled, hloaded, -, hmem, hcr3⟩ := restore_calls (enter_spec _ _ _ (hstub (by omega))) hcall
  have hint : (BitVec.ofNat 32 index).toNat = index := by
    rw [BitVec.toNat_ofNat]
    omega
  rw [interruptHandler] at hhandled
  simp only [frameOf, hint, if_neg (Nat.not_lt.mpr hlow), if_pos hhigh, Option.some.injEq] at hhandled
  rw [← hhandled] at hloaded
  exact ⟨hloaded.continues hcr3, hmem⟩

/-- Code of the kernel, about to write to file 5. -/
def running : Core where
  cpu.reg r := if r = .eax then 2 else if r = .ebx then 5 else if r = .esp then 0xD0001000 else 7
  cpu.eip := 0xC0100000
  cpu.eflags := 0x202
  cpu.cr3 := 0x3000
  cpu.mem _ := 0
  seg r := if r = .cs then 0x08 else 0x10

/-- A tick that no handler is installed for. -/
theorem interrupt_continues_tick :
    Continues running (runTrap isrRestore (enter (fun _ => 0xC0100400) 32 32 0 running)) := by
  refine (interrupt_continues Syscalls.percentEnv (fun _ => 0xC0100400) running _ 0
    (by decide : (32, 32) ∈ gates) (by decide) (by decide) ?_).1
  have henter : Entered running (enter (fun _ => 0xC0100400) 32 32 0 running) 32 0 :=
    enter_spec _ _ _ (by decide)
  refine ⟨rfl, rfl, rfl, rfl, rfl, rfl, rfl, ⟨pic1Command, some 32, [], frameOf running 32 0⟩, ?_, ?_⟩
  · rw [henter.argument, henter.frame]
    rfl
  · rw [henter.argument, henter.frame]

/-- What `__syscall` does before the interrupt. -/
theorem syscallArguments_spec {p1 : Reg} (hp1 : p1 ≠ .esp)
    (ht : t = runTrap [.plain (.push .ebx), .mov p1 .ebx] s) :
    t.cpu.reg .ebx = s.cpu.reg p1 ∧ t.cpu.reg .esp = off (s.cpu.reg .esp) (-4) ∧
    (∀ r, r ≠ .ebx → r ≠ .esp → t.cpu.reg r = s.cpu.reg r) ∧
    t.cpu.mem (t.cpu.reg .esp) = s.cpu.reg .ebx ∧ t.cpu.eip = s.cpu.eip ∧
    t.cpu.eflags = s.cpu.eflags ∧ t.cpu.cr3 = s.cpu.cr3 ∧ t.seg = s.seg := by
  subst ht
  simp only [runTrap_cons, runTrap_nil, TrapInstr.exec, Instr.exec]
  refine ⟨by simp [hp1], by simp, fun r hebx hesp => by simp [hebx, hesp], by simp, by simp, by simp,
    by simp, by simp⟩

theorem interruptHandler_syscall (env : Environment) (s : Core) (c : Word) :
    interruptHandler env (frameOf s 128 c) = (Syscalls.handle env (s.cpu.reg .eax) (s.cpu.reg .ebx)
      (s.cpu.reg .ecx) (s.cpu.reg .edx) (s.cpu.reg .esi) (s.cpu.reg .edi)).map fun x =>
        ⟨pic2Command, none, x.2, { frameOf s 128 c with eax := x.1 }⟩ := by
  rw [interruptHandler]
  simp [frameOf]

/-- `int $0x80`: the handler answers in the slot of `eax`, and keeps the word on top of the
stack, which is where it finds `useresp`. -/
theorem int128_spec (hcall : Calls env (enter address 128 128 0 s) t) :
    ∃ x, Syscalls.handle env (s.cpu.reg .eax) (s.cpu.reg .ebx) (s.cpu.reg .ecx) (s.cpu.reg .edx)
        (s.cpu.reg .esi) (s.cpu.reg .edi) = some x ∧
      Continues (s.withCpu (s.cpu.setReg .eax x.1)) (runTrap isrRestore t) ∧
      (runTrap isrRestore t).cpu.mem (s.cpu.reg .esp) = s.cpu.mem (s.cpu.reg .esp) := by
  have henter : Entered s (enter address 128 128 0 s) 128 0 :=
    enter_spec _ _ _ (by decide)
  obtain ⟨h, hhandled, hloaded, hregs, hmem, hcr3⟩ := restore_calls henter hcall
  rw [interruptHandler_syscall] at hhandled
  obtain ⟨x, hx, rfl⟩ := Option.map_eq_some_iff.mp hhandled
  refine ⟨x, hx, ?_, ?_⟩
  · -- The frame as it is left is that of code with the answer in `eax`.
    have hframe : { frameOf s 128 0 with eax := x.1 } =
        frameOf (s.withCpu (s.cpu.setReg .eax x.1)) 128 0 := by
      simp [frameOf]
    have hesp : (s.withCpu (s.cpu.setReg .eax x.1)).cpu.reg .esp = s.cpu.reg .esp := by simp
    refine Loaded.continues (n := 128) (c := 0) ?_ (by simpa using hcr3)
    rw [← hframe, hesp]
    exact hloaded
  · have huseresp := congrArg Registers.useresp hregs
    rw [hmem]
    simpa [frameOf, registers, eq_comm] using huseresp

/-- Whatever code makes a system call, the call leaves what `Syscalls::Handle` gives for the
number and the arguments in `eax`, and everything else as it was. -/
theorem syscall_returns (env : Environment) (address : ℕ → Word) (handler : Core → Core) (s : Core)
    (p1 : Reg) (hp1 : p1 ≠ .esp)
    (hcall : ∀ t, t = enter address 128 128 0 (runTrap [.plain (.push .ebx), .mov p1 .ebx] s) →
      Calls env t (handler t)) :
    let u := syscall address handler p1 s
    (Syscalls.handle env (s.cpu.reg .eax) (s.cpu.reg p1) (s.cpu.reg .ecx) (s.cpu.reg .edx)
        (s.cpu.reg .esi) (s.cpu.reg .edi)).map Prod.fst = some (u.cpu.reg .eax) ∧
      (∀ r, r ≠ .eax → u.cpu.reg r = s.cpu.reg r) ∧ u.cpu.eip = s.cpu.eip ∧
      u.cpu.eflags = s.cpu.eflags ∧ u.cpu.cr3 = s.cpu.cr3 ∧ ∀ r, u.seg r = s.seg r := by
  intro u
  obtain ⟨s', hs'⟩ : ∃ s', s' = runTrap [.plain (.push .ebx), .mov p1 .ebx] s := ⟨_, rfl⟩
  obtain ⟨hebx, hesp, hreg, hpushed, heip, heflags, hcr3, hseg⟩ := syscallArguments_spec hp1 hs'
  rw [← hs'] at hcall
  obtain ⟨x, hx, hcontinues, htop⟩ := int128_spec (hcall _ rfl)
  have hu : u = (TrapInstr.plain (.pop .ebx)).exec
      (runTrap isrRestore (handler (enter address 128 128 0 s'))) := by
    rw [hs']
    exact runTrap_append ..
  obtain ⟨r, hr⟩ : ∃ r, r = runTrap isrRestore (handler (enter address 128 128 0 s')) := ⟨_, rfl⟩
  rw [← hr] at hcontinues htop hu
  simp only [TrapInstr.exec, Instr.exec] at hu
  have hresp : r.cpu.reg .esp = s'.cpu.reg .esp := by simpa using hcontinues.reg .esp
  -- What is popped is `ebx` as it was before the call.
  have hpopped : r.cpu.mem (off (s.cpu.reg .esp) (-4)) = s.cpu.reg .ebx := by
    rw [← hesp, htop, hpushed]
  have hureg : ∀ q, u.cpu.reg q = if q = .ebx then s.cpu.reg .ebx
      else if q = .esp then s.cpu.reg .esp else r.cpu.reg q := by
    intro q
    rw [hu]
    simp [hresp, hesp, hpopped]
  refine ⟨?_, ?_, ?_, ?_, ?_, ?_⟩
  · rw [hebx, hreg .eax (by decide) (by decide), hreg .ecx (by decide) (by decide),
      hreg .edx (by decide) (by decide), hreg .esi (by decide) (by decide),
      hreg .edi (by decide) (by decide)] at hx
    have heax : u.cpu.reg .eax = x.1 := by
      rw [hureg, if_neg (by decide), if_neg (by decide), hcontinues.reg]
      simp
    rw [hx, heax]
    rfl
  · intro q hq
    rw [hureg]
    split_ifs with hebx' hesp'
    · rw [hebx']
    · rw [hesp']
    · rw [hcontinues.reg]
      simpa [hq] using hreg q hebx' hesp'
  · rw [hu]
    simpa [heip] using hcontinues.eip
  · rw [hu]
    simpa [heflags] using hcontinues.eflags
  · rw [hu]
    simpa [hcr3] using hcontinues.cr3
  · intro q
    rw [hu]
    simpa [hseg] using hcontinues.seg q

theorem registers_upd_eax (mem : Word → Word) (p w : Word) :
    registers (upd mem (off p 44) w) p = { registers mem p with eax := w } := by
  simp [registers]

/-- A handler that does nothing but answer. -/
theorem calls_answer {c : Word} {x : Word × List Libk.Byte} (henter : Entered s t 128 c)
    (hx : Syscalls.handle env (s.cpu.reg .eax) (s.cpu.reg .ebx) (s.cpu.reg .ecx) (s.cpu.reg .edx)
      (s.cpu.reg .esi) (s.cpu.reg .edi) = some x) :
    Calls env t (t.withCpu (t.cpu.store (off t.cpu.top 44) x.1)) := by
  refine ⟨by simp, by simp, by simp, by simp, by simp, by simp, by simp,
    ⟨pic2Command, none, x.2, { frameOf s 128 c with eax := x.1 }⟩, ?_, ?_⟩
  · rw [henter.argument, henter.frame, interruptHandler_syscall, hx, Option.map_some]
  · rw [henter.argument, Core.cpu_withCpu, Cpu.mem_store, registers_upd_eax, henter.frame]

/-- A write to file 5 is nothing, and answered with 0. -/
theorem syscall_returns_write :
    let handler : Core → Core := fun t => t.withCpu (t.cpu.store (off t.cpu.top 44) 0)
    (syscall (fun _ => 0xC0100400) handler .ebx running).cpu.reg .eax = 0 := by
  intro handler
  have hhandle : Syscalls.handle Syscalls.percentEnv 2 5 7 7 7 7 = some (0, []) := by decide
  have hreturns := (syscall_returns Syscalls.percentEnv (fun _ => 0xC0100400) handler running
    .ebx (by decide) ?_).1
  · have hsome : some (0 : Word) =
        some ((syscall (fun _ => 0xC0100400) handler .ebx running).cpu.reg .eax) := by
      rw [← hreturns]
      exact (congrArg (Option.map Prod.fst) hhandle).symm
    exact (Option.some.inj hsome).symm
  · rintro t rfl
    exact calls_answer (s := runTrap [.plain (.push .ebx), .mov .ebx .ebx] running) (x := (0, []))
      (enter_spec (fun _ => 0xC0100400) _ 0 (by decide)) hhandle

/-! ## What the frame tells -/

theorem present_iff (address : ℕ → Word) (v : ℕ) :
    (configureIdt address emptyTable v).present = true ↔ v ∈ gates.map Prod.snd := by
  constructor
  · intro hpresent
    by_contra hv
    rw [configureIdt, foldl_configureGate_of_notMem gates emptyTable hv] at hpresent
    have hmsb : (0 : BitVec 8).msb = true := hpresent
    exact absurd hmsb (by decide)
  · intro hv
    obtain ⟨⟨index, _⟩, hgate, rfl⟩ := List.mem_map.mp hv
    rw [configureIdt_gate hgate, configureGate, Function.update_self]
    have hmsb : (0x8E : BitVec 8).msb = true := by decide
    exact hmsb

/-- The code for vector 17 pushes a zero of its own over the error code. -/
theorem enter_alignmentCheck (s : Core) :
    (enter address 17 17 errorCode s).cpu.reg .esp = off (s.cpu.reg .esp) (-76) := by
  have hirq : irq 17 = [.cli, .plain (.pushImm 0), .plain (.pushImm 17)] := by decide
  simp only [enter, hirq, isrSave, List.cons_append, List.nil_append, runTrap_cons, runTrap_nil,
    TrapInstr.exec, Instr.exec, Core.interrupt]
  simp [errorCodeVectors]

/-- The vectors for which code is installed, and those of them where the code tells
`interruptHandler` the vector and the state of the interrupted code. Gate 2 has the code for
vector 3, and the code for vector 17 takes the error code for the instruction pointer. -/
theorem frame_tells_iff (address : ℕ → Word) (v : ℕ) :
    ((configureIdt address emptyTable v).present = true ↔ v ∈ gates.map Prod.snd) ∧
    ((∃ index, (index, v) ∈ gates ∧ (configureIdt address emptyTable v).offset = address index ∧
        ∀ s errorCode, ∃ errCode,
          Entered s (enter address index v errorCode s) (BitVec.ofNat 32 v) errCode) ↔
      v ∈ gates.map Prod.snd ∧ v ≠ 2 ∧ v ≠ 17) := by
  refine ⟨present_iff address v, ?_, ?_⟩
  · rintro ⟨index, hgate, -, hentered⟩
    refine ⟨List.mem_map_of_mem hgate, ?_, ?_⟩
    · rintro rfl
      obtain rfl : index = 3 := by simpa [gates] using hgate
      obtain ⟨errCode, htold⟩ := hentered running 0
      have hactual : Entered running (enter address 3 2 0 running) 3 0 :=
        enter_spec _ _ _ (by decide)
      have hintNo : (2 : Word) = 3 :=
        congrArg Registers.intNo (htold.frame.symm.trans hactual.frame)
      exact absurd hintNo (by decide)
    · rintro rfl
      obtain rfl : index = 17 := by simpa [gates] using hgate
      obtain ⟨errCode, htold⟩ := hentered running 0
      have hesp := htold.esp.symm.trans (enter_alignmentCheck running)
      rw [off_inj _ (by decide) (by decide)] at hesp
      exact absurd hesp (by decide)
  · rintro ⟨hv, htwo, hcheck⟩
    obtain ⟨⟨index, v'⟩, hgate, rfl⟩ := List.mem_map.mp hv
    obtain ⟨hindex, hstub⟩ := gate_fits hgate
    obtain rfl := hindex htwo
    refine ⟨index, hgate, ?_, fun s errorCode => ⟨_, enter_spec _ _ _ (hstub hcheck)⟩⟩
    rw [configureIdt_gate hgate, offset_configureGate]

end Sakura.Interrupts
