import Sakura.TaskSwitch

/-!
# What a task sees when it is switched back to

`switchTask` saves a task so that it could go on as if the call had returned: at the return
address, with the stack pointer above it (`savedRegisters`). Loading goes wrong in two
registers (`switchTask_spec`). Two words are pushed on the new stack and `ret` pops one of
them, so the task goes on with `esp` a word short; and `eax` is read from address 0, the
second word pushed, and not from the task. A *new* task is entered as its entry point
expects (`switchTask_argument`), which is what the extra word is for.

Each part of the code is run by `simp`, first its instructions and then the state they
leave.
-/

namespace Sakura

open I386 SwitchTask

/-- The first argument. -/
def oldTask (s : Cpu) : Word := s.mem (off (s.reg .esp) 4)

/-- The second argument. -/
def newTask (s : Cpu) : Word := s.mem (off (s.reg .esp) 8)

/-- The caller as it would be had the call returned. -/
def savedRegisters (s : Cpu) : TaskRegisters where
  eax := s.reg .eax
  ebx := s.reg .ebx
  ecx := s.reg .ecx
  edx := s.reg .edx
  esi := s.reg .esi
  edi := s.reg .edi
  esp := off (s.reg .esp) 4
  ebp := s.reg .ebp
  eip := s.mem (s.reg .esp)
  eflags := s.eflags
  cr3 := s.cr3

/-- The registers the call loads. A task that switches to itself loads what it just saved. -/
def nextRegisters (s : Cpu) : TaskRegisters :=
  if newTask s = oldTask s then savedRegisters s else taskRegisters s.mem (newTask s)

/-! ## Words -/

/-- The offsets of the fields of `TaskRegisters`. -/
def fieldOffsets : List ℤ := [0, 4, 8, 12, 16, 20, 24, 28, 32, 36, 40]

/-- The offsets of the words of the stack the call uses, from the last it pushes up to the
arguments. -/
def frameOffsets : List ℤ := [-48, -44, -40, -36, -32, -28, -24, -20, -16, -12, -8, -4, 0, 4, 8]

/-- What the call writes keeps off the two `TaskRegisters`: its frame on the caller's stack,
and the two words it pushes on the stack it enters. -/
structure SeparateCall (s : Cpu) : Prop where
  old_frame : ∀ c ∈ frameOffsets, ∀ d ∈ fieldOffsets, off (s.reg .esp) c ≠ off (oldTask s) d
  new_frame : ∀ c ∈ frameOffsets, ∀ d ∈ fieldOffsets, off (s.reg .esp) c ≠ off (newTask s) d
  tasks : newTask s = oldTask s ∨
    ∀ d ∈ fieldOffsets, ∀ d' ∈ fieldOffsets, off (oldTask s) d ≠ off (newTask s) d'
  old_entered : ∀ c ∈ [(-8 : ℤ), -4], ∀ d ∈ fieldOffsets,
    off (nextRegisters s).esp c ≠ off (oldTask s) d
  new_entered : ∀ c ∈ [(-8 : ℤ), -4], ∀ d ∈ fieldOffsets,
    off (nextRegisters s).esp c ≠ off (newTask s) d

/-- Agreement on its words is agreement on the task. -/
theorem taskRegisters_congr {m m' : Word → Word} {p : Word}
    (h : ∀ d ∈ fieldOffsets, m' (off p d) = m (off p d)) :
    taskRegisters m' p = taskRegisters m p := by
  simp [fieldOffsets] at h
  simp [taskRegisters, h]

theorem taskRegisters_upd {m : Word → Word} {p a w : Word}
    (h : ∀ d ∈ fieldOffsets, a ≠ off p d) : taskRegisters (upd m a w) p = taskRegisters m p :=
  taskRegisters_congr fun d hd => upd_of_ne (Ne.symm (h d hd)) m w

section

variable {s : Cpu} {e p n a : Word}

/-! ## Saving -/

theorem esp_saveOld (he : s.reg .esp = e) : (run saveOld s).reg .esp = off e (-40) := by
  simp only [saveOld, run_cons, run_nil, Instr.exec]
  simp [he]

/-- The ten words pushed, the fields of the old task, and the last word pushed again. -/
theorem mem_saveOld (he : s.reg .esp = e) (hp : s.mem (off e 4) = p)
    (hne : ∀ c ∈ frameOffsets, ∀ d ∈ fieldOffsets, off e c ≠ off p d) :
    (run saveOld s).mem = writeAll s.mem
      [(off e (-4), s.reg .eax), (off e (-8), s.reg .ecx), (off e (-12), s.reg .edx),
        (off e (-16), s.reg .ebx), (off e (-20), e), (off e (-24), s.reg .ebp),
        (off e (-28), s.reg .esi), (off e (-32), s.reg .edi), (off e (-36), s.eflags),
        (off e (-40), s.cr3), (off p 4, s.reg .ebx), (off p 8, s.reg .ecx),
        (off p 12, s.reg .edx), (off p 16, s.reg .esi), (off p 20, s.reg .edi),
        (p, s.reg .eax), (off p 24, off e 4), (off p 28, s.reg .ebp), (off p 32, s.mem e),
        (off p 36, s.eflags), (off p 40, s.cr3), (off e (-40), s.cr3)] := by
  simp [frameOffsets, fieldOffsets] at hne
  simp only [saveOld, run_cons, run_nil, Instr.exec]
  simp [he, hp, hne]

theorem taskRegisters_saveOld (he : s.reg .esp = e) (hp : s.mem (off e 4) = p)
    (hne : ∀ c ∈ frameOffsets, ∀ d ∈ fieldOffsets, off e c ≠ off p d) :
    taskRegisters (run saveOld s).mem p = savedRegisters s := by
  have hmem := mem_saveOld he hp hne
  simp [frameOffsets, fieldOffsets, eq_comm] at hne
  simp [hmem, taskRegisters, savedRegisters, he, hne, eq_comm]

/-- Words off the frame and off the old task stay. -/
theorem mem_saveOld_of_ne (he : s.reg .esp = e) (hp : s.mem (off e 4) = p)
    (hne : ∀ c ∈ frameOffsets, ∀ d ∈ fieldOffsets, off e c ≠ off p d) {x : Word}
    (hframe : ∀ c ∈ [(-40 : ℤ), -36, -32, -28, -24, -20, -16, -12, -8, -4], off e c ≠ x)
    (htask : ∀ d ∈ fieldOffsets, off p d ≠ x) : (run saveOld s).mem x = s.mem x := by
  rw [mem_saveOld he hp hne]
  apply writeAll_of_ne
  simp [fieldOffsets, eq_comm] at hframe htask
  simp [hframe, htask, eq_comm]

/-! ## Loading -/

theorem reg_loadNew (he : s.reg .esp = e) (hn : s.mem (off e 48) = n) (r : Reg) :
    (run loadNew s).reg r =
      if r = .ebp then s.mem (off n 28) else if r = .edi then s.mem (off n 20)
      else if r = .esi then s.mem (off n 16) else if r = .edx then s.mem (off n 12)
      else if r = .ecx then s.mem (off n 8) else if r = .ebx then s.mem (off n 4)
      else if r = .eax then n else s.reg r := by
  simp only [loadNew, run_cons, run_nil, Instr.exec]
  cases r <;> simp [he, hn]

/-- The flags are loaded through two words below the frame. -/
theorem mem_loadNew (he : s.reg .esp = e) (hn : s.mem (off e 48) = n)
    (hne : off n 36 ≠ off e (-4)) :
    (run loadNew s).mem = writeAll s.mem [(off e (-4), n), (off e (-8), s.mem (off n 36))] ∧
      (run loadNew s).eflags = s.mem (off n 36) := by
  simp only [loadNew, run_cons, run_nil, Instr.exec]
  simp [he, hn, hne]

/-- The word pushed for `xchg` to put the return address in is the second one, so `ret` leaves
the first, and `eax` is left with the 0 that was pushed. -/
theorem enterNew_spec (hn : s.reg .eax = n) (ha : s.mem (off n 24) = a)
    (hne : ∀ c ∈ [(-8 : ℤ), -4], ∀ d ∈ fieldOffsets, off a c ≠ off n d) :
    let t := run enterNew s
    t.mem = writeAll s.mem [(off a (-4), n), (off a (-4), n), (off a (-8), 0),
        (off a (-8), s.mem (off n 32))] ∧
      t.eflags = s.eflags ∧ t.cr3 = s.mem (off n 40) ∧ t.eip = s.mem (off n 32) ∧
      t.reg .esp = off a (-4) ∧ t.reg .eax = t.mem 0 := by
  have h32 : ∀ c ∈ [(-8 : ℤ), -4], off n 32 ≠ off a c :=
    fun c hc => Ne.symm (hne c hc 32 (by decide))
  have h40 : off n 40 ≠ off a (-4) := Ne.symm (hne (-4) (by decide) 40 (by decide))
  simp only [List.mem_cons, List.not_mem_nil, or_false, forall_eq_or_imp, forall_eq] at h32
  simp only [enterNew, run_cons, run_nil, Instr.exec]
  simp [hn, ha, h32, h40]

theorem reg_enterNew (r : Reg) (heax : r ≠ .eax) (hesp : r ≠ .esp) :
    (run enterNew s).reg r = s.reg r := by
  simp only [enterNew, run_cons, run_nil, Instr.exec]
  cases r <;> simp at heax hesp ⊢

end

/-! ## The whole call -/

/-- What the call leaves: the caller saved, and the registers of the next task but for `eax`
and a word of its stack. -/
structure Switched (s t : Cpu) : Prop where
  saved : taskRegisters t.mem (oldTask s) = savedRegisters s
  ebx : t.reg .ebx = (nextRegisters s).ebx
  ecx : t.reg .ecx = (nextRegisters s).ecx
  edx : t.reg .edx = (nextRegisters s).edx
  esi : t.reg .esi = (nextRegisters s).esi
  edi : t.reg .edi = (nextRegisters s).edi
  ebp : t.reg .ebp = (nextRegisters s).ebp
  eip : t.eip = (nextRegisters s).eip
  eflags : t.eflags = (nextRegisters s).eflags
  cr3 : t.cr3 = (nextRegisters s).cr3
  esp : t.reg .esp = off (nextRegisters s).esp (-4)
  eax : t.reg .eax = t.mem 0
  other : ∀ x, (∀ c ∈ frameOffsets, off (s.reg .esp) c ≠ x) →
    (∀ d ∈ fieldOffsets, off (oldTask s) d ≠ x) →
    (∀ c ∈ [(-8 : ℤ), -4], off (nextRegisters s).esp c ≠ x) → t.mem x = s.mem x

section

variable {s : Cpu}

/-- After saving, the new task's fields are those the call is to load. -/
theorem taskRegisters_newTask (h : SeparateCall s) :
    taskRegisters (run saveOld s).mem (newTask s) = nextRegisters s := by
  have hsaved := taskRegisters_saveOld rfl rfl h.old_frame
  rw [nextRegisters]
  split
  · rename_i heq
    rw [heq]
    exact hsaved
  · rename_i hne
    have htasks := h.tasks.resolve_left hne
    apply taskRegisters_congr
    intro d hd
    apply mem_saveOld_of_ne rfl rfl h.old_frame
    · intro c hc
      have hframe : ∀ c ∈ [(-40 : ℤ), -36, -32, -28, -24, -20, -16, -12, -8, -4],
          c ∈ frameOffsets := by decide
      exact h.new_frame c (hframe c hc) d hd
    · intro d' hd'
      exact htasks d' hd' d hd

/-- The fields of a task off the frame survive loading. -/
theorem taskRegisters_loadNew {t : Cpu} {e n p w : Word}
    (hmem : (run loadNew t).mem = writeAll t.mem [(off e (-44), n), (off e (-48), w)])
    (hne : ∀ c ∈ frameOffsets, ∀ d ∈ fieldOffsets, off e c ≠ off p d) :
    taskRegisters (run loadNew t).mem p = taskRegisters t.mem p := by
  rw [hmem, writeAll_cons, writeAll_cons, writeAll_nil,
    taskRegisters_upd (hne (-48) (by decide)), taskRegisters_upd (hne (-44) (by decide))]

/-- The second argument is still there when it is loaded. -/
theorem newTask_saveOld (h : SeparateCall s) :
    (run saveOld s).mem (off (off (s.reg .esp) (-40)) 48) = newTask s := by
  rw [off_off]
  apply mem_saveOld_of_ne rfl rfl h.old_frame
  · intro c hc
    have hsmall : ∀ c ∈ [(-40 : ℤ), -36, -32, -28, -24, -20, -16, -12, -8, -4],
        c.natAbs < 2 ^ 30 ∧ c ≠ -40 + 48 := by decide
    exact (off_inj _ (hsmall c hc).1 (by decide)).not.mpr (hsmall c hc).2
  · intro d hd
    exact Ne.symm (h.old_frame 8 (by decide) d hd)

theorem switchTask_spec (h : SeparateCall s) : Switched s (switchTask s) := by
  have hsaved := taskRegisters_saveOld rfl rfl h.old_frame
  have hnext := taskRegisters_newTask h
  have hesp₁ : (run saveOld s).reg .esp = off (s.reg .esp) (-40) := esp_saveOld rfl
  have hnew₁ := newTask_saveOld h
  have hother₁ := fun x => mem_saveOld_of_ne (x := x) rfl rfl h.old_frame
  -- the three parts one after the other, each known by its effect alone
  rw [switchTask, run_append, run_append]
  generalize run saveOld s = t₁ at *
  have hne : off (newTask s) 36 ≠ off (off (s.reg .esp) (-40)) (-4) := by
    rw [off_off, show (-40 : ℤ) + -4 = -44 from rfl]
    exact Ne.symm (h.new_frame (-44) (by decide) 36 (by decide))
  obtain ⟨hmem₂, hflags₂⟩ := mem_loadNew hesp₁ hnew₁ hne
  have hreg₂ := reg_loadNew hesp₁ hnew₁
  have heax₂ : (run loadNew t₁).reg .eax = newTask s := by simpa using hreg₂ .eax
  simp only [off_off] at hmem₂
  rw [show (-40 : ℤ) + -4 = -44 from rfl, show (-40 : ℤ) + -8 = -48 from rfl] at hmem₂
  have hold₂ := (taskRegisters_loadNew hmem₂ h.old_frame).trans hsaved
  have hnext₂ := (taskRegisters_loadNew hmem₂ h.new_frame).trans hnext
  generalize run loadNew t₁ = t₂ at *
  have hentered : t₂.mem (off (newTask s) 24) = (nextRegisters s).esp := congrArg (·.esp) hnext₂
  obtain ⟨hmem₃, hflags₃, hcr3₃, heip₃, hesp₃, heax₃⟩ := enterNew_spec heax₂ hentered
    h.new_entered
  have hreg₃ := reg_enterNew (s := t₂)
  generalize run enterNew t₂ = t₃ at *
  refine ⟨?_, ?_, ?_, ?_, ?_, ?_, ?_, ?_, ?_, ?_, hesp₃, heax₃, ?_⟩
  · simp only [hmem₃, writeAll_cons, writeAll_nil]
    rw [taskRegisters_upd (h.old_entered (-8) (by decide)),
      taskRegisters_upd (h.old_entered (-8) (by decide)),
      taskRegisters_upd (h.old_entered (-4) (by decide)),
      taskRegisters_upd (h.old_entered (-4) (by decide))]
    exact hold₂
  · rw [hreg₃ .ebx (by decide) (by decide), hreg₂, ← hnext]
    rfl
  · rw [hreg₃ .ecx (by decide) (by decide), hreg₂, ← hnext]
    rfl
  · rw [hreg₃ .edx (by decide) (by decide), hreg₂, ← hnext]
    rfl
  · rw [hreg₃ .esi (by decide) (by decide), hreg₂, ← hnext]
    rfl
  · rw [hreg₃ .edi (by decide) (by decide), hreg₂, ← hnext]
    rfl
  · rw [hreg₃ .ebp (by decide) (by decide), hreg₂, ← hnext]
    rfl
  · rw [heip₃, ← hnext₂]
    rfl
  · rw [hflags₃, hflags₂, ← hnext]
    rfl
  · rw [hcr3₃, ← hnext₂]
    rfl
  · intro x hframe htask hentry
    simp only [hmem₃, hmem₂, writeAll_cons, writeAll_nil]
    rw [upd_of_ne (Ne.symm (hentry (-8) (by decide))), upd_of_ne (Ne.symm (hentry (-8) (by decide))),
      upd_of_ne (Ne.symm (hentry (-4) (by decide))), upd_of_ne (Ne.symm (hentry (-4) (by decide))),
      upd_of_ne (Ne.symm (hframe (-48) (by decide))), upd_of_ne (Ne.symm (hframe (-44) (by decide)))]
    have hpushed : ∀ c ∈ [(-40 : ℤ), -36, -32, -28, -24, -20, -16, -12, -8, -4],
        c ∈ frameOffsets := by decide
    exact hother₁ x (fun c hc => hframe c (hpushed c hc)) htask

/-- The word on top of the stack of the task that is entered, where `createTask` puts the
argument, is the first argument of the code it returns to. -/
theorem switchTask_argument (h : SeparateCall s)
    (hframe : ∀ c ∈ frameOffsets, off (s.reg .esp) c ≠ (nextRegisters s).esp)
    (htask : ∀ d ∈ fieldOffsets, off (oldTask s) d ≠ (nextRegisters s).esp) :
    (switchTask s).mem (off ((switchTask s).reg .esp) 4) = s.mem (nextRegisters s).esp := by
  have hspec := switchTask_spec h
  rw [hspec.esp, off_off, show (-4 : ℤ) + 4 = 0 from rfl, off_zero]
  refine hspec.other _ hframe htask ?_
  intro c hc
  have hsmall : ∀ c ∈ [(-8 : ℤ), -4], c.natAbs < 2 ^ 30 ∧ c ≠ 0 := by decide
  exact (off_eq_self _ (hsmall c hc).1).not.mpr (hsmall c hc).2

end

/-! ## Switching back -/

/-- The task that called `switchTask` in state `a` goes on as if the call had returned. -/
structure Resumed (a t : Cpu) : Prop where
  eip : t.eip = a.mem (a.reg .esp)
  eax : t.reg .eax = a.reg .eax
  ebx : t.reg .ebx = a.reg .ebx
  ecx : t.reg .ecx = a.reg .ecx
  edx : t.reg .edx = a.reg .edx
  esi : t.reg .esi = a.reg .esi
  edi : t.reg .edi = a.reg .edi
  ebp : t.reg .ebp = a.reg .ebp
  eflags : t.eflags = a.eflags
  cr3 : t.cr3 = a.cr3
  esp : t.reg .esp = a.reg .esp + 4

/-- `x` is the call that switches back to the task that made the call `a`: the same call, for
a task that switches to itself, or a call of another task that finds the first one's
`TaskRegisters` as they were left. -/
def SwitchesBack (a x : Cpu) : Prop :=
  newTask x = oldTask a ∧ (x = a ∨ oldTask x ≠ oldTask a ∧
    ∀ d ∈ fieldOffsets, x.mem (off (oldTask a) d) = (switchTask a).mem (off (oldTask a) d))

/-- Such a call loads what the first one saved. -/
theorem nextRegisters_eq_saved {a x : Cpu} (ha : SeparateCall a) (hback : SwitchesBack a x) :
    nextRegisters x = savedRegisters a := by
  obtain ⟨hnew, rfl | ⟨hne, hkeep⟩⟩ := hback
  · rw [nextRegisters, if_pos hnew]
  · rw [nextRegisters, if_neg (by rw [hnew]; exact Ne.symm hne), hnew, taskRegisters_congr hkeep]
    exact (switchTask_spec ha).saved

theorem off_four (a : Word) : off a 4 = a + 4 := off_eq_add a 4

theorem switchTask_never_resumes (a x : Cpu) (ha : SeparateCall a) (hx : SeparateCall x)
    (hback : SwitchesBack a x) : ¬ Resumed a (switchTask x) := by
  intro h
  have hesp := (switchTask_spec hx).esp
  rw [nextRegisters_eq_saved ha hback, savedRegisters] at hesp
  simp only [off_off] at hesp
  rw [h.esp, ← off_four, off_inj _ (by decide) (by decide)] at hesp
  exact absurd hesp (by decide)

/-! ### Two tasks -/

/-- The task with its registers at `0x5000` calls `switchTask` for the one at `0x6000`, whose
stack is at `0xA000`. -/
def firstCall : Cpu where
  reg r := if r = .esp then 0x9000 else if r = .eax then 7 else 1
  eip := 0
  eflags := 0x202
  cr3 := 0x100000
  mem a := if a = 0x9000 then 0x1234 else if a = 0x9004 then 0x5000 else if a = 0x9008 then 0x6000
    else if a = 0x6018 then 0xA000 else 0

/-- The second task calls it for the first. -/
def secondCall : Cpu where
  reg r := if r = .esp then 0xB000 else 2
  eip := 0
  eflags := 0x202
  cr3 := 0x100000
  mem := writeAll (switchTask firstCall).mem [(0xB000, 0x4321), (0xB004, 0x6000), (0xB008, 0x5000)]

/-- A task that switches to itself. -/
def selfCall : Cpu where
  reg r := if r = .esp then 0x9000 else if r = .eax then 7 else 1
  eip := 0
  eflags := 0x202
  cr3 := 0x100000
  mem a := if a = 0x9000 then 0x1234 else if a = 0x9004 then 0x5000 else if a = 0x9008 then 0x5000
    else 0

theorem separateCall_firstCall : SeparateCall firstCall := by
  refine ⟨?_, ?_, Or.inr ?_, ?_, ?_⟩ <;> decide +kernel

theorem separateCall_secondCall : SeparateCall secondCall := by
  refine ⟨?_, ?_, Or.inr ?_, ?_, ?_⟩ <;> decide +kernel

theorem separateCall_selfCall : SeparateCall selfCall := by
  refine ⟨?_, ?_, Or.inl ?_, ?_, ?_⟩ <;> decide +kernel

/-- There and back. -/
theorem secondCall_not_resumed :
    SwitchesBack firstCall secondCall ∧ ¬ Resumed firstCall (switchTask secondCall) := by
  have hback : SwitchesBack firstCall secondCall := by
    refine ⟨by decide +kernel, Or.inr ⟨by decide +kernel, ?_⟩⟩
    decide +kernel
  exact ⟨hback, switchTask_never_resumes firstCall secondCall separateCall_firstCall
    separateCall_secondCall hback⟩

/-- A task that switches to itself goes on with the stack pointer it called with. -/
theorem selfCall_not_resumed :
    SeparateCall selfCall ∧ SwitchesBack selfCall selfCall ∧
      ¬ Resumed selfCall (switchTask selfCall) := by
  refine ⟨separateCall_selfCall, ⟨by decide +kernel, Or.inl rfl⟩, ?_⟩
  intro h
  have hesp := h.esp
  have hfact : (switchTask selfCall).reg .esp = 0x9000 := by decide +kernel
  rw [hfact] at hesp
  exact absurd hesp (by decide +kernel)

end Sakura
