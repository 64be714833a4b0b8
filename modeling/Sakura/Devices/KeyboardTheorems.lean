import Sakura.Devices.Keyboard
import Sakura.Libk.RingBufferTheorems

/-!
# What the readers get

Whatever the order of interrupts and reads, the bytes that have been stored, followed by those
that are pending, are the characters of the make codes that found room, in order
(`trail_of_run`). Two things spoil it: a code behind the end of `keymap`, and a `pop` that finds
nothing, after which the reader stores what was in `c` (`keys_delivered_iff`). The second takes
two readers (`clean_of_single`).
-/

namespace Sakura.Devices.Keyboard

open Libk Run

/-! ## The codes that are accepted -/

/-- Where an event reads `keymap`. -/
def Event.keymapIndex : Event → List ℕ
  | .irq keycode => if Pressed keycode then [(keycode &&& 0x7F).toNat] else []
  | _ => []

/-- The code that is taken while `pending` characters wait, if any. -/
def accepts (pending : ℕ) (e : Event) : List ℕ :=
  if pending < keyboardRingbufSize then e.keymapIndex else []

/-- How many characters wait after an event. -/
def pendingAfter (pending : ℕ) : Event → ℕ
  | .pop _ _ => pending - 1
  | e => pending + (accepts pending e).length

/-- The make codes that arrive while fewer than 1024 characters are pending. -/
def accepted (pending : ℕ) : List Event → List ℕ
  | [] => []
  | e :: es => accepts pending e ++ accepted (pendingAfter pending e) es

/-- A code in the table, and a reader that finds a character. -/
def Fits (pending : ℕ) : Event → Prop
  | .irq keycode => Pressed keycode → keycode.toNat < 0x5A
  | .pop _ _ => 0 < pending
  | _ => True

/-- Every event of a run does so. -/
def Clean (pending : ℕ) : List Event → Prop
  | [] => True
  | e :: es => Fits pending e ∧ Clean (pendingAfter pending e) es

/-- Every access to `keymap` is in the table, and what is stored in the readers' buffers is, in
order, the translations of the accepted codes, those apart whose characters are still pending. -/
structure Delivered (es : List Event) (s : State) : Prop where
  inTable : ∀ e ∈ es, ∀ i ∈ e.keymapIndex, i < keymap.length
  inOrder : ∃ q, RingBuffer.Holds s.ringbuffer q ∧
    (s.stored.map Prod.snd ++ q).map some = (accepted 0 es).map fun code => keymap[code]?

/-! ## One event -/

/-- What the handler finds at an index. -/
def charAt (beyond : ℕ → BitVec 8) (code : ℕ) : BitVec 8 := keymap.getD code (beyond code)

/-- What a reader stores that finds nothing. -/
def junk (pending : ℕ) : Event → List (BitVec 8)
  | .pop _ c => if pending = 0 then [c] else []
  | _ => []

theorem toNat_code {keycode : BitVec 8} (h : Pressed keycode) :
    (keycode &&& 0x7F).toNat = keycode.toNat := by
  have hall : ∀ keycode : BitVec 8, keycode &&& 0x80 = 0 → keycode &&& 0x7F = keycode := by decide
  rw [hall keycode h]

theorem mem_of_mem_accepts {pending code : ℕ} {e : Event} (h : code ∈ accepts pending e) :
    code ∈ e.keymapIndex := by
  unfold accepts at h
  split at h
  · exact h
  · exact absurd h List.not_mem_nil

/-- The table has `0x5A` entries. -/
theorem index_lt_iff (keycode : BitVec 8) :
    (∀ i ∈ (Event.irq keycode).keymapIndex, i < keymap.length) ↔
      (Pressed keycode → keycode.toNat < 0x5A) := by
  have hlength : keymap.length = 0x5A := rfl
  rw [Event.keymapIndex, hlength]
  by_cases hpressed : Pressed keycode
  · rw [if_pos hpressed, List.forall_mem_singleton, toNat_code hpressed]
    exact ⟨fun h _ => h, fun h => h hpressed⟩
  · rw [if_neg hpressed]
    exact ⟨fun _ h => absurd h hpressed, fun _ => List.forall_mem_nil _⟩

theorem index_lt_of_fits {pending : ℕ} {e : Event} (h : Fits pending e) :
    ∀ i ∈ e.keymapIndex, i < keymap.length := by
  cases e with
  | irq keycode => exact (index_lt_iff keycode).mpr h
  | _ => exact List.forall_mem_nil _

section

variable {beyond : ℕ → BitVec 8} {s s' : State} {e : Event} {es : List Event}
  {q : List (BitVec 8)} {keycode c : BitVec 8} {task : TaskRef}

/-- The handler appends the character to the queue, if there is room. -/
theorem irqCallback_spec (beyond : ℕ → BitVec 8) (scheduler : Scheduler) (keycode : BitVec 8)
    {b : RingBuffer (BitVec 8) keyboardRingbufSize} (hq : b.Holds q) :
    ∃ scheduler' b', irqCallback beyond scheduler b keycode = some (scheduler', b') ∧
      b'.Holds (q ++ (accepts q.length (.irq keycode)).map (charAt beyond)) := by
  unfold irqCallback
  rw [accepts, Event.keymapIndex]
  by_cases hpressed : Pressed keycode
  · obtain ⟨b', hpush, hq'⟩ := RingBuffer.push_spec (by decide) hq
      (charAt beyond (keycode &&& 0x7F).toNat) false
    refine ⟨scheduler.disable.enable, b', ?_, ?_⟩
    · rw [if_pos hpressed]
      unfold charAt at hpush
      simp only [hpush, Option.map_some]
    · rw [if_pos hpressed]
      unfold Fifo.push at hq'
      by_cases hroom : q.length < keyboardRingbufSize
      · rw [if_pos hroom] at hq' ⊢
        exact hq'
      · rw [if_neg hroom] at hq' ⊢
        rw [List.map_nil, List.append_nil]
        exact hq'
  · refine ⟨scheduler, b, if_neg hpressed, ?_⟩
    rw [if_neg hpressed, ite_self, List.map_nil, List.append_nil]
    exact hq

/-- The effect of an event on the bytes that are stored or pending, and on their number. -/
structure Effect (beyond : ℕ → BitVec 8) (s : State) (q : List (BitVec 8)) (e : Event)
    (s' : State) (q' : List (BitVec 8)) : Prop where
  holds : RingBuffer.Holds s'.ringbuffer q'
  pending : q'.length = pendingAfter q.length e
  bytes : s'.stored.map Prod.snd ++ q' = s.stored.map Prod.snd ++ q ++
    ((accepts q.length e).map (charAt beyond) ++ junk q.length e)

theorem accepts_of_index_nil (h : e.keymapIndex = []) (pending : ℕ) : accepts pending e = [] := by
  rw [accepts, h, ite_self]

/-- An event that leaves both alone. -/
theorem effect_of_eq (hq : s.ringbuffer.Holds q) (hbuffer : s'.ringbuffer = s.ringbuffer)
    (hstored : s'.stored = s.stored) (hindex : e.keymapIndex = []) (hjunk : junk q.length e = [])
    (hpending : pendingAfter q.length e = q.length + (accepts q.length e).length) :
    Effect beyond s q e s' q := by
  have haccepts := accepts_of_index_nil hindex q.length
  refine ⟨?_, ?_, ?_⟩
  · rw [hbuffer]
    exact hq
  · rw [hpending, haccepts, List.length_nil, Nat.add_zero]
  · rw [hstored, haccepts, hjunk, List.map_nil, List.append_nil, List.append_nil]

/-- No event fails, and each has its effect. -/
theorem exec_effect (beyond : ℕ → BitVec 8) (e : Event) (hq : s.ringbuffer.Holds q) :
    ∃ s' q', s.exec beyond e = some s' ∧ Effect beyond s q e s' q' := by
  cases e with
  | irq keycode =>
    obtain ⟨scheduler, b, hcall, hq'⟩ := irqCallback_spec beyond s.scheduler keycode hq
    refine ⟨{ s with scheduler := scheduler, ringbuffer := b }, _, ?_, hq', ?_, ?_⟩
    · rw [State.exec, hcall, Option.map_some]
    · rw [List.length_append, List.length_map]
      rfl
    · have hjunk : junk q.length (.irq keycode) = [] := rfl
      rw [hjunk, List.append_nil, List.append_assoc]
  | pop task c =>
    obtain ⟨b, hpop, hq'⟩ := RingBuffer.pop_spec (by decide) hq c
    refine ⟨_, q.tail, by rw [State.exec, hpop, Option.map_some], hq', ?_, ?_⟩
    · rw [List.length_tail, pendingAfter]
    · rw [accepts_of_index_nil rfl, List.map_nil, List.nil_append, List.map_append, junk]
      cases q with
      | nil => simp
      | cons x q => simp
  | read task length =>
    exact ⟨s.setReader task _, q, rfl, effect_of_eq hq rfl rfl rfl rfl rfl⟩
  | poll task =>
    exact ⟨s.setReader task _, q, rfl, effect_of_eq hq rfl rfl rfl rfl rfl⟩
  | ret task =>
    exact ⟨s.setReader task _, q, rfl, effect_of_eq hq rfl rfl rfl rfl rfl⟩

/-- An event that is enabled happens. -/
theorem step_of_enabled (beyond : ℕ → BitVec 8) (hq : s.ringbuffer.Holds q)
    (henabled : s.Enabled e) : ∃ s' q', Step beyond s e s' ∧ Effect beyond s q e s' q' := by
  obtain ⟨s', q', hexec, heffect⟩ := exec_effect beyond e hq
  exact ⟨s', q', ⟨henabled, hexec⟩, heffect⟩

theorem Step.effect (h : Step beyond s e s') (hq : s.ringbuffer.Holds q) :
    ∃ q', Effect beyond s q e s' q' := by
  obtain ⟨s₁, q', hexec, heffect⟩ := exec_effect beyond e hq
  obtain rfl := Option.some.inj (hexec.symm.trans h.2)
  exact ⟨q', heffect⟩

/-! ## A run -/

/-- The bytes of a run: the characters of the accepted codes, and what is stored in their place
by readers that find nothing. -/
def trail (beyond : ℕ → BitVec 8) (pending : ℕ) : List Event → List (BitVec 8)
  | [] => []
  | e :: es => (accepts pending e).map (charAt beyond) ++ junk pending e ++
      trail beyond (pendingAfter pending e) es

theorem trail_of_run (h : Trace (Step beyond) s es s') :
    ∀ {q : List (BitVec 8)}, s.ringbuffer.Holds q → ∃ q', s'.ringbuffer.Holds q' ∧
      s'.stored.map Prod.snd ++ q' = s.stored.map Prod.snd ++ q ++ trail beyond q.length es := by
  induction h with
  | nil s =>
    intro q hq
    exact ⟨q, hq, (List.append_nil _).symm⟩
  | cons hstep _ ih =>
    intro q hq
    obtain ⟨q₁, heffect⟩ := hstep.effect hq
    obtain ⟨q', hq', hbytes⟩ := ih heffect.holds
    refine ⟨q', hq', ?_⟩
    rw [hbytes, heffect.bytes, heffect.pending, trail, List.append_assoc]

/-- In a clean run every byte is a character from the table. -/
theorem trail_of_clean (beyond : ℕ → BitVec 8) (es : List Event) :
    ∀ {pending : ℕ}, Clean pending es →
      (trail beyond pending es).map some = (accepted pending es).map fun code => keymap[code]? := by
  induction es with
  | nil =>
    intro pending _
    rfl
  | cons e es ih =>
    intro pending hclean
    obtain ⟨hfits, hrest⟩ := hclean
    have hjunk : junk pending e = [] := by
      cases e with
      | pop task c => exact if_neg (Nat.ne_of_gt hfits)
      | _ => rfl
    have hchar : ∀ code ∈ accepts pending e, some (charAt beyond code) = keymap[code]? := by
      intro code hcode
      have hlt := index_lt_of_fits hfits code (mem_of_mem_accepts hcode)
      rw [charAt, List.getD_eq_getElem?_getD, List.getElem?_eq_getElem hlt, Option.getD_some]
    rw [trail, accepted, hjunk, List.append_nil, List.map_append, List.map_append, ih hrest,
      List.map_map]
    congr 1
    exact List.map_congr_left hchar

theorem length_accepted_le (beyond : ℕ → BitVec 8) (es : List Event) :
    ∀ pending, (accepted pending es).length ≤ (trail beyond pending es).length := by
  induction es with
  | nil =>
    intro pending
    exact Nat.le_refl _
  | cons e es ih =>
    intro pending
    have hrest := ih (pendingAfter pending e)
    simp only [accepted, trail, List.length_append, List.length_map]
    omega

/-- A run with no byte too many, and no access outside the table, is clean. -/
theorem clean_of_length (beyond : ℕ → BitVec 8) (es : List Event) :
    ∀ {pending : ℕ}, (∀ e ∈ es, ∀ i ∈ e.keymapIndex, i < keymap.length) →
      (trail beyond pending es).length ≤ (accepted pending es).length → Clean pending es := by
  induction es with
  | nil =>
    intro pending _ _
    trivial
  | cons e es ih =>
    intro pending hindex hlength
    have hle := length_accepted_le beyond es (pendingAfter pending e)
    simp only [accepted, trail, List.length_append, List.length_map] at hlength
    have hfits : Fits pending e := by
      cases e with
      | irq keycode => exact (index_lt_iff keycode).mp (hindex _ List.mem_cons_self)
      | pop task c =>
        apply Nat.pos_of_ne_zero
        intro hzero
        rw [junk, if_pos hzero, List.length_singleton] at hlength
        omega
      | _ => trivial
    refine ⟨hfits, ih (fun e he => hindex e (List.mem_cons_of_mem _ he)) ?_⟩
    omega

theorem index_lt_of_clean (es : List Event) : ∀ {pending : ℕ}, Clean pending es →
    ∀ e ∈ es, ∀ i ∈ e.keymapIndex, i < keymap.length := by
  induction es with
  | nil =>
    intro pending _
    exact List.forall_mem_nil _
  | cons e es ih =>
    intro pending hclean
    exact List.forall_mem_cons.mpr ⟨index_lt_of_fits hclean.1, ih hclean.2⟩

/-! ## One reader -/

theorem State.at_iff {p : Reader → Prop} :
    s.At task p ↔ ∃ reader, s.reader task = some reader ∧ p reader := by
  unfold State.At
  cases s.reader task with
  | none => simp
  | some reader => simp

/-- The task whose call of `read` an event belongs to. -/
def Event.caller : Event → Option TaskRef
  | .irq _ => none
  | .read t _ => some t
  | .poll t => some t
  | .pop t _ => some t
  | .ret t => some t

/-- There is no reader but `task`, and if it is about to pop there is something to pop. -/
structure Alone (task : TaskRef) (s : State) (pending : ℕ) : Prop where
  others : ∀ t ≠ task, s.reader t = none
  pops : s.At task (fun reader => reader.popping = true) → 0 < pending

/-- What a call of `read` becomes does not concern the others. -/
theorem Alone.setReader {pending pending' : ℕ} {reader : Option Reader}
    (h : Alone task s pending) (hreader : s'.reader = Function.update s.reader task reader)
    (hpops : ∀ r, reader = some r → r.popping = true → 0 < pending') :
    Alone task s' pending' := by
  refine ⟨?_, ?_⟩
  · intro t ht
    rw [hreader, Function.update_of_ne ht]
    exact h.others t ht
  · intro hat
    obtain ⟨r, hr, hpopping⟩ := State.at_iff.mp hat
    rw [hreader, Function.update_self] at hr
    exact hpops r hr hpopping

/-- One reader finds what it has seen: interrupts only add to it. -/
theorem Alone.step (h : Alone task s q.length) (hq : s.ringbuffer.Holds q)
    (hstep : Step beyond s e s') (hcaller : ∀ t ∈ e.caller, t = task) :
    (∀ t c, e = .pop t c → 0 < q.length) ∧ Alone task s' (pendingAfter q.length e) := by
  obtain ⟨henabled, hexec⟩ := hstep
  cases e with
  | irq keycode =>
    obtain ⟨⟨scheduler, b⟩, -, rfl⟩ := Option.map_eq_some_iff.mp hexec
    refine ⟨?_, h.others, ?_⟩
    · intro t c heq
      cases heq
    · intro hat
      exact Nat.lt_of_lt_of_le (h.pops hat) (Nat.le_add_right _ _)
  | read t length =>
    obtain rfl := hcaller t rfl
    obtain rfl := Option.some.inj hexec
    refine ⟨?_, h.setReader rfl ?_⟩
    · intro t c heq
      cases heq
    · intro r hr hpopping
      rw [← Option.some.inj hr] at hpopping
      exact absurd hpopping Bool.false_ne_true
  | poll t =>
    obtain rfl := hcaller t rfl
    obtain rfl := Option.some.inj hexec
    refine ⟨?_, h.setReader rfl ?_⟩
    · intro t c heq
      cases heq
    · intro r hr hpopping
      obtain ⟨r', -, rfl⟩ := Option.map_eq_some_iff.mp hr
      have hseen := of_decide_eq_true hpopping
      rw [← hq.length] at hseen
      exact Nat.lt_of_lt_of_le hseen (Nat.le_add_right _ _)
  | pop t c =>
    obtain rfl := hcaller t rfl
    obtain ⟨⟨ret, c', b⟩, -, rfl⟩ := Option.map_eq_some_iff.mp hexec
    refine ⟨fun _ _ _ => h.pops henabled, h.setReader rfl ?_⟩
    intro r hr hpopping
    obtain ⟨r', -, rfl⟩ := Option.map_eq_some_iff.mp hr
    exact absurd hpopping Bool.false_ne_true
  | ret t =>
    obtain rfl := hcaller t rfl
    obtain rfl := Option.some.inj hexec
    refine ⟨?_, h.setReader rfl ?_⟩
    · intro t c heq
      cases heq
    · intro r hr _
      cases hr

/-- With one reader, only the codes matter. -/
theorem clean_of_alone (h : Trace (Step beyond) s es s') :
    ∀ {q : List (BitVec 8)}, s.ringbuffer.Holds q → Alone task s q.length →
      (∀ e ∈ es, ∀ t ∈ e.caller, t = task) →
      (∀ keycode, .irq keycode ∈ es → Pressed keycode → keycode.toNat < 0x5A) →
      Clean q.length es := by
  induction h with
  | nil s =>
    intro q _ _ _ _
    trivial
  | @cons s s₁ s' e es hstep _ ih =>
    intro q hq halone hcaller hcodes
    obtain ⟨q₁, heffect⟩ := hstep.effect hq
    obtain ⟨hpop, halone₁⟩ := halone.step hq hstep (hcaller e List.mem_cons_self)
    have hfits : Fits q.length e := by
      cases e with
      | irq keycode => exact hcodes keycode List.mem_cons_self
      | pop t c => exact hpop t c rfl
      | _ => trivial
    refine ⟨hfits, ?_⟩
    rw [← heffect.pending] at halone₁ ⊢
    exact ih heffect.holds halone₁ (fun e he => hcaller e (List.mem_cons_of_mem _ he))
      fun keycode he => hcodes keycode (List.mem_cons_of_mem _ he)

end

/-! ## Every run of a new keyboard -/

theorem holds_new (scheduler : Scheduler) (buffer : Vector (BitVec 8) keyboardRingbufSize) :
    (State.new scheduler buffer).ringbuffer.Holds [] :=
  RingBuffer.holds_new (by decide) buffer

/-- What the readers of a new keyboard get, in any order of interrupts and reads. -/
theorem keys_delivered_iff (beyond : ℕ → BitVec 8) (scheduler : Scheduler)
    (buffer : Vector (BitVec 8) keyboardRingbufSize) (es : List Event) (s : State)
    (h : Trace (Step beyond) (State.new scheduler buffer) es s) :
    Delivered es s ↔ Clean 0 es := by
  obtain ⟨q, hq, hbytes⟩ := trail_of_run h (holds_new scheduler buffer)
  have hstored : s.stored.map Prod.snd ++ q = trail beyond 0 es := hbytes
  constructor
  · intro hdelivered
    obtain ⟨q', hq', horder⟩ := hdelivered.inOrder
    -- both lists are as long as the buffer says
    have hlength : q'.length = q.length := hq'.length.trans hq.length.symm
    have hcount := congrArg List.length horder
    have htrail := congrArg List.length hstored
    simp only [List.length_map, List.length_append] at hcount htrail
    exact clean_of_length beyond es hdelivered.inTable (by omega)
  · intro hclean
    refine ⟨index_lt_of_clean es hclean, q, hq, ?_⟩
    rw [hstored]
    exact trail_of_clean beyond es hclean

/-- Nothing is stored and nothing is pending. -/
def idle : State :=
  .new (Scheduler.boot fun _ => ⟨⟨0, 0, 0, 0, 0, 0, 0, 0, 0, 0, 0⟩, none, 0, .none⟩)
    (Vector.replicate keyboardRingbufSize 0)

/-- A key is pressed, and a task reads its character. -/
theorem keys_delivered_one :
    ∃ s, Trace (Step fun _ => 0) idle
        [.irq 0x1E, .read .mainTask 1, .poll .mainTask, .pop .mainTask 0xFF, .ret .mainTask] s ∧
      Delivered [.irq 0x1E, .read .mainTask 1, .poll .mainTask, .pop .mainTask 0xFF, .ret .mainTask]
        s := by
  have hidle : idle.ringbuffer.Holds [] := holds_new _ _
  obtain ⟨scheduler, b, hcall, hb⟩ := irqCallback_spec (fun _ => 0) idle.scheduler 0x1E hidle
  -- the character is pending, so the reader goes on to its `pop`
  have hpending : 0 < b.numElements := by
    rw [← hb.length]
    decide
  let s₁ : State := { idle with scheduler := scheduler, ringbuffer := b }
  have hirq : Step (fun _ => 0) idle (.irq 0x1E) s₁ := by
    refine ⟨trivial, ?_⟩
    rw [State.exec, hcall]
    rfl
  let s₂ := s₁.setReader .mainTask (some ⟨0, 1, false⟩)
  let s₃ := s₂.setReader .mainTask (some ⟨0, 1, true⟩)
  have hpoll : Step (fun _ => 0) s₂ (.poll .mainTask) s₃ := by
    refine ⟨⟨Nat.zero_lt_one, rfl⟩, ?_⟩
    have hseen : decide (0 < s₂.ringbuffer.numElements) = true := decide_eq_true hpending
    rw [State.exec, hseen]
    rfl
  obtain ⟨s₄, q₄, hpop, -⟩ := step_of_enabled (s := s₃) (e := .pop .mainTask 0xFF) (fun _ => 0) hb rfl
  obtain ⟨⟨_, c, b'⟩, -, heq⟩ := Option.map_eq_some_iff.mp hpop.2
  have hret : Step (fun _ => 0) s₄ (.ret .mainTask) (s₄.setReader .mainTask none) := by
    subst heq
    exact ⟨⟨by decide, rfl⟩, rfl⟩
  have hrun : Trace (Step fun _ => 0) idle
      [.irq 0x1E, .read .mainTask 1, .poll .mainTask, .pop .mainTask 0xFF, .ret .mainTask] _ :=
    .cons hirq (.cons ⟨rfl, rfl⟩ (.cons hpoll (.cons hpop (.cons hret (.nil _)))))
  have hclean : Clean 0
      [.irq 0x1E, .read .mainTask 1, .poll .mainTask, .pop .mainTask 0xFF, .ret .mainTask] :=
    ⟨fun _ => by decide, trivial, trivial, Nat.pos_of_ne_zero (by decide), trivial, trivial⟩
  exact ⟨_, hrun, (keys_delivered_iff _ _ _ _ _ hrun).mpr hclean⟩

/-- The left Windows key sends `0xE0` and `0x5B`, and `keymap` ends at `0x59`. -/
theorem key_behind_table :
    ∃ s, Trace (Step fun _ => 0) idle [.irq 0xE0, .irq 0x5B] s ∧
      ¬ Delivered [.irq 0xE0, .irq 0x5B] s := by
  have hidle : idle.ringbuffer.Holds [] := holds_new _ _
  obtain ⟨s₁, q₁, hfirst, heffect⟩ := step_of_enabled (e := .irq 0xE0) (fun _ => 0) hidle trivial
  obtain ⟨s₂, q₂, hsecond, -⟩ := step_of_enabled (e := .irq 0x5B) (fun _ => 0) heffect.holds trivial
  refine ⟨s₂, .cons hfirst (.cons hsecond (.nil _)), ?_⟩
  intro hdelivered
  have hindex := hdelivered.inTable (.irq 0x5B) (by simp) 0x5B (by decide)
  exact absurd hindex (by decide)

/-- And if there is only one, the codes in the table suffice. -/
theorem clean_of_single (beyond : ℕ → BitVec 8) (scheduler : Scheduler)
    (buffer : Vector (BitVec 8) keyboardRingbufSize) (es : List Event) (s : State) (task : TaskRef)
    (h : Trace (Step beyond) (State.new scheduler buffer) es s)
    (hcaller : ∀ e ∈ es, ∀ t ∈ e.caller, t = task)
    (hcodes : ∀ keycode, .irq keycode ∈ es → Pressed keycode → keycode.toNat < 0x5A) :
    Clean 0 es := by
  have halone : Alone task (State.new scheduler buffer) 0 := by
    refine ⟨fun _ _ => rfl, ?_⟩
    intro hat
    obtain ⟨reader, hreader, -⟩ := State.at_iff.mp hat
    cases hreader
  exact clean_of_alone h (holds_new scheduler buffer) halone hcaller hcodes

end Sakura.Devices.Keyboard
