import Sakura.Devices.Console
import Sakura.Devices.KeyboardTheorems
import Sakura.Devices.PageTheorems

/-!
# What is typed appears

In any order of interrupts and steps of `tty_process`, the screen shows the characters of the keys
that found room in the buffer of the keyboard, in their order, but for those on their way
(`typed_shown`). Six steps of the task bring one of these to the screen (`typed_soon`).
-/

namespace Sakura.Devices

open Libk Run

/-! ## The keyboard with one reader -/

namespace Keyboard

/-- The bytes of a run are then the characters of the accepted codes. -/
theorem trail_of_alone {beyond : ℕ → BitVec 8} {s s' : State} {es : List Event} {task : TaskRef}
    (h : Trace (Step beyond) s es s') :
    ∀ {q : List (BitVec 8)}, s.ringbuffer.Holds q → Alone task s q.length →
      (∀ e ∈ es, ∀ t ∈ e.caller, t = task) →
      trail beyond q.length es = (accepted q.length es).map (charAt beyond) := by
  induction h with
  | nil s =>
    intro q _ _ _
    rfl
  | @cons s s₁ s' e es hstep _ ih =>
    intro q hq halone hcaller
    obtain ⟨q₁, heffect⟩ := hstep.effect hq
    obtain ⟨hpop, halone₁⟩ := halone.step hq hstep (hcaller e List.mem_cons_self)
    have hjunk : junk q.length e = [] := by
      cases e with
      | pop t c => exact if_neg (Nat.ne_of_gt (hpop t c rfl))
      | _ => rfl
    rw [← heffect.pending] at halone₁
    have hrest := ih heffect.holds halone₁ fun e he => hcaller e (List.mem_cons_of_mem _ he)
    rw [trail, accepted, List.map_append, ← heffect.pending, hrest, hjunk, List.append_nil]

/-- What was accepted stays accepted. -/
theorem accepted_grows (es es' : List Event) :
    ∀ pending, accepted pending es <+: accepted pending (es ++ es') := by
  induction es with
  | nil =>
    intro pending
    exact List.nil_prefix
  | cons e es ih =>
    intro pending
    rw [List.cons_append, accepted, accepted]
    exact (List.prefix_append_right_inj _).mpr (ih _)

/-! What a step makes of the reader. -/

section

variable {beyond : ℕ → BitVec 8} {s s' : State} {task : TaskRef} {reader : Reader}

/-- A key changes nothing of the readers. -/
theorem Step.irq_frame {keycode : BitVec 8} (h : Step beyond s (.irq keycode) s') :
    s'.reader = s.reader ∧ s'.stored = s.stored := by
  obtain ⟨x, -, rfl⟩ := Option.map_eq_some_iff.mp h.2
  exact ⟨rfl, rfl⟩

/-- A call of `read` has read nothing yet. -/
theorem Step.read_spec {length : ℕ} (h : Step beyond s (.read task length) s') :
    s'.reader task = some ⟨0, length, false⟩ ∧ s'.stored = s.stored := by
  obtain rfl := Option.some.inj h.2
  exact ⟨Function.update_self .., rfl⟩

/-- The reader pops next if the buffer is not empty. -/
theorem Step.poll_spec (hreader : s.reader task = some reader) (h : Step beyond s (.poll task) s') :
    s'.reader task = some { reader with popping := decide (0 < s.ringbuffer.numElements) } ∧
      s'.stored = s.stored := by
  obtain rfl := Option.some.inj h.2
  refine ⟨?_, rfl⟩
  rw [State.setReader, hreader]
  exact Function.update_self ..

/-- One character more has been read. -/
theorem Step.pop_spec {c : BitVec 8} (hreader : s.reader task = some reader)
    (h : Step beyond s (.pop task c) s') :
    s'.reader task = some { reader with read := reader.read + 1, popping := false } := by
  obtain ⟨x, -, rfl⟩ := Option.map_eq_some_iff.mp h.2
  rw [hreader]
  exact Function.update_self ..

/-- The call is over. -/
theorem Step.ret_spec (h : Step beyond s (.ret task) s') :
    s'.reader task = none ∧ s'.stored = s.stored := by
  obtain rfl := Option.some.inj h.2
  exact ⟨Function.update_self .., rfl⟩

end

end Keyboard

/-! ## The terminal when it is opened -/

namespace TTY

theorem column_ttyOpen (t : TTY) : t.ttyOpen.column = 0 := by
  have hclear := repaints_clear
    { t with row := 0, column := 0, color := vgaEntryColor 7 0, written := [] }
  have hcolumn : ∀ (u : TTY) (a b : UInt8) (x y : Int32),
      ((u.enableCursor a b).updateCursor x y).column = u.column := fun _ _ _ _ _ => rfl
  rw [ttyOpen, hcolumn, hclear.column]

/-- `TTY::open` leaves the cursor at the position. -/
theorem cursor_ttyOpen (t : TTY) : t.ttyOpen.showCursor.cursor = t.ttyOpen.cursor := by
  obtain ⟨u, hopen⟩ : ∃ u : TTY, t.ttyOpen = u.updateCursor 0 0 := ⟨_, rfl⟩
  rw [showCursor, column_ttyOpen, row_ttyOpen, hopen]
  rfl

end TTY

namespace Console

open Keyboard (accepted charAt trail Alone)
open TTY (chars screenSize IsNewline maxRow newlines)

variable {beyond : ℕ → BitVec 8} {task : TaskRef} {t : TTY} {s s' : Console} {e : Event}
  {es es' : List Event} {shown : List (BitVec 8)}

/-! ## The keyboard of the console -/

def Event.key : Event → Option Keyboard.Event
  | .keyboard e => some e
  | _ => none

/-- What the keyboard and its reader do in a run. -/
def keys (es : List Event) : List Keyboard.Event := es.filterMap Event.key

/-- The characters of the keys that found room. -/
def typed (beyond : ℕ → BitVec 8) (es : List Event) : List (BitVec 8) :=
  (accepted 0 (keys es)).map (charAt beyond)

/-- What was typed stays typed. -/
theorem typed_grows (beyond : ℕ → BitVec 8) (es es' : List Event) :
    typed beyond es <+: typed beyond (es ++ es') := by
  rw [typed, typed, keys, keys, List.filterMap_append]
  exact (Keyboard.accepted_grows _ _ 0).map _

/-- A step of the console is a step of the keyboard or leaves it alone. -/
theorem Step.keyboard (h : Step beyond task s e s') :
    (∃ k, e.key = some k ∧ Keyboard.Step beyond s.keyboard k s'.keyboard ∧
      ∀ t ∈ k.caller, t = task) ∨ e.key = none ∧ s'.keyboard = s.keyboard := by
  cases h with
  | irq keycode h => exact .inl ⟨_, rfl, h, by simp [Keyboard.Event.caller]⟩
  | read _ h => exact .inl ⟨_, rfl, h, by simp [Keyboard.Event.caller]⟩
  | poll _ h => exact .inl ⟨_, rfl, h, by simp [Keyboard.Event.caller]⟩
  | pop junk c _ h _ => exact .inl ⟨_, rfl, h, by simp [Keyboard.Event.caller]⟩
  | ret _ h => exact .inl ⟨_, rfl, h, by simp [Keyboard.Event.caller]⟩
  | writeChar _ => exact .inr ⟨rfl, rfl⟩
  | updateCursor _ => exact .inr ⟨rfl, rfl⟩

/-- A run of the console is a run of the keyboard, whose one reader is the task. -/
theorem keyboard_run (h : Trace (Step beyond task) s es s') :
    Trace (Keyboard.Step beyond) s.keyboard (keys es) s'.keyboard ∧
      ∀ k ∈ keys es, ∀ t ∈ k.caller, t = task := by
  induction h with
  | nil s => exact ⟨.nil _, List.forall_mem_nil _⟩
  | @cons s s₁ s' e es hstep _ ih =>
    obtain ⟨htrace, hcaller⟩ := ih
    obtain ⟨k, hkey, hk, hcalls⟩ | ⟨hkey, hsame⟩ := hstep.keyboard
    · rw [keys, List.filterMap_cons_some hkey, ← keys]
      exact ⟨.cons hk htrace, List.forall_mem_cons.mpr ⟨hcalls, hcaller⟩⟩
    · rw [keys, List.filterMap_cons_none hkey, ← keys, ← hsame]
      exact ⟨htrace, hcaller⟩

/-- What the reader has stored, and what is pending. -/
theorem stored_run {scheduler : Scheduler} {buffer : Vector (BitVec 8) keyboardRingbufSize}
    {c : BitVec 8} (h : Trace (Step beyond task) (opened t scheduler buffer c) es s) :
    ∃ pending, s.keyboard.ringbuffer.Holds pending ∧
      s.keyboard.stored.map Prod.snd ++ pending = typed beyond es := by
  obtain ⟨htrace, hcaller⟩ := keyboard_run h
  have hnew := Keyboard.holds_new scheduler buffer
  have halone : Alone task (Keyboard.State.new scheduler buffer) ([] : List (BitVec 8)).length := by
    refine ⟨fun _ _ => rfl, fun hat => ?_⟩
    obtain ⟨reader, hreader, -⟩ := Keyboard.State.at_iff.mp hat
    cases hreader
  obtain ⟨pending, hpending, hbytes⟩ := Keyboard.trail_of_run htrace hnew
  refine ⟨pending, hpending, ?_⟩
  rw [hbytes, Keyboard.trail_of_alone htrace hnew halone hcaller]
  rfl

/-! ## One step -/

/-- The character that has been read and not been printed. -/
def held (task : TaskRef) (s : Console) : List (BitVec 8) :=
  match s.point, s.keyboard.reader task with
  | .writeChar, _ => [s.c]
  | .reading, some reader => if reader.read = 0 then [] else [s.c]
  | _, _ => []

/-- Where the task is: how many steps it has done since it has printed a character. -/
inductive Phase (task : TaskRef) (s : Console) : ℕ → Prop
  | updateCursor : s.point = .updateCursor → s.keyboard.reader task = none → Phase task s 0
  | read : s.point = .read → s.keyboard.reader task = none → Phase task s 1
  | poll : s.point = .reading → s.keyboard.reader task = some ⟨0, 1, false⟩ → Phase task s 2
  | pop : s.point = .reading → s.keyboard.reader task = some ⟨0, 1, true⟩ → Phase task s 3
  | ret : s.point = .reading → s.keyboard.reader task = some ⟨1, 1, false⟩ → Phase task s 4
  | writeChar : s.point = .writeChar → s.keyboard.reader task = none → Phase task s 5

/-- A character is held between the pop and its print. -/
theorem Phase.held {n : ℕ} (h : Phase task s n) : s.held task = if n < 4 then [] else [s.c] := by
  cases h <;> simp [Console.held, *]

theorem Phase.lt {n : ℕ} (h : Phase task s n) : n < 6 := by
  cases h <;> decide

/-- The phase is read off the point and the task's reader. -/
theorem Phase.congr {n : ℕ} (h : Phase task s n) (hpoint : s'.point = s.point)
    (hreader : s'.keyboard.reader task = s.keyboard.reader task) : Phase task s' n := by
  cases h with
  | updateCursor hp hr => exact .updateCursor (hpoint.trans hp) (hreader.trans hr)
  | read hp hr => exact .read (hpoint.trans hp) (hreader.trans hr)
  | poll hp hr => exact .poll (hpoint.trans hp) (hreader.trans hr)
  | pop hp hr => exact .pop (hpoint.trans hp) (hreader.trans hr)
  | ret hp hr => exact .ret (hpoint.trans hp) (hreader.trans hr)
  | writeChar hp hr => exact .writeChar (hpoint.trans hp) (hreader.trans hr)

theorem Phase.of_read {n : ℕ} (h : Phase task s n) (hpoint : s.point = .read) : n = 1 := by
  cases h <;> simp_all

theorem Phase.of_reading {n : ℕ} (h : Phase task s n) (hpoint : s.point = .reading) :
    n = 2 ∧ s.keyboard.reader task = some ⟨0, 1, false⟩ ∨
    n = 3 ∧ s.keyboard.reader task = some ⟨0, 1, true⟩ ∨
    n = 4 ∧ s.keyboard.reader task = some ⟨1, 1, false⟩ := by
  cases h <;> simp_all

theorem Phase.of_writeChar {n : ℕ} (h : Phase task s n) (hpoint : s.point = .writeChar) :
    n = 5 ∧ s.keyboard.reader task = none := by
  cases h <;> simp_all

theorem Phase.of_updateCursor {n : ℕ} (h : Phase task s n) (hpoint : s.point = .updateCursor) :
    n = 0 ∧ s.keyboard.reader task = none := by
  cases h <;> simp_all

/-- The task has printed `shown`, and what else it has read it holds. -/
structure Printed (t : TTY) (task : TaskRef) (s : Console) (shown : List (BitVec 8)) (n : ℕ) :
    Prop where
  tty : ∃ as, s.tty = t.ttyOpen.run as ∧ chars as = shown.map UInt8.ofBitVec
  phase : Phase task s n
  stored : s.keyboard.stored.map Prod.snd = shown ++ if n < 4 then [] else [s.c]
  cursor : n ≠ 0 → s.tty.showCursor.cursor = s.tty.cursor

/-- When the terminal has been opened nothing is printed. -/
theorem printed_opened (scheduler : Scheduler) (buffer : Vector (BitVec 8) keyboardRingbufSize)
    (c : BitVec 8) : Printed t task (opened t scheduler buffer c) [] 1 :=
  ⟨⟨[], rfl, rfl⟩, .read rfl rfl, rfl, fun _ => TTY.cursor_ttyOpen t⟩

/-- A step that is not the keyboard's. -/
def Event.own : Event → Bool
  | .keyboard (.irq _) => false
  | _ => true

/-- A step brings the task on by one, to the next character in six, unless it is the keyboard's
or finds nothing in the buffer. -/
theorem Printed.step {n : ℕ} (h : Printed t task s shown n) (hstep : Step beyond task s e s') :
    ∃ shown' n', Printed t task s' shown' n' ∧ shown <+: shown' ∧
      (6 * shown'.length + n' = 6 * shown.length + n + e.own.toNat ∨
        s.keyboard.ringbuffer.numElements = 0 ∧ n = 2 ∧ n' = 2 ∧ shown' = shown) := by
  obtain ⟨⟨as, hrun, has⟩, hphase, hstored, hcursor⟩ := h
  cases hstep with
  | @irq k keycode hk =>
    obtain ⟨hreader, hsame⟩ := hk.irq_frame
    refine ⟨shown, n, ⟨⟨as, hrun, has⟩, hphase.congr rfl (congrFun hreader task), ?_, hcursor⟩,
      List.prefix_rfl, .inl rfl⟩
    rw [← hstored]
    exact congrArg (List.map Prod.snd) hsame
  | @read k hpoint hk =>
    obtain rfl := hphase.of_read hpoint
    obtain ⟨hreader, hsame⟩ := hk.read_spec
    refine ⟨shown, 2, ⟨⟨as, hrun, has⟩, .poll rfl hreader, ?_, fun _ => hcursor (by decide)⟩,
      List.prefix_rfl, .inl rfl⟩
    rw [hsame]
    exact hstored
  | @poll k hpoint hk =>
    obtain ⟨reader, hreader, hmore, hpopping⟩ := Keyboard.State.at_iff.mp hk.1
    obtain ⟨rfl, hr⟩ | ⟨rfl, hr⟩ | ⟨rfl, hr⟩ := hphase.of_reading hpoint
    · obtain ⟨hreader', hsame⟩ := hk.poll_spec hr
      have hstored' : k.stored.map Prod.snd = shown ++ [] := by
        rw [hsame]
        exact hstored
      -- with nothing in the buffer the reader polls again
      by_cases hempty : s.keyboard.ringbuffer.numElements = 0
      · rw [decide_eq_false (by omega)] at hreader'
        exact ⟨shown, 2, ⟨⟨as, hrun, has⟩, .poll hpoint hreader', hstored',
          fun _ => hcursor (by decide)⟩, List.prefix_rfl, .inr ⟨hempty, rfl, rfl, rfl⟩⟩
      · rw [decide_eq_true (by omega)] at hreader'
        exact ⟨shown, 3, ⟨⟨as, hrun, has⟩, .pop hpoint hreader', hstored',
          fun _ => hcursor (by decide)⟩, List.prefix_rfl, .inl rfl⟩
    · obtain rfl := Option.some.inj (hreader.symm.trans hr)
      cases hpopping
    · obtain rfl := Option.some.inj (hreader.symm.trans hr)
      exact absurd hmore (by decide)
  | @pop k junk c hpoint hk hbyte =>
    obtain ⟨reader, hreader, hpopping⟩ := Keyboard.State.at_iff.mp hk.1
    -- of the three phases within `read` only one pops
    obtain ⟨rfl, hr⟩ | ⟨rfl, hr⟩ | ⟨rfl, hr⟩ := hphase.of_reading hpoint
    · obtain rfl := Option.some.inj (hreader.symm.trans hr)
      cases hpopping
    · have hreader' := hk.pop_spec hr
      refine ⟨shown, 4, ⟨⟨as, hrun, has⟩, .ret hpoint hreader', ?_, fun _ => hcursor (by decide)⟩,
        List.prefix_rfl, .inl rfl⟩
      rw [hbyte, List.map_append, hstored]
      simp
    · obtain rfl := Option.some.inj (hreader.symm.trans hr)
      cases hpopping
  | @ret k hpoint hk =>
    obtain ⟨reader, hreader, hdone, -⟩ := Keyboard.State.at_iff.mp hk.1
    -- and only one returns
    obtain ⟨rfl, hr⟩ | ⟨rfl, hr⟩ | ⟨rfl, hr⟩ := hphase.of_reading hpoint
    · obtain rfl := Option.some.inj (hreader.symm.trans hr)
      exact absurd (by decide) hdone
    · obtain rfl := Option.some.inj (hreader.symm.trans hr)
      exact absurd (by decide) hdone
    · obtain ⟨hreader', hsame⟩ := hk.ret_spec
      refine ⟨shown, 5, ⟨⟨as, hrun, has⟩, .writeChar rfl hreader', ?_,
        fun _ => hcursor (by decide)⟩, List.prefix_rfl, .inl rfl⟩
      rw [hsame]
      exact hstored
  | writeChar hpoint =>
    obtain ⟨rfl, hr⟩ := hphase.of_writeChar hpoint
    refine ⟨shown ++ [s.c], 0, ⟨⟨as ++ [.writeChar (UInt8.ofBitVec s.c)], ?_, ?_⟩,
      .updateCursor rfl hr, ?_, fun h => absurd rfl h⟩, List.prefix_append _ _, .inl ?_⟩
    · rw [hrun, TTY.run_append]
      rfl
    · rw [chars, List.filterMap_append, ← chars, has, List.map_append]
      rfl
    · rw [hstored]
      simp
    · have hown : Event.writeChar.own.toNat = 1 := rfl
      rw [List.length_append, List.length_singleton, hown]
      omega
  | updateCursor hpoint =>
    obtain ⟨rfl, hr⟩ := hphase.of_updateCursor hpoint
    refine ⟨shown, 1, ⟨⟨as ++ [.showCursor], ?_, ?_⟩, .read rfl hr, hstored, fun _ => rfl⟩,
      List.prefix_rfl, .inl rfl⟩
    · rw [hrun, TTY.run_append]
      rfl
    · rw [chars, List.filterMap_append, ← chars, has]
      exact List.append_nil _

/-! ## Every run -/

/-- How many steps of a run are the task's. -/
def own (es : List Event) : ℕ := es.countP Event.own

/-- What is stored or pending is only ever added to. -/
theorem Step.bytes {q : List (BitVec 8)} (h : Step beyond task s e s')
    (hq : s.keyboard.ringbuffer.Holds q) : ∃ q', s'.keyboard.ringbuffer.Holds q' ∧
      s.keyboard.stored.length + q.length ≤ s'.keyboard.stored.length + q'.length := by
  obtain ⟨k, -, hk, -⟩ | ⟨-, hsame⟩ := h.keyboard
  · obtain ⟨q', heffect⟩ := hk.effect hq
    have hbytes := congrArg List.length heffect.bytes
    simp only [List.length_append, List.length_map] at hbytes
    exact ⟨q', heffect.holds, by omega⟩
  · rw [hsame]
    exact ⟨q, hq, Nat.le_refl _⟩

/-- In a run the task prints everything that it had not printed at the beginning, or it gets
on with every step. -/
theorem printed_run (hrun : Trace (Step beyond task) s es s') :
    ∀ {shown : List (BitVec 8)} {n : ℕ} {q : List (BitVec 8)}, Printed t task s shown n →
      s.keyboard.ringbuffer.Holds q → ∃ shown' n', Printed t task s' shown' n' ∧ shown <+: shown' ∧
        (s.keyboard.stored.length + q.length ≤ shown'.length ∨
          6 * shown.length + n + own es ≤ 6 * shown'.length + n') := by
  induction hrun with
  | nil s =>
    intro shown n q h _
    exact ⟨shown, n, h, List.prefix_rfl, .inr (Nat.le_refl _)⟩
  | @cons s s₁ s' e es hstep _ ih =>
    intro shown n q h hq
    obtain ⟨shown₁, n₁, h₁, hprefix₁, hprogress⟩ := h.step hstep
    obtain ⟨q₁, hq₁, hbytes⟩ := hstep.bytes hq
    obtain ⟨shown', n', h', hprefix', hrest⟩ := ih h₁ hq₁
    refine ⟨shown', n', h', hprefix₁.trans hprefix', ?_⟩
    have hle := hprefix'.length_le
    have hown : own (e :: es) = own es + e.own.toNat := by
      rw [own, List.countP_cons, ← own]
      cases e.own <;> rfl
    rcases hprogress with hprogress | ⟨hempty, rfl, -, rfl⟩
    · rcases hrest with hall | hrest
      · exact .inl (by omega)
      · exact .inr (by omega)
    · -- The buffer is empty and nothing is held, so nothing is missing.
      have hstored := congrArg List.length h.stored
      have hnone : q.length = 0 := hq.length.trans hempty
      rw [List.length_map, if_pos (by decide), List.append_nil] at hstored
      exact .inl (by omega)

/-- The page with a text. -/
def page (shown : List (BitVec 8)) : Page :=
  (shown.map UInt8.ofBitVec).foldl Page.writeChar Page.empty

/-- How often a text begins a new line. -/
def lines (text : List (BitVec 8)) : ℕ :=
  text.countP fun c => decide (IsNewline (UInt8.ofBitVec c))

/-- The screen shows a text, and the cursor is behind it unless it is to be moved there next. -/
structure ShowsText (s : Console) (shown : List (BitVec 8)) : Prop where
  cells : ∀ i < screenSize, s.tty.buffer i = (page shown).cell i
  position : ((page shown).position : ℤ) = s.tty.row.toInt * 80 + s.tty.column.toInt
  cursor : s.point ≠ .updateCursor → s.tty.cursor = (page shown).position % 2 ^ 16

/-- What was printed is on the page, within the bound on the lines. -/
theorem Printed.showsText {n : ℕ} (h : Printed t task s shown n)
    (hlines : lines shown + 25 ≤ maxRow) : ShowsText s shown := by
  obtain ⟨⟨as, hrun, has⟩, hphase, -, hcursor⟩ := h
  have hnewlines : newlines as = lines shown := by
    rw [TTY.newlines_chars, has, List.countP_map]
    rfl
  have hpage : Page.empty.run as = page shown := by
    rw [TTY.page_chars, has, page]
  obtain ⟨hshows, hposition⟩ := TTY.shows_run t as (by omega)
  rw [← hrun, hpage] at hshows
  rw [hpage] at hposition
  have hsize : screenSize = 2000 := rfl
  have hpos := hshows.position
  have hcolumn := hshows.column
  refine ⟨hshows.cells, hpos, fun hpoint => ?_⟩
  have hn : n ≠ 0 := by
    rintro rfl
    cases hphase with
    | updateCursor hp _ => exact hpoint hp
  rw [← hcursor hn]
  exact hshows.cursor (by omega)

theorem lines_mono {text text' : List (BitVec 8)} (h : text <+: text') :
    lines text ≤ lines text' :=
  h.sublist.countP_le

/-! A key is pressed, and its character comes to the screen. -/

def pressed : List Event := [.keyboard (.irq 0x1E)]

def taken : List Event := [.keyboard (.read .mainTask 1), .keyboard (.poll .mainTask),
  .keyboard (.pop .mainTask 0xFF), .keyboard (.ret .mainTask), .writeChar, .updateCursor]

def quiet : Console :=
  opened TTY.closed Keyboard.idle.scheduler (Vector.replicate keyboardRingbufSize 0) 0

theorem runs_pressed : ∃ s s', Trace (Step (fun _ => 0) .mainTask) quiet pressed s ∧
    Trace (Step (fun _ => 0) .mainTask) s taken s' ∧ s.held .mainTask = [] ∧
    s.keyboard.ringbuffer.numElements = 1 ∧ s'.point = .read ∧ s'.held .mainTask = [] ∧
    s'.keyboard.ringbuffer.numElements = 0 := by
  have hidle := Keyboard.holds_new Keyboard.idle.scheduler (Vector.replicate keyboardRingbufSize 0)
  obtain ⟨k₁, q₁, hirq, heffect⟩ :=
    Keyboard.step_of_enabled (e := .irq 0x1E) (fun _ => 0) hidle trivial
  obtain ⟨hreader₁, -⟩ := hirq.irq_frame
  have hone : k₁.ringbuffer.numElements = 1 := heffect.holds.length.symm.trans heffect.pending
  have hnone : k₁.reader .mainTask = none := congrFun hreader₁ .mainTask
  let k₂ := k₁.setReader .mainTask (some ⟨0, 1, false⟩)
  let k₃ := k₂.setReader .mainTask (some ⟨0, 1, true⟩)
  have hpoll : Keyboard.Step (fun _ => 0) k₂ (.poll .mainTask) k₃ := by
    refine ⟨⟨Nat.zero_lt_one, rfl⟩, ?_⟩
    have hseen : decide (0 < k₂.ringbuffer.numElements) = true :=
      decide_eq_true (hone ▸ Nat.zero_lt_one)
    rw [Keyboard.State.exec, hseen]
    rfl
  obtain ⟨k₄, q₄, hpop, heffect₄⟩ := Keyboard.step_of_enabled (s := k₃)
    (e := .pop .mainTask 0xFF) (fun _ => 0) heffect.holds rfl
  have hzero : k₄.ringbuffer.numElements = 0 := by
    rw [← heffect₄.holds.length, heffect₄.pending, heffect.pending]
    rfl
  obtain ⟨⟨_, c, b⟩, -, hk₄⟩ := Option.map_eq_some_iff.mp hpop.2
  have hstored : k₄.stored = k₃.stored ++ [(.mainTask, c)] := by
    rw [← hk₄]
  have hret : Keyboard.Step (fun _ => 0) k₄ (.ret .mainTask) (k₄.setReader .mainTask none) := by
    subst hk₄
    exact ⟨⟨by decide, rfl⟩, rfl⟩
  refine ⟨{ quiet with keyboard := k₁ }, _, .cons (.irq 0x1E hirq) (.nil _),
    .cons (.read rfl ⟨hnone, rfl⟩) (.cons (.poll rfl hpoll) (.cons (.pop 0xFF c rfl hpop hstored)
      (.cons (.ret rfl hret) (.cons (.writeChar rfl) (.cons (.updateCursor rfl) (.nil _)))))),
    rfl, hone, rfl, rfl, hzero⟩

/-- In every run the screen shows what has been typed, in order and in full, but for the last
characters: one that the task has read, and those that are in the buffer. -/
theorem typed_shown (beyond : ℕ → BitVec 8) (t : TTY) (scheduler : Scheduler)
    (buffer : Vector (BitVec 8) keyboardRingbufSize) (c : BitVec 8) (task : TaskRef)
    (es : List Event) (s : Console)
    (hrun : Trace (Step beyond task) (opened t scheduler buffer c) es s)
    (hlines : lines (typed beyond es) + 25 ≤ maxRow) :
    ∃ shown pending, typed beyond es = shown ++ (s.held task ++ pending) ∧
      s.keyboard.ringbuffer.Holds pending ∧ ShowsText s shown := by
  have hnew := Keyboard.holds_new scheduler buffer
  obtain ⟨shown, n, hprinted, -, -⟩ := printed_run hrun (printed_opened scheduler buffer c) hnew
  obtain ⟨pending, hpending, hbytes⟩ := stored_run hrun
  rw [hprinted.stored, ← hprinted.phase.held, List.append_assoc] at hbytes
  have hprefix : shown <+: typed beyond es := ⟨_, hbytes⟩
  have hle := lines_mono hprefix
  exact ⟨shown, pending, hbytes.symm, hpending, hprinted.showsText (by omega)⟩

/-- The character is the first on the screen. -/
theorem typed_shown_key : ∃ s, Trace (Step (fun _ => 0) .mainTask) quiet (pressed ++ taken) s ∧
    s.tty.buffer (0 : ℕ) = 0x0761 := by
  obtain ⟨s, s', hrun, hafter, -, -, -, hheld, hzero⟩ := runs_pressed
  refine ⟨s', hrun.append hafter, ?_⟩
  obtain ⟨shown, pending, htyped, hpending, hshows⟩ := typed_shown (fun _ => 0) TTY.closed
    Keyboard.idle.scheduler (Vector.replicate keyboardRingbufSize 0) 0 .mainTask _ s'
    (hrun.append hafter) (by decide)
  have hnil : pending = [] := List.eq_nil_of_length_eq_zero (hpending.length.trans hzero)
  have hkey : typed (fun _ => 0) (pressed ++ taken) = [0x61] := by decide
  rw [hheld, hnil, hkey, List.append_nil, List.append_nil] at htyped
  rw [hshows.cells 0 (by decide), ← htyped]
  decide

/-- Whatever has been typed when the task goes on is shown after six steps for each character
that is not yet, in whatever order interrupts come between. -/
theorem typed_soon (beyond : ℕ → BitVec 8) (t : TTY) (scheduler : Scheduler)
    (buffer : Vector (BitVec 8) keyboardRingbufSize) (c : BitVec 8) (task : TaskRef)
    (es es' : List Event) (s s' : Console)
    (hrun : Trace (Step beyond task) (opened t scheduler buffer c) es s)
    (hafter : Trace (Step beyond task) s es' s')
    (hsteps : 6 * ((s.held task).length + s.keyboard.ringbuffer.numElements) ≤ own es')
    (hlines : lines (typed beyond (es ++ es')) + 25 ≤ maxRow) :
    ∃ shown, typed beyond es <+: shown ∧ shown <+: typed beyond (es ++ es') ∧
      ShowsText s' shown := by
  have hnew := Keyboard.holds_new scheduler buffer
  obtain ⟨before, n, hbefore, -, -⟩ := printed_run hrun (printed_opened scheduler buffer c) hnew
  obtain ⟨pending, hpending, hbytes⟩ := stored_run hrun
  obtain ⟨shown, n', hprinted, -, hprogress⟩ := printed_run hafter hbefore hpending
  obtain ⟨pending', -, hbytes'⟩ := stored_run (hrun.append hafter)
  rw [hprinted.stored, List.append_assoc] at hbytes'
  have hprefix : shown <+: typed beyond (es ++ es') := ⟨_, hbytes'⟩
  have hlength : (typed beyond es).length ≤ shown.length := by
    have htyped := congrArg List.length hbytes
    have hstored := congrArg List.length hbefore.stored
    have hn' := hprinted.phase.lt
    rw [← hbefore.phase.held] at hstored
    simp only [List.length_append, List.length_map] at htyped hstored
    rw [← hpending.length] at hsteps
    omega
  have hle := lines_mono hprefix
  exact ⟨shown, List.prefix_of_prefix_length_le (typed_grows beyond es es') hprefix hlength, hprefix,
    hprinted.showsText (by omega)⟩

theorem typed_soon_key : ∃ s, Trace (Step (fun _ => 0) .mainTask) quiet (pressed ++ taken) s ∧
    s.tty.cursor = 1 := by
  obtain ⟨s, s', hrun, hafter, hheld, hone, hpoint, -, -⟩ := runs_pressed
  refine ⟨s', hrun.append hafter, ?_⟩
  obtain ⟨shown, htyped, hshown, hshows⟩ := typed_soon (fun _ => 0) TTY.closed
    Keyboard.idle.scheduler (Vector.replicate keyboardRingbufSize 0) 0 .mainTask _ _ s s' hrun hafter
    (by rw [hheld, hone]; decide) (by decide)
  have hkey : typed (fun _ => 0) pressed = [0x61] := by decide
  have hkey' : typed (fun _ => 0) (pressed ++ taken) = [0x61] := by decide
  rw [hkey] at htyped
  rw [hkey'] at hshown
  obtain rfl : shown = [0x61] := hshown.eq_of_length_le htyped.length_le
  have hcursor := hshows.cursor (by rw [hpoint]; decide)
  rw [hcursor]
  decide

end Console

end Sakura.Devices
