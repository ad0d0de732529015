import Vmc.Input.Batch
import Vmc.Lib.Run

/-!
# Vmc.Input.Evdev

The touch reader of `input/evdev_input.c`.  `evdev_poll` reads one kernel record
after the other until it has an event to return or until the device has nothing
more to read.

The kernel reports changes only (the multi-touch protocol, type B): a slot stays
selected, and a finger stays where it was, until a record says otherwise.
`MtState` is what a stream of records says by that protocol, `TouchStream` the
events it calls for.  `evdev_poll` keeps slot, position and pressure in local
variables, so what it returns agrees with `TouchStream` only where one poll has
read everything its event is about (`Arrival.Ready`).
-/

namespace Vmc

/-! ## records and reads -/

/-- `struct input_event` less its time stamp. -/
structure EvRecord where
  type : UInt16
  code : UInt16
  value : Int32
deriving DecidableEq, Repr

/-- `EV_SYN`, `EV_KEY` and `EV_ABS`. -/
def evSyn : UInt16 := 0
def evKey : UInt16 := 1
def evAbs : UInt16 := 3

/-- `SYN_REPORT`. -/
def synReport : UInt16 := 0

/-- `BTN_TOOL_FINGER` and `BTN_TOUCH`. -/
def btnToolFinger : UInt16 := 0x145
def btnTouch : UInt16 := 0x14a

/-- `ABS_MT_SLOT`, `ABS_MT_POSITION_X`, `ABS_MT_POSITION_Y`,
`ABS_MT_TRACKING_ID` and `ABS_MT_PRESSURE`. -/
def absMtSlot : UInt16 := 0x2f
def absMtPositionX : UInt16 := 0x35
def absMtPositionY : UInt16 := 0x36
def absMtTrackingId : UInt16 := 0x39
def absMtPressure : UInt16 := 0x3a

/-- What one `read` on the device gives: a whole record, any other number of
bytes, `EAGAIN`, or another error. -/
inductive EvRead where
  | record (r : EvRecord)
  | short
  | again
  | error
deriving DecidableEq, Repr

/-- `VMC_INPUT_TOUCH_MOVE` and `VMC_INPUT_TOUCH_UP`. -/
def vmcInputTouchMove : UInt16 := 1
def vmcInputTouchUp : UInt16 := 2

/-! ## `evdev_poll` -/

/-- The local variables of `evdev_poll`. -/
structure EvdevLocal where
  tx : UInt32 := 0
  ty : UInt32 := 0
  pressure : UInt32 := 0
  slot : UInt32 := 0
  haveTx : Bool := false
  haveTy : Bool := false
deriving DecidableEq, Repr

/-- The event of a lifted finger. -/
def EvdevLocal.touchUp (l : EvdevLocal) (nowUs : UInt64) : InputEvent where
  type := vmcInputTouchUp
  slot := l.slot.toUInt16
  x := 0
  y := 0
  pressure := 0
  buttons := 0
  tsUs := nowUs.toUInt32

/-- The event of a finger that is somewhere. -/
def EvdevLocal.touchMove (l : EvdevLocal) (nowUs : UInt64) : InputEvent where
  type := vmcInputTouchMove
  slot := l.slot.toUInt16
  x := l.tx.toUInt16
  y := l.ty.toUInt16
  pressure := l.pressure.toUInt16
  buttons := 0
  tsUs := nowUs.toUInt32

/-- The `switch` of `evdev_poll`: the event that is returned, or the variables
the loop goes on with. -/
def evdevRecord (nowUs : UInt64) (l : EvdevLocal) (r : EvRecord) : InputEvent ⊕ EvdevLocal :=
  if r.type = evAbs then
    if r.code = absMtSlot then .inr { l with slot := r.value.toUInt32 }
    else if r.code = absMtPositionX then
      .inr { l with tx := r.value.toUInt32, haveTx := true }
    else if r.code = absMtPositionY then
      .inr { l with ty := r.value.toUInt32, haveTy := true }
    else if r.code = absMtPressure then .inr { l with pressure := r.value.toUInt32 }
    else if r.code = absMtTrackingId then
      if r.value < 0 then .inl (l.touchUp nowUs) else .inr l
    else .inr l
  else if r.type = evKey then
    if r.code = btnTouch ∨ r.code = btnToolFinger then
      if r.value = 0 then .inl (l.touchUp nowUs) else .inr l
    else .inr l
  else if r.type = evSyn then
    if r.code = synReport then
      if l.haveTx || l.haveTy then .inl (l.touchMove nowUs) else .inr l
    else .inr l
  else .inr l

/-- The loop of `evdev_poll`, on the reads to come: what is returned, and the
reads that are left.  With nothing left to read the device says `EAGAIN`. -/
def evdevDrain (nowUs : UInt64) :
    EvdevLocal → List EvRead → (Status × Option InputEvent) × List EvRead
  | _, [] => ((.again, none), [])
  | l, .record r :: rest =>
      match evdevRecord nowUs l r with
      | .inl ev => ((.ok, some ev), rest)
      | .inr l' => evdevDrain nowUs l' rest
  | l, .short :: rest => evdevDrain nowUs l rest
  | _, .again :: rest => ((.again, none), rest)
  | _, .error :: rest => ((.io, none), rest)

/-- `evdev_poll`. -/
def evdevPoll (fd : Int) (nowUs : UInt64) (reads : List EvRead) :
    (Status × Option InputEvent) × List EvRead :=
  if fd < 0 then ((.io, none), reads) else evdevDrain nowUs {} reads

/-- One `evdev_poll` for each time of `nows`: the events they return, each with
the reads still to come after it, and the reads that are left at the end. -/
def evdevPolls (fd : Int) :
    List UInt64 → List EvRead → List (InputEvent × List EvRead) × List EvRead
  | [], reads => ([], reads)
  | nowUs :: nows, reads =>
      let (res, rest) := evdevPoll fd nowUs reads
      let (evs, rest') := evdevPolls fd nows rest
      ((res.2.map fun ev => (ev, rest)).toList ++ evs, rest')

/-! ## what a stream of records says -/

/-- A record as the multi-touch protocol reads it. -/
inductive MtRecord where
  | slot (v : Int32)
  | x (v : Int32)
  | y (v : Int32)
  | pressure (v : Int32)
  | lift
  | report
  | other
deriving DecidableEq, Repr

/-- What a record means.  A finger is lifted by a negative tracking id and by
the release of a touch button. -/
def EvRecord.meaning (r : EvRecord) : MtRecord :=
  if r.type = evAbs then
    if r.code = absMtSlot then .slot r.value
    else if r.code = absMtPositionX then .x r.value
    else if r.code = absMtPositionY then .y r.value
    else if r.code = absMtPressure then .pressure r.value
    else if r.code = absMtTrackingId ∧ r.value < 0 then .lift
    else .other
  else if r.type = evKey then
    if (r.code = btnTouch ∨ r.code = btnToolFinger) ∧ r.value = 0 then .lift else .other
  else if r.type = evSyn ∧ r.code = synReport then .report
  else .other

/-- The current slot, and for each slot the most recent position; 0 stands for
what no record has said yet. -/
structure MtState where
  slot : Int32 := 0
  x : Int32 → Int32 := fun _ => 0
  y : Int32 → Int32 := fun _ => 0

def MtState.read (m : MtState) : MtRecord → MtState
  | .slot v => { m with slot := v }
  | .x v => { m with x := Function.update m.x m.slot v }
  | .y v => { m with y := Function.update m.y m.slot v }
  | .pressure _ => m
  | .lift => m
  | .report => m
  | .other => m

/-- What a stream says at its end. -/
def mtOf (ms : List MtRecord) : MtState := ms.foldl MtState.read {}

/-- The records among the reads. -/
def mtRecords (reads : List EvRead) : List MtRecord :=
  reads.filterMap fun
    | .record r => some r.meaning
    | .short => none
    | .again => none
    | .error => none

/-- A slot or a position is between 0 and 65535. -/
def MtRecord.InRange : MtRecord → Prop
  | .slot v => 0 ≤ v.toInt ∧ v.toInt ≤ 65535
  | .x v => 0 ≤ v.toInt ∧ v.toInt ≤ 65535
  | .y v => 0 ≤ v.toInt ∧ v.toInt ≤ 65535
  | .pressure _ => True
  | .lift => True
  | .report => True
  | .other => True

instance : (m : MtRecord) → Decidable m.InRange
  | .slot _ => inferInstanceAs (Decidable (_ ∧ _))
  | .x _ => inferInstanceAs (Decidable (_ ∧ _))
  | .y _ => inferInstanceAs (Decidable (_ ∧ _))
  | .pressure _ => .isTrue trivial
  | .lift => .isTrue trivial
  | .report => .isTrue trivial
  | .other => .isTrue trivial

/-- The event says what the stream says: a move the current slot and where the
finger in it is, a lift the current slot. -/
def InputEvent.Follows (ev : InputEvent) (m : MtState) : Prop :=
  (ev.type = vmcInputTouchMove →
    (ev.slot.toNat : Int) = m.slot.toInt ∧ (ev.x.toNat : Int) = (m.x m.slot).toInt ∧
      (ev.y.toNat : Int) = (m.y m.slot).toInt) ∧
    (ev.type = vmcInputTouchUp → (ev.slot.toNat : Int) = m.slot.toInt)

/-- The event without its time stamp. -/
def InputEvent.untimed (ev : InputEvent) : InputEvent := { ev with tsUs := 0 }

/-! ## the events a stream calls for -/

/-- A stream of records with what it says about the event that comes next:
whether a position has been reported since the last event, and the last pressure
since then. -/
structure TouchStream where
  mt : MtState := {}
  moved : Bool := false
  pressure : Int32 := 0

/-- The variables of a poll that knows all the stream says. -/
def TouchStream.locals (t : TouchStream) : EvdevLocal where
  tx := (t.mt.x t.mt.slot).toUInt32
  ty := (t.mt.y t.mt.slot).toUInt32
  pressure := t.pressure.toUInt32
  slot := t.mt.slot.toUInt32
  haveTx := t.moved

/-- One record further: the stream after it, and the event it calls for. -/
def TouchStream.next (t : TouchStream) (m : MtRecord) : TouchStream × Option InputEvent :=
  match m with
  | .slot v => ({ t with mt := t.mt.read (.slot v) }, none)
  | .x v => ({ t with mt := t.mt.read (.x v), moved := true }, none)
  | .y v => ({ t with mt := t.mt.read (.y v), moved := true }, none)
  | .pressure v => ({ t with pressure := v }, none)
  | .lift => ({ mt := t.mt }, some (t.locals.touchUp 0))
  | .report => if t.moved then ({ mt := t.mt }, some (t.locals.touchMove 0)) else (t, none)
  | .other => (t, none)

/-- The events a stream of records calls for, without time stamps. -/
def TouchStream.events : TouchStream → List MtRecord → List InputEvent
  | _, [] => []
  | t, m :: ms => (t.next m).2.toList ++ events (t.next m).1 ms

def TouchStream.after (t : TouchStream) (ms : List MtRecord) : TouchStream :=
  ms.foldl (fun t m => (t.next m).1) t

@[simp] theorem next_mt (t : TouchStream) (m : MtRecord) : (t.next m).1.mt = t.mt.read m := by
  cases m with
  | report =>
      rw [TouchStream.next]
      split <;> rfl
  | _ => rfl

theorem after_mt (t : TouchStream) (ms : List MtRecord) :
    (t.after ms).mt = ms.foldl MtState.read t.mt := by
  induction ms generalizing t with
  | nil => rfl
  | cons m ms ih =>
      rw [List.foldl_cons, ← next_mt]
      exact ih (t.next m).1

theorem events_append (t : TouchStream) (ms ns : List MtRecord) :
    t.events (ms ++ ns) = t.events ms ++ (t.after ms).events ns := by
  induction ms generalizing t with
  | nil => rfl
  | cons m ms ih =>
      simp only [List.cons_append, TouchStream.events, ih, List.append_assoc]
      rfl

theorem after_append (t : TouchStream) (ms ns : List MtRecord) :
    t.after (ms ++ ns) = (t.after ms).after ns := by
  rw [TouchStream.after, List.foldl_append]
  rfl

/-! ## values in range -/

namespace MtState

/-- Every slot and position of the state is between 0 and 65535. -/
structure InRange (m : MtState) : Prop where
  slot : 0 ≤ m.slot.toInt ∧ m.slot.toInt ≤ 65535
  x : ∀ s, 0 ≤ (m.x s).toInt ∧ (m.x s).toInt ≤ 65535
  y : ∀ s, 0 ≤ (m.y s).toInt ∧ (m.y s).toInt ≤ 65535

theorem inRange_init : InRange {} :=
  have h : 0 ≤ (0 : Int32).toInt ∧ (0 : Int32).toInt ≤ 65535 := by decide
  ⟨h, fun _ => h, fun _ => h⟩

theorem InRange.read {m : MtState} (h : m.InRange) {r : MtRecord} (hr : r.InRange) :
    (m.read r).InRange := by
  cases r with
  | slot v => exact ⟨hr, h.x, h.y⟩
  | x v =>
      refine ⟨h.slot, fun s => ?_, h.y⟩
      by_cases hs : s = m.slot
      · simpa [MtState.read, hs, MtRecord.InRange] using hr
      · simpa [MtState.read, hs] using h.x s
  | y v =>
      refine ⟨h.slot, h.x, fun s => ?_⟩
      by_cases hs : s = m.slot
      · simpa [MtState.read, hs, MtRecord.InRange] using hr
      · simpa [MtState.read, hs] using h.y s
  | _ => exact h

theorem inRange_foldl {ms : List MtRecord} (hms : ∀ r ∈ ms, r.InRange) {m : MtState}
    (h : m.InRange) : (ms.foldl MtState.read m).InRange := by
  induction ms generalizing m with
  | nil => exact h
  | cons r ms ih =>
      exact ih (fun r' hr' => hms r' (by simp [hr'])) (h.read (hms r (by simp)))

end MtState

/-- Both casts keep a value between 0 and 65535. -/
theorem toNat_toUInt16 {v : Int32} (h : 0 ≤ v.toInt ∧ v.toInt ≤ 65535) :
    (v.toUInt32.toUInt16.toNat : Int) = v.toInt := by
  have hv : v.toInt = v.toUInt32.toBitVec.toInt := rfl
  have hlt : v.toUInt32.toNat < 2 ^ 32 := v.toUInt32.toNat_lt
  rw [hv, BitVec.toInt_eq_toNat_cond, UInt32.toNat_toBitVec] at h ⊢
  rw [UInt32.toNat_toUInt16]
  omega

/-- The event a stream calls for says what the stream says. -/
theorem next_follows {t : TouchStream} {m : MtRecord} {ev : InputEvent}
    (h : (t.next m).2 = some ev) (hr : (t.next m).1.mt.InRange) :
    ev.Follows (t.next m).1.mt := by
  cases m with
  | lift =>
      obtain rfl := Option.some.inj h
      exact ⟨fun hm => absurd (show vmcInputTouchUp = vmcInputTouchMove from hm) (by decide),
        fun _ => toNat_toUInt16 hr.slot⟩
  | report =>
      by_cases hmoved : t.moved
      · simp only [TouchStream.next, hmoved, if_true, Option.some.injEq] at h hr ⊢
        obtain rfl := h
        exact ⟨fun _ => ⟨toNat_toUInt16 hr.slot, toNat_toUInt16 (hr.x _), toNat_toUInt16 (hr.y _)⟩,
          fun hu => absurd (show vmcInputTouchMove = vmcInputTouchUp from hu) (by decide)⟩
      · simp [TouchStream.next, hmoved] at h
  | _ => cases h

/-! ## what one poll has read of the stream -/

/-- A stream as it arrives at the polls: all it says, and what the poll that is
under way has read of it: whether a slot and a pressure, and for which slots its
last positions were. -/
structure Arrival where
  stream : TouchStream := {}
  slotSeen : Bool := false
  xFor : Option Int32 := none
  yFor : Option Int32 := none
  pressureSeen : Bool := false

namespace Arrival

/-- The poll has read a position. -/
def posSeen (a : Arrival) : Bool := a.xFor.isSome || a.yFor.isSome

/-- A record is read.  A lift, and a report after a position, end the poll. -/
def readRecord (a : Arrival) (m : MtRecord) : Arrival :=
  match m with
  | .slot v => { a with stream := (a.stream.next (.slot v)).1, slotSeen := true }
  | .x v => { a with stream := (a.stream.next (.x v)).1, xFor := some a.stream.mt.slot }
  | .y v => { a with stream := (a.stream.next (.y v)).1, yFor := some a.stream.mt.slot }
  | .pressure v => { a with stream := (a.stream.next (.pressure v)).1, pressureSeen := true }
  | .lift => { stream := (a.stream.next .lift).1 }
  | .report =>
      if a.posSeen then { stream := (a.stream.next .report).1 }
      else { a with stream := (a.stream.next .report).1 }
  | .other => a

/-- One `read`.  An error ends the poll, `EAGAIN` included. -/
def read (a : Arrival) : EvRead → Arrival
  | .record r => a.readRecord r.meaning
  | .short => a
  | .again => { stream := a.stream }
  | .error => { stream := a.stream }

/-- The poll knows the slot: it has read one, or it is slot 0. -/
def SlotKnown (a : Arrival) : Prop := a.slotSeen ∨ a.stream.mt.slot = 0

/-- The poll knows where the finger is on one axis: its last position there was
for the current slot, or it has read none and the finger is at 0. -/
def AxisKnown (a : Arrival) (seen : Option Int32) (axis : Int32 → Int32) : Prop :=
  seen = some a.stream.mt.slot ∨ seen = none ∧ axis a.stream.mt.slot = 0

/-- The poll knows the pressure since the last event. -/
def PressureKnown (a : Arrival) : Prop := a.pressureSeen ∨ a.stream.pressure = 0

/-- The poll that is under way has read what its next event is about. -/
def ReadyFor (a : Arrival) : MtRecord → Prop
  | .lift => a.SlotKnown
  | .report =>
      a.stream.moved = true → a.posSeen = true ∧ a.SlotKnown ∧ a.AxisKnown a.xFor a.stream.mt.x ∧
        a.AxisKnown a.yFor a.stream.mt.y ∧ a.PressureKnown
  | .slot _ => True
  | .x _ => True
  | .y _ => True
  | .pressure _ => True
  | .other => True

def Ready (a : Arrival) : EvRead → Prop
  | .record r => a.ReadyFor r.meaning
  | .short => True
  | .again => True
  | .error => True

instance (a : Arrival) : Decidable a.SlotKnown := inferInstanceAs (Decidable (_ ∨ _))

instance (a : Arrival) (seen : Option Int32) (axis : Int32 → Int32) :
    Decidable (a.AxisKnown seen axis) := inferInstanceAs (Decidable (_ ∨ _))

instance (a : Arrival) : Decidable a.PressureKnown := inferInstanceAs (Decidable (_ ∨ _))

instance (a : Arrival) : (m : MtRecord) → Decidable (a.ReadyFor m)
  | .lift => inferInstanceAs (Decidable a.SlotKnown)
  | .report => inferInstanceAs (Decidable (_ → _ ∧ _ ∧ _ ∧ _ ∧ _))
  | .slot _ => .isTrue trivial
  | .x _ => .isTrue trivial
  | .y _ => .isTrue trivial
  | .pressure _ => .isTrue trivial
  | .other => .isTrue trivial

instance (a : Arrival) : (rd : EvRead) → Decidable (a.Ready rd)
  | .record r => inferInstanceAs (Decidable (a.ReadyFor r.meaning))
  | .short => .isTrue trivial
  | .again => .isTrue trivial
  | .error => .isTrue trivial

/-- A read as a step of a run. -/
def arrive (a : Arrival) (rd : EvRead) : Option Arrival := some (a.read rd)

theorem along_arrive_cons {a : Arrival} {rd : EvRead} {rds : List EvRead} :
    Run.Along arrive Ready a (rd :: rds) ↔
      a.Ready rd ∧ Run.Along arrive Ready (a.read rd) rds := by
  simp [Run.along_cons, arrive]

/-! ## one record -/

/-- The local variables hold what the poll has read, and zeros for the rest. -/
structure Sim (a : Arrival) (l : EvdevLocal) : Prop where
  slot : l.slot = if a.slotSeen then a.stream.mt.slot.toUInt32 else 0
  tx : l.tx = (a.xFor.elim 0 a.stream.mt.x).toUInt32
  ty : l.ty = (a.yFor.elim 0 a.stream.mt.y).toUInt32
  pressure : l.pressure = if a.pressureSeen then a.stream.pressure.toUInt32 else 0
  haveTx : l.haveTx = a.xFor.isSome
  haveTy : l.haveTy = a.yFor.isSome
  moved : a.posSeen = true → a.stream.moved = true

theorem sim_fresh (t : TouchStream) : Sim { stream := t } {} :=
  ⟨rfl, rfl, rfl, rfl, rfl, rfl, fun h => by cases h⟩

end Arrival

/-- What `evdev_poll` does with a record, by its meaning. -/
def EvdevLocal.take (nowUs : UInt64) (l : EvdevLocal) : MtRecord → InputEvent ⊕ EvdevLocal
  | .slot v => .inr { l with slot := v.toUInt32 }
  | .x v => .inr { l with tx := v.toUInt32, haveTx := true }
  | .y v => .inr { l with ty := v.toUInt32, haveTy := true }
  | .pressure v => .inr { l with pressure := v.toUInt32 }
  | .lift => .inl (l.touchUp nowUs)
  | .report => if l.haveTx || l.haveTy then .inl (l.touchMove nowUs) else .inr l
  | .other => .inr l

theorem evdevRecord_eq_take (nowUs : UInt64) (l : EvdevLocal) (r : EvRecord) :
    evdevRecord nowUs l r = l.take nowUs r.meaning := by
  unfold evdevRecord EvRecord.meaning
  split_ifs <;> simp_all [EvdevLocal.take]

namespace Arrival

variable {a : Arrival} {l : EvdevLocal} {nowUs : UInt64} {m : MtRecord}

theorem Sim.have_iff (h : a.Sim l) : (l.haveTx || l.haveTy) = a.posSeen := by
  rw [h.haveTx, h.haveTy, posSeen]

theorem Sim.slot_of_known (h : a.Sim l) (hk : a.SlotKnown) :
    l.slot = a.stream.mt.slot.toUInt32 := by
  rw [h.slot]
  rcases hk with hk | hk
  · rw [if_pos hk]
  · rw [hk]
    exact ite_self _

theorem Sim.pressure_of_known (h : a.Sim l) (hk : a.PressureKnown) :
    l.pressure = a.stream.pressure.toUInt32 := by
  rw [h.pressure]
  rcases hk with hk | hk
  · rw [if_pos hk]
  · rw [hk]
    exact ite_self _

theorem elim_of_known {seen : Option Int32} {axis : Int32 → Int32} (hk : a.AxisKnown seen axis) :
    seen.elim 0 axis = axis a.stream.mt.slot := by
  rcases hk with rfl | ⟨rfl, hk⟩
  · rfl
  · exact hk.symm

@[simp] theorem readRecord_stream (a : Arrival) (m : MtRecord) :
    (a.readRecord m).stream = (a.stream.next m).1 := by
  cases m with
  | report =>
      rw [readRecord]
      split <;> rfl
  | _ => rfl

/-- A record the poll goes on after calls for no event. -/
theorem Sim.go_on {l' : EvdevLocal} (h : a.Sim l) (hr : a.ReadyFor m)
    (ht : l.take nowUs m = .inr l') :
    (a.stream.next m).2 = none ∧ (a.readRecord m).Sim l' := by
  cases m with
  | slot v =>
      obtain rfl := Sum.inr.inj ht
      exact ⟨rfl, rfl, h.tx, h.ty, h.pressure, h.haveTx, h.haveTy, h.moved⟩
  | x v =>
      obtain rfl := Sum.inr.inj ht
      refine ⟨rfl, h.slot, ?_, h.ty, h.pressure, rfl, h.haveTy, fun _ => rfl⟩
      simp [readRecord, TouchStream.next, MtState.read]
  | y v =>
      obtain rfl := Sum.inr.inj ht
      refine ⟨rfl, h.slot, h.tx, ?_, h.pressure, h.haveTx, rfl, fun _ => rfl⟩
      simp [readRecord, TouchStream.next, MtState.read]
  | pressure v =>
      obtain rfl := Sum.inr.inj ht
      exact ⟨rfl, h.slot, h.tx, h.ty, rfl, h.haveTx, h.haveTy, h.moved⟩
  | lift => cases ht
  | report =>
      rw [EvdevLocal.take, h.have_iff] at ht
      split at ht
      · cases ht
      · -- no position in this poll, so by `ReadyFor` none since the last event
        rename_i hpos
        obtain rfl := Sum.inr.inj ht
        have hmoved : ¬ a.stream.moved = true := fun hm => hpos (hr hm).1
        have hnext : a.stream.next .report = (a.stream, none) := if_neg hmoved
        refine ⟨by rw [hnext], ?_⟩
        rw [readRecord, if_neg hpos, hnext]
        exact h
  | other =>
      obtain rfl := Sum.inr.inj ht
      exact ⟨rfl, h⟩

/-- An event the poll returns is the one the stream calls for. -/
theorem Sim.returns {ev : InputEvent} (h : a.Sim l) (hr : a.ReadyFor m)
    (ht : l.take nowUs m = .inl ev) :
    (a.stream.next m).2 = some ev.untimed ∧ a.readRecord m = { stream := (a.stream.next m).1 } := by
  cases m with
  | lift =>
      obtain rfl := Sum.inl.inj ht
      refine ⟨?_, rfl⟩
      simp only [TouchStream.next, InputEvent.untimed, EvdevLocal.touchUp, h.slot_of_known hr]
      rfl
  | report =>
      rw [EvdevLocal.take, h.have_iff] at ht
      split at ht
      · rename_i hpos
        obtain rfl := Sum.inl.inj ht
        obtain ⟨-, hslot, hx, hy, hp⟩ := hr (h.moved hpos)
        have hnext : a.stream.next .report =
            ({ mt := a.stream.mt }, some (a.stream.locals.touchMove 0)) := if_pos (h.moved hpos)
        refine ⟨?_, by rw [readRecord, if_pos hpos]⟩
        simp only [hnext, InputEvent.untimed, EvdevLocal.touchMove, h.slot_of_known hslot, h.tx,
          h.ty, elim_of_known hx, elim_of_known hy, h.pressure_of_known hp]
        rfl
      · cases ht
  | _ => cases ht

end Arrival

/-! ## one poll, and one after the other -/

/-- The event is the one some record calls for, and `t` the stream after it. -/
def CalledFor (ev : InputEvent) (t : TouchStream) : Prop :=
  ∃ (u : TouchStream) (m : MtRecord), (u.next m).2 = some ev.untimed ∧ (u.next m).1 = t

/-- What the reads `used` of a poll come to: the event is the one the stream
calls for, and unless the reads are at their end the next poll starts with
nothing read. -/
structure PollRight (a : Arrival) (used : List EvRead) (ev : Option InputEvent)
    (rest : List EvRead) : Prop where
  events : a.stream.events (mtRecords used) = (ev.map InputEvent.untimed).toList
  called : ∀ e, ev = some e → CalledFor e (a.stream.after (mtRecords used))
  fresh : rest = [] ∨ used.foldl Arrival.read a = { stream := a.stream.after (mtRecords used) }

section drain

variable {fd : Int} {nowUs : UInt64} {nows : List UInt64} {reads rest : List EvRead}
  {res : Status × Option InputEvent}

theorem evdevDrain_record (l : EvdevLocal) (r : EvRecord) :
    evdevDrain nowUs l (.record r :: reads) =
      (l.take nowUs r.meaning).elim (fun ev => ((.ok, some ev), reads))
        fun l' => evdevDrain nowUs l' reads := by
  rw [evdevDrain, evdevRecord_eq_take]
  cases l.take nowUs r.meaning <;> rfl

/-- A poll reads from the front. -/
theorem evdevDrain_used {l : EvdevLocal} (h : evdevDrain nowUs l reads = (res, rest)) :
    ∃ used, reads = used ++ rest := by
  induction reads generalizing l with
  | nil =>
      cases h
      exact ⟨[], rfl⟩
  | cons rd reads ih =>
      cases rd with
      | record r =>
          rw [evdevDrain_record] at h
          cases ht : l.take nowUs r.meaning with
          | inl ev =>
              rw [ht] at h
              cases h
              exact ⟨[.record r], rfl⟩
          | inr l' =>
              rw [ht] at h
              obtain ⟨used, rfl⟩ := ih h
              exact ⟨.record r :: used, rfl⟩
      | short =>
          obtain ⟨used, rfl⟩ := ih h
          exact ⟨.short :: used, rfl⟩
      | again =>
          cases h
          exact ⟨[.again], rfl⟩
      | error =>
          cases h
          exact ⟨[.error], rfl⟩

/-- A record after which the poll goes on, before the rest of the poll. -/
theorem PollRight.record {a : Arrival} {r : EvRecord} {used : List EvRead} {ev : Option InputEvent}
    (hnone : (a.stream.next r.meaning).2 = none)
    (h : PollRight (a.readRecord r.meaning) used ev rest) :
    PollRight a (.record r :: used) ev rest := by
  obtain ⟨hev, hcall, hfresh⟩ := h
  rw [Arrival.readRecord_stream] at hev hcall hfresh
  refine ⟨?_, hcall, hfresh⟩
  rw [← hev]
  simp [mtRecords, TouchStream.events, hnone]

/-- A record the poll returns an event for. -/
theorem PollRight.returned {a : Arrival} {r : EvRecord} {ev : InputEvent}
    (hnext : (a.stream.next r.meaning).2 = some ev.untimed)
    (hread : a.readRecord r.meaning = { stream := (a.stream.next r.meaning).1 }) :
    PollRight a [.record r] (some ev) rest := by
  refine ⟨?_, fun e he => ?_, .inr hread⟩
  · simp [mtRecords, TouchStream.events, hnext]
  · obtain rfl := Option.some.inj he
    exact ⟨a.stream, r.meaning, hnext, rfl⟩

/-- A short read is passed over. -/
theorem PollRight.short {a : Arrival} {used : List EvRead} {ev : Option InputEvent}
    (h : PollRight a used ev rest) : PollRight a (.short :: used) ev rest :=
  ⟨h.events, h.called, h.fresh⟩

/-- A poll that ends without an event. -/
theorem PollRight.idle {a : Arrival} {used : List EvRead} (hused : mtRecords used = [])
    (hfresh : rest = [] ∨ used.foldl Arrival.read a = { stream := a.stream }) :
    PollRight a used none rest := by
  refine ⟨?_, fun e he => absurd he (by simp), ?_⟩
  · rw [hused]
    rfl
  · rw [hused]
    exact hfresh

/-- **One poll**: from locals that hold what it has read, it returns what the
stream calls for, as long as it has read what that is about. -/
theorem evdevDrain_right {l : EvdevLocal} {a : Arrival} (hsim : a.Sim l)
    (h : evdevDrain nowUs l reads = (res, rest)) :
    ∃ used, reads = used ++ rest ∧
      (Run.Along Arrival.arrive Arrival.Ready a used → PollRight a used res.2 rest) := by
  induction reads generalizing l a with
  | nil =>
      cases h
      exact ⟨[], rfl, fun _ => PollRight.idle rfl (.inl rfl)⟩
  | cons rd reads ih =>
      cases rd with
      | record r =>
          rw [evdevDrain_record] at h
          cases ht : l.take nowUs r.meaning with
          | inl ev =>
              rw [ht] at h
              cases h
              refine ⟨[.record r], rfl, fun hal => ?_⟩
              obtain ⟨hnext, hread⟩ := hsim.returns (Arrival.along_arrive_cons.mp hal).1 ht
              exact PollRight.returned hnext hread
          | inr l' =>
              rw [ht] at h
              by_cases hr : a.ReadyFor r.meaning
              · obtain ⟨hnone, hsim'⟩ := hsim.go_on hr ht
                obtain ⟨used, rfl, hright⟩ := ih hsim' h
                exact ⟨.record r :: used, rfl,
                  fun hal => (hright (Arrival.along_arrive_cons.mp hal).2).record hnone⟩
              · obtain ⟨used, rfl⟩ := evdevDrain_used h
                exact ⟨.record r :: used, rfl,
                  fun hal => absurd (Arrival.along_arrive_cons.mp hal).1 hr⟩
      | short =>
          obtain ⟨used, rfl, hright⟩ := ih hsim h
          exact ⟨.short :: used, rfl,
            fun hal => (hright (Arrival.along_arrive_cons.mp hal).2).short⟩
      | again =>
          cases h
          exact ⟨[.again], rfl, fun _ => PollRight.idle rfl (.inr rfl)⟩
      | error =>
          cases h
          exact ⟨[.error], rfl, fun _ => PollRight.idle rfl (.inr rfl)⟩

@[simp] theorem evdevPolls_nil (fd : Int) (nows : List UInt64) :
    evdevPolls fd nows [] = ([], []) := by
  induction nows with
  | nil => rfl
  | cons nowUs nows ih =>
      have hpoll : (evdevPoll fd nowUs []).1.2 = none ∧ (evdevPoll fd nowUs []).2 = [] := by
        rw [evdevPoll]
        split <;> exact ⟨rfl, rfl⟩
      simp [evdevPolls, hpoll, ih]

theorem evdevPoll_right (t : TouchStream) (h : evdevPoll fd nowUs reads = (res, rest)) :
    ∃ used, reads = used ++ rest ∧ (Run.Along Arrival.arrive Arrival.Ready { stream := t } used →
      PollRight { stream := t } used res.2 rest) := by
  rw [evdevPoll] at h
  split at h
  · cases h
    exact ⟨[], rfl, fun _ => PollRight.idle rfl (.inr rfl)⟩
  · exact evdevDrain_right (Arrival.sim_fresh t) h

theorem mtRecords_append (rs rs' : List EvRead) :
    mtRecords (rs ++ rs') = mtRecords rs ++ mtRecords rs' :=
  List.filterMap_append

/-- The reads of the later polls meet the condition from a fresh start. -/
theorem PollRight.along_rest {t : TouchStream} {used used' : List EvRead}
    {ev : Option InputEvent} (h : PollRight { stream := t } used ev (used' ++ rest))
    (hal : Run.Along Arrival.arrive Arrival.Ready { stream := t } (used ++ used')) :
    Run.Along Arrival.arrive Arrival.Ready { stream := t.after (mtRecords used) } used' := by
  rcases h.fresh with hnil | hfresh
  · rw [(List.append_eq_nil_iff.mp hnil).1]
    trivial
  · have hexec := Run.exec_total Arrival.read { stream := t } used
    rw [hfresh] at hexec
    exact (Run.along_append.mp hal).2 _ hexec

/-- **Polls**: as long as every poll has read what its event is about, the
events are those the stream calls for. -/
theorem evdevPolls_right {t : TouchStream} {evs : List (InputEvent × List EvRead)}
    (h : evdevPolls fd nows reads = (evs, rest)) :
    ∃ used, reads = used ++ rest ∧
      (Run.Along Arrival.arrive Arrival.Ready { stream := t } used →
        t.events (mtRecords used) = evs.map (fun e => e.1.untimed) ∧
        ∀ e ∈ evs, ∃ pre, reads = pre ++ e.2 ∧ pre <+: used ∧
          CalledFor e.1 (t.after (mtRecords pre))) := by
  induction nows generalizing reads t evs with
  | nil =>
      cases h
      exact ⟨[], rfl, fun _ => ⟨rfl, fun e he => absurd he (by simp)⟩⟩
  | cons nowUs nows ih =>
      obtain ⟨⟨res, mid⟩, hpoll⟩ : ∃ p, evdevPoll fd nowUs reads = p := ⟨_, rfl⟩
      obtain ⟨⟨evs', rest'⟩, hpolls⟩ : ∃ p, evdevPolls fd nows mid = p := ⟨_, rfl⟩
      rw [evdevPolls, hpoll] at h
      simp only [hpolls, Prod.mk.injEq] at h
      obtain ⟨rfl, rfl⟩ := h
      obtain ⟨used, rfl, hright⟩ := evdevPoll_right t hpoll
      obtain ⟨used', rfl, hrights⟩ := @ih mid (t.after (mtRecords used)) evs' hpolls
      refine ⟨used ++ used', (List.append_assoc ..).symm, fun hal => ?_⟩
      have hfirst := hright (Run.along_append.mp hal).1
      obtain ⟨hevs, hcalls⟩ := hrights (hfirst.along_rest hal)
      constructor
      · rw [mtRecords_append, events_append, hevs, hfirst.events]
        cases res.2 <;> rfl
      · intro e he
        rcases List.mem_append.mp he with he | he
        · obtain ⟨ev, hev, rfl⟩ := Option.map_eq_some_iff.mp (Option.mem_toList.mp he)
          exact ⟨used, rfl, List.prefix_append .., hfirst.called ev hev⟩
        · obtain ⟨pre, hpre, hle, hcall⟩ := hcalls e he
          refine ⟨used ++ pre, ?_, (List.prefix_append_right_inj used).mpr hle, ?_⟩
          · rw [List.append_assoc, ← hpre]
          · rw [mtRecords_append, after_append]
            exact hcall

end drain

/-! ## the events of a run -/

/-- Each event says what the stream said when it was returned. -/
def EventsFollow (reads : List EvRead) (evs : List (InputEvent × List EvRead)) : Prop :=
  ∀ e ∈ evs, ∃ pre, reads = pre ++ e.2 ∧ e.1.Follows (mtOf (mtRecords pre))

/-- The events without their time stamps. -/
def untimedEvents (evs : List (InputEvent × List EvRead)) : List InputEvent :=
  evs.map fun e => e.1.untimed

/-- Every poll has read what its events are about: at a lift the slot, at a
report after a position the slot, the position on both axes and the pressure. -/
def PolledWhole (used : List EvRead) : Prop :=
  Run.Along Arrival.arrive Arrival.Ready {} used

instance (used : List EvRead) : Decidable (PolledWhole used) :=
  inferInstanceAs (Decidable (Run.Along _ _ _ _))

/-- **Touch events**: where every poll has read what its events are about, each
event says what the stream says, and the events are the same for every other
such arrival of the same records. -/
theorem touch_events_follow_stream {fd : Int} {nows : List UInt64} {used rest : List EvRead}
    {evs : List (InputEvent × List EvRead)}
    (hpolls : evdevPolls fd nows (used ++ rest) = (evs, rest))
    (hvals : ∀ m ∈ mtRecords used, m.InRange) (hwhole : PolledWhole used) :
    EventsFollow (used ++ rest) evs ∧
      ∀ (fd' : Int) (nows' : List UInt64) (used' rest' : List EvRead)
        (evs' : List (InputEvent × List EvRead)),
        evdevPolls fd' nows' (used' ++ rest') = (evs', rest') →
          mtRecords used' = mtRecords used → PolledWhole used' →
            untimedEvents evs' = untimedEvents evs := by
  obtain ⟨u, hu, hright⟩ := @evdevPolls_right fd nows (used ++ rest) rest {} evs hpolls
  obtain rfl := List.append_cancel_right hu
  obtain ⟨hevs, hcalls⟩ := hright hwhole
  constructor
  · intro e he
    obtain ⟨pre, hpre, hle, v, m, hnext, hafter⟩ := hcalls e he
    have hmt : (v.next m).1.mt = mtOf (mtRecords pre) := by
      rw [hafter, after_mt]
      rfl
    have hrange : (mtOf (mtRecords pre)).InRange := by
      refine MtState.inRange_foldl (fun r hr => hvals r ?_) MtState.inRange_init
      exact (hle.filterMap _).subset hr
    refine ⟨pre, hpre, ?_⟩
    have hfollows : e.1.untimed.Follows (v.next m).1.mt := next_follows hnext (hmt ▸ hrange)
    rw [hmt] at hfollows
    exact hfollows
  · intro fd' nows' used' rest' evs' hpolls' hsame hwhole'
    obtain ⟨u', hu', hright'⟩ := @evdevPolls_right fd' nows' (used' ++ rest') rest' {} evs' hpolls'
    obtain rfl := List.append_cancel_right hu'
    rw [untimedEvents, untimedEvents, ← hevs, ← (hright' hwhole').1, hsame]

/-- Two fingers, a report for each; the second is cut off from the first. -/
def twoFingers : List EvRead :=
  [.record ⟨evAbs, absMtSlot, 0⟩, .record ⟨evAbs, absMtPositionX, 10⟩,
    .record ⟨evAbs, absMtPositionY, 20⟩, .record ⟨evSyn, synReport, 0⟩, .again,
    .record ⟨evAbs, absMtSlot, 1⟩, .record ⟨evAbs, absMtPositionX, 300⟩,
    .record ⟨evAbs, absMtPositionY, 400⟩, .record ⟨evAbs, absMtPressure, 50⟩,
    .record ⟨evSyn, synReport, 0⟩]

theorem touch_events_follow_stream_twoFingers :
    (evdevPolls 3 [1, 2, 3] twoFingers).1.map (fun e => (e.1.slot, e.1.x, e.1.y, e.1.pressure)) =
      [(0, 10, 20, 0), (1, 300, 400, 50)] ∧
      EventsFollow twoFingers (evdevPolls 3 [1, 2, 3] twoFingers).1 ∧
      untimedEvents (evdevPolls 3 [7, 8] (twoFingers.filter (· ≠ .again))).1 =
        untimedEvents (evdevPolls 3 [1, 2, 3] twoFingers).1 := by
  have h := @touch_events_follow_stream 3 [1, 2, 3] twoFingers [] _ rfl (by decide) (by decide)
  rw [List.append_nil] at h
  refine ⟨by decide, h.1, ?_⟩
  exact h.2 3 [7, 8] (twoFingers.filter (· ≠ .again)) [] _ rfl (by decide) (by decide)

/-- Whatever the reads, each event says what the stream says, and the events do
not depend on where the reads are cut. -/
def TouchEventsFollow : Prop :=
  ∀ (fd : Int) (nows : List UInt64) (used rest : List EvRead)
    (evs : List (InputEvent × List EvRead)),
    evdevPolls fd nows (used ++ rest) = (evs, rest) → (∀ m ∈ mtRecords used, m.InRange) →
      EventsFollow (used ++ rest) evs ∧
        ∀ (fd' : Int) (nows' : List UInt64) (used' rest' : List EvRead)
          (evs' : List (InputEvent × List EvRead)),
          evdevPolls fd' nows' (used' ++ rest') = (evs', rest') →
            mtRecords used' = mtRecords used → untimedEvents evs' = untimedEvents evs

/-- A finger in slot 1 that then moves along the x axis only. -/
def oneAxisMove : List EvRead :=
  [.record ⟨evAbs, absMtSlot, 1⟩, .record ⟨evAbs, absMtPositionX, 10⟩,
    .record ⟨evAbs, absMtPositionY, 20⟩, .record ⟨evSyn, synReport, 0⟩,
    .record ⟨evAbs, absMtPositionX, 11⟩, .record ⟨evSyn, synReport, 0⟩]

/-- The second event names slot 0, `y` 0. -/
theorem touchEventsFollow_fails : ¬ TouchEventsFollow := by
  intro h
  obtain ⟨hfollow, -⟩ := h 3 [1, 2] oneAxisMove [] _ rfl (by decide)
  obtain ⟨pre, hpre, hev⟩ := hfollow
    (⟨vmcInputTouchMove, 0, 11, 0, 0, 0, 2⟩, []) (by decide)
  rw [List.append_nil, List.append_nil] at hpre
  obtain rfl := hpre
  exact absurd (hev.1 rfl).1 (by decide)

end Vmc
