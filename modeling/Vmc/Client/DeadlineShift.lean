import Vmc.Client.AvTimeline
import Vmc.Client.FrameSlots
import Vmc.Client.PresentQueue

/-!
# Vmc.Client.DeadlineShift

Stored deadlines and the resync of audio start (`dash_au_deadline`,
`dash_resync`, `decode_worker` and `audio_worker` in
`apps/thinclient/main.c`).

Deadlines are scheduled from a provisional anchor until audio starts; then
`dash_resync` shifts those in the frame slots and, in a second critical
section, those in the present queue.  The reader may publish and the decode
worker may move frames between the two passes, and a frame the decode worker
has in hand is in neither place: a deadline may be shifted once, twice or never.
`stored_deadline_iff` says when it ends up as the one that would be computed
afresh.
-/

namespace Vmc

/-! ## deadlines -/

/-- The frame period deadlines are spaced by. -/
def framePeriodUs (t : AvTimeline) : Int :=
  if t.streamFps > 0 then 1000000 / t.streamFps else 1000000 / 24

/-- Where a frame lies behind the anchor. -/
def frameOffsetUs (t : AvTimeline) (seg : Int) (k : Nat) : Int :=
  let segOff := (seg - t.anchorSeg) * t.segDurationUs
  (if segOff < 0 then 0 else segOff) + k * framePeriodUs t

/-- `dash_au_deadline`. -/
def dashAuDeadline (t : AvTimeline) (seg : Int) (k : Nat) : Int :=
  let d :=
    if t.audioStartWallUs = 0 then t.anchorWallUs + playoutLatencyUs
    else t.audioStartWallUs + t.audioDelayUs - playoutLatencyUs
  let d := d + (frameOffsetUs t seg k + t.timelineAdjUs)
  if d < 0 then 0 else d

/-- The part of `dash_resync` under the anchor mutex. -/
def resyncAnchor (t : AvTimeline) (nextSeg wallNowUs : Int) : AvTimeline :=
  let anchorUs :=
    if t.audioStartWallUs ≠ 0 then
      let delay := if t.audioDelayUs ≠ 0 then t.audioDelayUs else audioPrefillUs
      t.audioStartWallUs + delay - playoutLatencyUs
    else wallNowUs + audioPrefillUs - playoutLatencyUs
  { t with anchorWallUs := anchorUs, anchorSeg := nextSeg, timelineAdjUs := 0 }

/-! ## data model -/

/-- A frame with a deadline computed for it.  The flags are not in the program:
`early` says that the deadline was computed before audio started, the other two
which passes of `dash_resync` went over this copy of it. -/
structure QueuedFrame where
  seg : Int
  k : Nat
  deadlineUs : Int
  early : Bool
  slotPass : Bool
  queuePass : Bool
deriving DecidableEq, Repr

/-- What `dash_resync` makes of one deadline. -/
def shiftedUs (deltaUs deadlineUs : Int) : Int :=
  let d := deadlineUs + deltaUs
  if d < 0 then 0 else d

def QueuedFrame.slotShift (deltaUs : Int) (f : QueuedFrame) : QueuedFrame :=
  { f with deadlineUs := shiftedUs deltaUs f.deadlineUs, slotPass := true }

/-- The pass over the present queue leaves deadline 0 alone. -/
def QueuedFrame.queueShift (deltaUs : Int) (f : QueuedFrame) : QueuedFrame :=
  if f.deadlineUs ≠ 0 then
    { f with deadlineUs := shiftedUs deltaUs f.deadlineUs, queuePass := true }
  else f

/-- A slot that holds a frame: READY, or DECODING. -/
structure TimedSlot where
  frame : QueuedFrame
  decoding : Bool
deriving DecidableEq, Repr

/-- Where the decode worker is, with the deadline it copied out of the slot it
selected. -/
inductive DecodeAt where
  | selecting
  | holding (slot : Nat) (frame : QueuedFrame)
  /-- In `present_push` of the pending frame: the slot is released already. -/
  | pushing (frame : QueuedFrame) (ev : Bool)
deriving DecidableEq, Repr

/-- Where the audio worker is in starting up. -/
inductive AudioPhase where
  | waiting
  | started
  | anchored (oldWallUs : Int) (oldSeg : Int)
  | slotsShifted (oldWallUs : Int) (oldSeg : Int)
  | done
deriving DecidableEq, Repr

/-- The reader, both workers and the places a deadline is kept in.  `pending`
is the frame behind `g_pending_deadline_us` while `g_pending_ev` is set. -/
structure StartUp where
  useDrm : Bool
  t : AvTimeline
  phase : AudioPhase
  firstVideoReady : Bool
  reader : Option QueuedFrame
  slots : List TimedSlot
  worker : DecodeAt
  pending : Option QueuedFrame
  queue : List QueuedFrame
deriving DecidableEq

/-! ## steps -/

/-- Whether `dash_resync` shifts stored deadlines: there was an anchor, its
segment did not change and its time did. -/
def shifts (t : AvTimeline) (oldWallUs oldSeg : Int) : Bool :=
  oldWallUs ≠ 0 ∧ oldSeg = t.anchorSeg ∧ t.anchorWallUs - oldWallUs ≠ 0

/-- The pass over the frame slots that are not free. -/
def shiftSlots (t : AvTimeline) (oldWallUs oldSeg : Int) (slots : List TimedSlot) :
    List TimedSlot :=
  if shifts t oldWallUs oldSeg then
    slots.map fun sl => { sl with frame := sl.frame.slotShift (t.anchorWallUs - oldWallUs) }
  else slots

/-- The pass over the present queue. -/
def shiftQueue (t : AvTimeline) (oldWallUs oldSeg : Int) (fs : List QueuedFrame) :
    List QueuedFrame :=
  if shifts t oldWallUs oldSeg then fs.map (·.queueShift (t.anchorWallUs - oldWallUs)) else fs

/-- The frame of slot `i`, if the decode worker may select it: it is READY and
none that is READY is due earlier.  Which of several equal ones comes first
depends on where in the array the reader found room. -/
def soonest (slots : List TimedSlot) (i : Nat) : Option QueuedFrame :=
  match slots[i]? with
  | some ⟨f, false⟩ =>
      if ∀ sl ∈ slots, sl.decoding = false → f.deadlineUs ≤ sl.frame.deadlineUs then some f
      else none
  | _ => none

/-- The steps of start-up. -/
inductive StartOp where
  /-- The reader calls `dash_au_deadline`. -/
  | compute (seg : Int) (k : Nat)
  /-- The reader publishes the frame it computed the deadline of. -/
  | publish
  /-- That frame does not fit a slot. -/
  | drop
  /-- The decode worker selects a slot and marks it DECODING. -/
  | take (i : Nat)
  /-- The frame could not be decoded, or no DRM buffer was free for it. -/
  | release
  /-- The frame was shown on the framebuffer. -/
  | shown
  /-- Its conversion into a DRM buffer was started; `ev` is whether that gave
  an event. -/
  | converted (ev : Bool)
  /-- `present_push` finds room for the pending frame. -/
  | push
  /-- The present worker takes an entry. -/
  | pop
  /-- The audio worker notes when playback began and the sink's delay. -/
  | audioStart (wallUs delayUs : Int)
  /-- The audio worker's `dash_resync`, under the anchor mutex. -/
  | anchor (wallNowUs : Int)
  /-- The pass over the frame slots. -/
  | shiftSlots
  /-- The pass over the present queue. -/
  | shiftQueue
deriving DecidableEq, Repr

/-- One step; `none` if the thread is not at it. -/
def startStep (s : StartUp) : StartOp → Option StartUp
  | .compute seg k =>
      match s.reader with
      | none => some { s with
          reader := some ⟨seg, k, dashAuDeadline s.t seg k, s.phase = .waiting, false, false⟩ }
      | some _ => none
  | .publish =>
      match s.reader with
      | some f =>
          if s.slots.length < vmcFrameSlots then
            some { s with reader := none, slots := s.slots ++ [⟨f, false⟩] }
          else none
      | none => none
  | .drop =>
      match s.reader with
      | some _ => some { s with reader := none }
      | none => none
  | .take i =>
      match s.worker, soonest s.slots i with
      | .selecting, some f => some { s with
          slots := s.slots.set i ⟨f, true⟩
          worker := .holding i f }
      | _, _ => none
  | .release =>
      match s.worker with
      | .holding i _ => some { s with slots := s.slots.eraseIdx i, worker := .selecting }
      | _ => none
  | .shown =>
      match s.useDrm, s.worker with
      | false, .holding i _ => some { s with
          slots := s.slots.eraseIdx i
          worker := .selecting
          firstVideoReady := true }
      | _, _ => none
  | .converted ev =>
      match s.useDrm, s.worker, s.pending with
      -- without a pending event the frame becomes pending and keeps its slot
      | true, .holding _ f, none => some { s with
          worker := .selecting
          pending := if ev then some f else none }
      | true, .holding i f, some _ => some { s with
          slots := s.slots.eraseIdx i
          worker := .pushing f ev }
      | _, _, _ => none
  | .push =>
      match s.worker, s.pending with
      | .pushing f ev, some p =>
          if s.queue.length < vmcPresentQueueSize then
            some { s with
              queue := s.queue ++ [p]
              firstVideoReady := true
              worker := .selecting
              pending := if ev then some f else none }
          else none
      | _, _ => none
  | .pop =>
      match s.queue with
      | _ :: fs => some { s with queue := fs }
      | [] => none
  | .audioStart wallUs delayUs =>
      match s.phase with
      | .waiting =>
          if s.firstVideoReady ∧ 0 < wallUs ∧ 0 < delayUs then
            some { s with
              t := { s.t with audioStartWallUs := wallUs, audioDelayUs := delayUs }
              phase := .started }
          else none
      | _ => none
  | .anchor wallNowUs =>
      match s.phase with
      | .started =>
          if s.t.anchorSeg ≠ 0 then
            some { s with
              t := resyncAnchor s.t s.t.anchorSeg wallNowUs
              phase := .anchored s.t.anchorWallUs s.t.anchorSeg }
          else some { s with phase := .done }
      | _ => none
  | .shiftSlots =>
      match s.phase with
      | .anchored w seg => some { s with
          slots := shiftSlots s.t w seg s.slots
          phase := .slotsShifted w seg }
      | _ => none
  | .shiftQueue =>
      match s.phase with
      | .slotsShifted w seg => some { s with
          queue := shiftQueue s.t w seg s.queue
          phase := .done }
      | _ => none

/-- Start-up begins with a provisional anchor on segment `seg`, set by a
`dash_resync` at `wallUs` before any audio. -/
def StartUp.init (useDrm : Bool) (fps segDurationUs seg wallUs : Int) : StartUp :=
  ⟨useDrm, resyncAnchor ⟨fps, segDurationUs, 0, 0, 0, 0, 0⟩ seg wallUs, .waiting, false, none, [],
    .selecting, none, []⟩

/-- The frames whose deadline is stored in a slot or in the present queue. -/
def StartUp.stored (s : StartUp) : List QueuedFrame := s.slots.map (·.frame) ++ s.queue

/-- The frames the decode worker has a copy of. -/
@[grind] def DecodeAt.frames : DecodeAt → List QueuedFrame
  | selecting => []
  | holding _ f => [f]
  | pushing f _ => [f]

/-- Every copy of a deadline. -/
def StartUp.frames (s : StartUp) : List QueuedFrame :=
  s.reader.toList ++ s.worker.frames ++ s.pending.toList ++ s.stored

/-- The promise: once `dash_resync` is through, every deadline computed before
audio started is the one that would be computed now. -/
def ShiftAgrees : Prop :=
  ∀ (useDrm : Bool) (fps segDurationUs seg wallUs : Int) (ops : List StartOp) (s : StartUp),
    seg ≠ 0 → 0 ≤ wallUs →
    Run.exec startStep (.init useDrm fps segDurationUs seg wallUs) ops = some s →
    s.phase = .done → ∀ f ∈ s.stored, f.early = true →
      f.deadlineUs = dashAuDeadline s.t f.seg f.k

/-- The first frame is on the framebuffer, the second waits in its slot when
audio starts. -/
def secondFrameRun : List StartOp :=
  [.compute 1 0, .publish, .take 0, .shown, .compute 1 1, .publish, .audioStart 2000000 250000,
    .anchor 2000000, .shiftSlots, .shiftQueue]

/-- Its deadline ends up one playout latency too late. -/
theorem shiftAgrees_fails : ¬ ShiftAgrees := by
  intro h
  have hrun : Run.exec startStep (.init false 60 1000000 1 1000000) secondFrameRun =
      some ⟨false, ⟨60, 1000000, 2165000, 1, 0, 2000000, 250000⟩, .done, true, none,
        [⟨⟨1, 1, 2266666, true, true, false⟩, false⟩], .selecting, none, []⟩ := by
    decide
  have hf := h _ _ _ _ _ _ _ (by decide) (by decide) hrun rfl _ (List.mem_singleton.mpr rfl) rfl
  revert hf
  decide

/-! ## what a step can do -/

/-- A step of the reader or of a worker that carries frames from place to
place. -/
structure StartUp.Moves (s s' : StartUp) : Prop where
  t : s'.t = s.t
  phase : s'.phase = s.phase
  frames : ∀ f ∈ s'.frames, f ∈ s.frames

/-- What a step does, where it is possible. -/
def StartOp.Effect (s s' : StartUp) : StartOp → Prop
  | compute seg k => s' = { s with
      reader := some ⟨seg, k, dashAuDeadline s.t seg k, s.phase = .waiting, false, false⟩ }
  | audioStart wallUs delayUs => s.phase = .waiting ∧ 0 < wallUs ∧ 0 < delayUs ∧ s' = { s with
      t := { s.t with audioStartWallUs := wallUs, audioDelayUs := delayUs }
      phase := .started }
  | anchor wallNowUs => s.phase = .started ∧
      ((s.t.anchorSeg ≠ 0 ∧ s' = { s with
          t := resyncAnchor s.t s.t.anchorSeg wallNowUs
          phase := .anchored s.t.anchorWallUs s.t.anchorSeg }) ∨
        (s.t.anchorSeg = 0 ∧ s' = { s with phase := .done }))
  | shiftSlots => ∃ w seg, s.phase = .anchored w seg ∧ s' = { s with
      slots := Vmc.shiftSlots s.t w seg s.slots
      phase := .slotsShifted w seg }
  | shiftQueue => ∃ w seg, s.phase = .slotsShifted w seg ∧ s' = { s with
      queue := Vmc.shiftQueue s.t w seg s.queue
      phase := .done }
  | _ => s.Moves s'

@[grind =] theorem StartUp.mem_frames {s : StartUp} {f : QueuedFrame} :
    f ∈ s.frames ↔ s.reader = some f ∨ f ∈ s.worker.frames ∨ s.pending = some f ∨
      (∃ sl ∈ s.slots, sl.frame = f) ∨ f ∈ s.queue := by
  simp only [frames, stored, List.mem_append, Option.mem_toList, List.mem_map,
    or_assoc]

theorem soonest_mem {slots : List TimedSlot} {i : Nat} {f : QueuedFrame}
    (h : soonest slots i = some f) : ⟨f, false⟩ ∈ slots := by
  unfold soonest at h
  split at h
  · next g hg =>
      split at h
      · obtain rfl := Option.some.inj h
        exact List.mem_of_getElem? hg
      · contradiction
  · contradiction

/-- Marking the selected slot keeps its frame. -/
theorem mem_of_mem_mark {slots : List TimedSlot} {i : Nat} {f : QueuedFrame} {b : Bool}
    {sl : TimedSlot} (h : soonest slots i = some f) (hsl : sl ∈ slots.set i ⟨f, b⟩) :
    ∃ sl' ∈ slots, sl'.frame = sl.frame := by
  obtain hsl | rfl := List.mem_or_eq_of_mem_set hsl
  · exact ⟨sl, hsl, rfl⟩
  · exact ⟨_, soonest_mem h, rfl⟩

/-- All a step can do; the invariant below is derived from this. -/
theorem effect_of_startStep {s s' : StartUp} {op : StartOp} (h : startStep s op = some s') :
    op.Effect s s' := by
  cases op with
  | compute seg k =>
      cases hr : s.reader with
      | none =>
          simp only [startStep, hr] at h
          exact (Option.some.inj h).symm
      | some f => simp [startStep, hr] at h
  | publish =>
      simp only [startStep] at h
      split at h
      · next f hr =>
        split at h
        · obtain rfl := Option.some.inj h
          exact ⟨rfl, rfl, fun g hg => by grind⟩
        · contradiction
      · contradiction
  | drop =>
      simp only [startStep] at h
      split at h
      · obtain rfl := Option.some.inj h
        exact ⟨rfl, rfl, fun g hg => by grind⟩
      · contradiction
  | take i =>
      simp only [startStep] at h
      split at h
      · next f hw hi =>
        obtain rfl := Option.some.inj h
        have hmem := soonest_mem hi
        have hmark : ∀ sl ∈ s.slots.set i ⟨f, true⟩, ∃ sl' ∈ s.slots, sl'.frame = sl.frame :=
          fun sl => mem_of_mem_mark hi
        exact ⟨rfl, rfl, fun g hg => by grind⟩
      · contradiction
  | release =>
      simp only [startStep] at h
      split at h
      · obtain rfl := Option.some.inj h
        exact ⟨rfl, rfl, fun g hg => by grind [List.mem_of_mem_eraseIdx]⟩
      · contradiction
  | shown =>
      simp only [startStep] at h
      split at h
      · obtain rfl := Option.some.inj h
        exact ⟨rfl, rfl, fun g hg => by grind [List.mem_of_mem_eraseIdx]⟩
      · contradiction
  | converted ev =>
      simp only [startStep] at h
      split at h
      · obtain rfl := Option.some.inj h
        exact ⟨rfl, rfl, fun g hg => by grind [List.mem_of_mem_eraseIdx]⟩
      · obtain rfl := Option.some.inj h
        exact ⟨rfl, rfl, fun g hg => by grind [List.mem_of_mem_eraseIdx]⟩
      · contradiction
  | push =>
      simp only [startStep] at h
      split at h
      · split at h
        · obtain rfl := Option.some.inj h
          exact ⟨rfl, rfl, fun g hg => by grind⟩
        · contradiction
      · contradiction
  | pop =>
      simp only [startStep] at h
      split at h
      · obtain rfl := Option.some.inj h
        exact ⟨rfl, rfl, fun g hg => by grind⟩
      · contradiction
  | audioStart wallUs delayUs =>
      simp only [startStep] at h
      split at h
      · next hphase =>
        split at h
        · next hready => exact ⟨hphase, hready.2.1, hready.2.2, (Option.some.inj h).symm⟩
        · contradiction
      · contradiction
  | anchor wallNowUs =>
      simp only [startStep] at h
      split at h
      · next hphase =>
        split at h
        · next hseg => exact ⟨hphase, .inl ⟨hseg, (Option.some.inj h).symm⟩⟩
        · next hseg => exact ⟨hphase, .inr ⟨not_not.mp hseg, (Option.some.inj h).symm⟩⟩
      · contradiction
  | shiftSlots =>
      simp only [startStep] at h
      split at h
      · next w seg hphase => exact ⟨w, seg, hphase, (Option.some.inj h).symm⟩
      · contradiction
  | shiftQueue =>
      simp only [startStep] at h
      split at h
      · next w seg hphase => exact ⟨w, seg, hphase, (Option.some.inj h).symm⟩
      · contradiction

/-! ## what the passes do to a deadline -/

theorem frameOffset_nonneg (t : AvTimeline) (seg : Int) (k : Nat) : 0 ≤ frameOffsetUs t seg k := by
  have hperiod : 0 ≤ framePeriodUs t := by
    unfold framePeriodUs
    split
    · exact Int.ediv_nonneg (by omega) (by omega)
    · decide
  have hk : 0 ≤ (k : Int) * framePeriodUs t := mul_nonneg (by omega) hperiod
  simp only [frameOffsetUs]
  split <;> omega

/-- Where the passes take a deadline computed from the provisional anchor of
`t0`, once audio is heard from `heardUs` on. -/
def QueuedFrame.scheduledUs (t0 : AvTimeline) (heardUs : Int) (f : QueuedFrame) : Int :=
  let offsetUs := frameOffsetUs t0 f.seg f.k
  match f.slotPass, f.queuePass with
  | false, false => t0.anchorWallUs + playoutLatencyUs + offsetUs
  | true, true => max 0 (2 * heardUs - playoutLatencyUs - t0.anchorWallUs + offsetUs)
  | _, _ => heardUs + offsetUs

/-- The deadline of an early frame is the one its passes took it to. -/
def QueuedFrame.OnSchedule (t0 : AvTimeline) (heardUs : Int) (f : QueuedFrame) : Prop :=
  f.early = true → f.deadlineUs = f.scheduledUs t0 heardUs

/-- Which passes a frame may have gone through in a phase of start-up. -/
def AudioPhase.Allows : AudioPhase → QueuedFrame → Prop
  | slotsShifted _ _, f => f.queuePass = false
  | done, _ => True
  | _, f => f.slotPass = false ∧ f.queuePass = false

/-- The anchor moves to the time the first audio is heard, less the playout
latency; one pass takes a deadline to that time. -/
theorem onSchedule_slotShift {t0 : AvTimeline} {heardUs : Int} (hheard : 0 < heardUs)
    {f : QueuedFrame} (hf : f.OnSchedule t0 heardUs) (hslot : f.slotPass = false)
    (hqueue : f.queuePass = false) :
    (f.slotShift (heardUs - playoutLatencyUs - t0.anchorWallUs)).OnSchedule t0 heardUs := by
  intro hearly
  have hd := hf hearly
  have hoff := frameOffset_nonneg t0 f.seg f.k
  simp only [QueuedFrame.scheduledUs, hslot, hqueue] at hd
  simp only [QueuedFrame.slotShift, QueuedFrame.scheduledUs, shiftedUs, hqueue, hd]
  split <;> omega

theorem onSchedule_queueShift {t0 : AvTimeline} {heardUs : Int} (hheard : 0 < heardUs)
    {f : QueuedFrame} (hf : f.OnSchedule t0 heardUs) (hqueue : f.queuePass = false) :
    (f.queueShift (heardUs - playoutLatencyUs - t0.anchorWallUs)).OnSchedule t0 heardUs := by
  have hoff := frameOffset_nonneg t0 f.seg f.k
  unfold QueuedFrame.queueShift
  split
  · intro hearly
    have hd := hf hearly
    simp only [QueuedFrame.scheduledUs, hqueue] at hd
    cases hslot : f.slotPass with
    | false =>
        simp only [hslot] at hd
        simp only [QueuedFrame.scheduledUs, shiftedUs, hd]
        split <;> omega
    | true =>
        simp only [hslot] at hd
        simp only [QueuedFrame.scheduledUs, shiftedUs, hd]
        split <;> omega
  · exact hf

/-! ## the invariant of start-up -/

/-- When the first sample is heard. -/
def AvTimeline.heardUs (t : AvTimeline) : Int := t.audioStartWallUs + t.audioDelayUs

/-- What is known of the timeline in each phase. -/
def StartUp.PhaseInv (t0 : AvTimeline) (s : StartUp) : Prop :=
  match s.phase with
  | .waiting => s.t = t0
  | .started => 0 < s.t.audioStartWallUs ∧ 0 < s.t.audioDelayUs ∧
      s.t.anchorWallUs = t0.anchorWallUs
  | .anchored w _ | .slotsShifted w _ => 0 < s.t.audioStartWallUs ∧ 0 < s.t.audioDelayUs ∧
      s.t.anchorWallUs = s.t.heardUs - playoutLatencyUs ∧ w = t0.anchorWallUs
  | .done => 0 < s.t.audioStartWallUs ∧ 0 < s.t.audioDelayUs

/-- The invariant of start-up. -/
structure StartUp.Tracks (t0 : AvTimeline) (s : StartUp) : Prop where
  fps : s.t.streamFps = t0.streamFps
  segDuration : s.t.segDurationUs = t0.segDurationUs
  anchorSeg : s.t.anchorSeg = t0.anchorSeg
  adj : s.t.timelineAdjUs = 0
  phase : s.PhaseInv t0
  frames : ∀ f ∈ s.frames, s.phase.Allows f ∧ f.OnSchedule t0 s.t.heardUs

/-- A provisional anchor, before audio. -/
structure AvTimeline.Provisional (t0 : AvTimeline) : Prop where
  anchored : playoutLatencyUs < t0.anchorWallUs
  seg : t0.anchorSeg ≠ 0
  adj : t0.timelineAdjUs = 0
  silent : t0.audioStartWallUs = 0

/-- Deadlines computed before audio starts. -/
theorem dashAuDeadline_provisional {t0 : AvTimeline} (h : t0.Provisional) (seg : Int) (k : Nat) :
    dashAuDeadline t0 seg k = t0.anchorWallUs + playoutLatencyUs + frameOffsetUs t0 seg k := by
  have hoff := frameOffset_nonneg t0 seg k
  have hanchor := h.anchored
  simp only [dashAuDeadline, if_pos h.silent, h.adj, playoutLatencyUs] at hanchor ⊢
  rw [if_neg (by omega)]
  omega

/-- Until both passes have begun no frame has gone through one, and then a
deadline does not depend on when audio is heard. -/
theorem scheduledUs_of_unpassed {t0 : AvTimeline} {f : QueuedFrame} (hslot : f.slotPass = false)
    (hqueue : f.queuePass = false) (heardUs : Int) :
    f.scheduledUs t0 heardUs = t0.anchorWallUs + playoutLatencyUs + frameOffsetUs t0 f.seg f.k := by
  simp only [QueuedFrame.scheduledUs, hslot, hqueue]

theorem allows_unpassed (phase : AudioPhase) {f : QueuedFrame} (hslot : f.slotPass = false)
    (hqueue : f.queuePass = false) : phase.Allows f := by
  cases phase <;> simp [AudioPhase.Allows, hslot, hqueue]

theorem tracks_moves {t0 : AvTimeline} {s s' : StartUp} (hs : s.Tracks t0) (h : s.Moves s') :
    s'.Tracks t0 := by
  obtain ⟨ht, hphase, hframes⟩ := h
  refine ⟨by rw [ht, hs.fps], by rw [ht, hs.segDuration], by rw [ht, hs.anchorSeg],
    by rw [ht, hs.adj], ?_, fun f hf => ?_⟩
  · have hinv := hs.phase
    unfold StartUp.PhaseInv at hinv ⊢
    rw [hphase, ht]
    exact hinv
  · rw [hphase, ht]
    exact hs.frames f (hframes f hf)

theorem tracks_compute {t0 : AvTimeline} (h0 : t0.Provisional) {s s' : StartUp} (hs : s.Tracks t0)
    {seg : Int} {k : Nat} (h : startStep s (.compute seg k) = some s') : s'.Tracks t0 := by
  obtain rfl := effect_of_startStep h
  refine ⟨hs.fps, hs.segDuration, hs.anchorSeg, hs.adj, hs.phase, fun f hf => ?_⟩
  rw [StartUp.mem_frames] at hf
  obtain hf | hf := hf
  · obtain rfl := Option.some.inj hf
    refine ⟨allows_unpassed _ rfl rfl, fun hearly => ?_⟩
    have hphase : s.phase = .waiting := by simpa using hearly
    have hinv := hs.phase
    simp only [StartUp.PhaseInv, hphase] at hinv
    rw [scheduledUs_of_unpassed rfl rfl, hinv]
    exact dashAuDeadline_provisional h0 seg k
  · exact hs.frames f (StartUp.mem_frames.mpr (.inr hf))

theorem tracks_audioStart {t0 : AvTimeline} {s s' : StartUp} (hs : s.Tracks t0) {w d : Int}
    (h : startStep s (.audioStart w d) = some s') : s'.Tracks t0 := by
  obtain ⟨hphase, hw, hd, rfl⟩ := effect_of_startStep h
  have hinv := hs.phase
  simp only [StartUp.PhaseInv, hphase] at hinv
  refine ⟨hs.fps, hs.segDuration, hs.anchorSeg, hs.adj, ⟨hw, hd, by rw [hinv]⟩, fun f hf => ?_⟩
  obtain ⟨hallow, hsched⟩ := hs.frames f hf
  rw [hphase] at hallow
  refine ⟨hallow, fun hearly => ?_⟩
  rw [hsched hearly, scheduledUs_of_unpassed hallow.1 hallow.2,
    scheduledUs_of_unpassed hallow.1 hallow.2]

theorem tracks_anchor {t0 : AvTimeline} (h0 : t0.Provisional) {s s' : StartUp} (hs : s.Tracks t0)
    {w : Int} (h : startStep s (.anchor w) = some s') : s'.Tracks t0 := by
  obtain ⟨hphase, ⟨-, rfl⟩ | ⟨hzero, -⟩⟩ := effect_of_startStep h
  · have hinv := hs.phase
    simp only [StartUp.PhaseInv, hphase] at hinv
    obtain ⟨hstart, hdelay, hwall⟩ := hinv
    refine ⟨hs.fps, hs.segDuration, hs.anchorSeg, rfl, ?_, fun f hf => ?_⟩
    · simp only [StartUp.PhaseInv, resyncAnchor, if_pos hstart.ne', if_pos hdelay.ne',
        AvTimeline.heardUs]
      exact ⟨hstart, hdelay, trivial, hwall⟩
    · obtain ⟨hallow, hsched⟩ := hs.frames f hf
      rw [hphase] at hallow
      exact ⟨hallow, hsched⟩
  · -- the anchor has a segment from the start
    rw [hs.anchorSeg] at hzero
    exact absurd hzero h0.seg

/-- Where the copies of a deadline are after the pass over the slots. -/
theorem mem_frames_shiftSlots {s : StartUp} {w g : Int} {phase : AudioPhase} {f : QueuedFrame}
    (hf : f ∈ { s with slots := shiftSlots s.t w g s.slots, phase := phase }.frames) :
    f ∈ s.frames ∨ ∃ f' ∈ s.frames, f = f'.slotShift (s.t.anchorWallUs - w) := by
  unfold shiftSlots at hf
  split at hf
  · simp only [StartUp.mem_frames, List.mem_map, exists_exists_and_eq_and] at hf ⊢
    obtain hf | hf | hf | ⟨sl, hsl, rfl⟩ | hf := hf
    · exact .inl (.inl hf)
    · exact .inl (.inr (.inl hf))
    · exact .inl (.inr (.inr (.inl hf)))
    · exact .inr ⟨sl.frame, .inr (.inr (.inr (.inl ⟨sl, hsl, rfl⟩))), rfl⟩
    · exact .inl (.inr (.inr (.inr (.inr hf))))
  · exact .inl hf

theorem mem_frames_shiftQueue {s : StartUp} {w g : Int} {phase : AudioPhase} {f : QueuedFrame}
    (hf : f ∈ { s with queue := shiftQueue s.t w g s.queue, phase := phase }.frames) :
    f ∈ s.frames ∨ ∃ f' ∈ s.frames, f = f'.queueShift (s.t.anchorWallUs - w) := by
  unfold shiftQueue at hf
  split at hf
  · simp only [StartUp.mem_frames, List.mem_map] at hf ⊢
    obtain hf | hf | hf | hf | ⟨f', hf', rfl⟩ := hf
    · exact .inl (.inl hf)
    · exact .inl (.inr (.inl hf))
    · exact .inl (.inr (.inr (.inl hf)))
    · exact .inl (.inr (.inr (.inr (.inl hf))))
    · exact .inr ⟨f', .inr (.inr (.inr (.inr hf'))), rfl⟩
  · exact .inl hf

theorem tracks_shiftSlots {t0 : AvTimeline} {s s' : StartUp} (hs : s.Tracks t0)
    (h : startStep s .shiftSlots = some s') : s'.Tracks t0 := by
  obtain ⟨w, g, hphase, rfl⟩ := effect_of_startStep h
  have hinv := hs.phase
  simp only [StartUp.PhaseInv, hphase] at hinv
  obtain ⟨hstart, hdelay, hwall, rfl⟩ := hinv
  have hheard : 0 < s.t.heardUs := by
    unfold AvTimeline.heardUs
    omega
  refine ⟨hs.fps, hs.segDuration, hs.anchorSeg, hs.adj, ⟨hstart, hdelay, hwall, rfl⟩, ?_⟩
  intro f hf
  obtain hf | ⟨f', hf', rfl⟩ := mem_frames_shiftSlots hf
  · obtain ⟨hallow, hsched⟩ := hs.frames f hf
    rw [hphase] at hallow
    exact ⟨hallow.2, hsched⟩
  · obtain ⟨hallow, hsched⟩ := hs.frames f' hf'
    rw [hphase] at hallow
    refine ⟨hallow.2, ?_⟩
    rw [hwall]
    exact onSchedule_slotShift hheard hsched hallow.1 hallow.2

theorem tracks_shiftQueue {t0 : AvTimeline} {s s' : StartUp} (hs : s.Tracks t0)
    (h : startStep s .shiftQueue = some s') : s'.Tracks t0 := by
  obtain ⟨w, g, hphase, rfl⟩ := effect_of_startStep h
  have hinv := hs.phase
  simp only [StartUp.PhaseInv, hphase] at hinv
  obtain ⟨hstart, hdelay, hwall, rfl⟩ := hinv
  have hheard : 0 < s.t.heardUs := by
    unfold AvTimeline.heardUs
    omega
  refine ⟨hs.fps, hs.segDuration, hs.anchorSeg, hs.adj, ⟨hstart, hdelay⟩, fun f hf => ?_⟩
  refine ⟨trivial, ?_⟩
  obtain hf | ⟨f', hf', rfl⟩ := mem_frames_shiftQueue hf
  · exact (hs.frames f hf).2
  · obtain ⟨hallow, hsched⟩ := hs.frames f' hf'
    rw [hphase] at hallow
    rw [hwall]
    exact onSchedule_queueShift hheard hsched hallow

theorem tracks_step {t0 : AvTimeline} (h0 : t0.Provisional) {s s' : StartUp} {op : StartOp}
    (hs : s.Tracks t0) (h : startStep s op = some s') : s'.Tracks t0 := by
  cases op with
  | compute seg k => exact tracks_compute h0 hs h
  | audioStart w d => exact tracks_audioStart hs h
  | anchor w => exact tracks_anchor h0 hs h
  | shiftSlots => exact tracks_shiftSlots hs h
  | shiftQueue => exact tracks_shiftQueue hs h
  | _ => exact tracks_moves hs (effect_of_startStep h)

theorem provisional_init (useDrm : Bool) (fps segDurationUs : Int) {seg wallUs : Int}
    (hseg : seg ≠ 0) (hwall : 0 ≤ wallUs) :
    (StartUp.init useDrm fps segDurationUs seg wallUs).t.Provisional := by
  refine ⟨?_, hseg, rfl, rfl⟩
  simp only [StartUp.init, resyncAnchor, audioPrefillUs, playoutLatencyUs]
  rw [if_neg (by simp)]
  omega

theorem tracks_run {useDrm : Bool} {fps segDurationUs seg wallUs : Int} {ops : List StartOp}
    {s : StartUp} (hseg : seg ≠ 0) (hwall : 0 ≤ wallUs)
    (hrun : Run.exec startStep (.init useDrm fps segDurationUs seg wallUs) ops = some s) :
    s.Tracks (StartUp.init useDrm fps segDurationUs seg wallUs).t := by
  have h0 := provisional_init useDrm fps segDurationUs hseg hwall
  have hinit : (StartUp.init useDrm fps segDurationUs seg wallUs).Tracks
      (StartUp.init useDrm fps segDurationUs seg wallUs).t := by
    refine ⟨rfl, rfl, rfl, rfl, by simp [StartUp.PhaseInv, StartUp.init], fun f hf => ?_⟩
    simp [StartUp.frames, StartUp.init, DecodeAt.frames, StartUp.stored] at hf
  exact Run.exec_invariant_true (StartUp.Tracks _)
    (fun _ _ _ ht hstep => tracks_step h0 ht hstep) hinit hrun

/-! ## stored against recomputed deadlines -/

/-- A deadline computed after the resync. -/
theorem dashAuDeadline_heard {t0 : AvTimeline} {s : StartUp} (hs : s.Tracks t0)
    (hstart : 0 < s.t.audioStartWallUs) (seg : Int) (k : Nat) :
    dashAuDeadline s.t seg k =
      max 0 (s.t.heardUs - playoutLatencyUs + frameOffsetUs s.t seg k) := by
  simp only [dashAuDeadline, if_neg hstart.ne', hs.adj, AvTimeline.heardUs]
  split <;> omega

/-- When the passes leave a frame with the deadline it would get now: neither
reached it, and audio is heard two playout latencies after the provisional
anchor; or both did, and audio is heard at the provisional anchor itself (or so
early that both deadlines are cut off at 0, and no later one is). -/
def QueuedFrame.Agrees (t : AvTimeline) (provisionalUs : Int) (f : QueuedFrame) : Prop :=
  match f.slotPass, f.queuePass with
  | false, false => t.heardUs = provisionalUs + 2 * playoutLatencyUs
  | true, true => t.heardUs = provisionalUs ∨
      (t.heardUs + frameOffsetUs t f.seg f.k ≤ playoutLatencyUs ∧
        ∀ seg' k', frameOffsetUs t f.seg f.k < frameOffsetUs t seg' k' →
          playoutLatencyUs < t.heardUs + frameOffsetUs t seg' k')
  | _, _ => False

/-- The stored deadline and the ones computed now, by the passes that reached
the frame. -/
theorem deadline_of_done {t0 : AvTimeline} {s : StartUp} (hs : s.Tracks t0)
    (hdone : s.phase = .done) {f : QueuedFrame} (hf : f ∈ s.stored) (hearly : f.early = true) :
    0 < s.t.heardUs ∧ f.deadlineUs = f.scheduledUs { s.t with anchorWallUs := t0.anchorWallUs }
        s.t.heardUs ∧
      ∀ seg k, dashAuDeadline s.t seg k =
        max 0 (s.t.heardUs - playoutLatencyUs + frameOffsetUs s.t seg k) := by
  have hinv := hs.phase
  simp only [StartUp.PhaseInv, hdone] at hinv
  obtain ⟨hstart, hdelay⟩ := hinv
  refine ⟨by unfold AvTimeline.heardUs; omega, ?_, dashAuDeadline_heard hs hstart⟩
  rw [(hs.frames f (List.mem_append_right _ hf)).2 hearly]
  simp only [QueuedFrame.scheduledUs, frameOffsetUs, framePeriodUs, hs.fps, hs.segDuration,
    hs.anchorSeg]

/-- **Shifted against recomputed deadlines.**  After the audio-start resync a
deadline computed before it agrees with a fresh one, and stays below those of
later frames, only if both passes or neither reached it and audio happens to be
heard at the one time that suits.  A deadline that was shifted once never agrees:
it is one playout latency late, and overtaken by every fresh frame that is later
by less than that. -/
theorem stored_deadline_iff (useDrm : Bool) (fps segDurationUs seg wallUs : Int)
    (ops : List StartOp) (s : StartUp) (hseg : seg ≠ 0) (hwall : 0 ≤ wallUs)
    (hrun : Run.exec startStep (.init useDrm fps segDurationUs seg wallUs) ops = some s)
    (hdone : s.phase = .done) (f : QueuedFrame) (hf : f ∈ s.stored) (hearly : f.early = true) :
    ((f.deadlineUs = dashAuDeadline s.t f.seg f.k ∧
        ∀ seg' k', frameOffsetUs s.t f.seg f.k < frameOffsetUs s.t seg' k' →
          f.deadlineUs < dashAuDeadline s.t seg' k') ↔
      f.Agrees s.t (StartUp.init useDrm fps segDurationUs seg wallUs).t.anchorWallUs) ∧
    (f.slotPass ≠ f.queuePass → ∀ seg' k', f.deadlineUs < dashAuDeadline s.t seg' k' ↔
      frameOffsetUs s.t f.seg f.k + playoutLatencyUs < frameOffsetUs s.t seg' k') := by
  have h0 := provisional_init useDrm fps segDurationUs hseg hwall
  have hs := tracks_run hseg hwall hrun
  generalize (StartUp.init useDrm fps segDurationUs seg wallUs).t = t0 at h0 hs ⊢
  obtain ⟨hheard, hd, hfresh⟩ := deadline_of_done hs hdone hf hearly
  have hoff : 0 ≤ frameOffsetUs s.t f.seg f.k := frameOffset_nonneg s.t f.seg f.k
  have hanchor := h0.anchored
  have hoffeq : frameOffsetUs { s.t with anchorWallUs := t0.anchorWallUs } f.seg f.k =
      frameOffsetUs s.t f.seg f.k := rfl
  simp only [QueuedFrame.scheduledUs, hoffeq] at hd
  simp only [hfresh, QueuedFrame.Agrees, playoutLatencyUs] at hd hanchor ⊢
  match hslot : f.slotPass, hqueue : f.queuePass with
  | false, false =>
      simp only [hslot, hqueue] at hd
      refine ⟨⟨fun h => by omega, fun h => ⟨by omega, fun _ _ _ => by omega⟩⟩, by simp⟩
  | true, true =>
      simp only [hslot, hqueue] at hd
      refine ⟨⟨?_, ?_⟩, by simp⟩
      · rintro ⟨heq, hlater⟩
        by_cases hprov : s.t.heardUs = t0.anchorWallUs
        · exact .inl hprov
        · refine .inr ⟨by omega, fun seg' k' hlt => ?_⟩
          have := hlater seg' k' hlt
          omega
      · rintro (hprov | ⟨hcut, hlater⟩)
        · exact ⟨by omega, fun _ _ _ => by omega⟩
        · refine ⟨by omega, fun seg' k' hlt => ?_⟩
          have := hlater seg' k' hlt
          omega
  | false, true | true, false =>
      simp only [hslot, hqueue] at hd
      refine ⟨⟨fun h => by omega, False.elim⟩, fun _ _ _ => by omega⟩

/-- On the DRM display a frame selected after the first pass and pushed before
the second is shifted twice: here the third, behind the pending one. -/
example : (Run.exec startStep (.init true 60 1000000 1 1000000)
      [.compute 1 0, .publish, .compute 1 1, .publish, .compute 1 2, .publish, .compute 1 3,
        .publish, .take 0, .converted true, .take 1, .converted true, .push,
        .audioStart 2000000 250000, .anchor 2000000, .shiftSlots, .take 1, .converted true, .push,
        .take 1, .converted true, .push, .shiftQueue]).map
      (fun s => s.queue.map fun f => (f.k, f.deadlineUs - dashAuDeadline s.t f.seg f.k)) =
    some [(0, 85000), (1, 85000), (2, 335000)] := by
  decide

/-- The second frame is published only after both passes. -/
def lateFrameRun : List StartOp :=
  [.compute 1 0, .publish, .take 0, .shown, .compute 1 1, .audioStart 1835000 250000,
    .anchor 1835000, .shiftSlots, .shiftQueue, .publish]

/-- The state that run leaves. -/
def lateFrameEnd : StartUp :=
  ⟨false, ⟨60, 1000000, 2000000, 1, 0, 1835000, 250000⟩, .done, true, none,
    [⟨⟨1, 1, 2016666, true, false, false⟩, false⟩], .selecting, none, []⟩

theorem stored_deadline_iff_late : dashAuDeadline lateFrameEnd.t 1 1 = 2016666 :=
  ((stored_deadline_iff false 60 1000000 1 1000000 lateFrameRun lateFrameEnd (by decide)
    (by decide) (by decide) rfl ⟨1, 1, 2016666, true, false, false⟩ (by decide) rfl).1.mpr
      rfl).1.symm

end Vmc
