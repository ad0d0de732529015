import Vmc.Client.FrameSlots
import Vmc.Video.DrmScanout

/-!
# Vmc.Client.DecodeWorker

The decode worker with all its exits, the present worker behind it, and the
producer of frames in front (`apps/thinclient/main.c`).

An iteration of the decode worker selects a slot, marks it, decodes it and then
leaves in one of five ways: decoding failed; the frame was shown on the
framebuffer; no scan-out buffer was free; the frame's conversion was started and
the one before it, whose conversion is done, was handed to the present worker;
or it was started and there was none before it.  What is known of the frame
being converted is kept in the `g_pending_*` globals, each of which is
overwritten at its own place in the iteration.

The present worker pops an entry, and tries to flip to its buffer up to fifty
times three times.

Modules on top of this one take up what becomes of the frame slots, of the
scan-out buffers, and of the identity of the frames.
-/

namespace Vmc

/-! ## data model -/

def vmcPresentQueueBound : Nat := 128

/-- `vmc_vmeta`. -/
structure Vmeta where
  fidx : UInt32
  seg : Int
  ptsUs : Int
  deadlineUs : UInt64
  decodeUs : UInt64
  convUs : UInt64
deriving DecidableEq, Repr

/-- The `g_pending_*` globals: whether there is an event to wait for, and what
is known of the frame being converted. -/
structure PendingConv where
  ev : Bool
  deadlineUs : UInt64
  bufIdx : Option Nat
  fidx : UInt32
  seg : Int
  ptsUs : Int
  decodeUs : UInt64
deriving DecidableEq, Repr

/-- Their values at program start. -/
def PendingConv.zero : PendingConv := ⟨false, 0, none, 0, 0, 0, 0⟩

/-- `present_entry`. -/
structure PresentEntry where
  bufIdx : Option Nat
  deadlineUs : UInt64
  ptsUs : Int
deriving DecidableEq, Repr

/-- The worker's local variables once a slot is decoded. -/
structure DecodeJob where
  idx : Nat
  deadlineUs : UInt64
  decodeUs : UInt64
deriving DecidableEq, Repr

/-- Where the decode worker is in its iteration. -/
inductive DecodePc where
  | atSelect
  | selected (idx : Nat) (deadlineUs : UInt64)
  | marked (idx : Nat) (deadlineUs : UInt64)
  | acquiring (job : DecodeJob) (waited : Nat)
  | acquired (job : DecodeJob) (buf : Nat)
  | converted (job : DecodeJob) (buf : Nat) (ev : Bool)
  | handedOver (deadlineUs : UInt64) (buf : Nat) (ev : Bool)
  | pushed (deadlineUs : UInt64) (buf : Nat) (ev : Bool)
  | releasing (idx : Nat)
deriving DecidableEq, Repr

/-- Where the present worker is: in a call of `vmc_drm_scanout_present`, between
two of them, or past its loop, with the buffer submitted or not. -/
inductive PresentPc where
  | idle
  | calling (e : PresentEntry) (calls tries : Nat)
  | again (e : PresentEntry) (calls : Nat)
  | ended (e : PresentEntry) (shown : Bool)
deriving DecidableEq, Repr

/-- A frame that was decoded and got a scan-out buffer. -/
structure DrmFrame where
  frame : Frame
  buf : Nat
deriving DecidableEq, Repr

/-- The threads and what they share.  The last four fields are not in the
program: the slots marked DECODING and those released, the frames decoded into
a buffer, and the entries pushed with `g_vmeta` of their buffer at the time. -/
structure DecodeLoop where
  useDrm : Bool
  pool : FramePool
  writeSlot : Option Nat
  worker : DecodePc
  drm : DrmScanout
  pending : PendingConv
  vmeta : List Vmeta
  queue : List PresentEntry
  presenter : PresentPc
  marks : List Nat
  releases : List Nat
  frames : List DrmFrame
  pushes : List (PresentEntry × Option Vmeta)
deriving DecidableEq

def DecodeLoop.init (useDrm : Bool) (nbufs : Nat) : DecodeLoop where
  useDrm := useDrm
  pool := FramePool.zero
  writeSlot := none
  worker := .atSelect
  drm := vmcDrmScanoutInit nbufs
  pending := PendingConv.zero
  vmeta := List.replicate vmcDrmMaxBufs ⟨0, 0, 0, 0, 0, 0⟩
  queue := []
  presenter := .idle
  marks := []
  releases := []
  frames := []
  pushes := []

/-- A frame as the DASH reader publishes it. -/
def dashFrame (deadlineUs : UInt64) (fidx : UInt32) (ptsUs : Int) (seg : Int) : Frame :=
  ⟨[0], 0, 0, deadlineUs, fidx, ptsUs, seg⟩

/-! ## the steps of the threads -/

inductive DecodeOp where
  /-- The producer takes a slot, and publishes a frame to it or, if the frame
  does not fit, gives it back. -/
  | take
  | publish (f : Frame)
  | discard
  | select
  | mark
  | decode (ok : Bool) (decodeUs : UInt64)
  /-- A call of `vmc_drm_scanout_next_idx`; without a buffer the worker waits
  and calls again, a thousand times at most or until it is told to stop. -/
  | nextIdx
  | stopWaiting
  /-- `g_conv_async`, with an event or without. -/
  | convAsync (ev : Bool)
  /-- With an earlier conversion pending: note the identity of its frame, take
  that of the new one, and release the slot. -/
  | handOver (convUs : UInt64)
  | push
  | setPending
  | release
  /-- The present worker. -/
  | pop
  | pageFlip (answer : FlipAnswer) (nowUs : UInt64)
  | callAgain
  | stopPresent
  | endPresent
  /-- `flip_handler`. -/
  | event (ts : UInt64)
deriving DecidableEq, Repr

/-- The identity of the pending frame, for the flip-complete handler. -/
def PendingConv.vmeta (p : PendingConv) (convUs : UInt64) : Vmeta :=
  ⟨p.fidx, p.seg, p.ptsUs, p.deadlineUs, p.decodeUs, convUs⟩

/-- `present_push` of the pending buffer. -/
def PendingConv.entry (p : PendingConv) : PresentEntry := ⟨p.bufIdx, p.deadlineUs, p.ptsUs⟩

/-- The worker's step to its next iteration: the new conversion is the pending
one.  The identity of its frame is not among what is stored here. -/
def setPendingTo (s : DecodeLoop) (deadlineUs : UInt64) (buf : Nat) (ev : Bool) : DecodeLoop :=
  { s with
    pending := { s.pending with ev := ev, bufIdx := some buf, deadlineUs := deadlineUs }
    worker := .atSelect }

/-- One call of `vmc_drm_scanout_next_idx` by the decode worker. -/
def acquireStep (s : DecodeLoop) (job : DecodeJob) (waited : Nat) : DecodeLoop :=
  match vmcDrmScanoutNextIdx s.drm with
  | (some buf, drm) => { s with
      drm := drm
      worker := .acquired job buf
      frames := s.frames ++ (s.pool.slots[job.idx]?.map fun x => ⟨x.toFrame, buf⟩).toList }
  | (none, drm) => { s with
      drm := drm
      worker := if waited < 1000 then .acquiring job (waited + 1) else .releasing job.idx }

/-- The buffer an entry asks to present. -/
def PresentEntry.buffer (e : PresentEntry) (drm : DrmScanout) : Nat :=
  e.bufIdx.getD drm.lastPresented

/-- What a call that returned `st` leaves the present worker at. -/
def PresentPc.after (e : PresentEntry) (calls tries : Nat) : Option Status → PresentPc
  | none => .calling e calls (tries + 1)
  | some .ok => .ended e true
  | some .again => .again e calls
  | some _ => .ended e false

/-- One step; `none` if the thread is not at it or would wait. -/
def decodeStep (s : DecodeLoop) : DecodeOp → Option DecodeLoop
  | .take =>
      match s.writeSlot with
      | none => (slotTakeWrite s.pool).map fun (i, p) => { s with pool := p, writeSlot := some i }
      | some _ => none
  | .publish f => s.writeSlot.map fun w => { s with
      pool := slotPublish s.pool w f
      writeSlot := none }
  | .discard => s.writeSlot.map fun w => { s with
      pool := s.pool.mark w .free
      writeSlot := none }
  | .select =>
      match s.worker with
      | .atSelect => (selectReady s.pool).bind fun i =>
          s.pool.slots[i]?.map fun x => { s with worker := .selected i x.deadlineUs }
      | _ => none
  | .mark =>
      match s.worker with
      | .selected i dl => some { s with
          pool := s.pool.mark i .decoding
          worker := .marked i dl
          marks := s.marks ++ [i] }
      | _ => none
  | .decode ok decodeUs =>
      match s.worker with
      | .marked i dl => some { s with
          worker := if ok ∧ s.useDrm then .acquiring ⟨i, dl, decodeUs⟩ 0 else .releasing i }
      | _ => none
  | .nextIdx =>
      match s.worker with
      | .acquiring job waited => some (acquireStep s job waited)
      | _ => none
  | .stopWaiting =>
      match s.worker with
      | .acquiring job _ => some { s with worker := .releasing job.idx }
      | _ => none
  | .convAsync ev =>
      match s.worker with
      | .acquired job buf => some { s with worker := .converted job buf ev }
      | _ => none
  | .handOver convUs =>
      match s.worker with
      | .converted job buf ev =>
          if s.pending.ev then
            s.pool.slots[job.idx]?.map fun x => { s with
              vmeta :=
                match s.pending.bufIdx with
                | some b => s.vmeta.set b (s.pending.vmeta convUs)
                | none => s.vmeta
              pending := { s.pending with
                fidx := x.fidx
                seg := x.seg
                ptsUs := x.ptsUs
                decodeUs := job.decodeUs }
              pool := slotRelease s.pool job.idx
              releases := s.releases ++ [job.idx]
              worker := .handedOver job.deadlineUs buf ev }
          else none
      | _ => none
  | .push =>
      match s.worker with
      | .handedOver dl buf ev =>
          if s.queue.length < vmcPresentQueueBound then some { s with
            queue := s.queue ++ [s.pending.entry]
            pushes := s.pushes ++ [(s.pending.entry, s.pending.bufIdx.bind fun b => s.vmeta[b]?)]
            worker := .pushed dl buf ev }
          else none
      | _ => none
  | .setPending =>
      match s.worker with
      | .pushed dl buf ev => some (setPendingTo s dl buf ev)
      | .converted job buf ev =>
          if s.pending.ev then none else some (setPendingTo s job.deadlineUs buf ev)
      | _ => none
  | .release =>
      match s.worker with
      | .releasing i => some { s with
          pool := slotRelease s.pool i
          releases := s.releases ++ [i]
          worker := .atSelect }
      | _ => none
  | .pop =>
      match s.presenter, s.queue with
      | .idle, e :: rest => some { s with queue := rest, presenter := .calling e 0 0 }
      | _, _ => none
  | .pageFlip answer nowUs =>
      match s.presenter with
      | .calling e calls tries =>
          let (drm, st) := vmcDrmScanoutPresent s.drm (e.buffer s.drm) tries answer nowUs
          some { s with drm := drm, presenter := .after e calls tries st }
      | _ => none
  | .callAgain =>
      match s.presenter with
      | .again e calls => some { s with
          presenter := if calls + 1 < 50 then .calling e (calls + 1) 0 else .ended e false }
      | _ => none
  | .stopPresent =>
      match s.presenter with
      | .calling e _ 0 | .again e _ => some { s with presenter := .ended e false }
      | _ => none
  | .endPresent =>
      match s.presenter with
      | .ended _ _ => some { s with presenter := .idle }
      | _ => none
  | .event ts => some { s with drm := flipHandler s.drm ts }

/-- The steps by which a frame is decoded and its conversion started. -/
def startFrame (f : Frame) (ev : Bool) : List DecodeOp :=
  [.take, .publish f, .select, .mark, .decode true 5, .nextIdx, .convAsync ev]

/-- What a step does, where it is possible. -/
def DecodeOp.Effect (s s' : DecodeLoop) : DecodeOp → Prop
  | take => s.writeSlot = none ∧ ∃ i, (s.pool.slots.findIdx? fun x => x.state = .free) = some i ∧
      s' = { s with pool := s.pool.mark i .writing, writeSlot := some i }
  | publish f => ∃ w, s.writeSlot = some w ∧
      s' = { s with pool := slotPublish s.pool w f, writeSlot := none }
  | discard => ∃ w, s.writeSlot = some w ∧
      s' = { s with pool := s.pool.mark w .free, writeSlot := none }
  | select => s.worker = .atSelect ∧ ∃ i x, selectReady s.pool = some i ∧
      s.pool.slots[i]? = some x ∧ s' = { s with worker := .selected i x.deadlineUs }
  | mark => ∃ i dl, s.worker = .selected i dl ∧ s' = { s with
      pool := s.pool.mark i .decoding
      worker := .marked i dl
      marks := s.marks ++ [i] }
  | decode ok decodeUs => ∃ i dl, s.worker = .marked i dl ∧ s' = { s with
      worker := if ok ∧ s.useDrm then .acquiring ⟨i, dl, decodeUs⟩ 0 else .releasing i }
  | nextIdx => ∃ job waited, s.worker = .acquiring job waited ∧ s' = acquireStep s job waited
  | stopWaiting => ∃ job waited, s.worker = .acquiring job waited ∧
      s' = { s with worker := .releasing job.idx }
  | convAsync ev => ∃ job buf, s.worker = .acquired job buf ∧
      s' = { s with worker := .converted job buf ev }
  | handOver convUs => ∃ job buf ev x, s.worker = .converted job buf ev ∧ s.pending.ev = true ∧
      s.pool.slots[job.idx]? = some x ∧ s' = { s with
        vmeta :=
          match s.pending.bufIdx with
          | some b => s.vmeta.set b (s.pending.vmeta convUs)
          | none => s.vmeta
        pending := { s.pending with
          fidx := x.fidx
          seg := x.seg
          ptsUs := x.ptsUs
          decodeUs := job.decodeUs }
        pool := slotRelease s.pool job.idx
        releases := s.releases ++ [job.idx]
        worker := .handedOver job.deadlineUs buf ev }
  | push => ∃ dl buf ev, s.worker = .handedOver dl buf ev ∧ s' = { s with
      queue := s.queue ++ [s.pending.entry]
      pushes := s.pushes ++ [(s.pending.entry, s.pending.bufIdx.bind fun b => s.vmeta[b]?)]
      worker := .pushed dl buf ev }
  | setPending => ∃ dl buf ev, s' = setPendingTo s dl buf ev ∧
      (s.worker = .pushed dl buf ev ∨
        ∃ job, s.worker = .converted job buf ev ∧ job.deadlineUs = dl ∧ s.pending.ev = false)
  | release => ∃ i, s.worker = .releasing i ∧ s' = { s with
      pool := slotRelease s.pool i
      releases := s.releases ++ [i]
      worker := .atSelect }
  | pop => ∃ e rest, s.presenter = .idle ∧ s.queue = e :: rest ∧
      s' = { s with queue := rest, presenter := .calling e 0 0 }
  | pageFlip answer nowUs => ∃ e calls tries, s.presenter = .calling e calls tries ∧ s' = { s with
      drm := (vmcDrmScanoutPresent s.drm (e.buffer s.drm) tries answer nowUs).1
      presenter := .after e calls tries
        (vmcDrmScanoutPresent s.drm (e.buffer s.drm) tries answer nowUs).2 }
  | callAgain => ∃ e calls, s.presenter = .again e calls ∧ s' = { s with
      presenter := if calls + 1 < 50 then .calling e (calls + 1) 0 else .ended e false }
  | stopPresent => ∃ e calls, (s.presenter = .calling e calls 0 ∨ s.presenter = .again e calls) ∧
      s' = { s with presenter := .ended e false }
  | endPresent => ∃ e shown, s.presenter = .ended e shown ∧ s' = { s with presenter := .idle }
  | event ts => s' = { s with drm := flipHandler s.drm ts }

/-- All a step can do; the invariants in the modules on top of this one are
derived from it. -/
theorem effect_of_decodeStep {s s' : DecodeLoop} {op : DecodeOp} (h : decodeStep s op = some s') :
    op.Effect s s' := by
  cases op with
  | take =>
      cases hw : s.writeSlot with
      | none =>
          simp only [decodeStep, hw] at h
          obtain ⟨⟨i, p⟩, htake, rfl⟩ := Option.map_eq_some_iff.mp h
          obtain ⟨j, hj, heq⟩ := Option.map_eq_some_iff.mp htake
          obtain ⟨rfl, rfl⟩ := Prod.mk.inj heq
          exact ⟨hw, j, hj, rfl⟩
      | some w => simp [decodeStep, hw] at h
  | publish f | discard =>
      obtain ⟨w, hw, rfl⟩ := Option.map_eq_some_iff.mp h
      exact ⟨w, hw, rfl⟩
  | select =>
      simp only [decodeStep] at h
      split at h
      · next hw =>
        obtain ⟨i, hi, hmap⟩ := Option.bind_eq_some_iff.mp h
        obtain ⟨x, hx, rfl⟩ := Option.map_eq_some_iff.mp hmap
        exact ⟨hw, i, x, hi, hx, rfl⟩
      · contradiction
  | mark | decode ok decodeUs =>
      simp only [decodeStep] at h
      split at h
      · next i dl hw => exact ⟨i, dl, hw, (Option.some.inj h).symm⟩
      · contradiction
  | nextIdx | stopWaiting =>
      simp only [decodeStep] at h
      split at h
      · next job waited hw => exact ⟨job, waited, hw, (Option.some.inj h).symm⟩
      · contradiction
  | convAsync ev =>
      simp only [decodeStep] at h
      split at h
      · next job buf hw => exact ⟨job, buf, hw, (Option.some.inj h).symm⟩
      · contradiction
  | handOver convUs =>
      simp only [decodeStep] at h
      split at h
      · next job buf ev hw =>
        split at h
        · next hev =>
          obtain ⟨x, hx, rfl⟩ := Option.map_eq_some_iff.mp h
          exact ⟨job, buf, ev, x, hw, hev, hx, rfl⟩
        · contradiction
      · contradiction
  | push =>
      simp only [decodeStep] at h
      split at h
      · next dl buf ev hw =>
        split at h
        · exact ⟨dl, buf, ev, hw, (Option.some.inj h).symm⟩
        · contradiction
      · contradiction
  | setPending =>
      simp only [decodeStep] at h
      split at h
      · next dl buf ev hw => exact ⟨dl, buf, ev, (Option.some.inj h).symm, .inl hw⟩
      · next job buf ev hw =>
        split at h
        · contradiction
        · next hev =>
          exact ⟨_, buf, ev, (Option.some.inj h).symm, .inr ⟨job, hw, rfl, by simpa using hev⟩⟩
      · contradiction
  | release =>
      simp only [decodeStep] at h
      split at h
      · next i hw => exact ⟨i, hw, (Option.some.inj h).symm⟩
      · contradiction
  | pop =>
      simp only [decodeStep] at h
      split at h
      · next e rest hp hq => exact ⟨e, rest, hp, hq, (Option.some.inj h).symm⟩
      · contradiction
  | pageFlip answer nowUs =>
      simp only [decodeStep] at h
      split at h
      · next e calls tries hp => exact ⟨e, calls, tries, hp, (Option.some.inj h).symm⟩
      · contradiction
  | callAgain =>
      simp only [decodeStep] at h
      split at h
      · next e calls hp => exact ⟨e, calls, hp, (Option.some.inj h).symm⟩
      · contradiction
  | stopPresent =>
      simp only [decodeStep] at h
      split at h
      · next e calls hp => exact ⟨e, calls, .inl hp, (Option.some.inj h).symm⟩
      · next e calls hp => exact ⟨e, calls, .inr hp, (Option.some.inj h).symm⟩
      · contradiction
  | endPresent =>
      simp only [decodeStep] at h
      split at h
      · next e shown hp => exact ⟨e, shown, hp, (Option.some.inj h).symm⟩
      · contradiction
  | event ts => exact (Option.some.inj h).symm

/-- The worker gets a buffer, or waits on or gives up. -/
theorem acquireStep_cases (s : DecodeLoop) (job : DecodeJob) (waited : Nat) :
    (∃ buf, (vmcDrmScanoutNextIdx s.drm).1 = some buf ∧ acquireStep s job waited = { s with
      drm := (vmcDrmScanoutNextIdx s.drm).2
      worker := .acquired job buf
      frames := s.frames ++ (s.pool.slots[job.idx]?.map fun x => ⟨x.toFrame, buf⟩).toList }) ∨
    ∃ pc, (pc = .acquiring job (waited + 1) ∨ pc = .releasing job.idx) ∧
      acquireStep s job waited = { s with worker := pc } := by
  unfold acquireStep
  cases hnext : vmcDrmScanoutNextIdx s.drm with
  | mk found drm =>
      cases found with
      | some buf => exact .inl ⟨buf, rfl, rfl⟩
      | none =>
          have hdrm : drm = s.drm := by
            have hnone := DrmScanout.nextIdx_none (s := s.drm) (by rw [hnext])
            rwa [hnext] at hnone
          refine .inr ⟨if waited < 1000 then .acquiring job (waited + 1) else .releasing job.idx, ?_,
            by rw [hdrm]⟩
          split
          · exact .inl rfl
          · exact .inr rfl

/-- A conversion is handed over only if one with an event is pending, which it is
until the next is stored. -/
def DecodeLoop.HandsPending (s : DecodeLoop) : Prop :=
  ∀ dl buf ev, s.worker = .handedOver dl buf ev ∨ s.worker = .pushed dl buf ev →
    s.pending.ev = true

theorem handsPending_init (useDrm : Bool) (nbufs : Nat) :
    (DecodeLoop.init useDrm nbufs).HandsPending := by
  rintro dl buf ev (hw | hw) <;> contradiction

theorem handsPending_step {s s' : DecodeLoop} {op : DecodeOp} (h : s.HandsPending)
    (hstep : decodeStep s op = some s') : s'.HandsPending := by
  have heffect := effect_of_decodeStep hstep
  cases op with
  | take =>
      obtain ⟨-, i, -, rfl⟩ := heffect
      exact h
  | publish | discard =>
      obtain ⟨w, -, rfl⟩ := heffect
      exact h
  | select =>
      obtain ⟨-, i, x, -, -, rfl⟩ := heffect
      rintro dl buf ev (hw | hw) <;> contradiction
  | mark | stopWaiting | convAsync =>
      obtain ⟨i, dl, -, rfl⟩ := heffect
      rintro dl buf ev (hw | hw) <;> contradiction
  | decode ok decodeUs =>
      obtain ⟨i, dl, -, rfl⟩ := heffect
      dsimp only [DecodeLoop.HandsPending]
      split <;> simp
  | nextIdx =>
      obtain ⟨job, waited, -, rfl⟩ := heffect
      obtain ⟨buf, -, heq⟩ | ⟨pc, rfl | rfl, heq⟩ := acquireStep_cases s job waited
      all_goals
        rw [heq]
        rintro dl buf ev (hw | hw) <;> contradiction
  | handOver convUs =>
      obtain ⟨job, buf, ev, x, -, hev, -, rfl⟩ := heffect
      exact fun _ _ _ _ => hev
  | push =>
      obtain ⟨dl, buf, ev, hw, rfl⟩ := heffect
      exact fun _ _ _ _ => h dl buf ev (.inl hw)
  | setPending =>
      obtain ⟨dl, buf, ev, rfl, -⟩ := heffect
      rintro dl buf ev (hw | hw) <;> contradiction
  | release =>
      obtain ⟨i, -, rfl⟩ := heffect
      rintro dl buf ev (hw | hw) <;> contradiction
  | pop =>
      obtain ⟨e, rest, -, -, rfl⟩ := heffect
      exact h
  | pageFlip answer nowUs =>
      obtain ⟨e, calls, tries, -, rfl⟩ := heffect
      exact h
  | callAgain | stopPresent | endPresent =>
      obtain ⟨e, calls, -, rfl⟩ := heffect
      exact h
  | event ts =>
      obtain rfl := heffect
      exact h

end Vmc
