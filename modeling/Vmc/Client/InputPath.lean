import Vmc.Input.Batch
import Vmc.Lib.Run

/-!
# Vmc.Client.InputPath

The input phase of the client's main loop: poll the capture until it has
nothing more, push every event into a batch, and every 4 ms send the batch as
one INPUT datagram.

The batch is a local of the iteration and is reset on entry.  What an iteration
polls and does not flush is therefore gone, as is the event that meets a full
batch; `inputs_delivered_iff` says that these are the only ways to lose one.
Sends are taken to succeed, and the receiver reads a datagram with
`vmc_proto_decode` and `vmc_input_batch_deserialize`.
-/

namespace Vmc

open Bytes

/-! ## the phase -/

/-- `input_flush_ms`. -/
def inputFlushMs : UInt64 := 4

/-- The size of `batch_pkt`. -/
def batchPktSize : Nat := vmcProtoHeaderSize + 2 + vmcInputBatchMaxEvents * inputEventSize

/-- What one iteration of the main loop brings to its input phase: the time, the
events that `vmc_input_poll` returns before it has none, the session's
sequence number, and what the two static buffers happen to hold. -/
structure InputIteration where
  nowMs : UInt64
  offered : List InputEvent
  txSeq : UInt64
  pkt : List UInt8
  batchPkt : List UInt8
  pkt_length : pkt.length = vmcProtoMaxPacket
  batchPkt_length : batchPkt.length = batchPktSize

/-- The polling loop: the batch it leaves and the events it took from the
capture.  The event that meets a full batch has been taken. -/
def inputPoll : List InputEvent → InputBatch → InputBatch × List InputEvent
  | [], b => (b, [])
  | ev :: rest, b =>
      match vmcInputBatchPush b ev with
      | (.overrun, b) => (b, [ev])
      | (_, b) =>
          let (b, taken) := inputPoll rest b
          (b, ev :: taken)

/-- The header of an input datagram. -/
def inputHeader (batch : InputBatch) (it : InputIteration) : ProtoHeader where
  magic := vmcProtoMagic
  version := vmcProtoVersion
  flags := 0
  stream := streamInput
  reserved := 0
  payloadLen := UInt16.ofNat (2 + batch.count.toNat * inputEventSize)
  seq := it.txSeq.toUInt32
  tsUs := it.nowMs.toUInt32
  crc := 0

/-- Serialize into `pkt`, encode into `batch_pkt`, send: the datagrams on the
wire. -/
def inputSend (batch : InputBatch) (it : InputIteration) : List (List UInt8) :=
  match vmcInputBatchSerialize batch (it.pkt.drop vmcProtoHeaderSize) with
  | (.ok n, payload) =>
      if 0 < n then
        match vmcProtoEncode it.batchPkt (inputHeader batch it) (some payload) with
        | (.ok es, pkt) => if 0 < es then [pkt.take es] else []
        | (.error _, _) => []
      else []
  | (.error _, _) => []

/-- The state the input phase keeps from one iteration to the next, with what has
been polled and what has been sent so far. -/
structure InputSys where
  lastInputFlushMs : UInt64
  polled : List InputEvent
  wire : List (List UInt8)
deriving DecidableEq

namespace InputSys

def init : InputSys := ⟨0, [], []⟩

/-- The input phase of one iteration. -/
def inputPhase (s : InputSys) (it : InputIteration) : InputSys :=
  let (batch, taken) := inputPoll it.offered vmcInputBatchReset
  let s := { s with polled := s.polled ++ taken }
  if it.nowMs - s.lastInputFlushMs ≥ inputFlushMs ∧ batch.count > 0 then
    { s with wire := s.wire ++ inputSend batch it, lastInputFlushMs := it.nowMs }
  else
    s

def step (s : InputSys) (it : InputIteration) : Option InputSys := some (s.inputPhase it)

/-- The events a receiver finds in a datagram. -/
def eventsOf (pkt : List UInt8) : List InputEvent :=
  match vmcProtoDecode pkt ⟨readHeader [], []⟩ with
  | (.ok, d) =>
      if d.h.stream = streamInput then
        match vmcInputBatchDeserialize d.payload vmcInputBatchReset with
        | (.ok, b) => b.events
        | _ => []
      else []
  | _ => []

/-- The events in all the datagrams sent, one datagram after the other. -/
def sent (s : InputSys) : List InputEvent := s.wire.flatMap eventsOf

/-- The code's test for a flush, which sees the events of this iteration only. -/
def FlushDue (s : InputSys) (it : InputIteration) : Prop :=
  inputFlushMs ≤ it.nowMs - s.lastInputFlushMs ∧ it.offered ≠ []

instance (s : InputSys) (it : InputIteration) : Decidable (s.FlushDue it) :=
  inferInstanceAs (Decidable (_ ∧ _))

/-! ## what one iteration does -/

theorem inputPoll_eq (offered : List InputEvent) (b : InputBatch) :
    (inputPoll offered b).1.events = (b.events ++ offered).take 32 ∧
      (inputPoll offered b).2 = offered.take (33 - b.events.length) := by
  induction offered generalizing b with
  | nil =>
      have h := b.fits
      rw [vmcInputBatchMaxEvents] at h
      simp [inputPoll, List.take_of_length_le h]
  | cons ev rest ih =>
      have h := b.fits
      rw [vmcInputBatchMaxEvents] at h
      by_cases hfull : b.events.length = 32
      · have hpush : vmcInputBatchPush b ev = (.overrun, b) := by
          simp [vmcInputBatchPush, vmcInputBatchFull, vmcInputBatchMaxEvents, hfull]
        simp [inputPoll, hpush, hfull, List.take_left' hfull]
      · obtain ⟨b', hb', hpush⟩ : ∃ b', b'.events = b.events ++ [ev] ∧
            vmcInputBatchPush b ev = (.ok, b') := by
          refine ⟨_, ?_, dif_neg ?_⟩
          · rfl
          · simp [vmcInputBatchFull, vmcInputBatchMaxEvents]
            omega
        obtain ⟨h1, h2⟩ := ih b'
        rw [hb', List.append_assoc] at h1
        rw [hb', List.length_append, List.length_singleton] at h2
        have htake : 33 - b.events.length = (33 - (b.events.length + 1)) + 1 := by omega
        simp only [inputPoll, hpush]
        rw [htake, List.take_succ_cons, ← h2]
        exact ⟨h1, rfl⟩

/-- Behind the header, `pkt` has room for any batch. -/
theorem le_length_drop_pkt (batch : InputBatch) (it : InputIteration) :
    batch.bytes.length ≤ (it.pkt.drop vmcProtoHeaderSize).length := by
  have hfits := batch.fits
  have hroom : 514 ≤ (it.pkt.drop vmcProtoHeaderSize).length := by
    rw [List.length_drop, it.pkt_length]
    decide
  rw [vmcInputBatchMaxEvents] at hfits
  rw [InputBatch.length_bytes]
  omega

/-- A batch is sent as one datagram that holds its bytes. -/
theorem inputSend_eq (batch : InputBatch) (it : InputIteration) :
    inputSend batch it = [datagram (inputHeader batch it) batch.bytes] ∧
      vmcProtoHeaderValid (inputHeader batch it) ∧
      batch.bytes.length = (inputHeader batch it).payloadLen.toNat := by
  have hfits := batch.fits
  have hlen := batch.length_bytes
  rw [vmcInputBatchMaxEvents] at hfits
  have hbatch : 17 + batch.bytes.length ≤ it.batchPkt.length := by
    rw [it.batchPkt_length, batchPktSize, vmcProtoHeaderSize, vmcInputBatchMaxEvents,
      inputEventSize]
    omega
  have hp : batch.bytes.length = (inputHeader batch it).payloadLen.toNat := by
    simp only [inputHeader, InputBatch.toNat_count, inputEventSize, UInt16.toNat_ofNat']
    omega
  have hv : vmcProtoHeaderValid (inputHeader batch it) := by
    simp [vmcProtoHeaderValid, inputHeader]
  refine ⟨?_, hv, hp⟩
  unfold inputSend
  rw [serialize_eq (le_length_drop_pkt batch it)]
  simp only
  rw [if_pos (by omega), encode_take, ← hp, List.take_left, encode_eq hv hp hbatch]
  simp only
  rw [if_pos (by omega), List.take_left' (length_datagram _ _)]

/-- The receiver finds the events of the batch in it. -/
theorem eventsOf_inputSend (batch : InputBatch) (it : InputIteration) :
    (inputSend batch it).flatMap eventsOf = batch.events := by
  obtain ⟨hsend, hv, hp⟩ := inputSend_eq batch it
  have hwf := wellFormed_datagram_append hv hp []
  have hread := readHeader_datagram_append (inputHeader batch it) batch.bytes []
  have hpay := payloadOf_datagram_append hp []
  have hdes := deserialize_bytes batch vmcInputBatchReset []
  rw [List.append_nil] at hwf hread hpay hdes
  rw [hsend, List.flatMap_singleton, eventsOf, decode_of_wellFormed hwf]
  simp only [hread, hpay, hdes]
  rfl

/-- The batch is not empty when something was polled. -/
theorem flushDue_iff (s : InputSys) (it : InputIteration) :
    (it.nowMs - s.lastInputFlushMs ≥ inputFlushMs ∧
      (inputPoll it.offered vmcInputBatchReset).1.count > 0) ↔ s.FlushDue it := by
  have hevents := (inputPoll_eq it.offered vmcInputBatchReset).1
  rw [FlushDue, ge_iff_le, gt_iff_lt, UInt16.lt_iff_toNat_lt, InputBatch.toNat_count, hevents]
  simp [vmcInputBatchReset, List.length_pos_iff]

theorem polled_inputPhase (s : InputSys) (it : InputIteration) :
    (s.inputPhase it).polled = s.polled ++ it.offered.take 33 := by
  have htaken := (inputPoll_eq it.offered vmcInputBatchReset).2
  simp only [inputPhase, htaken]
  split <;> rfl

theorem sent_inputPhase (s : InputSys) (it : InputIteration) :
    (s.inputPhase it).sent =
      s.sent ++ if s.FlushDue it then it.offered.take 32 else [] := by
  have hevents := (inputPoll_eq it.offered vmcInputBatchReset).1
  simp only [inputPhase, flushDue_iff]
  by_cases hdue : s.FlushDue it
  · simp only [hdue, if_true, sent, List.flatMap_append, eventsOf_inputSend, hevents]
    rfl
  · simp [hdue, sent]

/-! ## what a run loses -/

/-- The iteration polls nothing, or it is at least 4 ms after the previous flush
and polls no more than a batch holds. -/
def Prompt (s : InputSys) (it : InputIteration) : Prop :=
  it.offered = [] ∨ (inputFlushMs ≤ it.nowMs - s.lastInputFlushMs ∧ it.offered.length ≤ 32)

instance (s : InputSys) (it : InputIteration) : Decidable (s.Prompt it) :=
  inferInstanceAs (Decidable (_ ∨ _))

/-- How many of the events polled so far are in no datagram. -/
def lost (s : InputSys) : Nat := s.polled.length - s.sent.length

/-- Nothing lost comes back, and an iteration adds nothing to it exactly if it is
prompt. -/
theorem lost_inputPhase {s : InputSys} (it : InputIteration)
    (hle : s.sent.length ≤ s.polled.length) :
    (s.inputPhase it).sent.length ≤ (s.inputPhase it).polled.length ∧
      s.lost ≤ (s.inputPhase it).lost ∧ ((s.inputPhase it).lost = s.lost ↔ s.Prompt it) := by
  simp only [lost, polled_inputPhase, sent_inputPhase, List.length_append, List.length_take]
  by_cases hnil : it.offered = []
  · simp [Prompt, hnil, hle]
  · have hpos : 0 < it.offered.length := List.length_pos_iff.mpr hnil
    by_cases hms : inputFlushMs ≤ it.nowMs - s.lastInputFlushMs
    · rw [if_pos ⟨hms, hnil⟩]
      simp only [Prompt, hnil, hms, List.length_take, true_and, false_or]
      omega
    · rw [if_neg fun h => hms h.1]
      simp only [Prompt, hnil, hms, List.length_nil, false_and, or_false, iff_false]
      omega

theorem step_eq {s s' : InputSys} {it : InputIteration} (h : step s it = some s') :
    s' = s.inputPhase it :=
  (Option.some.inj h).symm

/-- A prompt iteration sends what it polls. -/
theorem sent_eq_of_prompt {s : InputSys} {it : InputIteration} (h : s.sent = s.polled)
    (hprompt : s.Prompt it) : (s.inputPhase it).sent = (s.inputPhase it).polled := by
  rw [sent_inputPhase, polled_inputPhase, h]
  obtain hnil | ⟨hms, hlen⟩ := hprompt
  · simp [hnil]
  · by_cases hnil : it.offered = []
    · simp [hnil]
    · rw [if_pos ⟨hms, hnil⟩, List.take_of_length_le hlen, List.take_of_length_le (by omega)]

/-- Everything polled in a run is in the datagrams, in order, exactly if the run
is prompt. -/
theorem sent_eq_polled_iff {es : List InputIteration} {s : InputSys}
    (hrun : Run.exec step init es = some s) :
    s.sent = s.polled ↔ Run.Along step Prompt init es := by
  constructor
  · intro h
    have hpot : init.lost ≤ s.lost ∧ (s.lost = init.lost ↔ Run.Along step Prompt init es) :=
      Run.along_iff_of_potential (fun s : InputSys => s.sent.length ≤ s.polled.length) lost
        (fun s it s' hle _ hs' => step_eq hs' ▸ lost_inputPhase it hle) (le_refl _)
        (Run.along_true init es) hrun
    exact hpot.2.mp (by simp [lost, h, init])
  · intro h
    exact Run.exec_invariant (fun s : InputSys => s.sent = s.polled)
      (fun s it s' hs hok hs' => step_eq hs' ▸ sent_eq_of_prompt hs hok) rfl h hrun

/-! ## delivery -/

/-- The flush cadence is up: the iteration is at least 4 ms after the previous
flush. -/
def CadenceUp (s : InputSys) (it : InputIteration) : Prop :=
  inputFlushMs ≤ it.nowMs - s.lastInputFlushMs

/-- A flush is owed: the cadence is up and something was polled, in this
iteration or before it, that is in no datagram. -/
def FlushOwed (s : InputSys) (it : InputIteration) : Prop :=
  s.CadenceUp it ∧ (it.offered ≠ [] ∨ s.sent ≠ s.polled)

instance (s : InputSys) (it : InputIteration) : Decidable (s.FlushOwed it) :=
  inferInstanceAs (Decidable (_ ≤ _ ∧ _))

/-- The delivery promise for one run: after every iteration the datagrams sent
hold the first events polled, each once and in polling order, and after one that
owed a flush all of them. -/
def InputsDelivered (es : List InputIteration) : Prop :=
  ∀ pre it s, pre ++ [it] <+: es → Run.exec step init pre = some s →
    (s.inputPhase it).sent <+: (s.inputPhase it).polled ∧
      (s.FlushOwed it → (s.inputPhase it).sent = (s.inputPhase it).polled)

theorem exec_snoc {pre : List InputIteration} {s : InputSys} (it : InputIteration)
    (h : Run.exec step init pre = some s) :
    Run.exec step init (pre ++ [it]) = some (s.inputPhase it) :=
  Run.exec_append_of step h rfl

theorem exec_snoc_inv {pre : List InputIteration} {it : InputIteration} {t : InputSys}
    (h : Run.exec step init (pre ++ [it]) = some t) :
    ∃ s, Run.exec step init pre = some s ∧ t = s.inputPhase it := by
  obtain ⟨s, hs, ht⟩ := (Run.exec_append_eq_some step).mp h
  exact ⟨s, hs, (Option.some.inj ht).symm⟩

/-- Between flushes the datagrams hold the first events polled, if all are there
whenever the cadence is up. -/
theorem sent_prefix_polled {es : List InputIteration}
    (hflush : ∀ pre it s, pre ++ [it] <+: es → Run.exec step init pre = some s →
      s.CadenceUp it → (s.inputPhase it).sent = (s.inputPhase it).polled) :
    ∀ {pre t}, pre <+: es → Run.exec step init pre = some t → t.sent <+: t.polled := by
  intro pre
  induction pre using List.reverseRecOn with
  | nil =>
      intro t _ ht
      obtain rfl := Option.some.inj ht
      exact List.prefix_refl _
  | append_singleton pre it ih =>
      intro t hpre ht
      obtain ⟨s, hs, rfl⟩ := exec_snoc_inv ht
      by_cases hdue : s.FlushDue it
      · rw [hflush pre it s hpre hs hdue.1]
      · have hprev := ih ((List.prefix_append pre [it]).trans hpre) hs
        rw [sent_inputPhase, polled_inputPhase, if_neg hdue, List.append_nil]
        exact hprev.trans (List.prefix_append _ _)

/-- An iteration that owes nothing polls nothing and finds all sent. -/
theorem prompt_of_nothing_owed {pre : List InputIteration} {it : InputIteration} {s : InputSys}
    (hrun : Run.exec step init pre = some s) (hup : s.CadenceUp it) (howed : ¬ s.FlushOwed it) :
    Run.Along step Prompt init (pre ++ [it]) := by
  obtain ⟨hnil, hall⟩ : it.offered = [] ∧ s.sent = s.polled := by
    simpa [FlushOwed, hup] using howed
  refine (sent_eq_polled_iff (exec_snoc it hrun)).mp ?_
  exact sent_eq_of_prompt hall (.inl hnil)

/-- **When input events arrive.**  A run of the main loop delivers its input
events exactly if, up to its last iteration with the cadence up, no iteration
polls an event less than 4 ms after the flush before it or more than 32 events
at once. -/
theorem inputs_delivered_iff (es : List InputIteration) :
    InputsDelivered es ↔ ∀ pre it s, pre ++ [it] <+: es → Run.exec step init pre = some s →
      s.CadenceUp it → Run.Along step Prompt init (pre ++ [it]) := by
  constructor
  · intro h pre it s hpre hrun hup
    by_cases howed : s.FlushOwed it
    · exact (sent_eq_polled_iff (exec_snoc it hrun)).mp ((h pre it s hpre hrun).2 howed)
    · exact prompt_of_nothing_owed hrun hup howed
  · intro h
    have hflush : ∀ pre it s, pre ++ [it] <+: es → Run.exec step init pre = some s →
        s.CadenceUp it → (s.inputPhase it).sent = (s.inputPhase it).polled := by
      intro pre it s hpre hrun hup
      exact (sent_eq_polled_iff (exec_snoc it hrun)).mpr (h pre it s hpre hrun hup)
    intro pre it s hpre hrun
    exact ⟨sent_prefix_polled hflush hpre (exec_snoc it hrun),
      fun howed => hflush pre it s hpre hrun howed.1⟩

/-- An iteration with clean buffers. -/
def iterationAt (nowMs : UInt64) (offered : List InputEvent) : InputIteration where
  nowMs := nowMs
  offered := offered
  txSeq := 0
  pkt := List.replicate vmcProtoMaxPacket 0
  batchPkt := List.replicate batchPktSize 0
  pkt_length := List.length_replicate
  batchPkt_length := List.length_replicate

/-- A touch at `x` on the top edge of the panel. -/
def touchAt (x : UInt16) : InputEvent := ⟨1, 0, x, 0, 512, 0, 0⟩

/-- Three iterations at the flush cadence. -/
def steadyTouches : List InputIteration :=
  [iterationAt 10 [touchAt 1], iterationAt 14 [touchAt 2, touchAt 3], iterationAt 18 []]

theorem inputs_delivered_iff_steady : InputsDelivered steadyTouches := by
  refine (inputs_delivered_iff steadyTouches).mpr fun pre it s hpre _ _ => ?_
  have hall : Run.Along step Prompt init steadyTouches := by decide +kernel
  obtain ⟨rest, hrest⟩ := hpre
  rw [← hrest] at hall
  exact (Run.along_append.mp hall).1

/-- The same with the middle iteration one millisecond after a flush. -/
def hurriedTouches : List InputIteration :=
  [iterationAt 10 [touchAt 1], iterationAt 11 [touchAt 2], iterationAt 18 [touchAt 3]]

/-- Input events are never lost. -/
def InputsNeverLost : Prop := ∀ es, InputsDelivered es

theorem inputsNeverLost_fails : ¬ InputsNeverLost := by
  intro h
  -- the touch polled 1 ms after the first flush is gone when the third is sent
  have hrun : Run.exec step init [iterationAt 10 [touchAt 1], iterationAt 11 [touchAt 2]] =
      some ((init.inputPhase (iterationAt 10 [touchAt 1])).inputPhase
        (iterationAt 11 [touchAt 2])) := rfl
  have hall := (h hurriedTouches _ _ _ (List.prefix_refl _) hrun).2 (by decide +kernel)
  have hprompt := (sent_eq_polled_iff (exec_snoc _ hrun)).mp hall
  exact absurd hprompt (by decide +kernel)

end InputSys

end Vmc
