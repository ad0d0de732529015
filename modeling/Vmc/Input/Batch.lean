import Vmc.Transport.Protocol

/-!
# Vmc.Input.Batch

The input batch of `input/batch.c`: up to 32 touch, button and sensor events,
collected by `vmc_input_batch_push` and put on the wire as a 16-bit count and
sixteen little-endian bytes for each event.

`serialize_eq` and `deserialize_bytes` are the two halves of the round trip.
The batch is a list with its bound; `count` is the length of the list.
-/

namespace Vmc

open Bytes

/-! ## events and batches -/

/-- `VMC_INPUT_BATCH_MAX_EVENTS`. -/
def vmcInputBatchMaxEvents : Nat := 32

/-- `vmc_input_event`. -/
structure InputEvent where
  type : UInt16
  slot : UInt16
  x : UInt16
  y : UInt16
  pressure : UInt16
  buttons : UInt16
  tsUs : UInt32
deriving DecidableEq, Repr

/-- `sizeof(vmc_input_event)`. -/
def inputEventSize : Nat := 16

/-- `vmc_input_batch`: the used part of `events`. -/
structure InputBatch where
  events : List InputEvent
  fits : events.length ≤ vmcInputBatchMaxEvents
deriving DecidableEq, Repr

namespace InputBatch

def count (b : InputBatch) : UInt16 := UInt16.ofNat b.events.length

@[simp] theorem toNat_count (b : InputBatch) : b.count.toNat = b.events.length := by
  have h := b.fits
  rw [vmcInputBatchMaxEvents] at h
  simp only [count, UInt16.toNat_ofNat']
  omega

end InputBatch

def vmcInputBatchReset : InputBatch := ⟨[], by decide⟩

def vmcInputBatchFull (b : InputBatch) : Bool := vmcInputBatchMaxEvents ≤ b.count.toNat

/-- `vmc_input_batch_push`: the status and the batch after the call. -/
def vmcInputBatchPush (b : InputBatch) (ev : InputEvent) : Status × InputBatch :=
  if h : vmcInputBatchFull b then
    (.overrun, b)
  else
    (.ok, ⟨b.events ++ [ev], by
      simp only [vmcInputBatchFull, InputBatch.toNat_count, decide_eq_true_eq, Nat.not_le] at h
      simpa using h⟩)

/-! ## wire form -/

/-- The field writes for one event at `p`. -/
def putEvent (out : List UInt8) (p : Nat) (e : InputEvent) : List UInt8 :=
  let out := wr16 out (p + 0) e.type
  let out := wr16 out (p + 2) e.slot
  let out := wr16 out (p + 4) e.x
  let out := wr16 out (p + 6) e.y
  let out := wr16 out (p + 8) e.pressure
  let out := wr16 out (p + 10) e.buttons
  wr32 out (p + 12) e.tsUs

/-- The loop of `vmc_input_batch_serialize`. -/
def putEvents (out : List UInt8) (p : Nat) : List InputEvent → List UInt8
  | [] => out
  | e :: es => putEvents (putEvent out p e) (p + inputEventSize) es

/-- `vmc_input_batch_serialize`: the bytes written or the error, and the buffer
as the call leaves it.  The length of `out` is the capacity. -/
def vmcInputBatchSerialize (b : InputBatch) (out : List UInt8) : Except Status Nat × List UInt8 :=
  let need := 2 + b.count.toNat * inputEventSize
  if out.length < need then
    (.error .nomem, out)
  else
    (.ok need, putEvents (wr16 out 0 b.count) 2 b.events)

/-- The field reads for the event at the front of `p`. -/
def getEvent (p : List UInt8) : InputEvent where
  type := rd16 p 0
  slot := rd16 p 2
  x := rd16 p 4
  y := rd16 p 6
  pressure := rd16 p 8
  buttons := rd16 p 10
  tsUs := rd32 p 12

/-- The loop of `vmc_input_batch_deserialize`. -/
def getEvents : Nat → List UInt8 → List InputEvent
  | 0, _ => []
  | n + 1, p => getEvent p :: getEvents n (p.drop inputEventSize)

theorem length_getEvents (n : Nat) (p : List UInt8) : (getEvents n p).length = n := by
  induction n generalizing p with
  | zero => rfl
  | succ n ih => simp [getEvents, ih]

/-- `vmc_input_batch_deserialize`: the status, and `*out` after the call. -/
def vmcInputBatchDeserialize (data : List UInt8) (out : InputBatch) : Status × InputBatch :=
  if data.length < 2 then
    (.proto, out)
  else
    let count := rd16 data 0
    let need := 2 + count.toNat * inputEventSize
    if need > data.length then
      (.proto, out)
    else if h : count.toNat > vmcInputBatchMaxEvents then
      (.proto, out)
    else
      (.ok, ⟨getEvents count.toNat (data.drop 2), by
        rw [length_getEvents]
        exact Nat.le_of_not_gt h⟩)

/-! ## round trip -/

/-- The sixteen bytes of an event. -/
def InputEvent.bytes (e : InputEvent) : List UInt8 :=
  [lo16 e.type, hi16 e.type, lo16 e.slot, hi16 e.slot, lo16 e.x, hi16 e.x, lo16 e.y, hi16 e.y,
    lo16 e.pressure, hi16 e.pressure, lo16 e.buttons, hi16 e.buttons,
    byte32 e.tsUs 0, byte32 e.tsUs 8, byte32 e.tsUs 16, byte32 e.tsUs 24]

@[simp] theorem InputEvent.length_bytes (e : InputEvent) : e.bytes.length = 16 := rfl

/-- The bytes of a batch on the wire. -/
def InputBatch.bytes (b : InputBatch) : List UInt8 :=
  [lo16 b.count, hi16 b.count] ++ b.events.flatMap InputEvent.bytes

theorem length_flatMap_bytes (es : List InputEvent) :
    (es.flatMap InputEvent.bytes).length = 16 * es.length := by
  induction es with
  | nil => rfl
  | cons e es ih =>
      rw [List.flatMap_cons, List.length_append, ih, InputEvent.length_bytes, List.length_cons]
      omega

@[simp] theorem InputBatch.length_bytes (b : InputBatch) :
    b.bytes.length = 2 + 16 * b.events.length := by
  rw [InputBatch.bytes, List.length_append, length_flatMap_bytes]
  rfl

theorem putEvent_eq {out : List UInt8} {p : Nat} (e : InputEvent) (h : p + 16 ≤ out.length) :
    putEvent out p e = splice out p e.bytes := by
  rw [putEvent, wr16_eq_splice (i := p + 0) (by omega), wr16_splice (k := p + 2) _ rfl (by omega),
    wr16_splice (k := p + 4) _ rfl (by omega), wr16_splice (k := p + 6) _ rfl (by omega),
    wr16_splice (k := p + 8) _ rfl (by omega), wr16_splice (k := p + 10) _ rfl (by omega),
    wr32_splice (k := p + 12) _ rfl (by omega)]
  rfl

theorem putEvents_eq {out : List UInt8} {p : Nat} (es : List InputEvent)
    (h : p + 16 * es.length ≤ out.length) :
    putEvents out p es = splice out p (es.flatMap InputEvent.bytes) := by
  induction es generalizing out p with
  | nil => simp [putEvents]
  | cons e es ih =>
      rw [List.length_cons] at h
      have he : putEvent out p e = splice out p e.bytes := putEvent_eq e (by omega)
      have hlen : (putEvent out p e).length = out.length := by
        rw [he]
        exact length_splice (by rw [InputEvent.length_bytes]; omega)
      rw [putEvents, inputEventSize, ih (by omega), he, List.flatMap_cons]
      exact splice_splice _ (by rw [InputEvent.length_bytes]; omega)

/-- A batch that fits the buffer is written over its front. -/
theorem serialize_eq {b : InputBatch} {out : List UInt8} (h : b.bytes.length ≤ out.length) :
    vmcInputBatchSerialize b out =
      (.ok b.bytes.length, b.bytes ++ out.drop b.bytes.length) := by
  have hneed : 2 + b.count.toNat * inputEventSize = b.bytes.length := by
    rw [InputBatch.toNat_count, InputBatch.length_bytes, inputEventSize]
    omega
  rw [InputBatch.length_bytes] at h
  have hput : putEvents (wr16 out 0 b.count) 2 b.events = splice out 0 b.bytes := by
    have hcap : 0 + [lo16 b.count, hi16 b.count].length ≤ out.length := by
      simp only [List.length_cons, List.length_nil]
      omega
    rw [wr16_eq_splice (by omega), putEvents_eq _ (by rw [length_splice hcap]; exact h)]
    exact splice_splice _ hcap
  unfold vmcInputBatchSerialize
  simp only [hneed]
  rw [if_neg (by rw [InputBatch.length_bytes]; omega), hput]
  simp [splice]

theorem getEvent_bytes (e : InputEvent) (rest : List UInt8) : getEvent (e.bytes ++ rest) = e := by
  have ht := le32_byte32 e.tsUs
  simp [getEvent, InputEvent.bytes, rd16, rd32, ht]

theorem getEvents_bytes (es : List InputEvent) (rest : List UInt8) :
    getEvents es.length (es.flatMap InputEvent.bytes ++ rest) = es := by
  induction es with
  | nil => rfl
  | cons e es ih =>
      rw [List.flatMap_cons, List.append_assoc, List.length_cons, getEvents, getEvent_bytes,
        inputEventSize, List.drop_left' (InputEvent.length_bytes e), ih]

/-- Reading a batch back from its bytes, whatever follows them. -/
theorem deserialize_bytes (b out : InputBatch) (rest : List UInt8) :
    vmcInputBatchDeserialize (b.bytes ++ rest) out = (.ok, b) := by
  have hlen : (b.bytes ++ rest).length = 2 + 16 * b.events.length + rest.length := by simp
  have hcount : rd16 (b.bytes ++ rest) 0 = b.count := by
    simp [InputBatch.bytes, rd16]
  have hevents : getEvents b.events.length ((b.bytes ++ rest).drop 2) = b.events :=
    getEvents_bytes b.events rest
  have hfits := b.fits
  unfold vmcInputBatchDeserialize
  simp only [hcount, InputBatch.toNat_count, inputEventSize, hlen, hevents]
  rw [if_neg (by omega), if_neg (by omega), dif_neg (by omega)]

/-! ## what the reader accepts -/

/-- The count a batch on the wire announces. -/
def announcedCount (data : List UInt8) : Nat := (data.getD 0 0).toNat + 256 * (data.getD 1 0).toNat

/-- The batches the format admits: a count within the bound, and the bytes of as
many events behind it. -/
structure WellFormedBatch (data : List UInt8) : Prop where
  header : 2 ≤ data.length
  bounded : announcedCount data ≤ 32
  complete : 2 + 16 * announcedCount data ≤ data.length

theorem toNat_rd16_zero (data : List UInt8) : (rd16 data 0).toNat = announcedCount data := by
  rw [rd16, toNat_le16, announcedCount]

/-- A well-formed batch is accepted with the events behind the count, anything
else is refused and leaves the batch as it was. -/
theorem deserialize_eq (data : List UInt8) (out : InputBatch) :
    (WellFormedBatch data ∧ ∃ b : InputBatch,
      vmcInputBatchDeserialize data out = (.ok, b) ∧
      b.events = getEvents (announcedCount data) (data.drop 2)) ∨
    (¬ WellFormedBatch data ∧ vmcInputBatchDeserialize data out = (.proto, out)) := by
  unfold vmcInputBatchDeserialize
  by_cases hlen : data.length < 2
  · rw [if_pos hlen]
    refine .inr ⟨fun h => ?_, rfl⟩
    have := h.header
    omega
  rw [if_neg hlen]
  simp only [toNat_rd16_zero, inputEventSize, vmcInputBatchMaxEvents]
  by_cases hneed : 2 + announcedCount data * 16 > data.length
  · rw [if_pos hneed]
    refine .inr ⟨fun h => ?_, rfl⟩
    have := h.complete
    omega
  rw [if_neg hneed]
  by_cases hmax : announcedCount data > 32
  · rw [dif_pos hmax]
    refine .inr ⟨fun h => ?_, rfl⟩
    have := h.bounded
    omega
  · rw [dif_neg hmax]
    exact .inl ⟨⟨by omega, by omega, by omega⟩, _, rfl, rfl⟩

/-- Sixteen bytes are those of the event read from them. -/
theorem bytes_getEvent {p : List UInt8} (h : 16 ≤ p.length) : (getEvent p).bytes = p.take 16 := by
  have hlen : (p.take 16).length = 16 := by simp [h]
  rw [← List.take_append_drop 16 p]
  match p.take 16, hlen with
  | [b0, b1, b2, b3, b4, b5, b6, b7, b8, b9, b10, b11, b12, b13, b14, b15], _ =>
      obtain ⟨h12, h13, h14, h15⟩ := byte32_le32 b12 b13 b14 b15
      simp [getEvent, InputEvent.bytes, rd16, rd32, h12, h13, h14, h15]

theorem flatMap_bytes_getEvents {n : Nat} {p : List UInt8} (h : 16 * n ≤ p.length) :
    (getEvents n p).flatMap InputEvent.bytes = p.take (16 * n) := by
  induction n generalizing p with
  | zero => simp [getEvents]
  | succ n ih =>
      have hrest : 16 * n ≤ (p.drop 16).length := by
        rw [List.length_drop]
        omega
      rw [getEvents, List.flatMap_cons, bytes_getEvent (by omega), inputEventSize, ih hrest,
        Nat.mul_add, Nat.mul_one, Nat.add_comm, List.take_add]

/-- A well-formed batch starts with the bytes of what is read from it. -/
theorem bytes_of_events_eq {data : List UInt8} (hw : WellFormedBatch data) {b : InputBatch}
    (hb : b.events = getEvents (announcedCount data) (data.drop 2)) :
    b.bytes = data.take (2 + 16 * announcedCount data) := by
  have hcount : b.count = rd16 data 0 := by
    apply UInt16.toNat_inj.mp
    rw [InputBatch.toNat_count, hb, length_getEvents, toNat_rd16_zero]
  have hhead : [lo16 b.count, hi16 b.count] = data.take 2 := by
    have hheader := hw.header
    rw [hcount]
    rcases data with _ | ⟨b0, _ | ⟨b1, rest⟩⟩
    · simp at hheader
    · simp at hheader
    · simp [rd16]
  have hevents : b.events.flatMap InputEvent.bytes =
      (data.drop 2).take (16 * announcedCount data) := by
    have hcomplete := hw.complete
    rw [hb, flatMap_bytes_getEvents]
    rw [List.length_drop]
    omega
  rw [InputBatch.bytes, hhead, hevents, List.take_add]

/-- **The batch codec is exact in both directions.**  A batch written into a
buffer that holds it is read back, whatever follows; writing out what was read
reproduces the bytes; the reader accepts the well-formed strings only, and
leaves its batch alone otherwise. -/
theorem input_batch_codec_exact :
    (∀ (b out : InputBatch) (buf rest : List UInt8), 2 + 16 * b.count.toNat ≤ buf.length →
      ∃ buf', vmcInputBatchSerialize b buf = (.ok (2 + 16 * b.count.toNat), buf') ∧
        vmcInputBatchDeserialize (buf'.take (2 + 16 * b.count.toNat) ++ rest) out = (.ok, b)) ∧
    (∀ (data dst : List UInt8) (out b : InputBatch),
      vmcInputBatchDeserialize data out = (.ok, b) → 2 + 16 * b.count.toNat ≤ dst.length →
      ∃ dst', vmcInputBatchSerialize b dst = (.ok (2 + 16 * b.count.toNat), dst') ∧
        dst'.take (2 + 16 * b.count.toNat) = data.take (2 + 16 * b.count.toNat)) ∧
    (∀ (data : List UInt8) (out : InputBatch),
      ((vmcInputBatchDeserialize data out).1 = .ok ↔ WellFormedBatch data) ∧
      ((vmcInputBatchDeserialize data out).1 ≠ .ok →
        (vmcInputBatchDeserialize data out).2 = out)) := by
  refine ⟨?_, ?_, ?_⟩
  · intro b out buf rest hcap
    rw [InputBatch.toNat_count, ← InputBatch.length_bytes] at hcap ⊢
    refine ⟨_, serialize_eq hcap, ?_⟩
    rw [List.take_left, deserialize_bytes]
  · intro data dst out b hdec hcap
    obtain ⟨hw, b', heq, hevents⟩ | ⟨_, heq⟩ := deserialize_eq data out
    · obtain rfl : b' = b := by
        rw [hdec] at heq
        exact (congrArg Prod.snd heq).symm
      have hlen : announcedCount data = b'.events.length := by rw [hevents, length_getEvents]
      have hbytes := bytes_of_events_eq hw hevents
      rw [hlen, ← InputBatch.length_bytes] at hbytes
      rw [InputBatch.toNat_count, ← InputBatch.length_bytes] at hcap ⊢
      refine ⟨_, serialize_eq hcap, ?_⟩
      rw [List.take_left, ← hbytes]
    · rw [hdec] at heq
      cases congrArg Prod.fst heq
  · intro data out
    obtain ⟨hw, b, heq, _⟩ | ⟨hw, heq⟩ := deserialize_eq data out
    · exact ⟨by simp [heq, hw], fun h => absurd (congrArg Prod.fst heq) h⟩
    · exact ⟨by simp [heq, hw], fun _ => congrArg Prod.snd heq⟩

/-- Two touches, the second at the far corner. -/
def sampleBatch : InputBatch where
  events := [⟨1, 0, 100, 200, 50, 0, 1000⟩, ⟨2, 1, 0xffff, 0xffff, 0, 3, 0xffffffff⟩]
  fits := by decide

theorem input_batch_codec_exact_sample :
    ∃ buf', vmcInputBatchSerialize sampleBatch (List.replicate 40 0) = (.ok 34, buf') ∧
      vmcInputBatchDeserialize (buf'.take 34 ++ [9]) vmcInputBatchReset = (.ok, sampleBatch) :=
  input_batch_codec_exact.1 sampleBatch vmcInputBatchReset (List.replicate 40 0) [9] (by decide)

end Vmc
