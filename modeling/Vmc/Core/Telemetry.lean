import Vmc.Lib.Bytes
import Vmc.Lib.Digits
import Vmc.Lib.Run
import Vmc.Lib.Pool

/-!
# Vmc.Core.Telemetry

The telemetry ring (`core/telemetry.c`): any number of producers, one writer
thread, and no lock.

A producer numbers its event, formats the line, reserves an index of the ring
with a fetch-add, and only then looks whether the slot there is free; if it is
not, or another producer gets hold of it first, the event is dropped and
counted.  Otherwise it copies the line into the slot and marks it FILLED.  The
writer walks the indices one by one, hands each FILLED slot to the sinks and
marks it EMPTY again; between two such passes it writes its own lines, the
clock and the count of dropped events.

The threads interleave at their accesses of what they share: `Telemetry` is
that, together with where each thread is, and `tlmStep` one access.  Copying and
reading a line go byte by byte.

Modules on top of this one take up who may write a slot, in which order the
slots are written out, and what becomes of every event.
-/

namespace Vmc

open Bytes

/-! ## data model -/

def tlmRingSlots : Nat := 16384

def tlmSlotCap : Nat := 384

inductive TlmState where
  | empty
  | claimed
  | filled
deriving DecidableEq, Repr

/-- A call of `vmc_tlm_emit` with its time and sequence number. -/
structure Emit where
  type : List UInt8
  fields : List UInt8
  ts : UInt64
  seq : UInt64
deriving DecidableEq, Repr

/-- The line formatted for it. -/
def Emit.line (e : Emit) : List UInt8 :=
  ascii "\x7b\"t\":\"" ++ e.type ++ ascii "\",\"ts\":" ++ Digits.print 10 e.ts.toNat ++
    ascii ",\"seq\":" ++ Digits.print 10 e.seq.toNat ++ ascii "," ++ e.fields ++ ascii "\x7d\n"

/-- An index of the ring that a producer has reserved, and for which event.  How
many indices were reserved before is not in the program. -/
structure Reservation where
  h : UInt32
  number : Nat
  emit : Emit
deriving DecidableEq, Repr

/-- The slot a cursor points at. -/
def tlmIndex (h : UInt32) : Nat := h.toNat % tlmRingSlots

/-- `tlm_slot`.  The event whose line it is being given or holds, until the line
is handed to the sinks, is not in the program. -/
structure TlmSlot where
  buf : List UInt8
  len : UInt16
  state : TlmState
  owner : Option Reservation
  bufSize : buf.length = tlmSlotCap
deriving DecidableEq

/-- What `vmc_tlm_init` makes of a slot. -/
def TlmSlot.reset (x : TlmSlot) : TlmSlot := { x with state := .empty, owner := none }

/-- Copy one byte into the slot. -/
def TlmSlot.write (x : TlmSlot) (k : Nat) (b : UInt8) : TlmSlot :=
  { x with buf := x.buf.set k b, bufSize := by rw [List.length_set, x.bufSize] }

/-- Where a producer is in `vmc_tlm_emit`. -/
inductive EmitPc where
  | idle
  | numbered (e : Emit)
  | reserved (r : Reservation)
  | sawEmpty (r : Reservation)
  | refused (r : Reservation)
  | filling (r : Reservation) (k : Nat)
  | sized (r : Reservation)
deriving DecidableEq, Repr

/-- Where the writer is in `tlm_writer`. -/
inductive WriterPc where
  | loopTest
  | loadHead
  | draining (head : UInt32)
  | found (head : UInt32)
  | reading (head : UInt32) (len : Nat) (got : List UInt8)
  | written (head : UInt32)
  | clock
  | overflow
  | exchange (dropped : UInt64)
  | report (dropped : UInt64)
  | final
  | finalReport (dropped : UInt64)
  | exited
deriving DecidableEq, Repr

/-- A line handed to `tlm_write_sinks`: one from the ring, with the event of its
slot, or one of the writer's own. -/
inductive TlmLine where
  | ring (source : Option Reservation) (bytes : List UInt8)
  | sync (seq : UInt64)
  | overflow (seq dropped : UInt64)
deriving DecidableEq, Repr

/-- The globals, the threads and the lines written.  The last four fields are
not in the program: the calls whose line fits, and those of them that have
reserved an index, claimed their slot, or been dropped. -/
structure Telemetry where
  hasFile : Bool
  slots : List TlmSlot
  head : UInt32
  tail : UInt32
  seq : UInt64
  dropped : UInt64
  stop : Bool
  producers : List EmitPc
  writer : WriterPc
  sink : List TlmLine
  calls : List Emit
  reservations : List Emit
  accepted : List Emit
  drops : List Emit
  slotsSize : slots.length = tlmRingSlots
deriving DecidableEq

/-- `vmc_tlm_init`, with `n` threads that may emit and whatever is left in the
slots from before. -/
def Telemetry.init (hasFile : Bool) (n : Nat) (old : List TlmSlot)
    (hsize : old.length = tlmRingSlots) : Telemetry where
  hasFile := hasFile
  slots := old.map TlmSlot.reset
  head := 0
  tail := 0
  seq := 0
  dropped := 0
  stop := false
  producers := List.replicate n .idle
  writer := .loopTest
  sink := []
  calls := []
  reservations := []
  accepted := []
  drops := []
  slotsSize := by rw [List.length_map, hsize]

/-- A slot as it is at program start. -/
def TlmSlot.zero : TlmSlot :=
  ⟨List.replicate tlmSlotCap 0, 0, .empty, none, List.length_replicate⟩

/-- The first session of a program with `n` threads, with a file. -/
def Telemetry.start (n : Nat) : Telemetry :=
  .init true n (List.replicate tlmRingSlots .zero) List.length_replicate

namespace Telemetry

/-- Move a producer on. -/
def moveTo (s : Telemetry) (p : Nat) (pc : EmitPc) : Telemetry :=
  { s with producers := s.producers.set p pc }

/-- Change one slot. -/
def updateSlot (s : Telemetry) (i : Nat) (f : TlmSlot → TlmSlot) : Telemetry :=
  { s with slots := s.slots.modify i f, slotsSize := by rw [List.length_modify, s.slotsSize] }

end Telemetry

/-! ## the steps of the threads -/

/-- `vmc_tlm_emit` up to the formatted line.  Fields or a line too long for its
buffer end the call, the latter after it has taken a number. -/
def tlmEmit (s : Telemetry) (p : Nat) (type fields : List UInt8) (ts : UInt64) : Telemetry :=
  if tlmSlotCap - 96 ≤ fields.length then s
  else
    let e : Emit := ⟨type, fields, ts, s.seq + 1⟩
    if tlmSlotCap ≤ e.line.length then { s with seq := s.seq + 1 }
    else { s.moveTo p (.numbered e) with seq := s.seq + 1, calls := s.calls ++ [e] }

/-- The rest of `vmc_tlm_emit`, one access at a time. -/
def producerStep (s : Telemetry) (p : Nat) : EmitPc → Option Telemetry
  | .idle => none
  | .numbered e => some { s.moveTo p (.reserved ⟨s.head, s.reservations.length, e⟩) with
      head := s.head + 1
      reservations := s.reservations ++ [e] }
  | .reserved r => s.slots[tlmIndex r.h]?.map fun x =>
      s.moveTo p (if x.state = .empty then .sawEmpty r else .refused r)
  | .sawEmpty r => s.slots[tlmIndex r.h]?.map fun x =>
      if x.state = .empty then
        { (s.moveTo p (.filling r 0)).updateSlot (tlmIndex r.h)
            fun x => { x with state := .claimed, owner := some r } with
          accepted := s.accepted ++ [r.emit] }
      else s.moveTo p (.refused r)
  | .refused r => some { s.moveTo p .idle with
      dropped := s.dropped + 1
      drops := s.drops ++ [r.emit] }
  | .filling r k =>
      match r.emit.line[k]? with
      | some b => some ((s.moveTo p (.filling r (k + 1))).updateSlot (tlmIndex r.h) (·.write k b))
      | none => some ((s.moveTo p (.sized r)).updateSlot (tlmIndex r.h)
          fun x => { x with len := UInt16.ofNat r.emit.line.length })
  | .sized r => some ((s.moveTo p .idle).updateSlot (tlmIndex r.h)
      fun x => { x with state := .filled })

/-- `tlm_writer`, one access at a time; `due` says whether a second has passed
since the last clock line. -/
def writerStep (s : Telemetry) (due : Bool) : WriterPc → Option Telemetry
  | .loopTest => some { s with
      writer := if s.stop then (if s.hasFile then .final else .exited) else .loadHead }
  | .loadHead => some { s with writer := .draining s.head }
  | .draining head =>
      if s.tail = head then some { s with writer := .clock }
      else s.slots[tlmIndex s.tail]?.map fun x =>
        { s with writer := if x.state = .filled then .found head else .clock }
  | .found head => s.slots[tlmIndex s.tail]?.map fun x =>
      { s with writer := .reading head x.len.toNat [] }
  | .reading head len got => s.slots[tlmIndex s.tail]?.map fun x =>
      if got.length < len then
        { s with writer := .reading head len (got ++ x.buf[got.length]?.toList) }
      else
        { s.updateSlot (tlmIndex s.tail) ({ · with owner := none }) with
          sink := s.sink ++ [.ring x.owner got]
          writer := .written head }
  | .written head => some { s.updateSlot (tlmIndex s.tail) ({ · with state := .empty }) with
      tail := s.tail + 1
      writer := .draining head }
  | .clock => some (if due then { s with
        seq := s.seq + 1
        sink := s.sink ++ [.sync (s.seq + 1)]
        writer := .overflow }
      else { s with writer := .overflow })
  | .overflow => some { s with
      writer := if 0 < s.dropped then .exchange s.dropped else .loopTest }
  | .exchange dropped => some (if s.dropped = dropped then
        { s with dropped := 0, writer := .report dropped }
      else { s with writer := .loopTest })
  | .report dropped => some { s with
      seq := s.seq + 1
      sink := s.sink ++ [.overflow (s.seq + 1) dropped]
      writer := .loopTest }
  | .final => some { s with
      writer := if 0 < s.dropped then .finalReport s.dropped else .exited }
  | .finalReport dropped => some { s with
      seq := s.seq + 1
      sink := s.sink ++ [.overflow (s.seq + 1) dropped]
      writer := .exited }
  | .exited => none

/-- A call of `vmc_tlm_emit`, an access of a producer or of the writer, and the
store to `g_stop` in `vmc_tlm_shutdown`. -/
inductive TlmOp where
  | emit (p : Nat) (type fields : List UInt8) (ts : UInt64)
  | producer (p : Nat)
  | writer (due : Bool)
  | stop
deriving DecidableEq, Repr

/-- A short event of producer `p`: the call, and its `k` first accesses. -/
def emitSteps (p k : Nat) : List TlmOp :=
  .emit p (ascii "eos") (ascii "\"us\":1") 5 :: List.replicate k (.producer p)

/-- One step; `none` if the thread is not at it. -/
def tlmStep (s : Telemetry) : TlmOp → Option Telemetry
  | .emit p type fields ts =>
      if s.producers[p]? = some .idle then some (tlmEmit s p type fields ts) else none
  | .producer p => s.producers[p]?.bind (producerStep s p)
  | .writer due => writerStep s due s.writer
  | .stop => some { s with stop := true }

/-- A call is made by a producer that is idle. -/
theorem tlmStep_emit {s s' : Telemetry} {p : Nat} {type fields : List UInt8} {ts : UInt64}
    (h : tlmStep s (.emit p type fields ts) = some s') :
    s.producers[p]? = some .idle ∧ s' = tlmEmit s p type fields ts := by
  simp only [tlmStep] at h
  split at h
  · next hp => exact ⟨hp, (Option.some.inj h).symm⟩
  · contradiction

/-! ## what the threads leave alone -/

/-- A call touches the counter, and its own thread. -/
theorem tlmEmit_frame (s : Telemetry) (p : Nat) (type fields : List UInt8) (ts : UInt64) :
    (tlmEmit s p type fields ts).slots = s.slots ∧ (tlmEmit s p type fields ts).head = s.head ∧
      (tlmEmit s p type fields ts).tail = s.tail ∧
      (tlmEmit s p type fields ts).dropped = s.dropped ∧
      (tlmEmit s p type fields ts).stop = s.stop ∧
      (tlmEmit s p type fields ts).hasFile = s.hasFile ∧
      (tlmEmit s p type fields ts).writer = s.writer ∧
      (tlmEmit s p type fields ts).sink = s.sink ∧
      (tlmEmit s p type fields ts).reservations = s.reservations ∧
      (tlmEmit s p type fields ts).accepted = s.accepted ∧
      (tlmEmit s p type fields ts).drops = s.drops := by
  unfold tlmEmit
  split
  · exact ⟨rfl, rfl, rfl, rfl, rfl, rfl, rfl, rfl, rfl, rfl, rfl⟩
  · dsimp only
    split <;> exact ⟨rfl, rfl, rfl, rfl, rfl, rfl, rfl, rfl, rfl, rfl, rfl⟩

/-- A producer leaves the writer and the sinks alone. -/
theorem producerStep_frame {s s' : Telemetry} {p : Nat} {pc : EmitPc}
    (h : producerStep s p pc = some s') : s'.writer = s.writer ∧ s'.tail = s.tail ∧
      s'.sink = s.sink ∧ s'.seq = s.seq ∧ s'.calls = s.calls ∧ s'.stop = s.stop ∧
      s'.hasFile = s.hasFile := by
  cases pc with
  | idle => contradiction
  | numbered e =>
      obtain rfl := Option.some.inj h
      exact ⟨rfl, rfl, rfl, rfl, rfl, rfl, rfl⟩
  | reserved r =>
      obtain ⟨x, -, rfl⟩ := Option.map_eq_some_iff.mp h
      exact ⟨rfl, rfl, rfl, rfl, rfl, rfl, rfl⟩
  | sawEmpty r =>
      obtain ⟨x, -, rfl⟩ := Option.map_eq_some_iff.mp h
      split <;> exact ⟨rfl, rfl, rfl, rfl, rfl, rfl, rfl⟩
  | refused r | sized r =>
      obtain rfl := Option.some.inj h
      exact ⟨rfl, rfl, rfl, rfl, rfl, rfl, rfl⟩
  | filling r k =>
      simp only [producerStep] at h
      split at h
      all_goals
        obtain rfl := Option.some.inj h
        exact ⟨rfl, rfl, rfl, rfl, rfl, rfl, rfl⟩

/-- The writer leaves the producers and their cursor alone. -/
theorem writerStep_frame {s s' : Telemetry} {due : Bool} {pc : WriterPc}
    (h : writerStep s due pc = some s') : s'.producers = s.producers ∧ s'.head = s.head ∧
      s'.calls = s.calls ∧ s'.reservations = s.reservations ∧ s'.accepted = s.accepted ∧
      s'.drops = s.drops ∧ s'.stop = s.stop ∧ s'.hasFile = s.hasFile := by
  cases pc with
  | draining head =>
      simp only [writerStep] at h
      split at h
      · obtain rfl := Option.some.inj h
        exact ⟨rfl, rfl, rfl, rfl, rfl, rfl, rfl, rfl⟩
      · obtain ⟨x, -, rfl⟩ := Option.map_eq_some_iff.mp h
        exact ⟨rfl, rfl, rfl, rfl, rfl, rfl, rfl, rfl⟩
  | found head =>
      obtain ⟨x, -, rfl⟩ := Option.map_eq_some_iff.mp h
      exact ⟨rfl, rfl, rfl, rfl, rfl, rfl, rfl, rfl⟩
  | reading head len got =>
      obtain ⟨x, -, rfl⟩ := Option.map_eq_some_iff.mp h
      split <;> exact ⟨rfl, rfl, rfl, rfl, rfl, rfl, rfl, rfl⟩
  | clock | exchange dropped =>
      obtain rfl := Option.some.inj h
      split <;> exact ⟨rfl, rfl, rfl, rfl, rfl, rfl, rfl, rfl⟩
  | loopTest | loadHead | written | overflow | report | final | finalReport =>
      obtain rfl := Option.some.inj h
      exact ⟨rfl, rfl, rfl, rfl, rfl, rfl, rfl, rfl⟩
  | exited => contradiction

end Vmc
