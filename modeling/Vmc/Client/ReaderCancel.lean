import Vmc.Client.FrameSlots
import Vmc.Video.Fragment

/-!
# Vmc.Client.ReaderCancel

Cancelling the reader thread (`apps/thinclient/main.c`).

The watchdog and the shutdown of `run_dash` cancel the reader with
`pthread_cancel` and join it; the watchdog then starts another.  Cancellation is
deferred, so it takes effect at the cancellation points of the reader.  Those
outside `dash_publish_au` are blocking calls made without the mutex `g_fmu`.
Inside there is one, the `pthread_cond_wait` of `slot_take_write`: a thread
cancelled in it takes the mutex again before it ends, and no cleanup handler
gives it back.

The model has the mutex and every step the threads make on it.  The pool stays
usable exactly as long as no cancellation takes effect in that wait
(`reader_cancel_iff`); if one does, the mutex is never free again, and no slot
ever changes (`cancelled_wait_freezes`).
-/

namespace Vmc

/-! ## the threads -/

/-- Who holds `g_fmu`.  The audio worker and the main thread are `other`. -/
inductive FmuOwner where
  | reader
  | worker
  | other
  | endedReader
deriving DecidableEq, Repr

/-- Where the reader is. -/
inductive ReaderPc where
  /-- Anywhere but below: fetching, demuxing, sleeping. -/
  | outside
  /-- `slot_take_write`: at the lock, scanning, in the condition wait. -/
  | locking
  | scanning
  | waiting
  /-- With a slot taken: in `dash_publish_au`, at the lock of `slot_publish`, and
  inside it. -/
  | copying (idx : Nat)
  | publishing (idx : Nat) (f : Frame)
  | storing (idx : Nat) (f : Frame)
  /-- A unit that does not fit: at the lock, and giving the slot back. -/
  | discarding (idx : Nat)
  | freeing (idx : Nat)
  /-- `dash_resync`: at the lock, and shifting deadlines. -/
  | resyncing
  | shifting
  | ended
deriving DecidableEq, Repr

namespace ReaderPc

/-- Behind the lock, or behind the wait, which takes the lock as well. -/
def locked : ReaderPc → Option ReaderPc
  | locking => some scanning
  | waiting => some scanning
  | publishing i f => some (storing i f)
  | discarding i => some (freeing i)
  | resyncing => some shifting
  | _ => none

/-- Between lock and unlock. -/
def InSection : ReaderPc → Prop
  | scanning | storing _ _ | freeing _ | shifting => True
  | _ => False

/-- The slot the reader has taken and will publish or free. -/
def Writes (i : Nat) : ReaderPc → Prop
  | copying j | publishing j _ | storing j _ | discarding j | freeing j => j = i
  | _ => False

end ReaderPc

/-- Where the decode worker is. -/
inductive SlotWorkerPc where
  | idle
  | selecting
  | waiting
  | selected (idx : Nat)
  | marking (idx : Nat)
  | decoding (idx : Nat)
  | decoded (idx : Nat)
  | releasing (idx : Nat)
  | ended
deriving DecidableEq, Repr

namespace SlotWorkerPc

def locked : SlotWorkerPc → Option SlotWorkerPc
  | idle => some selecting
  | waiting => some selecting
  | selected i => some (marking i)
  | decoded i => some (releasing i)
  | _ => none

def InSection : SlotWorkerPc → Prop
  | selecting | marking _ | releasing _ => True
  | _ => False

end SlotWorkerPc

/-- The slots, the mutex, the threads, and whether a `pthread_cancel` of the
reader is pending. -/
structure CancelState where
  pool : FramePool
  fmu : Option FmuOwner
  reader : ReaderPc
  worker : SlotWorkerPc
  cancelled : Bool
deriving DecidableEq

def CancelState.init : CancelState := ⟨FramePool.zero, none, .outside, .idle, false⟩

/-- `dash_resync` on the slots: every deadline in use is shifted, not below 0. -/
def shiftDeadlines (p : FramePool) (delta : Int) : FramePool :=
  ⟨p.slots.map fun x =>
      if x.state ≠ .free then
        let d := Int.bmod (x.deadlineUs.toNat + delta) (2 ^ 64)
        { x with deadlineUs := UInt64.ofInt (if d < 0 then 0 else d) }
      else x,
    by rw [List.length_map, p.size]⟩

/-! ## their steps -/

inductive ReaderOp where
  /-- `dash_publish_au` calls `slot_take_write`. -/
  | callTake
  /-- `pthread_mutex_lock`, or the return from `pthread_cond_wait`. -/
  | lock
  | scan
  | copy (f : Frame)
  | store
  | free
  | callResync
  | shift (delta : Int)
  /-- The thread function returns. -/
  | finish
  /-- A cancellation point is reached with a cancellation pending. -/
  | actOnCancel
deriving DecidableEq, Repr

/-- One step of the reader; `none` if it is not at it or would block. -/
def readerStep (s : CancelState) : ReaderOp → Option CancelState
  | .callTake =>
      match s.reader with
      | .outside => some { s with reader := .locking }
      | _ => none
  | .lock =>
      match s.fmu, s.reader.locked with
      | none, some pc => some { s with fmu := some .reader, reader := pc }
      | _, _ => none
  | .scan =>
      match s.reader with
      | .scanning =>
          match slotTakeWrite s.pool with
          | some (i, p) => some { s with pool := p, fmu := none, reader := .copying i }
          | none => some { s with fmu := none, reader := .waiting }
      | _ => none
  | .copy f =>
      match s.reader with
      | .copying i => some { s with
          reader := if f.data.length ≤ vmcVideoAuMax then .publishing i f else .discarding i }
      | _ => none
  | .store =>
      match s.reader with
      | .storing i f => some { s with
          pool := slotPublish s.pool i f, fmu := none, reader := .outside }
      | _ => none
  | .free =>
      match s.reader with
      | .freeing i => some { s with pool := s.pool.mark i .free, fmu := none, reader := .outside }
      | _ => none
  | .callResync =>
      match s.reader with
      | .outside => some { s with reader := .resyncing }
      | _ => none
  | .shift delta =>
      match s.reader with
      | .shifting => some { s with
          pool := shiftDeadlines s.pool delta, fmu := none, reader := .outside }
      | _ => none
  | .finish =>
      match s.reader with
      | .outside => some { s with reader := .ended }
      | _ => none
  | .actOnCancel =>
      match s.cancelled, s.reader, s.fmu with
      | true, .outside, _ => some { s with reader := .ended }
      -- the wait takes the mutex again first
      | true, .waiting, none => some { s with fmu := some .endedReader, reader := .ended }
      | _, _, _ => none

inductive SlotWorkerOp where
  | lock
  | select
  | mark
  | decode
  | release
  /-- `g_run_decode` is found cleared. -/
  | stop
deriving DecidableEq, Repr

/-- One step of the decode worker. -/
def slotWorkerStep (s : CancelState) : SlotWorkerOp → Option CancelState
  | .lock =>
      match s.fmu, s.worker.locked with
      | none, some pc => some { s with fmu := some .worker, worker := pc }
      | _, _ => none
  | .select =>
      match s.worker with
      | .selecting =>
          match selectReady s.pool with
          | some i => some { s with fmu := none, worker := .selected i }
          | none => some { s with fmu := none, worker := .waiting }
      | _ => none
  | .mark =>
      match s.worker with
      | .marking i => some { s with
          pool := s.pool.mark i .decoding, fmu := none, worker := .decoding i }
      | _ => none
  | .decode =>
      match s.worker with
      | .decoding i => some { s with worker := .decoded i }
      | _ => none
  | .release =>
      match s.worker with
      | .releasing i => some { s with pool := slotRelease s.pool i, fmu := none, worker := .idle }
      | _ => none
  | .stop =>
      match s.worker with
      | .selecting => some { s with fmu := none, worker := .ended }
      | _ => none

inductive CancelOp where
  | reader (op : ReaderOp)
  | worker (op : SlotWorkerOp)
  /-- The audio worker or the main thread at the mutex: both come from
  `dash_resync`, and main also to wake the worker. -/
  | lockOther
  | unlockOther (delta : Int)
  /-- `pthread_cancel` of the reader. -/
  | cancel
  /-- `pthread_join`, and `pthread_create` of the next reader. -/
  | restart
deriving DecidableEq, Repr

/-- One step of the client. -/
def cancelStep (s : CancelState) : CancelOp → Option CancelState
  | .reader op => readerStep s op
  | .worker op => slotWorkerStep s op
  | .lockOther =>
      match s.fmu with
      | none => some { s with fmu := some .other }
      | some _ => none
  | .unlockOther delta =>
      match s.fmu with
      | some .other => some { s with pool := shiftDeadlines s.pool delta, fmu := none }
      | _ => none
  | .cancel => some { s with cancelled := true }
  | .restart =>
      match s.reader with
      | .ended => some { s with reader := .outside, cancelled := false }
      | _ => none

/-! ## the promise -/

/-- Slot `i` is marked WRITING. -/
def Writing (p : FramePool) (i : Nat) : Prop := ∃ x, p.slots[i]? = some x ∧ x.state = .writing

/-- The mutex is not held by an ended thread, and every slot marked WRITING has a
reader that will publish or free it. -/
def CancelState.Usable (s : CancelState) : Prop :=
  s.fmu ≠ some .endedReader ∧ ∀ i, Writing s.pool i → s.reader.Writes i

/-- In every interleaving the pool stays usable. -/
def CancelKeepsPool : Prop :=
  ∀ (ops : List CancelOp) (s : CancelState), Run.exec cancelStep .init ops = some s → s.Usable

/-! ## slots being written -/

section Writing

variable {p : FramePool} {i j : Nat}

theorem writing_mark {st : SlotState} (h : Writing (p.mark j st) i) :
    (j = i ∧ st = .writing) ∨ (j ≠ i ∧ Writing p i) := by
  obtain ⟨x, hx, hst⟩ := h
  rw [getElem?_mark] at hx
  by_cases hj : j = i
  · rw [if_pos hj] at hx
    obtain ⟨y, -, rfl⟩ := Option.map_eq_some_iff.mp hx
    exact .inl ⟨hj, hst⟩
  · rw [if_neg hj] at hx
    exact .inr ⟨hj, x, hx, hst⟩

theorem writing_slotPublish {f : Frame} (h : Writing (slotPublish p j f) i) :
    j ≠ i ∧ Writing p i := by
  obtain ⟨x, hx, hst⟩ := h
  rw [slotPublish, slots_put, List.getElem?_set] at hx
  by_cases hj : j = i
  · rw [if_pos hj] at hx
    split at hx
    · obtain rfl := Option.some.inj hx
      contradiction
    · contradiction
  · rw [if_neg hj] at hx
    exact ⟨hj, x, hx, hst⟩

theorem writing_shiftDeadlines {delta : Int} (h : Writing (shiftDeadlines p delta) i) :
    Writing p i := by
  obtain ⟨x, hx, hst⟩ := h
  rw [shiftDeadlines, List.getElem?_map] at hx
  obtain ⟨y, hy, rfl⟩ := Option.map_eq_some_iff.mp hx
  refine ⟨y, hy, ?_⟩
  split at hst <;> exact hst

end Writing

/-! ## what a step keeps -/

/-- A thread between lock and unlock holds the mutex. -/
structure CancelState.Exclusive (s : CancelState) : Prop where
  reader : s.reader.InSection → s.fmu = some .reader
  worker : s.worker.InSection → s.fmu = some .worker

theorem CancelState.Exclusive.not_reader {s : CancelState} (h : s.Exclusive)
    (hfmu : s.fmu ≠ some .reader) : ¬ s.reader.InSection := fun hin => hfmu (h.reader hin)

theorem CancelState.Exclusive.not_worker {s : CancelState} (h : s.Exclusive)
    (hfmu : s.fmu ≠ some .worker) : ¬ s.worker.InSection := fun hin => hfmu (h.worker hin)

/-- What every step keeps that is not a cancellation in the wait: threads exclude
each other, a lost mutex stays lost and the slots with it, and a usable pool
stays usable. -/
structure Keeps (s s' : CancelState) : Prop where
  exclusive : s'.Exclusive
  frozen : s.fmu = some .endedReader → s'.fmu = some .endedReader ∧ s'.pool = s.pool
  usable : s.Usable → s'.Usable

section Moves

variable {s : CancelState} (h : s.Exclusive)
include h

/-- The reader moves between two points outside the mutex. -/
theorem keeps_of_reader {pc : ReaderPc} {b : Bool} (hpc : ¬ pc.InSection)
    (hw : ∀ i, s.reader.Writes i → pc.Writes i) : Keeps s { s with reader := pc, cancelled := b } :=
  ⟨⟨fun hin => absurd hin hpc, h.worker⟩, fun hf => ⟨hf, rfl⟩,
    fun hu => ⟨hu.1, fun i hi => hw i (hu.2 i hi)⟩⟩

theorem keeps_of_lock {pc : ReaderPc} (hfmu : s.fmu = none) (hpc : s.reader.locked = some pc) :
    Keeps s { s with fmu := some .reader, reader := pc } := by
  refine ⟨⟨fun _ => rfl, fun hin => ?_⟩, fun hf => ?_, fun hu => ⟨nofun, fun i hi => ?_⟩⟩
  · exact absurd hin (h.not_worker (by simp [hfmu]))
  · simp [hfmu] at hf
  · have hwrites := hu.2 i hi
    cases hr : s.reader <;> rw [hr] at hpc hwrites <;>
      first | contradiction | exact hwrites.elim | (obtain rfl := Option.some.inj hpc; exact hwrites)

/-- The reader leaves its section; what it leaves WRITING it goes on writing. -/
theorem keeps_of_unlock {p : FramePool} {pc : ReaderPc} (hin : s.reader.InSection)
    (hpc : ¬ pc.InSection)
    (hw : ∀ i, Writing p i → pc.Writes i ∨ (Writing s.pool i ∧ ¬ s.reader.Writes i)) :
    Keeps s { s with pool := p, fmu := none, reader := pc } := by
  have hfmu := h.reader hin
  refine ⟨⟨fun hin' => absurd hin' hpc, fun hin' => ?_⟩, fun hf => ?_, fun hu => ⟨nofun, fun i hi => ?_⟩⟩
  · exact absurd hin' (h.not_worker (by simp [hfmu]))
  · simp [hfmu] at hf
  · obtain hpc | ⟨hwas, hnot⟩ := hw i hi
    · exact hpc
    · exact absurd (hu.2 i hwas) hnot

/-- The worker leaves its section, with no slot newly WRITING. -/
theorem keeps_of_worker_unlock {p : FramePool} {pc : SlotWorkerPc} (hin : s.worker.InSection)
    (hpc : ¬ pc.InSection) (hw : ∀ i, Writing p i → Writing s.pool i) :
    Keeps s { s with pool := p, fmu := none, worker := pc } := by
  have hfmu := h.worker hin
  refine ⟨⟨fun hin' => ?_, fun hin' => absurd hin' hpc⟩, fun hf => ?_,
    fun hu => ⟨nofun, fun i hi => hu.2 i (hw i hi)⟩⟩
  · exact absurd hin' (h.not_reader (by simp [hfmu]))
  · simp [hfmu] at hf

/-- The worker marks a slot as no longer written to, and leaves its section. -/
theorem keeps_of_worker_mark {j : Nat} {st : SlotState} {pc : SlotWorkerPc}
    (hin : s.worker.InSection) (hpc : ¬ pc.InSection) (hst : st ≠ .writing) :
    Keeps s { s with pool := s.pool.mark j st, fmu := none, worker := pc } := by
  refine keeps_of_worker_unlock h hin hpc fun i hi => ?_
  obtain ⟨-, heq⟩ | ⟨-, hwas⟩ := writing_mark hi
  · exact absurd heq hst
  · exact hwas

end Moves

section Steps

variable {s s' : CancelState}

theorem keeps_scan (h : s.Exclusive) (hstep : readerStep s .scan = some s') : Keeps s s' := by
  cases hr : s.reader <;> simp only [readerStep, hr] at hstep <;> try contradiction
  have hin : s.reader.InSection := by
    rw [hr]
    trivial
  cases htake : slotTakeWrite s.pool with
  | some q =>
      rw [htake] at hstep
      obtain rfl := Option.some.inj hstep
      obtain ⟨j, -, hq⟩ := Option.map_eq_some_iff.mp htake
      obtain rfl := hq.symm
      refine keeps_of_unlock h hin id fun i hi => ?_
      obtain ⟨rfl, -⟩ | ⟨-, hwas⟩ := writing_mark hi
      · exact .inl rfl
      · exact .inr ⟨hwas, by rw [hr]; exact id⟩
  | none =>
      rw [htake] at hstep
      obtain rfl := Option.some.inj hstep
      exact keeps_of_unlock h hin id fun i hi => .inr ⟨hi, by rw [hr]; exact id⟩

/-- The reader's steps, a cancellation in the wait apart. -/
theorem keeps_readerStep {op : ReaderOp} (h : s.Exclusive) (hstep : readerStep s op = some s')
    (hok : op = .actOnCancel → s.reader ≠ .waiting) : Keeps s s' := by
  cases op with
  | callTake | callResync | finish =>
      cases hr : s.reader <;> simp only [readerStep, hr] at hstep <;> try contradiction
      obtain rfl := Option.some.inj hstep
      exact keeps_of_reader h id fun i hi => by rw [hr] at hi; exact hi.elim
  | lock =>
      simp only [readerStep] at hstep
      split at hstep
      · next hfmu hpc =>
        obtain rfl := Option.some.inj hstep
        exact keeps_of_lock h hfmu hpc
      · contradiction
  | scan => exact keeps_scan h hstep
  | copy f =>
      cases hr : s.reader <;> simp only [readerStep, hr] at hstep <;> try contradiction
      obtain rfl := Option.some.inj hstep
      split <;> exact keeps_of_reader h id fun i hi => by rw [hr] at hi; exact hi
  | store =>
      cases hr : s.reader <;> simp only [readerStep, hr] at hstep <;> try contradiction
      obtain rfl := Option.some.inj hstep
      refine keeps_of_unlock h (by rw [hr]; trivial) id fun i hi => ?_
      obtain ⟨hne, hwas⟩ := writing_slotPublish hi
      exact .inr ⟨hwas, by rw [hr]; exact hne⟩
  | free =>
      cases hr : s.reader <;> simp only [readerStep, hr] at hstep <;> try contradiction
      obtain rfl := Option.some.inj hstep
      refine keeps_of_unlock h (by rw [hr]; trivial) id fun i hi => ?_
      obtain ⟨-, hst⟩ | ⟨hne, hwas⟩ := writing_mark hi
      · contradiction
      · exact .inr ⟨hwas, by rw [hr]; exact hne⟩
  | shift delta =>
      cases hr : s.reader <;> simp only [readerStep, hr] at hstep <;> try contradiction
      obtain rfl := Option.some.inj hstep
      exact keeps_of_unlock h (by rw [hr]; trivial) id fun i hi =>
        .inr ⟨writing_shiftDeadlines hi, by rw [hr]; exact id⟩
  | actOnCancel =>
      simp only [readerStep] at hstep
      split at hstep
      · next hr =>
        obtain rfl := Option.some.inj hstep
        exact keeps_of_reader h id fun i hi => by rw [hr] at hi; exact hi.elim
      · next hr _ => exact absurd hr (hok rfl)
      · contradiction

theorem keeps_workerStep {op : SlotWorkerOp} (h : s.Exclusive)
    (hstep : slotWorkerStep s op = some s') : Keeps s s' := by
  cases op with
  | lock =>
      simp only [slotWorkerStep] at hstep
      split at hstep
      · next hfmu hpc =>
        obtain rfl := Option.some.inj hstep
        refine ⟨⟨fun hin => ?_, fun _ => rfl⟩, fun hf => ?_, fun hu => ⟨nofun, hu.2⟩⟩
        · exact absurd hin (h.not_reader (by simp [hfmu]))
        · simp [hfmu] at hf
      · contradiction
  | select =>
      cases hw : s.worker <;> simp only [slotWorkerStep, hw] at hstep <;> try contradiction
      split at hstep <;> obtain rfl := Option.some.inj hstep <;>
        exact keeps_of_worker_unlock h (by rw [hw]; trivial) id fun i hi => hi
  | mark =>
      cases hw : s.worker <;> simp only [slotWorkerStep, hw] at hstep <;> try contradiction
      obtain rfl := Option.some.inj hstep
      exact keeps_of_worker_mark h (by rw [hw]; trivial) id (by decide)
  | decode =>
      cases hw : s.worker <;> simp only [slotWorkerStep, hw] at hstep <;> try contradiction
      obtain rfl := Option.some.inj hstep
      exact ⟨⟨h.reader, fun hin => hin.elim⟩, fun hf => ⟨hf, rfl⟩, fun hu => hu⟩
  | release =>
      cases hw : s.worker <;> simp only [slotWorkerStep, hw] at hstep <;> try contradiction
      obtain rfl := Option.some.inj hstep
      exact keeps_of_worker_mark h (by rw [hw]; trivial) id (by decide)
  | stop =>
      cases hw : s.worker <;> simp only [slotWorkerStep, hw] at hstep <;> try contradiction
      obtain rfl := Option.some.inj hstep
      exact keeps_of_worker_unlock h (by rw [hw]; trivial) id fun i hi => hi

/-- No cancellation takes effect while the reader waits for a free slot. -/
def NotInWait (s : CancelState) (op : CancelOp) : Prop :=
  op = .reader .actOnCancel → s.reader ≠ .waiting

instance (s : CancelState) (op : CancelOp) : Decidable (NotInWait s op) := by
  unfold NotInWait
  infer_instance

theorem keeps_cancelStep {op : CancelOp} (h : s.Exclusive) (hok : NotInWait s op)
    (hstep : cancelStep s op = some s') : Keeps s s' := by
  cases op with
  | reader op => exact keeps_readerStep h hstep fun hop => hok (congrArg CancelOp.reader hop)
  | worker op => exact keeps_workerStep h hstep
  | lockOther =>
      simp only [cancelStep] at hstep
      split at hstep
      · next hfmu =>
        obtain rfl := Option.some.inj hstep
        refine ⟨⟨fun hin => ?_, fun hin => ?_⟩, fun hf => ?_, fun hu => ⟨nofun, hu.2⟩⟩
        · exact absurd hin (h.not_reader (by simp [hfmu]))
        · exact absurd hin (h.not_worker (by simp [hfmu]))
        · simp [hfmu] at hf
      · contradiction
  | unlockOther delta =>
      simp only [cancelStep] at hstep
      split at hstep
      · next hfmu =>
        obtain rfl := Option.some.inj hstep
        refine ⟨⟨fun hin => ?_, fun hin => ?_⟩, fun hf => ?_,
          fun hu => ⟨nofun, fun i hi => hu.2 i (writing_shiftDeadlines hi)⟩⟩
        · exact absurd hin (h.not_reader (by simp [hfmu]))
        · exact absurd hin (h.not_worker (by simp [hfmu]))
        · simp [hfmu] at hf
      · contradiction
  | cancel =>
      obtain rfl := Option.some.inj hstep
      exact ⟨⟨h.reader, h.worker⟩, fun hf => ⟨hf, rfl⟩, fun hu => hu⟩
  | restart =>
      cases hr : s.reader <;> simp only [cancelStep, hr] at hstep <;> try contradiction
      obtain rfl := Option.some.inj hstep
      exact keeps_of_reader h id fun i hi => by rw [hr] at hi; exact hi.elim

/-- A cancellation in the wait leaves the mutex with the ended thread. -/
theorem effect_of_cancelled_wait (hr : s.reader = .waiting)
    (hstep : cancelStep s (.reader .actOnCancel) = some s') :
    s.fmu = none ∧ s' = { s with fmu := some .endedReader, reader := .ended } := by
  simp only [cancelStep, readerStep] at hstep
  split at hstep
  · next hr' => rw [hr] at hr'; contradiction
  · next hfmu => exact ⟨hfmu, (Option.some.inj hstep).symm⟩
  · contradiction

end Steps

/-! ## a full pool -/

/-- A unit as the reader publishes it. -/
def readerUnit : Frame := ⟨[0], 0, 0, 1000000, 0, 0, 1⟩

/-- The reader publishes one unit. -/
def publishRun : List CancelOp :=
  [.reader .callTake, .reader .lock, .reader .scan, .reader (.copy readerUnit), .reader .lock,
    .reader .store]

/-- The first `n` slots are published. -/
def Filled (n : Nat) (p : FramePool) : Prop :=
  p.slots = List.replicate n ⟨readerUnit, .ready⟩ ++ List.replicate (vmcFrameSlots - n) .zero

theorem Filled.publish {n : Nat} {p : FramePool} (h : Filled n p) (hn : n < vmcFrameSlots) :
    ∃ q, Filled (n + 1) q ∧
      Run.exec cancelStep { CancelState.init with pool := p } publishRun =
        some { CancelState.init with pool := q } := by
  have hrest : List.replicate (vmcFrameSlots - n) FrameSlot.zero =
      .zero :: List.replicate (vmcFrameSlots - (n + 1)) .zero := by
    rw [← List.replicate_succ]
    congr 1
    omega
  have hfind : (p.slots.findIdx? fun x => x.state = .free) = some n := by
    rw [h, hrest]
    simp [List.findIdx?_append, List.findIdx?_cons, FrameSlot.zero]
  have htake : slotTakeWrite p = some (n, p.mark n .writing) := by
    rw [slotTakeWrite, hfind]
    rfl
  refine ⟨slotPublish (p.mark n .writing) n readerUnit, ?_, ?_⟩
  · have hslot : p.slots[n]? = some .zero := by
      rw [h, hrest]
      simp
    unfold Filled
    rw [slotPublish, slots_put, slots_mark hslot, List.set_set, h, hrest]
    simp [List.replicate_succ']
  · simp [publishRun, Run.exec, cancelStep, readerStep, CancelState.init, ReaderPc.locked, htake,
      readerUnit, vmcVideoAuMax]

/-- The reader can fill the pool. -/
theorem exists_filled (n : Nat) (hn : n ≤ vmcFrameSlots) :
    ∃ ops p, Filled n p ∧
      Run.exec cancelStep .init ops = some { CancelState.init with pool := p } := by
  induction n with
  | zero => exact ⟨[], FramePool.zero, rfl, rfl⟩
  | succ n ih =>
      obtain ⟨ops, p, hp, hrun⟩ := ih (by omega)
      obtain ⟨q, hq, hstep⟩ := hp.publish (by omega)
      exact ⟨ops ++ publishRun, q, hq, Run.exec_append_of _ hrun hstep⟩

/-- With the pool full the reader waits for a slot, and is cancelled there. -/
def cancelInWait : List CancelOp :=
  [.reader .callTake, .reader .lock, .reader .scan, .cancel, .reader .actOnCancel]

theorem cancelKeepsPool_fails : ¬ CancelKeepsPool := by
  intro h
  obtain ⟨ops, p, hp, hrun⟩ := exists_filled vmcFrameSlots (le_refl _)
  have htake : slotTakeWrite p = none := by
    have hfind : (p.slots.findIdx? fun x => x.state = .free) = none := by
      rw [hp, List.findIdx?_eq_none_iff]
      simp
    rw [slotTakeWrite, hfind]
    rfl
  have hwait : Run.exec cancelStep { CancelState.init with pool := p } cancelInWait =
      some ⟨p, some .endedReader, .ended, .idle, true⟩ := by
    simp [cancelInWait, Run.exec, cancelStep, readerStep, CancelState.init, ReaderPc.locked, htake]
  exact (h _ _ (Run.exec_append_of _ hrun hwait)).1 rfl

/-! ## whole runs -/

theorem exclusive_init : CancelState.init.Exclusive := ⟨fun h => h.elim, fun h => h.elim⟩

theorem usable_init : CancelState.init.Usable := by
  refine ⟨nofun, fun i ⟨x, hx, hst⟩ => ?_⟩
  obtain rfl := List.eq_of_mem_replicate (List.mem_of_getElem? hx)
  contradiction

theorem exclusive_step {s s' : CancelState} {op : CancelOp} (h : s.Exclusive)
    (hstep : cancelStep s op = some s') : s'.Exclusive := by
  by_cases hok : NotInWait s op
  · exact (keeps_cancelStep h hok hstep).exclusive
  · obtain ⟨rfl, hr⟩ := Classical.not_imp.mp hok
    obtain ⟨hfmu, rfl⟩ := effect_of_cancelled_wait (not_not.mp hr) hstep
    exact ⟨fun hin => hin.elim, fun hin => absurd hin (h.not_worker (by simp [hfmu]))⟩

/-- **Cancelling the reader.**  In every interleaving of the reader, the decode
worker and the threads that cancel and restart the reader, the pool is usable
throughout exactly if no cancellation takes effect while the reader waits for a
free slot. -/
theorem reader_cancel_iff (ops : List CancelOp) (s : CancelState)
    (h : Run.exec cancelStep .init ops = some s) :
    Run.Always cancelStep CancelState.Usable .init ops ↔ Run.Along cancelStep NotInWait .init ops := by
  refine Run.always_iff_along (fun s => s.Exclusive ∧ s.Usable) (fun s hs => hs.2) ?_ ?_
    ⟨exclusive_init, usable_init⟩ h
  · intro s op s' hs hok hstep
    have hkeeps := keeps_cancelStep hs.1 hok hstep
    exact ⟨hkeeps.exclusive, hkeeps.usable hs.2⟩
  · intro s op s' hs hstep husable
    rintro rfl hr
    obtain ⟨-, rfl⟩ := effect_of_cancelled_wait hr hstep
    exact husable.1 rfl

/-- The reader is cancelled while it sleeps, with a unit published and about to be
decoded; the next reader publishes another. -/
def cancelAsleep : List CancelOp :=
  publishRun ++ [.worker .lock, .worker .select, .cancel, .worker .lock, .reader .actOnCancel,
    .restart, .worker .mark] ++ publishRun

theorem reader_cancel_iff_asleep :
    (Run.exec cancelStep .init cancelAsleep).isSome ∧
      Run.Always cancelStep CancelState.Usable .init cancelAsleep := by
  have hrun : (Run.exec cancelStep .init cancelAsleep).isSome := by decide +kernel
  obtain ⟨s, hs⟩ := Option.isSome_iff_exists.mp hrun
  exact ⟨hrun, (reader_cancel_iff cancelAsleep s hs).mpr (by decide +kernel)⟩

/-- Once the reader has ended with the mutex, no thread gets it again, and the
slots stay as they are. -/
theorem cancelled_wait_freezes {s s' : CancelState} {ops ops' : List CancelOp}
    (hs : Run.exec cancelStep .init ops = some s) (hfmu : s.fmu = some .endedReader)
    (hs' : Run.exec cancelStep s ops' = some s') :
    s'.fmu = some .endedReader ∧ s'.pool = s.pool := by
  have hexcl : s.Exclusive := Run.exec_invariant_true CancelState.Exclusive
    (fun _ _ _ => exclusive_step) exclusive_init hs
  have hinv := Run.exec_invariant_true
    (fun t : CancelState => t.Exclusive ∧ t.fmu = some .endedReader ∧ t.pool = s.pool) ?_
    ⟨hexcl, hfmu, rfl⟩ hs'
  · exact hinv.2
  · rintro t op t' ⟨hx, hlost, hpool⟩ hstep
    have hok : NotInWait t op := by
      rintro rfl hr
      have hfree := (effect_of_cancelled_wait hr hstep).1
      rw [hlost] at hfree
      contradiction
    have hkeeps := keeps_cancelStep hx hok hstep
    obtain ⟨hlost', hpool'⟩ := hkeeps.frozen hlost
    exact ⟨hkeeps.exclusive, hlost', hpool'.trans hpool⟩

end Vmc
