import Vmc.Lib.Pool
import Vmc.Lib.Run

/-!
# Vmc.Client.FrameSlots

The frame slots between the producer of access units and the decode worker
(`apps/thinclient/main.c`).

A producer takes the lowest free slot, fills it and publishes it with a
deadline; the worker selects the ready slot with the least deadline, marks it,
decodes it and releases it.  The mutex is given up between selecting and
marking, so the two threads interleave at the granularity of `PipeOp`.

Frames received over UDP all carry deadline 0, so the worker takes the lowest
ready slot, while publication order depends on which slots were free.  The two
agree exactly as long as every frame is published behind those still waiting
(`decode_in_order`); a recycled low slot overtakes (`inPublishOrder_fails`).
-/

namespace Vmc

/-! ## data model -/

def vmcFrameSlots : Nat := 512

/-- The states of a slot. -/
inductive SlotState where
  | free
  | ready
  | decoding
  | writing
deriving DecidableEq, Repr

/-- What a published slot holds: the `len` bytes of the access unit and the
fields `slot_publish` sets. -/
structure Frame where
  data : List UInt8
  sendTs : UInt32
  pubUs : UInt64
  deadlineUs : UInt64
  fidx : UInt32
  ptsUs : Int
  seg : Int
deriving DecidableEq, Repr

/-- `vmc_frame_slot`. -/
structure FrameSlot extends Frame where
  state : SlotState
deriving DecidableEq, Repr

/-- A slot nothing was published to yet. -/
def FrameSlot.zero : FrameSlot := ⟨⟨[], 0, 0, 0, 0, 0, 0⟩, .free⟩

/-- `g_frames`. -/
structure FramePool where
  slots : List FrameSlot
  size : slots.length = vmcFrameSlots
deriving DecidableEq

def FramePool.zero : FramePool :=
  ⟨List.replicate vmcFrameSlots FrameSlot.zero, List.length_replicate⟩

/-! ## operations -/

/-- Set one slot. -/
def FramePool.put (p : FramePool) (i : Nat) (x : FrameSlot) : FramePool :=
  ⟨p.slots.set i x, by rw [List.length_set, p.size]⟩

/-- Change the state of one slot. -/
def FramePool.mark (p : FramePool) (i : Nat) (st : SlotState) : FramePool :=
  match p.slots[i]? with
  | some x => p.put i { x with state := st }
  | none => p

/-- `slot_take_write`: the lowest free slot, marked WRITING.  With none free
the call waits. -/
def slotTakeWrite (p : FramePool) : Option (Nat × FramePool) :=
  (p.slots.findIdx? fun x => x.state = .free).map fun i => (i, p.mark i .writing)

/-- `slot_publish`. -/
def slotPublish (p : FramePool) (idx : Nat) (f : Frame) : FramePool := p.put idx ⟨f, .ready⟩

/-- `slot_release`. -/
def slotRelease (p : FramePool) (idx : Nat) : FramePool := p.mark idx .free

/-- The worker's scan for the ready slot with the least deadline, from slot `i`
on: the first of several equal ones is kept. -/
def scanReady : List FrameSlot → Nat → UInt64 → Option Nat → Option Nat
  | [], _, _, idx => idx
  | x :: xs, i, best, idx =>
      if x.state = .ready ∧ x.deadlineUs < best then scanReady xs (i + 1) x.deadlineUs (some i)
      else scanReady xs (i + 1) best idx

/-- The slot `decode_worker` selects; with none ready it waits. -/
def selectReady (p : FramePool) : Option Nat := scanReady p.slots 0 0xFFFFFFFFFFFFFFFF none

/-! ## producer and worker -/

/-- Where the decode worker is in its loop. -/
inductive Worker where
  | idle
  | selected (idx : Nat)
  | marked (idx : Nat)
  | decoded (idx : Nat)
deriving DecidableEq, Repr

/-- The pool, the slot the producer is writing, the worker, and what has been
published and handed to the decoder so far. -/
structure DecodePipe where
  pool : FramePool
  writeSlot : Option Nat
  worker : Worker
  published : List Frame
  decoded : List Frame
deriving DecidableEq

def DecodePipe.init : DecodePipe := ⟨FramePool.zero, none, .idle, [], []⟩

/-- The steps of the two threads. -/
inductive PipeOp where
  | take
  | publish (f : Frame)
  | select
  | mark
  | decode
  | release
deriving DecidableEq, Repr

/-- One step; `none` if the thread is not at it or would wait. -/
def pipeStep (s : DecodePipe) : PipeOp → Option DecodePipe
  | .take =>
      match s.writeSlot with
      | none => (slotTakeWrite s.pool).map fun (i, p) => { s with pool := p, writeSlot := some i }
      | some _ => none
  | .publish f =>
      match s.writeSlot with
      | some w => some { s with
          pool := slotPublish s.pool w f
          writeSlot := none
          published := s.published ++ [f] }
      | none => none
  | .select =>
      match s.worker with
      | .idle => (selectReady s.pool).map fun i => { s with worker := .selected i }
      | _ => none
  | .mark =>
      match s.worker with
      | .selected i => some { s with pool := s.pool.mark i .decoding, worker := .marked i }
      | _ => none
  | .decode =>
      match s.worker with
      | .marked i => some { s with
          worker := .decoded i
          decoded := s.decoded ++ (s.pool.slots[i]?.map (·.toFrame)).toList }
      | _ => none
  | .release =>
      match s.worker with
      | .decoded i => some { s with pool := slotRelease s.pool i, worker := .idle }
      | _ => none

/-- What a step does, where it is possible. -/
def PipeOp.Effect (s s' : DecodePipe) : PipeOp → Prop
  | take => s.writeSlot = none ∧ ∃ i, (s.pool.slots.findIdx? fun x => x.state = .free) = some i ∧
      s' = { s with pool := s.pool.mark i .writing, writeSlot := some i }
  | publish f => ∃ w, s.writeSlot = some w ∧ s' = { s with
      pool := slotPublish s.pool w f
      writeSlot := none
      published := s.published ++ [f] }
  | select => s.worker = .idle ∧ ∃ i, selectReady s.pool = some i ∧
      s' = { s with worker := .selected i }
  | mark => ∃ i, s.worker = .selected i ∧
      s' = { s with pool := s.pool.mark i .decoding, worker := .marked i }
  | decode => ∃ i, s.worker = .marked i ∧ s' = { s with
      worker := .decoded i
      decoded := s.decoded ++ (s.pool.slots[i]?.map (·.toFrame)).toList }
  | release => ∃ i, s.worker = .decoded i ∧
      s' = { s with pool := slotRelease s.pool i, worker := .idle }

/-- All a step can do; the invariants below are derived from this. -/
theorem effect_of_pipeStep {s s' : DecodePipe} {op : PipeOp} (h : pipeStep s op = some s') :
    op.Effect s s' := by
  cases op with
  | take =>
      cases hw : s.writeSlot with
      | none =>
          simp only [pipeStep, hw] at h
          obtain ⟨⟨i, p⟩, htake, rfl⟩ := Option.map_eq_some_iff.mp h
          obtain ⟨j, hj, heq⟩ := Option.map_eq_some_iff.mp htake
          obtain ⟨rfl, rfl⟩ := Prod.mk.inj heq
          exact ⟨hw, j, hj, rfl⟩
      | some w => simp [pipeStep, hw] at h
  | publish f =>
      cases hw : s.writeSlot with
      | none => simp [pipeStep, hw] at h
      | some w =>
          simp only [pipeStep, hw] at h
          exact ⟨w, hw, (Option.some.inj h).symm⟩
  | select =>
      cases hw : s.worker with
      | idle =>
          simp only [pipeStep, hw] at h
          obtain ⟨i, hi, rfl⟩ := Option.map_eq_some_iff.mp h
          exact ⟨hw, i, hi, rfl⟩
      | selected i | marked i | decoded i => simp [pipeStep, hw] at h
  | mark =>
      cases hw : s.worker with
      | selected i =>
          simp only [pipeStep, hw] at h
          exact ⟨i, hw, (Option.some.inj h).symm⟩
      | idle | marked i | decoded i => simp [pipeStep, hw] at h
  | decode =>
      cases hw : s.worker with
      | marked i =>
          simp only [pipeStep, hw] at h
          exact ⟨i, hw, (Option.some.inj h).symm⟩
      | idle | selected i | decoded i => simp [pipeStep, hw] at h
  | release =>
      cases hw : s.worker with
      | decoded i =>
          simp only [pipeStep, hw] at h
          exact ⟨i, hw, (Option.some.inj h).symm⟩
      | idle | selected i | marked i => simp [pipeStep, hw] at h

/-- Every frame is published with deadline 0, as the UDP path does. -/
def ZeroDeadlines (ops : List PipeOp) : Prop := ∀ f, .publish f ∈ ops → f.deadlineUs = 0

/-! ## the order promised and how it breaks -/

/-- Frames are handed to the decoder in the order of their publication, for
every interleaving. -/
def InPublishOrder : Prop :=
  ∀ (ops : List PipeOp) (s : DecodePipe), ZeroDeadlines ops →
    Run.exec pipeStep .init ops = some s → s.decoded <+: s.published

/-- A frame as the UDP path publishes it. -/
def udpFrame (au : List UInt8) (sendTs : UInt32) (pubUs : UInt64) (fidx : UInt32) : Frame :=
  ⟨au, sendTs, pubUs, 0, fidx, fidx.toNat * 1000, 0⟩

/-- The producer publishes into slot 0, then 1; slot 0 is decoded and released
before the third frame is written, which gets slot 0 again. -/
def recycledRun : List PipeOp :=
  [.take, .publish (udpFrame [0] 0 0 0), .take, .select, .mark, .decode, .release,
    .publish (udpFrame [1] 0 0 1), .take, .publish (udpFrame [2] 0 0 2),
    .select, .mark, .decode, .release, .select, .mark, .decode, .release]

/-- The third frame is decoded before the second. -/
theorem inPublishOrder_fails : ¬ InPublishOrder := by
  intro h
  have hrun : (Run.exec pipeStep .init recycledRun).map (fun s => (s.published, s.decoded)) =
      some ([udpFrame [0] 0 0 0, udpFrame [1] 0 0 1, udpFrame [2] 0 0 2],
        [udpFrame [0] 0 0 0, udpFrame [2] 0 0 2, udpFrame [1] 0 0 1]) := by
    decide +kernel
  obtain ⟨s, hs, heq⟩ := Option.map_eq_some_iff.mp hrun
  have hpre := h recycledRun s (by simp [ZeroDeadlines, recycledRun, udpFrame]) hs
  rw [(Prod.mk.inj heq).1, (Prod.mk.inj heq).2] at hpre
  revert hpre
  decide

/-! ## the pool as a queue -/

/-- A slot waiting for the worker. -/
def FrameSlot.isReady (x : FrameSlot) : Bool := x.state = .ready

@[simp] theorem slots_put (p : FramePool) (i : Nat) (x : FrameSlot) :
    (p.put i x).slots = p.slots.set i x := rfl

theorem slots_mark {p : FramePool} {x : FrameSlot} (h : p.slots[i]? = some x) (st : SlotState) :
    (p.mark i st).slots = p.slots.set i { x with state := st } := by
  simp [FramePool.mark, h]

theorem getElem?_put (p : FramePool) {i : Nat} (hi : i < vmcFrameSlots) (x : FrameSlot) (j : Nat) :
    (p.put i x).slots[j]? = if i = j then some x else p.slots[j]? := by
  rw [slots_put, List.getElem?_set, p.size, if_pos hi]

theorem getElem?_mark (p : FramePool) (i : Nat) (st : SlotState) (j : Nat) :
    (p.mark i st).slots[j]? =
      if i = j then (p.slots[j]?).map ({ · with state := st }) else p.slots[j]? := by
  unfold FramePool.mark
  cases hx : p.slots[i]? with
  | none =>
      by_cases hij : i = j
      · rw [if_pos hij, ← hij]
        simp [hx]
      · rw [if_neg hij]
  | some x =>
      have hlt : i < vmcFrameSlots := p.size ▸ (List.getElem?_eq_some_iff.mp hx).1
      dsimp only
      rw [getElem?_put p hlt]
      by_cases hij : i = j
      · rw [if_pos hij, if_pos hij, ← hij, hx]
        rfl
      · rw [if_neg hij, if_neg hij]

theorem getElem?_mark_self {p : FramePool} {i : Nat} {x : FrameSlot} (h : p.slots[i]? = some x)
    (st : SlotState) : (p.mark i st).slots[i]? = some { x with state := st } := by
  rw [getElem?_mark, if_pos rfl, h]
  rfl

theorem getElem?_mark_of_ne (p : FramePool) {i j : Nat} (h : i ≠ j) (st : SlotState) :
    (p.mark i st).slots[j]? = p.slots[j]? := by
  rw [getElem?_mark, if_neg h]

/-- What the scan finds is a ready slot, or what it was given. -/
theorem scanReady_ready (xs : List FrameSlot) (i : Nat) (best : UInt64) (idx : Option Nat) {r : Nat}
    (h : scanReady xs i best idx = some r) :
    idx = some r ∨ ∃ j x, r = i + j ∧ xs[j]? = some x ∧ x.state = .ready := by
  induction xs generalizing i best idx with
  | nil => exact .inl h
  | cons y xs ih =>
      have hshift : ∀ {j x}, xs[j]? = some x → (y :: xs)[j + 1]? = some x := fun hx => hx
      rw [scanReady] at h
      split at h
      · next hy =>
        obtain hr | ⟨j, x, hr, hx, hst⟩ := ih _ _ _ h
        · exact .inr ⟨0, y, (Option.some.inj hr).symm, rfl, hy.1⟩
        · exact .inr ⟨j + 1, x, by omega, hshift hx, hst⟩
      · obtain hr | ⟨j, x, hr, hx, hst⟩ := ih _ _ _ h
        · exact .inl hr
        · exact .inr ⟨j + 1, x, by omega, hshift hx, hst⟩

theorem ready_of_selectReady {p : FramePool} {i : Nat} (h : selectReady p = some i) :
    ∃ x, p.slots[i]? = some x ∧ x.state = .ready := by
  obtain hnone | ⟨j, x, rfl, hx, hst⟩ := scanReady_ready _ _ _ _ h
  · contradiction
  · exact ⟨x, by rwa [Nat.zero_add], hst⟩

theorem scanReady_zero (xs : List FrameSlot) (i : Nat) (idx : Option Nat) :
    scanReady xs i 0 idx = idx := by
  induction xs generalizing i with
  | nil => rfl
  | cons x xs ih =>
      rw [scanReady, if_neg fun h => UInt64.not_lt_zero h.2]
      exact ih (i + 1)

/-- With equal deadlines the worker takes the lowest ready slot. -/
theorem scanReady_eq_findIdx? {best : UInt64} (hbest : 0 < best) (xs : List FrameSlot)
    (hzero : ∀ x ∈ xs, x.deadlineUs = 0) (i : Nat) :
    scanReady xs i best none = (xs.findIdx? FrameSlot.isReady).map (· + i) := by
  induction xs generalizing i with
  | nil => rfl
  | cons x xs ih =>
      have hx : x.deadlineUs = 0 := hzero x (by simp)
      rw [scanReady, hx, List.findIdx?_cons]
      by_cases hr : x.state = .ready
      · rw [if_pos ⟨hr, hbest⟩, scanReady_zero, if_pos (by simpa [FrameSlot.isReady] using hr)]
        simp
      · rw [if_neg fun h => hr h.1, if_neg (by simpa [FrameSlot.isReady] using hr)]
        rw [ih (fun y hy => hzero y (List.mem_cons_of_mem x hy)), Option.map_map]
        congr 1
        funext j
        simp only [Function.comp]
        omega

theorem selectReady_eq {p : FramePool} (hzero : ∀ x ∈ p.slots, x.deadlineUs = 0) :
    selectReady p = p.slots.findIdx? FrameSlot.isReady := by
  rw [selectReady, scanReady_eq_findIdx? (by decide) _ hzero]
  simp

namespace DecodePipe

/-- The pool as the worker will find it: the slot it has selected is spoken
for, although not marked yet. -/
def queue (s : DecodePipe) : List FrameSlot :=
  match s.worker with
  | .selected i => (s.pool.mark i .decoding).slots
  | _ => s.pool.slots

/-- The frame the worker has selected and not yet decoded. -/
def inHand (s : DecodePipe) : List Frame :=
  match s.worker with
  | .selected i | .marked i => (s.pool.slots[i]?.map (·.toFrame)).toList
  | _ => []

/-- The frames waiting to be selected, by slot. -/
def waiting (s : DecodePipe) : List Frame := (s.queue.filter (·.isReady)).map (·.toFrame)

/-- What the two threads keep as long as every frame is published behind those
still waiting. -/
structure InOrder (s : DecodePipe) : Prop where
  deadlines : ∀ x ∈ s.pool.slots, x.deadlineUs = 0
  writing : ∀ w, s.writeSlot = some w → ∃ x, s.pool.slots[w]? = some x ∧ x.state = .writing
  selected : ∀ i, s.worker = .selected i → ∃ x, s.pool.slots[i]? = some x ∧ x.state = .ready
  marked : ∀ i, s.worker = .marked i ∨ s.worker = .decoded i →
    ∃ x, s.pool.slots[i]? = some x ∧ x.state = .decoding
  order : s.published = s.decoded ++ s.inHand ++ s.waiting

theorem init_inOrder : init.InOrder := by
  refine ⟨?_, by simp [init], by simp [init], by simp [init], ?_⟩
  · intro x hx
    rw [(List.mem_replicate.mp hx).2]
    rfl
  · have hw : init.waiting = [] := by
      simp only [waiting, queue, init, FramePool.zero, List.map_eq_nil_iff, List.filter_eq_nil_iff]
      intro x hx
      rw [(List.mem_replicate.mp hx).2]
      decide
    rw [hw]
    rfl

/-- The worker's slot is not the one written to. -/
theorem InOrder.ne_of_state {s : DecodePipe} (hs : s.InOrder) {w : Nat} {x : FrameSlot}
    (hx : s.pool.slots[w]? = some x) (hst : x.state = .free ∨ x.state = .writing) {i : Nat}
    (hi : s.worker = .selected i ∨ s.worker = .marked i ∨ s.worker = .decoded i) : i ≠ w := by
  rintro rfl
  have hheld : ∃ y, s.pool.slots[i]? = some y ∧ (y.state = .ready ∨ y.state = .decoding) := by
    obtain h | h := hi
    · obtain ⟨y, hy, hr⟩ := hs.selected i h
      exact ⟨y, hy, .inl hr⟩
    · obtain ⟨y, hy, hr⟩ := hs.marked i h
      exact ⟨y, hy, .inr hr⟩
  obtain ⟨y, hy, hr⟩ := hheld
  obtain rfl : x = y := Option.some.inj (hx.symm.trans hy)
  rcases hst with h | h <;> rcases hr with hr | hr <;> rw [h] at hr <;> contradiction

/-- Changing a slot the worker does not hold changes the queue there and leaves
the frame in hand. -/
theorem InOrder.put_frame {s : DecodePipe} (hs : s.InOrder) {w : Nat} {x : FrameSlot}
    (hx : s.pool.slots[w]? = some x) (hst : x.state = .free ∨ x.state = .writing)
    (y : FrameSlot) (ws : Option Nat) (pub : List Frame) :
    let s' : DecodePipe := ⟨s.pool.put w y, ws, s.worker, pub, s.decoded⟩
    s.queue[w]? = some x ∧ s'.queue = s.queue.set w y ∧ s'.inHand = s.inHand := by
  have hne := fun i => hs.ne_of_state hx hst (i := i)
  intro s'
  cases hw : s.worker with
  | idle => simp [s', queue, inHand, hw, hx]
  | decoded i => simp [s', queue, inHand, hw, hx]
  | marked i =>
      have hi : w ≠ i := (hne i (by simp [hw])).symm
      simp [s', queue, inHand, hw, hx, List.getElem?_set_ne hi]
  | selected i =>
      have hi : w ≠ i := (hne i (by simp [hw])).symm
      obtain ⟨z, hz, -⟩ := hs.selected i hw
      have hz' : (s.pool.put w y).slots[i]? = some z := by
        rw [slots_put, List.getElem?_set_ne hi, hz]
      simp only [s', queue, inHand, hw, slots_mark hz, slots_mark hz', slots_put]
      refine ⟨?_, List.set_comm _ _ hi, ?_⟩
      · rw [List.getElem?_set_ne hi.symm, hx]
      · rw [List.getElem?_set_ne hi]

/-- The producer's two steps change one slot that the worker does not hold; all
that is left to check is the deadline, the producer's own slot and the order. -/
theorem InOrder.put {s : DecodePipe} (hs : s.InOrder) {w : Nat} {x : FrameSlot}
    (hx : s.pool.slots[w]? = some x) (hst : x.state = .free ∨ x.state = .writing)
    {y : FrameSlot} (hy : y.deadlineUs = 0) {ws : Option Nat}
    (hws : ∀ v, ws = some v → v = w ∧ y.state = .writing) {pub : List Frame}
    (hpub : pub = s.decoded ++ s.inHand ++ ((s.queue.set w y).filter (·.isReady)).map (·.toFrame)) :
    InOrder ⟨s.pool.put w y, ws, s.worker, pub, s.decoded⟩ := by
  obtain ⟨-, hqueue, hhand⟩ := hs.put_frame hx hst y ws pub
  have hlt := (List.getElem?_eq_some_iff.mp hx).1
  have hne := fun i => hs.ne_of_state hx hst (i := i)
  refine ⟨?_, ?_, ?_, ?_, ?_⟩
  · intro z hz
    obtain hz | rfl := List.mem_or_eq_of_mem_set hz
    · exact hs.deadlines z hz
    · exact hy
  · intro v hv
    obtain ⟨rfl, hyst⟩ := hws v hv
    exact ⟨y, List.getElem?_set_self hlt, hyst⟩
  · intro i hi
    obtain ⟨z, hz, hzst⟩ := hs.selected i hi
    exact ⟨z, by rw [slots_put, List.getElem?_set_ne (hne i (.inl hi)).symm, hz], hzst⟩
  · intro i hi
    obtain ⟨z, hz, hzst⟩ := hs.marked i hi
    exact ⟨z, by rw [slots_put, List.getElem?_set_ne (hne i (.inr hi)).symm, hz], hzst⟩
  · rw [hhand, waiting, hqueue]
    exact hpub

theorem inOrder_take {s s' : DecodePipe} (hs : s.InOrder) (h : pipeStep s .take = some s') :
    s'.InOrder := by
  obtain ⟨-, j, hj, rfl⟩ := effect_of_pipeStep h
  obtain ⟨x, hx, hfree⟩ := Pool.exists_of_findIdx? hj
  have hst : x.state = .free := by simpa using hfree
  have hmark : s.pool.mark j .writing = s.pool.put j { x with state := .writing } := by
    simp [FramePool.mark, hx]
  rw [hmark]
  refine hs.put (y := { x with state := .writing }) hx (.inl hst)
    (hs.deadlines x (List.mem_of_getElem? hx)) (fun v hv => ⟨(Option.some.inj hv).symm, rfl⟩) ?_
  obtain ⟨hq, -, -⟩ := hs.put_frame hx (.inl hst) x none []
  rw [Pool.filter_set_unused hq (by simp [FrameSlot.isReady, hst]) (by simp [FrameSlot.isReady])]
  exact hs.order

/-- A frame published behind all that wait joins the queue at its end. -/
theorem inOrder_publish {s s' : DecodePipe} (hs : s.InOrder) {f : Frame} (hf : f.deadlineUs = 0)
    (hlast : ∀ w, s.writeSlot = some w → ∀ x ∈ s.queue.drop (w + 1), x.state ≠ .ready)
    (h : pipeStep s (.publish f) = some s') : s'.InOrder := by
  obtain ⟨w, hw, rfl⟩ := effect_of_pipeStep h
  obtain ⟨x, hx, hst⟩ := hs.writing w hw
  refine hs.put hx (.inr hst) hf (by simp) ?_
  obtain ⟨hq, -, -⟩ := hs.put_frame hx (.inr hst) x none []
  rw [Pool.filter_set_last hq (by simp [FrameSlot.isReady, hst]) (by simp [FrameSlot.isReady])
    (fun z hz => by simpa [FrameSlot.isReady] using hlast w hw z hz)]
  rw [List.map_append, ← List.append_assoc, ← waiting, ← hs.order]
  rfl

theorem inOrder_select {s s' : DecodePipe} (hs : s.InOrder) (h : pipeStep s .select = some s') :
    s'.InOrder := by
  obtain ⟨hidle, i, hi, rfl⟩ := effect_of_pipeStep h
  rw [selectReady_eq hs.deadlines] at hi
  obtain ⟨x, hx, hr⟩ := Pool.exists_of_findIdx? hi
  have hst : x.state = .ready := by simpa [FrameSlot.isReady] using hr
  refine ⟨hs.deadlines, hs.writing, ?_, by simp, ?_⟩
  · intro j hj
    obtain rfl : i = j := by simpa using hj
    exact ⟨x, hx, hst⟩
  · -- the lowest ready slot is the front of the queue
    have hfront : s.waiting = x.toFrame ::
        (((s.pool.mark i .decoding).slots.filter (·.isReady)).map (·.toFrame)) := by
      rw [slots_mark hx, waiting, queue]
      simp only [hidle]
      rw [Pool.filter_set_first (b := { x with state := .decoding }) hi hx rfl, List.map_cons]
    have hnone : s.inHand = [] := by simp [inHand, hidle]
    rw [hs.order, hnone, hfront]
    simp [inHand, waiting, queue, hx]

/-- Marking the worker's slot changes no deadline, and not the slot written to. -/
theorem InOrder.mark_worker {s : DecodePipe} (hs : s.InOrder) {i : Nat} {x : FrameSlot}
    (hx : s.pool.slots[i]? = some x) (st : SlotState)
    (hi : s.worker = .selected i ∨ s.worker = .marked i ∨ s.worker = .decoded i) :
    (∀ z ∈ (s.pool.mark i st).slots, z.deadlineUs = 0) ∧
      ∀ w, s.writeSlot = some w →
        ∃ y, (s.pool.mark i st).slots[w]? = some y ∧ y.state = .writing := by
  constructor
  · intro z hz
    rw [slots_mark hx] at hz
    obtain hz | rfl := List.mem_or_eq_of_mem_set hz
    · exact hs.deadlines z hz
    · exact hs.deadlines x (List.mem_of_getElem? hx)
  · intro w hw
    obtain ⟨y, hy, hyst⟩ := hs.writing w hw
    have hne : i ≠ w := hs.ne_of_state hy (.inr hyst) hi
    exact ⟨y, (getElem?_mark_of_ne s.pool hne st).trans hy, hyst⟩

theorem inOrder_mark {s s' : DecodePipe} (hs : s.InOrder) (h : pipeStep s .mark = some s') :
    s'.InOrder := by
  obtain ⟨i, hsel, rfl⟩ := effect_of_pipeStep h
  obtain ⟨x, hx, hst⟩ := hs.selected i hsel
  have hself := getElem?_mark_self hx .decoding
  obtain ⟨hdeadlines, hwriting⟩ := hs.mark_worker hx .decoding (.inl hsel)
  refine ⟨hdeadlines, hwriting, by simp, ?_, ?_⟩
  · intro j hj
    obtain rfl : i = j := by simpa using hj
    exact ⟨_, hself, rfl⟩
  · have horder := hs.order
    simp only [inHand, waiting, queue, hsel, hx, hself] at horder ⊢
    exact horder

theorem inOrder_decode {s s' : DecodePipe} (hs : s.InOrder) (h : pipeStep s .decode = some s') :
    s'.InOrder := by
  obtain ⟨i, hm, rfl⟩ := effect_of_pipeStep h
  refine ⟨hs.deadlines, hs.writing, by simp, ?_, ?_⟩
  · intro j hj
    obtain rfl : i = j := by simpa using hj
    exact hs.marked i (.inl hm)
  · have horder := hs.order
    simp only [inHand, waiting, queue, hm] at horder ⊢
    rw [horder]
    simp

theorem inOrder_release {s s' : DecodePipe} (hs : s.InOrder) (h : pipeStep s .release = some s') :
    s'.InOrder := by
  obtain ⟨i, hd, rfl⟩ := effect_of_pipeStep h
  obtain ⟨x, hx, hst⟩ := hs.marked i (.inr hd)
  obtain ⟨hdeadlines, hwriting⟩ := hs.mark_worker hx .free (.inr (.inr hd))
  refine ⟨hdeadlines, hwriting, by simp, by simp, ?_⟩
  have horder := hs.order
  simp only [inHand, waiting, queue, hd] at horder ⊢
  rw [slotRelease, slots_mark hx, Pool.filter_set_unused hx (by simp [FrameSlot.isReady, hst])
    (by simp [FrameSlot.isReady])]
  exact horder

/-- What keeps publication order: the slot published to lies above every ready
slot the worker has not selected yet. -/
def PublishesLast (s : DecodePipe) : PipeOp → Prop
  | .publish _ => ∀ w ∈ s.writeSlot, ∀ x ∈ s.queue.drop (w + 1), x.state ≠ .ready
  | _ => True

instance (s : DecodePipe) : (op : PipeOp) → Decidable (s.PublishesLast op)
  | .publish _ => inferInstanceAs
      (Decidable (∀ w ∈ s.writeSlot, ∀ x ∈ s.queue.drop (w + 1), x.state ≠ .ready))
  | .take | .select | .mark | .decode | .release => .isTrue trivial

theorem inOrder_step {s s' : DecodePipe} {op : PipeOp} (hs : s.InOrder)
    (hzero : ∀ f, op = .publish f → f.deadlineUs = 0) (hok : s.PublishesLast op)
    (h : pipeStep s op = some s') : s'.InOrder := by
  cases op with
  | take => exact inOrder_take hs h
  | publish f => exact inOrder_publish hs (hzero f rfl) hok h
  | select => exact inOrder_select hs h
  | mark => exact inOrder_mark hs h
  | decode => exact inOrder_decode hs h
  | release => exact inOrder_release hs h

end DecodePipe

/-! ## what is pending -/

/-- What a step adds to the published frames. -/
def PipeOp.publishes : PipeOp → List Frame
  | .publish f => [f]
  | _ => []

/-- Published but not yet decoded. -/
def DecodePipe.pending (s : DecodePipe) : List Frame := s.inHand ++ s.waiting

/-- How a step moves the history on. -/
theorem pipeStep_history {s s' : DecodePipe} {op : PipeOp} (h : pipeStep s op = some s') :
    s'.published = s.published ++ op.publishes ∧ s.decoded <+: s'.decoded ∧
      (op ≠ .decode → s'.decoded = s.decoded) := by
  have heffect := effect_of_pipeStep h
  cases op with
  | take | select =>
      obtain ⟨-, i, -, rfl⟩ := heffect
      simp [PipeOp.publishes]
  | publish | mark | decode | release =>
      obtain ⟨i, -, rfl⟩ := heffect
      simp [PipeOp.publishes]

/-- The worker leaves the producer's slot alone. -/
theorem writeSlot_worker {s s' : DecodePipe} {op : PipeOp} (h : pipeStep s op = some s')
    (hop : op = .select ∨ op = .mark ∨ op = .decode ∨ op = .release) :
    s'.writeSlot = s.writeSlot := by
  obtain rfl | rfl | rfl | rfl := hop
  · obtain ⟨-, i, -, rfl⟩ := effect_of_pipeStep h
    rfl
  all_goals
    obtain ⟨i, -, rfl⟩ := effect_of_pipeStep h
    rfl

/-- While the queue is in order, what a step decodes comes off the front of the
pending frames and what it publishes joins at their end. -/
theorem pending_step {s s' : DecodePipe} {op : PipeOp} (hs : s.InOrder) (hs' : s'.InOrder)
    (h : pipeStep s op = some s') :
    s.pending ++ op.publishes = s'.decoded.drop s.decoded.length ++ s'.pending := by
  obtain ⟨hpub, ⟨new, hnew⟩, -⟩ := pipeStep_history h
  have hold := hs.order
  have hcur := hs'.order
  rw [hpub, hold, ← hnew, List.append_assoc, List.append_assoc, List.append_assoc,
    List.append_assoc] at hcur
  have hcancel := List.append_cancel_left hcur
  rw [← hnew, List.drop_left, DecodePipe.pending, DecodePipe.pending, List.append_assoc]
  exact hcancel

/-! ## order of decoding -/

/-- **Decode order**, for every interleaving in which each frame is published
behind those still waiting: what has been decoded is always an initial part of
what has been published. -/
theorem decode_in_order (ops : List PipeOp) (s : DecodePipe) (hzero : ZeroDeadlines ops)
    (hlast : Run.Along pipeStep DecodePipe.PublishesLast .init ops)
    (hrun : Run.exec pipeStep .init ops = some s) : s.decoded <+: s.published := by
  have hops : ∀ op ∈ ops, ∀ f, op = .publish f → f.deadlineUs = 0 := by
    rintro op hop f rfl
    exact hzero f hop
  have hinv : s.InOrder := by
    refine Run.exec_invariant DecodePipe.InOrder ?_ DecodePipe.init_inOrder
      (hlast.and_mem hops) hrun
    intro t op t' ht hok hstep
    exact DecodePipe.inOrder_step ht hok.2 hok.1 hstep
  rw [hinv.order, List.append_assoc]
  exact List.prefix_append _ _

/-- Two frames in slots 0 and 1, decoded while a third is being written. -/
def steadyRun : List PipeOp :=
  [.take, .publish (udpFrame [0] 0 0 0), .take, .publish (udpFrame [1] 0 0 1), .take, .select, .mark,
    .decode, .release, .publish (udpFrame [2] 0 0 2), .select, .mark, .decode, .release]

theorem decode_in_order_steady :
    ∃ s, Run.exec pipeStep .init steadyRun = some s ∧ s.decoded.length = 2 ∧
      s.decoded <+: s.published := by
  have hrun : ((Run.exec pipeStep .init steadyRun).map (·.decoded.length)) = some 2 := by
    decide +kernel
  obtain ⟨s, hs, hlen⟩ := Option.map_eq_some_iff.mp hrun
  exact ⟨s, hs, hlen, decode_in_order steadyRun s (by simp [ZeroDeadlines, steadyRun, udpFrame])
    (by decide +kernel) hs⟩

end Vmc
