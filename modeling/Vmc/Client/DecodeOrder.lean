import Vmc.Client.FrameSlots
import Vmc.Client.VideoPath

/-!
# Vmc.Client.DecodeOrder

The two ways an access unit reaches the decoder in UDP mode.

Long units are reassembled by the main loop, published to the frame slots and
decoded by the worker; units that fit one datagram are decoded by the main loop
itself, at once.  `ClientOp` interleaves the main loop with the worker, for
datagrams that come out of the jitter buffer in the order they were sent.

The order of emission survives exactly as long as nothing is pending in the
slots when a small unit is decoded, and frames are published behind those still
waiting (`decode_calls_in_order`).
-/

namespace Vmc

/-! ## the client -/

/-- The slot a received datagram is buffered in, if it is a video datagram. -/
def slotOf (out : DecodeOut) (nowUs : UInt64) (pkt : List UInt8) : Option JbSlot :=
  match vmcProtoDecode pkt out with
  | (.ok, d) => if d.h.stream = streamVideo then some (jbPacket d nowUs).slot else none
  | _ => none

/-- The main loop with the slots the jitter buffer will hand it, the decode
pipeline, and the decoder calls made so far by either thread. -/
structure UdpClient where
  inbox : List JbSlot
  frag : FragAssembler
  frameCount : UInt32
  pipe : DecodePipe
  calls : List (List UInt8)

/-- The state the main loop starts in: slot 0 is taken, and the assembler is
set up on its buffer. -/
def UdpClient.init (inbox : List JbSlot) (buf : FrameBuf) : UdpClient where
  inbox := inbox
  frag := vmcFragReset ⟨buf.bytes, vmcVideoAuMax, 0, 0, 0, false⟩
  frameCount := 0
  pipe := (pipeStep .init .take).getD .init
  calls := []

/-- The steps of the main loop and of the worker. -/
inductive ClientOp where
  /-- One iteration of the drain loop, up to publishing a completed frame. -/
  | drain (nowUs : UInt64)
  /-- `slot_take_write` after a publication; `buf` is what the new slot's buffer
  holds. -/
  | take (buf : FrameBuf)
  | select
  | mark
  | decode
  | release
deriving DecidableEq

/-- One step; `none` if the thread is not at it or would wait. -/
def clientStep (s : UdpClient) : ClientOp → Option UdpClient
  | .drain nowUs =>
      match s.inbox, s.pipe.writeSlot with
      | slot :: rest, some _ =>
          let (frag, out) := processSlot s.frag slot
          let s := { s with inbox := rest, frag := frag }
          match out with
          | none => some s
          | some (.inline au) => some { s with calls := s.calls ++ [au] }
          | some (.frame au tsUs) =>
              (pipeStep s.pipe (.publish (udpFrame au tsUs nowUs s.frameCount))).map fun p =>
                { s with frameCount := s.frameCount + 1, pipe := p }
      | _, _ => none
  | .take buf =>
      (pipeStep s.pipe .take).map fun p => { s with frag := nextBuffer s.frag buf, pipe := p }
  | .select => (pipeStep s.pipe .select).map fun p => { s with pipe := p }
  | .mark => (pipeStep s.pipe .mark).map fun p => { s with pipe := p }
  | .decode => (pipeStep s.pipe .decode).map fun p =>
      { s with
        pipe := p
        calls := s.calls ++ (p.decoded.drop s.pipe.decoded.length).map (·.data) }
  | .release => (pipeStep s.pipe .release).map fun p => { s with pipe := p }

/-- A sender, and the client its datagrams are delivered to in order. -/
structure Session where
  draws : Nat → Nat → ℚ
  pkt : Nat → List UInt8
  ctx : SimCtx
  aus : List AccessUnit
  out : DecodeOut
  nowUs : UInt64
  buf : FrameBuf
  client : ctx.haveClient = true
  lossless : ctx.dropRate = 0
  pktSize : ∀ n, (pkt n).length = simPktSize

/-- The client before its first step. -/
def Session.start (x : Session) : UdpClient :=
  .init ((sendAll x.draws x.pkt x.ctx x.aus).1.filterMap (slotOf x.out x.nowUs)) x.buf

/-- The order promised: the decoder is called for the access units in the order
the sender emitted them, by whichever thread and under every interleaving. -/
def EmissionOrder : Prop :=
  ∀ (x : Session) (ops : List ClientOp) (s : UdpClient),
    Run.exec clientStep x.start ops = some s → s.calls <+: x.aus.map (·.data)

/-- What the sender emits arrives in its slots. -/
theorem start_eq (x : Session) :
    x.start = .init ((packetsFrom x.ctx.videoSeq x.aus).map (·.slot x.nowUs)) x.buf := by
  have hsent := sendAll_eq x.draws x.pktSize x.aus x.ctx x.client (le_of_eq x.lossless)
  have hall : ∀ ps : List VideoPacket, (∀ p ∈ ps, p.Framed) →
      (ps.map VideoPacket.wire).filterMap (slotOf x.out x.nowUs) = ps.map (·.slot x.nowUs) := by
    intro ps
    induction ps with
    | nil => intro _; rfl
    | cons p ps ih =>
        intro hps
        obtain ⟨d, hdec, -, -, hstream, hslot⟩ := decode_wire (hps p (by simp)) x.out
        have hone : slotOf x.out x.nowUs p.wire = some (p.slot x.nowUs) := by
          simp only [slotOf, hdec, hstream, hslot, if_true]
        rw [List.map_cons, List.filterMap_cons_some hone, List.map_cons,
          ih fun q hq => hps q (List.mem_cons_of_mem p hq)]
  rw [Session.start, hsent, hall _ fun p hp => framed_of_mem_packetsFrom hp]

/-- A unit of two fragments, then a one-byte unit. -/
def longThenShort : Session where
  draws := fun _ _ => 0
  pkt := fun _ => List.replicate simPktSize 0
  ctx := ⟨true, 0, 0⟩
  aus := [⟨List.replicate 1401 1, true, 0⟩, ⟨[2], false, 0⟩]
  out := ⟨videoHeader 0 0 0 0, []⟩
  nowUs := 0
  buf := FrameBuf.zero
  client := rfl
  lossless := rfl
  pktSize := fun _ => List.length_replicate

/-- The main loop gets to the short unit before the worker has decoded the long
one. -/
def overtakingRun : List ClientOp :=
  [.drain 0, .drain 0, .take FrameBuf.zero, .drain 0, .select, .mark, .decode]

/-- The short unit is decoded first. -/
theorem emissionOrder_fails : ¬ EmissionOrder := by
  intro h
  have hrun : (Run.exec clientStep longThenShort.start overtakingRun).map (·.calls) =
      some [[2], List.replicate 1401 1] := by
    rw [start_eq]
    decide +kernel
  obtain ⟨s, hs, hcalls⟩ := Option.map_eq_some_iff.mp hrun
  have hpre := h longThenShort overtakingRun s hs
  rw [hcalls] at hpre
  revert hpre
  decide

/-! ## what keeps the order -/

/-- Before main acts on a unit: a unit to be decoded inline finds nothing
pending in the slots, and a completed frame is published behind those still
waiting. -/
def UdpClient.Unhurried (s : UdpClient) : Option VideoOut → Prop
  | some (.inline _) => s.pipe.pending = []
  | some (.frame _ _) => ∀ w ∈ s.pipe.writeSlot, ∀ x ∈ s.pipe.queue.drop (w + 1), x.state ≠ .ready
  | none => True

instance (s : UdpClient) : (out : Option VideoOut) → Decidable (s.Unhurried out)
  | some (.inline _) => inferInstanceAs (Decidable (s.pipe.pending = []))
  | some (.frame _ _) => inferInstanceAs (Decidable
      (∀ w ∈ s.pipe.writeSlot, ∀ x ∈ s.pipe.queue.drop (w + 1), x.state ≠ .ready))
  | none => .isTrue trivial

/-- The condition on one step; only the main loop's drain steps are
restricted. -/
def UdpClient.Orderly (s : UdpClient) : ClientOp → Prop
  | .drain _ => ∀ slot ∈ s.inbox.head?, s.Unhurried (processSlot s.frag slot).2
  | _ => True

instance (s : UdpClient) : (op : ClientOp) → Decidable (s.Orderly op)
  | .drain _ => inferInstanceAs
      (Decidable (∀ slot ∈ s.inbox.head?, s.Unhurried (processSlot s.frag slot).2))
  | .take _ | .select | .mark | .decode | .release => .isTrue trivial

/-- Every unit is accounted for, in order: decoded, pending in the slots, or
still to come out of the stream. -/
structure UdpClient.Accounts (aus : List (List UInt8)) (s : UdpClient) : Prop where
  pipe : s.pipe.InOrder
  between : s.pipe.writeSlot = none → s.frag.Idle
  stream : ∃ ps todo, List.Forall₂ JbSlot.Carries s.inbox ps ∧ Expects s.frag ps todo ∧
    aus = s.calls ++ s.pipe.pending.map (·.data) ++ todo.map (·.data)

/-- A step of the pool alone: the units it decodes move from the slots to the
calls. -/
theorem accounts_pipe {aus : List (List UInt8)} {s : UdpClient} (hs : s.Accounts aus)
    {op : PipeOp} {p : DecodePipe} (hop : op.publishes = []) (h : pipeStep s.pipe op = some p)
    (hp : p.InOrder) {frag : FragAssembler}
    (hfrag : frag = s.frag ∨ (s.frag.Idle ∧ frag.Idle))
    (hwrite : p.writeSlot = none → s.pipe.writeSlot = none) {calls : List (List UInt8)}
    (hcalls : calls = s.calls ++ (p.decoded.drop s.pipe.decoded.length).map (·.data)) :
    UdpClient.Accounts aus { s with frag := frag, pipe := p, calls := calls } := by
  obtain ⟨ps, todo, hinbox, hexp, haus⟩ := hs.stream
  have hpend := pending_step hs.pipe hp h
  rw [hop, List.append_nil] at hpend
  refine ⟨hp, ?_, ps, todo, hinbox, ?_, ?_⟩
  · intro hnone
    obtain rfl | ⟨-, hidle⟩ := hfrag
    · exact hs.between (hwrite hnone)
    · exact hidle
  · obtain rfl | ⟨hold, hnew⟩ := hfrag
    · exact hexp
    · exact hexp.of_idle hold hnew
  · rw [haus, hcalls, hpend, List.map_append]
    simp

/-- The worker's steps. -/
theorem accounts_worker {aus : List (List UInt8)} {s : UdpClient} (hs : s.Accounts aus)
    {op : PipeOp} {p : DecodePipe} (h : pipeStep s.pipe op = some p)
    (hop : op = .select ∨ op = .mark ∨ op = .decode ∨ op = .release) {calls : List (List UInt8)}
    (hcalls : calls = s.calls ++ (p.decoded.drop s.pipe.decoded.length).map (·.data)) :
    UdpClient.Accounts aus { s with pipe := p, calls := calls } := by
  have hpub : op.publishes = [] := by
    rcases hop with rfl | rfl | rfl | rfl <;> rfl
  have hp : p.InOrder := by
    refine DecodePipe.inOrder_step hs.pipe ?_ ?_ h
    · rintro f rfl
      simp [PipeOp.publishes] at hpub
    · rcases hop with rfl | rfl | rfl | rfl <;> trivial
  refine accounts_pipe hs hpub h hp (.inl rfl) ?_ hcalls
  rw [writeSlot_worker h hop]
  exact id

/-- A step that is not `decode` adds no call. -/
theorem drop_decoded_eq_nil {s p : DecodePipe} {op : PipeOp} (h : pipeStep s op = some p)
    (hop : op ≠ .decode) : p.decoded.drop s.decoded.length = [] := by
  rw [(pipeStep_history h).2.2 hop, List.drop_length]

/-- A completed frame goes from the stream into the slots. -/
theorem accounts_publish {aus : List (List UInt8)} {s : UdpClient} {frag : FragAssembler}
    {inbox : List JbSlot} {ps : List VideoPacket} {todo : List VideoOut} {f : Frame}
    {p : DecodePipe} (hs : s.Accounts aus) (hidle : frag.Idle)
    (hinbox : List.Forall₂ JbSlot.Carries inbox ps) (hexp : Expects frag ps todo)
    (haus : aus = s.calls ++ s.pipe.pending.map (·.data) ++ f.data :: todo.map (·.data))
    (hf : f.deadlineUs = 0) (hlast : s.pipe.PublishesLast (.publish f))
    (h : pipeStep s.pipe (.publish f) = some p) (n : UInt32) :
    UdpClient.Accounts aus ⟨inbox, frag, n, p, s.calls⟩ := by
  have hp : p.InOrder := by
    refine DecodePipe.inOrder_step hs.pipe ?_ hlast h
    rintro g hg
    obtain rfl := PipeOp.publish.inj hg
    exact hf
  have hpend := pending_step hs.pipe hp h
  rw [drop_decoded_eq_nil h (by simp), List.nil_append] at hpend
  refine ⟨hp, fun _ => hidle, ps, todo, hinbox, hexp, ?_⟩
  rw [haus, ← hpend]
  simp [PipeOp.publishes]

/-- An iteration of the drain loop. -/
theorem accounts_drain {aus : List (List UInt8)} {s s' : UdpClient} (hs : s.Accounts aus)
    {nowUs : UInt64} (hok : s.Orderly (.drain nowUs)) (h : clientStep s (.drain nowUs) = some s') :
    s'.Accounts aus := by
  obtain ⟨ps, todo, hinbox, hexp, haus⟩ := hs.stream
  simp only [clientStep] at h
  split at h
  swap
  · contradiction
  rename_i slot rest w hin hw
  rw [hin] at hinbox
  obtain ⟨q, qs, hcar, hrest, rfl⟩ := List.forall₂_cons_left_iff.mp hinbox
  have hcond : s.Unhurried (processSlot s.frag slot).2 := hok slot (by rw [hin]; rfl)
  obtain ⟨hnone, hnext⟩ | ⟨o, todo', hout, rfl, hidle, hnext⟩ := processSlot_expects hexp hcar
  · simp only [hnone] at h
    obtain rfl := Option.some.inj h
    exact ⟨hs.pipe, fun hwn => by simp [hw] at hwn, qs, todo, hrest, hnext, haus⟩
  · rw [hout] at hcond
    simp only [hout] at h
    cases o with
    | inline au =>
        obtain rfl := Option.some.inj h
        have hempty : s.pipe.pending = [] := hcond
        refine ⟨hs.pipe, fun hwn => by simp [hw] at hwn, qs, todo', hrest, hnext _ hidle, ?_⟩
        rw [haus, hempty]
        simp [VideoOut.data]
    | frame au tsUs =>
        obtain ⟨p, hp, rfl⟩ := Option.map_eq_some_iff.mp h
        exact accounts_publish (f := udpFrame au tsUs nowUs s.frameCount) hs hidle hrest
          (hnext _ hidle) haus rfl hcond hp _

theorem accounts_step {aus : List (List UInt8)} {s s' : UdpClient} {op : ClientOp}
    (hs : s.Accounts aus) (hok : s.Orderly op) (h : clientStep s op = some s') :
    s'.Accounts aus := by
  cases op with
  | drain nowUs => exact accounts_drain hs hok h
  | take buf =>
      obtain ⟨p, hp, rfl⟩ := Option.map_eq_some_iff.mp h
      obtain ⟨hnone, -⟩ := effect_of_pipeStep hp
      have hidle := hs.between hnone
      refine accounts_pipe hs rfl hp (DecodePipe.inOrder_take hs.pipe hp)
        (.inr ⟨hidle, hidle.nextBuffer buf⟩) (fun _ => hnone) ?_
      rw [drop_decoded_eq_nil hp (by simp)]
      simp
  | select =>
      obtain ⟨p, hp, rfl⟩ := Option.map_eq_some_iff.mp h
      exact accounts_worker hs hp (by simp) (by rw [drop_decoded_eq_nil hp (by simp)]; simp)
  | mark =>
      obtain ⟨p, hp, rfl⟩ := Option.map_eq_some_iff.mp h
      exact accounts_worker hs hp (by simp) (by rw [drop_decoded_eq_nil hp (by simp)]; simp)
  | decode =>
      obtain ⟨p, hp, rfl⟩ := Option.map_eq_some_iff.mp h
      exact accounts_worker hs hp (by simp) rfl
  | release =>
      obtain ⟨p, hp, rfl⟩ := Option.map_eq_some_iff.mp h
      exact accounts_worker hs hp (by simp) (by rw [drop_decoded_eq_nil hp (by simp)]; simp)

theorem accounts_start (x : Session) (hmax : ∀ au ∈ x.aus, au.data.length ≤ vmcVideoAuMax) :
    x.start.Accounts (x.aus.map (·.data)) := by
  have htake : ∃ p, pipeStep .init .take = some p := by
    exact Option.isSome_iff_exists.mp (by decide +kernel)
  obtain ⟨p, hp⟩ := htake
  have hin := DecodePipe.inOrder_take DecodePipe.init_inOrder hp
  obtain ⟨hpub, hdec, hdecoded⟩ := pipeStep_history hp
  have hpend := pending_step DecodePipe.init_inOrder hin hp
  have hnone : DecodePipe.init.pending = [] := by
    have horder := DecodePipe.init_inOrder.order
    simp only [DecodePipe.init, List.nil_append] at horder
    exact horder.symm
  rw [drop_decoded_eq_nil hp (by simp), hnone] at hpend
  have hidle : (UdpClient.init [] x.buf).frag.Idle := ⟨x.buf.size, rfl, rfl⟩
  rw [start_eq]
  simp only [UdpClient.init, hp, Option.getD_some]
  refine ⟨hin, fun _ => hidle, packetsFrom x.ctx.videoSeq x.aus, x.aus.map AccessUnit.out, ?_,
    expects_of_idle hidle _ hmax, ?_⟩
  · rw [List.forall₂_map_left_iff]
    exact List.forall₂_same.mpr fun q _ => q.carries_slot x.nowUs
  · have hp0 : p.pending = [] := by simpa [PipeOp.publishes] using hpend.symm
    rw [hp0]
    simp

/-- **Decoder calls in emission order**, for units that fit a slot and every
interleaving in which small units find the slots drained and frames are
published behind those waiting: the calls made are always an initial part of
the units sent, and they are all of them once the stream is used up and the
slots are drained. -/
theorem decode_calls_in_order (x : Session) (ops : List ClientOp) (s : UdpClient)
    (hmax : ∀ au ∈ x.aus, au.data.length ≤ vmcVideoAuMax)
    (hok : Run.Along clientStep UdpClient.Orderly x.start ops)
    (hrun : Run.exec clientStep x.start ops = some s) :
    s.calls <+: x.aus.map (·.data) ∧
      (s.inbox = [] → s.pipe.pending = [] → s.calls = x.aus.map (·.data)) := by
  have hacc : s.Accounts (x.aus.map (·.data)) :=
    Run.exec_invariant (UdpClient.Accounts (x.aus.map (·.data)))
      (fun t op t' ht hop hstep => accounts_step ht hop hstep) (accounts_start x hmax) hok hrun
  obtain ⟨ps, todo, hinbox, hexp, haus⟩ := hacc.stream
  constructor
  · rw [haus, List.append_assoc]
    exact List.prefix_append _ _
  · intro hin hpend
    have hps : ps = [] := by
      rw [hin] at hinbox
      exact List.forall₂_nil_left_iff.mp hinbox
    rw [haus, hpend, hexp.todo_eq_nil hps]
    simp

/-- The same two units, the worker keeping up. -/
def patientRun : List ClientOp :=
  [.drain 0, .drain 0, .take FrameBuf.zero, .select, .mark, .decode, .release, .drain 0]

theorem decode_calls_in_order_patient :
    ∃ s, Run.exec clientStep longThenShort.start patientRun = some s ∧ s.calls.length = 2 ∧
      s.calls <+: longThenShort.aus.map (·.data) := by
  have hrun : (Run.exec clientStep longThenShort.start patientRun).map (·.calls.length) = some 2 := by
    rw [start_eq]
    decide +kernel
  obtain ⟨s, hs, hlen⟩ := Option.map_eq_some_iff.mp hrun
  refine ⟨s, hs, hlen, (decode_calls_in_order longThenShort patientRun s ?_ ?_ hs).1⟩
  · decide +kernel
  · rw [start_eq]
    decide +kernel

end Vmc
