import Vmc.Sim.Sender
import Vmc.Transport.JitterBuffer

/-!
# Vmc.Client.VideoPath

The video path of the client's main loop (`apps/thinclient/main.c`): a received
datagram is decoded and pushed into the jitter buffer, and a slot the buffer
hands out is reassembled into an access unit or decoded as it is.

`Expects` says what an assembler in the middle of a stream is waiting for: the
packets still to come, and the access units they will complete.
`processSlot_expects` is the one fact about reassembly the rest of the client
needs: given the next packet of the stream, the loop completes the next unit of
the list or nothing, and then waits for the rest.
-/

namespace Vmc

open Bytes

/-! ## receiving -/

/-- The arguments `vmc_jb_push` is called with for a decoded datagram. -/
def jbPacket (d : DecodeOut) (nowUs : UInt64) : JbPacket where
  seq := d.h.seq
  tsUs := d.h.tsUs
  stream := d.h.stream
  flags := d.h.flags.toUInt16
  payload := d.payload
  recvUs := nowUs

/-- The video branch of the receive loop.  A key-frame datagram that the buffer
refuses resets it and is pushed again; the clock is read for each push. -/
def receiveVideo (jb : JitterBuffer) (d : DecodeOut) (now1Us now2Us : UInt64) : JitterBuffer :=
  let (st, jb) := vmcJbPush jb (jbPacket d now1Us)
  if st ≠ .ok ∧ d.h.flags &&& flagKeyframe ≠ 0 then
    (vmcJbPush (vmcJbReset jb d.h.seq) (jbPacket d now2Us)).2
  else jb

/-- One iteration of the receive loop, as far as video is concerned.  `h` and
`payload` are uninitialised locals; they are not read unless decoding
succeeds. -/
def receiveDatagram (jb : JitterBuffer) (pkt : List UInt8) (out : DecodeOut)
    (now1Us now2Us : UInt64) : JitterBuffer :=
  match vmcProtoDecode pkt out with
  | (.ok, d) => if d.h.stream = streamVideo then receiveVideo jb d now1Us now2Us else jb
  | _ => jb

/-! ## reassembly -/

/-- What the drain loop does with an access unit. -/
inductive VideoOut where
  /-- Reassembled, and published to the frame slots. -/
  | frame (au : List UInt8) (tsUs : UInt32)
  /-- Received unfragmented, and decoded by the main loop itself. -/
  | inline (au : List UInt8)
deriving DecidableEq, Repr

/-- The access unit. -/
def VideoOut.data : VideoOut → List UInt8
  | frame au _ => au
  | inline au => au

/-- What is to become of a unit the sender emits. -/
def AccessUnit.out (au : AccessUnit) : VideoOut :=
  if au.data.length ≤ simChunk then .inline au.data else .frame au.data au.tsUs

@[simp] theorem AccessUnit.data_out (au : AccessUnit) : au.out.data = au.data := by
  unfold out
  split <;> rfl

/-- The body of the drain loop for the slot `vmc_jb_peek` returned, up to the
publication of a completed unit. -/
def processSlot (frag : FragAssembler) (slot : JbSlot) : FragAssembler × Option VideoOut :=
  if slot.flags &&& flagFragmented.toUInt16 ≠ 0 then
    let (fid, idx, last) := vmcVideoFragHdrUnpack slot.payload
    if slot.payload.length ≥ 4 then
      let (st, auLen, frag) := vmcFragFeed frag ⟨fid, idx, last, slot.payload.drop 4⟩
      if st = .ok ∧ auLen > 0 then (frag, some (.frame (frag.buf.take auLen) slot.tsUs))
      else (frag, none)
    else (frag, none)
  else (frag, some (.inline slot.payload))

/-- What the buffer of a frame slot holds. -/
structure FrameBuf where
  bytes : List UInt8
  size : bytes.length = vmcVideoAuMax
deriving DecidableEq

def FrameBuf.zero : FrameBuf := ⟨List.replicate vmcVideoAuMax 0, List.length_replicate⟩

/-- After a published frame the assembler moves to the buffer of the next free
slot, whatever that buffer holds. -/
def nextBuffer (frag : FragAssembler) (buf : FrameBuf) : FragAssembler :=
  { frag with buf := buf.bytes }

/-! ## reassembling a stream -/

/-- The assembler has taken the first `i` fragments of a unit that started at
`seq`; with `i = 0` it is between units. -/
structure FragAssembler.Took (a : FragAssembler) (au : AccessUnit) (seq : UInt32) (i : Nat) :
    Prop where
  size : a.buf.length = vmcVideoAuMax
  cap : a.cap = vmcVideoAuMax
  started : a.started = decide (0 < i)
  taken : 0 < i → a.frameId = (seq &&& 0xFFFF).toUInt16 ∧ a.nextIndex = UInt16.ofNat i ∧
    a.filled = simChunk * i ∧ a.buf.take (simChunk * i) = au.data.take (simChunk * i)

/-- Between units: nothing about the last one matters any more. -/
structure FragAssembler.Idle (a : FragAssembler) : Prop where
  size : a.buf.length = vmcVideoAuMax
  cap : a.cap = vmcVideoAuMax
  started : a.started = false

theorem took_zero_iff {a : FragAssembler} {au : AccessUnit} {seq : UInt32} :
    a.Took au seq 0 ↔ a.Idle :=
  ⟨fun h => ⟨h.size, h.cap, by simpa using h.started⟩,
    fun h => ⟨h.size, h.cap, by simpa using h.started, by simp⟩⟩

/-- The assembler waits for the packets `ps`, which bring about `todo`. -/
def Expects (a : FragAssembler) (ps : List VideoPacket) (todo : List VideoOut) : Prop :=
  (a.Idle ∧ ps = [] ∧ todo = []) ∨
  ∃ au aus seq i, i < au.count ∧ (∀ u ∈ au :: aus, u.data.length ≤ vmcVideoAuMax) ∧
    a.Took au seq i ∧
    ps = (au.packets seq).drop i ++ packetsFrom (seq + UInt32.ofNat au.count) aus ∧
    todo = au.out :: aus.map (·.out)

/-- Between units the assembler waits for whatever list comes next. -/
theorem expects_of_idle {a : FragAssembler} (ha : a.Idle) (seq : UInt32) {aus : List AccessUnit}
    (hmax : ∀ u ∈ aus, u.data.length ≤ vmcVideoAuMax) :
    Expects a (packetsFrom seq aus) (aus.map (·.out)) := by
  cases aus with
  | nil => exact .inl ⟨ha, rfl, rfl⟩
  | cons au aus =>
      exact .inr ⟨au, aus, seq, 0, au.count_pos, hmax, took_zero_iff.mpr ha, rfl, rfl⟩

/-- Two assemblers between units wait for the same. -/
theorem Expects.of_idle {a b : FragAssembler} {ps : List VideoPacket} {todo : List VideoOut}
    (h : Expects a ps todo) (ha : a.Idle) (hb : b.Idle) : Expects b ps todo := by
  obtain ⟨-, rfl, rfl⟩ | ⟨au, aus, seq, i, hi, hmax, htook, hps, htodo⟩ := h
  · exact .inl ⟨hb, rfl, rfl⟩
  · have hzero : i = 0 := by
      have hst := htook.started
      rw [ha.started] at hst
      simpa using hst.symm
    subst hzero
    exact .inr ⟨au, aus, seq, 0, hi, hmax, took_zero_iff.mpr hb, hps, htodo⟩

/-- With no packet left to wait for, nothing is left to do. -/
theorem Expects.todo_eq_nil {a : FragAssembler} {ps : List VideoPacket} {todo : List VideoOut}
    (h : Expects a ps todo) (hps : ps = []) : todo = [] := by
  obtain ⟨-, -, rfl⟩ | ⟨au, aus, seq, i, hi, -, -, hcons, -⟩ := h
  · rfl
  · rw [hps] at hcons
    have hlen := congrArg List.length hcons
    rw [List.length_append, List.length_drop, AccessUnit.length_packets, List.length_nil] at hlen
    omega

/-- Starting or continuing a unit: once the frame id has been looked at, the
first `i` chunks are in place. -/
theorem fragBegin_took {a : FragAssembler} {au : AccessUnit} {seq : UInt32} (ha : a.Took au seq i) :
    let b := fragBegin a (seq &&& 0xFFFF).toUInt16
    b.buf.length = vmcVideoAuMax ∧ b.cap = vmcVideoAuMax ∧ b.started = true ∧
      b.frameId = (seq &&& 0xFFFF).toUInt16 ∧ b.nextIndex = UInt16.ofNat i ∧
      b.filled = simChunk * i ∧ b.buf.take (simChunk * i) = au.data.take (simChunk * i) := by
  by_cases hi : 0 < i
  · obtain ⟨hid, hidx, hfill, htake⟩ := ha.taken hi
    have hst : a.started = true := by simpa [hi] using ha.started
    simp only [fragBegin, hst, hid]
    rw [if_neg (by simp)]
    exact ⟨ha.size, ha.cap, hst, hid, hidx, hfill, htake⟩
  · obtain rfl : i = 0 := by omega
    have hst : a.started = false := by simpa using ha.started
    simp only [fragBegin, hst]
    rw [if_pos (by simp)]
    exact ⟨ha.size, ha.cap, rfl, rfl, rfl, rfl, by simp⟩

/-- The chunks up to `i` are the front of the unit. -/
theorem take_append_chunk (au : AccessUnit) (i : Nat) :
    au.data.take (simChunk * i) ++ au.chunk i = au.data.take (simChunk * (i + 1)) := by
  rw [Nat.mul_succ, List.take_add, AccessUnit.chunk]

/-- **One fragment.**  Fed the fragment it waits for, the assembler completes
the unit if it is the last one, and otherwise waits for the next. -/
theorem feed_took {a : FragAssembler} {au : AccessUnit} {seq : UInt32} (ha : a.Took au seq i)
    (hlong : ¬ au.data.length ≤ simChunk) (hmax : au.data.length ≤ vmcVideoAuMax)
    (hi : i < au.count) :
    let r := vmcFragFeed a ⟨(seq &&& 0xFFFF).toUInt16, UInt16.ofNat i, i + 1 = au.count, au.chunk i⟩
    r.1 = .ok ∧
      ((i + 1 = au.count ∧ r.2.1 = au.data.length ∧ r.2.2.Idle ∧
          r.2.2.buf.take r.2.1 = au.data) ∨
        (i + 1 < au.count ∧ r.2.1 = 0 ∧ r.2.2.Took au seq (i + 1))) := by
  obtain ⟨hsize, hcap, hst, hid, hidx, hfill, htake⟩ := fragBegin_took ha
  have hchunk := au.length_chunk i
  have hmul : simChunk * (i + 1) = simChunk * i + simChunk := Nat.mul_succ _ _
  have hin := (AccessUnit.lt_count_iff hlong i).mp hi
  have hnext := AccessUnit.lt_count_iff hlong (i + 1)
  simp only [vmcFragFeed]
  generalize fragBegin a (seq &&& 0xFFFF).toUInt16 = b at hsize hcap hst hid hidx hfill htake ⊢
  rw [if_neg (by simp [hidx]), if_neg (by omega)]
  have hfit : b.filled + (au.chunk i).length ≤ b.buf.length := by omega
  have hlen : (splice b.buf b.filled (au.chunk i)).length = vmcVideoAuMax := by
    rw [length_splice hfit, hsize]
  have hbuf : (splice b.buf b.filled (au.chunk i)).take (b.filled + (au.chunk i).length) =
      au.data.take (simChunk * (i + 1)) := by
    rw [take_splice hfit, hfill, htake, take_append_chunk]
  by_cases hlast : i + 1 = au.count
  · rw [if_pos (by simpa using hlast)]
    have hfull : b.filled + (au.chunk i).length = au.data.length := by omega
    refine ⟨rfl, .inl ⟨hlast, hfull, ⟨hlen, hcap, rfl⟩, ?_⟩⟩
    rw [hbuf, List.take_of_length_le (by omega)]
  · rw [if_neg (by simpa using hlast)]
    have hpart : b.filled + (au.chunk i).length = simChunk * (i + 1) := by omega
    refine ⟨rfl, .inr ⟨by omega, rfl, hlen, hcap, by simpa using hst, fun _ => ?_⟩⟩
    refine ⟨hid, ?_, hpart, ?_⟩
    · simp only [hidx, UInt16.ofNat_add]
      rfl
    · rw [← hpart, hbuf, hpart]

/-- The slot holds what packet `p` carried. -/
structure JbSlot.Carries (s : JbSlot) (p : VideoPacket) : Prop where
  tsUs : s.tsUs = p.header.tsUs
  flags : s.flags = p.header.flags.toUInt16
  payload : s.payload = p.payload

/-- The slot `vmc_jb_push` fills in for a packet received at `nowUs`. -/
def VideoPacket.slot (p : VideoPacket) (nowUs : UInt64) : JbSlot :=
  ⟨p.header.seq, p.header.tsUs, p.header.flags.toUInt16, p.header.stream, nowUs, p.payload, true⟩

theorem VideoPacket.carries_slot (p : VideoPacket) (nowUs : UInt64) : (p.slot nowUs).Carries p :=
  ⟨rfl, rfl, rfl⟩

/-- A framed packet is decoded to what it was made of, up to the checksum
field, and its payload fits the slot. -/
theorem decode_wire {p : VideoPacket} (hp : p.Framed) (out : DecodeOut) :
    ∃ d, vmcProtoDecode p.wire out = (.ok, d) ∧ d.h.seq = p.header.seq ∧
      d.h.flags = p.header.flags ∧ d.h.stream = streamVideo ∧
      ∀ nowUs, (jbPacket d nowUs).slot = p.slot nowUs := by
  have hw := wellFormed_datagram_append hp.valid hp.announced []
  have hread := readHeader_datagram_append p.header p.payload []
  have hpay := payloadOf_datagram_append hp.announced []
  rw [List.append_nil] at hw hread hpay
  refine ⟨_, decode_of_wellFormed hw out, ?_, ?_, ?_, fun nowUs => ?_⟩
  · simp only [hread]
  · simp only [hread]
  · simp only [hread]
    exact hp.stream
  · have hfits := hp.fits
    simp only [simChunk, vmcVideoFragChunk] at hfits
    simp only [JbPacket.slot, jbPacket, VideoPacket.slot, hread, hpay]
    rw [List.take_of_length_le (by rw [vmcJbPayloadCap]; omega)]

/-- A fragment in a slot is fed to the assembler as the sender cut it. -/
theorem processSlot_frag {s : JbSlot} {au : AccessUnit} {seq : UInt32} (a : FragAssembler)
    (hs : s.Carries (au.fragPacket seq i)) (hi : i < 32768) :
    processSlot a s =
      let r := vmcFragFeed a
        ⟨(seq &&& 0xFFFF).toUInt16, UInt16.ofNat i, i + 1 = au.count, au.chunk i⟩
      if r.1 = .ok ∧ r.2.1 > 0 then (r.2.2, some (.frame (r.2.2.buf.take r.2.1) au.tsUs))
      else (r.2.2, none) := by
  have hflag : s.flags &&& flagFragmented.toUInt16 ≠ 0 := by
    rw [hs.flags]
    simp only [AccessUnit.fragPacket, videoHeader]
    cases au.key <;> decide
  have hunpack : vmcVideoFragHdrUnpack s.payload =
      ((seq &&& 0xFFFF).toUInt16, UInt16.ofNat i, decide (i + 1 = au.count)) := by
    rw [hs.payload, ← unpack_pack _ hi _ (au.chunk i)]
    simp [AccessUnit.fragPacket, AccessUnit.fragHdr]
  have hchunk : s.payload.drop 4 = au.chunk i := by
    rw [hs.payload]
    rfl
  have hlen : s.payload.length ≥ 4 := by
    rw [hs.payload, AccessUnit.length_payload_fragPacket]
    omega
  unfold processSlot
  rw [if_pos hflag]
  simp only [hunpack, hchunk, hs.tsUs]
  rw [if_pos hlen]
  rfl

/-- A unit sent whole is decoded inline. -/
theorem processSlot_whole {s : JbSlot} {au : AccessUnit} {seq : UInt32} (a : FragAssembler)
    (hs : s.Carries (au.wholePacket seq)) : processSlot a s = (a, some (.inline au.data)) := by
  have hflag : ¬ (s.flags &&& flagFragmented.toUInt16 ≠ 0) := by
    rw [hs.flags]
    simp only [AccessUnit.wholePacket, videoHeader]
    cases au.key <;> decide
  rw [processSlot, if_neg hflag, hs.payload]
  rfl

/-- Before the first packet, and after each completed unit, any other buffer
will do. -/
theorem FragAssembler.Idle.nextBuffer {a : FragAssembler} (ha : a.Idle) (buf : FrameBuf) :
    (nextBuffer a buf).Idle :=
  ⟨buf.size, ha.cap, ha.started⟩

/-- **The next packet.**  Given the packet it waits for, the drain loop either
completes nothing and waits on, or does with the next unit what is to be done
with it; then the assembler is between units and waits for the rest. -/
theorem processSlot_expects {a : FragAssembler} {p : VideoPacket} {ps : List VideoPacket}
    {todo : List VideoOut} {s : JbSlot} (h : Expects a (p :: ps) todo) (hs : s.Carries p) :
    ((processSlot a s).2 = none ∧ Expects (processSlot a s).1 ps todo) ∨
    (∃ o todo', (processSlot a s).2 = some o ∧ todo = o :: todo' ∧ (processSlot a s).1.Idle ∧
      ∀ b : FragAssembler, b.Idle → Expects b ps todo') := by
  obtain ⟨-, hnil, -⟩ | ⟨au, aus, seq, i, hi, hmax, ha, hps, rfl⟩ := h
  · simp at hnil
  have hrest : ∀ b : FragAssembler, b.Idle →
      Expects b (packetsFrom (seq + UInt32.ofNat au.count) aus) (aus.map (·.out)) :=
    fun b hb => expects_of_idle hb _ fun u hu => hmax u (List.mem_cons_of_mem au hu)
  rw [AccessUnit.packets] at hps
  by_cases hlen : au.data.length ≤ simChunk
  · -- sent whole
    have hi0 : i = 0 := by
      rw [AccessUnit.count, if_pos hlen] at hi
      omega
    subst hi0
    rw [if_pos hlen] at hps
    obtain ⟨rfl, rfl⟩ : p = au.wholePacket seq ∧
        ps = packetsFrom (seq + UInt32.ofNat au.count) aus := by simpa using hps
    rw [processSlot_whole a hs]
    refine .inr ⟨_, _, rfl, ?_, took_zero_iff.mp ha, hrest⟩
    rw [AccessUnit.out, if_pos hlen]
  · rw [if_neg hlen, List.drop_eq_getElem_cons (by simpa using hi)] at hps
    obtain ⟨rfl, rfl⟩ : p = au.fragPacket seq i ∧
        ps = (((List.range au.count).map (au.fragPacket seq)).drop (i + 1)) ++
          packetsFrom (seq + UInt32.ofNat au.count) aus := by simpa using hps
    have hbound : au.data.length ≤ vmcVideoAuMax := hmax au (by simp)
    have hidx : i < 32768 := by
      have hin := (AccessUnit.lt_count_iff hlen i).mp hi
      simp only [simChunk, vmcVideoFragChunk, vmcVideoAuMax] at hin hbound
      omega
    rw [processSlot_frag a hs hidx]
    obtain ⟨hok, ⟨hlast, hau, hidle, hbuf⟩ | ⟨hmore, hzero, htook⟩⟩ := feed_took ha hlen hbound hi
    · have hpos : au.data.length > 0 := by omega
      rw [if_pos ⟨hok, by rw [hau]; exact hpos⟩]
      have hnone : ((List.range au.count).map (au.fragPacket seq)).drop (i + 1) = [] := by
        rw [List.drop_eq_nil_iff]
        simp [hlast]
      rw [hnone]
      refine .inr ⟨_, _, rfl, ?_, hidle, hrest⟩
      rw [hbuf, AccessUnit.out, if_neg hlen]
    · rw [if_neg fun hdone => by rw [hzero] at hdone; exact Nat.lt_irrefl 0 hdone.2]
      refine .inl ⟨rfl, .inr ⟨au, aus, seq, i + 1, hmore, hmax, htook, ?_, rfl⟩⟩
      rw [AccessUnit.packets, if_neg hlen]

end Vmc
