import Mathlib.Algebra.Order.Ring.Rat
import Vmc.Lib.Serial
import Vmc.Transport.Protocol
import Vmc.Video.Fragment

/-!
# Vmc.Sim.Sender

How the media simulator puts an access unit on the wire (`send_au` of
`tools/vmc_sim/main.c`).

A unit of at most `SIM_CHUNK` bytes is one datagram; a longer one is cut into
fragments of that size, each behind a 4-byte fragment header, under one frame
id taken from the sequence number of the first.  `sendAu_eq` gives the
datagrams in closed form: no buffer, no loop variable, one entry for each
fragment.
-/

namespace Vmc

open Bytes

/-! ## the loop -/

def simChunk : Nat := vmcVideoFragChunk

/-- The fields of `sim_ctx` that `send_au` uses. -/
structure SimCtx where
  haveClient : Bool
  videoSeq : UInt32
  dropRate : ℚ
deriving DecidableEq

/-- `should_drop`; `draw` stands for `rand() / RAND_MAX`. -/
def shouldDrop (c : SimCtx) (draw : ℚ) : Bool :=
  if c.dropRate ≤ 0 then false else draw < c.dropRate

/-- One access unit as `send_au` is called with it. -/
structure AccessUnit where
  data : List UInt8
  key : Bool
  tsUs : UInt32
deriving DecidableEq, Repr

/-- The header fields common to both branches of `send_au`. -/
def videoHeader (flags : UInt8) (payloadLen : UInt16) (seq tsUs : UInt32) : ProtoHeader where
  magic := vmcProtoMagic
  version := vmcProtoVersion
  flags := flags
  stream := streamVideo
  reserved := 0
  payloadLen := payloadLen
  seq := seq
  tsUs := tsUs
  crc := 0

/-- Encode into `pkt` and send what was written unless it is to be dropped: the
datagrams on the wire and the packet buffer afterwards. -/
def encodeAndSend (c : SimCtx) (draw : ℚ) (pkt : List UInt8) (h : ProtoHeader)
    (payload : List UInt8) : List (List UInt8) × List UInt8 :=
  match vmcProtoEncode pkt h (some payload) with
  | (.ok n, pkt) => (if 0 < n ∧ !shouldDrop c draw then [pkt.take n] else [], pkt)
  | (.error _, pkt) => ([], pkt)

/-- The `while (off < len)` loop of `send_au`.  `draws` gives the random draw
for the fragment that starts at an offset. -/
def sendFrags (draws : Nat → ℚ) (au : AccessUnit) (frameId : UInt16) (off : Nat) (idx : UInt16)
    (pkt : List UInt8) (c : SimCtx) : List (List UInt8) × SimCtx :=
  if _hoff : off < au.data.length then
    let cl := if au.data.length - off > simChunk then simChunk else au.data.length - off
    let last := off + cl ≥ au.data.length
    let fh := vmcVideoFragHdrPack frameId (idx ||| if last then vmcVideoFragLast else 0)
    let flags := flagFragmented ||| if au.key then flagKeyframe else 0
    let h := videoHeader flags (UInt16.ofNat (4 + cl)) c.videoSeq au.tsUs
    let pkt := splice pkt vmcProtoHeaderSize fh
    let pkt := splice pkt (vmcProtoHeaderSize + 4) ((au.data.drop off).take cl)
    let (sent, pkt) := encodeAndSend c (draws off) pkt h (pkt.drop vmcProtoHeaderSize)
    let (rest, c) := sendFrags draws au frameId (off + cl) (idx + 1) pkt
      { c with videoSeq := c.videoSeq + 1 }
    (sent ++ rest, c)
  else ([], c)
termination_by au.data.length - off
decreasing_by
  have : 0 < simChunk := by decide
  split <;> omega

/-- `send_au`: the datagrams handed to the socket, in order, and the context
afterwards.  `pkt` is the stack buffer as the call finds it. -/
def sendAu (draws : Nat → ℚ) (pkt : List UInt8) (c : SimCtx) (au : AccessUnit) :
    List (List UInt8) × SimCtx :=
  if !c.haveClient then ([], c)
  else if au.data.length ≤ simChunk then
    let flags := if au.key then flagKeyframe else 0
    let h := videoHeader flags (UInt16.ofNat au.data.length) c.videoSeq au.tsUs
    ((encodeAndSend c (draws 0) pkt h au.data).1, { c with videoSeq := c.videoSeq + 1 })
  else
    sendFrags draws au (c.videoSeq &&& 0xFFFF).toUInt16 0 0 pkt c

/-- The size of `send_au`'s packet buffer. -/
def simPktSize : Nat := vmcProtoHeaderSize + 4 + simChunk

/-! ## the datagrams in closed form -/

/-- A video datagram before it is put into bytes. -/
structure VideoPacket where
  header : ProtoHeader
  payload : List UInt8
deriving DecidableEq, Repr

def VideoPacket.wire (p : VideoPacket) : List UInt8 := datagram p.header p.payload

/-- A packet framed as the protocol wants it and small enough for one
datagram. -/
structure VideoPacket.Framed (p : VideoPacket) : Prop where
  valid : vmcProtoHeaderValid p.header = true
  stream : p.header.stream = streamVideo
  announced : p.payload.length = p.header.payloadLen.toNat
  fits : p.payload.length ≤ 4 + simChunk

namespace AccessUnit

/-- How many datagrams the unit takes. -/
def count (au : AccessUnit) : Nat :=
  if au.data.length ≤ simChunk then 1 else (au.data.length + (simChunk - 1)) / simChunk

/-- The bytes the `i`-th fragment carries. -/
def chunk (au : AccessUnit) (i : Nat) : List UInt8 := (au.data.drop (simChunk * i)).take simChunk

/-- The fragment header of the `i`-th fragment. -/
def fragHdr (au : AccessUnit) (seq : UInt32) (i : Nat) : List UInt8 :=
  vmcVideoFragHdrPack (seq &&& 0xFFFF).toUInt16
    (UInt16.ofNat i ||| if i + 1 = au.count then vmcVideoFragLast else 0)

/-- The `i`-th fragment of a unit whose first datagram is number `seq`. -/
def fragPacket (au : AccessUnit) (seq : UInt32) (i : Nat) : VideoPacket where
  header := videoHeader (flagFragmented ||| if au.key then flagKeyframe else 0)
    (UInt16.ofNat (4 + (au.chunk i).length)) (seq + UInt32.ofNat i) au.tsUs
  payload := au.fragHdr seq i ++ au.chunk i

/-- A unit that fits is sent whole. -/
def wholePacket (au : AccessUnit) (seq : UInt32) : VideoPacket where
  header := videoHeader (if au.key then flagKeyframe else 0) (UInt16.ofNat au.data.length) seq
    au.tsUs
  payload := au.data

/-- The datagrams of a unit, the first numbered `seq`. -/
def packets (au : AccessUnit) (seq : UInt32) : List VideoPacket :=
  if au.data.length ≤ simChunk then [au.wholePacket seq]
  else (List.range au.count).map (au.fragPacket seq)

@[simp] theorem length_packets (au : AccessUnit) (seq : UInt32) :
    (au.packets seq).length = au.count := by
  unfold packets count
  split <;> simp

theorem count_pos (au : AccessUnit) : 0 < au.count := by
  unfold count simChunk vmcVideoFragChunk
  split <;> omega

/-- Fragments of a unit that does not fit: the offsets `simChunk * i` below its
length are those of `i < count`. -/
theorem lt_count_iff {au : AccessUnit} (h : ¬ au.data.length ≤ simChunk) (i : Nat) :
    i < au.count ↔ simChunk * i < au.data.length := by
  simp only [count, if_neg h]
  simp only [simChunk, vmcVideoFragChunk] at *
  omega

theorem length_chunk (au : AccessUnit) (i : Nat) :
    (au.chunk i).length = min simChunk (au.data.length - simChunk * i) := by
  simp [chunk]

theorem length_payload_fragPacket (au : AccessUnit) (seq : UInt32) (i : Nat) :
    (au.fragPacket seq i).payload.length = 4 + (au.chunk i).length := by
  rw [fragPacket, List.length_append]
  rfl

/-- Both kinds of packet are framed properly. -/
theorem framed_of_mem_packets {au : AccessUnit} {seq : UInt32} {p : VideoPacket}
    (hp : p ∈ au.packets seq) : p.Framed := by
  unfold packets at hp
  by_cases hlen : au.data.length ≤ simChunk
  · rw [if_pos hlen, List.mem_singleton] at hp
    subst hp
    simp only [wholePacket, videoHeader, simChunk, vmcVideoFragChunk] at hlen ⊢
    exact ⟨by simp [vmcProtoHeaderValid], rfl, by simp only [UInt16.toNat_ofNat']; omega,
      by simp only [simChunk, vmcVideoFragChunk]; omega⟩
  · rw [if_neg hlen] at hp
    obtain ⟨i, -, rfl⟩ := List.mem_map.mp hp
    have hchunk := length_chunk au i
    have hlen := length_payload_fragPacket au seq i
    simp only [simChunk, vmcVideoFragChunk] at hchunk
    refine ⟨by simp [fragPacket, videoHeader, vmcProtoHeaderValid], rfl, ?_, ?_⟩
    · simp only [fragPacket, videoHeader, UInt16.toNat_ofNat'] at hlen ⊢
      omega
    · simp only [simChunk, vmcVideoFragChunk]
      omega

end AccessUnit

/-- With nothing dropped, a valid header and its payload go out as one
datagram. -/
theorem encodeAndSend_eq {c : SimCtx} (hdrop : c.dropRate ≤ 0) {h : ProtoHeader}
    {pkt p q : List UInt8} (draw : ℚ) (hv : vmcProtoHeaderValid h)
    (hp : p.length = h.payloadLen.toNat) (hq : q.take p.length = p)
    (hcap : 17 + p.length ≤ pkt.length) :
    encodeAndSend c draw pkt h q = ([datagram h p], datagram h p ++ pkt.drop (17 + p.length)) := by
  have hsend : shouldDrop c draw = false := by
    rw [shouldDrop, if_pos hdrop]
  unfold encodeAndSend
  rw [encode_take, ← hp, hq, encode_eq hv hp hcap]
  simp only [hsend]
  rw [if_pos (by simp), List.take_left' (length_datagram h p)]

/-- Writing a header and a chunk behind it into the packet buffer. -/
theorem take_splice_splice {pkt fh : List UInt8} (ch : List UInt8) (hfh : fh.length = 4)
    (hcap : 21 + ch.length ≤ pkt.length) :
    ((splice (splice pkt 17 fh) 21 ch).drop 17).take (fh ++ ch).length = fh ++ ch := by
  have hone : splice (splice pkt 17 fh) 21 ch = splice pkt 17 (fh ++ ch) := by
    have hbehind : splice (splice pkt 17 fh) (17 + fh.length) ch = splice pkt 17 (fh ++ ch) :=
      splice_splice ch (by omega)
    rwa [hfh] at hbehind
  have hroom : 17 + (fh ++ ch).length ≤ pkt.length := by
    rw [List.length_append]
    omega
  have hfront : (pkt.take 17).length = 17 := by
    rw [List.length_take]
    omega
  rw [hone, List.take_drop, take_splice hroom, List.drop_left' hfront]

/-- One iteration's datagram: the fragment is put together behind the room for
the header and encoded in place. -/
theorem encodeAndSend_frag {c : SimCtx} (hdrop : c.dropRate ≤ 0) (draw : ℚ) {au : AccessUnit}
    (hlong : ¬ au.data.length ≤ simChunk) (seq : UInt32) (hi : i < au.count) {pkt : List UInt8}
    (hpkt : pkt.length = simPktSize) :
    ∃ pkt', pkt'.length = simPktSize ∧
      encodeAndSend c draw (splice (splice pkt 17 (au.fragHdr seq i)) 21 (au.chunk i))
        (au.fragPacket seq i).header
        ((splice (splice pkt 17 (au.fragHdr seq i)) 21 (au.chunk i)).drop 17) =
      ([(au.fragPacket seq i).wire], pkt') := by
  have hmem : au.fragPacket seq i ∈ au.packets seq := by
    rw [AccessUnit.packets, if_neg hlong]
    exact List.mem_map_of_mem (List.mem_range.mpr hi)
  obtain ⟨hv, -, hp, hmax⟩ := AccessUnit.framed_of_mem_packets hmem
  have hlen := AccessUnit.length_payload_fragPacket au seq i
  have hhdr : (au.fragHdr seq i).length = 4 := rfl
  have hsize : pkt.length = 17 + 4 + simChunk := hpkt
  have h1 : (splice pkt 17 (au.fragHdr seq i)).length = pkt.length :=
    length_splice (by omega)
  have h2 : (splice (splice pkt 17 (au.fragHdr seq i)) 21 (au.chunk i)).length = pkt.length := by
    rw [length_splice (by omega), h1]
  have hpay := take_splice_splice (au.chunk i) hhdr (show 21 + (au.chunk i).length ≤ pkt.length by omega)
  refine ⟨_, ?_, encodeAndSend_eq hdrop draw hv hp hpay (by omega)⟩
  rw [List.length_append, length_datagram, List.length_drop]
  omega

/-- **The loop.**  From fragment `i` on, with nothing dropped, the loop sends the
remaining fragments in order, each under the next sequence number. -/
theorem sendFrags_eq (draws : Nat → ℚ) {au : AccessUnit} (hlong : ¬ au.data.length ≤ simChunk)
    (seq : UInt32) :
    ∀ (m i : Nat) (pkt : List UInt8) (c : SimCtx), i + m = au.count → c.dropRate ≤ 0 →
      c.videoSeq = seq + UInt32.ofNat i → pkt.length = simPktSize →
      sendFrags draws au (seq &&& 0xFFFF).toUInt16 (min (simChunk * i) au.data.length)
          (UInt16.ofNat i) pkt c =
        ((List.range' i m).map fun j => (au.fragPacket seq j).wire,
          { c with videoSeq := seq + UInt32.ofNat au.count }) := by
  intro m
  induction m with
  | zero =>
      intro i pkt c hi hdrop hseq hpkt
      have hdone : ¬ simChunk * i < au.data.length := by
        rw [← AccessUnit.lt_count_iff hlong]
        omega
      rw [sendFrags, dif_neg (by omega), List.range'_zero, List.map_nil, ← hi, Nat.add_zero, ← hseq]
  | succ m ih =>
      intro i pkt c hi hdrop hseq hpkt
      have hmore : simChunk * i < au.data.length := by
        rw [← AccessUnit.lt_count_iff hlong]
        omega
      have hnext := AccessUnit.lt_count_iff hlong (i + 1)
      have hlen := AccessUnit.length_chunk au i
      have hmul : simChunk * (i + 1) = simChunk * i + simChunk := Nat.mul_succ _ _
      -- the loop variables of this iteration in terms of the fragment number
      have hoff : min (simChunk * i) au.data.length = simChunk * i := by omega
      have hcl : (if au.data.length - simChunk * i > simChunk then simChunk
          else au.data.length - simChunk * i) = (au.chunk i).length := by
        split <;> omega
      have hstep : simChunk * i + (au.chunk i).length = min (simChunk * (i + 1)) au.data.length := by
        omega
      have hlast : (min (simChunk * (i + 1)) au.data.length ≥ au.data.length) ↔
          i + 1 = au.count := by
        omega
      have hdata : (au.data.drop (simChunk * i)).take (au.chunk i).length = au.chunk i := by
        rw [AccessUnit.chunk, List.length_take, List.take_eq_take_iff]
        simp
      obtain ⟨pkt', hpkt', hsent⟩ :=
        encodeAndSend_frag hdrop (draws (simChunk * i)) hlong seq (i := i) (by omega) hpkt
      have hidx : UInt16.ofNat i + 1 = UInt16.ofNat (i + 1) := by
        rw [UInt16.ofNat_add]
        rfl
      have hseq' : c.videoSeq + 1 = seq + UInt32.ofNat (i + 1) := by
        rw [hseq, UInt32.add_assoc, Serial.ofNat_add_one]
      have hrest := ih (i + 1) pkt' { c with videoSeq := c.videoSeq + 1 } (by omega) hdrop hseq' hpkt'
      rw [sendFrags, dif_pos (by omega), hoff]
      simp only [hcl, hdata, hstep, hlast, vmcProtoHeaderSize]
      simp only [AccessUnit.fragPacket, AccessUnit.fragHdr, ← hseq] at hsent
      simp only [hsent, hidx, hrest, List.range'_succ, List.map_cons]
      rw [hseq]
      rfl

/-- **One unit.**  With a client and nothing dropped, `send_au` emits the unit's
packets and moves the sequence number past them. -/
theorem sendAu_eq (draws : Nat → ℚ) {pkt : List UInt8} {c : SimCtx} (au : AccessUnit)
    (hclient : c.haveClient = true) (hdrop : c.dropRate ≤ 0) (hpkt : pkt.length = simPktSize) :
    sendAu draws pkt c au = ((au.packets c.videoSeq).map VideoPacket.wire,
      { c with videoSeq := c.videoSeq + UInt32.ofNat au.count }) := by
  unfold sendAu
  rw [if_neg (by simp [hclient])]
  by_cases hlen : au.data.length ≤ simChunk
  · have hmem : au.wholePacket c.videoSeq ∈ au.packets c.videoSeq := by
      rw [AccessUnit.packets, if_pos hlen]
      exact List.mem_singleton.mpr rfl
    obtain ⟨hv, -, hp, hmax⟩ := AccessUnit.framed_of_mem_packets hmem
    have hcap : 17 + (au.wholePacket c.videoSeq).payload.length ≤ pkt.length := by
      rw [hpkt, simPktSize, vmcProtoHeaderSize]
      omega
    have hsent := encodeAndSend_eq hdrop (draws 0) hv hp List.take_length hcap
    rw [if_pos hlen, AccessUnit.packets, if_pos hlen, AccessUnit.count, if_pos hlen]
    simp only [AccessUnit.wholePacket] at hsent
    simp only [hsent]
    rfl
  · have hloop := sendFrags_eq draws hlen c.videoSeq au.count 0 pkt c (by omega) hdrop
      (by simp) hpkt
    rw [if_neg hlen, AccessUnit.packets, if_neg hlen, List.range_eq_range', List.map_map]
    rw [Nat.mul_zero, Nat.zero_min] at hloop
    exact hloop

/-! ## a list of access units -/

/-- `send_au` for each unit in turn, every call with its own draws and stack
buffer. -/
def sendAll (draws : Nat → Nat → ℚ) (pkt : Nat → List UInt8) (c : SimCtx) :
    List AccessUnit → List (List UInt8) × SimCtx
  | [] => ([], c)
  | au :: aus =>
      let (sent, c) := sendAu (draws aus.length) (pkt aus.length) c au
      let (rest, c) := sendAll draws pkt c aus
      (sent ++ rest, c)

/-- The packets of a list of units, the first numbered `seq`. -/
def packetsFrom (seq : UInt32) : List AccessUnit → List VideoPacket
  | [] => []
  | au :: aus => au.packets seq ++ packetsFrom (seq + UInt32.ofNat au.count) aus

theorem sendAll_eq (draws : Nat → Nat → ℚ) {pkt : Nat → List UInt8}
    (hpkt : ∀ n, (pkt n).length = simPktSize) :
    ∀ (aus : List AccessUnit) (c : SimCtx), c.haveClient = true → c.dropRate ≤ 0 →
      (sendAll draws pkt c aus).1 = (packetsFrom c.videoSeq aus).map VideoPacket.wire := by
  intro aus
  induction aus with
  | nil => intro c _ _; rfl
  | cons au aus ih =>
      intro c hclient hdrop
      simp only [sendAll, packetsFrom, sendAu_eq _ au hclient hdrop (hpkt _), List.map_append]
      congr 1
      exact ih _ hclient hdrop

theorem length_packetsFrom (seq : UInt32) (aus : List AccessUnit) :
    (packetsFrom seq aus).length = (aus.map AccessUnit.count).sum := by
  induction aus generalizing seq with
  | nil => rfl
  | cons au aus ih =>
      rw [packetsFrom, List.length_append, AccessUnit.length_packets, ih, List.map_cons,
        List.sum_cons]

/-- The packets are numbered consecutively from `seq`. -/
theorem seq_packetsFrom (seq : UInt32) (aus : List AccessUnit) {p : VideoPacket}
    (h : (packetsFrom seq aus)[k]? = some p) : p.header.seq = seq + UInt32.ofNat k := by
  induction aus generalizing seq k with
  | nil => simp [packetsFrom] at h
  | cons au aus ih =>
      rw [packetsFrom, List.getElem?_append, AccessUnit.length_packets] at h
      by_cases hk : k < au.count
      · rw [if_pos hk, AccessUnit.packets] at h
        by_cases hlen : au.data.length ≤ simChunk
        · rw [if_pos hlen] at h
          have hzero : k = 0 := by
            rw [AccessUnit.count, if_pos hlen] at hk
            omega
          subst hzero
          obtain rfl : au.wholePacket seq = p := by simpa using h
          simp [AccessUnit.wholePacket, videoHeader]
        · rw [if_neg hlen, List.getElem?_map, List.getElem?_range hk] at h
          obtain rfl : au.fragPacket seq k = p := by simpa using h
          rfl
      · rw [if_neg hk] at h
        rw [ih _ h, UInt32.add_assoc, ← UInt32.ofNat_add]
        congr 2
        omega

theorem framed_of_mem_packetsFrom {seq : UInt32} {aus : List AccessUnit} {p : VideoPacket}
    (hp : p ∈ packetsFrom seq aus) : p.Framed := by
  induction aus generalizing seq with
  | nil => simp [packetsFrom] at hp
  | cons au aus ih =>
      obtain h | h := List.mem_append.mp hp
      · exact AccessUnit.framed_of_mem_packets h
      · exact ih h

end Vmc
