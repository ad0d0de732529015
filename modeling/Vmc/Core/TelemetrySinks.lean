import Vmc.Transport.Protocol

/-!
# Vmc.Core.TelemetrySinks

`tlm_write_sinks` of `core/telemetry.c`: a line of telemetry goes to the file,
and as one datagram to the collector.

The datagram is framed here by hand, byte by byte at literal offsets, and its
checksum is computed in one pass that reads the first sixteen bytes from the
datagram and the rest from the line.  `tlmFrame_eq` says that this is the
framing of `transport/protocol.c`: the codec's datagram for the header
`tlmHeader`.
-/

namespace Vmc

open Bytes

/-! ## the sinks -/

/-- What `tlm_write_sinks` writes to: the file, if one is open, whether there is
a socket, the static buffer, and the datagrams handed to `sendto`. -/
structure TlmSinks where
  file : Option (List UInt8)
  udpOpen : Bool
  udpBuf : List UInt8
  sent : List (List UInt8)
  bufSize : udpBuf.length = vmcProtoMaxPacket

/-- The header bytes of a line's datagram, written into `p`. -/
def tlmPutHeader (p : List UInt8) (len : Nat) (now : UInt64) : List UInt8 :=
  let plen := UInt16.ofNat len
  let p := (p.set 0 0x43).set 1 0x56
  let p := p.set 2 1
  let p := p.set 3 0
  let p := p.set 4 4
  let p := p.set 5 0
  let p := p.set 6 (plen &&& 0xff).toUInt8
  let p := p.set 7 (plen >>> 8).toUInt8
  let p := (((p.set 8 0).set 9 0).set 10 0).set 11 0
  let p := p.set 12 (now &&& 0xff).toUInt8
  let p := p.set 13 ((now >>> 8) &&& 0xff).toUInt8
  let p := p.set 14 ((now >>> 16) &&& 0xff).toUInt8
  p.set 15 ((now >>> 24) &&& 0xff).toUInt8

/-- The byte the checksum loop reads at `j`. -/
def tlmCrcInput (p line : List UInt8) (j : Nat) : UInt8 :=
  if j < vmcProtoHeaderSize - 1 then p.getD j 0 else line.getD (j - (vmcProtoHeaderSize - 1)) 0

/-- The checksum loop after `n` iterations. -/
def tlmCrc (p line : List UInt8) : Nat → UInt8
  | 0 => 0
  | j + 1 => crc8Byte (tlmCrc p line j) (tlmCrcInput p line j)

/-- The buffer as it is handed to `sendto`. -/
def tlmFrame (p line : List UInt8) (now : UInt64) : List UInt8 :=
  let p := tlmPutHeader p line.length now
  let p := p.set 16 (tlmCrc p line (vmcProtoHeaderSize - 1 + line.length))
  splice p vmcProtoHeaderSize line

/-! ## the framing is the codec's -/

/-- The header of a line's datagram, in the codec's terms. -/
def tlmHeader (line : List UInt8) (now : UInt64) : ProtoHeader where
  magic := vmcProtoMagic
  version := vmcProtoVersion
  flags := 0
  stream := streamTelemetry
  reserved := 0
  payloadLen := UInt16.ofNat line.length
  seq := 0
  tsUs := now.toUInt32
  crc := 0

theorem headerValid_tlmHeader (line : List UInt8) (now : UInt64) :
    vmcProtoHeaderValid (tlmHeader line now) := by
  simp [vmcProtoHeaderValid, tlmHeader]

private theorem and_0xff (n : Nat) : n &&& 255 = n % 256 :=
  Nat.and_two_pow_sub_one_eq_mod n 8

/-- The high byte of the length needs no mask. -/
theorem shiftRight_eq_hi16 (v : UInt16) : (v >>> 8).toUInt8 = hi16 v := by
  apply UInt8.toNat_inj.mp
  simp [Nat.shiftRight_eq_div_pow]
  have := v.toNat_lt
  omega

/-- The bytes taken from the 64-bit clock are those of its low word. -/
theorem clockBytes_eq (now : UInt64) :
    (now &&& 0xff).toUInt8 = byte32 now.toUInt32 0 ∧
    ((now >>> 8) &&& 0xff).toUInt8 = byte32 now.toUInt32 8 ∧
    ((now >>> 16) &&& 0xff).toUInt8 = byte32 now.toUInt32 16 ∧
    ((now >>> 24) &&& 0xff).toUInt8 = byte32 now.toUInt32 24 := by
  simp only [← UInt8.toNat_inj, toNat_byte32_zero, toNat_byte32_8, toNat_byte32_16,
    toNat_byte32_24]
  simp [and_0xff, Nat.shiftRight_eq_div_pow]
  omega

/-- The writes at literal offsets put the codec's header bytes in front. -/
theorem tlmPutHeader_eq {p : List UInt8} (line : List UInt8) (now : UInt64) (h : 17 ≤ p.length) :
    tlmPutHeader p line.length now = headerBytes (tlmHeader line now) ++ p.drop 16 := by
  obtain ⟨b0, b1, b2, b3, b4, b5, b6, b7, b8, b9, b10, b11, b12, b13, b14, b15, b16, rest, rfl⟩ :=
    exists_seventeen h
  obtain ⟨h12, h13, h14, h15⟩ := clockBytes_eq now
  simp only [tlmPutHeader, headerBytes, tlmHeader, List.set_cons_zero, List.set_cons_succ,
    List.drop_succ_cons, List.drop_zero, List.cons_append, List.nil_append, h12, h13, h14, h15,
    shiftRight_eq_hi16]
  rfl

/-- The loop reads the first sixteen bytes of the datagram, then the line. -/
theorem tlmCrcInput_eq {p line : List UInt8} {j : Nat} (hp : 16 ≤ p.length)
    (hj : j < 16 + line.length) :
    (p.take 16 ++ line)[j]? = some (tlmCrcInput p line j) := by
  have hlen : (p.take 16).length = 16 := by simp [hp]
  unfold tlmCrcInput
  change _ = some (if j < 16 then p.getD j 0 else line.getD (j - 16) 0)
  by_cases hin : j < 16
  · rw [if_pos hin, List.getElem?_append_left (by omega), List.getElem?_take_of_lt hin,
      List.getD_eq_getElem?_getD, List.getElem?_eq_getElem (by omega), Option.getD_some]
  · rw [if_neg hin, List.getElem?_append_right (by omega), hlen, List.getD_eq_getElem?_getD,
      List.getElem?_eq_getElem (by omega), Option.getD_some]

/-- One pass over the two buffers is the checksum of their bytes in a row. -/
theorem tlmCrc_eq {p line : List UInt8} {n : Nat} (hp : 16 ≤ p.length)
    (hn : n ≤ 16 + line.length) :
    tlmCrc p line n = crc8Update 0 ((p.take 16 ++ line).take n) := by
  induction n with
  | zero => rfl
  | succ j ih =>
      have hnext : (p.take 16 ++ line).take (j + 1) =
          (p.take 16 ++ line).take j ++ [tlmCrcInput p line j] := by
        rw [List.take_add_one, tlmCrcInput_eq hp (by omega)]
        rfl
      rw [tlmCrc, ih (by omega), hnext]
      simp [crc8Update]

/-- **The framing by hand is the codec's**: the line's datagram stands at the
front of the buffer, and nothing behind it changes. -/
theorem tlmFrame_eq {p line : List UInt8} (now : UInt64) (h : 17 + line.length ≤ p.length) :
    tlmFrame p line now =
      datagram (tlmHeader line now) line ++ p.drop (17 + line.length) := by
  have hput := @tlmPutHeader_eq p line now (by omega)
  have htake : (tlmPutHeader p line.length now).take 16 = headerBytes (tlmHeader line now) := by
    rw [hput]
    exact List.take_left' (length_headerBytes _)
  have hcrc : tlmCrc (tlmPutHeader p line.length now) line (16 + line.length) =
      Crc8.remainder 0x07 (headerBytes (tlmHeader line now) ++ line) := by
    rw [tlmCrc_eq (by simp [hput]) le_rfl, htake, List.take_of_length_le (by simp)]
    exact vmcProtoCrc8_eq _
  obtain ⟨b, hb⟩ : ∃ b, p.drop 16 = b :: p.drop 17 :=
    ⟨_, List.drop_eq_getElem_cons (by omega)⟩
  generalize hc : Crc8.remainder 0x07 (headerBytes (tlmHeader line now) ++ line) = c at hcrc
  have hset : (tlmPutHeader p line.length now).set 16 c =
      (headerBytes (tlmHeader line now) ++ [c]) ++ p.drop 17 := by
    rw [hput, hb]
    simp [List.set_append]
  have hlen : (headerBytes (tlmHeader line now) ++ [c]).length = 17 := by simp
  change splice ((tlmPutHeader p line.length now).set 16
    (tlmCrc (tlmPutHeader p line.length now) line (16 + line.length))) 17 line = _
  rw [hcrc, hset, splice, List.take_left' hlen, ← List.drop_drop, List.drop_left' hlen,
    List.drop_drop, datagram, hc]
  simp

/-! ## a line through the sinks -/

theorem length_tlmFrame {p line : List UInt8} (now : UInt64) (h : 17 + line.length ≤ p.length) :
    (tlmFrame p line now).length = p.length := by
  rw [tlmFrame_eq now h, List.length_append, length_datagram, List.length_drop]
  omega

/-- A line that `tlm_write_sinks` lets through leaves the buffer its size. -/
theorem TlmSinks.length_frame (s : TlmSinks) {line : List UInt8} (now : UInt64)
    (h : line.length + vmcProtoHeaderSize < s.udpBuf.length) :
    (tlmFrame s.udpBuf line now).length = vmcProtoMaxPacket := by
  rw [vmcProtoHeaderSize] at h
  rw [length_tlmFrame now (by omega)]
  exact s.bufSize

/-- `tlm_write_sinks`, called at `now`.  `fwrite` takes the first `taken` bytes of
the line; a short write is not repeated. -/
def tlmWriteSinks (s : TlmSinks) (line : List UInt8) (taken : Nat) (now : UInt64) : TlmSinks :=
  let file := if 0 < line.length then s.file.map (· ++ line.take taken) else s.file
  if h : s.udpOpen ∧ 0 < line.length ∧ line.length + vmcProtoHeaderSize < s.udpBuf.length then
    let p := tlmFrame s.udpBuf line now
    { s with
      file := file
      udpBuf := p
      sent := s.sent ++ [p.take (vmcProtoHeaderSize + line.length)]
      bufSize := s.length_frame now h.2.2 }
  else
    { s with file := file }

/-- With a socket, every line that is neither empty nor too long goes out as the
codec's datagram; no other line goes out at all. -/
theorem sent_tlmWriteSinks (s : TlmSinks) (line : List UInt8) (taken : Nat) (now : UInt64) :
    (tlmWriteSinks s line taken now).sent =
      if s.udpOpen ∧ 1 ≤ line.length ∧ line.length ≤ 65534 then
        s.sent ++ [datagram (tlmHeader line now) line]
      else s.sent := by
  have hsize : s.udpBuf.length = 65552 := s.bufSize
  have hcond : (s.udpOpen ∧ 0 < line.length ∧ line.length + vmcProtoHeaderSize < s.udpBuf.length) ↔
      (s.udpOpen ∧ 1 ≤ line.length ∧ line.length ≤ 65534) := by
    rw [hsize, vmcProtoHeaderSize]
    refine and_congr_right fun _ => ?_
    omega
  unfold tlmWriteSinks
  by_cases h : s.udpOpen ∧ 1 ≤ line.length ∧ line.length ≤ 65534
  · rw [dif_pos (hcond.mpr h), if_pos h]
    have hframe := @tlmFrame_eq s.udpBuf line now (by omega)
    simp only [hframe, vmcProtoHeaderSize]
    rw [List.take_left' (length_datagram _ _)]
  · rw [dif_neg (fun hn => h (hcond.mp hn)), if_neg h]

/-- **Telemetry is framed by the protocol.**  What a line of 1 to 65534 bytes
puts on the wire is what `vmc_proto_encode` writes for the telemetry header
with the line as payload, and `vmc_proto_decode` gives the line back. -/
theorem telemetry_framed_by_codec (s : TlmSinks) (line buf : List UInt8) (taken : Nat)
    (now : UInt64) (out : DecodeOut) (hudp : s.udpOpen) (hpos : 1 ≤ line.length)
    (hmax : line.length ≤ 65534) (hcap : 17 + line.length ≤ buf.length) :
    ∃ sent buf' h', (tlmWriteSinks s line taken now).sent = s.sent ++ [sent] ∧
      vmcProtoEncode buf (tlmHeader line now) (some line) = (.ok sent.length, buf') ∧
      buf'.take sent.length = sent ∧
      vmcProtoDecode sent out = (.ok, ⟨h', line⟩) ∧ { h' with crc := 0 } = tlmHeader line now := by
  have hv := headerValid_tlmHeader line now
  have hlen : line.length = (tlmHeader line now).payloadLen.toNat := by
    simp only [tlmHeader, UInt16.toNat_ofNat']
    omega
  have hw := wellFormed_datagram_append hv hlen []
  have hpay := payloadOf_datagram_append hlen []
  have hread := readHeader_datagram_append (tlmHeader line now) line []
  rw [List.append_nil] at hw hpay hread
  refine ⟨datagram (tlmHeader line now) line,
    datagram (tlmHeader line now) line ++ buf.drop (17 + line.length),
    readHeader (datagram (tlmHeader line now) line), ?_, ?_, ?_, ?_, ?_⟩
  · rw [sent_tlmWriteSinks, if_pos ⟨hudp, hpos, hmax⟩]
  · rw [length_datagram]
    exact encode_eq hv hlen hcap
  · exact List.take_left
  · rw [decode_of_wellFormed hw, hpay]
  · rw [hread]
    rfl

theorem length_sampleBuf :
    (List.replicate vmcProtoMaxPacket (0 : UInt8)).length = vmcProtoMaxPacket :=
  List.length_replicate

/-- A socket and no file, nothing sent yet. -/
def sampleSinks : TlmSinks where
  file := none
  udpOpen := true
  udpBuf := List.replicate vmcProtoMaxPacket 0
  sent := []
  bufSize := length_sampleBuf

theorem telemetry_framed_by_codec_sample :
    ∃ sent buf' h', (tlmWriteSinks sampleSinks [0x7b, 0x7d, 0x0a] 3 0x1234567890).sent = [sent] ∧
      vmcProtoEncode (List.replicate 32 0) (tlmHeader [0x7b, 0x7d, 0x0a] 0x1234567890)
        (some [0x7b, 0x7d, 0x0a]) = (.ok sent.length, buf') ∧
      buf'.take sent.length = sent ∧
      vmcProtoDecode sent ⟨sampleHeader, []⟩ = (.ok, ⟨h', [0x7b, 0x7d, 0x0a]⟩) ∧
      { h' with crc := 0 } = tlmHeader [0x7b, 0x7d, 0x0a] 0x1234567890 :=
  telemetry_framed_by_codec sampleSinks [0x7b, 0x7d, 0x0a] (List.replicate 32 0) 3 0x1234567890
    ⟨sampleHeader, []⟩ rfl (by decide) (by decide) (by decide)

end Vmc
