import Vmc.Core
import Vmc.Lib.Bytes
import Vmc.Lib.Crc8

/-!
# Vmc.Transport.Protocol

The datagram framing of `transport/protocol.c`: a 17-byte little-endian header
followed by the payload.

```
off 0   u16 magic        = 0x5643
off 2   u8  version      = 1
off 3   u8  flags
off 4   u8  stream
off 5   u8  reserved     = 0
off 6   u16 payload_len
off 8   u32 seq
off 12  u32 ts_us
off 16  u8  crc8         over header[0..15] + payload
off 17  u8  payload[]
```

The checksum byte sits between the two runs it covers, so the encoder writes a
placeholder, copies the payload and then fills the byte in.  `encode_eq` and
`decode_eq_ok_iff` are the two characterisations the rest of the development
uses: what the encoder leaves in the buffer, and which byte strings the decoder
accepts.  Pointers to the buffer and the header are taken to be non-null; the
payload pointer may be null, as keepalives pass it.
-/

namespace Vmc

open Bytes

/-! ## constants and the header -/

def vmcProtoMagic : UInt16 := 0x5643

def vmcProtoVersion : UInt8 := 1

def vmcProtoHeaderSize : Nat := 17

/-- `VMC_PROTO_MAX_PACKET`: a header and the longest payload. -/
def vmcProtoMaxPacket : Nat := vmcProtoHeaderSize + 65535

/-- `VMC_PROTO_STREAM_CONTROL`. -/
def streamControl : UInt8 := 0

/-- `VMC_PROTO_STREAM_VIDEO`. -/
def streamVideo : UInt8 := 1

/-- `VMC_PROTO_STREAM_AUDIO`. -/
def streamAudio : UInt8 := 2

/-- `VMC_PROTO_STREAM_INPUT`. -/
def streamInput : UInt8 := 3

/-- `VMC_PROTO_STREAM_TELEMETRY`. -/
def streamTelemetry : UInt8 := 4

/-- `VMC_PROTO_FLAG_KEYFRAME`. -/
def flagKeyframe : UInt8 := 2

/-- `VMC_PROTO_FLAG_FRAGMENTED`. -/
def flagFragmented : UInt8 := 4

/-- `vmc_proto_header`: the decoded, host-order header. -/
structure ProtoHeader where
  magic : UInt16
  version : UInt8
  flags : UInt8
  stream : UInt8
  reserved : UInt8
  payloadLen : UInt16
  seq : UInt32
  tsUs : UInt32
  crc : UInt8
deriving DecidableEq, Repr

/-! ## byte access -/

def rd16 (p : List UInt8) (i : Nat) : UInt16 := le16 (p.getD i 0) (p.getD (i + 1) 0)

def rd32 (p : List UInt8) (i : Nat) : UInt32 :=
  le32 (p.getD i 0) (p.getD (i + 1) 0) (p.getD (i + 2) 0) (p.getD (i + 3) 0)

def wr16 (p : List UInt8) (i : Nat) (v : UInt16) : List UInt8 :=
  (p.set i (lo16 v)).set (i + 1) (hi16 v)

def wr32 (p : List UInt8) (i : Nat) (v : UInt32) : List UInt8 :=
  (((p.set i (byte32 v 0)).set (i + 1) (byte32 v 8)).set (i + 2) (byte32 v 16)).set (i + 3)
    (byte32 v 24)

theorem wr16_eq_splice {p : List UInt8} {i : Nat} (h : i + 2 ≤ p.length) (v : UInt16) :
    wr16 p i v = splice p i [lo16 v, hi16 v] := by
  rw [wr16, set_eq_splice (by omega : i < p.length), set_splice (k := i + 1) _ rfl (by omega)]
  rfl

theorem wr32_eq_splice {p : List UInt8} {i : Nat} (h : i + 4 ≤ p.length) (v : UInt32) :
    wr32 p i v = splice p i [byte32 v 0, byte32 v 8, byte32 v 16, byte32 v 24] := by
  rw [wr32, set_eq_splice (by omega : i < p.length), set_splice (k := i + 1) _ rfl (by omega),
    set_splice (k := i + 2) _ rfl (by omega), set_splice (k := i + 3) _ rfl (by omega)]
  rfl

/-- A word stored right behind a copy makes the copy longer by its bytes. -/
theorem wr16_splice {p a : List UInt8} {i k : Nat} (v : UInt16) (hk : k = i + a.length)
    (h : k + 2 ≤ p.length) : wr16 (splice p i a) k v = splice p i (a ++ [lo16 v, hi16 v]) := by
  subst hk
  rw [wr16_eq_splice (by rw [length_splice] <;> omega), splice_splice _ (by omega)]

theorem wr32_splice {p a : List UInt8} {i k : Nat} (v : UInt32) (hk : k = i + a.length)
    (h : k + 4 ≤ p.length) : wr32 (splice p i a) k v =
      splice p i (a ++ [byte32 v 0, byte32 v 8, byte32 v 16, byte32 v 24]) := by
  subst hk
  rw [wr32_eq_splice (by rw [length_splice] <;> omega), splice_splice _ (by omega)]

/-! ## checksum -/

/-- One iteration of the inner loop of `crc8_update`. -/
def crc8Bit (crc : UInt8) : UInt8 :=
  if crc &&& 0x80 ≠ 0 then (crc <<< 1) ^^^ 0x07 else crc <<< 1

/-- One iteration of the outer loop: fold a byte in, then eight shifts. -/
def crc8Byte (crc b : UInt8) : UInt8 :=
  crc8Bit (crc8Bit (crc8Bit (crc8Bit (crc8Bit (crc8Bit (crc8Bit (crc8Bit (crc ^^^ b))))))))

/-- `crc8_update`: feed bytes into an in-progress CRC. -/
def crc8Update (crc : UInt8) (data : List UInt8) : UInt8 := data.foldl crc8Byte crc

def vmcProtoCrc8 (data : List UInt8) : UInt8 := crc8Update 0 data

/-- `frame_crc`: CRC over the header prefix followed by the payload. -/
def frameCrc (pre : List UInt8) (payload : Option (List UInt8)) : UInt8 :=
  let crc := crc8Update 0 pre
  match payload with
  | some p => if 0 < p.length then crc8Update crc p else crc
  | none => crc

/-! ## encode and decode -/

def vmcProtoHeaderValid (h : ProtoHeader) : Bool :=
  h.magic = vmcProtoMagic ∧ h.version = vmcProtoVersion ∧ h.reserved = 0

/-- The field writes of `vmc_proto_encode`, with the placeholder for the
checksum. -/
def putHeader (buf : List UInt8) (h : ProtoHeader) : List UInt8 :=
  let buf := wr16 buf 0 h.magic
  let buf := buf.set 2 h.version
  let buf := buf.set 3 h.flags
  let buf := buf.set 4 h.stream
  let buf := buf.set 5 h.reserved
  let buf := wr16 buf 6 h.payloadLen
  let buf := wr32 buf 8 h.seq
  let buf := wr32 buf 12 h.tsUs
  buf.set 16 0

/-- `vmc_proto_encode`: serialize header and payload into `buf`, whose length is
the capacity.  Returns the number of bytes written, or the error, and the
buffer as the call leaves it.  `payload` is `none` for a null pointer. -/
def vmcProtoEncode (buf : List UInt8) (h : ProtoHeader) (payload : Option (List UInt8)) :
    Except Status Nat × List UInt8 :=
  if ¬ vmcProtoHeaderValid h then
    (.error .invalidArg, buf)
  else
    let total := vmcProtoHeaderSize + h.payloadLen.toNat
    if buf.length < total then
      (.error .nomem, buf)
    else
      let buf := putHeader buf h
      let data := payload.map (·.take h.payloadLen.toNat)
      let buf := match data with
        | some p => if 0 < h.payloadLen.toNat then splice buf vmcProtoHeaderSize p else buf
        | none => buf
      let buf := buf.set 16 (frameCrc (buf.take (vmcProtoHeaderSize - 1)) data)
      (.ok total, buf)

/-- The header fields as `vmc_proto_decode_header` reads them. -/
def readHeader (buf : List UInt8) : ProtoHeader where
  magic := rd16 buf 0
  version := buf.getD 2 0
  flags := buf.getD 3 0
  stream := buf.getD 4 0
  reserved := buf.getD 5 0
  payloadLen := rd16 buf 6
  seq := rd32 buf 8
  tsUs := rd32 buf 12
  crc := buf.getD 16 0

/-- `vmc_proto_decode_header`: the status, and `*out_h` after the call. -/
def vmcProtoDecodeHeader (buf : List UInt8) (outH : ProtoHeader) : Status × ProtoHeader :=
  if buf.length < vmcProtoHeaderSize then
    (.invalidArg, outH)
  else
    let h := readHeader buf
    if ¬ vmcProtoHeaderValid h then (.proto, outH) else (.ok, h)

/-- What `vmc_proto_decode` writes through its two out-parameters.  The payload
pointer is kept as the `payload_len` bytes it designates. -/
structure DecodeOut where
  h : ProtoHeader
  payload : List UInt8
deriving DecidableEq, Repr

/-- `vmc_proto_decode`: the status, and the out-parameters after the call. -/
def vmcProtoDecode (buf : List UInt8) (out : DecodeOut) : Status × DecodeOut :=
  match vmcProtoDecodeHeader buf out.h with
  | (.ok, h) =>
      let payload := (buf.drop vmcProtoHeaderSize).take h.payloadLen.toNat
      if buf.length < vmcProtoHeaderSize + h.payloadLen.toNat then (.proto, out)
      else if h.crc ≠ frameCrc (buf.take (vmcProtoHeaderSize - 1)) (some payload) then
        (.corrupt, out)
      else (.ok, ⟨h, payload⟩)
  | (st, _) => (st, out)

/-! ## the checksum is the CRC-8 remainder -/

theorem crc8Bit_eq (crc : UInt8) : crc8Bit crc = Crc8.shiftIn 0x07 crc false := by
  unfold crc8Bit Crc8.shiftIn
  split <;> simp_all

/-- The checksum is the remainder modulo x⁸ + x² + x + 1. -/
theorem vmcProtoCrc8_eq (data : List UInt8) : vmcProtoCrc8 data = Crc8.remainder 0x07 data := by
  have hstep : crc8Byte = Crc8.updateByte 0x07 := by
    funext crc b
    simp only [crc8Byte, crc8Bit_eq]
    rfl
  rw [vmcProtoCrc8, crc8Update, hstep, Crc8.foldl_updateByte_zero]

/-- The two runs of `frame_crc` are one over prefix and payload. -/
theorem frameCrc_eq_crc8 (pre : List UInt8) (payload : Option (List UInt8)) :
    frameCrc pre payload = vmcProtoCrc8 (pre ++ payload.getD []) := by
  have happ : ∀ p, crc8Update (crc8Update 0 pre) p = vmcProtoCrc8 (pre ++ p) := by
    simp [vmcProtoCrc8, crc8Update]
  unfold frameCrc
  cases payload with
  | none => exact happ []
  | some p =>
      by_cases hp : 0 < p.length
      · simp only [hp, if_true]
        exact happ p
      · obtain rfl : p = [] := by simpa using hp
        exact happ []

theorem frameCrc_some (pre p : List UInt8) :
    frameCrc pre (some p) = Crc8.remainder 0x07 (pre ++ p) := by
  rw [frameCrc_eq_crc8, vmcProtoCrc8_eq]
  rfl

/-! ## what the encoder leaves in the buffer -/

/-- The first sixteen bytes of a header on the wire. -/
def headerBytes (h : ProtoHeader) : List UInt8 :=
  [lo16 h.magic, hi16 h.magic, h.version, h.flags, h.stream, h.reserved,
    lo16 h.payloadLen, hi16 h.payloadLen,
    byte32 h.seq 0, byte32 h.seq 8, byte32 h.seq 16, byte32 h.seq 24,
    byte32 h.tsUs 0, byte32 h.tsUs 8, byte32 h.tsUs 16, byte32 h.tsUs 24]

@[simp] theorem length_headerBytes (h : ProtoHeader) : (headerBytes h).length = 16 := rfl

/-- A whole datagram: header, checksum, payload. -/
def datagram (h : ProtoHeader) (p : List UInt8) : List UInt8 :=
  headerBytes h ++ Crc8.remainder 0x07 (headerBytes h ++ p) :: p

@[simp] theorem length_datagram (h : ProtoHeader) (p : List UInt8) :
    (datagram h p).length = 17 + p.length := by
  simp [datagram]
  omega

/-- A buffer that holds a header is seventeen bytes and a rest. -/
theorem exists_seventeen {buf : List UInt8} (h : 17 ≤ buf.length) :
    ∃ b0 b1 b2 b3 b4 b5 b6 b7 b8 b9 b10 b11 b12 b13 b14 b15 b16 rest,
      buf = b0 :: b1 :: b2 :: b3 :: b4 :: b5 :: b6 :: b7 :: b8 :: b9 :: b10 :: b11 :: b12 ::
        b13 :: b14 :: b15 :: b16 :: rest := by
  have hlen : (buf.take 17).length = 17 := by simp [h]
  rw [← List.take_append_drop 17 buf]
  match buf.take 17, hlen with
  | [b0, b1, b2, b3, b4, b5, b6, b7, b8, b9, b10, b11, b12, b13, b14, b15, b16], _ =>
      exact ⟨b0, b1, b2, b3, b4, b5, b6, b7, b8, b9, b10, b11, b12, b13, b14, b15, b16,
        buf.drop 17, rfl⟩

/-- The field writes put the header bytes and the placeholder in front. -/
theorem putHeader_eq (buf : List UInt8) (h : ProtoHeader) (hlen : 17 ≤ buf.length) :
    putHeader buf h = (headerBytes h ++ [0]) ++ buf.drop 17 := by
  obtain ⟨b0, b1, b2, b3, b4, b5, b6, b7, b8, b9, b10, b11, b12, b13, b14, b15, b16, rest, rfl⟩ :=
    exists_seventeen hlen
  simp only [putHeader, wr16, wr32, headerBytes, List.set_cons_zero, List.set_cons_succ,
    List.drop_succ_cons, List.drop_zero, List.cons_append, List.nil_append]

/-- **Encoder characterisation**: a valid header with its payload is written as
`datagram h p` over the front of the buffer; nothing behind it changes. -/
theorem encode_eq {buf p : List UInt8} {h : ProtoHeader} (hv : vmcProtoHeaderValid h)
    (hp : p.length = h.payloadLen.toNat) (hcap : 17 + p.length ≤ buf.length) :
    vmcProtoEncode buf h (some p) =
      (.ok (17 + p.length), datagram h p ++ buf.drop (17 + p.length)) := by
  have hput := putHeader_eq buf h (by omega)
  have hlen : (headerBytes h ++ [0]).length = 17 := by simp
  -- with an empty payload the copy is skipped, but it would change nothing
  have hcopy : (if 0 < p.length then splice (putHeader buf h) 17 p else putHeader buf h) =
      (headerBytes h ++ [0]) ++ (p ++ buf.drop (17 + p.length)) := by
    by_cases hpos : 0 < p.length
    · have hrest : ((headerBytes h ++ [0]) ++ buf.drop 17).drop (17 + p.length) =
          buf.drop (17 + p.length) := by
        rw [← List.drop_drop, List.drop_left' hlen, List.drop_drop]
      rw [if_pos hpos, splice, hput, List.take_left' hlen, hrest, List.append_assoc]
    · obtain rfl : p = [] := by simpa using hpos
      simpa using hput
  unfold vmcProtoEncode
  simp only [hv, not_true, if_false, vmcProtoHeaderSize, ← hp, Option.map_some, List.take_length]
  rw [if_neg (by omega), hcopy, List.append_assoc, List.take_left' (by simp), frameCrc_some,
    datagram]
  simp [List.set_append]

/-- Only the announced part of the payload is encoded. -/
theorem encode_take (buf : List UInt8) (h : ProtoHeader) (q : List UInt8) :
    vmcProtoEncode buf h (some q) = vmcProtoEncode buf h (some (q.take h.payloadLen.toNat)) := by
  simp [vmcProtoEncode, List.take_take]

/-- Without a payload the null pointer is as good as an empty one. -/
theorem encode_none {h : ProtoHeader} (buf : List UInt8) (hp : h.payloadLen = 0) :
    vmcProtoEncode buf h none = vmcProtoEncode buf h (some []) := by
  simp [vmcProtoEncode, frameCrc, hp]

/-! ## which byte strings the decoder accepts -/

/-- The datagrams the format admits, byte by byte: long enough for the header,
the three fixed fields right, long enough for the announced payload, and the
checksum byte the CRC-8 of everything else. -/
structure WellFormed (buf : List UInt8) : Prop where
  header : 17 ≤ buf.length
  magicLo : buf.getD 0 0 = 0x43
  magicHi : buf.getD 1 0 = 0x56
  version : buf.getD 2 0 = 1
  reserved : buf.getD 5 0 = 0
  payload : 17 + ((buf.getD 6 0).toNat + 256 * (buf.getD 7 0).toNat) ≤ buf.length
  checksum : buf.getD 16 0 = Crc8.remainder 0x07 (buf.take 16 ++
    (buf.drop 17).take ((buf.getD 6 0).toNat + 256 * (buf.getD 7 0).toNat))

/-- The payload a well-formed datagram announces. -/
def payloadOf (buf : List UInt8) : List UInt8 :=
  (buf.drop 17).take ((buf.getD 6 0).toNat + 256 * (buf.getD 7 0).toNat)

theorem toNat_payloadLen_readHeader (buf : List UInt8) :
    (readHeader buf).payloadLen.toNat = (buf.getD 6 0).toNat + 256 * (buf.getD 7 0).toNat := by
  simp only [readHeader, rd16, toNat_le16]

theorem rd16_eq_magic_iff (buf : List UInt8) :
    rd16 buf 0 = vmcProtoMagic ↔ buf.getD 0 0 = 0x43 ∧ buf.getD 1 0 = 0x56 := by
  constructor
  · intro h
    have hlo := congrArg lo16 h
    have hhi := congrArg hi16 h
    rw [rd16, lo16_le16] at hlo
    rw [rd16, hi16_le16] at hhi
    exact ⟨hlo, hhi⟩
  · rintro ⟨h0, h1⟩
    rw [rd16, h0, h1]
    rfl

theorem headerValid_readHeader_iff (buf : List UInt8) :
    vmcProtoHeaderValid (readHeader buf) ↔
      (buf.getD 0 0 = 0x43 ∧ buf.getD 1 0 = 0x56) ∧ buf.getD 2 0 = 1 ∧ buf.getD 5 0 = 0 := by
  rw [← rd16_eq_magic_iff]
  simp [vmcProtoHeaderValid, readHeader, vmcProtoVersion]

/-- **Decoder characterisation**: a well-formed datagram is accepted with its
own fields and payload, anything else is refused and leaves the out-parameters
as they were. -/
theorem decode_eq (buf : List UInt8) (out : DecodeOut) :
    (WellFormed buf ∧ vmcProtoDecode buf out = (.ok, ⟨readHeader buf, payloadOf buf⟩)) ∨
    (¬ WellFormed buf ∧ ∃ st, st ≠ .ok ∧ vmcProtoDecode buf out = (st, out)) := by
  unfold vmcProtoDecode vmcProtoDecodeHeader
  by_cases hlen : buf.length < vmcProtoHeaderSize
  · rw [if_pos hlen]
    refine .inr ⟨fun h => ?_, .invalidArg, by decide, rfl⟩
    have := h.header
    simp only [vmcProtoHeaderSize] at hlen
    omega
  rw [if_neg hlen]
  by_cases hv : vmcProtoHeaderValid (readHeader buf)
  swap
  · refine .inr ⟨fun h => hv ?_, .proto, by decide, by simp [hv]⟩
    exact (headerValid_readHeader_iff buf).mpr ⟨⟨h.magicLo, h.magicHi⟩, h.version, h.reserved⟩
  simp only [hv, not_true, if_false, vmcProtoHeaderSize, toNat_payloadLen_readHeader,
    frameCrc_some] at hlen ⊢
  obtain ⟨⟨hm0, hm1⟩, hver, hres⟩ := (headerValid_readHeader_iff buf).mp hv
  by_cases hpay : buf.length < 17 + ((buf.getD 6 0).toNat + 256 * (buf.getD 7 0).toNat)
  · rw [if_pos hpay]
    refine .inr ⟨fun h => ?_, .proto, by decide, rfl⟩
    have := h.payload
    omega
  rw [if_neg hpay]
  by_cases hcrc : (readHeader buf).crc = Crc8.remainder 0x07 (buf.take 16 ++
      (buf.drop 17).take ((buf.getD 6 0).toNat + 256 * (buf.getD 7 0).toNat))
  · exact .inl ⟨⟨by omega, hm0, hm1, hver, hres, by omega, hcrc⟩,
      by rw [if_neg (not_not_intro hcrc)]; rfl⟩
  · exact .inr ⟨fun h => hcrc h.checksum, .corrupt, by decide, by rw [if_pos hcrc]⟩

theorem decode_of_wellFormed {buf : List UInt8} (hw : WellFormed buf) (out : DecodeOut) :
    vmcProtoDecode buf out = (.ok, ⟨readHeader buf, payloadOf buf⟩) := by
  obtain ⟨_, h⟩ | ⟨hn, _⟩ := decode_eq buf out
  · exact h
  · contradiction

theorem decode_eq_ok_iff {buf : List UInt8} {out out' : DecodeOut} :
    vmcProtoDecode buf out = (.ok, out') ↔
      WellFormed buf ∧ out' = ⟨readHeader buf, payloadOf buf⟩ := by
  constructor
  · intro h
    obtain ⟨hw, heq⟩ | ⟨_, st, hst, heq⟩ := decode_eq buf out
    · rw [h] at heq
      exact ⟨hw, congrArg Prod.snd heq⟩
    · rw [h] at heq
      exact absurd (congrArg Prod.fst heq).symm hst
  · rintro ⟨hw, rfl⟩
    exact decode_of_wellFormed hw out

theorem decode_fst_iff {buf : List UInt8} {out : DecodeOut} :
    (vmcProtoDecode buf out).1 = .ok ↔ WellFormed buf := by
  obtain ⟨hw, heq⟩ | ⟨hw, st, hst, heq⟩ := decode_eq buf out
  · simp [heq, hw]
  · simp [heq, hw, hst]

/-! ## round trips -/

/-- Reading the header of an encoded datagram gives the fields back, with the
checksum that was filled in. -/
theorem readHeader_datagram_append (h : ProtoHeader) (p rest : List UInt8) :
    readHeader (datagram h p ++ rest) =
      { h with crc := Crc8.remainder 0x07 (headerBytes h ++ p) } := by
  have hm : le16 (lo16 h.magic) (hi16 h.magic) = h.magic := le16_lo16_hi16 _
  have hl : le16 (lo16 h.payloadLen) (hi16 h.payloadLen) = h.payloadLen := le16_lo16_hi16 _
  have hs := le32_byte32 h.seq
  have ht := le32_byte32 h.tsUs
  simp [readHeader, datagram, headerBytes, rd16, rd32, hm, hl, hs, ht]

theorem payloadOf_datagram_append {h : ProtoHeader} {p : List UInt8}
    (hp : p.length = h.payloadLen.toNat) (rest : List UInt8) :
    payloadOf (datagram h p ++ rest) = p := by
  have hlen : (headerBytes h ++ [Crc8.remainder 0x07 (headerBytes h ++ p)]).length = 17 := by simp
  have hsplit : datagram h p ++ rest =
      (headerBytes h ++ [Crc8.remainder 0x07 (headerBytes h ++ p)]) ++ (p ++ rest) := by
    simp [datagram]
  rw [payloadOf, ← toNat_payloadLen_readHeader, readHeader_datagram_append, hsplit,
    List.drop_left' hlen]
  exact List.take_left' hp

/-- Encoded datagrams are well formed, whatever follows them. -/
theorem wellFormed_datagram_append {h : ProtoHeader} {p : List UInt8} (hv : vmcProtoHeaderValid h)
    (hp : p.length = h.payloadLen.toNat) (rest : List UInt8) :
    WellFormed (datagram h p ++ rest) := by
  have hread := readHeader_datagram_append h p rest
  have hvalid : vmcProtoHeaderValid (readHeader (datagram h p ++ rest)) := by
    rw [hread]
    exact hv
  obtain ⟨⟨hm0, hm1⟩, hver, hres⟩ := (headerValid_readHeader_iff _).mp hvalid
  have hpl := toNat_payloadLen_readHeader (datagram h p ++ rest)
  rw [hread] at hpl
  have hlen : (datagram h p ++ rest).length = 17 + p.length + rest.length := by simp
  refine ⟨by omega, hm0, hm1, hver, hres, ?_, ?_⟩
  · rw [← hpl]
    change 17 + h.payloadLen.toNat ≤ _
    omega
  · have hpay := payloadOf_datagram_append hp rest
    rw [payloadOf] at hpay
    rw [hpay]
    simp [datagram, headerBytes]

/-- The sixteen header bytes of a buffer are those of the header read from it. -/
theorem headerBytes_readHeader {buf : List UInt8} (h : 17 ≤ buf.length) :
    headerBytes (readHeader buf) = buf.take 16 := by
  obtain ⟨b0, b1, b2, b3, b4, b5, b6, b7, b8, b9, b10, b11, b12, b13, b14, b15, b16, rest, rfl⟩ :=
    exists_seventeen h
  obtain ⟨h8, h9, h10, h11⟩ := byte32_le32 b8 b9 b10 b11
  obtain ⟨h12, h13, h14, h15⟩ := byte32_le32 b12 b13 b14 b15
  simp [headerBytes, readHeader, rd16, rd32, h8, h9, h10, h11, h12, h13, h14, h15]

/-- A well-formed buffer starts with the datagram of what it decodes to. -/
theorem datagram_readHeader {buf : List UInt8} (hw : WellFormed buf) :
    datagram (readHeader buf) (payloadOf buf) = buf.take (17 + (payloadOf buf).length) := by
  obtain ⟨b0, b1, b2, b3, b4, b5, b6, b7, b8, b9, b10, b11, b12, b13, b14, b15, b16, rest, hbuf⟩ :=
    exists_seventeen hw.header
  have hcrc : Crc8.remainder 0x07 (buf.take 16 ++ payloadOf buf) = b16 := by
    have h := hw.checksum
    rw [← payloadOf] at h
    rw [← h, hbuf]
    rfl
  have hsplit : buf.take 17 = buf.take 16 ++ [b16] := by
    rw [hbuf]
    rfl
  have hpay : (buf.drop 17).take (payloadOf buf).length = payloadOf buf := by
    rw [payloadOf, List.length_take, List.take_eq_take_iff]
    simp
  rw [datagram, headerBytes_readHeader hw.header, hcrc, List.take_add, hpay, hsplit]
  simp

theorem length_payloadOf {buf : List UInt8} (hw : WellFormed buf) :
    (payloadOf buf).length = (readHeader buf).payloadLen.toNat := by
  have h := hw.payload
  rw [payloadOf, toNat_payloadLen_readHeader, List.length_take, List.length_drop]
  omega

/-- **The codec is exact in both directions.**  Encoding a valid header and its
payload, decoding the bytes with anything behind them, gives both back up to
the checksum field; re-encoding what was decoded reproduces the bytes; and the
decoder accepts the well-formed strings only, writing nothing otherwise. -/
theorem proto_codec_exact :
    (∀ (h : ProtoHeader) (p buf rest : List UInt8) (out : DecodeOut),
      vmcProtoHeaderValid h → p.length = h.payloadLen.toNat → 17 + p.length ≤ buf.length →
      ∃ buf' h', vmcProtoEncode buf h (some p) = (.ok (17 + p.length), buf') ∧
        vmcProtoDecode (buf'.take (17 + p.length) ++ rest) out = (.ok, ⟨h', p⟩) ∧
        { h' with crc := h.crc } = h) ∧
    (∀ (buf dst : List UInt8) (out : DecodeOut) (h : ProtoHeader) (p : List UInt8),
      vmcProtoDecode buf out = (.ok, ⟨h, p⟩) → 17 + p.length ≤ dst.length →
      p.length = h.payloadLen.toNat ∧
      ∃ dst', vmcProtoEncode dst h (some p) = (.ok (17 + p.length), dst') ∧
        dst'.take (17 + p.length) = buf.take (17 + p.length)) ∧
    (∀ (buf : List UInt8) (out : DecodeOut),
      ((vmcProtoDecode buf out).1 = .ok ↔ WellFormed buf) ∧
      (¬ WellFormed buf →
        (vmcProtoDecode buf out).1 ≠ .ok ∧ (vmcProtoDecode buf out).2 = out)) := by
  refine ⟨?_, ?_, ?_⟩
  · intro h p buf rest out hv hp hcap
    refine ⟨_, { h with crc := Crc8.remainder 0x07 (headerBytes h ++ p) },
      encode_eq hv hp hcap, ?_, rfl⟩
    rw [List.take_left' (length_datagram h p), decode_of_wellFormed
      (wellFormed_datagram_append hv hp rest), payloadOf_datagram_append hp,
      readHeader_datagram_append]
  · intro buf dst out h p hdec hcap
    obtain ⟨hw, heq⟩ := decode_eq_ok_iff.mp hdec
    obtain ⟨rfl, rfl⟩ := DecodeOut.mk.inj heq
    have hv : vmcProtoHeaderValid (readHeader buf) :=
      (headerValid_readHeader_iff buf).mpr
        ⟨⟨hw.magicLo, hw.magicHi⟩, hw.version, hw.reserved⟩
    have hlen := length_payloadOf hw
    refine ⟨hlen, _, encode_eq hv hlen hcap, ?_⟩
    rw [List.take_left' (length_datagram _ _), datagram_readHeader hw]
  · intro buf out
    refine ⟨decode_fst_iff, fun hn => ?_⟩
    obtain ⟨hw, _⟩ | ⟨_, st, hst, heq⟩ := decode_eq buf out
    · exact absurd hw hn
    · exact ⟨by simp [heq, hst], by simp [heq]⟩

/-- A video header announcing a three-byte payload. -/
def sampleHeader : ProtoHeader where
  magic := vmcProtoMagic
  version := vmcProtoVersion
  flags := flagKeyframe
  stream := streamVideo
  reserved := 0
  payloadLen := 3
  seq := 7
  tsUs := 1000
  crc := 0

theorem proto_codec_exact_sample :
    ∃ buf' h', vmcProtoEncode (List.replicate 32 0) sampleHeader (some [1, 2, 3]) =
        (.ok 20, buf') ∧
      vmcProtoDecode (buf'.take 20 ++ [9]) ⟨sampleHeader, []⟩ = (.ok, ⟨h', [1, 2, 3]⟩) ∧
      { h' with crc := 0 } = sampleHeader :=
  proto_codec_exact.1 sampleHeader [1, 2, 3] (List.replicate 32 0) [9] ⟨sampleHeader, []⟩
    (by decide) (by decide) (by decide)

end Vmc
