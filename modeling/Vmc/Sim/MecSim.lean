import Vmc.Transport.Protocol

/-!
# Vmc.Sim.MecSim

The datagram framing of the Python simulator (`tools/mec_sim.py`), next to the
client's in `Vmc.Transport.Protocol`.

Python's integers are unbounded: `crc8` works on naturals and cuts them to a
byte at every shift, `pack` cuts the sequence number and the timestamp to 32
bits and raises `struct.error` (`none`) for other fields out of range.  `parse`
checks less than the client does: not the reserved byte, and not that the
announced payload is all there, as a slice past the end is just shorter.
-/

namespace Vmc

open Bytes

namespace MecSim

/-! ## the simulator's codec -/

/-- One turn of the inner loop of `crc8`. -/
def crcShift (crc : Nat) : Nat :=
  if crc &&& 0x80 ≠ 0 then ((crc <<< 1) ^^^ 0x07) &&& 0xFF else (crc <<< 1) &&& 0xFF

def crc8 (data : List UInt8) : Nat :=
  data.foldl (fun crc b => crcShift^[8] (crc ^^^ b.toNat)) 0

/-- A field of `struct.pack("<...")` of `size` bytes: `B`, `H` and `I` are one,
two and four. -/
def packField (size : Nat) (n : Int) : Option (List UInt8) :=
  if 0 ≤ n ∧ n < 256 ^ size then
    some ((List.range size).map fun i => UInt8.ofNat (n.toNat / 256 ^ i))
  else
    none

def structPack (fields : List (Nat × Int)) : Option (List UInt8) :=
  (fields.mapM fun (size, n) => packField size n).map List.flatten

/-- `pack`; `none` for `struct.error`. -/
def pack (stream seq tsUs flags : Int) (payload : List UInt8) : Option (List UInt8) := do
  let hdr ← structPack [(2, 0x5643), (1, 1), (1, flags), (1, stream), (1, 0),
    (2, payload.length), (4, seq % 2 ^ 32), (4, tsUs % 2 ^ 32), (1, 0)]
  let crc := crc8 (hdr.dropLast ++ payload)
  let crcByte ← packField 1 crc
  some (hdr.dropLast ++ crcByte ++ payload)

/-- A field of `struct.unpack("<...")`. -/
def unpackField (data : List UInt8) (off size : Nat) : Nat :=
  ((data.drop off).take size).foldr (fun b n => b.toNat + 256 * n) 0

/-- What `parse` returns. -/
structure Parsed where
  stream : Nat
  flags : Nat
  seq : Nat
  ts : Nat
  payload : List UInt8
deriving DecidableEq, Repr

def parse (data : List UInt8) : Option Parsed :=
  if data.length < 17 then
    none
  else
    let hdr := data.take 17
    let plen := unpackField hdr 6 2
    let payload := (data.drop 17).take plen
    if unpackField hdr 0 2 ≠ 0x5643 ∨ unpackField hdr 2 1 ≠ 1 then
      none
    else if unpackField hdr 16 1 ≠ crc8 (data.take 16 ++ payload) then
      none
    else
      some {
        stream := unpackField hdr 4 1
        flags := unpackField hdr 3 1
        seq := unpackField hdr 8 4
        ts := unpackField hdr 12 4
        payload := payload }

/-! ## the checksum -/

theorem crcShift_eq (c : UInt8) : crcShift c.toNat = (crc8Bit c).toNat := by
  revert c
  exact Crc8.forall_byte (by decide +kernel)

theorem iterate_crcShift (n : Nat) (c : UInt8) : crcShift^[n] c.toNat = (crc8Bit^[n] c).toNat := by
  induction n generalizing c with
  | zero => rfl
  | succ n ih => rw [Function.iterate_succ_apply, Function.iterate_succ_apply, crcShift_eq, ih]

/-- Both sides compute the same CRC. -/
theorem crc8_eq (data : List UInt8) : crc8 data = (Crc8.remainder 0x07 data).toNat := by
  have hfold : ∀ (c : UInt8), data.foldl (fun crc b => crcShift^[8] (crc ^^^ b.toNat)) c.toNat =
      (data.foldl crc8Byte c).toNat := by
    induction data with
    | nil => exact fun _ => rfl
    | cons b data ih =>
        intro c
        rw [List.foldl_cons, List.foldl_cons, ← UInt8.toNat_xor, iterate_crcShift]
        exact ih _
  rw [← vmcProtoCrc8_eq, vmcProtoCrc8, crc8Update, ← hfold 0]
  rfl

/-! ## packing -/

theorem packField_byte (b : UInt8) : packField 1 b.toNat = some [b] := by
  have h := b.toNat_lt
  rw [packField, if_pos (by omega)]
  simp

theorem packField_half (v : UInt16) : packField 2 v.toNat = some [lo16 v, hi16 v] := by
  have h := v.toNat_lt
  have h0 : UInt8.ofNat v.toNat = lo16 v := by
    apply UInt8.toNat_inj.mp
    simp
  have h1 : UInt8.ofNat (v.toNat / 256) = hi16 v := by
    apply UInt8.toNat_inj.mp
    simp
    omega
  rw [packField, if_pos (by omega)]
  simp [List.range_succ, h0, h1]

theorem packField_word (v : UInt32) :
    packField 4 v.toNat = some [byte32 v 0, byte32 v 8, byte32 v 16, byte32 v 24] := by
  have h := v.toNat_lt
  have h0 : UInt8.ofNat v.toNat = byte32 v 0 := UInt8.toNat_inj.mp (by simp)
  have h1 : UInt8.ofNat (v.toNat / 256) = byte32 v 8 := UInt8.toNat_inj.mp (by simp)
  have h2 : UInt8.ofNat (v.toNat / 65536) = byte32 v 16 := UInt8.toNat_inj.mp (by simp)
  have h3 : UInt8.ofNat (v.toNat / 16777216) = byte32 v 24 := UInt8.toNat_inj.mp (by simp)
  rw [packField, if_pos (by omega)]
  simp [List.range_succ, h0, h1, h2, h3]

/-- The client's header with the fields `pack` is given. -/
def headerOf (stream flags : UInt8) (seq tsUs : Int) (payload : List UInt8) : ProtoHeader where
  magic := vmcProtoMagic
  version := vmcProtoVersion
  flags := flags
  stream := stream
  reserved := 0
  payloadLen := UInt16.ofNat payload.length
  seq := UInt32.ofInt seq
  tsUs := UInt32.ofInt tsUs
  crc := 0

theorem toNat_ofInt (n : Int) : ((UInt32.ofInt n).toNat : Int) = n % 2 ^ 32 := by
  have hlt : (n % 2 ^ 32).toNat < 2 ^ 32 := by omega
  rw [UInt32.ofInt, UInt32.toNat_ofNat', Nat.mod_eq_of_lt hlt]
  omega

/-- **`pack` writes the client's datagram.** -/
theorem pack_eq (stream flags : UInt8) (seq tsUs : Int) {payload : List UInt8}
    (hp : payload.length ≤ 65535) :
    pack stream.toNat seq tsUs flags.toNat payload =
      some (datagram (headerOf stream flags seq tsUs payload) payload) := by
  have hlen : ((UInt16.ofNat payload.length).toNat : Int) = payload.length := by
    rw [UInt16.toNat_ofNat_of_lt' (by show payload.length < 65536; omega)]
  have hhdr : structPack [(2, 0x5643), (1, 1), (1, flags.toNat), (1, stream.toNat), (1, 0),
      (2, payload.length), (4, seq % 2 ^ 32), (4, tsUs % 2 ^ 32), (1, 0)] =
      some (headerBytes (headerOf stream flags seq tsUs payload) ++ [0]) := by
    rw [← hlen, ← toNat_ofInt, ← toNat_ofInt]
    change structPack [(2, vmcProtoMagic.toNat), (1, vmcProtoVersion.toNat), (1, flags.toNat),
      (1, stream.toNat), (1, (0 : UInt8).toNat), (2, (UInt16.ofNat payload.length).toNat),
      (4, (UInt32.ofInt seq).toNat), (4, (UInt32.ofInt tsUs).toNat), (1, (0 : UInt8).toNat)] = _
    simp only [structPack, List.mapM_cons, List.mapM_nil, packField_byte, packField_half,
      packField_word, Option.bind_eq_bind, Option.bind_some, Option.pure_def, Option.map_some]
    rfl
  rw [pack, hhdr]
  simp only [Option.bind_eq_bind, Option.bind_some, List.dropLast_concat, crc8_eq, packField_byte]
  simp [datagram]

/-! ## parsing -/

/-- What `parse` checks: the header is there, its magic and version are right,
and its checksum is that of the header and of what is there of the payload. -/
structure Framed (data : List UInt8) : Prop where
  header : 17 ≤ data.length
  magicLo : data.getD 0 0 = 0x43
  magicHi : data.getD 1 0 = 0x56
  version : data.getD 2 0 = 1
  checksum : data.getD 16 0 = Crc8.remainder 0x07 (data.take 16 ++ payloadOf data)

/-- The rest of what the client checks: the reserved byte is zero, and the
announced payload is all there. -/
def Complete (data : List UInt8) : Prop :=
  data.getD 5 0 = 0 ∧ 17 + ((data.getD 6 0).toNat + 256 * (data.getD 7 0).toNat) ≤ data.length

theorem wellFormed_iff {data : List UInt8} : WellFormed data ↔ Framed data ∧ Complete data :=
  ⟨fun h => ⟨⟨h.header, h.magicLo, h.magicHi, h.version, h.checksum⟩, h.reserved, h.payload⟩,
    fun ⟨h, hres, hpay⟩ =>
      ⟨h.header, h.magicLo, h.magicHi, h.version, hres, hpay, h.checksum⟩⟩

/-- The fields of the client's decoder that `parse` returns. -/
def Parsed.of (d : DecodeOut) : Parsed where
  stream := d.h.stream.toNat
  flags := d.h.flags.toNat
  seq := d.h.seq.toNat
  ts := d.h.tsUs.toNat
  payload := d.payload

/-- The fields of a header, as the two sides read them. -/
theorem unpackField_header {data : List UInt8} (h : 17 ≤ data.length) :
    unpackField (data.take 17) 0 2 = (readHeader data).magic.toNat ∧
    unpackField (data.take 17) 2 1 = (data.getD 2 0).toNat ∧
    unpackField (data.take 17) 3 1 = (readHeader data).flags.toNat ∧
    unpackField (data.take 17) 4 1 = (readHeader data).stream.toNat ∧
    unpackField (data.take 17) 6 2 = (readHeader data).payloadLen.toNat ∧
    unpackField (data.take 17) 8 4 = (readHeader data).seq.toNat ∧
    unpackField (data.take 17) 12 4 = (readHeader data).tsUs.toNat ∧
    unpackField (data.take 17) 16 1 = (data.getD 16 0).toNat := by
  obtain ⟨b0, b1, b2, b3, b4, b5, b6, b7, b8, b9, b10, b11, b12, b13, b14, b15, b16, rest, rfl⟩ :=
    exists_seventeen h
  refine ⟨?_, rfl, rfl, rfl, ?_, ?_, ?_, rfl⟩ <;>
    simp [unpackField, readHeader, rd16, rd32] <;> omega

/-- **What `parse` accepts**, and what it returns then. -/
theorem parse_eq_some_iff {data : List UInt8} {r : Parsed} :
    parse data = some r ↔ Framed data ∧ r = Parsed.of ⟨readHeader data, payloadOf data⟩ := by
  by_cases hlen : data.length < 17
  · rw [parse, if_pos hlen]
    refine iff_of_false (by simp) fun h => ?_
    have := h.1.header
    omega
  have hlen' : 17 ≤ data.length := by omega
  obtain ⟨hmagic, hver, hflags, hstream, hplen, hseq, hts, hcrc⟩ := unpackField_header hlen'
  have hpay : (data.drop 17).take (readHeader data).payloadLen.toNat = payloadOf data := by
    rw [payloadOf, toNat_payloadLen_readHeader]
  have hmagic' : (readHeader data).magic.toNat = 0x5643 ↔
      data.getD 0 0 = 0x43 ∧ data.getD 1 0 = 0x56 := by
    rw [← rd16_eq_magic_iff, ← UInt16.toNat_inj]
    rfl
  have hver' : (data.getD 2 0).toNat = 1 ↔ data.getD 2 0 = 1 := by
    rw [← UInt8.toNat_inj]
    rfl
  rw [parse, if_neg hlen]
  simp only [hmagic, hver, hflags, hstream, hplen, hseq, hts, hcrc, hpay, crc8_eq]
  constructor
  · intro h
    split at h
    · cases h
    next hfix =>
      split at h
      · cases h
      next hsum =>
        rw [not_or, not_not, not_not, hmagic', hver'] at hfix
        rw [not_not, UInt8.toNat_inj] at hsum
        exact ⟨⟨hlen', hfix.1.1, hfix.1.2, hfix.2, hsum⟩, (Option.some.inj h).symm⟩
  · rintro ⟨hf, rfl⟩
    have hfix : ¬ ((readHeader data).magic.toNat ≠ 0x5643 ∨ (data.getD 2 0).toNat ≠ 1) := by
      rw [not_or, not_not, not_not, hmagic', hver']
      exact ⟨⟨hf.magicLo, hf.magicHi⟩, hf.version⟩
    have hsum : ¬ (data.getD 16 0).toNat ≠
        (Crc8.remainder 0x07 (data.take 16 ++ payloadOf data)).toNat := by
      rw [not_not, hf.checksum]
    rw [if_neg hfix, if_neg hsum]
    rfl

/-! ## the two sides -/

/-- What `pack` sends is what the client's encoder writes for the same fields,
and the client's decoder gives the fields back. -/
def PackAgrees : Prop :=
  ∀ (stream flags : UInt8) (seq tsUs : Int) (payload : List UInt8), payload.length ≤ 65535 →
    ∃ bytes, pack stream.toNat seq tsUs flags.toNat payload = some bytes ∧
      (∀ buf : List UInt8, bytes.length ≤ buf.length →
        vmcProtoEncode buf (headerOf stream flags seq tsUs payload) (some payload) =
          (.ok bytes.length, bytes ++ buf.drop bytes.length)) ∧
      ∀ out, ∃ h, vmcProtoDecode bytes out = (.ok, ⟨h, payload⟩) ∧
        { h with crc := 0 } = headerOf stream flags seq tsUs payload

/-- `parse` returns a result exactly if the client's decoder does, and the same
one. -/
def ParseAgrees (data : List UInt8) : Prop :=
  ∀ out r, parse data = some r ↔ ∃ d, vmcProtoDecode data out = (.ok, d) ∧ r = Parsed.of d

theorem packAgrees : PackAgrees := by
  intro stream flags seq tsUs payload hp
  have hlen : payload.length = (headerOf stream flags seq tsUs payload).payloadLen.toNat :=
    (UInt16.toNat_ofNat_of_lt' (by show payload.length < 65536; omega)).symm
  have hvalid : vmcProtoHeaderValid (headerOf stream flags seq tsUs payload) := by
    simp [vmcProtoHeaderValid, headerOf]
  refine ⟨_, pack_eq stream flags seq tsUs hp, fun buf hbuf => ?_, fun out => ?_⟩
  · rw [length_datagram] at hbuf ⊢
    exact encode_eq hvalid hlen hbuf
  · have hw := wellFormed_datagram_append hvalid hlen []
    have hread := readHeader_datagram_append (headerOf stream flags seq tsUs payload) payload []
    have hpay := payloadOf_datagram_append hlen []
    rw [List.append_nil] at hw hread hpay
    exact ⟨_, by rw [decode_of_wellFormed hw, hpay], by rw [hread]; rfl⟩

theorem parseAgrees_iff (data : List UInt8) :
    ParseAgrees data ↔ (Framed data → Complete data) := by
  constructor
  · intro h hf
    obtain ⟨d, hd, -⟩ :=
      (h ⟨readHeader data, payloadOf data⟩ _).mp (parse_eq_some_iff.mpr ⟨hf, rfl⟩)
    exact (wellFormed_iff.mp (decode_eq_ok_iff.mp hd).1).2
  · intro h out r
    rw [parse_eq_some_iff]
    constructor
    · rintro ⟨hf, rfl⟩
      exact ⟨_, decode_of_wellFormed (wellFormed_iff.mpr ⟨hf, h hf⟩) out, rfl⟩
    · rintro ⟨d, hd, rfl⟩
      obtain ⟨hw, rfl⟩ := decode_eq_ok_iff.mp hd
      exact ⟨(wellFormed_iff.mp hw).1, rfl⟩

/-- **The simulator's packets are the client's**, and it takes a byte string
for the same packet as the client does exactly if a string that passes its
checks has a zero reserved byte and all of the payload it announces. -/
theorem framing_agrees_iff (data : List UInt8) :
    PackAgrees ∧ (ParseAgrees data ↔ (Framed data → Complete data)) :=
  ⟨packAgrees, parseAgrees_iff data⟩

/-- Both sides speak the same framing. -/
def FramingAgrees : Prop := PackAgrees ∧ ∀ data, ParseAgrees data

/-- A header that announces one byte, with the checksum of what is there and
nothing behind it. -/
theorem framingAgrees_fails : ¬ FramingAgrees := by
  intro h
  have hparse := h.2 [0x43, 0x56, 1, 0, 0, 0, 1, 0, 0, 0, 0, 0, 0, 0, 0, 0, 0x5e]
    ⟨sampleHeader, []⟩ ⟨0, 0, 0, 0, []⟩
  obtain ⟨d, hd, -⟩ := hparse.mp (by decide +kernel)
  have hst : (vmcProtoDecode [0x43, 0x56, 1, 0, 0, 0, 1, 0, 0, 0, 0, 0, 0, 0, 0, 0, 0x5e]
      ⟨sampleHeader, []⟩).1 = .ok := congrArg Prod.fst hd
  revert hst
  decide +kernel

end MecSim

end Vmc
