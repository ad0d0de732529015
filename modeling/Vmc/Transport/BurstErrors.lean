import Vmc.Transport.Protocol

/-!
# Vmc.Transport.BurstErrors

What the checksum of a datagram detects.

The checksum covers the bytes 0 to 15 and the payload, which are not contiguous:
byte 16 stands between them.  An error is a pattern `e` of bits to flip in that
stream (`corrupt`).  With `payload_len` intact the decoder checksums the flipped
stream, whose remainder is that of the stream plus that of `e`, and the
polynomial is odd, so no `e` within eight consecutive bits goes unnoticed.
-/

namespace Vmc

open Bytes Crc8

/-- The bytes the checksum covers, in the order in which it covers them. -/
def checksummed (buf : List UInt8) : List UInt8 := buf.take 16 ++ payloadOf buf

/-- The datagram with the bits of `e` flipped in its checksummed bytes. -/
def corrupt (buf e : List UInt8) : List UInt8 :=
  let stream := xorBytes (checksummed buf) e
  stream.take 16 ++ buf.getD 16 0 :: (stream.drop 16 ++ buf.drop (17 + (payloadOf buf).length))

theorem length_checksummed {buf : List UInt8} (hw : WellFormed buf) :
    (checksummed buf).length = 16 + (payloadOf buf).length := by
  have := hw.header
  simp only [checksummed, List.length_append, List.length_take]
  omega

theorem length_payloadOf_le {buf : List UInt8} (hw : WellFormed buf) :
    17 + (payloadOf buf).length ≤ buf.length := by
  have h := hw.payload
  rw [length_payloadOf hw, toNat_payloadLen_readHeader]
  omega

section Corrupt

variable {buf e : List UInt8} (hw : WellFormed buf)
  (hlen : e.length = 16 + (payloadOf buf).length)

include hw hlen

theorem length_stream :
    (xorBytes (checksummed buf) e).length = 16 + (payloadOf buf).length := by
  have h : e.length = (checksummed buf).length := by rw [length_checksummed hw, hlen]
  rw [length_xorBytes h, length_checksummed hw]

theorem length_corrupt : (corrupt buf e).length = buf.length := by
  have hs := length_stream hw hlen
  have hle := length_payloadOf_le hw
  simp only [corrupt, List.length_append, List.length_cons, List.length_take, List.length_drop, hs]
  omega

theorem take_corrupt : (corrupt buf e).take 16 = (xorBytes (checksummed buf) e).take 16 := by
  have hs := length_stream hw hlen
  exact List.take_left' (by rw [List.length_take, hs]; omega)

theorem getD_corrupt_sixteen : (corrupt buf e).getD 16 0 = buf.getD 16 0 := by
  have hs := length_stream hw hlen
  have h16 : ((xorBytes (checksummed buf) e).take 16).length = 16 := by
    rw [List.length_take, hs]
    omega
  rw [corrupt, List.getD_eq_getElem?_getD, List.getElem?_append_right (by omega), h16]
  rfl

/-- A header byte where `e` is zero stays as it was. -/
theorem getD_corrupt {i : Nat} (hi : i < 16) (he : e.getD i 0 = 0) :
    (corrupt buf e).getD i 0 = buf.getD i 0 := by
  have hs := length_stream hw hlen
  have hheader := hw.header
  have hbuf : (checksummed buf)[i]? = some (buf.getD i 0) := by
    rw [checksummed, List.getElem?_append_left (by rw [List.length_take]; omega),
      List.getElem?_take_of_lt hi, List.getD_eq_getElem?_getD,
      List.getElem?_eq_getElem (by omega), Option.getD_some]
  have hzero : e[i]? = some 0 := by
    rw [← he, List.getD_eq_getElem?_getD, List.getElem?_eq_getElem (by omega), Option.getD_some]
  have hsame : (xorBytes (checksummed buf) e)[i]? = some (buf.getD i 0) := by
    simp [xorBytes, List.getElem?_zipWith, hbuf, hzero]
  rw [corrupt, List.getD_eq_getElem?_getD,
    List.getElem?_append_left (by rw [List.length_take, hs]; omega), List.getElem?_take_of_lt hi,
    hsame, Option.getD_some]

/-- With the length field intact, the payload is the rest of the stream. -/
theorem payloadOf_corrupt (h6 : e.getD 6 0 = 0) (h7 : e.getD 7 0 = 0) :
    payloadOf (corrupt buf e) = (xorBytes (checksummed buf) e).drop 16 := by
  have hs := length_stream hw hlen
  have hplen : (buf.getD 6 0).toNat + 256 * (buf.getD 7 0).toNat = (payloadOf buf).length := by
    rw [length_payloadOf hw, toNat_payloadLen_readHeader]
  have hsplit : corrupt buf e = ((xorBytes (checksummed buf) e).take 16 ++ [buf.getD 16 0]) ++
      ((xorBytes (checksummed buf) e).drop 16 ++ buf.drop (17 + (payloadOf buf).length)) := by
    simp [corrupt]
  rw [payloadOf, getD_corrupt hw hlen (by decide) h6, getD_corrupt hw hlen (by decide) h7, hplen,
    hsplit, List.drop_left' (by rw [List.length_append, List.length_take, hs]; simp)]
  exact List.take_left' (by rw [List.length_drop, hs]; omega)

theorem checksummed_corrupt (h6 : e.getD 6 0 = 0) (h7 : e.getD 7 0 = 0) :
    checksummed (corrupt buf e) = xorBytes (checksummed buf) e := by
  rw [checksummed, take_corrupt hw hlen, payloadOf_corrupt hw hlen h6 h7, List.take_append_drop]

end Corrupt

/-- The checksum byte of a well-formed datagram, over the checksummed bytes. -/
theorem WellFormed.crc_eq {buf : List UInt8} (hw : WellFormed buf) :
    buf.getD 16 0 = remainder 0x07 (checksummed buf) :=
  hw.checksum

theorem eq_zero_of_eq_xor {a b : UInt8} (h : a = a ^^^ b) : b = 0 := by
  have h0 : a ^^^ 0 = a ^^^ b := by rw [UInt8.xor_zero]; exact h
  exact ((UInt8.xor_right_inj a).mp h0).symm

theorem not_wellFormed_corrupt {buf e : List UInt8} (hw : WellFormed buf)
    (hlen : e.length = 16 + (payloadOf buf).length) (h6 : e.getD 6 0 = 0) (h7 : e.getD 7 0 = 0)
    (hburst : Burst e) : ¬ WellFormed (corrupt buf e) := by
  intro hw'
  have hcrc := hw'.crc_eq
  have h : e.length = (checksummed buf).length := by rw [length_checksummed hw, hlen]
  rw [getD_corrupt_sixteen hw hlen, checksummed_corrupt hw hlen h6 h7, hw.crc_eq,
    remainder_xorBytes _ h] at hcrc
  -- the remainder of the error would have to cancel
  have hzero : remainder 0x07 e = 0 := eq_zero_of_eq_xor hcrc
  exact remainder_burst (by decide) hburst hzero

theorem not_wellFormed_set_crc {buf : List UInt8} {d : UInt8} (hw : WellFormed buf) (hd : d ≠ 0) :
    ¬ WellFormed (buf.set 16 (buf.getD 16 0 ^^^ d)) := by
  intro hw'
  have hheader := hw.header
  have hcrc := hw'.crc_eq
  have hsame : checksummed (buf.set 16 (buf.getD 16 0 ^^^ d)) = checksummed buf := by
    simp [checksummed, payloadOf, List.take_set_of_le, List.drop_set_of_lt]
  rw [hsame, ← hw.crc_eq, List.getD_eq_getElem?_getD, List.getElem?_set_self (by omega),
    Option.getD_some] at hcrc
  exact hd (eq_zero_of_eq_xor hcrc.symm)

/-- **Bursts are detected.**  No accepted datagram is accepted again with bits
flipped within eight consecutive bits of what its checksum covers, its length
field and checksum intact, nor with its checksum byte changed. -/
theorem burst_errors_detected (buf : List UInt8) (out out' : DecodeOut)
    (hok : (vmcProtoDecode buf out).1 = .ok) :
    (∀ e : List UInt8, e.length = 16 + (payloadOf buf).length → e.getD 6 0 = 0 → e.getD 7 0 = 0 →
      Burst e → (corrupt buf e).length = buf.length ∧
        (vmcProtoDecode (corrupt buf e) out').1 ≠ .ok) ∧
    (∀ d : UInt8, d ≠ 0 → (vmcProtoDecode (buf.set 16 (buf.getD 16 0 ^^^ d)) out').1 ≠ .ok) := by
  have hw : WellFormed buf := decode_fst_iff.mp hok
  refine ⟨?_, ?_⟩
  · intro e hlen h6 h7 hburst
    refine ⟨length_corrupt hw hlen, fun h => ?_⟩
    exact not_wellFormed_corrupt hw hlen h6 h7 hburst (decode_fst_iff.mp h)
  · intro d hd h
    exact not_wellFormed_set_crc hw hd (decode_fst_iff.mp h)

/-- A datagram with a three-byte payload. -/
def sampleDatagram : List UInt8 :=
  [0x43, 0x56, 1, 2, 1, 0, 3, 0, 7, 0, 0, 0, 0xe8, 3, 0, 0, 0x7c, 1, 2, 3]

/-- The last four bits of the header and the first four of the payload. -/
def seamError : List UInt8 := [0, 0, 0, 0, 0, 0, 0, 0, 0, 0, 0, 0, 0, 0, 0, 0x0f, 0xf0, 0, 0]

theorem burst_errors_detected_seam :
    (vmcProtoDecode sampleDatagram ⟨sampleHeader, []⟩).1 = .ok ∧
    (vmcProtoDecode (corrupt sampleDatagram seamError) ⟨sampleHeader, []⟩).1 ≠ .ok := by
  have hok : (vmcProtoDecode sampleDatagram ⟨sampleHeader, []⟩).1 = .ok := by decide +kernel
  refine ⟨hok, ((burst_errors_detected sampleDatagram _ _ hok).1 seamError (by decide) (by decide)
    (by decide) ⟨⟨124, ?_⟩, 0x0f, by decide, by decide⟩).2⟩
  intro i hi
  have hlt : i < 152 := (List.getElem?_eq_some_iff.mp hi).1
  have hall : ∀ i : Fin 152, (bits seamError)[i.val]? = some true → 124 ≤ i.val ∧ i.val < 132 := by
    decide +kernel
  exact hall ⟨i, hlt⟩ hi

end Vmc
