import Mathlib.Data.Nat.Bitwise
import Vmc.Core
import Vmc.Lib.Bytes

/-!
# Vmc.Video.Fragment

Access-unit fragmentation (`video/fragment.c`): the 4-byte fragment header and
the reassembler.

The assembler remembers only the frame it is on, the index it expects next and
how much of the buffer is filled, and it has four ways to give up or start
over: a new frame id, a missing index, an overrun, and completion.  `Holds`
ties the filled part of the buffer to the fragments of one access unit; every
call keeps it, whatever fragments the network delivers (`feed_holds`), so a
completed buffer is never a mixture (`feed_never_torn`).
-/

namespace Vmc

open Bytes

/-! ## fragment header -/

def vmcVideoFragChunk : Nat := 1400

def vmcVideoFragLast : UInt16 := 0x8000

def vmcVideoFragIndexMask : UInt16 := 0x7FFF

def vmcVideoAuMax : Nat := 512 * 1024

/-- `vmc_video_frag_hdr_pack`: the four header bytes. -/
def vmcVideoFragHdrPack (frameId fragIndex : UInt16) : List UInt8 :=
  [lo16 frameId, hi16 frameId, lo16 fragIndex, hi16 fragIndex]

/-- `vmc_video_frag_hdr_unpack`: frame id, fragment index and the LAST flag. -/
def vmcVideoFragHdrUnpack (inp : List UInt8) : UInt16 × UInt16 × Bool :=
  let idx := le16 (inp.getD 2 0) (inp.getD 3 0)
  (le16 (inp.getD 0 0) (inp.getD 1 0), idx &&& vmcVideoFragIndexMask,
    decide (idx &&& vmcVideoFragLast ≠ 0))

/-- The index word of a fragment: the LAST flag sits above the fifteen index
bits. -/
theorem toNat_indexWord {i : Nat} (hi : i < 32768) (last : Bool) :
    (UInt16.ofNat i ||| if last then vmcVideoFragLast else 0).toNat =
      i + if last then 32768 else 0 := by
  cases last with
  | false =>
      simp
      omega
  | true =>
      have hor : i ||| 32768 = 32768 + i := by
        change i ||| 2 ^ 15 * 1 = 2 ^ 15 * 1 + i
        rw [Nat.or_comm, Nat.two_pow_add_eq_or_of_lt (by omega)]
      simp [vmcVideoFragLast]
      rw [Nat.mod_eq_of_lt (a := i) (by omega)]
      omega

/-- The flag bit of the index word. -/
theorem testBit_indexWord {i : Nat} (hi : i < 32768) (last : Bool) :
    (i + if last then 32768 else 0).testBit 15 = last := by
  have hlow : i.testBit 15 = false := Nat.testBit_lt_two_pow (by omega)
  cases last with
  | false => simpa using hlow
  | true =>
      change (i + 2 ^ 15).testBit 15 = true
      rw [Nat.add_comm, Nat.testBit_two_pow_add_eq, hlow]
      rfl

/-- Unpacking a packed header gives back the frame id, the index and the flag,
whatever the payload behind it. -/
theorem unpack_pack (frameId : UInt16) {i : Nat} (hi : i < 32768) (last : Bool)
    (rest : List UInt8) :
    vmcVideoFragHdrUnpack (vmcVideoFragHdrPack frameId
      (UInt16.ofNat i ||| if last then vmcVideoFragLast else 0) ++ rest) =
      (frameId, UInt16.ofNat i, last) := by
  have hval := toNat_indexWord hi last
  simp only [vmcVideoFragHdrUnpack, vmcVideoFragHdrPack]
  generalize (UInt16.ofNat i ||| if last then vmcVideoFragLast else 0) = v at hval ⊢
  have hmask : v &&& vmcVideoFragIndexMask = UInt16.ofNat i := by
    apply UInt16.toNat_inj.mp
    rw [UInt16.toNat_and, hval]
    change (_ &&& (2 ^ 15 - 1) : Nat) = _
    rw [Nat.and_two_pow_sub_one_eq_mod, UInt16.toNat_ofNat']
    split <;> omega
  have hand : (v &&& vmcVideoFragLast).toNat = last.toNat * 2 ^ 15 := by
    rw [UInt16.toNat_and, hval]
    change (_ &&& 2 ^ 15 : Nat) = _
    rw [Nat.and_two_pow, testBit_indexWord hi last]
  have hlast : decide (v &&& vmcVideoFragLast ≠ 0) = last := by
    have hzero : v &&& vmcVideoFragLast = 0 ↔ last.toNat * 2 ^ 15 = 0 := by
      rw [← UInt16.toNat_inj, hand]
      rfl
    cases last <;> simp [hzero]
  simp [hmask, hlast]

/-! ## the assembler -/

/-- `vmc_frag_assembler`; the length of `buf` is the size of the caller's
buffer. -/
structure FragAssembler where
  buf : List UInt8
  cap : Nat
  frameId : UInt16
  nextIndex : UInt16
  filled : Nat
  started : Bool
deriving DecidableEq, Repr

def vmcFragReset (a : FragAssembler) : FragAssembler :=
  { a with frameId := 0, nextIndex := 0, filled := 0, started := false }

/-- `vmc_frag_init` over a caller's buffer of `buf.length` bytes. -/
def vmcFragInit (buf : List UInt8) : Except Status FragAssembler :=
  if buf.length = 0 ∨ buf.length > vmcVideoAuMax then .error .invalidArg
  else .ok (vmcFragReset ⟨buf, buf.length, 0, 0, 0, false⟩)

/-- The arguments of one `vmc_frag_feed` call. -/
structure Fragment where
  frameId : UInt16
  fragIndex : UInt16
  last : Bool
  chunk : List UInt8
deriving DecidableEq, Repr

/-- The first chunk of a frame starts a new assembly. -/
def fragBegin (a : FragAssembler) (frameId : UInt16) : FragAssembler :=
  if !a.started ∨ frameId ≠ a.frameId then
    { a with frameId := frameId, nextIndex := 0, filled := 0, started := true }
  else a

/-- `vmc_frag_feed`: the status, `*out_au_len`, and the assembler after the
call.  `cap - filled` does not underflow: `filled ≤ cap` throughout
(`FragAssembler.Holds`). -/
def vmcFragFeed (a : FragAssembler) (f : Fragment) : Status × Nat × FragAssembler :=
  let a := fragBegin a f.frameId
  if f.fragIndex ≠ a.nextIndex then
    (.outOfSync, 0, { a with started := false })
  else if f.chunk.length > a.cap - a.filled then
    (.overrun, 0, { a with started := false })
  else
    let a := { a with
      buf := splice a.buf a.filled f.chunk
      filled := a.filled + f.chunk.length
      nextIndex := a.nextIndex + 1 }
    if f.last then (.ok, a.filled, { a with started := false }) else (.ok, 0, a)

/-- A sequence of `vmc_frag_feed` calls. -/
def feedAll (a : FragAssembler) (fs : List Fragment) : FragAssembler :=
  fs.foldl (fun a f => (vmcFragFeed a f).2.2) a

/-! ## access units as the sender splits them -/

/-- An access unit and the chunks a sender cut it into: at least one, and few
enough for the 15-bit index. -/
structure SplitUnit where
  frameId : UInt16
  chunks : List (List UInt8)
  nonempty : chunks ≠ []
  indexed : chunks.length ≤ 32768

namespace SplitUnit

/-- The bytes of the access unit. -/
def bytes (u : SplitUnit) : List UInt8 := u.chunks.flatten

/-- The `i`-th fragment on the wire; LAST is set exactly on the final one. -/
def fragment (u : SplitUnit) (i : Nat) : Fragment where
  frameId := u.frameId
  fragIndex := UInt16.ofNat i
  last := i + 1 = u.chunks.length
  chunk := u.chunks.getD i []

end SplitUnit

/-! ## no torn frames -/

/-- What every call keeps: the buffer bookkeeping is in range, and while a
frame is being collected the filled part is the first `nextIndex` chunks of one
unit of the set. -/
structure FragAssembler.Holds (units : Set SplitUnit) (a : FragAssembler) : Prop where
  size : a.buf.length = a.cap
  filled_le : a.filled ≤ a.cap
  collecting : a.started = true → ∃ u ∈ units, u.frameId = a.frameId ∧
    a.nextIndex.toNat < u.chunks.length ∧
    a.buf.take a.filled = (u.chunks.take a.nextIndex.toNat).flatten

theorem init_holds {buf : List UInt8} {a : FragAssembler} (units : Set SplitUnit)
    (h : vmcFragInit buf = .ok a) : a.Holds units := by
  unfold vmcFragInit at h
  split at h
  · contradiction
  · obtain rfl := Except.ok.inj h
    exact ⟨rfl, Nat.zero_le _, fun hs => by simp [vmcFragReset] at hs⟩

/-- Starting or continuing: after `fragBegin` the assembler is on the frame of
the fragment, with a prefix of that frame's unit in the buffer. -/
theorem fragBegin_spec {units : Set SplitUnit} {a : FragAssembler} (ha : a.Holds units)
    (hinj : ∀ u ∈ units, ∀ v ∈ units, u.frameId = v.frameId → u = v)
    {u : SplitUnit} (hu : u ∈ units) :
    let b := fragBegin a u.frameId
    b.buf.length = b.cap ∧ b.filled ≤ b.cap ∧ b.frameId = u.frameId ∧
      b.nextIndex.toNat < u.chunks.length ∧
      b.buf.take b.filled = (u.chunks.take b.nextIndex.toNat).flatten := by
  by_cases hnew : !a.started ∨ u.frameId ≠ a.frameId
  · have hpos : 0 < u.chunks.length := List.length_pos_iff.mpr u.nonempty
    simp only [fragBegin, if_pos hnew]
    exact ⟨ha.size, Nat.zero_le _, trivial, by simpa using hpos, by simp⟩
  · simp only [fragBegin, if_neg hnew]
    obtain ⟨hst, hid⟩ : a.started = true ∧ u.frameId = a.frameId := by simpa using hnew
    obtain ⟨v, hv, hvid, hlt, htake⟩ := ha.collecting hst
    obtain rfl : u = v := hinj u hu v hv (by rw [hid, hvid])
    exact ⟨ha.size, ha.filled_le, hvid.symm, hlt, htake⟩

/-- Appending the chunk of index `i` to the first `i` chunks. -/
theorem flatten_take_succ {chunks : List (List UInt8)} (h : i < chunks.length) :
    (chunks.take (i + 1)).flatten = (chunks.take i).flatten ++ chunks.getD i [] := by
  rw [List.take_add_one, List.getElem?_eq_getElem h, List.flatten_append]
  simp [List.getD, List.getElem?_eq_getElem h]

/-- **One call.**  Feeding any fragment of any unit of the set keeps the
invariant, and if the call reports a completed unit the buffer holds exactly
one unit of the set. -/
theorem feed_holds {units : Set SplitUnit} {a : FragAssembler} (ha : a.Holds units)
    (hinj : ∀ u ∈ units, ∀ v ∈ units, u.frameId = v.frameId → u = v)
    {u : SplitUnit} (hu : u ∈ units) (hi : i < u.chunks.length) :
    let r := vmcFragFeed a (u.fragment i)
    r.2.2.Holds units ∧ (r.1 = .ok → 0 < r.2.1 → r.2.2.buf.take r.2.1 = u.bytes) := by
  obtain ⟨hsize, hle, hid, hlt, htake⟩ := fragBegin_spec ha hinj hu
  have hn := u.indexed
  simp only [vmcFragFeed]
  rw [show (u.fragment i).frameId = u.frameId from rfl]
  generalize fragBegin a u.frameId = b at hsize hle hid hlt htake ⊢
  by_cases hidx : (u.fragment i).fragIndex ≠ b.nextIndex
  · rw [if_pos hidx]
    exact ⟨⟨hsize, hle, by simp⟩, by simp⟩
  rw [if_neg hidx]
  by_cases hover : (u.fragment i).chunk.length > b.cap - b.filled
  · rw [if_pos hover]
    exact ⟨⟨hsize, hle, by simp⟩, by simp⟩
  rw [if_neg hover]
  -- the index matches: this is the next chunk of the unit in the buffer
  have hnext : b.nextIndex.toNat = i := by
    have h := congrArg UInt16.toNat (not_not.mp hidx)
    simp only [SplitUnit.fragment, UInt16.toNat_ofNat'] at h
    omega
  have hfit : b.filled + (u.fragment i).chunk.length ≤ b.buf.length := by omega
  have hbuf : (splice b.buf b.filled (u.fragment i).chunk).take
      (b.filled + (u.fragment i).chunk.length) = (u.chunks.take (i + 1)).flatten := by
    rw [take_splice hfit, htake, hnext, flatten_take_succ hi]
    rfl
  have hlen : (splice b.buf b.filled (u.fragment i).chunk).length = b.cap := by
    rw [length_splice hfit, hsize]
  by_cases hlast : (u.fragment i).last = true
  · rw [if_pos hlast]
    refine ⟨⟨hlen, by simp only; omega, by simp⟩, fun _ _ => ?_⟩
    have hall : i + 1 = u.chunks.length := by simpa [SplitUnit.fragment] using hlast
    rw [SplitUnit.bytes]
    simpa [hall] using hbuf
  · rw [if_neg hlast]
    have hmore : i + 1 ≠ u.chunks.length := by simpa [SplitUnit.fragment] using hlast
    have hsucc : (b.nextIndex + 1).toNat = i + 1 := by
      rw [UInt16.toNat_add, hnext]
      simp only [UInt16.toNat_one]
      omega
    refine ⟨⟨hlen, by simp only; omega, fun _ => ⟨u, hu, hid.symm, ?_, ?_⟩⟩, by simp⟩
    · simp only [hsucc]
      omega
    · simp only [hsucc]
      exact hbuf

/-- The invariant after any sequence of calls on fragments of the set. -/
theorem feedAll_holds {units : Set SplitUnit} {a : FragAssembler} (ha : a.Holds units)
    (hinj : ∀ u ∈ units, ∀ v ∈ units, u.frameId = v.frameId → u = v) {fs : List Fragment}
    (hfs : ∀ f ∈ fs, ∃ u ∈ units, ∃ i < u.chunks.length, f = u.fragment i) :
    (feedAll a fs).Holds units := by
  refine List.foldlRecOn fs _ ha fun b hb f hf => ?_
  obtain ⟨u, hu, i, hi, rfl⟩ := hfs f hf
  exact (feed_holds hb hinj hu hi).1

/-- **No torn frames.**  Take any set of access units with distinct frame ids
and any sequence of calls on their fragments: lost, repeated, reordered and
interleaved as the network likes.  After every call the filled length is within
the capacity, and a call that reports a completed unit leaves exactly one whole
unit of the set at the front of the buffer. -/
theorem feed_never_torn (units : Set SplitUnit)
    (hinj : ∀ u ∈ units, ∀ v ∈ units, u.frameId = v.frameId → u = v)
    (buf : List UInt8) (a : FragAssembler) (hinit : vmcFragInit buf = .ok a)
    (fs : List Fragment) (f : Fragment)
    (hfs : ∀ g ∈ fs ++ [f], ∃ u ∈ units, ∃ i < u.chunks.length, g = u.fragment i) :
    let r := vmcFragFeed (feedAll a fs) f
    r.2.2.filled ≤ r.2.2.cap ∧
      (r.1 = .ok → 0 < r.2.1 → ∃ u ∈ units, r.2.2.buf.take r.2.1 = u.bytes) := by
  have hrun : (feedAll a fs).Holds units :=
    feedAll_holds (init_holds units hinit) hinj
      (fun g hg => hfs g (List.mem_append_left _ hg))
  obtain ⟨u, hu, i, hi, rfl⟩ := hfs f (by simp)
  obtain ⟨hholds, hwhole⟩ := feed_holds hrun hinj hu hi
  exact ⟨hholds.filled_le, fun hok hpos => ⟨u, hu, hwhole hok hpos⟩⟩

/-- An access unit of three bytes in two chunks. -/
def twoChunks : SplitUnit := ⟨7, [[1, 2], [3]], by simp, by simp⟩

/-- The second fragment first, then both in order: the unit comes out whole. -/
theorem feed_never_torn_two_chunks :
    ∃ a, vmcFragInit (List.replicate 8 0) = .ok a ∧
      let r := vmcFragFeed (feedAll a [twoChunks.fragment 1, twoChunks.fragment 0])
        (twoChunks.fragment 1)
      r.1 = .ok ∧ r.2.1 = 3 ∧ r.2.2.filled ≤ r.2.2.cap ∧
        ∃ u ∈ ({twoChunks} : Set SplitUnit), r.2.2.buf.take r.2.1 = u.bytes := by
  have hrun := feed_never_torn {twoChunks}
    (fun u hu v hv _ => by rw [Set.mem_singleton_iff.mp hu, Set.mem_singleton_iff.mp hv])
    (List.replicate 8 0) ⟨List.replicate 8 0, 8, 0, 0, 0, false⟩ rfl
    [twoChunks.fragment 1, twoChunks.fragment 0] (twoChunks.fragment 1)
    (by
      intro g hg
      simp only [List.cons_append, List.nil_append, List.mem_cons, List.not_mem_nil, or_false] at hg
      obtain rfl | rfl | rfl := hg
      · exact ⟨_, rfl, 1, by decide, rfl⟩
      · exact ⟨_, rfl, 0, by decide, rfl⟩
      · exact ⟨_, rfl, 1, by decide, rfl⟩)
  exact ⟨_, rfl, by decide, by decide, hrun.1, hrun.2 (by decide) (by decide)⟩

end Vmc
