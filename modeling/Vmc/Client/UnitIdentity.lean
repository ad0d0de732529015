import Vmc.Client.AvTimeline
import Vmc.Lib.CInt

/-!
# Vmc.Client.UnitIdentity

Which frame the access units of a segment are said to belong to
(`dash_demux_segment` in `apps/thinclient/main.c`).

The index of a packet's frame is its time stamp, relative to the segment's first,
rounded to frame periods.  When the index changes, a frame number is taken from
the global counter and the content time computed; the two are variables of one
packet, so a further packet of the same frame is published as frame 0 at time 0.
Packets share a frame as soon as the stream's frame rate is above the whole
number that the manifest parser makes of it.  The rounding is libavutil's
`av_rescale_q`, a parameter of which no more is known than that it rounds to the
nearest.

`labels` is what the packets come out with, from their indices alone, and
`units_share_identity_iff` says when that is as it should be.
-/

namespace Vmc

/-! ## the demuxer -/

/-- A video packet of a segment: its time stamp, if it has one, and the units the
bitstream filter makes of it. -/
structure AvPacket where
  pts : Option Int
  units : List (List UInt8)
deriving DecidableEq, Repr

/-- The unit of a stream's time stamps, in seconds. -/
structure TimeBase where
  num : Int
  den : Int
deriving DecidableEq, Repr

/-- `av_rescale_q` of times to periods of `1 / fps`: to a nearest number of them,
as long as that fits 64 bits. -/
def RescalesToNearest (avRescaleQ : Int → TimeBase → Int → Int) : Prop :=
  ∀ a tb fps, 0 < tb.den → |a * (tb.num * fps)| ≤ 2 ^ 62 * tb.den →
    2 * |avRescaleQ a tb fps * tb.den - a * (tb.num * fps)| ≤ tb.den

/-- What a unit is published with: its frame's index in the segment, which its
deadline is computed from, number and content time. -/
structure FrameId where
  frameIdx : Int
  fidx : UInt32
  ptsUs : Int
deriving DecidableEq, Repr

/-- A unit passed to `dash_publish_au`. -/
structure PublishedAu where
  data : List UInt8
  id : FrameId
deriving DecidableEq, Repr

/-- The fields of `dash_session` the demuxer counts with, `*au_k` if the caller
passes it, and `g_video_frame_count`. -/
structure DemuxState where
  videoFirstPts : Option Int
  videoAuK : Int
  lastFrameIdx : Int
  auK : Option Int
  videoFrameCount : UInt32
deriving DecidableEq, Repr

section

variable (avRescaleQ : Int → TimeBase → Int → Int)

/-- `frame_idx` of a packet. -/
def packetIndex (t : AvTimeline) (tb : TimeBase) (s : DemuxState) (pkt : AvPacket) :
    Int × DemuxState :=
  let (frameIdx, s) :=
    if t.streamFps > 0 then
      match pkt.pts with
      | none => (-1, s)
      | some pts =>
          let first := s.videoFirstPts.getD pts
          let rel := pts - first
          (if rel ≥ 0 then CInt.toInt (avRescaleQ rel tb t.streamFps) else -1,
            { s with videoFirstPts := some first })
    else
      (-1, s)
  (if frameIdx < 0 then s.auK.getD s.videoAuK else frameIdx, s)

/-- `fidx` and `pts_us` of a packet. -/
def packetIdentity (t : AvTimeline) (seg : Int) (s : DemuxState) (frameIdx : Int) :
    FrameId × DemuxState :=
  if frameIdx ≠ s.lastFrameIdx ∨ s.lastFrameIdx < 0 then
    (⟨frameIdx, s.videoFrameCount, videoPtsUs t seg frameIdx⟩,
      { s with videoFrameCount := s.videoFrameCount + 1, lastFrameIdx := frameIdx })
  else
    (⟨frameIdx, 0, 0⟩, s)

/-- One video packet: the units published and the counters afterwards. -/
def demuxPacket (t : AvTimeline) (tb : TimeBase) (seg : Int) (s : DemuxState) (pkt : AvPacket) :
    List PublishedAu × DemuxState :=
  let (frameIdx, s) := packetIndex avRescaleQ t tb s pkt
  let (id, s) := packetIdentity t seg s frameIdx
  ((pkt.units.filter fun u => 0 < u.length).map fun u => ⟨u, id⟩,
    { s with videoAuK := s.videoAuK + 1, auK := s.auK.map (· + 1) })

def demuxPackets (t : AvTimeline) (tb : TimeBase) (seg : Int) :
    DemuxState → List AvPacket → List PublishedAu
  | _, [] => []
  | s, pkt :: pkts =>
      let (units, s) := demuxPacket avRescaleQ t tb seg s pkt
      units ++ demuxPackets t tb seg s pkts

/-- The video side of `dash_demux_segment`: the units published for a segment's
packets, with `count` the frame counter. -/
def dashDemuxSegment (t : AvTimeline) (tb : TimeBase) (seg : Int) (count : UInt32)
    (auK : Option Int) (pkts : List AvPacket) : List PublishedAu :=
  demuxPackets avRescaleQ t tb seg ⟨none, 0, -1, auK, count⟩ pkts

/-! ## indices and labels -/

/-- The index of the packet number `k`; one that does not fit its type may come
out negative, and then the packet's number is taken. -/
def frameIdxOf (t : AvTimeline) (tb : TimeBase) (first : Int) (k : Nat) (pts : Int) : Int :=
  let i := CInt.toInt (avRescaleQ (pts - first) tb t.streamFps)
  if i < 0 then k else i

def frameIdxsFrom (t : AvTimeline) (tb : TimeBase) (first : Int) : Nat → List Int → List Int
  | _, [] => []
  | k, pts :: ptss => frameIdxOf avRescaleQ t tb first k pts :: frameIdxsFrom t tb first (k + 1) ptss

/-- The indices of a segment's packets, from their time stamps. -/
def frameIdxs (t : AvTimeline) (tb : TimeBase) (ptss : List Int) : List Int :=
  frameIdxsFrom avRescaleQ t tb (ptss.headD 0) 0 ptss

end

/-- The identities the packets with these indices come out with, behind a packet
with index `last`. -/
def labels (t : AvTimeline) (seg : Int) : UInt32 → Int → List Int → List FrameId
  | _, _, [] => []
  | count, last, i :: is =>
      if i ≠ last ∨ last < 0 then ⟨i, count, videoPtsUs t seg i⟩ :: labels t seg (count + 1) i is
      else ⟨i, 0, 0⟩ :: labels t seg count last is

/-- The identities of published units: one for each unit of a packet. -/
def perUnit (ids : List FrameId) (counts : List Nat) : List FrameId :=
  (ids.zip counts).flatMap fun x => List.replicate x.2 x.1

/-- How many units of a packet are published. -/
def AvPacket.count (pkt : AvPacket) : Nat := (pkt.units.filter fun u => 0 < u.length).length

section Demux

variable {avRescaleQ : Int → TimeBase → Int → Int} {t : AvTimeline} {tb : TimeBase}
  {seg first : Int}

theorem packetIndex_eq (hfps : 0 < t.streamFps) {s : DemuxState} {pkt : AvPacket} {pts : Int}
    (hpts : pkt.pts = some pts) (hfirst : s.videoFirstPts.getD pts = first) (hle : first ≤ pts)
    {k : Nat} (hk : s.videoAuK = k) (hau : s.auK.getD k = k) :
    packetIndex avRescaleQ t tb s pkt =
      (frameIdxOf avRescaleQ t tb first k pts, { s with videoFirstPts := some first }) := by
  have hrel : pts - first ≥ 0 := by omega
  simp only [packetIndex, gt_iff_lt, if_pos hfps, hpts, hfirst, if_pos hrel, hk, hau, frameIdxOf]

theorem perUnit_cons (id : FrameId) (ids : List FrameId) (n : Nat) (counts : List Nat) :
    perUnit (id :: ids) (n :: counts) = List.replicate n id ++ perUnit ids counts := by
  simp [perUnit]

theorem perUnit_ones (ids : List FrameId) : perUnit ids (List.replicate ids.length 1) = ids := by
  induction ids with
  | nil => rfl
  | cons id ids ih => rw [List.length_cons, List.replicate_succ, perUnit_cons, ih]; rfl

/-- **The demuxer labels by index**: what is published is told by the indices. -/
theorem ids_demuxPackets (hfps : 0 < t.streamFps) {pkts : List AvPacket} {ptss : List Int}
    (hpts : pkts.map AvPacket.pts = ptss.map some) (hle : ∀ p ∈ ptss, first ≤ p) {s : DemuxState}
    (hfirst : ∀ p ∈ ptss.head?, s.videoFirstPts.getD p = first) {k : Nat} (hk : s.videoAuK = k)
    (hau : s.auK.getD k = k) :
    (demuxPackets avRescaleQ t tb seg s pkts).map PublishedAu.id =
      perUnit (labels t seg s.videoFrameCount s.lastFrameIdx
          (frameIdxsFrom avRescaleQ t tb first k ptss))
        (pkts.map AvPacket.count) := by
  induction pkts generalizing ptss s k with
  | nil =>
      obtain rfl : ptss = [] := by simpa using hpts.symm
      rfl
  | cons pkt pkts ih =>
      obtain ⟨pts, ptss, rfl⟩ : ∃ p ps, ptss = p :: ps := by
        cases ptss with
        | nil => simp at hpts
        | cons p ps => exact ⟨p, ps, rfl⟩
      rw [List.map_cons, List.map_cons, List.cons.injEq] at hpts
      have hidx := @packetIndex_eq avRescaleQ t tb first hfps s pkt pts hpts.1 (hfirst pts (by simp))
        (hle pts (by simp)) k hk hau
      have hk' : s.videoAuK + 1 = ((k + 1 : Nat) : Int) := by omega
      have hau' : (s.auK.map (· + 1)).getD ((k + 1 : Nat) : Int) = (k + 1 : Nat) := by
        cases hs : s.auK with
        | none => rfl
        | some a =>
            rw [hs] at hau
            simpa using hau
      have hle' : ∀ p ∈ ptss, first ≤ p := fun p hp => hle p (List.mem_cons_of_mem pts hp)
      have hunits : ∀ id : FrameId, ((pkt.units.filter fun u => 0 < u.length).map
          fun u => (⟨u, id⟩ : PublishedAu)).map PublishedAu.id = List.replicate pkt.count id := by
        intro id
        rw [List.map_map]
        exact List.map_const'
      simp only [demuxPackets, demuxPacket, hidx, packetIdentity, frameIdxsFrom, labels]
      generalize frameIdxOf avRescaleQ t tb first k pts = i
      by_cases hnew : i ≠ s.lastFrameIdx ∨ s.lastFrameIdx < 0
      · rw [if_pos hnew, if_pos hnew, List.map_append, hunits, List.map_cons, perUnit_cons]
        exact congrArg _ (ih hpts.2 hle' (fun p _ => rfl) hk' hau')
      · rw [if_neg hnew, if_neg hnew, List.map_append, hunits, List.map_cons, perUnit_cons]
        exact congrArg _ (ih hpts.2 hle' (fun p _ => rfl) hk' hau')

end Demux

/-! ## shared identities -/

/-- **What the published identities should be**: units of one frame carry one
number and the frame's content time, and both rise from frame to frame. -/
structure SharedIdentity (t : AvTimeline) (seg : Int) (ids : List FrameId) : Prop where
  same : ∀ a ∈ ids, ∀ b ∈ ids, a.frameIdx = b.frameIdx → a.fidx = b.fidx
  pts : ∀ a ∈ ids, a.ptsUs = videoPtsUs t seg a.frameIdx
  rising : ids.Pairwise fun a b => a.frameIdx ≠ b.frameIdx → a.fidx < b.fidx ∧ a.ptsUs < b.ptsUs

/-- The frames of a segment, by their packets' indices, are told apart by what the
packets are labelled with: only frame 0 has more than one packet, and that only
if its number and content time are 0; the frames rise, in periods of a microsecond
or more, and the counter does not go round. -/
structure FramesApart (t : AvTimeline) (seg : Int) (count : UInt32) (m : Nat) (later : List Int) :
    Prop where
  rises : ((0 : Int) :: later).Pairwise (· < ·)
  again : m ≠ 0 → count = 0 ∧ (seg - 1) * t.segDurationUs = 0
  period : later ≠ [] → t.streamFps ≤ 1000000
  counter : count.toNat + later.length < 2 ^ 32

section Shared

variable {t : AvTimeline} {seg : Int} {ids ids' : List FrameId}

theorem SharedIdentity.sublist (h : SharedIdentity t seg ids) (hsub : ids'.Sublist ids) :
    SharedIdentity t seg ids' where
  same := fun a ha b hb => h.same a (hsub.subset ha) b (hsub.subset hb)
  pts := fun a ha => h.pts a (hsub.subset ha)
  rising := h.rising.sublist hsub

section PerUnit

variable {counts : List Nat} (hlen : ids.length = counts.length) (hpos : ∀ n ∈ counts, 0 < n)

include hlen hpos

theorem mem_perUnit {id : FrameId} : id ∈ perUnit ids counts ↔ id ∈ ids := by
  have hfst : (ids.zip counts).map Prod.fst = ids := List.map_fst_zip (le_of_eq hlen)
  constructor
  · intro h
    obtain ⟨x, hx, hid⟩ := List.mem_flatMap.mp h
    rw [List.eq_of_mem_replicate hid, ← hfst]
    exact List.mem_map_of_mem hx
  · intro h
    rw [← hfst] at h
    obtain ⟨x, hx, rfl⟩ := List.mem_map.mp h
    have hn : 0 < x.2 := hpos x.2 (List.of_mem_zip hx).2
    exact List.mem_flatMap.mpr ⟨x, hx, List.mem_replicate.mpr ⟨hn.ne', rfl⟩⟩

theorem pairwise_perUnit {R : FrameId → FrameId → Prop} (hrefl : ∀ a, R a a) :
    (perUnit ids counts).Pairwise R ↔ ids.Pairwise R := by
  have hfst : (ids.zip counts).map Prod.fst = ids := List.map_fst_zip (le_of_eq hlen)
  rw [perUnit, List.pairwise_flatMap]
  conv_rhs => rw [← hfst, List.pairwise_map]
  constructor
  · rintro ⟨-, h⟩
    refine h.imp_of_mem ?_
    intro x y hx hy hxy
    have hnx : 0 < x.2 := hpos x.2 (List.of_mem_zip hx).2
    have hny : 0 < y.2 := hpos y.2 (List.of_mem_zip hy).2
    exact hxy _ (List.mem_replicate.mpr ⟨hnx.ne', rfl⟩) _ (List.mem_replicate.mpr ⟨hny.ne', rfl⟩)
  · intro h
    refine ⟨fun x _ => List.pairwise_replicate.mpr (.inr (hrefl x.1)), h.imp ?_⟩
    intro x y hxy a ha b hb
    rw [List.eq_of_mem_replicate ha, List.eq_of_mem_replicate hb]
    exact hxy

/-- How many units a packet has does not matter, as long as it has one. -/
theorem shared_perUnit :
    SharedIdentity t seg (perUnit ids counts) ↔ SharedIdentity t seg ids := by
  have hmem := fun id => @mem_perUnit ids counts hlen hpos id
  have hrise := pairwise_perUnit hlen hpos
    (R := fun a b => a.frameIdx ≠ b.frameIdx → a.fidx < b.fidx ∧ a.ptsUs < b.ptsUs)
    (fun a h => absurd rfl h)
  constructor
  · intro h
    exact ⟨fun a ha b hb => h.same a ((hmem a).mpr ha) b ((hmem b).mpr hb),
      fun a ha => h.pts a ((hmem a).mpr ha), hrise.mp h.rising⟩
  · intro h
    exact ⟨fun a ha b hb => h.same a ((hmem a).mp ha) b ((hmem b).mp hb),
      fun a ha => h.pts a ((hmem a).mp ha), hrise.mpr h.rising⟩

end PerUnit

/-- Content times rise with the index if there is a period to count in. -/
theorem videoPtsUs_lt_iff (hfps : 0 < t.streamFps) {i j : Int} :
    videoPtsUs t seg i < videoPtsUs t seg j ↔ i < j ∧ t.streamFps ≤ 1000000 := by
  have hperiod : 0 ≤ 1000000 / t.streamFps := Int.ediv_nonneg (by decide) hfps.le
  have hone : 1 ≤ 1000000 / t.streamFps ↔ t.streamFps ≤ 1000000 := by
    rw [Int.le_ediv_iff_mul_le hfps, one_mul]
  rw [← hone]
  simp only [videoPtsUs, gt_iff_lt, if_pos hfps, add_lt_add_iff_left]
  generalize 1000000 / t.streamFps = fp at hperiod
  constructor
  · intro h
    by_cases hfp : 1 ≤ fp
    · exact ⟨lt_of_mul_lt_mul_right h hperiod, hfp⟩
    · obtain rfl : fp = 0 := by omega
      simp at h
  · rintro ⟨hij, hfp⟩
    exact mul_lt_mul_of_pos_right hij (by omega)

/-- Numbers and indices that rise together are enough. -/
theorem shared_of_rising (hfps : 0 < t.streamFps)
    (hpts : ∀ a ∈ ids, a.ptsUs = videoPtsUs t seg a.frameIdx)
    (hrise : ids.Pairwise fun a b => a.frameIdx < b.frameIdx ∧ a.fidx < b.fidx)
    (hperiod : 2 ≤ ids.length → t.streamFps ≤ 1000000) : SharedIdentity t seg ids := by
  have hnodup : (ids.map FrameId.frameIdx).Nodup := by
    rw [List.Nodup, List.pairwise_map]
    exact hrise.imp fun h => h.1.ne
  refine ⟨?_, hpts, ?_⟩
  · intro a ha b hb hab
    rw [List.inj_on_of_nodup_map hnodup ha hb hab]
  · cases ids with
    | nil => exact .nil
    | cons x xs =>
        cases xs with
        | nil => exact List.pairwise_singleton _ _
        | cons y ys =>
            have hfine := hperiod (by simp)
            refine hrise.imp_of_mem ?_
            intro a b ha hb hab _
            rw [hpts a ha, hpts b hb]
            exact ⟨hab.2, (videoPtsUs_lt_iff hfps).mpr ⟨hab.1, hfine⟩⟩

/-! ## when the labels are right -/

theorem labels_new (count : UInt32) {last i : Int} (h : i ≠ last ∨ last < 0) (is : List Int) :
    labels t seg count last (i :: is) =
      ⟨i, count, videoPtsUs t seg i⟩ :: labels t seg (count + 1) i is := by
  rw [labels, if_pos h]

theorem labels_again (count : UInt32) {i : Int} (hi : 0 ≤ i) (is : List Int) :
    labels t seg count i (i :: is) = ⟨i, 0, 0⟩ :: labels t seg count i is := by
  rw [labels, if_neg (by simp [hi])]

theorem length_labels (count : UInt32) (last : Int) (is : List Int) :
    (labels t seg count last is).length = is.length := by
  induction is generalizing count last with
  | nil => rfl
  | cons i is ih =>
      rw [labels]
      split <;> simp [ih]

theorem lt_add_one_iff (c : UInt32) : c < c + 1 ↔ c.toNat + 1 < 2 ^ 32 := by
  have hc := c.toNat_lt
  have hone : (1 : UInt32).toNat = 1 := rfl
  rw [UInt32.lt_iff_toNat_lt, UInt32.toNat_add, hone]
  omega

theorem toNat_add_one {c : UInt32} (h : c.toNat + 1 < 2 ^ 32) : (c + 1).toNat = c.toNat + 1 := by
  have hone : (1 : UInt32).toNat = 1 := rfl
  rw [UInt32.toNat_add, hone]
  omega

section Labels

variable (hfps : 0 < t.streamFps)

include hfps

/-- Behind a frame whose number is not 0, or that has no further packet, labels
that are right belong to frames that rise. -/
theorem rises_of_shared {is : List Int} {i : Int} {c : UInt32} (hi : 0 ≤ i)
    (hc : c ≠ 0 ∨ ∀ j ∈ is.head?, j ≠ i)
    (h : SharedIdentity t seg (⟨i, c, videoPtsUs t seg i⟩ :: labels t seg (c + 1) i is)) :
    (i :: is).Pairwise (· < ·) ∧ c.toNat + is.length < 2 ^ 32 ∧
      (is ≠ [] → t.streamFps ≤ 1000000) := by
  induction is generalizing i c with
  | nil => exact ⟨List.pairwise_singleton _ _, c.toNat_lt, fun hn => absurd rfl hn⟩
  | cons j is ih =>
      by_cases hji : j = i
      · -- a second packet of the frame has number 0
        subst hji
        rw [labels_again _ hi] at h
        have hzero : c = 0 := h.same ⟨j, c, videoPtsUs t seg j⟩ (by simp) ⟨j, 0, 0⟩ (by simp) rfl
        exact absurd hzero (hc.resolve_right fun hne => hne j (by simp) rfl)
      · rw [labels_new _ (.inl hji)] at h
        obtain ⟨hlt, hpts⟩ := (List.pairwise_cons.mp h.rising).1 ⟨j, c + 1, videoPtsUs t seg j⟩
          (by simp) (fun heq => hji heq.symm)
        obtain ⟨hij, hperiod⟩ := (videoPtsUs_lt_iff hfps).mp hpts
        have hwrap := (lt_add_one_iff c).mp hlt
        have hc' := toNat_add_one hwrap
        have hne : c + 1 ≠ 0 := by
          intro h0
          rw [h0] at hc'
          simp at hc'
        obtain ⟨hrise, hroom, -⟩ := ih (by omega) (.inl hne) (h.sublist (List.sublist_cons_self ..))
        refine ⟨?_, by rw [List.length_cons]; omega, fun _ => hperiod⟩
        have hafter := (List.pairwise_cons.mp hrise).1
        refine List.pairwise_cons.mpr ⟨?_, hrise⟩
        intro x hx
        rcases List.mem_cons.mp hx with rfl | hx
        · exact hij
        · exact hij.trans (hafter x hx)

omit hfps in
/-- Frames that rise are labelled with numbers that rise. -/
theorem labels_of_rises {is : List Int} {i : Int} {c : UInt32}
    (hrise : (i :: is).Pairwise (· < ·)) (hroom : c.toNat + is.length < 2 ^ 32) :
    (∀ a ∈ labels t seg (c + 1) i is, i < a.frameIdx ∧ c < a.fidx ∧
        a.ptsUs = videoPtsUs t seg a.frameIdx) ∧
      (labels t seg (c + 1) i is).Pairwise fun a b => a.frameIdx < b.frameIdx ∧ a.fidx < b.fidx := by
  induction is generalizing i c with
  | nil => simp [labels]
  | cons j is ih =>
      obtain ⟨hij, hrest⟩ := List.pairwise_cons.mp hrise
      have hlt : i < j := hij j (by simp)
      rw [List.length_cons] at hroom
      have hwrap : c.toNat + 1 < 2 ^ 32 := by omega
      have hc := (lt_add_one_iff c).mpr hwrap
      have hc' := toNat_add_one hwrap
      obtain ⟨hall, hpair⟩ := @ih j (c + 1) hrest (by omega)
      rw [labels_new _ (.inl hlt.ne')]
      refine ⟨?_, List.pairwise_cons.mpr ⟨?_, hpair⟩⟩
      · intro a ha
        rcases List.mem_cons.mp ha with rfl | ha
        · exact ⟨hlt, hc, rfl⟩
        · obtain ⟨hidx, hfidx, hpts⟩ := hall a ha
          exact ⟨hlt.trans hidx, UInt32.lt_trans hc hfidx, hpts⟩
      · intro a ha
        obtain ⟨hidx, hfidx, -⟩ := hall a ha
        exact ⟨hidx, hfidx⟩

/-- Right behind frame 0, with its number, and frames that rise. -/
theorem shared_of_rises {is : List Int} {c : UInt32} (hrise : ((0 : Int) :: is).Pairwise (· < ·))
    (hroom : c.toNat + is.length < 2 ^ 32) (hperiod : is ≠ [] → t.streamFps ≤ 1000000) :
    SharedIdentity t seg (⟨0, c, videoPtsUs t seg 0⟩ :: labels t seg (c + 1) 0 is) := by
  obtain ⟨hall, hpair⟩ := @labels_of_rises t seg is 0 c hrise hroom
  refine shared_of_rising hfps ?_ (List.pairwise_cons.mpr ⟨?_, hpair⟩) ?_
  · intro a ha
    rcases List.mem_cons.mp ha with rfl | ha
    · rfl
    · exact (hall a ha).2.2
  · exact fun a ha => ⟨(hall a ha).1, (hall a ha).2.1⟩
  · intro hlen
    refine hperiod fun hnil => ?_
    rw [hnil] at hlen
    simp [labels] at hlen

omit hfps in
theorem labels_zeros (c : UInt32) (m : Nat) (is : List Int) :
    labels t seg c 0 (List.replicate m 0 ++ is) =
      List.replicate m ⟨0, 0, 0⟩ ++ labels t seg c 0 is := by
  induction m with
  | zero => rfl
  | succ m ih => rw [List.replicate_succ, List.cons_append, labels_again _ le_rfl, ih]; rfl

omit hfps in
theorem videoPtsUs_zero : videoPtsUs t seg 0 = (seg - 1) * t.segDurationUs := by
  simp [videoPtsUs]

/-- **The labels of a segment** that begins with `m + 1` packets of frame 0. -/
theorem shared_labels_iff {count : UInt32} {m : Nat} {later : List Int}
    (hlater : ∀ i ∈ later.head?, i ≠ 0) :
    SharedIdentity t seg (labels t seg count (-1) (List.replicate (m + 1) 0 ++ later)) ↔
      FramesApart t seg count m later := by
  have hlabels : labels t seg count (-1) (List.replicate (m + 1) 0 ++ later) =
      ⟨0, count, videoPtsUs t seg 0⟩ ::
        (List.replicate m ⟨0, 0, 0⟩ ++ labels t seg (count + 1) 0 later) := by
    rw [List.replicate_succ, List.cons_append, labels_new _ (.inr (by decide)), labels_zeros]
  rw [hlabels]
  constructor
  · intro h
    have hsub := h.sublist ((List.sublist_append_right (List.replicate m ⟨0, 0, 0⟩)
      (labels t seg (count + 1) 0 later)).cons_cons ⟨0, count, videoPtsUs t seg 0⟩)
    obtain ⟨hrise, hroom, hperiod⟩ := rises_of_shared hfps le_rfl (.inr hlater) hsub
    refine ⟨hrise, fun hm => ?_, hperiod, hroom⟩
    have hmem : (⟨0, 0, 0⟩ : FrameId) ∈ ⟨0, count, videoPtsUs t seg 0⟩ ::
        (List.replicate m ⟨0, 0, 0⟩ ++ labels t seg (count + 1) 0 later) := by
      simp [hm]
    have hpts := h.pts _ hmem
    rw [videoPtsUs_zero] at hpts
    exact ⟨h.same ⟨0, count, videoPtsUs t seg 0⟩ (by simp) ⟨0, 0, 0⟩ hmem rfl, hpts.symm⟩
  · intro h
    have hone := @shared_of_rises t seg hfps _ _ h.rises h.counter h.period
    by_cases hm : m = 0
    · subst hm
      exact hone
    · -- the further packets of frame 0 carry what it should carry
      obtain ⟨rfl, hpts⟩ := h.again hm
      rw [videoPtsUs_zero, hpts] at hone ⊢
      have hunits := (@shared_perUnit t seg _ ((m + 1) :: List.replicate later.length 1)
        (by simp [length_labels]) (by simp)).mpr hone
      rw [perUnit_cons, ← @length_labels t seg (0 + 1) 0 later, perUnit_ones] at hunits
      exact hunits

end Labels

section Indices

variable {avRescaleQ : Int → TimeBase → Int → Int}

/-- Nothing is no period. -/
theorem RescalesToNearest.zero (h : RescalesToNearest avRescaleQ) {tb : TimeBase}
    (hden : 0 < tb.den) (fps : Int) : avRescaleQ 0 tb fps = 0 := by
  have hbound : |(0 : Int) * (tb.num * fps)| ≤ 2 ^ 62 * tb.den := by
    rw [zero_mul, abs_zero]
    positivity
  have hnear := h 0 tb fps hden hbound
  rw [zero_mul, sub_zero, abs_mul, abs_of_pos hden] at hnear
  by_contra hne
  -- a whole period is further away than half of one
  have hone : 1 * tb.den ≤ |avRescaleQ 0 tb fps| * tb.den :=
    mul_le_mul_of_nonneg_right (Int.one_le_abs hne) hden.le
  omega

/-- The first packet has index 0. -/
theorem frameIdxs_cons (hnear : RescalesToNearest avRescaleQ) {tb : TimeBase} (hden : 0 < tb.den)
    (pts : Int) (ptss : List Int) :
    frameIdxs avRescaleQ t tb (pts :: ptss) =
      0 :: frameIdxsFrom avRescaleQ t tb pts 1 ptss := by
  have hzero : frameIdxOf avRescaleQ t tb pts 0 pts = 0 := by
    simp [frameIdxOf, hnear.zero hden, CInt.toInt]
  rw [frameIdxs, List.headD_cons, frameIdxsFrom, hzero]

theorem length_frameIdxsFrom (tb : TimeBase) (first : Int) (k : Nat) (ptss : List Int) :
    (frameIdxsFrom avRescaleQ t tb first k ptss).length = ptss.length := by
  induction ptss generalizing k with
  | nil => rfl
  | cons pts ptss ih => simp [frameIdxsFrom, ih]

/-- A list behind its leading zeros. -/
theorem exists_zeros (is : List Int) :
    ∃ m later, is = List.replicate m 0 ++ later ∧ ∀ i ∈ later.head?, i ≠ 0 := by
  induction is with
  | nil => exact ⟨0, [], rfl, by simp⟩
  | cons i is ih =>
      by_cases hi : i = 0
      · obtain ⟨m, later, rfl, hhead⟩ := ih
        exact ⟨m + 1, later, by rw [hi, List.replicate_succ, List.cons_append], hhead⟩
      · exact ⟨0, i :: is, rfl, by simp [hi]⟩

/-- **When all units of a frame share its identity**, for every segment whose
packets have time stamps that do not go back, and at least one unit each. -/
theorem units_share_identity_iff (hnear : RescalesToNearest avRescaleQ) {tb : TimeBase} {count : UInt32} {auK : Option Int}
    {pkts : List AvPacket} {ptss : List Int} (hfps : 0 < t.streamFps) (hden : 0 < tb.den)
    (hauK : auK.getD 0 = 0) (hpts : pkts.map AvPacket.pts = ptss.map some)
    (hmono : ptss.Pairwise (· ≤ ·)) (hunits : ∀ pkt ∈ pkts, 0 < pkt.count) :
    SharedIdentity t seg
        ((dashDemuxSegment avRescaleQ t tb seg count auK pkts).map PublishedAu.id) ↔
      ptss = [] ∨ ∃ m later, frameIdxs avRescaleQ t tb ptss = List.replicate (m + 1) 0 ++ later ∧
        FramesApart t seg count m later := by
  cases ptss with
  | nil =>
      obtain rfl : pkts = [] := by simpa using hpts
      exact ⟨fun _ => .inl rfl, fun _ => ⟨by simp [dashDemuxSegment, demuxPackets],
        by simp [dashDemuxSegment, demuxPackets], .nil⟩⟩
  | cons pts ptss =>
      have hle : ∀ p ∈ pts :: ptss, pts ≤ p := by
        intro p hp
        rcases List.mem_cons.mp hp with rfl | hp
        · exact le_rfl
        · exact (List.pairwise_cons.mp hmono).1 p hp
      have hids := @ids_demuxPackets avRescaleQ t tb seg pts hfps pkts (pts :: ptss) hpts hle
        ⟨none, 0, -1, auK, count⟩ (by simp) 0 rfl hauK
      have hlen : (labels t seg count (-1) (frameIdxs avRescaleQ t tb (pts :: ptss))).length =
          (pkts.map AvPacket.count).length := by
        have hlens := congrArg List.length hpts
        rw [List.length_map, List.length_map] at hlens
        rw [length_labels, frameIdxs, length_frameIdxsFrom, List.length_map, hlens]
      have hpos : ∀ n ∈ pkts.map AvPacket.count, 0 < n := by simpa using hunits
      rw [dashDemuxSegment, hids]
      change SharedIdentity t seg
        (perUnit (labels t seg count (-1) (frameIdxs avRescaleQ t tb (pts :: ptss))) _) ↔ _
      rw [shared_perUnit hlen hpos]
      constructor
      · intro h
        obtain ⟨m, later, hzeros, hhead⟩ := exists_zeros (frameIdxsFrom avRescaleQ t tb pts 1 ptss)
        have hidxs : frameIdxs avRescaleQ t tb (pts :: ptss) = List.replicate (m + 1) 0 ++ later := by
          rw [frameIdxs_cons hnear hden, hzeros, List.replicate_succ, List.cons_append]
        rw [hidxs] at h
        exact .inr ⟨m, later, hidxs, (shared_labels_iff hfps hhead).mp h⟩
      · rintro (hnil | ⟨m, later, hidxs, h⟩)
        · cases hnil
        · have hhead : ∀ i ∈ later.head?, i ≠ 0 := by
            intro i hi
            exact ((List.pairwise_cons.mp h.rises).1 i (List.mem_of_mem_head? hi)).ne'
          rw [hidxs]
          exact (shared_labels_iff hfps hhead).mpr h

end Indices

end Shared

/-- To the nearest, halves upwards. -/
def rescaleHalfUp (a : Int) (tb : TimeBase) (fps : Int) : Int :=
  (a * (tb.num * fps) + tb.den / 2) / tb.den

theorem rescaleHalfUp_nearest : RescalesToNearest rescaleHalfUp := by
  intro a tb fps hden _
  have hdiv := Int.ediv_mul_add_emod (a * (tb.num * fps) + tb.den / 2) tb.den
  have hlo := Int.emod_nonneg (a * (tb.num * fps) + tb.den / 2) hden.ne'
  have hhi := Int.emod_lt_of_pos (a * (tb.num * fps) + tb.den / 2) hden
  have hnear : |rescaleHalfUp a tb fps * tb.den - a * (tb.num * fps)| ≤ tb.den / 2 := by
    rw [rescaleHalfUp]
    exact abs_le.mpr ⟨by omega, by omega⟩
  omega

/-- A timeline at `fps` frames a second, with segments of one second. -/
def fpsTimeline (fps : Int) : AvTimeline := ⟨fps, 1000000, 0, 1, 0, 0, 0⟩

/-- Packets with these time stamps, two units each. -/
def twoUnits (ptss : List Int) : List AvPacket :=
  ptss.map fun p => ⟨some p, [[9, 0x10], [0x41, p.toNat.toUInt8]]⟩

/-- At 24 frames a second the packets of a segment are frames of their own. -/
theorem units_share_identity_iff_film :
    SharedIdentity (fpsTimeline 24) 3
      ((dashDemuxSegment rescaleHalfUp (fpsTimeline 24) ⟨1, 24000⟩ 3 7 (some 0)
        (twoUnits [500, 1500, 2500, 3500])).map PublishedAu.id) :=
  (@units_share_identity_iff (fpsTimeline 24) 3 rescaleHalfUp rescaleHalfUp_nearest ⟨1, 24000⟩ 7
    (some 0) (twoUnits [500, 1500, 2500, 3500]) [500, 1500, 2500, 3500] (by decide) (by decide) rfl
    (by decide) (by decide) (by decide)).mpr
    (.inr ⟨0, [1, 2, 3], by decide, by decide, by decide, by decide, by decide⟩)

/-- The promise of the comments on frame identities, for every segment. -/
def UnitsShareIdentity : Prop :=
  ∀ (avRescaleQ : Int → TimeBase → Int → Int) (t : AvTimeline) (tb : TimeBase) (seg : Int)
    (count : UInt32) (auK : Option Int) (pkts : List AvPacket) (ptss : List Int),
    RescalesToNearest avRescaleQ → 0 < t.streamFps → 0 < tb.den → auK.getD 0 = 0 →
    pkts.map AvPacket.pts = ptss.map some → ptss.Pairwise (· ≤ ·) →
    (∀ pkt ∈ pkts, 0 < pkt.count) →
    SharedIdentity t seg
      ((dashDemuxSegment avRescaleQ t tb seg count auK pkts).map PublishedAu.id)

/-- The time stamps of 17 frames at 30000/1001 a second. -/
def ntscPts : List Int := (List.range 17).map fun k => 1001 * (k : Int)

/-- The manifest parser makes 29 of 30000/1001, and at that rate packets 15 and 16
both belong to frame 15: the second is published as frame 0 at time 0. -/
theorem unitsShareIdentity_fails : ¬ UnitsShareIdentity := by
  intro h
  have hntsc := h rescaleHalfUp (fpsTimeline 29) ⟨1, 30000⟩ 3 100 (some 0) (twoUnits ntscPts) ntscPts
    rescaleHalfUp_nearest (by decide) (by decide) rfl (by decide) (by decide) (by decide)
  have hpts := hntsc.pts ⟨15, 0, 0⟩ (by decide +kernel)
  exact absurd hpts (by decide)

end Vmc
