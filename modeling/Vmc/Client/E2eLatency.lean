import Vmc.Client.RttSamples

/-!
# Vmc.Client.E2eLatency

End-to-end latency of the client (`latency_record` and its caller in
`decode_worker`): the time from the sender's stamp to the hand-off, with the
stamp moved to the client's clock by the offset that `latency_update_rtt` takes
from a keepalive.

The offset assumes that a keepalive travels half the round trip each way.  If it
travelled `d1` to the simulator and `d2` back, the estimate is off by
`d1 - (d1 + d2) / 2` either way, and for a fast frame it may be negative.  The
difference is taken modulo 2^32 and read as a signed number, which is right; it
is then widened to the unsigned argument of `latency_record`, which is not.

Nor is the stamp always that of the frame handed off.  It is looked up by the
timestamp of the frame the decoder has just given, in tables that are only
written when the decoder gives one; and with a DRM display the frame handed off
is the one before.  `stampTaken` says which stamp it is, and
`e2e_accurate_iff` how far it may be off.
-/

namespace Vmc

/-! ## the estimate -/

/-- `(u64)(i32)x`. -/
def widenSigned (x : UInt32) : UInt64 := x.toInt32.toInt64.toUInt64

/-- `e2e` as `decode_worker` passes it to `latency_record`. -/
def e2eUs (tHandoff : UInt64) (realSendTs offsetUs : UInt32) : UInt64 :=
  widenSigned (tHandoff.toUInt32 - realSendTs - offsetUs)

/-- The globals `latency_record` keeps. -/
structure LatencyStats where
  latMin : UInt64
  latMax : UInt64
  latSum : UInt64
  latCnt : UInt64
  latHist : List UInt64
  decodeSum : UInt64
  decodeCnt : UInt64
  jitterSum : UInt64
  handoffSum : UInt64
  nframeCnt : UInt64
  histSize : latHist.length = 128

/-- The globals at program start. -/
def LatencyStats.zero : LatencyStats :=
  ⟨UInt64.ofNat (2 ^ 64 - 1), 0, 0, 0, List.replicate 128 0, 0, 0, 0, 0, 0, List.length_replicate⟩

/-- `latency_record`. -/
def latencyRecord (haveOffset : Bool) (g : LatencyStats)
    (e2e decodeUs jitterUs handoffUs : UInt64) : LatencyStats :=
  if !haveOffset then
    g
  else
    let bucket := (e2e / 1000).toUInt32.toNat
    let bucket := if bucket ≥ 128 then 127 else bucket
    { g with
      decodeSum := g.decodeSum + decodeUs
      decodeCnt := g.decodeCnt + 1
      jitterSum := g.jitterSum + jitterUs
      handoffSum := g.handoffSum + handoffUs
      nframeCnt := g.nframeCnt + 1
      latMin := if e2e < g.latMin then e2e else g.latMin
      latMax := if e2e > g.latMax then e2e else g.latMax
      latSum := g.latSum + e2e
      latCnt := g.latCnt + 1
      latHist := g.latHist.modify bucket (· + 1)
      histSize := by rw [List.length_modify, g.histSize] }

/-- The branch of `decode_worker` behind the hand-off of a frame. -/
def recordHandoff (lat : Latency) (g : LatencyStats) (tHandoff tDecoded : UInt64)
    (realSendTs : UInt32) (decodeUs queueUs : UInt64) : LatencyStats :=
  if lat.haveOffset then
    latencyRecord lat.haveOffset g (e2eUs tHandoff realSendTs lat.offsetUs) decodeUs queueUs
      (tHandoff - tDecoded)
  else
    g

/-! ## the sender's stamp -/

/-- `pts_seen` and `send_by_pts` of `decode_worker`. -/
structure StampTables where
  ptsSeen : Vector Nat 128
  sendByPts : Vector UInt32 128

def StampTables.zero : StampTables := ⟨Vector.replicate 128 0, Vector.replicate 128 0⟩

/-- The packet with timestamp `pts` carried the stamp `sendTs`. -/
def StampTables.note (tb : StampTables) (pts : Nat) (sendTs : UInt32) : StampTables :=
  have h : pts % 128 < 128 := Nat.mod_lt _ (by decide)
  ⟨tb.ptsSeen.set (pts % 128) pts h, tb.sendByPts.set (pts % 128) sendTs h⟩

/-- `real_send_ts` for a frame with timestamp `framePts`, given by the decoder on
a packet with stamp `sendTs`. -/
def StampTables.realSendTs (tb : StampTables) (framePts : Int) (sendTs : UInt32) : UInt32 :=
  if 0 ≤ framePts then
    have h : framePts.toNat % 128 < 128 := Nat.mod_lt _ (by decide)
    if tb.ptsSeen[framePts.toNat % 128] = framePts.toNat then
      tb.sendByPts[framePts.toNat % 128]
    else sendTs
  else sendTs

/-- What `vmc_decoder_decode` does with an access unit. -/
inductive DecodeAnswer where
  /-- It is refused before a packet is made of it. -/
  | refused
  /-- The packet gives no frame, or none that can be converted. -/
  | noFrame
  /-- `VMC_OK`, with a frame of this timestamp. -/
  | frame (pts : Int)
deriving DecidableEq, Repr

/-- One turn of `decode_worker`: the stamp in the slot, the decoder's answer,
whether a DRM buffer is free and whether the conversion gives an event, the
offset at the hand-off, and the times measured. -/
structure DecodeTurn where
  sendTs : UInt32
  answer : DecodeAnswer
  bufferFree : Bool
  ev : Bool
  lat : Latency
  tDecoded : UInt64
  tHandoff : UInt64
  decodeUs : UInt64
  queueUs : UInt64

/-- What `decode_worker` keeps from turn to turn: the decoder's `next_pts`, the
tables, the timestamp of the frame behind `g_pending_ev` while that is set, and
the statistics. -/
structure StampWorker where
  nextPts : Nat
  tables : StampTables
  pending : Option Int
  stats : LatencyStats

namespace StampWorker

def init : StampWorker := ⟨0, .zero, none, .zero⟩

/-- One turn. -/
def turn (useDrm : Bool) (s : StampWorker) (t : DecodeTurn) : StampWorker :=
  match t.answer with
  | .refused => s
  | .noFrame => { s with nextPts := s.nextPts + 1 }
  | .frame pts =>
      let tables := s.tables.note s.nextPts t.sendTs
      let stats := recordHandoff t.lat s.stats t.tHandoff t.tDecoded
        (tables.realSendTs pts t.sendTs) t.decodeUs t.queueUs
      let s := { s with nextPts := s.nextPts + 1, tables := tables }
      if useDrm then
        if t.bufferFree then
          -- the frame before this one is handed off, if its conversion gave an event
          { s with
            stats := if s.pending.isSome then stats else s.stats
            pending := if t.ev then some pts else none }
        else s
      else { s with stats := stats }

/-- The timestamp of the frame a turn hands off. -/
def handedOff (useDrm : Bool) (s : StampWorker) (t : DecodeTurn) : Option Int :=
  match t.answer with
  | .frame pts => if useDrm then (if t.bufferFree then s.pending else none) else some pts
  | _ => none

def run (useDrm : Bool) (ts : List DecodeTurn) : StampWorker := ts.foldl (turn useDrm) init

end StampWorker

/-! ## which stamp is taken -/

/-- A packet given to the decoder, and whether it answered with a frame.  Its
timestamp is its place among the packets. -/
structure DecodeCall where
  sendTs : UInt32
  ok : Bool
deriving DecidableEq, Repr

def DecodeTurn.call (t : DecodeTurn) : Option DecodeCall :=
  match t.answer with
  | .refused => none
  | .noFrame => some ⟨t.sendTs, false⟩
  | .frame _ => some ⟨t.sendTs, true⟩

/-- The packets of some turns. -/
def calls (ts : List DecodeTurn) : List DecodeCall := ts.filterMap DecodeTurn.call

/-- The last packet answered with a frame whose timestamp falls on entry `i` of
the tables, with that timestamp. -/
def lastNoted (cs : List DecodeCall) (i : Nat) : Option (DecodeCall × Nat) :=
  (cs.zipIdx.filter fun cp => cp.1.ok ∧ cp.2 % 128 = i).getLast?

/-- The stamp taken for a frame with timestamp `framePts` that is given on the
last of the packets `cs`, one with stamp `sendTs`: that of the packet with this
timestamp, if it was the last to be noted in its entry.  An entry that was never
noted holds timestamp 0 and stamp 0. -/
def stampTaken (cs : List DecodeCall) (framePts : Int) (sendTs : UInt32) : UInt32 :=
  if 0 ≤ framePts then
    let (seen, stamp) := ((lastNoted cs (framePts.toNat % 128)).map fun cp =>
      (cp.2, cp.1.sendTs)).getD (0, 0)
    if seen = framePts.toNat then stamp else sendTs
  else sendTs

/-- The stamp of the packet with this timestamp. -/
def ownStamp (cs : List DecodeCall) (pts : Int) : Option UInt32 :=
  if 0 ≤ pts then cs[pts.toNat]?.map DecodeCall.sendTs else none

/-- By how much the stamp taken in turn `t` lies behind that of the frame handed
off, as a signed number: `framePts` is the frame just given, `shownPts` the one
handed off. -/
def stampGapUs (cs : List DecodeCall) (t : DecodeTurn) (framePts shownPts : Int) : Int :=
  (stampTaken cs framePts t.sendTs - (ownStamp cs shownPts).getD 0).toInt32.toInt

/-- A decoder that gives a frame one packet late: the first frame is taken to be
stamped 0, as its packet was not noted. -/
example : stampTaken [⟨1000, false⟩, ⟨34333, true⟩] 0 34333 = 0 := by decide

/-- The tables hold what was noted last. -/
def StampTables.Holds (tb : StampTables) (cs : List DecodeCall) : Prop :=
  ∀ i (hi : i < 128), (tb.ptsSeen[i], tb.sendByPts[i]) =
    ((lastNoted cs i).map fun cp => (cp.2, cp.1.sendTs)).getD (0, 0)

theorem lastNoted_append (cs : List DecodeCall) (c : DecodeCall) (i : Nat) :
    lastNoted (cs ++ [c]) i =
      if c.ok ∧ cs.length % 128 = i then some (c, cs.length) else lastNoted cs i := by
  simp only [lastNoted, List.zipIdx_append, List.filter_append]
  by_cases h : c.ok ∧ cs.length % 128 = i
  · simp [h]
  · simp [h]

theorem holds_zero : StampTables.zero.Holds [] := by
  intro i hi
  simp [StampTables.zero, lastNoted]

theorem StampTables.Holds.note {tb : StampTables} {cs : List DecodeCall} (h : tb.Holds cs) (sendTs : UInt32) :
    (tb.note cs.length sendTs).Holds (cs ++ [⟨sendTs, true⟩]) := by
  intro i hi
  rw [lastNoted_append]
  by_cases hplace : cs.length % 128 = i
  · simp [StampTables.note, hplace]
  · simp [StampTables.note, hplace, Vector.getElem_set_ne, h i hi]

theorem StampTables.Holds.noFrame {tb : StampTables} {cs : List DecodeCall} (h : tb.Holds cs)
    (sendTs : UInt32) : tb.Holds (cs ++ [⟨sendTs, false⟩]) := by
  intro i hi
  rw [lastNoted_append, h i hi]
  simp

theorem StampTables.Holds.realSendTs {tb : StampTables} {cs : List DecodeCall} (h : tb.Holds cs)
    (framePts : Int) (sendTs : UInt32) :
    tb.realSendTs framePts sendTs = stampTaken cs framePts sendTs := by
  have hi : framePts.toNat % 128 < 128 := Nat.mod_lt _ (by decide)
  simp only [StampTables.realSendTs, stampTaken, ← h _ hi]

namespace StampWorker

/-- The worker has counted the packets and noted those that gave a frame. -/
structure Tracks (s : StampWorker) (cs : List DecodeCall) : Prop where
  nextPts : s.nextPts = cs.length
  tables : s.tables.Holds cs

theorem tracks_turn {useDrm : Bool} {s : StampWorker} {cs : List DecodeCall} (h : s.Tracks cs)
    (t : DecodeTurn) : (s.turn useDrm t).Tracks (cs ++ t.call.toList) := by
  unfold turn DecodeTurn.call
  cases t.answer with
  | refused => simpa using h
  | noFrame => exact ⟨by simp [h.nextPts], h.tables.noFrame t.sendTs⟩
  | frame pts =>
      have hnote := h.tables.note t.sendTs
      rw [← h.nextPts] at hnote
      cases useDrm with
      | false => exact ⟨by simp [h.nextPts], hnote⟩
      | true => cases t.bufferFree <;> exact ⟨by simp [h.nextPts], hnote⟩

theorem calls_append (ts : List DecodeTurn) (t : DecodeTurn) :
    calls (ts ++ [t]) = calls ts ++ t.call.toList := by
  cases h : t.call <;> simp [calls, h]

theorem tracks_run (useDrm : Bool) (ts : List DecodeTurn) : (run useDrm ts).Tracks (calls ts) := by
  induction ts using List.reverseRecOn with
  | nil => exact ⟨rfl, holds_zero⟩
  | append_singleton ts t ih =>
      rw [calls_append, run, List.foldl_append]
      exact tracks_turn ih t

/-- **A hand-off** is recorded with the stamp taken. -/
theorem stats_turn {useDrm : Bool} {ts : List DecodeTurn} {t : DecodeTurn} {framePts shownPts : Int}
    (hanswer : t.answer = .frame framePts)
    (hshown : (run useDrm ts).handedOff useDrm t = some shownPts) :
    ((run useDrm ts).turn useDrm t).stats =
      recordHandoff t.lat (run useDrm ts).stats t.tHandoff t.tDecoded
        (stampTaken (calls (ts ++ [t])) framePts t.sendTs) t.decodeUs t.queueUs := by
  have hs := tracks_run useDrm ts
  have hnote := hs.tables.note t.sendTs
  have hcalls : calls (ts ++ [t]) = calls ts ++ [⟨t.sendTs, true⟩] := by
    rw [calls_append, DecodeTurn.call, hanswer]
    rfl
  rw [hcalls, ← hnote.realSendTs, ← hs.nextPts]
  simp only [handedOff, hanswer] at hshown
  cases useDrm with
  | false => simp [turn, hanswer]
  | true =>
      cases hfree : t.bufferFree with
      | false => simp [hfree] at hshown
      | true =>
          simp only [hfree, if_true] at hshown
          simp [turn, hanswer, hfree, hshown]

end StampWorker

/-! ## the two clocks -/

/-- The client's clock, `t` microseconds after it was zero. -/
def clientClock (t : Nat) : UInt64 := UInt64.ofNat t

/-- The simulator's stamp at the same moment, at the same rate and any offset. -/
def simClock (skew : UInt32) (t : Nat) : UInt32 := UInt32.ofNat t + skew

/-- A number read as signed and widened keeps its value if it is not negative. -/
theorem toNat_widenSigned (x : UInt32) :
    (widenSigned x).toNat = if x.toNat < 2 ^ 31 then x.toNat else x.toNat + (2 ^ 64 - 2 ^ 32) := by
  have h : (widenSigned x).toNat = (x.toBitVec.signExtend 64).toNat := rfl
  have hx := x.toNat_lt
  have hset : (x.toBitVec.setWidth 64).toNat = x.toNat := by
    rw [BitVec.toNat_setWidth, UInt32.toNat_toBitVec]
    omega
  rw [h, BitVec.toNat_signExtend, hset, BitVec.msb_eq_decide, UInt32.toNat_toBitVec]
  by_cases hlt : x.toNat < 2 ^ 31
  · rw [if_pos hlt, if_neg (by simp; omega), Nat.add_zero]
  · rw [if_neg hlt, if_pos (by simp; omega)]

theorem toInt_toInt32 (x : UInt32) :
    x.toInt32.toInt = if x.toNat < 2 ^ 31 then (x.toNat : Int) else x.toNat - 2 ^ 32 := by
  have h : x.toInt32.toInt = x.toBitVec.toInt := rfl
  rw [h, BitVec.toInt_eq_toNat_cond, UInt32.toNat_toBitVec]
  split <;> split <;> omega

/-- The offset an accepted echo gives, from when it was sent and stamped. -/
theorem offsetUs_update {g : Latency} {sc : SessionCtx} {ts : UInt32} {c2 : UInt64}
    (h : RttAccepts sc.lastKaSendUs c2) :
    (latencyUpdateRtt g sc ts c2).offsetUs =
      sc.lastKaSendUs.toUInt32 + ((c2 - sc.lastKaSendUs) / 2).toUInt32 - ts := by
  have hge : ¬ c2 - sc.lastKaSendUs ≥ 1000000 := UInt64.not_le.mpr h.2
  simp only [latencyUpdateRtt, rttSample, if_neg h.1, if_neg hge, Option.getD_some]

/-- Once an echo has been accepted, every hand-off is recorded. -/
theorem recordHandoff_update {g : Latency} {sc : SessionCtx} {ts : UInt32} {c2 : UInt64}
    (h : RttAccepts sc.lastKaSendUs c2) (stats : LatencyStats) (tHandoff tDecoded : UInt64)
    (realSendTs : UInt32) (decodeUs queueUs : UInt64) :
    recordHandoff (latencyUpdateRtt g sc ts c2) stats tHandoff tDecoded realSendTs decodeUs queueUs =
      latencyRecord true stats
        (e2eUs tHandoff realSendTs (latencyUpdateRtt g sc ts c2).offsetUs) decodeUs queueUs
        (tHandoff - tDecoded) := by
  have hge : ¬ c2 - sc.lastKaSendUs ≥ 1000000 := UInt64.not_le.mpr h.2
  have hhave : (latencyUpdateRtt g sc ts c2).haveOffset = true := by
    simp only [latencyUpdateRtt, rttSample, if_neg h.1, if_neg hge, Option.getD_some]
  rw [recordHandoff, if_pos hhave, hhave]

section Estimate

variable {g : Latency} {sc : SessionCtx} {skew : UInt32} {t1 d1 d2 : Nat}
  (hsent : sc.lastKaSendUs = clientClock t1) (hrtt : d1 + d2 < 1000000)
  (hacc : RttAccepts sc.lastKaSendUs (clientClock (t1 + d1 + d2)))

include hsent hrtt hacc

/-- **What the estimate measures**: the latency, how much the keepalive's way out
was longer than half its round trip, and how far the stamp is behind. -/
theorem estimate_eq (f l : Nat) (taken : UInt32) :
    (clientClock (f + l)).toUInt32 - taken -
      (latencyUpdateRtt g sc (simClock skew (t1 + d1)) (clientClock (t1 + d1 + d2))).offsetUs =
      UInt32.ofNat l + UInt32.ofNat d1 - UInt32.ofNat ((d1 + d2) / 2) -
        (taken - simClock skew f) := by
  have hround : (clientClock (t1 + d1 + d2) - clientClock t1).toNat = d1 + d2 := by
    simp only [clientClock, UInt64.toNat_sub, UInt64.toNat_ofNat']
    omega
  have hhalf : ((clientClock (t1 + d1 + d2) - clientClock t1) / 2).toUInt32 =
      UInt32.ofNat ((d1 + d2) / 2) := by
    apply UInt32.toNat_inj.mp
    rw [UInt64.toNat_toUInt32, UInt64.toNat_div, hround, UInt32.toNat_ofNat']
    rfl
  have hclock : ∀ t, (clientClock t).toUInt32 = UInt32.ofNat t := fun t => by simp [clientClock]
  rw [offsetUs_update hacc, hsent, hhalf, hclock, hclock]
  simp only [simClock, UInt32.ofNat_add]
  -- the moments and the offset of the clocks cancel
  generalize UInt32.ofNat ((d1 + d2) / 2) = h
  grind

theorem toNat_estimate (f l : Nat) (taken : UInt32) :
    ((clientClock (f + l)).toUInt32 - taken -
      (latencyUpdateRtt g sc (simClock skew (t1 + d1)) (clientClock (t1 + d1 + d2))).offsetUs).toNat =
      (l + d1 + (2 ^ 32 - (d1 + d2) / 2) + (2 ^ 32 - (taken - simClock skew f).toNat)) % 2 ^ 32 := by
  rw [estimate_eq hsent hrtt hacc]
  simp only [UInt32.toNat_sub, UInt32.toNat_add, UInt32.toNat_ofNat']
  omega

/-- How far the recorded value is from the latency: it is within half a round
trip if the stamp is nearly that of the frame and the estimate is not
negative. -/
theorem e2eUs_close_iff (f : Nat) {l : Nat} (hl : l < 2 ^ 30) (taken : UInt32) :
    |((e2eUs (clientClock (f + l)) taken (latencyUpdateRtt g sc (simClock skew (t1 + d1))
        (clientClock (t1 + d1 + d2))).offsetUs).toNat : Int) - l| ≤ ((d1 + d2 + 1) / 2 : Nat) ↔
      -(d2 : Int) ≤ (taken - simClock skew f).toInt32.toInt ∧
        (taken - simClock skew f).toInt32.toInt ≤ d1 + (d1 + d2) % 2 ∧
        ((d1 + d2) / 2 : Nat) + (taken - simClock skew f).toInt32.toInt ≤ l + d1 := by
  rw [e2eUs, toNat_widenSigned, toNat_estimate hsent hrtt hacc f l taken, abs_le, toInt_toInt32]
  have hlt := (taken - simClock skew f).toNat_lt
  generalize (taken - simClock skew f).toNat = gap at hlt
  split <;> split <;> omega

end Estimate

/-- What a hand-off after an accepted echo records. -/
theorem StampWorker.recorded {g : Latency} {sc : SessionCtx} {ts : UInt32} {c2 : UInt64}
    (hacc : RttAccepts sc.lastKaSendUs c2) {useDrm : Bool} {turns : List DecodeTurn}
    {t : DecodeTurn} {framePts shownPts : Int} (hanswer : t.answer = .frame framePts)
    (hshown : (run useDrm turns).handedOff useDrm t = some shownPts)
    (hlat : t.lat = latencyUpdateRtt g sc ts c2) :
    let stats := (run useDrm turns).stats
    let stats' := ((run useDrm turns).turn useDrm t).stats
    let e2e := e2eUs t.tHandoff (stampTaken (calls (turns ++ [t])) framePts t.sendTs)
      (latencyUpdateRtt g sc ts c2).offsetUs
    stats' = latencyRecord true stats e2e t.decodeUs t.queueUs (t.tHandoff - t.tDecoded) ∧
      stats'.latSum - stats.latSum = e2e := by
  intro stats stats' e2e
  have hstats := stats_turn hanswer hshown
  rw [hlat, recordHandoff_update hacc] at hstats
  refine ⟨hstats, ?_⟩
  simp only [stats', hstats, latencyRecord, stats, e2e]
  grind

/-- **Accuracy of the end-to-end latency.**  A hand-off after an accepted echo is
recorded, with a value within half a round trip of the truth exactly if the
stamp taken is off by no more than the keepalive's two ways allow and the frame
was not so fast that the estimate is negative. -/
theorem e2e_accurate_iff (g : Latency) (sc : SessionCtx) (skew : UInt32) (t1 d1 d2 f l : Nat)
    (hsent : sc.lastKaSendUs = clientClock t1) (hrtt : d1 + d2 < 1000000)
    (hacc : RttAccepts sc.lastKaSendUs (clientClock (t1 + d1 + d2))) (hl : l < 2 ^ 30)
    (useDrm : Bool) (ts : List DecodeTurn) (t : DecodeTurn) (framePts shownPts : Int)
    (hanswer : t.answer = .frame framePts)
    (hshown : (StampWorker.run useDrm ts).handedOff useDrm t = some shownPts)
    (hstamp : ownStamp (calls (ts ++ [t])) shownPts = some (simClock skew f))
    (hlat : t.lat = latencyUpdateRtt g sc (simClock skew (t1 + d1)) (clientClock (t1 + d1 + d2)))
    (hhandoff : t.tHandoff = clientClock (f + l)) :
    let stats := (StampWorker.run useDrm ts).stats
    let stats' := ((StampWorker.run useDrm ts).turn useDrm t).stats
    let e2e := stats'.latSum - stats.latSum
    let gapUs := stampGapUs (calls (ts ++ [t])) t framePts shownPts
    stats' = latencyRecord true stats e2e t.decodeUs t.queueUs (t.tHandoff - t.tDecoded) ∧
      (|(e2e.toNat : Int) - l| ≤ ((d1 + d2 + 1) / 2 : Nat) ↔
        -(d2 : Int) ≤ gapUs ∧ gapUs ≤ d1 + (d1 + d2) % 2 ∧
          ((d1 + d2) / 2 : Nat) + gapUs ≤ l + d1) := by
  intro stats stats' e2e gapUs
  obtain ⟨hstats, he2e⟩ := StampWorker.recorded hacc hanswer hshown hlat
  change e2e = _ at he2e
  have hgap : gapUs = (stampTaken (calls (ts ++ [t])) framePts t.sendTs -
      simClock skew f).toInt32.toInt := by
    simp only [gapUs, stampGapUs, hstamp, Option.getD_some]
  refine ⟨by rw [he2e]; exact hstats, ?_⟩
  rw [he2e, hgap, hhandoff]
  exact e2eUs_close_iff hsent hrtt hacc f hl _

/-- A session whose last keepalive went out at one second. -/
def sentAtOneSecond : SessionCtx :=
  { vmcSessionCtxInit RttSys.thinclientConfig 0 with lastKaSendUs := clientClock 1000000 }

/-- The offset from an echo that took `d1` out and `d2` back. -/
def latAfterEcho (d1 d2 : Nat) : Latency :=
  latencyUpdateRtt ⟨0, 0, 0, false⟩ sentAtOneSecond (simClock 77 (1000000 + d1))
    (clientClock (1000000 + d1 + d2))

/-- A turn on a packet stamped at `f` whose frame `pts` is handed off `l` later. -/
def turnAt (lat : Latency) (f : Nat) (pts : Int) (l : Nat) : DecodeTurn :=
  ⟨simClock 77 f, .frame pts, true, true, lat, 0, clientClock (f + l), 0, 0⟩

/-- The echo takes 4 ms out and 2 ms back; the second frame takes 8 ms. -/
theorem e2e_accurate_iff_slow :
    let turns := [turnAt (latAfterEcho 4000 2000) 2000000 0 8000]
    let t := turnAt (latAfterEcho 4000 2000) 2033333 1 8000
    |((((StampWorker.run false turns).turn false t).stats.latSum -
        (StampWorker.run false turns).stats.latSum).toNat : Int) - 8000| ≤ 3000 :=
  (e2e_accurate_iff ⟨0, 0, 0, false⟩ sentAtOneSecond 77 1000000 4000 2000 2033333 8000 rfl
    (by decide) (by decide) (by decide) false [turnAt (latAfterEcho 4000 2000) 2000000 0 8000]
    (turnAt (latAfterEcho 4000 2000) 2033333 1 8000) 1 1 rfl rfl rfl rfl rfl).2.mpr (by decide)

/-- The promise of the comment on the measurement, for every keepalive and every
frame handed off after its echo. -/
def E2eAccurate : Prop :=
  ∀ (g : Latency) (sc : SessionCtx) (skew : UInt32) (t1 d1 d2 f l : Nat),
    sc.lastKaSendUs = clientClock t1 → d1 + d2 < 1000000 →
    RttAccepts sc.lastKaSendUs (clientClock (t1 + d1 + d2)) → t1 + d1 + d2 ≤ f + l → l < 2 ^ 30 →
    ∀ (useDrm : Bool) (ts : List DecodeTurn) (t : DecodeTurn) (framePts shownPts : Int),
    t.answer = .frame framePts →
    (StampWorker.run useDrm ts).handedOff useDrm t = some shownPts →
    ownStamp (calls (ts ++ [t])) shownPts = some (simClock skew f) →
    t.lat = latencyUpdateRtt g sc (simClock skew (t1 + d1)) (clientClock (t1 + d1 + d2)) →
    t.tHandoff = clientClock (f + l) →
    |((((StampWorker.run useDrm ts).turn useDrm t).stats.latSum -
        (StampWorker.run useDrm ts).stats.latSum).toNat : Int) - l| ≤ ((d1 + d2 + 1) / 2 : Nat)

/-- With the echo back only after 20 ms, a frame that took 5 ms is recorded with
2^64 - 5000. -/
theorem e2eAccurate_fails : ¬ E2eAccurate := by
  intro h
  have hacc : RttAccepts sentAtOneSecond.lastKaSendUs (clientClock (1000000 + 0 + 20000)) := by
    decide
  have hfast := h ⟨0, 0, 0, false⟩ sentAtOneSecond 77 1000000 0 20000 2000000 5000 rfl (by decide)
    hacc (by decide) (by decide) false [] (turnAt (latAfterEcho 0 20000) 2000000 0 5000) 0 0 rfl
    rfl rfl rfl rfl
  obtain ⟨-, he2e⟩ := @StampWorker.recorded ⟨0, 0, 0, false⟩ sentAtOneSecond _ _ hacc false []
    (turnAt (latAfterEcho 0 20000) 2000000 0 5000) 0 0 rfl rfl rfl
  rw [he2e] at hfast
  exact absurd hfast (by decide)

end Vmc
