import Vmc.Lib.CInt
import Vmc.Lib.Epoch
import Vmc.Lib.Run

/-!
# Vmc.Client.DashReader

The inner loop of `dash_reader_direct` (`apps/thinclient/main.c`): which
segments the reader asks for and which it hands to the demuxer.

Every iteration reads the manifest again, so the window may move anyhow between
two of them.  Within an iteration the audio loop runs first, then the video
loop, which may find that the live edge fell behind what was already fetched
and start over.  `fetch_discipline` is the guarantee over whole runs: requests
stay inside the window of their iteration, and between two such resets nothing
is demuxed out of order.

`int` variables are kept as integers in the range of the type; every `+` and
`-` on them goes through `CInt.toInt`.
-/

namespace Vmc

open CInt

/-! ## the window of an iteration -/

/-- `dash_manifest`: the fields the fetch loops read. -/
structure DashManifest where
  startNumber : Int
  availStartUs : Int
  segDurationUs : Int
  durationUs : Int
  staticMpd : Bool
  start_nonneg : 0 ≤ startNumber
  start_le : startNumber ≤ intMax
  segment_pos : 0 < segDurationUs
  segment_lt : segDurationUs < 9223372036854775808

namespace DashManifest

/-- `total_segments`: the length of a play-once clip, zero while unknown. -/
def totalSegments (m : DashManifest) : Int :=
  if m.staticMpd ∧ 0 < m.durationUs ∧ 0 < m.segDurationUs then
    (toInt64 (m.durationUs + m.segDurationUs - 1)).tdiv m.segDurationUs
  else 0

/-- `live_edge`: the newest complete segment at a wall time. -/
def liveEdge (m : DashManifest) (now : Int) : Int :=
  let elapsed := toInt64 (now - m.availStartUs)
  let edge := toInt (if 0 < elapsed then elapsed.tdiv m.segDurationUs else 0)
  let edge := if edge < m.startNumber then m.startNumber else edge
  if 0 < m.totalSegments ∧ toInt m.totalSegments < edge then toInt m.totalSegments else edge

/-- A live buffer in segments, rounded up. -/
def bufferSegments (m : DashManifest) (bufferUs : UInt64) : Int :=
  toInt ((bufferUs + UInt64.ofInt m.segDurationUs - 1) / UInt64.ofInt m.segDurationUs).toNat

/-- The oldest segment of the window a buffer spans behind the live edge:
`video_target` for the video buffer, `audio_oldest` for the audio one. -/
def windowBottom (m : DashManifest) (edge : Int) (bufferUs : UInt64) : Int :=
  let bottom := toInt (edge - 1 - m.bufferSegments bufferUs)
  if bottom < m.startNumber then m.startNumber else bottom

/-- `audio_target`: the newest audio segment to fetch. -/
def audioTarget (m : DashManifest) (edge : Int) : Int :=
  if edge < m.startNumber then m.startNumber else edge

/-- `vfetch_hi`: the newest video segment to fetch, the one completing at the
next boundary. -/
def vfetchHi (m : DashManifest) (edge videoTarget : Int) : Int :=
  let hi := toInt (edge + 1)
  let hi := if hi < videoTarget then videoTarget else hi
  if 0 < m.totalSegments ∧ toInt m.totalSegments < hi then toInt m.totalSegments else hi

end DashManifest

/-! ## the reader -/

/-- What one `http_get` of a segment came to: nothing usable, or a segment that
took `fetchUs` and for which the joint buffer was or was not allocated. -/
inductive Fetch where
  | failed
  | got (fetchUs : UInt64) (whole : Bool)
deriving DecidableEq, Repr

/-- What the reader does that is visible outside. -/
inductive ReaderEvent where
  | requestAudio (n : Int)
  | demuxAudio (n : Int)
  | requestVideo (n : Int)
  | demuxVideo (n : Int)
  | reset
deriving DecidableEq, Repr

namespace ReaderEvent

/-- The live edge was found behind the high-water mark. -/
def IsReset (e : ReaderEvent) : Prop := e = reset

/-- The audio segment handed to `dash_demux_segment`. -/
def audioDemuxed : ReaderEvent → Option Int
  | demuxAudio n => some n
  | _ => none

/-- The video segment handed to `dash_demux_segment`. -/
def videoDemuxed : ReaderEvent → Option Int
  | demuxVideo n => some n
  | _ => none

end ReaderEvent

/-- What a session found out before its loop: which init segments it has. -/
structure DashSession where
  hasInitV : Bool
  hasInitA : Bool

/-- No fetched video segment is dropped for want of a joint buffer. -/
def DashSession.Keeps (c : DashSession) (fs : List Fetch) : Prop :=
  c.hasInitV = true → ∀ f ∈ fs, ∀ us, f ≠ .got us false

theorem DashSession.Keeps.tail {c : DashSession} {f : Fetch} {fs : List Fetch}
    (h : c.Keeps (f :: fs)) : c.Keeps fs :=
  fun hv f' hf' => h hv f' (List.mem_cons_of_mem f hf')

theorem DashSession.Keeps.head {c : DashSession} {us : UInt64} {whole : Bool} {fs : List Fetch}
    (h : c.Keeps (.got us whole :: fs)) : whole = true ∨ ¬ c.hasInitV = true := by
  cases whole with
  | true => exact Or.inl rfl
  | false => exact Or.inr fun hv => h hv _ List.mem_cons_self us rfl

/-- The state the loop carries from one iteration to the next. -/
structure DashReader where
  lastVnum : Int
  lastAnum : Int
  segFetchEwmaUs : UInt64
  videoLiveBufferUs : UInt64
  audioLiveBufferUs : UInt64
  eosReached : Bool
deriving DecidableEq, Repr

/-- What one iteration meets: the manifest it works with (fresh or stale), the
clock, and how each request it gets to make turns out.  A loop that outlives
its list is one that saw `g_run` cleared. -/
structure Iteration where
  m : DashManifest
  now : Int
  audio : List Fetch
  video : List Fetch

/-- `live_edge` of the iteration. -/
def Iteration.liveEdge (it : Iteration) : Int := it.m.liveEdge it.now

/-- Segment numbers far enough below `INT_MAX` that counting past the last one
asked for stays inside an `int`. -/
def Iteration.InRange (it : Iteration) : Prop :=
  it.liveEdge ≤ intMax - 2 ∧ it.m.startNumber ≤ intMax - 1

/-- `dash_buffer_grow`. -/
def dashBufferGrow (base max prefetch fetchEwma : UInt64) (segDurationUs : Int) : UInt64 :=
  let seg := UInt64.ofInt segDurationUs
  let d := base
  let d := if fetchEwma > seg / 2 then d + 1000000 else d
  let d := if fetchEwma > seg then d + 2000000 else d
  let d := if fetchEwma > seg * 2 then d + 3000000 else d
  let d := if fetchEwma > seg * 4 then d + 5000000 else d
  let d := if d > max then max else d
  if d < prefetch then prefetch else d

-- `VMC_VIDEO_TARGET_US` and so on
def videoTargetUs : UInt64 := 2000000
def videoMaxUs : UInt64 := 3000000
def videoPrefetchUs : UInt64 := 1000000
def audioTargetUs : UInt64 := 2000000
def audioMaxUs : UInt64 := 3000000
def audioPrefetchUs : UInt64 := 1000000

namespace DashReader

/-- A fresh DASH session. -/
def start : DashReader := ⟨-1, -1, 0, videoTargetUs, audioTargetUs, false⟩

/-- `dash_update_live_buffer`. -/
def updateLiveBuffer (r : DashReader) (fetchUs : UInt64) (segDurationUs : Int) : DashReader :=
  let ewma := if r.segFetchEwmaUs = 0 then fetchUs else (15 * r.segFetchEwmaUs + fetchUs) / 16
  let vdesired :=
    if ewma < UInt64.ofInt segDurationUs / 4 ∧ r.videoLiveBufferUs > videoTargetUs then
      if r.videoLiveBufferUs > videoTargetUs + 1000000 then r.videoLiveBufferUs - 1000000
      else videoTargetUs
    else dashBufferGrow videoTargetUs videoMaxUs videoPrefetchUs ewma segDurationUs
  { r with
    segFetchEwmaUs := ewma
    videoLiveBufferUs := vdesired
    audioLiveBufferUs :=
      dashBufferGrow audioTargetUs audioMaxUs audioPrefetchUs ewma segDurationUs }

/-- Where the audio loop sets in, with the `last_anum` it goes on from: behind
the last segment, or at the start of a window that has rolled past it. -/
def audioResume (start target oldest last : Int) : Int × Int :=
  let first := if last < 0 then oldest else toInt (last + 1)
  let p :=
    if first < start then
      let last := toInt (start - 1)
      let first := toInt (last + 1)
      (last, if target < first then target else first)
    else (last, first)
  (p.1, if target < p.2 then target else p.2)

/-- The audio fetch loop, from segment `seg` on; returns `last_anum`. -/
def audioLoop (target : Int) : List Fetch → Int → Int → Int × List ReaderEvent
  | [], _, last => (last, [])
  | f :: fs, seg, last =>
      if seg ≤ target ∧ ¬ (0 ≤ last ∧ seg ≤ last) then
        match f with
        | .failed => (last, [.requestAudio seg])
        | .got _ true =>
            let p := audioLoop target fs (toInt (seg + 1)) seg
            (p.1, .requestAudio seg :: .demuxAudio seg :: p.2)
        | .got _ false =>
            -- the segment is dropped, and the next one tried
            let p := audioLoop target fs (toInt (seg + 1)) last
            (p.1, .requestAudio seg :: p.2)
      else (last, [])

/-- The audio half of an iteration. -/
def fetchAudio (c : DashSession) (r : DashReader) (it : Iteration) :
    DashReader × List ReaderEvent :=
  if c.hasInitA then
    let target := it.m.audioTarget it.liveEdge
    let oldest := it.m.windowBottom it.liveEdge r.audioLiveBufferUs
    let p := audioResume it.m.startNumber target oldest r.lastAnum
    let q := audioLoop target it.audio p.2 p.1
    ({ r with lastAnum := q.1 }, q.2)
  else (r, [])

/-- The video fetch loop, from segment `vn` on. -/
def videoLoop (c : DashSession) (m : DashManifest) (hi : Int) :
    List Fetch → Int → DashReader → DashReader × List ReaderEvent
  | [], _, r => (r, [])
  | f :: fs, vn, r =>
      if vn ≤ hi then
        match f with
        | .failed => (r, [.requestVideo vn])
        | .got fetchUs whole =>
            let r := r.updateLiveBuffer fetchUs (toInt m.segDurationUs)
            let p := videoLoop c m hi fs (toInt (vn + 1)) { r with lastVnum := vn }
            -- without an init segment the fetched bytes are demuxed as they are
            if whole ∨ ¬ c.hasInitV then (p.1, .requestVideo vn :: .demuxVideo vn :: p.2)
            else (p.1, .requestVideo vn :: p.2)
      else (r, [])

/-- Where the video loop sets in, with the `last_vnum` it goes on from: the
same rolling-window guard as for audio. -/
def videoResume (start target last : Int) : Int × Int :=
  let vn := if last < 0 then target else toInt (last + 1)
  if vn < start then (toInt (start - 1), start) else (last, vn)

/-- The video half of an iteration: the reset when the live edge lies behind
the high-water mark, and the loop. -/
def fetchVideo (c : DashSession) (r : DashReader) (it : Iteration) :
    DashReader × List ReaderEvent :=
  let target := it.m.windowBottom it.liveEdge r.videoLiveBufferUs
  let hi := it.m.vfetchHi it.liveEdge target
  let p := videoResume it.m.startNumber target r.lastVnum
  if 0 ≤ p.1 ∧ hi < p.1 then
    let q := videoLoop c it.m hi it.video target { r with lastVnum := -1, lastAnum := -1 }
    (q.1, .reset :: q.2)
  else videoLoop c it.m hi it.video p.2 { r with lastVnum := p.1 }

/-- One iteration, with what it did. -/
def iteration (c : DashSession) (r : DashReader) (it : Iteration) :
    DashReader × List ReaderEvent :=
  let a := r.fetchAudio c it
  let v := a.1.fetchVideo c it
  let total := it.m.totalSegments
  let eos : Bool := it.m.staticMpd ∧ 0 < total ∧ toInt (toInt total - 1) ≤ v.1.lastVnum
  ({ v.1 with eosReached := eos }, a.2 ++ v.2)

/-- The loop: no iteration follows the one that reached the end of the clip. -/
def step (c : DashSession) (s : DashReader × List ReaderEvent) (it : Iteration) :
    Option (DashReader × List ReaderEvent) :=
  if s.1.eosReached then none
  else
    let p := s.1.iteration c it
    some (p.1, s.2 ++ p.2)

end DashReader

namespace Iteration

/-- `video_target` of the iteration. -/
def videoTarget (it : Iteration) (r : DashReader) : Int :=
  it.m.windowBottom it.liveEdge r.videoLiveBufferUs

/-- `vfetch_hi` of the iteration. -/
def vfetchHi (it : Iteration) (r : DashReader) : Int :=
  it.m.vfetchHi it.liveEdge (it.videoTarget r)

/-- `last_vnum` and `vn` behind the rolling-window guard. -/
def resume (it : Iteration) (r : DashReader) : Int × Int :=
  DashReader.videoResume it.m.startNumber (it.videoTarget r) r.lastVnum

/-- The live edge is found behind the high-water mark. -/
def Resets (it : Iteration) (r : DashReader) : Prop :=
  0 ≤ (it.resume r).1 ∧ it.vfetchHi r < (it.resume r).1

instance (it : Iteration) (r : DashReader) : Decidable (it.Resets r) := by
  unfold Resets
  infer_instance

end Iteration

namespace DashReader

variable {c : DashSession} {r : DashReader} {it : Iteration}

theorem fetchVideo_of_resets (h : it.Resets r) :
    r.fetchVideo c it =
      let q := videoLoop c it.m (it.vfetchHi r) it.video (it.videoTarget r)
        { r with lastVnum := -1, lastAnum := -1 }
      (q.1, .reset :: q.2) := if_pos h

theorem fetchVideo_of_not_resets (h : ¬ it.Resets r) :
    r.fetchVideo c it =
      videoLoop c it.m (it.vfetchHi r) it.video (it.resume r).2
        { r with lastVnum := (it.resume r).1 } := if_neg h

end DashReader

/-! ## the live buffers -/

theorem dashBufferGrow_le {base max prefetch ewma : UInt64} {seg : Int} (h : prefetch ≤ max) :
    dashBufferGrow base max prefetch ewma seg ≤ max := by
  unfold dashBufferGrow
  extract_lets s d d1 d2 d3 d4 d5
  have h5 : d5 ≤ max := by
    show (if d4 > max then max else d4) ≤ max
    by_cases hd : d4 > max
    · rw [if_pos hd]
      exact UInt64.le_refl max
    · rw [if_neg hd]
      exact UInt64.not_lt.mp hd
  by_cases hp : d5 < prefetch
  · rw [if_pos hp]
    exact h
  · rw [if_neg hp]
    exact h5

/-- Both live buffers stay within their limit of three seconds. -/
def DashReader.BuffersBounded (r : DashReader) : Prop :=
  r.videoLiveBufferUs ≤ videoMaxUs ∧ r.audioLiveBufferUs ≤ audioMaxUs

/-- Neither growing nor shrinking takes a buffer past its limit. -/
theorem buffersBounded_update {r : DashReader} (h : r.BuffersBounded) (fetchUs : UInt64)
    (seg : Int) : (r.updateLiveBuffer fetchUs seg).BuffersBounded := by
  unfold DashReader.updateLiveBuffer
  extract_lets ewma vdesired
  constructor
  · show vdesired ≤ videoMaxUs
    have hshrink : ¬ r.videoLiveBufferUs > videoTargetUs + 1000000 := UInt64.not_lt.mpr h.1
    unfold vdesired
    rw [if_neg hshrink]
    by_cases hfast : ewma < UInt64.ofInt seg / 4 ∧ r.videoLiveBufferUs > videoTargetUs
    · rw [if_pos hfast]
      decide
    · rw [if_neg hfast]
      exact dashBufferGrow_le (by decide)
  · exact dashBufferGrow_le (by decide)

/-! ## the bounds of the window -/

section Window

variable {m : DashManifest}

/-- A buffer within its limit spans at most three million segments. -/
theorem bufferSegments_range {bufferUs : UInt64} (h : bufferUs ≤ 3000000) :
    0 ≤ m.bufferSegments bufferUs ∧ m.bufferSegments bufferUs ≤ 3000000 := by
  have hpos := m.segment_pos
  have hlt := m.segment_lt
  obtain ⟨d, hd⟩ : ∃ d : Nat, m.segDurationUs = d := ⟨m.segDurationUs.toNat, by omega⟩
  have hb : bufferUs.toNat ≤ 3000000 := UInt64.le_iff_toNat_le.mp h
  have hseg : (UInt64.ofInt m.segDurationUs).toNat = d := by
    rw [hd, UInt64.ofInt, UInt64.toNat_ofNat']
    omega
  have hsum : (bufferUs + UInt64.ofInt m.segDurationUs - 1).toNat = bufferUs.toNat + d - 1 := by
    rw [UInt64.toNat_sub, UInt64.toNat_add, hseg]
    simp
    omega
  have hdiv : (bufferUs.toNat + d - 1) / d ≤ 3000000 := by
    apply Nat.div_le_of_le_mul
    omega
  unfold DashManifest.bufferSegments
  rw [UInt64.toNat_div, hsum, hseg]
  generalize (bufferUs.toNat + d - 1) / d = q at hdiv
  have hmax := intMax_eq
  rw [toInt_of_range (by omega) (by omega)]
  omega

theorem start_le_windowBottom (m : DashManifest) (edge : Int) (bufferUs : UInt64) :
    m.startNumber ≤ m.windowBottom edge bufferUs := by
  unfold DashManifest.windowBottom
  extract_lets bottom
  by_cases h : bottom < m.startNumber
  · rw [if_pos h]
  · rw [if_neg h]
    omega

theorem le_totalSegments {n : Int} (h : n ≤ intMax) (hn : n ≤ toInt m.totalSegments)
    (htotal : 0 < m.totalSegments) : n ≤ m.totalSegments := by
  have hmax := intMax_eq
  by_cases hfit : m.totalSegments ≤ intMax
  · rwa [toInt_of_range (by omega) hfit] at hn
  · omega

/-- The live edge lies inside the window unless the clip ended before it. -/
theorem liveEdge_range (m : DashManifest) (now : Int) :
    (m.startNumber ≤ m.liveEdge now ∧ (0 < m.totalSegments → m.liveEdge now ≤ toInt m.totalSegments)) ∨
    (0 < m.totalSegments ∧ m.liveEdge now = toInt m.totalSegments ∧ m.liveEdge now < m.startNumber) := by
  unfold DashManifest.liveEdge
  extract_lets elapsed edge edge'
  have hge : m.startNumber ≤ edge' := by
    show m.startNumber ≤ if edge < m.startNumber then m.startNumber else edge
    split <;> omega
  by_cases hclamp : 0 < m.totalSegments ∧ toInt m.totalSegments < edge'
  · rw [if_pos hclamp]
    omega
  · rw [if_neg hclamp]
    omega

theorem windowBottom_le_edge {edge : Int} {bufferUs : UInt64} (hb : bufferUs ≤ 3000000)
    (hge : m.startNumber ≤ edge) (hmax : edge ≤ intMax) : m.windowBottom edge bufferUs ≤ edge := by
  obtain ⟨hseg0, hseg⟩ := bufferSegments_range (m := m) hb
  have hstart := m.start_nonneg
  have hint := intMax_eq
  unfold DashManifest.windowBottom
  rw [toInt_of_range (by omega) (by omega)]
  dsimp only
  split <;> omega

theorem vfetchHi_le_edge {edge target : Int} (hedge : -1 ≤ edge) (hmax : edge ≤ intMax - 2)
    (htarget : target ≤ edge) : m.vfetchHi edge target ≤ edge + 1 := by
  have hint := intMax_eq
  unfold DashManifest.vfetchHi
  rw [toInt_of_range (x := edge + 1) (by omega) (by omega)]
  dsimp only
  split_ifs <;> omega

theorem vfetchHi_le_total (edge target : Int) (h : 0 < m.totalSegments) :
    m.vfetchHi edge target ≤ toInt m.totalSegments := by
  unfold DashManifest.vfetchHi
  extract_lets hi hi'
  split <;> omega

/-- A video segment at or above the window start and below `vfetch_hi` is at
most one past the live edge and inside a clip of known length. -/
theorem le_of_le_vfetchHi {now n : Int} {bufferUs : UInt64} (hb : bufferUs ≤ 3000000)
    (hedge : m.liveEdge now ≤ intMax - 2) (hn : m.startNumber ≤ n)
    (hhi : n ≤ m.vfetchHi (m.liveEdge now) (m.windowBottom (m.liveEdge now) bufferUs)) :
    n ≤ m.liveEdge now + 1 ∧ (0 < m.totalSegments → n ≤ toInt m.totalSegments) := by
  have hstart := m.start_nonneg
  obtain ⟨hge, -⟩ | ⟨htotal, heq, hlt⟩ := liveEdge_range m now
  · have hbottom := windowBottom_le_edge hb hge (by omega)
    have hle := vfetchHi_le_edge (m := m) (by omega) hedge hbottom
    exact ⟨by omega, fun h => le_trans hhi (vfetchHi_le_total _ _ h)⟩
  · -- the clip ended before the window: nothing lies between
    have hle := vfetchHi_le_total (m.liveEdge now) (m.windowBottom (m.liveEdge now) bufferUs) htotal
    omega

end Window

/-! ## the loops -/

namespace ReaderEvent

/-- Audio work on a segment of `[lo, hi]`. -/
def AudioIn (lo hi : Int) : ReaderEvent → Prop
  | requestAudio n => lo ≤ n ∧ n ≤ hi
  | demuxAudio n => lo ≤ n ∧ n ≤ hi
  | _ => False

/-- Video work on a segment of `[lo, hi]`. -/
def VideoIn (lo hi : Int) : ReaderEvent → Prop
  | requestVideo n => lo ≤ n ∧ n ≤ hi
  | demuxVideo n => lo ≤ n ∧ n ≤ hi
  | _ => False

theorem AudioIn.videoDemuxed {lo hi : Int} {e : ReaderEvent} (h : e.AudioIn lo hi) :
    e.videoDemuxed = none := by
  cases e <;> first | rfl | exact h.elim

theorem VideoIn.audioDemuxed {lo hi : Int} {e : ReaderEvent} (h : e.VideoIn lo hi) :
    e.audioDemuxed = none := by
  cases e <;> first | rfl | exact h.elim

end ReaderEvent

open ReaderEvent Epoch

/-- `last` is the high-water mark of what was demuxed since the last reset, and
leaves room for one more. -/
structure HighWater (val : ReaderEvent → Option Int) (t : List ReaderEvent) (last : Int) : Prop where
  upto : Upto IsReset val t last
  ge : -1 ≤ last
  lt : last < intMax

theorem HighWater.silent_all {val : ReaderEvent → Option Int} {t es : List ReaderEvent} {last : Int}
    (h : HighWater val t last) (hes : ∀ e ∈ es, val e = none) : HighWater val (t ++ es) last :=
  ⟨h.upto.silent_all hes, h.ge, h.lt⟩

/-- A segment past the mark, after its request, becomes the mark. -/
theorem HighWater.demux {val : ReaderEvent → Option Int} {t : List ReaderEvent} {last n : Int}
    (h : HighWater val t last) (req dem : ReaderEvent) (hreq : val req = none)
    (hdem : val dem = some n) (hlast : last < n) (hn : n < intMax) :
    HighWater val (t ++ [req] ++ [dem]) n :=
  ⟨(h.upto.silent hreq).number hdem hlast, by have := h.ge; omega, hn⟩

namespace DashReader

section Loops

variable {lo target : Int}

theorem mem_audioLoop (hmax : target < intMax) (hlo : 0 ≤ lo) (fs : List Fetch) :
    ∀ (seg last : Int), lo ≤ seg → ∀ e ∈ (audioLoop target fs seg last).2, e.AudioIn lo target := by
  induction fs with
  | nil =>
      intro seg last _ e he
      simp [audioLoop] at he
  | cons f fs ih =>
      intro seg last hseg e he
      unfold audioLoop at he
      by_cases hc : seg ≤ target ∧ ¬ (0 ≤ last ∧ seg ≤ last)
      · have hint := intMax_eq
        have hnext : lo ≤ toInt (seg + 1) := by
          rw [toInt_of_range (by omega) (by omega)]
          omega
        rw [if_pos hc] at he
        cases f with
        | failed =>
            obtain rfl := List.mem_singleton.mp he
            exact ⟨hseg, hc.1⟩
        | got us whole =>
            cases whole with
            | true =>
                obtain rfl | rfl | he := List.mem_cons.mp he |>.imp_right List.mem_cons.mp
                · exact ⟨hseg, hc.1⟩
                · exact ⟨hseg, hc.1⟩
                · exact ih _ _ hnext e he
            | false =>
                obtain rfl | he := List.mem_cons.mp he
                · exact ⟨hseg, hc.1⟩
                · exact ih _ _ hnext e he
      · rw [if_neg hc] at he
        simp at he

/-- The audio loop delivers in order: it stops at a segment already delivered. -/
theorem highWater_audioLoop (hmax : target < intMax) (fs : List Fetch) :
    ∀ {t : List ReaderEvent} {seg last : Int}, 0 ≤ seg → HighWater audioDemuxed t last →
      HighWater audioDemuxed (t ++ (audioLoop target fs seg last).2)
        (audioLoop target fs seg last).1 := by
  induction fs with
  | nil =>
      intro t seg last _ h
      rwa [audioLoop, List.append_nil]
  | cons f fs ih =>
      intro t seg last hseg h
      unfold audioLoop
      by_cases hc : seg ≤ target ∧ ¬ (0 ≤ last ∧ seg ≤ last)
      · have hint := intMax_eq
        have hnext : 0 ≤ toInt (seg + 1) := by
          rw [toInt_of_range (by omega) (by omega)]
          omega
        rw [if_pos hc]
        cases f with
        | failed => exact h.silent_all (by simp [audioDemuxed])
        | got us whole =>
            cases whole with
            | true =>
                have hdem := h.demux (requestAudio seg) (demuxAudio seg) rfl rfl (by omega)
                  (by omega)
                dsimp only
                rw [List.append_cons, List.append_cons]
                exact ih hnext hdem
            | false =>
                have hreq : HighWater audioDemuxed (t ++ [requestAudio seg]) last :=
                  h.silent_all (by simp [audioDemuxed])
                dsimp only
                rw [List.append_cons]
                exact ih hnext hreq
      · rw [if_neg hc, List.append_nil]
        exact h

variable {c : DashSession} {m : DashManifest} {hi : Int}

/-- The video loop leaves the audio mark alone. -/
theorem videoLoop_lastAnum (c : DashSession) (m : DashManifest) (hi : Int) (fs : List Fetch) :
    ∀ (vn : Int) (r : DashReader), (videoLoop c m hi fs vn r).1.lastAnum = r.lastAnum := by
  induction fs with
  | nil =>
      intro vn r
      rfl
  | cons f fs ih =>
      intro vn r
      unfold videoLoop
      by_cases hc : vn ≤ hi
      · rw [if_pos hc]
        cases f with
        | failed => rfl
        | got us whole =>
            dsimp only
            split <;> exact ih _ _
      · rw [if_neg hc]

/-- The video loop leaves the buffers bounded. -/
theorem videoLoop_buffers (c : DashSession) (m : DashManifest) (hi : Int) (fs : List Fetch) :
    ∀ (vn : Int) {r : DashReader}, r.BuffersBounded →
      (videoLoop c m hi fs vn r).1.BuffersBounded := by
  induction fs with
  | nil =>
      intro vn r h
      exact h
  | cons f fs ih =>
      intro vn r h
      unfold videoLoop
      by_cases hc : vn ≤ hi
      · rw [if_pos hc]
        cases f with
        | failed => exact h
        | got us whole =>
            have hrest := ih (toInt (vn + 1))
              (r := { r.updateLiveBuffer us (toInt m.segDurationUs) with lastVnum := vn })
              (buffersBounded_update h us _)
            dsimp only
            split <;> exact hrest
      · rw [if_neg hc]
        exact h

theorem mem_videoLoop (hlo : 0 ≤ lo) (hmax : ∀ n, lo ≤ n → n ≤ hi → n < intMax) (fs : List Fetch) :
    ∀ {vn : Int} {r : DashReader}, lo ≤ vn →
      ∀ e ∈ (videoLoop c m hi fs vn r).2, e.VideoIn lo hi := by
  induction fs with
  | nil =>
      intro vn r _ e he
      simp [videoLoop] at he
  | cons f fs ih =>
      intro vn r hvn e he
      unfold videoLoop at he
      by_cases hc : vn ≤ hi
      · have hint := intMax_eq
        have hlt := hmax vn hvn hc
        have hnext : lo ≤ toInt (vn + 1) := by
          rw [toInt_of_range (by omega) (by omega)]
          omega
        rw [if_pos hc] at he
        cases f with
        | failed =>
            obtain rfl := List.mem_singleton.mp he
            exact ⟨hvn, hc⟩
        | got us whole =>
            dsimp only at he
            split at he
            · obtain rfl | rfl | he := List.mem_cons.mp he |>.imp_right List.mem_cons.mp
              · exact ⟨hvn, hc⟩
              · exact ⟨hvn, hc⟩
              · exact ih hnext e he
            · obtain rfl | he := List.mem_cons.mp he
              · exact ⟨hvn, hc⟩
              · exact ih hnext e he
      · rw [if_neg hc] at he
        simp at he

/-- The video loop runs upward from above the mark. -/
theorem highWater_videoLoop (hlo : 0 ≤ lo) (hmax : ∀ n, lo ≤ n → n ≤ hi → n < intMax)
    (fs : List Fetch) :
    ∀ {t : List ReaderEvent} {vn : Int} {r : DashReader}, lo ≤ vn → r.lastVnum < vn →
      HighWater videoDemuxed t r.lastVnum →
      HighWater videoDemuxed (t ++ (videoLoop c m hi fs vn r).2)
        (videoLoop c m hi fs vn r).1.lastVnum := by
  induction fs with
  | nil =>
      intro t vn r _ _ h
      rwa [videoLoop, List.append_nil]
  | cons f fs ih =>
      intro t vn r hvn hlast h
      unfold videoLoop
      by_cases hc : vn ≤ hi
      · have hint := intMax_eq
        have hlt := hmax vn hvn hc
        have hnext : toInt (vn + 1) = vn + 1 := toInt_of_range (by omega) (by omega)
        rw [if_pos hc, hnext]
        cases f with
        | failed => exact h.silent_all (by simp [videoDemuxed])
        | got us whole =>
            dsimp only
            split
            · have hdem := h.demux (requestVideo vn) (demuxVideo vn) rfl rfl hlast hlt
              rw [List.append_cons, List.append_cons]
              exact ih (by omega) (by dsimp only; omega) hdem
            · -- the mark also passes a segment that could not be demuxed
              have hreq : HighWater videoDemuxed (t ++ [requestVideo vn]) vn :=
                ⟨(h.upto.silent rfl).mono (le_of_lt hlast), by omega, hlt⟩
              rw [List.append_cons]
              exact ih (by omega) (by dsimp only; omega) hreq
      · rw [if_neg hc, List.append_nil]
        exact h

end Loops

/-! ## one iteration -/

/-- Where the audio loop resumes: inside the window, the mark not lowered. -/
theorem audioResume_spec {start target oldest last : Int} (hstart : 0 ≤ start)
    (htarget : start ≤ target) (hmax : target < intMax) (holdest : start ≤ oldest)
    (hge : -1 ≤ last) (hlt : last < intMax) :
    last ≤ (audioResume start target oldest last).1 ∧
      (audioResume start target oldest last).1 < intMax ∧
      start ≤ (audioResume start target oldest last).2 := by
  have hint := intMax_eq
  unfold audioResume
  dsimp only
  rw [toInt_of_range (x := last + 1) (by omega) (by omega),
    toInt_of_range (x := start - 1) (by omega) (by omega), sub_add_cancel,
    toInt_of_range (x := start) (by omega) (by omega)]
  by_cases hjump : (if last < 0 then oldest else last + 1) < start
  · rw [if_pos hjump]
    dsimp only
    split at hjump
    · omega
    · split_ifs <;> omega
  · rw [if_neg hjump]
    dsimp only
    split_ifs at hjump ⊢ <;> omega

/-- Where the video loop resumes: inside the window, above a mark not lowered. -/
theorem videoResume_spec {start target last : Int} (hstart : 0 ≤ start) (hmax : start ≤ intMax)
    (htarget : start ≤ target) (hge : -1 ≤ last) (hlt : last < intMax) :
    last ≤ (videoResume start target last).1 ∧ (videoResume start target last).1 < intMax ∧
      start ≤ (videoResume start target last).2 ∧
      (videoResume start target last).1 < (videoResume start target last).2 := by
  have hint := intMax_eq
  unfold videoResume
  dsimp only
  rw [toInt_of_range (x := last + 1) (by omega) (by omega),
    toInt_of_range (x := start - 1) (by omega) (by omega)]
  by_cases hfresh : last < 0
  · rw [if_pos hfresh, if_neg (by omega)]
    dsimp only
    omega
  · rw [if_neg hfresh]
    split <;> dsimp only <;> omega

theorem audioLoop_silent (target : Int) (fs : List Fetch) :
    ∀ (seg last : Int), ∀ e ∈ (audioLoop target fs seg last).2, e.videoDemuxed = none := by
  induction fs with
  | nil =>
      intro seg last e he
      simp [audioLoop] at he
  | cons f fs ih =>
      intro seg last e he
      unfold audioLoop at he
      by_cases hc : seg ≤ target ∧ ¬ (0 ≤ last ∧ seg ≤ last)
      · rw [if_pos hc] at he
        match f with
        | .failed =>
            obtain rfl := List.mem_singleton.mp he
            rfl
        | .got _ true =>
            obtain rfl | rfl | he := List.mem_cons.mp he |>.imp_right List.mem_cons.mp
            · rfl
            · rfl
            · exact ih _ _ e he
        | .got _ false =>
            obtain rfl | he := List.mem_cons.mp he
            · rfl
            · exact ih _ _ e he
      · rw [if_neg hc] at he
        simp at he

/-- The audio half touches the audio mark only and demuxes no video. -/
theorem fetchAudio_frame (c : DashSession) (r : DashReader) (it : Iteration) :
    (∃ n, (r.fetchAudio c it).1 = { r with lastAnum := n }) ∧
      ∀ e ∈ (r.fetchAudio c it).2, e.videoDemuxed = none := by
  unfold fetchAudio
  split
  · exact ⟨⟨_, rfl⟩, audioLoop_silent _ _ _ _⟩
  · exact ⟨⟨r.lastAnum, rfl⟩, by simp⟩

/-- Where a session goes on from: with the guard not taken, the segment after
the mark, or the bottom of the window. -/
theorem resume_of_not_rolled (it : Iteration) {r : DashReader}
    (hlt : r.lastVnum < intMax)
    (h : ¬ (0 ≤ r.lastVnum ∧ r.lastVnum + 1 < it.m.startNumber)) :
    (it.resume r).1 = r.lastVnum ∧ it.m.startNumber ≤ (it.resume r).2 ∧
      (0 ≤ r.lastVnum → (it.resume r).2 = r.lastVnum + 1) := by
  have hint := intMax_eq
  have htarget : it.m.startNumber ≤ it.videoTarget r := start_le_windowBottom _ _ _
  unfold Iteration.resume videoResume
  dsimp only
  by_cases hfresh : r.lastVnum < 0
  · rw [if_pos hfresh, if_neg (by omega)]
    exact ⟨rfl, htarget, fun _ => by omega⟩
  · rw [if_neg hfresh, toInt_of_range (x := r.lastVnum + 1) (by omega) (by omega),
      if_neg (by omega)]
    exact ⟨rfl, by dsimp only; omega, fun _ => rfl⟩

/-- What holds between iterations: both marks are high-water marks of the trace
so far, and the buffers are within their limits. -/
structure Inv (r : DashReader) (t : List ReaderEvent) : Prop where
  video : HighWater videoDemuxed t r.lastVnum
  audio : HighWater audioDemuxed t r.lastAnum
  buffers : r.BuffersBounded

variable {c : DashSession} {r : DashReader} {t : List ReaderEvent} {it : Iteration}

theorem fetchAudio_spec (h : Inv r t) (hit : it.InRange) :
    Inv (r.fetchAudio c it).1 (t ++ (r.fetchAudio c it).2) ∧
      ∀ e ∈ (r.fetchAudio c it).2, e.AudioIn it.m.startNumber (it.m.audioTarget it.liveEdge) := by
  unfold fetchAudio
  by_cases hc : c.hasInitA = true
  · rw [if_pos hc]
    have hstart := it.m.start_nonneg
    obtain ⟨hedge, hsn⟩ := hit
    have htarget : it.m.startNumber ≤ it.m.audioTarget it.liveEdge := by
      unfold DashManifest.audioTarget
      split <;> omega
    have hmax : it.m.audioTarget it.liveEdge < intMax := by
      unfold DashManifest.audioTarget
      split <;> omega
    obtain ⟨hle, hlt, hseg⟩ := audioResume_spec hstart htarget hmax
      (start_le_windowBottom it.m it.liveEdge r.audioLiveBufferUs)
      h.audio.ge h.audio.lt
    have hmark := h.audio.ge
    have hmem := mem_audioLoop hmax hstart it.audio _
      (audioResume it.m.startNumber (it.m.audioTarget it.liveEdge)
        (it.m.windowBottom it.liveEdge r.audioLiveBufferUs) r.lastAnum).1 hseg
    refine ⟨⟨?_, ?_, h.buffers⟩, hmem⟩
    · exact h.video.silent_all fun e he => (hmem e he).videoDemuxed
    · exact highWater_audioLoop hmax it.audio (by omega) ⟨h.audio.upto.mono hle, by omega, hlt⟩
  · rw [if_neg hc, List.append_nil]
    exact ⟨h, by simp⟩

/-- The video loop of an iteration keeps the invariant, from wherever above the
mark it sets in. -/
theorem inv_videoLoop {bufferUs : UInt64} (hb : bufferUs ≤ 3000000) (h : Inv r t)
    (hit : it.InRange) {vn : Int} (hvn : it.m.startNumber ≤ vn) (hlast : r.lastVnum < vn)
    {hi : Int} (hhi : hi = it.m.vfetchHi it.liveEdge (it.m.windowBottom it.liveEdge bufferUs)) :
    Inv (videoLoop c it.m hi it.video vn r).1 (t ++ (videoLoop c it.m hi it.video vn r).2) ∧
      ∀ e ∈ (videoLoop c it.m hi it.video vn r).2, e.VideoIn it.m.startNumber hi := by
  subst hhi
  have hmax : ∀ n, it.m.startNumber ≤ n →
      n ≤ it.m.vfetchHi it.liveEdge (it.m.windowBottom it.liveEdge bufferUs) → n < intMax := by
    intro n hn hle
    have hedge := hit.1
    have hbound := (le_of_le_vfetchHi hb hedge hn hle).1
    unfold Iteration.liveEdge at hedge
    omega
  have hmem := mem_videoLoop (c := c) (m := it.m) it.m.start_nonneg hmax it.video (r := r) hvn
  have hbuf := videoLoop_buffers c it.m
    (it.m.vfetchHi it.liveEdge (it.m.windowBottom it.liveEdge bufferUs)) it.video vn h.buffers
  refine ⟨⟨?_, ?_, hbuf⟩, hmem⟩
  · exact highWater_videoLoop it.m.start_nonneg hmax it.video hvn hlast h.video
  · show HighWater audioDemuxed _ _
    rw [videoLoop_lastAnum]
    exact h.audio.silent_all fun e he => (hmem e he).audioDemuxed

theorem fetchVideo_spec (h : Inv r t) (hit : it.InRange) :
    Inv (r.fetchVideo c it).1 (t ++ (r.fetchVideo c it).2) ∧
      ∀ e ∈ (r.fetchVideo c it).2, e = reset ∨ e.VideoIn it.m.startNumber
        (it.m.vfetchHi it.liveEdge (it.m.windowBottom it.liveEdge r.videoLiveBufferUs)) := by
  have hstart := it.m.start_nonneg
  have hsn := hit.2
  have hb : r.videoLiveBufferUs ≤ 3000000 := h.buffers.1
  have htarget := start_le_windowBottom it.m it.liveEdge r.videoLiveBufferUs
  obtain ⟨hle, hlt, hvn, hlast⟩ := videoResume_spec hstart it.m.start_le htarget
    h.video.ge h.video.lt
  have hge := h.video.ge
  unfold fetchVideo
  extract_lets target hi p
  by_cases hreset : 0 ≤ p.1 ∧ hi < p.1
  · rw [if_pos hreset]
    have hcut : Inv { r with lastVnum := -1, lastAnum := -1 } (t ++ [reset]) :=
      ⟨⟨h.video.upto.cut rfl, le_refl (-1), neg_one_lt_intMax⟩,
        ⟨h.audio.upto.cut rfl, le_refl (-1), neg_one_lt_intMax⟩, h.buffers⟩
    obtain ⟨hinv, hmem⟩ := inv_videoLoop (c := c) hb hcut hit htarget (by dsimp only; omega) rfl
    constructor
    · show Inv _ (t ++ reset :: _)
      rw [List.append_cons]
      exact hinv
    · intro e he
      exact (List.mem_cons.mp he).imp_right (hmem e)
  · rw [if_neg hreset]
    have hjump : Inv { r with lastVnum := p.1 } t :=
      ⟨⟨h.video.upto.mono hle, le_trans hge hle, hlt⟩, h.audio, h.buffers⟩
    obtain ⟨hinv, hmem⟩ := inv_videoLoop (c := c) hb hjump hit hvn hlast rfl
    exact ⟨hinv, fun e he => Or.inr (hmem e he)⟩

theorem inv_iteration (h : Inv r t) (hit : it.InRange) :
    Inv (r.iteration c it).1 (t ++ (r.iteration c it).2) := by
  have hv := (fetchVideo_spec (c := c) (fetchAudio_spec (c := c) h hit).1 hit).1
  rw [List.append_assoc] at hv
  exact ⟨hv.video, hv.audio, hv.buffers⟩

theorem of_step {s s' : DashReader × List ReaderEvent} (h : step c s it = some s') :
    s' = ((s.1.iteration c it).1, s.2 ++ (s.1.iteration c it).2) := by
  unfold step at h
  by_cases heos : s.1.eosReached = true
  · rw [if_pos heos] at h
    contradiction
  · rw [if_neg heos] at h
    exact (Option.some.inj h).symm

/-- A whole run keeps the invariant. -/
theorem inv_exec {its : List Iteration} {s : DashReader × List ReaderEvent}
    (hits : ∀ it ∈ its, it.InRange) (h : Run.exec (step c) (start, []) its = some s) :
    Inv s.1 s.2 := by
  have hstart : Inv start [] := by
    constructor
    · exact ⟨upto_nil, le_refl (-1), neg_one_lt_intMax⟩
    · exact ⟨upto_nil, le_refl (-1), neg_one_lt_intMax⟩
    · exact ⟨by decide, by decide⟩
  refine Run.exec_invariant (fun s : DashReader × List ReaderEvent => Inv s.1 s.2) ?_ hstart
    ((Run.along_true _ its).and_mem hits) h
  intro s it s' hs hit hstep
  obtain rfl := of_step hstep
  exact inv_iteration hs hit.2

end DashReader

/-! ## requests stay inside the window -/

/-- What an iteration may ask for: video up to the segment in progress, audio
up to the live edge, and nothing past the end of a clip whose end is taken to
be `known`. -/
def Iteration.Admits (it : Iteration) (known : Prop) : ReaderEvent → Prop
  | .requestVideo n =>
      it.m.startNumber ≤ n ∧ n ≤ it.liveEdge + 1 ∧
        (known → it.m.startNumber ≤ it.m.totalSegments → n ≤ it.m.totalSegments)
  | .requestAudio n =>
      it.m.startNumber ≤ n ∧ n ≤ max it.liveEdge it.m.startNumber ∧
        (known → it.m.startNumber ≤ it.m.totalSegments → n ≤ it.m.totalSegments)
  | _ => True

section Requests

variable {it : Iteration} {e : ReaderEvent}

theorem admits_of_audioIn (hit : it.InRange)
    (h : e.AudioIn it.m.startNumber (it.m.audioTarget it.liveEdge)) :
    it.Admits (0 < it.m.totalSegments) e := by
  cases e with
  | requestAudio n =>
      obtain ⟨hlo, hhi⟩ := h
      have hmax : n ≤ max it.liveEdge it.m.startNumber := by
        unfold DashManifest.audioTarget at hhi
        split at hhi <;> omega
      refine ⟨hlo, hmax, fun htotal hstart => ?_⟩
      obtain ⟨hedge, hsn⟩ := hit
      obtain ⟨-, hle⟩ | ⟨-, heq, hlt⟩ := liveEdge_range it.m it.now
      · by_cases hn : n ≤ it.liveEdge
        · exact le_totalSegments (by omega) (le_trans hn (hle htotal)) htotal
        · omega
      · unfold Iteration.liveEdge at hmax
        omega
  | demuxAudio n => trivial
  | requestVideo n => exact h.elim
  | demuxVideo n => trivial
  | reset => trivial

theorem admits_of_videoIn {bufferUs : UInt64} (hb : bufferUs ≤ 3000000) (hit : it.InRange)
    (h : e.VideoIn it.m.startNumber
      (it.m.vfetchHi it.liveEdge (it.m.windowBottom it.liveEdge bufferUs))) :
    it.Admits (0 < it.m.totalSegments) e := by
  cases e with
  | requestVideo n =>
      obtain ⟨hlo, hhi⟩ := h
      obtain ⟨hedge, hsn⟩ := hit
      obtain ⟨hle, htotal⟩ := le_of_le_vfetchHi hb hedge hlo hhi
      refine ⟨hlo, hle, fun hpos _ => le_totalSegments ?_ (htotal hpos) hpos⟩
      unfold Iteration.liveEdge at hedge
      omega
  | requestAudio n => exact h.elim
  | demuxAudio n => trivial
  | demuxVideo n => trivial
  | reset => trivial

end Requests

/-- The promise, for the iterations that satisfy `ok` and the clips whose end
is `known`: between two resets nothing is demuxed out of order, and every
request lies in the window of its iteration. -/
def FetchDiscipline (ok known : Iteration → Prop) : Prop :=
  ∀ (c : DashSession) (its : List Iteration) (s : DashReader × List ReaderEvent),
    (∀ it ∈ its, ok it) → Run.exec (DashReader.step c) (DashReader.start, []) its = some s →
    Increasing IsReset videoDemuxed s.2 ∧ Increasing IsReset audioDemuxed s.2 ∧
      ∀ it, ok it → s.1.eosReached = false →
        ∀ e ∈ (s.1.iteration c it).2, it.Admits (known it) e

/-- The quotient the live edge is computed from fits in an `int`. -/
def Iteration.Fits (it : Iteration) : Prop :=
  -intMax - 1 ≤ (it.now - it.m.availStartUs).tdiv it.m.segDurationUs ∧
    (it.now - it.m.availStartUs).tdiv it.m.segDurationUs ≤ intMax

/-- A manifest of one-second segments that are available from time 0 on. -/
def DashManifest.oneSecond (start : UInt16) (durationUs : Int) (staticMpd : Bool) :
    DashManifest where
  startNumber := start.toNat
  availStartUs := 0
  segDurationUs := 1000000
  durationUs := durationUs
  staticMpd := staticMpd
  start_nonneg := Int.natCast_nonneg _
  start_le := by
    have h := start.toNat_lt
    rw [intMax_eq]
    omega
  segment_pos := by decide
  segment_lt := by decide

/-- A static manifest without a duration: the end of the clip is not known. -/
def unknownLength : Iteration where
  m := ⟨0, 0, 1000000, 0, true, by decide, by decide, by decide, by decide⟩
  now := 5000000
  audio := []
  video := [.failed]

/-- The live edge at `INT_MAX - 1`, and every fetch succeeds. -/
def lastNumbers : Iteration where
  m := ⟨0, 0, 2000000, 0, false, by decide, by decide, by decide, by decide⟩
  now := 2147483646 * 2000000
  audio := []
  video := List.replicate 5 (.got 0 true)

/-- A window that starts at `INT_MAX`, past the end of its clip. -/
def lastStart : Iteration where
  m := ⟨2147483647, 0, 1000000, 1, true, by decide, by decide, by decide, by decide⟩
  now := 0
  audio := [.got 0 false, .failed]
  video := []

/-- The promise fails for a clip of unknown length, which is not clamped, and
for numbers so near `INT_MAX` that the loops count past it: there the request
after the last one is for a negative segment. -/
theorem fetchDiscipline_fails :
    ¬ FetchDiscipline Iteration.Fits (fun it => it.m.staticMpd = true) ∧
    ¬ FetchDiscipline Iteration.Fits (fun it => 0 < it.m.totalSegments) ∧
    ¬ FetchDiscipline (fun it => it.Fits ∧ it.liveEdge ≤ intMax - 2)
        (fun it => 0 < it.m.totalSegments) := by
  refine ⟨fun h => ?_, fun h => ?_, fun h => ?_⟩
  · have hreq := (h ⟨true, true⟩ [] _ (by simp) rfl).2.2 unknownLength (by constructor <;> decide)
      rfl (.requestVideo 2) (by decide)
    exact absurd (hreq.2.2 rfl (by decide)) (by decide)
  · have hreq := (h ⟨true, true⟩ [] _ (by simp) rfl).2.2 lastNumbers (by constructor <;> decide)
      rfl (.requestVideo (-2147483648)) (by decide +kernel)
    exact absurd hreq.1 (by decide)
  · have hreq := (h ⟨true, true⟩ [] _ (by simp) rfl).2.2 lastStart
      ⟨by constructor <;> decide, by decide⟩ rfl (.requestAudio (-2147483648)) (by decide)
    exact absurd hreq.1 (by decide)

/-- **Fetch discipline.**  In every run of the reader, whatever the manifests,
the clock and the fate of each request: between two resets the video segments
handed to the demuxer strictly increase, and so do the audio ones; and each
iteration, in whatever state the run has come to, asks only for segments of its
own window. -/
theorem fetch_discipline (c : DashSession) (its : List Iteration)
    (s : DashReader × List ReaderEvent) (hits : ∀ it ∈ its, it.InRange)
    (h : Run.exec (DashReader.step c) (DashReader.start, []) its = some s) :
    Increasing IsReset videoDemuxed s.2 ∧ Increasing IsReset audioDemuxed s.2 ∧
      ∀ it : Iteration, it.InRange → s.1.eosReached = false →
        ∀ e ∈ (s.1.iteration c it).2, it.Admits (0 < it.m.totalSegments) e := by
  have hinv := DashReader.inv_exec hits h
  refine ⟨hinv.video.upto.increasing, hinv.audio.upto.increasing, ?_⟩
  intro it hit _ e he
  obtain ⟨ha, hamem⟩ := DashReader.fetchAudio_spec (c := c) hinv hit
  obtain ⟨-, hvmem⟩ := DashReader.fetchVideo_spec (c := c) ha hit
  obtain he | he := List.mem_append.mp he
  · exact admits_of_audioIn hit (hamem e he)
  · obtain rfl | he := hvmem e he
    · trivial
    · exact admits_of_videoIn ha.buffers.1 hit he

/-- A live stream ten segments in, and the same server after a restart. -/
def beforeRestart : Iteration where
  m := ⟨1, 0, 1000000, 0, false, by decide, by decide, by decide, by decide⟩
  now := 10000000
  audio := List.replicate 6 (.got 1000 true)
  video := List.replicate 6 (.got 1000 true)

def afterRestart : Iteration := { beforeRestart with now := 3000000 }

/-- What the reader has done after both. -/
def restarted : DashReader × List ReaderEvent :=
  (Run.exec (DashReader.step ⟨true, true⟩) (DashReader.start, []) [beforeRestart, afterRestart]).getD
    (DashReader.start, [])

theorem fetch_discipline_restart :
    ReaderEvent.reset ∈ restarted.2 ∧ Increasing IsReset videoDemuxed restarted.2 ∧
      Increasing IsReset audioDemuxed restarted.2 ∧
      ∀ e ∈ (restarted.1.iteration ⟨true, true⟩ beforeRestart).2,
        beforeRestart.Admits (0 < beforeRestart.m.totalSegments) e := by
  have hbefore : beforeRestart.InRange := ⟨by decide, by decide⟩
  have hafter : afterRestart.InRange := ⟨by decide, by decide⟩
  obtain ⟨hv, ha, hreq⟩ := fetch_discipline ⟨true, true⟩ [beforeRestart, afterRestart] restarted
    (by simp [hbefore, hafter]) rfl
  exact ⟨by decide +kernel, hv, ha, hreq beforeRestart hbefore (by decide +kernel)⟩

end Vmc
