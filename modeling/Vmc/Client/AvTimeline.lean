import Vmc.Lib.Run

/-!
# Vmc.Client.AvTimeline

The two clocks of DASH playback (`apps/thinclient/main.c`): the content
timeline video frames are stamped and scheduled on, and the mapping from wall
time to the audio content being heard.

Video time counts from absolute segment numbers, audio time from the moment
playback started; `content_clock_iff` says when the two coincide.

Microsecond counters are kept as integers: they stay far below `2^63`, so the
64-bit arithmetic of the source is exact.
-/

namespace Vmc

/-! ## the shared variables -/

/-- `g_playout_latency_us`, which is never assigned. -/
def playoutLatencyUs : Int := 85000

/-- `VMC_AUDIO_PREFILL_US`. -/
def audioPrefillUs : Int := 1000000

/-- The globals both clocks are computed from. -/
structure AvTimeline where
  streamFps : Int
  segDurationUs : Int
  anchorWallUs : Int
  anchorSeg : Int
  timelineAdjUs : Int
  audioStartWallUs : Int
  audioDelayUs : Int
deriving DecidableEq, Repr

/-! ## the content clock -/

/-- `tlm_audio_content_at_wall`: the audio content taken to be at the DAC at a
wall time. -/
def tlmAudioContentAtWall (t : AvTimeline) (wallUs : Int) : Int :=
  if t.anchorWallUs = 0 then -1
  else if t.audioStartWallUs = 0 ∨ t.audioDelayUs = 0 then
    let c := wallUs - t.anchorWallUs - playoutLatencyUs - t.timelineAdjUs
    if c < 0 then 0 else c
  else
    let c := wallUs - t.audioStartWallUs - t.audioDelayUs - t.timelineAdjUs
    if c < 0 then 0 else c

/-- The content time `dash_demux_segment` stamps on a video frame. -/
def videoPtsUs (t : AvTimeline) (seg frameIdx : Int) : Int :=
  let fp := if t.streamFps > 0 then 1000000 / t.streamFps else 16667
  (seg - 1) * t.segDurationUs + frameIdx * fp

/-- The test of the present gates: the audio has reached the frame. -/
def presentGate (t : AvTimeline) (ptsUs wallUs : Int) : Bool :=
  tlmAudioContentAtWall t wallUs ≥ ptsUs

/-- Audio playback without gaps: consecutive segments from `first` on, each
with its full duration of samples, played in real time behind a constant
delay. -/
structure AudioRun where
  t : AvTimeline
  first : Int
  count : Nat
  first_pos : 1 ≤ first
  segment_pos : 0 < t.segDurationUs
  anchored : t.anchorWallUs ≠ 0
  no_adj : t.timelineAdjUs = 0
  started : t.audioStartWallUs ≠ 0
  delay_pos : 0 < t.audioDelayUs

namespace AudioRun

/-- The segments demuxed into the FIFO, in order. -/
def segments (r : AudioRun) : List Int := (List.range r.count).map fun i : Nat => r.first + (i : Int)

end AudioRun

/-- The content time of the sample that lies `pos` microseconds behind the
first of the given segments: segment `n` begins at `(n - 1)` durations. -/
def contentOf (segDurationUs : Int) : List Int → Int → Option Int
  | [], _ => none
  | seg :: segs, pos =>
      if pos < segDurationUs then some ((seg - 1) * segDurationUs + pos)
      else contentOf segDurationUs segs (pos - segDurationUs)

/-- When the first sample reaches the DAC. -/
def AudioRun.heardFromUs (r : AudioRun) : Int := r.t.audioStartWallUs + r.t.audioDelayUs

/-- The content time of the sample at the DAC at a wall time. -/
def AudioRun.heardAt (r : AudioRun) (wallUs : Int) : Option Int :=
  contentOf r.t.segDurationUs r.segments (wallUs - r.heardFromUs)

/-- Playback has begun and the FIFO has not run dry. -/
def AudioRun.Playing (r : AudioRun) (wallUs : Int) : Prop :=
  r.heardFromUs ≤ wallUs ∧ wallUs - r.heardFromUs < r.count * r.t.segDurationUs

/-- Consecutive segments are one stretch of content. -/
theorem contentOf_consecutive (dur : Int) (n : Nat) :
    ∀ (first pos : Int), 0 ≤ pos → pos < n * dur →
      contentOf dur ((List.range n).map fun i : Nat => first + (i : Int)) pos =
        some ((first - 1) * dur + pos) := by
  induction n with
  | zero =>
      intro first pos h0 hlt
      simp at hlt
      omega
  | succ n ih =>
      intro first pos h0 hlt
      rw [List.range_succ_eq_map, List.map_cons, List.map_map, contentOf]
      by_cases hpos : pos < dur
      · rw [if_pos hpos]
        simp
      · rw [if_neg hpos]
        have hshift : ((fun i : Nat => first + (i : Int)) ∘ Nat.succ) =
            fun i : Nat => (first + 1) + (i : Int) := by
          funext i
          simp only [Function.comp, Nat.succ_eq_add_one, Nat.cast_add, Nat.cast_one]
          ring
        have hlt' : pos - dur < n * dur := by
          push_cast at hlt
          linarith
        rw [hshift, ih (first + 1) (pos - dur) (by omega) hlt']
        congr 1
        ring

theorem heardAt_eq {r : AudioRun} {wallUs : Int} (h : r.Playing wallUs) :
    r.heardAt wallUs = some ((r.first - 1) * r.t.segDurationUs + (wallUs - r.heardFromUs)) :=
  contentOf_consecutive r.t.segDurationUs r.count _ _ (by have := h.1; omega) h.2

theorem tlm_playing {r : AudioRun} {wallUs : Int} (h : r.heardFromUs ≤ wallUs) :
    tlmAudioContentAtWall r.t wallUs = wallUs - r.heardFromUs := by
  have hdelay := r.delay_pos
  unfold tlmAudioContentAtWall
  rw [if_neg r.anchored, if_neg (by have := r.started; omega)]
  simp only [r.no_adj, AudioRun.heardFromUs] at h ⊢
  rw [if_neg (by omega)]
  omega

/-- Playback that joins at the first segment starts both clocks at zero. -/
theorem offset_eq_zero_iff (r : AudioRun) :
    (r.first - 1) * r.t.segDurationUs = 0 ↔ r.first = 1 := by
  have hdur := r.segment_pos
  rw [mul_eq_zero]
  omega

/-- The promise: the content clock names the content being heard, on the
timeline video frames are stamped on. -/
def SharedTimeline : Prop :=
  ∀ (r : AudioRun) (wallUs : Int), r.Playing wallUs →
    r.heardAt wallUs = some (tlmAudioContentAtWall r.t wallUs)

/-- Playback that joins a live stream at segment 5. -/
def joinedLate : AudioRun where
  t := ⟨60, 1000000, 2000000, 5, 0, 1000000, 250000⟩
  first := 5
  count := 2
  first_pos := by decide
  segment_pos := by decide
  anchored := by decide
  no_adj := rfl
  started := by decide
  delay_pos := by decide

theorem sharedTimeline_fails : ¬ SharedTimeline := by
  intro h
  have hplay : joinedLate.Playing 1500000 := by
    constructor <;> decide
  have hclock := h joinedLate 1500000 hplay
  revert hclock
  decide

/-- **The clocks coincide exactly for playback from segment 1**: at any moment
the content clock is right, and the gate of a frame opens just when its content
is heard, if and only if the first audio segment was number 1. -/
theorem content_clock_iff (r : AudioRun) (wallUs : Int) (hplay : r.Playing wallUs) :
    (r.heardAt wallUs = some (tlmAudioContentAtWall r.t wallUs) ↔ r.first = 1) ∧
    ∀ seg k, r.heardAt wallUs = some (videoPtsUs r.t seg k) →
      ((∀ w, r.heardFromUs ≤ w →
          (presentGate r.t (videoPtsUs r.t seg k) w = true ↔ wallUs ≤ w)) ↔
        r.first = 1) := by
  have hoff := offset_eq_zero_iff r
  have hnonneg : 0 ≤ (r.first - 1) * r.t.segDurationUs :=
    mul_nonneg (by have := r.first_pos; omega) (le_of_lt r.segment_pos)
  rw [heardAt_eq hplay, tlm_playing hplay.1]
  constructor
  · rw [← hoff, Option.some_inj]
    omega
  · intro seg k hpts
    rw [← Option.some.inj hpts]
    have hgate : ∀ w, r.heardFromUs ≤ w →
        (presentGate r.t ((r.first - 1) * r.t.segDurationUs + (wallUs - r.heardFromUs)) w = true ↔
          wallUs + (r.first - 1) * r.t.segDurationUs ≤ w) := by
      intro w hw
      rw [presentGate, tlm_playing hw]
      simp only [ge_iff_le, decide_eq_true_eq]
      omega
    rw [← hoff]
    constructor
    · -- the gate of the frame being heard is open already only without an offset
      intro h
      have hopen := (hgate wallUs hplay.1).mp ((h wallUs hplay.1).mpr le_rfl)
      omega
    · intro hzero w hw
      rw [hgate w hw, hzero]
      simp

/-- Playback from segment 1. -/
def joinedFirst : AudioRun := { joinedLate with first := 1, first_pos := by decide }

theorem content_clock_iff_first :
    joinedFirst.heardAt 1500000 = some (tlmAudioContentAtWall joinedFirst.t 1500000) :=
  (content_clock_iff joinedFirst 1500000 (by constructor <;> decide)).1.mpr rfl

end Vmc
