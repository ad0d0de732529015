import Vmc.Harness.OffsetSamples
import Vmc.Harness.TheilSen

/-!
# Vmc.Harness.Gates

What the report makes of the buckets (`tools/av_harness/av_report.py`): a view of
each, the gates on a view, the run-wide blocks and the gates on these.

A gate that fails is recorded with its value, its limit and the class of the
fault.  Numbers are rationals, and `round` goes to the nearest decimal, a half to
the even one.
-/

namespace Vmc

/-! ## statistics -/

/-- Python's `round` to an integer. -/
def pyRound (x : ℚ) : ℤ :=
  if x - ⌊x⌋ < 1 / 2 then ⌊x⌋
  else if 1 / 2 < x - ⌊x⌋ then ⌊x⌋ + 1
  else if ⌊x⌋ % 2 = 0 then ⌊x⌋ else ⌊x⌋ + 1

/-- `r2` with its argument `nd`: rounded to so many decimals. -/
def r2To (nd : Nat) (x : Option ℚ) : Option ℚ := x.map fun x => pyRound (x * 10 ^ nd) / 10 ^ nd

/-- `r2`, to two decimals unless it is told otherwise. -/
def r2 (x : Option ℚ) : Option ℚ := r2To 2 x

def mean (values : List ℚ) : Option ℚ :=
  if values = [] then none else some (values.sum / values.length)

/-- `pct`; the positions read are inside the list for `p` up to 100. -/
def pct (values : List ℚ) (p : ℚ) : Option ℚ :=
  if values = [] then none
  else
    let s := values.insertionSort (· ≤ ·)
    if s.length = 1 then some (s.getD 0 0)
    else
      let k : ℚ := (s.length - 1) * (p / 100)
      if ⌊k⌋ = ⌈k⌉ then some (s.getD (pyInt k).toNat 0)
      else
        let lo := s.getD ⌊k⌋.toNat 0
        some (lo + (s.getD ⌈k⌉.toNat 0 - lo) * (k - ⌊k⌋))

/-- `slope`: least squares, for lists of one length. -/
def slope (xs ys : List ℚ) : Option ℚ :=
  if xs.length < 3 then none
  else
    let mx := xs.sum / xs.length
    let my := ys.sum / xs.length
    let den := (xs.map fun x => (x - mx) ^ 2).sum
    if den = 0 then none
    else some ((xs.zipWith (fun x y => (x - mx) * (y - my)) ys).sum / den)

/-! ## limits and faults -/

/-- `G`: the limits, which the environment may set. -/
structure GateLimits where
  avOffsetMeanAbsMs : ℚ := 10
  avOffsetP95AbsMs : ℚ := 20
  avOffsetMaxMs : ℚ := 40
  avOffsetMinMs : ℚ := -60
  avEnvelopeViolationPct : ℚ := 1 / 10
  frameYieldMin : ℚ := 995 / 1000
  frameIntervalFrac : ℚ := 1 / 10
  audioPeriodTolerance : ℚ := 5 / 1000
  audioFifoLevelMinPct : ℚ := 15
  segFetchP95Ms : ℚ := 800
  segFetchMaxMs : ℚ := 2000
  tcpRttP95Ms : ℚ := 30
  decodeP95Ms : ℚ := 15
  avDriftAbsMsPerMin : ℚ := 1 / 2
  avTotalExcursionMs : ℚ := 15
  avP95DegradeMsPerBucket : ℚ := 3 / 10
  resyncsMax : ℚ := 1
  rssGrowthMb : ℚ := 32
  fdGrowth : ℚ := 8
  diskGrowthMb : ℚ := 512
  diskFlatLastBuckets : ℤ := 10
  requireEos : ℤ := 1
  eosToleranceS : ℚ := 5
  presentDelayP95Ms : ℚ := 30000
  presentDelayGrowthMsPerMin : ℚ := 10

/-- The classes of faults. -/
inductive FaultClass where
  | environment
  | decoderUnavailable
  | network
  | decoderErrors
  | buffers
  | vsyncAsync
  | cadence
  | longrun
  | avSync
  | latency
deriving DecidableEq, Repr

/-- `FAULT_ORDER`: causes before their symptoms. -/
def faultOrder : List FaultClass :=
  [.environment, .decoderUnavailable, .network, .decoderErrors, .buffers, .vsyncAsync, .cadence,
    .longrun, .avSync, .latency]

/-- A gate that failed. -/
structure FailedGate where
  gate : String
  value : Option ℚ
  limit : ℚ
  cls : FaultClass
  bucket : Option ℤ

/-- `primary_fault`: the first class in order that failed. -/
def primaryFault (failed : List FailedGate) : Option FaultClass :=
  faultOrder.find? fun c => failed.any fun f => decide (f.cls = c)

/-! ## the view of a bucket -/

/-- What `bucket_view` returns. -/
structure BucketView where
  index : ℤ
  tStartS : Option ℚ
  spanS : Option ℚ
  complete : Bool
  frameIntervalMs : Option ℚ
  avOffsetMeanMs : Option ℚ
  avOffsetP95Ms : Option ℚ
  avOffsetMinMs : Option ℚ
  avOffsetMaxMs : Option ℚ
  avEnvelopeViolations : Nat
  avEnvelopeViolationPct : Option ℚ
  avSamples : Nat
  presentDelayMeanMs : Option ℚ
  presentDelayP95Ms : Option ℚ
  presentDelaySamples : Nat
  framesPresented : Nat
  framesExpected : ℤ
  framesDropped : ℤ
  framesRepeated : Nat
  frameIntervalP95ErrMs : Option ℚ
  audioPeriodsWritten : Nat
  audioPeriodsExpected : Option ℤ
  audioPadSamples : ℚ
  audioFifoLevelMinPct : Option ℚ
  audioFifoUnderflows : Nat
  audioFifoOverflows : Nat
  jitterBufferUnderflows : Nat
  jitterBufferOverflows : Nat
  drmPoolExhausted : Nat
  segQueueStarved : Nat
  segFetchOk : Nat
  segFetchFail : Nat
  segFetchMiss : Nat
  segFetchP95Ms : Option ℚ
  segFetchMaxMs : Option ℚ
  tcpRttP95Ms : Option ℚ
  mpdReloadFail : Nat
  resyncs : Nat
  vsyncMiss : Nat
  vsyncDup : Nat
  flipError : Nat
  flipTimeout : Nat
  drmEventStarve : Nat
  asyncCuda : Nat
  asyncCopy : Nat
  asyncStage : Nat
  clockFallback : Nat
  decodeErrors : Nat
  decoderUnavailable : Nat
  decoderReinit : Nat
  corruptFrames : Nat
  missingRef : Nat
  decodeP95Ms : Option ℚ

/-- The content and the sound of a run. -/
structure ContentParams where
  fps : ℚ
  rate : ℚ
  period : ℚ

/-- `1000.0 / fps if fps else None`. -/
def ContentParams.nominal (c : ContentParams) : Option ℚ :=
  if c.fps = 0 then none else some (1000 / c.fps)

/-- How far the intervals are off. -/
def ContentParams.intervalErrs (c : ContentParams) (intervals : List ℚ) : List ℚ :=
  match c.nominal with
  | some nominal => intervals.map fun v => |v - nominal|
  | none => []

/-- The offsets outside the envelope. -/
def GateLimits.outside (g : GateLimits) (offsets : List ℚ) : Nat :=
  offsets.countP fun o => decide (g.avOffsetMaxMs < o ∨ o < g.avOffsetMinMs)

/-- `bucket_view`. -/
def bucketView (g : GateLimits) (c : ContentParams) (b : Bucket) : BucketView where
  index := b.index
  tStartS := r2To 1 (some b.tStartS)
  spanS := r2To 1 (some b.spanS)
  complete := b.complete
  frameIntervalMs := r2To 3 c.nominal
  avOffsetMeanMs := r2 (mean b.offsets)
  avOffsetP95Ms := r2 (pct (b.offsets.map abs) 95)
  avOffsetMinMs := r2 b.offsets.min?
  avOffsetMaxMs := r2 b.offsets.max?
  avEnvelopeViolations := g.outside b.offsets
  avEnvelopeViolationPct :=
    if b.offsets = [] then none
    else r2To 3 (some (100 * g.outside b.offsets / b.offsets.length))
  avSamples := b.offsets.length
  presentDelayMeanMs := r2 (mean b.presentDelays)
  presentDelayP95Ms := r2 (pct b.presentDelays 95)
  presentDelaySamples := b.presentDelays.length
  framesPresented := b.vCount
  framesExpected := pyRound (c.fps * b.spanS)
  framesDropped := b.vDrop
  framesRepeated := b.vRepeat
  frameIntervalP95ErrMs := r2 (pct (c.intervalErrs b.intervals) 95)
  audioPeriodsWritten := b.aCount
  audioPeriodsExpected :=
    if c.period = 0 then none else some (pyRound (b.spanS * c.rate / c.period))
  audioPadSamples := b.aPad
  audioFifoLevelMinPct := r2 b.fifoMinPct
  audioFifoUnderflows := b.buf (some "audio_fifo.underflow")
  audioFifoOverflows := b.buf (some "audio_fifo.overflow")
  jitterBufferUnderflows := b.buf (some "jitter_buffer.underflow")
  jitterBufferOverflows := b.buf (some "jitter_buffer.overflow")
  drmPoolExhausted := b.buf (some "drm_pool.exhausted")
  segQueueStarved := b.buf (some "seg_queue.starved")
  segFetchOk := b.netOk
  segFetchFail := b.netFail
  segFetchMiss := b.netMiss
  segFetchP95Ms := r2 (pct b.fetchMs 95)
  segFetchMaxMs := r2 b.fetchMs.max?
  tcpRttP95Ms := r2 (pct b.rttMs 95)
  mpdReloadFail := b.sync (some "mpd_reload_fail")
  resyncs := b.sync (some "resync")
  vsyncMiss := b.sync (some "vsync_miss")
  vsyncDup := b.sync (some "vsync_dup")
  flipError := b.sync (some "flip_error")
  flipTimeout := b.sync (some "flip_timeout")
  drmEventStarve := b.sync (some "drm_event_starve")
  asyncCuda := b.sync (some "async_cuda")
  asyncCopy := b.sync (some "async_copy")
  asyncStage := b.sync (some "async_stage")
  clockFallback := b.sync (some "clock_fallback")
  decodeErrors := b.dec (some "decode_error")
  decoderUnavailable := b.dec (some "decoder_unavailable")
  decoderReinit := b.dec (some "decoder_reinit")
  corruptFrames := b.dec (some "corrupt_frame")
  missingRef := b.dec (some "missing_ref")
  decodeP95Ms := r2 (pct b.decodeMs 95)

/-! ## the gates on a view -/

/-- `ZERO_TOLERANCE`: the class, the key, and what the view has under it. -/
def zeroTolerance : List (FaultClass × String × (BucketView → ℚ)) :=
  [(.buffers, "audio_fifo_underflows", fun v => v.audioFifoUnderflows),
    (.buffers, "audio_fifo_overflows", fun v => v.audioFifoOverflows),
    (.buffers, "audio_pad_samples", fun v => v.audioPadSamples),
    (.buffers, "jitter_buffer_underflows", fun v => v.jitterBufferUnderflows),
    (.buffers, "jitter_buffer_overflows", fun v => v.jitterBufferOverflows),
    (.buffers, "drm_pool_exhausted", fun v => v.drmPoolExhausted),
    (.buffers, "seg_queue_starved", fun v => v.segQueueStarved),
    (.network, "seg_fetch_fail", fun v => v.segFetchFail),
    (.network, "seg_fetch_miss", fun v => v.segFetchMiss),
    (.network, "mpd_reload_fail", fun v => v.mpdReloadFail),
    (.vsyncAsync, "vsync_miss", fun v => v.vsyncMiss),
    (.vsyncAsync, "vsync_dup", fun v => v.vsyncDup),
    (.vsyncAsync, "flip_error", fun v => v.flipError),
    (.vsyncAsync, "flip_timeout", fun v => v.flipTimeout),
    (.vsyncAsync, "drm_event_starve", fun v => v.drmEventStarve),
    (.vsyncAsync, "async_cuda", fun v => v.asyncCuda),
    (.vsyncAsync, "async_copy", fun v => v.asyncCopy),
    (.vsyncAsync, "async_stage", fun v => v.asyncStage),
    (.vsyncAsync, "clock_fallback", fun v => v.clockFallback),
    (.cadence, "frames_dropped", fun v => v.framesDropped),
    (.cadence, "frames_repeated", fun v => v.framesRepeated),
    (.decoderErrors, "decode_errors", fun v => v.decodeErrors),
    (.decoderErrors, "decoder_reinit", fun v => v.decoderReinit),
    (.decoderErrors, "corrupt_frames", fun v => v.corruptFrames),
    (.decoderErrors, "missing_ref", fun v => v.missingRef),
    (.decoderUnavailable, "decoder_unavailable", fun v => v.decoderUnavailable)]

/-- The gates that any fault at all fails; of the tail these alone are graded. -/
def zeroFailures (v : BucketView) : List FailedGate :=
  zeroTolerance.filterMap fun z =>
    if 0 < z.2.2 v then some ⟨z.2.1, some (z.2.2 v), 0, z.1, some v.index⟩ else none

/-- A gate on a value that may be missing, failed by one above the limit. -/
def aboveLimit (gate : String) (value : Option ℚ) (limit : ℚ) (cls : FaultClass)
    (bucket : Option ℤ) : List FailedGate :=
  match value with
  | some x => if limit < x then [⟨gate, some x, limit, cls, bucket⟩] else []
  | none => []

/-- The gates on the offsets, if there are enough samples to judge by. -/
def offsetFailures (g : GateLimits) (v : BucketView) : List FailedGate :=
  if v.avSamples < 10 then [⟨"av_offset_samples", some v.avSamples, 10, .environment, some v.index⟩]
  else
    (match v.avOffsetMeanMs with
      | some m =>
        if g.avOffsetMeanAbsMs < |m| then
          [⟨"av_offset_mean_ms", some m, g.avOffsetMeanAbsMs, .avSync, some v.index⟩]
        else []
      | none => []) ++
    aboveLimit "av_offset_p95_ms" v.avOffsetP95Ms g.avOffsetP95AbsMs .avSync (some v.index) ++
    aboveLimit "av_envelope_violation_pct" v.avEnvelopeViolationPct g.avEnvelopeViolationPct .avSync
      (some v.index)

/-- The limit on the frame intervals. -/
def GateLimits.intervalLimit (g : GateLimits) (v : BucketView) : Option ℚ :=
  match v.frameIntervalMs with
  | some x => if x = 0 then none else some (g.frameIntervalFrac * x)
  | none => none

/-- The gates on the cadence of the frames and of the sound. -/
def cadenceFailures (g : GateLimits) (v : BucketView) : List FailedGate :=
  (if v.framesExpected ≠ 0 ∧ (v.framesPresented : ℚ) / v.framesExpected < g.frameYieldMin then
    [⟨"frame_yield", r2To 4 (some (v.framesPresented / v.framesExpected)), g.frameYieldMin,
      .cadence, some v.index⟩]
  else []) ++
  (match v.frameIntervalP95ErrMs with
    | none =>
      [⟨"frame_interval_p95_err_ms", none, (g.intervalLimit v).getD 0, .environment, some v.index⟩]
    | some fe =>
      match g.intervalLimit v with
      | some limit =>
        if limit ≠ 0 ∧ limit < fe then
          [⟨"frame_interval_p95_err_ms", some fe, limit, .cadence, some v.index⟩]
        else []
      | none => []) ++
  (match v.audioPeriodsExpected with
    | some n =>
      let dev := |(v.audioPeriodsWritten : ℚ) - n| / n
      if n ≠ 0 ∧ g.audioPeriodTolerance < dev then
        [⟨"audio_period_deviation", r2To 4 (some dev), g.audioPeriodTolerance, .cadence,
          some v.index⟩]
      else []
    | none => [])

/-- `gate_bucket`. -/
def gateBucket (g : GateLimits) (v : BucketView) : List FailedGate :=
  zeroFailures v ++ cadenceFailures g v ++
  (match v.audioFifoLevelMinPct with
    | some lv =>
      if lv < g.audioFifoLevelMinPct then
        [⟨"audio_fifo_level_min_pct", some lv, g.audioFifoLevelMinPct, .buffers, some v.index⟩]
      else []
    | none => []) ++
  aboveLimit "seg_fetch_p95_ms" v.segFetchP95Ms g.segFetchP95Ms .network (some v.index) ++
  aboveLimit "seg_fetch_max_ms" v.segFetchMaxMs g.segFetchMaxMs .network (some v.index) ++
  aboveLimit "tcp_rtt_p95_ms" v.tcpRttP95Ms g.tcpRttP95Ms .network (some v.index) ++
  aboveLimit "decode_p95_ms" v.decodeP95Ms g.decodeP95Ms .decoderErrors (some v.index) ++
  offsetFailures g v

/-- The gates that fail on a view, as `main` grades it. -/
def viewFailures (g : GateLimits) (v : BucketView) : List FailedGate :=
  if v.complete then gateBucket g v else zeroFailures v

end Vmc
