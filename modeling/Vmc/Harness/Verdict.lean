import Vmc.Harness.Gates

/-!
# Vmc.Harness.Verdict

The report as a whole (`tools/av_harness/av_report.py`, `main`): from the lines of
the telemetry to the verdict.

The verdict, the primary fault and the failed gates tell the same story
(`verdict_coherent`).
-/

namespace Vmc

/-! ## the run-wide blocks -/

/-- The blocks `aggregate` returns, in one. -/
structure Aggregate where
  avOffsetMeanMs : Option ℚ
  avOffsetP95Ms : Option ℚ
  avOffsetMinMs : Option ℚ
  avOffsetMaxMs : Option ℚ
  avOffsetDriftMsPerMin : Option ℚ
  avEnvelopeViolations : Nat
  samples : Nat
  framesPresented : Nat
  framesExpected : ℤ
  framesDropped : ℤ
  framesRepeated : Nat
  frameIntervalP95ErrMs : Option ℚ
  audioPeriodsWritten : Nat
  audioPeriodsExpected : ℤ
  audioFifoUnderflows : Nat
  audioFifoOverflows : Nat
  audioPadSamples : ℚ
  audioFifoLevelMinPct : Option ℚ
  jitterBufferUnderflows : Nat
  jitterBufferOverflows : Nat
  drmPoolExhausted : Nat
  segQueueStarved : Nat
  segFetchOk : Nat
  segFetchFail : Nat
  segFetchMiss : Nat
  segFetchMeanMs : Option ℚ
  segFetchP95Ms : Option ℚ
  segFetchMaxMs : Option ℚ
  tcpRttP95Ms : Option ℚ
  mpdReloadFail : Nat
  resyncs : Nat
  vsyncMiss : Nat
  vsyncDup : Nat
  flipError : Nat
  flipTimeout : Nat
  drmEventStarve : Nat
  asyncCuda : Nat
  asyncCopy : Nat
  asyncStage : Nat
  clockFallback : Nat
  decodeErrors : Nat
  decoderUnavailable : Nat
  decoderReinit : Nat
  corruptFrames : Nat
  missingRef : Nat
  decodeMeanMs : Option ℚ
  decodeP95Ms : Option ℚ
  presentDelayMeanMs : Option ℚ
  presentDelayP95Ms : Option ℚ
  presentDelaySamples : Nat

/-- `s(key)` of `aggregate`. -/
def total {M : Type} [AddCommMonoid M] (f : BucketView → M) (views : List BucketView) : M :=
  (views.map f).sum

/-- `aggregate`: sums over all buckets, the tail included. -/
def aggregate (c : ContentParams) (views : List BucketView) (buckets : List Bucket) : Aggregate :=
  let offsets := buckets.flatMap Bucket.offsets
  let fetch := buckets.flatMap Bucket.fetchMs
  let dec := buckets.flatMap Bucket.decodeMs
  let delays := buckets.flatMap Bucket.presentDelays
  { avOffsetMeanMs := r2 (mean offsets)
    avOffsetP95Ms := r2 (pct (offsets.map abs) 95)
    avOffsetMinMs := r2 offsets.min?
    avOffsetMaxMs := r2 offsets.max?
    avOffsetDriftMsPerMin :=
      r2 ((slope (buckets.flatMap Bucket.offsetTimes) offsets).map fun sl => sl * 60)
    avEnvelopeViolations := total BucketView.avEnvelopeViolations views
    samples := offsets.length
    framesPresented := total BucketView.framesPresented views
    framesExpected := total BucketView.framesExpected views
    framesDropped := total BucketView.framesDropped views
    framesRepeated := total BucketView.framesRepeated views
    frameIntervalP95ErrMs :=
      r2 (pct (buckets.flatMap fun b => c.intervalErrs b.intervals) 95)
    audioPeriodsWritten := total BucketView.audioPeriodsWritten views
    audioPeriodsExpected := total (fun v => v.audioPeriodsExpected.getD 0) views
    audioFifoUnderflows := total BucketView.audioFifoUnderflows views
    audioFifoOverflows := total BucketView.audioFifoOverflows views
    audioPadSamples := total BucketView.audioPadSamples views
    audioFifoLevelMinPct := r2 (views.filterMap BucketView.audioFifoLevelMinPct).min?
    jitterBufferUnderflows := total BucketView.jitterBufferUnderflows views
    jitterBufferOverflows := total BucketView.jitterBufferOverflows views
    drmPoolExhausted := total BucketView.drmPoolExhausted views
    segQueueStarved := total BucketView.segQueueStarved views
    segFetchOk := total BucketView.segFetchOk views
    segFetchFail := total BucketView.segFetchFail views
    segFetchMiss := total BucketView.segFetchMiss views
    segFetchMeanMs := r2 (mean fetch)
    segFetchP95Ms := r2 (pct fetch 95)
    segFetchMaxMs := r2 fetch.max?
    tcpRttP95Ms := r2 (pct (buckets.flatMap Bucket.rttMs) 95)
    mpdReloadFail := total BucketView.mpdReloadFail views
    resyncs := total BucketView.resyncs views
    vsyncMiss := total BucketView.vsyncMiss views
    vsyncDup := total BucketView.vsyncDup views
    flipError := total BucketView.flipError views
    flipTimeout := total BucketView.flipTimeout views
    drmEventStarve := total BucketView.drmEventStarve views
    asyncCuda := total BucketView.asyncCuda views
    asyncCopy := total BucketView.asyncCopy views
    asyncStage := total BucketView.asyncStage views
    clockFallback := total BucketView.clockFallback views
    decodeErrors := total BucketView.decodeErrors views
    decoderUnavailable := total BucketView.decoderUnavailable views
    decoderReinit := total BucketView.decoderReinit views
    corruptFrames := total BucketView.corruptFrames views
    missingRef := total BucketView.missingRef views
    decodeMeanMs := r2 (mean dec)
    decodeP95Ms := r2 (pct dec 95)
    presentDelayMeanMs := r2 (mean delays)
    presentDelayP95Ms := r2 (pct delays 95)
    presentDelaySamples := delays.length }

/-! ## the long stretch -/

/-- A `res` sample; it counts as taken at 0 if it does not say when. -/
structure ResSample where
  elapsedS : ℚ
  rssKb : Option ℚ
  fds : Option ℚ
  diskMb : Option ℚ

/-- `load_resources`: in order of time. -/
def loadResources (rows : List ResSample) : List ResSample :=
  rows.insertionSort fun a b => a.elapsedS ≤ b.elapsedS

/-- `rows[-k:]`. -/
def pyTail {α : Type} (k : ℤ) (rows : List α) : List α :=
  if 0 < k then rows.drop (rows.length - k.toNat) else rows.drop (-k).toNat

/-- The values of the long stretch that are gated or reported. -/
structure LongRun where
  bucketsTotal : Nat
  bucketsPassed : Nat
  bucketsFailed : Nat
  worstBucket : Option ℤ
  avOffsetDriftMsPerMin : Option ℚ
  avOffsetDriftLsMsPerMin : Option ℚ
  avOffsetTotalExcursionMs : Option ℚ
  avP95DegradeMsPerBucket : Option ℚ
  avOffsetBucketMeansMs : List (Option ℚ)
  presentDelayBucketMeansMs : List (Option ℚ)
  presentDelayGrowthMsPerMin : Option ℚ
  rssStartMb : Option ℚ
  rssEndMb : Option ℚ
  rssGrowthMb : Option ℚ
  fdStart : Option ℚ
  fdEnd : Option ℚ
  fdGrowth : Option ℚ
  diskStartMb : Option ℚ
  diskEndMb : Option ℚ
  diskGrowthMb : Option ℚ
  diskGrowthLastBucketsMb : Option ℚ
  eosReached : Bool
  eosAtS : Option ℚ
  playbackSpanS : Option ℚ
  clipDurationS : ℚ

/-- `theil_sen` of a series against its positions. -/
def trend (ys : List ℚ) : Option ℚ :=
  theilSen ((List.range ys.length).map fun i : Nat => (i : ℚ)) ys

/-- The excursion between start and end: of the medians of three minutes each, or
of one minute each in a short run. -/
def excursion (means : List ℚ) : Option ℚ :=
  if 6 ≤ means.length then
    match median (means.drop (means.length - 3)), median (means.take 3) with
    | some last, some first => some |last - first|
    | _, _ => none
  else if 2 ≤ means.length then some |means.getLastD 0 - means.headD 0|
  else none

/-- The difference of two values neither of which is missing. -/
def growth (first last : Option ℚ) : Option ℚ :=
  match first, last with
  | some a, some b => some (b - a)
  | _, _ => none

/-- A value that is neither missing nor zero. -/
def truthy (x : Option ℚ) : Option ℚ := if x = some 0 then none else x

/-- The view with the most failed gates, the first of these. -/
def worst (g : GateLimits) (views : List BucketView) : Option BucketView :=
  views.foldl (fun best v =>
    match best with
    | none => some v
    | some b =>
      if (viewFailures g b).length < (viewFailures g v).length then some v else some b) none

/-- `longrun_block`. -/
def longrunBlock (g : GateLimits) (views : List BucketView) (agg : Aggregate)
    (rows : List ResSample) (clipDurationS : ℚ) (eosRel : Option ℚ) (spanS : ℚ) : LongRun :=
  let complete := views.filter BucketView.complete
  let means := complete.filterMap BucketView.avOffsetMeanMs
  let lagMeans := complete.filterMap BucketView.presentDelayMeanMs
  let failed := complete.filter fun v => !(viewFailures g v).isEmpty
  let res := loadResources rows
  let rss0 := res.head?.bind ResSample.rssKb
  let rss1 := res.getLast?.bind ResSample.rssKb
  let disk0 := res.head?.bind ResSample.diskMb
  let disk1 := res.getLast?.bind ResSample.diskMb
  let fd0 := res.head?.bind ResSample.fds
  let fd1 := res.getLast?.bind ResSample.fds
  let tail := (pyTail g.diskFlatLastBuckets res).filterMap ResSample.diskMb
  { bucketsTotal := complete.length
    bucketsPassed := complete.length - failed.length
    bucketsFailed := failed.length
    worstBucket := if failed = [] then none else (worst g complete).map BucketView.index
    avOffsetDriftMsPerMin := r2 (trend means)
    avOffsetDriftLsMsPerMin := agg.avOffsetDriftMsPerMin
    avOffsetTotalExcursionMs := r2 (excursion means)
    avP95DegradeMsPerBucket := r2 (trend (complete.filterMap BucketView.avOffsetP95Ms))
    avOffsetBucketMeansMs := means.map fun m => r2 (some m)
    presentDelayBucketMeansMs := lagMeans.map fun m => r2 (some m)
    presentDelayGrowthMsPerMin := r2 (trend lagMeans)
    rssStartMb := r2 ((truthy rss0).map (· / 1024))
    rssEndMb := r2 ((truthy rss1).map (· / 1024))
    rssGrowthMb := r2 ((growth (truthy rss0) (truthy rss1)).map (· / 1024))
    fdStart := fd0
    fdEnd := fd1
    fdGrowth := growth fd0 fd1
    diskStartMb := r2 disk0
    diskEndMb := r2 disk1
    diskGrowthMb := r2 (growth disk0 disk1)
    diskGrowthLastBucketsMb :=
      if 3 ≤ tail.length then r2 (growth tail.head? tail.getLast?) else none
    eosReached := eosRel.isSome
    eosAtS := r2 eosRel
    playbackSpanS := r2 (some spanS)
    clipDurationS := clipDurationS }

/-- A gate on a value whose absence is a fault of the environment. -/
def requiredLimit (gate : String) (value : Option ℚ) (limit : ℚ) (cls : FaultClass) :
    List FailedGate :=
  match value with
  | none => [⟨gate, none, limit, .environment, none⟩]
  | some _ => aboveLimit gate value limit cls none

/-- The gates on the drift, which only a long stretch is graded by. -/
def driftFailures (g : GateLimits) (lr : LongRun) : List FailedGate :=
  (match lr.avOffsetDriftMsPerMin with
    | none => [⟨"av_offset_drift_ms_per_min", none, g.avDriftAbsMsPerMin, .environment, none⟩]
    | some d =>
      if g.avDriftAbsMsPerMin < |d| then
        [⟨"av_offset_drift_ms_per_min", some d, g.avDriftAbsMsPerMin, .longrun, none⟩]
      else []) ++
  aboveLimit "av_offset_total_excursion_ms" lr.avOffsetTotalExcursionMs g.avTotalExcursionMs
    .longrun none ++
  aboveLimit "av_p95_degrade_ms_per_bucket" lr.avP95DegradeMsPerBucket g.avP95DegradeMsPerBucket
    .longrun none

/-- The gates on whether the clip was played to its end. -/
def completionFailures (g : GateLimits) (lr : LongRun) : List FailedGate :=
  if lr.eosReached = false then [⟨"eos_reached", some 0, 1, .longrun, none⟩]
  else if lr.clipDurationS = 0 then []
  else
    let short := lr.clipDurationS - lr.playbackSpanS.getD 0
    if g.eosToleranceS < short then
      [⟨"stream_ended_early_s", r2 (some short), g.eosToleranceS, .longrun, none⟩]
    else []

/-- `gate_run`. -/
def gateRun (g : GateLimits) (lr : LongRun) (agg : Aggregate) (tier : String) : List FailedGate :=
  let drift := tier = "full" ∧ 5 ≤ lr.bucketsTotal
  (if drift then driftFailures g lr else []) ++
  (if agg.presentDelaySamples ≠ 0 then
    aboveLimit "present_delay_p95_ms" agg.presentDelayP95Ms g.presentDelayP95Ms .latency none ++
    (if drift then
      requiredLimit "present_delay_growth_ms_per_min" lr.presentDelayGrowthMsPerMin
        g.presentDelayGrowthMsPerMin .latency
    else [])
  else []) ++
  aboveLimit "resyncs" (some agg.resyncs) g.resyncsMax .network none ++
  requiredLimit "rss_growth_mb" lr.rssGrowthMb g.rssGrowthMb .longrun ++
  requiredLimit "fd_growth" lr.fdGrowth g.fdGrowth .longrun ++
  requiredLimit "disk_growth_mb" lr.diskGrowthMb g.diskGrowthMb .longrun ++
  aboveLimit "disk_growth_last_buckets_mb" lr.diskGrowthLastBucketsMb (g.diskGrowthMb / 4) .longrun
    none ++
  (if tier = "full" ∧ g.requireEos ≠ 0 then completionFailures g lr else []) ++
  (if lr.bucketsTotal = 0 then [⟨"buckets_total", some 0, 1, .environment, none⟩] else [])

/-! ## the report -/

inductive Verdict where
  | pass
  | fail
  | error
deriving DecidableEq, Repr

/-- What `main` takes from the run's meta data. -/
structure ReportMeta extends RunMeta where
  content : ContentParams
  tier : String
  clipDurationS : ℚ

/-- What is written; without telemetry there are no blocks. -/
structure AvReport where
  verdict : Verdict
  primaryFault : Option FaultClass
  failedGates : List FailedGate
  buckets : List BucketView
  blocks : Option (Aggregate × LongRun)

/-- The checks of `main` on its own input: restarts of the encoder, and a harness
that is broken. -/
def sanityFailures (m : ReportMeta) (agg : Aggregate) (lr : LongRun) (spanS : ℚ)
    (srv : List (Option String)) : List FailedGate :=
  let restarts := srv.count (some "encoder_restart")
  let expected := ⌊m.windowS.getD spanS / m.bucketS⌋
  (if restarts ≠ 0 then [⟨"server_encoder_restart", some restarts, 0, .longrun, none⟩] else []) ++
  (if agg.framesPresented = 0 then [⟨"frames_presented", some 0, 1, .environment, none⟩] else []) ++
  (if agg.audioPeriodsWritten = 0 then [⟨"audio_periods_written", some 0, 1, .environment, none⟩]
  else []) ++
  (if (lr.bucketsTotal : ℤ) < expected then
    [⟨"buckets_total", some lr.bucketsTotal, expected, .environment, none⟩]
  else [])

/-- The verdict on what failed. -/
def grade (agg : Aggregate) (failed : List FailedGate) : Verdict × Option FaultClass :=
  if 0 < agg.decoderUnavailable then (.error, some .decoderUnavailable)
  else if primaryFault failed = some .environment then (.error, primaryFault failed)
  else if failed ≠ [] then (.fail, primaryFault failed)
  else (.pass, primaryFault failed)

/-- The report on buckets that have been filled. -/
def reportOn (g : GateLimits) (m : ReportMeta) (acc : ReportAcc) (spanS : ℚ)
    (buckets : List Bucket) (rows : List ResSample) (srv : List (Option String)) : AvReport :=
  let views := buckets.map (bucketView g m.content)
  let agg := aggregate m.content views buckets
  let contentEndS : ℚ := if acc.maxPts ≠ 0 then acc.maxPts / 1000000 else spanS
  let lr := longrunBlock g views agg rows m.clipDurationS acc.eos contentEndS
  let failed := views.flatMap (viewFailures g) ++ gateRun g lr agg m.tier ++
    sanityFailures m agg lr spanS srv
  ⟨(grade agg failed).1, (grade agg failed).2, failed, views, some (agg, lr)⟩

/-- `main`: none where the script raises. -/
def avReport (g : GateLimits) (m : ReportMeta) (events : List TlmEvent) (rows : List ResSample)
    (srv : List (Option String)) : Option AvReport :=
  match findT0 events with
  | none =>
    some ⟨.error, some .environment, [⟨"telemetry_present", some 0, 1, .environment, none⟩], [],
      none⟩
  | some t =>
    (reportBuckets m.toRunMeta events).map fun buckets =>
      reportOn g m (buildBuckets (m.params t) events) ((t.2 - t.1) / 1000000) buckets rows srv

/-! ## faults and verdict -/

theorem cls_mem_faultOrder (c : FaultClass) : c ∈ faultOrder := by
  cases c <;> decide

/-- The primary fault is the class of a failed gate, and none of a gate before it
in order. -/
theorem primaryFault_spec {failed : List FailedGate} {c : FaultClass}
    (h : primaryFault failed = some c) :
    (∃ f ∈ failed, f.cls = c) ∧
      ∀ f ∈ failed, faultOrder.idxOf c ≤ faultOrder.idxOf f.cls := by
  obtain ⟨hany, before, after, horder, hnone⟩ := List.find?_eq_some_iff_append.mp h
  obtain ⟨f, hf, hcls⟩ := List.any_eq_true.mp hany
  refine ⟨⟨f, hf, of_decide_eq_true hcls⟩, fun f' hf' => ?_⟩
  have hbefore : ∀ a ∈ before, ¬ ∃ f ∈ failed, f.cls = a := by
    rintro a ha ⟨f, hf, hfa⟩
    have hnot := hnone a ha
    rw [Bool.not_eq_true', List.any_eq_false] at hnot
    exact hnot f hf (decide_eq_true hfa)
  have hc : c ∉ before := fun hmem => hbefore c hmem ⟨f, hf, of_decide_eq_true hcls⟩
  have hf'cls : f'.cls ∉ before := fun hmem => hbefore f'.cls hmem ⟨f', hf', rfl⟩
  rw [horder, List.idxOf_append_of_notMem hc, List.idxOf_append_of_notMem hf'cls,
    List.idxOf_cons_self]
  omega

theorem primaryFault_eq_none_iff {failed : List FailedGate} :
    primaryFault failed = none ↔ failed = [] := by
  constructor
  · intro h
    rw [List.eq_nil_iff_forall_not_mem]
    intro f hf
    have hnot := List.find?_eq_none.mp h f.cls (cls_mem_faultOrder f.cls)
    exact hnot (List.any_eq_true.mpr ⟨f, hf, decide_eq_true rfl⟩)
  · rintro rfl
    rfl

/-- None of the gates is the one on a missing decoder. -/
def NotUnavailable (fs : List FailedGate) : Prop := ∀ f ∈ fs, f.cls ≠ .decoderUnavailable

@[simp] theorem notUnavailable_nil : NotUnavailable [] := fun _ hf => absurd hf List.not_mem_nil

@[simp] theorem notUnavailable_one {f : FailedGate} :
    NotUnavailable [f] ↔ f.cls ≠ .decoderUnavailable := List.forall_mem_singleton

@[simp] theorem notUnavailable_append {fs gs : List FailedGate} :
    NotUnavailable (fs ++ gs) ↔ NotUnavailable fs ∧ NotUnavailable gs := List.forall_mem_append

theorem notUnavailable_ite {P : Prop} [Decidable P] {fs gs : List FailedGate}
    (h : NotUnavailable fs) (h' : NotUnavailable gs) : NotUnavailable (if P then fs else gs) := by
  split_ifs
  · exact h
  · exact h'

theorem notUnavailable_aboveLimit {gate : String} {value : Option ℚ} {limit : ℚ} {cls : FaultClass}
    {bucket : Option ℤ} (h : cls ≠ .decoderUnavailable) :
    NotUnavailable (aboveLimit gate value limit cls bucket) := by
  unfold aboveLimit
  split
  · exact notUnavailable_ite (notUnavailable_one.mpr h) notUnavailable_nil
  · exact notUnavailable_nil

theorem notUnavailable_requiredLimit {gate : String} {value : Option ℚ} {limit : ℚ}
    {cls : FaultClass} (h : cls ≠ .decoderUnavailable) :
    NotUnavailable (requiredLimit gate value limit cls) := by
  unfold requiredLimit
  split
  · simp
  · exact notUnavailable_aboveLimit h

theorem notUnavailable_cadence (g : GateLimits) (v : BucketView) :
    NotUnavailable (cadenceFailures g v) := by
  unfold cadenceFailures
  rw [notUnavailable_append, notUnavailable_append]
  refine ⟨⟨notUnavailable_ite (by simp) (by simp), ?_⟩, ?_⟩
  · split
    · simp
    · split
      · exact notUnavailable_ite (by simp) (by simp)
      · simp
  · split
    · exact notUnavailable_ite (by simp) (by simp)
    · simp

theorem notUnavailable_offset (g : GateLimits) (v : BucketView) :
    NotUnavailable (offsetFailures g v) := by
  unfold offsetFailures
  refine notUnavailable_ite (by simp) ?_
  rw [notUnavailable_append, notUnavailable_append]
  refine ⟨⟨?_, notUnavailable_aboveLimit (by decide)⟩, notUnavailable_aboveLimit (by decide)⟩
  split
  · exact notUnavailable_ite (by simp) (by simp)
  · simp

/-- The gates on a view are those of zero tolerance and others. -/
theorem viewFailures_eq (g : GateLimits) (v : BucketView) :
    ∃ fs, viewFailures g v = zeroFailures v ++ fs ∧ NotUnavailable fs := by
  unfold viewFailures
  split_ifs
  · unfold gateBucket
    simp only [List.append_assoc]
    refine ⟨_, rfl, ?_⟩
    simp only [notUnavailable_append]
    refine ⟨notUnavailable_cadence g v, ?_, notUnavailable_aboveLimit (by decide),
      notUnavailable_aboveLimit (by decide), notUnavailable_aboveLimit (by decide),
      notUnavailable_aboveLimit (by decide), notUnavailable_offset g v⟩
    split
    · exact notUnavailable_ite (by simp) (by simp)
    · simp
  · exact ⟨[], (List.append_nil _).symm, notUnavailable_nil⟩

theorem notUnavailable_gateRun (g : GateLimits) (lr : LongRun) (agg : Aggregate) (tier : String) :
    NotUnavailable (gateRun g lr agg tier) := by
  unfold gateRun
  simp only [notUnavailable_append]
  refine ⟨⟨⟨⟨⟨⟨⟨⟨?_, ?_⟩, notUnavailable_aboveLimit (by decide)⟩,
    notUnavailable_requiredLimit (by decide)⟩, notUnavailable_requiredLimit (by decide)⟩,
    notUnavailable_requiredLimit (by decide)⟩, notUnavailable_aboveLimit (by decide)⟩, ?_⟩,
    notUnavailable_ite (by simp) (by simp)⟩
  · refine notUnavailable_ite ?_ notUnavailable_nil
    unfold driftFailures
    rw [notUnavailable_append, notUnavailable_append]
    refine ⟨⟨?_, notUnavailable_aboveLimit (by decide)⟩, notUnavailable_aboveLimit (by decide)⟩
    split
    · simp
    · exact notUnavailable_ite (by simp) (by simp)
  · refine notUnavailable_ite ?_ notUnavailable_nil
    rw [notUnavailable_append]
    exact ⟨notUnavailable_aboveLimit (by decide),
      notUnavailable_ite (notUnavailable_requiredLimit (by decide)) notUnavailable_nil⟩
  · refine notUnavailable_ite ?_ notUnavailable_nil
    unfold completionFailures
    exact notUnavailable_ite (by simp)
      (notUnavailable_ite (by simp) (notUnavailable_ite (by simp) (by simp)))

theorem notUnavailable_sanity (m : ReportMeta) (agg : Aggregate) (lr : LongRun) (spanS : ℚ)
    (srv : List (Option String)) : NotUnavailable (sanityFailures m agg lr spanS srv) := by
  unfold sanityFailures
  simp only [notUnavailable_append]
  exact ⟨⟨⟨notUnavailable_ite (by simp) (by simp), notUnavailable_ite (by simp) (by simp)⟩,
    notUnavailable_ite (by simp) (by simp)⟩, notUnavailable_ite (by simp) (by simp)⟩

/-- What fails the gate of zero tolerance on a count. -/
theorem mem_zeroFailures {v : BucketView} {f : FailedGate} :
    f ∈ zeroFailures v ↔ ∃ z ∈ zeroTolerance, 0 < z.2.2 v ∧
      f = ⟨z.2.1, some (z.2.2 v), 0, z.1, some v.index⟩ := by
  simp only [zeroFailures, List.mem_filterMap]
  refine exists_congr fun z => and_congr_right fun _ => ?_
  split_ifs with hpos
  · simp [hpos, eq_comm]
  · simp [hpos]

theorem unavailable_of_zeroTolerance {z : FaultClass × String × (BucketView → ℚ)}
    (hz : z ∈ zeroTolerance) (hcls : z.1 = .decoderUnavailable) (v : BucketView) :
    z.2.2 v = v.decoderUnavailable := by
  have hall : ∀ z ∈ zeroTolerance, z.1 = .decoderUnavailable →
      z.2.2 v = v.decoderUnavailable := by
    simp [zeroTolerance]
  exact hall z hz hcls

/-- The gate on a missing decoder fails exactly if one was missed in the run. -/
theorem unavailable_iff (g : GateLimits) (views : List BucketView) :
    (∃ f ∈ views.flatMap (viewFailures g), f.cls = .decoderUnavailable) ↔
      0 < total BucketView.decoderUnavailable views := by
  rw [total, Nat.pos_iff_ne_zero, ne_eq, List.sum_eq_zero_iff]
  constructor
  · rintro ⟨f, hf, hcls⟩ hzero
    obtain ⟨v, hv, hfv⟩ := List.mem_flatMap.mp hf
    obtain ⟨fs, heq, hothers⟩ := viewFailures_eq g v
    rw [heq, List.mem_append] at hfv
    obtain hfv | hfv := hfv
    · obtain ⟨z, hz, hpos, rfl⟩ := mem_zeroFailures.mp hfv
      have hv0 := hzero v.decoderUnavailable (List.mem_map_of_mem hv)
      rw [unavailable_of_zeroTolerance hz hcls, hv0] at hpos
      exact lt_irrefl _ (Nat.cast_pos.mp hpos)
    · exact hothers f hfv hcls
  · intro hpos
    by_contra hnone
    refine hpos fun x hx => ?_
    obtain ⟨v, hv, rfl⟩ := List.mem_map.mp hx
    by_contra hne
    have hz : (.decoderUnavailable, "decoder_unavailable",
        fun v : BucketView => (v.decoderUnavailable : ℚ)) ∈ zeroTolerance := by
      simp [zeroTolerance]
    obtain ⟨fs, heq, -⟩ := viewFailures_eq g v
    refine hnone ⟨⟨"decoder_unavailable", some v.decoderUnavailable, 0, .decoderUnavailable,
      some v.index⟩, List.mem_flatMap.mpr ⟨v, hv, ?_⟩, rfl⟩
    rw [heq, List.mem_append]
    exact .inl (mem_zeroFailures.mpr ⟨_, hz, Nat.cast_pos.mpr (Nat.pos_of_ne_zero hne), rfl⟩)

/-- What the grade says of the gates that failed, if it knows of a missing
decoder when one did. -/
theorem grade_spec {agg : Aggregate} {failed : List FailedGate}
    (h : (∃ f ∈ failed, f.cls = .decoderUnavailable) ↔ 0 < agg.decoderUnavailable) :
    ((grade agg failed).1 = .pass ↔ failed = []) ∧
      ((grade agg failed).2 = none ↔ failed = []) ∧
      ((grade agg failed).1 = .error ↔ (grade agg failed).2 = some .environment ∨
        (grade agg failed).2 = some .decoderUnavailable) ∧
      ∀ c, (grade agg failed).2 = some c → (∃ f ∈ failed, f.cls = c) ∧
        (c ≠ .decoderUnavailable → ∀ f ∈ failed, faultOrder.idxOf c ≤ faultOrder.idxOf f.cls) := by
  unfold grade
  split_ifs with hdec henv hne
  · obtain ⟨f, hf, hcls⟩ := h.mpr hdec
    have hfailed : failed ≠ [] := List.ne_nil_of_mem hf
    refine ⟨by simp [hfailed], by simp [hfailed], by simp, fun c hc => ?_⟩
    obtain rfl := Option.some.inj hc
    exact ⟨⟨f, hf, hcls⟩, fun hself => absurd rfl hself⟩
  · obtain ⟨⟨f, hf, hcls⟩, hleast⟩ := primaryFault_spec henv
    have hfailed : failed ≠ [] := List.ne_nil_of_mem hf
    refine ⟨by simp [hfailed], by simp [henv, hfailed], by simp [henv], fun c hc => ?_⟩
    obtain rfl : FaultClass.environment = c := Option.some.inj (henv.symm.trans hc)
    exact ⟨⟨f, hf, hcls⟩, fun _ => hleast⟩
  · have hsome : primaryFault failed ≠ none := mt primaryFault_eq_none_iff.mp hne
    refine ⟨by simp [hne], by simp [hsome, hne], ?_, fun c hc => ?_⟩
    · refine iff_of_false (by simp) ?_
      rintro (hc | hc)
      · exact henv hc
      · exact hdec (h.mp (primaryFault_spec hc).1)
    · exact ⟨(primaryFault_spec hc).1, fun _ => (primaryFault_spec hc).2⟩
  · have hnil : failed = [] := not_not.mp hne
    have hnone := primaryFault_eq_none_iff.mpr hnil
    refine ⟨by simp [hnil], primaryFault_eq_none_iff, by simp [hnone], fun c hc => ?_⟩
    rw [hnone] at hc
    cases hc

/-- **Verdict, primary fault and failed gates agree.**  Whatever telemetry, limits
and meta data: the verdict is PASS exactly if no gate failed, which is when there
is no primary fault, and ERROR exactly if the primary fault is the environment or
a missing decoder; the primary fault is the class of a gate that failed and, the
missing decoder apart, comes before all others that did. -/
theorem verdict_coherent (g : GateLimits) (m : ReportMeta) (events : List TlmEvent)
    (rows : List ResSample) (srv : List (Option String)) (r : AvReport)
    (h : avReport g m events rows srv = some r) :
    (r.verdict = .pass ↔ r.failedGates = []) ∧ (r.primaryFault = none ↔ r.failedGates = []) ∧
      (r.verdict = .error ↔
        r.primaryFault = some .environment ∨ r.primaryFault = some .decoderUnavailable) ∧
      ∀ c, r.primaryFault = some c → (∃ f ∈ r.failedGates, f.cls = c) ∧
        (c ≠ .decoderUnavailable →
          ∀ f ∈ r.failedGates, faultOrder.idxOf c ≤ faultOrder.idxOf f.cls) := by
  unfold avReport at h
  split at h
  · obtain rfl := Option.some.inj h
    refine ⟨by simp, by simp, by simp, fun c hc => ?_⟩
    obtain rfl := Option.some.inj hc
    exact ⟨⟨_, List.mem_singleton_self _, rfl⟩, fun _ f hf => by
      rw [List.mem_singleton.mp hf]⟩
  · obtain ⟨buckets, -, rfl⟩ := Option.map_eq_some_iff.mp h
    refine grade_spec (Iff.trans ?_ (unavailable_iff g _))
    constructor
    · rintro ⟨f, hf, hcls⟩
      rw [List.mem_append, List.mem_append] at hf
      obtain (hf | hf) | hf := hf
      · exact ⟨f, hf, hcls⟩
      · exact absurd hcls (notUnavailable_gateRun _ _ _ _ f hf)
      · exact absurd hcls (notUnavailable_sanity _ _ _ _ _ f hf)
    · rintro ⟨f, hf, hcls⟩
      exact ⟨f, List.mem_append_left _ (List.mem_append_left _ hf), hcls⟩

/-- Twelve frames in one bucket of 10 ms, a period of sound, and the clip over. -/
def steadyEvents : List TlmEvent :=
  (List.range 12).map (fun i : Nat =>
    ⟨some (i * 1000), .vrender ⟨some (i * 1000), false, some i, none, none, some (i * 1000)⟩⟩) ++
  [⟨some 5000, .arender ⟨some 0, none, none, none⟩⟩, ⟨some 10000, .eos⟩]

/-- A smoke run of that content. -/
def steadyMeta : ReportMeta where
  bucketS := 1 / 100
  windowS := none
  fifoCap := 0
  rt := []
  availStartUs := none
  bucketS_pos := by norm_num
  content := ⟨1000, 0, 1⟩
  tier := "smoke"
  clipDurationS := 0

theorem verdict_coherent_steady :
    ∃ r, avReport {} steadyMeta steadyEvents [⟨0, some 1, some 1, some 1⟩] [] = some r ∧
      r.failedGates = [] := by
  have hrun : (avReport {} steadyMeta steadyEvents [⟨0, some 1, some 1, some 1⟩] []).map
      (fun r => r.verdict) = some .pass := by
    decide +kernel
  obtain ⟨r, hr, hpass⟩ := Option.map_eq_some_iff.mp hrun
  exact ⟨r, hr, (verdict_coherent {} steadyMeta steadyEvents _ [] r hr).1.mp hpass⟩

end Vmc
