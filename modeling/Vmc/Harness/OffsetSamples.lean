import Vmc.Harness.Buckets

/-!
# Vmc.Harness.OffsetSamples

The A/V offset samples of the report (`tools/av_harness/av_report.py`).  A frame
that carries its audio position gives a sample while the buckets are filled.
When fewer than half of the frames do, a second pass pairs the frames with the
render timeline (`main`, fallback A/V pairing): every frame with a pts whose time
the timeline covers gives a sample then, whether it has given one or not.

`FallsBack` says on the events when the second pass is made, `renderTimes` what
the timeline covers.
-/

namespace Vmc

open Interpolate

/-! ## the second pass -/

/-- One turn of `find_t0`. -/
def noteTime (t : Option (ℚ × ℚ)) (e : TlmEvent) : Option (ℚ × ℚ) :=
  match e.ts, t with
  | none, t => t
  | some ts, none => some (ts, ts)
  | some ts, some (t0, t1) => some (if ts < t0 then ts else t0, if t1 < ts then ts else t1)

/-- `find_t0`: the first and the last time of any event. -/
def findT0 (events : List TlmEvent) : Option (ℚ × ℚ) := events.foldl noteTime none

/-- What `main` has from the run's meta data and the server: the clock pairs are
sorted already. -/
structure RunMeta where
  bucketS : ℚ
  windowS : Option ℚ
  fifoCap : ℚ
  rt : List (ℚ × ℚ)
  availStartUs : Option ℚ
  bucketS_pos : 0 < bucketS

/-- The arguments of `build_buckets`: the span is clamped to the window. -/
def RunMeta.params (m : RunMeta) (t : ℚ × ℚ) : ReportParams where
  t0 := t.1
  spanS :=
    let span := (t.2 - t.1) / 1000000
    let window := m.windowS.getD span
    if window < span then window else span
  bucketS := m.bucketS
  fifoCap := m.fifoCap
  rt := m.rt
  availStartUs := m.availStartUs
  bucketS_pos := m.bucketS_pos

/-- The order Python sorts the entries of the timeline by. -/
def tripleLe (a b : ℚ × ℚ × ℚ) : Bool :=
  decide (a.1 < b.1 ∨ a.1 = b.1 ∧ (a.2.1 < b.2.1 ∨ a.2.1 = b.2.1 ∧ a.2.2 ≤ b.2.2))

/-- A sample appended to a bucket. -/
def Bucket.addOffset (off rel : ℚ) (b : Bucket) : Bucket :=
  { b with offsets := b.offsets ++ [off], offsetTimes := b.offsetTimes ++ [rel] }

/-- `buckets[bi]`: a negative index counts from the end, and one too far raises. -/
def pyIndex (n : Nat) (bi : ℤ) : Option Nat :=
  let i := if bi < 0 then bi + n else bi
  if 0 ≤ i ∧ i < n then some i.toNat else none

/-- One turn of the second pass; none where it raises. -/
def pairStep (p : ReportParams) (tl : List (ℚ × ℚ × ℚ)) (buckets : List Bucket) (e : TlmEvent) :
    Option (List Bucket) :=
  match e.body with
  | .vrender v =>
    match v.ptsUs with
    | none => some buckets
    | some pt =>
      match v.time e.ts with
      | none => none
      | some tv =>
        match audioPtsAt tl tv with
        | none => some buckets
        | some ap =>
          match e.ts with
          | none => none
          | some ts =>
            let bi := min ⌊p.rel ts / p.bucketS⌋ (buckets.length - 1)
            (pyIndex buckets.length bi).map fun i =>
              buckets.modify i (Bucket.addOffset ((pt - ap) / 1000) (p.rel ts))
  | _ => some buckets

/-- `if vr and direct < 0.5 * vr and a_tl`. -/
def ReportAcc.fallsBack (acc : ReportAcc) : Bool :=
  decide (acc.vrSeen ≠ 0 ∧ 2 * acc.directSeen < acc.vrSeen ∧ acc.aTimeline ≠ [])

/-- The buckets after the second pass has gone through the first `k` events. -/
def pairedAfter (p : ReportParams) (events : List TlmEvent) (k : Nat) : Option (List Bucket) :=
  let acc := buildBuckets p events
  if acc.fallsBack then
    (events.take k).foldlM (pairStep p (acc.aTimeline.mergeSort tripleLe)) acc.buckets
  else some acc.buckets

/-- The buckets of a report; none without telemetry, or where the script
raises. -/
def reportBuckets (m : RunMeta) (events : List TlmEvent) : Option (List Bucket) :=
  (findT0 events).bind fun t => pairedAfter (m.params t) events events.length

/-! ## samples -/

/-- The offset samples in all the buckets. -/
def offsetCount (buckets : List Bucket) : Nat := (buckets.map fun b => b.offsets.length).sum

/-- The samples event `i` adds in the first pass. -/
def directAdded (p : ReportParams) (events : List TlmEvent) (i : Nat) : ℤ :=
  offsetCount (buildBuckets p (events.take (i + 1))).buckets -
    offsetCount (buildBuckets p (events.take i)).buckets

/-- The samples event `i` adds in the second pass. -/
def pairedAdded (p : ReportParams) (events : List TlmEvent) (i : Nat) : ℤ :=
  offsetCount ((pairedAfter p events (i + 1)).getD []) -
    offsetCount ((pairedAfter p events i).getD [])

/-- The number of `vrender` events. -/
def vrenderCount (events : List TlmEvent) : Nat :=
  events.countP fun e => match e.body with | .vrender _ => true | _ => false

/-- A report in which every frame gives one sample at most. -/
def OneSampleEach (m : RunMeta) (events : List TlmEvent) : Prop :=
  ∀ t buckets, findT0 events = some t → reportBuckets m events = some buckets →
    offsetCount buckets ≤ vrenderCount events ∧
      ∀ i < events.length,
        directAdded (m.params t) events i + pairedAdded (m.params t) events i ≤ 1

/-! ## the events, seen from outside -/

/-- The frames with a time. -/
def timedFrame (e : TlmEvent) : Nat :=
  match e.ts, e.body with
  | some _, .vrender _ => 1
  | _, _ => 0

/-- Those that carry both `audio_pos_us` and `pts_us`. -/
def directFrame (e : TlmEvent) : Nat :=
  match e.ts, e.body with
  | some _, .vrender v => v.directSample.toList.length
  | _, _ => 0

def timedFrames (events : List TlmEvent) : Nat := (events.map timedFrame).sum

def directFrames (events : List TlmEvent) : Nat := (events.map directFrame).sum

/-- The render times the timeline would have, and the time of the last `eos`: an
`arender` with padding after it is an artifact of the drain. -/
def acceptRender (s : Option ℚ × List ℚ) (e : TlmEvent) : Option ℚ × List ℚ :=
  match e.ts, e.body with
  | some ts, .eos => (some ts, s.2)
  | some ts, .arender a =>
    if a.pad ≠ 0 ∧ s.1.any fun d => decide (d < ts) then s
    else (s.1, s.2 ++ ((a.timelineEntry ts).map Prod.fst).toList)
  | _, _ => s

def renderTimes (events : List TlmEvent) : List ℚ := (events.foldl acceptRender (none, [])).2

/-- More than 500 frames have been seen at some point, half of them direct: the
timeline is thrown away. -/
def TimelineCut (events : List TlmEvent) : Prop :=
  ∃ seen, seen <+: events ∧ 500 < timedFrames seen ∧ timedFrames seen ≤ 2 * directFrames seen

/-- When the second pass is made. -/
def FallsBack (events : List TlmEvent) : Prop :=
  2 * directFrames events < timedFrames events ∧ renderTimes events ≠ [] ∧ ¬ TimelineCut events

/-- No frame is sampled twice: there is no second pass, or the timeline leaves out
every frame that carries its own sample. -/
def NoneDoubled (events : List TlmEvent) : Prop :=
  FallsBack events → ∀ e ∈ events, directFrame e = 1 → ∀ v tv, e.body = .vrender v →
    v.time e.ts = some tv →
    (∀ r ∈ renderTimes events, tv ≤ r) ∨ ∀ r ∈ renderTimes events, r ≤ tv

/-! ## the first pass -/

/-- Every time is at or after `t0`. -/
def TimesFrom (t0 : ℚ) (events : List TlmEvent) : Prop :=
  ∀ e ∈ events, ∀ ts, e.ts = some ts → t0 ≤ ts

theorem foldl_noteTime {events : List TlmEvent} {s : Option (ℚ × ℚ)} {t : ℚ × ℚ}
    (h : events.foldl noteTime s = some t) :
    (∀ s', s = some s' → t.1 ≤ s'.1) ∧ TimesFrom t.1 events := by
  induction events generalizing s with
  | nil =>
    refine ⟨fun s' hs => ?_, fun e he => absurd he List.not_mem_nil⟩
    obtain rfl : t = s' := Option.some.inj (h.symm.trans hs)
    exact le_rfl
  | cons e events ih =>
    obtain ⟨hstep, hrest⟩ := ih h
    have hboth : (∀ s', s = some s' → t.1 ≤ s'.1) ∧ ∀ ts, e.ts = some ts → t.1 ≤ ts := by
      unfold noteTime at hstep
      cases hts : e.ts with
      | none =>
        rw [hts] at hstep
        exact ⟨hstep, fun ts hsome => (by cases hsome)⟩
      | some ts =>
        rw [hts] at hstep
        cases s with
        | none =>
          refine ⟨fun s' hs => (by cases hs), fun ts' hsome => ?_⟩
          obtain rfl := Option.some.inj hsome
          exact hstep (ts, ts) rfl
        | some s' =>
          have hmin := hstep _ rfl
          dsimp only at hmin
          refine ⟨fun s'' hs => ?_, fun ts' hsome => ?_⟩
          · obtain rfl := Option.some.inj hs
            split_ifs at hmin with hlt
            · exact hmin.trans hlt.le
            · exact hmin
          · obtain rfl := Option.some.inj hsome
            split_ifs at hmin with hlt
            · exact hmin
            · exact hmin.trans (not_lt.mp hlt)
    refine ⟨hboth.1, fun e' he' ts hts => ?_⟩
    rcases List.mem_cons.mp he' with rfl | hmem
    · exact hboth.2 ts hts
    · exact hrest e' hmem ts hts

theorem findT0_le {events : List TlmEvent} {t : ℚ × ℚ} (h : findT0 events = some t) :
    TimesFrom t.1 events := (foldl_noteTime h).2

theorem offsets_vrender (p : ReportParams) (b : Bucket) (ts : ℚ) (v : VRender) :
    (b.vrender p ts v).offsets = b.offsets ++ v.directSample.toList := by
  unfold Bucket.vrender Bucket.addSamples Bucket.countGap
  dsimp only
  cases v.frameIdx with
  | none => rfl
  | some fi => cases b.vLastIdx <;> rfl

theorem offsets_enter_of_not_vrender (p : ReportParams) (b : Bucket) (ts : ℚ) {body : TlmBody}
    (h : ∀ v, body ≠ .vrender v) : (b.enter p ts body).offsets = b.offsets := by
  cases body with
  | vrender v => exact absurd rfl (h v)
  | net f =>
    unfold Bucket.enter Bucket.net
    dsimp only
    split_ifs <;> rfl
  | _ => rfl

/-- Changing one bucket changes the count by that bucket's samples. -/
theorem offsetCount_modify {buckets : List Bucket} {i : Nat} (hi : i < buckets.length)
    {f : Bucket → Bucket} {n : Nat} (h : ∀ b, (f b).offsets.length = b.offsets.length + n) :
    offsetCount (buckets.modify i f) = offsetCount buckets + n := by
  have hsum := sum_map_modify (fun b : Bucket => b.offsets.length) f hi
  rw [h] at hsum
  unfold offsetCount
  omega

theorem directFrame_eq_zero {e : TlmEvent} (h : ∀ v, e.body ≠ .vrender v) : directFrame e = 0 := by
  obtain ⟨ts, body⟩ := e
  cases body with
  | vrender v => exact absurd rfl (h v)
  | _ => cases ts <;> rfl

/-- The first pass: an event adds the sample of a direct frame. -/
theorem offsetCount_step (p : ReportParams) {acc : ReportAcc}
    (hlen : acc.buckets.length = p.emptyBuckets.length) {e : TlmEvent}
    (hge : ∀ ts, e.ts = some ts → p.t0 ≤ ts) :
    offsetCount (acc.step p e).buckets = offsetCount acc.buckets + directFrame e := by
  by_cases hvrender : ∃ v, e.body = .vrender v
  · obtain ⟨v, hbody⟩ := hvrender
    unfold directFrame
    cases hts : e.ts with
    | none =>
      unfold ReportAcc.step
      rw [hbody, hts]
      rfl
    | some ts =>
      have hbi : p.bucketOf acc.buckets.length ts = some (p.slot ts) := by
        rw [hlen]
        exact p.bucketOf_of_ge (hge ts hts)
      rw [buckets_step_vrender p acc hbody hts hbi, buckets_cutTimeline, buckets_note, hbody]
      refine offsetCount_modify (by rw [hlen]; exact p.slot_lt ts) fun b => ?_
      rw [offsets_vrender, List.length_append]
  · push Not at hvrender
    have hsame : (acc.step p e).buckets.map (fun b => b.offsets.length) =
        acc.buckets.map fun b => b.offsets.length := by
      rcases buckets_step p acc e with hsame | ⟨ts, bi, -, -, hmodify⟩
      · rw [hsame]
      · rw [hmodify]
        exact map_modify_same
          (fun b => by rw [offsets_enter_of_not_vrender p b ts hvrender]) _ _
    unfold offsetCount
    rw [hsame, directFrame_eq_zero hvrender, Nat.add_zero]

theorem buildBuckets_append (p : ReportParams) (events : List TlmEvent) (e : TlmEvent) :
    buildBuckets p (events ++ [e]) = (buildBuckets p events).step p e := by
  unfold buildBuckets
  rw [List.foldl_append]
  rfl

theorem timesFrom_of_append {t0 : ℚ} {events : List TlmEvent} {e : TlmEvent}
    (h : TimesFrom t0 (events ++ [e])) :
    TimesFrom t0 events ∧ ∀ ts, e.ts = some ts → t0 ≤ ts :=
  ⟨fun e' he' => h e' (List.mem_append_left _ he'), h e (by simp)⟩

theorem offsetCount_emptyBuckets (p : ReportParams) : offsetCount p.emptyBuckets = 0 := by
  refine List.sum_eq_zero fun n hn => ?_
  obtain ⟨b, hb, rfl⟩ := List.mem_map.mp hn
  rw [(p.of_mem_emptyBuckets hb).2.2, List.length_nil]

/-- The first pass: the direct frames. -/
theorem offsetCount_buildBuckets (p : ReportParams) {events : List TlmEvent}
    (h : TimesFrom p.t0 events) :
    offsetCount (buildBuckets p events).buckets = directFrames events := by
  induction events using List.reverseRecOn with
  | nil => exact offsetCount_emptyBuckets p
  | append_singleton events e ih =>
    obtain ⟨hevents, he⟩ := timesFrom_of_append h
    rw [buildBuckets_append, offsetCount_step p (length_buildBuckets p events) he, ih hevents]
    simp [directFrames]

/-! ## when the second pass is made -/

/-- What the pass knows after the events `seen`; whether the timeline is still
kept was decided after the events `checked`. -/
structure Follows (p : ReportParams) (checked seen : List TlmEvent) (acc : ReportAcc) : Prop where
  vr : acc.vrSeen = timedFrames seen
  direct : acc.directSeen = directFrames seen
  drain : acc.drainFrom = (seen.foldl acceptRender (none, [])).1.map p.rel
  need : acc.needTimeline = true ↔ ¬ TimelineCut checked
  timeline : acc.aTimeline.map Prod.fst = if acc.needTimeline then renderTimes seen else []

theorem timelineCut_append {seen : List TlmEvent} {e : TlmEvent} :
    TimelineCut (seen ++ [e]) ↔
      TimelineCut seen ∨
        500 < timedFrames (seen ++ [e]) ∧
          timedFrames (seen ++ [e]) ≤ 2 * directFrames (seen ++ [e]) := by
  constructor
  · rintro ⟨pre, hpre, hcut⟩
    rcases List.prefix_concat_iff.mp hpre with rfl | hpre
    · exact .inr hcut
    · exact .inl ⟨pre, hpre, hcut⟩
  · rintro (⟨pre, hpre, hcut⟩ | hcut)
    · exact ⟨pre, hpre.trans (List.prefix_append _ _), hcut⟩
    · exact ⟨_, List.prefix_rfl, hcut⟩

theorem rel_lt_iff (p : ReportParams) (d ts : ℚ) : p.rel d < p.rel ts ↔ d < ts := by
  unfold ReportParams.rel
  rw [div_lt_div_iff_of_pos_right (by norm_num), sub_lt_sub_iff_right]

theorem timedFrames_append (seen : List TlmEvent) (e : TlmEvent) :
    timedFrames (seen ++ [e]) = timedFrames seen + timedFrame e := by
  simp [timedFrames]

theorem directFrames_append (seen : List TlmEvent) (e : TlmEvent) :
    directFrames (seen ++ [e]) = directFrames seen + directFrame e := by
  simp [directFrames]

theorem timedFrames_le_length (seen : List TlmEvent) : timedFrames seen ≤ seen.length := by
  have hle := List.sum_le_card_nsmul (seen.map timedFrame) 1 (by
    intro n hn
    obtain ⟨⟨ts, body⟩, -, rfl⟩ := List.mem_map.mp hn
    cases ts <;> cases body <;> simp [timedFrame])
  simpa [timedFrames] using hle

theorem foldl_acceptRender_append (seen : List TlmEvent) (e : TlmEvent) :
    (seen ++ [e]).foldl acceptRender (none, []) =
      acceptRender (seen.foldl acceptRender (none, [])) e := by
  rw [List.foldl_append]
  rfl

/-- The check at the end of a turn. -/
theorem Follows.cutTimeline {p : ReportParams} {seen : List TlmEvent} {e : TlmEvent}
    {acc : ReportAcc} (h : Follows p seen (seen ++ [e]) acc) :
    Follows p (seen ++ [e]) (seen ++ [e]) acc.cutTimeline := by
  have hcut : TimelineCut (seen ++ [e]) ↔
      TimelineCut seen ∨ 500 < acc.vrSeen ∧ acc.vrSeen ≤ 2 * acc.directSeen := by
    rw [timelineCut_append, h.vr, h.direct]
  unfold ReportAcc.cutTimeline
  split_ifs with hnow
  · exact ⟨h.vr, h.direct, h.drain, iff_of_false (by simp) (not_not.mpr (hcut.mpr (.inr hnow.2))),
      rfl⟩
  · refine ⟨h.vr, h.direct, h.drain, ?_, h.timeline⟩
    rw [hcut, not_or, ← h.need]
    exact ⟨fun hneed => ⟨hneed, fun hcond => hnow ⟨hneed, hcond⟩⟩, fun hneed => hneed.1⟩

/-- An event that changes no count and no render time may be passed over. -/
theorem Follows.skip {p : ReportParams} {seen : List TlmEvent} {e : TlmEvent} {acc : ReportAcc}
    (h : Follows p seen seen acc) (htimed : timedFrame e = 0) (hdirect : directFrame e = 0)
    (haccept : acceptRender (seen.foldl acceptRender (none, [])) e =
      seen.foldl acceptRender (none, [])) : Follows p seen (seen ++ [e]) acc := by
  refine ⟨?_, ?_, ?_, h.need, ?_⟩
  · rw [timedFrames_append, htimed, Nat.add_zero, h.vr]
  · rw [directFrames_append, hdirect, Nat.add_zero, h.direct]
  · rw [foldl_acceptRender_append, haccept, h.drain]
  · rw [renderTimes, foldl_acceptRender_append, haccept, h.timeline]
    rfl

theorem Follows.check_skipped {p : ReportParams} {seen : List TlmEvent} {e : TlmEvent}
    {acc : ReportAcc} (h : Follows p seen seen acc) (hskip : Follows p seen (seen ++ [e]) acc) :
    Follows p (seen ++ [e]) (seen ++ [e]) acc := by
  refine ⟨hskip.vr, hskip.direct, hskip.drain, ?_, hskip.timeline⟩
  rw [h.need, timelineCut_append, ← hskip.vr, ← hskip.direct, h.vr, h.direct, not_iff_not]
  exact ⟨.inl, fun hcut => hcut.elim id fun hnow => ⟨seen, List.prefix_rfl, hnow⟩⟩

/-- On times, an `arender` is an artifact of the drain exactly if it is left out
of the render times. -/
theorem drained_arender (p : ReportParams) (d : Option ℚ) (ts : ℚ) (a : ARender) :
    drained (d.map p.rel) (p.rel ts) (.arender a) = true ↔
      a.pad ≠ 0 ∧ d.any fun d => decide (d < ts) := by
  cases d with
  | none => simp [drained]
  | some d => simp [drained, rel_lt_iff, and_comm]

/-- An artifact of the drain changes nothing. -/
theorem Follows.drained {p : ReportParams} {seen : List TlmEvent} {e : TlmEvent} {acc : ReportAcc}
    (h : Follows p seen seen acc) {ts : ℚ} (hts : e.ts = some ts)
    (hdrained : Vmc.drained acc.drainFrom (p.rel ts) e.body = true) :
    Follows p seen (seen ++ [e]) acc := by
  obtain ⟨ts', body⟩ := e
  obtain rfl : ts' = some ts := hts
  rw [h.drain] at hdrained
  cases body with
  | arender a =>
    refine h.skip rfl rfl ?_
    exact if_pos ((drained_arender p _ ts a).mp hdrained)
  | buf which event => exact h.skip rfl rfl rfl
  | sync kind => exact h.skip rfl rfl rfl
  | dec kind => exact h.skip rfl rfl rfl
  | net f => exact h.skip rfl rfl rfl
  | _ =>
    -- `drained` knows no other event
    unfold Vmc.drained at hdrained
    split at hdrained <;> simp at hdrained

/-- What an entered event does beside its bucket. -/
theorem Follows.note {p : ReportParams} {seen : List TlmEvent} {e : TlmEvent} {acc : ReportAcc}
    (h : Follows p seen seen acc) {ts : ℚ} (hts : e.ts = some ts)
    (hdrained : ¬ Vmc.drained acc.drainFrom (p.rel ts) e.body = true) (buckets : List Bucket) :
    Follows p seen (seen ++ [e]) ({ acc with buckets := buckets }.note (p.rel ts) e.body) := by
  obtain ⟨ts', body⟩ := e
  obtain rfl : ts' = some ts := hts
  have hsame : Follows p seen seen { acc with buckets := buckets } :=
    ⟨h.vr, h.direct, h.drain, h.need, h.timeline⟩
  cases body with
  | vrender v =>
    refine ⟨?_, ?_, ?_, h.need, ?_⟩
    · rw [timedFrames_append, ← h.vr]
      rfl
    · rw [directFrames_append, ← h.direct]
      rfl
    · rw [foldl_acceptRender_append]
      exact h.drain
    · rw [renderTimes, foldl_acceptRender_append]
      exact h.timeline
  | arender a =>
    rw [h.drain, drained_arender] at hdrained
    have haccept : acceptRender (seen.foldl acceptRender (none, [])) ⟨some ts, .arender a⟩ =
        ((seen.foldl acceptRender (none, [])).1,
          renderTimes seen ++ ((a.timelineEntry ts).map Prod.fst).toList) := if_neg hdrained
    refine ⟨?_, ?_, ?_, h.need, ?_⟩
    · rw [timedFrames_append]
      exact h.vr
    · rw [directFrames_append]
      exact h.direct
    · rw [foldl_acceptRender_append, haccept]
      exact h.drain
    · rw [renderTimes, foldl_acceptRender_append, haccept]
      have htimeline := h.timeline
      change (if acc.needTimeline then acc.aTimeline ++ (a.timelineEntry (p.rel ts)).toList
        else acc.aTimeline).map Prod.fst = if acc.needTimeline then _ else _
      cases hneed : acc.needTimeline with
      | true =>
        rw [hneed, if_pos rfl] at htimeline
        have hentry : (a.timelineEntry (p.rel ts)).toList.map Prod.fst =
            ((a.timelineEntry ts).map Prod.fst).toList := by
          unfold ARender.timelineEntry
          cases a.renderUs <;> cases a.contentPtsUs <;> rfl
        rw [if_pos rfl, if_pos rfl, List.map_append, htimeline, hentry]
      | false =>
        rw [hneed, if_neg (by simp)] at htimeline
        rw [if_neg (by simp), if_neg (by simp), htimeline]
  | eos =>
    refine ⟨?_, ?_, ?_, h.need, ?_⟩
    · rw [timedFrames_append]
      exact h.vr
    · rw [directFrames_append]
      exact h.direct
    · rw [foldl_acceptRender_append]
      rfl
    · rw [renderTimes, foldl_acceptRender_append]
      exact h.timeline
  | _ => exact hsame.skip rfl rfl rfl

/-- A turn of the first pass. -/
theorem Follows.step {p : ReportParams} {seen : List TlmEvent} {e : TlmEvent} {acc : ReportAcc}
    (h : Follows p seen seen acc) (hlen : acc.buckets.length = p.emptyBuckets.length)
    (hge : ∀ ts, e.ts = some ts → p.t0 ≤ ts) :
    Follows p (seen ++ [e]) (seen ++ [e]) (acc.step p e) := by
  have hskip : e.body = .bad ∨ e.ts = none → Follows p seen (seen ++ [e]) acc := by
    intro hquiet
    obtain ⟨ts, body⟩ := e
    rcases hquiet with hbody | hts
    · obtain rfl : body = .bad := hbody
      cases ts <;> exact h.skip rfl rfl rfl
    · obtain rfl : ts = none := hts
      exact h.skip rfl rfl rfl
  unfold ReportAcc.step
  split
  · rename_i hbody
    have hquiet := h.check_skipped (hskip (.inl hbody))
    exact ⟨hquiet.vr, hquiet.direct, hquiet.drain, hquiet.need, hquiet.timeline⟩
  · rename_i hts _
    exact h.check_skipped (hskip (.inr hts))
  · rename_i ts hts _
    split_ifs with hdrained
    · exact h.check_skipped (h.drained hts hdrained)
    · have hbi : p.bucketOf acc.buckets.length ts = some (p.slot ts) := by
        rw [hlen]
        exact p.bucketOf_of_ge (hge ts hts)
      rw [hbi]
      exact (h.note hts hdrained _).cutTimeline

/-- The whole first pass. -/
theorem follows_buildBuckets (p : ReportParams) {events : List TlmEvent}
    (h : TimesFrom p.t0 events) : Follows p events events (buildBuckets p events) := by
  induction events using List.reverseRecOn with
  | nil =>
    refine ⟨rfl, rfl, rfl, iff_of_true rfl ?_, rfl⟩
    rintro ⟨seen, hseen, hmany, -⟩
    obtain rfl := List.prefix_nil.mp hseen
    exact absurd hmany (by decide)
  | append_singleton events e ih =>
    obtain ⟨hevents, he⟩ := timesFrom_of_append h
    rw [buildBuckets_append]
    exact (ih hevents).step (length_buildBuckets p events) he

/-- The second pass is made exactly if `FallsBack` says so. -/
theorem fallsBack_iff {p : ReportParams} {events : List TlmEvent} (h : TimesFrom p.t0 events) :
    (buildBuckets p events).fallsBack = true ↔ FallsBack events := by
  have hf := follows_buildBuckets p h
  have hempty : (buildBuckets p events).aTimeline ≠ [] ↔
      renderTimes events ≠ [] ∧ ¬ TimelineCut events := by
    rw [← hf.need, ne_eq, ← List.map_eq_nil_iff (f := Prod.fst), hf.timeline]
    cases (buildBuckets p events).needTimeline <;> simp
  unfold ReportAcc.fallsBack FallsBack
  rw [decide_eq_true_eq, hempty, hf.vr, hf.direct]
  constructor
  · exact fun h => ⟨h.2.1, h.2.2⟩
  · exact fun h => ⟨by omega, h.1, h.2⟩

/-! ## the second pass -/

/-- The sample of a frame in the second pass. -/
def pairedFrame (tl : List (ℚ × ℚ × ℚ)) (e : TlmEvent) : Nat :=
  match e.body with
  | .vrender v =>
    match v.ptsUs, v.time e.ts with
    | some _, some tv => if (audioPtsAt tl tv).isSome then 1 else 0
    | _, _ => 0
  | _ => 0

theorem pyIndex_lt {n : Nat} {bi : ℤ} {i : Nat} (h : pyIndex n bi = some i) : i < n := by
  unfold pyIndex at h
  dsimp only at h
  split_ifs at h with hneg hrange hrange
  · obtain rfl := Option.some.inj h
    omega
  · obtain rfl := Option.some.inj h
    omega

/-- A turn of the second pass adds the sample of its frame. -/
theorem offsetCount_pairStep {p : ReportParams} {tl : List (ℚ × ℚ × ℚ)}
    {buckets buckets' : List Bucket} {e : TlmEvent}
    (h : pairStep p tl buckets e = some buckets') :
    offsetCount buckets' = offsetCount buckets + pairedFrame tl e := by
  obtain ⟨ts, body⟩ := e
  cases body with
  | vrender v =>
    unfold pairStep at h
    unfold pairedFrame
    dsimp only at h ⊢
    cases hpts : v.ptsUs with
    | none =>
      rw [hpts] at h
      obtain rfl := Option.some.inj h
      rfl
    | some pt =>
      rw [hpts] at h
      dsimp only at h
      cases htime : v.time ts with
      | none =>
        rw [htime] at h
        cases h
      | some tv =>
        rw [htime] at h
        dsimp only at h ⊢
        cases hap : audioPtsAt tl tv with
        | none =>
          rw [hap] at h
          obtain rfl := Option.some.inj h
          rfl
        | some ap =>
          rw [hap] at h
          cases ts with
          | none => cases h
          | some ts =>
            obtain ⟨i, hi, rfl⟩ := Option.map_eq_some_iff.mp h
            exact offsetCount_modify (pyIndex_lt hi) fun b => by simp [Bucket.addOffset]
  | _ =>
    obtain rfl := Option.some.inj h
    rfl

theorem offsetCount_foldlM {p : ReportParams} {tl : List (ℚ × ℚ × ℚ)} {events : List TlmEvent}
    {buckets buckets' : List Bucket}
    (h : events.foldlM (pairStep p tl) buckets = some buckets') :
    offsetCount buckets' = offsetCount buckets + (events.map (pairedFrame tl)).sum := by
  induction events generalizing buckets with
  | nil =>
    obtain rfl := Option.some.inj h
    rfl
  | cons e events ih =>
    rw [List.foldlM_cons] at h
    obtain ⟨mid, hmid, hrest⟩ := Option.bind_eq_some_iff.mp h
    rw [ih hrest, offsetCount_pairStep hmid, List.map_cons, List.sum_cons, Nat.add_assoc]

/-- The sorted timeline of the second pass. -/
def sortedTimeline (p : ReportParams) (events : List TlmEvent) : List (ℚ × ℚ × ℚ) :=
  (buildBuckets p events).aTimeline.mergeSort tripleLe

/-- What event `e` gives in the second pass, if there is one. -/
def fallbackFrame (p : ReportParams) (events : List TlmEvent) (e : TlmEvent) : Nat :=
  if (buildBuckets p events).fallsBack then pairedFrame (sortedTimeline p events) e else 0

/-- The second pass: the frames the timeline covers. -/
theorem offsetCount_pairedAfter {p : ReportParams} {events : List TlmEvent} {k : Nat}
    {buckets : List Bucket} (h : pairedAfter p events k = some buckets) :
    offsetCount buckets = offsetCount (buildBuckets p events).buckets +
      ((events.take k).map (fallbackFrame p events)).sum := by
  unfold pairedAfter at h
  unfold fallbackFrame
  dsimp only at h
  split_ifs at h ⊢ with hfall
  · exact offsetCount_foldlM h
  · obtain rfl := Option.some.inj h
    simp

/-- A second pass that ends has gone through every event. -/
theorem pairedAfter_isSome {p : ReportParams} {events : List TlmEvent}
    (h : (pairedAfter p events events.length).isSome) (k : Nat) :
    (pairedAfter p events k).isSome := by
  unfold pairedAfter at h ⊢
  dsimp only at h ⊢
  split_ifs at h ⊢ with hfall
  · rw [List.take_length, ← List.take_append_drop k events, List.foldlM_append] at h
    obtain ⟨buckets, hall⟩ := Option.isSome_iff_exists.mp h
    obtain ⟨mid, hmid, -⟩ := Option.bind_eq_some_iff.mp hall
    rw [List.take_append_drop] at hmid
    exact Option.isSome_iff_exists.mpr ⟨mid, hmid⟩
  · rfl

/-! ## one event -/

theorem timesFrom_take {t0 : ℚ} {events : List TlmEvent} (h : TimesFrom t0 events) (k : Nat) :
    TimesFrom t0 (events.take k) := fun e he => h e (List.mem_of_mem_take he)

theorem directAdded_eq {p : ReportParams} {events : List TlmEvent} (h : TimesFrom p.t0 events)
    {i : Nat} (hi : i < events.length) : directAdded p events i = directFrame events[i] := by
  unfold directAdded
  rw [offsetCount_buildBuckets p (timesFrom_take h _), offsetCount_buildBuckets p
    (timesFrom_take h _), List.take_succ_eq_append_getElem hi, directFrames_append]
  push_cast
  ring

theorem pairedAdded_eq {p : ReportParams} {events : List TlmEvent}
    (h : (pairedAfter p events events.length).isSome) {i : Nat} (hi : i < events.length) :
    pairedAdded p events i = fallbackFrame p events events[i] := by
  obtain ⟨before, hbefore⟩ := Option.isSome_iff_exists.mp (pairedAfter_isSome h i)
  obtain ⟨after, hafter⟩ := Option.isSome_iff_exists.mp (pairedAfter_isSome h (i + 1))
  unfold pairedAdded
  rw [hbefore, hafter, Option.getD_some, Option.getD_some, offsetCount_pairedAfter hbefore,
    offsetCount_pairedAfter hafter, List.take_succ_eq_append_getElem hi, List.map_append,
    List.sum_append]
  simp

/-! ## what the timeline covers -/

theorem tripleLe_iff (a b : ℚ × ℚ × ℚ) :
    tripleLe a b = true ↔
      a.1 < b.1 ∨ a.1 = b.1 ∧ (a.2.1 < b.2.1 ∨ a.2.1 = b.2.1 ∧ a.2.2 ≤ b.2.2) := by
  unfold tripleLe
  rw [decide_eq_true_eq]

theorem tripleLe_trans (a b c : ℚ × ℚ × ℚ) (hab : tripleLe a b = true)
    (hbc : tripleLe b c = true) : tripleLe a c = true := by
  rw [tripleLe_iff] at *
  rcases hab with h1 | ⟨h1, h2 | ⟨h2, h3⟩⟩ <;> rcases hbc with k1 | ⟨k1, k2 | ⟨k2, k3⟩⟩ <;>
    grind

theorem tripleLe_total (a b : ℚ × ℚ × ℚ) : (tripleLe a b || tripleLe b a) = true := by
  rw [Bool.or_eq_true, tripleLe_iff, tripleLe_iff]
  rcases lt_trichotomy a.1 b.1 with h1 | h1 | h1 <;>
    rcases lt_trichotomy a.2.1 b.2.1 with h2 | h2 | h2 <;>
      rcases le_total a.2.2 b.2.2 with h3 | h3 <;> grind

/-- The render times of a sorted timeline do not fall. -/
theorem pairwise_mergeSort_tripleLe (tl : List (ℚ × ℚ × ℚ)) :
    (timelinePairs (tl.mergeSort tripleLe)).Pairwise fun a b => a.1 ≤ b.1 := by
  refine List.pairwise_map.mpr ?_
  refine (List.pairwise_mergeSort tripleLe_trans tripleLe_total tl).imp fun {a b} hab => ?_
  rcases (tripleLe_iff a b).mp hab with hlt | ⟨heq, -⟩
  · exact hlt.le
  · exact heq.le

theorem audioPtsAt_eq_none_iff (tl : List (ℚ × ℚ × ℚ)) (t : ℚ) :
    audioPtsAt tl t = none ↔ tl = [] ∨ t ≤ timeAt (timelinePairs tl) 0 ∨
      timeAt (timelinePairs tl) ((timelinePairs tl).length - 1) ≤ t := by
  unfold audioPtsAt
  dsimp only
  split_ifs with h
  · exact iff_of_true rfl h
  · exact iff_of_false (by simp) h

/-- Outside the ends is before or behind every entry. -/
theorem outside_iff {table : List (ℚ × ℚ)} (h : table.Pairwise fun a b => a.1 ≤ b.1)
    (hne : table ≠ []) (t : ℚ) :
    (t ≤ timeAt table 0 ∨ timeAt table (table.length - 1) ≤ t) ↔
      (∀ r ∈ table, t ≤ r.1) ∨ ∀ r ∈ table, r.1 ≤ t := by
  have hpos : 0 < table.length := List.length_pos_iff.mpr hne
  have hle : ∀ i j, i ≤ j → j < table.length → timeAt table i ≤ timeAt table j := by
    intro i j hij hj
    unfold timeAt
    rw [List.getD_eq_getElem _ _ (by omega), List.getD_eq_getElem _ _ hj]
    rcases hij.eq_or_lt with rfl | hlt
    · exact le_rfl
    · exact List.pairwise_iff_getElem.mp h i j (by omega) hj hlt
  have hmem : ∀ i, i < table.length → ∃ r ∈ table, r.1 = timeAt table i := by
    intro i hi
    refine ⟨table[i], List.getElem_mem hi, ?_⟩
    rw [timeAt, List.getD_eq_getElem _ _ hi]
  refine or_congr ⟨fun hlo r hr => ?_, fun hall => ?_⟩ ⟨fun hhi r hr => ?_, fun hall => ?_⟩
  · obtain ⟨i, hi, hri, -⟩ := exists_index_of_mem hr
    rw [← hri]
    exact hlo.trans (hle 0 i (by omega) (by omega))
  · obtain ⟨r, hr, hfirst⟩ := hmem 0 hpos
    exact hfirst ▸ hall r hr
  · obtain ⟨i, hi, hri, -⟩ := exists_index_of_mem hr
    rw [← hri]
    exact (hle i (table.length - 1) hi (by omega)).trans hhi
  · obtain ⟨r, hr, hlast⟩ := hmem (table.length - 1) (by omega)
    exact hlast ▸ hall r hr

/-- In a report that falls back, the timeline leaves a time out exactly if no
render time, or every one, is before it. -/
theorem audioPtsAt_sortedTimeline {p : ReportParams} {events : List TlmEvent}
    (h : TimesFrom p.t0 events) (hfall : FallsBack events) (t : ℚ) :
    audioPtsAt (sortedTimeline p events) t = none ↔
      (∀ r ∈ renderTimes events, t ≤ r) ∨ ∀ r ∈ renderTimes events, r ≤ t := by
  have hf := follows_buildBuckets p h
  have htimes : (buildBuckets p events).aTimeline.map Prod.fst = renderTimes events := by
    rw [hf.timeline, if_pos (hf.need.mpr hfall.2.2)]
  have hperm : (sortedTimeline p events).Perm (buildBuckets p events).aTimeline :=
    List.mergeSort_perm _ _
  have hmem : ∀ r, r ∈ renderTimes events ↔ ∃ e ∈ timelinePairs (sortedTimeline p events),
      e.1 = r := by
    intro r
    rw [← htimes, List.mem_map]
    constructor
    · rintro ⟨e, he, rfl⟩
      exact ⟨(e.1, e.2.1), List.mem_map.mpr ⟨e, hperm.mem_iff.mpr he, rfl⟩, rfl⟩
    · rintro ⟨e, he, rfl⟩
      obtain ⟨e', he', rfl⟩ := List.mem_map.mp he
      exact ⟨e', hperm.mem_iff.mp he', rfl⟩
  have hne : sortedTimeline p events ≠ [] := by
    intro hnil
    rw [hnil, List.nil_perm] at hperm
    rw [hperm] at htimes
    exact hfall.2.1 htimes.symm
  have hne' : timelinePairs (sortedTimeline p events) ≠ [] := by
    rwa [timelinePairs, ne_eq, List.map_eq_nil_iff]
  have hsorted : (timelinePairs (sortedTimeline p events)).Pairwise fun a b => a.1 ≤ b.1 :=
    pairwise_mergeSort_tripleLe _
  rw [audioPtsAt_eq_none_iff, or_iff_right hne, outside_iff hsorted hne']
  simp only [hmem]
  constructor
  · rintro (hall | hall)
    · exact .inl fun r ⟨e, he, hr⟩ => hr ▸ hall e he
    · exact .inr fun r ⟨e, he, hr⟩ => hr ▸ hall e he
  · rintro (hall | hall)
    · exact .inl fun e he => hall e.1 ⟨e, he, rfl⟩
    · exact .inr fun e he => hall e.1 ⟨e, he, rfl⟩

/-! ## a report ends -/

theorem pyIndex_of_nonneg {n : Nat} {bi : ℤ} (hlo : 0 ≤ bi) (hhi : bi < n) :
    pyIndex n bi = some bi.toNat := by
  unfold pyIndex
  dsimp only
  rw [if_neg (not_lt.mpr hlo), if_pos ⟨hlo, hhi⟩]

/-- The turn of a timed frame does not raise. -/
theorem pairStep_isSome {p : ReportParams} (tl : List (ℚ × ℚ × ℚ)) {buckets : List Bucket}
    (hpos : 0 < buckets.length) {e : TlmEvent}
    (htimed : ∀ v, e.body = .vrender v → ∃ ts, e.ts = some ts ∧ p.t0 ≤ ts) :
    ∃ buckets', pairStep p tl buckets e = some buckets' ∧ 0 < buckets'.length := by
  obtain ⟨ts, body⟩ := e
  cases body with
  | vrender v =>
    obtain ⟨ts', rfl, hge⟩ := htimed v rfl
    have hfloor : 0 ≤ ⌊p.rel ts' / p.bucketS⌋ :=
      Int.floor_nonneg.mpr (div_nonneg (p.rel_nonneg hge) p.bucketS_pos.le)
    have hi := pyIndex_of_nonneg (n := buckets.length)
      (le_min hfloor (show (0 : ℤ) ≤ buckets.length - 1 by omega))
      ((min_le_right _ _).trans_lt (show (buckets.length : ℤ) - 1 < buckets.length by omega))
    unfold pairStep
    dsimp only
    cases v.ptsUs with
    | none => exact ⟨buckets, rfl, hpos⟩
    | some pt =>
      have htime : ∃ tv, v.time (some ts') = some tv := by
        unfold VRender.time orElse
        split_ifs with hzero
        · exact ⟨ts', rfl⟩
        · cases v.vblankUs with
          | none => exact ⟨ts', rfl⟩
          | some vb => exact ⟨vb, rfl⟩
      obtain ⟨tv, htv⟩ := htime
      dsimp only
      rw [htv]
      dsimp only
      cases audioPtsAt tl tv with
      | none => exact ⟨buckets, rfl, hpos⟩
      | some ap =>
        dsimp only
        rw [hi]
        exact ⟨_, rfl, by rw [List.length_modify]; exact hpos⟩
  | _ => exact ⟨buckets, rfl, hpos⟩

theorem foldlM_pairStep_isSome {p : ReportParams} (tl : List (ℚ × ℚ × ℚ)) {events : List TlmEvent}
    {buckets : List Bucket} (hpos : 0 < buckets.length)
    (htimed : ∀ e ∈ events, ∀ v, e.body = .vrender v → ∃ ts, e.ts = some ts ∧ p.t0 ≤ ts) :
    (events.foldlM (pairStep p tl) buckets).isSome := by
  induction events generalizing buckets with
  | nil => rfl
  | cons e events ih =>
    obtain ⟨mid, hmid, hmidpos⟩ := pairStep_isSome tl hpos (htimed e (List.mem_cons_self ..))
    rw [List.foldlM_cons, hmid]
    exact ih hmidpos fun e' he' => htimed e' (List.mem_cons_of_mem e he')

/-- Telemetry whose frames carry their times makes a report. -/
theorem reportBuckets_isSome (m : RunMeta) {events : List TlmEvent} {t : ℚ × ℚ}
    (ht : findT0 events = some t)
    (htimed : ∀ e ∈ events, ∀ v, e.body = .vrender v → e.ts.isSome) :
    (reportBuckets m events).isSome := by
  have hfrom := findT0_le ht
  have hpos : 0 < (buildBuckets (m.params t) events).buckets.length := by
    rw [length_buildBuckets]
    exact (m.params t).emptyBuckets_length_pos
  unfold reportBuckets pairedAfter
  rw [ht, Option.bind_some, List.take_length]
  dsimp only
  split_ifs with hfall
  · refine foldlM_pairStep_isSome _ hpos fun e he v hbody => ?_
    obtain ⟨ts, hts⟩ := Option.isSome_iff_exists.mp (htimed e he v hbody)
    exact ⟨ts, hts, hfrom e he ts hts⟩
  · rfl

/-! ## one sample each -/

theorem pairedFrame_eq_zero {tl : List (ℚ × ℚ × ℚ)} {e : TlmEvent}
    (h : ∀ v, e.body ≠ .vrender v) : pairedFrame tl e = 0 := by
  obtain ⟨ts, body⟩ := e
  cases body with
  | vrender v => exact absurd rfl (h v)
  | _ => rfl

theorem directFrame_le_one (e : TlmEvent) : directFrame e ≤ 1 := by
  obtain ⟨ts, body⟩ := e
  cases ts with
  | none => exact Nat.zero_le 1
  | some ts =>
    cases body with
    | vrender v =>
      unfold directFrame
      dsimp only
      cases v.directSample <;> simp
    | _ => exact Nat.zero_le 1

theorem pairedFrame_le_one (tl : List (ℚ × ℚ × ℚ)) (e : TlmEvent) : pairedFrame tl e ≤ 1 := by
  unfold pairedFrame
  split
  · split
    · split_ifs <;> simp
    · simp
  · simp

/-- A direct frame is left out of the second pass if the timeline leaves out its
time. -/
theorem pairedFrame_eq_zero_iff {tl : List (ℚ × ℚ × ℚ)} {e : TlmEvent} (h : directFrame e = 1) :
    pairedFrame tl e = 0 ↔
      ∀ v tv, e.body = .vrender v → v.time e.ts = some tv → audioPtsAt tl tv = none := by
  obtain ⟨ts, body⟩ := e
  cases body with
  | vrender v =>
    have hpts : ∃ pt, v.ptsUs = some pt := by
      unfold directFrame at h
      cases ts with
      | none => cases h
      | some ts =>
        dsimp only at h
        unfold VRender.directSample at h
        cases hv : v.ptsUs with
        | none =>
          rw [hv] at h
          cases v.audioPosUs <;> simp at h
        | some pt => exact ⟨pt, rfl⟩
    obtain ⟨pt, hpt⟩ := hpts
    unfold pairedFrame
    dsimp only
    rw [hpt]
    constructor
    · rintro hzero v' tv hbody htime
      obtain rfl : v = v' := TlmBody.vrender.inj hbody
      rw [htime] at hzero
      dsimp only at hzero
      split_ifs at hzero with hsome
      exact Option.not_isSome_iff_eq_none.mp hsome
    · intro hall
      cases htime : v.time ts with
      | none => rfl
      | some tv =>
        dsimp only
        rw [hall v tv rfl htime]
        rfl
  | _ => cases ts <;> cases h

theorem sum_le_vrenderCount {events : List TlmEvent} {w : TlmEvent → Nat}
    (hone : ∀ e ∈ events, w e ≤ 1) (hzero : ∀ e, (∀ v, e.body ≠ .vrender v) → w e = 0) :
    (events.map w).sum ≤ vrenderCount events := by
  induction events with
  | nil => exact Nat.zero_le _
  | cons e events ih =>
    have hrest := ih fun e' he' => hone e' (List.mem_cons_of_mem e he')
    have hhead := hone e (List.mem_cons_self ..)
    unfold vrenderCount at hrest ⊢
    rw [List.map_cons, List.sum_cons, List.countP_cons]
    by_cases hvrender : ∃ v, e.body = .vrender v
    · obtain ⟨v, hbody⟩ := hvrender
      rw [hbody]
      dsimp only
      rw [if_pos rfl]
      omega
    · push Not at hvrender
      rw [hzero e hvrender]
      omega

/-- What one event gives is what it gives in the two passes. -/
theorem oneSampleEach_iff_frames {m : RunMeta} {events : List TlmEvent} {t : ℚ × ℚ}
    (ht : findT0 events = some t) (h : (reportBuckets m events).isSome) :
    OneSampleEach m events ↔
      ∀ e ∈ events, directFrame e + fallbackFrame (m.params t) events e ≤ 1 := by
  have hfrom : TimesFrom (m.params t).t0 events := findT0_le ht
  have hrun : reportBuckets m events = pairedAfter (m.params t) events events.length := by
    rw [reportBuckets, ht, Option.bind_some]
  rw [hrun] at h
  have hadded : ∀ i, ∀ hi : i < events.length,
      directAdded (m.params t) events i + pairedAdded (m.params t) events i =
        ((directFrame events[i] + fallbackFrame (m.params t) events events[i] : Nat) : ℤ) := by
    intro i hi
    rw [directAdded_eq hfrom hi, pairedAdded_eq h hi]
    push_cast
    rfl
  constructor
  · intro hone e he
    obtain ⟨buckets, hbuckets⟩ := Option.isSome_iff_exists.mp h
    obtain ⟨i, hi, rfl⟩ := List.mem_iff_getElem.mp he
    have hle := (hone t buckets ht (hrun.trans hbuckets)).2 i hi
    rw [hadded i hi] at hle
    exact_mod_cast hle
  · intro hone t' buckets ht' hbuckets
    obtain rfl : t = t' := Option.some.inj (ht.symm.trans ht')
    refine ⟨?_, fun i hi => ?_⟩
    · rw [hrun] at hbuckets
      have hcount := offsetCount_pairedAfter hbuckets
      rw [offsetCount_buildBuckets _ hfrom, List.take_length, directFrames,
        ← List.sum_map_add] at hcount
      rw [hcount]
      refine sum_le_vrenderCount hone fun e he => ?_
      have hfallback : fallbackFrame (m.params t) events e = 0 := by
        unfold fallbackFrame
        split_ifs
        · exact pairedFrame_eq_zero he
        · rfl
      rw [directFrame_eq_zero he, hfallback]
    · rw [hadded i hi]
      exact_mod_cast hone events[i] (List.getElem_mem hi)

/-- A frame is not sampled twice exactly if it is not direct, or there is no second
pass, or the timeline leaves it out. -/
theorem frames_le_one_iff {m : RunMeta} {events : List TlmEvent} {t : ℚ × ℚ}
    (ht : findT0 events = some t) :
    (∀ e ∈ events, directFrame e + fallbackFrame (m.params t) events e ≤ 1) ↔
      NoneDoubled events := by
  have hfrom : TimesFrom (m.params t).t0 events := findT0_le ht
  constructor
  · intro hone hfall e he hdirect v tv hbody htime
    have hle := hone e he
    have hpaired : pairedFrame (sortedTimeline (m.params t) events) e = 0 := by
      unfold fallbackFrame at hle
      rw [if_pos ((fallsBack_iff hfrom).mpr hfall)] at hle
      omega
    exact (audioPtsAt_sortedTimeline hfrom hfall tv).mp
      ((pairedFrame_eq_zero_iff hdirect).mp hpaired v tv hbody htime)
  · intro hnone e he
    have hdirect := directFrame_le_one e
    unfold fallbackFrame
    split_ifs with hfalls
    · have hfall := (fallsBack_iff hfrom).mp hfalls
      have hpaired := pairedFrame_le_one (sortedTimeline (m.params t) events) e
      by_cases hone : directFrame e = 1
      · have hzero : pairedFrame (sortedTimeline (m.params t) events) e = 0 :=
          (pairedFrame_eq_zero_iff hone).mpr fun v tv hbody htime =>
            (audioPtsAt_sortedTimeline hfrom hfall tv).mpr (hnone hfall e he hone v tv hbody htime)
        omega
      · omega
    · omega

/-- For every telemetry that makes a report: every frame gives one offset sample
at most, and all frames together no more than there are `vrender` events, exactly
if no frame that carries its own sample is paired again. -/
theorem one_sample_each_iff (m : RunMeta) (events : List TlmEvent)
    (h : (reportBuckets m events).isSome) : OneSampleEach m events ↔ NoneDoubled events := by
  obtain ⟨buckets, hbuckets⟩ := Option.isSome_iff_exists.mp h
  obtain ⟨t, ht, -⟩ := Option.bind_eq_some_iff.mp hbuckets
  rw [oneSampleEach_iff_frames ht h, frames_le_one_iff ht]

/-! ## one direct frame of three -/

/-- Buckets of a minute, no window, no server. -/
def plainMeta : RunMeta where
  bucketS := 60
  windowS := none
  fifoCap := 8388608
  rt := []
  availStartUs := none
  bucketS_pos := minute_pos

/-- A frame with a pts, with or without the audio position of its flip. -/
def offsetFrame (ts pts : ℚ) (audioPos : Option ℚ) : TlmEvent :=
  { ts := some ts
    body := .vrender
      { ptsUs := some pts, repeated := false, frameIdx := none, vblankUs := none, decodeUs := none,
        audioPosUs := audioPos } }

/-- A rendered period. -/
def renderEvent (ts content : ℚ) : TlmEvent :=
  { ts := some ts
    body := .arender
      { padSamples := none, fifoLevelBytes := none, renderUs := some ts,
        contentPtsUs := some content } }

/-- Every frame carries its audio position. -/
def directEvents : List TlmEvent :=
  [offsetFrame 0 0 (some 0), offsetFrame 16667 16667 (some 16000)]

theorem one_sample_each_iff_direct : OneSampleEach plainMeta directEvents :=
  (one_sample_each_iff plainMeta directEvents
    (reportBuckets_isSome plainMeta (t := (0, 16667)) (by decide +kernel) (by
      intro e he v _
      simp only [directEvents, List.mem_cons, List.not_mem_nil, or_false] at he
      rcases he with rfl | rfl <;> rfl))).mpr (by
    intro hfall
    exact absurd hfall.1 (by decide +kernel))

/-- One frame of three carries its audio position, and the timeline covers all
three. -/
def mixedEvents : List TlmEvent :=
  [renderEvent 0 0, offsetFrame 16667 16667 (some 16000), offsetFrame 33333 33333 none,
    offsetFrame 50000 50000 none, renderEvent 100000 100000]

/-- What is promised of the samples: one for each frame at most. -/
def OneSamplePromise : Prop :=
  ∀ m events, (reportBuckets m events).isSome → OneSampleEach m events

/-- The frame with an audio position is paired again. -/
theorem oneSamplePromise_fails : ¬ OneSamplePromise := by
  intro h
  have ht : findT0 mixedEvents = some (0, 100000) := by decide +kernel
  have hrun : (reportBuckets plainMeta mixedEvents).isSome :=
    reportBuckets_isSome plainMeta ht (by
      intro e he v _
      simp only [mixedEvents, List.mem_cons, List.not_mem_nil, or_false] at he
      rcases he with rfl | rfl | rfl | rfl | rfl <;> rfl)
  have hnone := (frames_le_one_iff ht).mp
    ((oneSampleEach_iff_frames ht hrun).mp (h plainMeta mixedEvents hrun))
  have hfall : FallsBack mixedEvents := by
    refine ⟨by decide +kernel, by decide +kernel, ?_⟩
    rintro ⟨seen, hseen, hmany, -⟩
    have hlen : seen.length ≤ 5 := hseen.length_le
    have hfew := timedFrames_le_length seen
    omega
  have hrender : renderTimes mixedEvents = [0, 100000] := by decide +kernel
  have houtside := hnone hfall (offsetFrame 16667 16667 (some 16000)) (by simp [mixedEvents])
    rfl _ 16667 rfl (by decide +kernel)
  rw [hrender] at houtside
  exact absurd houtside (by decide +kernel)

end Vmc
