import Vmc.Harness.Verdict

/-!
# Vmc.Harness.Certify

What a PASS says about the telemetry itself (`tools/av_harness/av_report.py`, from
`build_buckets` to `main`).

`Counts` is what a bucket counts, without its samples, and a `Tally` one of these
counts with what each event adds to it.  The report enters every event with a time
that is no artifact of the drain, and enters it once: a count summed over the
buckets is what the entered events add (`Tally.total_reportBuckets`).  A PASS wants
the counts of zero tolerance to be zero, and frames and sound to be there; so it
says that no entered event is a fault, and that there are frames and sound among
them (`pass_certifies`).

Padding and dropped frames are amounts, not counts of events, and left to the
gates.
-/

namespace Vmc

/-! ## counts -/

/-- What a bucket counts. -/
structure Counts where
  frames : Nat := 0
  repeats : Nat := 0
  periods : Nat := 0
  buf : Counters := fun _ => 0
  sync : Counters := fun _ => 0
  dec : Counters := fun _ => 0
  netFail : Nat := 0
  netMiss : Nat := 0

def Bucket.counts (b : Bucket) : Counts :=
  ⟨b.vCount, b.vRepeat, b.aCount, b.buf, b.sync, b.dec, b.netFail, b.netMiss⟩

/-- What an event does to the counts. -/
def Counts.enter (c : Counts) : TlmBody → Counts
  | .vrender v =>
    { c with
      frames := c.frames + 1
      repeats := c.repeats + if v.repeated then 1 else 0 }
  | .arender _ => { c with periods := c.periods + 1 }
  | .buf which event =>
    { c with buf := bump c.buf (some (formatField which ++ "." ++ formatField event)) }
  | .sync kind => { c with sync := bump c.sync kind }
  | .dec kind => { c with dec := bump c.dec kind }
  | .net f =>
    if f.status = some 200 then c
    else if f.kind = some "mpd" then { c with sync := bump c.sync (some "mpd_reload_fail") }
    else if f.status = some 404 then { c with netMiss := c.netMiss + 1 }
    else { c with netFail := c.netFail + 1 }
  | _ => c

/-- A bucket counts an event whatever its other fields are. -/
theorem counts_enter (p : ReportParams) (ts : ℚ) (body : TlmBody) (b : Bucket) :
    (b.enter p ts body).counts = b.counts.enter body := by
  cases body with
  | vrender v =>
    have hrepeat : (if v.repeated then b.vRepeat + 1 else b.vRepeat) =
        b.vRepeat + if v.repeated then 1 else 0 := by
      split_ifs <;> rfl
    unfold Bucket.enter Bucket.vrender Bucket.addSamples Bucket.countGap Counts.enter
    dsimp only [Bucket.counts]
    cases v.frameIdx with
    | none => rw [← hrepeat]
    | some fi =>
      cases b.vLastIdx with
      | none => rw [← hrepeat]
      | some l => rw [← hrepeat]
  | net f =>
    unfold Bucket.enter Bucket.net Counts.enter
    by_cases hok : f.status = some 200
    · by_cases hmpd : f.kind = some "mpd"
      · simp [hok, hmpd]
      · simp [hok, hmpd, Bucket.counts]
    · by_cases hmpd : f.kind = some "mpd"
      · simp [hok, hmpd, Bucket.counts]
      · by_cases hmiss : f.status = some 404
        · simp [hmpd, hmiss, Bucket.counts]
        · simp [hok, hmpd, hmiss, Bucket.counts]
  | _ => rfl

theorem counts_of_mem_emptyBuckets {p : ReportParams} {b : Bucket} (h : b ∈ p.emptyBuckets) :
    b.counts = {} := by
  unfold ReportParams.emptyBuckets at h
  simp only [List.mem_append, List.mem_map, List.mem_singleton] at h
  rcases h with ⟨i, -, rfl⟩ | rfl
  · rfl
  · rfl

/-! ## tallies -/

/-- One of the counts, and what an event adds to it. -/
structure Tally where
  read : Counts → Nat
  adds : TlmBody → Nat
  enter : ∀ (c : Counts) (body : TlmBody), read (c.enter body) = read c + adds body
  blank : read {} = 0

/-- The count over all the buckets. -/
def Tally.total (w : Tally) (buckets : List Bucket) : Nat :=
  (buckets.map fun b => w.read b.counts).sum

theorem bump_apply (d : Counters) (key k : Option String) :
    bump d key k = d k + if key = k then 1 else 0 := by
  unfold bump
  split_ifs with h
  · rw [h, Function.update_self]
  · rw [Function.update_of_ne (Ne.symm h), Nat.add_zero]

/-- Presented frames. -/
def frameTally : Tally where
  read := Counts.frames
  adds
    | .vrender _ => 1
    | _ => 0
  enter c body := by
    cases body with
    | net f =>
      dsimp only [Counts.enter]
      split_ifs <;> rfl
    | _ => rfl
  blank := rfl

/-- Repeated frames. -/
def repeatTally : Tally where
  read := Counts.repeats
  adds
    | .vrender v => if v.repeated then 1 else 0
    | _ => 0
  enter c body := by
    cases body with
    | net f =>
      dsimp only [Counts.enter]
      split_ifs <;> rfl
    | _ => rfl
  blank := rfl

/-- Periods of sound. -/
def periodTally : Tally where
  read := Counts.periods
  adds
    | .arender _ => 1
    | _ => 0
  enter c body := by
    cases body with
    | net f =>
      dsimp only [Counts.enter]
      split_ifs <;> rfl
    | _ => rfl
  blank := rfl

/-- Buffer events under a key. -/
def bufTally (key : Option String) : Tally where
  read c := c.buf key
  adds
    | .buf which event =>
      if some (formatField which ++ "." ++ formatField event) = key then 1 else 0
    | _ => 0
  enter c body := by
    cases body with
    | buf which event => exact bump_apply _ _ _
    | net f =>
      dsimp only [Counts.enter]
      split_ifs <;> rfl
    | _ => rfl
  blank := rfl

/-- Sync events under a key; a failed reload of the manifest is among them. -/
def syncTally (key : Option String) : Tally where
  read c := c.sync key
  adds
    | .sync kind => if kind = key then 1 else 0
    | .net f =>
      if f.kind = some "mpd" ∧ f.status ≠ some 200 ∧ some "mpd_reload_fail" = key then 1 else 0
    | _ => 0
  enter c body := by
    cases body with
    | sync kind => exact bump_apply _ _ _
    | net f =>
      dsimp only [Counts.enter]
      by_cases hok : f.status = some 200
      · simp [hok]
      · by_cases hmpd : f.kind = some "mpd"
        · simp [hok, hmpd, bump_apply]
        · simp only [if_neg hok, hmpd, false_and, if_false]
          split_ifs <;> rfl
    | _ => rfl
  blank := rfl

/-- Decoder events under a key. -/
def decTally (key : Option String) : Tally where
  read c := c.dec key
  adds
    | .dec kind => if kind = key then 1 else 0
    | _ => 0
  enter c body := by
    cases body with
    | dec kind => exact bump_apply _ _ _
    | net f =>
      dsimp only [Counts.enter]
      split_ifs <;> rfl
    | _ => rfl
  blank := rfl

/-- Segments that were not found. -/
def missTally : Tally where
  read := Counts.netMiss
  adds
    | .net f => if f.kind ≠ some "mpd" ∧ f.status = some 404 then 1 else 0
    | _ => 0
  enter c body := by
    cases body with
    | net f =>
      dsimp only [Counts.enter]
      split_ifs <;> simp_all
    | _ => rfl
  blank := rfl

/-- Segments that could not be fetched. -/
def failTally : Tally where
  read := Counts.netFail
  adds
    | .net f =>
      if f.kind ≠ some "mpd" ∧ f.status ≠ some 200 ∧ f.status ≠ some 404 then 1 else 0
    | _ => 0
  enter c body := by
    cases body with
    | net f =>
      dsimp only [Counts.enter]
      split_ifs <;> simp_all
    | _ => rfl
  blank := rfl

/-! ## the events a report goes by -/

/-- The time of the last `eos` after an event at `ts`. -/
def lastEos (start : Option ℚ) (ts : ℚ) : TlmBody → Option ℚ
  | .eos => some ts
  | _ => start

/-- One event: the time of the last `eos`, and what has been entered. -/
def enterStep (s : Option ℚ × List TlmBody) (e : TlmEvent) : Option ℚ × List TlmBody :=
  match e.body, e.ts with
  | .bad, _ => s
  | _, none => s
  | body, some ts =>
    if drained s.1 ts body then s
    else (lastEos s.1 ts body, s.2 ++ [body])

/-- The events that are entered: those with a time, the artifacts of the drain
apart. -/
def entered (events : List TlmEvent) : List TlmBody := (events.foldl enterStep (none, [])).2

theorem drained_rel (p : ReportParams) (start : Option ℚ) (ts : ℚ) (body : TlmBody) :
    drained (start.map p.rel) (p.rel ts) body = drained start ts body := by
  cases start with
  | none => rfl
  | some d =>
    unfold drained
    dsimp only [Option.map_some]
    rw [decide_eq_decide.mpr (rel_lt_iff p d ts)]

theorem drainFrom_cutTimeline (acc : ReportAcc) : acc.cutTimeline.drainFrom = acc.drainFrom := by
  unfold ReportAcc.cutTimeline
  split_ifs <;> rfl

/-- The pass has entered these events so far. -/
structure Enters (w : Tally) (p : ReportParams) (s : Option ℚ × List TlmBody) (acc : ReportAcc) :
    Prop where
  length : acc.buckets.length = p.emptyBuckets.length
  drain : acc.drainFrom = s.1.map p.rel
  total : w.total acc.buckets = (s.2.map w.adds).sum

namespace Tally

variable (w : Tally)

theorem total_modify {buckets : List Bucket} {i : Nat} (hi : i < buckets.length)
    (p : ReportParams) (ts : ℚ) (body : TlmBody) :
    w.total (buckets.modify i (Bucket.enter p ts body)) = w.total buckets + w.adds body := by
  have hsum := sum_map_modify (fun b => w.read b.counts) (Bucket.enter p ts body) hi
  rw [counts_enter, w.enter] at hsum
  unfold total
  omega

theorem total_emptyBuckets (p : ReportParams) : w.total p.emptyBuckets = 0 := by
  refine List.sum_eq_zero fun n hn => ?_
  obtain ⟨b, hb, rfl⟩ := List.mem_map.mp hn
  exact (congrArg w.read (counts_of_mem_emptyBuckets hb)).trans w.blank

end Tally

/-- An entered event, in its bucket and in the state of the drain. -/
theorem Enters.enter {w : Tally} {p : ReportParams} {s : Option ℚ × List TlmBody} {acc : ReportAcc}
    (h : Enters w p s acc) {ts : ℚ} (body : TlmBody) :
    Enters w p (lastEos s.1 ts body, s.2 ++ [body])
      ({ acc with buckets := acc.buckets.modify (p.slot ts) (Bucket.enter p ts body) }.note
        (p.rel ts) body).cutTimeline where
  length := by
    rw [buckets_cutTimeline, buckets_note]
    exact (List.length_modify ..).trans h.length
  drain := by
    rw [drainFrom_cutTimeline]
    cases body with
    | eos => rfl
    | _ => exact h.drain
  total := by
    rw [buckets_cutTimeline, buckets_note, List.map_append, List.sum_append, ← h.total]
    exact w.total_modify (h.length ▸ p.slot_lt ts) p ts body

theorem Enters.step {w : Tally} {p : ReportParams} {s : Option ℚ × List TlmBody} {acc : ReportAcc}
    (h : Enters w p s acc) {e : TlmEvent} (hfrom : ∀ ts, e.ts = some ts → p.t0 ≤ ts) :
    Enters w p (enterStep s e) (acc.step p e) := by
  obtain ⟨ts, body⟩ := e
  cases ts with
  | none => cases body <;> exact ⟨h.length, h.drain, h.total⟩
  | some ts =>
    have hbucket : p.bucketOf acc.buckets.length ts = some (p.slot ts) := by
      rw [h.length]
      exact p.bucketOf_of_ge (hfrom ts rfl)
    have hdrained (body : TlmBody) :
        drained acc.drainFrom (p.rel ts) body = drained s.1 ts body := by
      rw [h.drain, drained_rel]
    cases body with
    | bad => exact ⟨h.length, h.drain, h.total⟩
    | _ =>
      unfold ReportAcc.step enterStep
      simp only [hbucket, hdrained]
      split_ifs
      · exact h
      · exact h.enter _

/-- An induction over the file: its events have been entered, each once. -/
theorem enters_buildBuckets (w : Tally) {p : ReportParams} {events : List TlmEvent}
    (hfrom : TimesFrom p.t0 events) :
    Enters w p (events.foldl enterStep (none, [])) (buildBuckets p events) := by
  induction events using List.reverseRecOn with
  | nil => exact ⟨rfl, rfl, w.total_emptyBuckets p⟩
  | append_singleton events e ih =>
    obtain ⟨hevents, he⟩ := timesFrom_of_append hfrom
    rw [buildBuckets_append, List.foldl_append]
    exact (ih hevents).step he

/-! ## the second pass -/

/-- The second pass only adds samples. -/
theorem pairStep_cases {p : ReportParams} {tl : List (ℚ × ℚ × ℚ)} {buckets buckets' : List Bucket}
    {e : TlmEvent} (h : pairStep p tl buckets e = some buckets') :
    buckets' = buckets ∨ ∃ i off rel, buckets' = buckets.modify i (Bucket.addOffset off rel) := by
  unfold pairStep at h
  split at h
  · split at h
    · exact .inl (Option.some.inj h).symm
    · split at h
      · cases h
      · split at h
        · exact .inl (Option.some.inj h).symm
        · split at h
          · cases h
          · obtain ⟨i, -, rfl⟩ := Option.map_eq_some_iff.mp h
            exact .inr ⟨i, _, _, rfl⟩
  · exact .inl (Option.some.inj h).symm

namespace Tally

variable (w : Tally)

theorem total_pairStep {p : ReportParams} {tl : List (ℚ × ℚ × ℚ)} {buckets buckets' : List Bucket}
    {e : TlmEvent} (h : pairStep p tl buckets e = some buckets') :
    w.total buckets' = w.total buckets := by
  rcases pairStep_cases h with rfl | ⟨i, off, rel, rfl⟩
  · rfl
  · have hsame (b : Bucket) : w.read (b.addOffset off rel).counts = w.read b.counts := rfl
    exact congrArg List.sum (map_modify_same hsame buckets i)

theorem total_foldlM {p : ReportParams} {tl : List (ℚ × ℚ × ℚ)} {events : List TlmEvent}
    {buckets buckets' : List Bucket}
    (h : events.foldlM (pairStep p tl) buckets = some buckets') :
    w.total buckets' = w.total buckets := by
  induction events generalizing buckets with
  | nil =>
    obtain rfl := Option.some.inj h
    rfl
  | cons e events ih =>
    rw [List.foldlM_cons] at h
    obtain ⟨mid, hmid, hrest⟩ := Option.bind_eq_some_iff.mp h
    rw [ih hrest, w.total_pairStep hmid]

/-- **Each event counts once.**  A count over the buckets of a report is what the
entered events add to it. -/
theorem total_reportBuckets {m : RunMeta} {events : List TlmEvent} {buckets : List Bucket}
    (h : reportBuckets m events = some buckets) :
    w.total buckets = ((entered events).map w.adds).sum := by
  obtain ⟨t, ht, hpaired⟩ := Option.bind_eq_some_iff.mp h
  have hfirst := (enters_buildBuckets w (p := m.params t) (findT0_le ht)).total
  refine Eq.trans ?_ hfirst
  unfold pairedAfter at hpaired
  dsimp only at hpaired
  split_ifs at hpaired with hfall
  · exact w.total_foldlM hpaired
  · obtain rfl := Option.some.inj hpaired
    rfl

end Tally

/-! ## what a PASS certifies -/

/-- The counts of events among those of zero tolerance. -/
def faultTallies : List Tally :=
  [bufTally (some "audio_fifo.underflow"), bufTally (some "audio_fifo.overflow"),
    bufTally (some "jitter_buffer.underflow"), bufTally (some "jitter_buffer.overflow"),
    bufTally (some "drm_pool.exhausted"), bufTally (some "seg_queue.starved"),
    failTally, missTally, syncTally (some "mpd_reload_fail"),
    syncTally (some "vsync_miss"), syncTally (some "vsync_dup"), syncTally (some "flip_error"),
    syncTally (some "flip_timeout"), syncTally (some "drm_event_starve"),
    syncTally (some "async_cuda"), syncTally (some "async_copy"), syncTally (some "async_stage"),
    syncTally (some "clock_fallback"), repeatTally,
    decTally (some "decode_error"), decTally (some "decoder_reinit"),
    decTally (some "corrupt_frame"), decTally (some "missing_ref"),
    decTally (some "decoder_unavailable")]

theorem read_eq_zero_of_zeroFailures {g : GateLimits} {c : ContentParams} {b : Bucket}
    (h : zeroFailures (bucketView g c b) = []) {w : Tally} (hw : w ∈ faultTallies) :
    w.read b.counts = 0 := by
  have hzero : ∀ z ∈ zeroTolerance, z.2.2 (bucketView g c b) ≤ 0 := by
    intro z hz
    by_contra hpos
    have hmem := mem_zeroFailures.mpr ⟨z, hz, not_le.mp hpos, rfl⟩
    rw [h] at hmem
    exact List.not_mem_nil hmem
  simp only [zeroTolerance, bucketView, List.forall_mem_cons, Nat.cast_nonpos] at hzero
  have hall : ∀ w ∈ faultTallies, w.read b.counts = 0 := by
    simp [faultTallies, Bucket.counts, bufTally, syncTally, decTally, failTally, missTally,
      repeatTally, hzero]
  exact hall w hw

theorem grade_pass {agg : Aggregate} {failed : List FailedGate}
    (h : (grade agg failed).1 = .pass) : failed = [] := by
  unfold grade at h
  split_ifs at h with hdec henv hne
  exact not_not.mp hne

theorem framesPresented_aggregate (g : GateLimits) (c : ContentParams) (buckets : List Bucket) :
    (aggregate c (buckets.map (bucketView g c)) buckets).framesPresented =
      frameTally.total buckets :=
  congrArg List.sum (List.map_map ..)

theorem audioPeriodsWritten_aggregate (g : GateLimits) (c : ContentParams)
    (buckets : List Bucket) :
    (aggregate c (buckets.map (bucketView g c)) buckets).audioPeriodsWritten =
      periodTally.total buckets :=
  congrArg List.sum (List.map_map ..)

/-- The harness has seen frames and sound if its sanity checks pass. -/
theorem of_sanityFailures {m : ReportMeta} {agg : Aggregate} {lr : LongRun} {spanS : ℚ}
    {srv : List (Option String)} (h : sanityFailures m agg lr spanS srv = []) :
    agg.framesPresented ≠ 0 ∧ agg.audioPeriodsWritten ≠ 0 := by
  unfold sanityFailures at h
  dsimp only at h
  rw [List.append_eq_nil_iff, List.append_eq_nil_iff, List.append_eq_nil_iff] at h
  obtain ⟨⟨⟨-, hframes⟩, hperiods⟩, -⟩ := h
  constructor
  · intro hzero
    rw [if_pos hzero] at hframes
    cases hframes
  · intro hzero
    rw [if_pos hzero] at hperiods
    cases hperiods

/-- Among the entered events one adds to a count that is not zero. -/
theorem Tally.exists_entered {w : Tally} {m : RunMeta} {events : List TlmEvent}
    {buckets : List Bucket} (h : reportBuckets m events = some buckets)
    (hpos : w.total buckets ≠ 0) : ∃ body ∈ entered events, w.adds body ≠ 0 := by
  rw [w.total_reportBuckets h] at hpos
  by_contra hnone
  push Not at hnone
  refine hpos (List.sum_eq_zero fun n hn => ?_)
  obtain ⟨body, hbody, rfl⟩ := List.mem_map.mp hn
  exact hnone body hbody

/-- **A PASS hides no fault.**  Whatever telemetry, limits and meta data: if the
verdict is PASS, no event of the file that has a time and is no artifact of the
drain adds to a count of zero tolerance, and there are presented frames and
periods of sound among these events. -/
theorem pass_certifies (g : GateLimits) (m : ReportMeta) (events : List TlmEvent)
    (rows : List ResSample) (srv : List (Option String)) (r : AvReport)
    (h : avReport g m events rows srv = some r) (hpass : r.verdict = .pass) :
    (∀ w ∈ faultTallies, ∀ body ∈ entered events, w.adds body = 0) ∧
      (∃ v, .vrender v ∈ entered events) ∧ ∃ a, .arender a ∈ entered events := by
  unfold avReport at h
  split at h
  · obtain rfl := Option.some.inj h
    cases hpass
  · obtain ⟨buckets, hbuckets, rfl⟩ := Option.map_eq_some_iff.mp h
    have hfailed := grade_pass hpass
    rw [List.append_eq_nil_iff, List.append_eq_nil_iff, List.flatMap_eq_nil_iff] at hfailed
    obtain ⟨⟨hviews, -⟩, hsanity⟩ := hfailed
    refine ⟨fun w hw body hbody => ?_, ?_, ?_⟩
    · have htotal : w.total buckets = 0 := by
        refine List.sum_eq_zero fun n hn => ?_
        obtain ⟨b, hb, rfl⟩ := List.mem_map.mp hn
        obtain ⟨fs, heq, -⟩ := viewFailures_eq g (bucketView g m.content b)
        have hnone := hviews _ (List.mem_map_of_mem hb)
        rw [heq, List.append_eq_nil_iff] at hnone
        exact read_eq_zero_of_zeroFailures hnone.1 hw
      rw [w.total_reportBuckets hbuckets, List.sum_eq_zero_iff] at htotal
      exact htotal _ (List.mem_map_of_mem hbody)
    · have hframes : frameTally.total buckets ≠ 0 := by
        rw [← framesPresented_aggregate g m.content]
        exact (of_sanityFailures hsanity).1
      obtain ⟨body, hbody, hadds⟩ := Tally.exists_entered hbuckets hframes
      cases body with
      | vrender v => exact ⟨v, hbody⟩
      | _ => exact absurd rfl hadds
    · have hperiods : periodTally.total buckets ≠ 0 := by
        rw [← audioPeriodsWritten_aggregate g m.content]
        exact (of_sanityFailures hsanity).2
      obtain ⟨body, hbody, hadds⟩ := Tally.exists_entered hbuckets hperiods
      cases body with
      | arender a => exact ⟨a, hbody⟩
      | _ => exact absurd rfl hadds

/-- A frame missed in the drain. -/
def drainedMiss : TlmEvent := ⟨some 10500, .sync (some "vsync_miss")⟩

theorem pass_certifies_drained :
    (∀ body ∈ entered (steadyEvents ++ [drainedMiss]),
      (syncTally (some "vsync_miss")).adds body = 0) ∧
      ∃ v, TlmBody.vrender v ∈ entered (steadyEvents ++ [drainedMiss]) := by
  have hrun : (avReport {} steadyMeta (steadyEvents ++ [drainedMiss])
      [⟨0, some 1, some 1, some 1⟩] []).map (fun r => r.verdict) = some .pass := by
    decide +kernel
  have htally : syncTally (some "vsync_miss") ∈ faultTallies := by simp [faultTallies]
  obtain ⟨r, hr, hpass⟩ := Option.map_eq_some_iff.mp hrun
  obtain ⟨hfaults, hframe, -⟩ := pass_certifies {} steadyMeta _ _ _ r hr hpass
  exact ⟨hfaults _ htally, hframe⟩

end Vmc
