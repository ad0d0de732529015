import Vmc.Harness.ClockMap

/-!
# Vmc.Harness.Buckets

The second pass of the report over the client telemetry
(`tools/av_harness/av_report.py`, `build_buckets`): every event is entered into
the bucket of its time.  Times and values are rationals; the duration of a
bucket is positive.

A field an event does not carry, or carries as null, is `none`.
-/

namespace Vmc

/-! ## events -/

/-- The fields of a `vrender` event that are read. -/
structure VRender where
  ptsUs : Option ℚ
  repeated : Bool
  frameIdx : Option ℤ
  vblankUs : Option ℚ
  decodeUs : Option ℚ
  audioPosUs : Option ℚ

/-- The fields of an `arender` event that are read. -/
structure ARender where
  padSamples : Option ℚ
  fifoLevelBytes : Option ℚ
  renderUs : Option ℚ
  contentPtsUs : Option ℚ

/-- The fields of a `net` event that are read. -/
structure NetFetch where
  kind : Option String
  status : Option ℤ
  totalUs : Option ℚ
  rttUs : Option ℚ

/-- An event by its `t`; `bad` is a line that does not parse. -/
inductive TlmBody where
  | bad
  | vrender (v : VRender)
  | arender (a : ARender)
  | buf (which event : Option String)
  | sync (kind : Option String)
  | dec (kind : Option String)
  | net (f : NetFetch)
  | eos
  | other

structure TlmEvent where
  ts : Option ℚ
  body : TlmBody

/-- Python's `x or y` on a number that may be absent: zero counts as absent. -/
def orElse (x y : Option ℚ) : Option ℚ := if x = some 0 then y else x <|> y

/-- The time of a frame: `vblank_us or ts`. -/
def VRender.time (v : VRender) (ts : Option ℚ) : Option ℚ := orElse v.vblankUs ts

/-- `e.get("pad_samples", 0) or 0`. -/
def ARender.pad (a : ARender) : ℚ := a.padSamples.getD 0

/-! ## buckets -/

/-- A dictionary of counters; a key may be `None`. -/
abbrev Counters := Option String → Nat

/-- `bump`. -/
def bump (d : Counters) (key : Option String) : Counters := Function.update d key (d key + 1)

/-- `Bucket`. -/
structure Bucket where
  index : ℤ
  tStartS : ℚ
  spanS : ℚ
  complete : Bool
  vCount : Nat := 0
  vRepeat : Nat := 0
  vDrop : ℤ := 0
  vLastIdx : Option ℤ := none
  intervals : List ℚ := []
  lastVts : Option ℚ := none
  decodeMs : List ℚ := []
  offsets : List ℚ := []
  offsetTimes : List ℚ := []
  presentDelays : List ℚ := []
  aCount : Nat := 0
  aPad : ℚ := 0
  fifoMinPct : Option ℚ := none
  buf : Counters := fun _ => 0
  sync : Counters := fun _ => 0
  dec : Counters := fun _ => 0
  netOk : Nat := 0
  netFail : Nat := 0
  netMiss : Nat := 0
  fetchMs : List ℚ := []
  rttMs : List ℚ := []

/-- The arguments of `build_buckets` that are used. -/
structure ReportParams where
  t0 : ℚ
  spanS : ℚ
  bucketS : ℚ
  fifoCap : ℚ
  rt : List (ℚ × ℚ)
  availStartUs : Option ℚ
  bucketS_pos : 0 < bucketS

namespace ReportParams

variable (p : ReportParams)

/-- `rel`: seconds since `t0`. -/
def rel (ts : ℚ) : ℚ := (ts - p.t0) / 1000000

/-- The buckets before the first event: the complete ones, and the tail. -/
def emptyBuckets : List Bucket :=
  let nComplete := ⌊p.spanS / p.bucketS⌋
  ((List.range nComplete.toNat).map fun i =>
    { index := i, tStartS := i * p.bucketS, spanS := p.bucketS, complete := true }) ++
  [{ index := nComplete, tStartS := nComplete * p.bucketS,
     spanS := p.spanS - nComplete * p.bucketS, complete := false }]

/-- The bucket of a time, of `n` buckets: none before `t0`, the last behind the
end. -/
def bucketOf (n : Nat) (ts : ℚ) : Option Nat :=
  let bi := ⌊p.rel ts / p.bucketS⌋
  if bi < 0 then none else some (if n ≤ bi.toNat then n - 1 else bi.toNat)

end ReportParams

/-! ## one event in its bucket -/

/-- The offset sample a frame carries itself. -/
def VRender.directSample (v : VRender) : Option ℚ :=
  match v.audioPosUs, v.ptsUs with
  | some ap, some pt => some ((pt - ap) / 1000)
  | _, _ => none

/-- The gap count for a presented `frame_idx`. -/
def Bucket.countGap (b : Bucket) (frameIdx : Option ℤ) : Bucket :=
  match frameIdx with
  | none => b
  | some fi =>
    match b.vLastIdx with
    | none => { b with vLastIdx := some fi }
    | some l =>
      { b with
        vDrop := if fi - l > 1 then b.vDrop + (fi - l - 1) else b.vDrop
        vLastIdx := some fi }

/-- The samples of a frame: the interval to the one before, its decode time, its
offset and its presentation delay. -/
def Bucket.addSamples (p : ReportParams) (b : Bucket) (ts : ℚ) (v : VRender) : Bucket :=
  let vts := (v.time (some ts)).getD ts
  { b with
    intervals := b.intervals ++ (b.lastVts.map fun l => (vts - l) / 1000).toList
    lastVts := some vts
    decodeMs := b.decodeMs ++ (v.decodeUs.map (· / 1000)).toList
    offsets := b.offsets ++ v.directSample.toList
    offsetTimes := b.offsetTimes ++ (v.directSample.map fun _ => p.rel ts).toList
    presentDelays :=
      match p.availStartUs, realtimeOf p.rt vts, v.ptsUs with
      | some avail, some rtNow, some pt => b.presentDelays ++ [(rtNow - avail - pt) / 1000]
      | _, _, _ => b.presentDelays }

/-- `vrender`. -/
def Bucket.vrender (p : ReportParams) (b : Bucket) (ts : ℚ) (v : VRender) : Bucket :=
  let b :=
    { b with
      vCount := b.vCount + 1
      vRepeat := if v.repeated then b.vRepeat + 1 else b.vRepeat }
  (b.countGap v.frameIdx).addSamples p ts v

/-- `arender`. -/
def Bucket.arender (p : ReportParams) (b : Bucket) (a : ARender) : Bucket :=
  { b with
    aCount := b.aCount + 1
    aPad := b.aPad + a.pad
    fifoMinPct :=
      match a.fifoLevelBytes with
      | none => b.fifoMinPct
      | some lvl =>
        if p.fifoCap = 0 then b.fifoMinPct
        else
          let pct := 100 * lvl / p.fifoCap
          match b.fifoMinPct with
          | none => some pct
          | some m => some (if pct < m then pct else m) }

/-- `net`; a reload of the manifest only counts when it failed. -/
def Bucket.net (b : Bucket) (f : NetFetch) : Bucket :=
  if f.kind = some "mpd" then
    if f.status = some 200 then b else { b with sync := bump b.sync (some "mpd_reload_fail") }
  else
    { b with
      netOk := if f.status = some 200 then b.netOk + 1 else b.netOk
      netMiss := if f.status = some 404 then b.netMiss + 1 else b.netMiss
      netFail :=
        if f.status ≠ some 200 ∧ f.status ≠ some 404 then b.netFail + 1 else b.netFail
      fetchMs :=
        if f.status = some 200 then b.fetchMs ++ (f.totalUs.map (· / 1000)).toList else b.fetchMs
      rttMs := b.rttMs ++ (f.rttUs.map (· / 1000)).toList }

/-- `"%s"` of a field. -/
def formatField (s : Option String) : String := s.getD "None"

/-- What an event at `ts` does to its bucket. -/
def Bucket.enter (p : ReportParams) (ts : ℚ) (body : TlmBody) (b : Bucket) : Bucket :=
  match body with
  | .vrender v => b.vrender p ts v
  | .arender a => b.arender p a
  | .buf which event =>
    { b with buf := bump b.buf (some (formatField which ++ "." ++ formatField event)) }
  | .sync kind => { b with sync := bump b.sync kind }
  | .dec kind => { b with dec := bump b.dec kind }
  | .net f => b.net f
  | .bad => b
  | .eos => b
  | .other => b

/-! ## the pass -/

/-- The state of the loop: the buckets, and what `build_buckets` returns beside
them. -/
structure ReportAcc where
  buckets : List Bucket
  bad : Nat := 0
  eos : Option ℚ := none
  drainFrom : Option ℚ := none
  maxPts : ℤ := 0
  aTimeline : List (ℚ × ℚ × ℚ) := []
  needTimeline : Bool := true
  directSeen : Nat := 0
  vrSeen : Nat := 0

/-- Whether an event is an artifact of the drain after `eos`. -/
def drained (drainFrom : Option ℚ) (rel : ℚ) (body : TlmBody) : Bool :=
  match drainFrom with
  | none => false
  | some d =>
    decide (d < rel) &&
      match body with
      | .buf _ _ => true
      | .sync _ => true
      | .dec _ => true
      | .net _ => true
      | .arender a => decide (a.pad ≠ 0)
      | _ => false

/-- Python's `int` of a number. -/
def pyInt (x : ℚ) : ℤ := if 0 ≤ x then ⌊x⌋ else ⌈x⌉

/-- The entry of the fallback timeline an `arender` at `rel` makes. -/
def ARender.timelineEntry (a : ARender) (rel : ℚ) : Option (ℚ × ℚ × ℚ) :=
  match a.renderUs, a.contentPtsUs with
  | some t, some c => some (t, c, rel)
  | _, _ => none

/-- What an entered event does beside its bucket. -/
def ReportAcc.note (acc : ReportAcc) (rel : ℚ) (body : TlmBody) : ReportAcc :=
  match body with
  | .vrender v =>
    { acc with
      vrSeen := acc.vrSeen + 1
      maxPts :=
        match v.ptsUs with
        | some pv => if acc.maxPts < pyInt pv then pyInt pv else acc.maxPts
        | none => acc.maxPts
      directSeen := acc.directSeen + v.directSample.toList.length }
  | .arender a =>
    { acc with
      aTimeline :=
        if acc.needTimeline then acc.aTimeline ++ (a.timelineEntry rel).toList else acc.aTimeline }
  | .eos => { acc with eos := some rel, drainFrom := some rel }
  | _ => acc

/-- With enough direct samples the timeline is thrown away, for good.  A turn the
source ends early changes no count, so the check may be made there as well. -/
def ReportAcc.cutTimeline (acc : ReportAcc) : ReportAcc :=
  if acc.needTimeline = true ∧ 500 < acc.vrSeen ∧ acc.vrSeen ≤ 2 * acc.directSeen then
    { acc with needTimeline := false, aTimeline := [] }
  else acc

/-- One turn of the loop. -/
def ReportAcc.step (p : ReportParams) (acc : ReportAcc) (e : TlmEvent) : ReportAcc :=
  match e.body, e.ts with
  | .bad, _ => { acc with bad := acc.bad + 1 }
  | _, none => acc
  | body, some ts =>
    if drained acc.drainFrom (p.rel ts) body then acc
    else
      match p.bucketOf acc.buckets.length ts with
      | none => acc
      | some bi =>
        ({ acc with buckets := acc.buckets.modify bi (Bucket.enter p ts body) }.note
          (p.rel ts) body).cutTimeline

/-- `build_buckets`. -/
def buildBuckets (p : ReportParams) (events : List TlmEvent) : ReportAcc :=
  events.foldl (ReportAcc.step p) { buckets := p.emptyBuckets }

/-! ## buckets of a pass -/

/-- A total over a list after one entry of it has changed. -/
theorem sum_map_modify {α M : Type*} [AddCommMonoid M] (g : α → M) (f : α → α) {l : List α}
    {i : Nat} (hi : i < l.length) :
    ((l.modify i f).map g).sum + g l[i] = (l.map g).sum + g (f l[i]) := by
  induction l generalizing i with
  | nil => exact absurd hi (Nat.not_lt_zero i)
  | cons a l ih =>
    cases i with
    | zero =>
      simp only [List.modify_zero_cons, List.map_cons, List.sum_cons, List.getElem_cons_zero]
      abel
    | succ i =>
      have hrest := ih (i := i) (by simpa using hi)
      simp only [List.modify_succ_cons, List.map_cons, List.sum_cons, List.getElem_cons_succ]
      rw [add_assoc, hrest, add_assoc]

theorem map_modify_of {α β : Type*} {g : α → β} {f : α → α} {f' : β → β}
    (h : ∀ a, g (f a) = f' (g a)) (l : List α) (i : Nat) :
    (l.modify i f).map g = (l.map g).modify i f' := by
  induction l generalizing i with
  | nil => cases i <;> rfl
  | cons a l ih =>
    cases i with
    | zero => simp [h]
    | succ i => simp [ih i]

theorem map_modify_same {α β : Type*} {g : α → β} {f : α → α} (h : ∀ a, g (f a) = g a)
    (l : List α) (i : Nat) : (l.modify i f).map g = l.map g := by
  rw [@map_modify_of α β g f id h l i, List.modify_id]

theorem buckets_note (acc : ReportAcc) (rel : ℚ) (body : TlmBody) :
    (acc.note rel body).buckets = acc.buckets := by
  cases body <;> rfl

theorem buckets_cutTimeline (acc : ReportAcc) : acc.cutTimeline.buckets = acc.buckets := by
  unfold ReportAcc.cutTimeline
  split_ifs <;> rfl

/-- What a turn does to the buckets: nothing, or it enters the event into the
bucket of its time. -/
theorem buckets_step (p : ReportParams) (acc : ReportAcc) (e : TlmEvent) :
    (acc.step p e).buckets = acc.buckets ∨
      ∃ ts bi, e.ts = some ts ∧ p.bucketOf acc.buckets.length ts = some bi ∧
        (acc.step p e).buckets = acc.buckets.modify bi (Bucket.enter p ts e.body) := by
  unfold ReportAcc.step
  split
  · exact .inl rfl
  · exact .inl rfl
  · rename_i ts hts hbad
    split_ifs with hdrained
    · exact .inl rfl
    · cases hbi : p.bucketOf acc.buckets.length ts with
      | none => exact .inl rfl
      | some bi =>
        refine .inr ⟨ts, bi, hts, hbi, ?_⟩
        dsimp only
        rw [buckets_cutTimeline, buckets_note]

/-- A presented frame after `t0` is always entered. -/
theorem buckets_step_vrender (p : ReportParams) (acc : ReportAcc) {e : TlmEvent} {v : VRender}
    (hbody : e.body = .vrender v) {ts : ℚ} (hts : e.ts = some ts) {bi : Nat}
    (hbi : p.bucketOf acc.buckets.length ts = some bi) :
    acc.step p e =
      ({ acc with buckets := acc.buckets.modify bi fun b => b.vrender p ts v }.note (p.rel ts)
        (.vrender v)).cutTimeline := by
  have hdrained : drained acc.drainFrom (p.rel ts) (.vrender v) = false := by
    unfold drained
    cases acc.drainFrom <;> simp
  unfold ReportAcc.step
  rw [hbody, hts]
  simp only [hdrained, hbi]
  rfl

theorem length_buckets_step (p : ReportParams) (acc : ReportAcc) (e : TlmEvent) :
    (acc.step p e).buckets.length = acc.buckets.length := by
  rcases buckets_step p acc e with h | ⟨ts, bi, -, -, h⟩
  · rw [h]
  · rw [h, List.length_modify]

theorem length_buildBuckets (p : ReportParams) (events : List TlmEvent) :
    (buildBuckets p events).buckets.length = p.emptyBuckets.length := by
  unfold buildBuckets
  induction events using List.reverseRecOn with
  | nil => rfl
  | append_singleton events e ih =>
    rw [List.foldl_append]
    exact (length_buckets_step p _ e).trans ih

/-! ## the bucket of a time -/

namespace ReportParams

variable (p : ReportParams)

theorem emptyBuckets_length_pos : 0 < p.emptyBuckets.length := by
  simp [emptyBuckets]

/-- A bucket before the first event has counted nothing. -/
theorem of_mem_emptyBuckets {b : Bucket} (h : b ∈ p.emptyBuckets) :
    b.vDrop = 0 ∧ b.vLastIdx = none ∧ b.offsets = [] := by
  unfold emptyBuckets at h
  simp only [List.mem_append, List.mem_map, List.mem_singleton] at h
  rcases h with ⟨i, -, rfl⟩ | rfl
  · exact ⟨rfl, rfl, rfl⟩
  · exact ⟨rfl, rfl, rfl⟩

/-- The bucket of a time from `t0` on. -/
def slot (ts : ℚ) : Nat :=
  if p.emptyBuckets.length ≤ ⌊p.rel ts / p.bucketS⌋.toNat then p.emptyBuckets.length - 1
  else ⌊p.rel ts / p.bucketS⌋.toNat

theorem rel_nonneg {ts : ℚ} (h : p.t0 ≤ ts) : 0 ≤ p.rel ts :=
  div_nonneg (sub_nonneg.mpr h) (by norm_num)

theorem bucketOf_of_ge {ts : ℚ} (h : p.t0 ≤ ts) :
    p.bucketOf p.emptyBuckets.length ts = some (p.slot ts) := by
  have hnonneg : 0 ≤ ⌊p.rel ts / p.bucketS⌋ :=
    Int.floor_nonneg.mpr (div_nonneg (p.rel_nonneg h) p.bucketS_pos.le)
  unfold bucketOf slot
  dsimp only
  rw [if_neg (not_lt.mpr hnonneg)]

theorem slot_lt (ts : ℚ) : p.slot ts < p.emptyBuckets.length := by
  have hpos := p.emptyBuckets_length_pos
  unfold slot
  split_ifs with h
  · omega
  · omega

end ReportParams

/-- A minute is a bucket length. -/
theorem minute_pos : (0 : ℚ) < 60 := by norm_num

end Vmc
