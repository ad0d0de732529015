import Vmc.Client.DashReader

/-!
# Vmc.Client.ReaderAnchor

When the reader of `dash_reader_direct` re-anchors the timeline
(`apps/thinclient/main.c`).

The fetch loops are those of `Vmc.Client.DashReader`; beside them the model
carries the anchor of the playback clock, which the reader drops and sets and
which the audio worker and the watchdog write as well.  `exec_erase` is the
connection: with the anchor forgotten, a run is a run of the fetch loops.

The reader calls `dash_resync` for a segment when there is no anchor, or when
the segment does not follow `last_vnum`.  The second never happens, since
whatever moves `vn` moves `last_vnum` along: a jump over a rolled window, or
over a segment that could not be demuxed, goes unseen.
`jump_resyncs` says what it takes for every discontinuity to be noticed.
-/

namespace Vmc

open CInt

/-! ## the anchor -/

/-- What the reader does that is visible outside, with its own `dash_resync`. -/
inductive SyncEvent where
  | reader (e : ReaderEvent)
  | resync (seg : Int)
deriving DecidableEq, Repr

namespace SyncEvent

/-- The video segment handed to `dash_demux_segment`. -/
def videoDemuxed : SyncEvent → Option Int
  | reader e => e.videoDemuxed
  | resync _ => none

/-- The event of the fetch loops. -/
def toReader? : SyncEvent → Option ReaderEvent
  | reader e => some e
  | resync _ => none

end SyncEvent

/-- What `dash_resync` reads: the wall clock and the audio worker's globals. -/
structure SyncClock where
  wallNowUs : UInt64
  audioStartWallUs : UInt64
  audioDelayUs : UInt64

/-- `anchor_us` of `dash_resync`. -/
def SyncClock.anchorUs (k : SyncClock) : UInt64 :=
  if k.audioStartWallUs ≠ 0 then
    let delay := if k.audioDelayUs ≠ 0 then k.audioDelayUs else audioPrefetchUs
    k.audioStartWallUs + delay - 85000
  else k.wallNowUs + audioPrefetchUs - 85000

/-- One pass of the video loop: how the request turns out, the anchor another
thread has written since the reader last looked, and the clock a `dash_resync`
would read. -/
structure VideoFetch where
  fetch : Fetch
  foreign : Option (UInt64 × Int)
  clock : SyncClock

/-- An iteration, with what the video loop meets beside its requests. -/
structure SyncIteration where
  m : DashManifest
  now : Int
  audio : List Fetch
  video : List VideoFetch

/-- The iteration as the fetch loops see it. -/
def SyncIteration.toIteration (it : SyncIteration) : Iteration :=
  ⟨it.m, it.now, it.audio, it.video.map (·.fetch)⟩

/-- The reader with the anchor, `g_anchor_wall_us` and `g_anchor_seg`. -/
structure SyncReader where
  r : DashReader
  anchorWallUs : UInt64
  anchorSeg : Int

namespace SyncReader

/-- A fresh DASH session drops the anchor. -/
def start : SyncReader := ⟨DashReader.start, 0, 0⟩

/-- A write to the anchor by another thread. -/
def interfere (s : SyncReader) : Option (UInt64 × Int) → SyncReader
  | none => s
  | some (wallUs, seg) => { s with anchorWallUs := wallUs, anchorSeg := seg }

/-- `dash_resync`, on the anchor. -/
def dashResync (s : SyncReader) (nextSeg : Int) (k : SyncClock) : SyncReader :=
  { s with anchorWallUs := k.anchorUs, anchorSeg := nextSeg }

/-- The test before a segment is demuxed. -/
def Jumps (s : SyncReader) (vn : Int) : Prop :=
  s.anchorWallUs = 0 ∨ (0 ≤ s.r.lastVnum ∧ vn ≠ toInt (s.r.lastVnum + 1))

instance (s : SyncReader) (vn : Int) : Decidable (s.Jumps vn) := by
  unfold Jumps
  infer_instance

/-- The resync a segment gets before it is demuxed. -/
def anchor (s : SyncReader) (vn : Int) (k : SyncClock) : SyncReader × List SyncEvent :=
  if s.Jumps vn then (s.dashResync vn k, [.resync vn]) else (s, [])

/-- The video fetch loop, from segment `vn` on. -/
def videoLoop (c : DashSession) (m : DashManifest) (hi : Int) :
    List VideoFetch → Int → SyncReader → SyncReader × List SyncEvent
  | [], _, s => (s, [])
  | f :: fs, vn, s =>
      if vn ≤ hi then
        let s := s.interfere f.foreign
        match f.fetch with
        | .failed => (s, [.reader (.requestVideo vn)])
        | .got fetchUs whole =>
            let s := { s with r := s.r.updateLiveBuffer fetchUs (toInt m.segDurationUs) }
            if whole ∨ ¬ c.hasInitV then
              let a := s.anchor vn f.clock
              let p := videoLoop c m hi fs (toInt (vn + 1))
                { a.1 with r := { a.1.r with lastVnum := vn } }
              (p.1, .reader (.requestVideo vn) :: a.2 ++ .reader (.demuxVideo vn) :: p.2)
            else
              let p := videoLoop c m hi fs (toInt (vn + 1)) { s with r := { s.r with lastVnum := vn } }
              (p.1, .reader (.requestVideo vn) :: p.2)
      else (s, [])

/-- The video half of an iteration; the reset drops the anchor as well. -/
def fetchVideo (c : DashSession) (s : SyncReader) (it : SyncIteration) :
    SyncReader × List SyncEvent :=
  if it.toIteration.Resets s.r then
    let q := videoLoop c it.m (it.toIteration.vfetchHi s.r) it.video (it.toIteration.videoTarget s.r)
      ⟨{ s.r with lastVnum := -1, lastAnum := -1 }, 0, 0⟩
    (q.1, .reader .reset :: q.2)
  else
    videoLoop c it.m (it.toIteration.vfetchHi s.r) it.video (it.toIteration.resume s.r).2
      { s with r := { s.r with lastVnum := (it.toIteration.resume s.r).1 } }

/-- One iteration, with what it did. -/
def iteration (c : DashSession) (s : SyncReader) (it : SyncIteration) :
    SyncReader × List SyncEvent :=
  let a := s.r.fetchAudio c it.toIteration
  let v := fetchVideo c { s with r := a.1 } it
  let total := it.m.totalSegments
  let eos : Bool := it.m.staticMpd ∧ 0 < total ∧ toInt (toInt total - 1) ≤ v.1.r.lastVnum
  ({ v.1 with r := { v.1.r with eosReached := eos } }, a.2.map .reader ++ v.2)

/-- The loop: no iteration follows the one that reached the end of the clip. -/
def step (c : DashSession) (s : SyncReader × List SyncEvent) (it : SyncIteration) :
    Option (SyncReader × List SyncEvent) :=
  if s.1.r.eosReached then none
  else
    let p := s.1.iteration c it
    some (p.1, s.2 ++ p.2)

end SyncReader

/-! ## with the anchor forgotten -/

/-- The trace of the fetch loops. -/
def eraseSync (t : List SyncEvent) : List ReaderEvent := t.filterMap SyncEvent.toReader?

@[simp] theorem eraseSync_nil : eraseSync [] = [] := rfl

@[simp] theorem eraseSync_reader (e : ReaderEvent) (t : List SyncEvent) :
    eraseSync (.reader e :: t) = e :: eraseSync t := rfl

@[simp] theorem eraseSync_append (t u : List SyncEvent) :
    eraseSync (t ++ u) = eraseSync t ++ eraseSync u := List.filterMap_append

theorem eraseSync_map (t : List ReaderEvent) : eraseSync (t.map .reader) = t := by
  induction t with
  | nil => rfl
  | cons e t ih => rw [List.map_cons, eraseSync_reader, ih]

namespace SyncReader

variable {c : DashSession} {m : DashManifest}

@[simp] theorem interfere_r (s : SyncReader) (w : Option (UInt64 × Int)) :
    (s.interfere w).r = s.r := by
  cases w <;> rfl

@[simp] theorem anchor_r (s : SyncReader) (vn : Int) (k : SyncClock) :
    (s.anchor vn k).1.r = s.r := by
  unfold anchor
  split <;> rfl

@[simp] theorem eraseSync_anchor (s : SyncReader) (vn : Int) (k : SyncClock) :
    eraseSync (s.anchor vn k).2 = [] := by
  unfold anchor
  split <;> rfl

theorem videoLoop_erase (hi : Int) (fs : List VideoFetch) :
    ∀ (vn : Int) (s : SyncReader),
      (videoLoop c m hi fs vn s).1.r = (DashReader.videoLoop c m hi (fs.map (·.fetch)) vn s.r).1 ∧
      eraseSync (videoLoop c m hi fs vn s).2 =
        (DashReader.videoLoop c m hi (fs.map (·.fetch)) vn s.r).2 := by
  induction fs with
  | nil =>
      intro vn s
      exact ⟨rfl, rfl⟩
  | cons f fs ih =>
      intro vn s
      rw [List.map_cons]
      unfold videoLoop DashReader.videoLoop
      by_cases hvn : vn ≤ hi
      · rw [if_pos hvn, if_pos hvn]
        cases f.fetch with
        | failed => exact ⟨interfere_r s f.foreign, rfl⟩
        | got us whole =>
            by_cases hw : whole ∨ ¬ c.hasInitV
            · simp only [if_pos hw]
              constructor
              · rw [(ih _ _).1, anchor_r, interfere_r]
              · simp [(ih _ _).2]
            · simp only [if_neg hw]
              constructor
              · rw [(ih _ _).1, interfere_r]
              · simp [(ih _ _).2]
      · rw [if_neg hvn, if_neg hvn]
        exact ⟨rfl, rfl⟩

theorem fetchVideo_erase (s : SyncReader) (it : SyncIteration) :
    (s.fetchVideo c it).1.r = (s.r.fetchVideo c it.toIteration).1 ∧
      eraseSync (s.fetchVideo c it).2 = (s.r.fetchVideo c it.toIteration).2 := by
  unfold fetchVideo
  by_cases hreset : it.toIteration.Resets s.r
  · rw [if_pos hreset, DashReader.fetchVideo_of_resets hreset]
    have hloop := videoLoop_erase (c := c) (m := it.m) (it.toIteration.vfetchHi s.r) it.video
      (it.toIteration.videoTarget s.r) ⟨{ s.r with lastVnum := -1, lastAnum := -1 }, 0, 0⟩
    exact ⟨hloop.1, congrArg (ReaderEvent.reset :: ·) hloop.2⟩
  · rw [if_neg hreset, DashReader.fetchVideo_of_not_resets hreset]
    exact videoLoop_erase _ it.video _ _

theorem iteration_erase (s : SyncReader) (it : SyncIteration) :
    (s.iteration c it).1.r = (s.r.iteration c it.toIteration).1 ∧
      eraseSync (s.iteration c it).2 = (s.r.iteration c it.toIteration).2 := by
  obtain ⟨hr, ht⟩ := fetchVideo_erase (c := c) { s with r := (s.r.fetchAudio c it.toIteration).1 } it
  unfold iteration DashReader.iteration
  constructor
  · dsimp only
    rw [hr]
    rfl
  · rw [eraseSync_append, eraseSync_map, ht]

theorem of_step {s s' : SyncReader × List SyncEvent} {it : SyncIteration}
    (h : step c s it = some s') :
    ¬ s.1.r.eosReached = true ∧ s' = ((s.1.iteration c it).1, s.2 ++ (s.1.iteration c it).2) := by
  unfold step at h
  by_cases heos : s.1.r.eosReached = true
  · rw [if_pos heos] at h
    contradiction
  · rw [if_neg heos] at h
    exact ⟨heos, (Option.some.inj h).symm⟩

/-- **Erasure.**  With the anchor forgotten, a session is a run of the fetch
loops. -/
theorem exec_erase {its : List SyncIteration} {s s' : SyncReader} {t t' : List SyncEvent}
    (h : Run.exec (step c) (s, t) its = some (s', t')) :
    Run.exec (DashReader.step c) (s.r, eraseSync t) (its.map (·.toIteration)) =
      some (s'.r, eraseSync t') := by
  induction its generalizing s t with
  | nil =>
      obtain ⟨rfl, rfl⟩ := Prod.mk.inj (Option.some.inj h)
      rfl
  | cons it its ih =>
      obtain ⟨u, hu, hrest⟩ := (Run.exec_cons_eq_some _).mp h
      obtain ⟨heos, rfl⟩ := of_step hu
      obtain ⟨hr, ht⟩ := iteration_erase (c := c) s it
      refine (Run.exec_cons_eq_some _).mpr ⟨_, ?_, ih hrest⟩
      unfold DashReader.step
      rw [if_neg heos, hr, eraseSync_append, ht]

end SyncReader

/-! ## discontinuities -/

/-- The last video segment demuxed. -/
def lastVideo (t : List SyncEvent) : Option Int := (t.filterMap SyncEvent.videoDemuxed).getLast?

/-- `dash_resync` was called for a segment, and no video was demuxed since. -/
def Cued (t : List SyncEvent) (n : Int) : Prop :=
  ∃ pre mid, t = pre ++ .resync n :: mid ∧ ∀ e ∈ mid, e.videoDemuxed = none

/-- Every video segment demuxed follows the one demuxed before it, or had the
timeline re-anchored to it since. -/
def Reanchored (t : List SyncEvent) : Prop :=
  ∀ pre vn post, t = pre ++ .reader (.demuxVideo vn) :: post →
    lastVideo pre = some (vn - 1) ∨ Cued pre vn

section Trace

variable {t : List SyncEvent} {e : SyncEvent} {n : Int}

theorem reanchored_nil : Reanchored [] := by
  intro pre vn post h
  simp at h

theorem lastVideo_demux (t : List SyncEvent) (n : Int) :
    lastVideo (t ++ [.reader (.demuxVideo n)]) = some n := by
  simp [lastVideo, SyncEvent.videoDemuxed, ReaderEvent.videoDemuxed]

theorem lastVideo_silent {es : List SyncEvent} (h : ∀ e ∈ es, e.videoDemuxed = none) :
    lastVideo (t ++ es) = lastVideo t := by
  unfold lastVideo
  rw [List.filterMap_append, List.filterMap_eq_nil_iff.mpr h, List.append_nil]

/-- One more event keeps the promise if what it demuxes does. -/
theorem Reanchored.snoc (h : Reanchored t)
    (he : ∀ n, e.videoDemuxed = some n → lastVideo t = some (n - 1) ∨ Cued t n) :
    Reanchored (t ++ [e]) := by
  intro pre vn post ht
  obtain hnil | ⟨mid, hmid, ht'⟩ := Epoch.snoc_eq_append ht
  · simp at hnil
  · cases mid with
    | nil =>
        -- the demux is the new event
        obtain ⟨rfl, -⟩ := List.cons.inj hmid
        rw [List.append_nil] at ht'
        rw [← ht']
        exact he vn rfl
    | cons x mid =>
        obtain ⟨rfl, -⟩ := List.cons.inj hmid
        exact h pre vn mid ht'

theorem Reanchored.silent_all {es : List SyncEvent} (h : Reanchored t)
    (hes : ∀ e ∈ es, e.videoDemuxed = none) : Reanchored (t ++ es) := by
  induction es generalizing t with
  | nil => rwa [List.append_nil]
  | cons e es ih =>
      rw [List.append_cons]
      refine ih (h.snoc fun n hn => ?_) fun e' he' => hes e' (List.mem_cons_of_mem e he')
      rw [hes e List.mem_cons_self] at hn
      contradiction

end Trace

/-- The promise: in every session, whatever the manifests, the clock, the fate
of each request and the other threads do. -/
def EveryJumpResyncs : Prop :=
  ∀ (c : DashSession) (its : List SyncIteration) (s : SyncReader × List SyncEvent),
    Run.exec (SyncReader.step c) (SyncReader.start, []) its = some s → Reanchored s.2

/-- A segment that arrives, with the audio not yet started. -/
def arrives : VideoFetch := ⟨.got 1000 true, none, ⟨5000000, 0, 0⟩⟩

/-- A live stream ten segments in: two of them are fetched. -/
def beforeStall : SyncIteration where
  m := .oneSecond 1 0 false
  now := 10000000
  audio := []
  video := [arrives, arrives, ⟨.failed, none, ⟨0, 0, 0⟩⟩]

/-- The same stream after a stall: the window has rolled on to segment 20. -/
def afterStall : SyncIteration where
  m := .oneSecond 20 0 false
  now := 30000000
  audio := []
  video := [arrives]

/-- Segment 20 is demuxed right after segment 8, on the old anchor. -/
theorem everyJumpResyncs_fails : ¬ EveryJumpResyncs := by
  intro h
  have hrun := h ⟨true, false⟩ [beforeStall, afterStall] _ rfl
    [.reader (.requestVideo 7), .resync 7, .reader (.demuxVideo 7), .reader (.requestVideo 8),
      .reader (.demuxVideo 8), .reader (.requestVideo 9), .reader (.requestVideo 20)] 20 []
    (by decide +kernel)
  obtain hlast | ⟨pre, mid, hcue, -⟩ := hrun
  · exact absurd hlast (by decide)
  · have hmem : SyncEvent.resync 20 ∈ pre ++ .resync 20 :: mid := by simp
    rw [← hcue] at hmem
    exact absurd hmem (by decide)

/-! ## sessions in which no jump goes unseen -/

/-- The anchor another thread has left, zero if it dropped the anchor or did not
touch it. -/
def VideoFetch.foreignWallUs (f : VideoFetch) : UInt64 := (f.foreign.map (·.1)).getD 0

/-- What it takes for an iteration not to skip a segment unseen: the numbers stay
inside an `int`; a window that has rolled past the next segment comes with a
reset; no fetched segment is dropped for want of memory; and while there is no
anchor, no other thread sets one before the first segment is there. -/
structure SyncIteration.Seamless (c : DashSession) (it : SyncIteration) (r : DashReader) : Prop where
  inRange : it.toIteration.vfetchHi r < intMax
  rolled : 0 ≤ r.lastVnum → r.lastVnum + 1 < it.m.startNumber → it.toIteration.Resets r
  kept : c.Keeps it.toIteration.video
  alone : r.lastVnum < 0 ∨ it.toIteration.Resets r → ∀ f ∈ it.video.head?, f.foreignWallUs = 0

/-- What holds between two passes: `last_vnum` is the segment demuxed last, and
without one there is no anchor. -/
structure Tracks (s : SyncReader) (t : List SyncEvent) : Prop where
  sound : Reanchored t
  last : 0 ≤ s.r.lastVnum → lastVideo t = some s.r.lastVnum
  fresh : s.r.lastVnum < 0 → s.anchorWallUs = 0
  lt : s.r.lastVnum < intMax

theorem Tracks.silent_all {s : SyncReader} {t es : List SyncEvent} (h : Tracks s t)
    (hes : ∀ e ∈ es, e.videoDemuxed = none) : Tracks s (t ++ es) :=
  ⟨h.sound.silent_all hes, fun hlast => by rw [lastVideo_silent hes, h.last hlast], h.fresh, h.lt⟩

namespace SyncReader

variable {c : DashSession} {m : DashManifest} {hi vn : Int} {s : SyncReader} {t : List SyncEvent}

/-- Another thread's write is harmless once there is a segment to go on from. -/
theorem tracks_interfere {f : VideoFetch} (h : Tracks s t)
    (hf : s.r.lastVnum < 0 → f.foreignWallUs = 0) : Tracks (s.interfere f.foreign) t := by
  refine ⟨h.sound, ?_, ?_, ?_⟩
  · rw [interfere_r]
    exact h.last
  · rw [interfere_r]
    intro hlast
    have hzero := hf hlast
    unfold VideoFetch.foreignWallUs at hzero
    cases hw : f.foreign with
    | none => exact h.fresh hlast
    | some w =>
        rw [hw] at hzero
        exact hzero
  · rw [interfere_r]
    exact h.lt

/-- A segment that follows the mark, or finds no anchor, is demuxed as promised
and becomes the mark. -/
theorem tracks_demux (k : SyncClock) (h : Tracks s t) (hvn : 0 ≤ vn) (hmax : vn < intMax)
    (hnext : 0 ≤ s.r.lastVnum → vn = s.r.lastVnum + 1) :
    Tracks { (s.anchor vn k).1 with r := { (s.anchor vn k).1.r with lastVnum := vn } }
      (t ++ [.reader (.requestVideo vn)] ++ (s.anchor vn k).2 ++ [.reader (.demuxVideo vn)]) := by
  have hreq : Tracks s (t ++ [.reader (.requestVideo vn)]) :=
    h.silent_all (by simp [SyncEvent.videoDemuxed, ReaderEvent.videoDemuxed])
  have hres : ∀ e ∈ (s.anchor vn k).2, e.videoDemuxed = none := by
    unfold anchor
    split <;> simp [SyncEvent.videoDemuxed]
  refine ⟨?_, fun _ => lastVideo_demux _ _, fun hlast => absurd hlast (by dsimp only; omega), hmax⟩
  refine (hreq.silent_all hres).sound.snoc fun n hn => ?_
  obtain rfl : vn = n := Option.some.inj hn
  by_cases hlast : 0 ≤ s.r.lastVnum
  · left
    rw [(hreq.silent_all hres).last hlast]
    have := hnext hlast
    exact congrArg some (by omega)
  · right
    have hjump : s.Jumps vn := Or.inl (h.fresh (by omega))
    refine ⟨t ++ [.reader (.requestVideo vn)], [], ?_, by simp⟩
    unfold anchor
    rw [if_pos hjump]

/-- The video loop, from the segment after the mark or without an anchor. -/
theorem tracks_videoLoop (hhi : hi < intMax) (fs : List VideoFetch) :
    ∀ {vn : Int} {s : SyncReader} {t : List SyncEvent},
      c.Keeps (fs.map (·.fetch)) →
      (s.r.lastVnum < 0 → ∀ f ∈ fs.head?, f.foreignWallUs = 0) → 0 ≤ vn →
      (0 ≤ s.r.lastVnum → vn = s.r.lastVnum + 1) → Tracks s t →
      Tracks (videoLoop c m hi fs vn s).1 (t ++ (videoLoop c m hi fs vn s).2) := by
  induction fs with
  | nil =>
      intro vn s t _ _ _ _ h
      rwa [videoLoop, List.append_nil]
  | cons f fs ih =>
      intro vn s t hkept halone hvn hnext h
      unfold videoLoop
      by_cases hle : vn ≤ hi
      · have hint := intMax_eq
        have hsucc : toInt (vn + 1) = vn + 1 := toInt_of_range (by omega) (by omega)
        have hseen := tracks_interfere (f := f) h fun hlast => halone hlast f rfl
        rw [if_pos hle, hsucc]
        cases hf : f.fetch with
        | failed => exact hseen.silent_all (by simp [SyncEvent.videoDemuxed,
            ReaderEvent.videoDemuxed])
        | got us whole =>
            rw [List.map_cons, hf] at hkept
            have hgot : Tracks { s.interfere f.foreign with
                r := (s.interfere f.foreign).r.updateLiveBuffer us (toInt m.segDurationUs) } t :=
              ⟨hseen.sound, hseen.last, hseen.fresh, hseen.lt⟩
            have hdem := tracks_demux f.clock hgot hvn (by omega) (by
              intro hlast
              rw [interfere_r] at hlast ⊢
              exact hnext hlast)
            have hrest := ih hkept.tail (fun hlast => absurd hlast (by dsimp only; omega))
              (show 0 ≤ vn + 1 by omega) (fun _ => rfl) hdem
            dsimp only
            rw [if_pos hkept.head]
            simpa only [List.append_assoc, List.cons_append, List.nil_append] using hrest
      · rw [if_neg hle, List.append_nil]
        exact h

theorem tracks_fetchVideo {it : SyncIteration} (h : Tracks s t) (hit : it.Seamless c s.r) :
    Tracks (s.fetchVideo c it).1 (t ++ (s.fetchVideo c it).2) := by
  have hstart := it.m.start_nonneg
  have hneg : ¬ (0 : Int) ≤ -1 := by decide
  unfold fetchVideo
  by_cases hreset : it.toIteration.Resets s.r
  · have htarget : it.m.startNumber ≤ it.toIteration.videoTarget s.r := start_le_windowBottom _ _ _
    have hcut : Tracks ⟨{ s.r with lastVnum := -1, lastAnum := -1 }, 0, 0⟩ (t ++ [.reader .reset]) :=
      ⟨h.sound.silent_all (by simp [SyncEvent.videoDemuxed, ReaderEvent.videoDemuxed]),
        fun hlast => absurd hlast hneg, fun _ => rfl, neg_one_lt_intMax⟩
    rw [if_pos hreset]
    dsimp only
    rw [List.append_cons]
    exact tracks_videoLoop hit.inRange it.video hit.kept (fun _ => hit.alone (Or.inr hreset))
      (by omega) (fun hlast => absurd hlast hneg) hcut
  · obtain ⟨hlast, hvn, hnext⟩ := DashReader.resume_of_not_rolled it.toIteration h.lt
      fun hroll => hreset (hit.rolled hroll.1 hroll.2)
    rw [if_neg hreset, hlast]
    exact tracks_videoLoop hit.inRange it.video hit.kept (fun hl => hit.alone (Or.inl hl))
      (le_trans hstart hvn) hnext h

theorem tracks_iteration {it : SyncIteration} (h : Tracks s t) (hit : it.Seamless c s.r) :
    Tracks (s.iteration c it).1 (t ++ (s.iteration c it).2) := by
  obtain ⟨⟨n, hn⟩, hsilent⟩ := DashReader.fetchAudio_frame c s.r it.toIteration
  have haudio : Tracks { s with r := (s.r.fetchAudio c it.toIteration).1 }
      (t ++ (s.r.fetchAudio c it.toIteration).2.map .reader) := by
    refine Tracks.silent_all ?_ (by simpa [SyncEvent.videoDemuxed] using hsilent)
    rw [hn]
    exact ⟨h.sound, h.last, h.fresh, h.lt⟩
  have hseam : it.Seamless c (s.r.fetchAudio c it.toIteration).1 := by
    rw [hn]
    exact ⟨hit.inRange, hit.rolled, hit.kept, hit.alone⟩
  have hvideo := tracks_fetchVideo haudio hseam
  rw [List.append_assoc] at hvideo
  exact ⟨hvideo.sound, hvideo.last, hvideo.fresh, hvideo.lt⟩

end SyncReader

/-- **Every jump re-anchors.**  In every session whose iterations are seamless,
a video segment that does not follow the one demuxed before it has the timeline
re-anchored to it first. -/
theorem jump_resyncs (c : DashSession) (its : List SyncIteration) (s : SyncReader × List SyncEvent)
    (hok : Run.Along (SyncReader.step c) (fun s it => it.Seamless c s.1.r) (SyncReader.start, []) its)
    (h : Run.exec (SyncReader.step c) (SyncReader.start, []) its = some s) : Reanchored s.2 := by
  have hstart : Tracks SyncReader.start [] :=
    ⟨reanchored_nil, fun hlast => absurd hlast (by decide), fun _ => rfl, neg_one_lt_intMax⟩
  refine (Run.exec_invariant (fun s : SyncReader × List SyncEvent => Tracks s.1 s.2) ?_ hstart
    hok h).sound
  intro s it s' hs hit hstep
  obtain ⟨-, rfl⟩ := SyncReader.of_step hstep
  exact SyncReader.tracks_iteration hs hit

/-- The same server after a restart of its encoder: the live edge is behind. -/
def restartedServer : SyncIteration where
  m := beforeStall.m
  now := 3000000
  audio := []
  -- the audio worker re-anchors once the first segment is there
  video := [arrives, { arrives with foreign := some (5200000, 1) }]

/-- The reset drops the anchor, and segment 1 is announced after segment 8. -/
theorem jump_resyncs_restart :
    Run.Along (SyncReader.step ⟨true, false⟩) (fun s it => it.Seamless ⟨true, false⟩ s.1.r)
      (SyncReader.start, []) [beforeStall, restartedServer] ∧
    ∃ s, Run.exec (SyncReader.step ⟨true, false⟩) (SyncReader.start, [])
        [beforeStall, restartedServer] = some s ∧
      SyncEvent.resync 1 ∈ s.2 ∧ Reanchored s.2 := by
  have hkept : ∀ it ∈ [beforeStall, restartedServer],
      DashSession.Keeps ⟨true, false⟩ it.toIteration.video := by
    simp [beforeStall, restartedServer, arrives, SyncIteration.toIteration, DashSession.Keeps]
  have hok : Run.Along (SyncReader.step ⟨true, false⟩)
      (fun s it => it.Seamless ⟨true, false⟩ s.1.r) (SyncReader.start, [])
      [beforeStall, restartedServer] := by
    refine ⟨⟨by decide, by decide, hkept _ (by simp), by decide⟩, fun s hs => ?_⟩
    obtain rfl := Option.some.inj hs
    exact ⟨⟨by decide +kernel, by decide +kernel, hkept _ (by simp), by decide +kernel⟩,
      fun _ _ => trivial⟩
  refine ⟨hok, _, rfl, by decide +kernel, ?_⟩
  exact jump_resyncs ⟨true, false⟩ [beforeStall, restartedServer] _ hok rfl

end Vmc
