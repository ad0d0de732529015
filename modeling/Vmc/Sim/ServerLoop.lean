import Vmc.Sim.ConnHandler
import Vmc.Sim.MpdPatch
import Mathlib.Data.List.Destutter

/-!
# Vmc.Sim.ServerLoop

The main loop of the DASH server (`main` of `tools/vmc-dash-sim/main.c`): the
watchdog over the encoder, the end of a clip played once, and the telemetry of
manifest and segments.

A turn of the loop is a function of what it finds: whether the encoder has
exited, how old the newest chunk is, what the manifest and the directory hold.
None of it is under the loop's control, so a run is any list of turns.
`watchdog_run` is about the encoder and the manifest, `telemetry_exact` about
what a run reports.

The handlers of the connections run in threads of their own; the log lines and
the debug counters are left out.
-/

namespace Vmc

open CInt

/-! ## what the loop sees and does -/

/-- How the encoder ended. -/
inductive ExitStatus where
  | exited (code : Nat)
  | signaled
deriving DecidableEq, Repr

/-- The events of the stream `"srv"`. -/
inductive SrvEvent where
  | encoderRestart
  | eos (lastSeg : Int)
  | mpdUpdate (startNumber availStartUs : Int)
  | segmentPublish (stream : Nat) (seg bytes : Int)
deriving DecidableEq, Repr

/-- What the loop does: `patch_mpd_static`, a new encoder, an event. -/
inductive SrvAction where
  | patch
  | respawn
  | emit (e : SrvEvent)
deriving DecidableEq, Repr

/-- `g_ffmpeg_pid` (`none` for -1), `g_eos_signalled` and the static variables
of the telemetry. -/
structure ServerLoop where
  pid : Option Nat
  eosSignalled : Bool
  lastAvail : Int
  lastSn : Int
  lastSeg0 : Int
  lastSeg1 : Int
deriving DecidableEq, Repr

/-- What one turn finds: the result of `waitpid`, the clock and the newest
chunk's time in milliseconds, the process a respawn starts, `g_run`, the
manifest as its two readers find it, the directory as `newest_seg` finds it at
the end of the clip and for each stream, and the sizes of the segments. -/
structure LoopTurn where
  exit : Option ExitStatus
  nowMs : Nat
  newestMs : Nat
  spawned : Option Nat
  run : Bool
  mpd : Option (List UInt8 × List UInt8)
  dirEos : Option (List (List UInt8))
  dir0 : Option (List (List UInt8))
  dir1 : Option (List (List UInt8))
  bytes : Nat → Int → Int

/-- `vmc_tlm_emit`, behind `vmc_tlm_enabled`. -/
def emitIf (tlm : Bool) (e : SrvEvent) : List SrvAction := if tlm then [.emit e] else []

/-- The encoder has written nothing for more than ten seconds.  A chunk newer
than the clock does not count: the difference is not taken. -/
def LoopTurn.Stalled (t : LoopTurn) : Prop :=
  0 < t.newestMs ∧ t.newestMs < t.nowMs ∧ 10000 < t.nowMs - t.newestMs

instance (t : LoopTurn) : Decidable t.Stalled := inferInstanceAs (Decidable (_ ∧ _))

/-- `ffmpeg_respawn`. -/
def ffmpegRespawn (tlm : Bool) (s : ServerLoop) (t : LoopTurn) : ServerLoop × List SrvAction :=
  ({ s with pid := t.spawned }, emitIf tlm .encoderRestart ++ [.respawn])

/-- The watchdog. -/
def watchdog (tlm playOnce : Bool) (s : ServerLoop) (t : LoopTurn) :
    ServerLoop × List SrvAction :=
  match s.pid with
  | none => (s, [])
  | some _ =>
      match t.exit with
      | some status =>
          let cleanEnd := decide (playOnce = true ∧ status = .exited 0)
          if cleanEnd ∧ s.eosSignalled = false then
            ({ s with pid := none, eosSignalled := true },
              .patch :: emitIf tlm (.eos (newestSeg t.dirEos 0)))
          else ffmpegRespawn tlm s t
      | none =>
          if s.eosSignalled = false ∧ t.Stalled then ffmpegRespawn tlm s t else (s, [])

section

variable {Double : Type} (lib : DoubleLib Double)

/-- The manifest's part of the telemetry. -/
def reportMpd (s : ServerLoop) (t : LoopTurn) : ServerLoop × List SrvAction :=
  match t.mpd with
  | none => (s, [])
  | some (first, second) =>
      let avail := parseAvailStartUs lib first
      let s := { s with lastAvail := if avail > 0 then avail else s.lastAvail }
      let sn := readStartNumber second
      if sn ≠ s.lastSn ∨ s.lastSn = -1 then
        ({ s with lastSn := sn }, [.emit (.mpdUpdate sn s.lastAvail)])
      else (s, [])

/-- The segments from `last + 1` to the newest one.  The loop variable is an
`int` and ends one behind `newest`; with `newest` at `INT_MAX` it would overflow. -/
def publishNew (stream : Nat) (bytes : Int → Int) (last newest : Int) : List SrvAction :=
  (List.range (newest - last).toNat).map fun k : Nat =>
    .emit (.segmentPublish stream (last + 1 + k) (bytes (last + 1 + k)))

/-- A stream's part of the telemetry: the new mark and the events. -/
def reportSegments (stream : Nat) (bytes : Int → Int) (last newest : Int) :
    Int × List SrvAction :=
  if newest > last then (newest, publishNew stream bytes last newest) else (last, [])

/-- The telemetry of a turn. -/
def report (tlm : Bool) (s : ServerLoop) (t : LoopTurn) : ServerLoop × List SrvAction :=
  if tlm = true ∧ t.run = true then
    let mpd := reportMpd lib s t
    let video := reportSegments 0 (t.bytes 0) s.lastSeg0 (newestSeg t.dir0 0)
    let audio := reportSegments 1 (t.bytes 1) s.lastSeg1 (newestSeg t.dir1 1)
    ({ mpd.1 with lastSeg0 := video.1, lastSeg1 := audio.1 }, mpd.2 ++ video.2 ++ audio.2)
  else (s, [])

/-- One turn of the loop, behind the accepted connection. -/
def serverTurn (tlm playOnce : Bool) (s : ServerLoop) (t : LoopTurn) :
    ServerLoop × List SrvAction :=
  let watched := watchdog tlm playOnce s t
  let reported := report lib tlm watched.1 t
  (reported.1, watched.2 ++ reported.2)

/-- A run of the loop: where it ends, and all it has done. -/
def serverRun (tlm playOnce : Bool) : ServerLoop → List LoopTurn → ServerLoop × List SrvAction
  | s, [] => (s, [])
  | s, t :: ts =>
      let turn := serverTurn lib tlm playOnce s t
      let rest := serverRun tlm playOnce turn.1 ts
      (rest.1, turn.2 ++ rest.2)

/-- The loop as `main` enters it, with an encoder running. -/
def ServerLoop.start (pid : Nat) : ServerLoop := ⟨some pid, false, 0, -1, -1, -1⟩

/-! ## what a turn can do -/

variable {lib}
variable {tlm playOnce : Bool}

/-- The encoder's end is the end of the clip. -/
def LoopTurn.CleanEnd (playOnce : Bool) (t : LoopTurn) : Prop :=
  playOnce = true ∧ t.exit = some (.exited 0)

instance (t : LoopTurn) : Decidable (t.CleanEnd playOnce) := inferInstanceAs (Decidable (_ ∧ _))

/-- The encoder needs to be replaced: it ended otherwise, or it has stalled. -/
def LoopTurn.Faulty (playOnce : Bool) (t : LoopTurn) : Prop :=
  (t.exit.isSome = true ∧ ¬ t.CleanEnd playOnce) ∨ (t.exit = none ∧ t.Stalled)

instance (t : LoopTurn) : Decidable (t.Faulty playOnce) := inferInstanceAs (Decidable (_ ∨ _))

/-- What the watchdog does while it watches: nothing, the end of the clip, or a
new encoder. -/
theorem watchdog_cases {s : ServerLoop} {t : LoopTurn} {pid : Nat} (hpid : s.pid = some pid)
    (heos : s.eosSignalled = false) :
    (¬ t.Faulty playOnce ∧ ¬ t.CleanEnd playOnce ∧ watchdog tlm playOnce s t = (s, [])) ∨
    (¬ t.Faulty playOnce ∧ t.CleanEnd playOnce ∧ watchdog tlm playOnce s t =
      ({ s with pid := none, eosSignalled := true },
        .patch :: emitIf tlm (.eos (newestSeg t.dirEos 0)))) ∨
    (t.Faulty playOnce ∧ ¬ t.CleanEnd playOnce ∧
      watchdog tlm playOnce s t = ffmpegRespawn tlm s t) := by
  simp only [watchdog, hpid, heos, LoopTurn.Faulty, LoopTurn.CleanEnd]
  cases hexit : t.exit with
  | none =>
      by_cases hstall : t.Stalled
      · exact .inr (.inr (by simp [hstall]))
      · exact .inl (by simp [hstall])
  | some status =>
      by_cases hclean : playOnce = true ∧ status = .exited 0
      · exact .inr (.inl (by simp [hclean]))
      · refine .inr (.inr ⟨.inl ⟨rfl, ?_⟩, ?_, ?_⟩)
        · simpa using hclean
        · simpa using hclean
        · simp [hclean]

/-- The watchdog has stood down: there is no encoder to watch. -/
theorem watchdog_of_none {s : ServerLoop} (hpid : s.pid = none) (t : LoopTurn) :
    watchdog tlm playOnce s t = (s, []) := by
  simp only [watchdog, hpid]

theorem reportMpd_keeps (s : ServerLoop) (t : LoopTurn) :
    (reportMpd lib s t).1.pid = s.pid ∧ (reportMpd lib s t).1.eosSignalled = s.eosSignalled ∧
      (reportMpd lib s t).1.lastSeg0 = s.lastSeg0 ∧
      (reportMpd lib s t).1.lastSeg1 = s.lastSeg1 := by
  unfold reportMpd
  split
  · exact ⟨rfl, rfl, rfl, rfl⟩
  · dsimp only
    split <;> exact ⟨rfl, rfl, rfl, rfl⟩

/-- The telemetry leaves the encoder alone. -/
theorem report_keeps (s : ServerLoop) (t : LoopTurn) :
    (report lib tlm s t).1.pid = s.pid ∧ (report lib tlm s t).1.eosSignalled = s.eosSignalled := by
  unfold report
  split
  · exact ⟨(reportMpd_keeps s t).1, (reportMpd_keeps s t).2.1⟩
  · exact ⟨rfl, rfl⟩

/-- An action of the watchdog. -/
def SrvAction.ofWatchdog : SrvAction → Bool
  | .patch | .respawn | .emit .encoderRestart | .emit (.eos _) => true
  | .emit (.mpdUpdate _ _) | .emit (.segmentPublish _ _ _) => false

theorem ofWatchdog_of_mpd {s : ServerLoop} {t : LoopTurn} {a : SrvAction}
    (h : a ∈ (reportMpd lib s t).2) : a.ofWatchdog = false := by
  unfold reportMpd at h
  split at h
  · cases h
  · dsimp only at h
    split at h
    · rw [List.mem_singleton.mp h]
      rfl
    · cases h

theorem ofWatchdog_of_publish {stream : Nat} {bytes : Int → Int} {last newest : Int} {a : SrvAction}
    (h : a ∈ (reportSegments stream bytes last newest).2) : a.ofWatchdog = false := by
  unfold reportSegments at h
  split at h
  · obtain ⟨k, -, rfl⟩ := List.mem_map.mp h
    rfl
  · cases h

theorem ofWatchdog_of_report {s : ServerLoop} {t : LoopTurn} {a : SrvAction}
    (h : a ∈ (report lib tlm s t).2) : a.ofWatchdog = false := by
  unfold report at h
  split at h
  · obtain h | h := List.mem_append.mp h
    · obtain h | h := List.mem_append.mp h
      · exact ofWatchdog_of_mpd h
      · exact ofWatchdog_of_publish h
    · exact ofWatchdog_of_publish h
  · cases h

/-- What a turn does about the encoder is what the watchdog does. -/
theorem filter_serverTurn (s : ServerLoop) (t : LoopTurn) :
    (serverTurn lib tlm playOnce s t).2.filter SrvAction.ofWatchdog =
      (watchdog tlm playOnce s t).2.filter SrvAction.ofWatchdog := by
  have hnone : (report lib tlm (watchdog tlm playOnce s t).1 t).2.filter SrvAction.ofWatchdog = [] := by
    rw [List.filter_eq_nil_iff]
    intro a ha
    rw [ofWatchdog_of_report ha]
    exact Bool.false_ne_true
  rw [serverTurn, List.filter_append, hnone, List.append_nil]

theorem serverTurn_keeps (s : ServerLoop) (t : LoopTurn) :
    (serverTurn lib tlm playOnce s t).1.pid = (watchdog tlm playOnce s t).1.pid ∧
      (serverTurn lib tlm playOnce s t).1.eosSignalled =
        (watchdog tlm playOnce s t).1.eosSignalled := report_keeps _ t

/-! ## encoder and manifest over a run -/

/-- What a run does about encoder and manifest. -/
def encoderActions (acts : List SrvAction) : List SrvAction := acts.filter SrvAction.ofWatchdog

theorem encoderActions_append (as bs : List SrvAction) :
    encoderActions (as ++ bs) = encoderActions as ++ encoderActions bs :=
  List.filter_append ..

/-- Without an encoder the watchdog stays idle to the end. -/
theorem idle_of_none {s : ServerLoop} (hpid : s.pid = none) (ts : List LoopTurn) :
    encoderActions (serverRun lib tlm playOnce s ts).2 = [] ∧
      (serverRun lib tlm playOnce s ts).1.eosSignalled = s.eosSignalled := by
  induction ts generalizing s with
  | nil => exact ⟨rfl, rfl⟩
  | cons t ts ih =>
      have hwatch := @watchdog_of_none tlm playOnce s hpid t
      have hkeeps := @serverTurn_keeps Double lib tlm playOnce s t
      have hfilter := @filter_serverTurn Double lib tlm playOnce s t
      rw [hwatch] at hkeeps hfilter
      have hrest := ih (hkeeps.1.trans hpid)
      refine ⟨?_, ?_⟩
      · rw [serverRun]
        dsimp only
        rw [encoderActions_append, hrest.1, List.append_nil]
        exact hfilter
      · exact hrest.2.trans hkeeps.2

/-- The end of a clip, as the loop reports it. -/
def endActions (tlm : Bool) (lastSeg : Int) : List SrvAction := .patch :: emitIf tlm (.eos lastSeg)

/-- A respawn, as the loop reports it. -/
def respawnActions (tlm : Bool) : List SrvAction := emitIf tlm .encoderRestart ++ [.respawn]

theorem filter_endActions (lastSeg : Int) :
    (endActions tlm lastSeg).filter SrvAction.ofWatchdog = endActions tlm lastSeg := by
  cases tlm <;> rfl

theorem filter_respawnActions :
    (respawnActions tlm).filter SrvAction.ofWatchdog = respawnActions tlm := by
  cases tlm <;> rfl

/-- How many turns call for a new encoder. -/
def faults (playOnce : Bool) (ts : List LoopTurn) : Nat := ts.countP fun t => t.Faulty playOnce

theorem faults_cons (playOnce : Bool) (t : LoopTurn) (ts : List LoopTurn) :
    faults playOnce (t :: ts) = faults playOnce ts + if t.Faulty playOnce then 1 else 0 := by
  simp [faults, List.countP_cons]

/-- What a run does about the encoder: respawns, each for a fault, and then
perhaps the end of the clip.  As long as an encoder can be started no fault and
no clean end is missed. -/
def EncoderRun (tlm playOnce : Bool) (ts : List LoopTurn) (eos : Bool) (acts : List SrvAction) :
    Prop :=
  ∃ k tail, acts = (List.replicate k (respawnActions tlm)).flatten ++ tail ∧
    ((eos = false ∧ tail = []) ∨
      (eos = true ∧ playOnce = true ∧ ∃ lastSeg, tail = endActions tlm lastSeg)) ∧
    k ≤ faults playOnce ts ∧
    ((∀ t ∈ ts, t.spawned.isSome = true) →
      (eos = true ↔ ∃ t ∈ ts, t.CleanEnd playOnce) ∧ (eos = false → k = faults playOnce ts))

section

variable {s : ServerLoop} {t : LoopTurn} {ts : List LoopTurn} {eos : Bool} {acts : List SrvAction}

/-- A turn in which the encoder is left alone. -/
theorem EncoderRun.idle (hfault : ¬ t.Faulty playOnce) (hclean : ¬ t.CleanEnd playOnce)
    (h : EncoderRun tlm playOnce ts eos acts) : EncoderRun tlm playOnce (t :: ts) eos acts := by
  obtain ⟨k, tail, hshape, hends, hle, hall⟩ := h
  have hfaults : faults playOnce (t :: ts) = faults playOnce ts := by
    rw [faults_cons, if_neg hfault, Nat.add_zero]
  refine ⟨k, tail, hshape, hends, hfaults ▸ hle, fun hspawned => ?_⟩
  obtain ⟨hiff, heq⟩ := hall fun u hu => hspawned u (List.mem_cons_of_mem t hu)
  refine ⟨hiff.trans ?_, fun he => (heq he).trans hfaults.symm⟩
  constructor
  · rintro ⟨u, hu, hu'⟩
    exact ⟨u, List.mem_cons_of_mem t hu, hu'⟩
  · rintro ⟨u, hu, hu'⟩
    obtain rfl | hu := List.mem_cons.mp hu
    · exact absurd hu' hclean
    · exact ⟨u, hu, hu'⟩

/-- A turn in which the clip ends; nothing is done afterwards. -/
theorem encoderRun_clean (hclean : t.CleanEnd playOnce) (lastSeg : Int) :
    EncoderRun tlm playOnce (t :: ts) true (endActions tlm lastSeg) :=
  ⟨0, endActions tlm lastSeg, rfl, .inr ⟨rfl, hclean.1, lastSeg, rfl⟩, Nat.zero_le _,
    fun _ => ⟨iff_of_true rfl ⟨t, List.mem_cons_self, hclean⟩, fun h => (by cases h)⟩⟩

/-- A turn with a respawn. -/
theorem EncoderRun.respawn (hfault : t.Faulty playOnce) (hclean : ¬ t.CleanEnd playOnce)
    (h : EncoderRun tlm playOnce ts eos acts) :
    EncoderRun tlm playOnce (t :: ts) eos (respawnActions tlm ++ acts) := by
  obtain ⟨k, tail, hshape, hends, hle, hall⟩ := h
  have hfaults : faults playOnce (t :: ts) = faults playOnce ts + 1 := by
    rw [faults_cons, if_pos hfault]
  refine ⟨k + 1, tail, ?_, hends, by omega, fun hspawned => ?_⟩
  · rw [hshape, List.replicate_succ, List.flatten_cons, List.append_assoc]
  · obtain ⟨hiff, heq⟩ := hall fun u hu => hspawned u (List.mem_cons_of_mem t hu)
    refine ⟨hiff.trans ?_, fun he => by rw [hfaults, heq he]⟩
    constructor
    · rintro ⟨u, hu, hu'⟩
      exact ⟨u, List.mem_cons_of_mem t hu, hu'⟩
    · rintro ⟨u, hu, hu'⟩
      obtain rfl | hu := List.mem_cons.mp hu
      · exact absurd hu' hclean
      · exact ⟨u, hu, hu'⟩

/-- A respawn that failed: the watchdog has nothing left to watch. -/
theorem encoderRun_failed (hfault : t.Faulty playOnce) (hfailed : t.spawned = none) :
    EncoderRun tlm playOnce (t :: ts) false (respawnActions tlm) := by
  refine ⟨1, [], ?_, .inl ⟨rfl, rfl⟩, ?_, fun hspawned => ?_⟩
  · simp
  · rw [faults_cons, if_pos hfault]
    omega
  · have hsome := hspawned t List.mem_cons_self
    rw [hfailed] at hsome
    cases hsome

end

theorem encoderRun_of_run {s : ServerLoop} {pid : Nat} (hpid : s.pid = some pid)
    (heos : s.eosSignalled = false) (ts : List LoopTurn) :
    EncoderRun tlm playOnce ts (serverRun lib tlm playOnce s ts).1.eosSignalled
      (encoderActions (serverRun lib tlm playOnce s ts).2) := by
  induction ts generalizing s pid with
  | nil =>
      refine ⟨0, [], rfl, .inl ⟨heos, rfl⟩, Nat.zero_le _, fun _ => ⟨?_, fun _ => rfl⟩⟩
      refine iff_of_false (fun h => ?_) fun ⟨u, hu, _⟩ => (by cases hu)
      rw [serverRun, heos] at h
      cases h
  | cons t ts ih =>
      have hkeeps := @serverTurn_keeps Double lib tlm playOnce s t
      have hfilter := @filter_serverTurn Double lib tlm playOnce s t
      rw [serverRun]
      dsimp only
      rw [encoderActions_append]
      obtain ⟨hfault, hclean, hwatch⟩ | ⟨hfault, hclean, hwatch⟩ | ⟨hfault, hclean, hwatch⟩ :=
        @watchdog_cases tlm playOnce s t pid hpid heos
      · rw [hwatch] at hkeeps hfilter
        have hnothing : encoderActions (serverTurn lib tlm playOnce s t).2 = [] := hfilter
        rw [hnothing]
        exact (ih (hkeeps.1.trans hpid) (hkeeps.2.trans heos)).idle hfault hclean
      · rw [hwatch] at hkeeps hfilter
        have hend : encoderActions (serverTurn lib tlm playOnce s t).2 =
            endActions tlm (newestSeg t.dirEos 0) := hfilter.trans (filter_endActions _)
        obtain ⟨hrest, hstays⟩ := @idle_of_none Double lib tlm playOnce _ hkeeps.1 ts
        rw [hend, hrest, List.append_nil, hstays, hkeeps.2]
        exact encoderRun_clean hclean _
      · rw [hwatch] at hkeeps hfilter
        have hrespawn : encoderActions (serverTurn lib tlm playOnce s t).2 = respawnActions tlm :=
          hfilter.trans filter_respawnActions
        rw [hrespawn]
        cases hspawned : t.spawned with
        | some pid' =>
            exact (ih (hkeeps.1.trans hspawned) (hkeeps.2.trans heos)).respawn hfault hclean
        | none =>
            obtain ⟨hrest, hstays⟩ :=
              @idle_of_none Double lib tlm playOnce _ (hkeeps.1.trans hspawned) ts
            rw [hrest, List.append_nil, hstays, hkeeps.2]
            exact heos ▸ encoderRun_failed hfault hspawned

end

/-- **The watchdog over a whole run.**  Whatever the turns find, what the loop
does about encoder and manifest is a number of respawns, no more than there were
faults, and then at most one end of the clip: the manifest is patched once, the
end is reported once, and no encoder is started after that.  The clip ends only
if it is played once.  As long as an encoder can be started, the clip ends
exactly if the encoder exits cleanly in some turn, and otherwise every fault is
answered. -/
theorem watchdog_run {Double : Type} (lib : DoubleLib Double) (tlm playOnce : Bool) (pid : Nat)
    (ts : List LoopTurn) :
    EncoderRun tlm playOnce ts (serverRun lib tlm playOnce (.start pid) ts).1.eosSignalled
      (encoderActions (serverRun lib tlm playOnce (.start pid) ts).2) :=
  encoderRun_of_run rfl rfl ts

/-! ## what a run reports -/

/-- The numbers of the segments of a stream in the events, in their order. -/
def publishedSegs (stream : Nat) (acts : List SrvAction) : List Int :=
  acts.filterMap fun
    | .emit (.segmentPublish st seg _) => if st = stream then some seg else none
    | _ => none

/-- The start numbers in the events, in their order. -/
def reportedStarts (acts : List SrvAction) : List Int :=
  acts.filterMap fun
    | .emit (.mpdUpdate sn _) => some sn
    | _ => none

/-- The numbers behind `last` up to `newest`. -/
def segsBetween (last newest : Int) : List Int :=
  (List.range (newest - last).toNat).map fun k : Nat => last + 1 + k

theorem segsBetween_append {a b c : Int} (hab : a ≤ b) (hbc : b ≤ c) :
    segsBetween a b ++ segsBetween b c = segsBetween a c := by
  have hlen : (c - a).toNat = (b - a).toNat + (c - b).toNat := by omega
  rw [segsBetween, segsBetween, segsBetween, hlen, List.range_add, List.map_append, List.map_map]
  congr 1
  refine List.map_congr_left fun k _ => ?_
  simp only [Function.comp_apply]
  omega

theorem segsBetween_of_le {last newest : Int} (h : newest ≤ last) : segsBetween last newest = [] := by
  rw [segsBetween, Int.toNat_of_nonpos (by omega)]
  rfl

/-- The newest segment a turn sees of a stream. -/
def LoopTurn.newest (stream : Nat) (t : LoopTurn) : Int :=
  newestSeg (if stream = 0 then t.dir0 else t.dir1) stream

/-- The newest segment the telemetry has seen. -/
def newestSeen (stream : Nat) : Int → List LoopTurn → Int
  | last, [] => last
  | last, t :: ts => newestSeen stream (if t.run then max last (t.newest stream) else last) ts

theorem le_newestSeen (stream : Nat) (ts : List LoopTurn) (last : Int) :
    last ≤ newestSeen stream last ts := by
  induction ts generalizing last with
  | nil => exact le_refl last
  | cons t ts ih =>
      refine le_trans ?_ (ih _)
      split
      · exact le_max_left _ _
      · exact le_refl last

/-- The start number the telemetry reads in a turn. -/
def LoopTurn.startRead (t : LoopTurn) : Option Int :=
  if t.run then t.mpd.map fun mpd => readStartNumber mpd.2 else none

/-- The start numbers the telemetry reads. -/
def startsRead (ts : List LoopTurn) : List Int := ts.filterMap LoopTurn.startRead

/-- The mark of a stream. -/
def ServerLoop.lastSeg (stream : Nat) (s : ServerLoop) : Int :=
  if stream = 0 then s.lastSeg0 else s.lastSeg1

theorem publishedSegs_append (stream : Nat) (as bs : List SrvAction) :
    publishedSegs stream (as ++ bs) = publishedSegs stream as ++ publishedSegs stream bs :=
  List.filterMap_append

theorem reportedStarts_append (as bs : List SrvAction) :
    reportedStarts (as ++ bs) = reportedStarts as ++ reportedStarts bs :=
  List.filterMap_append

theorem reportSegments_mark (stream : Nat) (bytes : Int → Int) (last newest : Int) :
    (reportSegments stream bytes last newest).1 = max last newest := by
  unfold reportSegments
  split <;> dsimp only <;> omega

theorem publishedSegs_report (stream st : Nat) (bytes : Int → Int) (last newest : Int) :
    publishedSegs stream (reportSegments st bytes last newest).2 =
      if st = stream then segsBetween last newest else [] := by
  unfold reportSegments
  by_cases hnew : newest > last
  · rw [if_pos hnew]
    by_cases hst : st = stream
    · rw [if_pos hst, publishedSegs, publishNew, List.filterMap_map, segsBetween,
        ← List.filterMap_eq_map]
      exact List.filterMap_congr fun k _ => if_pos hst
    · rw [if_neg hst, publishedSegs, publishNew, List.filterMap_map, List.filterMap_eq_nil_iff]
      intro k _
      exact if_neg hst
  · rw [if_neg hnew, segsBetween_of_le (by omega), ite_self]
    rfl

theorem reportedStarts_report (st : Nat) (bytes : Int → Int) (last newest : Int) :
    reportedStarts (reportSegments st bytes last newest).2 = [] := by
  unfold reportSegments
  split
  · rw [reportedStarts, publishNew, List.filterMap_map, List.filterMap_eq_nil_iff]
    intro k _
    rfl
  · rfl

section

variable {Double : Type} {lib : DoubleLib Double} {playOnce : Bool}

theorem publishedSegs_mpd (stream : Nat) (s : ServerLoop) (t : LoopTurn) :
    publishedSegs stream (reportMpd lib s t).2 = [] := by
  unfold reportMpd
  split
  · rfl
  · dsimp only
    split <;> rfl

/-- The watchdog reports no segments and no manifests, and leaves the marks. -/
theorem watchdog_silent (tlm : Bool) (s : ServerLoop) (t : LoopTurn) :
    (∀ stream, publishedSegs stream (watchdog tlm playOnce s t).2 = []) ∧
      reportedStarts (watchdog tlm playOnce s t).2 = [] ∧
      (∀ stream, (watchdog tlm playOnce s t).1.lastSeg stream = s.lastSeg stream) ∧
      (watchdog tlm playOnce s t).1.lastSn = s.lastSn := by
  unfold watchdog
  split
  · exact ⟨fun _ => rfl, rfl, fun _ => rfl, rfl⟩
  · split
    · dsimp only
      split
      · cases tlm <;> exact ⟨fun _ => rfl, rfl, fun _ => rfl, rfl⟩
      · cases tlm <;> exact ⟨fun _ => rfl, rfl, fun _ => rfl, rfl⟩
    · split
      · cases tlm <;> exact ⟨fun _ => rfl, rfl, fun _ => rfl, rfl⟩
      · exact ⟨fun _ => rfl, rfl, fun _ => rfl, rfl⟩

/-- A turn publishes the segments behind the mark, and moves the mark. -/
theorem publishedSegs_turn {stream : Nat} (hstream : stream = 0 ∨ stream = 1) (s : ServerLoop)
    (t : LoopTurn) :
    publishedSegs stream (serverTurn lib true playOnce s t).2 =
        segsBetween (s.lastSeg stream) (if t.run then t.newest stream else s.lastSeg stream) ∧
      (serverTurn lib true playOnce s t).1.lastSeg stream =
        if t.run then max (s.lastSeg stream) (t.newest stream) else s.lastSeg stream := by
  obtain ⟨hsegs, -, hmarks, -⟩ := @watchdog_silent playOnce true s t
  obtain ⟨-, -, hmark0, hmark1⟩ :=
    @reportMpd_keeps Double lib (watchdog true playOnce s t).1 t
  have hlast := hmarks stream
  rw [serverTurn]
  dsimp only
  rw [publishedSegs_append, hsegs, List.nil_append, report]
  cases hrun : t.run with
  | false =>
      rw [if_neg (by simp), if_neg Bool.false_ne_true, if_neg Bool.false_ne_true,
        segsBetween_of_le (le_refl _)]
      exact ⟨rfl, hlast⟩
  | true =>
      rw [if_pos ⟨rfl, rfl⟩, if_pos rfl, if_pos rfl]
      dsimp only
      rw [publishedSegs_append, publishedSegs_append, publishedSegs_mpd, List.nil_append,
        publishedSegs_report, publishedSegs_report]
      obtain rfl | rfl := hstream
      · rw [if_pos rfl, if_neg (by omega), List.append_nil, ← hlast]
        exact ⟨rfl, reportSegments_mark _ _ _ _⟩
      · rw [if_neg (by omega), if_pos rfl, List.nil_append, ← hlast]
        exact ⟨rfl, reportSegments_mark _ _ _ _⟩

/-- A run publishes what lies between the mark it begins with and the newest
segment it sees. -/
theorem publishedSegs_run {stream : Nat} (hstream : stream = 0 ∨ stream = 1) (s : ServerLoop)
    (ts : List LoopTurn) :
    publishedSegs stream (serverRun lib true playOnce s ts).2 =
      segsBetween (s.lastSeg stream) (newestSeen stream (s.lastSeg stream) ts) := by
  induction ts generalizing s with
  | nil => exact (segsBetween_of_le (le_refl _)).symm
  | cons t ts ih =>
      obtain ⟨hsegs, hmark⟩ := @publishedSegs_turn Double lib playOnce stream hstream s t
      rw [serverRun]
      dsimp only
      rw [publishedSegs_append, hsegs, ih, hmark, newestSeen]
      cases t.run with
      | false =>
          rw [if_neg Bool.false_ne_true, if_neg Bool.false_ne_true, segsBetween_of_le (le_refl _),
            List.nil_append]
      | true =>
          rw [if_pos rfl, if_pos rfl]
          have hle := le_newestSeen stream ts (max (s.lastSeg stream) (t.newest stream))
          by_cases hnew : s.lastSeg stream ≤ t.newest stream
          · rw [max_eq_right hnew] at hle ⊢
            exact segsBetween_append hnew hle
          · have hnone : segsBetween (s.lastSeg stream) (t.newest stream) = [] :=
              segsBetween_of_le (by omega)
            rw [max_eq_left (by omega), hnone, List.nil_append]

theorem reportMpd_spec (s : ServerLoop) (t : LoopTurn) (hrun : t.run = true) :
    reportedStarts (reportMpd lib s t).2 =
        (t.startRead.elim [] fun sn => if sn ≠ s.lastSn ∨ s.lastSn = -1 then [sn] else []) ∧
      (reportMpd lib s t).1.lastSn = t.startRead.getD s.lastSn := by
  rw [LoopTurn.startRead, if_pos hrun]
  unfold reportMpd
  cases hmpd : t.mpd with
  | none => exact ⟨rfl, rfl⟩
  | some mpd =>
      dsimp only [Option.map_some, Option.elim_some, Option.getD_some]
      by_cases hnew : readStartNumber mpd.2 ≠ s.lastSn ∨ s.lastSn = -1
      · rw [if_pos hnew, if_pos hnew]
        exact ⟨rfl, rfl⟩
      · rw [if_neg hnew, if_neg hnew]
        exact ⟨rfl, (not_ne_iff.mp fun h => hnew (.inl h)).symm⟩

/-- A turn reports the start number if it is a new one. -/
theorem reportedStarts_turn (s : ServerLoop) (t : LoopTurn) :
    reportedStarts (serverTurn lib true playOnce s t).2 =
        (t.startRead.elim [] fun sn => if sn ≠ s.lastSn ∨ s.lastSn = -1 then [sn] else []) ∧
      (serverTurn lib true playOnce s t).1.lastSn = t.startRead.getD s.lastSn := by
  obtain ⟨-, hstarts, -, hlast⟩ := @watchdog_silent playOnce true s t
  rw [serverTurn]
  dsimp only
  rw [reportedStarts_append, hstarts, List.nil_append, report]
  cases hrun : t.run with
  | false =>
      rw [if_neg (by simp), LoopTurn.startRead, hrun, if_neg Bool.false_ne_true]
      exact ⟨rfl, hlast⟩
  | true =>
      obtain ⟨hreport, hmark⟩ := @reportMpd_spec Double lib (watchdog true playOnce s t).1 t hrun
      rw [hlast] at hreport hmark
      rw [if_pos ⟨rfl, rfl⟩]
      dsimp only
      rw [reportedStarts_append, reportedStarts_append, reportedStarts_report,
        reportedStarts_report, List.append_nil, List.append_nil]
      exact ⟨hreport, hmark⟩

theorem startsRead_cons (t : LoopTurn) (ts : List LoopTurn) :
    startsRead (t :: ts) = t.startRead.toList ++ startsRead ts := by
  rw [startsRead, List.filterMap_cons]
  cases t.startRead <;> rfl

/-- Behind a first start number, a run reports those that differ from the one
before. -/
theorem reportedStarts_run {s : ServerLoop} (hlast : s.lastSn ≠ -1) {ts : List LoopTurn}
    (hreads : ∀ sn ∈ startsRead ts, sn ≠ -1) :
    s.lastSn :: reportedStarts (serverRun lib true playOnce s ts).2 =
      (startsRead ts).destutter' (· ≠ ·) s.lastSn := by
  induction ts generalizing s with
  | nil => rfl
  | cons t ts ih =>
      obtain ⟨hstarts, hmark⟩ := @reportedStarts_turn Double lib playOnce s t
      rw [startsRead_cons] at hreads ⊢
      rw [serverRun]
      dsimp only
      rw [reportedStarts_append, hstarts]
      cases hread : t.startRead with
      | none =>
          rw [hread] at hmark hreads
          have hrest := ih (hmark.trans_ne hlast) hreads
          rw [hmark] at hrest
          exact hrest
      | some sn =>
          rw [hread] at hmark hreads
          have hsn : sn ≠ -1 := hreads sn List.mem_cons_self
          have hrest := ih (hmark.trans_ne hsn) fun x hx => hreads x (List.mem_cons_of_mem sn hx)
          rw [hmark, Option.getD_some] at hrest
          rw [Option.elim_some, Option.toList_some, List.singleton_append]
          by_cases hnew : s.lastSn ≠ sn
          · rw [if_pos (.inl hnew.symm), List.destutter'_cons_pos _ hnew]
            exact congrArg (List.cons s.lastSn) hrest
          · have heq : sn = s.lastSn := (not_ne_iff.mp hnew).symm
            rw [if_neg (by simp [heq, hlast]), List.destutter'_cons_neg _ hnew]
            rw [heq] at hrest
            exact hrest

/-- From the start of the loop. -/
theorem reportedStarts_start {s : ServerLoop} (hlast : s.lastSn = -1) {ts : List LoopTurn}
    (hreads : ∀ sn ∈ startsRead ts, sn ≠ -1) :
    reportedStarts (serverRun lib true playOnce s ts).2 = (startsRead ts).destutter (· ≠ ·) := by
  induction ts generalizing s with
  | nil => rfl
  | cons t ts ih =>
      obtain ⟨hstarts, hmark⟩ := @reportedStarts_turn Double lib playOnce s t
      rw [startsRead_cons] at hreads ⊢
      rw [serverRun]
      dsimp only
      rw [reportedStarts_append, hstarts]
      cases hread : t.startRead with
      | none =>
          rw [hread] at hmark hreads
          exact ih (hmark.trans hlast) hreads
      | some sn =>
          rw [hread] at hmark hreads
          have hsn : sn ≠ -1 := hreads sn List.mem_cons_self
          have hrest := @reportedStarts_run Double lib playOnce _ (hmark.trans_ne hsn) ts
            fun x hx => hreads x (List.mem_cons_of_mem sn hx)
          rw [hmark, Option.getD_some] at hrest
          rw [Option.elim_some, if_pos (.inr hlast)]
          exact hrest

end

/-- **The telemetry is exact.**  Over a whole run, whatever is restarted in
between, the segments of a stream are reported once each and in order, from 0 to
the newest one seen; and the start numbers reported are those read from the
manifest, each when it changes.  A start number -1, which stands for none, is
not read, and the newest segment is below `INT_MAX`, so that the loop over the
new ones stays an `int`. -/
theorem telemetry_exact {Double : Type} (lib : DoubleLib Double) (playOnce : Bool) (pid : Nat)
    (ts : List LoopTurn) (hreads : ∀ sn ∈ startsRead ts, sn ≠ -1)
    (hnewest : ∀ stream, stream = 0 ∨ stream = 1 → newestSeen stream (-1) ts < intMax) :
    (∀ stream, stream = 0 ∨ stream = 1 →
      publishedSegs stream (serverRun lib true playOnce (.start pid) ts).2 =
        ((List.range (newestSeen stream (-1) ts + 1).toNat).map fun k : Nat => (k : Int)) ∧
      ∀ seg ∈ publishedSegs stream (serverRun lib true playOnce (.start pid) ts).2,
        checked (seg + 1) = some (seg + 1)) ∧
    reportedStarts (serverRun lib true playOnce (.start pid) ts).2 =
      (startsRead ts).destutter (· ≠ ·) := by
  refine ⟨fun stream hstream => ?_, reportedStarts_start rfl hreads⟩
  have hmark : (ServerLoop.start pid).lastSeg stream = -1 := by
    unfold ServerLoop.lastSeg
    split <;> rfl
  have hsegs : publishedSegs stream (serverRun lib true playOnce (.start pid) ts).2 =
      (List.range (newestSeen stream (-1) ts + 1).toNat).map fun k : Nat => (k : Int) := by
    rw [publishedSegs_run hstream, hmark, segsBetween]
    have hlen : newestSeen stream (-1) ts - -1 = newestSeen stream (-1) ts + 1 := by omega
    rw [hlen]
    refine List.map_congr_left fun k _ => ?_
    omega
  refine ⟨hsegs, fun seg hseg => ?_⟩
  rw [hsegs] at hseg
  obtain ⟨k, hk, rfl⟩ := List.mem_map.mp hseg
  have hlast := hnewest stream hstream
  have hle := List.mem_range.mp hk
  refine checked_of_natAbs_le ?_
  omega

/-- A turn that finds nothing wrong, one manifest and one segment. -/
def quietTurn (mpd name : String) : LoopTurn where
  exit := none
  nowMs := 5000
  newestMs := 5001
  spawned := none
  run := true
  mpd := some (Bytes.ascii mpd, Bytes.ascii mpd)
  dirEos := none
  dir0 := some [Bytes.ascii name]
  dir1 := none
  bytes := fun _ _ => 0

/-- An encoder that dies behind its second segment and begins again. -/
def restartedRun : List LoopTurn :=
  [quietTurn "startNumber=\"1\"" "chunk-stream0-00002.m4s",
    { quietTurn "startNumber=\"1\"" "chunk-stream0-00001.m4s" with
      exit := some .signaled
      spawned := some 8 },
    quietTurn "startNumber=\"3\"" "chunk-stream0-00004.m4s"]

theorem telemetry_exact_restarted :
    startsRead restartedRun = [1, 1, 3] ∧ newestSeen 0 (-1) restartedRun = 4 ∧
    (∀ stream, stream = 0 ∨ stream = 1 →
      publishedSegs stream (serverRun oneTimeLib true false (.start 7) restartedRun).2 =
        ((List.range (newestSeen stream (-1) restartedRun + 1).toNat).map
          fun k : Nat => (k : Int)) ∧
      ∀ seg ∈ publishedSegs stream (serverRun oneTimeLib true false (.start 7) restartedRun).2,
        checked (seg + 1) = some (seg + 1)) ∧
    reportedStarts (serverRun oneTimeLib true false (.start 7) restartedRun).2 =
      (startsRead restartedRun).destutter (· ≠ ·) := by
  have hstarts : startsRead restartedRun = [1, 1, 3] := by decide +kernel
  have hvideo : newestSeen 0 (-1) restartedRun = 4 := by decide +kernel
  have haudio : newestSeen 1 (-1) restartedRun = -1 := by decide +kernel
  refine ⟨hstarts, hvideo, telemetry_exact oneTimeLib false 7 restartedRun ?_ ?_⟩
  · rw [hstarts]
    decide
  · rintro stream (rfl | rfl)
    · rw [hvideo]
      decide
    · rw [haudio]
      decide

end Vmc
