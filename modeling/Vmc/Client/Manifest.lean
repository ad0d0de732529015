import Vmc.Client.HttpGet

/-!
# Vmc.Client.Manifest

The manifest loader of the DASH client (`dash_load_manifest` of
`apps/thinclient/main.c`), on the text of a manifest.

The text is a C string, and a pointer into it is the rest of the text from
there on.  A division is checked: a zero divisor ends the load with
`divByZero`, as it ends the process.  What the C library does with `double`
stays open (`DoubleLib`); nothing here depends on it.

`manifest_divides_safely_iff` says which manifests make the loader divide by
zero: it computes the size of the window in segments before it looks whether a
segment has a duration at all.
-/

namespace Vmc

open Bytes CInt

/-! ## C strings -/

/-- The C string in a block of memory. -/
def cstr (block : List UInt8) : List UInt8 := block.takeWhile (· ≠ 0)

/-- `strstr`: the text from the first occurrence of `pat` on. -/
def strstr : List UInt8 → List UInt8 → Option (List UInt8)
  | [], pat => if pat = [] then some [] else none
  | c :: cs, pat => if pat.isPrefixOf (c :: cs) then some (c :: cs) else strstr cs pat

/-- `strchr`: the text from the first `c` on. -/
def strchr (s : List UInt8) (c : UInt8) : Option (List UInt8) :=
  if c ∈ s then some (s.dropWhile (· ≠ c)) else none

/-- The text behind the first occurrence of `name`. -/
def behind (s : List UInt8) (name : String) : Option (List UInt8) :=
  (strstr s (ascii name)).map (·.drop (ascii name).length)

/-- A value up to its closing quote, copied to a buffer of 64 bytes. -/
def quoted (s : List UInt8) : Option (List UInt8) :=
  (strchr s 34).map fun _ => (s.takeWhile (· ≠ 34)).take 63

/-! ## times -/

/-- What `sscanf` reads of an ISO 8601 time. -/
structure IsoTime (Double : Type) where
  y : Int
  mo : Int
  d : Int
  h : Int
  mi : Int
  se : Double

/-- The C library on `double`: `strtod` with the number of bytes it takes,
`(int64_t)(d * k)`, the `sscanf` of a time, `(int)se`,
`(int64_t)((se - (int)se) * 1e6)`; and `timegm` on the fields of a `struct tm`. -/
structure DoubleLib (Double : Type) where
  strtod : List UInt8 → Double × Nat
  scaled : Double → Nat → Int
  scanTime : List UInt8 → Option (IsoTime Double)
  whole : Double → Int
  micros : Double → Int
  timegm : Int → Int → Int → Int → Int → Int → Int

variable {Double : Type} (lib : DoubleLib Double)

def parseIso8601 (s : List UInt8) : Int :=
  match lib.scanTime s with
  | none => -1
  | some t =>
      let epoch := lib.timegm (t.y - 1900) (t.mo - 1) t.d t.h t.mi (lib.whole t.se)
      if epoch < 0 then -1 else toInt64 (epoch * 1000000 + lib.micros t.se)

/-- What the unit behind a number adds to a duration. -/
def durationPart (d : Double) : Option UInt8 → Int
  | some 72 | some 104 => lib.scaled d 3600000000
  | some 77 | some 109 => lib.scaled d 60000000
  | some 83 | some 115 => lib.scaled d 1000000
  | _ => 0

/-- The loop of `parse_duration_us`.  Each turn takes at least one byte, so the
length of the text is fuel enough. -/
def durationLoop : Nat → List UInt8 → Int → Int
  | 0, _, us => us
  | fuel + 1, p, us =>
      if p = [] then us
      else
        let (d, n) := lib.strtod p
        if n = 0 then us
        else
          let p := p.drop n
          durationLoop fuel (p.drop 1) (toInt64 (us + durationPart lib d p.head?))

def parseDurationUs (s : List UInt8) : Int :=
  let p := if s.head? = some 80 ∨ s.head? = some 112 then s.drop 1 else s
  let p := if p.head? = some 84 ∨ p.head? = some 116 then p.drop 1 else p
  durationLoop lib p.length p 0

/-! ## the loader -/

/-- Why no manifest is loaded: it is refused, the copy of the base URL runs out
of its buffer, or a divisor is zero. -/
inductive LoadError where
  | refused
  | overrun
  | divByZero
deriving DecidableEq, Repr

/-- Division of integers. -/
def divide (a b : Int) : Except LoadError Int :=
  if b = 0 then .error .divByZero else .ok (a.tdiv b)

/-- `dash_manifest`. -/
structure LoadedManifest where
  base : List UInt8
  startNumber : Int
  availStartUs : Int
  segDurationUs : Int
  publishTimeUs : Int
  timeshiftDepthUs : Int
  durationUs : Int
  staticMpd : Bool
  windowSegments : Int
  frameRate : Int
deriving DecidableEq, Repr

def isStatic (s : List UInt8) : Bool := (strstr s (ascii "type=\"static\"")).isSome

/-- A quoted attribute, parsed; zero without one. -/
def timeAttr (s : List UInt8) (name : String) (parse : List UInt8 → Int) : Int :=
  ((behind s name).bind quoted).elim 0 parse

/-- `<S ... d="..."` behind the timescale. -/
def segmentD (ts : List UInt8) : Option (List UInt8) :=
  (strstr ts (ascii "<S ")).bind fun stl => behind stl "d=\""

/-- `seg_duration_us`. -/
def segDuration (s : List UInt8) : Except LoadError Int :=
  match strstr s (ascii "timescale=\"") with
  | none => .ok 1000000
  | some ts =>
      let timescale := atoi (ts.drop 11)
      match segmentD ts with
      | none => .ok 1000000
      | some d =>
          let dd := atoi d
          if 0 < timescale ∧ 0 < dd then divide (dd * 1000000) timescale else .ok 1000000

/-- `fdenv`: what stands behind the slash of a frame rate, 1 without it. -/
def frameDen (fr : List UInt8) : Int :=
  let fden := ((strchr fr 47).map (·.drop 1)).getD []
  if fden = [] then 1 else atoi fden

/-- `frame_rate`. -/
def frameRate (s : List UInt8) : Except LoadError Int :=
  match behind s "frameRate=\"" with
  | none => .ok 0
  | some fr =>
      if 0 < atoi fr ∧ 0 < frameDen fr then divide (atoi fr) (frameDen fr) else .ok 0

/-- Scheme and host of the manifest's URL, in a buffer of 256 bytes. -/
def baseUrl (url : List UInt8) : Except LoadError (List UInt8) :=
  match strstr url (ascii "://") with
  | none => .error .refused
  | some b =>
      let scheme := url.length - b.length + 3
      let bl := ((b.drop 3).takeWhile (· ≠ 47)).length
      let bl := if bl ≥ 256 then 255 else bl
      if scheme + bl < 256 then .ok (url.take (scheme + bl)) else .error .overrun

/-- `window_segments`, in 64-bit arithmetic. -/
def windowSegments (depthUs segUs : Int) : Except LoadError Int := do
  let seg := UInt64.ofInt segUs
  let n ← divide ((UInt64.ofInt depthUs + seg - 1).toNat : Int) (seg.toNat : Int)
  return if toInt n < 1 then 1 else toInt n

/-- `dash_load_manifest`, on the text of the manifest. -/
def parseManifest (url s : List UInt8) : Except LoadError LoadedManifest :=
  let avail := timeAttr s "availabilityStartTime=\"" (parseIso8601 lib)
  let publish := timeAttr s "publishTime=\"" (parseIso8601 lib)
  let depth := timeAttr s "timeShiftBufferDepth=\"" (parseDurationUs lib)
  if (behind s "availabilityStartTime=\"").isNone ∧ isStatic s = false then .error .refused
  else do
    let segUs ← segDuration s
    let fps ← frameRate s
    let base ← baseUrl url
    let publish := if publish ≤ 0 then avail else publish
    let depth := if depth ≤ 0 then 10000000 else depth
    let window ← windowSegments depth segUs
    if segUs ≤ 0 then .error .refused
    else if isStatic s = false ∧ avail ≤ 0 then .error .refused
    else .ok {
      base := base
      startNumber := (behind s "startNumber=\"").elim 0 atoi
      availStartUs := avail
      segDurationUs := segUs
      publishTimeUs := publish
      timeshiftDepthUs := depth
      durationUs := timeAttr s "mediaPresentationDuration=\"" (parseDurationUs lib)
      staticMpd := isStatic s
      windowSegments := window
      frameRate := fps }

/-- `dash_load_manifest`, on what `http_get` came back with: nothing, or the
memory from the body on.  The text in it ends at the first NUL. -/
def dashLoadManifest (url : List UInt8) (fetched : Option (List UInt8)) :
    Except LoadError LoadedManifest :=
  match fetched with
  | none => .error .refused
  | some body => if body = [] then .error .refused else parseManifest lib url (cstr body)

/-! ## the divisions -/

theorem divide_pos {a b : Int} (hb : 0 < b) : divide a b = .ok (a.tdiv b) :=
  if_neg (by omega)

/-- The segment duration of the manifest rounds down to zero. -/
def SegmentTooShort (s : List UInt8) : Prop :=
  ∃ ts d, strstr s (ascii "timescale=\"") = some ts ∧ segmentD ts = some d ∧ 0 < atoi d ∧
    atoi d * 1000000 < atoi (ts.drop 11)

theorem atoi_range (p : List UInt8) : -intMax - 1 ≤ atoi p ∧ atoi p ≤ intMax :=
  toInt_range _

/-- The segment duration is computed, and is zero only for a manifest of this
kind. -/
theorem segDuration_spec (s : List UInt8) :
    ∃ n, segDuration s = .ok n ∧ 0 ≤ n ∧ n < 9223372036854775808 ∧ (n = 0 ↔ SegmentTooShort s) := by
  have hdefault : segDuration s = .ok 1000000 → ¬ SegmentTooShort s →
      ∃ n, segDuration s = .ok n ∧ 0 ≤ n ∧ n < 9223372036854775808 ∧ (n = 0 ↔ SegmentTooShort s) :=
    fun h hnot => ⟨1000000, h, by omega, by omega, by omega, fun hs => absurd hs hnot⟩
  cases hts : strstr s (ascii "timescale=\"") with
  | none =>
      refine hdefault (by rw [segDuration, hts]) ?_
      rintro ⟨ts, d, h, -⟩
      rw [hts] at h
      cases h
  | some ts =>
      cases hd : segmentD ts with
      | none =>
          refine hdefault (by simp only [segDuration, hts, hd]) ?_
          rintro ⟨ts', d, h, h', -⟩
          obtain rfl := Option.some.inj (hts.symm.trans h)
          rw [hd] at h'
          cases h'
      | some d =>
          by_cases hpos : 0 < atoi (ts.drop 11) ∧ 0 < atoi d
          · have hrange := atoi_range d
            rw [intMax_eq] at hrange
            refine ⟨(atoi d * 1000000).tdiv (atoi (ts.drop 11)), ?_, ?_, ?_, ?_⟩
            · simp only [segDuration, hts, hd, if_pos hpos, divide_pos hpos.1]
            · exact Int.tdiv_nonneg (by omega) (by omega)
            · have hle := Int.tdiv_le_self (atoi (ts.drop 11)) (show 0 ≤ atoi d * 1000000 by omega)
              omega
            · constructor
              · intro hzero
                refine ⟨ts, d, hts, hd, hpos.2, ?_⟩
                by_contra hge
                have hone := Int.le_ediv_of_mul_le hpos.1
                  (show 1 * atoi (ts.drop 11) ≤ atoi d * 1000000 by omega)
                rw [Int.tdiv_eq_ediv_of_nonneg (by omega)] at hzero
                omega
              · rintro ⟨ts', d', h, h', -, hlt⟩
                obtain rfl := Option.some.inj (hts.symm.trans h)
                obtain rfl := Option.some.inj (hd.symm.trans h')
                exact Int.tdiv_eq_zero_of_lt (by omega) hlt
          · refine hdefault (by simp only [segDuration, hts, hd, if_neg hpos]) ?_
            rintro ⟨ts', d', h, h', hdd, hlt⟩
            obtain rfl := Option.some.inj (hts.symm.trans h)
            obtain rfl := Option.some.inj (hd.symm.trans h')
            exact hpos ⟨by omega, hdd⟩

theorem frameRate_ok (s : List UInt8) : ∃ n, frameRate s = .ok n := by
  unfold frameRate
  cases behind s "frameRate=\"" with
  | none => exact ⟨0, rfl⟩
  | some fr =>
      by_cases hpos : 0 < atoi fr ∧ 0 < frameDen fr
      · exact ⟨_, (if_pos hpos).trans (divide_pos hpos.2)⟩
      · exact ⟨0, if_neg hpos⟩

theorem toNat_ofInt {n : Int} (h : 0 ≤ n) (h' : n < 9223372036854775808) :
    ((UInt64.ofInt n).toNat : Int) = n := by
  rw [UInt64.ofInt, UInt64.toNat_ofNat', Nat.mod_eq_of_lt (by omega), Int.emod_eq_of_lt h (by omega)]
  omega

theorem windowSegments_zero (depth : Int) : windowSegments depth 0 = .error .divByZero := rfl

theorem windowSegments_pos (depth : Int) {seg : Int} (h : 0 < seg) (h' : seg < 9223372036854775808) :
    ∃ n, windowSegments depth seg = .ok n ∧ 1 ≤ n := by
  have hseg := toNat_ofInt h.le h'
  unfold windowSegments
  dsimp only
  rw [divide_pos (by omega)]
  refine ⟨_, rfl, ?_⟩
  split <;> omega

/-! ## the loader as a whole -/

/-- Scheme and host of a URL fit the buffer for them. -/
def UrlFits (url : List UInt8) : Prop :=
  ∀ b, strstr url (ascii "://") = some b →
    url.length - b.length + 3 + min 255 ((b.drop 3).takeWhile (· ≠ 47)).length < 256

/-- The load is not given up before the window is computed: the manifest is
static or says when it is available, and the URL has a scheme. -/
def ReachesWindow (url s : List UInt8) : Prop :=
  ((behind s "availabilityStartTime=\"").isSome ∨ isStatic s = true) ∧
    (strstr url (ascii "://")).isSome

theorem baseUrl_of_none {url : List UInt8} (h : strstr url (ascii "://") = none) :
    baseUrl url = .error .refused := by
  rw [baseUrl, h]

theorem baseUrl_of_some {url b : List UInt8} (h : strstr url (ascii "://") = some b) :
    (UrlFits url ∧ ∃ base, baseUrl url = .ok base) ∨
      (¬ UrlFits url ∧ baseUrl url = .error .overrun) := by
  have hbl : (if ((b.drop 3).takeWhile (· ≠ 47)).length ≥ 256 then 255
      else ((b.drop 3).takeWhile (· ≠ 47)).length) =
        min 255 ((b.drop 3).takeWhile (· ≠ 47)).length := by
    split <;> omega
  by_cases hfits : url.length - b.length + 3 + min 255 ((b.drop 3).takeWhile (· ≠ 47)).length < 256
  · refine .inl ⟨fun c hc => ?_,
      url.take (url.length - b.length + 3 + min 255 ((b.drop 3).takeWhile (· ≠ 47)).length), ?_⟩
    · obtain rfl := Option.some.inj (h.symm.trans hc)
      exact hfits
    · simp only [baseUrl, h, hbl, if_pos hfits]
  · refine .inr ⟨fun hall => hfits (hall b h), ?_⟩
    simp only [baseUrl, h, hbl, if_neg hfits]

/-- What the loader sees to before it returns a manifest. -/
structure LoadedManifest.Usable (m : LoadedManifest) : Prop where
  segment_pos : 0 < m.segDurationUs
  segment_lt : m.segDurationUs < 9223372036854775808
  window_pos : 1 ≤ m.windowSegments
  start_le : m.startNumber ≤ intMax
  avail_ge : -9223372036854775808 ≤ m.availStartUs
  avail_lt : m.availStartUs < 9223372036854775808

theorem startNumber_le (s : List UInt8) : (behind s "startNumber=\"").elim 0 atoi ≤ intMax := by
  cases behind s "startNumber=\"" with
  | none => exact by decide
  | some p => exact (atoi_range p).2

theorem parseIso8601_range (s : List UInt8) :
    -9223372036854775808 ≤ parseIso8601 lib s ∧ parseIso8601 lib s < 9223372036854775808 := by
  unfold parseIso8601
  cases lib.scanTime s with
  | none =>
      dsimp only
      omega
  | some t =>
      dsimp only
      split
      · omega
      · exact toInt64_range _

theorem availStart_range (s : List UInt8) :
    -9223372036854775808 ≤ timeAttr s "availabilityStartTime=\"" (parseIso8601 lib) ∧
      timeAttr s "availabilityStartTime=\"" (parseIso8601 lib) < 9223372036854775808 := by
  unfold timeAttr
  cases (behind s "availabilityStartTime=\"").bind quoted with
  | none =>
      rw [Option.elim_none]
      omega
  | some text => exact parseIso8601_range lib text

/-- The gate of the loader: a dynamic manifest has to say when it is available. -/
theorem gate_iff (s : List UInt8) :
    ¬ ((behind s "availabilityStartTime=\"").isNone ∧ isStatic s = false) ↔
      (behind s "availabilityStartTime=\"").isSome ∨ isStatic s = true := by
  rw [not_and_or, Bool.not_eq_false, Bool.not_eq_true, Option.isNone_eq_false_iff]

/-- What a load comes to: refused early, out of its buffer, a division by zero,
or past the divisions with a duration and a window. -/
theorem parseManifest_cases (url s : List UInt8) :
    (¬ ReachesWindow url s ∧ parseManifest lib url s = .error .refused) ∨
    (ReachesWindow url s ∧ ¬ UrlFits url ∧ parseManifest lib url s = .error .overrun) ∨
    (ReachesWindow url s ∧ UrlFits url ∧ SegmentTooShort s ∧
      parseManifest lib url s = .error .divByZero) ∨
    (ReachesWindow url s ∧ UrlFits url ∧ ¬ SegmentTooShort s ∧
      (parseManifest lib url s = .error .refused ∨
        ∃ m, parseManifest lib url s = .ok m ∧ m.Usable)) := by
  obtain ⟨seg, hseg, hnonneg, hlt, hzero⟩ := segDuration_spec s
  obtain ⟨fps, hfps⟩ := frameRate_ok s
  by_cases havail : (behind s "availabilityStartTime=\"").isNone ∧ isStatic s = false
  · refine .inl ⟨fun hreach => (gate_iff s).mpr hreach.1 havail, ?_⟩
    rw [parseManifest, if_pos havail]
  · have hgate := (gate_iff s).mp havail
    simp only [parseManifest, if_neg havail, hseg, hfps, bind, Except.bind]
    cases hurl : strstr url (ascii "://") with
    | none =>
        left
        rw [baseUrl_of_none hurl]
        refine ⟨fun hreach => ?_, rfl⟩
        have hscheme := hreach.2
        rw [hurl] at hscheme
        cases hscheme
    | some b =>
        right
        have hreach : ReachesWindow url s := ⟨hgate, by rw [hurl]; rfl⟩
        obtain ⟨hfits, base, hbase⟩ | ⟨hfits, hbase⟩ := baseUrl_of_some hurl
        · right
          simp only [hbase]
          by_cases hshort : SegmentTooShort s
          · left
            rw [hzero.mpr hshort, windowSegments_zero]
            exact ⟨hreach, hfits, hshort, rfl⟩
          · right
            have hpos : 0 < seg := lt_of_le_of_ne hnonneg fun h => hshort (hzero.mp h.symm)
            refine ⟨hreach, hfits, hshort, ?_⟩
            obtain ⟨window, hwindow, hone⟩ := windowSegments_pos
              (if timeAttr s "timeShiftBufferDepth=\"" (parseDurationUs lib) ≤ 0 then 10000000
                else timeAttr s "timeShiftBufferDepth=\"" (parseDurationUs lib)) hpos hlt
            simp only [hwindow, if_neg (Int.not_le.mpr hpos)]
            by_cases hanchor : isStatic s = false ∧
                timeAttr s "availabilityStartTime=\"" (parseIso8601 lib) ≤ 0
            · exact .inl (if_pos hanchor)
            · right
              rw [if_neg hanchor]
              exact ⟨_, rfl, hpos, hlt, hone, startNumber_le s,
                (availStart_range lib s).1, (availStart_range lib s).2⟩
        · left
          rw [hbase]
          exact ⟨hreach, hfits, rfl⟩

/-- A manifest that is returned can be used. -/
theorem dashLoadManifest_usable {url : List UInt8} {fetched : Option (List UInt8)}
    {m : LoadedManifest} (h : dashLoadManifest lib url fetched = .ok m) : m.Usable := by
  cases fetched with
  | none => cases h
  | some body =>
      rw [dashLoadManifest] at h
      split at h
      · cases h
      · obtain ⟨-, hr⟩ | ⟨-, -, hr⟩ | ⟨-, -, -, hr⟩ | ⟨-, -, -, hr | ⟨m', hr, husable⟩⟩ :=
          parseManifest_cases lib url (cstr body)
        all_goals rw [hr] at h
        all_goals cases h
        exact husable

/-- The divisors of the reader loop: the segment duration as an `int64_t`, for
the length of a clip and for the live edge, and as a `u64`, for the buffers. -/
def readerDivisors (m : LoadedManifest) : List Int :=
  [m.segDurationUs, ((UInt64.ofInt m.segDurationUs).toNat : Int)]

theorem LoadedManifest.Usable.divisors {m : LoadedManifest} (h : m.Usable) :
    ∀ d ∈ readerDivisors m, d ≠ 0 := by
  have hpos := h.segment_pos
  intro d hd
  rw [readerDivisors, toNat_ofInt hpos.le h.segment_lt] at hd
  obtain rfl | hd := List.mem_cons.mp hd
  · exact hpos.ne'
  · rw [List.mem_singleton.mp hd]
    exact hpos.ne'

/-- A load that divides by zero nowhere, stays in its buffer, and leaves a
manifest the reader can divide by. -/
def LoadsSafely (r : Except LoadError LoadedManifest) : Prop :=
  r ≠ .error .divByZero ∧ r ≠ .error .overrun ∧
    ∀ m, r = .ok m → 0 < m.segDurationUs ∧ 1 ≤ m.windowSegments ∧ ∀ d ∈ readerDivisors m, d ≠ 0

theorem loadsSafely_refused : LoadsSafely (.error .refused) :=
  ⟨fun h => (by cases h), fun h => (by cases h), fun m h => (by cases h)⟩

theorem loadsSafely_ok {m : LoadedManifest} (husable : m.Usable) : LoadsSafely (.ok m) := by
  refine ⟨fun h => (by cases h), fun h => (by cases h), fun m' h => ?_⟩
  obtain rfl := Except.ok.inj h
  exact ⟨husable.segment_pos, husable.window_pos, husable.divisors⟩

/-- The manifest in the reader's hands after a reload: the old one if it fails. -/
def reload (m : LoadedManifest) : Except LoadError LoadedManifest → LoadedManifest
  | .ok fresh => fresh
  | .error _ => m

/-- Whatever the reloads bring, the reader never divides by zero. -/
theorem reloads_divisors (url : List UInt8) (loads : List (Option (List UInt8)))
    {m : LoadedManifest} (h : m.Usable) :
    ∀ d ∈ readerDivisors (loads.foldl (fun m f => reload m (dashLoadManifest lib url f)) m),
      d ≠ 0 := by
  induction loads generalizing m with
  | nil => exact h.divisors
  | cons f loads ih =>
      rw [List.foldl_cons]
      refine ih ?_
      cases hload : dashLoadManifest lib url f with
      | ok fresh => exact dashLoadManifest_usable lib hload
      | error e => exact h

/-- **Which manifests make the loader divide by zero**: those whose segment
duration rounds down to zero, unless the load is given up before that. -/
theorem manifest_divides_safely_iff (lib : DoubleLib Double) (url : List UInt8)
    (fetched : Option (List UInt8)) :
    LoadsSafely (dashLoadManifest lib url fetched) ↔
      ∀ body, fetched = some body → body ≠ [] → ReachesWindow url (cstr body) →
        UrlFits url ∧ ¬ SegmentTooShort (cstr body) := by
  cases fetched with
  | none => exact ⟨fun _ body h => (by cases h), fun _ => loadsSafely_refused⟩
  | some body =>
      simp only [Option.some.injEq, forall_eq']
      by_cases hnil : body = []
      · rw [dashLoadManifest, if_pos hnil]
        exact ⟨fun _ h => absurd hnil h, fun _ => loadsSafely_refused⟩
      · rw [dashLoadManifest, if_neg hnil]
        obtain ⟨hreach, hr⟩ | ⟨hreach, hfits, hr⟩ | ⟨hreach, hfits, hshort, hr⟩ |
          ⟨hreach, hfits, hshort, hr⟩ := parseManifest_cases lib url (cstr body)
        · rw [hr]
          exact ⟨fun _ _ h => absurd h hreach, fun _ => loadsSafely_refused⟩
        · rw [hr]
          exact ⟨fun h => absurd rfl h.2.1, fun h => absurd (h hnil hreach).1 hfits⟩
        · rw [hr]
          exact ⟨fun h => absurd rfl h.1, fun h => absurd hshort (h hnil hreach).2⟩
        · refine ⟨fun _ _ _ => ⟨hfits, hshort⟩, fun _ => ?_⟩
          obtain hr | ⟨m, hr, husable⟩ := hr
          · rw [hr]
            exact loadsSafely_refused
          · rw [hr]
            exact loadsSafely_ok husable

/-- Every manifest is loaded without a division by zero. -/
def ManifestsLoadSafely : Prop :=
  ∀ (Double : Type) (lib : DoubleLib Double) (url : List UInt8) (fetched : Option (List UInt8)),
    UrlFits url → LoadsSafely (dashLoadManifest lib url fetched)

/-- A C library for texts without numbers. -/
def emptyLib : DoubleLib Unit :=
  ⟨fun _ => ((), 0), fun _ _ => 0, fun _ => none, fun _ => 0, fun _ => 0, fun _ _ _ _ _ _ => -1⟩

/-- A segment of one unit, with more than a million units to the second. -/
theorem manifestsLoadSafely_fails : ¬ ManifestsLoadSafely := by
  intro h
  have hzero : dashLoadManifest emptyLib (ascii "http://h/live.mpd")
      (some (ascii "type=\"static\" timescale=\"1000001\" <S d=\"1\"/>")) = .error .divByZero := by
    decide +kernel
  have hfits : UrlFits (ascii "http://h/live.mpd") := by
    intro b hb
    have : strstr (ascii "http://h/live.mpd") (ascii "://") = some (ascii "://h/live.mpd") := by decide
    obtain rfl := Option.some.inj (this.symm.trans hb)
    decide
  exact (h Unit emptyLib _ _ hfits).1 hzero

end Vmc
