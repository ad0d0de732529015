import Vmc.Client.DashReader
import Vmc.Client.Manifest

/-!
# Vmc.Client.LiveEdge

The live edge `dash_reader_direct` computes from a loaded manifest, against the
number it stands for.

The quotient of elapsed time and segment duration is a 64-bit number, and is
narrowed to an `int` before it is raised to the start number and capped by the
length of a clip.  `live_edge_exact_iff` says when that does no harm.
-/

namespace Vmc

open Bytes CInt

/-! ## the edge that is meant -/

/-- What the fetch loops read of a loaded manifest. -/
def LoadedManifest.dash (m : LoadedManifest) (husable : m.Usable) (hstart : 0 ≤ m.startNumber) :
    DashManifest where
  startNumber := m.startNumber
  availStartUs := m.availStartUs
  segDurationUs := m.segDurationUs
  durationUs := m.durationUs
  staticMpd := m.staticMpd
  start_nonneg := hstart
  start_le := husable.start_le
  segment_pos := husable.segment_pos
  segment_lt := husable.segment_lt

namespace DashManifest

/-- The segments completed at a wall time. -/
def elapsedSegments (m : DashManifest) (now : Int) : Int :=
  max 0 (now - m.availStartUs) / m.segDurationUs

/-- A number of segments, at least the start number and at most the length of a
clip. -/
def clampEdge (m : DashManifest) (edge : Int) : Int :=
  let edge := max m.startNumber edge
  if 0 < m.totalSegments then min edge m.totalSegments else edge

/-- The live edge without a limit on its numbers. -/
def exactEdge (m : DashManifest) (now : Int) : Int := m.clampEdge (m.elapsedSegments now)

/-- The narrowing does no harm: the clip ends before the start number, so that
it decides alone; or the completed segments are an `int`, or one too many for
it that is still cut to no less than the clip.  If the elapsed time itself is
too long for an `int64_t`, it counts as none at all. -/
def EdgeFits (m : DashManifest) (now : Int) : Prop :=
  (0 < m.totalSegments ∧ m.totalSegments ≤ m.startNumber) ∨
  (now - m.availStartUs < 2 ^ 63 ∧
    (m.elapsedSegments now < 2 ^ 31 ∨
      (0 < m.totalSegments ∧ m.totalSegments ≤ toInt (m.elapsedSegments now)))) ∨
  (2 ^ 63 ≤ now - m.availStartUs ∧ m.elapsedSegments now ≤ m.startNumber)

instance (m : DashManifest) (now : Int) : Decidable (m.EdgeFits now) :=
  inferInstanceAs (Decidable (_ ∨ _ ∨ _))

theorem elapsedSegments_nonneg (m : DashManifest) (now : Int) : 0 ≤ m.elapsedSegments now :=
  Int.ediv_nonneg (le_max_left _ _) m.segment_pos.le

/-- The quotient as the code computes it, before it is narrowed. -/
def edgeQuotient (m : DashManifest) (now : Int) : Int :=
  let elapsed := toInt64 (now - m.availStartUs)
  if 0 < elapsed then elapsed.tdiv m.segDurationUs else 0

/-- The code clamps the narrowed quotient, as long as the clip's length is an
`int`. -/
theorem liveEdge_eq_clampEdge (m : DashManifest) (htotal : m.totalSegments < 2 ^ 31) (now : Int) :
    m.liveEdge now = m.clampEdge (toInt (m.edgeQuotient now)) := by
  have hedge : m.liveEdge now =
      let edge := if toInt (m.edgeQuotient now) < m.startNumber then m.startNumber
        else toInt (m.edgeQuotient now)
      if 0 < m.totalSegments ∧ toInt m.totalSegments < edge then toInt m.totalSegments
      else edge := rfl
  rw [hedge, clampEdge]
  by_cases hclip : 0 < m.totalSegments
  · have hint : toInt m.totalSegments = m.totalSegments :=
      toInt_of_range (by rw [intMax_eq]; omega) (by rw [intMax_eq]; omega)
    rw [hint, if_pos hclip]
    grind
  · rw [if_neg hclip]
    grind

theorem edgeQuotient_eq (m : DashManifest) {now : Int} (hnow : 0 ≤ now)
    (havail : m.availStartUs < 2 ^ 63) (hfits : now - m.availStartUs < 2 ^ 63) :
    m.edgeQuotient now = m.elapsedSegments now := by
  rw [edgeQuotient, toInt64_of_range (by omega) (by omega), elapsedSegments]
  split
  · rw [Int.tdiv_eq_ediv_of_nonneg (by omega), max_eq_right (by omega)]
  · rw [max_eq_left (by omega), Int.zero_ediv]

/-- An elapsed time too long for an `int64_t` is taken for a negative one. -/
theorem edgeQuotient_eq_zero (m : DashManifest) {now : Int} (hnow : now < 2 ^ 62)
    (havail : -2 ^ 63 ≤ m.availStartUs) (hlong : 2 ^ 63 ≤ now - m.availStartUs) :
    m.edgeQuotient now = 0 := by
  have hwrap : toInt64 (now - m.availStartUs) = now - m.availStartUs - 18446744073709551616 := by
    rw [toInt64, Int.bmod_def]
    omega
  rw [edgeQuotient, hwrap]
  exact if_neg (by omega)

/-- The clamps leave nothing of the difference between a number and what the
narrowing makes of it. -/
theorem clampEdge_narrow_iff (m : DashManifest) (htotal : m.totalSegments < 2 ^ 31) {q : Int}
    (hq : 0 ≤ q) :
    m.clampEdge (toInt q) = m.clampEdge q ↔
      (0 < m.totalSegments ∧ m.totalSegments ≤ m.startNumber) ∨ q < 2 ^ 31 ∨
        (0 < m.totalSegments ∧ m.totalSegments ≤ toInt q) := by
  have hstart := m.start_le
  have hrange := toInt_range q
  rw [intMax_eq] at hstart hrange
  by_cases hint : q < 2 ^ 31
  · rw [toInt_of_range (by rw [intMax_eq]; omega) (by rw [intMax_eq]; omega)]
    exact ⟨fun _ => .inr (.inl hint), fun _ => rfl⟩
  · simp only [clampEdge]
    by_cases hclip : 0 < m.totalSegments
    · rw [if_pos hclip, if_pos hclip]
      omega
    · rw [if_neg hclip, if_neg hclip]
      omega

end DashManifest

/-! ## the edge that is computed -/

/-- **When the live edge is exact**, for every manifest that is loaded and every
wall time from the start of 2020 to the end of 2100. -/
theorem live_edge_exact_iff {Double : Type} (lib : DoubleLib Double) (url : List UInt8)
    (fetched : Option (List UInt8)) (m : LoadedManifest)
    (hload : dashLoadManifest lib url fetched = .ok m) (hstart : 0 ≤ m.startNumber)
    (htotal : (m.dash (dashLoadManifest_usable lib hload) hstart).totalSegments < 2 ^ 31) (now : Int)
    (h2020 : 1577836800000000 ≤ now) (h2100 : now < 4133980800000000) :
    (m.dash (dashLoadManifest_usable lib hload) hstart).liveEdge now =
        (m.dash (dashLoadManifest_usable lib hload) hstart).exactEdge now ↔
      (m.dash (dashLoadManifest_usable lib hload) hstart).EdgeFits now := by
  have husable := dashLoadManifest_usable lib hload
  have hge : -2 ^ 63 ≤ (m.dash husable hstart).availStartUs := husable.avail_ge
  have hlt : (m.dash husable hstart).availStartUs < 2 ^ 63 := husable.avail_lt
  generalize m.dash husable hstart = d at *
  rw [d.liveEdge_eq_clampEdge htotal, DashManifest.exactEdge, DashManifest.EdgeFits]
  have hnonneg := d.elapsedSegments_nonneg now
  by_cases hfits : now - d.availStartUs < 2 ^ 63
  · rw [d.edgeQuotient_eq (by omega) hlt hfits, d.clampEdge_narrow_iff htotal hnonneg]
    constructor
    · rintro (hclip | hint)
      · exact .inl hclip
      · exact .inr (.inl ⟨hfits, hint⟩)
    · rintro (hclip | ⟨-, hint⟩ | ⟨hlong, -⟩)
      · exact .inl hclip
      · exact .inr hint
      · omega
  · rw [d.edgeQuotient_eq_zero (by omega) hge (by omega)]
    have hzero : toInt 0 = 0 := rfl
    have hstart' := d.start_nonneg
    simp only [hzero, DashManifest.clampEdge]
    split
    · omega
    · omega

/-! ## a play-once clip -/

/-- A C library for texts whose only numbers are whole. -/
def integerLib : DoubleLib Nat where
  strtod p := (Digits.value 10 (p.takeWhile isDecimal), (p.takeWhile isDecimal).length)
  scaled d k := d * k
  scanTime _ := none
  whole d := d
  micros _ := 0
  timegm _ _ _ _ _ _ := -1

/-- The manifest of a clip of ten seconds in segments of half a second, without
a start time. -/
def staticText : List UInt8 :=
  ascii "type=\"static\" mediaPresentationDuration=\"PT10S\" startNumber=\"1\" " ++
    ascii "timescale=\"2\" <S d=\"1\"/>"

def staticClip : LoadedManifest where
  base := ascii "http://h"
  startNumber := 1
  availStartUs := 0
  segDurationUs := 500000
  publishTimeUs := 0
  timeshiftDepthUs := 10000000
  durationUs := 10000000
  staticMpd := true
  windowSegments := 20
  frameRate := 0

theorem staticClip_loads :
    dashLoadManifest integerLib (ascii "http://h/live.mpd") (some staticText) = .ok staticClip := by
  decide +kernel

theorem staticClip_start : 0 ≤ staticClip.startNumber := by decide

/-- What the fetch loops read of it. -/
def staticDash : DashManifest :=
  staticClip.dash (dashLoadManifest_usable integerLib staticClip_loads) staticClip_start

theorem live_edge_exact_iff_staticClip :
    ¬ staticDash.liveEdge 1767225600000000 = staticDash.exactEdge 1767225600000000 := by
  intro hexact
  have hfits := (live_edge_exact_iff integerLib (ascii "http://h/live.mpd") (some staticText)
    staticClip staticClip_loads staticClip_start (by decide) 1767225600000000 (by decide)
    (by decide)).mp hexact
  revert hfits
  decide

/-- The live edge is exact for every manifest that is loaded, with a start
number and a length of clip that are what they seem, from 2020 to 2100. -/
def LiveEdgeExact : Prop :=
  ∀ (Double : Type) (lib : DoubleLib Double) (url : List UInt8) (fetched : Option (List UInt8))
    (m : LoadedManifest) (hload : dashLoadManifest lib url fetched = .ok m)
    (hstart : 0 ≤ m.startNumber),
    (m.dash (dashLoadManifest_usable lib hload) hstart).totalSegments < 2 ^ 31 →
      ∀ now : Int, 1577836800000000 ≤ now → now < 4133980800000000 →
        (m.dash (dashLoadManifest_usable lib hload) hstart).liveEdge now =
          (m.dash (dashLoadManifest_usable lib hload) hstart).exactEdge now

/-- At the start of 2026 the clip has ended, with 20 segments; its live edge is
computed as 1. -/
theorem liveEdgeExact_fails : ¬ LiveEdgeExact := by
  intro h
  have hexact := h Nat integerLib (ascii "http://h/live.mpd") (some staticText) staticClip
    staticClip_loads staticClip_start (by decide) 1767225600000000 (by decide) (by decide)
  exact absurd hexact (by decide)

end Vmc
