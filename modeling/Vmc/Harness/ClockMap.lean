import Mathlib.Data.List.GetD
import Mathlib.Topology.Instances.Rat
import Vmc.Lib.Interpolate

/-!
# Vmc.Harness.ClockMap

The two clock maps of the report (`tools/av_harness/av_report.py`), over the
rationals: `realtime_of` takes a monotonic time to CLOCK_REALTIME by the
`clock_sync` pairs, `audio_pts_at` takes a time to the audio content position by
the render timeline.

Both find the piece of a query by bisection and interpolate on it.  `realtime_of`
goes on with slope one beyond the ends, `audio_pts_at` has no answer there.
-/

namespace Vmc

open Interpolate

/-! ## the maps -/

/-- The time and the value of an entry of a table; the searches read entries of
the table only. -/
def timeAt (table : List (ℚ × ℚ)) (i : Nat) : ℚ := (table.getD i (0, 0)).1

def valueAt (table : List (ℚ × ℚ)) (i : Nat) : ℚ := (table.getD i (0, 0)).2

/-- The interpolation of both maps between two entries, which guards the division. -/
def onSegment (tA rA tB rB q : ℚ) : ℚ :=
  if tB = tA then rA else rA + (rB - rA) * (q - tA) / (tB - tA)

/-- The search of both maps: the last bracket `lo`, `hi`. -/
def search (table : List (ℚ × ℚ)) (q : ℚ) : Nat × Nat :=
  bisect (fun mid => decide (timeAt table mid ≤ q)) 0 (table.length - 1)

/-- `realtime_of`. -/
def realtimeOf (rtPairs : List (ℚ × ℚ)) (monoUs : ℚ) : Option ℚ :=
  let last := rtPairs.length - 1
  if rtPairs = [] then none
  else if monoUs ≤ timeAt rtPairs 0 then some (valueAt rtPairs 0 + (monoUs - timeAt rtPairs 0))
  else if timeAt rtPairs last ≤ monoUs then
    some (valueAt rtPairs last + (monoUs - timeAt rtPairs last))
  else
    let (lo, hi) := search rtPairs monoUs
    some (onSegment (timeAt rtPairs lo) (valueAt rtPairs lo) (timeAt rtPairs hi)
      (valueAt rtPairs hi) monoUs)

/-- The times and content positions of a render timeline, whose entries also
carry when they were reported. -/
def timelinePairs (tl : List (ℚ × ℚ × ℚ)) : List (ℚ × ℚ) := tl.map fun e => (e.1, e.2.1)

/-- `audio_pts_at`: it interpolates on `lo` and `lo + 1`. -/
def audioPtsAt (tl : List (ℚ × ℚ × ℚ)) (tUs : ℚ) : Option ℚ :=
  let table := timelinePairs tl
  if tl = [] ∨ tUs ≤ timeAt table 0 ∨ timeAt table (table.length - 1) ≤ tUs then none
  else
    let lo := (search table tUs).1
    some (onSegment (timeAt table lo) (valueAt table lo) (timeAt table (lo + 1))
      (valueAt table (lo + 1)) tUs)

/-! ## the search -/

/-- Strictly increasing times are the knots of an interpolant. -/
theorem knots_timeAt {table : List (ℚ × ℚ)} (h : table.Pairwise fun a b => a.1 < b.1) :
    Knots (table.length - 1) (timeAt table) := by
  intro i j hij hj
  have hjlen : j < table.length := by omega
  unfold timeAt
  rw [List.getD_eq_getElem _ _ (by omega), List.getD_eq_getElem _ _ hjlen]
  exact List.pairwise_iff_getElem.mp h i j (by omega) hjlen hij

/-- Between the ends the search finds the piece of the query. -/
theorem search_spec {table : List (ℚ × ℚ)} {q : ℚ} (hlo : timeAt table 0 < q)
    (hhi : q < timeAt table (table.length - 1)) :
    ∃ i, search table q = (i, i + 1) ∧ i < table.length - 1 ∧ timeAt table i ≤ q ∧
      q < timeAt table (i + 1) := by
  have hlast : 0 < table.length - 1 := by
    by_contra hzero
    obtain hzero : table.length - 1 = 0 := by omega
    rw [hzero] at hhi
    exact absurd hlo (not_lt.mpr hhi.le)
  obtain ⟨i, hrun, hi, hle, hgt⟩ := bisect_spec (fun mid => decide (timeAt table mid ≤ q)) hlast
    (decide_eq_true hlo.le) (decide_eq_false (not_le.mpr hhi))
  exact ⟨i, hrun, hi, of_decide_eq_true hle, not_le.mp (of_decide_eq_false hgt)⟩

/-- On a piece of positive length the interpolation is the chord. -/
theorem onSegment_eq_chord (table : List (ℚ × ℚ)) {i : Nat} {q : ℚ}
    (h : timeAt table i < timeAt table (i + 1)) :
    onSegment (timeAt table i) (valueAt table i) (timeAt table (i + 1)) (valueAt table (i + 1)) q =
      chord (timeAt table) (valueAt table) i q := if_neg h.ne'

/-! ## the interpolant -/

/-- `realtime_of` on a non-empty table. -/
def realtimeFn (table : List (ℚ × ℚ)) (q : ℚ) : ℚ := (realtimeOf table q).getD 0

theorem realtimeOf_eq {table : List (ℚ × ℚ)} (hne : table ≠ []) (q : ℚ) :
    realtimeOf table q = some (realtimeFn table q) := by
  unfold realtimeFn realtimeOf
  dsimp only
  rw [if_neg hne]
  split_ifs <;> rfl

theorem realtimeFn_piece {table : List (ℚ × ℚ)} (hne : table ≠ []) {q : ℚ}
    (hlo : timeAt table 0 < q) (hhi : q < timeAt table (table.length - 1)) :
    ∃ i < table.length - 1, search table q = (i, i + 1) ∧ timeAt table i ≤ q ∧
      q < timeAt table (i + 1) ∧
      realtimeFn table q = chord (timeAt table) (valueAt table) i q := by
  obtain ⟨i, hrun, hi, hle, hlt⟩ := search_spec hlo hhi
  refine ⟨i, hi, hrun, hle, hlt, ?_⟩
  unfold realtimeFn realtimeOf
  dsimp only
  rw [if_neg hne, if_neg (not_le.mpr hlo), if_neg (not_le.mpr hhi), hrun, Option.getD_some]
  exact onSegment_eq_chord table (hle.trans_lt hlt)

/-- `realtime_of` is the interpolant of its pairs. -/
theorem realtimeFn_isInterpolant {table : List (ℚ × ℚ)} (hne : table ≠ [])
    (h : table.Pairwise fun a b => a.1 < b.1) :
    IsInterpolant (table.length - 1) (timeAt table) (valueAt table) (realtimeFn table) := by
  refine isInterpolant_of_pieces (knots_timeAt h) (fun q hq => ?_) (fun q hfirst hq => ?_)
    (fun q hlo hhi => ?_)
  · unfold realtimeFn realtimeOf
    dsimp only
    rw [if_neg hne, if_pos hq, Option.getD_some]
  · unfold realtimeFn realtimeOf
    dsimp only
    rw [if_neg hne, if_neg (not_le.mpr hfirst), if_pos hq, Option.getD_some]
  · obtain ⟨i, hi, -, hle, hlt, hf⟩ := realtimeFn_piece hne hlo hhi
    exact ⟨i, hi, hle, hlt, hf⟩

/-- `audio_pts_at` is the same interpolant, strictly between the ends. -/
theorem audioPtsAt_eq {tl : List (ℚ × ℚ × ℚ)} (hne : timelinePairs tl ≠ []) (q : ℚ) :
    audioPtsAt tl q =
      if timeAt (timelinePairs tl) 0 < q ∧
          q < timeAt (timelinePairs tl) ((timelinePairs tl).length - 1) then
        some (realtimeFn (timelinePairs tl) q)
      else none := by
  have hne' : tl ≠ [] := by
    rintro rfl
    exact hne rfl
  unfold audioPtsAt
  dsimp only
  split_ifs with hout hin hin
  · rcases hout with hempty | hlo | hhi
    · exact absurd hempty hne'
    · exact absurd hin.1 (not_lt.mpr hlo)
    · exact absurd hin.2 (not_lt.mpr hhi)
  · rfl
  · obtain ⟨i, -, hrun, hle, hlt, hf⟩ := realtimeFn_piece hne hin.1 hin.2
    rw [hrun, hf]
    exact congrArg some (onSegment_eq_chord (timelinePairs tl) (hle.trans_lt hlt))
  · push Not at hout
    exact absurd ⟨hout.2.1, hout.2.2⟩ hin

theorem exists_index_of_mem {table : List (ℚ × ℚ)} {p : ℚ × ℚ} (hp : p ∈ table) :
    ∃ i ≤ table.length - 1, timeAt table i = p.1 ∧ valueAt table i = p.2 := by
  obtain ⟨i, hi, rfl⟩ := List.mem_iff_getElem.mp hp
  refine ⟨i, by omega, ?_, ?_⟩
  · rw [timeAt, List.getD_eq_getElem _ _ hi]
  · rw [valueAt, List.getD_eq_getElem _ _ hi]

/-- For any pairs with strictly increasing times and any query: `realtime_of`
answers with the piecewise-linear interpolant of the pairs, extended with slope
one beyond both ends.  It passes through every pair, is continuous, and is
monotone where the realtimes do not fall.  `audio_pts_at` on a timeline with
these pairs answers with the same interpolant strictly between the first and the
last time, and with none elsewhere. -/
theorem clock_map_interpolates (pairs : List (ℚ × ℚ)) (hne : pairs ≠ [])
    (hsorted : pairs.Pairwise fun a b => a.1 < b.1) :
    ∃ f : ℚ → ℚ, (∀ q, realtimeOf pairs q = some (f q)) ∧
      (∀ g, IsInterpolant (pairs.length - 1) (timeAt pairs) (valueAt pairs) g ↔ g = f) ∧
      (∀ p ∈ pairs, f p.1 = p.2) ∧
      Continuous f ∧
      ((pairs.Pairwise fun a b => a.2 ≤ b.2) → Monotone f) ∧
      ∀ tl, timelinePairs tl = pairs → ∀ q, audioPtsAt tl q =
        if timeAt pairs 0 < q ∧ q < timeAt pairs (pairs.length - 1) then some (f q) else none := by
  have hknots := knots_timeAt hsorted
  have hf := realtimeFn_isInterpolant hne hsorted
  refine ⟨realtimeFn pairs, realtimeOf_eq hne, fun g => ⟨fun hg => hg.unique hf, ?_⟩, ?_,
    hf.continuous hknots, fun hmono => hf.monotone hknots ?_, ?_⟩
  · rintro rfl
    exact hf
  · intro p hp
    obtain ⟨i, hi, ht, hv⟩ := exists_index_of_mem hp
    rw [← ht, ← hv]
    exact hf.apply_knot hknots hi
  · intro i hi
    have hlen : i + 1 < pairs.length := by omega
    unfold valueAt
    rw [List.getD_eq_getElem _ _ (by omega), List.getD_eq_getElem _ _ hlen]
    exact List.pairwise_iff_getElem.mp hmono i (i + 1) (by omega) hlen (by omega)
  · rintro tl rfl q
    exact audioPtsAt_eq hne q

/-- Three pairs, the clock stepping in the second interval. -/
theorem clock_map_interpolates_step :
    ∃ f : ℚ → ℚ, (∀ q, realtimeOf [(0, 100), (10, 110), (20, 140)] q = some (f q)) ∧
      f 10 = 110 := by
  obtain ⟨f, hrun, -, hknot, -⟩ := clock_map_interpolates [(0, 100), (10, 110), (20, 140)]
    (by decide) (by decide +kernel)
  exact ⟨f, hrun, hknot (10, 110) (by decide)⟩

end Vmc
