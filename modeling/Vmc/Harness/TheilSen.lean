import Mathlib.Data.List.GetD
import Vmc.Lib.Majority

/-!
# Vmc.Harness.TheilSen

The robust drift estimate of the report (`tools/av_harness/av_report.py`): the
median of the slopes between any two minutes, here over the rationals.

A slope between two minutes on a line is the slope of the line, so the estimate
is the line's as long as the untouched pairs are a majority of all pairs.
-/

namespace Vmc

open Majority

/-! ## the estimate -/

/-- `median`; the positions read are inside the list. -/
def median (v : List ℚ) : Option ℚ :=
  if v = [] then none
  else
    let s := v.mergeSort
    let n := s.length
    some (if n % 2 ≠ 0 then s.getD (n / 2) 0
      else 1 / 2 * (s.getD (n / 2 - 1) 0 + s.getD (n / 2) 0))

/-- The slope `theil_sen` takes for the positions `i` and `j`, if their abscissas
differ. -/
def slopeAt (xs ys : List ℚ) (i j : Nat) : Option ℚ :=
  let dx := xs.getD j 0 - xs.getD i 0
  if dx ≠ 0 then some ((ys.getD j 0 - ys.getD i 0) / dx) else none

/-- The slopes `theil_sen` collects. -/
def slopes (xs ys : List ℚ) : List ℚ :=
  (List.range xs.length).flatMap fun i =>
    (List.range' (i + 1) (xs.length - (i + 1))).filterMap fun j => slopeAt xs ys i j

/-- `theil_sen`, for lists of one length. -/
def theilSen (xs ys : List ℚ) : Option ℚ :=
  if xs.length < 5 then none else median (slopes xs ys)

/-! ## the median of a majority -/

/-- If more than half of the entries are `b`, so is the median. -/
theorem median_of_majority {v : List ℚ} {b : ℚ} (h : v.length / 2 < v.count b) :
    median v = some b := by
  have hperm : v.mergeSort.Perm v := List.mergeSort_perm v _
  have hsorted : v.mergeSort.Pairwise (· ≤ ·) := List.pairwise_mergeSort' (· ≤ ·) v
  have hcount : v.mergeSort.count b = v.count b := hperm.count_eq b
  have hlen : v.mergeSort.length = v.length := hperm.length_eq
  have hle := List.count_le_length (a := b) (l := v)
  have hne : v ≠ [] := by
    rintro rfl
    simp at h
  have hmid : v.mergeSort.getD (v.length / 2) 0 = b := by
    rw [List.getD_eq_getElem _ _ (by omega)]
    exact getElem_eq_of_count hsorted (by omega) (by omega) (by omega)
  unfold median
  rw [if_neg hne]
  dsimp only
  rw [hlen, hmid]
  split_ifs with hodd
  · rfl
  · have hbelow : v.mergeSort.getD (v.length / 2 - 1) 0 = b := by
      rw [List.getD_eq_getElem _ _ (by omega)]
      exact getElem_eq_of_count hsorted (by omega) (by omega) (by omega)
    rw [hbelow]
    congr 1
    ring

/-! ## the slopes -/

theorem slopes_eq_filterMap (xs ys : List ℚ) :
    slopes xs ys = (pairs (List.range xs.length)).filterMap fun p => slopeAt xs ys p.1 p.2 := by
  have hpairs := flatMap_range'_eq_pairs 0 xs.length
  rw [Nat.zero_add, ← List.range_eq_range'] at hpairs
  rw [← hpairs, List.filterMap_flatMap]
  unfold slopes
  congr 1
  funext i
  rw [List.filterMap_map]
  rfl

theorem sub_getD_ne_zero {xs : List ℚ} (hxs : xs.Nodup) {i j : Nat} (hi : i < xs.length)
    (hj : j < xs.length) (hij : i ≠ j) : xs.getD j 0 - xs.getD i 0 ≠ 0 := by
  rw [List.getD_eq_getElem _ _ hj, List.getD_eq_getElem _ _ hi, sub_ne_zero]
  intro heq
  exact hij ((List.Nodup.getElem_inj_iff hxs).mp heq).symm

/-- With distinct abscissas every pair has a slope. -/
theorem slopes_eq_map {xs : List ℚ} (hxs : xs.Nodup) (ys : List ℚ) :
    slopes xs ys = (pairs (List.range xs.length)).map fun p =>
      (ys.getD p.2 0 - ys.getD p.1 0) / (xs.getD p.2 0 - xs.getD p.1 0) := by
  rw [slopes_eq_filterMap, ← List.filterMap_eq_map]
  refine List.filterMap_congr fun p hp => ?_
  obtain ⟨h1, h2, hlt⟩ := of_mem_pairs List.pairwise_lt_range hp
  rw [List.mem_range] at h1 h2
  exact if_pos (sub_getD_ne_zero hxs h1 h2 (by omega))

theorem length_slopes {xs : List ℚ} (hxs : xs.Nodup) (ys : List ℚ) :
    (slopes xs ys).length = xs.length.choose 2 := by
  rw [slopes_eq_map hxs, List.length_map, length_pairs, List.length_range]

/-- The positions outside `bad` are at least so many. -/
theorem sub_card_le_countP (n : Nat) (bad : Finset Nat) :
    n - bad.card ≤ (List.range n).countP fun i => decide (i ∉ bad) := by
  have hsplit := List.length_eq_countP_add_countP (fun i => decide (i ∉ bad)) (l := List.range n)
  have hbad : (List.range n).countP (fun i => ¬ decide (i ∉ bad)) ≤ bad.card := by
    rw [List.countP_eq_length_filter,
      ← List.toFinset_card_of_nodup (List.nodup_range.filter _)]
    refine Finset.card_le_card fun i hi => ?_
    simpa using (List.mem_filter.mp (List.mem_toFinset.mp hi)).2
  rw [List.length_range] at hsplit
  omega

/-- The slopes between points on the line `a + b x` are `b`: all those that
touch no bad position. -/
theorem choose_le_count_slopes {xs ys : List ℚ} (hxs : xs.Nodup) {a b : ℚ} {bad : Finset Nat}
    (hline : ∀ i < xs.length, i ∉ bad → ys.getD i 0 = a + b * xs.getD i 0) :
    (xs.length - bad.card).choose 2 ≤ (slopes xs ys).count b := by
  have hgood : (pairs (List.range xs.length)).countP
      (fun p => decide (p.1 ∉ bad) && decide (p.2 ∉ bad)) ≤ (slopes xs ys).count b := by
    rw [slopes_eq_map hxs, List.count, List.countP_map]
    refine List.countP_mono_left fun p hp hboth => ?_
    obtain ⟨h1, h2, hlt⟩ := of_mem_pairs List.pairwise_lt_range hp
    rw [List.mem_range] at h1 h2
    have hdx : xs.getD p.2 0 - xs.getD p.1 0 ≠ 0 := sub_getD_ne_zero hxs h1 h2 (by omega)
    simp only [Bool.and_eq_true, decide_eq_true_eq] at hboth
    simp only [Function.comp_apply, beq_iff_eq]
    rw [hline p.1 h1 hboth.1, hline p.2 h2 hboth.2, div_eq_iff hdx]
    ring
  rw [countP_pairs fun i => decide (i ∉ bad)] at hgood
  exact (Nat.choose_le_choose 2 (sub_card_le_countP xs.length bad)).trans hgood

/-! ## glitches -/

theorem add_two_le_choose_two {n : Nat} (hn : 4 ≤ n) : n + 2 ≤ n.choose 2 := by
  induction n, hn using Nat.le_induction with
  | base => decide
  | succ n hn ih =>
    rw [choose_two_succ]
    omega

/-- Leaving one of five points or more out keeps more than half of the pairs. -/
theorem choose_two_sub_one {n : Nat} (hn : 5 ≤ n) :
    n.choose 2 / 2 + 1 ≤ (n - 1).choose 2 := by
  have hgrow := add_two_le_choose_two (n := n - 1) (by omega)
  have hsucc := choose_two_succ (n - 1)
  rw [Nat.sub_add_cancel (by omega)] at hsucc
  omega

/-- Five points or more with distinct abscissas, on the line `a + b x` except at
the positions `bad`: if the pairs of the others are more than half of all pairs,
the estimate is `b`.  One bad position is always few enough. -/
theorem theilSen_ignores_glitches (xs ys : List ℚ) (hn : 5 ≤ xs.length) (hxs : xs.Nodup)
    (a b : ℚ) (bad : Finset Nat)
    (hline : ∀ i < xs.length, i ∉ bad → ys.getD i 0 = a + b * xs.getD i 0) :
    (xs.length.choose 2 / 2 + 1 ≤ (xs.length - bad.card).choose 2 →
      theilSen xs ys = some b) ∧
    (bad.card ≤ 1 → theilSen xs ys = some b) := by
  have hcount := choose_le_count_slopes hxs hline
  have hmajority : xs.length.choose 2 / 2 + 1 ≤ (xs.length - bad.card).choose 2 →
      theilSen xs ys = some b := by
    intro hbound
    unfold theilSen
    rw [if_neg (by omega)]
    refine median_of_majority ?_
    rw [length_slopes hxs]
    omega
  refine ⟨hmajority, fun hone => hmajority ?_⟩
  exact (choose_two_sub_one hn).trans (Nat.choose_le_choose 2 (by omega))

/-- Five minutes that rise by two each, one of them wild. -/
theorem theilSen_ignores_glitches_five :
    theilSen [0, 1, 2, 3, 4] [1, 3, -1000, 7, 9] = some 2 :=
  (theilSen_ignores_glitches [0, 1, 2, 3, 4] [1, 3, -1000, 7, 9] (by decide) (by decide) 1 2 {2}
    (by decide +kernel)).2 (by decide)

end Vmc
