import Mathlib.Order.Monotone.Union
import Mathlib.Tactic
import Mathlib.Topology.Algebra.Ring.Basic
import Mathlib.Topology.Order.OrderClosed

/-!
# Vmc.Lib.Interpolate

The piecewise-linear interpolant of finitely many knots, extended with slope one
beyond both ends, and the bisection that finds the piece of a query.

The interpolant is what agrees with the chord on every piece and with the two
rays outside (`IsInterpolant`).  There is one such function at most; it passes
through the knots, is continuous, and rises where the values do.
-/

namespace Interpolate

/-! ## bisection -/

/-- Halve `lo .. hi` until the two are neighbours, keeping `p` at the lower and
its negation at the upper end. -/
def bisect (p : Nat → Bool) (lo hi : Nat) : Nat × Nat :=
  if lo + 1 < hi then
    if p ((lo + hi) / 2) then bisect p ((lo + hi) / 2) hi else bisect p lo ((lo + hi) / 2)
  else (lo, hi)
termination_by hi - lo

/-- The ends bisection comes to are neighbours inside the range, `p` holds at
the lower and fails at the upper. -/
theorem bisect_spec (p : Nat → Bool) {lo hi : Nat} (hlt : lo < hi) (hlo : p lo = true)
    (hhi : p hi = false) :
    ∃ i, bisect p lo hi = (i, i + 1) ∧ i + 1 ≤ hi ∧ p i = true ∧ p (i + 1) = false := by
  fun_induction bisect p lo hi with
  | case1 lo hi hwide hmid ih => exact ih (by omega) hmid hhi
  | case2 lo hi hwide hmid ih =>
    obtain ⟨i, hrun, hle, hi⟩ := ih (by omega) hlo (by simpa using hmid)
    exact ⟨i, hrun, by omega, hi⟩
  | case3 lo hi hnarrow =>
    obtain rfl : hi = lo + 1 := by omega
    exact ⟨lo, rfl, le_rfl, hlo, hhi⟩

/-! ## knots -/

section

variable {K : Type*} [LinearOrder K] {n : Nat} {t : Nat → K}

/-- Abscissas `t 0 < … < t n`. -/
def Knots (n : Nat) (t : Nat → K) : Prop := ∀ i j, i < j → j ≤ n → t i < t j

theorem Knots.le (ht : Knots n t) {i j : Nat} (hij : i ≤ j) (hj : j ≤ n) : t i ≤ t j := by
  rcases Nat.eq_or_lt_of_le hij with rfl | hlt
  · exact le_rfl
  · exact (ht i j hlt hj).le

/-- A query between the ends is on a piece. -/
theorem exists_piece {q : K} (hlo : t 0 ≤ q) (hhi : q < t n) :
    ∃ i < n, t i ≤ q ∧ q < t (i + 1) := by
  by_contra hnone
  push Not at hnone
  have hall : ∀ i ≤ n, t i ≤ q := by
    intro i
    induction i with
    | zero => exact fun _ => hlo
    | succ i ih => exact fun hi => hnone i (by omega) (ih (by omega))
  exact absurd (hall n le_rfl) (not_le.mpr hhi)

end

/-! ## the interpolant -/

section

variable {K : Type*} [Field K] [LinearOrder K]

/-- The chord from knot `i` to the next. -/
def chord (t r : Nat → K) (i : Nat) (q : K) : K :=
  r i + (r (i + 1) - r i) * (q - t i) / (t (i + 1) - t i)

/-- The function with the chords of the knots on its pieces, and slope one beyond
both ends. -/
structure IsInterpolant (n : Nat) (t r : Nat → K) (f : K → K) : Prop where
  below : ∀ q, q ≤ t 0 → f q = r 0 + (q - t 0)
  between : ∀ i < n, ∀ q, t i ≤ q → q ≤ t (i + 1) → f q = chord t r i q
  above : ∀ q, t n ≤ q → f q = r n + (q - t n)

variable {n : Nat} {t r : Nat → K} {f g : K → K}

omit [LinearOrder K] in
theorem chord_left (t r : Nat → K) (i : Nat) : chord t r i (t i) = r i := by
  unfold chord
  ring

theorem chord_right (ht : Knots n t) {i : Nat} (hi : i < n) :
    chord t r i (t (i + 1)) = r (i + 1) := by
  have hdx : t (i + 1) - t i ≠ 0 := sub_ne_zero.mpr (ht i (i + 1) (by omega) hi).ne'
  unfold chord
  rw [mul_div_assoc, div_self hdx]
  ring

/-- The interpolant from its values on half-open pieces, however the piece of a
query is found. -/
theorem isInterpolant_of_pieces (ht : Knots n t)
    (hbelow : ∀ q, q ≤ t 0 → f q = r 0 + (q - t 0))
    (habove : ∀ q, t 0 < q → t n ≤ q → f q = r n + (q - t n))
    (hpiece : ∀ q, t 0 < q → q < t n → ∃ i < n, t i ≤ q ∧ q < t (i + 1) ∧ f q = chord t r i q) :
    IsInterpolant n t r f where
  below := hbelow
  above := by
    intro q hq
    rcases lt_or_ge (t 0) q with hlt | hge
    · exact habove q hlt hq
    · -- the last knot is the first one, and the query is on it
      obtain rfl : n = 0 := by
        by_contra hn
        exact absurd (hq.trans hge) (not_le.mpr (ht 0 n (by omega) le_rfl))
      exact hbelow q hge
  between := by
    intro i hi q hlo hhi
    rcases le_or_gt q (t 0) with hfirst | hfirst
    · obtain rfl : i = 0 := by
        by_contra hne
        exact absurd (hlo.trans hfirst) (not_le.mpr (ht 0 i (by omega) (by omega)))
      obtain rfl : q = t 0 := le_antisymm hfirst hlo
      rw [hbelow _ le_rfl, chord_left, sub_self, add_zero]
    · rcases le_or_gt (t n) q with hlast | hlast
      · obtain rfl : n = i + 1 := by
          by_contra hne
          exact absurd (hlast.trans hhi) (not_le.mpr (ht (i + 1) n (by omega) le_rfl))
        obtain rfl : q = t (i + 1) := le_antisymm hhi hlast
        rw [habove _ hfirst le_rfl, chord_right ht hi, sub_self, add_zero]
      · obtain ⟨j, hj, hjlo, hjhi, hf⟩ := hpiece q hfirst hlast
        rcases lt_trichotomy i j with hij | rfl | hij
        · -- the query is the knot between the two pieces
          obtain rfl : q = t (i + 1) := le_antisymm hhi ((ht.le hij hj.le).trans hjlo)
          obtain rfl : j = i + 1 := by
            by_contra hne
            exact absurd hjlo (not_le.mpr (ht (i + 1) j (by omega) hj.le))
          rw [hf, chord_left, chord_right ht hi]
        · exact hf
        · exact absurd ((ht.le hij hi.le).trans hlo) (not_le.mpr hjhi)

namespace IsInterpolant

/-- The interpolant passes through the knots. -/
theorem apply_knot (h : IsInterpolant n t r f) (ht : Knots n t) {i : Nat} (hi : i ≤ n) :
    f (t i) = r i := by
  rcases Nat.lt_or_eq_of_le hi with hlt | rfl
  · rw [h.between i hlt (t i) le_rfl (ht i (i + 1) (by omega) hlt).le, chord_left]
  · rw [h.above _ le_rfl, sub_self, add_zero]

/-- There is at most one. -/
theorem unique (h : IsInterpolant n t r f) (hg : IsInterpolant n t r g) : f = g := by
  funext q
  rcases le_total q (t 0) with hlo | hlo
  · rw [h.below q hlo, hg.below q hlo]
  · rcases le_or_gt (t n) q with hhi | hhi
    · rw [h.above q hhi, hg.above q hhi]
    · obtain ⟨i, hi, hq, hq'⟩ := exists_piece hlo hhi
      rw [h.between i hi q hq hq'.le, hg.between i hi q hq hq'.le]

/-- It is continuous. -/
theorem continuous [TopologicalSpace K] [IsTopologicalRing K] [OrderClosedTopology K]
    (h : IsInterpolant n t r f) (ht : Knots n t) : Continuous f := by
  have hray : ∀ c d : K, Continuous fun q : K => c + (q - d) := fun c d => by fun_prop
  have hchord : ∀ i, Continuous (chord t r i) := fun i => by
    unfold chord
    have hrise := (continuous_const (y := r (i + 1) - r i)).mul
      (continuous_id.sub (continuous_const (y := t i)))
    exact continuous_const.add (hrise.div_const _)
  -- piece by piece from the left
  have hleft : ∀ k ≤ n, ContinuousOn f (Set.Iic (t k)) := by
    intro k
    induction k with
    | zero =>
      exact fun _ => (hray (r 0) (t 0)).continuousOn.congr fun q hq => h.below q hq
    | succ k ih =>
      intro hk
      have hpiece : ContinuousOn f (Set.Icc (t k) (t (k + 1))) :=
        (hchord k).continuousOn.congr fun q hq => h.between k hk q hq.1 hq.2
      have hunion := (ih (by omega)).union_of_isClosed hpiece isClosed_Iic isClosed_Icc
      rwa [Set.Iic_union_Icc_eq_Iic (ht.le (by omega) hk)] at hunion
  have hright : ContinuousOn f (Set.Ici (t n)) :=
    (hray (r n) (t n)).continuousOn.congr fun q hq => h.above q hq
  have hall := (hleft n le_rfl).union_of_isClosed hright isClosed_Iic isClosed_Ici
  rw [Set.Iic_union_Ici] at hall
  exact continuousOn_univ.mp hall

/-- It is monotone where the values do not fall. -/
theorem monotone [IsStrictOrderedRing K] (h : IsInterpolant n t r f) (ht : Knots n t)
    (hr : ∀ i < n, r i ≤ r (i + 1)) : Monotone f := by
  have hleft : ∀ k ≤ n, MonotoneOn f (Set.Iic (t k)) := by
    intro k
    induction k with
    | zero =>
      intro _ q hq q' hq' hle
      rw [h.below q hq, h.below q' hq']
      linarith
    | succ k ih =>
      intro hk
      have hpiece : MonotoneOn f (Set.Icc (t k) (t (k + 1))) := by
        intro q hq q' hq' hle
        rw [h.between k hk q hq.1 hq.2, h.between k hk q' hq'.1 hq'.2]
        have hdx : 0 ≤ t (k + 1) - t k := sub_nonneg.mpr (ht.le (by omega) hk)
        have hdr : 0 ≤ r (k + 1) - r k := sub_nonneg.mpr (hr k hk)
        unfold chord
        gcongr
      have hunion := (ih (by omega)).union_right hpiece isGreatest_Iic
        (isLeast_Icc (ht.le (by omega) hk))
      rwa [Set.Iic_union_Icc_eq_Iic (ht.le (by omega) hk)] at hunion
  have hright : MonotoneOn f (Set.Ici (t n)) := by
    intro q hq q' hq' hle
    rw [h.above q hq, h.above q' hq']
    linarith
  exact (hleft n le_rfl).Iic_union_Ici hright

end IsInterpolant

end

end Interpolate
