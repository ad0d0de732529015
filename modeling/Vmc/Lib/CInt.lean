import Mathlib.Tactic

/-!
# Vmc.Lib.CInt

The signed integer types of C over `Int`: the exact result of an operation is
brought back into the type's range, two's complement; a result already in range
is kept.
-/

namespace CInt

/-- `INT_MAX` of a 32-bit `int`. -/
def intMax : Int := 2147483647

theorem intMax_eq : intMax = 2147483647 := rfl

theorem neg_one_lt_intMax : -1 < intMax := by decide

/-- Conversion to a 32-bit `int`. -/
def toInt (x : Int) : Int := x.bmod 4294967296

/-- Conversion to `int64_t`. -/
def toInt64 (x : Int) : Int := x.bmod 18446744073709551616

theorem toInt_of_range {x : Int} (hlo : -intMax - 1 ≤ x) (hhi : x ≤ intMax) : toInt x = x := by
  unfold toInt
  unfold intMax at hlo hhi
  exact Int.bmod_eq_of_le (by norm_num; omega) (by norm_num; omega)

theorem toInt_range (x : Int) : -intMax - 1 ≤ toInt x ∧ toInt x ≤ intMax := by
  have hlo := Int.le_bmod (x := x) (m := 4294967296) (by norm_num)
  have hhi := Int.bmod_lt (x := x) (m := 4294967296) (by norm_num)
  unfold toInt intMax
  norm_num at hlo hhi
  omega

theorem toInt64_of_range {x : Int} (hlo : -9223372036854775808 ≤ x)
    (hhi : x < 9223372036854775808) : toInt64 x = x := by
  unfold toInt64
  exact Int.bmod_eq_of_le (by norm_num; omega) (by norm_num; omega)

theorem toInt64_range (x : Int) :
    -9223372036854775808 ≤ toInt64 x ∧ toInt64 x < 9223372036854775808 := by
  have hlo := Int.le_bmod (x := x) (m := 18446744073709551616) (by norm_num)
  have hhi := Int.bmod_lt (x := x) (m := 18446744073709551616) (by norm_num)
  unfold toInt64
  norm_num at hlo hhi
  omega

/-- Integer division truncates towards zero: a quotient of magnitudes, with the
sign of the dividend. -/
theorem tdiv_eq_ite (x m : Int) : x.tdiv m = if 0 ≤ x then x / m else -(-x / m) := by
  split_ifs with h
  · exact Int.tdiv_eq_ediv_of_nonneg h
  · have hneg := Int.neg_tdiv x m
    rw [Int.tdiv_eq_ediv_of_nonneg (by omega)] at hneg
    omega

/-! ## checked arithmetic

A signed operation whose exact result leaves the range has no defined result. -/

/-- The result of an `int` operation, given its exact value. -/
def checked (x : Int) : Option Int :=
  if -intMax - 1 ≤ x ∧ x ≤ intMax then some x else none

theorem checked_of_natAbs_le {x : Int} (h : (x.natAbs : Int) ≤ intMax) : checked x = some x := by
  have hr : -intMax - 1 ≤ x ∧ x ≤ intMax := by omega
  simp [checked, hr]

/-- A sum taken one term at a time is exact where the absolute values together
stay in range, since no partial sum leaves it. -/
theorem foldlM_add_of_natAbs_le {ι : Type*} {step : Int → ι → Option Int} {f : ι → Int}
    (hstep : ∀ acc i, ((acc + f i).natAbs : Int) ≤ intMax → step acc i = some (acc + f i))
    (xs : List ι) (acc : Int)
    (h : (acc.natAbs : Int) + (xs.map fun i => ((f i).natAbs : Int)).sum ≤ intMax) :
    xs.foldlM step acc = some (acc + (xs.map f).sum) := by
  induction xs generalizing acc with
  | nil => simp
  | cons i xs ih =>
    rw [List.map_cons, List.sum_cons] at h
    have hrest : 0 ≤ (xs.map fun i => ((f i).natAbs : Int)).sum :=
      List.sum_nonneg (by simp)
    have htri : (acc + f i).natAbs ≤ acc.natAbs + (f i).natAbs := Int.natAbs_add_le acc (f i)
    rw [List.foldlM_cons, hstep acc i (by omega)]
    change xs.foldlM step (acc + f i) = _
    rw [ih (acc + f i) (by omega), List.map_cons, List.sum_cons, Int.add_assoc]

end CInt
