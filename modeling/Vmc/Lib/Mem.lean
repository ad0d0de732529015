import Mathlib.Tactic

/-!
# Vmc.Lib.Mem

Block copies from one addressed memory into another: `copy` is `memcpy`, and
`copyRows` copies an image row by row, each side with its own pitch.
-/

namespace Mem

variable {α : Type*}

/-! ## one block -/

/-- Copy `n` cells of `src` from address `s` to address `d` on. -/
def copy (mem : Nat → α) (d : Nat) (src : Nat → α) (s n : Nat) : Nat → α :=
  fun a => if d ≤ a ∧ a < d + n then src (s + (a - d)) else mem a

theorem copy_of_mem {mem src : Nat → α} {d s n j : Nat} (h : j < n) :
    copy mem d src s n (d + j) = src (s + j) := by
  unfold copy
  rw [if_pos ⟨by omega, by omega⟩]
  congr 1
  omega

theorem copy_of_not_mem {mem src : Nat → α} {d s n a : Nat} (h : ¬ (d ≤ a ∧ a < d + n)) :
    copy mem d src s n a = mem a := if_neg h

@[simp] theorem copy_zero (mem src : Nat → α) (d s : Nat) : copy mem d src s 0 = mem := by
  funext a
  exact copy_of_not_mem (by omega)

/-- Two copies of adjoining blocks are one copy. -/
theorem copy_copy (mem src : Nat → α) (d s n k : Nat) :
    copy (copy mem d src s n) (d + n) src (s + n) k = copy mem d src s (n + k) := by
  funext a
  unfold copy
  split_ifs with hsecond hboth hfirst hboth
  · congr 1
    omega
  · omega
  · rfl
  · omega
  · omega
  · rfl

/-! ## rows -/

/-- Copy `h` rows of `n` cells, from rows `sp` apart to rows `dp` apart. -/
def copyRows (mem : Nat → α) (d dp : Nat) (src : Nat → α) (s sp n h : Nat) : Nat → α :=
  (List.range h).foldl (fun mem r => copy mem (d + r * dp) src (s + r * sp) n) mem

@[simp] theorem copyRows_zero (mem src : Nat → α) (d dp s sp n : Nat) :
    copyRows mem d dp src s sp n 0 = mem := rfl

theorem copyRows_succ (mem src : Nat → α) (d dp s sp n h : Nat) :
    copyRows mem d dp src s sp n (h + 1) =
      copy (copyRows mem d dp src s sp n h) (d + h * dp) src (s + h * sp) n := by
  unfold copyRows
  rw [List.range_succ, List.foldl_append]
  rfl

/-- Outside the rows nothing changes. -/
theorem copyRows_of_not_mem {mem src : Nat → α} {d dp s sp n h a : Nat}
    (ha : ∀ r < h, ¬ (d + r * dp ≤ a ∧ a < d + r * dp + n)) :
    copyRows mem d dp src s sp n h a = mem a := by
  induction h with
  | zero => rfl
  | succ h ih =>
    rw [copyRows_succ, copy_of_not_mem (ha h (by omega))]
    exact ih fun r hr => ha r (by omega)

/-- Rows at least `n` apart do not meet. -/
theorem row_disjoint {d dp n r r' : Nat} (hdp : n ≤ dp) (hr : r < r') :
    d + r * dp + n ≤ d + r' * dp := by
  have hstep : (r + 1) * dp ≤ r' * dp := Nat.mul_le_mul_right dp hr
  rw [Nat.add_mul, Nat.one_mul] at hstep
  omega

/-- Rows that do not meet arrive as they were. -/
theorem copyRows_of_mem {mem src : Nat → α} {d dp s sp n h r j : Nat} (hdp : n ≤ dp)
    (hr : r < h) (hj : j < n) :
    copyRows mem d dp src s sp n h (d + r * dp + j) = src (s + r * sp + j) := by
  induction h with
  | zero => omega
  | succ h ih =>
    rw [copyRows_succ]
    rcases Nat.lt_succ_iff_lt_or_eq.mp hr with hlt | rfl
    · have hapart := row_disjoint (d := d) hdp hlt
      rw [copy_of_not_mem (by omega)]
      exact ih hlt
    · exact copy_of_mem hj

end Mem
