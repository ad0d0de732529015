import Mathlib.Tactic

/-!
# Vmc.Lib.Serial

Wrapping 32-bit sequence numbers.

`cmp a b` is the signed difference programs compare wrapping counters with; on
its own it is not an order.  Measured from a common base it is: `ahead base s`
says how far `s` lies ahead of `base`, and within half the number space the
signed difference of two numbers is the difference of their distances
(`cmp_eq_sub`).  Unwrapped positions come in through `ahead_ofNat`.
-/

namespace Serial

/-- The signed 32-bit difference `(i32)(a - b)`. -/
def cmp (a b : UInt32) : Int := (a - b).toBitVec.toInt

/-- How far `s` lies ahead of `base`, going round once at most. -/
def ahead (base s : UInt32) : Nat := (s - base).toNat

theorem ahead_lt (base s : UInt32) : ahead base s < 2 ^ 32 := (s - base).toNat_lt

@[simp] theorem ahead_self (base : UInt32) : ahead base base = 0 := by simp [ahead]

theorem ahead_eq (base s : UInt32) :
    ahead base s = (2 ^ 32 - base.toNat + s.toNat) % 2 ^ 32 := UInt32.toNat_sub s base

/-- Two numbers equally far ahead of a base are the same number. -/
theorem ahead_injective (base : UInt32) : Function.Injective (ahead base) := by
  intro a b h
  have ha := a.toNat_lt
  have hb := b.toNat_lt
  have hbase := base.toNat_lt
  rw [ahead_eq, ahead_eq] at h
  apply UInt32.toNat_inj.mp
  omega

theorem cmp_eq_bmod (a b : UInt32) : cmp a b = ((ahead b a : Nat) : Int).bmod (2 ^ 32) := by
  rw [cmp, BitVec.toInt_eq_toNat_bmod]
  rfl

/-- The signed difference from a base within half the number space. -/
theorem cmp_base {base s : UInt32} (h : ahead base s < 2 ^ 31) : cmp s base = ahead base s := by
  rw [cmp_eq_bmod, Int.bmod_eq_of_le] <;> omega

/-- The signed difference to a number behind the base. -/
theorem cmp_base_neg {base s : UInt32} (h : 2 ^ 31 ≤ ahead base s) :
    cmp s base = (ahead base s : Int) - 2 ^ 32 := by
  have hlt := ahead_lt base s
  rw [cmp_eq_bmod, Int.bmod_def]
  rw [if_neg (by omega)]
  omega

/-- **Within half the number space the signed difference is a difference of
distances**, so comparing by it is comparing distances. -/
theorem cmp_eq_sub {base a b : UInt32} (ha : ahead base a < 2 ^ 31) (hb : ahead base b < 2 ^ 31) :
    cmp a b = (ahead base a : Int) - ahead base b := by
  have hra := a.toNat_lt
  have hrb := b.toNat_lt
  have hbase := base.toNat_lt
  have hab : (ahead b a : Int) = ((ahead base a : Int) - ahead base b) % (2 ^ 32 : Nat) := by
    simp only [ahead_eq] at *
    omega
  rw [cmp_eq_bmod, hab, Int.emod_bmod, Int.bmod_eq_of_le] <;> omega

theorem cmp_neg_iff {base a b : UInt32} (ha : ahead base a < 2 ^ 31) (hb : ahead base b < 2 ^ 31) :
    cmp a b < 0 ↔ ahead base a < ahead base b := by
  rw [cmp_eq_sub ha hb]
  omega

/-- The same with the second number half the number space away. -/
theorem cmp_neg_iff_of_le {base a b : UInt32} (ha : ahead base a < 2 ^ 31)
    (hb : ahead base b ≤ 2 ^ 31) : cmp a b < 0 ↔ ahead base a < ahead base b := by
  by_cases hlt : ahead base b < 2 ^ 31
  · exact cmp_neg_iff ha hlt
  · have hahead : ahead b a = ahead base a + 2 ^ 32 - ahead base b := by
      have hra := a.toNat_lt
      have hrb := b.toNat_lt
      have hbase := base.toNat_lt
      simp only [ahead_eq] at *
      omega
    rw [cmp_base_neg (by omega)]
    omega

theorem cmp_eq_zero_iff {a b : UInt32} : cmp a b = 0 ↔ a = b := by
  constructor
  · intro h
    have hlt := ahead_lt b a
    have hzero : ahead b a = ahead b b := by
      rw [ahead_self]
      by_cases hhalf : ahead b a < 2 ^ 31
      · rw [cmp_base hhalf] at h
        omega
      · rw [cmp_base_neg (by omega)] at h
        omega
    exact ahead_injective b hzero
  · rintro rfl
    rw [cmp_base (by simp)]
    simp

/-- A number that compares at or ahead of the base is as far ahead as the
comparison says. -/
theorem ahead_of_cmp {base s : UInt32} (h : 0 ≤ cmp s base) : (ahead base s : Int) = cmp s base := by
  have hlt := ahead_lt base s
  by_cases hhalf : ahead base s < 2 ^ 31
  · rw [cmp_base hhalf]
  · rw [cmp_base_neg (by omega)] at h
    omega

/-- Distances seen from a number further on. -/
theorem ahead_sub {base m s : UInt32} (h : ahead base m ≤ ahead base s) :
    ahead m s = ahead base s - ahead base m := by
  have hm := m.toNat_lt
  have hs := s.toNat_lt
  have hb := base.toNat_lt
  simp only [ahead_eq] at *
  omega

theorem eq_add_ahead (base s : UInt32) : s = base + UInt32.ofNat (ahead base s) := by
  rw [ahead, UInt32.ofNat_toNat, UInt32.add_comm, UInt32.sub_add_cancel]

/-! ## unwrapped positions -/

/-- Distances between unwrapped positions are recovered from the wrapped
numbers as long as they are less than one turn apart. -/
theorem ahead_ofNat {n k : Nat} (h : n ≤ k) (hlt : k < n + 2 ^ 32) :
    ahead (UInt32.ofNat n) (UInt32.ofNat k) = k - n := by
  rw [ahead_eq, UInt32.toNat_ofNat', UInt32.toNat_ofNat']
  omega

/-- A position behind the base shows up one turn ahead. -/
theorem ahead_ofNat_behind {n k : Nat} (h : k < n) (hlt : n ≤ k + 2 ^ 32) :
    ahead (UInt32.ofNat n) (UInt32.ofNat k) = k + 2 ^ 32 - n := by
  rw [ahead_eq, UInt32.toNat_ofNat', UInt32.toNat_ofNat']
  omega

/-- Distances do not depend on where the count starts. -/
theorem ahead_add_left (b n k : UInt32) : ahead (b + n) (b + k) = ahead n k := by
  have hb := b.toNat_lt
  have hn := n.toNat_lt
  have hk := k.toNat_lt
  rw [ahead_eq, ahead_eq, UInt32.toNat_add, UInt32.toNat_add]
  omega

/-- Moving on from a number, short of a full turn. -/
theorem ahead_add_of_lt {base s : UInt32} {k : Nat} (h : ahead base s + k < 2 ^ 32) :
    ahead base (s + UInt32.ofNat k) = ahead base s + k := by
  have hs := s.toNat_lt
  have hb := base.toNat_lt
  simp only [ahead_eq, UInt32.toNat_add, UInt32.toNat_ofNat'] at *
  omega

theorem ahead_add_one (b : UInt32) : ahead b (b + 1) = 1 := by
  have h := ahead_add_left b 0 1
  rwa [UInt32.add_zero] at h

theorem ofNat_add_one (n : Nat) : UInt32.ofNat n + 1 = UInt32.ofNat (n + 1) := by
  rw [UInt32.ofNat_add]
  rfl

end Serial
