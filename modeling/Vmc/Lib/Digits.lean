import Mathlib.Data.Nat.Digits.Defs
import Mathlib.Data.Nat.Digits.Lemmas
import Mathlib.Tactic

/-!
# Vmc.Lib.Digits

Numbers as ASCII digits: what `printf` writes for `%d` and `%x`, and what
`strtol` makes of it.

A number is printed from its `Nat.digits`, most significant digit first;
`value_print` is the round trip, and the other lemmas say which bytes a printed
number consists of and how many.
-/

namespace Digits

/-- The digit `d`, in lower case. -/
def digitByte (d : Nat) : UInt8 := if d < 10 then UInt8.ofNat (48 + d) else UInt8.ofNat (87 + d)

/-- The value of a hexadecimal digit of either case. -/
def digitValue (c : UInt8) : Option Nat :=
  if 48 ≤ c ∧ c ≤ 57 then some (c.toNat - 48)
  else if 97 ≤ c ∧ c ≤ 102 then some (c.toNat - 87)
  else if 65 ≤ c ∧ c ≤ 70 then some (c.toNat - 55)
  else none

def isHex (c : UInt8) : Bool := (digitValue c).isSome

/-- `n` in base `b`. -/
def print (b n : Nat) : List UInt8 :=
  if n = 0 then [digitByte 0] else (Nat.digits b n).reverse.map digitByte

/-- The number a run of digits stands for. -/
def value (b : Nat) (cs : List UInt8) : Nat :=
  cs.foldl (fun acc c => acc * b + (digitValue c).getD 0) 0

theorem digitValue_digitByte {d : Nat} (h : d < 16) : digitValue (digitByte d) = some d := by
  interval_cases d <;> decide

theorem isHex_digitByte {d : Nat} (h : d < 16) : isHex (digitByte d) = true := by
  rw [isHex, digitValue_digitByte h]
  rfl

theorem lt_of_mem_print {b n : Nat} (hb : 1 < b) {c : UInt8} (hc : c ∈ print b n) :
    ∃ d < b, c = digitByte d := by
  unfold print at hc
  split at hc
  · exact ⟨0, by omega, List.mem_singleton.mp hc⟩
  · obtain ⟨d, hd, rfl⟩ := List.mem_map.mp hc
    exact ⟨d, Nat.digits_lt_base hb (List.mem_reverse.mp hd), rfl⟩

theorem isHex_of_mem_print {b n : Nat} (hb : 1 < b) (hb' : b ≤ 16) {c : UInt8}
    (hc : c ∈ print b n) : isHex c = true := by
  obtain ⟨d, hd, rfl⟩ := lt_of_mem_print hb hc
  exact isHex_digitByte (by omega)

theorem print_ne_nil (b n : Nat) : print b n ≠ [] := by
  unfold print
  split
  · simp
  · rename_i hn
    simpa using Nat.digits_ne_nil_iff_ne_zero.mpr hn

theorem value_map_digitByte (b : Nat) {ds : List Nat} (hds : ∀ d ∈ ds, d < 16) :
    value b ((ds.reverse).map digitByte) = Nat.ofDigits b ds := by
  induction ds with
  | nil => rfl
  | cons d ds ih =>
      have hd : d < 16 := hds d (by simp)
      rw [List.reverse_cons, List.map_append, value, List.foldl_append, ← value,
        ih fun e he => hds e (List.mem_cons_of_mem d he), Nat.ofDigits_cons]
      simp only [List.map_cons, List.map_nil, List.foldl_cons, List.foldl_nil,
        digitValue_digitByte hd, Option.getD_some]
      ring

/-- **Round trip.** -/
theorem value_print {b : Nat} (hb : 1 < b) (hb' : b ≤ 16) (n : Nat) : value b (print b n) = n := by
  unfold print
  split
  · rename_i hn
    rw [hn, value]
    simp [digitValue_digitByte]
  · rw [value_map_digitByte b fun d hd => lt_of_lt_of_le (Nat.digits_lt_base hb hd) hb',
      Nat.ofDigits_digits]

/-- A number below `b ^ k` takes at most `k` digits. -/
theorem length_print_le {b n k : Nat} (hb : 1 < b) (hk : 0 < k) (hn : n < b ^ k) :
    (print b n).length ≤ k := by
  unfold print
  split
  · rw [List.length_singleton]
    exact hk
  · rw [List.length_map, List.length_reverse]
    exact (Nat.digits_length_le_iff hb n).mpr hn

/-- The first `k` digits of a number: its quotient by the weight of the rest. -/
theorem value_take_print {b : Nat} (hb : 1 < b) (hb' : b ≤ 16) (n k : Nat) :
    value b ((print b n).take k) = n / b ^ ((print b n).length - k) := by
  by_cases hn : n = 0
  · subst hn
    rw [Nat.zero_div]
    cases k with
    | zero => rfl
    | succ k => simp [print, value, digitValue_digitByte]
  · have hdigits : ∀ d ∈ Nat.digits b n, d < b := fun d hd => Nat.digits_lt_base hb hd
    rw [print, if_neg hn, ← List.map_take, List.take_reverse, value_map_digitByte, List.length_map,
      List.length_reverse, Nat.self_div_pow_eq_ofDigits_drop _ _ hb]
    intro d hd
    exact lt_of_lt_of_le (hdigits d (List.mem_of_mem_drop hd)) hb'

/-- A number is at least the weight of its first digit. -/
theorem pow_length_print_le {b n : Nat} (hb : 1 < b) (hn : 0 < n) :
    b ^ ((print b n).length - 1) ≤ n := by
  have hne : n ≠ 0 := by omega
  have hlen : (print b n).length = (Nat.digits b n).length := by
    rw [print, if_neg hne, List.length_map, List.length_reverse]
  rw [hlen]
  exact (Nat.lt_digits_length_iff hb n).mp
    (Nat.sub_lt (List.length_pos_iff.mpr (Nat.digits_ne_nil_iff_ne_zero.mpr hne)) (by omega))

theorem lt_pow_length_print {b : Nat} (hb : 1 < b) (n : Nat) : n < b ^ (print b n).length := by
  unfold print
  split
  · rw [List.length_singleton, pow_one]
    omega
  · rw [List.length_map, List.length_reverse]
    exact Nat.lt_base_pow_length_digits hb

/-- Cut short, a positive number stays positive and does not grow. -/
theorem value_take_print_bounds {b n k : Nat} (hb : 1 < b) (hb' : b ≤ 16) (hn : 0 < n)
    (hk : 0 < k) :
    0 < value b ((print b n).take k) ∧ value b ((print b n).take k) ≤ n := by
  rw [value_take_print hb hb']
  refine ⟨Nat.div_pos ?_ (by positivity), Nat.div_le_self _ _⟩
  exact (Nat.pow_le_pow_right (by omega) (by omega)).trans (pow_length_print_le hb hn)

end Digits
