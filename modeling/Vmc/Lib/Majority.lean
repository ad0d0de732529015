import Mathlib.Data.Nat.Choose.Basic
import Mathlib.Tactic

/-!
# Vmc.Lib.Majority

Order statistics that a majority decides: a position of a sorted list holds the
value `b` once fewer entries than `b` has copies lie on either side of it.  The
pairs of a list, each taken once, are counted by binomial coefficients.
-/

namespace Majority

/-! ## sorted lists -/

section

variable {α : Type*} [LinearOrder α]

/-- Below a position that holds more than `b` there is room for the copies of
`b` only before it. -/
theorem count_le_of_lt_getElem {s : List α} (hs : s.Pairwise (· ≤ ·)) {b : α} {i : Nat}
    (hi : i < s.length) (h : b < s[i]) : s.count b ≤ i := by
  have hdrop : (s.drop i).count b = 0 := by
    refine List.count_eq_zero.mpr fun hb => ?_
    rw [List.drop_eq_getElem_cons hi, List.mem_cons] at hb
    rcases hb with hb | hb
    · exact absurd hb h.ne
    · have htail := hs.sublist (List.drop_sublist i s)
      rw [List.drop_eq_getElem_cons hi] at htail
      exact absurd (List.rel_of_pairwise_cons htail hb) (not_le.mpr h)
  have hsplit : s.count b = (s.take i).count b + 0 := by
    rw [← hdrop, ← List.count_append, List.take_append_drop]
  have htake := (List.count_le_length (a := b) (l := s.take i)).trans (List.length_take_le i s)
  omega

/-- Above a position that holds less than `b` there is room for the copies of
`b` only behind it. -/
theorem count_le_of_getElem_lt {s : List α} (hs : s.Pairwise (· ≤ ·)) {b : α} {i : Nat}
    (hi : i < s.length) (h : s[i] < b) : s.count b ≤ s.length - (i + 1) := by
  have htake : (s.take (i + 1)).count b = 0 := by
    refine List.count_eq_zero.mpr fun hb => ?_
    obtain ⟨j, hj, hjb⟩ := List.mem_iff_getElem.mp hb
    rw [List.getElem_take] at hjb
    rw [List.length_take] at hj
    have hjs : j < s.length := by omega
    have hle : s[j] ≤ s[i] := by
      rcases Nat.lt_or_ge j i with hlt | hge
      · exact List.pairwise_iff_getElem.mp hs j i hjs hi hlt
      · obtain rfl : j = i := by omega
        exact le_rfl
    rw [hjb] at hle
    exact absurd hle (not_le.mpr h)
  have hsplit : s.count b = 0 + (s.drop (i + 1)).count b := by
    rw [← htake, ← List.count_append, List.take_append_drop]
  have hdrop := List.count_le_length (a := b) (l := s.drop (i + 1))
  rw [List.length_drop] at hdrop
  omega

/-- A position of a sorted list holds `b` if neither side of it has room for
all the copies of `b`. -/
theorem getElem_eq_of_count {s : List α} (hs : s.Pairwise (· ≤ ·)) {b : α} {i : Nat}
    (hi : i < s.length) (hbefore : i < s.count b) (hbehind : s.length - (i + 1) < s.count b) :
    s[i] = b := by
  rcases lt_trichotomy s[i] b with hlt | heq | hgt
  · exact absurd (count_le_of_getElem_lt hs hi hlt) (by omega)
  · exact heq
  · exact absurd (count_le_of_lt_getElem hs hi hgt) (by omega)

end

/-! ## pairs -/

section

variable {α : Type*}

/-- The pairs of a list, each entry with every later one. -/
def pairs : List α → List (α × α)
  | [] => []
  | a :: l => l.map (fun b => (a, b)) ++ pairs l

theorem choose_two_succ (n : Nat) : (n + 1).choose 2 = n + n.choose 2 := by
  rw [Nat.choose_succ_succ' n 1, Nat.choose_one_right]

theorem length_pairs (l : List α) : (pairs l).length = l.length.choose 2 := by
  induction l with
  | nil => rfl
  | cons a l ih =>
    rw [pairs, List.length_append, List.length_map, ih, List.length_cons, choose_two_succ]

/-- The pairs of entries that both satisfy `q` are the pairs of those that do. -/
theorem countP_pairs (q : α → Bool) (l : List α) :
    (pairs l).countP (fun p => q p.1 && q p.2) = (l.countP q).choose 2 := by
  induction l with
  | nil => rfl
  | cons a l ih =>
    rw [pairs, List.countP_append, List.countP_map, ih]
    cases ha : q a with
    | false =>
      have hnone : l.countP ((fun p : α × α => q p.1 && q p.2) ∘ fun b => (a, b)) = 0 := by
        refine List.countP_eq_zero.mpr fun b _ => ?_
        simp [ha]
      rw [hnone, List.countP_cons_of_neg (by simp [ha]), Nat.zero_add]
    | true =>
      have hall : l.countP ((fun p : α × α => q p.1 && q p.2) ∘ fun b => (a, b)) = l.countP q := by
        congr 1
        funext b
        simp [ha]
      rw [hall, List.countP_cons_of_pos ha, choose_two_succ]

theorem of_mem_pairs {r : α → α → Prop} {l : List α} (h : l.Pairwise r) {p : α × α}
    (hp : p ∈ pairs l) : p.1 ∈ l ∧ p.2 ∈ l ∧ r p.1 p.2 := by
  induction l with
  | nil => cases hp
  | cons a l ih =>
    rw [List.pairwise_cons] at h
    rw [pairs, List.mem_append, List.mem_map] at hp
    rcases hp with ⟨b, hb, rfl⟩ | hp
    · exact ⟨List.mem_cons_self .., List.mem_cons_of_mem a hb, h.1 b hb⟩
    · obtain ⟨h1, h2, hr⟩ := ih h.2 hp
      exact ⟨List.mem_cons_of_mem a h1, List.mem_cons_of_mem a h2, hr⟩

/-- The double loop over `i < j` goes through the pairs of the indices. -/
theorem flatMap_range'_eq_pairs (k n : Nat) :
    ((List.range' k n).flatMap fun i =>
      (List.range' (i + 1) (k + n - (i + 1))).map fun j => (i, j)) = pairs (List.range' k n) := by
  induction n generalizing k with
  | zero => rfl
  | succ n ih =>
    have hrest : k + (n + 1) - (k + 1) = n := by omega
    have hcongr : ∀ i, k + (n + 1) - (i + 1) = k + 1 + n - (i + 1) := by omega
    rw [List.range'_succ, pairs, List.flatMap_cons, hrest]
    simp only [hcongr]
    rw [ih (k + 1)]

end

end Majority
