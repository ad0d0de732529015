import Mathlib.Data.List.Perm.Basic
import Mathlib.Tactic

/-!
# Vmc.Lib.Pool

Fixed pools of slots, kept as a list in which some entries are in use.

A pool is searched from its low end (`List.findIdx?`) and changed one entry at
a time (`List.set`).  What it holds is the sublist of entries in use,
`l.filter p`; the lemmas here say how one update changes that: filling a free
entry adds the new one, freeing an entry takes it out, both up to order.  Used
as a queue, the pool is read in index order: an entry filled behind all others
in use joins at the end, and the one a search finds is at the front.
-/

namespace Pool

variable {α : Type*} {p : α → Bool} {l : List α}

/-- The entry a search found, and that it matches. -/
theorem exists_of_findIdx? (h : l.findIdx? p = some i) : ∃ a, l[i]? = some a ∧ p a = true := by
  obtain ⟨hi, hp, -⟩ := List.findIdx?_eq_some_iff_getElem.mp h
  exact ⟨l[i], List.getElem?_eq_getElem hi, hp⟩

/-- A search that finds nothing has seen every entry. -/
theorem forall_of_findIdx?_eq_none (h : l.findIdx? p = none) : ∀ a ∈ l, p a = false :=
  List.findIdx?_eq_none_iff.mp h

/-- Filling an entry that was not in use adds the new one. -/
theorem filter_set_fill {a b : α} (h : l[i]? = some a) (ha : p a = false) (hb : p b = true) :
    ((l.set i b).filter p).Perm (b :: l.filter p) := by
  induction l generalizing i with
  | nil => simp at h
  | cons x l ih =>
      cases i with
      | zero =>
          obtain rfl : x = a := by simpa using h
          simp [ha, hb]
      | succ i =>
          have hih := ih (by simpa using h)
          rw [List.set_cons_succ, List.filter_cons, List.filter_cons]
          by_cases hx : p x = true
          · rw [if_pos hx, if_pos hx]
            exact (hih.cons x).trans (List.Perm.swap b x _)
          · rw [if_neg hx, if_neg hx]
            exact hih

/-- Taking an entry out of use removes it. -/
theorem filter_set_free {a b : α} (h : l[i]? = some a) (ha : p a = true) (hb : p b = false) :
    (l.filter p).Perm (a :: (l.set i b).filter p) := by
  -- filling the entry again gives the list back
  obtain ⟨hi, rfl⟩ := List.getElem?_eq_some_iff.mp h
  have hset : (l.set i b)[i]? = some b := by rw [List.getElem?_set_self hi]
  have hback := filter_set_fill hset hb ha
  rwa [List.set_set, List.set_getElem_self] at hback

/-- A sweep that leaves each entry alone or takes it out of use only removes
entries. -/
theorem filter_map_sublist {f : α → α} (h : ∀ a, f a = a ∨ p (f a) = false) :
    ((l.map f).filter p).Sublist (l.filter p) := by
  induction l with
  | nil => simp
  | cons x l ih =>
      rw [List.map_cons, List.filter_cons, List.filter_cons]
      obtain hx | hx := h x
      · rw [hx]
        split
        · exact ih.cons_cons x
        · exact ih
      · rw [if_neg (by simp [hx])]
        split
        · exact ih.cons x
        · exact ih

/-- Such a sweep removes as many entries as go out of use. -/
theorem length_filter_map {f : α → α} (h : ∀ a, f a = a ∨ p (f a) = false) :
    ((l.map f).filter p).length + (List.zipWith (fun a b => p a && !p b) l (l.map f)).count true =
      (l.filter p).length := by
  induction l with
  | nil => simp
  | cons x l ih =>
      rw [List.map_cons, List.zipWith_cons_cons, List.filter_cons, List.filter_cons,
        List.count_cons]
      obtain hx | hx := h x
      · rw [hx]
        cases hp : p x <;> simp <;> omega
      · rw [hx]
        cases hp : p x <;> simp <;> omega

/-- If fewer entries are in use than there are, a free one is found. -/
theorem exists_free (h : (l.filter p).length < l.length) :
    ∃ i a, l.findIdx? (fun x => !p x) = some i ∧ l[i]? = some a ∧ p a = false := by
  cases hf : l.findIdx? (fun x => !p x) with
  | none =>
      have hall := forall_of_findIdx?_eq_none hf
      have heq : l.filter p = l := List.filter_eq_self.mpr fun a ha => by simpa using hall a ha
      rw [heq] at h
      omega
  | some i =>
      obtain ⟨a, ha, hp⟩ := exists_of_findIdx? hf
      exact ⟨i, a, rfl, ha, by simpa using hp⟩

/-! ## what the entries hold -/

/-- What a pool holds, `l.filterMap g`, changes by what the one entry did. -/
theorem filterMap_modify {β : Type*} {a : α} (h : l[i]? = some a) (f : α → α) (g : α → Option β) :
    ((l.modify i f).filterMap g ++ (g a).toList).Perm (l.filterMap g ++ (g (f a)).toList) := by
  induction l generalizing i with
  | nil => simp at h
  | cons x l ih =>
      cases i with
      | zero =>
          obtain rfl : x = a := by simpa using h
          have hcons : ∀ y, (y :: l).filterMap g = (g y).toList ++ l.filterMap g := by
            intro y
            cases hy : g y <;> simp [hy]
          rw [List.modify_zero_cons, hcons, hcons]
          exact (List.perm_append_comm.trans (List.perm_append_comm.append_left _)).trans
            (List.append_assoc _ _ _ ▸ List.Perm.refl _)
      | succ i =>
          have hih := ih (by simpa using h)
          rw [List.modify_succ_cons]
          cases hx : g x with
          | none => simpa [List.filterMap_cons, hx] using hih
          | some y => simpa [List.filterMap_cons, hx] using hih

theorem filterMap_set {β : Type*} {a : α} (h : l[i]? = some a) (b : α) (g : α → Option β) :
    ((l.set i b).filterMap g ++ (g a).toList).Perm (l.filterMap g ++ (g b).toList) := by
  rw [List.set_eq_modify]
  exact filterMap_modify h (fun _ => b) g

/-- Entries come and go unnoticed if they hold the same. -/
theorem filterMap_modify_same {β : Type*} {f : α → α} {g : α → Option β} (h : ∀ a, g (f a) = g a)
    (i : Nat) : (l.modify i f).filterMap g = l.filterMap g := by
  induction l generalizing i with
  | nil => simp
  | cons x l ih =>
      cases i with
      | zero => rw [List.modify_zero_cons, List.filterMap_cons, List.filterMap_cons, h]
      | succ i => rw [List.modify_succ_cons, List.filterMap_cons, List.filterMap_cons, ih]

/-! ## in index order -/

theorem set_eq_append {a : α} (h : l[i]? = some a) (b : α) :
    l.set i b = l.take i ++ b :: l.drop (i + 1) := by
  have hi := (List.getElem?_eq_some_iff.mp h).1
  rw [List.set_eq_take_append_cons_drop, if_pos hi]

theorem eq_append {a : α} (h : l[i]? = some a) : l = l.take i ++ a :: l.drop (i + 1) := by
  obtain ⟨hi, rfl⟩ := List.getElem?_eq_some_iff.mp h
  rw [← List.drop_eq_getElem_cons hi, List.take_append_drop]

/-- Filling an entry behind all that are in use appends. -/
theorem filter_set_last {a b : α} (h : l[i]? = some a) (ha : p a = false) (hb : p b = true)
    (hlast : ∀ x ∈ l.drop (i + 1), p x = false) :
    (l.set i b).filter p = l.filter p ++ [b] := by
  have hnil : (l.drop (i + 1)).filter p = [] :=
    List.filter_eq_nil_iff.mpr fun x hx => by simp [hlast x hx]
  conv_rhs => rw [eq_append h]
  rw [set_eq_append h, List.filter_append, List.filter_append, List.filter_cons_of_pos hb,
    List.filter_cons_of_neg (by simp [ha]), hnil]
  simp

/-- The entry a search finds is the first in use; taking it out of use removes
it from the front. -/
theorem filter_set_first {a b : α} (h : l.findIdx? p = some i) (hi : l[i]? = some a)
    (hb : p b = false) : l.filter p = a :: (l.set i b).filter p := by
  obtain ⟨hlt, hp, hfirst⟩ := List.findIdx?_eq_some_iff_getElem.mp h
  obtain rfl : l[i] = a := (List.getElem?_eq_some_iff.mp hi).2
  have hnil : (l.take i).filter p = [] := by
    refine List.filter_eq_nil_iff.mpr fun x hx => ?_
    obtain ⟨j, hj, rfl⟩ := List.mem_iff_getElem.mp hx
    rw [List.length_take] at hj
    rw [List.getElem_take]
    exact hfirst j (by omega)
  conv_lhs => rw [eq_append hi]
  rw [set_eq_append hi, List.filter_append, List.filter_append, List.filter_cons_of_pos hp,
    List.filter_cons_of_neg (by simp [hb]), hnil]
  simp

/-- Entries not in use come and go unnoticed. -/
theorem filter_set_unused {a b : α} (h : l[i]? = some a) (ha : p a = false) (hb : p b = false) :
    (l.set i b).filter p = l.filter p := by
  conv_rhs => rw [eq_append h]
  rw [set_eq_append h, List.filter_append, List.filter_append,
    List.filter_cons_of_neg (by simp [hb]), List.filter_cons_of_neg (by simp [ha])]

end Pool
