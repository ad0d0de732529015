import Vmc.Lib.Bytes

/-!
# Vmc.Lib.Replace

Searching a text and replacing in it: `locate` finds the first occurrence of a
pattern, `replaceAll` puts `new` for every `old`, left to right and without looking
at what it has put in.

Two words are apart if no occurrence of one can share a place with an occurrence
of the other, whatever the text; that is a finite check (`Apart`).  A pattern
apart from `old` and from `new` is found in the replaced text where it was found
before (`locate_replace`), so replacing does not disturb a reader that looks for
such patterns.
-/

namespace Replace

variable {α : Type*} [DecidableEq α]

/-! ## the two operations -/

/-- The text from the first occurrence of `pat` on. -/
def locate (pat : List α) : List α → Option (List α)
  | [] => if pat = [] then some [] else none
  | c :: cs => if pat.isPrefixOf (c :: cs) then some (c :: cs) else locate pat cs

/-- Replace behind the next `skip` elements, which belong to an `old` that has
been replaced. -/
def replaceFrom (old new : List α) : Nat → List α → List α
  | _, [] => []
  | skip + 1, _ :: cs => replaceFrom old new skip cs
  | 0, c :: cs =>
      if old.isPrefixOf (c :: cs) then new ++ replaceFrom old new (old.length - 1) cs
      else c :: replaceFrom old new 0 cs

/-- `new` for every `old`. -/
def replaceAll (old new s : List α) : List α := replaceFrom old new 0 s

section

variable {old new : List α}

@[simp] theorem replace_nil : replaceAll old new [] = [] := rfl

theorem replace_keep {c : α} {cs : List α} (h : ¬ old <+: c :: cs) :
    replaceAll old new (c :: cs) = c :: replaceAll old new cs :=
  if_neg fun hpre => h (List.isPrefixOf_iff_prefix.mp hpre)

theorem replaceFrom_skip (w s : List α) :
    replaceFrom old new w.length (w ++ s) = replaceAll old new s := by
  induction w with
  | nil => rfl
  | cons c w ih => exact ih

theorem replace_hit (hold : old ≠ []) (s : List α) :
    replaceAll old new (old ++ s) = new ++ replaceAll old new s := by
  obtain ⟨a, w, rfl⟩ := List.exists_cons_of_ne_nil hold
  have hpre : (a :: w).isPrefixOf (a :: (w ++ s)) = true :=
    List.isPrefixOf_iff_prefix.mpr (List.prefix_append (a :: w) s)
  rw [List.cons_append, replaceAll, replaceFrom, if_pos hpre, List.length_cons, Nat.add_sub_cancel,
    replaceFrom_skip]

/-- The induction a replacement goes by: an element that is kept, or an
occurrence that is replaced. -/
theorem replace_induction (hold : old ≠ []) {P : List α → Prop} (nil : P [])
    (keep : ∀ c cs, ¬ old <+: c :: cs → P cs → P (c :: cs))
    (hit : ∀ s, P s → P (old ++ s)) (s : List α) : P s := by
  induction hn : s.length using Nat.strong_induction_on generalizing s with
  | _ n ih =>
      by_cases hpre : old <+: s
      · obtain ⟨t, rfl⟩ := hpre
        have hpos : 0 < old.length := List.length_pos_iff.mpr hold
        rw [List.length_append] at hn
        exact hit t (ih t.length (by omega) t rfl)
      · cases s with
        | nil => exact nil
        | cons c cs =>
            rw [List.length_cons] at hn
            exact keep c cs hpre (ih cs.length (by omega) cs rfl)

end

/-! ## words that cannot overlap -/

/-- Two words agree as far as both go. -/
def Meets (u v : List α) : Prop := u <+: v ∨ v <+: u

instance (u v : List α) : Decidable (Meets u v) := inferInstanceAs (Decidable (_ ∨ _))

/-- No occurrence of `w` begins inside an occurrence of `q`. -/
def Clear (q w : List α) : Prop := ∀ u ∈ q.tails, u ≠ [] → ¬ Meets u w

instance (q w : List α) : Decidable (Clear q w) :=
  inferInstanceAs (Decidable (∀ u ∈ q.tails, _))

/-- No occurrence of one shares a place with an occurrence of the other. -/
def Apart (p w : List α) : Prop := Clear p w ∧ Clear w p

instance (p w : List α) : Decidable (Apart p w) := inferInstanceAs (Decidable (_ ∧ _))

omit [DecidableEq α] in
theorem meets_at_front {u v s : List α} (hu : u <+: s) (hv : v <+: s) : Meets u v :=
  List.prefix_or_prefix_of_prefix hu hv

omit [DecidableEq α] in
theorem Clear.tail {c : α} {q w : List α} (h : Clear (c :: q) w) : Clear q w := by
  intro u hu
  refine h u ?_
  rw [List.mem_tails] at hu ⊢
  exact hu.trans (List.suffix_cons c q)

omit [DecidableEq α] in
theorem Clear.not_at_front {q w s : List α} (h : Clear q w) (hq : q ≠ []) (hw : w <+: s) :
    ¬ q <+: s := fun hpre =>
  h q ((List.mem_tails _ _).mpr (List.suffix_refl q)) hq (meets_at_front hpre hw)

section

variable {old new : List α}

/-- A word clear of `old` is left alone at the front of the text. -/
theorem replace_append {q : List α} (h : Clear q old) (s : List α) :
    replaceAll old new (q ++ s) = q ++ replaceAll old new s := by
  induction q with
  | nil => rfl
  | cons c q ih =>
      have hnot : ¬ old <+: c :: (q ++ s) := fun hpre =>
        h.not_at_front (List.cons_ne_nil c q) hpre (List.prefix_append (c :: q) s)
      rw [List.cons_append, replace_keep hnot, ih h.tail, List.cons_append]

/-- What stands at the front of the replaced text and is clear of `new` stood
there before. -/
theorem prefix_of_prefix_replace (hold : old ≠ []) {q s : List α} (h : Clear q new)
    (hpre : q <+: replaceAll old new s) : q <+: s := by
  induction s using replace_induction hold generalizing q with
  | nil => exact hpre
  | keep c cs hnot ih =>
      rw [replace_keep hnot] at hpre
      cases q with
      | nil => exact List.nil_prefix
      | cons a q =>
          obtain ⟨rfl, hq⟩ := List.cons_prefix_cons.mp hpre
          exact List.cons_prefix_cons.mpr ⟨rfl, ih h.tail hq⟩
  | hit s ih =>
      rw [replace_hit hold] at hpre
      by_cases hq : q = []
      · rw [hq]
        exact List.nil_prefix
      · exact absurd hpre (h.not_at_front hq (List.prefix_append new _))

theorem prefix_replace_iff (hold : old ≠ []) {q s : List α} (ho : Clear q old) (hn : Clear q new) :
    q <+: replaceAll old new s ↔ q <+: s := by
  refine ⟨prefix_of_prefix_replace hold hn, ?_⟩
  rintro ⟨t, rfl⟩
  rw [replace_append ho]
  exact List.prefix_append q _

/-- A search passes over a word clear of the pattern. -/
theorem locate_append {w pat : List α} (h : Clear w pat) (s : List α) :
    locate pat (w ++ s) = locate pat s := by
  induction w with
  | nil => rfl
  | cons c w ih =>
      rw [List.cons_append, locate, if_neg, ih h.tail]
      intro hpre
      exact h.not_at_front (List.cons_ne_nil c w) (List.isPrefixOf_iff_prefix.mp hpre)
        (List.prefix_append (c :: w) s)

/-- **Replacing does not disturb a search** for a pattern apart from both words. -/
theorem locate_replace (hold : old ≠ []) {pat : List α} (ho : Apart pat old) (hn : Apart pat new)
    (s : List α) : locate pat (replaceAll old new s) = (locate pat s).map (replaceAll old new) := by
  induction s using replace_induction hold with
  | nil =>
      rw [replace_nil, locate]
      split <;> rfl
  | keep c cs hnot ih =>
      have hiff := prefix_replace_iff (s := c :: cs) hold ho.1 hn.1
      rw [replace_keep hnot] at hiff
      rw [replace_keep hnot, locate, locate]
      by_cases hpre : pat <+: c :: cs
      · rw [if_pos (List.isPrefixOf_iff_prefix.mpr (hiff.mpr hpre)),
          if_pos (List.isPrefixOf_iff_prefix.mpr hpre), Option.map_some, replace_keep hnot]
      · rw [if_neg fun h => hpre (hiff.mp (List.isPrefixOf_iff_prefix.mp h)),
          if_neg fun h => hpre (List.isPrefixOf_iff_prefix.mp h), ih]
  | hit s ih => rw [replace_hit hold, locate_append hn.2, locate_append ho.2, ih]

/-! ## what is found afterwards -/

theorem locate_isSome_iff (pat s : List α) : (locate pat s).isSome = true ↔ pat <:+: s := by
  induction s with
  | nil =>
      rw [locate, List.infix_nil]
      split <;> simp_all
  | cons c cs ih =>
      rw [locate, List.infix_cons_iff]
      by_cases hpre : pat <+: c :: cs
      · rw [if_pos (List.isPrefixOf_iff_prefix.mpr hpre)]
        exact iff_of_true rfl (.inl hpre)
      · rw [if_neg fun h => hpre (List.isPrefixOf_iff_prefix.mp h), ih]
        exact ⟨.inr, fun h => h.resolve_left hpre⟩

theorem replace_of_absent {s : List α} (hold : old ≠ []) (h : ¬ old <:+: s) :
    replaceAll old new s = s := by
  induction s using replace_induction hold with
  | nil => rfl
  | keep c cs hnot ih =>
      rw [replace_keep hnot, ih fun hin => h (List.infix_cons_iff.mpr (.inr hin))]
  | hit s ih => exact absurd (List.prefix_append old s).isInfix h

theorem infix_replace_hit {s : List α} (hold : old ≠ []) (h : old <:+: s) :
    new <:+: replaceAll old new s := by
  induction s using replace_induction hold with
  | nil => exact absurd (List.infix_nil.mp h) hold
  | keep c cs hnot ih =>
      rw [replace_keep hnot]
      exact List.infix_cons_iff.mpr (.inr (ih ((List.infix_cons_iff.mp h).resolve_left hnot)))
  | hit s ih =>
      rw [replace_hit hold]
      exact (List.prefix_append new _).isInfix

/-- The new word is in the replaced text if one of the two was in the text. -/
theorem infix_replace_iff {s : List α} (hold : old ≠ []) :
    new <:+: replaceAll old new s ↔ new <:+: s ∨ old <:+: s := by
  by_cases h : old <:+: s
  · exact iff_of_true (infix_replace_hit hold h) (.inr h)
  · rw [replace_of_absent hold h]
    exact ⟨.inl, fun hor => hor.resolve_right h⟩

/-- No `old` is left, and none arises. -/
theorem not_infix_replace (hold : old ≠ []) (h : Apart old new) (s : List α) :
    ¬ old <:+: replaceAll old new s := by
  induction s using replace_induction hold with
  | nil => exact fun hin => hold (List.infix_nil.mp hin)
  | keep c cs hnot ih =>
      intro hin
      rw [replace_keep hnot] at hin
      obtain hpre | hin := List.infix_cons_iff.mp hin
      · rw [← replace_keep hnot] at hpre
        exact hnot (prefix_of_prefix_replace hold h.1 hpre)
      · exact ih hin
  | hit s ih =>
      rw [replace_hit hold, ← locate_isSome_iff, locate_append h.2, locate_isSome_iff]
      exact ih

/-! ## readers that go on behind a pattern -/

theorem replace_eq_nil_iff (hold : old ≠ []) (hnew : new ≠ []) (s : List α) :
    replaceAll old new s = [] ↔ s = [] := by
  induction s using replace_induction hold with
  | nil => exact Iff.rfl
  | keep c cs hnot ih =>
      rw [replace_keep hnot]
      exact iff_of_false (List.cons_ne_nil _ _) (List.cons_ne_nil _ _)
  | hit s ih =>
      rw [replace_hit hold]
      exact iff_of_false (fun h => hnew (List.append_eq_nil_iff.mp h).1)
        fun h => hold (List.append_eq_nil_iff.mp h).1

theorem length_replace_le (hold : old ≠ []) (h : new.length ≤ old.length) (s : List α) :
    (replaceAll old new s).length ≤ s.length := by
  induction s using replace_induction hold with
  | nil => exact Nat.le_refl _
  | keep c cs hnot ih =>
      rw [replace_keep hnot, List.length_cons, List.length_cons]
      omega
  | hit s ih =>
      rw [replace_hit hold, List.length_append, List.length_append]
      omega

theorem head?_replace (hold : old ≠ []) (h : old.head? = new.head?) (s : List α) :
    (replaceAll old new s).head? = s.head? := by
  induction s using replace_induction hold with
  | nil => rfl
  | keep c cs hnot ih => rw [replace_keep hnot, List.head?_cons, List.head?_cons]
  | hit s ih => rw [replace_hit hold, List.head?_append, List.head?_append, ih, h]

theorem mem_replace_iff (hold : old ≠ []) {c : α} (h : c ∈ old ↔ c ∈ new) (s : List α) :
    c ∈ replaceAll old new s ↔ c ∈ s := by
  induction s using replace_induction hold with
  | nil => exact Iff.rfl
  | keep a cs hnot ih => rw [replace_keep hnot, List.mem_cons, List.mem_cons, ih]
  | hit s ih => rw [replace_hit hold, List.mem_append, List.mem_append, ih, h]

/-- A run that ends in both words, after the same elements, ends where it did. -/
theorem takeWhile_replace (hold : old ≠ []) {p : α → Bool} (ho : old.dropWhile p ≠ [])
    (hn : new.dropWhile p ≠ []) (h : old.takeWhile p = new.takeWhile p) (s : List α) :
    (replaceAll old new s).takeWhile p = s.takeWhile p := by
  induction s using replace_induction hold with
  | nil => rfl
  | keep c cs hnot ih => rw [replace_keep hnot, List.takeWhile_cons, List.takeWhile_cons, ih]
  | hit s ih =>
      rw [replace_hit hold, Bytes.takeWhile_append_of_ne hn, Bytes.takeWhile_append_of_ne ho, h]

/-- Skipping stops at both words, or passes over both. -/
theorem dropWhile_replace (hold : old ≠ []) {p : α → Bool}
    (h : (∀ t, (old ++ t).dropWhile p = old ++ t ∧ (new ++ t).dropWhile p = new ++ t) ∨
      ∀ t, (old ++ t).dropWhile p = t.dropWhile p ∧ (new ++ t).dropWhile p = t.dropWhile p)
    (s : List α) :
    (replaceAll old new s).dropWhile p = replaceAll old new (s.dropWhile p) := by
  induction s using replace_induction hold with
  | nil => rfl
  | keep c cs hnot ih =>
      rw [replace_keep hnot, List.dropWhile_cons, List.dropWhile_cons]
      split
      · exact ih
      · exact (replace_keep hnot).symm
  | hit s ih =>
      rw [replace_hit hold]
      obtain h | h := h
      · rw [(h s).1, (h _).2, replace_hit hold]
      · rw [(h s).1, (h _).2, ih]

end

end Replace
