import Mathlib.Tactic

/-!
# Vmc.Lib.Epoch

Traces that are cut into epochs by marked events, and numbers that must
increase within each epoch.

`Increasing` is the promise about a whole trace.  `Upto` strengthens it to an
invariant: it also bounds the numbers of the epoch still open, which is what
the next number has to be compared with.  The rules below say how `Upto`
changes with one more event.
-/

namespace Epoch

variable {ε α : Type*} [Preorder α] (mark : ε → Prop) (val : ε → Option α)

/-- In every stretch of the trace without a mark the numbers strictly
increase. -/
def Increasing (t : List ε) : Prop :=
  ∀ pre mid post, t = pre ++ mid ++ post → (∀ e ∈ mid, ¬ mark e) →
    (mid.filterMap val).Pairwise (· < ·)

/-- The numbers increase within each epoch, and those of the open one are at
most `b`. -/
structure Upto (t : List ε) (b : α) : Prop where
  increasing : Increasing mark val t
  below : ∀ pre mid, t = pre ++ mid → (∀ e ∈ mid, ¬ mark e) → ∀ n ∈ mid.filterMap val, n ≤ b

variable {mark val} {t : List ε} {e : ε} {b c n : α}

/-- The ways to cut a trace in two around its last event. -/
theorem snoc_eq_append {pre mid : List ε} (h : t ++ [e] = pre ++ mid) :
    mid = [] ∨ ∃ mid', mid = mid' ++ [e] ∧ t = pre ++ mid' := by
  obtain rfl | ⟨mid', x, rfl⟩ := List.eq_nil_or_concat mid
  · exact Or.inl rfl
  · rw [List.concat_eq_append, ← List.append_assoc] at h
    obtain ⟨ht, hx⟩ := List.append_inj' h rfl
    rw [List.concat_eq_append, ← List.cons.inj hx |>.1]
    exact Or.inr ⟨mid', rfl, ht⟩

theorem upto_nil : Upto mark val [] b := by
  constructor
  · intro pre mid post h _
    obtain rfl : mid = [] := by
      simp only [List.nil_eq, List.append_eq_nil_iff] at h
      exact h.1.2
    exact List.Pairwise.nil
  · intro pre mid h _ n hn
    obtain rfl : mid = [] := by
      simp only [List.nil_eq, List.append_eq_nil_iff] at h
      exact h.2
    simp at hn

theorem Upto.mono (h : Upto mark val t b) (hbc : b ≤ c) : Upto mark val t c :=
  ⟨h.increasing, fun pre mid ht hm n hn => le_trans (h.below pre mid ht hm n hn) hbc⟩

/-- One more event leaves the promise intact if the epoch it ends does. -/
theorem Increasing.snoc (h : Increasing mark val t)
    (hlast : ∀ pre mid, t = pre ++ mid → (∀ x ∈ mid ++ [e], ¬ mark x) →
      ((mid ++ [e]).filterMap val).Pairwise (· < ·)) :
    Increasing mark val (t ++ [e]) := by
  intro pre mid post ht hm
  obtain rfl | ⟨post', rfl, ht'⟩ := snoc_eq_append ht
  · rw [List.append_nil] at ht
    obtain rfl | ⟨mid', rfl, ht'⟩ := snoc_eq_append ht
    · exact List.Pairwise.nil
    · exact hlast pre mid' ht' hm
  · exact h pre mid post' ht' hm

/-- An event without a number changes nothing. -/
theorem Upto.silent (h : Upto mark val t b) (he : val e = none) :
    Upto mark val (t ++ [e]) b := by
  have hdrop : ∀ mid : List ε, (mid ++ [e]).filterMap val = mid.filterMap val := by
    intro mid
    simp [he]
  constructor
  · refine h.increasing.snoc fun pre mid ht hm => ?_
    rw [hdrop]
    exact h.increasing pre mid [] (by simpa using ht) fun x hx => hm x (by simp [hx])
  · intro pre mid ht hm n hn
    obtain rfl | ⟨mid', rfl, ht'⟩ := snoc_eq_append ht
    · simp at hn
    · rw [hdrop] at hn
      exact h.below pre mid' ht' (fun x hx => hm x (by simp [hx])) n hn

theorem Upto.silent_all (h : Upto mark val t b) {es : List ε} (hes : ∀ e ∈ es, val e = none) :
    Upto mark val (t ++ es) b := by
  induction es generalizing t with
  | nil => rwa [List.append_nil]
  | cons e es ih =>
      rw [List.append_cons]
      exact ih (h.silent (hes e (by simp))) fun e' he' => hes e' (by simp [he'])

/-- A number above the bound may follow, and becomes the bound. -/
theorem Upto.number (h : Upto mark val t b) (he : val e = some n) (hn : b < n) :
    Upto mark val (t ++ [e]) n := by
  have hsnoc : ∀ mid : List ε, (mid ++ [e]).filterMap val = mid.filterMap val ++ [n] := by
    intro mid
    simp [he]
  constructor
  · refine h.increasing.snoc fun pre mid ht hm => ?_
    have hm' : ∀ x ∈ mid, ¬ mark x := fun x hx => hm x (by simp [hx])
    rw [hsnoc, List.pairwise_append]
    refine ⟨h.increasing pre mid [] (by simpa using ht) hm', List.pairwise_singleton _ _, ?_⟩
    intro k hk m hmem
    obtain rfl := List.mem_singleton.mp hmem
    exact lt_of_le_of_lt (h.below pre mid ht hm' k hk) hn
  · intro pre mid ht hm k hk
    obtain rfl | ⟨mid', rfl, ht'⟩ := snoc_eq_append ht
    · simp at hk
    · rw [hsnoc, List.mem_append, List.mem_singleton] at hk
      obtain hk | rfl := hk
      · exact le_of_lt (lt_of_le_of_lt
          (h.below pre mid' ht' (fun x hx => hm x (by simp [hx])) k hk) hn)
      · exact le_refl k

/-- A mark opens an epoch: any bound holds of it. -/
theorem Upto.cut (h : Upto mark val t b) (he : mark e) : Upto mark val (t ++ [e]) c := by
  constructor
  · refine h.increasing.snoc fun pre mid _ hm => ?_
    exact absurd he (hm e (by simp))
  · intro pre mid ht hm k hk
    obtain rfl | ⟨mid', rfl, _⟩ := snoc_eq_append ht
    · simp at hk
    · exact absurd he (hm e (by simp))

end Epoch
