import Mathlib.Tactic

/-!
# Vmc.Lib.Run

Runs of a system given by a partial step function: `step s e = some s'` when
the event `e` is possible in `s` and leads to `s'`.

`exec` plays a schedule of events.  `Along` says that a condition on the state
before a step and its event is met at every step of a run; it is what a
guarantee that only holds for well-behaved runs is stated with.  Both come with
the induction rule by which invariants are carried over whole runs.
-/

namespace Run

variable {σ ε : Type*} (step : σ → ε → Option σ)

/-- Play a schedule; `none` if some event of it is not possible when its turn
comes. -/
def exec : σ → List ε → Option σ
  | s, [] => some s
  | s, e :: es => (step s e).bind fun s' => exec s' es

@[simp] theorem exec_nil (s : σ) : exec step s [] = some s := rfl

theorem exec_cons (s : σ) (e : ε) (es : List ε) :
    exec step s (e :: es) = (step s e).bind fun s' => exec step s' es := rfl

theorem exec_cons_eq_some {s s' : σ} {e : ε} {es : List ε} :
    exec step s (e :: es) = some s' ↔ ∃ t, step s e = some t ∧ exec step t es = some s' := by
  rw [exec_cons, Option.bind_eq_some_iff]

theorem exec_append (s : σ) (es fs : List ε) :
    exec step s (es ++ fs) = (exec step s es).bind fun t => exec step t fs := by
  induction es generalizing s with
  | nil => rfl
  | cons e es ih =>
      rw [List.cons_append, exec_cons, exec_cons, Option.bind_assoc]
      congr 1
      funext t
      exact ih t

theorem exec_append_eq_some {s u : σ} {es fs : List ε} :
    exec step s (es ++ fs) = some u ↔ ∃ t, exec step s es = some t ∧ exec step t fs = some u := by
  rw [exec_append, Option.bind_eq_some_iff]

/-- Two runs, one after the other. -/
theorem exec_append_of {s t u : σ} {es fs : List ε} (h : exec step s es = some t)
    (h' : exec step t fs = some u) : exec step s (es ++ fs) = some u :=
  (exec_append_eq_some step).mpr ⟨t, h, h'⟩

/-- A schedule of steps that are always possible is a fold. -/
theorem exec_total (f : σ → ε → σ) (s : σ) (es : List ε) :
    exec (fun s e => some (f s e)) s es = some (es.foldl f s) := by
  induction es generalizing s with
  | nil => rfl
  | cons e es ih => exact ih (f s e)

/-- `ok` holds of the state before each step and of its event, all along the
run. -/
def Along (ok : σ → ε → Prop) : σ → List ε → Prop
  | _, [] => True
  | s, e :: es => ok s e ∧ ∀ s', step s e = some s' → Along ok s' es

theorem along_cons {ok : σ → ε → Prop} {s : σ} {e : ε} {es : List ε} :
    Along step ok s (e :: es) ↔ ok s e ∧ ∀ s', step s e = some s' → Along step ok s' es := Iff.rfl

/-- Whether a concrete run meets a decidable condition can be evaluated. -/
instance decidableAlong (ok : σ → ε → Prop) [∀ s e, Decidable (ok s e)] :
    (s : σ) → (es : List ε) → Decidable (Along step ok s es)
  | _, [] => .isTrue trivial
  | s, e :: es =>
      match h : step s e with
      | none => decidable_of_iff (ok s e) ⟨fun hok => ⟨hok, by simp [h]⟩, fun hal => hal.1⟩
      | some t =>
          have := decidableAlong ok t es
          decidable_of_iff (ok s e ∧ Along step ok t es)
            ⟨fun hal => ⟨hal.1, by rintro s' hs'; rw [h] at hs'; exact Option.some.inj hs' ▸ hal.2⟩,
              fun hal => ⟨hal.1, hal.2 t h⟩⟩

variable {step}

/-- **Invariant rule**: what holds at the start and is kept by every step that
meets the condition holds wherever a run that meets it ends. -/
theorem exec_invariant {ok : σ → ε → Prop} (I : σ → Prop)
    (hstep : ∀ s e s', I s → ok s e → step s e = some s' → I s') :
    ∀ {es : List ε} {s s' : σ}, I s → Along step ok s es → exec step s es = some s' → I s' := by
  intro es
  induction es with
  | nil =>
      intro s s' hs _ h
      obtain rfl := Option.some.inj h
      exact hs
  | cons e es ih =>
      intro s s' hs hok h
      obtain ⟨t, ht, hrest⟩ := (exec_cons_eq_some step).mp h
      exact ih (hstep s e t hs hok.1 ht) (hok.2 t ht) hrest

/-- **Progress rule**: if the invariant makes every step that meets the condition
possible, a run that meets it is played to its end. -/
theorem exec_progress {ok : σ → ε → Prop} (I : σ → Prop)
    (hstep : ∀ s e, I s → ok s e → ∃ s', step s e = some s' ∧ I s') :
    ∀ {es : List ε} {s : σ}, I s → Along step ok s es → ∃ s', exec step s es = some s' ∧ I s' := by
  intro es
  induction es with
  | nil =>
      intro s hs _
      exact ⟨s, rfl, hs⟩
  | cons e es ih =>
      intro s hs hok
      obtain ⟨t, ht, hIt⟩ := hstep s e hs hok.1
      obtain ⟨s', hs', hI⟩ := ih hIt (hok.2 t ht)
      exact ⟨s', (exec_cons_eq_some step).mpr ⟨t, ht, hs'⟩, hI⟩

/-- The condition holds along two runs, one after the other. -/
theorem along_append {ok : σ → ε → Prop} {es fs : List ε} {s : σ} :
    Along step ok s (es ++ fs) ↔
      Along step ok s es ∧ ∀ t, exec step s es = some t → Along step ok t fs := by
  induction es generalizing s with
  | nil => simp [Along]
  | cons e es ih =>
      rw [List.cons_append, along_cons, along_cons]
      constructor
      · intro h
        refine ⟨⟨h.1, fun t ht => (ih.mp (h.2 t ht)).1⟩, fun t ht => ?_⟩
        obtain ⟨u, hu, hrest⟩ := (exec_cons_eq_some step).mp ht
        exact (ih.mp (h.2 u hu)).2 t hrest
      · intro h
        refine ⟨h.1.1, fun t ht => ih.mpr ⟨h.1.2 t ht, fun u hu => ?_⟩⟩
        exact h.2 u ((exec_cons_eq_some step).mpr ⟨t, ht, hu⟩)

theorem along_append_of {ok : σ → ε → Prop} {s t : σ} {es fs : List ε} (h : Along step ok s es)
    (hrun : exec step s es = some t) (h' : Along step ok t fs) : Along step ok s (es ++ fs) := by
  refine along_append.mpr ⟨h, fun u hu => ?_⟩
  obtain rfl := Option.some.inj (hrun.symm.trans hu)
  exact h'

theorem along_true (s : σ) (es : List ε) : Along step (fun _ _ => True) s es := by
  induction es generalizing s with
  | nil => trivial
  | cons e es ih => exact ⟨trivial, fun t _ => ih t⟩

theorem Along.and {ok ok' : σ → ε → Prop} {es : List ε} {s : σ} (h : Along step ok s es)
    (h' : Along step ok' s es) : Along step (fun s e => ok s e ∧ ok' s e) s es := by
  induction es generalizing s with
  | nil => trivial
  | cons e es ih => exact ⟨⟨h.1, h'.1⟩, fun t ht => ih (h.2 t ht) (h'.2 t ht)⟩

/-- A condition on the events alone may be met all along a run as well. -/
theorem Along.and_mem {ok : σ → ε → Prop} {q : ε → Prop} {es : List ε} {s : σ}
    (h : Along step ok s es) (hq : ∀ e ∈ es, q e) : Along step (fun s e => ok s e ∧ q e) s es := by
  induction es generalizing s with
  | nil => trivial
  | cons e es ih =>
      exact ⟨⟨h.1, hq e (by simp)⟩,
        fun t ht => ih (h.2 t ht) fun e' he' => hq e' (List.mem_cons_of_mem e he')⟩

/-- **Congruence rule**: two conditions that say the same wherever an invariant
holds are met along the same runs, if a step that meets them keeps it. -/
theorem along_congr {ok ok' : σ → ε → Prop} (I : σ → Prop)
    (hiff : ∀ s e, I s → (ok s e ↔ ok' s e))
    (hstep : ∀ s e s', I s → ok s e → step s e = some s' → I s') {es : List ε} {s : σ}
    (hs : I s) : Along step ok s es ↔ Along step ok' s es := by
  induction es generalizing s with
  | nil => exact Iff.rfl
  | cons e es ih =>
      rw [along_cons, along_cons, ← hiff s e hs]
      refine and_congr_right fun hok => forall₂_congr fun t ht => ?_
      exact ih (hstep s e t hs hok ht)

/-- `P` holds in every state a run goes through. -/
def Always (step : σ → ε → Option σ) (P : σ → Prop) (s : σ) (es : List ε) : Prop :=
  ∀ pre t, pre <+: es → exec step s pre = some t → P t

theorem always_cons {P : σ → Prop} {s : σ} {e : ε} {es : List ε} :
    Always step P s (e :: es) ↔ P s ∧ ∀ t, step s e = some t → Always step P t es := by
  constructor
  · intro h
    refine ⟨h [] s List.nil_prefix rfl, fun t ht pre u hpre hu => ?_⟩
    exact h (e :: pre) u ((List.prefix_cons_inj e).mpr hpre)
      ((exec_cons_eq_some step).mpr ⟨t, ht, hu⟩)
  · rintro ⟨hs, h⟩ pre u hpre hu
    cases pre with
    | nil =>
        obtain rfl := Option.some.inj hu
        exact hs
    | cons e' pre =>
        obtain ⟨rfl, hrest⟩ := List.cons_prefix_cons.mp hpre
        obtain ⟨t, ht, hu⟩ := (exec_cons_eq_some step).mp hu
        exact h t ht pre u hrest hu

/-- **Exactness rule**: if the condition keeps an invariant that gives `P`, and a
step that breaks the condition leads to where `P` fails, then `P` holds all
along a run exactly if the condition does. -/
theorem always_iff_along {ok : σ → ε → Prop} {P : σ → Prop} (I : σ → Prop)
    (hP : ∀ s, I s → P s) (hstep : ∀ s e s', I s → ok s e → step s e = some s' → I s')
    (hexact : ∀ s e s', I s → step s e = some s' → P s' → ok s e) {es : List ε} {s s' : σ}
    (hs : I s) (hrun : exec step s es = some s') : Always step P s es ↔ Along step ok s es := by
  induction es generalizing s with
  | nil =>
      refine iff_of_true ?_ trivial
      intro pre t hpre ht
      rw [List.prefix_nil.mp hpre] at ht
      obtain rfl := Option.some.inj ht
      exact hP s hs
  | cons e es ih =>
      obtain ⟨t, ht, hrest⟩ := (exec_cons_eq_some step).mp hrun
      have huniq : ∀ u, step s e = some u → u = t := fun u hu => Option.some.inj (hu.symm.trans ht)
      rw [always_cons, along_cons]
      constructor
      · rintro ⟨-, h⟩
        have hok : ok s e := hexact s e t hs ht (h t ht [] t List.nil_prefix rfl)
        refine ⟨hok, fun u hu => ?_⟩
        obtain rfl := huniq u hu
        exact (ih (hstep s e u hs hok ht) hrest).mp (h u hu)
      · rintro ⟨hok, h⟩
        refine ⟨hP s hs, fun u hu => ?_⟩
        obtain rfl := huniq u hu
        exact (ih (hstep s e u hs hok ht) hrest).mpr (h u hu)

/-- **Potential rule**: if a quantity never falls, and a step leaves it as it is
exactly if it meets the condition, then a run leaves it as it is exactly if the
condition is met all along. -/
theorem along_iff_of_potential {ω : Type*} [PartialOrder ω] {pre ok : σ → ε → Prop} (I : σ → Prop)
    (m : σ → ω) (hstep : ∀ s e s', I s → pre s e → step s e = some s' →
      I s' ∧ m s ≤ m s' ∧ (m s' = m s ↔ ok s e)) {es : List ε} {s s' : σ} (hs : I s)
    (hpre : Along step pre s es) (hrun : exec step s es = some s') :
    m s ≤ m s' ∧ (m s' = m s ↔ Along step ok s es) := by
  induction es generalizing s with
  | nil =>
      obtain rfl := Option.some.inj hrun
      exact ⟨le_refl _, iff_of_true rfl trivial⟩
  | cons e es ih =>
      obtain ⟨t, ht, hrest⟩ := (exec_cons_eq_some step).mp hrun
      obtain ⟨hIt, hle, heq⟩ := hstep s e t hs hpre.1 ht
      obtain ⟨hle', heq'⟩ := ih hIt (hpre.2 t ht) hrest
      refine ⟨le_trans hle hle', ?_⟩
      rw [along_cons, ← heq]
      constructor
      · intro h
        have hmid : m t = m s := le_antisymm (h ▸ hle') hle
        refine ⟨hmid, fun u hu => ?_⟩
        obtain rfl := Option.some.inj (ht.symm.trans hu)
        exact heq'.mp (h.trans hmid.symm)
      · rintro ⟨hmid, h⟩
        exact (heq'.mpr (h t ht)).trans hmid

/-- The invariant rule for unconditional invariants. -/
theorem exec_invariant_true (I : σ → Prop) (hstep : ∀ s e s', I s → step s e = some s' → I s')
    {es : List ε} {s s' : σ} (hs : I s) (h : exec step s es = some s') : I s' :=
  exec_invariant I (fun s e s' hI _ => hstep s e s' hI) hs (along_true s es) h

/-- The invariant rule for invariants that speak of the events so far. -/
theorem exec_history (I : List ε → σ → Prop)
    (hstep : ∀ es s e s', I es s → step s e = some s' → I (es ++ [e]) s')
    {es : List ε} {s s' : σ} (hs : I [] s) (h : exec step s es = some s') : I es s' := by
  induction es using List.reverseRecOn generalizing s' with
  | nil =>
      obtain rfl := Option.some.inj h
      exact hs
  | append_singleton es e ih =>
      obtain ⟨t, ht, hlast⟩ := (exec_append_eq_some step).mp h
      obtain ⟨u, hu, hnil⟩ := (exec_cons_eq_some step).mp hlast
      obtain rfl := Option.some.inj hnil
      exact hstep es t e u (ih ht) hu

/-- How many steps of a run do not meet the condition. -/
def misses (step : σ → ε → Option σ) (ok : σ → ε → Prop) [∀ s e, Decidable (ok s e)] :
    σ → List ε → ℕ
  | _, [] => 0
  | s, e :: es =>
      (if ok s e then 0 else 1) + ((step s e).map fun t => misses step ok t es).getD 0

/-- **Counting rule**: an invariant may speak of the number of steps so far that
did not meet a condition. -/
theorem exec_misses (ok : σ → ε → Prop) [∀ s e, Decidable (ok s e)] (I : ℕ → σ → Prop)
    (hstep : ∀ n s e s', I n s → step s e = some s' → I (n + if ok s e then 0 else 1) s')
    {es : List ε} {n : ℕ} {s s' : σ} (hs : I n s) (h : exec step s es = some s') :
    I (n + misses step ok s es) s' := by
  induction es generalizing n s with
  | nil =>
      obtain rfl := Option.some.inj h
      exact hs
  | cons e es ih =>
      obtain ⟨t, ht, hrest⟩ := (exec_cons_eq_some step).mp h
      have hih := ih (hstep n s e t hs ht) hrest
      rwa [Nat.add_assoc, show (if ok s e then 0 else 1) + misses step ok t es =
        misses step ok s (e :: es) by simp [misses, ht]] at hih

/-- A run without misses is one along which the condition holds. -/
theorem misses_eq_zero_iff {ok : σ → ε → Prop} [∀ s e, Decidable (ok s e)] {s : σ} {es : List ε} :
    misses step ok s es = 0 ↔ Along step ok s es := by
  induction es generalizing s with
  | nil => simp [misses, Along]
  | cons e es ih => cases h : step s e <;> simp [misses, Along, h, ih]

/-- **Projection rule**: a part of a system that takes its own steps at some
events, and rests at the others, runs its own steps. -/
theorem exec_project {τ δ : Type*} {part : τ → δ → Option τ} (π : σ → τ) (f : ε → Option δ)
    (hown : ∀ s e s' d, step s e = some s' → f e = some d → part (π s) d = some (π s'))
    (hrest : ∀ s e s', step s e = some s' → f e = none → π s' = π s)
    {es : List ε} {s s' : σ} (h : exec step s es = some s') :
    exec part (π s) (es.filterMap f) = some (π s') := by
  induction es generalizing s with
  | nil =>
      obtain rfl := Option.some.inj h
      rfl
  | cons e es ih =>
      obtain ⟨t, ht, hes⟩ := (exec_cons_eq_some step).mp h
      cases hf : f e with
      | none =>
          rw [List.filterMap_cons_none hf, ← hrest s e t ht hf]
          exact ih hes
      | some d =>
          rw [List.filterMap_cons_some hf]
          exact (exec_cons_eq_some part).mpr ⟨π t, hown s e t d ht hf, ih hes⟩

/-! ## sequences that come to rest -/

/-- **Descent rule**: if a rank drops at every step until `P` holds, and `P` is
kept, then `P` holds from some point on. -/
theorem eventually_of_rank {x : ℕ → σ} {P : σ → Prop} (rank : σ → ℕ)
    (hdesc : ∀ n, ¬ P (x n) → rank (x (n + 1)) < rank (x n))
    (hkeep : ∀ n, P (x n) → P (x (n + 1))) : ∃ n, ∀ k, n ≤ k → P (x k) := by
  have hreach : ∃ n, P (x n) := by
    by_contra hnever
    have hbound : ∀ n, n + rank (x n) ≤ rank (x 0) := by
      intro n
      induction n with
      | zero => omega
      | succ n ih =>
        have hdrop := hdesc n fun h => hnever ⟨n, h⟩
        omega
    have hlast := hbound (rank (x 0) + 1)
    omega
  obtain ⟨n, hn⟩ := hreach
  refine ⟨n, fun k hk => ?_⟩
  induction k, hk using Nat.le_induction with
  | base => exact hn
  | succ k _ ih => exact hkeep k ih

/-! ## runs with results -/

variable {τ ρ : Type*}

/-- Play a schedule of operations that return a result each; `none` if one of
them fails. -/
def play (step : σ → ε → Option (ρ × σ)) : σ → List ε → Option (List ρ × σ)
  | s, [] => some ([], s)
  | s, e :: es =>
      (step s e).bind fun (r, t) => (play step t es).map fun (rs, u) => (r :: rs, u)

/-- One more operation. -/
theorem play_concat {step : σ → ε → Option (ρ × σ)} {s t u : σ} {es : List ε} {rs : List ρ} {e : ε}
    {r : ρ} (h : play step s es = some (rs, t)) (he : step t e = some (r, u)) :
    play step s (es ++ [e]) = some (rs ++ [r], u) := by
  induction es generalizing s rs with
  | nil =>
      obtain ⟨rfl, rfl⟩ := Prod.mk.inj (Option.some.inj h)
      simp [play, he]
  | cons e' es ih =>
      obtain ⟨⟨r', v⟩, hv, hmap⟩ := Option.bind_eq_some_iff.mp h
      obtain ⟨⟨rs', w⟩, hrest, heq⟩ := Option.map_eq_some_iff.mp hmap
      obtain ⟨rfl, rfl⟩ := Prod.mk.inj heq
      simp [play, hv, ih hrest]

/-- **Refinement rule**: if each operation keeps the two states related and
returns the same in both, whole runs return the same. -/
theorem play_refines {step : σ → ε → Option (ρ × σ)} {spec : τ → ε → ρ × τ} (R : σ → τ → Prop)
    (hstep : ∀ s t e, R s t → ∃ s', step s e = some ((spec t e).1, s') ∧ R s' (spec t e).2)
    {s : σ} {t : τ} (h : R s t) (es : List ε) :
    ∃ rs s' t', play step s es = some (rs, s') ∧
      play (fun t e => some (spec t e)) t es = some (rs, t') ∧ R s' t' := by
  induction es generalizing s t with
  | nil => exact ⟨[], s, t, rfl, rfl, h⟩
  | cons e es ih =>
      obtain ⟨u, hu, hR⟩ := hstep s t e h
      obtain ⟨rs, s', t', hs', ht', hR'⟩ := ih hR
      refine ⟨(spec t e).1 :: rs, s', t', ?_, ?_, hR'⟩
      · simp [play, hu, hs']
      · simp [play, ht']

/-- **Simulation rule**: if each operation that succeeds succeeds in the other
system with the same result and keeps the two states related, so does a run. -/
theorem play_simulates {step : σ → ε → Option (ρ × σ)} {spec : τ → ε → Option (ρ × τ)}
    (R : σ → τ → Prop)
    (hstep : ∀ s t e r s', R s t → step s e = some (r, s') →
      ∃ t', spec t e = some (r, t') ∧ R s' t')
    {s s' : σ} {t : τ} {es : List ε} {rs : List ρ} (hR : R s t)
    (h : play step s es = some (rs, s')) :
    ∃ t', play spec t es = some (rs, t') ∧ R s' t' := by
  induction es generalizing s t rs with
  | nil =>
      obtain ⟨rfl, rfl⟩ := Prod.mk.inj (Option.some.inj h)
      exact ⟨t, rfl, hR⟩
  | cons e es ih =>
      obtain ⟨⟨r, u⟩, hu, hmap⟩ := Option.bind_eq_some_iff.mp h
      obtain ⟨⟨rs', v⟩, hrest, heq⟩ := Option.map_eq_some_iff.mp hmap
      obtain ⟨rfl, rfl⟩ := Prod.mk.inj heq
      obtain ⟨w, hw, hRw⟩ := hstep s t e r u hR hu
      obtain ⟨t', ht', hR'⟩ := ih hRw hrest
      exact ⟨t', by simp [play, hw, ht'], hR'⟩

end Run
