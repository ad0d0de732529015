import Vmc.Lib.Run

/-!
# Vmc.Lib.Monitor

Threads that work on a shared state behind one mutex and wait for one another on
condition variables, as POSIX threads do.

An operation locks the mutex, tests whether it has to wait, and if so gives the
mutex up while it is blocked and tests again; otherwise it works on the state,
signals and unlocks.  A stop flag is set without the mutex, and a broadcast under
it follows; operations that heed the flag no longer wait.  Between any two of
these steps of a thread the other threads may take theirs, and a blocked thread
may wake up without reason.

`Spec.signals` asks of every operation that it wakes whoever it makes ready.
Then no wake-up is lost and the stop reaches everybody who heeds it
(`Inv.blocked`), somebody can go on unless all are asleep (`Inv.progress`), and
what the threads do is what the operations do one after the other
(`serial_exec`).
-/

namespace Monitor

variable {ι ω σ ρ : Type*}

/-- The operations of the threads.  An operation belongs to one thread; `wakes o
s i` says that it signals the variable `i` waits on when it is done in `s`, and
`ok` is what the shared state always fulfils. -/
structure Spec (ι ω σ ρ : Type*) where
  owner : ω → ι
  waits : ω → σ → Bool
  heeds : ω → Bool
  body : ω → σ → ρ × σ
  wakes : ω → σ → ι → Bool
  ok : σ → Prop
  keeps : ∀ o s, ok s → ok (body o s).2
  signals : ∀ w o s, ok s → waits w s = true → waits w (body o s).2 = false →
    wakes o s (owner w) = true

/-- Where a thread is: outside; at the test, or past it and about to block, with
the mutex; blocked; or woken and about to lock again. -/
inductive Pc (ω : Type*) where
  | out
  | testing (o : ω)
  | leaving (o : ω)
  | blocked (o : ω)
  | woken (o : ω)

namespace Pc

/-- The operation a thread is in. -/
def op : Pc ω → Option ω
  | out => none
  | testing o | leaving o | blocked o | woken o => some o

/-- It has the mutex. -/
def inside : Pc ω → Bool
  | testing _ | leaving _ => true
  | out | blocked _ | woken _ => false

/-- It waits, or has made up its mind to. -/
def waiting : Pc ω → Option ω
  | leaving o | blocked o => some o
  | out | testing _ | woken _ => none

/-- What a signal does to a thread that is blocked. -/
def wake : Pc ω → Pc ω
  | blocked o => woken o
  | pc => pc

@[simp] theorem op_wake (pc : Pc ω) : pc.wake.op = pc.op := by cases pc <;> rfl

@[simp] theorem inside_wake (pc : Pc ω) : pc.wake.inside = pc.inside := by cases pc <;> rfl

theorem waiting_wake {pc : Pc ω} {o : ω} (h : pc.wake.waiting = some o) : pc = .leaving o := by
  cases pc <;> simp_all [wake, waiting]

theorem waiting_eq_some {pc : Pc ω} {o : ω} :
    pc.waiting = some o ↔ pc = .leaving o ∨ pc = .blocked o := by
  cases pc <;> simp [waiting]

theorem op_of_waiting {pc : Pc ω} {o : ω} (h : pc.waiting = some o) : pc.op = some o := by
  obtain rfl | rfl := waiting_eq_some.mp h <;> rfl

/-- A thread that waits and does not have the mutex is blocked. -/
theorem exists_blocked {pc : Pc ω} (h : (pc.waiting.isSome && !pc.inside) = true) :
    ∃ o, pc = .blocked o := by
  cases pc with
  | blocked o => exact ⟨o, rfl⟩
  | out | testing | leaving | woken => cases h

end Pc

/-- Shared state and threads.  `log` and `results` are not in the program: the
operations done so far, and what they returned. -/
structure State (ι ω σ ρ : Type*) where
  shared : σ
  lock : Option ι
  pc : ι → Pc ω
  run : Bool
  told : Bool
  log : List ω
  results : List ρ

def State.init (s : σ) : State ι ω σ ρ := ⟨s, none, fun _ => .out, true, false, [], []⟩

inductive Event (ι ω : Type*) where
  | enter (o : ω)
  | test (i : ι)
  | block (i : ι)
  /-- For no reason, or because a deadline passed. -/
  | wake (i : ι)
  | relock (i : ι)
  | stop
  | broadcast

/-- What a broadcast to all who heed the flag does to a thread. -/
def hear (m : Spec ι ω σ ρ) (pc : Pc ω) : Pc ω :=
  if pc.op.any m.heeds then pc.wake else pc

section

variable {m : Spec ι ω σ ρ} {s : State ι ω σ ρ}

@[simp] theorem op_hear (pc : Pc ω) : (hear m pc).op = pc.op := by
  unfold hear
  split
  · exact Pc.op_wake pc
  · rfl

@[simp] theorem inside_hear (pc : Pc ω) : (hear m pc).inside = pc.inside := by
  unfold hear
  split
  · exact Pc.inside_wake pc
  · rfl

/-- A broadcast leaves asleep only who does not heed the flag. -/
theorem waiting_hear {pc : Pc ω} {o : ω} (h : (hear m pc).waiting = some o)
    (hnot : ∀ v, pc ≠ .leaving v) : pc = .blocked o ∧ m.heeds o = false := by
  unfold hear at h
  split at h
  · exact absurd (Pc.waiting_wake h) (hnot o)
  · rename_i hdeaf
    refine ⟨(Pc.waiting_eq_some.mp h).resolve_left (hnot o), ?_⟩
    rw [Pc.op_of_waiting h] at hdeaf
    simpa using hdeaf

/-! ## the invariant -/

/-- What holds between two steps. -/
structure Inv (m : Spec ι ω σ ρ) (s : State ι ω σ ρ) : Prop where
  ok : m.ok s.shared
  owner : ∀ i o, (s.pc i).op = some o → m.owner o = i
  lock : ∀ i, (s.pc i).inside = true ↔ s.lock = some i
  waits : ∀ i o, (s.pc i).waiting = some o →
    m.waits o s.shared = true ∧ (m.heeds o = true → s.told = false)
  told : s.told = true → s.run = false

theorem inv_init {x : σ} (h : m.ok x) : Inv m (.init x) where
  ok := h
  owner i o ho := by cases ho
  lock i := by simp [State.init, Pc.inside]
  waits i o ho := by cases ho
  told ht := by cases ht

/-- Only one thread is inside. -/
theorem Inv.unique (h : Inv m s) {i j : ι} (hi : (s.pc i).inside = true)
    (hj : (s.pc j).inside = true) : i = j :=
  Option.some.inj (((h.lock i).mp hi).symm.trans ((h.lock j).mp hj))

/-- **No lost wake-up**: a thread that is blocked has to wait as things are, and
was not told to stop. -/
theorem Inv.blocked (h : Inv m s) {i : ι} {o : ω} (hpc : s.pc i = .blocked o) :
    m.waits o s.shared = true ∧ (m.heeds o = true → s.told = false) :=
  h.waits i o (by rw [hpc]; rfl)

end

/-- An operation where it does not have to wait. -/
def Spec.ready (m : Spec ι ω σ ρ) (s : σ) (o : ω) : Option (ρ × σ) :=
  if m.waits o s = true then none else some (m.body o s)

/-! ## the threads -/

section

variable [DecidableEq ι]

/-- The operation is done, whoever it signals is woken, and the mutex is free. -/
def perform (m : Spec ι ω σ ρ) (s : State ι ω σ ρ) (i : ι) (o : ω) : State ι ω σ ρ :=
  { s with
    shared := (m.body o s.shared).2
    lock := none
    pc := fun j => if j = i then .out else if m.wakes o s.shared j then (s.pc j).wake else s.pc j
    log := s.log ++ [o]
    results := s.results ++ [(m.body o s.shared).1] }

/-- One step; `none` if the thread is not at it, or the mutex is taken. -/
def step (m : Spec ι ω σ ρ) (s : State ι ω σ ρ) : Event ι ω → Option (State ι ω σ ρ)
  | .enter o =>
      match s.pc (m.owner o) with
      | .out =>
          if s.lock = none then some { s with
            lock := some (m.owner o)
            pc := Function.update s.pc (m.owner o) (.testing o) }
          else none
      | _ => none
  | .test i =>
      match s.pc i with
      | .testing o =>
          if m.waits o s.shared ∧ (m.heeds o → s.run) then
            some { s with pc := Function.update s.pc i (.leaving o) }
          else some (perform m s i o)
      | _ => none
  | .block i =>
      match s.pc i with
      | .leaving o => some { s with lock := none, pc := Function.update s.pc i (.blocked o) }
      | _ => none
  | .wake i =>
      match s.pc i with
      | .blocked o => some { s with pc := Function.update s.pc i (.woken o) }
      | _ => none
  | .relock i =>
      match s.pc i with
      | .woken o =>
          if s.lock = none then some { s with
            lock := some i
            pc := Function.update s.pc i (.testing o) }
          else none
      | _ => none
  | .stop => some { s with run := false }
  | .broadcast =>
      if s.run = false ∧ s.lock = none then some { s with
        told := true
        pc := fun i => hear m (s.pc i) }
      else none

/-! ## what a step does -/

variable {m : Spec ι ω σ ρ} {s s' : State ι ω σ ρ}

theorem step_enter {o : ω} (h : step m s (.enter o) = some s') :
    s.pc (m.owner o) = .out ∧ s.lock = none ∧ s' = { s with
      lock := some (m.owner o)
      pc := Function.update s.pc (m.owner o) (.testing o) } := by
  simp only [step] at h
  split at h
  · rename_i hpc
    obtain ⟨hlock, heq⟩ := Option.ite_none_right_eq_some.mp h
    exact ⟨hpc, hlock, (Option.some.inj heq).symm⟩
  · cases h

/-- The test sends the thread to sleep, or the operation is done. -/
theorem step_test {i : ι} (h : step m s (.test i) = some s') :
    ∃ o, s.pc i = .testing o ∧
      (m.waits o s.shared = true ∧ (m.heeds o = true → s.run = true) ∧
          s' = { s with pc := Function.update s.pc i (.leaving o) } ∨
        (m.waits o s.shared = false ∨ m.heeds o = true ∧ s.run = false) ∧
          s' = perform m s i o) := by
  simp only [step] at h
  split at h
  · rename_i o hpc
    refine ⟨o, hpc, ?_⟩
    split at h
    · rename_i hwait
      exact .inl ⟨hwait.1, hwait.2, (Option.some.inj h).symm⟩
    · rename_i hgo
      refine .inr ⟨?_, (Option.some.inj h).symm⟩
      by_cases hw : m.waits o s.shared = true
      · have hstop : ¬ (m.heeds o = true → s.run = true) := fun hrun => hgo ⟨hw, hrun⟩
        push Not at hstop
        exact .inr ⟨hstop.1, by simpa using hstop.2⟩
      · exact .inl (by simpa using hw)
  · cases h

theorem step_block {i : ι} (h : step m s (.block i) = some s') :
    ∃ o, s.pc i = .leaving o ∧
      s' = { s with lock := none, pc := Function.update s.pc i (.blocked o) } := by
  simp only [step] at h
  split at h
  · rename_i o hpc
    exact ⟨o, hpc, (Option.some.inj h).symm⟩
  · cases h

theorem step_wake {i : ι} (h : step m s (.wake i) = some s') :
    ∃ o, s.pc i = .blocked o ∧ s' = { s with pc := Function.update s.pc i (.woken o) } := by
  simp only [step] at h
  split at h
  · rename_i o hpc
    exact ⟨o, hpc, (Option.some.inj h).symm⟩
  · cases h

theorem step_relock {i : ι} (h : step m s (.relock i) = some s') :
    ∃ o, s.pc i = .woken o ∧ s.lock = none ∧
      s' = { s with lock := some i, pc := Function.update s.pc i (.testing o) } := by
  simp only [step] at h
  split at h
  · rename_i o hpc
    obtain ⟨hlock, heq⟩ := Option.ite_none_right_eq_some.mp h
    exact ⟨o, hpc, hlock, (Option.some.inj heq).symm⟩
  · cases h

theorem step_broadcast (h : step m s .broadcast = some s') :
    s.run = false ∧ s.lock = none ∧
      s' = { s with told := true, pc := fun i => hear m (s.pc i) } := by
  obtain ⟨⟨hrun, hlock⟩, heq⟩ := Option.ite_none_right_eq_some.mp h
  exact ⟨hrun, hlock, (Option.some.inj heq).symm⟩

/-- One thread moves on, with or without the mutex. -/
theorem Inv.update (h : Inv m s) {i : ι} {pc : Pc ω} {lock : Option ι}
    (howner : ∀ o, pc.op = some o → m.owner o = i)
    (hlock : (pc.inside = true ↔ lock = some i) ∧
      ∀ j, j ≠ i → (lock = some j ↔ s.lock = some j))
    (hwaits : ∀ o, pc.waiting = some o →
      m.waits o s.shared = true ∧ (m.heeds o = true → s.told = false)) :
    Inv m { s with lock := lock, pc := Function.update s.pc i pc } where
  ok := h.ok
  owner j o ho := by
    dsimp only at ho
    by_cases hj : j = i
    · subst hj
      rw [Function.update_self] at ho
      exact howner o ho
    · rw [Function.update_of_ne hj] at ho
      exact h.owner j o ho
  lock j := by
    dsimp only
    by_cases hj : j = i
    · subst hj
      rw [Function.update_self]
      exact hlock.1
    · rw [Function.update_of_ne hj]
      exact (h.lock j).trans (hlock.2 j hj).symm
  waits j o ho := by
    dsimp only at ho ⊢
    by_cases hj : j = i
    · subst hj
      rw [Function.update_self] at ho
      exact hwaits o ho
    · rw [Function.update_of_ne hj] at ho
      exact h.waits j o ho
  told := h.told

/-- An operation that is done leaves nobody asleep whom it made ready. -/
theorem Inv.perform (h : Inv m s) {i : ι} {o : ω} (hpc : s.pc i = .testing o) :
    Inv m (perform m s i o) where
  ok := m.keeps o s.shared h.ok
  owner j w hw := by
    simp only [Monitor.perform] at hw
    split at hw
    · cases hw
    · refine h.owner j w ?_
      split at hw
      · rwa [Pc.op_wake] at hw
      · exact hw
  lock j := by
    have hi : s.lock = some i := (h.lock i).mp (by rw [hpc]; rfl)
    simp only [Monitor.perform]
    refine iff_of_false ?_ (by simp)
    split
    · simp [Pc.inside]
    · rename_i hj
      -- the thread that did the operation had the mutex
      have hout : (s.pc j).inside ≠ true := fun hin =>
        hj (Option.some.inj (((h.lock j).mp hin).symm.trans hi))
      split
      · rwa [Pc.inside_wake]
      · exact hout
  waits j w hw := by
    simp only [Monitor.perform] at hw ⊢
    split at hw
    · cases hw
    · rename_i hj
      have hin : ∀ v, s.pc j ≠ .leaving v := fun v hv =>
        hj (h.unique (by rw [hv]; rfl) (by rw [hpc]; rfl))
      split at hw
      · exact absurd (Pc.waiting_wake hw) (hin w)
      · rename_i hwake
        obtain ⟨hold, hheed⟩ := h.waits j w hw
        refine ⟨?_, hheed⟩
        by_contra hready
        have hown : m.owner w = j := h.owner j w (Pc.op_of_waiting hw)
        exact hwake (hown ▸ m.signals w o s.shared h.ok hold (by simpa using hready))
  told := h.told

theorem inv_step (h : Inv m s) {e : Event ι ω} (hstep : step m s e = some s') : Inv m s' := by
  cases e with
  | enter o =>
      obtain ⟨hpc, hlock, rfl⟩ := step_enter hstep
      refine h.update (fun w hw => by obtain rfl := Option.some.inj hw; rfl)
        ⟨by simp [Pc.inside], ?_⟩ (fun w hw => by cases hw)
      intro j hj
      simp [hlock, hj.symm]
  | test i =>
      obtain ⟨o, hpc, ⟨hwait, hrun, rfl⟩ | ⟨-, rfl⟩⟩ := step_test hstep
      · have hi : s.lock = some i := (h.lock i).mp (by rw [hpc]; rfl)
        have hown : m.owner o = i := h.owner i o (by rw [hpc]; rfl)
        refine h.update (fun w hw => by obtain rfl := Option.some.inj hw; exact hown)
          ⟨by simp [Pc.inside, hi], fun j _ => Iff.rfl⟩ fun w hw => ?_
        obtain rfl := Option.some.inj hw
        refine ⟨hwait, fun hheed => ?_⟩
        by_contra htold
        have hstop := h.told (by simpa using htold)
        rw [hrun hheed] at hstop
        cases hstop
      · exact h.perform hpc
  | block i =>
      obtain ⟨o, hpc, rfl⟩ := step_block hstep
      have hi : s.lock = some i := (h.lock i).mp (by rw [hpc]; rfl)
      have hown : m.owner o = i := h.owner i o (by rw [hpc]; rfl)
      refine h.update (fun w hw => by obtain rfl := Option.some.inj hw; exact hown)
        ⟨by simp [Pc.inside], ?_⟩ fun w hw => ?_
      · intro j hj
        simp [hi, hj.symm]
      · obtain rfl := Option.some.inj hw
        exact h.waits i o (by rw [hpc]; rfl)
  | wake i =>
      obtain ⟨o, hpc, rfl⟩ := step_wake hstep
      have hown : m.owner o = i := h.owner i o (by rw [hpc]; rfl)
      have hout : s.lock ≠ some i := fun hi => by
        have := (h.lock i).mpr hi
        rw [hpc] at this
        cases this
      exact h.update (fun w hw => by obtain rfl := Option.some.inj hw; exact hown)
        ⟨by simp [Pc.inside, hout], fun j _ => Iff.rfl⟩ (fun w hw => by cases hw)
  | relock i =>
      obtain ⟨o, hpc, hlock, rfl⟩ := step_relock hstep
      have hown : m.owner o = i := h.owner i o (by rw [hpc]; rfl)
      refine h.update (fun w hw => by obtain rfl := Option.some.inj hw; exact hown)
        ⟨by simp [Pc.inside], ?_⟩ (fun w hw => by cases hw)
      intro j hj
      simp [hlock, hj.symm]
  | stop =>
      obtain rfl := Option.some.inj hstep
      exact ⟨h.ok, h.owner, h.lock, h.waits, fun _ => rfl⟩
  | broadcast =>
      obtain ⟨hrun, hlock, rfl⟩ := step_broadcast hstep
      refine ⟨h.ok, fun i o ho => h.owner i o (by simpa using ho),
        fun i => by simpa using h.lock i, fun i o ho => ?_, fun _ => hrun⟩
      -- nobody is inside, so whoever still waits is blocked and was not called
      have hnot : ∀ v, s.pc i ≠ .leaving v := fun v hv => by
        have := (h.lock i).mp (by rw [hv]; rfl)
        rw [hlock] at this
        cases this
      obtain ⟨hpc, hdeaf⟩ := waiting_hear ho hnot
      refine ⟨(h.waits i o (by rw [hpc]; rfl)).1, fun hheed => ?_⟩
      rw [hdeaf] at hheed
      cases hheed

/-! ## runs -/

theorem inv_exec {x : σ} (hx : m.ok x) {es : List (Event ι ω)}
    (h : Run.exec (step m) (.init x) es = some s) : Inv m s :=
  Run.exec_invariant_true (Inv m) (fun _ _ _ hI => inv_step hI) (inv_init hx) h

/-- A thread that is neither outside nor blocked can go on, or another one can
that has the mutex. -/
theorem Inv.progress (h : Inv m s) {i : ι} (hout : s.pc i ≠ .out)
    (hblocked : ∀ o, s.pc i ≠ .blocked o) :
    ∃ j, (step m s (.test j)).isSome ∨ (step m s (.block j)).isSome ∨
      (step m s (.relock j)).isSome := by
  cases hlock : s.lock with
  | some j =>
      have hin := (h.lock j).mpr hlock
      refine ⟨j, ?_⟩
      cases hpc : s.pc j with
      | testing o =>
          refine .inl ?_
          simp only [step, hpc]
          split <;> rfl
      | leaving o =>
          refine .inr (.inl ?_)
          simp [step, hpc]
      | out | blocked | woken =>
          rw [hpc] at hin
          cases hin
  | none =>
      have hin : (s.pc i).inside ≠ true := fun hin => by
        have := (h.lock i).mp hin
        rw [hlock] at this
        cases this
      refine ⟨i, .inr (.inr ?_)⟩
      cases hpc : s.pc i with
      | woken o => simp [step, hpc, hlock]
      | testing | leaving => exact absurd (by rw [hpc]; rfl) hin
      | out => exact absurd hpc hout
      | blocked o => exact absurd hpc (hblocked o)

/-- What was logged, without an operation that had to wait while the flag was
still set. -/
def Serial (m : Spec ι ω σ ρ) (x : σ) (s : State ι ω σ ρ) : Prop :=
  s.run = true → Run.play m.ready x s.log = some (s.results, s.shared)

theorem serial_step {x : σ} (h : Serial m x s) {e : Event ι ω} (hstep : step m s e = some s') :
    Serial m x s' := by
  cases e with
  | enter o =>
      obtain ⟨-, -, rfl⟩ := step_enter hstep
      exact h
  | test i =>
      obtain ⟨o, -, ⟨-, -, rfl⟩ | ⟨hgo, rfl⟩⟩ := step_test hstep
      · exact h
      · intro hrun
        have hready : m.waits o s.shared = false := by
          refine hgo.resolve_right fun hstop => ?_
          have hrun' : s.run = true := hrun
          rw [hstop.2] at hrun'
          cases hrun'
        refine Run.play_concat (h hrun) ?_
        rw [Spec.ready, if_neg (by simp [hready])]
        rfl
  | block i =>
      obtain ⟨o, -, rfl⟩ := step_block hstep
      exact h
  | wake i =>
      obtain ⟨o, -, rfl⟩ := step_wake hstep
      exact h
  | relock i =>
      obtain ⟨o, -, -, rfl⟩ := step_relock hstep
      exact h
  | stop =>
      obtain rfl := Option.some.inj hstep
      intro hrun
      cases hrun
  | broadcast =>
      obtain ⟨-, -, rfl⟩ := step_broadcast hstep
      exact h

/-- **One after the other**: as long as the flag is set, whatever the threads do
is a sequential run of the operations, none of which has to wait. -/
theorem serial_exec {x : σ} {es : List (Event ι ω)}
    (h : Run.exec (step m) (.init x) es = some s) : Serial m x s :=
  Run.exec_invariant_true (Serial m x) (fun _ _ _ hI => serial_step hI) (fun _ => rfl) h

end

end Monitor
