import Vmc.Lib.Run
import Vmc.Session.Session

/-!
# Vmc.Session.Termination

Runs of the session's interface, and what a request to terminate does to the
rest of the run.

`TERMINATING` has no way out, but only `ACTIVE` and `DEGRADED` lead into it: a
request that finds the session discovering, connecting, reconnecting or offline
is rejected and forgotten, and the next link events bring the session up.
-/

namespace Vmc

open Run

/-! ## calls -/

/-- A call of the session's interface, with what it is given. -/
inductive SessionCall where
  | start
  | stop
  | step (nowMs nowUs : UInt64)
  | onRx (packet : List UInt8) (nowMs : UInt64)
  | dispatch (ev : SessionEvent)
deriving DecidableEq, Repr

/-- The context after a call and the datagrams it sends. -/
def SessionCtx.call (sc : SessionCtx) : SessionCall → SessionCtx × List (List UInt8)
  | .start => ((vmcSessionStart sc).2, [])
  | .stop => ((vmcSessionStop sc).2, [])
  | .step nowMs nowUs => (vmcSessionStep sc nowMs nowUs).2
  | .onRx packet nowMs => ((vmcSessionOnRx sc packet nowMs).2, [])
  | .dispatch ev => ((sc.dispatch ev).2, [])

/-- The event the caller asks for. -/
def SessionCall.request : SessionCall → Option SessionEvent
  | .start => some .boot
  | .stop => some .userTerminate
  | .dispatch ev => some ev
  | .step _ _ | .onRx _ _ => none

def SessionCall.Boots (c : SessionCall) : Prop := c.request = some .boot

def SessionCall.Terminates (c : SessionCall) : Prop :=
  c.request = some .userTerminate ∨ c.request = some .securityTerm

instance (c : SessionCall) : Decidable c.Boots := inferInstanceAs (Decidable (_ = _))

instance (c : SessionCall) : Decidable c.Terminates := inferInstanceAs (Decidable (_ ∨ _))

/-- The states that stream: keepalives are sent and the link is watched. -/
def SessionState.Streaming (st : SessionState) : Prop := st = .active ∨ st = .degraded

/-- The states in which a request to terminate is not taken. -/
def SessionState.Deaf (st : SessionState) : Prop := ¬ st.Streaming ∧ st ≠ .terminating

instance (st : SessionState) : Decidable st.Streaming := inferInstanceAs (Decidable (_ ∨ _))

instance (st : SessionState) : Decidable st.Deaf := inferInstanceAs (Decidable (_ ∧ _))

/-! ## what one event does -/

theorem dispatch_terminating {s : VmcSession} (h : s.state = .terminating) (ev : SessionEvent) :
    (vmcSessionDispatch s ev).2 = s := by
  obtain ⟨state, retries⟩ := s
  subst h
  cases ev <;> rfl

/-- A request is taken while streaming, and ignored by the states that are deaf
to it. -/
theorem dispatch_terminate {s : VmcSession} {ev : SessionEvent}
    (hev : ev = .userTerminate ∨ ev = .securityTerm) :
    (vmcSessionDispatch s ev).2.state = if s.state.Deaf then s.state else .terminating := by
  obtain ⟨state, retries⟩ := s
  rcases hev with rfl | rfl <;> cases state <;> rfl

/-- Without streaming first, no event leads into `TERMINATING`. -/
theorem dispatch_deaf {s : VmcSession} (h : s.state.Deaf) (ev : SessionEvent) :
    (vmcSessionDispatch s ev).2.state ≠ .terminating := by
  obtain ⟨state, retries⟩ := s
  cases state <;> cases ev <;>
    simp_all [vmcSessionDispatch, SessionState.Deaf, SessionState.Streaming]

@[simp] theorem dispatch_sm (sc : SessionCtx) (ev : SessionEvent) :
    (sc.dispatch ev).2.sm = (vmcSessionDispatch sc.sm ev).2 := rfl

@[simp] theorem vmcSessionOnRx_sm (sc : SessionCtx) (packet : List UInt8) (nowMs : UInt64) :
    (vmcSessionOnRx sc packet nowMs).2.sm = sc.sm := by
  unfold vmcSessionOnRx
  split
  · split <;> rfl
  · rfl

/-- Outside the streaming states a step does nothing. -/
theorem vmcSessionStep_idle {sc : SessionCtx} (h : ¬ sc.sm.state.Streaming)
    (nowMs nowUs : UInt64) : (vmcSessionStep sc nowMs nowUs).2 = (sc, []) := by
  unfold vmcSessionStep
  split
  · next ha => exact absurd (.inl ha) h
  · next hd => exact absurd (.inr hd) h
  · rfl

/-! ## what one call does -/

/-- Nothing escapes the terminal state, and nothing is sent from it. -/
theorem call_terminating {sc : SessionCtx} (h : sc.sm.state = .terminating) (c : SessionCall) :
    (sc.call c).1.sm.state = .terminating ∧ (sc.call c).2 = [] := by
  have hidle : ¬ sc.sm.state.Streaming := by rw [h]; decide
  cases c with
  | start => exact ⟨by simp [SessionCtx.call, vmcSessionStart, dispatch_terminating h, h], rfl⟩
  | stop => exact ⟨by simp [SessionCtx.call, vmcSessionStop, dispatch_terminating h, h], rfl⟩
  | step nowMs nowUs => simp [SessionCtx.call, vmcSessionStep_idle hidle, h]
  | onRx packet nowMs => simp [SessionCtx.call, h]
  | dispatch ev => exact ⟨by simp [SessionCtx.call, dispatch_terminating h, h], rfl⟩

/-- The session after a call that terminates: the request was heard, or nothing
has changed. -/
theorem call_terminates {sc : SessionCtx} {c : SessionCall} (hc : c.Terminates) :
    (sc.call c).1.sm.state = if sc.sm.state.Deaf then sc.sm.state else .terminating := by
  cases c with
  | stop => exact dispatch_terminate (.inl rfl)
  | dispatch ev =>
      exact dispatch_terminate (by simpa [SessionCall.Terminates, SessionCall.request] using hc)
  | start => simp [SessionCall.Terminates, SessionCall.request] at hc
  | step nowMs nowUs => simp [SessionCall.Terminates, SessionCall.request] at hc
  | onRx packet nowMs => simp [SessionCall.Terminates, SessionCall.request] at hc

theorem call_deaf {sc : SessionCtx} (h : sc.sm.state.Deaf) (c : SessionCall) :
    (sc.call c).1.sm.state ≠ .terminating := by
  cases c with
  | start => exact dispatch_deaf h .boot
  | stop => exact dispatch_deaf h .userTerminate
  | step nowMs nowUs => simpa [SessionCtx.call, vmcSessionStep_idle h.1] using h.2
  | onRx packet nowMs => simpa [SessionCtx.call] using h.2
  | dispatch ev => exact dispatch_deaf h ev

/-! ## runs -/

/-- A run of the interface: the context, whether `BOOT` was asked for, whether
termination was asked for since, and what was sent after that. -/
structure TermRun where
  sc : SessionCtx
  booted : Bool
  ended : Bool
  late : List (List UInt8)
deriving DecidableEq, Repr

namespace TermRun

def init (cfg : SessionConfig) (nowMs : UInt64) : TermRun :=
  ⟨vmcSessionCtxInit cfg nowMs, false, false, []⟩

def call (s : TermRun) (c : SessionCall) : TermRun where
  sc := (s.sc.call c).1
  booted := s.booted || decide c.Boots
  ended := s.ended || (s.booted && decide c.Terminates)
  late := if s.ended then s.late ++ (s.sc.call c).2 else s.late

/-- Every call is possible at any time. -/
def step (s : TermRun) (c : SessionCall) : Option TermRun := some (s.call c)

/-- **Final**: after the request the session does not stream and no keepalive
has been sent. -/
def Final (s : TermRun) : Prop :=
  s.ended = true → ¬ s.sc.sm.state.Streaming ∧ s.late = []

instance (s : TermRun) : Decidable s.Final := inferInstanceAs (Decidable (_ → _))

/-- A request to terminate, once booted, finds the session in a state that takes
it. -/
def Heard (s : TermRun) (c : SessionCall) : Prop :=
  s.booted = true → c.Terminates → ¬ s.sc.sm.state.Deaf

instance (s : TermRun) (c : SessionCall) : Decidable (s.Heard c) :=
  inferInstanceAs (Decidable (_ → _ → _))

/-- What requests that were heard leave behind. -/
def Ended (s : TermRun) : Prop :=
  s.late = [] ∧ (s.ended = true → s.sc.sm.state = .terminating)

theorem Ended.final {s : TermRun} (h : s.Ended) : s.Final := by
  intro he
  exact ⟨by rw [h.2 he]; decide, h.1⟩

theorem ended_init (cfg : SessionConfig) (nowMs : UInt64) : (init cfg nowMs).Ended :=
  ⟨rfl, fun h => by cases h⟩

/-- **Step**: a heard request leads into the terminal state, which no call
leaves. -/
theorem ended_call {s : TermRun} {c : SessionCall} (hs : s.Ended) (hc : s.Heard c) :
    (s.call c).Ended := by
  cases hold : s.ended with
  | true =>
      obtain ⟨hst, hsent⟩ := call_terminating (hs.2 hold) c
      exact ⟨by simp [call, hold, hs.1, hsent], fun _ => hst⟩
  | false =>
      refine ⟨by simp [call, hold, hs.1], fun he => ?_⟩
      simp only [call, hold, Bool.false_or, Bool.and_eq_true, decide_eq_true_eq] at he
      show (s.sc.call c).1.sm.state = .terminating
      rw [call_terminates he.2, if_neg (hc he.1 he.2)]

/-! ## requests that are not heard -/

/-- Termination was asked for, and the session is in none of the states it would
have led to. -/
def Missed (s : TermRun) : Prop := s.ended = true ∧ s.sc.sm.state.Deaf

theorem missed_call_of_not_heard {s : TermRun} {c : SessionCall} (h : ¬ s.Heard c) :
    (s.call c).Missed := by
  simp only [Heard, Classical.not_imp, not_not] at h
  obtain ⟨hb, hc, hdeaf⟩ := h
  refine ⟨by simp [call, hb, hc], ?_⟩
  show (s.sc.call c).1.sm.state.Deaf
  rw [call_terminates hc, if_pos hdeaf]
  exact hdeaf

/-- As long as the run looks final, a missed request stays missed. -/
theorem missed_call {s : TermRun} (hs : s.Missed) (c : SessionCall) (hf : (s.call c).Final) :
    (s.call c).Missed := by
  have he : (s.call c).ended = true := by simp [call, hs.1]
  exact ⟨he, (hf he).1, call_deaf hs.2 c⟩

theorem missed_run {s t : TermRun} {cs : List SessionCall} (hs : s.Missed)
    (hf : Always step Final s cs) (hrun : exec step s cs = some t) : t.Missed := by
  induction cs generalizing s with
  | nil =>
      obtain rfl := Option.some.inj hrun
      exact hs
  | cons c cs ih =>
      have hrest := (always_cons.mp hf).2 (s.call c) rfl
      have hnow := hrest [] (s.call c) List.nil_prefix rfl
      exact ih (missed_call hs c hnow) hrest hrun

/-- The link comes up: what brings a session from any of the deaf states back to
streaming. -/
def linkUp : List SessionCall := [.start, .dispatch .mapperResp, .dispatch .transportUp]

theorem not_final_linkUp {s : TermRun} (hs : s.Missed) :
    ∃ t, exec step s linkUp = some t ∧ ¬ t.Final := by
  refine ⟨_, rfl, fun hf => ?_⟩
  have he : (((s.call .start).call (.dispatch .mapperResp)).call (.dispatch .transportUp)).ended =
      true := by simp [call, hs.1]
  refine (hf he).1 (.inl ?_)
  obtain ⟨⟨⟨state, retries⟩, cfg, a, b, c, d, e⟩, booted, ended, late⟩ := s
  have hdeaf : state.Deaf := hs.2
  cases state with
  | active => exact absurd (.inl rfl) hdeaf.1
  | degraded => exact absurd (.inr rfl) hdeaf.1
  | terminating => exact absurd rfl hdeaf.2
  | offline | discover | connecting | reconnecting => rfl

/-- After a missed request the next link events break the promise. -/
theorem not_always_of_missed {s : TermRun} (hs : s.Missed) (cs : List SessionCall) :
    ¬ Always step Final s (cs ++ linkUp) := by
  intro h
  obtain ⟨t, ht⟩ : ∃ t, exec step s cs = some t := ⟨_, exec_total call s cs⟩
  have hfinal : Always step Final s cs :=
    fun pre u hpre => h pre u (hpre.trans (List.prefix_append cs linkUp))
  have hmissed := missed_run hs hfinal ht
  obtain ⟨u, hu, hbad⟩ := not_final_linkUp hmissed
  exact hbad (h (cs ++ linkUp) u (List.prefix_refl _) (exec_append_of step ht hu))

end TermRun

/-! ## finality -/

/-- Calls that do not ask for termination meet the condition. -/
theorem along_heard_of_no_request {cs : List SessionCall} (h : ∀ c ∈ cs, ¬ c.Terminates)
    (s : TermRun) : Along TermRun.step TermRun.Heard s cs := by
  induction cs generalizing s with
  | nil => trivial
  | cons c cs ih =>
      exact ⟨fun _ hc => absurd hc (h c (by simp)),
        fun t _ => ih (fun c' hc' => h c' (List.mem_cons_of_mem c hc')) t⟩

theorem always_final_iff_along_heard {s : TermRun} (hs : s.Ended) (calls : List SessionCall) :
    (∀ rest, (∀ c ∈ rest, ¬ c.Terminates) →
        Always TermRun.step TermRun.Final s (calls ++ rest)) ↔
      Along TermRun.step TermRun.Heard s calls := by
  constructor
  · intro h
    induction calls generalizing s with
    | nil => trivial
    | cons c cs ih =>
        have hrest := fun rest hr => (always_cons.mp (h rest hr)).2 (s.call c) rfl
        have hheard : s.Heard c := by
          by_contra hno
          exact TermRun.not_always_of_missed (TermRun.missed_call_of_not_heard hno) cs
            (hrest TermRun.linkUp (by decide))
        refine ⟨hheard, fun t ht => ?_⟩
        obtain rfl := Option.some.inj ht
        exact ih (TermRun.ended_call hs hheard) hrest
  · intro h rest hr pre t hpre ht
    have hall : Along TermRun.step TermRun.Heard s (calls ++ rest) :=
      along_append.mpr ⟨h, fun t _ => along_heard_of_no_request hr t⟩
    obtain ⟨post, hpost⟩ := hpre
    rw [← hpost, along_append] at hall
    refine (exec_invariant TermRun.Ended ?_ hs hall.1 ht).final
    intro s c s' hI hok hstep
    obtain rfl := Option.some.inj hstep
    exact TermRun.ended_call hI hok

/-- **Termination is final exactly if every request is heard**: whatever calls
follow that do not ask again, no state reached after a request streams and no
keepalive is sent, if and only if each request made after the first `BOOT` finds
the session `ACTIVE`, `DEGRADED` or already `TERMINATING`. -/
theorem termination_final_iff (cfg : SessionConfig) (nowMs : UInt64) (calls : List SessionCall) :
    (∀ rest, (∀ c ∈ rest, ¬ c.Terminates) →
        Always TermRun.step TermRun.Final (TermRun.init cfg nowMs) (calls ++ rest)) ↔
      Along TermRun.step TermRun.Heard (TermRun.init cfg nowMs) calls :=
  always_final_iff_along_heard (TermRun.ended_init cfg nowMs) calls

/-- Every request after the first `BOOT` is final. -/
def TerminationFinal : Prop :=
  ∀ cfg nowMs calls, Always TermRun.step TermRun.Final (TermRun.init cfg nowMs) calls

/-- A security termination while reconnecting is rejected; the transport comes
up, the session streams again and sends a keepalive. -/
theorem terminationFinal_fails : ¬ TerminationFinal := by
  intro h
  have hbad := h ⟨2000, 5000⟩ 0 [.start, .dispatch .mapperResp, .dispatch .transportUp,
    .step 5001 5001000, .dispatch .securityTerm, .dispatch .transportUp, .step 7001 7001000]
    _ _ (List.prefix_refl _) rfl
  revert hbad
  decide +kernel

end Vmc
