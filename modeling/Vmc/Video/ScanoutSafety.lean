import Vmc.Video.DrmScanout

/-!
# Vmc.Video.ScanoutSafety

The scan-out shared by the decode worker and the present worker, against the
kernel's side of the display.

The kernel takes one flip at a time, carries it out at a vertical blank and
reports it with an event that may be read much later, several at once.  Until
then the program's idea of what is on screen lags behind; the invariant
(`ScanoutSys.Agrees`) says by how much, and that it errs on the safe side.
-/

namespace Vmc

/-! ## the display -/

/-- The kernel's side: the buffer scanned out, the flip accepted and not yet
done, and the flips done whose events have not been read, with their times. -/
structure Kms where
  scanned : Nat
  pending : Option Nat
  events : List (Nat × UInt64)
deriving DecidableEq, Repr

/-- `drmModePageFlip`, errors aside: one flip at a time. -/
def Kms.pageFlip (k : Kms) (idx : Nat) : FlipAnswer × Kms :=
  match k.pending with
  | none => (.ok, { k with pending := some idx })
  | some _ => (.ebusy, k)

/-- The vertical blank at which the pending flip takes place. -/
def Kms.vblank (k : Kms) (ts : UInt64) : Option Kms :=
  k.pending.map fun idx => ⟨idx, none, k.events ++ [(idx, ts)]⟩

/-- Where the present worker is. -/
inductive Presenter where
  | idle
  | calling (idx tries : Nat)
  | returned (idx : Nat)
deriving DecidableEq, Repr

/-- The two workers on one scan-out: buffers acquired and not yet passed to
`vmc_drm_scanout_present`, in order, and the call under way.  `acquired` is not
in the program: the buffers acquired that have not been shown and replaced
since. -/
structure ScanoutSys where
  drm : DrmScanout
  kms : Kms
  handover : List Nat
  presenter : Presenter
  acquired : List Nat
deriving DecidableEq

def ScanoutSys.init (nbufs : Nat) : ScanoutSys :=
  ⟨vmcDrmScanoutInit nbufs, ⟨0, none, []⟩, [], .idle, []⟩

inductive ScanoutOp where
  /-- The decode worker asks for a buffer. -/
  | nextIdx
  /-- The present worker takes the next buffer to show. -/
  | startPresent
  /-- An attempt to flip. -/
  | pageFlip (nowUs : UInt64)
  /-- An attempt that fails for another reason than a flip pending. -/
  | flipError
  /-- After `VMC_ERR_AGAIN` the same buffer is presented again, or given up. -/
  | retry
  | giveUp
  /-- The pending flip takes place. -/
  | vblank (ts : UInt64)
  /-- The handler runs on the oldest event. -/
  | event
deriving DecidableEq, Repr

/-- What the attempt came to for the present worker. -/
def Presenter.after (idx tries : Nat) : Option Status → Presenter
  | none => .calling idx (tries + 1)
  | some .again => .returned idx
  | some _ => .idle

/-- One step; `none` if it is not possible. -/
def scanoutStep (s : ScanoutSys) : ScanoutOp → Option ScanoutSys
  | .nextIdx =>
      match vmcDrmScanoutNextIdx s.drm with
      | (some idx, drm) => some { s with
          drm := drm
          handover := s.handover ++ [idx]
          acquired := s.acquired ++ [idx] }
      | (none, drm) => some { s with drm := drm }
  | .startPresent =>
      match s.presenter, s.handover with
      | .idle, idx :: rest => some { s with handover := rest, presenter := .calling idx 0 }
      | _, _ => none
  | .pageFlip nowUs =>
      match s.presenter with
      | .calling idx tries =>
          let (answer, kms) := s.kms.pageFlip idx
          let (drm, st) := vmcDrmScanoutPresent s.drm idx tries answer nowUs
          some { s with drm := drm, kms := kms, presenter := .after idx tries st }
      | _ => none
  | .flipError =>
      match s.presenter with
      | .calling idx tries =>
          let (drm, st) := vmcDrmScanoutPresent s.drm idx tries .error 0
          some { s with drm := drm, presenter := .after idx tries st }
      | _ => none
  | .retry =>
      match s.presenter with
      | .returned idx => some { s with presenter := .calling idx 0 }
      | _ => none
  | .giveUp =>
      match s.presenter with
      | .returned _ => some { s with presenter := .idle }
      | _ => none
  | .vblank ts =>
      (s.kms.vblank ts).map fun kms =>
        { s with kms := kms, acquired := s.acquired.filter (· ≠ s.kms.scanned) }
  | .event =>
      match s.kms.events with
      | (_, ts) :: rest => some { s with
          drm := flipHandler s.drm ts
          kms := { s.kms with events := rest } }
      | [] => none

/-- What a worker holds. -/
def Presenter.holds : Presenter → List Nat
  | .idle => []
  | .calling idx _ | .returned idx => [idx]

/-- Workers and kernel agree: the flips recorded are those accepted, what the
display shows is the last one done, and whatever was shown before that has been
replaced. -/
structure ScanoutSys.Agrees (s : ScanoutSys) : Prop where
  owns : s.drm.Owns (s.presenter.holds ++ s.handover)
  flips : s.drm.flips = s.kms.events.map (·.1) ++ s.kms.pending.toList
  shown : ∃ old, s.drm.onScreen = some old ∧
    (old :: s.kms.events.map (·.1)).getLast? = some s.kms.scanned ∧
    ∀ i ∈ (old :: s.kms.events.map (·.1)).dropLast, i ∉ s.acquired
  acquired : ∀ i ∈ s.acquired, s.drm.busy i = true

namespace ScanoutSys

variable {s s' : ScanoutSys}

theorem agrees_init {nbufs : Nat} (hpos : 0 < nbufs) (hnb : nbufs ≤ vmcDrmMaxBufs) :
    (init nbufs).Agrees := by
  refine ⟨DrmScanout.owns_init hpos hnb, ?_, ⟨0, rfl, rfl, by simp [init]⟩, by simp [init]⟩
  simp [init, DrmScanout.flips, DrmScanout.flipCount, vmcDrmScanoutInit, vmcDrmFlipHistory]

/-- Everything the display shows or has shown without our knowing is owned. -/
theorem Agrees.shown_owned (h : s.Agrees) {old : Nat} (hold : s.drm.onScreen = some old) {i : Nat}
    (hi : i ∈ old :: s.kms.events.map (·.1)) :
    i ∈ s.drm.owned (s.presenter.holds ++ s.handover) := by
  rw [DrmScanout.owned, h.flips, hold]
  obtain rfl | hi := List.mem_cons.mp hi
  · simp
  · exact List.mem_append_left _ (List.mem_append_right _ (List.mem_append_left _ hi))

/-- A step that changes neither the scan-out nor the display, and gives up no
buffer but for good. -/
theorem Agrees.of_holds (h : s.Agrees) (hdrm : s'.drm = s.drm) (hkms : s'.kms = s.kms)
    (hacq : s'.acquired = s.acquired)
    (hheld : (s'.presenter.holds ++ s'.handover).Sublist (s.presenter.holds ++ s.handover)) :
    s'.Agrees := by
  refine ⟨?_, ?_, ?_, ?_⟩
  · rw [hdrm]
    exact h.owns.sublist hheld
  · rw [hdrm, hkms]
    exact h.flips
  · rw [hdrm, hkms, hacq]
    exact h.shown
  · rw [hdrm, hacq]
    exact h.acquired

theorem agrees_nextIdx (h : s.Agrees) (hstep : scanoutStep s .nextIdx = some s') : s'.Agrees := by
  cases hidx : (vmcDrmScanoutNextIdx s.drm).1 with
  | none =>
      have hdrm : (vmcDrmScanoutNextIdx s.drm).2 = s.drm := by
        unfold vmcDrmScanoutNextIdx at hidx ⊢
        split at hidx
        · contradiction
        · rfl
      have heq : vmcDrmScanoutNextIdx s.drm = (none, s.drm) := Prod.ext hidx hdrm
      simp only [scanoutStep, heq] at hstep
      obtain rfl := Option.some.inj hstep
      exact h
  | some idx =>
      obtain ⟨hfresh, -, -, howns, hflips, hscreen, hbusy⟩ := DrmScanout.owns_nextIdx h.owns hidx
      have heq : vmcDrmScanoutNextIdx s.drm = (some idx, (vmcDrmScanoutNextIdx s.drm).2) :=
        Prod.ext hidx rfl
      rw [scanoutStep, heq] at hstep
      obtain rfl := Option.some.inj hstep
      obtain ⟨old, hold, hlast, hgone⟩ := h.shown
      refine ⟨?_, hflips.trans h.flips, ⟨old, hscreen.trans hold, hlast, ?_⟩, ?_⟩
      · rw [← List.append_assoc]
        exact howns
      · intro i hi hmem
        obtain hmem | hmem := List.mem_append.mp hmem
        · exact hgone i hi hmem
        · rw [List.mem_singleton.mp hmem] at hi
          exact hfresh (h.shown_owned hold (List.dropLast_subset _ hi))
      · intro i hi
        rw [hbusy]
        obtain hi | hi := List.mem_append.mp hi
        · rw [h.acquired i hi, Bool.or_true]
        · rw [List.mem_singleton.mp hi, decide_eq_true rfl, Bool.true_or]

theorem agrees_pageFlip (h : s.Agrees) {nowUs : UInt64}
    (hstep : scanoutStep s (.pageFlip nowUs) = some s') : s'.Agrees := by
  cases hp : s.presenter with
  | idle | returned idx => simp [scanoutStep, hp] at hstep
  | calling idx tries =>
      have howns := h.owns
      rw [hp] at howns
      have hlt : ¬ s.drm.nbufs ≤ idx :=
        not_le.mpr (howns.bound idx (by simp [DrmScanout.owned, Presenter.holds]))
      cases hk : s.kms.pending with
      | none =>
          simp only [scanoutStep, hp, Kms.pageFlip, hk, vmcDrmScanoutPresent, if_neg hlt] at hstep
          obtain rfl := Option.some.inj hstep
          obtain ⟨howns', hflips, hscreen, hbusy⟩ := DrmScanout.owns_submitFlip howns nowUs
          have hold := h.flips
          rw [hk] at hold
          refine ⟨howns', ?_, ?_, ?_⟩
          · rw [hflips, hold]
            simp
          · rw [hscreen]
            exact h.shown
          · intro i hi
            rw [hbusy]
            exact h.acquired i hi
      | some p =>
          simp only [scanoutStep, hp, Kms.pageFlip, hk, vmcDrmScanoutPresent, if_neg hlt] at hstep
          obtain rfl := Option.some.inj hstep
          refine h.of_holds rfl rfl rfl ?_
          rw [hp]
          split <;> exact List.Sublist.refl _

theorem agrees_flipError (h : s.Agrees) (hstep : scanoutStep s .flipError = some s') :
    s'.Agrees := by
  cases hp : s.presenter with
  | idle | returned idx => simp [scanoutStep, hp] at hstep
  | calling idx tries =>
      have hcall : ∃ st, vmcDrmScanoutPresent s.drm idx tries .error 0 = (s.drm, some st) ∧
          Presenter.after idx tries (some st) = .idle := by
        unfold vmcDrmScanoutPresent
        split
        · exact ⟨_, rfl, rfl⟩
        · exact ⟨_, rfl, rfl⟩
      obtain ⟨st, hcall, hafter⟩ := hcall
      simp only [scanoutStep, hp, hcall, hafter] at hstep
      obtain rfl := Option.some.inj hstep
      refine h.of_holds rfl rfl rfl ?_
      exact List.sublist_append_right _ _

theorem agrees_vblank (h : s.Agrees) {ts : UInt64}
    (hstep : scanoutStep s (.vblank ts) = some s') : s'.Agrees := by
  cases hk : s.kms.pending with
  | none => simp [scanoutStep, Kms.vblank, hk] at hstep
  | some idx =>
      simp only [scanoutStep, Kms.vblank, hk, Option.map_some] at hstep
      obtain rfl := Option.some.inj hstep
      obtain ⟨old, hold, hlast, hgone⟩ := h.shown
      have hflips := h.flips
      rw [hk] at hflips
      refine ⟨h.owns, by rw [hflips]; simp, ⟨old, hold, ?_, ?_⟩, ?_⟩
      · rw [List.map_append, ← List.cons_append]
        exact List.getLast?_append_cons _ _ _
      · rw [List.map_append, ← List.cons_append]
        change ∀ i ∈ ((old :: s.kms.events.map (·.1)) ++ [idx]).dropLast, _
        rw [List.dropLast_concat]
        intro i hi hmem
        obtain ⟨hmem, hne⟩ := List.mem_filter.mp hmem
        have hne' : i ≠ s.kms.scanned := by simpa using hne
        -- all but the last were gone already, and the last is replaced now
        rw [← List.dropLast_append_getLast? _ hlast] at hi
        obtain hi | hi := List.mem_append.mp hi
        · exact hgone i hi hmem
        · exact hne' (List.mem_singleton.mp hi)
      · intro i hi
        exact h.acquired i (List.mem_filter.mp hi).1

theorem agrees_event (h : s.Agrees) (hstep : scanoutStep s .event = some s') : s'.Agrees := by
  cases he : s.kms.events with
  | nil => simp [scanoutStep, he] at hstep
  | cons e rest =>
      simp only [scanoutStep, he] at hstep
      obtain rfl := Option.some.inj hstep
      obtain ⟨old, hold, hlast, hgone⟩ := h.shown
      have hflips := h.flips
      rw [he, List.map_cons] at hflips hlast hgone
      obtain ⟨howns, hflips', hscreen, hbusy⟩ := DrmScanout.owns_flipHandler h.owns hflips e.2
      refine ⟨howns, hflips', ⟨e.1, hscreen, ?_, ?_⟩, ?_⟩
      · rwa [List.getLast?_cons_cons] at hlast
      · intro i hi
        refine hgone i ?_
        rw [List.dropLast_cons_of_ne_nil (by simp)]
        exact List.mem_cons_of_mem _ hi
      · intro i hi
        have hne : s.drm.onScreen ≠ some i := by
          rw [hold]
          rintro heq
          obtain rfl := Option.some.inj heq
          exact hgone old (by simp) hi
        rw [hbusy, h.acquired i hi, Bool.and_true, decide_eq_true hne]

theorem agrees_step {op : ScanoutOp} (h : s.Agrees) (hstep : scanoutStep s op = some s') :
    s'.Agrees := by
  cases op with
  | nextIdx => exact agrees_nextIdx h hstep
  | startPresent =>
      simp only [scanoutStep] at hstep
      split at hstep
      · next idx rest hp hh =>
        obtain rfl := Option.some.inj hstep
        refine h.of_holds rfl rfl rfl ?_
        rw [hp, hh]
        exact List.Sublist.refl _
      · contradiction
  | pageFlip nowUs => exact agrees_pageFlip h hstep
  | flipError => exact agrees_flipError h hstep
  | retry =>
      simp only [scanoutStep] at hstep
      split at hstep
      · next idx hp =>
        obtain rfl := Option.some.inj hstep
        refine h.of_holds rfl rfl rfl ?_
        rw [hp]
        exact List.Sublist.refl _
      · contradiction
  | giveUp =>
      simp only [scanoutStep] at hstep
      split at hstep
      · obtain rfl := Option.some.inj hstep
        exact h.of_holds rfl rfl rfl (List.sublist_append_right _ _)
      · contradiction
  | vblank ts => exact agrees_vblank h hstep
  | event => exact agrees_event h hstep

end ScanoutSys

/-- **Scan-out safety**, in every state of every run: a buffer handed out is not
the one the display scans out, not submitted for a flip that has not taken
place, and not acquired before without having been shown and replaced since;
and after an event the buffer noted as on screen is the one that event is
about. -/
theorem scanout_safe (nbufs : Nat) (hlo : 2 ≤ nbufs) (hhi : nbufs ≤ vmcDrmMaxBufs)
    (ops : List ScanoutOp) (s : ScanoutSys)
    (hrun : Run.exec scanoutStep (.init nbufs) ops = some s) :
    (∀ idx, (vmcDrmScanoutNextIdx s.drm).1 = some idx →
      s.kms.scanned ≠ idx ∧ s.kms.pending ≠ some idx ∧ idx ∉ s.acquired) ∧
    (∀ idx ts rest, s.kms.events = (idx, ts) :: rest →
      ∃ s', scanoutStep s .event = some s' ∧ s'.drm.onScreen = some idx) := by
  have h : s.Agrees :=
    Run.exec_invariant_true ScanoutSys.Agrees (fun _ _ _ => ScanoutSys.agrees_step)
      (ScanoutSys.agrees_init (by omega) hhi) hrun
  obtain ⟨old, hold, hlast, hgone⟩ := h.shown
  constructor
  · intro idx hidx
    obtain ⟨hfresh, -, hfree, -⟩ := DrmScanout.owns_nextIdx h.owns hidx
    refine ⟨?_, ?_, ?_⟩
    · rintro rfl
      exact hfresh (h.shown_owned hold (List.mem_of_getLast? hlast))
    · intro hp
      refine hfresh (List.mem_append_left _ (List.mem_append_right _ ?_))
      rw [h.flips, hp]
      simp
    · intro hmem
      rw [h.acquired idx hmem] at hfree
      contradiction
  · intro idx ts rest he
    have hflips := h.flips
    rw [he, List.map_cons] at hflips
    obtain ⟨-, -, hscreen, -⟩ := DrmScanout.owns_flipHandler h.owns hflips ts
    exact ⟨{ s with drm := flipHandler s.drm ts, kms := { s.kms with events := rest } },
      by simp only [scanoutStep, he], hscreen⟩

/-- Two flips done, their events still unread, and a third pending: of five
buffers the last one is handed out. -/
def lateEventsRun : List ScanoutOp :=
  [.nextIdx, .nextIdx, .nextIdx, .startPresent, .pageFlip 1, .vblank 2, .startPresent, .pageFlip 3,
    .vblank 4, .startPresent, .pageFlip 5]

theorem scanout_safe_late_events :
    ∃ s, Run.exec scanoutStep (.init 5) lateEventsRun = some s ∧
      (vmcDrmScanoutNextIdx s.drm).1 = some 4 ∧ s.kms.scanned ≠ 4 ∧ s.kms.pending ≠ some 4 ∧
      4 ∉ s.acquired := by
  have hrun : (Run.exec scanoutStep (.init 5) lateEventsRun).map
      (fun s => (vmcDrmScanoutNextIdx s.drm).1) = some (some 4) := by
    decide +kernel
  obtain ⟨s, hs, hidx⟩ := Option.map_eq_some_iff.mp hrun
  exact ⟨s, hs, hidx, (scanout_safe 5 (by decide) (by decide) lateEventsRun s hs).1 4 hidx⟩

end Vmc
