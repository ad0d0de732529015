import Vmc.Client.DecodeWorker
import Vmc.Video.ScanoutSafety

/-!
# Vmc.Client.Vrender

The `vrender` records of the present worker (`apps/thinclient/main.c`) against
the flips the display has completed.

An iteration of the present worker reads flip events before the flip, while the
flip is refused, and after it, and at its end looks at `last_completed`: if a
buffer is noted there it emits a record for it and clears the field.  Two events
read in one iteration leave one note, and the field starts out as buffer 0, put
there by the `memset` of `vmc_drm_scanout_init`.  So records and flips agree
exactly as long as no iteration reads two events, and the first reads one
(`vrender_iff`).

The workers and the display are those of `Vmc.Video.ScanoutSafety`; added here
are `g_vmeta`, the iterations, and the records.
-/

namespace Vmc

/-! ## the present worker's iterations -/

/-- A flip whose event was handled: its buffer, the time of its vertical blank,
and the identity its buffer had when the flip was accepted. -/
structure FlipDone where
  buf : Nat
  vblankUs : UInt64
  id : Vmeta
deriving DecidableEq, Repr

/-- What a `vrender` record is made from. -/
structure Vrender where
  bufIdx : Nat
  vblankUs : UInt64
  submitUs : UInt64
  id : Vmeta
  repeated : Bool
deriving DecidableEq, Repr

/-- The flip a record stands for. -/
def Vrender.flip (v : Vrender) : FlipDone := ⟨v.bufIdx, v.vblankUs, v.id⟩

/-- The workers with `g_vmeta`, `g_last_presented_buf` and whether an iteration
of the present worker is under way.  The last four fields are not in the
program: the events handled in this iteration, the flips accepted whose events
are to come, those whose events were handled, and the records emitted. -/
structure VrenderLoop where
  sys : ScanoutSys
  vmeta : Nat → Vmeta
  lastPresentedBuf : Option Nat
  presenting : Bool
  drained : Nat
  submitted : List (Nat × Vmeta)
  completed : List FlipDone
  vrenders : List Vrender

def VrenderLoop.init (nbufs : Nat) : VrenderLoop :=
  ⟨.init nbufs, fun _ => ⟨0, 0, 0, 0, 0, 0⟩, none, false, 0, [], [], []⟩

inductive VrenderOp where
  /-- The decode worker notes the identity of the frame in a buffer it has not
  passed on. -/
  | note (idx : Nat) (id : Vmeta)
  | scanout (op : ScanoutOp)
  /-- The present worker looks at `last_completed` and is done. -/
  | endIteration
deriving DecidableEq, Repr

/-- The record for a completed buffer. -/
def VrenderLoop.vrender (s : VrenderLoop) (cb : Nat) : Vrender where
  bufIdx := cb
  vblankUs := s.sys.drm.lastFlipTsUs
  submitUs := (s.sys.drm.bufs[cb]?.map (·.submitWallUs)).getD 0
  id := s.vmeta cb
  repeated := s.lastPresentedBuf = some cb

/-- The end of an iteration. -/
def VrenderLoop.report (s : VrenderLoop) : VrenderLoop :=
  match s.sys.drm.lastCompleted with
  | some cb =>
      if cb < vmcDrmMaxBufs then
        { s with
          sys := { s.sys with drm := { s.sys.drm with lastCompleted := none } }
          lastPresentedBuf := some cb
          presenting := false
          drained := 0
          vrenders := s.vrenders ++ [s.vrender cb] }
      else { s with presenting := false, drained := 0 }
  | none => { s with presenting := false, drained := 0 }

/-- The flip an accepted `drmModePageFlip` adds. -/
def VrenderLoop.accepted (s : VrenderLoop) : List (Nat × Vmeta) :=
  match s.sys.presenter, s.sys.kms.pending with
  | .calling idx _, none => [(idx, s.vmeta idx)]
  | _, _ => []

/-- One step; `none` if it is not possible.  Events are read within an iteration
only. -/
def vrenderStep (s : VrenderLoop) : VrenderOp → Option VrenderLoop
  | .note idx id =>
      if idx ∈ s.sys.handover then some { s with vmeta := Function.update s.vmeta idx id } else none
  | .scanout .startPresent =>
      if s.presenting then none
      else (scanoutStep s.sys .startPresent).map fun sys => { s with sys := sys, presenting := true }
  | .scanout .event =>
      match s.presenting, s.sys.kms.events, s.submitted with
      | true, (buf, ts) :: _, (_, id) :: rest =>
          (scanoutStep s.sys .event).map fun sys => { s with
            sys := sys
            drained := s.drained + 1
            submitted := rest
            completed := s.completed ++ [⟨buf, ts, id⟩] }
      | _, _, _ => none
  | .scanout (.pageFlip nowUs) =>
      (scanoutStep s.sys (.pageFlip nowUs)).map fun sys => { s with
        sys := sys
        submitted := s.submitted ++ s.accepted }
  | .scanout op => (scanoutStep s.sys op).map fun sys => { s with sys := sys }
  | .endIteration =>
      match s.presenting, s.sys.presenter with
      | true, .idle => some s.report
      | _, _ => none

/-! ## the promise -/

/-- Between two iterations there is one record for every flip completed, in
order, with its buffer, time and identity. -/
def VrenderLoop.Accounted (s : VrenderLoop) : Prop :=
  s.presenting = false → s.vrenders.map (·.flip) = s.completed

/-- In every run there is one record per completed flip. -/
def OneVrenderPerFlip : Prop :=
  ∀ (nbufs : Nat) (ops : List VrenderOp) (s : VrenderLoop), 2 ≤ nbufs → nbufs ≤ vmcDrmMaxBufs →
    Run.exec vrenderStep (.init nbufs) ops = some s → s.Accounted

/-- The first frame is shown, and its flip completes after the iteration. -/
def firstFrame : List VrenderOp :=
  [.scanout .nextIdx, .note 1 ⟨0, 1, 0, 100, 5, 7⟩, .scanout .startPresent, .scanout (.pageFlip 1),
    .endIteration]

/-- A record for buffer 0 is emitted before any flip has completed. -/
theorem oneVrenderPerFlip_fails : ¬ OneVrenderPerFlip := by
  intro h
  have hrun : (Run.exec vrenderStep (.init 3) firstFrame).map
      (fun s => (s.presenting, s.vrenders.map (·.flip), s.completed)) =
      some (false, [⟨0, 0, ⟨0, 0, 0, 0, 0, 0⟩⟩], []) := by
    decide +kernel
  obtain ⟨s, hs, heq⟩ := Option.map_eq_some_iff.mp hrun
  have hacc := h 3 firstFrame s (by decide) (by decide) hs
  obtain ⟨hidle, hflips⟩ := Prod.mk.inj heq
  obtain ⟨hv, hc⟩ := Prod.mk.inj hflips
  have := hacc hidle
  rw [hv, hc] at this
  contradiction

/-! ## the scan-out under the records -/

/-- What the records depend on is the same in both. -/
structure SameFlips (d d' : DrmScanout) : Prop where
  flips : d'.flips = d.flips
  onScreen : d'.onScreen = d.onScreen
  lastCompleted : d'.lastCompleted = d.lastCompleted
  lastFlipTsUs : d'.lastFlipTsUs = d.lastFlipTsUs

theorem SameFlips.refl (d : DrmScanout) : SameFlips d d := ⟨rfl, rfl, rfl, rfl⟩

theorem sameFlips_nextIdx (d : DrmScanout) : SameFlips d (vmcDrmScanoutNextIdx d).2 := by
  unfold vmcDrmScanoutNextIdx
  split
  · exact ⟨rfl, rfl, rfl, rfl⟩
  · exact .refl d

/-- All steps but an accepted flip and an event leave the flips alone. -/
theorem sameFlips_of_scanoutStep {s s' : ScanoutSys} {op : ScanoutOp} (hflip : ∀ t, op ≠ .pageFlip t)
    (hevent : op ≠ .event) (h : scanoutStep s op = some s') : SameFlips s.drm s'.drm := by
  cases op with
  | nextIdx =>
      have hsame := sameFlips_nextIdx s.drm
      simp only [scanoutStep] at h
      split at h <;> next heq =>
        obtain rfl := Option.some.inj h
        rw [heq] at hsame
        exact hsame
  | startPresent =>
      simp only [scanoutStep] at h
      split at h
      · obtain rfl := Option.some.inj h
        exact .refl _
      · cases h
  | pageFlip nowUs => exact absurd rfl (hflip nowUs)
  | flipError =>
      simp only [scanoutStep] at h
      split at h
      · obtain rfl := Option.some.inj h
        unfold vmcDrmScanoutPresent
        split <;> exact .refl _
      · cases h
  | retry | giveUp =>
      simp only [scanoutStep] at h
      split at h
      · obtain rfl := Option.some.inj h
        exact .refl _
      · cases h
  | vblank ts =>
      obtain ⟨kms, -, rfl⟩ := Option.map_eq_some_iff.mp h
      exact .refl _
  | event => exact absurd rfl hevent

/-- What the handler notes. -/
theorem flipHandler_notes {d : DrmScanout} {held rs : List Nat} {r : Nat} (h : d.Owns held)
    (hflips : d.flips = r :: rs) (ts : UInt64) :
    (flipHandler d ts).lastCompleted = some r ∧ (flipHandler d ts).lastFlipTsUs = ts := by
  obtain ⟨hne, rec, hget, rfl, -⟩ := DrmScanout.flips_cons h.head h.tail hflips
  simp [flipHandler, if_pos hne, hget, DrmScanout.replaceOnScreen]

/-! ## what holds between steps -/

/-- The identities of the flips under way are still in `g_vmeta`; records and
completed flips agree but for those of this iteration; and `last_completed`
holds the last of these, or nothing, or buffer 0 as long as there was no flip. -/
structure VrenderLoop.Inv (s : VrenderLoop) : Prop where
  agrees : s.sys.Agrees
  flips : s.submitted.map (·.1) = s.sys.drm.flips
  ids : ∀ p ∈ s.submitted, s.vmeta p.1 = p.2
  resting : s.presenting = false → s.drained = 0
  accounts : ∃ done, s.completed = s.vrenders.map (·.flip) ++ done ∧ done.length = s.drained
  untouched : s.drained = 0 →
    s.sys.drm.lastCompleted = if s.completed = [] then some 0 else none
  noted : s.drained ≠ 0 → ∃ d, s.completed.getLast? = some d ∧
    s.sys.drm.lastCompleted = some d.buf ∧ s.sys.drm.lastFlipTsUs = d.vblankUs ∧
    s.sys.drm.onScreen = some d.buf ∧ s.vmeta d.buf = d.id

namespace VrenderLoop

variable {s s' : VrenderLoop}

theorem inv_init {nbufs : Nat} (hlo : 2 ≤ nbufs) (hhi : nbufs ≤ vmcDrmMaxBufs) :
    (init nbufs).Inv := by
  have hflips : (vmcDrmScanoutInit nbufs).flips = [] := by
    simp [DrmScanout.flips, DrmScanout.flipCount, vmcDrmScanoutInit, vmcDrmFlipHistory]
  exact ⟨ScanoutSys.agrees_init (by omega) hhi, hflips.symm,
    fun _ h => absurd h List.not_mem_nil, fun _ => rfl, ⟨[], rfl, rfl⟩, fun _ => rfl,
    fun h => absurd rfl h⟩

/-- A step of the workers or the display that leaves the flips alone. -/
theorem Inv.of_sameFlips {sys : ScanoutSys} {b : Bool} (h : s.Inv) (hagrees : sys.Agrees)
    (hsame : SameFlips s.sys.drm sys.drm) (hb : b = false → s.drained = 0) :
    Inv { s with sys := sys, presenting := b } := by
  refine ⟨hagrees, h.flips.trans hsame.flips.symm, h.ids, hb, h.accounts, ?_, ?_⟩
  · intro hzero
    exact hsame.lastCompleted.trans (h.untouched hzero)
  · intro hpos
    obtain ⟨d, hd, hlast, hts, hscreen, hid⟩ := h.noted hpos
    exact ⟨d, hd, hsame.lastCompleted.trans hlast, hsame.lastFlipTsUs.trans hts,
      hsame.onScreen.trans hscreen, hid⟩

/-- The decode worker's buffers are neither submitted nor on screen, so noting an
identity there changes none of theirs. -/
theorem inv_note {idx : Nat} {id : Vmeta} (h : s.Inv) (hmem : idx ∈ s.sys.handover) :
    Inv { s with vmeta := Function.update s.vmeta idx id } := by
  have hnodup := h.agrees.owns.nodup
  simp only [DrmScanout.owned, List.append_assoc] at hnodup
  have hdisj := (List.nodup_append.mp (List.nodup_append.mp hnodup).2.1).2.2 idx hmem
  refine ⟨h.agrees, h.flips, ?_, h.resting, h.accounts, h.untouched, ?_⟩
  · intro p hp
    have hflip : p.1 ∈ s.sys.drm.flips := h.flips ▸ List.mem_map_of_mem hp
    have hne : p.1 ≠ idx := (hdisj p.1 (List.mem_append_left _ hflip)).symm
    exact (Function.update_of_ne hne _ _).trans (h.ids p hp)
  · intro hpos
    obtain ⟨d, hd, hlast, hts, hscreen, hid⟩ := h.noted hpos
    have hne : d.buf ≠ idx :=
      (hdisj d.buf (List.mem_append_right _ (Option.mem_toList.mpr hscreen))).symm
    exact ⟨d, hd, hlast, hts, hscreen, (Function.update_of_ne hne _ _).trans hid⟩

/-- An accepted flip joins those under way; a refused one changes nothing. -/
theorem inv_pageFlip {nowUs : UInt64} {sys : ScanoutSys} (h : s.Inv)
    (hstep : scanoutStep s.sys (.pageFlip nowUs) = some sys) :
    Inv { s with sys := sys, submitted := s.submitted ++ s.accepted } := by
  have hagrees := ScanoutSys.agrees_step h.agrees hstep
  cases hp : s.sys.presenter with
  | idle | returned idx => simp [scanoutStep, hp] at hstep
  | calling idx tries =>
      have howns := h.agrees.owns
      rw [hp] at howns
      have hlt : ¬ s.sys.drm.nbufs ≤ idx :=
        not_le.mpr (howns.bound idx (by simp [DrmScanout.owned, Presenter.holds]))
      cases hk : s.sys.kms.pending with
      | none =>
          simp only [scanoutStep, hp, Kms.pageFlip, hk, vmcDrmScanoutPresent, if_neg hlt] at hstep
          obtain rfl := Option.some.inj hstep
          obtain ⟨-, hflips, -, -⟩ := DrmScanout.owns_submitFlip howns nowUs
          have hacc : s.accepted = [(idx, s.vmeta idx)] := by rw [accepted, hp, hk]
          refine ⟨hagrees, ?_, ?_, h.resting, h.accounts, h.untouched, h.noted⟩
          · rw [hacc, List.map_append, h.flips]
            exact hflips.symm
          · intro p hmem
            rw [hacc] at hmem
            obtain hmem | hmem := List.mem_append.mp hmem
            · exact h.ids p hmem
            · rw [List.mem_singleton.mp hmem]
      | some q =>
          simp only [scanoutStep, hp, Kms.pageFlip, hk, vmcDrmScanoutPresent, if_neg hlt] at hstep
          obtain rfl := Option.some.inj hstep
          have hacc : s.accepted = [] := by rw [accepted, hp, hk]
          rw [hacc, List.append_nil]
          exact h.of_sameFlips hagrees (.refl _) h.resting

/-- An event completes the oldest flip and is noted. -/
theorem inv_event {buf : Nat} {ts : UInt64} {later : List (Nat × UInt64)} {b : Nat} {id : Vmeta}
    {rest : List (Nat × Vmeta)} {sys : ScanoutSys} (h : s.Inv) (hpres : s.presenting = true)
    (hevents : s.sys.kms.events = (buf, ts) :: later) (hsub : s.submitted = (b, id) :: rest)
    (hstep : scanoutStep s.sys .event = some sys) :
    Inv { s with
      sys := sys
      drained := s.drained + 1
      submitted := rest
      completed := s.completed ++ [⟨buf, ts, id⟩] } := by
  have hagrees := ScanoutSys.agrees_step h.agrees hstep
  simp only [scanoutStep, hevents] at hstep
  obtain rfl := Option.some.inj hstep
  have hflips := h.agrees.flips
  rw [hevents, List.map_cons, List.cons_append] at hflips
  have hhead : b = buf ∧ rest.map (·.1) = later.map (·.1) ++ s.sys.kms.pending.toList := by
    have heq := h.flips.trans hflips
    rw [hsub, List.map_cons] at heq
    exact List.cons.inj heq
  obtain ⟨rfl, hrest⟩ := hhead
  obtain ⟨-, hflips', hscreen, -⟩ := DrmScanout.owns_flipHandler h.agrees.owns hflips ts
  obtain ⟨hlast, hts⟩ := flipHandler_notes h.agrees.owns hflips ts
  have hids := h.ids
  rw [hsub] at hids
  refine ⟨hagrees, hrest.trans hflips'.symm, fun p hp => hids p (List.mem_cons_of_mem _ hp), ?_, ?_,
    fun hzero => absurd hzero (Nat.succ_ne_zero _), fun _ => ?_⟩
  · intro hidle
    rw [hpres] at hidle
    contradiction
  · obtain ⟨done, hdone, hlen⟩ := h.accounts
    exact ⟨done ++ [⟨b, ts, id⟩], by rw [hdone, List.append_assoc], by simp [hlen]⟩
  · exact ⟨⟨b, ts, id⟩, by simp, hlast, hts, hscreen, hids (b, id) List.mem_cons_self⟩

/-- The iteration has read at most one event, and one if it is the first to. -/
def ReadsOne (s : VrenderLoop) : Prop :=
  s.drained = 1 ∨ (s.drained = 0 ∧ s.completed ≠ [])

/-- At the end of such an iteration the account is settled. -/
theorem inv_report (h : s.Inv) (hone : s.ReadsOne) : s.report.Inv := by
  obtain ⟨done, hdone, hlen⟩ := h.accounts
  unfold report
  obtain hone | ⟨hzero, hne⟩ := hone
  · obtain ⟨d, hd, hlast, hts, hscreen, hid⟩ := h.noted (by omega)
    have hlt : d.buf < vmcDrmMaxBufs :=
      lt_of_lt_of_le (h.agrees.owns.bound d.buf (by simp [DrmScanout.owned, hscreen]))
        h.agrees.owns.nbufs
    have hlastOne : done = [d] := by
      rw [hone] at hlen
      obtain ⟨x, rfl⟩ := List.length_eq_one_iff.mp hlen
      rw [hdone, List.getLast?_concat] at hd
      rw [Option.some.inj hd]
    have hflip : (s.vrender d.buf).flip = d := by
      rw [Vrender.flip, vrender, hts, hid]
    simp only [hlast, if_pos hlt]
    have howns := h.agrees.owns
    refine ⟨⟨⟨howns.head, howns.tail, howns.nbufs, howns.nodup, howns.bound, howns.busy,
      howns.pending⟩, h.agrees.flips, h.agrees.shown, h.agrees.acquired⟩, h.flips, h.ids,
      fun _ => rfl, ⟨[], ?_, rfl⟩, fun _ => ?_, fun hpos => absurd rfl hpos⟩
    · rw [hdone, hlastOne, List.map_append, List.append_nil]
      simp [hflip]
    · rw [if_neg]
      rw [hdone, hlastOne]
      simp
  · have hnone : s.sys.drm.lastCompleted = none := by
      rw [h.untouched hzero, if_neg hne]
    simp only [hnone]
    rw [hzero] at hlen
    exact ⟨h.agrees, h.flips, h.ids, fun _ => rfl, ⟨done, hdone, hlen⟩,
      fun _ => hnone.trans (if_neg hne).symm, fun hpos => absurd rfl hpos⟩

/-- Otherwise there is a record without a flip, or a flip without a record. -/
theorem readsOne_of_report (h : s.Inv) (hacc : s.report.Accounted) : s.ReadsOne := by
  obtain ⟨done, hdone, hlen⟩ := h.accounts
  by_cases hzero : s.drained = 0
  · refine .inr ⟨hzero, fun hnil => ?_⟩
    have hlast := h.untouched hzero
    rw [if_pos hnil] at hlast
    unfold report at hacc
    simp only [hlast] at hacc
    have heq := hacc rfl
    rw [hnil] at heq
    simp [vmcDrmMaxBufs] at heq
  · obtain ⟨d, hd, hlast, -, hscreen, -⟩ := h.noted hzero
    have hlt : d.buf < vmcDrmMaxBufs :=
      lt_of_lt_of_le (h.agrees.owns.bound d.buf (by simp [DrmScanout.owned, hscreen]))
        h.agrees.owns.nbufs
    unfold report at hacc
    simp only [hlast, if_pos hlt] at hacc
    have hcount := congrArg List.length (hacc rfl)
    rw [hdone] at hcount
    simp only [List.map_append, List.length_append, List.length_map, List.map_cons, List.map_nil,
      List.length_cons, List.length_nil] at hcount
    exact .inl (by omega)

/-- What a step other than the end of an iteration keeps. -/
theorem inv_scanout {op : ScanoutOp} (h : s.Inv) (hstep : vrenderStep s (.scanout op) = some s') :
    s'.Inv := by
  cases op with
  | startPresent =>
      simp only [vrenderStep] at hstep
      split at hstep
      · cases hstep
      · obtain ⟨sys, hsys, rfl⟩ := Option.map_eq_some_iff.mp hstep
        exact h.of_sameFlips (ScanoutSys.agrees_step h.agrees hsys)
          (sameFlips_of_scanoutStep (by simp) (by simp) hsys) nofun
  | pageFlip nowUs =>
      obtain ⟨sys, hsys, rfl⟩ := Option.map_eq_some_iff.mp hstep
      exact inv_pageFlip h hsys
  | event =>
      simp only [vrenderStep] at hstep
      split at hstep
      · next hpres hevents hsub =>
        obtain ⟨sys, hsys, rfl⟩ := Option.map_eq_some_iff.mp hstep
        exact inv_event h hpres hevents hsub hsys
      · cases hstep
  | nextIdx | flipError | retry | giveUp | vblank ts =>
      obtain ⟨sys, hsys, rfl⟩ := Option.map_eq_some_iff.mp hstep
      exact h.of_sameFlips (ScanoutSys.agrees_step h.agrees hsys)
        (sameFlips_of_scanoutStep (by simp) (by simp) hsys) h.resting

/-- Every iteration reads at most one event, and reads one as long as no flip has
completed. -/
def OneEvent (s : VrenderLoop) (op : VrenderOp) : Prop := op = .endIteration → s.ReadsOne

theorem step_endIteration (hstep : vrenderStep s .endIteration = some s') : s' = s.report := by
  simp only [vrenderStep] at hstep
  split at hstep
  · exact (Option.some.inj hstep).symm
  · contradiction

theorem inv_vrenderStep {op : VrenderOp} (h : s.Inv) (hok : s.OneEvent op)
    (hstep : vrenderStep s op = some s') : s'.Inv := by
  cases op with
  | note idx id =>
      simp only [vrenderStep] at hstep
      split at hstep
      · next hmem =>
        obtain rfl := Option.some.inj hstep
        exact inv_note h hmem
      · cases hstep
  | scanout op => exact inv_scanout h hstep
  | endIteration =>
      rw [step_endIteration hstep]
      exact inv_report h (hok rfl)

theorem Inv.accounted (h : s.Inv) : s.Accounted := by
  intro hidle
  obtain ⟨done, hdone, hlen⟩ := h.accounts
  rw [h.resting hidle] at hlen
  rw [hdone, List.length_eq_zero_iff.mp hlen, List.append_nil]

instance (s : VrenderLoop) (op : VrenderOp) : Decidable (s.OneEvent op) := by
  unfold OneEvent ReadsOne
  infer_instance

end VrenderLoop

/-- **One `vrender` per completed flip.**  For every sequence of frames and every
timing of the flip events, records and completed flips agree at the end of each
iteration exactly if every iteration reads at most one event, and the first one
to end reads one. -/
theorem vrender_iff (nbufs : Nat) (hlo : 2 ≤ nbufs) (hhi : nbufs ≤ vmcDrmMaxBufs)
    (ops : List VrenderOp) (s : VrenderLoop) (hrun : Run.exec vrenderStep (.init nbufs) ops = some s) :
    Run.Always vrenderStep VrenderLoop.Accounted (.init nbufs) ops ↔
      Run.Along vrenderStep VrenderLoop.OneEvent (.init nbufs) ops := by
  refine Run.always_iff_along VrenderLoop.Inv (fun s hs => hs.accounted) ?_ ?_
    (VrenderLoop.inv_init hlo hhi) hrun
  · intro s op s' hs hok hstep
    exact VrenderLoop.inv_vrenderStep hs hok hstep
  · rintro s op s' hs hstep hacc rfl
    rw [VrenderLoop.step_endIteration hstep] at hacc
    exact VrenderLoop.readsOne_of_report hs hacc

/-- Two frames: the first flip completes within its iteration, the second is
refused until the first is through and completes after its own. -/
def steadyFrames : List VrenderOp :=
  [.scanout .nextIdx, .note 1 ⟨0, 1, 0, 100, 5, 7⟩, .scanout .nextIdx, .scanout .startPresent,
    .scanout (.pageFlip 1), .scanout (.vblank 16), .scanout .event, .endIteration,
    .note 2 ⟨1, 1, 16667, 200, 5, 7⟩, .scanout .startPresent, .scanout (.pageFlip 17),
    .endIteration]

theorem vrender_iff_steady :
    ∃ s, Run.exec vrenderStep (.init 3) steadyFrames = some s ∧
      s.vrenders.map (·.flip) = [⟨1, 16, ⟨0, 1, 0, 100, 5, 7⟩⟩] ∧
      Run.Always vrenderStep VrenderLoop.Accounted (.init 3) steadyFrames := by
  have hrun : (Run.exec vrenderStep (.init 3) steadyFrames).map
      (fun s => s.vrenders.map (·.flip)) = some [⟨1, 16, ⟨0, 1, 0, 100, 5, 7⟩⟩] := by
    decide +kernel
  obtain ⟨s, hs, heq⟩ := Option.map_eq_some_iff.mp hrun
  refine ⟨s, hs, heq, ?_⟩
  exact (vrender_iff 3 (by decide) (by decide) steadyFrames s hs).mpr (by decide +kernel)

end Vmc
