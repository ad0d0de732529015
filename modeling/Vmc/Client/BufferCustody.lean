import Vmc.Client.DecodeWorker

/-!
# Vmc.Client.BufferCustody

What becomes of the scan-out buffers the decode worker acquires
(`apps/thinclient/main.c`, `video/drm_scanout.c`).

A buffer passes from the decode worker to the pending conversion, to the present
queue, to the present worker, to the flips under way and to the screen, and is
free again when another is shown in its place.  `DecodeLoop.held` lists those on
the first part of this way, `DrmScanout.owned` all of them.

Two of the ways out of an iteration lose the buffer.  A conversion without an
event is never handed over, and the next one stored over it; and the present
worker drops an entry whose flip failed, or was refused too often.  The buffer
stays busy, and is in nobody's hands.  Without these two, every buffer that is
busy has a holder (`busy_has_holder`).
-/

namespace Vmc

/-- The buffer the decode worker acquired for the frame it is at. -/
def DecodePc.buffer : DecodePc → Option Nat
  | acquired _ buf | converted _ buf _ | handedOver _ buf _ | pushed _ buf _ => some buf
  | _ => none

/-- The entry being presented. -/
def PresentPc.entry : PresentPc → Option PresentEntry
  | calling e _ _ | again e _ | ended e _ => some e
  | idle => none

namespace DecodeLoop

variable {s s' : DecodeLoop}

/-- Somebody has buffer `i`: it is being acquired, or belongs to the pending
conversion, to an entry in the queue or being presented, to a flip under way, or
is on screen. -/
def Holder (s : DecodeLoop) (i : Nat) : Prop :=
  s.worker.buffer = some i ∨ s.pending.bufIdx = some i ∨ (∃ e ∈ s.queue, e.bufIdx = some i) ∨
    (∃ e, s.presenter.entry = some e ∧ e.bufIdx = some i) ∨ i ∈ s.drm.flips ∨
    s.drm.onScreen = some i

instance (s : DecodeLoop) (i : Nat) : Decidable (s.Holder i) :=
  inferInstanceAs (Decidable (s.worker.buffer = some i ∨ s.pending.bufIdx = some i ∨
    (∃ e ∈ s.queue, e.bufIdx = some i) ∨ (∃ e ∈ s.presenter.entry, e.bufIdx = some i) ∨
    i ∈ s.drm.flips ∨ s.drm.onScreen = some i))

/-- The buffer of the pending conversion, until it is pushed. -/
def pendingBuffer (s : DecodeLoop) : Option Nat :=
  match s.worker with
  | .pushed _ _ _ => none
  | _ => s.pending.bufIdx

/-- The buffer of the entry being presented, until its flip is accepted. -/
def presentBuffer (s : DecodeLoop) : Option Nat :=
  match s.presenter with
  | .calling e _ _ | .again e _ | .ended e false => e.bufIdx
  | _ => none

/-- The buffers on their way to the screen for which there is no flip yet. -/
def held (s : DecodeLoop) : List Nat :=
  s.worker.buffer.toList ++ s.pendingBuffer.toList ++ s.queue.filterMap (·.bufIdx) ++
    s.presentBuffer.toList

/-- Who has the buffers, as long as none is lost. -/
structure Custody (s : DecodeLoop) : Prop where
  owns : s.drm.Owns s.held
  busy : ∀ i, s.drm.busy i = true → i ∈ s.drm.owned s.held
  pending : s.pending.ev = true → s.pending.bufIdx ≠ none
  handed : s.HandsPending
  queue : ∀ e ∈ s.queue, e.bufIdx ≠ none
  presenter : ∀ e, s.presenter.entry = some e → e.bufIdx ≠ none

/-- No buffer is given up: a conversion is not stored over one that was never
handed over, and the present worker is not done with an entry before its flip is
accepted. -/
def KeepsBuffers (s : DecodeLoop) : DecodeOp → Prop
  | .setPending => s.pending.ev = true ∨ s.pending.bufIdx = none
  | .endPresent => ∀ e ∈ s.presenter.entry, s.presenter ≠ .ended e false
  | _ => True

instance (s : DecodeLoop) : (op : DecodeOp) → Decidable (s.KeepsBuffers op)
  | .setPending => inferInstanceAs (Decidable (s.pending.ev = true ∨ s.pending.bufIdx = none))
  | .endPresent =>
      inferInstanceAs (Decidable (∀ e ∈ s.presenter.entry, s.presenter ≠ .ended e false))
  | .take | .publish _ | .discard | .select | .mark | .decode _ _ | .nextIdx | .stopWaiting
  | .convAsync _ | .handOver _ | .push | .release | .pop | .pageFlip _ _ | .callAgain
  | .stopPresent | .event _ => .isTrue trivial

theorem custody_init {useDrm : Bool} {nbufs : Nat} (hlo : 2 ≤ nbufs) (hhi : nbufs ≤ vmcDrmMaxBufs) :
    (init useDrm nbufs).Custody := by
  have hpos : 0 < nbufs := by omega
  refine ⟨DrmScanout.owns_init hpos hhi, ?_, by simp [init, PendingConv.zero],
    handsPending_init useDrm nbufs, by simp [init], by simp [init, PresentPc.entry]⟩
  intro i hi
  simp only [init, DrmScanout.busy, vmcDrmScanoutInit, List.getElem?_replicate] at hi
  split at hi <;> simp at hi

/-- A buffer that is busy has a holder. -/
theorem Custody.holder (h : s.Custody) {i : Nat} (hi : s.drm.busy i = true) : s.Holder i := by
  have hmem := h.busy i hi
  simp only [DrmScanout.owned, held, List.mem_append, Option.mem_toList, List.mem_filterMap] at hmem
  obtain ((((hw | hp) | ⟨e, he, hb⟩) | hs) | hf) | ho := hmem
  · exact .inl hw
  · refine .inr (.inl ?_)
    unfold pendingBuffer at hp
    split at hp
    · contradiction
    · exact hp
  · exact .inr (.inr (.inl ⟨e, he, hb⟩))
  · refine .inr (.inr (.inr (.inl ?_)))
    unfold presentBuffer at hs
    split at hs
    · next e _ _ hpc => exact ⟨e, by rw [hpc]; rfl, hs⟩
    · next e _ hpc => exact ⟨e, by rw [hpc]; rfl, hs⟩
    · next e hpc => exact ⟨e, by rw [hpc]; rfl, hs⟩
    · contradiction
  · exact .inr (.inr (.inr (.inr (.inl hf))))
  · exact .inr (.inr (.inr (.inr (.inr ho))))

/-! ## the steps -/

/-- Buffers change hands, with the scan-out as it is. -/
theorem Custody.of_perm (h : s.Custody) (hdrm : s'.drm = s.drm) (hperm : s'.held.Perm s.held)
    (hpending : s'.pending.ev = true → s'.pending.bufIdx ≠ none) (hhanded : s'.HandsPending)
    (hqueue : ∀ e ∈ s'.queue, e.bufIdx ≠ none)
    (hpresenter : ∀ e, s'.presenter.entry = some e → e.bufIdx ≠ none) : s'.Custody := by
  refine ⟨?_, ?_, hpending, hhanded, hqueue, hpresenter⟩
  · rw [hdrm]
    exact h.owns.perm hperm
  · intro i hi
    rw [hdrm] at hi
    have hold := h.busy i hi
    simp only [hdrm, DrmScanout.owned, List.mem_append] at hold ⊢
    rwa [hperm.mem_iff]

/-- Steps of the decode worker with the buffer it has. -/
theorem Custody.of_worker (h : s.Custody) (hdrm : s'.drm = s.drm)
    (hev : s'.pending.ev = s.pending.ev) (hbuf : s'.pending.bufIdx = s.pending.bufIdx)
    (hqueue : s'.queue = s.queue) (hpresenter : s'.presenter = s.presenter)
    (hworker : s'.worker.buffer = s.worker.buffer) (hpend : s'.pendingBuffer = s.pendingBuffer)
    (hhanded : s'.HandsPending) : s'.Custody := by
  have hpresent : s'.presentBuffer = s.presentBuffer := by
    rw [presentBuffer, presentBuffer, hpresenter]
  refine h.of_perm hdrm (List.Perm.of_eq ?_) ?_ hhanded ?_ ?_
  · rw [held, held, hworker, hpend, hqueue, hpresent]
  · rw [hev, hbuf]
    exact h.pending
  · rw [hqueue]
    exact h.queue
  · rw [hpresenter]
    exact h.presenter

/-- Steps of the present worker with the entry it has. -/
theorem Custody.of_presenter (h : s.Custody) {pc q : PresentPc} (hq : s.presenter = q)
    (hentry : ∀ e, pc.entry = some e → q.entry = some e)
    (hpresent : presentBuffer { s with presenter := pc } =
      presentBuffer { s with presenter := q }) :
    Custody { s with presenter := pc } := by
  subst hq
  refine h.of_perm rfl (List.Perm.of_eq ?_) h.pending h.handed h.queue ?_
  · exact congrArg (fun b : Option Nat => s.worker.buffer.toList ++ s.pendingBuffer.toList ++
      s.queue.filterMap (·.bufIdx) ++ b.toList) hpresent
  · exact fun e he => h.presenter e (hentry e he)

/-- The worker has the buffer it was given. -/
theorem custody_nextIdx (h : s.Custody) (hstep : decodeStep s .nextIdx = some s') : s'.Custody := by
  have hhanded := handsPending_step h.handed hstep
  obtain ⟨job, waited, hw, rfl⟩ := effect_of_decodeStep hstep
  obtain ⟨buf, hbuf, heq⟩ | ⟨pc, rfl | rfl, heq⟩ := acquireStep_cases s job waited
  · obtain ⟨-, -, -, howns, hflips, hscreen, hbusy⟩ := DrmScanout.owns_nextIdx h.owns hbuf
    rw [heq] at hhanded ⊢
    have hperm : (buf :: s.held).Perm (s.held ++ [buf]) :=
      (List.perm_append_singleton buf s.held).symm
    have hheld : held { s with
        drm := (vmcDrmScanoutNextIdx s.drm).2
        worker := .acquired job buf
        frames := s.frames ++ (s.pool.slots[job.idx]?.map fun x => ⟨x.toFrame, buf⟩).toList } =
        buf :: s.held := by
      simp [held, pendingBuffer, presentBuffer, hw, DecodePc.buffer]
    have howned : (vmcDrmScanoutNextIdx s.drm).2.owned (buf :: s.held) =
        buf :: s.drm.owned s.held := by
      rw [DrmScanout.owned, DrmScanout.owned, hflips, hscreen]
      rfl
    refine ⟨?_, ?_, h.pending, hhanded, h.queue, h.presenter⟩
    · rw [hheld]
      exact howns.perm hperm
    · rw [hheld]
      intro i hi
      rw [howned, List.mem_cons]
      rw [hbusy, Bool.or_eq_true, decide_eq_true_eq] at hi
      exact hi.imp Eq.symm (h.busy i)
  all_goals
    rw [heq] at hhanded ⊢
    exact h.of_worker rfl rfl rfl rfl rfl (by rw [hw]; rfl) (by simp [pendingBuffer, hw]) hhanded

/-- The pending buffer joins the queue. -/
theorem custody_push (h : s.Custody) (hstep : decodeStep s .push = some s') : s'.Custody := by
  have hhanded := handsPending_step h.handed hstep
  obtain ⟨dl, buf, ev, hw, rfl⟩ := effect_of_decodeStep hstep
  obtain ⟨b, hb⟩ := Option.ne_none_iff_exists'.mp (h.pending (h.handed dl buf ev (.inl hw)))
  refine h.of_perm rfl ?_ h.pending hhanded ?_ h.presenter
  · refine List.perm_iff_count.mpr fun i => ?_
    simp [held, pendingBuffer, presentBuffer, hw, hb, DecodePc.buffer, PendingConv.entry,
      List.count_cons]
    omega
  · intro e he
    obtain he | he := List.mem_append.mp he
    · exact h.queue e he
    · rw [List.mem_singleton.mp he, PendingConv.entry, hb]
      simp

/-- The worker's buffer becomes the pending one, in place of one that was pushed
or of none. -/
theorem custody_setPending (h : s.Custody) (hok : s.KeepsBuffers .setPending)
    (hstep : decodeStep s .setPending = some s') : s'.Custody := by
  have hhanded := handsPending_step h.handed hstep
  obtain ⟨dl, buf, ev, rfl, hw⟩ := effect_of_decodeStep hstep
  refine h.of_perm rfl (List.Perm.of_eq ?_) (by simp [setPendingTo]) hhanded h.queue h.presenter
  obtain hw | ⟨job, hw, -, hev⟩ := hw
  · simp [setPendingTo, held, pendingBuffer, presentBuffer, hw, DecodePc.buffer]
  · have hnone : s.pending.bufIdx = none := by
      obtain hev' | hnone := hok
      · rw [hev] at hev'
        contradiction
      · exact hnone
    simp [setPendingTo, held, pendingBuffer, presentBuffer, hw, hnone, DecodePc.buffer]

theorem custody_pop (h : s.Custody) (hstep : decodeStep s .pop = some s') : s'.Custody := by
  obtain ⟨e, rest, hp, hq, rfl⟩ := effect_of_decodeStep hstep
  have hqueue := h.queue
  rw [hq] at hqueue
  refine h.of_perm rfl ?_ h.pending h.handed (fun e' he' => hqueue e' (List.mem_cons_of_mem e he')) ?_
  · refine List.perm_iff_count.mpr fun i => ?_
    obtain ⟨b, hb⟩ := Option.ne_none_iff_exists'.mp (hqueue e (by simp))
    simp [held, pendingBuffer, presentBuffer, hp, hq, hb, List.count_cons]
  · rintro e' he'
    obtain rfl := Option.some.inj he'
    exact hqueue e (by simp)

/-- An accepted flip takes the buffer; otherwise the present worker still has
it. -/
theorem custody_pageFlip (h : s.Custody) {answer : FlipAnswer} {nowUs : UInt64}
    (hstep : decodeStep s (.pageFlip answer nowUs) = some s') : s'.Custody := by
  obtain ⟨e, calls, tries, hp, rfl⟩ := effect_of_decodeStep hstep
  obtain ⟨b, hb⟩ := Option.ne_none_iff_exists'.mp (h.presenter e (by rw [hp]; rfl))
  have hbuf : e.buffer s.drm = b := by rw [PresentEntry.buffer, hb]; rfl
  -- the buffers other than the one being presented
  have hperm : (b :: held { s with presenter := .ended e true }).Perm s.held := by
    refine List.perm_iff_count.mpr fun i => ?_
    simp [held, pendingBuffer, presentBuffer, hp, hb, List.count_cons]
    omega
  have howns := h.owns.perm hperm
  have hlt : ¬ s.drm.nbufs ≤ b := not_le.mpr (howns.bound b (by simp [DrmScanout.owned]))
  rw [hbuf]
  cases answer with
  | ok =>
      obtain ⟨howns', hflips, hscreen, hbusy⟩ := DrmScanout.owns_submitFlip howns nowUs
      simp only [vmcDrmScanoutPresent, if_neg hlt]
      refine ⟨howns', ?_, h.pending, h.handed, h.queue, ?_⟩
      · intro i hi
        have hold := h.busy i ((hbusy i).symm.trans hi)
        simp only [DrmScanout.owned, hflips, hscreen, List.mem_append] at hold ⊢
        rw [← hperm.mem_iff, List.mem_cons] at hold
        simp only [List.mem_singleton]
        tauto
      · intro e' he'
        obtain rfl := Option.some.inj he'
        exact h.presenter e (by rw [hp]; rfl)
  | ebusy =>
      simp only [vmcDrmScanoutPresent, if_neg hlt]
      split
      · exact h.of_presenter hp (fun _ he' => he') rfl
      · exact h.of_presenter hp (fun _ he' => he') rfl
  | error =>
      simp only [vmcDrmScanoutPresent, if_neg hlt]
      exact h.of_presenter hp (fun _ he' => he') rfl

/-- The oldest flip is on screen, and the buffer it replaces is free. -/
theorem custody_event (h : s.Custody) (ts : UInt64) :
    Custody { s with drm := flipHandler s.drm ts } := by
  cases hflips : s.drm.flips with
  | nil =>
      obtain ⟨howns, hnil, hscreen, hbusy⟩ := DrmScanout.owns_flipHandler_stray h.owns hflips ts
      refine ⟨howns, ?_, h.pending, h.handed, h.queue, h.presenter⟩
      intro i hi
      have hold := h.busy i ((hbusy i).symm.trans hi)
      simp only [DrmScanout.owned, hnil, hscreen, hflips] at hold ⊢
      exact hold
  | cons r rs =>
      obtain ⟨howns, hrest, hscreen, hbusy⟩ := DrmScanout.owns_flipHandler h.owns hflips ts
      refine ⟨howns, ?_, h.pending, h.handed, h.queue, h.presenter⟩
      intro i hi
      have hi' : (decide (s.drm.onScreen ≠ some i) && s.drm.busy i) = true := (hbusy i).symm.trans hi
      rw [Bool.and_eq_true, decide_eq_true_eq] at hi'
      have hold := h.busy i hi'.2
      simp only [DrmScanout.owned, hflips, List.mem_append, List.mem_cons, Option.mem_toList]
        at hold
      simp only [DrmScanout.owned, hrest, hscreen, List.mem_append, Option.mem_toList,
        Option.some.injEq]
      obtain (hheld | rfl | hlater) | hshown := hold
      · exact .inl (.inl hheld)
      · exact .inr rfl
      · exact .inl (.inr hlater)
      · exact absurd hshown hi'.1

theorem custody_step {op : DecodeOp} (h : s.Custody) (hok : s.KeepsBuffers op)
    (hstep : decodeStep s op = some s') : s'.Custody := by
  have hhanded := handsPending_step h.handed hstep
  have heffect := effect_of_decodeStep hstep
  cases op with
  | take =>
      obtain ⟨-, i, -, rfl⟩ := heffect
      exact h.of_worker rfl rfl rfl rfl rfl rfl rfl hhanded
  | publish | discard =>
      obtain ⟨w, -, rfl⟩ := heffect
      exact h.of_worker rfl rfl rfl rfl rfl rfl rfl hhanded
  | select =>
      obtain ⟨hw, i, x, -, -, rfl⟩ := heffect
      exact h.of_worker rfl rfl rfl rfl rfl (by rw [hw]; rfl) (by simp [pendingBuffer, hw]) hhanded
  | mark | stopWaiting | convAsync =>
      obtain ⟨i, dl, hw, rfl⟩ := heffect
      exact h.of_worker rfl rfl rfl rfl rfl (by rw [hw]; rfl) (by simp [pendingBuffer, hw]) hhanded
  | decode ok decodeUs =>
      obtain ⟨i, dl, hw, rfl⟩ := heffect
      refine h.of_worker rfl rfl rfl rfl rfl ?_ ?_ hhanded
      · rw [hw]
        dsimp only
        split <;> rfl
      · dsimp only [pendingBuffer]
        rw [hw]
        split <;> grind
  | nextIdx => exact custody_nextIdx h hstep
  | handOver convUs =>
      obtain ⟨job, buf, ev, x, hw, hev, -, rfl⟩ := heffect
      exact h.of_worker rfl rfl rfl rfl rfl (by rw [hw]; rfl) (by simp [pendingBuffer, hw]) hhanded
  | push => exact custody_push h hstep
  | setPending => exact custody_setPending h hok hstep
  | release =>
      obtain ⟨i, hw, rfl⟩ := heffect
      exact h.of_worker rfl rfl rfl rfl rfl (by rw [hw]; rfl) (by simp [pendingBuffer, hw]) hhanded
  | pop => exact custody_pop h hstep
  | pageFlip answer nowUs => exact custody_pageFlip h hstep
  | callAgain =>
      obtain ⟨e, calls, hp, rfl⟩ := heffect
      split
      · exact h.of_presenter hp (fun _ he' => he') rfl
      · exact h.of_presenter hp (fun _ he' => he') rfl
  | stopPresent =>
      obtain ⟨e, calls, hp | hp, rfl⟩ := heffect
      · exact h.of_presenter hp (fun _ he' => he') rfl
      · exact h.of_presenter hp (fun _ he' => he') rfl
  | endPresent =>
      obtain ⟨e, shown, hp, rfl⟩ := heffect
      obtain rfl : shown = true := by
        have hne := hok e (by rw [hp]; rfl)
        cases shown with
        | true => rfl
        | false => exact absurd hp hne
      exact h.of_presenter hp (by simp [PresentPc.entry]) rfl
  | event ts =>
      obtain rfl := heffect
      exact custody_event h ts

end DecodeLoop

/-- **No buffer is lost**: in every run in which each conversion stored is handed
over before the next and each entry presented is shown, every buffer that is
busy has a holder, at any time. -/
theorem busy_has_holder (useDrm : Bool) (nbufs : Nat) (hlo : 2 ≤ nbufs)
    (hhi : nbufs ≤ vmcDrmMaxBufs) (ops : List DecodeOp) (s : DecodeLoop)
    (hkeep : Run.Along decodeStep DecodeLoop.KeepsBuffers (.init useDrm nbufs) ops)
    (hrun : Run.exec decodeStep (.init useDrm nbufs) ops = some s) :
    ∀ i, s.drm.busy i = true → s.Holder i := by
  have h : s.Custody :=
    Run.exec_invariant DecodeLoop.Custody (fun _ _ _ h hok => DecodeLoop.custody_step h hok)
      (DecodeLoop.custody_init hlo hhi) hkeep hrun
  exact fun i => h.holder

/-- Two frames, the first of them presented at the second attempt and shown. -/
def shownRun : List DecodeOp :=
  startFrame (dashFrame 100 0 0 1) true ++ [.setPending] ++
    startFrame (dashFrame 200 1 16667 1) true ++ [.handOver 7, .push, .setPending, .pop,
      .pageFlip .ebusy 1, .pageFlip .ok 2, .endPresent, .event 3]

theorem busy_has_holder_shown :
    ∃ s, Run.exec decodeStep (.init true 3) shownRun = some s ∧ s.drm.busy 1 = true ∧
      s.drm.onScreen = some 1 ∧ ∀ i, s.drm.busy i = true → s.Holder i := by
  have hrun : (Run.exec decodeStep (.init true 3) shownRun).map
      (fun s => (s.drm.busy 1, s.drm.onScreen)) = some (true, some 1) := by
    decide +kernel
  obtain ⟨s, hs, heq⟩ := Option.map_eq_some_iff.mp hrun
  obtain ⟨hbusy, hscreen⟩ := Prod.mk.inj heq
  exact ⟨s, hs, hbusy, hscreen,
    busy_has_holder true 3 (by decide) (by decide) shownRun s (by decide +kernel) hs⟩

/-- Every buffer that is busy has a holder, in every run. -/
def BuffersNeverLost : Prop :=
  ∀ (nbufs : Nat) (ops : List DecodeOp) (s : DecodeLoop), 2 ≤ nbufs → nbufs ≤ vmcDrmMaxBufs →
    Run.exec decodeStep (.init true nbufs) ops = some s → ∀ i, s.drm.busy i = true → s.Holder i

/-- A conversion without an event, and the next one. -/
def lostBufferRun : List DecodeOp :=
  startFrame (dashFrame 100 0 0 1) false ++ [.setPending] ++
    startFrame (dashFrame 200 1 16667 1) true ++ [.setPending]

/-- The buffer of the first frame is busy, and nobody has it. -/
theorem buffersNeverLost_fails : ¬ BuffersNeverLost := by
  intro h
  have hrun : (Run.exec decodeStep (.init true 3) lostBufferRun).map
      (fun s => (s.drm.busy 1, decide (s.Holder 1))) = some (true, false) := by
    decide +kernel
  obtain ⟨s, hs, heq⟩ := Option.map_eq_some_iff.mp hrun
  obtain ⟨hbusy, hholder⟩ := Prod.mk.inj heq
  exact of_decide_eq_false hholder
    (h 3 lostBufferRun s (by decide) (by decide) hs 1 hbusy)

end Vmc
