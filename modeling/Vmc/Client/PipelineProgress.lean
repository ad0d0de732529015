import Vmc.Client.BufferCustody
import Vmc.Client.SlotConservation
import Vmc.Client.Wakeups

/-!
# Vmc.Client.PipelineProgress

Whether reader and decode worker can go on (`apps/thinclient/main.c`).

The reader waits for a free frame slot, the decode worker for a ready one and,
in `present_push`, for room in the present queue.  There always is room: each
entry stands for a scan-out buffer of its own, of which there are far fewer than
places in the queue (`present_push_room`).

So the two threads wait for each other at the frame slots only.  A slot is lost
with each conversion that is stored while no other is pending, and in no other
way; but so is, but for the first of them, the scan-out buffer of the conversion
stored over, and without a buffer there are no more conversions.  The frame slots
outlast the buffers (`lost_slots_bounded`), and one of the two threads can always
go on (`pipeline_goes_on`).

In these runs nobody cancels the reader and the timeline is not shifted.  A reader
that is cancelled in `slot_take_write` takes the mutex with it and nothing goes on
(`ReaderCancel`).
-/

namespace Vmc

namespace DecodeLoop

variable {s s' : DecodeLoop} {n : Nat}

/-! ## who has the buffers -/

/-- Whose hands the buffers are in.  Some are in nobody's: with `n` conversions
stored while none was pending there are at least as many as these, but for the
one that is pending now. -/
structure Owning (n : Nat) (s : DecodeLoop) : Prop where
  owns : ∃ lost : List Nat, n ≤ lost.length + s.pending.bufIdx.toList.length ∧
    s.drm.Owns (s.held ++ lost)
  shown : s.drm.onScreen.isSome
  pending : s.pending.ev = true → s.pending.bufIdx ≠ none
  handed : s.HandsPending
  queue : ∀ e ∈ s.queue, e.bufIdx ≠ none
  presenter : ∀ e, s.presenter.entry = some e → e.bufIdx ≠ none

theorem owning_init {useDrm : Bool} {nbufs : Nat} (hlo : 2 ≤ nbufs) (hhi : nbufs ≤ vmcDrmMaxBufs) :
    Owning 0 (init useDrm nbufs) where
  owns := ⟨[], Nat.zero_le _, (custody_init hlo hhi).owns⟩
  shown := rfl
  pending := (custody_init hlo hhi).pending
  handed := handsPending_init useDrm nbufs
  queue := (custody_init hlo hhi).queue
  presenter := (custody_init hlo hhi).presenter

/-- Buffers change hands, or are lost, with the scan-out as it is. -/
theorem Owning.of_perm {n' : Nat} (h : s.Owning n) (hdrm : s'.drm = s.drm) {l : List Nat}
    (hperm : s.held.Perm (s'.held ++ l))
    (hlost : n' + s.pending.bufIdx.toList.length ≤
      n + l.length + s'.pending.bufIdx.toList.length)
    (hpending : s'.pending.ev = true → s'.pending.bufIdx ≠ none) (hhanded : s'.HandsPending)
    (hqueue : ∀ e ∈ s'.queue, e.bufIdx ≠ none)
    (hpresenter : ∀ e, s'.presenter.entry = some e → e.bufIdx ≠ none) : s'.Owning n' := by
  obtain ⟨lost, hn, howns⟩ := h.owns
  refine ⟨⟨l ++ lost, ?_, ?_⟩, hdrm ▸ h.shown, hpending, hhanded, hqueue, hpresenter⟩
  · rw [List.length_append]
    omega
  · rw [hdrm, ← List.append_assoc]
    exact howns.perm (hperm.symm.append_right lost)

/-- Steps of the decode worker with the buffer it has, or without it. -/
theorem Owning.of_worker (h : s.Owning n) (hdrm : s'.drm = s.drm)
    (hev : s'.pending.ev = s.pending.ev) (hbuf : s'.pending.bufIdx = s.pending.bufIdx)
    (hqueue : s'.queue = s.queue) (hpresenter : s'.presenter = s.presenter)
    (hworker : s'.worker.buffer = s.worker.buffer) (hpend : s'.pendingBuffer = s.pendingBuffer)
    (hhanded : s'.HandsPending) : s'.Owning n := by
  have hpresent : s'.presentBuffer = s.presentBuffer := by
    rw [presentBuffer, presentBuffer, hpresenter]
  have hheld : s'.held = s.held := by
    rw [held, held, hworker, hpend, hqueue, hpresent]
  refine h.of_perm (l := []) hdrm ?_ ?_ ?_ hhanded ?_ ?_
  · rw [hheld, List.append_nil]
  · rw [hbuf]
    exact Nat.le_refl _
  · rw [hev, hbuf]
    exact h.pending
  · rw [hqueue]
    exact h.queue
  · rw [hpresenter]
    exact h.presenter

/-- Steps of the present worker with the entry it has, or without it. -/
theorem Owning.of_presenter (h : s.Owning n) {pc q : PresentPc} (hq : s.presenter = q)
    (hentry : ∀ e, pc.entry = some e → q.entry = some e)
    (hpresent : presentBuffer { s with presenter := pc } = none ∨
      presentBuffer { s with presenter := pc } = presentBuffer { s with presenter := q }) :
    Owning n { s with presenter := pc } := by
  subst hq
  have hkept : ∃ gone : List Nat,
      s.held.Perm (held { s with presenter := pc } ++ gone) := by
    obtain hnone | hsame := hpresent
    · refine ⟨s.presentBuffer.toList, List.Perm.of_eq ?_⟩
      simp only [held, hnone, Option.toList_none, List.append_nil]
      rfl
    · refine ⟨[], List.Perm.of_eq ?_⟩
      simp only [held, hsame, List.append_nil]
      rfl
  obtain ⟨gone, hperm⟩ := hkept
  exact h.of_perm rfl hperm (by dsimp only; omega) h.pending h.handed h.queue
    fun e he => h.presenter e (hentry e he)

theorem owning_nextIdx (h : s.Owning n) (hstep : decodeStep s .nextIdx = some s') :
    s'.Owning n := by
  have hhanded := handsPending_step h.handed hstep
  obtain ⟨job, waited, hw, rfl⟩ := effect_of_decodeStep hstep
  obtain ⟨buf, hbuf, heq⟩ | ⟨pc, rfl | rfl, heq⟩ := acquireStep_cases s job waited
  · obtain ⟨lost, hn, howns⟩ := h.owns
    obtain ⟨-, -, -, howns', -, hscreen, -⟩ := DrmScanout.owns_nextIdx howns hbuf
    rw [heq] at hhanded ⊢
    have hheld : held { s with
        drm := (vmcDrmScanoutNextIdx s.drm).2
        worker := .acquired job buf
        frames := s.frames ++ (s.pool.slots[job.idx]?.map fun x => ⟨x.toFrame, buf⟩).toList } =
        buf :: s.held := by
      simp [held, pendingBuffer, presentBuffer, hw, DecodePc.buffer]
    refine ⟨⟨lost, hn, ?_⟩, hscreen ▸ h.shown, h.pending, hhanded, h.queue, h.presenter⟩
    rw [hheld]
    exact howns'.perm (List.perm_append_singleton buf (s.held ++ lost)).symm
  all_goals
    rw [heq] at hhanded ⊢
    exact h.of_worker rfl rfl rfl rfl rfl (by rw [hw]; rfl) (by simp [pendingBuffer, hw]) hhanded

theorem owning_push (h : s.Owning n) (hstep : decodeStep s .push = some s') : s'.Owning n := by
  have hhanded := handsPending_step h.handed hstep
  obtain ⟨dl, buf, ev, hw, rfl⟩ := effect_of_decodeStep hstep
  obtain ⟨b, hb⟩ := Option.ne_none_iff_exists'.mp (h.pending (h.handed dl buf ev (.inl hw)))
  refine h.of_perm (l := []) rfl (List.perm_iff_count.mpr fun i => ?_) (Nat.le_refl _) h.pending
    hhanded ?_ h.presenter
  · simp [held, pendingBuffer, presentBuffer, hw, hb, DecodePc.buffer, PendingConv.entry,
      List.count_cons]
    omega
  · intro e he
    obtain he | he := List.mem_append.mp he
    · exact h.queue e he
    · rw [List.mem_singleton.mp he, PendingConv.entry, hb]
      simp

/-- The worker's buffer becomes the pending one; that of a conversion that was
never handed over is lost. -/
theorem owning_setPending (h : s.Owning n) (hstep : decodeStep s .setPending = some s') :
    s'.Owning (n + if s.ReleasesSlot .setPending then 0 else 1) := by
  have hhanded := handsPending_step h.handed hstep
  obtain ⟨dl, buf, ev, rfl, hw | ⟨job, hw, -, hev⟩⟩ := effect_of_decodeStep hstep
  · have hok : s.ReleasesSlot .setPending := h.handed dl buf ev (.inr hw)
    have hle : s.pending.bufIdx.toList.length ≤ 1 := Option.length_toList_le
    rw [if_pos hok]
    refine h.of_perm (l := []) rfl (List.Perm.of_eq ?_) ?_ (by simp [setPendingTo]) hhanded
      h.queue h.presenter
    · simp [setPendingTo, held, pendingBuffer, presentBuffer, hw, DecodePc.buffer]
    · simp only [setPendingTo, Option.toList_some, List.length_singleton, List.length_nil]
      omega
  · have hmiss : ¬ s.ReleasesSlot .setPending := fun hok => by
      have hok' : s.pending.ev = true := hok
      rw [hev] at hok'
      cases hok'
    rw [if_neg hmiss]
    refine h.of_perm (l := s.pending.bufIdx.toList) rfl (List.perm_iff_count.mpr fun i => ?_) ?_
      (by simp [setPendingTo]) hhanded h.queue h.presenter
    · simp [setPendingTo, held, pendingBuffer, presentBuffer, hw, DecodePc.buffer, List.count_cons]
      omega
    · simp only [setPendingTo, Option.toList_some, List.length_singleton]
      omega

theorem owning_pop (h : s.Owning n) (hstep : decodeStep s .pop = some s') : s'.Owning n := by
  obtain ⟨e, rest, hp, hq, rfl⟩ := effect_of_decodeStep hstep
  have hqueue := h.queue
  rw [hq] at hqueue
  obtain ⟨b, hb⟩ := Option.ne_none_iff_exists'.mp (hqueue e (by simp))
  refine h.of_perm (l := []) rfl (List.perm_iff_count.mpr fun i => ?_) (Nat.le_refl _) h.pending
    h.handed (fun e' he' => hqueue e' (List.mem_cons_of_mem e he')) ?_
  · simp [held, pendingBuffer, presentBuffer, hp, hq, hb, List.count_cons]
  · intro e' he'
    obtain rfl := Option.some.inj he'
    exact hqueue e (by simp)

theorem owning_pageFlip (h : s.Owning n) {answer : FlipAnswer} {nowUs : UInt64}
    (hstep : decodeStep s (.pageFlip answer nowUs) = some s') : s'.Owning n := by
  obtain ⟨e, calls, tries, hp, rfl⟩ := effect_of_decodeStep hstep
  obtain ⟨b, hb⟩ := Option.ne_none_iff_exists'.mp (h.presenter e (by rw [hp]; rfl))
  have hbuf : e.buffer s.drm = b := by rw [PresentEntry.buffer, hb]; rfl
  have hperm : (b :: held { s with presenter := .ended e true }).Perm s.held := by
    refine List.perm_iff_count.mpr fun i => ?_
    simp [held, pendingBuffer, presentBuffer, hp, hb, List.count_cons]
    omega
  obtain ⟨lost, hn, howns⟩ := h.owns
  have howns := howns.perm (hperm.append_right lost)
  have hlt : ¬ s.drm.nbufs ≤ b := not_le.mpr (howns.bound b (by simp [DrmScanout.owned]))
  rw [hbuf]
  cases answer with
  | ok =>
      obtain ⟨howns', -, hscreen, -⟩ := DrmScanout.owns_submitFlip howns nowUs
      simp only [vmcDrmScanoutPresent, if_neg hlt]
      refine ⟨⟨lost, hn, howns'⟩, hscreen ▸ h.shown, h.pending, h.handed, h.queue, fun e' he' => ?_⟩
      obtain rfl := Option.some.inj he'
      exact h.presenter e (by rw [hp]; rfl)
  | ebusy =>
      simp only [vmcDrmScanoutPresent, if_neg hlt]
      split
      · exact h.of_presenter hp (fun _ he' => he') (.inr rfl)
      · exact h.of_presenter hp (fun _ he' => he') (.inr rfl)
  | error =>
      simp only [vmcDrmScanoutPresent, if_neg hlt]
      exact h.of_presenter hp (fun _ he' => he') (.inr rfl)

theorem owning_event (h : s.Owning n) (ts : UInt64) :
    Owning n { s with drm := flipHandler s.drm ts } := by
  obtain ⟨lost, hn, howns⟩ := h.owns
  cases hflips : s.drm.flips with
  | nil =>
      obtain ⟨howns', -, hscreen, -⟩ := DrmScanout.owns_flipHandler_stray howns hflips ts
      exact ⟨⟨lost, hn, howns'⟩, hscreen ▸ h.shown, h.pending, h.handed, h.queue, h.presenter⟩
  | cons r rs =>
      obtain ⟨howns', -, hscreen, -⟩ := DrmScanout.owns_flipHandler howns hflips ts
      exact ⟨⟨lost, hn, howns'⟩, by rw [hscreen]; rfl, h.pending, h.handed, h.queue, h.presenter⟩

theorem owning_step {op : DecodeOp} (h : s.Owning n) (hstep : decodeStep s op = some s') :
    s'.Owning (n + if s.ReleasesSlot op then 0 else 1) := by
  have hhanded := handsPending_step h.handed hstep
  have heffect := effect_of_decodeStep hstep
  cases op with
  | take =>
      obtain ⟨-, i, -, rfl⟩ := heffect
      exact h.of_worker rfl rfl rfl rfl rfl rfl rfl hhanded
  | publish | discard =>
      obtain ⟨w, -, rfl⟩ := heffect
      exact h.of_worker rfl rfl rfl rfl rfl rfl rfl hhanded
  | select =>
      obtain ⟨hw, i, x, -, -, rfl⟩ := heffect
      exact h.of_worker rfl rfl rfl rfl rfl (by rw [hw]; rfl) (by simp [pendingBuffer, hw]) hhanded
  | mark | stopWaiting | convAsync =>
      obtain ⟨i, dl, hw, rfl⟩ := heffect
      exact h.of_worker rfl rfl rfl rfl rfl (by rw [hw]; rfl) (by simp [pendingBuffer, hw]) hhanded
  | decode ok decodeUs =>
      obtain ⟨i, dl, hw, rfl⟩ := heffect
      refine h.of_worker rfl rfl rfl rfl rfl ?_ ?_ hhanded
      · rw [hw]
        dsimp only
        split <;> rfl
      · dsimp only [pendingBuffer]
        rw [hw]
        split <;> grind
  | nextIdx => exact owning_nextIdx h hstep
  | handOver convUs =>
      obtain ⟨job, buf, ev, x, hw, -, -, rfl⟩ := heffect
      exact h.of_worker rfl rfl rfl rfl rfl (by rw [hw]; rfl) (by simp [pendingBuffer, hw]) hhanded
  | push => exact owning_push h hstep
  | setPending => exact owning_setPending h hstep
  | release =>
      obtain ⟨i, hw, rfl⟩ := heffect
      exact h.of_worker rfl rfl rfl rfl rfl (by rw [hw]; rfl) (by simp [pendingBuffer, hw]) hhanded
  | pop => exact owning_pop h hstep
  | pageFlip answer nowUs => exact owning_pageFlip h hstep
  | callAgain =>
      obtain ⟨e, calls, hp, rfl⟩ := heffect
      change Owning n _
      split
      · exact h.of_presenter hp (fun _ he' => he') (.inr rfl)
      · exact h.of_presenter hp (fun _ he' => he') (.inr rfl)
  | stopPresent =>
      obtain ⟨e, calls, hp | hp, rfl⟩ := heffect
      · exact h.of_presenter hp (fun _ he' => he') (.inr rfl)
      · exact h.of_presenter hp (fun _ he' => he') (.inr rfl)
  | endPresent =>
      obtain ⟨e, shown, hp, rfl⟩ := heffect
      exact h.of_presenter hp (by simp [PresentPc.entry]) (.inl rfl)
  | event ts =>
      obtain rfl := heffect
      exact owning_event h ts

/-- No step changes the number of buffers. -/
theorem nbufs_step {op : DecodeOp} (hstep : decodeStep s op = some s') :
    s'.drm.nbufs = s.drm.nbufs := by
  have heffect := effect_of_decodeStep hstep
  cases op with
  | nextIdx =>
      obtain ⟨job, waited, -, rfl⟩ := heffect
      obtain ⟨buf, -, heq⟩ | ⟨pc, -, heq⟩ := acquireStep_cases s job waited
      · rw [heq]
        exact DrmScanout.nbufs_nextIdx s.drm
      · rw [heq]
  | pageFlip answer nowUs =>
      obtain ⟨e, calls, tries, -, rfl⟩ := heffect
      exact DrmScanout.nbufs_present s.drm _ _ _ _
  | event ts =>
      obtain rfl := heffect
      exact DrmScanout.nbufs_flipHandler s.drm ts
  | take =>
      obtain ⟨-, i, -, rfl⟩ := heffect
      rfl
  | publish | discard =>
      obtain ⟨w, -, rfl⟩ := heffect
      rfl
  | select =>
      obtain ⟨-, i, x, -, -, rfl⟩ := heffect
      rfl
  | mark | decode | stopWaiting | convAsync | callAgain | stopPresent | endPresent =>
      obtain ⟨i, dl, -, rfl⟩ := heffect
      rfl
  | handOver convUs =>
      obtain ⟨job, buf, ev, x, -, -, -, rfl⟩ := heffect
      rfl
  | push =>
      obtain ⟨dl, buf, ev, -, rfl⟩ := heffect
      rfl
  | setPending =>
      obtain ⟨dl, buf, ev, rfl, -⟩ := heffect
      rfl
  | release =>
      obtain ⟨i, -, rfl⟩ := heffect
      rfl
  | pop =>
      obtain ⟨e, rest, -, -, rfl⟩ := heffect
      rfl

/-- The buffers of the entries in the queue. -/
def queued (s : DecodeLoop) : List Nat := s.queue.filterMap (·.bufIdx)

theorem Owning.queued_eq (h : s.Owning n) : s.queue.map (·.bufIdx) = s.queued.map some := by
  have hqueue := h.queue
  rw [queued]
  generalize s.queue = es at hqueue
  induction es with
  | nil => rfl
  | cons e es ih =>
      obtain ⟨b, hb⟩ := Option.ne_none_iff_exists'.mp (hqueue e (by simp))
      have hih := ih fun e' he' => hqueue e' (List.mem_cons_of_mem e he')
      simp [hb, hih]

/-- The buffers in the queue come first among those held. -/
theorem held_perm_queued (s : DecodeLoop) :
    s.held.Perm (s.queued ++ (s.worker.buffer.toList ++ s.pendingBuffer.toList ++
      s.presentBuffer.toList)) := by
  refine List.perm_iff_count.mpr fun i => ?_
  simp only [held, queued, List.count_append]
  omega

/-- The buffers queued, that of the worker, that of the pending conversion and the
one being presented are all different, and differ from those being flipped and the
one on screen. -/
theorem Owning.owns_queued (h : s.Owning n) :
    s.drm.Owns (s.queued ++ (s.worker.buffer.toList ++ s.pendingBuffer.toList ++
      s.presentBuffer.toList)) := by
  obtain ⟨lost, -, howns⟩ := h.owns
  exact (howns.sublist (List.sublist_append_left _ lost)).perm s.held_perm_queued.symm

/-- Some buffer is on screen, and the others are for those in use. -/
theorem Owning.length_lt {held : List Nat} (h : s.Owning n) (howns : s.drm.Owns held) :
    held.length < s.drm.nbufs := by
  obtain ⟨old, hold⟩ := Option.isSome_iff_exists.mp h.shown
  have hsub : s.drm.owned held ⊆ List.range s.drm.nbufs :=
    fun i hi => List.mem_range.mpr (howns.bound i hi)
  have hlen := (howns.nodup.subperm hsub).length_le
  simp only [DrmScanout.owned, hold, Option.toList_some, List.length_append, List.length_range,
    List.length_singleton] at hlen
  omega

theorem Owning.queue_length (h : s.Owning n) : s.queue.length < s.drm.nbufs := by
  have hlen := h.length_lt h.owns_queued
  have hqueue := congrArg List.length h.queued_eq
  simp only [List.length_append, List.length_map] at hlen hqueue
  omega

/-- The queue has room for the entries of all the buffers there are. -/
theorem Owning.room (h : s.Owning n) : s.queue.length < vmcPresentQueueBound := by
  obtain ⟨lost, -, howns⟩ := h.owns
  have hlen := h.queue_length
  have hmax := howns.nbufs
  simp only [vmcDrmMaxBufs] at hmax
  simp only [vmcPresentQueueBound]
  omega

/-- Conversions stored while none was pending cost a buffer each, but for the
first. -/
theorem Owning.misses_lt (h : s.Owning n) : n < s.drm.nbufs := by
  obtain ⟨lost, hn, howns⟩ := h.owns
  have hlen := h.length_lt howns
  have hheld : s.pending.bufIdx.toList.length ≤ s.held.length := by
    have hle : s.pending.bufIdx.toList.length ≤ 1 := Option.length_toList_le
    cases hw : s.worker with
    | pushed dl buf ev =>
        simp only [held, hw, DecodePc.buffer, Option.toList_some, List.length_append,
          List.length_singleton]
        omega
    | _ =>
        simp only [held, pendingBuffer, hw, List.length_append]
        omega
  rw [List.length_append] at hlen
  omega

theorem owning_exec {useDrm : Bool} {nbufs : Nat} (hlo : 2 ≤ nbufs) (hhi : nbufs ≤ vmcDrmMaxBufs)
    {ops : List DecodeOp} (hrun : Run.exec decodeStep (.init useDrm nbufs) ops = some s) :
    s.Owning (Run.misses decodeStep ReleasesSlot (.init useDrm nbufs) ops) ∧
      s.drm.nbufs = nbufs := by
  have h := Run.exec_misses ReleasesSlot (fun n s => s.Owning n ∧ s.drm.nbufs = nbufs)
    (fun _ _ _ _ h hstep => ⟨owning_step h.1 hstep, (nbufs_step hstep).trans h.2⟩)
    ⟨owning_init hlo hhi, rfl⟩ hrun
  rwa [Nat.zero_add] at h

end DecodeLoop

/-- **`present_push` never waits.**  In every run of the threads, each entry of
the present queue has a buffer of its own: neither the one the worker acquired,
nor that of the pending conversion, which it fills, nor the one being presented,
flipped or shown.  So there are fewer entries than buffers. -/
theorem present_push_room (useDrm : Bool) (nbufs : Nat) (hlo : 2 ≤ nbufs)
    (hhi : nbufs ≤ vmcDrmMaxBufs) (ops : List DecodeOp) (s : DecodeLoop)
    (hrun : Run.exec decodeStep (.init useDrm nbufs) ops = some s) :
    s.queue.map (·.bufIdx) = s.queued.map some ∧
      (s.queued ++ (s.worker.buffer.toList ++ s.pendingBuffer.toList ++
        s.presentBuffer.toList) ++ s.drm.flips ++ s.drm.onScreen.toList).Nodup ∧
      s.queue.length < nbufs ∧
      ∀ dl buf ev, s.worker = .handedOver dl buf ev → (decodeStep s .push).isSome := by
  obtain ⟨h, hnbufs⟩ := DecodeLoop.owning_exec hlo hhi hrun
  refine ⟨h.queued_eq, h.owns_queued.nodup, hnbufs ▸ h.queue_length, fun dl buf ev hw => ?_⟩
  simp [decodeStep, hw, h.room]

/-- A frame shown, and one on the point of being pushed. -/
theorem present_push_room_shown :
    ∃ s, Run.exec decodeStep (.init true 3) (shownRun ++
        startFrame (dashFrame 300 2 33333 1) true ++ [.handOver 7]) = some s ∧
      (decodeStep s .push).isSome := by
  have hrun : (Run.exec decodeStep (.init true 3) (shownRun ++
      startFrame (dashFrame 300 2 33333 1) true ++ [.handOver 7])).map (·.worker) =
      some (.handedOver 300 0 true) := by
    decide +kernel
  obtain ⟨s, hs, hw⟩ := Option.map_eq_some_iff.mp hrun
  exact ⟨s, hs, (present_push_room true 3 (by decide) (by decide) _ s hs).2.2.2 300 0 true hw⟩

/-! ## lost slots -/

/-- How many slots are in state DECODING. -/
def FramePool.decoding (p : FramePool) : Nat := p.slots.countP fun x => x.state = .decoding

/-- Whether the slot is one of these. -/
def FrameSlot.decodes (x : FrameSlot) : Nat := if x.state = .decoding then 1 else 0

theorem FramePool.decoding_set {p p' : FramePool} {i : Nat} {x y : FrameSlot}
    (hx : p.slots[i]? = some x) (hp : p'.slots = p.slots.set i y) :
    p'.decoding + x.decodes = p.decoding + y.decodes := by
  obtain ⟨hi, rfl⟩ := List.getElem?_eq_some_iff.mp hx
  have hle := @List.boole_getElem_le_countP _ (fun x : FrameSlot => decide (x.state = .decoding))
    p.slots i hi
  simp only [FramePool.decoding, FrameSlot.decodes, hp, List.countP_set hi, decide_eq_true_eq]
    at hle ⊢
  omega

namespace DecodeLoop

variable {s s' : DecodeLoop} {n : Nat}

/-- With `n` slots lost: those in state DECODING are these and the one the worker
marked. -/
structure Lost (n : Nat) (s : DecodeLoop) : Prop extends SlotsHeld s where
  handed : s.HandsPending
  onlyWriting : ∀ (i : Nat) (x : FrameSlot), s.pool.slots[i]? = some x → x.state = .writing →
    s.writeSlot = some i
  decoding : s.pool.decoding = n + s.worker.markedSlot.toList.length

theorem lost_init (useDrm : Bool) (nbufs : Nat) : Lost 0 (init useDrm nbufs) := by
  refine ⟨slotsHeld_init useDrm nbufs, handsPending_init useDrm nbufs, ?_, ?_⟩
  · intro i x hx hst
    have hzero := List.eq_of_mem_replicate (List.mem_of_getElem? hx)
    rw [hzero] at hst
    cases hst
  · refine List.countP_eq_zero.mpr fun x hx => ?_
    rw [List.eq_of_mem_replicate hx]
    decide

/-- Steps that leave the slots alone. -/
theorem Lost.of_pool_eq (h : s.Lost n) (hheld : s'.SlotsHeld) (hhanded : s'.HandsPending)
    (hpool : s'.pool = s.pool) (hws : s'.writeSlot = s.writeSlot)
    (hmarked : s'.worker.markedSlot = s.worker.markedSlot) : s'.Lost n := by
  refine ⟨hheld, hhanded, ?_, ?_⟩
  · rw [hpool, hws]
    exact h.onlyWriting
  · rw [hpool, hmarked]
    exact h.decoding

/-- Steps that change one slot. -/
theorem Lost.of_set (h : s.Lost n) (hheld : s'.SlotsHeld) (hhanded : s'.HandsPending) {i : Nat}
    {x y : FrameSlot} (hx : s.pool.slots[i]? = some x)
    (hpool : s'.pool.slots = s.pool.slots.set i y)
    (hself : y.state = .writing → s'.writeSlot = some i)
    (hother : ∀ j, j ≠ i → s.writeSlot = some j → s'.writeSlot = some j)
    (hmarked : s'.worker.markedSlot.toList.length + x.decodes =
      s.worker.markedSlot.toList.length + y.decodes) : s'.Lost n := by
  refine ⟨hheld, hhanded, ?_, ?_⟩
  · intro j z hz hst
    rw [hpool, List.getElem?_set] at hz
    split at hz
    · rename_i hij
      split at hz
      · obtain rfl := Option.some.inj hz
        exact hij ▸ hself hst
      · cases hz
    · rename_i hij
      exact hother j (Ne.symm hij) (h.onlyWriting j z hz hst)
  · have hdec := h.decoding
    have hset := FramePool.decoding_set hx hpool
    omega

/-- One step: a slot is lost with a conversion stored while none is pending. -/
theorem lost_step {op : DecodeOp} (h : s.Lost n) (hstep : decodeStep s op = some s') :
    s'.Lost (n + if s.ReleasesSlot op then 0 else 1) := by
  have hheld := slotsHeld_step h.toSlotsHeld hstep
  have hhanded := handsPending_step h.handed hstep
  have heffect := effect_of_decodeStep hstep
  cases op with
  | take =>
      obtain ⟨hnone, i, hi, rfl⟩ := heffect
      obtain ⟨x, hx, hfree⟩ := Pool.exists_of_findIdx? hi
      refine h.of_set hheld hhanded hx (slots_mark hx .writing) (fun _ => rfl) ?_ ?_
      · intro j _ hj
        rw [hnone] at hj
        cases hj
      · simp [FrameSlot.decodes, of_decide_eq_true hfree]
  | publish f =>
      obtain ⟨w, hw, rfl⟩ := heffect
      obtain ⟨x, hx, hst⟩ := h.writing w hw
      refine h.of_set (y := ⟨f, .ready⟩) hheld hhanded hx rfl (fun hy => nomatch hy) ?_ ?_
      · exact fun j hne hj => absurd (Option.some.inj (hj.symm.trans hw)) hne
      · simp [FrameSlot.decodes, hst]
  | discard =>
      obtain ⟨w, hw, rfl⟩ := heffect
      obtain ⟨x, hx, hst⟩ := h.writing w hw
      refine h.of_set hheld hhanded hx (slots_mark hx .free) (fun hy => nomatch hy) ?_ ?_
      · exact fun j hne hj => absurd (Option.some.inj (hj.symm.trans hw)) hne
      · simp [FrameSlot.decodes, hst]
  | select =>
      obtain ⟨hw, i, x, -, -, rfl⟩ := heffect
      exact h.of_pool_eq hheld hhanded rfl rfl (by rw [hw]; rfl)
  | mark =>
      obtain ⟨i, dl, hw, rfl⟩ := heffect
      obtain ⟨x, hx, hexp⟩ := h.worker i (by rw [hw]; rfl)
      rw [hw] at hexp
      refine h.of_set hheld hhanded hx (slots_mark hx .decoding) (fun hy => nomatch hy)
        (fun j _ hj => hj) ?_
      simp [FrameSlot.decodes, hexp.1, hw, DecodePc.markedSlot, DecodePc.slot]
  | decode ok decodeUs =>
      obtain ⟨i, dl, hw, rfl⟩ := heffect
      refine h.of_pool_eq hheld hhanded rfl rfl ?_
      rw [hw]
      dsimp only
      split <;> rfl
  | nextIdx =>
      obtain ⟨job, waited, hw, rfl⟩ := heffect
      obtain ⟨buf, -, heq⟩ | ⟨pc, rfl | rfl, heq⟩ := acquireStep_cases s job waited
      all_goals
        rw [heq] at hheld hhanded ⊢
        exact h.of_pool_eq hheld hhanded rfl rfl (by rw [hw]; rfl)
  | stopWaiting | convAsync =>
      obtain ⟨job, x, hw, rfl⟩ := heffect
      exact h.of_pool_eq hheld hhanded rfl rfl (by rw [hw]; rfl)
  | handOver convUs =>
      obtain ⟨job, buf, ev, x, hw, -, hx, rfl⟩ := heffect
      obtain ⟨y, hy, hexp⟩ := h.worker job.idx (by rw [hw]; rfl)
      obtain rfl := Option.some.inj (hx.symm.trans hy)
      rw [hw] at hexp
      refine h.of_set hheld hhanded hx (slots_mark hx .free) (fun hy => nomatch hy)
        (fun j _ hj => hj) ?_
      simp [FrameSlot.decodes, hexp.1, hw, DecodePc.markedSlot, DecodePc.slot]
  | push =>
      obtain ⟨dl, buf, ev, hw, rfl⟩ := heffect
      exact h.of_pool_eq hheld hhanded rfl rfl (by rw [hw]; rfl)
  | setPending =>
      obtain ⟨dl, buf, ev, rfl, hw | ⟨job, hw, -, hev⟩⟩ := effect_of_decodeStep hstep
      · have hok : s.ReleasesSlot .setPending := h.handed dl buf ev (.inr hw)
        rw [if_pos hok]
        exact h.of_pool_eq hheld hhanded rfl rfl (by rw [hw]; rfl)
      · have hmiss : ¬ s.ReleasesSlot .setPending := fun hok => by
          have hok' : s.pending.ev = true := hok
          rw [hev] at hok'
          cases hok'
        rw [if_neg hmiss]
        refine ⟨hheld, hhanded, h.onlyWriting, ?_⟩
        have hdec := h.decoding
        rw [hw] at hdec
        exact hdec
  | release =>
      obtain ⟨i, hw, rfl⟩ := heffect
      obtain ⟨x, hx, hexp⟩ := h.worker i (by rw [hw]; rfl)
      rw [hw] at hexp
      refine h.of_set hheld hhanded hx (slots_mark hx .free) (fun hy => nomatch hy)
        (fun j _ hj => hj) ?_
      have hst : x.state = .decoding := hexp
      simp [FrameSlot.decodes, hst, hw, DecodePc.markedSlot, DecodePc.slot]
  | pop =>
      obtain ⟨e, rest, -, -, rfl⟩ := heffect
      exact h.of_pool_eq hheld hhanded rfl rfl rfl
  | pageFlip answer nowUs =>
      obtain ⟨e, calls, tries, -, rfl⟩ := heffect
      exact h.of_pool_eq hheld hhanded rfl rfl rfl
  | callAgain | stopPresent | endPresent =>
      obtain ⟨e, calls, -, rfl⟩ := heffect
      exact h.of_pool_eq hheld hhanded rfl rfl rfl
  | event ts =>
      obtain rfl := heffect
      exact h.of_pool_eq hheld hhanded rfl rfl rfl

theorem lost_exec {useDrm : Bool} {nbufs : Nat} {ops : List DecodeOp}
    (hrun : Run.exec decodeStep (.init useDrm nbufs) ops = some s) :
    s.Lost (Run.misses decodeStep ReleasesSlot (.init useDrm nbufs) ops) := by
  have h := Run.exec_misses ReleasesSlot Lost (fun _ _ _ _ h => lost_step h)
    (lost_init useDrm nbufs) hrun
  rwa [Nat.zero_add] at h

/-! ## one of the two threads can go on -/

/-- Steps of the reader and of the decode worker. -/
def feeds : DecodeOp → Bool
  | .pop | .pageFlip _ _ | .callAgain | .stopPresent | .endPresent | .event _ => false
  | _ => true

/-- One of them can go on. -/
def GoesOn (s : DecodeLoop) : Prop := ∃ op, feeds op = true ∧ (decodeStep s op).isSome

/-- Whenever the worker is not at its selection, it can go on. -/
theorem Lost.worker_steps (h : s.Lost n) (hroom : s.queue.length < vmcPresentQueueBound)
    (hw : s.worker ≠ .atSelect) : s.GoesOn := by
  cases hpc : s.worker with
  | atSelect => exact absurd hpc hw
  | selected i dl => exact ⟨.mark, rfl, by simp [decodeStep, hpc]⟩
  | marked i dl => exact ⟨.decode true 0, rfl, by simp [decodeStep, hpc]⟩
  | acquiring job waited => exact ⟨.nextIdx, rfl, by simp [decodeStep, hpc]⟩
  | acquired job buf => exact ⟨.convAsync true, rfl, by simp [decodeStep, hpc]⟩
  | converted job buf ev =>
      obtain ⟨x, hx, -⟩ := h.worker job.idx (by rw [hpc]; rfl)
      by_cases hev : s.pending.ev = true
      · exact ⟨.handOver 0, rfl, by simp [decodeStep, hpc, hev, hx]⟩
      · exact ⟨.setPending, rfl, by simp [decodeStep, hpc, hev]⟩
  | handedOver dl buf ev => exact ⟨.push, rfl, by simp [decodeStep, hpc, hroom]⟩
  | pushed dl buf ev => exact ⟨.setPending, rfl, by simp [decodeStep, hpc]⟩
  | releasing i => exact ⟨.release, rfl, by simp [decodeStep, hpc]⟩

/-- If neither can go on, every slot is lost. -/
theorem Lost.all_lost (h : s.Lost n) (hroom : s.queue.length < vmcPresentQueueBound)
    (hsel : s.pool.Selectable) (hstuck : ¬ s.GoesOn) : n = vmcFrameSlots := by
  have hnone : ∀ op, feeds op = true → decodeStep s op = none := fun op hop =>
    Option.not_isSome_iff_eq_none.mp fun hsome => hstuck ⟨op, hop, hsome⟩
  have hworker : s.worker = .atSelect := by
    by_contra hw
    exact hstuck (h.worker_steps hroom hw)
  have hwrite : s.writeSlot = none := by
    cases hw : s.writeSlot with
    | none => rfl
    | some w =>
        have hdiscard := hnone .discard rfl
        simp [decodeStep, hw] at hdiscard
  have hfree : ∀ x ∈ s.pool.slots, x.state ≠ .free := by
    have htake := hnone .take rfl
    simp only [decodeStep, hwrite, Option.map_eq_none_iff] at htake
    exact FramePool.waits_take_iff.mp (Option.isNone_iff_eq_none.mpr htake)
  have hready : ∀ x ∈ s.pool.slots, x.state ≠ .ready := by
    refine (FramePool.waits_select_iff hsel).mp ?_
    rw [FramePool.waits, Option.isNone_iff_eq_none]
    by_contra hsome
    obtain ⟨i, hi⟩ := Option.ne_none_iff_exists'.mp hsome
    obtain ⟨x, hx, -⟩ := ready_of_selectReady hi
    have hselect := hnone .select rfl
    simp [decodeStep, hworker, hi, hx] at hselect
  have hdec : s.pool.decoding = vmcFrameSlots := by
    rw [FramePool.decoding, ← s.pool.size, List.countP_eq_length]
    intro x hx
    cases hst : x.state with
    | decoding => rfl
    | free => exact absurd hst (hfree x hx)
    | ready => exact absurd hst (hready x hx)
    | writing =>
        obtain ⟨i, hi⟩ := List.mem_iff_getElem?.mp hx
        have hw := h.onlyWriting i x hi hst
        rw [hwrite] at hw
        cases hw
  have hcount := h.decoding
  rw [hdec, hworker] at hcount
  exact hcount.symm

/-- Frames published with a deadline below the greatest can be selected. -/
theorem selectable_step {op : DecodeOp} (h : s.pool.Selectable)
    (hdl : ∀ f, op = .publish f → f.deadlineUs < 0xFFFFFFFFFFFFFFFF)
    (hstep : decodeStep s op = some s') : s'.pool.Selectable := by
  have hmark : ∀ (i : Nat) (st : SlotState), st ≠ .ready → (s.pool.mark i st).Selectable := by
    intro i st hne x hx hst
    obtain hold | hnew := FramePool.mem_mark hx
    · exact h x hold hst
    · exact absurd (hnew.symm.trans hst) hne
  have heffect := effect_of_decodeStep hstep
  cases op with
  | take =>
      obtain ⟨-, i, -, rfl⟩ := heffect
      exact hmark i .writing (by decide)
  | publish f =>
      obtain ⟨w, -, rfl⟩ := heffect
      intro x hx hst
      obtain hold | rfl := List.mem_or_eq_of_mem_set hx
      · exact h x hold hst
      · exact hdl f rfl
  | discard =>
      obtain ⟨w, -, rfl⟩ := heffect
      exact hmark w .free (by decide)
  | select =>
      obtain ⟨-, i, x, -, -, rfl⟩ := heffect
      exact h
  | mark =>
      obtain ⟨i, dl, -, rfl⟩ := heffect
      exact hmark i .decoding (by decide)
  | decode | stopWaiting | convAsync | callAgain | stopPresent | endPresent =>
      obtain ⟨i, dl, -, rfl⟩ := heffect
      exact h
  | nextIdx =>
      obtain ⟨job, waited, -, rfl⟩ := heffect
      obtain ⟨buf, -, heq⟩ | ⟨pc, -, heq⟩ := acquireStep_cases s job waited
      all_goals
        rw [heq]
        exact h
  | handOver convUs =>
      obtain ⟨job, buf, ev, x, -, -, -, rfl⟩ := heffect
      exact hmark job.idx .free (by decide)
  | push =>
      obtain ⟨dl, buf, ev, -, rfl⟩ := heffect
      exact h
  | setPending =>
      obtain ⟨dl, buf, ev, rfl, -⟩ := heffect
      exact h
  | release =>
      obtain ⟨i, -, rfl⟩ := heffect
      exact hmark i .free (by decide)
  | pop =>
      obtain ⟨e, rest, -, -, rfl⟩ := heffect
      exact h
  | pageFlip answer nowUs =>
      obtain ⟨e, calls, tries, -, rfl⟩ := heffect
      exact h
  | event ts =>
      obtain rfl := heffect
      exact h

end DecodeLoop

/-- **Where slots are lost, and how many at most.**  In every run, in either mode,
the slots in state DECODING are the one the worker is at and one for each
conversion that was stored while none with an event was pending; and of these
there are fewer than scan-out buffers. -/
theorem lost_slots_bounded (useDrm : Bool) (nbufs : Nat) (hlo : 2 ≤ nbufs)
    (hhi : nbufs ≤ vmcDrmMaxBufs) (ops : List DecodeOp) (s : DecodeLoop)
    (hrun : Run.exec decodeStep (.init useDrm nbufs) ops = some s) :
    (s.pool.slots.countP fun x => x.state = .decoding) =
        Run.misses decodeStep DecodeLoop.ReleasesSlot (.init useDrm nbufs) ops +
          s.worker.markedSlot.toList.length ∧
      Run.misses decodeStep DecodeLoop.ReleasesSlot (.init useDrm nbufs) ops < nbufs := by
  obtain ⟨hown, hnbufs⟩ := DecodeLoop.owning_exec hlo hhi hrun
  exact ⟨(DecodeLoop.lost_exec hrun).decoding, hnbufs ▸ hown.misses_lt⟩

/-- Two conversions without an event: the first frame's slot is lost, the second
one's too, and a third frame is being decoded. -/
def eventlessRun : List DecodeOp :=
  startFrame (dashFrame 100 0 0 1) false ++ [.setPending] ++
    startFrame (dashFrame 200 1 16667 1) false ++ [.setPending, .take,
      .publish (dashFrame 300 2 33333 1), .select, .mark]

theorem lost_slots_bounded_eventless :
    ∃ s, Run.exec decodeStep (.init true 3) eventlessRun = some s ∧
      (s.pool.slots.countP fun x => x.state = .decoding) = 3 := by
  have hrun : (Run.exec decodeStep (.init true 3) eventlessRun).map (·.worker.markedSlot) =
      some (some 2) := by
    decide +kernel
  obtain ⟨s, hs, hmarked⟩ := Option.map_eq_some_iff.mp hrun
  have hmisses : Run.misses decodeStep DecodeLoop.ReleasesSlot (.init true 3) eventlessRun = 2 := by
    decide +kernel
  have hlost := (lost_slots_bounded true 3 (by decide) (by decide) eventlessRun s hs).1
  rw [hmisses, hmarked] at hlost
  exact ⟨s, hs, hlost⟩

/-- **The pipeline does not hang.**  In every state of every run without a resync
and without a cancellation of the reader, in either mode, whatever conversions and
flips come to, the reader or the decode worker can go on. -/
theorem pipeline_goes_on (useDrm : Bool) (nbufs : Nat) (hlo : 2 ≤ nbufs)
    (hhi : nbufs ≤ vmcDrmMaxBufs) (ops : List DecodeOp) (s : DecodeLoop)
    (hdl : ∀ f, .publish f ∈ ops → f.deadlineUs < 0xFFFFFFFFFFFFFFFF)
    (hrun : Run.exec decodeStep (.init useDrm nbufs) ops = some s) : s.GoesOn := by
  obtain ⟨hown, hnbufs⟩ := DecodeLoop.owning_exec hlo hhi hrun
  have hok : Run.Along decodeStep (fun _ op => True ∧ ∀ f, op = .publish f →
      f.deadlineUs < 0xFFFFFFFFFFFFFFFF) (.init useDrm nbufs) ops := by
    refine (Run.along_true _ ops).and_mem fun op hop f heq => hdl f ?_
    rwa [← heq]
  have hsel : s.pool.Selectable := by
    refine Run.exec_invariant (fun s => s.pool.Selectable)
      (fun _ _ _ h hok => DecodeLoop.selectable_step h hok.2) ?_ hok hrun
    intro x hx hst
    rw [List.eq_of_mem_replicate hx] at hst
    cases hst
  by_contra hstuck
  have hall := (DecodeLoop.lost_exec hrun).all_lost hown.room hsel hstuck
  have hfew := hown.misses_lt
  rw [hall, hnbufs] at hfew
  simp only [vmcDrmMaxBufs] at hhi
  simp only [vmcFrameSlots] at hfew
  omega

/-- With all buffers but two lost or on screen, too. -/
theorem pipeline_goes_on_eventless :
    ∃ s, Run.exec decodeStep (.init true 3) eventlessRun = some s ∧ s.GoesOn := by
  have hrun : (Run.exec decodeStep (.init true 3) eventlessRun).isSome = true := by
    decide +kernel
  obtain ⟨s, hs⟩ := Option.isSome_iff_exists.mp hrun
  have hdl : ∀ f, .publish f ∈ eventlessRun → f.deadlineUs < 0xFFFFFFFFFFFFFFFF := by
    intro f hf
    simp only [eventlessRun, startFrame, dashFrame] at hf
    grind
  exact ⟨s, hs, pipeline_goes_on true 3 (by decide) (by decide) eventlessRun s hdl hs⟩

end Vmc
