import Vmc.Client.DecodeWorker

/-!
# Vmc.Client.SlotConservation

What becomes of the frame slots (`apps/thinclient/main.c`).

The slot the worker selected stays as it is until the worker changes it
(`DecodeLoop.SlotsHeld`), whatever the producer does meanwhile.

Each exit of an iteration is to release the slot it marked.  All do but one: in
DRM mode the release stands inside the branch for an earlier conversion that is
pending, so a frame whose conversion is started while none is keeps its slot
for ever.  The first frame of a session is one, and so is each that follows a
conversion without an event.  Slots are conserved exactly in the runs without
such a frame (`slots_conserved_iff`).
-/

namespace Vmc

/-- The slot the worker selected and has not released. -/
def DecodePc.slot : DecodePc → Option Nat
  | selected i _ | marked i _ | releasing i => some i
  | acquiring job _ | acquired job _ | converted job _ _ => some job.idx
  | _ => none

/-- The slot it marked and has not released. -/
def DecodePc.markedSlot : DecodePc → Option Nat
  | selected _ _ => none
  | pc => pc.slot

/-- What the worker takes its slot to be: its state, and the deadline the worker
keeps a copy of. -/
def DecodePc.Expects (x : FrameSlot) : DecodePc → Prop
  | selected _ dl => x.state = .ready ∧ x.deadlineUs = dl
  | marked _ dl => x.state = .decoding ∧ x.deadlineUs = dl
  | acquiring job _ | acquired job _ | converted job _ _ =>
      x.state = .decoding ∧ x.deadlineUs = job.deadlineUs
  | releasing _ => x.state = .decoding
  | _ => True

/-- A slot that was marked is in state DECODING. -/
theorem DecodePc.Expects.decoding {x : FrameSlot} {pc : DecodePc} {i : Nat} (h : pc.Expects x)
    (hi : pc.markedSlot = some i) : x.state = .decoding := by
  cases pc with
  | atSelect | selected | handedOver | pushed => simp [markedSlot, slot] at hi
  | marked | acquiring | acquired | converted => exact h.1
  | releasing => exact h

theorem DecodePc.Expects.state {x : FrameSlot} {pc : DecodePc} {i : Nat} (h : pc.Expects x)
    (hi : pc.slot = some i) : x.state = .ready ∨ x.state = .decoding := by
  cases pc with
  | selected => exact .inl h.1
  | atSelect | handedOver | pushed => simp [slot] at hi
  | marked | acquiring | acquired | converted => exact .inr h.1
  | releasing => exact .inr h

namespace DecodeLoop

variable {s s' : DecodeLoop}

/-! ## the slots in the hands of the threads -/

/-- The producer's slot and the worker's are as each left its own. -/
structure SlotsHeld (s : DecodeLoop) : Prop where
  writing : ∀ w, s.writeSlot = some w → ∃ x, s.pool.slots[w]? = some x ∧ x.state = .writing
  worker : ∀ i, s.worker.slot = some i → ∃ x, s.pool.slots[i]? = some x ∧ s.worker.Expects x

theorem slotsHeld_init (useDrm : Bool) (nbufs : Nat) : (init useDrm nbufs).SlotsHeld := by
  constructor
  · simp [init]
  · simp [init, DecodePc.slot]

/-- The worker holds neither a free slot nor one being written. -/
theorem SlotsHeld.slot_ne (h : s.SlotsHeld) {w : Nat} {x : FrameSlot}
    (hx : s.pool.slots[w]? = some x) (hst : x.state = .free ∨ x.state = .writing) :
    s.worker.slot ≠ some w := by
  intro hw
  obtain ⟨y, hy, hexp⟩ := h.worker w hw
  obtain rfl : x = y := Option.some.inj (hx.symm.trans hy)
  have hstate := hexp.state hw
  grind

/-- Steps that leave the slots and the producer alone: the worker moves on with
its slot, or without. -/
theorem SlotsHeld.of_pool_eq (h : s.SlotsHeld) (hpool : s'.pool = s.pool)
    (hws : s'.writeSlot = s.writeSlot)
    (hworker : ∀ i, s'.worker.slot = some i → s.worker.slot = some i ∧
      ∀ x, s.worker.Expects x → s'.worker.Expects x) : s'.SlotsHeld := by
  constructor
  · rw [hpool, hws]
    exact h.writing
  · intro i hi
    obtain ⟨hold, hexp⟩ := hworker i hi
    obtain ⟨x, hx, hx'⟩ := h.worker i hold
    exact ⟨x, hpool ▸ hx, hexp x hx'⟩

/-- The producer changes a slot that is not the worker's. -/
theorem SlotsHeld.of_producer (h : s.SlotsHeld) {w : Nat} {x y : FrameSlot}
    (hx : s.pool.slots[w]? = some x) (hst : x.state = .free ∨ x.state = .writing)
    (hw : s'.worker = s.worker)
    (hslots : ∀ j, s'.pool.slots[j]? = if w = j then some y else s.pool.slots[j]?)
    (hws : ∀ v, s'.writeSlot = some v → v = w ∧ y.state = .writing) : s'.SlotsHeld := by
  constructor
  · intro v hv
    obtain ⟨rfl, hy⟩ := hws v hv
    exact ⟨y, by rw [hslots, if_pos rfl], hy⟩
  · intro i hi
    rw [hw] at hi ⊢
    obtain ⟨z, hz, hexp⟩ := h.worker i hi
    refine ⟨z, ?_, hexp⟩
    rw [hslots, if_neg, hz]
    rintro rfl
    exact h.slot_ne hx hst hi

/-- The worker changes the state of its own slot. -/
theorem SlotsHeld.of_mark (h : s.SlotsHeld) {i : Nat} {st : SlotState}
    (hi : s.worker.slot = some i) (hpool : s'.pool = s.pool.mark i st)
    (hws : s'.writeSlot = s.writeSlot)
    (hworker : ∀ j, s'.worker.slot = some j →
      j = i ∧ ∀ x, s.worker.Expects x → s'.worker.Expects { x with state := st }) :
    s'.SlotsHeld := by
  constructor
  · intro w hw
    rw [hws] at hw
    obtain ⟨x, hx, hst⟩ := h.writing w hw
    have hne : i ≠ w := by
      rintro rfl
      exact h.slot_ne hx (.inr hst) hi
    exact ⟨x, by rw [hpool, getElem?_mark_of_ne s.pool hne, hx], hst⟩
  · intro j hj
    obtain ⟨rfl, hexp⟩ := hworker j hj
    obtain ⟨x, hx, hx'⟩ := h.worker j hi
    exact ⟨_, by rw [hpool, getElem?_mark_self hx], hexp x hx'⟩

theorem slotsHeld_step {op : DecodeOp} (h : s.SlotsHeld) (hstep : decodeStep s op = some s') :
    s'.SlotsHeld := by
  have heffect := effect_of_decodeStep hstep
  cases op with
  | take =>
      obtain ⟨-, i, hi, rfl⟩ := heffect
      obtain ⟨x, hx, hfree⟩ := Pool.exists_of_findIdx? hi
      refine h.of_producer (y := { x with state := .writing }) hx (.inl (by simpa using hfree)) rfl ?_
        fun v hv => ⟨(Option.some.inj hv).symm, rfl⟩
      intro j
      rw [getElem?_mark]
      grind
  | publish f =>
      obtain ⟨w, hw, rfl⟩ := heffect
      obtain ⟨x, hx, hst⟩ := h.writing w hw
      have hlt : w < vmcFrameSlots := s.pool.size ▸ (List.getElem?_eq_some_iff.mp hx).1
      exact h.of_producer hx (.inr hst) rfl (getElem?_put s.pool hlt _) (by simp)
  | discard =>
      obtain ⟨w, hw, rfl⟩ := heffect
      obtain ⟨x, hx, hst⟩ := h.writing w hw
      refine h.of_producer (y := { x with state := .free }) hx (.inr hst) rfl ?_ (by simp)
      intro j
      rw [getElem?_mark]
      grind
  | select =>
      obtain ⟨-, i, x, hi, hx, rfl⟩ := heffect
      refine ⟨h.writing, fun j hj => ?_⟩
      obtain rfl : i = j := by simpa [DecodePc.slot] using hj
      obtain ⟨y, hy, hst⟩ := ready_of_selectReady hi
      obtain rfl : x = y := Option.some.inj (hx.symm.trans hy)
      exact ⟨x, hx, hst, rfl⟩
  | mark =>
      obtain ⟨i, dl, hw, rfl⟩ := heffect
      refine h.of_mark (by rw [hw]; rfl) rfl rfl fun j hj => ⟨?_, fun x hx => ?_⟩
      · simpa [DecodePc.slot] using hj.symm
      · rw [hw] at hx
        exact ⟨rfl, hx.2⟩
  | decode ok decodeUs =>
      obtain ⟨i, dl, hw, rfl⟩ := heffect
      refine h.of_pool_eq rfl rfl ?_
      rw [hw]
      dsimp only
      split
      · exact fun j hj => ⟨hj, fun x hx => hx⟩
      · exact fun j hj => ⟨hj, fun x hx => hx.1⟩
  | nextIdx =>
      obtain ⟨job, waited, hw, rfl⟩ := heffect
      obtain ⟨buf, -, heq⟩ | ⟨pc, rfl | rfl, heq⟩ := acquireStep_cases s job waited
      all_goals
        rw [heq]
        refine h.of_pool_eq rfl rfl ?_
        rw [hw]
      · exact fun j hj => ⟨hj, fun x hx => hx⟩
      · exact fun j hj => ⟨hj, fun x hx => hx⟩
      · exact fun j hj => ⟨hj, fun x hx => hx.1⟩
  | stopWaiting =>
      obtain ⟨job, waited, hw, rfl⟩ := heffect
      refine h.of_pool_eq rfl rfl ?_
      rw [hw]
      exact fun j hj => ⟨hj, fun x hx => hx.1⟩
  | convAsync ev =>
      obtain ⟨job, buf, hw, rfl⟩ := heffect
      refine h.of_pool_eq rfl rfl ?_
      rw [hw]
      exact fun j hj => ⟨hj, fun x hx => hx⟩
  | handOver convUs =>
      obtain ⟨job, buf, ev, x, hw, -, -, rfl⟩ := heffect
      exact h.of_mark (i := job.idx) (by rw [hw]; rfl) rfl rfl (by simp [DecodePc.slot])
  | push =>
      obtain ⟨dl, buf, ev, -, rfl⟩ := heffect
      exact h.of_pool_eq rfl rfl (by simp [DecodePc.slot])
  | setPending =>
      obtain ⟨dl, buf, ev, rfl, -⟩ := heffect
      exact h.of_pool_eq rfl rfl (by simp [setPendingTo, DecodePc.slot])
  | release =>
      obtain ⟨i, hw, rfl⟩ := heffect
      exact h.of_mark (i := i) (by rw [hw]; rfl) rfl rfl (by simp [DecodePc.slot])
  | pop =>
      obtain ⟨e, rest, -, -, rfl⟩ := heffect
      exact ⟨h.writing, h.worker⟩
  | pageFlip answer nowUs =>
      obtain ⟨e, calls, tries, -, rfl⟩ := heffect
      exact ⟨h.writing, h.worker⟩
  | callAgain | stopPresent | endPresent =>
      obtain ⟨e, calls, -, rfl⟩ := heffect
      exact ⟨h.writing, h.worker⟩
  | event ts =>
      obtain rfl := heffect
      exact ⟨h.writing, h.worker⟩

/-! ## the balance of marks and releases -/

/-- The slots marked and not released are the worker's, which is one at most. -/
structure SlotsBalanced (s : DecodeLoop) : Prop extends SlotsHeld s where
  decoding : ∀ (i : Nat) (x : FrameSlot), s.pool.slots[i]? = some x → x.state = .decoding →
    s.worker.markedSlot = some i
  history : s.marks = s.releases ++ s.worker.markedSlot.toList
  handed : s.HandsPending

/-- What is promised of the slots: each one marked is released, once, before the
worker selects again; so none is in state DECODING when it does, and the other
states account for all of them. -/
structure SlotsConserved (s : DecodeLoop) : Prop where
  history : s.marks = s.releases ++ s.worker.markedSlot.toList
  atSelect : s.worker = .atSelect → (∀ x ∈ s.pool.slots, x.state ≠ .decoding) ∧
    (s.pool.slots.countP fun x => x.state = .free ∨ x.state = .ready ∨ x.state = .writing) =
      vmcFrameSlots

theorem SlotsBalanced.conserved (h : s.SlotsBalanced) : s.SlotsConserved := by
  refine ⟨h.history, fun hsel => ?_⟩
  have hnone : ∀ x ∈ s.pool.slots, x.state ≠ .decoding := by
    intro x hx hst
    obtain ⟨i, hi⟩ := List.mem_iff_getElem?.mp hx
    have hmarked := h.decoding i x hi hst
    rw [hsel] at hmarked
    contradiction
  refine ⟨hnone, ?_⟩
  rw [← s.pool.size, List.countP_eq_length]
  intro x hx
  have hst := hnone x hx
  cases hx' : x.state with
  | decoding => exact absurd hx' hst
  | free | ready | writing => simp

theorem slotsBalanced_init (useDrm : Bool) (nbufs : Nat) : (init useDrm nbufs).SlotsBalanced := by
  refine ⟨slotsHeld_init useDrm nbufs, ?_, rfl, handsPending_init useDrm nbufs⟩
  intro i x hx hst
  have hzero : x = FrameSlot.zero := by
    simp only [init, FramePool.zero, List.getElem?_replicate] at hx
    grind
  rw [hzero] at hst
  contradiction

/-- The slot marked is released in the same iteration: the conversion of another
frame is pending when that of this one is stored. -/
def ReleasesSlot (s : DecodeLoop) : DecodeOp → Prop
  | .setPending => s.pending.ev = true
  | _ => True

instance (s : DecodeLoop) : (op : DecodeOp) → Decidable (s.ReleasesSlot op)
  | .setPending => inferInstanceAs (Decidable (s.pending.ev = true))
  | .take | .publish _ | .discard | .select | .mark | .decode _ _ | .nextIdx | .stopWaiting
  | .convAsync _ | .handOver _ | .push | .release | .pop | .pageFlip _ _ | .callAgain
  | .stopPresent | .endPresent | .event _ => .isTrue trivial

/-- A slot marked otherwise is not one in state DECODING. -/
theorem getElem?_of_mark {p : FramePool} {i j : Nat} {st : SlotState} {x : FrameSlot}
    (hst : st ≠ .decoding) (hx : (p.mark i st).slots[j]? = some x) (hdec : x.state = .decoding) :
    p.slots[j]? = some x := by
  rw [getElem?_mark] at hx
  split at hx
  · obtain ⟨y, -, rfl⟩ := Option.map_eq_some_iff.mp hx
    exact absurd hdec hst
  · exact hx

/-- Steps in which no slot is marked or released. -/
theorem SlotsBalanced.of_pool (h : s.SlotsBalanced) (hheld : s'.SlotsHeld)
    (hpool : ∀ (i : Nat) (x : FrameSlot), s'.pool.slots[i]? = some x → x.state = .decoding →
      s.pool.slots[i]? = some x)
    (hmarks : s'.marks = s.marks) (hreleases : s'.releases = s.releases)
    (hmarked : s'.worker.markedSlot = s.worker.markedSlot)
    (hhanded : s'.HandsPending) : s'.SlotsBalanced := by
  refine ⟨hheld, ?_, ?_, hhanded⟩
  · intro i x hx hst
    rw [hmarked]
    exact h.decoding i x (hpool i x hx hst) hst
  · rw [hmarks, hreleases, hmarked]
    exact h.history

/-- The worker gives its slot back. -/
theorem SlotsBalanced.of_release (h : s.SlotsBalanced) (hheld : s'.SlotsHeld) {i : Nat}
    (hi : s.worker.markedSlot = some i) (hpool : s'.pool = slotRelease s.pool i)
    (hmarks : s'.marks = s.marks) (hreleases : s'.releases = s.releases ++ [i])
    (hmarked : s'.worker.markedSlot = none)
    (hhanded : s'.HandsPending) : s'.SlotsBalanced := by
  refine ⟨hheld, ?_, ?_, hhanded⟩
  · intro j x hx hst
    rw [hpool, slotRelease] at hx
    have hj := h.decoding j x (getElem?_of_mark (by decide) hx hst) hst
    obtain rfl := Option.some.inj (hi.symm.trans hj)
    rw [getElem?_mark, if_pos rfl] at hx
    obtain ⟨y, -, rfl⟩ := Option.map_eq_some_iff.mp hx
    contradiction
  · rw [hmarks, h.history, hreleases, hmarked, hi]
    simp

theorem slotsBalanced_step {op : DecodeOp} (h : s.SlotsBalanced) (hok : s.ReleasesSlot op)
    (hstep : decodeStep s op = some s') : s'.SlotsBalanced := by
  have hheld := slotsHeld_step h.toSlotsHeld hstep
  have hhanded := handsPending_step h.handed hstep
  have heffect := effect_of_decodeStep hstep
  cases op with
  | take =>
      obtain ⟨-, i, -, rfl⟩ := heffect
      exact h.of_pool hheld (fun _ _ => getElem?_of_mark (by decide)) rfl rfl rfl hhanded
  | discard =>
      obtain ⟨w, -, rfl⟩ := heffect
      exact h.of_pool hheld (fun _ _ => getElem?_of_mark (by decide)) rfl rfl rfl hhanded
  | publish f =>
      obtain ⟨w, hw, rfl⟩ := heffect
      obtain ⟨y, hy, -⟩ := h.writing w hw
      have hlt : w < vmcFrameSlots := s.pool.size ▸ (List.getElem?_eq_some_iff.mp hy).1
      refine h.of_pool hheld ?_ rfl rfl rfl hhanded
      intro j x hx hdec
      rw [slotPublish, getElem?_put s.pool hlt] at hx
      grind
  | select =>
      obtain ⟨hw, i, x, -, -, rfl⟩ := heffect
      exact h.of_pool hheld (fun _ _ hx _ => hx) rfl rfl (by rw [hw]; rfl) hhanded
  | mark =>
      obtain ⟨i, dl, hw, rfl⟩ := heffect
      have hhist := h.history
      have hdec := h.decoding
      rw [hw] at hhist hdec
      refine ⟨hheld, ?_, ?_, hhanded⟩
      · intro j x hx hst
        rw [getElem?_mark] at hx
        split at hx
        · next hij => rw [← hij]; rfl
        · exact absurd (hdec j x hx hst) (by simp [DecodePc.markedSlot])
      · rw [hhist]
        simp [DecodePc.markedSlot, DecodePc.slot]
  | decode ok decodeUs =>
      obtain ⟨i, dl, hw, rfl⟩ := heffect
      refine h.of_pool hheld (fun _ _ hx _ => hx) rfl rfl ?_ hhanded
      rw [hw]
      dsimp only
      split <;> rfl
  | nextIdx =>
      obtain ⟨job, waited, hw, rfl⟩ := heffect
      obtain ⟨buf, -, heq⟩ | ⟨pc, rfl | rfl, heq⟩ := acquireStep_cases s job waited
      all_goals
        rw [heq] at hheld hhanded ⊢
        exact h.of_pool hheld (fun _ _ hx _ => hx) rfl rfl (by rw [hw]; rfl) hhanded
  | stopWaiting | convAsync =>
      obtain ⟨job, x, hw, rfl⟩ := heffect
      exact h.of_pool hheld (fun _ _ hx _ => hx) rfl rfl (by rw [hw]; rfl) hhanded
  | handOver convUs =>
      obtain ⟨job, buf, ev, x, hw, -, -, rfl⟩ := heffect
      exact h.of_release (i := job.idx) hheld (by rw [hw]; rfl) rfl rfl rfl rfl hhanded
  | push =>
      obtain ⟨dl, buf, ev, hw, rfl⟩ := heffect
      exact h.of_pool hheld (fun _ _ hx _ => hx) rfl rfl (by rw [hw]; rfl) hhanded
  | setPending =>
      obtain ⟨dl, buf, ev, rfl, hw⟩ := heffect
      have hpushed : s.worker = .pushed dl buf ev := by
        obtain hw | ⟨-, -, -, hev⟩ := hw
        · exact hw
        · have hev' : s.pending.ev = true := hok
          rw [hev] at hev'
          contradiction
      exact h.of_pool hheld (fun _ _ hx _ => hx) rfl rfl (by rw [hpushed]; rfl)
        hhanded
  | release =>
      obtain ⟨i, hw, rfl⟩ := heffect
      exact h.of_release (i := i) hheld (by rw [hw]; rfl) rfl rfl rfl rfl hhanded
  | pop =>
      obtain ⟨e, rest, -, -, rfl⟩ := heffect
      exact ⟨hheld, h.decoding, h.history, hhanded⟩
  | pageFlip answer nowUs =>
      obtain ⟨e, calls, tries, -, rfl⟩ := heffect
      exact ⟨hheld, h.decoding, h.history, hhanded⟩
  | callAgain | stopPresent | endPresent =>
      obtain ⟨e, calls, -, rfl⟩ := heffect
      exact ⟨hheld, h.decoding, h.history, hhanded⟩
  | event ts =>
      obtain rfl := heffect
      exact ⟨hheld, h.decoding, h.history, hhanded⟩

/-- A step that does not release the slot leaves it in state DECODING with the
worker back at its selection. -/
theorem releasesSlot_of_conserved {op : DecodeOp} (h : s.SlotsBalanced)
    (hstep : decodeStep s op = some s') (hs' : s'.SlotsConserved) : s.ReleasesSlot op := by
  have heffect := effect_of_decodeStep hstep
  cases op with
  | setPending =>
      obtain ⟨dl, buf, ev, rfl, hw | ⟨job, hw, -, -⟩⟩ := heffect
      · exact h.handed dl buf ev (.inr hw)
      · obtain ⟨x, hx, hexp⟩ := h.worker job.idx (by rw [hw]; rfl)
        rw [hw] at hexp
        exact absurd hexp.1 ((hs'.atSelect rfl).1 x (List.mem_of_getElem? hx))
  | _ => trivial

end DecodeLoop

/-- **Conservation of frame slots**: in a run of the producer and the workers, in
either mode, slots are conserved in every state exactly if each conversion is
stored while another with an event is pending. -/
theorem slots_conserved_iff (useDrm : Bool) (nbufs : Nat) (ops : List DecodeOp) (s : DecodeLoop)
    (hrun : Run.exec decodeStep (.init useDrm nbufs) ops = some s) :
    Run.Always decodeStep DecodeLoop.SlotsConserved (.init useDrm nbufs) ops ↔
      Run.Along decodeStep DecodeLoop.ReleasesSlot (.init useDrm nbufs) ops :=
  Run.always_iff_along DecodeLoop.SlotsBalanced (fun _ h => h.conserved)
    (fun _ _ _ h hok => DecodeLoop.slotsBalanced_step h hok)
    (fun _ _ _ h => DecodeLoop.releasesSlot_of_conserved h)
    (DecodeLoop.slotsBalanced_init useDrm nbufs) hrun

/-- On the framebuffer, one frame shown and one that does not decode, with a
third being written. -/
def framebufferRun : List DecodeOp :=
  [.take, .publish (dashFrame 100 0 0 1), .select, .mark, .take, .decode true 5, .release,
    .publish (dashFrame 200 1 16667 1), .take, .select, .mark, .decode false 5, .release]

theorem slots_conserved_iff_framebuffer :
    ∃ s, Run.exec decodeStep (.init false 0) framebufferRun = some s ∧ s.marks.length = 2 ∧
      Run.Always decodeStep DecodeLoop.SlotsConserved (.init false 0) framebufferRun := by
  have hrun : (Run.exec decodeStep (.init false 0) framebufferRun).map (·.marks.length) = some 2 := by
    decide +kernel
  obtain ⟨s, hs, hlen⟩ := Option.map_eq_some_iff.mp hrun
  exact ⟨s, hs, hlen, (slots_conserved_iff false 0 framebufferRun s hs).mpr (by decide +kernel)⟩

/-- Slots are conserved in every run. -/
def SlotsNeverLeak : Prop :=
  ∀ (useDrm : Bool) (nbufs : Nat) (ops : List DecodeOp) (s : DecodeLoop), 2 ≤ nbufs →
    nbufs ≤ vmcDrmMaxBufs → Run.exec decodeStep (.init useDrm nbufs) ops = some s →
    Run.Always decodeStep DecodeLoop.SlotsConserved (.init useDrm nbufs) ops

/-- The first frame of a session in DRM mode. -/
def firstDrmFrame : List DecodeOp := startFrame (dashFrame 100 0 0 1) true ++ [.setPending]

/-- Its slot is marked and never released. -/
theorem slotsNeverLeak_fails : ¬ SlotsNeverLeak := by
  intro h
  have hrun : (Run.exec decodeStep (.init true 3) firstDrmFrame).map
      (fun s => (s.worker, s.marks, s.releases)) = some (.atSelect, [0], []) := by
    decide +kernel
  obtain ⟨s, hs, heq⟩ := Option.map_eq_some_iff.mp hrun
  have hkept := h true 3 firstDrmFrame s (by decide) (by decide) hs firstDrmFrame s
    List.prefix_rfl hs
  obtain ⟨hworker, hlists⟩ := Prod.mk.inj heq
  obtain ⟨hmarks, hreleases⟩ := Prod.mk.inj hlists
  have hhist := hkept.history
  rw [hworker, hmarks, hreleases] at hhist
  simp [DecodePc.markedSlot, DecodePc.slot] at hhist

end Vmc
