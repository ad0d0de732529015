import Vmc.Client.AudioFifo
import Vmc.Client.Manifest
import Vmc.Client.PresentQueue
import Vmc.Client.SlotDelivery

/-!
# Vmc.Client.Wakeups

The other two places where threads of the client wait for one another
(`apps/thinclient/main.c`): the frame slots behind `g_fmu`, where the reader
waits for a free slot and the decode worker for a ready one, and the audio FIFO
behind `g_audio_mu`, where the audio worker waits for the first second of sound
and then, forty times 5 ms at most, for each block.

As in `PresentQueue`, nobody sleeps while he could go on: `frame_slots_wake` and
`audio_prefill_wakes`.  `slot_take_write` looks at no flag; a reader that is
blocked when the client stops is cancelled, which `ReaderCancel` is about.
-/

namespace Vmc

open CInt

/-! ## frame slots -/

/-- The sweep of `dash_resync` on one slot. -/
def FrameSlot.shift (deltaUs : Int) (x : FrameSlot) : FrameSlot :=
  if x.state ≠ .free then { x with deadlineUs := shiftDeadline deltaUs x.deadlineUs } else x

def FramePool.shift (p : FramePool) (deltaUs : Int) : FramePool :=
  ⟨p.slots.map (·.shift deltaUs), by rw [List.length_map, p.size]⟩

/-- What is done under `g_fmu`.  No deadline is the greatest number there is. -/
inductive SlotCall where
  | take
  | publish (idx : Nat) (f : Frame) (hf : f.deadlineUs < 0xFFFFFFFFFFFFFFFF)
  | discard (idx : Nat)
  | select
  | mark (idx : Nat)
  | release (idx : Nat)
  | shift (caller : PresentThread) (deltaUs : Int)

def SlotCall.owner : SlotCall → PresentThread
  | take | publish _ _ _ | discard _ => .reader
  | select | mark _ | release _ => .decodeWorker
  | shift caller _ => caller

/-- One of them on the slots; `take` and `select` return an index. -/
def FramePool.call (p : FramePool) : SlotCall → Option Nat × FramePool
  | .take => ((slotTakeWrite p).map (·.1), ((slotTakeWrite p).map (·.2)).getD p)
  | .publish idx f _ => (none, slotPublish p idx f)
  | .discard idx => (none, p.mark idx .free)
  | .select => (selectReady p, p)
  | .mark idx => (none, p.mark idx .decoding)
  | .release idx => (none, slotRelease p idx)
  | .shift _ deltaUs => (none, p.shift deltaUs)

def FramePool.waits (p : FramePool) : SlotCall → Bool
  | .take => (slotTakeWrite p).isNone
  | .select => (selectReady p).isNone
  | _ => false

/-- Whom it signals: `g_fready` is the decode worker's, `g_ffree` the reader's. -/
def SlotCall.wakes : SlotCall → PresentThread → Bool
  | publish _ _ _, .decodeWorker => true
  | discard _, .reader | release _, .reader => true
  | _, _ => false

/-- Every slot that is ready can be selected. -/
def FramePool.Selectable (p : FramePool) : Prop :=
  ∀ x ∈ p.slots, x.state = .ready → x.deadlineUs < 0xFFFFFFFFFFFFFFFF

namespace FramePool

variable {p : FramePool}

theorem waits_take_iff : p.waits .take = true ↔ ∀ x ∈ p.slots, x.state ≠ .free := by
  rw [waits, slotTakeWrite, Option.isNone_map, Option.isNone_iff_eq_none, List.findIdx?_eq_none_iff]
  simp

theorem waits_select_iff (h : p.Selectable) :
    p.waits .select = true ↔ ∀ x ∈ p.slots, x.state ≠ .ready := by
  rw [waits, Option.isNone_iff_eq_none]
  constructor
  · intro hnone x hx hst
    have hsome := selectReady_isSome hx hst (h x hx hst)
    rw [hnone] at hsome
    cases hsome
  · intro hnot
    by_contra hsome
    obtain ⟨i, hi⟩ := Option.ne_none_iff_exists'.mp hsome
    obtain ⟨x, hx, hst⟩ := ready_of_selectReady hi
    exact hnot x (List.mem_of_getElem? hx) hst

/-- A slot after `mark` was there before, or has the new state. -/
theorem mem_mark {i : Nat} {st : SlotState} {x : FrameSlot} (hx : x ∈ (p.mark i st).slots) :
    x ∈ p.slots ∨ x.state = st := by
  unfold mark at hx
  split at hx
  · obtain hold | rfl := List.mem_or_eq_of_mem_set hx
    · exact .inl hold
    · exact .inr rfl
  · exact .inl hx

/-- A slot after a call: it was there before, or the call says what it is. -/
theorem mem_call {o : SlotCall} {x : FrameSlot} (hx : x ∈ (p.call o).2.slots) :
    x ∈ p.slots ∨
      (o = .take ∧ x.state = .writing) ∨
      (∃ i f hf, o = .publish i f hf ∧ x = ⟨f, .ready⟩) ∨
      (∃ i, (o = .discard i ∨ o = .release i) ∧ x.state = .free) ∨
      (∃ i, o = .mark i ∧ x.state = .decoding) ∨
      ∃ caller deltaUs y, o = .shift caller deltaUs ∧ y ∈ p.slots ∧ x = y.shift deltaUs := by
  cases o with
  | take =>
      simp only [call, slotTakeWrite] at hx
      cases hfind : p.slots.findIdx? fun x => x.state = .free with
      | none =>
          rw [hfind] at hx
          exact .inl hx
      | some i =>
          rw [hfind] at hx
          obtain hold | hst := mem_mark hx
          · exact .inl hold
          · exact .inr (.inl ⟨rfl, hst⟩)
  | publish i f hf =>
      obtain hold | rfl := List.mem_or_eq_of_mem_set hx
      · exact .inl hold
      · exact .inr (.inr (.inl ⟨i, f, hf, rfl, rfl⟩))
  | discard i =>
      obtain hold | hst := mem_mark hx
      · exact .inl hold
      · exact .inr (.inr (.inr (.inl ⟨i, .inl rfl, hst⟩)))
  | release i =>
      obtain hold | hst := mem_mark hx
      · exact .inl hold
      · exact .inr (.inr (.inr (.inl ⟨i, .inr rfl, hst⟩)))
  | select => exact .inl hx
  | mark i =>
      obtain hold | hst := mem_mark hx
      · exact .inl hold
      · exact .inr (.inr (.inr (.inr (.inl ⟨i, rfl, hst⟩))))
  | shift caller deltaUs =>
      obtain ⟨y, hy, rfl⟩ := List.mem_map.mp hx
      exact .inr (.inr (.inr (.inr (.inr ⟨caller, deltaUs, y, rfl, hy, rfl⟩))))

end FramePool

@[simp] theorem state_shift (deltaUs : Int) (x : FrameSlot) :
    (x.shift deltaUs).state = x.state := by
  unfold FrameSlot.shift
  split <;> rfl

theorem deadline_shift {deltaUs : Int} {x : FrameSlot} (h : x.state ≠ .free) :
    (x.shift deltaUs).deadlineUs = shiftDeadline deltaUs x.deadlineUs := by
  rw [FrameSlot.shift, if_pos h]

/-- A deadline that was moved is below the greatest one. -/
theorem shiftDeadline_lt (deltaUs : Int) (deadlineUs : UInt64) :
    shiftDeadline deltaUs deadlineUs < 0xFFFFFFFFFFFFFFFF := by
  unfold shiftDeadline
  dsimp only
  split
  · decide
  · rename_i hneg
    have hrange := (toInt64_range (toInt64 deadlineUs.toNat + deltaUs)).2
    have hnat := toNat_ofInt (not_lt.mp hneg) (by omega)
    refine UInt64.lt_iff_toNat_lt.mpr (show _ < 18446744073709551615 from ?_)
    omega

theorem FramePool.selectable_call {p : FramePool} (h : p.Selectable) (o : SlotCall) :
    (p.call o).2.Selectable := by
  intro x hx hst
  obtain hold | ⟨rfl, hw⟩ | ⟨i, f, hf, rfl, rfl⟩ | ⟨i, -, hfree⟩ | ⟨i, -, hdec⟩ |
    ⟨caller, deltaUs, y, rfl, hy, rfl⟩ := mem_call hx
  · exact h x hold hst
  · rw [hw] at hst
    cases hst
  · exact hf
  · rw [hfree] at hst
    cases hst
  · rw [hdec] at hst
    cases hst
  · rw [state_shift] at hst
    rw [deadline_shift (by rw [hst]; decide)]
    exact shiftDeadline_lt deltaUs y.deadlineUs

/-- A call that lets a thread go on signals it. -/
theorem FramePool.wakes_of_ready {p : FramePool} {w o : SlotCall} (h : p.Selectable)
    (hwait : p.waits w = true) (hready : (p.call o).2.waits w = false) :
    o.wakes w.owner = true := by
  cases w with
  | take =>
      rw [waits_take_iff] at hwait
      have hfree : ∃ x ∈ (p.call o).2.slots, x.state = .free := by
        by_contra hnone
        have := waits_take_iff.mpr fun x hx hst => hnone ⟨x, hx, hst⟩
        rw [hready] at this
        cases this
      obtain ⟨x, hx, hst⟩ := hfree
      obtain hold | ⟨rfl, hw⟩ | ⟨i, f, hf, rfl, rfl⟩ | ⟨i, rfl | rfl, -⟩ | ⟨i, -, hdec⟩ |
        ⟨caller, deltaUs, y, rfl, hy, rfl⟩ := mem_call hx
      · exact absurd hst (hwait x hold)
      · rw [hw] at hst
        cases hst
      · cases hst
      · rfl
      · rfl
      · rw [hdec] at hst
        cases hst
      · exact absurd ((state_shift deltaUs y).symm.trans hst) (hwait y hy)
  | select =>
      rw [waits_select_iff h] at hwait
      have hsome : ∃ x ∈ (p.call o).2.slots, x.state = .ready := by
        by_contra hnone
        have := (waits_select_iff (selectable_call h o)).mpr fun x hx hst => hnone ⟨x, hx, hst⟩
        rw [hready] at this
        cases this
      obtain ⟨x, hx, hst⟩ := hsome
      obtain hold | ⟨rfl, hw⟩ | ⟨i, f, hf, rfl, rfl⟩ | ⟨i, -, hfree⟩ | ⟨i, -, hdec⟩ |
        ⟨caller, deltaUs, y, rfl, hy, rfl⟩ := mem_call hx
      · exact absurd hst (hwait x hold)
      · rw [hw] at hst
        cases hst
      · rfl
      · rw [hfree] at hst
        cases hst
      · rw [hdec] at hst
        cases hst
      · exact absurd ((state_shift deltaUs y).symm.trans hst) (hwait y hy)
  | publish | discard | mark | release | shift => cases hwait

/-- The slots with their mutex and condition variables; the flag is
`g_run_decode`. -/
def slotMonitor : Monitor.Spec PresentThread SlotCall FramePool (Option Nat) where
  owner := SlotCall.owner
  waits o p := p.waits o
  heeds o :=
    match o with
    | .select => true
    | _ => false
  body o p := p.call o
  wakes o _ := o.wakes
  ok := FramePool.Selectable
  keeps o _ h := FramePool.selectable_call h o
  signals _ _ _ := FramePool.wakes_of_ready

def slotStart : Monitor.State PresentThread SlotCall FramePool (Option Nat) := .init FramePool.zero

/-- **No thread sleeps for nothing, at the frame slots.**  In every reachable
state: if the reader is blocked, no slot is free; if the decode worker is, none
is ready, and it was not told to stop; and a thread that is under way and not
blocked can go on, or another one that has the mutex. -/
theorem frame_slots_wake {es : List (Monitor.Event PresentThread SlotCall)}
    {s : Monitor.State PresentThread SlotCall FramePool (Option Nat)}
    (h : Run.exec (Monitor.step slotMonitor) slotStart es = some s) :
    (∀ o, s.pc .reader = .blocked o → ∀ x ∈ s.shared.slots, x.state ≠ .free) ∧
    (∀ o, s.pc .decodeWorker = .blocked o →
      (∀ x ∈ s.shared.slots, x.state ≠ .ready) ∧ s.told = false) ∧
    (∀ i, s.pc i ≠ .out → (∀ o, s.pc i ≠ .blocked o) →
      ∃ j, (Monitor.step slotMonitor s (.test j)).isSome ∨
        (Monitor.step slotMonitor s (.block j)).isSome ∨
        (Monitor.step slotMonitor s (.relock j)).isSome) := by
  have hzero : FramePool.zero.Selectable := by
    intro x hx hst
    obtain rfl := List.eq_of_mem_replicate hx
    cases hst
  have hinv : Monitor.Inv slotMonitor s := Monitor.inv_exec hzero h
  refine ⟨fun o hpc => ?_, fun o hpc => ?_, fun i => hinv.progress⟩
  · obtain ⟨hwait, -⟩ := hinv.blocked hpc
    have hown : o.owner = .reader := hinv.owner _ o (by rw [hpc]; rfl)
    cases o with
    | take => exact FramePool.waits_take_iff.mp hwait
    | select => cases hown
    | publish | discard | mark | release | shift => cases hwait
  · obtain ⟨hwait, hheed⟩ := hinv.blocked hpc
    have hown : o.owner = .decodeWorker := hinv.owner _ o (by rw [hpc]; rfl)
    cases o with
    | select => exact ⟨(FramePool.waits_select_iff hinv.ok).mp hwait, hheed rfl⟩
    | take => cases hown
    | publish | discard | mark | release | shift => cases hwait

/-- The decode worker sleeps while the reader has a slot but has not published
it. -/
theorem frame_slots_wake_early :
    ∃ s, Run.exec (Monitor.step slotMonitor) slotStart
        [.enter .select, .test .decodeWorker, .block .decodeWorker, .enter .take,
          .test .reader] = some s ∧
      (∀ x ∈ s.shared.slots, x.state ≠ .ready) ∧ s.told = false := by
  have hrun : (Run.exec (Monitor.step slotMonitor) slotStart
      [.enter .select, .test .decodeWorker, .block .decodeWorker, .enter .take,
        .test .reader]).map (fun s =>
          (s.pc .decodeWorker).waiting.isSome && !(s.pc .decodeWorker).inside) = some true := by
    decide +kernel
  obtain ⟨s, hs, hasleep⟩ := Option.map_eq_some_iff.mp hrun
  obtain ⟨o, hpc⟩ := Monitor.Pc.exists_blocked hasleep
  exact ⟨s, hs, (frame_slots_wake hs).2.1 o hpc⟩

/-! ## audio FIFO -/

/-- `VMC_AUDIO_PREFILL_TARGET`: a second of sound. -/
def vmcAudioPrefillTarget : UInt64 := 192000

/-- What is done under `g_audio_mu`: a write, a reset or a block of the worker,
and the worker's wait at its start.  A block is the worker's, whoever asks. -/
inductive FifoCall where
  | call (caller : PresentThread) (op : AudioOp)
  | prefill

def FifoCall.owner : FifoCall → PresentThread
  | call _ .period | prefill => .audioWorker
  | call caller _ => caller

/-- What must be in the FIFO for a call to go on at once. -/
def FifoCall.target : FifoCall → UInt64
  | call _ .period => vmcAudioFrameBytes
  | call _ _ => 0
  | prefill => vmcAudioPrefillTarget

def AudioFifo.waits (s : AudioFifo) (o : FifoCall) : Bool :=
  decide (vmcRingbufUsed s.rb < o.target)

/-- The writers and the reset signal `g_audio_cv`; a datagram that is not an
audio one does not come to the FIFO. -/
def FifoCall.wakes : FifoCall → PresentThread → Bool
  | call _ (.writeRaw _ _ _ _), .audioWorker | call _ .reset, .audioWorker => true
  | call _ (.datagram pkt out), .audioWorker =>
      match vmcProtoDecode pkt out with
      | (.ok, d) => decide (d.h.stream = streamAudio)
      | _ => false
  | _, _ => false

theorem FifoCall.wakes_datagram (caller : PresentThread) {pkt : List UInt8} {out d : DecodeOut}
    (hd : vmcProtoDecode pkt out = (.ok, d)) (haudio : d.h.stream = streamAudio) :
    (call caller (.datagram pkt out)).wakes .audioWorker = true := by
  simp [FifoCall.wakes, hd, haudio]

def AudioFifo.call (s : AudioFifo) : FifoCall → AudioFifo
  | .call _ op => (s.step op).getD s
  | .prefill => s

theorem count_vmcRingbufRead {rb rb' : VmcRingbuf} {out : Bool} {len n : UInt64}
    {bytes : List UInt8} (h : vmcRingbufRead rb out len = some (n, bytes, rb')) :
    rb'.count ≤ rb.count := by
  unfold vmcRingbufRead at h
  generalize hl : (if len > rb.count then rb.count else len) = l at h
  have hle : l ≤ rb.count := by
    rw [← hl]
    split
    · exact UInt64.le_refl _
    · rename_i hlen
      exact UInt64.not_lt.mp hlen
  dsimp only at h
  split at h
  · obtain rfl := (Prod.mk.inj (Prod.mk.inj (Option.some.inj h)).2).2
    exact UInt64.le_refl _
  · have hrb : rb' = { rb with tail := rb.tail + l, count := rb.count - l } := by
      cases out with
      | true =>
          rw [if_pos rfl] at h
          obtain ⟨b, -, hsome⟩ := Option.bind_eq_some_iff.mp h
          exact (Prod.mk.inj (Prod.mk.inj (Option.some.inj hsome)).2).2.symm
      | false => exact (Prod.mk.inj (Prod.mk.inj (Option.some.inj h)).2).2.symm
    rw [hrb]
    refine UInt64.le_iff_toNat_le.mpr ?_
    rw [UInt64.toNat_sub_of_le _ _ hle]
    exact Nat.sub_le _ _

/-- The worker takes, and does not add. -/
theorem AudioFifo.used_takeBlock {s s' : AudioFifo} (h : s.takeBlock = some s') :
    vmcRingbufUsed s'.rb ≤ vmcRingbufUsed s.rb := by
  obtain ⟨⟨pcm, rb⟩, hrb, rfl⟩ := Option.map_eq_some_iff.mp h
  simp only [audioWorkerRead] at hrb
  split at hrb
  · obtain ⟨⟨n, bytes, rb'⟩, hr, heq⟩ := Option.map_eq_some_iff.mp hrb
    obtain rfl := (Prod.mk.inj heq).2
    exact count_vmcRingbufRead hr
  · split at hrb
    · obtain ⟨⟨n, bytes, rb'⟩, hr, heq⟩ := Option.map_eq_some_iff.mp hrb
      obtain rfl := (Prod.mk.inj heq).2
      exact count_vmcRingbufRead hr
    · obtain rfl := (Prod.mk.inj (Option.some.inj hrb)).2
      exact UInt64.le_refl _

theorem FifoCall.owner_of_target {o : FifoCall} {n : UInt64} (h : n < o.target) :
    o = .prefill ∨ ∃ caller, o = .call caller .period := by
  cases o with
  | prefill => exact .inl rfl
  | call caller op =>
      cases op with
      | period => exact .inr ⟨caller, rfl⟩
      | writeRaw | datagram | reset => exact absurd h UInt64.not_lt_zero

/-- A call that brings `n` bytes together signals the worker. -/
theorem AudioFifo.wakes_of_reached {s : AudioFifo} {o : FifoCall} {n : UInt64}
    (hlow : vmcRingbufUsed s.rb < n) (hhigh : ¬ vmcRingbufUsed (s.call o).rb < n) :
    o.wakes .audioWorker = true := by
  cases o with
  | prefill => exact absurd hlow hhigh
  | call caller op =>
      cases op with
      | writeRaw | reset => rfl
      | datagram pkt out =>
          simp only [AudioFifo.call, AudioFifo.step, AudioFifo.receive] at hhigh
          split at hhigh
          · rename_i d hd
            split at hhigh
            · exact FifoCall.wakes_datagram caller hd ‹_›
            · exact absurd hlow hhigh
          · exact absurd hlow hhigh
      | period =>
          exfalso
          simp only [AudioFifo.call, AudioFifo.step] at hhigh
          cases hblock : s.takeBlock with
          | none =>
              rw [hblock] at hhigh
              exact hhigh hlow
          | some s' =>
              rw [hblock] at hhigh
              exact hhigh (UInt64.lt_of_le_of_lt (used_takeBlock hblock) hlow)

/-- A call the worker can go on behind signals it. -/
theorem AudioFifo.wakes_of_ready {s : AudioFifo} {w o : FifoCall} (hwait : s.waits w = true)
    (hready : (s.call o).waits w = false) : o.wakes w.owner = true := by
  have hlow : vmcRingbufUsed s.rb < w.target := of_decide_eq_true hwait
  have hwakes := wakes_of_reached hlow (of_decide_eq_false hready)
  obtain rfl | ⟨caller, rfl⟩ := FifoCall.owner_of_target hlow <;> exact hwakes

/-- The FIFO with its mutex and condition variable; the flag is `g_run_audio`. -/
def fifoMonitor : Monitor.Spec PresentThread FifoCall AudioFifo Unit where
  owner := FifoCall.owner
  waits o s := s.waits o
  heeds _ := true
  body o s := ((), s.call o)
  wakes o _ := o.wakes
  ok _ := True
  keeps _ _ _ := trivial
  signals _ _ _ _ := AudioFifo.wakes_of_ready

/-! ### forty waits -/

/-- The threads at the FIFO, and `waited` of the audio worker: how often it has
waited for the block it is at. -/
structure FifoThreads where
  threads : Monitor.State PresentThread FifoCall AudioFifo Unit
  waited : Nat

def FifoThreads.init (fifo : AudioFifo) : FifoThreads := ⟨.init fifo, 0⟩

/-- The test behind the fortieth wait for a block: the worker takes what is
there, and pads it. -/
def FifoThreads.expired (s : FifoThreads) : Monitor.Event PresentThread FifoCall → Option FifoCall
  | .test .audioWorker =>
      match s.threads.pc .audioWorker with
      | .testing (.call caller .period) =>
          if 40 ≤ s.waited then some (.call caller .period) else none
      | _ => none
  | _ => none

def FifoThreads.waitedAfter (s : FifoThreads) : Monitor.Event PresentThread FifoCall → Nat
  | .enter o => if o.owner = .audioWorker then 0 else s.waited
  | .block .audioWorker => s.waited + 1
  | _ => s.waited

/-- A step of the threads.  A wait of 5 ms that has timed out is a `wake`. -/
def FifoThreads.step (s : FifoThreads) (e : Monitor.Event PresentThread FifoCall) : Option FifoThreads :=
  match s.expired e with
  | some o => some { s with threads := Monitor.perform fifoMonitor s.threads .audioWorker o }
  | none => (Monitor.step fifoMonitor s.threads e).map fun threads => ⟨threads, s.waitedAfter e⟩

/-- At a block the worker has waited forty times at most, and fewer times when
it is about to wait again. -/
structure WaitBounded (pc : Monitor.Pc FifoCall) (waited : Nat) : Prop where
  most : ∀ caller, pc.op = some (.call caller .period) → waited ≤ 40
  room : ∀ caller, pc = .leaving (.call caller .period) → waited < 40

theorem WaitBounded.out (waited : Nat) : WaitBounded .out waited where
  most _ h := by cases h
  room _ h := by cases h

theorem WaitBounded.wake {pc : Monitor.Pc FifoCall} {waited : Nat} (h : WaitBounded pc waited) :
    WaitBounded pc.wake waited where
  most caller hop := h.most caller (by simpa using hop)
  room caller hpc := h.room caller (by cases pc <;> simp_all [Monitor.Pc.wake])

theorem WaitBounded.hear {pc : Monitor.Pc FifoCall} {waited : Nat} (h : WaitBounded pc waited) :
    WaitBounded (Monitor.hear fifoMonitor pc) waited := by
  unfold Monitor.hear
  split
  · exact h.wake
  · exact h

/-- A thread that is elsewhere leaves the worker where it is. -/
theorem WaitBounded.update {pc : PresentThread → Monitor.Pc FifoCall} {waited waited' : Nat}
    (h : WaitBounded (pc .audioWorker) waited) {i : PresentThread} {pc' : Monitor.Pc FifoCall}
    (hself : i = .audioWorker → WaitBounded pc' waited') (hother : i ≠ .audioWorker → waited' = waited) :
    WaitBounded (Function.update pc i pc' .audioWorker) waited' := by
  by_cases hi : i = .audioWorker
  · subst hi
    rw [Function.update_self]
    exact hself rfl
  · rw [Function.update_of_ne (Ne.symm hi), hother hi]
    exact h

/-- What is done at the FIFO wakes the worker at most. -/
theorem WaitBounded.perform {s : Monitor.State PresentThread FifoCall AudioFifo Unit} {waited : Nat}
    (h : WaitBounded (s.pc .audioWorker) waited) (i : PresentThread) (o : FifoCall) :
    WaitBounded ((Monitor.perform fifoMonitor s i o).pc .audioWorker) waited := by
  simp only [Monitor.perform]
  split
  · exact .out waited
  · split
    · exact h.wake
    · exact h

structure FifoThreads.Inv (s : FifoThreads) : Prop where
  monitor : Monitor.Inv fifoMonitor s.threads
  bounded : WaitBounded (s.threads.pc .audioWorker) s.waited

theorem FifoThreads.testing_of_expired {s : FifoThreads}
    {e : Monitor.Event PresentThread FifoCall} {o : FifoCall} (hexp : s.expired e = some o) :
    s.threads.pc .audioWorker = .testing o := by
  unfold expired at hexp
  split at hexp
  · split at hexp
    · rename_i hpc
      obtain ⟨-, heq⟩ := Option.ite_none_right_eq_some.mp hexp
      rw [hpc, Option.some.inj heq]
    · cases hexp
  · cases hexp

theorem FifoThreads.bounded_step {s : FifoThreads} (h : s.Inv)
    {e : Monitor.Event PresentThread FifoCall} (hexp : s.expired e = none)
    {threads : Monitor.State PresentThread FifoCall AudioFifo Unit}
    (hstep : Monitor.step fifoMonitor s.threads e = some threads) :
    WaitBounded (threads.pc .audioWorker) (s.waitedAfter e) := by
  have hold := h.bounded
  cases e with
  | enter o =>
      obtain ⟨-, -, rfl⟩ := Monitor.step_enter hstep
      refine hold.update (fun howner => ?_) fun hother => if_neg hother
      have hzero : s.waitedAfter (.enter o) = 0 := if_pos howner
      rw [hzero]
      exact ⟨fun _ _ => Nat.zero_le 40, fun _ hpc => by cases hpc⟩
  | test i =>
      obtain ⟨o, hpc, ⟨-, -, rfl⟩ | ⟨-, rfl⟩⟩ := Monitor.step_test hstep
      · refine hold.update (fun hi => ?_) fun _ => rfl
        subst hi
        refine ⟨fun caller hop => hold.most caller (by rw [hpc]; exact hop), fun caller hleave => ?_⟩
        cases hleave
        -- the test was not the one behind the last wait
        simpa [expired, hpc, waitedAfter] using hexp
      · exact hold.perform i o
  | block i =>
      obtain ⟨o, hpc, rfl⟩ := Monitor.step_block hstep
      by_cases hi : i = .audioWorker
      · subst hi
        refine hold.update (fun _ => ⟨fun caller hop => ?_, fun _ hleave => by cases hleave⟩)
          (absurd rfl)
        obtain rfl := Option.some.inj hop
        exact hold.room caller hpc
      · have hsame : s.waitedAfter (.block i) = s.waited := by
          unfold waitedAfter
          split <;> simp_all
        exact hold.update (fun hself => absurd hself hi) fun _ => hsame
  | wake i =>
      obtain ⟨o, hpc, rfl⟩ := Monitor.step_wake hstep
      refine hold.update (fun hi => ?_) fun _ => rfl
      subst hi
      exact ⟨fun caller hop => hold.most caller (by rw [hpc]; exact hop), fun _ hl => by cases hl⟩
  | relock i =>
      obtain ⟨o, hpc, -, rfl⟩ := Monitor.step_relock hstep
      refine hold.update (fun hi => ?_) fun _ => rfl
      subst hi
      exact ⟨fun caller hop => hold.most caller (by rw [hpc]; exact hop), fun _ hl => by cases hl⟩
  | stop =>
      obtain rfl := Option.some.inj hstep
      exact hold
  | broadcast =>
      obtain ⟨-, -, rfl⟩ := Monitor.step_broadcast hstep
      exact hold.hear

theorem FifoThreads.inv_step {s s' : FifoThreads} (h : s.Inv)
    {e : Monitor.Event PresentThread FifoCall} (hstep : s.step e = some s') : s'.Inv := by
  unfold step at hstep
  cases hexp : s.expired e with
  | some o =>
      rw [hexp] at hstep
      obtain rfl := Option.some.inj hstep
      exact ⟨h.monitor.perform (testing_of_expired hexp), h.bounded.perform .audioWorker o⟩
  | none =>
      rw [hexp] at hstep
      obtain ⟨threads, hthreads, rfl⟩ := Option.map_eq_some_iff.mp hstep
      exact ⟨Monitor.inv_step h.monitor hthreads, bounded_step h hexp hthreads⟩

theorem FifoThreads.inv_init (fifo : AudioFifo) : (FifoThreads.init fifo).Inv :=
  ⟨Monitor.inv_init trivial, .out 0⟩

/-- **No thread sleeps for nothing, at the audio FIFO.**  In every reachable
state: if a thread is blocked it is the audio worker, which was not told to
stop; either it is in its start-up wait, and less than a second of sound is
there, or it waits for a block, and less than that is there, for the fortieth
time at most. -/
theorem audio_prefill_wakes {fifo : AudioFifo} {es : List (Monitor.Event PresentThread FifoCall)}
    {s : FifoThreads} (h : Run.exec FifoThreads.step (.init fifo) es = some s) {i : PresentThread}
    {o : FifoCall} (hpc : s.threads.pc i = .blocked o) :
    i = .audioWorker ∧ s.threads.told = false ∧
      (o = .prefill ∧ vmcRingbufUsed s.threads.shared.rb < vmcAudioPrefillTarget ∨
        (∃ caller, o = .call caller .period) ∧
          vmcRingbufUsed s.threads.shared.rb < vmcAudioFrameBytes ∧ s.waited ≤ 40) := by
  have hinv : s.Inv :=
    Run.exec_invariant_true FifoThreads.Inv (fun _ _ _ hI => FifoThreads.inv_step hI)
      (FifoThreads.inv_init fifo) h
  obtain ⟨hwait, hheed⟩ := hinv.monitor.blocked hpc
  have hown : o.owner = i := hinv.monitor.owner i o (by rw [hpc]; rfl)
  have hlow : vmcRingbufUsed s.threads.shared.rb < o.target := of_decide_eq_true hwait
  obtain rfl | ⟨caller, rfl⟩ := FifoCall.owner_of_target hlow
  · exact ⟨hown.symm, hheed rfl, .inl ⟨rfl, hlow⟩⟩
  · obtain rfl : PresentThread.audioWorker = i := hown
    have hwaited := hinv.bounded.most caller (by rw [hpc]; rfl)
    exact ⟨rfl, hheed rfl, .inr ⟨⟨caller, rfl⟩, hlow, hwaited⟩⟩

/-- With nothing there, the worker waits for its first block. -/
theorem audio_prefill_wakes_empty :
    ∃ s, Run.exec FifoThreads.step (.init { rb := ⟨[0], 0, 0, 0, 0⟩ })
        [.enter (.call .audioWorker .period), .test .audioWorker, .block .audioWorker] = some s ∧
      s.threads.told = false ∧ vmcRingbufUsed s.threads.shared.rb < vmcAudioFrameBytes ∧
      s.waited ≤ 40 := by
  have hrun : ∃ s, Run.exec FifoThreads.step (.init { rb := ⟨[0], 0, 0, 0, 0⟩ })
      [.enter (.call .audioWorker .period), .test .audioWorker, .block .audioWorker] = some s ∧
      s.threads.pc .audioWorker = .blocked (.call .audioWorker .period) := ⟨_, rfl, rfl⟩
  obtain ⟨s, hs, hpc⟩ := hrun
  obtain ⟨-, htold, ⟨hprefill, -⟩ | ⟨-, hlow, hwaited⟩⟩ := audio_prefill_wakes hs hpc
  · cases hprefill
  · exact ⟨s, hs, htold, hlow, hwaited⟩

end Vmc
