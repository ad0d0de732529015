import Vmc.Client.VideoPath
import Vmc.Transport.JitterRuns

/-!
# Vmc.Client.Rebase

The jitter buffer as the client's main loop drives it: a key-frame datagram that
`vmc_jb_push` refuses, for whatever reason, makes the loop reset the buffer and
push the datagram again.

The reset clears the whole structure.  That loses the target delay, so nothing
is held back any longer (`hold_iff`), and it makes a duplicated key-frame
datagram, refused because it is buffered already, throw away everything else
that is buffered (`duplicate_harmless`).
-/

namespace Vmc

/-! ## the receive step -/

/-- The refusal of the datagram makes the loop rebase the buffer on it. -/
def rebases (jb : JitterBuffer) (h : ProtoHeader) : Bool :=
  !acceptsPush jb h.seq && h.flags &&& flagKeyframe != 0

/-- The buffer a rebase leaves, whatever it held before. -/
def rebased (d : DecodeOut) (now2Us : UInt64) : JitterBuffer :=
  (vmcJbPush (vmcJbReset JitterBuffer.zero d.h.seq) (jbPacket d now2Us)).2

theorem push_ok_iff (jb : JitterBuffer) (d : JbPacket) :
    (vmcJbPush jb d).1 = .ok ↔ acceptsPush jb d.seq = true := by
  obtain ⟨-, -, ⟨hacc, hok, -⟩ | ⟨hacc, hok, -⟩⟩ := push_spec jb d
  · simp [hacc, hok]
  · simp [hacc, hok]

/-- A datagram that makes the loop rebase is all the buffer holds afterwards;
any other is pushed and that is all. -/
theorem receiveVideo_eq (jb : JitterBuffer) (d : DecodeOut) (now1Us now2Us : UInt64) :
    receiveVideo jb d now1Us now2Us =
      if rebases jb d.h then rebased d now2Us else (vmcJbPush jb (jbPacket d now1Us)).2 := by
  have hok := push_ok_iff jb (jbPacket d now1Us)
  change _ ↔ acceptsPush jb d.h.seq = true at hok
  unfold receiveVideo rebases
  dsimp only
  by_cases hacc : acceptsPush jb d.h.seq = true
  · rw [if_neg fun h => h.1 (hok.mpr hacc)]
    simp [hacc]
  · by_cases hkey : d.h.flags &&& flagKeyframe = 0
    · rw [if_neg fun h => h.2 hkey]
      simp [hkey]
    · rw [if_pos ⟨fun h => hacc (hok.mp h), hkey⟩]
      simp [hacc, hkey, rebased, vmcJbReset]

/-- The slots of a buffer that has been given one datagram since it was
cleared. -/
def firstSlots (x : JbSlot) : List JbSlot := x :: List.replicate (vmcJbMaxSlots - 1) JbSlot.zero

theorem filter_firstSlots {x : JbSlot} (hx : x.valid = true) :
    (firstSlots x).filter (·.valid) = [x] := by
  rw [firstSlots, List.filter_cons_of_pos hx, List.filter_replicate_of_neg (by decide)]

/-- What a rebase leaves: the datagram in the first slot, every other slot and
the delay at zero. -/
theorem rebased_spec (d : DecodeOut) (now2Us : UInt64) :
    (rebased d now2Us).slots = firstSlots (jbPacket d now2Us).slot ∧
      (rebased d now2Us).nextSeq = d.h.seq ∧ (rebased d now2Us).targetDelayUs = 0 ∧
      (rebased d now2Us).contents = [(jbPacket d now2Us).slot] := by
  have hslots : (vmcJbReset JitterBuffer.zero d.h.seq).slots =
      firstSlots JbSlot.zero := rfl
  have hempty : (vmcJbReset JitterBuffer.zero d.h.seq).contents = [] := by
    simp [JitterBuffer.contents, vmcJbReset, JitterBuffer.zero, JbSlot.zero]
  have hdup : (findSlot (pushBase (vmcJbReset JitterBuffer.zero d.h.seq) d.h.seq) d.h.seq) = none := by
    rw [findSlot_eq_none_iff, contents_pushBase, hempty]
    simp
  have hnext : (pushBase (vmcJbReset JitterBuffer.zero d.h.seq) d.h.seq).nextSeq = d.h.seq := rfl
  have hin : outsideWindow (pushBase (vmcJbReset JitterBuffer.zero d.h.seq) d.h.seq) d.h.seq
      = false := by
    have hzero : seqCmp d.h.seq d.h.seq = 0 := Serial.cmp_eq_zero_iff.mpr rfl
    simp [outsideWindow, hnext, hzero, vmcJbMaxSlots]
  have hfree : freeSlot (pushBase (vmcJbReset JitterBuffer.zero d.h.seq) d.h.seq) = some 0 := by
    rw [freeSlot, slots_pushBase, hslots]
    rfl
  have heq : (rebased d now2Us).slots = firstSlots (jbPacket d now2Us).slot ∧
      (rebased d now2Us).nextSeq = d.h.seq ∧ (rebased d now2Us).targetDelayUs = 0 := by
    simp only [rebased, vmcJbPush, jbPacket, hdup, hin, hfree]
    exact ⟨rfl, hnext, rfl⟩
  refine ⟨heq.1, heq.2.1, heq.2.2, ?_⟩
  rw [JitterBuffer.contents, heq.1]
  exact filter_firstSlots rfl

/-! ## the client -/

/-- The buffer, the last reading of the clock, and the slots `vmc_jb_peek` has
handed out to be played. -/
structure JbClient where
  jb : JitterBuffer
  clockUs : UInt64
  played : List JbSlot

def JbClient.init (targetDelayUs : UInt64) : JbClient := ⟨vmcJbInit targetDelayUs, 0, []⟩

/-- What the main loop does with the buffer.  A clock reading that is not made,
as the second one of a datagram that is accepted, repeats the one before. -/
inductive JbClientOp where
  | receive (d : DecodeOut) (now1Us now2Us : UInt64)
  | peek (nowUs : UInt64)
  | consume
deriving DecidableEq

/-- One step; `none` if the clock would go back. -/
def jbClientStep (s : JbClient) : JbClientOp → Option JbClient
  | .receive d now1Us now2Us =>
      if s.clockUs ≤ now1Us ∧ now1Us ≤ now2Us then
        some { s with jb := receiveVideo s.jb d now1Us now2Us, clockUs := now2Us }
      else none
  | .peek nowUs =>
      if s.clockUs ≤ nowUs then
        some ⟨(vmcJbPeek s.jb nowUs).2, nowUs, s.played ++ (vmcJbPeek s.jb nowUs).1.toList⟩
      else none
  | .consume => some { s with jb := vmcJbConsume s.jb }

/-! ## the delay -/

/-- A slot that is handed out is buffered and old enough. -/
theorem peek_held {jb : JitterBuffer} {nowUs : UInt64} {x : JbSlot}
    (h : (vmcJbPeek jb nowUs).1 = some x) : x ∈ jb.contents ∧ oldEnough jb x nowUs = true := by
  obtain ⟨-, hscan⟩ | ⟨mn, nw, hscan, hmem, -⟩ := scanned_scanSlots jb jb.nextSeq
  · simp [vmcJbPeek, hscan] at h
  · simp only [vmcJbPeek, hscan] at h
    have hone : some mn = some x ∧ oldEnough jb mn nowUs = true := by
      split_ifs at h with hlate hold hgap hnew hold hold
      · exact ⟨h, hold⟩
      · exact ⟨h, hold⟩
      · exact ⟨h, hold⟩
    obtain ⟨heq, hold⟩ := hone
    obtain rfl := Option.some.inj heq
    exact ⟨hmem, hold⟩

/-- Whatever is handed out next has been held for `delay`. -/
def JbClient.Holds (delayUs : UInt64) (s : JbClient) : Prop :=
  ∀ nowUs, s.clockUs ≤ nowUs → ∀ x, (vmcJbPeek s.jb nowUs).1 = some x →
    x.recvUs.toNat + delayUs.toNat ≤ nowUs.toNat

/-- The promise: the configured delay is honoured throughout the session. -/
def HoldSurvives : Prop :=
  ∀ (delayUs : UInt64) (ops : List JbClientOp),
    Run.Always jbClientStep (JbClient.Holds delayUs) (.init delayUs) ops

/-- What keeps it: no rebase, unless there is no delay to lose. -/
def KeepsDelay (delayUs : UInt64) (s : JbClient) : JbClientOp → Prop
  | .receive d _ _ => delayUs = 0 ∨ rebases s.jb d.h = false
  | _ => True

instance (delayUs : UInt64) (s : JbClient) : (op : JbClientOp) → Decidable (KeepsDelay delayUs s op)
  | .receive d _ _ => inferInstanceAs (Decidable (delayUs = 0 ∨ rebases s.jb d.h = false))
  | .peek _ | .consume => .isTrue trivial

/-- The delay is still the one set, and nothing was received in the future. -/
structure JbClient.Delayed (delayUs : UInt64) (s : JbClient) : Prop where
  delay : s.jb.targetDelayUs = delayUs
  received : ∀ x ∈ s.jb.contents, x.recvUs ≤ s.clockUs

theorem JbClient.Delayed.holds {delayUs : UInt64} {s : JbClient} (h : s.Delayed delayUs) :
    s.Holds delayUs := by
  intro nowUs hnow x hx
  obtain ⟨hmem, hold⟩ := peek_held hx
  have hle : delayUs ≤ nowUs - x.recvUs := by
    rw [← h.delay]
    simpa [oldEnough] using hold
  have hrecv := UInt64.le_trans (h.received x hmem) hnow
  have hsub := UInt64.toNat_sub_of_le nowUs x.recvUs hrecv
  have hle' := UInt64.le_iff_toNat_le.mp hle
  have hrecv' := UInt64.le_iff_toNat_le.mp hrecv
  omega

theorem delayed_push {delayUs nowUs : UInt64} {s : JbClient} (h : s.Delayed delayUs)
    (d : DecodeOut) (hclock : s.clockUs ≤ nowUs) :
    (vmcJbPush s.jb (jbPacket d nowUs)).2.targetDelayUs = delayUs ∧
      ∀ x ∈ (vmcJbPush s.jb (jbPacket d nowUs)).2.contents, x.recvUs ≤ nowUs := by
  obtain ⟨-, hdelay, ⟨-, -, -, hperm⟩ | ⟨-, -, -, hslots⟩⟩ := push_spec s.jb (jbPacket d nowUs)
  · refine ⟨hdelay.trans h.delay, fun x hx => ?_⟩
    obtain rfl | hx := List.mem_cons.mp (hperm.mem_iff.mp hx)
    · exact UInt64.le_refl nowUs
    · exact UInt64.le_trans (h.received x hx) hclock
  · refine ⟨hdelay.trans h.delay, fun x hx => ?_⟩
    rw [JitterBuffer.contents, hslots] at hx
    exact UInt64.le_trans (h.received x hx) hclock

theorem delayed_step {delayUs : UInt64} {s s' : JbClient} {op : JbClientOp} (h : s.Delayed delayUs)
    (hok : KeepsDelay delayUs s op) (hstep : jbClientStep s op = some s') : s'.Delayed delayUs := by
  cases op with
  | receive d now1Us now2Us =>
      simp only [jbClientStep] at hstep
      split at hstep
      · next hclock =>
        obtain rfl := Option.some.inj hstep
        by_cases hreb : rebases s.jb d.h = true
        · -- with no delay set there is none to lose
          obtain ⟨-, -, hdelay, hcont⟩ := rebased_spec d now2Us
          have hzero : delayUs = 0 := hok.resolve_right (by simp [hreb])
          refine ⟨?_, ?_⟩
          · rw [receiveVideo_eq, if_pos hreb, hdelay, hzero]
          · rw [receiveVideo_eq, if_pos hreb, hcont]
            intro x hx
            rw [List.mem_singleton.mp hx]
            exact UInt64.le_refl now2Us
        · obtain ⟨hdelay, hrecv⟩ := delayed_push h d hclock.1
          refine ⟨?_, ?_⟩
          · rw [receiveVideo_eq, if_neg hreb, hdelay]
          · rw [receiveVideo_eq, if_neg hreb]
            exact fun x hx => UInt64.le_trans (hrecv x hx) hclock.2
      · contradiction
  | peek nowUs =>
      simp only [jbClientStep] at hstep
      split at hstep
      · next hclock =>
        obtain rfl := Option.some.inj hstep
        refine ⟨(targetDelayUs_peek s.jb nowUs).trans h.delay, ?_⟩
        rw [contents_peek]
        exact fun x hx => UInt64.le_trans (h.received x hx) hclock
      · contradiction
  | consume =>
      obtain rfl := Option.some.inj hstep
      obtain ⟨-, heq⟩ | ⟨i, x, hf, hx, hv, -, hsize, heq⟩ := consume_effect s.jb
      · rw [heq]
        exact h
      · have hperm := contents_consume hf hx hv
        rw [heq] at hperm ⊢
        exact ⟨h.delay, fun y hy => h.received y (hperm.mem_iff.mpr (List.mem_cons_of_mem x hy))⟩

/-- Right after a rebase the datagram would be handed out, however long it
should be held. -/
theorem keepsDelay_of_holds {delayUs : UInt64} {s s' : JbClient} {op : JbClientOp}
    (hstep : jbClientStep s op = some s') (h : s'.Holds delayUs) : KeepsDelay delayUs s op := by
  cases op with
  | receive d now1Us now2Us =>
      by_contra hnot
      obtain ⟨hne, hreb⟩ : delayUs ≠ 0 ∧ rebases s.jb d.h = true := by
        simpa [KeepsDelay] using hnot
      simp only [jbClientStep] at hstep
      split at hstep
      · obtain rfl := Option.some.inj hstep
        obtain ⟨-, -, hdelay, hcont⟩ := rebased_spec d now2Us
        have hpeek := peek_alone now2Us hcont hdelay
        have hjb : receiveVideo s.jb d now1Us now2Us = rebased d now2Us := by
          rw [receiveVideo_eq, if_pos hreb]
        rw [← hjb] at hpeek
        have hnow := h now2Us (UInt64.le_refl now2Us) _ hpeek
        have hpos : 0 < delayUs.toNat := by
          have := mt UInt64.toNat_inj.mp hne
          change ¬ delayUs.toNat = 0 at this
          omega
        simp only [JbPacket.slot, jbPacket] at hnow
        omega
      · contradiction
  | peek nowUs => trivial
  | consume => trivial

theorem delayed_init (delayUs : UInt64) : (JbClient.init delayUs).Delayed delayUs :=
  ⟨rfl, by simp [JbClient.init]⟩

/-- A datagram with one payload byte. -/
def videoDatagram (flags : UInt8) (seq : UInt32) : DecodeOut :=
  ⟨⟨vmcProtoMagic, vmcProtoVersion, flags, streamVideo, 0, 1, seq, 0, 0⟩, [7]⟩

/-- After a reconnect the first key frame is far ahead of `next_seq`. -/
def reconnect : List JbClientOp :=
  [.receive (videoDatagram 0 5) 0 0, .receive (videoDatagram flagKeyframe 1000) 3 3]

/-- The promise is broken: the rebase sets the delay to zero. -/
theorem holdSurvives_fails : ¬ HoldSurvives := by
  intro h
  have hrun : (Run.exec jbClientStep (.init 10) reconnect).isSome := by decide +kernel
  obtain ⟨s, hs⟩ := Option.isSome_iff_exists.mp hrun
  have hholds := h 10 reconnect reconnect s (List.prefix_refl _) hs
  have hpeek : ((Run.exec jbClientStep (.init 10) reconnect).map fun s =>
      (s.clockUs, (vmcJbPeek s.jb 3).1)) =
      some (3, some (jbPacket (videoDatagram flagKeyframe 1000) 3).slot) := by
    decide +kernel
  rw [hs, Option.map_some, Option.some.injEq, Prod.mk.injEq] at hpeek
  have hlate := hholds 3 (by rw [hpeek.1]; decide) _ hpeek.2
  revert hlate
  decide

/-- **The delay.**  In every state of a run, whatever is handed out next has been
held for the configured delay, exactly if no key frame refused by the buffer
rebases it, or the delay is zero. -/
theorem hold_iff (delayUs : UInt64) (ops : List JbClientOp) (s : JbClient)
    (hrun : Run.exec jbClientStep (.init delayUs) ops = some s) :
    Run.Always jbClientStep (JbClient.Holds delayUs) (.init delayUs) ops ↔
      Run.Along jbClientStep (KeepsDelay delayUs) (.init delayUs) ops :=
  Run.always_iff_along (JbClient.Delayed delayUs) (fun _ h => h.holds)
    (fun _ _ _ h hok hstep => delayed_step h hok hstep)
    (fun _ _ _ _ hstep h => keepsDelay_of_holds hstep h) (delayed_init delayUs) hrun

/-- A key frame inside the window is taken without a rebase. -/
def keyInWindow : List JbClientOp :=
  [.receive (videoDatagram 0 5) 0 0, .receive (videoDatagram flagKeyframe 6) 3 3, .peek 10, .consume]

theorem hold_iff_keyInWindow :
    Run.Always jbClientStep (JbClient.Holds 10) (.init 10) keyInWindow := by
  have hrun : (Run.exec jbClientStep (.init 10) keyInWindow).isSome := by decide +kernel
  obtain ⟨s, hs⟩ := Option.isSome_iff_exists.mp hrun
  exact (hold_iff 10 keyInWindow s hs).mpr (by decide +kernel)

/-! ## duplicates -/

/-- The slots and `next_seq` are as they were. -/
def JitterBuffer.Untouched (jb jb' : JitterBuffer) : Prop :=
  jb'.slots = jb.slots ∧ jb'.nextSeq = jb.nextSeq

/-- When a copy leaves the buffer alone: it is not a key frame and not taken for
the first push; or it is a key frame and all the buffer has ever been given,
received in the same microsecond, so that the rebase builds the same buffer
again. -/
def HarmlessCopy (jb : JitterBuffer) (d : DecodeOut) (now2Us : UInt64) : Prop :=
  if d.h.flags &&& flagKeyframe = 0 then jb.statsPushed ≠ 0 ∨ jb.nextSeq = d.h.seq
  else jb.nextSeq = d.h.seq ∧ jb.slots = firstSlots (jbPacket d now2Us).slot

/-- A copy is refused and counted. -/
theorem push_copy {jb : JitterBuffer} {d : JbPacket} (h : jb.HasCopy d.seq) :
    vmcJbPush jb d = (.again, { pushBase jb d.seq with
      statsDroppedDupe := (pushBase jb d.seq).statsDroppedDupe + 1 }) := by
  have hdup : (findSlot (pushBase jb d.seq) d.seq).isSome := by
    rw [findSlot_isSome_iff, contents_pushBase]
    exact h
  simp [vmcJbPush, hdup]

/-- A copy makes the loop rebase exactly if it is a key frame. -/
theorem rebases_copy {jb : JitterBuffer} {h : ProtoHeader} (hcopy : jb.HasCopy h.seq) :
    rebases jb h = true ↔ h.flags &&& flagKeyframe ≠ 0 := by
  have hdup : (findSlot (pushBase jb h.seq) h.seq).isSome := by
    rw [findSlot_isSome_iff, contents_pushBase]
    exact hcopy
  simp [rebases, acceptsPush, hdup]

theorem pushBase_self {jb : JitterBuffer} {seq : UInt32}
    (h : jb.statsPushed ≠ 0 ∨ jb.nextSeq = seq) : pushBase jb seq = jb := by
  unfold pushBase
  split
  · next hzero =>
    rw [← h.resolve_left fun hne => hne hzero]
  · rfl

theorem untouched_iff {jb : JitterBuffer} {d : DecodeOut} (hcopy : jb.HasCopy d.h.seq)
    (now1Us now2Us : UInt64) :
    jb.Untouched (receiveVideo jb d now1Us now2Us) ↔ HarmlessCopy jb d now2Us := by
  have hreb := rebases_copy hcopy
  rw [receiveVideo_eq, HarmlessCopy]
  by_cases hkey : d.h.flags &&& flagKeyframe = 0
  · rw [if_neg fun h => hreb.mp h hkey, if_pos hkey, push_copy hcopy]
    have hslots : (pushBase jb d.h.seq).slots = jb.slots := slots_pushBase jb d.h.seq
    constructor
    · rintro ⟨-, hnext⟩
      by_cases hzero : jb.statsPushed = 0
      · refine .inr ?_
        have hbase : (pushBase jb d.h.seq).nextSeq = d.h.seq := nextSeq_pushBase (.inl hzero)
        exact hnext.symm.trans hbase
      · exact .inl hzero
    · intro h
      have hnext : (pushBase jb d.h.seq).nextSeq = jb.nextSeq := by rw [pushBase_self h]
      exact ⟨hslots, hnext⟩
  · rw [if_pos (hreb.mpr hkey), if_neg hkey]
    obtain ⟨hslots, hnext, -, -⟩ := rebased_spec d now2Us
    rw [JitterBuffer.Untouched, hslots, hnext, and_comm]
    exact ⟨fun h => ⟨h.1.symm, h.2.symm⟩, fun h => ⟨h.1.symm, h.2.symm⟩⟩

/-! ## a run with copies and the run without them -/

/-- The buffer without its count of duplicates, which nothing reads. -/
def JitterBuffer.uncounted (jb : JitterBuffer) : JitterBuffer := { jb with statsDroppedDupe := 0 }

theorem uncounted_push (jb : JitterBuffer) (d : JbPacket) :
    (vmcJbPush jb.uncounted d).2.uncounted = (vmcJbPush jb d).2.uncounted := by
  have hbase : pushBase jb.uncounted d.seq = (pushBase jb d.seq).uncounted := by
    unfold pushBase
    by_cases h : jb.statsPushed = 0
    · rw [if_pos h, if_pos (show jb.uncounted.statsPushed = 0 from h)]
      rfl
    · rw [if_neg h, if_neg (show ¬ jb.uncounted.statsPushed = 0 from h)]
  have hfind : findSlot (pushBase jb d.seq).uncounted d.seq = findSlot (pushBase jb d.seq) d.seq := rfl
  have hout : outsideWindow (pushBase jb d.seq).uncounted d.seq =
      outsideWindow (pushBase jb d.seq) d.seq := rfl
  have hfree : freeSlot (pushBase jb d.seq).uncounted = freeSlot (pushBase jb d.seq) := rfl
  simp only [vmcJbPush, hbase, hfind, hout, hfree]
  split
  · rfl
  · split
    · rfl
    · cases freeSlot (pushBase jb d.seq) <;> rfl

theorem uncounted_peek (jb : JitterBuffer) (nowUs : UInt64) :
    (vmcJbPeek jb.uncounted nowUs).1 = (vmcJbPeek jb nowUs).1 ∧
      (vmcJbPeek jb.uncounted nowUs).2.uncounted = (vmcJbPeek jb nowUs).2.uncounted := by
  have hscan : scanSlots jb.uncounted = scanSlots jb := rfl
  have hold : ∀ x, oldEnough jb.uncounted x nowUs = oldEnough jb x nowUs := fun _ => rfl
  have hnext : jb.uncounted.nextSeq = jb.nextSeq := rfl
  simp only [vmcJbPeek, hscan, hold, hnext]
  split
  · split_ifs with hlate hmn hgap hnw hmn hmn' hmn'
    all_goals first | exact ⟨rfl, rfl⟩ | skip
    -- the gap branch asks the buffers it has just updated, which have the same delay
    · exact absurd hmn hmn'
    · exact absurd hmn' hmn
  · exact ⟨rfl, rfl⟩

theorem uncounted_consume (jb : JitterBuffer) :
    (vmcJbConsume jb.uncounted).uncounted = (vmcJbConsume jb).uncounted := by
  have hfind : findSlot jb.uncounted jb.uncounted.nextSeq = findSlot jb jb.nextSeq := rfl
  simp only [vmcJbConsume, hfind]
  cases findSlot jb jb.nextSeq <;> rfl

theorem uncounted_receive (jb : JitterBuffer) (d : DecodeOut) (now1Us now2Us : UInt64) :
    (receiveVideo jb.uncounted d now1Us now2Us).uncounted =
      (receiveVideo jb d now1Us now2Us).uncounted := by
  have hreb : rebases jb.uncounted d.h = rebases jb d.h := by
    have hacc : acceptsPush jb.uncounted d.h.seq = acceptsPush jb d.h.seq := by
      unfold acceptsPush pushBase
      by_cases h : jb.statsPushed = 0
      · rw [if_pos h, if_pos (show jb.uncounted.statsPushed = 0 from h)]
        rfl
      · rw [if_neg h, if_neg (show ¬ jb.uncounted.statsPushed = 0 from h)]
        rfl
    rw [rebases, rebases, hacc]
  rw [receiveVideo_eq, receiveVideo_eq, hreb]
  split
  · rfl
  · exact uncounted_push jb (jbPacket d now1Us)

/-- Two clients that will play the same: their buffers differ in the count of
duplicates at most. -/
structure JbClient.Alike (s t : JbClient) : Prop where
  jb : s.jb.uncounted = t.jb.uncounted
  clock : t.clockUs ≤ s.clockUs
  played : s.played = t.played

theorem alike_step {s t s' : JbClient} {op : JbClientOp} (h : s.Alike t)
    (hstep : jbClientStep s op = some s') : ∃ t', jbClientStep t op = some t' ∧ s'.Alike t' := by
  cases op with
  | receive d now1Us now2Us =>
      simp only [jbClientStep] at hstep ⊢
      split at hstep
      · next hclock =>
        obtain rfl := Option.some.inj hstep
        rw [if_pos ⟨UInt64.le_trans h.clock hclock.1, hclock.2⟩]
        refine ⟨_, rfl, ?_, UInt64.le_refl now2Us, h.played⟩
        have hs := uncounted_receive s.jb d now1Us now2Us
        rw [h.jb, uncounted_receive] at hs
        exact hs.symm
      · contradiction
  | peek nowUs =>
      simp only [jbClientStep] at hstep ⊢
      split at hstep
      · next hclock =>
        obtain rfl := Option.some.inj hstep
        rw [if_pos (UInt64.le_trans h.clock hclock)]
        obtain ⟨hs1, hs2⟩ := uncounted_peek s.jb nowUs
        obtain ⟨ht1, ht2⟩ := uncounted_peek t.jb nowUs
        rw [h.jb] at hs1 hs2
        refine ⟨_, rfl, hs2.symm.trans ht2, UInt64.le_refl nowUs, ?_⟩
        dsimp only
        rw [h.played, ← hs1, ht1]
      · contradiction
  | consume =>
      obtain rfl := Option.some.inj hstep
      have hs := uncounted_consume s.jb
      rw [h.jb, uncounted_consume] at hs
      exact ⟨_, rfl, hs.symm, h.clock, h.played⟩

/-- A run in which some of the datagrams, those marked, are copies the network
made. -/
abbrev MarkedOp := Bool × JbClientOp

def markedStep (s : JbClient) (op : MarkedOp) : Option JbClient := jbClientStep s op.2

/-- The run without them. -/
def originals (ops : List MarkedOp) : List JbClientOp := (ops.filter fun op => !op.1).map (·.2)

/-- What is marked is a datagram whose number is still buffered, not a key frame,
and not taken for the first push. -/
def HarmlessInsert (s : JbClient) : MarkedOp → Prop
  | (true, .receive d _ _) => s.jb.HasCopy d.h.seq ∧ d.h.flags &&& flagKeyframe = 0 ∧
      (s.jb.statsPushed ≠ 0 ∨ s.jb.nextSeq = d.h.seq)
  | (true, _) => False
  | (false, _) => True

instance (s : JbClient) : (op : MarkedOp) → Decidable (HarmlessInsert s op)
  | (true, .receive d _ _) => inferInstanceAs (Decidable (s.jb.HasCopy d.h.seq ∧
      d.h.flags &&& flagKeyframe = 0 ∧ (s.jb.statsPushed ≠ 0 ∨ s.jb.nextSeq = d.h.seq)))
  | (true, .peek _) | (true, .consume) => .isFalse id
  | (false, _) => .isTrue trivial

/-- Such a copy changes nothing but the count of duplicates. -/
theorem alike_insert {s t s' : JbClient} {op : JbClientOp} (h : s.Alike t)
    (hok : HarmlessInsert s (true, op)) (hstep : jbClientStep s op = some s') : s'.Alike t := by
  cases op with
  | receive d now1Us now2Us =>
      obtain ⟨hcopy, hkey, hfirst⟩ := hok
      simp only [jbClientStep] at hstep
      split at hstep
      · next hclock =>
        obtain rfl := Option.some.inj hstep
        have hjb : (receiveVideo s.jb d now1Us now2Us).uncounted = s.jb.uncounted := by
          rw [receiveVideo_eq, if_neg fun hreb => (rebases_copy hcopy).mp hreb hkey, push_copy hcopy,
            show pushBase s.jb (jbPacket d now1Us).seq = s.jb from pushBase_self hfirst]
          rfl
        refine ⟨hjb.trans h.jb, ?_, h.played⟩
        exact UInt64.le_trans h.clock (UInt64.le_trans hclock.1 hclock.2)
      · contradiction
  | peek nowUs => exact hok.elim
  | consume => exact hok.elim

/-- The two runs stay alike. -/
theorem alike_run {ops : List MarkedOp} {s t s' : JbClient} (h : s.Alike t)
    (hok : Run.Along markedStep HarmlessInsert s ops)
    (hrun : Run.exec markedStep s ops = some s') :
    ∃ t', Run.exec jbClientStep t (originals ops) = some t' ∧ s'.Alike t' := by
  induction ops generalizing s t with
  | nil =>
      obtain rfl := Option.some.inj hrun
      exact ⟨t, rfl, h⟩
  | cons op ops ih =>
      obtain ⟨u, hu, hrest⟩ := (Run.exec_cons_eq_some markedStep).mp hrun
      obtain ⟨mark, op⟩ := op
      cases mark with
      | true => exact ih (alike_insert h hok.1 hu) (hok.2 u hu) hrest
      | false =>
          obtain ⟨t', ht', halike⟩ := alike_step h hu
          obtain ⟨t'', ht'', hlast⟩ := ih halike (hok.2 u hu) hrest
          exact ⟨t'', (Run.exec_cons_eq_some jbClientStep).mpr ⟨t', ht', ht''⟩, hlast⟩

/-- The promise: a copy of a datagram that is still buffered does nothing. -/
def DuplicatesHarmless : Prop :=
  ∀ (delayUs : UInt64) (ops : List JbClientOp) (s : JbClient),
    Run.exec jbClientStep (.init delayUs) ops = some s →
    ∀ (d : DecodeOut) (now1Us now2Us : UInt64), s.jb.HasCopy d.h.seq →
      s.jb.Untouched (receiveVideo s.jb d now1Us now2Us)

/-- A datagram and a key frame behind it. -/
def keyBehind : List JbClientOp :=
  [.receive (videoDatagram 0 5) 0 0, .receive (videoDatagram flagKeyframe 6) 1 1]

/-- The promise is broken: a second copy of the key frame empties the buffer. -/
theorem duplicatesHarmless_fails : ¬ DuplicatesHarmless := by
  intro h
  have hrun : (Run.exec jbClientStep (.init 10) keyBehind).map (fun s =>
      (decide (s.jb.HasCopy 6), decide (s.jb.nextSeq = 5),
        (receiveVideo s.jb (videoDatagram flagKeyframe 6) 2 2).nextSeq)) =
      some (true, true, 6) := by
    decide +kernel
  obtain ⟨s, hs, heq⟩ := Option.map_eq_some_iff.mp hrun
  simp only [Prod.mk.injEq, decide_eq_true_eq] at heq
  have hnext := (h 10 keyBehind s hs (videoDatagram flagKeyframe 6) 2 2 heq.1).2
  rw [heq.2.2, heq.2.1] at hnext
  exact absurd hnext (by decide)

/-- **Duplicates.**  A copy of a buffered datagram leaves every slot and
`next_seq` alone exactly if it is harmless; and copies that are not key frames,
put into a run anywhere, do not change what is played. -/
theorem duplicate_harmless (delayUs : UInt64) :
    (∀ (jb : JitterBuffer) (d : DecodeOut) (now1Us now2Us : UInt64), jb.HasCopy d.h.seq →
      (jb.Untouched (receiveVideo jb d now1Us now2Us) ↔ HarmlessCopy jb d now2Us)) ∧
    ∀ (ops : List MarkedOp) (s : JbClient),
      Run.Along markedStep HarmlessInsert (.init delayUs) ops →
      Run.exec markedStep (.init delayUs) ops = some s →
      ∃ t, Run.exec jbClientStep (.init delayUs) (originals ops) = some t ∧
        t.played = s.played ∧ t.jb.slots = s.jb.slots ∧ t.jb.nextSeq = s.jb.nextSeq := by
  refine ⟨fun jb d now1Us now2Us hcopy => untouched_iff hcopy now1Us now2Us, ?_⟩
  intro ops s hok hrun
  have hsame : (JbClient.init delayUs).Alike (.init delayUs) :=
    ⟨rfl, UInt64.le_refl _, rfl⟩
  obtain ⟨t, ht, halike⟩ := alike_run hsame hok hrun
  have hslots : t.jb.uncounted.slots = s.jb.uncounted.slots := by rw [halike.jb]
  have hnext : t.jb.uncounted.nextSeq = s.jb.uncounted.nextSeq := by rw [halike.jb]
  exact ⟨t, ht, halike.played.symm, hslots, hnext⟩

/-- A copy arrives before its original is played. -/
def copiedOnce : List MarkedOp :=
  [(false, .receive (videoDatagram 0 5) 0 0), (true, .receive (videoDatagram 0 5) 1 1),
    (false, .peek 10), (false, .consume)]

theorem duplicate_harmless_copiedOnce :
    ∃ s t, Run.exec markedStep (.init 10) copiedOnce = some s ∧
      Run.exec jbClientStep (.init 10) (originals copiedOnce) = some t ∧ t.played = s.played ∧
      t.played.length = 1 := by
  have hrun : (Run.exec markedStep (.init 10) copiedOnce).map (·.played.length) = some 1 := by
    decide +kernel
  obtain ⟨s, hs, hlen⟩ := Option.map_eq_some_iff.mp hrun
  obtain ⟨t, ht, hplayed, -⟩ := (duplicate_harmless 10).2 copiedOnce s (by decide +kernel) hs
  exact ⟨s, t, hs, ht, hplayed, by rw [hplayed, hlen]⟩

end Vmc
