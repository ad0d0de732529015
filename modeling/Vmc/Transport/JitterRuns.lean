import Vmc.Transport.JitterBuffer

/-!
# Vmc.Transport.JitterRuns

Whole runs of the jitter buffer, over and above at-most-once playout.

The *ledger* of a run keeps, beside the buffer, the pushes it accepted, which
of them filled each slot last, and how many slots were flushed.  Whatever calls
are made, the buffer agrees with it: every valid slot holds the datagram that
filled it, and every accepted push is still buffered, was played or was flushed
(`storage_ok`).

The one catch is the first-push test: `stats_pushed == 0` is true again when the
64-bit counter has gone round, and the next push then moves `next_seq` whatever
becomes of it.
-/

namespace Vmc

/-! ## what the calls do to every field -/

/-- In an empty buffer no push is refused that is the first, or at `next_seq`. -/
theorem acceptsPush_empty {jb : JitterBuffer} {seq : UInt32} (hempty : jb.contents = [])
    (hseq : jb.statsPushed = 0 ∨ seq = jb.nextSeq) : acceptsPush jb seq = true := by
  refine acceptsPush_of (by simp [hempty]) ?_ (by simp [hempty, vmcJbMaxSlots])
  have hbase : (pushBase jb seq).nextSeq = seq := by
    unfold pushBase
    split
    · rfl
    · next h => exact (hseq.resolve_left h).symm
  have hzero : seqCmp seq seq = 0 := Serial.cmp_eq_zero_iff.mpr rfl
  simp [outsideWindow, hbase, hzero, vmcJbMaxSlots]

theorem pushBase_of_ne {jb : JitterBuffer} (h : jb.statsPushed ≠ 0) (seq : UInt32) :
    pushBase jb seq = jb := by
  rw [pushBase, if_neg h]

@[simp] theorem statsPlayed_pushBase (jb : JitterBuffer) (seq : UInt32) :
    (pushBase jb seq).statsPlayed = jb.statsPlayed := by
  unfold pushBase
  split <;> rfl

@[simp] theorem statsGaps_pushBase (jb : JitterBuffer) (seq : UInt32) :
    (pushBase jb seq).statsGaps = jb.statsGaps := by
  unfold pushBase
  split <;> rfl

@[simp] theorem statsPlayed_peek (jb : JitterBuffer) (nowUs : UInt64) :
    (vmcJbPeek jb nowUs).2.statsPlayed = jb.statsPlayed := by
  unfold vmcJbPeek
  split
  · dsimp only
    split_ifs <;> rfl
  · rfl

/-- A consume that finds its slot frees it, moves on and counts. -/
theorem consume_effect (jb : JitterBuffer) :
    (findSlot jb jb.nextSeq = none ∧ vmcJbConsume jb = jb) ∨
    ∃ i x, findSlot jb jb.nextSeq = some i ∧ jb.slots[i]? = some x ∧ x.valid = true ∧
      x.seq = jb.nextSeq ∧ ∃ hsize, vmcJbConsume jb = { jb with
        slots := jb.slots.set i { x with valid := false }
        nextSeq := jb.nextSeq + 1
        statsPlayed := jb.statsPlayed + 1
        size := hsize } := by
  cases hf : findSlot jb jb.nextSeq with
  | none => exact .inl ⟨rfl, by simp [vmcJbConsume, hf]⟩
  | some i =>
      obtain ⟨x, hx, hv, hseq⟩ := exists_of_findSlot hf
      refine .inr ⟨i, x, rfl, hx, hv, hseq, by rw [List.length_set, jb.size], ?_⟩
      simp [vmcJbConsume, hf, List.modify_eq_set_getElem?, hx]

/-- A datagram with that number is buffered. -/
def JitterBuffer.HasCopy (jb : JitterBuffer) (seq : UInt32) : Prop :=
  ∃ x ∈ jb.contents, x.seq = seq

instance (jb : JitterBuffer) (seq : UInt32) : Decidable (jb.HasCopy seq) :=
  inferInstanceAs (Decidable (∃ x ∈ jb.contents, x.seq = seq))

/-- A consume that plays takes the copy of `next_seq` out of the buffer, and no
other. -/
theorem hasCopy_consume {jb : JitterBuffer} {x : JbSlot} (hdist : (jb.contents.map (·.seq)).Nodup)
    (hperm : jb.contents.Perm (x :: (vmcJbConsume jb).contents)) (hseq : x.seq = jb.nextSeq)
    (n : UInt32) : (vmcJbConsume jb).HasCopy n ↔ jb.HasCopy n ∧ n ≠ jb.nextSeq := by
  have hleft := (hperm.map (·.seq)).nodup_iff.mp hdist
  rw [List.map_cons, List.nodup_cons] at hleft
  constructor
  · rintro ⟨y, hy, hyn⟩
    refine ⟨⟨y, hperm.mem_iff.mpr (List.mem_cons_of_mem x hy), hyn⟩, ?_⟩
    intro hn
    exact hleft.1 (List.mem_map.mpr ⟨y, hy, hyn.trans (hn.trans hseq.symm)⟩)
  · rintro ⟨⟨y, hy, hyn⟩, hne⟩
    obtain rfl | hy := List.mem_cons.mp (hperm.mem_iff.mp hy)
    · exact absurd (hyn.symm.trans hseq) hne
    · exact ⟨y, hy, hyn⟩

/-! ## the ledger of a run -/

/-- A slot that a call made valid. -/
def JbSlot.filled (before after : JbSlot) : Bool := !before.valid && after.valid

/-- A slot that a call made invalid. -/
def JbSlot.emptied (before after : JbSlot) : Bool := before.valid && !after.valid

/-- The run so far: the buffer, the numbers played, the pushes accepted, the
number of slots flushes have invalidated, and the accepted push that last made
each slot valid. -/
structure JbLedger extends JbTrace where
  accepted : List JbPacket
  flushed : Nat
  origin : Nat → Option JbPacket

/-- The entries one call adds, read off the buffer before and after it. -/
def ledgerStep (s : JbLedger) (op : JbOp) : JbLedger :=
  let after := jbStep s.toJbTrace op
  { toJbTrace := after
    accepted :=
      match op with
      | .push d => if (vmcJbPush s.jb d).1 = .ok then s.accepted ++ [d] else s.accepted
      | _ => s.accepted
    flushed :=
      match op with
      | .flushBefore _ =>
          s.flushed + (List.zipWith JbSlot.emptied s.jb.slots after.jb.slots).count true
      | _ => s.flushed
    origin :=
      match op with
      | .push d => fun i =>
          if (List.zipWith JbSlot.filled s.jb.slots after.jb.slots)[i]? = some true then some d
          else s.origin i
      | _ => s.origin }

def ledgerInit (targetDelayUs : UInt64) : JbLedger :=
  ⟨⟨vmcJbInit targetDelayUs, []⟩, [], 0, fun _ => none⟩

def ledgerRun (targetDelayUs : UInt64) (ops : List JbOp) : JbLedger :=
  ops.foldl ledgerStep (ledgerInit targetDelayUs)

/-- What is promised of the stored datagrams, in every state. -/
structure JbLedger.StorageOk (s : JbLedger) : Prop where
  distinct : (s.jb.contents.map (·.seq)).Nodup
  count : s.jb.contents.length + s.jb.statsPlayed.toNat + s.flushed = s.jb.statsPushed.toNat
  content : ∀ (i : Nat) (x : JbSlot), s.jb.slots[i]? = some x → x.valid = true →
    ∃ d ∈ s.accepted, s.origin i = some d ∧ x.seq = d.seq ∧ x.tsUs = d.tsUs ∧ x.flags = d.flags ∧
      x.stream = d.stream ∧ x.recvUs = d.recvUs ∧
      x.payload = d.payload.take (min d.payload.length vmcJbPayloadCap)
  refused : ∀ d, (vmcJbPush s.jb d).1 ≠ .ok →
    (vmcJbPush s.jb d).2 = { s.jb with statsDroppedDupe := s.jb.statsDroppedDupe + 1 } ∨
    (vmcJbPush s.jb d).2 = { s.jb with statsDroppedLate := s.jb.statsDroppedLate + 1 }

/-- The promise, for every run. -/
def StorageKept : Prop :=
  ∀ (targetDelayUs : UInt64) (ops : List JbOp), (ledgerRun targetDelayUs ops).StorageOk

/-! ## the ledger is right -/

/-- What every call keeps: the counters are the lengths of the histories, and
each valid slot is the copy of the push that filled it. -/
structure JbLedger.Inv (s : JbLedger) : Prop where
  distinct : (s.jb.contents.map (·.seq)).Nodup
  count : s.jb.contents.length + s.played.length + s.flushed = s.accepted.length
  pushed : s.jb.statsPushed = UInt64.ofNat s.accepted.length
  played : s.jb.statsPlayed = UInt64.ofNat s.played.length
  content : ∀ (i : Nat) (x : JbSlot), s.jb.slots[i]? = some x → x.valid = true →
    ∃ d ∈ s.accepted, s.origin i = some d ∧ x = d.slot

theorem ledgerInv_init (targetDelayUs : UInt64) : (ledgerInit targetDelayUs).Inv := by
  refine ⟨by simp [ledgerInit], by simp [ledgerInit], rfl, rfl, ?_⟩
  intro i x hx hv
  have hmem := List.mem_of_getElem? hx
  rw [show (ledgerInit targetDelayUs).jb.slots = List.replicate vmcJbMaxSlots JbSlot.zero from rfl,
    List.mem_replicate] at hmem
  rw [hmem.2] at hv
  contradiction

/-- The slots `filled` between two pools that differ in one place. -/
theorem filled_set {slots : List JbSlot} {i : Nat} {x y : JbSlot} (hx : slots[i]? = some x)
    (hxv : x.valid = false) (hyv : y.valid = true) (j : Nat) :
    (List.zipWith JbSlot.filled slots (slots.set i y))[j]? = some true ↔ j = i := by
  rw [List.getElem?_zipWith_eq_some]
  constructor
  · rintro ⟨a, b, ha, hb, hab⟩
    by_contra hne
    rw [List.getElem?_set_ne (Ne.symm hne), ha] at hb
    obtain rfl := Option.some.inj hb
    simp [JbSlot.filled] at hab
  · rintro rfl
    refine ⟨x, y, hx, ?_, by simp [JbSlot.filled, hxv, hyv]⟩
    rw [List.getElem?_set_self (List.getElem?_eq_some_iff.mp hx).1]

theorem filled_self (slots : List JbSlot) (j : Nat) :
    (List.zipWith JbSlot.filled slots slots)[j]? ≠ some true := by
  rw [Ne, List.getElem?_zipWith_eq_some]
  rintro ⟨a, b, ha, hb, hab⟩
  obtain rfl := Option.some.inj (ha.symm.trans hb)
  simp [JbSlot.filled] at hab

/-- A call that leaves the slots, the two counters and the histories alone. -/
theorem JbLedger.Inv.of_slots {s s' : JbLedger} (hs : s.Inv) (hslots : s'.jb.slots = s.jb.slots)
    (hpushed : s'.jb.statsPushed = s.jb.statsPushed) (hplayed : s'.jb.statsPlayed = s.jb.statsPlayed)
    (hhist : s'.played = s.played ∧ s'.accepted = s.accepted ∧ s'.flushed = s.flushed ∧
      s'.origin = s.origin) : s'.Inv := by
  obtain ⟨h1, h2, h3, h4⟩ := hhist
  have hcont : s'.jb.contents = s.jb.contents := by rw [JitterBuffer.contents, hslots]; rfl
  refine ⟨?_, ?_, ?_, ?_, ?_⟩
  · rw [hcont]
    exact hs.distinct
  · rw [hcont, h1, h2, h3]
    exact hs.count
  · rw [hpushed, h2]
    exact hs.pushed
  · rw [hplayed, h1]
    exact hs.played
  · rw [hslots, h2, h4]
    exact hs.content

theorem ledgerInv_push {s : JbLedger} (hs : s.Inv) (d : JbPacket) :
    (ledgerStep s (.push d)).Inv := by
  obtain ⟨hacc, i, x, hx, hxv, hsize, heq⟩ | ⟨-, hrej, hdrop⟩ := push_effect s.jb d
  · have hperm : (jbStep s.toJbTrace (.push d)).jb.contents.Perm (d.slot :: s.jb.contents) := by
      simp only [jbStep, heq]
      exact Pool.filter_set_fill hx hxv rfl
    have hstep : ledgerStep s (.push d) = ⟨jbStep s.toJbTrace (.push d), s.accepted ++ [d],
        s.flushed, (ledgerStep s (.push d)).origin⟩ := by
      simp [ledgerStep, heq]
    rw [hstep]
    refine ⟨?_, ?_, ?_, ?_, ?_⟩
    · refine (hperm.map _).nodup_iff.mpr (List.nodup_cons.mpr ⟨?_, hs.distinct⟩)
      intro hmem
      obtain ⟨y, hy, hyseq⟩ := List.mem_map.mp hmem
      exact ne_of_acceptsPush hacc y hy hyseq
    · have hlen := hperm.length_eq
      have hcount := hs.count
      simp only [List.length_cons, List.length_append, List.length_nil, jbStep] at hlen hcount ⊢
      omega
    · simp only [jbStep, heq, hs.pushed, List.length_append, List.length_singleton,
        UInt64.ofNat_add]
      rfl
    · simp only [jbStep, heq]
      rw [← hs.played]
      unfold pushBase
      split <;> rfl
    · intro j y hy hyv
      simp only [jbStep, heq] at hy
      have horigin : (ledgerStep s (.push d)).origin j =
          if j = i then some d else s.origin j := by
        simp only [ledgerStep, jbStep, heq, filled_set hx hxv (y := d.slot) rfl]
      rw [horigin]
      by_cases hj : j = i
      · rw [hj, List.getElem?_set_self (List.getElem?_eq_some_iff.mp hx).1] at hy
        exact ⟨d, by simp, if_pos hj, (Option.some.inj hy).symm⟩
      · rw [List.getElem?_set_ne (Ne.symm hj)] at hy
        obtain ⟨e, he, hoe, hye⟩ := hs.content j y hy hyv
        exact ⟨e, List.mem_append_left _ he, by rw [if_neg hj, hoe], hye⟩
  · have hslots : (vmcJbPush s.jb d).2.slots = s.jb.slots := by
      obtain h | h := hdrop <;> rw [h] <;> exact slots_pushBase s.jb d.seq
    refine hs.of_slots hslots ?_ ?_ ⟨rfl, if_neg hrej, rfl, ?_⟩
    · obtain h | h := hdrop <;> simp only [ledgerStep, jbStep, h] <;>
        exact statsPushed_pushBase s.jb d.seq
    · obtain h | h := hdrop <;> simp only [ledgerStep, jbStep, h] <;>
        exact statsPlayed_pushBase s.jb d.seq
    · funext j
      have hself := filled_self s.jb.slots j
      simp only [ledgerStep, jbStep, hslots, if_neg hself]

theorem ledgerInv_consume {s : JbLedger} (hs : s.Inv) : (ledgerStep s .consume).Inv := by
  obtain ⟨hf, heq⟩ | ⟨i, x, hf, hx, hv, hseq, hsize, heq⟩ := consume_effect s.jb
  · refine hs.of_slots ?_ ?_ ?_ ⟨?_, rfl, rfl, rfl⟩ <;> simp [ledgerStep, jbStep, heq, hf]
  · have hperm := contents_consume hf hx hv
    have hplayed : (ledgerStep s .consume).played = s.played ++ [s.jb.nextSeq] := by
      simp [ledgerStep, jbStep, hf]
    refine ⟨?_, ?_, ?_, ?_, ?_⟩
    · have hdist := (hperm.map (·.seq)).nodup_iff.mp hs.distinct
      exact (List.nodup_cons.mp hdist).2
    · have hlen := hperm.length_eq
      have hcount := hs.count
      rw [hplayed]
      simp only [ledgerStep, jbStep, List.length_cons, List.length_append, List.length_nil]
        at hlen hcount ⊢
      omega
    · simp only [ledgerStep, jbStep, heq]
      exact hs.pushed
    · rw [hplayed]
      simp only [ledgerStep, jbStep, heq, hs.played, List.length_append, List.length_singleton,
        UInt64.ofNat_add]
      rfl
    · intro j y hy hyv
      simp only [ledgerStep, jbStep, heq] at hy
      by_cases hj : j = i
      · rw [hj, List.getElem?_set_self (List.getElem?_eq_some_iff.mp hx).1] at hy
        rw [← Option.some.inj hy] at hyv
        contradiction
      · rw [List.getElem?_set_ne (Ne.symm hj)] at hy
        exact hs.content j y hy hyv

/-- A flush takes out as many slots as it empties. -/
theorem length_contents_flushBefore (jb : JitterBuffer) (seq : UInt32) :
    (vmcJbFlushBefore jb seq).contents.length +
      (List.zipWith JbSlot.emptied jb.slots (vmcJbFlushBefore jb seq).slots).count true =
      jb.contents.length := by
  apply Pool.length_filter_map
  intro x
  split
  · exact .inr rfl
  · exact .inl rfl

theorem ledgerInv_flush {s : JbLedger} (hs : s.Inv) (seq : UInt32) :
    (ledgerStep s (.flushBefore seq)).Inv := by
  have hsub := contents_flushBefore_sublist s.jb seq
  refine ⟨(hsub.map _).nodup hs.distinct, ?_, hs.pushed, hs.played, ?_⟩
  · have hlen := length_contents_flushBefore s.jb seq
    have hcount := hs.count
    simp only [ledgerStep, jbStep] at hcount ⊢
    omega
  · intro j y hy hyv
    simp only [ledgerStep, jbStep, vmcJbFlushBefore, List.getElem?_map] at hy
    obtain ⟨x, hx, hxy⟩ := Option.map_eq_some_iff.mp hy
    split at hxy
    · rw [← hxy] at hyv
      contradiction
    · obtain rfl := hxy
      exact hs.content j x hx hyv

theorem ledgerInv_step {s : JbLedger} (hs : s.Inv) (op : JbOp) : (ledgerStep s op).Inv := by
  cases op with
  | push d => exact ledgerInv_push hs d
  | peek nowUs =>
      refine hs.of_slots ?_ ?_ ?_ ⟨rfl, rfl, rfl, rfl⟩
      · exact slots_peek s.jb nowUs
      · exact statsPushed_peek s.jb nowUs
      · exact statsPlayed_peek s.jb nowUs
  | consume => exact ledgerInv_consume hs
  | flushBefore seq => exact ledgerInv_flush hs seq

/-- The buffer after a call, without any history. -/
def jbCall (jb : JitterBuffer) : JbOp → JitterBuffer
  | .push d => (vmcJbPush jb d).2
  | .peek nowUs => (vmcJbPeek jb nowUs).2
  | .consume => vmcJbConsume jb
  | .flushBefore seq => vmcJbFlushBefore jb seq

theorem jb_ledgerRun (targetDelayUs : UInt64) (ops : List JbOp) :
    (ledgerRun targetDelayUs ops).jb = ops.foldl jbCall (vmcJbInit targetDelayUs) := by
  have hstep : ∀ (s : JbLedger) (op : JbOp), jbCall s.jb op = (ledgerStep s op).jb := by
    intro s op
    cases op <;> rfl
  exact (List.foldl_hom (fun s : JbLedger => s.jb) hstep).symm

theorem ledgerInv_run (targetDelayUs : UInt64) (ops : List JbOp) :
    (ledgerRun targetDelayUs ops).Inv :=
  Run.exec_invariant_true JbLedger.Inv
    (fun s op s' hs h => by
      obtain rfl := Option.some.inj h
      exact ledgerInv_step hs op)
    (ledgerInv_init targetDelayUs) (Run.exec_total ledgerStep _ ops)

/-! ## the first-push test goes round -/

/-- An empty datagram. -/
def beat (seq : UInt32) : JbPacket := ⟨seq, 0, 0, 0, [], 0⟩

/-- `n` datagrams, each played before the next arrives. -/
def beats (n : Nat) : List JbOp :=
  (List.range n).flatMap fun k => [.push (beat (UInt32.ofNat k)), .consume]

theorem beats_succ (n : Nat) :
    beats (n + 1) = beats n ++ [.push (beat (UInt32.ofNat n)), .consume] := by
  rw [beats, List.range_succ, List.flatMap_append]
  rfl

/-- The buffer that leaves: empty, with every counter at `n`. -/
structure JitterBuffer.Beaten (n : Nat) (jb : JitterBuffer) : Prop where
  empty : jb.contents = []
  next : jb.nextSeq = UInt32.ofNat n
  pushed : jb.statsPushed = UInt64.ofNat n
  played : jb.statsPlayed = UInt64.ofNat n
  gaps : jb.statsGaps = 0

theorem nextSeq_pushBase {jb : JitterBuffer} {seq : UInt32}
    (h : jb.statsPushed = 0 ∨ seq = jb.nextSeq) : (pushBase jb seq).nextSeq = seq := by
  unfold pushBase
  split
  · rfl
  · next hne => exact (h.resolve_left hne).symm

/-- A datagram at `next_seq` is taken into an empty buffer. -/
theorem push_beat {n : Nat} {jb : JitterBuffer} (h : jb.Beaten n) :
    (vmcJbPush jb (beat (UInt32.ofNat n))).1 = .ok ∧
    (vmcJbPush jb (beat (UInt32.ofNat n))).2.contents = [(beat (UInt32.ofNat n)).slot] ∧
    (vmcJbPush jb (beat (UInt32.ofNat n))).2.nextSeq = UInt32.ofNat n ∧
    (vmcJbPush jb (beat (UInt32.ofNat n))).2.statsPushed = UInt64.ofNat (n + 1) ∧
    (vmcJbPush jb (beat (UInt32.ofNat n))).2.statsPlayed = UInt64.ofNat n ∧
    (vmcJbPush jb (beat (UInt32.ofNat n))).2.statsGaps = 0 := by
  have hseq : (beat (UInt32.ofNat n)).seq = jb.nextSeq := h.next.symm
  have hacc := acceptsPush_empty h.empty (.inr hseq)
  obtain ⟨-, i, x, hx, hxv, hsize, heq⟩ | ⟨hrej, -⟩ := push_effect jb (beat (UInt32.ofNat n))
  · have hperm := Pool.filter_set_fill (p := JbSlot.valid) (b := (beat (UInt32.ofNat n)).slot) hx
      hxv rfl
    rw [show jb.slots.filter JbSlot.valid = [] from h.empty] at hperm
    rw [heq]
    refine ⟨rfl, List.perm_singleton.mp hperm, nextSeq_pushBase (.inr hseq), ?_, ?_, ?_⟩
    · simp only [h.pushed, UInt64.ofNat_add]
      rfl
    · exact (statsPlayed_pushBase _ _).trans h.played
    · exact (statsGaps_pushBase _ _).trans h.gaps
  · rw [hacc] at hrej
    contradiction

theorem beaten_succ {n : Nat} {jb : JitterBuffer} (h : jb.Beaten n) :
    (vmcJbConsume (vmcJbPush jb (beat (UInt32.ofNat n))).2).Beaten (n + 1) := by
  obtain ⟨-, hcont, hnext, hpushed, hplayed, hgaps⟩ := push_beat h
  obtain ⟨hnone, -⟩ | ⟨i, x, hf, hx, hv, -, hsize, heq⟩ :=
    consume_effect (vmcJbPush jb (beat (UInt32.ofNat n))).2
  · rw [findSlot_eq_none_iff, hcont, hnext] at hnone
    exact absurd rfl (hnone _ (List.mem_singleton.mpr rfl))
  · have hperm := contents_consume hf hx hv
    rw [hcont] at hperm
    have hnil := List.length_eq_zero_iff.mp (Nat.succ.inj hperm.length_eq.symm)
    rw [heq] at hnil ⊢
    refine ⟨hnil, ?_, hpushed, ?_, hgaps⟩
    · simp only [hnext, Serial.ofNat_add_one]
    · simp only [hplayed, UInt64.ofNat_add]
      rfl

theorem beaten_beats (targetDelayUs : UInt64) (n : Nat) :
    ((beats n).foldl jbCall (vmcJbInit targetDelayUs)).Beaten n := by
  induction n with
  | zero => exact ⟨contents_init targetDelayUs, rfl, rfl, rfl, rfl⟩
  | succ n ih =>
      rw [beats_succ, List.foldl_append, List.foldl_cons, List.foldl_cons, List.foldl_nil, jbCall,
        jbCall]
      exact beaten_succ ih

/-- With the counter at zero a duplicate is refused, and moves `next_seq`. -/
theorem push_dup_moves {jb : JitterBuffer} (hpushed : jb.statsPushed = 0) {seq : UInt32}
    (hnext : jb.nextSeq ≠ seq) (hdup : ∃ x ∈ jb.contents, x.seq = seq) :
    (vmcJbPush jb (beat seq)).1 ≠ .ok ∧
      (vmcJbPush jb (beat seq)).2 ≠ { jb with statsDroppedDupe := jb.statsDroppedDupe + 1 } ∧
      (vmcJbPush jb (beat seq)).2 ≠ { jb with statsDroppedLate := jb.statsDroppedLate + 1 } := by
  have hf : (findSlot (pushBase jb seq) seq).isSome := by
    rw [findSlot_isSome_iff, contents_pushBase]
    exact hdup
  have hmoved : (vmcJbPush jb (beat seq)).2.nextSeq = seq := by
    have hbase : (pushBase jb seq).nextSeq = seq := nextSeq_pushBase (.inl hpushed)
    simp [vmcJbPush, beat, hf, hbase]
  refine ⟨by simp [vmcJbPush, beat, hf], ?_, ?_⟩
  all_goals
    intro heq
    rw [heq] at hmoved
    exact hnext hmoved

/-- 2^64 datagrams, the last two still buffered. -/
def roundTheCounter : List JbOp :=
  beats (2 ^ 64 - 2) ++ [.push (beat (UInt32.ofNat (2 ^ 64 - 2))), .push (beat 4294967295)]

/-- The buffer that leaves: the counter is back at zero, and `next_seq` is not
the number of the second. -/
theorem push_second {jb : JitterBuffer} (h : jb.Beaten (2 ^ 64 - 2)) :
    let jb' := (vmcJbPush (vmcJbPush jb (beat (UInt32.ofNat (2 ^ 64 - 2)))).2 (beat 4294967295)).2
    jb'.statsPushed = 0 ∧ jb'.nextSeq = 4294967294 ∧ ∃ x ∈ jb'.contents, x.seq = 4294967295 := by
  obtain ⟨-, hcont, hnext, hpushed, -, -⟩ := push_beat h
  revert hcont hnext hpushed
  generalize (vmcJbPush jb (beat (UInt32.ofNat (2 ^ 64 - 2)))).2 = jb1
  intro hcont hnext hpushed
  have hne : jb1.statsPushed ≠ 0 := by
    rw [hpushed]
    decide
  have hacc : acceptsPush jb1 4294967295 = true := by
    refine acceptsPush_of ?_ ?_ (by simp [hcont, vmcJbMaxSlots])
    · rw [hcont]
      intro x hx
      rw [List.mem_singleton.mp hx]
      decide
    · rw [pushBase_of_ne hne, outsideWindow, hnext]
      decide
  obtain ⟨hn, -, ⟨-, -, hcount, hperm⟩ | ⟨hrej, -⟩⟩ := push_spec jb1 (beat 4294967295)
  · refine ⟨?_, ?_, (beat 4294967295).slot, hperm.mem_iff.mpr (by simp), rfl⟩
    · rw [hcount, hpushed]
      decide
    · rw [hn, pushBase_of_ne hne, hnext]
      decide
  · rw [show (beat 4294967295).seq = 4294967295 from rfl, hacc] at hrej
    contradiction

/-- The promise is broken once the counter has gone round. -/
theorem storageKept_fails : ¬ StorageKept := by
  intro h
  have hrefused := (h 0 roundTheCounter).refused (beat 4294967295)
  rw [jb_ledgerRun, roundTheCounter, List.foldl_append, List.foldl_cons, List.foldl_cons,
    List.foldl_nil, jbCall, jbCall] at hrefused
  obtain ⟨hpushed, hnext, hdup⟩ := push_second (beaten_beats 0 (2 ^ 64 - 2))
  obtain ⟨hne, hdupe, hlate⟩ := push_dup_moves hpushed (by rw [hnext]; decide) hdup
  obtain heq | heq := hrefused hne
  · exact hdupe heq
  · exact hlate heq

/-- **Storage.**  In every run with fewer than 2^64 accepted pushes: the numbers
buffered are distinct, every accepted push is buffered, played or flushed, each
valid slot holds what the push that filled it brought, and a refused push
changes one drop counter only. -/
theorem storage_ok (targetDelayUs : UInt64) (ops : List JbOp)
    (hfew : (ledgerRun targetDelayUs ops).accepted.length < 2 ^ 64) :
    (ledgerRun targetDelayUs ops).StorageOk := by
  have hinv := ledgerInv_run targetDelayUs ops
  generalize ledgerRun targetDelayUs ops = s at hfew hinv
  have hcount := hinv.count
  refine ⟨hinv.distinct, ?_, ?_, ?_⟩
  · rw [hinv.pushed, hinv.played, UInt64.toNat_ofNat', UInt64.toNat_ofNat']
    omega
  · intro i x hx hv
    obtain ⟨d, hd, ho, rfl⟩ := hinv.content i x hx hv
    refine ⟨d, hd, ho, rfl, rfl, rfl, rfl, rfl, ?_⟩
    change d.payload.take vmcJbPayloadCap = _
    rw [List.take_eq_take_iff]
    omega
  · intro d hne
    obtain ⟨-, i, x, -, -, hsize, heq⟩ | ⟨hrej, -, hdrop⟩ := push_effect s.jb d
    · rw [heq] at hne
      contradiction
    · -- the first push of a run is never refused
      have hpushed : s.jb.statsPushed ≠ 0 := by
        intro hzero
        have hnone : s.accepted.length = 0 := by
          have htoNat := congrArg UInt64.toNat (hinv.pushed.symm.trans hzero)
          rw [UInt64.toNat_ofNat'] at htoNat
          change _ = 0 at htoNat
          omega
        have hempty : s.jb.contents = [] := List.length_eq_zero_iff.mp (by omega)
        rw [acceptsPush_empty hempty (.inl hzero)] at hrej
        contradiction
      rwa [pushBase_of_ne hpushed] at hdrop

/-- Two datagrams out of order, one played, one flushed. -/
theorem storage_ok_mixed :
    (ledgerRun 10 [.push (five 0), .push { five 1 with seq := 7 }, .peek 11, .consume,
      .push (five 12), .flushBefore 9]).StorageOk :=
  storage_ok 10 _ (by decide +kernel)

end Vmc
