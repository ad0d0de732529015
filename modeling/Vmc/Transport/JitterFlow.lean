import Vmc.Transport.JitterRuns

/-!
# Vmc.Transport.JitterFlow

Runs of the jitter buffer in which nothing arrives behind `next_seq`.

In such a run `next_seq` only moves forward: over a gap in a peek, by one in a
consume.  Adding its moves up gives its distance from the first number, without
wrapping, and the position at which each number was played.  What is buffered
stays inside the window of 256 numbers from `next_seq` on, so a push never
finds the slots used up; numbers are played in order; and each number passed
was played or counted as a gap (`in_window_run`).

As for the storage (`Vmc.Transport.JitterRuns`), this is so until the push
counter goes round and a push is taken for the first one again.
-/

namespace Vmc

open Serial

/-! ## unwrapping a run -/

/-- The run so far with the number of the first push, how far `next_seq` has
moved on from it, and where the numbers were played. -/
structure JbFlow extends JbLedger where
  base : Option UInt32
  dist : Nat
  places : List Nat

def flowStep (s : JbFlow) (op : JbOp) : JbFlow :=
  let after := ledgerStep s.toJbLedger op
  { toJbLedger := after
    base :=
      match op with
      | .push d => s.base.or (some d.seq)
      | _ => s.base
    dist := if s.base.isSome then s.dist + ahead s.jb.nextSeq after.jb.nextSeq else s.dist
    places :=
      match op with
      | .consume =>
          if (findSlot s.jb s.jb.nextSeq).isSome then s.places ++ [s.dist] else s.places
      | _ => s.places }

def flowInit (targetDelayUs : UInt64) : JbFlow := ⟨ledgerInit targetDelayUs, none, 0, []⟩

def flowRun (targetDelayUs : UInt64) (ops : List JbOp) : JbFlow :=
  ops.foldl flowStep (flowInit targetDelayUs)

/-- No flushes, and every push after the first at or ahead of `next_seq`. -/
def JbFlow.InWindow (s : JbFlow) : JbOp → Prop
  | .push d => s.base.isSome → 0 ≤ seqCmp d.seq s.jb.nextSeq
  | .peek _ | .consume => True
  | .flushBefore _ => False

instance (s : JbFlow) : (op : JbOp) → Decidable (s.InWindow op)
  | .push d => inferInstanceAs (Decidable (s.base.isSome → 0 ≤ seqCmp d.seq s.jb.nextSeq))
  | .peek _ | .consume => .isTrue trivial
  | .flushBefore _ => .isFalse id

/-- The run kept to that all along. -/
abbrev InWindowRun (targetDelayUs : UInt64) (ops : List JbOp) : Prop :=
  Run.Along (fun s op => some (flowStep s op)) JbFlow.InWindow (flowInit targetDelayUs) ops

/-- What is promised of such a run, in every state: the window, room in the
slots, the order of play, and an account of every number below `next_seq`. -/
structure JbFlow.FlowOk (s : JbFlow) : Prop where
  window : ∀ x ∈ s.jb.contents, ahead s.jb.nextSeq x.seq ≤ 255
  room : ∀ d, s.InWindow (.push d) → (vmcJbPush s.jb d).1 ≠ .overrun
  unwrapped : ∀ b, s.base = some b → s.jb.nextSeq = b + UInt32.ofNat s.dist ∧
    s.played = s.places.map fun n => b + UInt32.ofNat n
  order : s.places.Pairwise (· < ·)
  passed : ∀ n ∈ s.places, n < s.dist
  played : s.jb.statsPlayed = UInt64.ofNat s.places.length
  account : s.jb.statsPlayed + s.jb.statsGaps = UInt64.ofNat s.dist

/-- The promise. -/
def FlowKept : Prop :=
  ∀ (targetDelayUs : UInt64) (ops : List JbOp), InWindowRun targetDelayUs ops →
    (flowRun targetDelayUs ops).FlowOk

/-! ## what every call keeps -/

/-- A push runs out of slots only with a new number inside the window. -/
theorem of_overrun {jb : JitterBuffer} {d : JbPacket} (h : (vmcJbPush jb d).1 = .overrun) :
    (∀ s ∈ jb.contents, s.seq ≠ d.seq) ∧ outsideWindow (pushBase jb d.seq) d.seq = false ∧
      acceptsPush jb d.seq = false := by
  unfold vmcJbPush at h
  by_cases hdup : (findSlot (pushBase jb d.seq) d.seq).isSome
  · simp [hdup] at h
  by_cases hout : outsideWindow (pushBase jb d.seq) d.seq
  · simp [hdup, hout] at h
  refine ⟨?_, by simpa using hout, ?_⟩
  · rwa [Option.not_isSome_iff_eq_none, findSlot_eq_none_iff, contents_pushBase] at hdup
  · cases hfree : freeSlot (pushBase jb d.seq) with
    | none => simp [acceptsPush, hfree]
    | some i => simp [hdup, hout, hfree] at h

/-- With everything ahead of `next_seq` a peek stays, or moves on to the least
slot and counts the numbers it passes. -/
theorem peek_effect {jb : JitterBuffer} (nowUs : UInt64)
    (hahead : ∀ s ∈ jb.contents, ahead jb.nextSeq s.seq < 2 ^ 31) :
    ((vmcJbPeek jb nowUs).2.nextSeq = jb.nextSeq ∧ (vmcJbPeek jb nowUs).2.statsGaps = jb.statsGaps) ∨
    ∃ mn ∈ jb.contents, jb.Least mn ∧ (vmcJbPeek jb nowUs).2.nextSeq = mn.seq ∧
      (vmcJbPeek jb nowUs).2.statsGaps = jb.statsGaps + (mn.seq - jb.nextSeq).toUInt64 := by
  obtain ⟨-, hscan⟩ | ⟨mn, nw, hscan, hmem, -, hleast⟩ := scanned_scanSlots jb jb.nextSeq
  · exact .inl (by simp [vmcJbPeek, hscan])
  · have hlate : ¬ seqCmp mn.seq jb.nextSeq < 0 := by
      rw [seqCmp, cmp_base (hahead mn hmem)]
      omega
    simp only [vmcJbPeek, hscan, if_neg hlate]
    by_cases hgap : seqCmp mn.seq jb.nextSeq > 0
    · rw [if_pos hgap]
      split
      · refine .inr ⟨mn, hmem, hleast, ?_⟩
        split <;> exact ⟨rfl, rfl⟩
      · exact .inl ⟨rfl, rfl⟩
    · rw [if_neg hgap]
      split <;> exact .inl ⟨rfl, rfl⟩

/-- The invariant of a run that keeps to the window. -/
structure JbFlow.Inv (s : JbFlow) : Prop where
  ledger : s.toJbLedger.Inv
  fresh : s.base = none → s.accepted = [] ∧ s.dist = 0 ∧ s.places = [] ∧ s.jb.statsGaps = 0
  started : s.base ≠ none → s.accepted ≠ []
  window : ∀ x ∈ s.jb.contents, ahead s.jb.nextSeq x.seq < vmcJbMaxSlots
  next : ∀ b, s.base = some b → s.jb.nextSeq = b + UInt32.ofNat s.dist
  length : s.played.length = s.places.length
  played : ∀ b, s.base = some b → s.played = s.places.map fun n => b + UInt32.ofNat n
  order : s.places.Pairwise (· < ·)
  passed : ∀ n ∈ s.places, n < s.dist
  account : s.jb.statsPlayed + s.jb.statsGaps = UInt64.ofNat s.dist

theorem flowInv_init (targetDelayUs : UInt64) : (flowInit targetDelayUs).Inv where
  ledger := ledgerInv_init targetDelayUs
  fresh := fun _ => ⟨rfl, rfl, rfl, rfl⟩
  started := fun h => absurd rfl h
  window := by simp [flowInit, ledgerInit]
  next := by simp [flowInit]
  length := rfl
  played := by simp [flowInit]
  order := by simp [flowInit]
  passed := by simp [flowInit]
  account := rfl

/-- Before the first push there is nothing in the buffer. -/
theorem JbFlow.Inv.empty {s : JbFlow} (hs : s.Inv) (h : s.base = none) : s.jb.contents = [] := by
  have hcount := hs.ledger.count
  rw [(hs.fresh h).1, List.length_nil] at hcount
  exact List.length_eq_zero_iff.mp (by omega)

/-- Once there was a push the counter says so, until it goes round. -/
theorem JbFlow.Inv.statsPushed_ne {s : JbFlow} (hs : s.Inv) (h : s.base ≠ none)
    (hfew : s.accepted.length < 2 ^ 64) : s.jb.statsPushed ≠ 0 := by
  intro hzero
  have htoNat := congrArg UInt64.toNat (hs.ledger.pushed.symm.trans hzero)
  rw [UInt64.toNat_ofNat'] at htoNat
  change _ = 0 at htoNat
  exact hs.started h (List.length_eq_zero_iff.mp (by omega))

/-- A number the window test lets through, not behind `next_seq`. -/
theorem ahead_lt_of_inside {jb : JitterBuffer} {seq : UInt32} (hle : 0 ≤ seqCmp seq jb.nextSeq)
    (hin : outsideWindow jb seq = false) : ahead jb.nextSeq seq < vmcJbMaxSlots := by
  have hahead := ahead_of_cmp hle
  rw [outsideWindow, decide_eq_false_iff_not, not_or] at hin
  have hlt := hin.1
  rw [seqCmp] at hlt
  omega

/-- The first push. -/
theorem flowInv_first {s : JbFlow} (hs : s.Inv) (hbase : s.base = none) (d : JbPacket) :
    (flowStep s (.push d)).Inv := by
  have hempty := hs.empty hbase
  obtain ⟨hacc0, hdist, hplaces, hgaps⟩ := hs.fresh hbase
  have hpushed : s.jb.statsPushed = 0 := by
    rw [hs.ledger.pushed, hacc0]
    rfl
  have hplayed : s.played = [] := List.length_eq_zero_iff.mp (by rw [hs.length, hplaces]; rfl)
  have hacc : acceptsPush s.jb d.seq = true := acceptsPush_empty hempty (.inl hpushed)
  obtain ⟨-, i, x, hx, hxv, hsize, heq⟩ | ⟨hrej, -⟩ := push_effect s.jb d
  · have hperm := Pool.filter_set_fill (p := JbSlot.valid) (b := d.slot) hx hxv rfl
    rw [show s.jb.slots.filter JbSlot.valid = [] from hempty] at hperm
    have hcont : (flowStep s (.push d)).jb.contents = [d.slot] := by
      simp only [flowStep, ledgerStep, jbStep, heq]
      exact List.perm_singleton.mp hperm
    have hnext : (flowStep s (.push d)).jb.nextSeq = d.seq := by
      simp only [flowStep, ledgerStep, jbStep, heq]
      exact nextSeq_pushBase (.inl hpushed)
    have hstats : (flowStep s (.push d)).jb.statsPlayed = s.jb.statsPlayed ∧
        (flowStep s (.push d)).jb.statsGaps = s.jb.statsGaps := by
      simp only [flowStep, ledgerStep, jbStep, heq]
      exact ⟨statsPlayed_pushBase _ _, statsGaps_pushBase _ _⟩
    have hbase' : (flowStep s (.push d)).base = some d.seq := by simp [flowStep, hbase]
    have hdist' : (flowStep s (.push d)).dist = 0 := by simp [flowStep, hbase, hdist]
    refine ⟨ledgerInv_push hs.ledger d, ?_, ?_, ?_, ?_, hs.length, ?_, hs.order, ?_, ?_⟩
    · rw [hbase']
      simp
    · intro _
      simp [flowStep, ledgerStep, heq]
    · rw [hcont, hnext]
      intro y hy
      rw [List.mem_singleton.mp hy, show d.slot.seq = d.seq from rfl, ahead_self]
      decide
    · intro b hb
      rw [hbase'] at hb
      rw [hnext, hdist', ← Option.some.inj hb]
      simp
    · intro b _
      change s.played = s.places.map _
      rw [hplayed, hplaces]
      rfl
    · change ∀ n ∈ s.places, _
      simp [hplaces]
    · rw [hstats.1, hstats.2, hs.account, hdist, hdist']
  · rw [hacc] at hrej
    contradiction

/-- A later push: `next_seq` stays, and what is taken lies inside the window. -/
theorem flowInv_later {s : JbFlow} (hs : s.Inv) (hbase : s.base ≠ none) {d : JbPacket}
    (hle : 0 ≤ seqCmp d.seq s.jb.nextSeq) (hfew : s.accepted.length < 2 ^ 64) :
    (flowStep s (.push d)).Inv := by
  have hpush := pushBase_of_ne (hs.statsPushed_ne hbase hfew) d.seq
  obtain ⟨b, hb⟩ := Option.ne_none_iff_exists'.mp hbase
  have hbase' : (flowStep s (.push d)).base = s.base := by simp [flowStep, hb]
  have hsame : (flowStep s (.push d)).jb.nextSeq = s.jb.nextSeq ∧
      (flowStep s (.push d)).jb.statsPlayed = s.jb.statsPlayed ∧
      (flowStep s (.push d)).jb.statsGaps = s.jb.statsGaps := by
    obtain ⟨-, i, x, -, -, hsize, heq⟩ | ⟨-, -, hdrop⟩ := push_effect s.jb d
    · simp [flowStep, ledgerStep, jbStep, heq, hpush]
    · obtain h | h := hdrop <;> simp [flowStep, ledgerStep, jbStep, h, hpush]
  have hdist' : (flowStep s (.push d)).dist = s.dist := by
    have hnext := hsame.1
    simp only [flowStep, hb] at hnext ⊢
    simp [hnext]
  refine ⟨ledgerInv_push hs.ledger d, ?_, ?_, ?_, ?_, hs.length, ?_, hs.order, ?_, ?_⟩
  · rw [hbase']
    exact fun h => absurd h hbase
  · intro _
    simp only [flowStep, ledgerStep]
    split
    · simp
    · exact hs.started hbase
  · rw [hsame.1]
    intro y hy
    obtain ⟨-, -, ⟨hacc, -, -, hperm⟩ | ⟨-, -, -, hslots⟩⟩ := push_spec s.jb d
    · obtain rfl | hy := List.mem_cons.mp (hperm.mem_iff.mp hy)
      · refine ahead_lt_of_inside hle ?_
        simp only [acceptsPush, hpush, Bool.and_eq_true, Bool.not_eq_true'] at hacc
        exact hacc.1.2
      · exact hs.window y hy
    · refine hs.window y ?_
      rw [JitterBuffer.contents, ← hslots]
      exact hy
  · rw [hbase', hsame.1, hdist']
    exact hs.next
  · rw [hbase']
    exact hs.played
  · rw [hdist']
    exact hs.passed
  · rw [hsame.2.1, hsame.2.2, hdist']
    exact hs.account

/-- Seen from the least slot, the others are nearer by as much as was passed. -/
theorem window_advance {base m : UInt32} {xs : List JbSlot}
    (hwindow : ∀ x ∈ xs, ahead base x.seq < vmcJbMaxSlots)
    (hleast : ∀ x ∈ xs, ahead base m ≤ ahead base x.seq) :
    ∀ x ∈ xs, ahead m x.seq < vmcJbMaxSlots := by
  intro x hx
  have hlt := hwindow x hx
  rw [ahead_sub (hleast x hx)]
  omega

theorem JbFlow.Inv.ahead_half {s : JbFlow} (hs : s.Inv) :
    ∀ x ∈ s.jb.contents, ahead s.jb.nextSeq x.seq < 2 ^ 31 := by
  intro x hx
  have hlt := hs.window x hx
  rw [vmcJbMaxSlots] at hlt
  omega

theorem flowInv_peek {s : JbFlow} (hs : s.Inv) (nowUs : UInt64) :
    (flowStep s (.peek nowUs)).Inv := by
  have hcont : (flowStep s (.peek nowUs)).jb.contents = s.jb.contents := contents_peek s.jb nowUs
  have hplayed : (flowStep s (.peek nowUs)).jb.statsPlayed = s.jb.statsPlayed :=
    statsPlayed_peek s.jb nowUs
  have hledger := ledgerInv_step hs.ledger (.peek nowUs)
  obtain ⟨hnext, hgaps⟩ | ⟨mn, hmn, hleast, hnext, hgaps⟩ := peek_effect nowUs hs.ahead_half
  · have hnext' : (flowStep s (.peek nowUs)).jb.nextSeq = s.jb.nextSeq := hnext
    have hgaps' : (flowStep s (.peek nowUs)).jb.statsGaps = s.jb.statsGaps := hgaps
    have hdist' : (flowStep s (.peek nowUs)).dist = s.dist := by
      change (if s.base.isSome then s.dist + ahead _ (vmcJbPeek s.jb nowUs).2.nextSeq else s.dist) = _
      rw [hnext, ahead_self]
      simp
    refine ⟨hledger, ?_, hs.started, ?_, ?_, hs.length, hs.played, hs.order, ?_, ?_⟩
    · rw [hdist', hgaps']
      exact hs.fresh
    · rw [hcont, hnext']
      exact hs.window
    · rw [hnext', hdist']
      exact hs.next
    · rw [hdist']
      exact hs.passed
    · rw [hplayed, hgaps', hdist']
      exact hs.account
  · -- only a buffer with something in it moves on, so there was a first push
    have hbase : s.base ≠ none := by
      intro h
      rw [hs.empty h] at hmn
      simp at hmn
    obtain ⟨b, hb⟩ := Option.ne_none_iff_exists'.mp hbase
    have hnext' : (flowStep s (.peek nowUs)).jb.nextSeq = mn.seq := hnext
    have hgaps' : (flowStep s (.peek nowUs)).jb.statsGaps = _ := hgaps
    have hdist' : (flowStep s (.peek nowUs)).dist = s.dist + ahead s.jb.nextSeq mn.seq := by
      change (if s.base.isSome then s.dist + ahead _ (vmcJbPeek s.jb nowUs).2.nextSeq else s.dist) = _
      rw [hnext, hb]
      rfl
    have hpassed : (mn.seq - s.jb.nextSeq).toUInt64 = UInt64.ofNat (ahead s.jb.nextSeq mn.seq) := by
      rw [ahead, UInt64.ofNat_uInt32ToNat]
    refine ⟨hledger, ?_, hs.started, ?_, ?_, hs.length, hs.played, hs.order, ?_, ?_⟩
    · intro h
      exact absurd h hbase
    · rw [hcont, hnext']
      exact window_advance hs.window (hleast hs.ahead_half)
    · intro c hc
      rw [hnext', hdist', UInt32.ofNat_add, ← UInt32.add_assoc, ← hs.next c hc]
      exact eq_add_ahead s.jb.nextSeq mn.seq
    · intro n hn
      have := hs.passed n hn
      rw [hdist']
      omega
    · rw [hplayed, hgaps', hdist', hpassed, UInt64.ofNat_add, ← hs.account, UInt64.add_assoc]

theorem flowInv_consume {s : JbFlow} (hs : s.Inv) : (flowStep s .consume).Inv := by
  have hledger := ledgerInv_step hs.ledger .consume
  obtain ⟨hf, heq⟩ | ⟨i, x, hf, hx, hv, hseq, hsize, heq⟩ := consume_effect s.jb
  · have hsame : flowStep s .consume = s := by
      simp [flowStep, ledgerStep, jbStep, heq, hf]
    rw [hsame]
    exact hs
  · have hperm := contents_consume hf hx hv
    have hxm : x ∈ s.jb.contents := hperm.mem_iff.mpr (by simp)
    have hbase : s.base ≠ none := by
      intro h
      rw [hs.empty h] at hxm
      simp at hxm
    obtain ⟨b, hb⟩ := Option.ne_none_iff_exists'.mp hbase
    have hone := ahead_add_one s.jb.nextSeq
    have hnext : (flowStep s .consume).jb.nextSeq = s.jb.nextSeq + 1 := by
      simp [flowStep, ledgerStep, jbStep, heq]
    have hdist : (flowStep s .consume).dist = s.dist + 1 := by
      change (if s.base.isSome then s.dist + ahead _ (vmcJbConsume s.jb).nextSeq else s.dist) = _
      rw [heq, hb]
      simp [hone]
    have hplaces : (flowStep s .consume).places = s.places ++ [s.dist] := by simp [flowStep, hf]
    have hplayed : (flowStep s .consume).played = s.played ++ [s.jb.nextSeq] := by
      simp [flowStep, ledgerStep, jbStep, hf]
    refine ⟨hledger, fun h => absurd h hbase, hs.started, ?_, ?_, ?_, ?_, ?_, ?_, ?_⟩
    · -- the slot at `next_seq` is gone, so the others are ahead of it
      rw [hnext]
      refine @window_advance s.jb.nextSeq _ _ ?_ ?_
      · intro y hy
        exact hs.window y (hperm.mem_iff.mpr (List.mem_cons_of_mem x hy))
      · intro y hy
        rw [hone, Nat.one_le_iff_ne_zero, ← ahead_self s.jb.nextSeq]
        intro hzero
        have hleft := (hasCopy_consume hs.ledger.distinct hperm hseq y.seq).mp ⟨y, hy, rfl⟩
        exact hleft.2 (ahead_injective _ hzero)
    · intro c hc
      rw [hnext, hdist, UInt32.ofNat_add, ← UInt32.add_assoc, ← hs.next c hc]
      rfl
    · rw [hplayed, hplaces, List.length_append, List.length_append, hs.length]
      rfl
    · intro c hc
      rw [hplayed, hplaces, List.map_append, hs.played c hc, hs.next c hc]
      rfl
    · rw [hplaces, List.pairwise_append]
      refine ⟨hs.order, by simp, fun n hn m hm => ?_⟩
      rw [List.mem_singleton.mp hm]
      exact hs.passed n hn
    · rw [hplaces, hdist]
      intro n hn
      obtain hn | hn := List.mem_append.mp hn
      · have := hs.passed n hn
        omega
      · rw [List.mem_singleton.mp hn]
        omega
    · have hstats : (flowStep s .consume).jb.statsPlayed = s.jb.statsPlayed + 1 ∧
          (flowStep s .consume).jb.statsGaps = s.jb.statsGaps := by
        simp [flowStep, ledgerStep, jbStep, heq]
      rw [hstats.1, hstats.2, hdist, UInt64.ofNat_add, ← hs.account, UInt64.add_assoc,
        UInt64.add_comm 1, ← UInt64.add_assoc]
      rfl

/-- Pushes are only ever added to the ledger. -/
theorem accepted_length_le (s : JbLedger) (op : JbOp) :
    s.accepted.length ≤ (ledgerStep s op).accepted.length := by
  cases op with
  | push d =>
      simp only [ledgerStep]
      split <;> simp
  | peek | consume | flushBefore => exact le_refl _

theorem flowInv_step {s : JbFlow} (hs : s.Inv) {op : JbOp} (hop : s.InWindow op)
    (hfew : s.accepted.length < 2 ^ 64) : (flowStep s op).Inv := by
  cases op with
  | push d =>
      by_cases hbase : s.base = none
      · exact flowInv_first hs hbase d
      · exact flowInv_later hs hbase (hop (Option.isSome_iff_ne_none.mpr hbase)) hfew
  | peek nowUs => exact flowInv_peek hs nowUs
  | consume => exact flowInv_consume hs
  | flushBefore => exact absurd hop id

theorem flowInv_run {targetDelayUs : UInt64} {ops : List JbOp} (hrun : InWindowRun targetDelayUs ops)
    (hfew : (flowRun targetDelayUs ops).accepted.length < 2 ^ 64) :
    (flowRun targetDelayUs ops).Inv := by
  refine Run.exec_invariant (fun s : JbFlow => s.accepted.length < 2 ^ 64 → s.Inv) ?_
    (fun _ => flowInv_init targetDelayUs) hrun (Run.exec_total flowStep _ ops) hfew
  intro s op s' hs hop heq hfew'
  obtain rfl := Option.some.inj heq
  have hle : s.accepted.length < 2 ^ 64 := lt_of_le_of_lt (accepted_length_le _ op) hfew'
  exact flowInv_step (hs hle) hop hle

/-- No push in the window finds the slots used up. -/
theorem JbFlow.Inv.room {s : JbFlow} (hs : s.Inv) (hfew : s.accepted.length < 2 ^ 64)
    {d : JbPacket} (hd : s.InWindow (.push d)) : (vmcJbPush s.jb d).1 ≠ .overrun := by
  intro hover
  obtain ⟨hnew, hin, hrej⟩ := of_overrun hover
  have hroom : s.jb.contents.length < vmcJbMaxSlots := by
    by_cases hbase : s.base = none
    · simp [hs.empty hbase, vmcJbMaxSlots]
    · rw [pushBase_of_ne (hs.statsPushed_ne hbase hfew)] at hin
      exact room_of_window hs.ledger.distinct hs.window
        (ahead_lt_of_inside (hd (Option.isSome_iff_ne_none.mpr hbase)) hin) hnew
  rw [acceptsPush_of hnew hin hroom] at hrej
  contradiction

/-! ## the promise and where it ends -/

/-- `n` datagrams in order, each played at once. -/
structure JbFlow.Beaten (n : Nat) (s : JbFlow) : Prop where
  buffer : s.jb.Beaten n
  base : s.base = if n = 0 then none else some 0
  dist : s.dist = n

theorem flowBeaten_succ {n : Nat} {s : JbFlow} (h : s.Beaten n) :
    JbFlow.Beaten (n + 1) (flowStep (flowStep s (.push (beat (UInt32.ofNat n)))) .consume) := by
  obtain ⟨-, hcont, hnext, -⟩ := push_beat h.buffer
  have hbase : (flowStep s (.push (beat (UInt32.ofNat n)))).base = some 0 := by
    cases n with
    | zero => simp [flowStep, h.base, beat]
    | succ n => simp [flowStep, h.base]
  have hdist : (flowStep s (.push (beat (UInt32.ofNat n)))).dist = n := by
    change (if s.base.isSome then s.dist + ahead s.jb.nextSeq (vmcJbPush s.jb _).2.nextSeq
      else s.dist) = n
    rw [hnext, h.buffer.next, ahead_self, h.dist]
    simp
  have hbeaten : (flowStep (flowStep s (.push (beat (UInt32.ofNat n)))) .consume).jb.Beaten (n + 1) :=
    beaten_succ h.buffer
  refine ⟨hbeaten, hbase, ?_⟩
  change (if (flowStep s (.push (beat (UInt32.ofNat n)))).base.isSome then
    (flowStep s (.push (beat (UInt32.ofNat n)))).dist + ahead (vmcJbPush s.jb _).2.nextSeq
      (flowStep (flowStep s (.push (beat (UInt32.ofNat n)))) .consume).jb.nextSeq else _) = n + 1
  rw [hbase, hbeaten.next, hnext, hdist, ← ofNat_add_one, ahead_add_one]
  rfl

theorem flowBeaten_beats (targetDelayUs : UInt64) (n : Nat) :
    (flowRun targetDelayUs (beats n)).Beaten n ∧ InWindowRun targetDelayUs (beats n) := by
  induction n with
  | zero => exact ⟨⟨beaten_beats targetDelayUs 0, rfl, rfl⟩, trivial⟩
  | succ n ih =>
      obtain ⟨hbeaten, halong⟩ := ih
      rw [beats_succ, flowRun, List.foldl_append]
      refine ⟨flowBeaten_succ hbeaten, ?_⟩
      refine Run.along_append_of halong (Run.exec_total flowStep _ _) ⟨?_, fun t _ => ⟨trivial, ?_⟩⟩
      · intro _
        exact (cmp_eq_zero_iff.mpr hbeaten.buffer.next.symm).ge
      · exact fun _ _ => trivial

/-- With both counters gone round, the next datagram moves `next_seq` without
being counted. -/
theorem not_flowOk_push {n : Nat} {s : JbFlow} (h : s.Beaten n) (hn : n ≠ 0)
    (h32 : UInt32.ofNat n = 0) (h64 : UInt64.ofNat n = 0) :
    s.InWindow (.push (beat 5)) ∧ ¬ (flowStep s (.push (beat 5))).FlowOk := by
  have hpushed : s.jb.statsPushed = 0 := h.buffer.pushed.trans h64
  have hnext : s.jb.nextSeq = 0 := h.buffer.next.trans h32
  refine ⟨fun _ => by rw [hnext]; decide, fun hok => ?_⟩
  obtain ⟨-, i, x, -, -, hsize, heq⟩ | ⟨hrej, -⟩ := push_effect s.jb (beat 5)
  · have hdist : (flowStep s (.push (beat 5))).dist = n + 5 := by
      change (if s.base.isSome then s.dist + ahead s.jb.nextSeq (vmcJbPush s.jb _).2.nextSeq
        else s.dist) = n + 5
      rw [heq, h.base, if_neg hn, hnext, h.dist]
      change n + ahead 0 (pushBase s.jb (beat 5).seq).nextSeq = n + 5
      rw [nextSeq_pushBase (.inl hpushed)]
      rfl
    have haccount := hok.account
    rw [hdist, UInt64.ofNat_add, h64] at haccount
    have hstats : (flowStep s (.push (beat 5))).jb.statsPlayed = 0 ∧
        (flowStep s (.push (beat 5))).jb.statsGaps = 0 := by
      simp only [flowStep, ledgerStep, jbStep, heq]
      exact ⟨(statsPlayed_pushBase _ _).trans (h.buffer.played.trans h64),
        (statsGaps_pushBase _ _).trans h.buffer.gaps⟩
    rw [hstats.1, hstats.2] at haccount
    revert haccount
    decide
  · rw [acceptsPush_empty h.buffer.empty (.inl hpushed)] at hrej
    contradiction

/-- `n` datagrams in order, and one ahead. -/
def roundAndAhead (n : Nat) : List JbOp := beats n ++ [.push (beat 5)]

theorem not_flowOk_roundAndAhead {n : Nat} (hn : n ≠ 0) (h32 : UInt32.ofNat n = 0)
    (h64 : UInt64.ofNat n = 0) :
    InWindowRun 0 (roundAndAhead n) ∧ ¬ (flowRun 0 (roundAndAhead n)).FlowOk := by
  obtain ⟨hbeaten, halong⟩ := flowBeaten_beats 0 n
  obtain ⟨hin, hnot⟩ := not_flowOk_push hbeaten hn h32 h64
  constructor
  · exact Run.along_append_of halong (Run.exec_total flowStep _ _) ⟨hin, fun _ _ => trivial⟩
  · rw [flowRun, roundAndAhead, List.foldl_append]
    exact hnot

/-- The promise is broken by 2^64 datagrams in order and one ahead. -/
theorem flowKept_fails : ¬ FlowKept := by
  obtain ⟨n, hn, h32, h64⟩ : ∃ n : Nat, n ≠ 0 ∧ UInt32.ofNat n = 0 ∧ UInt64.ofNat n = 0 :=
    ⟨2 ^ 64, by decide⟩
  obtain ⟨hrun, hnot⟩ := not_flowOk_roundAndAhead hn h32 h64
  exact fun h => hnot (h 0 (roundAndAhead n) hrun)

/-- **In-window runs.**  With fewer than 2^64 pushes accepted, in every state of
a run without flushes whose pushes after the first are at or ahead of
`next_seq`. -/
theorem in_window_run (targetDelayUs : UInt64) (ops : List JbOp)
    (hrun : InWindowRun targetDelayUs ops)
    (hfew : (flowRun targetDelayUs ops).accepted.length < 2 ^ 64) :
    (flowRun targetDelayUs ops).FlowOk := by
  have hinv := flowInv_run hrun hfew
  exact
    { window := fun x hx => Nat.le_of_lt_succ (hinv.window x hx)
      room := fun d hd => hinv.room hfew hd
      unwrapped := fun b hb => ⟨hinv.next b hb, hinv.played b hb⟩
      order := hinv.order
      passed := hinv.passed
      played := by rw [hinv.ledger.played, hinv.length]
      account := hinv.account }

/-- 5, then 7; 6 is given up, 7 played and counted against a gap of one. -/
theorem in_window_run_gap :
    (flowRun 10 [.push (five 0), .push { five 1 with seq := 7 }, .peek 10, .consume, .peek 11,
      .consume]).FlowOk :=
  in_window_run 10 _ (by decide +kernel) (by decide +kernel)

end Vmc
