import Vmc.Transport.JitterRuns

/-!
# Vmc.Transport.LossAccounts

What `stats_gaps` counts.

A peek that jumps a gap adds the distance to the counter, which stands for the
numbers from `next_seq` up to the slot it jumps to.  Beside the buffer a run
keeps the *fates* of the numbers, in order: played, or counted as lost.  The
count is truthful if no number is counted that was played or counted before.

A late arrival moves `next_seq` back to it.  The next jump then passes numbers
that were passed before and counts them again (`gapsTruthful_fails`); nothing
else does (`gaps_truthful`).
-/

namespace Vmc

open Serial

/-! ## fates -/

/-- What became of a sequence number. -/
inductive Fate where
  | played (seq : UInt32)
  | lost (seq : UInt32)
deriving DecidableEq, Repr

namespace Fate

def seq : Fate → UInt32
  | played seq | lost seq => seq

def isLost : Fate → Bool
  | played _ => false
  | lost _ => true

end Fate

/-- The numbers a peek adds to `stats_gaps`: those it moves `next_seq` over when
it changes the counter. -/
def gapNumbers (jb : JitterBuffer) (nowUs : UInt64) : List UInt32 :=
  let jb' := (vmcJbPeek jb nowUs).2
  if jb'.statsGaps = jb.statsGaps then []
  else (List.range (jb'.nextSeq - jb.nextSeq).toNat).map fun k => jb.nextSeq + UInt32.ofNat k

/-- The buffer, the numbers pushed so far and the fates of those passed. -/
structure JbAccount where
  jb : JitterBuffer
  pushed : List UInt32
  fates : List Fate

def accountStep (s : JbAccount) : JbOp → JbAccount
  | .push d => { s with jb := (vmcJbPush s.jb d).2, pushed := s.pushed ++ [d.seq] }
  | .peek nowUs =>
      { s with
        jb := (vmcJbPeek s.jb nowUs).2
        fates := s.fates ++ (gapNumbers s.jb nowUs).map .lost }
  | .consume =>
      { s with
        jb := vmcJbConsume s.jb
        fates := s.fates ++
          if (findSlot s.jb s.jb.nextSeq).isSome then [.played s.jb.nextSeq] else [] }
  | .flushBefore seq => { s with jb := vmcJbFlushBefore s.jb seq }

def accountInit (targetDelayUs : UInt64) : JbAccount := ⟨vmcJbInit targetDelayUs, [], []⟩

def accountRun (targetDelayUs : UInt64) (ops : List JbOp) : JbAccount :=
  ops.foldl accountStep (accountInit targetDelayUs)

/-- Nothing is counted as lost that was played or counted before. -/
def JbAccount.Truthful (s : JbAccount) : Prop :=
  s.fates.Pairwise fun a b => b.isLost = true → a.seq ≠ b.seq

/-- The numbers of the pushes, in order. -/
def pushSeqs (ops : List JbOp) : List UInt32 := ops.filterMap fun | .push d => some d.seq | _ => none

/-- Only pushes, peeks and consumes. -/
def PlayCalls (ops : List JbOp) : Prop := ∀ seq, .flushBefore seq ∉ ops

/-- The promise, for runs that push no number twice. -/
def GapsTruthful : Prop :=
  ∀ (targetDelayUs : UInt64) (ops : List JbOp), PlayCalls ops → (pushSeqs ops).Nodup →
    (pushedSeqs ops).card < 2 ^ 31 → (accountRun targetDelayUs ops).Truthful

/-- A one-byte datagram. -/
def numbered (seq : UInt32) (recvUs : UInt64) : JbPacket := ⟨seq, 0, 1, 0, [0], recvUs⟩

/-- 5 is played, 6 and 7 are declared lost and 8 is played; then 6 arrives. -/
def lateSix : List JbOp :=
  [.push (numbered 5 0), .peek 10, .consume, .push (numbered 8 10), .peek 20, .consume,
    .push (numbered 6 20), .peek 30, .consume, .push (numbered 9 30), .peek 40]

/-- The promise is broken: 7 is counted twice, and 8 although it was played. -/
theorem gapsTruthful_fails : ¬ GapsTruthful := by
  intro h
  have hrun := h 10 lateSix (by simp [PlayCalls, lateSix]) (by decide) (by decide)
  have hfates : (accountRun 10 lateSix).fates = [.played 5, .lost 6, .lost 7, .played 8, .played 6,
      .lost 7, .lost 8] := by
    decide +kernel
  rw [JbAccount.Truthful, hfates] at hrun
  revert hrun
  decide

/-! ## what a peek passes -/

/-- The branches of a peek: it stays; it goes back to a late slot that is old
enough; or it jumps to a slot ahead and counts the distance. -/
theorem peek_branches (jb : JitterBuffer) (nowUs : UInt64) :
    ((vmcJbPeek jb nowUs).2.nextSeq = jb.nextSeq ∧ (vmcJbPeek jb nowUs).2.statsGaps = jb.statsGaps) ∨
    ∃ mn ∈ jb.contents, (scanSlots jb).1 = some mn ∧ (vmcJbPeek jb nowUs).2.nextSeq = mn.seq ∧
      ((seqCmp mn.seq jb.nextSeq < 0 ∧ oldEnough jb mn nowUs = true ∧
          (vmcJbPeek jb nowUs).2.statsGaps = jb.statsGaps) ∨
        (0 < seqCmp mn.seq jb.nextSeq ∧
          (vmcJbPeek jb nowUs).2.statsGaps = jb.statsGaps + (mn.seq - jb.nextSeq).toUInt64)) := by
  obtain ⟨-, hscan⟩ | ⟨mn, nw, hscan, hmem, -⟩ := scanned_scanSlots jb jb.nextSeq
  · exact .inl (by simp [vmcJbPeek, hscan])
  · simp only [vmcJbPeek, hscan]
    by_cases hlate : seqCmp mn.seq jb.nextSeq < 0
    · rw [if_pos hlate]
      by_cases hold : oldEnough jb mn nowUs = true
      · rw [if_pos hold]
        exact .inr ⟨mn, hmem, rfl, rfl, .inl ⟨hlate, hold, rfl⟩⟩
      · rw [if_neg hold]
        exact .inl ⟨rfl, rfl⟩
    · rw [if_neg hlate]
      by_cases hgap : seqCmp mn.seq jb.nextSeq > 0
      · rw [if_pos hgap]
        split
        · split <;> exact .inr ⟨mn, hmem, rfl, rfl, .inr ⟨hgap, rfl⟩⟩
        · exact .inl ⟨rfl, rfl⟩
      · rw [if_neg hgap]
        split <;> exact .inl ⟨rfl, rfl⟩

theorem gapNumbers_of_same {jb : JitterBuffer} {nowUs : UInt64}
    (h : (vmcJbPeek jb nowUs).2.statsGaps = jb.statsGaps) : gapNumbers jb nowUs = [] := if_pos h

/-- A jump changes the counter, and what it counts are the numbers jumped. -/
theorem gapNumbers_of_jump {jb : JitterBuffer} {nowUs : UInt64} {mn : UInt32}
    (hgap : 0 < seqCmp mn jb.nextSeq) (hnext : (vmcJbPeek jb nowUs).2.nextSeq = mn)
    (h : (vmcJbPeek jb nowUs).2.statsGaps = jb.statsGaps + (mn - jb.nextSeq).toUInt64) :
    gapNumbers jb nowUs =
      (List.range (ahead jb.nextSeq mn)).map fun k => jb.nextSeq + UInt32.ofNat k := by
  have hpos : 0 < ahead jb.nextSeq mn := by
    have hcmp := ahead_of_cmp (le_of_lt hgap)
    rw [seqCmp] at hgap
    omega
  have hne : (vmcJbPeek jb nowUs).2.statsGaps ≠ jb.statsGaps := by
    rw [h]
    intro heq
    have htoNat := congrArg UInt64.toNat heq
    have hlt := ahead_lt jb.nextSeq mn
    have hg := jb.statsGaps.toNat_lt
    rw [UInt64.toNat_add, UInt32.toNat_toUInt64] at htoNat
    unfold ahead at hpos hlt
    omega
  unfold gapNumbers
  dsimp only
  rw [if_neg hne, hnext]
  rfl

/-- `stats_gaps` is the number of fates that are losses. -/
theorem statsGaps_peek (jb : JitterBuffer) (nowUs : UInt64) :
    (vmcJbPeek jb nowUs).2.statsGaps =
      jb.statsGaps + UInt64.ofNat (gapNumbers jb nowUs).length := by
  obtain ⟨-, h⟩ | ⟨mn, -, -, hnext, ⟨-, -, h⟩ | ⟨hgap, h⟩⟩ := peek_branches jb nowUs
  · rw [gapNumbers_of_same h, h]
    simp
  · rw [gapNumbers_of_same h, h]
    simp
  · rw [gapNumbers_of_jump hgap hnext h, h, List.length_map, List.length_range, ahead,
      UInt64.ofNat_uInt32ToNat]

theorem statsGaps_run (targetDelayUs : UInt64) (ops : List JbOp) :
    (accountRun targetDelayUs ops).jb.statsGaps =
      UInt64.ofNat ((accountRun targetDelayUs ops).fates.countP (·.isLost)) := by
  have hinit : (accountInit targetDelayUs).jb.statsGaps =
      UInt64.ofNat ((accountInit targetDelayUs).fates.countP (·.isLost)) := rfl
  refine Run.exec_invariant_true
    (fun s : JbAccount => s.jb.statsGaps = UInt64.ofNat (s.fates.countP (·.isLost))) ?_ hinit
    (Run.exec_total accountStep _ ops)
  intro s op s' hs hstep
  obtain rfl := Option.some.inj hstep
  cases op with
  | push d =>
      refine Eq.trans ?_ hs
      obtain ⟨-, i, x, -, -, hsize, heq⟩ | ⟨-, -, hdrop⟩ := push_effect s.jb d
      · simp [accountStep, heq]
      · obtain h | h := hdrop <;> simp [accountStep, h]
  | peek nowUs =>
      have hall : ((gapNumbers s.jb nowUs).map Fate.lost).countP (·.isLost) =
          (gapNumbers s.jb nowUs).length := by
        rw [List.countP_map, List.countP_eq_length]
        exact fun _ _ => rfl
      simp only [accountStep, statsGaps_peek, hs, List.countP_append, hall, UInt64.ofNat_add]
  | consume =>
      have hgaps : (vmcJbConsume s.jb).statsGaps = s.jb.statsGaps := by
        obtain ⟨-, heq⟩ | ⟨i, x, -, -, -, -, hsize, heq⟩ := consume_effect s.jb <;> rw [heq]
      have hnone : (if (findSlot s.jb s.jb.nextSeq).isSome then [Fate.played s.jb.nextSeq]
          else []).countP (·.isLost) = 0 := by
        split <;> rfl
      simp only [accountStep, hgaps, hs, List.countP_append, hnone, Nat.add_zero]
  | flushBefore seq => exact hs

/-! ## what keeps the count truthful -/

/-- The numbers pushed come from one half of the number space, and a peek that
goes back to a late slot goes back over no number that was played or counted
already, unless it is buffered as well. -/
def GoesBackOverNew (base : UInt32) (s : JbAccount) : JbOp → Prop
  | .push d => ahead base d.seq < 2 ^ 31
  | .peek nowUs => ∀ mn ∈ (scanSlots s.jb).1,
      seqCmp mn.seq s.jb.nextSeq < 0 → oldEnough s.jb mn nowUs = true →
      ∀ f ∈ s.fates, seqCmp mn.seq f.seq < 0 → seqCmp f.seq s.jb.nextSeq < 0 → s.jb.HasCopy f.seq
  | .consume | .flushBefore _ => True

instance (base : UInt32) (s : JbAccount) : (op : JbOp) → Decidable (GoesBackOverNew base s op)
  | .push d => inferInstanceAs (Decidable (ahead base d.seq < 2 ^ 31))
  | .peek nowUs => inferInstanceAs (Decidable (∀ mn ∈ (scanSlots s.jb).1,
      seqCmp mn.seq s.jb.nextSeq < 0 → oldEnough s.jb mn nowUs = true →
      ∀ f ∈ s.fates, seqCmp mn.seq f.seq < 0 → seqCmp f.seq s.jb.nextSeq < 0 →
        s.jb.HasCopy f.seq))
  | .consume | .flushBefore _ => .isTrue trivial

/-- The call is not a flush and pushes no number a second time. -/
def PushesNew (s : JbAccount) : JbOp → Prop
  | .push d => d.seq ∉ s.pushed
  | .flushBefore _ => False
  | _ => True

/-- What such a run keeps, positions being counted from `base`: every number
that has met its fate and is not buffered lies behind `next_seq`. -/
structure JbAccount.Inv (base : UInt32) (s : JbAccount) : Prop where
  range : ∀ n ∈ s.pushed, ahead base n < 2 ^ 31
  once : s.pushed.Nodup
  buffered : ∀ x ∈ s.jb.contents, x.seq ∈ s.pushed
  distinct : (s.jb.contents.map (·.seq)).Nodup
  counted : s.jb.statsPushed.toNat ≤ s.pushed.length
  fresh : s.jb.statsPushed = 0 → s.jb.contents = [] ∧ s.fates = []
  next : s.jb.statsPushed ≠ 0 → ahead base s.jb.nextSeq ≤ 2 ^ 31
  fates : ∀ f ∈ s.fates, ahead base f.seq < 2 ^ 31
  played : ∀ n, .played n ∈ s.fates → n ∈ s.pushed ∧ ¬ s.jb.HasCopy n
  behind : ∀ f ∈ s.fates, ¬ s.jb.HasCopy f.seq → ahead base f.seq < ahead base s.jb.nextSeq
  truthful : s.Truthful

namespace JbAccount

variable {base : UInt32} {s : JbAccount}

theorem inv_init (base : UInt32) (targetDelayUs : UInt64) :
    (accountInit targetDelayUs).Inv base where
  range := by simp [accountInit]
  once := by simp [accountInit]
  buffered := by simp [accountInit]
  distinct := by simp [accountInit]
  counted := by simp [accountInit, vmcJbInit, JitterBuffer.zero]
  fresh := fun _ => ⟨contents_init targetDelayUs, rfl⟩
  next := fun h => absurd rfl h
  fates := by simp [accountInit]
  played := by simp [accountInit]
  behind := by simp [accountInit]
  truthful := by simp [accountInit, Truthful]

/-- Distinct numbers of half the number space are few. -/
theorem Inv.few (h : s.Inv base) : s.pushed.length ≤ 2 ^ 31 := by
  have hnodup : (s.pushed.map (ahead base)).Nodup := h.once.map (ahead_injective base)
  have hsub : s.pushed.map (ahead base) ⊆ List.range (2 ^ 31) := by
    intro n hn
    obtain ⟨m, hm, rfl⟩ := List.mem_map.mp hn
    exact List.mem_range.mpr (h.range m hm)
  have hlen := (hnodup.subperm hsub).length_le
  rwa [List.length_map, List.length_range] at hlen

/-- The number at hand is in the same half. -/
theorem Inv.ahead_contents (h : s.Inv base) {x : JbSlot} (hx : x ∈ s.jb.contents) :
    ahead base x.seq < 2 ^ 31 := h.range x.seq (h.buffered x hx)

theorem Inv.pushed_ne (h : s.Inv base) {x : JbSlot} (hx : x ∈ s.jb.contents) :
    s.jb.statsPushed ≠ 0 := by
  intro hzero
  rw [(h.fresh hzero).1] at hx
  simp at hx

/-- A push, taken or not, counts as one from then on, and adds its number at
most. -/
theorem Inv.push_contents (h : s.Inv base) (d : JbPacket) :
    (∀ x ∈ (vmcJbPush s.jb d).2.contents, x = d.slot ∨ x ∈ s.jb.contents) ∧
      (∀ x ∈ s.jb.contents, x ∈ (vmcJbPush s.jb d).2.contents) ∧
      ((vmcJbPush s.jb d).2.contents.map (·.seq)).Nodup ∧
      (vmcJbPush s.jb d).2.statsPushed ≠ 0 ∧
      (vmcJbPush s.jb d).2.statsPushed.toNat ≤ s.pushed.length + 1 := by
  have hfew := h.few
  have hcounted := h.counted
  obtain ⟨-, -, ⟨hacc, -, hcount, hperm⟩ | ⟨hacc, -, hcount, hslots⟩⟩ := push_spec s.jb d
  · have hcount' : (vmcJbPush s.jb d).2.statsPushed.toNat = s.jb.statsPushed.toNat + 1 := by
      rw [hcount, UInt64.toNat_add]
      change (_ + 1) % _ = _
      omega
    refine ⟨fun x hx => List.mem_cons.mp (hperm.mem_iff.mp hx),
      fun x hx => hperm.mem_iff.mpr (List.mem_cons_of_mem _ hx), ?_, ?_, by omega⟩
    · refine (hperm.map _).nodup_iff.mpr (List.nodup_cons.mpr ⟨?_, h.distinct⟩)
      intro hmem
      obtain ⟨y, hy, hyseq⟩ := List.mem_map.mp hmem
      exact ne_of_acceptsPush hacc y hy hyseq
    · intro hzero
      rw [hzero] at hcount'
      change 0 = _ at hcount'
      omega
  · have hcont : (vmcJbPush s.jb d).2.contents = s.jb.contents := by
      rw [JitterBuffer.contents, hslots]
      rfl
    rw [hcont, hcount]
    refine ⟨fun x hx => .inr hx, fun x hx => hx, h.distinct, ?_, by omega⟩
    -- the first push is never refused
    intro hzero
    rw [acceptsPush_empty (h.fresh hzero).1 (.inl hzero)] at hacc
    contradiction

/-- `next_seq` moves only with the first push of all. -/
theorem Inv.push_next (h : s.Inv base) {d : JbPacket} (hrange : ahead base d.seq < 2 ^ 31) :
    ahead base (vmcJbPush s.jb d).2.nextSeq ≤ 2 ^ 31 ∧
      (s.fates ≠ [] → (vmcJbPush s.jb d).2.nextSeq = s.jb.nextSeq) := by
  rw [(push_spec s.jb d).1]
  by_cases hzero : s.jb.statsPushed = 0
  · rw [nextSeq_pushBase (.inl hzero)]
    exact ⟨le_of_lt hrange, fun hne => absurd (h.fresh hzero).2 hne⟩
  · rw [pushBase_of_ne hzero]
    exact ⟨h.next hzero, fun _ => rfl⟩

theorem inv_push (h : s.Inv base) {d : JbPacket} (hnew : d.seq ∉ s.pushed)
    (hrange : ahead base d.seq < 2 ^ 31) : (accountStep s (.push d)).Inv base := by
  obtain ⟨hsub, hkeep, hdistinct, hne, hcount⟩ := h.push_contents d
  obtain ⟨hle, hnext⟩ := h.push_next hrange
  refine ⟨?_, ?_, ?_, hdistinct, ?_, fun hzero => absurd hzero hne, fun _ => hle, h.fates, ?_, ?_,
    h.truthful⟩
  · intro n hn
    obtain hn | hn := List.mem_append.mp hn
    · exact h.range n hn
    · rw [List.mem_singleton.mp hn]
      exact hrange
  · change (s.pushed ++ [d.seq]).Nodup
    rw [List.nodup_append]
    exact ⟨h.once, List.nodup_singleton _, fun a ha b hb hab =>
      hnew (List.mem_singleton.mp hb ▸ hab ▸ ha)⟩
  · intro x hx
    obtain rfl | hx := hsub x hx
    · exact List.mem_append_right _ (List.mem_singleton.mpr rfl)
    · exact List.mem_append_left _ (h.buffered x hx)
  · simpa only [accountStep, List.length_append, List.length_singleton] using hcount
  · intro n hn
    obtain ⟨hmem, hno⟩ := h.played n hn
    refine ⟨List.mem_append_left _ hmem, ?_⟩
    rintro ⟨x, hx, rfl⟩
    obtain rfl | hx := hsub x hx
    · exact hnew hmem
    · exact hno ⟨x, hx, rfl⟩
  · intro f hf hno
    have hnext' : (accountStep s (.push d)).jb.nextSeq = s.jb.nextSeq :=
      hnext (List.ne_nil_of_mem hf)
    rw [hnext']
    exact h.behind f hf fun ⟨x, hx, hxn⟩ => hno ⟨x, hkeep x hx, hxn⟩

/-- What the scan finds is the least number buffered. -/
theorem Inv.scan_least (h : s.Inv base) {mn : JbSlot} (hscan : (scanSlots s.jb).1 = some mn) :
    ∀ x ∈ s.jb.contents, ahead base mn.seq ≤ ahead base x.seq := by
  obtain ⟨-, hnone⟩ | ⟨mn', nw, hsome, -, -, hleast⟩ := scanned_scanSlots s.jb base
  · rw [hnone] at hscan
    contradiction
  · rw [hsome] at hscan
    obtain rfl := Option.some.inj hscan
    exact hleast fun x hx => h.ahead_contents hx

/-- A peek that counts numbers not passed before, each once, and leaves every
passed number behind. -/
theorem Inv.of_peek (h : s.Inv base) {nowUs : UInt64}
    (hnext : s.jb.statsPushed ≠ 0 → ahead base (vmcJbPeek s.jb nowUs).2.nextSeq ≤ 2 ^ 31)
    (hfresh : s.jb.statsPushed = 0 → gapNumbers s.jb nowUs = [])
    (hnodup : (gapNumbers s.jb nowUs).Nodup)
    (hlost : ∀ n ∈ gapNumbers s.jb nowUs, ahead base n < 2 ^ 31 ∧
      ahead base n < ahead base (vmcJbPeek s.jb nowUs).2.nextSeq ∧ ∀ f ∈ s.fates, f.seq ≠ n)
    (hbehind : ∀ f ∈ s.fates, ¬ s.jb.HasCopy f.seq →
      ahead base f.seq < ahead base (vmcJbPeek s.jb nowUs).2.nextSeq) :
    (accountStep s (.peek nowUs)).Inv base := by
  have hcopy : ∀ n, (accountStep s (.peek nowUs)).jb.HasCopy n ↔ s.jb.HasCopy n := by
    intro n
    simp [accountStep, JitterBuffer.HasCopy]
  have hcont : (accountStep s (.peek nowUs)).jb.contents = s.jb.contents := contents_peek s.jb nowUs
  have hpushed : (accountStep s (.peek nowUs)).jb.statsPushed = s.jb.statsPushed :=
    statsPushed_peek s.jb nowUs
  have hmem : ∀ f ∈ (accountStep s (.peek nowUs)).fates,
      f ∈ s.fates ∨ ∃ n ∈ gapNumbers s.jb nowUs, f = .lost n := by
    intro f hf
    obtain hf | hf := List.mem_append.mp hf
    · exact .inl hf
    · obtain ⟨n, hn, rfl⟩ := List.mem_map.mp hf
      exact .inr ⟨n, hn, rfl⟩
  refine ⟨h.range, h.once, ?_, ?_, ?_, ?_, ?_, ?_, ?_, ?_, ?_⟩
  · rw [hcont]
    exact h.buffered
  · rw [hcont]
    exact h.distinct
  · rw [hpushed]
    exact h.counted
  · intro hzero
    rw [hpushed] at hzero
    refine ⟨hcont.trans (h.fresh hzero).1, ?_⟩
    simp [accountStep, (h.fresh hzero).2, hfresh hzero]
  · rw [hpushed]
    exact hnext
  · intro f hf
    obtain hf | ⟨n, hn, rfl⟩ := hmem f hf
    · exact h.fates f hf
    · exact (hlost n hn).1
  · intro n hn
    obtain hn | ⟨m, -, heq⟩ := hmem _ hn
    · exact ⟨(h.played n hn).1, fun hc => (h.played n hn).2 ((hcopy n).mp hc)⟩
    · contradiction
  · intro f hf hno
    obtain hf | ⟨n, hn, rfl⟩ := hmem f hf
    · exact hbehind f hf fun hc => hno ((hcopy f.seq).mpr hc)
    · exact (hlost n hn).2.1
  · change (s.fates ++ (gapNumbers s.jb nowUs).map Fate.lost).Pairwise _
    rw [List.pairwise_append, List.pairwise_map]
    refine ⟨h.truthful, ?_, ?_⟩
    · refine hnodup.imp ?_
      intro a b hne _
      exact hne
    · intro f hf g hg _
      obtain ⟨n, hn, rfl⟩ := List.mem_map.mp hg
      exact (hlost n hn).2.2 f hf

/-- Going back to a late slot: what lies between was not passed yet, or is
buffered and will be played. -/
theorem inv_peek_late (h : s.Inv base) {nowUs : UInt64} {mn : JbSlot} (hmn : mn ∈ s.jb.contents)
    (hnext : (vmcJbPeek s.jb nowUs).2.nextSeq = mn.seq)
    (hgaps : (vmcJbPeek s.jb nowUs).2.statsGaps = s.jb.statsGaps)
    (hover : ∀ f ∈ s.fates, seqCmp mn.seq f.seq < 0 → seqCmp f.seq s.jb.nextSeq < 0 →
      s.jb.HasCopy f.seq) : (accountStep s (.peek nowUs)).Inv base := by
  have hne := h.pushed_ne hmn
  have hrange := h.ahead_contents hmn
  have hnil := gapNumbers_of_same hgaps
  refine h.of_peek ?_ (fun _ => hnil) (by simp [hnil]) (by simp [hnil]) ?_
  · rw [hnext]
    exact fun _ => le_of_lt hrange
  · intro f hf hno
    rw [hnext]
    by_contra hge
    have hlt : ahead base mn.seq < ahead base f.seq := by
      refine lt_of_le_of_ne (not_lt.mp hge) fun heq => hno ⟨mn, hmn, ?_⟩
      exact ahead_injective base heq
    have hbefore : seqCmp mn.seq f.seq < 0 := (cmp_neg_iff hrange (h.fates f hf)).mpr hlt
    have hpassed : seqCmp f.seq s.jb.nextSeq < 0 :=
      (cmp_neg_iff_of_le (h.fates f hf) (h.next hne)).mpr (h.behind f hf hno)
    exact hno (hover f hf hbefore hpassed)

/-- Jumping a gap: nothing in it is buffered, so by the invariant nothing in it
was passed. -/
theorem inv_peek_jump (h : s.Inv base) {nowUs : UInt64} {mn : JbSlot} (hmn : mn ∈ s.jb.contents)
    (hscan : (scanSlots s.jb).1 = some mn) (hgap : 0 < seqCmp mn.seq s.jb.nextSeq)
    (hnext : (vmcJbPeek s.jb nowUs).2.nextSeq = mn.seq)
    (hgaps : (vmcJbPeek s.jb nowUs).2.statsGaps =
      s.jb.statsGaps + (mn.seq - s.jb.nextSeq).toUInt64) :
    (accountStep s (.peek nowUs)).Inv base := by
  have hne := h.pushed_ne hmn
  have hrange := h.ahead_contents hmn
  have hnextle := h.next hne
  have hleast := h.scan_least hscan
  have hlt : ahead base s.jb.nextSeq < ahead base mn.seq := by
    have hnot : ¬ ahead base mn.seq < ahead base s.jb.nextSeq := by
      rw [← cmp_neg_iff_of_le hrange hnextle]
      exact not_lt.mpr (le_of_lt hgap)
    refine lt_of_le_of_ne (not_lt.mp hnot) fun heq => ?_
    have hzero : seqCmp mn.seq s.jb.nextSeq = 0 :=
      cmp_eq_zero_iff.mpr (ahead_injective base heq).symm
    omega
  have hdist : ahead s.jb.nextSeq mn.seq = ahead base mn.seq - ahead base s.jb.nextSeq :=
    ahead_sub (le_of_lt hlt)
  have hplace : ∀ k < ahead s.jb.nextSeq mn.seq,
      ahead base (s.jb.nextSeq + UInt32.ofNat k) = ahead base s.jb.nextSeq + k :=
    fun k hk => ahead_add_of_lt (by omega)
  have hnums := gapNumbers_of_jump hgap hnext hgaps
  refine h.of_peek ?_ (fun hzero => absurd hzero hne) ?_ ?_ ?_
  · rw [hnext]
    exact fun _ => le_of_lt hrange
  · rw [hnums]
    refine List.Nodup.map_on ?_ List.nodup_range
    intro j hj k hk heq
    have hplaces := congrArg (ahead base) heq
    rw [hplace j (List.mem_range.mp hj), hplace k (List.mem_range.mp hk)] at hplaces
    omega
  · rw [hnums, hnext]
    intro n hn
    obtain ⟨k, hk, rfl⟩ := List.mem_map.mp hn
    rw [List.mem_range] at hk
    have hk' := hplace k hk
    refine ⟨by omega, by omega, ?_⟩
    rintro f hf heq
    have hno : ¬ s.jb.HasCopy f.seq := by
      rintro ⟨x, hx, hxn⟩
      have := hleast x hx
      rw [hxn, heq] at this
      omega
    have := h.behind f hf hno
    rw [heq] at this
    omega
  · intro f hf hno
    rw [hnext]
    exact lt_trans (h.behind f hf hno) hlt

theorem inv_peek (h : s.Inv base) {nowUs : UInt64} (hok : GoesBackOverNew base s (.peek nowUs)) :
    (accountStep s (.peek nowUs)).Inv base := by
  obtain ⟨hnext, hgaps⟩ | ⟨mn, hmn, hscan, hnext, ⟨hlate, hold, hgaps⟩ | ⟨hgap, hgaps⟩⟩ :=
    peek_branches s.jb nowUs
  · have hnil := gapNumbers_of_same hgaps
    refine h.of_peek ?_ (fun _ => hnil) (by simp [hnil]) (by simp [hnil]) ?_
    · rw [hnext]
      exact h.next
    · rw [hnext]
      exact h.behind
  · exact inv_peek_late h hmn hnext hgaps (hok mn hscan hlate hold)
  · exact inv_peek_jump h hmn hscan hgap hnext hgaps

/-- A consume takes the number at `next_seq` out and moves past it. -/
theorem inv_consume (h : s.Inv base) : (accountStep s .consume).Inv base := by
  obtain ⟨hnone, heq⟩ | ⟨i, x, hf, hx, hv, hseq, hsize, heq⟩ := consume_effect s.jb
  · have hsame : accountStep s .consume = s := by simp [accountStep, hnone, heq]
    rw [hsame]
    exact h
  · have hperm := contents_consume hf hx hv
    have hxmem : x ∈ s.jb.contents := hperm.mem_iff.mpr (by simp)
    have hne := h.pushed_ne hxmem
    have hcopy := hasCopy_consume h.distinct hperm hseq
    have hdist : ((vmcJbConsume s.jb).contents.map (·.seq)).Nodup :=
      ((hperm.map (·.seq)).nodup_iff.mp h.distinct).of_cons
    have hrange : ahead base s.jb.nextSeq < 2 ^ 31 := by
      rw [← hseq]
      exact h.ahead_contents hxmem
    have hstep : accountStep s .consume =
        ⟨vmcJbConsume s.jb, s.pushed, s.fates ++ [.played s.jb.nextSeq]⟩ := by
      simp [accountStep, hf]
    have hnext : ahead base (vmcJbConsume s.jb).nextSeq = ahead base s.jb.nextSeq + 1 := by
      rw [heq]
      exact ahead_add_of_lt (k := 1) (by omega)
    have hpushed : (vmcJbConsume s.jb).statsPushed = s.jb.statsPushed := by rw [heq]
    rw [hstep]
    refine ⟨h.range, h.once, ?_, hdist, hpushed ▸ h.counted, ?_, ?_, ?_, ?_, ?_, ?_⟩
    · exact fun y hy => h.buffered y (hperm.mem_iff.mpr (List.mem_cons_of_mem x hy))
    · exact fun hzero => absurd (hpushed.symm.trans hzero) hne
    · intro _
      change ahead base (vmcJbConsume s.jb).nextSeq ≤ _
      omega
    · intro f hf
      obtain hf | hf := List.mem_append.mp hf
      · exact h.fates f hf
      · rw [List.mem_singleton.mp hf]
        exact hrange
    · intro n hn
      obtain hn | hn := List.mem_append.mp hn
      · exact ⟨(h.played n hn).1, fun hc => (h.played n hn).2 ((hcopy n).mp hc).1⟩
      · obtain rfl := Fate.played.inj (List.mem_singleton.mp hn)
        exact ⟨hseq ▸ h.buffered x hxmem, fun hc => ((hcopy _).mp hc).2 rfl⟩
    · intro f hf hno
      change _ < ahead base (vmcJbConsume s.jb).nextSeq
      rw [hnext]
      obtain hf | hf := List.mem_append.mp hf
      · by_cases hfn : f.seq = s.jb.nextSeq
        · rw [hfn]
          exact Nat.lt_succ_self _
        · have hno' : ¬ s.jb.HasCopy f.seq := fun hc => hno ((hcopy f.seq).mpr ⟨hc, hfn⟩)
          exact Nat.lt_succ_of_lt (h.behind f hf hno')
      · rw [List.mem_singleton.mp hf]
        exact Nat.lt_succ_self _
    · refine List.pairwise_append.mpr ⟨h.truthful, List.pairwise_singleton _ _, ?_⟩
      intro f _ g hg hlost
      rw [List.mem_singleton.mp hg] at hlost
      contradiction

theorem inv_step (h : s.Inv base) {op : JbOp} (hok : GoesBackOverNew base s op)
    (hnew : PushesNew s op) : (accountStep s op).Inv base := by
  cases op with
  | push d => exact inv_push h hnew hok
  | peek nowUs => exact inv_peek h hok
  | consume => exact inv_consume h
  | flushBefore seq => exact hnew.elim

end JbAccount

/-- A list of pushes without repetition pushes a new number each time. -/
theorem along_pushesNew {ops : List JbOp} {s : JbAccount} (hcalls : PlayCalls ops)
    (honce : (s.pushed ++ pushSeqs ops).Nodup) :
    Run.Along (fun s op => some (accountStep s op)) PushesNew s ops := by
  induction ops generalizing s with
  | nil => trivial
  | cons op ops ih =>
      have hrest : PlayCalls ops := fun seq hmem => hcalls seq (List.mem_cons_of_mem op hmem)
      refine ⟨?_, ?_⟩
      · cases op with
        | push d =>
            have hapart := (List.nodup_append.mp honce).2.2
            exact fun hmem => hapart d.seq hmem d.seq (List.mem_cons_self ..) rfl
        | flushBefore seq => exact hcalls seq (List.mem_cons_self ..)
        | peek nowUs => trivial
        | consume => trivial
      · rintro t ht
        obtain rfl := Option.some.inj ht
        refine ih hrest ?_
        cases op with
        | push d =>
            change (s.pushed ++ [d.seq] ++ pushSeqs ops).Nodup
            rw [List.append_assoc]
            exact honce
        | peek nowUs | consume | flushBefore seq => exact honce

/-- **Loss accounting.**  In every run that pushes no number twice, and goes back
to late arrivals over numbers not passed before only, nothing is counted as
lost that was played or counted already. -/
theorem gaps_truthful (targetDelayUs : UInt64) (ops : List JbOp) (base : UInt32)
    (hcalls : PlayCalls ops) (honce : (pushSeqs ops).Nodup)
    (hok : Run.Along (fun s op => some (accountStep s op)) (GoesBackOverNew base)
      (accountInit targetDelayUs) ops) :
    (accountRun targetDelayUs ops).Truthful := by
  have hnew : Run.Along (fun s op => some (accountStep s op)) PushesNew
      (accountInit targetDelayUs) ops := along_pushesNew hcalls honce
  refine (Run.exec_invariant (JbAccount.Inv base) ?_ (JbAccount.inv_init base targetDelayUs)
    (hok.and hnew) (Run.exec_total accountStep _ ops)).truthful
  intro s op s' hs hop heq
  obtain rfl := Option.some.inj heq
  exact JbAccount.inv_step hs hop.1 hop.2

/-- 3 arrives after 5 but before anything is played; 4 is lost. -/
def lateThree : List JbOp :=
  [.push (numbered 5 0), .push (numbered 3 1), .peek 11, .consume, .peek 11, .consume]

theorem gaps_truthful_lateThree :
    (accountRun 10 lateThree).fates = [.played 3, .lost 4, .played 5] ∧
      (accountRun 10 lateThree).Truthful :=
  ⟨by decide +kernel, gaps_truthful 10 lateThree 0 (by simp [PlayCalls, lateThree]) (by decide)
    (by decide +kernel)⟩

end Vmc
