import Vmc.Transport.JitterRuns

/-!
# Vmc.Transport.Drain

The drain loop of the client: peek and consume until the buffer hands out
nothing more.

A peek goes back to a late arrival, jumps over a gap, or stays in sequence, and
leaves `next_seq` at the slot it hands out, which is where the consume that
follows looks.  With every slot old enough each round therefore takes out the
least slot (`peek_old`, `consume_handed`), whatever `next_seq` was, and the loop
ends with an empty buffer.
-/

namespace Vmc

open Serial

/-- The drain loop at a fixed time, cut off after `fuel` rounds: the slots handed
out and the buffer behind the last peek. -/
def jbDrain (nowUs : UInt64) : Nat → JitterBuffer → Option (List JbSlot × JitterBuffer)
  | 0, _ => none
  | fuel + 1, jb =>
      match vmcJbPeek jb nowUs with
      | (none, jb) => some ([], jb)
      | (some slot, jb) =>
          (jbDrain nowUs fuel (vmcJbConsume jb)).map fun (rest, jb) => (slot :: rest, jb)

/-! ## one round -/

/-- With everything old enough a peek hands out the least slot, by whichever
path, and leaves `next_seq` there. -/
theorem peek_old {jb : JitterBuffer} {nowUs : UInt64} {base : UInt32}
    (hspan : ∀ s ∈ jb.contents, ahead base s.seq < 2 ^ 31)
    (hold : ∀ s ∈ jb.contents, oldEnough jb s nowUs = true) (hne : jb.contents ≠ []) :
    ∃ mn ∈ jb.contents, (∀ s ∈ jb.contents, ahead base mn.seq ≤ ahead base s.seq) ∧
      (vmcJbPeek jb nowUs).1 = some mn ∧ (vmcJbPeek jb nowUs).2.nextSeq = mn.seq := by
  obtain ⟨hnil, -⟩ | ⟨mn, nw, hscan, hmn, hnw, hleast⟩ := scanned_scanSlots jb base
  · exact absurd hnil hne
  · refine ⟨mn, hmn, hleast hspan, ?_⟩
    have hmnOld := hold mn hmn
    have hnwOld := hold nw hnw
    have hmnOld' : ∀ g q, oldEnough { jb with statsGaps := g, nextSeq := q } mn nowUs = true :=
      fun _ _ => hmnOld
    simp only [vmcJbPeek, hscan, hmnOld, hnwOld, hmnOld', if_true]
    by_cases hlate : seqCmp mn.seq jb.nextSeq < 0
    · rw [if_pos hlate]
      exact ⟨rfl, rfl⟩
    · rw [if_neg hlate]
      by_cases hgap : seqCmp mn.seq jb.nextSeq > 0
      · rw [if_pos hgap]
        exact ⟨rfl, rfl⟩
      · rw [if_neg hgap]
        have hzero : seqCmp mn.seq jb.nextSeq = 0 := by omega
        exact ⟨rfl, (cmp_eq_zero_iff.mp hzero).symm⟩

/-- The consume that follows takes out the slot handed out, and counts it. -/
theorem consume_handed {jb : JitterBuffer} {slot : JbSlot}
    (hdist : (jb.contents.map (·.seq)).Nodup) (hmem : slot ∈ jb.contents)
    (hnext : jb.nextSeq = slot.seq) :
    jb.contents.Perm (slot :: (vmcJbConsume jb).contents) ∧
      (vmcJbConsume jb).targetDelayUs = jb.targetDelayUs ∧
      (vmcJbConsume jb).statsPlayed = jb.statsPlayed + 1 := by
  obtain ⟨hnone, -⟩ | ⟨i, x, hf, hx, hv, hseq, _, heq⟩ := consume_effect jb
  · exact absurd hnext.symm (findSlot_eq_none_iff.mp hnone slot hmem)
  · have hperm := contents_consume hf hx hv
    -- numbers are distinct, so the slot found is the one handed out
    obtain rfl : x = slot :=
      List.inj_on_of_nodup_map hdist (hperm.mem_iff.mpr (List.mem_cons_self ..)) hmem
        (hseq.trans hnext)
    exact ⟨hperm, by rw [heq], by rw [heq]⟩

/-! ## the loop -/

/-- What the loop delivers from a buffer: everything buffered, once, in order, and
an empty buffer behind it. -/
structure Drained (jb : JitterBuffer) (out : List JbSlot) (jb' : JitterBuffer) : Prop where
  all : out.Perm jb.contents
  ordered : out.Pairwise fun a b => seqCmp a.seq b.seq < 0
  empty : jb'.contents = []
  played : jb'.statsPlayed = jb.statsPlayed + UInt64.ofNat jb.contents.length

theorem drained_of_empty {jb : JitterBuffer} (h : jb.contents = []) : Drained jb [] jb :=
  ⟨by rw [h], .nil, h, by simp [h]⟩

/-- A round in front of the rest of the loop. -/
theorem drained_cons {jb jb' jb'' : JitterBuffer} {slot : JbSlot} {out : List JbSlot} {base : UInt32}
    (hspan : ∀ s ∈ jb.contents, ahead base s.seq < 2 ^ 31)
    (hdist : (jb.contents.map (·.seq)).Nodup)
    (hleast : ∀ s ∈ jb.contents, ahead base slot.seq ≤ ahead base s.seq)
    (hperm : jb.contents.Perm (slot :: jb'.contents))
    (hplayed : jb'.statsPlayed = jb.statsPlayed + 1) (h : Drained jb' out jb'') :
    Drained jb (slot :: out) jb'' := by
  have hmem : slot ∈ jb.contents := hperm.mem_iff.mpr (List.mem_cons_self ..)
  refine ⟨(h.all.cons slot).trans hperm.symm, List.pairwise_cons.mpr ⟨?_, h.ordered⟩, h.empty, ?_⟩
  · intro s hs
    have hrest : s ∈ jb'.contents := h.all.mem_iff.mp hs
    have hs' : s ∈ jb.contents := hperm.mem_iff.mpr (List.mem_cons_of_mem _ hrest)
    have hne : slot.seq ≠ s.seq := by
      have hnodup := (hperm.map (·.seq)).nodup_iff.mp hdist
      rw [List.map_cons, List.nodup_cons] at hnodup
      exact fun heq => hnodup.1 (heq ▸ List.mem_map_of_mem hrest)
    have hlt : ahead base slot.seq < ahead base s.seq :=
      lt_of_le_of_ne (hleast s hs') fun heq => hne (ahead_injective base heq)
    exact (cmp_neg_iff (hspan slot hmem) (hspan s hs')).mpr hlt
  · rw [h.played, hplayed, hperm.length_eq, List.length_cons, UInt64.ofNat_add, UInt64.add_assoc,
      UInt64.add_comm 1]
    rfl

theorem jbDrain_empty {jb : JitterBuffer} (nowUs : UInt64) {fuel : Nat} (h : jb.contents = [])
    (hfuel : 0 < fuel) : jbDrain nowUs fuel jb = some ([], jb) := by
  obtain ⟨fuel, rfl⟩ := Nat.exists_eq_succ_of_ne_zero hfuel.ne'
  rw [jbDrain, peek_empty nowUs h]

/-- **The drain loop**, from any buffer with distinct numbers within half the
number space: it ends after one round for each slot and one more. -/
theorem drain_of_distinct {nowUs : UInt64} {base : UInt32} {n : Nat} {jb : JitterBuffer}
    (hn : jb.contents.length = n) (hdist : (jb.contents.map (·.seq)).Nodup)
    (hspan : ∀ s ∈ jb.contents, ahead base s.seq < 2 ^ 31)
    (hold : ∀ s ∈ jb.contents, oldEnough jb s nowUs = true) :
    ∃ out jb', (∀ fuel, n < fuel → jbDrain nowUs fuel jb = some (out, jb')) ∧
      Drained jb out jb' := by
  induction n generalizing jb with
  | zero =>
      have hnil : jb.contents = [] := List.length_eq_zero_iff.mp hn
      exact ⟨[], jb, fun fuel hfuel => jbDrain_empty nowUs hnil hfuel, drained_of_empty hnil⟩
  | succ n ih =>
      have hne : jb.contents ≠ [] := by
        intro h
        simp [h] at hn
      obtain ⟨slot, hmem, hleast, hout, hnext⟩ := peek_old hspan hold hne
      obtain ⟨hperm, hdelay, hplayed⟩ := @consume_handed (vmcJbPeek jb nowUs).2 slot
        (by rw [contents_peek]; exact hdist) (by rw [contents_peek]; exact hmem) hnext
      rw [contents_peek] at hperm
      rw [targetDelayUs_peek] at hdelay
      rw [statsPlayed_peek] at hplayed
      have hsub : ∀ s ∈ (vmcJbConsume (vmcJbPeek jb nowUs).2).contents, s ∈ jb.contents :=
        fun s hs => hperm.mem_iff.mpr (List.mem_cons_of_mem _ hs)
      have hdist' := (hperm.map (·.seq)).nodup_iff.mp hdist
      rw [List.map_cons, List.nodup_cons] at hdist'
      have hlen : (vmcJbConsume (vmcJbPeek jb nowUs).2).contents.length = n := by
        have := hperm.length_eq
        rw [List.length_cons] at this
        omega
      obtain ⟨out, jb', hdrain, hdrained⟩ := ih hlen hdist'.2 (fun s hs => hspan s (hsub s hs))
        fun s hs => by
          rw [oldEnough, hdelay]
          exact hold s (hsub s hs)
      refine ⟨slot :: out, jb', ?_, drained_cons hspan hdist hleast hperm hplayed hdrained⟩
      intro fuel hfuel
      obtain ⟨fuel, rfl⟩ := Nat.exists_eq_succ_of_ne_zero (by omega : fuel ≠ 0)
      have hpeek : vmcJbPeek jb nowUs = (some slot, (vmcJbPeek jb nowUs).2) := Prod.ext hout rfl
      rw [jbDrain, hpeek]
      simp only [hdrain fuel (by omega), Option.map_some]

/-- **Draining plays everything in order.**  In every state that pushes, peeks,
consumes and flushes can reach, with the buffered numbers within half the number
space and every slot held long enough, the drain loop ends, having handed out
each slot once in the order of the numbers. -/
theorem drain_plays_in_order (targetDelayUs : UInt64) (ops : List JbOp) (base : UInt32)
    (nowUs : UInt64) (jb : JitterBuffer) (hjb : jb = ops.foldl jbCall (vmcJbInit targetDelayUs))
    (hspan : ∀ s ∈ jb.contents, ahead base s.seq < 2 ^ 31)
    (hold : ∀ s ∈ jb.contents, nowUs - s.recvUs ≥ jb.targetDelayUs) :
    ∃ out jb', (∀ fuel, jb.contents.length < fuel → jbDrain nowUs fuel jb = some (out, jb')) ∧
      out.Perm jb.contents ∧ (out.Pairwise fun a b => seqCmp a.seq b.seq < 0) ∧
      jb'.contents = [] ∧
      jb'.statsPlayed = jb.statsPlayed + UInt64.ofNat jb.contents.length := by
  have hdist : (jb.contents.map (·.seq)).Nodup := by
    have h := (ledgerInv_run targetDelayUs ops).distinct
    rwa [jb_ledgerRun, ← hjb] at h
  have hold' : ∀ s ∈ jb.contents, oldEnough jb s nowUs = true :=
    fun s hs => decide_eq_true (hold s hs)
  obtain ⟨out, jb', hdrain, h⟩ := drain_of_distinct rfl hdist hspan hold'
  exact ⟨out, jb', hdrain, h.all, h.ordered, h.empty, h.played⟩

/-- Datagram 5 is played; then 9 arrives over a gap, and 4 late. -/
def gapAndLate : List JbOp :=
  [.push (five 0), .peek 10, .consume, .push { five 11 with seq := 9 },
    .push { five 12 with seq := 4 }]

theorem drain_plays_in_order_gapAndLate :
    ∃ out jb', (∀ fuel, 2 < fuel →
        jbDrain 100 fuel (gapAndLate.foldl jbCall (vmcJbInit 10)) = some (out, jb')) ∧
      out.Perm (gapAndLate.foldl jbCall (vmcJbInit 10)).contents ∧
      (out.Pairwise fun a b => seqCmp a.seq b.seq < 0) ∧ jb'.contents = [] ∧
      jb'.statsPlayed = 3 := by
  have hlen : (gapAndLate.foldl jbCall (vmcJbInit 10)).contents.length = 2 := by decide +kernel
  have hplayed : (gapAndLate.foldl jbCall (vmcJbInit 10)).statsPlayed = 1 := by decide +kernel
  have h := drain_plays_in_order 10 gapAndLate 4 100 _ rfl (by decide +kernel) (by decide +kernel)
  rwa [hlen, hplayed] at h

end Vmc
