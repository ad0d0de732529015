import Vmc.Core.EmitAccounts

/-!
# Vmc.Core.SeqOrder

Sequence numbers and the order of the lines (`core/telemetry.c`).

A producer takes a number and an index of the ring with two separate
increments, and the writer's own lines take a number and no index.  The lines
come out in the order of their numbers as long as the two orders agree: a
producer reserves only when nobody with an earlier number has still to reserve,
and the writer writes a line of its own only when no event is under way
(`seqs_rise`).  If all that took a number got a line, there are then no gaps.

Nothing in the program sees to that: two producers may reserve in the other
order than they were numbered (`seqsRise_fails`).
-/

namespace Vmc

/-- The event of a producer that may still come into the ring. -/
def EmitPc.coming : EmitPc → Option Emit
  | numbered e => some e
  | reserved r | sawEmpty r => some r.emit
  | _ => none

/-- The producer has an event that may still be written. -/
def EmitPc.busy : EmitPc → Bool
  | idle | refused _ => false
  | _ => true

theorem lt_add_one_of_le {q n : UInt64} (hq : q ≤ n) (hn : n + 1 ≠ 0) : q < n + 1 := by
  rw [UInt64.lt_iff_toNat_lt, (add_one_ne_zero_iff n).mp hn]
  exact Nat.lt_succ_of_le (UInt64.le_iff_toNat_le.mp hq)

namespace Telemetry

variable {s s' : Telemetry} {p : Nat} {pc c : EmitPc}

/-- The numbers of the lines, in the order they were written. -/
def seqs (s : Telemetry) : List UInt64 := s.sink.filterMap TlmLine.seq

/-- Events that may still be written. -/
def underWay (s : Telemetry) : List Emit := s.producers.filterMap EmitPc.coming ++ s.inSlots

/-- No event may still be written. -/
def Settled (s : Telemetry) : Prop :=
  (∀ pc ∈ s.producers, pc.busy = false) ∧ ∀ x ∈ s.slots, x.state ≠ .filled

instance (s : Telemetry) : Decidable s.Settled :=
  inferInstanceAs (Decidable
    ((∀ pc ∈ s.producers, pc.busy = false) ∧ ∀ x ∈ s.slots, x.state ≠ .filled))

/-- The counter of numbers does not turn over; a producer reserves when it has
the least number of those that have not, and gets its slot in time; and the
writer writes a line of its own when no event is under way. -/
def NumbersInOrder (s : Telemetry) : TlmOp → Prop
  | .emit _ _ fields _ => fields.length < tlmSlotCap - 96 → s.seq + 1 ≠ 0
  | .producer p => (∀ e ∈ s.producers[p]?.bind EmitPc.fresh, ∀ e' ∈ s.fresh, e.seq ≤ e'.seq) ∧
      s.ClaimsInTime (.producer p)
  | .writer due => s.writer.numbers due = true → s.seq + 1 ≠ 0 ∧ s.Settled
  | .stop => True

/-- The fields and the line of a call fit their buffers. -/
def LineFits (s : Telemetry) : TlmOp → Prop
  | .emit _ type fields ts => fields.length < tlmSlotCap - 96 ∧
      (⟨type, fields, ts, s.seq + 1⟩ : Emit).line.length < tlmSlotCap
  | _ => True

instance (s : Telemetry) : (op : TlmOp) → Decidable (s.NumbersInOrder op)
  | .emit _ _ fields _ => inferInstanceAs
      (Decidable (fields.length < tlmSlotCap - 96 → s.seq + 1 ≠ 0))
  | .producer p => inferInstanceAs (Decidable
      ((∀ e ∈ s.producers[p]?.bind EmitPc.fresh, ∀ e' ∈ s.fresh, e.seq ≤ e'.seq) ∧
        s.ClaimsInTime (.producer p)))
  | .writer due => inferInstanceAs
      (Decidable (s.writer.numbers due = true → s.seq + 1 ≠ 0 ∧ s.Settled))
  | .stop => .isTrue trivial

instance (s : Telemetry) : (op : TlmOp) → Decidable (s.LineFits op)
  | .emit _ type fields ts => inferInstanceAs (Decidable (fields.length < tlmSlotCap - 96 ∧
      (⟨type, fields, ts, s.seq + 1⟩ : Emit).line.length < tlmSlotCap))
  | .producer _ | .writer _ | .stop => .isTrue trivial

theorem NumbersInOrder.claims {op : TlmOp} (h : s.NumbersInOrder op) : s.ClaimsInTime op := by
  cases op with
  | producer p => exact h.2
  | emit | writer | stop => trivial

/-- No event has been dropped, or is about to be. -/
def Undropped (s : Telemetry) : Prop := s.drops = [] ∧ ∀ pc ∈ s.producers, pc.drops = false

instance (s : Telemetry) : Decidable s.Undropped :=
  inferInstanceAs (Decidable (s.drops = [] ∧ ∀ pc ∈ s.producers, pc.drops = false))

/-- The numbers rise along the lines, and along all that may still be written. -/
structure Rising (s : Telemetry) : Prop where
  fresh : (s.fresh.map (·.seq)).Nodup
  reservations : s.reservations.Pairwise (·.seq < ·.seq)
  before : ∀ e ∈ s.reservations, ∀ e' ∈ s.fresh, e.seq < e'.seq
  taken : ∀ e ∈ s.reservations ++ s.fresh, e.seq ≤ s.seq
  lines : s.seqs.Pairwise (· < ·)
  written : ∀ q ∈ s.seqs, q ≤ s.seq
  underWay : ∀ q ∈ s.seqs, ∀ e ∈ s.underWay, q < e.seq

/-! ## what a step does to the numbers -/

theorem rising_init (hasFile : Bool) (n : Nat) (old : List TlmSlot)
    (hsize : old.length = tlmRingSlots) : (init hasFile n old hsize).Rising := by
  have hfresh : (init hasFile n old hsize).fresh = [] :=
    fresh_of_idle fun pc hpc => List.eq_of_mem_replicate hpc
  refine ⟨?_, List.Pairwise.nil, ?_, ?_, List.Pairwise.nil, ?_, ?_⟩
  · rw [hfresh]
    exact List.nodup_nil
  · intro e he
    exact absurd he List.not_mem_nil
  · rw [hfresh]
    intro e he
    exact absurd he List.not_mem_nil
  · intro q hq
    exact absurd hq List.not_mem_nil
  · intro q hq
    exact absurd hq List.not_mem_nil

/-- Steps that take no number, make no reservation and write no line. -/
theorem Rising.of_same (h : s.Rising) (hfresh : s'.fresh.Perm s.fresh)
    (hres : s'.reservations = s.reservations) (hsink : s'.sink = s.sink) (hseq : s'.seq = s.seq)
    (hway : s'.underWay ⊆ s.underWay) : s'.Rising := by
  have hseqs : s'.seqs = s.seqs := by rw [seqs, hsink, seqs]
  refine ⟨?_, ?_, ?_, ?_, ?_, ?_, ?_⟩
  · exact (hfresh.map _).nodup_iff.mpr h.fresh
  · rw [hres]
    exact h.reservations
  · rw [hres]
    exact fun e he e' he' => h.before e he e' (hfresh.mem_iff.mp he')
  · rw [hres, hseq]
    exact fun e he => h.taken e ((hfresh.append_left _).mem_iff.mp he)
  · rw [hseqs]
    exact h.lines
  · rw [hseqs, hseq]
    exact h.written
  · rw [hseqs]
    exact fun q hq e he => h.underWay q hq e (hway he)

/-- An event gets the next number. -/
theorem Rising.of_number (h : s.Rising) {e : Emit} (heseq : e.seq = s.seq + 1)
    (hwrap : s.seq + 1 ≠ 0) (hfresh : s'.fresh.Perm (s.fresh ++ [e]))
    (hres : s'.reservations = s.reservations) (hsink : s'.sink = s.sink)
    (hseq : s'.seq = s.seq + 1) (hway : s'.underWay ⊆ e :: s.underWay) : s'.Rising := by
  have hseqs : s'.seqs = s.seqs := by rw [seqs, hsink, seqs]
  have hlt : ∀ q ≤ s.seq, q < s.seq + 1 := fun q hq => lt_add_one_of_le hq hwrap
  have hfresh' : ∀ e' ∈ s'.fresh, e' ∈ s.fresh ∨ e' = e := fun e' he' => by
    simpa using hfresh.mem_iff.mp he'
  refine ⟨?_, ?_, ?_, ?_, ?_, ?_, ?_⟩
  · refine (hfresh.map _).nodup_iff.mpr ?_
    rw [List.map_append, List.nodup_append]
    refine ⟨h.fresh, List.nodup_singleton _, ?_⟩
    intro q hq q' hq'
    obtain ⟨e', he', rfl⟩ := List.mem_map.mp hq
    obtain rfl : q' = e.seq := by simpa using hq'
    rw [heseq]
    exact UInt64.ne_of_lt (hlt _ (h.taken e' (List.mem_append_right _ he')))
  · rw [hres]
    exact h.reservations
  · intro e' he' e'' he''
    rw [hres] at he'
    obtain he'' | rfl := hfresh' e'' he''
    · exact h.before e' he' e'' he''
    · rw [heseq]
      exact hlt _ (h.taken e' (List.mem_append_left _ he'))
  · intro e' he'
    rw [hres, List.mem_append] at he'
    rw [hseq]
    obtain he' | he' := he'
    · exact UInt64.le_of_lt (hlt _ (h.taken e' (List.mem_append_left _ he')))
    · obtain he' | rfl := hfresh' e' he'
      · exact UInt64.le_of_lt (hlt _ (h.taken e' (List.mem_append_right _ he')))
      · exact UInt64.le_of_eq heseq
  · rw [hseqs]
    exact h.lines
  · rw [hseqs, hseq]
    exact fun q hq => UInt64.le_of_lt (hlt q (h.written q hq))
  · rw [hseqs]
    intro q hq e' he'
    obtain rfl | he' := List.mem_cons.mp (hway he')
    · rw [heseq]
      exact hlt q (h.written q hq)
    · exact h.underWay q hq e' he'

theorem rising_emit (h : s.Rising) (hp : s.producers[p]? = some .idle) {type fields : List UInt8}
    {ts : UInt64} (hok : s.NumbersInOrder (.emit p type fields ts)) :
    (tlmEmit s p type fields ts).Rising := by
  unfold tlmEmit
  split
  · exact h
  · next hfields =>
    have hwrap : s.seq + 1 ≠ 0 := hok (Nat.lt_of_not_le hfields)
    dsimp only
    split
    · -- a line too long: the number is lost
      refine ⟨h.fresh, h.reservations, h.before, ?_, h.lines, ?_, h.underWay⟩
      · exact fun e he => UInt64.le_of_lt (lt_add_one_of_le (h.taken e he) hwrap)
      · exact fun q hq => UInt64.le_of_lt (lt_add_one_of_le (h.written q hq) hwrap)
    · have hfresh := Pool.filterMap_set hp (.numbered ⟨type, fields, ts, s.seq + 1⟩) EmitPc.fresh
      have hcoming := Pool.filterMap_set hp (.numbered ⟨type, fields, ts, s.seq + 1⟩) EmitPc.coming
      simp only [EmitPc.fresh, EmitPc.coming, Option.toList_none, List.append_nil,
        Option.toList_some] at hfresh hcoming
      refine h.of_number (e := ⟨type, fields, ts, s.seq + 1⟩) rfl hwrap hfresh rfl rfl rfl ?_
      intro e he
      obtain he | he := List.mem_append.mp he
      · obtain he | he := List.mem_append.mp (hcoming.mem_iff.mp he)
        · exact List.mem_cons_of_mem _ (List.mem_append_left _ he)
        · rw [List.mem_singleton.mp he]
          exact List.mem_cons_self
      · exact List.mem_cons_of_mem _ (List.mem_append_right _ he)

/-- The producer with the least number reserves. -/
theorem rising_reserve (h : s.Rising) {e : Emit} (hp : s.producers[p]? = some (.numbered e))
    (hleast : ∀ e' ∈ s.fresh, e.seq ≤ e'.seq)
    (hstep : producerStep s p (.numbered e) = some s') : s'.Rising := by
  obtain ⟨hproducers, hres, hseq, hseqs, hslots⟩ :
      s'.producers = s.producers.set p (.reserved ⟨s.head, s.reservations.length, e⟩) ∧
        s'.reservations = s.reservations ++ [e] ∧ s'.seq = s.seq ∧ s'.seqs = s.seqs ∧
        s'.inSlots = s.inSlots := by
    obtain rfl := Option.some.inj hstep
    exact ⟨rfl, rfl, rfl, rfl, rfl⟩
  have hfresh : (s'.fresh ++ [e]).Perm s.fresh := by
    have hperm := Pool.filterMap_set hp (.reserved ⟨s.head, s.reservations.length, e⟩) EmitPc.fresh
    rw [← hproducers] at hperm
    simpa [EmitPc.fresh, fresh] using hperm
  have hway : s'.underWay.Perm s.underWay := by
    have hperm := Pool.filterMap_set hp (.reserved ⟨s.head, s.reservations.length, e⟩) EmitPc.coming
    rw [← hproducers] at hperm
    rw [underWay, hslots]
    exact ((List.perm_append_right_iff _).mp hperm).append_right _
  have hmem : ∀ e' ∈ s'.fresh, e' ∈ s.fresh :=
    fun e' he' => hfresh.mem_iff.mp (List.mem_append_left _ he')
  have he : e ∈ s.fresh := hfresh.mem_iff.mp (List.mem_append_right _ List.mem_cons_self)
  have hnodup : (s'.fresh.map (·.seq) ++ [e.seq]).Nodup := by
    have hperm := hfresh.map (·.seq)
    rw [List.map_append] at hperm
    exact hperm.nodup_iff.mpr h.fresh
  rw [List.nodup_append] at hnodup
  refine ⟨hnodup.1, ?_, ?_, ?_, ?_, ?_, ?_⟩
  · rw [hres, List.pairwise_append]
    refine ⟨h.reservations, List.pairwise_singleton _ _, fun e' he' e'' he'' => ?_⟩
    rw [List.mem_singleton.mp he'']
    exact h.before e' he' e he
  · intro e' he' e'' he''
    rw [hres, List.mem_append, List.mem_singleton] at he'
    obtain he' | rfl := he'
    · exact h.before e' he' e'' (hmem e'' he'')
    · refine UInt64.lt_of_le_of_ne (hleast e'' (hmem e'' he'')) fun heq => ?_
      exact hnodup.2.2 _ (List.mem_map_of_mem he'') _ List.mem_cons_self heq.symm
  · intro e' he'
    rw [hseq]
    refine h.taken e' ?_
    rw [hres, List.append_assoc, List.mem_append, List.mem_append, List.mem_singleton] at he'
    obtain he' | rfl | he' := he'
    · exact List.mem_append_left _ he'
    · exact List.mem_append_right _ he
    · exact List.mem_append_right _ (hmem e' he')
  · rw [hseqs]
    exact h.lines
  · rw [hseqs, hseq]
    exact h.written
  · rw [hseqs]
    intro q hq e' he'
    exact h.underWay q hq e' (hway.mem_iff.mp he')

/-- A producer's move that makes no reservation. -/
theorem Rising.of_move (h : s.Rising) (hp : s.producers[p]? = some pc)
    (hproducers : s'.producers = s.producers.set p c) (hfresh : c.fresh = pc.fresh)
    (hres : s'.reservations = s.reservations) (hsink : s'.sink = s.sink) (hseq : s'.seq = s.seq)
    (hway : ∀ e, c.coming = some e ∨ e ∈ s'.inSlots → e ∈ s.underWay) : s'.Rising := by
  refine h.of_same ?_ hres hsink hseq ?_
  · have hperm := Pool.filterMap_set hp c EmitPc.fresh
    rw [hfresh, ← hproducers] at hperm
    exact (List.perm_append_right_iff _).mp hperm
  · intro e he
    obtain he | he := List.mem_append.mp he
    · rw [hproducers] at he
      obtain ⟨qc, hqc, hcoming⟩ := List.mem_filterMap.mp he
      obtain hqc | rfl := List.mem_or_eq_of_mem_set hqc
      · exact List.mem_append_left _ (List.mem_filterMap.mpr ⟨qc, hqc, hcoming⟩)
      · exact hway e (.inl hcoming)
    · exact hway e (.inr he)

theorem mem_underWay {e : Emit} (hp : s.producers[p]? = some pc) (he : pc.coming = some e) :
    e ∈ s.underWay :=
  List.mem_append_left _ (List.mem_filterMap.mpr ⟨pc, List.mem_of_getElem? hp, he⟩)

theorem rising_producer (h : s.Rising) (hp : s.producers[p]? = some pc)
    (hleast : ∀ e ∈ pc.fresh, ∀ e' ∈ s.fresh, e.seq ≤ e'.seq)
    (hstep : producerStep s p pc = some s') : s'.Rising := by
  have hslots : ∀ e ∈ s.inSlots, e ∈ s.underWay := fun e he => List.mem_append_right _ he
  have hwrite : ∀ {c : EmitPc} {i : Nat} {f : TlmSlot → TlmSlot}, (∀ x, (f x).owner = x.owner) →
      c.coming = none → ∀ e, c.coming = some e ∨ e ∈ ((s.moveTo p c).updateSlot i f).inSlots →
        e ∈ s.underWay := by
    intro c i f howner hnone e he
    rw [hnone, inSlots_updateSlot _ howner] at he
    obtain he | he := he
    · contradiction
    · exact hslots e he
  cases pc with
  | idle => contradiction
  | numbered e => exact rising_reserve h hp (hleast e rfl) hstep
  | reserved r =>
      obtain ⟨x, -, rfl⟩ := Option.map_eq_some_iff.mp hstep
      refine h.of_move hp rfl (by split <;> rfl) rfl rfl rfl ?_
      rintro e (he | he)
      · refine mem_underWay hp ?_
        split at he
        · exact he
        · contradiction
      · exact hslots e he
  | sawEmpty r =>
      obtain ⟨x, hx, rfl⟩ := Option.map_eq_some_iff.mp hstep
      split
      · refine h.of_move (c := .filling r 0) hp rfl rfl rfl rfl rfl ?_
        rintro e (he | he)
        · contradiction
        · -- the event passes from the producer to the slot
          have hmem := (Pool.filterMap_modify hx
            (fun x => { x with state := TlmState.claimed, owner := some r })
            (fun x => x.owner.map (·.emit))).mem_iff.mp (List.mem_append_left _ he)
          obtain hmem | hmem := List.mem_append.mp hmem
          · exact hslots e hmem
          · rw [List.mem_singleton.mp hmem]
            exact mem_underWay hp rfl
      · refine h.of_move (c := .refused r) hp rfl rfl rfl rfl rfl ?_
        rintro e (he | he)
        · contradiction
        · exact hslots e he
  | refused r =>
      obtain rfl := Option.some.inj hstep
      refine h.of_move (c := .idle) hp rfl rfl rfl rfl rfl ?_
      rintro e (he | he)
      · contradiction
      · exact hslots e he
  | filling r k =>
      simp only [producerStep] at hstep
      split at hstep
      · obtain rfl := Option.some.inj hstep
        exact h.of_move (c := .filling r (k + 1)) hp rfl rfl rfl rfl rfl (hwrite (fun _ => rfl) rfl)
      · obtain rfl := Option.some.inj hstep
        exact h.of_move (c := .sized r) hp rfl rfl rfl rfl rfl (hwrite (fun _ => rfl) rfl)
  | sized r =>
      obtain rfl := Option.some.inj hstep
      exact h.of_move (c := .idle) hp rfl rfl rfl rfl rfl (hwrite (fun _ => rfl) rfl)

/-- A line is written. -/
theorem Rising.of_line (h : s.Rising) {q : UInt64} (hproducers : s'.producers = s.producers)
    (hres : s'.reservations = s.reservations) (hseqs : s'.seqs = s.seqs ++ [q])
    (hseq : s.seq ≤ s'.seq) (hq : q ≤ s'.seq) (hlast : ∀ q' ∈ s.seqs, q' < q)
    (hway : ∀ e ∈ s'.underWay, e ∈ s.underWay ∧ q < e.seq) : s'.Rising := by
  have hfresh : s'.fresh = s.fresh := by rw [Telemetry.fresh, hproducers, Telemetry.fresh]
  refine ⟨?_, ?_, ?_, ?_, ?_, ?_, ?_⟩
  · rw [hfresh]
    exact h.fresh
  · rw [hres]
    exact h.reservations
  · rw [hres, hfresh]
    exact h.before
  · rw [hres, hfresh]
    exact fun e he => UInt64.le_trans (h.taken e he) hseq
  · rw [hseqs, List.pairwise_append]
    refine ⟨h.lines, List.pairwise_singleton _ _, fun q' hq' q'' hq'' => ?_⟩
    rw [List.mem_singleton.mp hq'']
    exact hlast q' hq'
  · intro q' hq'
    rw [hseqs, List.mem_append, List.mem_singleton] at hq'
    obtain hq' | rfl := hq'
    · exact UInt64.le_trans (h.written q' hq') hseq
    · exact hq
  · intro q' hq' e he
    rw [hseqs, List.mem_append, List.mem_singleton] at hq'
    obtain hq' | rfl := hq'
    · exact h.underWay q' hq' e (hway e he).1
    · exact (hway e he).2

theorem Rising.lt_of_number (h : s.Rising) {i j : Nat} {e e' : Emit}
    (he : s.reservations[i]? = some e) (he' : s.reservations[j]? = some e') (hij : i < j) :
    e.seq < e'.seq := by
  obtain ⟨hi, rfl⟩ := List.getElem?_eq_some_iff.mp he
  obtain ⟨hj, rfl⟩ := List.getElem?_eq_some_iff.mp he'
  exact List.pairwise_iff_getElem.mp h.reservations i j hi hj hij

/-- What is still to come has not been reserved, or has a number in the ring. -/
theorem mem_underWay_cases {e : Emit} (he : e ∈ s.underWay) :
    e ∈ s.fresh ∨ ∃ r ∈ s.unclaimed ++ s.inRing, r.emit = e := by
  obtain he | he := List.mem_append.mp he
  · obtain ⟨pc, hpc, hcoming⟩ := List.mem_filterMap.mp he
    cases pc with
    | numbered e' => exact .inl (List.mem_filterMap.mpr ⟨_, hpc, hcoming⟩)
    | reserved r | sawEmpty r =>
        refine .inr ⟨r, ?_, Option.some.inj hcoming⟩
        exact List.mem_append_left _ (List.mem_filterMap.mpr ⟨_, hpc, rfl⟩)
    | idle | refused | filling | sized => contradiction
  · obtain ⟨x, hx, howner⟩ := List.mem_filterMap.mp he
    obtain ⟨r, hr, rfl⟩ := Option.map_eq_some_iff.mp howner
    exact .inr ⟨r, List.mem_append_right _ (List.mem_filterMap.mpr ⟨x, hx, hr⟩), rfl⟩

/-- The event handed over has a lower number than all that are still to come. -/
theorem rising_handOver (h : s.Rising) (horder : s.InOrder) (horder' : s'.InOrder)
    {x : TlmSlot} {r : Reservation} (hrec : s.writer.recycles = false)
    (hx : s.slots[tlmIndex s.tail]? = some x) (howner : x.owner = some r)
    (hproducers : s'.producers = s.producers) (hres : s'.reservations = s.reservations)
    (hslots : s'.slots = s.slots.modify (tlmIndex s.tail) ({ · with owner := none }))
    (hhanded : s'.handed = s.handed ++ [r.emit]) (hseqs : s'.seqs = s.seqs ++ [r.emit.seq])
    (hseq : s'.seq = s.seq) : s'.Rising := by
  have hmem : r ∈ s.unclaimed ++ s.inRing := List.mem_append_right _ (mem_inRing hx howner)
  have hemit := (horder.numbers r hmem).2
  have hnum := horder.number_at_tail hrec hx howner
  have hres' : r.emit ∈ s.reservations := List.mem_of_getElem? hemit
  have hway : r.emit ∈ s.underWay := by
    refine List.mem_append_right _ (List.mem_filterMap.mpr ⟨x, List.mem_of_getElem? hx, ?_⟩)
    rw [howner]
    rfl
  refine h.of_line hproducers hres hseqs (UInt64.le_of_eq hseq.symm) ?_ ?_ ?_
  · rw [hseq]
    exact h.taken _ (List.mem_append_left _ hres')
  · exact fun q hq => h.underWay q hq _ hway
  · intro e he
    refine ⟨?_, ?_⟩
    · obtain he | he := List.mem_append.mp he
      · rw [hproducers] at he
        exact List.mem_append_left _ he
      · rw [inSlots, hslots] at he
        have hperm := Pool.filterMap_modify hx (fun x => { x with owner := none })
          (fun x => x.owner.map (·.emit))
        have hold := hperm.mem_iff.mp (List.mem_append_left _ he)
        rw [Option.map_none, Option.toList_none, List.append_nil] at hold
        exact List.mem_append_right _ hold
    · obtain he | ⟨r', hr', rfl⟩ := mem_underWay_cases he
      · rw [Telemetry.fresh, hproducers] at he
        exact h.before _ hres' e he
      · have hahead := horder'.ahead r' hr'
        have hemit' := (horder'.numbers r' hr').2
        rw [hhanded, List.length_append, List.length_singleton] at hahead
        rw [hres] at hemit'
        exact h.lt_of_number hemit hemit' (by omega)

/-- Where no event may still be written, none is under way. -/
theorem Settled.underWay_nil (hset : s.Settled) (h : s.Owned) : s.underWay = [] := by
  obtain ⟨hbusy, hfilled⟩ := hset
  have hcoming : s.producers.filterMap EmitPc.coming = [] := by
    rw [List.filterMap_eq_nil_iff]
    intro pc hpc
    have hpc := hbusy pc hpc
    cases pc with
    | idle | refused => rfl
    | numbered | reserved | sawEmpty | filling | sized => contradiction
  have hslots : s.inSlots = [] := by
    rw [inSlots, List.filterMap_eq_nil_iff]
    intro x hx
    obtain ⟨i, hi⟩ := List.mem_iff_getElem?.mp hx
    have hok := h.slot i x hi
    unfold SlotOk at hok
    cases hst : x.state with
    | empty =>
        rw [hst] at hok
        rw [hok]
        rfl
    | claimed =>
        rw [hst] at hok
        obtain ⟨p, pc, r, hp, hr, -⟩ := hok
        have hpc := hbusy pc (List.mem_of_getElem? hp)
        cases pc with
        | filling | sized => contradiction
        | idle | numbered | reserved | sawEmpty | refused => contradiction
    | filled => exact absurd hst (hfilled x hx)
  rw [underWay, hcoming, hslots]
  rfl

theorem rising_writer {due : Bool} (h : s.Rising) (horder : s.InOrder) (horder' : s'.InOrder)
    (hok : s.NumbersInOrder (.writer due)) (hstep : writerStep s due s.writer = some s') :
    s'.Rising := by
  obtain ⟨hproducers, -, -, hres, -⟩ := writerStep_frame hstep
  obtain ⟨head, len, got, x, r, hw, hx, hst, howner, rfl⟩ | ⟨head, hw, rfl⟩ |
    ⟨hrec, hrec', hslots, htail, hhanded, ⟨hseq, hsink⟩ | ⟨hnum, hseq, line, hsink, hline, -⟩⟩ :=
    horder.writer_cases hstep
  · refine rising_handOver h horder horder' (by rw [hw]; rfl) hx howner rfl rfl rfl ?_ ?_ rfl
    · simp [handed, howner, TlmLine.emit]
    · simp [seqs, howner, TlmLine.seq]
  · refine h.of_same (List.Perm.refl _) rfl rfl rfl ?_
    have hsame := inSlots_updateSlot s (f := ({ · with state := .empty })) (fun _ => rfl)
      (tlmIndex s.tail)
    intro e he
    obtain he | he := List.mem_append.mp he
    · exact List.mem_append_left _ he
    · exact List.mem_append_right _ (hsame ▸ he)
  · refine h.of_same ?_ hres hsink hseq ?_
    · rw [Telemetry.fresh, hproducers, Telemetry.fresh]
    · rw [underWay, hproducers, inSlots, hslots, underWay, inSlots]
      exact List.Subset.refl _
  · obtain ⟨hwrap, hset⟩ := hok hnum
    have hnil := hset.underWay_nil horder.toOwned
    refine h.of_line (q := s.seq + 1) hproducers hres ?_ ?_ ?_ ?_ ?_
    · rw [seqs, hsink, List.filterMap_append, seqs]
      simp [hline]
    · rw [hseq]
      exact UInt64.le_of_lt (lt_add_one_of_le (UInt64.le_refl _) hwrap)
    · exact UInt64.le_of_eq hseq.symm
    · exact fun q hq => lt_add_one_of_le (h.written q hq) hwrap
    · intro e he
      rw [underWay, hproducers, inSlots, hslots, ← inSlots, ← underWay, hnil] at he
      exact absurd he List.not_mem_nil

theorem rising_step {op : TlmOp} (h : s.Rising) (horder : s.InOrder) (horder' : s'.InOrder)
    (hok : s.NumbersInOrder op) (hstep : tlmStep s op = some s') : s'.Rising := by
  cases op with
  | emit p type fields ts =>
      obtain ⟨hp, rfl⟩ := tlmStep_emit hstep
      exact rising_emit h hp hok
  | producer p =>
      obtain ⟨pc, hp, hstep⟩ := Option.bind_eq_some_iff.mp hstep
      have hleast := hok.1
      rw [hp, Option.bind_some] at hleast
      exact rising_producer h hp hleast hstep
  | writer due => exact rising_writer h horder horder' hok hstep
  | stop =>
      obtain rfl := Option.some.inj hstep
      exact h.of_same (List.Perm.refl _) rfl rfl rfl (List.Subset.refl _)

/-! ## no gaps -/

/-- All numbers taken are those of the calls and of the writer's own lines. -/
def Gapless (s : Telemetry) : Prop :=
  (s.seqs.map (·.toNat) ++ s.calls.map (·.seq.toNat)).Perm
    (List.range' 1 s.seq.toNat ++ s.handed.map (·.seq.toNat))

theorem range'_toNat_add_one {n : UInt64} (hn : n + 1 ≠ 0) :
    List.range' 1 (n + 1).toNat = List.range' 1 n.toNat ++ [(n + 1).toNat] := by
  rw [(add_one_ne_zero_iff n).mp hn, List.range'_concat, Nat.one_mul, Nat.add_comm 1]

/-- The next number goes to a call or to a line. -/
theorem Gapless.of_count (h : s.Gapless)
    (hcount : ∀ k, (s'.seqs.map (·.toNat)).count k + (s'.calls.map (·.seq.toNat)).count k +
        ((List.range' 1 s.seq.toNat).count k + (s.handed.map (·.seq.toNat)).count k) =
      (s.seqs.map (·.toNat)).count k + (s.calls.map (·.seq.toNat)).count k +
        ((List.range' 1 s'.seq.toNat).count k + (s'.handed.map (·.seq.toNat)).count k)) :
    s'.Gapless := by
  rw [Gapless, List.perm_iff_count] at h ⊢
  intro k
  have hold := h k
  have hnew := hcount k
  rw [List.count_append, List.count_append] at hold ⊢
  omega

theorem gapless_step {op : TlmOp} (h : s.Gapless) (howned : s.Owned) (hok : s.NumbersInOrder op)
    (hfits : s.LineFits op) (hstep : tlmStep s op = some s') : s'.Gapless := by
  cases op with
  | emit p type fields ts =>
      obtain ⟨hfields, hline⟩ := hfits
      obtain ⟨-, rfl⟩ := tlmStep_emit hstep
      have hwrap : s.seq + 1 ≠ 0 := hok hfields
      rw [tlmEmit, if_neg (by omega), if_neg (by omega)]
      refine h.of_count fun k => ?_
      simp only [seqs, handed, moveTo, range'_toNat_add_one hwrap, List.map_append, List.map_cons,
        List.map_nil, List.count_append]
      omega
  | producer p =>
      obtain ⟨pc, hp, hstep⟩ := Option.bind_eq_some_iff.mp hstep
      obtain ⟨-, -, hsink, hseq, hcalls, -⟩ := producerStep_frame hstep
      rw [Gapless, seqs, handed, hsink, hseq, hcalls]
      exact h
  | writer due =>
      obtain ⟨-, -, hcalls, -⟩ := writerStep_frame hstep
      obtain ⟨head, len, got, x, r, hw, hx, hst, howner, rfl⟩ | ⟨head, hw, rfl⟩ |
        ⟨hrec, hrec', hslots, htail, hhanded, ⟨hseq, hsink⟩ | ⟨hnum, hseq, line, hsink, hline, -⟩⟩ :=
        howned.writer_cases hstep
      · refine h.of_count fun k => ?_
        simp only [seqs, handed, updateSlot, howner, List.filterMap_append, List.map_append,
          List.count_append]
        simp only [List.filterMap_cons, TlmLine.seq, TlmLine.emit, Option.map_some, List.filterMap_nil,
          List.map_cons, List.map_nil]
        omega
      · exact h
      · rw [Gapless, seqs, hsink, hcalls, hseq, hhanded]
        exact h
      · have hwrap := (hok hnum).1
        refine h.of_count fun k => ?_
        rw [seqs, hsink, hcalls, hseq, hhanded, range'_toNat_add_one hwrap, List.filterMap_append,
          ← seqs, List.filterMap_cons, hline]
        simp only [List.filterMap_nil, List.map_append, List.map_cons, List.map_nil, List.count_append]
        omega
  | stop =>
      obtain rfl := Option.some.inj hstep
      exact h

/-- What may still be written is all that has been numbered, in a state without
drops. -/
theorem Undropped.perm (hdrops : s.Undropped) (haccounted : s.Accounted) (howned : s.Owned) :
    ∃ rest ⊆ s.underWay, s.calls.Perm (s.handed ++ rest) := by
  obtain ⟨hnone, hrefused⟩ := hdrops
  refine ⟨s.inSlots ++ (s.unclaimed.map (·.emit) ++ s.fresh), ?_, ?_⟩
  · intro e he
    rw [List.mem_append, List.mem_append] at he
    obtain he | he | he := he
    · exact List.mem_append_right _ he
    · obtain ⟨r, hr, rfl⟩ := List.mem_map.mp he
      obtain ⟨pc, hpc, hr⟩ := List.mem_filterMap.mp hr
      refine List.mem_append_left _ (List.mem_filterMap.mpr ⟨pc, hpc, ?_⟩)
      have hpc := hrefused pc hpc
      cases pc with
      | reserved r' | sawEmpty r' => rw [← Option.some.inj hr]; rfl
      | idle | numbered | refused | filling | sized => contradiction
    · obtain ⟨pc, hpc, he⟩ := List.mem_filterMap.mp he
      refine List.mem_append_left _ (List.mem_filterMap.mpr ⟨pc, hpc, ?_⟩)
      cases pc with
      | numbered e' => exact he
      | idle | reserved | sawEmpty | refused | filling | sized => contradiction
  · have hres := haccounted.reservations
    rw [hnone, List.append_nil] at hres
    have hres := hres.trans (howned.accepted.append_right _)
    rw [← List.append_assoc, ← List.append_assoc]
    exact haccounted.calls.trans (hres.append_right _)

end Telemetry

/-- The lower part of a range, in order. -/
theorem eq_range'_of_perm {a b : List Nat} {n : Nat} (hperm : (a ++ b).Perm (List.range' 1 n))
    (ha : a.Pairwise (· < ·)) (hab : ∀ i ∈ a, ∀ j ∈ b, i < j) : a = List.range' 1 a.length := by
  have hsort := List.mergeSort_perm b (fun i j => decide (i ≤ j))
  have hsorted : (b.mergeSort fun i j => decide (i ≤ j)).Pairwise (· ≤ ·) :=
    (List.pairwise_mergeSort (fun i j k => by simpa using Nat.le_trans)
      (fun i j => by simpa using Nat.le_total i j) b).imp fun hle => of_decide_eq_true hle
  generalize b.mergeSort (fun i j => decide (i ≤ j)) = b' at hsort hsorted
  have hall : (a ++ b').Pairwise (· ≤ ·) := by
    rw [List.pairwise_append]
    refine ⟨ha.imp Nat.le_of_lt, hsorted, fun i hi j hj => ?_⟩
    exact Nat.le_of_lt (hab i hi j (hsort.mem_iff.mp hj))
  have heq : a ++ b' = List.range' 1 n :=
    List.Perm.eq_of_pairwise' (r := (· ≤ ·)) hall List.pairwise_le_range'
      ((hsort.append_left a).trans hperm)
  have hlen := congrArg List.length heq
  rw [List.length_append, List.length_range'] at hlen
  rw [← hlen, ← List.range'_append_1] at heq
  exact (List.append_inj heq (by rw [List.length_range'])).1

/-- **The numbers order the lines**, in every run in which producers reserve in the
order of their numbers, each gets its slot while the writer is less than a lap
behind, and the writer's own lines are written when no event is under way: the
numbers rise from line to line, and have no gaps as long as every line fits and
nothing is dropped. -/
theorem seqs_rise (hasFile : Bool) (n : Nat) (old : List TlmSlot)
    (hsize : old.length = tlmRingSlots) (ops : List TlmOp) (s : Telemetry)
    (hok : Run.Along tlmStep Telemetry.NumbersInOrder (.init hasFile n old hsize) ops)
    (hrun : Run.exec tlmStep (.init hasFile n old hsize) ops = some s) :
    s.seqs.Pairwise (· < ·) ∧
      (Run.Along tlmStep Telemetry.LineFits (.init hasFile n old hsize) ops → s.Undropped →
        s.seqs.IsChain fun q q' => q'.toNat = q.toNat + 1) := by
  obtain ⟨horder, hrising⟩ : s.InOrder ∧ s.Rising := by
    refine Run.exec_invariant (fun s => s.InOrder ∧ s.Rising) (fun t op t' h hok ht => ?_)
      ⟨(Telemetry.linear_init hasFile n old hsize).toInOrder, Telemetry.rising_init hasFile n old hsize⟩
      hok hrun
    have horder := Telemetry.inOrder_step h.1 hok.claims ht
    exact ⟨horder, Telemetry.rising_step h.2 h.1 horder hok ht⟩
  refine ⟨hrising.lines, fun hfits hdrops => ?_⟩
  have haccounted := Telemetry.accounted_run hrun
  obtain ⟨-, hgapless⟩ : s.Owned ∧ s.Gapless := by
    refine Run.exec_invariant (fun s => s.Owned ∧ s.Gapless) (fun t op t' h hok ht => ?_)
      ⟨Telemetry.owned_init hasFile n old hsize, List.Perm.refl _⟩ (hok.and hfits) hrun
    exact ⟨Telemetry.owned_step h.1 ht, Telemetry.gapless_step h.2 h.1 hok.1 hok.2 ht⟩
  obtain ⟨rest, hway, hcalls⟩ := hdrops.perm haccounted horder.toOwned
  -- what has a line and what is still to come make up all the numbers
  have hperm : (s.seqs.map (·.toNat) ++ rest.map (·.seq.toNat)).Perm
      (List.range' 1 s.seq.toNat) := by
    have hall := (hcalls.map (·.seq.toNat)).append_left (s.seqs.map (·.toNat))
    rw [List.map_append] at hall
    refine List.perm_iff_count.mpr fun k => ?_
    have hnew := (hall.symm.trans hgapless).count_eq k
    simp only [List.count_append] at hnew ⊢
    omega
  have hchain := eq_range'_of_perm hperm (List.pairwise_map.mpr hrising.lines) (by
    intro i hi j hj
    obtain ⟨q, hq, rfl⟩ := List.mem_map.mp hi
    obtain ⟨e, he, rfl⟩ := List.mem_map.mp hj
    exact hrising.underWay q hq e (hway he))
  refine (List.isChain_map (R := fun i j => j = i + 1) UInt64.toNat).mp ?_
  rw [hchain]
  exact List.isChain_range' 1 _ 1

/-- Two producers that reserve in the order they were numbered. -/
def inOrderRun : List TlmOp :=
  emitSteps 0 1 ++ emitSteps 1 39 ++ List.replicate 38 (.producer 0) ++
    List.replicate 78 (.writer false)

theorem seqs_rise_two_events :
    ∃ s, Run.exec tlmStep (.start 2) inOrderRun = some s ∧ s.seqs.length = 2 ∧
      s.seqs.Pairwise (· < ·) ∧ s.seqs.IsChain fun q q' => q'.toNat = q.toNat + 1 := by
  have hrun : (Run.exec tlmStep (.start 2) inOrderRun).map
      (fun s => (s.seqs.length, decide s.Undropped)) = some (2, true) := by decide +kernel
  obtain ⟨s, hs, heq⟩ := Option.map_eq_some_iff.mp hrun
  obtain ⟨hlen, hdrops⟩ := Prod.mk.inj heq
  obtain ⟨hrise, hchain⟩ := seqs_rise true 2 (List.replicate tlmRingSlots .zero)
    List.length_replicate inOrderRun s (by decide +kernel) hs
  exact ⟨s, hs, hlen, hrise, hchain (by decide +kernel) (of_decide_eq_true hdrops)⟩

/-- What is claimed of the numbers. -/
def SeqsRise : Prop :=
  ∀ (hasFile : Bool) (n : Nat) (old : List TlmSlot) (hsize : old.length = tlmRingSlots)
    (ops : List TlmOp) (s : Telemetry), Run.exec tlmStep (.init hasFile n old hsize) ops = some s →
    s.seqs.Pairwise (· < ·) ∧
      (Run.Along tlmStep Telemetry.LineFits (.init hasFile n old hsize) ops → s.Undropped →
        s.seqs.IsChain fun q q' => q'.toNat = q.toNat + 1)

/-- Two producers, the second of which is the first to reserve. -/
def overtakenRun : List TlmOp :=
  emitSteps 0 0 ++ emitSteps 1 39 ++ List.replicate 39 (.producer 0) ++
    List.replicate 78 (.writer false)

/-- It fails when a producer is overtaken between its two increments. -/
theorem seqsRise_fails : ¬ SeqsRise := by
  intro hclaim
  have hrun : (Run.exec tlmStep (.start 2) overtakenRun).map (·.seqs) = some [2, 1] := by
    decide +kernel
  obtain ⟨s, hs, hseqs⟩ := Option.map_eq_some_iff.mp hrun
  have hrise := (hclaim true 2 (List.replicate tlmRingSlots .zero) List.length_replicate overtakenRun s
    hs).1
  rw [hseqs] at hrise
  exact absurd hrise (by decide)

end Vmc
