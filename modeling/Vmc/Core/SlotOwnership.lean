import Vmc.Core.Telemetry

/-!
# Vmc.Core.SlotOwnership

Who may touch a slot of the telemetry ring (`core/telemetry.c`).

All the threads have to go by is the state of the slot.  Two producers may have
reserved the same slot, a lap apart, and the writer recycles it underneath them;
but only one of them finds it EMPTY, the writer reads only what is FILLED, and
nobody takes over a slot that is CLAIMED.  `Telemetry.Owned` says what each
thread can count on at each point, and what each slot holds in each state.

It follows that every line the writer hands to the sinks is the whole line of
one event that got a slot, and that none is handed over twice
(`ring_lines_exact`).
-/

namespace Vmc

/-! ## what the threads hold -/

/-- The reservation whose slot the producer is writing. -/
def EmitPc.fills : EmitPc → Option Reservation
  | filling r _ | sized r => some r
  | _ => none

/-- The writer is at a slot it found FILLED. -/
def WriterPc.reads : WriterPc → Bool
  | found _ | reading _ _ _ | written _ => true
  | _ => false

/-- The writer has handed a line over and not given its slot back. -/
def WriterPc.recycles : WriterPc → Bool
  | written _ => true
  | _ => false

/-- The event of a line from the ring. -/
def TlmLine.emit : TlmLine → Option Emit
  | ring source _ => source.map (·.emit)
  | _ => none

/-- The sequence number of a line. -/
def TlmLine.seq : TlmLine → Option UInt64
  | ring source _ => source.map (·.emit.seq)
  | sync seq | overflow seq _ => some seq

/-- The writer is about to write a line of its own. -/
def WriterPc.numbers (due : Bool) : WriterPc → Bool
  | clock => due
  | report _ | finalReport _ => true
  | _ => false

/-- The slot holds the line of `e`. -/
def TlmSlot.Holds (x : TlmSlot) (e : Emit) : Prop :=
  x.len.toNat = e.line.length ∧ x.buf.take e.line.length = e.line

/-- What a producer can count on. -/
def EmitPc.Fits (slots : List TlmSlot) : EmitPc → Prop
  | idle => True
  | numbered e => e.line.length < tlmSlotCap
  | reserved r | sawEmpty r | refused r => r.emit.line.length < tlmSlotCap
  | filling r k => r.emit.line.length < tlmSlotCap ∧ ∃ x, slots[tlmIndex r.h]? = some x ∧
      x.state = .claimed ∧ x.owner = some r ∧ k ≤ r.emit.line.length ∧
      x.buf.take k = r.emit.line.take k
  | sized r => ∃ x, slots[tlmIndex r.h]? = some x ∧ x.state = .claimed ∧ x.owner = some r ∧
      x.Holds r.emit

/-- What the writer can count on. -/
def WriterPc.Fits (slots : List TlmSlot) (tail : UInt32) : WriterPc → Prop
  | found _ => ∃ x r, slots[tlmIndex tail]? = some x ∧ x.state = .filled ∧ x.owner = some r ∧
      x.Holds r.emit
  | reading _ len got => ∃ x r, slots[tlmIndex tail]? = some x ∧ x.state = .filled ∧
      x.owner = some r ∧ x.Holds r.emit ∧ len = r.emit.line.length ∧
      got = r.emit.line.take got.length
  | written _ => ∃ x, slots[tlmIndex tail]? = some x ∧ x.state = .filled ∧ x.owner = none
  | _ => True

namespace Telemetry

variable {s s' : Telemetry} {p : Nat} {pc c : EmitPc}

/-- The events handed over so far. -/
def handed (s : Telemetry) : List Emit := s.sink.filterMap TlmLine.emit

/-- The events whose lines are in a slot, or being copied there. -/
def inSlots (s : Telemetry) : List Emit := s.slots.filterMap fun x => x.owner.map (·.emit)

/-- What a slot holds, by its state. -/
def SlotOk (s : Telemetry) (i : Nat) (x : TlmSlot) : Prop :=
  match x.state with
  | .empty => x.owner = none
  | .claimed => ∃ (p : Nat) (pc : EmitPc) (r : Reservation), s.producers[p]? = some pc ∧
      pc.fills = some r ∧ tlmIndex r.h = i
  | .filled => (∃ r, x.owner = some r ∧ tlmIndex r.h = i ∧ x.Holds r.emit) ∨
      (s.writer.recycles = true ∧ i = tlmIndex s.tail ∧ x.owner = none)

/-- The order among the threads. -/
structure Owned (s : Telemetry) : Prop where
  producers : ∀ (p : Nat) (pc : EmitPc), s.producers[p]? = some pc → pc.Fits s.slots
  unique : ∀ (p q : Nat) (pc pc' : EmitPc) (r r' : Reservation), s.producers[p]? = some pc →
    s.producers[q]? = some pc' → pc.fills = some r → pc'.fills = some r' →
    tlmIndex r.h = tlmIndex r'.h → p = q
  slot : ∀ (i : Nat) (x : TlmSlot), s.slots[i]? = some x → s.SlotOk i x
  writer : s.writer.Fits s.slots s.tail
  accepted : s.accepted.Perm (s.handed ++ s.inSlots)
  lines : ∀ source bytes, .ring source bytes ∈ s.sink → ∃ r, source = some r ∧ bytes = r.emit.line

end Telemetry

/-! ## lookups -/

theorem tlmIndex_lt (h : UInt32) : tlmIndex h < tlmRingSlots := Nat.mod_lt _ (by decide)

/-- Every cursor points at a slot. -/
theorem exists_slot (s : Telemetry) (h : UInt32) : ∃ x, s.slots[tlmIndex h]? = some x := by
  have hlt : tlmIndex h < s.slots.length := s.slotsSize ▸ tlmIndex_lt h
  exact ⟨_, List.getElem?_eq_getElem hlt⟩

/-- A producer writing a slot has it CLAIMED. -/
theorem EmitPc.Fits.claimed {slots : List TlmSlot} {pc : EmitPc} {r : Reservation}
    (h : pc.Fits slots) (hr : pc.fills = some r) :
    ∃ x, slots[tlmIndex r.h]? = some x ∧ x.state = .claimed ∧ x.owner = some r := by
  cases pc with
  | filling r' k =>
      obtain rfl : r' = r := by simpa [fills] using hr
      obtain ⟨-, x, hx, hst, howner, -⟩ := h
      exact ⟨x, hx, hst, howner⟩
  | sized r' =>
      obtain rfl : r' = r := by simpa [fills] using hr
      obtain ⟨x, hx, hst, howner, -⟩ := h
      exact ⟨x, hx, hst, howner⟩
  | idle | numbered | reserved | sawEmpty | refused => simp [fills] at hr

/-- What a producer counts on depends on the slot it writes only. -/
theorem EmitPc.Fits.congr {slots slots' : List TlmSlot} {pc : EmitPc} (h : pc.Fits slots)
    (hslot : ∀ r, pc.fills = some r → slots'[tlmIndex r.h]? = slots[tlmIndex r.h]?) :
    pc.Fits slots' := by
  cases pc with
  | filling r k =>
      have heq := hslot r rfl
      simp only [Fits, heq]
      exact h
  | sized r =>
      have heq := hslot r rfl
      simp only [Fits, heq]
      exact h
  | idle | numbered | reserved | sawEmpty | refused => exact h

/-- The writer's slot is FILLED. -/
theorem WriterPc.Fits.filled {slots : List TlmSlot} {tail : UInt32} {pc : WriterPc}
    (h : pc.Fits slots tail) (hr : pc.reads = true) :
    ∃ x, slots[tlmIndex tail]? = some x ∧ x.state = .filled := by
  cases pc with
  | found | reading =>
      obtain ⟨x, r, hx, hst, -⟩ := h
      exact ⟨x, hx, hst⟩
  | written =>
      obtain ⟨x, hx, hst, -⟩ := h
      exact ⟨x, hx, hst⟩
  | _ => simp [reads] at hr

theorem WriterPc.Fits.congr {slots slots' : List TlmSlot} {tail : UInt32} {pc : WriterPc}
    (h : pc.Fits slots tail)
    (hslot : pc.reads = true → slots'[tlmIndex tail]? = slots[tlmIndex tail]?) :
    pc.Fits slots' tail := by
  cases pc with
  | found | reading | written =>
      have heq := hslot rfl
      simp only [Fits, heq]
      exact h
  | _ => trivial

theorem getElem?_moveTo {s : Telemetry} {p : Nat} {pc : EmitPc} (hp : s.producers[p]? = some pc)
    (c : EmitPc) (q : Nat) :
    (s.moveTo p c).producers[q]? = if p = q then some c else s.producers[q]? := by
  have hlt := (List.getElem?_eq_some_iff.mp hp).1
  rw [Telemetry.moveTo, List.getElem?_set, if_pos hlt]

theorem getElem?_updateSlot (s : Telemetry) (i : Nat) (f : TlmSlot → TlmSlot) (j : Nat) :
    (s.updateSlot i f).slots[j]? = if i = j then s.slots[j]?.map f else s.slots[j]? := by
  rw [Telemetry.updateSlot, List.getElem?_modify]
  split
  · rfl
  · simp

namespace Telemetry

variable {s s' : Telemetry} {p : Nat} {pc c : EmitPc}

/-! ## producers -/

/-- A slot that is not CLAIMED is written by nobody. -/
theorem Owned.not_filling (h : s.Owned) {i : Nat} {x : TlmSlot} (hx : s.slots[i]? = some x)
    (hst : x.state ≠ .claimed) {q : Nat} {r : Reservation} (hq : s.producers[q]? = some pc)
    (hr : pc.fills = some r) : i ≠ tlmIndex r.h := by
  rintro rfl
  obtain ⟨y, hy, hyst, -⟩ := (h.producers q pc hq).claimed hr
  obtain rfl : x = y := Option.some.inj (hx.symm.trans hy)
  exact hst hyst

/-- An event is in the slot it has reserved. -/
theorem Owned.place (h : s.Owned) {i : Nat} {x : TlmSlot} {r : Reservation}
    (hx : s.slots[i]? = some x) (howner : x.owner = some r) : i = tlmIndex r.h := by
  have hok := h.slot i x hx
  unfold SlotOk at hok
  cases hst : x.state with
  | empty =>
      rw [hst] at hok
      rw [hok] at howner
      contradiction
  | claimed =>
      rw [hst] at hok
      obtain ⟨p, pc, r', hp, hr', rfl⟩ := hok
      obtain ⟨y, hy, -, hyowner⟩ := (h.producers p pc hp).claimed hr'
      obtain rfl : x = y := Option.some.inj (hx.symm.trans hy)
      rw [Option.some.inj (howner.symm.trans hyowner)]
  | filled =>
      rw [hst] at hok
      obtain ⟨r', howner', hidx, -⟩ | ⟨-, -, hnone⟩ := hok
      · rw [Option.some.inj (howner.symm.trans howner')]
        exact hidx.symm
      · rw [hnone] at howner
        contradiction

/-- A slot that is not FILLED is not read. -/
theorem Owned.not_reading (h : s.Owned) {i : Nat} {x : TlmSlot} (hx : s.slots[i]? = some x)
    (hst : x.state ≠ .filled) (hr : s.writer.reads = true) : i ≠ tlmIndex s.tail := by
  rintro rfl
  obtain ⟨y, hy, hyst⟩ := h.writer.filled hr
  obtain rfl : x = y := Option.some.inj (hx.symm.trans hy)
  exact hst hyst

theorem owned_init (hasFile : Bool) (n : Nat) (old : List TlmSlot)
    (hsize : old.length = tlmRingSlots) : (init hasFile n old hsize).Owned := by
  have hidle : ∀ (p : Nat) (pc : EmitPc), (init hasFile n old hsize).producers[p]? = some pc →
      pc = .idle := by
    intro p pc hp
    exact List.eq_of_mem_replicate (List.mem_of_getElem? hp)
  have hreset : ∀ (i : Nat) (x : TlmSlot), (init hasFile n old hsize).slots[i]? = some x →
      x.state = .empty ∧ x.owner = none := by
    intro i x hx
    obtain ⟨y, -, rfl⟩ := List.mem_map.mp (List.mem_of_getElem? hx)
    exact ⟨rfl, rfl⟩
  refine ⟨?_, ?_, ?_, trivial, ?_, ?_⟩
  · intro p pc hp
    rw [hidle p pc hp]
    trivial
  · intro p q pc c r r' hp _ hr
    rw [hidle p pc hp] at hr
    contradiction
  · intro i x hx
    obtain ⟨hst, howner⟩ := hreset i x hx
    rw [SlotOk, hst]
    exact howner
  · have hnone : (init hasFile n old hsize).inSlots = [] := by
      rw [inSlots, List.filterMap_eq_nil_iff]
      intro x hx
      obtain ⟨i, hi⟩ := List.mem_iff_getElem?.mp hx
      rw [(hreset i x hi).2]
      rfl
    rw [hnone]
    exact List.Perm.refl _
  · intro source bytes hmem
    simp [init] at hmem

/-- A producer moves on without touching a slot. -/
theorem Owned.of_move (h : s.Owned) (hp : s.producers[p]? = some pc) (hpc : pc.fills = none)
    (hpc' : c.fills = none) (hfits : c.Fits s.slots) (hslots : s'.slots = s.slots)
    (hproducers : s'.producers = s.producers.set p c) (hwriter : s'.writer = s.writer)
    (htail : s'.tail = s.tail) (haccepted : s'.accepted = s.accepted) (hsink : s'.sink = s.sink) :
    s'.Owned := by
  have hget : ∀ q, s'.producers[q]? = if p = q then some c else s.producers[q]? := by
    intro q
    rw [hproducers]
    exact getElem?_moveTo hp c q
  -- a producer that writes a slot is another one, and was there before
  have hother : ∀ (q : Nat) (qc : EmitPc) (r : Reservation), qc.fills = some r →
      (s'.producers[q]? = some qc ↔ s.producers[q]? = some qc) := by
    intro q qc r hr
    rw [hget]
    split
    · next heq =>
      rw [← heq, hp]
      constructor
      · rintro hqc
        rw [← Option.some.inj hqc, hpc'] at hr
        contradiction
      · rintro hqc
        rw [← Option.some.inj hqc, hpc] at hr
        contradiction
    · rfl
  refine ⟨?_, ?_, ?_, ?_, ?_, ?_⟩
  · intro q qc hq
    rw [hget] at hq
    rw [hslots]
    split at hq
    · rw [← Option.some.inj hq]
      exact hfits
    · exact h.producers q qc hq
  · intro q q' qc qc' r r' hq hq' hr hr' hidx
    exact h.unique q q' qc qc' r r' ((hother q qc r hr).mp hq) ((hother q' qc' r' hr').mp hq') hr hr'
      hidx
  · intro i x hx
    rw [hslots] at hx
    have hok := h.slot i x hx
    unfold SlotOk at hok ⊢
    rw [hwriter, htail]
    cases hst : x.state with
    | empty | filled =>
        rw [hst] at hok
        exact hok
    | claimed =>
        rw [hst] at hok
        obtain ⟨q, qc, r, hq, hr, hidx⟩ := hok
        exact ⟨q, qc, r, (hother q qc r hr).mpr hq, hr, hidx⟩
  · rw [hwriter, hslots, htail]
    exact h.writer
  · rw [haccepted, handed, inSlots, hsink, hslots]
    exact h.accepted
  · rw [hsink]
    exact h.lines

/-- A producer changes a slot that no other one writes and that is not FILLED. -/
theorem Owned.of_slot (h : s.Owned) (hp : s.producers[p]? = some pc) {i : Nat} {x : TlmSlot}
    {f : TlmSlot → TlmSlot} (hx : s.slots[i]? = some x) (hst : x.state ≠ .filled)
    (halone : ∀ (q : Nat) (qc : EmitPc) (r : Reservation), s.producers[q]? = some qc →
      qc.fills = some r → tlmIndex r.h = i → q = p)
    (hpc : ∀ r, pc.fills = some r → tlmIndex r.h = i)
    (hpc' : ∀ r, c.fills = some r → tlmIndex r.h = i) (hfits : c.Fits s'.slots)
    (hslots : s'.slots = s.slots.modify i f) (hproducers : s'.producers = s.producers.set p c)
    (hwriter : s'.writer = s.writer) (htail : s'.tail = s.tail) (hsink : s'.sink = s.sink)
    (haccepted : s'.accepted.Perm (s'.handed ++ s'.inSlots)) (hok : s'.SlotOk i (f x)) :
    s'.Owned := by
  have hget : ∀ q, s'.producers[q]? = if p = q then some c else s.producers[q]? := by
    intro q
    rw [hproducers]
    exact getElem?_moveTo hp c q
  have hslot : ∀ j, s'.slots[j]? = if i = j then s.slots[j]?.map f else s.slots[j]? := by
    intro j
    rw [hslots]
    exact getElem?_updateSlot s i f j
  refine ⟨?_, ?_, ?_, ?_, haccepted, by rw [hsink]; exact h.lines⟩
  · intro q qc hq
    rw [hget] at hq
    split at hq
    · rw [← Option.some.inj hq]
      exact hfits
    · next hne =>
      refine (h.producers q qc hq).congr fun r hr => ?_
      rw [hslot, if_neg]
      rintro hidx
      exact hne (halone q qc r hq hr hidx.symm).symm
  · intro q q' qc qc' r r' hq hq' hr hr' hidx
    rw [hget] at hq hq'
    by_cases hpq : p = q
    · by_cases hpq' : p = q'
      · exact hpq.symm.trans hpq'
      · rw [if_pos hpq] at hq
        rw [if_neg hpq'] at hq'
        rw [← Option.some.inj hq] at hr
        exact absurd (halone q' qc' r' hq' hr' (hidx ▸ hpc' r hr)).symm hpq'
    · rw [if_neg hpq] at hq
      by_cases hpq' : p = q'
      · rw [if_pos hpq'] at hq'
        rw [← Option.some.inj hq'] at hr'
        exact absurd (halone q qc r hq hr (hidx ▸ hpc' r' hr')).symm hpq
      · rw [if_neg hpq'] at hq'
        exact h.unique q q' qc qc' r r' hq hq' hr hr' hidx
  · intro j y hy
    rw [hslot] at hy
    split at hy
    · next hij =>
      subst hij
      rw [hx, Option.map_some] at hy
      rw [← Option.some.inj hy]
      exact hok
    · next hij =>
      have hold := h.slot j y hy
      unfold SlotOk at hold ⊢
      rw [hwriter, htail]
      cases hyst : y.state with
      | empty | filled =>
          rw [hyst] at hold
          exact hold
      | claimed =>
          rw [hyst] at hold
          obtain ⟨q, qc, r, hq, hr, hidx⟩ := hold
          refine ⟨q, qc, r, ?_, hr, hidx⟩
          rw [hget, if_neg, hq]
          rintro rfl
          rw [hp] at hq
          obtain rfl := Option.some.inj hq
          exact hij ((hpc r hr).symm.trans hidx)
  · rw [hwriter, htail]
    refine h.writer.congr fun hr => ?_
    rw [hslot, if_neg (h.not_reading hx hst hr)]

/-- What the slots hold does not change with the bytes and the states. -/
theorem inSlots_updateSlot (s : Telemetry) {f : TlmSlot → TlmSlot}
    (hf : ∀ x, (f x).owner = x.owner) (i : Nat) : (s.updateSlot i f).inSlots = s.inSlots := by
  refine Pool.filterMap_modify_same (fun x => ?_) i
  rw [hf]

/-- A producer that writes its slot is the only one. -/
theorem Owned.alone (h : s.Owned) (hp : s.producers[p]? = some pc) {r : Reservation}
    (hr : pc.fills = some r) (q : Nat) (qc : EmitPc) (r' : Reservation)
    (hq : s.producers[q]? = some qc) (hr' : qc.fills = some r') (hidx : tlmIndex r'.h = tlmIndex r.h) :
    q = p := h.unique q p qc pc r' r hq hp hr' hr hidx

theorem owned_claim (h : s.Owned) {r : Reservation} (hp : s.producers[p]? = some (.sawEmpty r))
    (hstep : producerStep s p (.sawEmpty r) = some s') : s'.Owned := by
  obtain ⟨x, hx, rfl⟩ := Option.map_eq_some_iff.mp hstep
  have hfits : r.emit.line.length < tlmSlotCap := h.producers p _ hp
  split
  · next hst =>
    have hcell : ((s.moveTo p (.filling r 0)).updateSlot (tlmIndex r.h)
        fun x => { x with state := .claimed, owner := some r }).slots[tlmIndex r.h]? =
        some { x with state := .claimed, owner := some r } := by
      rw [getElem?_updateSlot, if_pos rfl]
      exact congrArg _ hx
    have hnone : x.owner = none := by
      have hok := h.slot _ x hx
      rw [SlotOk, hst] at hok
      exact hok
    refine h.of_slot (c := .filling r 0) hp hx (by rw [hst]; decide) ?_ (by simp [EmitPc.fills])
      (by simp [EmitPc.fills]) ?_ rfl rfl rfl rfl rfl ?_ ?_
    · intro q qc r' hq hr' hidx
      exact absurd hidx.symm (h.not_filling hx (by rw [hst]; decide) hq hr')
    · exact ⟨hfits, _, hcell, rfl, rfl, Nat.zero_le _, rfl⟩
    · have hperm := Pool.filterMap_modify hx
        (fun x => { x with state := TlmState.claimed, owner := some r })
        (fun x => x.owner.map (·.emit))
      rw [hnone] at hperm
      simp only [Option.map_none, Option.toList_none, List.append_nil, Option.map_some,
        Option.toList_some] at hperm
      refine (h.accepted.append_right [r.emit]).trans ?_
      rw [List.append_assoc]
      exact List.Perm.append_left _ hperm.symm
    · refine ⟨p, .filling r 0, r, ?_, rfl, rfl⟩
      exact (getElem?_moveTo hp (.filling r 0) p).trans (if_pos rfl)
  · exact h.of_move (c := .refused r) hp rfl rfl hfits rfl rfl rfl rfl rfl rfl

/-- The producer that has CLAIMED the slot changes what is in it. -/
theorem Owned.of_fill (h : s.Owned) (hp : s.producers[p]? = some pc) {r : Reservation}
    (hr : pc.fills = some r) {x : TlmSlot} (hx : s.slots[tlmIndex r.h]? = some x)
    {f : TlmSlot → TlmSlot} (howner : ∀ x, (f x).owner = x.owner)
    (hpc' : ∀ r', c.fills = some r' → r' = r)
    (hfits : c.Fits ((s.moveTo p c).updateSlot (tlmIndex r.h) f).slots)
    (hok : ((s.moveTo p c).updateSlot (tlmIndex r.h) f).SlotOk (tlmIndex r.h) (f x)) :
    ((s.moveTo p c).updateSlot (tlmIndex r.h) f).Owned := by
  have hst : x.state ≠ .filled := by
    obtain ⟨y, hy, hyst, -⟩ := (h.producers p pc hp).claimed hr
    obtain rfl : x = y := Option.some.inj (hx.symm.trans hy)
    rw [hyst]
    decide
  refine h.of_slot hp hx hst (h.alone hp hr) ?_ ?_ hfits rfl rfl rfl rfl rfl ?_ hok
  · intro r' hr'
    rw [Option.some.inj (hr'.symm.trans hr)]
  · intro r' hr'
    rw [hpc' r' hr']
  · rw [inSlots_updateSlot _ howner]
    exact h.accepted

theorem owned_copy (h : s.Owned) {r : Reservation} {k : Nat}
    (hp : s.producers[p]? = some (.filling r k))
    (hstep : producerStep s p (.filling r k) = some s') : s'.Owned := by
  obtain ⟨hcap, x, hx, hst, howner, hk, htake⟩ := h.producers p _ hp
  have hself : ∀ c, (s.moveTo p c).producers[p]? = some c := by
    intro c
    rw [getElem?_moveTo hp, if_pos rfl]
  simp only [producerStep] at hstep
  split at hstep
  · next b hb =>
    obtain rfl := Option.some.inj hstep
    have hlt : k < r.emit.line.length := (List.getElem?_eq_some_iff.mp hb).1
    have hsize := x.bufSize
    refine h.of_fill hp rfl hx (fun _ => rfl) (by simp [EmitPc.fills]) ?_ ?_
    · refine ⟨hcap, x.write k b, ?_, hst, howner, hlt, ?_⟩
      · rw [getElem?_updateSlot, if_pos rfl]
        exact congrArg _ hx
      · -- the bytes before are as they were, and this one is the line's
        have hbuf : (x.write k b).buf = x.buf.set k b := rfl
        rw [hbuf, List.take_add_one, List.take_add_one, List.take_set_of_le (Nat.le_refl k), htake,
          List.getElem?_set_self (by omega), hb]
    · have hclaimed : (x.write k b).state = .claimed := hst
      rw [SlotOk, hclaimed]
      exact ⟨p, _, r, hself _, rfl, rfl⟩
  · next hnone =>
    obtain rfl := Option.some.inj hstep
    have hlen : r.emit.line.length ≤ k := List.getElem?_eq_none_iff.mp hnone
    obtain rfl : k = r.emit.line.length := Nat.le_antisymm hk hlen
    refine h.of_fill hp rfl hx (fun _ => rfl) (by simp [EmitPc.fills]) ?_ ?_
    · refine ⟨{ x with len := UInt16.ofNat r.emit.line.length }, ?_, hst, howner, ?_, ?_⟩
      · rw [getElem?_updateSlot, if_pos rfl]
        exact congrArg _ hx
      · have hsmall : r.emit.line.length < 2 ^ 16 := by
          simp only [tlmSlotCap] at hcap
          omega
        exact UInt16.toNat_ofNat_of_lt' hsmall
      · rw [htake, List.take_length]
    · rw [SlotOk, hst]
      exact ⟨p, _, r, hself _, rfl, rfl⟩

theorem owned_publish (h : s.Owned) {r : Reservation} (hp : s.producers[p]? = some (.sized r))
    (hstep : producerStep s p (.sized r) = some s') : s'.Owned := by
  obtain ⟨x, hx, hst, howner, hholds⟩ := h.producers p _ hp
  obtain rfl := Option.some.inj hstep
  exact h.of_fill hp rfl hx (fun _ => rfl) (by simp [EmitPc.fills]) trivial
    (.inl ⟨r, howner, rfl, hholds⟩)

theorem owned_producer (h : s.Owned) (hp : s.producers[p]? = some pc)
    (hstep : producerStep s p pc = some s') : s'.Owned := by
  have hfits := h.producers p pc hp
  cases pc with
  | idle => contradiction
  | numbered e =>
      obtain rfl := Option.some.inj hstep
      exact h.of_move (c := .reserved ⟨s.head, s.reservations.length, e⟩) hp rfl rfl hfits rfl rfl rfl
        rfl rfl rfl
  | reserved r =>
      obtain ⟨x, -, rfl⟩ := Option.map_eq_some_iff.mp hstep
      split
      · exact h.of_move (c := .sawEmpty r) hp rfl rfl hfits rfl rfl rfl rfl rfl rfl
      · exact h.of_move (c := .refused r) hp rfl rfl hfits rfl rfl rfl rfl rfl rfl
  | sawEmpty r => exact owned_claim h hp hstep
  | refused r =>
      obtain rfl := Option.some.inj hstep
      exact h.of_move (c := .idle) hp rfl rfl trivial rfl rfl rfl rfl rfl rfl
  | filling r k => exact owned_copy h hp hstep
  | sized r => exact owned_publish h hp hstep

theorem owned_emit (h : s.Owned) (hp : s.producers[p]? = some .idle) (type fields : List UInt8)
    (ts : UInt64) : (tlmEmit s p type fields ts).Owned := by
  unfold tlmEmit
  split
  · exact h
  · dsimp only
    split
    · exact ⟨h.producers, h.unique, h.slot, h.writer, h.accepted, h.lines⟩
    · next hfit =>
      exact h.of_move (c := .numbered ⟨type, fields, ts, s.seq + 1⟩) hp rfl rfl
        (not_le.mp hfit) rfl rfl rfl rfl rfl rfl

/-! ## the writer -/

/-- The writer moves on without touching a slot, and writes lines of its own. -/
theorem Owned.of_writer (h : s.Owned) (hrec : s.writer.recycles = false)
    (hslots : s'.slots = s.slots) (hproducers : s'.producers = s.producers)
    (htail : s'.tail = s.tail) (haccepted : s'.accepted = s.accepted)
    (hsink : ∃ own, s'.sink = s.sink ++ own ∧ ∀ source bytes, .ring source bytes ∉ own)
    (hfits : s'.writer.Fits s.slots s.tail) : s'.Owned := by
  obtain ⟨own, hsink, hown⟩ := hsink
  refine ⟨?_, ?_, ?_, ?_, ?_, ?_⟩
  · rw [hproducers, hslots]
    exact h.producers
  · rw [hproducers]
    exact h.unique
  · intro i x hx
    rw [hslots] at hx
    have hok := h.slot i x hx
    unfold SlotOk at hok ⊢
    rw [hproducers]
    cases hst : x.state with
    | empty | claimed =>
        rw [hst] at hok
        exact hok
    | filled =>
        rw [hst] at hok
        obtain howner | ⟨hrec', -⟩ := hok
        · exact .inl howner
        · rw [hrec] at hrec'
          contradiction
  · rw [hslots, htail]
    exact hfits
  · have hnone : own.filterMap TlmLine.emit = [] := by
      rw [List.filterMap_eq_nil_iff]
      intro line hline
      cases line with
      | ring source bytes => exact absurd hline (hown source bytes)
      | sync | overflow => rfl
    rw [haccepted, handed, hsink, List.filterMap_append, hnone, List.append_nil, inSlots, hslots]
    exact h.accepted
  · intro source bytes hmem
    rw [hsink] at hmem
    obtain hmem | hmem := List.mem_append.mp hmem
    · exact h.lines source bytes hmem
    · exact absurd hmem (hown source bytes)

/-- The writer changes the slot it has found FILLED, which stays FILLED. -/
theorem Owned.of_read (h : s.Owned) {x : TlmSlot} (hx : s.slots[tlmIndex s.tail]? = some x)
    (hst : x.state = .filled) {f : TlmSlot → TlmSlot}
    (hslots : s'.slots = s.slots.modify (tlmIndex s.tail) f)
    (hproducers : s'.producers = s.producers)
    (hother : ∀ i y, i ≠ tlmIndex s.tail → s.SlotOk i y → s'.SlotOk i y)
    (hself : s'.SlotOk (tlmIndex s.tail) (f x)) (hfits : s'.writer.Fits s'.slots s'.tail)
    (haccepted : s'.accepted.Perm (s'.handed ++ s'.inSlots))
    (hlines : ∀ source bytes, .ring source bytes ∈ s'.sink →
      ∃ r, source = some r ∧ bytes = r.emit.line) : s'.Owned := by
  have hslot : ∀ j, s'.slots[j]? =
      if tlmIndex s.tail = j then s.slots[j]?.map f else s.slots[j]? := by
    intro j
    rw [hslots]
    exact getElem?_updateSlot s _ f j
  refine ⟨?_, by rw [hproducers]; exact h.unique, ?_, hfits, haccepted, hlines⟩
  · intro p pc hp
    rw [hproducers] at hp
    refine (h.producers p pc hp).congr fun r hr => ?_
    rw [hslot, if_neg (h.not_filling hx (by rw [hst]; decide) hp hr)]
  · intro i y hy
    rw [hslot] at hy
    split at hy
    · next heq =>
      subst heq
      rw [hx, Option.map_some] at hy
      rw [← Option.some.inj hy]
      exact hself
    · next hne => exact hother i y (Ne.symm hne) (h.slot i y hy)

theorem owned_handOver (h : s.Owned) {head : UInt32} {len : Nat} {got : List UInt8}
    (hw : s.writer = .reading head len got) {x : TlmSlot} (hx : s.slots[tlmIndex s.tail]? = some x)
    (hlen : ¬ got.length < len) :
    Owned { s.updateSlot (tlmIndex s.tail) ({ · with owner := none }) with
      sink := s.sink ++ [.ring x.owner got]
      writer := .written head } := by
  have hfits := h.writer
  rw [hw] at hfits
  obtain ⟨y, r, hy, hst, howner, hholds, rfl, hgot⟩ := hfits
  obtain rfl : x = y := Option.some.inj (hx.symm.trans hy)
  -- all of the line has been read
  have hline : got = r.emit.line := by
    rw [hgot, List.take_of_length_le (not_lt.mp hlen)]
  have hcell : (s.updateSlot (tlmIndex s.tail) ({ · with owner := none })).slots[tlmIndex s.tail]? =
      some { x with owner := none } := by
    rw [getElem?_updateSlot, if_pos rfl, hx]
    rfl
  refine h.of_read hx hst rfl rfl ?_ ?_ ⟨_, hcell, hst, rfl⟩ ?_ ?_
  · intro i y hne hok
    unfold SlotOk at hok ⊢
    cases hyst : y.state with
    | empty | claimed =>
        rw [hyst] at hok
        exact hok
    | filled =>
        rw [hyst] at hok
        exact hok.imp id fun hrec => absurd hrec.2.1 hne
  · rw [SlotOk, hst]
    exact .inr ⟨rfl, rfl, rfl⟩
  · have hperm := Pool.filterMap_modify hx (fun x => { x with owner := none })
      (fun x => x.owner.map (·.emit))
    simp only [howner, Option.map_some, Option.toList_some, Option.map_none, Option.toList_none,
      List.append_nil] at hperm
    refine h.accepted.trans ?_
    have hhanded : (s.sink ++ [TlmLine.ring x.owner got]).filterMap TlmLine.emit =
        s.handed ++ [r.emit] := by
      rw [List.filterMap_append, howner]
      rfl
    refine (List.Perm.append_left s.handed hperm.symm).trans ?_
    simp only [handed, hhanded, inSlots, updateSlot, List.append_assoc]
    exact List.Perm.append_left _ List.perm_append_comm
  · intro source bytes hmem
    obtain hmem | hmem := List.mem_append.mp hmem
    · exact h.lines source bytes hmem
    · obtain ⟨rfl, rfl⟩ := TlmLine.ring.inj (List.mem_singleton.mp hmem)
      exact ⟨r, howner, hline⟩

theorem owned_recycle (h : s.Owned) {head : UInt32} (hw : s.writer = .written head) :
    Owned { s.updateSlot (tlmIndex s.tail) ({ · with state := .empty }) with
      tail := s.tail + 1
      writer := .draining head } := by
  have hfits := h.writer
  rw [hw] at hfits
  obtain ⟨x, hx, hst, howner⟩ := hfits
  refine h.of_read hx hst rfl rfl ?_ howner trivial ?_ h.lines
  · intro i y hne hok
    unfold SlotOk at hok ⊢
    cases hyst : y.state with
    | empty | claimed =>
        rw [hyst] at hok
        exact hok
    | filled =>
        rw [hyst] at hok
        exact hok.imp id fun hrec => absurd hrec.2.1 hne
  · have hsame := inSlots_updateSlot s (f := ({ · with state := .empty })) (fun _ => rfl)
      (tlmIndex s.tail)
    refine h.accepted.trans (List.Perm.append_left _ (List.Perm.of_eq hsame.symm))

/-- The byte read behind those read so far is the line's. -/
theorem read_byte {buf bytes got : List UInt8} (hbuf : buf.take bytes.length = bytes)
    (hgot : got = bytes.take got.length) (hlt : got.length < bytes.length) :
    got ++ buf[got.length]?.toList = bytes.take (got ++ buf[got.length]?.toList).length := by
  have hbyte : buf[got.length]? = bytes[got.length]? := by
    rw [← List.getElem?_take_of_lt hlt, hbuf]
  have hget := List.getElem?_eq_getElem hlt
  rw [hbyte, hget, Option.toList_some, List.length_append, List.length_singleton,
    List.take_add_one, hget, ← hgot]
  rfl

theorem owned_writer {due : Bool} (h : s.Owned) (hstep : writerStep s due s.writer = some s') :
    s'.Owned := by
  have hfits := h.writer
  have hnone : ∃ own, s.sink = s.sink ++ own ∧ ∀ source bytes, TlmLine.ring source bytes ∉ own :=
    ⟨[], (List.append_nil _).symm, by simp⟩
  cases hw : s.writer with
  | loopTest =>
      rw [hw] at hstep
      obtain rfl := Option.some.inj hstep
      refine h.of_writer (by rw [hw]; rfl) rfl rfl rfl rfl hnone ?_
      dsimp only
      split
      · split <;> trivial
      · trivial
  | loadHead =>
      rw [hw] at hstep
      obtain rfl := Option.some.inj hstep
      exact h.of_writer (by rw [hw]; rfl) rfl rfl rfl rfl hnone trivial
  | draining head =>
      rw [hw] at hstep
      simp only [writerStep] at hstep
      split at hstep
      · obtain rfl := Option.some.inj hstep
        exact h.of_writer (by rw [hw]; rfl) rfl rfl rfl rfl hnone trivial
      · obtain ⟨x, hx, rfl⟩ := Option.map_eq_some_iff.mp hstep
        refine h.of_writer (by rw [hw]; rfl) rfl rfl rfl rfl hnone ?_
        dsimp only
        split
        · next hst =>
          have hok := h.slot _ x hx
          rw [SlotOk, hst, hw] at hok
          obtain ⟨r, howner, -, hholds⟩ := hok.resolve_right (by simp [WriterPc.recycles])
          exact ⟨x, r, hx, hst, howner, hholds⟩
        · trivial
  | found head =>
      rw [hw] at hstep hfits
      obtain ⟨x, hx, rfl⟩ := Option.map_eq_some_iff.mp hstep
      obtain ⟨y, r, hy, hst, howner, hholds⟩ := hfits
      obtain rfl : x = y := Option.some.inj (hx.symm.trans hy)
      exact h.of_writer (by rw [hw]; rfl) rfl rfl rfl rfl hnone
        ⟨x, r, hx, hst, howner, hholds, hholds.1, rfl⟩
  | reading head len got =>
      rw [hw] at hstep hfits
      obtain ⟨x, hx, rfl⟩ := Option.map_eq_some_iff.mp hstep
      split
      · next hlt =>
        obtain ⟨y, r, hy, hst, howner, hholds, hlen, hgot⟩ := hfits
        obtain rfl : x = y := Option.some.inj (hx.symm.trans hy)
        refine h.of_writer (by rw [hw]; rfl) rfl rfl rfl rfl hnone
          ⟨x, r, hx, hst, howner, hholds, hlen, ?_⟩
        exact read_byte hholds.2 hgot (hlen ▸ hlt)
      · next hlen => exact owned_handOver h hw hx hlen
  | written head =>
      rw [hw] at hstep
      obtain rfl := Option.some.inj hstep
      exact owned_recycle h hw
  | clock =>
      rw [hw] at hstep
      obtain rfl := Option.some.inj hstep
      split
      · exact h.of_writer (by rw [hw]; rfl) rfl rfl rfl rfl ⟨_, rfl, by simp⟩ trivial
      · exact h.of_writer (by rw [hw]; rfl) rfl rfl rfl rfl hnone trivial
  | overflow | final =>
      rw [hw] at hstep
      obtain rfl := Option.some.inj hstep
      refine h.of_writer (by rw [hw]; rfl) rfl rfl rfl rfl hnone ?_
      dsimp only
      split <;> trivial
  | exchange dropped =>
      rw [hw] at hstep
      obtain rfl := Option.some.inj hstep
      split
      · exact h.of_writer (by rw [hw]; rfl) rfl rfl rfl rfl hnone trivial
      · exact h.of_writer (by rw [hw]; rfl) rfl rfl rfl rfl hnone trivial
  | report dropped | finalReport dropped =>
      rw [hw] at hstep
      obtain rfl := Option.some.inj hstep
      exact h.of_writer (by rw [hw]; rfl) rfl rfl rfl rfl ⟨_, rfl, by simp⟩ trivial
  | exited =>
      rw [hw] at hstep
      contradiction

/-- What the writer does to the ring: it hands a line over, gives a slot back, or
leaves the slots alone. -/
theorem Owned.writer_cases {due : Bool} (h : s.Owned)
    (hstep : writerStep s due s.writer = some s') :
    (∃ head len got x r, s.writer = .reading head len got ∧
      s.slots[tlmIndex s.tail]? = some x ∧ x.state = .filled ∧ x.owner = some r ∧
      s' = { s.updateSlot (tlmIndex s.tail) ({ · with owner := none }) with
        sink := s.sink ++ [.ring x.owner got]
        writer := .written head }) ∨
    (∃ head, s.writer = .written head ∧
      s' = { s.updateSlot (tlmIndex s.tail) ({ · with state := .empty }) with
        tail := s.tail + 1
        writer := .draining head }) ∨
    (s.writer.recycles = false ∧ s'.writer.recycles = false ∧ s'.slots = s.slots ∧
      s'.tail = s.tail ∧ s'.handed = s.handed ∧
      (s'.seq = s.seq ∧ s'.sink = s.sink ∨ s.writer.numbers due = true ∧ s'.seq = s.seq + 1 ∧
        ∃ line : TlmLine, s'.sink = s.sink ++ [line] ∧ line.seq = some (s.seq + 1) ∧
          line.emit = none)) := by
  have hfits := h.writer
  cases hw : s.writer with
  | reading head len got =>
      rw [hw] at hstep hfits
      obtain ⟨x, hx, rfl⟩ := Option.map_eq_some_iff.mp hstep
      obtain ⟨y, r, hy, hst, howner, -⟩ := hfits
      obtain rfl : x = y := Option.some.inj (hx.symm.trans hy)
      split
      · exact .inr (.inr ⟨rfl, rfl, rfl, rfl, rfl, .inl ⟨rfl, rfl⟩⟩)
      · exact .inl ⟨head, len, got, x, r, rfl, hx, hst, howner, rfl⟩
  | written head =>
      rw [hw] at hstep
      exact .inr (.inl ⟨head, rfl, (Option.some.inj hstep).symm⟩)
  | draining head =>
      rw [hw] at hstep
      simp only [writerStep] at hstep
      refine .inr (.inr ?_)
      split at hstep
      · obtain rfl := Option.some.inj hstep
        exact ⟨rfl, rfl, rfl, rfl, rfl, .inl ⟨rfl, rfl⟩⟩
      · obtain ⟨x, -, rfl⟩ := Option.map_eq_some_iff.mp hstep
        refine ⟨rfl, ?_, rfl, rfl, rfl, .inl ⟨rfl, rfl⟩⟩
        dsimp only
        split <;> rfl
  | found head =>
      rw [hw] at hstep
      obtain ⟨x, -, rfl⟩ := Option.map_eq_some_iff.mp hstep
      exact .inr (.inr ⟨rfl, rfl, rfl, rfl, rfl, .inl ⟨rfl, rfl⟩⟩)
  | loopTest =>
      rw [hw] at hstep
      obtain rfl := Option.some.inj hstep
      refine .inr (.inr ⟨rfl, ?_, rfl, rfl, rfl, .inl ⟨rfl, rfl⟩⟩)
      dsimp only
      split
      · split <;> rfl
      · rfl
  | loadHead =>
      rw [hw] at hstep
      obtain rfl := Option.some.inj hstep
      exact .inr (.inr ⟨rfl, rfl, rfl, rfl, rfl, .inl ⟨rfl, rfl⟩⟩)
  | clock =>
      rw [hw] at hstep
      obtain rfl := Option.some.inj hstep
      refine .inr (.inr ?_)
      split
      · next hdue =>
        exact ⟨rfl, rfl, rfl, rfl, by simp [handed, TlmLine.emit],
          .inr ⟨hdue, rfl, _, rfl, rfl, rfl⟩⟩
      · exact ⟨rfl, rfl, rfl, rfl, rfl, .inl ⟨rfl, rfl⟩⟩
  | overflow | final =>
      rw [hw] at hstep
      obtain rfl := Option.some.inj hstep
      refine .inr (.inr ⟨rfl, ?_, rfl, rfl, rfl, .inl ⟨rfl, rfl⟩⟩)
      dsimp only
      split <;> rfl
  | exchange dropped =>
      rw [hw] at hstep
      obtain rfl := Option.some.inj hstep
      refine .inr (.inr ?_)
      split <;> exact ⟨rfl, rfl, rfl, rfl, rfl, .inl ⟨rfl, rfl⟩⟩
  | report dropped | finalReport dropped =>
      rw [hw] at hstep
      obtain rfl := Option.some.inj hstep
      exact .inr (.inr ⟨rfl, rfl, rfl, rfl, by simp [handed, TlmLine.emit],
        .inr ⟨rfl, rfl, _, rfl, rfl, rfl⟩⟩)
  | exited =>
      rw [hw] at hstep
      contradiction

theorem owned_step {op : TlmOp} (h : s.Owned) (hstep : tlmStep s op = some s') : s'.Owned := by
  cases op with
  | emit p type fields ts =>
      obtain ⟨hp, rfl⟩ := tlmStep_emit hstep
      exact owned_emit h hp type fields ts
  | producer p =>
      obtain ⟨pc, hp, hstep⟩ := Option.bind_eq_some_iff.mp hstep
      exact owned_producer h hp hstep
  | writer due => exact owned_writer h hstep
  | stop =>
      obtain rfl := Option.some.inj hstep
      exact ⟨h.producers, h.unique, h.slot, h.writer, h.accepted, h.lines⟩

end Telemetry

/-! ## the lines handed over -/

/-- **Ownership of the slots**, in every state of every run: a slot is written by
one producer at most; the writer reads a slot only while it is FILLED and nobody
writes it; every line from the ring is the whole line of one event that got a
slot; and the events handed over are among those, each as often as it got one. -/
theorem ring_lines_exact (hasFile : Bool) (n : Nat) (old : List TlmSlot)
    (hsize : old.length = tlmRingSlots) (ops : List TlmOp) (s : Telemetry)
    (hrun : Run.exec tlmStep (.init hasFile n old hsize) ops = some s) :
    (∀ (p q : Nat) (pc pc' : EmitPc) (r r' : Reservation), s.producers[p]? = some pc →
      s.producers[q]? = some pc' → pc.fills = some r → pc'.fills = some r' →
      tlmIndex r.h = tlmIndex r'.h → p = q) ∧
    (s.writer.reads = true → ∃ x, s.slots[tlmIndex s.tail]? = some x ∧ x.state = .filled ∧
      ∀ (p : Nat) (pc : EmitPc) (r : Reservation), s.producers[p]? = some pc →
        pc.fills = some r → tlmIndex s.tail ≠ tlmIndex r.h) ∧
    (∀ source bytes, .ring source bytes ∈ s.sink →
      ∃ r, source = some r ∧ r.emit ∈ s.accepted ∧ bytes = r.emit.line) ∧
    s.handed.Subperm s.accepted := by
  have h : s.Owned :=
    Run.exec_invariant_true Telemetry.Owned (fun _ _ _ => Telemetry.owned_step)
      (Telemetry.owned_init hasFile n old hsize) hrun
  have hsub : s.handed.Subperm s.accepted :=
    (List.sublist_append_left _ _).subperm.trans h.accepted.symm.subperm
  refine ⟨h.unique, ?_, ?_, hsub⟩
  · intro hr
    obtain ⟨x, hx, hst⟩ := h.writer.filled hr
    exact ⟨x, hx, hst, fun p pc r hp hfill => h.not_filling hx (by rw [hst]; decide) hp hfill⟩
  · intro source bytes hmem
    obtain ⟨r, rfl, hbytes⟩ := h.lines source bytes hmem
    exact ⟨r, rfl, hsub.subset (List.mem_filterMap.mpr ⟨_, hmem, rfl⟩), hbytes⟩

/-- One event, copied into its slot, read and handed over. -/
def oneEventRun : List TlmOp := emitSteps 0 39 ++ List.replicate 40 (.writer false)

theorem ring_lines_exact_one_event :
    ∃ s, Run.exec tlmStep (.start 1) oneEventRun = some s ∧ s.handed.length = 1 ∧
      s.handed.Subperm s.accepted := by
  have hrun : (Run.exec tlmStep (.start 1) oneEventRun).map (·.handed.length) = some 1 := by
    decide +kernel
  obtain ⟨s, hs, hlen⟩ := Option.map_eq_some_iff.mp hrun
  obtain ⟨-, -, -, hsub⟩ := ring_lines_exact true 1 (List.replicate tlmRingSlots .zero)
    List.length_replicate oneEventRun s hs
  exact ⟨s, hs, hlen, hsub⟩

end Vmc
