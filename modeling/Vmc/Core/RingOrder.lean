import Vmc.Core.SlotOwnership

/-!
# Vmc.Core.RingOrder

In which order the telemetry ring is written out (`core/telemetry.c`).

A producer reserves an index before it knows whether the slot is free.  The
numbers of the reservations are the natural order of the ring: as long as each
producer gets its slot while the writer is less than a lap behind its
reservation, every event is in the slot of its number, and the writer hands them
over in that order (`Telemetry.InOrder`).  If each producer also looks at its
slot in time, it finds it free, and the events outstanding are those numbered
from the first not handed over to the last reserved (`Telemetry.Linear`).  Then a
pass of the writer over a ring at rest leaves it empty (`ring_drains`).

A producer that comes too late finds its slot taken and drops the event, but the
index it reserved stays behind.  There are then fewer events than indices, and
the writer, which walks the indices one by one, never catches up again
(`ringDrains_fails`).
-/

namespace Vmc

/-! ## reservations under way -/

/-- The reservation of a producer that has not claimed its slot. -/
def EmitPc.pending : EmitPc → Option Reservation
  | reserved r | sawEmpty r | refused r => some r
  | _ => none

/-- The reservation of a producer about to look at its slot. -/
def EmitPc.looks : EmitPc → Option Reservation
  | reserved r => some r
  | _ => none

/-- The reservation of a producer about to claim its slot. -/
def EmitPc.claims : EmitPc → Option Reservation
  | sawEmpty r => some r
  | _ => none

/-- A cursor points at the slot of its number, laps and wrap-around apart. -/
theorem tlmIndex_ofNat (n : Nat) : tlmIndex (UInt32.ofNat n) = n % tlmRingSlots := by
  rw [tlmIndex, UInt32.toNat_ofNat']
  exact Nat.mod_mod_of_dvd n (by decide)

theorem ofNat_succ (n : Nat) : UInt32.ofNat n + 1 = UInt32.ofNat (n + 1) := by
  rw [← UInt32.toNat_inj, UInt32.toNat_add, UInt32.toNat_ofNat', UInt32.toNat_ofNat']
  simp [Nat.add_mod]

/-- Cursors less than `2^32` apart differ if their numbers do. -/
theorem ofNat_inj_of_lt {m n : Nat} (hle : m ≤ n) (hlt : n < m + 2 ^ 32)
    (h : UInt32.ofNat m = UInt32.ofNat n) : m = n := by
  rw [← UInt32.toNat_inj, UInt32.toNat_ofNat', UInt32.toNat_ofNat'] at h
  omega

/-- Numbers less than a lap apart have different slots. -/
theorem eq_of_mod_eq {m n b : Nat} (hm : b ≤ m) (hm' : m < b + tlmRingSlots) (hn : b ≤ n)
    (hn' : n < b + tlmRingSlots) (h : m % tlmRingSlots = n % tlmRingSlots) : m = n := by
  simp only [tlmRingSlots] at hm' hn' h
  omega

/-- A list from a number on, read off by the numbers. -/
theorem filterMap_getElem?_range' {α : Type*} (l : List α) (k : Nat) :
    (List.range' k (l.length - k)).filterMap (l[·]?) = l.drop k := by
  generalize hn : l.length - k = n
  induction n generalizing k with
  | zero => rw [List.range'_zero, List.filterMap_nil, List.drop_of_length_le (by omega)]
  | succ n ih =>
      have hlt : k < l.length := by omega
      rw [List.range'_succ, List.filterMap_cons, List.getElem?_eq_getElem hlt,
        List.drop_eq_getElem_cons hlt, ih (k + 1) (by omega)]

namespace Telemetry

variable {s s' : Telemetry} {p : Nat} {pc c : EmitPc}

/-- Reservations without a slot so far. -/
def unclaimed (s : Telemetry) : List Reservation := s.producers.filterMap EmitPc.pending

/-- Reservations whose event is in its slot, or being copied there. -/
def inRing (s : Telemetry) : List Reservation := s.slots.filterMap (·.owner)

def outstanding (s : Telemetry) : List Nat := (s.unclaimed ++ s.inRing).map (·.number)

/-- How many slots the writer has given back. -/
def drained (s : Telemetry) : Nat := s.handed.length - if s.writer.recycles then 1 else 0

/-- The cursors count. -/
structure Counted (s : Telemetry) : Prop extends Owned s where
  head : s.head = UInt32.ofNat s.reservations.length
  tail : s.tail = UInt32.ofNat s.drained
  recycling : s.writer.recycles = true → 0 < s.handed.length

/-- The ring in the order of the reservations. -/
structure InOrder (s : Telemetry) : Prop extends Counted s where
  numbers : ∀ r ∈ s.unclaimed ++ s.inRing, r.h = UInt32.ofNat r.number ∧
    s.reservations[r.number]? = some r.emit
  ahead : ∀ r ∈ s.unclaimed ++ s.inRing, s.handed.length ≤ r.number
  distinct : s.outstanding.Nodup
  near : ∀ r ∈ s.inRing, r.number < s.drained + tlmRingSlots
  order : s.handed = s.reservations.take s.handed.length

/-- In order, and without a gap. -/
structure Linear (s : Telemetry) : Prop extends InOrder s where
  complete : s.accepted.length + s.unclaimed.length = s.reservations.length
  seen : ∀ (p : Nat) (r : Reservation), s.producers[p]? = some (.sawEmpty r) →
    r.number < s.drained + tlmRingSlots
  kept : ∀ (p : Nat) (r : Reservation), s.producers[p]? ≠ some (.refused r)

/-- A producer looks at its slot while the writer is less than a lap behind its
reservation. -/
def LooksInTime (s : Telemetry) : TlmOp → Prop
  | .producer p => ∀ r ∈ s.producers[p]?.bind EmitPc.looks, r.number < s.drained + tlmRingSlots
  | _ => True

instance (s : Telemetry) : (op : TlmOp) → Decidable (s.LooksInTime op)
  | .producer p => inferInstanceAs
      (Decidable (∀ r ∈ s.producers[p]?.bind EmitPc.looks, r.number < s.drained + tlmRingSlots))
  | .emit _ _ _ _ | .writer _ | .stop => .isTrue trivial

/-- A producer gets its slot while the writer is less than a lap behind its
reservation. -/
def ClaimsInTime (s : Telemetry) : TlmOp → Prop
  | .producer p => ∀ r ∈ s.producers[p]?.bind EmitPc.claims,
      s.slots[tlmIndex r.h]?.map (·.state) = some .empty → r.number < s.drained + tlmRingSlots
  | _ => True

instance (s : Telemetry) : (op : TlmOp) → Decidable (s.ClaimsInTime op)
  | .producer p => inferInstanceAs (Decidable (∀ r ∈ s.producers[p]?.bind EmitPc.claims,
      s.slots[tlmIndex r.h]?.map (·.state) = some .empty → r.number < s.drained + tlmRingSlots))
  | .emit _ _ _ _ | .writer _ | .stop => .isTrue trivial

/-! ## the cursors -/

theorem drained_of_not_recycling (h : s.writer.recycles = false) : s.drained = s.handed.length := by
  rw [drained, h]
  rfl

theorem counted_init (hasFile : Bool) (n : Nat) (old : List TlmSlot)
    (hsize : old.length = tlmRingSlots) : (init hasFile n old hsize).Counted :=
  ⟨owned_init hasFile n old hsize, rfl, rfl, by simp [init, WriterPc.recycles]⟩

/-- Steps that move no cursor. -/
theorem Counted.of_same (h : s.Counted) (howned : s'.Owned) (hhead : s'.head = s.head)
    (hres : s'.reservations = s.reservations) (htail : s'.tail = s.tail)
    (hhanded : s'.handed = s.handed) (hrec : s'.writer.recycles = s.writer.recycles) :
    s'.Counted := by
  refine ⟨howned, ?_, ?_, ?_⟩
  · rw [hhead, hres]
    exact h.head
  · rw [htail, drained, hhanded, hrec]
    exact h.tail
  · rw [hhanded, hrec]
    exact h.recycling

theorem handed_append (hsink : s'.sink = s.sink ++ [.ring (some r) got]) :
    s'.handed = s.handed ++ [r.emit] := by
  rw [handed, hsink, List.filterMap_append]
  rfl

theorem counted_writer {due : Bool} (h : s.Counted) (howned : s'.Owned)
    (hstep : writerStep s due s.writer = some s') : s'.Counted := by
  obtain ⟨-, hhead, -, hres, -⟩ := writerStep_frame hstep
  obtain ⟨head, len, got, x, r, hw, hx, hst, howner, rfl⟩ | ⟨head, hw, rfl⟩ |
    ⟨hrec, hrec', hslots, htail, hhanded, -⟩ := h.writer_cases hstep
  · rw [howner] at howned ⊢
    have hhanded := @handed_append s { s.updateSlot (tlmIndex s.tail) ({ · with owner := none }) with
      sink := s.sink ++ [.ring (some r) got]
      writer := .written head } r got rfl
    have hold := drained_of_not_recycling (s := s) (by rw [hw]; rfl)
    refine ⟨howned, h.head, ?_, fun _ => by rw [hhanded]; simp⟩
    rw [drained, hhanded, List.length_append]
    exact h.tail.trans (by rw [hold]; rfl)
  · have hpos := h.recycling (by rw [hw]; rfl)
    refine ⟨howned, h.head, ?_, by simp [WriterPc.recycles]⟩
    have hold : s.drained = s.handed.length - 1 := by
      rw [drained, hw]
      rfl
    have hnew : drained { s.updateSlot (tlmIndex s.tail) ({ · with state := .empty }) with
        tail := s.tail + 1
        writer := .draining head } = s.handed.length := rfl
    rw [hnew]
    dsimp only
    rw [h.tail, ofNat_succ, hold, Nat.sub_add_cancel hpos]
  · exact h.of_same howned hhead hres htail hhanded (by rw [hrec, hrec'])

theorem counted_producer (h : s.Counted) (howned : s'.Owned) (hp : s.producers[p]? = some pc)
    (hstep : producerStep s p pc = some s') : s'.Counted := by
  obtain ⟨hwriter, htail, hsink, -⟩ := producerStep_frame hstep
  have hhanded : s'.handed = s.handed := by rw [handed, hsink, handed]
  cases pc with
  | numbered e =>
      obtain rfl := Option.some.inj hstep
      refine ⟨howned, ?_, h.tail, h.recycling⟩
      dsimp only
      rw [h.head, ofNat_succ, List.length_append, List.length_singleton]
  | idle => contradiction
  | reserved r =>
      obtain ⟨x, -, rfl⟩ := Option.map_eq_some_iff.mp hstep
      exact h.of_same howned rfl rfl rfl rfl rfl
  | sawEmpty r =>
      obtain ⟨x, -, rfl⟩ := Option.map_eq_some_iff.mp hstep
      refine h.of_same howned ?_ ?_ htail hhanded (by rw [hwriter])
      · split <;> rfl
      · split <;> rfl
  | refused r | sized r =>
      obtain rfl := Option.some.inj hstep
      exact h.of_same howned rfl rfl rfl rfl rfl
  | filling r k =>
      simp only [producerStep] at hstep
      split at hstep
      all_goals
        obtain rfl := Option.some.inj hstep
        exact h.of_same howned rfl rfl rfl rfl rfl

theorem counted_step {op : TlmOp} (h : s.Counted) (hstep : tlmStep s op = some s') :
    s'.Counted := by
  have howned := owned_step h.toOwned hstep
  cases op with
  | emit p type fields ts =>
      obtain ⟨-, rfl⟩ := tlmStep_emit hstep
      obtain ⟨-, hhead, htail, -, -, -, hwriter, hsink, hres, -⟩ :=
        tlmEmit_frame s p type fields ts
      exact h.of_same howned hhead hres htail (by rw [handed, hsink, handed]) (by rw [hwriter])
  | producer p =>
      obtain ⟨pc, hp, hstep⟩ := Option.bind_eq_some_iff.mp hstep
      exact counted_producer h howned hp hstep
  | writer due => exact counted_writer h howned hstep
  | stop =>
      obtain rfl := Option.some.inj hstep
      exact h.of_same howned rfl rfl rfl rfl rfl

/-! ## the reservations in order -/

/-- What a producer's move does to the reservations without a slot. -/
theorem unclaimed_move (hp : s.producers[p]? = some pc)
    (hproducers : s'.producers = s.producers.set p c) :
    (s'.unclaimed ++ pc.pending.toList).Perm (s.unclaimed ++ c.pending.toList) := by
  rw [unclaimed, hproducers]
  exact Pool.filterMap_set hp c EmitPc.pending

/-- A move that neither makes a reservation nor claims its slot. -/
theorem unclaimed_same (hp : s.producers[p]? = some pc)
    (hproducers : s'.producers = s.producers.set p c) (hpending : c.pending = pc.pending) :
    s'.unclaimed.Perm s.unclaimed := by
  have hperm := unclaimed_move hp hproducers
  rw [hpending] at hperm
  exact (List.perm_append_right_iff _).mp hperm

theorem mem_unclaimed {r : Reservation} (hp : s.producers[p]? = some pc)
    (hr : pc.pending = some r) : r ∈ s.unclaimed :=
  List.mem_filterMap.mpr ⟨pc, List.mem_of_getElem? hp, hr⟩

theorem mem_inRing {i : Nat} {x : TlmSlot} {r : Reservation} (hx : s.slots[i]? = some x)
    (howner : x.owner = some r) : r ∈ s.inRing :=
  List.mem_filterMap.mpr ⟨x, List.mem_of_getElem? hx, howner⟩

theorem InOrder.behind (h : s.InOrder) : s.handed.length ≤ s.reservations.length := by
  have hlen := congrArg List.length h.order
  rw [List.length_take] at hlen
  omega

/-- A reservation outstanding is numbered from the first not handed over on. -/
theorem InOrder.number_mem (h : s.InOrder) {r : Reservation} (hr : r ∈ s.unclaimed ++ s.inRing) :
    s.handed.length ≤ r.number ∧ r.number < s.reservations.length :=
  ⟨h.ahead r hr, (List.getElem?_eq_some_iff.mp (h.numbers r hr).2).1⟩

theorem drained_le (s : Telemetry) :
    s.drained ≤ s.handed.length ∧ s.handed.length ≤ s.drained + 1 := by
  unfold drained
  split <;> omega

/-- The slot of a reservation less than a lap ahead of the writer is free: another
event in it would have the same number. -/
theorem InOrder.slot_empty (h : s.InOrder) {r : Reservation} (hp : s.producers[p]? = some pc)
    (hr : pc.pending = some r) (hnear : r.number < s.drained + tlmRingSlots) {x : TlmSlot}
    (hx : s.slots[tlmIndex r.h]? = some x) : x.state = .empty := by
  have hmem : r ∈ s.unclaimed ++ s.inRing := List.mem_append_left _ (mem_unclaimed hp hr)
  have hnum := (h.numbers r hmem).1
  obtain ⟨hlow, -⟩ := h.number_mem hmem
  obtain ⟨hdr, hdr'⟩ := s.drained_le
  have hother : ∀ r', x.owner ≠ some r' := by
    intro r' howner
    have hring := mem_inRing hx howner
    have hmem' : r' ∈ s.unclaimed ++ s.inRing := List.mem_append_right _ hring
    have hidx := h.place hx howner
    rw [hnum, (h.numbers r' hmem').1, tlmIndex_ofNat, tlmIndex_ofNat] at hidx
    obtain ⟨hlow', -⟩ := h.number_mem hmem'
    have hnear' := h.near r' hring
    have heq := eq_of_mod_eq (b := s.handed.length) hlow (by omega) hlow' (by omega) hidx
    have hnodup := h.distinct
    rw [outstanding, List.map_append, List.nodup_append] at hnodup
    exact hnodup.2.2 _ (List.mem_map_of_mem (mem_unclaimed hp hr)) _ (List.mem_map_of_mem hring) heq
  have hok := h.slot _ x hx
  unfold SlotOk at hok
  cases hst : x.state with
  | empty => rfl
  | claimed =>
      rw [hst] at hok
      obtain ⟨q, qc, r', hq, hr', hidx⟩ := hok
      obtain ⟨y, hy, -, howner⟩ := (h.producers q qc hq).claimed hr'
      rw [hidx] at hy
      obtain rfl : x = y := Option.some.inj (hx.symm.trans hy)
      exact absurd howner (hother r')
  | filled =>
      rw [hst] at hok
      obtain ⟨r', howner, -⟩ | ⟨hrec, hidx, -⟩ := hok
      · exact absurd howner (hother r')
      · -- the writer is about to give this slot back, one lap behind at most
        have hpos := h.recycling hrec
        have hold : s.drained = s.handed.length - 1 := by
          rw [drained, hrec]
          rfl
        rw [hnum, h.tail, tlmIndex_ofNat, tlmIndex_ofNat] at hidx
        have heq := eq_of_mod_eq (b := s.drained) (by omega) hnear (Nat.le_refl _)
          (by simp [tlmRingSlots]) hidx
        omega

/-- Steps that make no reservation and hand nothing over: those outstanding may
change hands, or be given up. -/
theorem InOrder.of_subperm (h : s.InOrder) (hcounted : s'.Counted)
    (hsub : (s'.unclaimed ++ s'.inRing).Subperm (s.unclaimed ++ s.inRing))
    (hres : s'.reservations = s.reservations) (hhanded : s'.handed = s.handed)
    (hnear : ∀ r ∈ s'.inRing, r.number < s'.drained + tlmRingSlots) : s'.InOrder := by
  refine ⟨hcounted, ?_, ?_, ?_, hnear, ?_⟩
  · intro r hr
    rw [hres]
    exact h.numbers r (hsub.subset hr)
  · intro r hr
    rw [hhanded]
    exact h.ahead r (hsub.subset hr)
  · obtain ⟨kept, hperm, hsublist⟩ := hsub
    exact (hperm.map _).nodup_iff.mp (h.distinct.sublist (hsublist.map _))
  · rw [hhanded, hres]
    exact h.order

theorem linear_init (hasFile : Bool) (n : Nat) (old : List TlmSlot)
    (hsize : old.length = tlmRingSlots) : (init hasFile n old hsize).Linear := by
  have hidle : ∀ (p : Nat) (pc : EmitPc), (init hasFile n old hsize).producers[p]? = some pc →
      pc = .idle := by
    intro p pc hp
    exact List.eq_of_mem_replicate (List.mem_of_getElem? hp)
  have hunclaimed : (init hasFile n old hsize).unclaimed = [] := by
    rw [unclaimed, List.filterMap_eq_nil_iff]
    intro pc hpc
    rw [List.eq_of_mem_replicate hpc]
    rfl
  have hring : (init hasFile n old hsize).inRing = [] := by
    rw [inRing, List.filterMap_eq_nil_iff]
    intro x hx
    obtain ⟨y, -, rfl⟩ := List.mem_map.mp hx
    rfl
  refine ⟨⟨counted_init hasFile n old hsize, ?_, ?_, ?_, ?_, rfl⟩, ?_, ?_, ?_⟩
  · rw [hunclaimed, hring]
    simp
  · rw [hunclaimed, hring]
    simp
  · rw [outstanding, hunclaimed, hring]
    exact List.nodup_nil
  · rw [hring]
    simp
  · rw [hunclaimed]
    rfl
  · intro p r hp
    exact absurd (hidle p _ hp) (by simp)
  · intro p r hp
    exact absurd (hidle p _ hp) (by simp)

/-- The next number is reserved. -/
theorem inOrder_reserve (h : s.InOrder) {e : Emit} (hp : s.producers[p]? = some (.numbered e))
    (hcounted : s'.Counted) (hstep : producerStep s p (.numbered e) = some s') : s'.InOrder := by
  obtain ⟨hproducers, hres, hring, hhanded, hwriter⟩ :
      s'.producers = s.producers.set p (.reserved ⟨s.head, s.reservations.length, e⟩) ∧
        s'.reservations = s.reservations ++ [e] ∧ s'.inRing = s.inRing ∧ s'.handed = s.handed ∧
        s'.writer = s.writer := by
    obtain rfl := Option.some.inj hstep
    exact ⟨rfl, rfl, rfl, rfl, rfl⟩
  have hdrained : s'.drained = s.drained := by rw [drained, drained, hhanded, hwriter]
  have hperm : (s'.unclaimed ++ s'.inRing).Perm
      (⟨s.head, s.reservations.length, e⟩ :: (s.unclaimed ++ s.inRing)) := by
    have hmove := unclaimed_move hp hproducers
    simp only [EmitPc.pending, Option.toList_none, List.append_nil, Option.toList_some] at hmove
    rw [hring]
    refine (hmove.append_right s.inRing).trans ?_
    rw [List.append_assoc]
    exact List.perm_middle
  have hbehind := h.behind
  refine ⟨hcounted, ?_, ?_, ?_, ?_, ?_⟩
  · intro r hr
    obtain rfl | hr := List.mem_cons.mp (hperm.mem_iff.mp hr)
    · exact ⟨h.head, by simp [hres]⟩
    · obtain ⟨hnum, hemit⟩ := h.numbers r hr
      exact ⟨hnum, by rw [hres, List.getElem?_append_left (h.number_mem hr).2, hemit]⟩
  · intro r hr
    rw [hhanded]
    obtain rfl | hr := List.mem_cons.mp (hperm.mem_iff.mp hr)
    · exact hbehind
    · exact h.ahead r hr
  · refine ((hperm.map _).nodup_iff).mpr (List.nodup_cons.mpr ⟨?_, h.distinct⟩)
    intro hmem
    obtain ⟨r, hr, hnum⟩ := List.mem_map.mp hmem
    have hlt := (h.number_mem hr).2
    rw [hnum] at hlt
    exact absurd hlt (Nat.lt_irrefl _)
  · rw [hring, hdrained]
    exact h.near
  · rw [hhanded, hres, List.take_append_of_le_length hbehind]
    exact h.order

/-- What a claim does: the reservation passes from the producer to the slot. -/
theorem claim_perm {r : Reservation} {x : TlmSlot} (hp : s.producers[p]? = some (.sawEmpty r))
    (hx : s.slots[tlmIndex r.h]? = some x) (hnone : x.owner = none) :
    ((s.moveTo p (.filling r 0)).unclaimed ++ [r]).Perm s.unclaimed ∧
      (((s.moveTo p (.filling r 0)).updateSlot (tlmIndex r.h)
        fun x => { x with state := .claimed, owner := some r }).inRing).Perm (s.inRing ++ [r]) := by
  have hmove := unclaimed_move hp
    (show (s.moveTo p (.filling r 0)).producers = s.producers.set p (.filling r 0) from rfl)
  simp only [EmitPc.pending, Option.toList_none, List.append_nil, Option.toList_some] at hmove
  have hring := Pool.filterMap_modify hx
    (fun x => { x with state := TlmState.claimed, owner := some r }) (·.owner)
  simp only [hnone, Option.toList_none, List.append_nil, Option.toList_some] at hring
  exact ⟨hmove, hring⟩

/-- A producer whose slot is free gets it, or gives its reservation up. -/
theorem inOrder_claim (h : s.InOrder) {r : Reservation} (hp : s.producers[p]? = some (.sawEmpty r))
    (hok : s.ClaimsInTime (.producer p)) (hcounted : s'.Counted)
    (hstep : producerStep s p (.sawEmpty r) = some s') : s'.InOrder := by
  obtain ⟨x, hx, rfl⟩ := Option.map_eq_some_iff.mp hstep
  by_cases hempty : x.state = .empty
  · have hnear : r.number < s.drained + tlmRingSlots := by
      refine hok r (by rw [hp]; rfl) ?_
      rw [hx, Option.map_some, hempty]
    have hnone : x.owner = none := by
      have hslot := h.slot _ x hx
      rw [SlotOk, hempty] at hslot
      exact hslot
    obtain ⟨hmove, hring⟩ := claim_perm hp hx hnone
    rw [if_pos hempty] at hcounted ⊢
    refine h.of_subperm hcounted (List.Perm.subperm ?_) rfl rfl ?_
    · have hswap : (s.inRing ++ [r]).Perm ([r] ++ s.inRing) := List.perm_append_comm
      refine (List.Perm.append_left _ (hring.trans hswap)).trans ?_
      rw [← List.append_assoc]
      exact hmove.append_right _
    · intro r' hr'
      obtain hr' | hr' := List.mem_append.mp (hring.mem_iff.mp hr')
      · exact h.near r' hr'
      · rw [List.mem_singleton.mp hr']
        exact hnear
  · rw [if_neg hempty] at hcounted ⊢
    refine h.of_subperm hcounted (List.Perm.subperm ?_) rfl rfl h.near
    exact (unclaimed_same (c := .refused r) hp rfl rfl).append_right _

theorem length_inRing (s : Telemetry) : s.inRing.length = s.inSlots.length := by
  rw [inSlots, ← List.map_filterMap, List.length_map, inRing]

theorem inRing_updateSlot (s : Telemetry) {f : TlmSlot → TlmSlot}
    (hf : ∀ x, (f x).owner = x.owner) (i : Nat) : (s.updateSlot i f).inRing = s.inRing :=
  Pool.filterMap_modify_same hf i

/-- Writing the slot changes no reservation. -/
theorem inOrder_fill (h : s.InOrder) (hp : s.producers[p]? = some pc) (hpc : pc.pending = none)
    (hpc' : c.pending = none) {i : Nat} {f : TlmSlot → TlmSlot}
    (howner : ∀ x, (f x).owner = x.owner)
    (hcounted : ((s.moveTo p c).updateSlot i f).Counted) :
    ((s.moveTo p c).updateSlot i f).InOrder := by
  have hring : ((s.moveTo p c).updateSlot i f).inRing = s.inRing :=
    inRing_updateSlot (s.moveTo p c) howner i
  refine h.of_subperm hcounted (List.Perm.subperm ?_) rfl rfl ?_
  · rw [hring]
    exact (unclaimed_same hp rfl (by rw [hpc, hpc'])).append_right _
  · rw [hring]
    exact h.near

theorem inOrder_producer (h : s.InOrder) (hp : s.producers[p]? = some pc)
    (hok : s.ClaimsInTime (.producer p)) (hcounted : s'.Counted)
    (hstep : producerStep s p pc = some s') : s'.InOrder := by
  cases pc with
  | idle => contradiction
  | numbered e => exact inOrder_reserve h hp hcounted hstep
  | reserved r =>
      obtain ⟨x, hx, rfl⟩ := Option.map_eq_some_iff.mp hstep
      refine h.of_subperm hcounted (List.Perm.subperm ?_) rfl rfl h.near
      refine (unclaimed_same hp rfl ?_).append_right _
      split <;> rfl
  | sawEmpty r => exact inOrder_claim h hp hok hcounted hstep
  | refused r =>
      obtain rfl := Option.some.inj hstep
      refine h.of_subperm hcounted ?_ rfl rfl h.near
      have hmove := unclaimed_move hp
        (show (s.moveTo p .idle).producers = s.producers.set p .idle from rfl)
      simp only [EmitPc.pending, Option.toList_none, List.append_nil, Option.toList_some] at hmove
      refine (List.subperm_append_right _).mpr ?_
      exact (List.sublist_append_left _ _).subperm.trans hmove.subperm
  | filling r k =>
      simp only [producerStep] at hstep
      split at hstep
      all_goals
        obtain rfl := Option.some.inj hstep
        exact inOrder_fill h hp rfl rfl (fun _ => rfl) hcounted
  | sized r =>
      obtain rfl := Option.some.inj hstep
      exact inOrder_fill h hp rfl rfl (fun _ => rfl) hcounted

/-- The event at the tail is the one with the least number. -/
theorem InOrder.number_at_tail (h : s.InOrder) {x : TlmSlot} {r : Reservation}
    (hrec : s.writer.recycles = false) (hx : s.slots[tlmIndex s.tail]? = some x)
    (howner : x.owner = some r) : r.number = s.handed.length := by
  have hring := mem_inRing hx howner
  have hmem : r ∈ s.unclaimed ++ s.inRing := List.mem_append_right _ hring
  have hold := drained_of_not_recycling hrec
  have hidx := h.place hx howner
  rw [h.tail, (h.numbers r hmem).1, tlmIndex_ofNat, tlmIndex_ofNat, hold] at hidx
  have hnear := h.near r hring
  rw [hold] at hnear
  exact (eq_of_mod_eq (Nat.le_refl _) (by simp [tlmRingSlots]) (h.ahead r hmem) hnear hidx).symm

/-- What handing a line over does to the reservations. -/
theorem handOver_perm {x : TlmSlot} {r : Reservation} (hx : s.slots[tlmIndex s.tail]? = some x)
    (howner : x.owner = some r) (hproducers : s'.producers = s.producers)
    (hslots : s'.slots = s.slots.modify (tlmIndex s.tail) ({ · with owner := none })) :
    (s'.inRing ++ [r]).Perm s.inRing ∧
      (r :: (s'.unclaimed ++ s'.inRing)).Perm (s.unclaimed ++ s.inRing) := by
  have hrest := Pool.filterMap_modify hx (fun x => { x with owner := none }) (·.owner)
  simp only [howner, Option.toList_some, Option.toList_none, List.append_nil] at hrest
  have hring : (s'.inRing ++ [r]).Perm s.inRing := by
    rw [inRing, hslots]
    exact hrest
  refine ⟨hring, ?_⟩
  rw [unclaimed, hproducers, ← unclaimed]
  refine List.perm_middle.symm.trans (List.Perm.append_left _ ?_)
  exact (List.perm_append_singleton r _).symm.trans hring

theorem inOrder_handOver (h : s.InOrder) {head : UInt32} {len : Nat} {got : List UInt8} {x : TlmSlot}
    {r : Reservation} (hw : s.writer = .reading head len got)
    (hx : s.slots[tlmIndex s.tail]? = some x) (howner : x.owner = some r)
    (hcounted : Counted { s.updateSlot (tlmIndex s.tail) ({ · with owner := none }) with
      sink := s.sink ++ [.ring (some r) got]
      writer := .written head }) :
    InOrder { s.updateSlot (tlmIndex s.tail) ({ · with owner := none }) with
      sink := s.sink ++ [.ring (some r) got]
      writer := .written head } := by
  have hrec : s.writer.recycles = false := by rw [hw]; rfl
  have hmem : r ∈ s.unclaimed ++ s.inRing := List.mem_append_right _ (mem_inRing hx howner)
  have hemit := (h.numbers r hmem).2
  have hnext := h.number_at_tail hrec hx howner
  generalize hs' : ({ s.updateSlot (tlmIndex s.tail) ({ · with owner := none }) with
      sink := s.sink ++ [.ring (some r) got]
      writer := .written head } : Telemetry) = s' at hcounted ⊢
  have hhanded : s'.handed = s.handed ++ [r.emit] := handed_append (by rw [← hs'])
  have hdrained : s'.drained = s.drained := by
    rw [drained, hhanded, ← hs', drained_of_not_recycling hrec, List.length_append]
    rfl
  have hres : s'.reservations = s.reservations := by rw [← hs']; rfl
  have hproducers : s'.producers = s.producers := by rw [← hs']; rfl
  have hslots : s'.slots = s.slots.modify (tlmIndex s.tail) ({ · with owner := none }) := by
    rw [← hs']
    rfl
  obtain ⟨hring, hperm⟩ := handOver_perm hx howner hproducers hslots
  have hdistinct : (r.number :: s'.outstanding).Nodup :=
    (hperm.map Reservation.number).nodup_iff.mpr h.distinct
  have hsub : ∀ r' ∈ s'.unclaimed ++ s'.inRing, r' ∈ s.unclaimed ++ s.inRing :=
    fun r' hr' => hperm.mem_iff.mp (List.mem_cons_of_mem r hr')
  refine ⟨hcounted, ?_, ?_, (List.nodup_cons.mp hdistinct).2, ?_, ?_⟩
  · rw [hres]
    exact fun r' hr' => h.numbers r' (hsub r' hr')
  · intro r' hr'
    have hlow := h.ahead r' (hsub r' hr')
    have hne : r'.number ≠ r.number := fun heq =>
      (List.nodup_cons.mp hdistinct).1 (heq ▸ List.mem_map_of_mem hr')
    rw [hhanded, List.length_append, List.length_singleton]
    omega
  · rw [hdrained]
    intro r' hr'
    exact h.near r' (hring.mem_iff.mp (List.mem_append_left _ hr'))
  · rw [hhanded, hres, List.length_append, List.length_singleton, List.take_add_one, ← h.order,
      ← hnext, hemit]
    rfl

theorem inOrder_writer {due : Bool} (h : s.InOrder) (hcounted : s'.Counted)
    (hstep : writerStep s due s.writer = some s') : s'.InOrder := by
  obtain ⟨hproducers, -, -, hres, -⟩ := writerStep_frame hstep
  obtain ⟨head, len, got, x, r, hw, hx, hst, howner, rfl⟩ | ⟨head, hw, rfl⟩ |
    ⟨hrec, hrec', hslots, htail, hhanded, -⟩ := h.writer_cases hstep
  · rw [howner] at hcounted ⊢
    exact inOrder_handOver h hw hx howner hcounted
  · -- the slot given back has no owner any more
    have hring : inRing { s.updateSlot (tlmIndex s.tail) ({ · with state := .empty }) with
        tail := s.tail + 1
        writer := .draining head } = s.inRing :=
      inRing_updateSlot s (f := ({ · with state := .empty })) (fun _ => rfl) (tlmIndex s.tail)
    refine h.of_subperm hcounted (List.Perm.subperm ?_) rfl rfl ?_
    · rw [hring]
      exact List.Perm.refl _
    · rw [hring]
      exact fun r hr => Nat.lt_of_lt_of_le (h.near r hr) (Nat.add_le_add_right s.drained_le.1 _)
  · have hring : s'.inRing = s.inRing := by rw [inRing, hslots, inRing]
    have hdrained : s'.drained = s.drained := by
      rw [drained_of_not_recycling hrec, drained_of_not_recycling hrec', hhanded]
    refine h.of_subperm hcounted (List.Perm.subperm ?_) hres hhanded ?_
    · rw [unclaimed, hproducers, hring]
      exact List.Perm.refl _
    · rw [hring, hdrained]
      exact h.near

/-- What an emit leaves alone. -/
theorem emit_unclaimed (type fields : List UInt8) (ts : UInt64)
    (hp : s.producers[p]? = some .idle) :
    (tlmEmit s p type fields ts).unclaimed.Perm s.unclaimed := by
  unfold tlmEmit
  split
  · exact List.Perm.refl _
  · dsimp only
    split
    · exact List.Perm.refl _
    · exact unclaimed_same (c := .numbered ⟨type, fields, ts, s.seq + 1⟩) hp rfl rfl

theorem inOrder_step {op : TlmOp} (h : s.InOrder) (hok : s.ClaimsInTime op)
    (hstep : tlmStep s op = some s') : s'.InOrder := by
  have hcounted := counted_step h.toCounted hstep
  cases op with
  | emit p type fields ts =>
      obtain ⟨hp, rfl⟩ := tlmStep_emit hstep
      obtain ⟨hslots, -, -, -, -, -, hwriter, hsink, hres, -⟩ := tlmEmit_frame s p type fields ts
      have hring : (tlmEmit s p type fields ts).inRing = s.inRing := by rw [inRing, hslots, inRing]
      have hhanded : (tlmEmit s p type fields ts).handed = s.handed := by
        rw [handed, hsink, handed]
      refine h.of_subperm hcounted (List.Perm.subperm ?_) hres hhanded ?_
      · rw [hring]
        exact (emit_unclaimed type fields ts hp).append_right _
      · rw [hring, drained, hhanded, hwriter]
        exact h.near
  | producer p =>
      obtain ⟨pc, hp, hstep⟩ := Option.bind_eq_some_iff.mp hstep
      exact inOrder_producer h hp hok hcounted hstep
  | writer due => exact inOrder_writer h hcounted hstep
  | stop =>
      obtain rfl := Option.some.inj hstep
      exact ⟨hcounted, h.numbers, h.ahead, h.distinct, h.near, h.order⟩

/-! ## without a gap -/

/-- A producer's move within its call. -/
theorem Linear.of_move (h : s.Linear) (horder : s'.InOrder) (hp : s.producers[p]? = some pc)
    (hproducers : s'.producers = s.producers.set p c) (hsink : s'.sink = s.sink)
    (hwriter : s'.writer = s.writer)
    (hcomplete : s'.accepted.length + c.pending.toList.length + s.reservations.length =
      s.accepted.length + pc.pending.toList.length + s'.reservations.length)
    (hseen : ∀ r, c = .sawEmpty r → r.number < s.drained + tlmRingSlots)
    (hkept : ∀ r, c ≠ .refused r) : s'.Linear := by
  have hdrained : s'.drained = s.drained := by rw [drained, handed, hsink, hwriter, ← handed, drained]
  have hget : ∀ q, s'.producers[q]? = if p = q then some c else s.producers[q]? := by
    intro q
    rw [hproducers]
    exact getElem?_moveTo hp c q
  refine ⟨horder, ?_, ?_, ?_⟩
  · have hmove := (unclaimed_move hp hproducers).length_eq
    have hold := h.complete
    rw [List.length_append, List.length_append] at hmove
    omega
  · intro q r hq
    rw [hget] at hq
    rw [hdrained]
    split at hq
    · exact hseen r (Option.some.inj hq)
    · exact h.seen q r hq
  · intro q r hq
    rw [hget] at hq
    split at hq
    · exact hkept r (Option.some.inj hq)
    · exact h.kept q r hq

/-- A producer that looks in time finds its slot free, and gets it. -/
theorem linear_producer (h : s.Linear) (horder : s'.InOrder) (hp : s.producers[p]? = some pc)
    (hok : s.LooksInTime (.producer p)) (hstep : producerStep s p pc = some s') : s'.Linear := by
  cases pc with
  | idle => contradiction
  | numbered e =>
      obtain rfl := Option.some.inj hstep
      refine h.of_move (c := .reserved ⟨s.head, s.reservations.length, e⟩) horder hp rfl rfl rfl ?_
        (by simp) (by simp)
      simp [EmitPc.pending, moveTo]
      omega
  | reserved r =>
      have hnear : r.number < s.drained + tlmRingSlots := hok r (by rw [hp]; rfl)
      obtain ⟨x, hx, rfl⟩ := Option.map_eq_some_iff.mp hstep
      rw [if_pos (h.slot_empty hp rfl hnear hx)] at horder ⊢
      refine h.of_move (c := .sawEmpty r) horder hp rfl rfl rfl rfl ?_ (by simp)
      rintro r' hr'
      obtain rfl : r = r' := by simpa using hr'
      exact hnear
  | sawEmpty r =>
      obtain ⟨x, hx, rfl⟩ := Option.map_eq_some_iff.mp hstep
      rw [if_pos (h.slot_empty hp rfl (h.seen p r hp) hx)] at horder ⊢
      refine h.of_move (c := .filling r 0) horder hp rfl rfl rfl ?_ (by simp) (by simp)
      simp [EmitPc.pending, updateSlot, moveTo]
  | refused r => exact absurd hp (h.kept p r)
  | filling r k =>
      simp only [producerStep] at hstep
      split at hstep
      · obtain rfl := Option.some.inj hstep
        exact h.of_move (c := .filling r (k + 1)) horder hp rfl rfl rfl rfl (by simp) (by simp)
      · obtain rfl := Option.some.inj hstep
        exact h.of_move (c := .sized r) horder hp rfl rfl rfl rfl (by simp) (by simp)
  | sized r =>
      obtain rfl := Option.some.inj hstep
      exact h.of_move (c := .idle) horder hp rfl rfl rfl rfl (by simp) (by simp)

/-- The writer gives slots back, and never takes any. -/
theorem drained_mono {due : Bool} (h : s.Owned) (hstep : writerStep s due s.writer = some s') :
    s.drained ≤ s'.drained := by
  obtain ⟨head, len, got, x, r, hw, hx, hst, howner, rfl⟩ | ⟨head, hw, rfl⟩ |
    ⟨hrec, hrec', hslots, htail, hhanded, -⟩ := h.writer_cases hstep
  · refine Nat.le_trans s.drained_le.1 ?_
    simp [drained, handed, howner, TlmLine.emit, WriterPc.recycles]
  · exact s.drained_le.1
  · rw [drained_of_not_recycling hrec, drained_of_not_recycling hrec', hhanded]

theorem linear_step {op : TlmOp} (h : s.Linear) (hok : s.LooksInTime op)
    (hstep : tlmStep s op = some s') : s'.Linear := by
  -- what has been seen free in time is claimed in time
  have hclaims : s.ClaimsInTime op := by
    cases op with
    | producer p =>
        intro r hr _
        obtain ⟨pc, hp, hpc⟩ := Option.bind_eq_some_iff.mp hr
        cases pc with
        | sawEmpty r' =>
            obtain rfl := Option.some.inj hpc
            exact h.seen p r' hp
        | idle | numbered | reserved | refused | filling | sized => contradiction
    | emit | writer | stop => trivial
  have horder := inOrder_step h.toInOrder hclaims hstep
  cases op with
  | emit p type fields ts =>
      obtain ⟨hp, rfl⟩ := tlmStep_emit hstep
      revert horder
      unfold tlmEmit
      split
      · exact fun _ => h
      · dsimp only
        split
        · intro horder
          exact ⟨horder, h.complete, h.seen, h.kept⟩
        · intro horder
          exact h.of_move (c := .numbered ⟨type, fields, ts, s.seq + 1⟩) horder hp rfl rfl rfl rfl
            (by simp) (by simp)
  | producer p =>
      obtain ⟨pc, hp, hstep⟩ := Option.bind_eq_some_iff.mp hstep
      exact linear_producer h horder hp hok hstep
  | writer due =>
      obtain ⟨hproducers, -, -, hres, hacc, -⟩ := writerStep_frame hstep
      have hdrained := drained_mono h.toOwned hstep
      refine ⟨horder, ?_, ?_, ?_⟩
      · rw [hacc, hres, unclaimed, hproducers]
        exact h.complete
      · rw [hproducers]
        exact fun q r hq => Nat.lt_of_lt_of_le (h.seen q r hq) (Nat.add_le_add_right hdrained _)
      · rw [hproducers]
        exact h.kept
  | stop =>
      obtain rfl := Option.some.inj hstep
      exact ⟨horder, h.complete, h.seen, h.kept⟩

/-- What is outstanding are the numbers from the first not handed over to the last
reserved. -/
theorem Linear.outstanding_perm (h : s.Linear) : s.outstanding.Perm
    (List.range' s.handed.length (s.reservations.length - s.handed.length)) := by
  have hsub : s.outstanding ⊆
      List.range' s.handed.length (s.reservations.length - s.handed.length) := by
    intro n hn
    obtain ⟨r, hr, rfl⟩ := List.mem_map.mp hn
    obtain ⟨hlow, hhigh⟩ := h.number_mem hr
    rw [List.mem_range'_1]
    omega
  have haccepted := h.accepted.length_eq
  have hcomplete := h.complete
  rw [List.length_append, ← length_inRing] at haccepted
  refine (List.subperm_of_subset h.distinct hsub).perm_of_length_le ?_
  rw [List.length_range', Telemetry.outstanding, List.length_map, List.length_append]
  omega

/-! ## a pass of the writer -/

/-- No producer is between its reservation and the end of its call. -/
def AtRest (s : Telemetry) : Prop := ∀ pc ∈ s.producers, pc.pending = none ∧ pc.fills = none

instance (s : Telemetry) : Decidable s.AtRest :=
  inferInstanceAs (Decidable (∀ pc ∈ s.producers, pc.pending = none ∧ pc.fills = none))

/-- At rest, what is outstanding is in the slots. -/
theorem AtRest.unclaimed_nil (h : s.AtRest) : s.unclaimed = [] := by
  rw [unclaimed, List.filterMap_eq_nil_iff]
  exact fun pc hpc => (h pc hpc).1

/-- At rest a slot is EMPTY, or FILLED if it has an owner. -/
theorem Owned.state_at_rest (h : s.Owned) (hrest : s.AtRest) (hrec : s.writer.recycles = false)
    {i : Nat} {x : TlmSlot} (hx : s.slots[i]? = some x) :
    x.state = .empty ∧ x.owner = none ∨ x.state = .filled ∧ ∃ r, x.owner = some r := by
  have hok := h.slot i x hx
  unfold SlotOk at hok
  cases hst : x.state with
  | empty =>
      rw [hst] at hok
      exact .inl ⟨rfl, hok⟩
  | claimed =>
      rw [hst] at hok
      obtain ⟨p, pc, r, hp, hr, -⟩ := hok
      rw [(hrest pc (List.mem_of_getElem? hp)).2] at hr
      contradiction
  | filled =>
      rw [hst, hrec] at hok
      obtain ⟨r, howner, -⟩ | ⟨hfalse, -⟩ := hok
      · exact .inr ⟨rfl, r, howner⟩
      · contradiction

/-- At rest, every number outstanding has its event in the ring. -/
theorem Linear.exists_inRing (h : s.Linear) (hrest : s.AtRest) {n : Nat}
    (hlow : s.handed.length ≤ n) (hhigh : n < s.reservations.length) :
    ∃ r ∈ s.inRing, r.number = n := by
  have hmem : n ∈ s.outstanding := by
    rw [h.outstanding_perm.mem_iff, List.mem_range'_1]
    omega
  rw [Telemetry.outstanding, hrest.unclaimed_nil, List.nil_append] at hmem
  exact List.mem_map.mp hmem

/-- At rest, the slot at the tail is FILLED unless all has been handed over. -/
theorem Linear.filled_at_tail (h : s.Linear) (hrest : s.AtRest) (hrec : s.writer.recycles = false)
    (hlt : s.handed.length < s.reservations.length) :
    ∃ x, s.slots[tlmIndex s.tail]? = some x ∧ x.state = .filled := by
  obtain ⟨r, hr, hnum⟩ := h.exists_inRing hrest (Nat.le_refl _) hlt
  obtain ⟨x, hx, howner⟩ := List.mem_filterMap.mp hr
  obtain ⟨i, hi⟩ := List.mem_iff_getElem?.mp hx
  have hidx : i = tlmIndex s.tail := by
    rw [h.place hi howner, (h.numbers r (List.mem_append_right _ hr)).1, h.tail,
      drained_of_not_recycling hrec, hnum]
  rw [← hidx]
  refine ⟨x, hi, ?_⟩
  obtain ⟨-, hnone⟩ | ⟨hst, -⟩ := h.state_at_rest hrest hrec hi
  · rw [hnone] at howner
    contradiction
  · exact hst

/-- At rest, the cursors meet exactly when all has been handed over: the window
between them is not longer than the ring. -/
theorem Linear.tail_eq_head_iff (h : s.Linear) (hrest : s.AtRest)
    (hrec : s.writer.recycles = false) :
    s.tail = s.head ↔ s.handed.length = s.reservations.length := by
  rw [h.tail, h.head, drained_of_not_recycling hrec]
  refine ⟨fun heq => ?_, fun heq => by rw [heq]⟩
  refine ofNat_inj_of_lt h.behind ?_ heq
  obtain hdone | hlt := Nat.eq_or_lt_of_le h.behind
  · omega
  · obtain ⟨r, hr, hnum⟩ := h.exists_inRing hrest (Nat.le_sub_one_of_lt hlt) (by omega)
    have hnear := h.near r hr
    rw [drained_of_not_recycling hrec] at hnear
    simp only [tlmRingSlots] at hnear
    omega

end Telemetry

/-- A pass of the writer over the ring with nobody else moving, up to the end of
the inner loop. -/
inductive DrainPass : Telemetry → Telemetry → Prop
  | done {s : Telemetry} (h : s.writer = .clock) : DrainPass s s
  | step {s t s' : Telemetry} (h : s.writer ≠ .clock)
      (hstep : writerStep s false s.writer = some t) (hrest : DrainPass t s') : DrainPass s s'

/-- The writer is in such a pass, and goes up to `head`. -/
def WriterPc.DrainsTo (head : UInt32) : WriterPc → Prop
  | loadHead => True
  | draining h | found h | written h => h = head
  | reading h len _ => h = head ∧ len ≤ tlmSlotCap
  | _ => False

/-- How far it is from the end of its work on the slot at the tail. -/
def WriterPc.distance : WriterPc → Nat
  | loadHead => 1001
  | draining _ => 1000
  | found _ => 999
  | reading _ len got => 1 + (len - got.length)
  | _ => 0

namespace Telemetry

variable {s s' : Telemetry}

/-- How far a pass is from its end. -/
def distance (s : Telemetry) : Nat :=
  (s.reservations.length - s.drained) * 2000 + s.writer.distance

/-- In a pass over a ring at rest. -/
structure Draining (s : Telemetry) : Prop extends Linear s where
  atRest : s.AtRest
  drains : s.writer.DrainsTo s.head

/-- What a step of the writer leaves of a ring at rest. -/
theorem Draining.after {t : Telemetry} (h : s.Draining) (ht : writerStep s false s.writer = some t) :
    t.Linear ∧ t.AtRest ∧ t.head = s.head ∧ t.reservations = s.reservations := by
  obtain ⟨hproducers, hhead, -, hres, -⟩ := writerStep_frame ht
  have hok : s.LooksInTime (.writer false) := trivial
  refine ⟨linear_step h.toLinear hok ht, ?_, hhead, hres⟩
  rw [AtRest, hproducers]
  exact h.atRest

/-- A step that stays in the pass goes on with it. -/
theorem Draining.advance {t : Telemetry} (h : s.Draining)
    (ht : writerStep s false s.writer = some t) (hdrains : t.writer.DrainsTo s.head)
    (hlt : t.distance < s.distance) :
    t.reservations = s.reservations ∧
      (t.Draining ∧ t.distance < s.distance ∨
        t.writer = .clock ∧ t.tail = t.head ∧ t.Linear ∧ t.AtRest) := by
  obtain ⟨hlin, hrest, hhead, hres⟩ := h.after ht
  refine ⟨hres, .inl ⟨⟨hlin, hrest, ?_⟩, hlt⟩⟩
  rwa [hhead]

/-- Each step of the pass goes on with it, or ends it with the cursors equal. -/
theorem Draining.step (h : s.Draining) : s.writer ≠ .clock ∧
    ∃ t, writerStep s false s.writer = some t ∧ t.reservations = s.reservations ∧
      (t.Draining ∧ t.distance < s.distance ∨
        t.writer = .clock ∧ t.tail = t.head ∧ t.Linear ∧ t.AtRest) := by
  have hdrains := h.drains
  cases hw : s.writer with
  | loadHead =>
      refine ⟨by simp, _, rfl, h.advance (by rw [hw]; rfl) rfl ?_⟩
      simp [distance, drained, hw, WriterPc.distance, WriterPc.recycles, handed]
  | draining head =>
      rw [hw] at hdrains
      obtain rfl : head = s.head := hdrains
      have hrec : s.writer.recycles = false := by rw [hw]; rfl
      by_cases hdone : s.tail = s.head
      · have hstep : writerStep s false (.draining s.head) = some { s with writer := .clock } := by
          simp [writerStep, hdone]
        obtain ⟨hlin, hrest, -, -⟩ := h.after (by rw [hw]; exact hstep)
        exact ⟨by simp, _, hstep, rfl, .inr ⟨rfl, hdone, hlin, hrest⟩⟩
      · have hne : s.handed.length ≠ s.reservations.length := fun heq =>
          hdone ((h.tail_eq_head_iff h.atRest hrec).mpr heq)
        obtain ⟨x, hx, hst⟩ := h.filled_at_tail h.atRest hrec (Nat.lt_of_le_of_ne h.behind hne)
        have hstep : writerStep s false (.draining s.head) =
            some { s with writer := .found s.head } := by
          simp [writerStep, hdone, hx, hst]
        refine ⟨by simp, _, hstep, h.advance (by rw [hw]; exact hstep) rfl ?_⟩
        simp [distance, drained, hw, WriterPc.distance, WriterPc.recycles, handed]
  | found head =>
      rw [hw] at hdrains
      have hfits := h.writer
      rw [hw] at hfits
      obtain ⟨x, r, hx, hst, howner, hholds⟩ := hfits
      have hlen : x.len.toNat ≤ tlmSlotCap := by
        rw [hholds.1, ← hholds.2, List.length_take, x.bufSize]
        exact Nat.min_le_right _ _
      have hstep : writerStep s false (.found head) =
          some { s with writer := .reading head x.len.toNat [] } := by
        simp [writerStep, hx]
      refine ⟨by simp, _, hstep, h.advance (by rw [hw]; exact hstep) ⟨hdrains, hlen⟩ ?_⟩
      simp only [tlmSlotCap] at hlen
      simp [distance, drained, hw, WriterPc.distance, WriterPc.recycles, handed]
      omega
  | reading head len got =>
      rw [hw] at hdrains
      obtain ⟨hhead, hcap⟩ := hdrains
      obtain ⟨x, hx⟩ := exists_slot s s.tail
      by_cases hlt : got.length < len
      · have hlt' : got.length < x.buf.length := by
          rw [x.bufSize]
          exact Nat.lt_of_lt_of_le hlt hcap
        have hbyte := List.getElem?_eq_getElem hlt'
        have hstep : writerStep s false (.reading head len got) =
            some { s with writer := .reading head len (got ++ [x.buf[got.length]]) } := by
          simp [writerStep, hx, hlt, hbyte]
        refine ⟨by simp, _, hstep, h.advance (by rw [hw]; exact hstep) ⟨hhead, hcap⟩ ?_⟩
        simp [distance, drained, hw, WriterPc.distance, WriterPc.recycles, handed]
        omega
      · have hfits := h.writer
        rw [hw] at hfits
        obtain ⟨y, r, hy, hst, howner, -⟩ := hfits
        obtain rfl : x = y := Option.some.inj (hx.symm.trans hy)
        have hstep : writerStep s false (.reading head len got) =
            some { s.updateSlot (tlmIndex s.tail) ({ · with owner := none }) with
              sink := s.sink ++ [.ring x.owner got]
              writer := .written head } := by
          simp [writerStep, hx, hlt]
        refine ⟨by simp, _, hstep, h.advance (by rw [hw]; exact hstep) hhead ?_⟩
        simp [distance, drained, hw, WriterPc.distance, WriterPc.recycles, handed, howner,
          TlmLine.emit, updateSlot]
  | written head =>
      rw [hw] at hdrains
      have hpos := h.recycling (by rw [hw]; rfl)
      have hbehind := h.behind
      have hold : s.drained = s.handed.length - 1 := by
        rw [drained, hw]
        rfl
      refine ⟨by simp, _, rfl, h.advance (by rw [hw]; rfl) hdrains ?_⟩
      have hnew : drained { s.updateSlot (tlmIndex s.tail) ({ · with state := .empty }) with
          tail := s.tail + 1
          writer := .draining head } = s.handed.length := rfl
      rw [distance, distance, hnew, hold, hw]
      simp only [WriterPc.distance, updateSlot]
      omega
  | loopTest | clock | overflow | exchange | report | final | finalReport | exited =>
      rw [hw] at hdrains
      exact absurd hdrains (by simp [WriterPc.DrainsTo])

/-- A pass over a ring at rest comes to its end, with the cursors equal. -/
theorem Draining.exists_pass (h : s.Draining) : ∃ s', DrainPass s s' ∧ s'.writer = .clock ∧
    s'.tail = s'.head ∧ s'.reservations = s.reservations ∧ s'.Linear ∧ s'.AtRest := by
  generalize hn : s.distance = n
  induction n using Nat.strong_induction_on generalizing s with
  | _ n ih =>
      obtain ⟨hne, t, hstep, hres, ⟨hdraining, hlt⟩ | ⟨hclock, htail, hlin, hrest⟩⟩ := h.step
      · obtain ⟨s', hpass, hclock, htail, hres', hlin, hrest⟩ :=
          ih t.distance (hn ▸ hlt) hdraining rfl
        exact ⟨s', .step hne hstep hpass, hclock, htail, hres'.trans hres, hlin, hrest⟩
      · exact ⟨t, .step hne hstep (.done hclock), hclock, htail, hres, hlin, hrest⟩

/-- The events in the ring at rest, in the order of their reservations, are those
reserved and not handed over. -/
theorem Linear.exists_in_order (h : s.Linear) (hrest : s.AtRest) :
    ∃ filled : List Reservation, filled.Perm s.inRing ∧
      filled.Pairwise (fun r r' => r.number < r'.number) ∧
      filled.map (·.emit) = s.reservations.drop s.handed.length := by
  have hnums : (s.inRing.map Reservation.number).Perm
      (List.range' s.handed.length (s.reservations.length - s.handed.length)) := by
    have hout := h.outstanding_perm
    rwa [Telemetry.outstanding, hrest.unclaimed_nil, List.nil_append] at hout
  have hperm := List.mergeSort_perm s.inRing fun r r' => decide (r.number ≤ r'.number)
  have hsorted : (s.inRing.mergeSort fun r r' => decide (r.number ≤ r'.number)).Pairwise
      fun r r' => decide (r.number ≤ r'.number) = true := by
    refine List.pairwise_mergeSort (fun a b c => ?_) (fun a b => ?_) s.inRing
    · simp only [decide_eq_true_eq]
      exact Nat.le_trans
    · simpa using Nat.le_total a.number b.number
  generalize s.inRing.mergeSort (fun r r' => decide (r.number ≤ r'.number)) = filled at hperm hsorted
  -- sorted, the numbers are those from the first not handed over on
  have hrange : filled.map Reservation.number =
      List.range' s.handed.length (s.reservations.length - s.handed.length) := by
    refine List.Perm.eq_of_pairwise' (r := (· ≤ ·)) ?_ List.pairwise_le_range'
      ((hperm.map _).trans hnums)
    exact List.pairwise_map.mpr (hsorted.imp fun hle => of_decide_eq_true hle)
  refine ⟨filled, hperm, ?_, ?_⟩
  · have hlt := List.pairwise_lt_range' (s := s.handed.length)
      (n := s.reservations.length - s.handed.length)
    rw [← hrange] at hlt
    exact List.pairwise_map.mp hlt
  · rw [← filterMap_getElem?_range', ← hrange, List.filterMap_map, ← List.filterMap_eq_map]
    refine List.filterMap_congr fun r hr => ?_
    exact (h.numbers r (List.mem_append_right _ (hperm.mem_iff.mp hr))).2.symm

/-- What is promised of a pass: it hands over the events in the slots, in the
order of their reservations, and leaves the cursors equal and every slot
EMPTY. -/
def Drains (s : Telemetry) : Prop :=
  ∃ (s' : Telemetry) (filled : List Reservation), DrainPass s s' ∧ filled.Perm s.inRing ∧
    filled.Pairwise (fun r r' => r.number < r'.number) ∧
    s'.handed = s.handed ++ filled.map (·.emit) ∧ s'.tail = s'.head ∧
    ∀ x ∈ s'.slots, x.state = .empty

end Telemetry

/-- **The ring drains**, in every run in which each producer looks at its slot
while the writer is less than a lap behind: whenever no producer is between its
reservation and the end of its call, a pass of the writer does all it should. -/
theorem ring_drains (hasFile : Bool) (n : Nat) (old : List TlmSlot)
    (hsize : old.length = tlmRingSlots) (ops : List TlmOp) (s : Telemetry)
    (hlook : Run.Along tlmStep Telemetry.LooksInTime (.init hasFile n old hsize) ops)
    (hrun : Run.exec tlmStep (.init hasFile n old hsize) ops = some s) (hrest : s.AtRest)
    (hw : s.writer = .loadHead) : s.Drains := by
  have h : s.Linear :=
    Run.exec_invariant Telemetry.Linear (fun _ _ _ h hok => Telemetry.linear_step h hok)
      (Telemetry.linear_init hasFile n old hsize) hlook hrun
  have hdraining : s.Draining := ⟨h, hrest, by rw [hw]; trivial⟩
  obtain ⟨s', hpass, hclock, htail, hres, hlin, hrest'⟩ := hdraining.exists_pass
  obtain ⟨filled, hperm, hsorted, hemits⟩ := h.exists_in_order hrest
  have hrec : s'.writer.recycles = false := by rw [hclock]; rfl
  have hall := (hlin.tail_eq_head_iff hrest' hrec).mp htail
  refine ⟨s', filled, hpass, hperm, hsorted, ?_, htail, ?_⟩
  · have horder := hlin.order
    rw [hall, List.take_length, hres] at horder
    rw [horder, hemits]
    conv_lhs => rw [← List.take_append_drop s.handed.length s.reservations]
    rw [← h.order]
  · intro x hx
    obtain ⟨i, hi⟩ := List.mem_iff_getElem?.mp hx
    obtain ⟨hst, -⟩ | ⟨-, r, howner⟩ := hlin.state_at_rest hrest' hrec hi
    · exact hst
    · -- nothing is outstanding any more
      obtain ⟨hlow, hhigh⟩ := hlin.number_mem
        (List.mem_append_right _ (Telemetry.mem_inRing hi howner))
      omega

/-- Two producers, the second of which is the first to look. -/
def twoEventsRun : List TlmOp :=
  emitSteps 0 1 ++ emitSteps 1 39 ++ List.replicate 38 (.producer 0) ++ [.writer false]

theorem ring_drains_two_events :
    ∃ s, Run.exec tlmStep (.start 2) twoEventsRun = some s ∧ s.reservations.length = 2 ∧
      s.Drains := by
  have hrun : (Run.exec tlmStep (.start 2) twoEventsRun).map
      (fun s => (s.reservations.length, decide s.AtRest, s.writer)) = some (2, true, .loadHead) := by
    decide +kernel
  obtain ⟨s, hs, heq⟩ := Option.map_eq_some_iff.mp hrun
  obtain ⟨hlen, heq⟩ := Prod.mk.inj heq
  obtain ⟨hrest, hw⟩ := Prod.mk.inj heq
  exact ⟨s, hs, hlen, ring_drains true 2 (List.replicate tlmRingSlots .zero) List.length_replicate
    twoEventsRun s (by decide +kernel) hs (of_decide_eq_true hrest) hw⟩

end Vmc
