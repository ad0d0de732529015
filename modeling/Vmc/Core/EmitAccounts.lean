import Vmc.Core.RingOrder

/-!
# Vmc.Core.EmitAccounts

What becomes of every event (`core/telemetry.c`).

A call of `vmc_tlm_emit` whose line fits goes on to reserve an index, and then
either claims its slot or is dropped; what is claimed is handed to the sinks or
still in its slot (`Telemetry.Accounted`).

An event that is dropped leaves its index behind.  The writer's cursor counts
the lines handed over, so it can never again catch up with the producers'
cursor: from the first drop on, a pass over a ring at rest does not reach its
end (`not_drains_of_drop`).
-/

namespace Vmc

/-- The event of a producer that has not reserved an index. -/
def EmitPc.fresh : EmitPc → Option Emit
  | numbered e => some e
  | _ => none

/-- The producer is about to count its event as dropped. -/
def EmitPc.drops : EmitPc → Bool
  | refused _ => true
  | _ => false

/-- The counter does not turn over. -/
theorem add_one_ne_zero_iff (n : UInt64) : n + 1 ≠ 0 ↔ (n + 1).toNat = n.toNat + 1 := by
  have hlt := n.toNat_lt
  have hnew : (n + 1).toNat = (n.toNat + 1) % 2 ^ 64 := UInt64.toNat_add _ _
  rw [Ne, ← UInt64.toNat_inj, hnew]
  show ¬ (n.toNat + 1) % 2 ^ 64 = 0 ↔ _
  omega

namespace Telemetry

variable {s s' : Telemetry} {p : Nat} {pc c : EmitPc}

/-- Events numbered, without an index so far. -/
def fresh (s : Telemetry) : List Emit := s.producers.filterMap EmitPc.fresh

/-- Every event is somewhere. -/
structure Accounted (s : Telemetry) : Prop where
  calls : s.calls.Perm (s.reservations ++ s.fresh)
  reservations : s.reservations.Perm (s.accepted ++ s.drops ++ s.unclaimed.map (·.emit))

/-- What a move of a producer does to the events it carries. -/
theorem count_fresh (hp : s.producers[p]? = some pc)
    (hproducers : s'.producers = s.producers.set p c) (e : Emit) :
    s'.fresh.count e + pc.fresh.toList.count e = s.fresh.count e + c.fresh.toList.count e := by
  have hperm := (Pool.filterMap_set hp c EmitPc.fresh).count_eq e
  rw [List.count_append, List.count_append] at hperm
  rw [fresh, hproducers, fresh]
  exact hperm

theorem count_unclaimed (hp : s.producers[p]? = some pc)
    (hproducers : s'.producers = s.producers.set p c) (e : Emit) :
    (s'.unclaimed.map (·.emit)).count e + (pc.pending.map (·.emit)).toList.count e =
      (s.unclaimed.map (·.emit)).count e + (c.pending.map (·.emit)).toList.count e := by
  have hperm := ((unclaimed_move hp hproducers).map Reservation.emit).count_eq e
  simp only [List.map_append, List.count_append] at hperm
  rw [Option.toList_map, Option.toList_map]
  exact hperm

theorem fresh_of_idle (hidle : ∀ pc ∈ s.producers, pc = .idle) : s.fresh = [] := by
  rw [fresh, List.filterMap_eq_nil_iff]
  intro pc hpc
  rw [hidle pc hpc]
  rfl

theorem atRest_of_idle (hidle : ∀ pc ∈ s.producers, pc = .idle) : s.AtRest := by
  intro pc hpc
  rw [hidle pc hpc]
  exact ⟨rfl, rfl⟩

theorem accounted_init (hasFile : Bool) (n : Nat) (old : List TlmSlot)
    (hsize : old.length = tlmRingSlots) : (init hasFile n old hsize).Accounted := by
  have hidle : ∀ pc ∈ (init hasFile n old hsize).producers, pc = .idle :=
    fun pc hpc => List.eq_of_mem_replicate hpc
  constructor
  · rw [fresh_of_idle hidle]
    exact List.Perm.refl _
  · rw [(atRest_of_idle hidle).unclaimed_nil]
    exact List.Perm.refl _

/-- A producer moves on: the lists change by what it carried and carries. -/
theorem Accounted.of_move (h : s.Accounted) (hp : s.producers[p]? = some pc)
    (hproducers : s'.producers = s.producers.set p c)
    (hcalls : ∀ e, s'.calls.count e + s.reservations.count e + pc.fresh.toList.count e =
      s.calls.count e + s'.reservations.count e + c.fresh.toList.count e)
    (hres : ∀ e, s'.reservations.count e + s.accepted.count e + s.drops.count e +
        (pc.pending.map (·.emit)).toList.count e =
      s.reservations.count e + s'.accepted.count e + s'.drops.count e +
        (c.pending.map (·.emit)).toList.count e) : s'.Accounted := by
  constructor
  · refine List.perm_iff_count.mpr fun e => ?_
    have hold := h.calls.count_eq e
    have hfresh := count_fresh hp hproducers e
    have hnew := hcalls e
    rw [List.count_append] at hold ⊢
    omega
  · refine List.perm_iff_count.mpr fun e => ?_
    have hold := h.reservations.count_eq e
    have hunclaimed := count_unclaimed hp hproducers e
    have hnew := hres e
    rw [List.count_append, List.count_append] at hold ⊢
    omega

theorem accounted_producer (h : s.Accounted) (hp : s.producers[p]? = some pc)
    (hstep : producerStep s p pc = some s') : s'.Accounted := by
  cases pc with
  | idle => contradiction
  | numbered e =>
      obtain rfl := Option.some.inj hstep
      refine h.of_move hp rfl (fun e' => ?_) (fun e' => ?_)
      · simp [EmitPc.fresh, moveTo, List.count_append]
        omega
      · simp [EmitPc.pending, moveTo, List.count_append]
        omega
  | reserved r =>
      obtain ⟨x, -, rfl⟩ := Option.map_eq_some_iff.mp hstep
      split
      · exact h.of_move (c := .sawEmpty r) hp rfl (fun e => rfl) (fun e => rfl)
      · exact h.of_move (c := .refused r) hp rfl (fun e => rfl) (fun e => rfl)
  | sawEmpty r =>
      obtain ⟨x, -, rfl⟩ := Option.map_eq_some_iff.mp hstep
      split
      · refine h.of_move (c := .filling r 0) hp rfl (fun e => rfl) (fun e => ?_)
        simp [EmitPc.pending, updateSlot, moveTo, List.count_append]
        omega
      · exact h.of_move (c := .refused r) hp rfl (fun e => rfl) (fun e => rfl)
  | refused r =>
      obtain rfl := Option.some.inj hstep
      refine h.of_move (c := .idle) hp rfl (fun e => rfl) (fun e => ?_)
      simp [EmitPc.pending, moveTo, List.count_append]
      omega
  | filling r k =>
      simp only [producerStep] at hstep
      split at hstep
      · obtain rfl := Option.some.inj hstep
        exact h.of_move (c := .filling r (k + 1)) hp rfl (fun e => rfl) (fun e => rfl)
      · obtain rfl := Option.some.inj hstep
        exact h.of_move (c := .sized r) hp rfl (fun e => rfl) (fun e => rfl)
  | sized r =>
      obtain rfl := Option.some.inj hstep
      exact h.of_move (c := .idle) hp rfl (fun e => rfl) (fun e => rfl)

theorem accounted_step {op : TlmOp} (h : s.Accounted) (hstep : tlmStep s op = some s') :
    s'.Accounted := by
  cases op with
  | emit p type fields ts =>
      obtain ⟨hp, rfl⟩ := tlmStep_emit hstep
      unfold tlmEmit
      split
      · exact h
      · dsimp only
        split
        · exact ⟨h.calls, h.reservations⟩
        · refine h.of_move (c := .numbered ⟨type, fields, ts, s.seq + 1⟩) hp rfl (fun e => ?_)
            (fun e => rfl)
          simp [EmitPc.fresh, moveTo, List.count_append]
          omega
  | producer p =>
      obtain ⟨pc, hp, hstep⟩ := Option.bind_eq_some_iff.mp hstep
      exact accounted_producer h hp hstep
  | writer due =>
      obtain ⟨hproducers, -, hcalls, hres, hacc, hdrops, -⟩ := writerStep_frame hstep
      constructor
      · rw [hcalls, hres, fresh, hproducers]
        exact h.calls
      · rw [hres, hacc, hdrops, unclaimed, hproducers]
        exact h.reservations
  | stop =>
      obtain rfl := Option.some.inj hstep
      exact ⟨h.calls, h.reservations⟩

theorem accounted_run {hasFile : Bool} {n : Nat} {old : List TlmSlot}
    {hsize : old.length = tlmRingSlots} {ops : List TlmOp}
    (hrun : Run.exec tlmStep (.init hasFile n old hsize) ops = some s) : s.Accounted :=
  Run.exec_invariant_true Accounted (fun _ _ _ => accounted_step)
    (accounted_init hasFile n old hsize) hrun

/-- There are no more events in the slots than slots. -/
theorem length_inSlots_le (s : Telemetry) : s.inSlots.length ≤ tlmRingSlots :=
  s.slotsSize ▸ List.length_filterMap_le _ _

end Telemetry

/-! ## after a drop -/

/-- What a pass leaves alone. -/
theorem DrainPass.frame {s s' : Telemetry} (hpass : DrainPass s s') (h : s.Counted) :
    s'.Counted ∧ s'.writer = .clock ∧ s'.reservations = s.reservations ∧
      s'.accepted = s.accepted := by
  induction hpass with
  | done hclock => exact ⟨h, hclock, rfl, rfl⟩
  | step _ hstep _ ih =>
      obtain ⟨-, -, -, hres, hacc, -⟩ := writerStep_frame hstep
      have hcounted := Telemetry.counted_step h (show tlmStep _ (.writer false) = some _ from hstep)
      obtain ⟨h', hclock, hres', hacc'⟩ := ih hcounted
      exact ⟨h', hclock, hres'.trans hres, hacc'.trans hacc⟩

/-- **A drop strands the ring**: at rest there are then more indices reserved than
events, and a pass does not bring the cursors together (unless so many are
dropped that the cursor comes round). -/
theorem not_drains_of_drop (hasFile : Bool) (n : Nat) (old : List TlmSlot)
    (hsize : old.length = tlmRingSlots) (ops : List TlmOp) (s : Telemetry)
    (hrun : Run.exec tlmStep (.init hasFile n old hsize) ops = some s) (hrest : s.AtRest)
    (hdrop : s.drops ≠ []) (hfew : s.drops.length + tlmRingSlots < 2 ^ 32) : ¬ s.Drains := by
  rintro ⟨s', filled, hpass, -, -, -, htail, -⟩
  have hcounted : s.Counted :=
    Run.exec_invariant_true Telemetry.Counted (fun _ _ _ => Telemetry.counted_step)
      (Telemetry.counted_init hasFile n old hsize) hrun
  have haccounted := Telemetry.accounted_run hrun
  have hsplit := haccounted.reservations.length_eq
  rw [hrest.unclaimed_nil, List.map_nil, List.append_nil, List.length_append] at hsplit
  obtain ⟨hcounted', hclock, hres, hacc⟩ := hpass.frame hcounted
  have haccepted := hcounted'.accepted.length_eq
  rw [List.length_append, hacc] at haccepted
  have hring := s'.length_inSlots_le
  have hpos := List.length_pos_iff.mpr hdrop
  rw [hcounted'.tail, hcounted'.head, hres,
    Telemetry.drained_of_not_recycling (by rw [hclock]; rfl)] at htail
  have heq := ofNat_inj_of_lt (by omega) (by omega) htail
  omega

/-! ## a full ring -/

/-- What the envelope adds to an event: at most the two numbers in full. -/
theorem Emit.length_line_le (e : Emit) : e.line.length ≤ e.type.length + e.fields.length + 63 := by
  have hdigits : ∀ v : UInt64, (Digits.print 10 v.toNat).length ≤ 20 := fun v =>
    Digits.length_print_le (by decide) (by decide) (Nat.lt_trans v.toNat_lt (by decide))
  have hts := hdigits e.ts
  have hseq := hdigits e.seq
  have hplain : (Bytes.ascii "\x7b\"t\":\"").length + (Bytes.ascii "\",\"ts\":").length +
      (Bytes.ascii ",\"seq\":").length + (Bytes.ascii ",").length +
      (Bytes.ascii "\x7d\n").length = 23 := by decide +kernel
  simp only [Emit.line, List.length_append]
  omega

/-- How far a call is from its end. -/
def EmitPc.distance : EmitPc → Nat
  | idle => 0
  | numbered _ => 1000
  | reserved _ => 999
  | sawEmpty _ => 998
  | refused _ => 1
  | filling r k => 2 + (r.emit.line.length - k)
  | sized _ => 1

/-- The only producer is in time with its slot, or will be. -/
def EmitPc.InTime (s : Telemetry) : EmitPc → Prop
  | numbered _ => s.reservations.length < s.drained + tlmRingSlots
  | reserved r => r.number < s.drained + tlmRingSlots
  | _ => True

namespace Telemetry

variable {s s' : Telemetry} {pc : EmitPc}

/-- A producer alone and in time goes on with its call. -/
theorem Linear.call_step (h : s.Linear) (hp : s.producers = [pc]) (hpc : pc ≠ .idle)
    (htime : pc.InTime s) :
    ∃ t c, producerStep s 0 pc = some t ∧ t.Linear ∧ t.producers = [c] ∧
      c.distance < pc.distance ∧ c.InTime t ∧
      t.reservations.length + c.fresh.toList.length =
        s.reservations.length + pc.fresh.toList.length := by
  have hget : s.producers[0]? = some pc := by rw [hp]; rfl
  have hfits := h.producers 0 pc hget
  have hstep : ∀ t, s.LooksInTime (.producer 0) → producerStep s 0 pc = some t → t.Linear :=
    fun t hok ht => linear_step h hok (by rw [tlmStep, hget]; exact ht)
  have hother : pc.looks = none → s.LooksInTime (.producer 0) := by
    intro hlooks r hr
    rw [hget, Option.bind_some, hlooks] at hr
    contradiction
  cases pc with
  | idle => exact absurd rfl hpc
  | numbered e =>
      refine ⟨_, .reserved ⟨s.head, s.reservations.length, e⟩, rfl, hstep _ (hother rfl) rfl, ?_, ?_,
        htime, ?_⟩
      · simp [moveTo, hp]
      · simp [EmitPc.distance]
      · simp [EmitPc.fresh]
  | reserved r =>
      obtain ⟨x, hx⟩ := exists_slot s r.h
      have hempty := h.slot_empty hget rfl htime hx
      have heq : producerStep s 0 (.reserved r) = some (s.moveTo 0 (.sawEmpty r)) := by
        simp [producerStep, hx, hempty]
      refine ⟨_, .sawEmpty r, heq, hstep _ ?_ heq, ?_, ?_, trivial, rfl⟩
      · intro r' hr'
        obtain rfl : r = r' := by simpa [hget, EmitPc.looks] using hr'
        exact htime
      · simp [moveTo, hp]
      · simp [EmitPc.distance]
  | sawEmpty r =>
      obtain ⟨x, hx⟩ := exists_slot s r.h
      have hempty := h.slot_empty hget rfl (h.seen 0 r hget) hx
      have hlen : r.emit.line.length < tlmSlotCap := hfits
      have heq : producerStep s 0 (.sawEmpty r) =
          some { (s.moveTo 0 (.filling r 0)).updateSlot (tlmIndex r.h)
            fun x => { x with state := .claimed, owner := some r } with
            accepted := s.accepted ++ [r.emit] } := by
        simp [producerStep, hx, hempty]
      refine ⟨_, .filling r 0, heq, hstep _ (hother rfl) heq, ?_, ?_, trivial, rfl⟩
      · simp [updateSlot, moveTo, hp]
      · simp only [EmitPc.distance, tlmSlotCap] at hlen ⊢
        omega
  | refused r => exact absurd hget (h.kept 0 r)
  | filling r k =>
      obtain ⟨-, x, -, -, -, hk, -⟩ := hfits
      cases hb : r.emit.line[k]? with
      | some b =>
          have hlt := (List.getElem?_eq_some_iff.mp hb).1
          have heq : producerStep s 0 (.filling r k) =
              some ((s.moveTo 0 (.filling r (k + 1))).updateSlot (tlmIndex r.h) (·.write k b)) := by
            simp [producerStep, hb]
          refine ⟨_, .filling r (k + 1), heq, hstep _ (hother rfl) heq, ?_, ?_, trivial, rfl⟩
          · simp [updateSlot, moveTo, hp]
          · simp only [EmitPc.distance]
            omega
      | none =>
          have heq : producerStep s 0 (.filling r k) =
              some ((s.moveTo 0 (.sized r)).updateSlot (tlmIndex r.h)
                fun x => { x with len := UInt16.ofNat r.emit.line.length }) := by
            simp [producerStep, hb]
          refine ⟨_, .sized r, heq, hstep _ (hother rfl) heq, ?_, ?_, trivial, rfl⟩
          · simp [updateSlot, moveTo, hp]
          · simp only [EmitPc.distance]
            omega
  | sized r =>
      refine ⟨_, .idle, rfl, hstep _ (hother rfl) rfl, ?_, ?_, trivial, rfl⟩
      · simp [updateSlot, moveTo, hp]
      · simp [EmitPc.distance]

/-- It ends its call. -/
theorem Linear.exists_end (h : s.Linear) (hp : s.producers = [pc]) (htime : pc.InTime s) :
    ∃ ops s', Run.exec tlmStep s ops = some s' ∧ s'.Linear ∧ s'.producers = [.idle] ∧
      s'.reservations.length = s.reservations.length + pc.fresh.toList.length ∧
      s'.writer = s.writer ∧ s'.sink = s.sink ∧ s'.stop = s.stop := by
  generalize hn : pc.distance = n
  induction n using Nat.strong_induction_on generalizing s pc with
  | _ n ih =>
      by_cases hidle : pc = .idle
      · exact ⟨[], s, rfl, h, by rw [hp, hidle], by rw [hidle]; rfl, rfl, rfl, rfl⟩
      · obtain ⟨t, c, hstep, hlin, hp', hlt, htime', hres⟩ := h.call_step hp hidle htime
        obtain ⟨hwriter, -, hsink, -, -, hstop, -⟩ := producerStep_frame hstep
        obtain ⟨ops, s', hrun, hlin', hidle', hres', hwriter', hsink', hstop'⟩ :=
          ih c.distance (hn ▸ hlt) hlin hp' htime' rfl
        refine ⟨.producer 0 :: ops, s', ?_, hlin', hidle', hres'.trans hres, hwriter'.trans hwriter,
          hsink'.trans hsink, hstop'.trans hstop⟩
        refine (Run.exec_cons_eq_some tlmStep).mpr ⟨t, ?_, hrun⟩
        rw [tlmStep, hp]
        exact hstep

/-- A call of the only producer, with a short event. -/
theorem Linear.exists_call (h : s.Linear) (hp : s.producers = [.idle]) :
    ∃ e t, Run.exec tlmStep s (emitSteps 0 0) = some t ∧ t.Linear ∧ t.producers = [.numbered e] ∧
      t.reservations = s.reservations ∧ t.slots = s.slots ∧ t.writer = s.writer ∧
      t.sink = s.sink ∧ t.stop = s.stop ∧ t.drops = s.drops := by
  obtain ⟨hslots, -, -, -, hstop, -, hwriter, hsink, hres, -, hdrops⟩ :=
    tlmEmit_frame s 0 (Bytes.ascii "eos") (Bytes.ascii "\"us\":1") 5
  have hget : s.producers[0]? = some .idle := by rw [hp]; rfl
  have hstep : tlmStep s (.emit 0 (Bytes.ascii "eos") (Bytes.ascii "\"us\":1") 5) =
      some (tlmEmit s 0 (Bytes.ascii "eos") (Bytes.ascii "\"us\":1") 5) := if_pos hget
  have hok : s.LooksInTime (.emit 0 (Bytes.ascii "eos") (Bytes.ascii "\"us\":1") 5) := trivial
  refine ⟨⟨Bytes.ascii "eos", Bytes.ascii "\"us\":1", 5, s.seq + 1⟩, _, ?_, linear_step h hok hstep,
    ?_, hres, hslots, hwriter, hsink, hstop, hdrops⟩
  · exact (Run.exec_cons_eq_some tlmStep).mpr ⟨_, hstep, rfl⟩
  · rw [tlmEmit, if_neg (by decide +kernel), if_neg, moveTo, hp]
    · rfl
    · refine Nat.not_le.mpr (Nat.lt_of_le_of_lt (Emit.length_line_le _) ?_)
      show (Bytes.ascii "eos").length + (Bytes.ascii "\"us\":1").length + 63 < tlmSlotCap
      decide +kernel

/-- In a run in which all looks are in time, nothing is dropped. -/
theorem Linear.drops_nil (h : s.Linear) (haccounted : s.Accounted) : s.drops = [] := by
  have hsplit := haccounted.reservations.length_eq
  have hcomplete := h.complete
  simp only [List.length_append, List.length_map] at hsplit
  exact List.length_eq_zero_iff.mp (by omega)

/-- The only producer can fill the ring while the writer is at the head of its
loop. -/
theorem exists_burst (m : Nat) (hm : m ≤ tlmRingSlots) :
    ∃ ops s, Run.exec tlmStep (.start 1) ops = some s ∧ s.Linear ∧ s.producers = [.idle] ∧
      s.reservations.length = m ∧ s.writer = .loopTest ∧ s.sink = [] ∧ s.stop = false := by
  induction m with
  | zero => exact ⟨[], .start 1, rfl, linear_init _ _ _ _, rfl, rfl, rfl, rfl, rfl⟩
  | succ m ih =>
      obtain ⟨ops, s, hrun, hlin, hp, hlen, hw, hsink, hstop⟩ := ih (by omega)
      obtain ⟨e, t, hcall, hlin', hp', hres, -, hw', hsink', hstop', -⟩ := hlin.exists_call hp
      have htime : (EmitPc.numbered e).InTime t := by
        rw [EmitPc.InTime, hres, hlen]
        omega
      obtain ⟨ops', s', hrun', hlin'', hp'', hlen', hw'', hsink'', hstop''⟩ :=
        hlin'.exists_end hp' htime
      refine ⟨ops ++ (emitSteps 0 0 ++ ops'), s', ?_, hlin'', hp'', ?_, ?_, ?_, ?_⟩
      · exact Run.exec_append_of tlmStep hrun (Run.exec_append_of tlmStep hcall hrun')
      · rw [hlen', hres, hlen]
        rfl
      · rw [hw'', hw', hw]
      · rw [hsink'', hsink', hsink]
      · rw [hstop'', hstop', hstop]

/-- With the ring full, the next event is dropped. -/
theorem exists_drop : ∃ ops s, Run.exec tlmStep (.start 1) ops = some s ∧ s.AtRest ∧
    s.writer = .loadHead ∧ s.drops.length = 1 := by
  obtain ⟨ops, s, hrun, hlin, hp, hlen, hw, hsink, hstop⟩ := exists_burst _ (Nat.le_refl _)
  obtain ⟨e, t, hcall, hlin', hp', hres, hslots, hw', -, hstop', hdrops⟩ := hlin.exists_call hp
  have haccounted := accounted_run hrun
  have hnone := hlin.drops_nil haccounted
  have hrest : s.AtRest := by
    rw [AtRest, hp]
    decide
  have hrec : s.writer.recycles = false := by rw [hw]; rfl
  have hhanded : s.handed = [] := by rw [handed, hsink]; rfl
  -- the slot of the first event, a lap before
  obtain ⟨r, hr, hnum⟩ := hlin.exists_inRing hrest (n := 0) (by rw [hhanded]; rfl)
    (by rw [hlen]; decide)
  obtain ⟨x, hx, howner⟩ := List.mem_filterMap.mp hr
  obtain ⟨i, hi⟩ := List.mem_iff_getElem?.mp hx
  have hidx : i = tlmIndex t.head := by
    rw [hlin.place hi howner, (hlin.numbers r (List.mem_append_right _ hr)).1, hnum, hlin'.head, hres,
      hlen]
    rfl
  have hst : x.state ≠ .empty := by
    obtain ⟨-, hnone⟩ | ⟨hst, -⟩ := hlin.state_at_rest hrest hrec hi
    · rw [hnone] at howner
      contradiction
    · rw [hst]
      decide
  have hslot : t.slots[tlmIndex t.head]? = some x := by rw [hslots, ← hidx, hi]
  have hdrop : Run.exec tlmStep t [.producer 0, .producer 0, .producer 0, .writer false] =
      some { t with
        head := t.head + 1
        reservations := t.reservations ++ [e]
        producers := [.idle]
        dropped := t.dropped + 1
        drops := t.drops ++ [e]
        writer := .loadHead } := by
    simp [Run.exec, tlmStep, producerStep, writerStep, moveTo, hp', hslot, hst, hw', hw, hstop', hstop]
  refine ⟨ops ++ (emitSteps 0 0 ++ [.producer 0, .producer 0, .producer 0, .writer false]), _,
    Run.exec_append_of tlmStep hrun (Run.exec_append_of tlmStep hcall hdrop), ?_, rfl, ?_⟩
  · simp [AtRest, EmitPc.pending, EmitPc.fills]
  · simp [hdrops, hnone]

end Telemetry

/-- What is claimed of the ring: at rest, a pass always drains it. -/
def RingDrains : Prop :=
  ∀ (hasFile : Bool) (n : Nat) (old : List TlmSlot) (hsize : old.length = tlmRingSlots)
    (ops : List TlmOp) (s : Telemetry), Run.exec tlmStep (.init hasFile n old hsize) ops = some s →
    s.AtRest → s.writer = .loadHead → s.Drains

/-- It fails once the ring has been full: one producer emits while the writer has
not come to its loop, until an event is dropped. -/
theorem ringDrains_fails : ¬ RingDrains := by
  intro hdrains
  obtain ⟨ops, s, hrun, hrest, hw, hdrop⟩ := Telemetry.exists_drop
  refine not_drains_of_drop true 1 _ List.length_replicate ops s hrun hrest ?_ ?_
    (hdrains true 1 _ List.length_replicate ops s hrun hrest hw)
  · exact List.length_pos_iff.mp (by omega)
  · rw [hdrop]
    decide

end Vmc
