import Vmc.Core.EmitAccounts

/-!
# Vmc.Core.Shutdown

What `vmc_tlm_shutdown` leaves unsaid (`core/telemetry.c`).

Once the producers have stopped, every event that fit is in a line of the file,
in the count of an overflow line, or lost.  `Telemetry.lost` is how many are
lost, or bound to be: it never falls, and two kinds of step make it grow.  A
drop may turn the counter over; and the writer, when it finds `g_stop` at the
head of its loop, leaves for good, with whatever the slots hold.
-/

namespace Vmc

/-- The events an overflow line reports. -/
@[simp] def TlmLine.dropped : TlmLine → Nat
  | overflow _ dropped => dropped.toNat
  | _ => 0

/-- The bytes of a line from the ring. -/
def TlmLine.ringBytes : TlmLine → Option (List UInt8)
  | ring _ bytes => some bytes
  | _ => none

/-- What the writer has taken off the counter and not reported. -/
@[simp] def WriterPc.taken : WriterPc → Nat
  | report dropped => dropped.toNat
  | _ => 0

/-- The writer has left its loop. -/
@[simp] def WriterPc.ended : WriterPc → Bool
  | loopTest | loadHead | draining _ | found _ | reading _ _ _ | written _ | clock | overflow
  | exchange _ | report _ => false
  | final | finalReport _ | exited => true

namespace Telemetry

variable {s s' : Telemetry} {p : Nat} {pc c : EmitPc}

/-- The lines of the file that came through the ring. -/
def ringLines (s : Telemetry) : List (List UInt8) := s.sink.filterMap TlmLine.ringBytes

/-- Dropped events that a line reports. -/
def reported (s : Telemetry) : Nat := (s.sink.map TlmLine.dropped).sum

/-- Dropped events that the writer will still report. -/
def unreported (s : Telemetry) : Nat :=
  if s.writer = .exited then 0 else s.writer.taken + s.dropped.toNat

/-- Events that no line will tell of. -/
def lost (s : Telemetry) : Int :=
  s.drops.length + (if s.writer.ended then s.inSlots.length else 0) - s.reported - s.unreported

/-- `vmc_tlm_shutdown` is called after all producers have stopped emitting. -/
def StopsQuiet (s : Telemetry) : TlmOp → Prop
  | .emit _ _ _ _ => s.stop = false
  | .stop => ∀ pc ∈ s.producers, pc = .idle
  | _ => True

instance (s : Telemetry) : (op : TlmOp) → Decidable (s.StopsQuiet op)
  | .emit _ _ _ _ => inferInstanceAs (Decidable (s.stop = false))
  | .stop => inferInstanceAs (Decidable (∀ pc ∈ s.producers, pc = .idle))
  | .producer _ | .writer _ => .isTrue trivial

/-- A drop does not turn the counter over, and no slot is FILLED when the writer
finds `g_stop` at the head of its loop. -/
def LosesNone (s : Telemetry) : TlmOp → Prop
  | .producer p => s.producers[p]?.any EmitPc.drops = true → s.dropped + 1 ≠ 0
  | .writer _ => s.writer = .loopTest → s.stop = true → ∀ x ∈ s.slots, x.state ≠ .filled
  | _ => True

/-- Every event has one line, which is its own, or is in the count of an overflow
line. -/
def Reported (s : Telemetry) : Prop :=
  s.ringLines = s.handed.map Emit.line ∧
    ∃ dropped : List Emit, s.calls.Perm (s.handed ++ dropped) ∧ s.reported = dropped.length

/-- How the threads end. -/
structure Ending (s : Telemetry) : Prop extends Owned s where
  file : s.hasFile = true
  quiet : s.stop = true → ∀ pc ∈ s.producers, pc = .idle
  stopped : s.writer.ended = true → s.stop = true
  final : ∀ dropped, s.writer = .finalReport dropped → dropped = s.dropped

/-- What the ring gave to the file are the lines of the events handed over. -/
theorem Owned.ringLines_eq (h : s.Owned) : s.ringLines = s.handed.map Emit.line := by
  have hlines := h.lines
  rw [ringLines, handed]
  generalize s.sink = sink at hlines
  induction sink with
  | nil => rfl
  | cons line sink ih =>
      have hrest := ih fun source bytes hmem => hlines source bytes (List.mem_cons_of_mem _ hmem)
      cases line with
      | ring source bytes =>
          obtain ⟨r, rfl, rfl⟩ := hlines source bytes List.mem_cons_self
          simpa [TlmLine.ringBytes, TlmLine.emit] using hrest
      | sync | overflow => exact hrest

/-! ## what is lost, step by step -/

theorem ending_init (n : Nat) (old : List TlmSlot) (hsize : old.length = tlmRingSlots) :
    (init true n old hsize).Ending :=
  ⟨owned_init true n old hsize, rfl, by simp [init], by simp [init], by simp [init]⟩

/-- A producer counts drops only where it is refused. -/
theorem producerStep_drops (h : producerStep s p pc = some s') (hpc : pc.drops = false) :
    s'.drops = s.drops ∧ s'.dropped = s.dropped := by
  cases pc with
  | idle => contradiction
  | refused r => contradiction
  | numbered e | sized r =>
      obtain rfl := Option.some.inj h
      exact ⟨rfl, rfl⟩
  | reserved r =>
      obtain ⟨x, -, rfl⟩ := Option.map_eq_some_iff.mp h
      exact ⟨rfl, rfl⟩
  | sawEmpty r =>
      obtain ⟨x, -, rfl⟩ := Option.map_eq_some_iff.mp h
      split <;> exact ⟨rfl, rfl⟩
  | filling r k =>
      simp only [producerStep] at h
      split at h
      all_goals
        obtain rfl := Option.some.inj h
        exact ⟨rfl, rfl⟩

/-- With the producers idle, an event is in a slot exactly if the slot is FILLED. -/
theorem Owned.inSlots_nil_iff (h : s.Owned) (hidle : ∀ pc ∈ s.producers, pc = .idle)
    (hrec : s.writer.recycles = false) :
    s.inSlots = [] ↔ ∀ x ∈ s.slots, x.state ≠ .filled := by
  have hrest := atRest_of_idle hidle
  rw [inSlots, List.filterMap_eq_nil_iff]
  refine forall₂_congr fun x hx => ?_
  obtain ⟨i, hi⟩ := List.mem_iff_getElem?.mp hx
  obtain ⟨hst, howner⟩ | ⟨hst, r, howner⟩ := h.state_at_rest hrest hrec hi
  · rw [hst, howner]
    simp
  · rw [hst, howner]
    simp

/-- A step of a producer loses events only by turning the counter over. -/
theorem lost_producer (h : s.Ending) (hp : s.producers[p]? = some pc)
    (hstep : producerStep s p pc = some s') :
    s.lost ≤ s'.lost ∧ (s'.lost = s.lost ↔ s.LosesNone (.producer p)) := by
  obtain ⟨hwriter, -, hsink, -⟩ := producerStep_frame hstep
  have hrep : s'.reported = s.reported := by rw [reported, hsink, reported]
  have hended : s.writer.ended = false := by
    by_contra hended
    have hidle := h.quiet (h.stopped (by simpa using hended)) pc (List.mem_of_getElem? hp)
    rw [hidle] at hstep
    contradiction
  have hne : s.writer ≠ .exited := fun heq => by simp [heq] at hended
  have hlost : s'.lost - s'.drops.length + s'.dropped.toNat =
      s.lost - s.drops.length + s.dropped.toNat := by
    rw [lost, lost, hrep, unreported, unreported, hwriter, hended, if_neg hne, if_neg hne]
    push_cast
    omega
  rw [LosesNone, hp, Option.any_some]
  cases hdrops : pc.drops with
  | false =>
      obtain ⟨hd, hd'⟩ := producerStep_drops hstep hdrops
      rw [hd, hd'] at hlost
      refine ⟨by omega, iff_of_true (by omega) (by simp)⟩
  | true =>
      cases pc with
      | refused r =>
          obtain ⟨hd, hd'⟩ : s'.drops.length = s.drops.length + 1 ∧ s'.dropped = s.dropped + 1 := by
            obtain rfl := Option.some.inj hstep
            exact ⟨List.length_append, rfl⟩
          have hcount : (s.dropped + 1).toNat ≤ s.dropped.toNat + 1 := Nat.mod_le _ _
          rw [hd, hd'] at hlost
          refine ⟨by omega, ?_⟩
          rw [forall_prop_of_true rfl, add_one_ne_zero_iff]
          omega
      | idle | numbered | reserved | sawEmpty | filling | sized => contradiction

/-- Within its loop and after it, the writer loses nothing. -/
theorem lost_writer_same {due : Bool} (h : s.Ending) (hne : s.writer ≠ .loopTest)
    (hstep : writerStep s due s.writer = some s') : s'.lost = s.lost := by
  cases hw : s.writer with
  | loopTest => exact absurd hw hne
  | loadHead =>
      rw [hw] at hstep
      obtain rfl := Option.some.inj hstep
      simp [lost, unreported, reported, hw]
  | draining head =>
      rw [hw] at hstep
      simp only [writerStep] at hstep
      split at hstep
      · obtain rfl := Option.some.inj hstep
        simp [lost, unreported, reported, hw]
      · obtain ⟨x, -, rfl⟩ := Option.map_eq_some_iff.mp hstep
        split <;> simp [lost, unreported, reported, hw]
  | found head =>
      rw [hw] at hstep
      obtain ⟨x, -, rfl⟩ := Option.map_eq_some_iff.mp hstep
      simp [lost, unreported, reported, hw]
  | reading head len got =>
      rw [hw] at hstep
      obtain ⟨x, -, rfl⟩ := Option.map_eq_some_iff.mp hstep
      split <;> simp [lost, unreported, reported, hw, updateSlot]
  | written head =>
      rw [hw] at hstep
      obtain rfl := Option.some.inj hstep
      simp [lost, unreported, reported, hw, updateSlot]
  | clock =>
      rw [hw] at hstep
      obtain rfl := Option.some.inj hstep
      split <;> simp [lost, unreported, reported, hw]
  | overflow =>
      rw [hw] at hstep
      obtain rfl := Option.some.inj hstep
      split <;> simp [lost, unreported, reported, hw]
  | exchange dropped =>
      rw [hw] at hstep
      obtain rfl := Option.some.inj hstep
      split
      · next heq => simp [lost, unreported, reported, hw, heq]
      · simp [lost, unreported, reported, hw]
  | report dropped =>
      rw [hw] at hstep
      obtain rfl := Option.some.inj hstep
      simp [lost, unreported, reported, hw]
      omega
  | final =>
      rw [hw] at hstep
      obtain rfl := Option.some.inj hstep
      split
      · simp [lost, unreported, reported, hw, inSlots]
      · next hzero =>
        have hnone : s.dropped = 0 := by simpa using hzero
        simp [lost, unreported, reported, hw, inSlots, hnone]
  | finalReport dropped =>
      have heq := h.final dropped hw
      rw [hw] at hstep
      obtain rfl := Option.some.inj hstep
      simp [lost, unreported, reported, hw, heq,
        inSlots]
      omega
  | exited =>
      rw [hw] at hstep
      contradiction

/-- A step of the writer loses events only by leaving them in their slots. -/
theorem lost_writer {due : Bool} (h : s.Ending) (hstep : writerStep s due s.writer = some s') :
    s.lost ≤ s'.lost ∧ (s'.lost = s.lost ↔ s.LosesNone (.writer due)) := by
  by_cases hw : s.writer = .loopTest
  · rw [hw] at hstep
    obtain rfl := Option.some.inj hstep
    cases hstop : s.stop with
    | false =>
        refine ⟨?_, ?_⟩
        · simp [lost, unreported, reported, hw]
        · simp [lost, unreported, reported, hw, LosesNone, hstop]
    | true =>
        -- the writer leaves its loop, and what is in the slots is lost
        rw [LosesNone, forall_prop_of_true hw, forall_prop_of_true hstop,
          ← h.inSlots_nil_iff (h.quiet hstop) (by rw [hw]; rfl), ← List.length_eq_zero_iff]
        simp [lost, unreported, reported, hw, h.file, inSlots]
  · have hsame := lost_writer_same h hw hstep
    exact ⟨le_of_eq hsame.symm, iff_of_true hsame fun hw' => absurd hw' hw⟩

/-- Where the writer leaves its loop, and what it then reports. -/
theorem writerStep_ended {due : Bool} (hstep : writerStep s due s.writer = some s')
    (hended : s'.writer.ended = true) :
    (s.writer.ended = true ∨ s.stop = true) ∧
      ∀ dropped, s'.writer = .finalReport dropped → dropped = s'.dropped := by
  cases hw : s.writer with
  | loopTest =>
      rw [hw] at hstep
      obtain rfl := Option.some.inj hstep
      cases hstop : s.stop with
      | false => simp [hstop] at hended
      | true =>
          refine ⟨.inr rfl, fun dropped => ?_⟩
          cases s.hasFile <;> simp
  | final =>
      rw [hw] at hstep
      obtain rfl := Option.some.inj hstep
      refine ⟨.inl rfl, fun dropped hd => ?_⟩
      simp only [ite_eq_iff] at hd
      grind
  | finalReport dropped =>
      rw [hw] at hstep
      obtain rfl := Option.some.inj hstep
      exact ⟨.inl rfl, by simp⟩
  | draining head =>
      rw [hw] at hstep
      simp only [writerStep] at hstep
      split at hstep
      · obtain rfl := Option.some.inj hstep
        contradiction
      · obtain ⟨x, -, rfl⟩ := Option.map_eq_some_iff.mp hstep
        split at hended <;> contradiction
  | found head =>
      rw [hw] at hstep
      obtain ⟨x, -, rfl⟩ := Option.map_eq_some_iff.mp hstep
      contradiction
  | reading head len got =>
      rw [hw] at hstep
      obtain ⟨x, -, rfl⟩ := Option.map_eq_some_iff.mp hstep
      split at hended <;> contradiction
  | clock | overflow | exchange =>
      rw [hw] at hstep
      obtain rfl := Option.some.inj hstep
      split at hended <;> contradiction
  | loadHead | written | report =>
      rw [hw] at hstep
      obtain rfl := Option.some.inj hstep
      contradiction
  | exited =>
      rw [hw] at hstep
      contradiction

theorem ending_step {op : TlmOp} (h : s.Ending) (hquiet : s.StopsQuiet op)
    (hstep : tlmStep s op = some s') : s'.Ending := by
  have howned := owned_step h.toOwned hstep
  cases op with
  | emit p type fields ts =>
      obtain ⟨-, rfl⟩ := tlmStep_emit hstep
      obtain ⟨-, -, -, hdropped, hstop, hfile, hwriter, -⟩ := tlmEmit_frame s p type fields ts
      have hstop' : s.stop = false := hquiet
      refine ⟨howned, by rw [hfile, h.file], ?_, ?_, ?_⟩
      · rw [hstop, hstop']
        simp
      · rw [hwriter, hstop]
        exact h.stopped
      · rw [hwriter, hdropped]
        exact h.final
  | producer p =>
      obtain ⟨pc, hp, hstep⟩ := Option.bind_eq_some_iff.mp hstep
      obtain ⟨hwriter, -, -, -, -, hstop, hfile⟩ := producerStep_frame hstep
      have hstop' : s.stop ≠ true := by
        intro hstop'
        rw [h.quiet hstop' pc (List.mem_of_getElem? hp)] at hstep
        contradiction
      refine ⟨howned, by rw [hfile, h.file], ?_, ?_, ?_⟩
      · rw [hstop]
        exact fun heq => absurd heq hstop'
      · rw [hwriter, hstop]
        exact h.stopped
      · intro dropped hw
        rw [hwriter] at hw
        exact absurd (h.stopped (by rw [hw]; rfl)) hstop'
  | writer due =>
      obtain ⟨hproducers, -, -, -, -, -, hstop, hfile⟩ := writerStep_frame hstep
      refine ⟨howned, by rw [hfile, h.file], ?_, ?_, ?_⟩
      · rw [hstop, hproducers]
        exact h.quiet
      · intro hended
        rw [hstop]
        exact (writerStep_ended hstep hended).1.elim h.stopped id
      · intro dropped hw
        exact (writerStep_ended hstep (by rw [hw]; rfl)).2 dropped hw
  | stop =>
      obtain rfl := Option.some.inj hstep
      exact ⟨howned, h.file, fun _ => hquiet, fun _ => rfl, h.final⟩

theorem lost_step {op : TlmOp} (h : s.Ending) (hstep : tlmStep s op = some s') :
    s.lost ≤ s'.lost ∧ (s'.lost = s.lost ↔ s.LosesNone op) := by
  cases op with
  | emit p type fields ts =>
      obtain ⟨-, rfl⟩ := tlmStep_emit hstep
      obtain ⟨hslots, -, -, hdropped, -, -, hwriter, hsink, -, -, hdrops⟩ :=
        tlmEmit_frame s p type fields ts
      have hsame : (tlmEmit s p type fields ts).lost = s.lost := by
        rw [lost, lost, inSlots, inSlots, reported, reported, unreported, unreported, hslots, hdropped,
          hwriter, hsink, hdrops]
      exact ⟨le_of_eq hsame.symm, iff_of_true hsame trivial⟩
  | producer p =>
      obtain ⟨pc, hp, hstep⟩ := Option.bind_eq_some_iff.mp hstep
      exact lost_producer h hp hstep
  | writer due => exact lost_writer h hstep
  | stop =>
      obtain rfl := Option.some.inj hstep
      exact ⟨le_refl _, iff_of_true rfl trivial⟩

/-- At the end, where everything went. -/
theorem Ending.reported_iff (h : s.Ending) (haccounted : s.Accounted) (hend : s.writer = .exited) :
    s.Reported ↔ s.lost = 0 := by
  have hidle := h.quiet (h.stopped (by rw [hend]; rfl))
  have hcalls : s.calls.Perm (s.handed ++ (s.inSlots ++ s.drops)) := by
    have hcalls := haccounted.calls
    have hres := haccounted.reservations
    rw [fresh_of_idle hidle, List.append_nil] at hcalls
    rw [(atRest_of_idle hidle).unclaimed_nil, List.map_nil, List.append_nil] at hres
    rw [← List.append_assoc]
    exact hcalls.trans (hres.trans (h.accepted.append_right _))
  have hcount : s.lost = s.drops.length + s.inSlots.length - s.reported := by
    rw [lost, unreported, hend]
    simp
  constructor
  · rintro ⟨-, dropped, hperm, hrep⟩
    have hlen := hcalls.length_eq.symm.trans hperm.length_eq
    simp only [List.length_append] at hlen
    omega
  · intro hzero
    refine ⟨h.ringLines_eq, _, hcalls, ?_⟩
    rw [List.length_append]
    omega

end Telemetry

/-- **Nothing is lost silently**, exactly in the runs in which the writer finds no
slot FILLED when it finds `g_stop`, and the counter of drops does not turn
over: every event that fit is in one line of the file, or counted in one overflow
line. -/
theorem shutdown_reports_iff (n : Nat) (old : List TlmSlot) (hsize : old.length = tlmRingSlots)
    (ops : List TlmOp) (s : Telemetry)
    (hquiet : Run.Along tlmStep Telemetry.StopsQuiet (.init true n old hsize) ops)
    (hrun : Run.exec tlmStep (.init true n old hsize) ops = some s) (hend : s.writer = .exited) :
    s.Reported ↔ Run.Along tlmStep Telemetry.LosesNone (.init true n old hsize) ops := by
  have hending : s.Ending :=
    Run.exec_invariant Telemetry.Ending (fun _ _ _ h hok => Telemetry.ending_step h hok)
      (Telemetry.ending_init n old hsize) hquiet hrun
  have haccounted := Telemetry.accounted_run hrun
  obtain ⟨-, hiff⟩ := Run.along_iff_of_potential Telemetry.Ending Telemetry.lost
    (fun _ _ _ h hok hstep => ⟨Telemetry.ending_step h hok hstep, Telemetry.lost_step h hstep⟩)
    (Telemetry.ending_init n old hsize) hquiet hrun
  have hzero : (Telemetry.init true n old hsize).lost = 0 := rfl
  rw [hzero] at hiff
  exact (hending.reported_iff haccounted hend).trans hiff

/-- One event, handed over before the shutdown. -/
def drainedRun : List TlmOp :=
  emitSteps 0 39 ++ List.replicate 43 (.writer false) ++ [.stop] ++ List.replicate 2 (.writer false)

theorem shutdown_reports_iff_drained :
    ∃ s, Run.exec tlmStep (.start 1) drainedRun = some s ∧ s.calls.length = 1 ∧ s.Reported ∧
      Run.Along tlmStep Telemetry.LosesNone (.start 1) drainedRun := by
  have hrun : (Run.exec tlmStep (.start 1) drainedRun).map
      (fun s => (s.calls.length, decide (s.ringLines = s.handed.map Emit.line ∧ s.calls = s.handed),
        s.reported, s.writer)) = some (1, true, 0, .exited) := by decide +kernel
  obtain ⟨s, hs, heq⟩ := Option.map_eq_some_iff.mp hrun
  obtain ⟨hlen, heq⟩ := Prod.mk.inj heq
  obtain ⟨hhanded, heq⟩ := Prod.mk.inj heq
  obtain ⟨hrep, hw⟩ := Prod.mk.inj heq
  have hreported : s.Reported := by
    obtain ⟨hlines, hhanded⟩ := of_decide_eq_true hhanded
    refine ⟨hlines, [], ?_, hrep⟩
    rw [List.append_nil, hhanded]
  exact ⟨s, hs, hlen, hreported, (shutdown_reports_iff 1 (List.replicate tlmRingSlots .zero)
    List.length_replicate drainedRun s (by decide +kernel) hs hw).mp hreported⟩

/-- What is claimed of the shutdown. -/
def ShutdownReports : Prop :=
  ∀ (n : Nat) (old : List TlmSlot) (hsize : old.length = tlmRingSlots) (ops : List TlmOp)
    (s : Telemetry), Run.Along tlmStep Telemetry.StopsQuiet (.init true n old hsize) ops →
    Run.exec tlmStep (.init true n old hsize) ops = some s → s.writer = .exited → s.Reported

/-- One event, and the shutdown before the writer comes to it. -/
def abandonedRun : List TlmOp := emitSteps 0 39 ++ [.stop] ++ List.replicate 2 (.writer false)

/-- It fails when `g_stop` is set before the writer gets to the last event. -/
theorem shutdownReports_fails : ¬ ShutdownReports := by
  intro hclaim
  have hrun : (Run.exec tlmStep (.start 1) abandonedRun).map
      (fun s => (s.calls.length, s.handed.length, s.reported, s.writer)) = some (1, 0, 0, .exited) := by
    decide +kernel
  obtain ⟨s, hs, heq⟩ := Option.map_eq_some_iff.mp hrun
  obtain ⟨hcalls, heq⟩ := Prod.mk.inj heq
  obtain ⟨hhanded, heq⟩ := Prod.mk.inj heq
  obtain ⟨hrep, hw⟩ := Prod.mk.inj heq
  obtain ⟨-, dropped, hperm, hrep'⟩ := hclaim 1 (List.replicate tlmRingSlots .zero)
    List.length_replicate abandonedRun s (by decide +kernel) hs hw
  have hlen := hperm.length_eq
  rw [List.length_append] at hlen
  omega

end Vmc
