import Mathlib.Data.List.ReduceOption
import Vmc.Client.DecodeWorker
import Vmc.Lib.CInt
import Vmc.Lib.Monitor
import Vmc.Lib.Ring

/-!
# Vmc.Client.PresentQueue

The queue between decode worker and present worker (`present_push`,
`present_pop` and the sweep of `dash_resync` in `apps/thinclient/main.c`): an
array of 128 entries behind a mutex, with one condition variable for each side.

`DecodeLoop` has it as a list.  Here it is the array, with the threads between
any two of their steps: `present_queue_fifo` says that it is that list, and that
a resync moves the deadline of every entry that is waiting and of no other;
`present_queue_wakes` that neither side sleeps while it could go on, or after it
was told to stop.
-/

namespace Vmc

open CInt

/-! ## data model -/

def vmcPresentQueueSize : Nat := 128

/-- `g_present_queue` and its indices. -/
structure PresentQueue where
  cells : List PresentEntry
  head : Nat
  tail : Nat
  count : Nat
deriving DecidableEq, Repr

/-- The globals at program start. -/
def PresentQueue.zero : PresentQueue :=
  ⟨List.replicate vmcPresentQueueSize ⟨some 0, 0, 0⟩, 0, 0, 0⟩

/-- The entries that are waiting. -/
def PresentQueue.contents (q : PresentQueue) : List PresentEntry :=
  Ring.items q.cells q.head q.count

/-- `dash_resync` on a deadline. -/
def shiftDeadline (deltaUs : Int) (deadlineUs : UInt64) : UInt64 :=
  let d := toInt64 (toInt64 deadlineUs.toNat + deltaUs)
  if d < 0 then 0 else UInt64.ofInt d

/-- `dash_resync` on one entry. -/
def PresentEntry.shift (deltaUs : Int) (e : PresentEntry) : PresentEntry :=
  if e.deadlineUs ≠ 0 then { e with deadlineUs := shiftDeadline deltaUs e.deadlineUs } else e

/-- `present_push`, past its wait. -/
def presentPush (q : PresentQueue) (e : PresentEntry) : PresentQueue :=
  { q with
    cells := q.cells.set q.tail e
    tail := (q.tail + 1) % vmcPresentQueueSize
    count := q.count + 1 }

/-- `present_pop`, past its wait. -/
def presentPop (q : PresentQueue) : Option PresentEntry × PresentQueue :=
  if q.count = 0 then (none, q)
  else (q.cells[q.head]?, { q with
    head := (q.head + 1) % vmcPresentQueueSize
    count := q.count - 1 })

/-- The sweep of `dash_resync`: over all cells, whether they are in use or not. -/
def presentShift (q : PresentQueue) (deltaUs : Int) : PresentQueue :=
  { q with cells := q.cells.map (·.shift deltaUs) }

/-! ## the threads -/

/-- Whoever takes `g_present_qmu`. -/
inductive PresentThread where
  | decodeWorker
  | presentWorker
  | reader
  | audioWorker
  | main
deriving DecidableEq, Repr

inductive PresentQueueOp where
  | push (e : PresentEntry)
  | pop
  | shift (caller : PresentThread) (deltaUs : Int)
deriving DecidableEq, Repr

/-- One of them on the array. -/
def PresentQueue.apply (q : PresentQueue) : PresentQueueOp → Option PresentEntry × PresentQueue
  | .push e => (none, presentPush q e)
  | .pop => presentPop q
  | .shift _ deltaUs => (none, presentShift q deltaUs)

/-- Whether it waits, unless `g_run` is cleared. -/
def PresentQueue.waits (q : PresentQueue) : PresentQueueOp → Bool
  | .push _ => decide (vmcPresentQueueBound ≤ q.count)
  | .pop => decide (q.count = 0)
  | .shift _ _ => false

/-- Whom it signals. -/
def PresentQueue.signals (q : PresentQueue) : PresentQueueOp → PresentThread → Bool
  | .push _, .presentWorker => true
  | .pop, .decodeWorker => decide (q.count ≠ 0)
  | _, _ => false

def PresentQueueOp.owner : PresentQueueOp → PresentThread
  | push _ => .decodeWorker
  | pop => .presentWorker
  | shift caller _ => caller

/-- A push wakes the present worker, and a pop the decode worker; nothing else
lets one of them go on. -/
theorem PresentQueue.signals_of_ready {q : PresentQueue} {w o : PresentQueueOp}
    (hwait : q.waits w = true) (hready : (q.apply o).2.waits w = false) :
    q.signals o w.owner = true := by
  cases w with
  | push e =>
      have hfull : vmcPresentQueueBound ≤ q.count := of_decide_eq_true hwait
      have hspace : ¬ vmcPresentQueueBound ≤ (q.apply o).2.count := of_decide_eq_false hready
      cases o with
      | push e' => exact absurd (hfull.trans (Nat.le_succ _)) hspace
      | shift caller deltaUs => exact absurd hfull hspace
      | pop =>
          refine decide_eq_true fun hzero => ?_
          rw [hzero] at hfull
          exact absurd hfull (by decide)
  | pop =>
      have hempty : q.count = 0 := of_decide_eq_true hwait
      have hsome : ¬ (q.apply o).2.count = 0 := of_decide_eq_false hready
      cases o with
      | push e => rfl
      | shift caller deltaUs => exact absurd hempty hsome
      | pop => exact absurd (by simp [apply, presentPop, hempty]) hsome
  | shift caller deltaUs => cases hwait

/-- The queue with its mutex and condition variables. -/
def presentMonitor :
    Monitor.Spec PresentThread PresentQueueOp PresentQueue (Option PresentEntry) where
  owner := PresentQueueOp.owner
  waits o q := q.waits o
  heeds _ := true
  body o q := q.apply o
  wakes o q := q.signals o
  ok _ := True
  keeps _ _ _ := trivial
  signals _ _ _ _ := PresentQueue.signals_of_ready

/-- The threads, before the first of them gets to the queue. -/
def presentStart : Monitor.State PresentThread PresentQueueOp PresentQueue (Option PresentEntry) :=
  .init PresentQueue.zero

/-! ## the queue as a list -/

/-- The queue as it is meant: entries leave in the order they came, and a resync
moves those that are waiting. -/
def fifoStep (t : List PresentEntry) : PresentQueueOp → Option PresentEntry × List PresentEntry
  | .push e => (none, t ++ [e])
  | .pop => (t.head?, t.tail)
  | .shift _ deltaUs => (none, t.map (·.shift deltaUs))

/-- The array holds the list. -/
structure PresentQueue.Holds (q : PresentQueue) (t : List PresentEntry) : Prop where
  size : q.cells.length = vmcPresentQueueSize
  head : q.head < vmcPresentQueueSize
  count : q.count ≤ vmcPresentQueueSize
  tail : q.tail = (q.head + q.count) % vmcPresentQueueSize
  contents : q.contents = t

theorem PresentQueue.holds_zero : zero.Holds [] where
  size := List.length_replicate
  head := by decide
  count := by decide
  tail := by decide
  contents := rfl

namespace PresentQueue

variable {q q' : PresentQueue} {t : List PresentEntry}

theorem Holds.length (h : q.Holds t) : t.length = q.count := by
  rw [← h.contents, PresentQueue.contents, Ring.length_items]
  rw [h.size]
  decide

theorem Holds.push (h : q.Holds t) (hspace : q.count < vmcPresentQueueSize) (e : PresentEntry) :
    (presentPush q e).Holds (t ++ [e]) where
  size := List.length_set.trans h.size
  head := h.head
  count := hspace
  tail := by
    simp only [presentPush]
    rw [h.tail, Nat.mod_add_mod]
    rfl
  contents := by
    rw [← h.size] at hspace
    have hitems := @Ring.items_set _ q.cells q.head q.count hspace e
    simp only [PresentQueue.contents, presentPush]
    rw [h.tail, ← h.size, hitems]
    exact congrArg (· ++ [e]) h.contents

/-- The first entry leaves. -/
theorem Holds.pop {e : PresentEntry} {rest : List PresentEntry} (h : q.Holds (e :: rest)) :
    (presentPop q).1 = some e ∧ (presentPop q).2.Holds rest := by
  have hlt : q.head < q.cells.length := by
    rw [h.size]
    exact h.head
  have hcell : q.cells[q.head % q.cells.length]? = some (q.cells.get ⟨q.head, hlt⟩) := by
    rw [Nat.mod_eq_of_lt hlt]
    exact List.getElem?_eq_getElem hlt
  have hn : q.count = rest.length + 1 := h.length.symm
  have hcontents := h.contents
  rw [PresentQueue.contents, hn, Ring.items_succ hcell] at hcontents
  obtain ⟨hfirst, hrest⟩ := List.cons.inj hcontents
  have hpop : presentPop q = (some e, { q with
      head := (q.head + 1) % vmcPresentQueueSize
      count := rest.length }) := by
    rw [Nat.mod_eq_of_lt hlt, hfirst] at hcell
    rw [presentPop, if_neg (by omega), hcell, hn, Nat.add_sub_cancel]
  have hle := h.count
  rw [hpop]
  refine ⟨rfl, h.size, Nat.mod_lt _ (by decide), ?_, ?_, ?_⟩
  · dsimp only
    omega
  · dsimp only
    rw [h.tail, Nat.mod_add_mod, hn]
    congr 1
    omega
  · rw [PresentQueue.contents]
    dsimp only
    rw [← h.size, Ring.items_mod, hrest]

theorem Holds.shift (h : q.Holds t) (deltaUs : Int) :
    (presentShift q deltaUs).Holds (t.map (·.shift deltaUs)) where
  size := (List.length_map _).trans h.size
  head := h.head
  count := h.count
  tail := h.tail
  contents := (Ring.items_map _ _ _ _).trans (congrArg _ h.contents)

/-- An operation that does not have to wait does to the array what it does to
the list. -/
theorem holds_apply {o : PresentQueueOp} {r : Option PresentEntry} (h : q.Holds t)
    (hop : presentMonitor.ready q o = some (r, q')) :
    ∃ t', some (fifoStep t o) = some (r, t') ∧ q'.Holds t' := by
  obtain ⟨hgo, heq⟩ := Option.ite_none_left_eq_some.mp hop
  obtain ⟨rfl, rfl⟩ := Prod.mk.inj (Option.some.inj heq)
  cases o with
  | push e => exact ⟨t ++ [e], rfl, h.push (not_le.mp fun hfull => hgo (decide_eq_true hfull)) e⟩
  | pop =>
      have hpos : q.count ≠ 0 := fun hzero => hgo (decide_eq_true hzero)
      cases t with
      | nil => exact absurd h.length.symm hpos
      | cons e rest =>
          obtain ⟨hfirst, hrest⟩ := h.pop
          exact ⟨rest, congrArg (fun r => some (r, rest)) hfirst.symm, hrest⟩
  | shift caller deltaUs => exact ⟨_, rfl, h.shift deltaUs⟩

end PresentQueue

/-! ## what goes through it -/

/-- What a resync leaves alone. -/
def PresentEntry.picture (e : PresentEntry) : Option Nat × Int := (e.bufIdx, e.ptsUs)

@[simp] theorem picture_shift (deltaUs : Int) (e : PresentEntry) :
    (e.shift deltaUs).picture = e.picture := by
  unfold PresentEntry.shift
  split <;> simp only [PresentEntry.picture]

/-- The entries pushed. -/
def pushedEntries (ops : List PresentQueueOp) : List PresentEntry :=
  ops.filterMap fun o =>
    match o with
    | .push e => some e
    | _ => none

/-- What left the list and what is in it is what was there and what was pushed,
in this order. -/
theorem fifo_pictures {ops : List PresentQueueOp} {t t' : List PresentEntry}
    {rs : List (Option PresentEntry)}
    (h : Run.play (fun t o => some (fifoStep t o)) t ops = some (rs, t')) :
    (rs.reduceOption ++ t').map (·.picture) =
      (t ++ pushedEntries ops).map (·.picture) := by
  induction ops generalizing t rs with
  | nil =>
      obtain ⟨rfl, rfl⟩ := Prod.mk.inj (Option.some.inj h)
      simp [pushedEntries]
  | cons o ops ih =>
      obtain ⟨⟨r, u⟩, hu, hmap⟩ := Option.bind_eq_some_iff.mp h
      obtain ⟨⟨rs', v⟩, hrest, heq⟩ := Option.map_eq_some_iff.mp hmap
      obtain ⟨rfl, rfl⟩ := Prod.mk.inj heq
      have hih := ih hrest
      have hstep := Option.some.inj hu
      cases o with
      | push e =>
          obtain ⟨rfl, rfl⟩ := Prod.mk.inj hstep
          simpa [pushedEntries] using hih
      | pop =>
          obtain ⟨rfl, rfl⟩ := Prod.mk.inj hstep
          cases t with
          | nil => simpa [pushedEntries] using hih
          | cons e t => simpa [pushedEntries] using hih
      | shift caller deltaUs =>
          obtain ⟨rfl, rfl⟩ := Prod.mk.inj hstep
          simpa [pushedEntries, Function.comp_def] using hih

/-- **The queue is a list.**  However the threads interleave, as long as `g_run`
is set: the array never holds more than 128 entries; what its operations return
is what they return on the list, where a resync moves the deadlines of those
that are waiting; and the pictures popped, with those waiting, are the pictures
pushed, in the same order, none lost and none twice. -/
theorem present_queue_fifo {es : List (Monitor.Event PresentThread PresentQueueOp)}
    {s : Monitor.State PresentThread PresentQueueOp PresentQueue (Option PresentEntry)}
    (h : Run.exec (Monitor.step presentMonitor) presentStart es = some s) (hrun : s.run = true) :
    s.shared.count ≤ vmcPresentQueueSize ∧
      Run.play (fun t o => some (fifoStep t o)) [] s.log = some (s.results, s.shared.contents) ∧
      (s.results.reduceOption ++ s.shared.contents).map (·.picture) =
        (pushedEntries s.log).map (·.picture) := by
  have hserial := Monitor.serial_exec h hrun
  obtain ⟨t, hplay, hholds⟩ := @Run.play_simulates _ _ _ _ presentMonitor.ready
    (fun t o => some (fifoStep t o)) PresentQueue.Holds
    (fun _ _ _ _ _ hR => PresentQueue.holds_apply hR) _ _ _ _ _ PresentQueue.holds_zero hserial
  rw [hholds.contents]
  exact ⟨hholds.count, hplay, fifo_pictures hplay⟩

/-- The present worker goes to sleep, an entry is pushed and, before the worker
is back, moved by a resync. -/
def wokenRun : List (Monitor.Event PresentThread PresentQueueOp) :=
  [.enter .pop, .test .presentWorker, .block .presentWorker, .enter (.push ⟨some 3, 100, 40⟩),
    .test .decodeWorker, .enter (.shift .audioWorker (-30)), .test .audioWorker,
    .relock .presentWorker, .test .presentWorker]

theorem wokenRun_ends :
    ∃ s, Run.exec (Monitor.step presentMonitor) presentStart wokenRun = some s ∧ s.run = true ∧
      s.results = [none, none, some ⟨some 3, 70, 40⟩] ∧ s.shared.count = 0 ∧
      pushedEntries s.log = [⟨some 3, 100, 40⟩] := by
  have hrun : (Run.exec (Monitor.step presentMonitor) presentStart wokenRun).map
      (fun s => (s.run, s.results, s.shared.count, pushedEntries s.log)) =
      some (true, [none, none, some ⟨some 3, 70, 40⟩], 0, [⟨some 3, 100, 40⟩]) := by
    decide +kernel
  obtain ⟨s, hs, heq⟩ := Option.map_eq_some_iff.mp hrun
  simp only [Prod.mk.injEq] at heq
  exact ⟨s, hs, heq⟩

theorem present_queue_fifo_woken :
    ∃ s, Run.exec (Monitor.step presentMonitor) presentStart wokenRun = some s ∧
      (s.results.reduceOption ++ s.shared.contents).map (·.picture) = [(some 3, 40)] := by
  obtain ⟨s, hs, hrun, -, -, hpushed⟩ := wokenRun_ends
  obtain ⟨-, -, hsame⟩ := present_queue_fifo hs hrun
  refine ⟨s, hs, hsame.trans ?_⟩
  rw [hpushed]
  rfl

/-- **No thread sleeps for nothing.**  In every reachable state: if the present
worker is blocked, the queue is empty; if the decode worker is, it is full, so
never both; once `g_run` was cleared and the broadcast made, nobody is blocked;
and a thread that is under way and not blocked can go on, or another one that
has the mutex. -/
theorem present_queue_wakes {es : List (Monitor.Event PresentThread PresentQueueOp)}
    {s : Monitor.State PresentThread PresentQueueOp PresentQueue (Option PresentEntry)}
    (h : Run.exec (Monitor.step presentMonitor) presentStart es = some s) :
    (∀ o, s.pc .presentWorker = .blocked o → s.shared.count = 0) ∧
    (∀ o, s.pc .decodeWorker = .blocked o → vmcPresentQueueBound ≤ s.shared.count) ∧
    (s.told = true → ∀ i o, s.pc i ≠ .blocked o) ∧
    (∀ i, s.pc i ≠ .out → (∀ o, s.pc i ≠ .blocked o) →
      ∃ j, (Monitor.step presentMonitor s (.test j)).isSome ∨
        (Monitor.step presentMonitor s (.block j)).isSome ∨
        (Monitor.step presentMonitor s (.relock j)).isSome) := by
  have hinv : Monitor.Inv presentMonitor s := Monitor.inv_exec trivial h
  refine ⟨fun o hpc => ?_, fun o hpc => ?_, fun htold i o hpc => ?_, fun i => hinv.progress⟩
  · obtain ⟨hwait, -⟩ := hinv.blocked hpc
    have hown : o.owner = .presentWorker := hinv.owner _ o (by rw [hpc]; rfl)
    cases o with
    | pop => exact of_decide_eq_true hwait
    | push e => cases hown
    | shift caller deltaUs => cases hwait
  · obtain ⟨hwait, -⟩ := hinv.blocked hpc
    have hown : o.owner = .decodeWorker := hinv.owner _ o (by rw [hpc]; rfl)
    cases o with
    | push e => exact of_decide_eq_true hwait
    | pop => cases hown
    | shift caller deltaUs => cases hwait
  · have hdeaf := (hinv.blocked hpc).2 rfl
    rw [htold] at hdeaf
    cases hdeaf

/-- The present worker sleeps, and is told to stop. -/
theorem present_queue_wakes_stopped :
    ∃ s, Run.exec (Monitor.step presentMonitor) presentStart
      [.enter .pop, .test .presentWorker, .block .presentWorker, .stop, .broadcast] = some s ∧
      ∀ i o, s.pc i ≠ .blocked o := by
  have hrun : (Run.exec (Monitor.step presentMonitor) presentStart
      [.enter .pop, .test .presentWorker, .block .presentWorker, .stop, .broadcast]).map
      (·.told) = some true := by
    decide +kernel
  obtain ⟨s, hs, htold⟩ := Option.map_eq_some_iff.mp hrun
  obtain ⟨-, -, hnone, -⟩ := present_queue_wakes hs
  exact ⟨s, hs, hnone htold⟩

end Vmc
