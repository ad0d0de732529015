import Vmc.Client.FrameSlots
import Vmc.Lib.Bytes
import Vmc.Video.Fragment

/-!
# Vmc.Client.SlotDelivery

The frame slots in framebuffer mode, down to the bytes in their buffers.

`dash_publish_au` takes a slot, copies the unit into its buffer outside the
mutex and publishes it; a unit that does not fit is given up.  The worker reads
length and buffer when it decodes.  As long as deadlines strictly increase, the
slot with the least deadline is the oldest one published, so units come out in
the order they went in, each once and unchanged, however slots are recycled
(`slots_deliver`).

The invariant keeps the published units that are still to be decoded in a list
together with the slots they are in.
-/

namespace Vmc

open Bytes

/-! ## the pipe with its buffers -/

/-- The two threads with what the buffers hold, the unit the producer has copied
and not yet published, and what `vmc_decoder_decode` was called with. -/
structure SlotPipe extends DecodePipe where
  bufs : Nat → List UInt8
  copied : Option Frame
  handed : List (List UInt8)

/-- Whatever the buffers hold at the start. -/
def SlotPipe.init (bufs : Nat → List UInt8) : SlotPipe := ⟨.init, bufs, none, []⟩

inductive SlotOp where
  | take
  /-- `memcpy` into the buffer of the slot taken. -/
  | copy (f : Frame)
  | publish (pubUs : UInt64)
  /-- A unit larger than a buffer: the slot is given back. -/
  | discard (f : Frame)
  | select
  | mark
  | decode
  | release
deriving DecidableEq, Repr

/-- A step of `DecodePipe`, the rest being left alone. -/
def SlotPipe.pipe (s : SlotPipe) (op : PipeOp) : Option SlotPipe :=
  (pipeStep s.toDecodePipe op).map fun p => { s with toDecodePipe := p }

/-- What the decoder is given for slot `i`: `len` bytes of its buffer. -/
def SlotPipe.decodeInput (s : SlotPipe) (i : Nat) : Option (List UInt8) :=
  s.pool.slots[i]?.map fun x : FrameSlot => (s.bufs i).take x.data.length

/-- One step; `none` if the thread is not at it or would wait. -/
def slotStep (s : SlotPipe) : SlotOp → Option SlotPipe
  | .take => s.pipe .take
  | .copy f =>
      match s.writeSlot, s.copied with
      | some w, none =>
          if f.data.length ≤ vmcVideoAuMax then
            some { s with
              bufs := Function.update s.bufs w (splice (s.bufs w) 0 f.data)
              copied := some f }
          else none
      | _, _ => none
  | .publish pubUs =>
      match s.copied with
      | some f => ({ s with copied := none }).pipe (.publish { f with pubUs := pubUs })
      | none => none
  | .discard f =>
      match s.writeSlot, s.copied with
      | some w, none =>
          if f.data.length ≤ vmcVideoAuMax then none
          else some { s with pool := s.pool.mark w .free, writeSlot := none }
      | _, _ => none
  | .select => s.pipe .select
  | .mark => s.pipe .mark
  | .decode =>
      match s.worker with
      | .marked i =>
          ({ s with handed := s.handed ++ (s.decodeInput i).toList }).pipe .decode
      | _ => none
  | .release => s.pipe .release

/-! ## the least deadline -/

/-- What the scan finds is ready and has the least deadline of those ready below
the bound; it finds nothing if there are none and it was given nothing. -/
theorem scanReady_least (xs : List FrameSlot) (i : Nat) (best : UInt64) (idx : Option Nat) :
    (scanReady xs i best idx = idx ∧ ∀ x ∈ xs, x.state = .ready → best ≤ x.deadlineUs) ∨
    ∃ j x, scanReady xs i best idx = some (i + j) ∧ xs[j]? = some x ∧ x.state = .ready ∧
      x.deadlineUs < best ∧ ∀ y ∈ xs, y.state = .ready → x.deadlineUs ≤ y.deadlineUs := by
  induction xs generalizing i best idx with
  | nil => exact .inl ⟨rfl, by simp⟩
  | cons z xs ih =>
      rw [scanReady]
      by_cases hz : z.state = .ready ∧ z.deadlineUs < best
      · rw [if_pos hz]
        obtain ⟨heq, hrest⟩ | ⟨j, x, heq, hx, hst, hlt, hrest⟩ := ih (i + 1) z.deadlineUs (some i)
        · refine .inr ⟨0, z, heq, rfl, hz.1, hz.2, ?_⟩
          intro y hy hyst
          obtain rfl | hy := List.mem_cons.mp hy
          · exact UInt64.le_refl _
          · exact hrest y hy hyst
        · refine .inr ⟨j + 1, x, by rw [heq]; congr 1; omega, hx, hst,
            UInt64.lt_trans hlt hz.2, ?_⟩
          intro y hy hyst
          obtain rfl | hy := List.mem_cons.mp hy
          · exact UInt64.le_of_lt hlt
          · exact hrest y hy hyst
      · rw [if_neg hz]
        have hzbest : z.state = .ready → best ≤ z.deadlineUs := fun hst =>
          UInt64.not_lt.mp fun hlt => hz ⟨hst, hlt⟩
        obtain ⟨heq, hrest⟩ | ⟨j, x, heq, hx, hst, hlt, hrest⟩ := ih (i + 1) best idx
        · refine .inl ⟨heq, ?_⟩
          intro y hy hyst
          obtain rfl | hy := List.mem_cons.mp hy
          · exact hzbest hyst
          · exact hrest y hy hyst
        · refine .inr ⟨j + 1, x, by rw [heq]; congr 1; omega, hx, hst, hlt, ?_⟩
          intro y hy hyst
          obtain rfl | hy := List.mem_cons.mp hy
          · exact UInt64.le_of_lt (UInt64.lt_of_lt_of_le hlt (hzbest hyst))
          · exact hrest y hy hyst

/-- The worker selects a ready slot with the least deadline. -/
theorem selectReady_least {p : FramePool} {i : Nat} (h : selectReady p = some i) :
    ∃ x, p.slots[i]? = some x ∧ x.state = .ready ∧
      ∀ y ∈ p.slots, y.state = .ready → x.deadlineUs ≤ y.deadlineUs := by
  obtain ⟨heq, -⟩ | ⟨j, x, heq, hx, hst, -, hleast⟩ :=
    scanReady_least p.slots 0 0xFFFFFFFFFFFFFFFF none
  · rw [selectReady, heq] at h
    contradiction
  · rw [selectReady, heq, Nat.zero_add] at h
    obtain rfl := Option.some.inj h
    exact ⟨x, hx, hst, hleast⟩

/-- It finds one if there is any with a deadline below the bound. -/
theorem selectReady_isSome {p : FramePool} {x : FrameSlot} (hx : x ∈ p.slots)
    (hst : x.state = .ready) (hlt : x.deadlineUs < 0xFFFFFFFFFFFFFFFF) :
    (selectReady p).isSome := by
  obtain ⟨-, hnone⟩ | ⟨j, y, heq, -⟩ := scanReady_least p.slots 0 0xFFFFFFFFFFFFFFFF none
  · exact absurd hlt (UInt64.not_lt.mpr (hnone x hx hst))
  · rw [selectReady, heq]
    rfl

/-! ## what is still to be decoded -/

namespace SlotPipe

/-- The published units that are still to be decoded, oldest first, with their
slots: those that are ready, and the one the worker has marked.  The worker is
at the first of them. -/
structure Holds (s : SlotPipe) (todo : List (Nat × Frame)) : Prop where
  published : s.published = s.decoded ++ todo.map (·.2)
  slots : ∀ i f, (i, f) ∈ todo ↔
    ∃ x, s.pool.slots[i]? = some x ∧ x.toFrame = f ∧ (x.state = .ready ∨ s.worker = .marked i)
  nodup : (todo.map (·.1)).Nodup
  front : ∀ i, s.worker = .selected i ∨ s.worker = .marked i → ∃ f rest, todo = (i, f) :: rest
  writing : ∀ w, s.writeSlot = some w → ∃ x, s.pool.slots[w]? = some x ∧ x.state = .writing
  decoding : ∀ i, s.worker = .marked i ∨ s.worker = .decoded i →
    ∃ x, s.pool.slots[i]? = some x ∧ x.state = .decoding
  copied : ∀ f, s.copied = some f →
    ∃ w, s.writeSlot = some w ∧ (s.bufs w).take f.data.length = f.data
  bytes : ∀ i f, (i, f) ∈ todo → (s.bufs i).take f.data.length = f.data
  handed : s.handed = s.decoded.map (·.data)

variable {s s' : SlotPipe} {todo : List (Nat × Frame)}

theorem holds_init (bufs : Nat → List UInt8) : (init bufs).Holds [] where
  published := rfl
  slots := by
    intro i f
    refine iff_of_false (by simp) ?_
    rintro ⟨x, hx, -, hst | hst⟩
    · have hmem := List.mem_of_getElem? hx
      change x ∈ List.replicate vmcFrameSlots FrameSlot.zero at hmem
      rw [(List.mem_replicate.mp hmem).2] at hst
      contradiction
    · contradiction
  nodup := List.nodup_nil
  front := by
    intro i h
    obtain h | h := h <;> contradiction
  writing := by
    intro w h
    contradiction
  decoding := by
    intro i h
    obtain h | h := h <;> contradiction
  copied := by
    intro f h
    contradiction
  bytes := by simp
  handed := rfl

/-- A slot that is free or being written holds nothing to decode, and is not the
worker's. -/
theorem Holds.not_mem (h : s.Holds todo) {w : Nat} {x : FrameSlot} (hx : s.pool.slots[w]? = some x)
    (hst : x.state = .free ∨ x.state = .writing) :
    (∀ f, (w, f) ∉ todo) ∧ ∀ i, s.worker = .marked i ∨ s.worker = .decoded i → i ≠ w := by
  have hworker : ∀ i, s.worker = .marked i ∨ s.worker = .decoded i → i ≠ w := by
    rintro i hi rfl
    obtain ⟨y, hy, hyst⟩ := h.decoding i hi
    obtain rfl := Option.some.inj (hx.symm.trans hy)
    rw [hyst] at hst
    obtain hst | hst := hst <;> contradiction
  refine ⟨?_, hworker⟩
  intro f hf
  obtain ⟨y, hy, -, hready | hmarked⟩ := (h.slots w f).mp hf
  · obtain rfl := Option.some.inj (hx.symm.trans hy)
    rw [hready] at hst
    obtain hst | hst := hst <;> contradiction
  · exact hworker w (.inl hmarked) rfl

/-- The producer changing the state of a slot nobody waits for: `take` and
`discard`. -/
theorem Holds.of_mark (h : s.Holds todo) {w : Nat} {x : FrameSlot}
    (hx : s.pool.slots[w]? = some x) (hst : x.state = .free ∨ x.state = .writing) {st : SlotState}
    (hst' : st = .free ∨ st = .writing) {ws : Option Nat}
    (hws : ∀ v, ws = some v → v = w ∧ st = .writing) (hcopied : s.copied = none) :
    Holds { s with pool := s.pool.mark w st, writeSlot := ws } todo := by
  obtain ⟨hnot, hworker⟩ := h.not_mem hx hst
  have hself := getElem?_mark_self hx st
  have hother := fun j (hj : j ≠ w) => getElem?_mark_of_ne s.pool (Ne.symm hj) st
  refine ⟨h.published, ?_, h.nodup, h.front, ?_, ?_, ?_, h.bytes, h.handed⟩
  · intro j f
    by_cases hj : j = w
    · subst hj
      refine iff_of_false (hnot f) ?_
      rintro ⟨y, hy, -, hready | hmarked⟩
      · obtain rfl := Option.some.inj (hself.symm.trans hy)
        change st = .ready at hready
        rw [hready] at hst'
        obtain hst' | hst' := hst' <;> contradiction
      · exact hworker j (.inl hmarked) rfl
    · change _ ↔ ∃ y, (s.pool.mark w st).slots[j]? = some y ∧ _
      rw [hother j hj]
      exact h.slots j f
  · intro v hv
    obtain ⟨rfl, hwriting⟩ := hws v hv
    exact ⟨_, hself, hwriting⟩
  · intro i hi
    change ∃ y, (s.pool.mark w st).slots[i]? = some y ∧ _
    rw [hother i (hworker i hi)]
    exact h.decoding i hi
  · intro f hf
    have : s.copied = some f := hf
    rw [hcopied] at this
    contradiction

/-- What a step of the pipe does. -/
theorem effect_of_pipe {op : PipeOp} (h : s.pipe op = some s') :
    ∃ p, op.Effect s.toDecodePipe p ∧ s' = { s with toDecodePipe := p } := by
  obtain ⟨p, hp, rfl⟩ := Option.map_eq_some_iff.mp h
  exact ⟨p, effect_of_pipeStep hp, rfl⟩

theorem holds_take (h : s.Holds todo) (hstep : slotStep s .take = some s') : s'.Holds todo := by
  obtain ⟨p, ⟨hnone, w, hw, rfl⟩, rfl⟩ := effect_of_pipe hstep
  obtain ⟨x, hx, hfree⟩ := Pool.exists_of_findIdx? hw
  have hst : x.state = .free := by simpa using hfree
  have hcopied : s.copied = none := by
    cases hc : s.copied with
    | none => rfl
    | some f =>
        obtain ⟨v, hv, -⟩ := h.copied f hc
        rw [hnone] at hv
        contradiction
  exact h.of_mark hx (.inl hst) (.inr rfl) (fun v hv => ⟨(Option.some.inj hv).symm, rfl⟩) hcopied

theorem holds_discard (h : s.Holds todo) {f : Frame} (hstep : slotStep s (.discard f) = some s') :
    s'.Holds todo := by
  simp only [slotStep] at hstep
  split at hstep
  · next w hw hcopied =>
    split at hstep
    · contradiction
    · obtain rfl := Option.some.inj hstep
      obtain ⟨x, hx, hst⟩ := h.writing w hw
      exact h.of_mark hx (.inr hst) (.inl rfl) (by simp) hcopied
  · contradiction

/-- The copy goes to a buffer nobody reads. -/
theorem holds_copy (h : s.Holds todo) {f : Frame} (hstep : slotStep s (.copy f) = some s') :
    s'.Holds todo := by
  simp only [slotStep] at hstep
  split at hstep
  · next w hw hcopied =>
    split at hstep
    · obtain rfl := Option.some.inj hstep
      obtain ⟨x, hx, hst⟩ := h.writing w hw
      obtain ⟨hnot, -⟩ := h.not_mem hx (.inr hst)
      refine ⟨h.published, h.slots, h.nodup, h.front, h.writing, h.decoding, ?_, ?_, h.handed⟩
      · intro g hg
        obtain rfl := Option.some.inj hg
        refine ⟨w, hw, ?_⟩
        simp [splice]
      · intro i g hg
        have hne : i ≠ w := by
          rintro rfl
          exact hnot g hg
        dsimp only
        rw [Function.update_of_ne hne]
        exact h.bytes i g hg
    · contradiction
  · contradiction

/-- A published unit joins at the end. -/
theorem holds_publish (h : s.Holds todo) {pubUs : UInt64}
    (hstep : slotStep s (.publish pubUs) = some s') : ∃ todo', s'.Holds todo' := by
  simp only [slotStep] at hstep
  split at hstep
  · next f hf =>
    obtain ⟨p, ⟨w, hw, rfl⟩, rfl⟩ := effect_of_pipe hstep
    obtain ⟨x, hx, hst⟩ := h.writing w hw
    obtain ⟨hnot, hworker⟩ := h.not_mem hx (.inr hst)
    have hlt : w < vmcFrameSlots := s.pool.size ▸ (List.getElem?_eq_some_iff.mp hx).1
    have hslots : ∀ j, (slotPublish s.pool w { f with pubUs := pubUs }).slots[j]? =
        if w = j then some ⟨{ f with pubUs := pubUs }, .ready⟩ else s.pool.slots[j]? :=
      getElem?_put s.pool hlt _
    have hself := hslots w
    rw [if_pos rfl] at hself
    have hother : ∀ j, j ≠ w →
        (slotPublish s.pool w { f with pubUs := pubUs }).slots[j]? = s.pool.slots[j]? :=
      fun j hj => (hslots j).trans (if_neg (Ne.symm hj))
    refine ⟨todo ++ [(w, { f with pubUs := pubUs })], ?_, ?_, ?_, ?_, ?_, ?_, ?_, ?_, h.handed⟩
    · simp [h.published]
    · intro j g
      by_cases hj : j = w
      · subst hj
        refine Iff.trans ?_ ⟨fun hg => ⟨_, hself, hg, .inl rfl⟩, ?_⟩
        · simpa [hnot g] using eq_comm
        · rintro ⟨y, hy, hyg, -⟩
          obtain rfl := Option.some.inj (hself.symm.trans hy)
          exact hyg
      · change _ ↔ ∃ y, (slotPublish s.pool w _).slots[j]? = some y ∧ _
        rw [hother j hj]
        simpa [hj] using h.slots j g
    · rw [List.map_append, List.nodup_append]
      refine ⟨h.nodup, List.nodup_singleton _, ?_⟩
      intro i hi j hj
      obtain ⟨⟨i', g⟩, hmem, rfl⟩ := List.mem_map.mp hi
      rw [List.mem_singleton.mp hj]
      rintro rfl
      exact hnot g hmem
    · intro i hi
      obtain ⟨g, rest, rfl⟩ := h.front i hi
      exact ⟨g, rest ++ [(w, _)], rfl⟩
    · intro v hv
      contradiction
    · intro i hi
      change ∃ y, (slotPublish s.pool w _).slots[i]? = some y ∧ _
      rw [hother i (hworker i hi)]
      exact h.decoding i hi
    · intro g hg
      contradiction
    · intro i g hg
      obtain hg | hg := List.mem_append.mp hg
      · exact h.bytes i g hg
      · obtain ⟨rfl, rfl⟩ := Prod.mk.inj (List.mem_singleton.mp hg)
        obtain ⟨v, hv, hbytes⟩ := h.copied f hf
        obtain rfl := Option.some.inj (hw.symm.trans hv)
        exact hbytes
  · contradiction

/-- With deadlines increasing the slot selected is that of the oldest unit. -/
theorem holds_select (h : s.Holds todo)
    (hrising : s.published.Pairwise fun f g => f.deadlineUs < g.deadlineUs)
    (hstep : slotStep s .select = some s') : s'.Holds todo := by
  obtain ⟨p, ⟨hidle, i, hi, rfl⟩, rfl⟩ := effect_of_pipe hstep
  obtain ⟨x, hx, hst, hleast⟩ := selectReady_least hi
  have hmem : (i, x.toFrame) ∈ todo := (h.slots i x.toFrame).mpr ⟨x, hx, rfl, .inl hst⟩
  have hfront : ∃ f rest, todo = (i, f) :: rest := by
    cases hcase : todo with
    | nil =>
        rw [hcase] at hmem
        simp at hmem
    | cons e rest =>
        obtain ⟨j, f⟩ := e
        rw [hcase] at hmem
        obtain heq | hrest := List.mem_cons.mp hmem
        · obtain ⟨rfl, -⟩ := Prod.mk.inj heq
          exact ⟨f, rest, rfl⟩
        · -- the first is ready too, and its deadline is less
          obtain ⟨y, hy, hyf, hready | hmarked⟩ := (h.slots j f).mp (by simp [hcase])
          · have hle := hleast y (List.mem_of_getElem? hy) hready
            rw [h.published, hcase] at hrising
            have hpair := (List.pairwise_append.mp hrising).2.1
            rw [List.map_cons, List.pairwise_cons] at hpair
            have hlt := hpair.1 x.toFrame (List.mem_map.mpr ⟨_, hrest, rfl⟩)
            change f.deadlineUs < x.deadlineUs at hlt
            change x.toFrame.deadlineUs ≤ y.toFrame.deadlineUs at hle
            rw [hyf] at hle
            exact absurd hlt (UInt64.not_lt.mpr hle)
          · rw [hidle] at hmarked
            contradiction
  refine ⟨h.published, ?_, h.nodup, ?_, h.writing, ?_, h.copied, h.bytes, h.handed⟩
  · intro j f
    rw [h.slots j f]
    simp [hidle]
  · intro j hj
    obtain hj | hj := hj
    · obtain rfl : i = j := by simpa using hj
      exact hfront
    · contradiction
  · intro j hj
    obtain hj | hj := hj <;> contradiction

theorem holds_mark (h : s.Holds todo) (hstep : slotStep s .mark = some s') : s'.Holds todo := by
  obtain ⟨p, ⟨i, hsel, rfl⟩, rfl⟩ := effect_of_pipe hstep
  obtain ⟨f, rest, htodo⟩ := h.front i (.inl hsel)
  obtain ⟨x, hx, hxf, hready⟩ := (h.slots i f).mp (by simp [htodo])
  have hst : x.state = .ready := hready.resolve_right (by simp [hsel])
  have hself := getElem?_mark_self hx .decoding
  have hother := fun j (hj : j ≠ i) => getElem?_mark_of_ne s.pool (Ne.symm hj) .decoding
  refine ⟨h.published, ?_, h.nodup, ?_, ?_, ?_, h.copied, h.bytes, h.handed⟩
  · intro j g
    rw [h.slots j g]
    change _ ↔ ∃ y, (s.pool.mark i .decoding).slots[j]? = some y ∧ _
    by_cases hj : j = i
    · subst hj
      rw [hself, hx]
      simp [hst]
    · rw [hother j hj]
      simp [hsel, Ne.symm hj]
  · intro j hj
    obtain hj | hj := hj
    · contradiction
    · obtain rfl : i = j := by simpa using hj
      exact ⟨f, rest, htodo⟩
  · intro w hw
    obtain ⟨y, hy, hyst⟩ := h.writing w hw
    have hne : w ≠ i := by
      rintro rfl
      obtain rfl := Option.some.inj (hx.symm.trans hy)
      rw [hst] at hyst
      contradiction
    exact ⟨y, (hother w hne).trans hy, hyst⟩
  · intro j hj
    obtain hj | hj := hj
    · obtain rfl : i = j := by simpa using hj
      exact ⟨_, hself, rfl⟩
    · contradiction

/-- Decoding takes the oldest unit off the list, with the bytes it came with. -/
theorem holds_decode (h : s.Holds todo) (hstep : slotStep s .decode = some s') :
    ∃ todo', s'.Holds todo' := by
  simp only [slotStep] at hstep
  split at hstep
  · next i hmarked =>
    obtain ⟨p, ⟨j, hj, rfl⟩, rfl⟩ := effect_of_pipe hstep
    obtain rfl : i = j := by simpa [hmarked] using hj
    obtain ⟨f, rest, rfl⟩ := h.front i (.inr hmarked)
    obtain ⟨x, hx, rfl, -⟩ := (h.slots i f).mp (by simp)
    have hbytes := h.bytes i x.toFrame (by simp)
    have hnodup := h.nodup
    rw [List.map_cons, List.nodup_cons] at hnodup
    refine ⟨rest, ?_, ?_, hnodup.2, ?_, h.writing, ?_, h.copied, ?_, ?_⟩
    · have hpub := h.published
      simp only [List.map_cons] at hpub
      simp [hx, hpub]
    · intro k g
      have hk := h.slots k g
      by_cases hki : k = i
      · subst hki
        refine iff_of_false (fun hmem => hnodup.1 (List.mem_map.mpr ⟨_, hmem, rfl⟩)) ?_
        rintro ⟨y, hy, -, hready | hm⟩
        · obtain ⟨z, hz, hzst⟩ := h.decoding k (.inl hmarked)
          obtain rfl := Option.some.inj (hz.symm.trans hy)
          rw [hready] at hzst
          contradiction
        · contradiction
      · have hskip : (k, g) ∈ (i, x.toFrame) :: rest ↔ (k, g) ∈ rest := by simp [hki]
        rw [← hskip, hk]
        simp [hmarked, Ne.symm hki]
    · intro k hk
      obtain hk | hk := hk <;> contradiction
    · intro k hk
      obtain hk | hk := hk
      · contradiction
      · obtain rfl : i = k := by simpa using hk
        exact h.decoding i (.inl hmarked)
    · exact fun k g hg => h.bytes k g (List.mem_cons_of_mem _ hg)
    · simp [decodeInput, hx, h.handed, hbytes]
  · contradiction

theorem holds_release (h : s.Holds todo) (hstep : slotStep s .release = some s') :
    s'.Holds todo := by
  obtain ⟨p, ⟨i, hdec, rfl⟩, rfl⟩ := effect_of_pipe hstep
  obtain ⟨x, hx, hst⟩ := h.decoding i (.inr hdec)
  have hself := getElem?_mark_self hx .free
  have hother := fun j (hj : j ≠ i) => getElem?_mark_of_ne s.pool (Ne.symm hj) .free
  refine ⟨h.published, ?_, h.nodup, ?_, ?_, ?_, h.copied, h.bytes, h.handed⟩
  · intro j g
    rw [h.slots j g]
    change _ ↔ ∃ y, (s.pool.mark i .free).slots[j]? = some y ∧ _
    by_cases hj : j = i
    · subst hj
      rw [hself, hx]
      simp [hst, hdec]
    · rw [hother j hj]
      simp [hdec]
  · intro j hj
    obtain hj | hj := hj <;> contradiction
  · intro w hw
    obtain ⟨y, hy, hyst⟩ := h.writing w hw
    have hne := (h.not_mem hy (.inr hyst)).2 i (.inr hdec)
    exact ⟨y, (hother w (Ne.symm hne)).trans hy, hyst⟩
  · intro j hj
    obtain hj | hj := hj <;> contradiction

/-- Deadlines strictly increase from one published unit to the next. -/
def Rising (s : SlotPipe) : Prop := s.published.Pairwise fun f g => f.deadlineUs < g.deadlineUs

theorem holds_step {op : SlotOp} (h : ∃ todo, s.Holds todo) (hrising : s.Rising)
    (hstep : slotStep s op = some s') : ∃ todo, s'.Holds todo := by
  obtain ⟨todo, h⟩ := h
  cases op with
  | take => exact ⟨todo, holds_take h hstep⟩
  | copy f => exact ⟨todo, holds_copy h hstep⟩
  | publish pubUs => exact holds_publish h hstep
  | discard f => exact ⟨todo, holds_discard h hstep⟩
  | select => exact ⟨todo, holds_select h hrising hstep⟩
  | mark => exact ⟨todo, holds_mark h hstep⟩
  | decode => exact holds_decode h hstep
  | release => exact ⟨todo, holds_release h hstep⟩

theorem published_pipe {op : PipeOp} (h : s.pipe op = some s') : s.published <+: s'.published := by
  obtain ⟨p, hp, rfl⟩ := Option.map_eq_some_iff.mp h
  exact ⟨op.publishes, (pipeStep_history hp).1.symm⟩

/-- Nothing published is taken back. -/
theorem published_step {op : SlotOp} (hstep : slotStep s op = some s') :
    s.published <+: s'.published := by
  cases op with
  | take | select | mark | release => exact published_pipe hstep
  | copy f | discard f =>
      simp only [slotStep] at hstep
      split at hstep
      · split at hstep
        all_goals first | contradiction | skip
        obtain rfl := Option.some.inj hstep
        exact List.prefix_refl _
      · contradiction
  | publish pubUs | decode =>
      simp only [slotStep] at hstep
      split at hstep
      · have hpub := published_pipe hstep
        exact hpub
      · contradiction

/-- The invariant holds wherever a run with increasing deadlines ends. -/
theorem holds_exec {ops : List SlotOp} {bufs : Nat → List UInt8}
    (hrun : Run.exec slotStep (init bufs) ops = some s) (hrising : s.Rising) :
    ∃ todo, s.Holds todo := by
  -- what has been published on the way is an initial part of what is in the end
  have hkeep := Run.exec_invariant_true
    (fun t : SlotPipe => t.Rising → ∃ todo, t.Holds todo) ?_ (fun _ => ⟨[], holds_init bufs⟩) hrun
  · exact hkeep hrising
  · intro t op t' ht hstep hrising'
    have hrising : t.Rising := List.Pairwise.sublist (published_step hstep).sublist hrising'
    exact holds_step (ht hrising) hrising hstep

end SlotPipe

/-- **Delivery.**  In every interleaving of the producer with the worker in which
deadlines strictly increase and stay below `UINT64_MAX`: what the decoder was
given is an initial part of what was published, unit by unit and byte for byte;
it is all of it when no slot is ready and the worker is back at its selection,
which finds a slot whenever one is ready; and a slot taken for writing is
neither ready nor being decoded. -/
theorem slots_deliver (bufs : Nat → List UInt8) (ops : List SlotOp) (s : SlotPipe)
    (hrun : Run.exec slotStep (.init bufs) ops = some s) (hrising : s.Rising)
    (hmax : ∀ f ∈ s.published, f.deadlineUs < 0xFFFFFFFFFFFFFFFF) :
    s.handed <+: s.published.map (·.data) ∧
      ((∀ x ∈ s.pool.slots, x.state ≠ .ready) → s.worker = .idle →
        s.handed = s.published.map (·.data)) ∧
      (∀ x ∈ s.pool.slots, x.state = .ready → s.worker = .idle →
        (slotStep s .select).isSome) ∧
      ∀ i p, slotTakeWrite s.pool = some (i, p) →
        ∃ x, s.pool.slots[i]? = some x ∧ x.state ≠ .ready ∧ x.state ≠ .decoding := by
  obtain ⟨todo, h⟩ := SlotPipe.holds_exec hrun hrising
  refine ⟨?_, ?_, ?_, ?_⟩
  · rw [h.handed, h.published, List.map_append]
    exact List.prefix_append _ _
  · intro hnone hidle
    have hnil : todo = [] := by
      refine List.eq_nil_iff_forall_not_mem.mpr fun ⟨i, f⟩ hmem => ?_
      obtain ⟨x, hx, -, hready | hmarked⟩ := (h.slots i f).mp hmem
      · exact hnone x (List.mem_of_getElem? hx) hready
      · rw [hidle] at hmarked
        contradiction
    rw [h.handed, h.published, hnil, List.map_nil, List.append_nil]
  · intro x hx hready hidle
    obtain ⟨i, hi⟩ := List.mem_iff_getElem?.mp hx
    have hmem : (i, x.toFrame) ∈ todo := (h.slots i x.toFrame).mpr ⟨x, hi, rfl, .inl hready⟩
    have hpub : x.toFrame ∈ s.published := by
      rw [h.published]
      exact List.mem_append_right _ (List.mem_map.mpr ⟨_, hmem, rfl⟩)
    obtain ⟨j, hj⟩ := Option.isSome_iff_exists.mp (selectReady_isSome hx hready (hmax _ hpub))
    simp [slotStep, SlotPipe.pipe, pipeStep, hidle, hj]
  · intro i p htake
    obtain ⟨j, hj, heq⟩ := Option.map_eq_some_iff.mp htake
    obtain ⟨rfl, -⟩ := Prod.mk.inj heq
    obtain ⟨x, hx, hfree⟩ := Pool.exists_of_findIdx? hj
    have hst : x.state = .free := by simpa using hfree
    exact ⟨x, hx, by simp [hst], by simp [hst]⟩

/-- A unit of the DASH reader. -/
def dashUnit (data : List UInt8) (deadlineUs : UInt64) : Frame := ⟨data, 0, 0, deadlineUs, 0, 0, 1⟩

/-- The interleaving that breaks the order when all deadlines are zero: the
third unit gets slot 0 again while the second waits in slot 1. -/
def recycledUnits : List SlotOp :=
  [.take, .copy (dashUnit [1, 2] 10), .publish 0, .take, .select, .mark, .decode, .release,
    .copy (dashUnit [3] 20), .publish 1, .take, .copy (dashUnit [4] 30), .publish 2,
    .select, .mark, .decode, .release]

theorem slots_deliver_recycled :
    ∃ s, Run.exec slotStep (.init fun _ => []) recycledUnits = some s ∧
      s.handed = [[1, 2], [3]] ∧ s.handed <+: s.published.map (·.data) := by
  have hrun : (Run.exec slotStep (.init fun _ => []) recycledUnits).map
      (fun s => (s.published, s.handed)) = some ([dashUnit [1, 2] 10, { dashUnit [3] 20 with pubUs := 1 },
        { dashUnit [4] 30 with pubUs := 2 }], [[1, 2], [3]]) := by
    decide +kernel
  obtain ⟨s, hs, heq⟩ := Option.map_eq_some_iff.mp hrun
  obtain ⟨hpub, hhanded⟩ := Prod.mk.inj heq
  refine ⟨s, hs, hhanded, (slots_deliver _ recycledUnits s hs ?_ ?_).1⟩
  · rw [SlotPipe.Rising, hpub]
    decide
  · rw [hpub]
    decide

end Vmc
