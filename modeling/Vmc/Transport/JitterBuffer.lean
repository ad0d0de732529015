import Vmc.Core
import Vmc.Lib.Pool
import Vmc.Lib.Run
import Vmc.Lib.Serial

/-!
# Vmc.Transport.JitterBuffer

The fixed-slot reorder buffer of `transport/jitter_buffer.c`.

A datagram is copied into the first free of 256 slots unless it is already
buffered or lies 256 or more sequence numbers away from the next one to play.
`vmc_jb_peek` picks the valid slot with the least wrapped sequence number and
hands it out once it has been held for the target delay, moving `next_seq` back
to a late arrival or forward over a gap; `vmc_jb_consume` takes out the slot at
`next_seq`.
-/

namespace Vmc

/-! ## data model -/

def vmcJbMaxSlots : Nat := 256

def vmcJbPayloadCap : Nat := 1408

/-- `vmc_jb_slot`.  The owned copy of the payload is kept as the `len` bytes it
consists of. -/
structure JbSlot where
  seq : UInt32
  tsUs : UInt32
  flags : UInt16
  stream : UInt8
  recvUs : UInt64
  payload : List UInt8
  valid : Bool
deriving DecidableEq, Repr

/-- A slot as `memset` leaves it. -/
def JbSlot.zero : JbSlot := ⟨0, 0, 0, 0, 0, [], false⟩

/-- `vmc_jitter_buffer`. -/
structure JitterBuffer where
  slots : List JbSlot
  nextSeq : UInt32
  targetDelayUs : UInt64
  statsPushed : UInt64
  statsPlayed : UInt64
  statsDroppedLate : UInt64
  statsDroppedDupe : UInt64
  statsGaps : UInt64
  size : slots.length = vmcJbMaxSlots
deriving DecidableEq

/-- The buffer all zeros. -/
def JitterBuffer.zero : JitterBuffer where
  slots := List.replicate vmcJbMaxSlots JbSlot.zero
  nextSeq := 0
  targetDelayUs := 0
  statsPushed := 0
  statsPlayed := 0
  statsDroppedLate := 0
  statsDroppedDupe := 0
  statsGaps := 0
  size := List.length_replicate

/-! ## operations -/

def vmcJbInit (targetDelayUs : UInt64) : JitterBuffer :=
  { JitterBuffer.zero with targetDelayUs := targetDelayUs }

/-- `vmc_jb_reset`: everything is cleared, the target delay included. -/
def vmcJbReset (_jb : JitterBuffer) (firstSeq : UInt32) : JitterBuffer :=
  { JitterBuffer.zero with nextSeq := firstSeq }

/-- `seq_cmp`: wrapped comparison. -/
def seqCmp (a b : UInt32) : Int := Serial.cmp a b

/-- `find_slot`: index of the valid slot holding `seq`. -/
def findSlot (jb : JitterBuffer) (seq : UInt32) : Option Nat :=
  jb.slots.findIdx? fun s => s.valid && s.seq == seq

/-- The first slot not in use. -/
def freeSlot (jb : JitterBuffer) : Option Nat := jb.slots.findIdx? fun s => !s.valid

/-- The fields a datagram is pushed with. -/
structure JbPacket where
  seq : UInt32
  tsUs : UInt32
  stream : UInt8
  flags : UInt16
  payload : List UInt8
  recvUs : UInt64
deriving DecidableEq, Repr

/-- The slot a push fills in: at most `VMC_JB_PAYLOAD_CAP` bytes are copied. -/
def JbPacket.slot (d : JbPacket) : JbSlot where
  seq := d.seq
  tsUs := d.tsUs
  flags := d.flags
  stream := d.stream
  recvUs := d.recvUs
  payload := d.payload.take vmcJbPayloadCap
  valid := true

/-- The first push establishes the playout base. -/
def pushBase (jb : JitterBuffer) (seq : UInt32) : JitterBuffer :=
  if jb.statsPushed = 0 then { jb with nextSeq := seq } else jb

/-- `seq` is outside the reorder window. -/
def outsideWindow (jb : JitterBuffer) (seq : UInt32) : Bool :=
  let fwd := seqCmp seq jb.nextSeq
  fwd ≥ (vmcJbMaxSlots : Int) ∨ fwd ≤ -(vmcJbMaxSlots : Int)

/-- `vmc_jb_push`. -/
def vmcJbPush (jb : JitterBuffer) (d : JbPacket) : Status × JitterBuffer :=
  let jb := pushBase jb d.seq
  if (findSlot jb d.seq).isSome then
    (.again, { jb with statsDroppedDupe := jb.statsDroppedDupe + 1 })
  else if outsideWindow jb d.seq then
    (.outOfSync, { jb with statsDroppedLate := jb.statsDroppedLate + 1 })
  else
    match freeSlot jb with
    | none => (.overrun, { jb with statsDroppedLate := jb.statsDroppedLate + 1 })
    | some i =>
        (.ok, { jb with
          slots := jb.slots.set i d.slot
          statsPushed := jb.statsPushed + 1
          size := by rw [List.length_set, jb.size] })

/-- One iteration of the scan in `vmc_jb_peek`: the slot with the least
sequence number and the one that arrived last. -/
def scanSlot (acc : Option JbSlot × Option JbSlot) (s : JbSlot) :
    Option JbSlot × Option JbSlot :=
  if !s.valid then acc
  else
    (match acc.1 with
      | none => some s
      | some m => if seqCmp s.seq m.seq < 0 then some s else some m,
     match acc.2 with
      | none => some s
      | some n => if s.recvUs > n.recvUs then some s else some n)

def scanSlots (jb : JitterBuffer) : Option JbSlot × Option JbSlot :=
  jb.slots.foldl scanSlot (none, none)

/-- `now - recv >= target`, in unsigned arithmetic. -/
def oldEnough (jb : JitterBuffer) (s : JbSlot) (nowUs : UInt64) : Bool :=
  nowUs - s.recvUs ≥ jb.targetDelayUs

/-- `vmc_jb_peek`: the slot handed out, if any, and the buffer after the call.
The source wraps the three cases in a loop of two iterations, the first of
which always returns. -/
def vmcJbPeek (jb : JitterBuffer) (nowUs : UInt64) : Option JbSlot × JitterBuffer :=
  match scanSlots jb with
  | (some min, some newest) =>
      if seqCmp min.seq jb.nextSeq < 0 then
        -- late-but-windowed arrival
        if oldEnough jb min nowUs then (some min, { jb with nextSeq := min.seq }) else (none, jb)
      else if seqCmp min.seq jb.nextSeq > 0 then
        -- gap: declared lost once the newest arrival has been held long enough
        if oldEnough jb newest nowUs then
          let jb := { jb with
            statsGaps := jb.statsGaps + (min.seq - jb.nextSeq).toUInt64
            nextSeq := min.seq }
          if oldEnough jb min nowUs then (some min, jb) else (none, jb)
        else (none, jb)
      else if oldEnough jb min nowUs then (some min, jb)
      else (none, jb)
  | _ => (none, jb)

/-- `vmc_jb_consume`. -/
def vmcJbConsume (jb : JitterBuffer) : JitterBuffer :=
  match findSlot jb jb.nextSeq with
  | none => jb
  | some i =>
      { jb with
        slots := jb.slots.modify i fun s => { s with valid := false }
        nextSeq := jb.nextSeq + 1
        statsPlayed := jb.statsPlayed + 1
        size := by rw [List.length_modify, jb.size] }

/-- `vmc_jb_flush_before`. -/
def vmcJbFlushBefore (jb : JitterBuffer) (seq : UInt32) : JitterBuffer :=
  { jb with
    slots := jb.slots.map fun s =>
      if s.valid ∧ seqCmp s.seq seq < 0 then { s with valid := false } else s
    nextSeq := if seqCmp seq jb.nextSeq > 0 then seq else jb.nextSeq
    size := by rw [List.length_map, jb.size] }

/-! ## what the buffer holds -/

/-- The valid slots, in slot order. -/
def JitterBuffer.contents (jb : JitterBuffer) : List JbSlot := jb.slots.filter (·.valid)

theorem findSlot_eq_none_iff {jb : JitterBuffer} {seq : UInt32} :
    findSlot jb seq = none ↔ ∀ s ∈ jb.contents, s.seq ≠ seq := by
  simp [findSlot, JitterBuffer.contents, List.findIdx?_eq_none_iff]

/-- `find_slot` returns a valid slot with the number it was asked for. -/
theorem exists_of_findSlot {jb : JitterBuffer} {seq : UInt32} (h : findSlot jb seq = some i) :
    ∃ s, jb.slots[i]? = some s ∧ s.valid = true ∧ s.seq = seq := by
  obtain ⟨s, hs, hp⟩ := Pool.exists_of_findIdx? h
  obtain ⟨hv, hseq⟩ : s.valid = true ∧ s.seq = seq := by simpa using hp
  exact ⟨s, hs, hv, hseq⟩

theorem findSlot_isSome_iff {jb : JitterBuffer} {seq : UInt32} :
    (findSlot jb seq).isSome ↔ ∃ s ∈ jb.contents, s.seq = seq := by
  rw [← not_iff_not, Option.not_isSome_iff_eq_none, findSlot_eq_none_iff]
  simp

@[simp] theorem contents_init (targetDelayUs : UInt64) : (vmcJbInit targetDelayUs).contents = [] := by
  simp [JitterBuffer.contents, vmcJbInit, JitterBuffer.zero, JbSlot.zero]

@[simp] theorem slots_pushBase (jb : JitterBuffer) (seq : UInt32) :
    (pushBase jb seq).slots = jb.slots := by
  unfold pushBase
  split <;> rfl

@[simp] theorem targetDelayUs_pushBase (jb : JitterBuffer) (seq : UInt32) :
    (pushBase jb seq).targetDelayUs = jb.targetDelayUs := by
  unfold pushBase
  split <;> rfl

@[simp] theorem statsPushed_pushBase (jb : JitterBuffer) (seq : UInt32) :
    (pushBase jb seq).statsPushed = jb.statsPushed := by
  unfold pushBase
  split <;> rfl

@[simp] theorem contents_pushBase (jb : JitterBuffer) (seq : UInt32) :
    (pushBase jb seq).contents = jb.contents := by
  simp [JitterBuffer.contents]

/-- What `vmc_jb_push` tests before it takes a datagram: not buffered, inside
the window, and a slot is free. -/
def acceptsPush (jb : JitterBuffer) (seq : UInt32) : Bool :=
  !(findSlot (pushBase jb seq) seq).isSome && !outsideWindow (pushBase jb seq) seq &&
    (freeSlot (pushBase jb seq)).isSome

/-- A push fills one unused slot and counts, or counts a drop; both on top of
`pushBase`. -/
theorem push_effect (jb : JitterBuffer) (d : JbPacket) :
    (acceptsPush jb d.seq = true ∧ ∃ i x, jb.slots[i]? = some x ∧ x.valid = false ∧
      ∃ hsize, vmcJbPush jb d = (.ok, { pushBase jb d.seq with
        slots := jb.slots.set i d.slot
        statsPushed := jb.statsPushed + 1
        size := hsize })) ∨
    (acceptsPush jb d.seq = false ∧ (vmcJbPush jb d).1 ≠ .ok ∧
      ((vmcJbPush jb d).2 = { pushBase jb d.seq with
          statsDroppedDupe := (pushBase jb d.seq).statsDroppedDupe + 1 } ∨
        (vmcJbPush jb d).2 = { pushBase jb d.seq with
          statsDroppedLate := (pushBase jb d.seq).statsDroppedLate + 1 })) := by
  unfold vmcJbPush acceptsPush
  by_cases hdup : (findSlot (pushBase jb d.seq) d.seq).isSome
  · simp [hdup]
  by_cases hout : outsideWindow (pushBase jb d.seq) d.seq
  · simp [hdup, hout]
  simp only [hdup, hout]
  cases hfree : freeSlot (pushBase jb d.seq) with
  | none => simp
  | some i =>
      obtain ⟨x, hx, hv⟩ := Pool.exists_of_findIdx? hfree
      rw [slots_pushBase] at hx
      refine .inl ⟨rfl, i, x, hx, by simpa using hv, by rw [List.length_set, jb.size], ?_⟩
      simp

/-- **Push.**  An accepted datagram is added to what the buffer holds and
nothing else changes but the push count; a refused one leaves the slots and the
delay as they were.  Either way `next_seq` is that of `pushBase`. -/
theorem push_spec (jb : JitterBuffer) (d : JbPacket) :
    let r := vmcJbPush jb d
    r.2.nextSeq = (pushBase jb d.seq).nextSeq ∧ r.2.targetDelayUs = jb.targetDelayUs ∧
    ((acceptsPush jb d.seq = true ∧ r.1 = .ok ∧ r.2.statsPushed = jb.statsPushed + 1 ∧
        r.2.contents.Perm (d.slot :: jb.contents)) ∨
      (acceptsPush jb d.seq = false ∧ r.1 ≠ .ok ∧ r.2.statsPushed = jb.statsPushed ∧
        r.2.slots = jb.slots)) := by
  dsimp only
  obtain ⟨hacc, i, x, hx, hxv, hsize, heq⟩ | ⟨hrej, herr, hdrop | hdrop⟩ := push_effect jb d
  · rw [heq]
    refine ⟨rfl, by simp, .inl ⟨hacc, rfl, rfl, ?_⟩⟩
    exact Pool.filter_set_fill hx hxv rfl
  · exact ⟨by rw [hdrop], by simp [hdrop], .inr ⟨hrej, herr, by simp [hdrop], by simp [hdrop]⟩⟩
  · exact ⟨by rw [hdrop], by simp [hdrop], .inr ⟨hrej, herr, by simp [hdrop], by simp [hdrop]⟩⟩

/-- A push that is not refused for its number finds a slot as long as not all
256 are in use. -/
theorem acceptsPush_of {jb : JitterBuffer} {seq : UInt32} (hnew : ∀ s ∈ jb.contents, s.seq ≠ seq)
    (hwin : outsideWindow (pushBase jb seq) seq = false)
    (hroom : jb.contents.length < vmcJbMaxSlots) : acceptsPush jb seq = true := by
  have hnone : findSlot (pushBase jb seq) seq = none := by
    rw [findSlot_eq_none_iff, contents_pushBase]
    exact hnew
  have hfree : (freeSlot (pushBase jb seq)).isSome := by
    rw [← contents_pushBase jb seq, ← (pushBase jb seq).size] at hroom
    obtain ⟨i, _, hi, _⟩ := Pool.exists_free hroom
    rw [freeSlot, hi]
    rfl
  simp [acceptsPush, hnone, hwin, hfree]

/-- An accepted number was not in the buffer. -/
theorem ne_of_acceptsPush {jb : JitterBuffer} {seq : UInt32} (h : acceptsPush jb seq = true) :
    ∀ s ∈ jb.contents, s.seq ≠ seq := by
  have hnone : findSlot (pushBase jb seq) seq = none := by
    simp only [acceptsPush, Bool.and_eq_true, Bool.not_eq_true'] at h
    exact Option.not_isSome_iff_eq_none.mp (by simp [h.1.1])
  rwa [findSlot_eq_none_iff, contents_pushBase] at hnone

/-- A consume that finds its slot takes it out of the buffer. -/
theorem contents_consume {jb : JitterBuffer} {i : Nat} {s : JbSlot}
    (hf : findSlot jb jb.nextSeq = some i) (hs : jb.slots[i]? = some s) (hv : s.valid = true) :
    jb.contents.Perm (s :: (vmcJbConsume jb).contents) := by
  have hset : (vmcJbConsume jb).slots = jb.slots.set i { s with valid := false } := by
    simp [vmcJbConsume, hf, List.modify_eq_set_getElem?, hs]
  rw [JitterBuffer.contents, JitterBuffer.contents, hset]
  exact Pool.filter_set_free hs hv rfl

/-- **Consume.**  Either no valid slot is at `next_seq` and nothing happens, or
that slot leaves the buffer and `next_seq` moves on by one. -/
theorem consume_spec (jb : JitterBuffer) :
    ((∀ s ∈ jb.contents, s.seq ≠ jb.nextSeq) ∧ vmcJbConsume jb = jb) ∨
    (∃ s, s.seq = jb.nextSeq ∧ jb.contents.Perm (s :: (vmcJbConsume jb).contents) ∧
      (vmcJbConsume jb).nextSeq = jb.nextSeq + 1 ∧
      (vmcJbConsume jb).targetDelayUs = jb.targetDelayUs ∧
      (vmcJbConsume jb).statsPushed = jb.statsPushed) := by
  cases hf : findSlot jb jb.nextSeq with
  | none => exact .inl ⟨findSlot_eq_none_iff.mp hf, by simp [vmcJbConsume, hf]⟩
  | some i =>
      obtain ⟨s, hs, hv, hseq⟩ := exists_of_findSlot hf
      exact .inr ⟨s, hseq, contents_consume hf hs hv, by simp [vmcJbConsume, hf],
        by simp [vmcJbConsume, hf], by simp [vmcJbConsume, hf]⟩

/-- Flushing only takes slots out. -/
theorem contents_flushBefore_sublist (jb : JitterBuffer) (seq : UInt32) :
    (vmcJbFlushBefore jb seq).contents.Sublist jb.contents := by
  apply Pool.filter_map_sublist
  intro s
  split
  · exact .inr rfl
  · exact .inl rfl

/-- Peeking moves `next_seq` and counts gaps; the slots stay. -/
theorem slots_peek (jb : JitterBuffer) (nowUs : UInt64) :
    (vmcJbPeek jb nowUs).2.slots = jb.slots := by
  unfold vmcJbPeek
  split
  · dsimp only
    split_ifs <;> rfl
  · rfl

@[simp] theorem contents_peek (jb : JitterBuffer) (nowUs : UInt64) :
    (vmcJbPeek jb nowUs).2.contents = jb.contents := by
  rw [JitterBuffer.contents, slots_peek]
  rfl

@[simp] theorem targetDelayUs_peek (jb : JitterBuffer) (nowUs : UInt64) :
    (vmcJbPeek jb nowUs).2.targetDelayUs = jb.targetDelayUs := by
  unfold vmcJbPeek
  split
  · dsimp only
    split_ifs <;> rfl
  · rfl

@[simp] theorem statsPushed_peek (jb : JitterBuffer) (nowUs : UInt64) :
    (vmcJbPeek jb nowUs).2.statsPushed = jb.statsPushed := by
  unfold vmcJbPeek
  split
  · dsimp only
    split_ifs <;> rfl
  · rfl

open Serial

/-- A window has no more numbers than there are slots, so one that is not
buffered finds room. -/
theorem room_of_window {jb : JitterBuffer} {base seq : UInt32}
    (hdistinct : (jb.contents.map (·.seq)).Nodup)
    (hwindow : ∀ s ∈ jb.contents, ahead base s.seq < vmcJbMaxSlots)
    (hseq : ahead base seq < vmcJbMaxSlots) (hnew : ∀ s ∈ jb.contents, s.seq ≠ seq) :
    jb.contents.length < vmcJbMaxSlots := by
  have hnodup : ((seq :: jb.contents.map (·.seq)).map (ahead base)).Nodup := by
    refine List.Nodup.map (ahead_injective _) (List.nodup_cons.mpr ⟨?_, hdistinct⟩)
    intro hmem
    obtain ⟨slot, hslot, heq⟩ := List.mem_map.mp hmem
    exact hnew slot hslot heq
  have hsub : (seq :: jb.contents.map (·.seq)).map (ahead base) ⊆ List.range vmcJbMaxSlots := by
    intro d hd
    obtain ⟨q, hq, rfl⟩ := List.mem_map.mp hd
    rw [List.mem_range]
    obtain rfl | hq := List.mem_cons.mp hq
    · exact hseq
    · obtain ⟨slot, hslot, rfl⟩ := List.mem_map.mp hq
      exact hwindow slot hslot
  have hlen := (hnodup.subperm hsub).length_le
  rw [List.length_map, List.length_cons, List.length_map, List.length_range] at hlen
  exact hlen

/-! ## what a peek finds -/

/-- What the scan has found after the valid slots `seen`: two of them, the first
the least as seen from `base` if all of them lie ahead of it. -/
def Scanned (base : UInt32) (seen : List JbSlot) (acc : Option JbSlot × Option JbSlot) : Prop :=
  (seen = [] ∧ acc = (none, none)) ∨
  ∃ mn nw, acc = (some mn, some nw) ∧ mn ∈ seen ∧ nw ∈ seen ∧
    ((∀ s ∈ seen, ahead base s.seq < 2 ^ 31) →
      ∀ s ∈ seen, ahead base mn.seq ≤ ahead base s.seq)

theorem scanned_scanSlot {base : UInt32} {seen : List JbSlot} {acc : Option JbSlot × Option JbSlot}
    (h : Scanned base seen acc) {s : JbSlot} (hs : s.valid = true) :
    Scanned base (seen ++ [s]) (scanSlot acc s) := by
  unfold scanSlot
  rw [if_neg (by simp [hs])]
  obtain ⟨rfl, rfl⟩ | ⟨mn, nw, rfl, hmn, hnw, hleast⟩ := h
  · exact .inr ⟨s, s, rfl, by simp, by simp, by simp⟩
  · refine .inr ⟨if seqCmp s.seq mn.seq < 0 then s else mn, if s.recvUs > nw.recvUs then s else nw,
      ?_, ?_, ?_, ?_⟩
    · dsimp only
      split_ifs <;> rfl
    · split_ifs <;> simp [hmn]
    · split_ifs <;> simp [hnw]
    · intro hahead x hx
      have hcmp : seqCmp s.seq mn.seq < 0 ↔ ahead base s.seq < ahead base mn.seq :=
        cmp_neg_iff (hahead s (by simp)) (hahead mn (by simp [hmn]))
      have hle := hleast fun y hy => hahead y (by simp [hy])
      by_cases hlt : seqCmp s.seq mn.seq < 0
      · rw [if_pos hlt]
        obtain hx | hx := List.mem_append.mp hx
        · exact le_trans (le_of_lt (hcmp.mp hlt)) (hle x hx)
        · rw [List.mem_singleton.mp hx]
      · rw [if_neg hlt]
        obtain hx | hx := List.mem_append.mp hx
        · exact hle x hx
        · rw [List.mem_singleton.mp hx]
          exact not_lt.mp fun h => hlt (hcmp.mpr h)

theorem scanned_foldl {base : UInt32} (l : List JbSlot) :
    ∀ (seen : List JbSlot) (acc : Option JbSlot × Option JbSlot), Scanned base seen acc →
      Scanned base (seen ++ l.filter (·.valid)) (l.foldl scanSlot acc) := by
  induction l with
  | nil =>
      intro seen acc h
      simpa using h
  | cons s l ih =>
      intro seen acc h
      rw [List.foldl_cons, List.filter_cons]
      by_cases hs : s.valid = true
      · rw [if_pos hs, List.append_cons]
        exact ih _ _ (scanned_scanSlot h hs)
      · rw [if_neg hs]
        have hskip : scanSlot acc s = acc := by
          rw [scanSlot, if_pos (by simpa using hs)]
        rw [hskip]
        exact ih seen acc h

theorem scanned_scanSlots (jb : JitterBuffer) (base : UInt32) :
    Scanned base jb.contents (scanSlots jb) := by
  have hstart : Scanned base [] (none, none) := .inl ⟨rfl, rfl⟩
  have h := scanned_foldl jb.slots [] (none, none) hstart
  rwa [List.nil_append] at h

/-- The slot is the least of the buffer as seen from `next_seq`, if all lie ahead
of it. -/
def JitterBuffer.Least (jb : JitterBuffer) (mn : JbSlot) : Prop :=
  (∀ s ∈ jb.contents, ahead jb.nextSeq s.seq < 2 ^ 31) →
    ∀ s ∈ jb.contents, ahead jb.nextSeq mn.seq ≤ ahead jb.nextSeq s.seq

/-- **Peek.**  It leaves `next_seq` alone and hands out nothing, or moves to the
least slot, which it may hand out. -/
theorem peek_cases (jb : JitterBuffer) (nowUs : UInt64) :
    ((vmcJbPeek jb nowUs).1 = none ∧ (vmcJbPeek jb nowUs).2.nextSeq = jb.nextSeq) ∨
    ∃ mn ∈ jb.contents, jb.Least mn ∧ (vmcJbPeek jb nowUs).2.nextSeq = mn.seq ∧
      ((vmcJbPeek jb nowUs).1 = some mn ∨ (vmcJbPeek jb nowUs).1 = none) := by
  obtain ⟨-, hscan⟩ | ⟨mn, nw, hscan, hmem, -, hleast⟩ := scanned_scanSlots jb jb.nextSeq
  · exact .inl (by simp [vmcJbPeek, hscan])
  · simp only [vmcJbPeek, hscan]
    by_cases hlate : seqCmp mn.seq jb.nextSeq < 0
    · rw [if_pos hlate]
      split
      · exact .inr ⟨mn, hmem, hleast, rfl, .inl rfl⟩
      · exact .inl ⟨rfl, rfl⟩
    · rw [if_neg hlate]
      by_cases hgap : seqCmp mn.seq jb.nextSeq > 0
      · rw [if_pos hgap]
        split
        · split
          · exact .inr ⟨mn, hmem, hleast, rfl, .inl rfl⟩
          · exact .inr ⟨mn, hmem, hleast, rfl, .inr rfl⟩
        · exact .inl ⟨rfl, rfl⟩
      · rw [if_neg hgap]
        have hzero : seqCmp mn.seq jb.nextSeq = 0 := by omega
        split
        · exact .inr ⟨mn, hmem, hleast, (cmp_eq_zero_iff.mp hzero).symm, .inl rfl⟩
        · exact .inl ⟨rfl, rfl⟩

/-- There is nothing to find in an empty buffer. -/
theorem peek_empty {jb : JitterBuffer} (nowUs : UInt64) (h : jb.contents = []) :
    vmcJbPeek jb nowUs = (none, jb) := by
  obtain ⟨-, hscan⟩ | ⟨mn, nw, -, hmem, -⟩ := scanned_scanSlots jb jb.nextSeq
  · simp [vmcJbPeek, hscan]
  · rw [h] at hmem
    simp at hmem

/-- Without a delay a lone slot is handed out at once, wherever it lies. -/
theorem peek_alone {jb : JitterBuffer} {slot : JbSlot} (nowUs : UInt64) (h : jb.contents = [slot])
    (hdelay : jb.targetDelayUs = 0) : (vmcJbPeek jb nowUs).1 = some slot := by
  obtain ⟨hnil, -⟩ | ⟨mn, nw, hscan, hmn, -⟩ := scanned_scanSlots jb jb.nextSeq
  · rw [hnil] at h
    contradiction
  · rw [h] at hmn
    obtain rfl := List.mem_singleton.mp hmn
    have hold : ∀ d : UInt64, decide (d ≥ 0) = true := by simp
    simp only [vmcJbPeek, hscan, oldEnough, hdelay, hold, if_true]
    split_ifs <;> rfl

/-- With the slot at `next_seq` there and everything old enough, a peek hands
one out. -/
theorem peek_ready {jb : JitterBuffer} {nowUs : UInt64}
    (hahead : ∀ s ∈ jb.contents, ahead jb.nextSeq s.seq < 2 ^ 31)
    (hold : ∀ s ∈ jb.contents, oldEnough jb s nowUs = true)
    (hnext : ∃ s ∈ jb.contents, s.seq = jb.nextSeq) : (vmcJbPeek jb nowUs).1 ≠ none := by
  obtain ⟨s, hs, hseq⟩ := hnext
  obtain ⟨hnil, -⟩ | ⟨mn, nw, hscan, hmem, -, hleast⟩ := scanned_scanSlots jb jb.nextSeq
  · rw [hnil] at hs
    simp at hs
  · have hle := hleast hahead s hs
    rw [hseq, ahead_self] at hle
    have hzero : seqCmp mn.seq jb.nextSeq = 0 := by
      rw [seqCmp, cmp_base (hahead mn hmem)]
      omega
    simp only [vmcJbPeek, hscan, hzero, hold mn hmem]
    simp

/-! ## at-most-once playout -/

/-- The calls a client makes on the buffer after `vmc_jb_init`. -/
inductive JbOp where
  | push (d : JbPacket)
  | peek (nowUs : UInt64)
  | consume
  | flushBefore (seq : UInt32)
deriving DecidableEq, Repr

/-- The buffer together with the sequence numbers consumed so far. -/
structure JbTrace where
  jb : JitterBuffer
  played : List UInt32

/-- One call; a consume that finds its slot plays the number at `next_seq`. -/
def jbStep (s : JbTrace) : JbOp → JbTrace
  | .push d => { s with jb := (vmcJbPush s.jb d).2 }
  | .peek nowUs => { s with jb := (vmcJbPeek s.jb nowUs).2 }
  | .consume =>
      { jb := vmcJbConsume s.jb
        played := s.played ++ if (findSlot s.jb s.jb.nextSeq).isSome then [s.jb.nextSeq] else [] }
  | .flushBefore seq => { s with jb := vmcJbFlushBefore s.jb seq }

/-- A run of calls on a fresh buffer. -/
def jbRun (targetDelayUs : UInt64) (ops : List JbOp) : JbTrace :=
  ops.foldl jbStep ⟨vmcJbInit targetDelayUs, []⟩

/-- The distinct sequence numbers pushed in a run. -/
def pushedSeqs (ops : List JbOp) : Finset UInt32 :=
  (ops.filterMap fun | .push d => some d.seq | _ => none).toFinset

/-- The buffer's promise: whatever is duplicated and however late, no sequence
number is played twice. -/
def AtMostOnce : Prop :=
  ∀ (targetDelayUs : UInt64) (ops : List JbOp), (pushedSeqs ops).card < 2 ^ 31 →
    (jbRun targetDelayUs ops).played.Nodup

/-- A one-byte datagram with sequence number 5. -/
def five (recvUs : UInt64) : JbPacket := ⟨5, 0, 1, 0, [5], recvUs⟩

/-- The promise is broken: the buffer forgets a number once it is played, so a
copy that arrives afterwards, inside the window, is taken for a late arrival and
played again. -/
theorem atMostOnce_fails : ¬ AtMostOnce := by
  intro h
  have hrun := h 10 [.push (five 0), .peek 10, .consume, .push (five 11), .peek 21, .consume]
    (by decide +kernel)
  revert hrun
  decide +kernel

/-- What keeps the promise: a number that has been played is not taken again,
being outside the window or finding the buffer full when it is pushed. -/
def StaysPlayed (s : JbTrace) : JbOp → Prop
  | .push d => d.seq ∈ s.played → acceptsPush s.jb d.seq = false
  | _ => True

instance (s : JbTrace) : (op : JbOp) → Decidable (StaysPlayed s op)
  | .push d => inferInstanceAs (Decidable (d.seq ∈ s.played → acceptsPush s.jb d.seq = false))
  | .peek _ | .consume | .flushBefore _ => .isTrue trivial

/-- Nothing was played twice, and what is buffered is neither duplicated nor
played already. -/
structure JbTrace.Once (s : JbTrace) : Prop where
  nodup : s.played.Nodup
  distinct : (s.jb.contents.map (·.seq)).Nodup
  unplayed : ∀ x ∈ s.jb.contents, x.seq ∉ s.played

theorem once_push {s : JbTrace} (hs : s.Once) (d : JbPacket)
    (hok : d.seq ∈ s.played → acceptsPush s.jb d.seq = false) : (jbStep s (.push d)).Once := by
  obtain ⟨-, -, hacc | hrej⟩ := push_spec s.jb d
  · obtain ⟨ha, -, -, hperm⟩ := hacc
    have hnew := ne_of_acceptsPush ha
    refine ⟨hs.nodup, ?_, ?_⟩
    · have hmap := hperm.map (·.seq)
      refine hmap.nodup_iff.mpr (List.nodup_cons.mpr ⟨?_, hs.distinct⟩)
      intro hmem
      obtain ⟨x, hx, hxs⟩ := List.mem_map.mp hmem
      exact hnew x hx hxs
    · intro x hx
      obtain rfl | hx := List.mem_cons.mp (hperm.mem_iff.mp hx)
      · intro hp
        have := hok hp
        simp [ha] at this
      · exact hs.unplayed x hx
  · obtain ⟨-, -, -, hslots⟩ := hrej
    have hcont : (vmcJbPush s.jb d).2.contents = s.jb.contents := by
      rw [JitterBuffer.contents, hslots]
      rfl
    exact ⟨hs.nodup, by simpa only [jbStep, hcont] using hs.distinct,
      by simpa only [jbStep, hcont] using hs.unplayed⟩

theorem once_consume {s : JbTrace} (hs : s.Once) : (jbStep s .consume).Once := by
  obtain ⟨hnone, heq⟩ | ⟨x, hx, hperm, -⟩ := consume_spec s.jb
  · have hf : findSlot s.jb s.jb.nextSeq = none := findSlot_eq_none_iff.mpr hnone
    simpa [jbStep, heq, hf] using hs
  · have hxm : x ∈ s.jb.contents := hperm.mem_iff.mpr (by simp)
    have hf : (findSlot s.jb s.jb.nextSeq).isSome := findSlot_isSome_iff.mpr ⟨x, hxm, hx⟩
    have hdist := (hperm.map (·.seq)).nodup_iff.mp hs.distinct
    rw [List.map_cons, List.nodup_cons] at hdist
    have hfresh : s.jb.nextSeq ∉ s.played := by
      rw [← hx]
      exact hs.unplayed x hxm
    simp only [jbStep, hf, if_true]
    refine ⟨?_, hdist.2, ?_⟩
    · rw [List.nodup_append]
      exact ⟨hs.nodup, by simp, fun a ha b hb => by
        obtain rfl : b = s.jb.nextSeq := by simpa using hb
        exact fun h => hfresh (h ▸ ha)⟩
    · intro y hy hmem
      obtain h | h := List.mem_append.mp hmem
      · exact hs.unplayed y (hperm.mem_iff.mpr (List.mem_cons_of_mem x hy)) h
      · -- the number just played had one slot only
        have hyx : y.seq = x.seq := by
          rw [hx]
          simpa using h
        exact hdist.1 (List.mem_map.mpr ⟨y, hy, hyx⟩)

theorem once_step {s : JbTrace} (hs : s.Once) (op : JbOp) (hok : StaysPlayed s op) :
    (jbStep s op).Once := by
  cases op with
  | push d => exact once_push hs d hok
  | peek nowUs =>
      exact ⟨hs.nodup, by simpa only [jbStep, contents_peek] using hs.distinct,
        by simpa only [jbStep, contents_peek] using hs.unplayed⟩
  | consume => exact once_consume hs
  | flushBefore seq =>
      have hsub := contents_flushBefore_sublist s.jb seq
      exact ⟨hs.nodup, (hsub.map _).nodup hs.distinct,
        fun x hx => hs.unplayed x (hsub.subset hx)⟩

/-- **At-most-once playout**, for every run in which no played number is taken
again: nothing is played twice in any state reached. -/
theorem played_once (targetDelayUs : UInt64) (ops : List JbOp)
    (hok : Run.Along (fun s op => some (jbStep s op)) StaysPlayed
      ⟨vmcJbInit targetDelayUs, []⟩ ops) :
    (jbRun targetDelayUs ops).played.Nodup := by
  have hinit : JbTrace.Once ⟨vmcJbInit targetDelayUs, []⟩ := ⟨by simp, by simp, by simp⟩
  have hrun := Run.exec_total jbStep ⟨vmcJbInit targetDelayUs, []⟩ ops
  refine (Run.exec_invariant JbTrace.Once ?_ hinit hok hrun).nodup
  intro s op s' hs hop heq
  obtain rfl := Option.some.inj heq
  exact once_step hs op hop

/-- Datagram 5 is played, then 261 over a gap; a copy of 5 that arrives after
that is out of the window and stays out. -/
theorem played_once_late_copy :
    (jbRun 10 [.push (five 0), .peek 10, .consume, .push { five 11 with seq := 261 }, .peek 21,
      .consume, .push (five 22)]).played.Nodup :=
  played_once 10 _ (by decide +kernel)

end Vmc
