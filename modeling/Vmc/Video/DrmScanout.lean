import Vmc.Core
import Vmc.Lib.Ring
import Vmc.Lib.Run

/-!
# Vmc.Video.DrmScanout

Scan-out through DRM dumb buffers and page flips (`video/drm_scanout.c`).

The decode worker acquires a free buffer, the present worker submits it for a
page flip, and the flip-complete event makes it the one on screen and frees the
one it replaces.  Which buffers are in use is recorded several times over:
`busy`, `on_screen`, `flip_pending` and the ring of submitted flips.

What ties them together is who owns each buffer (`DrmScanout.Owns`): a buffer
is held by a worker, submitted, or on screen, never two of these at once, and a
held or submitted one is busy.  Each operation passes a buffer on: acquiring
takes one that nobody owns, submitting makes a held one a flip under way, and an
event puts the oldest of those on screen.
-/

namespace Vmc

/-! ## data model -/

def vmcDrmMaxBufs : Nat := 8

def vmcDrmFlipHistory : Nat := 16

/-- The part of `vmc_drm_buffer` that changes. -/
structure DrmBuffer where
  busy : Bool
  lastFlipTs : UInt64
  submitWallUs : UInt64
deriving DecidableEq, Repr

/-- `vmc_drm_flip_rec`. -/
structure FlipRec where
  bufIdx : Nat
  submitUs : UInt64
deriving DecidableEq, Repr

/-- `vmc_drm_scanout`; an index that may be -1 is an option. -/
structure DrmScanout where
  nbufs : Nat
  next : Nat
  lastPresented : Nat
  flipPending : Option Nat
  onScreen : Option Nat
  lastCompleted : Option Nat
  lastFlipTsUs : UInt64
  flipsDone : UInt32
  bufs : List DrmBuffer
  flipHistory : List FlipRec
  flipHHead : Nat
  flipHTail : Nat
  bufsSize : bufs.length = vmcDrmMaxBufs
  historySize : flipHistory.length = vmcDrmFlipHistory
deriving DecidableEq

/-- `vmc_drm_scanout_init` where it succeeds: all zeros but for the buffer set
on the CRTC and the write cursor. -/
def vmcDrmScanoutInit (nbufs : Nat) : DrmScanout where
  nbufs := nbufs
  next := 1
  lastPresented := 0
  flipPending := none
  onScreen := some 0
  lastCompleted := some 0
  lastFlipTsUs := 0
  flipsDone := 0
  bufs := List.replicate vmcDrmMaxBufs ⟨false, 0, 0⟩
  flipHistory := List.replicate vmcDrmFlipHistory ⟨0, 0⟩
  flipHHead := 0
  flipHTail := 0
  bufsSize := List.length_replicate
  historySize := List.length_replicate

namespace DrmScanout

def busy (s : DrmScanout) (i : Nat) : Bool := (s.bufs[i]?).any (·.busy)

/-- Change one buffer. -/
def updateBuf (s : DrmScanout) (i : Nat) (f : DrmBuffer → DrmBuffer) : DrmScanout :=
  { s with bufs := s.bufs.modify i f, bufsSize := by rw [List.length_modify, s.bufsSize] }

/-- What a completed flip to buffer `idx` does, in both branches of the handler:
the buffer replaced is freed. -/
def replaceOnScreen (s : DrmScanout) (idx : Nat) (ts : UInt64) : DrmScanout :=
  let s :=
    match s.onScreen with
    | some old => s.updateBuf old fun b => { b with busy := false, lastFlipTs := ts }
    | none => s
  { s with onScreen := some idx, lastCompleted := some idx, flipPending := none }

/-- Append a record to the flip history; the oldest is given up if it is full. -/
def pushFlip (s : DrmScanout) (r : FlipRec) : DrmScanout :=
  { s with
    flipHTail :=
      if (s.flipHHead + 1) % vmcDrmFlipHistory = s.flipHTail then
        (s.flipHTail + 1) % vmcDrmFlipHistory
      else s.flipHTail
    flipHistory := s.flipHistory.set s.flipHHead r
    flipHHead := (s.flipHHead + 1) % vmcDrmFlipHistory
    historySize := by rw [List.length_set, s.historySize] }

/-- The buffer may be handed out. -/
def canAcquire (s : DrmScanout) (idx : Nat) : Bool :=
  !s.busy idx && s.onScreen ≠ some idx && s.flipPending ≠ some idx

end DrmScanout

/-! ## operations -/

/-- `flip_handler`. -/
def flipHandler (s : DrmScanout) (ts : UInt64) : DrmScanout :=
  let s :=
    if s.flipHHead ≠ s.flipHTail then
      match s.flipHistory[s.flipHTail]? with
      | some r =>
          { s with flipHTail := (s.flipHTail + 1) % vmcDrmFlipHistory }.replaceOnScreen r.bufIdx ts
      | none => s
    else
      -- a stray event without a record
      match s.flipPending with
      | some idx => s.replaceOnScreen idx ts
      | none => s
  { s with flipsDone := s.flipsDone + 1, lastFlipTsUs := ts }

/-- `vmc_drm_scanout_next_idx`: the first buffer from the cursor on that is free. -/
def vmcDrmScanoutNextIdx (s : DrmScanout) : Option Nat × DrmScanout :=
  match ((List.range s.nbufs).map fun i => (s.next + i) % s.nbufs).find? s.canAcquire with
  | some idx =>
      (some idx, { s.updateBuf idx fun b => { b with busy := true } with
        next := (idx + 1) % s.nbufs
        lastPresented := idx })
  | none => (none, s)

/-- What `drmModePageFlip` answers. -/
inductive FlipAnswer where
  | ok
  | ebusy
  | error
deriving DecidableEq, Repr

/-- The bookkeeping of an accepted flip. -/
def submitFlip (s : DrmScanout) (idx : Nat) (nowUs : UInt64) : DrmScanout :=
  { s.updateBuf idx fun b => { b with busy := true, submitWallUs := nowUs } with
    flipPending := some idx }.pushFlip ⟨idx, nowUs⟩

/-- One attempt of `vmc_drm_scanout_present`, the one numbered `tries`: the call
returns a status or, after it has waited for the pending flip, tries again. -/
def vmcDrmScanoutPresent (s : DrmScanout) (idx tries : Nat) (answer : FlipAnswer)
    (nowUs : UInt64) : DrmScanout × Option Status :=
  if s.nbufs ≤ idx then (s, some .invalidArg)
  else
    match answer with
    | .ok => (submitFlip s idx nowUs, some .ok)
    | .ebusy => (s, if tries + 1 < 3 then none else some .again)
    | .error => (s, some .io)

/-! ## who owns which buffer -/

namespace DrmScanout

variable {s : DrmScanout} {held : List Nat}

/-- How many flips are recorded. -/
def flipCount (s : DrmScanout) : Nat :=
  (s.flipHHead + vmcDrmFlipHistory - s.flipHTail) % vmcDrmFlipHistory

/-- The buffers submitted whose events have not been handled, oldest first. -/
def flips (s : DrmScanout) : List Nat :=
  (Ring.items s.flipHistory s.flipHTail s.flipCount).map (·.bufIdx)

/-- The buffers in somebody's use: `held` ones, submitted ones, the one on
screen. -/
def owned (s : DrmScanout) (held : List Nat) : List Nat := held ++ s.flips ++ s.onScreen.toList

/-- Each buffer has one owner at most, and all but the one on screen are marked
busy. -/
structure Owns (s : DrmScanout) (held : List Nat) : Prop where
  head : s.flipHHead < vmcDrmFlipHistory
  tail : s.flipHTail < vmcDrmFlipHistory
  nbufs : s.nbufs ≤ vmcDrmMaxBufs
  nodup : (s.owned held).Nodup
  bound : ∀ i ∈ s.owned held, i < s.nbufs
  busy : ∀ i ∈ held ++ s.flips, s.busy i = true
  pending : ∀ i, s.flipPending = some i → i ∈ s.flips

theorem busy_updateBuf (s : DrmScanout) (i : Nat) (f : DrmBuffer → DrmBuffer) (j : Nat) :
    (s.updateBuf i f).busy j = if i = j then ((s.bufs[j]?).map f).any (·.busy) else s.busy j := by
  simp only [busy, updateBuf, List.getElem?_modify]
  split
  · rfl
  · simp

/-- Marking a buffer busy. -/
theorem busy_mark {f : DrmBuffer → DrmBuffer} (hf : ∀ b, (f b).busy = true) {i : Nat}
    (hi : i < vmcDrmMaxBufs) (j : Nat) :
    (s.updateBuf i f).busy j = (decide (i = j) || s.busy j) := by
  rw [busy_updateBuf]
  by_cases h : i = j
  · rw [if_pos h, decide_eq_true h, Bool.true_or, ← h]
    have hlt : i < s.bufs.length := by rw [s.bufsSize]; exact hi
    simp [List.getElem?_eq_getElem hlt, hf]
  · rw [if_neg h, decide_eq_false h, Bool.false_or]

/-- Freeing a buffer. -/
theorem busy_free {f : DrmBuffer → DrmBuffer} (hf : ∀ b, (f b).busy = false) (i j : Nat) :
    (s.updateBuf i f).busy j = (decide (i ≠ j) && s.busy j) := by
  rw [busy_updateBuf]
  by_cases h : i = j
  · rw [if_pos h]
    cases s.bufs[j]? <;> simp [hf, h]
  · rw [if_neg h]
    simp [h]

theorem length_flips (s : DrmScanout) : s.flips.length = s.flipCount := by
  have hpos : 0 < s.flipHistory.length := by rw [s.historySize]; decide
  rw [flips, List.length_map, Ring.length_items hpos]

/-- There are no more flips under way than buffers, so the history never
overflows. -/
theorem Owns.flips_short (h : s.Owns held) : s.flips.length ≤ vmcDrmMaxBufs := by
  have hsub : s.owned held ⊆ List.range s.nbufs := fun i hi => List.mem_range.mpr (h.bound i hi)
  have hlen := (h.nodup.subperm hsub).length_le
  have hnb := h.nbufs
  simp only [owned, List.length_append, List.length_range] at hlen
  omega

/-- Giving up a held buffer. -/
theorem Owns.sublist {held' : List Nat} (h : s.Owns held) (hsub : held'.Sublist held) :
    s.Owns held' where
  head := h.head
  tail := h.tail
  nbufs := h.nbufs
  nodup := h.nodup.sublist ((hsub.append_right _).append_right _)
  bound := fun i hi => h.bound i (((hsub.append_right _).append_right _).subset hi)
  busy := fun i hi => h.busy i ((hsub.append_right _).subset hi)
  pending := h.pending

/-- Passing held buffers on. -/
theorem Owns.perm {held' : List Nat} (h : s.Owns held) (hperm : held'.Perm held) :
    s.Owns held' where
  head := h.head
  tail := h.tail
  nbufs := h.nbufs
  nodup := ((hperm.append_right _).append_right _).nodup_iff.mpr h.nodup
  bound := fun i hi => h.bound i (((hperm.append_right _).append_right _).subset hi)
  busy := fun i hi => h.busy i ((hperm.append_right _).subset hi)
  pending := h.pending

theorem owns_init {nbufs : Nat} (hpos : 0 < nbufs) (hnb : nbufs ≤ vmcDrmMaxBufs) :
    (vmcDrmScanoutInit nbufs).Owns [] := by
  have hflips : (vmcDrmScanoutInit nbufs).flips = [] := by
    simp [flips, flipCount, vmcDrmScanoutInit, vmcDrmFlipHistory]
  have howned : (vmcDrmScanoutInit nbufs).owned [] = [0] := by
    rw [owned, hflips]
    rfl
  refine ⟨Nat.zero_lt_succ _, Nat.zero_lt_succ _, hnb, ?_, ?_, by simp [hflips],
    by simp [vmcDrmScanoutInit]⟩
  · simp [howned]
  · rw [howned]
    simpa [vmcDrmScanoutInit] using hpos

/-- No operation changes the number of buffers. -/
theorem nbufs_nextIdx (s : DrmScanout) : (vmcDrmScanoutNextIdx s).2.nbufs = s.nbufs := by
  unfold vmcDrmScanoutNextIdx
  split <;> rfl

theorem nbufs_present (s : DrmScanout) (idx tries : Nat) (answer : FlipAnswer) (nowUs : UInt64) :
    (vmcDrmScanoutPresent s idx tries answer nowUs).1.nbufs = s.nbufs := by
  unfold vmcDrmScanoutPresent
  split
  · rfl
  · cases answer <;> rfl

theorem nbufs_flipHandler (s : DrmScanout) (ts : UInt64) : (flipHandler s ts).nbufs = s.nbufs := by
  simp only [flipHandler, replaceOnScreen, updateBuf]
  grind

/-- Without a free buffer nothing changes. -/
theorem nextIdx_none (h : (vmcDrmScanoutNextIdx s).1 = none) : (vmcDrmScanoutNextIdx s).2 = s := by
  unfold vmcDrmScanoutNextIdx at h ⊢
  split at h
  · contradiction
  · rfl

/-- A buffer handed out is one of those there are. -/
theorem nextIdx_lt {idx : Nat} (hidx : (vmcDrmScanoutNextIdx s).1 = some idx) : idx < s.nbufs := by
  unfold vmcDrmScanoutNextIdx at hidx
  split at hidx
  · next k hfind =>
    obtain rfl := Option.some.inj hidx
    obtain ⟨i, hi, hik⟩ := List.mem_map.mp (List.mem_of_find?_eq_some hfind)
    rw [← hik]
    exact Nat.mod_lt _ (Nat.zero_lt_of_lt (List.mem_range.mp hi))
  · contradiction

/-- **Acquire.**  The buffer handed out was in nobody's use and is held from
then on. -/
theorem owns_nextIdx {idx : Nat} (h : s.Owns held) (hidx : (vmcDrmScanoutNextIdx s).1 = some idx) :
    idx ∉ s.owned held ∧ idx < s.nbufs ∧ s.busy idx = false ∧
      (vmcDrmScanoutNextIdx s).2.Owns (held ++ [idx]) ∧
      (vmcDrmScanoutNextIdx s).2.flips = s.flips ∧
      (vmcDrmScanoutNextIdx s).2.onScreen = s.onScreen ∧
      ∀ j, (vmcDrmScanoutNextIdx s).2.busy j = (decide (idx = j) || s.busy j) := by
  have hlt := nextIdx_lt hidx
  unfold vmcDrmScanoutNextIdx at hidx ⊢
  cases hfind : ((List.range s.nbufs).map fun i => (s.next + i) % s.nbufs).find? s.canAcquire with
  | none => simp [hfind] at hidx
  | some k =>
      obtain rfl : k = idx := by simpa [hfind] using hidx
      have hcan := List.find?_some hfind
      simp only [canAcquire, Bool.and_eq_true, Bool.not_eq_true', decide_eq_true_eq] at hcan
      obtain ⟨⟨hfree, hscreen⟩, -⟩ := hcan
      have hmax := h.nbufs
      have hfresh : k ∉ s.owned held := by
        intro hk
        obtain hk | hk := List.mem_append.mp hk
        · rw [h.busy k hk] at hfree
          contradiction
        · exact hscreen (Option.mem_toList.mp hk)
      have hbusy : ∀ j, (s.updateBuf k fun b => { b with busy := true }).busy j =
          (decide (k = j) || s.busy j) := busy_mark (fun _ => rfl) (by omega)
      refine ⟨hfresh, hlt, hfree, ?_, rfl, rfl, hbusy⟩
      have hperm : (owned s (held ++ [k])).Perm (k :: s.owned held) := by
        simp only [owned, List.append_assoc]
        exact List.perm_middle
      refine ⟨h.head, h.tail, h.nbufs, ?_, ?_, ?_, h.pending⟩
      · exact hperm.nodup_iff.mpr (List.nodup_cons.mpr ⟨hfresh, h.nodup⟩)
      · intro j hj
        obtain rfl | hj := List.mem_cons.mp (hperm.mem_iff.mp hj)
        · exact hlt
        · exact h.bound j hj
      · intro j hj
        refine (hbusy j).trans ?_
        simp only [List.mem_append, List.mem_singleton] at hj
        obtain (hj | rfl) | hj := hj
        · rw [h.busy j (List.mem_append_left _ hj), Bool.or_true]
        · simp
        · rw [h.busy j (List.mem_append_right _ hj), Bool.or_true]

/-- Recording a flip appends it, as long as there is room. -/
theorem flips_pushFlip (hhead : s.flipHHead < vmcDrmFlipHistory)
    (htail : s.flipHTail < vmcDrmFlipHistory) (hroom : s.flips.length ≤ vmcDrmMaxBufs) (r : FlipRec) :
    (s.pushFlip r).flips = s.flips ++ [r.bufIdx] ∧
      (s.pushFlip r).flipHHead < vmcDrmFlipHistory ∧ (s.pushFlip r).flipHTail = s.flipHTail := by
  have hcount : s.flipCount ≤ vmcDrmMaxBufs := by rwa [length_flips] at hroom
  have hsize := s.historySize
  simp only [flipCount, vmcDrmFlipHistory, vmcDrmMaxBufs] at hhead htail hcount hsize
  have hfull : (s.flipHHead + 1) % 16 ≠ s.flipHTail := by omega
  have hpos : s.flipHHead = (s.flipHTail + s.flipCount) % s.flipHistory.length := by
    simp only [flipCount, vmcDrmFlipHistory, hsize]
    omega
  have htail' : (s.pushFlip r).flipHTail = s.flipHTail := if_neg hfull
  have hhead' : (s.pushFlip r).flipHHead = (s.flipHHead + 1) % 16 := rfl
  have hcount' : (s.pushFlip r).flipCount = s.flipCount + 1 := by
    simp only [flipCount, vmcDrmFlipHistory, htail', hhead']
    omega
  refine ⟨?_, by rw [hhead']; exact Nat.mod_lt _ (by decide), htail'⟩
  have hset : (s.pushFlip r).flipHistory =
      s.flipHistory.set ((s.flipHTail + s.flipCount) % s.flipHistory.length) r := by
    rw [← hpos]
    rfl
  have hlt : s.flipCount < s.flipHistory.length := by
    simp only [flipCount, vmcDrmFlipHistory, hsize]
    omega
  rw [flips, hset, htail', hcount', Ring.items_set hlt, List.map_append]
  rfl

/-- **Submit.**  A held buffer joins the flips under way. -/
theorem owns_submitFlip {idx : Nat} (h : s.Owns (idx :: held)) (nowUs : UInt64) :
    (submitFlip s idx nowUs).Owns held ∧ (submitFlip s idx nowUs).flips = s.flips ++ [idx] ∧
      (submitFlip s idx nowUs).onScreen = s.onScreen ∧
      ∀ j, (submitFlip s idx nowUs).busy j = s.busy j := by
  have hmax := h.nbufs
  have hlt : idx < s.nbufs := h.bound idx (by simp [owned])
  have hheld : s.busy idx = true := h.busy idx (by simp)
  have hbusy : ∀ j, (submitFlip s idx nowUs).busy j = s.busy j := by
    intro j
    have hmark := busy_mark (s := s) (f := fun b => { b with busy := true, submitWallUs := nowUs })
      (fun _ => rfl) (Nat.lt_of_lt_of_le hlt hmax) j
    refine hmark.trans ?_
    by_cases hj : idx = j
    · rw [← hj, hheld, Bool.or_true]
    · rw [decide_eq_false hj, Bool.false_or]
  obtain ⟨hflips, hhead, htail⟩ := flips_pushFlip
    (s := { s.updateBuf idx fun b => { b with busy := true, submitWallUs := nowUs } with
      flipPending := some idx }) h.head h.tail h.flips_short ⟨idx, nowUs⟩
  have hflips' : (submitFlip s idx nowUs).flips = s.flips ++ [idx] := hflips
  have hperm : ((submitFlip s idx nowUs).owned held).Perm (s.owned (idx :: held)) := by
    have hmid := @List.perm_middle _ idx (held ++ s.flips) s.onScreen.toList
    simp only [owned, hflips', List.append_assoc, List.cons_append] at hmid ⊢
    exact hmid
  refine ⟨⟨hhead, htail.symm ▸ h.tail, h.nbufs, hperm.nodup_iff.mpr h.nodup, ?_, ?_, ?_⟩, hflips',
    rfl, hbusy⟩
  · intro i hi
    exact h.bound i (hperm.mem_iff.mp hi)
  · intro i hi
    rw [hbusy]
    refine h.busy i ?_
    rw [hflips'] at hi
    simp only [List.mem_append, List.mem_cons, List.not_mem_nil, or_false] at hi ⊢
    tauto
  · intro i hi
    rw [hflips', ← Option.some.inj hi]
    simp

/-- A completed flip changes what is on screen and frees what was. -/
theorem busy_replaceOnScreen (s : DrmScanout) (idx : Nat) (ts : UInt64) (j : Nat) :
    (s.replaceOnScreen idx ts).busy j = (decide (s.onScreen ≠ some j) && s.busy j) := by
  cases hold : s.onScreen with
  | none => simp [replaceOnScreen, hold, busy]
  | some old =>
      have hfree := busy_free (s := s) (f := fun b => { b with busy := false, lastFlipTs := ts })
        (fun _ => rfl) old j
      have heq : (s.replaceOnScreen idx ts).busy j =
          (s.updateBuf old fun b => { b with busy := false, lastFlipTs := ts }).busy j := by
        simp [replaceOnScreen, hold, busy]
      rw [heq, hfree]
      simp

theorem frame_replaceOnScreen (s : DrmScanout) (idx : Nat) (ts : UInt64) :
    (s.replaceOnScreen idx ts).flips = s.flips ∧
      (s.replaceOnScreen idx ts).flipHHead = s.flipHHead ∧
      (s.replaceOnScreen idx ts).flipHTail = s.flipHTail ∧
      (s.replaceOnScreen idx ts).nbufs = s.nbufs := by
  cases hold : s.onScreen <;> simp [replaceOnScreen, hold, updateBuf, flips, flipCount]

/-- The handler takes the oldest record, if there is one. -/
theorem flips_cons {r : Nat} {rs : List Nat} (hhead : s.flipHHead < vmcDrmFlipHistory)
    (htail : s.flipHTail < vmcDrmFlipHistory) (hflips : s.flips = r :: rs) :
    s.flipHHead ≠ s.flipHTail ∧ ∃ rec, s.flipHistory[s.flipHTail]? = some rec ∧ rec.bufIdx = r ∧
      { s with flipHTail := (s.flipHTail + 1) % vmcDrmFlipHistory }.flips = rs := by
  have hlen := congrArg List.length hflips
  rw [length_flips, List.length_cons] at hlen
  have hsize := s.historySize
  have hlt : s.flipHTail < s.flipHistory.length := by rw [hsize]; exact htail
  have hget := List.getElem?_eq_getElem hlt
  have hcount : ({ s with flipHTail := (s.flipHTail + 1) % vmcDrmFlipHistory } : DrmScanout).flipCount
      = rs.length := by
    simp only [flipCount, vmcDrmFlipHistory] at hlen hhead htail ⊢
    omega
  have hne : s.flipHHead ≠ s.flipHTail := by
    intro heq
    simp only [flipCount, vmcDrmFlipHistory, heq] at hlen
    omega
  have hfirst : s.flipHistory[s.flipHTail % s.flipHistory.length]? = some s.flipHistory[s.flipHTail] := by
    rw [Nat.mod_eq_of_lt hlt, hget]
  have hitems := Ring.items_succ hfirst rs.length
  rw [flips, hlen, hitems, List.map_cons] at hflips
  refine ⟨hne, _, hget, (List.cons.inj hflips).1, ?_⟩
  rw [flips, hcount]
  simp only [← hsize, Ring.items_mod]
  exact (List.cons.inj hflips).2

theorem flipHandler_effect {r : Nat} {rs : List Nat} (hhead : s.flipHHead < vmcDrmFlipHistory)
    (htail : s.flipHTail < vmcDrmFlipHistory) (hflips : s.flips = r :: rs) (ts : UInt64) :
    (flipHandler s ts).flips = rs ∧ (flipHandler s ts).onScreen = some r ∧
      (flipHandler s ts).flipPending = none ∧ (flipHandler s ts).flipHHead = s.flipHHead ∧
      (flipHandler s ts).flipHTail < vmcDrmFlipHistory ∧ (flipHandler s ts).nbufs = s.nbufs ∧
      ∀ j, (flipHandler s ts).busy j = (decide (s.onScreen ≠ some j) && s.busy j) := by
  obtain ⟨hne, rec, hget, rfl, hrest⟩ := flips_cons hhead htail hflips
  obtain ⟨hflips', hhead', htail', hnbufs'⟩ := frame_replaceOnScreen
    { s with flipHTail := (s.flipHTail + 1) % vmcDrmFlipHistory } rec.bufIdx ts
  have hbusy := busy_replaceOnScreen
    { s with flipHTail := (s.flipHTail + 1) % vmcDrmFlipHistory } rec.bufIdx ts
  simp only [flipHandler, if_pos hne, hget]
  refine ⟨hflips'.trans hrest, rfl, rfl, hhead', ?_, hnbufs', hbusy⟩
  rw [htail']
  exact Nat.mod_lt _ (by decide)

/-- **Event.**  The oldest flip under way is now on screen, and the buffer it
replaces is free. -/
theorem owns_flipHandler {r : Nat} {rs : List Nat} (h : s.Owns held) (hflips : s.flips = r :: rs)
    (ts : UInt64) :
    (flipHandler s ts).Owns held ∧ (flipHandler s ts).flips = rs ∧
      (flipHandler s ts).onScreen = some r ∧
      ∀ j, (flipHandler s ts).busy j = (decide (s.onScreen ≠ some j) && s.busy j) := by
  obtain ⟨hflips', hscreen, hpending, hhead, htail, hnbufs, hbusy⟩ :=
    flipHandler_effect h.head h.tail hflips ts
  have hperm : (held ++ rs ++ [r]).Perm (held ++ s.flips) := by
    rw [hflips, List.append_assoc]
    exact List.Perm.append_left held (List.perm_append_singleton r rs)
  have howned : (flipHandler s ts).owned held = held ++ rs ++ [r] := by
    rw [owned, hflips', hscreen]
    rfl
  -- what is held or submitted is not the buffer replaced
  have hother : ∀ i ∈ held ++ s.flips, s.onScreen ≠ some i := by
    intro i hi hi'
    exact (List.nodup_append.mp h.nodup).2.2 i hi i (by simp [hi']) rfl
  refine ⟨⟨hhead ▸ h.head, htail, hnbufs ▸ h.nbufs, ?_, ?_, ?_, ?_⟩, hflips', hscreen, hbusy⟩
  · rw [howned]
    exact hperm.nodup_iff.mpr (List.nodup_append.mp h.nodup).1
  · rw [howned, hnbufs]
    intro i hi
    exact h.bound i (List.mem_append_left _ (hperm.mem_iff.mp hi))
  · rw [hflips']
    intro i hi
    have hi' : i ∈ held ++ s.flips := hperm.mem_iff.mp (List.mem_append_left _ hi)
    rw [hbusy, h.busy i hi', Bool.and_true, decide_eq_true]
    exact hother i hi'
  · rw [hpending]
    simp

/-- An event without a record changes nothing but the statistics: `flip_pending`
is only set while there is one. -/
theorem owns_flipHandler_stray (h : s.Owns held) (hflips : s.flips = []) (ts : UInt64) :
    (flipHandler s ts).Owns held ∧ (flipHandler s ts).flips = [] ∧
      (flipHandler s ts).onScreen = s.onScreen ∧ ∀ j, (flipHandler s ts).busy j = s.busy j := by
  have hlen := congrArg List.length hflips
  rw [length_flips, List.length_nil] at hlen
  have heq : s.flipHHead = s.flipHTail := by
    have hhead := h.head
    have htail := h.tail
    simp only [flipCount, vmcDrmFlipHistory] at hlen hhead htail
    omega
  have hpending : s.flipPending = none := by
    cases hp : s.flipPending with
    | none => rfl
    | some i =>
        have hmem := h.pending i hp
        rw [hflips] at hmem
        simp at hmem
  have hsame : flipHandler s ts = { s with flipsDone := s.flipsDone + 1, lastFlipTsUs := ts } := by
    simp [flipHandler, heq, hpending]
  rw [hsame]
  exact ⟨⟨h.head, h.tail, h.nbufs, h.nodup, h.bound, h.busy, h.pending⟩, hflips, rfl, fun _ => rfl⟩

end DrmScanout

end Vmc
