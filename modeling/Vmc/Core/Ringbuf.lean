import Vmc.Core
import Vmc.Lib.Ring
import Vmc.Lib.Run

/-!
# Vmc.Core.Ringbuf

The byte ring buffer of `core/ringbuf.c`, and that it is a bounded queue.

`head` and `tail` run freely and wrap with the machine word; only their low
bits, cut off by `mask`, index the storage.  A copy that leaves the storage (or
the caller's bytes) makes an operation `none`.
-/

namespace Vmc

open Bytes Run

/-! ## the buffer -/

/-- `vmc_ringbuf`. -/
structure VmcRingbuf where
  data : List UInt8
  mask : UInt64
  head : UInt64
  tail : UInt64
  count : UInt64
deriving DecidableEq, Repr

def rbMask (rb : VmcRingbuf) (idx : UInt64) : UInt64 := idx &&& rb.mask

def isPow2OrZero (n : UInt64) : Bool := n != 0 && (n &&& (n - 1)) == 0

def vmcRingbufInit (storage : List UInt8) (capacity : UInt64) : Except Status VmcRingbuf :=
  if !isPow2OrZero capacity then
    .error .invalidArg
  else
    .ok { data := storage, mask := capacity - 1, head := 0, tail := 0, count := 0 }

def vmcRingbufReset (rb : VmcRingbuf) : VmcRingbuf := { rb with head := 0, tail := 0, count := 0 }

def vmcRingbufCapacity (rb : VmcRingbuf) : UInt64 := rb.mask + 1

def vmcRingbufUsed (rb : VmcRingbuf) : UInt64 := rb.count

def vmcRingbufFree (rb : VmcRingbuf) : UInt64 := vmcRingbufCapacity rb - rb.count

/-- `vmc_ringbuf_write` of the `len` bytes at `data`: the number returned and
the buffer after the call. -/
def vmcRingbufWrite (rb : VmcRingbuf) (data : List UInt8) (len : UInt64) :
    Option (UInt64 × VmcRingbuf) :=
  if len = 0 then
    some (0, rb)
  else
    let len := if len > vmcRingbufFree rb then vmcRingbufFree rb else len
    let first := vmcRingbufCapacity rb - rbMask rb rb.head
    let n1 := if len < first then len else first
    do
      let front ← load data 0 n1.toNat
      let cells ← store rb.data (rbMask rb rb.head).toNat front
      let cells ←
        if len > n1 then do
          let back ← load data n1.toNat (len - n1).toNat
          store cells 0 back
        else
          some cells
      some (len, { rb with data := cells, head := rb.head + len, count := rb.count + len })

/-- The two copies to `out` that `vmc_ringbuf_read` and `vmc_ringbuf_peek` make
of `len` bytes. -/
def copyOut (rb : VmcRingbuf) (len : UInt64) : Option (List UInt8) :=
  let first := vmcRingbufCapacity rb - rbMask rb rb.tail
  let n1 := if len < first then len else first
  do
    let front ← load rb.data (rbMask rb rb.tail).toNat n1.toNat
    if len > n1 then do
      let back ← load rb.data 0 (len - n1).toNat
      some (front ++ back)
    else
      some front

/-- `vmc_ringbuf_read`, with or without an `out` to copy to: the number
returned, the bytes copied and the buffer after the call. -/
def vmcRingbufRead (rb : VmcRingbuf) (out : Bool) (len : UInt64) :
    Option (UInt64 × List UInt8 × VmcRingbuf) :=
  let len := if len > rb.count then rb.count else len
  if len = 0 then
    some (0, [], rb)
  else do
    let bytes ← if out then copyOut rb len else some []
    some (len, bytes, { rb with tail := rb.tail + len, count := rb.count - len })

/-- `vmc_ringbuf_peek`. -/
def vmcRingbufPeek (rb : VmcRingbuf) (len : UInt64) : Option (UInt64 × List UInt8) :=
  let len := if len > rb.count then rb.count else len
  if len = 0 then
    some (0, [])
  else do
    let bytes ← copyOut rb len
    some (len, bytes)

/-- `vmc_ringbuf_discard`. -/
def vmcRingbufDiscard (rb : VmcRingbuf) (len : UInt64) : UInt64 × VmcRingbuf :=
  let len := if len > rb.count then rb.count else len
  (len, { rb with tail := rb.tail + len, count := rb.count - len })

/-! ## representation -/

/-- The buffer holds the queue `q`: `q` is what stands in the storage from
`tail` on, and `head` is behind it. -/
structure VmcRingbuf.Holds (rb : VmcRingbuf) (q : List UInt8) : Prop where
  pow2 : ∃ k, k < 64 ∧ rb.data.length = 2 ^ k
  mask : rb.mask.toNat + 1 = rb.data.length
  count : rb.count.toNat = q.length
  fits : q.length ≤ rb.data.length
  head : rb.head.toNat % rb.data.length = (rb.tail.toNat + q.length) % rb.data.length
  items : Ring.items rb.data rb.tail.toNat q.length = q

namespace VmcRingbuf.Holds

variable {rb : VmcRingbuf} {q : List UInt8}

theorem length_lt (h : rb.Holds q) : rb.data.length < 2 ^ 64 := by
  obtain ⟨k, hk, hlen⟩ := h.pow2
  rw [hlen]
  exact Nat.pow_lt_pow_right (by omega) hk

theorem length_pos (h : rb.Holds q) : 0 < rb.data.length := by
  have := h.mask
  omega

theorem toNat_capacity (h : rb.Holds q) : (vmcRingbufCapacity rb).toNat = rb.data.length := by
  have hlt := h.length_lt
  rw [vmcRingbufCapacity, UInt64.toNat_add, UInt64.toNat_one, h.mask, Nat.mod_eq_of_lt hlt]

/-- Masking is the remainder by the capacity. -/
theorem toNat_rbMask (h : rb.Holds q) (idx : UInt64) :
    (rbMask rb idx).toNat = idx.toNat % rb.data.length := by
  obtain ⟨k, -, hlen⟩ := h.pow2
  have hmask : rb.mask.toNat = 2 ^ k - 1 := by
    have := h.mask
    omega
  rw [rbMask, UInt64.toNat_and, hmask, Nat.and_two_pow_sub_one_eq_mod, hlen]

/-- The capacity divides the range of the counters, so their wrap does not
show. -/
theorem toNat_add_mod (h : rb.Holds q) (a b : UInt64) :
    (a + b).toNat % rb.data.length = (a.toNat + b.toNat) % rb.data.length := by
  obtain ⟨k, hk, hlen⟩ := h.pow2
  rw [UInt64.toNat_add, hlen, Nat.mod_mod_of_dvd _ (Nat.pow_dvd_pow 2 (by omega))]

theorem toNat_free (h : rb.Holds q) :
    (vmcRingbufFree rb).toNat = rb.data.length - q.length := by
  have hle : rb.count ≤ vmcRingbufCapacity rb := by
    rw [UInt64.le_iff_toNat_le, h.toNat_capacity, h.count]
    exact h.fits
  rw [vmcRingbufFree, UInt64.toNat_sub_of_le _ _ hle, h.toNat_capacity, h.count]

/-- The cells up to the end of the storage. -/
theorem toNat_first (h : rb.Holds q) (idx : UInt64) :
    (vmcRingbufCapacity rb - rbMask rb idx).toNat =
      rb.data.length - idx.toNat % rb.data.length := by
  have hlt := Nat.mod_lt idx.toNat h.length_pos
  have hle : rbMask rb idx ≤ vmcRingbufCapacity rb := by
    rw [UInt64.le_iff_toNat_le, h.toNat_capacity, h.toNat_rbMask]
    omega
  rw [UInt64.toNat_sub_of_le _ _ hle, h.toNat_capacity, h.toNat_rbMask]

end VmcRingbuf.Holds

/-- A length cut down to what there is. -/
theorem toNat_clamp (len a : UInt64) :
    (if len > a then a else len).toNat = min len.toNat a.toNat := by
  split
  · next h =>
      rw [gt_iff_lt, UInt64.lt_iff_toNat_lt] at h
      omega
  · next h =>
      rw [gt_iff_lt, UInt64.lt_iff_toNat_lt] at h
      omega

/-- Where a copy of `len` bytes is cut: all of it fits before the end of the
storage, or `first` bytes of it do. -/
theorem cut_cases (len first : UInt64) :
    (len.toNat ≤ first.toNat ∧ (if len < first then len else first) = len) ∨
      (first.toNat < len.toNat ∧ (if len < first then len else first) = first) := by
  split
  · next h =>
      rw [UInt64.lt_iff_toNat_lt] at h
      exact .inl ⟨by omega, rfl⟩
  · next h =>
      rw [UInt64.lt_iff_toNat_lt] at h
      rcases Nat.lt_or_ge first.toNat len.toNat with hlt | hge
      · exact .inr ⟨hlt, rfl⟩
      · exact .inl ⟨hge, UInt64.toNat_inj.mp (by omega)⟩

/-! ## the copies -/

namespace VmcRingbuf.Holds

variable {rb : VmcRingbuf} {q : List UInt8}

/-- The copies out stay inside the storage and fetch the front of the queue. -/
theorem copyOut_eq (h : rb.Holds q) {len : UInt64} (hlen : len.toNat ≤ q.length) :
    copyOut rb len = some (q.take len.toNat) := by
  have hfits := h.fits
  have hoff := Nat.mod_lt rb.tail.toNat h.length_pos
  have hq : q.take len.toNat = (rb.data.drop (rb.tail.toNat % rb.data.length)).take len.toNat ++
      rb.data.take (len.toNat - (rb.data.length - rb.tail.toNat % rb.data.length)) := by
    rw [← Ring.items_eq_pieces hoff (by omega), Ring.items_mod,
      ← Ring.take_items hlen h.fits, h.items]
  have hfirst := h.toNat_first rb.tail
  have htail := h.toNat_rbMask rb.tail
  unfold copyOut
  rw [hq]
  generalize vmcRingbufCapacity rb - rbMask rb rb.tail = first at hfirst ⊢
  rcases cut_cases len first with ⟨hle, hcut⟩ | ⟨hlt, hcut⟩
  · have hno : ¬ len > len := by simp
    simp only [hcut, if_neg hno, htail]
    rw [load_eq (by omega), ← hfirst, Nat.sub_eq_zero_of_le hle]
    simp
  · have hyes : len > first := UInt64.lt_iff_toNat_lt.mpr hlt
    have hsub := UInt64.toNat_sub_of_le len first (UInt64.le_iff_toNat_le.mpr (by omega))
    simp only [hcut, if_pos hyes, htail, hsub]
    rw [load_eq (by omega), load_eq (by omega)]
    simp only [Option.bind_eq_bind, Option.bind_some, List.drop_zero]
    rw [← hfirst, List.take_of_length_le (i := first.toNat) (by simp; omega),
      List.take_of_length_le (i := len.toNat) (by simp; omega)]

/-- The copies in stay inside the storage and go round behind the queue. -/
theorem write_eq (h : rb.Holds q) {data : List UInt8} {len : UInt64}
    (hdata : len.toNat ≤ data.length) (hpos : len ≠ 0) :
    ∃ n : UInt64, n.toNat = min len.toNat (rb.data.length - q.length) ∧
      vmcRingbufWrite rb data len = some (n,
        { rb with
          data := Ring.put rb.data (rb.head.toNat % rb.data.length) (data.take n.toNat)
          head := rb.head + n
          count := rb.count + n }) := by
  have hfits := h.fits
  have hoff := Nat.mod_lt rb.head.toNat h.length_pos
  have hfree := h.toNat_free
  have hfirst := h.toNat_first rb.head
  have hhead := h.toNat_rbMask rb.head
  have hn := toNat_clamp len (vmcRingbufFree rb)
  unfold vmcRingbufWrite
  rw [if_neg hpos]
  generalize (if len > vmcRingbufFree rb then vmcRingbufFree rb else len) = n at hn ⊢
  generalize vmcRingbufCapacity rb - rbMask rb rb.head = first at hfirst ⊢
  rw [hfree] at hn
  refine ⟨n, hn, ?_⟩
  rcases cut_cases n first with ⟨hle, hcut⟩ | ⟨hlt, hcut⟩
  · have hno : ¬ n > n := by simp
    simp only [hcut, if_neg hno, hhead]
    rw [load_eq (by omega)]
    simp only [Option.bind_eq_bind, Option.bind_some, List.drop_zero]
    rw [store_eq (by simp; omega), Ring.put_of_le (by simp; omega)]
    rfl
  · have hyes : n > first := UInt64.lt_iff_toNat_lt.mpr hlt
    have hsub := UInt64.toNat_sub_of_le n first (UInt64.le_iff_toNat_le.mpr (by omega))
    simp only [hcut, if_pos hyes, hhead, hsub]
    rw [load_eq (by omega), load_eq (by omega)]
    simp only [Option.bind_eq_bind, Option.bind_some, List.drop_zero]
    rw [store_eq (by simp; omega)]
    simp only [Option.bind_some]
    rw [store_eq (by rw [length_splice] <;> simp <;> omega)]
    simp only [Option.bind_some]
    rw [Ring.put, List.take_take, List.drop_take, ← hfirst, Nat.min_eq_left (by omega)]

/-- Dropping `n` bytes off the front. -/
theorem advance (h : rb.Holds q) {n : UInt64} (hn : n.toNat ≤ q.length) :
    ({ rb with tail := rb.tail + n, count := rb.count - n } : VmcRingbuf).Holds
      (q.drop n.toNat) where
  pow2 := h.pow2
  mask := h.mask
  count := by
    show (rb.count - n).toNat = (q.drop n.toNat).length
    rw [UInt64.toNat_sub_of_le _ _ (UInt64.le_iff_toNat_le.mpr (by rw [h.count]; exact hn)), h.count,
      List.length_drop]
  fits := by
    have hfits := h.fits
    show (q.drop n.toNat).length ≤ rb.data.length
    rw [List.length_drop]
    omega
  head := by
    show rb.head.toNat % rb.data.length =
      ((rb.tail + n).toNat + (q.drop n.toNat).length) % rb.data.length
    rw [h.head, List.length_drop, ← Nat.mod_add_mod (rb.tail + n).toNat, h.toNat_add_mod,
      Nat.mod_add_mod]
    congr 1
    omega
  items := by
    show Ring.items rb.data (rb.tail + n).toNat (q.drop n.toNat).length = q.drop n.toNat
    rw [← Ring.items_mod, h.toNat_add_mod, Ring.items_mod, List.length_drop,
      ← Ring.drop_items hn h.fits, h.items]

/-- Bytes put behind the queue are appended to it. -/
theorem append (h : rb.Holds q) {n : UInt64} {ds : List UInt8} (hds : ds.length = n.toNat)
    (hroom : q.length + n.toNat ≤ rb.data.length) :
    ({ rb with
      data := Ring.put rb.data (rb.head.toNat % rb.data.length) ds
      head := rb.head + n
      count := rb.count + n } : VmcRingbuf).Holds (q ++ ds) := by
  have hoff := Nat.mod_lt rb.head.toNat h.length_pos
  have hlt := h.length_lt
  have hlen : (Ring.put rb.data (rb.head.toNat % rb.data.length) ds).length = rb.data.length :=
    Ring.length_put hoff (by omega)
  constructor
  · simpa only [hlen] using h.pow2
  · simpa only [hlen] using h.mask
  · show (rb.count + n).toNat = (q ++ ds).length
    rw [UInt64.toNat_add, h.count, List.length_append, hds, Nat.mod_eq_of_lt (by omega)]
  · simp only [hlen, List.length_append]
    omega
  · simp only [hlen, List.length_append]
    rw [h.toNat_add_mod, Nat.add_mod, h.head, ← Nat.add_mod, hds, Nat.add_assoc]
  · show Ring.items (Ring.put rb.data (rb.head.toNat % rb.data.length) ds) rb.tail.toNat
      (q ++ ds).length = q ++ ds
    rw [h.head, List.length_append, Ring.items_put (by omega), h.items]

end VmcRingbuf.Holds

/-! ## the queue -/

/-- A call of the interface.  The caller's `data` has the `len` bytes it
announces. -/
inductive RingbufOp where
  | write (data : List UInt8) (len : UInt64) (hdata : len.toNat ≤ data.length)
  | read (out : Bool) (len : UInt64)
  | peek (len : UInt64)
  | discard (len : UInt64)
  | reset

/-- What a call returns and copies to `out`. -/
structure RingbufResult where
  ret : Nat
  out : List UInt8
deriving DecidableEq, Repr

/-- The call on the buffer. -/
def VmcRingbuf.apply (rb : VmcRingbuf) : RingbufOp → Option (RingbufResult × VmcRingbuf)
  | .write data len _ => (vmcRingbufWrite rb data len).map fun (n, rb) => (⟨n.toNat, []⟩, rb)
  | .read out len => (vmcRingbufRead rb out len).map fun (n, bytes, rb) => (⟨n.toNat, bytes⟩, rb)
  | .peek len => (vmcRingbufPeek rb len).map fun (n, bytes) => (⟨n.toNat, bytes⟩, rb)
  | .discard len => some (⟨(vmcRingbufDiscard rb len).1.toNat, []⟩, (vmcRingbufDiscard rb len).2)
  | .reset => some (⟨0, []⟩, vmcRingbufReset rb)

/-- The call on a queue of at most `capacity` bytes. -/
def queueApply (capacity : Nat) (q : List UInt8) : RingbufOp → RingbufResult × List UInt8
  | .write data len _ =>
      (⟨min len.toNat (capacity - q.length), []⟩,
        q ++ (data.take len.toNat).take (capacity - q.length))
  | .read out len =>
      (⟨min len.toNat q.length, if out then q.take len.toNat else []⟩, q.drop len.toNat)
  | .peek len => (⟨min len.toNat q.length, q.take len.toNat⟩, q)
  | .discard len => (⟨min len.toNat q.length, []⟩, q.drop len.toNat)
  | .reset => (⟨0, []⟩, [])

variable {rb : VmcRingbuf} {q : List UInt8}

theorem write_refines (h : rb.Holds q) {data : List UInt8} {len : UInt64}
    (hdata : len.toNat ≤ data.length) :
    ∃ n rb', vmcRingbufWrite rb data len = some (n, rb') ∧
      n.toNat = min len.toNat (rb.data.length - q.length) ∧ rb'.data.length = rb.data.length ∧
      rb'.Holds (q ++ (data.take len.toNat).take (rb.data.length - q.length)) := by
  by_cases hzero : len = 0
  · subst hzero
    exact ⟨0, rb, rfl, by simp, rfl, by simpa using h⟩
  obtain ⟨n, hn, heq⟩ := h.write_eq hdata hzero
  have hfits := h.fits
  have htake : (data.take len.toNat).take (rb.data.length - q.length) = data.take n.toNat := by
    rw [List.take_take, hn, Nat.min_comm]
  have hds : (data.take n.toNat).length = n.toNat := by
    simp
    omega
  rw [htake]
  refine ⟨n, _, heq, hn, ?_, h.append hds (by omega)⟩
  exact Ring.length_put (Nat.mod_lt _ h.length_pos) (by omega)

/-- A length cut down to the queue's takes and drops the same. -/
theorem clamped (h : rb.Holds q) (len : UInt64) :
    ∃ n, (if len > rb.count then rb.count else len) = n ∧ n.toNat = min len.toNat q.length ∧
      n.toNat ≤ q.length ∧ q.take n.toNat = q.take len.toNat ∧ q.drop n.toNat = q.drop len.toNat := by
  refine ⟨_, rfl, ?_⟩
  have hn := toNat_clamp len rb.count
  rw [h.count] at hn
  rw [hn]
  exact ⟨rfl, Nat.min_le_right _ _, List.take_eq_take_min.symm, List.drop_eq_drop_min.symm⟩

theorem discard_refines (h : rb.Holds q) (len : UInt64) :
    (vmcRingbufDiscard rb len).1.toNat = min len.toNat q.length ∧
      (vmcRingbufDiscard rb len).2.data.length = rb.data.length ∧
      (vmcRingbufDiscard rb len).2.Holds (q.drop len.toNat) := by
  obtain ⟨n, hdef, hn, hle, -, hdrop⟩ := clamped h len
  unfold vmcRingbufDiscard
  rw [hdef, ← hdrop]
  exact ⟨hn, rfl, h.advance hle⟩

theorem peek_refines (h : rb.Holds q) (len : UInt64) :
    ∃ n, vmcRingbufPeek rb len = some (n, q.take len.toNat) ∧
      n.toNat = min len.toNat q.length := by
  obtain ⟨n, hdef, hn, hle, htake, -⟩ := clamped h len
  refine ⟨n, ?_, hn⟩
  unfold vmcRingbufPeek
  rw [hdef, ← htake]
  by_cases hzero : n = 0
  · simp [hzero]
  · simp [hzero, h.copyOut_eq hle]

theorem read_refines (h : rb.Holds q) (out : Bool) (len : UInt64) :
    ∃ n rb', vmcRingbufRead rb out len = some (n, if out then q.take len.toNat else [], rb') ∧
      n.toNat = min len.toNat q.length ∧ rb'.data.length = rb.data.length ∧
      rb'.Holds (q.drop len.toNat) := by
  obtain ⟨n, hdef, hn, hle, htake, hdrop⟩ := clamped h len
  unfold vmcRingbufRead
  rw [hdef, ← htake, ← hdrop]
  by_cases hzero : n = 0
  · subst hzero
    exact ⟨0, rb, by simp, hn, rfl, by simpa using h⟩
  · refine ⟨n, _, ?_, hn, ?_, h.advance hle⟩
    · cases out
      · simp [hzero]
      · simp [hzero, h.copyOut_eq hle]
    · rfl

/-- **One call** does on the storage what it does on the queue, and leaves the
size of the storage alone. -/
theorem apply_refines {capacity : Nat} (h : rb.Holds q) (hcap : rb.data.length = capacity)
    (op : RingbufOp) :
    ∃ rb', rb.apply op = some ((queueApply capacity q op).1, rb') ∧
      rb'.Holds (queueApply capacity q op).2 ∧ rb'.data.length = capacity := by
  subst hcap
  cases op with
  | write data len hdata =>
      obtain ⟨n, rb', heq, hn, hlen, hrep⟩ := write_refines h hdata
      exact ⟨rb', by simp [VmcRingbuf.apply, queueApply, heq, hn], hrep, hlen⟩
  | read out len =>
      obtain ⟨n, rb', heq, hn, hlen, hrep⟩ := read_refines h out len
      exact ⟨rb', by simp [VmcRingbuf.apply, queueApply, heq, hn], hrep, hlen⟩
  | peek len =>
      obtain ⟨n, heq, hn⟩ := peek_refines h len
      exact ⟨rb, by simp [VmcRingbuf.apply, queueApply, heq, hn], h, rfl⟩
  | discard len =>
      obtain ⟨hn, hlen, hrep⟩ := discard_refines h len
      exact ⟨_, by simp [VmcRingbuf.apply, queueApply, hn], hrep, hlen⟩
  | reset =>
      refine ⟨_, rfl, ⟨h.pow2, h.mask, rfl, by simp [queueApply], rfl, rfl⟩, rfl⟩

theorem isPow2OrZero_of_pow {capacity : UInt64} {k : Nat} (h : capacity.toNat = 2 ^ k) :
    isPow2OrZero capacity = true := by
  have hpos : 0 < capacity.toNat := h ▸ Nat.two_pow_pos k
  have hne : capacity ≠ 0 := by
    rintro rfl
    simp at hpos
  have hone : (1 : UInt64) ≤ capacity := UInt64.le_iff_toNat_le.mpr hpos
  have hand : capacity &&& (capacity - 1) = 0 := by
    apply UInt64.toNat_inj.mp
    rw [UInt64.toNat_and, UInt64.toNat_sub_of_le _ _ hone, h, UInt64.toNat_one,
      Nat.and_two_pow_sub_one_eq_mod, Nat.mod_self]
    rfl
  simp [isPow2OrZero, hne, hand]

/-- A buffer that was just set up is empty. -/
theorem holds_init {storage : List UInt8} {capacity : UInt64} {k : Nat}
    (hpow : capacity.toNat = 2 ^ k) (hsto : storage.length = capacity.toNat) :
    ∃ rb, vmcRingbufInit storage capacity = .ok rb ∧ rb.data.length = capacity.toNat ∧
      rb.Holds [] := by
  refine ⟨⟨storage, capacity - 1, 0, 0, 0⟩, ?_, hsto, ?_⟩
  · simp [vmcRingbufInit, isPow2OrZero_of_pow hpow]
  · have hpos : 0 < capacity.toNat := hpow ▸ Nat.two_pow_pos k
    have hone : (1 : UInt64) ≤ capacity := UInt64.le_iff_toNat_le.mpr hpos
    have hlt := capacity.toNat_lt
    have hk : k < 64 := by
      rw [hpow] at hlt
      exact (Nat.pow_lt_pow_iff_right (by omega)).mp hlt
    refine ⟨⟨k, hk, hsto.trans hpow⟩, ?_, rfl, Nat.zero_le _, rfl, rfl⟩
    show (capacity - 1).toNat + 1 = storage.length
    rw [UInt64.toNat_sub_of_le _ _ hone, hsto, UInt64.toNat_one]
    omega

/-- **The ring buffer is a bounded byte queue.**  On storage of any power of two
bytes, whatever calls are made after `vmc_ringbuf_init`, every copy stays inside
the storage, and the calls return and copy out what they do on a queue of at
most that many bytes, which the buffer holds in the end. -/
theorem ringbuf_refines_queue {storage : List UInt8} {capacity : UInt64} {k : Nat}
    (hpow : capacity.toNat = 2 ^ k) (hsto : storage.length = capacity.toNat)
    (ops : List RingbufOp) :
    ∃ rb, vmcRingbufInit storage capacity = .ok rb ∧
      ∃ results rb' q, play VmcRingbuf.apply rb ops = some (results, rb') ∧
        play (fun q op => some (queueApply capacity.toNat q op)) [] ops = some (results, q) ∧
        (vmcRingbufUsed rb').toNat = q.length ∧ q.length ≤ capacity.toNat ∧ rb'.Holds q := by
  obtain ⟨rb, hinit, hlen, hrep⟩ := holds_init hpow hsto
  refine ⟨rb, hinit, ?_⟩
  obtain ⟨results, rb', q, hrb, hq, hrep', hlen'⟩ := play_refines
    (fun (rb : VmcRingbuf) q => rb.Holds q ∧ rb.data.length = capacity.toNat)
    (fun rb q op h => apply_refines h.1 h.2 op) ⟨hrep, hlen⟩ ops
  exact ⟨results, rb', q, hrb, hq, hrep'.count, hlen' ▸ hrep'.fits, hrep'⟩

/-- Three bytes written, two read and three more written across the end of a
storage of four bytes. -/
def fourCalls : List RingbufOp :=
  [.write [1, 2, 3] 3 (Nat.le_refl 3), .read true 2, .write [4, 5, 6, 7] 4 (Nat.le_refl 4), .peek 9]

theorem ringbuf_refines_queue_four :
    ∃ rb, vmcRingbufInit [0, 0, 0, 0] 4 = .ok rb ∧
      ∃ results rb' q, play VmcRingbuf.apply rb fourCalls = some (results, rb') ∧
        play (fun q op => some (queueApply 4 q op)) [] fourCalls = some (results, q) ∧
        (vmcRingbufUsed rb').toNat = q.length ∧ q.length ≤ 4 ∧ rb'.Holds q :=
  @ringbuf_refines_queue [0, 0, 0, 0] 4 2 rfl rfl fourCalls

end Vmc
