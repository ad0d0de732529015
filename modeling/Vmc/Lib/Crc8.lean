import Mathlib.Data.List.Basic
import Mathlib.Tactic

/-!
# Vmc.Lib.Crc8

CRC-8 with a zero initial value, as polynomial long division over GF(2).

`remainder poly msg` is the definition: the message bits, most significant
first, followed by eight zero bits, are shifted through an eight-bit register,
and `x ^ 8 + poly` is subtracted whenever a one leaves at the top.  The
byte-at-a-time form `updateByte` found in programs (fold the byte in, then shift
eight times) is shown equal to it by `foldl_updateByte_zero`.

One shift is linear in the register and the incoming bit (`shiftIn_xor`);
everything else follows from that.  In particular the remainder of a changed
message is that of the message plus that of the change (`remainder_xorBytes`), and
for an odd divisor the remainder of a change within eight consecutive bits is
never zero (`remainder_burst`).
-/

namespace Crc8

/-- Shift one bit into the register, subtracting the divisor if a one falls out
at the top. -/
def shiftIn (poly r : UInt8) (x : Bool) : UInt8 :=
  ((r <<< 1) ^^^ (if x then 1 else 0)) ^^^ (if r &&& 0x80 ≠ 0 then poly else 0)

/-- Shift a run of bits into the register. -/
def shiftInAll (poly r : UInt8) (xs : List Bool) : UInt8 := xs.foldl (shiftIn poly) r

/-- The bits of a byte, most significant first. -/
def bitsOf (b : UInt8) : List Bool :=
  [7, 6, 5, 4, 3, 2, 1, 0].map fun i : Nat => b.toNat.testBit i

/-- The bits of a message, most significant bit of the first byte first. -/
def bits (msg : List UInt8) : List Bool := msg.flatMap bitsOf

/-- **CRC-8**: the remainder of the message polynomial times `x ^ 8`. -/
def remainder (poly : UInt8) (msg : List UInt8) : UInt8 :=
  shiftInAll poly 0 (bits msg ++ List.replicate 8 false)

/-! ## linearity -/

/-- A property of bytes is checked on all 256 of them. -/
theorem forall_byte {p : UInt8 → Prop} (h : ∀ n : Fin 256, p (UInt8.ofNat n)) (b : UInt8) : p b := by
  have hb := h ⟨b.toNat, b.toNat_lt⟩
  rwa [UInt8.ofNat_toNat] at hb

private theorem topBit_iff (c : UInt8) : c &&& 0x80 ≠ 0 ↔ c.toBitVec.msb = true := by
  revert c
  exact forall_byte (by decide +kernel)

private theorem shiftLeft_xor (r s : UInt8) : (r ^^^ s) <<< 1 = (r <<< 1) ^^^ (s <<< 1) := by
  apply UInt8.toBitVec_inj.mp
  simp [BitVec.shiftLeft_xor_distrib]

private theorem xor_xor_xor (a b c d : UInt8) : (a ^^^ b) ^^^ (c ^^^ d) = (a ^^^ c) ^^^ (b ^^^ d) := by
  simp only [UInt8.xor_assoc]
  rw [← UInt8.xor_assoc b c d, UInt8.xor_comm b c, UInt8.xor_assoc c b d]

private theorem ite_xor (p q : Bool) (a : UInt8) :
    (if p ^^ q then a else 0) = (if p then a else 0) ^^^ (if q then a else 0) := by
  cases p <;> cases q <;> simp

/-- One shift is linear in the register and the incoming bit. -/
theorem shiftIn_xor (poly r s : UInt8) (x y : Bool) :
    shiftIn poly (r ^^^ s) (x ^^ y) = shiftIn poly r x ^^^ shiftIn poly s y := by
  simp only [shiftIn, topBit_iff, UInt8.toBitVec_xor, BitVec.msb_xor]
  rw [shiftLeft_xor, ite_xor x y, ite_xor _ _ poly, xor_xor_xor (r <<< 1), xor_xor_xor]

/-- A run of shifts is linear, bit string against bit string of equal length. -/
theorem shiftInAll_xor (poly r s : UInt8) (xs ys : List Bool) (h : xs.length = ys.length) :
    shiftInAll poly (r ^^^ s) (List.zipWith (· ^^ ·) xs ys) =
      shiftInAll poly r xs ^^^ shiftInAll poly s ys := by
  induction xs generalizing r s ys with
  | nil =>
      obtain rfl : ys = [] := List.length_eq_zero_iff.mp h.symm
      rfl
  | cons x xs ih =>
      obtain ⟨y, ys, rfl⟩ := List.exists_cons_of_length_eq_add_one h.symm
      simp only [shiftInAll, List.zipWith_cons_cons, List.foldl_cons] at ih ⊢
      rw [shiftIn_xor]
      exact ih _ _ _ (by simpa using h)

theorem shiftInAll_append (poly r : UInt8) (xs ys : List Bool) :
    shiftInAll poly r (xs ++ ys) = shiftInAll poly (shiftInAll poly r xs) ys :=
  List.foldl_append

/-! ## shifting in a whole byte -/

@[simp] theorem length_bitsOf (b : UInt8) : (bitsOf b).length = 8 := rfl

/-- While the register stays below its top bit, a shift doubles it and adds the
incoming bit, whatever the divisor. -/
private theorem shiftIn_small (poly r : UInt8) (x : Bool) (hr : r.toNat < 128) :
    shiftIn poly r x = shiftIn 0 r x ∧ (shiftIn 0 r x).toNat = 2 * r.toNat + x.toNat := by
  have htop : r.toNat < 128 → r &&& 0x80 = 0 := by
    revert r
    exact fun r _ => forall_byte (p := fun r => r.toNat < 128 → r &&& 0x80 = 0) (by decide +kernel) r
  have hval : r.toNat < 128 → (shiftIn 0 r x).toNat = 2 * r.toNat + x.toNat := by
    cases x
    · exact forall_byte (p := fun r => r.toNat < 128 → (shiftIn 0 r false).toNat = 2 * r.toNat + 0)
        (by decide +kernel) r
    · exact forall_byte (p := fun r => r.toNat < 128 → (shiftIn 0 r true).toNat = 2 * r.toNat + 1)
        (by decide +kernel) r
  exact ⟨by simp [shiftIn, htop hr], hval hr⟩

/-- As long as no bit can reach the top, the divisor plays no part. -/
theorem shiftInAll_small (poly r : UInt8) (xs : List Bool)
    (h : (r.toNat + 1) * 2 ^ xs.length ≤ 256) :
    shiftInAll poly r xs = shiftInAll 0 r xs := by
  induction xs generalizing r with
  | nil => rfl
  | cons x xs ih =>
      have hpos : 1 ≤ 2 ^ xs.length := Nat.one_le_two_pow
      rw [List.length_cons, Nat.pow_succ] at h
      have hr : r.toNat < 128 := by nlinarith
      obtain ⟨hsame, hval⟩ := shiftIn_small poly r x hr
      have hx : x.toNat ≤ 1 := Bool.toNat_le x
      have hnext : ((shiftIn 0 r x).toNat + 1) * 2 ^ xs.length ≤ 256 := by
        rw [hval]
        nlinarith
      have hih := ih (shiftIn 0 r x) hnext
      simpa only [shiftInAll, List.foldl_cons, hsame] using hih

/-- From an empty register, eight bits are only moved into place: nothing has
reached the top yet, so the divisor plays no part. -/
theorem shiftInAll_zero_bitsOf (poly b : UInt8) : shiftInAll poly 0 (bitsOf b) = b := by
  rw [shiftInAll_small poly 0 (bitsOf b) (by simp)]
  revert b
  exact forall_byte (by decide +kernel)

/-- Shifting in a byte is shifting in zeros, with the byte added at the end. -/
theorem shiftInAll_bitsOf (poly r b : UInt8) :
    shiftInAll poly r (bitsOf b) = shiftInAll poly r (List.replicate 8 false) ^^^ b := by
  have h := shiftInAll_xor poly r 0 (List.replicate 8 false) (bitsOf b) (by simp)
  have hz : List.zipWith (· ^^ ·) (List.replicate 8 false) (bitsOf b) = bitsOf b := by
    simp [bitsOf, List.replicate]
  rw [hz, UInt8.xor_zero, shiftInAll_zero_bitsOf] at h
  exact h

/-! ## the byte-at-a-time form -/

/-- Fold a byte into the register, then shift eight zeros through it. -/
def updateByte (poly crc b : UInt8) : UInt8 :=
  shiftInAll poly (crc ^^^ b) (List.replicate 8 false)

/-- Folding message bytes in one by one is long division with the trailing
zeros already shifted in. -/
theorem foldl_updateByte (poly r : UInt8) (msg : List UInt8) :
    msg.foldl (updateByte poly) (shiftInAll poly r (List.replicate 8 false)) =
      shiftInAll poly r (bits msg ++ List.replicate 8 false) := by
  induction msg generalizing r with
  | nil => simp [bits]
  | cons b msg ih =>
      rw [List.foldl_cons, updateByte, ih, ← shiftInAll_bitsOf]
      simp only [bits, List.flatMap_cons, List.append_assoc]
      rw [shiftInAll_append poly r (bitsOf b)]

/-- Byte-at-a-time CRC from a zero register is the remainder. -/
theorem foldl_updateByte_zero (poly : UInt8) (msg : List UInt8) :
    msg.foldl (updateByte poly) 0 = remainder poly msg := by
  have h0 : shiftInAll poly 0 (List.replicate 8 false) = 0 := by
    simp [shiftInAll, shiftIn, List.replicate]
  have h := foldl_updateByte poly 0 msg
  rwa [h0] at h

/-! ## changed messages -/

/-- The message with the bits of `e` flipped. -/
def xorBytes (msg e : List UInt8) : List UInt8 := List.zipWith (· ^^^ ·) msg e

theorem length_xorBytes {msg e : List UInt8} (h : e.length = msg.length) :
    (xorBytes msg e).length = msg.length := by
  simp [xorBytes, h]

theorem length_bits (msg : List UInt8) : (bits msg).length = 8 * msg.length := by
  induction msg with
  | nil => rfl
  | cons b msg ih =>
      rw [bits, List.flatMap_cons, ← bits, List.length_append, length_bitsOf, ih, List.length_cons]
      omega

theorem bitsOf_xor (a b : UInt8) :
    bitsOf (a ^^^ b) = List.zipWith (· ^^ ·) (bitsOf a) (bitsOf b) := by
  simp [bitsOf]

theorem bits_xorBytes {msg e : List UInt8} (h : e.length = msg.length) :
    bits (xorBytes msg e) = List.zipWith (· ^^ ·) (bits msg) (bits e) := by
  induction msg generalizing e with
  | nil => rfl
  | cons b msg ih =>
      obtain ⟨x, e, rfl⟩ := List.exists_cons_of_length_eq_add_one h
      have hih := @ih e (by simpa using h)
      simp only [bits, xorBytes, List.zipWith_cons_cons, List.flatMap_cons] at hih ⊢
      rw [hih, bitsOf_xor, List.zipWith_append (by simp)]

/-- The remainder of a changed message is the remainder plus that of the change. -/
theorem remainder_xorBytes (poly : UInt8) {msg e : List UInt8} (h : e.length = msg.length) :
    remainder poly (xorBytes msg e) = remainder poly msg ^^^ remainder poly e := by
  have hlen : (bits msg).length = (bits e).length := by rw [length_bits, length_bits, h]
  have hzeros : List.zipWith (· ^^ ·) (List.replicate 8 false) (List.replicate 8 false) =
      List.replicate 8 false := rfl
  rw [remainder, bits_xorBytes h, ← hzeros, ← List.zipWith_append hlen]
  exact shiftInAll_xor poly 0 0 _ _ (by simp [hlen])

/-! ## bursts -/

/-- The set bits of `e` lie within eight consecutive bits, and there are some. -/
structure Burst (e : List UInt8) : Prop where
  within : ∃ k, ∀ i, (bits e)[i]? = some true → k ≤ i ∧ i < k + 8
  nonzero : ∃ b ∈ e, b ≠ 0

theorem mem_bitsOf_of_ne_zero {b : UInt8} (h : b ≠ 0) : true ∈ bitsOf b :=
  forall_byte (p := fun b => b ≠ 0 → true ∈ bitsOf b) (by decide +kernel) b h

theorem shiftInAll_zeros (poly : UInt8) (n : Nat) :
    shiftInAll poly 0 (List.replicate n false) = 0 := by
  induction n with
  | zero => rfl
  | succ n ih =>
      have hstep : shiftIn poly 0 false = 0 := by simp [shiftIn]
      rw [List.replicate_succ, shiftInAll, List.foldl_cons, hstep]
      exact ih

/-- Multiplying by `x` loses nothing when the divisor has a constant term. -/
theorem shiftIn_false_ne_zero {poly r : UInt8} (hodd : poly &&& 1 = 1) (hr : r ≠ 0) :
    shiftIn poly r false ≠ 0 := by
  have heven : (r <<< 1) &&& 1 = 0 :=
    forall_byte (p := fun r => (r <<< 1) &&& 1 = 0) (by decide +kernel) r
  have hsmall : r &&& 0x80 = 0 → r <<< 1 = 0 → r = 0 :=
    forall_byte (p := fun r => r &&& 0x80 = 0 → r <<< 1 = 0 → r = 0) (by decide +kernel) r
  intro h
  simp only [shiftIn, Bool.false_eq_true, if_false, UInt8.xor_zero] at h
  by_cases htop : r &&& 0x80 = 0
  · rw [if_neg (not_not_intro htop), UInt8.xor_zero] at h
    exact hr (hsmall htop h)
  · -- the divisor was subtracted: its constant term cannot cancel
    rw [if_pos htop, UInt8.xor_eq_zero_iff] at h
    rw [h, hodd] at heven
    exact absurd heven (by decide)

theorem shiftInAll_zeros_ne_zero {poly r : UInt8} (hodd : poly &&& 1 = 1) (hr : r ≠ 0) (n : Nat) :
    shiftInAll poly r (List.replicate n false) ≠ 0 := by
  induction n generalizing r with
  | zero => exact hr
  | succ n ih =>
      rw [List.replicate_succ, shiftInAll, List.foldl_cons]
      exact ih (shiftIn_false_ne_zero hodd hr)

/-- Up to eight bits shifted into a register with room for them leave a trace. -/
theorem shiftInAll_ne_zero {poly r : UInt8} {xs : List Bool}
    (hroom : (r.toNat + 1) * 2 ^ xs.length ≤ 256) (h : r ≠ 0 ∨ true ∈ xs) :
    shiftInAll poly r xs ≠ 0 := by
  induction xs generalizing r with
  | nil => simpa [shiftInAll] using h
  | cons x xs ih =>
      have hpos : 1 ≤ 2 ^ xs.length := Nat.one_le_two_pow
      rw [List.length_cons, Nat.pow_succ] at hroom
      obtain ⟨hsame, hval⟩ := shiftIn_small poly r x (by nlinarith)
      have hx : x.toNat ≤ 1 := Bool.toNat_le x
      rw [shiftInAll, List.foldl_cons, hsame]
      refine ih (by rw [hval]; nlinarith) ?_
      rcases h with hr | hmem
      · have hr' : r.toNat ≠ 0 := fun h0 => hr (UInt8.toNat_inj.mp h0)
        refine .inl fun h0 => ?_
        rw [h0, UInt8.toNat_zero] at hval
        omega
      · rcases List.mem_cons.mp hmem with rfl | hmem
        · refine .inl fun h0 => ?_
          rw [h0, UInt8.toNat_zero, Bool.toNat_true] at hval
          omega
        · exact .inr hmem

/-- Bits set within a window are zeros, at most its width of bits, and zeros. -/
theorem exists_window {xs : List Bool} {k w : Nat}
    (h : ∀ i, xs[i]? = some true → k ≤ i ∧ i < k + w) :
    ∃ m ys n, xs = List.replicate m false ++ (ys ++ List.replicate n false) ∧ ys.length ≤ w := by
  have hpre : ∀ x ∈ xs.take k, x = false := by
    intro x hx
    obtain ⟨i, hi⟩ := List.mem_iff_getElem?.mp hx
    rw [List.getElem?_take] at hi
    split at hi
    · cases x with
      | false => rfl
      | true => have := h i hi; omega
    · cases hi
  have hpost : ∀ x ∈ xs.drop (k + w), x = false := by
    intro x hx
    obtain ⟨i, hi⟩ := List.mem_iff_getElem?.mp hx
    rw [List.getElem?_drop] at hi
    cases x with
    | false => rfl
    | true => have := h _ hi; omega
  refine ⟨(xs.take k).length, (xs.drop k).take w, (xs.drop (k + w)).length, ?_, by simp⟩
  rw [← List.eq_replicate_of_mem hpre, ← List.eq_replicate_of_mem hpost, ← List.drop_drop,
    List.take_append_drop, List.take_append_drop]

/-- **Bursts leave a remainder**: with a divisor that has a constant term, no
change within eight consecutive bits is divisible. -/
theorem remainder_burst {poly : UInt8} {e : List UInt8} (hodd : poly &&& 1 = 1) (he : Burst e) :
    remainder poly e ≠ 0 := by
  obtain ⟨k, hk⟩ := he.within
  obtain ⟨m, ys, n, hsplit, hys⟩ := exists_window hk
  have hset : true ∈ bits e := by
    obtain ⟨b, hb, hb0⟩ := he.nonzero
    exact List.mem_flatMap.mpr ⟨b, hb, mem_bitsOf_of_ne_zero hb0⟩
  have hmem : true ∈ ys := by simpa [hsplit] using hset
  have hroom : ((0 : UInt8).toNat + 1) * 2 ^ ys.length ≤ 256 := by
    simpa using Nat.pow_le_pow_right (by decide : 0 < 2) hys
  rw [remainder, hsplit, List.append_assoc, List.append_assoc, List.replicate_append_replicate,
    shiftInAll_append, shiftInAll_zeros, shiftInAll_append]
  exact shiftInAll_zeros_ne_zero hodd (shiftInAll_ne_zero hroom (.inr hmem)) _

end Crc8
