import Mathlib.Data.List.Basic
import Mathlib.Data.List.TakeWhile
import Mathlib.Tactic

/-!
# Vmc.Lib.Bytes

Byte-list plumbing shared by the codecs: little-endian words as the bytes they
are stored in, ASCII text, and overwriting a stretch of a fixed buffer
(`splice`, the list form of `memcpy`).

Words are compared through `toNat`: every byte of a word is a quotient and
remainder by 256, so the round trips in both directions reduce to linear
arithmetic.
-/

namespace Bytes

/-! ## little-endian words -/

/-- The 16-bit word stored as `b0 b1`. -/
def le16 (b0 b1 : UInt8) : UInt16 := b0.toUInt16 ||| (b1.toUInt16 <<< 8)

/-- The 32-bit word stored as `b0 b1 b2 b3`. -/
def le32 (b0 b1 b2 b3 : UInt8) : UInt32 :=
  b0.toUInt32 ||| (b1.toUInt32 <<< 8) ||| (b2.toUInt32 <<< 16) ||| (b3.toUInt32 <<< 24)

private theorem or_shiftLeft (a b i : Nat) (ha : a < 2 ^ i) : a ||| (b <<< i) = a + 2 ^ i * b := by
  rw [Nat.or_comm, Nat.shiftLeft_eq, Nat.mul_comm, ← Nat.two_pow_add_eq_or_of_lt ha, Nat.add_comm]

private theorem shiftLeft_mod (a i w : Nat) (h : a * 2 ^ i < 2 ^ w) : a <<< i % 2 ^ w = a <<< i := by
  rw [Nat.mod_eq_of_lt]
  rwa [Nat.shiftLeft_eq]

@[simp] theorem toNat_le16 (b0 b1 : UInt8) : (le16 b0 b1).toNat = b0.toNat + 256 * b1.toNat := by
  have h0 := b0.toNat_lt
  have h1 := b1.toNat_lt
  simp only [le16, UInt16.toNat_or, UInt16.toNat_shiftLeft, UInt8.toNat_toUInt16]
  change b0.toNat ||| b1.toNat <<< 8 % 2 ^ 16 = _
  rw [shiftLeft_mod _ _ _ (by omega), or_shiftLeft _ _ _ h0]
  norm_num

@[simp] theorem toNat_le32 (b0 b1 b2 b3 : UInt8) :
    (le32 b0 b1 b2 b3).toNat =
      b0.toNat + 256 * b1.toNat + 65536 * b2.toNat + 16777216 * b3.toNat := by
  have h0 := b0.toNat_lt
  have h1 := b1.toNat_lt
  have h2 := b2.toNat_lt
  have h3 := b3.toNat_lt
  simp only [le32, UInt32.toNat_or, UInt32.toNat_shiftLeft, UInt8.toNat_toUInt32]
  change b0.toNat ||| b1.toNat <<< 8 % 2 ^ 32 ||| b2.toNat <<< 16 % 2 ^ 32 |||
    b3.toNat <<< 24 % 2 ^ 32 = _
  rw [shiftLeft_mod _ 8 _ (by omega), shiftLeft_mod _ 16 _ (by omega),
    shiftLeft_mod _ 24 _ (by omega)]
  -- the low bytes have to be summed before the next one can be added on
  rw [or_shiftLeft b0.toNat _ _ h0]
  rw [or_shiftLeft (b0.toNat + 2 ^ 8 * b1.toNat) _ _ (by omega)]
  rw [or_shiftLeft (b0.toNat + 2 ^ 8 * b1.toNat + 2 ^ 16 * b2.toNat) _ _ (by omega)]
  norm_num

/-- Low byte of a 16-bit word. -/
def lo16 (v : UInt16) : UInt8 := (v &&& 0xff).toUInt8

/-- High byte of a 16-bit word. -/
def hi16 (v : UInt16) : UInt8 := ((v >>> 8) &&& 0xff).toUInt8

/-- Byte of a 32-bit word, `shift` bits up from its low end. -/
def byte32 (v : UInt32) (shift : UInt32) : UInt8 := ((v >>> shift) &&& 0xff).toUInt8

private theorem and_255 (n : Nat) : n &&& 255 = n % 256 :=
  Nat.and_two_pow_sub_one_eq_mod n 8

@[simp] theorem toNat_lo16 (v : UInt16) : (lo16 v).toNat = v.toNat % 256 := by
  simp [lo16, and_255]

@[simp] theorem toNat_hi16 (v : UInt16) : (hi16 v).toNat = v.toNat / 256 := by
  have h := v.toNat_lt
  simp [hi16, and_255, Nat.shiftRight_eq_div_pow]
  omega

@[simp] theorem toNat_byte32_zero (v : UInt32) : (byte32 v 0).toNat = v.toNat % 256 := by
  simp [byte32, and_255]

@[simp] theorem toNat_byte32_8 (v : UInt32) : (byte32 v 8).toNat = v.toNat / 256 % 256 := by
  simp [byte32, and_255, Nat.shiftRight_eq_div_pow]

@[simp] theorem toNat_byte32_16 (v : UInt32) : (byte32 v 16).toNat = v.toNat / 65536 % 256 := by
  simp [byte32, and_255, Nat.shiftRight_eq_div_pow]

@[simp] theorem toNat_byte32_24 (v : UInt32) : (byte32 v 24).toNat = v.toNat / 16777216 % 256 := by
  simp [byte32, and_255, Nat.shiftRight_eq_div_pow]

/-- A 16-bit word is read back from its two bytes. -/
@[simp] theorem le16_lo16_hi16 (v : UInt16) : le16 (lo16 v) (hi16 v) = v := by
  apply UInt16.toNat_inj.mp
  simp only [toNat_le16, toNat_lo16, toNat_hi16]
  omega

/-- A 32-bit word is read back from its four bytes. -/
@[simp] theorem le32_byte32 (v : UInt32) :
    le32 (byte32 v 0) (byte32 v 8) (byte32 v 16) (byte32 v 24) = v := by
  have h := v.toNat_lt
  apply UInt32.toNat_inj.mp
  simp only [toNat_le32, toNat_byte32_zero, toNat_byte32_8, toNat_byte32_16, toNat_byte32_24]
  omega

@[simp] theorem lo16_le16 (b0 b1 : UInt8) : lo16 (le16 b0 b1) = b0 := by
  have h := b0.toNat_lt
  apply UInt8.toNat_inj.mp
  simp only [toNat_le16, toNat_lo16]
  omega

@[simp] theorem hi16_le16 (b0 b1 : UInt8) : hi16 (le16 b0 b1) = b1 := by
  have h := b0.toNat_lt
  apply UInt8.toNat_inj.mp
  simp only [toNat_le16, toNat_hi16]
  omega

/-- The bytes of a 32-bit word assembled from four bytes are those bytes. -/
theorem byte32_le32 (b0 b1 b2 b3 : UInt8) :
    byte32 (le32 b0 b1 b2 b3) 0 = b0 ∧ byte32 (le32 b0 b1 b2 b3) 8 = b1 ∧
      byte32 (le32 b0 b1 b2 b3) 16 = b2 ∧ byte32 (le32 b0 b1 b2 b3) 24 = b3 := by
  have h0 := b0.toNat_lt
  have h1 := b1.toNat_lt
  have h2 := b2.toNat_lt
  have h3 := b3.toNat_lt
  refine ⟨?_, ?_, ?_, ?_⟩ <;> apply UInt8.toNat_inj.mp <;>
    simp only [toNat_le32, toNat_byte32_zero, toNat_byte32_8, toNat_byte32_16,
      toNat_byte32_24] <;> omega

/-! ## text -/

/-- The bytes of an ASCII text. -/
def ascii (s : String) : List UInt8 := s.toList.map fun c => UInt8.ofNat c.toNat

/-- `tolower`. -/
def toLower (c : UInt8) : UInt8 := if 65 ≤ c ∧ c ≤ 90 then c + 32 else c

/-- `strncasecmp(p, pat, |pat|) == 0` for a pattern without NUL bytes. -/
def startsNoCase (p pat : List UInt8) : Bool :=
  (p.take pat.length).map toLower == pat.map toLower

/-! ## overwriting a stretch of a buffer -/

/-- `memcpy(buf + off, data, |data|)`: the bytes at `off` are replaced, the
rest of the buffer keeps its place. -/
def splice (buf : List α) (off : Nat) (data : List α) : List α :=
  buf.take off ++ data ++ buf.drop (off + data.length)

/-- A copy that fits leaves the buffer's size alone. -/
theorem length_splice {buf data : List α} (h : off + data.length ≤ buf.length) :
    (splice buf off data).length = buf.length := by
  simp [splice]
  omega

/-- Up to the end of the copied stretch, the buffer holds its old front and the
copied bytes. -/
theorem take_splice {buf data : List α} (h : off + data.length ≤ buf.length) :
    (splice buf off data).take (off + data.length) = buf.take off ++ data := by
  unfold splice
  apply List.take_left'
  simp
  omega

/-- Storing one element is a copy of length one. -/
theorem set_eq_splice {buf : List α} (h : off < buf.length) (a : α) :
    buf.set off a = splice buf off [a] := by
  rw [List.set_eq_take_append_cons_drop, if_pos h]
  simp [splice]

/-- Two copies, the second right behind the first, are one. -/
theorem splice_splice {buf a : List α} (b : List α) (h : off + a.length ≤ buf.length) :
    splice (splice buf off a) (off + a.length) b = splice buf off (a ++ b) := by
  have hsplit : splice buf off a = (buf.take off ++ a) ++ buf.drop (off + a.length) := rfl
  have hlen : (buf.take off ++ a).length = off + a.length := by
    simp
    omega
  rw [splice, take_splice h, hsplit, ← List.drop_drop, List.drop_left' hlen, List.drop_drop]
  simp [splice, Nat.add_assoc]

/-- Storing one element right behind a copy makes the copy longer by one. -/
theorem set_splice {buf a : List α} {k : Nat} (b : α) (hk : k = off + a.length)
    (h : k < buf.length) : (splice buf off a).set k b = splice buf off (a ++ [b]) := by
  subst hk
  rw [set_eq_splice, splice_splice]
  · omega
  · rw [length_splice] <;> omega

@[simp] theorem splice_nil (buf : List α) (off : Nat) : splice buf off [] = buf := by
  simp [splice]

/-! ## copies that stay inside a buffer -/

/-- `memcpy(out, buf + off, n)`; `none` if it reads past the buffer. -/
def load (buf : List α) (off n : Nat) : Option (List α) :=
  if off + n ≤ buf.length then some ((buf.drop off).take n) else none

/-- `memcpy(buf + off, data, |data|)`; `none` if it writes past the buffer. -/
def store (buf : List α) (off : Nat) (data : List α) : Option (List α) :=
  if off + data.length ≤ buf.length then some (splice buf off data) else none

theorem load_eq {buf : List α} {off n : Nat} (h : off + n ≤ buf.length) :
    load buf off n = some ((buf.drop off).take n) := if_pos h

theorem store_eq {buf data : List α} {off : Nat} (h : off + data.length ≤ buf.length) :
    store buf off data = some (splice buf off data) := if_pos h

/-! ## cut streams -/

/-- A stream of two parts that is cut short ends inside the first part or
somewhere in the second. -/
theorem prefix_append_cases {α : Type*} {p xs ys : List α} (h : p <+: xs ++ ys) :
    (p <+: xs ∧ p.length < xs.length) ∨ ∃ q, p = xs ++ q ∧ q <+: ys := by
  by_cases hlt : p.length < xs.length
  · exact .inl ⟨List.prefix_of_prefix_length_le h (List.prefix_append xs ys) hlt.le, hlt⟩
  · obtain ⟨q, rfl⟩ := List.prefix_of_prefix_length_le (List.prefix_append xs ys) h (by omega)
    exact .inr ⟨q, rfl, (List.prefix_append_right_inj xs).mp h⟩

/-- What is read while a condition holds ends where it first fails. -/
theorem takeWhile_append_of_stop {α : Type*} {q : α → Bool} {xs ys : List α}
    (hall : ∀ x ∈ xs, q x = true) (hstop : ∀ y ∈ ys.head?, q y = false) :
    (xs ++ ys).takeWhile q = xs := by
  rw [List.takeWhile_append_of_pos hall]
  cases ys with
  | nil => simp
  | cons y ys =>
      have hy : ¬ q y = true := by
        rw [hstop y rfl]
        exact Bool.false_ne_true
      rw [List.takeWhile_cons_of_neg hy, List.append_nil]

/-- What is skipped while a condition holds ends inside the text if it fails
there, and so does what is read. -/
theorem dropWhile_append_of_ne {α : Type*} {q : α → Bool} {xs : List α}
    (h : xs.dropWhile q ≠ []) (ys : List α) : (xs ++ ys).dropWhile q = xs.dropWhile q ++ ys := by
  rw [List.dropWhile_append, if_neg (by simpa using h)]

theorem takeWhile_append_of_ne {α : Type*} {q : α → Bool} {xs : List α}
    (h : xs.dropWhile q ≠ []) (ys : List α) : (xs ++ ys).takeWhile q = xs.takeWhile q := by
  have hsplit : (xs ++ ys).takeWhile q ++ (xs ++ ys).dropWhile q =
      xs.takeWhile q ++ (xs.dropWhile q ++ ys) := by
    rw [List.takeWhile_append_dropWhile, ← List.append_assoc, List.takeWhile_append_dropWhile]
  rw [dropWhile_append_of_ne h] at hsplit
  exact List.append_cancel_right hsplit

theorem dropWhile_ne_nil_of_mem {α : Type*} [DecidableEq α] {xs : List α} {c : α} (h : c ∈ xs) :
    xs.dropWhile (· ≠ c) ≠ [] := by
  rw [ne_eq, List.dropWhile_eq_nil_iff]
  intro hall
  simpa using hall c h

/-- Skipping up to an element that is there stops at it. -/
theorem dropWhile_of_mem {α : Type*} [DecidableEq α] {xs : List α} {c : α} (h : c ∈ xs) :
    ∃ t, xs.dropWhile (· ≠ c) = c :: t := by
  induction xs with
  | nil => cases h
  | cons a xs ih =>
      by_cases ha : a = c
      · subst ha
        exact ⟨xs, List.dropWhile_cons_of_neg (by simp)⟩
      · rw [List.dropWhile_cons_of_pos (by simpa using ha)]
        exact ih ((List.mem_cons.mp h).resolve_left fun h => ha h.symm)

end Bytes
