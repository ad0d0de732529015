import Vmc.Lib.Mem

/-!
# Vmc.Client.StreamCopy

`copy_stage_to_drm_wc` of the thin client (`apps/thinclient/main.c`): the copy of
a BGRA stage into a DRM dumb buffer, in its two builds.  The portable one is a
`memcpy` for each row; on x86 a row goes out in streaming stores of 16 bytes,
four at a time while 64 bytes are left, one at a time while 16 are, and the rest
by `memcpy`.

The stage and the dumb buffer are separate memories, and a row lies inside its
buffer, so no address wraps.  A streaming store to an address that is not
16-byte aligned faults: the x86 build then has no result.  The fence at the end
of a row orders the streaming stores before what follows; within the row no two
of them meet, so the model makes each of them at once.
-/

namespace Vmc

open Mem

/-- The memory of the stage or of the dumb buffer. -/
abbrev ByteMem := Nat → UInt8

/-! ## the two builds -/

/-- The portable branch. -/
def copyStagePortable (src : ByteMem) (srcPitch : Nat) (dst : ByteMem) (dstPitch : Nat)
    (s d w h : Nat) : ByteMem :=
  copyRows dst d dstPitch src s srcPitch (w * 4) h

/-- `_mm_stream_si128(d, _mm_loadu_si128(s))`. -/
def mmStreamSi128 (src dst : ByteMem) (s d : Nat) : Option ByteMem :=
  if d % 16 = 0 then some (copy dst d src s 16) else none

/-- A row under way: the destination so far, where the pointers `s` and `d`
stand, and the bytes left. -/
structure RowCopy where
  dst : ByteMem
  s : Nat
  d : Nat
  n : Nat

/-- `while (n >= 64)`. -/
def stream64 (src dst : ByteMem) (s d n : Nat) : Option RowCopy :=
  if 64 ≤ n then do
    let dst ← mmStreamSi128 src dst s d
    let dst ← mmStreamSi128 src dst (s + 16) (d + 16)
    let dst ← mmStreamSi128 src dst (s + 32) (d + 32)
    let dst ← mmStreamSi128 src dst (s + 48) (d + 48)
    stream64 src dst (s + 64) (d + 64) (n - 64)
  else some { dst, s, d, n }
termination_by n

/-- `while (n >= 16)`. -/
def stream16 (src dst : ByteMem) (s d n : Nat) : Option RowCopy :=
  if 16 ≤ n then do
    let dst ← mmStreamSi128 src dst s d
    stream16 src dst (s + 16) (d + 16) (n - 16)
  else some { dst, s, d, n }
termination_by n

/-- One row of the x86 branch. -/
def streamRow (src dst : ByteMem) (s d rowBytes : Nat) : Option ByteMem := do
  let row ← stream64 src dst s d rowBytes
  let row ← stream16 src row.dst row.s row.d row.n
  if 0 < row.n then return copy row.dst row.d src row.s row.n
  return row.dst

/-- The x86 branch. -/
def copyStageX86 (src : ByteMem) (srcPitch : Nat) (dst : ByteMem) (dstPitch : Nat)
    (s d w h : Nat) : Option ByteMem :=
  (List.range h).foldlM
    (fun dst r => streamRow src dst (s + r * srcPitch) (d + r * dstPitch) (w * 4)) dst

/-! ## the loops -/

theorem mmStreamSi128_of_aligned (src dst : ByteMem) (s : Nat) {d : Nat} (h : d % 16 = 0) :
    mmStreamSi128 src dst s d = some (copy dst d src s 16) := if_pos h

/-- The four stores of a turn of the first loop are one copy of 64 bytes. -/
theorem stream64_of_le (src dst : ByteMem) (s : Nat) {d n : Nat} (halign : d % 16 = 0)
    (hn : 64 ≤ n) :
    stream64 src dst s d n = stream64 src (copy dst d src s 64) (s + 64) (d + 64) (n - 64) := by
  rw [stream64, if_pos hn]
  rw [mmStreamSi128_of_aligned _ _ _ halign, Option.bind_eq_bind, Option.bind_some]
  rw [mmStreamSi128_of_aligned _ _ _ (by omega), Option.bind_some, copy_copy]
  rw [mmStreamSi128_of_aligned _ _ _ (by omega), Option.bind_some, copy_copy]
  rw [mmStreamSi128_of_aligned _ _ _ (by omega), Option.bind_some, copy_copy]

theorem stream16_of_le (src dst : ByteMem) (s : Nat) {d n : Nat} (halign : d % 16 = 0)
    (hn : 16 ≤ n) :
    stream16 src dst s d n = stream16 src (copy dst d src s 16) (s + 16) (d + 16) (n - 16) := by
  rw [stream16, if_pos hn, mmStreamSi128_of_aligned _ _ _ halign, Option.bind_eq_bind,
    Option.bind_some]

/-- The first loop copies the whole 64-byte blocks. -/
theorem stream64_eq (src dst : ByteMem) (s : Nat) {d n : Nat} (halign : d % 16 = 0) :
    stream64 src dst s d n =
      some ⟨copy dst d src s (n / 64 * 64), s + n / 64 * 64, d + n / 64 * 64, n % 64⟩ := by
  induction n using Nat.strong_induction_on generalizing dst s d with
  | _ n ih =>
    by_cases hn : 64 ≤ n
    · have hblocks : n / 64 * 64 = 64 + (n - 64) / 64 * 64 := by omega
      have hleft : (n - 64) % 64 = n % 64 := by omega
      rw [stream64_of_le src dst s halign hn, ih (n - 64) (by omega) _ _ (by omega), copy_copy,
        hblocks, hleft, Nat.add_assoc, Nat.add_assoc]
    · have hblocks : n / 64 * 64 = 0 := by omega
      have hleft : n % 64 = n := by omega
      rw [stream64, if_neg hn, hblocks, hleft, copy_zero]
      rfl

/-- The second loop copies the whole 16-byte blocks. -/
theorem stream16_eq (src dst : ByteMem) (s : Nat) {d n : Nat} (halign : d % 16 = 0) :
    stream16 src dst s d n =
      some ⟨copy dst d src s (n / 16 * 16), s + n / 16 * 16, d + n / 16 * 16, n % 16⟩ := by
  induction n using Nat.strong_induction_on generalizing dst s d with
  | _ n ih =>
    by_cases hn : 16 ≤ n
    · have hblocks : n / 16 * 16 = 16 + (n - 16) / 16 * 16 := by omega
      have hleft : (n - 16) % 16 = n % 16 := by omega
      rw [stream16_of_le src dst s halign hn, ih (n - 16) (by omega) _ _ (by omega), copy_copy,
        hblocks, hleft, Nat.add_assoc, Nat.add_assoc]
    · have hblocks : n / 16 * 16 = 0 := by omega
      have hleft : n % 16 = n := by omega
      rw [stream16, if_neg hn, hblocks, hleft, copy_zero]
      rfl

/-- The three parts of a row are one `memcpy` of it. -/
theorem streamRow_eq (src dst : ByteMem) (s : Nat) {d : Nat} (halign : d % 16 = 0) (n : Nat) :
    streamRow src dst s d n = some (copy dst d src s n) := by
  have halign' : (d + n / 64 * 64) % 16 = 0 := by omega
  have hvector : n / 64 * 64 + n % 64 / 16 * 16 + n % 64 % 16 = n := by omega
  unfold streamRow
  rw [stream64_eq src dst s halign, Option.bind_eq_bind, Option.bind_some,
    stream16_eq _ _ _ halign', Option.bind_some]
  dsimp only
  rw [copy_copy]
  split_ifs with htail
  · rw [Nat.add_assoc, Nat.add_assoc, copy_copy, hvector]
    rfl
  · have hwhole : n / 64 * 64 + n % 64 / 16 * 16 = n := by omega
    rw [hwhole]
    rfl

/-- With every row aligned the x86 branch copies the rows of the portable one. -/
theorem copyStageX86_eq (src dst : ByteMem) (srcPitch dstPitch s d w h : Nat)
    (halign : ∀ r < h, (d + r * dstPitch) % 16 = 0) :
    copyStageX86 src srcPitch dst dstPitch s d w h =
      some (copyStagePortable src srcPitch dst dstPitch s d w h) := by
  unfold copyStageX86 copyStagePortable
  induction h with
  | zero => rfl
  | succ h ih =>
    rw [List.range_succ, List.foldlM_append, ih fun r hr => halign r (by omega), copyRows_succ]
    simp [streamRow_eq _ _ _ (halign h (by omega))]

/-! ## the two builds agree -/

/-- For every size and every pitches, with the destination rows aligned as the
stores require: the streaming copy leaves the destination of the portable copy,
the bytes outside the rows are what they were, and with rows that do not meet
every row has arrived. -/
theorem stream_copy_eq_memcpy (src dst : ByteMem) (srcPitch dstPitch s d w h : Nat)
    (halign : ∀ r < h, (d + r * dstPitch) % 16 = 0) :
    ∃ dst', copyStageX86 src srcPitch dst dstPitch s d w h = some dst' ∧
      dst' = copyStagePortable src srcPitch dst dstPitch s d w h ∧
      (∀ a, (∀ r < h, ¬ (d + r * dstPitch ≤ a ∧ a < d + r * dstPitch + 4 * w)) →
        dst' a = dst a) ∧
      (4 * w ≤ dstPitch → ∀ r < h, ∀ j < 4 * w,
        dst' (d + r * dstPitch + j) = src (s + r * srcPitch + j)) := by
  refine ⟨_, copyStageX86_eq src dst srcPitch dstPitch s d w h halign, rfl, fun a ha => ?_,
    fun hpitch r hr j hj => ?_⟩
  · rw [Nat.mul_comm] at ha
    exact copyRows_of_not_mem ha
  · exact copyRows_of_mem (by omega) hr (by omega)

/-- Two rows of 21 pixels: one block of 64 bytes, one of 16 and a tail of 4. -/
theorem stream_copy_eq_memcpy_two_rows :
    ∃ dst', copyStageX86 (fun a => UInt8.ofNat a) 84 (fun _ => 0) 96 0 4096 21 2 = some dst' ∧
      dst' = copyStagePortable (fun a => UInt8.ofNat a) 84 (fun _ => 0) 96 0 4096 21 2 ∧
      dst' (4096 + 1 * 96 + 83) = 167 := by
  obtain ⟨dst', hrun, hportable, -, hrow⟩ :=
    stream_copy_eq_memcpy (fun a => UInt8.ofNat a) (fun _ => 0) 84 96 0 4096 21 2 (by decide)
  exact ⟨dst', hrun, hportable, hrow (by decide) 1 (by decide) 83 (by decide)⟩

end Vmc
