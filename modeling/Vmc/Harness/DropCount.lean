import Vmc.Harness.Buckets

/-!
# Vmc.Harness.DropCount

The run-wide count of dropped frames: every bucket counts the gaps between the
frame indices presented in it, and `aggregate` adds the buckets up.

The count starts afresh in every bucket, so a gap between the last frame of one
and the first of the next is in no count (`straddled`).  What is reported is the
number of missing indices less these.
-/

namespace Vmc

/-! ## what is reported and what is missing -/

/-- `s("frames_dropped")` of `aggregate`: the views carry the buckets' `v_drop`. -/
def framesDropped (buckets : List Bucket) : ℤ := (buckets.map Bucket.vDrop).sum

/-- What a bucket knows of gaps: its count and the last index. -/
abbrev GapState := ℤ × Option ℤ

def Bucket.gap (b : Bucket) : GapState := (b.vDrop, b.vLastIdx)

/-- The frames of a stream by bucket and index. -/
def slots (p : ReportParams) (frames : List (ℚ × ℤ)) : List (Nat × ℤ) :=
  frames.map fun f => (p.slot f.1, f.2)

end Vmc
