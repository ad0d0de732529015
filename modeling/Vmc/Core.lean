import Mathlib.Tactic

/-!
# Vmc.Core

The status codes every component returns (`core/error.h`).
-/

namespace Vmc

/-- `vmc_status`: success or one of the error codes the modelled components
return. -/
inductive Status where
  | ok
  | invalidArg
  | nomem
  | io
  | proto
  | corrupt
  | again
  | overrun
  | invalidState
  | outOfSync
deriving DecidableEq, Repr

namespace Status

/-- The wire value of a status: `VMC_OK` is zero, every error is negative. -/
def code : Status → Int
  | ok => 0
  | invalidArg => -2
  | nomem => -3
  | io => -7
  | proto => -8
  | corrupt => -9
  | again => -10
  | overrun => -11
  | invalidState => -13
  | outOfSync => -15

/-- Only `ok` tests as success, and distinct statuses have distinct codes. -/
theorem code_injective : Function.Injective code := by
  intro a b h
  cases a <;> cases b <;> first | rfl | exact absurd h (by decide)

end Status

end Vmc
