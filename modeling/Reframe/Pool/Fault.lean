import Reframe.Number.Span

/-!
# What can go wrong with a batch

A batch of tasks fails as a whole, for one of four reasons.

* `Fault`: the reasons.
* `Fault.message`: their texts.
-/

namespace Reframe

/-- Why a batch of tasks has no result. -/
inductive Fault where
  | lost (reason : String)
  | crashed (index : Nat)
  | late (limit : Span)
  /-- The batch, or one of its tasks before it started, was cancelled. -/
  | cancelled
  deriving DecidableEq, Repr

/-- The text of a fault. -/
def Fault.message : Fault → String
  | lost reason => "worker pool error: " ++ reason
  | crashed index => "parallel task " ++ Decimal.digitText index ++ " panicked"
  | late limit => "parallel batch did not finish within " ++ limit.text
  | cancelled => "detection was cancelled"

end Reframe
