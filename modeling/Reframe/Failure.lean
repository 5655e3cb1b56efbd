import Reframe.Pool.Fault

/-!
# What can go wrong

Every operation that can be refused is refused for one of these reasons. A
failure carries the number that caused it, so its type depends on the number
system.

* `Failure`: the reasons.
* `Failure.message`: their texts.
-/

namespace Reframe

/-- Why an operation was refused. -/
inductive Failure (α : Type) where
  | undecodable (reason : String)
  | emptyPicture
  | dimensionMismatch (left right : Nat)
  | noSuchAxis (index dimension : Nat)
  | badWeight (weight : α)
  | badRatio (ratio : α)
  | badThreshold (threshold : α)
  | badWidth
  | badSetting (reason : String)
  | batch (fault : Fault)
  deriving DecidableEq, Repr

/-- The text of a failure. -/
def Failure.message : Failure Float → String
  | undecodable reason => "failed to decode image: " ++ reason
  | emptyPicture => "image dimensions are zero"
  | dimensionMismatch left right =>
    "vector dimensions differ: " ++ Decimal.digitText left ++ " vs " ++ Decimal.digitText right
  | noSuchAxis index dimension =>
    "axis index " ++ Decimal.digitText index ++ " is out of range for a " ++
      Decimal.digitText dimension ++ "-dimensional vector"
  | badWeight weight =>
    "weight must be a non-negative number, got " ++ Decimal.ofDouble weight
  | badRatio ratio =>
    "target ratio must be a positive finite number, got " ++ Decimal.ofDouble ratio
  | badThreshold threshold =>
    "cluster threshold must be a non-negative finite number, got " ++ Decimal.ofDouble threshold
  | badWidth => "max working width must be > 0"
  | badSetting reason => "invalid configuration: " ++ reason
  | batch fault => fault.message

end Reframe
