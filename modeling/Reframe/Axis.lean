import Reframe.Extent

/-!
# The axis that a crop cuts

A crop to a ratio of width to height takes something away on one axis: on the
horizontal one when the frame is wider than the ratio asks, else on the vertical.

* `Axis.dominant`: that axis.
* `Extent.along`, `Spot.along`: sides and coordinates by axis.
-/

namespace Reframe

/-- An axis of a picture. -/
inductive Axis where
  | horizontal
  | vertical
  deriving DecidableEq, Repr

namespace Axis

/-- The place of the axis among the coordinates of a point. -/
def index : Axis → Nat
  | horizontal => 0
  | vertical => 1

/-- The axis on which a crop of the frame to a ratio of width to height cuts. -/
def dominant {α : Type} [Scalar α] (e : Extent) (ratio : α) : Axis :=
  if Scalar.ofInt e.height * ratio < Scalar.ofInt e.width then horizontal else vertical

end Axis

/-- The length of the side along an axis. -/
def Extent.along (e : Extent) : Axis → Nat
  | .horizontal => e.width
  | .vertical => e.height

/-- The coordinate on an axis. -/
def Spot.along (p : Spot) : Axis → Int
  | .horizontal => p.x
  | .vertical => p.y

end Reframe
