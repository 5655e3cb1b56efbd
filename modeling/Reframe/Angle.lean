import Reframe.Number.Scalar

/-!
# Angles in degrees

A whole turn is 360 degrees. `Angle.normalize` brings an angle into one turn and
snaps what is within a millionth of a degree below a whole turn to 0;
`Angle.inverse` is the turn that undoes it.

* `Angle.normalize`, `Angle.inverse`.
* `Angle.isNear`: equality up to a billionth of a degree.
* `Trig.direction`: sine and cosine of an angle in degrees.
-/

namespace Reframe

variable {α : Type} [Scalar α]

/-- The tolerance for angles next to a whole turn and for lengths next to an integer. -/
def tolerance : α :=
  1e-6

namespace Angle

/-- The remainder modulo a whole turn, never negative. -/
def wrap (degrees : α) : α :=
  let r := Scalar.remainder degrees 360.0
  if r < 0.0 then r + 360.0 else r

/-- The angle within one turn, `0` if it is next to a whole turn from below. -/
def normalize (degrees : α) : α :=
  let wrapped := wrap degrees
  if Scalar.abs (360.0 - wrapped) < tolerance then 0.0 else wrapped

/-- The angle that turns back. -/
def inverse (degrees : α) : α :=
  normalize (360.0 - normalize degrees)

/-- Whether two angles are the same up to a billionth of a degree. -/
def isNear (degrees target : α) : Bool :=
  Scalar.abs (degrees - target) < 1e-9

end Angle

/-- Sine and cosine of an angle in degrees. -/
def Trig.direction (trig : Trig α) (degrees : α) : α × α :=
  let r := trig.radians (Angle.normalize degrees)
  (trig.sin r, trig.cos r)

end Reframe
