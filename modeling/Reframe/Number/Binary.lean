import Reframe.Number.Whole

/-!
# Exact operations on binary numbers

A finite machine number is `± m * 2 ^ e` with naturals `m` and integers `e`. The
operations here work on that form in exact integer arithmetic and, where a
result has to fit a format again, round once, to nearest, ties to even.

* `floor`, `ceil`, `nearest`: rounding to an integer, halves away from zero.
* `remainder`: the remainder of a truncated division, with the dividend's sign.
* `hypot`: the root of a sum of two squares, rounded once.
* `convert`: the number in another format.
-/

namespace Reframe.Binary

open Float.Model Float.Model.UnpackedFloat

-- powers of integers are those of the core library, whatever else is known of them
attribute [local instance (2000)] instPowNat

/-- The magnitude `m * 2 ^ e` rounded down. -/
def magnitudeFloor (m : Nat) (e : Int) : Nat :=
  m * 2 ^ e.toNat / 2 ^ (-e).toNat

/-- The magnitude `m * 2 ^ e` rounded up. -/
def magnitudeCeil (m : Nat) (e : Int) : Nat :=
  (m * 2 ^ e.toNat + (2 ^ (-e).toNat - 1)) / 2 ^ (-e).toNat

/-- The integer nearest to the magnitude `m * 2 ^ e`, a half going up. -/
def magnitudeNearest (m : Nat) (e : Int) : Nat :=
  (2 * (m * 2 ^ e.toNat) + 2 ^ (-e).toNat) / (2 * 2 ^ (-e).toNat)

/-- Rounds a number by rounding its magnitude: `up` below zero, `down` above. -/
def toWhole (up down : Nat → Int → Nat) : UnpackedFloat → Whole
  | .notANumber => .undefined
  | .infinity .negative => .low
  | .infinity .positive => .high
  | .zero _ => .int 0
  | .finite .negative m e _ => .int (-(up m e))
  | .finite .positive m e _ => .int (down m e)

/-- The largest integer not above the number. -/
def floor : UnpackedFloat → Whole :=
  toWhole magnitudeCeil magnitudeFloor

/-- The smallest integer not below the number. -/
def ceil : UnpackedFloat → Whole :=
  toWhole magnitudeFloor magnitudeCeil

/-- The nearest integer, halves away from zero. -/
def nearest : UnpackedFloat → Whole :=
  toWhole magnitudeNearest magnitudeNearest

/-- The number `± m * 2 ^ e` in a format; zero keeps the sign. -/
def ofParts (f : Format) (s : Sign) (m : Nat) (e : Int) : UnpackedFloat :=
  if m = 0 then .zero s else UnpackedFloat.round f s m e

/-- The number in another format. -/
def convert (f : Format) : UnpackedFloat → UnpackedFloat
  | .finite s m e _ => ofParts f s m e
  | x => x

/-- The remainder of a truncated division: it has the sign of the dividend, is
smaller than the divisor, and is always exact. -/
def remainder (f : Format) : UnpackedFloat → UnpackedFloat → UnpackedFloat
  | .finite s m e _, .finite _ m' e' _ =>
    let low := min e e'
    ofParts f s (m * 2 ^ (e - low).toNat % (m' * 2 ^ (e' - low).toNat)) low
  | .zero s, .finite .. | .zero s, .infinity _ => .zero s
  | x@(.finite ..), .infinity _ => x
  | _, _ => .notANumber

/-- The root of `x² + y²`, rounded once; an infinite side decides whatever the
other is. -/
def hypot (f : Format) : UnpackedFloat → UnpackedFloat → UnpackedFloat
  | .infinity _, _ | _, .infinity _ => .infinity .positive
  | .notANumber, _ | _, .notANumber => .notANumber
  | .zero _, y => convert f y.abs
  | x, .zero _ => convert f x.abs
  | .finite _ m e hm, .finite _ m' e' _ =>
    let low := min e e'
    let squares :=
      (m * 2 ^ (e - low).toNat) ^ (2 : Nat) + (m' * 2 ^ (e' - low).toNat) ^ (2 : Nat)
    UnpackedFloat.sqrt f (.finite .positive squares (2 * low)
      (Nat.add_pos_left (Nat.pow_pos (Nat.mul_pos hm (Nat.pow_pos Nat.two_pos))) _))

end Reframe.Binary
