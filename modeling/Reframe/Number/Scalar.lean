import Reframe.Number.Binary

/-!
# The arithmetic that formulas are written over

Formulas on angles, points and weights are written once, over any `Scalar`: a
type with the field operations, an order, literals, and the few functions below.
The machine formats of 64 and of 32 bits are scalars, every operation rounding
once; so can be any other number system in which these operations make sense.

Trigonometry is not part of a scalar. It comes as a `Trig`, a value that a
formula takes, because machine sines are only as good as their table.

* `Scalar Float`, `Scalar Float32`: the two machine formats.
* `sum`: left to right, from negative zero, so that a sum of nothing is `-0`.
* `clamp`: the nearer end outside an interval; a number that is none stays.
-/

namespace Reframe

-- powers of integers are those of the core library, whatever else is known of them
attribute [local instance (2000)] instPowNat

/-- A number system for formulas. -/
class Scalar (α : Type) extends Add α, Sub α, Mul α, Div α, Neg α, LT α, LE α,
    OfScientific α where
  decLt : DecidableLT α
  decLe : DecidableLE α
  /-- The number nearest to an integer. -/
  ofInt : Int → α
  /-- The value of a 32-bit number. -/
  ofSingle : Float32 → α
  abs : α → α
  sqrt : α → α
  /-- The root of a sum of two squares. -/
  hypot : α → α → α
  /-- The remainder of a truncated division. -/
  remainder : α → α → α
  isFinite : α → Bool
  floor : α → Whole
  ceil : α → Whole
  /-- The nearest integer, halves away from zero. -/
  nearest : α → Whole
  /-- A total order for ranking, also where `≤` leaves two numbers incomparable. -/
  rankLe : α → α → Bool

attribute [reducible, instance] Scalar.decLt Scalar.decLe

/-- A place in the total order of 64-bit patterns: patterns with the sign bit come
first, in falling order of the rest, then those without, in rising order. -/
def patternRank (bits : UInt64) : Int :=
  if bits.toNat < 2 ^ (63 : Nat) then bits.toNat else -(bits.toNat - 2 ^ (63 : Nat) : Int) - 1

namespace Binary

open Float.Model

/-- The 64-bit number of a value. -/
def double (x : UnpackedFloat) : Float :=
  .ofModel (Float.Model.pack x)

/-- The 32-bit number of a value. -/
def single (x : UnpackedFloat) : Float32 :=
  .ofModel (Float32.Model.pack x)

/-- A 64-bit number rounded to 32 bits. -/
def narrow (x : Float) : Float32 :=
  single (convert .binary32 x.toModel.unpack)

/-- A 32-bit number as a 64-bit one. -/
def widen (x : Float32) : Float :=
  double (convert .binary64 x.toModel.unpack)

end Binary

instance : Scalar Float where
  decLt := inferInstance
  decLe := inferInstance
  ofInt := Float.ofInt
  ofSingle := Binary.widen
  abs := Float.abs
  sqrt := Float.sqrt
  hypot x y := Binary.double (Binary.hypot .binary64 x.toModel.unpack y.toModel.unpack)
  remainder x y := Binary.double (Binary.remainder .binary64 x.toModel.unpack y.toModel.unpack)
  isFinite := Float.isFinite
  floor x := Binary.floor x.toModel.unpack
  ceil x := Binary.ceil x.toModel.unpack
  nearest x := Binary.nearest x.toModel.unpack
  rankLe x y := patternRank x.toBits ≤ patternRank y.toBits

instance : Scalar Float32 where
  decLt := inferInstance
  decLe := inferInstance
  ofInt := Float32.ofInt
  ofSingle := id
  abs := Float32.abs
  sqrt := Float32.sqrt
  hypot x y := Binary.single (Binary.hypot .binary32 x.toModel.unpack y.toModel.unpack)
  remainder x y := Binary.single (Binary.remainder .binary32 x.toModel.unpack y.toModel.unpack)
  isFinite := Float32.isFinite
  floor x := Binary.floor x.toModel.unpack
  ceil x := Binary.ceil x.toModel.unpack
  nearest x := Binary.nearest x.toModel.unpack
  rankLe x y :=
    patternRank (Binary.widen x).toBits ≤ patternRank (Binary.widen y).toBits

namespace Scalar

variable {α : Type} [Scalar α]

/-- The sum of a list, left to right; a sum of nothing is negative zero. -/
def sum (xs : List α) : α :=
  xs.foldl (· + ·) (-(0.0))

/-- The number itself inside `lo .. hi`, the nearer end outside. -/
def clamp (lo hi x : α) : α :=
  if x < lo then lo else if hi < x then hi else x

@[simp] theorem sum_nil : sum ([] : List α) = -(0.0) := rfl

theorem sum_append (xs ys : List α) : sum (xs ++ ys) = ys.foldl (· + ·) (sum xs) := by
  simp [sum]

end Scalar

/-- Sine, cosine and the half turn they belong to. -/
structure Trig (α : Type) where
  /-- Half a turn in radians. -/
  pi : α
  /-- The sine of an angle in radians. -/
  sin : α → α
  /-- The cosine of an angle in radians. -/
  cos : α → α

/-- Degrees in radians. -/
def Trig.radians {α : Type} [Scalar α] (trig : Trig α) (degrees : α) : α :=
  degrees * (trig.pi / 180.0)

/-- The machine's functions in 64 bits. -/
def Trig.double : Trig Float where
  pi := 3.14159265358979323846
  sin := Float.sin
  cos := Float.cos

/-- The machine's functions in 32 bits. -/
def Trig.single : Trig Float32 where
  pi := 3.14159265358979323846
  sin := Float32.sin
  cos := Float32.cos

end Reframe
