import Reframe.Number.Scalar

/-!
# Numbers as decimal text

A binary number is written with the fewest decimal digits that read back as the
same number, and among those with the digits nearest to it, an exact half going
up. The digits are found on grids of multiples of `10 ^ k`, coarse to fine: the
first grid with a point among the reals that round to the number wins. Text is
always positional: no exponent, no point after a whole number.

* `Gap`: the reals that round to a number, over a common unit.
* `Gap.point?`: the point that a grid has in a gap.
* `Decimal.shortest`: digits and scale.
* `Decimal.ofDouble`, `Decimal.ofSingle`: the text of a number.
-/

namespace Reframe

open Float.Model

-- powers of integers are those of the core library, whatever else is known of them
attribute [local instance (2000)] instPowNat

/-- The reals that round to one number, between its two neighbours. All three
fields are multiples of one unit, a quarter of the number's last binary place. -/
structure Gap where
  low : Nat
  mid : Nat
  high : Nat
  /-- Whether the ends belong to the gap: they do when the last bit is even. -/
  closed : Bool
  /-- The unit is `2 ^ place`. -/
  place : Int

namespace Gap

/-- The gap around `m * 2 ^ e`. The lower neighbour of a power of two is only half
as far away, unless the number is among the least ones of the format. -/
def around (f : Format) (m : Nat) (e : Int) : Gap where
  low := 4 * m - if m = 2 ^ f.mantissaBitsWithoutImplicit ∧
      1 - (f.exponentBias + f.mantissaBitsWithoutImplicit : Int) < e then 1 else 2
  mid := 4 * m
  high := 4 * m + 2
  closed := m % 2 == 0
  place := e - 2

/-- Brings a multiple of the gap's unit to the common denominator with `10 ^ k`. -/
def scale (g : Gap) (k : Int) (n : Nat) : Nat :=
  n * 2 ^ g.place.toNat * 10 ^ (-k).toNat

/-- The grid step `10 ^ k` at the common denominator. -/
def step (g : Gap) (k : Int) : Nat :=
  2 ^ (-g.place).toNat * 10 ^ k.toNat

/-- Whether the grid point `d * 10 ^ k` lies in the gap. -/
def holds (g : Gap) (k : Int) (d : Nat) : Bool :=
  let x := d * g.step k
  let low := g.scale k g.low
  let high := g.scale k g.high
  if g.closed then low ≤ x && x ≤ high else low < x && x < high

/-- The point of the grid `10 ^ k` in the gap that is nearest to the number, the
upper one of two equally near. -/
def point? (g : Gap) (k : Int) : Option Nat :=
  let mid := g.scale k g.mid
  let step := g.step k
  let down := mid / step
  let up := down + 1
  match g.holds k down, g.holds k up with
  | true, true => if mid - down * step < up * step - mid then some down else some up
  | true, false => some down
  | false, true => some up
  | false, false => none

end Gap

/-- The number `digits * 10 ^ scale`. -/
structure Decimal where
  /-- The digits, as a natural number. -/
  digits : Nat
  /-- The power of ten they are multiplied with. -/
  scale : Int
  deriving DecidableEq, Repr

namespace Decimal

/-- A power of ten above `m * 2 ^ e`, and not far above. -/
def top (m : Nat) (e : Int) : Int :=
  ((m.log2 + 1 + e) * 30103 + 99999) / 100000 + 1

/-- The fewest digits that read back as `m * 2 ^ e`, the nearest such. -/
def shortest (f : Format) (m : Nat) (e : Int) : Decimal :=
  let gap := Gap.around f m e
  let scales := (List.range 24).map fun i : Nat => top m e - i
  let found := scales.findSome? fun k => (gap.point? k).map (⟨·, k⟩)
  found.getD ⟨m * 2 ^ e.toNat * 5 ^ (-e).toNat, -(-e).toNat⟩

/-- The digits of a natural number. -/
def digitText (n : Nat) : String :=
  String.ofList (Nat.toDigits 10 n)

/-- A number of zeros. -/
def zeros (n : Nat) : String :=
  String.ofList (List.replicate n '0')

/-- Positional text. -/
def text (d : Decimal) : String :=
  let digits := digitText d.digits
  let places := (-d.scale).toNat
  if places = 0 then digits ++ zeros d.scale.toNat
  else
    let padded := (zeros (places + 1 - digits.length) ++ digits).toList
    let whole := padded.length - places
    String.ofList (padded.take whole) ++ "." ++ String.ofList (padded.drop whole)

/-- The text of a number of a format. -/
def ofBinary (f : Format) : UnpackedFloat → String
  | .notANumber => "NaN"
  | .infinity .positive => "inf"
  | .infinity .negative => "-inf"
  | .zero .positive => "0"
  | .zero .negative => "-0"
  | .finite .positive m e _ => (shortest f m e).text
  | .finite .negative m e _ => "-" ++ (shortest f m e).text

/-- The text of a 64-bit number. -/
def ofDouble (x : Float) : String :=
  ofBinary .binary64 x.toModel.unpack

/-- The text of a 32-bit number. -/
def ofSingle (x : Float32) : String :=
  ofBinary .binary32 x.toModel.unpack

end Decimal

end Reframe
