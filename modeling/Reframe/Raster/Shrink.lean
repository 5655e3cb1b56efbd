import Reframe.Raster.Pixel

/-!
# Shrinking wide pictures

A picture wider than a limit is brought to that width before it is searched; its
height follows in proportion, to the nearest pixel and never to nothing. Every
pixel of the small picture is the one of the large picture under its centre.

* `Extent.shrunk`: the extent after shrinking.
* `Raster.resize`: the picture at another extent.
* `Raster.shrink`: both together.
-/

namespace Reframe

/-- The extent no wider than the limit, in proportion. -/
def Extent.shrunk (e : Extent) (limit : Nat) : Extent :=
  if e.width ≤ limit then e
  else
    let ratio : Float := Scalar.ofInt e.height / Scalar.ofInt e.width
    { width := limit
      height := ((Scalar.nearest (ratio * Scalar.ofInt limit)).clamp 1 maxSide).toNat }

namespace Raster

/-- The place under the centre of place `i` when a side of length `n` becomes `m` long. -/
def underCentre (n m i : Nat) : Nat :=
  let step : Float32 := Scalar.ofInt n / Scalar.ofInt m
  let place : Float32 := (Scalar.ofInt i + 0.5) * step
  ((Scalar.floor place).clamp 0 (n - 1 : Nat)).toNat

/-- The raster at another extent: each pixel is the one under its centre. The imaging library
is assumed to compute that place by the single numbers of `underCentre`. -/
def resize {τ : Type} [Inhabited τ] (r : Raster τ) (e : Extent) : Raster τ :=
  let columns := Array.ofFn fun x : Fin e.width => underCentre r.width e.width x
  tabulate e fun x y => r.pixel (columns.getD x 0) (underCentre r.height e.height y)

/-- The picture, no wider than the limit. -/
def shrink (picture : Picture) (limit : Nat) : Picture :=
  if picture.width ≤ limit then picture
  else picture.resize (picture.extent.shrunk limit)

end Raster

end Reframe
