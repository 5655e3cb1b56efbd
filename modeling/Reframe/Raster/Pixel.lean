import Reframe.Raster

/-!
# Colours and gray

A pixel has red, green, blue and an opacity. Detectors see gray: a fixed mix of
the three colours, whatever the opacity.

* `Pixel.luma`: the gray of a pixel.
* `Picture`, `Gray`: the rasters of pixels and of gray bytes.
-/

namespace Reframe

/-- A pixel: three colours and an opacity. -/
structure Pixel where
  r : UInt8
  g : UInt8
  b : UInt8
  /-- Opacity, from 0 for clear to 255. -/
  a : UInt8
  deriving DecidableEq, Repr

namespace Pixel

/-- Black, and quite clear. -/
def clear : Pixel :=
  ⟨0, 0, 0, 0⟩

instance : Inhabited Pixel :=
  ⟨clear⟩

/-- The pixel, not clear at all. -/
def solid (p : Pixel) : Pixel :=
  { p with a := 255 }

/-- The gray pixel of a brightness. -/
def gray (v : UInt8) : Pixel :=
  ⟨v, v, v, 255⟩

/-- The brightness of a pixel, in ten-thousandths of each colour. The imaging library is
assumed to use these weights and to cut the quotient off. -/
def luma (p : Pixel) : UInt8 :=
  .ofNat ((2126 * p.r.toNat + 7152 * p.g.toNat + 722 * p.b.toNat) / 10000)

@[simp] theorem luma_gray (v : UInt8) : (gray v).luma = v := by
  have : (2126 * v.toNat + 7152 * v.toNat + 722 * v.toNat) / 10000 = v.toNat := by omega
  simp [luma, gray, this]

end Pixel

/-- A picture in colour. -/
abbrev Picture : Type :=
  Raster Pixel

/-- A picture that is clear all over. -/
def Picture.clear (e : Extent) : Picture :=
  .tabulate e fun _ _ => .clear

/-- A picture in gray. -/
abbrev Gray : Type :=
  Raster UInt8

/-- What a detector sees of a picture. -/
def Raster.toGray (picture : Picture) : Gray :=
  picture.map Pixel.luma

end Reframe
