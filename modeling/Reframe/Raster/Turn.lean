import Reframe.Raster.Pixel

/-!
# Turning pictures

A picture turns clockwise about its centre. By a multiple of 90 degrees every
pixel moves to a place of its own. By any other angle the picture is pasted on a
clear square canvas as wide as its diagonal, the canvas is turned, each pixel
being mixed from the four it falls between, and the bounding box is cut out.

* `Raster.quarter`, `Raster.half`, `Raster.threeQuarters`: the right angles.
* `Canvas.layout`: where the picture is pasted and what is cut out.
* `Affine.turnBack`: from which point of the canvas a turned pixel is taken.
* `Raster.turn`: the picture turned by any angle.
* `Raster.CanTurn`: there is such a picture.
-/

namespace Reframe

namespace Raster

variable {τ : Type} [Inhabited τ]

/-- The raster turned by 90 degrees: rows become columns, from the right. -/
def quarter (r : Raster τ) : Raster τ :=
  tabulate ⟨r.height, r.width⟩ fun x y => r.pixel y (r.height - 1 - x)

/-- The raster turned by 180 degrees. -/
def half (r : Raster τ) : Raster τ :=
  tabulate r.extent fun x y => r.pixel (r.width - 1 - x) (r.height - 1 - y)

/-- The raster turned by 270 degrees: rows become columns, from the left. -/
def threeQuarters (r : Raster τ) : Raster τ :=
  tabulate ⟨r.height, r.width⟩ fun x y => r.pixel (r.width - 1 - y) x

/-- The part of a raster from a place on. -/
def cut (r : Raster τ) (left top : Nat) (e : Extent) : Raster τ :=
  tabulate e fun x y => r.pixel (left + x) (top + y)

end Raster

/-- The square on which a picture is turned. -/
structure Canvas where
  side : Nat
  /-- The column of the pasted picture. -/
  pasteLeft : Nat
  /-- The row of the pasted picture. -/
  pasteTop : Nat
  /-- The column of the part that is cut out. -/
  cutLeft : Nat
  /-- The row of the part that is cut out. -/
  cutTop : Nat
  /-- The size of the part that is cut out. -/
  cutExtent : Extent
  deriving DecidableEq, Repr

/-- The canvas for a frame and an angle: as wide as the frame's diagonal, with the
frame in the middle, and in the middle of the result the turned frame's box. -/
def Canvas.layout {α : Type} [Scalar α] (trig : Trig α) (e : Extent) (degrees : α) : Canvas :=
  let diagonal : α := Scalar.hypot (Scalar.ofInt e.width) (Scalar.ofInt e.height)
  let side := ((Scalar.ceil diagonal).clamp 0 maxSide).toNat
  let box := e.turned trig degrees
  let width := min box.width side
  let height := min box.height side
  { side
    pasteLeft := (side - e.width) / 2
    pasteTop := (side - e.height) / 2
    cutLeft := (side - width) / 2
    cutTop := (side - height) / 2
    cutExtent := ⟨width, height⟩ }

/-- A map of the plane: `x` goes to `xx * x + xy * y + x0`, and likewise `y`. -/
structure Affine (α : Type) where
  /-- The part of `x` that comes from `x`. -/
  xx : α
  /-- The part of `x` that comes from `y`. -/
  xy : α
  /-- Where `x` starts. -/
  x0 : α
  /-- The part of `y` that comes from `x`. -/
  yx : α
  /-- The part of `y` that comes from `y`. -/
  yy : α
  /-- Where `y` starts. -/
  y0 : α

namespace Affine

variable {α : Type} [Scalar α]

/-- The map that undoes a clockwise turn about the point `(q, q)`: move the point to
the origin, turn back, move it where it was. The imaging library is assumed to compute
the entries in this order of sums and products. -/
def turnBack (trig : Trig α) (radians q : α) : Affine α :=
  let s := trig.sin radians
  let c := trig.cos radians
  { xx := c, xy := s, x0 := c * -q + s * -q + q
    yx := -s, yy := c, y0 := -s * -q + c * -q + q }

/-- The image of a pixel's place. -/
def image (m : Affine α) (x y : Nat) : α × α :=
  (m.xx * Scalar.ofInt x + m.xy * Scalar.ofInt y + m.x0,
    m.yx * Scalar.ofInt x + m.yy * Scalar.ofInt y + m.y0)

end Affine

namespace Pixel

/-- The byte between two bytes, `k` of the way, cut off to an integer. -/
def mixByte (k : Float32) (u v : UInt8) : UInt8 :=
  ((1.0 - k) * Scalar.ofInt u.toNat + k * Scalar.ofInt v.toNat).toUInt8

/-- The pixel between two pixels, `k` of the way. -/
def mix (k : Float32) (p q : Pixel) : Pixel :=
  ⟨mixByte k p.r q.r, mixByte k p.g q.g, mixByte k p.b q.b, mixByte k p.a q.a⟩

end Pixel

/-- The trigonometry used for spots and the one used for pixels. -/
structure Instruments where
  /-- For turning spots and boxes. -/
  spots : Trig Float
  /-- For turning pixels. -/
  pixels : Trig Float32

/-- The machine's own instruments. -/
def Instruments.machine : Instruments where
  spots := .double
  pixels := .single

namespace Raster

/-- The picture on its canvas, the rest of which is clear. A clear pixel leaves no
trace. The imaging library is assumed to copy every other pixel. It does so for solid
ones; a half-transparent one it blends with the clear canvas, which can change a colour
by a rounding error. No theorem is about the pixels of a pasted picture. -/
def onCanvas (picture : Picture) (canvas : Canvas) : Picture :=
  tabulate ⟨canvas.side, canvas.side⟩ fun x y =>
    if canvas.pasteLeft ≤ x ∧ canvas.pasteTop ≤ y then
      let p := picture.pixel (x - canvas.pasteLeft) (y - canvas.pasteTop)
      if p.a = 0 then .clear else p
    else .clear

/-- The colour of a picture at a point between pixels, clear unless the point lies
between four of them. The imaging library is assumed to mix the four like this, first
in rows and then between them. No theorem is about the mixed colours. -/
def between (picture : Picture) (point : Float32 × Float32) : Pixel :=
  match Scalar.floor point.1, Scalar.floor point.2 with
  | .int left, .int top =>
    if 0 ≤ left ∧ left + 1 < picture.width ∧ 0 ≤ top ∧ top + 1 < picture.height then
      let right := point.1 - Scalar.ofInt left
      let below := point.2 - Scalar.ofInt top
      let x := left.toNat
      let y := top.toNat
      let upper := Pixel.mix right (picture.pixel x y) (picture.pixel (x + 1) y)
      let lower := Pixel.mix right (picture.pixel x (y + 1)) (picture.pixel (x + 1) (y + 1))
      Pixel.mix below upper lower
    else .clear
  | _, _ => .clear

/-- The picture turned by an angle that is no right angle. -/
def oblique (instruments : Instruments) (picture : Picture) (degrees : Float) : Picture :=
  let canvas := Canvas.layout instruments.spots picture.extent degrees
  let pasted := picture.onCanvas canvas
  let radians := Binary.narrow (instruments.spots.radians degrees)
  let centre : Float32 := Scalar.ofInt canvas.side / 2.0
  let back := Affine.turnBack instruments.pixels radians centre
  tabulate canvas.cutExtent fun x y =>
    pasted.between (back.image (canvas.cutLeft + x) (canvas.cutTop + y))

/-- The picture turned clockwise. -/
def turn (instruments : Instruments) (picture : Picture) (degrees : Float) : Picture :=
  let degrees := Angle.normalize degrees
  if Angle.isNear degrees 0.0 then picture
  else if Angle.isNear degrees 90.0 then picture.quarter
  else if Angle.isNear degrees 180.0 then picture.half
  else if Angle.isNear degrees 270.0 then picture.threeQuarters
  else picture.oblique instruments degrees

/-- The picture can be turned. Every picture can be by a right angle; for any other one
it must have a canvas, and one without columns and rows has none. Limits of allocation are
left out: memory is taken to be unbounded, so that there is a canvas of every other size. -/
def CanTurn (picture : Picture) (degrees : Float) : Prop :=
  picture.extent ≠ ⟨0, 0⟩ ∨ [0.0, 90.0, 180.0, 270.0].any (Angle.isNear (Angle.normalize degrees))

instance (picture : Picture) (degrees : Float) : Decidable (picture.CanTurn degrees) :=
  inferInstanceAs (Decidable (_ ∨ _))

end Raster

end Reframe
