import Reframe.Extent
import Reframe.Png.Chunk

/-!
# Headers

A header gives the size of a picture, how its samples are stored and what they
mean, and whether rows come in order or in seven interlaced passes.

* `Header.ofBytes`: the header of some bytes.
* `Header.dataBytes`: how many bytes the rows take.
* `Grid`: the places of one pass.
-/

namespace Reframe.Png

-- a sum of naturals starts at the core library's zero, whatever else is known of it
attribute [local instance (2000)] Zero.ofOfNat0

/-- What the samples of a pixel mean. -/
inductive Colour where
  | gray
  | rgb
  /-- A place in the palette. -/
  | indexed
  | grayAlpha
  | rgba
  deriving DecidableEq, Repr

namespace Colour

/-- The meaning with a number. -/
def ofNat? : Nat → Option Colour
  | 0 => some gray
  | 2 => some rgb
  | 3 => some indexed
  | 4 => some grayAlpha
  | 6 => some rgba
  | _ => none

/-- The number of samples of a pixel. -/
def channels : Colour → Nat
  | gray | indexed => 1
  | grayAlpha => 2
  | rgb => 3
  | rgba => 4

/-- The numbers of bits a sample may have. -/
def depths : Colour → List Nat
  | gray => [1, 2, 4, 8, 16]
  | indexed => [1, 2, 4, 8]
  | rgb | grayAlpha | rgba => [8, 16]

end Colour

/-- The places of one pass: every `dx`-th column from `x0` on in every `dy`-th row from
`y0` on. -/
structure Grid where
  /-- The first column. -/
  x0 : Nat
  /-- The first row. -/
  y0 : Nat
  /-- The step between columns. -/
  dx : Nat
  /-- The step between rows. -/
  dy : Nat
  deriving DecidableEq, Repr

namespace Grid

/-- All places. -/
def whole : Grid :=
  ⟨0, 0, 1, 1⟩

/-- The seven passes of an interlaced picture. -/
def interlaced : List Grid :=
  [⟨0, 0, 8, 8⟩, ⟨4, 0, 8, 8⟩, ⟨0, 4, 4, 8⟩, ⟨2, 0, 4, 4⟩, ⟨0, 2, 2, 4⟩, ⟨1, 0, 2, 2⟩, ⟨0, 1, 1, 2⟩]

/-- How many places of the grid a frame has in each direction. -/
def extent (g : Grid) (e : Extent) : Extent where
  width := (e.width + g.dx - 1 - g.x0) / g.dx
  height := (e.height + g.dy - 1 - g.y0) / g.dy

/-- The place belongs to the grid. -/
def holds (g : Grid) (x y : Nat) : Bool :=
  g.x0 ≤ x && (x - g.x0) % g.dx == 0 && g.y0 ≤ y && (y - g.y0) % g.dy == 0

end Grid

/-- How a picture is stored. -/
structure Header where
  extent : Extent
  depth : Nat
  colour : Colour
  grids : List Grid
  deriving DecidableEq, Repr

namespace Header

/-- The header of some bytes. -/
def ofBytes (bytes : List UInt8) : Except Fault Header :=
  match bytes.drop 8 with
  | [depth, colour, method, filter, interlace] =>
    let extent : Extent := ⟨bigEndian (bytes.take 4), bigEndian ((bytes.drop 4).take 4)⟩
    match Colour.ofNat? colour.toNat with
    | none => .error .header
    | some colour =>
      let fits := ¬ extent.IsEmpty ∧ depth.toNat ∈ colour.depths ∧ method = 0 ∧ filter = 0 ∧
        interlace.toNat ≤ 1
      if fits then
        .ok ⟨extent, depth.toNat, colour, if interlace = 1 then Grid.interlaced else [.whole]⟩
      else .error .header
  | _ => .error .header

/-- The number of bits of a pixel. -/
def pixelBits (h : Header) : Nat :=
  h.depth * h.colour.channels

/-- The number of bytes of a row of pixels. -/
def rowBytes (h : Header) (width : Nat) : Nat :=
  (width * h.pixelBits + 7) / 8

/-- How many bytes are unpacked at most: all rows of all passes, with one byte more for
each row. A pass of no width has rows in this count, though none are stored. -/
def dataBytes (h : Header) : Nat :=
  (h.grids.map fun grid =>
    let part := grid.extent h.extent
    part.height * (1 + h.rowBytes part.width)).sum

end Header

end Reframe.Png
