import Reframe.Png.Inflate
import Reframe.Png.Scanline
import Reframe.Png.Tables
import Reframe.Raster.Pixel

/-!
# Reading pictures

A picture is read from the bytes of a file: the header, a palette and a
transparency where they are used, and the packed rows. Samples become bytes: those
of fewer bits are stretched, those of 16 bits rounded. What the format leaves open, which
faults are found and in which order, is assumed to be as in the imaging library. No
theorem is about it.

* `Png.decode`: the picture in a file.
-/

namespace Reframe.Png

-- powers of integers are those of the core library, whatever else is known of them
attribute [local instance (2000)] instPowNat

/-- A sample as a byte. -/
def toByte (depth sample : Nat) : UInt8 :=
  if depth = 16 then .ofNat ((sample + 128) / 257) else .ofNat (sample * 255 / (2 ^ depth - 1))

/-- The bytes that store some samples, one for each or, where samples have 16 bits,
two. -/
def sampleBytes (depth : Nat) (samples : List Nat) : List UInt8 :=
  samples.flatMap fun v => if depth = 16 then [.ofNat (v / 256), .ofNat v] else [.ofNat v]

/-- The opacity of a pixel that has none of its own: clear if its samples are the one
colour that is clear. -/
def keyedOpacity (h : Header) (tables : Tables) (samples : List Nat) : UInt8 :=
  if tables.transparency = some (sampleBytes h.depth samples) then 0 else 255

/-- The pixel of some samples. -/
def pixelOf (h : Header) (tables : Tables) (samples : List Nat) : Pixel :=
  let byte := toByte h.depth
  match h.colour, samples with
  | .gray, [v] => ⟨byte v, byte v, byte v, keyedOpacity h tables samples⟩
  | .grayAlpha, [v, a] => ⟨byte v, byte v, byte v, byte a⟩
  | .rgb, [r, g, b] => ⟨byte r, byte g, byte b, keyedOpacity h tables samples⟩
  | .rgba, [r, g, b, a] => ⟨byte r, byte g, byte b, byte a⟩
  | .indexed, [i] =>
    let part (k : Nat) := (tables.palette.getD #[]).getD (3 * i + k) 0
    let opacity := (tables.transparency.bind (·[i]?)).getD 255
    ⟨part 0, part 1, part 2, opacity⟩
  | _, _ => .clear

/-- The pixel at a place, from the pass it belongs to. -/
def pixelAt (h : Header) (tables : Tables) (passes : List (Grid × Array (Array UInt8)))
    (x y : Nat) : Pixel :=
  match passes.find? fun p => p.1.holds x y with
  | none => .clear
  | some (grid, rows) =>
    let row := rows.getD ((y - grid.y0) / grid.dy) #[]
    let first := (x - grid.x0) / grid.dx * h.colour.channels
    let samples := (List.range h.colour.channels).map fun k => sampleAt h.depth row (first + k)
    pixelOf h tables samples

/-- The picture in a file. -/
def decode (file : List UInt8) : Except Fault Picture := do
  let parts ← Parts.ofFile file
  let h ← Header.ofBytes parts.header
  let tables ← Tables.ofChunks h parts.leading
  let data ← (unwrapPieces h.dataBytes [] parts.data).mapError fun _ => Fault.data
  match readPasses h data h.grids 0 with
  | some passes => return Raster.tabulate h.extent (pixelAt h tables passes)
  | none => throw .data

end Reframe.Png
