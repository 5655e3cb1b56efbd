import Reframe.Png.Header

/-!
# Rows of bytes

Each row is stored as the difference from a guess made of its left, upper and upper
left neighbours; a byte in front says how to guess.

* `Filter.guess`: the guesses.
* `restore`: a row from its differences.
* `readRows`: the rows of one pass.
-/

namespace Reframe.Png

-- powers of integers are those of the core library, whatever else is known of them
attribute [local instance (2000)] instPowNat

/-- The one of left, upper and upper left that is nearest to left + upper - upper left. -/
def nearestNeighbour (left upper corner : UInt8) : UInt8 :=
  let estimate : Int := left.toNat + upper.toNat - corner.toNat
  let toLeft := (estimate - left.toNat).natAbs
  let toUpper := (estimate - upper.toNat).natAbs
  let toCorner := (estimate - corner.toNat).natAbs
  if toLeft ≤ toUpper ∧ toLeft ≤ toCorner then left
  else if toUpper ≤ toCorner then upper
  else corner

/-- What a byte is guessed to be by the way of guessing with a number. -/
def guess (filter : UInt8) (left upper corner : UInt8) : Option UInt8 :=
  match filter.toNat with
  | 0 => some 0
  | 1 => some left
  | 2 => some upper
  | 3 => some (.ofNat ((left.toNat + upper.toNat) / 2))
  | 4 => some (nearestNeighbour left upper corner)
  | _ => none

/-- The row from its differences and the row above it; `step` bytes belong to a pixel. -/
def restore (filter : UInt8) (step : Nat) (above row : Array UInt8) : Option (Array UInt8) :=
  row.foldlM
    (fun out difference => do
      let i := out.size
      let (left, corner) :=
        if i < step then (0, 0) else (out.getD (i - step) 0, above.getD (i - step) 0)
      return out.push (difference + (← guess filter left (above.getD i 0) corner)))
    (Array.emptyWithCapacity row.size)

/-- Reads `n` rows of `length` bytes each, from a place in the data on. -/
def readRows (step length : Nat) (data : Array UInt8) :
    (n : Nat) → (above : Array UInt8) → (start : Nat) → Option (List (Array UInt8) × Nat)
  | 0, _, start => some ([], start)
  | n + 1, above, start => do
    let finish := start + 1 + length
    if data.size < finish then none
    else
      let filter ← data[start]?
      let row ← restore filter step above (data.extract (start + 1) finish)
      let (rows, finish) ← readRows step length data n row finish
      return (row :: rows, finish)

/-- The rows of each pass. -/
def readPasses (h : Header) (data : Array UInt8) :
    (grids : List Grid) → (start : Nat) → Option (List (Grid × Array (Array UInt8)))
  | [], _ => some []
  | grid :: grids, start => do
    let part := grid.extent h.extent
    if part.IsEmpty then readPasses h data grids start
    else
      let step := max 1 (h.pixelBits / 8)
      let (rows, start) ← readRows step (h.rowBytes part.width) data part.height #[] start
      let rest ← readPasses h data grids start
      return (grid, rows.toArray) :: rest

/-- The sample with a number in a row, of `depth` bits. -/
def sampleAt (depth : Nat) (row : Array UInt8) (i : Nat) : Nat :=
  if depth = 16 then 256 * (row.getD (2 * i) 0).toNat + (row.getD (2 * i + 1) 0).toNat
  else
    let shift := 8 - depth - i * depth % 8
    (row.getD (i * depth / 8) 0).toNat / 2 ^ shift % 2 ^ depth

end Reframe.Png
