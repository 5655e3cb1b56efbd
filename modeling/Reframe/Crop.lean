import Reframe.Anchor

/-!
# Crops

A crop is the largest part of a frame that has a wanted ratio of width to height.
It keeps one side whole. On the other it is centred on the anchor, as far as the
frame allows; without an anchor it lies in the middle from left to right and a
fifth of the way down.

* `Crop.ofRatio`: the crop.
* `Crop.offset`: where a window on a side starts.
-/

namespace Reframe

variable {α : Type} [Scalar α]

/-- A part of a frame. -/
structure Crop where
  x : Nat
  y : Nat
  extent : Extent
  deriving DecidableEq, Repr

namespace Crop

/-- How far down a crop lies when there is no anchor, from 0 for the top to 1. -/
def topBias : α :=
  0.2

/-- The nearest length of a side between 1 and `whole`. -/
def side (whole : Nat) (length : α) : Nat :=
  ((Scalar.nearest length).clamp 1 whole).toNat

/-- The size of the largest part of a frame with a ratio: one side stays whole. -/
def fit (e : Extent) (ratio : α) : Extent :=
  if ratio < Scalar.ofInt e.width / Scalar.ofInt e.height then
    { width := side e.width (Scalar.ofInt e.height * ratio), height := e.height }
  else
    { width := e.width, height := side e.height (Scalar.ofInt e.width / ratio) }

/-- The start of a window of a side whose centre is nearest to a position on the
side; a position outside counts as the nearer end. -/
def offset (position : α) (whole window : Nat) : Nat :=
  let centre := Scalar.clamp 0.0 1.0 position * Scalar.ofInt whole
  let start := Scalar.nearest (centre - Scalar.ofInt window / 2.0)
  (start.clamp 0 (whole - window : Nat)).toNat

/-- Where a crop starts from the left. -/
def left (anchor : Option (Anchor α)) (whole window : Nat) : Nat :=
  match anchor with
  | some ⟨position, true, .horizontal⟩ => offset position whole window
  | _ => (whole - window) / 2

/-- Where a crop starts from the top. -/
def top (anchor : Option (Anchor α)) (whole window : Nat) : Nat :=
  match anchor with
  | some ⟨position, true, .vertical⟩ => offset position whole window
  | _ =>
    let slack : α := Scalar.ofInt (whole - window : Nat)
    ((Scalar.nearest (slack * topBias)).clamp 0 maxSide).toNat

/-- The largest part of a frame with a ratio of width to height, centred on the
anchor. A frame without pixels has the empty part only. -/
def ofRatio (e : Extent) (ratio : α) (anchor : Option (Anchor α)) : Crop :=
  if e.IsEmpty then ⟨0, 0, ⟨0, 0⟩⟩
  else
    let size := fit e ratio
    { x := left anchor e.width size.width
      y := top anchor e.height size.height
      extent := size }

end Crop

end Reframe
