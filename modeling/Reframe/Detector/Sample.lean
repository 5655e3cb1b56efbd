import Reframe.Detection

/-!
# Sample detectors

Small detectors that look at single bytes or at nothing.

* `Detector.constant`: always the same detections.
* `Detector.perPixel`: one detection for every byte that has one.
-/

namespace Reframe.Detector

/-- Reports the same detections always. -/
def constant (detections : List Detection) : Detector :=
  fun _ _ => .found detections

/-- The spot of the `i`-th byte of a picture. -/
def spotOf (gray : Gray) (i : Nat) : Spot where
  x := (i % gray.width : Nat)
  y := (i / gray.width : Nat)

/-- Reports a detection for every byte that has a size and a quality, row by row. -/
def perPixel (size : UInt8 → Option (Int × Float32)) : Detector := fun gray _ =>
  .found <| gray.pixels.zipIdx.toList.filterMap fun p =>
    (size p.1).map fun s => { spot := spotOf gray p.2, scale := s.1, quality := s.2 }

/-- Reports every byte above a level, its value for scale. -/
def above (level : Nat) : Detector :=
  perPixel fun v => if level < v.toNat then some (v.toNat, 1.0) else none

end Reframe.Detector
