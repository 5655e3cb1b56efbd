import Reframe.Extent
import Reframe.Number.Span
import Reframe.Raster.Pixel

/-!
# Detections and detectors

A detector looks at a gray picture under some scan settings and reports what it
found: places with a size and a quality. It is a collaborator of the library: it
may take time, it may crash, and its reports may make no sense.

* `Detection`, `Detection.weight`: what is found, and how much it counts.
* `Scan`, `Scan.presets`: the settings of one scan.
* `Detector`: a function from pictures and settings to replies.
-/

namespace Reframe

/-- A region that a detector reports. -/
structure Detection where
  spot : Spot
  /-- The length of its sides in pixels. -/
  scale : Int
  quality : Float32
  deriving DecidableEq, Repr

/-- How much a detection counts: scale times quality. -/
def Detection.weight {α : Type} [Scalar α] (d : Detection) : α :=
  Scalar.ofInt d.scale * Scalar.ofSingle d.quality

/-- The settings of one scan. -/
structure Scan where
  /-- The smallest region to look for, in pixels. -/
  minSize : Nat
  /-- The largest region to look for, in pixels. -/
  maxSize : Nat
  /-- How far the window moves, as a part of its size. -/
  shift : Float
  /-- The factor from one window size to the next. -/
  growth : Float
  /-- The angle of the window in radians. -/
  angle : Float
  deriving DecidableEq, Repr

namespace Scan

/-- The same scan under another angle. -/
def withAngle (s : Scan) (angle : Float) : Scan :=
  { s with angle }

/-- The scans that are tried unless others are set, coarse to fine. -/
def presets : List Scan :=
  [{ minSize := 60, maxSize := 1000, shift := 0.1, growth := 1.1, angle := 0.0 },
    { minSize := 30, maxSize := 1000, shift := 0.1, growth := 1.1, angle := 0.0 },
    { minSize := 20, maxSize := 1000, shift := 0.05, growth := 1.05, angle := 0.0 }]

end Scan

/-- What a detector does with a picture. -/
structure Reply where
  pause : Span
  /-- What it reports, or nothing if it crashes. -/
  report : Option (List Detection)
  deriving DecidableEq, Repr

/-- A detector: what it replies to a picture under the settings of a scan. -/
abbrev Detector : Type :=
  Gray → Scan → Reply

/-- The reply of a detector that neither waits nor crashes. -/
def Reply.found (detections : List Detection) : Reply where
  pause := 0
  report := some detections

end Reframe
