import Reframe.Detection
import Reframe.Pool.Schedule
import Reframe.Raster.Turn

/-!
# Surveys of a picture

A survey runs a detector over a picture in several ways. The presets are tried in
order, each under all given angles at once, until one of them finds something
usable; a survey all around does this on turned copies as well, one pass for each
rotation and each angle, and turns what it finds back into the picture's frame.

Whether a batch of scans goes to the pool or is done on the spot is the caller's
matter: the functions take the way to spread tasks as an argument.

* `Survey.sanitize`: what is kept of a detection.
* `Survey.detect`: the first preset that finds something.
* `Survey.detectTurned`: the same on a turned copy.
* `Survey.detectAround`: every rotation with every angle.
-/

namespace Reframe

/-- One call of a detector. -/
structure Look where
  gray : Gray
  scan : Scan

/-- What a pass over a picture comes to. -/
abbrev Pass : Type :=
  Except Fault (List Detection)

/-- What several passes come to: everything they found, in order, or the first fault. -/
def Pass.gather (passes : List Pass) : Pass :=
  (passes.mapM id).map List.flatten

/-- A detector and the ways to run it. -/
structure Survey where
  detector : Detector
  /-- The scans that are tried in order. -/
  presets : List Scan
  /-- The rotations of the whole picture, in degrees. -/
  rotations : List Float
  /-- The angles of a scan, in radians. -/
  angles : List Float
  minQuality : Float32
  token : Token
  instruments : Instruments

namespace Survey

/-- The rotations of a survey all around, unless others are set. -/
def defaultRotations : List Float :=
  [0.0, 90.0, 270.0]

/-- The angles of a survey all around, unless others are set. -/
def defaultAngles : List Float :=
  [0.0, 0.13, 0.87]

/-- A detection that can serve as a sample. -/
def IsUsable (s : Survey) (d : Detection) : Prop :=
  0 < d.scale ∧ d.quality.isFinite ∧ s.minQuality ≤ d.quality ∧ (d.weight : Float).isFinite

instance (s : Survey) (d : Detection) : Decidable (s.IsUsable d) :=
  inferInstanceAs (Decidable (_ ∧ _))

/-- A usable detection, with its spot pulled into the frame that was scanned. -/
def sanitize (s : Survey) (e : Extent) (d : Detection) : Option Detection :=
  if s.IsUsable d then some { d with spot := e.pull d.spot } else none

/-- A call of the detector as a task: it is noted, takes its time, and ends with what
the detector reports. -/
def look (s : Survey) (gray : Gray) (scan : Scan) : Task Look Pass :=
  let reply := s.detector gray scan
  .note ⟨gray, scan⟩ <| .sleep reply.pause <|
    match reply.report with
    | some detections => .done (.ok detections)
    | none => .crash

variable {m : Type → Type} [Monad m]

/-- What the presets find on a gray picture: those of the first one that finds
something usable. -/
def detectGray (fanOut : Token → List (Task Look Pass) → m (Except Fault (List Pass)))
    (s : Survey) (gray : Gray) (angles : List Float) : List Scan → m Pass
  | [] => pure (.ok [])
  | preset :: presets => do
    let passes ← fanOut s.token (angles.map fun angle => s.look gray (preset.withAngle angle))
    match passes.bind Pass.gather with
    | .error fault => pure (.error fault)
    | .ok reported =>
      match reported.filterMap (s.sanitize gray.extent) with
      | [] => detectGray fanOut s gray angles presets
      | detections => pure (.ok detections)

/-- What the presets find on a picture, scanned upright if no angle is given. -/
def detect (fanOut : Token → List (Task Look Pass) → m (Except Fault (List Pass)))
    (s : Survey) (picture : Picture) (angles : List Float) : m Pass :=
  s.detectGray fanOut picture.toGray (if angles.isEmpty then [0.0] else angles) s.presets

/-- A detection on a turned copy, in the frame of the picture. -/
def turnedBack (s : Survey) (turned frame : Extent) (rotation : Float) (d : Detection) :
    Detection :=
  { d with spot := d.spot.turnInto s.instruments.spots turned frame (Angle.inverse rotation) }

/-- What the presets find on a turned copy of a picture, in the frame of the picture. -/
def detectTurned (fanOut : Token → List (Task Look Pass) → m (Except Fault (List Pass)))
    (s : Survey) (picture : Picture) (degrees : Float) (angles : List Float) : m Pass :=
  let rotation := Angle.normalize degrees
  if rotation == 0.0 then s.detect fanOut picture angles
  else do
    let turned := picture.turn s.instruments rotation
    let pass ← s.detect fanOut turned angles
    pure (pass.map (·.map (s.turnedBack turned.extent picture.extent rotation)))

/-- The passes of a survey all around: each rotation with each angle. -/
def passes (s : Survey) : List (Float × Float) :=
  s.rotations.flatMap fun rotation => s.angles.map (rotation, ·)

/-- One pass of a survey all around, as a task. It crashes if the picture cannot be
turned. -/
def passTask (s : Survey) (picture : Picture) (p : Float × Float) : Task Look Pass :=
  if picture.CanTurn p.1 then s.detectTurned Task.each picture p.1 [p.2] else .crash

/-- What all passes find, in the order of the passes. -/
def detectAround (fanOut : Token → List (Task Look Pass) → m (Except Fault (List Pass)))
    (s : Survey) (picture : Picture) : m Pass := do
  let passes ← fanOut s.token (s.passes.map (s.passTask picture))
  pure (passes.bind Pass.gather)

end Survey

end Reframe
