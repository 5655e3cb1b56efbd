import Reframe.Anchor
import Reframe.Crop
import Reframe.Png
import Reframe.Raster.Shrink
import Reframe.Survey

/-!
# Locators

A locator finds the subject of pictures and plans their crops. It is made from
settings, which are checked in a fixed order; then it serves any number of
pictures, each under a token of its own.

* `Settings.fault?`: the first setting that makes no sense.
* `Locator`: settings without such a fault.
* `Locator.locate`: the anchor of a picture's crop.
* `Locator.plan`: the crop itself.
* `Locator.locateFile`: the anchor for the picture in a file.
-/

namespace Reframe

/-- How a locator works. -/
structure Settings where
  detector : Detector
  /-- The width to which wider pictures are shrunk. -/
  maxWidth : Nat := 650
  /-- The distance up to which detections belong together. -/
  threshold : Float := defaultThreshold
  /-- The rotations of a survey all around, in degrees. -/
  rotations : List Float := Survey.defaultRotations
  /-- The angles of a survey all around, in radians. -/
  angles : List Float := Survey.defaultAngles
  /-- The scans that are tried in order. -/
  presets : List Scan := Scan.presets
  minQuality : Float32 := 0.0
  workers : Nat := 9
  limit : Option Span := none
  instruments : Instruments := .machine

/-- A pool has at least one worker. -/
def workersFault? (workers : Nat) : Option (Failure Float) :=
  if workers = 0 then some (.badSetting "worker count must be > 0") else none

/-- The first setting that makes no sense. -/
def Settings.fault? (s : Settings) : Option (Failure Float) :=
  if s.maxWidth = 0 then some .badWidth
  else if ¬ IsThreshold s.threshold then some (.badThreshold s.threshold)
  else if ¬ s.minQuality.isFinite ∨ s.minQuality < 0.0 then
    some (.badSetting ("min quality must be a non-negative number, got " ++
      Decimal.ofSingle s.minQuality))
  else if s.presets.isEmpty then some (.badSetting "at least one scan preset is required")
  else if s.rotations.isEmpty ∨ s.angles.isEmpty then
    some (.badSetting "ensemble needs at least one rotation and one scan angle")
  else if (s.rotations ++ s.angles).any (!·.isFinite) then
    some (.badSetting "angles must be finite")
  else workersFault? s.workers

/-- Settings that make sense. -/
structure Locator extends Settings where
  /-- No setting is at fault. -/
  sound : toSettings.fault? = none

/-- The locator of some settings, or what is wrong with them. -/
def Locator.ofSettings (s : Settings) : Except (Failure Float) Locator :=
  match h : s.fault? with
  | none => .ok ⟨s, h⟩
  | some failure => .error failure

/-- How much work a picture is worth. -/
inductive Strategy where
  /-- The picture as it stands. -/
  | single
  /-- Every rotation with every angle. -/
  | around
  deriving DecidableEq, Repr

/-- What a watcher is shown of a search. -/
structure Sight where
  picture : Picture
  detections : List Detection
  /-- The groups, as they were clustered. -/
  groups : List (Group Float)

/-- A number that can serve as a target ratio: finite and positive. -/
def IsRatio {α : Type} [Scalar α] (ratio : α) : Prop :=
  Scalar.isFinite ratio ∧ ¬ ratio ≤ 0.0

instance {α : Type} [Scalar α] (ratio : α) : Decidable (IsRatio ratio) :=
  inferInstanceAs (Decidable (_ ∧ _))

namespace Locator

/-- The survey that a locator makes under a token. -/
def survey (l : Locator) (token : Token) : Survey where
  detector := l.detector
  presets := l.presets
  rotations := l.rotations
  angles := l.angles
  minQuality := l.minQuality
  token := token
  instruments := l.instruments

/-- The pool that a locator works in, idle, with a clock that can tell times up to a last
one. -/
def pool (l : Locator) (horizon : Span) : Pool Look Pass :=
  .idle l.workers l.limit horizon

/-- What a survey finds by a strategy. -/
def search (l : Locator) (token : Token) (picture : Picture) :
    Strategy → Client Look Pass Pass
  | .single => (l.survey token).detect Client.fanOut picture []
  | .around => (l.survey token).detectAround Client.fanOut picture

/-- The anchor among detections in a picture, together with what is shown. -/
def anchor (l : Locator) (picture : Picture) (ratio : Float) (detections : List Detection) :
    Watched Sight (Failure Float) (Anchor Float) :=
  let found := Anchor.locate picture.extent ratio l.threshold detections
  ⟨found.seen.map fun groups => { picture, detections, groups }, found.result⟩

/-- The anchor for a crop of a picture to a ratio. Pictures wider than the setting
are searched shrunk. -/
def locate (l : Locator) (token : Token) (picture : Picture) (ratio : Float)
    (strategy : Strategy) :
    Client Look Pass (Watched Sight (Failure Float) (Anchor Float)) :=
  if ¬ IsRatio ratio then .done ⟨[], .error (.badRatio ratio)⟩
  else if picture.extent.IsEmpty then .done ⟨[], .error .emptyPicture⟩
  else do
    let working := picture.shrink l.maxWidth
    match ← l.search token working strategy with
    | .error fault => return ⟨[], .error (.batch fault)⟩
    | .ok detections => return l.anchor working ratio detections

/-- The crop of a picture to a ratio. -/
def plan (l : Locator) (token : Token) (picture : Picture) (ratio : Float)
    (strategy : Strategy) : Client Look Pass (Except (Failure Float) Crop) := do
  let found ← l.locate token picture ratio strategy
  return found.result.map fun anchor => Crop.ofRatio picture.extent ratio (some anchor)

/-- The anchor for a crop of the picture in a file. -/
def locateFile (l : Locator) (token : Token) (file : List UInt8) (ratio : Float)
    (strategy : Strategy) :
    Client Look Pass (Watched Sight (Failure Float) (Anchor Float)) :=
  match Png.decode file with
  | .ok picture => l.locate token picture ratio strategy
  | .error fault => .done ⟨[], .error (.undecodable fault.message)⟩

end Locator

end Reframe
