import Reframe.Axis
import Reframe.Cluster
import Reframe.Detection

/-!
# Where the subject is

Detections become samples: their place as fractions of the frame, weighted by
scale and quality. On the axis that the crop cuts, the samples are clustered, and
the mean of the heaviest group is the anchor of the crop. The groups are shown to a
watcher as they were clustered.

* `Detection.sample`: a detection as a sample.
* `Anchor.ofGroups`: the mean of the heaviest group.
* `Anchor.locate`: from detections to the anchor.
-/

namespace Reframe

variable {α : Type} [Scalar α]

/-- Where the subject is on one axis. -/
structure Anchor (α : Type) where
  /-- The place, as a fraction of the side; 0 when nothing was found. -/
  position : α
  found : Bool
  axis : Axis
  deriving DecidableEq, Repr

/-- The anchor when nothing was found. -/
def Anchor.missing (axis : Axis) : Anchor α where
  position := 0.0
  found := false
  axis := axis

/-- A place on a side as a fraction of it; a place outside counts as the nearer end. -/
def fractionOf (length : Nat) (x : Int) : α :=
  Scalar.ofInt (Whole.clampInt 0 (length - 1 : Nat) x) / Scalar.ofInt length

/-- A detection as a sample of a frame. -/
def Detection.sample (e : Extent) (d : Detection) : Except (Failure α) (Sample α) :=
  if e.IsEmpty then .error .emptyPicture
  else Sample.ofWeight ⟨[fractionOf e.width d.spot.x, fractionOf e.height d.spot.y]⟩ d.weight

/-- A detection as a sample of one axis of a frame. -/
def Detection.sampleOn (e : Extent) (axis : Axis) (d : Detection) :
    Except (Failure α) (Sample α) := do
  (← d.sample e).select [axis.index]

/-- What a computation let its watcher see, and its result. -/
structure Watched (σ ε β : Type) where
  /-- What the watcher was shown, one item per call. -/
  seen : List σ
  result : Except ε β

namespace Anchor

/-- The mean of the heaviest group, if it has weight. -/
def ofGroups (axis : Axis) (groups : List (Group α)) : Except (Failure α) (Anchor α) := do
  match Group.rankByWeight groups with
  | [] => return missing axis
  | heaviest :: _ =>
    let mean ← heaviest.mean
    match mean.coordinates with
    | [position] => return { position, found := true, axis }
    | _ => return missing axis

/-- The samples of some detections on an axis, clustered. -/
def groupsOn (axis : Axis) (e : Extent) (threshold : α) (detections : List Detection) :
    Except (Failure α) (List (Group α)) := do
  cluster (← detections.mapM (·.sampleOn e axis)) threshold

/-- The anchor of some detections in a frame, for a crop to a ratio. The groups are
shown once they are known. -/
def locate (e : Extent) (ratio threshold : α) (detections : List Detection) :
    Watched (List (Group α)) (Failure α) (Anchor α) :=
  let axis := Axis.dominant e ratio
  match groupsOn axis e threshold detections with
  | .ok groups => ⟨[groups], ofGroups axis groups⟩
  | .error failure => ⟨[], .error failure⟩

end Anchor

end Reframe
