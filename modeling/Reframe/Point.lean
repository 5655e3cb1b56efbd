import Reframe.Failure

/-!
# Points, weighted points, and their mean

A point has one coordinate per axis; coordinates inside the picture are fractions
between 0 and 1. A sample is a point with a weight. Points of different
dimensions cannot be compared or averaged.

* `Point.dist`: the Euclidean distance.
* `Point.select`: the coordinates on some axes, in any order.
* `weightedMean`: `Σ weight * coordinate / Σ weight`, one axis at a time.
-/

namespace Reframe

variable {α : Type} [Scalar α]

/-- A coordinate that lies on a picture: between 0 and 1. -/
def IsFraction (x : α) : Prop :=
  0.0 ≤ x ∧ x ≤ 1.0

instance (x : α) : Decidable (IsFraction x) :=
  inferInstanceAs (Decidable (_ ∧ _))

/-- The distance of two coordinates. -/
def apart (x y : α) : α :=
  Scalar.abs (x - y)

/-- A point: one coordinate per axis. -/
structure Point (α : Type) where
  /-- The coordinates, by axis. -/
  coordinates : List α
  deriving DecidableEq, Repr

namespace Point

/-- The number of axes. -/
def dimension (p : Point α) : Nat :=
  p.coordinates.length

/-- The origin of a space. -/
def origin (dimension : Nat) : Point α :=
  ⟨List.replicate dimension 0.0⟩

/-- The coordinate on an axis. -/
def get? (p : Point α) (axis : Nat) : Option α :=
  p.coordinates[axis]?

/-- Every coordinate lies on the picture. -/
def IsOnPicture (p : Point α) : Prop :=
  ∀ x ∈ p.coordinates, IsFraction x

instance (p : Point α) : Decidable p.IsOnPicture :=
  inferInstanceAs (Decidable (∀ x ∈ p.coordinates, IsFraction x))

/-- The points have equal coordinates on equally many axes. -/
def Agrees (p q : Point α) : Prop :=
  p.dimension = q.dimension ∧ ∀ x ∈ p.coordinates.zip q.coordinates, x.1 ≤ x.2 ∧ x.2 ≤ x.1

instance (p q : Point α) : Decidable (p.Agrees q) :=
  inferInstanceAs (Decidable (_ ∧ _))

/-- Refuses two points of different dimensions. -/
def sameDimension (left right : Nat) : Except (Failure α) Unit :=
  if left = right then .ok () else .error (.dimensionMismatch left right)

/-- The Euclidean distance of two lists of coordinates. -/
def distance : List α → List α → α
  | [x], [y] => apart x y
  | [x, x'], [y, y'] => Scalar.hypot (apart x y) (apart x' y')
  | [], _ => 0.0
  | xs, ys => Scalar.sqrt (Scalar.sum (List.zipWith (fun x y => apart x y * apart x y) xs ys))

/-- The Euclidean distance of two points. -/
def dist (p q : Point α) : Except (Failure α) α := do
  sameDimension p.dimension q.dimension
  return distance p.coordinates q.coordinates

/-- The coordinates on the given axes. -/
def select (p : Point α) (axes : List Nat) : Except (Failure α) (Point α) := do
  let coordinates ← axes.mapM fun axis =>
    match p.get? axis with
    | some x => .ok x
    | none => .error (.noSuchAxis axis p.dimension)
  return ⟨coordinates⟩

end Point

/-- A point with a weight. -/
structure Sample (α : Type) where
  point : Point α
  weight : α
  deriving DecidableEq, Repr

namespace Sample

/-- A number that can serve as a weight: finite and not negative. -/
def IsWeight (w : α) : Prop :=
  Scalar.isFinite w ∧ ¬ w < 0.0

instance (w : α) : Decidable (IsWeight w) :=
  inferInstanceAs (Decidable (_ ∧ _))

/-- A point with a weight, unless the weight is none. -/
def ofWeight (point : Point α) (weight : α) : Except (Failure α) (Sample α) :=
  if IsWeight weight then .ok ⟨point, weight⟩ else .error (.badWeight weight)

/-- The distance of the points of two samples. -/
def dist (s t : Sample α) : Except (Failure α) α :=
  s.point.dist t.point

/-- The sample on the given axes. -/
def select (s : Sample α) (axes : List Nat) : Except (Failure α) (Sample α) := do
  return ⟨← s.point.select axes, s.weight⟩

/-- The sum of the weights. -/
def totalWeight (samples : List (Sample α)) : α :=
  Scalar.sum (samples.map (·.weight))

end Sample

/-- The sums of the weighted coordinates, one per axis. -/
def weightedSums (dimension : Nat) (samples : List (Sample α)) : List α :=
  samples.foldl
    (fun sums s => List.zipWith (fun sum x => sum + x * s.weight) sums s.point.coordinates)
    (List.replicate dimension 0.0)

/-- The weighted mean of some samples. Without samples, or without weight, it is the
point without coordinates. -/
def weightedMean (samples : List (Sample α)) : Except (Failure α) (Point α) := do
  match samples with
  | [] => return ⟨[]⟩
  | first :: _ =>
    let dimension := first.point.dimension
    samples.forM fun s => Point.sameDimension dimension s.point.dimension
    let total := Sample.totalWeight samples
    if total ≤ 0.0 then return ⟨[]⟩
    return ⟨(weightedSums dimension samples).map (· / total)⟩

/-- The plain mean: every point has weight 1. -/
def mean (points : List (Point α)) : Except (Failure α) (Point α) :=
  weightedMean (points.map (⟨·, 1.0⟩))

end Reframe
