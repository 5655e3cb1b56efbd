import Reframe.Angle

/-!
# Extents, spots, and their turning

An extent is the size of a frame in pixels, a spot the place of a pixel in it; `y`
points down and turns are clockwise. A frame turned by an angle has the bounding
box of its corners for extent. A spot turns about the centre of its frame and is
then counted from the centre of the frame it lands in, rounded to a pixel and
kept inside.

* `Extent.turned`: the bounding box.
* `Spot.imageIn`: where a spot lands, before rounding.
* `Spot.turnInto`, `Spot.turn`: the pixel it lands on.
* `Spot.turnInto_mem`: it lies inside the frame.
-/

namespace Reframe

-- powers of integers are those of the core library, whatever else is known of them
attribute [local instance (2000)] instPowNat

/-- The longest side a frame can have. -/
def maxSide : Nat :=
  2 ^ (32 : Nat) - 1

/-- The largest coordinate a spot can have. -/
def maxCoordinate : Nat :=
  2 ^ (31 : Nat) - 1

/-- The size of a frame in pixels. -/
structure Extent where
  width : Nat
  height : Nat
  deriving DecidableEq, Repr

/-- The place of a pixel, counted from the top left. -/
structure Spot where
  /-- Column. -/
  x : Int
  /-- Row. -/
  y : Int
  deriving DecidableEq, Repr

namespace Extent

/-- An extent with no pixel. -/
def IsEmpty (e : Extent) : Prop :=
  e.width = 0 ∨ e.height = 0

instance (e : Extent) : Decidable e.IsEmpty :=
  inferInstanceAs (Decidable (_ ∨ _))

theorem sides_pos {e : Extent} (h : ¬ e.IsEmpty) : 0 < e.width ∧ 0 < e.height := by
  unfold IsEmpty at h; omega

/-- Last index of a side, as a coordinate. -/
def lastIndex (length : Nat) : Int :=
  min (length - 1 : Nat) maxCoordinate

/-- The spot lies in the frame. -/
def Contains (e : Extent) (p : Spot) : Prop :=
  0 ≤ p.x ∧ p.x < e.width ∧ 0 ≤ p.y ∧ p.y < e.height

instance (e : Extent) (p : Spot) : Decidable (e.Contains p) :=
  inferInstanceAs (Decidable (_ ∧ _))

/-- The spot of the frame nearest to a spot. -/
def pull (e : Extent) (p : Spot) : Spot where
  x := Whole.clampInt 0 (lastIndex e.width) p.x
  y := Whole.clampInt 0 (lastIndex e.height) p.y

theorem lastIndex_nonneg (n : Nat) : 0 ≤ lastIndex n := by
  unfold lastIndex; omega

theorem lastIndex_lt {n : Nat} (h : 0 < n) : lastIndex n < n := by
  unfold lastIndex; omega

/-- **Pulling lands inside** every frame that has a pixel. -/
theorem contains_pull {e : Extent} (h : ¬ e.IsEmpty) (p : Spot) : e.Contains (e.pull p) := by
  simp only [IsEmpty, not_or] at h
  have hx := Whole.clampInt_le (lastIndex_nonneg e.width) p.x
  have hy := Whole.clampInt_le (lastIndex_nonneg e.height) p.y
  have hw := lastIndex_lt (n := e.width) (by omega)
  have hh := lastIndex_lt (n := e.height) (by omega)
  exact ⟨Whole.le_clampInt .., by simp only [pull]; omega,
    Whole.le_clampInt .., by simp only [pull]; omega⟩

end Extent

variable {α : Type} [Scalar α]

/-- The extent of the bounding box of a turned frame: a side a millionth of a
pixel over an integer is not rounded up, and no side vanishes. -/
def Extent.turned (trig : Trig α) (e : Extent) (degrees : α) : Extent :=
  let (sin, cos) := trig.direction degrees
  let w : α := Scalar.ofInt e.width
  let h : α := Scalar.ofInt e.height
  let width := w * Scalar.abs cos + h * Scalar.abs sin
  let height := w * Scalar.abs sin + h * Scalar.abs cos
  { width := ((Scalar.ceil (width - tolerance)).clamp 1 maxSide).toNat
    height := ((Scalar.ceil (height - tolerance)).clamp 1 maxSide).toNat }

/-- The middle of a side, in coordinates of pixel centres. -/
def Extent.middle (length : Nat) : α :=
  (Scalar.ofInt length - 1.0) / 2.0

namespace Spot

/-- Where a spot of the frame `src` lands when the frame turns and its centre is
laid on the centre of the frame `dst`. -/
def imageIn (trig : Trig α) (src dst : Extent) (degrees : α) (p : Spot) : α × α :=
  let (sin, cos) := trig.direction degrees
  let dx := Scalar.ofInt p.x - Extent.middle src.width
  let dy := Scalar.ofInt p.y - Extent.middle src.height
  (dx * cos - dy * sin + Extent.middle dst.width,
    dx * sin + dy * cos + Extent.middle dst.height)

/-- The pixel of a side nearest to a coordinate; what is no number goes to 0. -/
def pin (length : Nat) (x : α) : Int :=
  (Scalar.nearest x).clamp 0 (Extent.lastIndex length)

/-- The pixel of the frame `dst` that a spot of the frame `src` lands on. -/
def turnInto (trig : Trig α) (src dst : Extent) (degrees : α) (p : Spot) : Spot :=
  let (x, y) := p.imageIn trig src dst degrees
  { x := pin dst.width x, y := pin dst.height y }

/-- The pixel of the turned frame's bounding box that a spot lands on. -/
def turn (trig : Trig α) (src : Extent) (degrees : α) (p : Spot) : Spot :=
  p.turnInto trig src (src.turned trig degrees) degrees

/-- **A turned spot lies in the frame it is counted in.** -/
theorem turnInto_mem (trig : Trig α) (src : Extent) {dst : Extent} (h : ¬ dst.IsEmpty)
    (degrees : α) (p : Spot) : dst.Contains (p.turnInto trig src dst degrees) := by
  simp only [Extent.IsEmpty, not_or] at h
  have hw := Extent.lastIndex_lt (n := dst.width) (by omega)
  have hh := Extent.lastIndex_lt (n := dst.height) (by omega)
  have hx := Whole.clamp_le (Extent.lastIndex_nonneg dst.width)
    (Scalar.nearest (p.imageIn trig src dst degrees).1)
  have hy := Whole.clamp_le (Extent.lastIndex_nonneg dst.height)
    (Scalar.nearest (p.imageIn trig src dst degrees).2)
  refine ⟨Whole.le_clamp .., ?_, Whole.le_clamp .., ?_⟩
  · simp only [turnInto, pin]; omega
  · simp only [turnInto, pin]; omega

end Spot

end Reframe
