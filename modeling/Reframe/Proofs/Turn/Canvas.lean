import Reframe.Proofs.Turn.RoundTrip
import Reframe.Raster.Turn

/-!
# A turned frame fits its canvas

A picture is turned on a square as wide as its diagonal, and the box that is cut out of it is
computed by itself. In exact arithmetic no turned length exceeds the diagonal, so the box always
lies on the square, and bounding it by the square changes nothing: a turned picture has the
frame that its spots are turned into.

* `Extent.afterTurn`, `Raster.extent_turn`: the frame of a turned picture.
* `Angle.IsOblique`: an angle away from every right angle.
* `Extent.length_le_diagonal`: a turned length is no longer than the diagonal.
* `Canvas.layout_fits`: **the frame and the box fit the canvas**, and the box is the result.
-/

namespace Reframe

/-- The frame of a turned picture: the same or the swapped sides for a right angle, else what is
cut out of the canvas. -/
def Extent.afterTurn {α : Type} [Scalar α] (trig : Trig α) (e : Extent) (degrees : α) : Extent :=
  let degrees := Angle.normalize degrees
  if Angle.isNear degrees 0.0 then e
  else if Angle.isNear degrees 90.0 then ⟨e.height, e.width⟩
  else if Angle.isNear degrees 180.0 then e
  else if Angle.isNear degrees 270.0 then ⟨e.height, e.width⟩
  else (Canvas.layout trig e degrees).cutExtent

theorem Raster.extent_turn (instruments : Instruments) (picture : Picture) (degrees : Float) :
    (picture.turn instruments degrees).extent =
      picture.extent.afterTurn instruments.spots degrees := by
  unfold Raster.turn Extent.afterTurn
  extract_lets rotation
  repeat' split
  all_goals rfl

/-- The pasted frame and the part that is cut out lie on the canvas, and neither is longer than
it: what the places of both are halves of is no negative number. -/
structure Canvas.Holds (canvas : Canvas) (e : Extent) : Prop where
  width_le : e.width ≤ canvas.side
  height_le : e.height ≤ canvas.side
  cutWidth_le : canvas.cutExtent.width ≤ canvas.side
  cutHeight_le : canvas.cutExtent.height ≤ canvas.side
  right : canvas.pasteLeft + e.width ≤ canvas.side
  bottom : canvas.pasteTop + e.height ≤ canvas.side
  cutRight : canvas.cutLeft + canvas.cutExtent.width ≤ canvas.side
  cutBottom : canvas.cutTop + canvas.cutExtent.height ≤ canvas.side

namespace Angle

variable {d : ℝ}

/-- The angle is at least a billionth of a degree away from every multiple of 90 degrees. -/
def IsOblique (d : ℝ) : Prop :=
  ∀ k : ℤ, 1 / 10 ^ 9 ≤ |d - 90 * k|

theorem isNear_real (d target : ℝ) : isNear d target = decide (|d - target| < 1 / 10 ^ 9) := by
  have h : (1e-9 : ℝ) = 1 / 10 ^ 9 := by norm_num
  rw [← h]
  rfl

theorem IsOblique.not_isNear (h : IsOblique d) (k : ℤ) {target : ℝ} (htarget : target = 90 * k) :
    isNear d target = false := by
  rw [isNear_real, htarget]
  exact decide_eq_false (not_lt.2 (h k))

/-- An oblique angle is snapped to none, or is oblique within one turn. -/
theorem IsOblique.normalize_cases (h : IsOblique d) :
    normalize d = 0 ∨ IsOblique (normalize d) := by
  rw [normalize_real]
  split
  · exact .inl rfl
  · obtain ⟨-, -, turns, hturns⟩ := wrap_mem d
    refine .inr fun k => ?_
    -- a whole turn is four right angles
    have hk := h (k - 4 * turns)
    have heq : wrap d - 90 * k = d - 90 * ((k - 4 * turns : ℤ) : ℝ) := by
      rw [hturns]
      push_cast
      ring
    rwa [heq]

theorem isNear_zero_self : isNear (0 : ℝ) 0.0 = true := by
  have h0 : (0.0 : ℝ) = 0 := by norm_num
  rw [isNear_real, h0, sub_zero, abs_zero]
  exact decide_eq_true (by norm_num)

end Angle

namespace Extent

variable {s c : ℝ} {e : Extent} {degrees : ℝ}

/-- The diagonal of a frame. -/
noncomputable def diagonal (e : Extent) : ℝ :=
  Real.sqrt ((e.width : ℝ) ^ 2 + (e.height : ℝ) ^ 2)

/-- **A turned length is no longer than the diagonal.** -/
theorem length_le_diagonal (e : Extent) (hcircle : s ^ 2 + c ^ 2 = 1) :
    e.width * |c| + e.height * |s| ≤ e.diagonal := by
  have hs := sq_abs s
  have hc := sq_abs c
  refine le_trans (le_abs_self _) (Real.abs_le_sqrt ?_)
  calc (e.width * |c| + e.height * |s|) ^ 2
      ≤ (e.width * |c| + e.height * |s|) ^ 2 + (e.width * |s| - e.height * |c|) ^ 2 :=
        le_add_of_nonneg_right (sq_nonneg _)
    _ = ((e.width : ℝ) ^ 2 + (e.height : ℝ) ^ 2) * (|s| ^ 2 + |c| ^ 2) := by ring
    _ = (e.width : ℝ) ^ 2 + (e.height : ℝ) ^ 2 := by rw [hs, hc, hcircle, mul_one]

theorem width_le_diagonal (e : Extent) : (e.width : ℝ) ≤ e.diagonal := by
  have h := e.length_le_diagonal (show (0 : ℝ) ^ 2 + 1 ^ 2 = 1 by norm_num)
  rwa [abs_zero, abs_one, mul_zero, mul_one, add_zero] at h

theorem height_le_diagonal (e : Extent) : (e.height : ℝ) ≤ e.diagonal := by
  have h := e.length_le_diagonal (show (1 : ℝ) ^ 2 + 0 ^ 2 = 1 by norm_num)
  rwa [abs_zero, abs_one, mul_zero, mul_one, zero_add] at h

theorem diagonal_le (hw : e.width ≤ 2 ^ 24) (hh : e.height ≤ 2 ^ 24) : e.diagonal ≤ 2 ^ 25 := by
  have hw : (e.width : ℝ) ≤ 2 ^ 24 := by exact_mod_cast hw
  have hh : (e.height : ℝ) ≤ 2 ^ 24 := by exact_mod_cast hh
  refine Real.sqrt_le_iff.2 ⟨by positivity, ?_⟩
  calc (e.width : ℝ) ^ 2 + (e.height : ℝ) ^ 2 ≤ (2 ^ 24) ^ 2 + (2 ^ 24) ^ 2 := by gcongr
    _ ≤ (2 ^ 25) ^ 2 := by norm_num

end Extent

/-- A box is no longer than a square that holds its length. -/
theorem boxSide_le_ceil {length diagonal : ℝ} (hlength : length ≤ diagonal) (hone : 1 ≤ diagonal) :
    (boxSide length : ℤ) ≤ ⌈diagonal⌉ := by
  have hbox : ⌈length - 1 / 1000000⌉ ≤ ⌈diagonal⌉ := Int.ceil_mono (by linarith)
  have hone : 1 ≤ ⌈diagonal⌉ := Int.one_le_ceil_iff.2 (by linarith)
  simp only [boxSide, Whole.clamp, Whole.clampInt, maxSide]
  omega

/-- The integer that a length is rounded up to, once a millionth is dropped. -/
theorem boxSide_eq {length : ℝ} {n : ℕ} (hpos : 0 < n) (hn : n ≤ 2 ^ 24)
    (hlow : n - 1 + 1 / 1000000 < length) (hhigh : length ≤ n + 1 / 1000000) :
    boxSide length = n := by
  have hceil : ⌈length - 1 / 1000000⌉ = n := by
    rw [Int.ceil_eq_iff]
    constructor <;> push_cast <;> linarith
  rw [boxSide, hceil, Whole.clamp_of_mem (by omega) (by unfold maxSide; omega), Int.toNat_natCast]

theorem boxSide_natCast {n : ℕ} (hpos : 0 < n) (hn : n ≤ 2 ^ 24) : boxSide n = n :=
  boxSide_eq hpos hn (by linarith) (by linarith)

namespace Canvas

variable {e : Extent} {degrees : ℝ}

/-- **The canvas is as wide as the diagonal**, rounded up. -/
theorem side_exact (hw : e.width ≤ 2 ^ 24) (hh : e.height ≤ 2 ^ 24) (degrees : ℝ) :
    ((layout .exact e degrees).side : ℤ) = ⌈e.diagonal⌉ := by
  have hside : (layout .exact e degrees).side =
      (Whole.clampInt 0 maxSide ⌈e.diagonal⌉).toNat := by
    simp only [Extent.diagonal, ← Int.cast_natCast (R := ℝ)]
    rfl
  have hlow : 0 ≤ ⌈e.diagonal⌉ := Int.ceil_nonneg (Real.sqrt_nonneg _)
  have hhigh : ⌈e.diagonal⌉ ≤ 2 ^ 25 := Int.ceil_le.2 (by exact_mod_cast Extent.diagonal_le hw hh)
  have hmax : ⌈e.diagonal⌉ ≤ maxSide := by unfold maxSide; omega
  rw [hside, Whole.clampInt_of_mem hlow hmax, Int.toNat_of_nonneg hlow]

/-- No side of the frame is longer than the canvas. -/
theorem sides_le (hw : e.width ≤ 2 ^ 24) (hh : e.height ≤ 2 ^ 24) (degrees : ℝ) :
    e.width ≤ (layout .exact e degrees).side ∧ e.height ≤ (layout .exact e degrees).side := by
  have hside := side_exact hw hh degrees
  have hwidth : (e.width : ℤ) ≤ ⌈e.diagonal⌉ :=
    Int.le_ceil_iff.2 (by push_cast; linarith [e.width_le_diagonal])
  have hheight : (e.height : ℤ) ≤ ⌈e.diagonal⌉ :=
    Int.le_ceil_iff.2 (by push_cast; linarith [e.height_le_diagonal])
  omega

/-- No side of the box is longer than the canvas. -/
theorem box_le (he : ¬ e.IsEmpty) (hw : e.width ≤ 2 ^ 24) (hh : e.height ≤ 2 ^ 24) (degrees : ℝ) :
    (e.turned .exact degrees).width ≤ (layout .exact e degrees).side ∧
      (e.turned .exact degrees).height ≤ (layout .exact e degrees).side := by
  obtain ⟨hpos, -⟩ := Extent.sides_pos he
  have hone : (1 : ℝ) ≤ e.diagonal :=
    le_trans (by exact_mod_cast hpos) e.width_le_diagonal
  rcases hd : Trig.exact.direction degrees with ⟨s, c⟩
  have hcircle := Spot.direction_circle hd
  have hcircle' : c ^ 2 + s ^ 2 = 1 := by rw [add_comm, hcircle]
  have hwidth := boxSide_le_ceil (e.length_le_diagonal hcircle) hone
  have hheight := boxSide_le_ceil (e.length_le_diagonal hcircle') hone
  rw [← side_exact hw hh degrees] at hwidth hheight
  rw [Extent.turned_exact e hd]
  exact ⟨Int.ofNat_le.1 hwidth, Int.ofNat_le.1 hheight⟩

/-- What is no longer than the canvas is put in its middle: frame and box lie on it. -/
theorem holds_layout (he : ¬ e.IsEmpty) (hw : e.width ≤ 2 ^ 24) (hh : e.height ≤ 2 ^ 24)
    (degrees : ℝ) : (layout .exact e degrees).Holds e := by
  obtain ⟨hwidth, hheight⟩ := sides_le hw hh degrees
  obtain ⟨hbox, hbox'⟩ := box_le he hw hh degrees
  have hcut : (layout .exact e degrees).cutExtent.width ≤ (layout .exact e degrees).side :=
    Nat.min_le_right _ _
  have hcut' : (layout .exact e degrees).cutExtent.height ≤ (layout .exact e degrees).side :=
    Nat.min_le_right _ _
  have half : ∀ {side length : ℕ}, length ≤ side → (side - length) / 2 + length ≤ side := by
    omega
  exact ⟨hwidth, hheight, hcut, hcut', half hwidth, half hheight, half hcut, half hcut'⟩

/-- The canvas does not bound the box. -/
theorem cutExtent_layout (he : ¬ e.IsEmpty) (hw : e.width ≤ 2 ^ 24) (hh : e.height ≤ 2 ^ 24)
    (degrees : ℝ) : (layout .exact e degrees).cutExtent = e.turned .exact degrees := by
  obtain ⟨hwidth, hheight⟩ := box_le he hw hh degrees
  calc (layout .exact e degrees).cutExtent
      = ⟨min (e.turned .exact degrees).width (layout .exact e degrees).side,
          min (e.turned .exact degrees).height (layout .exact e degrees).side⟩ := rfl
    _ = e.turned .exact degrees := by rw [min_eq_left hwidth, min_eq_left hheight]

end Canvas

namespace Extent

variable {e : Extent} {degrees : ℝ}

/-- The box depends on the angle within one turn only. -/
theorem turned_normalize (e : Extent) (degrees : ℝ) :
    e.turned .exact (Angle.normalize degrees) = e.turned .exact degrees := by
  unfold turned Trig.direction
  rw [Angle.normalize_normalize]

theorem turned_of_normalize_eq_zero (he : ¬ e.IsEmpty) (hw : e.width ≤ 2 ^ 24)
    (hh : e.height ≤ 2 ^ 24) (h : Angle.normalize degrees = 0) : e.turned .exact degrees = e := by
  obtain ⟨hwidth, hheight⟩ := sides_pos he
  have hd := Trig.direction_of_normalize_eq_zero h
  rw [turned_exact e hd, abs_zero, abs_one, mul_one, mul_zero, mul_one, mul_zero, add_zero,
    zero_add, boxSide_natCast hwidth hw, boxSide_natCast hheight hh]

/-- **A turned picture has the box for its frame**, at every oblique angle. -/
theorem afterTurn_exact (he : ¬ e.IsEmpty) (hw : e.width ≤ 2 ^ 24) (hh : e.height ≤ 2 ^ 24)
    (h : Angle.IsOblique degrees) : e.afterTurn .exact degrees = e.turned .exact degrees := by
  unfold afterTurn
  extract_lets rotation
  rcases h.normalize_cases with hzero | hoblique
  · have hnear : Angle.isNear rotation 0.0 = true := by
      simp only [rotation, hzero, Angle.isNear_zero_self]
    rw [if_pos hnear, turned_of_normalize_eq_zero he hw hh hzero]
  · have h0 : Angle.isNear rotation 0.0 = false := hoblique.not_isNear 0 (by norm_num)
    have h1 : Angle.isNear rotation 90.0 = false := hoblique.not_isNear 1 (by norm_num)
    have h2 : Angle.isNear rotation 180.0 = false := hoblique.not_isNear 2 (by norm_num)
    have h3 : Angle.isNear rotation 270.0 = false := hoblique.not_isNear 3 (by norm_num)
    rw [h0, h1, h2, h3]
    exact (Canvas.cutExtent_layout he hw hh _).trans (e.turned_normalize degrees)

end Extent

variable {e : Extent} {degrees : ℝ}

/-- **A frame that is turned by an oblique angle fits its canvas.** The canvas is as wide as the
diagonal, rounded up. It holds the frame where it is pasted and the box where it is cut out, and
the box is not bounded by it. So the turned picture has exactly the frame that spots are turned
into. -/
theorem Canvas.layout_fits (he : ¬ e.IsEmpty) (hw : e.width ≤ 2 ^ 24) (hh : e.height ≤ 2 ^ 24)
    (h : Angle.IsOblique degrees) :
    let canvas := Canvas.layout .exact e (Angle.normalize degrees)
    let box := e.turned .exact degrees
    (canvas.side : ℤ) = ⌈Real.sqrt ((e.width : ℝ) ^ 2 + (e.height : ℝ) ^ 2)⌉ ∧
      (box.width ≤ canvas.side ∧ box.height ≤ canvas.side) ∧
      canvas.Holds e ∧ canvas.cutExtent = box ∧ e.afterTurn .exact degrees = box := by
  intro canvas box
  have hbox : e.turned .exact (Angle.normalize degrees) = box := e.turned_normalize degrees
  refine ⟨side_exact hw hh _, ?_, holds_layout he hw hh _, ?_, Extent.afterTurn_exact he hw hh h⟩
  · rw [← hbox]
    exact box_le he hw hh _
  · rw [← hbox]
    exact cutExtent_layout he hw hh _

/-- Half a right angle is as far from right angles as can be. -/
theorem Angle.isOblique_eighth : IsOblique 45 := by
  intro k
  have hodd : (1 : ℝ) ≤ |1 - 2 * (k : ℝ)| := by
    exact_mod_cast Int.one_le_abs (show 1 - 2 * k ≠ 0 by omega)
  have heq : (45 : ℝ) - 90 * k = 45 * (1 - 2 * k) := by ring
  rw [heq, abs_mul, abs_of_pos (by norm_num)]
  linarith

/-- A frame of three by four pixels, whose diagonal is an integer. -/
theorem Canvas.layout_fits_threeByFour :
    let e : Extent := ⟨3, 4⟩
    (¬ e.IsEmpty ∧ e.width ≤ 2 ^ 24 ∧ e.height ≤ 2 ^ 24 ∧ Angle.IsOblique 45) ∧
      (Canvas.layout .exact e (Angle.normalize 45)).side = 5 ∧
      e.afterTurn .exact 45 = e.turned .exact 45 := by
  intro e
  have he : ¬ e.IsEmpty := by decide
  have hw : e.width ≤ 2 ^ 24 := by decide
  have hh : e.height ≤ 2 ^ 24 := by decide
  have hoblique : Angle.IsOblique 45 := Angle.isOblique_eighth
  obtain ⟨hside, -, -, -, hresult⟩ := Canvas.layout_fits he hw hh hoblique
  have hroot : Real.sqrt (((3 : ℕ) : ℝ) ^ 2 + ((4 : ℕ) : ℝ) ^ 2) = 5 := by
    rw [Real.sqrt_eq_iff_mul_self_eq (by positivity) (by norm_num)]
    norm_num
  rw [hroot, Int.ceil_ofNat] at hside
  exact ⟨⟨he, hw, hh, hoblique⟩, by exact_mod_cast hside, hresult⟩

end Reframe
