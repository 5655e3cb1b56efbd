import Reframe.Proofs.Number.Exact
import Reframe.Crop

/-!
# A crop is the largest part of its ratio

Over the reals a frame that is too wide for a ratio keeps its height, and any other frame
keeps its width. The ratio then says how long the other side should be, and that is never
longer than the frame allows. So the frame has no bearing on how the length is rounded, and
the bound of one pixel matters only where less than half a pixel would be left.

* `Crop.side_exact`: a side is rounded to the nearest integer, but not to 0.
* `Crop.fit_exact`: which side stays whole, and how long the other one is.
* `Crop.ofRatio_largest`: **no part of the ratio is larger** by more than half a pixel.
-/

namespace Reframe

/-- Above 0 the nearest integer is the next one for halves. -/
theorem roundAway_of_nonneg {x : ℝ} (h : 0 ≤ x) : roundAway x = round x := by
  rw [roundAway, if_pos h, round_eq]

namespace Crop

variable {e : Extent} {ratio x : ℝ}

/-- **A side is rounded to the nearest integer**, but not to 0. -/
theorem side_exact {whole : ℕ} (h : 0 ≤ x) (hwhole : x ≤ whole) :
    (side whole x : ℤ) = max 1 (round x) := by
  have hle : roundAway x ≤ whole := by
    refine roundAway_le (Int.natCast_nonneg whole) (hwhole.trans_lt ?_)
    rw [Int.cast_natCast]
    linarith
  have hside : side whole x = (max 1 (min (whole : ℤ) (roundAway x))).toNat := rfl
  rw [hside, min_eq_right hle, roundAway_of_nonneg h]
  exact Int.toNat_of_nonneg (le_max_of_le_left zero_le_one)

/-- What is rounded, and not to 0, is at most half a pixel too short. -/
theorem le_of_eq_round {length : ℕ} (h : (length : ℤ) = max 1 (round x)) : x ≤ length + 1 / 2 := by
  have hround := (abs_le.1 (abs_sub_round x)).2
  have hle : round x ≤ (length : ℤ) := by
    rw [h]
    exact le_max_right _ _
  have hle : (round x : ℝ) ≤ length := by exact_mod_cast hle
  linarith

/-- **Which side stays whole**: the height if the ratio leaves room beside it, else the width.
The other side is as long as the ratio says, to the nearest integer. -/
theorem fit_exact (he : ¬ e.IsEmpty) (hratio : 0 < ratio) :
    (ratio * e.height ≤ e.width ∧ (fit e ratio).height = e.height ∧
      ((fit e ratio).width : ℤ) = max 1 (round (ratio * e.height))) ∨
    (e.width / ratio ≤ e.height ∧ (fit e ratio).width = e.width ∧
      ((fit e ratio).height : ℤ) = max 1 (round (e.width / ratio))) := by
  obtain ⟨-, hheight⟩ := Extent.sides_pos he
  have hpos : (0 : ℝ) < e.height := by exact_mod_cast hheight
  have hfit : fit e ratio =
      if ratio < e.width / e.height then ⟨side e.width (e.height * ratio), e.height⟩
      else ⟨e.width, side e.height (e.width / ratio)⟩ := by
    simp only [← Int.cast_natCast (R := ℝ)]
    rfl
  rw [hfit]
  rcases lt_or_ge ratio (e.width / e.height) with hwide | hnarrow
  · have hroom := ((lt_div_iff₀ hpos).1 hwide).le
    rw [if_pos hwide]
    rw [mul_comm ratio] at hroom ⊢
    exact .inl ⟨hroom, rfl, side_exact (by positivity) hroom⟩
  · rw [if_neg (not_lt.2 hnarrow)]
    have hroom : e.width / ratio ≤ e.height := by
      rw [div_le_iff₀ hratio, mul_comm]
      exact (div_le_iff₀ hpos).1 hnarrow
    exact .inr ⟨hroom, rfl, side_exact (by positivity) hroom⟩

/-- **A crop is the largest part of its ratio**, wherever the anchor is. One side stays whole.
The other one is as long as the ratio says it should be beside it, to the nearest integer but
not 0, halves up. No part of the frame that has the ratio is wider or taller by more than
half a pixel. -/
theorem ofRatio_largest (he : ¬ e.IsEmpty) (hratio : 0 < ratio) (anchor : Option (Anchor ℝ)) :
    let size := (ofRatio e ratio anchor).extent
    ((ratio * e.height ≤ e.width ∧ size.height = e.height ∧
        (size.width : ℤ) = max 1 (round (ratio * e.height))) ∨
      (e.width / ratio ≤ e.height ∧ size.width = e.width ∧
        (size.height : ℤ) = max 1 (round (e.width / ratio)))) ∧
    ∀ w h : ℝ, w / h = ratio → 0 < h → w ≤ e.width → h ≤ e.height →
      w ≤ size.width + 1 / 2 ∧ h ≤ size.height + 1 / 2 := by
  intro size
  have hsize : size = fit e ratio := by
    simp only [size]
    rw [ofRatio, if_neg he]
  rw [hsize]
  have hfit := fit_exact he hratio
  refine ⟨hfit, fun w h hpart hh hwide htall => ?_⟩
  have hw : w = ratio * h := (div_eq_iff hh.ne').1 hpart
  rcases hfit with ⟨-, hheight, hwidth⟩ | ⟨-, hwidth, hheight⟩
  · -- what is no taller than the frame is no wider than the ratio allows
    have hle : w ≤ ratio * e.height := hw.trans_le (mul_le_mul_of_nonneg_left htall hratio.le)
    rw [hheight]
    exact ⟨hle.trans (le_of_eq_round hwidth), by linarith⟩
  · have hle : h ≤ e.width / ratio := by
      rw [le_div_iff₀ hratio, mul_comm, ← hw]
      exact hwide
    rw [hwidth]
    exact ⟨by linarith, hle.trans (le_of_eq_round hheight)⟩

/-- A frame of 7 to 3 cropped to 1 to 2 should be one and a half pixels wide, and is two. -/
theorem ofRatio_largest_half :
    ¬ (⟨7, 3⟩ : Extent).IsEmpty ∧ (0 : ℝ) < 1 / 2 ∧
      (ofRatio ⟨7, 3⟩ (1 / 2 : ℝ) none).extent = ⟨2, 3⟩ := by
  have he : ¬ (⟨7, 3⟩ : Extent).IsEmpty := by decide
  have hratio : (0 : ℝ) < 1 / 2 := by norm_num
  refine ⟨he, hratio, ?_⟩
  obtain ⟨⟨-, hheight, hwidth⟩ | ⟨hroom, -, -⟩, -⟩ := ofRatio_largest he hratio none
  · have hround : round ((1 / 2 : ℝ) * (3 : ℕ)) = 2 := by
      rw [round_eq]
      norm_num
    rw [hround] at hwidth
    have hwidth : (ofRatio ⟨7, 3⟩ (1 / 2 : ℝ) none).extent.width = 2 := by exact_mod_cast hwidth
    calc (ofRatio ⟨7, 3⟩ (1 / 2 : ℝ) none).extent
        = ⟨(ofRatio ⟨7, 3⟩ (1 / 2 : ℝ) none).extent.width,
            (ofRatio ⟨7, 3⟩ (1 / 2 : ℝ) none).extent.height⟩ := rfl
      _ = ⟨2, 3⟩ := by rw [hwidth, hheight]
  · -- the frame has no room for its whole width
    norm_num at hroom

end Crop

end Reframe
