import Reframe.Proofs.Crop
import Reframe.Proofs.Number.Signed

/-!
# A crop lies inside its frame

A window is never longer than the side it lies on, and starts no later than where it would
end with the side. For a window that is put on an anchor both are seen to by clamps; for
one that is not, the start is a rounded product, and rounding passes no integer. So there
is a crop for every ratio and every anchor, also for those that are no numbers.

* `Binary.Denotes.nearest_mem`: rounding to an integer passes no integer.
* `Crop.left_add_le`, `Crop.top_add_le`: a window ends on its side.
* `Crop.isInside_ofRatio`: a crop has pixels, and lies inside its frame.
-/

namespace Reframe

variable {e : Extent} {ratio a : Float} {n : Nat} {x : ℚ}

namespace Binary

theorem magnitudeNearest_le {m : Nat} {e : Int} (h : magnitude m e ≤ n) :
    magnitudeNearest m e ≤ n := by
  have hpos : 0 < 2 ^ (-e).toNat := Nat.two_pow_pos _
  have hle : ((m * 2 ^ e.toNat : Nat) : ℚ) ≤ n * 2 ^ (-e).toNat := by
    rw [← magnitude_mul_pow]
    exact mul_le_mul_of_nonneg_right h (by positivity)
  have hle : m * 2 ^ e.toNat ≤ n * 2 ^ (-e).toNat := by exact_mod_cast hle
  unfold magnitudeNearest
  rw [← Nat.lt_succ_iff, Nat.div_lt_iff_lt_mul (by omega)]
  calc 2 * (m * 2 ^ e.toNat) + 2 ^ (-e).toNat
      < 2 * (n * 2 ^ (-e).toNat) + 2 * 2 ^ (-e).toNat := by omega
    _ = (n + 1) * (2 * 2 ^ (-e).toNat) := by ring

/-- **Rounding to an integer passes no integer.** -/
theorem Denotes.nearest_mem (h : Denotes a x) (h0 : 0 ≤ x) (hn : x ≤ n) :
    ∃ k : Nat, Scalar.nearest a = .int k ∧ k ≤ n := by
  change ∃ k : Nat, nearest a.toModel.unpack = .int k ∧ k ≤ n
  rcases rational?_cases h with ⟨s, hu, -⟩ | ⟨s, m, e, hm, hu, rfl⟩
  · exact ⟨0, by rw [hu]; rfl, Nat.zero_le n⟩
  · cases s with
    | positive => exact ⟨magnitudeNearest m e, by rw [hu]; rfl, magnitudeNearest_le hn⟩
    | negative =>
      -- a number with a sign is below zero
      have hpos : 0 < magnitude m e := mul_pos (by exact_mod_cast hm) (by positivity)
      exact absurd h0 (not_le.2 (neg_neg_of_pos hpos))

end Binary

namespace Crop

open Binary

/-- The crop has pixels, and ends inside the frame. -/
structure IsInside (c : Crop) (e : Extent) : Prop where
  width : 1 ≤ c.extent.width
  height : 1 ≤ c.extent.height
  right : c.x + c.extent.width ≤ e.width
  bottom : c.y + c.extent.height ≤ e.height

theorem one_le_side {α : Type} [Scalar α] (whole : Nat) (length : α) :
    1 ≤ side whole length := by
  have hle := Whole.le_clamp 1 whole (Scalar.nearest length)
  unfold side
  omega

/-- The size of a crop: from one pixel to the whole side. -/
theorem fit_mem {α : Type} [Scalar α] (he : ¬ e.IsEmpty) (ratio : α) :
    (1 ≤ (fit e ratio).width ∧ (fit e ratio).width ≤ e.width) ∧
      1 ≤ (fit e ratio).height ∧ (fit e ratio).height ≤ e.height := by
  obtain ⟨hwidth, hheight⟩ := Extent.sides_pos he
  unfold fit
  split
  · exact ⟨⟨one_le_side _ _, side_le hwidth _⟩, hheight, Nat.le_refl _⟩
  · exact ⟨⟨hwidth, Nat.le_refl _⟩, one_le_side _ _, side_le hheight _⟩

/-- Wherever the anchor is, the window ends on its side. -/
theorem offset_le {α : Type} [Scalar α] (position : α) (whole window : Nat) :
    offset position whole window ≤ whole - window := by
  unfold offset
  extract_lets centre start
  have hle : start.clamp 0 (whole - window : Nat) ≤ (whole - window : Nat) :=
    Whole.clamp_le (Int.natCast_nonneg _) start
  omega

theorem left_add_le (anchor : Option (Anchor Float)) {whole window : Nat} (h : window ≤ whole) :
    left anchor whole window + window ≤ whole := by
  have hslack : left anchor whole window ≤ whole - window := by
    unfold left
    split
    · exact offset_le _ _ _
    · exact Nat.div_le_self _ 2
  omega

theorem denotes_topBias : ∃ y, Denotes (topBias : Float) y ∧ 0 ≤ y ∧ y ≤ 1 := by
  refine ⟨magnitude 7205759403792794 (-55), HasValue.denotes
    ⟨7205759403792794, -55, by decide, rfl, rfl⟩, ?_, ?_⟩
  · norm_num [magnitude]
  · norm_num [magnitude]

/-- **A part of a length is no longer than the length**, also when it is rounded twice. -/
theorem topBias_mul_le {slack : Nat} (h : slack ≤ maxSide) :
    ((Scalar.nearest ((Scalar.ofInt slack : Float) * topBias)).clamp 0 maxSide).toNat ≤ slack := by
  obtain ⟨y, hy, hy0, hy1⟩ := denotes_topBias
  have hlt : slack < 2 ^ 53 := Nat.lt_of_le_of_lt h (by decide)
  have hproduct : IsNearest ((Scalar.ofInt slack : Float) * topBias) (slack * y) :=
    (denotes_ofNat hlt).mul hy
  -- both ends have few digits, so the product is rounded to a number between them
  have hshort : IsShort ((slack : Int) : ℚ) :=
    isShort_int (by rw [Nat.abs_cast]; exact_mod_cast hlt.le)
  have hzero : IsShort ((0 : Int) : ℚ) := isShort_int (by norm_num)
  rw [Int.cast_natCast] at hshort
  rw [Int.cast_zero] at hzero
  have hslack : (0 : ℚ) ≤ slack := Nat.cast_nonneg slack
  obtain ⟨z, hz, hz0, hz1⟩ := hproduct.between hzero hshort (mul_nonneg hslack hy0)
    (mul_le_of_le_one_right hslack hy1)
  obtain ⟨k, hk, hle⟩ := hz.nearest_mem hz0 hz1
  have hmem : (k : Int) ≤ maxSide := by exact_mod_cast hle.trans h
  rw [hk, Whole.clamp_of_mem (Int.natCast_nonneg k) hmem, Int.toNat_natCast]
  exact hle

theorem top_add_le (anchor : Option (Anchor Float)) {whole window : Nat} (h : window ≤ whole)
    (hwhole : whole ≤ maxSide) : top anchor whole window + window ≤ whole := by
  have hslack : top anchor whole window ≤ whole - window := by
    unfold top
    split
    · exact offset_le _ _ _
    · exact topBias_mul_le ((Nat.sub_le whole window).trans hwhole)
  omega

/-- **A crop lies inside its frame**, whatever the ratio and wherever the anchor is: it has
at least one pixel, and ends where the frame does, or before. -/
theorem isInside_ofRatio (he : ¬ e.IsEmpty) (hh : e.height ≤ maxSide) (ratio : Float)
    (anchor : Option (Anchor Float)) : (ofRatio e ratio anchor).IsInside e := by
  obtain ⟨⟨hwidth, hwidth'⟩, hheight, hheight'⟩ := fit_mem he ratio
  rw [ofRatio, if_neg he]
  exact ⟨hwidth, hheight, left_add_le anchor hwidth', top_add_le anchor hheight' hh⟩

/-- The largest frame, a ratio that is no number, and an anchor infinitely far down. -/
theorem isInside_ofRatio_extreme :
    let e : Extent := ⟨maxSide, maxSide⟩
    ¬ e.IsEmpty ∧ e.height ≤ maxSide ∧
      (ofRatio e (0.0 / 0.0) (some ⟨1.0 / 0.0, true, .vertical⟩)).IsInside e :=
  have he : ¬ (⟨maxSide, maxSide⟩ : Extent).IsEmpty := by decide
  ⟨he, Nat.le_refl _, isInside_ofRatio he (Nat.le_refl _) _ _⟩

end Crop

end Reframe
