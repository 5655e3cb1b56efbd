import Reframe.Proofs.Crop.Inside
import Reframe.Proofs.Turn.RightAngle
import Reframe.Raster.Shrink

/-!
# Shrunk frames

A frame with pixels has pixels when it is shrunk, and none of its sides becomes longer. The
new height is a quotient times the new width, rounded three times. But the new width is at
least one pixel less than the old one, and of a side of at most `2 ^ 30` pixels that one
pixel is more than what is lost to rounding: between the quotient and what would give the
old height there is a number with few digits, which rounding does not pass.

* `Raster.extent_shrink`: the frame of a shrunk picture.
* `Extent.not_isEmpty_shrunk`, `Extent.shrunk_le`: it has pixels, and sides of 32 bits.
* `Extent.exists_short_ratio`: the number that rounding does not pass.
* `Extent.height_shrunk_le`: **the height does not grow**.
* `Extent.isModest_shrunk`: a modest frame stays modest.
-/

namespace Reframe

open Binary

theorem Raster.extent_shrink (picture : Picture) (limit : Nat) :
    (picture.shrink limit).extent = picture.extent.shrunk limit := by
  unfold Raster.shrink
  split
  next h => rw [Extent.shrunk, if_pos h]
  next h => rfl

namespace Extent

variable {e : Extent} {w h l limit : ℕ}

theorem IsModest.not_isEmpty (he : e.IsModest) : ¬ e.IsEmpty := by
  rintro (hw | hh)
  · exact absurd hw (Nat.ne_of_gt he.width_pos)
  · exact absurd hh (Nat.ne_of_gt he.height_pos)

/-- A frame with pixels has pixels when shrunk. -/
theorem not_isEmpty_shrunk (he : ¬ e.IsEmpty) (hl : 0 < limit) :
    ¬ (e.shrunk limit).IsEmpty := by
  unfold shrunk
  split
  · exact he
  · extract_lets ratio
    have hheight := Whole.le_clamp 1 maxSide (Scalar.nearest (ratio * Scalar.ofInt limit))
    rintro (hw | hh)
    · exact absurd hw (Nat.ne_of_gt hl)
    · have hh : ((Scalar.nearest (ratio * Scalar.ofInt limit)).clamp 1 maxSide).toNat = 0 := hh
      omega

/-- A frame with sides of 32 bits has such sides when shrunk. -/
theorem shrunk_le (hw : e.width ≤ maxSide) (hh : e.height ≤ maxSide) (limit : Nat) :
    (e.shrunk limit).width ≤ maxSide ∧ (e.shrunk limit).height ≤ maxSide := by
  unfold shrunk
  split
  · exact ⟨hw, hh⟩
  next hlimit =>
    extract_lets ratio
    have hone : (1 : Int) ≤ maxSide := by decide
    have hheight := Whole.clamp_le hone (Scalar.nearest (ratio * Scalar.ofInt limit))
    change limit ≤ maxSide ∧
      ((Scalar.nearest (ratio * Scalar.ofInt limit)).clamp 1 maxSide).toNat ≤ maxSide
    omega

/-- The digits that tell a ratio from a slightly larger one. -/
theorem exists_digits (hw : 1 ≤ w) (hw' : w ≤ 2 ^ 30) (hh : 1 ≤ h) (hh' : h ≤ 2 ^ 30) :
    ∃ j ≤ 60, 2 ^ 30 * w ≤ h * 2 ^ j ∧ h * 2 ^ j ≤ 2 ^ 52 * w := by
  rcases Nat.lt_or_ge h w with hlt | hge
  · rcases Nat.lt_or_ge (2 ^ 22 * h) w with hsmall | hlarge
    · exact ⟨60, le_rfl, by omega, by omega⟩
    · exact ⟨52, by decide, by omega, by omega⟩
  · rcases Nat.lt_or_ge h (2 ^ 22 * w) with hsmall | hlarge
    · exact ⟨30, by decide, by omega, by omega⟩
    · exact ⟨8, by decide, by omega, by omega⟩

/-- **A number with few digits** above a ratio, but not by a part in `2 ^ 30`. -/
theorem exists_short_ratio (hw : w ≤ 2 ^ 30) (hh : 1 ≤ h) (hh' : h ≤ 2 ^ 30) (hl : l < w) :
    ∃ z, IsShort z ∧ (h / w : ℚ) ≤ z ∧ z * l ≤ h := by
  obtain ⟨j, hj, hlow, hhigh⟩ := exists_digits (by omega) hw hh hh'
  have hwpos : 0 < w := by omega
  -- the ratio in units of the last digit, rounded up
  let m := (h * 2 ^ j + (w - 1)) / w
  have hle : m * w ≤ h * 2 ^ j + (w - 1) := Nat.div_mul_le_self _ w
  have hge : h * 2 ^ j ≤ m * w := by
    have hlt : h * 2 ^ j + (w - 1) < w * m + w := Nat.lt_mul_div_succ _ hwpos
    rw [Nat.mul_comm w m] at hlt
    omega
  have hlarge : 2 ^ 30 ≤ m := Nat.le_of_mul_le_mul_right (hlow.trans hge) hwpos
  have hsmall : m ≤ 2 ^ 52 + 1 := by
    refine Nat.le_of_lt_succ (Nat.lt_of_mul_lt_mul_right (a := w) ?_)
    rw [Nat.succ_mul, Nat.add_mul]
    omega
  have hpart : m * l ≤ h * 2 ^ j := by
    have hstep : m * l + m ≤ m * w := by
      rw [← Nat.mul_succ]
      exact Nat.mul_le_mul_left m hl
    omega
  have hpow : (0 : ℚ) < 2 ^ j := by positivity
  have hwq : (0 : ℚ) < w := by exact_mod_cast hwpos
  refine ⟨((m : ℤ) : ℚ) / 2 ^ j, ⟨m, j, ?_, hj, rfl⟩, ?_, ?_⟩
  · rw [Nat.abs_cast]
    exact_mod_cast hsmall.trans (by decide)
  · rw [div_le_div_iff₀ hwq hpow]
    exact_mod_cast hge
  · rw [div_mul_eq_mul_div, div_le_iff₀ hpow]
    exact_mod_cast hpart

/-- **The height does not grow** when the width shrinks. -/
theorem height_shrunk_le (he : e.IsModest) (limit : Nat) :
    (e.shrunk limit).height ≤ e.height := by
  obtain ⟨hw, hw', hh, hh'⟩ := he
  unfold shrunk
  split
  · exact le_rfl
  next hwide =>
    extract_lets ratio
    obtain ⟨z, hz, hratio, hscaled⟩ := exists_short_ratio hw' hh hh' (Nat.lt_of_not_le hwide)
    have hwq : (0 : ℚ) < e.width := by exact_mod_cast hw
    have hhq : (0 : ℚ) ≤ e.height := Nat.cast_nonneg _
    have hlq : (0 : ℚ) ≤ limit := Nat.cast_nonneg _
    have hzero : IsShort ((0 : ℤ) : ℚ) := isShort_int (by norm_num)
    have hheight : IsShort ((e.height : ℤ) : ℚ) := isShort_int (by rw [Nat.abs_cast]; omega)
    rw [Int.cast_zero] at hzero
    rw [Int.cast_natCast] at hheight
    have hquotient : IsNearest ratio (e.height / e.width) :=
      (denotes_ofNat (by omega)).div (denotes_ofNat (by omega)) hwq.ne'
    obtain ⟨y, hy, hy0, hyz⟩ := hquotient.between hzero hz (div_nonneg hhq hwq.le) hratio
    have hproduct := hy.mul (denotes_ofNat (n := limit) (by omega))
    obtain ⟨t, ht, ht0, hth⟩ := hproduct.between hzero hheight (mul_nonneg hy0 hlq)
      ((mul_le_mul_of_nonneg_right hyz hlq).trans hscaled)
    obtain ⟨k, hk, hkh⟩ := ht.nearest_mem ht0 hth
    change ((Scalar.nearest (ratio * Scalar.ofInt limit)).clamp 1 maxSide).toNat ≤ e.height
    rw [hk]
    have hclamp : (Whole.int k).clamp 1 maxSide ≤ e.height := by
      simp only [Whole.clamp, Whole.clampInt]
      omega
    omega

/-- **A modest frame stays modest** when it is shrunk. -/
theorem isModest_shrunk (he : e.IsModest) (hl : 0 < limit) : (e.shrunk limit).IsModest := by
  obtain ⟨hwidth, hheight⟩ := sides_pos (not_isEmpty_shrunk he.not_isEmpty hl)
  have hnarrower : (e.shrunk limit).width ≤ e.width := by
    unfold shrunk
    split
    · exact le_rfl
    next hwide => exact Nat.le_of_not_le hwide
  exact ⟨hwidth, hnarrower.trans he.width_le, hheight,
    (height_shrunk_le he limit).trans he.height_le⟩

end Extent

end Reframe
