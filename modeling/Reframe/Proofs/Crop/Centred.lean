import Reframe.Proofs.Number.Exact
import Reframe.Proofs.Crop.Inside

/-!
# A crop is centred on its anchor

Over the reals the start of a window is rounded once, and then kept so that the window ends on
its side. No start is nearer to the one that would put the anchor in the very middle: neither
one that rounding passes nor one that the end of the side forbids. And some window holds the
anchor, so the nearest one does.

* `Crop.offset_exact`: the start of a window over the reals.
* `Crop.exists_start_near`: some window holds the anchor.
* `Crop.ofRatio_centred`: **a crop holds its anchor, as near to the middle as it goes**.
-/

namespace Reframe

namespace Crop

variable {e : Extent} {whole window : ℕ} {p q : ℝ}

/-- Where the crop starts on an axis. -/
def start (c : Crop) : Axis → ℕ
  | .horizontal => c.x
  | .vertical => c.y

/-- The part of a side that the crop keeps holds the position `p`, a fraction of the side, and
no window as long has its centre nearer to it. -/
structure IsCentred (c : Crop) (e : Extent) (axis : Axis) (p : ℝ) : Prop where
  start_le : c.start axis ≤ p * e.along axis
  le_end : p * e.along axis ≤ c.start axis + c.extent.along axis
  nearest : ∀ start : ℤ, 0 ≤ start → start ≤ (e.along axis : ℤ) - c.extent.along axis →
    |(c.start axis : ℝ) + c.extent.along axis / 2 - p * e.along axis| ≤
      |start + (c.extent.along axis : ℝ) / 2 - p * e.along axis|

theorem clamp_exact (p : ℝ) : Scalar.clamp 0.0 1.0 p = max 0 (min 1 p) := by
  have h0 : (0.0 : ℝ) = 0 := by norm_num
  have h1 : (1.0 : ℝ) = 1 := by norm_num
  rw [Scalar.clamp, h0, h1]
  rcases lt_or_ge p 0 with hlow | hlow
  · rw [if_pos hlow, max_eq_left]
    exact (min_le_right _ _).trans hlow.le
  · rw [if_neg (not_lt.2 hlow)]
    rcases lt_or_ge 1 p with hhigh | hhigh
    · rw [if_pos hhigh, min_eq_left hhigh.le, max_eq_right zero_le_one]
    · rw [if_neg (not_lt.2 hhigh), min_eq_right hhigh, max_eq_right hlow]

/-- **The start of a window**: where its centre would be on the position, to the nearest
pixel, and then so that the window ends on its side. -/
theorem offset_exact (p : ℝ) (whole window : ℕ) :
    (offset p whole window : ℤ) = Whole.clampInt 0 (whole - window : ℕ)
      (roundAway (max 0 (min 1 p) * whole - window / 2)) := by
  have h2 : (2.0 : ℝ) = 2 := by norm_num
  have hoffset : offset p whole window = (Whole.clampInt 0 (whole - window : ℕ)
      (roundAway (Scalar.clamp 0.0 1.0 p * whole - window / 2.0))).toNat := by
    simp only [← Int.cast_natCast (R := ℝ)]
    rfl
  rw [hoffset, clamp_exact, h2, Int.toNat_of_nonneg (Whole.le_clampInt _ _ _)]

theorem offset_mono (whole window : ℕ) (h : p ≤ q) :
    offset p whole window ≤ offset q whole window := by
  have hcentre : max 0 (min 1 p) * whole - window / 2 ≤
      max 0 (min 1 q) * (whole : ℝ) - window / 2 := by gcongr
  have hle := Whole.clampInt_mono 0 (whole - window : ℕ) (roundAway_mono hcentre)
  rw [← offset_exact, ← offset_exact] at hle
  exact_mod_cast hle

theorem offset_of_nonpos (whole window : ℕ) (h : p ≤ 0) :
    offset p whole window = offset (0 : ℝ) whole window := by
  have hle : min 1 p ≤ 0 := (min_le_right _ _).trans h
  have hsame := offset_exact p whole window
  rw [max_eq_left hle] at hsame
  have hzero := offset_exact 0 whole window
  rw [max_eq_left (min_le_right _ _)] at hzero
  exact_mod_cast hsame.trans hzero.symm

theorem offset_of_one_le (whole window : ℕ) (h : 1 ≤ p) :
    offset p whole window = offset (1 : ℝ) whole window := by
  have hsame := offset_exact p whole window
  rw [min_eq_left h] at hsame
  have hone := offset_exact 1 whole window
  rw [min_self] at hone
  exact_mod_cast hsame.trans hone.symm

/-- No start puts the centre of the window nearer to the position. -/
theorem abs_offset_sub_le (h0 : 0 ≤ p) (h1 : p ≤ 1) (hwindow : window ≤ whole) {start : ℤ}
    (hlow : 0 ≤ start) (hhigh : start ≤ (whole : ℤ) - window) :
    |(offset p whole window : ℝ) + window / 2 - p * whole| ≤
      |start + (window : ℝ) / 2 - p * whole| := by
  have hoffset := offset_exact p whole window
  rw [min_eq_right h1, max_eq_right h0] at hoffset
  have hoffset : (offset p whole window : ℝ) =
      (Whole.clampInt 0 (whole - window : ℕ) (roundAway (p * whole - window / 2)) : ℤ) := by
    exact_mod_cast hoffset
  have hhigh : start ≤ (whole - window : ℕ) := by omega
  have hnear := abs_clampInt_roundAway_sub_le hlow hhigh (p * whole - window / 2)
  rw [← hoffset] at hnear
  rwa [← sub_add, sub_add_eq_add_sub, ← sub_add, sub_add_eq_add_sub] at hnear

/-- **Some window holds the position**: one that starts under it, or the last one. -/
theorem exists_start_near (h0 : 0 ≤ p) (h1 : p ≤ 1) (hpos : 1 ≤ window) (hwindow : window ≤ whole) :
    ∃ start : ℤ, 0 ≤ start ∧ start ≤ (whole : ℤ) - window ∧
      |start + (window : ℝ) / 2 - p * whole| ≤ window / 2 := by
  have hpos : (1 : ℝ) ≤ window := by exact_mod_cast hpos
  have hplace : p * whole ≤ whole := mul_le_of_le_one_left (Nat.cast_nonneg whole) h1
  have hfloor := Int.floor_le (p * whole)
  have hfloor' := Int.lt_floor_add_one (p * whole)
  have hnonneg : 0 ≤ ⌊p * whole⌋ := Int.floor_nonneg.2 (by positivity)
  rcases le_or_gt ⌊p * whole⌋ ((whole : ℤ) - window) with hroom | hlast
  · refine ⟨⌊p * whole⌋, hnonneg, hroom, ?_⟩
    rw [abs_le]
    constructor <;> linarith
  · have hlast : (whole : ℝ) - window ≤ ⌊p * whole⌋ := by exact_mod_cast hlast.le
    refine ⟨(whole : ℤ) - window, by omega, le_rfl, ?_⟩
    push_cast
    rw [abs_le]
    constructor <;> linarith

/-- The window holds the position, because some window does. -/
theorem offset_le_and_le (h0 : 0 ≤ p) (h1 : p ≤ 1) (hpos : 1 ≤ window) (hwindow : window ≤ whole) :
    (offset p whole window : ℝ) ≤ p * whole ∧ p * whole ≤ offset p whole window + window := by
  obtain ⟨start, hlow, hhigh, hnear⟩ := exists_start_near h0 h1 hpos hwindow
  obtain ⟨hleft, hright⟩ :=
    abs_le.1 ((abs_offset_sub_le h0 h1 hwindow hlow hhigh).trans hnear)
  constructor <;> linarith

theorem along_mem (he : ¬ e.IsEmpty) (ratio : ℝ) (axis : Axis) :
    1 ≤ (fit e ratio).along axis ∧ (fit e ratio).along axis ≤ e.along axis := by
  obtain ⟨hwidth, hheight⟩ := fit_mem he ratio
  cases axis with
  | horizontal => exact hwidth
  | vertical => exact hheight

/-- On the axis of its anchor a crop starts where the anchor wants it. -/
theorem start_ofRatio (he : ¬ e.IsEmpty) (ratio p : ℝ) (axis : Axis) :
    (ofRatio e ratio (some ⟨p, true, axis⟩)).start axis =
      offset p (e.along axis) ((fit e ratio).along axis) := by
  rw [ofRatio, if_neg he]
  cases axis <;> rfl

/-- Anchors that start a window at the same place give the same crop. -/
theorem ofRatio_congr (ratio : ℝ) (axis : Axis)
    (h : ∀ whole window, offset p whole window = offset q whole window) :
    ofRatio e ratio (some ⟨p, true, axis⟩) = ofRatio e ratio (some ⟨q, true, axis⟩) := by
  unfold ofRatio
  cases axis with
  | horizontal => simp only [left, top, h]
  | vertical => simp only [left, top, h]

/-- **A crop is centred on its anchor**, as far as its frame allows, whatever the ratio and on
either axis. It holds the anchor and ends with the frame or before. No other window of its length
has its centre nearer to the anchor. It moves with the anchor and never against it, and an anchor
that lies off the frame counts as the nearer end. -/
theorem ofRatio_centred (he : ¬ e.IsEmpty) (ratio : ℝ) (axis : Axis) :
    let crop (p : ℝ) := ofRatio e ratio (some ⟨p, true, axis⟩)
    (∀ p, 0 ≤ p → p ≤ 1 → (crop p).IsCentred e axis p) ∧
      (∀ p, (crop p).start axis + (crop p).extent.along axis ≤ e.along axis) ∧
      (∀ p q, p ≤ q → (crop p).start axis ≤ (crop q).start axis) ∧
      (∀ p, p ≤ 0 → crop p = crop 0) ∧ ∀ p, 1 ≤ p → crop p = crop 1 := by
  intro crop
  obtain ⟨hpos, hwindow⟩ := along_mem he ratio axis
  have hextent : ∀ p, (crop p).extent = fit e ratio := fun p => by
    simp only [crop, ofRatio, if_neg he]
  have hstart : ∀ p, (crop p).start axis = offset p (e.along axis) ((fit e ratio).along axis) :=
    fun p => start_ofRatio he ratio p axis
  refine ⟨fun p h0 h1 => ?_, fun p => ?_, fun p q h => ?_, fun p h => ?_, fun p h => ?_⟩
  · obtain ⟨hleft, hright⟩ := offset_le_and_le h0 h1 hpos hwindow
    constructor
    · rwa [hstart]
    · rwa [hstart, hextent]
    · intro start hlow hhigh
      rw [hextent] at hhigh
      rw [hstart, hextent]
      exact abs_offset_sub_le h0 h1 hwindow hlow hhigh
  · have hle := offset_le p (e.along axis) ((fit e ratio).along axis)
    rw [hstart, hextent]
    omega
  · rw [hstart, hstart]
    exact offset_mono _ _ h
  · exact ofRatio_congr ratio axis fun whole window => offset_of_nonpos whole window h
  · exact ofRatio_congr ratio axis fun whole window => offset_of_one_le whole window h

/-- An anchor between two pixels, on a side of odd length. -/
theorem ofRatio_centred_third :
    let crop := ofRatio ⟨7, 4⟩ (1 / 2 : ℝ) (some ⟨1 / 3, true, .horizontal⟩)
    ¬ (⟨7, 4⟩ : Extent).IsEmpty ∧ crop.IsCentred ⟨7, 4⟩ .horizontal (1 / 3) := by
  have he : ¬ (⟨7, 4⟩ : Extent).IsEmpty := by decide
  exact ⟨he, (ofRatio_centred he (1 / 2) .horizontal).1 (1 / 3) (by norm_num) (by norm_num)⟩

end Crop

end Reframe
