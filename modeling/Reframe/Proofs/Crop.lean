import Reframe.Locator
import Reframe.Proofs.Number.Value

/-!
# A crop cuts the dominant axis

The axis is told by a product, the size of a crop by a quotient. Both are rounded, and they
may round to different sides. But then there is nothing to cut: a side is only shortened
when the exact number is on its side as well.

* `Crop.side_eq_whole`: a side that is long enough stays whole.
* `Crop.fit_cases`: a crop is the whole frame or is cut on its dominant axis.
* `Crop.cutsOnly_iff`: the axes on which alone a crop is cut.
* `Crop.ofRatio_of_not_cutsOnly`: an anchor on another axis does not bear on the crop.
* `Crop.ofRatio_cutsOnly`: **a crop is cut on its dominant axis alone**, and where the two
  comparisons differ it is not cut at all.
-/

namespace Reframe

variable {e : Extent} {ratio a : Float} {n : Nat} {x : ℚ}

namespace Binary

/-- A ratio is a positive number. -/
theorem hasValue_of_isRatio (h : IsRatio ratio) : ∃ x, HasValue ratio x := by
  obtain ⟨hfinite, hpos⟩ := h
  have hfinite : ratio.toModel.unpack.isFinite = true := hfinite
  have hpos : ¬ ratio ≤ 0.0 := hpos
  rw [le_iff_unpack, unpack_zero] at hpos
  unfold HasValue
  generalize ratio.toModel.unpack = u at hfinite hpos ⊢
  rcases u with _ | _ | _ | ⟨_ | _, m, e, hm⟩
  case finite.positive => exact ⟨_, m, e, hm, rfl, rfl⟩
  case zero => exact absurd rfl hpos
  case finite.negative => exact absurd rfl hpos
  all_goals exact absurd hfinite Bool.false_ne_true

/-- A number that is not below an integer is rounded to none below it. -/
theorem IsAtLeast.le_nearest (h : IsAtLeast a n) {lo hi : Int} (hn : n ≤ hi) :
    n ≤ (Scalar.nearest a).clamp lo hi := by
  unfold IsAtLeast at h
  change (n : Int) ≤ (nearest a.toModel.unpack).clamp lo hi
  generalize a.toModel.unpack = u at h ⊢
  rcases u with (_ | _) | _ | _ | ⟨_ | _, m, e, hm⟩
  case infinity.positive =>
    change (n : Int) ≤ max lo (min hi hi)
    omega
  case finite.positive =>
    have h : (n : ℚ) ≤ magnitude m e := h
    have hle : (n : ℚ) * 2 ^ (-e).toNat ≤ (m * 2 ^ e.toNat : Nat) := by
      rw [← magnitude_mul_pow]
      exact mul_le_mul_of_nonneg_right h (by positivity)
    have hle : n * 2 ^ (-e).toNat ≤ m * 2 ^ e.toNat := by exact_mod_cast hle
    have hnearest : n ≤ magnitudeNearest m e := by
      unfold magnitudeNearest
      rw [Nat.le_div_iff_mul_le (Nat.mul_pos Nat.two_pos (Nat.two_pow_pos _)),
        Nat.mul_left_comm]
      exact Nat.le_add_right_of_le (Nat.mul_le_mul_left 2 hle)
    change (n : Int) ≤ max lo (min hi (magnitudeNearest m e : Nat))
    omega
  all_goals exact h.elim

end Binary

namespace Crop

open Binary

theorem side_le {α : Type} [Scalar α] {whole : Nat} (hpos : 0 < whole) (length : α) :
    side whole length ≤ whole := by
  have hone : (1 : Int) ≤ whole := by omega
  have hle : (Scalar.nearest length).clamp 1 whole ≤ whole := Whole.clamp_le hone _
  unfold side
  omega

/-- **A side that is long enough stays whole.** -/
theorem side_eq_whole {whole : Nat} (hpos : 0 < whole) (h : IsAtLeast a whole) :
    side whole a = whole := by
  have hle : whole ≤ (Scalar.nearest a).clamp 1 whole := h.le_nearest (Int.le_refl _)
  refine Nat.le_antisymm (side_le hpos a) ?_
  unfold side
  omega

theorem hasValue_ofInt {length : Nat} (hpos : 0 < length) (hle : length ≤ maxSide) :
    HasValue (Scalar.ofInt length) length :=
  hasValue_ofNat hpos (Nat.lt_of_le_of_lt hle (by decide))

/-- A crop that is narrower than its frame cuts the horizontal axis, and it alone. -/
theorem dominant_of_narrower (he : ¬ e.IsEmpty) (hw : e.width ≤ maxSide)
    (hh : e.height ≤ maxSide) (hratio : IsRatio ratio) (h : (fit e ratio).width < e.width) :
    Axis.dominant e ratio = .horizontal ∧ (fit e ratio).height = e.height := by
  obtain ⟨hwidth, hheight⟩ := Extent.sides_pos he
  obtain ⟨x, hx⟩ := hasValue_of_isRatio hratio
  have hproduct := (hasValue_ofInt hheight hh).mul hx
  unfold fit at h ⊢
  split at h
  next hwide =>
    rw [if_pos hwide]
    refine ⟨if_pos ?_, rfl⟩
    refine (hproduct.lt_iff (hasValue_ofInt hwidth hw)).2 fun hreach => ?_
    exact Nat.ne_of_lt h (side_eq_whole hwidth hreach)
  next => exact absurd h (Nat.lt_irrefl _)

/-- A crop that is shorter than its frame cuts the vertical axis, and it alone. -/
theorem dominant_of_shorter (he : ¬ e.IsEmpty) (hw : e.width ≤ maxSide)
    (hh : e.height ≤ maxSide) (hratio : IsRatio ratio) (h : (fit e ratio).height < e.height) :
    Axis.dominant e ratio = .vertical ∧ (fit e ratio).width = e.width := by
  obtain ⟨hwidth, hheight⟩ := Extent.sides_pos he
  obtain ⟨x, hx⟩ := hasValue_of_isRatio hratio
  have hproduct := (hasValue_ofInt hheight hh).mul hx
  have hquotient := (hasValue_ofInt hwidth hw).div hx
  unfold fit at h ⊢
  split at h
  next => exact absurd h (Nat.lt_irrefl _)
  next hnarrow =>
    rw [if_neg hnarrow]
    refine ⟨if_neg ?_, rfl⟩
    -- the quotient is below the height, so the exact one is, so the exact product is not
    -- below the width
    have hbelow : (e.width : ℚ) / x < e.height := by
      refine lt_of_not_ge fun hle => Nat.ne_of_lt h (side_eq_whole hheight ?_)
      exact hquotient.isAtLeast hheight (Nat.lt_of_le_of_lt hh (by decide)) hle
    have habove : (e.width : ℚ) ≤ e.height * x := ((div_lt_iff₀ hx.pos).1 hbelow).le
    rw [hproduct.lt_iff (hasValue_ofInt hwidth hw), not_not]
    exact hproduct.isAtLeast hwidth (Nat.lt_of_le_of_lt hw (by decide)) habove

theorem extent_ofRatio (he : ¬ e.IsEmpty) (anchor : Option (Anchor Float)) :
    (ofRatio e ratio anchor).extent = fit e ratio := by
  rw [ofRatio, if_neg he]

/-- **A crop is the whole frame or is cut on its dominant axis**, and on no other. -/
theorem fit_cases (he : ¬ e.IsEmpty) (hw : e.width ≤ maxSide) (hh : e.height ≤ maxSide)
    (hratio : IsRatio ratio) :
    fit e ratio = e ∨
    ((fit e ratio).width < e.width ∧ (fit e ratio).height = e.height ∧
      Axis.dominant e ratio = .horizontal) ∨
    ((fit e ratio).height < e.height ∧ (fit e ratio).width = e.width ∧
      Axis.dominant e ratio = .vertical) := by
  obtain ⟨hwidth, hheight⟩ := Extent.sides_pos he
  have hle : (fit e ratio).width ≤ e.width ∧ (fit e ratio).height ≤ e.height := by
    unfold fit
    split
    · exact ⟨side_le hwidth _, Nat.le_refl _⟩
    · exact ⟨Nat.le_refl _, side_le hheight _⟩
  rcases Nat.lt_or_eq_of_le hle.1 with hnarrower | hwhole
  · obtain ⟨haxis, hsame⟩ := dominant_of_narrower he hw hh hratio hnarrower
    exact .inr (.inl ⟨hnarrower, hsame, haxis⟩)
  · rcases Nat.lt_or_eq_of_le hle.2 with hshorter | hsame
    · obtain ⟨haxis, hwhole⟩ := dominant_of_shorter he hw hh hratio hshorter
      exact .inr (.inr ⟨hshorter, hwhole, haxis⟩)
    · refine .inl ?_
      calc fit e ratio = ⟨(fit e ratio).width, (fit e ratio).height⟩ := rfl
        _ = ⟨e.width, e.height⟩ := by rw [hwhole, hsame]

/-- The crop takes nothing from the frame on any other axis. -/
structure CutsOnly (c : Crop) (e : Extent) (axis : Axis) : Prop where
  horizontal : c.extent.width < e.width → axis = .horizontal
  vertical : c.extent.height < e.height → axis = .vertical

/-- A crop cuts one axis only: the dominant one, or any if it is the whole frame. -/
theorem cutsOnly_iff (he : ¬ e.IsEmpty) (hw : e.width ≤ maxSide) (hh : e.height ≤ maxSide)
    (hratio : IsRatio ratio) {c : Crop} (hc : c.extent = fit e ratio) (axis : Axis) :
    c.CutsOnly e axis ↔ c.extent = e ∨ axis = Axis.dominant e ratio := by
  constructor
  · intro ⟨hx, hy⟩
    rw [hc] at hx hy ⊢
    rcases fit_cases he hw hh hratio with hwhole | ⟨hcut, -, haxis⟩ | ⟨hcut, -, haxis⟩
    · exact .inl hwhole
    · exact .inr ((hx hcut).trans haxis.symm)
    · exact .inr ((hy hcut).trans haxis.symm)
  · rintro (hwhole | rfl)
    · constructor <;> intro hcut
      · rw [hwhole] at hcut
        exact absurd hcut (Nat.lt_irrefl _)
      · rw [hwhole] at hcut
        exact absurd hcut (Nat.lt_irrefl _)
    · constructor <;> intro hcut
      · rw [hc] at hcut
        exact (dominant_of_narrower he hw hh hratio hcut).1
      · rw [hc] at hcut
        exact (dominant_of_shorter he hw hh hratio hcut).1

/-- A window as long as its side starts where the side starts. -/
theorem offset_whole (position : Float) (whole : Nat) : offset position whole whole = 0 := by
  unfold offset
  extract_lets centre start
  have hzero : ((whole - whole : Nat) : Int) = 0 := by omega
  have hhigh : start.clamp 0 0 ≤ 0 := Whole.clamp_le (Int.le_refl 0) start
  rw [hzero]
  omega

theorem top_whole (anchor : Option (Anchor Float)) (whole : Nat) : top anchor whole whole = 0 := by
  unfold top
  split
  · exact offset_whole _ _
  · rw [Nat.sub_self]
    rfl

theorem left_whole (anchor : Option (Anchor Float)) (whole : Nat) :
    left anchor whole whole = 0 := by
  unfold left
  split
  · exact offset_whole _ _
  · rw [Nat.sub_self]

theorem top_across (position : Float) (found : Bool) (whole window : Nat) :
    top (some ⟨position, found, .horizontal⟩) whole window =
      top (none : Option (Anchor Float)) whole window := by
  cases found <;> rfl

theorem left_across (position : Float) (found : Bool) (whole window : Nat) :
    left (some ⟨position, found, .vertical⟩) whole window =
      left (none : Option (Anchor Float)) whole window := by
  cases found <;> rfl

/-- **An anchor on an axis that is not cut is no anchor.** -/
theorem ofRatio_eq_unanchored {anchor : Anchor Float}
    (hx : anchor.axis = .horizontal → (fit e ratio).width = e.width)
    (hy : anchor.axis = .vertical → (fit e ratio).height = e.height) :
    ofRatio e ratio (some anchor) = ofRatio e ratio none := by
  unfold ofRatio
  split
  · rfl
  · extract_lets size
    obtain ⟨position, found, axis⟩ := anchor
    cases axis with
    | horizontal =>
      have hwidth : size.width = e.width := hx rfl
      rw [hwidth, left_whole, left_whole, top_across]
    | vertical =>
      have hheight : size.height = e.height := hy rfl
      rw [hheight, top_whole, top_whole, left_across]

/-- An anchor that is not on the axis that is cut does not bear on the crop. -/
theorem ofRatio_of_not_cutsOnly (he : ¬ e.IsEmpty) (hw : e.width ≤ maxSide)
    (hh : e.height ≤ maxSide) (hratio : IsRatio ratio) {anchor : Anchor Float}
    (h : ¬ (ofRatio e ratio (some anchor)).CutsOnly e anchor.axis) :
    ofRatio e ratio (some anchor) = ofRatio e ratio none := by
  have hextent : (ofRatio e ratio (some anchor)).extent = fit e ratio := extent_ofRatio he _
  rw [cutsOnly_iff he hw hh hratio hextent, hextent, not_or] at h
  obtain ⟨hcut, hother⟩ := h
  rcases fit_cases he hw hh hratio with hwhole | ⟨-, hsame, haxis⟩ | ⟨-, hsame, haxis⟩
  · exact absurd hwhole hcut
  · refine ofRatio_eq_unanchored (fun hx => ?_) fun _ => hsame
    exact absurd (hx.trans haxis.symm) hother
  · refine ofRatio_eq_unanchored (fun _ => hsame) fun hy => ?_
    exact absurd (hy.trans haxis.symm) hother

/-- A crop keeps the side that its quotient does not cut. -/
theorem fit_keeps (e : Extent) (ratio : Float) :
    if ratio < Scalar.ofInt e.width / Scalar.ofInt e.height then (fit e ratio).height = e.height
    else (fit e ratio).width = e.width := by
  unfold fit
  split
  · rfl
  · rfl

/-- **A crop is cut on its dominant axis alone**, wherever the anchor is: on the horizontal one
if it is narrower than the frame, on the vertical one if it is shorter, and it is never both.
The axis is told by a product, the crop by a quotient. These agree unless there is nothing to
cut. -/
theorem ofRatio_cutsOnly (he : ¬ e.IsEmpty) (hw : e.width ≤ maxSide) (hh : e.height ≤ maxSide)
    (hratio : IsRatio ratio) (anchor : Option (Anchor Float)) :
    let c := ofRatio e ratio anchor
    c.CutsOnly e (Axis.dominant e ratio) ∧
      ¬ (c.extent.width < e.width ∧ c.extent.height < e.height) ∧
      (c.extent = e ∨ (Axis.dominant e ratio = .horizontal ↔
        ratio < Scalar.ofInt e.width / Scalar.ofInt e.height)) := by
  intro c
  have hextent : c.extent = fit e ratio := extent_ofRatio he anchor
  have hkeeps := fit_keeps e ratio
  refine ⟨(cutsOnly_iff he hw hh hratio hextent _).2 (.inr rfl), ?_, ?_⟩
  · intro ⟨hnarrower, hshorter⟩
    rw [hextent] at hnarrower hshorter
    have hsame := (dominant_of_narrower he hw hh hratio hnarrower).2
    omega
  · rw [hextent]
    rcases fit_cases he hw hh hratio with hwhole | ⟨hcut, -, haxis⟩ | ⟨hcut, -, haxis⟩
    · exact .inl hwhole
    · -- a quotient that does not exceed the ratio keeps the width
      refine .inr (iff_of_true haxis ?_)
      by_contra hnarrow
      rw [if_neg hnarrow] at hkeeps
      omega
    · refine .inr (iff_of_false (by simp [haxis]) ?_)
      intro hwide
      rw [if_pos hwide] at hkeeps
      omega

/-- A frame whose crop is narrower, one whose crop is shorter, and one where product and
quotient disagree: for a ratio just below 3 / 13 the product is rounded up to 3, so that the
frame is too wide by the quotient and not by the product, and nothing is cut. -/
theorem ofRatio_cutsOnly_cases :
    let narrower := ofRatio ⟨4, 2⟩ (1.0 : Float) (some ⟨0.75, true, .horizontal⟩)
    let shorter := ofRatio ⟨2, 4⟩ (1.0 : Float) (some ⟨0.75, true, .vertical⟩)
    let e : Extent := ⟨3, 13⟩
    let ratio := Float.ofBits 0x3FCD89D89D89D89D
    (narrower.extent = ⟨2, 2⟩ ∧ narrower.CutsOnly ⟨4, 2⟩ .horizontal) ∧
    (shorter.extent = ⟨2, 2⟩ ∧ shorter.CutsOnly ⟨2, 4⟩ .vertical) ∧
    (¬ e.IsEmpty ∧ e.width ≤ maxSide ∧ e.height ≤ maxSide ∧ IsRatio ratio) ∧
    (ratio < Scalar.ofInt e.width / Scalar.ofInt e.height ∧ Axis.dominant e ratio = .vertical) ∧
    (ofRatio e ratio none).extent = e ∧ (ofRatio e ratio none).CutsOnly e .vertical := by
  intro narrower shorter e ratio
  have hratio : IsRatio (1.0 : Float) := by decide
  refine ⟨?_, ?_, ?_⟩
  · have haxis : Axis.dominant ⟨4, 2⟩ (1.0 : Float) = .horizontal := by decide +kernel
    obtain ⟨hcuts, -⟩ := ofRatio_cutsOnly (e := ⟨4, 2⟩) (by decide) (by decide) (by decide)
      hratio (some ⟨0.75, true, .horizontal⟩)
    rw [haxis] at hcuts
    exact ⟨by decide +kernel, hcuts⟩
  · have haxis : Axis.dominant ⟨2, 4⟩ (1.0 : Float) = .vertical := by decide +kernel
    obtain ⟨hcuts, -⟩ := ofRatio_cutsOnly (e := ⟨2, 4⟩) (by decide) (by decide) (by decide)
      hratio (some ⟨0.75, true, .vertical⟩)
    rw [haxis] at hcuts
    exact ⟨by decide +kernel, hcuts⟩
  · have hvalid : ¬ e.IsEmpty ∧ e.width ≤ maxSide ∧ e.height ≤ maxSide ∧ IsRatio ratio := by
      decide
    have hwide : ratio < Scalar.ofInt e.width / Scalar.ofInt e.height := by decide +kernel
    have haxis : Axis.dominant e ratio = .vertical := by decide +kernel
    obtain ⟨hcuts, -, hagree⟩ :=
      ofRatio_cutsOnly hvalid.1 hvalid.2.1 hvalid.2.2.1 hvalid.2.2.2 none
    rw [haxis] at hcuts hagree
    refine ⟨hvalid, ⟨hwide, haxis⟩, hagree.resolve_right ?_, hcuts⟩
    intro hsame
    exact absurd (hsame.2 hwide) (by decide)

end Crop

end Reframe
