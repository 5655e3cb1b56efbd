import Mathlib.Analysis.SpecialFunctions.Trigonometric.Basic
import Reframe.Angle
import Reframe.Extent
import Reframe.Proofs.Number.Rounding

/-!
# Formulas over the reals

The formulas of the library are written for any number system. Over the reals, with the
real sine and cosine, they say what is meant, and no operation rounds but those that ask
for an integer.

* `Scalar ℝ`, `Trig.exact`: exact arithmetic.
* `abs_roundAway_sub_le`: the nearest integer is at most a half away.
* `Angle.wrap_mem`, `Angle.normalize_mem`, `Angle.inverse_cases`: angles within one turn.
-/

namespace Reframe

namespace Binary

open Float.Model (UnpackedFloat)

/-- The real number that a machine number is, `0` if it is none. -/
noncomputable def toReal : UnpackedFloat → ℝ
  | .finite .positive m e _ => (magnitude m e : ℚ)
  | .finite .negative m e _ => -(magnitude m e : ℚ)
  | _ => 0

end Binary

/-- The nearest integer, halves away from zero. -/
noncomputable def roundAway (x : ℝ) : ℤ :=
  if 0 ≤ x then ⌊x + 1 / 2⌋ else ⌈x - 1 / 2⌉

/-- The integer part, towards zero. -/
noncomputable def truncate (x : ℝ) : ℤ :=
  if 0 ≤ x then ⌊x⌋ else ⌈x⌉

/-- Exact arithmetic. -/
noncomputable instance : Scalar ℝ where
  decLt := inferInstance
  decLe := inferInstance
  ofInt n := n
  ofSingle x := Binary.toReal x.toModel.unpack
  abs x := |x|
  sqrt := Real.sqrt
  hypot x y := Real.sqrt (x ^ 2 + y ^ 2)
  remainder x y := x - y * truncate (x / y)
  isFinite _ := true
  floor x := .int ⌊x⌋
  ceil x := .int ⌈x⌉
  nearest x := .int (roundAway x)
  rankLe x y := decide (x ≤ y)

/-- The real sine and cosine. -/
noncomputable def Trig.exact : Trig ℝ where
  pi := Real.pi
  sin := Real.sin
  cos := Real.cos

variable {x y : ℝ} {n : ℤ}

theorem abs_roundAway_sub_le (x : ℝ) : |(roundAway x : ℝ) - x| ≤ 1 / 2 := by
  unfold roundAway
  split
  · have hle := Int.floor_le (x + 1 / 2)
    have hlt := Int.lt_floor_add_one (x + 1 / 2)
    rw [abs_le]
    constructor <;> linarith
  · have hle := Int.le_ceil (x - 1 / 2)
    have hlt := Int.ceil_lt_add_one (x - 1 / 2)
    rw [abs_le]
    constructor <;> linarith

/-- What lies less than a half below `0` is not rounded below it. -/
theorem roundAway_nonneg (h : -(1 / 2) < x) : 0 ≤ roundAway x := by
  unfold roundAway
  split
  next hx => exact Int.floor_nonneg.2 (by linarith)
  next hx =>
    have hlt : (-1 : ℝ) < x - 1 / 2 := by linarith
    have hceil : ((-1 : ℤ) : ℝ) < x - 1 / 2 := by exact_mod_cast hlt
    have := Int.lt_ceil.2 hceil
    omega

/-- What lies less than a half above an integer is not rounded above it. -/
theorem roundAway_le (hn : 0 ≤ n) (h : x < n + 1 / 2) : roundAway x ≤ n := by
  unfold roundAway
  split
  next hx =>
    have hlt : x + 1 / 2 < ((n + 1 : ℤ) : ℝ) := by
      push_cast
      linarith
    have := Int.floor_lt.2 hlt
    omega
  next hx =>
    have hle : x - 1 / 2 ≤ ((0 : ℤ) : ℝ) := by
      push_cast
      linarith
    exact le_trans (Int.ceil_le.2 hle) hn

/-- **Rounding keeps the order.** -/
theorem roundAway_mono (h : x ≤ y) : roundAway x ≤ roundAway y := by
  rcases lt_or_ge x 0 with hx | hx
  · rcases lt_or_ge y 0 with hy | hy
    · rw [roundAway, roundAway, if_neg (not_le.2 hx), if_neg (not_le.2 hy)]
      exact Int.ceil_mono (by linarith)
    · have hlow : roundAway x ≤ 0 := roundAway_le le_rfl (by norm_num; linarith)
      exact hlow.trans (roundAway_nonneg (by linarith))
  · rw [roundAway, roundAway, if_pos hx, if_pos (hx.trans h)]
    exact Int.floor_mono (by linarith)

/-- Bringing an integer into an interval brings it no further from a number of the interval. -/
theorem abs_clampInt_sub_le {lo hi : ℤ} (hlo : lo ≤ x) (hhi : x ≤ hi) (k : ℤ) :
    |(Whole.clampInt lo hi k : ℝ) - x| ≤ |(k : ℝ) - x| := by
  have horder : lo ≤ hi := by exact_mod_cast hlo.trans hhi
  rcases lt_or_ge k lo with hlow | hlow
  · have hk : (k : ℝ) ≤ lo := by exact_mod_cast hlow.le
    have hclamp : Whole.clampInt lo hi k = lo := by unfold Whole.clampInt; omega
    rw [hclamp, abs_of_nonpos (by linarith), abs_of_nonpos (by linarith)]
    linarith
  · rcases lt_or_ge hi k with hhigh | hhigh
    · have hk : (hi : ℝ) ≤ k := by exact_mod_cast hhigh.le
      have hclamp : Whole.clampInt lo hi k = hi := by unfold Whole.clampInt; omega
      rw [hclamp, abs_of_nonneg (by linarith), abs_of_nonneg (by linarith)]
      linarith
    · rw [Whole.clampInt_of_mem hlow hhigh]

/-- **No integer of an interval is nearer** than the rounded number, brought into it. -/
theorem abs_clampInt_roundAway_sub_le {lo hi k : ℤ} (hlo : lo ≤ k) (hhi : k ≤ hi) (x : ℝ) :
    |(Whole.clampInt lo hi (roundAway x) : ℝ) - x| ≤ |(k : ℝ) - x| := by
  have hround := abs_le.1 (abs_roundAway_sub_le x)
  generalize roundAway x = r at hround
  have hlo' : (lo : ℝ) ≤ k := by exact_mod_cast hlo
  have hhi' : (k : ℝ) ≤ hi := by exact_mod_cast hhi
  rcases lt_or_ge r lo with hlow | hlow
  · -- the number lies before the interval
    have hr : (r : ℝ) + 1 ≤ lo := by exact_mod_cast hlow
    have hclamp : Whole.clampInt lo hi r = lo := by unfold Whole.clampInt; omega
    rw [hclamp, abs_of_nonneg (by linarith), abs_of_nonneg (by linarith)]
    linarith
  · rcases lt_or_ge hi r with hhigh | hhigh
    · have hr : (hi : ℝ) + 1 ≤ r := by exact_mod_cast hhigh
      have hclamp : Whole.clampInt lo hi r = hi := by unfold Whole.clampInt; omega
      rw [hclamp, abs_of_nonpos (by linarith), abs_of_nonpos (by linarith)]
      linarith
    · rw [Whole.clampInt_of_mem hlow hhigh]
      rcases eq_or_ne k r with rfl | hne
      · exact le_rfl
      · -- any other integer is one further from what is at most a half away
        have hapart : (1 : ℝ) ≤ |(k : ℝ) - r| := by
          exact_mod_cast Int.one_le_abs (sub_ne_zero.2 hne)
        have hsum := abs_sub_le (k : ℝ) x r
        rw [abs_sub_comm x] at hsum
        linarith [abs_le.2 hround]

/-- An integer less than one and a half from a number is at most one from where the number
is rounded to. -/
theorem abs_roundAway_sub_le_one (h : |x - n| < 3 / 2) : |roundAway x - n| ≤ 1 := by
  have hround := abs_roundAway_sub_le x
  have hlt : |(roundAway x : ℝ) - n| < 2 := by
    calc |(roundAway x : ℝ) - n| = |((roundAway x : ℝ) - x) + (x - n)| := by ring_nf
      _ ≤ |(roundAway x : ℝ) - x| + |x - n| := abs_add_le _ _
      _ < 2 := by linarith
  have hlt : |roundAway x - n| < 2 := by exact_mod_cast hlt
  omega

namespace Angle

variable {d : ℝ}

theorem tolerance_real : (tolerance : ℝ) = 1 / 1000000 := by
  change (1e-6 : ℝ) = _
  norm_num

theorem wrap_real (d : ℝ) :
    wrap d = let r := d - 360 * truncate (d / 360); if r < 0 then r + 360 else r := by
  have h : (360.0 : ℝ) = 360 := by norm_num
  have h0 : (0.0 : ℝ) = 0 := by norm_num
  change (let r := d - 360.0 * truncate (d / 360.0); if r < 0.0 then r + 360.0 else r) = _
  rw [h, h0]

/-- **An angle wraps into one turn**, by whole turns. -/
theorem wrap_mem (d : ℝ) : 0 ≤ wrap d ∧ wrap d < 360 ∧ ∃ k : ℤ, wrap d = d + 360 * k := by
  rw [wrap_real]
  unfold truncate
  extract_lets r
  by_cases hd : 0 ≤ d / 360
  · have hle := Int.floor_le (d / 360)
    have hlt := Int.lt_floor_add_one (d / 360)
    have hr : r = d - 360 * ⌊d / 360⌋ := by simp only [r, if_pos hd]
    rw [if_neg (by linarith)]
    refine ⟨by linarith, by linarith, -⌊d / 360⌋, ?_⟩
    push_cast
    linarith
  · have hle := Int.le_ceil (d / 360)
    have hlt := Int.ceil_lt_add_one (d / 360)
    have hr : r = d - 360 * ⌈d / 360⌉ := by simp only [r, if_neg hd]
    split
    next hneg =>
      refine ⟨by linarith, by linarith, 1 - ⌈d / 360⌉, ?_⟩
      push_cast
      linarith
    next hpos =>
      refine ⟨by linarith, by linarith, -⌈d / 360⌉, ?_⟩
      push_cast
      linarith

theorem wrap_of_mem (h : 0 ≤ d) (h' : d < 360) : wrap d = d := by
  obtain ⟨hlow, hhigh, k, hk⟩ := wrap_mem d
  -- two angles of one turn that are whole turns apart are the same
  have hlt : (k : ℝ) < 1 := by linarith
  have hgt : (-1 : ℝ) < k := by linarith
  have hlt : k < 1 := by exact_mod_cast hlt
  have hgt : -1 < k := by exact_mod_cast hgt
  obtain rfl : k = 0 := by omega
  rw [hk, Int.cast_zero, mul_zero, add_zero]

theorem wrap_whole_turn : wrap (360 : ℝ) = 0 := by
  obtain ⟨hlow, hhigh, k, hk⟩ := wrap_mem 360
  have hlt : (k : ℝ) < 0 := by linarith
  have hge : (-1 : ℝ) ≤ k := by linarith
  have hlt : k < 0 := by exact_mod_cast hlt
  have hge : -1 ≤ k := by exact_mod_cast hge
  obtain rfl : k = -1 := by omega
  rw [hk]
  norm_num

theorem normalize_real (d : ℝ) :
    normalize d = if 360 - wrap d < 1 / 1000000 then 0 else wrap d := by
  obtain ⟨-, hhigh, -⟩ := wrap_mem d
  have h : (360.0 : ℝ) = 360 := by norm_num
  have h0 : (0.0 : ℝ) = 0 := by norm_num
  change (if |360.0 - wrap d| < tolerance then 0.0 else wrap d) = _
  rw [tolerance_real, h, h0, abs_of_pos (by linarith)]

/-- **A normalized angle lies in one turn**, and not next to its end. -/
theorem normalize_mem (d : ℝ) : 0 ≤ normalize d ∧ normalize d ≤ 360 - 1 / 1000000 := by
  obtain ⟨hlow, -, -⟩ := wrap_mem d
  rw [normalize_real]
  split
  · norm_num
  next hnear => exact ⟨hlow, by linarith⟩

theorem normalize_of_mem (h : 0 ≤ d) (h' : d ≤ 360 - 1 / 1000000) : normalize d = d := by
  rw [normalize_real, wrap_of_mem h (by linarith), if_neg (by linarith)]

@[simp] theorem normalize_normalize (d : ℝ) : normalize (normalize d) = normalize d := by
  obtain ⟨hlow, hhigh⟩ := normalize_mem d
  exact normalize_of_mem hlow hhigh

@[simp] theorem inverse_normalize (d : ℝ) : inverse (normalize d) = inverse d := by
  unfold inverse
  rw [normalize_normalize]

/-- **Turning back** is turning by what is left of the whole turn; next to no turn it is
no turn at all. -/
theorem inverse_cases (d : ℝ) :
    (normalize d < 1 / 1000000 ∧ inverse d = 0) ∨
      (1 / 1000000 ≤ normalize d ∧ inverse d = 360 - normalize d) := by
  obtain ⟨hlow, hhigh⟩ := normalize_mem d
  have h : (360.0 : ℝ) = 360 := by norm_num
  have hinverse : inverse d = normalize (360 - normalize d) := by
    change normalize (360.0 - normalize d) = _
    rw [h]
  rcases lt_or_ge (normalize d) (1 / 1000000) with hnear | hfar
  · refine .inl ⟨hnear, ?_⟩
    rw [hinverse, normalize_real]
    rcases hlow.eq_or_lt with hzero | hpos
    · rw [← hzero, sub_zero, wrap_whole_turn, ite_self]
    · rw [wrap_of_mem (by linarith) (by linarith), if_pos (by linarith)]
  · refine .inr ⟨hfar, ?_⟩
    rw [hinverse]
    exact normalize_of_mem (by linarith) (by linarith)

end Angle

namespace Trig

theorem direction_exact (d : ℝ) :
    exact.direction d =
      (Real.sin (Angle.normalize d * (Real.pi / 180)),
        Real.cos (Angle.normalize d * (Real.pi / 180))) := by
  have h : (180.0 : ℝ) = 180 := by norm_num
  rw [← h]
  rfl

theorem direction_of_normalize_eq_zero {d : ℝ} (h : Angle.normalize d = 0) :
    exact.direction d = (0, 1) := by
  rw [direction_exact, h, zero_mul, Real.sin_zero, Real.cos_zero]

end Trig

end Reframe
