import Mathlib.Analysis.SpecialFunctions.Trigonometric.Bounds
import Mathlib.Analysis.Real.Pi.Bounds
import Reframe.Proofs.Number.Exact

/-!
# Turning a spot and turning it back

In exact arithmetic a spot that turns with its frame lands in the turned frame's box by
itself: what is rounded lies inside before it is kept inside. Turned back by the inverse
angle it comes to within a pixel of where it was.

A turn keeps distances, so the half pixel lost to rounding is still less than a pixel after
turning back; an angle that is too small to be undone moves nothing far.

* `Extent.turned_exact`, `Spot.imageIn_exact`: the formulas over the reals.
* `Spot.nearest_imageIn_mem`: a turned spot lands inside.
* `Spot.turn_round_trip`: and comes back.
-/

namespace Reframe

variable {s c : ℝ}

theorem one_le_abs_add_abs (h : s ^ 2 + c ^ 2 = 1) : 1 ≤ |c| + |s| := by
  have hs := sq_abs s
  have hc := sq_abs c
  nlinarith [abs_nonneg s, abs_nonneg c]

theorem abs_add_abs_le (h : s ^ 2 + c ^ 2 = 1) : |c| + |s| ≤ 3 / 2 := by
  have hs := sq_abs s
  have hc := sq_abs c
  nlinarith [sq_nonneg (|c| - |s|)]

/-- The side of a box that is to hold a length: a millionth over an integer is dropped. -/
noncomputable def boxSide (length : ℝ) : ℕ :=
  ((Whole.int ⌈length - 1 / 1000000⌉).clamp 1 maxSide).toNat

theorem one_le_boxSide (length : ℝ) : 1 ≤ boxSide length := by
  have h := Whole.le_clamp 1 maxSide (Whole.int ⌈length - 1 / 1000000⌉)
  unfold boxSide
  omega

theorem boxSide_le {length : ℝ} (h : length ≤ 2 ^ 25) : boxSide length ≤ 2 ^ 25 := by
  have hsmall : ⌈length - 1 / 1000000⌉ ≤ 2 ^ 25 := by
    refine Int.ceil_le.2 ?_
    push_cast
    linarith
  simp only [boxSide, Whole.clamp, Whole.clampInt, maxSide]
  omega

/-- A box holds its length, up to a millionth. -/
theorem le_boxSide {length : ℝ} (h : length ≤ 2 ^ 25) : length - 1 / 1000000 ≤ boxSide length := by
  have hceil := Int.le_ceil (length - 1 / 1000000)
  have hsmall : ⌈length - 1 / 1000000⌉ ≤ 2 ^ 25 := by
    refine Int.ceil_le.2 ?_
    push_cast
    linarith
  have hside : ⌈length - 1 / 1000000⌉ ≤ (boxSide length : ℤ) := by
    simp only [boxSide, Whole.clamp, Whole.clampInt, maxSide]
    omega
  have hside : (⌈length - 1 / 1000000⌉ : ℝ) ≤ boxSide length := by exact_mod_cast hside
  linarith

namespace Extent

theorem middle_exact (n : ℕ) : (middle n : ℝ) = ((n : ℝ) - 1) / 2 := by
  change ((n : ℤ) - 1.0 : ℝ) / 2.0 = _
  norm_num

theorem turned_exact (e : Extent) {degrees : ℝ} (hd : Trig.exact.direction degrees = (s, c)) :
    e.turned .exact degrees =
      ⟨boxSide (e.width * |c| + e.height * |s|), boxSide (e.width * |s| + e.height * |c|)⟩ := by
  have hwidth : ((e.width : ℤ) : ℝ) = e.width := Int.cast_natCast _
  have hheight : ((e.height : ℤ) : ℝ) = e.height := Int.cast_natCast _
  unfold boxSide Extent.turned
  rw [hd, ← Angle.tolerance_real, ← hwidth, ← hheight]
  rfl

end Extent

namespace Spot

variable {e : Extent} {degrees : ℝ} {p : Spot}

theorem imageIn_exact (src dst : Extent) {degrees : ℝ} (p : Spot)
    (hd : Trig.exact.direction degrees = (s, c)) :
    p.imageIn .exact src dst degrees =
      ((p.x - (src.width - 1) / 2) * c - (p.y - (src.height - 1) / 2) * s + (dst.width - 1) / 2,
        (p.x - (src.width - 1) / 2) * s + (p.y - (src.height - 1) / 2) * c +
          (dst.height - 1) / 2) := by
  unfold imageIn
  rw [hd, ← Extent.middle_exact, ← Extent.middle_exact, ← Extent.middle_exact,
    ← Extent.middle_exact]
  rfl

/-- The offset of a place of a side from the middle. -/
theorem abs_sub_middle_le {x : ℤ} {n : ℕ} (h : 0 ≤ x) (h' : x < n) :
    |(x : ℝ) - (n - 1) / 2| ≤ ((n : ℝ) - 1) / 2 := by
  have hlow : (0 : ℝ) ≤ x := by exact_mod_cast h
  have hhigh : ((x + 1 : ℤ) : ℝ) ≤ n := by exact_mod_cast h'
  push_cast at hhigh
  rw [abs_le]
  constructor <;> linarith

/-- A turned offset is no longer than half a side of the box, short of half a pixel. -/
theorem abs_turned_le {dx dy w h : ℝ} (hcircle : s ^ 2 + c ^ 2 = 1) (hx : |dx| ≤ (w - 1) / 2)
    (hy : |dy| ≤ (h - 1) / 2) : |dx * c| + |dy * s| ≤ (w * |c| + h * |s| - 1) / 2 := by
  have hone := one_le_abs_add_abs hcircle
  have hx : |dx| * |c| ≤ (w - 1) / 2 * |c| := mul_le_mul_of_nonneg_right hx (abs_nonneg c)
  have hy : |dy| * |s| ≤ (h - 1) / 2 * |s| := mul_le_mul_of_nonneg_right hy (abs_nonneg s)
  rw [abs_mul, abs_mul]
  linarith

/-- A place at most as far from the middle of a box as the length that the box holds, short
of half a pixel, is rounded to a place of the box. -/
theorem roundAway_mem {v length : ℝ} (hlength : length ≤ 2 ^ 25)
    (h : |v| ≤ (length - 1) / 2) :
    0 ≤ roundAway (v + ((boxSide length : ℝ) - 1) / 2) ∧
      roundAway (v + ((boxSide length : ℝ) - 1) / 2) < boxSide length := by
  have hone := one_le_boxSide length
  have hbox := le_boxSide hlength
  obtain ⟨hlow, hhigh⟩ := abs_le.1 h
  refine ⟨roundAway_nonneg (by linarith), ?_⟩
  have hcast : (((boxSide length : ℤ) - 1 : ℤ) : ℝ) = (boxSide length : ℝ) - 1 := by push_cast; rfl
  have hle : roundAway (v + ((boxSide length : ℝ) - 1) / 2) ≤ (boxSide length : ℤ) - 1 := by
    refine roundAway_le (by omega) ?_
    rw [hcast]
    linarith
  omega

theorem direction_circle {d : ℝ} (hd : Trig.exact.direction d = (s, c)) : s ^ 2 + c ^ 2 = 1 := by
  rw [Trig.direction_exact] at hd
  obtain ⟨rfl, rfl⟩ := Prod.mk.inj hd
  exact Real.sin_sq_add_cos_sq _

/-- The direction that turns back: the mirrored one, or none when the angle is too small
to be undone. -/
theorem direction_inverse {d : ℝ} (hd : Trig.exact.direction d = (s, c)) :
    Trig.exact.direction (Angle.inverse d) = (-s, c) ∨
      Trig.exact.direction (Angle.inverse d) = (0, 1) ∧ |s| ≤ 1 / 2 ^ 25 ∧
        |c - 1| ≤ 1 / 2 ^ 25 := by
  obtain ⟨hlow, hhigh⟩ := Angle.normalize_mem d
  rw [Trig.direction_exact] at hd ⊢
  obtain ⟨rfl, rfl⟩ := Prod.mk.inj hd
  have hpi := Real.pi_pos
  rcases Angle.inverse_cases d with ⟨hnear, hinverse⟩ | ⟨hfar, hinverse⟩
  · right
    have hzero : Angle.normalize (0 : ℝ) = 0 := Angle.normalize_of_mem le_rfl (by norm_num)
    rw [hinverse, hzero, zero_mul, Real.sin_zero, Real.cos_zero]
    -- a millionth of a degree
    generalize hr : Angle.normalize d * (Real.pi / 180) = r
    have hr0 : 0 ≤ r := by
      rw [← hr]
      positivity
    have hr1 : r ≤ 1 / 2 ^ 25 := by
      rw [← hr]
      nlinarith [Real.pi_le_four]
    have hsin : |Real.sin r| ≤ r := by
      have h := Real.abs_sin_le_abs (x := r)
      rwa [abs_of_nonneg hr0] at h
    have hcos := Real.one_sub_sq_div_two_le_cos (x := r)
    have hcos' := Real.cos_le_one r
    refine ⟨rfl, le_trans hsin hr1, ?_⟩
    rw [abs_le]
    constructor <;> nlinarith
  · left
    have hsame : Angle.normalize (360 - Angle.normalize d) = 360 - Angle.normalize d :=
      Angle.normalize_of_mem (by linarith) (by linarith)
    have hturn : (360 - Angle.normalize d) * (Real.pi / 180) =
        2 * Real.pi - Angle.normalize d * (Real.pi / 180) := by ring
    rw [hinverse, hsame, hturn, Real.sin_two_pi_sub, Real.cos_two_pi_sub]

variable {dx dy u v : ℝ}

/-- **Turning back** leaves of an error no more than a turn makes of it. -/
theorem abs_back_sub_le (dx dy : ℝ) (hcircle : s ^ 2 + c ^ 2 = 1) (hu : |u| ≤ 1 / 2)
    (hv : |v| ≤ 1 / 2) :
    |(dx * c - dy * s + u) * c - (dx * s + dy * c + v) * -s - dx| ≤ 3 / 4 ∧
      |(dx * c - dy * s + u) * -s + (dx * s + dy * c + v) * c - dy| ≤ 3 / 4 := by
  have hsides := abs_add_abs_le hcircle
  have herror : ∀ {a b : ℝ}, |a| ≤ 1 / 2 → |b| ≤ 1 / 2 → |a * c + b * s| ≤ 3 / 4 := by
    intro a b ha hb
    have hac : |a| * |c| ≤ 1 / 2 * |c| := mul_le_mul_of_nonneg_right ha (abs_nonneg c)
    have hbs : |b| * |s| ≤ 1 / 2 * |s| := mul_le_mul_of_nonneg_right hb (abs_nonneg s)
    calc |a * c + b * s| ≤ |a * c| + |b * s| := abs_add_le _ _
      _ = |a| * |c| + |b| * |s| := by rw [abs_mul, abs_mul]
      _ ≤ 3 / 4 := by linarith
  have hx : (dx * c - dy * s + u) * c - (dx * s + dy * c + v) * -s - dx = u * c + v * s := by
    linear_combination dx * hcircle
  have hy : (dx * c - dy * s + u) * -s + (dx * s + dy * c + v) * c - dy = v * c + -u * s := by
    linear_combination dy * hcircle
  rw [hx, hy]
  exact ⟨herror hu hv, herror hv (by rwa [abs_neg])⟩

/-- Not turning back from a turn that is hardly one. -/
theorem abs_stay_sub_le (hs : |s| ≤ 1 / 2 ^ 25) (hc : |c - 1| ≤ 1 / 2 ^ 25) (hx : |dx| ≤ 2 ^ 23)
    (hy : |dy| ≤ 2 ^ 23) (hu : |u| ≤ 1 / 2) : |dx * c - dy * s + u - dx| ≤ 1 := by
  have hxc : |dx * (c - 1)| ≤ 1 / 4 := by
    calc |dx * (c - 1)| = |dx| * |c - 1| := abs_mul _ _
      _ ≤ 2 ^ 23 * (1 / 2 ^ 25) := mul_le_mul hx hc (abs_nonneg _) (by positivity)
      _ = 1 / 4 := by norm_num
  have hys : |dy * s| ≤ 1 / 4 := by
    calc |dy * s| = |dy| * |s| := abs_mul _ _
      _ ≤ 2 ^ 23 * (1 / 2 ^ 25) := mul_le_mul hy hs (abs_nonneg _) (by positivity)
      _ = 1 / 4 := by norm_num
  have hsplit : dx * c - dy * s + u - dx = dx * (c - 1) - dy * s + u := by ring
  rw [hsplit]
  rw [abs_le] at hxc hys hu ⊢
  constructor <;> linarith

theorem pin_exact (n : ℕ) (v : ℝ) :
    pin n v = Whole.clampInt 0 (Extent.lastIndex n) (roundAway v) := rfl

theorem pin_of_mem {n : ℕ} {v : ℝ} (hn : n ≤ 2 ^ 25) (h : 0 ≤ roundAway v)
    (h' : roundAway v < n) : pin n v = roundAway v := by
  rw [pin_exact]
  refine Whole.clampInt_of_mem h ?_
  unfold Extent.lastIndex maxCoordinate
  omega

/-- Keeping a place inside a side brings it no further from a place of the side. -/
theorem abs_pin_sub_le {n : ℕ} {v : ℝ} {x : ℤ} (hn : n ≤ 2 ^ 25) (h : 0 ≤ x) (h' : x < n)
    (hv : |v - x| ≤ 1) : |pin n v - x| ≤ 1 := by
  have hround : |roundAway v - x| ≤ 1 := abs_roundAway_sub_le_one (by linarith)
  rw [pin_exact]
  rw [abs_le] at hround ⊢
  unfold Whole.clampInt Extent.lastIndex maxCoordinate
  omega

/-- The length that a side of the box holds. -/
theorem length_le {w h : ℕ} (hcircle : s ^ 2 + c ^ 2 = 1) (hw : w ≤ 2 ^ 24) (hh : h ≤ 2 ^ 24) :
    w * |c| + h * |s| ≤ 2 ^ 25 := by
  have hsides := abs_add_abs_le hcircle
  have hw : (w : ℝ) ≤ 2 ^ 24 := by exact_mod_cast hw
  have hh : (h : ℝ) ≤ 2 ^ 24 := by exact_mod_cast hh
  calc w * |c| + h * |s| ≤ 2 ^ 24 * |c| + 2 ^ 24 * |s| :=
        add_le_add (mul_le_mul_of_nonneg_right hw (abs_nonneg c))
          (mul_le_mul_of_nonneg_right hh (abs_nonneg s))
    _ = 2 ^ 24 * (|c| + |s|) := by ring
    _ ≤ 2 ^ 25 := by linarith

/-- The box of a frame of bounded sides is bounded. -/
theorem turned_le (hw : e.width ≤ 2 ^ 24) (hh : e.height ≤ 2 ^ 24) (degrees : ℝ) :
    (e.turned .exact degrees).width ≤ 2 ^ 25 ∧ (e.turned .exact degrees).height ≤ 2 ^ 25 := by
  rcases hd : Trig.exact.direction degrees with ⟨s, c⟩
  have hcircle := direction_circle hd
  have hcircle' : c ^ 2 + s ^ 2 = 1 := by rw [add_comm, hcircle]
  rw [Extent.turned_exact e hd]
  exact ⟨boxSide_le (length_le hcircle hw hh), boxSide_le (length_le hcircle' hw hh)⟩

/-- **A turned spot lands in the box**, where it is rounded to. -/
theorem nearest_imageIn_mem (hw : e.width ≤ 2 ^ 24) (hh : e.height ≤ 2 ^ 24)
    (hp : e.Contains p) (degrees : ℝ) :
    let image := p.imageIn .exact e (e.turned .exact degrees) degrees
    (e.turned .exact degrees).Contains ⟨roundAway image.1, roundAway image.2⟩ := by
  obtain ⟨hx0, hx1, hy0, hy1⟩ := hp
  rcases hd : Trig.exact.direction degrees with ⟨s, c⟩
  have hcircle := direction_circle hd
  have hcircle' : c ^ 2 + s ^ 2 = 1 := by rw [add_comm, hcircle]
  have hdx := abs_sub_middle_le hx0 hx1
  have hdy := abs_sub_middle_le hy0 hy1
  rw [imageIn_exact _ _ p hd, Extent.turned_exact e hd]
  obtain ⟨hleft, hright⟩ := roundAway_mem (length_le hcircle hw hh)
    (le_trans (abs_sub _ _) (abs_turned_le hcircle hdx hdy))
  obtain ⟨htop, hbottom⟩ := roundAway_mem (length_le hcircle' hw hh)
    (le_trans (abs_add_le _ _) (abs_turned_le hcircle' hdx hdy))
  exact ⟨hleft, hright, htop, hbottom⟩

/-- A turned spot is the place that it is rounded to. -/
theorem turn_exact (hw : e.width ≤ 2 ^ 24) (hh : e.height ≤ 2 ^ 24) (hp : e.Contains p)
    (degrees : ℝ) :
    let image := p.imageIn .exact e (e.turned .exact degrees) degrees
    p.turn .exact e degrees = ⟨roundAway image.1, roundAway image.2⟩ := by
  have hmem := nearest_imageIn_mem hw hh hp degrees
  intro image
  obtain ⟨hleft, hright, htop, hbottom⟩ := hmem
  obtain ⟨hwidth, hheight⟩ := turned_le hw hh degrees
  have hx : pin (e.turned .exact degrees).width image.1 = roundAway image.1 :=
    pin_of_mem hwidth hleft hright
  have hy : pin (e.turned .exact degrees).height image.2 = roundAway image.2 :=
    pin_of_mem hheight htop hbottom
  rw [← hx, ← hy]
  rfl

theorem abs_sub_middle_le_two_pow {x : ℤ} {n : ℕ} (hn : n ≤ 2 ^ 24) (h : 0 ≤ x) (h' : x < n) :
    |(x : ℝ) - (n - 1) / 2| ≤ 2 ^ 23 := by
  have hmiddle := abs_sub_middle_le h h'
  have hn : (n : ℝ) ≤ 2 ^ 24 := by exact_mod_cast hn
  linarith

/-- **Turning back a spot that was moved by half a pixel** leads to within a pixel. -/
theorem abs_imageIn_back_le {f : Extent} {t : Spot} (hw : e.width ≤ 2 ^ 24)
    (hh : e.height ≤ 2 ^ 24) (hp : e.Contains p)
    (hx : |(t.x : ℝ) - (p.imageIn .exact e f degrees).1| ≤ 1 / 2)
    (hy : |(t.y : ℝ) - (p.imageIn .exact e f degrees).2| ≤ 1 / 2) :
    |(t.imageIn .exact f e (Angle.inverse degrees)).1 - p.x| ≤ 1 ∧
      |(t.imageIn .exact f e (Angle.inverse degrees)).2 - p.y| ≤ 1 := by
  obtain ⟨hx0, hx1, hy0, hy1⟩ := hp
  have hdx := abs_sub_middle_le_two_pow hw hx0 hx1
  have hdy := abs_sub_middle_le_two_pow hh hy0 hy1
  rcases hd : Trig.exact.direction degrees with ⟨s, c⟩
  have hcircle := direction_circle hd
  rw [imageIn_exact _ _ p hd] at hx hy
  dsimp only at hx hy
  generalize hdx' : (p.x : ℝ) - (e.width - 1) / 2 = dx at hdx hx hy
  generalize hdy' : (p.y : ℝ) - (e.height - 1) / 2 = dy at hdy hx hy
  -- the turned spot, from the middle of the box: the turned offset and the error
  have htx : (t.x : ℝ) - (f.width - 1) / 2 =
      dx * c - dy * s + (t.x - (dx * c - dy * s + (f.width - 1) / 2)) := by ring
  have hty : (t.y : ℝ) - (f.height - 1) / 2 =
      dx * s + dy * c + (t.y - (dx * s + dy * c + (f.height - 1) / 2)) := by ring
  generalize (t.x : ℝ) - (dx * c - dy * s + (f.width - 1) / 2) = u at hx htx
  generalize (t.y : ℝ) - (dx * s + dy * c + (f.height - 1) / 2) = v at hy hty
  -- and what is left of it, from the middle of the frame
  have hback : ∀ {a : ℝ}, |a - dx| ≤ 1 → |a + (e.width - 1) / 2 - p.x| ≤ 1 := by
    intro a ha
    have heq : a + ((e.width : ℝ) - 1) / 2 - p.x = a - dx := by rw [← hdx']; ring
    rwa [heq]
  have hback' : ∀ {a : ℝ}, |a - dy| ≤ 1 → |a + (e.height - 1) / 2 - p.y| ≤ 1 := by
    intro a ha
    have heq : a + ((e.height : ℝ) - 1) / 2 - p.y = a - dy := by rw [← hdy']; ring
    rwa [heq]
  rcases direction_inverse hd with hd' | ⟨hd', hs, hc⟩
  · rw [imageIn_exact _ _ t hd', htx, hty]
    obtain ⟨ha, hb⟩ := abs_back_sub_le dx dy hcircle hx hy
    exact ⟨hback (by linarith), hback' (by linarith)⟩
  · rw [imageIn_exact _ _ t hd', htx, hty]
    have hstay := abs_stay_sub_le hs hc hdx hdy hx
    have hdx : |-dx| ≤ 2 ^ 23 := by rwa [abs_neg]
    have hstay' := abs_stay_sub_le hs hc hdy hdx hy
    refine ⟨hback ?_, hback' ?_⟩
    · rwa [mul_one, mul_zero, sub_zero]
    · have heq : dx * s + dy * c + v = dy * c - -dx * s + v := by ring
      rwa [mul_one, mul_zero, zero_add, heq]

/-- **A spot that turns with its frame lands in the turned frame's box** before it is kept
inside, for frames of up to `2 ^ 24` pixels a side and any angle; **and turned back it is
within a pixel of where it was**, on both axes. -/
theorem turn_round_trip (hw : e.width ≤ 2 ^ 24) (hh : e.height ≤ 2 ^ 24) (hp : e.Contains p)
    (degrees : ℝ) :
    let box := e.turned .exact degrees
    let image := p.imageIn .exact e box degrees
    let turned := p.turn .exact e degrees
    let back := turned.turnInto .exact box e (Angle.inverse degrees)
    (∃ x y : ℤ, Scalar.nearest image.1 = .int x ∧ Scalar.nearest image.2 = .int y ∧
      box.Contains ⟨x, y⟩ ∧ turned = ⟨x, y⟩) ∧
    |back.x - p.x| ≤ 1 ∧ |back.y - p.y| ≤ 1 := by
  intro box image turned back
  have hturned : turned = ⟨roundAway image.1, roundAway image.2⟩ := turn_exact hw hh hp degrees
  refine ⟨⟨_, _, rfl, rfl, nearest_imageIn_mem hw hh hp degrees, hturned⟩, ?_⟩
  have hx : |(turned.x : ℝ) - image.1| ≤ 1 / 2 := by
    rw [hturned]
    exact abs_roundAway_sub_le _
  have hy : |(turned.y : ℝ) - image.2| ≤ 1 / 2 := by
    rw [hturned]
    exact abs_roundAway_sub_le _
  obtain ⟨hbx, hby⟩ := abs_imageIn_back_le hw hh hp hx hy
  obtain ⟨hx0, hx1, hy0, hy1⟩ := hp
  exact ⟨abs_pin_sub_le (by omega) hx0 hx1 hbx, abs_pin_sub_le (by omega) hy0 hy1 hby⟩

/-- The corner of the largest frame, and an angle that is too small to be undone. -/
theorem turn_round_trip_corner :
    let e : Extent := ⟨2 ^ 24, 2 ^ 24⟩
    let p : Spot := ⟨2 ^ 24 - 1, 0⟩
    let back := (p.turn .exact e 0.0000005).turnInto .exact (e.turned .exact 0.0000005) e
      (Angle.inverse 0.0000005)
    e.Contains p ∧ |back.x - p.x| ≤ 1 ∧ |back.y - p.y| ≤ 1 := by
  intro e p back
  have hp : e.Contains p := by decide
  obtain ⟨-, hx, hy⟩ := turn_round_trip (le_refl (2 ^ 24)) (le_refl (2 ^ 24)) hp 0.0000005
  exact ⟨hp, hx, hy⟩

end Spot

end Reframe
