import Reframe.Proofs.Number.Grain
import Reframe.Raster.Turn

/-!
# Turns by right angles

A picture that turns by a right angle is a permutation of its pixels; a spot turns by a
sine and a cosine that are not quite 0 and 1. In machine arithmetic both come to the same:
the box is the turned frame, the spot lands on the place its pixel has moved to, and it
comes back when it is turned back.

What is lost to the sine and the cosine is two grains at most, and a place or a length
that is off by so little is rounded to the right integer.

* `RightAngle`: the three angles, and what they do to frames, spots and rasters.
* `RightAngle.turned_eq`, `RightAngle.turnInto_eq`: frames and spots in machine arithmetic.
* `Raster.turn_rightAngle`: pictures and spots turn together.
-/

namespace Reframe

open Binary

/-- A right angle, other than none at all. -/
inductive RightAngle where
  | quarter
  | half
  | threeQuarters
  deriving DecidableEq, Repr

namespace RightAngle

variable {τ : Type} [Inhabited τ] {a : RightAngle} {e : Extent} {p : Spot}

def degrees : RightAngle → Float
  | quarter => 90.0
  | half => 180.0
  | threeQuarters => 270.0

/-- The exact sine. -/
def sin : RightAngle → Int
  | quarter => 1
  | half => 0
  | threeQuarters => -1

/-- The exact cosine. -/
def cos : RightAngle → Int
  | quarter => 0
  | half => -1
  | threeQuarters => 0

/-- The angle that turns back. -/
def inverse : RightAngle → RightAngle
  | quarter => threeQuarters
  | half => half
  | threeQuarters => quarter

/-- The frame, turned. -/
def extent (a : RightAngle) (e : Extent) : Extent :=
  match a with
  | quarter => ⟨e.height, e.width⟩
  | half => e
  | threeQuarters => ⟨e.height, e.width⟩

/-- The place in the turned frame that a spot moves to. -/
def spot (a : RightAngle) (e : Extent) (p : Spot) : Spot :=
  match a with
  | quarter => ⟨e.height - 1 - p.y, p.x⟩
  | half => ⟨e.width - 1 - p.x, e.height - 1 - p.y⟩
  | threeQuarters => ⟨p.y, e.width - 1 - p.x⟩

/-- The raster, turned. -/
def raster (a : RightAngle) (r : Raster τ) : Raster τ :=
  match a with
  | quarter => r.quarter
  | half => r.half
  | threeQuarters => r.threeQuarters

theorem extent_inverse (a : RightAngle) (e : Extent) : a.inverse.extent (a.extent e) = e := by
  cases a <;> rfl

/-- **A spot that is turned and turned back is where it was.** -/
theorem spot_inverse (a : RightAngle) (e : Extent) (p : Spot) :
    a.inverse.spot (a.extent e) (a.spot e p) = p := by
  obtain ⟨x, y⟩ := p
  cases a <;> simp [inverse, spot, extent]

theorem contains_spot (a : RightAngle) (h : e.Contains p) :
    (a.extent e).Contains (a.spot e p) := by
  obtain ⟨hx, hx', hy, hy'⟩ := h
  cases a
  · exact ⟨by simp only [spot]; omega, by simp only [spot, extent]; omega, hx, hx'⟩
  · exact ⟨by simp only [spot]; omega, by simp only [spot, extent]; omega,
      by simp only [spot]; omega, by simp only [spot, extent]; omega⟩
  · exact ⟨hy, hy', by simp only [spot]; omega, by simp only [spot, extent]; omega⟩

theorem extent_raster (a : RightAngle) (r : Raster τ) :
    (a.raster r).extent = a.extent r.extent := by
  cases a <;> rfl

/-- **A pixel of the turned raster is the pixel of the raster that has moved there.** -/
theorem get?_raster (a : RightAngle) (r : Raster τ) (h : r.extent.Contains p) :
    (a.raster r).get? (a.spot r.extent p).x.toNat (a.spot r.extent p).y.toNat =
      r.get? p.x.toNat p.y.toNat := by
  obtain ⟨px, py⟩ := p
  obtain ⟨hx, hx', hy, hy'⟩ := h
  obtain ⟨x, rfl⟩ := Int.eq_ofNat_of_zero_le hx
  obtain ⟨y, rfl⟩ := Int.eq_ofNat_of_zero_le hy
  have hx : x < r.width := Int.ofNat_lt.1 hx'
  have hy : y < r.height := Int.ofNat_lt.1 hy'
  have hpixel : r.get? x y = some (r.pixel x y) := by
    rw [Raster.pixel, Raster.get?_eq_some hx hy]
    rfl
  -- places counted from the far end of a side
  have hright : ((r.width : Int) - 1 - x).toNat = r.width - 1 - x := by omega
  have hbelow : ((r.height : Int) - 1 - y).toNat = r.height - 1 - y := by omega
  have hxlt : r.width - 1 - x < r.width := by omega
  have hylt : r.height - 1 - y < r.height := by omega
  have hxx : r.width - 1 - (r.width - 1 - x) = x := by omega
  have hyy : r.height - 1 - (r.height - 1 - y) = y := by omega
  cases a
  · simp only [raster, spot, Int.toNat_natCast, hbelow, hpixel]
    rw [Raster.quarter, Raster.get?_tabulate _ _ hylt hx, hyy]
  · simp only [raster, spot, Int.toNat_natCast, hright, hbelow, hpixel]
    rw [Raster.half, Raster.get?_tabulate _ _ hxlt hylt, hxx, hyy]
  · simp only [raster, spot, Int.toNat_natCast, hright, hpixel]
    rw [Raster.threeQuarters, Raster.get?_tabulate _ _ hy hxlt, hxx]

theorem normalize_degrees (a : RightAngle) : Angle.normalize a.degrees = a.degrees := by
  cases a <;> decide +kernel

theorem inverse_degrees (a : RightAngle) : Angle.inverse a.degrees = a.inverse.degrees := by
  cases a <;> decide +kernel

/-- A picture is turned pixel by pixel. -/
theorem turn_eq (a : RightAngle) (instruments : Instruments) (picture : Picture) :
    picture.turn instruments a.degrees = a.raster picture := by
  have hnear : ∀ b : RightAngle, Angle.isNear a.degrees b.degrees = decide (a = b) := by
    cases a <;> intro b <;> cases b <;> decide +kernel
  have hzero : Angle.isNear a.degrees 0.0 = false := by cases a <;> decide +kernel
  have hquarter := hnear quarter
  have hhalf := hnear half
  have hthree := hnear threeQuarters
  unfold Raster.turn
  simp only [normalize_degrees, hzero, Bool.false_eq_true, if_false]
  cases a
  · exact if_pos hquarter
  · exact (if_neg (ne_true_of_eq_false hquarter)).trans (if_pos hhalf)
  · exact ((if_neg (ne_true_of_eq_false hquarter)).trans
      (if_neg (ne_true_of_eq_false hhalf))).trans (if_pos hthree)

end RightAngle

section Sides

variable {b c : Float} {n : ℕ}

/-- The middle of a side. -/
theorem denotes_middle (hpos : 1 ≤ n) (hn : n ≤ 2 ^ 30) :
    Denotes (Extent.middle n) ((n - 1) / 2) := by
  have hwhole : IsHalf ((n : ℚ) - 1) := by
    have h := isHalf_int (n := n - 1) (abs_le.2 ⟨by omega, by omega⟩)
    push_cast at h
    exact h
  have hhalf : IsHalf (((n : ℚ) - 1) / 2) := by
    refine ⟨n - 1, abs_le.2 ⟨by omega, by omega⟩, ?_⟩
    push_cast
    rfl
  have hlast := hwhole.denotes ((denotes_ofNat (n := n) (by omega)).sub denotes_one)
  exact hhalf.denotes (hlast.div denotes_two two_ne_zero)

/-- The offset of a place of a side from the middle. -/
theorem denotes_offset {i : ℤ} (h : 0 ≤ i) (hi : i < n) (hn : n ≤ 2 ^ 30) :
    Denotes (Scalar.ofInt i - Extent.middle n) (i - (n - 1) / 2) ∧
      IsHalf (i - (n - 1) / 2) ∧ |(i - (n - 1) / 2 : ℚ)| ≤ 2 ^ 30 := by
  have hhalf : IsHalf ((i : ℚ) - (n - 1) / 2) := by
    refine ⟨2 * i - (n - 1), abs_le.2 ⟨by omega, by omega⟩, ?_⟩
    push_cast
    ring
  obtain ⟨m, rfl⟩ := Int.eq_ofNat_of_zero_le h
  have hm : m < n := Int.ofNat_lt.1 hi
  refine ⟨?_, hhalf, ?_⟩
  · have hplace := denotes_ofNat (n := m) (by omega)
    exact hhalf.denotes (hplace.sub (denotes_middle (by omega) hn))
  · have hm : (m : ℚ) + 1 ≤ n := by exact_mod_cast hm
    have hn : (n : ℚ) ≤ 2 ^ 30 := by exact_mod_cast hn
    have hm0 : (0 : ℚ) ≤ m := Nat.cast_nonneg m
    rw [Int.cast_natCast, abs_le]
    constructor <;> linarith

/-- **A side of the box is a side of the frame.** -/
theorem ceil_side {w h s t : ℕ} (hsum : w * s + h * t = n) (hpos : 1 ≤ n) (hn : n ≤ 2 ^ 30)
    (hw : w ≤ 2 ^ 30) (hh : h ≤ 2 ^ 30) (hb : IsNear b s) (hc : IsNear c t) :
    ((Scalar.ceil (Scalar.ofInt w * b + Scalar.ofInt h * c - tolerance)).clamp 1 maxSide).toNat =
      n := by
  have hproduct : ∀ {l k : ℕ} {d : Float}, l ≤ 2 ^ 30 → l * k ≤ n → IsNear d k →
      Within 1 (Scalar.ofInt l * d) (l * k) := by
    intro l k d hl hlk hd
    have hlq : (l : ℚ) ≤ 2 ^ 30 := by exact_mod_cast hl
    have hhalf := isHalf_int (n := (l * k : ℕ)) (by rw [Nat.abs_cast]; omega)
    push_cast at hhalf
    exact hd.mul (denotes_ofNat (by omega)) (by rwa [Nat.abs_cast]) hhalf
  have hcast : (w * s + h * t : ℚ) = n := by exact_mod_cast hsum
  have hhalf : IsHalf (n : ℚ) := isHalf_int (n := n) (by rw [Nat.abs_cast]; omega)
  have hlength := (hproduct hw (by omega) hb).add (hproduct hh (by omega) hc)
    (hcast ▸ hhalf) (by norm_num)
  rw [hcast] at hlength
  obtain ⟨x, hx, hle⟩ := hlength
  obtain ⟨y, hy, hlow, hhigh⟩ := denotes_tolerance
  -- the tolerance outweighs the grains, but not by a pixel
  have hle := abs_le.1 hle
  push_cast at hle
  have hfloor := hhalf.isShort (k := -7) (by norm_num)
  have hroof := hhalf.isShort (k := -2) (by norm_num)
  push_cast at hfloor hroof
  obtain ⟨z, hz, hz1, hz2⟩ := (hx.sub hy).between hfloor hroof (by linarith) (by linarith)
  rw [hz.ceil_eq hpos (by linarith) (by linarith),
    Whole.clamp_of_mem (by omega) (by simp only [maxSide]; omega), Int.toNat_natCast]

/-- The pixel nearest to a place that is off by two grains at most. -/
theorem pin_eq {i : ℤ} (hb : Within 2 b i) (h : 0 ≤ i) (hi : i < n) (hn : n ≤ 2 ^ 30) :
    Spot.pin n b = i := by
  obtain ⟨m, rfl⟩ := Int.eq_ofNat_of_zero_le h
  obtain ⟨y, hy, hle⟩ := hb
  have hnear : |y - m| < 1 / 2 := hle.trans_lt (by norm_num)
  have hlast : (m : ℤ) ≤ Extent.lastIndex n := by
    simp only [Extent.lastIndex, maxCoordinate]
    omega
  rw [Spot.pin, hy.nearest_eq hnear, Whole.clamp_of_mem h hlast]

end Sides

/-- The frame has pixels, and its sides are no longer than `2 ^ 30` of them. -/
structure Extent.IsModest (e : Extent) : Prop where
  width_pos : 1 ≤ e.width
  width_le : e.width ≤ 2 ^ 30
  height_pos : 1 ≤ e.height
  height_le : e.height ≤ 2 ^ 30

/-- Sine and cosine of a right angle are finite, and right up to `2e-16`. -/
structure Trig.IsTrue (trig : Trig Float) (a : RightAngle) : Prop where
  sin : ∃ y, Denotes (trig.sin (trig.radians a.degrees)) y ∧ |y - a.sin| ≤ 2e-16
  cos : ∃ y, Denotes (trig.cos (trig.radians a.degrees)) y ∧ |y - a.cos| ≤ 2e-16

namespace RightAngle

variable {trig : Trig Float} {a : RightAngle} {e : Extent} {p : Spot}

theorem isModest_extent (a : RightAngle) (he : e.IsModest) : (a.extent e).IsModest := by
  cases a
  · exact ⟨he.height_pos, he.height_le, he.width_pos, he.width_le⟩
  · exact he
  · exact ⟨he.height_pos, he.height_le, he.width_pos, he.width_le⟩

theorem direction_eq (trig : Trig Float) (a : RightAngle) :
    trig.direction a.degrees =
      (trig.sin (trig.radians a.degrees), trig.cos (trig.radians a.degrees)) := by
  rw [Trig.direction, normalize_degrees]

theorem isNear_of_le {b : Float} {x : ℚ} (h : ∃ y, Denotes b y ∧ |y - x| ≤ 2e-16) :
    IsNear b x := by
  obtain ⟨y, hy, hle⟩ := h
  exact ⟨y, hy, hle.trans (by norm_num)⟩

theorem abs_sin_le (a : RightAngle) : |a.sin| ≤ 1 := by
  cases a <;> decide

theorem abs_cos_le (a : RightAngle) : |a.cos| ≤ 1 := by
  cases a <;> decide

/-- **The box of a frame turned by a right angle is the turned frame.** -/
theorem turned_eq (ht : trig.IsTrue a) (he : e.IsModest) :
    e.turned trig a.degrees = a.extent e := by
  have hsin := (isNear_of_le ht.sin).abs a.abs_sin_le
  have hcos := (isNear_of_le ht.cos).abs a.abs_cos_le
  have hmodest := a.isModest_extent he
  have hwidth : e.width * a.cos.natAbs + e.height * a.sin.natAbs = (a.extent e).width := by
    cases a <;> simp [sin, cos, extent]
  have hheight : e.width * a.sin.natAbs + e.height * a.cos.natAbs = (a.extent e).height := by
    cases a <;> simp [sin, cos, extent]
  unfold Extent.turned
  rw [direction_eq]
  exact congrArg₂ Extent.mk
    (ceil_side hwidth hmodest.width_pos hmodest.width_le he.width_le he.height_le hcos hsin)
    (ceil_side hheight hmodest.height_pos hmodest.height_le he.width_le he.height_le hsin hcos)

theorem isHalf_turned (a : RightAngle) {x y : ℚ} (hx : IsHalf x) (hy : IsHalf y) :
    IsHalf (x * a.cos - y * a.sin) ∧ IsHalf (x * a.sin + y * a.cos) ∧
      IsHalf (x * a.cos) ∧ IsHalf (x * a.sin) ∧ IsHalf (y * a.cos) ∧ IsHalf (y * a.sin) := by
  have hzero : IsHalf 0 := ⟨0, by norm_num, by norm_num⟩
  have hneg : ∀ {z}, IsHalf z → IsHalf (-z) := by
    rintro _ ⟨n, hn, rfl⟩
    exact ⟨-n, by rwa [abs_neg], by push_cast; ring⟩
  cases a <;> simp [sin, cos, hx, hy, hzero, hneg hx, hneg hy]

/-- **Where a spot lands** is off by two grains at most. -/
theorem within_imageIn (ht : trig.IsTrue a) (he : e.IsModest) (hp : e.Contains p) :
    Within 2 (p.imageIn trig e (a.extent e) a.degrees).1 (a.spot e p).x ∧
      Within 2 (p.imageIn trig e (a.extent e) a.degrees).2 (a.spot e p).y := by
  have hsin := isNear_of_le ht.sin
  have hcos := isNear_of_le ht.cos
  have hmodest := a.isModest_extent he
  obtain ⟨hqx, hqx', hqy, hqy'⟩ := a.contains_spot hp
  obtain ⟨hpx, hpx', hpy, hpy'⟩ := hp
  obtain ⟨hdx, hx, hxle⟩ := denotes_offset hpx hpx' he.width_le
  obtain ⟨hdy, hy, hyle⟩ := denotes_offset hpy hpy' he.height_le
  obtain ⟨hcross, hcross', hxc, hxs, hyc, hys⟩ := a.isHalf_turned hx hy
  have hmiddle := Within.of_denotes (denotes_middle hmodest.width_pos hmodest.width_le)
  have hmiddle' := Within.of_denotes (denotes_middle hmodest.height_pos hmodest.height_le)
  -- the exact turn
  have hplace : (p.x - (e.width - 1) / 2 : ℚ) * a.cos - (p.y - (e.height - 1) / 2) * a.sin +
      ((a.extent e).width - 1) / 2 = (a.spot e p).x := by
    cases a <;> simp only [sin, cos, extent, spot] <;> push_cast <;> ring
  have hplace' : (p.x - (e.width - 1) / 2 : ℚ) * a.sin + (p.y - (e.height - 1) / 2) * a.cos +
      ((a.extent e).height - 1) / 2 = (a.spot e p).y := by
    cases a <;> simp only [sin, cos, extent, spot] <;> push_cast <;> ring
  have hspot : IsHalf ((a.spot e p).x : ℚ) :=
    isHalf_int (abs_le.2 ⟨by omega, by have := hmodest.width_le; omega⟩)
  have hspot' : IsHalf ((a.spot e p).y : ℚ) :=
    isHalf_int (abs_le.2 ⟨by omega, by have := hmodest.height_le; omega⟩)
  have hturn := (hcos.mul hdx hxle hxc).sub (hsin.mul hdy hyle hys) hcross (by norm_num)
  have hturn' := (hsin.mul hdx hxle hxs).add (hcos.mul hdy hyle hyc) hcross' (by norm_num)
  have hland := hturn.add hmiddle (by rw [hplace]; exact hspot) (by norm_num)
  have hland' := hturn'.add hmiddle' (by rw [hplace']; exact hspot') (by norm_num)
  rw [hplace] at hland
  rw [hplace'] at hland'
  unfold Spot.imageIn
  rw [direction_eq]
  exact ⟨hland, hland'⟩

/-- **A spot that is turned in machine arithmetic** lands on the place its pixel moves to. -/
theorem turnInto_eq (ht : trig.IsTrue a) (he : e.IsModest) (hp : e.Contains p) :
    p.turnInto trig e (a.extent e) a.degrees = a.spot e p := by
  have hmodest := a.isModest_extent he
  obtain ⟨hx, hx', hy, hy'⟩ := a.contains_spot hp
  obtain ⟨hland, hland'⟩ := within_imageIn ht he hp
  exact congrArg₂ Spot.mk (pin_eq hland hx hx' hmodest.width_le)
    (pin_eq hland' hy hy' hmodest.height_le)

theorem mem_degrees {degrees : Float} (h : degrees ∈ [90.0, 180.0, 270.0]) :
    ∃ a : RightAngle, degrees = a.degrees := by
  simp only [List.mem_cons, List.not_mem_nil, or_false] at h
  rcases h with rfl | rfl | rfl
  · exact ⟨quarter, rfl⟩
  · exact ⟨half, rfl⟩
  · exact ⟨threeQuarters, rfl⟩

end RightAngle

/-- **Pictures and spots turn together** by right angles, if sine and cosine are right up to
`2e-16`. The turned picture has the size of the box, the turned spot lies on the pixel that
has moved there, and it comes back to where it was when it is turned back. -/
theorem Raster.turn_rightAngle (instruments : Instruments)
    (htrue : ∀ a, instruments.spots.IsTrue a) {picture : Picture}
    (hmodest : picture.extent.IsModest) {degrees : Float}
    (hdegrees : degrees ∈ [90.0, 180.0, 270.0]) :
    let e := picture.extent
    let turned := picture.turn instruments degrees
    turned.extent = e.turned instruments.spots degrees ∧
    ∀ p, e.Contains p →
      let q := p.turn instruments.spots e degrees
      turned.extent.Contains q ∧
      turned.get? q.x.toNat q.y.toNat = picture.get? p.x.toNat p.y.toNat ∧
      q.turnInto instruments.spots turned.extent e (Angle.inverse degrees) = p := by
  obtain ⟨a, rfl⟩ := RightAngle.mem_degrees hdegrees
  intro e turned
  have hturned : turned = a.raster picture := a.turn_eq instruments picture
  have hbox : e.turned instruments.spots a.degrees = a.extent e :=
    RightAngle.turned_eq (htrue a) hmodest
  have hextent : turned.extent = a.extent e := by rw [hturned, a.extent_raster]
  refine ⟨hextent.trans hbox.symm, fun p hp => ?_⟩
  intro q
  have hq : q = a.spot e p := by
    change p.turnInto instruments.spots e (e.turned instruments.spots a.degrees) a.degrees = _
    rw [hbox, RightAngle.turnInto_eq (htrue a) hmodest hp]
  have hcontains := a.contains_spot hp
  refine ⟨?_, ?_, ?_⟩
  · rw [hextent, hq]
    exact hcontains
  · rw [hturned, hq]
    exact a.get?_raster picture hp
  · have hback := RightAngle.turnInto_eq (htrue a.inverse) (a.isModest_extent hmodest) hcontains
    rw [a.extent_inverse, a.spot_inverse] at hback
    rw [hextent, hq, a.inverse_degrees]
    exact hback

/-- Sines and cosines of right angles as a machine may find them. -/
def Instruments.rough : Instruments where
  spots :=
    { pi := 3.14159265358979323846
      sin := fun r => if r < 2.0 then 1.0 else if r < 4.0 then 1.2246467991473532e-16 else -1.0
      cos := fun r => if r < 2.0 then 6.123233995736766e-17 else if r < 4.0 then -1.0 else
        -1.8369701987210297e-16 }
  pixels := .single

theorem Instruments.isTrue_rough (a : RightAngle) : rough.spots.IsTrue a := by
  have hclose : ∀ {b c : Float} {x : ℚ} (s m e) (hm : 0 < m), b = c →
      c.toModel.unpack = .finite s m e hm → |signed s (magnitude m e) - x| ≤ 2e-16 →
        ∃ y, Denotes b y ∧ |y - x| ≤ 2e-16 := by
    intro b c x s m e hm heq hunpack hle
    refine ⟨_, ?_, hle⟩
    rw [heq, Denotes, hunpack]
    rfl
  cases a
  · refine ⟨hclose (c := 1.0) .positive 4503599627370496 (-52) (by decide) (by decide +kernel)
      rfl ?_, hclose (c := 6.123233995736766e-17) .positive 4967757600021511 (-106) (by decide)
      (by decide +kernel) rfl ?_⟩
    · norm_num [RightAngle.sin, signed, magnitude]
    · norm_num [RightAngle.cos, signed, magnitude]
  · refine ⟨hclose (c := 1.2246467991473532e-16) .positive 4967757600021511 (-105) (by decide)
      (by decide +kernel) rfl ?_, hclose (c := -1.0) .negative 4503599627370496 (-52) (by decide)
      (by decide +kernel) rfl ?_⟩
    · norm_num [RightAngle.sin, signed, magnitude]
    · norm_num [RightAngle.cos, signed, magnitude]
  · refine ⟨hclose (c := -1.0) .negative 4503599627370496 (-52) (by decide) (by decide +kernel)
      rfl ?_, hclose (c := -1.8369701987210297e-16) .negative 7451636400032266 (-105) (by decide)
      (by decide +kernel) rfl ?_⟩
    · norm_num [RightAngle.sin, signed, magnitude]
    · norm_num [RightAngle.cos, signed, magnitude]

/-- A picture of six pixels, one of them red. -/
def redCorner : Picture :=
  .tabulate ⟨3, 2⟩ fun x y => if x = 2 ∧ y = 0 then ⟨255, 0, 0, 255⟩ else .clear

theorem Raster.turn_rightAngle_redCorner :
    (redCorner.turn .rough 90.0).extent = ⟨2, 3⟩ ∧
    Spot.turn Instruments.rough.spots ⟨3, 2⟩ 90.0 ⟨2, 0⟩ = ⟨1, 2⟩ ∧
    (redCorner.turn .rough 90.0).get? 1 2 = some ⟨255, 0, 0, 255⟩ ∧
    Spot.turnInto Instruments.rough.spots ⟨2, 3⟩ ⟨3, 2⟩ (Angle.inverse 90.0) ⟨1, 2⟩ = ⟨2, 0⟩ := by
  have hmodest : redCorner.extent.IsModest := by
    constructor <;> decide
  have hbox : Extent.turned Instruments.rough.spots ⟨3, 2⟩ 90.0 = ⟨2, 3⟩ := by decide +kernel
  have hspot : Spot.turn Instruments.rough.spots ⟨3, 2⟩ 90.0 ⟨2, 0⟩ = ⟨1, 2⟩ := by
    decide +kernel
  have hred : redCorner.get? 2 0 = some ⟨255, 0, 0, 255⟩ := by decide
  have hdegrees : (90.0 : Float) ∈ [90.0, 180.0, 270.0] := List.mem_cons_self
  obtain ⟨hextent, hpixels⟩ :=
    turn_rightAngle .rough Instruments.isTrue_rough hmodest hdegrees
  have hextent : (redCorner.turn .rough 90.0).extent = ⟨2, 3⟩ := hextent.trans hbox
  obtain ⟨-, hpixel, hback⟩ := hpixels ⟨2, 0⟩ (by decide)
  have hq : Spot.turn Instruments.rough.spots redCorner.extent 90.0 ⟨2, 0⟩ = ⟨1, 2⟩ := hspot
  rw [hq] at hpixel hback
  rw [hextent] at hback
  exact ⟨hextent, hspot, hpixel.trans hred, hback⟩

end Reframe
