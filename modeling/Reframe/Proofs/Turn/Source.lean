import Reframe.Proofs.Turn.Canvas

/-!
# A turned spot lands next to where its pixel came from

A pixel of a turned picture is mixed from the canvas: its place is turned back about the middle
of the canvas, where frame and box are centred, each up to half a pixel. A spot on the turned
picture is turned back about the middle of the box instead, then rounded and kept in the frame.
Both turn by the same angle, so they differ by what the middles differ, turned, and by what is
lost to rounding.

* `Canvas.source`, `Raster.get?_oblique`: the point of the canvas that a pixel is mixed at.
* `Extent.source`: the same point, in the frame of the picture.
* `Canvas.source_exact`: that point, told from the middles.
* `Spot.turnInto_source`: **a spot that is turned back lands within three pixels** of it.
-/

namespace Reframe

/-- The point of the canvas at which a pixel of the part that is cut out is mixed. -/
def Canvas.source {α : Type} [Scalar α] (trig : Trig α) (canvas : Canvas) (radians : α)
    (x y : ℕ) : α × α :=
  (Affine.turnBack trig radians (Scalar.ofInt canvas.side / 2.0)).image
    (canvas.cutLeft + x) (canvas.cutTop + y)

/-- **A pixel of a turned picture is mixed at its source.** -/
theorem Raster.get?_oblique (instruments : Instruments) (picture : Picture) (degrees : Float)
    {x y : ℕ} :
    let canvas := Canvas.layout instruments.spots picture.extent degrees
    let radians := Binary.narrow (instruments.spots.radians degrees)
    x < canvas.cutExtent.width → y < canvas.cutExtent.height →
      (picture.oblique instruments degrees).get? x y =
        some ((picture.onCanvas canvas).between (canvas.source instruments.pixels radians x y)) :=
  fun hx hy => get?_tabulate _ _ hx hy

/-- The point of a frame that a pixel of its turned copy is taken from, in exact arithmetic: the
source on the canvas, from where the frame is pasted. Next to no turn the copy is the frame. -/
noncomputable def Extent.source (e : Extent) (degrees : ℝ) (x y : ℕ) : ℝ × ℝ :=
  let rotation := Angle.normalize degrees
  if Angle.isNear rotation 0.0 then (x, y)
  else
    let canvas := Canvas.layout .exact e rotation
    let point := canvas.source .exact (Trig.exact.radians rotation) x y
    (point.1 - canvas.pasteLeft, point.2 - canvas.pasteTop)

variable {s c : ℝ} {e : Extent} {degrees : ℝ} {x y : ℕ}

/-- **Turning back about a point**, over the reals. -/
theorem Affine.turnBack_exact (radians q : ℝ) (x y : ℕ) :
    (turnBack .exact radians q).image x y =
      ((x - q) * Real.cos radians + (y - q) * Real.sin radians + q,
        (y - q) * Real.cos radians - (x - q) * Real.sin radians + q) := by
  have himage : (turnBack .exact radians q).image x y =
      (Real.cos radians * x + Real.sin radians * y +
          (Real.cos radians * -q + Real.sin radians * -q + q),
        -Real.sin radians * x + Real.cos radians * y +
          (-Real.sin radians * -q + Real.cos radians * -q + q)) := by
    simp only [← Int.cast_natCast (R := ℝ)]
    rfl
  rw [himage]
  ext
  · dsimp only
    ring
  · dsimp only
    ring

namespace Canvas

/-- What is put in the middle of a side is there up to half a pixel. -/
theorem exists_half {side length : ℕ} (h : length ≤ side) :
    ∃ odd : ℝ, 0 ≤ odd ∧ odd ≤ 1 ∧
      (side : ℝ) / 2 - ((side - length) / 2 : ℕ) = (length + odd) / 2 := by
  have hodd : (side - length) % 2 ≤ 1 := Nat.le_of_lt_succ (Nat.mod_lt _ Nat.two_pos)
  have hparts : side = length + 2 * ((side - length) / 2) + (side - length) % 2 := by omega
  have hparts : (side : ℝ) =
      length + 2 * ((side - length) / 2 : ℕ) + ((side - length) % 2 : ℕ) := by
    exact_mod_cast hparts
  exact ⟨((side - length) % 2 : ℕ), Nat.cast_nonneg _, by exact_mod_cast hodd, by linarith⟩

/-- **The source of a pixel**, from the middle of the canvas. -/
theorem source_exact (canvas : Canvas) (hd : Trig.exact.direction degrees = (s, c)) (x y : ℕ) :
    let dx : ℝ := canvas.cutLeft + x - canvas.side / 2
    let dy : ℝ := canvas.cutTop + y - canvas.side / 2
    canvas.source .exact (Trig.exact.radians (Angle.normalize degrees)) x y =
      (dx * c + dy * s + canvas.side / 2, dy * c - dx * s + canvas.side / 2) := by
  intro dx dy
  obtain ⟨rfl, rfl⟩ := Prod.mk.inj hd
  have hcentre : (Scalar.ofInt canvas.side : ℝ) / 2.0 = canvas.side / 2 := by
    have h2 : (2.0 : ℝ) = 2 := by norm_num
    rw [h2]
    rfl
  rw [source, hcentre, Affine.turnBack_exact]
  push_cast
  rfl

end Canvas

namespace Extent

/-- A turned copy is taken from the canvas. -/
theorem source_of_not_isNear (h : Angle.isNear (Angle.normalize degrees) 0.0 = false) (x y : ℕ) :
    let canvas := Canvas.layout .exact e (Angle.normalize degrees)
    let point := canvas.source .exact (Trig.exact.radians (Angle.normalize degrees)) x y
    e.source degrees x y = (point.1 - canvas.pasteLeft, point.2 - canvas.pasteTop) :=
  if_neg (Bool.not_eq_true _ ▸ h)

/-- Next to no turn the copy is the frame. -/
theorem source_of_normalize_eq_zero (h : Angle.normalize degrees = 0) (x y : ℕ) :
    e.source degrees x y = ((x : ℝ), (y : ℝ)) :=
  if_pos (h ▸ Angle.isNear_zero_self)

/-- **The source of a pixel, from the middles of the box and of the frame**: each is up to half a
pixel off the middle of the canvas. -/
theorem source_of_isOblique (he : ¬ e.IsEmpty) (hw : e.width ≤ 2 ^ 24) (hh : e.height ≤ 2 ^ 24)
    (h : Angle.IsOblique (Angle.normalize degrees)) (hd : Trig.exact.direction degrees = (s, c))
    (x y : ℕ) :
    let box := e.turned .exact degrees
    ∃ a b u v : ℝ, (0 ≤ a ∧ a ≤ 1) ∧ (0 ≤ b ∧ b ≤ 1) ∧ (0 ≤ u ∧ u ≤ 1) ∧ (0 ≤ v ∧ v ≤ 1) ∧
      e.source degrees x y =
        ((x - (box.width + a) / 2) * c + (y - (box.height + b) / 2) * s + (e.width + u) / 2,
          (y - (box.height + b) / 2) * c - (x - (box.width + a) / 2) * s + (e.height + v) / 2) := by
  intro box
  have hsource := source_of_not_isNear (e := e) (h.not_isNear 0 (by norm_num)) x y
  extract_lets canvas point at hsource
  have hholds : canvas.Holds e := Canvas.holds_layout he hw hh _
  have hcut : canvas.cutExtent = box :=
    (Canvas.cutExtent_layout he hw hh _).trans (e.turned_normalize degrees)
  have hpoint := canvas.source_exact hd x y
  obtain ⟨a, ha0, ha1, ha⟩ := Canvas.exists_half hholds.cutWidth_le
  obtain ⟨b, hb0, hb1, hb⟩ := Canvas.exists_half hholds.cutHeight_le
  obtain ⟨u, hu0, hu1, hu⟩ := Canvas.exists_half hholds.width_le
  obtain ⟨v, hv0, hv1, hv⟩ := Canvas.exists_half hholds.height_le
  refine ⟨a, b, u, v, ⟨ha0, ha1⟩, ⟨hb0, hb1⟩, ⟨hu0, hu1⟩, ⟨hv0, hv1⟩, ?_⟩
  have hleft : (canvas.side : ℝ) / 2 - canvas.cutLeft = (box.width + a) / 2 := hcut ▸ ha
  have htop : (canvas.side : ℝ) / 2 - canvas.cutTop = (box.height + b) / 2 := hcut ▸ hb
  have hpasteLeft : (canvas.side : ℝ) / 2 - canvas.pasteLeft = (e.width + u) / 2 := hu
  have hpasteTop : (canvas.side : ℝ) / 2 - canvas.pasteTop = (e.height + v) / 2 := hv
  rw [hsource, ← hleft, ← htop, ← hpasteLeft, ← hpasteTop, show point = _ from hpoint]
  ext
  · dsimp only
    ring
  · dsimp only
    ring

end Extent

namespace Spot

/-- What the middles differ by, turned, is no longer than a pixel and a half on either axis. -/
theorem abs_middles_le {a b u : ℝ} (hcircle : s ^ 2 + c ^ 2 = 1) (ha : 0 ≤ a ∧ a ≤ 1)
    (hb : 0 ≤ b ∧ b ≤ 1) (hu : 0 ≤ u ∧ u ≤ 1) :
    |(1 + a) / 2 * c + (1 + b) / 2 * s - (1 + u) / 2| ≤ 5 / 2 := by
  have hsides := abs_add_abs_le hcircle
  have hlength : ∀ {t : ℝ} (k : ℝ), 0 ≤ t ∧ t ≤ 1 → |(1 + t) / 2 * k| ≤ |k| := by
    intro t k ht
    rw [abs_mul, abs_of_nonneg (by linarith)]
    exact mul_le_of_le_one_left (abs_nonneg k) (by linarith)
  have hsum := abs_add_le ((1 + a) / 2 * c) ((1 + b) / 2 * s)
  have hturned : |(1 + a) / 2 * c + (1 + b) / 2 * s| ≤ 3 / 2 := by
    linarith [hlength c ha, hlength s hb]
  rw [abs_le] at hturned ⊢
  constructor <;> linarith

/-- A turn that is hardly one moves no offset far. -/
theorem abs_sub_turned_le {dx dy : ℝ} (hs : |s| ≤ 1 / 2 ^ 25) (hc : |c - 1| ≤ 1 / 2 ^ 25)
    (hx : |dx| ≤ 2 ^ 25) (hy : |dy| ≤ 2 ^ 25) : |dx - (dx * c + dy * s)| ≤ 2 := by
  have hxc : |dx * (c - 1)| ≤ 1 := by
    calc |dx * (c - 1)| = |dx| * |c - 1| := abs_mul _ _
      _ ≤ 2 ^ 25 * (1 / 2 ^ 25) := mul_le_mul hx hc (abs_nonneg _) (by positivity)
      _ = 1 := by norm_num
  have hys : |dy * s| ≤ 1 := by
    calc |dy * s| = |dy| * |s| := abs_mul _ _
      _ ≤ 2 ^ 25 * (1 / 2 ^ 25) := mul_le_mul hy hs (abs_nonneg _) (by positivity)
      _ = 1 := by norm_num
  have hsplit : dx - (dx * c + dy * s) = -(dx * (c - 1)) - dy * s := by ring
  rw [hsplit]
  rw [abs_le] at hxc hys ⊢
  constructor <;> linarith

/-- The offset of a place of a side from what is up to half a pixel off its middle. -/
theorem abs_sub_half_le {x n : ℕ} {a : ℝ} (h : x < n) (hn : n ≤ 2 ^ 25) (ha : 0 ≤ a ∧ a ≤ 1) :
    |(x : ℝ) - (n + a) / 2| ≤ 2 ^ 25 := by
  have hlow : (0 : ℝ) ≤ x := Nat.cast_nonneg x
  have hhigh : (x : ℝ) + 1 ≤ n := by exact_mod_cast h
  have hn : (n : ℝ) ≤ 2 ^ 25 := by exact_mod_cast hn
  rw [abs_le]
  constructor <;> linarith

/-- Next to no turn a spot stays where it is. -/
theorem imageIn_of_normalize_eq_zero (he : ¬ e.IsEmpty) (hw : e.width ≤ 2 ^ 24)
    (hh : e.height ≤ 2 ^ 24) (h : Angle.normalize degrees = 0) (x y : ℕ) :
    imageIn .exact (e.turned .exact degrees) e (Angle.inverse degrees) ⟨x, y⟩ =
      ((x : ℝ), (y : ℝ)) := by
  have hd := Trig.direction_of_normalize_eq_zero h
  have hback : Trig.exact.direction (Angle.inverse degrees) = (0, 1) := by
    rcases direction_inverse hd with hd' | ⟨hd', -, -⟩
    · rwa [neg_zero] at hd'
    · exact hd'
  rw [Extent.turned_of_normalize_eq_zero he hw hh h, imageIn_exact _ _ _ hback]
  push_cast
  ext
  · dsimp only
    ring
  · dsimp only
    ring

/-- **A spot that is turned back is next to the source of its pixel**, before it is rounded. -/
theorem abs_imageIn_sub_source_le (he : ¬ e.IsEmpty) (hw : e.width ≤ 2 ^ 24)
    (hh : e.height ≤ 2 ^ 24) (h : Angle.IsOblique degrees)
    (hx : x < (e.turned .exact degrees).width) (hy : y < (e.turned .exact degrees).height) :
    let image := imageIn .exact (e.turned .exact degrees) e (Angle.inverse degrees) ⟨x, y⟩
    |image.1 - (e.source degrees x y).1| ≤ 5 / 2 ∧
      |image.2 - (e.source degrees x y).2| ≤ 5 / 2 := by
  intro image
  rcases hd : Trig.exact.direction degrees with ⟨s, c⟩
  have hcircle := direction_circle hd
  rcases h.normalize_cases with hzero | hoblique
  · have himage : image = ((x : ℝ), (y : ℝ)) := imageIn_of_normalize_eq_zero he hw hh hzero x y
    rw [himage, Extent.source_of_normalize_eq_zero hzero, sub_self, sub_self, abs_zero]
    norm_num
  · obtain ⟨a, b, u, v, ha, hb, hu, hv, hsource⟩ :=
      Extent.source_of_isOblique he hw hh hoblique hd x y
    rcases direction_inverse hd with hd' | ⟨hd', hs, hc⟩
    · have hcircle' : (-s) ^ 2 + c ^ 2 = 1 := by rw [neg_sq, hcircle]
      have hdx : image.1 - (e.source degrees x y).1 =
          (1 + a) / 2 * c + (1 + b) / 2 * s - (1 + u) / 2 := by
        simp only [image, imageIn_exact _ _ _ hd', hsource]
        push_cast
        ring
      have hdy : image.2 - (e.source degrees x y).2 =
          (1 + b) / 2 * c + (1 + a) / 2 * -s - (1 + v) / 2 := by
        simp only [image, imageIn_exact _ _ _ hd', hsource]
        push_cast
        ring
      rw [hdx, hdy]
      exact ⟨abs_middles_le hcircle ha hb hu, abs_middles_le hcircle' hb ha hv⟩
    · -- the spot is not turned back, but the turn has moved nothing far
      obtain ⟨hwidth, hheight⟩ := turned_le hw hh degrees
      have hX := abs_sub_half_le hx hwidth ha
      have hY := abs_sub_half_le hy hheight hb
      have hs' : |-s| ≤ 1 / 2 ^ 25 := by rwa [abs_neg]
      have hturned := abs_le.1 (abs_sub_turned_le hs hc hX hY)
      have hturned' := abs_le.1 (abs_sub_turned_le hs' hc hY hX)
      simp only [image, imageIn_exact _ _ _ hd', hsource]
      push_cast
      rw [abs_le, abs_le]
      refine ⟨⟨?_, ?_⟩, ?_, ?_⟩ <;> linarith

/-- Rounding a coordinate and keeping it in the frame adds half a pixel to its distance from a
point of the frame. -/
theorem abs_pin_sub_le_add {n : ℕ} {v z r : ℝ} (hpos : 0 < n) (hn : n ≤ 2 ^ 24) (h0 : 0 ≤ z)
    (h1 : z ≤ n - 1) (h : |v - z| ≤ r) : |(pin n v : ℝ) - z| ≤ r + 1 / 2 := by
  have hlast : Extent.lastIndex n = (n : ℤ) - 1 := by
    unfold Extent.lastIndex maxCoordinate
    omega
  have hlow : ((0 : ℤ) : ℝ) ≤ z := by rwa [Int.cast_zero]
  have hhigh : z ≤ ((n : ℤ) - 1 : ℤ) := by
    push_cast
    exact h1
  calc |(pin n v : ℝ) - z| ≤ |(roundAway v : ℝ) - z| := by
        rw [pin_exact, hlast]
        exact abs_clampInt_sub_le hlow hhigh _
    _ ≤ |(roundAway v : ℝ) - v| + |v - z| := abs_sub_le _ _ _
    _ ≤ r + 1 / 2 := by linarith [abs_roundAway_sub_le v]

end Spot

/-- **A spot on a turned picture lands next to where its pixel came from.** Take any pixel of a
frame that was turned by an oblique angle, and say that it comes from a point among the pixels of
the frame. The spot with the same place, turned back by the inverse angle and kept in the frame,
is at most three pixels from that point on either axis. -/
theorem Spot.turnInto_source (he : ¬ e.IsEmpty) (hw : e.width ≤ 2 ^ 24) (hh : e.height ≤ 2 ^ 24)
    (h : Angle.IsOblique degrees) (hx : x < (e.afterTurn .exact degrees).width)
    (hy : y < (e.afterTurn .exact degrees).height)
    (hcolumn : 0 ≤ (e.source degrees x y).1 ∧ (e.source degrees x y).1 ≤ e.width - 1)
    (hrow : 0 ≤ (e.source degrees x y).2 ∧ (e.source degrees x y).2 ≤ e.height - 1) :
    let rotation := Angle.normalize degrees
    let spot := Spot.turnInto .exact (e.afterTurn .exact degrees) e (Angle.inverse rotation) ⟨x, y⟩
    |(spot.x : ℝ) - (e.source degrees x y).1| ≤ 3 ∧
      |(spot.y : ℝ) - (e.source degrees x y).2| ≤ 3 := by
  obtain ⟨hwidth, hheight⟩ := Extent.sides_pos he
  have hbox := Extent.afterTurn_exact he hw hh h
  rw [hbox] at hx hy
  intro rotation spot
  have hspot : spot =
      Spot.turnInto .exact (e.turned .exact degrees) e (Angle.inverse degrees) ⟨x, y⟩ := by
    simp only [spot, rotation, hbox, Angle.inverse_normalize]
  obtain ⟨hdx, hdy⟩ := abs_imageIn_sub_source_le he hw hh h hx hy
  have hthree : (5 : ℝ) / 2 + 1 / 2 = 3 := by norm_num
  rw [hspot, ← hthree]
  exact ⟨abs_pin_sub_le_add hwidth hw hcolumn.1 hcolumn.2 hdx,
    abs_pin_sub_le_add hheight hh hrow.1 hrow.2 hdy⟩

theorem Angle.normalize_eighth : normalize (45 : ℝ) = 45 :=
  normalize_of_mem (by norm_num) (by norm_num)

theorem Trig.direction_eighth : exact.direction 45 = (Real.sqrt 2 / 2, Real.sqrt 2 / 2) := by
  have hturn : (45 : ℝ) * (Real.pi / 180) = Real.pi / 4 := by ring
  rw [direction_exact, Angle.normalize_eighth, hturn, Real.sin_pi_div_four, Real.cos_pi_div_four]

/-- The middle pixel of a frame of three by four pixels, turned by half a right angle. -/
theorem Spot.turnInto_source_threeByFour :
    let e : Extent := ⟨3, 4⟩
    let source := e.source 45 2 2
    let spot := Spot.turnInto .exact (e.afterTurn .exact 45) e
      (Angle.inverse (Angle.normalize 45)) ⟨(2 : ℕ), (2 : ℕ)⟩
    (¬ e.IsEmpty ∧ e.width ≤ 2 ^ 24 ∧ e.height ≤ 2 ^ 24 ∧ Angle.IsOblique 45 ∧
      e.afterTurn .exact 45 = ⟨5, 5⟩) ∧
    ((0 ≤ source.1 ∧ source.1 ≤ e.width - 1) ∧ 0 ≤ source.2 ∧ source.2 ≤ e.height - 1) ∧
    |(spot.x : ℝ) - source.1| ≤ 3 ∧ |(spot.y : ℝ) - source.2| ≤ 3 := by
  intro e source spot
  have he : ¬ e.IsEmpty := by decide
  have hw : e.width ≤ 2 ^ 24 := by decide
  have hh : e.height ≤ 2 ^ 24 := by decide
  have hoblique : Angle.IsOblique 45 := Angle.isOblique_eighth
  have hlow : (1.4 : ℝ) ≤ Real.sqrt 2 := Real.le_sqrt_of_sq_le (by norm_num)
  have hhigh : Real.sqrt 2 ≤ 1.42 := Real.sqrt_le_iff.2 ⟨by norm_num, by norm_num⟩
  have hside : boxSide (((3 : ℕ) : ℝ) * |Real.sqrt 2 / 2| + ((4 : ℕ) : ℝ) * |Real.sqrt 2 / 2|) =
      5 := by
    rw [abs_of_nonneg (by positivity)]
    exact boxSide_eq (by norm_num) (by norm_num) (by push_cast; linarith) (by push_cast; linarith)
  have hfive : e.turned .exact 45 = ⟨5, 5⟩ := by
    rw [Extent.turned_exact e Trig.direction_eighth, hside]
  have hbox : e.afterTurn .exact 45 = ⟨5, 5⟩ :=
    (Extent.afterTurn_exact he hw hh hoblique).trans hfive
  obtain ⟨a, b, u, v, ha, hb, hu, hv, hsource⟩ :=
    Extent.source_of_isOblique he hw hh (by rwa [Angle.normalize_eighth])
      Trig.direction_eighth 2 2
  rw [hfive] at hsource
  have hcolumn : 0 ≤ source.1 ∧ source.1 ≤ e.width - 1 := by
    simp only [source, hsource, e]
    push_cast
    constructor <;> nlinarith
  have hrow : 0 ≤ source.2 ∧ source.2 ≤ e.height - 1 := by
    simp only [source, hsource, e]
    push_cast
    constructor <;> nlinarith
  have hx : 2 < (e.afterTurn .exact 45).width := by rw [hbox]; decide
  have hy : 2 < (e.afterTurn .exact 45).height := by rw [hbox]; decide
  exact ⟨⟨he, hw, hh, hoblique, hbox⟩, ⟨hcolumn, hrow⟩,
    Spot.turnInto_source he hw hh hoblique hx hy hcolumn hrow⟩

end Reframe
