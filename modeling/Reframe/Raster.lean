import Reframe.Extent

/-!
# Rasters

A raster is a frame of pixels, row by row from the top. It is known by its extent
and by the pixel at every place, and it is built from a function on places.

* `Raster.tabulate`: the raster of a function.
* `Raster.get?_tabulate`: its pixels are the function's values.
* `Raster.ext_get?`: rasters with equal extents and equal pixels are equal.
-/

namespace Reframe

/-- A frame of pixels. -/
structure Raster (τ : Type) where
  extent : Extent
  /-- The pixels, row by row. -/
  pixels : Array τ
  /-- There is one pixel for every place. -/
  size_pixels : pixels.size = extent.width * extent.height

namespace Raster

variable {τ υ : Type}

/-- The number of columns. -/
abbrev width (r : Raster τ) : Nat :=
  r.extent.width

/-- The number of rows. -/
abbrev height (r : Raster τ) : Nat :=
  r.extent.height

/-- The pixel at a place of the frame. -/
def get? (r : Raster τ) (x y : Nat) : Option τ :=
  if x < r.width ∧ y < r.height then r.pixels[y * r.width + x]? else none

/-- The pixel at a place of the frame, the default pixel anywhere else. -/
def pixel [Inhabited τ] (r : Raster τ) (x y : Nat) : τ :=
  (r.get? x y).getD default

/-- The raster of a function on places. -/
def tabulate (e : Extent) (f : Nat → Nat → τ) : Raster τ where
  extent := e
  pixels := Array.ofFn fun i : Fin (e.width * e.height) => f (i % e.width) (i / e.width)
  size_pixels := Array.size_ofFn

/-- Changes every pixel by itself. -/
def map (f : τ → υ) (r : Raster τ) : Raster υ where
  extent := r.extent
  pixels := r.pixels.map f
  size_pixels := by rw [Array.size_map, r.size_pixels]

@[simp] theorem extent_tabulate (e : Extent) (f : Nat → Nat → τ) : (tabulate e f).extent = e := rfl

@[simp] theorem extent_map (f : τ → υ) (r : Raster τ) : (r.map f).extent = r.extent := rfl

theorem index_lt {w h x y : Nat} (hx : x < w) (hy : y < h) : y * w + x < w * h :=
  calc
    y * w + x < y * w + w := Nat.add_lt_add_left hx _
    _ = (y + 1) * w := (Nat.succ_mul y w).symm
    _ ≤ h * w := Nat.mul_le_mul_right w hy
    _ = w * h := Nat.mul_comm h w

theorem index_mod {w x y : Nat} (hx : x < w) : (y * w + x) % w = x := by
  rw [Nat.mul_comm, Nat.mul_add_mod, Nat.mod_eq_of_lt hx]

theorem index_div {w x y : Nat} (hx : x < w) : (y * w + x) / w = y := by
  rw [Nat.mul_comm, Nat.mul_add_div (by omega), Nat.div_eq_of_lt hx, Nat.add_zero]

theorem get?_eq_none {r : Raster τ} {x y : Nat} (h : ¬ (x < r.width ∧ y < r.height)) :
    r.get? x y = none :=
  if_neg h

/-- The pixel at a place that is known to lie in the frame. -/
def get (r : Raster τ) (x y : Nat) (hx : x < r.width) (hy : y < r.height) : τ :=
  have := r.size_pixels ▸ index_lt hx hy
  r.pixels[y * r.width + x]

theorem get?_eq_some {r : Raster τ} {x y : Nat} (hx : x < r.width) (hy : y < r.height) :
    r.get? x y = some (r.get x y hx hy) := by
  have := r.size_pixels ▸ index_lt hx hy
  rw [get?, if_pos ⟨hx, hy⟩, Array.getElem?_eq_getElem this]
  rfl

/-- **A tabulated raster has the function's values for pixels.** -/
theorem get?_tabulate (e : Extent) (f : Nat → Nat → τ) {x y : Nat} (hx : x < e.width)
    (hy : y < e.height) : (tabulate e f).get? x y = some (f x y) := by
  rw [get?_eq_some (r := tabulate e f) hx hy]
  simp only [get, tabulate, Array.getElem_ofFn, Option.some.injEq]
  rw [index_mod hx, index_div hx]

@[simp] theorem get?_map (f : τ → υ) (r : Raster τ) (x y : Nat) :
    (r.map f).get? x y = (r.get? x y).map f := by
  by_cases h : x < r.width ∧ y < r.height
  · rw [get?_eq_some (r := r.map f) h.1 h.2, get?_eq_some h.1 h.2]
    simp [get, map]
  · rw [get?_eq_none (r := r.map f) h, get?_eq_none h]
    rfl

/-- **A raster is its extent and its pixels.** -/
theorem ext_get? {r s : Raster τ} (he : r.extent = s.extent)
    (h : ∀ x y, x < r.width → y < r.height → r.get? x y = s.get? x y) : r = s := by
  obtain ⟨e, p, hp⟩ := r
  obtain ⟨e', q, hq⟩ := s
  obtain rfl : e = e' := he
  congr
  refine Array.ext (by rw [hp, hq]) fun i hi hi' => ?_
  have hw : 0 < e.width := by
    rcases Nat.eq_zero_or_pos e.width with h0 | h0
    · rw [h0, Nat.zero_mul] at hp; omega
    · exact h0
  have hx : i % e.width < e.width := Nat.mod_lt _ hw
  have hy : i / e.width < e.height := Nat.div_lt_of_lt_mul (hp ▸ hi)
  have := h _ _ hx hy
  rw [get?_eq_some (r := ⟨e, p, hp⟩) hx hy, get?_eq_some (r := ⟨e, q, hq⟩) hx hy] at this
  simpa only [get, width, Nat.div_add_mod', Option.some.injEq] using this

end Raster

end Reframe
