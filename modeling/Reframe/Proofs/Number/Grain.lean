import Reframe.Angle
import Reframe.Proofs.Number.Signed

/-!
# Grains

Lengths and places are halves of integers. There are `2 ^ 22` grains to a pixel, and a few
grains beside a half are still stored. So numbers that are off by some grains keep to that
in machine arithmetic: errors add up, but rounding adds none. A product with what is next
to a whole number is off by a grain at most, however long a side is.

* `Binary.IsHalf`, `Binary.Within`: halves, and what is some grains off.
* `Binary.IsHalf.within`: rounding adds no grain.
* `Binary.Within.add`, `Binary.Within.sub`, `Binary.IsNear.mul`: errors add up.
-/

namespace Reframe.Binary

variable {b c : Float} {x y z r : ℚ} {j k n : ℕ}

/-- The rational is half an integer, and no longer than a side can be. -/
def IsHalf (x : ℚ) : Prop :=
  ∃ n : ℤ, |n| ≤ 2 ^ 31 ∧ x = n / 2

/-- The number differs from a rational by some grains at most. -/
def Within (k : ℕ) (b : Float) (x : ℚ) : Prop :=
  ∃ y, Denotes b y ∧ |y - x| ≤ k / 2 ^ 22

/-- The number differs from a rational by so little that it takes the longest side to make
a grain of it. -/
def IsNear (b : Float) (x : ℚ) : Prop :=
  ∃ y, Denotes b y ∧ |y - x| ≤ 1 / 2 ^ 52

theorem isHalf_int {n : ℤ} (h : |n| ≤ 2 ^ 30) : IsHalf n := by
  refine ⟨2 * n, ?_, by push_cast; ring⟩
  rw [abs_mul, abs_two]
  omega

/-- Some grains beside a half are stored. -/
theorem IsHalf.isShort (h : IsHalf x) {k : ℤ} (hk : |k| ≤ 16) : IsShort (x + k / 2 ^ 22) := by
  obtain ⟨n, hn, rfl⟩ := h
  have hn := abs_le.1 hn
  have hk := abs_le.1 hk
  refine ⟨n * 2 ^ 21 + k, 22, abs_le.2 ⟨by omega, by omega⟩, by norm_num, ?_⟩
  push_cast
  ring

theorem IsHalf.denotes (hx : IsHalf x) (h : IsNearest b x) : Denotes b x := by
  have hshort := hx.isShort (k := 0) (by norm_num)
  rw [Int.cast_zero, zero_div, add_zero] at hshort
  exact h.denotes hshort

/-- **Rounding adds no grain.** -/
theorem IsHalf.within (hx : IsHalf x) (h : IsNearest b z) (hk : k ≤ 16)
    (hz : |z - x| ≤ k / 2 ^ 22) : Within k b x := by
  have hz := abs_le.1 hz
  have hlo := hx.isShort (k := -k) (by rw [abs_neg, Nat.abs_cast]; exact_mod_cast hk)
  have hhi := hx.isShort (k := k) (by rw [Nat.abs_cast]; exact_mod_cast hk)
  push_cast at hlo hhi
  obtain ⟨y, hy, hle, hge⟩ := h.between hlo hhi (by linarith) (by linarith)
  exact ⟨y, hy, abs_le.2 ⟨by linarith, by linarith⟩⟩

theorem Within.of_denotes (h : Denotes b x) : Within 0 b x :=
  ⟨x, h, by rw [sub_self, abs_zero, Nat.cast_zero, zero_div]⟩

theorem Within.add (hb : Within j b x) (hc : Within k c y) (hxy : IsHalf (x + y))
    (hjk : j + k ≤ 16) : Within (j + k) (b + c) (x + y) := by
  obtain ⟨x', hx', hj⟩ := hb
  obtain ⟨y', hy', hk⟩ := hc
  refine hxy.within (hx'.add hy') hjk ?_
  have hparts : x' + y' - (x + y) = (x' - x) + (y' - y) := by ring
  rw [hparts, Nat.cast_add, add_div]
  exact (abs_add_le _ _).trans (add_le_add hj hk)

theorem Within.sub (hb : Within j b x) (hc : Within k c y) (hxy : IsHalf (x - y))
    (hjk : j + k ≤ 16) : Within (j + k) (b - c) (x - y) := by
  obtain ⟨x', hx', hj⟩ := hb
  obtain ⟨y', hy', hk⟩ := hc
  refine hxy.within (hx'.sub hy') hjk ?_
  have hparts : x' - y' - (x - y) = (x' - x) - (y' - y) := by ring
  rw [hparts, Nat.cast_add, add_div]
  exact (abs_sub _ _).trans (add_le_add hj hk)

/-- A product with what is nearly a whole number is off by a grain at most. -/
theorem IsNear.mul (hc : IsNear c r) (hb : Denotes b x) (hx : |x| ≤ 2 ^ 30)
    (hxr : IsHalf (x * r)) : Within 1 (b * c) (x * r) := by
  obtain ⟨y, hy, hle⟩ := hc
  refine hxr.within (hb.mul hy) (by norm_num) ?_
  have hfactor : x * y - x * r = x * (y - r) := by ring
  rw [hfactor, abs_mul]
  calc |x| * |y - r| ≤ 2 ^ 30 * (1 / 2 ^ 52) :=
        mul_le_mul hx hle (abs_nonneg _) (by positivity)
    _ = (1 : ℕ) / 2 ^ 22 := by norm_num

/-- What is nearly a whole number has a size that nearly is one. -/
theorem IsNear.abs {n : ℤ} (h : IsNear b n) (hn : |n| ≤ 1) :
    IsNear (Scalar.abs b) (n.natAbs : ℕ) := by
  obtain ⟨y, hy, hle⟩ := h
  have hcast : ((n.natAbs : ℕ) : ℚ) = |(n : ℚ)| := by rw [Nat.cast_natAbs, Int.cast_abs]
  have hends : ∀ (m : ℕ) (k : ℤ), m ≤ 1 → |k| ≤ 1 → IsShort (m + k / 2 ^ 52) := by
    intro m k hm hk
    have hk := abs_le.1 hk
    refine ⟨m * 2 ^ 52 + k, 52, abs_le.2 ⟨by omega, by omega⟩, by norm_num, ?_⟩
    push_cast
    ring
  have hn := abs_le.1 hn
  have hle : |(|y| - ((n.natAbs : ℕ) : ℚ))| ≤ 1 / 2 ^ 52 := by
    rw [hcast]
    exact (abs_abs_sub_abs_le y n).trans hle
  have hle := abs_le.1 hle
  have hlo := hends n.natAbs (-1) (by omega) (by norm_num)
  have hhi := hends n.natAbs 1 (by omega) (by norm_num)
  push_cast at hlo hhi
  obtain ⟨z, hz, hz1, hz2⟩ := hy.abs.between hlo hhi (by linarith) (by linarith)
  exact ⟨z, hz, abs_le.2 ⟨by linarith, by linarith⟩⟩

theorem denotes_one : Denotes (1.0 : Float) 1 := by
  have hbits : (1.0 : Float) = Float.ofBits 0x3FF0000000000000 := by decide +kernel
  rw [hbits]
  exact hasValue_one.denotes

theorem denotes_two : Denotes (2.0 : Float) 2 := by
  refine HasValue.denotes ⟨4503599627370496, -51, by decide, rfl, ?_⟩
  norm_num [magnitude]

/-- The tolerance is between four and five grains. -/
theorem denotes_tolerance :
    ∃ y, Denotes (tolerance : Float) y ∧ 4 / 2 ^ 22 ≤ y ∧ y ≤ 5 / 2 ^ 22 := by
  refine ⟨magnitude 4722366482869645 (-72), HasValue.denotes
    ⟨4722366482869645, -72, by decide, rfl, rfl⟩, ?_, ?_⟩
  · norm_num [magnitude]
  · norm_num [magnitude]

end Reframe.Binary
