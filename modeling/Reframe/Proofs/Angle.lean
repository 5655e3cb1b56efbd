import Mathlib.Algebra.Order.ToIntervalMod
import Reframe.Proofs.Number.Exact

/-!
# Angles modulo a whole turn

Over the reals an angle is brought into one turn by whole turns, so that is what any angle
becomes that is whole turns away. What is then less than a millionth of a degree short of a
whole turn is snapped to none, but not what is as little above none. So an angle and its inverse
make up no turn or a whole one, up to a millionth of a degree, and so far an angle is the inverse
of its inverse: next to none the inverse is none, and elsewhere nothing is lost.

* `Angle.wrap_eq_toIcoMod`: wrapping is reduction modulo 360.
* `Angle.exists_turns`: what normalizing adds, whole turns and a snap.
* `Angle.normalize_laws`: **angles are normalized and inverted modulo a whole turn**.
-/

namespace Reframe.Angle

/-- **Wrapping is reduction** into the turn from 0 to 360. -/
theorem wrap_eq_toIcoMod (d : ℝ) : wrap d = toIcoMod (by norm_num : (0 : ℝ) < 360) 0 d := by
  obtain ⟨hlow, hhigh, k, hk⟩ := wrap_mem d
  symm
  rw [toIcoMod_eq_iff]
  refine ⟨⟨hlow, by rwa [zero_add]⟩, -k, ?_⟩
  rw [hk, zsmul_eq_mul]
  push_cast
  ring

/-- Whole turns make no difference. -/
theorem wrap_add_turns (d : ℝ) (k : ℤ) : wrap (d + 360 * k) = wrap d := by
  have hturns : d + 360 * k = d + k • (360 : ℝ) := by rw [zsmul_eq_mul, mul_comm]
  rw [wrap_eq_toIcoMod, wrap_eq_toIcoMod, hturns, toIcoMod_add_zsmul]

theorem normalize_add_turns (d : ℝ) (k : ℤ) : normalize (d + 360 * k) = normalize d := by
  rw [normalize_real, normalize_real, wrap_add_turns]

/-- **Normalizing adds whole turns**, and snaps to none what is just below none then. -/
theorem exists_turns (d : ℝ) : ∃ k : ℤ, normalize d = d + 360 * k ∨
    normalize d = 0 ∧ -(1 / 1000000) < d + 360 * k ∧ d + 360 * k < 0 := by
  obtain ⟨-, hhigh, k, hk⟩ := wrap_mem d
  rw [normalize_real]
  split
  next hnear =>
    refine ⟨k - 1, .inr ⟨rfl, ?_⟩⟩
    push_cast
    constructor <;> linarith
  next hfar => exact ⟨k, .inl hk⟩

@[simp] theorem normalize_inverse (d : ℝ) : normalize (inverse d) = inverse d :=
  normalize_normalize _

theorem normalize_zero : normalize (0 : ℝ) = 0 :=
  normalize_of_mem le_rfl (by norm_num)

/-- The inverse of none is none. -/
theorem inverse_zero : inverse (0 : ℝ) = 0 := by
  rcases inverse_cases 0 with ⟨-, h⟩ | ⟨hfar, -⟩
  · exact h
  · rw [normalize_zero] at hfar
    norm_num at hfar

/-- **The inverse of the inverse** is the angle, unless the angle is next to none. -/
theorem inverse_inverse_cases (d : ℝ) :
    (normalize d < 1 / 1000000 ∧ inverse (inverse d) = 0) ∨
      inverse (inverse d) = normalize d := by
  obtain ⟨-, hhigh⟩ := normalize_mem d
  rcases inverse_cases d with ⟨hnear, hinverse⟩ | ⟨-, hinverse⟩
  · rw [hinverse]
    exact .inl ⟨hnear, inverse_zero⟩
  · rcases inverse_cases (inverse d) with ⟨hnear, -⟩ | ⟨-, hback⟩
    · -- what is left of the turn is not next to none
      rw [normalize_inverse, hinverse] at hnear
      linarith
    · rw [hback, normalize_inverse, hinverse]
      exact .inr (sub_sub_cancel _ _)

/-- **Angles are normalized and inverted modulo a whole turn.** A normalized angle lies in one
turn and not next to its end; it is whole turns away from the angle, up to a millionth of a
degree, stays what it is, and is the same for all angles that are whole turns away. With its
inverse it makes up no turn or a whole one, and it is the inverse of its inverse, up to as
much. -/
theorem normalize_laws (d : ℝ) :
    (0 ≤ normalize d ∧ normalize d ≤ 360 - 1 / 1000000) ∧
    (∃ k : ℤ, |normalize d - (d + 360 * k)| ≤ 1 / 1000000) ∧
    normalize (normalize d) = normalize d ∧
    (∀ k : ℤ, normalize (d + 360 * k) = normalize d) ∧
    (|normalize d + inverse d| ≤ 1 / 1000000 ∨ |normalize d + inverse d - 360| ≤ 1 / 1000000) ∧
    |inverse (inverse d) - normalize d| ≤ 1 / 1000000 := by
  obtain ⟨hlow, hhigh⟩ := normalize_mem d
  refine ⟨⟨hlow, hhigh⟩, ?_, normalize_normalize d, normalize_add_turns d, ?_, ?_⟩
  · obtain ⟨k, hk | ⟨hzero, hbelow, habove⟩⟩ := exists_turns d
    · refine ⟨k, ?_⟩
      rw [hk, sub_self, abs_zero]
      norm_num
    · refine ⟨k, ?_⟩
      rw [hzero, abs_le]
      constructor <;> linarith
  · rcases inverse_cases d with ⟨hnear, hinverse⟩ | ⟨-, hinverse⟩
    · left
      rw [hinverse, add_zero, abs_of_nonneg hlow]
      exact hnear.le
    · right
      rw [hinverse, add_sub_cancel, sub_self, abs_zero]
      norm_num
  · rcases inverse_inverse_cases d with ⟨hnear, hback⟩ | hback
    · rw [hback, zero_sub, abs_neg, abs_of_nonneg hlow]
      exact hnear.le
    · rw [hback, sub_self, abs_zero]
      norm_num

end Reframe.Angle
