import Reframe.Proofs.Number.Remainder
import Reframe.Proofs.Turn.RightAngle

/-!
# Multiples of right angles

An angle is brought into one turn before a picture turns by it. A multiple of 90 degrees,
of either sign and however large, becomes one of four angles: none, in the form of one of
the two zeros, or a right angle, in the very form that the library writes. Nothing is lost
on the way, since remainders are exact.

* `Angle.IsMultiple`: the angle is a multiple of 90 degrees.
* `Angle.denotes_wrap`: what it is within one turn.
* `Angle.normalize_cases`: **none, or a right angle**.
-/

namespace Reframe

open Binary

namespace Angle

variable {degrees : Float}

/-- The angle is a multiple of 90 degrees. -/
def IsMultiple (degrees : Float) : Prop :=
  ∃ k : ℤ, Denotes degrees (k * 90)

theorem denotes_whole_turn : Denotes 360.0 ((4 : ℕ) * 90) := by
  refine HasValue.denotes ⟨6333186975989760, -44, by decide, rfl, ?_⟩
  norm_num [magnitude]

theorem isShort_multiple {k : ℤ} (hk : |k| ≤ 2 ^ 40) : IsShort (k * 90) := by
  have hle := abs_le.1 hk
  have hshort := isShort_int (k := k * 90) (abs_le.2 ⟨by omega, by omega⟩)
  push_cast at hshort
  exact hshort

/-- **A multiple within one turn** is a multiple. -/
theorem denotes_wrap (h : IsMultiple degrees) :
    ∃ j : ℕ, j < 4 ∧ Denotes (wrap degrees) (j * 90) := by
  obtain ⟨k, hk⟩ := h
  have hlow : -4 < k.tmod 4 := by
    have := Int.lt_tmod_of_pos k (by decide : (0 : ℤ) < 4)
    omega
  have hhigh : k.tmod 4 < 4 := Int.tmod_lt_of_pos k (by decide)
  have hnearest : IsNearest (Scalar.remainder degrees 360.0) ((k.tmod 4 : ℤ) * 90) :=
    Denotes.remainder (by decide) (by norm_num) hk denotes_whole_turn
  have hrest : Denotes (Scalar.remainder degrees 360.0) (k.tmod 4 * 90) :=
    hnearest.denotes (isShort_multiple (abs_le.2 ⟨by omega, by omega⟩))
  unfold wrap
  extract_lets r
  split
  next hneg =>
    -- below zero, a whole turn is added
    have hneg : (k.tmod 4 * 90 : ℚ) < 0 := hrest.lt_zero_iff.1 hneg
    have hneg : k.tmod 4 * 90 < 0 := by exact_mod_cast hneg
    refine ⟨(k.tmod 4 + 4).toNat, by omega, ?_⟩
    have hcast : (((k.tmod 4 + 4).toNat : ℕ) : ℚ) = ((k.tmod 4 + 4 : ℤ) : ℚ) := by
      exact_mod_cast Int.toNat_of_nonneg (by omega)
    have hsum := hrest.add denotes_whole_turn
    rw [hcast]
    refine IsNearest.denotes ?_ (isShort_multiple (abs_le.2 ⟨by omega, by omega⟩))
    convert hsum using 1
    push_cast
    ring
  next hneg =>
    have hneg : ¬ (k.tmod 4 * 90 : ℚ) < 0 := fun hlt => hneg (hrest.lt_zero_iff.2 hlt)
    have hneg : ¬ k.tmod 4 * 90 < 0 := by exact_mod_cast hneg
    refine ⟨(k.tmod 4).toNat, by omega, ?_⟩
    have hcast : (((k.tmod 4).toNat : ℕ) : ℚ) = (k.tmod 4 : ℤ) := by
      exact_mod_cast Int.toNat_of_nonneg (by omega)
    rw [hcast]
    exact hrest

/-- A multiple within one turn is far from a whole turn, and stays what it is. -/
theorem normalize_eq_wrap (h : IsMultiple degrees) : normalize degrees = wrap degrees := by
  obtain ⟨j, hj, hwrap⟩ := denotes_wrap h
  have hgap : (4 : ℕ) * 90 - (j * 90 : ℚ) = ((4 - j : ℤ) : ℚ) * 90 := by
    push_cast
    ring
  have hleft : Denotes (360.0 - wrap degrees) (((4 - j : ℤ) : ℚ) * 90) := by
    have hnearest := denotes_whole_turn.sub hwrap
    rw [hgap] at hnearest
    exact hnearest.denotes (isShort_multiple (abs_le.2 ⟨by omega, by omega⟩))
  have hone : (1 : ℚ) ≤ ((4 - j : ℤ) : ℚ) := by
    have hone : (1 : ℤ) ≤ 4 - j := by omega
    exact_mod_cast hone
  have hpos : (0 : ℚ) ≤ ((4 - j : ℤ) : ℚ) * 90 := by linarith
  have habs : Denotes (Scalar.abs (360.0 - wrap degrees)) (((4 - j : ℤ) : ℚ) * 90) := by
    have hnearest := hleft.abs
    rw [abs_of_nonneg hpos] at hnearest
    exact hnearest.denotes (isShort_multiple (abs_le.2 ⟨by omega, by omega⟩))
  obtain ⟨y, hy, hlow, hhigh⟩ := denotes_tolerance
  have hfar : ¬ Scalar.abs (360.0 - wrap degrees) < tolerance := by
    have hy0 : 0 ≤ y := le_trans (by norm_num) hlow
    rw [Amount.lt_iff ⟨habs, hpos⟩ ⟨hy, hy0⟩, not_lt]
    exact hhigh.trans (by linarith)
  unfold normalize
  extract_lets wrapped
  exact if_neg hfar

end Angle

namespace RightAngle

/-- A right angle as a number of quarters. -/
def quarters : RightAngle → ℕ
  | quarter => 1
  | half => 2
  | threeQuarters => 3

theorem denotes_degrees (a : RightAngle) : Denotes a.degrees (a.quarters * 90) := by
  cases a
  · refine HasValue.denotes ⟨6333186975989760, -46, by decide, rfl, ?_⟩
    norm_num [magnitude, quarters]
  · refine HasValue.denotes ⟨6333186975989760, -45, by decide, rfl, ?_⟩
    norm_num [magnitude, quarters]
  · refine HasValue.denotes ⟨4749890231992320, -44, by decide, rfl, ?_⟩
    norm_num [magnitude, quarters]

theorem exists_quarters {j : ℕ} (hpos : 0 < j) (hj : j < 4) : ∃ a : RightAngle, a.quarters = j := by
  match j, hpos, hj with
  | 1, _, _ => exact ⟨quarter, rfl⟩
  | 2, _, _ => exact ⟨half, rfl⟩
  | 3, _, _ => exact ⟨threeQuarters, rfl⟩

end RightAngle

namespace Angle

variable {degrees : Float}

/-- **What a multiple of 90 degrees is brought to**: no angle, or a right one. -/
theorem normalize_cases (h : IsMultiple degrees) :
    (normalize degrees == 0.0) = true ∨
      (normalize degrees == 0.0) = false ∧ ∃ a : RightAngle, normalize degrees = a.degrees := by
  obtain ⟨j, hj, hwrap⟩ := denotes_wrap h
  rw [normalize_eq_wrap h, hwrap.beq_zero]
  rcases Nat.eq_zero_or_pos j with rfl | hpos
  · left
    norm_num
  · right
    have hvalue : (0 : ℚ) < j * 90 := by
      have hpos : (0 : ℚ) < j := by exact_mod_cast hpos
      linarith
    obtain ⟨a, rfl⟩ := RightAngle.exists_quarters hpos hj
    exact ⟨decide_eq_false hvalue.ne', a, hwrap.unique a.denotes_degrees hvalue⟩

end Angle

end Reframe
