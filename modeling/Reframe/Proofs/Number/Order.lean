import Reframe.Proofs.Number.Pattern

/-!
# The order of amounts

Weights are compared as numbers and ranked as patterns of bits. For numbers that are not
negative the two agree, but for the sign that a zero may have.

* `Binary.Amount.lt_iff`, `Binary.Amount.le_iff`: the machine's order is that of values.
* `Binary.Amount.rankLe_iff`: **ranking by patterns is ranking by values**.
* `Binary.rankLe_trans`, `Binary.rankLe_total`: patterns can always be ranked.
-/

namespace Reframe.Binary

variable {a b : Float} {x y : ℚ}

/-- **The machine's order is the order of values.** -/
theorem Amount.lt_iff (ha : Amount a x) (hb : Amount b y) : a < b ↔ x < y :=
  ha.denotes.lt_iff hb.denotes

theorem Amount.le_iff (ha : Amount a x) (hb : Amount b y) : a ≤ b ↔ x ≤ y :=
  ha.denotes.le_iff hb.denotes

/-- Numbers are equal to the machine if their values are. -/
theorem Denotes.le_and_le_iff (ha : Denotes a x) (hb : Denotes b y) : a ≤ b ∧ b ≤ a ↔ x = y := by
  rw [ha.le_iff hb, hb.le_iff ha]
  exact antisymm_iff

theorem Denotes.patternValue? (h : Denotes a x) :
    patternValue? a.toBits = some ((x : ℝ) : EReal) :=
  extended?_of_rational? h

/-- **Ranking by patterns is ranking by values**, but for the sign that a zero may have. -/
theorem Amount.rankLe_iff (ha : Amount a x) (hb : Amount b y) (hpos : 0 < x ∨ 0 < y) :
    Scalar.rankLe a b ↔ x ≤ y := by
  change decide (patternRank a.toBits ≤ patternRank b.toBits) = true ↔ x ≤ y
  have hx := ha.denotes.patternValue?
  have hy := hb.denotes.patternValue?
  -- what is equal is above zero on both sides, so there is no sign to tell it apart
  have hsign : x = y → ¬ IsSigned b.toBits := by
    rintro rfl
    exact not_isSigned_of_pos hy (by exact_mod_cast hpos.elim id id)
  simp only [decide_eq_true_iff, patternRank_le_iff, TotalLe, hx, hy]
  rw [EReal.coe_lt_coe_iff, EReal.coe_eq_coe_iff, Rat.cast_lt, Rat.cast_inj, le_iff_lt_or_eq]
  exact or_congr_right (and_iff_left_of_imp fun h hb => absurd hb (hsign h))

/-- Ranking orders all numbers, also those that are none. -/
theorem rankLe_trans (a b c : Float) (hab : Scalar.rankLe a b) (hbc : Scalar.rankLe b c) :
    Scalar.rankLe a c := by
  have hab : patternRank a.toBits ≤ patternRank b.toBits := of_decide_eq_true hab
  have hbc : patternRank b.toBits ≤ patternRank c.toBits := of_decide_eq_true hbc
  exact decide_eq_true (hab.trans hbc)

theorem rankLe_total (a b : Float) : Scalar.rankLe a b || Scalar.rankLe b a := by
  rw [Bool.or_eq_true]
  exact (le_total (patternRank a.toBits) (patternRank b.toBits)).imp decide_eq_true decide_eq_true

end Reframe.Binary
