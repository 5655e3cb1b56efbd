import Reframe.Proofs.Number.Vanish

/-!
# Roots

The root of a number that is not zero is far above what is rounded to zero: it is no smaller
than the number if that is less than 1. The root of a sum of two squares is drawn from exact
squares, and is no smaller than either side. So a root tells whether what it is drawn from is
zero.

* `Binary.exists_roundsEven_sqrt`, `Binary.exists_roundsEven_hypot`: **what roots are rounded
  from**.
* `Binary.Signals.sqrt`, `Binary.Signals.hypot`: what roots tell.
-/

namespace Reframe.Binary

open Float.Model (Format UnpackedFloat totalExponent)
open Float.Model.UnpackedFloat

section Formats

variable {f : Format} {m n : Nat} {d e : Int} {x y : ℚ} {u v : UnpackedFloat}

/-- A root has half as many bits as what it is drawn from. -/
theorem half_log2_le_log2_sqrt (hn : 0 < n) : n.log2 / 2 ≤ n.sqrt.log2 := by
  have hlow : 2 ^ (n.log2 / 2) ≤ n.sqrt := by
    rw [Nat.le_sqrt, ← Nat.pow_add]
    exact (Nat.pow_le_pow_right Nat.two_pos (by omega)).trans
      (Nat.log2_self_le (Nat.ne_of_gt hn))
  exact (Nat.le_log2 (Nat.ne_of_gt (Nat.sqrt_pos.2 hn))).2 hlow

/-- What is left after a root is drawn tells on which side of the middle it is. -/
theorem exists_locates_root (root rest : Nat) :
    ∃ y : ℚ, Locates (ExtendedMantissa.ofMantissaAndAccuracy root
      (if rest = 0 then .exact else .inexact (if rest ≤ root then .lt else .gt))) y ∧
        root ≤ y := by
  by_cases hexact : rest = 0
  · refine ⟨root, ?_, le_rfl⟩
    rw [if_pos hexact]
    rfl
  · rw [if_neg hexact]
    by_cases hless : rest ≤ root
    · refine ⟨root + 1 / 4, ?_, by linarith⟩
      rw [if_pos hless]
      constructor <;> linarith
    · refine ⟨root + 3 / 4, ?_, by linarith⟩
      rw [if_neg hless]
      constructor <;> linarith

/-- A root is no less than the powers of two whose squares its radicand reaches. -/
theorem two_pow_le_sqrt (hn : 0 < n) {place j : Int}
    (hj : (2 : ℚ) ^ (2 * j) ≤ n * 2 ^ (2 * place)) : (2 : ℚ) ^ j ≤ n.sqrt * 2 ^ place := by
  have hscale : (0 : ℚ) < 2 ^ place := by positivity
  rcases le_or_gt j place with hlow | hhigh
  · have hone : (1 : ℚ) ≤ n.sqrt := by exact_mod_cast Nat.sqrt_pos.2 hn
    calc (2 : ℚ) ^ j ≤ 2 ^ place := zpow_le_zpow_right₀ one_le_two hlow
      _ ≤ n.sqrt * 2 ^ place := le_mul_of_one_le_left hscale.le hone
  · obtain ⟨k, hk⟩ := Int.eq_ofNat_of_zero_le (Int.sub_nonneg_of_le hhigh.le)
    obtain rfl : j = k + place := by omega
    have hpower : 2 ^ k * 2 ^ k ≤ n := by
      have hsplit : (2 : ℚ) ^ (2 * (k + place)) = (2 ^ k * 2 ^ k : Nat) * 2 ^ (2 * place) := by
        rw [mul_add, zpow_add₀ two_ne_zero, two_mul (k : Int), zpow_add₀ two_ne_zero, zpow_natCast]
        push_cast
        ring
      rw [hsplit, mul_le_mul_iff_left₀ (by positivity)] at hj
      exact_mod_cast hj
    have hroot : ((2 ^ k : Nat) : ℚ) ≤ n.sqrt := by exact_mod_cast Nat.le_sqrt.2 hpower
    rw [zpow_add₀ two_ne_zero, zpow_natCast]
    push_cast at hroot
    exact mul_le_mul_of_nonneg_right hroot hscale.le

/-- **A root is rounded** from a number that exceeds no less powers of two than the root. -/
theorem exists_roundsEven_sqrt (hm : 0 < m) (e : Int) :
    ∃ x, RoundsEven f x (UnpackedFloat.sqrt f (.finite .positive m e hm)) ∧
      ∀ j : Int, (2 : ℚ) ^ (2 * j) ≤ magnitude m e → 2 ^ j ≤ x := by
  let place := min (e / 2) (f.targetExponent ((totalExponent m e + 1) / 2))
  let shift := (e - 2 * place).toNat
  let radicand := m <<< shift
  let root := radicand.sqrt
  let rest := radicand - root * root
  let accuracy : Accuracy :=
    if rest = 0 then .exact else .inexact (if rest ≤ root then .lt else .gt)
  have hsqrt : UnpackedFloat.sqrt f (.finite .positive m e hm) =
      roundWithAccuracy f .positive root place accuracy := rfl
  have hplace : place ≤ e / 2 := min_le_left _ _
  have hshift : 2 * place + shift = e := by omega
  have hradicand : radicand = m * 2 ^ shift := Nat.shiftLeft_eq m shift
  have hpos : 0 < radicand := by
    rw [hradicand]
    exact Nat.mul_pos hm (Nat.two_pow_pos _)
  have hvalue : (radicand : ℚ) * 2 ^ (2 * place) = magnitude m e := by
    have hmul := magnitude_mul_two_pow m shift (2 * place)
    rwa [← hradicand, hshift] at hmul
  -- the bits of the root are enough to round it
  have hbits : place ≤ f.targetExponent (totalExponent root place) := by
    have htarget : place ≤ f.targetExponent ((totalExponent m e + 1) / 2) := min_le_right _ _
    have hlog : radicand.log2 = m.log2 + shift := log2_shiftLeft hm shift
    have hhalf : radicand.log2 / 2 ≤ root.log2 := half_log2_le_log2_sqrt hpos
    unfold Format.targetExponent totalExponent at *
    omega
  obtain ⟨y, hy, hle⟩ := exists_locates_root root rest
  refine ⟨y * 2 ^ place, hsqrt ▸ roundsEven_roundWithAccuracy hbits hy, fun j hj => ?_⟩
  rw [← hvalue] at hj
  have hscale : (0 : ℚ) < 2 ^ place := by positivity
  exact (two_pow_le_sqrt hpos hj).trans (mul_le_mul_of_nonneg_right hle hscale.le)

theorem roundsEven_convert_abs (hx : rational? u = some x) (hx0 : 0 ≤ x) :
    RoundsEven f x (convert f u.abs) := by
  rcases rational?_nonneg_cases hx hx0 with ⟨s, rfl, rfl⟩ | ⟨m, e, hm, rfl, rfl⟩
  · exact roundsEven_zero .positive
  · have hround : convert f (UnpackedFloat.finite .positive m e hm).abs =
        UnpackedFloat.round f .positive m e := if_neg (Nat.ne_of_gt hm)
    rw [hround]
    exact roundsEven_round hm e

/-- **The root of two squares is rounded** from a number that is no smaller than either side. -/
theorem exists_roundsEven_hypot (hx : rational? u = some x) (hy : rational? v = some y)
    (hx0 : 0 ≤ x) (hy0 : 0 ≤ y) :
    ∃ z, RoundsEven f z (hypot f u v) ∧ (x = 0 → y = 0 → z = 0) ∧
      ∀ j : Int, 2 ^ j ≤ x ∨ 2 ^ j ≤ y → 2 ^ j ≤ z := by
  have hpow : ∀ j : Int, (0 : ℚ) < 2 ^ j := fun j => by positivity
  rcases rational?_nonneg_cases hx hx0 with ⟨s, rfl, rfl⟩ | ⟨m, e, hm, rfl, rfl⟩
  · have hhypot : hypot f (.zero s) v = convert f v.abs := by
      rcases rational?_nonneg_cases hy hy0 with ⟨t, rfl, -⟩ | ⟨n, d, hn, rfl, -⟩
      · rfl
      · rfl
    rw [hhypot]
    exact ⟨y, roundsEven_convert_abs hy hy0, fun _ h => h,
      fun j h => h.resolve_left (not_le.2 (hpow j))⟩
  · rcases rational?_nonneg_cases hy hy0 with ⟨t, rfl, rfl⟩ | ⟨n, d, hn, rfl, rfl⟩
    · have hconvert := roundsEven_convert_abs (f := f) hx hx0
      exact ⟨_, hconvert, fun h _ => h, fun j h => h.resolve_right (not_le.2 (hpow j))⟩
    · let low := min e d
      let i := m * 2 ^ (e - low).toNat
      let k := n * 2 ^ (d - low).toNat
      have hi : magnitude i low = magnitude m e := magnitude_lower m (min_le_left e d)
      have hk : magnitude k low = magnitude n d := magnitude_lower n (min_le_right e d)
      have hpos : 0 < i ^ 2 + k ^ 2 :=
        Nat.add_pos_left (Nat.pow_pos (Nat.mul_pos hm (Nat.two_pow_pos _))) _
      have hhypot : hypot f (.finite .positive m e hm) (.finite .positive n d hn) =
          UnpackedFloat.sqrt f (.finite .positive (i ^ 2 + k ^ 2) (2 * low) hpos) := rfl
      have hsum : magnitude (i ^ 2 + k ^ 2) (2 * low) = magnitude m e ^ 2 + magnitude n d ^ 2 := by
        rw [← hi, ← hk]
        unfold magnitude
        rw [two_mul, zpow_add₀ two_ne_zero]
        push_cast
        ring
      obtain ⟨z, hround, hle⟩ := exists_roundsEven_sqrt (f := f) hpos (2 * low)
      rw [hhypot]
      refine ⟨z, hround, fun h => absurd h (magnitude_pos hm e).ne', fun j hj => hle j ?_⟩
      have hsquare : ((2 : ℚ) ^ (2 * j)) = (2 ^ j) ^ 2 := by
        rw [two_mul, zpow_add₀ two_ne_zero, sq]
      rw [hsum, hsquare]
      rcases hj with hj | hj
      · exact (pow_le_pow_left₀ (hpow j).le hj 2).trans (le_add_of_nonneg_right (sq_nonneg _))
      · exact (pow_le_pow_left₀ (hpow j).le hj 2).trans (le_add_of_nonneg_left (sq_nonneg _))

end Formats

section Doubles

variable {a b : Float} {p q : Prop}

/-- **A root tells what its square does.** -/
theorem Signals.sqrt (h : Signals a p) : Signals (Scalar.sqrt a) p := by
  have hsqrt : Scalar.sqrt a = double (UnpackedFloat.sqrt .binary64 a.toModel.unpack) := rfl
  rcases h.cases with ⟨hp, hu⟩ | ⟨x, hx, hleast, hp⟩
  · refine Signals.of_infinity ?_ hp
    rw [hsqrt, hu]
    exact unpack_double_infinity .positive
  · rcases rational?_nonneg_cases hx.denotes hx.nonneg with ⟨s, hu, rfl⟩ | ⟨m, e, hm, hu, rfl⟩
    · refine ⟨fun h => absurd rfl (hp.1 h), fun _ => ?_⟩
      rw [hsqrt, hu, Denotes, unpack_double]
      cases s <;> rfl
    · have hroot : p := hp.2 (magnitude_pos hm e).ne'
      obtain ⟨y, hround, hpower⟩ := exists_roundsEven_sqrt (f := .binary64) hm e
      have hle : (2 : ℚ) ^ (2 * (-537) : Int) ≤ magnitude m e := hleast.1 hroot
      have hlarge : least / 2 < y := by
        calc least / 2 < least := half_lt_self least_pos
          _ ≤ 2 ^ (-537 : Int) := zpow_le_zpow_right₀ one_le_two (by norm_num)
          _ ≤ y := hpower (-537) hle
      rw [hsqrt, hu]
      exact hround.signals.congr (iff_of_true hlarge hroot)

/-- **The root of two squares tells whether a side is not zero.** -/
theorem Signals.hypot (ha : Signals a p) (hb : Signals b q) :
    Signals (Scalar.hypot a b) (p ∨ q) := by
  have hhypot : Scalar.hypot a b =
      double (Binary.hypot .binary64 a.toModel.unpack b.toModel.unpack) := rfl
  rcases ha.cases with ⟨hp, hu⟩ | ⟨x, hx, hleast, hp⟩
  · refine Signals.of_infinity ?_ (.inl hp)
    rw [hhypot, hu, Binary.hypot, unpack_double_infinity]
  · rcases hb.cases with ⟨hq, hv⟩ | ⟨y, hy, hleast', hq⟩
    · refine Signals.of_infinity ?_ (.inr hq)
      have hinfinity : Binary.hypot .binary64 a.toModel.unpack (.infinity .positive) =
          .infinity .positive := by
        cases a.toModel.unpack <;> rfl
      rw [hhypot, hv, hinfinity, unpack_double_infinity]
    · obtain ⟨z, hround, hzero, hle⟩ := exists_roundsEven_hypot (f := .binary64) hx.denotes
        hy.denotes hx.nonneg hy.nonneg
      refine hround.signals.congr ⟨fun hlt => ?_, fun hpq => ?_⟩
      · by_contra hnone
        rw [not_or, hp, hq, not_not, not_not] at hnone
        rw [hzero hnone.1 hnone.2] at hlt
        exact absurd hlt (not_lt.2 (half_pos least_pos).le)
      · have hlarge : least ≤ z := hle (-1074) (hpq.imp hleast.1 hleast'.1)
        exact (half_lt_self least_pos).trans_le hlarge

end Doubles

end Reframe.Binary
