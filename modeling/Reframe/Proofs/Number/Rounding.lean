import Mathlib.Algebra.Order.Field.Power
import Mathlib.Data.Rat.Cast.Order
import Mathlib.Tactic.FieldSimp
import Mathlib.Tactic.Linarith
import Mathlib.Tactic.Positivity
import Mathlib.Tactic.Ring
import Reframe.Proofs.Number.Canonical

/-!
# Rounding

A result is computed exactly, as far as its bits matter, and rounded once. Rounding gives
a canonical number and passes none that a format stores: what lies on one side of such a
number lies there after rounding, or on it. So a result that a format stores is exact.

* `Binary.Approximates`: a mantissa and its residual bits stand for a number.
* `Binary.exists_roundWithAccuracy`: the steps that rounding takes.
* `Binary.IsRounded`: what rounding to a format gives.
* `Binary.isRounded_roundWithAccuracy`: rounding gives that.
-/

namespace Reframe.Binary

open Float.Model (Format UnpackedFloat totalExponent)
open Float.Model.UnpackedFloat

variable {f : Format} {s : Sign} {m k n : Nat} {e t : Int} {x y : ℚ} {em : ExtendedMantissa}
  {accuracy : Accuracy}

/-- The magnitude `m * 2 ^ e`. -/
def magnitude (m : Nat) (e : Int) : ℚ :=
  m * 2 ^ e

theorem magnitude_le_left (h : m ≤ n) (e : Int) : magnitude m e ≤ magnitude n e := by
  have h : (m : ℚ) ≤ n := by exact_mod_cast h
  exact mul_le_mul_of_nonneg_right h (by positivity)

theorem magnitude_le_left_iff (m n : Nat) (e : Int) : magnitude m e ≤ magnitude n e ↔ m ≤ n := by
  unfold magnitude
  rw [mul_le_mul_iff_left₀ (by positivity)]
  exact_mod_cast Iff.rfl

theorem magnitude_le_right (m : Nat) (h : e ≤ t) : magnitude m e ≤ magnitude m t := by
  have hpow : (2 : ℚ) ^ e ≤ 2 ^ t := zpow_le_zpow_right₀ one_le_two h
  exact mul_le_mul_of_nonneg_left hpow (Nat.cast_nonneg m)

theorem magnitude_mul_two_pow (m n : Nat) (e : Int) :
    magnitude (m * 2 ^ n) e = magnitude m (e + n) := by
  unfold magnitude
  rw [zpow_add₀ two_ne_zero, zpow_natCast]
  push_cast
  ring

theorem magnitude_two_pow_mantissaBits (f : Format) (e : Int) :
    magnitude (2 ^ f.mantissaBits) e = magnitude (2 ^ f.mantissaBitsWithoutImplicit) (e + 1) := by
  have hpow := two_pow_mantissaBits f
  have hshift := magnitude_mul_two_pow (2 ^ f.mantissaBitsWithoutImplicit) 1 e
  rw [Nat.pow_one, Nat.mul_comm, ← hpow] at hshift
  exact hshift

/-- A mantissa with its residual bits stands for a number: for itself if these are
clear, else for one strictly between it and the next mantissa. -/
def Approximates (em : ExtendedMantissa) (x : ℚ) : Prop :=
  if em.roundBit || em.stickyBit then (em.mantissa : ℚ) < x ∧ x < em.mantissa + 1
  else x = em.mantissa

theorem approximates_exact (m : Nat) :
    Approximates (ExtendedMantissa.ofMantissaAndAccuracy m .exact) m := rfl

theorem approximates_inexact (o : Ordering) (hlow : m < x) (hhigh : x < m + 1) :
    Approximates (ExtendedMantissa.ofMantissaAndAccuracy m (.inexact o)) x := by
  cases o <;> exact ⟨hlow, hhigh⟩

namespace Approximates

theorem le (h : Approximates em x) : em.mantissa ≤ x := by
  unfold Approximates at h
  split at h
  · exact h.1.le
  · exact h.ge

theorem lt (h : Approximates em x) : x < em.mantissa + 1 := by
  unfold Approximates at h
  split at h
  · exact h.2
  · rw [h]
    exact lt_add_one _

theorem shiftRightOne (h : Approximates em x) : Approximates em.shiftRightOne (x / 2) := by
  obtain ⟨m, round, sticky⟩ := em
  have hparts : ((m % 2 : Nat) : ℚ) + 2 * ((m / 2 : Nat) : ℚ) = m := by
    exact_mod_cast Nat.mod_add_div m 2
  have hle : (m : ℚ) ≤ x := h.le
  have hlt : x < m + 1 := h.lt
  unfold Approximates ExtendedMantissa.shiftRightOne at *
  rcases Nat.mod_two_eq_zero_or_one m with hmod | hmod
  · rw [hmod] at hparts
    cases hbits : round || sticky with
    | false =>
      simp only [hmod, hbits] at h ⊢
      push_cast at hparts
      simp only [bne_self_eq_false, Bool.or_self, Bool.false_eq_true, if_false] at h ⊢
      linarith
    | true =>
      simp only [hmod, hbits] at h ⊢
      push_cast at hparts
      simp only [bne_self_eq_false, Bool.or_true, if_true] at h ⊢
      constructor <;> linarith [h.1]
  · -- the bit that is shifted out is set
    rw [hmod] at hparts
    push_cast at hparts
    have hbit : (m % 2 != 0) = true := by
      rw [hmod]
      rfl
    simp only [hbit, Bool.true_or, if_true]
    constructor <;> linarith

theorem shiftRight (h : Approximates em x) (n : Nat) : Approximates (em >>> n) (x / 2 ^ n) := by
  induction n with
  | zero =>
    rw [pow_zero, div_one]
    exact h
  | succ n ih =>
    have hstep := ih.shiftRightOne
    rw [div_div, ← pow_succ] at hstep
    exact hstep

/-- What a mantissa is rounded to is one of its neighbours. -/
theorem mantissa_le_rounded (em : ExtendedMantissa) : em.mantissa ≤ em.roundedMantissa := by
  obtain ⟨m, round, sticky⟩ := em
  cases round <;> cases sticky
  · exact Nat.le_refl m
  · exact Nat.le_refl m
  · exact Nat.le_add_right m _
  · exact Nat.le_add_right m _

theorem rounded_le_succ (em : ExtendedMantissa) : em.roundedMantissa ≤ em.mantissa + 1 := by
  obtain ⟨m, round, sticky⟩ := em
  have hmod := Nat.mod_lt m Nat.two_pos
  cases round <;> cases sticky
  · exact Nat.le_succ m
  · exact Nat.le_succ m
  · exact Nat.add_le_add_left (Nat.le_of_lt_succ hmod) m
  · exact Nat.le_refl _

theorem le_rounded (h : Approximates em x) (hk : (k : ℚ) ≤ x) : k ≤ em.roundedMantissa := by
  have hlt : (k : ℚ) < em.mantissa + 1 := lt_of_le_of_lt hk h.lt
  have hlt : k < em.mantissa + 1 := by exact_mod_cast hlt
  exact le_trans (Nat.le_of_lt_succ hlt) (mantissa_le_rounded em)

theorem rounded_le (h : Approximates em x) (hk : x ≤ k) : em.roundedMantissa ≤ k := by
  cases hbits : em.roundBit || em.stickyBit with
  | false =>
    have hx : x = em.mantissa := by
      rw [Approximates, hbits] at h
      exact h
    obtain ⟨m, round, sticky⟩ := em
    obtain ⟨rfl, rfl⟩ : round = false ∧ sticky = false := by simpa using hbits
    rw [hx] at hk
    exact_mod_cast hk
  | true =>
    have hlow : (em.mantissa : ℚ) < x := by
      rw [Approximates, hbits] at h
      exact h.1
    have hlt : (em.mantissa : ℚ) < k := lt_of_lt_of_le hlow hk
    have hlt : em.mantissa < k := by exact_mod_cast hlt
    exact le_trans (rounded_le_succ em) hlt

end Approximates

theorem mantissa_shiftRight (em : ExtendedMantissa) (n : Nat) :
    (em >>> n).mantissa = em.mantissa / 2 ^ n := by
  induction n with
  | zero => exact (Nat.div_one _).symm
  | succ n ih =>
    have hstep : (em >>> (n + 1)).mantissa = (em >>> n).mantissa / 2 := rfl
    rw [hstep, ih, Nat.div_div_eq_div_mul, Nat.pow_succ]

theorem mantissa_ofMantissaAndAccuracy (m : Nat) (accuracy : Accuracy) :
    (ExtendedMantissa.ofMantissaAndAccuracy m accuracy).mantissa = m := by
  rcases accuracy with _ | (_ | _ | _) <;> rfl

/-- Shifting a mantissa to the exponent at which a format stores it: it gets as long as
the format has it, and no longer. -/
theorem fits_shift (h : e + n = f.targetExponent (totalExponent m e)) :
    Fits f (m / 2 ^ n) (e + n) := by
  have hlog : m < 2 ^ (m.log2 + 1) := Nat.lt_log2_self
  have hpos := f.hm
  unfold Format.targetExponent totalExponent at h
  have hbits : f.mantissaBits = f.mantissaBitsWithoutImplicit + 1 := Nat.add_comm _ _
  refine ⟨?_, by omega, ?_⟩
  · -- the exponent leaves room for as many bits as the format has
    rw [Nat.div_lt_iff_lt_mul (Nat.two_pow_pos n), ← Nat.pow_add]
    exact Nat.lt_of_lt_of_le hlog (Nat.pow_le_pow_right Nat.two_pos (by omega))
  · by_cases hmin : e + n = f.minExponent
    · exact .inr hmin
    · have hlong : m.log2 = f.mantissaBitsWithoutImplicit + n := by omega
      have hne : m ≠ 0 := by
        rintro rfl
        rw [Nat.log2_zero] at hlong
        omega
      refine .inl ?_
      rw [Nat.le_div_iff_mul_le (Nat.two_pow_pos n), ← Nat.pow_add, ← hlong]
      exact Nat.log2_self_le hne

/-- A mantissa that is one too large after rounding is a power of two, and is shifted once
more, without loss. -/
theorem fits_carry (hle : m ≤ 2 ^ f.mantissaBits) (hmin : f.minExponent ≤ e)
    (hfull : 2 ^ f.mantissaBitsWithoutImplicit ≤ m ∨ e = f.minExponent) :
    let shifted := shiftToTargetExponent f m e .exact
    Fits f shifted.1.mantissa shifted.2 ∧
      magnitude shifted.1.mantissa shifted.2 = magnitude m e := by
  intro shifted
  have hpow := two_pow_mantissaBits f
  have hbits : f.mantissaBits = f.mantissaBitsWithoutImplicit + 1 := Nat.add_comm _ _
  have hmantissa : shifted.1.mantissa =
      m / 2 ^ (f.targetExponent (totalExponent m e) - e).toNat := by
    rw [← mantissa_ofMantissaAndAccuracy m .exact, ← mantissa_shiftRight]
    rfl
  have hexponent : shifted.2 = e + (f.targetExponent (totalExponent m e) - e).toNat := rfl
  -- short of a carry nothing is left to shift
  rcases Nat.lt_or_eq_of_le hle with hlt | rfl
  · have hlog : m.log2 < f.mantissaBits := by
      by_cases hzero : m = 0
      · rw [hzero, Nat.log2_zero]
        omega
      · exact (Nat.log2_lt hzero).2 hlt
    have hshift : (f.targetExponent (totalExponent m e) - e).toNat = 0 := by
      unfold Format.targetExponent totalExponent
      omega
    rw [hmantissa, hexponent, hshift, Nat.pow_zero, Nat.div_one, Int.natCast_zero, Int.add_zero]
    exact ⟨⟨hlt, hmin, hfull⟩, rfl⟩
  · have hshift : (f.targetExponent (totalExponent (2 ^ f.mantissaBits) e) - e).toNat = 1 := by
      unfold Format.targetExponent totalExponent
      rw [Nat.log2_two_pow]
      omega
    have hhalf : 2 ^ f.mantissaBits / 2 ^ 1 = 2 ^ f.mantissaBitsWithoutImplicit := by omega
    have hpos : 0 < 2 ^ f.mantissaBitsWithoutImplicit := Nat.two_pow_pos _
    rw [hmantissa, hexponent, hshift, hhalf]
    refine ⟨⟨by omega, by omega, .inl (Nat.le_refl _)⟩, ?_⟩
    exact (magnitude_two_pow_mantissaBits f e).symm

/-- A magnitude in canonical form, or zero. -/
def ofMagnitude (s : Sign) (m : Nat) (e : Int) : UnpackedFloat :=
  if h : m = 0 then .zero s else .finite s m e (Nat.pos_of_ne_zero h)

/-- The number is what a magnitude is rounded to: it is canonical, and on the same side as
the magnitude of all that the format stores. -/
def IsRounded (f : Format) (s : Sign) (x : ℚ) (a : UnpackedFloat) : Prop :=
  ∃ m e, a = ofMagnitude s m e ∧ Fits f m e ∧
    ∀ n t, n ≤ 2 ^ f.mantissaBits → f.minExponent ≤ t →
      (magnitude n t ≤ x → magnitude n t ≤ magnitude m e) ∧
      (x ≤ magnitude n t → magnitude m e ≤ magnitude n t)

/-- **What rounding does**, given enough bits: it shifts the mantissa to where the format
stores it, takes that mantissa or the next one, and shifts once more if there was a carry. -/
theorem exists_roundWithAccuracy (he : e ≤ f.targetExponent (totalExponent m e)) :
    ∃ (n k : Nat) (t : Int),
      Fits f (ExtendedMantissa.ofMantissaAndAccuracy m accuracy >>> n).mantissa (e + n) ∧
      roundWithAccuracy f s m e accuracy = ofMagnitude s k t ∧ Fits f k t ∧
      magnitude k t = magnitude
        (ExtendedMantissa.ofMantissaAndAccuracy m accuracy >>> n).roundedMantissa (e + n) := by
  obtain ⟨n, hn⟩ := Int.eq_ofNat_of_zero_le (Int.sub_nonneg_of_le he)
  have htarget : e + n = f.targetExponent (totalExponent m e) := by omega
  -- the first shift, and what is rounded there
  let em := ExtendedMantissa.ofMantissaAndAccuracy m accuracy >>> n
  have hfirst : shiftToTargetExponent f m e accuracy = (em, e + n) := by
    have hshift : (f.targetExponent (totalExponent m e) - e).toNat = n := by omega
    rw [shiftToTargetExponent, shiftToExponent, hshift]
  have hfits : Fits f em.mantissa (e + n) := by
    have hmantissa : em.mantissa = m / 2 ^ n := by
      rw [mantissa_shiftRight, mantissa_ofMantissaAndAccuracy]
    rw [hmantissa]
    exact fits_shift htarget
  have hlow := Approximates.mantissa_le_rounded em
  have hhigh := Approximates.rounded_le_succ em
  have hlt := hfits.lt
  -- the second shift
  obtain ⟨hcarry, hsame⟩ := fits_carry (m := em.roundedMantissa) (e := e + n) (f := f)
    (by omega) hfits.le (hfits.full.imp (le_trans · hlow) id)
  refine ⟨n, _, _, hfits, ?_, hcarry, hsame⟩
  rw [roundWithAccuracy, hfirst]
  rfl

/-- **Rounding passes nothing that the format stores**, given enough bits to round. -/
theorem isRounded_roundWithAccuracy (he : e ≤ f.targetExponent (totalExponent m e))
    (hx : Approximates (ExtendedMantissa.ofMantissaAndAccuracy m accuracy) x) :
    IsRounded f s (x * 2 ^ e) (roundWithAccuracy f s m e accuracy) := by
  obtain ⟨n, m', e', hfits, hround, hcarry, hsame⟩ := exists_roundWithAccuracy he
  have happrox := hx.shiftRight n
  generalize ExtendedMantissa.ofMantissaAndAccuracy m accuracy >>> n = em at hfits hsame happrox
  have hvalue : x * 2 ^ e = x / 2 ^ n * 2 ^ (e + n) := by
    rw [zpow_add₀ two_ne_zero, zpow_natCast]
    field_simp
  have hlow := Approximates.mantissa_le_rounded em
  refine ⟨m', e', hround, hcarry, fun k t hk ht => ?_⟩
  rw [hsame, hvalue]
  generalize x / 2 ^ n = y at happrox
  have hscale : (0 : ℚ) < 2 ^ (e + n) := by positivity
  rcases lt_or_ge t (e + n) with hlt | hge
  · -- a number below the leading bit, or the leading bit
    have hfull : 2 ^ f.mantissaBitsWithoutImplicit ≤ em.mantissa :=
      hfits.full.resolve_right (by omega)
    have hbelow : magnitude k t ≤ magnitude (2 ^ f.mantissaBitsWithoutImplicit) (e + n) := by
      calc magnitude k t ≤ magnitude (2 ^ f.mantissaBits) t := magnitude_le_left hk t
        _ = magnitude (2 ^ f.mantissaBitsWithoutImplicit) (t + 1) :=
          magnitude_two_pow_mantissaBits f t
        _ ≤ _ := magnitude_le_right _ (by omega)
    refine ⟨fun _ => le_trans hbelow (magnitude_le_left (le_trans hfull hlow) _), fun hy => ?_⟩
    have hle : y * 2 ^ (e + n) ≤ magnitude (2 ^ f.mantissaBitsWithoutImplicit) (e + n) :=
      le_trans hy hbelow
    have hle : em.roundedMantissa ≤ 2 ^ f.mantissaBitsWithoutImplicit :=
      happrox.rounded_le (le_of_mul_le_mul_right hle hscale)
    have hback : (em.roundedMantissa : ℚ) ≤ y := by
      have hle : (em.roundedMantissa : ℚ) ≤ em.mantissa := by exact_mod_cast le_trans hle hfull
      exact le_trans hle happrox.le
    exact le_trans (mul_le_mul_of_nonneg_right hback hscale.le) hy
  · -- a multiple of the unit in the last place
    obtain ⟨j, hj⟩ := Int.eq_ofNat_of_zero_le (Int.sub_nonneg_of_le hge)
    have hmultiple : magnitude k t = magnitude (k * 2 ^ j) (e + n) := by
      rw [magnitude_mul_two_pow]
      congr 1
      omega
    rw [hmultiple, magnitude_le_left_iff, magnitude_le_left_iff]
    constructor
    · intro hy
      exact happrox.le_rounded (le_of_mul_le_mul_right hy hscale)
    · intro hy
      exact happrox.rounded_le (le_of_mul_le_mul_right hy hscale)

end Reframe.Binary
