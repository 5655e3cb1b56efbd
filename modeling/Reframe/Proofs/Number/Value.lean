import Reframe.Proofs.Number.Rounding

/-!
# Values of positive numbers

Products and quotients of positive machine numbers are the exact ones rounded. Compared
with a natural number that the format stores, they are on the same side as the exact ones,
or equal to it; an overflow is above all of them.

* `Binary.HasValue`: a positive machine number and the rational that it is.
* `Binary.Rounds`: a machine number and the rational that it comes from.
* `Binary.IsAtLeast`: a machine number is not below a rational.
* `Binary.Rounds.lt_iff`: the machine's order is the order of values.
-/

namespace Reframe.Binary

open Float.Model (Format UnpackedFloat totalExponent)
open Float.Model.UnpackedFloat

section Formats

variable {f : Format} {s s' : Sign} {m m' n : Nat} {e e' : Int} {x : ℚ} {a b : UnpackedFloat}

theorem minExponent_nonpos (f : Format) : f.minExponent ≤ 0 := by
  have hpos := f.hm
  rw [minExponent_eq]
  omega

theorem magnitude_zero_right (n : Nat) : magnitude n 0 = n := by
  rw [magnitude, zpow_zero, mul_one]

/-- A magnitude, brought to an integer. -/
theorem magnitude_mul_pow (m : Nat) (e : Int) :
    magnitude m e * 2 ^ (-e).toNat = (m * 2 ^ e.toNat : Nat) := by
  have he : e + ((-e).toNat : Int) = e.toNat := by omega
  rw [magnitude, mul_assoc, ← zpow_natCast, ← zpow_add₀ two_ne_zero, he, zpow_natCast]
  push_cast
  ring

/-- With a greater exponent a number would be greater, since it would have more bits than
the format. -/
theorem Fits.exponent_le {k : Nat} (h : Fits f m e)
    (hlt : magnitude m e < magnitude (2 ^ f.mantissaBits) k) : e ≤ k := by
  refine le_of_not_gt fun hk => absurd hlt (not_lt.2 ?_)
  have hmin := minExponent_nonpos f
  have hfull : 2 ^ f.mantissaBitsWithoutImplicit ≤ m := h.full.resolve_right (by omega)
  calc magnitude (2 ^ f.mantissaBits) k
      = magnitude (2 ^ f.mantissaBitsWithoutImplicit) (k + 1) :=
        magnitude_two_pow_mantissaBits f k
    _ ≤ magnitude m (k + 1) := magnitude_le_left hfull _
    _ ≤ magnitude m e := magnitude_le_right m (by omega)

/-- **The order of canonical numbers is the order of their magnitudes.** -/
theorem magnitude_lt_iff (h : Fits f m e) (h' : Fits f m' e') :
    magnitude m e < magnitude m' e' ↔ e < e' ∨ e = e' ∧ m < m' := by
  -- the greater exponent has a full mantissa, which outweighs any mantissa below
  have hless : ∀ {m m' : Nat} {e e' : Int}, Fits f m e → Fits f m' e' → e < e' →
      magnitude m e < magnitude m' e' := by
    intro m m' e e' h h' hlt
    have hfull : 2 ^ f.mantissaBitsWithoutImplicit ≤ m' :=
      h'.full.resolve_right (by have := h.le; omega)
    have hm : (m : ℚ) < (2 ^ f.mantissaBits : Nat) := by exact_mod_cast h.lt
    calc magnitude m e < magnitude (2 ^ f.mantissaBits) e :=
          mul_lt_mul_of_pos_right hm (by positivity)
      _ = magnitude (2 ^ f.mantissaBitsWithoutImplicit) (e + 1) :=
          magnitude_two_pow_mantissaBits f e
      _ ≤ magnitude m' (e + 1) := magnitude_le_left hfull _
      _ ≤ magnitude m' e' := magnitude_le_right m' hlt
  constructor
  · intro hlt
    rcases lt_trichotomy e e' with he | rfl | he
    · exact .inl he
    · refine .inr ⟨rfl, Nat.lt_of_not_le fun hle => ?_⟩
      exact absurd hlt (not_lt.2 (magnitude_le_left hle e))
    · exact absurd hlt (hless h' h he).le.not_gt
  · rintro (he | ⟨rfl, hm⟩)
    · exact hless h h' he
    · refine lt_of_not_ge fun hle => ?_
      exact absurd ((magnitude_le_left_iff m' m e).1 hle) (Nat.not_le.2 hm)

theorem lt_finite_iff {hm : 0 < m} {hm' : 0 < m'} (h : Fits f m e) (h' : Fits f m' e') :
    (UnpackedFloat.finite .positive m e hm).lt (.finite .positive m' e' hm') ↔
      magnitude m e < magnitude m' e' := by
  rw [magnitude_lt_iff h h']
  simp only [UnpackedFloat.lt, UnpackedFloat.compare, beq_iff_eq, Option.some.injEq]
  rw [Ordering.then_eq_lt, compare_lt_iff_lt, compare_eq_iff_eq, compare_lt_iff_lt]

/-- The number is at least a positive rational. -/
def Reaches (x : ℚ) : UnpackedFloat → Prop
  | .infinity .positive => True
  | .finite .positive m e _ => x ≤ magnitude m e
  | _ => False

/-- The number is neither below zero nor undefined. -/
def IsMagnitude : UnpackedFloat → Prop
  | .infinity .positive => True
  | .zero .positive => True
  | .finite .positive .. => True
  | _ => False

/-- The numbers that are not at least a positive number are those below it. -/
theorem lt_iff_not_reaches (ha : Canonical f a) (hsign : IsMagnitude a) {hm : 0 < m}
    (h : Fits f m e) : a.lt (.finite .positive m e hm) ↔ ¬ Reaches (magnitude m e) a := by
  rcases a with (_ | _) | _ | (_ | _) | ⟨_ | _, m', e', hm'⟩
  case finite.positive =>
    rw [lt_finite_iff ha h, Reaches, not_le]
  all_goals first | exact hsign.elim | simp [Reaches, UnpackedFloat.lt, UnpackedFloat.compare]

/-- A rounded magnitude is one after packing. -/
theorem IsRounded.isMagnitude (h : IsRounded f .positive x a) :
    IsMagnitude (unpack f (pack f a)) := by
  obtain ⟨m, e, rfl, hfits, -⟩ := h
  by_cases hm : m = 0
  · rw [ofMagnitude, dif_pos hm, pack, unpack_packedZero]
    trivial
  · rw [ofMagnitude, dif_neg hm]
    rcases le_or_gt e (f.exponentBias - f.mantissaBitsWithoutImplicit) with hle | hlt
    · rw [unpack_pack_finite hfits hle]
      trivial
    · rw [unpack_pack_overflow hlt]
      trivial

/-- What is at least a natural number that the format stores is so after rounding. -/
theorem IsRounded.reaches (h : IsRounded f .positive x a) (hpos : 0 < n)
    (hn : n < 2 ^ f.mantissaBits) (hx : n ≤ x) : Reaches n (unpack f (pack f a)) := by
  obtain ⟨m, e, rfl, hfits, hround⟩ := h
  have hle : (n : ℚ) ≤ magnitude m e := by
    rw [← magnitude_zero_right n] at hx ⊢
    exact (hround n 0 hn.le (minExponent_nonpos f)).1 hx
  have hm : m ≠ 0 := by
    rintro rfl
    rw [magnitude, Nat.cast_zero, zero_mul] at hle
    have hle : n ≤ 0 := by exact_mod_cast hle
    omega
  rw [ofMagnitude, dif_neg hm]
  rcases le_or_gt e (f.exponentBias - f.mantissaBitsWithoutImplicit) with hfit | hlt
  · rw [unpack_pack_finite hfits hfit]
    exact hle
  · rw [unpack_pack_overflow hlt]
    trivial

/-- **A natural number that the format stores is not changed by rounding.** -/
theorem IsRounded.exact (h : IsRounded f .positive n a) (hpos : 0 < n)
    (hn : n < 2 ^ f.mantissaBits) (hwide : f.mantissaBitsWithoutImplicit ≤ f.exponentBias) :
    ∃ m e hm, unpack f (pack f a) = .finite .positive m e hm ∧ magnitude m e = n := by
  obtain ⟨m, e, rfl, hfits, hround⟩ := h
  have hvalue : magnitude m e = n := by
    have hsame := hround n 0 hn.le (minExponent_nonpos f)
    rw [magnitude_zero_right] at hsame
    exact le_antisymm (hsame.2 le_rfl) (hsame.1 le_rfl)
  have hm : m ≠ 0 := by
    rintro rfl
    rw [magnitude, Nat.cast_zero, zero_mul] at hvalue
    have hvalue : 0 = n := by exact_mod_cast hvalue
    omega
  have he : e ≤ (0 : Nat) := by
    refine hfits.exponent_le ?_
    rw [hvalue, Nat.cast_zero, magnitude_zero_right]
    exact_mod_cast hn
  refine ⟨m, e, Nat.pos_of_ne_zero hm, ?_, hvalue⟩
  rw [ofMagnitude, dif_neg hm]
  exact unpack_pack_finite hfits (by omega)

/-- A product of canonical numbers has enough bits to round. -/
theorem add_le_targetExponent (hm : 0 < m) (hm' : 0 < m') (h : Fits f m e) (h' : Fits f m' e') :
    e + e' ≤ f.targetExponent (totalExponent (m * m') (e + e')) := by
  have hmin := minExponent_nonpos f
  have hlong : ∀ {k j : Nat}, 0 < j → 2 ^ f.mantissaBitsWithoutImplicit ≤ k →
      f.mantissaBitsWithoutImplicit ≤ (k * j).log2 := by
    intro k j hj hk
    have hkj : 2 ^ f.mantissaBitsWithoutImplicit ≤ k * j :=
      le_trans hk (Nat.le_mul_of_pos_right k hj)
    refine (Nat.le_log2 (Nat.ne_of_gt ?_)).2 hkj
    exact Nat.lt_of_lt_of_le (Nat.two_pow_pos _) hkj
  unfold Format.targetExponent totalExponent Format.mantissaBits
  -- one full mantissa is enough; two short ones are far below the format
  rcases h.full with hfull | rfl
  · have := hlong hm' hfull
    omega
  · rcases h'.full with hfull | rfl
    · have := hlong hm hfull
      rw [Nat.mul_comm]
      omega
    · omega

theorem isRounded_mul {hm : 0 < m} {hm' : 0 < m'} (h : Fits f m e) (h' : Fits f m' e') :
    IsRounded f (s * s') (magnitude m e * magnitude m' e')
      (UnpackedFloat.mul f (.finite s m e hm) (.finite s' m' e' hm')) := by
  have hround := isRounded_roundWithAccuracy (s := s * s') (add_le_targetExponent hm hm' h h')
    (approximates_exact (m * m'))
  have hvalue : ((m * m' : Nat) : ℚ) * 2 ^ (e + e') = magnitude m e * magnitude m' e' := by
    unfold magnitude
    rw [zpow_add₀ two_ne_zero]
    push_cast
    ring
  rw [hvalue] at hround
  exact hround

/-- A quotient is its integer part and what the remainder is of the divisor. -/
theorem natCast_div (k : Nat) (hm : 0 < m) :
    (k / m : ℚ) = (k / m : Nat) + ((k % m : Nat) : ℚ) / m := by
  have hne : (m : ℚ) ≠ 0 := by exact_mod_cast Nat.ne_of_gt hm
  have hparts : ((m * (k / m) + k % m : Nat) : ℚ) = k := by exact_mod_cast Nat.div_add_mod k m
  rw [← hparts]
  push_cast
  field_simp

/-- What a long division leaves of the quotient stands for the quotient. -/
theorem approximates_div (k : Nat) (hm : 0 < m) :
    Approximates (ExtendedMantissa.ofMantissaAndAccuracy (k / m) (accuracyOfFraction (k % m) m))
      (k / m : ℚ) := by
  have hpos : (0 : ℚ) < m := by exact_mod_cast hm
  rw [natCast_div k hm]
  unfold accuracyOfFraction
  split
  next hzero =>
    rw [hzero, Nat.cast_zero, zero_div, add_zero]
    exact approximates_exact _
  next hrest =>
    have hlow : (0 : ℚ) < (k % m : Nat) := by exact_mod_cast Nat.pos_of_ne_zero hrest
    have hhigh : ((k % m : Nat) : ℚ) < m := by exact_mod_cast Nat.mod_lt k hm
    refine approximates_inexact _ ?_ ?_
    · exact lt_add_of_pos_right _ (div_pos hlow hpos)
    · exact add_lt_add_of_le_of_lt le_rfl ((div_lt_one hpos).2 hhigh)

/-- A long division rounds once, with enough bits: the quotient of the mantissas, as far as it
goes, and what is left of it. -/
theorem exists_div (hm : 0 < m) (hm' : 0 < m') (s s' : Sign) (e e' : Int) :
    ∃ (k : Nat) (t : Int),
      UnpackedFloat.div f (.finite s m e hm) (.finite s' m' e' hm') =
        roundWithAccuracy f (s / s') (k / m') t (accuracyOfFraction (k % m') m') ∧
      t ≤ f.targetExponent (totalExponent (k / m') t) ∧
      (k / m' : ℚ) * 2 ^ t = magnitude m e / magnitude m' e' := by
  let target := min (e - e') (f.targetExponent (totalExponent m e - totalExponent m' e'))
  let shift := (e - e' - target).toNat
  let k := m <<< shift
  have hle : target ≤ e - e' := min_le_left _ _
  have hle' : target ≤ f.targetExponent (totalExponent m e - totalExponent m' e') :=
    min_le_right _ _
  have hshift : target + shift = e - e' := by omega
  have hk : k = m * 2 ^ shift := Nat.shiftLeft_eq m shift
  refine ⟨k, target, rfl, ?_, ?_⟩
  · -- the quotient has at least as many bits as the exponents promise, or is below the format
    unfold Format.targetExponent totalExponent Format.mantissaBits at *
    rcases Nat.lt_or_ge m'.log2 (m.log2 + shift) with hlong | hshort
    · have hlow : 2 ^ (m.log2 + shift) ≤ k := by
        rw [hk, Nat.pow_add]
        exact Nat.mul_le_mul_right _ (Nat.log2_self_le (Nat.ne_of_gt hm))
      have hquotient : 2 ^ (m.log2 + shift - m'.log2 - 1) ≤ k / m' := by
        rw [Nat.le_div_iff_mul_le hm']
        calc 2 ^ (m.log2 + shift - m'.log2 - 1) * m'
            ≤ 2 ^ (m.log2 + shift - m'.log2 - 1) * 2 ^ (m'.log2 + 1) :=
              Nat.mul_le_mul_left _ Nat.lt_log2_self.le
          _ = 2 ^ (m.log2 + shift) := by
              rw [← Nat.pow_add]
              congr 1
              omega
          _ ≤ k := hlow
      have hne : k / m' ≠ 0 := Nat.ne_of_gt (Nat.lt_of_lt_of_le (Nat.two_pow_pos _) hquotient)
      have hlog := (Nat.le_log2 hne).2 hquotient
      omega
    · omega
  · have hpow : (2 : ℚ) ^ e = 2 ^ target * 2 ^ shift * 2 ^ e' := by
      rw [← zpow_natCast, ← zpow_add₀ two_ne_zero, ← zpow_add₀ two_ne_zero]
      congr 1
      omega
    have hcast : (m' : ℚ) ≠ 0 := by exact_mod_cast Nat.ne_of_gt hm'
    rw [hk, magnitude, magnitude, hpow]
    push_cast
    field_simp

theorem isRounded_div {hm : 0 < m} {hm' : 0 < m'} :
    IsRounded f (s / s') (magnitude m e / magnitude m' e')
      (UnpackedFloat.div f (.finite s m e hm) (.finite s' m' e' hm')) := by
  obtain ⟨k, t, hdiv, hbits, hvalue⟩ := exists_div (f := f) hm hm' s s' e e'
  rw [hdiv, ← hvalue]
  exact isRounded_roundWithAccuracy hbits (approximates_div k hm')

theorem log2_shiftLeft (hm : 0 < m) (k : Nat) : (m <<< k).log2 = m.log2 + k := by
  have hlow := Nat.log2_self_le (Nat.ne_of_gt hm)
  have hhigh := Nat.lt_log2_self (n := m)
  have hpos : m <<< k ≠ 0 := by
    rw [Nat.shiftLeft_eq]
    exact Nat.ne_of_gt (Nat.mul_pos hm (Nat.two_pow_pos k))
  refine (Nat.log2_eq_iff hpos).2 ⟨?_, ?_⟩
  · rw [Nat.shiftLeft_eq, Nat.pow_add]
    exact Nat.mul_le_mul_right _ hlow
  · rw [Nat.shiftLeft_eq, Nat.add_right_comm, Nat.pow_add]
    exact Nat.mul_lt_mul_of_pos_right hhigh (Nat.two_pow_pos k)

/-- Rounding makes room first: the same magnitude, with enough bits. -/
theorem exists_round (hm : 0 < m) (s : Sign) (e : Int) :
    ∃ k : Nat, UnpackedFloat.round f s m e = roundWithAccuracy f s (m <<< k) (e - k) .exact ∧
      e - k ≤ f.targetExponent (totalExponent (m <<< k) (e - k)) ∧
      ((m <<< k : Nat) : ℚ) * 2 ^ (e - k) = magnitude m e := by
  let k := (e - f.targetExponent (totalExponent m e)).toNat
  have htotal : totalExponent (m <<< k) (e - k) = totalExponent m e := by
    unfold totalExponent
    rw [log2_shiftLeft hm]
    omega
  refine ⟨k, rfl, by rw [htotal]; omega, ?_⟩
  have hshift := magnitude_mul_two_pow m k (e - k)
  rw [Int.sub_add_cancel, ← Nat.shiftLeft_eq] at hshift
  exact hshift

theorem isRounded_round (hm : 0 < m) (s : Sign) (e : Int) :
    IsRounded f s (magnitude m e) (UnpackedFloat.round f s m e) := by
  obtain ⟨k, hround, hbits, hvalue⟩ := exists_round (f := f) hm s e
  rw [hround, ← hvalue]
  exact isRounded_roundWithAccuracy hbits (approximates_exact (m <<< k))

theorem isRounded_ofNat (hn : 0 < n) : IsRounded f .positive n (UnpackedFloat.ofNat f n) := by
  have hround := isRounded_round (f := f) hn .positive 0
  rw [magnitude_zero_right] at hround
  have hpos : compare (n : Int) 0 = .gt := Int.compare_eq_gt.2 (by omega)
  rw [UnpackedFloat.ofNat, UnpackedFloat.ofInt, UnpackedFloat.normalize, hpos]
  exact hround

end Formats

section Doubles

variable {a b : Float} {x y : ℚ} {n : Nat}

/-- The number is positive and finite, and is the rational. -/
def HasValue (a : Float) (x : ℚ) : Prop :=
  ∃ m e hm, a.toModel.unpack = .finite .positive m e hm ∧ magnitude m e = x

/-- The number is the rational, rounded. -/
def Rounds (a : Float) (x : ℚ) : Prop :=
  ∃ u, IsRounded .binary64 .positive x u ∧ a = double u

/-- The number is not below a positive rational. -/
def IsAtLeast (a : Float) (x : ℚ) : Prop :=
  Reaches x a.toModel.unpack

theorem HasValue.pos (h : HasValue a x) : 0 < x := by
  obtain ⟨m, e, hm, -, rfl⟩ := h
  have hcast : (0 : ℚ) < m := by exact_mod_cast hm
  unfold magnitude
  positivity

theorem unpack_double (u : UnpackedFloat) :
    (double u).toModel.unpack = unpack .binary64 (pack .binary64 u) := rfl

theorem canonical (a : Float) : Canonical .binary64 a.toModel.unpack :=
  canonical_unpack _

/-- **A product is the product of the values, rounded.** -/
theorem HasValue.mul (ha : HasValue a x) (hb : HasValue b y) : Rounds (a * b) (x * y) := by
  have hfits := canonical a
  have hfits' := canonical b
  obtain ⟨m, e, hm, hunpack, rfl⟩ := ha
  obtain ⟨m', e', hm', hunpack', rfl⟩ := hb
  have hmul : a * b = double (UnpackedFloat.mul .binary64 a.toModel.unpack b.toModel.unpack) := rfl
  rw [hunpack] at hfits hmul
  rw [hunpack'] at hfits' hmul
  exact ⟨_, (isRounded_mul hfits hfits' : IsRounded _ (.positive * .positive) _ _), hmul⟩

/-- **A quotient is the quotient of the values, rounded.** -/
theorem HasValue.div (ha : HasValue a x) (hb : HasValue b y) : Rounds (a / b) (x / y) := by
  obtain ⟨m, e, hm, hunpack, rfl⟩ := ha
  obtain ⟨m', e', hm', hunpack', rfl⟩ := hb
  have hdiv : a / b = double (UnpackedFloat.div .binary64 a.toModel.unpack b.toModel.unpack) := rfl
  rw [hunpack, hunpack'] at hdiv
  exact ⟨_, (isRounded_div : IsRounded _ (.positive / .positive) _ _), hdiv⟩

theorem Rounds.isAtLeast (h : Rounds a x) (hpos : 0 < n) (hn : n < 2 ^ 53) (hx : n ≤ x) :
    IsAtLeast a n := by
  obtain ⟨u, hround, rfl⟩ := h
  exact hround.reaches hpos hn hx

/-- **What rounds to a natural number is that number.** -/
theorem Rounds.hasValue (h : Rounds a n) (hpos : 0 < n) (hn : n < 2 ^ 53) : HasValue a n := by
  obtain ⟨u, hround, rfl⟩ := h
  exact hround.exact hpos hn (by decide)

theorem Rounds.isMagnitude (h : Rounds a x) : IsMagnitude a.toModel.unpack := by
  obtain ⟨u, hround, rfl⟩ := h
  rw [unpack_double]
  exact hround.isMagnitude

/-- **The machine's order is the order of values.** -/
theorem Rounds.lt_iff (h : Rounds a x) (hb : HasValue b y) : a < b ↔ ¬ IsAtLeast a y := by
  have hfits := canonical b
  obtain ⟨m, e, hm, hunpack, rfl⟩ := hb
  rw [hunpack] at hfits
  rw [lt_iff_unpack, hunpack]
  exact lt_iff_not_reaches (canonical a) h.isMagnitude hfits

theorem hasValue_one : HasValue (Float.ofBits 0x3FF0000000000000) 1 := by
  refine ⟨4503599627370496, -52, by decide, rfl, ?_⟩
  norm_num [magnitude]

/-- **Natural numbers of up to 53 bits are themselves.** -/
theorem hasValue_ofNat (hpos : 0 < n) (hn : n < 2 ^ 53) : HasValue (Float.ofNat n) n := by
  have hword : Rounds n.toUInt64.toFloat n := by
    have hsmall : n.toUInt64.toNat = n := by
      rw [Nat.toUInt64_eq, UInt64.toNat_ofNat', Nat.mod_eq_of_lt (by omega)]
    have hround := isRounded_ofNat (f := .binary64) hpos
    have hdouble : n.toUInt64.toFloat = double (ofNat .binary64 n.toUInt64.toNat) := rfl
    rw [hsmall] at hdouble
    exact ⟨_, hround, hdouble⟩
  -- the power of ten is 1
  have hproduct : Float.ofNat n = n.toUInt64.toFloat * Float.ofBits 0x3FF0000000000000 := by
    change Float.ofScientific n false 0 = _
    rw [Float.ofScientific, dif_pos ⟨hn, by decide⟩]
    rfl
  have hround := (hword.hasValue hpos hn).mul hasValue_one
  rw [mul_one, ← hproduct] at hround
  exact hround.hasValue hpos hn

end Doubles

end Reframe.Binary
