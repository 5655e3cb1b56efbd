import Reframe.Proofs.Number.Extended

/-!
# The total order of patterns

Read as an integer, the pattern of a number without its sign rises with the number: the
exponent stands to the left of the mantissa, infinity is above all that is finite, and what is
above infinity is no number. So patterns are ranked by these integers and by the sign, and
every pattern has a place: also the two zeros, which no comparison of numbers tells apart, and
the patterns that stand for no number, which it does not compare at all.

The order is the total order of the floating-point standard. It has numbers in the order of
their values, the negative zero before the positive one, and all numbers between the patterns
without a number that have the sign bit and those that do not have it; these are in the order
of their low bits, falling before the numbers and rising behind.

* `Binary.hasBits_unpack`: **the bits of a number, read as an integer**.
* `Binary.Sized`: the absolute value that bits without a sign stand for.
* `patternValue?_cases`: a pattern is the absolute value of its bits, with its sign.
* `TotalLe`: **the total order**, by values, signs and low bits.
* `patternRank_le_iff`: **ranks are in the total order**.
* `isLinearOrder_totalLe`: it is a linear order.
-/

namespace Reframe

open Float.Model (Format UnpackedFloat)
open Float.Model.UnpackedFloat

namespace Binary

/-- The fields of a pattern of 64 bits. -/
theorem toNat_unpackMantissa (v : BitVec Format.binary64.numBits) :
    (unpackMantissa v).toNat = v.toNat % 2 ^ 52 := by
  simp [unpackMantissa, Format.binary64]

theorem toNat_unpackExponent (v : BitVec Format.binary64.numBits) :
    (unpackExponent v).toNat = v.toNat / 2 ^ 52 % 2 ^ 11 := by
  simp [unpackExponent, Format.binary64, Nat.shiftRight_eq_div_pow]

theorem toNat_unpackSign (v : BitVec Format.binary64.numBits) :
    (unpackSign v).toNat = v.toNat / 2 ^ 63 % 2 := by
  simp [unpackSign, Format.binary64, Nat.shiftRight_eq_div_pow]

/-- The sign bit is clear in a pattern without sign, and only there. -/
theorem ofBitVec_eq_positive_iff (v : BitVec 1) : Sign.ofBitVec v = .positive ↔ v.toNat = 0 := by
  unfold Sign.ofBitVec
  split
  next hclear => simp [hclear]
  next hset => exact iff_of_false (by simp) fun hclear => hset (BitVec.eq_of_toNat_eq hclear)

/-- The bits of a number, read as an integer. Without the sign they are the exponent and the
mantissa of what is finite; the infinities stand right above, and beyond them what is no
number. -/
def HasBits (bits : Nat) : UnpackedFloat → Prop
  | .notANumber => 2047 * 2 ^ 52 < bits % 2 ^ 63
  | .infinity s => bits % 2 ^ 63 = 2047 * 2 ^ 52 ∧ (s = .positive ↔ bits < 2 ^ 63)
  | .zero s => bits % 2 ^ 63 = 0 ∧ (s = .positive ↔ bits < 2 ^ 63)
  | .finite s m e _ => ((bits % 2 ^ 63 : Nat) : Int) = (e + 1074) * 2 ^ 52 + m ∧
      bits % 2 ^ 63 < 2047 * 2 ^ 52 ∧ (s = .positive ↔ bits < 2 ^ 63)

/-- **What is unpacked has the bits that it is unpacked from.** -/
theorem hasBits_unpack (v : BitVec Format.binary64.numBits) :
    HasBits v.toNat (unpack .binary64 v) := by
  have hbias : Format.binary64.exponentBias = 1023 := by decide
  have hlt : v.toNat < 2 ^ 64 := v.isLt
  unfold unpack
  extract_lets mantissa exponentVec exponent signVec sign
  have hmantissa : mantissa.toNat = v.toNat % 2 ^ 52 := toNat_unpackMantissa v
  have hexponent : exponentVec.toNat = v.toNat / 2 ^ 52 % 2 ^ 11 := toNat_unpackExponent v
  have hvalue : exponent = exponentVec.toNat - (1023 + 52) := by
    simp only [exponent, hbias]
    rfl
  have hsign : sign = .positive ↔ v.toNat < 2 ^ 63 := by
    have hbit : signVec.toNat = v.toNat / 2 ^ 63 % 2 := toNat_unpackSign v
    rw [ofBitVec_eq_positive_iff, hbit]
    omega
  have hzero : mantissa = 0#_ ↔ mantissa.toNat = 0 :=
    ⟨fun h => by rw [h]; rfl, fun h => BitVec.eq_of_toNat_eq h⟩
  have hleast : exponentVec = 0#_ ↔ exponentVec.toNat = 0 :=
    ⟨fun h => by rw [h]; rfl, fun h => BitVec.eq_of_toNat_eq h⟩
  have hmost : exponentVec = -1#_ ↔ exponentVec.toNat = 2047 :=
    ⟨fun h => by rw [h]; rfl, fun h => BitVec.eq_of_toNat_eq h⟩
  split
  next hfull =>
    have hfull := hmost.1 hfull
    split
    next hnone =>
      have hnone := hzero.1 hnone
      exact ⟨by omega, hsign⟩
    next hsome =>
      have hsome := mt hzero.2 hsome
      change 2047 * 2 ^ 52 < v.toNat % 2 ^ 63
      omega
  next hless =>
    have hless := mt hmost.2 hless
    split
    next hlow =>
      have hlow := hleast.1 hlow
      split
      next hnone =>
        have hnone := hzero.1 hnone
        exact ⟨by omega, hsign⟩
      next => exact ⟨by omega, by omega, hsign⟩
    next =>
      have hone : (1#1 ++ mantissa).toNat = 2 ^ 52 + mantissa.toNat := toNat_one_append mantissa
      exact ⟨by omega, by omega, hsign⟩

/-- The pattern of a positive number: exponent and mantissa, read as one integer. -/
theorem toNat_of_unpack_finite {m : Nat} {e : Int} {v : BitVec Format.binary64.numBits} {hm : 0 < m}
    (h : unpack .binary64 v = .finite .positive m e hm) :
    (v.toNat : Int) = (e + 1074) * 2 ^ 52 + m ∧ v.toNat < 2 ^ 63 := by
  have hbits := hasBits_unpack v
  rw [h] at hbits
  obtain ⟨hvalue, -, hsign⟩ := hbits
  have hclear : v.toNat < 2 ^ 63 := hsign.1 rfl
  omega

/-- The absolute value that bits without a sign stand for, read as one integer. -/
inductive Sized : Nat → EReal → Prop
  | finite {k m : Nat} {e : Int} (h : Fits .binary64 m e)
      (hk : (k : Int) = (e + 1074) * 2 ^ 52 + m) (hlt : k < 2047 * 2 ^ 52) :
      Sized k (((magnitude m e : ℚ) : ℝ) : EReal)
  | infinite : Sized (2047 * 2 ^ 52) ⊤

variable {k l : Nat} {a b : EReal}

theorem Sized.nonneg (h : Sized k a) : 0 ≤ a := by
  cases h with
  | finite h hk hlt => exact_mod_cast magnitude_nonneg _ _
  | infinite => exact le_top

theorem Sized.le_infinite (h : Sized k a) : k ≤ 2047 * 2 ^ 52 := by
  cases h with
  | finite h hk hlt => exact hlt.le
  | infinite => exact le_rfl

/-- **Absolute values are in the order of their bits.** -/
theorem Sized.lt_iff (ha : Sized k a) (hb : Sized l b) : a < b ↔ k < l := by
  have hmin : Format.binary64.minExponent = -1074 := by decide
  cases ha with
  | @finite k m e h hk hlt =>
    cases hb with
    | @finite l n d h' hl hlt' =>
      have hle : -1074 ≤ e := hmin ▸ h.le
      have hle' : -1074 ≤ d := hmin ▸ h'.le
      have hshort : m < 2 ^ 53 := h.lt
      have hshort' : n < 2 ^ 53 := h'.lt
      have hfull : 2 ^ 52 ≤ m ∨ e = -1074 := hmin ▸ h.full
      have hfull' : 2 ^ 52 ≤ n ∨ d = -1074 := hmin ▸ h'.full
      rw [EReal.coe_lt_coe_iff, Rat.cast_lt, magnitude_lt_iff h h']
      omega
    | infinite => exact iff_of_true (EReal.coe_lt_top _) hlt
  | infinite => exact iff_of_false not_top_lt (not_lt.2 hb.le_infinite)

theorem Sized.eq_iff (ha : Sized k a) (hb : Sized l b) : a = b ↔ k = l := by
  have hlt := ha.lt_iff hb
  have hgt := hb.lt_iff ha
  rw [eq_iff_le_not_lt, ← not_lt, hlt, hgt]
  omega

end Binary

open Binary

variable {p q : UInt64}

/-- The value of a pattern, infinities included; some patterns stand for no number. -/
noncomputable def patternValue? (p : UInt64) : Option EReal :=
  Binary.extended? (unpack .binary64 p.toBitVec)

/-- The pattern has the sign bit. -/
def IsSigned (p : UInt64) : Prop :=
  2 ^ 63 ≤ p.toNat

/-- The low bits of a pattern: the mantissa of a number, the payload of what is none. -/
def payload (p : UInt64) : Nat :=
  p.toNat % 2 ^ 52

/-- A pattern is beyond the infinities, or the absolute value of its bits with its sign. -/
theorem patternValue?_cases (p : UInt64) :
    patternValue? p = none ∧ 2047 * 2 ^ 52 < p.toNat % 2 ^ 63 ∨
      ∃ a, Sized (p.toNat % 2 ^ 63) a ∧
        (IsSigned p → patternValue? p = some (-a)) ∧ (¬ IsSigned p → patternValue? p = some a) := by
  have hmin : Format.binary64.minExponent = -1074 := by decide
  have hcanonical := canonical_unpack (f := .binary64) p.toBitVec
  have hbits : HasBits p.toNat (unpack .binary64 p.toBitVec) := hasBits_unpack p.toBitVec
  have hside : ∀ {s : Sign}, (s = .positive ↔ p.toNat < 2 ^ 63) →
      (IsSigned p → s = .negative) ∧ (¬ IsSigned p → s = .positive) := by
    intro s hsign
    cases s <;> simpa [IsSigned] using hsign
  unfold patternValue?
  cases hu : unpack .binary64 p.toBitVec with
  | notANumber =>
    rw [hu] at hbits
    exact .inl ⟨rfl, hbits⟩
  | infinity s =>
    rw [hu] at hbits
    obtain ⟨hsize, hsign⟩ := hbits
    obtain ⟨hneg, hpos⟩ := hside hsign
    refine .inr ⟨⊤, hsize ▸ .infinite, fun h => ?_, fun h => ?_⟩
    · simp [hneg h, extended?]
    · simp [hpos h, extended?]
  | zero s =>
    rw [hu] at hbits
    have hfits : Fits .binary64 0 (-1074) := ⟨by decide, by decide, .inr hmin.symm⟩
    have hzero : magnitude 0 (-1074) = 0 := by simp [magnitude]
    refine .inr ⟨0, ?_, fun h => ?_, fun h => ?_⟩
    · rw [hbits.1]
      simpa [hzero] using Sized.finite hfits (k := 0) (by norm_num) (by norm_num)
    · simp [extended?]
    · simp [extended?]
  | finite s m e hm =>
    rw [hu] at hbits hcanonical
    obtain ⟨hsize, hlt, hsign⟩ := hbits
    obtain ⟨hneg, hpos⟩ := hside hsign
    refine .inr ⟨_, .finite hcanonical hsize hlt, fun h => ?_, fun h => ?_⟩
    · simp [hneg h, extended?, signed]
    · simp [hpos h, extended?, signed]

/-- What is above zero has no sign. -/
theorem not_isSigned_of_pos {x : EReal} (h : patternValue? p = some x) (hpos : 0 < x) :
    ¬ IsSigned p := by
  intro hsigned
  rcases patternValue?_cases p with ⟨hnone, -⟩ | ⟨a, ha, hvalue, -⟩
  · rw [hnone] at h
    cases h
  · rw [hvalue hsigned] at h
    obtain rfl := Option.some.inj h
    exact absurd hpos (not_lt.2 (EReal.neg_le_zero.2 ha.nonneg))

/-- **The total order of patterns**, as the floating-point standard defines it. -/
def TotalLe (p q : UInt64) : Prop :=
  match patternValue? p, patternValue? q with
  | some x, some y => x < y ∨ x = y ∧ (IsSigned q → IsSigned p)
  | some _, none => ¬ IsSigned q
  | none, some _ => IsSigned p
  | none, none =>
    IsSigned p ∧ (IsSigned q → payload q ≤ payload p) ∨
      ¬ IsSigned p ∧ ¬ IsSigned q ∧ payload p ≤ payload q

/-- Patterns with the sign bit are in the falling order of their other bits. -/
theorem totalLe_iff_of_isSigned (hp : IsSigned p) (hq : IsSigned q) :
    TotalLe p q ↔ q.toNat % 2 ^ 63 ≤ p.toNat % 2 ^ 63 := by
  unfold TotalLe
  rcases patternValue?_cases p with ⟨hnone, hfar⟩ | ⟨a, ha, hvalue, -⟩
  · rcases patternValue?_cases q with ⟨hnone', hfar'⟩ | ⟨b, hb, hvalue', -⟩
    · simp only [hnone, hnone', hp, hq, payload, not_true_eq_false, true_and, false_and, or_false,
        forall_const]
      omega
    · have hle := hb.le_infinite
      simp only [hnone, hvalue' hq, hp, true_iff]
      omega
  · rcases patternValue?_cases q with ⟨hnone', hfar'⟩ | ⟨b, hb, hvalue', -⟩
    · have hle := ha.le_infinite
      simp only [hvalue hp, hnone', hq, not_true_eq_false, false_iff]
      omega
    · simp only [hvalue hp, hvalue' hq, hp, hq, EReal.neg_lt_neg_iff, neg_inj, forall_const,
        and_true]
      rw [hb.lt_iff ha, ha.eq_iff hb]
      omega

/-- Patterns without the sign bit are in the rising order of their bits. -/
theorem totalLe_iff_of_not_isSigned (hp : ¬ IsSigned p) (hq : ¬ IsSigned q) :
    TotalLe p q ↔ p.toNat % 2 ^ 63 ≤ q.toNat % 2 ^ 63 := by
  unfold TotalLe
  rcases patternValue?_cases p with ⟨hnone, hfar⟩ | ⟨a, ha, -, hvalue⟩
  · rcases patternValue?_cases q with ⟨hnone', hfar'⟩ | ⟨b, hb, -, hvalue'⟩
    · simp only [hnone, hnone', hp, hq, payload, not_false_eq_true, true_and, false_and, false_or]
      omega
    · have hle := hb.le_infinite
      simp only [hnone, hvalue' hq, hp, false_iff]
      omega
  · rcases patternValue?_cases q with ⟨hnone', hfar'⟩ | ⟨b, hb, -, hvalue'⟩
    · have hle := ha.le_infinite
      simp only [hvalue hp, hnone', hq, not_false_eq_true, true_iff]
      omega
    · simp only [hvalue hp, hvalue' hq, hp, hq, and_true, false_implies]
      rw [ha.lt_iff hb, ha.eq_iff hb]
      omega

/-- Patterns with the sign bit come before those without. -/
theorem totalLe_of_isSigned (hp : IsSigned p) (hq : ¬ IsSigned q) : TotalLe p q := by
  unfold TotalLe
  rcases patternValue?_cases p with ⟨hnone, -⟩ | ⟨a, ha, hvalue, -⟩
  · rcases patternValue?_cases q with ⟨hnone', -⟩ | ⟨b, hb, -, hvalue'⟩
    · simp only [hnone, hnone']
      exact .inl ⟨hp, fun h => absurd h hq⟩
    · simpa only [hnone, hvalue' hq] using hp
  · rcases patternValue?_cases q with ⟨hnone', -⟩ | ⟨b, hb, -, hvalue'⟩
    · simpa only [hvalue hp, hnone'] using hq
    · have hle : -a ≤ b := (EReal.neg_le_zero.2 ha.nonneg).trans hb.nonneg
      simp only [hvalue hp, hvalue' hq]
      exact hle.lt_or_eq.imp id fun h => ⟨h, fun _ => hp⟩

theorem not_totalLe_of_isSigned (hp : ¬ IsSigned p) (hq : IsSigned q) : ¬ TotalLe p q := by
  unfold TotalLe
  rcases patternValue?_cases p with ⟨hnone, -⟩ | ⟨a, ha, -, hvalue⟩
  · rcases patternValue?_cases q with ⟨hnone', -⟩ | ⟨b, hb, hvalue', -⟩
    · simp [hnone, hnone', hp, hq]
    · simpa only [hnone, hvalue' hq] using hp
  · rcases patternValue?_cases q with ⟨hnone', -⟩ | ⟨b, hb, hvalue', -⟩
    · simpa only [hvalue hp, hnone', not_not] using hq
    · have hle : -b ≤ a := (EReal.neg_le_zero.2 hb.nonneg).trans ha.nonneg
      simp only [hvalue hp, hvalue' hq]
      rintro (hlt | ⟨-, hsign⟩)
      · exact absurd hlt (not_lt.2 hle)
      · exact hp (hsign hq)

theorem patternRank_of_isSigned (h : IsSigned p) :
    patternRank p = -((p.toNat % 2 ^ 63 : Nat) : Int) - 1 := by
  have hlt : p.toNat < 2 ^ 64 := p.toNat_lt
  unfold IsSigned at h
  rw [patternRank, if_neg (Nat.not_lt.2 h)]
  omega

theorem patternRank_of_not_isSigned (h : ¬ IsSigned p) :
    patternRank p = (p.toNat % 2 ^ 63 : Nat) := by
  have hlt : p.toNat < 2 ^ 63 := Nat.lt_of_not_le h
  rw [patternRank, if_pos hlt]
  omega

/-- **Ranks are in the total order of patterns.** -/
theorem patternRank_le_iff (p q : UInt64) : patternRank p ≤ patternRank q ↔ TotalLe p q := by
  by_cases hp : IsSigned p
  · rw [patternRank_of_isSigned hp]
    by_cases hq : IsSigned q
    · rw [patternRank_of_isSigned hq, totalLe_iff_of_isSigned hp hq]
      omega
    · rw [patternRank_of_not_isSigned hq]
      exact iff_of_true (by omega) (totalLe_of_isSigned hp hq)
  · rw [patternRank_of_not_isSigned hp]
    by_cases hq : IsSigned q
    · rw [patternRank_of_isSigned hq]
      exact iff_of_false (by omega) (not_totalLe_of_isSigned hp hq)
    · rw [patternRank_of_not_isSigned hq, totalLe_iff_of_not_isSigned hp hq]
      omega

/-- A pattern has a rank of its own. -/
theorem patternRank_injective : Function.Injective patternRank := by
  intro p q h
  have hp : p.toNat < 2 ^ 64 := p.toNat_lt
  have hq : q.toNat < 2 ^ 64 := q.toNat_lt
  refine UInt64.toNat_inj.1 ?_
  unfold patternRank at h
  split at h <;> split at h <;> omega

/-- **The total order is a linear order** of all patterns, also of those without a number. -/
theorem isLinearOrder_totalLe : IsLinearOrder UInt64 TotalLe where
  refl p := (patternRank_le_iff p p).1 le_rfl
  trans p q r hpq hqr := by
    rw [← patternRank_le_iff] at hpq hqr ⊢
    exact hpq.trans hqr
  antisymm p q hpq hqp := by
    rw [← patternRank_le_iff] at hpq hqp
    exact patternRank_injective (le_antisymm hpq hqp)
  total p q := by
    rw [← patternRank_le_iff, ← patternRank_le_iff]
    exact le_total _ _

end Reframe
