import Reframe.Proofs.Number.Sign

/-!
# Canonical numbers

A number with many mantissas has one that a format stores: the longest that fits, at the
least exponent that the format has. What is unpacked is in that form, and what is in that
form is packed without loss, unless its exponent is beyond the format, when it becomes an
infinity.

* `Binary.Canonical`: in the form that a format stores.
* `Binary.canonical_unpack`: whatever is unpacked.
* `Binary.unpack_pack_finite`: what becomes of a number in that form.
-/

namespace Reframe.Binary

open Float.Model (Format UnpackedFloat totalExponent)
open Float.Model.UnpackedFloat

variable {f : Format} {s : Sign} {m : Nat} {e : Int}

/-- The magnitude `m * 2 ^ e` as a format stores it: no bit of the mantissa is to spare,
unless the exponent is the least. -/
structure Fits (f : Format) (m : Nat) (e : Int) : Prop where
  lt : m < 2 ^ f.mantissaBits
  le : f.minExponent ≤ e
  full : 2 ^ f.mantissaBitsWithoutImplicit ≤ m ∨ e = f.minExponent

/-- The number is in the form that a format stores. -/
def Canonical (f : Format) : UnpackedFloat → Prop
  | .finite _ m e _ => Fits f m e
  | _ => True

theorem two_pow_mantissaBits (f : Format) :
    2 ^ f.mantissaBits = 2 * 2 ^ f.mantissaBitsWithoutImplicit := by
  rw [Format.mantissaBits, Nat.add_comm, Nat.pow_succ, Nat.mul_comm]

theorem two_pow_exponentBits (f : Format) : 2 ^ f.exponentBits = 2 * (f.exponentBias + 1) := by
  have hpos := f.he
  have hone : 0 < 2 ^ (f.exponentBits - 1) := Nat.two_pow_pos _
  have hsucc : 2 ^ f.exponentBits = 2 ^ (f.exponentBits - 1) * 2 := by
    rw [← Nat.pow_succ]
    congr 1
    omega
  rw [Format.exponentBias]
  omega

theorem minExponent_eq (f : Format) :
    f.minExponent = 1 - f.exponentBias - f.mantissaBitsWithoutImplicit := by
  have hone : 0 < 2 ^ (f.exponentBits - 1) := Nat.two_pow_pos _
  have hcast : (2 : Int) ^ (f.exponentBits - 1) = ((2 ^ (f.exponentBits - 1) : Nat) : Int) := by
    rw [Int.natCast_pow]
    rfl
  rw [Format.minExponent, hcast, Format.exponentBias, Format.mantissaBits]
  omega

theorem toNat_one_append {k : Nat} (v : BitVec k) : (1#1 ++ v).toNat = 2 ^ k + v.toNat := by
  have hor := Nat.two_pow_add_eq_or_of_lt v.isLt 1
  rw [Nat.mul_one] at hor
  rw [BitVec.toNat_append, Nat.shiftLeft_eq, hor]
  congr 1
  exact Nat.one_mul _

/-- **What is unpacked is canonical.** -/
theorem canonical_unpack (b : BitVec f.numBits) : Canonical f (unpack f b) := by
  have hmin := minExponent_eq f
  have hpow := two_pow_mantissaBits f
  unfold unpack
  extract_lets mantissa exponentVec exponent signVec sign
  have hm := mantissa.isLt
  split
  · split <;> trivial
  next hlarge =>
    split
    next hzero =>
      split
      · trivial
      · have he : exponentVec.toNat = 0 := by
          rw [hzero]
          rfl
        refine ⟨by omega, ?_, .inr ?_⟩ <;> omega
    next hnormal =>
      have happend := toNat_one_append mantissa
      have he : exponentVec.toNat ≠ 0 := by
        intro h
        exact hnormal (BitVec.eq_of_toNat_eq h)
      exact ⟨by omega, by omega, .inl (by omega)⟩

theorem unpack_packedInfinity (s : Sign) : unpack f (packedInfinity f s) = .infinity s := by
  unfold unpack packedInfinity
  simp only [unpackExponent_packComponents, unpackMantissa_packComponents,
    unpackSign_packComponents, Sign.ofBitVec_toBitVec, BitVec.ofNat_eq_ofNat, if_true]

/-- A canonical number whose exponent the format has is packed without loss. -/
theorem unpack_pack_finite {hm : 0 < m} (h : Fits f m e)
    (hmax : e ≤ f.exponentBias - f.mantissaBitsWithoutImplicit) :
    unpack f (pack f (.finite s m e hm)) = .finite s m e hm := by
  have hmin := minExponent_eq f
  have hpow := two_pow_mantissaBits f
  have hexp := two_pow_exponentBits f
  have hlt := h.lt
  have hle := h.le
  have hbits : f.mantissaBits = f.mantissaBitsWithoutImplicit + 1 := Nat.add_comm _ _
  obtain ⟨k, hk⟩ : ∃ k : Nat, e + f.exponentBias + f.mantissaBitsWithoutImplicit = k :=
    Int.eq_ofNat_of_zero_le (by omega)
  have hsmall : ¬ 2 ^ f.exponentBits ≤ k + 1 := by omega
  have hknat : (BitVec.ofNat f.exponentBits k).toNat = k := by
    rw [BitVec.toNat_ofNat, Nat.mod_eq_of_lt (by omega)]
  unfold pack
  dsimp only
  rw [hk, Int.toNat_natCast, if_neg hsmall]
  by_cases hfull : 2 ^ f.mantissaBitsWithoutImplicit ≤ m
  · -- the leading bit is left out, and comes back
    have hlog : m.log2 + 1 = f.mantissaBits := by
      have hlow := (Nat.le_log2 (Nat.ne_of_gt hm)).2 hfull
      have hhigh := (Nat.log2_lt (Nat.ne_of_gt hm)).2 hlt
      omega
    have hmod : m % 2 ^ f.mantissaBitsWithoutImplicit = m - 2 ^ f.mantissaBitsWithoutImplicit := by
      rw [Nat.mod_eq_sub_mod hfull, Nat.mod_eq_of_lt (by omega)]
    have hmantissa : (1#1 ++ BitVec.ofNat f.mantissaBitsWithoutImplicit m).toNat = m := by
      rw [toNat_one_append, BitVec.toNat_ofNat, hmod]
      omega
    have hlarge : ¬ BitVec.ofNat f.exponentBits k = -1#f.exponentBits := by
      intro heq
      have heq := congrArg BitVec.toNat heq
      rw [hknat, BitVec.neg_one_eq_allOnes, BitVec.toNat_allOnes] at heq
      omega
    have hzero : ¬ BitVec.ofNat f.exponentBits k = 0#f.exponentBits := by
      intro heq
      have heq := congrArg BitVec.toNat heq
      rw [hknat, BitVec.toNat_ofNat, Nat.zero_mod] at heq
      omega
    rw [if_pos hlog]
    unfold unpack
    simp only [unpackExponent_packComponents, unpackMantissa_packComponents,
      unpackSign_packComponents, Sign.ofBitVec_toBitVec, if_neg hlarge, if_neg hzero, hknat,
      hmantissa]
    congr 1
    omega
  · have he : e = f.minExponent := h.full.resolve_left hfull
    have hlog : ¬ m.log2 + 1 = f.mantissaBits := by
      have hhigh := (Nat.log2_lt (Nat.ne_of_gt hm)).2 (Nat.lt_of_not_le hfull)
      omega
    have hmantissa : (BitVec.ofNat f.mantissaBitsWithoutImplicit m).toNat = m := by
      rw [BitVec.toNat_ofNat, Nat.mod_eq_of_lt (Nat.lt_of_not_le hfull)]
    have hne : ¬ BitVec.ofNat f.mantissaBitsWithoutImplicit m =
        0#f.mantissaBitsWithoutImplicit := by
      intro heq
      have heq := congrArg BitVec.toNat heq
      rw [hmantissa, BitVec.toNat_ofNat, Nat.zero_mod] at heq
      omega
    have hlarge : ¬ 0#f.exponentBits = -1#f.exponentBits :=
      mt BitVec.zero_eq_neg_one_iff.1 (Nat.ne_of_gt f.he)
    rw [if_neg hlog]
    unfold unpack
    simp only [unpackExponent_packComponents, unpackMantissa_packComponents,
      unpackSign_packComponents, Sign.ofBitVec_toBitVec, if_neg hlarge, if_true, dif_neg hne,
      hmantissa, BitVec.toNat_ofNat, Nat.zero_mod]
    congr 1
    omega

/-- A canonical number whose exponent is beyond the format becomes an infinity. -/
theorem unpack_pack_overflow {hm : 0 < m}
    (hmax : f.exponentBias - f.mantissaBitsWithoutImplicit < e) :
    unpack f (pack f (.finite s m e hm)) = .infinity s := by
  have hexp := two_pow_exponentBits f
  have hlarge : 2 ^ f.exponentBits ≤
      (e + f.exponentBias + f.mantissaBitsWithoutImplicit).toNat + 1 := by
    omega
  unfold pack
  dsimp only
  rw [if_pos hlarge, unpack_packedInfinity]

end Reframe.Binary
