import Reframe.Proofs.Number.Order

/-!
# What is finite, and how large

A product is finite only if its factors are. Rounding passes nothing that the format
stores, so a bound on the exact product is a bound on the product, and a part of a number
is no more than the number. A sum does not grow beyond a number at which one more part is
lost, however many parts it has.

* `Binary.IsNearest.exists_abs_le`: a bound on what is rounded.
* `Binary.Amount.exists_mul_le`: **a part of an amount is no more than the amount**.
* `Binary.exists_widen`: how large a number of 32 bits can be.
* `Binary.Absorbs.exists_add_le`: sums stay below where parts are lost.
-/

namespace Reframe.Binary

open Float.Model (Format UnpackedFloat)
open Float.Model.UnpackedFloat

section Formats

variable {f : Format} {s : Sign} {m : Nat} {e : Int} {u v : UnpackedFloat}

/-- The exponent of what is unpacked is one that the format has. -/
theorem exponent_le_of_unpack {b : BitVec f.numBits} {hm : 0 < m} (hbias : 1 ≤ f.exponentBias)
    (h : unpack f b = .finite s m e hm) :
    e ≤ f.exponentBias - f.mantissaBitsWithoutImplicit := by
  have hexp := two_pow_exponentBits f
  unfold unpack at h
  extract_lets mantissa exponentVec exponent signVec sign at h
  have hvalue : exponent = exponentVec.toNat - (f.exponentBias + f.mantissaBitsWithoutImplicit) :=
    rfl
  split at h
  · split at h <;> cases h
  next hlarge =>
    have hle : exponentVec.toNat + 2 ≤ 2 ^ f.exponentBits := by
      have hlt := exponentVec.isLt
      have hne : exponentVec.toNat ≠ 2 ^ f.exponentBits - 1 := by
        intro heq
        refine hlarge (BitVec.eq_of_toNat_eq ?_)
        rw [heq, BitVec.neg_one_eq_allOnes, BitVec.toNat_allOnes]
      omega
    split at h
    next hzero =>
      split at h
      · cases h
      · injection h with hs hm he
        have hzero : exponentVec.toNat = 0 := by
          rw [hzero]
          rfl
        omega
    next =>
      injection h with hs hm he
      omega

theorem exists_rational? (h : u.isFinite) : ∃ x, rational? u = some x := by
  cases u with
  | zero s => exact ⟨_, rfl⟩
  | finite s m e hm => exact ⟨_, rfl⟩
  | notANumber => cases h
  | infinity s => cases h

/-- A product is finite only if its factors are. -/
theorem isFinite_of_mul (h : (UnpackedFloat.mul f u v).isFinite) : u.isFinite ∧ v.isFinite := by
  cases u <;> cases v <;> first | exact ⟨rfl, rfl⟩ | cases h

/-- Packing makes nothing finite. -/
theorem isFinite_of_pack (h : (unpack .binary64 (pack .binary64 u)).isFinite) : u.isFinite := by
  cases u with
  | zero s => rfl
  | finite s m e hm => rfl
  | notANumber => exact absurd h (by decide)
  | infinity s =>
    rw [pack, unpack_packedInfinity] at h
    cases h

/-- Converting makes nothing finite. -/
theorem isFinite_of_convert (h : (convert f u).isFinite) : u.isFinite := by
  cases u with
  | zero s => rfl
  | finite s m e hm => rfl
  | notANumber => cases h
  | infinity s => cases h

end Formats

section Doubles

variable {a b : Float} {s : Sign} {m n : Nat} {e t : Int} {x y z w : ℚ}

/-- **What is finite and not below zero is an amount.** -/
theorem exists_amount (hfinite : a.toModel.unpack.isFinite) (hneg : ¬ a < 0.0) :
    ∃ x, Amount a x := by
  obtain ⟨x, hx⟩ := exists_rational? hfinite
  refine ⟨x, hx, ?_⟩
  rw [not_lt_zero_iff] at hneg
  rcases rational?_cases hx with ⟨s, hu, rfl⟩ | ⟨s, m, e, hm, hu, rfl⟩
  · exact le_rfl
  · rw [hu] at hneg
    cases s with
    | positive => exact magnitude_nonneg m e
    | negative => exact hneg.elim

/-- A bound that the format stores is one on what is rounded, and so is zero. -/
theorem IsNearest.exists_abs_le (h : IsNearest a x) (hn : n < 2 ^ 53) (hmin : -1074 ≤ t)
    (hmax : t ≤ 971) (hx : |x| ≤ magnitude n t) :
    ∃ y, Denotes a y ∧ |y| ≤ magnitude n t ∧ (0 ≤ x → 0 ≤ y) := by
  obtain ⟨u, ⟨s, z, ⟨m, e, rfl, hfits, hround⟩, hz, rfl⟩, rfl⟩ := h
  rw [abs_signed s hz] at hx
  have hle : magnitude m e ≤ magnitude n t := (hround n t hn.le hmin).2 hx
  have he : e ≤ (971 : Nat) := by
    refine hfits.exponent_le (hle.trans_lt ?_)
    calc magnitude n t ≤ magnitude n (971 : Nat) := magnitude_le_right n hmax
      _ < magnitude (2 ^ 53) (971 : Nat) :=
        mul_lt_mul_of_pos_right (by exact_mod_cast hn) (by positivity)
  refine ⟨_, denotes_ofMagnitude_of_le hfits he, ?_, fun hsign => ?_⟩
  · rwa [abs_signed s (magnitude_nonneg m e)]
  · cases s with
    | positive => exact magnitude_nonneg m e
    | negative =>
      -- what is below zero and is not is zero, and so is what becomes of it
      have hz0 : z ≤ magnitude 0 t := by
        rw [magnitude, Nat.cast_zero, zero_mul]
        exact neg_nonneg.1 hsign
      have hzero : magnitude m e ≤ magnitude 0 t := (hround 0 t (Nat.zero_le _) hmin).2 hz0
      rw [magnitude, magnitude, Nat.cast_zero, zero_mul] at hzero
      exact neg_nonneg.2 hzero

/-- **A part of an amount is no more than the amount**, also when it is rounded. -/
theorem Amount.exists_mul_le (ha : Amount a x) (hx : x ≤ 1) (hb : Amount b y) :
    ∃ z, Amount (a * b) z ∧ z ≤ y := by
  have hround := ha.denotes.mul hb.denotes
  have hxy : |x * y| ≤ y := by
    rw [abs_of_nonneg (mul_nonneg ha.nonneg hb.nonneg)]
    exact mul_le_of_le_one_left hb.nonneg hx
  have hfits := canonical b
  obtain ⟨n, t, hn, hmin, hmax, rfl⟩ :
      ∃ n t, n < 2 ^ 53 ∧ -1074 ≤ t ∧ t ≤ 971 ∧ y = magnitude n t := by
    rcases rational?_nonneg_cases hb.denotes hb.nonneg with ⟨s, -, rfl⟩ | ⟨n, t, hn, hu, rfl⟩
    · refine ⟨0, 0, by decide, by decide, by decide, ?_⟩
      rw [magnitude, Nat.cast_zero, zero_mul]
    · rw [hu] at hfits
      exact ⟨n, t, hfits.lt, hfits.le, exponent_le_of_unpack (by decide) hu, rfl⟩
  obtain ⟨z, hz, hle, hsign⟩ := hround.exists_abs_le hn hmin hmax hxy
  exact ⟨z, ⟨hz, hsign (mul_nonneg ha.nonneg hb.nonneg)⟩, (le_abs_self z).trans hle⟩

/-- An amount divided by one that is no less. -/
theorem Amount.exists_div_le (ha : Amount a x) (hb : Amount b y) (hpos : 0 < y) (hxy : x ≤ y) :
    ∃ r, Amount (a / b) r ∧ r ≤ 1 := by
  have hzero : IsShort ((0 : Int) : ℚ) := isShort_int (by norm_num)
  have hone : IsShort ((1 : Int) : ℚ) := isShort_int (by norm_num)
  rw [Int.cast_zero] at hzero
  rw [Int.cast_one] at hone
  obtain ⟨r, hr, hr0, hr1⟩ := (ha.denotes.div hb.denotes hpos.ne').between hzero hone
    (div_nonneg ha.nonneg hb.nonneg) ((div_le_one hpos).2 hxy)
  exact ⟨r, ⟨hr, hr0⟩, hr1⟩

/-- To the first number the second makes no difference. -/
structure Absorbs (a b : Float) (x y : ℚ) : Prop where
  whole : Amount a x
  part : Amount b y
  lost : a + b = a

/-- **A sum does not grow beyond a number at which parts are lost**, one part after the
other. -/
theorem Absorbs.exists_add_le {c d : Float} (h : Absorbs c d z w) (ha : Amount a x)
    (hb : Amount b y) (hx : x ≤ z) (hy : y ≤ w) : ∃ t, Amount (a + b) t ∧ t ≤ z := by
  refine ha.add_le hb h.whole h.part (add_le_add hx hy) ?_
  rw [h.lost]
  exact h.whole.denotes

theorem amount_zero : Amount 0.0 0 :=
  ⟨rfl, le_rfl⟩

theorem absorbs_zero : Absorbs 0.0 0.0 0 0 :=
  ⟨amount_zero, amount_zero, by decide +kernel⟩

/-- Sums of numbers up to `2 ^ 159` do not grow beyond `2 ^ 213`. -/
theorem absorbs_large :
    Absorbs (Float.ofBits 0x4D40000000000000) (Float.ofBits 0x49E0000000000000)
      (2 ^ 213) (2 ^ 159) := by
  have hpow : ∀ n : Nat, magnitude (2 ^ 52) n = 2 ^ (52 + n) := fun n => by
    rw [magnitude, zpow_natCast, pow_add, Nat.cast_pow, Nat.cast_ofNat]
  have hamount : ∀ {a : Float} {n : Nat},
      a.toModel.unpack = .finite .positive (2 ^ 52) n (by decide) → Amount a (2 ^ (52 + n)) := by
    intro a n hunpack
    rw [← hpow]
    exact ⟨HasValue.denotes ⟨_, _, _, hunpack, rfl⟩, magnitude_nonneg _ _⟩
  exact ⟨hamount (n := 161) rfl, hamount (n := 107) rfl, by decide +kernel⟩

theorem nears_of_canonical {f : Format} {u : UnpackedFloat} (hu : Canonical f u)
    (hx : rational? u = some x) : Nears f x u := by
  rcases rational?_cases hx with ⟨s, rfl, rfl⟩ | ⟨s, m, e, hm, rfl, rfl⟩
  · exact nears_zero s
  · exact nears_finite hu

theorem Denotes.neg (ha : Denotes a x) : IsNearest (-a) (-x) :=
  ⟨_, nears_of_canonical (canonical_neg (canonical a)) (rational?_neg ha), rfl⟩

/-- **Integers of up to 53 bits are themselves.** -/
theorem denotes_ofInt {k : Int} (hk : |k| < 2 ^ 53) : Denotes (Scalar.ofInt k) k := by
  cases k with
  | ofNat n =>
    rw [Int.ofNat_eq_natCast, Nat.abs_cast] at hk
    exact denotes_ofNat (by exact_mod_cast hk)
  | negSucc n =>
    have hn : n + 1 < 2 ^ 53 := by
      have hlow := (abs_lt.1 hk).1
      omega
    have hvalue : ((Int.negSucc n : Int) : ℚ) = -((n + 1 : Nat) : ℚ) := Int.cast_negSucc n
    refine IsNearest.denotes ?_ (isShort_int hk.le)
    rw [hvalue]
    exact (denotes_ofNat hn).neg

/-- **A number of 32 bits** is less than `2 ^ 128`, and 64 bits have room for it. -/
theorem exists_widen {q : Float32} (h : (widen q).toModel.unpack.isFinite) :
    ∃ x, Denotes (widen q) x ∧ |x| ≤ 2 ^ 128 := by
  rw [widen, unpack_double] at h
  obtain ⟨x, hx⟩ := exists_rational? (isFinite_of_convert (isFinite_of_pack h))
  have hcanonical : Canonical .binary32 q.toModel.unpack := canonical_unpack _
  have hlarge : magnitude 1 128 = 2 ^ 128 := by norm_num [magnitude]
  have hnears : Nears .binary64 x (convert .binary64 q.toModel.unpack) ∧ |x| ≤ 2 ^ 128 := by
    rcases rational?_cases hx with ⟨s, hu, rfl⟩ | ⟨s, m, e, hm, hu, rfl⟩
    · rw [hu, abs_zero]
      exact ⟨nears_zero s, by positivity⟩
    · have he : e ≤ 104 := exponent_le_of_unpack (by decide) hu
      rw [hu] at hcanonical
      rw [hu, convert, ofParts, if_neg (Nat.ne_of_gt hm), abs_signed s (magnitude_nonneg m e)]
      refine ⟨⟨s, _, isRounded_round hm s e, magnitude_nonneg m e, rfl⟩, ?_⟩
      calc magnitude m e ≤ magnitude (2 ^ 24) e := magnitude_le_left hcanonical.lt.le e
        _ ≤ magnitude (2 ^ 24) 104 := magnitude_le_right _ he
        _ = 2 ^ 128 := by norm_num [magnitude]
  have hround : IsNearest (widen q) x := ⟨_, hnears.1, rfl⟩
  obtain ⟨y, hy, hle, -⟩ := hround.exists_abs_le (n := 1) (t := 128) (by decide) (by decide)
    (by decide) (hnears.2.trans_eq hlarge.symm)
  exact ⟨y, hy, hle.trans_eq hlarge⟩

end Doubles

end Reframe.Binary
