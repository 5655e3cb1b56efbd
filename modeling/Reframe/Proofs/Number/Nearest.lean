import Reframe.Proofs.Number.Distance

/-!
# Rounding goes to the nearest

What rounding loses is at most half of a unit in the last place. A number below 1 has no unit
larger than `2 ^ -53`, so a quotient of a smaller by a larger number is off by at most
`2 ^ -54`, and so is the distance of two numbers that are less than 1 apart.

* `Binary.Locates.abs_rounded_sub_le`: a mantissa is off by at most a half.
* `Binary.roundsEven_div`, `Binary.roundsEven_mul`: quotients and products are rounded to nearest.
* `Binary.RoundsEven.nearest`: **nothing that the format stores is nearer**.
* `Binary.RoundsEven.exists_place`, `Binary.RoundsEven.exists_near`: **what rounding loses**.
* `Binary.Amount.exists_div_near`, `Binary.exists_apart_near`: quotients and distances.
-/

namespace Reframe.Binary

open Float.Model (Format UnpackedFloat)
open Float.Model.UnpackedFloat

section Formats

variable {f : Format} {m n : Nat} {d e t : Int} {x y : ℚ} {u v : UnpackedFloat}
  {em : ExtendedMantissa}

/-- **A mantissa is rounded to the nearer neighbour.** -/
theorem Locates.abs_rounded_sub_le (h : Locates em x) : |(em.roundedMantissa : ℚ) - x| ≤ 1 / 2 := by
  obtain ⟨m, round, sticky⟩ := em
  rw [abs_le]
  cases round <;> cases sticky <;> simp only [Locates] at h <;>
    simp only [ExtendedMantissa.roundedMantissa, ExtendedMantissa.accuracy,
      Accuracy.roundToNearestEven]
  · constructor <;> linarith
  · constructor <;> linarith
  · -- the middle goes to either side
    have hmod : ((m % 2 : Nat) : ℚ) ≤ 1 := by
      exact_mod_cast Nat.le_of_lt_succ (Nat.mod_lt m Nat.two_pos)
    have hnonneg : (0 : ℚ) ≤ (m % 2 : Nat) := Nat.cast_nonneg _
    push_cast at *
    constructor <;> linarith
  · push_cast
    constructor <;> linarith

/-- What a long division leaves says on which side of the middle the quotient lies. -/
theorem locates_div (k : Nat) (hm : 0 < m) :
    Locates (ExtendedMantissa.ofMantissaAndAccuracy (k / m) (accuracyOfFraction (k % m) m))
      (k / m : ℚ) := by
  have hpos : (0 : ℚ) < m := by exact_mod_cast hm
  have hhigh : ((k % m : Nat) : ℚ) / m < 1 := by
    rw [div_lt_one hpos]
    exact_mod_cast Nat.mod_lt k hm
  rw [natCast_div k hm]
  unfold accuracyOfFraction
  split
  next hzero =>
    rw [hzero, Nat.cast_zero, zero_div, add_zero]
    rfl
  next hrest =>
    have hlow : (0 : ℚ) < ((k % m : Nat) : ℚ) / m :=
      div_pos (by exact_mod_cast Nat.pos_of_ne_zero hrest) hpos
    -- twice the remainder against the divisor is the rest of the quotient against a half
    cases hcompare : compare (2 * (k % m)) m with
    | lt =>
      have hlt : (2 * (k % m : Nat) : ℚ) < m := by exact_mod_cast Nat.compare_eq_lt.1 hcompare
      have hless : ((k % m : Nat) : ℚ) / m < 1 / 2 := by
        rw [div_lt_div_iff₀ hpos two_pos]
        linarith
      exact ⟨by linarith, by linarith⟩
    | eq =>
      have heq : (2 * (k % m : Nat) : ℚ) = m := by exact_mod_cast Nat.compare_eq_eq.1 hcompare
      have hsame : ((k % m : Nat) : ℚ) / m = 1 / 2 := by
        rw [div_eq_div_iff hpos.ne' two_ne_zero]
        linarith
      rw [hsame]
      rfl
    | gt =>
      have hgt : (m : ℚ) < 2 * (k % m : Nat) := by exact_mod_cast Nat.compare_eq_gt.1 hcompare
      have hmore : 1 / 2 < ((k % m : Nat) : ℚ) / m := by
        rw [div_lt_div_iff₀ two_pos hpos]
        linarith
      exact ⟨by linarith, by linarith⟩

/-- **A quotient is rounded to nearest.** -/
theorem roundsEven_div (hx : rational? u = some x) (hy : rational? v = some y) (hx0 : 0 ≤ x)
    (hy0 : 0 < y) : RoundsEven f (x / y) (UnpackedFloat.div f u v) := by
  rcases rational?_nonneg_cases hy hy0.le with ⟨t, -, rfl⟩ | ⟨n, d, hn, rfl, rfl⟩
  · exact absurd hy0 (lt_irrefl 0)
  · rcases rational?_nonneg_cases hx hx0 with ⟨s, rfl, rfl⟩ | ⟨m, e, hm, rfl, rfl⟩
    · rw [zero_div]
      exact roundsEven_zero _
    · obtain ⟨k, t, hdiv, hbits, hvalue⟩ := exists_div (f := f) hm hn .positive .positive e d
      rw [hdiv, ← hvalue]
      exact roundsEven_roundWithAccuracy hbits (locates_div k hn)

/-- **A product is rounded to nearest.** -/
theorem roundsEven_mul (hu : Canonical f u) (hv : Canonical f v) (hx : rational? u = some x)
    (hy : rational? v = some y) (hx0 : 0 ≤ x) (hy0 : 0 ≤ y) :
    RoundsEven f (x * y) (UnpackedFloat.mul f u v) := by
  rcases rational?_nonneg_cases hx hx0 with ⟨s, rfl, rfl⟩ | ⟨m, e, hm, rfl, rfl⟩
  · rw [zero_mul]
    rcases rational?_nonneg_cases hy hy0 with ⟨t, rfl, -⟩ | ⟨n, d, hn, rfl, -⟩
    · exact roundsEven_zero _
    · exact roundsEven_zero _
  · rcases rational?_nonneg_cases hy hy0 with ⟨t, rfl, rfl⟩ | ⟨n, d, hn, rfl, rfl⟩
    · rw [mul_zero]
      exact roundsEven_zero _
    · have hvalue : ((m * n : Nat) : ℚ) * 2 ^ (e + d) = magnitude m e * magnitude n d := by
        unfold magnitude
        rw [zpow_add₀ two_ne_zero]
        push_cast
        ring
      rw [← hvalue]
      exact roundsEven_roundWithAccuracy (add_le_targetExponent hm hn hu hv) rfl

/-- A number stores one magnitude. -/
theorem Stores.magnitude_unique (h : Stores u m e) (h' : Stores u n t) :
    magnitude m e = magnitude n t := by
  have hzero : ∀ {k : Nat} {l : Int} {s : Sign}, Stores (.zero s) k l → magnitude k l = 0 := by
    intro k l s h
    have hk : k = 0 := by
      rcases h with h | ⟨hk, -⟩
      · by_contra hk
        rw [ofMagnitude, dif_neg hk] at h
        cases h
      · exact hk
    rw [hk, magnitude, Nat.cast_zero, zero_mul]
  by_cases hm : m = 0
  · have hu : ∃ s, u = .zero s := by
      rcases h with rfl | ⟨-, rfl⟩
      · exact ⟨_, dif_pos hm⟩
      · exact ⟨_, rfl⟩
    obtain ⟨s, rfl⟩ := hu
    rw [hzero h, hzero h']
  · obtain rfl : u = ofMagnitude .positive m e := h.resolve_right fun h => hm h.1
    rw [ofMagnitude, dif_neg hm] at h'
    exact h'.magnitude_eq.symm

/-- **Rounding keeps the order** of what is stored. -/
theorem RoundsEven.magnitude_le (h : RoundsEven f x u) (h' : RoundsEven f y v) (hxy : x ≤ y)
    (hu : Stores u m e) (hv : Stores v n t) : magnitude m e ≤ magnitude n t := by
  obtain ⟨i, j, k, l, ⟨hu', -⟩, ⟨hv', -⟩, hle⟩ := h.le h' hxy
  rw [hu.magnitude_unique hu', hv.magnitude_unique hv']
  exact hle

theorem RoundsEven.exists_stores (h : RoundsEven f x u) : ∃ m e, Stores u m e ∧ Fits f m e := by
  obtain ⟨-, -, m, e, -, -, hu, hm, -⟩ := h
  exact ⟨m, e, hu, hm⟩

theorem magnitude_succ (m : Nat) (e : Int) : magnitude (m + 1) e = magnitude m e + 2 ^ e := by
  rw [magnitude, magnitude, Nat.cast_succ, add_mul, one_mul]

/-- What is larger is larger by a place. -/
theorem Fits.succ_le (h : Fits f m e) (h' : Fits f n t) (hlt : magnitude m e < magnitude n t) :
    magnitude (m + 1) e ≤ magnitude n t := by
  rcases (magnitude_lt_iff h h').1 hlt with hexponent | ⟨rfl, hmantissa⟩
  · exact h'.magnitude_le hexponent h.lt h.le
  · exact magnitude_le_left hmantissa e

/-- What is smaller is smaller by a place, but next to a power of two, where places change. -/
theorem Fits.le_pred (h : Fits f m e) (h' : Fits f n t) (hlt : magnitude n t < magnitude m e) :
    magnitude n t + 2 ^ e ≤ magnitude m e ∨
      m = 2 ^ f.mantissaBitsWithoutImplicit ∧ f.minExponent < e := by
  rcases (magnitude_lt_iff h' h).1 hlt with hexponent | ⟨rfl, hmantissa⟩
  · have hmin : f.minExponent < e := h'.le.trans_lt hexponent
    have hfull := h.full.resolve_right (by omega)
    by_cases hpower : m = 2 ^ f.mantissaBitsWithoutImplicit
    · exact .inr ⟨hpower, hmin⟩
    · obtain ⟨i, rfl⟩ : ∃ i, m = i + 1 := Nat.exists_eq_succ_of_ne_zero (by
        have hpos := Nat.two_pow_pos f.mantissaBitsWithoutImplicit
        omega)
      have hfits : Fits f i e := ⟨by have := h.lt; omega, h.le, .inl (by omega)⟩
      have hle := hfits.magnitude_le hexponent h'.lt.le h'.le
      rw [magnitude_succ]
      exact .inl (add_le_add_left hle _)
  · rw [← magnitude_succ]
    exact .inl (magnitude_le_left hmantissa t)

/-- What is no farther from the smaller of two numbers is not beyond their middle. -/
theorem le_middle {x y : ℚ} (h : |x - z| ≤ |y - z|) (hxy : x < y) : z ≤ (x + y) / 2 := by
  by_contra hlarge
  have hlt : |y - z| < z - x := abs_lt.2 ⟨by linarith, by linarith⟩
  have hle : z - x ≤ |x - z| := abs_sub_comm x z ▸ le_abs_self (z - x)
  linarith

/-- What is no farther from the larger of two numbers is not before their middle. -/
theorem middle_le {x y : ℚ} (h : |y - z| ≤ |x - z|) (hxy : x < y) : (x + y) / 2 ≤ z := by
  by_contra hsmall
  have hlt : |x - z| < y - z := abs_lt.2 ⟨by linarith, by linarith⟩
  linarith [le_abs_self (y - z)]

/-- The neighbour that a mantissa is rounded to is nearer than what is beyond both. -/
theorem Locates.abs_rounded_sub_le_of (h : Locates em x)
    (hy : y ≤ em.mantissa ∨ (em.mantissa : ℚ) + 1 ≤ y) :
    |(em.roundedMantissa : ℚ) - x| ≤ |y - x| := by
  have hhalf := abs_le.1 h.abs_rounded_sub_le
  have hlow : (em.mantissa : ℚ) ≤ em.roundedMantissa := by
    exact_mod_cast Approximates.mantissa_le_rounded em
  have hrounded : em.roundedMantissa = em.mantissa ∨ em.roundedMantissa = em.mantissa + 1 := by
    have hle := Approximates.mantissa_le_rounded em
    have hge := Approximates.rounded_le_succ em
    omega
  have hle := h.le
  have hlt := h.lt
  rcases hy with hy | hy
  · rw [abs_of_nonpos (by linarith : y - x ≤ 0), abs_le]
    rcases hrounded with hround | hround <;> rw [hround] at hhalf ⊢ <;> push_cast at hhalf ⊢ <;>
      constructor <;> linarith
  · rw [abs_of_nonneg (by linarith : 0 ≤ y - x), abs_le]
    rcases hrounded with hround | hround <;> rw [hround] at hhalf ⊢ <;> push_cast at hhalf ⊢ <;>
      constructor <;> linarith

/-- **Nothing that the format stores is nearer** than what a number is rounded to. -/
theorem RoundsEven.nearest (h : RoundsEven f x u) (hu : Stores u m e)
    (hn : n ≤ 2 ^ f.mantissaBits) (hd : f.minExponent ≤ d) :
    |magnitude m e - x| ≤ |magnitude n d - x| := by
  obtain ⟨em, t, k, l, hfits, hlocates, hstores, -, hsame⟩ := h
  have hpow : (0 : ℚ) < 2 ^ t := by positivity
  have hbeyond : magnitude n d ≤ magnitude em.mantissa t ∨
      magnitude (em.mantissa + 1) t ≤ magnitude n d := by
    rcases lt_or_ge d t with hdt | htd
    · exact .inl (hfits.magnitude_le hdt hn hd)
    · -- both are multiples of one power of two
      obtain ⟨i, hi⟩ := Int.eq_ofNat_of_zero_le (Int.sub_nonneg_of_le htd)
      obtain rfl : d = t + i := by omega
      rw [← magnitude_mul_two_pow, magnitude_le_left_iff, magnitude_le_left_iff]
      omega
  have hscaled : ∀ y : ℚ, |y - x| = |y / 2 ^ t - x / 2 ^ t| * 2 ^ t := fun y => by
    rw [← sub_div, abs_div, abs_of_pos hpow, div_mul_cancel₀ _ hpow.ne']
  have hunscale : ∀ k : Nat, magnitude k t / 2 ^ t = k := fun k =>
    mul_div_cancel_right₀ _ hpow.ne'
  rw [hu.magnitude_unique hstores, hsame, hscaled, hscaled, hunscale]
  refine mul_le_mul_of_nonneg_right (hlocates.abs_rounded_sub_le_of (hbeyond.imp ?_ ?_)) hpow.le
  · intro hle
    rw [div_le_iff₀ hpow]
    exact hle
  · intro hle
    rw [le_div_iff₀ hpow]
    exact_mod_cast hle

/-- **What rounding loses**: half of a unit in the last place, which is the least one that the
format has or is small in comparison with the number. -/
theorem RoundsEven.exists_place (h : RoundsEven f x u) :
    ∃ m e n t, Stores u m e ∧ Fits f m e ∧ magnitude m e = magnitude n t ∧
      |magnitude m e - x| ≤ 1 / 2 * 2 ^ t ∧ f.minExponent ≤ t ∧
      (t = f.minExponent ∨ 2 ^ f.mantissaBitsWithoutImplicit * 2 ^ t ≤ x) := by
  obtain ⟨em, t, m, e, hfits, hlocates, hstores, hm, hsame⟩ := h
  have hpow : (0 : ℚ) < 2 ^ t := by positivity
  refine ⟨m, e, em.roundedMantissa, t, hstores, hm, hsame, ?_, hfits.le, hfits.full.symm.imp id ?_⟩
  · have hscale : magnitude em.roundedMantissa t - x =
        ((em.roundedMantissa : ℚ) - x / 2 ^ t) * 2 ^ t := by
      rw [magnitude]
      field_simp
    rw [hsame, hscale, abs_mul, abs_of_pos hpow]
    exact mul_le_mul_of_nonneg_right hlocates.abs_rounded_sub_le hpow.le
  · intro hfull
    have hfull : (2 ^ f.mantissaBitsWithoutImplicit : ℚ) ≤ em.mantissa := by exact_mod_cast hfull
    rw [← le_div_iff₀ hpow]
    exact hfull.trans hlocates.le

/-- A number below 1 has at least 53 places behind the point. -/
theorem RoundsEven.exists_near (h : RoundsEven .binary64 x u) (hx : x < 1) :
    ∃ m e, Stores u m e ∧ Fits .binary64 m e ∧ |magnitude m e - x| ≤ 1 / 2 ^ 54 := by
  obtain ⟨m, e, -, t, hstores, hm, -, hnear, -, hplace⟩ := h.exists_place
  have hmin : Format.binary64.minExponent = -1074 := by decide
  have hbits : Format.binary64.mantissaBitsWithoutImplicit = 52 := by decide
  rw [hmin, hbits] at hplace
  have ht : t ≤ -53 := by
    by_contra hlarge
    have hfull := hplace.resolve_left (by omega)
    have hone : (2 : ℚ) ^ (-52 : Int) ≤ 2 ^ t := zpow_le_zpow_right₀ one_le_two (by omega)
    norm_num at hone
    linarith
  refine ⟨m, e, hstores, hm, ?_⟩
  calc |magnitude m e - x| ≤ 1 / 2 * 2 ^ t := hnear
    _ ≤ 1 / 2 * 2 ^ (-53 : Int) :=
        mul_le_mul_of_nonneg_left (zpow_le_zpow_right₀ one_le_two ht) (by norm_num)
    _ = 1 / 2 ^ 54 := by norm_num

end Formats

section Doubles

variable {a b : Float} {x y : ℚ} {u : UnpackedFloat}

/-- A number below 1 does not overflow, and is off by at most `2 ^ -54`. -/
theorem RoundsEven.exists_amount (h : RoundsEven .binary64 x u) (hx : x < 1) :
    ∃ z, Amount (double u) z ∧ |z - x| ≤ 1 / 2 ^ 54 := by
  obtain ⟨m, e, hstores, hfits, hnear⟩ := h.exists_near hx
  refine ⟨magnitude m e, hstores.amount hfits ?_, hnear⟩
  have hsmall : magnitude m e < magnitude (2 ^ 53) (0 : Nat) := by
    have hle := (abs_le.1 hnear).2
    have hlarge : magnitude (2 ^ 53) (0 : Nat) = 2 ^ 53 := by norm_num [magnitude]
    rw [hlarge]
    linarith
  have he : e ≤ (0 : Nat) := hfits.exponent_le hsmall
  omega

/-- **A quotient of a smaller by a larger number** is off by at most `2 ^ -54`. -/
theorem Amount.exists_div_near (ha : Amount a x) (hb : Amount b y) (hlt : x < y) :
    ∃ z, Amount (a / b) z ∧ |z - x / y| ≤ 1 / 2 ^ 54 := by
  have hpos : 0 < y := ha.nonneg.trans_lt hlt
  exact (roundsEven_div ha.denotes hb.denotes ha.nonneg hpos).exists_amount
    ((div_lt_one hpos).2 hlt)

/-- **A distance below 1** is off by at most `2 ^ -54`. -/
theorem exists_apart_near (ha : Denotes a x) (hb : Denotes b y) (h : |x - y| < 1) :
    ∃ z, Amount (apart a b) z ∧ |z - (|x - y|)| ≤ 1 / 2 ^ 54 := by
  obtain ⟨u, hround, hunpack⟩ := exists_apart ha hb
  obtain ⟨z, hz, hnear⟩ := hround.exists_amount h
  refine ⟨z, ⟨?_, hz.nonneg⟩, hnear⟩
  rw [Denotes, hunpack]
  exact hz.denotes

end Doubles

end Reframe.Binary
