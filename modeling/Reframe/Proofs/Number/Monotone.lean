import Reframe.Proofs.Number.Signed

/-!
# Rounding keeps the order

That rounding passes nothing that the format stores does not settle what happens between
two neighbours. There the residual bits decide: they say on which side of the middle a
number lies, and a middle goes to the even neighbour. So a greater number is never rounded
to a smaller one. For sums this means that parts of a sum bound its value, and a sum of
small parts stays where one more part would no longer be noticed.

* `Binary.Locates`: where a number lies between a mantissa and the next.
* `Binary.RoundsEven`: what rounding to nearest makes of a number.
* `Binary.RoundsEven.le`: **rounding keeps the order**.
* `Binary.Amount.add_le`, `Binary.Amount.le_add`: so do sums of machine numbers that are not
  negative.
-/

namespace Reframe.Binary

open Float.Model (Format UnpackedFloat totalExponent)
open Float.Model.UnpackedFloat

section Formats

variable {f : Format} {m m' n : Nat} {e e' : Int} {x y : ℚ} {em em' : ExtendedMantissa}
  {u v : UnpackedFloat}

/-- The residual bits say where a number lies between a mantissa and the next: on it, below
the middle, in the middle, or above. -/
def Locates : ExtendedMantissa → ℚ → Prop
  | ⟨m, false, false⟩, x => x = m
  | ⟨m, false, true⟩, x => m < x ∧ x < m + 1 / 2
  | ⟨m, true, false⟩, x => x = m + 1 / 2
  | ⟨m, true, true⟩, x => m + 1 / 2 < x ∧ x < m + 1

namespace Locates

theorem le (h : Locates em x) : em.mantissa ≤ x := by
  obtain ⟨m, _ | _, _ | _⟩ := em <;> simp only [Locates] at h ⊢ <;> linarith

theorem lt (h : Locates em x) : x < em.mantissa + 1 := by
  obtain ⟨m, _ | _, _ | _⟩ := em <;> simp only [Locates] at h ⊢ <;> linarith

/-- The bit that is shifted out says on which side of the new middle the number lies. -/
theorem shiftRightOne (h : Locates em x) : Locates em.shiftRightOne (x / 2) := by
  obtain ⟨m, round, sticky⟩ := em
  have hparts : ((m % 2 : Nat) : ℚ) + 2 * ((m / 2 : Nat) : ℚ) = m := by
    exact_mod_cast Nat.mod_add_div m 2
  unfold ExtendedMantissa.shiftRightOne
  rcases Nat.mod_two_eq_zero_or_one m with hmod | hmod
  · rw [hmod, Nat.cast_zero] at hparts
    cases round <;> cases sticky <;>
      simp only [Locates, hmod, bne_self_eq_false, Bool.or_false, Bool.or_true] at h ⊢ <;>
      first | linarith | constructor <;> linarith
  · have hbit : (m % 2 != 0) = true := by
      rw [hmod]
      rfl
    rw [hmod, Nat.cast_one] at hparts
    cases round <;> cases sticky <;>
      simp only [Locates, hbit, Bool.or_false, Bool.or_true] at h ⊢ <;>
      first | linarith | constructor <;> linarith

theorem shiftRight (h : Locates em x) (n : Nat) : Locates (em >>> n) (x / 2 ^ n) := by
  induction n with
  | zero =>
    rw [pow_zero, div_one]
    exact h
  | succ n ih =>
    have hstep := ih.shiftRightOne
    rw [div_div, ← pow_succ] at hstep
    exact hstep

/-- **A greater number has no smaller mantissa after rounding.** -/
theorem rounded_mono (h : Locates em x) (h' : Locates em' y) (hxy : x ≤ y) :
    em.roundedMantissa ≤ em'.roundedMantissa := by
  rcases lt_trichotomy em.mantissa em'.mantissa with hlt | heq | hgt
  · exact ((Approximates.rounded_le_succ em).trans hlt).trans (Approximates.mantissa_le_rounded em')
  · -- the same neighbours: the bits are in the order of the numbers
    obtain ⟨m, round, sticky⟩ := em
    obtain ⟨m', round', sticky'⟩ := em'
    obtain rfl : m = m' := heq
    have hmod := Nat.mod_lt m Nat.two_pos
    cases round <;> cases sticky <;> cases round' <;> cases sticky' <;>
      simp only [Locates] at h h' <;>
      simp only [ExtendedMantissa.roundedMantissa, ExtendedMantissa.accuracy,
        Accuracy.roundToNearestEven] <;>
      first | omega | (exfalso; linarith)
  · -- the other number lies below the next mantissa
    have hle := h.le
    have hlt := h'.lt
    have hcast : ((em'.mantissa + 1 : Nat) : ℚ) ≤ em.mantissa := by exact_mod_cast hgt
    push_cast at hcast
    linarith

end Locates

/-- The number is a magnitude in canonical form; a zero may have either sign. -/
def Stores (u : UnpackedFloat) (m : Nat) (e : Int) : Prop :=
  u = ofMagnitude .positive m e ∨ m = 0 ∧ u = .zero .negative

/-- The number is what a magnitude is rounded to: to the nearest that the format stores, a
middle to the even one. -/
def RoundsEven (f : Format) (x : ℚ) (u : UnpackedFloat) : Prop :=
  ∃ em t m e, Fits f em.mantissa t ∧ Locates em (x / 2 ^ t) ∧ Stores u m e ∧ Fits f m e ∧
    magnitude m e = magnitude em.roundedMantissa t

/-- **Rounding goes to the nearest**, given enough bits. -/
theorem roundsEven_roundWithAccuracy {accuracy : Accuracy}
    (he : e ≤ f.targetExponent (totalExponent m e))
    (hx : Locates (ExtendedMantissa.ofMantissaAndAccuracy m accuracy) x) :
    RoundsEven f (x * 2 ^ e) (roundWithAccuracy f .positive m e accuracy) := by
  obtain ⟨n, m', e', hfits, hstored, hcarry, hsame⟩ := exists_roundWithAccuracy he
  have hshifted : x * 2 ^ e / 2 ^ (e + n) = x / 2 ^ n := by
    rw [zpow_add₀ two_ne_zero, zpow_natCast]
    field_simp
  refine ⟨_, _, m', e', hfits, ?_, .inl hstored, hcarry, hsame⟩
  rw [hshifted]
  exact hx.shiftRight n

theorem roundsEven_round (hm : 0 < m) (e : Int) :
    RoundsEven f (magnitude m e) (UnpackedFloat.round f .positive m e) := by
  obtain ⟨k, hround, hbits, hvalue⟩ := exists_round (f := f) hm .positive e
  rw [hround, ← hvalue]
  exact roundsEven_roundWithAccuracy hbits rfl

/-- With a greater exponent the mantissa is full, and outweighs all that fits below. -/
theorem Fits.magnitude_le (h : Fits f m' e') (hlt : e < e') (hle : n ≤ 2 ^ f.mantissaBits)
    (hmin : f.minExponent ≤ e) : magnitude n e ≤ magnitude m' e' := by
  have hfull : 2 ^ f.mantissaBitsWithoutImplicit ≤ m' := h.full.resolve_right (by omega)
  calc magnitude n e ≤ magnitude (2 ^ f.mantissaBits) e := magnitude_le_left hle e
    _ = magnitude (2 ^ f.mantissaBitsWithoutImplicit) (e + 1) := magnitude_two_pow_mantissaBits f e
    _ ≤ magnitude m' (e + 1) := magnitude_le_left hfull _
    _ ≤ magnitude m' e' := magnitude_le_right m' hlt

/-- **Rounding keeps the order.** -/
theorem RoundsEven.le (h : RoundsEven f x u) (h' : RoundsEven f y v) (hxy : x ≤ y) :
    ∃ m e m' e', (Stores u m e ∧ Fits f m e) ∧ (Stores v m' e' ∧ Fits f m' e') ∧
      magnitude m e ≤ magnitude m' e' := by
  obtain ⟨em, t, m, e, hfits, hlocates, hu, hm, hsame⟩ := h
  obtain ⟨em', t', m', e', hfits', hlocates', hv, hm', hsame'⟩ := h'
  refine ⟨m, e, m', e', ⟨hu, hm⟩, ⟨hv, hm'⟩, ?_⟩
  rw [hsame, hsame']
  have hpow : ∀ t : Int, (0 : ℚ) < 2 ^ t := fun t => by positivity
  rcases lt_trichotomy t t' with hlt | rfl | hgt
  · have hle : em.roundedMantissa ≤ 2 ^ f.mantissaBits :=
      (Approximates.rounded_le_succ em).trans hfits.lt
    exact (hfits'.magnitude_le hlt hle hfits.le).trans
      (magnitude_le_left (Approximates.mantissa_le_rounded em') t')
  · have hdiv : x / 2 ^ t ≤ y / 2 ^ t := div_le_div_of_nonneg_right hxy (hpow t).le
    exact magnitude_le_left (hlocates.rounded_mono hlocates' hdiv) t
  · -- the number with the greater exponent would be the greater one
    have hx : magnitude em.mantissa t ≤ x := (le_div_iff₀ (hpow t)).1 hlocates.le
    have hy : y < magnitude (em'.mantissa + 1) t' := by
      have hlt := (div_lt_iff₀ (hpow t')).1 hlocates'.lt
      rwa [magnitude, Nat.cast_add, Nat.cast_one]
    have hle := hfits.magnitude_le hgt hfits'.lt hfits'.le
    linarith

theorem roundsEven_zero (s : Sign) : RoundsEven f 0 (.zero s) := by
  have hfits : Fits f 0 f.minExponent := ⟨Nat.two_pow_pos _, le_rfl, .inr rfl⟩
  refine ⟨⟨0, false, false⟩, f.minExponent, 0, f.minExponent, hfits, ?_, ?_, hfits, rfl⟩
  · rw [zero_div]
    exact Nat.cast_zero.symm
  · cases s
    · exact .inr ⟨rfl, rfl⟩
    · exact .inl rfl

/-- What fits is rounded to itself. -/
theorem roundsEven_finite {hm : 0 < m} (h : Fits f m e) :
    RoundsEven f (magnitude m e) (.finite .positive m e hm) := by
  refine ⟨⟨m, false, false⟩, e, m, e, h, ?_, .inl ?_, h, rfl⟩
  · have hpow : (2 : ℚ) ^ e ≠ 0 := by positivity
    exact mul_div_cancel_right₀ _ hpow
  · rw [ofMagnitude, dif_neg (Nat.ne_of_gt hm)]

theorem rational?_nonneg_cases (h : rational? u = some x) (hx : 0 ≤ x) :
    (∃ s, u = .zero s ∧ x = 0) ∨ ∃ m e hm, u = .finite .positive m e hm ∧ x = magnitude m e := by
  rcases rational?_cases h with hzero | ⟨s, m, e, hm, rfl, rfl⟩
  · exact .inl hzero
  · cases s with
    | positive => exact .inr ⟨m, e, hm, rfl, rfl⟩
    | negative =>
      -- a number with a sign is below zero
      have hpos : 0 < magnitude m e := mul_pos (by exact_mod_cast hm) (by positivity)
      exact absurd hx (not_le.2 (neg_neg_of_pos hpos))

/-- **A sum is rounded to nearest.** -/
theorem roundsEven_add (hu : Canonical f u) (hv : Canonical f v) (hx : rational? u = some x)
    (hy : rational? v = some y) (hx0 : 0 ≤ x) (hy0 : 0 ≤ y) :
    RoundsEven f (x + y) (UnpackedFloat.add f u v) := by
  rcases rational?_nonneg_cases hx hx0 with ⟨s, rfl, rfl⟩ | ⟨m, e, hm, rfl, rfl⟩
  · rcases rational?_nonneg_cases hy hy0 with ⟨t, rfl, rfl⟩ | ⟨n, d, hn, rfl, rfl⟩
    · rw [add_zero, UnpackedFloat.add]
      split <;> exact roundsEven_zero _
    · rw [zero_add]
      exact roundsEven_finite hv
  · rcases rational?_nonneg_cases hy hy0 with ⟨t, rfl, rfl⟩ | ⟨n, d, hn, rfl, rfl⟩
    · rw [add_zero]
      exact roundsEven_finite hu
    · let l := min e d
      let k := m <<< (e - l).toNat + n <<< (d - l).toNat
      have hk : 0 < k := by
        have hm' : 0 < m <<< (e - l).toNat := by
          rw [Nat.shiftLeft_eq]
          exact Nat.mul_pos hm (Nat.two_pow_pos _)
        exact Nat.add_pos_left hm' _
      have hadd : UnpackedFloat.add f (.finite .positive m e hm) (.finite .positive n d hn) =
          UnpackedFloat.round f .positive k l := by
        have hcompare : compare ((k : Nat) : Int) 0 = .gt := Int.compare_eq_gt.2 (by omega)
        change normalize f ((k : Nat) : Int) l .positive = _
        rw [UnpackedFloat.normalize, hcompare]
        rfl
      have hvalue : magnitude m e + magnitude n d = magnitude k l := by
        have hleft : ((m <<< (e - l).toNat : Nat) : ℚ) * 2 ^ l = magnitude m e :=
          apply_shiftLeft .positive m (min_le_left e d)
        have hright : ((n <<< (d - l).toNat : Nat) : ℚ) * 2 ^ l = magnitude n d :=
          apply_shiftLeft .positive n (min_le_right e d)
        rw [← hleft, ← hright, magnitude, Nat.cast_add, add_mul]
      rw [hadd, hvalue]
      exact roundsEven_round hk l

end Formats

section Doubles

variable {a b c d : Float} {m : Nat} {e : Int} {x y z w v : ℚ} {u : UnpackedFloat}

/-- The number is finite and not negative, and is the rational. -/
structure Amount (a : Float) (x : ℚ) : Prop where
  denotes : Denotes a x
  nonneg : 0 ≤ x

/-- What is stored and does not overflow is what the number denotes. -/
theorem Stores.amount (h : Stores u m e) (hfits : Fits .binary64 m e) (he : e ≤ 971) :
    Amount (double u) (magnitude m e) := by
  refine ⟨?_, magnitude_nonneg m e⟩
  rcases h with rfl | ⟨rfl, rfl⟩
  · exact denotes_ofMagnitude_of_le hfits he
  · rw [Denotes, unpack_double, pack, unpack_packedZero, magnitude, Nat.cast_zero, zero_mul]
    rfl

/-- What is stored with an exponent that the format does not have becomes an infinity. -/
theorem Stores.overflow (h : Stores u m e) (hfits : Fits .binary64 m e) (he : 971 < e) :
    (double u).toModel.unpack = .infinity .positive := by
  have hmin : Format.binary64.minExponent = -1074 := by decide
  have hbias : (Format.binary64.exponentBias : Int) -
      Format.binary64.mantissaBitsWithoutImplicit = 971 := by decide
  have hm : m ≠ 0 := by
    rintro rfl
    rcases hfits.full with hfull | hleast
    · exact absurd hfull (Nat.not_le.2 (Nat.two_pow_pos _))
    · omega
  obtain rfl : u = ofMagnitude .positive m e := h.resolve_right fun h => hm h.1
  rw [unpack_double, ofMagnitude, dif_neg hm, unpack_pack_overflow (by omega)]

/-- A number that denotes something has not overflowed. -/
theorem Stores.le_of_denotes (h : Stores u m e) (hfits : Fits .binary64 m e)
    (hv : Denotes (double u) v) : e ≤ 971 := by
  by_contra hlarge
  rw [Denotes, h.overflow hfits (by omega)] at hv
  cases hv

theorem Denotes.eq (h : Denotes a x) (h' : Denotes a y) : x = y :=
  Option.some.inj (h.symm.trans h')

/-- **Sums keep the order**: a sum of no more than another is no more than it after rounding,
and has not overflowed if the other has not. -/
theorem Amount.add_le (ha : Amount a x) (hb : Amount b y) (hc : Amount c z) (hd : Amount d w)
    (hle : x + y ≤ z + w) (hv : Denotes (c + d) v) : ∃ t, Amount (a + b) t ∧ t ≤ v := by
  have hround := roundsEven_add (canonical a) (canonical b) ha.denotes hb.denotes ha.nonneg
    hb.nonneg
  have hround' := roundsEven_add (canonical c) (canonical d) hc.denotes hd.denotes hc.nonneg
    hd.nonneg
  obtain ⟨m, e, m', e', ⟨hu, hm⟩, ⟨hu', hm'⟩, hmono⟩ := hround.le hround' hle
  have he' : e' ≤ 971 := hu'.le_of_denotes hm' hv
  have he : e ≤ 971 := by
    by_contra hlarge
    have hgt := (magnitude_lt_iff hm' hm).2 (.inl (by omega))
    exact absurd hmono (not_le.2 hgt)
  refine ⟨magnitude m e, hu.amount hm he, ?_⟩
  rw [← Denotes.eq (hu'.amount hm' he').denotes hv]
  exact hmono

/-- What stores a positive number stores its magnitude. -/
theorem Stores.magnitude_eq {n : Nat} {t : Int} {hm : 0 < m}
    (h : Stores (.finite .positive m e hm) n t) : magnitude n t = magnitude m e := by
  rcases h with h | ⟨-, h⟩
  · unfold ofMagnitude at h
    split at h
    · cases h
    · cases h
      rfl
  · cases h

/-- **A rounded sum is no less than any number that the sum is no less than**, its parts for
instance. -/
theorem Amount.le_add (hc : Amount c z) (ha : Amount a x) (hb : Amount b y) (hle : z ≤ x + y)
    (hv : Denotes (a + b) v) : z ≤ v := by
  rcases rational?_nonneg_cases hc.denotes hc.nonneg with ⟨s, hu, rfl⟩ | ⟨m, e, hm, hu, rfl⟩
  · obtain ⟨t, ht, htv⟩ := ha.add_le hb ha hb le_rfl hv
    exact ht.nonneg.trans htv
  · have hround := roundsEven_add (canonical a) (canonical b) ha.denotes hb.denotes ha.nonneg
      hb.nonneg
    have hfits := canonical c
    rw [hu] at hfits
    have hitself : RoundsEven .binary64 (magnitude m e) (.finite .positive m e hm) :=
      roundsEven_finite hfits
    obtain ⟨n, t, n', t', ⟨hstored, -⟩, ⟨hu', hn'⟩, hmono⟩ := hitself.le hround hle
    rw [hstored.magnitude_eq] at hmono
    rw [← Denotes.eq (hu'.amount hn' (hu'.le_of_denotes hn' hv)).denotes hv]
    exact hmono

end Doubles

end Reframe.Binary
