import Reframe.Proofs.Number.Vanish

/-!
# A product, divided again

A number that is multiplied by another and divided by it again need not come back, as both
results are rounded. It comes back exactly if the product loses no more than the other number
makes of half of its last place: the quotient of what the product has become is then nearer to
the number than to any other. A quotient in the middle of two numbers, which would go to the
even one, does not occur, since the product has no place for it.

* `Binary.RoundsEven.magnitude_eq`: what is rounded to a number.
* `Binary.ne_middle`, `Binary.eq_of_power`: **where the quotient of a rounded product lies**.
* `Binary.Amount.exists_back`: **when a number comes back**, and how far off it is if it does not.
-/

namespace Reframe.Binary

open Float.Model (Format UnpackedFloat)
open Float.Model.UnpackedFloat

section Formats

variable {f : Format} {m n k : Nat} {d e g t : Int} {x z : ℚ} {u : UnpackedFloat}

/-- **What is rounded to a number**: all that is nearer to it than half a place, where next to a
power of two only the number itself is considered. -/
theorem RoundsEven.magnitude_eq (h : RoundsEven f z u) (hu : Stores u n t) (hn : Fits f n t)
    (hm : Fits f m e) (hnear : |magnitude m e - z| < 1 / 2 * 2 ^ e)
    (hpower : m = 2 ^ f.mantissaBitsWithoutImplicit → magnitude m e = z) :
    magnitude n t = magnitude m e := by
  have hleast := h.nearest hu hm.lt.le hm.le
  have hz := abs_lt.1 hnear
  rcases lt_trichotomy (magnitude n t) (magnitude m e) with hlt | heq | hgt
  · exfalso
    rcases hm.le_pred hn hlt with hle | ⟨hm, -⟩
    · rw [abs_of_neg (by linarith : magnitude n t - z < 0)] at hleast
      have := (le_abs_self (magnitude m e - z)).trans_lt hnear
      linarith
    · rw [hpower hm, sub_self, abs_zero] at hleast
      have hsame := sub_eq_zero.1 (abs_nonpos_iff.1 hleast)
      rw [hpower hm, hsame] at hlt
      exact lt_irrefl z hlt
  · exact heq
  · exfalso
    have hle := hm.succ_le hn hgt
    rw [magnitude_succ] at hle
    rw [abs_of_pos (by linarith : 0 < magnitude n t - z)] at hleast
    linarith

/-- What is rounded to a number is no farther from it than half a place. -/
theorem RoundsEven.abs_sub_le (h : RoundsEven f z u) (hu : Stores u n t) (hm : Fits f m e)
    (hz : 0 ≤ z) (heq : magnitude n t = magnitude m e) : |magnitude m e - z| ≤ 1 / 2 * 2 ^ e := by
  have hpow : (0 : ℚ) < 2 ^ e := by positivity
  rw [abs_le]
  constructor
  · have hnext := h.nearest hu (Nat.succ_le_of_lt hm.lt) hm.le
    rw [heq, Nat.succ_eq_add_one, magnitude_succ] at hnext
    linarith [le_middle hnext (by linarith)]
  · rcases Nat.eq_zero_or_pos m with rfl | hpos
    · rw [magnitude, Nat.cast_zero, zero_mul]
      linarith
    · obtain ⟨i, rfl⟩ : ∃ i, m = i + 1 := Nat.exists_eq_succ_of_ne_zero hpos.ne'
      have hlast := h.nearest hu ((Nat.le_succ i).trans hm.lt.le) hm.le
      rw [heq, magnitude_succ] at hlast
      rw [magnitude_succ]
      linarith [middle_le hlast (by linarith)]

/-- **No rounded product is as far off** as the middle between two numbers makes of the factor:
it would have to be a multiple of more than its own last place. -/
theorem ne_middle (hk : 0 < k)
    (hround : |magnitude n d - magnitude m e * magnitude k g| ≤ 1 / 2 * 2 ^ d) :
    |magnitude n d - magnitude m e * magnitude k g| ≠ 1 / 2 * 2 ^ e * magnitude k g := by
  intro hmiddle
  have hpow : (0 : ℚ) < 2 ^ (e + g) := by positivity
  have hfactor : (2 : ℚ) ^ e * magnitude k g = k * 2 ^ (e + g) := by
    rw [magnitude, zpow_add₀ two_ne_zero]
    ring
  have hplace : (k : ℚ) * 2 ^ (e + g) ≤ 2 ^ d := by
    rw [hmiddle, mul_assoc, hfactor] at hround
    linarith
  have hle : e + g ≤ d := by
    have hone : (1 : ℚ) ≤ k := by exact_mod_cast hk
    have hle : (2 : ℚ) ^ (e + g) ≤ 2 ^ d := (le_mul_of_one_le_left hpow.le hone).trans hplace
    exact (zpow_le_zpow_iff_right₀ one_lt_two).1 hle
  obtain ⟨j, hj⟩ := Int.eq_ofNat_of_zero_le (Int.sub_nonneg_of_le hle)
  obtain rfl : d = e + g + j := by omega
  have hsmall : k ≤ 2 ^ j := by
    rw [zpow_add₀ two_ne_zero (e + g) j, zpow_natCast, mul_comm _ (_ ^ j),
      mul_le_mul_iff_left₀ hpow] at hplace
    exact_mod_cast hplace
  -- in units of half a place the product is an odd multiple of the factor
  have hodd : ∃ i : Int, (n * 2 ^ (j + 1) : Int) = k * (2 * i + 1) := by
    have hproduct : magnitude m e * magnitude k g = m * k * 2 ^ (e + g) := by
      rw [magnitude, magnitude, zpow_add₀ two_ne_zero]
      ring
    have hsum : magnitude n (e + g + j) = n * 2 ^ j * 2 ^ (e + g) := by
      rw [magnitude, zpow_add₀ two_ne_zero, zpow_natCast]
      ring
    rw [mul_assoc, hfactor, hproduct, hsum, ← sub_mul, abs_mul, abs_of_pos hpow, ← mul_assoc,
      mul_left_inj' hpow.ne'] at hmiddle
    rcases (abs_eq (by positivity)).1 hmiddle with h | h
    · refine ⟨m, ?_⟩
      have h : (n * 2 ^ (j + 1) : ℚ) = k * (2 * m + 1) := by
        rw [pow_succ]
        linarith
      exact_mod_cast h
    · refine ⟨m - 1, ?_⟩
      have h : (n * 2 ^ (j + 1) : ℚ) = k * (2 * (m - 1) + 1) := by
        rw [pow_succ]
        linarith
      exact_mod_cast h
  obtain ⟨i, hi⟩ := hodd
  have hcoprime : IsCoprime ((2 : Int) ^ (j + 1)) (2 * i + 1) :=
    IsCoprime.pow_left ⟨-i, 1, by ring⟩
  have hdvd : (2 : Int) ^ (j + 1) ∣ k := hcoprime.dvd_of_dvd_mul_right ⟨n, by rw [← hi, mul_comm]⟩
  have hdvd : 2 ^ (j + 1) ∣ k := by exact_mod_cast hdvd
  have hlarge := Nat.le_of_dvd hk hdvd
  have hpos := Nat.two_pow_pos j
  rw [Nat.pow_succ] at hlarge
  omega

/-- **The product of a power of two is exact** unless it is off by more than the factor makes of
half a place: both are multiples of one power of two that their difference is less than. -/
theorem eq_of_power (hk : k < 2 ^ f.mantissaBits)
    (hround : |magnitude n d - magnitude (2 ^ f.mantissaBitsWithoutImplicit) e * magnitude k g| ≤
      1 / 2 * 2 ^ d)
    (hnear : |magnitude n d - magnitude (2 ^ f.mantissaBitsWithoutImplicit) e * magnitude k g| ≤
      1 / 2 * 2 ^ e * magnitude k g) :
    magnitude n d = magnitude (2 ^ f.mantissaBitsWithoutImplicit) e * magnitude k g := by
  let b : Nat := f.mantissaBitsWithoutImplicit
  let low := min d (b + e + g)
  have hpow : (0 : ℚ) < 2 ^ low := by positivity
  have hproduct : magnitude (2 ^ b) e * magnitude k g = magnitude k (b + e + g) := by
    rw [magnitude, magnitude, magnitude, zpow_add₀ two_ne_zero, zpow_add₀ two_ne_zero, zpow_natCast]
    push_cast
    ring
  have hless : |magnitude n d - magnitude (2 ^ b) e * magnitude k g| < 2 ^ low := by
    rcases min_cases d (b + e + g) with ⟨hlow, -⟩ | ⟨hlow, -⟩
    · have hplace : (0 : ℚ) < 2 ^ d := by positivity
      have hlow : (2 : ℚ) ^ low = 2 ^ d := congrArg _ hlow
      rw [hlow]
      linarith
    · have hlow : (2 : ℚ) ^ low = 2 ^ b * (2 ^ e * 2 ^ g) := by
        have hlow : (2 : ℚ) ^ low = 2 ^ (b + e + g) := congrArg _ hlow
        rw [hlow, zpow_add₀ two_ne_zero, zpow_add₀ two_ne_zero, zpow_natCast, mul_assoc]
      have hscale : (0 : ℚ) < 2 ^ e * 2 ^ g := by positivity
      have hlt : (k : ℚ) < 2 * 2 ^ b := by
        rw [two_pow_mantissaBits] at hk
        exact_mod_cast hk
      calc |magnitude n d - magnitude (2 ^ b) e * magnitude k g|
          ≤ 1 / 2 * 2 ^ e * magnitude k g := hnear
        _ = 1 / 2 * k * (2 ^ e * 2 ^ g) := by
          rw [magnitude]
          ring
        _ < 2 ^ b * (2 ^ e * 2 ^ g) := mul_lt_mul_of_pos_right (by linarith) hscale
        _ = 2 ^ low := hlow.symm
  have hmultiple : magnitude n d - magnitude (2 ^ b) e * magnitude k g =
      ((n * 2 ^ (d - low).toNat : Nat) - (k * 2 ^ (b + e + g - low).toNat : Nat) : Int) *
        2 ^ low := by
    rw [hproduct, ← magnitude_lower n (min_le_left d (b + e + g)),
      ← magnitude_lower k (min_le_right d (b + e + g)), magnitude, magnitude]
    push_cast
    ring
  rw [hmultiple, abs_mul, abs_of_pos hpow, mul_lt_iff_lt_one_left hpow] at hless
  have hzero : ((n * 2 ^ (d - low).toNat : Nat) - (k * 2 ^ (b + e + g - low).toNat : Nat) : Int) =
      0 := Int.abs_lt_one_iff.1 (by exact_mod_cast hless)
  rw [hzero, Int.cast_zero, zero_mul] at hmultiple
  exact sub_eq_zero.1 hmultiple

theorem abs_sub_div {x y p : ℚ} (hy : 0 < y) : |x - p / y| = |p - x * y| / y := by
  rw [eq_div_iff hy.ne', ← abs_of_pos hy, ← abs_mul, abs_of_pos hy, sub_mul,
    div_mul_cancel₀ _ hy.ne', abs_sub_comm]

/-- **When a number comes back**: if its product with another, rounded, is off by no more than
the other makes of half a place. -/
theorem RoundsEven.back_iff {i : Nat} {l : Int}
    (h : RoundsEven f (magnitude n d / magnitude k g) u) (hu : Stores u i l) (hi : Fits f i l)
    (hm : Fits f m e) (hk : 0 < k) (hlt : k < 2 ^ f.mantissaBits)
    (hround : |magnitude n d - magnitude m e * magnitude k g| ≤ 1 / 2 * 2 ^ d) :
    magnitude i l = magnitude m e ↔
      |magnitude n d - magnitude m e * magnitude k g| ≤ 1 / 2 * 2 ^ e * magnitude k g := by
  have hpos := magnitude_pos hk g
  refine ⟨fun heq => ?_, fun hnear => ?_⟩
  · have hle := h.abs_sub_le hu hm (div_nonneg (magnitude_nonneg n d) hpos.le) heq
    rwa [abs_sub_div hpos, div_le_iff₀ hpos] at hle
  · refine h.magnitude_eq hu hi hm ?_ fun hpower => ?_
    · rw [abs_sub_div hpos, div_lt_iff₀ hpos]
      exact hnear.lt_of_ne (ne_middle hk hround)
    · subst hpower
      rw [eq_of_power hlt hround hnear, mul_div_cancel_right₀ _ hpos.ne']

end Formats

section Doubles

variable {a b c : Float} {m : Nat} {e : Int} {x y p : ℚ} {u : UnpackedFloat}

/-- A number that denotes something denotes what it stores. -/
theorem Stores.eq_of_denotes (h : Stores u m e) (hfits : Fits .binary64 m e)
    (hx : Denotes (double u) x) : x = magnitude m e :=
  hx.eq (h.amount hfits (h.le_of_denotes hfits hx)).denotes

/-- What the last place of a number is worth; that of zero is the least number. -/
def lastPlace (a : Float) : ℚ :=
  match a.toModel.unpack with
  | .finite _ _ e _ => 2 ^ e
  | _ => least

theorem Amount.exists_fits (ha : Amount a x) :
    ∃ m e, x = magnitude m e ∧ Fits .binary64 m e ∧ lastPlace a = 2 ^ e := by
  rcases rational?_nonneg_cases ha.denotes ha.nonneg with ⟨s, hu, rfl⟩ | ⟨m, e, hm, hu, rfl⟩
  · refine ⟨0, -1074, ?_, ⟨Nat.two_pow_pos _, by decide, .inr (by decide)⟩, ?_⟩
    · rw [magnitude, Nat.cast_zero, zero_mul]
    · rw [lastPlace, hu]
      rfl
  · have hfits := canonical a
    rw [hu] at hfits
    exact ⟨m, e, rfl, hfits, by rw [lastPlace, hu]⟩

/-- **What a product loses**: half of a unit in its last place. -/
theorem Amount.exists_product (ha : Amount a x) (hb : Amount b y) (hp : Amount (a * b) p) :
    ∃ n d, p = magnitude n d ∧ |p - x * y| ≤ 1 / 2 * 2 ^ d ∧
      (d = -1074 ∨ 2 ^ 52 * 2 ^ d ≤ x * y) := by
  have hproduct := roundsEven_mul (canonical a) (canonical b) ha.denotes hb.denotes ha.nonneg
    hb.nonneg
  obtain ⟨m, e, n, d, hstores, hfits, hsame, hround, -, hplace⟩ := hproduct.exists_place
  have hvalue : p = magnitude m e := hstores.eq_of_denotes hfits hp.denotes
  rw [← hvalue] at hsame hround
  have hmin : Format.binary64.minExponent = -1074 := by decide
  have hbits : Format.binary64.mantissaBitsWithoutImplicit = 52 := by decide
  rw [hmin, hbits] at hplace
  exact ⟨n, d, hsame, hround, hplace⟩

/-- What a product has lost is not lost more than twice when it is divided again. -/
theorem two_mul_loss_le {d : Int} (hy : 0 < y) (hround : |p - x * y| ≤ 1 / 2 * 2 ^ d)
    (hplace : d = -1074 ∨ 2 ^ 52 * 2 ^ d ≤ x * y) :
    2 * |x - p / y| ≤ max (x / 2 ^ 52) (least / y) := by
  have hloss : 2 * |x - p / y| ≤ 2 ^ d / y := by
    rw [abs_sub_div hy, ← mul_div_assoc]
    gcongr
    linarith
  refine hloss.trans ?_
  rcases hplace with rfl | hfull
  · exact le_max_right _ _
  · refine le_trans ?_ (le_max_left _ _)
    rw [div_le_div_iff₀ hy (by positivity)]
    linarith

/-- **A product divided again**: it is the number that was multiplied exactly if the product is
off by no more than the factor makes of half of the last place; otherwise it differs in the last
of 53 bits, or by what the least number is in comparison with the factor. -/
theorem Amount.exists_back (ha : Amount a x) (hb : Amount b y) (hy : 0 < y) (hp : Amount (a * b) p)
    (hc : Amount c p) (hx : x ≤ 1) :
    ∃ z, Amount (c / b) z ∧ z ≤ 1 ∧ (z = x ↔ |p - x * y| ≤ 1 / 2 * lastPlace a * y) ∧
      |z - x| ≤ max (x / 2 ^ 52) (least / y) := by
  have hpy : p ≤ y := by
    obtain ⟨p', hp', hle⟩ := ha.exists_mul_le hx hb
    rwa [hp.denotes.eq hp'.denotes]
  obtain ⟨z, hz, hz1⟩ := hc.exists_div_le hb hy hpy
  have hquotient : RoundsEven .binary64 (p / y) _ :=
    roundsEven_div hc.denotes hb.denotes hc.nonneg hy
  obtain ⟨i, l, hstores, hfits⟩ := hquotient.exists_stores
  have hvalue : z = magnitude i l := hstores.eq_of_denotes hfits hz.denotes
  obtain ⟨n, d, hpn, hround, hplace⟩ := ha.exists_product hb hp
  obtain ⟨m, e, hxm, hm, hlast⟩ := ha.exists_fits
  obtain ⟨k, g, hyk, hk, -⟩ := hb.exists_fits
  have hkpos : 0 < k := by
    rw [hyk] at hy
    by_contra hzero
    rw [Nat.eq_zero_of_not_pos hzero, magnitude, Nat.cast_zero, zero_mul] at hy
    exact lt_irrefl 0 hy
  refine ⟨z, hz, hz1, ?_, ?_⟩
  · rw [hpn, hyk] at hquotient
    rw [hpn, hxm, hyk] at hround
    rw [hvalue, hlast, hpn, hxm, hyk]
    exact hquotient.back_iff hstores hfits hm hkpos hk.lt hround
  · -- the quotient is no farther from what is stored than the number that was multiplied
    have hnearest : |z - p / y| ≤ |x - p / y| := by
      rw [hxm, hvalue]
      exact hquotient.nearest hstores hm.lt.le hm.le
    calc |z - x| = |(z - p / y) - (x - p / y)| := by rw [sub_sub_sub_cancel_right]
      _ ≤ |z - p / y| + |x - p / y| := abs_sub _ _
      _ ≤ 2 * |x - p / y| := by linarith
      _ ≤ max (x / 2 ^ 52) (least / y) := two_mul_loss_le hy hround hplace

end Doubles

end Reframe.Binary
