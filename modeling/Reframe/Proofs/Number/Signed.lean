import Mathlib.Tactic.Linarith
import Reframe.Proofs.Number.Value

/-!
# Values of numbers of either sign

Sums, differences, products and quotients of finite machine numbers are the exact ones,
rounded. Between two rationals with few digits rounding stays where it is: the format
stores them, and rounding never passes what the format stores. So bounds on an exact
result are bounds on the machine's, and what has few digits itself is not changed.

* `Binary.Denotes`: a finite machine number and the rational that it is.
* `Binary.IsNearest`: a machine number and the rational that it is rounded from.
* `Binary.IsNearest.between`: rounding stays between rationals with few digits.
* `Binary.Denotes.ceil_eq`, `Binary.Denotes.nearest_eq`: rounding to integers.
-/

namespace Reframe.Binary

open Float.Model (Format UnpackedFloat)
open Float.Model.UnpackedFloat

section Formats

variable {f : Format} {s t : Sign} {m : Nat} {e l : Int} {x y : ℚ} {u v : UnpackedFloat}

/-- A magnitude with a sign. -/
def signed (s : Sign) (x : ℚ) : ℚ :=
  match s with
  | .positive => x
  | .negative => -x

theorem signed_mul (s t : Sign) (x y : ℚ) : signed (s * t) (x * y) = signed s x * signed t y := by
  cases s <;> cases t
  · exact (neg_mul_neg x y).symm
  · exact (neg_mul x y).symm
  · exact (mul_neg x y).symm
  · rfl

theorem signed_div (s t : Sign) (x y : ℚ) : signed (s / t) (x / y) = signed s x / signed t y := by
  cases s <;> cases t
  · exact (neg_div_neg_eq x y).symm
  · exact (neg_div y x).symm
  · exact (div_neg x).symm
  · rfl

theorem signed_neg (s : Sign) (x : ℚ) : signed (-s) x = -signed s x := by
  cases s
  · exact (neg_neg x).symm
  · rfl

theorem abs_signed (s : Sign) (hx : 0 ≤ x) : |signed s x| = x := by
  cases s
  · exact (abs_neg x).trans (abs_of_nonneg hx)
  · exact abs_of_nonneg hx

theorem magnitude_nonneg (m : Nat) (e : Int) : 0 ≤ magnitude m e := by
  unfold magnitude
  positivity

/-- The rational that a finite number is. -/
def rational? : UnpackedFloat → Option ℚ
  | .zero _ => some 0
  | .finite s m e _ => some (signed s (magnitude m e))
  | _ => none

theorem rational?_cases (h : rational? u = some x) :
    (∃ s, u = .zero s ∧ x = 0) ∨
    ∃ s m e hm, u = .finite s m e hm ∧ x = signed s (magnitude m e) := by
  cases u with
  | infinity s => cases h
  | notANumber => cases h
  | zero s => exact .inl ⟨s, rfl, (Option.some.inj h).symm⟩
  | finite s m e hm => exact .inr ⟨s, m, e, hm, rfl, (Option.some.inj h).symm⟩

/-- The number is what a rational of either sign is rounded to. -/
def Nears (f : Format) (x : ℚ) (u : UnpackedFloat) : Prop :=
  ∃ s y, IsRounded f s y u ∧ 0 ≤ y ∧ x = signed s y

theorem nears_zero (s : Sign) : Nears f 0 (.zero s) := by
  refine ⟨s, 0, ⟨0, f.minExponent, rfl, ⟨Nat.two_pow_pos _, le_rfl, .inr rfl⟩, ?_⟩, le_rfl, ?_⟩
  · intro n t _ _
    rw [magnitude, magnitude, Nat.cast_zero, zero_mul]
    exact ⟨id, id⟩
  · cases s
    · exact neg_zero.symm
    · rfl

/-- A number that fits is rounded to itself. -/
theorem nears_finite {hm : 0 < m} (h : Fits f m e) :
    Nears f (signed s (magnitude m e)) (.finite s m e hm) := by
  refine ⟨s, magnitude m e, ⟨m, e, ?_, h, fun _ _ _ _ => ⟨id, id⟩⟩, magnitude_nonneg m e, rfl⟩
  rw [ofMagnitude, dif_neg (Nat.ne_of_gt hm)]

theorem nears_normalize (k e : Int) : Nears f (k * 2 ^ e) (normalize f k e .positive) := by
  unfold UnpackedFloat.normalize
  split
  next h =>
    have hk : k < 0 := Int.compare_eq_lt.1 h
    refine ⟨.negative, _, isRounded_round (by omega) _ _, magnitude_nonneg _ _, ?_⟩
    have hcast : (((-k).toNat : Nat) : ℚ) = -k := by
      exact_mod_cast Int.toNat_of_nonneg (by omega : 0 ≤ -k)
    rw [signed, magnitude, hcast, neg_mul, neg_neg]
  next h =>
    obtain rfl : k = 0 := Int.compare_eq_eq.1 h
    rw [Int.cast_zero, zero_mul]
    exact nears_zero _
  next h =>
    have hk : 0 < k := Int.compare_eq_gt.1 h
    refine ⟨.positive, _, isRounded_round (by omega) _ _, magnitude_nonneg _ _, ?_⟩
    have hcast : ((k.toNat : Nat) : ℚ) = k := by
      exact_mod_cast Int.toNat_of_nonneg (by omega : 0 ≤ k)
    rw [signed, magnitude, hcast]

/-- A mantissa brought to a smaller exponent. -/
theorem apply_shiftLeft (s : Sign) (m : Nat) (h : l ≤ e) :
    (s.apply (m <<< (e - l).toNat : Nat) : ℚ) * 2 ^ l = signed s (magnitude m e) := by
  have hshift := magnitude_mul_two_pow m (e - l).toNat l
  have he : l + (e - l).toNat = e := by omega
  rw [he, ← Nat.shiftLeft_eq] at hshift
  rw [← hshift]
  cases s
  · simp only [Sign.apply, signed, magnitude, Int.cast_neg, Int.cast_natCast, neg_mul]
  · simp only [Sign.apply, signed, magnitude, Int.cast_natCast]

/-- **A sum is the exact sum, rounded.** -/
theorem nears_add (hu : Canonical f u) (hv : Canonical f v) (hx : rational? u = some x)
    (hy : rational? v = some y) : Nears f (x + y) (UnpackedFloat.add f u v) := by
  rcases rational?_cases hx with ⟨s, rfl, rfl⟩ | ⟨s, m, e, hm, rfl, rfl⟩
  · rcases rational?_cases hy with ⟨t, rfl, rfl⟩ | ⟨t, n, d, hn, rfl, rfl⟩
    · rw [add_zero, UnpackedFloat.add]
      split <;> exact nears_zero _
    · rw [zero_add]
      exact nears_finite hv
  · rcases rational?_cases hy with ⟨t, rfl, rfl⟩ | ⟨t, n, d, hn, rfl, rfl⟩
    · rw [add_zero]
      exact nears_finite hu
    · rw [← apply_shiftLeft s m (min_le_left e d), ← apply_shiftLeft t n (min_le_right e d),
        ← add_mul, ← Int.cast_add]
      exact nears_normalize _ _

theorem rational?_neg (h : rational? u = some x) : rational? u.neg = some (-x) := by
  rcases rational?_cases h with ⟨s, rfl, rfl⟩ | ⟨s, m, e, hm, rfl, rfl⟩
  · rw [neg_zero]
    rfl
  · rw [← signed_neg]
    rfl

theorem canonical_neg (h : Canonical f u) : Canonical f u.neg := by
  cases u with
  | finite s m e hm => exact h
  | _ => trivial

/-- A difference is a sum with the opposite. -/
theorem sub_eq_add (f : Format) (u v : UnpackedFloat) :
    UnpackedFloat.sub f u v = UnpackedFloat.add f u v.neg := by
  cases u with
  | finite s m e hm =>
    cases v with
    | finite t n d hn =>
      have hsign : ∀ k : Int, Sign.apply (-t) k = -t.apply k := by
        intro k
        cases t
        · exact (Int.neg_neg k).symm
        · rfl
      simp only [UnpackedFloat.sub, UnpackedFloat.add, UnpackedFloat.neg, hsign, Int.sub_eq_add_neg]
    | _ => rfl
  | _ => cases v <;> rfl

/-- **A difference is the exact difference, rounded.** -/
theorem nears_sub (hu : Canonical f u) (hv : Canonical f v) (hx : rational? u = some x)
    (hy : rational? v = some y) : Nears f (x - y) (UnpackedFloat.sub f u v) := by
  rw [sub_eq_add, sub_eq_add_neg]
  exact nears_add hu (canonical_neg hv) hx (rational?_neg hy)

/-- **A product is the exact product, rounded.** -/
theorem nears_mul (hu : Canonical f u) (hv : Canonical f v) (hx : rational? u = some x)
    (hy : rational? v = some y) : Nears f (x * y) (UnpackedFloat.mul f u v) := by
  rcases rational?_cases hx with ⟨s, rfl, rfl⟩ | ⟨s, m, e, hm, rfl, rfl⟩
  · rw [zero_mul]
    rcases rational?_cases hy with ⟨t, rfl, rfl⟩ | ⟨t, n, d, hn, rfl, rfl⟩
    · exact nears_zero _
    · exact nears_zero _
  · rcases rational?_cases hy with ⟨t, rfl, rfl⟩ | ⟨t, n, d, hn, rfl, rfl⟩
    · rw [mul_zero]
      exact nears_zero _
    · rw [← signed_mul]
      exact ⟨_, _, isRounded_mul hu hv, mul_nonneg (magnitude_nonneg _ _) (magnitude_nonneg _ _),
        rfl⟩

/-- **A quotient is the exact quotient, rounded.** -/
theorem nears_div (hx : rational? u = some x) (hy : rational? v = some y) (hne : y ≠ 0) :
    Nears f (x / y) (UnpackedFloat.div f u v) := by
  rcases rational?_cases hy with ⟨t, rfl, rfl⟩ | ⟨t, n, d, hn, rfl, rfl⟩
  · exact absurd rfl hne
  · rcases rational?_cases hx with ⟨s, rfl, rfl⟩ | ⟨s, m, e, hm, rfl, rfl⟩
    · rw [zero_div]
      exact nears_zero _
    · rw [← signed_div]
      exact ⟨_, _, isRounded_div, div_nonneg (magnitude_nonneg _ _) (magnitude_nonneg _ _), rfl⟩

theorem nears_abs (hu : Canonical f u) (hx : rational? u = some x) : Nears f |x| u.abs := by
  rcases rational?_cases hx with ⟨s, rfl, rfl⟩ | ⟨s, m, e, hm, rfl, rfl⟩
  · rw [abs_zero]
    exact nears_zero _
  · rw [abs_signed s (magnitude_nonneg m e)]
    exact nears_finite (s := .positive) hu

end Formats

section Doubles

variable {a b : Float} {x y lo hi : ℚ} {n : Nat}

/-- The number is finite, and is the rational. -/
def Denotes (a : Float) (x : ℚ) : Prop :=
  rational? a.toModel.unpack = some x

/-- The number is the rational, rounded. -/
def IsNearest (a : Float) (x : ℚ) : Prop :=
  ∃ u, Nears .binary64 x u ∧ a = double u

theorem HasValue.denotes (h : HasValue a x) : Denotes a x := by
  obtain ⟨m, e, hm, hunpack, rfl⟩ := h
  unfold Denotes
  rw [hunpack]
  rfl

theorem Denotes.add (ha : Denotes a x) (hb : Denotes b y) : IsNearest (a + b) (x + y) :=
  ⟨_, nears_add (canonical a) (canonical b) ha hb, rfl⟩

theorem Denotes.sub (ha : Denotes a x) (hb : Denotes b y) : IsNearest (a - b) (x - y) :=
  ⟨_, nears_sub (canonical a) (canonical b) ha hb, rfl⟩

theorem Denotes.mul (ha : Denotes a x) (hb : Denotes b y) : IsNearest (a * b) (x * y) :=
  ⟨_, nears_mul (canonical a) (canonical b) ha hb, rfl⟩

theorem Denotes.div (ha : Denotes a x) (hb : Denotes b y) (hy : y ≠ 0) :
    IsNearest (a / b) (x / y) :=
  ⟨_, nears_div ha hb hy, rfl⟩

theorem Denotes.abs (ha : Denotes a x) : IsNearest (Scalar.abs a) |x| :=
  ⟨_, nears_abs (canonical a) ha, rfl⟩

/-- The rational has few digits: at most 53 bits, of which at most 60 are behind the
point. -/
def IsShort (x : ℚ) : Prop :=
  ∃ (k : Int) (j : Nat), |k| ≤ 2 ^ 53 ∧ j ≤ 60 ∧ x = k / 2 ^ j

theorem IsShort.neg (h : IsShort x) : IsShort (-x) := by
  obtain ⟨k, j, hk, hj, rfl⟩ := h
  exact ⟨-k, j, by rwa [abs_neg], hj, by push_cast; ring⟩

theorem isShort_int {k : Int} (hk : |k| ≤ 2 ^ 53) : IsShort k :=
  ⟨k, 0, hk, by decide, by rw [pow_zero, div_one]⟩

/-- A short number that is not negative is a magnitude. -/
theorem IsShort.eq_magnitude (h : IsShort x) (hx : 0 ≤ x) :
    ∃ n j : Nat, n ≤ 2 ^ 53 ∧ j ≤ 60 ∧ x = magnitude n (-j) := by
  obtain ⟨k, j, hk, hj, rfl⟩ := h
  have hpow : (0 : ℚ) < 2 ^ j := by positivity
  have hk0 : 0 ≤ k := by
    have hk0 : (0 : ℚ) ≤ k := by
      by_contra hneg
      exact absurd hx (not_le.2 (div_neg_of_neg_of_pos (not_le.1 hneg) hpow))
    exact_mod_cast hk0
  rw [abs_of_nonneg hk0] at hk
  obtain ⟨n, rfl⟩ := Int.eq_ofNat_of_zero_le hk0
  refine ⟨n, j, by exact_mod_cast hk, hj, ?_⟩
  rw [magnitude, zpow_neg, zpow_natCast, Int.cast_natCast, div_eq_mul_inv]

/-- What is rounded to is on the same side of short rationals. -/
theorem IsRounded.short {s : Sign} {u : UnpackedFloat} (h : IsRounded .binary64 s x u) :
    ∃ m e, u = ofMagnitude s m e ∧ Fits .binary64 m e ∧ ∀ b, IsShort b → 0 ≤ b →
      (b ≤ x → b ≤ magnitude m e) ∧ (x ≤ b → magnitude m e ≤ b) := by
  obtain ⟨m, e, rfl, hfits, hround⟩ := h
  refine ⟨m, e, rfl, hfits, fun b hb hb0 => ?_⟩
  obtain ⟨n, j, hn, hj, rfl⟩ := hb.eq_magnitude hb0
  have hmin : Format.binary64.minExponent = -1074 := by decide
  exact hround n (-j) hn (by omega)

/-- A magnitude whose exponent the format has is packed without loss. -/
theorem denotes_ofMagnitude_of_le {s : Sign} {m : Nat} {e : Int} (h : Fits .binary64 m e)
    (he : e ≤ 971) : Denotes (double (ofMagnitude s m e)) (signed s (magnitude m e)) := by
  have hbias : (Format.binary64.exponentBias : Int) -
      Format.binary64.mantissaBitsWithoutImplicit = 971 := by decide
  unfold Denotes
  rw [unpack_double]
  by_cases hm : m = 0
  · subst hm
    rw [ofMagnitude, dif_pos rfl, pack, unpack_packedZero, magnitude, Nat.cast_zero, zero_mul]
    cases s
    · exact congrArg some neg_zero.symm
    · rfl
  · rw [ofMagnitude, dif_neg hm, unpack_pack_finite h (by omega)]
    rfl

/-- A magnitude that is not too large is packed without loss. -/
theorem denotes_ofMagnitude {s : Sign} {m : Nat} {e : Int} (h : Fits .binary64 m e)
    (hle : magnitude m e ≤ 2 ^ 53) :
    Denotes (double (ofMagnitude s m e)) (signed s (magnitude m e)) := by
  have he : e ≤ (1 : Nat) := by
    have hlarge : (2 ^ 53 : ℚ) < magnitude (2 ^ 53) (1 : Nat) := by norm_num [magnitude]
    exact h.exponent_le (hle.trans_lt hlarge)
  exact denotes_ofMagnitude_of_le h (by omega)

theorem IsShort.le {b : ℚ} (h : IsShort b) : b ≤ 2 ^ 53 := by
  obtain ⟨k, j, hk, -, rfl⟩ := h
  have hk : (k : ℚ) ≤ 2 ^ 53 := by exact_mod_cast (abs_le.1 hk).2
  have hpow : (1 : ℚ) ≤ 2 ^ j := one_le_pow₀ one_le_two
  rw [div_le_iff₀ (by positivity)]
  nlinarith

/-- **Rounding stays between rationals with few digits.** -/
theorem IsNearest.between (h : IsNearest a x) (hlo : IsShort lo) (hhi : IsShort hi)
    (hle : lo ≤ x) (hge : x ≤ hi) : ∃ y, Denotes a y ∧ lo ≤ y ∧ y ≤ hi := by
  obtain ⟨u, ⟨s, y, hround, hy, rfl⟩, rfl⟩ := h
  obtain ⟨m, e, rfl, hfits, hshort⟩ := hround.short
  have hnonneg := magnitude_nonneg m e
  cases s with
  | positive =>
    have hle : lo ≤ y := hle
    have hge : y ≤ hi := hge
    have hupper : magnitude m e ≤ hi := (hshort hi hhi (hy.trans hge)).2 hge
    refine ⟨_, denotes_ofMagnitude hfits (hupper.trans hhi.le), ?_, hupper⟩
    rcases le_total 0 lo with h0 | h0
    · exact (hshort lo hlo h0).1 hle
    · exact h0.trans hnonneg
  | negative =>
    have hle : lo ≤ -y := hle
    have hge : -y ≤ hi := hge
    have hupper : magnitude m e ≤ -lo :=
      (hshort (-lo) hlo.neg (by linarith)).2 (by linarith)
    refine ⟨_, denotes_ofMagnitude hfits (hupper.trans hlo.neg.le), le_neg_of_le_neg hupper, ?_⟩
    rcases le_total hi 0 with h0 | h0
    · exact neg_le_of_neg_le ((hshort (-hi) hhi.neg (by linarith)).1 (by linarith))
    · exact (neg_nonpos.2 hnonneg).trans h0

/-- **What has few digits is not changed by rounding.** -/
theorem IsNearest.denotes (h : IsNearest a x) (hx : IsShort x) : Denotes a x := by
  obtain ⟨y, hy, hle, hge⟩ := h.between hx hx le_rfl le_rfl
  obtain rfl : y = x := le_antisymm hge hle
  exact hy

theorem denotes_ofNat (hn : n < 2 ^ 53) : Denotes (Scalar.ofInt (n : Int)) n := by
  rcases Nat.eq_zero_or_pos n with rfl | hpos
  · exact congrArg some Nat.cast_zero.symm
  · exact (hasValue_ofNat hpos hn).denotes

theorem magnitudeNearest_eq {m : Nat} {e : Int} (hle : (n : ℚ) ≤ magnitude m e + 1 / 2)
    (hlt : magnitude m e + 1 / 2 < n + 1) : magnitudeNearest m e = n := by
  have hpow : (0 : ℚ) < 2 ^ (-e).toNat := by positivity
  have hlower : (n * (2 * 2 ^ (-e).toNat) : ℚ) ≤
      2 * (m * 2 ^ e.toNat : Nat) + 2 ^ (-e).toNat := by
    rw [← magnitude_mul_pow]
    nlinarith
  have hupper : (2 * (m * 2 ^ e.toNat : Nat) + 2 ^ (-e).toNat : ℚ) <
      (n + 1) * (2 * 2 ^ (-e).toNat) := by
    rw [← magnitude_mul_pow]
    nlinarith
  exact Nat.div_eq_of_lt_le (by exact_mod_cast hlower) (by exact_mod_cast hupper)

theorem magnitudeCeil_eq {m : Nat} {e : Int} (hlt : (n : ℚ) - 1 < magnitude m e)
    (hle : magnitude m e ≤ n) : magnitudeCeil m e = n := by
  have hpow : (0 : ℚ) < 2 ^ (-e).toNat := by positivity
  have hlower : (n * 2 ^ (-e).toNat : ℚ) < (m * 2 ^ e.toNat : Nat) + 2 ^ (-e).toNat := by
    rw [← magnitude_mul_pow]
    nlinarith
  have hupper : ((m * 2 ^ e.toNat : Nat) : ℚ) ≤ n * 2 ^ (-e).toNat := by
    rw [← magnitude_mul_pow]
    nlinarith
  have hlower : n * 2 ^ (-e).toNat < m * 2 ^ e.toNat + 2 ^ (-e).toNat := by
    exact_mod_cast hlower
  have hupper : m * 2 ^ e.toNat ≤ n * 2 ^ (-e).toNat := by exact_mod_cast hupper
  have hone : 0 < 2 ^ (-e).toNat := Nat.two_pow_pos _
  unfold magnitudeCeil
  refine Nat.div_eq_of_lt_le (by omega) ?_
  rw [Nat.add_mul, Nat.one_mul]
  omega

/-- **The nearest integer** to a number that is near to it. -/
theorem Denotes.nearest_eq (h : Denotes a x) (hx : |x - n| < 1 / 2) :
    Scalar.nearest a = .int n := by
  have hbounds := abs_lt.1 hx
  have hzero : x ≤ 0 → n = 0 := by
    intro hle
    have hlt : (n : ℚ) < 1 := by linarith
    exact Nat.lt_one_iff.1 (by exact_mod_cast hlt)
  change nearest a.toModel.unpack = .int n
  rcases rational?_cases h with ⟨s, hu, rfl⟩ | ⟨s, m, e, hm, hu, rfl⟩
  · rw [hu, hzero le_rfl]
    rfl
  · rw [hu]
    have hnonneg := magnitude_nonneg m e
    cases s with
    | positive =>
      simp only [signed] at hbounds
      have hnearest := magnitudeNearest_eq (m := m) (e := e) (n := n) (by linarith) (by linarith)
      exact congrArg (fun k : Nat => Whole.int k) hnearest
    | negative =>
      simp only [signed] at hbounds hzero
      rw [hzero (neg_nonpos.2 hnonneg)] at hbounds ⊢
      have hnearest := magnitudeNearest_eq (m := m) (e := e) (n := 0)
        (by push_cast; linarith) (by push_cast at hbounds ⊢; linarith)
      exact congrArg (fun k : Nat => Whole.int (-k)) hnearest

/-- **The next integer** above a number that is just below it. -/
theorem Denotes.ceil_eq (h : Denotes a x) (hn : 0 < n) (hlt : (n : ℚ) - 1 < x) (hle : x ≤ n) :
    Scalar.ceil a = .int n := by
  have hone : (1 : ℚ) ≤ n := by exact_mod_cast hn
  change ceil a.toModel.unpack = .int n
  rcases rational?_cases h with ⟨s, hu, rfl⟩ | ⟨s, m, e, hm, hu, rfl⟩
  · linarith
  · rw [hu]
    have hnonneg := magnitude_nonneg m e
    cases s with
    | positive =>
      exact congrArg (fun k : Nat => Whole.int k) (magnitudeCeil_eq hlt hle)
    | negative =>
      simp only [signed] at hlt
      linarith

end Doubles

end Reframe.Binary
