import Reframe.Proofs.Number.Finite

/-!
# Remainders

The remainder of two machine numbers is computed in exact integers and is a multiple of
whatever both are multiples of. So it is known as soon as the multiples are, however large
they may be. A positive number that is known is one pattern of bits; a zero is one of two,
and equal to both.

* `Binary.Denotes.remainder`: **the remainder of two multiples**.
* `Binary.Denotes.lt_zero_iff`, `Binary.Denotes.beq_zero`: comparisons with zero.
* `Binary.Denotes.unique`: a positive number has one pattern.
-/

namespace Reframe.Binary

open Float.Model (Format UnpackedFloat)
open Float.Model.UnpackedFloat

section Formats

variable {f : Format} {s : Sign} {m n i j l : Nat} {e t low : Int} {k : Int} {c : ℚ}
  {u v : UnpackedFloat}

theorem nears_ofParts (f : Format) (s : Sign) (m : Nat) (e : Int) :
    Nears f (signed s (magnitude m e)) (ofParts f s m e) := by
  unfold ofParts
  split
  next hm =>
    have hzero : signed s (magnitude m e) = 0 := by
      rw [hm, magnitude, Nat.cast_zero, zero_mul]
      cases s
      · exact neg_zero
      · rfl
    rw [hzero]
    exact nears_zero s
  next hm =>
    exact ⟨s, _, isRounded_round (Nat.pos_of_ne_zero hm) s e, magnitude_nonneg m e, rfl⟩

/-- A magnitude brought to a smaller exponent. -/
theorem magnitude_lower (m : Nat) (h : low ≤ e) :
    magnitude (m * 2 ^ (e - low).toNat) low = magnitude m e := by
  have he : low + ((e - low).toNat : Int) = e := by omega
  rw [magnitude_mul_two_pow, he]

/-- **Multiples of one number have remainders like their factors.** -/
theorem magnitude_mod (hl : 0 < l) (hn : 0 < n) (hm : magnitude m low = i * c)
    (hn' : magnitude n low = l * c) : magnitude (m % n) low = (i % l : Nat) * c := by
  have hpow : (0 : ℚ) < 2 ^ low := by positivity
  have hl' : (0 : ℚ) < l := by exact_mod_cast hl
  -- both pairs have one quotient
  have hcross : m * l = i * n := by
    have hcross : (m * l : ℚ) * 2 ^ low = (i * n) * 2 ^ low := by
      calc (m * l : ℚ) * 2 ^ low = magnitude m low * l := by rw [magnitude]; ring
        _ = i * magnitude n low := by rw [hm, hn']; ring
        _ = (i * n) * 2 ^ low := by rw [magnitude]; ring
    exact_mod_cast mul_right_cancel₀ hpow.ne' hcross
  have hquotient : m / n = i / l := by
    rw [← Nat.mul_div_mul_right m n hl, hcross, Nat.mul_comm n l, Nat.mul_div_mul_right i l hn]
  have hmod : ((m % n : Nat) : ℚ) = m - n * (i / l : Nat) := by
    have hsplit := Nat.div_add_mod m n
    rw [hquotient] at hsplit
    have hsplit : (n * (i / l : Nat) + (m % n : Nat) : ℚ) = m := by exact_mod_cast hsplit
    linarith
  have hmod' : ((i % l : Nat) : ℚ) = i - l * (i / l : Nat) := by
    have hsplit : (l * (i / l : Nat) + (i % l : Nat) : ℚ) = i := by
      exact_mod_cast Nat.div_add_mod i l
    linarith
  calc magnitude (m % n) low = magnitude m low - magnitude n low * (i / l : Nat) := by
        rw [magnitude, hmod, magnitude, magnitude]
        ring
    _ = (i % l : Nat) * c := by
        rw [hm, hn', hmod']
        ring

/-- A multiple with a sign: the sign is that of the factor. -/
theorem tmod_of_signed {y : ℚ} (hc : 0 < c) (hy : 0 < y) (h : signed s y = k * c) :
    y = (k.natAbs : Nat) * c ∧
      ((k.tmod l : Int) : ℚ) * c = signed s ((k.natAbs % l : Nat) * c) := by
  cases s with
  | positive =>
    have hk : (0 : ℚ) < k := by
      have hpos : 0 < k * c := lt_of_lt_of_eq hy h
      exact pos_of_mul_pos_left hpos hc.le
    obtain ⟨i, rfl⟩ := Int.eq_ofNat_of_zero_le (by exact_mod_cast hk.le : 0 ≤ k)
    refine ⟨?_, ?_⟩
    · rw [Int.natAbs_natCast]
      exact_mod_cast h
    · rw [Int.natAbs_natCast, signed, ← Int.ofNat_tmod, Int.cast_natCast]
  | negative =>
    have hk : (k : ℚ) < 0 := by
      have hneg : k * c < 0 := lt_of_eq_of_lt h.symm (neg_neg_of_pos hy)
      exact neg_of_mul_neg_left hneg hc.le
    obtain ⟨i, rfl⟩ := Int.exists_eq_neg_ofNat (by exact_mod_cast hk.le : k ≤ 0)
    have h : -y = -(i : ℚ) * c := by exact_mod_cast h
    refine ⟨?_, ?_⟩
    · rw [Int.natAbs_neg, Int.natAbs_natCast]
      linarith
    · rw [Int.natAbs_neg, Int.natAbs_natCast, signed, Int.neg_tmod, ← Int.ofNat_tmod,
        Int.cast_neg, Int.cast_natCast, neg_mul]

/-- **The remainder of two multiples** has the sign of the first. -/
theorem nears_remainder (hl : 0 < l) (hc : 0 < c) (hu : rational? u = some (k * c))
    (hv : rational? v = some (l * c)) : Nears f ((k.tmod l : Int) * c) (remainder f u v) := by
  have hl' : (0 : ℚ) < l := by exact_mod_cast hl
  have hlc : 0 < l * c := mul_pos hl' hc
  rcases rational?_nonneg_cases hv hlc.le with ⟨t, -, habs⟩ | ⟨n, d, hn, rfl, hvalue⟩
  · exact absurd habs hlc.ne'
  rcases rational?_cases hu with ⟨s, rfl, hzero⟩ | ⟨s, m, e, hm, rfl, hsigned⟩
  · have hk : k = 0 := by
      have hk : (k : ℚ) = 0 := (mul_eq_zero.1 hzero).resolve_right hc.ne'
      exact_mod_cast hk
    rw [hk, Int.zero_tmod, Int.cast_zero, zero_mul]
    exact nears_zero s
  · obtain ⟨hm', htmod⟩ := tmod_of_signed (l := l) hc (magnitude_pos hm e) hsigned.symm
    have hdivisor : 0 < n * 2 ^ (d - min e d).toNat := Nat.mul_pos hn (Nat.two_pow_pos _)
    have hmod := magnitude_mod hl hdivisor
      ((magnitude_lower m (min_le_left e d)).trans hm')
      ((magnitude_lower n (min_le_right e d)).trans hvalue.symm)
    rw [htmod, ← hmod]
    exact nears_ofParts f s _ _

end Formats

section Doubles

variable {a b : Float} {l : Nat} {k : Int} {c x : ℚ}

theorem Denotes.remainder (hl : 0 < l) (hc : 0 < c) (ha : Denotes a (k * c))
    (hb : Denotes b (l * c)) : IsNearest (Scalar.remainder a b) ((k.tmod l : Int) * c) :=
  ⟨_, nears_remainder hl hc ha hb, rfl⟩

/-- **A number below zero is one with a negative value.** -/
theorem Denotes.lt_zero_iff (h : Denotes a x) : a < 0.0 ↔ x < 0 :=
  h.lt_iff amount_zero.denotes

/-- A number equal to zero is one with the value zero, whatever its sign. -/
theorem Denotes.beq_zero (h : Denotes a x) : (a == 0.0) = decide (x = 0) := by
  change a.toModel.unpack.beq _ = _
  rcases rational?_cases h with ⟨s, hu, rfl⟩ | ⟨s, m, e, hm, hu, rfl⟩
  · rw [hu]
    rfl
  · have hne : signed s (magnitude m e) ≠ 0 := by
      have hpos := magnitude_pos hm e
      cases s with
      | positive => exact hpos.ne'
      | negative => exact (neg_neg_of_pos hpos).ne
    rw [hu, decide_eq_false hne]
    cases s <;> rfl

/-- **A positive number has one pattern.** -/
theorem Denotes.unique (ha : Denotes a x) (hb : Denotes b x) (hx : 0 < x) : a = b := by
  rcases rational?_nonneg_cases ha hx.le with ⟨-, -, habs⟩ | ⟨m, e, hm, hu, hvalue⟩
  · exact absurd habs hx.ne'
  rcases rational?_nonneg_cases hb hx.le with ⟨-, -, habs⟩ | ⟨n, d, hn, hv, hvalue'⟩
  · exact absurd habs hx.ne'
  have hfits := canonical a
  have hfits' := canonical b
  rw [hu] at hfits
  rw [hv] at hfits'
  have hsame : magnitude m e = magnitude n d := hvalue.symm.trans hvalue'
  have hlt := mt (magnitude_lt_iff hfits hfits').2 (not_lt.2 hsame.ge)
  have hgt := mt (magnitude_lt_iff hfits' hfits).2 (not_lt.2 hsame.le)
  obtain ⟨hbits, -⟩ := toNat_of_unpack_finite hu
  obtain ⟨hbits', -⟩ := toNat_of_unpack_finite hv
  refine Float.toBits_inj.1 (UInt64.toNat_inj.1 ?_)
  have ha : (a.toBits.toNat : Int) = (e + 1074) * 2 ^ 52 + m := hbits
  have hb : (b.toBits.toNat : Int) = (d + 1074) * 2 ^ 52 + n := hbits'
  omega

end Doubles

end Reframe.Binary
