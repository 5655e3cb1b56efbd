import Reframe.Point
import Reframe.Proofs.Number.Finite

/-!
# Distances of machine numbers

The distance of two finite machine numbers is their difference, rounded, without its sign. The
sign makes no difference to rounding, so a distance is the exact distance, rounded to nearest.
Since rounding keeps the order, numbers that are no farther apart have no larger distance,
also when distances overflow.

* `Binary.exists_apart`: a distance is the exact one, rounded to nearest.
* `Binary.apart_le_apart`: **distances keep the order**.
* `Binary.apart_self_le`: equal numbers are within every threshold.
* `Binary.apart_comm`: **distances do not depend on the order**.
-/

namespace Reframe.Binary

open Float.Model (Format UnpackedFloat)
open Float.Model.UnpackedFloat

section Formats

variable {f : Format} {m n : Nat} {d e : Int} {x y : ℚ} {u v : UnpackedFloat}

/-- Rounding does not look at the sign. -/
theorem abs_round (s : Sign) (m : Nat) (e : Int) :
    (UnpackedFloat.round f s m e).abs = UnpackedFloat.round f .positive m e := by
  unfold UnpackedFloat.round roundWithAccuracy
  dsimp only
  split <;> rfl

theorem roundsEven_abs_normalize (k e : Int) :
    RoundsEven f |(k : ℚ) * 2 ^ e| (UnpackedFloat.normalize f k e .positive).abs := by
  have hpow : (0 : ℚ) < 2 ^ e := by positivity
  rw [abs_mul, abs_of_pos hpow]
  have hcast : ((|k|.toNat : Nat) : ℚ) = |(k : ℚ)| := by
    have hk : (|k|.toNat : Int) = |k| := Int.toNat_of_nonneg (abs_nonneg k)
    exact_mod_cast hk
  rcases lt_trichotomy k 0 with hneg | rfl | hpos
  · have hcompare : compare k 0 = .lt := Int.compare_eq_lt.2 hneg
    rw [UnpackedFloat.normalize, hcompare, abs_round, ← hcast, abs_of_neg hneg]
    exact roundsEven_round (by omega) e
  · rw [Int.cast_zero, abs_zero, zero_mul]
    exact roundsEven_zero .positive
  · have hcompare : compare k 0 = .gt := Int.compare_eq_gt.2 hpos
    rw [UnpackedFloat.normalize, hcompare, abs_round, ← hcast, abs_of_pos hpos]
    exact roundsEven_round (by omega) e

/-- **A difference without its sign is rounded to nearest.** -/
theorem roundsEven_abs_sub (hu : Canonical f u) (hv : Canonical f v) (hx : rational? u = some x)
    (hy : rational? v = some y) : RoundsEven f |x - y| (UnpackedFloat.sub f u v).abs := by
  rcases rational?_cases hx with ⟨s, rfl, rfl⟩ | ⟨s, m, e, hm, rfl, rfl⟩
  · rcases rational?_cases hy with ⟨t, rfl, rfl⟩ | ⟨t, n, d, hn, rfl, rfl⟩
    · rw [sub_zero, abs_zero, UnpackedFloat.sub]
      split <;> exact roundsEven_zero .positive
    · rw [zero_sub, abs_neg, abs_signed t (magnitude_nonneg n d)]
      exact roundsEven_finite hv
  · rcases rational?_cases hy with ⟨t, rfl, rfl⟩ | ⟨t, n, d, hn, rfl, rfl⟩
    · rw [sub_zero, abs_signed s (magnitude_nonneg m e)]
      exact roundsEven_finite hu
    · rw [← apply_shiftLeft s m (min_le_left e d), ← apply_shiftLeft t n (min_le_right e d),
        ← sub_mul, ← Int.cast_sub]
      exact roundsEven_abs_normalize _ _

theorem Nears.canonical (h : Nears f x u) : Canonical f u ∧ u ≠ .notANumber := by
  obtain ⟨s, y, ⟨m, e, rfl, hfits, -⟩, -, -⟩ := h
  unfold ofMagnitude
  split
  · exact ⟨trivial, by simp⟩
  · exact ⟨hfits, by simp⟩

/-- What loses its sign after packing has lost it before. -/
theorem unpack_pack_abs (hu : Canonical f u) (hnumber : u ≠ .notANumber) :
    unpack f (pack f (unpack f (pack f u)).abs) = unpack f (pack f u.abs) := by
  cases u with
  | notANumber => exact absurd rfl hnumber
  | infinity s => rw [pack, unpack_packedInfinity]
  | zero s => rw [pack, unpack_packedZero]
  | finite s m e hm =>
    by_cases he : e ≤ f.exponentBias - f.mantissaBitsWithoutImplicit
    · rw [unpack_pack_finite hu he]
    · rw [unpack_pack_overflow (by omega)]
      change unpack f (pack f (.infinity .positive)) = unpack f (pack f (.finite .positive m e hm))
      rw [pack, unpack_packedInfinity, unpack_pack_overflow (by omega)]

theorem abs_unpack_pack (hu : Canonical f u) (hnumber : u ≠ .notANumber) :
    (unpack f (pack f u)).abs = unpack f (pack f u.abs) := by
  cases u with
  | notANumber => exact absurd rfl hnumber
  | infinity s =>
    rw [pack, unpack_packedInfinity]
    exact (unpack_packedInfinity .positive).symm
  | zero s =>
    rw [pack, unpack_packedZero]
    exact unpack_packedZero.symm
  | finite s m e hm =>
    change _ = unpack f (pack f (.finite .positive m e hm))
    by_cases he : e ≤ f.exponentBias - f.mantissaBitsWithoutImplicit
    · rw [unpack_pack_finite hu he, unpack_pack_finite hu he]
      rfl
    · rw [unpack_pack_overflow (by omega), unpack_pack_overflow (by omega)]
      rfl

theorem abs_normalize_neg (k e : Int) :
    (UnpackedFloat.normalize f (-k) e .positive).abs =
      (UnpackedFloat.normalize f k e .positive).abs := by
  rcases lt_trichotomy k 0 with hneg | rfl | hpos
  · have hcompare : compare k 0 = .lt := Int.compare_eq_lt.2 hneg
    have hcompare' : compare (-k) 0 = .gt := Int.compare_eq_gt.2 (by omega)
    rw [UnpackedFloat.normalize, UnpackedFloat.normalize, hcompare, hcompare', abs_round, abs_round]
  · rfl
  · have hcompare : compare k 0 = .gt := Int.compare_eq_gt.2 hpos
    have hcompare' : compare (-k) 0 = .lt := Int.compare_eq_lt.2 (by omega)
    rw [UnpackedFloat.normalize, UnpackedFloat.normalize, hcompare, hcompare', abs_round, abs_round,
      neg_neg]

/-- A difference the other way round differs in the sign. -/
theorem abs_sub_swap (hx : rational? u = some x) (hy : rational? v = some y) :
    (UnpackedFloat.sub f u v).abs = (UnpackedFloat.sub f v u).abs := by
  rcases rational?_cases hx with ⟨s, rfl, -⟩ | ⟨s, m, e, hm, rfl, -⟩
  · rcases rational?_cases hy with ⟨t, rfl, -⟩ | ⟨t, n, d, hn, rfl, -⟩
    · cases s <;> cases t <;> rfl
    · rfl
  · rcases rational?_cases hy with ⟨t, rfl, -⟩ | ⟨t, n, d, hn, rfl, -⟩
    · rfl
    · have hsub : ∀ (s t : Sign) (m n : Nat) (e d : Int) (hm : 0 < m) (hn : 0 < n),
          UnpackedFloat.sub f (.finite s m e hm) (.finite t n d hn) = UnpackedFloat.normalize f
            (s.apply (m <<< (e - min e d).toNat : Nat) - t.apply (n <<< (d - min e d).toNat : Nat))
            (min e d) .positive := fun _ _ _ _ _ _ _ _ => rfl
      rw [hsub, hsub, min_comm d e, ← neg_sub, abs_normalize_neg]

end Formats

section Doubles

variable {a b c d t : Float} {x y z w : ℚ} {u v : UnpackedFloat} {m n : Nat} {e k : Int}

/-- What stores no larger magnitude is no larger, be there an overflow or not. -/
theorem Stores.double_le (hu : Stores u m e) (hm : Fits .binary64 m e) (hv : Stores v n k)
    (hn : Fits .binary64 n k) (hle : magnitude m e ≤ magnitude n k) : double u ≤ double v := by
  by_cases hk : k ≤ 971
  · have he : e ≤ 971 := by
      by_contra hlarge
      have hgt := (magnitude_lt_iff hn hm).2 (.inl (by omega))
      exact absurd hle (not_le.2 hgt)
    exact ((hu.amount hm he).le_iff (hv.amount hn hk)).2 hle
  · rw [le_iff_unpack, hv.overflow hn (by omega)]
    by_cases he : e ≤ 971
    · have hamount := hu.amount hm he
      rcases rational?_nonneg_cases hamount.denotes hamount.nonneg with ⟨s, h, -⟩ | ⟨i, j, hi, h, -⟩
      · rw [h]
        rfl
      · rw [h]
        rfl
    · rw [hu.overflow hm (by omega)]
      rfl

/-- **A distance is the exact one, rounded to nearest.** -/
theorem exists_apart (ha : Denotes a x) (hb : Denotes b y) :
    ∃ u, RoundsEven .binary64 |x - y| u ∧
      (apart a b).toModel.unpack = (double u).toModel.unpack := by
  obtain ⟨hcanonical, hnumber⟩ := (nears_sub (canonical a) (canonical b) ha hb).canonical
  exact ⟨_, roundsEven_abs_sub (canonical a) (canonical b) ha hb,
    unpack_pack_abs hcanonical hnumber⟩

/-- **Distances keep the order**: numbers that are no farther apart have no larger distance. -/
theorem apart_le_apart (ha : Denotes a x) (hb : Denotes b y) (hc : Denotes c z)
    (hd : Denotes d w) (h : |x - y| ≤ |z - w|) : apart a b ≤ apart c d := by
  obtain ⟨u, hu, hunpack⟩ := exists_apart ha hb
  obtain ⟨v, hv, hunpack'⟩ := exists_apart hc hd
  obtain ⟨m, e, n, k, ⟨hstored, hm⟩, ⟨hstored', hn⟩, hle⟩ := hu.le hv h
  have hdouble := hstored.double_le hm hstored' hn hle
  rw [le_iff_unpack] at hdouble ⊢
  rw [hunpack, hunpack']
  exact hdouble

/-- **Distances do not depend on the order.** -/
theorem apart_comm (ha : Denotes a x) (hb : Denotes b y) : apart a b = apart b a := by
  have happart : ∀ {a b : Float} {x y : ℚ}, Denotes a x → Denotes b y → apart a b =
      double (unpack .binary64 (pack .binary64
        (UnpackedFloat.sub .binary64 a.toModel.unpack b.toModel.unpack).abs)) := by
    intro a b x y ha hb
    obtain ⟨hcanonical, hnumber⟩ := (nears_sub (canonical a) (canonical b) ha hb).canonical
    rw [← abs_unpack_pack hcanonical hnumber]
    rfl
  rw [happart ha hb, happart hb ha, abs_sub_swap ha hb]

/-- Equal numbers are within every distance that is not negative. -/
theorem apart_self_le (ha : Denotes a x) (hb : Denotes b x) (ht : Amount t y) :
    apart a b ≤ t := by
  have hzero : IsShort ((0 : Int) : ℚ) := isShort_int (by norm_num)
  rw [Int.cast_zero] at hzero
  have hdifference : Denotes (a - b) 0 := by
    have hnearest := ha.sub hb
    rw [sub_self] at hnearest
    exact hnearest.denotes hzero
  have hdistance : Denotes (apart a b) 0 := by
    have hnearest := hdifference.abs
    rw [abs_zero] at hnearest
    exact hnearest.denotes hzero
  exact (hdistance.le_iff ht.denotes).2 ht.nonneg

end Doubles

end Reframe.Binary
