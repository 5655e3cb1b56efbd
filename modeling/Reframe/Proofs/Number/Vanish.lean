import Reframe.Proofs.Number.Nearest
import Reframe.Proofs.Number.Remainder

/-!
# What vanishes

A number is rounded to zero exactly if it is at most half of the least one that the format
stores. A sum does not get that small: what is not zero is at least the least number, and so is
a sum of such numbers. So of numbers that are zero or above zero, infinity among them, the sum
tells whether they are all zero.

* `Binary.RoundsEven.le_iff_of_even`: what is rounded down to an even number.
* `Binary.RoundsEven.eq_zero_iff`: **what is rounded to zero**.
* `Binary.Signals`: a number that is zero or above zero, and what it tells.
* `Binary.Signals.sum`: what a sum tells.
-/

namespace Reframe.Binary

open Float.Model (Format UnpackedFloat totalExponent)
open Float.Model.UnpackedFloat

section Formats

variable {f : Format} {m n : Nat} {e t : Int} {x y : ℚ} {u v : UnpackedFloat}
  {em : ExtendedMantissa}

/-- A number between two neighbours is rounded to what the neighbours and the middle say. -/
theorem Locates.roundsEven (h : Locates em (x / 2 ^ t)) (hfits : Fits f em.mantissa t)
    (hrounded : Fits f em.roundedMantissa t) :
    RoundsEven f x (ofMagnitude .positive em.roundedMantissa t) :=
  ⟨em, t, _, t, hfits, h, .inl rfl, hrounded, rfl⟩

/-- **What is rounded down to an even number**: all up to the middle. -/
theorem RoundsEven.le_iff_of_even (h : RoundsEven f x u) (hu : Stores u m e) (hn : Fits f n t)
    (heven : n % 2 = 0) : magnitude m e ≤ magnitude n t ↔ x ≤ (n + 1 / 2) * 2 ^ t := by
  have hpow : (0 : ℚ) < 2 ^ t := by positivity
  refine ⟨fun hle => ?_, fun hx => ?_⟩
  · -- above the middle the next number up is nearer
    have hnext := h.nearest hu (Nat.succ_le_of_lt hn.lt) hn.le
    rw [Nat.succ_eq_add_one, magnitude_succ] at hnext
    have hx := le_middle hnext (by linarith)
    have hmiddle : ((n : ℚ) + 1 / 2) * 2 ^ t = magnitude n t + 1 / 2 * 2 ^ t := by
      rw [magnitude]
      ring
    linarith
  · have hmiddle : Locates ⟨n, true, false⟩ ((n + 1 / 2) * 2 ^ t / 2 ^ t : ℚ) :=
      mul_div_cancel_right₀ _ hpow.ne'
    have hround : (⟨n, true, false⟩ : ExtendedMantissa).roundedMantissa = n := by
      simp only [ExtendedMantissa.roundedMantissa, ExtendedMantissa.accuracy,
        Accuracy.roundToNearestEven]
      omega
    have hfits : Fits f (⟨n, true, false⟩ : ExtendedMantissa).roundedMantissa t := by
      rw [hround]
      exact hn
    have hless := h.magnitude_le (hmiddle.roundsEven hn hfits) hx hu (.inl rfl)
    rwa [hround] at hless

/-- **What is rounded to zero**: what is at most half of the least number. -/
theorem RoundsEven.eq_zero_iff (h : RoundsEven f x u) (hu : Stores u m e) :
    m = 0 ↔ x ≤ 2 ^ (f.minExponent - 1) := by
  have hfits : Fits f 0 f.minExponent := ⟨Nat.two_pow_pos _, le_rfl, .inr rfl⟩
  have hle := h.le_iff_of_even hu hfits rfl
  have hhalf : ((0 : Nat) + 1 / 2 : ℚ) * 2 ^ f.minExponent = 2 ^ (f.minExponent - 1) := by
    rw [zpow_sub_one₀ two_ne_zero, Nat.cast_zero]
    ring
  have hzero : magnitude m e ≤ magnitude 0 f.minExponent ↔ m = 0 := by
    rw [← Nat.le_zero, ← magnitude_le_left_iff m 0 e, magnitude, magnitude, magnitude,
      Nat.cast_zero, zero_mul, zero_mul]
  rw [← hhalf, ← hle, hzero]

end Formats

section Doubles

variable {a b : Float} {x y z : ℚ} {m : Nat} {e : Int} {u : UnpackedFloat} {p q : Prop}

/-- The least number that the format stores. -/
def least : ℚ :=
  2 ^ (-1074 : Int)

theorem least_pos : 0 < least := by
  unfold least
  positivity

/-- **An amount that is not zero** is at least the least number. -/
theorem Amount.least_le (h : Amount a x) (hpos : 0 < x) : least ≤ x := by
  have hfits := canonical a
  rcases rational?_nonneg_cases h.denotes h.nonneg with ⟨s, -, rfl⟩ | ⟨m, e, hm, hu, rfl⟩
  · exact absurd hpos (lt_irrefl 0)
  · rw [hu] at hfits
    have hmin : (-1074 : Int) ≤ e := hfits.le
    calc least = magnitude 1 (-1074) := by rw [least, magnitude, Nat.cast_one, one_mul]
      _ ≤ magnitude 1 e := magnitude_le_right 1 hmin
      _ ≤ magnitude m e := magnitude_le_left hm e

/-- What is above zero is infinite, or an amount. -/
theorem above_zero_cases (h : 0.0 < a) :
    a.toModel.unpack = .infinity .positive ∨ ∃ x, Amount a x ∧ 0 < x := by
  have hlt := h
  rw [lt_iff_unpack, unpack_zero] at hlt
  cases hu : a.toModel.unpack with
  | notANumber =>
    rw [hu] at hlt
    cases hlt
  | infinity s =>
    rw [hu] at hlt
    cases s with
    | positive => exact .inl rfl
    | negative => cases hlt
  | zero s =>
    rw [hu] at hlt
    cases hlt
  | finite s m e hm =>
    have hdenotes : Denotes a (signed s (magnitude m e)) := by
      rw [Denotes, hu]
      rfl
    have hpos := (amount_zero.denotes.lt_iff hdenotes).1 h
    exact .inr ⟨_, ⟨hdenotes, hpos.le⟩, hpos⟩

/-- The number is zero or above zero, and tells by that whether something is so. -/
structure Signals (a : Float) (p : Prop) : Prop where
  above : p → 0.0 < a
  zero : ¬ p → Denotes a 0

namespace Signals

theorem congr (h : Signals a p) (hpq : p ↔ q) : Signals a q :=
  ⟨fun hq => h.above (hpq.2 hq), fun hq => h.zero (mt hpq.1 hq)⟩

/-- It is infinite, or an amount that is not too small for the format. -/
theorem cases (h : Signals a p) : (p ∧ a.toModel.unpack = .infinity .positive) ∨
    ∃ x, Amount a x ∧ (p ↔ least ≤ x) ∧ (p ↔ x ≠ 0) := by
  have hleast := least_pos
  by_cases hp : p
  · rcases above_zero_cases (h.above hp) with hinf | ⟨x, hx, hpos⟩
    · exact .inl ⟨hp, hinf⟩
    · exact .inr ⟨x, hx, iff_of_true hp (hx.least_le hpos), iff_of_true hp hpos.ne'⟩
  · refine .inr ⟨0, ⟨h.zero hp, le_rfl⟩, iff_of_false hp ?_, iff_of_false hp ?_⟩
    · exact not_le.2 hleast
    · exact fun hne => hne rfl

/-- It is zero exactly if it is not so. -/
theorem beq_zero_iff (h : Signals a p) : a == 0.0 ↔ ¬ p := by
  rcases h.cases with ⟨hp, hu⟩ | ⟨x, hx, -, hiff⟩
  · have hbeq : (a == 0.0) = a.toModel.unpack.beq (.zero .positive) := rfl
    rw [hbeq, hu]
    simp [hp, UnpackedFloat.beq, UnpackedFloat.compare]
  · rw [hx.denotes.beq_zero, hiff]
    simp

/-- It is not below zero, and is a number. -/
theorem zero_le (h : Signals a p) : 0.0 ≤ a := by
  rcases h.cases with ⟨-, hu⟩ | ⟨x, hx, -, -⟩
  · rw [le_iff_unpack, unpack_zero, hu]
    rfl
  · exact (amount_zero.denotes.le_iff hx.denotes).2 hx.nonneg

theorem of_unpack_eq {b : Float} (h : Signals a p) (hunpack : b.toModel.unpack = a.toModel.unpack) :
    Signals b p := by
  refine ⟨fun hp => ?_, fun hp => ?_⟩
  · rw [lt_iff_unpack, hunpack, ← lt_iff_unpack]
    exact h.above hp
  · rw [Denotes, hunpack]
    exact h.zero hp

theorem of_infinity (h : a.toModel.unpack = .infinity .positive) (hp : p) : Signals a p := by
  refine ⟨fun _ => ?_, fun hnot => absurd hp hnot⟩
  rw [lt_iff_unpack, unpack_zero, h]
  rfl

end Signals

theorem unpack_double_infinity (s : Sign) :
    (double (.infinity s)).toModel.unpack = .infinity s := by
  rw [unpack_double, pack, unpack_packedInfinity]

/-- **What is rounded** tells whether it was more than half of the least number. -/
theorem RoundsEven.signals (h : RoundsEven .binary64 x u) : Signals (double u) (least / 2 < x) := by
  have hmin : Format.binary64.minExponent = -1074 := by decide
  have hhalf : (2 : ℚ) ^ (Format.binary64.minExponent - 1) = least / 2 := by
    rw [hmin, least, zpow_sub_one₀ two_ne_zero]
    ring
  obtain ⟨m, e, hstores, hfits⟩ := h.exists_stores
  have hzero := h.eq_zero_iff hstores
  rw [hhalf, ← not_lt] at hzero
  refine Signals.congr (p := m ≠ 0) ⟨fun hm => ?_, fun hm => ?_⟩ (not_iff_comm.1 hzero.symm)
  · by_cases he : e ≤ 971
    · have hamount := hstores.amount hfits he
      exact (amount_zero.denotes.lt_iff hamount.denotes).2 (magnitude_pos (Nat.pos_of_ne_zero hm) e)
    · rw [lt_iff_unpack, hstores.overflow hfits (by omega)]
      rfl
  · obtain rfl : m = 0 := not_not.1 hm
    have hmagnitude : magnitude 0 e = 0 := by rw [magnitude, Nat.cast_zero, zero_mul]
    have he : e ≤ 971 := by
      have hfull := hfits.full.resolve_left (Nat.not_le.2 (Nat.two_pow_pos _))
      omega
    have hamount := hstores.amount hfits he
    rw [hmagnitude] at hamount
    exact hamount.denotes

/-- Infinity stays what it is when a number that is not below zero is added. -/
theorem Signals.infinity_add (h : Signals a p) :
    UnpackedFloat.add .binary64 (.infinity .positive) a.toModel.unpack = .infinity .positive ∧
      UnpackedFloat.add .binary64 a.toModel.unpack (.infinity .positive) = .infinity .positive := by
  rcases h.cases with ⟨-, hu⟩ | ⟨x, hx, -, -⟩
  · rw [hu]
    exact ⟨rfl, rfl⟩
  · rcases rational?_nonneg_cases hx.denotes hx.nonneg with ⟨s, hu, -⟩ | ⟨m, e, hm, hu, -⟩
    · rw [hu]
      exact ⟨rfl, rfl⟩
    · rw [hu]
      exact ⟨rfl, rfl⟩

/-- **A sum tells whether a part is not zero.** -/
theorem Signals.add (ha : Signals a p) (hb : Signals b q) : Signals (a + b) (p ∨ q) := by
  have hadd : a + b =
      double (UnpackedFloat.add .binary64 a.toModel.unpack b.toModel.unpack) := rfl
  rcases ha.cases with ⟨hp, hu⟩ | ⟨x, hx, hleast, hp⟩
  · refine Signals.of_infinity ?_ (.inl hp)
    rw [hadd, hu, hb.infinity_add.1, unpack_double_infinity]
  · rcases hb.cases with ⟨hq, hv⟩ | ⟨y, hy, hleast', hq⟩
    · refine Signals.of_infinity ?_ (.inr hq)
      rw [hadd, hv, ha.infinity_add.2, unpack_double_infinity]
    · have hround := roundsEven_add (canonical a) (canonical b) hx.denotes hy.denotes hx.nonneg
        hy.nonneg
      refine hround.signals.congr ⟨fun hlt => ?_, fun hpq => ?_⟩
      · -- no part of more than nothing is nothing
        by_contra hnone
        rw [not_or, hp, hq, not_not, not_not] at hnone
        rw [hnone.1, hnone.2, add_zero] at hlt
        linarith [least_pos]
      · have hpos := least_pos
        rcases hpq with h | h
        · linarith [hleast.1 h, hy.nonneg]
        · linarith [hleast'.1 h, hx.nonneg]

/-- The sum of nothing is zero. -/
theorem signals_nil : Signals (Scalar.sum ([] : List Float)) False :=
  ⟨False.elim, fun _ => rfl⟩

/-- **A sum tells whether a member is not zero.** -/
theorem Signals.sum {τ : Type} {f : τ → Float} {P : τ → Prop} (items : List τ)
    (h : ∀ i ∈ items, Signals (f i) (P i)) :
    Signals (Scalar.sum (items.map f)) (∃ i ∈ items, P i) := by
  suffices hfold : ∀ (b : Float) (q : Prop), Signals b q →
      Signals ((items.map f).foldl (· + ·) b) (q ∨ ∃ i ∈ items, P i) by
    exact (hfold _ False signals_nil).congr (by simp)
  induction items with
  | nil =>
    intro b q hb
    exact hb.congr (by simp)
  | cons i rest ih =>
    intro b q hb
    obtain ⟨hi, hrest⟩ := List.forall_mem_cons.1 h
    rw [List.map_cons, List.foldl_cons]
    exact (ih hrest _ _ (hb.add hi)).congr (by simp [or_assoc])

end Doubles

end Reframe.Binary
