import Mathlib.Data.EReal.Basic
import Mathlib.Order.Compare
import Reframe.Proofs.Number.Monotone

/-!
# The order of all machine numbers

A machine number is a rational, one of two infinities, or none. Comparing two of them by
exponents and mantissas compares their values, and what is no number compares with nothing.
So the machine's order is transitive on all machine numbers, though total on those alone
that are numbers.

* `Binary.extended?`: the value of a number, infinities included.
* `Binary.compare_eq_cmp`: **the machine compares values**.
* `Binary.le_iff_extended`, `Binary.lt_iff_extended`: its order in terms of values.
* `Binary.le_trans_machine`: its order is transitive.
* `Binary.Denotes.le_iff`, `Binary.Denotes.lt_iff`: on finite numbers it is that of rationals.
-/

namespace Reframe.Binary

open Float.Model (Format UnpackedFloat)
open Float.Model.UnpackedFloat

section Formats

variable {f : Format} {m n : Nat} {d e : Int} {x y : ℚ} {u v : UnpackedFloat}

theorem magnitude_pos (hm : 0 < m) (e : Int) : 0 < magnitude m e :=
  mul_pos (by exact_mod_cast hm) (by positivity)

/-- The value of a number, infinities included. -/
noncomputable def extended? : UnpackedFloat → Option EReal
  | .notANumber => none
  | .infinity .negative => some ⊥
  | .infinity .positive => some ⊤
  | .zero _ => some 0
  | .finite s m e _ => some (((signed s (magnitude m e) : ℚ) : ℝ) : EReal)

theorem extended?_of_rational? (h : rational? u = some x) :
    extended? u = some ((x : ℝ) : EReal) := by
  rcases rational?_cases h with ⟨s, rfl, rfl⟩ | ⟨s, m, e, hm, rfl, rfl⟩
  · simp [extended?]
  · rfl

theorem rational?_eq_none (h : rational? u = none) : u = .notANumber ∨ ∃ s, u = .infinity s := by
  cases u with
  | notANumber => exact .inl rfl
  | infinity s => exact .inr ⟨s, rfl⟩
  | zero s => cases h
  | finite s m e hm => cases h

/-- Exponents first, then mantissas: that is how magnitudes compare. -/
theorem compare_magnitude (h : Fits f m e) (h' : Fits f n d) :
    (compare e d).then (compare m n) = cmp (magnitude m e) (magnitude n d) := by
  have hlt := magnitude_lt_iff h h'
  have hgt := magnitude_lt_iff h' h
  rcases lt_trichotomy (magnitude m e) (magnitude n d) with hless | hsame | hmore
  · rw [(cmp_eq_lt_iff _ _).2 hless, Ordering.then_eq_lt, compare_lt_iff_lt, compare_eq_iff_eq,
      compare_lt_iff_lt]
    exact hlt.1 hless
  · have hnot : ¬ magnitude m e < magnitude n d := hsame.not_lt
    have hnot' : ¬ magnitude n d < magnitude m e := hsame.not_gt
    rw [hlt] at hnot
    rw [hgt] at hnot'
    obtain ⟨rfl, rfl⟩ : e = d ∧ m = n := by omega
    simp
  · rw [(cmp_eq_gt_iff _ _).2 hmore, Ordering.then_eq_gt, compare_gt_iff_gt, compare_eq_iff_eq,
      compare_gt_iff_gt]
    exact (hgt.1 hmore).imp id fun h => ⟨h.1.symm, h.2⟩

/-- Finite numbers are compared as rationals. -/
theorem compare_of_rational? (hu : Canonical f u) (hv : Canonical f v)
    (hx : rational? u = some x) (hy : rational? v = some y) : u.compare v = some (cmp x y) := by
  have hlt : ∀ {x y : ℚ}, x < y → some Ordering.lt = some (cmp x y) :=
    fun h => congrArg some ((cmp_eq_lt_iff _ _).2 h).symm
  have hgt : ∀ {x y : ℚ}, y < x → some Ordering.gt = some (cmp x y) :=
    fun h => congrArg some ((cmp_eq_gt_iff _ _).2 h).symm
  rcases rational?_cases hx with ⟨s, rfl, rfl⟩ | ⟨s, m, e, hm, rfl, rfl⟩
  · rcases rational?_cases hy with ⟨t, rfl, rfl⟩ | ⟨t, n, d, hn, rfl, rfl⟩
    · simp [UnpackedFloat.compare]
    · have hpos := magnitude_pos hn d
      cases t
      · exact hgt (neg_neg_of_pos hpos)
      · exact hlt hpos
  · have hpos := magnitude_pos hm e
    rcases rational?_cases hy with ⟨t, rfl, rfl⟩ | ⟨t, n, d, hn, rfl, rfl⟩
    · cases s
      · exact hlt (neg_neg_of_pos hpos)
      · exact hgt hpos
    · have hpos' := magnitude_pos hn d
      have hcompare := compare_magnitude hu hv
      cases s <;> cases t
      · -- with a sign the order is the other way round
        have hneg : cmp (-magnitude m e) (-magnitude n d) =
            cmp (magnitude n d) (magnitude m e) := by
          simp [cmp, cmpUsing]
        simp [UnpackedFloat.compare, signed, hcompare, hneg]
      · exact hlt ((neg_neg_of_pos hpos).trans hpos')
      · exact hgt ((neg_neg_of_pos hpos').trans hpos)
      · simp [UnpackedFloat.compare, signed, hcompare]

/-- **The machine compares values**, and compares nothing with what is no number. -/
theorem compare_eq_cmp (hu : Canonical f u) (hv : Canonical f v) :
    u.compare v = (extended? u).bind fun x => (extended? v).map fun y => cmp x y := by
  cases hx : rational? u with
  | some x =>
    have hreal := extended?_of_rational? hx
    cases hy : rational? v with
    | some y =>
      rw [hreal, extended?_of_rational? hy, compare_of_rational? hu hv hx hy]
      simp [cmp, cmpUsing]
    | none =>
      -- an infinity is beyond all that is finite
      rw [hreal]
      rcases rational?_eq_none hy with rfl | ⟨t, rfl⟩
      · rcases rational?_cases hx with ⟨s, rfl, -⟩ | ⟨s, m, e, hm, rfl, -⟩ <;> rfl
      · rcases rational?_cases hx with ⟨s, rfl, -⟩ | ⟨s, m, e, hm, rfl, -⟩ <;>
          cases t <;> simp [UnpackedFloat.compare, extended?, cmp, cmpUsing]
  | none =>
    rcases rational?_eq_none hx with rfl | ⟨s, rfl⟩
    · rfl
    · cases hy : rational? v with
      | some y =>
        rw [extended?_of_rational? hy]
        rcases rational?_cases hy with ⟨t, rfl, -⟩ | ⟨t, n, d, hn, rfl, -⟩ <;>
          cases s <;> simp [UnpackedFloat.compare, extended?, cmp, cmpUsing]
      | none =>
        rcases rational?_eq_none hy with rfl | ⟨t, rfl⟩
        · cases s <;> rfl
        · cases s <;> cases t <;> simp [UnpackedFloat.compare, extended?, cmp, cmpUsing] <;> rfl

end Formats

section Doubles

variable {a b c : Float} {x y : ℚ}

/-- **A number is at most another** when both have values, and these are in that order. -/
theorem le_iff_extended : a ≤ b ↔ ∃ x y, extended? a.toModel.unpack = some x ∧
    extended? b.toModel.unpack = some y ∧ x ≤ y := by
  rw [le_iff_unpack, UnpackedFloat.le, compare_eq_cmp (canonical a) (canonical b)]
  cases extended? a.toModel.unpack with
  | none => simp
  | some x =>
    cases extended? b.toModel.unpack with
    | none => simp
    | some y => simp [Ordering.isLE_iff_ne_gt, cmp_eq_gt_iff]

theorem lt_iff_extended : a < b ↔ ∃ x y, extended? a.toModel.unpack = some x ∧
    extended? b.toModel.unpack = some y ∧ x < y := by
  rw [lt_iff_unpack, UnpackedFloat.lt, compare_eq_cmp (canonical a) (canonical b)]
  cases extended? a.toModel.unpack with
  | none => simp
  | some x =>
    cases extended? b.toModel.unpack with
    | none => simp
    | some y => simp [cmp_eq_lt_iff]

/-- **The machine's order is transitive**, whatever the numbers. -/
theorem le_trans_machine (hab : a ≤ b) (hbc : b ≤ c) : a ≤ c := by
  rw [le_iff_extended] at hab hbc ⊢
  obtain ⟨x, y, hx, hy, hxy⟩ := hab
  obtain ⟨y', z, hy', hz, hyz⟩ := hbc
  obtain rfl : y = y' := Option.some.inj (hy.symm.trans hy')
  exact ⟨x, z, hx, hz, hxy.trans hyz⟩

/-- Of two that are numbers, and so are at most themselves, one is less or the other is at
most it. -/
theorem not_lt_machine (ha : a ≤ a) (hb : b ≤ b) : ¬ b < a ↔ a ≤ b := by
  rw [le_iff_extended] at ha hb
  obtain ⟨x, -, hx, -, -⟩ := ha
  obtain ⟨y, -, hy, -, -⟩ := hb
  rw [lt_iff_extended, le_iff_extended, hx, hy]
  simp

/-- **The order of finite numbers is that of rationals.** -/
theorem Denotes.le_iff (ha : Denotes a x) (hb : Denotes b y) : a ≤ b ↔ x ≤ y := by
  rw [le_iff_extended, extended?_of_rational? ha, extended?_of_rational? hb]
  simp

theorem Denotes.lt_iff (ha : Denotes a x) (hb : Denotes b y) : a < b ↔ x < y := by
  rw [lt_iff_extended, extended?_of_rational? ha, extended?_of_rational? hb]
  simp

end Doubles

end Reframe.Binary
