import Mathlib.Algebra.Order.BigOperators.Group.List
import Mathlib.Algebra.BigOperators.Ring.List
import Reframe.Proofs.Number.Exact
import Reframe.Proofs.Number.Finite
import Reframe.Proofs.Number.Grain
import Reframe.Proofs.Anchor

/-!
# Means on one axis

On one axis a weighted mean is a quotient of two sums: of the places, each times its
weight, and of the weights. Over the reals it lies between the places of samples that have
weight. In machine arithmetic each sum is rounded on its own, but step by step the first
grows no more than the second, since places are at most 1 and rounding keeps the order. So
the quotient is a fraction also there, however many samples there are: a sum that has grown
large enough does not grow any more.

* `weightedMean_axis`: the quotient.
* `isAmong_weightedMean`: **over the reals a mean lies among its samples**.
* `isFraction_weightedMean`: **in machine arithmetic it is a fraction**.
* `Sample.exists_weight`, `Sample.not_totalWeight_le`: a machine's sum is above zero exactly
  when one of the weights is.
* `Sample.exists_exact_mean`: samples of the machine that have weight have an exact mean.
-/

namespace Reframe

section Axis

variable {α : Type} [Scalar α] {samples : List (Sample α)} {y : α}

/-- The place of a sample of one axis. -/
def Sample.place (s : Sample α) : α :=
  s.point.coordinates.headD 0.0

/-- All samples are of one axis. -/
def OneAxis (samples : List (Sample α)) : Prop :=
  ∀ s ∈ samples, s.point.dimension = 1

/-- The sum of the places, each times its weight. -/
def Sample.moment (samples : List (Sample α)) : α :=
  samples.foldl (fun sum s => sum + s.place * s.weight) 0.0

theorem Sample.coordinates_eq {s : Sample α} (h : s.point.dimension = 1) :
    s.point.coordinates = [s.place] := by
  obtain ⟨x, hx⟩ := List.length_eq_one_iff.1 h
  rw [Sample.place, hx]
  rfl

theorem weightedSums_axis (h : OneAxis samples) :
    weightedSums 1 samples = [Sample.moment samples] := by
  suffices hfold : ∀ sum : α, samples.foldl
      (fun sums s => List.zipWith (fun sum x => sum + x * s.weight) sums s.point.coordinates)
      [sum] = [samples.foldl (fun sum s => sum + s.place * s.weight) sum] from hfold 0.0
  intro sum
  induction samples generalizing sum with
  | nil => rfl
  | cons s rest ih =>
    rw [List.foldl_cons, List.foldl_cons, Sample.coordinates_eq (h s List.mem_cons_self)]
    exact ih (fun t ht => h t (List.mem_cons_of_mem s ht)) _

/-- **On one axis a mean is a quotient of two sums**, and there is one when the samples have
weight. -/
theorem weightedMean_axis (h : OneAxis samples) : weightedMean samples = .ok ⟨[y]⟩ ↔
    samples ≠ [] ∧ ¬ Sample.totalWeight samples ≤ 0.0 ∧
      y = Sample.moment samples / Sample.totalWeight samples := by
  cases samples with
  | nil => exact iff_of_false (fun hmean => by cases hmean) fun hmean => hmean.1 rfl
  | cons first rest =>
    have hfirst : first.point.dimension = 1 := h first List.mem_cons_self
    rw [weightedMean_cons fun s hs => (h s hs).trans hfirst.symm, hfirst, weightedSums_axis h]
    by_cases htotal : Sample.totalWeight (first :: rest) ≤ 0.0
    · rw [if_pos htotal]
      exact iff_of_false (fun hmean => by cases hmean) fun hmean => hmean.2.1 htotal
    · rw [if_neg htotal]
      constructor
      · intro hmean
        cases hmean
        exact ⟨List.cons_ne_nil first rest, htotal, rfl⟩
      · rintro ⟨-, -, rfl⟩
        rfl

end Axis

/-- The number lies between the places of samples that have weight. -/
def IsAmong (samples : List (Sample ℝ)) (y : ℝ) : Prop :=
  (∃ s ∈ samples, 0 < s.weight ∧ s.place ≤ y) ∧ ∃ s ∈ samples, 0 < s.weight ∧ y ≤ s.place

section Exact

variable {samples : List (Sample ℝ)} {y : ℝ}

theorem foldl_add_real {τ : Type} (f : τ → ℝ) (xs : List τ) (a : ℝ) :
    xs.foldl (fun sum x => sum + f x) a = a + (xs.map f).sum := by
  induction xs generalizing a with
  | nil => exact (add_zero a).symm
  | cons x xs ih => rw [List.foldl_cons, ih, List.map_cons, List.sum_cons, add_assoc]

theorem zero_real : (0.0 : ℝ) = 0 := by norm_num

theorem isThreshold_real {threshold : ℝ} : IsThreshold threshold ↔ 0 ≤ threshold := by
  rw [IsThreshold, zero_real, not_lt]
  exact and_iff_right rfl

theorem isWeight_real {weight : ℝ} : Sample.IsWeight weight ↔ 0 ≤ weight := by
  rw [Sample.IsWeight, zero_real, not_lt]
  exact and_iff_right rfl

theorem totalWeight_real (samples : List (Sample ℝ)) :
    Sample.totalWeight samples = (samples.map (·.weight)).sum := by
  have hstart : (-(0.0) : ℝ) = 0 := by norm_num
  have hsum := foldl_add_real (fun s : Sample ℝ => s.weight) samples (-(0.0))
  rw [hstart, zero_add, ← hstart] at hsum
  rw [← hsum, Sample.totalWeight, Scalar.sum, List.foldl_map]

/-- Over the reals a sum of weights is above zero exactly when one of them is. -/
theorem Sample.totalWeight_pos_iff (hweight : ∀ s ∈ samples, 0 ≤ s.weight) :
    0 < totalWeight samples ↔ ∃ s ∈ samples, 0 < s.weight := by
  rw [totalWeight_real]
  constructor
  · intro hpos
    exact List.exists_lt_of_sum_lt (fun _ => 0) Sample.weight (by simpa using hpos)
  · rintro ⟨s, hs, hpos⟩
    have hweights : ∀ w ∈ samples.map Sample.weight, 0 ≤ w := by simpa using hweight
    exact hpos.trans_le (List.single_le_sum hweights _ (List.mem_map_of_mem hs))

theorem moment_real (samples : List (Sample ℝ)) :
    Sample.moment samples = (samples.map fun s => s.place * s.weight).sum := by
  have hsum := foldl_add_real (fun s : Sample ℝ => s.place * s.weight) samples (0.0)
  rw [zero_real, zero_add, ← zero_real] at hsum
  exact hsum

/-- Were all that have weight above a number, so would be their mean. -/
theorem exists_le_of_sum_eq {place : Sample ℝ → ℝ} (hweight : ∀ s ∈ samples, 0 ≤ s.weight)
    (hpos : 0 < (samples.map (·.weight)).sum)
    (hsum : (samples.map fun s => place s * s.weight).sum = y * (samples.map (·.weight)).sum) :
    ∃ s ∈ samples, 0 < s.weight ∧ place s ≤ y := by
  by_contra hnone
  have habove : ∀ s ∈ samples, 0 < s.weight → y < place s := fun s hs hw =>
    lt_of_not_ge fun hle => hnone ⟨s, hs, hw, hle⟩
  have htotal : 0 < Sample.totalWeight samples := by rwa [totalWeight_real]
  obtain ⟨t, ht, htpos⟩ := (Sample.totalWeight_pos_iff hweight).1 htotal
  have hlt : (samples.map fun s => y * s.weight).sum <
      (samples.map fun s => place s * s.weight).sum := by
    refine List.sum_lt_sum _ _ (fun s hs => ?_)
      ⟨t, ht, mul_lt_mul_of_pos_right (habove t ht htpos) htpos⟩
    rcases (hweight s hs).eq_or_lt with hzero | hw
    · rw [← hzero, mul_zero, mul_zero]
    · exact (mul_lt_mul_of_pos_right (habove s hs hw) hw).le
  rw [List.sum_map_mul_left, hsum] at hlt
  exact lt_irrefl _ hlt

/-- Nor are all below it: seen from the other side, what is above is below. -/
theorem exists_ge_of_sum_eq {place : Sample ℝ → ℝ} (hweight : ∀ s ∈ samples, 0 ≤ s.weight)
    (hpos : 0 < (samples.map (·.weight)).sum)
    (hsum : (samples.map fun s => place s * s.weight).sum = y * (samples.map (·.weight)).sum) :
    ∃ s ∈ samples, 0 < s.weight ∧ y ≤ place s := by
  have hback : (samples.map fun s => -place s * s.weight).sum =
      -y * (samples.map (·.weight)).sum := by
    rw [neg_mul, ← hsum, List.sum_neg, List.map_map]
    simp only [neg_mul, Function.comp_def]
  obtain ⟨s, hs, hw, hle⟩ := exists_le_of_sum_eq hweight hpos hback
  exact ⟨s, hs, hw, neg_le_neg_iff.1 hle⟩

/-- **Over the reals a mean lies among its samples**: between places of samples that have
weight. -/
theorem isAmong_weightedMean (haxis : OneAxis samples) (hweight : ∀ s ∈ samples, 0 ≤ s.weight)
    (h : weightedMean samples = .ok ⟨[y]⟩) : IsAmong samples y := by
  obtain ⟨-, htotal, hy⟩ := (weightedMean_axis haxis).1 h
  rw [totalWeight_real, zero_real, not_le] at htotal
  rw [totalWeight_real, moment_real] at hy
  have hsum : (samples.map fun s => s.place * s.weight).sum =
      y * (samples.map (·.weight)).sum := by
    rw [hy]
    exact (div_mul_cancel₀ _ htotal.ne').symm
  exact ⟨exists_le_of_sum_eq hweight htotal hsum, exists_ge_of_sum_eq hweight htotal hsum⟩

theorem isFraction_of_isAmong (hplace : ∀ s ∈ samples, IsFraction s.place)
    (h : IsAmong samples y) : IsFraction y := by
  obtain ⟨⟨s, hs, -, hlow⟩, t, ht, -, hhigh⟩ := h
  exact ⟨(hplace s hs).1.trans hlow, hhigh.trans (hplace t ht).2⟩

end Exact

section Machine

open Binary

variable {samples : List (Sample Float)} {y : Float}

/-- The place is an amount of at most 1, and the weight one of at most a bound. -/
structure Sample.IsMeasured (s : Sample Float) (bound : ℚ) : Prop where
  place : ∃ x, Amount s.place x ∧ x ≤ 1
  weight : ∃ w, Amount s.weight w ∧ w ≤ bound

/-- **Both sums grow**, the sum of the weighted places no more than that of the weights, and
neither beyond what absorbs the weights. -/
theorem exists_foldl_le {c d a b : Float} {z w x v : ℚ} (habsorbs : Absorbs c d z w)
    (hmeasured : ∀ s ∈ samples, s.IsMeasured w) (ha : Amount a x) (hb : Amount b v)
    (hxv : x ≤ v) (hv : v ≤ z) :
    ∃ x' v', Amount (samples.foldl (fun sum s => sum + s.place * s.weight) a) x' ∧
      Amount (samples.foldl (fun sum s => sum + s.weight) b) v' ∧ x' ≤ v' ∧ v' ≤ z := by
  induction samples generalizing a b x v with
  | nil => exact ⟨x, v, ha, hb, hxv, hv⟩
  | cons s rest ih =>
    obtain ⟨⟨p, hp, hp1⟩, u, hu, huw⟩ := hmeasured s List.mem_cons_self
    obtain ⟨q, hq, hqu⟩ := hp.exists_mul_le hp1 hu
    obtain ⟨v', hv', hvz⟩ := habsorbs.exists_add_le hb hu hv huw
    obtain ⟨x', hx', hxv'⟩ := ha.add_le hq hb hu (add_le_add hxv hqu) hv'.denotes
    exact ih (fun t ht => hmeasured t (List.mem_cons_of_mem s ht)) hx' hv' hxv' hvz

theorem amount_neg_zero : Amount (-(0.0)) 0 :=
  ⟨rfl, le_rfl⟩

theorem exists_moment_le {c d : Float} {z w : ℚ} (habsorbs : Absorbs c d z w)
    (hmeasured : ∀ s ∈ samples, s.IsMeasured w) :
    ∃ x v, Amount (Sample.moment samples) x ∧ Amount (Sample.totalWeight samples) v ∧
      x ≤ v ∧ v ≤ z := by
  rw [Sample.totalWeight, Scalar.sum, List.foldl_map]
  exact exists_foldl_le habsorbs hmeasured amount_zero amount_neg_zero le_rfl
    habsorbs.whole.nonneg

/-- A machine's sum that has left zero is one of weights that have. -/
theorem Sample.exists_weight (hmeasured : ∀ s ∈ samples, s.IsMeasured (2 ^ 159))
    (h : ¬ totalWeight samples ≤ 0.0) : ∃ s ∈ samples, 0.0 < s.weight := by
  by_contra hnone
  have hzero : ∀ s ∈ samples, s.IsMeasured 0 := by
    intro s hs
    obtain ⟨w, hw, -⟩ := (hmeasured s hs).weight
    have hle : ¬ 0.0 < s.weight := fun hlt => hnone ⟨s, hs, hlt⟩
    rw [amount_zero.lt_iff hw, not_lt] at hle
    exact ⟨(hmeasured s hs).place, w, hw, hle⟩
  obtain ⟨-, v, -, hv, -, hv0⟩ := exists_moment_le absorbs_zero hzero
  exact h ((hv.le_iff amount_zero).2 hv0)

/-- **A machine's sum is no less than any of its weights**, nor than where it began. -/
theorem Sample.le_foldl_weight {c d b : Float} {z w v : ℚ} (habsorbs : Absorbs c d z w)
    (hmeasured : ∀ s ∈ samples, s.IsMeasured w) (hb : Amount b v) (hv : v ≤ z) :
    ∃ total, Amount (samples.foldl (fun sum s => sum + s.weight) b) total ∧ v ≤ total ∧
      ∀ s ∈ samples, ∀ u, Amount s.weight u → u ≤ total := by
  induction samples generalizing b v with
  | nil => exact ⟨v, hb, le_rfl, fun _ habs => absurd habs List.not_mem_nil⟩
  | cons s rest ih =>
    obtain ⟨-, u, hu, huw⟩ := hmeasured s List.mem_cons_self
    obtain ⟨v', hv', hvz⟩ := habsorbs.exists_add_le hb hu hv huw
    have hbegin : v ≤ v' := hb.le_add hb hu (le_add_of_nonneg_right hu.nonneg) hv'.denotes
    have hpart : u ≤ v' := hu.le_add hb hu (le_add_of_nonneg_left hb.nonneg) hv'.denotes
    obtain ⟨total, htotal, hle, hrest⟩ :=
      ih (fun t ht => hmeasured t (List.mem_cons_of_mem s ht)) hv' hvz
    refine ⟨total, htotal, hbegin.trans hle, List.forall_mem_cons.2 ⟨fun u' hu' => ?_, hrest⟩⟩
    rw [hu'.denotes.eq hu.denotes]
    exact hpart.trans hle

/-- One weight above zero suffices. -/
theorem Sample.not_totalWeight_le {s : Sample Float}
    (hmeasured : ∀ s ∈ samples, s.IsMeasured (2 ^ 159)) (hs : s ∈ samples)
    (hweight : 0.0 < s.weight) : ¬ totalWeight samples ≤ 0.0 := by
  obtain ⟨u, hu, -⟩ := (hmeasured s hs).weight
  obtain ⟨total, htotal, -, hparts⟩ := le_foldl_weight absorbs_large hmeasured amount_neg_zero
    absorbs_large.whole.nonneg
  rw [amount_zero.lt_iff hu] at hweight
  rw [totalWeight, Scalar.sum, List.foldl_map, htotal.le_iff amount_zero, not_le]
  exact hweight.trans_le (hparts s hs u hu)

/-- **In machine arithmetic a mean is a fraction**, though both sums and their quotient are
rounded. -/
theorem isFraction_weightedMean (haxis : OneAxis samples)
    (hmeasured : ∀ s ∈ samples, s.IsMeasured (2 ^ 159))
    (h : weightedMean samples = .ok ⟨[y]⟩) : IsFraction y := by
  obtain ⟨-, htotal, rfl⟩ := (weightedMean_axis haxis).1 h
  obtain ⟨x, v, hx, hv, hxv, -⟩ := exists_moment_le absorbs_large hmeasured
  have hpos : 0 < v := by rwa [hv.le_iff amount_zero, not_le] at htotal
  obtain ⟨r, hr, hr1⟩ := hx.exists_div_le hv hpos hxv
  exact ⟨(amount_zero.le_iff hr).2 hr.nonneg, (hr.le_iff ⟨denotes_one, zero_le_one⟩).2 hr1⟩

/-- The real number that a machine number is. -/
noncomputable def Binary.value (a : Float) : ℝ :=
  toReal a.toModel.unpack

theorem Binary.Denotes.value_eq {a : Float} {x : ℚ} (h : Denotes a x) : value a = x := by
  unfold value
  rcases rational?_cases h with ⟨s, hu, rfl⟩ | ⟨s, m, e, hm, hu, rfl⟩
  · rw [hu, Rat.cast_zero]
    rfl
  · rw [hu]
    cases s
    · exact (Rat.cast_neg _).symm
    · rfl

/-- The sample over the reals. -/
noncomputable def Sample.exact (s : Sample Float) : Sample ℝ :=
  ⟨⟨s.point.coordinates.map value⟩, value s.weight⟩

/-- **Samples with weight have an exact mean**, and it lies among them. -/
theorem Sample.exists_exact_mean (haxis : OneAxis samples)
    (hmeasured : ∀ s ∈ samples, s.IsMeasured (2 ^ 159))
    (h : weightedMean samples = .ok ⟨[y]⟩) :
    ∃ mean, weightedMean (samples.map exact) = .ok ⟨[mean]⟩ ∧
      IsAmong (samples.map exact) mean := by
  obtain ⟨hne, htotal, -⟩ := (weightedMean_axis haxis).1 h
  have haxis' : OneAxis (samples.map exact) := by
    intro t ht
    obtain ⟨s, hs, rfl⟩ := List.mem_map.1 ht
    exact (List.length_map _).trans (haxis s hs)
  have hweight : ∀ t ∈ samples.map exact, 0 ≤ t.weight := by
    intro t ht
    obtain ⟨s, hs, rfl⟩ := List.mem_map.1 ht
    obtain ⟨w, hw, -⟩ := (hmeasured s hs).weight
    have hvalue : s.exact.weight = w := hw.denotes.value_eq
    rw [hvalue]
    exact_mod_cast hw.nonneg
  have hpos : ¬ totalWeight (samples.map exact) ≤ 0.0 := by
    obtain ⟨s, hs, hweighs⟩ := exists_weight hmeasured htotal
    obtain ⟨w, hw, -⟩ := (hmeasured s hs).weight
    have hvalue : s.exact.weight = w := hw.denotes.value_eq
    rw [amount_zero.lt_iff hw] at hweighs
    rw [zero_real, not_le, totalWeight_pos_iff hweight]
    refine ⟨s.exact, List.mem_map_of_mem hs, ?_⟩
    rw [hvalue]
    exact_mod_cast hweighs
  have hmean := (weightedMean_axis haxis').2 ⟨mt List.map_eq_nil_iff.1 hne, hpos, rfl⟩
  exact ⟨_, hmean, isAmong_weightedMean haxis' hweight hmean⟩

end Machine

end Reframe
