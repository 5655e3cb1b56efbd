import Reframe.Proofs.Number.Exact
import Reframe.Proofs.Number.Product
import Reframe.Proofs.Anchor.Heaviest
import Reframe.Proofs.Mean

/-!
# The mean of one sample

The mean of one sample is its point in exact arithmetic. The machine multiplies each coordinate
by the weight and divides it by the weight again, and rounds both times. So a coordinate comes
back exactly if its product with the weight is off by no more than the weight makes of half of
its last place, and else it is off in the last of its bits, unless weights are so small that
products lose bits for want of exponents.

* `weightedMean_singleton`: what is computed.
* `weightedMean_lone`: **when one sample is its own mean**, and how far off it is if not.
-/

namespace Reframe

open Binary Float.Model.UnpackedFloat
open Float.Model (UnpackedFloat)

variable {p : Point Float} {w : Float} {x y : ℚ}

/-- A coordinate, weighted and divided by the weight. -/
def reweighed (w x : Float) : Float :=
  (0.0 + x * w) / w

/-- Adding to zero changes nothing. -/
theorem Binary.Amount.zero_add {a b : Float} (hb : Amount b 0) (ha : Amount a x) :
    Amount (b + a) x := by
  refine ⟨?_, ha.nonneg⟩
  have hadd : (b + a).toModel.unpack = _ := unpack_double
    (UnpackedFloat.add .binary64 b.toModel.unpack a.toModel.unpack)
  obtain ⟨s, hzero⟩ : ∃ s, b.toModel.unpack = .zero s := by
    rcases rational?_nonneg_cases hb.denotes le_rfl with ⟨s, hu, -⟩ | ⟨m, e, hm, -, habs⟩
    · exact ⟨s, hu⟩
    · exact absurd habs (magnitude_pos hm e).ne
  rw [Denotes, hadd, hzero]
  rcases rational?_nonneg_cases ha.denotes ha.nonneg with ⟨t, hu, rfl⟩ | ⟨m, e, hm, hu, rfl⟩
  · rw [hu]
    cases s <;> cases t <;> rfl
  · have hfits := canonical a
    rw [hu] at hfits
    have hsame : UnpackedFloat.add .binary64 (.zero s) (.finite .positive m e hm) =
        .finite .positive m e hm := rfl
    rw [hu, hsame, unpack_pack_finite hfits (exponent_le_of_unpack (by decide) hu)]
    rfl

theorem totalWeight_singleton (hw : Amount w y) (hy : 0 < y) :
    Sample.totalWeight [⟨p, w⟩] = w :=
  (amount_neg_zero.zero_add hw).denotes.unique hw.denotes hy

/-- **The mean of one sample** has every coordinate weighted and divided by the weight. -/
theorem weightedMean_singleton (hw : Amount w y) (hy : 0 < y) :
    weightedMean [⟨p, w⟩] = .ok ⟨p.coordinates.map (reweighed w)⟩ := by
  have hpos : ¬ w ≤ 0.0 := by
    rw [hw.le_iff amount_zero]
    exact not_le.2 hy
  have hsums : weightedSums p.dimension [(⟨p, w⟩ : Sample Float)] =
      p.coordinates.map fun x => 0.0 + x * w := by
    change List.zipWith (fun sum x => sum + x * w) (List.replicate p.coordinates.length 0.0)
      p.coordinates = _
    induction p.coordinates with
    | nil => rfl
    | cons x xs ih =>
      rw [List.length_cons, List.replicate_succ, List.zipWith_cons_cons, ih, List.map_cons]
  have hfirst : weightedMean [(⟨p, w⟩ : Sample Float)] =
      if Sample.totalWeight [(⟨p, w⟩ : Sample Float)] ≤ 0.0 then .ok ⟨[]⟩ else
        .ok ⟨(weightedSums p.dimension [(⟨p, w⟩ : Sample Float)]).map
          (· / Sample.totalWeight [(⟨p, w⟩ : Sample Float)])⟩ :=
    weightedMean_cons fun s hs => by rw [List.mem_singleton.1 hs]
  rw [hfirst, totalWeight_singleton hw hy, if_neg hpos, hsums, List.map_map]
  rfl

/-- A fraction is an amount of at most 1. -/
theorem exists_fraction {a : Float} (h : IsFraction a) : ∃ x, Amount a x ∧ x ≤ 1 := by
  have hfinite : a.toModel.unpack.isFinite := by
    obtain ⟨hlow, hhigh⟩ := h
    have hone : (1.0 : Float).toModel.unpack =
        .finite .positive 4503599627370496 (-52) (by decide) := rfl
    rw [le_iff_unpack, unpack_zero] at hlow
    rw [le_iff_unpack, hone] at hhigh
    cases hu : a.toModel.unpack with
    | zero s => rfl
    | finite s m e hm => rfl
    | notANumber =>
      rw [hu] at hlow
      cases hlow
    | infinity s =>
      rw [hu] at hlow hhigh
      cases s with
      | positive => cases hhigh
      | negative => cases hlow
  obtain ⟨x, hx⟩ : ∃ x, Denotes a x := exists_rational? hfinite
  exact ⟨x, ⟨hx, (amount_zero.denotes.le_iff hx).1 h.1⟩, (hx.le_iff denotes_one).1 h.2⟩

/-- **A coordinate that is weighted and divided by the weight.** -/
theorem exists_reweighed {a : Float} (ha : IsFraction a) (hw : Amount w y) (hy : 0 < y) :
    ∃ x z, Amount a x ∧ Amount (reweighed w a) z ∧ z ≤ 1 ∧
      (z = x ↔ |value (a * w) - value a * value w| ≤ 1 / 2 * lastPlace a * value w) ∧
      |z - x| ≤ max (x / 2 ^ 52) (least / y) := by
  obtain ⟨x, hx, hx1⟩ := exists_fraction ha
  obtain ⟨v, hv, -⟩ := hx.exists_mul_le hx1 hw
  obtain ⟨z, hz, hz1, hback, hnear⟩ :=
    hx.exists_back hw hy hv (amount_zero.zero_add hv) hx1
  refine ⟨x, z, hx, hz, hz1, ?_, hnear⟩
  rw [hback, hv.denotes.value_eq, hx.denotes.value_eq, hw.denotes.value_eq,
    ← Rat.cast_le (K := ℝ)]
  push_cast
  exact Iff.rfl

/-- **A lone detection** is located at the mean of its one sample. -/
theorem Anchor.locate_single {e : Extent} {ratio threshold x : Float} {d : Detection}
    (he : ¬ e.IsEmpty) (ht : IsThreshold threshold) (hd : Sample.IsWeight (d.weight : Float))
    (hmean : weightedMean [(d.onAxis e (Axis.dominant e ratio) : Sample Float)] = .ok ⟨[x]⟩) :
    (locate e ratio threshold [d]).result = .ok ⟨x, true, Axis.dominant e ratio⟩ :=
  locate_of_ranked (groupsOn_lone he ht hd) (List.pairwise_singleton _ _) hmean

/-- **When one sample is its own mean.** A point of the picture with a weight above zero has a
mean on the picture. It agrees with the point exactly if no coordinate loses more in its product
with the weight than the weight makes of half of the coordinate's last place. If it does not
agree, a coordinate is off by at most one part in `2 ^ 52`, or by what the least number is in
comparison with the weight. A lone detection is located at that mean. -/
theorem weightedMean_lone (hp : p.IsOnPicture) (hweight : Sample.IsWeight w) (hpos : 0.0 < w) :
    ∃ mean, weightedMean [⟨p, w⟩] = .ok mean ∧ Group.mean ⟨[⟨p, w⟩]⟩ = .ok mean ∧
      mean.dimension = p.dimension ∧ mean.IsOnPicture ∧
      (mean.Agrees p ↔ ∀ x ∈ p.coordinates,
        |value (x * w) - value x * value w| ≤ 1 / 2 * lastPlace x * value w) ∧
      (∀ c ∈ mean.coordinates.zip p.coordinates,
        |value c.1 - value c.2| ≤ max (value c.2 / 2 ^ 52) (least / value w)) ∧
      ∀ (e : Extent) (ratio threshold : Float) (d : Detection), ¬ e.IsEmpty →
        IsThreshold threshold → d.onAxis e (Axis.dominant e ratio) = ⟨p, w⟩ →
        ∃ x, mean.coordinates = [x] ∧
          (Anchor.locate e ratio threshold [d]).result = .ok ⟨x, true, Axis.dominant e ratio⟩ := by
  obtain ⟨y, hw⟩ := exists_amount hweight.1 hweight.2
  have hy : 0 < y := (amount_zero.lt_iff hw).1 hpos
  have hmean := weightedMean_singleton (p := p) hw hy
  have hlaws := fun x hx => exists_reweighed (hp x hx) hw hy
  refine ⟨_, hmean, hmean, List.length_map _, fun z hz => ?_, ?_, fun c hc => ?_,
    fun e ratio threshold d he ht hd => ?_⟩
  · obtain ⟨x, hx, rfl⟩ := List.mem_map.1 hz
    obtain ⟨v, z, -, hz, hz1, -, -⟩ := hlaws x hx
    exact ⟨(amount_zero.le_iff hz).2 hz.nonneg, (hz.denotes.le_iff denotes_one).2 hz1⟩
  · rw [Point.Agrees, Point.dimension, Point.dimension, List.length_map, and_iff_right rfl,
      ← List.map_prod_right_eq_zip, List.forall_mem_map]
    refine forall₂_congr fun x hx => ?_
    obtain ⟨v, z, hv, hz, -, hback, -⟩ := hlaws x hx
    rw [← hback]
    exact hz.denotes.le_and_le_iff hv.denotes
  · rw [← List.map_prod_right_eq_zip] at hc
    obtain ⟨x, hx, rfl⟩ := List.mem_map.1 hc
    obtain ⟨v, z, hv, hz, -, -, hnear⟩ := hlaws x hx
    rw [hz.denotes.value_eq, hv.denotes.value_eq, hw.denotes.value_eq]
    exact_mod_cast hnear
  · cases hd
    exact ⟨_, rfl, Anchor.locate_single he ht hweight hmean⟩

/-- A tenth with weight 3 does not come back, nor is a lone detection there located there. -/
theorem weightedMean_lone_tenth :
    let p : Point Float := ⟨[0.1]⟩
    let d : Detection := ⟨⟨1, 0⟩, 3, Float32.ofBits 0x3F800000⟩
    (p.IsOnPicture ∧ Sample.IsWeight (3.0 : Float) ∧ (0.0 : Float) < 3.0 ∧
      d.onAxis ⟨10, 4⟩ (Axis.dominant ⟨10, 4⟩ (1.0 : Float)) = ⟨p, 3.0⟩) ∧
    ∃ mean, weightedMean [⟨p, 3.0⟩] = .ok mean ∧ ¬ mean.Agrees p ∧
      (¬ ∀ x ∈ p.coordinates,
        |value (x * 3.0) - value x * value 3.0| ≤ 1 / 2 * lastPlace x * value 3.0) ∧
      ∃ x, mean.coordinates = [x] ∧ (Anchor.locate ⟨10, 4⟩ (1.0 : Float) 0.05 [d]).result =
        .ok ⟨x, true, Axis.dominant ⟨10, 4⟩ (1.0 : Float)⟩ := by
  intro p d
  have hp : p.IsOnPicture := by decide +kernel
  have hweight : Sample.IsWeight (3.0 : Float) := by decide +kernel
  have hpos : (0.0 : Float) < 3.0 := by decide +kernel
  have hsample : d.onAxis ⟨10, 4⟩ (Axis.dominant ⟨10, 4⟩ (1.0 : Float)) = ⟨p, 3.0⟩ := by
    decide +kernel
  obtain ⟨mean, hmean, -, -, -, hagrees, -, hlocate⟩ := weightedMean_lone hp hweight hpos
  have hdiffers : ¬ mean.Agrees p := by
    have heval : weightedMean [⟨p, (3.0 : Float)⟩] = .ok ⟨[0.10000000000000002]⟩ := by
      decide +kernel
    obtain rfl : mean = ⟨[0.10000000000000002]⟩ := Except.ok.inj (hmean.symm.trans heval)
    decide +kernel
  exact ⟨⟨hp, hweight, hpos, hsample⟩, mean, hmean, hdiffers, mt hagrees.2 hdiffers,
    hlocate _ _ 0.05 d (by decide) (by decide +kernel) hsample⟩

end Reframe
