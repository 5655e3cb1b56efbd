import Reframe.Proofs.Mean

/-!
# Means in any space

A mean is refused for the first sample that is not in the space of the first one, whatever
there is to say about weights. Over the reals samples of one space that have weight have
their centre of gravity for mean: one quotient of sums on each axis. So a mean lies among
the samples on each axis, and does not change with their order or the unit of their weights.
Means can be taken in parts: a part counts as its own mean with the weight of all of it.

* `weightedMean_eq_error`: which sample is refused.
* `weightedMean_exact`: **a mean is a centre of gravity**.
* `isWithin_centroid`: it lies among the samples that have weight.
* `weightedMean_parts`: parts count as their means.
* `weightedMean_laws`: **the laws of means**.
-/

namespace Reframe

section Spaces

variable {α : Type} [Scalar α] {samples : List (Sample α)}

/-- **The first sample of another space is refused.** -/
theorem weightedMean_eq_error (first s : Sample α) {before : List (Sample α)}
    (after : List (Sample α))
    (hbefore : ∀ t ∈ before, t.point.dimension = first.point.dimension)
    (hs : s.point.dimension ≠ first.point.dimension) :
    weightedMean (first :: (before ++ s :: after)) =
      .error (.dimensionMismatch first.point.dimension s.point.dimension) := by
  have hcheck : ((first :: before) ++ s :: after).forM (fun t =>
      (Point.sameDimension first.point.dimension t.point.dimension : Except (Failure α) Unit)) =
      .error (.dimensionMismatch first.point.dimension s.point.dimension) := by
    refine forM_eq_error ?_ (if_neg hs.symm)
    exact List.forall_mem_cons.2 ⟨if_pos rfl, fun t ht => if_pos (hbefore t ht).symm⟩
  rw [List.cons_append] at hcheck
  unfold weightedMean
  dsimp only
  rw [hcheck]
  rfl

omit [Scalar α] in
/-- Samples are in one space if they are in that of the first. -/
theorem oneDimension_of_head (h : ∀ first ∈ samples.head?, ∀ s ∈ samples,
    s.point.dimension = first.point.dimension) : OneDimension samples := by
  cases samples with
  | nil => exact ⟨0, List.forall_mem_nil _⟩
  | cons first rest => exact ⟨first.point.dimension, h first rfl⟩

omit [Scalar α] in
/-- Samples that are not all in the space of another have a first one that is not. -/
theorem exists_first_other {first : Sample α} {rest : List (Sample α)}
    (h : ∃ s ∈ rest, s.point.dimension ≠ first.point.dimension) :
    ∃ before other after, rest = before ++ other :: after ∧
      (∀ s ∈ before, s.point.dimension = first.point.dimension) ∧
      other.point.dimension ≠ first.point.dimension := by
  obtain ⟨s, hs, hne⟩ := h
  let differs (t : Sample α) : Bool := t.point.dimension ≠ first.point.dimension
  have hsome : (rest.find? differs).isSome := List.find?_isSome.2 ⟨s, hs, decide_eq_true hne⟩
  obtain ⟨other, hother⟩ := Option.isSome_iff_exists.1 hsome
  obtain ⟨hdiffers, before, after, rfl, hbefore⟩ := List.find?_eq_some_iff_append.1 hother
  refine ⟨before, other, after, rfl, fun r hr => ?_, of_decide_eq_true hdiffers⟩
  simpa [differs] using hbefore r hr

/-- A mean is refused exactly if a sample is not in the space of the first one. -/
theorem weightedMean_refused_iff : (∃ failure, weightedMean samples = .error failure) ↔
    ∃ first ∈ samples.head?, ∃ s ∈ samples, s.point.dimension ≠ first.point.dimension := by
  constructor
  · rintro ⟨failure, hfailure⟩
    by_contra hnone
    have hdim : OneDimension samples := oneDimension_of_head fun first hfirst s hs =>
      by_contra fun hne => hnone ⟨first, hfirst, s, hs, hne⟩
    obtain ⟨mean, hmean⟩ := weightedMean_eq_ok hdim
    rw [hmean] at hfailure
    cases hfailure
  · rintro ⟨first, hfirst, s, hs, hne⟩
    obtain ⟨rest, rfl⟩ := List.head?_eq_some_iff.1 hfirst
    have hrest : s ∈ rest := by
      refine (List.mem_cons.1 hs).resolve_left ?_
      rintro rfl
      exact hne rfl
    obtain ⟨before, other, after, rfl, hbefore, hother⟩ := exists_first_other ⟨s, hrest, hne⟩
    exact ⟨_, weightedMean_eq_error first other after hbefore hother⟩

/-- What has a mean is in one space. -/
theorem oneDimension_of_weightedMean {mean : Point α} (h : weightedMean samples = .ok mean) :
    OneDimension samples := by
  refine oneDimension_of_head fun first hfirst s hs => ?_
  by_contra hne
  obtain ⟨failure, hfailure⟩ := weightedMean_refused_iff.2 ⟨first, hfirst, s, hs, hne⟩
  rw [h] at hfailure
  cases hfailure

end Spaces

section Exact

variable {n : ℕ} {samples others : List (Sample ℝ)}

namespace Sample

/-- Where a sample lies on an axis. -/
def along (s : Sample ℝ) (i : ℕ) : ℝ :=
  s.point.coordinates.getD i 0

/-- The sum of the places on an axis, each times its weight. -/
def momentAlong (samples : List (Sample ℝ)) (i : ℕ) : ℝ :=
  (samples.map fun s => s.along i * s.weight).sum

/-- The centre of gravity. -/
noncomputable def centroid (n : ℕ) (samples : List (Sample ℝ)) : Point ℝ :=
  ⟨(List.range n).map fun i => momentAlong samples i / totalWeight samples⟩

/-- The sample with its weight in another unit. -/
def scaled (c : ℝ) (s : Sample ℝ) : Sample ℝ :=
  { s with weight := c * s.weight }

theorem coordinates_eq_map {s : Sample ℝ} (h : s.point.dimension = n) :
    s.point.coordinates = (List.range n).map s.along := by
  have hlength : s.point.coordinates.length = n := h
  refine List.ext_getElem (by simp [hlength]) fun i hi _ => ?_
  simp [along, hi]

@[simp] theorem dimension_centroid : (centroid n samples).dimension = n := by
  simp [centroid, Point.dimension]

theorem along_centroid {i : ℕ} (hi : i < n) (w : ℝ) :
    along ⟨centroid n samples, w⟩ i = momentAlong samples i / totalWeight samples := by
  simp [along, centroid, hi]

theorem totalWeight_append :
    totalWeight (samples ++ others) = totalWeight samples + totalWeight others := by
  simp only [totalWeight_real, List.map_append, List.sum_append]

theorem momentAlong_append (i : ℕ) :
    momentAlong (samples ++ others) i = momentAlong samples i + momentAlong others i := by
  simp only [momentAlong, List.map_append, List.sum_append]

theorem totalWeight_scaled (c : ℝ) :
    totalWeight (samples.map (scaled c)) = c * totalWeight samples := by
  simp only [totalWeight_real, List.map_map, Function.comp_def, scaled, List.sum_map_mul_left]

theorem momentAlong_scaled (c : ℝ) (i : ℕ) :
    momentAlong (samples.map (scaled c)) i = c * momentAlong samples i := by
  simp only [momentAlong, List.map_map, Function.comp_def, scaled, along, mul_left_comm _ c,
    List.sum_map_mul_left]

theorem totalWeight_pair (s t : Sample ℝ) : totalWeight [s, t] = s.weight + t.weight := by
  simp [totalWeight_real]

theorem momentAlong_pair (s t : Sample ℝ) (i : ℕ) :
    momentAlong [s, t] i = s.along i * s.weight + t.along i * t.weight := by
  simp [momentAlong]

/-- **A centre of gravity does not change with the order** of what weighs. -/
theorem centroid_perm (h : others.Perm samples) : centroid n others = centroid n samples := by
  have htotal : totalWeight others = totalWeight samples := by
    rw [totalWeight_real, totalWeight_real, (h.map _).sum_eq]
  have hmoment : momentAlong others = momentAlong samples :=
    funext fun i => (h.map _).sum_eq
  rw [centroid, htotal, hmoment, centroid]

/-- **Nor does it change with the unit** of weights. -/
theorem centroid_scaled {c : ℝ} (hc : 0 < c) :
    centroid n (samples.map (scaled c)) = centroid n samples := by
  simp only [centroid, totalWeight_scaled, momentAlong_scaled, mul_div_mul_left _ _ hc.ne']

/-- **Parts count as their centres of gravity**, with the weight of all of the part. -/
theorem centroid_append (hpos : 0 < totalWeight samples) (hpos' : 0 < totalWeight others) :
    centroid n (samples ++ others) =
      centroid n [⟨centroid n samples, totalWeight samples⟩,
        ⟨centroid n others, totalWeight others⟩] := by
  refine congrArg Point.mk (List.map_congr_left fun i hi => ?_)
  have hi : i < n := List.mem_range.1 hi
  rw [totalWeight_append, momentAlong_append]
  congr 1
  · rw [momentAlong_pair, along_centroid hi, along_centroid hi, div_mul_cancel₀ _ hpos.ne',
      div_mul_cancel₀ _ hpos'.ne']
  · rw [totalWeight_pair]

end Sample

open Sample

/-- The sums of the weighted coordinates are taken on each axis by itself. -/
theorem weightedSums_exact (hdim : ∀ s ∈ samples, s.point.dimension = n) :
    weightedSums n samples = (List.range n).map (momentAlong samples) := by
  -- from whatever numbers the sums begin
  suffices hfold : ∀ f : ℕ → ℝ, samples.foldl
      (fun sums s => List.zipWith (fun sum x => sum + x * s.weight) sums s.point.coordinates)
      ((List.range n).map f) = (List.range n).map fun i => f i + momentAlong samples i by
    have hzeros : List.replicate n (0.0 : ℝ) = (List.range n).map fun _ => 0 := by
      rw [List.map_const', List.length_range, zero_real]
    rw [weightedSums, hzeros, hfold]
    simp only [zero_add]
  intro f
  induction samples generalizing f with
  | nil => simp [momentAlong]
  | cons s rest ih =>
    rw [List.foldl_cons, coordinates_eq_map (hdim s List.mem_cons_self), List.zipWith_map,
      List.zipWith_self, ih fun t ht => hdim t (List.mem_cons_of_mem s ht)]
    simp only [momentAlong, List.map_cons, List.sum_cons, add_assoc]

/-- **A mean is a centre of gravity**, if there is weight. -/
theorem weightedMean_exact (hdim : ∀ s ∈ samples, s.point.dimension = n)
    (hpos : 0 < totalWeight samples) : weightedMean samples = .ok (centroid n samples) := by
  cases samples with
  | nil => simp [totalWeight_real] at hpos
  | cons first rest =>
    have hfirst := hdim first List.mem_cons_self
    have htotal : ¬ totalWeight (first :: rest) ≤ 0.0 := by rwa [zero_real, not_le]
    rw [weightedMean_cons fun s hs => (hdim s hs).trans hfirst.symm, if_neg htotal, hfirst,
      weightedSums_exact hdim, List.map_map]
    rfl

/-- Samples without weight have the point without coordinates for mean, and so has none. -/
theorem weightedMean_weightless (hdim : ∀ s ∈ samples, s.point.dimension = n)
    (hzero : ∀ s ∈ samples, s.weight = 0) : weightedMean samples = .ok ⟨[]⟩ := by
  cases samples with
  | nil => rfl
  | cons first rest =>
    have htotal : totalWeight (first :: rest) ≤ 0.0 := by
      rw [totalWeight_real, zero_real, List.map_congr_left hzero, List.map_const',
        List.sum_replicate, smul_zero]
    have hfirst := hdim first List.mem_cons_self
    rw [weightedMean_cons fun s hs => (hdim s hs).trans hfirst.symm, if_pos htotal]

/-- On every axis that it has, the point lies between places of samples that have weight. -/
def IsWithin (samples : List (Sample ℝ)) (p : Point ℝ) : Prop :=
  ∀ i y, p.get? i = some y →
    (∃ s ∈ samples, 0 < s.weight ∧ ∃ x, s.point.get? i = some x ∧ x ≤ y) ∧
      ∃ s ∈ samples, 0 < s.weight ∧ ∃ x, s.point.get? i = some x ∧ y ≤ x

/-- **A centre of gravity lies among what weighs.** -/
theorem isWithin_centroid (hdim : ∀ s ∈ samples, s.point.dimension = n)
    (hweight : ∀ s ∈ samples, 0 ≤ s.weight) (hpos : 0 < totalWeight samples) :
    IsWithin samples (centroid n samples) := by
  intro i y hy
  have hi : i < n := by
    by_contra hge
    simp [Point.get?, centroid, hge] at hy
  have hvalue : y = momentAlong samples i / totalWeight samples := by
    simpa [Point.get?, centroid, hi, eq_comm] using hy
  have hplace : ∀ s ∈ samples, s.point.get? i = some (s.along i) := by
    intro s hs
    rw [Point.get?, coordinates_eq_map (hdim s hs)]
    simp [hi]
  rw [totalWeight_real] at hpos hvalue
  have hsum : (samples.map fun s => s.along i * s.weight).sum =
      y * (samples.map (·.weight)).sum := by
    rw [hvalue, div_mul_cancel₀ _ hpos.ne']
    rfl
  obtain ⟨s, hs, hw, hle⟩ := exists_le_of_sum_eq hweight hpos hsum
  obtain ⟨t, ht, hw', hge⟩ := exists_ge_of_sum_eq hweight hpos hsum
  exact ⟨⟨s, hs, hw, _, hplace s hs, hle⟩, t, ht, hw', _, hplace t ht, hge⟩

/-- **Means can be taken in parts**: each part counts as its mean, with the weight of all of it.
If the parts are in two spaces, so are their means, and both sides are refused alike. -/
theorem weightedMean_parts {mean mean' : Point ℝ} (hpos : 0 < totalWeight samples)
    (hpos' : 0 < totalWeight others) (h : weightedMean samples = .ok mean)
    (h' : weightedMean others = .ok mean') :
    weightedMean (samples ++ others) =
      weightedMean [⟨mean, totalWeight samples⟩, ⟨mean', totalWeight others⟩] := by
  obtain ⟨n, hdim⟩ := oneDimension_of_weightedMean h
  obtain ⟨m, hdim'⟩ := oneDimension_of_weightedMean h'
  obtain rfl := Except.ok.inj ((weightedMean_exact hdim hpos).symm.trans h)
  obtain rfl := Except.ok.inj ((weightedMean_exact hdim' hpos').symm.trans h')
  rcases eq_or_ne m n with rfl | hne
  · have hwhole : 0 < totalWeight (samples ++ others) := by
      rw [totalWeight_append]
      exact add_pos hpos hpos'
    have hparts : 0 < totalWeight [⟨centroid m samples, totalWeight samples⟩,
        ⟨centroid m others, totalWeight others⟩] := by
      rw [totalWeight_pair]
      exact add_pos hpos hpos'
    rw [weightedMean_exact (List.forall_mem_append.2 ⟨hdim, hdim'⟩) hwhole,
      weightedMean_exact (n := m) (by simp) hparts, centroid_append hpos hpos']
  · cases samples with
    | nil => simp [totalWeight_real] at hpos
    | cons first rest =>
      cases others with
      | nil => simp [totalWeight_real] at hpos'
      | cons s after =>
        have hfirst := hdim first List.mem_cons_self
        have hs := hdim' s List.mem_cons_self
        have hother : s.point.dimension ≠ first.point.dimension := by rwa [hfirst, hs]
        have hrest : ∀ t ∈ rest, t.point.dimension = first.point.dimension :=
          fun t ht => (hdim t (List.mem_cons_of_mem first ht)).trans hfirst.symm
        have hparts := weightedMean_eq_error
          ⟨centroid n (first :: rest), totalWeight (first :: rest)⟩
          ⟨centroid m (s :: after), totalWeight (s :: after)⟩ [] (List.forall_mem_nil _)
          (by simpa using hne)
        rw [List.nil_append] at hparts
        rw [List.cons_append, weightedMean_eq_error first s after hrest hother, hparts, hfirst, hs,
          dimension_centroid, dimension_centroid]

/-- **The laws of means.** Of samples whose weights are not negative there is no mean exactly if
one is in another space than the first. Else, without weight, it is the point without
coordinates. With weight it is a point of the same space; it lies within the samples that
have weight on every axis; it does not change with the order of samples or with the unit of
weights; and samples and others have the mean of their two means, each with all the weight
it stands for. -/
theorem weightedMean_laws (hweight : ∀ s ∈ samples, 0 ≤ s.weight) :
    ((∃ failure, weightedMean samples = .error failure) ↔
      ∃ first ∈ samples.head?, ∃ s ∈ samples, s.point.dimension ≠ first.point.dimension) ∧
    ∀ n, (∀ s ∈ samples, s.point.dimension = n) →
      ((∀ s ∈ samples, s.weight = 0) → weightedMean samples = .ok ⟨[]⟩) ∧
      ((∃ s ∈ samples, 0 < s.weight) → ∃ mean, weightedMean samples = .ok mean ∧
        mean.dimension = n ∧ IsWithin samples mean ∧
        (∀ others, others.Perm samples → weightedMean others = .ok mean) ∧
        (∀ c, 0 < c → weightedMean (samples.map (scaled c)) = .ok mean) ∧
        ∀ others mean', 0 < totalWeight others → weightedMean others = .ok mean' →
          weightedMean (samples ++ others) =
            weightedMean [⟨mean, totalWeight samples⟩, ⟨mean', totalWeight others⟩]) := by
  refine ⟨weightedMean_refused_iff, fun n hdim => ⟨weightedMean_weightless hdim, fun hsome => ?_⟩⟩
  have hpos := (totalWeight_pos_iff hweight).2 hsome
  have hmean := weightedMean_exact hdim hpos
  refine ⟨centroid n samples, hmean, dimension_centroid, isWithin_centroid hdim hweight hpos,
    fun others hperm => ?_, fun c hc => ?_, fun others mean' hpos' hmean' =>
      weightedMean_parts hpos hpos' hmean hmean'⟩
  · have htotal : totalWeight others = totalWeight samples := by
      rw [totalWeight_real, totalWeight_real, (hperm.map _).sum_eq]
    rw [weightedMean_exact (fun s hs => hdim s (hperm.subset hs)) (by rwa [htotal]),
      centroid_perm hperm]
  · have hdim' : ∀ s ∈ samples.map (scaled c), s.point.dimension = n := by
      intro t ht
      obtain ⟨s, hs, rfl⟩ := List.mem_map.1 ht
      exact hdim s hs
    rw [weightedMean_exact hdim' (by rw [totalWeight_scaled]; positivity), centroid_scaled hc]

/-- Two samples that weigh, and one far away from them that does not. -/
noncomputable def spread : List (Sample ℝ) :=
  [⟨⟨[0, 1]⟩, 1⟩, ⟨⟨[1, 0]⟩, 3⟩, ⟨⟨[5, 5]⟩, 0⟩]

/-- The sample far away has no part in the mean, in whatever order the samples come. -/
theorem weightedMean_laws_spread :
    (∀ s ∈ spread, 0 ≤ s.weight) ∧ ∃ mean, weightedMean spread = .ok mean ∧
      mean.dimension = 2 ∧ weightedMean spread.reverse = .ok mean ∧
      ∀ i y, mean.get? i = some y → y ≤ 1 := by
  have hweight : ∀ s ∈ spread, 0 ≤ s.weight := by simp [spread]
  have hdim : ∀ s ∈ spread, s.point.dimension = 2 := by simp [spread, Point.dimension]
  have hnear : ∀ s ∈ spread, 0 < s.weight → ∀ x ∈ s.point.coordinates, x ≤ 1 := by simp [spread]
  have hsome : ∃ s ∈ spread, 0 < s.weight := by simp [spread]
  obtain ⟨mean, hmean, hspace, hwithin, hperm, -, -⟩ :=
    ((weightedMean_laws hweight).2 2 hdim).2 hsome
  refine ⟨hweight, mean, hmean, hspace, hperm _ (List.reverse_perm spread), fun i y hy => ?_⟩
  obtain ⟨-, s, hs, hpos, x, hx, hle⟩ := hwithin i y hy
  exact hle.trans (hnear s hs hpos x (List.mem_of_getElem? hx))

end Exact

end Reframe
