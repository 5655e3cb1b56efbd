import Reframe.Proofs.Mean.Laws

/-!
# Samples of different dimensions

Samples of different dimensions are refused by clusters and by means, and for the same reason:
the dimension of the first sample and that of the first one that differs from it. A mean looks
for that sample before it adds anything up. A cluster compares pairs, and joins some of them
before it fails; but its first row compares the first sample with all others, so it fails there,
whatever it has joined by then.

* `IsMismatch`: the reason.
* `Cluster.tieLater_zero_eq_error`: the first row fails at the first sample that differs.
* `refused_iff_mismatch`: **clusters and means are refused for that reason, and for no other**.
-/

namespace Reframe

variable {α : Type} [Scalar α] {samples : List (Sample α)} {threshold : α} {failure : Failure α}

/-- The failure names the dimension of the first sample and that of the first later one that is
of another dimension. -/
def IsMismatch (samples : List (Sample α)) (failure : Failure α) : Prop :=
  ∃ first before other after, samples = first :: (before ++ other :: after) ∧
    (∀ s ∈ before, s.point.dimension = first.point.dimension) ∧
    other.point.dimension ≠ first.point.dimension ∧
    failure = .dimensionMismatch first.point.dimension other.point.dimension

omit [Scalar α] in
/-- Samples that do not agree in their dimensions have a first one that differs. -/
theorem exists_isMismatch (h : ¬ OneDimension samples) : ∃ failure, IsMismatch samples failure := by
  cases samples with
  | nil => exact absurd ⟨0, List.forall_mem_nil _⟩ h
  | cons first rest =>
    have hother : ∃ s ∈ rest, s.point.dimension ≠ first.point.dimension := by
      by_contra hnone
      push Not at hnone
      exact h ⟨first.point.dimension, List.forall_mem_cons.2 ⟨rfl, hnone⟩⟩
    obtain ⟨before, other, after, rfl, hbefore, hother⟩ := exists_first_other hother
    exact ⟨_, first, before, other, after, rfl, hbefore, hother, rfl⟩

omit [Scalar α] in
theorem IsMismatch.not_oneDimension (h : IsMismatch samples failure) : ¬ OneDimension samples := by
  obtain ⟨first, before, other, after, rfl, -, hother, -⟩ := h
  rintro ⟨d, hd⟩
  apply hother
  rw [hd first (by simp), hd other (by simp)]

omit [Scalar α] in
theorem oneDimension_iff : OneDimension samples ↔
    ∀ s ∈ samples, ∀ t ∈ samples, s.point.dimension = t.point.dimension := by
  constructor
  · rintro ⟨d, hd⟩ s hs t ht
    rw [hd s hs, hd t ht]
  · intro h
    cases samples with
    | nil => exact ⟨0, List.forall_mem_nil _⟩
    | cons first rest => exact ⟨_, fun s hs => h s hs first List.mem_cons_self⟩

theorem Sample.dist_eq_error {s t : Sample α} (h : s.point.dimension ≠ t.point.dimension) :
    s.dist t = .error (.dimensionMismatch s.point.dimension t.point.dimension) := by
  rw [Sample.dist, Point.dist, Point.sameDimension, if_neg h]
  rfl

namespace Cluster

/-- **The first row fails at the first sample that differs**, whatever has been joined. -/
theorem tieLater_zero_eq_error {first other : Sample α} {before : List (Sample α)}
    (after : List (Sample α))
    (hbefore : ∀ s ∈ before, s.point.dimension = first.point.dimension)
    (hother : other.point.dimension ≠ first.point.dimension) (threshold : α) (forest : Forest) :
    tieLater (first :: (before ++ other :: after)).toArray threshold forest 0 =
      .error (.dimensionMismatch first.point.dimension other.point.dimension) := by
  have hrow : List.range' 1 ((first :: (before ++ other :: after)).length - 1) =
      List.range' 1 before.length ++
        (1 + before.length) :: List.range' (1 + before.length + 1) after.length := by
    rw [← List.range'_succ, List.range'_append_1]
    simp
  rw [tieLater, List.size_toArray, hrow]
  refine foldlM_eq_error ?_ (fun forest => ?_) forest
  · intro j hj forest
    rw [List.mem_range'_1] at hj
    obtain ⟨k, rfl⟩ : ∃ k, j = k + 1 := ⟨j - 1, by omega⟩
    have hk : k < before.length := by omega
    have hdist := Sample.dist_eq_ok (hbefore before[k] (List.getElem_mem hk)).symm
    simp only [tie, List.getElem?_toArray, List.getElem?_cons_zero, List.getElem?_cons_succ,
      List.getElem?_append_left hk, List.getElem?_eq_getElem hk, hdist]
    exact ⟨_, rfl⟩
  · rw [Nat.add_comm 1 before.length]
    simp only [tie, List.getElem?_toArray, List.getElem?_cons_zero, List.getElem?_cons_succ,
      List.getElem?_append_right le_rfl, Nat.sub_self, Sample.dist_eq_error hother.symm]
    rfl

end Cluster

/-- A cluster does not get beyond its first row. -/
theorem IsMismatch.cluster_eq_error (h : IsMismatch samples failure)
    (ht : IsThreshold threshold) : cluster samples threshold = .error failure := by
  obtain ⟨first, before, other, after, rfl, hbefore, hother, rfl⟩ := h
  have hrow := Cluster.tieLater_zero_eq_error after hbefore hother threshold
  rw [cluster, if_neg (not_not.2 ht), Cluster.linked, List.size_toArray, List.length_cons,
    List.range_succ_eq_map, List.foldlM_cons, hrow]
  rfl

/-- A mean does not get beyond its checks. -/
theorem IsMismatch.weightedMean_eq_error (h : IsMismatch samples failure) :
    weightedMean samples = .error failure := by
  obtain ⟨first, before, other, after, rfl, hbefore, hother, rfl⟩ := h
  exact Reframe.weightedMean_eq_error first other after hbefore hother

/-- **Samples of different dimensions are refused, everywhere for the same reason**, and
nothing else is: not for what their coordinates are, nor for weights that are all zero. -/
theorem refused_iff_mismatch (samples : List (Sample α)) (ht : IsThreshold threshold) :
    (∀ failure, cluster samples threshold = .error failure ↔ IsMismatch samples failure) ∧
    (∀ failure, weightedMean samples = .error failure ↔ IsMismatch samples failure) ∧
    ((∃ failure, IsMismatch samples failure) ↔
      ∃ s ∈ samples, ∃ t ∈ samples, s.point.dimension ≠ t.point.dimension) := by
  have hcluster : ∀ failure, IsMismatch samples failure →
      cluster samples threshold = .error failure := fun _ h => h.cluster_eq_error ht
  have hmean : ∀ failure, IsMismatch samples failure →
      weightedMean samples = .error failure := fun _ h => h.weightedMean_eq_error
  by_cases hd : OneDimension samples
  · -- in one dimension there are groups and a mean
    have hnone : ∀ failure, ¬ IsMismatch samples failure := fun _ h => h.not_oneDimension hd
    obtain ⟨label, hgroups, -⟩ := Cluster.exists_cluster hd ht
    obtain ⟨mean, hok⟩ := weightedMean_eq_ok hd
    refine ⟨fun failure => iff_of_false ?_ (hnone failure),
      fun failure => iff_of_false ?_ (hnone failure), iff_of_false ?_ ?_⟩
    · rw [hgroups]
      simp
    · rw [hok]
      simp
    · rintro ⟨failure, h⟩
      exact hnone failure h
    · rintro ⟨s, hs, t, ht, hne⟩
      exact hne (oneDimension_iff.1 hd s hs t ht)
  · obtain ⟨reason, hreason⟩ := exists_isMismatch hd
    refine ⟨fun failure => ⟨fun h => ?_, hcluster failure⟩,
      fun failure => ⟨fun h => ?_, hmean failure⟩, iff_of_true ⟨reason, hreason⟩ ?_⟩
    · rw [hcluster reason hreason] at h
      cases h
      exact hreason
    · rw [hmean reason hreason] at h
      cases h
      exact hreason
    · rw [oneDimension_iff] at hd
      push Not at hd
      exact hd

/-- Samples without weight of three dimensions; the coordinates of the first two are no number
and infinite. -/
def mixed : List (Sample Float) :=
  [⟨⟨[Float.ofBits 0x7FF8000000000000]⟩, 0.0⟩, ⟨⟨[Float.ofBits 0x7FF0000000000000]⟩, 0.0⟩,
    ⟨⟨[0.25, 0.5]⟩, 0.0⟩, ⟨⟨[]⟩, 0.0⟩, ⟨⟨[0.25]⟩, 0.0⟩]

/-- The third sample is the first that differs. -/
theorem refused_iff_mismatch_mixed :
    IsThreshold (0.05 : Float) ∧ cluster mixed 0.05 = .error (.dimensionMismatch 1 2) ∧
      weightedMean mixed = .error (.dimensionMismatch 1 2) := by
  have ht : IsThreshold (0.05 : Float) := by decide
  have hmismatch : IsMismatch mixed (.dimensionMismatch 1 2) :=
    ⟨mixed[0], [mixed[1]], mixed[2], [mixed[3], mixed[4]], rfl, by decide, by decide, rfl⟩
  obtain ⟨hcluster, hmean, -⟩ := refused_iff_mismatch mixed ht
  exact ⟨ht, (hcluster _).2 hmismatch, (hmean _).2 hmismatch⟩

end Reframe
