import Reframe.Proofs.Anchor.Heaviest

/-!
# When an anchor is found

Whether something is found is read off the heaviest group: it has a mean if its weight is
above zero. That is so exactly when any detection has weight. For each lies in some group,
the weight of a group is no less than that of any member, and the heaviest group is not
outranked by that one. In machine arithmetic this takes that rounded sums do not fall below
their parts, and that ranking by patterns never puts a zero before a positive number.

* `AddsUp`: groups weigh something exactly when a member does.
* `addsUp_machine`, `addsUp_exact`: they do, in machine arithmetic and over the reals.
* `Anchor.found_ofGroups_iff`: the criterion in terms of samples.
* `Anchor.found_locate_iff`: **the criterion in terms of detections**.
-/

namespace Reframe

section Groups

variable {α : Type} [Scalar α] {samples : List (Sample α)} {threshold : α}
  {groups : List (Group α)} {anchor : Anchor α} {axis : Axis}

/-- Among groups of some samples, those have weight of which a member has, and none ranks
before one with weight unless it has weight, too. -/
structure AddsUp (samples : List (Sample α)) : Prop where
  weighs_iff : ∀ g : Group α, g.members ⊆ samples →
    (¬ g.weight ≤ 0.0 ↔ ∃ s ∈ g.members, 0.0 < s.weight)
  outranks : ∀ g g' : Group α, g.members ⊆ samples → g'.members ⊆ samples →
    ¬ g.weight ≤ 0.0 → Scalar.rankLe g.weight g'.weight → ¬ g'.weight ≤ 0.0

/-- **Every sample is in a group**, and groups hold nothing else. -/
theorem mem_cluster_iff (haxis : OneAxis samples)
    (hcluster : cluster samples threshold = .ok groups) {s : Sample α} :
    s ∈ samples ↔ ∃ g ∈ groups, s ∈ g.members := by
  obtain ⟨label, hclasses, -⟩ :=
    Cluster.exists_cluster ⟨1, haxis⟩ (isThreshold_of_cluster hcluster)
  obtain rfl := Except.ok.inj (hclasses.symm.trans hcluster)
  constructor
  · intro hs
    obtain ⟨i, rfl⟩ := List.mem_iff_get.1 hs
    have hi : i ∈ List.finRange samples.length := List.mem_finRange i
    obtain ⟨part, hpart, hmem, -⟩ := (Cluster.mem_classes _ i i).2 ⟨hi, hi, rfl⟩
    exact ⟨_, List.mem_map_of_mem hpart, List.mem_map_of_mem hmem⟩
  · rintro ⟨g, hg, hs⟩
    obtain ⟨part, -, rfl⟩ := List.mem_map.1 hg
    exact Group.ofPlaces_subset samples part hs

namespace Anchor

/-- **An anchor is found exactly when a sample has weight.** -/
theorem found_ofGroups_iff (htrans : ∀ a b c : α, Scalar.rankLe a b → Scalar.rankLe b c →
      Scalar.rankLe a c) (htotal : ∀ a b : α, Scalar.rankLe a b || Scalar.rankLe b a)
    (haxis : OneAxis samples) (hadds : AddsUp samples)
    (hcluster : cluster samples threshold = .ok groups) (h : ofGroups axis groups = .ok anchor) :
    anchor.found ↔ ∃ s ∈ samples, 0.0 < s.weight := by
  have hsubset : ∀ g ∈ groups, g.members ⊆ samples :=
    fun g hg s hs => (mem_cluster_iff haxis hcluster).2 ⟨g, hg, hs⟩
  have hmember : ∀ {heaviest rest}, Group.rankByWeight groups = heaviest :: rest →
      heaviest ∈ groups := by
    intro heaviest rest hrank
    refine (descending_perm Scalar.rankLe Group.weight groups).mem_iff.1 ?_
    have hrank : descending Scalar.rankLe Group.weight groups = heaviest :: rest := hrank
    rw [hrank]
    exact List.mem_cons_self
  constructor
  · intro hfound
    obtain ⟨heaviest, rest, hrank, hmean⟩ := of_found h hfound
    have hsub := hsubset _ (hmember hrank)
    have hweight := Group.not_weight_le_of_mean (fun s hs => haxis s (hsub hs)) hmean
    obtain ⟨s, hs, hpos⟩ := (hadds.weighs_iff heaviest hsub).1 hweight
    exact ⟨s, hsub hs, hpos⟩
  · rintro ⟨s, hs, hpos⟩
    obtain ⟨g, hg, hsg⟩ := (mem_cluster_iff haxis hcluster).1 hs
    have hweighs := (hadds.weighs_iff g (hsubset g hg)).2 ⟨s, hsg, hpos⟩
    -- there is a first group, and the one with the sample does not outrank it
    cases hrank : Group.rankByWeight groups with
    | nil =>
      have hperm := descending_perm Scalar.rankLe Group.weight groups
      have hrank : descending Scalar.rankLe Group.weight groups = [] := hrank
      rw [hrank] at hperm
      rw [hperm.symm.eq_nil] at hg
      exact absurd hg List.not_mem_nil
    | cons heaviest rest =>
      have hsub := hsubset _ (hmember hrank)
      have hle := le_first_of_descending htrans htotal hrank g hg
      have hheaviest := hadds.outranks g heaviest (hsubset g hg) hsub hweighs hle
      have hne : heaviest.members ≠ [] := by
        obtain ⟨t, ht, -⟩ := (hadds.weighs_iff heaviest hsub).1 hheaviest
        exact List.ne_nil_of_mem ht
      have hmean := (weightedMean_axis fun t ht => haxis t (hsub ht)).2 ⟨hne, hheaviest, rfl⟩
      rw [ofGroups_of_mean hrank hmean] at h
      cases h
      rfl

end Anchor

end Groups

section Machine

variable {samples : List (Sample Float)} {e : Extent} {detections : List Detection}

theorem addsUp_machine (hmeasured : ∀ s ∈ samples, s.IsMeasured (2 ^ 159)) : AddsUp samples where
  weighs_iff g hg := by
    have hmeasured : ∀ s ∈ g.members, s.IsMeasured (2 ^ 159) := fun s hs => hmeasured s (hg hs)
    refine ⟨Sample.exists_weight hmeasured, ?_⟩
    rintro ⟨s, hs, hpos⟩
    exact Sample.not_totalWeight_le hmeasured hs hpos
  outranks g g' hg hg' hpos hle := by
    obtain ⟨-, v, -, hv, -, -⟩ :=
      exists_moment_le Binary.absorbs_large fun s hs => hmeasured s (hg hs)
    obtain ⟨-, v', -, hv', -, -⟩ :=
      exists_moment_le Binary.absorbs_large fun s hs => hmeasured s (hg' hs)
    have hv : Binary.Amount g.weight v := hv
    have hv' : Binary.Amount g'.weight v' := hv'
    rw [hv.le_iff Binary.amount_zero, not_le] at hpos
    rw [hv'.le_iff Binary.amount_zero, not_le]
    exact hpos.trans_le ((hv.rankLe_iff hv' (.inl hpos)).1 hle)

/-- **When an anchor is found**: exactly when a detection has weight. Sides and scales are
what 32 bits can hold. -/
theorem Anchor.found_locate_iff (hw : e.width ≤ maxSide) (hh : e.height ≤ maxSide)
    (hscale : ∀ d ∈ detections, |d.scale| ≤ 2 ^ 31) {ratio threshold : Float}
    {anchor : Anchor Float} (h : (locate e ratio threshold detections).result = .ok anchor) :
    anchor.found ↔ ∃ d ∈ detections, (0.0 : Float) < d.weight := by
  obtain ⟨groups, hgroups, hanchor⟩ := exists_groups h
  obtain ⟨samples, hsamples, hcluster⟩ := ok_of_bind hgroups
  obtain ⟨rfl, hgood⟩ := Detection.of_samplesOn hsamples
  have hmeasured : ∀ s ∈ (Detection.samplesOn e (Axis.dominant e ratio) detections :
      List (Sample Float)), s.IsMeasured (2 ^ 159) := by
    intro s hs
    obtain ⟨d, hd, rfl⟩ := List.mem_map.1 hs
    exact d.isMeasured_onAxis hw hh (hscale d hd) (hgood d hd).1 (hgood d hd).2
  rw [found_ofGroups_iff Binary.rankLe_trans Binary.rankLe_total
    (Detection.dimension_samplesOn _ _ _) (addsUp_machine hmeasured) hcluster hanchor]
  simp only [Detection.samplesOn, List.mem_map, exists_exists_and_eq_and, Detection.onAxis]

end Machine

section Exact

variable {samples : List (Sample ℝ)}

theorem addsUp_exact (hweight : ∀ s ∈ samples, 0 ≤ s.weight) : AddsUp samples where
  weighs_iff g hg := by
    rw [zero_real, not_le]
    exact Sample.totalWeight_pos_iff fun s hs => hweight s (hg hs)
  outranks g g' _ _ hpos hle := by
    have hle : g.weight ≤ g'.weight := of_decide_eq_true hle
    exact fun hnone => hpos (hle.trans hnone)

end Exact

end Reframe
