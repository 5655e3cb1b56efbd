import Reframe.Proofs.Anchor.Copied
import Reframe.Proofs.Anchor.Found
import Reframe.Proofs.Cluster.Partition

/-!
# Detections in another order

In another order detections make other links first, grow a forest of another shape, and have
their groups, members and sums in another order. Over the reals all this cannot be seen, but
for the order itself: the groups are the same multisets of samples, something is found in
both orders or in none, and if one group outweighs all others its mean is the place.

* `Group.content`: the members of a group, in no order.
* `Cluster.content_perm`: **the groups are the same**, but for the order.
* `Anchor.locate_reordered`: **the order of detections does not matter**.
-/

namespace Reframe

/-- The members of a group, in no order. -/
def Group.content {α : Type} (g : Group α) : Multiset (Sample α) :=
  g.members

/-- The first of two groups leads if it is heavier. -/
theorem Group.hasLeader_pair {g g' : Group ℝ} (h : g'.weight < g.weight) : HasLeader [g, g'] := by
  intro _
  refine ⟨g, List.mem_cons_self, fun other hother hne => ?_⟩
  rcases List.mem_pair.1 hother with rfl | rfl
  · exact absurd rfl hne
  · exact h

theorem Group.weight_singleton (s : Sample ℝ) : (⟨[s]⟩ : Group ℝ).weight = s.weight := by
  rw [weight, totalWeight_real, List.map_singleton, List.sum_singleton]

namespace Cluster

variable {samples others : List (Sample ℝ)} {threshold : ℝ} {groups groups' : List (Group ℝ)}

/-- No two groups have the same content: samples that are the same are in one group. -/
theorem nodup_content (haxis : OneAxis samples) (ht : IsThreshold threshold)
    (hcluster : cluster samples threshold = .ok groups) : (groups.map Group.content).Nodup := by
  obtain ⟨parts, hparts, hcomponents⟩ := cluster_isComponents ⟨1, haxis⟩ ht
  obtain rfl := Except.ok.inj (hparts.symm.trans hcluster)
  have hpartition := hcomponents.isPartition
  rw [List.map_map]
  refine (hpartition.pairwise_disjoint.imp_of_mem ?_).map _ fun _ _ => id
  intro p q hp _ hdisjoint hsame
  have hperm : (p.map samples.get).Perm (q.map samples.get) := Multiset.coe_eq_coe.1 hsame
  obtain ⟨i, hi⟩ := hpartition.exists_member hp
  obtain ⟨j, hj, heq⟩ := List.mem_map.1 (hperm.subset (List.mem_map_of_mem hi))
  have hreach : (linkGraph samples threshold).Reachable i j := by
    refine reachable_of_near haxis ?_
    rw [heq, sub_self, abs_zero]
    exact isThreshold_real.1 ht
  exact hdisjoint ((hpartition.mem_iff hp hi).2 hreach) hj

theorem mem_content_iff (haxis : OneAxis samples) (ht : IsThreshold threshold)
    (hcluster : cluster samples threshold = .ok groups) {c : Multiset (Sample ℝ)} :
    c ∈ groups.map Group.content ↔ ∃ s ∈ samples, c = joinedWith samples threshold s := by
  rw [List.mem_map]
  constructor
  · rintro ⟨g, hg, rfl⟩
    obtain ⟨s, hs, rfl⟩ := (mem_groups_iff haxis ht hcluster).1 hg
    exact ⟨s, hs, rfl⟩
  · rintro ⟨s, hs, rfl⟩
    exact ⟨_, (mem_groups_iff haxis ht hcluster).2 ⟨s, hs, rfl⟩, rfl⟩

/-- **The groups are the same**, but for the order of groups and of their members. -/
theorem content_perm (haxis : OneAxis samples) (ht : IsThreshold threshold)
    (hperm : others.Perm samples) (hcluster : cluster samples threshold = .ok groups)
    (hcluster' : cluster others threshold = .ok groups') :
    (groups'.map Group.content).Perm (groups.map Group.content) := by
  have hcopied : IsCopied 1 samples others := isCopied_one_iff.2 hperm
  have haxis' := hcopied.oneAxis haxis
  have hjoined : ∀ s, (joinedWith others threshold s : Multiset (Sample ℝ)) =
      joinedWith samples threshold s := fun s =>
    Multiset.coe_eq_coe.2 (isCopied_one_iff.1 (hcopied.joinedWith threshold s))
  rw [List.perm_ext_iff_of_nodup (nodup_content haxis' ht hcluster')
    (nodup_content haxis ht hcluster)]
  intro c
  rw [mem_content_iff haxis' ht hcluster', mem_content_iff haxis ht hcluster]
  simp only [hcopied.mem_iff, hjoined]

/-- Two samples that are not linked are two groups. -/
theorem cluster_pair {s t : Sample ℝ} {d : ℝ} (ht : IsThreshold threshold)
    (hdist : s.dist t = .ok d) (hfar : ¬ d ≤ threshold) :
    cluster [s, t] threshold = .ok [⟨[s]⟩, ⟨[t]⟩] := by
  have htie : tie #[s, t] threshold 0 (Forest.singletons 2) 1 =
      .ok (Forest.singletons 2) := by
    change (do let d ← s.dist t; return if d ≤ threshold then _ else _) = _
    rw [hdist]
    exact congrArg _ (if_neg hfar)
  have hrow : tieLater #[s, t] threshold (Forest.singletons 2) 0 =
      .ok (Forest.singletons 2) := by
    change [1].foldlM (tie #[s, t] threshold 0) (Forest.singletons 2) = _
    rw [List.foldlM_cons, htie]
    rfl
  have hlinked : linked #[s, t] threshold = .ok (Forest.singletons 2) := by
    change [0, 1].foldlM (tieLater #[s, t] threshold) (Forest.singletons 2) = _
    rw [List.foldlM_cons, hrow]
    rfl
  rw [cluster, if_neg (not_not.2 ht), hlinked]
  rfl

end Cluster

namespace Anchor

variable {e : Extent} {ratio threshold : ℝ} {detections reordered : List Detection}

/-- **The order of detections does not matter.** Over the reals, detections in another order
show the same groups, but for the order of groups and members; an anchor is found in both
orders or in none, on the same axis; and if one group outweighs all others, the anchors are
the same. -/
theorem locate_reordered (hperm : reordered.Perm detections) (he : ¬ e.IsEmpty)
    (ht : IsThreshold threshold) (hweight : ∀ d ∈ detections, Sample.IsWeight (d.weight : ℝ)) :
    ∃ groups groups' anchor anchor',
      locate e ratio threshold detections = ⟨[groups], .ok anchor⟩ ∧
      locate e ratio threshold reordered = ⟨[groups'], .ok anchor'⟩ ∧
      anchor'.found = anchor.found ∧ anchor'.axis = anchor.axis ∧
      (groups'.map Group.content).Perm (groups.map Group.content) ∧
      (Group.HasLeader groups → anchor' = anchor) := by
  have hweight' : ∀ d ∈ reordered, Sample.IsWeight (d.weight : ℝ) :=
    fun d hd => hweight d (hperm.mem_iff.1 hd)
  obtain ⟨groups, anchor, hcluster, hanchor, hlocate⟩ := exists_located ratio he ht hweight
  obtain ⟨groups', anchor', hcluster', hanchor', hlocate'⟩ := exists_located ratio he ht hweight'
  let axis := Axis.dominant e ratio
  have haxis : OneAxis (Detection.samplesOn e axis detections : List (Sample ℝ)) :=
    Detection.dimension_samplesOn _ _ _
  have hsamples : (Detection.samplesOn e axis reordered : List (Sample ℝ)).Perm
      (Detection.samplesOn e axis detections) := hperm.map _
  have hnonneg : ∀ s ∈ (Detection.samplesOn e axis detections : List (Sample ℝ)), 0 ≤ s.weight := by
    intro s hs
    obtain ⟨d, hd, rfl⟩ := List.mem_map.1 hs
    exact isWeight_real.1 (hweight d hd)
  have hfound := found_ofGroups_iff rankLe_trans_real rankLe_total_real haxis
    (addsUp_exact hnonneg) hcluster hanchor
  have hfound' := found_ofGroups_iff rankLe_trans_real rankLe_total_real
    (fun s hs => haxis s (hsamples.subset hs))
    (addsUp_exact fun s hs => hnonneg s (hsamples.subset hs)) hcluster' hanchor'
  refine ⟨groups, groups', anchor, anchor', hlocate, hlocate', ?_, ?_,
    Cluster.content_perm haxis ht hsamples hcluster hcluster', fun hleader => ?_⟩
  · rw [Bool.eq_iff_iff, hfound, hfound']
    simp only [hsamples.mem_iff]
  · rw [axis_ofGroups hanchor', axis_ofGroups hanchor]
  · have hsame := ofGroups_copied haxis ht (isCopied_one_iff.2 hsamples) hcluster hcluster'
      hleader axis
    exact Except.ok.inj (hanchor'.symm.trans (hsame.trans hanchor))

/-- Two detections far from each other, one of them with twice the weight. -/
def twoWeights : List Detection :=
  [⟨⟨1, 1⟩, 2, Float32.ofBits 0x3F800000⟩, ⟨⟨6, 2⟩, 1, Float32.ofBits 0x3F800000⟩]

theorem isWeight_twoWeights : ∀ d ∈ twoWeights, Sample.IsWeight (d.weight : ℝ) := by
  have hreal : ∀ d ∈ twoWeights, d.quality = Float32.ofBits 0x3F800000 ∧ 0 ≤ d.scale := by decide
  intro d hd
  obtain ⟨hquality, hscale⟩ := hreal d hd
  rw [isWeight_real, Detection.weight_real hquality]
  exact_mod_cast hscale

theorem shown_twoWeights : (locate ⟨8, 4⟩ (1.0 : ℝ) 0.05 twoWeights).seen =
    [[⟨[(twoWeights[0]).onAxis ⟨8, 4⟩ .horizontal]⟩,
      ⟨[(twoWeights[1]).onAxis ⟨8, 4⟩ .horizontal]⟩]] := by
  have hwide : (Scalar.ofInt (4 : Nat) : ℝ) * 1.0 < Scalar.ofInt (8 : Nat) := by
    change ((4 : Nat) : Int) * (1.0 : ℝ) < ((8 : Nat) : Int)
    norm_num
  have haxis : Axis.dominant ⟨8, 4⟩ (1.0 : ℝ) = .horizontal := if_pos hwide
  have hleft : (fractionOf 8 1 : ℝ) = 1 / 8 := by
    change ((1 : Int) : ℝ) / ((8 : Nat) : Int) = 1 / 8
    norm_num
  have hright : (fractionOf 8 6 : ℝ) = 3 / 4 := by
    change ((6 : Int) : ℝ) / ((8 : Nat) : Int) = 3 / 4
    norm_num
  have hfar : ¬ |(fractionOf 8 1 : ℝ) - fractionOf 8 6| ≤ 0.05 := by
    rw [hleft, hright]
    norm_num [abs_of_neg]
  have ht : IsThreshold (0.05 : ℝ) := isThreshold_real.2 (by norm_num)
  have hdist : ((twoWeights[0]).onAxis ⟨8, 4⟩ .horizontal : Sample ℝ).dist
      ((twoWeights[1]).onAxis ⟨8, 4⟩ .horizontal) = .ok |(fractionOf 8 1 : ℝ) - fractionOf 8 6| :=
    Sample.dist_eq_ok rfl
  have hcluster := Cluster.cluster_pair ht hdist hfar
  have hgroups : groupsOn .horizontal ⟨8, 4⟩ (0.05 : ℝ) twoWeights = _ :=
    (groupsOn_eq (by decide) isWeight_twoWeights).trans hcluster
  unfold locate
  rw [haxis]
  dsimp only
  rw [hgroups]

theorem locate_reordered_twoWeights :
    twoWeights.reverse.Perm twoWeights ∧ ¬ (⟨8, 4⟩ : Extent).IsEmpty ∧ IsThreshold (0.05 : ℝ) ∧
      (∀ d ∈ twoWeights, Sample.IsWeight (d.weight : ℝ)) ∧
      ∃ groups groups' anchor anchor',
        locate ⟨8, 4⟩ (1.0 : ℝ) 0.05 twoWeights = ⟨[groups], .ok anchor⟩ ∧
        locate ⟨8, 4⟩ (1.0 : ℝ) 0.05 twoWeights.reverse = ⟨[groups'], .ok anchor'⟩ ∧
        (groups'.map Group.content).Perm (groups.map Group.content) ∧
        Group.HasLeader groups ∧ anchor' = anchor := by
  have hperm : twoWeights.reverse.Perm twoWeights := List.reverse_perm _
  have he : ¬ (⟨8, 4⟩ : Extent).IsEmpty := by decide
  have ht : IsThreshold (0.05 : ℝ) := isThreshold_real.2 (by norm_num)
  obtain ⟨groups, groups', anchor, anchor', hlocate, hlocate', -, -, hcontent, hsame⟩ :=
    locate_reordered hperm he ht isWeight_twoWeights
  have hshown := shown_twoWeights
  rw [hlocate] at hshown
  have hgroups : groups = _ := List.singleton_injective hshown
  have hleader : Group.HasLeader groups := by
    rw [hgroups]
    apply Group.hasLeader_pair
    rw [Group.weight_singleton, Group.weight_singleton]
    change ((twoWeights[1]).weight : ℝ) < (twoWeights[0]).weight
    rw [Detection.weight_real rfl, Detection.weight_real rfl]
    norm_num [twoWeights]
  exact ⟨hperm, he, ht, isWeight_twoWeights, groups, groups', anchor, anchor', hlocate, hlocate',
    hcontent, hleader, hsame hleader⟩

end Anchor

end Reframe
