import Reframe.Proofs.Anchor.Heaviest
import Reframe.Proofs.Cluster.Members

/-!
# Anchors of detections that come several times over

Over the reals the place of the subject does not depend on the order of detections, nor does
it change if all of them come several times over: the groups are the same ones, each as many
times heavier as its members are more, and means stay where they are. Only when several
groups are heaviest does the order decide, since the first of them is taken.

* `Group.HasLeader`: one group outweighs all others.
* `Anchor.ofGroups_copied`: the groups of copies, with the same mean of the heaviest.
* `Anchor.locate_copied`: **copies have the anchor of what they are copies of**.
-/

namespace Reframe

variable {n : ℕ} {samples others : List (Sample ℝ)} {threshold : ℝ}
  {groups groups' : List (Group ℝ)}

/-- One of the groups, if there are any, outweighs all others. -/
def Group.HasLeader (groups : List (Group ℝ)) : Prop :=
  groups ≠ [] → ∃ leader ∈ groups, ∀ g ∈ groups, g ≠ leader → g.weight < leader.weight

/-- Nothing outweighs the group that is ranked first. -/
theorem Group.exists_first (h : groups ≠ []) : ∃ first rest,
    rankByWeight groups = first :: rest ∧ first ∈ groups ∧
      ∀ g ∈ groups, g.weight ≤ first.weight := by
  have hperm : (rankByWeight groups).Perm groups := descending_perm _ _ _
  cases hrank : rankByWeight groups with
  | nil =>
    rw [hrank] at hperm
    exact absurd hperm.symm.eq_nil h
  | cons first rest =>
    rw [hrank] at hperm
    refine ⟨first, rest, rfl, hperm.subset List.mem_cons_self, fun g hg => ?_⟩
    exact of_decide_eq_true (le_first_of_descending rankLe_trans_real rankLe_total_real hrank g hg)

/-- Groups of copies weigh as many times more. -/
theorem Group.weight_copied (h : IsCopied n samples others) (s : Sample ℝ) :
    (⟨Cluster.joinedWith others threshold s⟩ : Group ℝ).weight =
      n * (⟨Cluster.joinedWith samples threshold s⟩ : Group ℝ).weight :=
  (h.joinedWith threshold s).totalWeight_eq

namespace Anchor

/-- **The groups of copies** have the heaviest group in common, if there is only one. -/
theorem ofGroups_copied (haxis : OneAxis samples) (ht : IsThreshold threshold)
    (hcopied : IsCopied n samples others) (hcluster : cluster samples threshold = .ok groups)
    (hcluster' : cluster others threshold = .ok groups') (hleader : Group.HasLeader groups)
    (axis : Axis) : ofGroups axis groups' = ofGroups axis groups := by
  have hmem : ∀ {g}, g ∈ groups ↔ _ := Cluster.mem_groups_iff haxis ht hcluster
  have hmem' : ∀ {g}, g ∈ groups' ↔ _ :=
    Cluster.mem_groups_iff (hcopied.oneAxis haxis) ht hcluster'
  have hpos : (0 : ℝ) < n := by exact_mod_cast hcopied.pos
  rcases eq_or_ne groups [] with rfl | hne
  · -- without groups there are no samples
    have hnone : groups' = [] := by
      refine List.eq_nil_iff_forall_not_mem.2 fun g hg => ?_
      obtain ⟨s, hs, -⟩ := hmem'.1 hg
      exact List.not_mem_nil (hmem.2 ⟨s, hcopied.mem_iff.1 hs, rfl⟩)
    rw [hnone]
  · obtain ⟨leader, hin, hbest⟩ := hleader hne
    obtain ⟨s, hs, rfl⟩ := hmem.1 hin
    have hne' : groups' ≠ [] :=
      List.ne_nil_of_mem (hmem'.2 ⟨s, hcopied.mem_iff.2 hs, rfl⟩)
    obtain ⟨first, rest, hrank, hfirst, htop⟩ := Group.exists_first hne
    obtain ⟨first', rest', hrank', hfirst', htop'⟩ := Group.exists_first hne'
    have hlead : first = ⟨Cluster.joinedWith samples threshold s⟩ := by
      by_contra hother
      exact absurd (htop _ hin) (not_le.2 (hbest first hfirst hother))
    -- what is first among the copies is a copy of the leader
    obtain ⟨t, htin, rfl⟩ := hmem'.1 hfirst'
    have hle := htop' _ (hmem'.2 ⟨s, hcopied.mem_iff.2 hs, rfl⟩)
    rw [Group.weight_copied hcopied, Group.weight_copied hcopied,
      mul_le_mul_iff_right₀ hpos] at hle
    have hsame : (⟨Cluster.joinedWith samples threshold t⟩ : Group ℝ) = first := by
      rw [hlead]
      by_contra hother
      refine absurd hle (not_le.2 (hbest _ ?_ hother))
      exact hmem.2 ⟨t, hcopied.mem_iff.1 htin, rfl⟩
    have hsub : OneAxis (Cluster.joinedWith samples threshold t) :=
      fun r hr => haxis r (List.mem_of_mem_filter hr)
    have hmean : (⟨Cluster.joinedWith others threshold t⟩ : Group ℝ).mean = first.mean := by
      rw [← hsame]
      exact (hcopied.joinedWith threshold t).weightedMean_eq hsub
    unfold ofGroups
    rw [hrank, hrank']
    dsimp only
    rw [hmean]

/-- **Copies have the anchor of what they are copies of**, if one group outweighs all others. -/
theorem locate_copied {e : Extent} {ratio : ℝ} {detections copies : List Detection}
    (hcopied : IsCopied n detections copies) (he : ¬ e.IsEmpty) (ht : IsThreshold threshold)
    (hweight : ∀ d ∈ detections, Sample.IsWeight (d.weight : ℝ))
    (hleader : ∀ groups, groupsOn (Axis.dominant e ratio) e threshold detections = .ok groups →
      Group.HasLeader groups) :
    (locate e ratio threshold copies).result = (locate e ratio threshold detections).result := by
  let axis := Axis.dominant e ratio
  have haxis : OneAxis (Detection.samplesOn e axis detections : List (Sample ℝ)) :=
    Detection.dimension_samplesOn _ _ _
  have hmapped : IsCopied n (Detection.samplesOn e axis detections : List (Sample ℝ))
      (Detection.samplesOn e axis copies) := hcopied.map _
  obtain ⟨groups, anchor, hcluster, hanchor, hlocate⟩ := exists_located ratio he ht hweight
  obtain ⟨groups', anchor', hcluster', hanchor', hlocate'⟩ :=
    exists_located ratio he ht fun d hd => hweight d (hcopied.mem_iff.1 hd)
  have hlead := hleader groups ((groupsOn_eq he hweight).trans hcluster)
  have hsame := ofGroups_copied haxis ht hmapped hcluster hcluster' hlead axis
  rw [hlocate, hlocate', ← hanchor, ← hanchor']
  exact hsame

end Anchor

end Reframe
