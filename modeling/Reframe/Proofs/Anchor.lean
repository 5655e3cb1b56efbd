import Reframe.Anchor
import Reframe.Proofs.Cluster.Components
import Reframe.Proofs.Loop
import Reframe.Proofs.Number.Sign

/-!
# Anchors are found

In a frame with pixels, detections whose weights can serve as weights become samples of
one dimension. Samples of one dimension have groups, groups of such samples have means,
so there is an anchor. It is on the axis that a crop of the frame cuts.

* `weightedMean_eq_ok`: samples of one dimension have a mean.
* `Anchor.locate_eq_ok`: there is an anchor, and the groups are shown once.
* `Anchor.axis_locate`: the axis of an anchor.
-/

namespace Reframe

variable {α : Type} [Scalar α] {e : Extent} {axis : Axis} {d : Detection}

/-- Where a detection lies on an axis of a frame. -/
def Detection.fractionOn (e : Extent) (axis : Axis) (d : Detection) : α :=
  match axis with
  | .horizontal => fractionOf e.width d.spot.x
  | .vertical => fractionOf e.height d.spot.y

/-- A detection as a sample of one axis. -/
def Detection.onAxis (e : Extent) (axis : Axis) (d : Detection) : Sample α :=
  ⟨⟨[d.fractionOn e axis]⟩, d.weight⟩

theorem Detection.sampleOn_eq_ok (he : ¬ e.IsEmpty) (hd : Sample.IsWeight (d.weight : α)) :
    d.sampleOn e axis = .ok (d.onAxis e axis : Sample α) := by
  have hsample : d.sample e = .ok
      ⟨⟨[fractionOf e.width d.spot.x, fractionOf e.height d.spot.y]⟩, (d.weight : α)⟩ := by
    rw [Detection.sample, if_neg he, Sample.ofWeight, if_pos hd]
  rw [Detection.sampleOn, hsample]
  cases axis <;> rfl

/-- Detections as samples of one axis. -/
def Detection.samplesOn (e : Extent) (axis : Axis) (detections : List Detection) :
    List (Sample α) :=
  detections.map (·.onAxis e axis)

/-- Detections with weights become samples. -/
theorem Detection.samplesOn_eq_ok {detections : List Detection}
    (h : ∀ d ∈ detections, ¬ e.IsEmpty ∧ Sample.IsWeight (d.weight : α)) :
    detections.mapM (·.sampleOn e axis) = .ok (samplesOn e axis detections : List (Sample α)) :=
  mapM_eq_ok fun d hd => sampleOn_eq_ok (h d hd).1 (h d hd).2

theorem Detection.dimension_samplesOn (e : Extent) (axis : Axis) (detections : List Detection) :
    ∀ s ∈ (samplesOn e axis detections : List (Sample α)), s.point.dimension = 1 := by
  intro s hs
  obtain ⟨d, -, rfl⟩ := List.mem_map.1 hs
  rfl

/-- The mean of samples of one dimension, once none is refused. -/
theorem weightedMean_cons {first : Sample α} {rest : List (Sample α)}
    (h : ∀ s ∈ first :: rest, s.point.dimension = first.point.dimension) :
    weightedMean (first :: rest) =
      if Sample.totalWeight (first :: rest) ≤ 0.0 then .ok ⟨[]⟩
      else .ok ⟨(weightedSums first.point.dimension (first :: rest)).map
        (· / Sample.totalWeight (first :: rest))⟩ := by
  have hcheck : (first :: rest).forM (fun s =>
      (Point.sameDimension first.point.dimension s.point.dimension : Except (Failure α) Unit)) =
      .ok ⟨⟩ := forM_eq_ok fun s hs => if_pos (h s hs).symm
  unfold weightedMean
  dsimp only
  rw [hcheck]
  rfl

/-- **Samples of one dimension have a mean.** -/
theorem weightedMean_eq_ok {samples : List (Sample α)} (hd : OneDimension samples) :
    ∃ p, weightedMean samples = .ok p := by
  obtain ⟨n, hn⟩ := hd
  cases samples with
  | nil => exact ⟨_, rfl⟩
  | cons first rest =>
    rw [weightedMean_cons fun s hs => by rw [hn s hs, hn first List.mem_cons_self]]
    split <;> exact ⟨_, rfl⟩

namespace Anchor

variable {groups : List (Group α)} {anchor : Anchor α}

/-- An anchor is on the axis it was looked for. -/
theorem axis_ofGroups (h : ofGroups axis groups = .ok anchor) : anchor.axis = axis := by
  unfold ofGroups at h
  split at h
  · cases h
    rfl
  · obtain ⟨mean, -, h⟩ := ok_of_bind h
    split at h
    · cases h
      rfl
    · cases h
      rfl

/-- Groups of samples of one dimension have an anchor. -/
theorem ofGroups_eq_ok (h : ∀ g ∈ groups, OneDimension g.members) (axis : Axis) :
    ∃ anchor, ofGroups axis groups = .ok anchor := by
  unfold ofGroups
  split
  · exact ⟨_, rfl⟩
  next heaviest rest hrank =>
    have hmem : heaviest ∈ groups := by
      have hrank' : heaviest ∈ Group.rankByWeight groups := by
        rw [hrank]
        exact List.mem_cons_self
      exact (descending_perm _ _ groups).mem_iff.1 hrank'
    obtain ⟨mean, hmean⟩ := weightedMean_eq_ok (h heaviest hmem)
    have hmean : heaviest.mean = .ok mean := hmean
    rw [hmean]
    simp only [bind, Except.bind]
    split
    · exact ⟨_, rfl⟩
    · exact ⟨_, rfl⟩

/-- The groups of detections with weights are those of their samples. -/
theorem groupsOn_eq {threshold : α} {detections : List Detection} (he : ¬ e.IsEmpty)
    (hd : ∀ d ∈ detections, Sample.IsWeight (d.weight : α)) :
    groupsOn axis e threshold detections =
      cluster (Detection.samplesOn e axis detections) threshold := by
  rw [groupsOn, Detection.samplesOn_eq_ok fun d hmem => ⟨he, hd d hmem⟩]
  rfl

/-- Detections with weights have groups, of samples on the axis. -/
theorem groupsOn_eq_ok (axis : Axis) {threshold : α} {detections : List Detection}
    (he : ¬ e.IsEmpty) (ht : IsThreshold threshold)
    (hd : ∀ d ∈ detections, Sample.IsWeight (d.weight : α)) :
    ∃ groups : List (Group α), groupsOn axis e threshold detections = .ok groups ∧
      ∀ g ∈ groups, OneDimension g.members := by
  have hdim := Detection.dimension_samplesOn (α := α) e axis detections
  obtain ⟨label, hcluster, -⟩ := Cluster.exists_cluster ⟨1, hdim⟩ ht
  refine ⟨_, (groupsOn_eq he hd).trans hcluster, fun g hg => ⟨1, fun s hs => ?_⟩⟩
  obtain ⟨part, -, rfl⟩ := List.mem_map.1 hg
  obtain ⟨i, -, rfl⟩ := List.mem_map.1 hs
  exact hdim _ (List.get_mem _ i)

/-- How detections are located: the groups of their samples are shown, and have an anchor. -/
theorem exists_located (ratio : α) {threshold : α} {detections : List Detection}
    (he : ¬ e.IsEmpty) (ht : IsThreshold threshold)
    (hd : ∀ d ∈ detections, Sample.IsWeight (d.weight : α)) :
    ∃ groups anchor,
      cluster (Detection.samplesOn e (Axis.dominant e ratio) detections) threshold = .ok groups ∧
      ofGroups (Axis.dominant e ratio) groups = .ok anchor ∧
      locate e ratio threshold detections = ⟨[groups], .ok anchor⟩ := by
  obtain ⟨groups, hgroups, hdim⟩ := groupsOn_eq_ok (Axis.dominant e ratio) he ht hd
  obtain ⟨anchor, hanchor⟩ := ofGroups_eq_ok hdim (Axis.dominant e ratio)
  refine ⟨groups, anchor, (groupsOn_eq he hd).symm.trans hgroups, hanchor, ?_⟩
  unfold locate
  extract_lets axis
  rw [hgroups, ← hanchor]

/-- **There is an anchor**, and the groups are shown once. -/
theorem locate_eq_ok (ratio : α) {threshold : α} {detections : List Detection} (he : ¬ e.IsEmpty)
    (ht : IsThreshold threshold) (hd : ∀ d ∈ detections, Sample.IsWeight (d.weight : α)) :
    ∃ groups anchor, locate e ratio threshold detections = ⟨[groups], .ok anchor⟩ := by
  obtain ⟨groups, anchor, -, -, hlocate⟩ := exists_located ratio he ht hd
  exact ⟨groups, anchor, hlocate⟩

/-- An anchor comes from groups. -/
theorem exists_groups {ratio threshold : α} {detections : List Detection}
    (h : (locate e ratio threshold detections).result = .ok anchor) :
    ∃ groups, groupsOn (Axis.dominant e ratio) e threshold detections = .ok groups ∧
      ofGroups (Axis.dominant e ratio) groups = .ok anchor := by
  unfold locate at h
  extract_lets axis at h
  cases hgroups : groupsOn axis e threshold detections with
  | error failure =>
    rw [hgroups] at h
    cases h
  | ok groups =>
    rw [hgroups] at h
    exact ⟨groups, rfl, h⟩

/-- **An anchor is on the axis that a crop of its frame cuts.** -/
theorem axis_locate {ratio threshold : α} {detections : List Detection}
    (h : (locate e ratio threshold detections).result = .ok anchor) :
    anchor.axis = Axis.dominant e ratio := by
  obtain ⟨groups, -, hanchor⟩ := exists_groups h
  exact axis_ofGroups hanchor

end Anchor

end Reframe
