import Reframe.Proofs.Mean
import Reframe.Proofs.Cluster.Components

/-!
# Groups by their members

On one axis, over the reals, a group is what chains of links join with any of its members.
Whether a chain joins two samples depends on which samples there are, but neither on their
order nor on how often each is there. So if all samples are given several times over, in
whatever order, the groups are the same ones, each several times over.

* `Cluster.Joined`: a chain of links leads from one sample to another.
* `Cluster.mem_groups_iff`: **groups by their members**.
* `IsCopied`: items, several times over and in any order.
* `IsCopied.joinedWith`, `IsCopied.weightedMean_eq`: **so are groups, with the same means**.
-/

namespace Reframe

section Copies

variable {τ υ : Type} {n : ℕ} {items others : List τ}

/-- The others are the items, `n` times over and in any order. -/
structure IsCopied (n : ℕ) (items others : List τ) : Prop where
  pos : 0 < n
  perm : others.Perm (List.replicate n items).flatten

/-- To be there once over is to be there in any order. -/
theorem isCopied_one_iff : IsCopied 1 items others ↔ others.Perm items := by
  constructor
  · intro h
    simpa using h.perm
  · intro h
    exact ⟨one_pos, by simpa using h⟩

theorem IsCopied.mem_iff (h : IsCopied n items others) {x : τ} : x ∈ others ↔ x ∈ items := by
  rw [h.perm.mem_iff, List.mem_flatten]
  constructor
  · rintro ⟨copy, hcopy, hx⟩
    rwa [List.eq_of_mem_replicate hcopy] at hx
  · intro hx
    exact ⟨items, List.mem_replicate.2 ⟨h.pos.ne', rfl⟩, hx⟩

theorem IsCopied.map (h : IsCopied n items others) (f : τ → υ) :
    IsCopied n (items.map f) (others.map f) := by
  refine ⟨h.pos, (h.perm.map f).trans (.of_eq ?_)⟩
  rw [List.map_flatten, List.map_replicate]

theorem IsCopied.filter (h : IsCopied n items others) (p : τ → Bool) :
    IsCopied n (items.filter p) (others.filter p) := by
  refine ⟨h.pos, (h.perm.filter p).trans (.of_eq ?_)⟩
  rw [List.filter_flatten, List.map_replicate]

theorem IsCopied.sum_map (h : IsCopied n items others) (f : τ → ℝ) :
    (others.map f).sum = n * (items.map f).sum := by
  rw [(h.map f).perm.sum_eq, List.sum_flatten, List.map_replicate, List.sum_replicate,
    nsmul_eq_mul]

end Copies

namespace Cluster

variable {samples : List (Sample ℝ)} {threshold : ℝ} {groups : List (Group ℝ)}
  {s t : Sample ℝ}

/-- Two of the samples, near each other. -/
def Near (samples : List (Sample ℝ)) (threshold : ℝ) (s t : Sample ℝ) : Prop :=
  s ∈ samples ∧ t ∈ samples ∧ |s.place - t.place| ≤ threshold

/-- A chain of links leads from one sample to another. -/
def Joined (samples : List (Sample ℝ)) (threshold : ℝ) : Sample ℝ → Sample ℝ → Prop :=
  Relation.ReflTransGen (Near samples threshold)

theorem Near.symm (h : Near samples threshold s t) : Near samples threshold t s := by
  obtain ⟨hs, ht, hle⟩ := h
  exact ⟨ht, hs, by rwa [abs_sub_comm]⟩

theorem Joined.symm (h : Joined samples threshold s t) : Joined samples threshold t s := by
  induction h with
  | refl => exact .refl
  | tail _ hnear ih => exact .head hnear.symm ih

/-- Links on one axis go by the distance of places, in any arithmetic. -/
theorem linked_iff_apart {α : Type} [Scalar α] {samples : List (Sample α)} {threshold : α}
    (haxis : OneAxis samples) {i j : Fin samples.length} :
    Linked samples threshold i j ↔
      i < j ∧ apart (samples.get i).place (samples.get j).place ≤ threshold := by
  have hi : (samples.get i).point.dimension = 1 := haxis _ (List.get_mem samples i)
  have hj : (samples.get j).point.dimension = 1 := haxis _ (List.get_mem samples j)
  have hdist : (samples.get i).dist (samples.get j) =
      .ok (apart (samples.get i).place (samples.get j).place) := by
    rw [Sample.dist_eq_ok (hi.trans hj.symm), Sample.coordinates_eq hi, Sample.coordinates_eq hj]
    rfl
  unfold Linked
  rw [hdist]
  constructor
  · rintro ⟨hlt, d, heq, hle⟩
    cases heq
    exact ⟨hlt, hle⟩
  · rintro ⟨hlt, hle⟩
    exact ⟨hlt, _, rfl, hle⟩

theorem linked_iff (haxis : OneAxis samples) {i j : Fin samples.length} :
    Linked samples threshold i j ↔
      i < j ∧ |(samples.get i).place - (samples.get j).place| ≤ threshold :=
  linked_iff_apart haxis

/-- Places of near samples are connected, in whatever order they stand. -/
theorem reachable_of_near (haxis : OneAxis samples) {i j : Fin samples.length}
    (h : |(samples.get i).place - (samples.get j).place| ≤ threshold) :
    (linkGraph samples threshold).Reachable i j := by
  rcases lt_trichotomy i j with hlt | rfl | hgt
  · exact Linked.reachable ((linked_iff haxis).2 ⟨hlt, h⟩)
  · exact .refl i
  · rw [abs_sub_comm] at h
    exact (Linked.reachable ((linked_iff haxis).2 ⟨hgt, h⟩)).symm

/-- **Places are connected exactly when a chain joins their samples.** -/
theorem reachable_iff_joined (haxis : OneAxis samples) (ht : 0 ≤ threshold)
    (i j : Fin samples.length) : (linkGraph samples threshold).Reachable i j ↔
      Joined samples threshold (samples.get i) (samples.get j) := by
  constructor
  · rintro ⟨walk⟩
    induction walk with
    | nil => exact .refl
    | @cons i k _ hadj _ ih =>
      have hi := List.get_mem samples i
      have hk := List.get_mem samples k
      obtain ⟨-, hlink⟩ := (SimpleGraph.fromRel_adj _ _ _).1 hadj
      rcases hlink with hlink | hlink
      · exact .head ⟨hi, hk, ((linked_iff haxis).1 hlink).2⟩ ih
      · have hnear : Near samples threshold (samples.get k) (samples.get i) :=
          ⟨hk, hi, ((linked_iff haxis).1 hlink).2⟩
        exact .head hnear.symm ih
  · intro h
    -- at the end of a chain the sample may stand at several places
    suffices hplaces : ∀ t, Joined samples threshold (samples.get i) t → ∀ j, samples.get j = t →
        (linkGraph samples threshold).Reachable i j from hplaces _ h j rfl
    intro t h
    induction h with
    | refl =>
      intro j hj
      refine reachable_of_near haxis ?_
      rw [hj, sub_self, abs_zero]
      exact ht
    | tail _ hnear ih =>
      intro j hj
      obtain ⟨hmem, -, hle⟩ := hnear
      obtain ⟨k, hk⟩ := List.mem_iff_get.1 hmem
      refine (ih k hk).trans (reachable_of_near haxis ?_)
      rw [hk, hj]
      exact hle

open Classical in
/-- The samples that chains join with a sample. -/
noncomputable def joinedWith (samples : List (Sample ℝ)) (threshold : ℝ) (s : Sample ℝ) :
    List (Sample ℝ) :=
  samples.filter fun t => Joined samples threshold s t

/-- **Groups by their members**: each is what chains join with a sample. -/
theorem mem_groups_iff (haxis : OneAxis samples) (ht : IsThreshold threshold)
    (hcluster : cluster samples threshold = .ok groups) {g : Group ℝ} :
    g ∈ groups ↔ ∃ s ∈ samples, g = ⟨joinedWith samples threshold s⟩ := by
  obtain ⟨label, hclasses, hlabel⟩ := exists_cluster ⟨1, haxis⟩ ht
  obtain rfl := Except.ok.inj (hclasses.symm.trans hcluster)
  have hpart : ∀ i, ((List.finRange samples.length).filter (label · = label i)).map samples.get =
      joinedWith samples threshold (samples.get i) := by
    intro i
    have hfilter : ∀ p : Sample ℝ → Bool, samples.filter p =
        ((List.finRange samples.length).filter (p ∘ samples.get)).map samples.get := by
      intro p
      rw [← List.filter_map, List.map_get_finRange]
    rw [joinedWith, hfilter]
    congr 1
    refine List.filter_congr fun j _ => ?_
    rw [Function.comp_apply, decide_eq_decide, eq_comm, hlabel,
      reachable_iff_joined haxis (isThreshold_real.1 ht)]
  rw [List.mem_map]
  constructor
  · rintro ⟨part, hmem, rfl⟩
    obtain ⟨i, -, rfl⟩ := mem_classes_iff.1 hmem
    exact ⟨samples.get i, List.get_mem samples i, congrArg _ (hpart i)⟩
  · rintro ⟨s, hs, rfl⟩
    obtain ⟨i, rfl⟩ := List.mem_iff_get.1 hs
    exact ⟨_, mem_classes_iff.2 ⟨i, List.mem_finRange i, rfl⟩, congrArg _ (hpart i)⟩

end Cluster

section Samples

variable {n : ℕ} {samples others : List (Sample ℝ)} {threshold : ℝ}

/-- Over the reals a mean on one axis is a quotient, or there is none for lack of weight. -/
theorem weightedMean_real (haxis : OneAxis samples) :
    weightedMean samples = if Sample.totalWeight samples ≤ 0.0 then .ok ⟨[]⟩
      else .ok ⟨[Sample.moment samples / Sample.totalWeight samples]⟩ := by
  split
  next hle =>
    cases samples with
    | nil => rfl
    | cons first rest =>
      have hfirst : first.point.dimension = 1 := haxis first List.mem_cons_self
      rw [weightedMean_cons fun s hs => (haxis s hs).trans hfirst.symm, if_pos hle]
  next hpos =>
    have hne : samples ≠ [] := by
      rintro rfl
      refine hpos ?_
      rw [totalWeight_real, zero_real]
      exact le_rfl
    exact (weightedMean_axis haxis).2 ⟨hne, hpos, rfl⟩

namespace IsCopied

theorem oneAxis (h : IsCopied n samples others) (haxis : OneAxis samples) : OneAxis others :=
  fun s hs => haxis s (h.mem_iff.1 hs)

theorem totalWeight_eq (h : IsCopied n samples others) :
    Sample.totalWeight others = n * Sample.totalWeight samples := by
  rw [totalWeight_real, totalWeight_real, h.sum_map]

/-- **Copies have the mean of what they are copies of.** -/
theorem weightedMean_eq (h : IsCopied n samples others) (haxis : OneAxis samples) :
    weightedMean others = weightedMean samples := by
  have hpos : (0 : ℝ) < n := by exact_mod_cast h.pos
  have hmoment : Sample.moment others = n * Sample.moment samples := by
    rw [moment_real, moment_real, h.sum_map]
  have hle : Sample.totalWeight others ≤ 0.0 ↔ Sample.totalWeight samples ≤ 0.0 := by
    rw [h.totalWeight_eq, zero_real, ← not_lt, ← not_lt, mul_pos_iff_of_pos_left hpos]
  rw [weightedMean_real (h.oneAxis haxis), weightedMean_real haxis, hmoment, h.totalWeight_eq,
    mul_div_mul_left _ _ hpos.ne', ← h.totalWeight_eq]
  simp only [hle]

/-- **What chains join with a sample is copied, too.** -/
theorem joinedWith (h : IsCopied n samples others) (threshold : ℝ) (s : Sample ℝ) :
    IsCopied n (Cluster.joinedWith samples threshold s)
      (Cluster.joinedWith others threshold s) := by
  have hnear : Cluster.Near others threshold = Cluster.Near samples threshold := by
    funext s t
    unfold Cluster.Near
    rw [h.mem_iff, h.mem_iff]
  unfold Cluster.joinedWith Cluster.Joined
  rw [hnear]
  exact h.filter _

end IsCopied

end Samples

end Reframe
