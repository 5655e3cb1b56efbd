import Reframe.Proofs.Cluster.Components
import Reframe.Proofs.Number.Extended

/-!
# Clusters at two thresholds

The groups of two runs come from forests that grew on their own, with other shapes and other
roots. But groups are the connected components of a graph, and a graph has only one partition
into components, however its parts and their members are listed. With a larger threshold the
graph has more links, so its components are unions of components of the smaller graph.

* `IsPartition`: a list of parts that are the connected components, in any order.
* `IsPartition.perm`: **partitions of one graph differ in order only**.
* `IsComponents.eq`: in the order of the list they do not differ.
* `IsPartition.existsUnique_whole`, `IsPartition.length_le`: more links, larger parts and no
  more of them.
* `linkGraph_mono`: a larger threshold links more.
* `cluster_coarsens`: **groups merge as the threshold grows**.
-/

namespace Reframe.Cluster

section Parts

variable {n : Nat} {G H : SimpleGraph (Fin n)} {parts others fine coarse : List (List (Fin n))}
  {p q : List (Fin n)} {i j : Fin n}

/-- The parts are the connected components of a graph, in any order. -/
structure IsPartition (G : SimpleGraph (Fin n)) (parts : List (List (Fin n))) : Prop where
  joined_iff : ∀ i j, (∃ part ∈ parts, i ∈ part ∧ j ∈ part) ↔ G.Reachable i j
  once : ∀ i, parts.flatten.count i = 1
  nonempty : ∀ part ∈ parts, part ≠ []

theorem IsComponents.isPartition (h : IsComponents G parts) : IsPartition G parts :=
  ⟨h.joined_iff, h.once, h.nonempty⟩

namespace IsPartition

theorem exists_mem (h : IsPartition G parts) (i : Fin n) : ∃ part ∈ parts, i ∈ part := by
  obtain ⟨part, hpart, hi, -⟩ := (h.joined_iff i i).2 (.refl i)
  exact ⟨part, hpart, hi⟩

theorem pairwise_disjoint (h : IsPartition G parts) : parts.Pairwise List.Disjoint := by
  have hnodup : parts.flatten.Nodup := List.nodup_iff_count_le_one.2 fun i => (h.once i).le
  exact (List.nodup_flatten.1 hnodup).2

/-- Parts with a common member are the same. -/
theorem eq_of_mem (h : IsPartition G parts) (hp : p ∈ parts) (hq : q ∈ parts) (hip : i ∈ p)
    (hiq : i ∈ q) : p = q := by
  by_contra hne
  have hsymm : Std.Symm (List.Disjoint : List (Fin n) → List (Fin n) → Prop) :=
    ⟨fun _ _ hdisjoint => hdisjoint.symm⟩
  exact h.pairwise_disjoint.forall hp hq hne hip hiq

/-- A part is what chains of links join with any of its members. -/
theorem mem_iff (h : IsPartition G parts) (hp : p ∈ parts) (hi : i ∈ p) :
    j ∈ p ↔ G.Reachable i j := by
  rw [← h.joined_iff]
  constructor
  · intro hj
    exact ⟨p, hp, hi, hj⟩
  · rintro ⟨q, hq, hiq, hjq⟩
    rwa [h.eq_of_mem hp hq hi hiq]

theorem exists_member (h : IsPartition G parts) (hp : p ∈ parts) : ∃ i, i ∈ p :=
  List.exists_mem_of_ne_nil p (h.nonempty p hp)

/-- The parts are different sets. -/
theorem nodup_toFinset (h : IsPartition G parts) : (parts.map List.toFinset).Nodup := by
  refine (h.pairwise_disjoint.imp_of_mem ?_).map _ fun _ _ => id
  intro p q hp _ hdisjoint heq
  obtain ⟨i, hi⟩ := h.exists_member hp
  have hiq : i ∈ q.toFinset := heq ▸ List.mem_toFinset.2 hi
  exact hdisjoint hi (List.mem_toFinset.1 hiq)

theorem mem_map_toFinset (h : IsPartition G parts) {s : Finset (Fin n)} :
    s ∈ parts.map List.toFinset ↔ ∃ i, ∀ j, j ∈ s ↔ G.Reachable i j := by
  rw [List.mem_map]
  constructor
  · rintro ⟨p, hp, rfl⟩
    obtain ⟨i, hi⟩ := h.exists_member hp
    exact ⟨i, fun j => List.mem_toFinset.trans (h.mem_iff hp hi)⟩
  · rintro ⟨i, hs⟩
    obtain ⟨p, hp, hi⟩ := h.exists_mem i
    refine ⟨p, hp, Finset.ext fun j => ?_⟩
    rw [List.mem_toFinset, hs, h.mem_iff hp hi]

/-- **Partitions of one graph differ in order only.** -/
theorem perm (h : IsPartition G parts) (h' : IsPartition G others) :
    (parts.map List.toFinset).Perm (others.map List.toFinset) := by
  rw [List.perm_ext_iff_of_nodup h.nodup_toFinset h'.nodup_toFinset]
  intro s
  rw [h.mem_map_toFinset, h'.mem_map_toFinset]

/-- **With more links, every part is inside a single one.** -/
theorem existsUnique_whole (hfine : IsPartition G fine) (hcoarse : IsPartition H coarse)
    (hle : G ≤ H) (hp : p ∈ fine) : ∃! whole, whole ∈ coarse ∧ p ⊆ whole := by
  obtain ⟨i, hi⟩ := hfine.exists_member hp
  obtain ⟨whole, hwhole, hiw⟩ := hcoarse.exists_mem i
  refine ⟨whole, ⟨hwhole, fun j hj => ?_⟩, ?_⟩
  · rw [hcoarse.mem_iff hwhole hiw]
    exact ((hfine.mem_iff hp hi).1 hj).mono hle
  · rintro other ⟨hother, hsub⟩
    exact hcoarse.eq_of_mem hother hwhole (hsub hi) hiw

/-- **With more links, there are no more parts.** -/
theorem length_le (hfine : IsPartition G fine) (hcoarse : IsPartition H coarse) (hle : G ≤ H) :
    coarse.length ≤ fine.length := by
  choose! whole hwhole _ using fun p (hp : p ∈ fine) =>
    hfine.existsUnique_whole hcoarse hle hp
  -- every part of the coarse partition is the whole around a part of the fine one
  have hcover : coarse ⊆ fine.map whole := by
    intro q hq
    obtain ⟨i, hi⟩ := hcoarse.exists_member hq
    obtain ⟨p, hp, hip⟩ := hfine.exists_mem i
    obtain ⟨hin, hsub⟩ := hwhole p hp
    exact List.mem_map.2 ⟨p, hp, hcoarse.eq_of_mem hin hq (hsub hip) hi⟩
  have hnodup : coarse.Nodup := hcoarse.nodup_toFinset.of_map _
  simpa using (List.subperm_of_subset hnodup hcover).length_le

end IsPartition

/-- Components are told by what chains of links join, whatever the links. -/
theorem IsComponents.congr (h : IsComponents G parts)
    (hsame : ∀ i j, G.Reachable i j ↔ H.Reachable i j) : IsComponents H parts :=
  { h with joined_iff := fun i j => (h.joined_iff i j).trans (hsame i j) }

/-- **In the order of the list a graph has one list of components.** -/
theorem IsComponents.eq (h : IsComponents G parts) (h' : IsComponents G others) :
    parts = others := by
  -- the members of a part come in order, so a part can be told from its set
  have hsort : ∀ {ps : List (List (Fin n))}, IsComponents G ps →
      (ps.map List.toFinset).map (fun s => s.sort (· ≤ ·)) = ps := by
    intro ps hps
    rw [List.map_map]
    calc ps.map ((fun s => s.sort (· ≤ ·)) ∘ List.toFinset) = ps.map id :=
          List.map_congr_left fun p hp =>
            (List.toFinset_sort (· ≤ ·) ((hps.members_sorted p hp).imp ne_of_lt)).2
              ((hps.members_sorted p hp).imp le_of_lt)
      _ = ps := List.map_id ps
  have hperm : parts.Perm others := by
    rw [← hsort h, ← hsort h']
    exact (h.isPartition.perm h'.isPartition).map _
  -- and parts come in the order of their first members
  refine hperm.eq_of_pairwise (fun p q hp hq hpq hqp => ?_) h.parts_sorted h'.parts_sorted
  obtain ⟨i, p, rfl⟩ := List.exists_cons_of_ne_nil (h.nonempty p hp)
  obtain ⟨j, q, rfl⟩ := List.exists_cons_of_ne_nil (h'.nonempty q hq)
  exact absurd (hpq i rfl j rfl) (hqp j rfl i rfl).asymm

end Parts

/-- **A larger threshold links more.** -/
theorem linkGraph_mono {α : Type} [Scalar α] (samples : List (Sample α)) {small large : α}
    (h : ∀ d, d ≤ small → d ≤ large) : linkGraph samples small ≤ linkGraph samples large := by
  have hlinked : ∀ i j, Linked samples small i j → Linked samples large i j := by
    rintro i j ⟨hlt, d, hdist, hle⟩
    exact ⟨hlt, d, hdist, h d hle⟩
  intro i j hadj
  rw [linkGraph, SimpleGraph.fromRel_adj] at hadj ⊢
  exact ⟨hadj.1, hadj.2.imp (hlinked i j) (hlinked j i)⟩

/-- **Groups merge as the threshold grows**: with a larger threshold every group is inside a
single one, by the places of its members, and there are no more groups. Coordinates are any
machine numbers, even such that have no distance. -/
theorem cluster_coarsens {samples : List (Sample Float)} {small large : Float}
    (hd : OneDimension samples) (hsmall : IsThreshold small) (hlarge : IsThreshold large)
    (hle : small ≤ large) :
    ∃ fine coarse : List (List (Fin samples.length)),
      cluster samples small = .ok (fine.map (⟨·.map samples.get⟩)) ∧
      cluster samples large = .ok (coarse.map (⟨·.map samples.get⟩)) ∧
      IsComponents (linkGraph samples small) fine ∧
      IsComponents (linkGraph samples large) coarse ∧
      (∀ part ∈ fine, ∃! whole, whole ∈ coarse ∧ part ⊆ whole) ∧
      coarse.length ≤ fine.length := by
  obtain ⟨fine, hcluster, hfine⟩ := cluster_isComponents hd hsmall
  obtain ⟨coarse, hcluster', hcoarse⟩ := cluster_isComponents hd hlarge
  have hmono : linkGraph samples small ≤ linkGraph samples large :=
    linkGraph_mono samples fun d hsmaller => Binary.le_trans_machine hsmaller hle
  have hfine' := hfine.isPartition
  have hcoarse' := hcoarse.isPartition
  exact ⟨fine, coarse, hcluster, hcluster', hfine, hcoarse,
    fun part hpart => hfine'.existsUnique_whole hcoarse' hmono hpart,
    hfine'.length_le hcoarse' hmono⟩

theorem cluster_coarsens_chained :
    OneDimension chained ∧ IsThreshold (0.05 : Float) ∧ IsThreshold (1.0 : Float) ∧
      (0.05 : Float) ≤ 1.0 ∧
      ∃ fine coarse : List (List (Fin chained.length)),
        cluster chained (0.05 : Float) = .ok (fine.map (⟨·.map chained.get⟩)) ∧
        cluster chained (1.0 : Float) = .ok (coarse.map (⟨·.map chained.get⟩)) ∧
        IsComponents (linkGraph chained 0.05) fine ∧
        IsComponents (linkGraph chained 1.0) coarse ∧
        (∀ part ∈ fine, ∃! whole, whole ∈ coarse ∧ part ⊆ whole) ∧
        coarse.length ≤ fine.length :=
  have hd : OneDimension chained := ⟨1, by decide⟩
  have hsmall : IsThreshold (0.05 : Float) := by decide
  have hlarge : IsThreshold (1.0 : Float) := by decide
  have hle : (0.05 : Float) ≤ 1.0 := by decide
  ⟨hd, hsmall, hlarge, hle, cluster_coarsens hd hsmall hlarge hle⟩

example : cluster chained (1.0 : Float) =
    .ok [⟨[chained[0], chained[1], chained[2], chained[3]]⟩] := by
  decide +kernel

end Reframe.Cluster
