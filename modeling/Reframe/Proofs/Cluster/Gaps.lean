import Mathlib.Data.List.SplitBy
import Reframe.Proofs.Cluster.Members
import Reframe.Proofs.Cluster.Partition
import Reframe.Proofs.Number.Distance

/-!
# Clusters on a line

On one axis the groups can be found without looking at all pairs: sort the places and cut
wherever a gap is larger than the threshold. Two places on both sides of a cut are farther
apart than those next to it, so no link leads across, and no chain of links does, however it
jumps back and forth. That takes that distances grow with the differences of places, which
rounded distances do.

* `IsLine`: a graph on a line, whose links go by distance.
* `IsLine.reachable_of_between`: chains pass by everything between their ends.
* `IsLine.isPartition_splitBy`: **cut at the gaps, a sorted list falls into components**.
* `isLine_linkGraph`: what the machine links is such a graph.
* `cluster_cutsAtGaps`: **groups on one axis are the stretches between gaps**.
-/

namespace Reframe.Cluster

section Line

variable {n : Nat} {value : Fin n → ℚ} {near : Fin n → Fin n → Prop} {G : SimpleGraph (Fin n)}
  {i j k l : Fin n}

/-- Places on a line, linked to those that are near, and whatever is closer is near, too. -/
structure IsLine (value : Fin n → ℚ) (near : Fin n → Fin n → Prop) (G : SimpleGraph (Fin n)) :
    Prop where
  adj_iff : ∀ i j, G.Adj i j ↔ i ≠ j ∧ near i j
  near_self : ∀ i, near i i
  closer : ∀ i j k l, |value j - value k| ≤ |value i - value l| → near i l → near j k

namespace IsLine

theorem near_symm (h : IsLine value near G) (hnear : near i j) : near j i :=
  h.closer i j i j (abs_sub_comm _ _).le hnear

/-- What lies between near places is near. -/
theorem near_of_between (h : IsLine value near G) (hij : value i ≤ value j)
    (hjk : value j ≤ value k) (hkl : value k ≤ value l) (hnear : near i l) : near j k := by
  refine h.closer i j k l ?_ hnear
  rw [abs_sub_comm, abs_of_nonneg (by linarith), abs_sub_comm, abs_of_nonneg (by linarith)]
  linarith

theorem reachable (h : IsLine value near G) (hnear : near i j) : G.Reachable i j := by
  by_cases hij : i = j
  · rw [hij]
  · exact ((h.adj_iff i j).2 ⟨hij, hnear⟩).reachable

/-- **Chains pass by everything between their ends**, however they jump back and forth. -/
theorem reachable_of_between (h : IsLine value near G) (hij : G.Reachable i j)
    (hik : value i ≤ value k) (hkj : value k ≤ value j) : G.Reachable i k := by
  obtain ⟨walk⟩ := hij
  induction walk with
  | nil => exact h.reachable (h.near_of_between le_rfl hik hkj (h.near_self _))
  | @cons i m j hadj walk ih =>
    have hnear := ((h.adj_iff i m).1 hadj).2
    by_cases hmk : value m ≤ value k
    · exact hadj.reachable.trans (ih hmk hkj)
    · -- the first link jumps over the place
      exact h.reachable (h.near_of_between le_rfl hik (not_le.1 hmk).le hnear)

/-- Parts of a sorted list that are far from the next part are far from all later parts. -/
theorem pairwise_far (h : IsLine value near G) {parts : List (List (Fin n))}
    (hsorted : parts.flatten.Pairwise fun i j => value i ≤ value j)
    (hcut : parts.IsChain fun p q => ∃ hp hq, ¬ near (p.getLast hp) (q.head hq)) :
    parts.Pairwise fun p q => ∀ i ∈ p, ∀ j ∈ q, ¬ near i j := by
  induction parts with
  | nil => exact .nil
  | cons p rest ih =>
    rw [List.flatten_cons, List.pairwise_append] at hsorted
    obtain ⟨hpart, hrest, hacross⟩ := hsorted
    refine List.pairwise_cons.2 ⟨fun q hq i hi j hj hnear => ?_, ih hrest hcut.tail⟩
    cases rest with
    | nil => exact absurd hq List.not_mem_nil
    | cons next later =>
      obtain ⟨⟨hp, hnext, hfar⟩, -⟩ := List.isChain_cons_cons.1 hcut
      -- the gap after the part lies between the two places
      have hhead : next.head hnext ∈ (next :: later).flatten :=
        List.mem_flatten_of_mem List.mem_cons_self (List.head_mem hnext)
      have hlow : value i ≤ value (p.getLast hp) :=
        hpart.rel_getLast_of_rel_getLast_getLast hi le_rfl
      have hgap : value (p.getLast hp) ≤ value (next.head hnext) :=
        hacross _ (List.getLast_mem hp) _ hhead
      have hhigh : value (next.head hnext) ≤ value j := by
        have hj := List.mem_flatten_of_mem hq hj
        have hfirst := hrest.rel_head_of_rel_head_head hj le_rfl
        rwa [List.head_flatten_eq_head_head] at hfirst
      exact hfar (h.near_of_between hlow hgap hhigh hnear)

/-- Near places are in one part, if members of different parts are not near. -/
theorem eq_of_near (h : IsLine value near G) {parts : List (List (Fin n))} {p q : List (Fin n)}
    (hfar : parts.Pairwise fun p q => ∀ i ∈ p, ∀ j ∈ q, ¬ near i j) (hp : p ∈ parts)
    (hq : q ∈ parts) (hi : i ∈ p) (hj : j ∈ q) (hnear : near i j) : p = q := by
  by_contra hne
  have hsymm : Std.Symm fun p q : List (Fin n) => ∀ i ∈ p, ∀ j ∈ q, ¬ near i j :=
    ⟨fun p q hpq j hj i hi hji => hpq i hi j hj (h.near_symm hji)⟩
  exact hfar.forall hp hq hne i hi j hj hnear

/-- A chain of near places is connected. -/
theorem reachable_of_mem (h : IsLine value near G) {part : List (Fin n)} (hpart : part.IsChain near)
    (hi : i ∈ part) (hj : j ∈ part) : G.Reachable i j := by
  have htrans : Trans G.Reachable G.Reachable G.Reachable := ⟨SimpleGraph.Reachable.trans⟩
  have hsymm : Std.Symm G.Reachable := ⟨fun _ _ => SimpleGraph.Reachable.symm⟩
  have hpairwise := List.isChain_iff_pairwise.1 (hpart.imp fun _ _ => h.reachable)
  exact hpairwise.forall_of_forall (fun i _ => .refl i) hi hj

/-- **Cut at the gaps, a sorted list falls into components.** -/
theorem isPartition_splitBy [DecidableRel near] (h : IsLine value near G) {row : List (Fin n)}
    (hrow : row.Perm (List.finRange n)) (hsorted : row.Pairwise fun i j => value i ≤ value j) :
    IsPartition G (row.splitBy fun i j => near i j) := by
  have hflatten := List.flatten_splitBy (fun i j => decide (near i j)) row
  have hfar := h.pairwise_far (hflatten ▸ hsorted)
    ((List.isChain_getLast_head_splitBy _ row).imp fun p q => by simp)
  set parts := row.splitBy fun i j => near i j
  have hcover : ∀ i, ∃ part ∈ parts, i ∈ part := by
    intro i
    rw [← List.mem_flatten, hflatten, hrow.mem_iff]
    exact List.mem_finRange i
  refine ⟨fun i j => ⟨?_, ?_⟩, fun i => ?_, fun part hp => List.ne_nil_of_mem_splitBy hp⟩
  · rintro ⟨part, hp, hi, hj⟩
    have hpart : part.IsChain near := by simpa using List.isChain_of_mem_splitBy hp
    exact h.reachable_of_mem hpart hi hj
  · rintro ⟨walk⟩
    induction walk with
    | @nil i =>
      obtain ⟨part, hp, hi⟩ := hcover i
      exact ⟨part, hp, hi, hi⟩
    | @cons i m j hadj _ ih =>
      -- a link does not leave the part
      obtain ⟨part, hp, hm, hj⟩ := ih
      obtain ⟨q, hq, hi⟩ := hcover i
      rw [h.eq_of_near hfar hq hp hi hm ((h.adj_iff i m).1 hadj).2] at hi
      exact ⟨part, hp, hi, hj⟩
  · rw [hflatten, hrow.count_eq]
    exact List.count_eq_one_of_mem (List.nodup_finRange n) (List.mem_finRange i)

end IsLine

end Line

section Row

variable {α : Type} [Scalar α]

/-- All samples, by their places in the list, sorted by their places on the axis. -/
structure IsRow (samples : List (Sample α)) (row : List (Fin samples.length)) : Prop where
  perm : row.Perm (List.finRange samples.length)
  sorted : row.Pairwise fun i j => (samples.get i).place ≤ (samples.get j).place

/-- The samples sorted by their places on the axis. -/
def sortedRow (samples : List (Sample α)) : List (Fin samples.length) :=
  (List.finRange samples.length).mergeSort fun i j => (samples.get i).place ≤ (samples.get j).place

/-- A row cut wherever the distance of two neighbours exceeds a threshold. -/
def cutAtGaps (samples : List (Sample α)) (threshold : α) (row : List (Fin samples.length)) :
    List (List (Fin samples.length)) :=
  row.splitBy fun i j => ¬ threshold < apart (samples.get i).place (samples.get j).place

end Row

section Machine

open Binary

variable {samples : List (Sample Float)} {threshold : Float}

/-- Samples at finite places have values. -/
theorem exists_values (hfinite : ∀ s ∈ samples, Scalar.isFinite s.place) :
    ∃ value : Fin samples.length → ℚ, ∀ i, Denotes (samples.get i).place (value i) := by
  have hvalue : ∀ i, ∃ x, Denotes (samples.get i).place x := fun i =>
    exists_rational? (hfinite _ (List.get_mem samples i))
  choose value hvalue using hvalue
  exact ⟨value, hvalue⟩

/-- **What the machine links on one axis** is a graph on a line, though distances are rounded,
and may be infinite. -/
theorem isLine_linkGraph {value : Fin samples.length → ℚ} (haxis : OneAxis samples)
    (hvalue : ∀ i, Denotes (samples.get i).place (value i)) (ht : IsThreshold threshold) :
    IsLine value
      (fun i j => ¬ threshold < apart (samples.get i).place (samples.get j).place)
      (linkGraph samples threshold) := by
  obtain ⟨t, hamount⟩ := exists_amount ht.1 ht.2
  have hself : threshold ≤ threshold := (hamount.denotes.le_iff hamount.denotes).2 le_rfl
  have hgrows : ∀ i j k l, |value j - value k| ≤ |value i - value l| →
      apart (samples.get j).place (samples.get k).place ≤
        apart (samples.get i).place (samples.get l).place :=
    fun i j k l hle => apart_le_apart (hvalue j) (hvalue k) (hvalue i) (hvalue l) hle
  have hnear : ∀ i j, ¬ threshold < apart (samples.get i).place (samples.get j).place ↔
      apart (samples.get i).place (samples.get j).place ≤ threshold :=
    fun i j => not_lt_machine (hgrows i i j j le_rfl) hself
  simp only [hnear]
  refine ⟨fun i j => ?_, fun i => apart_self_le (hvalue i) (hvalue i) hamount,
    fun i j k l hle hil => le_trans_machine (hgrows i j k l hle) hil⟩
  rw [linkGraph, SimpleGraph.fromRel_adj, linked_iff_apart haxis, linked_iff_apart haxis]
  constructor
  · rintro ⟨hne, ⟨-, hle⟩ | ⟨-, hle⟩⟩
    · exact ⟨hne, hle⟩
    · exact ⟨hne, le_trans_machine (hgrows j i j i (abs_sub_comm _ _).le) hle⟩
  · rintro ⟨hne, hle⟩
    refine ⟨hne, ?_⟩
    rcases lt_or_gt_of_ne hne with hlt | hgt
    · exact .inl ⟨hlt, hle⟩
    · exact .inr ⟨hgt, le_trans_machine (hgrows i j i j (abs_sub_comm _ _).le) hle⟩

theorem isRow_sortedRow {value : Fin samples.length → ℚ}
    (hvalue : ∀ i, Denotes (samples.get i).place (value i)) :
    IsRow samples (sortedRow samples) := by
  refine ⟨List.mergeSort_perm _ _, ?_⟩
  have hle : ∀ i j, decide ((samples.get i).place ≤ (samples.get j).place) = true ↔
      value i ≤ value j := fun i j => by rw [decide_eq_true_iff, (hvalue i).le_iff (hvalue j)]
  have hsorted : (sortedRow samples).Pairwise fun i j =>
      decide ((samples.get i).place ≤ (samples.get j).place) = true := by
    apply List.pairwise_mergeSort
    · intro i j k hij hjk
      exact (hle i k).2 (((hle i j).1 hij).trans ((hle j k).1 hjk))
    · intro i j
      rw [Bool.or_eq_true, hle, hle]
      exact le_total _ _
  exact hsorted.imp of_decide_eq_true

/-- **Groups on one axis are the stretches between gaps.** Samples sorted by place, in any
such order, and cut wherever two neighbours are farther apart than the threshold, fall into
the groups, as sets of samples. So whatever lies between two members of a group belongs to
the group, and members of different groups are farther apart than the threshold. -/
theorem cluster_cutsAtGaps (haxis : OneAxis samples)
    (hfinite : ∀ s ∈ samples, Scalar.isFinite s.place) (ht : IsThreshold threshold) :
    ∃ parts : List (List (Fin samples.length)),
      cluster samples threshold = .ok (parts.map (⟨·.map samples.get⟩)) ∧
      IsComponents (linkGraph samples threshold) parts ∧
      IsRow samples (sortedRow samples) ∧
      (∀ row, IsRow samples row →
        ((cutAtGaps samples threshold row).map List.toFinset).Perm (parts.map List.toFinset)) ∧
      (∀ part ∈ parts, ∀ i ∈ part, ∀ j ∈ part, ∀ k,
        (samples.get i).place ≤ (samples.get k).place →
        (samples.get k).place ≤ (samples.get j).place → k ∈ part) ∧
      ∀ p ∈ parts, ∀ q ∈ parts, p ≠ q → ∀ i ∈ p, ∀ j ∈ q,
        threshold < apart (samples.get i).place (samples.get j).place := by
  obtain ⟨parts, hcluster, hparts⟩ := cluster_isComponents ⟨1, haxis⟩ ht
  obtain ⟨value, hvalue⟩ := exists_values hfinite
  have hline := isLine_linkGraph haxis hvalue ht
  have hle : ∀ i j, (samples.get i).place ≤ (samples.get j).place ↔ value i ≤ value j :=
    fun i j => (hvalue i).le_iff (hvalue j)
  refine ⟨parts, hcluster, hparts, isRow_sortedRow hvalue, ?_, ?_, ?_⟩
  · intro row hrow
    have hsorted : row.Pairwise fun i j => value i ≤ value j :=
      hrow.sorted.imp fun hij => (hle _ _).1 hij
    exact (hline.isPartition_splitBy hrow.perm hsorted).perm hparts.isPartition
  · intro part hpart i hi j hj k hik hkj
    have hij := (hparts.isPartition.mem_iff hpart hi).1 hj
    rw [hle] at hik hkj
    exact (hparts.isPartition.mem_iff hpart hi).2 (hline.reachable_of_between hij hik hkj)
  · intro p hp q hq hne i hi j hj
    by_contra hnear
    have hjp := (hparts.isPartition.mem_iff hp hi).2 (hline.reachable hnear)
    exact hne (hparts.isPartition.eq_of_mem hp hq hjp hj)

/-- The four samples of the chain in the order of their places. -/
def chainedRow : List (Fin chained.length) :=
  [⟨0, by decide⟩, ⟨3, by decide⟩, ⟨2, by decide⟩, ⟨1, by decide⟩]

theorem cluster_cutsAtGaps_chained :
    OneAxis chained ∧ (∀ s ∈ chained, Scalar.isFinite s.place) ∧ IsThreshold (0.05 : Float) ∧
      IsRow chained chainedRow ∧
      ∃ parts : List (List (Fin chained.length)),
        cluster chained (0.05 : Float) = .ok (parts.map (⟨·.map chained.get⟩)) ∧
        ((cutAtGaps chained 0.05 chainedRow).map List.toFinset).Perm (parts.map List.toFinset) := by
  have haxis : OneAxis chained := by unfold OneAxis; decide
  have hfinite : ∀ s ∈ chained, Scalar.isFinite s.place := by decide
  have ht : IsThreshold (0.05 : Float) := by decide
  have hrow : IsRow chained chainedRow := ⟨by decide, by decide +kernel⟩
  obtain ⟨parts, hcluster, -, -, hcut, -⟩ := cluster_cutsAtGaps haxis hfinite ht
  exact ⟨haxis, hfinite, ht, hrow, parts, hcluster, hcut _ hrow⟩

example : (cutAtGaps chained 0.05 chainedRow).map (·.map chained.get) =
    [[chained[0], chained[3], chained[2]], [chained[1]]] := by
  decide +kernel

end Machine

end Reframe.Cluster
