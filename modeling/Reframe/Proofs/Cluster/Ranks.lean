import Reframe.Proofs.Cluster.Trees

/-!
# Ranks keep the trees flat

A root of rank `r` has at least `2 ^ r` nodes in its tree, because a rank rises only
when two trees of that rank become one. So a forest is too small for its ranks to
reach the bound at which they stop growing, ranks grow along all links, and a walk
takes no more steps than the logarithm of the number of nodes.

* `Ranked`: ranks and roots that fit each other; `Ranked.find` and `Ranked.join` keep it.
* `Ranked.rank_lt_of_tie`: a rank that rises is never cut off.
* `Ranked.isBalanced`: what this says about the links, the trees and the ranks.
* `Ranked.finds`: what a walk gives, how soon, and what it leaves alone.
-/

namespace Reframe.Forest

open Finset

variable {f : Forest} {root : Nat → Nat}

/-- **A part that receives another** has the nodes of both. -/
theorem card_part_winner {loser winner : Nat} (n : Nat) (hne : loser ≠ winner) :
    #(part n (merge root loser winner) winner) =
      #(part n root loser) + #(part n root winner) := by
  rw [← card_union_of_disjoint]
  · congr 1
    ext i
    simp only [mem_union, mem_part, merge]
    split <;> omega
  · rw [disjoint_left]
    intro i hl hw
    rw [mem_part] at hl hw
    omega

/-- All other parts but the one that is given away stay as they are. -/
theorem part_other {loser winner r : Nat} (n : Nat) (hl : r ≠ loser) (hw : r ≠ winner) :
    part n (merge root loser winner) r = part n root r := by
  ext i
  simp only [mem_part, merge]
  split <;> omega

/-- No part has more nodes than there are. -/
theorem card_part_le (n r : Nat) : #(part n root r) ≤ n := by
  simpa [part] using card_filter_le (range n) (root · = r)

/-- Ranks that grow along the links do so after the rank of a root has risen. -/
theorem Rooted.ascending_raise (h : f.Rooted root f.rank) {w : Nat} (hw : f.IsRoot w)
    (hws : w < f.ranks.size) (hcounted : f.rank w < maxRank) :
    (f.raise w).Rooted root (f.raise w).rank := by
  have hrank := rank_raise f hws
  rw [min_eq_right (by omega)] at hrank
  refine { h.raise w with height_lt := fun i hi => ?_ }
  have hgrows : f.rank i < f.rank (f.parent i) := h.height_lt i hi
  have hne : i ≠ w := fun hiw => hi (hiw ▸ hw)
  rw [hrank i, if_neg hne, parent_raise, hrank]
  split
  next hp => rw [hp] at hgrows; omega
  next => exact hgrows

/-- The ranks fit the roots. Up to the size at which a rank could be cut off they are
heights, and at every size a root has a tree large enough for its rank. -/
structure Ranked (f : Forest) (root : Nat → Nat) : Prop where
  ranks_size : f.ranks.size = f.size
  rooted : ∃ height, f.Rooted root height
  ascending : f.size < 2 ^ (maxRank + 1) → f.Rooted root f.rank
  two_pow_le : ∀ r < f.size, f.IsRoot r → 2 ^ f.rank r ≤ #(part f.size root r)

/-- At first every node is a tree of its own, of rank 0. -/
theorem ranked_singletons (n : Nat) : (singletons n).Ranked id := by
  have hrank : ∀ i, (singletons n).rank i = 0 := by
    intro i
    by_cases hi : i < n <;> simp [rank, singletons, hi]
  have hrooted := rooted_singletons n
  refine ⟨by simp [singletons, size], ⟨_, hrooted⟩, fun _ => ?_, fun r hr _ => ?_⟩
  · exact { hrooted with height_lt := fun i hi => absurd (hrooted.isRoot_iff.2 rfl) hi }
  · rw [hrank, pow_zero, Nat.one_le_iff_ne_zero, ← Nat.pos_iff_ne_zero, card_pos]
    exact ⟨r, mem_part.2 ⟨hr, rfl⟩⟩

namespace Ranked

/-- **Finding** changes no rank and no root. -/
theorem find (h : f.Ranked root) (i : Nat) : (f.find i).2.Ranked root := by
  obtain ⟨height, hr⟩ := h.rooted
  have hr' := (hr.find i).2
  refine ⟨by rw [ranks_find, size_find, h.ranks_size], ⟨height, hr'⟩, fun hsize => ?_,
    fun r hlt hroot => ?_⟩
  · rw [size_find] at hsize
    rw [rank_find]
    exact ((h.ascending hsize).find i).2
  · rw [size_find] at hlt ⊢
    rw [rank_find]
    exact h.two_pow_le r hlt (hr.isRoot_iff.2 (hr'.isRoot_iff.1 hroot))

/-- **Hanging** a root below another keeps ranks that fit, if the rank of the other is
larger and not too large for both trees together. -/
theorem hang {height : Nat → Nat} (hr : f.Rooted root height) (hranks : f.ranks.size = f.size)
    {loser winner : Nat} (hlw : f.Apart loser winner)
    (hup : f.size < 2 ^ (maxRank + 1) → f.Rooted root f.rank ∧ f.rank loser < f.rank winner)
    (hothers : ∀ r < f.size, f.IsRoot r → r ≠ winner → 2 ^ f.rank r ≤ #(part f.size root r))
    (hwinner : 2 ^ f.rank winner ≤ #(part f.size root loser) + #(part f.size root winner)) :
    (f.setParent loser winner).Ranked (merge root loser winner) := by
  obtain ⟨height', hr'⟩ := hr.exists_hang hlw
  refine ⟨by simpa [Forest.setParent, size] using hranks, ⟨height', hr'⟩, fun hsize => ?_,
    fun r hlt hroot => ?_⟩
  · rw [size_setParent] at hsize
    obtain ⟨hrank, hlt⟩ := hup hsize
    exact hrank.hang hlw hrank.height_lt hlt
  · rw [size_setParent] at hlt ⊢
    rw [rank_setParent]
    -- the node that was hung is no root any more
    have hne : r ≠ loser := by
      rintro rfl
      rw [IsRoot, parent_setParent f hlw.left_lt, if_pos rfl] at hroot
      exact hlw.ne hroot.symm
    by_cases hw : r = winner
    · rw [hw, card_part_winner _ hlw.ne]
      exact hwinner
    · rw [part_other _ hne hw]
      refine hothers r hlt ?_ hw
      rwa [IsRoot, parent_setParent f hlw.left_lt, if_neg hne] at hroot

/-- Two roots of one rank have twice as many nodes as a root of that rank needs. -/
theorem two_pow_succ_le (h : f.Ranked root) {a b : Nat} (hab : f.Apart a b)
    (htie : f.rank a = f.rank b) :
    2 ^ (f.rank b + 1) ≤ #(part f.size root a) + #(part f.size root b) := by
  have ha := h.two_pow_le a hab.left_lt hab.left
  have hb := h.two_pow_le b hab.right_lt hab.right
  rw [htie] at ha
  rw [pow_succ]
  omega

/-- **No rank is cut off**: the rank that two roots share is still below the largest one
that is counted, so the next one is counted too. -/
theorem rank_lt_of_tie (h : f.Ranked root) (hsize : f.size < 2 ^ (maxRank + 1)) {a b : Nat}
    (hab : f.Apart a b) (htie : f.rank a = f.rank b) : f.rank b < maxRank := by
  have hpow := h.two_pow_succ_le hab htie
  rw [← card_part_winner _ hab.ne] at hpow
  have hlt : f.rank b + 1 < maxRank + 1 :=
    (Nat.pow_lt_pow_iff_right (by omega)).1 ((hpow.trans (card_part_le _ _)).trans_lt hsize)
  omega

/-- **Linking two roots** keeps ranks that fit. -/
theorem link (h : f.Ranked root) {a b : Nat} (hab : f.Apart a b) :
    ∃ loser winner, ((loser = a ∧ winner = b) ∨ (loser = b ∧ winner = a)) ∧
      (f.link a b).Ranked (merge root loser winner) := by
  obtain ⟨height, hr⟩ := h.rooted
  obtain ⟨loser, winner, hwho, hlw, hlink⟩ := hab.link_cases
  refine ⟨loser, winner, hwho, ?_⟩
  rcases hlink with ⟨hlt, heq⟩ | ⟨htie, heq⟩
  · have hw := h.two_pow_le winner hlw.right_lt hlw.right
    rw [heq]
    exact hang hr h.ranks_size hlw (fun hsize => ⟨h.ascending hsize, hlt⟩)
      (fun r hlt hroot _ => h.two_pow_le r hlt hroot) (by omega)
  · -- the rank may rise before the root is hung: the two changes do not touch each other
    have hswap : (f.setParent loser winner).raise winner =
        (f.raise winner).setParent loser winner := rfl
    have hws : winner < f.ranks.size := by rw [h.ranks_size]; exact hlw.right_lt
    have hrank := rank_raise f hws
    rw [heq, hswap]
    refine hang (hr.raise winner) (by simpa [raise, size] using h.ranks_size)
      ⟨hlw.left, hlw.right, hlw.ne, hlw.left_lt, hlw.right_lt⟩ (fun hsize => ?_)
      (fun r hlt hroot hne => ?_) ?_
    · have hcounted := h.rank_lt_of_tie hsize hlw htie
      refine ⟨(h.ascending hsize).ascending_raise hlw.right hws hcounted, ?_⟩
      rw [hrank, if_neg hlw.ne, hrank, if_pos rfl, min_eq_right (by omega)]
      omega
    · rw [hrank, if_neg hne]
      exact h.two_pow_le r hlt hroot
    · rw [hrank, if_pos rfl]
      exact (Nat.pow_le_pow_right (by omega) (min_le_right _ _)).trans
        (h.two_pow_succ_le hlw htie)

/-- **Joining two nodes** keeps ranks that fit, and merges the classes of the two. -/
theorem join (h : f.Ranked root) {a b : Nat} (ha : a < f.size) (hb : b < f.size) :
    ∃ root', (f.join a b).Ranked root' ∧ ∀ i j, root' i = root' j ↔ Merged root a b i j := by
  obtain ⟨height, hr⟩ := h.rooted
  have h2 := (h.find a).find b
  rcases hr.join_cases ha hb with ⟨heq, hj⟩ | ⟨hab, hj⟩
  · rw [hj]
    exact ⟨root, h2, fun i j => by unfold Merged; omega⟩
  · obtain ⟨loser, winner, hwho, hlink⟩ := h2.link hab
    rw [hj]
    exact ⟨_, hlink, merge_eq_iff hwho⟩

/-- The rank of a root is at most the logarithm of the number of nodes. -/
theorem rank_root_le (h : f.Ranked root) {i : Nat} (hi : i < f.size) :
    f.rank (root i) ≤ Nat.log 2 f.size := by
  obtain ⟨height, hr⟩ := h.rooted
  have hpow := h.two_pow_le (root i) (hr.root_lt hi) (hr.isRoot_root i)
  exact Nat.le_log_of_pow_le (by omega) (hpow.trans (card_part_le _ _))

end Ranked

/-- A forest whose links go up, whose trees are a partition of the nodes, and whose ranks
are small for its trees. Below the given sizes, which no stored forest reaches, no rank
that should rise is cut off, and none even gets as far as the largest one. -/
structure IsBalanced (f : Forest) : Prop where
  parent_lt : ∀ i < f.size, f.parent i < f.size
  acyclic : ∀ i k, f.parent^[k + 1] i = i → f.IsRoot i
  existsUnique_root : ∀ i < f.size, ∃! r, f.IsRoot r ∧ i ∈ f.tree r
  two_pow_rank_le : ∀ r < f.size, f.IsRoot r → 2 ^ f.rank r ≤ #(f.tree r)
  rank_lt : f.size < 2 ^ (maxRank + 1) → ∀ i, ¬ f.IsRoot i → f.rank i < f.rank (f.parent i)
  rank_lt_maxRank : f.size < 2 ^ maxRank → ∀ i < f.size, f.rank i < maxRank

/-- **Ranks that fit** make a balanced forest. -/
theorem Ranked.isBalanced (h : f.Ranked root) : f.IsBalanced := by
  obtain ⟨height, hr⟩ := h.rooted
  refine ⟨hr.parent_lt, fun i k => hr.acyclic, fun i => hr.existsUnique_root, fun r hlt hroot => ?_,
    fun hsize => (h.ascending hsize).height_lt, fun hsize i hi => ?_⟩
  · rw [hr.tree_eq hroot]
    exact h.two_pow_le r hlt hroot
  · have hasc := h.ascending (hsize.trans (Nat.pow_lt_pow_right (by omega) (by omega)))
    calc f.rank i ≤ f.rank (root i) := hasc.height_le_root i
      _ ≤ Nat.log 2 f.size := h.rank_root_le hi
      _ < maxRank := Nat.log_lt_of_lt_pow (by omega) hsize

/-- What the walk from a node does: it is over after as many steps as the forest has
nodes, or sooner while no rank is cut off; it ends at the root whose tree holds the
node; and it changes no rank, no root and no tree of a root. -/
structure Finds (f : Forest) (i : Nat) : Prop where
  climb_eq : ∀ fuel, f.size ≤ fuel → f.climb fuel i = f.find i
  climb_eq_of_log : f.size < 2 ^ (maxRank + 1) →
    ∀ fuel, Nat.log 2 f.size ≤ fuel → f.climb fuel i = f.find i
  isRoot : f.IsRoot (f.find i).1
  mem_tree : i ∈ f.tree (f.find i).1
  ranks_eq : (f.find i).2.ranks = f.ranks
  isRoot_iff : ∀ j, (f.find i).2.IsRoot j ↔ f.IsRoot j
  tree_eq : ∀ r, f.IsRoot r → (f.find i).2.tree r = f.tree r

/-- **Walks in a forest whose ranks fit.** -/
theorem Ranked.finds (h : f.Ranked root) {i : Nat} (hi : i < f.size) : f.Finds i := by
  obtain ⟨height, hr⟩ := h.rooted
  obtain ⟨hroot, hr'⟩ := hr.find i
  have hisRoot : ∀ j, (f.find i).2.IsRoot j ↔ f.IsRoot j := fun j =>
    hr'.isRoot_iff.trans hr.isRoot_iff.symm
  have hends : ∀ fuel, f.size ≤ fuel → f.climb fuel i = f.find i := fun fuel =>
    hr.counted.climb_eq f.size (by omega)
  have hsoon : f.size < 2 ^ (maxRank + 1) → ∀ fuel, Nat.log 2 f.size ≤ fuel →
      f.climb fuel i = f.find i := by
    intro hsize fuel hfuel
    have hlog : f.rank (root i) ≤ f.rank i + Nat.log 2 f.size :=
      (h.rank_root_le hi).trans (by omega)
    have hasc := h.ascending hsize
    rw [hasc.climb_eq _ hlog hfuel, Forest.find,
      hasc.climb_eq _ hlog (Nat.log_le_self 2 f.size)]
  refine ⟨hends, hsoon, ?_, ?_, ranks_find f i, hisRoot, fun r hroot' => ?_⟩
  · rw [hroot]
    exact hr.isRoot_root i
  · rw [hroot, hr.tree_eq (hr.isRoot_root i), mem_part]
    exact ⟨hi, rfl⟩
  · rw [hr'.tree_eq ((hisRoot r).2 hroot'), hr.tree_eq hroot', size_find]

end Reframe.Forest
