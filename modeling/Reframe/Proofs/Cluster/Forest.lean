import Mathlib.Data.Finset.Card
import Mathlib.Data.Finset.Filter
import Mathlib.Order.Interval.Finset.Nat
import Reframe.Cluster.Forest

/-!
# Forests keep their roots

A forest is **rooted** by two functions: one names the root of every node, the
other gives every node a height that grows along the links. The heights are not
stored, and they are not the ranks: ranks stop growing at a bound, heights do
not. Only so many nodes lie higher than a given one, so every walk ends in time.

* `Rooted.halve`: one step of a walk goes up within a class.
* `Rooted.find`: a walk ends at the root, and shortening paths changes no root.
* `Apart.link_cases`, `Rooted.join_cases`: all that linking and joining can do.
* `Rooted.join`: joining two nodes makes their two classes one, and no other.
* `rooted_singletons`: at first every node is its own root.
-/

namespace Reframe.Forest

open Finset

/-- `root` names the root of each node, and `height` grows along the links. -/
structure Rooted (f : Forest) (root height : Nat → Nat) : Prop where
  parent_lt : ∀ i, i < f.size → f.parent i < f.size
  root_parent : ∀ i, root (f.parent i) = root i
  root_eq : ∀ i, f.IsRoot i → root i = i
  height_lt : ∀ i, ¬ f.IsRoot i → height i < height (f.parent i)

/-- The number of nodes below `n` that lie higher than node `i`. -/
def above (n : Nat) (height : Nat → Nat) (i : Nat) : Nat :=
  #{j ∈ range n | height i < height j}

/-- No node lies higher than itself. -/
theorem above_lt {n i : Nat} (height : Nat → Nat) (hi : i < n) : above n height i < n := by
  have hsub : {j ∈ range n | height i < height j} ⊂ range n := by
    refine ⟨filter_subset _ _, fun hall => ?_⟩
    have := (mem_filter.1 (hall (mem_range.2 hi))).2
    omega
  simpa [above] using card_lt_card hsub

/-- Fewer nodes lie higher than a higher node. -/
theorem above_lt_above {n i j : Nat} {height : Nat → Nat} (hj : j < n)
    (h : height i < height j) : above n height j < above n height i := by
  refine card_lt_card ⟨fun k hk => ?_, fun hall => ?_⟩
  · rw [mem_filter] at hk ⊢
    exact ⟨hk.1, by omega⟩
  · have := (mem_filter.1 (hall (mem_filter.2 ⟨mem_range.2 hj, h⟩))).2
    omega

/-- What is no node is its own parent. -/
theorem isRoot_of_size_le {f : Forest} {i : Nat} (h : f.size ≤ i) : f.IsRoot i := by
  unfold size at h
  simp [IsRoot, parent, h]

theorem size_link (f : Forest) (a b : Nat) : (f.link a b).size = f.size := by
  unfold link
  split
  · exact size_setParent ..
  split
  · exact size_setParent ..
  · rw [size_raise, size_setParent]

theorem size_join (f : Forest) (a b : Nat) : (f.join a b).size = f.size := by
  unfold join
  dsimp only
  split
  · rw [size_find, size_find]
  · rw [size_link, size_find, size_find]

/-- Two roots that are not the same. -/
structure Apart (f : Forest) (a b : Nat) : Prop where
  left : f.IsRoot a
  right : f.IsRoot b
  ne : a ≠ b
  left_lt : a < f.size
  right_lt : b < f.size

theorem Apart.symm {f : Forest} {a b : Nat} (h : f.Apart a b) : f.Apart b a :=
  ⟨h.right, h.left, h.ne.symm, h.right_lt, h.left_lt⟩

/-- **What linking does**: of two roots the one of smaller rank goes below the other, and
of two of the same rank one goes below the other, whose rank rises. -/
theorem Apart.link_cases {f : Forest} {a b : Nat} (h : f.Apart a b) :
    ∃ loser winner, ((loser = a ∧ winner = b) ∨ (loser = b ∧ winner = a)) ∧
      f.Apart loser winner ∧
      ((f.rank loser < f.rank winner ∧ f.link a b = f.setParent loser winner) ∨
        (f.rank loser = f.rank winner ∧
          f.link a b = (f.setParent loser winner).raise winner)) := by
  unfold link
  split
  next hlt => exact ⟨a, b, .inl ⟨rfl, rfl⟩, h, .inl ⟨hlt, rfl⟩⟩
  split
  next hlt => exact ⟨b, a, .inr ⟨rfl, rfl⟩, h.symm, .inl ⟨hlt, rfl⟩⟩
  next => exact ⟨b, a, .inr ⟨rfl, rfl⟩, h.symm, .inr ⟨by omega, rfl⟩⟩

/-- The roots when the class of `loser` gets the root `winner`. -/
def merge (root : Nat → Nat) (loser winner : Nat) (i : Nat) : Nat :=
  if root i = loser then winner else root i

/-- Nodes `i` and `j` are in one class once the classes of `a` and `b` are one. -/
def Merged {ι : Type} (root : ι → Nat) (a b i j : ι) : Prop :=
  root i = root j ∨ (root i = root a ∧ root j = root b) ∨ (root i = root b ∧ root j = root a)

/-- When one of two classes gets the root of the other, these two become one. -/
theorem merge_eq_iff {root : Nat → Nat} {a b loser winner : Nat}
    (h : (loser = root a ∧ winner = root b) ∨ (loser = root b ∧ winner = root a)) (i j : Nat) :
    merge root loser winner i = merge root loser winner j ↔ Merged root a b i j := by
  unfold merge Merged
  split <;> split <;> omega

/-- An equivalence that holds within the classes and of `a` and `b` holds within the
classes that are then merged. -/
theorem Merged.of_equivalence {ι : Type} {R : ι → ι → Prop} (hR : Equivalence R) {root : ι → Nat}
    (hroot : ∀ i j, root i = root j → R i j) {a b i j : ι} (hab : R a b)
    (h : Merged root a b i j) : R i j := by
  rcases h with h | ⟨hi, hj⟩ | ⟨hi, hj⟩
  · exact hroot i j h
  · exact hR.trans (hroot i a hi) (hR.trans hab (hroot b j hj.symm))
  · exact hR.trans (hroot i b hi) (hR.trans (hR.symm hab) (hroot a j hj.symm))

/-- A walk that begins at a root ends there. -/
theorem climb_of_isRoot {f : Forest} {i : Nat} (hi : f.IsRoot i) (fuel : Nat) :
    f.climb fuel i = (i, f) := by
  cases fuel with
  | zero => rfl
  | succ fuel => rw [climb, if_pos hi]

namespace Rooted

variable {f : Forest} {root height : Nat → Nat}

theorem lt_size (_ : f.Rooted root height) {i : Nat} (hi : ¬ f.IsRoot i) : i < f.size := by
  by_contra h
  exact hi (isRoot_of_size_le (by omega))

theorem height_le (h : f.Rooted root height) (i : Nat) : height i ≤ height (f.parent i) := by
  by_cases hi : f.IsRoot i
  · have : f.parent i = i := hi
    rw [this]
  · exact (h.height_lt i hi).le

/-- A non-root may point at any higher node of its own class instead. -/
theorem setParent (h : f.Rooted root height) {i p : Nat} (hi : i < f.size) (hp : p < f.size)
    (hroot : root p = root i) (hheight : height i < height p) :
    (f.setParent i p).Rooted root height := by
  have hpar := parent_setParent f hi p
  refine ⟨fun j hj => ?_, fun j => ?_, fun j hj => ?_, fun j hj => ?_⟩
  · rw [size_setParent] at hj ⊢
    rw [hpar]
    split
    · exact hp
    · exact h.parent_lt j hj
  · rw [hpar]
    split
    next hji => rw [hji, hroot]
    next => exact h.root_parent j
  · rw [IsRoot, hpar] at hj
    split at hj
    next hji => subst hji; rw [hj] at hheight; omega
    next => exact h.root_eq j hj
  · rw [IsRoot, hpar] at hj
    rw [hpar]
    split
    next hji => rw [hji]; exact hheight
    next hji => rw [if_neg hji] at hj; exact h.height_lt j hj

/-- **One step of a walk** goes up within its class, past the parent to what that points
at, and the node may point there itself from now on. -/
theorem halve (h : f.Rooted root height) {i : Nat} (hi : ¬ f.IsRoot i) :
    height i < height (f.parent (f.parent i)) ∧ f.parent (f.parent i) < f.size ∧
      root (f.parent (f.parent i)) = root i ∧
      (f.setParent i (f.parent (f.parent i))).Rooted root height := by
  have hlt := h.lt_size hi
  have hup : height i < height (f.parent (f.parent i)) :=
    lt_of_lt_of_le (h.height_lt i hi) (h.height_le _)
  have hnext : f.parent (f.parent i) < f.size := h.parent_lt _ (h.parent_lt _ hlt)
  have hroot : root (f.parent (f.parent i)) = root i := by
    rw [h.root_parent, h.root_parent]
  exact ⟨hup, hnext, hroot, h.setParent hlt hnext hroot hup⟩

/-- **A walk ends at the root**, and leaves every root where it is. The walk goes
up all the time, and the fuel bounds the nodes that lie higher. -/
theorem climb (fuel : Nat) : ∀ {f : Forest}, f.Rooted root height → ∀ {i : Nat},
    above f.size height i < fuel →
    (f.climb fuel i).1 = root i ∧ (f.climb fuel i).2.Rooted root height := by
  induction fuel with
  | zero => intro f _ i hfuel; omega
  | succ fuel ih =>
    intro f h i hfuel
    rw [Forest.climb]
    by_cases hi : f.IsRoot i
    · rw [if_pos hi]
      exact ⟨(h.root_eq i hi).symm, h⟩
    · rw [if_neg hi]
      obtain ⟨hup, hnext, hroot, h'⟩ := h.halve hi
      rw [← hroot]
      refine ih h' ?_
      rw [size_setParent]
      have := above_lt_above hnext hup
      omega

/-- **Finding** gives the root, and changes no root. -/
theorem find (h : f.Rooted root height) (i : Nat) :
    (f.find i).1 = root i ∧ (f.find i).2.Rooted root height := by
  by_cases hi : i < f.size
  · exact climb f.size h (above_lt height hi)
  · have hr : f.IsRoot i := isRoot_of_size_le (by omega)
    rw [Forest.find, climb_of_isRoot hr]
    exact ⟨(h.root_eq i hr).symm, h⟩

/-- **Induction towards the roots.** What holds of every root, and of a node when it
holds of its parent, holds of every node. -/
theorem up_induction (h : f.Rooted root height) {P : Nat → Prop} (hroot : ∀ i, f.IsRoot i → P i)
    (hup : ∀ i, ¬ f.IsRoot i → P (f.parent i) → P i) (i : Nat) : P i := by
  -- by the number of higher nodes, which falls along every link
  induction hk : above f.size height i using Nat.strongRecOn generalizing i with
  | ind k ih =>
    by_cases hi : f.IsRoot i
    · exact hroot i hi
    · have hp := h.parent_lt i (h.lt_size hi)
      have hlt := above_lt_above hp (h.height_lt i hi)
      exact hup i hi (ih _ (by omega) _ rfl)

/-- The root of a node is a root. -/
theorem isRoot_root (h : f.Rooted root height) (i : Nat) : f.IsRoot (root i) := by
  induction i using h.up_induction with
  | hroot i hi => rw [h.root_eq i hi]; exact hi
  | hup i _ ih => rw [← h.root_parent i]; exact ih

/-- The root of a node of the forest is one of its nodes. -/
theorem root_lt (h : f.Rooted root height) {i : Nat} (hi : i < f.size) : root i < f.size := by
  induction i using h.up_induction with
  | hroot i hr => rw [h.root_eq i hr]; exact hi
  | hup i _ ih => rw [← h.root_parent i]; exact ih (h.parent_lt i hi)

/-- **Hanging one root below another** gives its class the other's root. The nodes may
have any heights that grow along the old links and along the new one. -/
theorem hang (h : f.Rooted root height) {a b : Nat} (hab : f.Apart a b) {height' : Nat → Nat}
    (hup : ∀ i, ¬ f.IsRoot i → height' i < height' (f.parent i)) (hlt : height' a < height' b) :
    (f.setParent a b).Rooted (merge root a b) height' := by
  have hpar := parent_setParent f hab.left_lt b
  have hra := h.root_eq a hab.left
  have hrb := h.root_eq b hab.right
  refine ⟨fun j hj => ?_, fun j => ?_, fun j hj => ?_, fun j hj => ?_⟩
  · rw [size_setParent] at hj ⊢
    rw [hpar]
    split
    · exact hab.right_lt
    · exact h.parent_lt j hj
  · rw [hpar]
    split
    next hja => simp only [merge, hja, hra, hrb, if_neg hab.ne.symm, if_true]
    next => simp only [merge, h.root_parent j]
  · rw [IsRoot, hpar] at hj
    by_cases hja : j = a
    · rw [if_pos hja] at hj
      exact absurd (hja.symm.trans hj.symm) hab.ne
    · rw [if_neg hja] at hj
      simp only [merge, h.root_eq j hj, if_neg hja]
  · rw [IsRoot, hpar] at hj
    rw [hpar]
    split
    next hja => rw [hja]; exact hlt
    next hja => rw [if_neg hja] at hj; exact hup j hj

/-- The class that receives the other may grow above all of it, so that the new link
goes up. -/
theorem exists_hang (h : f.Rooted root height) {a b : Nat} (hab : f.Apart a b) :
    ∃ height', (f.setParent a b).Rooted (merge root a b) height' := by
  refine ⟨fun i => if root i = b then height i + height a + 1 else height i,
    h.hang hab (fun i hi => ?_) ?_⟩
  · have hup := h.height_lt i hi
    simp only [h.root_parent i]
    split <;> omega
  · simp only [h.root_eq a hab.left, h.root_eq b hab.right, if_neg hab.ne, if_true]
    omega

/-- Raising a rank moves no node. -/
theorem raise (h : f.Rooted root height) (i : Nat) : (f.raise i).Rooted root height := by
  obtain ⟨h1, h2, h3, h4⟩ := h
  exact ⟨h1, h2, h3, h4⟩

/-- **Linking two roots** makes one of them the root of both classes. -/
theorem link (h : f.Rooted root height) {a b : Nat} (hab : f.Apart a b) :
    ∃ loser winner height', ((loser = a ∧ winner = b) ∨ (loser = b ∧ winner = a)) ∧
      (f.link a b).Rooted (merge root loser winner) height' := by
  obtain ⟨loser, winner, hwho, hlw, hlink⟩ := hab.link_cases
  obtain ⟨height', hnew⟩ := h.exists_hang hlw
  refine ⟨loser, winner, height', hwho, ?_⟩
  rcases hlink with ⟨-, heq⟩ | ⟨-, heq⟩
  · rw [heq]
    exact hnew
  · rw [heq]
    exact hnew.raise winner

/-- **What joining does**: after two walks it links the roots they found, unless both
found the same. -/
theorem join_cases (h : f.Rooted root height) {a b : Nat} (ha : a < f.size) (hb : b < f.size) :
    (root a = root b ∧ f.join a b = ((f.find a).2.find b).2) ∨
      (((f.find a).2.find b).2.Apart (root a) (root b) ∧
        f.join a b = ((f.find a).2.find b).2.link (root a) (root b)) := by
  obtain ⟨hra, h1⟩ := h.find a
  obtain ⟨hrb, h2⟩ := h1.find b
  unfold Forest.join
  simp only [hra, hrb]
  split
  next heq => exact .inl ⟨heq, rfl⟩
  next hne =>
    refine .inr ⟨⟨h2.isRoot_root a, h2.isRoot_root b, hne, ?_, ?_⟩, rfl⟩
    · exact h2.root_lt (by simpa using ha)
    · exact h2.root_lt (by simpa using hb)

/-- **Joining two nodes** merges their classes, and no others. -/
theorem join (h : f.Rooted root height) {a b : Nat} (ha : a < f.size) (hb : b < f.size) :
    ∃ root' height', (f.join a b).Rooted root' height' ∧
      ∀ i j, root' i = root' j ↔ Merged root a b i j := by
  have h2 := ((h.find a).2.find b).2
  rcases h.join_cases ha hb with ⟨heq, hj⟩ | ⟨hab, hj⟩
  · rw [hj]
    exact ⟨root, height, h2, fun i j => by unfold Merged; omega⟩
  · obtain ⟨loser, winner, height', hwho, hlink⟩ := h2.link hab
    rw [hj]
    exact ⟨_, height', hlink, merge_eq_iff hwho⟩

end Rooted

/-- **At first every node is its own root.** -/
theorem rooted_singletons (n : Nat) : (singletons n).Rooted id id := by
  have hpar : ∀ i, (singletons n).parent i = i := by
    intro i
    by_cases hi : i < n
    · simp [parent, singletons, hi]
    · exact isRoot_of_size_le (by simpa using hi)
  refine ⟨fun i hi => by rwa [hpar], fun i => by rw [hpar], fun i _ => rfl, fun i hi => ?_⟩
  exact absurd (hpar i) hi

end Reframe.Forest
