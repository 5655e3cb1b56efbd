import Mathlib.Data.Nat.Log
import Reframe.Proofs.Cluster.Forest

/-!
# Trees of a forest, and walks to their roots

The tree of a node are the nodes from which links lead to it. Trees are told by the
links alone, without a walk and without a function that names roots; in a rooted
forest the two views agree.

* `Rooted.acyclic`: links never lead from a node that is no root back to it.
* `Rooted.tree_eq`: the tree of a root are the nodes it is the root of.
* `Rooted.existsUnique_root`: every node is in the tree of exactly one root.
* `Rooted.climb_eq`: a walk is over after as many steps as its root is higher than
  its beginning, so more fuel changes nothing.
-/

namespace Reframe.Forest

open Finset

/-- The links lead from node `i` to node `r`, in fewer steps than there are nodes. -/
def Leads (f : Forest) (i r : Nat) : Prop :=
  ∃ k < f.size, f.parent^[k] i = r

instance (f : Forest) (i r : Nat) : Decidable (f.Leads i r) :=
  inferInstanceAs (Decidable (∃ k < f.size, f.parent^[k] i = r))

/-- The nodes from which the links lead to node `r`. -/
def tree (f : Forest) (r : Nat) : Finset Nat :=
  {i ∈ range f.size | f.Leads i r}

/-- The nodes below `n` that a function gives the root `r`. -/
def part (n : Nat) (root : Nat → Nat) (r : Nat) : Finset Nat :=
  {i ∈ range n | root i = r}

@[simp] theorem mem_part {n : Nat} {root : Nat → Nat} {r i : Nat} :
    i ∈ part n root r ↔ i < n ∧ root i = r := by
  simp [part]

namespace Rooted

variable {f : Forest} {root height : Nat → Nat}

theorem isRoot_iff (h : f.Rooted root height) {i : Nat} : f.IsRoot i ↔ root i = i :=
  ⟨h.root_eq i, fun hi => hi ▸ h.isRoot_root i⟩

theorem height_le_root (h : f.Rooted root height) (i : Nat) : height i ≤ height (root i) := by
  induction i using h.up_induction with
  | hroot i hi => rw [h.root_eq i hi]
  | hup i _ ih => exact (h.height_le i).trans (h.root_parent i ▸ ih)

theorem height_le_iterate (h : f.Rooted root height) (k i : Nat) :
    height i ≤ height (f.parent^[k] i) := by
  induction k generalizing i with
  | zero => exact le_rfl
  | succ k ih =>
    rw [Function.iterate_succ_apply]
    exact (h.height_le i).trans (ih _)

theorem root_iterate (h : f.Rooted root height) (k i : Nat) : root (f.parent^[k] i) = root i := by
  induction k generalizing i with
  | zero => rfl
  | succ k ih => rw [Function.iterate_succ_apply, ih, h.root_parent]

/-- **No cycle.** Links that lead from a node back to it start from a root. -/
theorem acyclic (h : f.Rooted root height) {i k : Nat} (hk : f.parent^[k + 1] i = i) :
    f.IsRoot i := by
  by_contra hi
  have hup := h.height_lt i hi
  have hle := h.height_le_iterate k (f.parent i)
  rw [← Function.iterate_succ_apply, hk] at hle
  omega

/-- The links lead from every node to its root. -/
theorem leads_root (h : f.Rooted root height) {i : Nat} (hi : i < f.size) :
    f.Leads i (root i) := by
  -- every step leaves behind one of the higher nodes
  have hsteps : ∃ k ≤ above f.size height i, f.parent^[k] i = root i := by
    induction i using h.up_induction with
    | hroot i hr => exact ⟨0, Nat.zero_le _, (h.root_eq i hr).symm⟩
    | hup i hr ih =>
      have hp := h.parent_lt i hi
      obtain ⟨k, hk, heq⟩ := ih hp
      have hlt := above_lt_above hp (h.height_lt i hr)
      refine ⟨k + 1, by omega, ?_⟩
      rw [Function.iterate_succ_apply, heq, h.root_parent]
  obtain ⟨k, hk, heq⟩ := hsteps
  exact ⟨k, hk.trans_lt (above_lt height hi), heq⟩

/-- **The tree of a root** are the nodes it is the root of. -/
theorem tree_eq (h : f.Rooted root height) {r : Nat} (hr : f.IsRoot r) :
    f.tree r = part f.size root r := by
  ext i
  rw [tree, mem_filter, mem_range, mem_part]
  refine and_congr_right fun hi => ⟨?_, fun heq => heq ▸ h.leads_root hi⟩
  rintro ⟨k, -, heq⟩
  rw [← h.root_iterate k, heq, h.root_eq r hr]

/-- **Every node is in the tree of exactly one root.** -/
theorem existsUnique_root (h : f.Rooted root height) {i : Nat} (hi : i < f.size) :
    ∃! r, f.IsRoot r ∧ i ∈ f.tree r := by
  refine ⟨root i, ⟨h.isRoot_root i, ?_⟩, ?_⟩
  · rw [h.tree_eq (h.isRoot_root i), mem_part]
    exact ⟨hi, rfl⟩
  · rintro r ⟨hr, hmem⟩
    rw [h.tree_eq hr, mem_part] at hmem
    exact hmem.2.symm

/-- The numbers of nodes left behind are heights too, and none is above the number of
nodes. -/
theorem counted (h : f.Rooted root height) :
    f.Rooted root fun i => f.size - above f.size height i := by
  refine { h with height_lt := fun i hi => ?_ }
  have hlt := h.lt_size hi
  have hup := above_lt_above (h.parent_lt i hlt) (h.height_lt i hi)
  have hbelow := above_lt height hlt
  omega

/-- **A walk is over** after as many steps as the root is higher than its beginning. -/
theorem climb_eq (fuel : Nat) : ∀ {f : Forest}, f.Rooted root height → ∀ {i fuel' : Nat},
    height (root i) ≤ height i + fuel → fuel ≤ fuel' → f.climb fuel' i = f.climb fuel i := by
  induction fuel with
  | zero =>
    intro f h i fuel' hheight _
    have hi : f.IsRoot i := by
      by_contra hi
      have hup := h.height_lt i hi
      have hle := h.height_le_root (f.parent i)
      rw [h.root_parent] at hle
      omega
    rw [climb_of_isRoot hi, climb_of_isRoot hi]
  | succ fuel ih =>
    intro f h i fuel' hheight hle
    obtain ⟨fuel', rfl⟩ : ∃ m, fuel' = m + 1 := ⟨fuel' - 1, by omega⟩
    by_cases hi : f.IsRoot i
    · rw [climb_of_isRoot hi, climb_of_isRoot hi]
    · obtain ⟨hup, -, hroot, h'⟩ := h.halve hi
      rw [Forest.climb, if_neg hi, Forest.climb, if_neg hi]
      refine ih h' ?_ (by omega)
      rw [hroot]
      omega

end Rooted

end Reframe.Forest
