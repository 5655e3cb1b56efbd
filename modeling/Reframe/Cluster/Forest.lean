/-!
# Forests of disjoint trees

A partition of `0 .. n - 1` is kept as a forest: every node points at its parent,
a root at itself, and two nodes are in one part when they have the same root. A
walk to the root points every other node on its way at its grandparent; of two
joined roots the one of smaller rank goes below the other.

* `Forest.find`: the root of a node, and the forest with the shortened path.
* `Forest.join`: the forest in which the parts of two nodes are one.
-/

namespace Reframe

/-- A forest over the nodes `0 .. parents.size - 1`. -/
structure Forest where
  parents : Array Nat
  /-- A bound on the height of the tree below each root. -/
  ranks : Array Nat
  deriving DecidableEq, Repr

namespace Forest

/-- The largest rank that is counted. -/
def maxRank : Nat :=
  255

/-- The forest of `n` roots. -/
def singletons (n : Nat) : Forest where
  parents := Array.ofFn fun i : Fin n => i.val
  ranks := Array.replicate n 0

/-- The number of nodes. -/
def size (f : Forest) : Nat :=
  f.parents.size

/-- The parent of a node; what is no node is its own parent. -/
def parent (f : Forest) (i : Nat) : Nat :=
  f.parents[i]?.getD i

/-- The rank of a node. -/
def rank (f : Forest) (i : Nat) : Nat :=
  f.ranks[i]?.getD 0

/-- The node is the root of its tree. -/
def IsRoot (f : Forest) (i : Nat) : Prop :=
  f.parent i = i

instance (f : Forest) (i : Nat) : Decidable (f.IsRoot i) :=
  inferInstanceAs (Decidable (_ = _))

/-- The forest in which node `i` points at `p`. -/
def setParent (f : Forest) (i p : Nat) : Forest :=
  { f with parents := f.parents.setIfInBounds i p }

/-- The forest in which the rank of node `i` is one more. -/
def raise (f : Forest) (i : Nat) : Forest :=
  { f with ranks := f.ranks.setIfInBounds i (min maxRank (f.rank i + 1)) }

/-- Walks from a node towards its root, at most `fuel` steps, and halves the path:
each visited node then points at its grandparent, where the walk goes on. -/
def climb (f : Forest) : (fuel : Nat) → (node : Nat) → Nat × Forest
  | 0, node => (node, f)
  | fuel + 1, node =>
    if f.IsRoot node then (node, f)
    else
      let next := f.parent (f.parent node)
      (f.setParent node next).climb fuel next

/-- The root of a node, and the forest with a shorter path to it. No path is
longer than the forest has nodes. -/
def find (f : Forest) (node : Nat) : Nat × Forest :=
  f.climb f.size node

/-- Puts one of two roots below the other. -/
def link (f : Forest) (a b : Nat) : Forest :=
  if f.rank a < f.rank b then f.setParent a b
  else if f.rank b < f.rank a then f.setParent b a
  else (f.setParent b a).raise a

/-- The forest in which the parts of two nodes are one. -/
def join (f : Forest) (a b : Nat) : Forest :=
  let (ra, f) := f.find a
  let (rb, f) := f.find b
  if ra = rb then f else f.link ra rb

@[simp] theorem size_setParent (f : Forest) (i p : Nat) : (f.setParent i p).size = f.size := by
  simp [setParent, size]

@[simp] theorem size_raise (f : Forest) (i : Nat) : (f.raise i).size = f.size := rfl

@[simp] theorem size_singletons (n : Nat) : (singletons n).size = n := by
  simp [singletons, size]

theorem size_climb (f : Forest) (fuel node : Nat) : (f.climb fuel node).2.size = f.size := by
  induction fuel generalizing f node with
  | zero => rfl
  | succ fuel ih =>
    rw [climb]
    split
    · rfl
    · rw [ih, size_setParent]

@[simp] theorem size_find (f : Forest) (node : Nat) : (f.find node).2.size = f.size :=
  size_climb ..

theorem ranks_climb (f : Forest) (fuel node : Nat) : (f.climb fuel node).2.ranks = f.ranks := by
  induction fuel generalizing f node with
  | zero => rfl
  | succ fuel ih =>
    rw [climb]
    split
    · rfl
    · rw [ih]
      rfl

@[simp] theorem ranks_find (f : Forest) (node : Nat) : (f.find node).2.ranks = f.ranks :=
  ranks_climb ..

theorem parent_setParent (f : Forest) {i : Nat} (hi : i < f.size) (p j : Nat) :
    (f.setParent i p).parent j = if j = i then p else f.parent j := by
  unfold size at hi
  by_cases h : j = i
  · subst h; simp [setParent, parent, hi]
  · simp [setParent, parent, h, Ne.symm h]

@[simp] theorem parent_raise (f : Forest) (i j : Nat) : (f.raise i).parent j = f.parent j := rfl

@[simp] theorem rank_setParent (f : Forest) (i p j : Nat) : (f.setParent i p).rank j = f.rank j :=
  rfl

theorem rank_find (f : Forest) (node : Nat) : (f.find node).2.rank = f.rank := by
  funext j
  rw [rank, ranks_find, rank]

theorem rank_raise (f : Forest) {i : Nat} (hi : i < f.ranks.size) (j : Nat) :
    (f.raise i).rank j = if j = i then min maxRank (f.rank i + 1) else f.rank j := by
  by_cases h : j = i
  · subst h; simp [raise, rank, hi]
  · simp [raise, rank, h, Ne.symm h]

end Forest

end Reframe
