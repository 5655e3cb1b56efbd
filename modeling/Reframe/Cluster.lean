import Reframe.Cluster.Forest
import Reframe.Point
import Reframe.Ranking

/-!
# Clusters of samples

Two samples are linked when their distance is at most a threshold, and a group is
a set of samples that chains of links hold together. Groups come in the order of
their first members, and members in the order of the samples.

* `Cluster.linked`: the forest of all links.
* `cluster`: the groups.
* `Group.rankByWeight`, `Group.rankBySize`: the groups, heaviest or largest first.
-/

namespace Reframe

variable {α : Type} [Scalar α]

/-- Some samples that belong together. -/
structure Group (α : Type) where
  members : List (Sample α)
  deriving DecidableEq, Repr

namespace Group

/-- The group without members. -/
def empty : Group α :=
  ⟨[]⟩

/-- The number of members. -/
def size (g : Group α) : Nat :=
  g.members.length

/-- The sum of the members' weights. -/
def weight (g : Group α) : α :=
  Sample.totalWeight g.members

/-- The weighted mean of the members. -/
def mean (g : Group α) : Except (Failure α) (Point α) :=
  weightedMean g.members

/-- The groups, heaviest first. -/
def rankByWeight (groups : List (Group α)) : List (Group α) :=
  heaviestFirst weight groups

/-- The groups, largest first. -/
def rankBySize (groups : List (Group α)) : List (Group α) :=
  largestFirst size groups

end Group

/-- The distance up to which samples are linked, unless another one is set. -/
def defaultThreshold : α :=
  0.05

/-- A number that can serve as a threshold: finite and not negative. -/
def IsThreshold (t : α) : Prop :=
  Scalar.isFinite t ∧ ¬ t < 0.0

instance (t : α) : Decidable (IsThreshold t) :=
  inferInstanceAs (Decidable (_ ∧ _))

namespace Cluster

/-- Joins two samples, given by their places, if they are linked. -/
def tie (samples : Array (Sample α)) (threshold : α) (i : Nat) (forest : Forest) (j : Nat) :
    Except (Failure α) Forest :=
  match samples[i]?, samples[j]? with
  | some s, some t => do
    let d ← s.dist t
    return if d ≤ threshold then forest.join i j else forest
  | _, _ => .ok forest

/-- Joins a sample with every later one it is linked to. -/
def tieLater (samples : Array (Sample α)) (threshold : α) (forest : Forest) (i : Nat) :
    Except (Failure α) Forest :=
  (List.range' (i + 1) (samples.size - (i + 1))).foldlM (tie samples threshold i) forest

/-- The forest of all links, made sample by sample. -/
def linked (samples : Array (Sample α)) (threshold : α) : Except (Failure α) Forest :=
  (List.range samples.size).foldlM (tieLater samples threshold) (Forest.singletons samples.size)

/-- The root of every node from `i` on, `n` nodes. -/
def rootsFrom (forest : Forest) (i : Nat) : (n : Nat) → List Nat
  | 0 => []
  | n + 1 =>
    let (root, forest) := forest.find i
    root :: rootsFrom forest (i + 1) n

/-- The root of every node. -/
def roots (forest : Forest) : List Nat :=
  rootsFrom forest 0 forest.size

/-- Puts an item into the class with its label, a new last one if there is none. -/
def place {τ : Type} (classes : List (Nat × List τ)) (label : Nat) (item : τ) :
    List (Nat × List τ) :=
  match classes with
  | [] => [(label, [item])]
  | (l, items) :: rest =>
    if l = label then (l, items ++ [item]) :: rest else (l, items) :: place rest label item

/-- The items by label: classes by first member, members in order. -/
def byLabel {τ : Type} (labels : List Nat) (items : List τ) : List (List τ) :=
  ((labels.zip items).foldl (fun classes p => place classes p.1 p.2) []).map (·.2)

end Cluster

/-- The groups of samples that chains of distances up to a threshold hold together. -/
def cluster (samples : List (Sample α)) (threshold : α) :
    Except (Failure α) (List (Group α)) := do
  if ¬ IsThreshold threshold then throw (.badThreshold threshold)
  let forest ← Cluster.linked samples.toArray threshold
  return (Cluster.byLabel (Cluster.roots forest) samples).map (⟨·⟩)

end Reframe
