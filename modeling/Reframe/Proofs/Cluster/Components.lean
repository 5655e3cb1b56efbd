import Mathlib.Combinatorics.SimpleGraph.Connectivity.Connected
import Reframe.Proofs.Cluster.Classes
import Reframe.Proofs.Cluster.Forest
import Reframe.Proofs.Loop

/-!
# Clusters are connected components

The links between samples make a graph on their places in the list. The forest of
links is built pair by pair, and while it grows it never holds together what no
chain of links connects; in the end it holds together every linked pair. So its
classes are the connected components of the graph.

* `linkGraph`: the graph.
* `IsComponents`: a list of parts that are the connected components, in order.
* `exists_linked`: the forest of all links, and what its roots say.
* `cluster_isComponents`: **the groups are the components**, whatever the links.
-/

namespace Reframe

variable {α : Type} [Scalar α]

/-- Points of one dimension have a distance. -/
theorem Sample.dist_eq_ok {s t : Sample α} (h : s.point.dimension = t.point.dimension) :
    s.dist t = .ok (Point.distance s.point.coordinates t.point.coordinates) := by
  simp [Sample.dist, Point.dist, Point.sameDimension, h, bind, Except.bind, pure, Except.pure]

/-- All samples have the same number of coordinates. -/
def OneDimension (samples : List (Sample α)) : Prop :=
  ∃ d, ∀ s ∈ samples, s.point.dimension = d

namespace Cluster

/-- The sample at place `i` and the later one at place `j` are linked. -/
def Linked (samples : List (Sample α)) (threshold : α) (i j : Fin samples.length) : Prop :=
  i < j ∧ ∃ d, (samples.get i).dist (samples.get j) = .ok d ∧ d ≤ threshold

/-- The graph of all links. -/
def linkGraph (samples : List (Sample α)) (threshold : α) : SimpleGraph (Fin samples.length) :=
  .fromRel (Linked samples threshold)

/-- The parts are the connected components of a graph on the places of a list, each in
the order of the list, and all in the order of their first members. -/
structure IsComponents {n : Nat} (G : SimpleGraph (Fin n)) (parts : List (List (Fin n))) :
    Prop where
  joined_iff : ∀ i j, (∃ part ∈ parts, i ∈ part ∧ j ∈ part) ↔ G.Reachable i j
  once : ∀ i, parts.flatten.count i = 1
  nonempty : ∀ part ∈ parts, part ≠ []
  members_sorted : ∀ part ∈ parts, part.Pairwise (· < ·)
  parts_sorted : parts.Pairwise fun p q => ∀ i ∈ p.head?, ∀ j ∈ q.head?, i < j

/-- **Classes by a label are components** when labels agree exactly along chains. -/
theorem isComponents_classes {n : Nat} {G : SimpleGraph (Fin n)} {label : Fin n → Nat}
    (h : ∀ i j, label i = label j ↔ G.Reachable i j) :
    IsComponents G (classes label (List.finRange n)) where
  joined_iff i j := by simp [mem_classes, h]
  once i := by
    rw [(flatten_classes_perm _).count_eq]
    exact List.count_eq_one_of_mem (List.nodup_finRange n) (List.mem_finRange i)
  nonempty _ hp := ne_nil_of_mem_classes hp
  members_sorted _ hp := (List.pairwise_lt_finRange n).sublist (sublist_of_mem_classes hp)
  parts_sorted := pairwise_classes (List.pairwise_lt_finRange n)

/-- The forest holds together only what chains of links connect, and at least the linked
pairs that come before the pair `(a, b)`. -/
def Ties (samples : List (Sample α)) (threshold : α) (a b : Nat) (forest : Forest) : Prop :=
  forest.size = samples.length ∧ ∃ root height, forest.Rooted root height ∧
    ∀ i j : Fin samples.length,
      (root i = root j → (linkGraph samples threshold).Reachable i j) ∧
      (Linked samples threshold i j → i.val < a ∨ (i.val = a ∧ j.val < b) → root i = root j)

variable {samples : List (Sample α)} {threshold : α}

theorem Linked.reachable {i j : Fin samples.length} (h : Linked samples threshold i j) :
    (linkGraph samples threshold).Reachable i j :=
  SimpleGraph.Adj.reachable ((SimpleGraph.fromRel_adj _ _ _).2 ⟨ne_of_lt h.1, .inl h⟩)

/-- Before any pair, every node is alone. -/
theorem ties_singletons : Ties samples threshold 0 0 (Forest.singletons samples.length) := by
  refine ⟨Forest.size_singletons _, id, id, Forest.rooted_singletons _,
    fun i j => ⟨fun h => ?_, ?_⟩⟩
  · rw [Fin.ext h]
  · intro _ hlt; omega

/-- Joining a linked pair ties it. -/
theorem Ties.join {a b : Fin samples.length} {forest : Forest}
    (h : Ties samples threshold a b forest) (hab : Linked samples threshold a b) :
    Ties samples threshold a (b + 1) (forest.join a b) := by
  obtain ⟨hsize, root, height, hr, hroot⟩ := h
  obtain ⟨root', height', hr', hiff⟩ := hr.join (a := a) (b := b) (by omega) (by omega)
  refine ⟨(Forest.size_join ..).trans hsize, root', height', hr', fun i j =>
    ⟨fun heq => ?_, fun hij hlt => ?_⟩⟩
  · -- roots that became equal are connected through the new link
    exact Forest.Merged.of_equivalence (SimpleGraph.reachable_is_equivalence _)
      (fun i j => (hroot i j).1) hab.reachable ((hiff i j).1 heq)
  · rw [hiff]
    by_cases hnew : i.val = a ∧ j.val = b
    · rw [hnew.1, hnew.2]
      exact .inr (.inl ⟨rfl, rfl⟩)
    · exact .inl ((hroot i j).2 hij (by omega))

/-- A pair that is not linked is tied already. -/
theorem Ties.skip {a b : Fin samples.length} {forest : Forest}
    (h : Ties samples threshold a b forest) (hab : ¬ Linked samples threshold a b) :
    Ties samples threshold a (b + 1) forest := by
  obtain ⟨hsize, root, height, hr, hroot⟩ := h
  refine ⟨hsize, root, height, hr, fun i j => ⟨(hroot i j).1, fun hij hlt => ?_⟩⟩
  by_cases hnew : i = a ∧ j = b
  · rw [hnew.1, hnew.2] at hij
    exact absurd hij hab
  · refine (hroot i j).2 hij ?_
    rw [Fin.ext_iff, Fin.ext_iff] at hnew
    omega

/-- **One pair.** Looking at a pair of samples of one dimension succeeds and ties it. -/
theorem exists_tie (hd : OneDimension samples) {a b : Nat} (hab : a < b) (hb : b < samples.length)
    {forest : Forest} (h : Ties samples threshold a b forest) :
    ∃ forest', tie samples.toArray threshold a forest b = .ok forest' ∧
      Ties samples threshold a (b + 1) forest' := by
  obtain ⟨d, hd⟩ := hd
  have hdim : (samples[a]).point.dimension = (samples[b]).point.dimension := by
    rw [hd _ (List.getElem_mem _), hd _ (List.getElem_mem _)]
  have hdist := Sample.dist_eq_ok hdim
  set x := Point.distance (samples[a]).point.coordinates (samples[b]).point.coordinates
  have hlink : Linked samples threshold ⟨a, by omega⟩ ⟨b, hb⟩ ↔ x ≤ threshold := by
    constructor
    · rintro ⟨-, y, hy, hle⟩
      rw [List.get_eq_getElem, List.get_eq_getElem, hdist] at hy
      cases hy
      exact hle
    · exact fun hle => ⟨hab, x, hdist, hle⟩
  have htie : tie samples.toArray threshold a forest b =
      .ok (if x ≤ threshold then forest.join a b else forest) := by
    rw [tie, List.getElem?_toArray, List.getElem?_toArray, List.getElem?_eq_getElem (by omega),
      List.getElem?_eq_getElem hb]
    simp only [hdist]
    rfl
  refine ⟨_, htie, ?_⟩
  by_cases hle : x ≤ threshold
  · rw [if_pos hle]
    exact h.join (hlink.2 hle)
  · rw [if_neg hle]
    exact h.skip (fun hl => hle (hlink.1 hl))

/-- **One row.** Looking at a sample and all later ones ties all pairs of the row. -/
theorem exists_tieLater (hd : OneDimension samples) {a : Nat} (ha : a < samples.length)
    {forest : Forest} (h : Ties samples threshold a 0 forest) :
    ∃ forest', tieLater samples.toArray threshold forest a = .ok forest' ∧
      Ties samples threshold (a + 1) 0 forest' := by
  -- a link goes from a sample to a later one, so a row begins after its own sample
  have hrow : Ties samples threshold a (a + 1) forest := by
    obtain ⟨hsize, root, height, hr, hroot⟩ := h
    refine ⟨hsize, root, height, hr, fun i j => ⟨(hroot i j).1, fun hij hlt => ?_⟩⟩
    have hlt' : i.val < j.val := hij.1
    exact (hroot i j).2 hij (by omega)
  obtain ⟨forest', hf, hsize, root, height, hr, hroot⟩ :=
    foldlM_range' (f := tie samples.toArray threshold a) (P := Ties samples threshold a)
      (samples.length - (a + 1))
      (fun b forest h1 h2 hP => exists_tie hd (by omega) (by omega) hP) hrow
  refine ⟨forest', by simpa [tieLater] using hf, hsize, root, height, hr, fun i j =>
    ⟨(hroot i j).1, fun hij _ => (hroot i j).2 hij (by omega)⟩⟩

/-- **All rows.** The forest of all links is made, and two samples have one root exactly
when a chain of links connects them. -/
theorem exists_linked (hd : OneDimension samples) (threshold : α) :
    ∃ forest root height, linked samples.toArray threshold = .ok forest ∧
      forest.size = samples.length ∧ forest.Rooted root height ∧
      ∀ i j : Fin samples.length,
        root i = root j ↔ (linkGraph samples threshold).Reachable i j := by
  obtain ⟨forest, hf, hsize, root, height, hr, hroot⟩ :=
    foldlM_range' (f := tieLater samples.toArray threshold)
      (P := fun a => Ties samples threshold a 0) samples.length
      (fun a forest _ h2 hP => exists_tieLater hd (by omega) hP) ties_singletons
  have hlinked : linked samples.toArray threshold = .ok forest := by
    simpa [linked, List.range_eq_range'] using hf
  refine ⟨forest, root, height, hlinked, hsize, hr, fun i j => ⟨(hroot i j).1, fun hij => ?_⟩⟩
  -- along a chain every link keeps the root
  obtain ⟨walk⟩ := hij
  induction walk with
  | nil => rfl
  | cons hadj _ ih =>
    rw [← ih]
    rcases ((SimpleGraph.fromRel_adj _ _ _).1 hadj).2 with h | h
    · exact (hroot _ _).2 h (by omega)
    · exact ((hroot _ _).2 h (by omega)).symm

/-- Collecting the roots does not change them, though it rewrites the forest. -/
theorem rootsFrom_eq {root height : Nat → Nat} (n : Nat) : ∀ {forest : Forest} {i : Nat},
    forest.Rooted root height → rootsFrom forest i n = (List.range' i n).map root := by
  induction n with
  | zero => intro forest i _; rfl
  | succ n ih =>
    intro forest i h
    obtain ⟨hroot, hnext⟩ := h.find i
    rw [rootsFrom, List.range'_succ, List.map_cons, ← hroot]
    exact congrArg _ (ih hnext)

/-- **The groups are the classes of a labelling** that tells components apart. -/
theorem exists_cluster (hd : OneDimension samples) (ht : IsThreshold threshold) :
    ∃ label : Fin samples.length → Nat,
      cluster samples threshold =
        .ok ((classes label (List.finRange samples.length)).map (⟨·.map samples.get⟩)) ∧
      ∀ i j, label i = label j ↔ (linkGraph samples threshold).Reachable i j := by
  obtain ⟨forest, root, height, hf, hsize, hr, hroot⟩ := exists_linked hd threshold
  refine ⟨fun i => root i, ?_, hroot⟩
  have hroots : roots forest =
      (List.finRange samples.length).map fun i : Fin samples.length => root i := by
    rw [roots, hsize, rootsFrom_eq _ hr, ← List.range_eq_range', ← List.map_coe_finRange_eq_range,
      List.map_map]
    rfl
  have hitems := byLabel_map (fun i : Fin samples.length => root i) samples.get
    (List.finRange samples.length)
  rw [List.map_get_finRange, ← hroots] at hitems
  rw [cluster, if_neg (not_not.2 ht), hf]
  simp only [bind, Except.bind, pure, Except.pure, hitems, List.map_map]
  rfl

/-- **Clusters are connected components.** Samples of one dimension and a threshold have
groups; two samples are in one group exactly when a chain of links connects them, every
sample is in one group and once, no group is empty, and all comes in the order of the
samples: members by place, and groups by first member. -/
theorem cluster_isComponents (hd : OneDimension samples) (ht : IsThreshold threshold) :
    ∃ parts : List (List (Fin samples.length)),
      cluster samples threshold = .ok (parts.map (⟨·.map samples.get⟩)) ∧
      IsComponents (linkGraph samples threshold) parts := by
  obtain ⟨label, hc, hlabel⟩ := exists_cluster hd ht
  exact ⟨_, hc, isComponents_classes hlabel⟩

/-- Four samples on a line: a chain of three, whose ends are too far apart to be linked
themselves, around the place of a lone one. -/
def chained : List (Sample Float) :=
  [⟨⟨[0.10]⟩, 1.0⟩, ⟨⟨[0.90]⟩, 3.0⟩, ⟨⟨[0.18]⟩, 1.0⟩, ⟨⟨[0.14]⟩, 1.0⟩]

theorem cluster_isComponents_chained :
    OneDimension chained ∧ IsThreshold (0.05 : Float) ∧
      ∃ parts, cluster chained (0.05 : Float) = .ok (parts.map (⟨·.map chained.get⟩)) ∧
        IsComponents (linkGraph chained 0.05) parts :=
  have hd : OneDimension chained := ⟨1, by decide⟩
  have ht : IsThreshold (0.05 : Float) := by decide
  ⟨hd, ht, cluster_isComponents hd ht⟩

example : cluster chained (0.05 : Float) =
    .ok [⟨[chained[0], chained[2], chained[3]]⟩, ⟨[chained[1]]⟩] := by
  decide +kernel

end Cluster

end Reframe
