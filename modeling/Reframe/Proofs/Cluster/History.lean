import Mathlib.Data.List.Induction
import Mathlib.Logic.Relation
import Reframe.Proofs.Cluster.Ranks

/-!
# Forests after any requests

A forest is asked for roots and is told to join nodes, in any order, and both rewrite
it. What it answers depends only on what was joined: two nodes have one root exactly
when a chain of joined pairs connects them.

* `Request`, `served`: the requests, and the forest after a list of them.
* `Connected`: the least equivalence that holds of every joined pair.
* `Records.find`, `Records.join`: what one request keeps; `exists_records`: what a
  list of them keeps.
* `served_isBalanced`: **after any requests** the forest is balanced, walks end at
  roots and change no part, and two nodes have one root exactly when they are connected.
-/

namespace Reframe.Forest

/-- What a forest is asked to do. -/
inductive Request
  | find (i : Nat)
  | join (a b : Nat)
  deriving DecidableEq, Repr

/-- All nodes that the request names are below `n`. -/
def Request.IsBelow (n : Nat) : Request → Prop
  | find i => i < n
  | join a b => a < n ∧ b < n

instance (n : Nat) : (r : Request) → Decidable (r.IsBelow n)
  | .find i => inferInstanceAs (Decidable (i < n))
  | .join a b => inferInstanceAs (Decidable (a < n ∧ b < n))

/-- The forest after a request. -/
def serve (f : Forest) : Request → Forest
  | .find i => (f.find i).2
  | .join a b => f.join a b

/-- The forest that began with `n` roots, after some requests. -/
def served (n : Nat) (requests : List Request) : Forest :=
  requests.foldl serve (singletons n)

/-- A chain of joined pairs connects the two nodes. -/
def Connected (requests : List Request) : Nat → Nat → Prop :=
  Relation.EqvGen fun a b => Request.join a b ∈ requests

/-- Finding one node after the other gives the same root. -/
def Together (f : Forest) (a b : Nat) : Prop :=
  (f.find a).1 = ((f.find a).2.find b).1

instance (f : Forest) (a b : Nat) : Decidable (f.Together a b) :=
  inferInstanceAs (Decidable (_ = _))

variable {n : Nat} {requests : List Request} {f : Forest} {root : Nat → Nat}

/-- What is the same for every joined pair is the same for connected nodes. -/
theorem Connected.eq {i j : Nat} (h : Connected requests i j)
    (hjoin : ∀ a b, Request.join a b ∈ requests → root a = root b) : root i = root j := by
  induction h with
  | rel a b hab => exact hjoin a b hab
  | refl => rfl
  | symm _ _ _ ih => exact ih.symm
  | trans _ _ _ _ _ ih ih' => exact ih.trans ih'

/-- Nodes that are connected stay so. -/
theorem Connected.append {i j : Nat} (h : Connected requests i j) (more : List Request) :
    Connected (requests ++ more) i j :=
  Relation.EqvGen.mono (fun _ _ => List.mem_append_left more) i j h

/-- Finding connects nothing. -/
theorem connected_append_find (k i j : Nat) :
    Connected (requests ++ [.find k]) i j ↔ Connected requests i j := by
  simp [Connected]

/-- The forest has `n` nodes, and its ranks and roots fit what was joined. -/
structure Records (n : Nat) (requests : List Request) (f : Forest) (root : Nat → Nat) : Prop where
  size_eq : f.size = n
  ranked : f.Ranked root
  root_eq_iff : ∀ i j, root i = root j ↔ Connected requests i j

/-- Before any request no node is connected to another. -/
theorem records_singletons (n : Nat) : Records n [] (singletons n) id where
  size_eq := size_singletons n
  ranked := ranked_singletons n
  root_eq_iff i j :=
    ⟨fun h : i = j => h ▸ .refl i, fun h => h.eq fun _ _ hab => absurd hab List.not_mem_nil⟩

namespace Records

/-- Finding keeps the record. -/
theorem find (h : Records n requests f root) (k : Nat) :
    Records n (requests ++ [.find k]) (f.find k).2 root where
  size_eq := by rw [size_find, h.size_eq]
  ranked := h.ranked.find k
  root_eq_iff i j := by rw [connected_append_find, h.root_eq_iff]

/-- Joining enters the pair into the record. -/
theorem join (h : Records n requests f root) {a b : Nat} (ha : a < n) (hb : b < n) :
    ∃ root', Records n (requests ++ [.join a b]) (f.join a b) root' := by
  have hsize := h.size_eq
  obtain ⟨root', hranked, hiff⟩ := h.ranked.join (a := a) (b := b) (by omega) (by omega)
  have hnew : Connected (requests ++ [.join a b]) a b :=
    .rel a b (List.mem_append_right _ (List.mem_singleton_self _))
  refine ⟨root', (size_join ..).trans hsize, hranked, fun i j => ⟨fun heq => ?_, fun hij => ?_⟩⟩
  · -- roots that became equal are connected through the new pair
    refine ((hiff i j).1 heq).of_equivalence (Relation.EqvGen.is_equivalence _) ?_ hnew
    exact fun i j heq => ((h.root_eq_iff i j).1 heq).append _
  · refine hij.eq fun c d hcd => (hiff c d).2 ?_
    rcases List.mem_append.1 hcd with hold | hlast
    · exact .inl ((h.root_eq_iff c d).2 (.rel c d hold))
    · obtain ⟨rfl, rfl⟩ : c = a ∧ d = b := by simpa using hlast
      exact .inr (.inl ⟨rfl, rfl⟩)

end Records

/-- **The record of a run.** After any requests that name only its nodes, a forest has
recorded what was joined. -/
theorem exists_records (h : ∀ r ∈ requests, r.IsBelow n) :
    ∃ root, Records n requests (served n requests) root := by
  induction requests using List.reverseRecOn with
  | nil => exact ⟨id, records_singletons n⟩
  | append_singleton before last ih =>
    obtain ⟨root, hrec⟩ := ih fun r hr => h r (List.mem_append_left _ hr)
    have hlast := h last (List.mem_append_right _ (List.mem_singleton_self _))
    rw [served, List.foldl_append]
    cases last with
    | find i => exact ⟨root, hrec.find i⟩
    | join a b => exact hrec.join hlast.1 hlast.2

/-- Two nodes have one root exactly when they are connected. -/
theorem Records.together_iff (h : Records n requests f root) (a b : Nat) :
    f.Together a b ↔ Connected requests a b := by
  obtain ⟨height, hr⟩ := h.ranked.rooted
  obtain ⟨ha, hr'⟩ := hr.find a
  rw [Together, ha, (hr'.find b).1, h.root_eq_iff]

/-- **After any requests** the forest is balanced: links go to nodes of the forest and to
larger ranks, never in a circle; and a root of rank `r` has at least `2 ^ r` nodes, so
that no rank reaches the largest one that is counted. A walk from any node ends at the
root of its tree and changes neither which nodes are roots nor what is in their trees.
Two nodes have one root exactly when a chain of joined pairs connects them. -/
theorem served_isBalanced (n : Nat) (requests : List Request)
    (h : ∀ r ∈ requests, r.IsBelow n) :
    (served n requests).size = n ∧ (served n requests).IsBalanced ∧
      (∀ i < n, (served n requests).Finds i) ∧
      ∀ a < n, ∀ b < n, (served n requests).Together a b ↔ Connected requests a b := by
  obtain ⟨root, hrec⟩ := exists_records h
  refine ⟨hrec.size_eq, hrec.ranked.isBalanced, fun i hi => ?_, fun a _ b _ => ?_⟩
  · exact hrec.ranked.finds (by rw [hrec.size_eq]; exact hi)
  · exact hrec.together_iff a b

/-- Two pairs that become one tree of four, a walk that shortens a path in it, and a
fifth node that joins the tree. -/
def mixed : List Request :=
  [.join 0 1, .join 2 3, .join 1 3, .find 3, .join 4 3]

theorem served_isBalanced_mixed :
    (∀ r ∈ mixed, r.IsBelow 6) ∧ (served 6 mixed).size = 6 ∧ (served 6 mixed).IsBalanced ∧
      (∀ i < 6, (served 6 mixed).Finds i) ∧
      ∀ a < 6, ∀ b < 6, (served 6 mixed).Together a b ↔ Connected mixed a b :=
  have h : ∀ r ∈ mixed, r.IsBelow 6 := by decide
  ⟨h, served_isBalanced 6 mixed h⟩

example : served 6 mixed = ⟨#[0, 0, 0, 0, 0, 5], #[2, 0, 1, 0, 0, 0]⟩ := by
  decide

end Reframe.Forest
