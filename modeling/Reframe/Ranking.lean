import Reframe.Number.Scalar

/-!
# Ranking

Items are ranked by a key, largest first; items with equal keys keep their order.
Weights are compared in the total order of their patterns, so that every list of
machine numbers has one ranking.

* `descending`: the ranking by any total preorder of keys.
* `heaviestFirst`: the ranking by weight.
-/

namespace Reframe

/-- The items, largest key first; equal keys keep their order. -/
def descending {τ κ : Type} (le : κ → κ → Bool) (key : τ → κ) (items : List τ) : List τ :=
  items.mergeSort fun a b => le (key b) (key a)

/-- The items, heaviest first. -/
def heaviestFirst {α τ : Type} [Scalar α] (weight : τ → α) (items : List τ) : List τ :=
  descending Scalar.rankLe weight items

/-- The items, largest size first. -/
def largestFirst {τ : Type} (size : τ → Nat) (items : List τ) : List τ :=
  descending (fun m n => decide (m ≤ n)) size items

/-- The items ranked by 64-bit patterns as weights, heaviest first. -/
def heaviestPatternFirst {τ : Type} (pattern : τ → UInt64) (items : List τ) : List τ :=
  descending (fun a b => decide (patternRank a ≤ patternRank b)) pattern items

theorem descending_perm {τ κ : Type} (le : κ → κ → Bool) (key : τ → κ) (items : List τ) :
    (descending le key items).Perm items :=
  List.mergeSort_perm ..

@[simp] theorem length_descending {τ κ : Type} (le : κ → κ → Bool) (key : τ → κ)
    (items : List τ) : (descending le key items).length = items.length :=
  (descending_perm le key items).length_eq

end Reframe
