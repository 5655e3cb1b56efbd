import Reframe.Cluster
import Reframe.Proofs.Number.Pattern
import Reframe.Proofs.Ranking

/-!
# Rankings one after the other

A ranking is stable: the items descend, and those that are ranked alike stand as they stood
before. That determines it. And so a list that is ranked again keeps of its first order what
the second leaves open: it is ranked by the last key, among equals by the key before, and
among equals of all keys it stands as it stood at first.

* `IsRanked`: what a ranking of a list is, for any order of the items.
* `IsRanked.unique`: a list has one ranking.
* `isRanked_descending`: ranking by a key gives it.
* `IsRanked.again`: **a ranking of a ranking breaks ties by the first**.
* `Criterion.isRanked_foldl`: items ranked by weight and by size, in any sequence.
* `rankings_lexicographic`: **what all rankings are**, of weights, sizes and of both in turn.
-/

namespace Reframe

variable {τ : Type} {atLeast first last : τ → τ → Prop} {items middle ranked other : List τ}

/-- A list is ranked if its items descend and those that are alike stand in their order. -/
structure IsRanked (atLeast : τ → τ → Prop) (items ranked : List τ) : Prop where
  /-- The items are the same. -/
  perm : ranked.Perm items
  /-- They descend. -/
  sorted : ranked.Pairwise atLeast
  /-- Items of equal rank keep their order. -/
  stable : ∀ alike : τ → Bool, (∀ x y, alike x → alike y → atLeast x y) →
    ranked.filter alike = items.filter alike

open Classical in
/-- Two descending lists of the same items are one if items of equal rank stand in the same
order. -/
theorem eq_of_sorted_of_filter_eq (hrefl : ∀ x, atLeast x x)
    (htrans : ∀ x y z, atLeast x y → atLeast y z → atLeast x z) (hperm : ranked.Perm other)
    (hsorted : ranked.Pairwise atLeast) (hsorted' : other.Pairwise atLeast)
    (hstable : ∀ alike : τ → Bool, (∀ x y, alike x → alike y → atLeast x y) →
      ranked.filter alike = other.filter alike) : ranked = other := by
  induction ranked generalizing other with
  | nil => exact hperm.nil_eq
  | cons x rest ih =>
    cases other with
    | nil => exact hperm.eq_nil
    | cons y rest' =>
      obtain ⟨hx, hrest⟩ := List.pairwise_cons.1 hsorted
      obtain ⟨hy, hrest'⟩ := List.pairwise_cons.1 hsorted'
      have hxy : atLeast x y := by
        rcases List.mem_cons.1 (hperm.mem_iff.2 List.mem_cons_self) with rfl | hmem
        · exact hrefl y
        · exact hx y hmem
      have hyx : atLeast y x := by
        rcases List.mem_cons.1 (hperm.mem_iff.1 List.mem_cons_self) with rfl | hmem
        · exact hrefl x
        · exact hy x hmem
      -- what comes first in a list is the first of all that rank as it does
      let alike (z : τ) : Bool := decide (atLeast x z ∧ atLeast z x)
      have hsame : x = y := by
        have hfilter := hstable alike fun z w hz hw =>
          htrans z x w (of_decide_eq_true hz).2 (of_decide_eq_true hw).1
        have halikex : alike x = true := decide_eq_true ⟨hrefl x, hrefl x⟩
        have halikey : alike y = true := decide_eq_true ⟨hxy, hyx⟩
        rw [List.filter_cons_of_pos halikex, List.filter_cons_of_pos halikey] at hfilter
        exact (List.cons.inj hfilter).1
      subst hsame
      congr 1
      refine ih hperm.cons_inv hrest hrest' fun alike halike => ?_
      have hfilter := hstable alike halike
      by_cases h : alike x
      · rw [List.filter_cons_of_pos h, List.filter_cons_of_pos h] at hfilter
        exact (List.cons.inj hfilter).2
      · rwa [List.filter_cons_of_neg h, List.filter_cons_of_neg h] at hfilter

/-- **A list has one ranking.** -/
theorem IsRanked.unique (hrefl : ∀ x, atLeast x x)
    (htrans : ∀ x y z, atLeast x y → atLeast y z → atLeast x z)
    (h : IsRanked atLeast items ranked) (h' : IsRanked atLeast items other) : ranked = other :=
  eq_of_sorted_of_filter_eq hrefl htrans (h.perm.trans h'.perm.symm) h.sorted h'.sorted
    fun alike halike => (h.stable alike halike).trans (h'.stable alike halike).symm

/-- A list that nothing orders stands as it stood. -/
theorem isRanked_self (items : List τ) : IsRanked (fun _ _ => True) items items where
  perm := .refl _
  sorted := List.pairwise_of_forall fun _ _ => trivial
  stable _ _ := rfl

section Keys

variable {κ : Type} {le : κ → κ → Bool} {order : κ → κ → Prop}

/-- Ranking by a key ranks, larger keys first. -/
theorem isRanked_descending (horder : IsLinearOrder κ order) (hle : ∀ a b, le a b ↔ order a b)
    (key : τ → κ) (items : List τ) :
    IsRanked (fun x y => order (key y) (key x)) items (descending le key items) := by
  have htrans : ∀ a b c, le a b → le b c → le a c := fun a b c hab hbc =>
    (hle a c).2 (horder.trans a b c ((hle a b).1 hab) ((hle b c).1 hbc))
  have htotal : ∀ a b, le a b || le b a := fun a b => by
    rw [Bool.or_eq_true]
    exact (horder.total a b).imp (hle a b).2 (hle b a).2
  have htrans' : ∀ x y z : τ, le (key y) (key x) → le (key z) (key y) → le (key z) (key x) :=
    fun x y z hxy hyz => htrans _ _ _ hyz hxy
  have hsorted : (descending le key items).Pairwise fun x y => le (key y) (key x) = true :=
    List.pairwise_mergeSort htrans' (fun x y => htotal _ _) items
  refine ⟨descending_perm le key items, ?_, fun alike halike => ?_⟩
  · exact hsorted.imp (hle _ _).1
  · exact filter_descending htrans htotal fun x y hx hy => (hle _ _).2 (halike x y hx hy)

/-- **The ranking by a key is all that is ranked by it.** -/
theorem eq_descending_iff (horder : IsLinearOrder κ order) (hle : ∀ a b, le a b ↔ order a b)
    (key : τ → κ) (items ranked : List τ) : ranked = descending le key items ↔
      IsRanked (fun x y => order (key y) (key x)) items ranked := by
  have hranked := isRanked_descending horder hle key items
  have htrans : ∀ x y z : τ, order (key y) (key x) → order (key z) (key y) →
      order (key z) (key x) := fun x y z hxy hyz => horder.trans _ _ _ hyz hxy
  constructor
  · rintro rfl
    exact hranked
  · intro h
    exact h.unique (fun x => horder.refl (key x)) htrans hranked

theorem eq_heaviestPatternFirst_iff (pattern : τ → UInt64) (items ranked : List τ) :
    ranked = heaviestPatternFirst pattern items ↔
      IsRanked (fun x y => TotalLe (pattern y) (pattern x)) items ranked :=
  eq_descending_iff isLinearOrder_totalLe
    (fun a b => decide_eq_true_iff.trans (patternRank_le_iff a b)) pattern items ranked

theorem eq_heaviestFirst_iff (weight : τ → Float) (items ranked : List τ) :
    ranked = heaviestFirst weight items ↔
      IsRanked (fun x y => TotalLe (weight y).toBits (weight x).toBits) items ranked :=
  eq_heaviestPatternFirst_iff (fun x => (weight x).toBits) items ranked

theorem eq_largestFirst_iff (size : τ → Nat) (items ranked : List τ) :
    ranked = largestFirst size items ↔ IsRanked (fun x y => size y ≤ size x) items ranked :=
  eq_descending_iff inferInstance (fun _ _ => decide_eq_true_iff) size items ranked

end Keys

/-- Ordered by the last key, and among equals by the first. -/
def ThenBy (last first : τ → τ → Prop) (x y : τ) : Prop :=
  last x y ∧ (last y x → first x y)

theorem ThenBy.trans (hlast : ∀ {x y z}, last x y → last y z → last x z)
    (hfirst : ∀ {x y z}, first x y → first y z → first x z) {x y z : τ}
    (hxy : ThenBy last first x y) (hyz : ThenBy last first y z) : ThenBy last first x z := by
  refine ⟨hlast hxy.1 hyz.1, fun hzx => hfirst (hxy.2 ?_) (hyz.2 ?_)⟩
  · exact hlast hyz.1 hzx
  · exact hlast hzx hxy.1

open Classical in
/-- **A ranking of a ranking** is by the last order, and among equals by the first. -/
theorem IsRanked.again (hrefl : ∀ x, last x x) (h : IsRanked first items middle)
    (h' : IsRanked last middle ranked) : IsRanked (ThenBy last first) items ranked where
  perm := h'.perm.trans h.perm
  sorted := by
    rw [List.pairwise_iff_forall_sublist]
    intro x y hsub
    have hxy : last x y := List.pairwise_iff_forall_sublist.1 h'.sorted hsub
    refine ⟨hxy, fun hyx => ?_⟩
    -- two equals stand as they stood before
    let alike (z : τ) : Bool := decide (z = x ∨ z = y)
    have halike : ∀ z w, alike z → alike w → last z w := by
      intro z w hz hw
      rcases of_decide_eq_true hz with rfl | rfl
      · rcases of_decide_eq_true hw with rfl | rfl
        · exact hrefl _
        · exact hxy
      · rcases of_decide_eq_true hw with rfl | rfl
        · exact hyx
        · exact hrefl _
    have hboth : [x, y].filter alike = [x, y] := by simp [alike]
    have hmiddle : [x, y].Sublist middle := by
      have hfilter := hsub.filter alike
      rw [hboth, h'.stable alike halike] at hfilter
      exact hfilter.trans List.filter_sublist
    exact List.pairwise_iff_forall_sublist.1 h.sorted hmiddle
  stable alike halike := by
    have hlast : ∀ x y, alike x → alike y → last x y := fun x y hx hy => (halike x y hx hy).1
    have hfirst : ∀ x y, alike x → alike y → first x y := fun x y hx hy =>
      (halike x y hx hy).2 (hlast y x hy hx)
    exact (h'.stable alike hlast).trans (h.stable alike hfirst)

/-- What items can be ranked by. -/
inductive Criterion
  | weight
  | size
  deriving DecidableEq, Repr

namespace Criterion

section Items

variable (pattern : τ → UInt64) (size : τ → Nat)

/-- The items, ranked by a criterion. -/
def rank : Criterion → List τ → List τ
  | weight => heaviestPatternFirst pattern
  | .size => largestFirst size

/-- An item that a criterion does not put behind another. -/
def AtLeast : Criterion → τ → τ → Prop
  | weight, x, y => TotalLe (pattern y) (pattern x)
  | .size, x, y => size y ≤ size x

/-- Lexicographic order: by the first criterion, and among equals by the rest of them. -/
def AtLeastBy : List Criterion → τ → τ → Prop
  | [] => fun _ _ => True
  | c :: rest => ThenBy (c.AtLeast pattern size) (AtLeastBy rest)

variable {pattern size} {c : Criterion} {criteria : List Criterion} {x y z : τ}

theorem atLeast_refl (c : Criterion) (x : τ) : c.AtLeast pattern size x x := by
  cases c with
  | weight => exact isLinearOrder_totalLe.refl _
  | size => exact Nat.le_refl _

theorem atLeast_trans (hxy : c.AtLeast pattern size x y) (hyz : c.AtLeast pattern size y z) :
    c.AtLeast pattern size x z := by
  cases c with
  | weight => exact isLinearOrder_totalLe.trans _ _ _ hyz hxy
  | size => exact Nat.le_trans hyz hxy

theorem atLeastBy_refl (criteria : List Criterion) (x : τ) :
    AtLeastBy pattern size criteria x x := by
  induction criteria with
  | nil => trivial
  | cons c rest ih => exact ⟨atLeast_refl c x, fun _ => ih⟩

theorem atLeastBy_trans (hxy : AtLeastBy pattern size criteria x y)
    (hyz : AtLeastBy pattern size criteria y z) : AtLeastBy pattern size criteria x z := by
  induction criteria generalizing x y z with
  | nil => trivial
  | cons c rest ih =>
    refine ThenBy.trans ?_ ?_ hxy hyz
    · exact atLeast_trans
    · exact ih

theorem isRanked_rank (c : Criterion) (items : List τ) :
    IsRanked (c.AtLeast pattern size) items (c.rank pattern size items) := by
  cases c with
  | weight => exact (eq_heaviestPatternFirst_iff pattern items _).1 rfl
  | size => exact (eq_largestFirst_iff size items _).1 rfl

/-- **Rankings in sequence** are in the lexicographic order of their criteria, the last
first. -/
theorem isRanked_foldl (criteria : List Criterion) (items : List τ) :
    IsRanked (AtLeastBy pattern size criteria.reverse) items
      (criteria.foldl (fun items c => c.rank pattern size items) items) := by
  induction criteria using List.reverseRecOn with
  | nil => exact isRanked_self items
  | append_singleton criteria c ih =>
    rw [List.foldl_append, List.reverse_append]
    exact ih.again (atLeast_refl c) (isRanked_rank c _)

theorem eq_foldl_iff (criteria : List Criterion) (items ranked : List τ) :
    ranked = criteria.foldl (fun items c => c.rank pattern size items) items ↔
      IsRanked (AtLeastBy pattern size criteria.reverse) items ranked := by
  have hranked : IsRanked (AtLeastBy pattern size criteria.reverse) items _ :=
    isRanked_foldl criteria items
  constructor
  · rintro rfl
    exact hranked
  · intro h
    exact h.unique (atLeastBy_refl _) (fun _ _ _ => atLeastBy_trans) hranked

end Items

/-- The groups, ranked by a criterion. -/
def rankGroups : Criterion → List (Group Float) → List (Group Float)
  | weight => Group.rankByWeight
  | size => Group.rankBySize

theorem rankGroups_eq (c : Criterion) :
    c.rankGroups = c.rank (fun g => g.weight.toBits) Group.size := by
  cases c <;> rfl

end Criterion

/-- **What rankings are.** The patterns of weights are in a linear order. A list is ranked by
such patterns, by machine weights or by sizes exactly if it has the same items, descending,
equals in their order. Items that are ranked by weight and by size in any sequence are ranked
by the criterion that came last, among its equals by the one before, and so on; those that no
criterion tells apart stand as they stood at first. Groups are ranked so by what their members
weigh together and by how many they are. -/
theorem rankings_lexicographic :
    IsLinearOrder UInt64 TotalLe ∧
    (∀ {τ : Type} (pattern : τ → UInt64) (items ranked : List τ),
      ranked = heaviestPatternFirst pattern items ↔
        IsRanked (fun x y => TotalLe (pattern y) (pattern x)) items ranked) ∧
    (∀ {τ : Type} (weight : τ → Float) (items ranked : List τ),
      ranked = heaviestFirst weight items ↔
        IsRanked (fun x y => TotalLe (weight y).toBits (weight x).toBits) items ranked) ∧
    (∀ {τ : Type} (size : τ → Nat) (items ranked : List τ),
      ranked = largestFirst size items ↔
        IsRanked (fun x y => size y ≤ size x) items ranked) ∧
    (∀ {τ : Type} (pattern : τ → UInt64) (size : τ → Nat) (criteria : List Criterion)
      (items ranked : List τ),
      ranked = criteria.foldl (fun items c => c.rank pattern size items) items ↔
        IsRanked (Criterion.AtLeastBy pattern size criteria.reverse) items ranked) ∧
    ∀ (criteria : List Criterion) (groups ranked : List (Group Float)),
      ranked = criteria.foldl (fun groups c => c.rankGroups groups) groups ↔
        IsRanked (Criterion.AtLeastBy (fun g => g.weight.toBits) Group.size criteria.reverse)
          groups ranked := by
  refine ⟨isLinearOrder_totalLe, eq_heaviestPatternFirst_iff, eq_heaviestFirst_iff,
    eq_largestFirst_iff, fun _ _ => Criterion.eq_foldl_iff, fun criteria groups ranked => ?_⟩
  simp only [Criterion.rankGroups_eq]
  exact Criterion.eq_foldl_iff criteria groups ranked

end Reframe
