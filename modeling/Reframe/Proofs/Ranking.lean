import Mathlib.Data.List.Basic
import Reframe.Ranking

/-!
# The first of the largest

A stable sort leaves items of equal rank in their order. So the item that comes first in a
ranking is the first of those that none outranks.

* `filter_descending`: items that are ranked alike keep their order.
* `le_first_of_descending`: nothing outranks what comes first.
* `descending_eq_cons`: **what comes first outranks all before it**, and none after it
  outranks it.
-/

namespace Reframe

variable {τ κ : Type} {le : κ → κ → Bool} {key : τ → κ} {items rest : List τ} {first : τ}

/-- Items that are ranked alike keep their order. -/
theorem filter_descending (htrans : ∀ a b c, le a b → le b c → le a c)
    (htotal : ∀ a b, le a b || le b a) {alike : τ → Bool}
    (halike : ∀ x y, alike x → alike y → le (key y) (key x)) :
    (descending le key items).filter alike = items.filter alike := by
  have htrans' : ∀ x y z : τ, le (key y) (key x) → le (key z) (key y) → le (key z) (key x) :=
    fun x y z hxy hyz => htrans _ _ _ hyz hxy
  have hpairs : (items.filter alike).Pairwise fun x y => le (key y) (key x) = true :=
    List.pairwise_of_forall_mem_list fun x hx y hy =>
      halike x y (List.of_mem_filter hx) (List.of_mem_filter hy)
  have hsub : (items.filter alike).Sublist (descending le key items) :=
    List.sublist_mergeSort htrans' (fun x y => htotal _ _) hpairs List.filter_sublist
  have hsub : (items.filter alike).Sublist ((descending le key items).filter alike) := by
    have hfilter := hsub.filter alike
    simpa only [List.filter_filter, Bool.and_self] using hfilter
  exact (hsub.eq_of_length ((descending_perm le key items).filter alike).length_eq.symm).symm

/-- Nothing outranks what comes first in a ranking. -/
theorem le_first_of_descending (htrans : ∀ a b c, le a b → le b c → le a c)
    (htotal : ∀ a b, le a b || le b a) (h : descending le key items = first :: rest) :
    ∀ x ∈ items, le (key x) (key first) := by
  have htrans' : ∀ x y z : τ, le (key y) (key x) → le (key z) (key y) → le (key z) (key x) :=
    fun x y z hxy hyz => htrans _ _ _ hyz hxy
  have hsorted : (descending le key items).Pairwise fun x y => le (key y) (key x) = true :=
    List.pairwise_mergeSort htrans' (fun x y => htotal _ _) items
  rw [h] at hsorted
  intro x hx
  have hx : x ∈ descending le key items := (descending_perm le key items).mem_iff.2 hx
  rw [h] at hx
  rcases List.mem_cons.1 hx with rfl | hx
  · simpa only [Bool.or_self] using htotal (key x) (key x)
  · exact (List.pairwise_cons.1 hsorted).1 x hx

/-- **What comes first in a ranking** outranks all that come before it in the list, and
nothing that comes after it there outranks it. -/
theorem descending_eq_cons (htrans : ∀ a b c, le a b → le b c → le a c)
    (htotal : ∀ a b, le a b || le b a) (h : descending le key items = first :: rest) :
    ∃ before after, items = before ++ first :: after ∧
      (∀ x ∈ before, ¬ le (key first) (key x)) ∧ ∀ x ∈ after, le (key x) (key first) := by
  have hrefl : ∀ x : τ, le (key x) (key x) = true := fun x => by
    simpa only [Bool.or_self] using htotal (key x) (key x)
  have hfirst := le_first_of_descending htrans htotal h
  -- among those that are not outranked either, it is the first in the list
  let top (x : τ) : Bool := le (key first) (key x) && le (key x) (key first)
  have halike : ∀ x y, top x → top y → le (key y) (key x) := by
    intro x y hx hy
    have hx := (Bool.and_eq_true_iff.1 hx).1
    have hy := (Bool.and_eq_true_iff.1 hy).2
    exact htrans _ _ _ hy hx
  have hfilter : (first :: rest).filter top = items.filter top := by
    rw [← h]
    exact filter_descending htrans htotal halike
  have htop : top first = true := Bool.and_eq_true_iff.2 ⟨hrefl first, hrefl first⟩
  rw [List.filter_cons_of_pos htop] at hfilter
  obtain ⟨before, after, rfl, hbefore, -, -⟩ := List.filter_eq_cons_iff.1 hfilter.symm
  refine ⟨before, after, rfl, fun x hx hle => hbefore x hx ?_, fun x hx => ?_⟩
  · exact Bool.and_eq_true_iff.2 ⟨hle, hfirst x (List.mem_append_left _ hx)⟩
  · exact hfirst x (List.mem_append_right _ (List.mem_cons_of_mem _ hx))

end Reframe
