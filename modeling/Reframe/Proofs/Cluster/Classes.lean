import Mathlib.Data.List.Perm.Basic
import Reframe.Cluster

/-!
# Classes of a labelled list

Sorting items into classes, one item after the other, gives what a recursion on
the list gives: the first item together with all later ones of its label, then
the classes of the rest. In this form the classes are easy to reason about.

* `byLabel_map`: the two agree.
* `mem_classes`: two items share a class exactly when they share a label.
* `flatten_classes_perm`: every item is in one class, as often as in the list.
* `mem_classes_iff`: a class is what carries the label of an item.
* `sublist_of_mem_classes`, `pairwise_classes`: members come in the order of the
  list, and classes in the order of their first members.
-/

namespace Reframe.Cluster

variable {ι τ : Type}

/-- The items with a label. -/
def peers (label : ι → Nat) (l : Nat) (is : List ι) : List ι :=
  is.filter (label · = l)

/-- The items with other labels. -/
def others (label : ι → Nat) (l : Nat) (is : List ι) : List ι :=
  is.filter (label · ≠ l)

/-- The classes of items by label: the first item with its peers, then the others. -/
def classes (label : ι → Nat) : List ι → List (List ι)
  | [] => []
  | x :: xs => (x :: peers label (label x) xs) :: classes label (others label (label x) xs)
termination_by items => items.length
decreasing_by exact Nat.lt_succ_of_le (List.length_filter_le ..)

variable {label : ι → Nat}

@[simp] theorem mem_peers {l : Nat} {is : List ι} {i : ι} :
    i ∈ peers label l is ↔ i ∈ is ∧ label i = l := by
  simp [peers]

@[simp] theorem mem_others {l : Nat} {is : List ι} {i : ι} :
    i ∈ others label l is ↔ i ∈ is ∧ label i ≠ l := by
  simp [others]

theorem peers_sublist (l : Nat) (is : List ι) : (peers label l is).Sublist is :=
  List.filter_sublist

theorem others_sublist (l : Nat) (is : List ι) : (others label l is).Sublist is :=
  List.filter_sublist

theorem peers_append_others_perm (l : Nat) (is : List ι) :
    (peers label l is ++ others label l is).Perm is := by
  simpa [peers, others] using List.filter_append_perm (fun i => decide (label i = l)) is

/-- Placing items in classes of which one is first: its peers join it, and the others
find their places in the rest. -/
theorem foldl_place (item : ι → τ) (is : List ι) (l : Nat) (xs : List τ)
    (rest : List (Nat × List τ)) :
    is.foldl (fun classes i => place classes (label i) (item i)) ((l, xs) :: rest) =
      (l, xs ++ (peers label l is).map item) ::
        (others label l is).foldl (fun classes i => place classes (label i) (item i)) rest := by
  induction is generalizing xs rest with
  | nil => simp [peers, others]
  | cons i is ih =>
    rw [List.foldl_cons, place]
    by_cases h : l = label i
    · rw [if_pos h, ih]
      simp [peers, others, h]
    · rw [if_neg h, ih]
      simp [peers, others, Ne.symm h]

/-- **Placing items one by one** gives their classes. -/
theorem byLabel_map (label : ι → Nat) (item : ι → τ) (is : List ι) :
    byLabel (is.map label) (is.map item) = (classes label is).map (·.map item) := by
  have hfold : ∀ is : List ι, ((is.map label).zip (is.map item)).foldl
      (fun classes p => place classes p.1 p.2) [] =
        is.foldl (fun classes i => place classes (label i) (item i)) [] := by
    intro is
    rw [List.zip_map', List.foldl_map]
  rw [byLabel, hfold]
  induction is using classes.induct label with
  | case1 => simp [classes]
  | case2 i is ih =>
    rw [List.foldl_cons, place, foldl_place, List.map_cons, ih, classes, List.map_cons]
    rfl

/-- **Two items share a class exactly when they share a label.** -/
theorem mem_classes (is : List ι) (i j : ι) :
    (∃ part ∈ classes label is, i ∈ part ∧ j ∈ part) ↔ i ∈ is ∧ j ∈ is ∧ label i = label j := by
  induction is using classes.induct label with
  | case1 => simp [classes]
  | case2 x xs ih =>
    rw [classes, List.exists_mem_cons_iff, ih]
    simp only [List.mem_cons, mem_peers, mem_others]
    constructor
    · rintro (⟨hi, hj⟩ | ⟨hi, hj, h⟩)
      · have hli : label i = label x := by rcases hi with rfl | hi <;> tauto
        have hlj : label j = label x := by rcases hj with rfl | hj <;> tauto
        exact ⟨by tauto, by tauto, hli.trans hlj.symm⟩
      · exact ⟨.inr hi.1, .inr hj.1, h⟩
    · rintro ⟨hi, hj, h⟩
      -- either both are peers of the first item, or neither is
      by_cases hx : label i = label x
      · exact .inl ⟨by tauto, hj.imp_right fun hj => ⟨hj, h.symm.trans hx⟩⟩
      · have hi' : i ≠ x := fun e => hx (e ▸ rfl)
        have hj' : j ≠ x := fun e => hx (e ▸ h)
        exact .inr ⟨⟨hi.resolve_left hi', hx⟩, ⟨hj.resolve_left hj', h ▸ hx⟩, h⟩

/-- **Every item is in one class**, as often as it is in the list. -/
theorem flatten_classes_perm (is : List ι) :
    (classes label is).flatten.Perm is := by
  induction is using classes.induct label with
  | case1 => simp [classes]
  | case2 x xs ih =>
    rw [classes, List.flatten_cons, List.cons_append]
    exact ((ih.append_left _).trans (peers_append_others_perm _ _)).cons x

/-- The members of a class come in the order of the list. -/
theorem sublist_of_mem_classes {is part : List ι}
    (h : part ∈ classes label is) : part.Sublist is := by
  induction is using classes.induct label with
  | case1 => simp [classes] at h
  | case2 x xs ih =>
    rw [classes, List.mem_cons] at h
    rcases h with rfl | h
    · exact (peers_sublist _ _).cons_cons x
    · exact ((ih h).trans (others_sublist _ _)).cons x

/-- No class is empty. -/
theorem ne_nil_of_mem_classes {is part : List ι}
    (h : part ∈ classes label is) : part ≠ [] := by
  induction is using classes.induct label with
  | case1 => simp [classes] at h
  | case2 x xs ih =>
    rw [classes, List.mem_cons] at h
    rcases h with rfl | h
    · exact List.cons_ne_nil _ _
    · exact ih h

/-- **The classes come in the order of their first members**: what holds between every
item and all later ones holds between the first members of a class and of a later one. -/
theorem pairwise_classes {r : ι → ι → Prop} {is : List ι} (h : is.Pairwise r) :
    (classes label is).Pairwise fun p q => ∀ i ∈ p.head?, ∀ j ∈ q.head?, r i j := by
  induction is using classes.induct label with
  | case1 => simp [classes]
  | case2 x xs ih =>
    obtain ⟨hx, hxs⟩ := List.pairwise_cons.1 h
    rw [classes, List.pairwise_cons]
    refine ⟨fun q hq i hi j hj => ?_, ih (hxs.sublist (others_sublist _ _))⟩
    obtain rfl : x = i := by simpa using hi
    have hjq : j ∈ q := List.mem_of_mem_head? hj
    exact hx j ((others_sublist _ _).subset ((sublist_of_mem_classes hq).subset hjq))

/-- **A class is what carries the label of an item.** -/
theorem mem_classes_iff {is part : List ι} :
    part ∈ classes label is ↔ ∃ i ∈ is, part = is.filter (label · = label i) := by
  induction is using classes.induct label with
  | case1 => simp [classes]
  | case2 x xs ih =>
    have hfirst : (x :: xs).filter (label · = label x) = x :: peers label (label x) xs :=
      List.filter_cons_of_pos (decide_eq_true rfl)
    -- what carries another label is not among the peers of the first item
    have hlater : ∀ i, label i ≠ label x → (others label (label x) xs).filter (label · = label i) =
        (x :: xs).filter (label · = label i) := by
      intro i hi
      have hdrop : (x :: xs).filter (label · = label i) = xs.filter (label · = label i) :=
        List.filter_cons_of_neg (by simpa using Ne.symm hi)
      rw [hdrop, others, List.filter_filter]
      refine List.filter_congr fun j _ => ?_
      by_cases hj : label j = label i
      · simp [hj, hi]
      · simp [hj]
    rw [classes, List.mem_cons, ih, ← hfirst]
    constructor
    · rintro (rfl | ⟨i, hi, rfl⟩)
      · exact ⟨x, List.mem_cons_self, rfl⟩
      · obtain ⟨hmem, hne⟩ := mem_others.1 hi
        exact ⟨i, List.mem_cons_of_mem x hmem, hlater i hne⟩
    · rintro ⟨i, hi, rfl⟩
      by_cases hx : label i = label x
      · left
        rw [hx]
      · right
        have hmem : i ∈ xs := (List.mem_cons.1 hi).resolve_left fun heq => hx (heq ▸ rfl)
        exact ⟨i, mem_others.2 ⟨hmem, hx⟩, (hlater i hx).symm⟩

end Reframe.Cluster
