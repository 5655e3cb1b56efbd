import Reframe.Proofs.Anchor.Found

/-!
# When detections are refused

Detections are refused for one of three reasons, and the first one that applies is given: the
frame has no pixels, a weight is below zero or not finite, or the threshold is. Nothing is
shown then. Detections that are not refused are located, whatever the ratio: their groups are
shown once, and no later step can fail.

* `Anchor.refusal?`: the reason.
* `Anchor.groupsOn_refused`: detections that are refused have no groups.
* `Anchor.eq_missing`: an anchor that is not found has position 0.
* `Anchor.locate_refusal`: **detections are refused for that reason, or located**.
-/

namespace Reframe

section Arithmetic

variable {α : Type} [Scalar α] {e : Extent} {axis : Axis} {d : Detection}
  {detections : List Detection} {ratio threshold : α} {failure : Failure α}
  {groups : List (Group α)} {anchor : Anchor α}

/-- In a frame without pixels a detection is no sample. -/
theorem Detection.sampleOn_of_isEmpty (he : e.IsEmpty) :
    d.sampleOn e axis = (.error .emptyPicture : Except (Failure α) (Sample α)) := by
  rw [sampleOn, sample, if_pos he]
  rfl

/-- A weight that cannot serve as one is given as the reason. -/
theorem Detection.sampleOn_of_not_isWeight (he : ¬ e.IsEmpty)
    (hd : ¬ Sample.IsWeight (d.weight : α)) :
    d.sampleOn e axis = (.error (.badWeight d.weight) : Except (Failure α) (Sample α)) := by
  rw [sampleOn, sample, if_neg he, Sample.ofWeight, if_neg hd]
  rfl

namespace Anchor

/-- Why detections are refused, the first reason first: there are some but no pixels, one has
a weight that is below zero or not finite, or the threshold is. -/
def refusal? (e : Extent) (threshold : α) (detections : List Detection) : Option (Failure α) :=
  if detections ≠ [] ∧ e.IsEmpty then some .emptyPicture
  else
    match detections.find? fun d => ¬ Sample.IsWeight (d.weight : α) with
    | some d => some (.badWeight d.weight)
    | none => if IsThreshold threshold then none else some (.badThreshold threshold)

/-- **Detections that are refused have no groups**, for the reason that is given. -/
theorem groupsOn_refused (h : refusal? e threshold detections = some failure) (axis : Axis) :
    groupsOn axis e threshold detections = .error failure := by
  unfold refusal? at h
  split at h
  next hempty =>
    cases h
    obtain ⟨d, rest, rfl⟩ := List.exists_cons_of_ne_nil hempty.1
    rw [groupsOn, List.mapM_cons, Detection.sampleOn_of_isEmpty hempty.2]
    rfl
  next hempty =>
    have hframe : ∀ d ∈ detections, ¬ e.IsEmpty :=
      fun d hd he => hempty ⟨List.ne_nil_of_mem hd, he⟩
    split at h
    next d hfind =>
      cases h
      obtain ⟨hbad, before, after, rfl, hbefore⟩ := List.find?_eq_some_iff_append.1 hfind
      have hd := hframe d (List.mem_append_right _ List.mem_cons_self)
      have hfirst : ∀ b ∈ before, ∃ s : Sample α, b.sampleOn e axis = .ok s := by
        intro b hb
        have hweight : Sample.IsWeight (b.weight : α) := by simpa using hbefore b hb
        exact ⟨_, Detection.sampleOn_eq_ok (hframe b (List.mem_append_left _ hb)) hweight⟩
      have hbad : ¬ Sample.IsWeight (d.weight : α) := by simpa using hbad
      rw [groupsOn, mapM_eq_error hfirst (Detection.sampleOn_of_not_isWeight hd hbad)]
      rfl
    next hnone =>
      split at h
      · cases h
      next ht =>
        cases h
        have hgood : ∀ d ∈ detections, ¬ e.IsEmpty ∧ Sample.IsWeight (d.weight : α) :=
          fun d hd => ⟨hframe d hd, by simpa using List.find?_eq_none.1 hnone d hd⟩
        rw [groupsOn, Detection.samplesOn_eq_ok hgood]
        exact if_pos ht

/-- Without a reason to refuse them, threshold, frame and weights are in order. -/
theorem of_refusal?_eq_none (h : refusal? e threshold detections = none) :
    IsThreshold threshold ∧
      ∀ d ∈ detections, ¬ e.IsEmpty ∧ Sample.IsWeight (d.weight : α) := by
  unfold refusal? at h
  split at h
  · cases h
  next hempty =>
    split at h
    · cases h
    next hnone =>
      split at h
      next ht =>
        refine ⟨ht, fun d hd => ⟨fun he => hempty ⟨List.ne_nil_of_mem hd, he⟩, ?_⟩⟩
        simpa using List.find?_eq_none.1 hnone d hd
      · cases h

/-- Without detections there are no groups to show, in any frame. -/
theorem locate_nil (e : Extent) (ratio : α) (ht : IsThreshold threshold) :
    locate e ratio threshold [] = ⟨[[]], .ok (missing (Axis.dominant e ratio))⟩ := by
  have hgroups : groupsOn (Axis.dominant e ratio) e threshold [] = .ok [] := by
    rw [groupsOn, List.mapM_nil]
    exact if_neg (not_not.2 ht)
  have hrank : Group.rankByWeight ([] : List (Group α)) = [] := List.mergeSort_nil
  unfold locate
  extract_lets axis
  rw [hgroups]
  dsimp only
  rw [ofGroups, hrank]
  rfl

/-- **An anchor that is not found has position 0.** -/
theorem eq_missing (h : ofGroups axis groups = .ok anchor) (hmissing : ¬ anchor.found) :
    anchor = missing axis := by
  unfold ofGroups at h
  split at h
  · cases h
    rfl
  · obtain ⟨mean, -, h⟩ := ok_of_bind h
    split at h
    · cases h
      exact absurd rfl hmissing
    · cases h
      rfl

theorem locate_of_error
    (h : groupsOn (Axis.dominant e ratio) e threshold detections = .error failure) :
    locate e ratio threshold detections = ⟨[], .error failure⟩ := by
  unfold locate
  extract_lets axis
  rw [h]

end Anchor

end Arithmetic

namespace Anchor

variable {e : Extent} {detections : List Detection}

/-- **Detections are refused, or located.** If they are refused nothing is shown. If not, their
groups are shown once, and there is an anchor: it is on the axis that the crop cuts, it is found
exactly when a detection has weight, and its position is 0 if it is not found. Sides and scales
are what 32 bits can hold. -/
theorem locate_refusal (hw : e.width ≤ maxSide) (hh : e.height ≤ maxSide)
    (hscale : ∀ d ∈ detections, |d.scale| ≤ 2 ^ 31) (ratio threshold : Float) :
    match refusal? e threshold detections with
    | some failure => locate e ratio threshold detections = ⟨[], .error failure⟩
    | none => ∃ groups anchor, locate e ratio threshold detections = ⟨[groups], .ok anchor⟩ ∧
        anchor.axis = Axis.dominant e ratio ∧
        (anchor.found ↔ ∃ d ∈ detections, (0.0 : Float) < d.weight) ∧
        (¬ anchor.found → anchor.position = 0.0) := by
  split
  next failure hrefused => exact locate_of_error (groupsOn_refused hrefused _)
  next hnone =>
    obtain ⟨ht, hgood⟩ := of_refusal?_eq_none hnone
    have hlocated : ∃ groups anchor,
        locate e ratio threshold detections = ⟨[groups], .ok anchor⟩ := by
      rcases detections with _ | ⟨d, rest⟩
      · exact ⟨_, _, locate_nil e ratio ht⟩
      · exact locate_eq_ok ratio (hgood d List.mem_cons_self).1 ht fun b hb => (hgood b hb).2
    obtain ⟨groups, anchor, hlocate⟩ := hlocated
    have hresult : (locate e ratio threshold detections).result = .ok anchor := by rw [hlocate]
    refine ⟨groups, anchor, hlocate, axis_locate hresult, found_locate_iff hw hh hscale hresult,
      fun hmissing => ?_⟩
    obtain ⟨_, -, hanchor⟩ := exists_groups hresult
    rw [eq_missing hanchor hmissing]
    rfl

/-- A detection of quality 0, one of quality -1, and one whose quality is no number. -/
def badWeights : List Detection :=
  [⟨⟨1, 1⟩, 2, Float32.ofBits 0⟩, ⟨⟨3, 1⟩, 2, Float32.ofBits 0xBF800000⟩,
    ⟨⟨5, 1⟩, 2, Float32.ofBits 0x7FC00000⟩]

/-- Two weights and the threshold are out of range, and the first of those weights is the
reason. With the first detection alone there is an anchor, which is not found. -/
theorem locate_refusal_badWeights :
    (8 ≤ maxSide ∧ 4 ≤ maxSide ∧ ∀ d ∈ badWeights, |d.scale| ≤ 2 ^ 31) ∧
    (¬ IsThreshold (-1.0 : Float) ∧
      locate ⟨8, 4⟩ (1.0 : Float) (-1.0) badWeights = ⟨[], .error (.badWeight (-2.0))⟩) ∧
    ∃ groups anchor, locate ⟨8, 4⟩ (1.0 : Float) 0.05 (badWeights.take 1) = ⟨[groups], .ok anchor⟩ ∧
      anchor.axis = .horizontal ∧ ¬ anchor.found ∧ anchor.position = 0.0 := by
  have hsides : 8 ≤ maxSide ∧ 4 ≤ maxSide := by decide
  have hscale : ∀ d ∈ badWeights, |d.scale| ≤ 2 ^ 31 := by decide
  have hfirst : ∀ d ∈ badWeights.take 1, |d.scale| ≤ 2 ^ 31 := by decide
  have hrefused : refusal? ⟨8, 4⟩ (-1.0 : Float) badWeights = some (.badWeight (-2.0)) := by
    decide +kernel
  have hnone : refusal? ⟨8, 4⟩ (0.05 : Float) (badWeights.take 1) = none := by decide +kernel
  have haxis : Axis.dominant ⟨8, 4⟩ (1.0 : Float) = .horizontal := by decide +kernel
  have hlight : ¬ ∃ d ∈ badWeights.take 1, (0.0 : Float) < d.weight := by decide +kernel
  have hresult := locate_refusal (e := ⟨8, 4⟩) hsides.1 hsides.2 hscale (1.0 : Float) (-1.0)
  rw [hrefused] at hresult
  have hlocated := locate_refusal (e := ⟨8, 4⟩) hsides.1 hsides.2 hfirst (1.0 : Float) 0.05
  rw [hnone, haxis] at hlocated
  obtain ⟨groups, anchor, hlocate, hanchor, hfound, hposition⟩ := hlocated
  have hmissing : ¬ anchor.found := fun h => hlight (hfound.1 h)
  exact ⟨⟨hsides.1, hsides.2, hscale⟩, ⟨by decide, hresult⟩, groups, anchor, hlocate, hanchor,
    hmissing, hposition hmissing⟩

end Anchor

end Reframe
