import Reframe.Detector.Sample
import Reframe.Proofs.Crop
import Reframe.Proofs.Locator.Outcome

/-!
# The axis of an anchor and the axis of its crop

A picture wider than the limit is searched shrunk, and the axis of its anchor is that of
the shrunk frame. The crop is cut from the picture itself. Shrinking rounds the height;
where this turns the dominant axis, the anchor does not bear on the crop.

* `Locator.axis_of_ends_locate`: the axis of an anchor.
* `Locator.plan_cutsOnly`: a picture within the limit has its anchor on the axis that is cut.
* `Locator.plan_axis_iff`: exactly when any picture has, and what the crop is otherwise.
-/

namespace Reframe

namespace Locator

variable {l : Locator} {token : Token} {picture : Picture} {ratio : Float} {strategy : Strategy}
  {p q : Pool Look Pass} {Allowed : Event Look Pass → Prop} {seen : List Sight}
  {anchor : Anchor Float} {crop : Crop}

/-- **An anchor is on the dominant axis of the shrunk frame**, whatever the course. -/
theorem axis_of_ends_locate
    (h : (l.locate token picture ratio strategy).Ends Allowed p ⟨seen, .ok anchor⟩ q) :
    anchor.axis = Axis.dominant (picture.extent.shrunk l.maxWidth) ratio := by
  by_cases hratio : IsRatio ratio
  · by_cases hpicture : picture.extent.IsEmpty
    · rw [locate, if_neg (not_not.2 hratio), if_pos hpicture] at h
      obtain ⟨heq, -⟩ := Client.ends_done h
      cases heq
    · rw [locate_eq hratio hpicture] at h
      obtain ⟨pass, r, -, hrest⟩ := Client.ends_bind h
      cases pass with
      | error fault =>
        obtain ⟨heq, -⟩ := Client.ends_done hrest
        cases heq
      | ok detections =>
        obtain ⟨heq, -⟩ := Client.ends_done hrest
        have hresult : .ok anchor =
            (l.anchor (picture.shrink l.maxWidth) ratio detections).result := by
          rw [← heq]
        rw [← Raster.extent_shrink]
        exact Anchor.axis_locate hresult.symm
  · rw [locate, if_pos hratio] at h
    obtain ⟨heq, -⟩ := Client.ends_done h
    cases heq

/-- A crop is planned around the anchor that is located in the same course. -/
theorem ends_plan_iff :
    (l.plan token picture ratio strategy).Ends Allowed p (.ok crop) q ↔
    ∃ seen anchor, (l.locate token picture ratio strategy).Ends Allowed p ⟨seen, .ok anchor⟩ q ∧
      crop = Crop.ofRatio picture.extent ratio (some anchor) := by
  constructor
  · intro h
    obtain ⟨⟨seen, result⟩, r, hlocate, hrest⟩ := Client.ends_bind h
    obtain ⟨heq, rfl⟩ := Client.ends_done hrest
    cases result with
    | error failure => cases heq
    | ok anchor =>
      cases heq
      exact ⟨seen, anchor, hlocate, rfl⟩
  · rintro ⟨seen, anchor, hlocate, rfl⟩
    exact hlocate.bind (k := fun found => .done (found.result.map fun anchor =>
      Crop.ofRatio picture.extent ratio (some anchor))) .done

/-- **The anchor of a crop is on the axis that is cut**, for every picture within the
limit. -/
theorem plan_cutsOnly (hpicture : ¬ picture.extent.IsEmpty)
    (hw : picture.extent.width ≤ maxSide) (hh : picture.extent.height ≤ maxSide)
    (hlimit : picture.extent.width ≤ l.maxWidth) (hratio : IsRatio ratio)
    (h : (l.plan token picture ratio strategy).Ends Allowed p (.ok crop) q) :
    ∃ seen anchor, (l.locate token picture ratio strategy).Ends Allowed p ⟨seen, .ok anchor⟩ q ∧
      crop = Crop.ofRatio picture.extent ratio (some anchor) ∧
      crop.CutsOnly picture.extent anchor.axis := by
  obtain ⟨seen, anchor, hlocate, rfl⟩ := ends_plan_iff.1 h
  have haxis := axis_of_ends_locate hlocate
  rw [Extent.shrunk, if_pos hlimit] at haxis
  have hextent : (Crop.ofRatio picture.extent ratio (some anchor)).extent =
      Crop.fit picture.extent ratio := Crop.extent_ofRatio hpicture _
  refine ⟨seen, anchor, hlocate, rfl, ?_⟩
  rw [Crop.cutsOnly_iff hpicture hw hh hratio hextent]
  exact .inr haxis

/-- **When the anchor of a crop is on the axis that is cut**, for every picture: if nothing
is cut, or the picture shrunk for the search has the dominant axis of the picture. Else the
crop is the one without an anchor, though there may be one. -/
theorem plan_axis_iff (hpicture : ¬ picture.extent.IsEmpty)
    (hw : picture.extent.width ≤ maxSide) (hh : picture.extent.height ≤ maxSide)
    (hratio : IsRatio ratio)
    (h : (l.plan token picture ratio strategy).Ends Allowed p (.ok crop) q) :
    ∃ seen anchor, (l.locate token picture ratio strategy).Ends Allowed p ⟨seen, .ok anchor⟩ q ∧
      crop = Crop.ofRatio picture.extent ratio (some anchor) ∧
      (crop.CutsOnly picture.extent anchor.axis ↔
        crop.extent = picture.extent ∨
        Axis.dominant (picture.extent.shrunk l.maxWidth) ratio =
          Axis.dominant picture.extent ratio) ∧
      (¬ crop.CutsOnly picture.extent anchor.axis →
        crop = Crop.ofRatio picture.extent ratio none) := by
  obtain ⟨seen, anchor, hlocate, rfl⟩ := ends_plan_iff.1 h
  have haxis := axis_of_ends_locate hlocate
  have hextent : (Crop.ofRatio picture.extent ratio (some anchor)).extent =
      Crop.fit picture.extent ratio := Crop.extent_ofRatio hpicture _
  refine ⟨seen, anchor, hlocate, rfl, ?_, Crop.ofRatio_of_not_cutsOnly hpicture hw hh hratio⟩
  rw [Crop.cutsOnly_iff hpicture hw hh hratio hextent, haxis]

/-- A locator that searches pictures two pixels wide, and always finds something. -/
def narrow : Locator where
  detector := .constant [{ spot := ⟨1, 1⟩, scale := 3, quality := 4.0 }]
  maxWidth := 2
  sound := by decide

/-- A picture of four by three pixels is searched as a square of two by two. -/
theorem found_narrow :
    (narrow.anchor ((Picture.clear ⟨4, 3⟩).shrink 2) 1.0
      (narrow.found 0 ((Picture.clear ⟨4, 3⟩).shrink 2) .single)).result.toOption.map
      Anchor.found = some true := by
  decide +kernel

/-- A course in which an anchor is found, and passed over by a crop that is narrower. -/
theorem plan_axis_iff_narrow :
    let picture := Picture.clear ⟨4, 3⟩
    ∃ seen anchor crop q,
      (narrow.locate 0 picture 1.0 .single).Ends (Event.Spares 0) (narrow.pool .horizon)
        ⟨seen, .ok anchor⟩ q ∧
      (narrow.plan 0 picture 1.0 .single).Ends (Event.Spares 0) (narrow.pool .horizon)
        (.ok crop) q ∧
      anchor.found ∧ anchor.axis = .vertical ∧ crop.extent = ⟨3, 3⟩ ∧
      crop = Crop.ofRatio picture.extent 1.0 none := by
  intro picture
  have hpicture : ¬ picture.extent.IsEmpty := by decide
  have hratio : IsRatio (1.0 : Float) := by decide
  have hspares : (narrow.pool .horizon).Spares 0 := Pool.spares_idle _ _ _
  have hlooks : ∀ {w q}, (narrow.locate 0 picture 1.0 .single).Ends (Event.Spares 0)
      (narrow.pool .horizon) w q →
      w = narrow.anchor (picture.shrink 2) 1.0 (narrow.found 0 (picture.shrink 2) .single) := by
    intro w q h
    obtain ⟨calls, hcalls, hallowed⟩ := Client.ends_iff_makes.1 h
    rcases locate_cases hratio hpicture hspares hcalls hallowed with hw |
      ⟨_, _, ⟨_, _, _, _, look, _, hcrash⟩ | ⟨_, _, hlimit, _⟩⟩
    · exact hw
    · cases hcrash
    · cases hlimit
  -- some course locates the anchor and plans the crop
  have hhalts : (narrow.locate 0 picture 1.0 .single).Halts (narrow.pool .horizon) :=
    halts_locate (by decide) (Pool.only_idle _ _ _)
  obtain ⟨w, q, hcourse⟩ := hhalts.exists_ends_sparing rfl 0
  obtain ⟨sight, found, heq⟩ := narrow.anchor_found_eq_ok 0 1.0 hpicture .single
  obtain rfl := (hlooks hcourse).trans heq
  have hplan := ends_plan_iff.2 ⟨_, _, hcourse, rfl⟩
  obtain ⟨seen, anchor, hlocate, hcrop, hiff, hother⟩ :=
    plan_axis_iff hpicture (by decide) (by decide) hratio hplan
  have haxis : anchor.axis = .vertical := by
    rw [axis_of_ends_locate hlocate]
    decide +kernel
  have hextent : ∀ a : Option (Anchor Float),
      (Crop.ofRatio picture.extent 1.0 a).extent = ⟨3, 3⟩ := by
    intro a
    rw [Crop.extent_ofRatio hpicture]
    decide
  have hfound : anchor.found = true := by
    have hresult := found_narrow
    rw [← hlooks hlocate] at hresult
    exact Option.some.inj hresult
  refine ⟨seen, anchor, _, q, hlocate, hplan, hfound, haxis, hextent _, hother ?_⟩
  rw [hiff, hextent, not_or]
  exact ⟨by decide, by decide +kernel⟩

end Locator

end Reframe
