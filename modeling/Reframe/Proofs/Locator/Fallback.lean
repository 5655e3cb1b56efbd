import Reframe.Proofs.Anchor.Found
import Reframe.Proofs.Locator.Outcome
import Reframe.Proofs.Survey.Origin

/-!
# When presets stop at a subject

Presets are tried until one yields a usable detection, and an anchor is found if a detection
has weight. These are different criteria: with a least quality of zero a detection of quality
zero is usable, but has no weight. So an anchor is found exactly if the first preset that
yields anything usable yields something with weight; what later presets would yield does not
matter.

* `Survey.WeighsFirst`: the first preset that yields something usable yields weight.
* `Locator.locate_found_iff`: **an anchor is found exactly then**.
* `Locator.not_found_weightlessPreset`: a preset with weight behind one without is not tried.
-/

namespace Reframe

namespace Survey

variable {s : Survey} {gray : Gray} {angles : List Float} {presets : List Scan}

/-- The sources are the usable detections of a preset, and before it there are none. -/
theorem mem_sources_iff {d : Detection} :
    d ∈ s.sources gray angles presets ↔ ∃ before preset after,
      presets = before ++ preset :: after ∧
      (∀ earlier ∈ before, s.usable gray angles earlier = []) ∧
      d ∈ s.usable gray angles preset := by
  induction presets with
  | nil =>
    refine iff_of_false List.not_mem_nil ?_
    rintro ⟨before, preset, after, habs, -⟩
    exact List.append_ne_nil_of_right_ne_nil before (List.cons_ne_nil _ _) habs.symm
  | cons preset presets ih =>
    rw [sources, List.map_cons, List.find?_cons]
    cases husable : s.usable gray angles preset with
    | nil =>
      change d ∈ s.sources gray angles presets ↔ _
      rw [ih]
      constructor
      · rintro ⟨before, first, after, rfl, hbefore, hd⟩
        exact ⟨preset :: before, first, after, rfl, List.forall_mem_cons.2 ⟨husable, hbefore⟩, hd⟩
      · rintro ⟨_ | ⟨earlier, before⟩, first, after, heq, hbefore, hd⟩
        · cases heq
          rw [husable] at hd
          exact absurd hd List.not_mem_nil
        · cases heq
          exact ⟨before, first, after, rfl, (List.forall_mem_cons.1 hbefore).2, hd⟩
    | cons source rest =>
      change d ∈ source :: rest ↔ _
      rw [← husable]
      constructor
      · exact fun hd => ⟨[], preset, presets, rfl, fun _ habs => absurd habs List.not_mem_nil, hd⟩
      · rintro ⟨_ | ⟨earlier, before⟩, first, after, heq, hbefore, hd⟩
        · cases heq
          exact hd
        · cases heq
          rw [(List.forall_mem_cons.1 hbefore).1] at husable
          cases husable

/-- Looking upright, some preset yields a usable detection that has weight, and none before
it yields any usable one. -/
def WeighsFirst (s : Survey) (gray : Gray) : Prop :=
  ∃ before preset after, s.presets = before ++ preset :: after ∧
    (∀ earlier ∈ before, s.usable gray [0.0] earlier = []) ∧
    ∃ d ∈ s.usable gray [0.0] preset, (0.0 : Float) < d.weight

/-- Upright, the sources are found with their spots pulled into the picture. -/
theorem foundIn_upright {picture : Picture} :
    s.foundIn picture [] = (s.sources picture.toGray [0.0] s.presets).map fun d =>
      { d with spot := picture.toGray.extent.pull d.spot } :=
  found_eq

/-- Something with weight is found exactly if the first preset with anything has it. -/
theorem weighsFirst_iff {picture : Picture} :
    s.WeighsFirst picture.toGray ↔ ∃ d ∈ s.foundIn picture [], (0.0 : Float) < d.weight := by
  rw [foundIn_upright]
  constructor
  · rintro ⟨before, preset, after, hpresets, hbefore, d, hd, hweight⟩
    have hsource : d ∈ s.sources picture.toGray [0.0] s.presets :=
      mem_sources_iff.2 ⟨before, preset, after, hpresets, hbefore, hd⟩
    exact ⟨_, List.mem_map_of_mem hsource, hweight⟩
  · rintro ⟨d, hd, hweight⟩
    obtain ⟨source, hsource, rfl⟩ := List.mem_map.1 hd
    obtain ⟨before, preset, after, hpresets, hbefore, hmem⟩ := mem_sources_iff.1 hsource
    exact ⟨before, preset, after, hpresets, hbefore, source, hmem, hweight⟩

end Survey

namespace Locator

variable {l : Locator} {token : Token} {picture : Picture} {ratio : Float}
  {strategy : Strategy} {p q : Pool Look Pass}

/-- **If the detector never crashes**, there is an anchor unless a limit of time passes. -/
theorem locate_cases_of_calm (hcalm : ∀ gray scan, (l.detector gray scan).report.isSome)
    (hratio : IsRatio ratio) (hpicture : ¬ picture.extent.IsEmpty) (hp : p.Spares token)
    {w : Watched Sight (Failure Float) (Anchor Float)}
    (h : (l.locate token picture ratio strategy).Ends (Event.Spares token) p w q) :
    w = l.anchor (picture.shrink l.maxWidth) ratio
      (l.found token (picture.shrink l.maxWidth) strategy) ∨
    ∃ limit, w = ⟨[], .error (.batch (.late limit))⟩ ∧ p.limit = some limit ∧
      p.clock + limit ≤ q.clock := by
  obtain ⟨calls, hcalls, hallowed⟩ := Client.ends_iff_makes.1 h
  rcases locate_cases hratio hpicture hp hcalls hallowed with hw | ⟨fault, rfl, hblames⟩
  · exact .inl hw
  · obtain ⟨limit, rfl, hlimit, hclock, -⟩ := hblames.late hcalm
    exact .inr ⟨limit, rfl, hlimit, hclock⟩

/-- Every detection that is found has the scale of one that was reported. -/
theorem scale_of_mem_found {bound : Int}
    (hscale : ∀ gray scan report, (l.detector gray scan).report = some report →
      ∀ d ∈ report, |d.scale| ≤ bound)
    {d : Detection} (hd : d ∈ l.found token picture .single) : |d.scale| ≤ bound := by
  rw [found, Survey.foundIn_upright] at hd
  obtain ⟨source, hsource, rfl⟩ := List.mem_map.1 hd
  obtain ⟨-, preset, -, angle, -, report, hreport, hmem⟩ := Survey.mem_sources hsource
  exact hscale _ _ report hreport source hmem

/-- **When a locator finds the subject** of a picture as it stands, if its detector does not
crash, in its own pool after any history, and whatever goes on there that leaves the token
alone: exactly if the first preset that yields a usable detection on the picture that is
searched yields one with weight. Else there is an anchor that is not found. Only a limit of
time that has passed leaves no anchor. The search halts, whatever moves are made: it ends, or
crashes its caller; and it crashes only where the limit ends after the last time that the
clock can tell. -/
theorem locate_found_iff (l : Locator) (horizon : Span) {history : List (Event Look Pass)}
    {token : Token} (hhistory : ∀ e ∈ history, e.Spares token) {picture : Picture}
    (hpicture : ¬ picture.extent.IsEmpty) (hwidth : picture.extent.width ≤ maxSide)
    (hheight : picture.extent.height ≤ maxSide) {ratio : Float} (hratio : IsRatio ratio)
    (hcalm : ∀ gray scan, (l.detector gray scan).report.isSome)
    (hscale : ∀ gray scan report, (l.detector gray scan).report = some report →
      ∀ d ∈ report, |d.scale| ≤ 2 ^ 31) :
    let p := (l.pool horizon).run history
    (∀ w q, (l.locate token picture ratio .single).Ends (Event.Spares token) p w q →
      (∃ sight anchor, w = ⟨[sight], .ok anchor⟩ ∧
        (anchor.found ↔ (l.survey token).WeighsFirst (picture.shrink l.maxWidth).toGray)) ∨
      ∃ limit, w = ⟨[], .error (.batch (.late limit))⟩ ∧ l.limit = some limit ∧
        p.clock + limit ≤ q.clock) ∧
    ((∀ e ∈ history, e.Only Task.Prompt) →
      (l.locate token picture ratio .single).Halts p) ∧
    ∀ q, (l.locate token picture ratio .single).Crashes (Event.Spares token) p q →
      ∃ limit, l.limit = some limit ∧ horizon < q.clock + limit := by
  intro p
  refine ⟨fun w q h => ?_, l.halts_locate_own horizon, fun q => l.limit_of_crashes horizon⟩
  have hspares : p.Spares token := l.spares_own horizon hhistory
  rcases locate_cases_of_calm hcalm hratio hpicture hspares h with rfl |
    ⟨limit, rfl, hlimit, hclock⟩
  · obtain ⟨sight, anchor, heq⟩ := l.anchor_found_eq_ok token ratio hpicture .single
    refine .inl ⟨sight, anchor, heq, ?_⟩
    obtain ⟨hw, hh⟩ := Extent.shrunk_le hwidth hheight l.maxWidth
    rw [← Raster.extent_shrink] at hw hh
    have hresult : (Anchor.locate (picture.shrink l.maxWidth).extent ratio l.threshold
        (l.found token (picture.shrink l.maxWidth) .single)).result = .ok anchor :=
      congrArg Watched.result heq
    rw [Anchor.found_locate_iff hw hh (fun d hd => scale_of_mem_found hscale hd) hresult,
      Survey.weighsFirst_iff]
    rfl
  · exact .inr ⟨limit, rfl, (l.limit_own horizon history).symm.trans hlimit, hclock⟩

/-- Its detector reports a detection of a given quality under the first preset, and one of
quality 4 under the others. -/
def qualityByPreset (quality : Float32) (limit : Option Span) : Locator where
  detector := fun _ scan => .found
    [{ spot := ⟨2, 1⟩, scale := 3, quality := if scan.minSize = 60 then quality else 4.0 }]
  workers := 2
  limit := limit
  sound := partlyUnusable.sound

theorem scale_qualityByPreset (quality : Float32) (limit : Option Span) (gray : Gray)
    (scan : Scan) (report : List Detection)
    (h : ((qualityByPreset quality limit).detector gray scan).report = some report) :
    ∀ d ∈ report, |d.scale| ≤ 2 ^ 31 := by
  obtain rfl := Option.some.inj h
  have hthree : |(3 : Int)| ≤ 2 ^ 31 := by decide
  exact List.forall_mem_singleton.2 hthree

/-- Of a quality below zero nothing is usable, so that the second preset is tried, and its
detection found. -/
theorem locate_found_iff_secondPreset :
    ∃ sight anchor q,
      ((qualityByPreset (-1.0) none).locate 0 (Picture.clear ⟨4, 2⟩) 1.0 .single).Ends
        (Event.Spares 0) ((qualityByPreset (-1.0) none).pool .horizon) ⟨[sight], .ok anchor⟩ q ∧
      anchor.found := by
  have hhistory : ∀ e ∈ ([] : List (Event Look Pass)), e.Spares 0 := List.forall_mem_nil _
  have hpicture : ¬ (Picture.clear ⟨4, 2⟩).extent.IsEmpty := by decide
  have hratio : IsRatio (1.0 : Float) := by decide
  obtain ⟨hends, hhalts, -⟩ := locate_found_iff (qualityByPreset (-1.0) none) .horizon hhistory
    hpicture (by decide) (by decide) hratio (fun _ _ => rfl) (scale_qualityByPreset _ _)
  obtain ⟨w, q, hcourse⟩ := (hhalts (List.forall_mem_nil _)).exists_ends_sparing rfl 0
  rcases hends w q hcourse with ⟨sight, anchor, rfl, hfound⟩ | ⟨_, -, hlimit, -⟩
  · refine ⟨sight, anchor, q, hcourse, hfound.2 ?_⟩
    -- the first preset yields nothing usable, the second something with weight
    refine ⟨Scan.presets.take 1, _, _, rfl, List.forall_mem_singleton.2 ?_, _,
      List.mem_singleton.2 rfl, ?_⟩
    · decide +kernel
    · decide +kernel
  · cases hlimit

/-- A detection of quality zero is usable, and ends the search for anything else. -/
theorem missing_weightlessPreset {w : Watched Sight (Failure Float) (Anchor Float)}
    (h : ((qualityByPreset 0.0 none).locate 0 (Picture.clear ⟨4, 2⟩) 1.0 .single).Ends
      (Event.Spares 0) (Pool.idle 2 none .horizon) w q) :
    w.result.toOption.map Anchor.found = some false := by
  have hpicture : ¬ (Picture.clear ⟨4, 2⟩).extent.IsEmpty := by decide
  have hratio : IsRatio (1.0 : Float) := by decide
  rcases locate_cases_of_calm (fun _ _ => rfl) hratio hpicture (Pool.spares_idle _ _ _) h with
    rfl | ⟨_, -, hlimit, -⟩
  · decide +kernel
  · cases hlimit

/-- A course in which time is up before anything was done. -/
theorem late_qualityByPreset :
    ∃ q, ((qualityByPreset 4.0 (some 0)).locate 0 (Picture.clear ⟨4, 2⟩) 1.0 .single).Ends
      (Event.Spares 0) (Pool.idle 2 (some 0) .horizon) ⟨[], .error (.batch (.late 0))⟩ q := by
  have hevents : ∀ e ∈ [Event.move (.expire 0)], (e : Event Look Pass).Spares 0 :=
    List.forall_mem_singleton.2 trivial
  have hlate : (((Pool.idle 2 (some 0) .horizon).submit 0 ([0.0].map fun angle =>
      ((qualityByPreset 4.0 (some 0)).survey 0).look ((Picture.clear ⟨4, 2⟩).shrink 650).toGray
        (Scan.presets[0].withAngle angle))).run [.move (.expire 0)]).result? 0 =
      some (.error (.late 0)) := by decide +kernel
  exact ⟨_, .call hevents hlate .done⟩

/-- **What a later preset would find can be lost.** A preset that yields a usable detection
with weight is not tried behind one that yields a usable detection of quality zero, and the
anchor is not found. And where a limit of time passes there is no anchor at all. -/
theorem not_found_weightlessPreset :
    (¬ ∀ (l : Locator) (token : Token) (picture : Picture) (ratio : Float),
      ¬ picture.extent.IsEmpty → IsRatio ratio →
      (∀ gray scan, (l.detector gray scan).report.isSome) →
      (∃ preset ∈ l.presets, ∃ d ∈
        (l.survey token).usable (picture.shrink l.maxWidth).toGray [0.0] preset,
        (0.0 : Float) < d.weight) →
      ∀ w q, (l.locate token picture ratio .single).Ends (Event.Spares token)
        (l.pool .horizon) w q →
        ∃ sight anchor, w = ⟨[sight], .ok anchor⟩ ∧ anchor.found) ∧
    let l := qualityByPreset 4.0 (some 0)
    ∃ w q, (l.locate 0 (Picture.clear ⟨4, 2⟩) 1.0 .single).Ends (Event.Spares 0)
      (l.pool .horizon) w q ∧ ¬ ∃ sight anchor, w = ⟨[sight], .ok anchor⟩ := by
  constructor
  · intro hall
    let l := qualityByPreset 0.0 none
    have hhalts : (l.locate 0 (Picture.clear ⟨4, 2⟩) 1.0 .single).Halts (l.pool .horizon) :=
      halts_locate (by decide) (Pool.only_idle _ _ _)
    obtain ⟨w, q, hcourse⟩ := hhalts.exists_ends_sparing rfl 0
    have hpreset : Scan.presets[1] ∈ l.presets := List.getElem_mem _
    have hweight : ∃ d ∈ (l.survey 0).usable ((Picture.clear ⟨4, 2⟩).shrink 650).toGray [0.0]
        Scan.presets[1], (0.0 : Float) < d.weight := by decide +kernel
    obtain ⟨sight, anchor, rfl, hfound⟩ := hall l 0 (Picture.clear ⟨4, 2⟩) 1.0 (by decide)
      (by decide) (fun _ _ => rfl) ⟨_, hpreset, hweight⟩ w q hcourse
    rw [Option.some.inj (missing_weightlessPreset hcourse)] at hfound
    cases hfound
  · obtain ⟨q, hcourse⟩ := late_qualityByPreset
    refine ⟨_, q, hcourse, ?_⟩
    rintro ⟨sight, anchor, habs⟩
    cases habs

end Locator

end Reframe
