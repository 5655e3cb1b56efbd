import Reframe.Proofs.Anchor.Copied
import Reframe.Proofs.Locator.Outcome
import Reframe.Proofs.Survey.Pointwise

/-!
# Looking upright and looking all around

For a detector that looks at single pixels it makes no difference how the picture is held.
A survey all around finds what a look upright finds, as many times over as it makes passes
and in another order; and over the reals neither changes where the subject is, as long as one
group outweighs all others. So the two strategies agree, in all that an anchor says.

* `Locator.locateIn`: a search whose anchor is computed in any arithmetic.
* `Locator.locateIn_machine`: in the machine's it is the search itself.
* `strategies_agree`: **the strategies agree**.
-/

namespace Reframe

theorem Binary.toReal_nonneg {u : Float.Model.UnpackedFloat} (h : NotNegative u) :
    0 ≤ toReal u := by
  cases u with
  | notANumber => exact le_rfl
  | infinity s => exact le_rfl
  | zero s => exact le_rfl
  | finite s m e hm =>
    cases s with
    | positive =>
      have hnonneg := magnitude_nonneg m e
      exact Rat.cast_nonneg.2 hnonneg
    | negative => exact h.elim

/-- What a survey keeps can serve as a sample over the reals, too. -/
theorem Survey.isWeight_real_of_isUsable {s : Survey} {d : Detection}
    (hmin : ¬ s.minQuality < 0.0) (h : s.IsUsable d) : Sample.IsWeight (d.weight : ℝ) := by
  obtain ⟨hscale, -, hquality, -⟩ := h
  have hq := Binary.not_lt_zero_iff_single.1 (Binary.not_lt_zero_of_le_single hmin hquality)
  have hscale : (0 : ℝ) ≤ (d.scale : ℝ) := by exact_mod_cast hscale.le
  exact isWeight_real.2 (mul_nonneg hscale (Binary.toReal_nonneg hq))

theorem Detector.IsPointwise.isSome {detector : Detector}
    {size : UInt8 → Option (Int × Float32)} (h : detector.IsPointwise size) (gray : Gray)
    (scan : Scan) : (detector gray scan).report.isSome := by
  obtain ⟨report, hreport, -⟩ := h gray scan
  rw [hreport]
  rfl

namespace Locator

variable {α : Type} [Scalar α] {l : Locator} {token : Token} {picture : Picture}
  {strategy : Strategy} {p q : Pool Look Pass}

/-- A search for the anchor, which is computed from the detections in any arithmetic. -/
def locateIn (l : Locator) (token : Token) (picture : Picture) (ratio threshold : α)
    (strategy : Strategy) : Client Look Pass (Except (Failure α) (Anchor α)) :=
  if ¬ IsRatio ratio then .done (.error (.badRatio ratio))
  else if picture.extent.IsEmpty then .done (.error .emptyPicture)
  else do
    let working := picture.shrink l.maxWidth
    match ← l.search token working strategy with
    | .error fault => return .error (.batch fault)
    | .ok detections => return (Anchor.locate working.extent ratio threshold detections).result

theorem locateIn_eq {ratio : α} (hratio : IsRatio ratio) (hpicture : ¬ picture.extent.IsEmpty)
    (threshold : α) : l.locateIn token picture ratio threshold strategy =
      (l.search token (picture.shrink l.maxWidth) strategy).bind fun
        | .error fault => .done (.error (.batch fault))
        | .ok detections => .done
          (Anchor.locate (picture.shrink l.maxWidth).extent ratio threshold detections).result := by
  rw [locateIn, if_neg (not_not.2 hratio), if_neg hpicture]
  refine congrArg (Client.bind _) (funext fun pass => ?_)
  cases pass <;> rfl

/-- **In the machine's arithmetic** it is what the locator does. -/
theorem locateIn_machine (l : Locator) (token : Token) (picture : Picture) (ratio : Float)
    (strategy : Strategy) : l.locateIn token picture ratio l.threshold strategy =
      (l.locate token picture ratio strategy).bind fun w => .done w.result := by
  by_cases hratio : IsRatio ratio
  · by_cases hpicture : picture.extent.IsEmpty
    · rw [locateIn, locate, if_neg (not_not.2 hratio), if_pos hpicture,
        if_neg (not_not.2 hratio), if_pos hpicture]
      rfl
    · rw [locateIn_eq hratio hpicture, locate_eq hratio hpicture, Client.bind_assoc]
      refine congrArg (Client.bind _) (funext fun pass => ?_)
      cases pass <;> rfl
  · rw [locateIn, locate, if_pos hratio, if_pos hratio]
    rfl

/-- What a search comes to whose detector never crashes: the anchor among what plain looks
find, or the end of a time that has passed. -/
theorem locateIn_cases {ratio threshold : α}
    (hcalm : ∀ gray scan, (l.detector gray scan).report.isSome) (hratio : IsRatio ratio)
    (hpicture : ¬ picture.extent.IsEmpty) (hp : p.Spares token)
    {result : Except (Failure α) (Anchor α)}
    (h : (l.locateIn token picture ratio threshold strategy).Ends (Event.Spares token) p result q) :
    result = (Anchor.locate (picture.shrink l.maxWidth).extent ratio threshold
      (l.found token (picture.shrink l.maxWidth) strategy)).result ∨
    ∃ limit, result = .error (.batch (.late limit)) ∧ p.limit = some limit ∧
      p.clock + limit ≤ q.clock := by
  rw [locateIn_eq hratio hpicture] at h
  obtain ⟨pass, r, hsearch, hrest⟩ := Client.ends_bind h
  obtain ⟨calls, hsearch⟩ := Client.semantics_of_ends hsearch
  have hcomes := comes_search p (l.not_isEmpty_working hpicture) strategy (p, []) _ (r, calls)
    ⟨.refl p, hp⟩ hsearch
  rcases hcomes with ⟨heq, -⟩ | ⟨fault, heq, hblames⟩
  · cases heq
    obtain ⟨rfl, -⟩ := Client.ends_done hrest
    exact .inl rfl
  · cases heq
    obtain ⟨rfl, rfl⟩ := Client.ends_done hrest
    obtain ⟨limit, rfl, hlimit, hclock, -⟩ := hblames.late hcalm
    exact .inr ⟨limit, rfl, hlimit, hclock⟩

theorem halts_locateIn {ratio threshold : α} (hworkers : 0 < p.workers)
    (hp : p.Only Task.Prompt) :
    (l.locateIn token picture ratio threshold strategy).Halts p := by
  refine Client.halts hworkers hp ?_
  unfold locateIn
  split
  · trivial
  · split
    · trivial
    · refine (only_search.bind fun pass => ?_).imp fun _ ht => ht.prompt
      cases pass <;> trivial

/-- What a search comes to in the locator's own pool, after any history: this anchor, if no
event sets its token, or a limit of time that has passed. It halts, whatever moves are made,
and crashes only where the limit ends after the last time that the clock can tell. -/
structure ComesTo (l : Locator) (token : Token)
    (c : Client Look Pass (Except (Failure α) (Anchor α))) (anchor : Anchor α) : Prop where
  spared : ∀ horizon history result q, (∀ e ∈ history, e.Spares token) →
    c.Ends (Event.Spares token) ((l.pool horizon).run history) result q →
    result = .ok anchor ∨ ∃ limit, result = .error (.batch (.late limit)) ∧
      l.limit = some limit ∧ ((l.pool horizon).run history).clock + limit ≤ q.clock
  halts : ∀ horizon history, (∀ e ∈ history, e.Only Task.Prompt) →
    c.Halts ((l.pool horizon).run history)
  crashes : ∀ horizon history q, c.Crashes (Event.Spares token) ((l.pool horizon).run history) q →
    ∃ limit, l.limit = some limit ∧ horizon < q.clock + limit

section Pointwise

variable {size : UInt8 → Option (Int × Float32)}

/-- What is found does not depend on the token. -/
theorem found_single_eq (token token' : Token) :
    l.found token' picture .single = l.found token picture .single := by
  suffices hfound : ∀ gray angles presets, (l.survey token').found gray angles presets =
      (l.survey token).found gray angles presets from hfound _ _ _
  intro gray angles presets
  induction presets with
  | nil => rfl
  | cons preset presets ih =>
    have hkept : (l.survey token').kept gray angles preset =
        (l.survey token).kept gray angles preset := rfl
    rw [Survey.found, Survey.found, hkept, ih]

/-- **All around is found what is found upright**, once for each pass, under whatever token. -/
theorem isCopied_found (hdetector : l.detector.IsPointwise size)
    (htrue : ∀ a, l.instruments.spots.IsTrue a) (he : picture.extent.IsModest)
    (hrotations : ∀ degrees ∈ l.rotations, Angle.IsMultiple degrees) (token token' : Token)
    (strategy : Strategy) :
    ∃ n, IsCopied n (l.found token picture .single) (l.found token' picture strategy) := by
  rw [← found_single_eq token token']
  cases strategy with
  | single =>
    refine ⟨1, Nat.one_pos, .of_eq ?_⟩
    rw [List.replicate_one, List.flatten_singleton]
  | around =>
    have hsound := Settings.fault?_eq_none_iff.1 l.sound
    obtain ⟨rotation, hrotation⟩ := List.exists_mem_of_ne_nil _ hsound.rotations
    obtain ⟨angle, hangle⟩ := List.exists_mem_of_ne_nil _ hsound.angles
    have hpass : (rotation, angle) ∈ (l.survey token').passes :=
      Survey.mem_passes.2 ⟨hrotation, hangle⟩
    exact ⟨_, List.length_pos_of_mem hpass,
      Survey.perm_foundAround (s := l.survey token') hdetector htrue he hrotations⟩

/-- One group of what is found upright outweighs all others. -/
def HasLeader (l : Locator) (token : Token) (picture : Picture) (ratio threshold : ℝ) : Prop :=
  ∀ groups, Anchor.groupsOn (Axis.dominant (picture.shrink l.maxWidth).extent ratio)
    (picture.shrink l.maxWidth).extent threshold
    (l.found token (picture.shrink l.maxWidth) .single) = .ok groups → Group.HasLeader groups

/-- The anchor of a strategy is the one of looking upright. -/
theorem result_eq_of_hasLeader {ratio threshold : ℝ} (hdetector : l.detector.IsPointwise size)
    (htrue : ∀ a, l.instruments.spots.IsTrue a) (he : picture.extent.IsModest)
    (hrotations : ∀ degrees ∈ l.rotations, Angle.IsMultiple degrees)
    (ht : IsThreshold threshold) (hleader : l.HasLeader token picture ratio threshold)
    (token' : Token) (strategy : Strategy) :
    (Anchor.locate (picture.shrink l.maxWidth).extent ratio threshold
      (l.found token' (picture.shrink l.maxWidth) strategy)).result =
    (Anchor.locate (picture.shrink l.maxWidth).extent ratio threshold
      (l.found token (picture.shrink l.maxWidth) .single)).result := by
  have hsound := Settings.fault?_eq_none_iff.1 l.sound
  have hworking : (picture.shrink l.maxWidth).extent.IsModest := by
    rw [Raster.extent_shrink]
    exact Extent.isModest_shrunk he hsound.maxWidth
  obtain ⟨n, hcopied⟩ := isCopied_found hdetector htrue hworking hrotations token token' strategy
  refine Anchor.locate_copied hcopied hworking.not_isEmpty ht (fun d hd => ?_) hleader
  have hmin : ¬ (l.survey token).minQuality < 0.0 := hsound.minQuality
  exact Survey.isWeight_real_of_isUsable hmin (Survey.isUsable_of_mem_foundIn hd)

/-- **Both strategies come to one anchor.** -/
theorem exists_anchor (l : Locator) (hdetector : l.detector.IsPointwise size)
    (htrue : ∀ a, l.instruments.spots.IsTrue a) (he : picture.extent.IsModest)
    (hrotations : ∀ degrees ∈ l.rotations, Angle.IsMultiple degrees) {ratio threshold : ℝ}
    (hratio : IsRatio ratio) (ht : IsThreshold threshold)
    (hleader : l.HasLeader token picture ratio threshold) :
    ∃ anchor : Anchor ℝ, ∀ strategy token',
      l.ComesTo token' (l.locateIn token' picture ratio threshold strategy) anchor := by
  have hmin : ¬ (l.survey token).minQuality < 0.0 :=
    (Settings.fault?_eq_none_iff.1 l.sound).minQuality
  obtain ⟨groups, anchor, hupright⟩ := Anchor.locate_eq_ok ratio
    (l.not_isEmpty_working he.not_isEmpty) ht fun d hd =>
      Survey.isWeight_real_of_isUsable hmin (Survey.isUsable_of_mem_foundIn hd)
  refine ⟨anchor, fun strategy token' => ⟨?_, ?_, ?_⟩⟩
  · intro horizon history result q hhistory hends
    rcases locateIn_cases hdetector.isSome hratio he.not_isEmpty (l.spares_own horizon hhistory)
      hends with rfl | ⟨limit, rfl, hlimit, hclock⟩
    · left
      rw [result_eq_of_hasLeader hdetector htrue he hrotations ht hleader]
      exact congrArg Watched.result hupright
    · exact .inr ⟨limit, rfl, (l.limit_own horizon history).symm.trans hlimit, hclock⟩
  · intro horizon history hprompt
    obtain ⟨hworkers, honly⟩ := l.prompt_own horizon hprompt
    exact halts_locateIn hworkers honly
  · exact fun horizon history q => l.limit_of_crashes horizon

end Pointwise

end Locator

/-- **The strategies agree**, if the detector looks at single pixels and the instruments are
true at right angles. A pass over a copy that is turned by a multiple of 90 degrees answers
what a pass over the picture does, up to order, be it spread in a pool or on the spot. And
over the reals, if one group of what is found upright outweighs all others, there is one
anchor that a locator whose rotations are such multiples comes to, whatever the strategy. -/
theorem strategies_agree {detector : Detector} {size : UInt8 → Option (Int × Float32)}
    (hdetector : detector.IsPointwise size) {instruments : Instruments}
    (htrue : ∀ a, instruments.spots.IsTrue a) {picture : Picture}
    (hmodest : picture.extent.IsModest) :
    (∀ s : Survey, s.detector = detector → s.instruments = instruments → ∀ angles,
      ∃ upright, s.Answers (s.detect Client.fanOut picture angles) upright ∧
        ∀ degrees, Angle.IsMultiple degrees → ∃ turned, turned.Perm upright ∧
          s.Answers (s.detectTurned Client.fanOut picture degrees angles) turned ∧
          (s.detectTurned Task.each picture degrees angles).alone = some (.ok turned)) ∧
    ∀ l : Locator, l.detector = detector → l.instruments = instruments →
      (∀ degrees ∈ l.rotations, Angle.IsMultiple degrees) →
      ∀ ratio threshold : ℝ, IsRatio ratio → IsThreshold threshold →
      ∀ token, l.HasLeader token picture ratio threshold →
        ∃ anchor : Anchor ℝ, ∀ strategy token',
          l.ComesTo token' (l.locateIn token' picture ratio threshold strategy) anchor := by
  constructor
  · rintro s rfl rfl angles
    refine ⟨_, s.answers_detect hdetector.isSome picture angles, fun degrees hdegrees => ?_⟩
    exact ⟨_, Survey.perm_foundTurned hdetector htrue hmodest hdegrees angles,
      s.answers_detectTurned hdetector.isSome picture degrees angles,
      s.alone_detectTurned hdetector.isSome picture degrees angles⟩
  · rintro l rfl rfl hrotations ratio threshold hratio ht token hleader
    exact l.exists_anchor hdetector htrue hmodest hrotations hratio ht hleader

/-- A locator that reports bright pixels, and turns pictures by right angles alone. -/
def brightPixels : Locator where
  detector := .above 50
  rotations := [0.0, -90.0, 450.0]
  angles := [0.5]
  workers := 2
  instruments := .rough
  sound := by decide

section BrightPixels

open Binary

theorem Angle.isMultiple_rotations_brightPixels :
    ∀ degrees ∈ brightPixels.rotations, IsMultiple degrees := by
  have hright : Denotes 90.0 ((1 : ℕ) * 90) := RightAngle.denotes_degrees .quarter
  have hleft : Denotes (-90.0) (-((1 : ℕ) * 90)) := by
    refine hright.neg.denotes (IsShort.neg ?_)
    exact isShort_multiple (k := 1) (by decide)
  have hmore : Denotes 450.0 (5 * 90) := by
    refine HasValue.denotes ⟨7916483719987200, -44, by decide, rfl, ?_⟩
    norm_num [magnitude]
  simp only [brightPixels, List.forall_mem_cons]
  refine ⟨⟨0, ?_⟩, ⟨-1, ?_⟩, ⟨5, hmore⟩, List.forall_mem_nil _⟩
  · simpa using amount_zero.denotes
  · simpa using hleft

/-- There is nothing but the red pixel of the redCorner. -/
theorem Locator.hasLeader_brightPixels : brightPixels.HasLeader 0 redCorner 1.0 0.05 := by
  intro groups hgroups
  have hfound : brightPixels.found 0 (redCorner.shrink brightPixels.maxWidth) .single =
      [{ spot := ⟨2, 0⟩, scale := 54, quality := 1.0 }] := by decide +kernel
  have husable : (brightPixels.survey 0).IsUsable
      { spot := ⟨2, 0⟩, scale := 54, quality := 1.0 } := by decide
  have hmin : ¬ (brightPixels.survey 0).minQuality < 0.0 := by decide
  have hthreshold : IsThreshold (0.05 : ℝ) := ⟨rfl, by norm_num⟩
  rw [hfound, Anchor.groupsOn_lone (by decide) hthreshold
    (Survey.isWeight_real_of_isUsable hmin husable)] at hgroups
  cases hgroups
  exact fun _ => ⟨_, List.mem_singleton.2 rfl, fun g hg hne => absurd (List.mem_singleton.1 hg) hne⟩

theorem strategies_agree_brightPixels :
    (∃ upright turned, turned.Perm upright ∧
      ((brightPixels.survey 0).detectTurned Task.each redCorner (-90.0) [0.5]).alone =
        some (.ok turned)) ∧
    ∃ anchor : Anchor ℝ, ∀ strategy, ∃ q,
      (brightPixels.locateIn 0 redCorner 1.0 0.05 strategy).Ends (Event.Spares 0)
        (brightPixels.pool .horizon) (.ok anchor) q := by
  have hmodest : redCorner.extent.IsModest := by
    constructor <;> decide
  have hrotations := Angle.isMultiple_rotations_brightPixels
  have hratio : IsRatio (1.0 : ℝ) := ⟨rfl, by norm_num⟩
  have hthreshold : IsThreshold (0.05 : ℝ) := ⟨rfl, by norm_num⟩
  have hdetector : brightPixels.detector.IsPointwise _ := Detector.isPointwise_perPixel _
  obtain ⟨hpasses, hanchors⟩ := strategies_agree hdetector Instruments.isTrue_rough hmodest
  constructor
  · obtain ⟨upright, -, hturned⟩ := hpasses (brightPixels.survey 0) rfl rfl [0.5]
    have hleft : (-90.0 : Float) ∈ brightPixels.rotations := .tail _ (.head _)
    obtain ⟨turned, hperm, -, halone⟩ := hturned _ (hrotations _ hleft)
    exact ⟨upright, turned, hperm, halone⟩
  · obtain ⟨anchor, hanchor⟩ := hanchors brightPixels rfl rfl hrotations _ _ hratio hthreshold 0
      Locator.hasLeader_brightPixels
    refine ⟨anchor, fun strategy => ?_⟩
    obtain ⟨hspared, hhalts, -⟩ := hanchor strategy 0
    have hhalts := hhalts .horizon [] (List.forall_mem_nil _)
    obtain ⟨result, q, hcourse⟩ := hhalts.exists_ends_sparing rfl 0
    rcases hspared .horizon [] result q (List.forall_mem_nil _) hcourse with rfl |
      ⟨_, -, hlimit, -⟩
    · exact ⟨q, hcourse⟩
    · cases hlimit

end BrightPixels

end Reframe
