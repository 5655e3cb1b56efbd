import Reframe.Detector.Sample
import Reframe.Locator
import Reframe.Proofs.Anchor
import Reframe.Proofs.Shrink
import Reframe.Proofs.Survey.Pooled

/-!
# What locating comes to

A locator's settings make sense, a survey keeps only detections that can serve as
samples, and a picture with pixels is searched in a frame with pixels. So only a crash of
the detector or the end of a limit of time can keep a locator from an anchor, whatever else
its pool is used for.

* `Settings.fault?_eq_none_iff`: the checks of settings.
* `Locator.locate_cases`: what a search for the anchor comes to in a pool that spares its
  token.
* `Locator.locate_crashes`: a limit of which the clock cannot tell the end.
* `Locator.locate_outcome`: **what locating comes to** in a locator's own pool after any
  history, and that it halts.
-/

namespace Reframe

/-- **What a survey keeps can serve as a sample**: weights are finite and not negative. -/
theorem Survey.isWeight_of_isUsable {s : Survey} {d : Detection} (hmin : ¬ s.minQuality < 0.0)
    (h : s.IsUsable d) : Sample.IsWeight (d.weight : Float) := by
  obtain ⟨hscale, -, hquality, hfinite⟩ := h
  have hq : ¬ d.quality < 0.0 := Binary.not_lt_zero_of_le_single hmin hquality
  refine ⟨hfinite, ?_⟩
  exact Binary.not_lt_zero_mul (Binary.not_lt_zero_ofInt (Int.le_of_lt hscale))
    (Binary.not_lt_zero_widen hq)

theorem ite_some_eq_none_iff {τ : Type} {c : Prop} [Decidable c] {x : τ} {rest : Option τ} :
    (if c then some x else rest) = none ↔ ¬ c ∧ rest = none := by
  split
  next h => exact iff_of_false (Option.some_ne_none x) fun habs => habs.1 h
  next h => exact ⟨fun hrest => ⟨h, hrest⟩, And.right⟩

/-- Settings that make sense. -/
structure Settings.IsSound (s : Settings) : Prop where
  maxWidth : 0 < s.maxWidth
  threshold : IsThreshold s.threshold
  isFinite_minQuality : s.minQuality.isFinite
  minQuality : ¬ s.minQuality < 0.0
  presets : s.presets ≠ []
  rotations : s.rotations ≠ []
  angles : s.angles ≠ []
  isFinite_angles : ∀ x ∈ s.rotations ++ s.angles, x.isFinite
  workers : 0 < s.workers

/-- **The checks find no fault exactly in settings that make sense.** -/
theorem Settings.fault?_eq_none_iff {s : Settings} : s.fault? = none ↔ s.IsSound := by
  unfold fault? workersFault?
  simp only [ite_some_eq_none_iff, and_true]
  constructor
  · rintro ⟨hwidth, hthreshold, hquality, hpresets, hspread, hfinite, hworkers⟩
    simp only [not_or, not_not, List.isEmpty_iff] at hthreshold hquality hpresets hspread
    refine ⟨Nat.pos_of_ne_zero hwidth, hthreshold, hquality.1, hquality.2, hpresets, hspread.1,
      hspread.2, fun x hx => ?_, Nat.pos_of_ne_zero hworkers⟩
    by_contra hx'
    exact hfinite (List.any_eq_true.2 ⟨x, hx, by simpa using hx'⟩)
  · intro h
    simp only [not_or, not_not, List.isEmpty_iff]
    refine ⟨h.maxWidth.ne', h.threshold, ⟨h.isFinite_minQuality, h.minQuality⟩, h.presets,
      ⟨h.rotations, h.angles⟩, fun habs => ?_, h.workers.ne'⟩
    obtain ⟨x, hx, hx'⟩ := List.any_eq_true.1 habs
    rw [h.isFinite_angles x hx] at hx'
    cases hx'

/-- Work that halts in a pool without a limit has a course that leaves a token alone. -/
theorem Client.Halts.exists_ends_sparing {β : Type} {c : Client Look Pass β}
    {p : Pool Look Pass} (h : c.Halts p) (hlimit : p.limit = none) (token : Token) :
    ∃ w q, c.Ends (Event.Spares token) p w q := by
  obtain ⟨w, q, hcourse⟩ := h.exists_ends hlimit
  refine ⟨w, q, hcourse.mono ?_⟩
  rintro _ ⟨m, rfl, -⟩
  trivial

namespace Locator

variable {l : Locator} {token : Token} {picture : Picture} {ratio : Float} {strategy : Strategy}
  {p q : Pool Look Pass} {calls : List (Call Look Pass)} {Allowed : Event Look Pass → Prop}

/-- What the checks of a locator's settings leave. -/
theorem settings_sound (l : Locator) :
    0 < l.maxWidth ∧ IsThreshold l.threshold ∧ ¬ l.minQuality < 0.0 ∧ 0 < l.workers := by
  have h := Settings.fault?_eq_none_iff.1 l.sound
  exact ⟨h.maxWidth, h.threshold, h.minQuality, h.workers⟩

/-- What is searched of a picture with pixels has pixels. -/
theorem not_isEmpty_working (l : Locator) (hpicture : ¬ picture.extent.IsEmpty) :
    ¬ (picture.shrink l.maxWidth).extent.IsEmpty := by
  obtain ⟨hwidth, -, -, -⟩ := l.settings_sound
  rw [Raster.extent_shrink]
  exact Extent.not_isEmpty_shrunk hpicture hwidth

/-- What plain looks find by a strategy. -/
def found (l : Locator) (token : Token) (picture : Picture) : Strategy → List Detection
  | .single => (l.survey token).foundIn picture []
  | .around => (l.survey token).foundAround picture

theorem isWeight_of_mem_found {d : Detection} (h : d ∈ l.found token picture strategy) :
    Sample.IsWeight (d.weight : Float) := by
  obtain ⟨-, -, hmin, -⟩ := l.settings_sound
  have hmin : ¬ (l.survey token).minQuality < 0.0 := hmin
  cases strategy with
  | single => exact Survey.isWeight_of_isUsable hmin (Survey.isUsable_of_mem_foundIn h)
  | around => exact Survey.isWeight_of_isUsable hmin (Survey.isUsable_of_mem_foundAround h)

/-- A search finds what plain looks find, or fails for a reason. -/
theorem comes_search (p : Pool Look Pass) (hpicture : ¬ picture.extent.IsEmpty)
    (strategy : Strategy) :
    (Client.semantics (Event.Spares token)).Comes ((l.survey token).Untouched p)
      ((l.survey token).Blames p) (l.search token picture strategy)
      (l.found token picture strategy) := by
  cases strategy with
  | single => exact Survey.comes_detect (Survey.spreads_fanOut p) picture []
  | around =>
    refine Survey.comes_detectAround p fun h => hpicture ?_
    rw [h]
    exact .inl rfl

/-- Detections that can serve as samples give an anchor, and one sight. -/
theorem anchor_eq_ok (l : Locator) (ratio : Float) {detections : List Detection}
    (hpicture : ¬ picture.extent.IsEmpty)
    (hd : ∀ d ∈ detections, Sample.IsWeight (d.weight : Float)) :
    ∃ sight anchor, l.anchor picture ratio detections = ⟨[sight], .ok anchor⟩ := by
  obtain ⟨-, hthreshold, -, -⟩ := l.settings_sound
  obtain ⟨groups, anchor, hlocate⟩ := Anchor.locate_eq_ok ratio hpicture hthreshold hd
  refine ⟨{ picture, detections, groups }, anchor, ?_⟩
  rw [Locator.anchor, hlocate]
  rfl

/-- A search is one search of the shrunk picture, and what is made of it. -/
theorem locate_eq (hratio : IsRatio ratio) (hpicture : ¬ picture.extent.IsEmpty) :
    l.locate token picture ratio strategy =
      (l.search token (picture.shrink l.maxWidth) strategy).bind fun
        | .error fault => .done ⟨[], .error (.batch fault)⟩
        | .ok detections =>
          .done (l.anchor (picture.shrink l.maxWidth) ratio detections) := by
  rw [locate, if_neg (not_not.2 hratio), if_neg hpicture]
  refine congrArg (Client.bind _) (funext fun pass => ?_)
  cases pass <;> rfl

/-- **What a search for the anchor comes to**: the anchor among what plain looks find in
the shrunk picture, or a fault of the detector or of time that a call of its own bears out. -/
theorem locate_cases (hratio : IsRatio ratio) (hpicture : ¬ picture.extent.IsEmpty)
    (hp : p.Spares token) {w : Watched Sight (Failure Float) (Anchor Float)}
    (h : (l.locate token picture ratio strategy).Makes p calls w q)
    (hallowed : ∀ call ∈ calls, ∀ e ∈ call.events, e.Spares token) :
    w = l.anchor (picture.shrink l.maxWidth) ratio
      (l.found token (picture.shrink l.maxWidth) strategy) ∨
    ∃ fault, w = ⟨[], .error (.batch fault)⟩ ∧ (l.survey token).Blames p (q, calls) fault := by
  have hworking := l.not_isEmpty_working hpicture
  rw [locate_eq hratio hpicture] at h
  obtain ⟨first, second, pass, r, rfl, hsearch, hrest⟩ := Client.makes_bind h
  have hfirst := (List.forall_mem_append.1 hallowed).1
  have hcomes := comes_search p hworking strategy (p, []) _ (r, first) ⟨.refl p, hp⟩
    ⟨pass, first, rfl, hsearch, rfl, hfirst⟩
  rcases hcomes with ⟨heq, -⟩ | ⟨fault, heq, hblames⟩
  · cases heq
    obtain ⟨rfl, rfl, rfl⟩ := Client.makes_done hrest
    exact .inl rfl
  · cases heq
    obtain ⟨rfl, rfl, rfl⟩ := Client.makes_done hrest
    rw [List.append_nil]
    exact .inr ⟨fault, rfl, hblames⟩

/-- There is an anchor among what plain looks find in the shrunk picture. -/
theorem anchor_found_eq_ok (l : Locator) (token : Token) (ratio : Float)
    (hpicture : ¬ picture.extent.IsEmpty) (strategy : Strategy) :
    ∃ sight anchor, l.anchor (picture.shrink l.maxWidth) ratio
      (l.found token (picture.shrink l.maxWidth) strategy) = ⟨[sight], .ok anchor⟩ :=
  l.anchor_eq_ok ratio (l.not_isEmpty_working hpicture) fun _ => isWeight_of_mem_found

/-- A search submits quiet tasks only. -/
theorem only_search : (l.search token picture strategy).Only Task.Quiet := by
  cases strategy with
  | single => exact Survey.only_detectGray _ _ _
  | around => exact (Client.only_fanOut fun t => Survey.quiet_passTasks).bind fun _ => trivial

theorem only_locate : (l.locate token picture ratio strategy).Only Task.Quiet := by
  unfold locate
  split
  · trivial
  · split
    · trivial
    · refine Client.Only.bind only_search fun pass => ?_
      cases pass <;> trivial

/-- A search in a pool of prompt tasks halts, whatever moves are made. -/
theorem halts_locate (hworkers : 0 < p.workers) (hp : p.Only Task.Prompt) :
    (l.locate token picture ratio strategy).Halts p :=
  Client.halts hworkers hp (only_locate.imp fun _ ht => ht.prompt)

/-- A locator's own pool, after any history of prompt tasks: there are workers, and all
tasks are prompt. -/
theorem prompt_own (l : Locator) (horizon : Span) {history : List (Event Look Pass)}
    (hprompt : ∀ e ∈ history, e.Only Task.Prompt) :
    0 < ((l.pool horizon).run history).workers ∧
      ((l.pool horizon).run history).Only Task.Prompt := by
  obtain ⟨-, -, -, hworkers⟩ := l.settings_sound
  refine ⟨?_, Pool.only_run Task.isKept_prompt (Pool.only_idle _ _ _) hprompt⟩
  rw [((l.pool horizon).grows_run history).workers]
  exact hworkers

/-- So a search halts there. -/
theorem halts_locate_own (l : Locator) (horizon : Span) {history : List (Event Look Pass)}
    (hprompt : ∀ e ∈ history, e.Only Task.Prompt) :
    (l.locate token picture ratio strategy).Halts ((l.pool horizon).run history) := by
  obtain ⟨hworkers, honly⟩ := l.prompt_own horizon hprompt
  exact halts_locate hworkers honly

/-- A locator's own pool after a history that leaves a token alone. -/
theorem spares_own (l : Locator) (horizon : Span) {history : List (Event Look Pass)}
    (hhistory : ∀ e ∈ history, e.Spares token) :
    ((l.pool horizon).run history).Spares token :=
  Pool.spares_run (Pool.spares_idle _ _ _) hhistory

theorem limit_own (l : Locator) (horizon : Span) (history : List (Event Look Pass)) :
    ((l.pool horizon).run history).limit = l.limit :=
  ((l.pool horizon).grows_run history).limit

/-- **Where work crashes its caller** in the locator's own pool: the locator's limit ends
after the last time that the clock can tell. -/
theorem limit_of_crashes (l : Locator) (horizon : Span) {history : List (Event Look Pass)}
    {β : Type} {c : Client Look Pass β}
    (h : c.Crashes Allowed ((l.pool horizon).run history) q) :
    ∃ limit, l.limit = some limit ∧ horizon < q.clock + limit := by
  obtain ⟨limit, hlimit, hlate⟩ := h.limit
  rw [((l.pool horizon).grows_run history).horizon] at hlate
  exact ⟨limit, (l.limit_own horizon history).symm.trans hlimit, hlate⟩

/-- A search begins with a batch that has a task. -/
theorem search_eq_call (l : Locator) (token : Token) (picture : Picture) (strategy : Strategy) :
    ∃ tasks next, tasks ≠ [] ∧ l.search token picture strategy = .call token tasks next := by
  have hsound := Settings.fault?_eq_none_iff.1 l.sound
  cases strategy with
  | single =>
    obtain ⟨preset, presets, hpresets⟩ := List.exists_cons_of_ne_nil hsound.presets
    have hpresets : (l.survey token).presets = preset :: presets := hpresets
    rw [search, Survey.detect, hpresets, Survey.detectGray]
    exact ⟨[(l.survey token).look picture.toGray (preset.withAngle 0.0)], _,
      List.cons_ne_nil _ _, rfl⟩
  | around =>
    refine ⟨_, _, ?_, rfl⟩
    obtain ⟨rotation, hrotation⟩ := List.exists_mem_of_ne_nil _ hsound.rotations
    obtain ⟨angle, hangle⟩ := List.exists_mem_of_ne_nil _ hsound.angles
    have hpass : (rotation, angle) ∈ (l.survey token).passes := by
      simp only [Survey.passes, List.mem_flatMap, List.mem_map]
      exact ⟨rotation, hrotation, angle, hangle, rfl⟩
    exact List.ne_nil_of_mem (List.mem_map_of_mem hpass)

/-- **A limit whose end the clock cannot tell crashes every search**, unless its token is set:
the caller crashes at the first batch, and the search never ends. -/
theorem locate_crashes (hratio : IsRatio ratio) (hpicture : ¬ picture.extent.IsEmpty)
    (hflag : ¬ p.IsCancelled token) (htime : ¬ p.CanTime) :
    (l.locate token picture ratio strategy).Crashes Allowed p p ∧
      ∀ w q, ¬ (l.locate token picture ratio strategy).Ends Allowed p w q := by
  obtain ⟨tasks, next, htasks, hsearch⟩ :=
    l.search_eq_call token (picture.shrink l.maxWidth) strategy
  have hoverruns : p.Overruns token tasks := ⟨hflag, htasks, htime⟩
  rw [locate_eq hratio hpicture, hsearch]
  exact ⟨.here hoverruns, fun w q => Client.not_ends_of_overruns hoverruns⟩

/-- The longest span with 64 bits for the seconds is such a limit. -/
example : ¬ (Pool.idle 9 (some (.ofSeconds (2 ^ 64 - 1) (10 ^ 9 - 1))) .horizon :
    Pool Look Pass).CanTime := by
  decide

/-- A locator whose detector reports two unusable detections and a usable one. -/
def partlyUnusable : Locator where
  detector := .constant [
    { spot := ⟨-5, 2 ^ 31⟩, scale := -3, quality := 1.0 },
    { spot := ⟨0, 0⟩, scale := 4, quality := 0.0 / 0.0 },
    { spot := ⟨9, 9⟩, scale := 2, quality := 1.0 }]
  workers := 2
  sound := by decide

end Locator

end Reframe
