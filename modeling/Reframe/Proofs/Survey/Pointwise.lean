import Reframe.Proofs.Detector.Marks
import Reframe.Proofs.Survey.Origin
import Reframe.Proofs.Survey.Presets
import Reframe.Proofs.Turn.Multiples

/-!
# Surveys by detectors that look at single pixels

If the detector looks at single pixels, whatever the scan, then the first preset decides, and
every angle of it brings back the same marks. On a copy that is turned by a right angle the
marks have turned; turned back, they are where they were. So a pass over such a copy finds
what a pass over the picture itself finds, in another order at most, and a survey all around
finds that once for each of its passes.

* `Survey.usableMarks`: the marks that can serve as samples.
* `Survey.perm_foundIn`: a plain look finds them, once for each angle.
* `Survey.perm_foundTurned`: **a look at a turned copy finds the same**.
* `Survey.perm_foundAround`: a survey all around finds them once for each pass.
* `Survey.answers_detect`, `Survey.answers_detectTurned`: what is found is what is answered.
-/

namespace Reframe

/-- Lists that all are permutations of one list, put together. -/
theorem flatMap_perm_replicate {τ υ : Type} {xs : List τ} {f : τ → List υ} {ys : List υ}
    (h : ∀ x ∈ xs, (f x).Perm ys) : (xs.flatMap f).Perm (List.replicate xs.length ys).flatten := by
  have hconst := List.Perm.flatMap_left xs h
  rwa [List.flatMap_def, List.flatMap_def, List.map_const'] at hconst

theorem perm_replicate_flatten {τ : Type} {xs ys : List τ} (h : xs.Perm ys) (n : Nat) :
    (List.replicate n xs).flatten.Perm (List.replicate n ys).flatten := by
  induction n with
  | zero => exact .nil
  | succ n ih =>
    rw [List.replicate_succ, List.replicate_succ, List.flatten_cons, List.flatten_cons]
    exact h.append ih

/-- A spot of the frame need not be pulled into it. -/
theorem Extent.pull_of_contains {e : Extent} {p : Spot} (he : e.IsModest) (h : e.Contains p) :
    e.pull p = p := by
  obtain ⟨hx, hx', hy, hy'⟩ := h
  have hwidth := he.width_le
  have hheight := he.height_le
  have hlast : p.x ≤ lastIndex e.width := by
    simp only [lastIndex, maxCoordinate]
    omega
  have hlast' : p.y ≤ lastIndex e.height := by
    simp only [lastIndex, maxCoordinate]
    omega
  exact congrArg₂ Spot.mk (Whole.clampInt_of_mem hx hlast) (Whole.clampInt_of_mem hy hlast')

namespace Survey

variable {s : Survey} {size : UInt8 → Option (Int × Float32)} {gray : Gray} {picture : Picture}
  {angles : List Float} {degrees : Float} {presets : List Scan} {preset : Scan}

/-- The marks that can serve as samples. -/
def usableMarks (s : Survey) (size : UInt8 → Option (Int × Float32)) (gray : Gray) :
    List Detection :=
  (Detector.marks size gray).filter (s.IsUsable ·)

/-- How many looks there are until something is found: one for each angle, unless there is no
preset. -/
def looksPerPass (presets : List Scan) (angles : List Float) : Nat :=
  if presets.isEmpty then 0 else angles.length

theorem perm_reported (hdetector : s.detector.IsPointwise size) (gray : Gray) (scan : Scan) :
    (s.reported gray scan).Perm (Detector.marks size gray) := by
  obtain ⟨report, hreport, hperm⟩ := hdetector gray scan
  rwa [reported, hreport]

theorem perm_usable (hdetector : s.detector.IsPointwise size) (gray : Gray)
    (angles : List Float) (preset : Scan) :
    (s.usable gray angles preset).Perm
      (List.replicate angles.length (s.usableMarks size gray)).flatten := by
  have hreported : ((angles.map preset.withAngle).flatMap (s.reported gray)).Perm _ :=
    flatMap_perm_replicate fun scan _ => perm_reported hdetector gray scan
  have husable := hreported.filter (s.IsUsable ·)
  rwa [List.length_map, List.filter_flatten, List.map_replicate] at husable

/-- Every preset brings back the marks, once for each angle. -/
theorem perm_kept (hdetector : s.detector.IsPointwise size) (he : gray.extent.IsModest)
    (angles : List Float) (preset : Scan) :
    (s.kept gray angles preset).Perm
      (List.replicate angles.length (s.usableMarks size gray)).flatten := by
  have hpull : ∀ d ∈ s.usableMarks size gray, { d with spot := gray.extent.pull d.spot } = d := by
    intro d hd
    have hinside := Detector.contains_of_mem_marks (List.mem_of_mem_filter hd)
    rw [Extent.pull_of_contains he hinside]
  have hpulled : (s.usableMarks size gray).map
      (fun d => { d with spot := gray.extent.pull d.spot }) = s.usableMarks size gray := by
    conv_rhs => rw [← List.map_id (s.usableMarks size gray)]
    exact List.map_congr_left hpull
  have husable := (perm_usable hdetector gray angles preset).map
    fun d => { d with spot := gray.extent.pull d.spot }
  rw [List.map_flatten, List.map_replicate, hpulled] at husable
  rw [kept_eq]
  exact husable

/-- **The first preset decides**, since all presets bring back the same. -/
theorem perm_found (hdetector : s.detector.IsPointwise size) (he : gray.extent.IsModest)
    (angles : List Float) (presets : List Scan) :
    (s.found gray angles presets).Perm
      (List.replicate (looksPerPass presets angles) (s.usableMarks size gray)).flatten := by
  induction presets with
  | nil => exact .nil
  | cons preset presets ih =>
    have hperm := perm_kept hdetector he angles preset
    have hlooks : looksPerPass (preset :: presets) angles = angles.length := rfl
    rw [hlooks]
    cases hkept : s.kept gray angles preset with
    | nil =>
      rw [found_cons_of_nil hkept]
      rw [hkept] at hperm
      cases presets with
      | nil => exact hperm
      | cons => exact ih
    | cons d ds =>
      rw [found_cons_of_cons hkept, ← hkept]
      exact hperm

theorem perm_foundIn (hdetector : s.detector.IsPointwise size) (he : picture.extent.IsModest)
    (angles : List Float) :
    (s.foundIn picture angles).Perm (List.replicate
      (looksPerPass s.presets (if angles.isEmpty then [0.0] else angles))
      (s.usableMarks size picture.toGray)).flatten :=
  perm_found hdetector he _ _

/-- A mark of the turned picture, turned back, is where it was. -/
theorem turnedBack_move (htrue : ∀ a, s.instruments.spots.IsTrue a)
    (he : picture.extent.IsModest) (a : RightAngle) {d : Detection}
    (h : picture.extent.Contains d.spot) :
    s.turnedBack (a.extent picture.extent) picture.extent a.degrees
      (d.move (a.spot picture.extent)) = d := by
  have hback := RightAngle.turnInto_eq (htrue a.inverse) (a.isModest_extent he)
    (a.contains_spot h)
  rw [a.extent_inverse, a.spot_inverse] at hback
  unfold turnedBack
  rw [a.inverse_degrees]
  exact congrArg (fun p => { d with spot := p }) hback

/-- The marks of the turned picture, turned back, are those of the picture. -/
theorem perm_usableMarks_turned (htrue : ∀ a, s.instruments.spots.IsTrue a)
    (he : picture.extent.IsModest) (a : RightAngle) :
    ((s.usableMarks size (a.raster picture).toGray).map
      (s.turnedBack (a.extent picture.extent) picture.extent a.degrees)).Perm
      (s.usableMarks size picture.toGray) := by
  have hturned := (Detector.marks_turned size a picture).filter (s.IsUsable ·)
  have husable : ((s.IsUsable ·) : Detection → Bool) ∘ Detection.move (a.spot picture.extent) =
      (s.IsUsable ·) := rfl
  rw [List.filter_map, husable] at hturned
  have hback := hturned.map (s.turnedBack (a.extent picture.extent) picture.extent a.degrees)
  rw [List.map_map] at hback
  refine hback.trans (.of_eq ?_)
  conv_rhs => rw [← List.map_id (s.usableMarks size picture.toGray)]
  refine List.map_congr_left fun d hd => ?_
  exact turnedBack_move htrue he a (Detector.contains_of_mem_marks (List.mem_of_mem_filter hd))

/-- **A look at a copy turned by a multiple of 90 degrees** finds what a look at the picture
itself finds, in another order at most. -/
theorem perm_foundTurned (hdetector : s.detector.IsPointwise size)
    (htrue : ∀ a, s.instruments.spots.IsTrue a) (he : picture.extent.IsModest)
    (hdegrees : Angle.IsMultiple degrees) (angles : List Float) :
    (s.foundTurned picture degrees angles).Perm (s.foundIn picture angles) := by
  unfold foundTurned
  extract_lets rotation turned
  rcases Angle.normalize_cases hdegrees with hzero | ⟨hturn, a, ha⟩
  · have hzero : (rotation == 0.0) = true := hzero
    rw [hzero]
    exact .refl _
  · have hturn : (rotation == 0.0) = false := hturn
    have hturned : turned = a.raster picture := by
      rw [← a.turn_eq s.instruments, ← ha]
    have hextent : turned.extent = a.extent picture.extent := by
      rw [hturned, a.extent_raster]
    have hmodest : turned.extent.IsModest := hextent ▸ a.isModest_extent he
    have hfound := (perm_foundIn hdetector hmodest angles).map
      (s.turnedBack turned.extent picture.extent rotation)
    have hrotation : rotation = a.degrees := ha
    rw [List.map_flatten, List.map_replicate, hextent, hturned, hrotation] at hfound
    rw [hturn, if_neg Bool.false_ne_true, hextent, hturned, hrotation]
    -- look by look the marks are turned back
    refine hfound.trans (.trans ?_ (perm_foundIn hdetector he angles).symm)
    exact perm_replicate_flatten (perm_usableMarks_turned htrue he a) _

/-- **A survey all around** finds what a look upright finds, once for each pass. -/
theorem perm_foundAround (hdetector : s.detector.IsPointwise size)
    (htrue : ∀ a, s.instruments.spots.IsTrue a) (he : picture.extent.IsModest)
    (hrotations : ∀ degrees ∈ s.rotations, Angle.IsMultiple degrees) :
    (s.foundAround picture).Perm
      (List.replicate s.passes.length (s.foundIn picture [])).flatten := by
  refine flatMap_perm_replicate fun x hx => ?_
  obtain ⟨hrotation, -⟩ := mem_passes.1 (show (x.1, x.2) ∈ s.passes from hx)
  have hturned := perm_foundTurned hdetector htrue he (hrotations _ hrotation) [x.2]
  -- one angle brings back what any other does
  exact hturned.trans ((perm_foundIn hdetector he [x.2]).trans (perm_foundIn hdetector he []).symm)

/-- What a pass in a pool answers: these detections and no others, in every course. If events
spare its token it answers them unless its time runs out. It halts, whatever moves are made:
it answers, or crashes where the clock cannot tell the end of that time. -/
structure Answers (s : Survey) (c : Client Look Pass Pass) (detections : List Detection) :
    Prop where
  anyhow : ∀ Allowed p q out, c.Ends Allowed p (.ok out) q → out = detections
  spared : ∀ p answer q, p.Spares s.token → c.Ends (Event.Spares s.token) p answer q →
    answer = .ok detections ∨ ∃ limit, answer = .error (.late limit) ∧ p.limit = some limit ∧
      p.clock + limit ≤ q.clock
  halts : ∀ p : Pool Look Pass, 0 < p.workers → p.Only Task.Prompt → c.Halts p

theorem answers_of_comes {c : Client Look Pass Pass} {detections : List Detection}
    (hcalm : ∀ gray scan, (s.detector gray scan).report.isSome)
    (hspared : ∀ p, (Client.semantics (Event.Spares s.token)).Comes (s.Untouched p) (s.Blames p) c
      detections)
    (hanyhow : ∀ Allowed, (Client.semantics Allowed).Comes (fun _ => True) (fun _ _ => True) c
      detections)
    (honly : c.Only Task.Quiet) : s.Answers c detections where
  anyhow Allowed _ _ _ hends := by
    obtain ⟨calls, hends⟩ := Client.semantics_of_ends hends
    exact eq_of_comes (hanyhow Allowed) hends
  spared p answer q hp hends := by
    obtain ⟨calls, hends⟩ := Client.semantics_of_ends hends
    rcases hspared p (p, []) _ (q, calls) ⟨.refl p, hp⟩ hends with ⟨heq, -⟩ |
      ⟨fault, heq, hblames⟩
    · exact .inl (Option.some.inj heq)
    · obtain ⟨limit, rfl, hlimit, hclock, -⟩ := hblames.late hcalm
      exact .inr ⟨limit, Option.some.inj heq, hlimit, hclock⟩
  halts p hworkers hp := Client.halts hworkers hp (honly.imp fun _ ht => ht.prompt)

/-- **A pass answers what a plain look finds**, if the detector never crashes. -/
theorem answers_detect (hcalm : ∀ gray scan, (s.detector gray scan).report.isSome)
    (picture : Picture) (angles : List Float) :
    s.Answers (s.detect Client.fanOut picture angles) (s.foundIn picture angles) :=
  answers_of_comes hcalm (fun p => comes_detect (spreads_fanOut p) picture angles)
    (fun Allowed => comes_detect (spreads_fanOut_anyhow Allowed) picture angles)
    (only_detectGray _ _ _)

theorem answers_detectTurned (hcalm : ∀ gray scan, (s.detector gray scan).report.isSome)
    (picture : Picture) (degrees : Float) (angles : List Float) :
    s.Answers (s.detectTurned Client.fanOut picture degrees angles)
      (s.foundTurned picture degrees angles) :=
  answers_of_comes hcalm (fun p => comes_detectTurned (spreads_fanOut p) picture degrees angles)
    (fun Allowed => comes_detectTurned (spreads_fanOut_anyhow Allowed) picture degrees angles)
    (only_detectTurned _ _ _)

/-- On the spot it comes to the same. -/
theorem alone_detectTurned (hcalm : ∀ gray scan, (s.detector gray scan).report.isSome)
    (picture : Picture) (degrees : Float) (angles : List Float) :
    (s.detectTurned Task.each picture degrees angles).alone =
      some (.ok (s.foundTurned picture degrees angles)) := by
  have hdetect : ∀ picture, (s.detect Task.each picture angles).alone =
      some (.ok (s.foundIn picture angles)) :=
    fun picture => (detectGray_inTurn (hcalm _) _ _).1
  unfold detectTurned foundTurned
  extract_lets rotation turned
  split
  · exact hdetect picture
  · change (Task.bind _ _).alone = _
    rw [Task.alone_bind, hdetect]
    rfl

end Survey

end Reframe
