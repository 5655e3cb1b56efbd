import Reframe.Proofs.Survey.Around

/-!
# Which pass crashed

A survey all around answers two kinds of crash. A pass that cannot turn its picture
crashes itself, and the pool reports its place among the passes. A pass under which the
detector crashes does not crash itself: its scans are batches of one task that are done on
the spot, and such a batch reports the crash of its task 0. The survey hands that on, so
that the place it names is 0 whatever the place of the pass.

* `Survey.CrashesIn`: the detector crashes in a pass.
* `Survey.passAlone_cases`: what a pass comes to alone, in terms of that.
* `Pass.gather_eq_error`: the failure that is handed on.
* `Survey.detectAround_crashed`: what a crash that is answered says.
-/

namespace Reframe

/-- The failure of gathered passes is that of the first one that fails. -/
theorem Pass.gather_eq_error {passes : List Pass} {fault : Fault}
    (h : gather passes = .error fault) : ∃ k : Nat, passes[k]? = some (.error fault) ∧
      ∀ j < k, ∃ detections, passes[j]? = some (.ok detections) := by
  induction passes with
  | nil => cases h
  | cons pass passes ih =>
    rw [gather_cons] at h
    rcases pass with fault' | detections
    · cases h
      exact ⟨0, rfl, fun j hj => absurd hj (Nat.not_lt_zero j)⟩
    cases hgather : gather passes with
    | ok rest =>
      rw [hgather] at h
      cases h
    | error fault' =>
      rw [hgather] at h
      cases h
      obtain ⟨k, hk, hbefore⟩ := ih hgather
      refine ⟨k + 1, hk, fun j hj => ?_⟩
      cases j with
      | zero => exact ⟨detections, rfl⟩
      | succ j => exact hbefore j (Nat.lt_of_succ_lt_succ hj)

namespace Survey

variable {s : Survey} {p : Pool Look Pass} {picture : Picture} {events : List (Event Look Pass)}
  {gray : Gray} {angle : Float} {preset : Scan} {presets : List Scan} {x : Float × Float}

/-- The detector crashes on a gray picture under some preset, and nothing is kept of what
it reports under those before. -/
def CrashesUnder (s : Survey) (gray : Gray) (angle : Float) (presets : List Scan) : Prop :=
  ∃ before preset after, presets = before ++ preset :: after ∧
    (∀ earlier ∈ before, s.kept gray [angle] earlier = []) ∧
    (s.detector gray (preset.withAngle angle)).report = none

/-- The picture that is scanned for a rotation. -/
def turnedFor (s : Survey) (picture : Picture) (degrees : Float) : Picture :=
  let rotation := Angle.normalize degrees
  if rotation == 0.0 then picture else picture.turn s.instruments rotation

/-- The detector crashes in a pass: its presets are tried on the turned picture, under the
angle of the pass, and it crashes under one of them. -/
def CrashesIn (s : Survey) (picture : Picture) (x : Float × Float) : Prop :=
  s.CrashesUnder (s.turnedFor picture x.1).toGray x.2 s.presets

theorem not_crashesUnder_nil : ¬ s.CrashesUnder gray angle [] := by
  rintro ⟨before, preset, after, habs, -⟩
  exact List.append_ne_nil_of_right_ne_nil before (List.cons_ne_nil _ _) habs.symm

theorem crashesUnder_cons :
    s.CrashesUnder gray angle (preset :: presets) ↔
      (s.detector gray (preset.withAngle angle)).report = none ∨
        s.kept gray [angle] preset = [] ∧ s.CrashesUnder gray angle presets := by
  constructor
  · rintro ⟨before, crashed, after, heq, hbefore, hcrash⟩
    rcases before with _ | ⟨earlier, before⟩
    · cases heq
      exact .inl hcrash
    · cases heq
      obtain ⟨hearlier, hbefore⟩ := List.forall_mem_cons.1 hbefore
      exact .inr ⟨hearlier, before, crashed, after, rfl, hbefore, hcrash⟩
  · rintro (hcrash | ⟨hkept, before, crashed, after, rfl, hbefore, hcrash⟩)
    · exact ⟨[], preset, presets, rfl, fun _ habs => absurd habs List.not_mem_nil, hcrash⟩
    · exact ⟨preset :: before, crashed, after, rfl, List.forall_mem_cons.2 ⟨hkept, hbefore⟩, hcrash⟩

/-- **One look for each preset, on the spot.** If the detector crashes at one of them that
is the crash of task 0, whichever preset it is; else they come to what a plain look finds. -/
theorem alone_detectGray_singleton (gray : Gray) (angle : Float) (presets : List Scan) :
    (s.CrashesUnder gray angle presets ∧
      (s.detectGray Task.each gray [angle] presets).alone = some (.error (.crashed 0))) ∨
    (¬ s.CrashesUnder gray angle presets ∧
      (s.detectGray Task.each gray [angle] presets).alone =
        some (.ok (s.found gray [angle] presets))) := by
  induction presets with
  | nil => exact .inr ⟨not_crashesUnder_nil, rfl⟩
  | cons preset presets ih =>
    rw [detectGray_cons, crashesUnder_cons]
    let look := s.look gray (preset.withAngle angle)
    change (_ ∧ (Task.bind (Task.each s.token [look]) _).alone = _) ∨
      (_ ∧ (Task.bind (Task.each s.token [look]) _).alone = _)
    rw [Task.alone_bind, Task.alone_each_singleton, alone_look]
    cases hreport : (s.detector gray (preset.withAngle angle)).report with
    | none => exact .inl ⟨.inl rfl, rfl⟩
    | some reported =>
      have hreported : ([.ok reported] : List Pass) =
          ([angle].map preset.withAngle).map fun scan => .ok (s.reported gray scan) := by
        rw [List.map_singleton, List.map_singleton, Survey.reported, hreport, Option.getD_some]
      simp only [Option.map_some, Option.bind_some, hreported]
      cases hkept : s.kept gray [angle] preset with
      | nil =>
        rw [verdict_of_nil hkept, found_cons_of_nil hkept]
        simpa using ih
      | cons d ds =>
        rw [verdict_of_cons hkept, found_cons_of_cons hkept]
        exact .inr ⟨by simp, rfl⟩

/-- **What a pass comes to alone**: the crash of task 0 if the detector crashes in it, else
what a plain look at the turned picture finds. -/
theorem passAlone_cases (s : Survey) (picture : Picture) (x : Float × Float) :
    (s.CrashesIn picture x ∧ s.passAlone picture x.1 x.2 = some (.error (.crashed 0))) ∨
    (¬ s.CrashesIn picture x ∧
      s.passAlone picture x.1 x.2 = some (.ok (s.foundTurned picture x.1 [x.2]))) := by
  unfold passAlone CrashesIn turnedFor detectTurned foundTurned
  extract_lets rotation turned
  split
  · exact alone_detectGray_singleton _ _ _
  · change (_ ∧ (Task.bind (s.detect Task.each turned [x.2]) _).alone = _) ∨
      (_ ∧ (Task.bind (s.detect Task.each turned [x.2]) _).alone = _)
    rw [Task.alone_bind]
    rcases s.alone_detectGray_singleton turned.toGray x.2 s.presets with
      ⟨hcrash, halone⟩ | ⟨hcalm, halone⟩
    · refine .inl ⟨hcrash, ?_⟩
      change Option.bind (s.detectGray Task.each turned.toGray [x.2] s.presets).alone _ = _
      rw [halone]
      rfl
    · refine .inr ⟨hcalm, ?_⟩
      change Option.bind (s.detectGray Task.each turned.toGray [x.2] s.presets).alone _ = _
      rw [halone]
      rfl

/-- The detector crashes in the passes that come to a crash alone. -/
theorem crashesIn_of_passAlone {i : Nat}
    (h : s.passAlone picture x.1 x.2 = some (.error (.crashed i))) :
    i = 0 ∧ s.CrashesIn picture x := by
  rcases s.passAlone_cases picture x with ⟨hcrash, halone⟩ | ⟨-, halone⟩
  · rw [h] at halone
    cases halone
    exact ⟨rfl, hcrash⟩
  · rw [h] at halone
    cases halone

/-- A pass that finds detections alone finds what a plain look finds. -/
theorem not_crashesIn_of_passAlone {rotation angle : Float} {detections : List Detection}
    (h : s.passAlone picture rotation angle = some (.ok detections)) :
    ¬ s.CrashesIn picture (rotation, angle) ∧
      detections = s.foundTurned picture rotation [angle] := by
  rcases s.passAlone_cases picture (rotation, angle) with ⟨-, halone⟩ | ⟨hcalm, halone⟩
  · rw [h] at halone
    cases halone
  · rw [h] at halone
    cases halone
    exact ⟨hcalm, rfl⟩

/-- A pass of a batch with values is over with its own, as alone or cancelled. -/
theorem around_over {passes : List Pass} {pass : Pass} {k : Nat}
    (h : (s.around p picture events).outcome? = some (.ok passes)) (hk : passes[k]? = some pass) :
    ∃ x n, s.passes[k]? = some x ∧ (s.around p picture events).Over k (some pass) n ∧
      (s.passAlone picture x.1 x.2 = some pass ∨ pass = .error .cancelled) := by
  obtain ⟨hlen, hvalues⟩ := Call.map_ok h
  have hlt : k < s.passes.length := hlen ▸ (List.getElem?_eq_some_iff.1 hk).1
  have hx : s.passes[k]? = some s.passes[k] := List.getElem?_eq_getElem hlt
  obtain ⟨-, value, n, hvalue, hover, hends⟩ := hvalues k _ hx
  obtain rfl : pass = value := Option.some.inj (hk.symm.trans hvalue)
  exact ⟨_, n, hx, hover, (pass_value hends).imp_right And.right⟩

/-- Passes in which the detector does not crash find what plain looks find. -/
theorem isSequential_foundAround (h : ∀ x ∈ s.passes, ¬ s.CrashesIn picture x) :
    s.IsSequential picture (.ok (s.foundAround picture)) := by
  refine ⟨fun rotation angle => s.foundTurned picture rotation [angle], ?_, ?_⟩
  · intro rotation hrotation angle hangle
    rcases s.passAlone_cases picture (rotation, angle) with ⟨hcrash, -⟩ | ⟨-, halone⟩
    · exact absurd hcrash (h _ (mem_passes.2 ⟨hrotation, hangle⟩))
    · exact halone
  · rw [foundAround, passes, List.flatMap_assoc]
    simp only [List.flatMap_map]

/-- If the detector crashes in some pass, the first failure is the crash of task 0. -/
theorem eq_of_isSequential {answer : Pass} (h : s.IsSequential picture answer)
    (hcrash : ∃ x ∈ s.passes, s.CrashesIn picture x) : answer = .error (.crashed 0) := by
  rcases answer with fault | out
  · obtain ⟨x, -, hx⟩ := List.exists_of_findSome?_eq_some h
    rcases s.passAlone_cases picture x with ⟨-, halone⟩ | ⟨-, halone⟩
    · rw [failure?, halone] at hx
      cases hx
      rfl
    · rw [failure?, halone] at hx
      cases hx
  · obtain ⟨found, hfound, -⟩ := h
    obtain ⟨x, hx, hcrash⟩ := hcrash
    obtain ⟨hrotation, hangle⟩ := mem_passes.1 hx
    exact absurd hcrash (not_crashesIn_of_passAlone (hfound _ hrotation _ hangle)).1

/-- **What a crash that is answered says**, in every pool and every course of events. It
names a pass only if that pass could not turn its picture. Any other crash that is answered
has index 0: it is that of the first pass, wherever it stands, that failed, and the detector
crashed in that one; the passes before it have come to detections. And if the survey is not
disturbed, and all of its passes can turn the picture, that is its answer as soon as the
detector crashes in any pass. -/
theorem detectAround_crashed (s : Survey) (p : Pool Look Pass) (picture : Picture)
    (events : List (Event Look Pass)) {r : Except Fault (List Pass)}
    (hr : (s.around p picture events).outcome? = some r) :
    let c := s.around p picture events
    let answer := r.bind Pass.gather
    (∀ i, answer = .error (.crashed i) →
      (∃ x n, s.passes[i]? = some x ∧ ¬ picture.CanTurn x.1 ∧ c.Over i none n) ∨
      (i = 0 ∧ ∃ k x n, s.passes[k]? = some x ∧ s.CrashesIn picture x ∧
        c.Over k (some (.error (.crashed 0))) n ∧
        ∀ j < k, ∃ y m, s.passes[j]? = some y ∧ ¬ s.CrashesIn picture y ∧
          c.Over j (some (.ok (s.foundTurned picture y.1 [y.2]))) m)) ∧
    (c.Undisturbed → (∀ x ∈ s.passes, picture.CanTurn x.1) →
      ((∃ x ∈ s.passes, s.CrashesIn picture x) → answer = .error (.crashed 0)) ∧
      ((∀ x ∈ s.passes, ¬ s.CrashesIn picture x) → answer = .ok (s.foundAround picture))) := by
  intro c answer
  refine ⟨fun i hi => ?_, fun hcalm hturn => ?_⟩
  · rcases r with fault | passes
    · -- the crash of a pass itself
      obtain rfl : fault = .crashed i := Except.error.inj hi
      obtain ⟨-, n, hover⟩ := Call.explained hr
      obtain ⟨-, x, hx, hends⟩ := Call.over_map hover
      exact .inl ⟨x, n, hx, pass_crash hends, hover⟩
    · -- the value of a pass in which the detector crashed
      obtain ⟨k, hk, hbefore⟩ := Pass.gather_eq_error hi
      obtain ⟨x, n, hx, hover, halone⟩ := around_over hr hk
      obtain ⟨rfl, hcrash⟩ := crashesIn_of_passAlone (halone.resolve_right nofun)
      refine .inr ⟨rfl, k, x, n, hx, hcrash, hover, fun j hj => ?_⟩
      obtain ⟨detections, hj⟩ := hbefore j hj
      obtain ⟨y, m, hy, hover, halone⟩ := around_over hr hj
      obtain ⟨hcalm, rfl⟩ := not_crashesIn_of_passAlone (halone.resolve_right nofun)
      exact ⟨y, m, hy, hcalm, hover⟩
  · rcases hcalm.outcome hr with ⟨passes, rfl, hpasses, -⟩ | ⟨i, t, log, -, ht, flags, -, hends⟩
    · have hsequential : s.IsSequential picture answer := isSequential_gather hpasses
      refine ⟨eq_of_isSequential hsequential, fun hnone => ?_⟩
      exact isSequential_unique hsequential (isSequential_foundAround hnone)
    · -- no pass crashes
      obtain ⟨x, hx, rfl⟩ := List.mem_map.1 (List.mem_of_getElem? ht)
      exact absurd (hturn x hx) (pass_crash hends)

/-- The detector of this survey crashes in the second pass only, and the crash that is
answered has index 0. -/
theorem detectAround_crashed_underOne :
    let picture := Picture.clear ⟨1, 1⟩
    let c := crashUnderOne.around (Pool.idle 2 none .horizon) picture (crossed 5 5)
    (∃ r, c.outcome? = some r ∧ r.bind Pass.gather = .error (.crashed 0)) ∧
    ¬ crashUnderOne.CrashesIn picture (0.0, 0.0) ∧
    crashUnderOne.passes[0]? = some (0.0, 0.0) ∧
    ∃ k x n, k ≠ 0 ∧ crashUnderOne.passes[k]? = some x ∧ crashUnderOne.CrashesIn picture x ∧
      c.Over k (some (.error (.crashed 0))) n := by
  intro picture c
  have hout : c.outcome? = some (.ok [.ok [{ spot := ⟨0, 0⟩, scale := 3, quality := 4.0 }],
      .error (.crashed 0)]) := by decide +kernel
  have hfirst : crashUnderOne.passAlone picture 0.0 0.0 =
      some (.ok [{ spot := ⟨0, 0⟩, scale := 3, quality := 4.0 }]) := by decide +kernel
  have hcalm : ¬ crashUnderOne.CrashesIn picture (0.0, 0.0) :=
    (not_crashesIn_of_passAlone hfirst).1
  have hpass : crashUnderOne.passes[0]? = some (0.0, 0.0) := by decide +kernel
  refine ⟨⟨_, hout, rfl⟩, hcalm, hpass, ?_⟩
  obtain ⟨hblame, -⟩ :=
    detectAround_crashed crashUnderOne (Pool.idle 2 none .horizon) picture (crossed 5 5) hout
  rcases hblame 0 rfl with ⟨x, n, -, hstuck, -⟩ | ⟨-, k, x, n, hx, hcrash, hover, -⟩
  · exact absurd (.inl (by decide)) hstuck
  · refine ⟨k, x, n, ?_, hx, hcrash, hover⟩
    rintro rfl
    obtain rfl : (0.0, 0.0) = x := Option.some.inj (hpass.symm.trans hx)
    exact hcalm hcrash

end Survey

end Reframe
