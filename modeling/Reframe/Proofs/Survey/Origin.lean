import Reframe.Proofs.Survey.Around

/-!
# Where detections come from

A survey's detections are the usable ones among those that the detector reports under
the first preset under which it reports any. One for one and in order they are moved into
the frame of the picture: pulled into the frame that was scanned, and turned back if that
was a turned one. Nothing else about them changes, whatever goes on in the pool.

* `Survey.sources`, `Survey.sourcesTurned`: the reported detections.
* `Survey.Traces`: detections that come from others one for one.
* `Survey.traces_sources`: all detections that a survey answers are traced.
-/

namespace Reframe

/-- A batch that has come to values has run all of its tasks, whatever went on. -/
theorem Client.fanOut_ok {ν ρ : Type} {Allowed : Event ν ρ → Prop} {token : Token}
    {tasks : List (Task ν ρ)} {p q : Pool ν ρ} {values : List ρ}
    (h : (fanOut token tasks).Ends Allowed p (.ok values) q) :
    List.Forall₂ (fun t value => ∃ log flags, t.Ends log flags (some value)) tasks values := by
  obtain ⟨events, -, rfl, hr⟩ := ends_fanOut h
  let c : Call ν ρ := ⟨p, token, tasks, events⟩
  have hout : c.outcome? = some (.ok values) := by
    rw [Call.outcome?, Call.last_eq]
    exact hr
  refine (Call.forall₂_of_ok hout).imp fun t value ht => ?_
  obtain ⟨_, n, _, _, hends⟩ := ht
  exact ⟨_, _, hends⟩

namespace Survey

variable {s : Survey} {gray : Gray} {picture : Picture} {angles : List Float} {degrees : Float}
  {presets : List Scan} {frame : Extent} {ds out : List Detection}

/-- The usable detections that the detector reports under a preset. -/
def usable (s : Survey) (gray : Gray) (angles : List Float) (preset : Scan) : List Detection :=
  ((angles.map preset.withAngle).flatMap (s.reported gray)).filter (s.IsUsable ·)

/-- The usable detections under the first preset that has any. -/
def sources (s : Survey) (gray : Gray) (angles : List Float) (presets : List Scan) :
    List Detection :=
  ((presets.map (s.usable gray angles)).find? (!·.isEmpty)).getD []

/-- The sources of what is found on a picture. -/
def sourcesIn (s : Survey) (picture : Picture) (angles : List Float) : List Detection :=
  s.sources picture.toGray (if angles.isEmpty then [0.0] else angles) s.presets

/-- The sources of what is found on a turned copy. -/
def sourcesTurned (s : Survey) (picture : Picture) (degrees : Float) (angles : List Float) :
    List Detection :=
  let rotation := Angle.normalize degrees
  if rotation == 0.0 then s.sourcesIn picture angles
  else s.sourcesIn (picture.turn s.instruments rotation) angles

/-- Usable detections of a frame that come from others one for one and in order. Only
their spots may differ. -/
def Traces (s : Survey) (frame : Extent) (sources out : List Detection) : Prop :=
  List.Forall₂ (fun source d => d = { source with spot := d.spot } ∧ frame.Contains d.spot ∧
    s.IsUsable d) sources out

/-- A source is usable, and the detector has reported it. -/
theorem mem_sources {d : Detection} (h : d ∈ s.sources gray angles presets) :
    s.IsUsable d ∧ ∃ preset ∈ presets, ∃ angle ∈ angles, ∃ report,
      (s.detector gray (preset.withAngle angle)).report = some report ∧ d ∈ report := by
  unfold sources at h
  cases hfind : (presets.map (s.usable gray angles)).find? (!·.isEmpty) with
  | none =>
    rw [hfind] at h
    exact absurd h List.not_mem_nil
  | some found =>
    rw [hfind] at h
    obtain ⟨preset, hpreset, rfl⟩ := List.mem_map.1 (List.mem_of_find?_eq_some hfind)
    obtain ⟨hreported, husable⟩ := List.mem_filter.1 h
    obtain ⟨scan, hscan, hd⟩ := List.mem_flatMap.1 hreported
    obtain ⟨angle, hangle, rfl⟩ := List.mem_map.1 hscan
    refine ⟨of_decide_eq_true husable, preset, hpreset, angle, hangle, ?_⟩
    unfold reported at hd
    cases hreport : (s.detector gray (preset.withAngle angle)).report with
    | none =>
      rw [hreport] at hd
      exact absurd hd List.not_mem_nil
    | some report =>
      rw [hreport] at hd
      exact ⟨report, rfl, hd⟩

/-- What is kept of a preset's reports are the usable ones, pulled into the frame. -/
theorem kept_eq (s : Survey) (gray : Gray) (angles : List Float) (preset : Scan) :
    s.kept gray angles preset =
      (s.usable gray angles preset).map fun d => { d with spot := gray.extent.pull d.spot } := by
  rw [usable, ← List.filterMap_eq_map, List.filterMap_filter, kept]
  refine List.filterMap_congr fun d _ => ?_
  simp only [sanitize, Function.comp_apply, decide_eq_true_eq]

/-- **What is found are the sources**, pulled into the frame that was scanned. -/
theorem found_eq :
    s.found gray angles presets =
      (s.sources gray angles presets).map fun d => { d with spot := gray.extent.pull d.spot } := by
  induction presets with
  | nil => rfl
  | cons preset presets ih =>
    have hkept := s.kept_eq gray angles preset
    rw [sources, List.map_cons, List.find?_cons]
    cases husable : s.usable gray angles preset with
    | nil =>
      rw [husable] at hkept
      rw [found_cons_of_nil hkept, ih]
      rfl
    | cons d rest =>
      rw [husable] at hkept
      rw [found_cons_of_cons hkept]
      rfl

/-- Usable detections whose spots are moved into a frame are traced. -/
theorem traces_map {move : Spot → Spot} (husable : ∀ d ∈ ds, s.IsUsable d)
    (hmove : ∀ p, frame.Contains (move p)) :
    s.Traces frame ds (ds.map fun d => { d with spot := move d.spot }) := by
  refine List.forall₂_map_right_iff.2 (List.forall₂_same.2 fun d hd => ⟨rfl, hmove d.spot, ?_⟩)
  have hd : s.IsUsable d := husable d hd
  exact hd

theorem traces_foundIn (h : ¬ picture.extent.IsEmpty) :
    s.Traces picture.extent (s.sourcesIn picture angles) (s.foundIn picture angles) := by
  rw [foundIn, found_eq]
  exact traces_map (fun d hd => (mem_sources hd).1) fun p => Extent.contains_pull h p

/-- **What is found on a turned copy is traced into the picture's own frame.** -/
theorem traces_foundTurned (h : ¬ picture.extent.IsEmpty) :
    s.Traces picture.extent (s.sourcesTurned picture degrees angles)
      (s.foundTurned picture degrees angles) := by
  unfold sourcesTurned foundTurned
  extract_lets rotation turned
  split
  · exact traces_foundIn h
  · rw [foundIn, found_eq, List.map_map]
    let move (p : Spot) : Spot := (turned.toGray.extent.pull p).turnInto s.instruments.spots
      turned.extent picture.extent (Angle.inverse rotation)
    have hmove : ∀ p, picture.extent.Contains (move p) := fun p => Spot.turnInto_mem _ _ h _ _
    exact traces_map (fun d hd => (mem_sources hd).1) hmove

theorem traces_foundAround (h : ¬ picture.extent.IsEmpty) :
    s.Traces picture.extent (s.passes.flatMap fun x => s.sourcesTurned picture x.1 [x.2])
      (s.foundAround picture) := by
  refine List.rel_flatMap (R := Eq) (List.forall₂_refl _) fun x y hxy => ?_
  subst hxy
  exact traces_foundTurned h

/-- Scans on the spot bring back every report in its place, or fail. -/
theorem spreads_each_anyhow (log : List Look) (flags : List Token) :
    Spreads (Task.semantics log flags) (fun _ => True) (fun _ _ => True) Task.each s := by
  intro gray scans _ o _ _ h
  obtain ⟨result, rfl, hresult⟩ := Task.ends_each h
  rcases result with fault | values
  · exact .inr ⟨fault, rfl, trivial⟩
  · have hvalues : List.Forall₂ _ (scans.map (s.look gray)) values := hresult
    have hlooks := looks_ok (hvalues.imp fun t value hends => ⟨log, flags, hends⟩)
    exact .inl ⟨by rw [hlooks], trivial⟩

/-- Scans in a pool do so too, whatever goes on there. -/
theorem spreads_fanOut_anyhow (Allowed : Event Look Pass → Prop) :
    Spreads (Client.semantics Allowed) (fun _ => True) (fun _ _ => True) Client.fanOut s := by
  rintro gray scans p _ q - ⟨result, calls, rfl, hcalls, -, hallowed⟩
  have hends : (Client.fanOut s.token _).Ends Allowed p.1 result q.1 :=
    Client.ends_iff_makes.2 ⟨calls, hcalls, hallowed⟩
  rcases result with fault | values
  · exact .inr ⟨fault, rfl, trivial⟩
  · exact .inl ⟨by rw [looks_ok (Client.fanOut_ok hends)], trivial⟩

/-- A pass that answers detections answers what it brings back. -/
theorem eq_of_comes {m : Type → Type} {σ : Type} [Monad m] {S : Semantics m σ} {x : m Pass}
    {found : List Detection} {p q : σ} (hx : S.Comes (fun _ => True) (fun _ _ => True) x found)
    (h : S.Ends x p (some (.ok out)) q) : out = found := by
  rcases hx p _ q trivial h with ⟨heq, -⟩ | ⟨_, heq, -⟩
  · exact Except.ok.inj (Option.some.inj heq)
  · cases heq

/-- A survey all around that answers detections answers what plain looks find. -/
theorem foundAround_of_ends {Allowed : Event Look Pass → Prop} {p q : Pool Look Pass}
    (h : (s.detectAround Client.fanOut picture).Ends Allowed p (.ok out) q) :
    out = s.foundAround picture := by
  obtain ⟨result, r, hfan, hrest⟩ := Client.ends_bind h
  obtain ⟨hout, -⟩ := Client.ends_done hrest
  rcases result with fault | passes
  · cases hout
  have hpasses := (List.forall₂_map_left_iff.1 (Client.fanOut_ok hfan)).imp
    (S := fun x pass => pass = .ok (s.foundTurned picture x.1 [x.2]) ∨
      ∃ fault, pass = .error fault ∧ True) fun x pass hx => ?_
  · rcases Pass.gather_cases hpasses with hok | ⟨fault, herror, -⟩
    · exact Except.ok.inj (hout.trans hok)
    · cases hout.trans herror
  · obtain ⟨log, flags, hends⟩ := hx
    unfold passTask at hends
    split at hends
    · rcases pass with fault | detections
      · exact .inr ⟨fault, rfl, trivial⟩
      · have hspreads := spreads_each_anyhow (s := s) log flags
        have hcomes := comes_detectTurned hspreads picture x.1 [x.2]
        exact .inl (congrArg _ (eq_of_comes (p := ()) (q := ()) hcomes hends))
    · cases Task.ends_crash.1 hends

/-- **Where the detections of a survey come from**, for a picture with pixels, in every
pool and every course of events, or on the spot. Those that are answered are usable, lie in
the frame of the picture itself, and come one for one from the usable detections that the
detector has reported, with the same scale and the same quality. -/
theorem traces_sources (s : Survey) {picture : Picture} (h : ¬ picture.extent.IsEmpty) :
    (∀ Allowed p q angles out,
      (s.detect Client.fanOut picture angles).Ends Allowed p (.ok out) q →
        s.Traces picture.extent (s.sourcesIn picture angles) out) ∧
    (∀ Allowed p q degrees angles out,
      (s.detectTurned Client.fanOut picture degrees angles).Ends Allowed p (.ok out) q →
        s.Traces picture.extent (s.sourcesTurned picture degrees angles) out) ∧
    (∀ Allowed p q out,
      (s.detectAround Client.fanOut picture).Ends Allowed p (.ok out) q →
        s.Traces picture.extent (s.passes.flatMap fun x => s.sourcesTurned picture x.1 [x.2])
          out) ∧
    ∀ log flags degrees angles out,
      (s.detectTurned Task.each picture degrees angles).Ends log flags (some (.ok out)) →
        s.Traces picture.extent (s.sourcesTurned picture degrees angles) out := by
  refine ⟨?_, ?_, ?_, ?_⟩
  · intro Allowed p q angles out hends
    have hcomes := comes_detect (spreads_fanOut_anyhow (s := s) Allowed) picture angles
    obtain ⟨calls, hends⟩ := Client.semantics_of_ends hends
    rw [eq_of_comes hcomes hends]
    exact traces_foundIn h
  · intro Allowed p q degrees angles out hends
    have hspreads := spreads_fanOut_anyhow (s := s) Allowed
    have hcomes := comes_detectTurned hspreads picture degrees angles
    obtain ⟨calls, hends⟩ := Client.semantics_of_ends hends
    rw [eq_of_comes hcomes hends]
    exact traces_foundTurned h
  · intro Allowed p q out hends
    rw [foundAround_of_ends hends]
    exact traces_foundAround h
  · intro log flags degrees angles out hends
    have hspreads := spreads_each_anyhow (s := s) log flags
    have hcomes := comes_detectTurned hspreads picture degrees angles
    rw [eq_of_comes (p := ()) (q := ()) hcomes hends]
    exact traces_foundTurned h

/-- Its detector reports one usable detection, off the frame, and two unusable ones. It looks
at the picture and at a copy turned by 90 degrees. -/
def offFrame : Survey where
  detector := fun _ _ => .found [
    { spot := ⟨-5, 7⟩, scale := 3, quality := 4.0 },
    { spot := ⟨0, 0⟩, scale := -3, quality := 4.0 },
    { spot := ⟨0, 0⟩, scale := 3, quality := 0.0 / 0.0 }]
  presets := Scan.presets.take 1
  rotations := [0.0, 90.0]
  angles := [0.0]
  minQuality := 0.0
  token := 0
  instruments := { spots := ⟨3.0, fun _ => -1.0, fun _ => 0.0⟩, pixels := .single }

theorem traces_sources_offFrame :
    let picture := Picture.clear ⟨2, 1⟩
    ∃ q, (offFrame.detectAround Client.fanOut picture).Ends (fun _ => True)
      (Pool.idle 2 none .horizon) (.ok [{ spot := ⟨0, 0⟩, scale := 3, quality := 4.0 },
        { spot := ⟨1, 0⟩, scale := 3, quality := 4.0 }]) q ∧
    offFrame.Traces ⟨2, 1⟩
      [{ spot := ⟨-5, 7⟩, scale := 3, quality := 4.0 },
        { spot := ⟨-5, 7⟩, scale := 3, quality := 4.0 }]
      [{ spot := ⟨0, 0⟩, scale := 3, quality := 4.0 },
        { spot := ⟨1, 0⟩, scale := 3, quality := 4.0 }] := by
  intro picture
  have hpicture : ¬ picture.extent.IsEmpty := by decide
  have hout : (offFrame.around (Pool.idle 2 none .horizon) picture (crossed 5 5)).outcome? =
      some (.ok [.ok [{ spot := ⟨0, 0⟩, scale := 3, quality := 4.0 }],
        .ok [{ spot := ⟨1, 0⟩, scale := 3, quality := 4.0 }]]) := by decide +kernel
  have hsources : (offFrame.passes.flatMap fun x => offFrame.sourcesTurned picture x.1 [x.2]) =
      [{ spot := ⟨-5, 7⟩, scale := 3, quality := 4.0 },
        { spot := ⟨-5, 7⟩, scale := 3, quality := 4.0 }] := by decide +kernel
  have hends : (offFrame.detectAround Client.fanOut picture).Ends (fun _ => True) _ _ _ :=
    ends_detectAround_iff.2 ⟨crossed 5 5, _, fun _ _ => trivial, hout, rfl, rfl⟩
  obtain ⟨-, -, haround, -⟩ := traces_sources offFrame hpicture
  have htraces := haround _ _ _ _ hends
  rw [hsources] at htraces
  exact ⟨_, hends, htraces⟩

end Survey

end Reframe
