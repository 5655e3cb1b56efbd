import Reframe.Proofs.Pool.Calls
import Reframe.Survey

/-!
# What a survey finds

A survey is written for any monad in which tasks can be spread. What it finds does not
depend on the monad: if the way to spread tasks brings back every scan's report in its
place, or fails, then the survey brings back what a plain look through all presets
finds, or fails the same way.

* `Semantics`: what the programs of a monad can come to.
* `Survey.found`, `Survey.foundTurned`: the plain look.
* `Survey.detectGray_cons`: one preset after the other.
* `Survey.comes_detect`, `Survey.comes_detectTurned`: surveys find it.
* `Survey.Composes`: what a survey has of the way to spread tasks.
-/

namespace Reframe

variable {ν ρ σ : Type}

/-- What the programs of a monad can come to, from one state to another: a value, or
none if they crash. -/
structure Semantics (m : Type → Type) [Monad m] (σ : Type) where
  Ends {β : Type} : m β → σ → Option β → σ → Prop
  of_pure {β : Type} {b : β} {p q : σ} {o : Option β} : Ends (pure b) p o q → o = some b ∧ q = p
  of_bind {β γ : Type} {x : m β} {k : β → m γ} {p q : σ} {o : Option γ} : Ends (x >>= k) p o q →
    (Ends x p none q ∧ o = none) ∨ ∃ b r, Ends x p (some b) r ∧ Ends (k b) r o q

/-- What tasks can come to among some notes and flags. -/
def Task.semantics (log : List ν) (flags : List Token) : Semantics (Task ν) Unit where
  Ends t _ o _ := t.Ends log flags o
  of_pure h := ⟨ends_done.1 h, rfl⟩
  of_bind h := by
    rcases ends_bind.1 h with hcrash | ⟨b, hb, hk⟩
    · exact .inl hcrash
    · exact .inr ⟨b, (), hb, hk⟩

/-- What work can come to by allowed events, with the calls that it has made. Where it would
crash because the clock cannot tell the end of a batch's time it comes to nothing. -/
def Client.semantics (Allowed : Event ν ρ → Prop) :
    Semantics (Client ν ρ) (Pool ν ρ × List (Call ν ρ)) where
  Ends c p o q := ∃ w calls, o = some w ∧ c.Makes p.1 calls w q.1 ∧ q.2 = p.2 ++ calls ∧
    ∀ call ∈ calls, ∀ e ∈ call.events, Allowed e
  of_pure h := by
    obtain ⟨w, calls, rfl, hw, hcalls, -⟩ := h
    obtain ⟨rfl, rfl, hpool⟩ := makes_done hw
    rw [List.append_nil] at hcalls
    exact ⟨rfl, Prod.ext hpool hcalls⟩
  of_bind {_ _ _ _ p _ _} h := by
    obtain ⟨w, calls, rfl, hw, hcalls, hallowed⟩ := h
    obtain ⟨first, second, v, r, rfl, hv, hk⟩ := makes_bind hw
    rw [List.forall_mem_append] at hallowed
    rw [← List.append_assoc] at hcalls
    exact .inr ⟨v, (r, p.2 ++ first), ⟨v, first, rfl, hv, rfl, hallowed.1⟩,
      w, second, rfl, hk, hcalls, hallowed.2⟩

/-- Every course is one with calls. -/
theorem Client.semantics_of_ends {Allowed : Event ν ρ → Prop} {β : Type} {c : Client ν ρ β}
    {p q : Pool ν ρ} {w : β} (h : c.Ends Allowed p w q) :
    ∃ calls, (Client.semantics Allowed).Ends c (p, []) (some w) (q, calls) := by
  obtain ⟨calls, hcalls, hallowed⟩ := ends_iff_makes.1 h
  exact ⟨calls, w, calls, rfl, hcalls, rfl, hallowed⟩

variable {m : Type → Type} [Monad m]

/-- A pass brings back certain detections from every good state, and leaves a good one,
or it fails and leaves a bad one. -/
def Semantics.Comes (S : Semantics m σ) (Good : σ → Prop) (Bad : σ → Fault → Prop)
    (x : m Pass) (detections : List Detection) : Prop :=
  ∀ p o q, Good p → S.Ends x p o q →
    (o = some (.ok detections) ∧ Good q) ∨ ∃ fault, o = some (.error fault) ∧ Bad q fault

variable {S : Semantics m σ} {Good : σ → Prop} {Bad : σ → Fault → Prop}

theorem Semantics.comes_pure (detections : List Detection) :
    S.Comes Good Bad (pure (.ok detections)) detections := by
  intro p o q hp h
  obtain ⟨rfl, rfl⟩ := S.of_pure h
  exact .inl ⟨rfl, hp⟩

/-- A pass whose detections are changed one by one. -/
theorem Semantics.Comes.map {x : m Pass} {detections : List Detection}
    (h : S.Comes Good Bad x detections) (f : Detection → Detection) :
    S.Comes Good Bad (x >>= fun pass => pure (pass.map (·.map f))) (detections.map f) := by
  intro p o q hp hends
  rcases S.of_bind hends with ⟨hcrash, -⟩ | ⟨pass, r, hx, hk⟩
  · rcases h p none q hp hcrash with ⟨habs, -⟩ | ⟨_, habs, -⟩ <;> cases habs
  · obtain ⟨rfl, rfl⟩ := S.of_pure hk
    rcases h p _ _ hp hx with ⟨hpass, hq⟩ | ⟨fault, hpass, hq⟩
    · cases hpass
      exact .inl ⟨rfl, hq⟩
    · cases hpass
      exact .inr ⟨fault, rfl, hq⟩

theorem Pass.gather_cons (pass : Pass) (passes : List Pass) :
    gather (pass :: passes) =
      pass.bind fun detections => (gather passes).map (detections ++ ·) := by
  rw [gather, List.mapM_cons, gather]
  cases pass with
  | error fault => rfl
  | ok detections =>
    cases passes.mapM id with
    | error fault => rfl
    | ok rest => rfl

/-- Passes that bring back certain detections, or fail, together bring back all of them
in order, or fail. -/
theorem Pass.gather_cases {τ : Type} {xs : List τ} {passes : List Pass}
    {find : τ → List Detection} {Failed : Fault → Prop}
    (h : List.Forall₂ (fun x pass =>
      pass = .ok (find x) ∨ ∃ fault, pass = .error fault ∧ Failed fault) xs passes) :
    gather passes = .ok (xs.flatMap find) ∨
      ∃ fault, gather passes = .error fault ∧ Failed fault := by
  induction h with
  | nil => exact .inl rfl
  | @cons x pass xs passes hpass _ ih =>
    rw [gather_cons]
    rcases hpass with rfl | ⟨fault, rfl, hfault⟩
    · rcases ih with hrest | ⟨fault, hrest, hfault⟩
      · exact .inl (by rw [hrest]; rfl)
      · exact .inr ⟨fault, by rw [hrest]; rfl, hfault⟩
    · exact .inr ⟨fault, rfl, hfault⟩

namespace Survey

variable {s : Survey} {gray : Gray} {picture : Picture} {angles : List Float}

/-- What the detector reports, as if it never crashed. -/
def reported (s : Survey) (gray : Gray) (scan : Scan) : List Detection :=
  (s.detector gray scan).report.getD []

/-- The detector crashed at one of the looks. -/
def HasCrashed (s : Survey) (log : List Look) : Prop :=
  ∃ look ∈ log, (s.detector look.gray look.scan).report = none

/-- What is kept of a preset's reports. -/
def kept (s : Survey) (gray : Gray) (angles : List Float) (preset : Scan) : List Detection :=
  ((angles.map preset.withAngle).flatMap (s.reported gray)).filterMap (s.sanitize gray.extent)

/-- What a plain look through the presets finds on a gray picture. -/
def found (s : Survey) (gray : Gray) (angles : List Float) : List Scan → List Detection
  | [] => []
  | preset :: presets =>
    match s.kept gray angles preset with
    | [] => found s gray angles presets
    | detections => detections

/-- What a plain look finds on a picture. -/
def foundIn (s : Survey) (picture : Picture) (angles : List Float) : List Detection :=
  s.found picture.toGray (if angles.isEmpty then [0.0] else angles) s.presets

/-- What a plain look finds on a turned copy, in the frame of the picture. -/
def foundTurned (s : Survey) (picture : Picture) (degrees : Float) (angles : List Float) :
    List Detection :=
  let rotation := Angle.normalize degrees
  if rotation == 0.0 then s.foundIn picture angles
  else
    let turned := picture.turn s.instruments rotation
    (s.foundIn turned angles).map (s.turnedBack turned.extent picture.extent rotation)

/-- What plain looks all around find. -/
def foundAround (s : Survey) (picture : Picture) : List Detection :=
  s.passes.flatMap fun p => s.foundTurned picture p.1 [p.2]

theorem sanitize_eq_some {e : Extent} {d d' : Detection} (h : s.sanitize e d = some d') :
    s.IsUsable d ∧ d' = { d with spot := e.pull d.spot } := by
  unfold sanitize at h
  split at h
  next husable =>
    cases h
    exact ⟨husable, rfl⟩
  next => cases h

theorem isUsable_of_mem_kept {preset : Scan} {d : Detection} (h : d ∈ s.kept gray angles preset) :
    s.IsUsable d := by
  obtain ⟨d', -, hd'⟩ := List.mem_filterMap.1 h
  obtain ⟨husable, rfl⟩ := sanitize_eq_some hd'
  exact husable

theorem found_cons_of_nil {preset : Scan} {presets : List Scan}
    (h : s.kept gray angles preset = []) :
    s.found gray angles (preset :: presets) = s.found gray angles presets := by
  rw [found, h]

theorem found_cons_of_cons {preset : Scan} {presets : List Scan} {d : Detection}
    {ds : List Detection} (h : s.kept gray angles preset = d :: ds) :
    s.found gray angles (preset :: presets) = d :: ds := by
  rw [found, h]

/-- **Only usable detections are found.** -/
theorem isUsable_of_mem_found {presets : List Scan} {d : Detection}
    (h : d ∈ s.found gray angles presets) : s.IsUsable d := by
  induction presets with
  | nil => exact absurd h List.not_mem_nil
  | cons preset presets ih =>
    cases hkept : s.kept gray angles preset with
    | nil =>
      rw [found_cons_of_nil hkept] at h
      exact ih h
    | cons d' ds =>
      rw [found_cons_of_cons hkept, ← hkept] at h
      exact isUsable_of_mem_kept h

theorem isUsable_of_mem_foundIn {d : Detection} (h : d ∈ s.foundIn picture angles) :
    s.IsUsable d :=
  isUsable_of_mem_found h

theorem isUsable_of_mem_foundTurned {degrees : Float} {d : Detection}
    (h : d ∈ s.foundTurned picture degrees angles) : s.IsUsable d := by
  unfold foundTurned at h
  extract_lets rotation at h
  split at h
  · exact isUsable_of_mem_found h
  · obtain ⟨d', hd', rfl⟩ := List.mem_map.1 h
    have husable : s.IsUsable d' := isUsable_of_mem_foundIn hd'
    exact husable

theorem isUsable_of_mem_foundAround {d : Detection} (h : d ∈ s.foundAround picture) :
    s.IsUsable d := by
  obtain ⟨p, -, hp⟩ := List.mem_flatMap.1 h
  exact isUsable_of_mem_foundTurned hp

/-- The way to spread tasks brings back every scan's report in its place, or fails. -/
def Spreads (S : Semantics m σ) (Good : σ → Prop) (Bad : σ → Fault → Prop)
    (fanOut : Token → List (Task Look Pass) → m (Except Fault (List Pass))) (s : Survey) : Prop :=
  ∀ (gray : Gray) (scans : List Scan) p o q, Good p →
    S.Ends (fanOut s.token (scans.map (s.look gray))) p o q →
    (o = some (.ok (scans.map fun scan => .ok (s.reported gray scan))) ∧ Good q) ∨
      ∃ fault, o = some (.error fault) ∧ Bad q fault

variable {fanOut : Token → List (Task Look Pass) → m (Except Fault (List Pass))}

theorem gather_reported (gray : Gray) (scans : List Scan) :
    Pass.gather (scans.map fun scan => .ok (s.reported gray scan)) =
      .ok (scans.flatMap (s.reported gray)) := by
  induction scans with
  | nil => rfl
  | cons scan scans ih =>
    rw [List.map_cons, Pass.gather_cons, ih]
    rfl

/-- One look for each angle, in the form in which tasks are spread. -/
theorem looks_eq_map (gray : Gray) (angles : List Float) (preset : Scan) :
    (angles.map fun angle => s.look gray (preset.withAngle angle)) =
      (angles.map preset.withAngle).map (s.look gray) := by
  rw [List.map_map]
  rfl

/-- What the looks under a preset come to: the answer of the survey, or none if nothing usable
is reported and the next preset is tried. -/
def verdict (s : Survey) (gray : Gray) (passes : Except Fault (List Pass)) : Option Pass :=
  match passes.bind Pass.gather with
  | .error fault => some (.error fault)
  | .ok reported =>
    match reported.filterMap (s.sanitize gray.extent) with
    | [] => none
    | detections => some (.ok detections)

/-- **The next preset is only tried without an answer** under the first one. -/
theorem detectGray_cons (fanOut : Token → List (Task Look Pass) → m (Except Fault (List Pass)))
    (s : Survey) (gray : Gray) (angles : List Float) (preset : Scan) (presets : List Scan) :
    s.detectGray fanOut gray angles (preset :: presets) =
      fanOut s.token (angles.map fun angle => s.look gray (preset.withAngle angle)) >>=
        fun passes =>
          match s.verdict gray passes with
          | some answer => pure answer
          | none => s.detectGray fanOut gray angles presets := by
  rw [detectGray]
  refine congrArg _ (funext fun passes => ?_)
  unfold verdict
  cases passes.bind Pass.gather with
  | error fault => rfl
  | ok reported =>
    dsimp only
    cases reported.filterMap (s.sanitize gray.extent) <;> rfl

theorem verdict_of_nil (h : s.kept gray angles preset = []) :
    s.verdict gray (.ok ((angles.map preset.withAngle).map fun scan =>
      .ok (s.reported gray scan))) = none := by
  rw [kept] at h
  simp only [verdict, Except.bind, gather_reported, h]

theorem verdict_of_cons {d : Detection} {ds : List Detection}
    (h : s.kept gray angles preset = d :: ds) :
    s.verdict gray (.ok ((angles.map preset.withAngle).map fun scan =>
      .ok (s.reported gray scan))) = some (.ok (d :: ds)) := by
  rw [kept] at h
  simp only [verdict, Except.bind, gather_reported, h]

/-- **Looking through the presets in any monad finds what a plain look finds**, or
fails as the way to spread tasks fails. -/
theorem comes_detectGray (hfan : Spreads S Good Bad fanOut s) (gray : Gray)
    (angles : List Float) (presets : List Scan) :
    S.Comes Good Bad (s.detectGray fanOut gray angles presets) (s.found gray angles presets) := by
  induction presets with
  | nil => exact S.comes_pure []
  | cons preset presets ih =>
    intro p o q hp h
    rw [detectGray_cons, looks_eq_map] at h
    rcases S.of_bind h with ⟨hcrash, -⟩ | ⟨passes, r, hpasses, hk⟩
    · rcases hfan _ _ p none q hp hcrash with ⟨habs, -⟩ | ⟨_, habs, -⟩ <;> cases habs
    rcases hfan _ _ p _ r hp hpasses with ⟨heq, hr⟩ | ⟨fault, heq, hr⟩
    · cases heq
      cases hkept : s.kept gray angles preset with
      | nil =>
        rw [verdict_of_nil hkept] at hk
        rw [found_cons_of_nil hkept]
        exact ih r o q hr hk
      | cons d ds =>
        rw [verdict_of_cons hkept] at hk
        rw [found_cons_of_cons hkept]
        obtain ⟨rfl, rfl⟩ := S.of_pure hk
        exact .inl ⟨rfl, hr⟩
    · cases heq
      obtain ⟨rfl, rfl⟩ := S.of_pure hk
      exact .inr ⟨fault, rfl, hr⟩

/-- A property of programs that every plain result has, and that one program after the other
keeps if a fault of the first is a fault of both. -/
structure Composes (P : (β : Type) → m (Except Fault β) → Prop) : Prop where
  result {β : Type} (r : Except Fault β) : P β (pure r)
  next {β γ : Type} {x : m (Except Fault β)} {k : Except Fault β → m (Except Fault γ)} :
    P β x → (∀ r, P γ (k r)) → (∀ fault, k (.error fault) = pure (.error fault)) → P γ (x >>= k)

variable {P : (β : Type) → m (Except Fault β) → Prop}

/-- **A survey has every such property** that spreading looks has. -/
theorem Composes.detectGray (hP : Composes P)
    (hfan : ∀ (gray : Gray) (scans : List Scan),
      P _ (fanOut s.token (scans.map (s.look gray)))) (gray : Gray)
    (angles : List Float) (presets : List Scan) :
    P _ (s.detectGray fanOut gray angles presets) := by
  induction presets with
  | nil => exact hP.result _
  | cons preset presets ih =>
    rw [detectGray_cons, looks_eq_map]
    refine hP.next (hfan _ _) (fun passes => ?_) fun fault => rfl
    cases s.verdict gray passes with
    | none => exact ih
    | some answer => exact hP.result answer

theorem Composes.detectTurned (hP : Composes P)
    (hfan : ∀ (gray : Gray) (scans : List Scan),
      P _ (fanOut s.token (scans.map (s.look gray)))) (picture : Picture)
    (degrees : Float) (angles : List Float) :
    P _ (s.detectTurned fanOut picture degrees angles) := by
  unfold Survey.detectTurned
  extract_lets rotation turned
  split
  · exact hP.detectGray hfan _ _ _
  · exact hP.next (hP.detectGray hfan _ _ _) (fun pass => hP.result _) fun fault => rfl

theorem comes_detect (hfan : Spreads S Good Bad fanOut s) (picture : Picture)
    (angles : List Float) :
    S.Comes Good Bad (s.detect fanOut picture angles) (s.foundIn picture angles) :=
  comes_detectGray hfan _ _ _

/-- **So does looking at a turned copy.** -/
theorem comes_detectTurned (hfan : Spreads S Good Bad fanOut s) (picture : Picture)
    (degrees : Float) (angles : List Float) :
    S.Comes Good Bad (s.detectTurned fanOut picture degrees angles)
      (s.foundTurned picture degrees angles) := by
  unfold detectTurned foundTurned
  extract_lets rotation turned
  split
  · exact comes_detect hfan picture angles
  · exact (comes_detect hfan turned angles).map _

end Survey

end Reframe
