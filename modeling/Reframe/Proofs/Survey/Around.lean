import Reframe.Proofs.Pool.Alone
import Reframe.Proofs.Pool.FanOut
import Reframe.Proofs.Pool.Undisturbed
import Reframe.Proofs.Survey.Pooled

/-!
# Surveys all around, in any order

The passes of a survey all around are spread over a pool and run in any order, and each of
them does its scans on the spot. What the survey answers is what the passes give alone,
one after the other: all detections in the order of the passes, or the first failure in
that order. A cancellation at whatever moment can make the answer a fault, and nothing
else.

* `Survey.IsSequential`: the answer of the passes done alone.
* `Survey.heeds_passTask`: a pass ends as it does alone, or cancelled.
* `Survey.detectTurned_alone`: what it comes to alone is what a caller gets.
* `Survey.detectAround_sequential`: the answer in a pool.
-/

namespace Reframe

namespace Task

variable {ν ρ : Type} {log log' : List ν}

/-- A quiet task can really end as it does alone. -/
theorem Quiet.ends_alone {t : Task ν ρ} (h : t.Quiet) : ∃ log, t.Ends log [] t.alone := by
  induction t with
  | done value => exact ⟨[], ends_done.2 rfl⟩
  | crash => exact ⟨[], ends_crash.2 rfl⟩
  | note n next ih =>
    obtain ⟨log, hends⟩ := ih h
    refine ⟨n :: log, ends_note.2 ⟨List.mem_cons_self, ?_⟩⟩
    exact hends.mono (List.subset_cons_self n log) (List.Subset.refl _)
  | sleep time next ih =>
    obtain ⟨log, hends⟩ := ih h
    exact ⟨log, ends_sleep.2 hends⟩
  | cancel token next ih => exact h.elim
  | await token next ih => exact h.elim
  | check token next ih =>
    obtain ⟨log, hends⟩ := ih false (h false)
    exact ⟨log, ends_check.2 (.inr hends)⟩

end Task

/-- A batch of one steady task that is not called off comes to what it comes to on the spot,
unless its time runs out. -/
theorem Client.fanOut_singleton {ν ρ : Type} {token : Token} {t : Task ν ρ} {p q : Pool ν ρ}
    {result : Except Fault (List ρ)} (hp : p.Spares token) (hquiet : t.Quiet) (ht : t.IsSteady)
    (h : (fanOut token [t]).Ends (Event.Spares token) p result q) :
    (Task.each token [t]).alone = some result ∧
        (∀ values, result = .ok values → p.Grows q ∧ q.Spares token) ∨
      ∃ limit, result = .error (.late limit) ∧ p.limit = some limit := by
  have hquiet : ∀ u ∈ [t], u.Quiet := by
    intro u hu
    rwa [List.mem_singleton.1 hu]
  rw [Task.alone_each_singleton]
  obtain ⟨calls, hcalls, hallowed⟩ := ends_iff_makes.1 h
  obtain ⟨hgrows, c, -, ⟨values, rfl, hspares, hvalues⟩ | ⟨i, u, rfl, hu, flags, -, hends⟩ |
    ⟨limit, rfl, hlimit, -⟩⟩ := fanOut_cases (Pool.Grows.refl p) hp hquiet hcalls hallowed
  · cases hvalues with
    | cons hvalue hrest =>
      cases hrest
      obtain ⟨i, flags, -, hends⟩ := hvalue
      rw [← ht _ _ _ hends]
      exact .inl ⟨rfl, fun _ _ => ⟨hgrows, hspares⟩⟩
  · cases i with
    | zero =>
      obtain rfl : t = u := Option.some.inj hu
      rw [← ht _ _ _ hends]
      exact .inl ⟨rfl, fun _ habs => by cases habs⟩
    | succ i => cases hu
  · exact .inr ⟨limit, rfl, hlimit⟩

/-- **Gathering passes**: all that they found if every one succeeded, else the failure of
the first one that did not. -/
theorem Pass.gather_of_forall₂ {τ : Type} {xs : List τ} {passes : List Pass} {R : τ → Pass → Prop}
    (h : List.Forall₂ R xs passes) :
    (∃ found, gather passes = .ok found.flatten ∧
      List.Forall₂ (fun x detections => R x (.ok detections)) xs found) ∨
    ∃ fault before x after, gather passes = .error fault ∧ xs = before ++ x :: after ∧
      (∀ y ∈ before, ∃ detections, R y (.ok detections)) ∧ R x (.error fault) := by
  induction h with
  | nil => exact .inl ⟨[], rfl, .nil⟩
  | @cons x pass xs passes hpass _ ih =>
    rw [gather_cons]
    rcases pass with fault | detections
    · exact .inr ⟨fault, [], x, xs, rfl, rfl, by simp, hpass⟩
    rcases ih with ⟨found, hgather, hfound⟩ | ⟨fault, before, y, after, hgather, rfl, hbefore, hy⟩
    · exact .inl ⟨detections :: found, by rw [hgather]; rfl, .cons hpass hfound⟩
    · refine .inr ⟨fault, x :: before, y, after, by rw [hgather]; rfl, rfl, ?_, hy⟩
      exact List.forall_mem_cons.2 ⟨⟨detections, hpass⟩, hbefore⟩

namespace Survey

variable {s : Survey} {p : Pool Look Pass} {picture : Picture} {events : List (Event Look Pass)}
  {gray : Gray} {scan : Scan} {x : Float × Float} {log : List Look} {flags : List Token}

theorem alone_look : (s.look gray scan).alone = (s.detector gray scan).report.map .ok := by
  unfold look
  extract_lets reply
  change _ = Option.map Except.ok reply.report
  cases reply.report <;> rfl

theorem isSteady_look : (s.look gray scan).IsSteady := by
  intro log flags o h
  obtain ⟨-, rfl⟩ := ends_look.1 h
  rw [alone_look]

theorem composes_heeds (token : Token) : Composes (m := Task Look) fun _ t => t.Heeds token where
  result r := Task.heeds_done r
  next hx hk hfault := Task.Heeds.bind hx hk (hfault .cancelled)

theorem heeds_looks (gray : Gray) (scans : List Scan) :
    (Task.each s.token (scans.map (s.look gray))).Heeds s.token := by
  refine Task.heeds_each fun t ht => ?_
  obtain ⟨scan, -, rfl⟩ := List.mem_map.1 ht
  exact isSteady_look

theorem heeds_detectGray (gray : Gray) (angles : List Float) (presets : List Scan) :
    (s.detectGray Task.each gray angles presets).Heeds s.token :=
  (composes_heeds s.token).detectGray heeds_looks _ _ _

/-- **A pass ends as it does alone, or cancelled.** -/
theorem heeds_passTask (x : Float × Float) : (s.passTask picture x).Heeds s.token := by
  unfold passTask
  split
  · exact (composes_heeds s.token).detectTurned heeds_looks _ _ _
  · exact Task.heeds_crash

/-- What a pass over a picture comes to alone. It may crash. -/
def passAlone (s : Survey) (picture : Picture) (rotation angle : Float) : Option Pass :=
  (s.detectTurned Task.each picture rotation [angle]).alone

theorem detectGray_alone {angle : Float} {presets : List Scan} {answer : Pass}
    {q : Pool Look Pass} (hp : p.Spares s.token)
    (h : (s.detectGray Client.fanOut gray [angle] presets).Ends (Event.Spares s.token) p answer q) :
    (s.detectGray Task.each gray [angle] presets).alone = some answer ∨
      ∃ limit, answer = .error (.late limit) ∧ p.limit = some limit := by
  induction presets generalizing p with
  | nil =>
    obtain ⟨rfl, rfl⟩ := Client.ends_done h
    exact .inl rfl
  | cons preset presets ih =>
    rw [detectGray_cons] at h ⊢
    obtain ⟨result, r, hfan, hrest⟩ := Client.ends_bind h
    change (Task.bind (Task.each s.token [s.look gray (preset.withAngle angle)]) _).alone = _ ∨ _
    rw [Task.alone_bind]
    rcases Client.fanOut_singleton hp quiet_look isSteady_look hfan with
      ⟨halone, hnext⟩ | ⟨limit, rfl, hlimit⟩
    · rw [halone, Option.bind_some]
      rcases result with fault | passes
      · obtain ⟨rfl, -⟩ := Client.ends_done hrest
        exact .inl rfl
      obtain ⟨hgrows, hspares⟩ := hnext passes rfl
      cases hverdict : s.verdict gray (.ok passes) with
      | none =>
        rw [hverdict] at hrest
        rw [← hgrows.limit]
        exact ih hspares hrest
      | some verdict =>
        rw [hverdict] at hrest
        obtain ⟨rfl, -⟩ := Client.ends_done hrest
        exact .inl rfl
    · obtain ⟨rfl, -⟩ := Client.ends_done hrest
      exact .inr ⟨limit, rfl, hlimit⟩

/-- **What a pass comes to alone is what it answers when it is spread over a pool**, unless
the time of a batch runs out. -/
theorem detectTurned_alone {rotation angle : Float} {answer : Pass} {q : Pool Look Pass}
    (hp : p.Spares s.token)
    (h : (s.detectTurned Client.fanOut picture rotation [angle]).Ends
      (Event.Spares s.token) p answer q) :
    s.passAlone picture rotation angle = some answer ∨
      ∃ limit, answer = .error (.late limit) ∧ p.limit = some limit := by
  unfold passAlone
  unfold detectTurned at h ⊢
  dsimp only at h ⊢
  split at h
  next hzero =>
    rw [if_pos hzero]
    exact detectGray_alone hp h
  next hturn =>
    rw [if_neg hturn]
    obtain ⟨pass, r, hpass, hrest⟩ := Client.ends_bind h
    obtain ⟨rfl, -⟩ := Client.ends_done hrest
    change (Task.bind _ _).alone = _ ∨ _
    rw [Task.alone_bind]
    rcases detectGray_alone hp hpass with halone | ⟨limit, rfl, hlimit⟩
    · refine .inl ?_
      change Option.bind (detectGray Task.each s _ [angle] s.presets).alone _ = _
      rw [halone]
      rfl
    · exact .inr ⟨limit, rfl, hlimit⟩

/-- What a pass finds alone, if it succeeds. -/
def foundAlone (s : Survey) (picture : Picture) (rotation angle : Float) : List Detection :=
  match s.passAlone picture rotation angle with
  | some (.ok detections) => detections
  | _ => []

/-- The fault of a pass that fails alone. -/
def failure? (s : Survey) (picture : Picture) (x : Float × Float) : Option Fault :=
  match s.passAlone picture x.1 x.2 with
  | some (.error fault) => some fault
  | _ => none

/-- The answer of the passes done alone, one after the other: what they found, rotation by
rotation and for each rotation angle by angle, or the first failure. -/
def IsSequential (s : Survey) (picture : Picture) : Pass → Prop
  | .ok out => ∃ found : Float → Float → List Detection,
      (∀ rotation ∈ s.rotations, ∀ angle ∈ s.angles,
        s.passAlone picture rotation angle = some (.ok (found rotation angle))) ∧
      out = s.rotations.flatMap fun rotation => s.angles.flatMap (found rotation)
  | .error fault => s.passes.findSome? (s.failure? picture) = some fault

/-- The batch of passes of a survey all around, and what happens from then on. -/
def around (s : Survey) (p : Pool Look Pass) (picture : Picture)
    (events : List (Event Look Pass)) : Call Look Pass :=
  Call.map p s.token (s.passTask picture) s.passes events

theorem mem_passes {rotation angle : Float} :
    (rotation, angle) ∈ s.passes ↔ rotation ∈ s.rotations ∧ angle ∈ s.angles := by
  simp [passes]

/-- A pass that is not crashed by its picture ends with a value, alone. -/
theorem passAlone_isSome (hturn : picture.CanTurn x.1) :
    ∃ pass, s.passAlone picture x.1 x.2 = some pass := by
  have hpass : s.passTask picture x = s.detectTurned Task.each picture x.1 [x.2] := if_pos hturn
  have hquiet : (s.passTask picture x).Quiet := quiet_passTask x
  obtain ⟨log, hends⟩ := hquiet.ends_alone
  have hcases := ends_passTask hturn ⟨[], List.not_mem_nil, hends⟩
  rw [hpass] at hcases
  rcases hcases with heq | ⟨fault, heq, -⟩
  · exact ⟨_, heq⟩
  · exact ⟨_, heq⟩

/-- The value of a pass among others. -/
theorem pass_value {pass : Pass} (h : (s.passTask picture x).Ends log flags (some pass)) :
    s.passAlone picture x.1 x.2 = some pass ∨ s.token ∈ flags ∧ pass = .error .cancelled := by
  have hheeds := heeds_passTask x log flags _ h
  unfold passTask at h hheeds
  split at h
  next hturn =>
    rw [if_pos hturn] at hheeds
    rcases hheeds with halone | ⟨hmem, heq⟩
    · exact .inl halone.symm
    · exact .inr ⟨hmem, Option.some.inj heq⟩
  next => cases Task.ends_crash.1 h

/-- A pass only crashes if its picture cannot be turned. -/
theorem pass_crash (h : (s.passTask picture x).Ends log flags none) : ¬ picture.CanTurn x.1 := by
  intro hturn
  rcases heeds_passTask x log flags _ h with halone | ⟨-, habs⟩
  · obtain ⟨pass, hpass⟩ := passAlone_isSome (s := s) hturn
    have heq : s.passTask picture x = s.detectTurned Task.each picture x.1 [x.2] := if_pos hturn
    rw [heq] at halone
    rw [passAlone, ← halone] at hpass
    cases hpass
  · cases habs

theorem foundAlone_eq {rotation angle : Float} {detections : List Detection}
    (h : s.passAlone picture rotation angle = some (.ok detections)) :
    s.foundAlone picture rotation angle = detections := by
  rw [foundAlone, h]

theorem isSequential_ok {found : List (List Detection)}
    (h : List.Forall₂ (fun x detections =>
      s.passAlone picture x.1 x.2 = some (.ok detections)) s.passes found) :
    s.IsSequential picture (.ok found.flatten) := by
  have hmap : s.passes.map (fun x => s.foundAlone picture x.1 x.2) = found := by
    rw [← List.forall₂_eq_eq_eq, List.forall₂_map_left_iff]
    exact h.imp fun x detections hx => foundAlone_eq hx
  refine ⟨s.foundAlone picture, fun rotation hrotation angle hangle => ?_, ?_⟩
  · obtain ⟨i, hi⟩ := List.getElem?_of_mem (mem_passes.2 ⟨hrotation, hangle⟩)
    obtain ⟨hlt, hget⟩ := List.getElem?_eq_some_iff.1 hi
    have hx := (List.forall₂_iff_get.1 h).2 i hlt (h.length_eq ▸ hlt)
    rw [List.get_eq_getElem, hget] at hx
    rw [foundAlone_eq hx]
    exact hx
  · rw [← hmap, ← List.flatMap_def, passes, List.flatMap_assoc]
    simp only [List.flatMap_map]

theorem isSequential_error {fault : Fault} {before after : List (Float × Float)}
    (hpasses : s.passes = before ++ x :: after)
    (hbefore : ∀ y ∈ before, ∃ detections, s.passAlone picture y.1 y.2 = some (.ok detections))
    (hx : s.passAlone picture x.1 x.2 = some (.error fault)) :
    s.IsSequential picture (.error fault) := by
  have hnone : before.findSome? (s.failure? picture) = none := by
    rw [List.findSome?_eq_none_iff]
    intro y hy
    obtain ⟨detections, heq⟩ := hbefore y hy
    rw [failure?, heq]
  have hsome : s.failure? picture x = some fault := by rw [failure?, hx]
  change s.passes.findSome? (s.failure? picture) = some fault
  rw [hpasses, List.findSome?_append, hnone, Option.none_or, List.findSome?_cons, hsome]

/-- **There is one sequential answer.** -/
theorem isSequential_unique {answer other : Pass} (h : s.IsSequential picture answer)
    (h' : s.IsSequential picture other) : answer = other := by
  -- if all passes succeed, none fails
  have hclash : ∀ {out fault}, s.IsSequential picture (.ok out) →
      ¬ s.IsSequential picture (.error fault) := by
    rintro out fault ⟨found, hfound, -⟩ herror
    obtain ⟨⟨rotation, angle⟩, hmem, hfail⟩ := List.exists_of_findSome?_eq_some herror
    obtain ⟨hrotation, hangle⟩ := mem_passes.1 hmem
    simp only [failure?, hfound rotation hrotation angle hangle] at hfail
    cases hfail
  rcases answer with fault | out
  · rcases other with fault' | out'
    · have h : s.passes.findSome? (s.failure? picture) = some fault := h
      have h' : s.passes.findSome? (s.failure? picture) = some fault' := h'
      rw [h] at h'
      rw [Option.some.inj h']
    · exact absurd h (hclash h')
  · rcases other with fault' | out'
    · exact absurd h' (hclash h)
    · obtain ⟨found, hfound, rfl⟩ := h
      obtain ⟨found', hfound', rfl⟩ := h'
      congr 1
      refine List.flatMap_congr fun rotation hrotation => List.flatMap_congr fun angle hangle => ?_
      have heq := (hfound rotation hrotation angle hangle).symm.trans
        (hfound' rotation hrotation angle hangle)
      exact Except.ok.inj (Option.some.inj heq)

/-- The values of the passes, whatever goes on: each as alone, or cancelled. -/
theorem around_values {passes : List Pass}
    (h : (s.around p picture events).outcome? = some (.ok passes)) :
    List.Forall₂ (fun x pass => s.passAlone picture x.1 x.2 = some pass ∨ pass = .error .cancelled)
      s.passes passes := by
  refine (List.forall₂_map_left_iff.1 (Call.forall₂_of_ok h)).imp fun x pass hx => ?_
  obtain ⟨_, _, -, -, hends⟩ := hx
  exact (pass_value hends).imp_right And.right

/-- An answer with detections is the sequential one. -/
theorem isSequential_of_ok {passes : List Pass} {out : List Detection}
    (h : (s.around p picture events).outcome? = some (.ok passes))
    (hout : Pass.gather passes = .ok out) : s.IsSequential picture (.ok out) := by
  rcases Pass.gather_of_forall₂ (around_values h) with ⟨found, hgather, hfound⟩ |
    ⟨fault, _, _, _, hgather, -⟩
  · rw [hout] at hgather
    rw [Except.ok.inj hgather]
    refine isSequential_ok (hfound.imp fun x detections hx => ?_)
    rcases hx with halone | habs
    · exact halone
    · cases habs
  · rw [hout] at hgather
    cases hgather

/-- What undisturbed passes come to, if their picture can be turned. -/
theorem isSequential_gather {passes : List Pass}
    (h : List.Forall₂ (fun t value => ∃ log, t.EndsSpared s.token log (some value))
      (s.passes.map (s.passTask picture)) passes) :
    s.IsSequential picture (Pass.gather passes) := by
  have halone : List.Forall₂ (fun x pass => s.passAlone picture x.1 x.2 = some pass)
      s.passes passes := by
    refine (List.forall₂_map_left_iff.1 h).imp fun x pass hx => ?_
    obtain ⟨log, flags, hflags, hends⟩ := hx
    exact (pass_value hends).resolve_right fun habs => hflags habs.1
  rcases Pass.gather_of_forall₂ halone with ⟨found, hgather, hfound⟩ |
    ⟨fault, before, x, after, hgather, hpasses, hbefore, hx⟩
  · rw [hgather]
    exact isSequential_ok hfound
  · rw [hgather]
    exact isSequential_error hpasses hbefore hx

/-- A survey all around hands its passes to the pool, and gathers what they come to. -/
theorem ends_detectAround_iff {Allowed : Event Look Pass → Prop} {answer : Pass}
    {q : Pool Look Pass} :
    (s.detectAround Client.fanOut picture).Ends Allowed p answer q ↔
      ∃ events r, (∀ e ∈ events, Allowed e) ∧ (s.around p picture events).outcome? = some r ∧
        answer = r.bind Pass.gather ∧ q = (s.around p picture events).last := by
  constructor
  · intro h
    obtain ⟨r, q', hfan, hrest⟩ := Client.ends_bind h
    obtain ⟨rfl, rfl⟩ := Client.ends_done hrest
    obtain ⟨events, hevents, rfl, hr⟩ := Client.ends_fanOut hfan
    have hlast := Call.last_eq (c := s.around p picture events)
    exact ⟨events, r, hevents, by rw [Call.outcome?, hlast]; exact hr, rfl, hlast.symm⟩
  · rintro ⟨events, r, hevents, hr, rfl, rfl⟩
    rw [Call.outcome?, Call.last_eq] at hr
    rw [Call.last_eq]
    exact .call hevents hr .done

/-- **What a survey all around answers**, in any pool and whatever goes on there. Its
courses are those of one batch of passes. In every course in which detections are answered,
they are those of the passes done alone, in order. If the batch is not called off and its
time does not run out, the answer is the sequential one, of which there is only one, and
every pass has run once; unless the picture cannot be turned by one of the rotations, when
a pass that could not turn it is to blame. And an answer there will be, unless the caller
crashes because the clock cannot tell the end of the batch's time: every sequence of moves
leads to one. -/
theorem detectAround_sequential (s : Survey) (p : Pool Look Pass) (picture : Picture) :
    (∀ Allowed answer q, (s.detectAround Client.fanOut picture).Ends Allowed p answer q ↔
      ∃ events r, (∀ e ∈ events, Allowed e) ∧ (s.around p picture events).outcome? = some r ∧
        answer = r.bind Pass.gather ∧ q = (s.around p picture events).last) ∧
    (∀ events r, let c := s.around p picture events
      let answer := r.bind Pass.gather
      c.outcome? = some r →
        (∀ out, answer = .ok out → s.IsSequential picture (.ok out)) ∧
        (c.Undisturbed → (∀ x ∈ s.passes, picture.CanTurn x.1) →
          s.IsSequential picture answer ∧
          (∀ other, s.IsSequential picture other → other = answer) ∧
          ∀ i < s.passes.length, (∃! m, c.Begins i m) ∧ ∃ pass n, c.Over i (some pass) n) ∧
        (c.Undisturbed → (∃ x ∈ s.passes, ¬ picture.CanTurn x.1) →
          ∃ i x, s.passes[i]? = some x ∧ ¬ picture.CanTurn x.1 ∧ answer = .error (.crashed i))) ∧
    (∀ events, let c := s.around p picture events
      ¬ p.Overruns c.token c.tasks → 0 < p.workers → p.Only Task.Prompt →
        (∀ e ∈ events, e.Only Task.Prompt) → c.last.Settles c.index) := by
  refine ⟨fun Allowed answer q => ends_detectAround_iff, ?_, ?_⟩
  · intro events r c answer hr
    refine ⟨fun out hout => ?_, fun hcalm hturn => ?_, fun hcalm hturn => ?_⟩
    · rcases r with fault | passes
      · have habs : (.error fault : Pass) = .ok out := hout
        cases habs
      · exact isSequential_of_ok hr hout
    · rcases hcalm.outcome hr with ⟨passes, rfl, hpasses, hran⟩ | ⟨i, t, log, -, ht, hends⟩
      · have hsequential := isSequential_gather hpasses
        refine ⟨hsequential, fun other hother => isSequential_unique hother hsequential, ?_⟩
        intro i hi
        have hlen : c.tasks.length = s.passes.length := List.length_map _
        exact hran i (hlen.symm ▸ hi)
      · -- no pass crashes
        obtain ⟨x, hx, rfl⟩ := List.mem_map.1 (List.mem_of_getElem? ht)
        obtain ⟨flags, -, hends⟩ := hends
        exact absurd (hturn x hx) (pass_crash hends)
    · rcases hcalm.outcome hr with ⟨passes, rfl, hpasses, -⟩ | ⟨i, t, log, rfl, ht, hends⟩
      · -- a pass that cannot turn its picture has no value
        obtain ⟨x, hx, hstuck⟩ := hturn
        obtain ⟨i, hi⟩ := List.getElem?_of_mem hx
        obtain ⟨hlt, hget⟩ := List.getElem?_eq_some_iff.1 hi
        have hpasses := List.forall₂_map_left_iff.1 hpasses
        obtain ⟨log, flags, -, hends⟩ :=
          (List.forall₂_iff_get.1 hpasses).2 i hlt (hpasses.length_eq ▸ hlt)
        rw [List.get_eq_getElem, hget, passTask, if_neg hstuck] at hends
        cases Task.ends_crash.1 hends
      · obtain ⟨x, hx, rfl⟩ : ∃ x, s.passes[i]? = some x ∧ s.passTask picture x = t := by
          simpa [c, around, Call.map] using ht
        obtain ⟨flags, -, hends⟩ := hends
        exact ⟨i, x, hx, pass_crash hends, rfl⟩
  · intro events c htime hw hp he
    refine Call.settles_last htime hw (Call.prompt_last hp (fun x _ => ?_) he)
    exact (quiet_passTask x).prompt

/-- All moves of a task of the first batch that takes `n` steps. -/
def walk (i n : Nat) : List Move :=
  .start 0 i :: List.replicate n (.advance 0 i) ++ [Move.send 0 i]

/-- A course of two passes, the second of which is over first. -/
def crossed (first second : Nat) : List (Event Look Pass) :=
  (walk 1 second ++ walk 0 first ++ [Move.receive 0, Move.receive 0]).map .move

/-- A survey of passes under one preset. -/
def brief (detector : Detector) (rotations angles : List Float) : Survey where
  detector := detector
  presets := Scan.presets.take 1
  rotations := rotations
  angles := angles
  minQuality := 0.0
  token := 0
  instruments := .machine

theorem undisturbed_crossed (detector : Detector) (rotations angles : List Float)
    (picture : Picture) (first second : Nat) :
    ((brief detector rotations angles).around (Pool.idle 2 none .horizon) picture
      (crossed first second)).Undisturbed := by
  refine Call.undisturbed_of_moves (Pool.spares_idle 2 none .horizon)
    (fun t ht => (quiet_passTasks ht).spares _) rfl fun m hm => ?_
  simp only [walk, List.mem_append, List.mem_cons, List.mem_replicate, List.not_mem_nil,
    or_false] at hm
  rcases hm with (((rfl | ⟨-, rfl⟩) | rfl) | (rfl | ⟨-, rfl⟩) | rfl) | rfl | rfl <;> trivial

/-- Its detector finds something, but crashes when it looks under the angle 1. -/
def crashUnderOne : Survey :=
  brief (fun _ scan => if scan.angle == 1.0 then ⟨0, none⟩ else
    .found [{ spot := ⟨0, 0⟩, scale := 3, quality := 4.0 }]) [0.0] [0.0, 1.0]

theorem detectAround_sequential_crossed :
    let picture := Picture.clear ⟨1, 1⟩
    let c := crashUnderOne.around (Pool.idle 2 none .horizon) picture (crossed 5 5)
    c.outcome? = some (.ok [.ok [{ spot := ⟨0, 0⟩, scale := 3, quality := 4.0 }],
      .error (.crashed 0)]) ∧
    c.Undisturbed ∧ crashUnderOne.IsSequential picture (.error (.crashed 0)) ∧
    ∃! m, c.Begins 1 m := by
  intro picture c
  have hout : c.outcome? = some (.ok [.ok [{ spot := ⟨0, 0⟩, scale := 3, quality := 4.0 }],
      .error (.crashed 0)]) := by decide +kernel
  have hcalm : c.Undisturbed := undisturbed_crossed ..
  have hturn : ∀ x ∈ crashUnderOne.passes, picture.CanTurn x.1 := fun _ _ => .inl (by decide)
  obtain ⟨-, hanswer, -⟩ :=
    detectAround_sequential crashUnderOne (Pool.idle 2 none .horizon) picture
  obtain ⟨-, hcalmly, -⟩ := hanswer (crossed 5 5) _ hout
  obtain ⟨hsequential, -, hran⟩ := hcalmly hcalm hturn
  obtain ⟨hbegins, -⟩ := hran 1 (by decide)
  exact ⟨hout, hcalm, hsequential, hbegins⟩

/-- Its detector crashes at every look. -/
def alwaysCrashing : Survey :=
  brief (fun _ _ => ⟨0, none⟩) [0.0, 45.0] [0.0]

/-- A pass that cannot turn its picture ends the survey with a crash of its own, even if a
pass before it has failed: the answer is not the sequential one then. -/
theorem not_isSequential_empty :
    ¬ ∀ (s : Survey) (p : Pool Look Pass) (picture : Picture) (events : List (Event Look Pass))
      (r : Except Fault (List Pass)), (s.around p picture events).Undisturbed →
        (s.around p picture events).outcome? = some r →
        s.IsSequential picture (r.bind Pass.gather) := by
  intro hall
  let picture := Picture.clear ⟨0, 0⟩
  have hout : (alwaysCrashing.around (Pool.idle 2 none .horizon) picture
      (crossed 5 1)).outcome? = some (.error (.crashed 1)) := by decide +kernel
  have hfirst : alwaysCrashing.passes.findSome? (alwaysCrashing.failure? picture) =
      some (.crashed 0) := by decide +kernel
  have hanswer : alwaysCrashing.passes.findSome? (alwaysCrashing.failure? picture) =
      some (.crashed 1) :=
    hall alwaysCrashing _ picture _ _ (undisturbed_crossed ..) hout
  rw [hfirst] at hanswer
  cases hanswer

end Survey

end Reframe
