import Reframe.Proofs.Pool.Calls
import Reframe.Proofs.Pool.Nested
import Reframe.Proofs.Survey.Around

/-!
# Presets in turn

A survey tries its presets one after the other, and stops at the first one under which
something is kept. If the detector does not crash, and whatever goes on in the pool, a
survey makes one call for each preset that it tries, in their order and none for a later
one, and hands out one look for each angle. If it answers detections, then those are what is
kept under the last preset that it tried, and every look of every call was done exactly once.

* `Survey.tried`: the presets up to the first one under which something is kept.
* `Survey.Tries`, `Survey.Completes`: the call for a preset.
* `Survey.makes_detectGray`: the calls of a survey.
* `Survey.detect_inTurn`: **what a survey answers and which looks it does.**
-/

namespace Reframe.Survey

variable {s : Survey} {gray : Gray} {angles : List Float} {preset : Scan} {presets : List Scan}
  {c : Call Look Pass} {p q : Pool Look Pass} {calls : List (Call Look Pass)} {answer : Pass}
  {j n : Nat} {angle : Float}

/-- The place of the first preset under which something is kept. -/
def hit (s : Survey) (gray : Gray) (angles : List Float) (presets : List Scan) : Nat :=
  presets.findIdx fun preset => !(s.kept gray angles preset).isEmpty

/-- The presets that are tried: up to the first one under which something is kept, or all. -/
def tried (s : Survey) (gray : Gray) (angles : List Float) (presets : List Scan) : List Scan :=
  presets.take (s.hit gray angles presets + 1)

theorem hit_cons_of_nil (h : s.kept gray angles preset = []) :
    s.hit gray angles (preset :: presets) = s.hit gray angles presets + 1 := by
  simp [hit, List.findIdx_cons, h]

theorem hit_cons_of_ne (h : s.kept gray angles preset ≠ []) :
    s.hit gray angles (preset :: presets) = 0 := by
  have hkept : (s.kept gray angles preset).isEmpty = false := List.isEmpty_eq_false_iff.2 h
  rw [hit, List.findIdx_cons, hkept]
  rfl

theorem tried_cons_of_nil (h : s.kept gray angles preset = []) :
    s.tried gray angles (preset :: presets) = preset :: s.tried gray angles presets := by
  rw [tried, hit_cons_of_nil h, List.take_succ_cons, tried]

theorem tried_cons_of_ne (h : s.kept gray angles preset ≠ []) :
    s.tried gray angles (preset :: presets) = [preset] := by
  rw [tried, hit_cons_of_ne h, Nat.zero_add, List.take_succ_cons, List.take_zero]

/-- **What a plain look finds** is what is kept under the first preset that has anything. -/
theorem found_eq_hit (s : Survey) (gray : Gray) (angles : List Float) (presets : List Scan) :
    s.found gray angles presets =
      (presets[s.hit gray angles presets]?.map (s.kept gray angles)).getD [] := by
  induction presets with
  | nil => rfl
  | cons preset presets ih =>
    cases hkept : s.kept gray angles preset with
    | nil => rw [found_cons_of_nil hkept, hit_cons_of_nil hkept, List.getElem?_cons_succ, ih]
    | cons d ds =>
      have hne : s.kept gray angles preset ≠ [] := by simp [hkept]
      rw [found_cons_of_cons hkept, hit_cons_of_ne hne, List.getElem?_cons_zero, Option.map_some,
        Option.getD_some, hkept]

theorem looks_look (gray : Gray) (scan : Scan) : (s.look gray scan).Looks [] := by
  unfold look
  extract_lets reply
  cases reply.report <;> trivial

theorem trace_look (gray : Gray) (scan : Scan) : (s.look gray scan).trace = [⟨gray, scan⟩] := by
  unfold look
  extract_lets reply
  cases reply.report <;> rfl

/-- The call for a preset: it hands out one look for each angle. -/
structure Tries (s : Survey) (gray : Gray) (angles : List Float) (preset : Scan)
    (c : Call Look Pass) : Prop where
  token : c.token = s.token
  tasks : c.tasks = angles.map fun angle => s.look gray (preset.withAngle angle)

/-- A call for a preset of which every look is done: it begins once, and the detector is
called once for it. -/
structure Completes (s : Survey) (gray : Gray) (angles : List Float) (preset : Scan)
    (c : Call Look Pass) : Prop extends s.Tries gray angles preset c where
  begins : ∀ j < angles.length, ∃! m, c.Begins j m
  once : ∀ j angle, angles[j]? = some angle →
    c.notesOf j c.events.length = [⟨gray, preset.withAngle angle⟩]

theorem Tries.task (h : s.Tries gray angles preset c) (hj : angles[j]? = some angle) :
    c.tasks[j]? = some (s.look gray (preset.withAngle angle)) := by
  rw [h.tasks, List.getElem?_map, hj, Option.map_some]

theorem Tries.follows (h : s.Tries gray angles preset c) (n : Nat) : c.Follows [] n := by
  refine Call.reaches (fun t ht => ?_) (fun _ _ habs => absurd habs List.not_mem_nil) n
  rw [h.tasks] at ht
  obtain ⟨angle, -, rfl⟩ := List.mem_map.1 ht
  exact looks_look gray _

/-- **For no angle is the detector called twice**, whatever goes on. -/
theorem Tries.atMostOnce (h : s.Tries gray angles preset c) (hj : angles[j]? = some angle)
    (n : Nat) : c.notesOf j n <+: [⟨gray, preset.withAngle angle⟩] := by
  rw [← trace_look (s := s)]
  exact Call.notesOf_isPrefix (h.follows n) (h.task hj)

/-- A call that comes to values is complete, and they are what the detector reports. -/
theorem Tries.completes {passes : List Pass} (h : s.Tries gray angles preset c)
    (hout : c.outcome? = some (.ok passes)) :
    s.Completes gray angles preset c ∧
      passes = (angles.map preset.withAngle).map fun scan => .ok (s.reported gray scan) := by
  have hlooks : c.tasks = (angles.map preset.withAngle).map (s.look gray) :=
    h.tasks.trans (looks_eq_map gray angles preset)
  have hpasses := Call.forall₂_of_ok hout
  obtain ⟨hlen, hvalues⟩ := Call.explained hout
  rw [h.tasks, List.length_map] at hlen
  -- every look is over at some moment
  have hover : ∀ j < angles.length, ∃ pass m, c.Over j (some pass) m := by
    intro j hj
    obtain ⟨m, hm⟩ := hvalues j passes[j] (List.getElem?_eq_getElem (hlen ▸ hj))
    exact ⟨_, m, hm⟩
  refine ⟨⟨h, fun j hj => ?_, fun j angle hj => ?_⟩, ?_⟩
  · obtain ⟨pass, m, hm⟩ := hover j hj
    exact hm.begins_ends.1
  · obtain ⟨pass, m, hm⟩ := hover j (List.getElem?_eq_some_iff.1 hj).1
    obtain ⟨t, ht, -, hnotes⟩ := Call.over_stays h.follows hm
    obtain rfl := Option.some.inj (ht.symm.trans (h.task hj))
    rw [← trace_look (s := s)]
    exact hnotes _ (Nat.le_of_lt (Call.over_lt hout hm))
  · rw [hlooks] at hpasses
    refine looks_ok (hpasses.imp fun t pass ht => ?_)
    obtain ⟨i, n, -, -, hends⟩ := ht
    exact ⟨_, _, hends⟩

/-- A look crashes only with the detector. -/
theorem Tries.not_over_none {j m : Nat}
    (hdetector : ∀ scan, (s.detector gray scan).report.isSome)
    (h : s.Tries gray angles preset c) : ¬ c.Over j none m := by
  intro hover
  obtain ⟨-, t, ht, hends⟩ := hover.begins_ends
  rw [h.tasks] at ht
  obtain ⟨angle, -, rfl⟩ := List.mem_map.1 (List.mem_of_getElem? ht)
  obtain ⟨-, hcrash⟩ := ends_look.1 hends
  have hreport := hdetector (preset.withAngle angle)
  rw [Option.map_eq_none_iff.1 hcrash.symm] at hreport
  cases hreport

/-- A call for a preset fails only when it is called off or late, if the detector does not
crash. -/
theorem Tries.fault {fault : Fault} (hdetector : ∀ scan, (s.detector gray scan).report.isSome)
    (h : s.Tries gray angles preset c) (hout : c.outcome? = some (.error fault)) :
    (fault = .cancelled ∨ ∃ limit, fault = .late limit ∧ c.pool.limit = some limit) ∧
      ¬ c.Undisturbed := by
  constructor
  · rcases Call.fault_cases hout with ⟨_, _, -, hover⟩ | ⟨heq, -⟩ | ⟨limit, heq, hlimit, -⟩
    · exact absurd hover (h.not_over_none hdetector)
    · exact .inl heq
    · exact .inr ⟨limit, heq, hlimit⟩
  · intro hcalm
    obtain ⟨_, _, -, hover⟩ := hcalm.exists_crash hout
    exact h.not_over_none hdetector hover

/-- **The calls of a survey** whose detector does not crash. Either all presets that are
tried have a complete call, and what is found is answered; or a call, of which there are no
more than that, was called off or late. -/
theorem makes_detectGray (hdetector : ∀ scan, (s.detector gray scan).report.isSome)
    (h : (s.detectGray Client.fanOut gray angles presets).Makes p calls answer q) :
    (answer = .ok (s.found gray angles presets) ∧
      List.Forall₂ (s.Completes gray angles) (s.tried gray angles presets) calls) ∨
    ((answer = .error .cancelled ∨
        ∃ limit, answer = .error (.late limit) ∧ p.limit = some limit) ∧
      (∃ begun, begun <+: s.tried gray angles presets ∧
        List.Forall₂ (s.Tries gray angles) begun calls) ∧
      ∃ c ∈ calls, ¬ c.Undisturbed) := by
  induction presets generalizing p calls with
  | nil =>
    obtain ⟨rfl, rfl, -⟩ := Client.makes_done h
    exact .inl ⟨rfl, .nil⟩
  | cons preset presets ih =>
    rw [detectGray_cons] at h
    obtain ⟨c, rest, result, rfl, rfl, htoken, htasks, hout, hrest⟩ := Client.makes_fanOut_bind h
    have htries : s.Tries gray angles preset c := ⟨htoken, htasks⟩
    rcases result with fault | passes
    · -- the call has failed, and that is the answer
      obtain ⟨rfl, rfl, -⟩ := Client.makes_done hrest
      obtain ⟨hfault, hdisturbed⟩ := htries.fault hdetector hout
      refine .inr ⟨?_, ⟨[preset], ?_, .cons htries .nil⟩, c, List.mem_cons_self, hdisturbed⟩
      · rcases hfault with rfl | ⟨limit, rfl, hlimit⟩
        · exact .inl rfl
        · exact .inr ⟨limit, rfl, hlimit⟩
      · exact ⟨_, rfl⟩
    obtain ⟨hcompletes, rfl⟩ := htries.completes hout
    cases hkept : s.kept gray angles preset with
    | nil =>
      rw [verdict_of_nil hkept] at hrest
      rw [found_cons_of_nil hkept, tried_cons_of_nil hkept]
      have hlimit : c.last.limit = c.pool.limit := (c.grows_pool _).limit
      rcases ih hrest with ⟨rfl, hcalls⟩ | ⟨hanswer, ⟨begun, hbegun, hcalls⟩, c', hc', hdisturbed⟩
      · exact .inl ⟨rfl, .cons hcompletes hcalls⟩
      · rw [hlimit] at hanswer
        refine .inr ⟨hanswer, ⟨preset :: begun, ?_, .cons htries hcalls⟩, c',
          List.mem_cons_of_mem c hc', hdisturbed⟩
        exact List.cons_prefix_cons.2 ⟨rfl, hbegun⟩
    | cons d ds =>
      have hne : s.kept gray angles preset ≠ [] := by simp [hkept]
      rw [verdict_of_cons hkept] at hrest
      rw [found_cons_of_cons hkept, tried_cons_of_ne hne]
      obtain ⟨rfl, rfl, -⟩ := Client.makes_done hrest
      exact .inl ⟨rfl, .cons hcompletes .nil⟩

/-- The looks under a preset, one for each angle. -/
def looksUnder (gray : Gray) (angles : List Float) (preset : Scan) : List Look :=
  angles.map fun angle => ⟨gray, preset.withAngle angle⟩

/-- Looks done on the spot, by a detector that does not crash. -/
theorem each_looks (hdetector : ∀ scan, (s.detector gray scan).report.isSome)
    (scans : List Scan) :
    (Task.each s.token (scans.map (s.look gray))).alone =
      some (.ok (scans.map fun scan => .ok (s.reported gray scan))) ∧
    (Task.each s.token (scans.map (s.look gray))).trace = scans.map (Look.mk gray) := by
  have halone : (scans.map (s.look gray)).map Task.alone =
      (scans.map fun scan => (.ok (s.reported gray scan) : Pass)).map some := by
    rw [List.map_map, List.map_map]
    refine List.map_congr_left fun scan _ => ?_
    obtain ⟨detections, hreport⟩ := Option.isSome_iff_exists.1 (hdetector scan)
    simp only [Function.comp_apply, alone_look, reported, hreport, Option.map_some,
      Option.getD_some]
  have htrace : (scans.map (s.look gray)).map Task.trace =
      (scans.map (Look.mk gray)).map ([·]) := by
    rw [List.map_map, List.map_map]
    exact List.map_congr_left fun scan _ => trace_look gray scan
  refine ⟨?_, ?_⟩
  · rw [Task.alone_each, halone, Task.inTurn_map_some]
  · have hall : (scans.map (Look.mk gray)).length = scans.length := List.length_map _
    rw [Task.trace_each, halone, htrace, Task.turns_map_some, List.length_map, ← hall,
      ← List.length_map (f := ([·])), List.take_length, ← List.flatMap_def,
      List.flatMap_singleton']

/-- **Presets in turn, on the spot**: what is found, and the looks on the way. -/
theorem detectGray_inTurn (hdetector : ∀ scan, (s.detector gray scan).report.isSome)
    (angles : List Float) (presets : List Scan) :
    (s.detectGray Task.each gray angles presets).alone =
      some (.ok (s.found gray angles presets)) ∧
    (s.detectGray Task.each gray angles presets).trace =
      (s.tried gray angles presets).flatMap (looksUnder gray angles) := by
  induction presets with
  | nil => exact ⟨rfl, rfl⟩
  | cons preset presets ih =>
    have hunder : (angles.map preset.withAngle).map (Look.mk gray) =
        looksUnder gray angles preset := by
      rw [List.map_map]
      rfl
    obtain ⟨halone, htrace⟩ := each_looks hdetector (angles.map preset.withAngle)
    rw [detectGray_cons, looks_eq_map]
    change (Task.bind _ _).alone = _ ∧ (Task.bind _ _).trace = _
    rw [Task.alone_bind, Task.trace_bind, halone, htrace, hunder]
    simp only [Option.bind_some, Option.map_some, Option.getD_some]
    cases hkept : s.kept gray angles preset with
    | nil =>
      rw [verdict_of_nil hkept, found_cons_of_nil hkept, tried_cons_of_nil hkept,
        List.flatMap_cons]
      exact ⟨ih.1, congrArg _ ih.2⟩
    | cons d ds =>
      have hne : s.kept gray angles preset ≠ [] := by simp [hkept]
      rw [verdict_of_cons hkept, found_cons_of_cons hkept, tried_cons_of_ne hne,
        List.flatMap_singleton]
      exact ⟨rfl, List.append_nil _⟩

/-- **Which looks a survey does and what it answers**, if the detector does not crash on the
picture. In every pool, whatever goes on there: the presets are tried in turn, with one call
for each, in which no look calls the detector twice; there is none for a preset behind the
first one under which something is kept. If the batches are not called off and their time does
not run out, the answer is what is kept under that preset, or nothing if there is none;
otherwise it is that or a fault. With an answer every look of every preset up to that one has
called the detector once. An answer there will be, unless the time of a batch would end after
the last time that the pool's clock can tell, where the caller crashes. And on the spot, as a
task of its own, the survey does the same looks in the same order, or ends cancelled. -/
theorem detect_inTurn (s : Survey) {picture : Picture}
    (hdetector : ∀ scan, (s.detector picture.toGray scan).report.isSome) (angles : List Float) :
    let gray := picture.toGray
    let scanned := if angles.isEmpty then [0.0] else angles
    let k := s.hit gray scanned s.presets
    let detections := (s.presets[k]?.map (s.kept gray scanned)).getD []
    let tried := s.presets.take (k + 1)
    (∀ p calls answer q, (s.detect Client.fanOut picture angles).Makes p calls answer q →
      ((∀ c ∈ calls, c.Undisturbed) → answer = .ok detections) ∧
      (answer = .ok detections ∨ answer = .error .cancelled ∨
        ∃ limit, answer = .error (.late limit) ∧ p.limit = some limit) ∧
      (∀ out, answer = .ok out → List.Forall₂ (s.Completes gray scanned) tried calls) ∧
      ∃ begun, begun <+: tried ∧ List.Forall₂ (fun preset c => s.Tries gray scanned preset c ∧
        ∀ j angle n, scanned[j]? = some angle →
          c.notesOf j n <+: [⟨gray, preset.withAngle angle⟩]) begun calls) ∧
    (∀ p, 0 < p.workers → p.Only Task.Prompt →
      (s.detect Client.fanOut picture angles).Halts p) ∧
    (∀ Allowed p q, (s.detect Client.fanOut picture angles).Crashes Allowed p q →
      ∃ limit, p.limit = some limit ∧ p.horizon < q.clock + limit) ∧
    (s.detect Task.each picture angles).alone = some (.ok detections) ∧
    (s.detect Task.each picture angles).trace = tried.flatMap (looksUnder gray scanned) ∧
    (s.detect Task.each picture angles).Heeds s.token := by
  intro gray scanned k detections tried
  have hfound : s.found gray scanned s.presets = detections := s.found_eq_hit gray scanned s.presets
  refine ⟨fun p calls answer q h => ?_, fun p hworkers hp => ?_,
    fun _ _ _ hcrash => hcrash.limit, ?_⟩
  · have hatMostOnce : ∀ preset c, s.Tries gray scanned preset c → s.Tries gray scanned preset c ∧
        ∀ j angle n, scanned[j]? = some angle →
          c.notesOf j n <+: [⟨gray, preset.withAngle angle⟩] :=
      fun preset c hc => ⟨hc, fun j angle n hj => hc.atMostOnce hj n⟩
    rcases makes_detectGray hdetector h with ⟨rfl, hcalls⟩ |
      ⟨hanswer, ⟨begun, hbegun, hcalls⟩, c, hc, hdisturbed⟩
    · rw [hfound]
      refine ⟨fun _ => rfl, .inl rfl, fun _ _ => hcalls, tried, List.prefix_rfl, ?_⟩
      exact hcalls.imp fun preset c hc => hatMostOnce preset c hc.toTries
    · refine ⟨fun hcalm => absurd (hcalm c hc) hdisturbed, .inr hanswer, ?_, begun, hbegun, ?_⟩
      · rintro out rfl
        rcases hanswer with habs | ⟨_, habs, -⟩ <;> cases habs
      · exact hcalls.imp hatMostOnce
  · exact Client.halts hworkers hp ((only_detectGray _ _ _).imp fun _ ht => ht.prompt)
  · obtain ⟨halone, htrace⟩ := detectGray_inTurn hdetector scanned s.presets
    rw [hfound] at halone
    exact ⟨halone, htrace, heeds_detectGray _ _ _⟩

/-- Its detector reports something usable under the second preset only. -/
def secondOnly : Survey where
  detector := fun _ scan => .found
    [{ spot := ⟨0, 0⟩, scale := if scan.minSize = 30 then 3 else -3, quality := 4.0 }]
  presets := Scan.presets
  rotations := [0.0]
  angles := [0.0]
  minQuality := 0.0
  token := 0
  instruments := .machine

theorem detect_inTurn_secondOnly :
    let picture := Picture.clear ⟨1, 1⟩
    ∃ calls q, (secondOnly.detect Client.fanOut picture []).Makes (Pool.idle 2 none .horizon)
      calls (.ok [{ spot := ⟨0, 0⟩, scale := 3, quality := 4.0 }]) q ∧ calls.length = 2 ∧
    List.Forall₂ (secondOnly.Completes picture.toGray [0.0]) (Scan.presets.take 2) calls := by
  intro picture
  have hrun : ((secondOnly.detect Client.fanOut picture []).run
      (Pool.idle 2 none .horizon)).map Prod.fst =
      some (.ok [{ spot := ⟨0, 0⟩, scale := 3, quality := 4.0 }]) := by decide +kernel
  have hhit : secondOnly.hit picture.toGray [0.0] Scan.presets = 1 := by decide +kernel
  obtain ⟨⟨_, q⟩, hq, rfl⟩ := Option.map_eq_some_iff.1 hrun
  obtain ⟨calls, hcalls, -⟩ := Client.ends_iff_makes.1 (Client.ends_of_run hq)
  obtain ⟨hcourses, -⟩ := detect_inTurn secondOnly (fun _ => rfl) []
  obtain ⟨-, -, hcompletes, -⟩ := hcourses _ _ _ _ hcalls
  have hlooks : List.Forall₂ (secondOnly.Completes picture.toGray [0.0])
      (Scan.presets.take (secondOnly.hit picture.toGray [0.0] Scan.presets + 1)) calls :=
    hcompletes _ rfl
  rw [hhit] at hlooks
  exact ⟨calls, q, hcalls, hlooks.length_eq.symm, hlooks⟩

end Reframe.Survey
