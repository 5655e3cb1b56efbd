import Reframe.Proofs.Pool.Spared
import Reframe.Proofs.Survey.Found

/-!
# Surveys in a pool

A survey spreads its scans over a pool, or does them on the spot when it is itself a
task. Under a spared token both ways bring back every scan's report, unless the
detector crashes at one of their own looks or, in the pool, the time of a batch is over.

* `Survey.spreads_each`, `Survey.spreads_fanOut`: the two ways to spread scans.
* `Survey.comes_detectAround`: a survey all around finds what plain looks find.
-/

namespace Reframe

variable {ν ρ : Type}

/-- A batch under a token that is spared since an earlier pool makes one call, and comes to
the values of all tasks, the crash of one, or the end of the time, as that call bears out. -/
theorem Client.fanOut_cases {token : Token} {tasks : List (Task ν ρ)} {p r q : Pool ν ρ}
    {calls : List (Call ν ρ)} {result : Except Fault (List ρ)} (hgrows : p.Grows r)
    (hr : r.Spares token) (ht : ∀ t ∈ tasks, t.Quiet)
    (h : (fanOut token tasks).Makes r calls result q)
    (hallowed : ∀ call ∈ calls, ∀ e ∈ call.events, e.Spares token) :
    p.Grows q ∧ ∃ c, calls = [c] ∧
      ((∃ values, result = .ok values ∧ q.Spares token ∧ List.Forall₂ (fun t value =>
        ∃ i, t.EndsSpared token (c.notesOf i c.events.length) (some value)) tasks values) ∨
      (∃ i t, result = .error (.crashed i) ∧ tasks[i]? = some t ∧
        t.EndsSpared token (c.notesOf i c.events.length) none) ∨
      ∃ limit, result = .error (.late limit) ∧ p.limit = some limit ∧
        p.clock + limit ≤ q.clock ∧ ∃ n, c.Expires n) := by
  obtain ⟨c, rfl, rfl, rfl, rfl, hout, rfl⟩ := makes_fanOut h
  have hevents : ∀ e ∈ c.events, e.Spares c.token := hallowed c (List.mem_singleton.2 rfl)
  have hspared : c.IsSpared := ⟨hr, fun t hmem => (ht t hmem).spares c.token, hevents⟩
  have hlater : c.pool.Grows c.last := c.grows_pool _
  refine ⟨hgrows.trans hlater, c, rfl, ?_⟩
  rcases hspared.outcome hout with hvalues | hcrash | ⟨limit, rfl, hlimit, hclock, hexpires⟩
  · exact .inl hvalues
  · exact .inr (.inl hcrash)
  · refine .inr (.inr ⟨limit, rfl, hgrows.limit.symm.trans hlimit, ?_, hexpires⟩)
    exact Nat.le_trans (Nat.add_le_add_right hgrows.clock limit.nanos) hclock

namespace Survey

variable {s : Survey} {gray : Gray} {scan : Scan} {scans : List Scan} {picture : Picture}
  {log : List Look} {flags : List Token} {token : Token} {p : Pool Look Pass}

theorem quiet_look : (s.look gray scan).Quiet := by
  unfold look
  extract_lets reply
  cases reply.report <;> trivial

theorem quiet_looks {t : Task Look Pass} (h : t ∈ scans.map (s.look gray)) : t.Quiet := by
  obtain ⟨scan, -, rfl⟩ := List.mem_map.1 h
  exact quiet_look

/-- A look is noted and ends with what the detector reports. -/
theorem ends_look {o : Option Pass} :
    (s.look gray scan).Ends log flags o ↔
      ⟨gray, scan⟩ ∈ log ∧ o = (s.detector gray scan).report.map .ok := by
  unfold look
  extract_lets reply
  rw [Task.ends_note, Task.ends_sleep]
  cases hreport : reply.report with
  | none => rw [Task.ends_crash]; rfl
  | some detections => rw [Task.ends_done]; rfl

theorem look_ok {value : Pass} (h : (s.look gray scan).Ends log flags (some value)) :
    value = .ok (s.reported gray scan) := by
  obtain ⟨-, heq⟩ := ends_look.1 h
  obtain ⟨detections, hreport, rfl⟩ := Option.map_eq_some_iff.1 heq.symm
  rw [reported, hreport]
  rfl

theorem look_crash (h : (s.look gray scan).EndsSpared token log none) : s.HasCrashed log := by
  obtain ⟨flags, -, hends⟩ := h
  obtain ⟨hmem, heq⟩ := ends_look.1 hends
  exact ⟨⟨gray, scan⟩, hmem, Option.map_eq_none_iff.1 heq.symm⟩

/-- Looks that all end report in their places. -/
theorem looks_ok {values : List Pass} (h : List.Forall₂ (fun t value =>
    ∃ log flags, t.Ends log flags (some value)) (scans.map (s.look gray)) values) :
    values = scans.map fun scan => .ok (s.reported gray scan) := by
  induction scans generalizing values with
  | nil =>
    cases h
    rfl
  | cons scan scans ih =>
    rw [List.map_cons] at h
    cases h with
    | cons hlook hrest =>
      obtain ⟨log, flags, hlook⟩ := hlook
      rw [List.map_cons, look_ok hlook, ih hrest]

theorem looks_crash {t : Task Look Pass} (ht : t ∈ scans.map (s.look gray))
    (h : t.EndsSpared token log none) : s.HasCrashed log := by
  obtain ⟨scan, -, rfl⟩ := List.mem_map.1 ht
  exact look_crash h

/-- A task of the survey failed because the detector crashed at some look. -/
def Crashed (s : Survey) (log : List Look) (fault : Fault) : Prop :=
  (∃ i, fault = .crashed i) ∧ s.HasCrashed log

/-- **Scans done on the spot** under a token that is not set. -/
theorem spreads_each (log : List Look) (hflags : s.token ∉ flags) :
    Spreads (Task.semantics log flags) (fun _ => True) (fun _ => s.Crashed log) Task.each s := by
  intro gray scans _ o _ _ h
  obtain ⟨result, rfl, hresult⟩ := Task.ends_each h
  rcases result with fault | values
  · refine .inr ⟨fault, rfl, ?_⟩
    cases fault with
    | lost reason => exact hresult.elim
    | late limit => exact hresult.elim
    | cancelled => exact absurd hresult hflags
    | crashed i =>
      obtain ⟨k, t, -, ht, hends⟩ := hresult
      exact ⟨⟨i, rfl⟩, looks_crash (List.mem_of_getElem? ht) ⟨flags, hflags, hends⟩⟩
  · have hvalues : List.Forall₂ _ (scans.map (s.look gray)) values := hresult
    have hlooks := looks_ok (hvalues.imp fun t value hends => ⟨log, flags, hends⟩)
    exact .inl ⟨by rw [hlooks], trivial⟩

/-- The token is still spared, since an earlier pool. -/
def Untouched (s : Survey) (p : Pool Look Pass) (r : Pool Look Pass × List (Call Look Pass)) :
    Prop :=
  p.Grows r.1 ∧ r.1.Spares s.token

/-- The fault is the detector's crash at a look of one of the calls' own tasks, or the end of
the time of one of the calls, which really passed. -/
def Blames (s : Survey) (p : Pool Look Pass) (q : Pool Look Pass × List (Call Look Pass))
    (fault : Fault) : Prop :=
  (∃ call ∈ q.2, ∃ i, s.Crashed (call.notesOf i call.events.length) fault) ∨
    ∃ limit, fault = .late limit ∧ p.limit = some limit ∧ p.clock + limit ≤ q.1.clock ∧
      ∃ call ∈ q.2, ∃ n, call.Expires n

/-- If the detector never crashes, only time is to blame. -/
theorem Blames.late {q : Pool Look Pass × List (Call Look Pass)} {fault : Fault}
    (h : s.Blames p q fault) (hcalm : ∀ gray scan, (s.detector gray scan).report.isSome) :
    ∃ limit, fault = .late limit ∧ p.limit = some limit ∧ p.clock + limit ≤ q.1.clock ∧
      ∃ call ∈ q.2, ∃ n, call.Expires n := by
  rcases h with ⟨_, -, _, -, look, -, hcrash⟩ | hlate
  · have hsome := hcalm look.gray look.scan
    rw [hcrash] at hsome
    cases hsome
  · exact hlate

/-- **Scans spread over a pool** that spares the token. -/
theorem spreads_fanOut (p : Pool Look Pass) :
    Spreads (Client.semantics (Event.Spares s.token)) (s.Untouched p) (s.Blames p)
      Client.fanOut s := by
  rintro gray scans ⟨r, before⟩ o ⟨q, after⟩ hr ⟨result, calls, rfl, hcalls, rfl, hallowed⟩
  obtain ⟨hgrows, c, rfl, ⟨values, rfl, hspares, hvalues⟩ | ⟨i, t, rfl, ht, hcrash⟩ |
    ⟨limit, rfl, hlimit, hclock, hexpires⟩⟩ :=
    Client.fanOut_cases hr.1 hr.2 (fun _ => quiet_looks) hcalls hallowed
  · have hvalued : List.Forall₂ (fun t value => ∃ log flags, t.Ends log flags (some value))
        (scans.map (s.look gray)) values := by
      refine hvalues.imp fun t value ht => ?_
      obtain ⟨i, flags, _, hends⟩ := ht
      exact ⟨_, flags, hends⟩
    have hlooks := looks_ok hvalued
    exact .inl ⟨by rw [hlooks], hgrows, hspares⟩
  · have hcrashed := looks_crash (List.mem_of_getElem? ht) hcrash
    exact .inr ⟨_, rfl, .inl ⟨c, List.mem_concat_self, i, ⟨i, rfl⟩, hcrashed⟩⟩
  · exact .inr ⟨_, rfl, .inr ⟨limit, rfl, hlimit, hclock, c, List.mem_concat_self, hexpires⟩⟩

/-- A pass as a task: it finds what a plain look finds, or fails because the detector
crashed. -/
theorem ends_passTask {x : Float × Float} {o : Option Pass} (hturn : picture.CanTurn x.1)
    (h : (s.passTask picture x).EndsSpared s.token log o) :
    o = some (.ok (s.foundTurned picture x.1 [x.2])) ∨
      ∃ fault, o = some (.error fault) ∧ s.Crashed log fault := by
  obtain ⟨flags, hflags, hends⟩ := h
  rw [passTask, if_pos hturn] at hends
  have hcomes := comes_detectTurned (spreads_each log hflags) picture x.1 [x.2]
  rcases hcomes () o () trivial hends with ⟨rfl, -⟩ | ⟨fault, rfl, hfault⟩
  · exact .inl rfl
  · exact .inr ⟨fault, rfl, hfault⟩

theorem composes_quiet : Composes (m := Task Look) fun _ t => t.Quiet where
  result _ := trivial
  next hx hk _ := Task.Quiet.bind hx hk

theorem quiet_passTask (x : Float × Float) : (s.passTask picture x).Quiet := by
  unfold passTask
  split
  · exact composes_quiet.detectTurned (fun _ _ => Task.quiet_each fun _ => quiet_looks) _ _ _
  · trivial

theorem composes_only : Composes (m := Client Look Pass) fun _ c => c.Only Task.Quiet where
  result _ := trivial
  next hx hk _ := Client.Only.bind hx hk

/-- The scans that a survey spreads are quiet. -/
theorem only_detectGray (gray : Gray) (angles : List Float) (presets : List Scan) :
    (s.detectGray Client.fanOut gray angles presets).Only Task.Quiet :=
  composes_only.detectGray (fun _ _ => Client.only_fanOut fun _ => quiet_looks) _ _ _

theorem only_detectTurned (picture : Picture) (degrees : Float) (angles : List Float) :
    (s.detectTurned Client.fanOut picture degrees angles).Only Task.Quiet :=
  composes_only.detectTurned (fun _ _ => Client.only_fanOut fun _ => quiet_looks) _ _ _

theorem quiet_passTasks {t : Task Look Pass} (h : t ∈ s.passes.map (s.passTask picture)) :
    t.Quiet := by
  obtain ⟨x, -, rfl⟩ := List.mem_map.1 h
  exact quiet_passTask x

/-- **A survey all around finds what plain looks find**, or fails because the detector
crashed or the time was over. -/
theorem comes_detectAround (p : Pool Look Pass) (hturn : picture.extent ≠ ⟨0, 0⟩) :
    (Client.semantics (Event.Spares s.token)).Comes (s.Untouched p) (s.Blames p)
      (s.detectAround Client.fanOut picture) (s.foundAround picture) := by
  rintro ⟨r, before⟩ o ⟨q, after⟩ hr ⟨pass, calls, rfl, hcalls, rfl, hallowed⟩
  obtain ⟨first, second, result, r', rfl, hfan, hrest⟩ := Client.makes_bind hcalls
  obtain ⟨rfl, rfl, rfl⟩ := Client.makes_done hrest
  rw [List.append_nil] at hallowed ⊢
  obtain ⟨hgrows, c, rfl, ⟨values, rfl, hspares, hvalues⟩ | ⟨i, t, rfl, ht, hcrash⟩ |
    ⟨limit, rfl, hlimit, hclock, hexpires⟩⟩ :=
    Client.fanOut_cases hr.1 hr.2 (fun _ => quiet_passTasks) hfan hallowed
  · have hpasses : List.Forall₂ (fun x pass => pass = .ok (s.foundTurned picture x.1 [x.2]) ∨
        ∃ fault, pass = .error fault ∧ ∃ i, s.Crashed (c.notesOf i c.events.length) fault)
        s.passes values := by
      refine (List.forall₂_map_left_iff.1 hvalues).imp fun x pass hpass => ?_
      obtain ⟨i, hpass⟩ := hpass
      rcases ends_passTask (.inl hturn) hpass with heq | ⟨fault, heq, hfault⟩
      · exact .inl (Option.some.inj heq)
      · exact .inr ⟨fault, Option.some.inj heq, i, hfault⟩
    have hgather := Pass.gather_cases hpasses
    rcases hgather with hok | ⟨fault, herror, hfault⟩
    · exact .inl ⟨congrArg some hok, hgrows, hspares⟩
    · exact .inr ⟨fault, congrArg some herror, .inl ⟨c, List.mem_concat_self, hfault⟩⟩
  · -- no pass crashes: what it looks at can be turned, and it catches the detector's crash
    obtain ⟨x, -, rfl⟩ := List.mem_map.1 (List.mem_of_getElem? ht)
    rcases ends_passTask (.inl hturn) hcrash with habs | ⟨_, habs, -⟩ <;> cases habs
  · exact .inr ⟨_, rfl, .inr ⟨limit, rfl, hlimit, hclock, c, List.mem_concat_self, hexpires⟩⟩

end Survey

end Reframe
