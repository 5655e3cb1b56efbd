import Reframe.Proofs.Pool.Settles

/-!
# Work that submits batches

The courses of composed work are those of its parts, one after the other, and in a
pool of prompt tasks work always comes to its end, unless the clock cannot tell the end of
a batch's time.

* `Client.ends_bind`: the courses of one work after the other.
* `Client.halts`: whatever moves are made, the work ends, or crashes.
* `Client.Crashes.limit`: where it can crash.
-/

namespace Reframe.Client

variable {ν ρ β γ : Type} {Allowed : Event ν ρ → Prop} {p q : Pool ν ρ} {token : Token}
  {tasks : List (Task ν ρ)}

theorem bind_assoc {δ : Type} (c : Client ν ρ β) (k : β → Client ν ρ γ) (k' : γ → Client ν ρ δ) :
    (c.bind k).bind k' = c.bind fun v => (k v).bind k' := by
  induction c with
  | done value => rfl
  | call token tasks next ih =>
    rw [bind, bind, bind]
    exact congrArg _ (funext ih)

theorem ends_done {value w : β} (h : (done value).Ends Allowed p w q) : w = value ∧ q = p := by
  cases h with
  | done => exact ⟨rfl, rfl⟩

/-- Submitting one batch: some allowed events lead to its result. -/
theorem ends_fanOut {r : Except Fault (List ρ)} (h : (fanOut token tasks).Ends Allowed p r q) :
    ∃ events, (∀ e ∈ events, Allowed e) ∧ q = (p.submit token tasks).run events ∧
      q.result? p.batches.length = some r := by
  cases h with
  | call allowed settled rest =>
    obtain ⟨rfl, rfl⟩ := ends_done rest
    exact ⟨_, allowed, rfl, settled⟩

/-- **One work after the other**: the second goes on where the first ended. -/
theorem ends_bind {c : Client ν ρ β} {k : β → Client ν ρ γ} {w : γ}
    (h : (c.bind k).Ends Allowed p w q) :
    ∃ v r, c.Ends Allowed p v r ∧ (k v).Ends Allowed r w q := by
  induction c generalizing p with
  | done value => exact ⟨value, p, .done, h⟩
  | call token tasks next ih =>
    cases h with
    | call allowed settled rest =>
      obtain ⟨v, r, hnext, hk⟩ := ih _ rest
      exact ⟨v, r, .call allowed settled hnext, hk⟩

theorem Ends.bind {c : Client ν ρ β} {k : β → Client ν ρ γ} {v : β} {r : Pool ν ρ} {w : γ}
    (h : c.Ends Allowed p v r) (hk : (k v).Ends Allowed r w q) :
    (c.bind k).Ends Allowed p w q := by
  induction h with
  | done => exact hk
  | call allowed settled _ ih => exact .call allowed settled (ih hk)

theorem Ends.mono {Allowed' : Event ν ρ → Prop} (hle : ∀ e, Allowed e → Allowed' e)
    {c : Client ν ρ β} {w : β} (h : c.Ends Allowed p w q) : c.Ends Allowed' p w q := by
  induction h with
  | done => exact .done
  | call allowed settled _ ih => exact .call (fun e he => hle e (allowed e he)) settled ih

/-- All tasks that are submitted are of a kind. -/
def Only (P : Task ν ρ → Prop) : Client ν ρ β → Prop
  | done _ => True
  | call _ tasks next => (∀ t ∈ tasks, P t) ∧ ∀ result, (next result).Only P

variable {P : Task ν ρ → Prop}

theorem only_fanOut (h : ∀ t ∈ tasks, P t) : (fanOut token tasks).Only P :=
  ⟨h, fun _ => trivial⟩

theorem Only.bind {c : Client ν ρ β} {k : β → Client ν ρ γ} (h : c.Only P)
    (hk : ∀ v, (k v).Only P) : (c.bind k).Only P := by
  induction c with
  | done value => exact hk value
  | call token tasks next ih => exact ⟨h.1, fun result => ih result (h.2 result)⟩

theorem Only.imp {Q : Task ν ρ → Prop} (hle : ∀ t, P t → Q t) {c : Client ν ρ β}
    (h : c.Only P) : c.Only Q := by
  induction c with
  | done value => trivial
  | call token tasks next ih =>
    exact ⟨fun t ht => hle t (h.1 t ht), fun result => ih result (h.2 result)⟩

/-- Whatever moves are made, every batch gets its result and the work goes on, to its end;
or it crashes on the way, where the clock cannot tell the end of a batch's time. -/
inductive Halts : Client ν ρ β → Pool ν ρ → Prop
  | done {value : β} {p : Pool ν ρ} : Halts (.done value) p
  | crash {token : Token} {tasks : List (Task ν ρ)} {next : Except Fault (List ρ) → Client ν ρ β}
      {p : Pool ν ρ} (overruns : p.Overruns token tasks) : Halts (.call token tasks next) p
  | call {token : Token} {tasks : List (Task ν ρ)} {next : Except Fault (List ρ) → Client ν ρ β}
      {p : Pool ν ρ} (settles : (p.submit token tasks).Settles p.batches.length)
      (rest : ∀ (moves : List Move) (result : Except Fault (List ρ)),
        ((p.submit token tasks).run (moves.map .move)).result? p.batches.length = some result →
        Halts (next result) ((p.submit token tasks).run (moves.map .move))) :
      Halts (.call token tasks next) p

/-- **Work in a pool of prompt tasks halts**, whatever moves are made. -/
theorem halts {c : Client ν ρ β} (hw : 0 < p.workers) (hp : p.Only Task.Prompt)
    (hc : c.Only Task.Prompt) : c.Halts p := by
  induction c generalizing p with
  | done value => exact .done
  | call token tasks next ih =>
    by_cases hover : p.Overruns token tasks
    · exact .crash hover
    have hsubmit : (p.submit token tasks).Only Task.Prompt := hp.submit hc.1
    have hserved := Pool.isServed_batchOf hover
    refine .call (Pool.settles hw hsubmit (p.batches_submit token tasks) hserved)
      fun moves result _ => ?_
    refine ih result ?_ ?_ (hc.2 result)
    · rw [(Pool.grows_run (p.submit token tasks) _).workers]
      exact hw
    · refine Pool.only_run Task.isKept_prompt hsubmit fun e he => ?_
      obtain ⟨m, -, rfl⟩ := List.mem_map.1 he
      trivial

/-- **Where work crashes**: the limit of the pool ends after the last time of the clock. -/
theorem Crashes.limit {c : Client ν ρ β} (h : c.Crashes Allowed p q) :
    ∃ limit, p.limit = some limit ∧ p.horizon < q.clock + limit := by
  induction h with
  | here overruns => exact overruns.limit
  | @later token tasks next p q events result allowed settled rest ih =>
    have hgrows := (p.grows_submit token tasks).trans (Pool.grows_run _ events)
    rw [← hgrows.limit, ← hgrows.horizon]
    exact ih

/-- Work that halts has a course in which no time runs out, to its end or to where it
crashes. -/
theorem Halts.exists_course {c : Client ν ρ β} (h : c.Halts p) :
    (∃ w q, c.Ends Event.IsTimely p w q) ∨
      ∃ q, c.Crashes Event.IsTimely p q := by
  induction h with
  | done => exact .inl ⟨_, _, .done⟩
  | crash overruns => exact .inr ⟨_, .here overruns⟩
  | call settles _ ih =>
    obtain ⟨moves, htimely, hresult⟩ := settles.exists_run
    obtain ⟨result, hresult⟩ := Option.isSome_iff_exists.1 hresult
    have hmoves : ∀ e ∈ moves.map .move, (e : Event ν ρ).IsTimely := by
      intro e he
      obtain ⟨m, hm, rfl⟩ := List.mem_map.1 he
      exact ⟨m, rfl, htimely m hm⟩
    rcases ih moves result hresult with ⟨w, q, hrest⟩ | ⟨q, hrest⟩
    · exact .inl ⟨w, q, .call hmoves hresult hrest⟩
    · exact .inr ⟨q, .later hmoves hresult hrest⟩

/-- Without a limit there is nothing to crash at. -/
theorem Halts.exists_ends {c : Client ν ρ β} (h : c.Halts p) (hlimit : p.limit = none) :
    ∃ w q, c.Ends Event.IsTimely p w q := by
  rcases h.exists_course with hends | ⟨q, hcrash⟩
  · exact hends
  · obtain ⟨limit, habs, -⟩ := hcrash.limit
    rw [hlimit] at habs
    cases habs

/-- **Work that crashes at its first batch never ends.** -/
theorem not_ends_of_overruns {next : Except Fault (List ρ) → Client ν ρ β} {w : β}
    (h : p.Overruns token tasks) : ¬ (call token tasks next).Ends Allowed p w q := by
  intro hends
  cases hends with
  | call _ settled _ =>
    have hb : (p.submit token tasks).batches[p.batches.length]? = some (.abandoned token) := by
      rw [Pool.batches_submit, Pool.batchOf_of_overruns h]
    rw [Pool.result?, Pool.abandoned_run hb] at settled
    cases settled

end Reframe.Client
