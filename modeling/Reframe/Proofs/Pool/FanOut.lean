import Reframe.Proofs.Pool.Account
import Reframe.Proofs.Pool.Settles

/-!
# What a batch comes to

A function is mapped over some inputs by handing one task for each to a pool, which
may be in any state and in use by anybody. Whatever happens then, and in whatever
order, the batch comes to all values in the order of the inputs, or to a fault that
really occurred; messages are never lost.

* `Call.map_explained`: what each result says about the course that led to it.
-/

namespace Reframe.Call

variable {ν ρ ι : Type}

/-- The batch that maps a function over some inputs, and what happens from then on. -/
def map (p : Pool ν ρ) (token : Token) (f : ι → Task ν ρ) (inputs : List ι)
    (events : List (Event ν ρ)) : Call ν ρ where
  pool := p
  token := token
  tasks := inputs.map f
  events := events

variable {p : Pool ν ρ} {token : Token} {f : ι → Task ν ρ} {inputs : List ι}
  {events : List (Event ν ρ)} {i n : Nat} {o : Option ρ}

/-- A task that is over belongs to an input, began once and could come to that. -/
theorem over_map (h : (map p token f inputs events).Over i o n) :
    (∃! m, (map p token f inputs events).Begins i m) ∧ ∃ x, inputs[i]? = some x ∧
      (f x).Ends ((map p token f inputs events).notes n)
        ((map p token f inputs events).flags n) o := by
  obtain ⟨hbegins, t, ht, hends⟩ := h.begins_ends
  obtain ⟨x, hx, rfl⟩ : ∃ x, inputs[i]? = some x ∧ f x = t := by simpa [map] using ht
  exact ⟨hbegins, x, hx, hends⟩

/-- All values are there, each from the one run of its task. -/
theorem map_ok {out : List ρ} (h : (map p token f inputs events).outcome? = some (.ok out)) :
    out.length = inputs.length ∧ ∀ i x, inputs[i]? = some x →
      (∃! m, (map p token f inputs events).Begins i m) ∧
      ∃ value n, out[i]? = some value ∧ (map p token f inputs events).Over i (some value) n ∧
        (f x).Ends ((map p token f inputs events).notes n)
          ((map p token f inputs events).flags n) (some value) := by
  obtain ⟨hlen, hvalues⟩ := explained h
  have hlen : out.length = inputs.length := by simpa [map] using hlen
  refine ⟨hlen, fun i x hx => ?_⟩
  have hi : i < out.length := hlen ▸ (List.getElem?_eq_some_iff.1 hx).1
  have hout : out[i]? = some out[i] := List.getElem?_eq_getElem hi
  obtain ⟨n, hover⟩ := hvalues i out[i] hout
  obtain ⟨hbegins, y, hy, hends⟩ := over_map hover
  obtain rfl : x = y := Option.some.inj (hx.symm.trans hy)
  exact ⟨hbegins, out[i], n, hout, hover, hends⟩

/-- A function that has one value for each input is mapped. -/
theorem map_ok_eq {out : List ρ} {value : ι → ρ}
    (h : (map p token f inputs events).outcome? = some (.ok out))
    (hf : ∀ x ∈ inputs, ∀ log flags v, (f x).Ends log flags (some v) → v = value x) :
    out = inputs.map value := by
  obtain ⟨hlen, hvalues⟩ := map_ok h
  refine List.ext_getElem? fun i => ?_
  rw [List.getElem?_map]
  cases hx : inputs[i]? with
  | none =>
    have hle : out.length ≤ i := hlen ▸ List.getElem?_eq_none_iff.1 hx
    exact List.getElem?_eq_none hle
  | some x =>
    obtain ⟨-, v, n, hout, -, hends⟩ := hvalues i x hx
    rw [hout, hf x (List.mem_of_getElem? hx) _ _ v hends, Option.map_some]

theorem prompt_last (hp : p.Only Task.Prompt) (hf : ∀ x ∈ inputs, (f x).Prompt)
    (he : ∀ e ∈ events, e.Only Task.Prompt) :
    (map p token f inputs events).last.Only Task.Prompt := by
  have htasks : ∀ t ∈ inputs.map f, t.Prompt := by
    intro t ht
    obtain ⟨x, hx, rfl⟩ := List.mem_map.1 ht
    exact hf x hx
  rw [last_eq]
  exact Pool.only_run Task.isKept_prompt (hp.submit htasks) he

/-- A batch whose caller does not crash is waited for until it has its result. -/
theorem exists_served {c : Call ν ρ} (htime : ¬ c.pool.Overruns c.token c.tasks) (n : Nat) :
    ∃ b, (c.moment n).batches[c.index]? = some b ∧ b.IsServed := by
  induction n with
  | zero => exact ⟨_, batch_zero, Pool.isServed_batchOf htime⟩
  | succ n ih =>
    obtain ⟨b, hb, hserved⟩ := ih
    cases he : c.events[n]? with
    | none => exact ⟨b, by rw [moment_succ_of_none he, hb], hserved⟩
    | some e =>
      obtain ⟨b', hb', hstep⟩ := step_batch he hb
      exact ⟨b', hb', hserved.step hstep⟩

theorem settles_last {c : Call ν ρ} (htime : ¬ c.pool.Overruns c.token c.tasks)
    (hw : 0 < c.pool.workers) (hp : c.last.Only Task.Prompt) : c.last.Settles c.index := by
  obtain ⟨b, hb, hserved⟩ := exists_served htime c.events.length
  have hworkers : c.last.workers = c.pool.workers := (c.grows_pool _).workers
  exact Pool.settles (hworkers ▸ hw) hp hb hserved

/-- **What a mapped batch comes to**, for every pool and every course of events.
With all values, every task began exactly once and each value is what its task came to.
A crash, a cancellation or the end of the time is only reported if it happened, a lost
message never; so the values are the only possible result if nothing of that kind happens.
And a result there will be: unless tasks wait for flags, or the caller crashes because the
clock cannot tell the end of the batch's time, every sequence of moves leads to one. -/
theorem map_explained (p : Pool ν ρ) (token : Token) (f : ι → Task ν ρ) (inputs : List ι)
    (events : List (Event ν ρ)) :
    let c := map p token f inputs events
    (∀ out, c.outcome? = some (.ok out) →
      out.length = inputs.length ∧
      (∀ i x, inputs[i]? = some x → (∃! m, c.Begins i m) ∧
        ∃ value n, out[i]? = some value ∧ c.Over i (some value) n ∧
          (f x).Ends (c.notes n) (c.flags n) (some value)) ∧
      ∀ value : ι → ρ,
        (∀ x ∈ inputs, ∀ log flags v, (f x).Ends log flags (some v) → v = value x) →
        out = inputs.map value) ∧
    (∀ i, c.outcome? = some (.error (.crashed i)) →
      (∃! m, c.Begins i m) ∧ ∃ x n, inputs[i]? = some x ∧ c.Over i none n ∧
        (f x).Ends (c.notes n) (c.flags n) none) ∧
    (c.outcome? = some (.error .cancelled) →
      p.IsCancelled token ∨ ∃ i n, c.CalledOff i n) ∧
    (∀ limit, c.outcome? = some (.error (.late limit)) →
      p.limit = some limit ∧ p.clock + limit ≤ c.last.clock ∧ ∃ n, c.Expires n) ∧
    (∀ reason, c.outcome? ≠ some (.error (.lost reason))) ∧
    ((∀ i n, ¬ c.Over i none n) → (∀ n, ¬ c.Expires n) → ¬ p.IsCancelled token →
      (∀ i n, ¬ c.CalledOff i n) → ∀ r, c.outcome? = some r → ∃ out, r = .ok out) ∧
    (¬ p.Overruns token (inputs.map f) → 0 < p.workers → p.Only Task.Prompt →
      (∀ x ∈ inputs, (f x).Prompt) → (∀ e ∈ events, e.Only Task.Prompt) →
        c.last.Settles c.index) := by
  intro c
  refine ⟨?_, ?_, ?_, ?_, ?_, ?_, ?_⟩
  · intro out hout
    obtain ⟨hlen, hvalues⟩ := map_ok hout
    exact ⟨hlen, hvalues, fun value hf => map_ok_eq hout hf⟩
  · intro i hout
    obtain ⟨-, n, hover⟩ := explained hout
    obtain ⟨hbegins, x, hx, hends⟩ := over_map hover
    exact ⟨hbegins, x, n, hx, hover, hends⟩
  · intro hout
    exact explained hout
  · intro limit hout
    exact explained hout
  · intro reason hout
    exact explained hout
  · -- every fault points at something that did not happen
    intro hcrash hexpires htoken hoff r hr
    rcases r with fault | out
    · rcases fault_cases hr with ⟨i, n, -, hover⟩ | ⟨-, hset | ⟨i, n, hn⟩⟩ | ⟨_, -, -, -, n, hn⟩
      · exact absurd hover (hcrash i n)
      · exact absurd hset htoken
      · exact absurd hn (hoff i n)
      · exact absurd hn (hexpires n)
    · exact ⟨out, rfl⟩
  · intro htime hw hp hf he
    exact settles_last htime hw (prompt_last hp hf he)

/-- Two tasks, the second of which is over first. -/
def reversed : Call Nat Nat :=
  map (Pool.idle 2 none .horizon) 0 (fun n => .note n (.done (10 * n))) [3, 4] <|
    List.map .move [.start 0 0, .start 0 1, .advance 0 1, .advance 0 1, .send 0 1, .receive 0,
      .advance 0 0, .advance 0 0, .send 0 0, .receive 0]

theorem map_explained_reversed :
    reversed.outcome? = some (.ok [30, 40]) ∧ reversed.last.log = [4, 3] ∧
      (∃! n, reversed.Begins 1 n) ∧ reversed.last.Settles reversed.index := by
  have hout : reversed.outcome? = some (.ok [30, 40]) := by decide
  have hlog : reversed.last.log = [4, 3] := by decide
  obtain ⟨hok, -, -, -, -, -, hsettles⟩ :=
    map_explained (Pool.idle 2 none .horizon) 0 (fun n => .note n (.done (10 * n))) [3, 4]
      reversed.events
  obtain ⟨-, hvalues, -⟩ := hok [30, 40] hout
  obtain ⟨hbegins, -⟩ := hvalues 1 4 (by decide)
  refine ⟨hout, hlog, hbegins, ?_⟩
  refine hsettles (by decide) (by decide) (Pool.only_idle 2 none .horizon) (fun _ _ => trivial) ?_
  intro e he
  obtain ⟨m, -, rfl⟩ := List.mem_map.1 he
  trivial

end Reframe.Call
