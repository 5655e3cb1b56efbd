import Reframe.Proofs.Pool.Client
import Reframe.Proofs.Pool.Trace

/-!
# The calls that work makes

Work that submits batches makes one call after the other: each is over when the next is
made, in the pool that it has left. A course of the work is the same as such a list of
calls, which says for every batch which tasks it had and what happened while it was waited
for.

* `Client.Makes`: the calls on the way to a value.
* `Client.ends_iff_makes`: every course is one of calls.
* `Client.makes_bind`: the calls of one work after the other.
* `Client.makes_fanOut_bind`: the first call of work that begins with a batch.
-/

namespace Reframe.Client

variable {ν ρ β γ : Type} {p q : Pool ν ρ} {value : β} {calls : List (Call ν ρ)}

/-- Work that starts in a pool makes some calls, one after the other, and ends with a value
and another pool. -/
inductive Makes : Client ν ρ β → Pool ν ρ → List (Call ν ρ) → β → Pool ν ρ → Prop where
  | done {value : β} {p : Pool ν ρ} : Makes (.done value) p [] value p
  | call {token : Token} {tasks : List (Task ν ρ)} {next : Except Fault (List ρ) → Client ν ρ β}
      {p q : Pool ν ρ} {events : List (Event ν ρ)} {calls : List (Call ν ρ)}
      {result : Except Fault (List ρ)} {value : β}
      (settled : (Call.mk p token tasks events).outcome? = some result)
      (rest : Makes (next result) (Call.mk p token tasks events).last calls value q) :
      Makes (.call token tasks next) p (⟨p, token, tasks, events⟩ :: calls) value q

/-- **Every course of some work is one of calls.** -/
theorem ends_iff_makes {Allowed : Event ν ρ → Prop} {c : Client ν ρ β} :
    c.Ends Allowed p value q ↔
      ∃ calls, c.Makes p calls value q ∧ ∀ call ∈ calls, ∀ e ∈ call.events, Allowed e := by
  constructor
  · intro h
    induction h with
    | done => exact ⟨[], .done, fun _ habs => absurd habs List.not_mem_nil⟩
    | @call token tasks next p q events result value allowed settled rest ih =>
      obtain ⟨calls, hcalls, hallowed⟩ := ih
      have hlast := Call.last_eq (c := ⟨p, token, tasks, events⟩)
      have hsettled : (Call.mk p token tasks events).outcome? = some result := by
        rw [Call.outcome?, hlast]
        exact settled
      rw [← hlast] at hcalls
      exact ⟨_ :: calls, .call hsettled hcalls, List.forall_mem_cons.2 ⟨allowed, hallowed⟩⟩
  · rintro ⟨calls, h, hallowed⟩
    induction h with
    | done => exact .done
    | call settled rest ih =>
      obtain ⟨hfirst, hcalls⟩ := List.forall_mem_cons.1 hallowed
      rw [Call.outcome?, Call.last_eq] at settled
      rw [Call.last_eq] at ih
      exact .call hfirst settled (ih hcalls)

/-- Work that is done makes no calls. -/
theorem makes_done {w : β} (h : (done value).Makes p calls w q) :
    calls = [] ∧ w = value ∧ q = p := by
  cases h with
  | done => exact ⟨rfl, rfl, rfl⟩

/-- Submitting one batch makes one call. -/
theorem makes_fanOut {token : Token} {tasks : List (Task ν ρ)} {result : Except Fault (List ρ)}
    (h : (fanOut token tasks).Makes p calls result q) :
    ∃ c : Call ν ρ, calls = [c] ∧ c.pool = p ∧ c.token = token ∧ c.tasks = tasks ∧
      c.outcome? = some result ∧ q = c.last := by
  cases h with
  | call settled rest =>
    obtain ⟨rfl, rfl, rfl⟩ := makes_done rest
    exact ⟨_, rfl, rfl, rfl, rfl, settled, rfl⟩

/-- **One work after the other** makes the calls of the one, then those of the other. -/
theorem makes_bind {c : Client ν ρ β} {k : β → Client ν ρ γ} {w : γ}
    (h : (c.bind k).Makes p calls w q) :
    ∃ first second v r, calls = first ++ second ∧ c.Makes p first v r ∧
      (k v).Makes r second w q := by
  induction c generalizing p calls with
  | done v => exact ⟨[], calls, v, p, rfl, .done, h⟩
  | call token tasks next ih =>
    cases h with
    | call settled rest =>
      obtain ⟨first, second, v, r, rfl, hfirst, hsecond⟩ := ih _ rest
      exact ⟨_ :: first, second, v, r, rfl, .call settled hfirst, hsecond⟩

/-- Work that begins with a batch makes a call for it first. -/
theorem makes_fanOut_bind {token : Token} {tasks : List (Task ν ρ)}
    {k : Except Fault (List ρ) → Client ν ρ β}
    (h : ((fanOut token tasks).bind k).Makes p calls value q) :
    ∃ (c : Call ν ρ) (rest : List (Call ν ρ)) (result : Except Fault (List ρ)),
      calls = c :: rest ∧ c.pool = p ∧ c.token = token ∧ c.tasks = tasks ∧
      c.outcome? = some result ∧ (k result).Makes c.last rest value q := by
  obtain ⟨first, rest, result, r, rfl, hfirst, hrest⟩ := makes_bind h
  obtain ⟨c, rfl, hpool, htoken, htasks, hout, rfl⟩ := makes_fanOut hfirst
  exact ⟨c, rest, result, rfl, hpool, htoken, htasks, hout, hrest⟩

end Reframe.Client
