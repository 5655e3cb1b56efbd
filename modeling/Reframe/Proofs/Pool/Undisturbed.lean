import Reframe.Proofs.Pool.Settles
import Reframe.Proofs.Pool.Spared

/-!
# Undisturbed batches

A batch is undisturbed if its token is not set while it is waited for and its time does not
run out. Then it comes to the values of all its tasks, every
one of which has run once and never found the token set; or one of its tasks has crashed.

* `Call.Undisturbed`: the batch is not called off, and it is not late.
* `Call.Undisturbed.exists_crash`: it fails only by the crash of a task.
* `Call.Undisturbed.outcome`: what it comes to.
* `Call.IsSpared.undisturbed`: events that spare the token do not disturb.
-/

namespace Reframe.Call

variable {ν ρ : Type} {c : Call ν ρ} {i n : Nat} {o : Option ρ}

/-- The batch is neither called off from outside nor late. -/
structure Undisturbed (c : Call ν ρ) : Prop where
  clear : ¬ c.pool.IsCancelled c.token
  spared : ∀ n, c.result? n = none → c.token ∉ c.flags n
  timely : ∀ n, ¬ c.Expires n

/-- A task that is over has not found the token set. -/
theorem Undisturbed.endsSpared (h : c.Undisturbed) (hover : c.Over i o n) :
    ∃ t log, c.tasks[i]? = some t ∧ t.EndsSpared c.token log o := by
  obtain ⟨-, t, ht, hends⟩ := hover.begins_ends
  exact ⟨t, c.notes n, ht, c.flags n, h.spared n hover.2, hends⟩

/-- **Only the crash of a task** makes an undisturbed batch fail. -/
theorem Undisturbed.exists_crash (h : c.Undisturbed) {fault : Fault}
    (hr : c.outcome? = some (.error fault)) : ∃ i n, fault = .crashed i ∧ c.Over i none n := by
  rcases fault_cases hr with hcrash | ⟨-, hset | ⟨i, n, -, hwaiting, hmem⟩⟩ | ⟨_, -, -, -, n, hn⟩
  · exact hcrash
  · exact absurd hset h.clear
  · exact absurd hmem (h.spared n hwaiting)
  · exact absurd hn (h.timely n)

/-- **What an undisturbed batch comes to**: the values of all tasks, each of which has run,
or the crash of one. -/
theorem Undisturbed.outcome (h : c.Undisturbed) {r : Except Fault (List ρ)}
    (hr : c.outcome? = some r) :
    (∃ values, r = .ok values ∧
      List.Forall₂ (fun t value => ∃ log, t.EndsSpared c.token log (some value)) c.tasks values ∧
      ∀ i < c.tasks.length, (∃! m, c.Begins i m) ∧ ∃ value n, c.Over i (some value) n) ∨
    ∃ i t log, r = .error (.crashed i) ∧ c.tasks[i]? = some t ∧
      t.EndsSpared c.token log none := by
  rcases r with fault | values
  · obtain ⟨i, n, rfl, hover⟩ := h.exists_crash hr
    obtain ⟨t, log, ht, hends⟩ := h.endsSpared hover
    exact .inr ⟨i, t, log, rfl, ht, hends⟩
  · obtain ⟨hlen, hvalues⟩ := explained hr
    refine .inl ⟨values, rfl, (forall₂_of_ok hr).imp fun t value ht => ?_, fun i hi => ?_⟩
    · obtain ⟨i, n, -, hover, hends⟩ := ht
      exact ⟨c.notes n, c.flags n, h.spared n hover.2, hends⟩
    · have hi : i < values.length := hlen ▸ hi
      obtain ⟨n, hover⟩ := hvalues i values[i] (List.getElem?_eq_getElem hi)
      exact ⟨hover.begins_ends.1, values[i], n, hover⟩

/-- Events that spare the token do not disturb, as long as time does not run out. -/
theorem IsSpared.undisturbed (h : c.IsSpared)
    (htime : ∀ e ∈ c.events, e ≠ .move (.expire c.index)) : c.Undisturbed where
  clear := h.pool.flag
  spared _ hn := h.not_mem_flags hn
  timely _ hn := htime _ (List.mem_of_getElem? hn.1) rfl

/-- Neither do moves, if pool and tasks spare the token and no time runs out. -/
theorem undisturbed_of_moves {moves : List Move} (hpool : c.pool.Spares c.token)
    (htasks : ∀ t ∈ c.tasks, t.Spares c.token) (hevents : c.events = moves.map .move)
    (htimely : ∀ m ∈ moves, Pool.Timely m) : c.Undisturbed := by
  refine IsSpared.undisturbed ⟨hpool, htasks, fun e he => ?_⟩ fun e he habs => ?_
  · rw [hevents] at he
    obtain ⟨m, -, rfl⟩ := List.mem_map.1 he
    trivial
  · rw [hevents] at he
    obtain ⟨m, hm, rfl⟩ := List.mem_map.1 he
    cases habs
    exact (htimely _ hm).elim

end Reframe.Call
