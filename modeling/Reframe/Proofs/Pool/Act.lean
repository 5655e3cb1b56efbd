import Reframe.Proofs.Pool.Step

/-!
# What a task does in one step

A running task acts on the clock, the flags and the log of its pool, and goes to another
phase. Batches play no part in that. So a step of a worker is an act of its task, after which
the task's new phase is entered.

* `Task.act`: the act.
* `Pool.advance?_eq_some`: a step is an act.
-/

namespace Reframe

variable {ν ρ : Type}

/-- What a task with number `i` does in one step: the pool after it, and its own phase. A
task that waits for a flag that is not set has no step. -/
def Task.act (i : Nat) (p : Pool ν ρ) : Task ν ρ → Option (Pool ν ρ × Phase ν ρ)
  | done value => some (p, .ended (.ok value))
  | crash => some (p, .ended (.error (.crashed i)))
  | note n next => some ({ p with log := p.log ++ [n] }, .running p.clock next)
  | sleep time next => some (p, .running (p.clock + time) next)
  | cancel token next => some (p.cancel token, .running p.clock next)
  | await token next => if p.IsCancelled token then some (p, .running p.clock next) else none
  | check token next => some (p, .running p.clock (next (decide (p.IsCancelled token))))

/-- An act leaves the batches as they are. -/
theorem Task.batches_act {p : Pool ν ρ} {i : Nat} {t : Task ν ρ} {a : Pool ν ρ × Phase ν ρ}
    (h : t.act i p = some a) :
    a.1.batches = p.batches := by
  cases t with
  | done value => cases h; rfl
  | crash => cases h; rfl
  | note n next => cases h; rfl
  | sleep time next => cases h; rfl
  | cancel token next => cases h; exact Pool.batches_cancel p token
  | await token next =>
    rw [act] at h
    split at h
    · cases h
      rfl
    · cases h
  | check token next => cases h; rfl

namespace Pool

variable {p q : Pool ν ρ} {bi i : Nat} {b : Batch ν ρ} {ready : Span} {t : Task ν ρ}

/-- The pool at a time, or now if that is later. -/
def atTime (p : Pool ν ρ) (time : Span) : Pool ν ρ :=
  { p with clock := max p.clock time }

theorem advance?_running (hb : p.batches[bi]? = some b)
    (hi : b.phases[i]? = some (.running ready t)) :
    p.advance? bi i = (t.act i (p.atTime ready)).map fun a => a.1.setPhase b bi i a.2 := by
  simp only [advance?, hb, hi, Option.bind_eq_bind, Option.bind_some]
  cases t with
  | done value => rfl
  | crash => rfl
  | note n next => rfl
  | sleep time next => rfl
  | cancel token next => rfl
  | await token next =>
    change (if p.IsCancelled token then _ else none) =
      Option.map _ (if p.IsCancelled token then _ else none)
    split <;> rfl
  | check token next => rfl

/-- **A step of a worker is an act of its task.** -/
theorem advance?_eq_some (h : p.advance? bi i = some q) :
    ∃ b ready t a, p.batches[bi]? = some b ∧ b.phases[i]? = some (.running ready t) ∧
      t.act i (p.atTime ready) = some a ∧ q = a.1.setPhase b bi i a.2 := by
  obtain ⟨b, hb⟩ : ∃ b, p.batches[bi]? = some b := by
    cases hb : p.batches[bi]? with
    | none => simp [advance?, hb] at h
    | some b => exact ⟨b, rfl⟩
  obtain ⟨ready, t, hi⟩ : ∃ ready t, b.phases[i]? = some (.running ready t) := by
    simp only [advance?, hb, Option.bind_eq_bind, Option.bind_some] at h
    split at h
    next ready t hi => exact ⟨ready, t, hi⟩
    next => cases h
  rw [advance?_running hb hi, Option.map_eq_some_iff] at h
  obtain ⟨a, ha, rfl⟩ := h
  exact ⟨b, ready, t, a, hb, hi, ha, rfl⟩

end Pool

end Reframe
