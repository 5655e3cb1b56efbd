import Reframe.Proofs.Pool.Outcome

/-!
# Tasks alone and among others

A task that runs alone finds no flag set, so there is one way for it to end. Among others, a
task that looks at one flag only ends in the same way, or it finds the flag set and ends
cancelled.

* `Task.alone`: how a task ends alone.
* `Task.Heeds`: a task ends as it does alone, or cancelled.
* `Task.Heeds.bind`, `Task.heeds_each`: such tasks compose.
-/

namespace Reframe.Task

variable {ν ρ σ : Type} {log : List ν} {flags : List Token} {token : Token}

/-- How a task ends when no flag is set: with a value, or with none if it crashes. -/
def alone : Task ν ρ → Option ρ
  | done value => some value
  | crash => none
  | note _ next => next.alone
  | sleep _ next => next.alone
  | cancel _ next => next.alone
  | await _ next => next.alone
  | check _ next => (next false).alone

theorem alone_bind (t : Task ν ρ) (k : ρ → Task ν σ) :
    (t.bind k).alone = t.alone.bind fun value => (k value).alone := by
  induction t with
  | done value => rfl
  | crash => rfl
  | note n next ih => exact ih
  | sleep time next ih => exact ih
  | cancel token next ih => exact ih
  | await token next ih => exact ih
  | check token next ih => exact ih false

theorem alone_attempt (t : Task ν ρ) : t.attempt.alone = some t.alone := by
  induction t with
  | done value => rfl
  | crash => rfl
  | note n next ih => exact ih
  | sleep time next ih => exact ih
  | cancel token next ih => exact ih
  | await token next ih => exact ih
  | check token next ih => exact ih false

/-- One task on the spot, alone. -/
theorem alone_each_singleton (token : Token) (t : Task ν ρ) :
    (each token [t]).alone = some (match t.alone with
      | some value => .ok [value]
      | none => .error (.crashed 0)) := by
  change (t.attempt.bind _).alone = _
  rw [alone_bind, alone_attempt]
  cases t.alone <;> rfl

/-- Whatever goes on, the task ends as it does alone. -/
def IsSteady (t : Task ν ρ) : Prop :=
  ∀ log flags o, t.Ends log flags o → o = t.alone

/-- The task ends as it does alone, or it finds the token set and ends cancelled. -/
def Heeds (token : Token) (t : Task ν (Except Fault ρ)) : Prop :=
  ∀ log flags o, t.Ends log flags o →
    o = t.alone ∨ token ∈ flags ∧ o = some (.error .cancelled)

theorem heeds_done (value : Except Fault ρ) : (done value : Task ν (Except Fault ρ)).Heeds token :=
  fun _ _ _ h => .inl (ends_done.1 h)

theorem heeds_crash : (crash : Task ν (Except Fault ρ)).Heeds token :=
  fun _ _ _ h => .inl (ends_crash.1 h)

/-- Looking at the token, and ending cancelled if it is set. -/
theorem heeds_check {next : Bool → Task ν (Except Fault ρ)}
    (hset : next true = done (.error .cancelled)) (hclear : (next false).Heeds token) :
    (check token next).Heeds token := by
  intro log flags o h
  rcases ends_check.1 h with ⟨hmem, h⟩ | h
  · rw [hset, ends_done] at h
    exact .inr ⟨hmem, h⟩
  · exact hclear log flags o h

/-- A steady task first. -/
theorem IsSteady.bind {t : Task ν ρ} {k : ρ → Task ν (Except Fault σ)} (ht : t.IsSteady)
    (hk : ∀ value, (k value).Heeds token) : (t.bind k).Heeds token := by
  intro log flags o h
  rw [alone_bind]
  rcases ends_bind.1 h with ⟨hcrash, rfl⟩ | ⟨value, hvalue, h⟩
  · rw [← ht _ _ _ hcrash]
    exact .inl rfl
  · rw [← ht _ _ _ hvalue]
    exact hk value log flags o h

/-- **One task after the other**: what was cancelled stays cancelled. -/
theorem Heeds.bind {t : Task ν (Except Fault ρ)} {k : Except Fault ρ → Task ν (Except Fault σ)}
    (ht : t.Heeds token) (hk : ∀ result, (k result).Heeds token)
    (hcancelled : k (.error .cancelled) = done (.error .cancelled)) :
    (t.bind k).Heeds token := by
  intro log flags o h
  rw [alone_bind]
  rcases ends_bind.1 h with ⟨hcrash, rfl⟩ | ⟨result, hresult, h⟩
  · rcases ht _ _ _ hcrash with halone | ⟨-, habs⟩
    · rw [← halone]
      exact .inl rfl
    · cases habs
  · rcases ht _ _ _ hresult with halone | ⟨hmem, heq⟩
    · rw [← halone]
      exact hk result log flags o h
    · cases heq
      rw [hcancelled, ends_done] at h
      exact .inr ⟨hmem, h⟩

theorem IsSteady.attempt {t : Task ν ρ} (ht : t.IsSteady) : t.attempt.IsSteady := by
  intro log flags o h
  obtain ⟨r, hr, rfl⟩ := ends_attempt.1 h
  rw [alone_attempt, ht _ _ _ hr]

theorem heeds_eachFrom {tasks : List (Task ν ρ)} (h : ∀ t ∈ tasks, t.IsSteady) (i : Nat) :
    (eachFrom token i tasks).Heeds token := by
  induction tasks generalizing i with
  | nil => exact heeds_done _
  | cons t tasks ih =>
    have ht := h t List.mem_cons_self
    have hrest := ih fun u hu => h u (List.mem_cons_of_mem _ hu)
    refine heeds_check rfl (ht.attempt.bind fun value => ?_)
    cases value with
    | none => exact heeds_done _
    | some value =>
      refine (hrest (i + 1)).bind (fun result => ?_) rfl
      cases result <;> exact heeds_done _

/-- **Steady tasks done one after the other** end as they do alone, or cancelled. -/
theorem heeds_each {tasks : List (Task ν ρ)} (h : ∀ t ∈ tasks, t.IsSteady) :
    (each token tasks).Heeds token :=
  heeds_check rfl (heeds_eachFrom h 0)

end Reframe.Task
