import Reframe.Proofs.Pool.Step

/-!
# Pools of tasks of one kind

What every task has when it is submitted, and keeps with each of its steps, every
task that is left in a pool has. Three kinds of tasks matter: prompt ones never wait
for a flag, sparing ones never set a certain flag, and quiet ones do neither.

* `Pool.only_run`: a pool keeps to the kind of tasks that are submitted.
* `Task.Quiet.bind`, `Task.quiet_each`: quiet tasks compose.
-/

namespace Reframe

variable {ν ρ σ : Type}

namespace Task

variable {log : List ν} {flags : List Token} {token : Token} {t u : Task ν ρ}

/-- What a task has, it keeps with each step. -/
def IsKept (P : Task ν ρ → Prop) : Prop :=
  ∀ log flags t u, P t → Next log flags t u → P u

/-- The task never waits for a flag. -/
def Prompt : Task ν ρ → Prop
  | done _ => True
  | crash => True
  | note _ next => next.Prompt
  | sleep _ next => next.Prompt
  | cancel _ next => next.Prompt
  | await _ _ => False
  | check _ next => ∀ set, (next set).Prompt

/-- The task never sets a certain flag. -/
def Spares (token : Token) : Task ν ρ → Prop
  | done _ => True
  | crash => True
  | note _ next => next.Spares token
  | sleep _ next => next.Spares token
  | cancel t next => t ≠ token ∧ next.Spares token
  | await _ next => next.Spares token
  | check _ next => ∀ set, (next set).Spares token

/-- The task has nothing to do with flags but to look at them. -/
def Quiet : Task ν ρ → Prop
  | done _ => True
  | crash => True
  | note _ next => next.Quiet
  | sleep _ next => next.Quiet
  | cancel _ _ => False
  | await _ _ => False
  | check _ next => ∀ set, (next set).Quiet

theorem isKept_prompt : IsKept (Prompt : Task ν ρ → Prop) := by
  intro log flags t u h hnext
  cases hnext with
  | note => exact h
  | sleep => exact h
  | cancel => exact h
  | await => exact h.elim
  | set => exact h true
  | clear => exact h false

theorem isKept_spares (token : Token) : IsKept (Spares token : Task ν ρ → Prop) := by
  intro log flags t u h hnext
  cases hnext with
  | note => exact h
  | sleep => exact h
  | cancel => exact h.2
  | await => exact h
  | set => exact h true
  | clear => exact h false

theorem Quiet.prompt (h : t.Quiet) : t.Prompt := by
  induction t with
  | done value => trivial
  | crash => trivial
  | note n next ih => exact ih h
  | sleep time next ih => exact ih h
  | cancel token next ih => exact h.elim
  | await token next ih => exact h.elim
  | check token next ih => exact fun set => ih set (h set)

theorem Quiet.spares (h : t.Quiet) (token : Token) : t.Spares token := by
  induction t with
  | done value => trivial
  | crash => trivial
  | note n next ih => exact ih h
  | sleep time next ih => exact ih h
  | cancel token next ih => exact h.elim
  | await token next ih => exact h.elim
  | check token next ih => exact fun set => ih set (h set)

/-- **Quiet tasks compose.** -/
theorem Quiet.bind {k : ρ → Task ν σ} (h : t.Quiet) (hk : ∀ value, (k value).Quiet) :
    (t.bind k).Quiet := by
  induction t with
  | done value => exact hk value
  | crash => trivial
  | note n next ih => exact ih h
  | sleep time next ih => exact ih h
  | cancel token next ih => exact h.elim
  | await token next ih => exact h.elim
  | check token next ih => exact fun set => ih set (h set)

theorem Quiet.attempt (h : t.Quiet) : t.attempt.Quiet := by
  induction t with
  | done value => trivial
  | crash => trivial
  | note n next ih => exact ih h
  | sleep time next ih => exact ih h
  | cancel token next ih => exact h.elim
  | await token next ih => exact h.elim
  | check token next ih => exact fun set => ih set (h set)

theorem quiet_eachFrom {tasks : List (Task ν ρ)} (h : ∀ t ∈ tasks, t.Quiet) (i : Nat) :
    (eachFrom token i tasks).Quiet := by
  induction tasks generalizing i with
  | nil => trivial
  | cons t tasks ih =>
    have ht := h t List.mem_cons_self
    have hrest := ih fun u hu => h u (List.mem_cons_of_mem _ hu)
    intro set
    cases set with
    | true => trivial
    | false =>
      refine ht.attempt.bind fun value => ?_
      cases value with
      | none => trivial
      | some value =>
        refine (hrest (i + 1)).bind fun result => ?_
        cases result <;> trivial

/-- Quiet tasks done one after the other are quiet. -/
theorem quiet_each {tasks : List (Task ν ρ)} (h : ∀ t ∈ tasks, t.Quiet) :
    (each token tasks).Quiet := by
  intro set
  cases set with
  | true => trivial
  | false => exact quiet_eachFrom h 0

end Task

/-- The task of the phase is of a kind. -/
def Phase.Only (P : Task ν ρ → Prop) : Phase ν ρ → Prop
  | queued t => P t
  | running _ t => P t
  | ended _ => True
  | sent => True

/-- All tasks that are left are of a kind. -/
def Batch.Only (P : Task ν ρ → Prop) (b : Batch ν ρ) : Prop :=
  ∀ ph ∈ b.phases, ph.Only P

/-- Only tasks of a kind are submitted. -/
def Event.Only (P : Task ν ρ → Prop) : Event ν ρ → Prop
  | move _ => True
  | submit _ tasks => ∀ t ∈ tasks, P t
  | cancel _ => True

variable {P : Task ν ρ → Prop}

theorem Batch.Only.step {p q : Pool ν ρ} {bi : Nat} {b b' : Batch ν ρ} {e : Event ν ρ}
    (hP : Task.IsKept P) (h : b.Only P) (hstep : Step p q bi b e b') : b'.Only P := by
  have hset : ∀ {i : Nat} {ph : Phase ν ρ}, ph.Only P → (b.setPhase i ph).Only P := by
    intro i ph hph ph' hmem
    rcases List.mem_or_eq_of_mem_set hmem with hmem | rfl
    · exact h ph' hmem
    · exact hph
  cases hstep with
  | stay => exact h
  | begin hi =>
    have ht : P _ := h _ (List.mem_of_getElem? hi)
    exact hset ht
  | skip => exact hset trivial
  | go hi hnext =>
    -- the only step that changes a task
    have ht : P _ := h _ (List.mem_of_getElem? hi)
    have hu : P _ := hP _ _ _ _ ht hnext
    exact hset hu
  | stop => exact hset trivial
  | send =>
    intro ph hmem
    rw [phases_post] at hmem
    have hsent : (.sent : Phase ν ρ).Only P := trivial
    exact hset hsent ph hmem
  | accept =>
    intro ph hmem
    rw [phases_accept] at hmem
    exact h ph hmem
  | refuse => exact h
  | lose => exact h
  | expire => exact h

namespace Pool

variable {p q : Pool ν ρ} {m : Move} {token : Token} {tasks : List (Task ν ρ)}
  {events : List (Event ν ρ)}

/-- All tasks that are left in the pool are of a kind. -/
def Only (P : Task ν ρ → Prop) (p : Pool ν ρ) : Prop :=
  ∀ b ∈ p.batches, b.Only P

theorem only_idle (workers : Nat) (limit : Option Span) (horizon : Span) :
    (idle workers limit horizon : Pool ν ρ).Only P := by
  simp [Only, idle]

theorem Only.move (hP : Task.IsKept P) (h : p.Only P) (hm : p.move? m = some q) : q.Only P := by
  obtain ⟨bi, old, new, hold, hq, hstep, -⟩ := turns_move hm
  intro b hb
  rw [hq] at hb
  rcases List.mem_or_eq_of_mem_set hb with hb | rfl
  · exact h b hb
  · exact (h old (List.mem_of_getElem? hold)).step hP hstep

theorem Only.submit (h : p.Only P) (htasks : ∀ t ∈ tasks, P t) : (p.submit token tasks).Only P := by
  intro b hb
  rcases List.mem_append.1 hb with hb | hb
  · exact h b hb
  obtain rfl := List.mem_singleton.1 hb
  rcases p.batchOf_cases token tasks with ⟨-, heq⟩ | ⟨-, heq⟩ | ⟨-, heq⟩ | ⟨-, heq⟩
  · rw [heq]
    exact fun ph hph => absurd hph List.not_mem_nil
  · rw [heq]
    exact fun ph hph => absurd hph List.not_mem_nil
  · rw [heq]
    intro ph hph
    obtain ⟨t, ht, rfl⟩ := List.mem_map.1 hph
    exact htasks t ht
  · rw [heq]
    exact fun ph hph => absurd hph List.not_mem_nil

theorem Only.event {e : Event ν ρ} (hP : Task.IsKept P) (h : p.Only P) (he : e.Only P) :
    (p.step e).Only P := by
  cases e with
  | move m =>
    cases hm : p.move? m with
    | none => rwa [step, hm]
    | some q => rw [step_move hm]; exact h.move hP hm
  | submit token tasks => exact h.submit he
  | cancel token =>
    intro b hb
    rw [step, batches_cancel] at hb
    exact h b hb

/-- **A pool keeps to the kind of tasks that are submitted.** -/
theorem only_run (hP : Task.IsKept P) (h : p.Only P) (he : ∀ e ∈ events, e.Only P) :
    (p.run events).Only P := by
  induction events generalizing p with
  | nil => exact h
  | cons e events ih =>
    have hhead := h.event hP (he e List.mem_cons_self)
    exact ih hhead fun e' he' => he e' (List.mem_cons_of_mem _ he')

end Pool

end Reframe
