import Mathlib.Data.List.Forall2
import Mathlib.Logic.Relation
import Mathlib.Tactic.Tauto
import Reframe.Pool.Task

/-!
# What a task can come to

A task that runs among others meets their notes and flags. `Task.Next` is one step
of a task when the log holds at least some notes and at least some flags are set,
and `Task.Ends` is a whole walk: the task ends with a value, or crashes.

A flag that is found set must be set; one that is found clear may be set later,
so finding it clear is always possible.

* `Task.ends_bind`, `Task.ends_attempt`: walks of composed tasks.
* `Task.ends_each`: what tasks done one after the other come to.
-/

namespace Reframe.Task

variable {ν ρ σ : Type} {log log' : List ν} {flags flags' : List Token} {token : Token}

/-- One step of a task among notes and flags. -/
inductive Next (log : List ν) (flags : List Token) : Task ν ρ → Task ν ρ → Prop
  | note {n : ν} {next : Task ν ρ} : n ∈ log → Next log flags (.note n next) next
  | sleep {time : Span} {next : Task ν ρ} : Next log flags (.sleep time next) next
  | cancel {token : Token} {next : Task ν ρ} :
      token ∈ flags → Next log flags (.cancel token next) next
  | await {token : Token} {next : Task ν ρ} :
      token ∈ flags → Next log flags (.await token next) next
  | set {token : Token} {next : Bool → Task ν ρ} :
      token ∈ flags → Next log flags (.check token next) (next true)
  | clear {token : Token} {next : Bool → Task ν ρ} :
      Next log flags (.check token next) (next false)

/-- The task that is over: with a value, or crashed. -/
def halted : Option ρ → Task ν ρ
  | some value => .done value
  | none => .crash

/-- Any number of steps. -/
abbrev Walks (log : List ν) (flags : List Token) : Task ν ρ → Task ν ρ → Prop :=
  Relation.ReflTransGen (Next log flags)

/-- The task can end like this: with a value, or crash. -/
def Ends (log : List ν) (flags : List Token) (t : Task ν ρ) (o : Option ρ) : Prop :=
  t.Walks log flags (halted o)

theorem Next.mono {t u : Task ν ρ} (h : Next log flags t u) (hl : log ⊆ log')
    (hf : flags ⊆ flags') : Next log' flags' t u := by
  cases h with
  | note hn => exact .note (hl hn)
  | sleep => exact .sleep
  | cancel ht => exact .cancel (hf ht)
  | await ht => exact .await (hf ht)
  | set ht => exact .set (hf ht)
  | clear => exact .clear

/-- More notes and more flags leave every walk possible. -/
theorem Walks.mono {t u : Task ν ρ} (h : t.Walks log flags u) (hl : log ⊆ log')
    (hf : flags ⊆ flags') : t.Walks log' flags' u := by
  induction h with
  | refl => exact .refl
  | tail _ step ih => exact ih.tail (step.mono hl hf)

theorem Ends.mono {t : Task ν ρ} {o : Option ρ} (h : t.Ends log flags o) (hl : log ⊆ log')
    (hf : flags ⊆ flags') : t.Ends log' flags' o :=
  Walks.mono h hl hf

/-- The task can end like this without finding the token set. -/
def EndsSpared (token : Token) (log : List ν) (t : Task ν ρ) (o : Option ρ) : Prop :=
  ∃ flags, token ∉ flags ∧ t.Ends log flags o

theorem EndsSpared.mono {t : Task ν ρ} {o : Option ρ} (h : t.EndsSpared token log o)
    (hl : log ⊆ log') : t.EndsSpared token log' o := by
  obtain ⟨flags, htoken, hends⟩ := h
  exact ⟨flags, htoken, hends.mono hl (List.Subset.refl _)⟩

theorem ends_iff {t : Task ν ρ} {o : Option ρ} :
    t.Ends log flags o ↔ t = halted o ∨ ∃ u, Next log flags t u ∧ u.Ends log flags o :=
  Relation.ReflTransGen.cases_head_iff

@[simp] theorem ends_done {value : ρ} {o : Option ρ} :
    (done value : Task ν ρ).Ends log flags o ↔ o = some value := by
  rw [ends_iff]
  constructor
  · rintro (h | ⟨_, h, _⟩)
    · cases o with
      | none => cases h
      | some v => cases h; rfl
    · cases h
  · rintro rfl
    exact .inl rfl

@[simp] theorem ends_crash {o : Option ρ} :
    (crash : Task ν ρ).Ends log flags o ↔ o = none := by
  rw [ends_iff]
  constructor
  · rintro (h | ⟨_, h, _⟩)
    · cases o with
      | none => rfl
      | some v => cases h
    · cases h
  · rintro rfl
    exact .inl rfl

/-- A task that is not over takes a step first. -/
theorem ends_iff_next {t : Task ν ρ} {o : Option ρ} (h : ∀ o, t ≠ halted o) :
    t.Ends log flags o ↔ ∃ u, Next log flags t u ∧ u.Ends log flags o := by
  rw [ends_iff]
  exact or_iff_right (h o)

@[simp] theorem ends_note {n : ν} {next : Task ν ρ} {o : Option ρ} :
    (note n next).Ends log flags o ↔ n ∈ log ∧ next.Ends log flags o := by
  rw [ends_iff_next (by rintro (_ | _) h <;> cases h)]
  constructor
  · rintro ⟨_, ⟨hn⟩, ho⟩
    exact ⟨hn, ho⟩
  · rintro ⟨hn, ho⟩
    exact ⟨next, .note hn, ho⟩

@[simp] theorem ends_sleep {time : Span} {next : Task ν ρ} {o : Option ρ} :
    (sleep time next).Ends log flags o ↔ next.Ends log flags o := by
  rw [ends_iff_next (by rintro (_ | _) h <;> cases h)]
  constructor
  · rintro ⟨_, ⟨⟩, ho⟩
    exact ho
  · intro ho
    exact ⟨next, .sleep, ho⟩

@[simp] theorem ends_cancel {next : Task ν ρ} {o : Option ρ} :
    (cancel token next).Ends log flags o ↔ token ∈ flags ∧ next.Ends log flags o := by
  rw [ends_iff_next (by rintro (_ | _) h <;> cases h)]
  constructor
  · rintro ⟨u, hu, ho⟩
    cases hu with
    | cancel ht => exact ⟨ht, ho⟩
  · rintro ⟨ht, ho⟩
    exact ⟨next, .cancel ht, ho⟩

@[simp] theorem ends_await {next : Task ν ρ} {o : Option ρ} :
    (await token next).Ends log flags o ↔ token ∈ flags ∧ next.Ends log flags o := by
  rw [ends_iff_next (by rintro (_ | _) h <;> cases h)]
  constructor
  · rintro ⟨u, hu, ho⟩
    cases hu with
    | await ht => exact ⟨ht, ho⟩
  · rintro ⟨ht, ho⟩
    exact ⟨next, .await ht, ho⟩

@[simp] theorem ends_check {next : Bool → Task ν ρ} {o : Option ρ} :
    (check token next).Ends log flags o ↔
      (token ∈ flags ∧ (next true).Ends log flags o) ∨ (next false).Ends log flags o := by
  rw [ends_iff_next (by rintro (_ | _) h <;> cases h)]
  constructor
  · rintro ⟨u, hu, ho⟩
    cases hu with
    | set ht => exact .inl ⟨ht, ho⟩
    | clear => exact .inr ho
  · rintro (⟨ht, ho⟩ | ho)
    · exact ⟨_, .set ht, ho⟩
    · exact ⟨_, .clear, ho⟩

/-- **One task after the other**: the second one goes on with the first one's value, and
a crash ends both. -/
theorem ends_bind {t : Task ν ρ} {k : ρ → Task ν σ} {o : Option σ} :
    (t.bind k).Ends log flags o ↔
      (t.Ends log flags none ∧ o = none) ∨
        ∃ value, t.Ends log flags (some value) ∧ (k value).Ends log flags o := by
  induction t with
  | done value => simp [Task.bind]
  | crash => simp [Task.bind]
  | note n next ih => simp only [Task.bind, ends_note, ih]; tauto
  | sleep time next ih => simp only [Task.bind, ends_sleep, ih]
  | cancel token next ih => simp only [Task.bind, ends_cancel, ih]; tauto
  | await token next ih => simp only [Task.bind, ends_await, ih]; tauto
  | check token next ih => simp only [Task.bind, ends_check, ih]; grind

/-- **A task whose crash is caught** ends with what the task came to. -/
theorem ends_attempt {t : Task ν ρ} {o : Option (Option ρ)} :
    t.attempt.Ends log flags o ↔ ∃ r, t.Ends log flags r ∧ o = some r := by
  induction t with
  | done value => simp [attempt]
  | crash => simp [attempt]
  | note n next ih => simp only [attempt, ends_note, ih]; tauto
  | sleep time next ih => simp only [attempt, ends_sleep, ih]
  | cancel token next ih => simp only [attempt, ends_cancel, ih]; tauto
  | await token next ih => simp only [attempt, ends_await, ih]; tauto
  | check token next ih => simp only [attempt, ends_check, ih]; grind

/-- What tasks that are done one after the other come to: all values, or the crash of one
of them, or nothing because the token was cancelled. -/
def EachResult (log : List ν) (flags : List Token) (token : Token) (i : Nat)
    (tasks : List (Task ν ρ)) : Except Fault (List ρ) → Prop
  | .ok values => List.Forall₂ (fun t value => t.Ends log flags (some value)) tasks values
  | .error (.crashed j) => ∃ k t, j = i + k ∧ tasks[k]? = some t ∧ t.Ends log flags none
  | .error .cancelled => token ∈ flags
  | .error _ => False

/-- The result of some tasks is the result of the first of them and the others. -/
theorem EachResult.cons {i : Nat} {t : Task ν ρ} {tasks : List (Task ν ρ)} {value : ρ}
    {result : Except Fault (List ρ)} (ht : t.Ends log flags (some value))
    (h : EachResult log flags token (i + 1) tasks result) :
    EachResult log flags token i (t :: tasks) (result.map (value :: ·)) := by
  rcases result with fault | values
  · cases fault with
    | crashed j =>
      obtain ⟨k, u, hj, hk, hu⟩ := h
      exact ⟨k + 1, u, by omega, hk, hu⟩
    | cancelled => exact h
    | lost reason => exact h
    | late limit => exact h
  · exact List.Forall₂.cons ht h

theorem ends_eachFrom {tasks : List (Task ν ρ)} : ∀ {i : Nat} {o : Option (Except Fault (List ρ))},
    (eachFrom token i tasks).Ends log flags o →
      ∃ result, o = some result ∧ EachResult log flags token i tasks result := by
  induction tasks with
  | nil =>
    intro i o h
    rw [eachFrom, ends_done] at h
    exact ⟨_, h, .nil⟩
  | cons t tasks ih =>
    intro i o h
    simp only [eachFrom, ends_check, if_true, Bool.false_eq_true, if_false, ends_done] at h
    rcases h with ⟨htoken, rfl⟩ | h
    · exact ⟨_, rfl, htoken⟩
    simp only [ends_bind, ends_attempt, Option.some.injEq, reduceCtorEq, and_false, exists_false,
      false_and, false_or] at h
    obtain ⟨r, ⟨_, hr, rfl⟩, h⟩ := h
    cases r with
    | none =>
      rw [ends_done] at h
      exact ⟨_, h, 0, t, rfl, rfl, hr⟩
    | some value =>
      simp only [ends_bind] at h
      -- doing the others does not crash: their crashes are caught
      rcases h with ⟨hnone, rfl⟩ | ⟨result, hresult, h⟩
      · obtain ⟨_, hcontra, _⟩ := ih hnone
        cases hcontra
      · obtain ⟨_, heq, hres⟩ := ih hresult
        cases heq
        refine ⟨_, ?_, hres.cons hr⟩
        cases result <;> exact ends_done.1 h

/-- **Tasks done one after the other** give all values in order, or the crash of one of
them; they give nothing else unless the token was cancelled. -/
theorem ends_each {tasks : List (Task ν ρ)} {o : Option (Except Fault (List ρ))}
    (h : (each token tasks).Ends log flags o) :
    ∃ result, o = some result ∧ EachResult log flags token 0 tasks result := by
  simp only [each, ends_check, if_true, Bool.false_eq_true, if_false, ends_done] at h
  rcases h with ⟨htoken, rfl⟩ | h
  · exact ⟨_, rfl, htoken⟩
  · exact ends_eachFrom h

end Reframe.Task
