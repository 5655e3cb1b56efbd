import Reframe.Pool.Fault

/-!
# Tasks

A task is the work of one worker: a sequence of small steps that ends with a
value, or crashes. Its steps are the points at which other tasks can come in
between: it may leave a note, sleep, set a cancel flag, wait for one, or look at
one. Flags are numbered; a token is the number of a flag.

* `Task.bind`: one task after the other; a crash ends both.
* `Task.attempt`: the task with its crash caught.
* `Task.each`: tasks one after the other on the same worker, in order, until one
  of them fails; every one looks at the token before it starts.
* `Task.height`: how many steps a task can take at most.
-/

namespace Reframe

/-- The number of a cancel flag. -/
abbrev Token : Type :=
  Nat

/-- The work of one worker: notes are of type `ν`, the value is of type `ρ`. -/
inductive Task (ν ρ : Type) : Type where
  | done (value : ρ)
  | crash
  | note (n : ν) (next : Task ν ρ)
  | sleep (time : Span) (next : Task ν ρ)
  | cancel (token : Token) (next : Task ν ρ)
  | await (token : Token) (next : Task ν ρ)
  | check (token : Token) (next : Bool → Task ν ρ)

namespace Task

variable {ν ρ σ : Type}

/-- The first task, then the one that its value chooses. -/
def bind : Task ν ρ → (ρ → Task ν σ) → Task ν σ
  | done value, k => k value
  | crash, _ => crash
  | note n next, k => note n (next.bind k)
  | sleep time next, k => sleep time (next.bind k)
  | cancel token next, k => cancel token (next.bind k)
  | await token next, k => await token (next.bind k)
  | check token next, k => check token fun set => (next set).bind k

instance : Monad (Task ν) where
  pure := done
  bind := bind

/-- The task with its crash caught: `none` if it crashes. -/
def attempt : Task ν ρ → Task ν (Option ρ)
  | done value => done (some value)
  | crash => done none
  | note n next => note n next.attempt
  | sleep time next => sleep time next.attempt
  | cancel token next => cancel token next.attempt
  | await token next => await token next.attempt
  | check token next => check token fun set => (next set).attempt

/-- A bound on the number of steps. -/
def height : Task ν ρ → Nat
  | done _ => 0
  | crash => 0
  | note _ next => next.height + 1
  | sleep _ next => next.height + 1
  | cancel _ next => next.height + 1
  | await _ next => next.height + 1
  | check _ next => max (next true).height (next false).height + 1

/-- The tasks from index `i` on, one after the other, unless the token is cancelled
before one of them or one of them crashes. -/
def eachFrom (token : Token) (i : Nat) : List (Task ν ρ) → Task ν (Except Fault (List ρ))
  | [] => done (.ok [])
  | task :: tasks => check token fun set =>
    if set then done (.error .cancelled)
    else task.attempt.bind fun
      | none => done (.error (.crashed i))
      | some value => (eachFrom token (i + 1) tasks).bind fun
        | .error fault => done (.error fault)
        | .ok values => done (.ok (value :: values))

/-- The tasks one after the other on the same worker, unless the token is cancelled. -/
def each (token : Token) (tasks : List (Task ν ρ)) : Task ν (Except Fault (List ρ)) :=
  check token fun set => if set then done (.error .cancelled) else eachFrom token 0 tasks

theorem height_next_lt (next : Bool → Task ν ρ) (token : Token) (set : Bool) :
    (next set).height < (check token next).height := by
  cases set <;> simp only [height] <;> omega

end Task

end Reframe
