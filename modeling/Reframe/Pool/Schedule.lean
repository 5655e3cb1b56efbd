import Reframe.Pool.Progress

/-!
# The punctual schedule

Of all runs of a pool one is followed to compute answers: messages are sent and
taken at once, a free worker takes the next task of the queue at once, and
running tasks step in the order of their times. Time passes only in sleep; when
the next step lies behind the deadline of the batch waited for, or when there is
none, the waiting ends.

* `Pool.next?`: the next move while a batch is waited for.
* `Pool.settle`: the moves until the batch has a result.
* `Client`, `Client.run`: work that submits batches one after the other.
-/

namespace Reframe

variable {ν ρ β γ : Type}

namespace Pool

/-- Every task with its batch, its index and its phase. -/
def tasks (p : Pool ν ρ) : List (Nat × Nat × Phase ν ρ) :=
  p.batches.zipIdx.flatMap fun b => b.1.phases.zipIdx.map fun t => (b.2, t.2, t.1)

/-- The result of a batch. -/
def result? (p : Pool ν ρ) (b : Nat) : Option (Except Fault (List ρ)) := do
  (← p.batches[b]?).result

/-- A message can be taken. -/
def nextReceive? (p : Pool ν ρ) (b : Nat) : Option Move := do
  let batch ← p.batches[b]?
  if batch.inbox.isEmpty then none else some (.receive b)

/-- The first message that can be sent. -/
def nextSend? (p : Pool ν ρ) : Option Move :=
  p.tasks.findSome? fun
    | (b, i, .ended _) => some (.send b i)
    | _ => none

/-- The first task that a free worker can take. -/
def nextStart? (p : Pool ν ρ) : Option Move :=
  if p.busy < p.workers then
    p.tasks.findSome? fun
      | (b, i, .queued _) => some (.start b i)
      | _ => none
  else none

/-- When a running task takes its next step, unless it waits for a flag. -/
def readyTime? (p : Pool ν ρ) : Phase ν ρ → Option Span
  | .running ready (.await token _) =>
    if p.IsCancelled token then some (max p.clock ready) else none
  | .running ready _ => some (max p.clock ready)
  | _ => none

/-- The earliest step of a running task, with its time. -/
def earliest? (p : Pool ν ρ) : Option (Span × Nat × Nat) :=
  p.tasks.foldl
    (fun best t =>
      match p.readyTime? t.2.2, best with
      | none, _ => best
      | some time, none => some (time, t.1, t.2.1)
      | some time, some (least, _) => if time < least then some (time, t.1, t.2.1) else best)
    none

/-- The earliest step, or the end of the waiting if that comes first. -/
def nextTimed? (p : Pool ν ρ) (b : Nat) : Option Move :=
  let deadline := do (← p.batches[b]?).deadline
  match p.earliest?, deadline with
  | some (time, bi, i), some d => some (if d < time then .expire b else .advance bi i)
  | some (_, bi, i), none => some (.advance bi i)
  | none, some _ => some (.expire b)
  | none, none => none

/-- The next move while batch `b` is waited for. -/
def next? (p : Pool ν ρ) (b : Nat) : Option Move :=
  p.nextReceive? b <|> p.nextSend? <|> p.nextStart? <|> p.nextTimed? b

/-- The pool once batch `b` has a result, or nothing can move any more. -/
def settle (p : Pool ν ρ) (b : Nat) : Pool ν ρ :=
  if (p.result? b).isSome then p
  else
    match p.next? b with
    | none => p
    | some m =>
      match h : p.move? m with
      | none => p
      | some q =>
        have := potential_lt_of_move? h
        q.settle b
termination_by p.potential

end Pool

/-- Work that submits batches and waits for each before it goes on. -/
inductive Client (ν ρ β : Type) : Type where
  | done (value : β)
  | call (token : Token) (tasks : List (Task ν ρ))
      (next : Except Fault (List ρ) → Client ν ρ β)

namespace Client

/-- The first work, then the one that its value chooses. -/
def bind : Client ν ρ β → (β → Client ν ρ γ) → Client ν ρ γ
  | done value, k => k value
  | call token tasks next, k => call token tasks fun result => (next result).bind k

instance : Monad (Client ν ρ) where
  pure := done
  bind := bind

/-- Submits one batch. -/
def fanOut (token : Token) (tasks : List (Task ν ρ)) : Client ν ρ (Except Fault (List ρ)) :=
  call token tasks done

/-- The value of the work and the pool after it, by the punctual schedule. There is
none when a batch never ends. -/
def run (p : Pool ν ρ) : Client ν ρ β → Option (β × Pool ν ρ)
  | done value => some (value, p)
  | call token tasks next =>
    let b := p.batches.length
    let q := (p.submit token tasks).settle b
    match q.result? b with
    | some result => (next result).run q
    | none => none

end Client

end Reframe
