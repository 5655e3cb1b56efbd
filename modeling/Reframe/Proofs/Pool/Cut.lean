import Reframe.Proofs.Pool.Act

/-!
# What a set flag rules out

Once a flag is set it stays set, so no task will find it clear any more. What a task would
do after finding it clear can be cut away, and so can the tasks that are queued under the
flag: the pool goes on exactly as it would have. In other words, whatever was cut away is
never done.

* `Task.cut`, `Pool.cut`: without what comes after finding a flag clear.
* `Task.cut_each`: of a batch within a task, nothing but its refusal is left.
* `Pool.run_cut`: **cutting changes nothing**, whatever happens from then on.
* `Pool.run_congr_cut`: pools that only differ in what is cut away do the same.
-/

namespace Reframe

variable {ν ρ σ : Type} {token : Token}

namespace Task

/-- The task without what it would do after finding the flag clear. -/
def cut (token : Token) : Task ν ρ → Task ν ρ
  | done value => done value
  | crash => crash
  | note n next => note n (next.cut token)
  | sleep time next => sleep time (next.cut token)
  | cancel t next => cancel t (next.cut token)
  | await t next => await t (next.cut token)
  | check t next => check t fun set => (next (set || decide (t = token))).cut token

theorem cut_bind (t : Task ν ρ) (k : ρ → Task ν σ) :
    (t.bind k).cut token = (t.cut token).bind fun value => (k value).cut token := by
  induction t with
  | done value => rfl
  | crash => rfl
  | note n next ih => exact congrArg (note n) ih
  | sleep time next ih => exact congrArg (sleep time) ih
  | cancel t next ih => exact congrArg (cancel t) ih
  | await t next ih => exact congrArg (await t) ih
  | check t next ih => exact congrArg (check t) (funext fun set => ih _)

/-- A batch that a task submits under the flag is cut down to its refusal, whatever its
tasks are. -/
theorem cut_each (tasks : List (Task ν σ)) (k : Except Fault (List σ) → Task ν ρ) :
    ((each token tasks).bind k).cut token =
      check token fun _ => (k (.error .cancelled)).cut token := by
  rw [cut_bind]
  simp [each, cut, bind]

/-- So is the rest of such a batch that is under way. -/
theorem cut_eachFrom (i : Nat) (t : Task ν σ) (tasks : List (Task ν σ))
    (k : Except Fault (List σ) → Task ν ρ) :
    ((eachFrom token i (t :: tasks)).bind k).cut token =
      check token fun _ => (k (.error .cancelled)).cut token := by
  rw [cut_bind]
  simp [eachFrom, cut, bind]

end Task

/-- The phase without what is ruled out: of a task in the queue nothing is left if its
batch is under the flag. -/
def Phase.cut (token : Token) (under : Bool) : Phase ν ρ → Phase ν ρ
  | queued t => queued (if under then .crash else t.cut token)
  | running ready t => running ready (t.cut token)
  | ended o => ended o
  | sent => sent

/-- The batch without what is ruled out. -/
def Batch.cut (token : Token) (b : Batch ν ρ) : Batch ν ρ :=
  { b with phases := b.phases.map (Phase.cut token (decide (b.token = token))) }

/-- The pool without what is ruled out. -/
def Pool.cut (token : Token) (p : Pool ν ρ) : Pool ν ρ :=
  { p with batches := p.batches.map (Batch.cut token) }

/-- The event without what is ruled out. -/
def Event.cut (token : Token) : Event ν ρ → Event ν ρ
  | move m => move m
  | submit t tasks => submit t (tasks.map (Task.cut token))
  | cancel t => cancel t

namespace Phase

variable {under : Bool}

@[simp] theorem isBusy_cut (ph : Phase ν ρ) : (ph.cut token under).isBusy = ph.isBusy := by
  cases ph <;> rfl

@[simp] theorem isSent_cut (ph : Phase ν ρ) : (ph.cut token under).isSent = ph.isSent := by
  cases ph <;> rfl

end Phase

namespace Batch

variable {b : Batch ν ρ} {i : Nat}

theorem getElem?_cut (b : Batch ν ρ) (i : Nat) :
    (b.cut token).phases[i]? = (b.phases[i]?).map (Phase.cut token (decide (b.token = token))) := by
  simp [cut]

theorem setPhase_cut (b : Batch ν ρ) (i : Nat) (ph : Phase ν ρ) :
    (b.setPhase i ph).cut token =
      (b.cut token).setPhase i (ph.cut token (decide (b.token = token))) := by
  simp only [setPhase, cut, List.map_set]
  rfl

theorem post_cut (b : Batch ν ρ) (i : Nat) (o : Except Fault ρ) :
    (b.post i o).cut token = (b.cut token).post i o := by
  unfold post
  rw [show (b.cut token).result = b.result from rfl]
  split <;> rfl

theorem accept_cut (b : Batch ν ρ) (i : Nat) (value : ρ) :
    (b.accept i value).cut token = (b.cut token).accept i value := by
  unfold accept
  extract_lets b₁ b₂
  have hreceived : b₂.received = b₂.phases.length ↔ b₁.received = b₁.phases.length := by
    simp [b₁, b₂, cut]
  by_cases h : b₁.received = b₁.phases.length
  · rw [if_pos h, if_pos (hreceived.2 h)]
    rfl
  · rw [if_neg h, if_neg (mt hreceived.1 h)]
    rfl

/-- Nothing is missing of a batch that is put into the queue under another token. -/
theorem queue_cut {t : Token} {deadline : Option Span} (h : decide (t = token) = false)
    (tasks : List (Task ν ρ)) :
    (queue t deadline tasks).cut token = queue t deadline (tasks.map (Task.cut token)) := by
  have h : decide ((queue t deadline tasks).token = token) = false := h
  rw [cut, h, queue, List.map_map, queue, List.map_map, List.map_map]
  rfl

theorem all_isSent_cut (b : Batch ν ρ) :
    (b.cut token).phases.all Phase.isSent = b.phases.all Phase.isSent := by
  simp [cut, List.all_map, Function.comp_def]

theorem phases_cut_ne_nil (b : Batch ν ρ) : (b.cut token).phases ≠ [] ↔ b.phases ≠ [] := by
  rw [cut, ne_eq, ne_eq, List.map_eq_nil_iff]

theorem countP_isBusy_cut (b : Batch ν ρ) :
    (b.cut token).phases.countP Phase.isBusy = b.phases.countP Phase.isBusy := by
  simp [cut, List.countP_map, Function.comp_def]

end Batch

namespace Pool

variable {p q r : Pool ν ρ} {bi i : Nat}

theorem getElem?_cut (p : Pool ν ρ) (bi : Nat) :
    (p.cut token).batches[bi]? = (p.batches[bi]?).map (Batch.cut token) := by
  simp [cut]

theorem busy_cut (p : Pool ν ρ) : (p.cut token).busy = p.busy := by
  simp [busy, cut, Function.comp_def, Batch.countP_isBusy_cut]

theorem result?_cut (p : Pool ν ρ) (bi : Nat) : (p.cut token).result? bi = p.result? bi := by
  rw [result?, result?, getElem?_cut]
  cases p.batches[bi]? <;> rfl

theorem setBatch_cut (p : Pool ν ρ) (bi : Nat) (b : Batch ν ρ) :
    (p.setBatch bi b).cut token = (p.cut token).setBatch bi (b.cut token) := by
  simp [setBatch, cut, List.map_set]

theorem setPhase_cut (p : Pool ν ρ) (b : Batch ν ρ) (bi i : Nat) (ph : Phase ν ρ) :
    (p.setPhase b bi i ph).cut token =
      (p.cut token).setPhase (b.cut token) bi i (ph.cut token (decide (b.token = token))) := by
  rw [setPhase, setBatch_cut, Batch.setPhase_cut, setPhase]

theorem cancel_cut (p : Pool ν ρ) (t : Token) :
    (p.cancel t).cut token = (p.cut token).cancel t := by
  unfold cancel
  by_cases h : p.IsCancelled t
  · rw [if_pos h, if_pos (show (p.cut token).IsCancelled t from h)]
  · rw [if_neg h, if_neg (show ¬ (p.cut token).IsCancelled t from h)]
    rfl

theorem fail_cut (p : Pool ν ρ) (b : Batch ν ρ) (bi : Nat) (fault : Fault) :
    (p.fail b bi fault).cut token = (p.cut token).fail (b.cut token) bi fault := by
  rw [fail, setBatch_cut, cancel_cut, fail]
  rfl

/-- A task that would start under the flag does not, so nothing of it is missing. -/
theorem start?_cut (h : token ∈ p.cancelled) (bi i : Nat) :
    (p.cut token).start? bi i = (p.start? bi i).map (cut token) := by
  unfold start?
  rw [getElem?_cut]
  cases p.batches[bi]? with
  | none => rfl
  | some b =>
    simp only [Option.map_some, Option.bind_eq_bind, Option.bind_some, Batch.getElem?_cut]
    cases b.phases[i]? with
    | none => rfl
    | some ph =>
      cases ph with
      | queued t =>
        simp only [Option.map_some, Phase.cut, busy_cut]
        by_cases hfree : p.busy < p.workers
        · rw [if_pos hfree, if_pos (show p.busy < (p.cut token).workers from hfree),
            Option.map_some, setPhase_cut]
          by_cases hset : p.IsCancelled b.token
          · rw [if_pos hset, if_pos (show (p.cut token).IsCancelled (b.cut token).token from hset)]
            rfl
          · have hunder : decide (b.token = token) = false := by
              refine decide_eq_false ?_
              rintro rfl
              exact hset h
            have hset' : ¬ (p.cut token).IsCancelled (b.cut token).token := hset
            rw [if_neg hset, if_neg hset', hunder]
            rfl
        · rw [if_neg hfree, if_neg (show ¬ p.busy < (p.cut token).workers from hfree)]
          rfl
      | running ready t => rfl
      | ended o => rfl
      | sent => rfl

/-- A task that looks at the flag finds it set. -/
theorem act_cut (h : token ∈ p.cancelled) (under : Bool) (i : Nat) (t : Task ν ρ) :
    (t.cut token).act i (p.cut token) =
      (t.act i p).map fun a => (a.1.cut token, a.2.cut token under) := by
  cases t with
  | done value => rfl
  | crash => rfl
  | note n next => rfl
  | sleep time next => rfl
  | cancel t next => simp only [Task.cut, Task.act, Option.map_some, cancel_cut, Phase.cut]; rfl
  | await t next =>
    simp only [Task.cut, Task.act]
    by_cases hset : p.IsCancelled t
    · rw [if_pos hset, if_pos (show (p.cut token).IsCancelled t from hset)]
      rfl
    · rw [if_neg hset, if_neg (show ¬ (p.cut token).IsCancelled t from hset)]
      rfl
  | check t next =>
    have hfound : (decide ((p.cut token).IsCancelled t) || decide (t = token)) =
        decide (p.IsCancelled t) := by
      by_cases heq : t = token
      · subst heq
        have hset : p.IsCancelled t := h
        rw [decide_eq_true hset, decide_eq_true rfl, Bool.or_true]
      · rw [decide_eq_false heq, Bool.or_false]
        rfl
    simp only [Task.cut, Task.act, Option.map_some, Phase.cut]
    rw [hfound]
    rfl

theorem advance?_cut (h : token ∈ p.cancelled) (bi i : Nat) :
    (p.cut token).advance? bi i = (p.advance? bi i).map (cut token) := by
  cases hb : p.batches[bi]? with
  | none => simp [advance?, getElem?_cut, hb]
  | some b =>
    have hb' : (p.cut token).batches[bi]? = some (b.cut token) := by rw [getElem?_cut, hb]; rfl
    have hi' : (b.cut token).phases[i]? =
        (b.phases[i]?).map (Phase.cut token (decide (b.token = token))) := Batch.getElem?_cut b i
    cases hi : b.phases[i]? with
    | none => simp [advance?, hb, hb', hi', hi]
    | some ph =>
      rw [hi] at hi'
      cases ph with
      | running ready t =>
        have hi' : (b.cut token).phases[i]? = some (.running ready (t.cut token)) := hi'
        have hact := act_cut (p := p.atTime ready) h (decide (b.token = token)) i t
        rw [advance?_running hb' hi', advance?_running hb hi]
        change ((t.cut token).act i ((p.atTime ready).cut token)).map _ = _
        rw [hact, Option.map_map, Option.map_map]
        congr 1
        funext a
        exact (setPhase_cut a.1 b bi i a.2).symm
      | queued t => simp [advance?, hb, hb', hi', hi, Phase.cut]
      | ended o => simp [advance?, hb, hb', hi', hi, Phase.cut]
      | sent => simp [advance?, hb, hb', hi', hi, Phase.cut]

theorem send?_cut (p : Pool ν ρ) (bi i : Nat) :
    (p.cut token).send? bi i = (p.send? bi i).map (cut token) := by
  unfold send?
  rw [getElem?_cut]
  cases p.batches[bi]? with
  | none => rfl
  | some b =>
    simp only [Option.map_some, Option.bind_eq_bind, Option.bind_some, Batch.getElem?_cut]
    cases b.phases[i]? with
    | none => rfl
    | some ph =>
      cases ph with
      | ended o =>
        simp only [Option.map_some, Phase.cut]
        rw [setBatch_cut, Batch.post_cut, Batch.setPhase_cut]
        rfl
      | queued t => rfl
      | running ready t => rfl
      | sent => rfl

theorem receive?_cut (p : Pool ν ρ) (bi : Nat) :
    (p.cut token).receive? bi = (p.receive? bi).map (cut token) := by
  unfold receive?
  rw [getElem?_cut]
  cases p.batches[bi]? with
  | none => rfl
  | some b =>
    simp only [Option.map_some, Option.bind_eq_bind, Option.bind_some, Batch.all_isSent_cut,
      Batch.phases_cut_ne_nil]
    by_cases hr : b.result.isSome
    · rw [if_pos hr, if_pos (show (b.cut token).result.isSome from hr)]
      rfl
    rw [if_neg hr, if_neg (show ¬ (b.cut token).result.isSome from hr)]
    cases hin : b.inbox with
    | nil =>
      rw [show (b.cut token).inbox = [] from hin]
      simp only
      split
      · exact congrArg some (setBatch_cut p bi (b.finish _)).symm
      · rfl
    | cons message rest =>
      rw [show (b.cut token).inbox = message :: rest from hin]
      obtain ⟨i, fault | value⟩ := message
      · exact congrArg some (fail_cut p { b with inbox := rest } bi fault).symm
      · simp only [Option.map_some]
        rw [setBatch_cut, Batch.accept_cut]
        rfl

theorem expire?_cut (p : Pool ν ρ) (bi : Nat) :
    (p.cut token).expire? bi = (p.expire? bi).map (cut token) := by
  unfold expire?
  rw [getElem?_cut]
  cases p.batches[bi]? with
  | none => rfl
  | some b =>
    simp only [Option.map_some, Option.bind_eq_bind, Option.bind_some]
    rw [Option.map_bind]
    change p.limit.bind _ = p.limit.bind _
    congr 1
    funext limit
    rw [Function.comp_apply, Option.map_bind]
    change b.deadline.bind _ = b.deadline.bind _
    congr 1
    funext deadline
    rw [Function.comp_apply]
    by_cases hr : b.result.isSome
    · rw [if_pos hr, if_pos (show (b.cut token).result.isSome from hr)]
      rfl
    · rw [if_neg hr, if_neg (show ¬ (b.cut token).result.isSome from hr)]
      exact congrArg some (fail_cut (p.atTime deadline) b bi (.late limit)).symm

theorem move?_cut (h : token ∈ p.cancelled) (m : Move) :
    (p.cut token).move? m = (p.move? m).map (cut token) := by
  cases m with
  | start b i => exact start?_cut h b i
  | advance b i => exact advance?_cut h b i
  | send b i => exact send?_cut p b i
  | receive b => exact receive?_cut p b
  | expire b => exact expire?_cut p b

theorem batchOf_cut (p : Pool ν ρ) (t : Token) (tasks : List (Task ν ρ)) (h : token ∈ p.cancelled) :
    (p.batchOf t tasks).cut token = (p.cut token).batchOf t (tasks.map (Task.cut token)) := by
  unfold batchOf
  by_cases hset : p.IsCancelled t
  · rw [if_pos hset, if_pos (show (p.cut token).IsCancelled t from hset)]
    rfl
  have hunder : decide (t = token) = false := by
    refine decide_eq_false ?_
    rintro rfl
    exact hset h
  rw [if_neg hset, if_neg (show ¬ (p.cut token).IsCancelled t from hset)]
  cases tasks with
  | nil => rfl
  | cons task tasks =>
    by_cases htime : p.CanTime
    · rw [if_pos htime, if_pos (show (p.cut token).CanTime from htime)]
      exact Batch.queue_cut hunder (task :: tasks)
    · rw [if_neg htime, if_neg (show ¬ (p.cut token).CanTime from htime)]
      rfl

theorem submit_cut (p : Pool ν ρ) (t : Token) (tasks : List (Task ν ρ)) (h : token ∈ p.cancelled) :
    (p.submit t tasks).cut token = (p.cut token).submit t (tasks.map (Task.cut token)) := by
  rw [submit, submit, ← batchOf_cut p t tasks h]
  simp only [cut, List.map_append, List.map_cons, List.map_nil]

/-- **Cutting changes nothing**: what an event does, it does to what is left. -/
theorem step_cut (h : token ∈ p.cancelled) (e : Event ν ρ) :
    (p.step e).cut token = (p.cut token).step (e.cut token) := by
  cases e with
  | move m =>
    simp only [step, Event.cut, move?_cut h]
    cases p.move? m <;> rfl
  | submit t tasks => exact submit_cut p t tasks h
  | cancel t => exact cancel_cut p t

theorem run_cut (h : token ∈ p.cancelled) (events : List (Event ν ρ)) :
    (p.run events).cut token = (p.cut token).run (events.map (Event.cut token)) := by
  induction events generalizing p with
  | nil => rfl
  | cons e events ih =>
    rw [run_cons, List.map_cons, run_cons, ← step_cut h]
    exact ih ((grows_step p e).flags h)

/-- **What is cut away is never done**: pools that differ in nothing else do the same,
whatever happens to them. -/
theorem run_congr_cut (h : token ∈ p.cancelled) (hr : r.cut token = p.cut token)
    {events others : List (Event ν ρ)}
    (he : others.map (Event.cut token) = events.map (Event.cut token)) :
    (r.run others).cut token = (p.run events).cut token := by
  have hflags : (r.cut token).cancelled = (p.cut token).cancelled := by rw [hr]
  have hset : token ∈ r.cancelled := by
    change token ∈ (r.cut token).cancelled
    rw [hflags]
    exact h
  rw [run_cut h, run_cut hset, hr, he]

end Pool

end Reframe
