import Mathlib.Tactic.Push
import Reframe.Proofs.Pool.Only

/-!
# Every batch gets its result

While a batch of a pool of prompt tasks is waited for, some move can be made that is
not the end of its time: a busy worker can go on, or a task can start, or a message can
be taken. As every move uses up something, the batch gets its result whatever moves are
made.

* `Pool.exists_move`: nothing is stuck.
* `Pool.settles`: every sequence of moves leads to a result.
-/

namespace Reframe

variable {ν ρ : Type}

/-- The batch is not abandoned: it has tasks, or it has its result. -/
def Batch.IsServed (b : Batch ν ρ) : Prop :=
  b.phases = [] → b.result ≠ none

/-- A batch stays served. -/
theorem Batch.IsServed.step {p q : Pool ν ρ} {bi : Nat} {b b' : Batch ν ρ} {e : Event ν ρ}
    (h : b.IsServed) (hstep : Batch.Step p q bi b e b') : b'.IsServed := by
  intro hempty
  have hlen := hstep.length_phases
  rw [hempty, List.length_nil] at hlen
  obtain ⟨r, hr⟩ := Option.ne_none_iff_exists'.1 (h (List.length_eq_zero_iff.1 hlen.symm))
  rw [hstep.result hr]
  exact Option.some_ne_none r

namespace Pool

variable {p q : Pool ν ρ} {bi i : Nat} {b : Batch ν ρ}

/-- The move is not the end of a batch's time. -/
def Timely : Move → Prop
  | .expire _ => False
  | _ => True

theorem exists_advance {ready : Span} {t : Task ν ρ} (hb : p.batches[bi]? = some b)
    (hi : b.phases[i]? = some (.running ready t)) (ht : t.Prompt) :
    ∃ q, p.move? (.advance bi i) = some q := by
  simp only [move?, advance?, hb, hi, Option.bind_eq_bind, Option.bind_some]
  cases t with
  | done value => exact ⟨_, rfl⟩
  | crash => exact ⟨_, rfl⟩
  | note n next => exact ⟨_, rfl⟩
  | sleep time next => exact ⟨_, rfl⟩
  | cancel token next => exact ⟨_, rfl⟩
  | await token next => exact ht.elim
  | check token next => exact ⟨_, rfl⟩

theorem exists_send {o : Except Fault ρ} (hb : p.batches[bi]? = some b)
    (hi : b.phases[i]? = some (.ended o)) : ∃ q, p.move? (.send bi i) = some q := by
  simp [move?, send?, hb, hi]

theorem exists_start {t : Task ν ρ} (hb : p.batches[bi]? = some b)
    (hi : b.phases[i]? = some (.queued t)) (hfree : p.busy < p.workers) :
    ∃ q, p.move? (.start bi i) = some q := by
  simp [move?, start?, hb, hi, hfree]

theorem exists_receive (hb : p.batches[bi]? = some b) (hr : b.result = none)
    (htasks : b.phases ≠ []) (hsent : ∀ ph ∈ b.phases, ph.isSent) :
    ∃ q, p.move? (.receive bi) = some q := by
  have hall : b.phases.all Phase.isSent := List.all_eq_true.2 hsent
  simp only [move?, receive?, hb, hr, Option.bind_eq_bind, Option.bind_some, Option.isSome_none]
  cases hin : b.inbox with
  | nil => exact ⟨_, by simp [htasks, hall]; rfl⟩
  | cons message rest =>
    obtain ⟨i, fault | value⟩ := message
    · exact ⟨_, rfl⟩
    · exact ⟨_, rfl⟩

theorem busy_eq_zero (h : ∀ b ∈ p.batches, ∀ ph ∈ b.phases, ph.isBusy = false) : p.busy = 0 := by
  rw [busy, List.sum_eq_zero_iff_forall_eq_nat]
  intro n hn
  obtain ⟨b, hb, rfl⟩ := List.mem_map.1 hn
  refine List.countP_eq_zero.2 fun ph hph => ?_
  rw [h b hb ph hph]
  exact Bool.false_ne_true

/-- A busy worker can go on. -/
theorem exists_move_of_busy {ph : Phase ν ρ} (hp : p.Only Task.Prompt) (hb : b ∈ p.batches)
    (hph : ph ∈ b.phases) (hbusy : ph.isBusy) : ∃ m q, Timely m ∧ p.move? m = some q := by
  obtain ⟨bi, hbi⟩ := List.getElem?_of_mem hb
  obtain ⟨i, hi⟩ := List.getElem?_of_mem hph
  cases ph with
  | queued t => simp [Phase.isBusy] at hbusy
  | running ready t =>
    obtain ⟨q, hq⟩ := exists_advance hbi hi (hp b hb _ hph)
    exact ⟨.advance bi i, q, trivial, hq⟩
  | ended o =>
    obtain ⟨q, hq⟩ := exists_send hbi hi
    exact ⟨.send bi i, q, trivial, hq⟩
  | sent => simp [Phase.isBusy] at hbusy

/-- **Nothing is stuck** while a batch is waited for. -/
theorem exists_move (hw : 0 < p.workers) (hp : p.Only Task.Prompt) (hb : p.batches[bi]? = some b)
    (hr : b.result = none) (htasks : b.phases ≠ []) : ∃ m q, Timely m ∧ p.move? m = some q := by
  by_cases hbusy : ∃ c ∈ p.batches, ∃ ph ∈ c.phases, ph.isBusy = true
  · obtain ⟨c, hc, ph, hph, hbusy⟩ := hbusy
    exact exists_move_of_busy hp hc hph hbusy
  push Not at hbusy
  have hidle : ∀ c ∈ p.batches, ∀ ph ∈ c.phases, ph.isBusy = false :=
    fun c hc ph hph => Bool.eq_false_iff.2 (hbusy c hc ph hph)
  -- every worker is free: a task of the batch starts, or all have sent their messages
  have hfree : p.busy < p.workers := by rw [busy_eq_zero hidle]; exact hw
  by_cases hqueued : ∃ (i : Nat) (t : Task ν ρ), b.phases[i]? = some (.queued t)
  · obtain ⟨i, t, hi⟩ := hqueued
    obtain ⟨q, hq⟩ := exists_start hb hi hfree
    exact ⟨.start bi i, q, trivial, hq⟩
  have hsent : ∀ ph ∈ b.phases, ph.isSent := by
    intro ph hph
    have hbusy := hidle b (List.mem_of_getElem? hb) ph hph
    cases ph with
    | queued t =>
      obtain ⟨i, hi⟩ := List.getElem?_of_mem hph
      exact absurd ⟨i, t, hi⟩ hqueued
    | running ready t => cases hbusy
    | ended o => cases hbusy
    | sent => rfl
  obtain ⟨q, hq⟩ := exists_receive hb hr htasks hsent
  exact ⟨.receive bi, q, trivial, hq⟩

/-- The batch has its result, or some move can be made and after every move it gets its
result. -/
inductive Settles (bi : Nat) : Pool ν ρ → Prop
  | now {p : Pool ν ρ} (result : (p.result? bi).isSome) : Settles bi p
  | later {p : Pool ν ρ} (able : ∃ m q, Timely m ∧ p.move? m = some q)
      (every : ∀ m q, p.move? m = some q → Settles bi q) : Settles bi p

/-- **Every sequence of moves leads to a result**, unless the caller has crashed: the workers
of a pool of prompt tasks cannot keep a batch waiting. -/
theorem settles (hw : 0 < p.workers) (hp : p.Only Task.Prompt) (hb : p.batches[bi]? = some b)
    (hserved : b.IsServed) : p.Settles bi := by
  -- every move lowers the potential
  induction hn : p.potential using Nat.strongRecOn generalizing p b with
  | _ n ih =>
    cases hr : b.result with
    | some r => exact .now (by simp [result?, hb, hr])
    | none =>
      have htasks : b.phases ≠ [] := fun h => hserved h hr
      refine .later (exists_move hw hp hb hr htasks) fun m q hq => ?_
      obtain ⟨b', hb', hstep⟩ := step_batch (.move m) hb
      rw [step_move hq] at hb' hstep
      refine ih q.potential ?_ ?_ (hp.move Task.isKept_prompt hq) hb' (hserved.step hstep) rfl
      · rw [← hn]
        exact potential_lt_of_move? hq
      · rw [(grows_move hq).workers]
        exact hw

/-- A batch is served that is submitted while the clock can tell the end of its time. -/
theorem isServed_batchOf {token : Token} {tasks : List (Task ν ρ)}
    (h : ¬ p.Overruns token tasks) : (p.batchOf token tasks).IsServed := by
  rcases p.batchOf_cases token tasks with ⟨-, heq⟩ | ⟨-, heq⟩ | ⟨htasks, heq⟩ | ⟨hover, -⟩
  · rw [heq]
    exact fun _ => Option.some_ne_none _
  · rw [heq]
    exact fun _ => Option.some_ne_none _
  · rw [heq]
    exact fun hempty => absurd (List.map_eq_nil_iff.1 hempty) htasks
  · exact absurd hover h

/-- What settles can be led to a result before anybody's time is over. -/
theorem Settles.exists_run (h : p.Settles bi) :
    ∃ moves : List Move, (∀ m ∈ moves, Timely m) ∧
      ((p.run (moves.map .move)).result? bi).isSome := by
  induction h with
  | now result => exact ⟨[], by simp, result⟩
  | later able _ ih =>
    obtain ⟨m, q, hm, hq⟩ := able
    obtain ⟨moves, hmoves, hresult⟩ := ih m q hq
    refine ⟨m :: moves, List.forall_mem_cons.2 ⟨hm, hmoves⟩, ?_⟩
    rwa [List.map_cons, run_cons, step_move hq]

end Pool

/-- The event is a move, and not the end of a batch's time. -/
def Event.IsTimely (e : Event ν ρ) : Prop :=
  ∃ m, e = .move m ∧ Pool.Timely m

end Reframe
