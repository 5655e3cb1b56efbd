import Reframe.Proofs.Pool.Account
import Reframe.Proofs.Pool.Act
import Reframe.Proofs.Pool.Alone

/-!
# What a task leaves behind

The notes of a task stand in the log among those of all others. If none of the flags that the
task looks at is ever set, it leaves the notes that it would leave alone, in that order, and
comes to what it would come to alone, whatever else the pool works on.

* `Task.trace`: the notes that a task leaves alone.
* `Task.Reaches`: how far a task is, by its notes and its phase.
* `Call.reaches`: **a task that finds no flag set runs as it does alone.**
* `Call.over_stays`: what it leaves behind when it is over.
-/

namespace Reframe

variable {ν ρ σ : Type} {tokens : List Token}

namespace Task

variable {t u : Task ν ρ} {p : Pool ν ρ} {i : Nat} {notes : List ν}

/-- The notes of the task when no flag is set. -/
def trace : Task ν ρ → List ν
  | done _ => []
  | crash => []
  | note n next => n :: next.trace
  | sleep _ next => next.trace
  | cancel _ next => next.trace
  | await _ next => next.trace
  | check _ next => (next false).trace

/-- The task looks at no other flags. -/
def Looks (tokens : List Token) : Task ν ρ → Prop
  | done _ => True
  | crash => True
  | note _ next => next.Looks tokens
  | sleep _ next => next.Looks tokens
  | cancel _ next => next.Looks tokens
  | await _ next => next.Looks tokens
  | check t next => t ∈ tokens ∧ ∀ set, (next set).Looks tokens

theorem trace_bind (t : Task ν ρ) (k : ρ → Task ν σ) :
    (t.bind k).trace = t.trace ++ (t.alone.map fun value => (k value).trace).getD [] := by
  induction t with
  | done value => rfl
  | crash => rfl
  | note n next ih => exact congrArg (n :: ·) ih
  | sleep time next ih => exact ih
  | cancel token next ih => exact ih
  | await token next ih => exact ih
  | check token next ih => exact ih false

theorem trace_attempt (t : Task ν ρ) : t.attempt.trace = t.trace := by
  induction t with
  | done value => rfl
  | crash => rfl
  | note n next ih => exact congrArg (n :: ·) ih
  | sleep time next ih => exact ih
  | cancel token next ih => exact ih
  | await token next ih => exact ih
  | check token next ih => exact ih false

theorem Looks.mono {more : List Token} (h : t.Looks tokens) (hle : tokens ⊆ more) :
    t.Looks more := by
  induction t with
  | done value => trivial
  | crash => trivial
  | note n next ih => exact ih h
  | sleep time next ih => exact ih h
  | cancel token next ih => exact ih h
  | await token next ih => exact ih h
  | check token next ih => exact ⟨hle h.1, fun set => ih set (h.2 set)⟩

theorem Looks.bind {k : ρ → Task ν σ} (h : t.Looks tokens) (hk : ∀ value, (k value).Looks tokens) :
    (t.bind k).Looks tokens := by
  induction t with
  | done value => exact hk value
  | crash => trivial
  | note n next ih => exact ih h
  | sleep time next ih => exact ih h
  | cancel token next ih => exact ih h
  | await token next ih => exact ih h
  | check token next ih => exact ⟨h.1, fun set => ih set (h.2 set)⟩

theorem Looks.attempt (h : t.Looks tokens) : t.attempt.Looks tokens := by
  induction t with
  | done value => trivial
  | crash => trivial
  | note n next ih => exact ih h
  | sleep time next ih => exact ih h
  | cancel token next ih => exact ih h
  | await token next ih => exact ih h
  | check token next ih => exact ⟨h.1, fun set => ih set (h.2 set)⟩

theorem looks_eachFrom {token : Token} {tasks : List (Task ν ρ)} (htoken : token ∈ tokens)
    (h : ∀ t ∈ tasks, t.Looks tokens) (i : Nat) : (eachFrom token i tasks).Looks tokens := by
  induction tasks generalizing i with
  | nil => trivial
  | cons t tasks ih =>
    have ht := h t List.mem_cons_self
    have hrest := ih fun u hu => h u (List.mem_cons_of_mem _ hu)
    refine ⟨htoken, fun set => ?_⟩
    cases set with
    | true => trivial
    | false =>
      refine ht.attempt.bind fun value => ?_
      cases value with
      | none => trivial
      | some value =>
        refine (hrest (i + 1)).bind fun result => ?_
        cases result <;> trivial

theorem looks_each {token : Token} {tasks : List (Task ν ρ)} (htoken : token ∈ tokens)
    (h : ∀ t ∈ tasks, t.Looks tokens) : (each token tasks).Looks tokens := by
  refine ⟨htoken, fun set => ?_⟩
  cases set with
  | true => trivial
  | false => exact looks_eachFrom htoken h 0

/-- How far task `i` is: the notes it has left, and those that are still to come, are what it
leaves alone. If it was called off it has not left any. -/
def Reaches (tokens : List Token) (i : Nat) (t : Task ν ρ) (notes : List ν) : Phase ν ρ → Prop
  | .queued u => u = t ∧ notes = []
  | .running _ u => u.Looks tokens ∧ t.trace = notes ++ u.trace ∧ u.alone = t.alone
  | .ended o => (o = outcome i t.alone ∧ notes = t.trace) ∨ (o = .error .cancelled ∧ notes = [])
  | .sent => notes = t.trace ∨ notes = []

/-- The notes so far are the first of those that the task leaves alone. -/
theorem Reaches.isPrefix {ph : Phase ν ρ} (h : Reaches tokens i t notes ph) :
    notes <+: t.trace := by
  cases ph with
  | queued u => exact h.2 ▸ List.nil_prefix
  | running ready u => exact h.2.1 ▸ List.prefix_append ..
  | ended o =>
    rcases h with ⟨-, h⟩ | ⟨-, h⟩
    · exact h ▸ List.prefix_rfl
    · exact h ▸ List.nil_prefix
  | sent =>
    rcases h with h | h
    · exact h ▸ List.prefix_rfl
    · exact h ▸ List.nil_prefix

/-- **One step of a task that finds no flag set** goes on as the task does alone. -/
theorem Reaches.act {ready : Span} {a : Pool ν ρ × Phase ν ρ}
    (h : Reaches tokens i t notes (.running ready u))
    (hclear : ∀ token ∈ tokens, ¬ p.IsCancelled token) (ha : u.act i p = some a) :
    ∃ new, a.1.log = p.log ++ new ∧ Reaches tokens i t (notes ++ new) a.2 := by
  obtain ⟨hlooks, htrace, halone⟩ := h
  cases u with
  | done value =>
    cases ha
    refine ⟨[], (List.append_nil _).symm, .inl ⟨?_, ?_⟩⟩
    · rw [← halone]
      rfl
    · rw [htrace]
      rfl
  | crash =>
    cases ha
    refine ⟨[], (List.append_nil _).symm, .inl ⟨?_, ?_⟩⟩
    · rw [← halone]
      rfl
    · rw [htrace]
      rfl
  | note n next =>
    cases ha
    refine ⟨[n], rfl, hlooks, ?_, halone⟩
    rw [htrace, List.append_assoc]
    rfl
  | sleep time next =>
    cases ha
    exact ⟨[], (List.append_nil _).symm, hlooks, by rwa [List.append_nil], halone⟩
  | cancel token next =>
    cases ha
    refine ⟨[], ?_, hlooks, by rwa [List.append_nil], halone⟩
    unfold Pool.cancel
    split <;> exact (List.append_nil _).symm
  | await token next =>
    rw [act] at ha
    split at ha
    · cases ha
      exact ⟨[], (List.append_nil _).symm, hlooks, by rwa [List.append_nil], halone⟩
    · cases ha
  | check token next =>
    rw [act, decide_eq_false (hclear token hlooks.1)] at ha
    cases ha
    exact ⟨[], (List.append_nil _).symm, hlooks.2 false, by rwa [List.append_nil], halone⟩

end Task

/-- How another event than its own step can move a task from phase to phase. -/
theorem Batch.Step.phase {p q : Pool ν ρ} {bi i : Nat} {b b' : Batch ν ρ} {e : Event ν ρ}
    {ph : Phase ν ρ} (h : Step p q bi b e b') (he : e ≠ .move (.advance bi i))
    (hph : b'.phases[i]? = some ph) :
    b.phases[i]? = some ph ∨
      (∃ t, b.phases[i]? = some (.queued t) ∧
        (ph = .running p.clock t ∨ ph = .ended (.error .cancelled))) ∨
      ∃ o, b.phases[i]? = some (.ended o) ∧ ph = .sent := by
  cases h with
  | stay => exact .inl hph
  | begin hi =>
    rcases getElem?_set_eq_some.1 hph with ⟨rfl, -, rfl⟩ | ⟨-, hph⟩
    · exact .inr (.inl ⟨_, hi, .inl rfl⟩)
    · exact .inl hph
  | skip hi =>
    rcases getElem?_set_eq_some.1 hph with ⟨rfl, -, rfl⟩ | ⟨-, hph⟩
    · exact .inr (.inl ⟨_, hi, .inr rfl⟩)
    · exact .inl hph
  | go =>
    rcases getElem?_set_eq_some.1 hph with ⟨rfl, -, -⟩ | ⟨-, hph⟩
    · exact absurd rfl he
    · exact .inl hph
  | stop =>
    rcases getElem?_set_eq_some.1 hph with ⟨rfl, -, -⟩ | ⟨-, hph⟩
    · exact absurd rfl he
    · exact .inl hph
  | send hi =>
    rw [phases_post] at hph
    rcases getElem?_set_eq_some.1 hph with ⟨rfl, -, rfl⟩ | ⟨-, hph⟩
    · exact .inr (.inr ⟨_, hi, rfl⟩)
    · exact .inl hph
  | accept => rw [phases_accept] at hph; exact .inl hph
  | refuse => exact .inl hph
  | lose => exact .inl hph
  | expire => exact .inl hph

/-- Reading the phase that was set. -/
theorem Pool.phase_setPhase {p q : Pool ν ρ} {bi i : Nat} {b : Batch ν ρ} {old new : Phase ν ρ}
    (hq : q.batches = p.batches) (hb : p.batches[bi]? = some b) (hi : b.phases[i]? = some old) :
    ((q.setPhase b bi i new).batches[bi]?.bind fun b => b.phases[i]?) = some new := by
  have hbi : bi < q.batches.length := by
    rw [hq]
    exact (List.getElem?_eq_some_iff.1 hb).1
  rw [setPhase, setBatch, List.getElem?_set_self hbi, Option.bind_some]
  exact List.getElem?_set_self (List.getElem?_eq_some_iff.1 hi).1

namespace Call

variable {c : Call ν ρ} {i n : Nat} {ph : Phase ν ρ} {e : Event ν ρ}

/-- A task of the batch is in some phase at every later moment. -/
theorem exists_phase {m : Nat} (h : m ≤ n) (hm : ∃ ph, c.phase? i m = some ph) :
    ∃ ph, c.phase? i n = some ph := by
  induction h with
  | refl => exact hm
  | @step n _ ih =>
    obtain ⟨ph, hph⟩ := ih
    cases he : c.events[n]? with
    | none => exact ⟨ph, by rwa [phase?, moment_succ_of_none he]⟩
    | some e =>
      obtain ⟨b, hb⟩ := c.exists_batch n
      obtain ⟨b', hb', hstep⟩ := step_batch he hb
      rw [phase?_of_batch hb] at hph
      have hlt : i < b'.phases.length := by
        rw [hstep.length_phases]
        exact (List.getElem?_eq_some_iff.1 hph).1
      exact ⟨b'.phases[i], by rw [phase?_of_batch hb', List.getElem?_eq_getElem hlt]⟩

/-- How far the tasks of the batch are. -/
def Follows (c : Call ν ρ) (tokens : List Token) (n : Nat) : Prop :=
  ∀ i ph, c.phase? i n = some ph →
    ∃ t, c.tasks[i]? = some t ∧ t.Reaches tokens i (c.notesOf i n) ph

theorem follows_zero : c.Follows tokens 0 := by
  intro i ph hph
  rw [phase?_of_batch batch_zero, batch] at hph
  rcases c.pool.batchOf_cases c.token c.tasks with ⟨-, heq⟩ | ⟨-, heq⟩ | ⟨-, heq⟩ | ⟨-, heq⟩
  · rw [heq] at hph
    cases hph
  · rw [heq] at hph
    cases hph
  · rw [heq] at hph
    obtain ⟨t, ht, rfl⟩ : ∃ t, c.tasks[i]? = some t ∧ Phase.queued t = ph := by
      simpa [Batch.queue] using hph
    exact ⟨t, ht, rfl, rfl⟩
  · rw [heq] at hph
    cases hph

/-- The step of a task itself. -/
theorem Follows.advance (h : c.Follows tokens n) (hclear : ∀ token ∈ tokens, token ∉ c.flags n)
    (he : c.events[n]? = some (.move (.advance c.index i))) (hph : c.phase? i (n + 1) = some ph) :
    ∃ t, c.tasks[i]? = some t ∧ t.Reaches tokens i (c.notesOf i (n + 1)) ph := by
  rw [notesOf, newNotes_advance he]
  have hmoment := moment_succ he
  cases hq : (c.moment n).move? (.advance c.index i) with
  | none =>
    have hsame : c.moment (n + 1) = c.moment n := by simp [hmoment, Pool.step, hq]
    rw [phase?, hsame] at hph
    rw [hsame, List.drop_length, List.append_nil]
    exact h i ph hph
  | some q =>
    rw [Pool.step_move hq] at hmoment
    obtain ⟨b, ready, u, a, hb, hi, ha, rfl⟩ := Pool.advance?_eq_some hq
    obtain ⟨t, ht, hreach⟩ := h i _ (by rw [phase?_of_batch hb, hi])
    obtain ⟨new, hlog, hreach⟩ := hreach.act (p := (c.moment n).atTime ready) hclear ha
    refine ⟨t, ht, ?_⟩
    have hnew : (c.moment (n + 1)).log.drop (c.moment n).log.length = new := by
      rw [hmoment]
      change a.1.log.drop (c.moment n).log.length = new
      rw [hlog]
      exact List.drop_left
    have hphase : c.phase? i (n + 1) = some a.2 := by
      rw [phase?, hmoment]
      exact Pool.phase_setPhase (Task.batches_act ha) hb hi
    obtain rfl : a.2 = ph := Option.some.inj (hphase.symm.trans hph)
    rwa [hnew]

/-- **One event leaves every task where it gets alone.** -/
theorem Follows.succ (h : c.Follows tokens n) (hlooks : ∀ t ∈ c.tasks, t.Looks tokens)
    (hclear : ∀ token ∈ tokens, token ∉ c.flags n) : c.Follows tokens (n + 1) := by
  intro i ph hph
  by_cases hown : c.events[n]? = some (.move (.advance c.index i))
  · exact h.advance hclear hown hph
  rw [notesOf, newNotes_eq_nil hown, List.append_nil]
  cases he : c.events[n]? with
  | none =>
    rw [phase?, moment_succ_of_none he] at hph
    exact h i ph hph
  | some e =>
    obtain ⟨b, hb⟩ := c.exists_batch n
    obtain ⟨b', hb', hstep⟩ := step_batch he hb
    rw [phase?_of_batch hb'] at hph
    have hother : e ≠ .move (.advance c.index i) := by
      rintro rfl
      exact hown he
    have hold : ∀ ph, b.phases[i]? = some ph →
        ∃ t, c.tasks[i]? = some t ∧ t.Reaches tokens i (c.notesOf i n) ph := by
      intro ph hi
      exact h i ph (by rw [phase?_of_batch hb, hi])
    rcases hstep.phase hother hph with hi | ⟨u, hi, rfl | rfl⟩ | ⟨o, hi, rfl⟩
    · exact hold ph hi
    · obtain ⟨t, ht, rfl, hnotes⟩ := hold _ hi
      refine ⟨u, ht, hlooks u (List.mem_of_getElem? ht), ?_, rfl⟩
      rw [hnotes, List.nil_append]
    · obtain ⟨t, ht, -, hnotes⟩ := hold _ hi
      exact ⟨t, ht, .inr ⟨rfl, hnotes⟩⟩
    · obtain ⟨t, ht, hreach⟩ := hold _ hi
      exact ⟨t, ht, hreach.imp And.right And.right⟩

/-- **A task that finds no flag set runs as it does alone**, whatever happens in the pool. -/
theorem reaches (hlooks : ∀ t ∈ c.tasks, t.Looks tokens)
    (hclear : ∀ n, ∀ token ∈ tokens, token ∉ c.flags n) (n : Nat) : c.Follows tokens n := by
  induction n with
  | zero => exact follows_zero
  | succ n ih => exact ih.succ hlooks (hclear n)

/-- What has come to an end is what the task comes to alone, and all its notes are there. -/
theorem Follows.over {o : Option ρ} (h : c.Follows tokens n) (hover : c.Over i o n) :
    ∃ t, c.tasks[i]? = some t ∧ t.alone = o ∧ c.notesOf i n = t.trace := by
  obtain ⟨⟨ready, hph⟩, -⟩ := hover
  obtain ⟨t, ht, -, htrace, halone⟩ := h i _ hph
  refine ⟨t, ht, ?_, ?_⟩
  · rw [← halone]
    cases o <;> rfl
  · rw [htrace]
    cases o <;> exact (List.append_nil _).symm

/-- The notes of what has come to an end are there for good. -/
theorem over_stays {o : Option ρ} (h : ∀ n, c.Follows tokens n) (hover : c.Over i o n) :
    ∃ t, c.tasks[i]? = some t ∧ t.alone = o ∧ ∀ m, n ≤ m → c.notesOf i m = t.trace := by
  obtain ⟨t, ht, halone, hnotes⟩ := (h n).over hover
  refine ⟨t, ht, halone, fun m hm => ?_⟩
  obtain ⟨ready, hph⟩ := hover.1
  obtain ⟨ph, hph⟩ := exists_phase hm ⟨_, hph⟩
  obtain ⟨u, hu, hreach⟩ := h m i ph hph
  obtain rfl : t = u := Option.some.inj (ht.symm.trans hu)
  have hle : c.notesOf i m <+: t.trace := hreach.isPrefix
  have hge : t.trace <+: c.notesOf i m := by
    rw [← hnotes]
    exact notesOf_mono hm
  exact hle.eq_of_length (Nat.le_antisymm hle.length_le hge.length_le)

/-- A batch that was refused leaves no notes. -/
theorem notesOf_eq_nil (h : c.phase? i n = none) : c.notesOf i n = [] := by
  induction n with
  | zero => rfl
  | succ n ih =>
    have hnone : c.phase? i n = none := by
      by_contra hsome
      obtain ⟨ph, hph⟩ := exists_phase (Nat.le_succ n) (Option.ne_none_iff_exists'.1 hsome)
      rw [h] at hph
      cases hph
    rw [notesOf, ih hnone, List.nil_append]
    by_cases hown : c.events[n]? = some (.move (.advance c.index i))
    · rw [newNotes_advance hown]
      -- there is nothing to advance
      have hstuck : (c.moment n).move? (.advance c.index i) = none := by
        obtain ⟨b, hb⟩ := c.exists_batch n
        rw [phase?_of_batch hb] at hnone
        simp [Pool.move?, Pool.advance?, hb, hnone]
      have hsame : c.moment (n + 1) = c.moment n := by simp [moment_succ hown, Pool.step, hstuck]
      rw [hsame, List.drop_length]
    · exact newNotes_eq_nil hown

/-- **At every moment a task has left the first of the notes that it leaves alone.** -/
theorem notesOf_isPrefix {t : Task ν ρ} (h : c.Follows tokens n) (ht : c.tasks[i]? = some t) :
    c.notesOf i n <+: t.trace := by
  cases hph : c.phase? i n with
  | none => exact notesOf_eq_nil hph ▸ List.nil_prefix
  | some ph =>
    obtain ⟨u, hu, hreach⟩ := h i ph hph
    obtain rfl : t = u := Option.some.inj (ht.symm.trans hu)
    exact hreach.isPrefix

end Call

end Reframe
