import Reframe.Pool.Course
import Reframe.Proofs.Pool.Outcome

/-!
# What an event can do

`Batch.Step` says once what an event can do to a batch, with the test that allows
it; `Pool.Grows` says what no event can take back. Everything that is proved about
batches goes by cases on the first and by monotony along the second.

* `Pool.grows_run`: notes and flags stay, the limit and the workers do not change.
* `Pool.turns_move`: every move replaces one batch.
* `Pool.step_batch`: every event takes every batch by one of the listed steps.
* `Pool.batchOf_cases`: what comes of a submission.
* `Batch.Step.queued`, `Batch.Step.result`: no step puts a task back into the queue or
  changes a result.
-/

namespace Reframe

variable {ν ρ : Type} {p q : Pool ν ρ} {bi i : Nat} {b : Batch ν ρ}

/-- The message of a task that is over. -/
def outcome (i : Nat) : Option ρ → Except Fault ρ
  | some value => .ok value
  | none => .error (.crashed i)

/-- What an event can do to batch `bi`, between the pools before and after it. -/
inductive Batch.Step (p q : Pool ν ρ) (bi : Nat) (b : Batch ν ρ) :
    Event ν ρ → Batch ν ρ → Prop
  | stay {e : Event ν ρ} : Step p q bi b e b
  | begin {i : Nat} {t : Task ν ρ} (queued : b.phases[i]? = some (.queued t))
      (clear : ¬ p.IsCancelled b.token) :
      Step p q bi b (.move (.start bi i)) (b.setPhase i (.running p.clock t))
  | skip {i : Nat} {t : Task ν ρ} (queued : b.phases[i]? = some (.queued t))
      (set : p.IsCancelled b.token) :
      Step p q bi b (.move (.start bi i)) (b.setPhase i (.ended (.error .cancelled)))
  | go {i : Nat} {ready later : Span} {t u : Task ν ρ}
      (running : b.phases[i]? = some (.running ready t))
      (next : Task.Next (q.log.drop p.log.length) q.cancelled t u) :
      Step p q bi b (.move (.advance bi i)) (b.setPhase i (.running later u))
  | stop {i : Nat} {ready : Span} {o : Option ρ}
      (running : b.phases[i]? = some (.running ready (Task.halted o))) :
      Step p q bi b (.move (.advance bi i)) (b.setPhase i (.ended (outcome i o)))
  | send {i : Nat} {o : Except Fault ρ} (ended : b.phases[i]? = some (.ended o)) :
      Step p q bi b (.move (.send bi i)) ((b.setPhase i .sent).post i o)
  | accept {i : Nat} {value : ρ} {rest : List (Nat × Except Fault ρ)} (waiting : b.result = none)
      (message : b.inbox = (i, .ok value) :: rest) :
      Step p q bi b (.move (.receive bi)) ({ b with inbox := rest }.accept i value)
  | refuse {i : Nat} {fault : Fault} {rest : List (Nat × Except Fault ρ)}
      (waiting : b.result = none) (message : b.inbox = (i, .error fault) :: rest) :
      Step p q bi b (.move (.receive bi)) ({ b with inbox := rest }.finish (.error fault))
  | lose {reason : String} (waiting : b.result = none) (empty : b.inbox = [])
      (tasks : b.phases ≠ []) (sent : b.phases.all Phase.isSent) :
      Step p q bi b (.move (.receive bi)) (b.finish (.error (.lost reason)))
  | expire {limit deadline : Span} (waiting : b.result = none) (limited : p.limit = some limit)
      (timed : b.deadline = some deadline) (passed : deadline ≤ q.clock) :
      Step p q bi b (.move (.expire bi)) (b.finish (.error (.late limit)))

/-- What sets a flag when a batch changes: a task of it does, or the batch fails. -/
def Batch.Sets (b b' : Batch ν ρ) (token : Token) : Prop :=
  (∃ ready next, .running ready (.cancel token next) ∈ b.phases) ∨
    (b.token = token ∧ b.result = none ∧ ∃ fault, b'.result = some (.error fault))

namespace Pool

/-- Nothing that was noted or set is taken back, and the pool is still the same. -/
structure Grows (p q : Pool ν ρ) : Prop where
  clock : p.clock ≤ q.clock
  log : p.log <+: q.log
  flags : p.cancelled ⊆ q.cancelled
  limit : q.limit = p.limit
  horizon : q.horizon = p.horizon
  workers : q.workers = p.workers

theorem Grows.refl (p : Pool ν ρ) : p.Grows p :=
  ⟨Nat.le_refl _, List.prefix_rfl, List.Subset.refl _, rfl, rfl, rfl⟩

theorem Grows.trans {r : Pool ν ρ} (h : p.Grows q) (h' : q.Grows r) : p.Grows r :=
  ⟨Nat.le_trans h.clock h'.clock, h.log.trans h'.log, fun _ ht => h'.flags (h.flags ht),
    h'.limit.trans h.limit, h'.horizon.trans h.horizon, h'.workers.trans h.workers⟩

theorem grows_cancel (p : Pool ν ρ) (token : Token) : p.Grows (p.cancel token) := by
  unfold cancel
  split
  · exact .refl p
  · exact ⟨Nat.le_refl _, List.prefix_rfl, List.subset_cons_self .., rfl, rfl, rfl⟩

/-- Batches do not matter. -/
theorem Grows.setBatch (h : p.Grows q) (i : Nat) (b : Batch ν ρ) : p.Grows (q.setBatch i b) :=
  ⟨h.clock, h.log, h.flags, h.limit, h.horizon, h.workers⟩

theorem grows_clock (p : Pool ν ρ) (time : Span) : p.Grows { p with clock := max p.clock time } :=
  ⟨Nat.le_max_left .., List.prefix_rfl, List.Subset.refl _, rfl, rfl, rfl⟩

theorem mem_cancel (p : Pool ν ρ) (token : Token) : token ∈ (p.cancel token).cancelled := by
  unfold cancel
  split
  next h => exact h
  next => exact List.mem_cons_self

theorem grows_start (h : p.start? bi i = some q) : p.Grows q := by
  simp only [start?, Option.bind_eq_bind, Option.bind_eq_some_iff] at h
  obtain ⟨b, -, h⟩ := h
  split at h
  · split at h
    · cases h
      exact (Grows.refl p).setBatch ..
    · cases h
  · cases h

theorem grows_advance (h : p.advance? bi i = some q) : p.Grows q := by
  simp only [advance?, Option.bind_eq_bind, Option.bind_eq_some_iff] at h
  obtain ⟨b, -, h⟩ := h
  split at h
  next ready task _ =>
    have hclock := grows_clock p ready
    cases task with
    | done value => cases h; exact hclock.setBatch ..
    | crash => cases h; exact hclock.setBatch ..
    | note n next =>
      cases h
      exact ⟨hclock.clock, List.prefix_append .., List.Subset.refl _, rfl, rfl, rfl⟩
    | sleep time next => cases h; exact hclock.setBatch ..
    | cancel token next => cases h; exact (hclock.trans (grows_cancel _ token)).setBatch ..
    | await token next =>
      simp only at h
      split at h
      · cases h; exact hclock.setBatch ..
      · cases h
    | check token next => cases h; exact hclock.setBatch ..
  next => cases h

theorem grows_send (h : p.send? bi i = some q) : p.Grows q := by
  simp only [send?, Option.bind_eq_bind, Option.bind_eq_some_iff] at h
  obtain ⟨b, -, h⟩ := h
  split at h
  · cases h
    exact (Grows.refl p).setBatch ..
  · cases h

theorem grows_receive (h : p.receive? bi = some q) : p.Grows q := by
  simp only [receive?, Option.bind_eq_bind, Option.bind_eq_some_iff] at h
  obtain ⟨b, -, h⟩ := h
  split at h
  · cases h
  · split at h
    · cases h
      exact (Grows.refl p).setBatch ..
    · cases h
      exact (grows_cancel p _).setBatch ..
    · split at h
      · cases h
        exact (Grows.refl p).setBatch ..
      · cases h

theorem grows_expire (h : p.expire? bi = some q) : p.Grows q := by
  simp only [expire?, Option.bind_eq_bind, Option.bind_eq_some_iff] at h
  obtain ⟨b, -, limit, -, deadline, -, h⟩ := h
  split at h
  · cases h
  · cases h
    exact ((grows_clock p _).trans (grows_cancel _ b.token)).setBatch ..

theorem grows_move {m : Move} (h : p.move? m = some q) : p.Grows q := by
  cases m with
  | start b i => exact grows_start h
  | advance b i => exact grows_advance h
  | send b i => exact grows_send h
  | receive b => exact grows_receive h
  | expire b => exact grows_expire h

/-- **What comes of a submission**: it is refused, or there is nothing to do, or its tasks
are put into the queue, or its caller crashes. -/
theorem batchOf_cases (p : Pool ν ρ) (token : Token) (tasks : List (Task ν ρ)) :
    (p.IsCancelled token ∧ p.batchOf token tasks = .settled token (.error .cancelled)) ∨
    (tasks = [] ∧ p.batchOf token tasks = .settled token (.ok [])) ∨
    (tasks ≠ [] ∧ p.batchOf token tasks = .queue token (p.limit.map (p.clock + ·)) tasks) ∨
    (p.Overruns token tasks ∧ p.batchOf token tasks = .abandoned token) := by
  unfold batchOf
  split
  next hset => exact .inl ⟨hset, rfl⟩
  next hclear =>
    split
    next hempty => exact .inr (.inl ⟨List.isEmpty_iff.1 hempty, rfl⟩)
    next htasks =>
      have htasks : tasks ≠ [] := fun h => htasks (List.isEmpty_iff.2 h)
      split
      next => exact .inr (.inr (.inl ⟨htasks, rfl⟩))
      next htime => exact .inr (.inr (.inr ⟨⟨hclear, htasks, htime⟩, rfl⟩))

theorem token_batchOf (p : Pool ν ρ) (token : Token) (tasks : List (Task ν ρ)) :
    (p.batchOf token tasks).token = token := by
  rcases p.batchOf_cases token tasks with ⟨-, h⟩ | ⟨-, h⟩ | ⟨-, h⟩ | ⟨-, h⟩ <;> rw [h] <;> rfl

/-- The batch that is submitted comes last. -/
theorem batches_submit (p : Pool ν ρ) (token : Token) (tasks : List (Task ν ρ)) :
    (p.submit token tasks).batches[p.batches.length]? = some (p.batchOf token tasks) :=
  List.getElem?_concat_length

theorem grows_submit (p : Pool ν ρ) (token : Token) (tasks : List (Task ν ρ)) :
    p.Grows (p.submit token tasks) :=
  ⟨Nat.le_refl _, List.prefix_rfl, List.Subset.refl _, rfl, rfl, rfl⟩

theorem grows_step (p : Pool ν ρ) (e : Event ν ρ) : p.Grows (p.step e) := by
  cases e with
  | move m =>
    cases h : p.move? m with
    | none => simpa [step, h] using Grows.refl p
    | some q => rw [step_move h]; exact grows_move h
  | submit token tasks => exact grows_submit p token tasks
  | cancel token => exact grows_cancel p token

theorem grows_run (p : Pool ν ρ) (events : List (Event ν ρ)) : p.Grows (p.run events) := by
  induction events generalizing p with
  | nil => exact .refl p
  | cons e events ih => exact (grows_step p e).trans (ih (p.step e))

theorem mem_or_eq_of_mem_cancel {t token : Token} (h : t ∈ (p.cancel token).cancelled) :
    t ∈ p.cancelled ∨ t = token := by
  unfold cancel at h
  split at h
  · exact .inl h
  · rcases List.mem_cons.1 h with rfl | h
    · exact .inr rfl
    · exact .inl h

/-- One batch is replaced by what a step makes of it. -/
def Turns (p q : Pool ν ρ) (bi : Nat) (e : Event ν ρ) : Prop :=
  ∃ old new, p.batches[bi]? = some old ∧ q.batches = p.batches.set bi new ∧
    Batch.Step p q bi old e new ∧ ∀ t ∈ q.cancelled, t ∈ p.cancelled ∨ Batch.Sets old new t

theorem turns_start (h : p.start? bi i = some q) : p.Turns q bi (.move (.start bi i)) := by
  simp only [start?, Option.bind_eq_bind, Option.bind_eq_some_iff] at h
  obtain ⟨b, hb, h⟩ := h
  split at h
  next t ht =>
    split at h
    · cases h
      refine ⟨b, _, hb, rfl, ?_, fun t => .inl⟩
      split
      next hset => exact .skip ht hset
      next hclear => exact .begin ht hclear
    · cases h
  next => cases h

theorem turns_advance (h : p.advance? bi i = some q) : p.Turns q bi (.move (.advance bi i)) := by
  simp only [advance?, Option.bind_eq_bind, Option.bind_eq_some_iff] at h
  obtain ⟨b, hb, h⟩ := h
  split at h
  next ready task ht =>
    cases task with
    | done value =>
      cases h
      exact ⟨b, _, hb, rfl, .stop (o := some value) ht, fun t => .inl⟩
    | crash =>
      cases h
      exact ⟨b, _, hb, rfl, .stop (o := none) ht, fun t => .inl⟩
    | note n next =>
      cases h
      refine ⟨b, _, hb, rfl, .go ht (.note ?_), fun t => .inl⟩
      simp
    | sleep time next =>
      cases h
      exact ⟨b, _, hb, rfl, .go ht .sleep, fun t => .inl⟩
    | cancel token next =>
      cases h
      refine ⟨b, _, hb, by rw [setPhase, setBatch, batches_cancel], .go ht (.cancel ?_), ?_⟩
      · exact mem_cancel _ token
      · intro t hmem
        rcases mem_or_eq_of_mem_cancel hmem with hmem | rfl
        · exact .inl hmem
        · exact .inr (.inl ⟨ready, next, List.mem_of_getElem? ht⟩)
    | await token next =>
      simp only at h
      split at h
      next hset =>
        cases h
        exact ⟨b, _, hb, rfl, .go ht (.await hset), fun t => .inl⟩
      next => cases h
    | check token next =>
      cases h
      refine ⟨b, _, hb, rfl, .go ht ?_, fun t => .inl⟩
      by_cases hset : token ∈ p.cancelled
      · have : decide (IsCancelled { p with clock := max p.clock ready } token) = true :=
          decide_eq_true hset
        rw [this]
        exact .set hset
      · have : decide (IsCancelled { p with clock := max p.clock ready } token) = false :=
          decide_eq_false hset
        rw [this]
        exact .clear
  next => cases h

theorem turns_send (h : p.send? bi i = some q) : p.Turns q bi (.move (.send bi i)) := by
  simp only [send?, Option.bind_eq_bind, Option.bind_eq_some_iff] at h
  obtain ⟨b, hb, h⟩ := h
  split at h
  next o ho =>
    cases h
    exact ⟨b, _, hb, rfl, .send ho, fun t => .inl⟩
  next => cases h

theorem turns_receive (h : p.receive? bi = some q) : p.Turns q bi (.move (.receive bi)) := by
  simp only [receive?, Option.bind_eq_bind, Option.bind_eq_some_iff] at h
  obtain ⟨b, hb, h⟩ := h
  split at h
  · cases h
  next hwaiting =>
    have hwaiting : b.result = none := by simpa using hwaiting
    split at h
    next i value rest hin =>
      cases h
      exact ⟨b, _, hb, rfl, .accept hwaiting hin, fun t => .inl⟩
    next i fault rest hin =>
      cases h
      refine ⟨b, _, hb, by rw [fail, setBatch, batches_cancel], .refuse hwaiting hin, ?_⟩
      intro t hmem
      rcases mem_or_eq_of_mem_cancel hmem with hmem | rfl
      · exact .inl hmem
      · exact .inr (.inr ⟨rfl, hwaiting, fault, rfl⟩)
    next hin =>
      split at h
      next hsent =>
        cases h
        exact ⟨b, _, hb, rfl, .lose hwaiting hin hsent.1 hsent.2, fun t => .inl⟩
      next => cases h

theorem turns_expire (h : p.expire? bi = some q) : p.Turns q bi (.move (.expire bi)) := by
  simp only [expire?, Option.bind_eq_bind, Option.bind_eq_some_iff] at h
  obtain ⟨b, hb, limit, hlimit, deadline, hdeadline, h⟩ := h
  split at h
  · cases h
  next hwaiting =>
    have hwaiting : b.result = none := by simpa using hwaiting
    cases h
    refine ⟨b, _, hb, by rw [fail, setBatch, batches_cancel],
      .expire hwaiting hlimit hdeadline ?_, ?_⟩
    · have hcancel := (grows_cancel { p with clock := max p.clock deadline } b.token).clock
      exact Nat.le_trans (Nat.le_max_right p.clock.nanos deadline.nanos) hcancel
    · intro t hmem
      rcases mem_or_eq_of_mem_cancel hmem with hmem | rfl
      · exact .inl hmem
      · exact .inr (.inr ⟨rfl, hwaiting, .late limit, rfl⟩)

/-- **Every move replaces one batch**, by one of the listed steps. -/
theorem turns_move {m : Move} (h : p.move? m = some q) : ∃ bi, p.Turns q bi (.move m) := by
  cases m with
  | start bi i => exact ⟨bi, turns_start h⟩
  | advance bi i => exact ⟨bi, turns_advance h⟩
  | send bi i => exact ⟨bi, turns_send h⟩
  | receive bi => exact ⟨bi, turns_receive h⟩
  | expire bi => exact ⟨bi, turns_expire h⟩

/-- **Every event takes every batch by one of the listed steps.** -/
theorem step_batch (e : Event ν ρ) (hb : p.batches[bi]? = some b) :
    ∃ b', (p.step e).batches[bi]? = some b' ∧ Batch.Step p (p.step e) bi b e b' := by
  cases e with
  | move m =>
    cases h : p.move? m with
    | none => exact ⟨b, by simpa [step, h] using hb, .stay⟩
    | some q =>
      -- the move replaces batch `bj`, and any other batch stays
      rw [step_move h]
      obtain ⟨bj, old, new, hj, hq, hstep, -⟩ := turns_move h
      rw [hq]
      rcases eq_or_ne bj bi with rfl | hne
      · obtain rfl : old = b := Option.some.inj (hj.symm.trans hb)
        have hlt : bj < p.batches.length := (List.getElem?_eq_some_iff.1 hb).1
        exact ⟨new, List.getElem?_set_self hlt, hstep⟩
      · exact ⟨b, by rw [List.getElem?_set_ne hne, hb], .stay⟩
  | submit token tasks =>
    have hlt : bi < p.batches.length := (List.getElem?_eq_some_iff.1 hb).1
    exact ⟨b, by rw [step, submit, List.getElem?_append_left hlt, hb], .stay⟩
  | cancel token => exact ⟨b, by rw [step, batches_cancel, hb], .stay⟩

end Pool

/-- Reading a list in which one place is set. -/
theorem getElem?_set_eq_some {τ : Type} {l : List τ} {i j : Nat} {x y : τ} :
    (l.set i x)[j]? = some y ↔
      (i = j ∧ i < l.length ∧ x = y) ∨ (i ≠ j ∧ l[j]? = some y) := by
  rw [List.getElem?_set]
  split
  next h =>
    subst h
    split
    next hlt => simp [hlt]
    next hlt => simp [hlt]
  next h => simp [h]

namespace Batch

variable {b' : Batch ν ρ} {e : Event ν ρ}

@[simp] theorem phases_accept (i : Nat) (v : ρ) : (b.accept i v).phases = b.phases := by
  unfold accept
  extract_lets
  split <;> rfl

@[simp] theorem inbox_accept (i : Nat) (v : ρ) : (b.accept i v).inbox = b.inbox := by
  unfold accept
  extract_lets
  split <;> rfl

@[simp] theorem slots_accept (i : Nat) (v : ρ) :
    (b.accept i v).slots = b.slots.set i (some v) := by
  unfold accept
  extract_lets
  split <;> rfl

@[simp] theorem phases_post (i : Nat) (o : Except Fault ρ) : (b.post i o).phases = b.phases := by
  unfold post
  split <;> rfl

@[simp] theorem token_accept (i : Nat) (v : ρ) : (b.accept i v).token = b.token := by
  unfold accept
  extract_lets
  split <;> rfl

@[simp] theorem token_post (i : Nat) (o : Except Fault ρ) : (b.post i o).token = b.token := by
  unfold post
  split <;> rfl

@[simp] theorem deadline_accept (i : Nat) (v : ρ) : (b.accept i v).deadline = b.deadline := by
  unfold accept
  extract_lets
  split <;> rfl

@[simp] theorem deadline_post (i : Nat) (o : Except Fault ρ) :
    (b.post i o).deadline = b.deadline := by
  unfold post
  split <;> rfl

@[simp] theorem result_post (i : Nat) (o : Except Fault ρ) : (b.post i o).result = b.result := by
  unfold post
  split <;> rfl

/-- No step puts a task back into the queue. -/
theorem Step.queued {t : Task ν ρ} (h : Step p q bi b e b')
    (ht : b'.phases[i]? = some (.queued t)) : b.phases[i]? = some (.queued t) := by
  have hset : ∀ {j : Nat} {ph : Phase ν ρ}, (∀ t, ph ≠ .queued t) →
      (b.phases.set j ph)[i]? = some (.queued t) → b.phases[i]? = some (.queued t) := by
    intro j ph hph h
    rcases getElem?_set_eq_some.1 h with ⟨-, -, rfl⟩ | ⟨-, h⟩
    · exact absurd rfl (hph t)
    · exact h
  cases h with
  | stay => exact ht
  | begin => exact hset (by simp) ht
  | skip => exact hset (by simp) ht
  | go => exact hset (by simp) ht
  | stop => exact hset (by simp) ht
  | send => rw [phases_post] at ht; exact hset (by simp) ht
  | accept => rwa [phases_accept] at ht
  | refuse => exact ht
  | lose => exact ht
  | expire => exact ht

/-- No step changes the token. -/
theorem Step.token (h : Step p q bi b e b') : b'.token = b.token := by
  cases h with
  | stay => rfl
  | begin => rfl
  | skip => rfl
  | go => rfl
  | stop => rfl
  | send => rw [token_post]; rfl
  | accept => rw [token_accept]
  | refuse => rfl
  | lose => rfl
  | expire => rfl

/-- No step adds or removes a task. -/
theorem Step.length_phases (h : Step p q bi b e b') : b'.phases.length = b.phases.length := by
  cases h with
  | stay => rfl
  | begin => exact List.length_set
  | skip => exact List.length_set
  | go => exact List.length_set
  | stop => exact List.length_set
  | send => rw [phases_post]; exact List.length_set
  | accept => rw [phases_accept]
  | refuse => rfl
  | lose => rfl
  | expire => rfl

/-- A step leaves an abandoned batch as it is. -/
theorem Step.abandoned {token : Token} (h : Step p q bi (.abandoned token) e b') :
    b' = .abandoned token := by
  cases h with
  | stay => rfl
  | begin queued => cases queued
  | skip queued => cases queued
  | go running => cases running
  | stop running => cases running
  | send ended => cases ended
  | accept _ message => cases message
  | refuse _ message => cases message
  | lose _ _ tasks => exact absurd rfl tasks
  | expire _ _ timed => cases timed

/-- No step changes a result. -/
theorem Step.result {r : Except Fault (List ρ)} (h : Step p q bi b e b')
    (hr : b.result = some r) : b'.result = some r := by
  cases h with
  | stay => exact hr
  | begin => exact hr
  | skip => exact hr
  | go => exact hr
  | stop => exact hr
  | send => rw [result_post]; exact hr
  | accept waiting => rw [waiting] at hr; cases hr
  | refuse waiting => rw [waiting] at hr; cases hr
  | lose waiting => rw [waiting] at hr; cases hr
  | expire waiting => rw [waiting] at hr; cases hr

end Batch

namespace Pool

theorem batchOf_of_overruns {token : Token} {tasks : List (Task ν ρ)} (h : p.Overruns token tasks) :
    p.batchOf token tasks = .abandoned token := by
  obtain ⟨hclear, htasks, htime⟩ := h
  have htasks : ¬ tasks.isEmpty := fun habs => htasks (List.isEmpty_iff.1 habs)
  rw [batchOf, if_neg hclear, if_neg htasks, if_neg htime]

/-- **Where a caller crashes**: the limit of the pool ends after the last time of the clock. -/
theorem Overruns.limit {token : Token} {tasks : List (Task ν ρ)} (h : p.Overruns token tasks) :
    ∃ limit, p.limit = some limit ∧ p.horizon < p.clock + limit := by
  obtain ⟨-, -, htime⟩ := h
  rw [CanTime, Classical.not_forall] at htime
  obtain ⟨limit, htime⟩ := htime
  obtain ⟨hlimit, hlate⟩ := Classical.not_imp.1 htime
  exact ⟨limit, hlimit, Nat.lt_of_not_le hlate⟩

/-- A batch whose caller has crashed stays abandoned, whatever happens. -/
theorem abandoned_run {token : Token} (hb : p.batches[bi]? = some (.abandoned token))
    (events : List (Event ν ρ)) : (p.run events).batches[bi]? = some (.abandoned token) := by
  induction events generalizing p with
  | nil => exact hb
  | cons e events ih =>
    obtain ⟨b', hb', hstep⟩ := step_batch e hb
    rw [hstep.abandoned] at hb'
    exact ih hb'

end Pool

end Reframe
