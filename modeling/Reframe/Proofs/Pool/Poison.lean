import Reframe.Proofs.Pool.Account
import Reframe.Proofs.Pool.Cut

/-!
# A failed batch poisons its token

A cancel flag is never taken back, and every failure of a batch sets the flag of its token.
From then on nothing is done under the token: a task that is still in the queue ends without
having begun, and every batch that is submitted under it, even an empty one or one from
within a task, is refused. A token is the number of its flag, so it does not matter which
copy of it is cancelled or used.

* `Pool.InOrder`: every batch is waited for, or has its values, or its flag is set.
* `Pool.calledOff_run`: a task that is called off never begins.
* `Pool.Poisoned`: what a flag that is set rules out.
* `Pool.poisoned_run`: **every failure sets the flag**, and that lasts.
-/

namespace Reframe

variable {ν ρ σ : Type}

/-- The task has not begun, or it has ended without. -/
def Phase.CalledOff : Phase ν ρ → Prop
  | queued _ => True
  | running .. => False
  | ended o => o = .error .cancelled
  | sent => True

namespace Batch

variable {p q : Pool ν ρ} {bi i : Nat} {b b' : Batch ν ρ} {e : Event ν ρ}

/-- Task `i` is called off. -/
def CalledOff (b : Batch ν ρ) (i : Nat) : Prop :=
  ∃ ph, b.phases[i]? = some ph ∧ ph.CalledOff

/-- Under a flag that is set, no step lets a task begin. -/
theorem CalledOff.step (h : b.CalledOff i) (hset : p.IsCancelled b.token)
    (hstep : Step p q bi b e b') : b'.CalledOff i := by
  obtain ⟨ph, hi, hoff⟩ := h
  have hother : ∀ {j : Nat} {new : Phase ν ρ}, (i = j → new.CalledOff) →
      (b.setPhase j new).CalledOff i := by
    intro j new hnew
    rcases eq_or_ne j i with rfl | hne
    · exact ⟨new, List.getElem?_set_self (List.getElem?_eq_some_iff.1 hi).1, hnew rfl⟩
    · exact ⟨ph, by rw [setPhase, List.getElem?_set_ne hne, hi], hoff⟩
  cases hstep with
  | stay => exact ⟨ph, hi, hoff⟩
  | begin _ hclear => exact absurd hset hclear
  | skip => exact hother fun _ => rfl
  | go hrun =>
    refine hother ?_
    rintro rfl
    rw [hi] at hrun
    cases hrun
    exact hoff
  | stop hrun =>
    refine hother ?_
    rintro rfl
    rw [hi] at hrun
    cases hrun
    exact hoff.elim
  | send =>
    have hsent : (Phase.sent : Phase ν ρ).CalledOff := trivial
    obtain ⟨ph', hi', hoff'⟩ := hother fun _ => hsent
    exact ⟨ph', by rw [phases_post, hi'], hoff'⟩
  | accept => exact ⟨ph, by rw [phases_accept, hi], hoff⟩
  | refuse => exact ⟨ph, hi, hoff⟩
  | lose => exact ⟨ph, hi, hoff⟩
  | expire => exact ⟨ph, hi, hoff⟩

end Batch

namespace Pool

variable {p q r : Pool ν ρ} {bi i : Nat} {b : Batch ν ρ} {m : Move} {token : Token}

/-- A batch keeps its result and the number of its tasks. -/
theorem kept_run {result : Except Fault (List ρ)} (hb : p.batches[bi]? = some b)
    (hr : b.result = some result) (events : List (Event ν ρ)) :
    ∃ b', (p.run events).batches[bi]? = some b' ∧ b'.result = some result ∧
      b'.phases.length = b.phases.length := by
  induction events generalizing p b with
  | nil => exact ⟨b, hb, hr, rfl⟩
  | cons e events ih =>
    obtain ⟨b', hb', hstep⟩ := step_batch e hb
    rw [← hstep.length_phases]
    exact ih hb' (hstep.result hr)

/-- **A task that is called off never begins.** -/
theorem calledOff_run (hset : p.IsCancelled b.token) (hb : p.batches[bi]? = some b)
    (h : b.CalledOff i) (events : List (Event ν ρ)) :
    ∃ b', (p.run events).batches[bi]? = some b' ∧ b'.CalledOff i := by
  induction events generalizing p b with
  | nil => exact ⟨b, hb, h⟩
  | cons e events ih =>
    obtain ⟨b', hb', hstep⟩ := step_batch e hb
    refine ih ?_ hb' (h.step hset hstep)
    rw [hstep.token]
    exact (grows_step p e).flags hset

/-- The batch is waited for, or it has its values, or its flag is set, or its caller has
crashed. -/
def IsInOrder (p : Pool ν ρ) (b : Batch ν ρ) : Prop :=
  b.Tidy ∨ (∃ r, b.result = some r ∧ ∀ fault, r = .error fault → p.IsCancelled b.token) ∨
    ∃ token, b = .abandoned token

/-- The flag of every batch that has failed is set. -/
def InOrder (p : Pool ν ρ) : Prop :=
  ∀ b ∈ p.batches, p.IsInOrder b

theorem isInOrder_of_ok {values : List ρ} (h : b.result = some (.ok values)) : p.IsInOrder b :=
  .inr (.inl ⟨_, h, by rintro fault ⟨⟩⟩)

theorem isInOrder_of_flag {result : Except Fault (List ρ)} (h : b.result = some result)
    (hset : p.IsCancelled b.token) : p.IsInOrder b :=
  .inr (.inl ⟨result, h, fun _ _ => hset⟩)

theorem IsInOrder.mono (h : p.IsInOrder b) (hg : p.Grows q) : q.IsInOrder b := by
  rcases h with htidy | ⟨r, hr, hset⟩ | habandoned
  · exact .inl htidy
  · exact .inr (.inl ⟨r, hr, fun fault hf => hg.flags (hset fault hf)⟩)
  · exact .inr (.inr habandoned)

/-- What is waited for changes its books; what has its result keeps it. -/
theorem IsInOrder.step {b' : Batch ν ρ} {e : Event ν ρ} (h : p.IsInOrder b) (hg : p.Grows q)
    (hstep : Batch.Step p q bi b e b') (hopen : b.Tidy → q.IsInOrder b') : q.IsInOrder b' := by
  rcases h with htidy | ⟨r, hr, hset⟩ | ⟨token, rfl⟩
  · exact hopen htidy
  · refine .inr (.inl ⟨r, hstep.result hr, fun fault hf => ?_⟩)
    rw [hstep.token]
    exact hg.flags (hset fault hf)
  · exact .inr (.inr ⟨token, hstep.abandoned⟩)

/-- Taking the message of a failure sets the flag. -/
theorem mem_flags_receive {fault : Fault} {rest : List (Nat × Except Fault ρ)}
    (h : p.receive? bi = some q) (hb : p.batches[bi]? = some b) (hwaiting : b.result = none)
    (hin : b.inbox = (i, .error fault) :: rest) : q.IsCancelled b.token := by
  obtain rfl : p.fail { b with inbox := rest } bi fault = q := by
    simpa [receive?, hb, hwaiting, hin] using h
  exact mem_cancel p b.token

/-- So does the end of the time. -/
theorem mem_flags_expire {limit deadline : Span} (h : p.expire? bi = some q)
    (hb : p.batches[bi]? = some b) (hwaiting : b.result = none) (hlimited : p.limit = some limit)
    (htimed : b.deadline = some deadline) : q.IsCancelled b.token := by
  obtain rfl : (p.atTime deadline).fail b bi (.late limit) = q := by
    simpa [expire?, atTime, hb, hwaiting, hlimited, htimed] using h
  exact mem_cancel (p.atTime deadline) b.token

theorem InOrder.move (h : p.InOrder) (hm : p.move? m = some q) : q.InOrder := by
  obtain ⟨bi, old, new, hold, hq, hstep, -⟩ := turns_move hm
  have hg := grows_move hm
  intro b hb
  rw [hq] at hb
  rcases List.mem_or_eq_of_mem_set hb with hb | rfl
  · exact (h b hb).mono hg
  refine (h old (List.mem_of_getElem? hold)).step hg hstep fun htidy => ?_
  cases hstep with
  | stay => exact .inl htidy
  | begin hi => exact .inl (htidy.setPhase hi (by simp) (by simp))
  | skip hi => exact .inl (htidy.setPhase hi (by simp) (by simp))
  | go hi => exact .inl (htidy.setPhase hi (by simp) (by simp))
  | stop hi => exact .inl (htidy.setPhase hi (by simp) (by simp))
  | send hi => exact .inl (htidy.post hi)
  | accept _ hin =>
    rcases htidy.accept hin with htidy | ⟨values, hr, -⟩
    · exact .inl htidy
    · exact isInOrder_of_ok hr
  | refuse hwaiting hin =>
    have hset := mem_flags_receive hm hold hwaiting hin
    exact isInOrder_of_flag rfl hset
  | lose _ hin _ hsent => exact absurd hsent (htidy.not_lost hin)
  | expire hwaiting hlimited htimed _ =>
    have hset := mem_flags_expire hm hold hwaiting hlimited htimed
    exact isInOrder_of_flag rfl hset

theorem InOrder.submit (h : p.InOrder) (token : Token) (tasks : List (Task ν ρ)) :
    (p.submit token tasks).InOrder := by
  intro b hb
  rcases List.mem_append.1 hb with hb | hb
  · exact h b hb
  obtain rfl := List.mem_singleton.1 hb
  rcases p.batchOf_cases token tasks with ⟨hset, heq⟩ | ⟨-, heq⟩ | ⟨htasks, heq⟩ | ⟨-, heq⟩
  · rw [heq]
    exact isInOrder_of_flag rfl hset
  · rw [heq]
    exact isInOrder_of_ok rfl
  · rw [heq]
    exact .inl (Batch.tidy_queue htasks)
  · rw [heq]
    exact .inr (.inr ⟨token, rfl⟩)

theorem InOrder.step (h : p.InOrder) (e : Event ν ρ) : (p.step e).InOrder := by
  cases e with
  | move m =>
    cases hm : p.move? m with
    | none => rwa [Pool.step, hm]
    | some q => rw [step_move hm]; exact h.move hm
  | submit token tasks => exact h.submit token tasks
  | cancel token =>
    intro b hb
    rw [Pool.step, batches_cancel] at hb
    exact (h b hb).mono (grows_cancel p token)

/-- **Every failure sets the flag**, whatever happens. -/
theorem InOrder.run (h : p.InOrder) (events : List (Event ν ρ)) : (p.run events).InOrder := by
  induction events generalizing p with
  | nil => exact h
  | cons e events ih => exact ih (h.step e)

theorem inOrder_idle (workers : Nat) (limit : Option Span) (horizon : Span) :
    (idle workers limit horizon : Pool ν ρ).InOrder := by
  simp [InOrder, idle]

theorem InOrder.flag {fault : Fault} (h : p.InOrder) (hb : p.batches[bi]? = some b)
    (hr : b.result = some (.error fault)) : p.IsCancelled b.token := by
  rcases h b (List.mem_of_getElem? hb) with htidy | ⟨r, hr', hset⟩ | ⟨token, rfl⟩
  · rw [htidy.waiting] at hr
    cases hr
  · rw [hr] at hr'
    exact hset fault (Option.some.inj hr').symm
  · cases hr

/-- **A batch that is submitted under a flag that is set is refused**: it has no tasks, and
nothing else comes of it any more. -/
theorem refused_run (hset : p.IsCancelled token) (tasks : List (Task ν ρ))
    (events : List (Event ν ρ)) :
    ∃ b, ((p.submit token tasks).run events).batches[p.batches.length]? = some b ∧
      b.result = some (.error .cancelled) ∧ b.phases = [] := by
  have hb : (p.submit token tasks).batches[p.batches.length]? =
      some (.settled token (.error .cancelled)) := by
    rw [batches_submit, batchOf, if_pos hset]
  obtain ⟨b, hb, hr, hlen⟩ := kept_run hb rfl events
  exact ⟨b, hb, hr, List.length_eq_zero_iff.1 hlen⟩

/-- A task that looks at a flag that is set goes on with that, and nothing else happens. -/
theorem advance?_check (hset : p.IsCancelled token) (hb : p.batches[bi]? = some b) {ready : Span}
    {next : Bool → Task ν ρ} (hi : b.phases[i]? = some (.running ready (.check token next))) :
    p.move? (.advance bi i) = some ((p.atTime ready).setPhase b bi i
      (.running (max p.clock ready) (next true))) := by
  have hset : (p.atTime ready).IsCancelled token := hset
  rw [move?, advance?_running hb hi, Task.act, decide_eq_true hset]
  rfl

/-- What a flag rules out, after some later events. Batches that tasks submit from within
have tasks with values of any type `σ`. -/
structure Poisoned (σ : Type) (token : Token) (p : Pool ν ρ) (later : List (Event ν ρ)) : Prop where
  /-- The flag stays set. -/
  set : (p.run later).IsCancelled token
  /-- What is in the queue never begins. -/
  queued (bi i : Nat) (b : Batch ν ρ) (t : Task ν ρ) (batch : p.batches[bi]? = some b)
    (under : b.token = token) (phase : b.phases[i]? = some (.queued t)) :
    ∃ b', (p.run later).batches[bi]? = some b' ∧ b'.CalledOff i
  /-- What comes after finding the flag clear is never done: pools that differ only in that
  note, set and answer the same. -/
  behind (r : Pool ν ρ) (others : List (Event ν ρ)) (pool : r.cut token = p.cut token)
    (events : others.map (Event.cut token) = later.map (Event.cut token)) :
    (r.run others).log = (p.run later).log ∧
      (r.run others).cancelled = (p.run later).cancelled ∧
      ∀ bi, (r.run others).result? bi = (p.run later).result? bi
  /-- Batches are refused, empty ones too, and stay without tasks. -/
  submitted (tasks : List (Task ν ρ)) (events : List (Event ν ρ)) :
    ∃ b, (((p.run later).submit token tasks).run events).batches[(p.run later).batches.length]? =
        some b ∧ b.result = some (.error .cancelled) ∧ b.phases = []
  /-- So are batches from within a task, in one step and with no other effect. -/
  nested (bi i : Nat) (b : Batch ν ρ) (ready : Span) (tasks : List (Task ν σ))
    (k : Except Fault (List σ) → Task ν ρ) (batch : (p.run later).batches[bi]? = some b)
    (phase : b.phases[i]? = some (.running ready ((Task.each token tasks).bind k))) :
    (p.run later).move? (.advance bi i) = some (((p.run later).atTime ready).setPhase b bi i
      (.running (max (p.run later).clock ready) (k (.error .cancelled))))
  /-- One that is under way ends before its next task. -/
  underWay (bi i j : Nat) (b : Batch ν ρ) (ready : Span) (t : Task ν σ) (tasks : List (Task ν σ))
    (k : Except Fault (List σ) → Task ν ρ) (batch : (p.run later).batches[bi]? = some b)
    (phase : b.phases[i]? = some (.running ready ((Task.eachFrom token j (t :: tasks)).bind k))) :
    (p.run later).move? (.advance bi i) = some (((p.run later).atTime ready).setPhase b bi i
      (.running (max (p.run later).clock ready) (k (.error .cancelled))))

/-- **Failure poisons the token**, and for good: whatever has happened to a pool, the flag of
every batch that has failed is set, and what a flag that is set rules out is ruled out
whatever happens later. -/
theorem poisoned_run (σ : Type) (workers : Nat) (limit : Option Span) (horizon : Span)
    (history : List (Event ν ρ)) :
    let p : Pool ν ρ := (idle workers limit horizon).run history
    (∀ (bi : Nat) (b : Batch ν ρ) (fault : Fault), p.batches[bi]? = some b →
      b.result = some (.error fault) → p.IsCancelled b.token) ∧
    ∀ token, p.IsCancelled token → ∀ later, p.Poisoned σ token later := by
  intro p
  refine ⟨fun bi b fault hb hr => ?_, fun token hset later => ?_⟩
  · exact ((inOrder_idle workers limit horizon).run history).flag hb hr
  have hstill : (p.run later).IsCancelled token := (grows_run p later).flags hset
  refine ⟨hstill, ?_, ?_, ?_, ?_, ?_⟩
  · rintro bi i b t hb rfl hi
    exact calledOff_run hset hb ⟨_, hi, trivial⟩ later
  · intro r others hr he
    have hcut := run_congr_cut hset hr he
    have hlog : ((r.run others).cut token).log = ((p.run later).cut token).log := by rw [hcut]
    have hflags : ((r.run others).cut token).cancelled = ((p.run later).cut token).cancelled := by
      rw [hcut]
    refine ⟨hlog, hflags, fun bi => ?_⟩
    calc (r.run others).result? bi = ((r.run others).cut token).result? bi :=
          (result?_cut _ bi).symm
      _ = ((p.run later).cut token).result? bi := by rw [hcut]
      _ = (p.run later).result? bi := result?_cut _ bi
  · exact refused_run hstill
  · intro bi i b ready tasks k hb hi
    exact advance?_check hstill hb hi
  · intro bi i j b ready t tasks k hb hi
    exact advance?_check hstill hb hi

/-- The first of two tasks has crashed, the second one is in the queue. -/
def crashed : List (Event Nat Nat) :=
  .submit 0 [.crash, .note 7 (.done 1)] ::
    [.start 0 0, .advance 0 0, .send 0 0, .receive 0].map .move

theorem poisoned_run_crashed :
    let p : Pool Nat Nat := (idle 1 none .horizon).run crashed
    p.result? 0 = some (.error (.crashed 0)) ∧ p.IsCancelled 0 ∧
      (∃ b, (p.run [.move (.start 0 1)]).batches[0]? = some b ∧ b.CalledOff 1) ∧
      ∃ b, (p.submit 0 []).batches[1]? = some b ∧ b.result = some (.error .cancelled) := by
  intro p
  have hr : p.result? 0 = some (.error (.crashed 0)) := by decide
  obtain ⟨hflag, hpoisoned⟩ := poisoned_run Nat 1 none .horizon crashed
  have h : p.IsCancelled 0 := hflag 0 _ (.crashed 0) rfl rfl
  have hoff := (hpoisoned 0 h [.move (.start 0 1)]).queued 0 1 _ _ rfl rfl rfl
  obtain ⟨b, hb, hrefused, -⟩ := (hpoisoned 0 h []).submitted [] []
  exact ⟨hr, h, hoff, b, hb, hrefused⟩

end Pool

end Reframe
