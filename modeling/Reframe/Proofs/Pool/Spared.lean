import Reframe.Proofs.Pool.Account
import Reframe.Proofs.Pool.Only

/-!
# Tokens that are spared

A token is spared when it is not set, no task that is left would set it, and no batch
under it is still waited for. A batch under a spared token can only be called off by
its own failure, as long as events spare the token too. So it is never cancelled, and
its tasks never find the token set.

* `Pool.spares_run`: events that spare a token leave it spared.
* `Call.IsSpared.not_mem_flags`: the token is not set while the batch is waited for.
* `Call.IsSpared.outcome`: what a batch under a spared token comes to.
-/

namespace Reframe

variable {ν ρ : Type} {token : Token} {bi : Nat}

/-- The event neither sets the token, nor brings anything that could. -/
def Event.Spares (token : Token) : Event ν ρ → Prop
  | move _ => True
  | submit t tasks => t ≠ token ∧ ∀ u ∈ tasks, u.Spares token
  | cancel t => t ≠ token

theorem Event.Spares.only {e : Event ν ρ} (h : e.Spares token) : e.Only (Task.Spares token) := by
  cases e with
  | move m => trivial
  | submit t tasks => exact h.2
  | cancel t => trivial

namespace Pool

variable {p q : Pool ν ρ} {tasks : List (Task ν ρ)} {events : List (Event ν ρ)}

/-- Only a failure of batch `bi`, if at all, has set the token, and only batch `bi`, if
it is still waited for, can. -/
structure Guards (token : Token) (bi : Nat) (p : Pool ν ρ) : Prop where
  flag : token ∈ p.cancelled → ∃ fault, p.result? bi = some (.error fault)
  others : ∀ bj b, p.batches[bj]? = some b → b.token = token → bj ≠ bi → b.result ≠ none
  tasks : p.Only (Task.Spares token)

/-- The token is not set, and nothing in the pool will set it. -/
structure Spares (token : Token) (p : Pool ν ρ) : Prop where
  flag : token ∉ p.cancelled
  batches : ∀ b ∈ p.batches, b.token = token → b.result ≠ none
  tasks : p.Only (Task.Spares token)

theorem spares_idle (workers : Nat) (limit : Option Span) (horizon : Span) :
    (idle workers limit horizon : Pool ν ρ).Spares token where
  flag := List.not_mem_nil
  batches _ hb := absurd hb List.not_mem_nil
  tasks := only_idle workers limit horizon

/-- A spared token is guarded, by whatever batch. -/
theorem Spares.guards (h : p.Spares token) (bi : Nat) : p.Guards token bi where
  flag hmem := absurd hmem h.flag
  others _ b hb ht _ := h.batches b (List.mem_of_getElem? hb) ht
  tasks := h.tasks

/-- The batches after a submission: the old ones, and one under the token. -/
theorem getElem?_submit {t : Token} {bj : Nat} {b : Batch ν ρ}
    (h : (p.submit t tasks).batches[bj]? = some b) :
    p.batches[bj]? = some b ∨ (bj = p.batches.length ∧ b.token = t) := by
  rw [Pool.submit, List.getElem?_append] at h
  split at h
  · exact .inl h
  next hle =>
    rw [List.getElem?_singleton] at h
    split at h
    next hj =>
      cases h
      exact .inr ⟨by omega, token_batchOf p t tasks⟩
    next => cases h

theorem Spares.submit (h : p.Spares token) (ht : ∀ t ∈ tasks, t.Spares token) :
    (p.submit token tasks).Guards token p.batches.length where
  flag hmem := absurd hmem h.flag
  others bj b hb htoken hne := by
    rcases getElem?_submit hb with hb | ⟨rfl, -⟩
    · exact h.batches b (List.mem_of_getElem? hb) htoken
    · exact absurd rfl hne
  tasks := h.tasks.submit ht

theorem result?_step {r : Except Fault (List ρ)} (e : Event ν ρ) (hr : p.result? bi = some r) :
    (p.step e).result? bi = some r := by
  obtain ⟨b, hb, hr⟩ := Option.bind_eq_some_iff.1 hr
  obtain ⟨b', hb', hstep⟩ := step_batch e hb
  rw [result?, hb']
  exact hstep.result hr

theorem Guards.move {m : Move} (h : p.Guards token bi) (hm : p.move? m = some q) :
    q.Guards token bi := by
  obtain ⟨bj, old, new, hold, hq, hstep, hflags⟩ := turns_move hm
  have hlt : bj < p.batches.length := (List.getElem?_eq_some_iff.1 hold).1
  refine ⟨fun hmem => ?_, fun bk b hb htoken hne => ?_, h.tasks.move (Task.isKept_spares token) hm⟩
  · -- the flag was set before, or by a task, which no task would do, or by a failure
    rcases hflags token hmem with hmem | ⟨ready, next, hrun⟩ | ⟨htoken, hwaiting, fault, hfault⟩
    · obtain ⟨fault, hfault⟩ := h.flag hmem
      exact ⟨fault, step_move hm ▸ result?_step (.move m) hfault⟩
    · have hspares := h.tasks old (List.mem_of_getElem? hold) _ hrun
      exact absurd rfl hspares.1
    · rcases eq_or_ne bj bi with rfl | hne
      · refine ⟨fault, ?_⟩
        rw [result?, hq, List.getElem?_set_self hlt]
        exact hfault
      · exact absurd hwaiting (h.others bj old hold htoken hne)
  · rw [hq] at hb
    rcases getElem?_set_eq_some.1 hb with ⟨rfl, -, rfl⟩ | ⟨-, hb⟩
    · have hdone := h.others bj old hold (hstep.token ▸ htoken) hne
      obtain ⟨r, hr⟩ := Option.ne_none_iff_exists'.1 hdone
      rw [hstep.result hr]
      exact Option.some_ne_none r
    · exact h.others bk b hb htoken hne

theorem Guards.event {e : Event ν ρ} (h : p.Guards token bi) (he : e.Spares token) :
    (p.step e).Guards token bi := by
  cases e with
  | move m =>
    cases hm : p.move? m with
    | none => rwa [step, hm]
    | some q => rw [step_move hm]; exact h.move hm
  | submit t tasks =>
    refine ⟨fun hmem => ?_, fun bj b hb htoken hne => ?_, h.tasks.submit he.2⟩
    · obtain ⟨fault, hfault⟩ := h.flag hmem
      exact ⟨fault, result?_step (.submit t tasks) hfault⟩
    · rcases getElem?_submit hb with hb | ⟨-, ht⟩
      · exact h.others bj b hb htoken hne
      · exact absurd (ht.symm.trans htoken) he.1
  | cancel t =>
    refine ⟨fun hmem => ?_, fun bj b hb => ?_, ?_⟩
    · rcases mem_or_eq_of_mem_cancel hmem with hmem | rfl
      · obtain ⟨fault, hfault⟩ := h.flag hmem
        exact ⟨fault, result?_step (.cancel t) hfault⟩
      · exact absurd rfl he
    · rw [step, batches_cancel] at hb
      exact h.others bj b hb
    · exact h.tasks.event (Task.isKept_spares token) trivial

theorem Guards.run (h : p.Guards token bi) (he : ∀ e ∈ events, e.Spares token) :
    (p.run events).Guards token bi := by
  induction events generalizing p with
  | nil => exact h
  | cons e events ih =>
    have hhead := h.event (he e List.mem_cons_self)
    exact ih hhead fun e' he' => he e' (List.mem_cons_of_mem _ he')

/-- A guarded token is spared once its batch has come to anything but a fault. -/
theorem Guards.spares {values : List ρ} (h : p.Guards token bi)
    (hr : p.result? bi = some (.ok values)) : p.Spares token where
  flag hmem := by
    obtain ⟨fault, hfault⟩ := h.flag hmem
    rw [hr] at hfault
    cases hfault
  batches b hb htoken := by
    obtain ⟨bj, hbj⟩ := List.getElem?_of_mem hb
    rcases eq_or_ne bj bi with rfl | hne
    · rw [result?, hbj] at hr
      have hr : b.result = some (.ok values) := hr
      rw [hr]
      exact Option.some_ne_none _
    · exact h.others bj b hbj htoken hne
  tasks := h.tasks

/-- **Events that spare a token leave it spared.** -/
theorem spares_run (h : p.Spares token) (he : ∀ e ∈ events, e.Spares token) :
    (p.run events).Spares token := by
  -- a batch that is not there guards the token without having a result
  have hguards := (h.guards (p.run events).batches.length).run he
  have hnone : (p.run events).result? (p.run events).batches.length = none := by
    rw [result?, List.getElem?_eq_none (Nat.le_refl _)]
    rfl
  refine ⟨fun hmem => ?_, fun b hb htoken => ?_, hguards.tasks⟩
  · obtain ⟨fault, hfault⟩ := hguards.flag hmem
    rw [hnone] at hfault
    cases hfault
  · obtain ⟨bj, hbj⟩ := List.getElem?_of_mem hb
    have hlt : bj < (p.run events).batches.length := (List.getElem?_eq_some_iff.1 hbj).1
    exact hguards.others bj b hbj htoken (Nat.ne_of_lt hlt)

end Pool

namespace Call

variable {c : Call ν ρ} {i n : Nat}

/-- The call and its events spare the token of its batch. -/
structure IsSpared (c : Call ν ρ) : Prop where
  pool : c.pool.Spares c.token
  tasks : ∀ t ∈ c.tasks, t.Spares c.token
  events : ∀ e ∈ c.events, e.Spares c.token

theorem IsSpared.guards (h : c.IsSpared) (n : Nat) : (c.moment n).Guards c.token c.index :=
  (h.pool.submit h.tasks).run fun e he => h.events e (List.mem_of_mem_take he)

/-- The token is only set once the batch has failed. -/
theorem IsSpared.not_mem_flags (h : c.IsSpared) (hn : c.result? n = none) :
    c.token ∉ c.flags n := by
  intro hmem
  obtain ⟨fault, hfault⟩ := (h.guards n).flag hmem
  rw [result?, hfault] at hn
  cases hn

theorem IsSpared.not_calledOff (h : c.IsSpared) : ¬ c.CalledOff i n := by
  rintro ⟨-, hwaiting, hmem⟩
  exact h.not_mem_flags hwaiting hmem

/-- A task that is over could come to that with its own notes, and without finding the token
set. -/
theorem IsSpared.over_ends {o : Option ρ} {r : Except Fault (List ρ)} (h : c.IsSpared)
    (hr : c.outcome? = some r) (hover : c.Over i o n) :
    ∃ t, c.tasks[i]? = some t ∧ t.EndsSpared c.token (c.notesOf i c.events.length) o := by
  obtain ⟨-, t, ht, hends⟩ := hover.begins_ends_own
  have hnotes : c.notesOf i n ⊆ c.notesOf i c.events.length :=
    (notesOf_mono (Nat.le_of_lt (over_lt hr hover))).subset
  exact ⟨t, ht, c.flags n, h.not_mem_flags hover.2, hends.mono hnotes (List.Subset.refl _)⟩

/-- **What a batch under a spared token comes to**: the values of all tasks, and the token
is still spared; or the crash of a task; or the end of its time. It is never cancelled. -/
theorem IsSpared.outcome (h : c.IsSpared) {r : Except Fault (List ρ)} (hr : c.outcome? = some r) :
    (∃ values, r = .ok values ∧ c.last.Spares c.token ∧ List.Forall₂ (fun t value =>
      ∃ i, t.EndsSpared c.token (c.notesOf i c.events.length) (some value)) c.tasks values) ∨
    (∃ i t, r = .error (.crashed i) ∧ c.tasks[i]? = some t ∧
      t.EndsSpared c.token (c.notesOf i c.events.length) none) ∨
    ∃ limit, r = .error (.late limit) ∧ c.pool.limit = some limit ∧
      c.pool.clock + limit ≤ c.last.clock ∧ ∃ n, c.Expires n := by
  rcases r with fault | values
  · rcases fault_cases hr with ⟨i, n, rfl, hover⟩ | ⟨rfl, hset | ⟨i, n, hoff⟩⟩ | ⟨limit, rfl, hlate⟩
    · obtain ⟨t, ht, hends⟩ := h.over_ends hr hover
      exact .inr (.inl ⟨i, t, rfl, ht, hends⟩)
    · exact absurd hset h.pool.flag
    · exact absurd hoff h.not_calledOff
    · exact .inr (.inr ⟨limit, rfl, hlate⟩)
  · refine .inl ⟨values, rfl, (h.guards _).spares hr, (forall₂_of_ok hr).imp fun t value ht => ?_⟩
    obtain ⟨i, n, ht, hover, -⟩ := ht
    obtain ⟨t', ht', hends⟩ := h.over_ends hr hover
    obtain rfl : t = t' := Option.some.inj (ht.symm.trans ht')
    exact ⟨i, hends⟩

end Call

end Reframe
