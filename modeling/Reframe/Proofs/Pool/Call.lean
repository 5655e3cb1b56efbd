import Reframe.Proofs.Pool.Step

/-!
# Calls

A call is a batch handed to a pool together with the events from then on, which
may be anything: moves of any batch in any order, other submissions, flags set by
anybody. `Call.moment n` is the pool after the first `n` events.

* `Call.notesOf`: the notes of one task of the batch.
* `Call.exists_batch`: the batch is there at every moment.
* `Call.step_batch`: from one moment to the next it takes one of the listed steps.
* `Call.begins_unique`: no task begins twice.
-/

namespace Reframe

variable {ν ρ : Type}

/-- A batch handed to a pool, and what happens from then on. -/
structure Call (ν ρ : Type) where
  pool : Pool ν ρ
  token : Token
  tasks : List (Task ν ρ)
  events : List (Event ν ρ)

namespace Call

variable (c : Call ν ρ)

/-- The number of the batch. -/
def index : Nat :=
  c.pool.batches.length

/-- The pool after the first `n` events. -/
def moment (n : Nat) : Pool ν ρ :=
  (c.pool.submit c.token c.tasks).run (c.events.take n)

/-- The pool after all events. -/
def last : Pool ν ρ :=
  c.moment c.events.length

/-- What the batch has come to after all events. -/
def outcome? : Option (Except Fault (List ρ)) :=
  c.last.result? c.index

/-- What the batch has come to. -/
def result? (n : Nat) : Option (Except Fault (List ρ)) :=
  (c.moment n).result? c.index

/-- How far a task of the batch is. -/
def phase? (i n : Nat) : Option (Phase ν ρ) := do
  (← (c.moment n).batches[c.index]?).phases[i]?

/-- The notes left since the call. -/
def notes (n : Nat) : List ν :=
  (c.moment n).log.drop c.pool.log.length

/-- The flags that are set. -/
def flags (n : Nat) : List Token :=
  (c.moment n).cancelled

/-- Task `i` has not begun. -/
def Queued (i n : Nat) : Prop :=
  ∃ t, c.phase? i n = some (.queued t)

/-- Task `i` begins. -/
def Begins (i n : Nat) : Prop :=
  c.Queued i n ∧ ∃ ready t, c.phase? i (n + 1) = some (.running ready t)

/-- Task `i` is over, with a value or by a crash, while the batch is waited for. -/
def Over (i : Nat) (o : Option ρ) (n : Nat) : Prop :=
  (∃ ready, c.phase? i n = some (.running ready (Task.halted o))) ∧ c.result? n = none

/-- Task `i` has not begun, the batch is still waited for, and its token is set. -/
def CalledOff (i n : Nat) : Prop :=
  c.Queued i n ∧ c.result? n = none ∧ c.token ∈ c.flags n

/-- The time of the batch runs out while it is waited for. -/
def Expires (n : Nat) : Prop :=
  c.events[n]? = some (.move (.expire c.index)) ∧ c.result? n = none ∧ c.result? (n + 1) ≠ none

/-- The batch as it is handed to the pool. -/
def batch : Batch ν ρ :=
  c.pool.batchOf c.token c.tasks

/-- The notes that task `i` leaves with event `n`. -/
def newNotes (i n : Nat) : List ν :=
  match c.events[n]? with
  | some (.move (.advance b j)) =>
    if b = c.index ∧ j = i then (c.moment (n + 1)).log.drop (c.moment n).log.length else []
  | _ => []

/-- The notes that task `i` has left. -/
def notesOf (i : Nat) : Nat → List ν
  | 0 => []
  | n + 1 => notesOf i n ++ c.newNotes i n

variable {c} {b b' : Batch ν ρ} {e : Event ν ρ} {i m n : Nat}

theorem moment_zero : c.moment 0 = c.pool.submit c.token c.tasks := by
  rw [moment, List.take_zero, Pool.run_nil]

theorem last_eq : c.last = (c.pool.submit c.token c.tasks).run c.events := by
  rw [last, moment, List.take_length]

theorem moment_succ (he : c.events[n]? = some e) : c.moment (n + 1) = (c.moment n).step e := by
  obtain ⟨hn, rfl⟩ := List.getElem?_eq_some_iff.1 he
  rw [moment, List.take_add_one, he, Option.toList_some, Pool.run_append]
  rfl

theorem moment_succ_of_none (he : c.events[n]? = none) : c.moment (n + 1) = c.moment n := by
  rw [moment, List.take_add_one, he, Option.toList_none, List.append_nil, moment]

theorem grows_succ (n : Nat) : (c.moment n).Grows (c.moment (n + 1)) := by
  cases he : c.events[n]? with
  | none => rw [moment_succ_of_none he]; exact .refl _
  | some e => rw [moment_succ he]; exact Pool.grows_step ..

theorem grows_moment (h : m ≤ n) : (c.moment m).Grows (c.moment n) := by
  induction h with
  | refl => exact .refl _
  | step _ ih => exact ih.trans (grows_succ _)

theorem grows_pool (n : Nat) : c.pool.Grows (c.moment n) := by
  have hsubmit : c.pool.Grows (c.moment 0) := by
    rw [moment_zero]
    exact Pool.grows_submit c.pool c.token c.tasks
  exact hsubmit.trans (grows_moment n.zero_le)

theorem flags_mono (h : m ≤ n) : c.flags m ⊆ c.flags n :=
  (grows_moment h).flags

theorem notes_mono (h : m ≤ n) : c.notes m ⊆ c.notes n := by
  obtain ⟨new, hnew⟩ := (grows_moment h).log
  have hle : c.pool.log.length ≤ (c.moment m).log.length := (grows_pool m).log.length_le
  rw [notes, notes, ← hnew, List.drop_append_of_le_length hle]
  exact List.subset_append_left _ _

/-- What is noted from one moment to the next is noted since the call. -/
theorem new_subset_notes (n : Nat) :
    (c.moment (n + 1)).log.drop (c.moment n).log.length ⊆ c.notes (n + 1) :=
  List.drop_subset_drop_left _ (grows_pool n).log.length_le

theorem newNotes_advance (he : c.events[n]? = some (.move (.advance c.index i))) :
    c.newNotes i n = (c.moment (n + 1)).log.drop (c.moment n).log.length := by
  rw [newNotes, he]
  exact if_pos ⟨rfl, rfl⟩

theorem newNotes_eq_nil (he : c.events[n]? ≠ some (.move (.advance c.index i))) :
    c.newNotes i n = [] := by
  unfold newNotes
  split
  next b j hev =>
    refine if_neg ?_
    rintro ⟨rfl, rfl⟩
    exact he hev
  next => rfl

theorem notesOf_mono {m : Nat} (h : m ≤ n) : c.notesOf i m <+: c.notesOf i n := by
  induction h with
  | refl => exact List.prefix_rfl
  | step _ ih => exact ih.trans (List.prefix_append ..)

/-- What a task notes is noted since the call. -/
theorem notesOf_subset_notes (i n : Nat) : c.notesOf i n ⊆ c.notes n := by
  induction n with
  | zero => exact List.nil_subset _
  | succ n ih =>
    refine List.append_subset.2 ⟨List.Subset.trans ih (notes_mono n.le_succ), ?_⟩
    by_cases hown : c.events[n]? = some (.move (.advance c.index i))
    · rw [newNotes_advance hown]
      exact new_subset_notes n
    · rw [newNotes_eq_nil hown]
      exact List.nil_subset _

theorem batch_zero : (c.moment 0).batches[c.index]? = some c.batch := by
  rw [moment_zero]
  exact c.pool.batches_submit c.token c.tasks

/-- From one moment to the next the batch takes a step. -/
theorem step_batch (he : c.events[n]? = some e) (hb : (c.moment n).batches[c.index]? = some b) :
    ∃ b', (c.moment (n + 1)).batches[c.index]? = some b' ∧
      Batch.Step (c.moment n) (c.moment (n + 1)) c.index b e b' := by
  rw [moment_succ he]
  exact Pool.step_batch e hb

/-- The batch is there at every moment. -/
theorem exists_batch (n : Nat) : ∃ b, (c.moment n).batches[c.index]? = some b := by
  induction n with
  | zero => exact ⟨_, batch_zero⟩
  | succ n ih =>
    obtain ⟨b, hb⟩ := ih
    cases he : c.events[n]? with
    | none => exact ⟨b, by rw [moment_succ_of_none he, hb]⟩
    | some e =>
      obtain ⟨b', hb', -⟩ := step_batch he hb
      exact ⟨b', hb'⟩

theorem phase?_of_batch (hb : (c.moment n).batches[c.index]? = some b) (i : Nat) :
    c.phase? i n = b.phases[i]? := by
  rw [phase?, hb]
  rfl

theorem result?_of_batch (hb : (c.moment n).batches[c.index]? = some b) :
    c.result? n = b.result := by
  rw [result?, Pool.result?, hb]
  rfl

theorem queued_of_succ (h : c.Queued i (n + 1)) : c.Queued i n := by
  obtain ⟨t, ht⟩ := h
  obtain ⟨b, hb⟩ := c.exists_batch n
  cases he : c.events[n]? with
  | none => exact ⟨t, by rwa [phase?, moment_succ_of_none he] at ht⟩
  | some e =>
    obtain ⟨b', hb', hstep⟩ := step_batch he hb
    rw [phase?_of_batch hb'] at ht
    exact ⟨t, by rw [phase?_of_batch hb, hstep.queued ht]⟩

theorem queued_of_le (h : m ≤ n) (hq : c.Queued i n) : c.Queued i m := by
  induction h with
  | refl => exact hq
  | step _ ih => exact ih (queued_of_succ hq)

theorem not_begins_of_lt (hm : c.Begins i m) (h : m < n) : ¬ c.Begins i n := by
  -- a task in the queue was there all the time, but this one has begun
  rintro ⟨hq, -⟩
  obtain ⟨-, ready, t, hrun⟩ := hm
  obtain ⟨u, hu⟩ := queued_of_le h hq
  rw [hrun] at hu
  cases hu

/-- **No task begins twice.** -/
theorem begins_unique (hm : c.Begins i m) (hn : c.Begins i n) : m = n := by
  rcases Nat.lt_trichotomy m n with h | h | h
  · exact absurd hn (not_begins_of_lt hm h)
  · exact h
  · exact absurd hm (not_begins_of_lt hn h)

theorem begins_existsUnique (h : ∃ m, c.Begins i m) : ∃! m, c.Begins i m := by
  obtain ⟨m, hm⟩ := h
  exact ⟨m, hm, fun n hn => begins_unique hn hm⟩

end Call

end Reframe
