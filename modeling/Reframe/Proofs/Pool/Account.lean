import Reframe.Proofs.Pool.Call

/-!
# The account of a batch

While a batch is waited for, each task that has sent its message has it in the
inbox or its value in the slots, never in both, and no other task has anything there
(`Batch.Tidy`). So the waiting ends with all values or with the fault of one task, and
what every message says is borne out by the course so far (`Call.Founded`).

* `Batch.Tidy.accept`: the last value completes the batch.
* `Batch.Tidy.not_lost`: messages do not run out before that.
* `Call.account`: the account holds at every moment.
* `Call.explained`, `Call.fault_cases`: so what the batch comes to is borne out.
-/

namespace Reframe

variable {ν ρ : Type}

namespace Batch

variable {b : Batch ν ρ} {i : Nat}

/-- The tasks whose messages are not yet taken. -/
def posted (b : Batch ν ρ) : List Nat :=
  b.inbox.map Prod.fst

/-- The books of a batch that is waited for. -/
structure Tidy (b : Batch ν ρ) : Prop where
  waiting : b.result = none
  slots : b.slots.length = b.phases.length
  filed : ∀ i, b.phases[i]? = some .sent ↔ i ∈ b.posted ∨ ∃ v, b.slots[i]? = some (some v)
  apart : ∀ i ∈ b.posted, b.slots[i]? = some none
  nodup : b.posted.Nodup
  received : b.received = b.slots.countP Option.isSome
  missing : b.received < b.phases.length

theorem collect_eq_ok {slots : List (Option ρ)} (h : ∀ s ∈ slots, s.isSome) :
    ∃ values, collect slots = .ok values ∧ slots = values.map some := by
  have hmap : ∃ values, slots.mapM id = some values ∧ slots = values.map some := by
    induction slots with
    | nil => exact ⟨[], rfl, rfl⟩
    | cons s slots ih =>
      obtain ⟨v, rfl⟩ := Option.isSome_iff_exists.1 (h s List.mem_cons_self)
      obtain ⟨values, hvalues, heq⟩ := ih fun s hs => h s (List.mem_cons_of_mem _ hs)
      exact ⟨v :: values, by simp [hvalues], by rw [heq, List.map_cons]⟩
  obtain ⟨values, hvalues, heq⟩ := hmap
  exact ⟨values, by rw [collect, hvalues], heq⟩

theorem tidy_queue {token : Token} {deadline : Option Span} {tasks : List (Task ν ρ)}
    (h : tasks ≠ []) : (queue token deadline tasks).Tidy where
  waiting := rfl
  slots := by simp [queue]
  filed i := by simp [queue, posted, List.getElem?_replicate]
  apart := by simp [queue, posted]
  nodup := List.nodup_nil
  received := by
    have : (tasks.map fun _ => (none : Option ρ)).countP Option.isSome = 0 := by simp
    rw [queue, this]
  missing := by
    have : 0 < tasks.length := List.length_pos_iff.2 h
    simpa [queue]

/-- Before its message is sent, a task can be in any phase. -/
theorem Tidy.setPhase {old new : Phase ν ρ} (h : b.Tidy) (hi : b.phases[i]? = some old)
    (ho : old ≠ .sent) (hn : new ≠ .sent) : (b.setPhase i new).Tidy where
  waiting := h.waiting
  slots := by rw [Batch.setPhase, List.length_set, h.slots]
  filed j := by
    change (b.phases.set i new)[j]? = some .sent ↔ j ∈ b.posted ∨ ∃ v, b.slots[j]? = some (some v)
    rw [← h.filed j, getElem?_set_eq_some]
    constructor
    · rintro (⟨-, -, heq⟩ | ⟨-, hj⟩)
      · exact absurd heq hn
      · exact hj
    · intro hj
      refine .inr ⟨?_, hj⟩
      rintro rfl
      rw [hi] at hj
      exact ho (Option.some.inj hj)
  apart := h.apart
  nodup := h.nodup
  received := h.received
  missing := by
    rw [Batch.setPhase, List.length_set]
    exact h.missing

theorem Tidy.post {o : Except Fault ρ} (h : b.Tidy) (hi : b.phases[i]? = some (.ended o)) :
    ((b.setPhase i .sent).post i o).Tidy := by
  have hpost : (b.setPhase i .sent).post i o =
      { b with phases := b.phases.set i .sent, inbox := b.inbox ++ [(i, o)] } := by
    have : (b.setPhase i .sent).result.isSome = false := by simp [Batch.setPhase, h.waiting]
    rw [Batch.post, this]
    rfl
  have hlt : i < b.phases.length := (List.getElem?_eq_some_iff.1 hi).1
  -- the task has not sent anything yet, so nothing of it is there
  have hnew : ¬ (i ∈ b.posted ∨ ∃ v, b.slots[i]? = some (some v)) := by
    rw [← h.filed i, hi]
    simp
  have hmem : ∀ j, j ∈ (b.inbox ++ [(i, o)]).map Prod.fst ↔ j ∈ b.posted ∨ j = i := by
    simp [posted]
  rw [hpost]
  constructor
  · exact h.waiting
  · simpa using h.slots
  · intro j
    change (b.phases.set i .sent)[j]? = some .sent ↔
      j ∈ (b.inbox ++ [(i, o)]).map Prod.fst ∨ ∃ v, b.slots[j]? = some (some v)
    rw [hmem, getElem?_set_eq_some, h.filed j]
    rcases eq_or_ne i j with rfl | hne
    · simp [hlt]
    · simp [hne, hne.symm]
  · intro j hj
    rcases (hmem j).1 hj with hj | rfl
    · exact h.apart j hj
    · -- its slot is there and holds no value
      have hslot : j < b.slots.length := h.slots ▸ hlt
      cases hs : b.slots[j]? with
      | none => exact absurd (List.getElem?_eq_none_iff.1 hs) (by omega)
      | some s =>
        cases s with
        | none => rfl
        | some v => exact absurd (.inr ⟨v, hs⟩) hnew
  · change ((b.inbox ++ [(i, o)]).map Prod.fst).Nodup
    rw [List.map_append, List.nodup_append]
    refine ⟨h.nodup, by simp, ?_⟩
    rintro j hj k hk rfl
    obtain rfl : j = i := by simpa using hk
    exact hnew (.inl hj)
  · exact h.received
  · simpa using h.missing

theorem countP_isSome_set {slots : List (Option ρ)} (h : slots[i]? = some none) (v : ρ) :
    (slots.set i (some v)).countP Option.isSome = slots.countP Option.isSome + 1 := by
  obtain ⟨hlt, hget⟩ := List.getElem?_eq_some_iff.1 h
  simp [List.countP_set, hlt, hget]

/-- **The last value completes the batch**; any other leaves its books in order. -/
theorem Tidy.accept {v : ρ} {rest : List (Nat × Except Fault ρ)} (h : b.Tidy)
    (hin : b.inbox = (i, .ok v) :: rest) :
    ({ b with inbox := rest }.accept i v).Tidy ∨
      ∃ values, ({ b with inbox := rest }.accept i v).result = some (.ok values) ∧
        b.slots.set i (some v) = values.map some := by
  have hposted : b.posted = i :: rest.map Prod.fst := by rw [posted, hin, List.map_cons]
  have hempty : b.slots[i]? = some none := h.apart i (by rw [hposted]; exact List.mem_cons_self)
  have hcount := countP_isSome_set hempty v
  have hnodup := h.nodup
  rw [hposted, List.nodup_cons] at hnodup
  unfold Batch.accept
  extract_lets b'
  split
  next hall =>
    -- as many values as tasks: no slot is empty
    refine .inr ?_
    have hlen : (b.slots.set i (some v)).countP Option.isSome =
        (b.slots.set i (some v)).length := by
      have hall : b.received + 1 = b.phases.length := hall
      rw [hcount, ← h.received, List.length_set, h.slots, hall]
    obtain ⟨values, hvalues, heq⟩ := collect_eq_ok (List.countP_eq_length.1 hlen)
    exact ⟨values, by rw [finish, ← hvalues], heq⟩
  next hmore =>
    refine .inl ⟨h.waiting, ?_, ?_, ?_, hnodup.2, ?_, ?_⟩
    · change (b.slots.set i (some v)).length = b.phases.length
      rw [List.length_set, h.slots]
    · intro j
      change b.phases[j]? = some .sent ↔
        j ∈ rest.map Prod.fst ∨ ∃ w, (b.slots.set i (some v))[j]? = some (some w)
      have hlt : i < b.slots.length := (List.getElem?_eq_some_iff.1 hempty).1
      rw [h.filed j, hposted, List.mem_cons]
      rcases eq_or_ne j i with rfl | hne
      · simp [hlt]
      · simp [hne, List.getElem?_set_ne hne.symm]
    · intro j hj
      have hne : i ≠ j := by
        rintro rfl
        exact hnodup.1 hj
      change (b.slots.set i (some v))[j]? = some none
      rw [List.getElem?_set_ne hne]
      exact h.apart j (by rw [hposted]; exact List.mem_cons_of_mem _ hj)
    · change b.received + 1 = (b.slots.set i (some v)).countP Option.isSome
      rw [hcount, h.received]
    · have hmore : b.received + 1 ≠ b.phases.length := hmore
      have := h.missing
      change b.received + 1 < b.phases.length
      omega

/-- **Messages do not run out**: when all are sent and taken, the batch is complete. -/
theorem Tidy.not_lost (h : b.Tidy) (hin : b.inbox = []) : ¬ b.phases.all Phase.isSent := by
  intro hsent
  have hsome : ∀ s ∈ b.slots, s.isSome := by
    intro s hs
    obtain ⟨i, hi⟩ := List.getElem?_of_mem hs
    have hlt : i < b.phases.length := h.slots ▸ (List.getElem?_eq_some_iff.1 hi).1
    have hphase : b.phases[i].isSent := List.all_eq_true.1 hsent _ (List.getElem_mem hlt)
    have heq : b.phases[i]? = some .sent := by
      rw [List.getElem?_eq_getElem hlt]
      cases hph : b.phases[i] <;> simp_all [Phase.isSent]
    rcases (h.filed i).1 heq with hmem | ⟨v, hv⟩
    · simp [posted, hin] at hmem
    · rw [hi] at hv
      simp [Option.some.inj hv]
  have hlen : b.slots.countP Option.isSome = b.slots.length := List.countP_eq_length.2 hsome
  have := h.missing
  have := h.received
  have := h.slots
  omega

end Batch

namespace Call

/-- What a task says in its message is borne out by the course. -/
def Founded (c : Call ν ρ) (i : Nat) : Except Fault ρ → Prop
  | .ok value => ∃ n, c.Over i (some value) n
  | .error (.crashed j) => j = i ∧ ∃ n, c.Over i none n
  | .error .cancelled => ∃ n, c.CalledOff i n
  | .error _ => False

/-- How far a task is, is borne out by the course. -/
def Stands (c : Call ν ρ) (n i : Nat) : Phase ν ρ → Prop
  | .queued t => c.tasks[i]? = some t
  | .running _ u => (∃ m, c.Begins i m) ∧
      ∃ t, c.tasks[i]? = some t ∧ t.Walks (c.notesOf i n) (c.flags n) u
  | .ended o => c.Founded i o
  | .sent => True

/-- The account of a batch that is waited for. -/
structure Open (c : Call ν ρ) (n : Nat) (b : Batch ν ρ) : Prop where
  tidy : b.Tidy
  token : b.token = c.token
  deadline : b.deadline = c.pool.limit.map (c.pool.clock + ·)
  length : b.phases.length = c.tasks.length
  phases : ∀ i ph, b.phases[i]? = some ph → c.Stands n i ph
  inbox : ∀ i o, (i, o) ∈ b.inbox → c.Founded i o
  slots : ∀ i v, b.slots[i]? = some (some v) → c.Founded i (.ok v)

/-- What the batch comes to is borne out by the course. -/
def Explained (c : Call ν ρ) : Except Fault (List ρ) → Prop
  | .ok values => values.length = c.tasks.length ∧
      ∀ i value, values[i]? = some value → c.Founded i (.ok value)
  | .error (.crashed i) => c.Founded i (.error (.crashed i))
  | .error .cancelled => c.pool.IsCancelled c.token ∨ ∃ i n, c.CalledOff i n
  | .error (.late limit) => c.pool.limit = some limit ∧
      c.pool.clock + limit ≤ c.last.clock ∧ ∃ n, c.Expires n
  | .error (.lost _) => False

variable {c : Call ν ρ} {b b' : Batch ν ρ} {e : Event ν ρ} {i m n : Nat}

theorem Stands.mono {ph : Phase ν ρ} (hle : m ≤ n) (h : c.Stands m i ph) : c.Stands n i ph := by
  cases ph with
  | queued t => exact h
  | running ready u =>
    obtain ⟨hbegins, t, ht, hwalks⟩ := h
    exact ⟨hbegins, t, ht, hwalks.mono (c.notesOf_mono hle).subset (c.flags_mono hle)⟩
  | ended o => exact h
  | sent => trivial

theorem Open.mono (hle : m ≤ n) (h : c.Open m b) : c.Open n b :=
  { h with phases := fun i ph hph => (h.phases i ph hph).mono hle }

/-- A task can go to any phase that is borne out, short of having sent its message. -/
theorem Open.setPhase {old new : Phase ν ρ} (h : c.Open n b) (hi : b.phases[i]? = some old)
    (ho : old ≠ .sent) (hn : new ≠ .sent) (hnew : c.Stands n i new) :
    c.Open n (b.setPhase i new) where
  tidy := h.tidy.setPhase hi ho hn
  token := h.token
  deadline := h.deadline
  length := by rw [Batch.setPhase, List.length_set, h.length]
  phases j ph hj := by
    rcases getElem?_set_eq_some.1 hj with ⟨rfl, -, rfl⟩ | ⟨-, hj⟩
    · exact hnew
    · exact h.phases j ph hj
  inbox := h.inbox
  slots := h.slots

theorem Open.post {o : Except Fault ρ} (h : c.Open n b) (hi : b.phases[i]? = some (.ended o)) :
    c.Open n ((b.setPhase i .sent).post i o) where
  tidy := h.tidy.post hi
  token := by rw [Batch.token_post]; exact h.token
  deadline := by rw [Batch.deadline_post]; exact h.deadline
  length := by rw [Batch.phases_post, Batch.setPhase, List.length_set, h.length]
  phases j ph hj := by
    rw [Batch.phases_post] at hj
    rcases getElem?_set_eq_some.1 hj with ⟨-, -, rfl⟩ | ⟨-, hj⟩
    · trivial
    · exact h.phases j ph hj
  inbox j o' hj := by
    have : (b.setPhase i .sent).result.isSome = false := by
      simp [Batch.setPhase, h.tidy.waiting]
    rw [Batch.post, this] at hj
    rcases List.mem_append.1 hj with hj | hj
    · exact h.inbox j o' hj
    · obtain ⟨rfl, rfl⟩ : j = i ∧ o' = o := by simpa using hj
      exact h.phases j _ hi
  slots j v hj := by
    have hslots : ((b.setPhase i .sent).post i o).slots = b.slots := by
      unfold Batch.post
      split <;> rfl
    exact h.slots j v (hslots ▸ hj)

/-- The account of a batch: it is open, or closed by a result that is borne out, or its
caller has crashed. -/
def Account (c : Call ν ρ) (n : Nat) (b : Batch ν ρ) : Prop :=
  c.Open n b ∨ (∃ r, b.result = some r ∧ c.Explained r) ∨ b = .abandoned c.token

theorem account_of_result {r : Except Fault (List ρ)} (hr : b.result = some r)
    (hexplained : c.Explained r) : c.Account n b :=
  .inr (.inl ⟨r, hr, hexplained⟩)

/-- What the slots hold after the message of task `i` is borne out. -/
theorem Open.founded_set {v w : ρ} {j : Nat} (h : c.Open n b) (hv : c.Founded i (.ok v))
    (hj : (b.slots.set i (some v))[j]? = some (some w)) : c.Founded j (.ok w) := by
  rcases getElem?_set_eq_some.1 hj with ⟨rfl, -, heq⟩ | ⟨-, hj⟩
  · obtain rfl : v = w := Option.some.inj heq
    exact hv
  · exact h.slots j w hj

theorem Open.accept {v : ρ} {rest : List (Nat × Except Fault ρ)} (h : c.Open n b)
    (hin : b.inbox = (i, .ok v) :: rest) : c.Account n ({ b with inbox := rest }.accept i v) := by
  have hv : c.Founded i (.ok v) := h.inbox i (.ok v) (by rw [hin]; exact List.mem_cons_self)
  rcases h.tidy.accept hin with htidy | ⟨values, hresult, hslots⟩
  · refine .inl ⟨htidy, ?_, ?_, ?_, ?_, ?_, ?_⟩
    · rw [Batch.token_accept]
      exact h.token
    · rw [Batch.deadline_accept]
      exact h.deadline
    · rw [Batch.phases_accept]
      exact h.length
    · intro j ph hj
      rw [Batch.phases_accept] at hj
      exact h.phases j ph hj
    · intro j o hj
      rw [Batch.inbox_accept] at hj
      exact h.inbox j o (by rw [hin]; exact List.mem_cons_of_mem _ hj)
    · intro j w hj
      rw [Batch.slots_accept] at hj
      exact h.founded_set hv hj
  · refine account_of_result hresult ⟨?_, ?_⟩
    · have hlen := congrArg List.length hslots
      rw [List.length_set, List.length_map, h.tidy.slots, h.length] at hlen
      exact hlen.symm
    · intro j w hj
      refine h.founded_set hv ?_
      rw [hslots, List.getElem?_map, hj]
      rfl

theorem account_zero (c : Call ν ρ) : c.Account 0 c.batch := by
  unfold batch
  rcases c.pool.batchOf_cases c.token c.tasks with ⟨hset, heq⟩ | ⟨hempty, heq⟩ | ⟨htasks, heq⟩ |
    ⟨-, heq⟩
  · rw [heq]
    exact account_of_result rfl (.inl hset)
  · rw [heq]
    exact account_of_result rfl ⟨by rw [hempty]; rfl, by simp⟩
  · rw [heq]
    refine .inl ⟨Batch.tidy_queue htasks, rfl, rfl, List.length_map .., ?_, ?_, ?_⟩
    · intro i ph hph
      obtain ⟨t, ht, rfl⟩ : ∃ t, c.tasks[i]? = some t ∧ Phase.queued t = ph := by
        simpa [Batch.queue] using hph
      exact ht
    · intro i o ho
      cases ho
    · intro i v hv
      simp [Batch.queue, List.getElem?_replicate] at hv
  · exact .inr (.inr heq)

/-- **One step keeps the account.** -/
theorem account_succ (he : c.events[n]? = some e) (hb : (c.moment n).batches[c.index]? = some b)
    (hb' : (c.moment (n + 1)).batches[c.index]? = some b')
    (hstep : Batch.Step (c.moment n) (c.moment (n + 1)) c.index b e b') (h : c.Account n b) :
    c.Account (n + 1) b' := by
  have hle : n ≤ n + 1 := Nat.le_succ n
  rcases h with hopen | ⟨r, hr, hexplained⟩ | rfl
  rotate_left
  -- a closed account stays closed, and an abandoned batch stays abandoned
  · exact account_of_result (hstep.result hr) hexplained
  · exact .inr (.inr hstep.abandoned)
  -- what a phase or a message says from now on happened at this moment
  have hphase := phase?_of_batch hb
  have hresult : c.result? n = none := by rw [result?_of_batch hb, hopen.tidy.waiting]
  cases hstep with
  | stay => exact .inl (hopen.mono hle)
  | @begin i t hi =>
    have hlt : i < b.phases.length := (List.getElem?_eq_some_iff.1 hi).1
    have hbegins : c.Begins i n := by
      refine ⟨⟨t, by rw [hphase, hi]⟩, (c.moment n).clock, t, ?_⟩
      rw [phase?_of_batch hb']
      exact List.getElem?_set_self hlt
    have ht : c.tasks[i]? = some t := hopen.phases i _ hi
    exact .inl ((hopen.mono hle).setPhase hi (by simp) (by simp) ⟨⟨n, hbegins⟩, t, ht, .refl⟩)
  | @skip i t hi hset =>
    have hoff : c.CalledOff i n := by
      rw [hopen.token] at hset
      exact ⟨⟨t, by rw [hphase, hi]⟩, hresult, hset⟩
    exact .inl ((hopen.mono hle).setPhase hi (by simp) (by simp) ⟨n, hoff⟩)
  | @go i ready later u w hi hnext =>
    obtain ⟨hbegins, t, ht, hwalks⟩ := (hopen.mono hle).phases i _ hi
    have hown : (c.moment (n + 1)).log.drop (c.moment n).log.length ⊆ c.notesOf i (n + 1) := by
      rw [notesOf, newNotes_advance he]
      exact List.subset_append_right _ _
    have hlast : Task.Next (c.notesOf i (n + 1)) (c.flags (n + 1)) u w :=
      hnext.mono hown (List.Subset.refl _)
    exact .inl ((hopen.mono hle).setPhase hi (by simp) (by simp)
      ⟨hbegins, t, ht, hwalks.tail hlast⟩)
  | @stop i ready o hi =>
    have hover : c.Over i o n := ⟨⟨ready, by rw [hphase, hi]⟩, hresult⟩
    refine .inl ((hopen.mono hle).setPhase hi (by simp) (by simp) ?_)
    cases o with
    | none => exact ⟨rfl, n, hover⟩
    | some value => exact ⟨n, hover⟩
  | send hi => exact .inl ((hopen.mono hle).post hi)
  | accept _ hin => exact (hopen.mono hle).accept hin
  | @refuse i fault rest _ hin =>
    have hfounded := (hopen.mono hle).inbox i (.error fault) (by rw [hin]; exact List.mem_cons_self)
    refine account_of_result rfl ?_
    cases fault with
    | crashed j =>
      obtain rfl : j = i := hfounded.1
      exact hfounded
    | cancelled => exact .inr ⟨i, hfounded⟩
    | lost reason => exact hfounded
    | late limit => exact hfounded.elim
  | lose _ hin _ hsent => exact absurd hsent (hopen.tidy.not_lost hin)
  | @expire limit deadline _ hlimit htimed hpassed =>
    have hpool : c.pool.limit = some limit := by rw [← (c.grows_pool n).limit, hlimit]
    have hlast : (c.moment (n + 1)).Grows c.last :=
      c.grows_moment (List.getElem?_eq_some_iff.1 he).1
    obtain rfl : c.pool.clock + limit = deadline := by
      rw [hopen.deadline, hpool, Option.map_some] at htimed
      exact Option.some.inj htimed
    refine account_of_result rfl
      ⟨hpool, Nat.le_trans hpassed hlast.clock, n, he, hresult, ?_⟩
    rw [result?_of_batch hb']
    simp [Batch.finish]

/-- **The account holds at every moment**, whatever happened so far. -/
theorem account (c : Call ν ρ) (n : Nat) :
    ∃ b, (c.moment n).batches[c.index]? = some b ∧ c.Account n b := by
  induction n with
  | zero => exact ⟨_, batch_zero, account_zero c⟩
  | succ n ih =>
    obtain ⟨b, hb, hacc⟩ := ih
    cases he : c.events[n]? with
    | none =>
      have heq := moment_succ_of_none he
      have hle : n ≤ n + 1 := Nat.le_succ n
      refine ⟨b, by rw [heq, hb], ?_⟩
      exact hacc.imp_left (Open.mono hle)
    | some e =>
      obtain ⟨b', hb', hstep⟩ := step_batch he hb
      exact ⟨b', hb', account_succ he hb hb' hstep hacc⟩

/-- A task that is over began once, and could come to what it came to with the notes that it
has left itself. -/
theorem Over.begins_ends_own {o : Option ρ} (h : c.Over i o n) :
    (∃! m, c.Begins i m) ∧
      ∃ t, c.tasks[i]? = some t ∧ t.Ends (c.notesOf i n) (c.flags n) o := by
  obtain ⟨⟨ready, hphase⟩, hresult⟩ := h
  obtain ⟨b, hb, hopen | ⟨r, hr, -⟩ | rfl⟩ := c.account n
  · rw [phase?_of_batch hb] at hphase
    obtain ⟨hbegins, t, ht, hends⟩ := hopen.phases i _ hphase
    exact ⟨begins_existsUnique hbegins, t, ht, hends⟩
  · rw [result?_of_batch hb, hr] at hresult
    cases hresult
  · rw [phase?_of_batch hb] at hphase
    cases hphase

/-- So it could with all notes since the call. -/
theorem Over.begins_ends {o : Option ρ} (h : c.Over i o n) :
    (∃! m, c.Begins i m) ∧
      ∃ t, c.tasks[i]? = some t ∧ t.Ends (c.notes n) (c.flags n) o := by
  obtain ⟨hbegins, t, ht, hends⟩ := h.begins_ends_own
  exact ⟨hbegins, t, ht, hends.mono (notesOf_subset_notes i n) (List.Subset.refl _)⟩

/-- **What the batch comes to is borne out by the course.** -/
theorem explained {r : Except Fault (List ρ)} (hr : c.outcome? = some r) : c.Explained r := by
  have hr : c.result? c.events.length = some r := hr
  obtain ⟨b, hb, hopen | ⟨r', hr', hexplained⟩ | rfl⟩ := c.account c.events.length
  · rw [result?_of_batch hb, hopen.tidy.waiting] at hr
    cases hr
  · rw [result?_of_batch hb, hr'] at hr
    cases hr
    exact hexplained
  · rw [result?_of_batch hb] at hr
    cases hr

/-- **What a batch fails by**: the crash of a task, its token that is set, or its time that is
over. -/
theorem fault_cases {fault : Fault} (hr : c.outcome? = some (.error fault)) :
    (∃ i n, fault = .crashed i ∧ c.Over i none n) ∨
    (fault = .cancelled ∧ (c.pool.IsCancelled c.token ∨ ∃ i n, c.CalledOff i n)) ∨
    ∃ limit, fault = .late limit ∧ c.pool.limit = some limit ∧
      c.pool.clock + limit ≤ c.last.clock ∧ ∃ n, c.Expires n := by
  have hexplained := explained hr
  cases fault with
  | lost reason => exact hexplained.elim
  | crashed i =>
    obtain ⟨-, n, hover⟩ := hexplained
    exact .inl ⟨i, n, rfl, hover⟩
  | cancelled => exact .inr (.inl ⟨rfl, hexplained⟩)
  | late limit => exact .inr (.inr ⟨limit, rfl, hexplained⟩)

/-- What is over was so before the batch came to a result. -/
theorem over_lt {o : Option ρ} {r : Except Fault (List ρ)} (hr : c.outcome? = some r)
    (hover : c.Over i o n) : n < c.events.length := by
  by_contra hle
  have hlast : c.moment n = c.last := by
    rw [last, moment, moment, List.take_length, List.take_of_length_le (Nat.le_of_not_lt hle)]
  have hwaiting : c.result? n = none := hover.2
  rw [result?, hlast, ← outcome?, hr] at hwaiting
  cases hwaiting

/-- The values that a batch comes to, task by task. -/
theorem forall₂_of_ok {values : List ρ} (hr : c.outcome? = some (.ok values)) :
    List.Forall₂ (fun t value => ∃ i n, c.tasks[i]? = some t ∧ c.Over i (some value) n ∧
      t.Ends (c.notes n) (c.flags n) (some value)) c.tasks values := by
  obtain ⟨hlen, hvalues⟩ := explained hr
  refine List.forall₂_iff_get.2 ⟨hlen.symm, fun i hi hi' => ?_⟩
  obtain ⟨n, hover⟩ := hvalues i values[i] (List.getElem?_eq_getElem hi')
  obtain ⟨-, t, ht, hends⟩ := hover.begins_ends
  obtain rfl : c.tasks[i] = t := (List.getElem?_eq_some_iff.1 ht).2
  exact ⟨i, n, ht, hover, hends⟩

end Call

end Reframe
