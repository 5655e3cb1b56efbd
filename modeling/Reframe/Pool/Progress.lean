import Reframe.Pool.Basic

/-!
# Every move uses up something

A task has only so many steps, sends one message, and each batch is finished
once. So the potential of a pool falls with every move, and between two
submissions no run makes more moves than the potential.

* `Pool.potential_lt_of_move?`: a move lowers the potential.
-/

namespace Reframe

-- a sum of naturals starts at the core library's zero, whatever else is known of it
attribute [local instance (2000)] Zero.ofOfNat0

variable {ν ρ τ : Type}

theorem sum_map_set {l : List τ} (f : τ → Nat) {i : Nat} {x : τ} (h : l[i]? = some x) (a : τ) :
    ((l.set i a).map f).sum + f x = (l.map f).sum + f a := by
  induction l generalizing i with
  | nil => simp at h
  | cons y l ih =>
    cases i with
    | zero =>
      simp only [List.getElem?_cons_zero, Option.some.injEq] at h
      subst h
      simp only [List.set_cons_zero, List.map_cons, List.sum_cons]
      omega
    | succ i =>
      have := ih (i := i) (by simpa using h)
      simp only [List.set_cons_succ, List.map_cons, List.sum_cons]
      omega

namespace Batch

/-- A task's phase counts for the batch. -/
theorem potential_setPhase {b : Batch ν ρ} {i : Nat} {q : Phase ν ρ} (h : b.phases[i]? = some q)
    (p : Phase ν ρ) :
    (b.setPhase i p).potential + q.potential = b.potential + p.potential := by
  have := sum_map_set Phase.potential h p
  unfold potential
  change ((b.phases.set i p).map Phase.potential).sum + b.inbox.length +
    (if b.result.isSome then 0 else 1) + q.potential = _
  omega

theorem potential_finish_lt {b : Batch ν ρ} (h : b.result.isSome = false)
    (r : Except Fault (List ρ)) : (b.finish r).potential < b.potential := by
  simp [potential, finish, h]

theorem potential_finish_le (b : Batch ν ρ) (r : Except Fault (List ρ)) :
    (b.finish r).potential ≤ b.potential := by
  simp [potential, finish]

theorem potential_post (b : Batch ν ρ) (i : Nat) (o : Except Fault ρ) :
    (b.post i o).potential ≤ b.potential + 1 := by
  unfold post
  split
  · omega
  · simp only [potential, List.length_append, List.length_cons, List.length_nil]
    omega

theorem potential_accept (b : Batch ν ρ) (i : Nat) (v : ρ) :
    (b.accept i v).potential ≤ b.potential := by
  unfold accept
  extract_lets b'
  have hb : b'.potential = b.potential := rfl
  split
  · exact hb ▸ potential_finish_le ..
  · exact Nat.le_of_eq hb

end Batch

namespace Pool

theorem potential_setBatch {p : Pool ν ρ} {i : Nat} {c : Batch ν ρ} (h : p.batches[i]? = some c)
    (b : Batch ν ρ) : (p.setBatch i b).potential + c.potential = p.potential + b.potential :=
  sum_map_set Batch.potential h b

theorem setBatch_lt {p q : Pool ν ρ} {i : Nat} {b c : Batch ν ρ} (hq : q.batches = p.batches)
    (h : p.batches[i]? = some c) (hlt : b.potential < c.potential) :
    (q.setBatch i b).potential < p.potential := by
  have hpot : q.potential = p.potential := by simp only [potential, hq]
  have := potential_setBatch (p := q) (hq ▸ h) b
  omega

@[simp] theorem batches_cancel (p : Pool ν ρ) (token : Token) :
    (p.cancel token).batches = p.batches := by
  unfold cancel
  split <;> rfl

/-- Moving a task to a phase of less potential lowers the potential of the pool. -/
theorem setPhase_lt {p q : Pool ν ρ} {bi i : Nat} {b : Batch ν ρ} {old new : Phase ν ρ}
    (hq : q.batches = p.batches) (hb : p.batches[bi]? = some b) (hi : b.phases[i]? = some old)
    (hlt : new.potential < old.potential) : (q.setPhase b bi i new).potential < p.potential := by
  have := Batch.potential_setPhase hi new
  exact setBatch_lt hq hb (by omega)

theorem fail_lt {p q : Pool ν ρ} {bi : Nat} {b c : Batch ν ρ} (hq : q.batches = p.batches)
    (hb : p.batches[bi]? = some c) (hlt : (b.finish (.error fault)).potential < c.potential) :
    (q.fail b bi fault).potential < p.potential :=
  setBatch_lt (by rw [batches_cancel, hq]) hb hlt

theorem potential_start_lt {p q : Pool ν ρ} {bi i : Nat} (h : p.start? bi i = some q) :
    q.potential < p.potential := by
  simp only [start?, Option.bind_eq_bind, Option.bind_eq_some_iff] at h
  obtain ⟨b, hb, h⟩ := h
  split at h
  next task hi =>
    split at h
    · cases h
      refine setPhase_lt rfl hb hi ?_
      split <;> simp only [Phase.potential] <;> omega
    · cases h
  next => cases h

theorem potential_advance_lt {p q : Pool ν ρ} {bi i : Nat} (h : p.advance? bi i = some q) :
    q.potential < p.potential := by
  simp only [advance?, Option.bind_eq_bind, Option.bind_eq_some_iff] at h
  obtain ⟨b, hb, h⟩ := h
  split at h
  next ready task hi =>
    cases task with
    | done value => cases h; exact setPhase_lt rfl hb hi (by simp [Phase.potential, Task.height])
    | crash => cases h; exact setPhase_lt rfl hb hi (by simp [Phase.potential, Task.height])
    | note n next =>
      cases h
      have : (Phase.running (max p.clock ready) next).potential <
          (Phase.running ready (Task.note n next) : Phase ν ρ).potential := by
        simp [Phase.potential, Task.height]
      exact setPhase_lt (q := { p with clock := max p.clock ready }) rfl hb hi this
    | sleep time next =>
      cases h; exact setPhase_lt rfl hb hi (by simp [Phase.potential, Task.height])
    | cancel token next =>
      cases h
      exact setPhase_lt (by rw [batches_cancel]) hb hi (by simp [Phase.potential, Task.height])
    | await token next =>
      simp only at h
      split at h
      · cases h; exact setPhase_lt rfl hb hi (by simp [Phase.potential, Task.height])
      · cases h
    | check token next =>
      cases h
      refine setPhase_lt rfl hb hi ?_
      simpa [Phase.potential] using Task.height_next_lt next token _
  next => cases h

theorem potential_send_lt {p q : Pool ν ρ} {bi i : Nat} (h : p.send? bi i = some q) :
    q.potential < p.potential := by
  simp only [send?, Option.bind_eq_bind, Option.bind_eq_some_iff] at h
  obtain ⟨b, hb, h⟩ := h
  split at h
  next outcome hi =>
    cases h
    refine setBatch_lt rfl hb ?_
    have := Batch.potential_post (b.setPhase i .sent) i outcome
    have := Batch.potential_setPhase hi .sent
    simp only [Phase.potential] at this
    omega
  next => cases h

theorem potential_receive_lt {p q : Pool ν ρ} {bi : Nat} (h : p.receive? bi = some q) :
    q.potential < p.potential := by
  simp only [receive?, Option.bind_eq_bind, Option.bind_eq_some_iff] at h
  obtain ⟨b, hb, h⟩ := h
  split at h
  · cases h
  next hr =>
    have hr : b.result.isSome = false := by simpa using hr
    split at h
    next i value rest hin =>
      cases h
      refine setBatch_lt rfl hb ?_
      have := Batch.potential_accept { b with inbox := rest } i value
      simp only [Batch.potential, hin, List.length_cons] at this ⊢
      omega
    next i fault rest hin =>
      cases h
      refine fail_lt rfl hb (Nat.lt_of_le_of_lt (Batch.potential_finish_le ..) ?_)
      simp only [Batch.potential, hin, List.length_cons]
      omega
    next hin =>
      split at h
      · cases h; exact setBatch_lt rfl hb (Batch.potential_finish_lt hr _)
      · cases h

theorem potential_expire_lt {p q : Pool ν ρ} {bi : Nat} (h : p.expire? bi = some q) :
    q.potential < p.potential := by
  simp only [expire?, Option.bind_eq_bind, Option.bind_eq_some_iff] at h
  obtain ⟨b, hb, limit, -, deadline, -, h⟩ := h
  split at h
  · cases h
  next hr =>
    cases h
    exact fail_lt rfl hb (Batch.potential_finish_lt (by simpa using hr) _)

/-- **A move lowers the potential.** -/
theorem potential_lt_of_move? {p q : Pool ν ρ} {m : Move} (h : p.move? m = some q) :
    q.potential < p.potential := by
  cases m with
  | start b i => exact potential_start_lt h
  | advance b i => exact potential_advance_lt h
  | send b i => exact potential_send_lt h
  | receive b => exact potential_receive_lt h
  | expire b => exact potential_expire_lt h

end Pool

end Reframe
