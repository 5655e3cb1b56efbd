import Reframe.Pool.Schedule

/-!
# The courses that work can take

A caller has no influence on the order in which workers move. A course of
the work is any sequence of events between a submission and the result that is
waited for; events may be restricted, to moves for instance, when the pool has no
other user. The punctual schedule is one of the courses.

* `Client.Ends`: what the work can come to by some course.
* `Client.Crashes`: where it can crash instead.
* `Pool.settle_eq_run`: the punctual schedule is a run of moves.
* `Client.ends_of_run`: what the punctual schedule computes, the work can come to.
-/

namespace Reframe

variable {ν ρ β : Type}

/-- The event is a move. -/
def Event.IsMove : Event ν ρ → Prop
  | move _ => True
  | submit .. => False
  | cancel _ => False

namespace Pool

@[simp] theorem run_nil (p : Pool ν ρ) : p.run [] = p := rfl

@[simp] theorem run_cons (p : Pool ν ρ) (e : Event ν ρ) (events : List (Event ν ρ)) :
    p.run (e :: events) = (p.step e).run events := rfl

theorem run_append (p : Pool ν ρ) (first second : List (Event ν ρ)) :
    p.run (first ++ second) = (p.run first).run second :=
  List.foldl_append

theorem step_move {p q : Pool ν ρ} {m : Move} (h : p.move? m = some q) :
    p.step (.move m) = q := by
  simp [step, h]

/-- **The punctual schedule is a run of moves.** -/
theorem settle_eq_run (p : Pool ν ρ) (b : Nat) :
    ∃ moves : List Move, p.settle b = p.run (moves.map .move) := by
  fun_induction settle p b with
  | case1 p _ => exact ⟨[], rfl⟩
  | case2 p _ _ => exact ⟨[], rfl⟩
  | case3 p _ m _ _ => exact ⟨[], rfl⟩
  | case4 p _ m _ q hq _ ih =>
    obtain ⟨moves, h⟩ := ih
    exact ⟨m :: moves, by rw [h, List.map_cons, run_cons, step_move hq]⟩

end Pool

/-- Work that starts in a pool can end with a value and another pool: every batch it
submits gets its result after some allowed events. -/
inductive Client.Ends (Allowed : Event ν ρ → Prop) :
    Client ν ρ β → Pool ν ρ → β → Pool ν ρ → Prop where
  | done {value : β} {p : Pool ν ρ} : Client.Ends Allowed (.done value) p value p
  | call {token : Token} {tasks : List (Task ν ρ)} {next : Except Fault (List ρ) → Client ν ρ β}
      {p q : Pool ν ρ} {events : List (Event ν ρ)} {result : Except Fault (List ρ)} {value : β}
      (allowed : ∀ e ∈ events, Allowed e)
      (settled : ((p.submit token tasks).run events).result? p.batches.length = some result)
      (rest : Client.Ends Allowed (next result) ((p.submit token tasks).run events) value q) :
      Client.Ends Allowed (.call token tasks next) p value q

/-- Work that starts in a pool can crash in another one: some allowed events lead it to a
batch whose time would end after the last time of the clock. -/
inductive Client.Crashes (Allowed : Event ν ρ → Prop) :
    Client ν ρ β → Pool ν ρ → Pool ν ρ → Prop where
  | here {token : Token} {tasks : List (Task ν ρ)} {next : Except Fault (List ρ) → Client ν ρ β}
      {p : Pool ν ρ} (overruns : p.Overruns token tasks) :
      Client.Crashes Allowed (.call token tasks next) p p
  | later {token : Token} {tasks : List (Task ν ρ)} {next : Except Fault (List ρ) → Client ν ρ β}
      {p q : Pool ν ρ} {events : List (Event ν ρ)} {result : Except Fault (List ρ)}
      (allowed : ∀ e ∈ events, Allowed e)
      (settled : ((p.submit token tasks).run events).result? p.batches.length = some result)
      (rest : Client.Crashes Allowed (next result) ((p.submit token tasks).run events) q) :
      Client.Crashes Allowed (.call token tasks next) p q

/-- **What the punctual schedule computes, the work can come to** by moves alone. -/
theorem Client.ends_of_run {c : Client ν ρ β} {p q : Pool ν ρ} {value : β}
    (h : c.run p = some (value, q)) : c.Ends Event.IsMove p value q := by
  induction c generalizing p with
  | done v =>
    obtain ⟨rfl, rfl⟩ : v = value ∧ p = q := by simpa [run] using h
    exact .done
  | call token tasks next ih =>
    simp only [run] at h
    split at h
    next result hr =>
      obtain ⟨moves, hm⟩ := Pool.settle_eq_run (p.submit token tasks) p.batches.length
      rw [hm] at h hr
      exact .call (by simp [Event.IsMove]) hr (ih result h)
    next => simp at h

end Reframe
