import Reframe.Proofs.Pool.FanOut
import Reframe.Proofs.Pool.Trace
import Reframe.Proofs.Pool.Undisturbed

/-!
# Batches within batches

A task can submit a batch from within, and the tasks of that batch can do the same, to any
depth. Such batches are not spread: their tasks are done on the spot, one after the other,
until one crashes. So the order in which workers move does not matter to anything below the
outermost batch, neither to what is done nor to what comes of it.

* `Work`: a tree of batches, with a note for every task that runs and every batch within
  that returns.
* `Task.inTurn`: what tasks come to that are done one after the other.
* `Work.value`, `Work.trace`: what a tree comes to, and its notes, from left to right.
* `Call.nested_inTurn`: **every course of a pool does that**.
-/

namespace Reframe

variable {ν ρ μ : Type} {token : Token}

namespace Task

/-- What tasks come to that are done one after the other: all values, or the first crash. -/
def inTurn (outcomes : List (Option ρ)) : Except Fault (List ρ) :=
  match outcomes.findIdx? Option.isNone with
  | some i => .error (.crashed i)
  | none => .ok (outcomes.filterMap id)

/-- How many of them are done: the first that crashes is the last. -/
def turns (outcomes : List (Option ρ)) : Nat :=
  match outcomes.findIdx? Option.isNone with
  | some i => i + 1
  | none => outcomes.length

theorem turns_none (outcomes : List (Option ρ)) : turns (none :: outcomes) = 1 := by
  simp [turns, List.findIdx?_cons]

theorem turns_some (value : ρ) (outcomes : List (Option ρ)) :
    turns (some value :: outcomes) = turns outcomes + 1 := by
  simp only [turns, List.findIdx?_cons, Option.isNone_some, Bool.false_eq_true, if_false,
    List.length_cons]
  cases outcomes.findIdx? Option.isNone <;> rfl

theorem inTurn_map_some (values : List ρ) : inTurn (values.map some) = .ok values := by
  have hnone : (values.map some).findIdx? Option.isNone = none := by
    rw [List.findIdx?_eq_none_iff]
    simp
  rw [inTurn, hnone]
  simp [List.filterMap_map]

theorem turns_map_some (values : List ρ) : turns (values.map some) = values.length := by
  induction values with
  | nil => rfl
  | cons value values ih => rw [List.map_cons, turns_some, ih, List.length_cons]

theorem alone_eachFrom (i : Nat) (tasks : List (Task ν ρ)) :
    (eachFrom token i tasks).alone = some (match (tasks.map alone).findIdx? Option.isNone with
      | some j => .error (.crashed (i + j))
      | none => .ok ((tasks.map alone).filterMap id)) := by
  induction tasks generalizing i with
  | nil => rfl
  | cons t tasks ih =>
    simp only [eachFrom, alone, Bool.false_eq_true, if_false, alone_bind, alone_attempt,
      Option.bind_some, List.map_cons, List.findIdx?_cons]
    cases ht : t.alone with
    | none => rfl
    | some value =>
      simp only [alone_bind, ih, Option.bind_some, Option.isNone_some, Bool.false_eq_true, if_false]
      cases (tasks.map alone).findIdx? Option.isNone with
      | none => rfl
      | some j => simp only [Option.map_some, alone, Nat.add_right_comm i 1 j, Nat.add_assoc]

/-- **Tasks on the spot come to all values or the first crash.** -/
theorem alone_each (tasks : List (Task ν ρ)) :
    (each token tasks).alone = some (inTurn (tasks.map alone)) := by
  change (eachFrom token 0 tasks).alone = some (inTurn (tasks.map alone))
  rw [alone_eachFrom, inTurn]
  simp only [Nat.zero_add]

theorem trace_eachFrom (i : Nat) (tasks : List (Task ν ρ)) :
    (eachFrom token i tasks).trace =
      ((tasks.map trace).take (turns (tasks.map alone))).flatten := by
  induction tasks generalizing i with
  | nil => rfl
  | cons t tasks ih =>
    simp only [eachFrom, trace, Bool.false_eq_true, if_false, trace_bind, trace_attempt,
      alone_attempt, Option.map_some, Option.getD_some, List.map_cons]
    cases ht : t.alone with
    | none => rw [turns_none]; rfl
    | some value =>
      rw [turns_some, List.take_succ_cons, List.flatten_cons, trace_bind, ih, alone_eachFrom]
      congr 1
      cases (tasks.map alone).findIdx? Option.isNone <;> exact List.append_nil _

/-- **Tasks on the spot leave the notes of those that are done**, in their order. -/
theorem trace_each (tasks : List (Task ν ρ)) :
    (each token tasks).trace = ((tasks.map trace).take (turns (tasks.map alone))).flatten :=
  trace_eachFrom 0 tasks

end Task

/-- What is noted of a tree of batches. -/
inductive Remark (μ ρ : Type) where
  /-- The task with this mark runs. -/
  | ran (mark : μ)
  /-- The batch within the task with this mark returns. -/
  | returned (mark : μ) (result : Except Fault (List ρ))

/-- A tree of batches. A task does some work of its own, or it submits a batch and makes of
the result what it will; without a value it crashes. -/
inductive Work (μ ρ : Type) : Type where
  | leaf (mark : μ) (value : Option ρ)
  | node (mark : μ) (token : Token) (children : List (Work μ ρ))
      (finish : Except Fault (List ρ) → Option ρ)

namespace Work

mutual

/-- The task of a tree. -/
def task : Work μ ρ → Task (Remark μ ρ) ρ
  | leaf mark value => .note (.ran mark) (Task.halted value)
  | node mark token children finish =>
    .note (.ran mark) ((Task.each token (tasks children)).bind fun result =>
      .note (.returned mark result) (Task.halted (finish result)))

/-- The tasks of some trees. -/
def tasks : List (Work μ ρ) → List (Task (Remark μ ρ) ρ)
  | [] => []
  | w :: works => w.task :: tasks works

end

mutual

/-- What the tree comes to, evaluated from left to right. -/
def value : Work μ ρ → Option ρ
  | leaf _ value => value
  | node _ _ children finish => finish (Task.inTurn (values children))

/-- What some trees come to, each for itself. -/
def values : List (Work μ ρ) → List (Option ρ)
  | [] => []
  | w :: works => w.value :: values works

end

mutual

/-- The notes of the tree, evaluated from left to right: of the children of a node, those up
to the first one that crashes leave theirs. -/
def trace : Work μ ρ → List (Remark μ ρ)
  | leaf mark _ => [.ran mark]
  | node mark _ children _ =>
    .ran mark :: (((traces children).take (Task.turns (values children))).flatten ++
      [.returned mark (Task.inTurn (values children))])

/-- The notes of some trees, each for itself. -/
def traces : List (Work μ ρ) → List (List (Remark μ ρ))
  | [] => []
  | w :: works => w.trace :: traces works

end

mutual

/-- The tokens of the batches within. -/
def tokens : Work μ ρ → List Token
  | leaf _ _ => []
  | node _ token children _ => token :: tokensOf children

/-- The tokens of the batches within some trees. -/
def tokensOf : List (Work μ ρ) → List Token
  | [] => []
  | w :: works => w.tokens ++ tokensOf works

end

theorem tasks_eq_map (works : List (Work μ ρ)) : tasks works = works.map task := by
  induction works with
  | nil => rfl
  | cons w works ih => rw [tasks, ih, List.map_cons]

theorem alone_halted (o : Option ρ) : (Task.halted o : Task ν ρ).alone = o := by
  cases o <;> rfl

theorem trace_halted (o : Option ρ) : (Task.halted o : Task ν ρ).trace = [] := by
  cases o <;> rfl

mutual

theorem alone_task : ∀ w : Work μ ρ, w.task.alone = w.value
  | leaf mark value => by rw [task, Task.alone, alone_halted, Work.value]
  | node mark token children finish => by
    rw [task, Task.alone, Task.alone_bind, Task.alone_each, alone_tasks children,
      Option.bind_some, Task.alone, alone_halted, Work.value]

theorem alone_tasks : ∀ works : List (Work μ ρ), (tasks works).map Task.alone = values works
  | [] => rfl
  | w :: works => by rw [tasks, List.map_cons, alone_task w, alone_tasks works, values]

end

mutual

theorem trace_task : ∀ w : Work μ ρ, w.task.trace = w.trace
  | leaf mark value => by rw [task, Task.trace, trace_halted, Work.trace]
  | node mark token children finish => by
    rw [task, Task.trace, Task.trace_bind, Task.trace_each, Task.alone_each, trace_tasks children,
      alone_tasks children, Option.map_some, Option.getD_some, Task.trace, trace_halted, Work.trace]

theorem trace_tasks : ∀ works : List (Work μ ρ), (tasks works).map Task.trace = traces works
  | [] => rfl
  | w :: works => by rw [tasks, List.map_cons, trace_task w, trace_tasks works, traces]

end

theorem quiet_halted (o : Option ρ) : (Task.halted o : Task ν ρ).Quiet := by
  cases o <;> trivial

theorem looks_halted (tokens : List Token) (o : Option ρ) :
    (Task.halted o : Task ν ρ).Looks tokens := by
  cases o <;> trivial

mutual

theorem quiet_task : ∀ w : Work μ ρ, w.task.Quiet
  | leaf _ value => quiet_halted value
  | node _ _ children finish =>
    (Task.quiet_each (quiet_tasks children)).bind fun result => quiet_halted (finish result)

theorem quiet_tasks : ∀ works : List (Work μ ρ), ∀ t ∈ tasks works, t.Quiet
  | [] => fun _ ht => absurd ht List.not_mem_nil
  | w :: works => List.forall_mem_cons.2 ⟨quiet_task w, quiet_tasks works⟩

end

mutual

theorem looks_task : ∀ w : Work μ ρ, w.task.Looks w.tokens
  | leaf mark value => looks_halted _ value
  | node mark token children finish => by
    have hchildren : ∀ t ∈ tasks children, t.Looks (token :: tokensOf children) :=
      fun t ht => (looks_tasks children t ht).mono (List.subset_cons_self ..)
    exact (Task.looks_each List.mem_cons_self hchildren).bind fun result =>
      looks_halted _ (finish result)

theorem looks_tasks : ∀ works : List (Work μ ρ), ∀ t ∈ tasks works, t.Looks (tokensOf works)
  | [] => fun _ ht => absurd ht List.not_mem_nil
  | w :: works => by
    refine List.forall_mem_cons.2 ⟨(looks_task w).mono (List.subset_append_left ..), ?_⟩
    exact fun t ht => (looks_tasks works t ht).mono (List.subset_append_right ..)

end

end Work

namespace Call

variable {c : Call (Remark μ ρ) ρ} {works : List (Work μ ρ)} {i n : Nat}

/-- Trees are handed to a pool, in whatever state that is: pool and events spare their tokens,
the token of the outermost batch is none of theirs, and its time does not run out. -/
structure IsNested (c : Call (Remark μ ρ) ρ) (works : List (Work μ ρ)) : Prop where
  tasks : c.tasks = Work.tasks works
  own : c.token ∉ Work.tokensOf works
  pool : ∀ token ∈ c.token :: Work.tokensOf works, c.pool.Spares token
  events : ∀ token ∈ c.token :: Work.tokensOf works, ∀ e ∈ c.events, e.Spares token
  timely : ∀ e ∈ c.events, e ≠ .move (.expire c.index)

theorem IsNested.quiet (h : c.IsNested works) : ∀ t ∈ c.tasks, t.Quiet := by
  rw [h.tasks]
  exact Work.quiet_tasks works

theorem IsNested.isSpared (h : c.IsNested works) : c.IsSpared where
  pool := h.pool _ List.mem_cons_self
  tasks t ht := (h.quiet t ht).spares _
  events := h.events _ List.mem_cons_self

/-- The tokens of the batches within are never set, not even when such a batch fails. -/
theorem IsNested.not_mem_flags (h : c.IsNested works) (n : Nat) :
    ∀ token ∈ Work.tokensOf works, token ∉ c.flags n := by
  intro token hmem
  have hmem' : token ∈ c.token :: Work.tokensOf works := List.mem_cons_of_mem _ hmem
  have hne : c.token ≠ token := by
    rintro rfl
    exact h.own hmem
  have hsubmit : Event.Spares token (.submit c.token c.tasks) :=
    ⟨hne, fun t ht => (h.quiet t ht).spares token⟩
  have hevents : ∀ e ∈ .submit c.token c.tasks :: c.events.take n, Event.Spares token e :=
    List.forall_mem_cons.2 ⟨hsubmit, fun e he => h.events token hmem' e (List.mem_of_mem_take he)⟩
  exact (Pool.spares_run (h.pool token hmem') hevents).flag

theorem IsNested.follows (h : c.IsNested works) (n : Nat) :
    c.Follows (Work.tokensOf works) n := by
  refine reaches ?_ h.not_mem_flags n
  rw [h.tasks]
  exact Work.looks_tasks works

theorem IsNested.exists_work (h : c.IsNested works) {t : Task (Remark μ ρ) ρ}
    (ht : c.tasks[i]? = some t) : ∃ w, works[i]? = some w ∧ w.task = t := by
  rw [h.tasks, Work.tasks_eq_map, List.getElem?_map, Option.map_eq_some_iff] at ht
  exact ht

/-- A task that is over has the value of its tree, and its notes are all there for good. -/
theorem IsNested.over (h : c.IsNested works) {o : Option ρ} (hover : c.Over i o n) :
    ∃ w, works[i]? = some w ∧ w.value = o ∧ ∀ m, n ≤ m → c.notesOf i m = w.trace := by
  obtain ⟨t, ht, halone, hnotes⟩ := over_stays h.follows hover
  obtain ⟨w, hw, rfl⟩ := h.exists_work ht
  rw [Work.alone_task] at halone
  rw [Work.trace_task] at hnotes
  exact ⟨w, hw, halone, hnotes⟩

/-- **What the outermost batch comes to**: all values, or the crash of a task. -/
theorem IsNested.outcome (h : c.IsNested works) {r : Except Fault (List ρ)}
    (hr : c.outcome? = some r) :
    (∃ values, r = .ok values ∧ works.map Work.value = values.map some ∧
      ∀ i w, works[i]? = some w → ∃ m, ∀ n, m ≤ n → c.notesOf i n = w.trace) ∨
    ∃ i w, r = .error (.crashed i) ∧ works[i]? = some w ∧ w.value = none := by
  have hcalm := h.isSpared.undisturbed h.timely
  rcases r with fault | values
  · obtain ⟨i, n, rfl, hover⟩ := hcalm.exists_crash hr
    obtain ⟨w, hw, hvalue, -⟩ := h.over hover
    exact .inr ⟨i, w, rfl, hw, hvalue⟩
  · obtain ⟨hlen, hvalues⟩ := explained hr
    have hlen : values.length = works.length := by
      rw [hlen, h.tasks, Work.tasks_eq_map, List.length_map]
    have hover : ∀ i w, works[i]? = some w →
        values[i]? = w.value ∧ ∃ m, ∀ n, m ≤ n → c.notesOf i n = w.trace := by
      intro i w hw
      have hi : i < values.length := hlen ▸ (List.getElem?_eq_some_iff.1 hw).1
      obtain ⟨n, hn⟩ := hvalues i values[i] (List.getElem?_eq_getElem hi)
      obtain ⟨w', hw', hvalue, hnotes⟩ := h.over hn
      obtain rfl : w = w' := Option.some.inj (hw.symm.trans hw')
      exact ⟨by rw [hvalue, List.getElem?_eq_getElem hi], n, hnotes⟩
    refine .inl ⟨values, rfl, List.ext_getElem? fun i => ?_, fun i w hw => (hover i w hw).2⟩
    rw [List.getElem?_map, List.getElem?_map]
    cases hw : works[i]? with
    | none =>
      have hle : values.length ≤ i := hlen ▸ List.getElem?_eq_none_iff.1 hw
      rw [List.getElem?_eq_none hle]
      rfl
    | some w =>
      have hi : i < values.length := hlen ▸ (List.getElem?_eq_some_iff.1 hw).1
      rw [Option.map_some, ← (hover i w hw).1, List.getElem?_eq_getElem hi, Option.map_some]

/-- **Nested batches are evaluated from left to right.** Whatever moves are made, and in
whatever order: no token of a batch within is ever set. Each task leaves notes of the
evaluation of its tree from left to right, none but these, in that order, and all of them
when it comes to an end, with the value of that evaluation; if the outermost batch has
failed before it began it leaves none. The outermost batch comes to all values, or to the
crash of a task, so if none of its tasks crashes then its result is that of the evaluation
from left to right. And unless tasks of others wait for flags, or the clock cannot tell the
end of the outermost batch's time, there will be a result. -/
theorem nested_inTurn (h : c.IsNested works) :
    (∀ n, ∀ token ∈ Work.tokensOf works, token ∉ c.flags n) ∧
    (∀ i n ph, c.phase? i n = some ph → ∃ w, works[i]? = some w ∧ c.notesOf i n <+: w.trace ∧
      ∀ o, ph = .ended o → (o = outcome i w.value ∧ c.notesOf i n = w.trace) ∨
        (o = .error .cancelled ∧ c.notesOf i n = [])) ∧
    (∀ r, c.outcome? = some r →
      (∃ values, r = .ok values ∧ works.map Work.value = values.map some ∧
        ∀ i w, works[i]? = some w → ∃ m, ∀ n, m ≤ n → c.notesOf i n = w.trace) ∨
      ∃ i w, r = .error (.crashed i) ∧ works[i]? = some w ∧ w.value = none) ∧
    ((∀ w ∈ works, w.value ≠ none) →
      ∀ r, c.outcome? = some r → r = Task.inTurn (works.map Work.value)) ∧
    (¬ c.pool.Overruns c.token c.tasks → 0 < c.pool.workers → c.pool.Only Task.Prompt →
      (∀ e ∈ c.events, e.Only Task.Prompt) → c.last.Settles c.index) := by
  refine ⟨h.not_mem_flags, fun i n ph hph => ?_, fun r hr => h.outcome hr, ?_,
    fun htime hw hp he => ?_⟩
  · obtain ⟨t, ht, hreach⟩ := h.follows n i ph hph
    obtain ⟨w, hw, rfl⟩ := h.exists_work ht
    refine ⟨w, hw, ?_, ?_⟩
    · rw [← Work.trace_task]
      exact Task.Reaches.isPrefix hreach
    · rintro o rfl
      rw [← Work.trace_task, ← Work.alone_task]
      exact hreach
  · intro hvalues r hr
    rcases h.outcome hr with ⟨values, rfl, heq, -⟩ | ⟨i, w, -, hw, hnone⟩
    · rw [heq, Task.inTurn_map_some]
    · exact absurd hnone (hvalues w (List.mem_of_getElem? hw))
  · refine settles_last htime hw ?_
    rw [last_eq]
    exact Pool.only_run Task.isKept_prompt (hp.submit fun t ht => (h.quiet t ht).prompt) he

/-- A task that submits three from within, the second of which crashes, and one that answers. -/
def twoLevels : List (Work Nat Nat) :=
  [.node 1 5 [.leaf 2 (some 20), .leaf 3 none, .leaf 4 (some 40)] fun
      | .ok values => some values.length
      | .error _ => some 0,
    .leaf 6 (some 60)]

/-- Two workers, and the task with the batch within is over last. -/
def twoLevelCall : Call (Remark Nat Nat) Nat where
  pool := .idle 2 none .horizon
  token := 0
  tasks := Work.tasks twoLevels
  events := List.map .move <|
    [.start 0 1, .start 0 0, .advance 0 1, .advance 0 1, .send 0 1] ++
      List.replicate 8 (.advance 0 0) ++ [.send 0 0, .receive 0, .receive 0]

theorem nested_inTurn_twoLevelCall :
    twoLevelCall.outcome? = some (.ok [0, 60]) ∧ (∀ n, 5 ∉ twoLevelCall.flags n) ∧
      ∃ m, ∀ n, m ≤ n → twoLevelCall.notesOf 0 n =
        [.ran 1, .ran 2, .ran 3, .returned 1 (.error (.crashed 1))] := by
  have hevents : ∀ e ∈ twoLevelCall.events, ∃ m : Move, e = .move m ∧ m ≠ .expire 0 := by
    intro e he
    obtain ⟨m, hm, rfl⟩ := List.mem_map.1 he
    exact ⟨m, rfl, fun habs => absurd (habs ▸ hm) (by decide)⟩
  have h : twoLevelCall.IsNested twoLevels := by
    refine ⟨rfl, by decide, fun t _ => Pool.spares_idle 2 none .horizon, fun t _ e he => ?_, ?_⟩
    · obtain ⟨m, rfl, -⟩ := hevents e he
      trivial
    · rintro e he rfl
      obtain ⟨m, hm, hne⟩ := hevents _ he
      exact hne (Event.move.inj hm).symm
  have hr : twoLevelCall.outcome? = some (.ok [0, 60]) := by decide
  obtain ⟨hflags, -, hout, -⟩ := nested_inTurn h
  rcases hout _ hr with ⟨values, -, -, hnotes⟩ | ⟨i, w, habs, -⟩
  · exact ⟨hr, fun n => hflags n 5 (by decide), hnotes 0 _ rfl⟩
  · cases habs

end Call

end Reframe
