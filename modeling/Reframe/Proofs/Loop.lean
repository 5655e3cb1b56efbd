import Mathlib.Data.List.Basic

/-!
# Loops that can fail

A loop over a list succeeds if all of its rounds do. It fails if one of them does, and as the
first one that does.

* `mapM_eq_ok`, `forM_eq_ok`: loops whose rounds all succeed.
* `foldlM_range'`: what every round keeps.
* `foldlM_eq_error`: **a loop fails as the first of its rounds that does**.
* `mapM_eq_error`, `forM_eq_error`: so does a loop that collects values, and one of checks.
-/

namespace Reframe

variable {σ τ ε : Type}

/-- A computation that succeeds has succeeded so far, and goes on from there. -/
theorem ok_of_bind {x : Except ε σ} {f : σ → Except ε τ} {y : τ} (h : x >>= f = .ok y) :
    ∃ a, x = .ok a ∧ f a = .ok y := by
  cases x with
  | error failure => cases h
  | ok a => exact ⟨a, rfl, h⟩

theorem mapM_eq_ok {f : σ → Except ε τ} {g : σ → τ} {xs : List σ}
    (h : ∀ x ∈ xs, f x = .ok (g x)) : xs.mapM f = .ok (xs.map g) := by
  induction xs with
  | nil => rfl
  | cons x xs ih =>
    have hx := h x List.mem_cons_self
    have hrest := ih fun y hy => h y (List.mem_cons_of_mem _ hy)
    rw [List.mapM_cons, hx, hrest]
    rfl

/-- A loop that succeeds has succeeded everywhere. -/
theorem exists_of_mapM_eq_ok {f : σ → Except ε τ} {xs : List σ} {ys : List τ}
    (h : xs.mapM f = .ok ys) : ∀ x ∈ xs, ∃ y, f x = .ok y := by
  induction xs generalizing ys with
  | nil => exact List.forall_mem_nil _
  | cons x xs ih =>
    rw [List.mapM_cons] at h
    obtain ⟨y, hx, h⟩ := ok_of_bind h
    obtain ⟨rest, hrest, -⟩ := ok_of_bind h
    exact List.forall_mem_cons.2 ⟨⟨y, hx⟩, ih hrest⟩

/-- A loop of checks that all succeed succeeds. -/
theorem forM_eq_ok {f : σ → Except ε PUnit} {xs : List σ} (h : ∀ x ∈ xs, f x = .ok ⟨⟩) :
    xs.forM f = .ok ⟨⟩ := by
  induction xs with
  | nil => rfl
  | cons x xs ih =>
    have hx := h x List.mem_cons_self
    have hrest := ih fun y hy => h y (List.mem_cons_of_mem _ hy)
    rw [List.forM_eq_forM, List.forM_cons, hx]
    exact hrest

/-- A loop over consecutive numbers ends, and keeps what every round keeps. -/
theorem foldlM_range' {f : σ → Nat → Except ε σ} {P : Nat → σ → Prop} (n : Nat) :
    ∀ {a : Nat} {s : σ},
      (∀ k s, a ≤ k → k < a + n → P k s → ∃ t, f s k = .ok t ∧ P (k + 1) t) → P a s →
      ∃ t, (List.range' a n).foldlM f s = .ok t ∧ P (a + n) t := by
  induction n with
  | zero => intro a s _ h; exact ⟨s, rfl, h⟩
  | succ n ih =>
    intro a s hstep h
    obtain ⟨t, ht, hP⟩ := hstep a s (Nat.le_refl a) (by omega) h
    obtain ⟨u, hu, hPu⟩ := ih (fun k s h1 h2 => hstep k s (by omega) (by omega)) hP
    refine ⟨u, ?_, by rwa [show a + (n + 1) = a + 1 + n by omega]⟩
    rw [List.range'_succ, List.foldlM_cons, ht]
    exact hu

/-- **A loop fails as the first of its rounds that does**, if the rounds before it succeed in
every state and it fails in every one. -/
theorem foldlM_eq_error {f : σ → τ → Except ε σ} {before after : List τ} {x : τ} {y : ε}
    (hbefore : ∀ z ∈ before, ∀ s, ∃ t, f s z = .ok t) (hx : ∀ s, f s x = .error y) (s : σ) :
    (before ++ x :: after).foldlM f s = .error y := by
  induction before generalizing s with
  | nil =>
    rw [List.nil_append, List.foldlM_cons, hx]
    rfl
  | cons z before ih =>
    obtain ⟨t, ht⟩ := hbefore z List.mem_cons_self s
    rw [List.cons_append, List.foldlM_cons, ht]
    exact ih (fun w hw => hbefore w (List.mem_cons_of_mem z hw)) t

theorem mapM_eq_error {f : σ → Except ε τ} {before after : List σ} {x : σ} {y : ε}
    (hbefore : ∀ z ∈ before, ∃ t, f z = .ok t) (hx : f x = .error y) :
    (before ++ x :: after).mapM f = .error y := by
  rw [List.mapM_eq_reverse_foldlM_cons, foldlM_eq_error]
  · rfl
  · intro z hz values
    obtain ⟨t, ht⟩ := hbefore z hz
    exact ⟨t :: values, by rw [ht]; rfl⟩
  · intro values
    rw [hx]
    rfl

theorem forM_eq_error {f : σ → Except ε PUnit} {before after : List σ} {x : σ} {y : ε}
    (hbefore : ∀ z ∈ before, f z = .ok ⟨⟩) (hx : f x = .error y) :
    (before ++ x :: after).forM f = .error y := by
  have hchecked : forM before f = .ok ⟨⟩ := forM_eq_ok hbefore
  rw [List.forM_eq_forM, List.forM_append, hchecked, List.forM_cons, hx]
  rfl

end Reframe
