import Mathlib

/-!
# Steps — systems that take one action after another

A system is a function `step : σ → α → Option σ`: the action `a` is possible in `s` when `step s a` is there.  Several
parties are one system whose actions say whose step it is, so a list of actions is an interleaving.

* `run`: the state after a list of actions.
* `Reachable`: some run from an initial state ends there; `Reachable.induction` carries an invariant along.
* `run_all`: an invariant along runs whose steps all meet a condition; `All.of_check` decides the condition of a run, and
  `all_iff` replaces it by one that is the same wherever an invariant holds.
-/

namespace Steps

variable {σ α : Type}

/-- The state after the actions, each of which was possible. -/
def run (step : σ → α → Option σ) : σ → List α → Option σ
  | s, [] => some s
  | s, a :: as =>
    match step s a with
    | none => none
    | some s' => run step s' as

variable {step : σ → α → Option σ}

theorem run_cons {s s' : σ} {a : α} {as : List α} (h : run step s (a :: as) = some s') :
    ∃ s1, step s a = some s1 ∧ run step s1 as = some s' := by
  unfold run at h
  cases hs : step s a with
  | none =>
    rw [hs] at h
    cases h
  | some s1 =>
    rw [hs] at h
    exact ⟨s1, rfl, h⟩

theorem run_append {s s1 s2 : σ} {as bs : List α} (h : run step s as = some s1) (h' : run step s1 bs = some s2) :
    run step s (as ++ bs) = some s2 := by
  induction as generalizing s with
  | nil =>
    obtain rfl := Option.some.inj h
    exact h'
  | cons a as ih =>
    obtain ⟨s', hs, h⟩ := run_cons h
    have := ih h
    simp only [List.cons_append, run, hs]
    exact this

/-- What every step keeps is kept by a run. -/
theorem run_inv {I : σ → Prop} (hstep : ∀ s a s', I s → step s a = some s' → I s') {as : List α} {s s' : σ} (hs : I s)
    (h : run step s as = some s') : I s' := by
  induction as generalizing s with
  | nil =>
    obtain rfl := Option.some.inj h
    exact hs
  | cons a as ih =>
    obtain ⟨s1, h1, h⟩ := run_cons h
    exact ih (hstep s a s1 hs h1) h

/-- A run each of whose steps meets the condition `C` on the state before it and the action. -/
def All (step : σ → α → Option σ) (C : σ → α → Prop) : σ → List α → Prop
  | _, [] => True
  | s, a :: as => C s a ∧ ∀ s', step s a = some s' → All step C s' as

/-- What every step that meets the condition keeps is kept by a run of such steps. -/
theorem run_all {C : σ → α → Prop} {I : σ → Prop} (hstep : ∀ s a s', I s → C s a → step s a = some s' → I s')
    {as : List α} {s s' : σ} (hs : I s) (hC : All step C s as) (h : run step s as = some s') : I s' := by
  induction as generalizing s with
  | nil =>
    obtain rfl := Option.some.inj h
    exact hs
  | cons a as ih =>
    obtain ⟨s1, h1, h⟩ := run_cons h
    exact ih (hstep s a s1 hs hC.1 h1) (hC.2 s1 h1) h

/-- Two conditions that are the same wherever the invariant holds are the same along runs. -/
theorem all_iff {C D : σ → α → Prop} {I : σ → Prop} (hCD : ∀ s a, I s → (C s a ↔ D s a))
    (hstep : ∀ s a s', I s → step s a = some s' → I s') {s : σ} (hs : I s) (as : List α) :
    All step C s as ↔ All step D s as := by
  induction as generalizing s with
  | nil => exact Iff.rfl
  | cons a as ih =>
    unfold All
    rw [hCD s a hs]
    exact and_congr_right fun _ => forall₂_congr fun s' h => ih (hstep s a s' hs h)

/-- What the invariant says of a step holds of every step of a run. -/
theorem all_of_inv {C : σ → α → Prop} {I : σ → Prop} (hC : ∀ s a, I s → C s a)
    (hstep : ∀ s a s', I s → step s a = some s' → I s') {s : σ} (hs : I s) (as : List α) : All step C s as := by
  induction as generalizing s with
  | nil => trivial
  | cons a as ih => exact ⟨hC s a hs, fun s' h => ih (hstep s a s' hs h)⟩

/-- `c` holds of every step of the run. -/
def check (step : σ → α → Option σ) (c : σ → α → Bool) : σ → List α → Bool
  | _, [] => true
  | s, a :: as =>
    c s a && match step s a with
      | none => true
      | some s' => check step c s' as

theorem All.of_check {C : σ → α → Prop} {c : σ → α → Bool} (hc : ∀ s a, c s a = true → C s a) {as : List α} {s : σ}
    (h : check step c s as = true) : All step C s as := by
  induction as generalizing s with
  | nil => trivial
  | cons a as ih =>
    unfold check at h
    rw [Bool.and_eq_true] at h
    refine ⟨hc s a h.1, fun s' hs => ?_⟩
    have hrest := h.2
    rw [hs] at hrest
    exact ih hrest

/-- The states that a run from an initial one reaches. -/
def Reachable (step : σ → α → Option σ) (init : σ → Prop) (s : σ) : Prop := ∃ s0 as, init s0 ∧ run step s0 as = some s

theorem Reachable.induction {init I : σ → Prop} {s : σ} (h : Reachable step init s) (h0 : ∀ s, init s → I s)
    (hstep : ∀ s a s', I s → step s a = some s' → I s') : I s := by
  obtain ⟨s0, as, hi, hr⟩ := h
  exact run_inv hstep (h0 s0 hi) hr

end Steps
