import Mathlib

/-!
# Crash — processes that may be stopped at any step

A process works on a persistent state `σ`.  Every step that the world can see (a write, a rename, a request to
another process) consumes one cell of a tape `List E`: the cell is what the environment decides at that step (the
operation fails, a random name, an answer).  A process whose tape is over is stopped *before* its next step, so a
statement about every tape is a statement about every stop point, every failure and every answer at once.

* `Proc E σ ε α`: a process that returns `α` or fails with `ε`; `step`, `look`, `fail`, `attempt`, `each`.
* `wp m Q s`: on every tape, `m` started in `s` ends as `Q` allows: returned, failed or stopped.  One rule for each
  way to build a process.
* `Leads m s s'`: some run of `m` from `s` ends (in whatever way) in `s'`; `Reaches` iterates a choice of processes.
* `Calm g m s o s'`: the run in which every cell is `g` and the tape is long enough.
-/

namespace Crash

variable {E σ ε ε' α β γ : Type}

/-- How a run ended. -/
inductive Outcome (ε α : Type) where
  | ok (a : α)
  | error (e : ε)
  | stopped
  deriving DecidableEq, Repr

/-- A process: from a tape and a state to the outcome, the rest of the tape and the state it leaves behind. -/
def Proc (E σ ε α : Type) : Type := List E → σ → Outcome ε α × List E × σ

namespace Proc

def pure (a : α) : Proc E σ ε α := fun t s => (.ok a, t, s)

def fail (e : ε) : Proc E σ ε α := fun t s => (.error e, t, s)

def bind (m : Proc E σ ε α) (f : α → Proc E σ ε β) : Proc E σ ε β := fun t s =>
  match m t s with
  | (.ok a, t, s) => f a t s
  | (.error e, t, s) => (.error e, t, s)
  | (.stopped, t, s) => (.stopped, t, s)

instance : Monad (Proc E σ ε) where
  pure := pure
  bind := bind

/-- One atomic step; with no cell left the process stops before it. -/
def step (f : E → σ → Except ε α × σ) : Proc E σ ε α
  | [], s => (.stopped, [], s)
  | c :: t, s =>
    match f c s with
    | (.ok a, s) => (.ok a, t, s)
    | (.error e, s) => (.error e, t, s)

/-- An observation of the state, which changes nothing. -/
def look (f : σ → α) : Proc E σ ε α := fun t s => (.ok (f s), t, s)

/-- An observation that may end the process. -/
def query (f : σ → Except ε α) : Proc E σ ε α := fun t s =>
  match f s with
  | .ok a => (.ok a, t, s)
  | .error e => (.error e, t, s)

/-- A change of bookkeeping that no other process can see apart from the step before it. -/
def note (f : σ → σ) : Proc E σ ε Unit := fun t s => (.ok (), t, f s)

/-- The failure of `m` as a value; a stop stays a stop. -/
def attempt (m : Proc E σ ε α) : Proc E σ ε' (Except ε α) := fun t s =>
  match m t s with
  | (.ok a, t, s) => (.ok (.ok a), t, s)
  | (.error e, t, s) => (.ok (.error e), t, s)
  | (.stopped, t, s) => (.stopped, t, s)

/-- `m`, whose failure nobody looks at. -/
def ignore (m : Proc E σ ε α) : Proc E σ ε' Unit := bind (attempt m) fun _ => pure ()

def require (b : Bool) (e : ε) : Proc E σ ε Unit := if b then Proc.pure () else fail e

/-- A loop over a list with an accumulator. -/
def fold (f : γ → β → Proc E σ ε γ) : γ → List β → Proc E σ ε γ
  | c, [] => Proc.pure c
  | c, b :: l => f c b >>= fun c => fold f c l

def each (f : β → Proc E σ ε Unit) : List β → Proc E σ ε Unit
  | [] => Proc.pure ()
  | b :: l => f b >>= fun _ => each f l

end Proc

open Proc

/-! ## Weakest preconditions -/

/-- What a run may do: the states it may return in, fail in and be stopped in. -/
structure Post (σ ε α : Type) where
  ok : α → σ → Prop
  error : ε → σ → Prop
  stopped : σ → Prop

def Post.Holds (Q : Post σ ε α) : Outcome ε α → σ → Prop
  | .ok a, s => Q.ok a s
  | .error e, s => Q.error e s
  | .stopped, s => Q.stopped s

/-- The same condition however the run ends. -/
def Post.always (I : σ → Prop) : Post σ ε α := ⟨fun _ => I, fun _ => I, I⟩

/-- On every tape `m`, started in `s`, ends as `Q` allows. -/
def wp (m : Proc E σ ε α) (Q : Post σ ε α) (s : σ) : Prop :=
  ∀ t, Q.Holds (m t s).1 (m t s).2.2

theorem wp.mono {m : Proc E σ ε α} {Q Q' : Post σ ε α} {s : σ} (h : wp m Q s)
    (hok : ∀ a s, Q.ok a s → Q'.ok a s) (herr : ∀ e s, Q.error e s → Q'.error e s)
    (hstop : ∀ s, Q.stopped s → Q'.stopped s) : wp m Q' s := by
  intro t
  have := h t
  revert this
  cases (m t s).1 with
  | ok a => exact hok a _
  | error e => exact herr e _
  | stopped => exact hstop _

theorem wp_pure {a : α} {Q : Post σ ε α} {s : σ} (h : Q.ok a s) : wp (E := E) (Pure.pure a : Proc E σ ε α) Q s :=
  fun _ => h

theorem wp_pure' {a : α} {Q : Post σ ε α} {s : σ} (h : Q.ok a s) : wp (E := E) (Proc.pure a) Q s :=
  fun _ => h

theorem wp_fail {e : ε} {Q : Post σ ε α} {s : σ} (h : Q.error e s) : wp (E := E) (fail e) Q s :=
  fun _ => h

theorem wp_look {f : σ → α} {Q : Post σ ε α} {s : σ} (h : Q.ok (f s) s) : wp (E := E) (look f) Q s :=
  fun _ => h

theorem wp_query {f : σ → Except ε α} {Q : Post σ ε α} {s : σ} (hok : ∀ a, f s = .ok a → Q.ok a s)
    (herr : ∀ e, f s = .error e → Q.error e s) : wp (E := E) (query f) Q s := by
  intro t
  unfold query
  cases h : f s with
  | ok a => exact hok a h
  | error e => exact herr e h

theorem wp_note {f : σ → σ} {Q : Post σ ε Unit} {s : σ} (h : Q.ok () (f s)) : wp (E := E) (note f) Q s :=
  fun _ => h

theorem wp_bind {m : Proc E σ ε α} {f : α → Proc E σ ε β} {Q : Post σ ε β} {s : σ}
    (h : wp m ⟨fun a => wp (f a) Q, Q.error, Q.stopped⟩ s) : wp (m >>= f) Q s := by
  intro t
  have h1 := h t
  change Q.Holds (Proc.bind m f t s).1 (Proc.bind m f t s).2.2
  unfold Proc.bind
  rcases hm : m t s with ⟨o, t', s'⟩
  rw [hm] at h1
  cases o with
  | ok a => exact h1 t'
  | error e => exact h1
  | stopped => exact h1

/-- A step: the state before it is a stop point, and each cell leads to a state that `Q` allows. -/
theorem wp_step {f : E → σ → Except ε α × σ} {Q : Post σ ε α} {s : σ} (hs : Q.stopped s)
    (hok : ∀ c a s', f c s = (.ok a, s') → Q.ok a s')
    (herr : ∀ c e s', f c s = (.error e, s') → Q.error e s') : wp (step f) Q s := by
  intro t
  cases t with
  | nil => exact hs
  | cons c t =>
    rcases hf : f c s with ⟨r, s'⟩
    simp only [step, hf]
    cases r with
    | ok a => exact hok c a s' hf
    | error e => exact herr c e s' hf

theorem wp_attempt {m : Proc E σ ε α} {Q : Post σ ε' (Except ε α)} {s : σ}
    (h : wp m ⟨fun a => Q.ok (.ok a), fun e => Q.ok (.error e), Q.stopped⟩ s) : wp (attempt m) Q s := by
  intro t
  have h1 := h t
  unfold attempt
  rcases hm : m t s with ⟨o, t', s'⟩
  rw [hm] at h1
  cases o <;> exact h1

/-- `m`, about which `P` is known, and then `f`. -/
theorem wp.seq {m : Proc E σ ε α} {f : α → Proc E σ ε β} {P : Post σ ε α} {Q : Post σ ε β} {s : σ} (h : wp m P s)
    (hok : ∀ a s, P.ok a s → wp (f a) Q s) (herr : ∀ e s, P.error e s → Q.error e s)
    (hstop : ∀ s, P.stopped s → Q.stopped s) : wp (m >>= f) Q s :=
  wp_bind (h.mono hok herr hstop)

/-- `m`, about which `P` is known, with its failures caught, and then `f`. -/
theorem wp.catch {m : Proc E σ ε α} {f : Except ε α → Proc E σ ε' β} {P : Post σ ε α} {Q : Post σ ε' β} {s : σ}
    (h : wp m P s) (hok : ∀ a s, P.ok a s → wp (f (.ok a)) Q s) (herr : ∀ e s, P.error e s → wp (f (.error e)) Q s)
    (hstop : ∀ s, P.stopped s → Q.stopped s) : wp (attempt m >>= f) Q s :=
  wp_bind (wp_attempt (h.mono hok herr hstop))

theorem wp_look_bind {f : σ → α} {k : α → Proc E σ ε β} {Q : Post σ ε β} {s : σ} (h : wp (k (f s)) Q s) :
    wp (look f >>= k) Q s :=
  wp_bind (wp_look h)

theorem wp_query_bind {f : σ → Except ε α} {k : α → Proc E σ ε β} {Q : Post σ ε β} {s : σ}
    (hok : ∀ a, f s = .ok a → wp (k a) Q s) (herr : ∀ e, f s = .error e → Q.error e s) : wp (query f >>= k) Q s :=
  wp_bind (wp_query hok herr)

theorem wp_ignore {m : Proc E σ ε α} {Q : Post σ ε' Unit} {s : σ}
    (h : wp m ⟨fun _ => Q.ok (), fun _ => Q.ok (), Q.stopped⟩ s) : wp (ignore m) Q s :=
  wp_bind (f := fun _ => Pure.pure ()) (wp_attempt (h.mono (fun _ _ h => wp_pure h) (fun _ _ h => wp_pure h) fun _ h => h))

theorem wp_require {b : Bool} {e : ε} {Q : Post σ ε Unit} {s : σ} (ht : b = true → Q.ok () s)
    (hf : b = false → Q.error e s) : wp (E := E) (require b e) Q s := by
  cases b with
  | true => exact wp_pure' (ht rfl)
  | false => exact wp_fail (hf rfl)

/-- Loops: an invariant of the accumulator and of what is left of the list. -/
theorem wp_fold {f : γ → β → Proc E σ ε γ} {Q : Post σ ε γ} (I : γ → List β → σ → Prop)
    (hstep : ∀ c b l s, I c (b :: l) s → wp (f c b) ⟨fun c' => I c' l, Q.error, Q.stopped⟩ s)
    (hend : ∀ c s, I c [] s → Q.ok c s) :
    ∀ (l : List β) (c : γ) (s : σ), I c l s → wp (fold f c l) Q s
  | [], c, s, h => wp_pure' (hend c s h)
  | b :: l, c, s, h => by
    refine wp_bind ((hstep c b l s h).mono ?_ (fun _ _ h => h) (fun _ h => h))
    intro c' s' h'
    exact wp_fold I hstep hend l c' s' h'

theorem wp_each {f : β → Proc E σ ε Unit} {Q : Post σ ε Unit} (I : List β → σ → Prop)
    (hstep : ∀ b l s, I (b :: l) s → wp (f b) ⟨fun _ => I l, Q.error, Q.stopped⟩ s)
    (hend : ∀ s, I [] s → Q.ok () s) :
    ∀ (l : List β) (s : σ), I l s → wp (each f l) Q s
  | [], s, h => wp_pure' (hend s h)
  | b :: l, s, h => by
    refine wp_bind ((hstep b l s h).mono ?_ (fun _ _ h => h) (fun _ h => h))
    intro _ s' h'
    exact wp_each I hstep hend l s' h'

/-! ## Invariants -/

/-- Every run of `m` from a state in `I`, however it ends, ends in `I`. -/
def Maintains (I : σ → Prop) (m : Proc E σ ε α) : Prop := ∀ s, I s → wp m (Post.always I) s

namespace Maintains

variable {I : σ → Prop}

theorem pure {a : α} : Maintains (E := E) (ε := ε) I (Pure.pure a : Proc E σ ε α) := fun _ h => wp_pure h

theorem fail {e : ε} : Maintains (E := E) (α := α) I (fail e) := fun _ h => wp_fail h

theorem look {f : σ → α} : Maintains (E := E) (ε := ε) I (look f) := fun _ h => wp_look h

theorem query {f : σ → Except ε α} : Maintains (E := E) I (query f) := fun _ h =>
  wp_query (fun _ _ => h) fun _ _ => h

theorem step {f : E → σ → Except ε α × σ} (h : ∀ c s, I s → I (f c s).2) : Maintains I (step f) := fun s hs =>
  wp_step hs (fun c a s' he => by have := h c s hs; rwa [he] at this)
    fun c e s' he => by have := h c s hs; rwa [he] at this

theorem bind {m : Proc E σ ε α} {f : α → Proc E σ ε β} (hm : Maintains I m) (hf : ∀ a, Maintains I (f a)) :
    Maintains I (m >>= f) := fun s hs =>
  wp_bind ((hm s hs).mono (fun a s' h => hf a s' h) (fun _ _ h => h) fun _ h => h)

theorem attempt {m : Proc E σ ε α} (hm : Maintains I m) :
    Maintains I (attempt m : Proc E σ ε' (Except ε α)) := fun s hs =>
  wp_attempt ((hm s hs).mono (fun _ _ h => h) (fun _ _ h => h) fun _ h => h)

theorem ignore {m : Proc E σ ε α} (hm : Maintains I m) : Maintains I (ignore m : Proc E σ ε' Unit) := fun s hs =>
  wp_ignore ((hm s hs).mono (fun _ _ h => h) (fun _ _ h => h) fun _ h => h)

theorem require {b : Bool} {e : ε} : Maintains (E := E) I (require b e) := fun _ h =>
  wp_require (fun _ => h) fun _ => h

theorem each {f : β → Proc E σ ε Unit} (hf : ∀ b, Maintains I (f b)) (l : List β) : Maintains I (each f l) :=
  fun s hs => wp_each (fun _ => I) (fun b _ s h => hf b s h) (fun _ h => h) l s hs

theorem fold {f : γ → β → Proc E σ ε γ} (hf : ∀ c b, Maintains I (f c b)) (l : List β) (c : γ) :
    Maintains I (fold f c l) :=
  fun s hs => wp_fold (fun _ _ => I) (fun c b _ s h => hf c b s h) (fun _ _ h => h) l c s hs

end Maintains

/-! ## Runs of processes -/

/-- Some run of `m` from `s`, complete or not, leaves `s'` behind. -/
def Leads (m : Proc E σ ε α) (s s' : σ) : Prop := ∃ t, (m t s).2.2 = s'

theorem Leads.of_wp {m : Proc E σ ε α} {I : σ → Prop} {s s' : σ} (h : Leads m s s')
    (hm : wp m (Post.always I) s) : I s' := by
  obtain ⟨t, rfl⟩ := h
  have := hm t
  cases ho : (m t s).1 <;> rw [ho] at this <;> exact this

/-- The states that any number of runs, each of one of the processes `R` allows, can leave behind. -/
abbrev Reaches (R : σ → σ → Prop) : σ → σ → Prop := Relation.ReflTransGen R

/-- What holds at the start and is kept by every run holds in every state reached. -/
theorem Reaches.inv {R : σ → σ → Prop} {I : σ → Prop} {s s' : σ} (h : Reaches R s s') (h0 : I s)
    (hstep : ∀ s s', I s → R s s' → I s') : I s' := by
  induction h with
  | refl => exact h0
  | tail _ hr ih => exact hstep _ _ ih hr

/-! ## Undisturbed runs -/

/-- With every cell equal to `g` and enough of them, `m` ends with `o` in `s'`. -/
def Calm (g : E) (m : Proc E σ ε α) (s : σ) (o : Outcome ε α) (s' : σ) : Prop :=
  ∃ n, ∀ k, m (List.replicate (n + k) g) s = (o, List.replicate k g, s')

theorem Calm.pure {g : E} {a : α} {s : σ} : Calm g (Pure.pure a : Proc E σ ε α) s (.ok a) s :=
  ⟨0, fun k => by rw [Nat.zero_add]; rfl⟩

theorem Calm.look {g : E} {f : σ → α} {s : σ} : Calm (ε := ε) g (look f) s (.ok (f s)) s :=
  ⟨0, fun k => by rw [Nat.zero_add]; rfl⟩

theorem Calm.fail {g : E} {e : ε} {s : σ} : Calm (α := α) g (fail e) s (.error e) s :=
  ⟨0, fun k => by rw [Nat.zero_add]; rfl⟩

theorem Calm.step_ok {g : E} {f : E → σ → Except ε α × σ} {a : α} {s s' : σ} (h : f g s = (.ok a, s')) :
    Calm g (step f) s (.ok a) s' :=
  ⟨1, fun k => by rw [Nat.add_comm, List.replicate_succ]; simp only [step, h]⟩

theorem Calm.step_error {g : E} {f : E → σ → Except ε α × σ} {e : ε} {s s' : σ} (h : f g s = (.error e, s')) :
    Calm g (step f) s (.error e) s' :=
  ⟨1, fun k => by rw [Nat.add_comm, List.replicate_succ]; simp only [step, h]⟩

theorem Calm.bind {g : E} {m : Proc E σ ε α} {f : α → Proc E σ ε β} {a : α} {o : Outcome ε β} {s s1 s2 : σ}
    (h1 : Calm g m s (.ok a) s1) (h2 : Calm g (f a) s1 o s2) : Calm g (m >>= f) s o s2 := by
  obtain ⟨n1, h1⟩ := h1
  obtain ⟨n2, h2⟩ := h2
  refine ⟨n1 + n2, fun k => ?_⟩
  change Proc.bind m f _ s = _
  unfold Proc.bind
  rw [Nat.add_assoc, h1 (n2 + k)]
  exact h2 k

theorem Calm.bind_error {g : E} {m : Proc E σ ε α} {f : α → Proc E σ ε β} {e : ε} {s s1 : σ}
    (h : Calm g m s (.error e) s1) : Calm g (m >>= f) s (.error e) s1 := by
  obtain ⟨n, h⟩ := h
  refine ⟨n, fun k => ?_⟩
  change Proc.bind m f _ s = _
  unfold Proc.bind
  rw [h k]

theorem Calm.attempt_ok {g : E} {m : Proc E σ ε α} {a : α} {s s' : σ} (h : Calm g m s (.ok a) s') :
    Calm g (attempt m : Proc E σ ε' _) s (.ok (.ok a)) s' := by
  obtain ⟨n, h⟩ := h
  exact ⟨n, fun k => by unfold attempt; rw [h k]⟩

theorem Calm.attempt_error {g : E} {m : Proc E σ ε α} {e : ε} {s s' : σ} (h : Calm g m s (.error e) s') :
    Calm g (attempt m : Proc E σ ε' _) s (.ok (.error e)) s' := by
  obtain ⟨n, h⟩ := h
  exact ⟨n, fun k => by unfold attempt; rw [h k]⟩

end Crash
