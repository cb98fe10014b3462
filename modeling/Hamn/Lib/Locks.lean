import Hamn.Lib.Steps

/-!
# Locks — exclusive locks that processes take one by one

Every process has the list of the locks that it is still going to take, in its order, and waits for the first of them
while some process (itself included) holds it.

* `State`, `Action`, `step`: who holds which lock, and what every process still takes.
* `WaitsFor`, `Deadlock`: a process that waits for itself through others.
* `Ranked`: each process takes its locks in increasing rank; `Ranked.reachable`, `Ranked.not_deadlock`.
-/

namespace Locks

variable {P L ι κ : Type}

/-- The locks that are held, with their holders, and the locks that each process is still going to take. -/
structure State (P L : Type) where
  table : List (L × P)
  todo : P → List L

inductive Action (P L ι : Type) where
  /-- The process begins the job, as an idle one can. -/
  | start (p : P) (job : ι)
  | acquire (p : P)
  /-- It takes no more locks: its job failed or was interrupted. -/
  | abandon (p : P)
  | release (p : P) (l : L)

/-- Nobody holds a lock or is going to take one. -/
def Initial (s : State P L) : Prop := s.table = [] ∧ ∀ p, s.todo p = []

section

variable [DecidableEq P] [DecidableEq L]

/-- One step; a job is the list `script job` of the locks that it takes. -/
def step (script : ι → List L) (s : State P L) : Action P L ι → Option (State P L)
  | .start p job =>
    if s.todo p = [] ∧ ∀ e ∈ s.table, e.2 ≠ p then some { s with todo := Function.update s.todo p (script job) } else none
  | .acquire p =>
    match s.todo p with
    | [] => none
    | l :: rest =>
      if ∀ e ∈ s.table, e.1 ≠ l then some { table := (l, p) :: s.table, todo := Function.update s.todo p rest } else none
  | .abandon p => some { s with todo := Function.update s.todo p [] }
  | .release p l => if (l, p) ∈ s.table then some { s with table := s.table.filter (· ≠ (l, p)) } else none

end

/-- The next lock of `p` is held by `q`. -/
def WaitsFor (s : State P L) (p q : P) : Prop := ∃ l rest, s.todo p = l :: rest ∧ (l, q) ∈ s.table

/-- Some process waits for a process that waits for … that waits for the first. -/
def Deadlock (s : State P L) : Prop := ∃ p, Relation.TransGen (WaitsFor s) p p

/-! ## Locks in increasing rank -/

section

variable [Preorder κ] (rank : L → κ)

def Increasing (ls : List L) : Prop := ls.Pairwise (rank · < rank ·)

/-- What a process is still going to take is increasing and above what it holds. -/
structure Ranked (s : State P L) : Prop where
  todo : ∀ p, Increasing rank (s.todo p)
  above : ∀ l p, (l, p) ∈ s.table → ∀ l' ∈ s.todo p, rank l < rank l'

variable {rank}

theorem Ranked.initial {s : State P L} (h : Initial s) : Ranked rank s where
  todo p := by
    rw [h.2 p]
    exact List.Pairwise.nil
  above l p hl := by
    rw [h.1] at hl
    cases hl

/-- A process that waits holds less than what the process at the end of the chain holds. -/
theorem Ranked.chain {s : State P L} (h : Ranked rank s) {p q : P} (hw : Relation.TransGen (WaitsFor s) p q) :
    ∃ l l', (∃ rest, s.todo p = l :: rest) ∧ (l', q) ∈ s.table ∧ rank l ≤ rank l' := by
  induction hw with
  | single hw =>
    obtain ⟨l, rest, hp, hq⟩ := hw
    exact ⟨l, l, ⟨rest, hp⟩, hq, le_refl _⟩
  | tail _ hw ih =>
    obtain ⟨l, l', hp, hl', hle⟩ := ih
    obtain ⟨l'', rest, hb, hc⟩ := hw
    have hlt : rank l' < rank l'' := by
      apply h.above l' _ hl'
      rw [hb]
      exact List.mem_cons_self
    exact ⟨l, l'', hp, hc, le_trans hle hlt.le⟩

/-- A chain that came back would give a process a lock that is not below the next one it takes. -/
theorem Ranked.not_deadlock {s : State P L} (h : Ranked rank s) : ¬ Deadlock s := by
  rintro ⟨p, hw⟩
  obtain ⟨l, l', ⟨rest, hp⟩, hl', hle⟩ := h.chain hw
  have hlt : rank l' < rank l := by
    apply h.above l' p hl'
    rw [hp]
    exact List.mem_cons_self
  exact absurd hlt (not_lt_of_ge hle)

theorem Ranked.set_todo [DecidableEq P] {s : State P L} (h : Ranked rank s) {p : P} {ls : List L}
    (hls : Increasing rank ls) (habove : ∀ l, (l, p) ∈ s.table → ∀ l' ∈ ls, rank l < rank l') :
    Ranked rank { s with todo := Function.update s.todo p ls } := by
  refine ⟨fun q => ?_, fun l q hl l' hl' => ?_⟩
  · change Increasing rank (Function.update s.todo p ls q)
    by_cases hq : q = p
    · rw [hq, Function.update_self]
      exact hls
    · rw [Function.update_of_ne hq]
      exact h.todo q
  · change l' ∈ Function.update s.todo p ls q at hl'
    by_cases hq : q = p
    · rw [hq, Function.update_self] at hl'
      exact habove l (hq ▸ hl) l' hl'
    · rw [Function.update_of_ne hq] at hl'
      exact h.above l q hl l' hl'

theorem Ranked.hold {s : State P L} (h : Ranked rank s) {p : P} {l : L} (hl : ∀ l' ∈ s.todo p, rank l < rank l') :
    Ranked rank { s with table := (l, p) :: s.table } := by
  refine ⟨h.todo, fun k q hk l' hl' => ?_⟩
  rcases List.mem_cons.mp hk with hk | hk
  · obtain ⟨rfl, rfl⟩ := Prod.mk.inj hk
    exact hl l' hl'
  · exact h.above k q hk l' hl'

variable [DecidableEq P] [DecidableEq L] {script : ι → List L}

theorem Ranked.step (hscript : ∀ job, Increasing rank (script job)) {s s' : State P L} {a : Action P L ι}
    (h : Ranked rank s) (hs : step script s a = some s') : Ranked rank s' := by
  cases a with
  | start p job =>
    simp only [Locks.step] at hs
    split_ifs at hs with hidle
    obtain rfl := Option.some.inj hs
    exact h.set_todo (hscript job) fun l hl => absurd rfl (hidle.2 _ hl)
  | acquire p =>
    simp only [Locks.step] at hs
    cases htodo : s.todo p with
    | nil => rw [htodo] at hs; cases hs
    | cons l rest =>
      rw [htodo] at hs
      simp only at hs
      split_ifs at hs
      obtain rfl := Option.some.inj hs
      have hinc := h.todo p
      rw [htodo] at hinc
      obtain ⟨hl, hrest⟩ := List.pairwise_cons.mp hinc
      have habove : ∀ k, (k, p) ∈ s.table → ∀ l' ∈ rest, rank k < rank l' := by
        intro k hk l' hl'
        apply h.above k p hk l'
        rw [htodo]
        exact List.mem_cons_of_mem l hl'
      refine (h.set_todo hrest habove).hold ?_
      change ∀ l' ∈ Function.update s.todo p rest p, rank l < rank l'
      rw [Function.update_self]
      exact hl
  | abandon p =>
    obtain rfl := Option.some.inj hs
    exact h.set_todo List.Pairwise.nil fun l _ l' hl' => absurd hl' List.not_mem_nil
  | release p l =>
    simp only [Locks.step] at hs
    split_ifs at hs
    obtain rfl := Option.some.inj hs
    exact ⟨h.todo, fun k q hk => h.above k q (List.mem_filter.mp hk).1⟩

/-- Processes that take their locks in increasing rank never deadlock. -/
theorem Ranked.reachable (hscript : ∀ job, Increasing rank (script job)) {s : State P L}
    (h : Steps.Reachable (Locks.step script) Initial s) : Ranked rank s :=
  h.induction (fun _ => Ranked.initial) fun _ _ _ => Ranked.step hscript

end

end Locks
