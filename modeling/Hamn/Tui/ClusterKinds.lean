import Hamn.Lib.Steps
import Hamn.Tui.Request

/-!
# ClusterKinds — the kinds that a cluster serves are looked up in the background

`ClusterKinds` is what one workspace knows of one target, the kubeconfig and context of its request; `KindsLookup` runs
its lookups.  The request may change at any time, every turn of the event loop calls `retarget`, an opened prompt calls
`start`, and the task of any lookup, also of one that was aborted, may still deliver its listing.

* `Event`: what happened, the last first; `current` finds there the lookup that still counts.
* `Shown`: the listing of a target with the lookup that produced it.
* `step_shown`: one step keeps the listing that is shown, or replaces it by that of a later lookup.
-/

namespace Hamn.Tui

open Steps

namespace ClusterKinds

structure Target where
  kubeconfig : Option String
  context : Option String
  deriving DecidableEq, Repr

def Target.of (r : Request) : Target := ⟨r.kubeconfig, r.context⟩

/-- A complete listing has no failure, a failed one no words, and a partial one both. -/
structure Listing where
  words : List String := []
  failure : Option Failure := none
  deriving DecidableEq, Repr

/-- `previous` is a listing that failed and stays while the lookup with `ticket` retries it. -/
inductive Status where
  | idle
  | running (ticket : ℕ) (previous : Option Listing)
  | finished (listing : Listing)
  deriving DecidableEq, Repr

end ClusterKinds

structure ClusterKinds where
  target : Option ClusterKinds.Target := none
  status : ClusterKinds.Status := .idle
  tickets : ℕ := 0
  deriving DecidableEq, Repr

namespace ClusterKinds

/-- Opening the prompt for `target` starts a lookup. -/
def wanted (s : ClusterKinds) (target : Target) : Bool :=
  s.target ≠ some target ||
    match s.status with
    | .idle => true
    | .running _ _ => false
    | .finished listing => listing.failure.isSome

/-- A lookup of `target` starts, with the ticket that comes with the state. -/
def begin (s : ClusterKinds) (target : Target) : ℕ × ClusterKinds :=
  let same := s.target = some target
  let previous := match s.status with
    | .finished listing => if same ∧ listing.failure.isSome then some listing else none
    | .running _ previous => if same then previous else none
    | .idle => none
  (s.tickets + 1, { target := some target, status := .running (s.tickets + 1) previous, tickets := s.tickets + 1 })

/-- The listing of the lookup with `ticket`: nothing changes unless it is the running one. -/
def finish (s : ClusterKinds) (ticket : ℕ) (listing : Listing) : Bool × ClusterKinds :=
  match s.status with
  | .running running _ => if running = ticket then (true, { s with status := .finished listing }) else (false, s)
  | _ => (false, s)

/-- What is known about another target is forgotten; whether that drops a running lookup. -/
def retarget (s : ClusterKinds) (target : Target) : Bool × ClusterKinds :=
  if s.target = some target then (false, s)
  else (match s.status with
    | .running _ _ => true
    | _ => false, { s with target := none, status := .idle })

def listing (s : ClusterKinds) (target : Target) : Option Listing :=
  if s.target ≠ some target then none
  else
    match s.status with
    | .finished listing => some listing
    | .running _ previous => previous
    | .idle => none

/-- The words beyond the built-in kinds that are completed for `target`. -/
def offered (s : ClusterKinds) (target : Target) : List String := ((s.listing target).map Listing.words).getD []

end ClusterKinds

/-! ## The lookups of the event loop -/

inductive Event where
  | began (ticket : ℕ) (target : ClusterKinds.Target)
  | retargeted (target : ClusterKinds.Target)
  | delivered (ticket : ℕ) (listing : ClusterKinds.Listing)
  deriving DecidableEq, Repr

/-- `request` is that of the Kubernetes workspace, `task` the lookup that can be aborted; the lookups of `pending` have
not delivered.  `log` is what happened, the last first. -/
structure KindsLookup where
  request : Request
  kinds : ClusterKinds := {}
  task : Option ℕ := none
  pending : List ℕ := []
  log : List Event := []

namespace KindsLookup

def target (s : KindsLookup) : ClusterKinds.Target := ClusterKinds.Target.of s.request

/-- The task is dropped; what it has sent already may still come. -/
def abort (s : KindsLookup) : KindsLookup := { s with task := none }

def start (s : KindsLookup) : KindsLookup :=
  if s.kinds.wanted s.target = false then s
  else
    let (ticket, kinds) := s.abort.kinds.begin s.target
    { s.abort with
      kinds := kinds
      task := some ticket
      pending := ticket :: s.pending
      log := .began ticket s.target :: s.log }

def retarget (s : KindsLookup) : KindsLookup :=
  let (dropped, kinds) := s.kinds.retarget s.target
  let t := { s with kinds := kinds, log := .retargeted s.target :: s.log }
  if dropped then t.abort else t

/-- A result that the event loop receives. -/
def finish (s : KindsLookup) (ticket : ℕ) (listing : ClusterKinds.Listing) : KindsLookup :=
  { s with
    kinds := (s.kinds.finish ticket listing).2
    pending := s.pending.erase ticket
    log := .delivered ticket listing :: s.log }

end KindsLookup

/-- The request changes, a turn of the event loop, a prompt that opens, a result that comes. -/
inductive LookupAction where
  | change (r : Request)
  | turn
  | prompt
  | deliver (ticket : ℕ) (listing : ClusterKinds.Listing)

namespace KindsLookup

def step (s : KindsLookup) : LookupAction → Option KindsLookup
  | .change r => some { s with request := r }
  | .turn => some s.retarget
  | .prompt => some s.start
  | .deliver ticket listing => if ticket ∈ s.pending then some (s.finish ticket listing) else none

/-- Nothing is known and nothing runs. -/
def Initial (s : KindsLookup) : Prop := s = { request := s.request }

/-- The lookup that was begun last, unless its result came or a later `retarget` was for another target. -/
def current : List Event → Option (ℕ × ClusterKinds.Target)
  | [] => none
  | .began ticket target :: _ => some (ticket, target)
  | .retargeted target :: log => (current log).filter (·.2 = target)
  | .delivered ticket _ :: log => (current log).filter (·.1 ≠ ticket)

/-- The event is not about another target than `t`. -/
def Keeps (t : ClusterKinds.Target) : Event → Prop
  | .began _ target => target = t
  | .retargeted target => target = t
  | .delivered _ _ => True

/-- The listing came from a lookup that was begun for `t`, and no `retarget` for another target followed. -/
def Produced (log : List Event) (ticket : ℕ) (t : ClusterKinds.Target) (listing : ClusterKinds.Listing) : Prop :=
  ∃ later earlier, log = later ++ .began ticket t :: earlier ∧ .delivered ticket listing ∈ later ∧
    ∀ e ∈ later, Keeps t e

/-- The lookup that runs, with its target. -/
def running (s : ClusterKinds) : Option (ℕ × ClusterKinds.Target) :=
  match s.status, s.target with
  | .running ticket _, some target => some (ticket, target)
  | _, _ => none

/-- The listing of `t` is there, from the lookup with `ticket`, and a lookup that runs is a later one. -/
structure Shown (s : KindsLookup) (t : ClusterKinds.Target) (ticket : ℕ) (listing : ClusterKinds.Listing) : Prop where
  listing_eq : s.kinds.listing t = some listing
  produced : Produced s.log ticket t listing
  later : ∀ k previous, s.kinds.status = .running k previous → ticket < k

structure Inv (s : KindsLookup) : Prop where
  /-- The running lookup is the one that still counts. -/
  current_eq : current s.log = running s.kinds
  shown : ∀ t listing, s.kinds.listing t = some listing → ∃ ticket, Shown s t ticket listing
  previous : ∀ k listing, s.kinds.status = .running k (some listing) → listing.failure.isSome = true
  tickets : ∀ k t, .began k t ∈ s.log → k ≤ s.kinds.tickets
  target : ∀ k previous, s.kinds.status = .running k previous → s.kinds.target ≠ none

/-! ## The log -/

theorem Produced.cons {log : List Event} {k : ℕ} {t : ClusterKinds.Target} {l : ClusterKinds.Listing} (h : Produced log k t l) {e : Event}
    (he : Keeps t e) : Produced (e :: log) k t l := by
  obtain ⟨later, earlier, rfl, hmem, hkeeps⟩ := h
  exact ⟨e :: later, earlier, rfl, List.mem_cons_of_mem _ hmem, List.forall_mem_cons.mpr ⟨he, hkeeps⟩⟩

theorem Produced.began {log : List Event} {k : ℕ} {t : ClusterKinds.Target} {l : ClusterKinds.Listing} (h : Produced log k t l) :
    .began k t ∈ log := by
  obtain ⟨later, earlier, rfl, -, -⟩ := h
  exact List.mem_append_right _ List.mem_cons_self

/-- The lookup that still counts was begun for its target, and every later event keeps that. -/
theorem current_spec {log : List Event} {k : ℕ} {t : ClusterKinds.Target} (h : current log = some (k, t)) :
    ∃ later earlier, log = later ++ .began k t :: earlier ∧ ∀ e ∈ later, Keeps t e := by
  induction log with
  | nil => exact absurd h nofun
  | cons e log ih =>
    cases e with
    | began ticket target =>
      obtain ⟨rfl, rfl⟩ := Prod.mk.inj (Option.some.inj h)
      exact ⟨[], log, rfl, nofun⟩
    | retargeted target =>
      obtain ⟨h, ht⟩ := Option.filter_eq_some_iff.mp h
      obtain ⟨later, earlier, rfl, hkeeps⟩ := ih h
      have ht : t = target := by simpa using ht
      exact ⟨.retargeted target :: later, earlier, rfl, List.forall_mem_cons.mpr ⟨ht.symm, hkeeps⟩⟩
    | delivered ticket listing =>
      obtain ⟨h, -⟩ := Option.filter_eq_some_iff.mp h
      obtain ⟨later, earlier, rfl, hkeeps⟩ := ih h
      exact ⟨.delivered ticket listing :: later, earlier, rfl, List.forall_mem_cons.mpr ⟨trivial, hkeeps⟩⟩

theorem produced_of_current {log : List Event} {k : ℕ} {t : ClusterKinds.Target} (h : current log = some (k, t)) (l : ClusterKinds.Listing) :
    Produced (.delivered k l :: log) k t l := by
  obtain ⟨later, earlier, rfl, hkeeps⟩ := current_spec h
  exact ⟨.delivered k l :: later, earlier, rfl, List.mem_cons_self, List.forall_mem_cons.mpr ⟨trivial, hkeeps⟩⟩

/-! ## One step -/

theorem listing_eq_some {s : ClusterKinds} {t : ClusterKinds.Target} {l : ClusterKinds.Listing} :
    s.listing t = some l ↔ s.target = some t ∧ (s.status = .finished l ∨ ∃ k, s.status = .running k (some l)) := by
  unfold ClusterKinds.listing
  by_cases ht : s.target = some t
  · rw [if_neg (not_not.mpr ht)]
    cases s.status <;> simp [ht]
  · rw [if_pos ht]
    simp [ht]

/-- What an action does: to what is known and to the log. -/
inductive Does (s s' : KindsLookup) : LookupAction → Prop
  | change (r : Request) : s'.kinds = s.kinds → s'.log = s.log → Does s s' (.change r)
  | stay : s.kinds.target = some s.target → s'.kinds = s.kinds → s'.log = .retargeted s.target :: s.log →
      Does s s' .turn
  | forget : s.kinds.target ≠ some s.target → s'.kinds = { s.kinds with target := none, status := .idle } →
      s'.log = .retargeted s.target :: s.log → Does s s' .turn
  | wait : s.kinds.wanted s.target = false → s' = s → Does s s' .prompt
  | begin : s.kinds.wanted s.target = true → s'.kinds = (s.kinds.begin s.target).2 →
      s'.log = .began (s.kinds.tickets + 1) s.target :: s.log → Does s s' .prompt
  | accept (k : ℕ) (l : ClusterKinds.Listing) (previous : Option ClusterKinds.Listing) :
      s.kinds.status = .running k previous → s'.kinds = { s.kinds with status := .finished l } →
      s'.log = .delivered k l :: s.log → Does s s' (.deliver k l)
  | discard (k : ℕ) (l : ClusterKinds.Listing) : (∀ previous, s.kinds.status ≠ .running k previous) →
      s'.kinds = s.kinds → s'.log = .delivered k l :: s.log → Does s s' (.deliver k l)

theorem step_does {s s' : KindsLookup} {a : LookupAction} (h : s.step a = some s') : Does s s' a := by
  cases a with
  | change r =>
    obtain rfl := Option.some.inj h
    exact .change r rfl rfl
  | turn =>
    obtain rfl := Option.some.inj h
    unfold retarget ClusterKinds.retarget
    by_cases ht : s.kinds.target = some s.target
    · rw [if_pos ht]
      exact .stay ht rfl rfl
    · rw [if_neg ht]
      dsimp only
      split_ifs
      · exact .forget ht rfl rfl
      · exact .forget ht rfl rfl
  | prompt =>
    obtain rfl := Option.some.inj h
    unfold start
    split_ifs with hwanted
    · exact .wait hwanted rfl
    · exact .begin (by simpa using hwanted) rfl rfl
  | deliver k l =>
    obtain ⟨-, h⟩ : k ∈ s.pending ∧ s.finish k l = s' := by simpa [step] using h
    subst h
    by_cases hrunning : ∃ previous, s.kinds.status = .running k previous
    · obtain ⟨previous, hstatus⟩ := hrunning
      refine .accept k l previous hstatus ?_ rfl
      unfold finish ClusterKinds.finish
      rw [hstatus]
      exact congrArg Prod.snd (if_pos rfl)
    · have hno : ∀ previous, s.kinds.status ≠ .running k previous := fun previous h => hrunning ⟨previous, h⟩
      refine .discard k l hno ?_ rfl
      unfold finish ClusterKinds.finish
      cases hstatus : s.kinds.status with
      | running j previous =>
        have hj : j ≠ k := by
          rintro rfl
          exact hno previous hstatus
        exact congrArg Prod.snd (if_neg hj)
      | _ => rfl

/-- What is left of the listings when a lookup begins: one that failed, of the same target. -/
theorem begin_listing {s : ClusterKinds} (hprevious : ∀ k l, s.status = .running k (some l) → l.failure.isSome = true)
    {u t : ClusterKinds.Target} {l : ClusterKinds.Listing} (h : (s.begin u).2.listing t = some l) :
    s.listing t = some l ∧ l.failure.isSome = true := by
  obtain ⟨ht, hl | ⟨k, hl⟩⟩ := listing_eq_some.mp h
  · exact absurd hl nofun
  · clear h
    obtain rfl : u = t := Option.some.inj ht
    rw [listing_eq_some]
    unfold ClusterKinds.begin at hl
    cases hstatus : s.status with
    | idle => simp [hstatus] at hl
    | running j previous =>
      simp only [hstatus, ClusterKinds.Status.running.injEq] at hl
      split_ifs at hl with hsame
      · obtain rfl := hl.2
        exact ⟨⟨hsame, .inr ⟨j, rfl⟩⟩, hprevious j l hstatus⟩
      · exact absurd hl.2 nofun
    | finished listing =>
      simp only [hstatus, ClusterKinds.Status.running.injEq] at hl
      split_ifs at hl with hsame
      · obtain rfl := Option.some.inj hl.2
        exact ⟨⟨hsame.1, .inl rfl⟩, hsame.2⟩
      · exact absurd hl.2 nofun

/-- A lookup that begins for the same target keeps its listing if that failed. -/
theorem begin_keeps {s : ClusterKinds} {t : ClusterKinds.Target} {l : ClusterKinds.Listing} (h : s.listing t = some l)
    (hfailed : l.failure.isSome = true) : (s.begin t).2.listing t = some l := by
  obtain ⟨ht, h | ⟨k, h⟩⟩ := listing_eq_some.mp h
  · exact listing_eq_some.mpr ⟨rfl, .inr ⟨s.tickets + 1, by simp [ClusterKinds.begin, h, ht, hfailed]⟩⟩
  · exact listing_eq_some.mpr ⟨rfl, .inr ⟨s.tickets + 1, by simp [ClusterKinds.begin, h, ht]⟩⟩

theorem Shown.ticket_le {s : KindsLookup} (hs : Inv s) {t : ClusterKinds.Target} {k : ℕ} {l : ClusterKinds.Listing}
    (h : Shown s t k l) : k ≤ s.kinds.tickets := hs.tickets k t h.produced.began

theorem Shown.target_eq {s : KindsLookup} {t : ClusterKinds.Target} {k : ℕ} {l : ClusterKinds.Listing}
    (h : Shown s t k l) : s.kinds.target = some t := (listing_eq_some.mp h.listing_eq).1

/-- With the same knowledge, an event that is not about another target keeps what is shown. -/
theorem Shown.cons {s s' : KindsLookup} {t : ClusterKinds.Target} {k : ℕ} {l : ClusterKinds.Listing}
    (h : Shown s t k l) (hkinds : s'.kinds = s.kinds) {e : Event} (hlog : s'.log = e :: s.log) (he : Keeps t e) :
    Shown s' t k l := by
  refine ⟨?_, ?_, ?_⟩
  · rw [hkinds]
    exact h.listing_eq
  · rw [hlog]
    exact h.produced.cons he
  · rw [hkinds]
    exact h.later

/-- The listing that a step leaves is the one of before, or the one that was delivered for the running lookup. -/
theorem shown_of_does {s s' : KindsLookup} (hs : Inv s) {a : LookupAction} (h : Does s s' a) {t : ClusterKinds.Target}
    {l : ClusterKinds.Listing} (hl : s'.kinds.listing t = some l) :
    (∃ k, Shown s t k l ∧ Shown s' t k l) ∨ ∃ k, a = .deliver k l ∧ current s.log = some (k, t) ∧ Shown s' t k l := by
  cases h with
  | change r hkinds hlog =>
    rw [hkinds] at hl
    obtain ⟨k, hk⟩ := hs.shown t l hl
    refine .inl ⟨k, hk, ?_, ?_, ?_⟩
    · rw [hkinds]
      exact hl
    · rw [hlog]
      exact hk.produced
    · rw [hkinds]
      exact hk.later
  | stay htarget hkinds hlog =>
    rw [hkinds] at hl
    obtain ⟨k, hk⟩ := hs.shown t l hl
    have ht : s.target = t := Option.some.inj (htarget.symm.trans hk.target_eq)
    exact .inl ⟨k, hk, hk.cons hkinds hlog ht⟩
  | forget htarget hkinds hlog =>
    rw [hkinds] at hl
    exact absurd (listing_eq_some.mp hl).1 nofun
  | wait hwanted heq =>
    subst heq
    obtain ⟨k, hk⟩ := hs.shown t l hl
    exact .inl ⟨k, hk, hk⟩
  | begin hwanted hkinds hlog =>
    have hl' := hl
    rw [hkinds] at hl
    obtain ⟨k, hk⟩ := hs.shown t l (begin_listing hs.previous hl).1
    have ht : s.target = t := Option.some.inj (listing_eq_some.mp hl).1
    refine .inl ⟨k, hk, hl', ?_, ?_⟩
    · rw [hlog]
      exact hk.produced.cons ht
    · intro j previous hj
      rw [hkinds] at hj
      obtain ⟨rfl, -⟩ := ClusterKinds.Status.running.inj hj
      exact Nat.lt_succ_of_le (hk.ticket_le hs)
  | accept k listing previous hstatus hkinds hlog =>
    have hl' := hl
    rw [hkinds] at hl
    obtain ⟨ht, h | ⟨j, h⟩⟩ := listing_eq_some.mp hl
    · obtain rfl := ClusterKinds.Status.finished.inj h
      have hcurrent : current s.log = some (k, t) := by
        rw [hs.current_eq, running, hstatus]
        dsimp only at ht
        rw [ht]
      refine .inr ⟨k, rfl, hcurrent, hl', ?_, ?_⟩
      · rw [hlog]
        exact produced_of_current hcurrent listing
      · intro j previous hj
        rw [hkinds] at hj
        exact absurd hj nofun
    · exact absurd h nofun
  | discard k listing hno hkinds hlog =>
    rw [hkinds] at hl
    obtain ⟨j, hj⟩ := hs.shown t l hl
    exact .inl ⟨j, hj, hj.cons hkinds hlog trivial⟩

theorem running_eq_some {s : ClusterKinds} {k : ℕ} {t : ClusterKinds.Target} :
    running s = some (k, t) ↔ (∃ previous, s.status = .running k previous) ∧ s.target = some t := by
  unfold running
  cases hstatus : s.status with
  | running j previous =>
    cases htarget : s.target with
    | none => simp
    | some u => simp
  | _ => simp

theorem current_of_does {s s' : KindsLookup} (hs : Inv s) {a : LookupAction} (h : Does s s' a) :
    current s'.log = running s'.kinds := by
  cases h with
  | change r hkinds hlog => rw [hlog, hkinds, hs.current_eq]
  | stay htarget hkinds hlog =>
    rw [hlog, hkinds, current, hs.current_eq]
    cases hrunning : running s.kinds with
    | none => rfl
    | some lookup =>
      have ht := htarget.symm.trans (running_eq_some.mp hrunning).2
      exact Option.filter_eq_some_iff.mpr ⟨rfl, by simpa using (Option.some.inj ht).symm⟩
  | forget htarget hkinds hlog =>
    rw [hlog, hkinds, current, hs.current_eq]
    cases hrunning : running s.kinds with
    | none => rfl
    | some lookup =>
      refine Option.filter_eq_none_iff.mpr fun other hother hlookup => ?_
      obtain rfl := Option.some.inj hother
      refine htarget ((running_eq_some.mp hrunning).2.trans ?_)
      rw [of_decide_eq_true hlookup]
  | wait hwanted heq => rw [heq, hs.current_eq]
  | begin hwanted hkinds hlog =>
    rw [hlog, hkinds]
    rfl
  | accept k listing previous hstatus hkinds hlog =>
    rw [hlog, hkinds, current, hs.current_eq]
    refine Option.filter_eq_none_iff.mpr fun other hother hlookup => ?_
    obtain ⟨⟨p, hp⟩, -⟩ := running_eq_some.mp hother
    obtain ⟨rfl, -⟩ := ClusterKinds.Status.running.inj (hstatus.symm.trans hp)
    exact of_decide_eq_true hlookup rfl
  | discard k listing hno hkinds hlog =>
    rw [hlog, hkinds, current, hs.current_eq]
    cases hrunning : running s.kinds with
    | none => rfl
    | some lookup =>
      obtain ⟨⟨p, hp⟩, -⟩ := running_eq_some.mp hrunning
      refine Option.filter_eq_some_iff.mpr ⟨rfl, decide_eq_true ?_⟩
      rintro rfl
      exact hno p hp

theorem Inv.initial (r : Request) : Inv { request := r } where
  current_eq := rfl
  shown := fun _ _ h => absurd (listing_eq_some.mp h).1 nofun
  previous := nofun
  tickets := nofun
  target := nofun

theorem Inv.step {s s' : KindsLookup} (hs : Inv s) {a : LookupAction} (hstep : s.step a = some s') : Inv s' := by
  have h := step_does hstep
  refine ⟨current_of_does hs h, ?_, ?_, ?_, ?_⟩
  · intro t l hl
    obtain ⟨k, -, hk⟩ | ⟨k, -, -, hk⟩ := shown_of_does hs h hl
    · exact ⟨k, hk⟩
    · exact ⟨k, hk⟩
  · intro k l hk
    cases h with
    | change r hkinds hlog => exact hs.previous k l (hkinds ▸ hk)
    | stay htarget hkinds hlog => exact hs.previous k l (hkinds ▸ hk)
    | forget htarget hkinds hlog =>
      rw [hkinds] at hk
      exact absurd hk nofun
    | wait hwanted heq => exact hs.previous k l (heq ▸ hk)
    | begin hwanted hkinds hlog =>
      rw [hkinds] at hk
      exact (begin_listing hs.previous (listing_eq_some.mpr ⟨rfl, .inr ⟨k, hk⟩⟩)).2
    | accept j listing previous hstatus hkinds hlog =>
      rw [hkinds] at hk
      exact absurd hk nofun
    | discard j listing hno hkinds hlog => exact hs.previous k l (hkinds ▸ hk)
  · intro k t hk
    cases h with
    | change r hkinds hlog =>
      rw [hkinds]
      exact hs.tickets k t (hlog ▸ hk)
    | stay htarget hkinds hlog =>
      rw [hlog] at hk
      rw [hkinds]
      exact hs.tickets k t ((List.mem_cons.mp hk).resolve_left nofun)
    | forget htarget hkinds hlog =>
      rw [hlog] at hk
      rw [hkinds]
      exact hs.tickets k t ((List.mem_cons.mp hk).resolve_left nofun)
    | wait hwanted heq =>
      rw [heq] at hk ⊢
      exact hs.tickets k t hk
    | begin hwanted hkinds hlog =>
      rw [hlog] at hk
      rw [hkinds]
      rcases List.mem_cons.mp hk with hk | hk
      · obtain ⟨rfl, -⟩ := Event.began.inj hk
        exact le_rfl
      · exact Nat.le_succ_of_le (hs.tickets k t hk)
    | accept j listing previous hstatus hkinds hlog =>
      rw [hlog] at hk
      rw [hkinds]
      exact hs.tickets k t ((List.mem_cons.mp hk).resolve_left nofun)
    | discard j listing hno hkinds hlog =>
      rw [hlog] at hk
      rw [hkinds]
      exact hs.tickets k t ((List.mem_cons.mp hk).resolve_left nofun)
  · intro k previous hk
    cases h with
    | change r hkinds hlog =>
      rw [hkinds] at hk ⊢
      exact hs.target k previous hk
    | stay htarget hkinds hlog =>
      rw [hkinds] at hk ⊢
      exact hs.target k previous hk
    | forget htarget hkinds hlog =>
      rw [hkinds] at hk
      exact absurd hk nofun
    | wait hwanted heq =>
      rw [heq] at hk ⊢
      exact hs.target k previous hk
    | begin hwanted hkinds hlog =>
      rw [hkinds]
      exact nofun
    | accept j listing p hstatus hkinds hlog =>
      rw [hkinds] at hk
      exact absurd hk nofun
    | discard j listing hno hkinds hlog =>
      rw [hkinds] at hk ⊢
      exact hs.target k previous hk

/-! ## While the target stays -/

/-- A lookup starts over a listing only if that failed. -/
theorem failed_of_wanted {s : ClusterKinds} {t : ClusterKinds.Target} {l : ClusterKinds.Listing}
    (h : s.listing t = some l) (hwanted : s.wanted t = true) : l.failure.isSome = true := by
  obtain ⟨ht, h | ⟨k, h⟩⟩ := listing_eq_some.mp h
  · simpa [ClusterKinds.wanted, ht, h] using hwanted
  · simp [ClusterKinds.wanted, ht, h] at hwanted

/-- While the target stays, one step keeps the listing that is shown, or replaces it by that of a later lookup. -/
theorem step_shown {s s' : KindsLookup} (hs : Inv s) {a : LookupAction} (hstep : s.step a = some s')
    {t : ClusterKinds.Target} (ht : s.target = t) {k : ℕ} {l : ClusterKinds.Listing} (hk : Shown s t k l) :
    Shown s' t k l ∨ ∃ j l', a = .deliver j l' ∧ k < j ∧ Shown s' t j l' := by
  cases step_does hstep with
  | change r hkinds hlog =>
    refine .inl ⟨?_, ?_, ?_⟩
    · rw [hkinds]
      exact hk.listing_eq
    · rw [hlog]
      exact hk.produced
    · rw [hkinds]
      exact hk.later
  | stay htarget hkinds hlog => exact .inl (hk.cons hkinds hlog ht)
  | forget htarget hkinds hlog => exact absurd (hk.target_eq.trans (congrArg some ht.symm)) htarget
  | wait hwanted heq => exact .inl (heq ▸ hk)
  | begin hwanted hkinds hlog =>
    subst ht
    refine .inl ⟨?_, ?_, ?_⟩
    · rw [hkinds]
      exact begin_keeps hk.listing_eq (failed_of_wanted hk.listing_eq hwanted)
    · rw [hlog]
      exact hk.produced.cons rfl
    · intro j previous hj
      rw [hkinds] at hj
      obtain ⟨rfl, -⟩ := ClusterKinds.Status.running.inj hj
      exact Nat.lt_succ_of_le (hk.ticket_le hs)
  | accept j listing previous hstatus hkinds hlog =>
    have hcurrent : current s.log = some (j, t) := by
      rw [hs.current_eq]
      exact running_eq_some.mpr ⟨⟨previous, hstatus⟩, hk.target_eq⟩
    refine .inr ⟨j, listing, rfl, hk.later j previous hstatus, ?_, ?_, ?_⟩
    · rw [hkinds]
      exact listing_eq_some.mpr ⟨hk.target_eq, .inl rfl⟩
    · rw [hlog]
      exact produced_of_current hcurrent listing
    · intro i p hi
      rw [hkinds] at hi
      exact absurd hi nofun
  | discard j listing hno hkinds hlog => exact .inl (hk.cons hkinds hlog trivial)

/-- While the target stays, nothing changes what is known once the listing is complete. -/
theorem step_complete {s s' : KindsLookup} (hs : Inv s) {a : LookupAction} (hstep : s.step a = some s')
    {t : ClusterKinds.Target} (ht : s.target = t) {l : ClusterKinds.Listing} (hl : s.kinds.listing t = some l)
    (hcomplete : l.failure = none) : s'.kinds = s.kinds := by
  have hnot : l.failure.isSome ≠ true := by simp [hcomplete]
  cases step_does hstep with
  | change r hkinds hlog => exact hkinds
  | stay htarget hkinds hlog => exact hkinds
  | forget htarget hkinds hlog =>
    exact absurd ((listing_eq_some.mp hl).1.trans (congrArg some ht.symm)) htarget
  | wait hwanted heq => rw [heq]
  | begin hwanted hkinds hlog =>
    subst ht
    exact absurd (failed_of_wanted hl hwanted) hnot
  | accept j listing previous hstatus hkinds hlog =>
    obtain ⟨-, h | ⟨i, h⟩⟩ := listing_eq_some.mp hl
    · exact absurd (hstatus.symm.trans h) nofun
    · exact absurd (hs.previous i l h) hnot
  | discard j listing hno hkinds hlog => exact hkinds

/-! ## Runs -/

theorem inv_of_run {r : Request} {as : List LookupAction} {s : KindsLookup} (h : Steps.run step { request := r } as = some s) :
    Inv s := run_inv (fun _ _ _ hs hstep => hs.step hstep) (Inv.initial r) h

theorem run_complete {s : KindsLookup} (hs : Inv s) {t : ClusterKinds.Target} {l : ClusterKinds.Listing}
    (hl : s.kinds.listing t = some l) (hcomplete : l.failure = none) {as : List LookupAction} {s' : KindsLookup}
    (hstay : All step (fun u _ => u.target = t) s as) (h : Steps.run step s as = some s') : s'.kinds = s.kinds := by
  refine (run_all (I := fun u => Inv u ∧ u.kinds = s.kinds) ?_ ⟨hs, rfl⟩ hstay h).2
  rintro u a u' ⟨hu, hkinds⟩ ht hstep
  exact ⟨hu.step hstep, (step_complete hu hstep ht (hkinds ▸ hl) hcomplete).trans hkinds⟩

/-- While the target stays, a listing is shown until that of a later lookup comes. -/
theorem run_shown {s : KindsLookup} (hs : Inv s) {t : ClusterKinds.Target} {k : ℕ} {l : ClusterKinds.Listing}
    (hk : Shown s t k l) {as : List LookupAction} {s' : KindsLookup}
    (hstay : All step (fun u _ => u.target = t) s as) (h : Steps.run step s as = some s') :
    Shown s' t k l ∨ ∃ j l', .deliver j l' ∈ as ∧ k < j ∧ Shown s' t j l' := by
  induction as generalizing s k l with
  | nil =>
    obtain rfl := Option.some.inj h
    exact .inl hk
  | cons a as ih =>
    obtain ⟨u, hu, hrun⟩ := run_cons h
    obtain ⟨ht, hrest⟩ := hstay
    rcases step_shown hs hu ht hk with hk | ⟨i, l', rfl, hi, hl'⟩
    · obtain hk | ⟨j, l', hmem, hj, hl'⟩ := ih (hs.step hu) hk (hrest u hu) hrun
      · exact .inl hk
      · exact .inr ⟨j, l', List.mem_cons_of_mem _ hmem, hj, hl'⟩
    · obtain hk | ⟨j, l'', hmem, hj, hl''⟩ := ih (hs.step hu) hl' (hrest u hu) hrun
      · exact .inr ⟨i, l', List.mem_cons_self, hi, hk⟩
      · exact .inr ⟨j, l'', List.mem_cons_of_mem _ hmem, hi.trans hj, hl''⟩

/-- In every run, what is offered for a target was found by a lookup of that target that no later `retarget` abandoned;
a stale result changes nothing; and while the target stays a complete listing is kept, and any other is offered until a
later lookup of the same target has finished. -/
theorem offered_of_run {r : Request} {as : List LookupAction} {s : KindsLookup}
    (h : Steps.run step { request := r } as = some s) :
    (∀ t, s.kinds.offered t = [] ∨ ∃ k l, Produced s.log k t l ∧ s.kinds.offered t = l.words) ∧
    (∀ k l s', (∀ t, current s.log ≠ some (k, t)) → s.step (.deliver k l) = some s' → s'.kinds = s.kinds) ∧
    ∀ t l, s.kinds.listing t = some l → ∃ k, Produced s.log k t l ∧
      ∀ bs s', All step (fun u _ => u.target = t) s bs → Steps.run step s bs = some s' →
        (l.failure = none → s'.kinds = s.kinds) ∧
        (s'.kinds.listing t = some l ∨
          ∃ j l', .deliver j l' ∈ bs ∧ k < j ∧ Produced s'.log j t l' ∧ s'.kinds.listing t = some l') := by
  have hs := inv_of_run h
  refine ⟨fun t => ?_, fun k l s' hstale hstep => ?_, fun t l hl => ?_⟩
  · cases hl : s.kinds.listing t with
    | none => exact .inl (by rw [ClusterKinds.offered, hl]; rfl)
    | some l =>
      obtain ⟨k, hk⟩ := hs.shown t l hl
      exact .inr ⟨k, l, hk.produced, by rw [ClusterKinds.offered, hl]; rfl⟩
  · cases step_does hstep with
    | accept _ _ previous hstatus hkinds hlog =>
      obtain ⟨t, ht⟩ := Option.ne_none_iff_exists'.mp (hs.target k previous hstatus)
      refine absurd ?_ (hstale t)
      rw [hs.current_eq]
      exact running_eq_some.mpr ⟨⟨previous, hstatus⟩, ht⟩
    | discard _ _ hno hkinds hlog => exact hkinds
  · obtain ⟨k, hk⟩ := hs.shown t l hl
    refine ⟨k, hk.produced, fun bs s' hstay hrun => ⟨fun hcomplete => run_complete hs hl hcomplete hstay hrun, ?_⟩⟩
    obtain hk | ⟨j, l', hmem, hj, hl'⟩ := run_shown hs hk hstay hrun
    · exact .inl hk.listing_eq
    · exact .inr ⟨j, l', hmem, hj, hl'.produced, hl'.listing_eq⟩

/-- A prompt opens, its lookup fails, and the next prompt retries it. -/
theorem offered_of_retry :
    let actions := [.turn, .prompt, .deliver 1 ⟨["jobs"], some ⟨"cliError", "metrics"⟩⟩, .turn, .prompt]
    ∃ s, Steps.run step { request := { words := [] } } actions = some s ∧ s.kinds.offered s.target = ["jobs"] ∧
      ∀ k l s', (∀ t, current s.log ≠ some (k, t)) → s.step (.deliver k l) = some s' → s'.kinds = s.kinds := by
  refine ⟨_, rfl, rfl, ?_⟩
  exact (@offered_of_run { words := [] } [.turn, .prompt, .deliver 1 ⟨["jobs"], some ⟨"cliError", "metrics"⟩⟩, .turn,
    .prompt] _ rfl).2.1

end KindsLookup

end Hamn.Tui
