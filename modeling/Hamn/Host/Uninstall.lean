import Hamn.Lib.Steps
import Hamn.Host.Profile

/-!
# Host.Uninstall — the removal of the runtime root (`host/cmd/cmd_uninstall.c`)

`hamn_control_uninstall` lists `~/.hamn`, and stops the VM of each profile under the locks of that profile, which it
releases before it goes on to the next name.  When `readdir` returns no more names it removes the whole root.  Starts
take the lifecycle lock of their profile, make its directory where it is new, and bring the VM up.

* `Phase`, `State`, `Action`, `step`: one uninstall and any number of starts, in any order of their steps.
* `Settled`: the condition on the starts and on what the uninstall passes.
* `Inv`: the VMs of the names that it has passed stay down.
-/

namespace Hamn.Host.Uninstall

open Bytes

/-! ## The uninstall and the starts -/

variable {P : Type}

inductive Holder (P : Type) where
  | uninstall
  | start (p : P)
  deriving DecidableEq, Repr

inductive Probe where
  | verified
  | unverified
  | stale
  deriving DecidableEq, Repr

/-- Where `hamn_control_uninstall` is. -/
inductive Phase where
  | idle
  /-- In `stop_all_profiles`, before a `readdir`. -/
  | listing
  /-- `readdir` returned the name. -/
  | found (name : Bytes)
  /-- It holds the locks of the profile, before `vm_process_probe`. -/
  | locked (name : Bytes)
  /-- The process is verified, and told to stop. -/
  | signalled (name : Bytes)
  /-- In `cleanup_stopped_state`. -/
  | cleaning (name : Bytes)
  /-- It returned because it could not stop a profile. -/
  | refused
  | removing
  | removed
  deriving DecidableEq, Repr

/-- Where a start is. -/
inductive Start where
  | idle
  | locked (name : Bytes)
  deriving DecidableEq, Repr

namespace Phase

/-- The profile whose locks the uninstall holds. -/
def holds : Phase → Option Bytes
  | locked name | signalled name | cleaning name => some name
  | _ => none

/-- The name that `readdir` returned last. -/
def current : Phase → Option Bytes
  | found name | locked name | signalled name | cleaning name => some name
  | _ => none

/-- The removal of the root has begun. -/
def destroys : Phase → Bool
  | removing | removed => true
  | _ => false

/-- It is in `stop_all_profiles`. -/
def lists : Phase → Bool
  | listing | found _ | locked _ | signalled _ | cleaning _ => true
  | _ => false

end Phase

structure State (P : Type) where
  /-- The entries of the root, and whether `safe_owned_directory` holds of them. -/
  root : List (Bytes × Bool)
  /-- A VM of the profile runs. -/
  live : Bytes → Bool
  lock : Bytes → Option (Holder P)
  starts : P → Start
  phase : Phase
  /-- The names that were there when this call opened the root, and that `readdir` has not returned. -/
  todo : List Bytes
  /-- The names that this call is done with. -/
  passed : List Bytes
  /-- The profiles that were made since it opened the root. -/
  born : List Bytes
  /-- This call could not lock or stop a profile. -/
  unconfirmed : Bool
  /-- The entries that it has removed. -/
  gone : List Bytes

inductive Action (P : Type) where
  | acquire (p : P) (name : Bytes)
  /-- The directory of a new profile. -/
  | create (p : P)
  /-- Its VM runs. -/
  | up (p : P)
  /-- The start returns or dies. -/
  | release (p : P)
  /-- A VM ends. -/
  | down (name : Bytes)
  /-- Somebody changes the mode or the owner of a directory. -/
  | chmod (name : Bytes) (safe : Bool)
  | begin
  | readdir (name : Bytes)
  /-- The name is not of a profile, or its directory is not safe. -/
  | skip
  /-- `vm_lifecycle_lock_acquire` and `profile_mutation_lock`. -/
  | lock (ok : Bool)
  | probe (answer : Probe)
  /-- `wait_owned_pid_gone` says that the process has ended, or that it has not. -/
  | wait (ended : Bool)
  | cleanup (ok : Bool)
  /-- `readdir` returns no more names, because there are none or because it failed. -/
  | listed (failed : Bool)
  | closeFailed
  | remove (name : Bytes)
  | finish
  deriving DecidableEq, Repr

variable [DecidableEq P]

namespace State

variable (s : State P)

def setStart (p : P) (start : Start) : State P := { s with starts := Function.update s.starts p start }

def setLock (name : Bytes) (holder : Option (Holder P)) : State P :=
  { s with lock := Function.update s.lock name holder }

def setLive (name : Bytes) (live : Bool) : State P := { s with live := Function.update s.live name live }

/-- It goes on to the next name. -/
def pass (name : Bytes) : State P := { s with phase := .listing, passed := name :: s.passed }

/-- It returns without having removed anything. -/
def refuse : State P := { s with phase := .refused, unconfirmed := true }

end State

def names (root : List (Bytes × Bool)) : List Bytes := root.map Prod.fst

/-- What `stop_profile_for_uninstall` and the test before it let through. -/
def eligible (root : List (Bytes × Bool)) (name : Bytes) : Bool := profileNameValid name && root.contains (name, true)

def step (s : State P) : Action P → Option (State P)
  | .acquire p name =>
    if s.starts p = .idle ∧ profileNameValid name ∧ s.lock name = none then
      some ((s.setLock name (some (.start p))).setStart p (.locked name))
    else none
  | .create p =>
    match s.starts p with
    | .locked name =>
      if name ∉ names s.root then some { s with root := (name, true) :: s.root, born := name :: s.born } else none
    | .idle => none
  | .up p =>
    match s.starts p with
    | .locked name => if name ∈ names s.root then some (s.setLive name true) else none
    | .idle => none
  | .release p =>
    match s.starts p with
    | .locked name => some ((s.setLock name none).setStart p .idle)
    | .idle => none
  | .down name => some (s.setLive name false)
  | .chmod name safe => some { s with root := s.root.map fun entry => if entry.1 = name then (name, safe) else entry }
  | .begin =>
    if s.phase = .idle ∨ s.phase = .refused then
      some { s with phase := .listing, todo := names s.root, passed := [], born := [], unconfirmed := false }
    else none
  | .readdir name =>
    if s.phase = .listing then some { s with phase := .found name, todo := s.todo.filter (· ≠ name) } else none
  | .skip =>
    match s.phase with
    | .found name => if eligible s.root name then none else some (s.pass name)
    | _ => none
  | .lock ok =>
    match s.phase with
    | .found name =>
      if eligible s.root name then
        if ok then
          if s.lock name = none then some { s.setLock name (some .uninstall) with phase := .locked name } else none
        else some s.refuse
      else none
    | _ => none
  | .probe answer =>
    match s.phase with
    | .locked name =>
      match answer with
      | .verified => some { s with phase := .signalled name }
      | .unverified => some (s.setLock name none).refuse
      | .stale => some { s with phase := .cleaning name }
    | _ => none
  | .wait ended =>
    match s.phase with
    | .signalled name =>
      if ended then if s.live name then none else some { s with phase := .cleaning name }
      else some (s.setLock name none).refuse
    | _ => none
  | .cleanup ok =>
    match s.phase with
    | .cleaning name => if ok then some ((s.setLock name none).pass name) else some (s.setLock name none).refuse
    | _ => none
  | .listed failed =>
    if s.phase = .listing ∧ (s.todo = [] ∨ failed) then some { s with phase := .removing } else none
  | .closeFailed => if s.phase = .listing then some s.refuse else none
  | .remove name =>
    if s.phase = .removing ∧ name ∈ names s.root then
      some { s with root := s.root.filter (·.1 ≠ name), gone := name :: s.gone }
    else none
  | .finish => if s.phase = .removing then some { s with phase := .removed } else none

/-- No uninstall is under way; a VM runs only for the directory of a profile, and a start holds the lock of its profile. -/
structure Initial (s : State P) : Prop where
  phase : s.phase = .idle
  gone : s.gone = []
  unconfirmed : s.unconfirmed = false
  live : ∀ name, s.live name = true → profileNameValid name = true ∧ name ∈ names s.root
  starts : ∀ p name, s.starts p = .locked name → s.lock name = some (.start p) ∧ profileNameValid name = true

/-- No VM comes up for a name that the uninstall is done with, nor while it removes; no profile whose VM runs is skipped,
and none that was made since or that a failed `readdir` did not return has its VM running when the removal begins; and
the probe finds no running VM stale. -/
def Settled (s : State P) : Action P → Prop
  | .up p => s.phase ≠ .removing ∧ (s.phase.lists = true → ∀ name, s.starts p = .locked name → name ∉ s.passed)
  | .skip => ∀ name, s.phase = .found name → profileNameValid name = true → s.live name = false
  | .probe .stale => ∀ name, s.phase = .locked name → s.live name = false
  | .listed failed => (∀ name ∈ s.born, name ∉ s.passed → s.live name = false) ∧
      (failed = true → ∀ name ∈ s.todo, s.live name = false)
  | _ => True

/-- What the uninstall promises. -/
structure Safe (s : State P) : Prop where
  /-- While it removes the root, no VM runs. -/
  still : s.phase = .removing → ∀ name, s.live name = false
  /-- When a profile could not be stopped, nothing is removed. -/
  kept : s.unconfirmed = true → s.phase.destroys = false ∧ s.gone = []

/-- The uninstall holds the locks of the profile that it stops; the VMs of the names that it is done with are down; and
every entry of the root is such a name, or one that it has still to come to, or was made since. -/
structure Inv (s : State P) : Prop where
  live : s.phase.destroys = false → ∀ name, s.live name = true → profileNameValid name = true ∧ name ∈ names s.root
  starts : ∀ p name, s.starts p = .locked name → s.lock name = some (.start p) ∧ profileNameValid name = true
  lock : ∀ name, s.phase.holds = some name → s.lock name = some .uninstall
  cleaning : ∀ name, s.phase = .cleaning name → s.live name = false
  passed : s.phase.lists = true → ∀ name ∈ s.passed, s.live name = false
  covered : s.phase.lists = true → ∀ name ∈ names s.root,
    name ∈ s.todo ∨ s.phase.current = some name ∨ name ∈ s.passed ∨ name ∈ s.born
  still : s.phase = .removing → ∀ name, s.live name = false
  kept : s.phase.destroys = false → s.gone = []
  refused : s.unconfirmed = true → s.phase = .refused

section

variable {s s' : State P}

omit [DecidableEq P] in
theorem Inv.safe (hs : Inv s) : Safe s where
  still := hs.still
  kept hu := by
    have hd : s.phase.destroys = false := by rw [hs.refused hu]; rfl
    exact ⟨hd, hs.kept hd⟩

omit [DecidableEq P] in
theorem Inv.initial (h : Initial s) : Inv s where
  live _ := h.live
  starts := h.starts
  lock name hn := by
    rw [h.phase] at hn
    cases hn
  cleaning name hn := by
    rw [h.phase] at hn
    cases hn
  passed hl := by
    rw [h.phase] at hl
    cases hl
  covered hl := by
    rw [h.phase] at hl
    cases hl
  still hr := by
    rw [h.phase] at hr
    cases hr
  kept _ := h.gone
  refused hu := by
    rw [h.unconfirmed] at hu
    cases hu

/-! ### What a start does -/

/-- The lock of a profile that nobody else holds changes, and its start with it. -/
theorem Inv.setStart (hs : Inv s) {p : P} {name : Bytes} {holder : Option (Holder P)} {start : Start}
    (hfree : s.phase.holds ≠ some name) (hother : ∀ q, q ≠ p → s.starts q ≠ .locked name)
    (hold : ∀ name', s.starts p = .locked name' → name' = name)
    (hstart : start = .idle ∨ start = .locked name ∧ holder = some (.start p) ∧ profileNameValid name = true) :
    Inv ((s.setLock name holder).setStart p start) :=
  { hs with
    starts := fun q name' hq => by
      change Function.update s.starts p start q = .locked name' at hq
      change Function.update s.lock name holder name' = some (.start q) ∧ profileNameValid name' = true
      by_cases hqp : q = p
      · rw [hqp, Function.update_self] at hq
        rcases hstart with rfl | ⟨rfl, rfl, hv⟩
        · cases hq
        · obtain rfl := Start.locked.inj hq
          rw [Function.update_self, hqp]
          exact ⟨rfl, hv⟩
      · rw [Function.update_of_ne hqp] at hq
        have hne : name' ≠ name := by
          rintro rfl
          exact hother q hqp hq
        rw [Function.update_of_ne hne]
        exact hs.starts q name' hq
    lock := fun name' hn => by
      have hne : name' ≠ name := by
        rintro rfl
        exact hfree hn
      change Function.update s.lock name holder name' = some .uninstall
      rw [Function.update_of_ne hne]
      exact hs.lock name' hn }

omit [DecidableEq P] in
/-- A VM ends. -/
theorem Inv.down (hs : Inv s) (name : Bytes) : Inv (s.setLive name false) := by
  have hoff : ∀ {name'}, s.live name' = false → (s.setLive name false).live name' = false := by
    intro name' h
    change Function.update s.live name false name' = false
    by_cases hn : name' = name
    · rw [hn, Function.update_self]
    · rw [Function.update_of_ne hn]
      exact h
  exact { hs with
    live := fun hd name' hl => by
      refine hs.live hd name' ?_
      rw [← Bool.not_eq_false]
      intro h
      rw [hoff h] at hl
      cases hl
    cleaning := fun name' hc => hoff (hs.cleaning name' hc)
    passed := fun hl name' hp => hoff (hs.passed hl name' hp)
    still := fun hr name' => hoff (hs.still hr name') }

theorem Inv.up (hs : Inv s) {p : P} (hC : Settled s (.up p)) (h : step s (.up p) = some s') : Inv s' := by
  simp only [step] at h
  split at h
  · rename_i name hp
    split_ifs at h with hroot
    obtain rfl := Option.some.inj h
    obtain ⟨hlock, hv⟩ := hs.starts p name hp
    have hne : ∀ {name'}, name' ≠ name → s.live name' = false → (s.setLive name true).live name' = false := by
      intro name' hn hl
      change Function.update s.live name true name' = false
      rw [Function.update_of_ne hn]
      exact hl
    exact { hs with
      live := fun hd name' hl => by
        by_cases hn : name' = name
        · rw [hn]
          exact ⟨hv, hroot⟩
        · change Function.update s.live name true name' = true at hl
          rw [Function.update_of_ne hn] at hl
          exact hs.live hd name' hl
      cleaning := fun name' hc => by
        refine hne ?_ (hs.cleaning name' hc)
        rintro rfl
        -- the uninstall has the lock that the start holds
        change s.phase = .cleaning name' at hc
        rw [hs.lock name' (by rw [hc]; rfl)] at hlock
        cases hlock
      passed := fun hl name' hpass => by
        refine hne ?_ (hs.passed hl name' hpass)
        rintro rfl
        exact hC.2 hl name' hp hpass
      still := fun hr => absurd hr hC.1 }
  · cases h

/-! ### What the uninstall does -/

omit [DecidableEq P] in
/-- A lock changes that neither the uninstall nor a start holds. -/
theorem Inv.setLock (hs : Inv s) {name : Bytes} (hfree : s.phase.holds ≠ some name) (hnone : ∀ q, s.starts q ≠ .locked name)
    (holder : Option (Holder P)) : Inv (s.setLock name holder) :=
  { hs with
    starts := fun q name' hq => by
      have hne : name' ≠ name := by
        rintro rfl
        exact hnone q hq
      change Function.update s.lock name holder name' = some (.start q) ∧ profileNameValid name' = true
      rw [Function.update_of_ne hne]
      exact hs.starts q name' hq
    lock := fun name' hn => by
      have hne : name' ≠ name := by
        rintro rfl
        exact hfree hn
      change Function.update s.lock name holder name' = some .uninstall
      rw [Function.update_of_ne hne]
      exact hs.lock name' hn }

omit [DecidableEq P] in
theorem Inv.no_start (hs : Inv s) {name : Bytes} (hn : s.phase.holds = some name) (q : P) : s.starts q ≠ .locked name := by
  intro hq
  have h := (hs.starts q name hq).1
  rw [hs.lock name hn] at h
  cases h

omit [DecidableEq P] in
/-- The uninstall stays at the profile that it holds the locks of. -/
theorem Inv.setPhase (hs : Inv s) {name : Bytes} {phase : Phase} (hlocked : s.phase.holds = some name)
    (hphase : phase = .signalled name ∨ phase = .cleaning name ∧ s.live name = false) : Inv { s with phase } := by
  have hold : s.phase.destroys = false ∧ s.phase.lists = true ∧ s.phase.current = some name ∧ s.phase ≠ .refused := by
    cases hp : s.phase <;> rw [hp] at hlocked <;> cases hlocked
    all_goals exact ⟨rfl, rfl, rfl, nofun⟩
  have hnew : phase.holds = some name ∧ phase.current = some name ∧ phase ≠ .removing := by
    rcases hphase with rfl | ⟨rfl, -⟩ <;> exact ⟨rfl, rfl, nofun⟩
  obtain ⟨hd, hl, hc, hr⟩ := hold
  exact {
    live := fun _ => hs.live hd
    starts := hs.starts
    lock := fun name' hn => hs.lock name' (by rw [hlocked, ← hnew.1]; exact hn)
    cleaning := fun name' hn => by
      rcases hphase with rfl | ⟨rfl, hlive⟩
      · cases hn
      · obtain rfl := Phase.cleaning.inj hn
        exact hlive
    passed := fun _ => hs.passed hl
    covered := fun _ name' hn => by
      have h := hs.covered hl name' hn
      rw [hc] at h
      change name' ∈ s.todo ∨ phase.current = some name' ∨ name' ∈ s.passed ∨ name' ∈ s.born
      rw [hnew.2.1]
      exact h
    still := fun hn => absurd hn hnew.2.2
    kept := fun _ => hs.kept hd
    refused := fun hu => absurd (hs.refused hu) hr }

omit [DecidableEq P] in
theorem Inv.refuse (hs : Inv s) (hd : s.phase.destroys = false) : Inv s.refuse where
  live _ := hs.live hd
  starts := hs.starts
  lock := nofun
  cleaning := nofun
  passed := nofun
  covered := nofun
  still := nofun
  kept _ := hs.kept hd
  refused _ := rfl

omit [DecidableEq P] in
/-- The uninstall is done with a name whose VM is down. -/
theorem Inv.pass (hs : Inv s) {name : Bytes} (hl : s.phase.lists = true) (hc : s.phase.current = some name)
    (hlive : s.live name = false) : Inv (s.pass name) := by
  have hd : s.phase.destroys = false := by
    cases hp : s.phase <;> rw [hp] at hl <;> first | rfl | cases hl
  exact {
    live := fun _ => hs.live hd
    starts := hs.starts
    lock := nofun
    cleaning := nofun
    passed := fun _ name' hp => by
      rcases List.mem_cons.mp hp with rfl | hp
      · exact hlive
      · exact hs.passed hl name' hp
    covered := fun _ name' hn => by
      rcases hs.covered hl name' hn with h | h | h | h
      · exact .inl h
      · rw [hc] at h
        rw [← Option.some.inj h]
        exact .inr (.inr (.inl List.mem_cons_self))
      · exact .inr (.inr (.inl (List.mem_cons_of_mem _ h)))
      · exact .inr (.inr (.inr h))
    still := nofun
    kept := fun _ => hs.kept hd
    refused := fun hu => by
      rw [hs.refused hu] at hl
      cases hl }

theorem Inv.begin (hs : Inv s) (h : step s .begin = some s') : Inv s' := by
  simp only [step] at h
  split_ifs at h with hp
  obtain rfl := Option.some.inj h
  have hd : s.phase.destroys = false := by
    rcases hp with hp | hp <;> rw [hp] <;> rfl
  exact {
    live := fun _ => hs.live hd
    starts := hs.starts
    lock := nofun
    cleaning := nofun
    passed := nofun
    covered := fun _ name hn => .inl hn
    still := nofun
    kept := fun _ => hs.kept hd
    refused := nofun }

theorem Inv.readdir (hs : Inv s) {name : Bytes} (h : step s (.readdir name) = some s') : Inv s' := by
  simp only [step] at h
  split_ifs at h with hp
  obtain rfl := Option.some.inj h
  have hl : s.phase.lists = true := by rw [hp]; rfl
  have hd : s.phase.destroys = false := by rw [hp]; rfl
  exact {
    live := fun _ => hs.live hd
    starts := hs.starts
    lock := nofun
    cleaning := nofun
    passed := fun _ => hs.passed hl
    covered := fun _ name' hn => by
      by_cases hname : name' = name
      · exact .inr (.inl (congrArg some hname.symm))
      · rcases hs.covered hl name' hn with h | h | h
        · exact .inl (List.mem_filter.mpr ⟨h, decide_eq_true hname⟩)
        · rw [hp] at h
          cases h
        · exact .inr (.inr h)
    still := nofun
    kept := fun _ => hs.kept hd
    refused := fun hu => by
      have hr := hs.refused hu
      rw [hp] at hr
      cases hr }

theorem Inv.skip (hs : Inv s) (hC : Settled s .skip) (h : step s .skip = some s') : Inv s' := by
  simp only [step] at h
  split at h
  · rename_i name hp
    split_ifs at h
    obtain rfl := Option.some.inj h
    refine hs.pass (by rw [hp]; rfl) (by rw [hp]; rfl) ?_
    rw [← Bool.not_eq_true]
    intro hl
    -- only a profile has a VM
    have hv := (hs.live (by rw [hp]; rfl) name hl).1
    rw [hC name hp hv] at hl
    cases hl
  · cases h

theorem Inv.lockStep (hs : Inv s) {ok : Bool} (h : step s (.lock ok) = some s') : Inv s' := by
  simp only [step] at h
  split at h
  · rename_i name hp
    split_ifs at h with he hok hfree
    · obtain rfl := Option.some.inj h
      have hheld : Inv (s.setLock name (some .uninstall)) := by
        refine hs.setLock ?_ (fun q hq => ?_) _
        · rw [hp]
          nofun
        · rw [(hs.starts q name hq).1] at hfree
          cases hfree
      exact { hheld with
        lock := fun name' hn => by
          obtain rfl := Option.some.inj hn
          change Function.update s.lock name (some Holder.uninstall) name = some .uninstall
          rw [Function.update_self]
        live := fun _ => hs.live (by rw [hp]; rfl)
        cleaning := nofun
        passed := fun _ => hs.passed (by rw [hp]; rfl)
        covered := fun _ name' hn => by
          have h := hs.covered (by rw [hp]; rfl) name' hn
          rw [hp] at h
          exact h
        still := nofun
        kept := fun _ => hs.kept (by rw [hp]; rfl)
        refused := fun hu => by
          have hr := hs.refused hu
          rw [hp] at hr
          cases hr }
    · obtain rfl := Option.some.inj h
      exact hs.refuse (by rw [hp]; rfl)
  · cases h

omit [DecidableEq P] in
/-- It gives the locks back. -/
theorem Inv.refuse_unlock (hs : Inv s) {name : Bytes} (hn : s.phase.holds = some name) :
    Inv (s.setLock name none).refuse := by
  have hd : s.phase.destroys = false := by
    cases hp : s.phase <;> rw [hp] at hn <;> first | rfl | cases hn
  change Inv (s.refuse.setLock name none)
  exact (hs.refuse hd).setLock nofun (hs.no_start hn) none

theorem Inv.probe (hs : Inv s) {answer : Probe} (hC : Settled s (.probe answer)) (h : step s (.probe answer) = some s') :
    Inv s' := by
  simp only [step] at h
  split at h
  · rename_i name hp
    have hn : s.phase.holds = some name := by rw [hp]; rfl
    cases answer with
    | verified =>
      obtain rfl := Option.some.inj h
      exact hs.setPhase hn (.inl rfl)
    | unverified =>
      obtain rfl := Option.some.inj h
      exact hs.refuse_unlock hn
    | stale =>
      obtain rfl := Option.some.inj h
      exact hs.setPhase hn (.inr ⟨rfl, hC name hp⟩)
  · cases h

theorem Inv.wait (hs : Inv s) {ended : Bool} (h : step s (.wait ended) = some s') : Inv s' := by
  simp only [step] at h
  split at h
  · rename_i name hp
    have hn : s.phase.holds = some name := by rw [hp]; rfl
    split_ifs at h with hended hlive
    · obtain rfl := Option.some.inj h
      exact hs.setPhase hn (.inr ⟨rfl, Bool.eq_false_of_not_eq_true hlive⟩)
    · obtain rfl := Option.some.inj h
      exact hs.refuse_unlock hn
  · cases h

theorem Inv.cleanup (hs : Inv s) {ok : Bool} (h : step s (.cleanup ok) = some s') : Inv s' := by
  simp only [step] at h
  split at h
  · rename_i name hp
    have hn : s.phase.holds = some name := by rw [hp]; rfl
    split_ifs at h with hok
    · obtain rfl := Option.some.inj h
      change Inv ((s.pass name).setLock name none)
      refine (hs.pass (by rw [hp]; rfl) (by rw [hp]; rfl) (hs.cleaning name hp)).setLock nofun ?_ none
      exact hs.no_start hn
    · obtain rfl := Option.some.inj h
      exact hs.refuse_unlock hn
  · cases h

/-- The removal begins: every entry of the root is of a profile whose VM is down, or of none. -/
theorem Inv.listed (hs : Inv s) {failed : Bool} (hC : Settled s (.listed failed))
    (h : step s (.listed failed) = some s') : Inv s' := by
  simp only [step] at h
  split_ifs at h with hp
  obtain rfl := Option.some.inj h
  obtain ⟨hp, htodo⟩ := hp
  have hl : s.phase.lists = true := by rw [hp]; rfl
  have hd : s.phase.destroys = false := by rw [hp]; rfl
  exact {
    live := nofun
    starts := hs.starts
    lock := nofun
    cleaning := nofun
    passed := nofun
    covered := nofun
    still := fun _ name => by
      rw [← Bool.not_eq_true]
      intro hlive
      have hfalse : s.live name = false := by
        rcases hs.covered hl name (hs.live hd name hlive).2 with h | h | h | h
        · rcases htodo with htodo | hfailed
          · rw [htodo] at h
            cases h
          · exact hC.2 hfailed name h
        · rw [hp] at h
          cases h
        · exact hs.passed hl name h
        · by_cases hpass : name ∈ s.passed
          · exact hs.passed hl name hpass
          · exact hC.1 name h hpass
      change s.live name = true at hlive
      rw [hfalse] at hlive
      cases hlive
    kept := nofun
    refused := fun hu => by
      have hr := hs.refused hu
      rw [hp] at hr
      cases hr }

omit [DecidableEq P] in
/-- The entries of the root change while the uninstall does not remove them. -/
theorem Inv.setRoot (hs : Inv s) {root : List (Bytes × Bool)} {born : List Bytes}
    (hold : ∀ name ∈ names s.root, name ∈ names root)
    (hnew : ∀ name ∈ names root, name ∈ names s.root ∨ name ∈ born) (hborn : ∀ name ∈ s.born, name ∈ born) :
    Inv { s with root, born } :=
  { hs with
    live := fun hd name hl => ⟨(hs.live hd name hl).1, hold name (hs.live hd name hl).2⟩
    covered := fun hl name hn => by
      rcases hnew name hn with hn | hn
      · rcases hs.covered hl name hn with h | h | h | h
        · exact .inl h
        · exact .inr (.inl h)
        · exact .inr (.inr (.inl h))
        · exact .inr (.inr (.inr (hborn name h)))
      · exact .inr (.inr (.inr hn)) }

theorem names_chmod (root : List (Bytes × Bool)) (name : Bytes) (safe : Bool) :
    names (root.map fun entry => if entry.1 = name then (name, safe) else entry) = names root := by
  rw [names, names, List.map_map]
  refine List.map_congr_left fun entry _ => ?_
  change (if entry.1 = name then (name, safe) else entry).1 = entry.1
  by_cases h : entry.1 = name
  · rw [if_pos h, h]
  · rw [if_neg h]

theorem Inv.step (hs : Inv s) (a : Action P) (hC : Settled s a) (h : step s a = some s') : Inv s' := by
  cases a with
  | acquire p name =>
    simp only [Uninstall.step] at h
    split_ifs at h with hp
    obtain rfl := Option.some.inj h
    obtain ⟨hidle, hv, hfree⟩ := hp
    refine hs.setStart (fun hn => ?_) (fun q _ hq => ?_) (fun name' hn => ?_) (.inr ⟨rfl, rfl, hv⟩)
    · rw [hs.lock name hn] at hfree
      cases hfree
    · rw [(hs.starts q name hq).1] at hfree
      cases hfree
    · rw [hidle] at hn
      cases hn
  | create p =>
    simp only [Uninstall.step] at h
    split at h
    · rename_i name hp
      split_ifs at h
      obtain rfl := Option.some.inj h
      refine hs.setRoot (fun _ h => List.mem_cons_of_mem _ h) (fun name' h => ?_) fun _ h => List.mem_cons_of_mem _ h
      rcases List.mem_cons.mp h with rfl | h
      · exact .inr List.mem_cons_self
      · exact .inl h
    · cases h
  | up p => exact hs.up hC h
  | release p =>
    simp only [Uninstall.step] at h
    split at h
    · rename_i name hp
      obtain rfl := Option.some.inj h
      have hlock := (hs.starts p name hp).1
      refine hs.setStart (fun hn => hs.no_start hn p hp) (fun q hqp hq => ?_) (fun name' hn => ?_) (.inl rfl)
      · rw [(hs.starts q name hq).1] at hlock
        exact hqp (Holder.start.inj (Option.some.inj hlock))
      · rw [hp] at hn
        exact (Start.locked.inj hn).symm
    · cases h
  | down name =>
    obtain rfl := Option.some.inj h
    exact hs.down name
  | chmod name safe =>
    obtain rfl := Option.some.inj h
    refine hs.setRoot (fun name' h => ?_) (fun name' h => .inl ?_) fun _ h => h
    · rw [names_chmod]
      exact h
    · rw [names_chmod] at h
      exact h
  | begin => exact hs.begin h
  | readdir name => exact hs.readdir h
  | skip => exact hs.skip hC h
  | lock ok => exact hs.lockStep h
  | probe answer => exact hs.probe hC h
  | wait ended => exact hs.wait h
  | cleanup ok => exact hs.cleanup h
  | listed failed => exact hs.listed hC h
  | closeFailed =>
    simp only [Uninstall.step] at h
    split_ifs at h with hp
    obtain rfl := Option.some.inj h
    exact hs.refuse (by rw [hp]; rfl)
  | remove name =>
    simp only [Uninstall.step] at h
    split_ifs at h with hp
    obtain rfl := Option.some.inj h
    have hd : s.phase.destroys = true := by rw [hp.1]; rfl
    have hl : s.phase.lists = false := by rw [hp.1]; rfl
    exact { hs with
      live := fun hn => by
        rw [hd] at hn
        cases hn
      covered := fun hn => by
        rw [hl] at hn
        cases hn
      kept := fun hn => by
        rw [hd] at hn
        cases hn }
  | finish =>
    simp only [Uninstall.step] at h
    split_ifs at h with hp
    obtain rfl := Option.some.inj h
    exact {
      live := nofun
      starts := hs.starts
      lock := nofun
      cleaning := nofun
      passed := nofun
      covered := nofun
      still := nofun
      kept := nofun
      refused := fun hu => by
        have hr := hs.refused hu
        rw [hp] at hr
        cases hr }

/-- **An uninstall that no start disturbs removes no live runtime**: when no VM comes up behind it, it skips no profile
whose VM runs, and the probe is right about stale processes, then no VM runs while it removes the root; and a call that
could not stop a profile has removed nothing. -/
theorem settled_uninstall_safe {s0 s : State P} (h0 : Initial s0) {as : List (Action P)}
    (hC : Steps.All Uninstall.step Settled s0 as) (hr : Steps.run Uninstall.step s0 as = some s) : Safe s :=
  (Steps.run_all (fun _ a _ hs hC h => hs.step a hC h) (Inv.initial h0) hC hr).safe

end

/-! ## One uninstall -/

/-- Two profiles whose VMs run; the directory of `b` is not safe where `bSafe` is false. -/
def running (bSafe : Bool) : State ℕ :=
  ⟨[(ascii "a", true), (ascii "b", bSafe)], fun name => name = ascii "a" ∨ name = ascii "b", fun _ => none,
    fun _ => .idle, .idle, [], [], [], false, []⟩

theorem running_initial (bSafe : Bool) : Initial (running bSafe) where
  phase := rfl
  gone := rfl
  unconfirmed := rfl
  live name h := by
    rcases of_decide_eq_true h with rfl | rfl
    · exact ⟨by decide, List.mem_cons_self⟩
    · exact ⟨by decide, List.mem_cons_of_mem _ List.mem_cons_self⟩
  starts := nofun

/-- The stop of the profile that `readdir` returned. -/
def stopOf (name : Bytes) : List (Action ℕ) :=
  [.readdir name, .lock true, .probe .verified, .down name, .wait true, .cleanup true]

def uninstallBoth : List (Action ℕ) :=
  (.begin :: stopOf (ascii "a") : List (Action ℕ)) ++ stopOf (ascii "b") ++
    ([.listed false, .remove (ascii "a")] : List (Action ℕ))

/-- The directory of `b` is skipped, and `a` starts again behind the uninstall. -/
def uninstallBehind : List (Action ℕ) :=
  (.begin :: stopOf (ascii "a") : List (Action ℕ)) ++
    ([.readdir (ascii "b"), .skip, .acquire 0 (ascii "a"), .up 0, .release 0, .listed false,
      .remove (ascii "b")] : List (Action ℕ))

/-- No start, no skip and no failure: enough for `Settled`. -/
def calm (s : State ℕ) : Action ℕ → Bool
  | .up _ | .skip | .probe .stale => false
  | .listed failed => s.born.isEmpty && !failed
  | _ => true

theorem calm_settled (s : State ℕ) (a : Action ℕ) (h : calm s a = true) : Settled s a := by
  cases a with
  | up p => cases h
  | skip => cases h
  | probe answer =>
    cases answer with
    | stale => cases h
    | _ => trivial
  | listed failed =>
    obtain ⟨hborn, hfailed⟩ := (Bool.and_eq_true _ _).mp h
    rw [Bool.not_eq_true'] at hfailed
    refine ⟨fun name hn => ?_, fun hf => ?_⟩
    · rw [List.isEmpty_iff.mp hborn] at hn
      cases hn
    · rw [hfailed] at hf
      cases hf
  | _ => trivial

theorem settled_uninstall_safe_both : ∃ s, Steps.run step (running true) uninstallBoth = some s ∧
    s.phase = .removing ∧ s.gone = [ascii "a"] ∧ Safe s := by
  have hrun : (Steps.run step (running true) uninstallBoth).map (fun s => (s.phase, s.gone)) =
      some (.removing, [ascii "a"]) := by decide
  obtain ⟨s, hs, hleft⟩ := Option.map_eq_some_iff.mp hrun
  obtain ⟨hphase, hgone⟩ := Prod.mk.inj hleft
  have hC : Steps.All step Settled (running true) uninstallBoth := Steps.All.of_check calm_settled (by decide)
  exact ⟨s, hs, hphase, hgone, settled_uninstall_safe (running_initial true) hC hs⟩

/-- The removal begins while the VMs of both profiles run. -/
theorem disturbed_uninstall_unsafe : ∃ s : State ℕ, Steps.Reachable step Initial s ∧ s.phase = .removing ∧
    s.live (ascii "a") = true ∧ s.live (ascii "b") = true ∧ s.gone = [ascii "b"] ∧ ¬ Safe s := by
  have hrun : (Steps.run step (running false) uninstallBehind).map
      (fun s => (s.phase, s.live (ascii "a"), s.live (ascii "b"), s.gone)) =
      some (.removing, true, true, [ascii "b"]) := by decide
  obtain ⟨s, hs, hleft⟩ := Option.map_eq_some_iff.mp hrun
  obtain ⟨hphase, hrest⟩ := Prod.mk.inj hleft
  obtain ⟨ha, hrest⟩ := Prod.mk.inj hrest
  obtain ⟨hb, hgone⟩ := Prod.mk.inj hrest
  refine ⟨s, ⟨running false, _, running_initial false, hs⟩, hphase, ha, hb, hgone, fun hsafe => ?_⟩
  rw [hsafe.still hphase] at ha
  cases ha

end Hamn.Host.Uninstall
