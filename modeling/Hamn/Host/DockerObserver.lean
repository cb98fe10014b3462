import Hamn.Host.ForwardSync

/-!
# DockerObserver — whose answers an observer trusts (`host/fwd/docker_observer.c`)

Any number of observers follow one another.  Each has a lease of its own, which it checks before its snapshot of the
containers and again under the operation lock, and it remembers the control socket of the SSH master for which it has
last withdrawn the trust in the committed records.  The lease is not read again in a pass, so that what happens to it
meanwhile may as well happen after.

* `observerPass`: what an observer does under the lock.
* `Watch`, `WatchStep`: the observers, the lease and the forwards, with every interleaving of their steps.
* `observer_trust`: what a synchronization takes for forwarded was answered for this observer and this control socket.
-/

open Crash
open Proc (note)

namespace Hamn.Forward

/-! ## A pass -/

/-- The master on whose answers the committed TCP records rest, as far as one observer knows. -/
structure ObserverMaster where
  known : Bool := false
  control : MasterSocket := {}
  deriving DecidableEq

/-- How a pass ends that holds its lease and its snapshot. -/
inductive ObserverPass where
  | synchronized
  | stateUnavailable
  | forwardFailed
  deriving DecidableEq

/-- What the observer may trust, with the control socket `current`; `none` when the records cannot be marked. -/
def trustRecords (observer : ℕ) (current : MasterSocket) (master : ObserverMaster) : Op (Option ObserverMaster) := do
  if master.known && master.control = current then
    note fun w => { w with pass := ⟨observer, current⟩ }
    return some master
  if ← portForwardUnconfirmTcp then
    note fun w => { w with pass := ⟨observer, current⟩ }
    return some ⟨true, current⟩
  return none

/-- `observer_pass` under the operation lock, where the lease is still its own. -/
def observerPass (observer : ℕ) (current : MasterSocket) (specs : List PortSpec) (master : ObserverMaster) :
    Op (ObserverPass × ObserverMaster) := do
  match ← trustRecords observer current master with
  | none => return (.stateUnavailable, master)
  | some master =>
    let (synchronized, _) ← portForwardSyncDocker specs
    return (if synchronized then .synchronized else .forwardFailed, master)

/-! ## Observers -/

inductive Phase where
  | gone
  | waiting
  /-- The lease was its own before this snapshot. -/
  | looked (specs : List PortSpec)
  deriving DecidableEq

structure Observer where
  master : ObserverMaster := {}
  phase : Phase := .gone

/-- The forwards, the token in the lease and the observers under their tokens. -/
structure Watch where
  world : World
  lease : Option ℕ
  /-- The tokens from here on were never generated. -/
  fresh : ℕ
  observers : ℕ → Observer

def Watch.set (s : Watch) (o : ℕ) (observer : Observer) : Watch :=
  { s with observers := Function.update s.observers o observer }

inductive WatchStep (s : Watch) : Watch → Prop where
  /-- `docker_observer_start`, whose spawn may fail. -/
  | start (phase : Phase) (hphase : phase = .waiting ∨ phase = .gone) :
      WatchStep s { s.set s.fresh { phase } with lease := some s.fresh, fresh := s.fresh + 1 }
  | revoke : WatchStep s { s with lease := none }
  | look (o : ℕ) (specs : List PortSpec) (hlease : s.lease = some o) (hphase : (s.observers o).phase = .waiting) :
      WatchStep s (s.set o { s.observers o with phase := .looked specs })
  /-- A lease that is lost, before the snapshot or under the lock, or an observer that is killed. -/
  | ended (o : ℕ) : WatchStep s (s.set o { s.observers o with phase := .gone })
  | pass (o : ℕ) (current : MasterSocket) (specs : List PortSpec) (tape rest : List Cell) (w' : World)
      (a : ObserverPass × ObserverMaster) (hlease : s.lease = some o) (hphase : (s.observers o).phase = .looked specs)
      (hrun : observerPass o current specs (s.observers o).master tape s.world = (.ok a, rest, w')) :
      WatchStep s { s.set o ⟨a.2, .waiting⟩ with world := w' }
  /-- A pass that is killed under the lock. -/
  | killed (o : ℕ) (current : MasterSocket) (specs : List PortSpec) (w' : World) (hlease : s.lease = some o)
      (hphase : (s.observers o).phase = .looked specs)
      (hrun : Leads (observerPass o current specs (s.observers o).master) s.world w') :
      WatchStep s { s.set o { s.observers o with phase := .gone } with world := w' }
  | cleanup (w' : World) (hrun : Leads portForwardCleanup s.world w') : WatchStep s { s with world := w' }
  | event (e : Event) : WatchStep s { s with world := e.apply s.world }

/-- No observer has run, and nothing is recorded, held or running. -/
structure Unwatched (s : Watch) : Prop where
  world : Fresh s.world
  lease : s.lease = none
  observers : ∀ o, s.observers o = {}

/-! ## Trust -/

/-- What an observer with a known master trusts is what was answered for it and for this master. -/
structure WatchInv (s : Watch) : Prop where
  world : Inv s.world.pass s.world
  fresh : ∀ o, s.lease = some o → o < s.fresh
  unstarted : ∀ o, s.fresh ≤ o → s.observers o = {}
  trust : ∀ o, s.lease = some o → (s.observers o).phase ≠ .gone → (s.observers o).master.known = true →
    s.world.pass = ⟨o, (s.observers o).master.control⟩

section Trust

variable {p : Pass} {w : World} {o : ℕ} {current : MasterSocket} {master : ObserverMaster}

/-- After a decision for it, the table rests on answers for this observer and this control socket. -/
theorem trustRecords_spec (hw : Inv p w) (hknown : master.known = true → p = ⟨o, master.control⟩) :
    wp (trustRecords o current master) (post (fun w' => Inv p w') fun a w' =>
      (∀ m, a = some m → m = ⟨true, current⟩ ∧ Inv ⟨o, current⟩ w') ∧ (a = none → Inv p w')) w := by
  unfold trustRecords
  split_ifs with hsame
  · simp only [Bool.and_eq_true, decide_eq_true_eq] at hsame
    refine wp_bind (wp_note (wp_return ⟨fun m hm => ?_, fun h => by cases h⟩))
    obtain rfl := Option.some.inj hm
    obtain ⟨known, control⟩ := master
    obtain ⟨rfl, rfl⟩ := hsame
    obtain rfl := hknown rfl
    have hsame : { w with pass := ⟨o, control⟩ } = w := by rw [← hw.pass]
    rw [hsame]
    exact ⟨rfl, hw⟩
  · refine wp_then (portForwardUnconfirmTcp_spec hw) (fun done w1 h1 => ?_) fun w' h => h
    cases done with
    | true =>
      refine wp_bind (wp_note (wp_return ⟨fun m hm => ?_, fun h => by cases h⟩))
      obtain rfl := Option.some.inj hm
      exact ⟨rfl, h1.2 rfl ⟨o, current⟩⟩
    | false => exact wp_return ⟨(fun m h => by cases h), fun _ => h1.1⟩

theorem observerPass_spec {specs : List PortSpec} (hw : Inv p w) (hknown : master.known = true → p = ⟨o, master.control⟩) :
    wp (observerPass o current specs master) (post (fun w' => ∃ p, Inv p w') fun a w' =>
      ∃ p, Inv p w' ∧ (a.2.known = true → p = ⟨o, a.2.control⟩)) w := by
  refine wp_then (trustRecords_spec hw hknown) (fun a w1 h1 => ?_) fun w' h => ⟨p, h⟩
  cases a with
  | none => exact wp_return ⟨p, h1.2 rfl, hknown⟩
  | some m =>
    obtain ⟨rfl, hw1⟩ := h1.1 m rfl
    refine wp_then (portForwardSyncDocker_spec hw1) (fun b w2 h2 => ?_) fun w' h => ⟨_, h⟩
    exact wp_return ⟨_, h2.1, fun _ => rfl⟩

theorem Inv.self {p : Pass} (hw : Inv p w) : Inv w.pass w := hw.pass ▸ hw

end Trust

section Steps

variable {s s' : Watch}

theorem WatchInv.of_unwatched (h : Unwatched s) : WatchInv s := by
  obtain ⟨hworld, hlease, hobservers⟩ := h
  refine ⟨Inv.of_fresh hworld, fun o h => ?_, fun o _ => hobservers o, fun o h => ?_⟩
  · rw [hlease] at h
    cases h
  · rw [hlease] at h
    cases h

/-- An observer that has a lease was started. -/
theorem WatchInv.lt (hs : WatchInv s) {o : ℕ} (h : (s.observers o).phase ≠ .gone) : o < s.fresh := by
  by_contra hlt
  exact h (by rw [hs.unstarted o (not_lt.mp hlt)])

/-- A step after which the observer `o` is as `observer` says, in the world `w`. -/
theorem WatchInv.set (hs : WatchInv s) {o : ℕ} {observer : Observer} {w : World} (ho : o < s.fresh ∨ observer = {})
    (hw : Inv w.pass w) (hpass : w.pass = s.world.pass ∨ s.lease = some o)
    (htrust : s.lease = some o → observer.phase ≠ .gone → observer.master.known = true →
      w.pass = ⟨o, observer.master.control⟩) : WatchInv { s.set o observer with world := w } := by
  refine ⟨hw, hs.fresh, fun o' ho' => ?_, fun o' hlease hphase hknown => ?_⟩
  · change Function.update s.observers o observer o' = _
    by_cases h : o' = o
    · subst h
      rw [Function.update_self]
      exact ho.resolve_left (not_lt.mpr ho')
    · rw [Function.update_of_ne h]
      exact hs.unstarted o' ho'
  · change (Function.update s.observers o observer o').phase ≠ .gone at hphase
    change (Function.update s.observers o observer o').master.known = true at hknown
    change w.pass = ⟨o', (Function.update s.observers o observer o').master.control⟩
    by_cases h : o' = o
    · subst h
      rw [Function.update_self] at hphase hknown ⊢
      exact htrust hlease hphase hknown
    · rw [Function.update_of_ne h] at hphase hknown ⊢
      have hne : s.lease ≠ some o := fun h' => h (Option.some.inj (hlease.symm.trans h'))
      rw [hpass.resolve_right hne]
      exact hs.trust o' hlease hphase hknown

/-- A step that only changes the world, for the same pass. -/
theorem WatchInv.world' (hs : WatchInv s) {w : World} (hw : Inv s.world.pass w) : WatchInv { s with world := w } :=
  ⟨hw.self, hs.fresh, hs.unstarted, fun o hlease hphase hknown => hw.pass.trans (hs.trust o hlease hphase hknown)⟩

theorem WatchInv.step (hs : WatchInv s) (h : WatchStep s s') : WatchInv s' := by
  cases h with
  | start phase hphase =>
    refine ⟨hs.world, fun o ho => ?_, fun o ho => ?_, fun o ho _ hknown => ?_⟩
    · obtain rfl := Option.some.inj ho
      exact Nat.lt_succ_self _
    · change s.fresh + 1 ≤ o at ho
      change Function.update s.observers s.fresh _ o = _
      rw [Function.update_of_ne (by omega)]
      exact hs.unstarted o (by omega)
    · obtain rfl := Option.some.inj ho
      change (Function.update s.observers s.fresh _ s.fresh).master.known = true at hknown
      rw [Function.update_self] at hknown
      cases hknown
  | revoke => exact ⟨hs.world, (fun o h => by cases h), hs.unstarted, fun o h => by cases h⟩
  | look o specs hlease hphase =>
    have hgone : (s.observers o).phase ≠ .gone := by
      rw [hphase]
      exact fun h => by cases h
    exact hs.set (.inl (hs.lt hgone)) hs.world (.inl rfl) fun hlease _ hknown => hs.trust o hlease hgone hknown
  | ended o =>
    refine hs.set ?_ hs.world (.inl rfl) fun _ h => absurd rfl h
    by_cases ho : o < s.fresh
    · exact .inl ho
    · right
      rw [hs.unstarted o (not_lt.mp ho)]
  | pass o current specs tape rest w' a hlease hphase hrun =>
    have hgone : (s.observers o).phase ≠ .gone := by
      rw [hphase]
      exact fun h => by cases h
    have hwp := @observerPass_spec _ _ o current _ specs hs.world (hs.trust o hlease hgone) tape
    rw [hrun] at hwp
    obtain ⟨p, hw', hknown⟩ := hwp
    exact hs.set (.inl (hs.lt hgone)) hw'.self (.inr hlease) fun _ _ h => hw'.pass.trans (hknown h)
  | killed o current specs w' hlease hphase hrun =>
    have hgone : (s.observers o).phase ≠ .gone := by
      rw [hphase]
      exact fun h => by cases h
    obtain ⟨p, hw'⟩ := hrun.of_post (observerPass_spec hs.world (hs.trust o hlease hgone)) fun _ _ h => h.imp fun _ h => h.1
    exact hs.set (.inl (hs.lt hgone)) hw'.self (.inr hlease) fun _ h => absurd rfl h
  | cleanup w' hrun => exact hs.world' (hrun.of_post (portForwardCleanup_spec hs.world) fun _ _ h => h)
  | event e => exact hs.world' (hs.world.later (Later.event e s.world))

end Steps

/-- When an observer with its lease has decided to synchronize, and until it ends or is killed, every committed TCP
record rests on an answer of the master to this observer, in a pass that had read the same control socket. -/
theorem observer_trust {s0 s : Watch} (h0 : Unwatched s0) (h : Reaches WatchStep s0 s) {o : ℕ} (hlease : s.lease = some o)
    (halive : (s.observers o).phase ≠ .gone) {current : MasterSocket} {specs : List PortSpec} {tape : List Cell}
    {master : ObserverMaster} (hrun : (trustRecords o current (s.observers o).master tape s.world).1 = .ok (some master))
    {w : World} (hsync : Leads (portForwardSyncDocker specs)
      (trustRecords o current (s.observers o).master tape s.world).2.2 w) :
    ∃ L, recordsLoad w.file = some L ∧
      ∀ r ∈ L, r.spec.protocol = .tcp → r.pending = false → (r.spec, ⟨o, current⟩) ∈ w.answered := by
  have hs : WatchInv s := h.inv (WatchInv.of_unwatched h0) fun _ _ hs hstep => hs.step hstep
  have hwp := @trustRecords_spec _ _ o current _ hs.world (hs.trust o hlease halive) tape
  rw [hrun] at hwp
  obtain ⟨-, hw⟩ := hwp.1 master rfl
  have hw' : Inv ⟨o, current⟩ w := hsync.of_post (portForwardSyncDocker_spec hw) fun _ _ h => h.1
  obtain ⟨L, hL, hkept⟩ := hw'.kept
  refine ⟨L, hL, fun r hr htcp hpending => ?_⟩
  rw [← hw'.pass]
  exact hkept.confirmed r hr htcp hpending

/-! ## An observer -/

def sampleSocket : MasterSocket := { present := true, inode := 5, createdSec := 9 }

def sampleUnwatched : Watch := ⟨sampleStart, none, 0, fun _ => {}⟩

/-- The observer is started, and it has looked at the containers. -/
def sampleLooked : Watch :=
  Watch.set { sampleUnwatched.set 0 { phase := .waiting } with lease := some 0, fresh := 1 } 0
    { phase := .looked samplePorts }

def sampleTape : List Cell := List.replicate 60 sampleCell

theorem sampleLooked_reached : Reaches WatchStep sampleUnwatched sampleLooked :=
  .tail (.single (.start .waiting (.inl rfl))) (.look 0 samplePorts rfl rfl)

/-- Its first pass. -/
def sampleFirst : Outcome Empty (ObserverPass × ObserverMaster) × List Cell × World :=
  observerPass 0 sampleSocket samplePorts (sampleLooked.observers 0).master sampleTape sampleLooked.world

theorem result_eq {α β γ : Type} {x : α × β × γ} {a : α} (h : x.1 = a) : x = (a, x.2.1, x.2.2) := by
  obtain ⟨a', b, c⟩ := x
  rw [← show a' = a from h]

theorem sampleFirst_eq : observerPass 0 sampleSocket samplePorts (sampleLooked.observers 0).master sampleTape
    sampleLooked.world = (.ok (.synchronized, ⟨true, sampleSocket⟩), sampleFirst.2.1, sampleFirst.2.2) :=
  result_eq (x := sampleFirst) (by decide +kernel)

/-- The ports are synchronized. -/
def sampleWatched : Watch :=
  { sampleLooked.set 0 ⟨⟨true, sampleSocket⟩, .waiting⟩ with world := sampleFirst.2.2 }

theorem sampleWatched_reached : Reaches WatchStep sampleUnwatched sampleWatched :=
  sampleLooked_reached.tail (@WatchStep.pass sampleLooked 0 sampleSocket samplePorts sampleTape sampleFirst.2.1
    sampleFirst.2.2 (.synchronized, ⟨true, sampleSocket⟩) rfl rfl sampleFirst_eq)

/-- The second pass synchronizes with the same control socket. -/
def sampleSecond : World :=
  (portForwardSyncDocker samplePorts sampleTape
    (trustRecords 0 sampleSocket (sampleWatched.observers 0).master sampleTape sampleWatched.world).2.2).2.2

theorem observer_trust_sample : ∃ L, recordsLoad sampleSecond.file = some L ∧
    ∀ r ∈ L, r.spec.protocol = .tcp → r.pending = false → (r.spec, ⟨0, sampleSocket⟩) ∈ sampleSecond.answered :=
  @observer_trust sampleUnwatched sampleWatched ⟨sampleStart_fresh, rfl, fun _ => rfl⟩ sampleWatched_reached 0 rfl
    (by decide +kernel) sampleSocket samplePorts sampleTape ⟨true, sampleSocket⟩ (by decide +kernel) sampleSecond
    ⟨sampleTape, rfl⟩

end Hamn.Forward
