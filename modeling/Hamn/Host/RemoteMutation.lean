import Hamn.Lib.Steps

/-!
# Host.RemoteMutation — guest writers that are fenced when they fail (`host/core/remote_mutation.c`)

A call sends a writer to the guest: it queues on the guest lock, and with the lock it looks for its cancellation marker
before it runs the command.  When the writer does not succeed, the call publishes the marker without the lock and then
passes the lock once.  What is sent may arrive at any later time or never, and its answer may be lost.  Calls are known by
their tokens; any number of processes make calls, one at a time each, and other guest programs take the lock as well.

* `Writer`, `Remote`, `Call`: what became of one call in the guest, and where its process is.
* `State`, `Action`, `step`: the guest and the processes, in any order of their steps.
* `CallInv`, `Inv`: what holds of every call, and that a process is in one call at a time.
-/

namespace Hamn.Host.RemoteMutation

variable {H T : Type}

/-! ## One call -/

/-- The instance of the wrapped command that the `writer` script makes. -/
inductive Writer where
  | unsent
  /-- Sent, and not yet started by the guest. -/
  | delayed
  /-- In `flock`. -/
  | queued
  /-- It has the lock and did not look for the marker. -/
  | entered
  /-- It has the lock and found the marker. -/
  | removing
  /-- It has the lock and did not find the marker. -/
  | passed
  /-- The command runs, with the lock. -/
  | running
  /-- Finished or killed. -/
  | ended (ok : Bool)
  deriving DecidableEq, Repr

/-- The `fence` script, which acts by writing the marker, and the barrier, which acts by taking the lock. -/
inductive Remote where
  | unsent
  | delayed
  | acted
  | ended (ok : Bool)
  deriving DecidableEq, Repr

/-- Where `remote_mutation_run` is; a return has the result and `cleanup_pending` at that moment. -/
inductive Phase (H : Type) where
  | undrawn
  | writing (process : H)
  | fencing (process : H)
  | settling (process : H)
  | returned (failed pending : Bool)
  deriving DecidableEq, Repr

structure Call (H : Type) where
  phase : Phase H := .undrawn
  writer : Writer := .unsent
  fence : Remote := .unsent
  barrier : Remote := .unsent
  /-- The marker of its token exists in `/run/hamn-cancelled-mutations`. -/
  marker : Bool := false
  deriving DecidableEq, Repr

inductive Holder (T : Type) where
  | writer (token : T)
  | barrier (token : T)
  | other
  deriving DecidableEq, Repr

/-- What can happen in the guest for one call. -/
inductive Event where
  /-- The guest starts the writer, which makes the marker directory and queues. -/
  | deliver
  | enter
  /-- `test -e "$marker"`. -/
  | test
  /-- `rm -- "$marker"; exit 130`. -/
  | remove
  | exec
  | finish (ok : Bool)
  /-- The writer ends without another effect: it never arrives, times out or is killed. -/
  | kill
  | publish
  | fenceEnd (ok : Bool)
  | pass
  | barrierEnd (ok : Bool)
  deriving DecidableEq, Repr

def Writer.holds : Writer → Bool
  | .entered | .removing | .passed | .running => true
  | _ => false

/-- What `test -e "$marker"` decides. -/
def Writer.look : Bool → Writer
  | true => .removing
  | false => .passed

/-- One event of the call with this token, with the holder of the guest lock. -/
def happen (t : T) (c : Call H) (lock : Option (Holder T)) : Event → Option (Call H × Option (Holder T))
  | .deliver => if c.writer = .delayed then some ({ c with writer := .queued }, lock) else none
  | .enter =>
    if c.writer = .queued ∧ lock = none then some ({ c with writer := .entered }, some (.writer t)) else none
  | .test =>
    if c.writer = .entered then some ({ c with writer := .look c.marker }, lock) else none
  | .remove =>
    if c.writer = .removing then some ({ c with writer := .ended false, marker := false }, none) else none
  | .exec => if c.writer = .passed then some ({ c with writer := .running }, lock) else none
  | .finish ok => if c.writer = .running then some ({ c with writer := .ended ok }, none) else none
  | .kill =>
    if c.writer.holds then some ({ c with writer := .ended false }, none)
    else if c.writer = .delayed ∨ c.writer = .queued then some ({ c with writer := .ended false }, lock)
    else none
  | .publish => if c.fence = .delayed then some ({ c with fence := .acted, marker := true }, lock) else none
  | .fenceEnd ok =>
    if c.fence = .acted ∨ (c.fence = .delayed ∧ ok = false) then some ({ c with fence := .ended ok }, lock) else none
  | .pass =>
    if c.barrier = .delayed ∧ lock = none then some ({ c with barrier := .acted }, some (.barrier t)) else none
  | .barrierEnd ok =>
    if c.barrier = .acted then some ({ c with barrier := .ended ok }, none)
    else if c.barrier = .delayed ∧ ok = false then some ({ c with barrier := .ended ok }, lock)
    else none

/-! ## What holds of a call -/

/-- Once the marker was published the writer sees it or is over, and once the barrier had the lock after that the writer
is not beyond its look for the marker. -/
structure CallInv (t : T) (c : Call H) (lock : Option (Holder T)) : Prop where
  writer_lock : c.writer.holds = true → lock = some (.writer t)
  barrier_lock : c.barrier = .acted → lock = some (.barrier t)
  marked : c.fence = .acted ∨ c.fence = .ended true → c.marker = true ∨ ∃ ok, c.writer = .ended ok
  fenced : c.barrier ≠ .unsent → c.fence = .ended true
  settled : c.barrier = .acted ∨ c.barrier = .ended true → c.writer ≠ .passed ∧ c.writer ≠ .running
  undrawn : c.phase = .undrawn → c.writer = .unsent ∧ c.fence = .unsent ∧ c.barrier = .unsent
  writing : ∀ h, c.phase = .writing h → c.fence = .unsent ∧ c.barrier = .unsent
  fencing : ∀ h, c.phase = .fencing h → c.barrier = .unsent
  returned : c.phase = .returned true false → c.writer = .unsent ∨ c.barrier = .ended true

/-- The writer or the barrier of the call. -/
def Holder.Of (t : T) (holder : Holder T) : Prop := holder = .writer t ∨ holder = .barrier t

/-- A call takes the lock when it is free, and releases it when it has it. -/
def LockStep (t : T) (lock lock' : Option (Holder T)) : Prop :=
  lock' = lock ∨ (∀ holder ∈ lock, holder.Of t) ∧ ∀ holder ∈ lock', holder.Of t

theorem happen_phase {t : T} {c c' : Call H} {lock lock' : Option (Holder T)} {event : Event}
    (h : happen t c lock event = some (c', lock')) : c'.phase = c.phase := by
  cases event <;> simp only [happen] at h <;> split_ifs at h <;> obtain ⟨rfl, -⟩ := Prod.mk.inj (Option.some.inj h) <;> rfl

theorem CallInv.fresh (t : T) (lock : Option (Holder T)) : CallInv t ({} : Call H) lock where
  writer_lock := nofun
  barrier_lock := nofun
  marked := nofun
  fenced h := absurd rfl h
  settled := nofun
  undrawn _ := ⟨rfl, rfl, rfl⟩
  writing _ _ := ⟨rfl, rfl⟩
  fencing _ _ := rfl
  returned := nofun

section

variable {t : T} {c : Call H} {lock lock' : Option (Holder T)}

/-- A writer that is under way goes on: it is beyond its look for the marker only when it was already or did not find
the marker, and the marker goes only with the end of the writer. -/
theorem CallInv.move (hc : CallInv t c lock) {w : Writer} {marker : Bool} (hsent : c.writer ≠ .unsent)
    (hlive : ∀ ok, c.writer ≠ .ended ok) (hlock : w.holds = true → lock' = some (.writer t))
    (hbarrier : c.barrier = .acted → lock' = some (.barrier t)) (hmarker : marker = c.marker ∨ ∃ ok, w = .ended ok)
    (hpast : w = .passed ∨ w = .running → c.writer = .passed ∨ c.writer = .entered ∧ c.marker = false) :
    CallInv t { c with writer := w, marker } lock' where
  writer_lock := hlock
  barrier_lock := hbarrier
  marked hf := by
    rcases hmarker with rfl | hw
    · exact .inl ((hc.marked hf).resolve_right fun ⟨ok, he⟩ => hlive ok he)
    · exact .inr hw
  fenced := hc.fenced
  settled hb := by
    have hnot : ¬ (w = .passed ∨ w = .running) := by
      intro hw
      rcases hpast hw with hp | ⟨-, hm⟩
      · exact (hc.settled hb).1 hp
      · have hfence : c.fence = .ended true := hc.fenced (by rcases hb with hb | hb <;> rw [hb] <;> nofun)
        rcases hc.marked (.inr hfence) with hm' | ⟨ok, he⟩
        · rw [hm] at hm'
          cases hm'
        · exact hlive ok he
    exact not_or.mp hnot
  undrawn hp := absurd (hc.undrawn hp).1 hsent
  writing := hc.writing
  fencing := hc.fencing
  returned hp := .inr ((hc.returned hp).resolve_left hsent)

/-- The fence script acts or ends; when it did what it is for, the marker is there. -/
theorem CallInv.setFence (hc : CallInv t c lock) {fence : Remote} {marker : Bool} (hsent : c.fence ≠ .unsent)
    (hlive : c.fence ≠ .ended true)
    (hmarked : fence = .acted ∨ fence = .ended true → marker = true ∨ ∃ ok, c.writer = .ended ok) :
    CallInv t { c with fence, marker } lock where
  writer_lock := hc.writer_lock
  barrier_lock := hc.barrier_lock
  marked := hmarked
  fenced hb := absurd (hc.fenced hb) hlive
  settled := hc.settled
  undrawn hp := absurd (hc.undrawn hp).2.1 hsent
  writing h hp := absurd (hc.writing h hp).1 hsent
  fencing := hc.fencing
  returned := hc.returned

/-- The barrier takes the lock or ends; it takes the lock when no writer has it. -/
theorem CallInv.setBarrier (hc : CallInv t c lock) {barrier : Remote} (hsent : c.barrier ≠ .unsent)
    (hlive : c.barrier ≠ .ended true) (hlock : barrier = .acted → lock' = some (.barrier t))
    (hwriter : c.writer.holds = true → lock' = some (.writer t))
    (hsettled : barrier = .acted ∨ barrier = .ended true → c.writer ≠ .passed ∧ c.writer ≠ .running) :
    CallInv t { c with barrier } lock' where
  writer_lock := hwriter
  barrier_lock := hlock
  marked := hc.marked
  fenced _ := hc.fenced hsent
  settled := hsettled
  undrawn hp := absurd (hc.undrawn hp).2.2 hsent
  writing h hp := absurd (hc.writing h hp).2 hsent
  fencing h hp := absurd (hc.fencing h hp) hsent
  returned hp := .inl ((hc.returned hp).resolve_right hlive)

/-- A barrier that has the lock excludes a writer that has it. -/
theorem CallInv.not_both (hc : CallInv t c lock) (hw : c.writer.holds = true) : c.barrier ≠ .acted := by
  intro hb
  have h := (hc.writer_lock hw).symm.trans (hc.barrier_lock hb)
  cases Option.some.inj h

theorem happen_inv {c' : Call H} {event : Event} (hc : CallInv t c lock)
    (h : happen t c lock event = some (c', lock')) : CallInv t c' lock' := by
  cases event with
  | deliver =>
    simp only [happen] at h
    split_ifs at h with hw
    obtain ⟨rfl, rfl⟩ := Prod.mk.inj (Option.some.inj h)
    exact hc.move (by rw [hw]; nofun) (by rw [hw]; nofun) nofun hc.barrier_lock (.inl rfl) nofun
  | enter =>
    simp only [happen] at h
    split_ifs at h with hw
    obtain ⟨rfl, rfl⟩ := Prod.mk.inj (Option.some.inj h)
    refine hc.move (by rw [hw.1]; nofun) (by rw [hw.1]; nofun) (fun _ => rfl) (fun hb => ?_) (.inl rfl) nofun
    cases hw.2.symm.trans (hc.barrier_lock hb)
  | test =>
    simp only [happen] at h
    split_ifs at h with hw
    obtain ⟨rfl, rfl⟩ := Prod.mk.inj (Option.some.inj h)
    refine hc.move (by rw [hw]; nofun) (by rw [hw]; nofun) (fun _ => hc.writer_lock (by rw [hw]; rfl)) hc.barrier_lock
      (.inl rfl) fun hp => .inr ⟨hw, ?_⟩
    -- a marker sends it to the removal
    cases hm : c.marker with
    | false => rfl
    | true =>
      rw [hm] at hp
      rcases hp with hp | hp <;> cases hp
  | remove =>
    simp only [happen] at h
    split_ifs at h with hw
    obtain ⟨rfl, rfl⟩ := Prod.mk.inj (Option.some.inj h)
    have hholds : c.writer.holds = true := by rw [hw]; rfl
    exact hc.move (by rw [hw]; nofun) (by rw [hw]; nofun) nofun (fun hb => absurd hb (hc.not_both hholds))
      (.inr ⟨_, rfl⟩) nofun
  | exec =>
    simp only [happen] at h
    split_ifs at h with hw
    obtain ⟨rfl, rfl⟩ := Prod.mk.inj (Option.some.inj h)
    exact hc.move (by rw [hw]; nofun) (by rw [hw]; nofun) (fun _ => hc.writer_lock (by rw [hw]; rfl)) hc.barrier_lock
      (.inl rfl) (fun _ => .inl hw)
  | finish ok =>
    simp only [happen] at h
    split_ifs at h with hw
    obtain ⟨rfl, rfl⟩ := Prod.mk.inj (Option.some.inj h)
    have hholds : c.writer.holds = true := by rw [hw]; rfl
    exact hc.move (by rw [hw]; nofun) (by rw [hw]; nofun) nofun (fun hb => absurd hb (hc.not_both hholds))
      (.inr ⟨_, rfl⟩) nofun
  | kill =>
    simp only [happen] at h
    split_ifs at h with hw hw'
    · obtain ⟨rfl, rfl⟩ := Prod.mk.inj (Option.some.inj h)
      refine hc.move (fun he => ?_) (fun ok he => ?_) nofun (fun hb => absurd hb (hc.not_both hw)) (.inr ⟨_, rfl⟩) nofun
      · rw [he] at hw
        cases hw
      · rw [he] at hw
        cases hw
    · obtain ⟨rfl, rfl⟩ := Prod.mk.inj (Option.some.inj h)
      refine hc.move (fun he => ?_) (fun ok he => ?_) nofun hc.barrier_lock (.inr ⟨_, rfl⟩) nofun
      · rw [he] at hw'
        simp at hw'
      · rw [he] at hw'
        simp at hw'
  | publish =>
    simp only [happen] at h
    split_ifs at h with hf
    obtain ⟨rfl, rfl⟩ := Prod.mk.inj (Option.some.inj h)
    exact hc.setFence (by rw [hf]; nofun) (by rw [hf]; nofun) (fun _ => .inl rfl)
  | fenceEnd ok =>
    simp only [happen] at h
    split_ifs at h with hf
    obtain ⟨rfl, rfl⟩ := Prod.mk.inj (Option.some.inj h)
    rcases hf with hf | ⟨hf, rfl⟩
    · exact hc.setFence (by rw [hf]; nofun) (by rw [hf]; nofun) (fun _ => hc.marked (.inl hf))
    · exact hc.setFence (by rw [hf]; nofun) (by rw [hf]; nofun) nofun
  | pass =>
    simp only [happen] at h
    split_ifs at h with hb
    obtain ⟨rfl, rfl⟩ := Prod.mk.inj (Option.some.inj h)
    have hfree : c.writer.holds ≠ true := by
      intro hw
      cases hb.2.symm.trans (hc.writer_lock hw)
    refine hc.setBarrier (by rw [hb.1]; nofun) (by rw [hb.1]; nofun) (fun _ => rfl) (fun hw => absurd hw hfree) fun _ => ?_
    constructor <;> intro hw <;> rw [hw] at hfree <;> exact hfree rfl
  | barrierEnd ok =>
    simp only [happen] at h
    split_ifs at h with hb hb'
    · obtain ⟨rfl, rfl⟩ := Prod.mk.inj (Option.some.inj h)
      exact hc.setBarrier (by rw [hb]; nofun) (by rw [hb]; nofun) nofun (fun hw => absurd hb (hc.not_both hw))
        fun _ => hc.settled (.inl hb)
    · obtain ⟨rfl, rfl⟩ := Prod.mk.inj (Option.some.inj h)
      rw [hb'.2]
      exact hc.setBarrier (by rw [hb'.1]; nofun) (by rw [hb'.1]; nofun) nofun hc.writer_lock nofun

theorem happen_lock {c' : Call H} {event : Event} (hc : CallInv t c lock)
    (h : happen t c lock event = some (c', lock')) : LockStep t lock lock' := by
  have hwriter : c.writer.holds = true → ∀ holder ∈ lock, holder.Of t := by
    intro hw holder hh
    exact .inl (Option.some.inj (hh.symm.trans (hc.writer_lock hw)))
  cases event with
  | enter =>
    simp only [happen] at h
    split_ifs at h with hw
    obtain ⟨-, rfl⟩ := Prod.mk.inj (Option.some.inj h)
    refine .inr ⟨fun holder hh => ?_, fun holder hh => .inl (Option.some.inj hh).symm⟩
    rw [hw.2] at hh
    cases hh
  | remove =>
    simp only [happen] at h
    split_ifs at h with hw
    obtain ⟨-, rfl⟩ := Prod.mk.inj (Option.some.inj h)
    exact .inr ⟨hwriter (by rw [hw]; rfl), nofun⟩
  | finish ok =>
    simp only [happen] at h
    split_ifs at h with hw
    obtain ⟨-, rfl⟩ := Prod.mk.inj (Option.some.inj h)
    exact .inr ⟨hwriter (by rw [hw]; rfl), nofun⟩
  | kill =>
    simp only [happen] at h
    split_ifs at h with hw
    · obtain ⟨-, rfl⟩ := Prod.mk.inj (Option.some.inj h)
      exact .inr ⟨hwriter hw, nofun⟩
    · obtain ⟨-, rfl⟩ := Prod.mk.inj (Option.some.inj h)
      exact .inl rfl
  | pass =>
    simp only [happen] at h
    split_ifs at h with hb
    obtain ⟨-, rfl⟩ := Prod.mk.inj (Option.some.inj h)
    refine .inr ⟨fun holder hh => ?_, fun holder hh => .inr (Option.some.inj hh).symm⟩
    rw [hb.2] at hh
    cases hh
  | barrierEnd ok =>
    simp only [happen] at h
    split_ifs at h with hb
    · obtain ⟨-, rfl⟩ := Prod.mk.inj (Option.some.inj h)
      exact .inr ⟨fun holder hh => .inr (Option.some.inj (hh.symm.trans (hc.barrier_lock hb))), nofun⟩
    · obtain ⟨-, rfl⟩ := Prod.mk.inj (Option.some.inj h)
      exact .inl rfl
  | _ =>
    simp only [happen] at h
    split_ifs at h
    obtain ⟨-, rfl⟩ := Prod.mk.inj (Option.some.inj h)
    exact .inl rfl

theorem CallInv.sendWriter (hc : CallInv t c lock) (h : H) (hp : c.phase = .undrawn) :
    CallInv t { c with phase := .writing h, writer := .delayed } lock where
  writer_lock := nofun
  barrier_lock := hc.barrier_lock
  marked hf := by
    rw [(hc.undrawn hp).2.1] at hf
    rcases hf with hf | hf <;> cases hf
  fenced := hc.fenced
  settled _ := ⟨nofun, nofun⟩
  undrawn := nofun
  writing _ _ := (hc.undrawn hp).2
  fencing := nofun
  returned := nofun

theorem CallInv.sendFence (hc : CallInv t c lock) {h : H} (hp : c.phase = .writing h) :
    CallInv t { c with phase := .fencing h, fence := .delayed } lock where
  writer_lock := hc.writer_lock
  barrier_lock := hc.barrier_lock
  marked := nofun
  fenced hb := absurd (hc.writing h hp).2 hb
  settled := hc.settled
  undrawn := nofun
  writing := nofun
  fencing _ _ := (hc.writing h hp).2
  returned := nofun

theorem CallInv.sendBarrier (hc : CallInv t c lock) (h : H) (hf : c.fence = .ended true) :
    CallInv t { c with phase := .settling h, barrier := .delayed } lock where
  writer_lock := hc.writer_lock
  barrier_lock := nofun
  marked := hc.marked
  fenced _ := hf
  settled := nofun
  undrawn := nofun
  writing := nofun
  fencing := nofun
  returned := nofun

/-- A call that failed and was settled does not run its command. -/
theorem CallInv.not_running (hc : CallInv t c lock) (hp : c.phase = .returned true false) : c.writer ≠ .running := by
  rcases hc.returned hp with hw | hb
  · rw [hw]
    nofun
  · exact (hc.settled (.inr hb)).2

/-- What another call does with the lock leaves the call as it was. -/
theorem CallInv.other {t' : T} (hc : CallInv t c lock) (hne : t ≠ t') (hl : LockStep t' lock lock') :
    CallInv t c lock' := by
  have keep : ∀ holder, holder = .writer t ∨ holder = .barrier t → lock = some holder → lock' = some holder := by
    intro holder hh hlock
    rcases hl with hl | ⟨hl, -⟩
    · exact hl.trans hlock
    · rcases hl holder hlock with rfl | rfl <;> rcases hh with hh | hh <;> cases hh <;> exact absurd rfl hne
  exact { hc with
    writer_lock := fun hw => keep _ (.inl rfl) (hc.writer_lock hw)
    barrier_lock := fun hb => keep _ (.inr rfl) (hc.barrier_lock hb) }

end

/-! ## The guest and the processes -/

inductive Script where
  | writer | fence | barrier
  deriving DecidableEq, Repr

structure State (H T : Type) where
  calls : T → Call H
  lock : Option (Holder T)
  /-- The call that the process is in. -/
  busy : H → Option T
  pending : H → Bool
  /-- What the process sent, the last first. -/
  sent : H → List (Script × T)

inductive Action (H T : Type) where
  /-- `remote_mutation_run` with a new token; `fits` is whether the command fits its array. -/
  | run (h : H) (t : T) (fits : Bool)
  /-- The SSH call of the writer returns. -/
  | answer (t : T) (ok : Bool)
  | fenceAnswer (t : T) (ok : Bool)
  | barrierAnswer (t : T) (ok : Bool)
  | guest (t : T) (event : Event)
  /-- Another program of the guest takes or releases the lock. -/
  | otherLock
  | otherUnlock
  deriving DecidableEq

variable [DecidableEq H] [DecidableEq T]

namespace State

variable (s : State H T)

def setCall (t : T) (c : Call H) : State H T := { s with calls := Function.update s.calls t c }

/-- The process sends a script and goes on in the call. -/
def send (h : H) (script : Script) (t : T) : State H T :=
  { s with busy := Function.update s.busy h (some t)
           sent := Function.update s.sent h ((script, t) :: s.sent h) }

/-- The call of the process returns. -/
def finish (h : H) (t : T) (failed : Bool) : State H T :=
  { s.setCall t { s.calls t with phase := .returned failed (s.pending h) } with busy := Function.update s.busy h none }

def setPending (h : H) : State H T := { s with pending := Function.update s.pending h true }

end State

def step (s : State H T) : Action H T → Option (State H T)
  | .run h t fits =>
    if s.busy h = none ∧ (s.calls t).phase = .undrawn then
      -- no writer after one that could not be settled, and none whose command is too long
      if s.pending h ∨ fits = false then some (s.finish h t true)
      else some ((s.setCall t { s.calls t with phase := .writing h, writer := .delayed }).send h .writer t)
    else none
  | .answer t ok =>
    match (s.calls t).phase with
    | .writing h =>
      if ok then (if (s.calls t).writer = .ended true then some (s.finish h t false) else none)
      else some ((s.setCall t { s.calls t with phase := .fencing h, fence := .delayed }).send h .fence t)
    | _ => none
  | .fenceAnswer t ok =>
    match (s.calls t).phase with
    | .fencing h =>
      if ok then
        if (s.calls t).fence = .ended true then
          some ((s.setCall t { s.calls t with phase := .settling h, barrier := .delayed }).send h .barrier t)
        else none
      else some ((s.setPending h).finish h t true)
    | _ => none
  | .barrierAnswer t ok =>
    match (s.calls t).phase with
    | .settling h =>
      if ok then (if (s.calls t).barrier = .ended true then some (s.finish h t true) else none)
      else some ((s.setPending h).finish h t true)
    | _ => none
  | .guest t event =>
    match happen t (s.calls t) s.lock event with
    | some (c, lock) => some { s.setCall t c with lock }
    | none => none
  | .otherLock => if s.lock = none then some { s with lock := some .other } else none
  | .otherUnlock => if s.lock = some .other then some { s with lock := none } else none

/-- Nothing was sent, and the guest has no marker. -/
structure Initial (s : State H T) : Prop where
  calls : ∀ t, s.calls t = {}
  lock : s.lock = none
  busy : ∀ h, s.busy h = none
  pending : ∀ h, s.pending h = false
  sent : ∀ h, s.sent h = []

abbrev Reachable (s : State H T) : Prop := Steps.Reachable step Initial s

/-! ## What holds of the processes -/

def Phase.process : Phase H → Option H
  | .writing h | .fencing h | .settling h => some h
  | _ => none

/-- A process is in one call at a time, and in none once `cleanup_pending` is set. -/
structure Inv (s : State H T) : Prop where
  call : ∀ t, CallInv t (s.calls t) s.lock
  busy : ∀ t h, (s.calls t).phase.process = some h → s.busy h = some t
  pending : ∀ h, s.pending h = true → s.busy h = none

omit [DecidableEq H] [DecidableEq T] in
theorem Inv.initial {s : State H T} (h : Initial s) : Inv s where
  call t := by
    rw [h.calls t]
    exact .fresh t _
  busy t p hp := by
    rw [h.calls t] at hp
    cases hp
  pending p hp := by
    rw [h.pending p] at hp
    cases hp

section

variable {s s' : State H T}

/-- A call returns; `pending` may have been set for its process. -/
theorem Inv.finish (hs : Inv s) {r : State H T} (hcalls : r.calls = s.calls) (hlock : r.lock = s.lock)
    (hbusy : r.busy = s.busy) {h : H} (hpending : ∀ p, p ≠ h → r.pending p = s.pending p) {t : T} {failed : Bool}
    (hin : s.busy h = none ∨ s.busy h = some t)
    (hret : failed = true → r.pending h = false → (s.calls t).writer = .unsent ∨ (s.calls t).barrier = .ended true) :
    Inv (r.finish h t failed) where
  call t' := by
    change CallInv t' (Function.update r.calls t _ t') r.lock
    rw [hlock]
    by_cases ht : t' = t
    · rw [ht, Function.update_self, hcalls]
      exact { hs.call t with
        undrawn := nofun
        writing := nofun
        fencing := nofun
        returned := fun hp => hret (Phase.returned.inj hp).1 (Phase.returned.inj hp).2 }
    · rw [Function.update_of_ne ht, hcalls]
      exact hs.call t'
  busy t' p hp := by
    change Phase.process (Function.update r.calls t _ t').phase = some p at hp
    change Function.update r.busy h none p = some t'
    by_cases ht : t' = t
    · rw [ht, Function.update_self] at hp
      cases hp
    · rw [Function.update_of_ne ht, hcalls] at hp
      have hb := hs.busy t' p hp
      have hph : p ≠ h := by
        rintro rfl
        rcases hin with hin | hin
        · rw [hin] at hb
          cases hb
        · exact ht (Option.some.inj (hb.symm.trans hin))
      rw [Function.update_of_ne hph, hbusy]
      exact hb
  pending p hp := by
    change Function.update r.busy h none p = none
    by_cases hph : p = h
    · rw [hph, Function.update_self]
    · rw [Function.update_of_ne hph, hbusy]
      exact hs.pending p (hpending p hph ▸ hp)

/-- A process that is in no other call sends a script of the call. -/
theorem Inv.send (hs : Inv s) {h : H} {t : T} {c : Call H} {script : Script} (hin : s.busy h = none ∨ s.busy h = some t)
    (hp : s.pending h = false) (hproc : c.phase.process = some h) (hc : CallInv t c s.lock) :
    Inv ((s.setCall t c).send h script t) where
  call t' := by
    change CallInv t' (Function.update s.calls t c t') s.lock
    by_cases ht : t' = t
    · rw [ht, Function.update_self]
      exact hc
    · rw [Function.update_of_ne ht]
      exact hs.call t'
  busy t' p hp' := by
    change Phase.process (Function.update s.calls t c t').phase = some p at hp'
    change Function.update s.busy h (some t) p = some t'
    by_cases ht : t' = t
    · rw [ht, Function.update_self, hproc] at hp'
      rw [← Option.some.inj hp', Function.update_self, ht]
    · rw [Function.update_of_ne ht] at hp'
      have hb := hs.busy t' p hp'
      have hph : p ≠ h := by
        rintro rfl
        rcases hin with hin | hin
        · rw [hin] at hb
          cases hb
        · exact ht (Option.some.inj (hb.symm.trans hin))
      rw [Function.update_of_ne hph]
      exact hb
  pending p hp' := by
    change Function.update s.busy h (some t) p = none
    have hph : p ≠ h := by
      rintro rfl
      exact absurd (hp.symm.trans hp') Bool.false_ne_true
    rw [Function.update_of_ne hph]
    exact hs.pending p hp'

omit [DecidableEq H] [DecidableEq T] in
/-- The process of a call that is under way is in that call, and has no pending cleanup. -/
theorem Inv.active (hs : Inv s) {t : T} {h : H} (hp : (s.calls t).phase.process = some h) :
    s.busy h = some t ∧ s.pending h = false := by
  refine ⟨hs.busy t h hp, ?_⟩
  by_contra hpend
  have := hs.pending h (Bool.eq_true_of_not_eq_false hpend)
  rw [hs.busy t h hp] at this
  cases this

/-- What the steps do. -/
inductive Effect (s : State H T) : State H T → Prop
  | refuse (h : H) (t : T) (hb : s.busy h = none) (hp : (s.calls t).phase = .undrawn) : Effect s (s.finish h t true)
  | succeed (h : H) (t : T) (hp : (s.calls t).phase = .writing h) : Effect s (s.finish h t false)
  | settle (h : H) (t : T) (hp : (s.calls t).phase = .settling h) (hb : (s.calls t).barrier = .ended true) :
    Effect s (s.finish h t true)
  | unsettled (h : H) (t : T) (hp : (s.calls t).phase.process = some h) : Effect s ((s.setPending h).finish h t true)
  | sendWriter (h : H) (t : T) (hb : s.busy h = none) (hpend : s.pending h = false)
    (hp : (s.calls t).phase = .undrawn) :
    Effect s ((s.setCall t { s.calls t with phase := .writing h, writer := .delayed }).send h .writer t)
  | sendFence (h : H) (t : T) (hp : (s.calls t).phase = .writing h) :
    Effect s ((s.setCall t { s.calls t with phase := .fencing h, fence := .delayed }).send h .fence t)
  | sendBarrier (h : H) (t : T) (hp : (s.calls t).phase = .fencing h) (hf : (s.calls t).fence = .ended true) :
    Effect s ((s.setCall t { s.calls t with phase := .settling h, barrier := .delayed }).send h .barrier t)
  | guest (t : T) (event : Event) (c : Call H) (lock : Option (Holder T))
    (hc : happen t (s.calls t) s.lock event = some (c, lock)) : Effect s { s.setCall t c with lock }
  | otherLock (hl : s.lock = none ∨ s.lock = some .other) (lock : Option (Holder T)) : Effect s { s with lock }

theorem step_effect {a : Action H T} (h : step s a = some s') : Effect s s' := by
  cases a with
  | run p t fits =>
    simp only [step] at h
    split_ifs at h with hrun hrefused
    · obtain rfl := Option.some.inj h
      exact .refuse p t hrun.1 hrun.2
    · obtain rfl := Option.some.inj h
      refine .sendWriter p t hrun.1 ?_ hrun.2
      rw [← Bool.not_eq_true]
      exact (not_or.mp hrefused).1
  | answer t ok =>
    simp only [step] at h
    split at h
    · rename_i p hphase
      split_ifs at h
      · obtain rfl := Option.some.inj h
        exact .succeed p t hphase
      · obtain rfl := Option.some.inj h
        exact .sendFence p t hphase
    · cases h
  | fenceAnswer t ok =>
    simp only [step] at h
    split at h
    · rename_i p hphase
      split_ifs at h with hok hf
      · obtain rfl := Option.some.inj h
        exact .sendBarrier p t hphase hf
      · obtain rfl := Option.some.inj h
        exact .unsettled p t (by rw [hphase]; rfl)
    · cases h
  | barrierAnswer t ok =>
    simp only [step] at h
    split at h
    · rename_i p hphase
      split_ifs at h with hok hb
      · obtain rfl := Option.some.inj h
        exact .settle p t hphase hb
      · obtain rfl := Option.some.inj h
        exact .unsettled p t (by rw [hphase]; rfl)
    · cases h
  | guest t event =>
    simp only [step] at h
    split at h
    · rename_i c lock hc
      obtain rfl := Option.some.inj h
      exact .guest t event c lock hc
    · cases h
  | otherLock =>
    simp only [step] at h
    split_ifs at h with hl
    obtain rfl := Option.some.inj h
    exact .otherLock (.inl hl) _
  | otherUnlock =>
    simp only [step] at h
    split_ifs at h with hl
    obtain rfl := Option.some.inj h
    exact .otherLock (.inr hl) _

theorem Inv.effect (hs : Inv s) (h : Effect s s') : Inv s' := by
  have active : ∀ {t p}, (s.calls t).phase.process = some p → s.busy p = some t ∧ s.pending p = false := hs.active
  cases h with
  | refuse p t hb hp => exact hs.finish rfl rfl rfl (fun _ _ => rfl) (.inl hb) fun _ _ => .inl ((hs.call t).undrawn hp).1
  | succeed p t hp => exact hs.finish rfl rfl rfl (fun _ _ => rfl) (.inr (active (by rw [hp]; rfl)).1) nofun
  | settle p t hp hb =>
    exact hs.finish rfl rfl rfl (fun _ _ => rfl) (.inr (active (by rw [hp]; rfl)).1) fun _ _ => .inr hb
  | unsettled p t hp =>
    have hother : ∀ q, q ≠ p → (s.setPending p).pending q = s.pending q := fun q hq => Function.update_of_ne hq _ _
    refine hs.finish (r := s.setPending p) rfl rfl rfl hother (.inr (active hp).1) fun _ hpend => ?_
    change Function.update s.pending p true p = false at hpend
    rw [Function.update_self] at hpend
    cases hpend
  | sendWriter p t hb hpend hp => exact hs.send (.inl hb) hpend rfl ((hs.call t).sendWriter p hp)
  | sendFence p t hp =>
    obtain ⟨hb, hpend⟩ := active (t := t) (p := p) (by rw [hp]; rfl)
    exact hs.send (.inr hb) hpend rfl ((hs.call t).sendFence hp)
  | sendBarrier p t hp hf =>
    obtain ⟨hb, hpend⟩ := active (t := t) (p := p) (by rw [hp]; rfl)
    exact hs.send (.inr hb) hpend rfl ((hs.call t).sendBarrier p hf)
  | guest t event c lock hc =>
    refine ⟨fun t' => ?_, fun t' p hp => hs.busy t' p ?_, hs.pending⟩
    · change CallInv t' (Function.update s.calls t c t') lock
      by_cases ht : t' = t
      · rw [ht, Function.update_self]
        exact happen_inv (hs.call t) hc
      · rw [Function.update_of_ne ht]
        exact (hs.call t').other ht (happen_lock (hs.call t) hc)
    · change Phase.process (Function.update s.calls t c t').phase = some p at hp
      by_cases ht : t' = t
      · rw [ht, Function.update_self, happen_phase hc] at hp
        rw [ht]
        exact hp
      · rw [Function.update_of_ne ht] at hp
        exact hp
  | otherLock hl lock =>
    refine ⟨fun t => { hs.call t with writer_lock := fun hw => ?_, barrier_lock := fun hb => ?_ }, hs.busy, hs.pending⟩
    · rw [(hs.call t).writer_lock hw] at hl
      rcases hl with hl | hl <;> cases hl
    · rw [(hs.call t).barrier_lock hb] at hl
      rcases hl with hl | hl <;> cases hl

theorem Inv.reachable (h : Reachable s) : Inv s :=
  h.induction (fun _ => Inv.initial) fun _ _ _ hs hstep => hs.effect (step_effect hstep)

/-! ## Failed calls -/

/-- A call that returned stays as it returned. -/
theorem Effect.returned (h : Effect s s') {t : T} {failed pending : Bool}
    (hp : (s.calls t).phase = .returned failed pending) : (s'.calls t).phase = .returned failed pending := by
  have other : ∀ t' (c : Call H), (s.calls t').phase ≠ .returned failed pending →
      (Function.update s.calls t' c t).phase = .returned failed pending := by
    intro t' c hne
    rw [Function.update_of_ne]
    · exact hp
    · rintro rfl
      exact hne hp
  cases h with
  | refuse p t' hb hp' => exact other t' _ (by rw [hp']; nofun)
  | succeed p t' hp' => exact other t' _ (by rw [hp']; nofun)
  | settle p t' hp' hb => exact other t' _ (by rw [hp']; nofun)
  | unsettled p t' hp' =>
    refine other t' _ fun he => ?_
    rw [he] at hp'
    cases hp'
  | sendWriter p t' hb hpend hp' => exact other t' _ (by rw [hp']; nofun)
  | sendFence p t' hp' => exact other t' _ (by rw [hp']; nofun)
  | sendBarrier p t' hp' hf => exact other t' _ (by rw [hp']; nofun)
  | guest t' event c lock hc =>
    change (Function.update s.calls t' c t).phase = _
    by_cases ht : t = t'
    · rw [ht, Function.update_self, happen_phase hc, ← ht]
      exact hp
    · rw [Function.update_of_ne ht]
      exact hp
  | otherLock hl lock => exact hp

/-- Once `cleanup_pending` is set the process sends nothing. -/
theorem Inv.silent (hs : Inv s) (h : Effect s s') {p : H} (hp : s.pending p = true) :
    s'.pending p = true ∧ s'.sent p = s.sent p := by
  have other : ∀ q, s.pending q = false → p ≠ q := by
    rintro q hq rfl
    exact absurd (hq.symm.trans hp) Bool.false_ne_true
  cases h with
  | unsettled q t hq =>
    refine ⟨?_, rfl⟩
    change Function.update s.pending q true p = true
    rw [Function.update_of_ne (other q (hs.active hq).2)]
    exact hp
  | sendWriter q t hb hpend hq => exact ⟨hp, Function.update_of_ne (other q hpend) _ _⟩
  | sendFence q t hq =>
    exact ⟨hp, Function.update_of_ne (other q (hs.active (t := t) (by rw [hq]; rfl)).2) _ _⟩
  | sendBarrier q t hq hf =>
    exact ⟨hp, Function.update_of_ne (other q (hs.active (t := t) (by rw [hq]; rfl)).2) _ _⟩
  | _ => exact ⟨hp, rfl⟩

/-- **A failed guest mutation is settled**: when a call returned a failure and `cleanup_pending` was 0, its command does
not run, then or after any further steps; and a process with `cleanup_pending` sends nothing more. -/
theorem failed_mutation_settled (hs : Reachable s) {as : List (Action H T)} (hr : Steps.run step s as = some s') :
    (∀ t, (s.calls t).phase = .returned true false → (s.calls t).writer ≠ .running ∧ (s'.calls t).writer ≠ .running) ∧
      ∀ p, s.pending p = true → s'.pending p = true ∧ s'.sent p = s.sent p := by
  have hinv := Inv.reachable hs
  refine ⟨fun t ht => ⟨(hinv.call t).not_running ht, ?_⟩, fun p hp => ?_⟩
  · have hlater : Inv s' ∧ (s'.calls t).phase = .returned true false := by
      refine Steps.run_inv (I := fun x => Inv x ∧ (x.calls t).phase = .returned true false) (fun s1 a s2 h1 hstep => ?_)
        ⟨hinv, ht⟩ hr
      exact ⟨h1.1.effect (step_effect hstep), (step_effect hstep).returned h1.2⟩
    exact (hlater.1.call t).not_running hlater.2
  · have hlater : Inv s' ∧ s'.pending p = true ∧ s'.sent p = s.sent p := by
      refine Steps.run_inv (I := fun x => Inv x ∧ x.pending p = true ∧ x.sent p = s.sent p) (fun s1 a s2 h1 hstep => ?_)
        ⟨hinv, hp, rfl⟩ hr
      obtain ⟨hpend, hsent⟩ := h1.1.silent (step_effect hstep) h1.2.1
      exact ⟨h1.1.effect (step_effect hstep), hpend, hsent.trans h1.2.2⟩
    exact hlater.2

end

/-- The answer of the writer is lost; the call is fenced and passes the lock. -/
def lostAnswer : List (Action ℕ ℕ) :=
  [.run 0 0 true, .answer 0 false, .guest 0 .publish, .guest 0 (.fenceEnd true), .fenceAnswer 0 true, .guest 0 .pass,
    .guest 0 (.barrierEnd true), .barrierAnswer 0 true]

/-- Then the writer arrives. -/
def lateWriter : List (Action ℕ ℕ) := [.guest 0 .deliver, .guest 0 .enter, .guest 0 .test]

theorem failed_mutation_settled_late : ∃ s s',
    Steps.run step ⟨fun _ => {}, none, fun _ => none, fun _ => false, fun _ => []⟩ lostAnswer = some s ∧
      Steps.run step s lateWriter = some s' ∧ (s.calls 0).phase = .returned true false ∧
        (s'.calls 0).writer = .removing ∧ (s'.calls 0).writer ≠ .running := by
  have hrun : ((Steps.run step ⟨fun _ => {}, none, fun _ => none, fun _ => false, fun _ => []⟩ lostAnswer).bind fun s =>
      (Steps.run step s lateWriter).map fun s' => ((s.calls 0).phase, (s'.calls 0).writer)) =
      some (.returned true false, .removing) := by decide
  obtain ⟨s, hs, hrun⟩ := Option.bind_eq_some_iff.mp hrun
  obtain ⟨s', hs', hrun⟩ := Option.map_eq_some_iff.mp hrun
  obtain ⟨hp, hw⟩ := Prod.mk.inj hrun
  have hreach : Reachable s := ⟨_, _, ⟨fun _ => rfl, rfl, fun _ => rfl, fun _ => rfl, fun _ => rfl⟩, hs⟩
  exact ⟨s, s', hs, hs', hp, hw, ((failed_mutation_settled hreach hs').1 0 hp).2⟩

end Hamn.Host.RemoteMutation
