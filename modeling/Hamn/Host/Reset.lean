import Hamn.Lib.Steps
import Hamn.Image.RawCache

/-!
# Host.Reset — the disk of a profile and its removal (`host/cmd/cmd_reset.c`, `host/image/disk.c`, `host/cmd/cmd_start.c`)

`vm reset` stops the VM, probes it, and removes the deployment marker, the EFI variables, the disk and the record of its
damage, in this order and each synced before the next.  A start grows the disk that is there, or builds one in a private
directory and renames it; then it spawns `vmrun`, which makes the EFI variables, and writes the marker.  Both hold the
lifecycle lock.  `vmrun` runs on when a start ends.

* `Dir`, `State`, `Action`, `step`: the directory of the profile, with what a crash can bring back; the VM; the call.
* `Ok`, `Inv`: the marker and the EFI variables are of the disk that is there.
* `Safe`: what holds in every reachable state.
-/

namespace Hamn.Host.Reset

open RawCache (Env)

/-! ## The directory -/

structure Disk where
  id : ℕ
  /-- What it held when it got its name. -/
  first : Qcow2.File
  size : ℕ

structure Dir where
  /-- `guest-deployment.version`, and the disk that it was written for. -/
  marker : Option ℕ
  /-- `efi-vars.bin`, and the disk that it was made for. -/
  efi : Option ℕ
  /-- `disk.img`. -/
  disk : Option Disk
  /-- `guest-filesystem.json`, and the disk that it names. -/
  damage : Option ℕ
  /-- The `.disk-stage` directories, the last one first, and what they hold. -/
  stages : List (Option Qcow2.File)

/-- The files that belong to a disk. -/
inductive File where
  | marker
  | efi
  | disk
  | damage
  deriving DecidableEq, Repr

/-- What `remove_disk` removes next. -/
def File.next : File → Option File
  | marker => some efi
  | efi => some disk
  | disk => some damage
  | damage => none

def Dir.remove (dir : Dir) : File → Dir
  | .marker => { dir with marker := none }
  | .efi => { dir with efi := none }
  | .disk => { dir with disk := none }
  | .damage => { dir with damage := none }

/-- `ftruncate` to a larger size. -/
def grow (f : Qcow2.File) (want : ℕ) : Qcow2.File :=
  if f.size < want then ⟨want, fun i => if i < f.size then f.byte i else 0⟩ else f

/-- `f` is `x` with something behind it. -/
def GrownFrom (x f : Qcow2.File) : Prop := x.size ≤ f.size ∧ ∀ i < x.size, f.byte i = x.byte i

theorem grownFrom_grow (x : Qcow2.File) (want : ℕ) : GrownFrom x (grow x want) := by
  unfold grow
  by_cases h : x.size < want
  · rw [if_pos h]
    exact ⟨Nat.le_of_lt h, fun i hi => if_pos hi⟩
  · rw [if_neg h]
    exact ⟨Nat.le_refl _, fun _ _ => rfl⟩

theorem le_grow (x : Qcow2.File) (want : ℕ) : want ≤ (grow x want).size := by
  unfold grow
  split_ifs with h
  · exact Nat.le_refl _
  · exact Nat.le_of_not_lt h

/-! ## The calls and the VM -/

/-- The process of the VM and its disk.  `off` is no process, or one whose exit handlers run. -/
inductive Vm where
  | off
  | starting (id : ℕ)
  | running (id : ℕ)
  deriving DecidableEq, Repr

def Vm.disk : Vm → Option ℕ
  | off => none
  | starting id | running id => some id

/-- Where `reset_locked` is. -/
inductive ResetPc where
  /-- In `vm_stop`. -/
  | stopping
  | probing
  | unlinking (f : File)
  | syncing (f : File)
  deriving DecidableEq, Repr

/-- Where a start is. -/
inductive StartPc where
  /-- In `disk_prepare`, before the disk is opened. -/
  | opening
  | grown
  /-- Before `mkdtemp`. -/
  | staging
  | cloning
  | sizing
  | moving
  | syncing
  /-- It removes its stage, and then goes on or fails. -/
  | cleaning (ok : Bool)
  /-- The storage is ready. -/
  | ready
  /-- `vmrun` has the disk: the guest is checked and its runtime deployed. -/
  | deploying (id : ℕ)
  deriving DecidableEq, Repr

/-- The call that holds the lifecycle lock. -/
inductive Work where
  | reset (pc : ResetPc)
  /-- A start with the signed image and the size that it asks for. -/
  | start (image : Env) (want : ℕ) (pc : StartPc)

structure State where
  dir : Dir
  /-- The directories that a crash can bring back. -/
  past : List Dir
  vm : Vm
  work : Option Work
  /-- The disks made so far. -/
  made : ℕ

inductive Action where
  | reset
  | start (image : Env) (want : ℕ)
  /-- The next step of the call succeeds. -/
  | go
  /-- It fails. -/
  | fail
  /-- `raw_cache_clone` fails and leaves something. -/
  | cloneLeft (content : Qcow2.File)
  /-- The guest check records a damage, or finds none. -/
  | damage (found : Bool)
  /-- `guest_deployment_mark_current` or `guest_deployment_forget`, before the sync. -/
  | mark (current : Bool)
  | sync
  /-- A start that found an incomplete VM has stopped it. -/
  | reopen
  /-- The call returns, or its process dies. -/
  | stop
  | makeEfi
  | up
  | down
  /-- The machine stops, and the directory is as it was `n` changes before. -/
  | crash (n : ℕ)

namespace State

variable (s : State)

/-- A change of the directory, which a crash can undo. -/
def change (dir : Dir) : State := { s with dir, past := s.dir :: s.past }

def synced : State := { s with past := [] }

def resetAt (pc : ResetPc) : State := { s with work := some (.reset pc) }

def startAt (image : Env) (want : ℕ) (pc : StartPc) : State := { s with work := some (.start image want pc) }

def quit : State := { s with work := none }

end State

/-- The next step of a reset, where it can succeed. -/
def resetGo (s : State) : ResetPc → Option State
  | .stopping => if s.vm = .off then some (s.resetAt .probing) else none
  | .probing => if s.vm = .off then some (s.resetAt (.unlinking .marker)) else none
  | .unlinking f => some ((s.change (s.dir.remove f)).resetAt (.syncing f))
  | .syncing f =>
    match f.next with
    | some f' => some (s.synced.resetAt (.unlinking f'))
    | none => some s.synced.quit

/-- The next step of a start, where it can succeed. -/
def startGo (s : State) (image : Env) (want : ℕ) : StartPc → Option State
  | .opening =>
    match s.dir.disk with
    | some d =>
      if d.size < want then
        some ((s.change { s.dir with disk := some { d with size := want } }).startAt image want .grown)
      else some (s.startAt image want .ready)
    | none => some (s.startAt image want .staging)
  | .grown => some (s.startAt image want .ready)
  | .staging => some ((s.change { s.dir with stages := none :: s.dir.stages }).startAt image want .cloning)
  | .cloning =>
    if image.accepts then
      match image.extract with
      | .ok x => some ((s.change { s.dir with stages := some x :: s.dir.stages.tail }).startAt image want .sizing)
      | .error _ => none
    else none
  | .sizing =>
    match s.dir.stages with
    | some f :: rest =>
      some ((s.change { s.dir with stages := some (grow f want) :: rest }).startAt image want .moving)
    | _ => none
  | .moving =>
    match s.dir.disk, s.dir.stages with
    | none, some f :: rest =>
      some ({ s.change { s.dir with disk := some ⟨s.made, f, f.size⟩, stages := none :: rest } with
        made := s.made + 1 }.startAt image want .syncing)
    | _, _ => none
  | .syncing => some (s.synced.startAt image want (.cleaning true))
  | .cleaning ok =>
    let s := s.change { s.dir with stages := s.dir.stages.tail }
    if ok then some (s.startAt image want .ready) else some s.quit
  | .ready =>
    match s.dir.disk, s.vm with
    | some d, .off => some ({ s with vm := .starting d.id }.startAt image want (.deploying d.id))
    | _, _ => none
  | .deploying _ => none

/-- Where a start goes when its step fails. -/
def startFail (s : State) (image : Env) (want : ℕ) : StartPc → State
  | .cloning | .sizing | .moving | .syncing => s.startAt image want (.cleaning false)
  | .cleaning ok => if ok then s.startAt image want .ready else s.quit
  | _ => s.quit

def step (s : State) : Action → Option State
  | .reset =>
    match s.work with
    | none => some (s.resetAt .stopping)
    | some _ => none
  | .start image want =>
    match s.work, s.vm.disk with
    | none, none => some (s.startAt image want .opening)
    | none, some id => some (s.startAt image want (.deploying id))
    | some _, _ => none
  | .go =>
    match s.work with
    | some (.reset pc) => resetGo s pc
    | some (.start image want pc) => startGo s image want pc
    | none => none
  | .fail =>
    match s.work with
    | some (.reset _) => some s.quit
    | some (.start image want pc) => some (startFail s image want pc)
    | none => none
  | .cloneLeft content =>
    match s.work with
    | some (.start image want .cloning) =>
      some ((s.change { s.dir with stages := some content :: s.dir.stages.tail }).startAt image want (.cleaning false))
    | _ => none
  | .damage found =>
    match s.work with
    | some (.start _ _ (.deploying id)) => some (s.change { s.dir with damage := if found then some id else none })
    | _ => none
  | .mark current =>
    match s.work with
    | some (.start _ _ (.deploying id)) => some (s.change { s.dir with marker := if current then some id else none })
    | _ => none
  | .sync =>
    match s.work with
    | some (.start _ _ (.deploying _)) => some s.synced
    | _ => none
  | .reopen =>
    match s.work, s.vm with
    | some (.start image want (.deploying _)), .off => some (s.startAt image want .opening)
    | _, _ => none
  | .stop => some s.quit
  | .makeEfi =>
    match s.vm, s.dir.efi with
    | .starting id, none => some (s.change { s.dir with efi := some id })
    | _, _ => none
  | .up =>
    match s.vm, s.dir.efi with
    | .starting id, some _ => some { s with vm := .running id }
    | _, _ => none
  | .down => some { s with vm := .off }
  | .crash n => (s.dir :: s.past)[n]?.map fun dir => { s with dir, past := [], vm := .off, work := none }

/-! ## The invariant -/

/-- A disk that was there before, which was neither replaced nor truncated, or the grown extraction of an image. -/
def Origin (s0 : State) (d : Disk) : Prop :=
  (∃ d0, s0.dir.disk = some d0 ∧ d.id = d0.id ∧ d.first = d0.first ∧ d0.size ≤ d.size) ∨
    (s0.made ≤ d.id ∧ ∃ (image : Env) (x : Qcow2.File), image.accepts = true ∧ image.extract = .ok x ∧
      GrownFrom x d.first ∧ d.first.size ≤ d.size)

/-- The disk is complete, and the marker and the EFI variables are of no other. -/
structure Ok (s0 : State) (made : ℕ) (dir : Dir) : Prop where
  disk : ∀ d, dir.disk = some d → d.id < made ∧ Origin s0 d
  marker : ∀ id, dir.marker = some id → ∃ d, dir.disk = some d ∧ d.id = id
  efi : ∀ id, dir.efi = some id → ∃ d, dir.disk = some d ∧ d.id = id

/-- Nothing is under way, and the directory is durable and of one disk. -/
structure Initial (s : State) : Prop where
  past : s.past = []
  vm : s.vm = .off
  work : s.work = none
  disk : ∀ d, s.dir.disk = some d → d.id < s.made
  marker : ∀ id, s.dir.marker = some id → ∃ d, s.dir.disk = some d ∧ d.id = id
  efi : ∀ id, s.dir.efi = some id → ∃ d, s.dir.disk = some d ∧ d.id = id

/-- What a reset has removed before it comes to a file. -/
def Cleared (dir : Dir) : File → Prop
  | .marker => True
  | .efi => dir.marker = none
  | .disk => dir.marker = none ∧ dir.efi = none
  | .damage => dir.marker = none ∧ dir.efi = none ∧ dir.disk = none

/-- What a call knows at each of its steps. -/
def At (s : State) : Work → Prop
  | .reset (.unlinking f) => s.vm = .off ∧ Cleared s.dir f
  | .reset (.syncing f) => s.vm = .off ∧ ∀ f', f.next = some f' → Cleared s.dir f'
  | .start image _ .sizing => ∃ x rest, s.dir.stages = some x :: rest ∧ image.accepts = true ∧ image.extract = .ok x
  | .start image _ .moving => ∃ f rest x, s.dir.stages = some f :: rest ∧ image.accepts = true ∧
      image.extract = .ok x ∧ GrownFrom x f
  | .start _ _ (.deploying id) => ∃ d, s.dir.disk = some d ∧ d.id = id
  | _ => True

structure Inv (s0 s : State) : Prop where
  ok : ∀ dir ∈ s.dir :: s.past, Ok s0 s.made dir
  vm : ∀ id, s.vm.disk = some id → ∃ d, s.dir.disk = some d ∧ d.id = id
  work : ∀ w, s.work = some w → At s w
  made : s0.made ≤ s.made

section

variable {s0 s s' : State}

theorem Inv.initial (h : Initial s) : Inv s s where
  ok dir hdir := by
    rw [h.past] at hdir
    rw [List.mem_singleton.mp hdir]
    exact ⟨fun d hd => ⟨h.disk d hd, .inl ⟨d, hd, rfl, rfl, Nat.le_refl _⟩⟩, h.marker, h.efi⟩
  vm id hid := by
    rw [h.vm] at hid
    cases hid
  work w hw := by
    rw [h.work] at hw
    cases hw
  made := Nat.le_refl _

theorem Inv.now (hs : Inv s0 s) : Ok s0 s.made s.dir := hs.ok s.dir List.mem_cons_self

/-- The call goes on, and nothing else changes. -/
theorem Inv.setWork (hs : Inv s0 s) {work : Option Work} (hwork : ∀ w, work = some w → At s w) :
    Inv s0 { s with work } where
  ok := hs.ok
  vm := hs.vm
  work w hw := by
    have h := hwork w hw
    revert h
    cases w with
    | reset pc => cases pc <;> exact id
    | start image want pc => cases pc <;> exact id
  made := hs.made

theorem Inv.synced (hs : Inv s0 s) : Inv s0 s.synced where
  ok dir hdir := by
    rw [List.mem_singleton.mp hdir]
    exact hs.now
  vm := hs.vm
  work w hw := by
    have h := hs.work w hw
    revert h
    cases w with
    | reset pc => cases pc <;> exact id
    | start image want pc => cases pc <;> exact id
  made := hs.made

/-- The directory changes, and the call goes on. -/
theorem Inv.change (hs : Inv s0 s) {dir : Dir} (work : Option Work) (hok : Ok s0 s.made dir)
    (hvm : ∀ id, s.vm.disk = some id → ∃ d, dir.disk = some d ∧ d.id = id)
    (hwork : ∀ w, work = some w → At { s.change dir with work } w) : Inv s0 { s.change dir with work } where
  ok dir' hdir' := by
    rcases List.mem_cons.mp hdir' with rfl | hdir'
    · exact hok
    · exact hs.ok dir' hdir'
  vm := hvm
  work := hwork
  made := hs.made

theorem Ok.mono {made made' : ℕ} {dir : Dir} (h : Ok s0 made dir) (hm : made ≤ made') : Ok s0 made' dir :=
  { h with disk := fun d hd => ⟨Nat.lt_of_lt_of_le (h.disk d hd).1 hm, (h.disk d hd).2⟩ }

/-- The disk and its companions are untouched. -/
theorem Ok.same {made : ℕ} {dir dir' : Dir} (h : Ok s0 made dir) (hdisk : dir'.disk = dir.disk)
    (hmarker : dir'.marker = dir.marker) (hefi : dir'.efi = dir.efi) : Ok s0 made dir' where
  disk d hd := h.disk d (hdisk ▸ hd)
  marker id hid := by
    rw [hdisk]
    exact h.marker id (hmarker ▸ hid)
  efi id hid := by
    rw [hdisk]
    exact h.efi id (hefi ▸ hid)

theorem Ok.remove {made : ℕ} {dir : Dir} (h : Ok s0 made dir) {f : File} (hc : Cleared dir f) :
    Ok s0 made (dir.remove f) := by
  cases f with
  | marker => exact { h with marker := nofun }
  | efi => exact { h with efi := nofun }
  | disk =>
    -- its companions went before it
    obtain ⟨hmarker, hefi⟩ := hc
    refine ⟨nofun, fun id hid => ?_, fun id hid => ?_⟩
    · change dir.marker = some id at hid
      rw [hmarker] at hid
      cases hid
    · change dir.efi = some id at hid
      rw [hefi] at hid
      cases hid
  | damage => exact h.same rfl rfl rfl

theorem cleared_next {dir : Dir} {f f' : File} (hf : f.next = some f') (hc : Cleared dir f) :
    Cleared (dir.remove f) f' := by
  cases f with
  | marker =>
    obtain rfl := Option.some.inj hf
    rfl
  | efi =>
    obtain rfl := Option.some.inj hf
    exact ⟨hc, rfl⟩
  | disk =>
    obtain rfl := Option.some.inj hf
    exact ⟨hc.1, hc.2, rfl⟩
  | damage => cases hf

theorem Inv.resetGo (hs : Inv s0 s) {pc : ResetPc} (hw : s.work = some (.reset pc)) (h : resetGo s pc = some s') :
    Inv s0 s' := by
  have hat := hs.work _ hw
  cases pc with
  | stopping =>
    simp only [Reset.resetGo] at h
    split_ifs at h
    obtain rfl := Option.some.inj h
    refine hs.setWork fun w hw => ?_
    obtain rfl := Option.some.inj hw
    trivial
  | probing =>
    simp only [Reset.resetGo] at h
    split_ifs at h with hvm
    obtain rfl := Option.some.inj h
    refine hs.setWork fun w hw => ?_
    obtain rfl := Option.some.inj hw
    exact ⟨hvm, trivial⟩
  | unlinking f =>
    obtain ⟨hvm, hc⟩ := hat
    obtain rfl := Option.some.inj h
    refine hs.change _ (hs.now.remove hc) (fun id hid => ?_) fun w hw => ?_
    · rw [hvm] at hid
      cases hid
    · obtain rfl := Option.some.inj hw
      exact ⟨hvm, fun f' hf => cleared_next hf hc⟩
  | syncing f =>
    obtain ⟨hvm, hc⟩ := hat
    simp only [Reset.resetGo] at h
    split at h
    · rename_i f' hf
      obtain rfl := Option.some.inj h
      refine hs.synced.setWork fun w hw => ?_
      obtain rfl := Option.some.inj hw
      exact ⟨hvm, hc f' hf⟩
    · obtain rfl := Option.some.inj h
      exact hs.synced.setWork nofun

/-- A start changes what is in its stages. -/
theorem Inv.stages (hs : Inv s0 s) {stages : List (Option Qcow2.File)} {image : Env} {want : ℕ} {pc : StartPc}
    (hat : At ((s.change { s.dir with stages }).startAt image want pc) (.start image want pc)) :
    Inv s0 ((s.change { s.dir with stages }).startAt image want pc) := by
  refine hs.change _ (hs.now.same rfl rfl rfl) hs.vm fun w hw => ?_
  obtain rfl := Option.some.inj hw
  exact hat

theorem Inv.startAt (hs : Inv s0 s) {image : Env} {want : ℕ} {pc : StartPc} (hat : At s (.start image want pc)) :
    Inv s0 (s.startAt image want pc) := by
  refine hs.setWork fun w hw => ?_
  obtain rfl := Option.some.inj hw
  exact hat

theorem Inv.quit (hs : Inv s0 s) : Inv s0 s.quit := hs.setWork nofun

/-- The disk that is there grows. -/
theorem Ok.grow {made want : ℕ} {dir : Dir} {d : Disk} (h : Ok s0 made dir) (hd : dir.disk = some d) (hlt : d.size < want) :
    Ok s0 made { dir with disk := some { d with size := want } } where
  disk d' hd' := by
    obtain rfl := Option.some.inj hd'
    obtain ⟨hid, ho⟩ := h.disk d hd
    refine ⟨hid, ?_⟩
    rcases ho with ⟨d0, hd0, h1, h2, h3⟩ | ⟨h1, image, x, h2, h3, h4, h5⟩
    · exact .inl ⟨d0, hd0, h1, h2, Nat.le_of_lt (Nat.lt_of_le_of_lt h3 hlt)⟩
    · exact .inr ⟨h1, image, x, h2, h3, h4, Nat.le_of_lt (Nat.lt_of_le_of_lt h5 hlt)⟩
  marker id hid := by
    obtain ⟨d', hd', hid'⟩ := h.marker id hid
    rw [hd] at hd'
    obtain rfl := Option.some.inj hd'
    exact ⟨_, rfl, hid'⟩
  efi id hid := by
    obtain ⟨d', hd', hid'⟩ := h.efi id hid
    rw [hd] at hd'
    obtain rfl := Option.some.inj hd'
    exact ⟨_, rfl, hid'⟩

/-- No marker and no EFI variables wait for a new disk. -/
theorem Ok.fresh {made : ℕ} {dir : Dir} (h : Ok s0 made dir) (hd : dir.disk = none) :
    dir.marker = none ∧ dir.efi = none := by
  constructor
  · cases hm : dir.marker with
    | none => rfl
    | some id =>
      obtain ⟨d, hd', -⟩ := h.marker id hm
      rw [hd] at hd'
      cases hd'
  · cases he : dir.efi with
    | none => rfl
    | some id =>
      obtain ⟨d, hd', -⟩ := h.efi id he
      rw [hd] at hd'
      cases hd'

theorem Inv.startGo (hs : Inv s0 s) {image : Env} {want : ℕ} {pc : StartPc} (hw : s.work = some (.start image want pc))
    (h : startGo s image want pc = some s') : Inv s0 s' := by
  have hat := hs.work _ hw
  cases pc with
  | opening =>
    simp only [Reset.startGo] at h
    split at h
    · rename_i d hd
      split_ifs at h with hlt
      · obtain rfl := Option.some.inj h
        refine hs.change _ (hs.now.grow hd hlt) (fun id hid => ?_) fun w hw => ?_
        · obtain ⟨d', hd', hid'⟩ := hs.vm id hid
          rw [hd] at hd'
          obtain rfl := Option.some.inj hd'
          exact ⟨_, rfl, hid'⟩
        · obtain rfl := Option.some.inj hw
          trivial
      · obtain rfl := Option.some.inj h
        exact hs.startAt trivial
    · obtain rfl := Option.some.inj h
      exact hs.startAt trivial
  | grown =>
    obtain rfl := Option.some.inj h
    exact hs.startAt trivial
  | staging =>
    obtain rfl := Option.some.inj h
    exact hs.stages trivial
  | cloning =>
    simp only [Reset.startGo] at h
    split_ifs at h with haccepts
    split at h
    · rename_i x hx
      obtain rfl := Option.some.inj h
      exact hs.stages ⟨x, s.dir.stages.tail, rfl, haccepts, hx⟩
    · cases h
  | sizing =>
    obtain ⟨x, rest, hstages, haccepts, hx⟩ := hat
    simp only [Reset.startGo, hstages] at h
    obtain rfl := Option.some.inj h
    exact hs.stages ⟨_, rest, x, rfl, haccepts, hx, grownFrom_grow x want⟩
  | moving =>
    obtain ⟨f, rest, x, hstages, haccepts, hx, hgrown⟩ := hat
    simp only [Reset.startGo, hstages] at h
    split at h
    · rename_i f' rest' hd heq
      obtain ⟨hhead, rfl⟩ := List.cons.inj heq
      obtain rfl := Option.some.inj hhead
      obtain rfl := Option.some.inj h
      obtain ⟨hmarker, hefi⟩ := hs.now.fresh hd
      refine ⟨fun dir hdir => ?_, fun id hid => ?_, fun w hw => ?_, Nat.le_succ_of_le hs.made⟩
      · rcases List.mem_cons.mp hdir with rfl | hdir
        · refine ⟨fun d hd' => ?_, fun id hid => ?_, fun id hid => ?_⟩
          · obtain rfl := Option.some.inj hd'
            exact ⟨Nat.lt_succ_self _, .inr ⟨hs.made, image, x, haccepts, hx, hgrown, Nat.le_refl _⟩⟩
          · change s.dir.marker = some id at hid
            rw [hmarker] at hid
            cases hid
          · change s.dir.efi = some id at hid
            rw [hefi] at hid
            cases hid
        · exact (hs.ok dir hdir).mono (Nat.le_succ _)
      · obtain ⟨d, hd', -⟩ := hs.vm id hid
        rw [hd] at hd'
        cases hd'
      · obtain rfl := Option.some.inj hw
        trivial
    · cases h
  | syncing =>
    obtain rfl := Option.some.inj h
    exact hs.synced.startAt trivial
  | cleaning ok =>
    cases ok with
    | true =>
      obtain rfl := Option.some.inj h
      exact hs.stages trivial
    | false =>
      obtain rfl := Option.some.inj h
      exact hs.change _ (hs.now.same rfl rfl rfl) hs.vm nofun
  | ready =>
    simp only [Reset.startGo] at h
    split at h
    · rename_i d hd hvm
      obtain rfl := Option.some.inj h
      refine ⟨hs.ok, fun id hid => ?_, fun w hw => ?_, hs.made⟩
      · obtain rfl := Option.some.inj hid
        exact ⟨d, hd, rfl⟩
      · obtain rfl := Option.some.inj hw
        exact ⟨d, hd, rfl⟩
    · cases h
  | deploying id => cases h

theorem Inv.startFail (hs : Inv s0 s) (image : Env) (want : ℕ) (pc : StartPc) : Inv s0 (startFail s image want pc) := by
  unfold Reset.startFail
  split
  · exact hs.startAt trivial
  · exact hs.startAt trivial
  · exact hs.startAt trivial
  · exact hs.startAt trivial
  · split_ifs
    · exact hs.startAt trivial
    · exact hs.quit
  · exact hs.quit

/-- The guest is deployed: the files that name a disk name the one that is there. -/
theorem Inv.deployed (hs : Inv s0 s) {image : Env} {want id : ℕ} (hw : s.work = some (.start image want (.deploying id)))
    {marker : Option ℕ} (damage : Option ℕ) (hmarker : marker = s.dir.marker ∨ marker = none ∨ marker = some id) :
    Inv s0 (s.change { s.dir with marker, damage }) := by
  have hdisk : ∃ d, s.dir.disk = some d ∧ d.id = id := hs.work _ hw
  refine hs.change s.work ⟨hs.now.disk, fun id' hid => ?_, hs.now.efi⟩ hs.vm fun w hw' => ?_
  · change marker = some id' at hid
    rcases hmarker with h | h | h
    · exact hs.now.marker id' (h ▸ hid)
    · rw [h] at hid
      cases hid
    · rw [h] at hid
      obtain rfl := Option.some.inj hid
      exact hdisk
  · rw [hw] at hw'
    obtain rfl := Option.some.inj hw'
    exact hdisk

/-- The VM changes, and its disk stays. -/
theorem Inv.setVm (hs : Inv s0 s) {vm : Vm} (hvm : vm = .off ∨ vm.disk = s.vm.disk ∧ s.vm ≠ .off) :
    Inv s0 { s with vm } where
  ok := hs.ok
  vm id hid := by
    rcases hvm with rfl | ⟨h, -⟩
    · cases hid
    · exact hs.vm id (h ▸ hid)
  work w hw := by
    have h := hs.work w hw
    cases w with
    | reset pc =>
      cases pc with
      | unlinking f =>
        refine ⟨?_, h.2⟩
        rcases hvm with h' | ⟨-, h'⟩
        · exact h'
        · exact absurd h.1 h'
      | syncing f =>
        refine ⟨?_, h.2⟩
        rcases hvm with h' | ⟨-, h'⟩
        · exact h'
        · exact absurd h.1 h'
      | _ => trivial
    | start image want pc => cases pc <;> exact h
  made := hs.made

/-- `vmrun` makes the EFI variables of its disk. -/
theorem Inv.makeEfi (hs : Inv s0 s) {id : ℕ} (hvm : s.vm = .starting id) :
    Inv s0 (s.change { s.dir with efi := some id }) := by
  have hdisk := hs.vm id (by rw [hvm]; rfl)
  refine hs.change s.work ⟨hs.now.disk, hs.now.marker, fun id' hid => ?_⟩ hs.vm fun w hw => ?_
  · obtain rfl := Option.some.inj hid
    exact hdisk
  · have h := hs.work w hw
    cases w with
    | reset pc =>
      -- a reset removes nothing while the VM runs
      cases pc with
      | unlinking f =>
        rw [h.1] at hvm
        cases hvm
      | syncing f =>
        rw [h.1] at hvm
        cases hvm
      | _ => trivial
    | start image want pc => cases pc <;> exact h

theorem Inv.step (hs : Inv s0 s) {a : Action} (h : step s a = some s') : Inv s0 s' := by
  cases a with
  | reset =>
    simp only [Reset.step] at h
    split at h
    · obtain rfl := Option.some.inj h
      refine hs.setWork fun w hw => ?_
      obtain rfl := Option.some.inj hw
      trivial
    · cases h
  | start image want =>
    simp only [Reset.step] at h
    split at h
    · obtain rfl := Option.some.inj h
      exact hs.startAt trivial
    · rename_i id _ hid
      obtain rfl := Option.some.inj h
      exact hs.startAt (hs.vm id hid)
    · cases h
  | go =>
    simp only [Reset.step] at h
    split at h
    · rename_i pc hw
      exact hs.resetGo hw h
    · rename_i image want pc hw
      exact hs.startGo hw h
    · cases h
  | fail =>
    simp only [Reset.step] at h
    split at h
    · obtain rfl := Option.some.inj h
      exact hs.quit
    · obtain rfl := Option.some.inj h
      exact hs.startFail _ _ _
    · cases h
  | cloneLeft content =>
    simp only [Reset.step] at h
    split at h
    · obtain rfl := Option.some.inj h
      exact hs.stages trivial
    · cases h
  | damage found =>
    simp only [Reset.step] at h
    split at h
    · rename_i image want id hw
      obtain rfl := Option.some.inj h
      exact hs.deployed hw _ (.inl rfl)
    · cases h
  | mark current =>
    simp only [Reset.step] at h
    split at h
    · rename_i image want id hw
      obtain rfl := Option.some.inj h
      refine hs.deployed hw s.dir.damage (.inr ?_)
      cases current with
      | true => exact .inr rfl
      | false => exact .inl rfl
    · cases h
  | sync =>
    simp only [Reset.step] at h
    split at h
    · obtain rfl := Option.some.inj h
      exact hs.synced
    · cases h
  | reopen =>
    simp only [Reset.step] at h
    split at h
    · obtain rfl := Option.some.inj h
      exact hs.startAt trivial
    · cases h
  | stop =>
    obtain rfl := Option.some.inj h
    exact hs.quit
  | makeEfi =>
    simp only [Reset.step] at h
    split at h
    · rename_i id hvm _
      obtain rfl := Option.some.inj h
      exact hs.makeEfi hvm
    · cases h
  | up =>
    simp only [Reset.step] at h
    split at h
    · rename_i id _ hvm _
      obtain rfl := Option.some.inj h
      refine hs.setVm (.inr ⟨?_, ?_⟩)
      · rw [hvm]
        rfl
      · rw [hvm]
        nofun
    · cases h
  | down =>
    obtain rfl := Option.some.inj h
    exact hs.setVm (.inl rfl)
  | crash n =>
    obtain ⟨dir, hdir, rfl⟩ := Option.map_eq_some_iff.mp h
    have hok := hs.ok dir (List.mem_of_getElem? hdir)
    refine ⟨fun dir' hdir' => ?_, nofun, nofun, hs.made⟩
    rw [List.mem_singleton.mp hdir']
    exact hok

/-! ## What removes a disk -/

theorem disk_remove {dir : Dir} {f : File} (hf : f ≠ .disk) : (dir.remove f).disk = dir.disk := by
  cases f with
  | disk => exact absurd rfl hf
  | _ => rfl

theorem resetGo_disk {pc : ResetPc} (hpc : pc ≠ .unlinking .disk) (h : resetGo s pc = some s') :
    s'.dir.disk = s.dir.disk := by
  cases pc with
  | unlinking f =>
    obtain rfl := Option.some.inj h
    exact disk_remove fun hf => hpc (by rw [hf])
  | syncing f =>
    simp only [Reset.resetGo] at h
    split at h
    · obtain rfl := Option.some.inj h
      rfl
    · obtain rfl := Option.some.inj h
      rfl
  | _ =>
    simp only [Reset.resetGo] at h
    split_ifs at h
    obtain rfl := Option.some.inj h
    rfl

theorem startGo_disk {image : Env} {want : ℕ} {pc : StartPc} (h : startGo s image want pc = some s')
    (hnone : s'.dir.disk = none) : s.dir.disk = none := by
  cases pc with
  | opening =>
    simp only [Reset.startGo] at h
    split at h
    · split_ifs at h
      · obtain rfl := Option.some.inj h
        cases hnone
      · obtain rfl := Option.some.inj h
        exact hnone
    · rename_i hd
      exact hd
  | moving =>
    simp only [Reset.startGo] at h
    split at h
    · obtain rfl := Option.some.inj h
      cases hnone
    · cases h
  | cleaning ok =>
    cases ok with
    | true =>
      obtain rfl := Option.some.inj h
      exact hnone
    | false =>
      obtain rfl := Option.some.inj h
      exact hnone
  | cloning =>
    simp only [Reset.startGo] at h
    split_ifs at h
    split at h
    · obtain rfl := Option.some.inj h
      exact hnone
    · cases h
  | sizing =>
    simp only [Reset.startGo] at h
    split at h
    · obtain rfl := Option.some.inj h
      exact hnone
    · cases h
  | ready =>
    simp only [Reset.startGo] at h
    split at h
    · obtain rfl := Option.some.inj h
      exact hnone
    · cases h
  | deploying id => cases h
  | _ =>
    obtain rfl := Option.some.inj h
    exact hnone

theorem startFail_disk (image : Env) (want : ℕ) (pc : StartPc) : (startFail s image want pc).dir.disk = s.dir.disk := by
  unfold Reset.startFail
  split
  all_goals first
    | rfl
    | (split_ifs <;> rfl)

/-- Only a reset that found the VM stopped removes the disk. -/
theorem Inv.removes (hs : Inv s0 s) {a : Action} (ha : ∀ n, a ≠ .crash n) (h : Reset.step s a = some s') {d : Disk}
    (hd : s.dir.disk = some d) (hnone : s'.dir.disk = none) :
    s.work = some (.reset (.unlinking .disk)) ∧ s.vm = .off := by
  cases a with
  | go =>
    simp only [Reset.step] at h
    split at h
    · rename_i pc hw
      by_cases hpc : pc = .unlinking .disk
      · rw [hpc] at hw
        exact ⟨hw, (hs.work _ hw).1⟩
      · rw [resetGo_disk hpc h, hd] at hnone
        cases hnone
    · rw [startGo_disk h hnone] at hd
      cases hd
    · cases h
  | fail =>
    simp only [Reset.step] at h
    split at h
    · obtain rfl := Option.some.inj h
      change s.dir.disk = none at hnone
      rw [hd] at hnone
      cases hnone
    · obtain rfl := Option.some.inj h
      rw [startFail_disk, hd] at hnone
      cases hnone
    · cases h
  | crash n => exact absurd rfl (ha n)
  | stop | down =>
    obtain rfl := Option.some.inj h
    change s.dir.disk = none at hnone
    rw [hd] at hnone
    cases hnone
  | _ =>
    simp only [Reset.step] at h
    split at h
    all_goals first
      | (obtain rfl := Option.some.inj h
         change s.dir.disk = none at hnone
         rw [hd] at hnone
         cases hnone)
      | cases h

/-! ## Calls that nothing interrupts -/

/-- A reset finishes wherever the last one stopped. -/
theorem reset_completes (hwork : s.work = none) :
    ∃ s', Steps.run step s (.reset :: .down :: List.replicate 10 .go) = some s' ∧
      s'.dir = ⟨none, none, none, none, s.dir.stages⟩ ∧ s'.past = [] ∧ s'.work = none := by
  obtain ⟨dir, past, vm, work, made⟩ := s
  obtain rfl : work = none := hwork
  exact ⟨_, rfl, rfl, rfl, rfl⟩

/-- A start proceeds with the disk that is there. -/
theorem start_proceeds {image : Env} {want : ℕ} {d0 : Disk} (hwork : s.work = none) (hvm : s.vm = .off)
    (hd : s.dir.disk = some d0) : ∃ n s', Steps.run step s (.start image want :: List.replicate n .go) = some s' ∧
      s'.work = some (.start image want .ready) ∧
      ∃ d, s'.dir.disk = some d ∧ d.id = d0.id ∧ d.first = d0.first ∧ d0.size ≤ d.size ∧ want ≤ d.size := by
  obtain ⟨⟨marker, efi, disk, damage, stages⟩, past, vm, work, made⟩ := s
  obtain rfl : work = none := hwork
  obtain rfl : vm = .off := hvm
  obtain rfl : disk = some d0 := hd
  by_cases hlt : d0.size < want
  · let s1 : State := ⟨⟨marker, efi, some { d0 with size := want }, damage, stages⟩,
      ⟨marker, efi, some d0, damage, stages⟩ :: past, .off, some (.start image want .ready), made⟩
    refine ⟨2, s1, ?_, rfl, _, rfl, rfl, rfl, Nat.le_of_lt hlt, Nat.le_refl _⟩
    simp only [List.replicate, Steps.run, step, Vm.disk, State.startAt, startGo, if_pos hlt, State.change, s1]
  · let s1 : State := ⟨⟨marker, efi, some d0, damage, stages⟩, past, .off, some (.start image want .ready), made⟩
    refine ⟨1, s1, ?_, rfl, _, rfl, rfl, rfl, Nat.le_refl _, Nat.le_of_not_lt hlt⟩
    simp only [List.replicate, Steps.run, step, Vm.disk, State.startAt, startGo, if_neg hlt, s1]

/-- A start makes a complete new disk where there is none. -/
theorem start_creates {image : Env} {want : ℕ} {x : Qcow2.File} (hwork : s.work = none) (hvm : s.vm = .off)
    (hd : s.dir.disk = none) (haccepts : image.accepts = true) (hx : image.extract = .ok x) :
    ∃ n s', Steps.run step s (.start image want :: List.replicate n .go) = some s' ∧
      s'.work = some (.start image want .ready) ∧ s'.past.length = 1 ∧
      s'.dir.disk = some ⟨s.made, grow x want, (grow x want).size⟩ := by
  obtain ⟨⟨marker, efi, disk, damage, stages⟩, past, vm, work, made⟩ := s
  obtain rfl : work = none := hwork
  obtain rfl : vm = .off := hvm
  obtain rfl : disk = none := hd
  let d : Disk := ⟨made, grow x want, (grow x want).size⟩
  let s1 : State := ⟨⟨marker, efi, some d, damage, stages⟩, [⟨marker, efi, some d, damage, none :: stages⟩], .off,
    some (.start image want .ready), made + 1⟩
  refine ⟨7, s1, ?_, rfl, rfl, rfl⟩
  simp only [List.replicate, Steps.run, step, Vm.disk, State.startAt, startGo, State.change, if_pos haccepts, hx,
    State.synced, List.tail_cons, if_true, s1, d]

end

/-! ## Crash safety -/

/-- What resets and starts keep. -/
structure Safe (s0 s : State) : Prop where
  /-- The disk, now and after a crash, is a grown extraction, or it was there before and is no smaller. -/
  disk : ∀ dir ∈ s.dir :: s.past, ∀ d, dir.disk = some d → Origin s0 d
  /-- The marker and the EFI variables, now and after a crash, are of the disk that is there. -/
  companions : ∀ dir ∈ s.dir :: s.past, ∀ id, dir.marker = some id ∨ dir.efi = some id →
    ∃ d, dir.disk = some d ∧ d.id = id
  /-- A disk is removed by a reset that found the VM stopped, and by nothing else. -/
  removes : ∀ a s', (∀ n, a ≠ .crash n) → step s a = some s' → ∀ d, s.dir.disk = some d → s'.dir.disk = none →
    s.work = some (.reset (.unlinking .disk)) ∧ s.vm = .off
  /-- A reset that nothing interrupts completes. -/
  resets : s.work = none → ∃ s', Steps.run step s (.reset :: .down :: List.replicate 10 .go) = some s' ∧
    s'.dir = ⟨none, none, none, none, s.dir.stages⟩ ∧ s'.past = [] ∧ s'.work = none
  /-- A start that nothing interrupts proceeds with the disk that is there. -/
  proceeds : ∀ image want d0, s.work = none → s.vm = .off → s.dir.disk = some d0 →
    ∃ n s', Steps.run step s (.start image want :: List.replicate n .go) = some s' ∧
      s'.work = some (.start image want .ready) ∧
      ∃ d, s'.dir.disk = some d ∧ d.id = d0.id ∧ d.first = d0.first ∧ d0.size ≤ d.size ∧ want ≤ d.size
  /-- Where there is none it makes one from the image. -/
  creates : ∀ (image : Env) want x, s.work = none → s.vm = .off → s.dir.disk = none → image.accepts = true →
    image.extract = .ok x → ∃ n s', Steps.run step s (.start image want :: List.replicate n .go) = some s' ∧
      s'.work = some (.start image want .ready) ∧ s'.past.length = 1 ∧
      s'.dir.disk = some ⟨s.made, grow x want, (grow x want).size⟩

/-- **Resets and starts are crash safe**: whatever sequence of them, each stopped or failing anywhere, and whatever
crashes, the disk is complete or as it was, no disk is with the marker or the EFI variables of another, only a reset that
found the VM stopped removes one, and the next reset completes and the next start has a disk. -/
theorem reset_crash_safe {s0 s : State} (h0 : Initial s0) {as : List Action} (hr : Steps.run step s0 as = some s) :
    Safe s0 s := by
  have hs : Inv s0 s := Steps.run_inv (I := fun s => Inv s0 s) (fun _ _ _ hs h => hs.step h) (Inv.initial h0) hr
  exact {
    disk := fun dir hdir d hd => ((hs.ok dir hdir).disk d hd).2
    companions := fun dir hdir id hid => by
      rcases hid with hid | hid
      · exact (hs.ok dir hdir).marker id hid
      · exact (hs.ok dir hdir).efi id hid
    removes := fun a s' ha h d hd hnone => hs.removes ha h hd hnone
    resets := reset_completes
    proceeds := fun image want d0 hwork hvm hd => start_proceeds hwork hvm hd
    creates := fun image want x hwork hvm hd haccepts hx => start_creates hwork hvm hd haccepts hx }

/-! ## One profile -/

/-- A new profile. -/
def empty : State := ⟨⟨none, none, none, none, []⟩, [], .off, none, 0⟩

theorem empty_initial : Initial empty := ⟨rfl, rfl, rfl, nofun, nofun, nofun⟩

/-- A start makes a disk, a reset stops before it removes it, a start goes on with it, and after a second reset another
start makes a new one. -/
def resetTwice : List Action :=
  (.start RawCache.tiny 4 :: List.replicate 8 .go : List Action) ++
    ([.makeEfi, .up, .mark true, .sync, .damage true, .stop, .reset, .down] : List Action) ++
    (List.replicate 6 .go : List Action) ++
    ([.stop, .start RawCache.tiny 4, .go, .go, .makeEfi, .up, .mark true, .stop, .reset, .down] : List Action) ++
    (List.replicate 10 .go : List Action) ++ (.start RawCache.tiny 8 :: List.replicate 8 .go : List Action) ++
    ([.makeEfi, .up] : List Action)

theorem reset_crash_safe_twice : ∃ s, Steps.run step empty resetTwice = some s ∧
    s.dir.disk.map (fun d => (d.id, d.size)) = some (1, 8) ∧ s.dir.marker = none ∧ s.dir.efi = some 1 ∧ Safe empty s := by
  have hrun : (Steps.run step empty resetTwice).map
      (fun s => (s.dir.disk.map (fun d => (d.id, d.size)), s.dir.marker, s.dir.efi)) = some (some (1, 8), none, some 1) := by
    decide +kernel
  obtain ⟨s, hs, hleft⟩ := Option.map_eq_some_iff.mp hrun
  obtain ⟨hdisk, hrest⟩ := Prod.mk.inj hleft
  obtain ⟨hmarker, hefi⟩ := Prod.mk.inj hrest
  exact ⟨s, hs, hdisk, hmarker, hefi, reset_crash_safe empty_initial hs⟩

end Hamn.Host.Reset
