import Hamn.Lib.Bytes
import Hamn.Lib.Steps

/-!
# Host.Workspace — the VM of a workspace (`host/cmd/cmd_workspace.c`, `host/core/workspace.c`)

`vm up` creates the profile of a directory, records the directory in it and starts its VM; `vm down` stops or purges it.
`workspace_sweep` and `workspace-reclaim` purge the profile of a directory that is gone.  Each decides under the lifecycle
lock of the profile, whose name is a hash of the path.  The directories come and go on their own.

* `Workspace`, `recordFormat`, `recordParse`: a directory and its record in the profile.
* `Call`, `State`, `Action`, `step`: any number of calls, and the directories, in any order of their steps.
* `Justified`: what has to be so when a profile is purged.
* `Knows`, `MayOwn`, `Inv`: what a call has read under its lock, and which calls can have a configuration.
-/

namespace Hamn.Host.WorkspaceVm

open Bytes

/-! ## Workspaces and their records -/

def PATH_MAX : ℕ := 1024
def WORKSPACE_RECORD_CAP : ℕ := PATH_MAX + 64

/-- A directory: its path, and its device and inode as `unsigned long long`. -/
structure Workspace where
  path : Bytes
  device : ℕ
  inode : ℕ
  deriving DecidableEq, Repr

/-- `workspace_record_format`. -/
def recordFormat (workspace : Workspace) : Option Bytes :=
  let text := decimal workspace.device ++ byte ' ' :: decimal workspace.inode ++ byte ' ' :: workspace.path ++ [newline]
  if text.length < WORKSPACE_RECORD_CAP then some text else none

/-- `read_decimal`. -/
def readDecimal (text : Bytes) : Option (ℕ × Bytes) :=
  let digits := text.takeWhile isDecimal
  let value := digits.foldl (fun n c => 10 * n + (c.toNat - 48)) 0
  if digits = [] ∨ 2 ^ 64 ≤ value then none
  else
    match text.dropWhile isDecimal with
    | 32 :: rest => some (value, rest)
    | _ => none

/-- The numbers that a `dev_t`, a signed 32-bit integer, gives back. -/
def isDevice (n : ℕ) : Bool := n < 2 ^ 31 || (2 ^ 64 - 2 ^ 31 ≤ n && n < 2 ^ 64)

/-- `workspace_record_parse`. -/
def recordParse (text : Bytes) : Option Workspace := do
  let (device, rest) ← readDecimal text
  let (inode, line) ← readDecimal rest
  if line.length < 2 ∨ PATH_MAX < line.length ∨ line.head? ≠ some (byte '/') ∨ newline ∈ line.dropLast ∨
      line.getLast? ≠ some newline ∨ isDevice device = false then none
  else some ⟨line.dropLast, device, inode⟩

/-- What `lstat` says about a path. -/
inductive Look where
  /-- `ENOENT` or `ENOTDIR`. -/
  | absent
  | there (device inode : ℕ)
  /-- Another failure. -/
  | unknown
  deriving DecidableEq, Repr

/-- What makes `reclaim_locked` go on: without `watched` the path is absent, and otherwise the recorded directory is not
back. -/
def gone (watched : Option Workspace) (recorded : Workspace) (look : Look) : Bool :=
  match watched, look with
  | none, .absent => true
  | none, _ => false
  | some _, .absent => true
  | some _, .there device inode => !(device == recorded.device && inode == recorded.inode)
  | some _, .unknown => false

/-! ## The calls -/

variable {C N : Type}

/-- Where a `vm up` is. -/
inductive Up where
  /-- For the lifecycle lock. -/
  | waiting
  | locked
  | creating
  /-- It has created the profile. -/
  | created
  | starting (created : Bool)
  | discarding
  deriving DecidableEq, Repr

inductive Down where
  | waiting
  | locked
  | stopping
  | purging
  deriving DecidableEq, Repr

/-- Where `reclaim_locked` is. -/
inductive Reclaim where
  | waiting
  | locked
  | looking (recorded : Workspace)
  | probing (recorded : Workspace)
  | purging (recorded : Workspace)
  deriving DecidableEq, Repr

inductive Call (N : Type) where
  | idle
  | up (workspace : Workspace) (pc : Up)
  | down (workspace : Workspace) (purge : Bool) (pc : Down)
  /-- One profile of a sweep, or the record that `workspace-reclaim` was given. -/
  | reclaim (watched : Option Workspace) (name : N) (pc : Reclaim)
  /-- `undeleted` is the message that what it created could not be deleted. -/
  | returned (ok undeleted : Bool)
  | dead
  deriving DecidableEq, Repr

/-- A configuration, with the call that created it and the one that wrote it last. -/
structure Config (C : Type) where
  creator : Option C
  writer : Option C
  deriving DecidableEq, Repr

/-- What a call saw. -/
inductive Seen (N : Type) where
  | record (name : N) (recorded : Workspace)
  | directory (path : Bytes) (look : Look)
  /-- The answer `VM_PROCESS_STALE`. -/
  | stale (name : N)
  deriving DecidableEq, Repr

structure State (C N : Type) where
  /-- The directories that workspaces are, or were. -/
  dirs : Bytes → Look
  config : N → Option (Config C)
  /-- The record in the directory of a profile. -/
  record : N → Option Bytes
  lock : N → Option C
  calls : C → Call N
  /-- What a call has seen since it has its lock. -/
  seen : C → List (Seen N)

/-- How `control_create_locked` ends. -/
inductive Created where
  | ok
  | failed
  /-- It returns 5, and the configuration may be there. -/
  | unconfirmed (written : Bool)
  deriving DecidableEq, Repr

/-- How `control_purge_locked` ends. -/
inductive Purged where
  | removed
  /-- The profile has left its name, and its tree is still there. -/
  | hidden
  /-- The process dies when the profile has left its name. -/
  | killed
  | failed
  /-- There was none. -/
  | absent
  deriving DecidableEq, Repr

inductive Action (C N : Type) where
  | up (c : C) (workspace : Workspace)
  | down (c : C) (workspace : Workspace) (purge : Bool)
  | sweep (c : C) (name : N)
  | reclaim (c : C) (text : Bytes)
  | acquire (c : C)
  /-- It returns before it has read the record. -/
  | refuse (c : C) (ok : Bool)
  /-- It reads the record and the configuration; `odd` is a configuration that it cannot read or that shares a git
  directory, or for `vm down` a profile directory with neither file. -/
  | read (c : C) (odd : Bool)
  | create (c : C) (outcome : Created)
  | writeRecord (c : C) (ok written : Bool)
  /-- `profile_save` in `control_start_locked`. -/
  | save (c : C)
  /-- `control_start_locked` returns. -/
  | start (c : C) (ok : Bool)
  | stop (c : C) (ok : Bool)
  | look (c : C)
  | probe (c : C) (stale : Bool)
  | purge (c : C) (outcome : Purged)
  | die (c : C)
  /-- Somebody moves, removes, makes or mounts a directory. -/
  | move (path : Bytes) (look : Look)
  deriving DecidableEq, Repr

section

variable (profileName : Bytes → N)

namespace Call

/-- The profile that the call is about. -/
def name : Call N → Option N
  | up workspace _ | down workspace _ _ => some (profileName workspace.path)
  | reclaim _ name _ => some name
  | _ => none

/-- The profile whose lock it holds. -/
def holds : Call N → Option N
  | up _ .waiting | down _ _ .waiting | reclaim _ _ .waiting => none
  | call => call.name profileName

end Call

variable [DecidableEq C] [DecidableEq N]

namespace State

variable (s : State C N)

def setCall (c : C) (call : Call N) : State C N := { s with calls := Function.update s.calls c call }

def setConfig (name : N) (config : Option (Config C)) : State C N :=
  { s with config := Function.update s.config name config }

/-- The call writes the configuration: it creates it where there is none. -/
def writeConfig (c : C) (name : N) : State C N :=
  s.setConfig name (some ⟨(s.config name).elim (some c) Config.creator, some c⟩)

def setRecord (name : N) (record : Option Bytes) : State C N := { s with record := Function.update s.record name record }

def see (c : C) (seen : Seen N) : State C N := { s with seen := Function.update s.seen c (seen :: s.seen c) }

/-- The call ends, and gives the lock back. -/
def leave (c : C) (name : N) (call : Call N) : State C N :=
  { s.setCall c call with lock := Function.update s.lock name none }

/-- `workspace_record_read`. -/
def recordOf (name : N) : Option Workspace := (s.record name).bind recordParse

end State

/-- The locked part of `vm up`, from its reading on. -/
def upRead (s : State C N) (c : C) (workspace : Workspace) (odd : Bool) : State C N :=
  let name := profileName workspace.path
  match s.record name with
  | some text =>
    if recordParse text = some workspace ∧ (s.config name).isSome ∧ odd = false then
      s.setCall c (.up workspace (.starting false))
    else s.leave c name (.returned false false)
  | none =>
    if (s.config name).isSome ∧ odd = false then s.leave c name (.returned false false)
    else s.setCall c (.up workspace .creating)

def downRead (s : State C N) (c : C) (workspace : Workspace) (purge odd : Bool) : State C N :=
  let name := profileName workspace.path
  if s.recordOf name = some workspace then s.setCall c (.down workspace purge (if purge then .purging else .stopping))
  else s.leave c name (.returned (s.record name = none ∧ s.config name = none ∧ odd = false ∧ purge) false)

def reclaimRead (s : State C N) (c : C) (watched : Option Workspace) (name : N) : State C N :=
  match s.recordOf name with
  | some recorded =>
    if profileName recorded.path = name ∧ watched.all (· = recorded) then
      (s.see c (.record name recorded)).setCall c (.reclaim watched name (.looking recorded))
    else s.leave c name (.returned true false)
  | none => s.leave c name (.returned true false)

/-- `control_purge_locked` and the return after it. -/
def purgeStep (s : State C N) (c : C) (name : N) (isUp : Bool) : Purged → Option (State C N)
  | .removed => some (((s.setConfig name none).setRecord name none).leave c name (.returned (!isUp) false))
  | .hidden => some (((s.setConfig name none).setRecord name none).leave c name (.returned false isUp))
  | .killed => some (((s.setConfig name none).setRecord name none).leave c name .dead)
  | .failed => some (s.leave c name (.returned false isUp))
  | .absent =>
    if s.config name = none ∧ s.record name = none then some (s.leave c name (.returned (!isUp) false)) else none

namespace Call

/-- What a call becomes when it gets its lock. -/
def locked : Call N → Option (Call N)
  | up workspace .waiting => some (up workspace .locked)
  | down workspace purge .waiting => some (down workspace purge .locked)
  | reclaim watched name .waiting => some (reclaim watched name .locked)
  | _ => none

end Call

def step (s : State C N) : Action C N → Option (State C N)
  | .up c workspace => if s.calls c = .idle then some (s.setCall c (.up workspace .waiting)) else none
  | .down c workspace purge => if s.calls c = .idle then some (s.setCall c (.down workspace purge .waiting)) else none
  | .sweep c name =>
    -- the first look, without the lock
    match s.recordOf name with
    | some recorded =>
      if s.calls c = .idle ∧ profileName recorded.path = name ∧ s.dirs recorded.path = .absent then
        some (s.setCall c (.reclaim none name .waiting))
      else none
    | none => none
  | .reclaim c text =>
    match recordParse text with
    | some watched =>
      if s.calls c = .idle then some (s.setCall c (.reclaim (some watched) (profileName watched.path) .waiting)) else none
    | none => none
  | .acquire c =>
    match (s.calls c).locked, (s.calls c).name profileName with
    | some call, some name =>
      if s.lock name = none then
        some { s.setCall c call with
          lock := Function.update s.lock name (some c), seen := Function.update s.seen c [] }
      else none
    | _, _ => none
  | .refuse c ok =>
    match s.calls c with
    | .up _ .waiting => some (s.setCall c (.returned false false))
    | .down _ _ .waiting | .reclaim _ _ .waiting => some (s.setCall c (.returned ok false))
    | .up workspace .locked | .down workspace _ .locked => some (s.leave c (profileName workspace.path) (.returned false false))
    | .reclaim _ name .locked => some (s.leave c name (.returned true false))
    | _ => none
  | .read c odd =>
    match s.calls c with
    | .up workspace .locked => some (upRead profileName s c workspace odd)
    | .down workspace purge .locked => some (downRead profileName s c workspace purge odd)
    | .reclaim watched name .locked => some (reclaimRead profileName s c watched name)
    | _ => none
  | .create c outcome =>
    match s.calls c with
    | .up workspace .creating =>
      let name := profileName workspace.path
      match outcome with
      | .ok => if s.config name = none then some ((s.writeConfig c name).setCall c (.up workspace .created)) else none
      | .failed => some (s.leave c name (.returned false false))
      | .unconfirmed written =>
        if s.config name = none then
          some ((if written then s.writeConfig c name else s).setCall c (.up workspace .discarding))
        else none
    | _ => none
  | .writeRecord c ok written =>
    match s.calls c with
    | .up workspace .created =>
      let name := profileName workspace.path
      match recordFormat workspace with
      | some text =>
        if ok then some ((s.setRecord name (some text)).setCall c (.up workspace (.starting true)))
        else some ((if written then s.setRecord name (some text) else s).setCall c (.up workspace .discarding))
      | none => if ok then none else some (s.setCall c (.up workspace .discarding))
    | _ => none
  | .save c =>
    match s.calls c with
    | .up workspace (.starting _) => some (s.writeConfig c (profileName workspace.path))
    | _ => none
  | .start c ok =>
    match s.calls c with
    | .up workspace (.starting created) =>
      if ok then some (s.leave c (profileName workspace.path) (.returned true false))
      else if created then some (s.setCall c (.up workspace .discarding))
      else some (s.leave c (profileName workspace.path) (.returned false false))
    | _ => none
  | .stop c ok =>
    match s.calls c with
    | .down workspace _ .stopping => some (s.leave c (profileName workspace.path) (.returned ok false))
    | _ => none
  | .look c =>
    match s.calls c with
    | .reclaim watched name (.looking recorded) =>
      let look := s.dirs recorded.path
      if gone watched recorded look then
        some ((s.see c (.directory recorded.path look)).setCall c (.reclaim watched name (.probing recorded)))
      else some (s.leave c name (.returned true false))
    | _ => none
  | .probe c stale =>
    match s.calls c with
    | .reclaim watched name (.probing recorded) =>
      if stale then some ((s.see c (.stale name)).setCall c (.reclaim watched name (.purging recorded)))
      else some (s.leave c name (.returned true false))
    | _ => none
  | .purge c outcome =>
    match s.calls c with
    | .up workspace .discarding => purgeStep s c (profileName workspace.path) true outcome
    | .down workspace _ .purging => purgeStep s c (profileName workspace.path) false outcome
    | .reclaim _ name (.purging _) => purgeStep s c name false outcome
    | _ => none
  | .die c =>
    match s.calls c with
    | .idle | .returned _ _ | .dead => none
    | call =>
      match call.holds profileName with
      | some name => some (s.leave c name .dead)
      | none => some (s.setCall c .dead)
  | .move path look => some { s with dirs := Function.update s.dirs path look }

/-! ## Why a purge is allowed -/

/-- The call read, under its lock, a record that names the profile, which is the watched one where there is one; and it is
still there. -/
def ReadRecord (s : State C N) (c : C) (watched : Option Workspace) (name : N) (recorded : Workspace) : Prop :=
  profileName recorded.path = name ∧ (∀ w, watched = some w → recorded = w) ∧ .record name recorded ∈ s.seen c ∧
    s.recordOf name = some recorded

/-- The call looked at the recorded path, under its lock, and the directory was gone. -/
def SawGone (s : State C N) (c : C) (watched : Option Workspace) (recorded : Workspace) : Prop :=
  ∃ look, .directory recorded.path look ∈ s.seen c ∧ gone watched recorded look = true

/-- The three reasons for the purge of a profile by a call. -/
inductive Justified (s : State C N) (c : C) (name : N) : Prop
  /-- `vm down --purge`, and the record is that of its directory. -/
  | asked (workspace : Workspace) (hcall : s.calls c = .down workspace true .purging)
      (hrecord : s.recordOf name = some workspace)
  /-- A `vm up` that failed, and that created the configuration. -/
  | created (workspace : Workspace) (hcall : s.calls c = .up workspace .discarding)
      (hname : profileName workspace.path = name) (hconfig : ∀ cfg, s.config name = some cfg → cfg.creator = some c)
  /-- A reclaim. -/
  | gone (watched : Option Workspace) (recorded : Workspace) (hcall : s.calls c = .reclaim watched name (.purging recorded))
      (hread : ReadRecord profileName s c watched name recorded) (hgone : SawGone s c watched recorded)
      (hstale : .stale name ∈ s.seen c)

/-- No call is under way, and whatever profiles there are were made before. -/
structure Initial (s : State C N) : Prop where
  calls : ∀ c, s.calls c = .idle
  creator : ∀ name cfg, s.config name = some cfg → cfg.creator = none

/-- What a call knows of the profile whose lock it holds. -/
def Knows (s : State C N) (c : C) : Call N → Prop
  | .up workspace .created | .up workspace (.starting true) | .up workspace .discarding =>
    ∀ cfg, s.config (profileName workspace.path) = some cfg → cfg.creator = some c
  | .up workspace (.starting false) => (s.config (profileName workspace.path)).isSome
  | .down workspace purge .purging => purge = true ∧ s.recordOf (profileName workspace.path) = some workspace
  | .reclaim watched name (.looking recorded) => ReadRecord profileName s c watched name recorded
  | .reclaim watched name (.probing recorded) =>
    ReadRecord profileName s c watched name recorded ∧ SawGone s c watched recorded
  | .reclaim watched name (.purging recorded) =>
    ReadRecord profileName s c watched name recorded ∧ SawGone s c watched recorded ∧ .stale name ∈ s.seen c
  | _ => True

/-- The call can have created the configuration that the profile has. -/
def MayOwn (name : N) : Call N → Prop
  | .up workspace .created | .up workspace (.starting true) | .up workspace .discarding =>
    profileName workspace.path = name
  | .returned ok undeleted => ok = true ∨ undeleted = true
  | .dead => True
  | _ => False

structure Inv (s : State C N) : Prop where
  lock : ∀ c name, (s.calls c).holds profileName = some name → s.lock name = some c
  knows : ∀ c, Knows profileName s c (s.calls c)
  own : ∀ name cfg c, s.config name = some cfg → cfg.creator = some c → MayOwn profileName name (s.calls c)

/-! ### What a step of one call changes -/

omit [DecidableEq N] in
@[simp] theorem setCall_self (s : State C N) (c : C) (call : Call N) : (s.setCall c call).calls c = call := by
  simp [State.setCall]

omit [DecidableEq N] in
theorem setCall_ne (s : State C N) {c d : C} (call : Call N) (h : d ≠ c) : (s.setCall c call).calls d = s.calls d := by
  simp [State.setCall, h]

@[simp] theorem leave_self (s : State C N) (c : C) (name : N) (call : Call N) : (s.leave c name call).calls c = call :=
  setCall_self s c call

/-- The states differ only in what belongs to the call and in what its lock protects. -/
structure Within (c : C) (name : N) (s s' : State C N) : Prop where
  calls : ∀ d, d ≠ c → s'.calls d = s.calls d
  seen : ∀ d, d ≠ c → s'.seen d = s.seen d
  config : ∀ m, m ≠ name → s'.config m = s.config m
  record : ∀ m, m ≠ name → s'.record m = s.record m
  lock : ∀ m, m ≠ name → s'.lock m = s.lock m

section

variable {c : C} {name : N} {s s' : State C N} {call : Call N}

omit [DecidableEq C] [DecidableEq N] in
theorem Within.refl : Within c name s s := ⟨fun _ _ => rfl, fun _ _ => rfl, fun _ _ => rfl, fun _ _ => rfl, fun _ _ => rfl⟩

omit [DecidableEq N] in
theorem Within.setCall (h : Within c name s s') : Within c name s (s'.setCall c call) :=
  { h with calls := fun d hd => (setCall_ne s' call hd).trans (h.calls d hd) }

omit [DecidableEq N] in
theorem Within.see (h : Within c name s s') {seen : Seen N} : Within c name s (s'.see c seen) :=
  { h with seen := fun d hd => (Function.update_of_ne hd _ _).trans (h.seen d hd) }

omit [DecidableEq C] in
theorem Within.setConfig (h : Within c name s s') {config : Option (Config C)} : Within c name s (s'.setConfig name config) :=
  { h with config := fun m hm => (Function.update_of_ne hm _ _).trans (h.config m hm) }

omit [DecidableEq C] in
theorem Within.setRecord (h : Within c name s s') {record : Option Bytes} : Within c name s (s'.setRecord name record) :=
  { h with record := fun m hm => (Function.update_of_ne hm _ _).trans (h.record m hm) }

theorem Within.leave (h : Within c name s s') : Within c name s (s'.leave c name call) :=
  { h.setCall with lock := fun m hm => (Function.update_of_ne hm _ _).trans (h.lock m hm) }

variable {profileName}

omit [DecidableEq C] [DecidableEq N] in
/-- What a call knows is about the profile that it holds and what it has seen. -/
theorem Knows.congr (h : Knows profileName s c call)
    (hsame : ∀ m, call.holds profileName = some m → s'.config m = s.config m ∧ s'.record m = s.record m)
    (hseen : s'.seen c = s.seen c) : Knows profileName s' c call := by
  have hrecord : ∀ m, call.holds profileName = some m → s'.recordOf m = s.recordOf m := by
    intro m hm
    unfold State.recordOf
    rw [(hsame m hm).2]
  cases call with
  | up workspace pc =>
    cases pc with
    | waiting | locked | creating => trivial
    | created | discarding =>
      intro cfg hcfg
      rw [(hsame _ rfl).1] at hcfg
      exact h cfg hcfg
    | starting created =>
      cases created with
      | false =>
        change (s'.config _).isSome
        rw [(hsame _ rfl).1]
        exact h
      | true =>
        intro cfg hcfg
        rw [(hsame _ rfl).1] at hcfg
        exact h cfg hcfg
  | down workspace purge pc =>
    cases pc with
    | waiting | locked | stopping => trivial
    | purging => exact ⟨h.1, (hrecord _ rfl).trans h.2⟩
  | reclaim watched name pc =>
    have hread : ∀ recorded, (Call.reclaim watched name pc).holds profileName = some name →
        ReadRecord profileName s c watched name recorded → ReadRecord profileName s' c watched name recorded := by
      rintro recorded hm ⟨hname, hwatched, hseen', hrec⟩
      exact ⟨hname, hwatched, hseen ▸ hseen', (hrecord name hm).trans hrec⟩
    have hgone : ∀ recorded, SawGone s c watched recorded → SawGone s' c watched recorded := by
      rintro recorded ⟨look, hlook, hg⟩
      exact ⟨look, hseen ▸ hlook, hg⟩
    cases pc with
    | waiting | locked => trivial
    | looking recorded => exact hread recorded rfl h
    | probing recorded => exact ⟨hread recorded rfl h.1, hgone recorded h.2⟩
    | purging recorded => exact ⟨hread recorded rfl h.1, hgone recorded h.2.1, hseen ▸ h.2.2⟩
  | idle | returned | dead => trivial

omit [DecidableEq C] [DecidableEq N] in
/-- A call can own only what it holds, as long as it runs. -/
theorem MayOwn.holds (h : MayOwn profileName name call) : call.holds profileName = some name ∨ call.holds profileName = none := by
  cases call with
  | up workspace pc =>
    cases pc with
    | starting created =>
      cases created with
      | false => exact absurd h id
      | true => exact Or.inl (congrArg some h)
    | created | discarding => exact Or.inl (congrArg some h)
    | waiting | locked | creating => exact absurd h id
  | down => exact absurd h id
  | reclaim => exact absurd h id
  | idle => exact absurd h id
  | returned | dead => exact Or.inr rfl

/-- The step of a call that has the lock, or gets it. -/
theorem Inv.within (hs : Inv profileName s) (hw : Within c name s s')
    (hfree : ∀ d, d ≠ c → (s.calls d).holds profileName ≠ some name)
    (hmine : ∀ m, m ≠ name → ¬ MayOwn profileName m (s.calls c))
    (hlock : ∀ m, (s'.calls c).holds profileName = some m → s'.lock m = some c)
    (hknows : Knows profileName s' c (s'.calls c))
    (hother : ∀ d, d ≠ c → ∀ cfg, s'.config name = some cfg → cfg.creator = some d →
      ∃ old, s.config name = some old ∧ old.creator = some d)
    (hown : ∀ cfg, s'.config name = some cfg → cfg.creator = some c → MayOwn profileName name (s'.calls c)) :
    Inv profileName s' where
  lock d m hd := by
    by_cases hdc : d = c
    · subst hdc
      exact hlock m hd
    · rw [hw.calls d hdc] at hd
      have hm : m ≠ name := by
        rintro rfl
        exact hfree d hdc hd
      rw [hw.lock m hm]
      exact hs.lock d m hd
  knows d := by
    by_cases hdc : d = c
    · subst hdc
      exact hknows
    · rw [hw.calls d hdc]
      refine (hs.knows d).congr (fun m hm => ?_) (hw.seen d hdc)
      have hne : m ≠ name := by
        rintro rfl
        exact hfree d hdc hm
      exact ⟨hw.config m hne, hw.record m hne⟩
  own m cfg d hcfg hd := by
    by_cases hm : m = name
    · subst hm
      by_cases hdc : d = c
      · subst hdc
        exact hown cfg hcfg hd
      · obtain ⟨old, hold, ho⟩ := hother d hdc cfg hcfg hd
        rw [hw.calls d hdc]
        exact hs.own m old d hold ho
    · rw [hw.config m hm] at hcfg
      by_cases hdc : d = c
      · subst hdc
        exact absurd (hs.own m cfg d hcfg hd) (hmine m hm)
      · rw [hw.calls d hdc]
        exact hs.own m cfg d hcfg hd

omit [DecidableEq C] [DecidableEq N] in
/-- Nobody else holds the lock of a call, and the call owns no other profile. -/
theorem Inv.alone (hs : Inv profileName s) (hold : (s.calls c).holds profileName = some name) :
    (∀ d, d ≠ c → (s.calls d).holds profileName ≠ some name) ∧ ∀ m, m ≠ name → ¬ MayOwn profileName m (s.calls c) := by
  refine ⟨fun d hd h => ?_, fun m hm h => ?_⟩
  · have := (hs.lock d name h).symm.trans (hs.lock c name hold)
    exact hd (Option.some.inj this)
  · rcases h.holds with h | h <;> rw [hold] at h
    · exact hm (Option.some.inj h).symm
    · cases h

omit [DecidableEq C] [DecidableEq N] in
theorem Inv.not_mine (hs : Inv profileName s) (h : ¬ MayOwn profileName name (s.calls c)) (cfg : Config C)
    (hcfg : s.config name = some cfg) : cfg.creator ≠ some c :=
  fun hc => h (hs.own name cfg c hcfg hc)

/-- The configuration is one that the call created where there was none, or has the creator that it had. -/
def SameCreator (c : C) (name : N) (s s' : State C N) : Prop :=
  ∀ cfg, s'.config name = some cfg →
    s.config name = none ∧ cfg.creator = some c ∨ ∃ old, s.config name = some old ∧ old.creator = cfg.creator

omit [DecidableEq C] [DecidableEq N] in
theorem SameCreator.of_eq (h : s'.config name = s.config name) : SameCreator c name s s' :=
  fun cfg hcfg => Or.inr ⟨cfg, h ▸ hcfg, rfl⟩

omit [DecidableEq C] [DecidableEq N] in
theorem SameCreator.of_none (h : s'.config name = none) : SameCreator c name s s' := by
  intro cfg hcfg
  rw [h] at hcfg
  cases hcfg

omit [DecidableEq C] in
theorem writeConfig_config (s : State C N) (c : C) (name : N) :
    (s.writeConfig c name).config name = some ⟨(s.config name).elim (some c) Config.creator, some c⟩ :=
  Function.update_self _ _ _

omit [DecidableEq C] in
theorem SameCreator.write : SameCreator c name s (s.writeConfig c name) := by
  intro cfg hcfg
  rw [writeConfig_config] at hcfg
  obtain rfl := Option.some.inj hcfg
  cases hold : s.config name with
  | none => exact Or.inl ⟨rfl, rfl⟩
  | some old => exact Or.inr ⟨old, rfl, rfl⟩

omit [DecidableEq C] [DecidableEq N] in
theorem SameCreator.other (h : SameCreator c name s s') (d : C) (hd : d ≠ c) (cfg : Config C)
    (hcfg : s'.config name = some cfg) (hc : cfg.creator = some d) :
    ∃ old, s.config name = some old ∧ old.creator = some d := by
  rcases h cfg hcfg with ⟨_, h⟩ | ⟨old, hold, ho⟩
  · exact absurd (Option.some.inj (hc.symm.trans h)) hd
  · exact ⟨old, hold, ho.trans hc⟩

/-- A call that has the lock goes on. -/
theorem Inv.goOn (hs : Inv profileName s) (hold : (s.calls c).holds profileName = some name) (hw : Within c name s s')
    (hlock : s'.lock = s.lock) (hsame : SameCreator c name s s') (hcall : call.holds profileName = some name)
    (hknows : Knows profileName (s'.setCall c call) c call)
    (hown : ∀ cfg, s'.config name = some cfg → cfg.creator = some c → MayOwn profileName name call) :
    Inv profileName (s'.setCall c call) := by
  have hc : (s'.setCall c call).calls c = call := setCall_self s' c call
  obtain ⟨hfree, hmine⟩ := hs.alone hold
  refine hs.within hw.setCall hfree hmine (fun m hm => ?_) (hc.symm ▸ hknows) hsame.other (hc.symm ▸ hown)
  rw [hc, hcall] at hm
  obtain rfl := Option.some.inj hm
  change s'.lock name = some c
  rw [hlock]
  exact hs.lock c name hold

/-- A call that has the lock ends. -/
theorem Inv.leave (hs : Inv profileName s) (hold : (s.calls c).holds profileName = some name) (hw : Within c name s s')
    (hsame : SameCreator c name s s') (hcall : call.name profileName = none)
    (hown : ∀ cfg, s'.config name = some cfg → cfg.creator = some c → MayOwn profileName name call) :
    Inv profileName (s'.leave c name call) := by
  have hc : (s'.leave c name call).calls c = call := leave_self s' c name call
  obtain ⟨hfree, hmine⟩ := hs.alone hold
  have hnone : call.holds profileName = none := by
    cases call with
    | up | down | reclaim => cases hcall
    | idle | returned | dead => rfl
  refine hs.within hw.leave hfree hmine (fun m hm => ?_) ?_ hsame.other (hc.symm ▸ hown)
  · rw [hc, hnone] at hm
    cases hm
  · rw [hc]
    cases call with
    | up | down | reclaim => cases hcall
    | idle | returned | dead => trivial

omit [DecidableEq N] in
/-- A call without the lock begins, or ends. -/
theorem Inv.outside (hs : Inv profileName s) (hmine : ∀ m, ¬ MayOwn profileName m (s.calls c))
    (hcall : call.holds profileName = none) (hknows : Knows profileName (s.setCall c call) c call) :
    Inv profileName (s.setCall c call) := by
  have hne : ∀ d, d ≠ c → (s.setCall c call).calls d = s.calls d := fun d hd => setCall_ne s call hd
  have hc : (s.setCall c call).calls c = call := setCall_self s c call
  refine ⟨fun d m hd => ?_, fun d => ?_, fun m cfg d hcfg hd => ?_⟩
  · by_cases hdc : d = c
    · rw [hdc, hc, hcall] at hd
      cases hd
    · rw [hne d hdc] at hd
      exact hs.lock d m hd
  · by_cases hdc : d = c
    · subst hdc
      rw [hc]
      exact hknows
    · rw [hne d hdc]
      exact (hs.knows d).congr (fun _ _ => ⟨rfl, rfl⟩) rfl
  · by_cases hdc : d = c
    · subst hdc
      exact absurd (hs.own m cfg d hcfg hd) (hmine m)
    · rw [hne d hdc]
      exact hs.own m cfg d hcfg hd

omit [DecidableEq C] [DecidableEq N] in
theorem Inv.initial (h : Initial s) : Inv profileName s where
  lock c name hn := by
    rw [h.calls c] at hn
    cases hn
  knows c := by
    rw [h.calls c]
    trivial
  own name cfg c hcfg hc := by
    rw [h.creator name cfg hcfg] at hc
    cases hc

/-! ### What the steps keep -/

/-- The call gets its lock. -/
theorem Inv.acquire (hs : Inv profileName s) (h : step profileName s (.acquire c) = some s') : Inv profileName s' := by
  simp only [step] at h
  split at h
  · rename_i call name hlocked hname
    split_ifs at h with hnone
    obtain rfl := Option.some.inj h
    have hfree : ∀ d, d ≠ c → (s.calls d).holds profileName ≠ some name := by
      intro d _ hd
      rw [hs.lock d name hd] at hnone
      cases hnone
    -- the call is the same, past its waiting: it knows and owns nothing yet
    have hcall : (∀ m, ¬ MayOwn profileName m (s.calls c)) ∧ call.holds profileName = some name ∧
        ∀ s'' : State C N, Knows profileName s'' c call := by
      cases hcall : s.calls c with
      | up workspace pc =>
        rw [hcall] at hlocked hname
        cases pc <;> cases hlocked
        exact ⟨fun _ => id, hname, fun _ => trivial⟩
      | down workspace purge pc =>
        rw [hcall] at hlocked hname
        cases pc <;> cases hlocked
        exact ⟨fun _ => id, hname, fun _ => trivial⟩
      | reclaim watched name' pc =>
        rw [hcall] at hlocked hname
        cases pc <;> cases hlocked
        exact ⟨fun _ => id, hname, fun _ => trivial⟩
      | idle | returned | dead =>
        rw [hcall] at hlocked
        cases hlocked
    obtain ⟨hmine, hholds, hknows⟩ := hcall
    have hself : (s.setCall c call).calls c = call := setCall_self s c call
    have hw : Within c name s { s.setCall c call with
        lock := Function.update s.lock name (some c), seen := Function.update s.seen c [] } :=
      { Within.refl.setCall with
        seen := fun d hd => Function.update_of_ne hd _ _
        lock := fun m hm => Function.update_of_ne hm _ _ }
    refine hs.within hw hfree (fun m _ => hmine m) (fun m hm => ?_) ?_ ?_ ?_
    · change ((s.setCall c call).calls c).holds profileName = some m at hm
      rw [hself, hholds] at hm
      obtain rfl := Option.some.inj hm
      exact Function.update_self name (some c) s.lock
    · change Knows profileName _ c ((s.setCall c call).calls c)
      rw [hself]
      exact hknows _
    · exact fun d _ cfg hcfg hd => ⟨cfg, hcfg, hd⟩
    · exact fun cfg hcfg hd => absurd hd (hs.not_mine (hmine name) cfg hcfg)
  · cases h

omit [DecidableEq C] [DecidableEq N] in
/-- A call that owns nothing may end in any way, where the configuration stays. -/
theorem Inv.no_claim (hs : Inv profileName s) {call' : Call N} (hc : s.calls c = call)
    (hmine : ¬ MayOwn profileName name call) (cfg : Config C) (hcfg : s.config name = some cfg)
    (hcreator : cfg.creator = some c) : MayOwn profileName name call' :=
  absurd hcreator (hs.not_mine (hc ▸ hmine) cfg hcfg)

theorem Inv.refuse (hs : Inv profileName s) {ok : Bool} (h : step profileName s (.refuse c ok) = some s') :
    Inv profileName s' := by
  simp only [step] at h
  split at h
  · rename_i hc
    obtain rfl := Option.some.inj h
    exact hs.outside (fun m => hc ▸ id) rfl trivial
  · rename_i hc
    obtain rfl := Option.some.inj h
    exact hs.outside (fun m => hc ▸ id) rfl trivial
  · rename_i hc
    obtain rfl := Option.some.inj h
    exact hs.outside (fun m => hc ▸ id) rfl trivial
  · rename_i hc
    obtain rfl := Option.some.inj h
    exact hs.leave (hc ▸ rfl) Within.refl (.of_eq rfl) rfl (hs.no_claim hc id)
  · rename_i hc
    obtain rfl := Option.some.inj h
    exact hs.leave (hc ▸ rfl) Within.refl (.of_eq rfl) rfl (hs.no_claim hc id)
  · rename_i hc
    obtain rfl := Option.some.inj h
    exact hs.leave (hc ▸ rfl) Within.refl (.of_eq rfl) rfl (hs.no_claim hc id)
  · cases h

theorem Inv.upRead (hs : Inv profileName s) {workspace : Workspace} (hc : s.calls c = .up workspace .locked) (odd : Bool) :
    Inv profileName (upRead profileName s c workspace odd) := by
  have hold : (s.calls c).holds profileName = some (profileName workspace.path) := by rw [hc]; rfl
  simp only [WorkspaceVm.upRead]
  split
  · split_ifs with hserves
    · exact hs.goOn hold Within.refl rfl (.of_eq rfl) rfl hserves.2.1 (hs.no_claim hc id)
    · exact hs.leave hold Within.refl (.of_eq rfl) rfl (hs.no_claim hc id)
  · split_ifs
    · exact hs.leave hold Within.refl (.of_eq rfl) rfl (hs.no_claim hc id)
    · exact hs.goOn hold Within.refl rfl (.of_eq rfl) rfl trivial (hs.no_claim hc id)

theorem Inv.downRead (hs : Inv profileName s) {workspace : Workspace} {purge : Bool}
    (hc : s.calls c = .down workspace purge .locked) (odd : Bool) :
    Inv profileName (downRead profileName s c workspace purge odd) := by
  have hold : (s.calls c).holds profileName = some (profileName workspace.path) := by rw [hc]; rfl
  simp only [WorkspaceVm.downRead]
  split_ifs with hserves hpurge
  · exact hs.goOn hold Within.refl rfl (.of_eq rfl) rfl ⟨hpurge, hserves⟩ (hs.no_claim hc id)
  · exact hs.goOn hold Within.refl rfl (.of_eq rfl) rfl trivial (hs.no_claim hc id)
  · exact hs.leave hold Within.refl (.of_eq rfl) rfl (hs.no_claim hc id)

theorem Inv.reclaimRead (hs : Inv profileName s) {watched : Option Workspace}
    (hc : s.calls c = .reclaim watched name .locked) : Inv profileName (reclaimRead profileName s c watched name) := by
  have hold : (s.calls c).holds profileName = some name := by rw [hc]; rfl
  simp only [WorkspaceVm.reclaimRead]
  split
  · rename_i recorded hrecord
    split_ifs with hnames
    · refine hs.goOn hold Within.refl.see rfl (.of_eq rfl) rfl ⟨hnames.1, ?_, ?_, hrecord⟩ (hs.no_claim hc id)
      · rintro w rfl
        exact (of_decide_eq_true hnames.2).symm
      · simp [State.setCall, State.see]
    · exact hs.leave hold Within.refl (.of_eq rfl) rfl (hs.no_claim hc id)
  · exact hs.leave hold Within.refl (.of_eq rfl) rfl (hs.no_claim hc id)

/-- Where there was no configuration, the one that the call writes is its own. -/
theorem Inv.create (hs : Inv profileName s) {outcome : Created} (h : step profileName s (.create c outcome) = some s') :
    Inv profileName s' := by
  simp only [step] at h
  split at h
  · rename_i workspace hc
    have hold : (s.calls c).holds profileName = some (profileName workspace.path) := by rw [hc]; rfl
    split at h
    · split_ifs at h with hnone
      obtain rfl := Option.some.inj h
      refine hs.goOn hold Within.refl.setConfig rfl .write rfl ?_ fun _ _ _ => rfl
      intro cfg hcfg
      change (s.writeConfig c (profileName workspace.path)).config _ = some cfg at hcfg
      rw [writeConfig_config, hnone] at hcfg
      obtain rfl := Option.some.inj hcfg
      rfl
    · obtain rfl := Option.some.inj h
      exact hs.leave hold Within.refl (.of_eq rfl) rfl (hs.no_claim hc id)
    · rename_i written
      split_ifs at h with hnone hwritten
      · obtain rfl := Option.some.inj h
        refine hs.goOn hold Within.refl.setConfig rfl .write rfl ?_ fun _ _ _ => rfl
        intro cfg hcfg
        change (s.writeConfig c (profileName workspace.path)).config _ = some cfg at hcfg
        rw [writeConfig_config, hnone] at hcfg
        obtain rfl := Option.some.inj hcfg
        rfl
      · obtain rfl := Option.some.inj h
        refine hs.goOn hold Within.refl rfl (.of_eq rfl) rfl ?_ fun _ _ _ => rfl
        intro cfg hcfg
        change s.config _ = some cfg at hcfg
        rw [hnone] at hcfg
        cases hcfg
  · cases h

theorem Inv.writeRecord (hs : Inv profileName s) {ok written : Bool}
    (h : step profileName s (.writeRecord c ok written) = some s') : Inv profileName s' := by
  simp only [step] at h
  split at h
  · rename_i workspace hc
    have hold : (s.calls c).holds profileName = some (profileName workspace.path) := by rw [hc]; rfl
    have hknows : ∀ cfg, s.config (profileName workspace.path) = some cfg → cfg.creator = some c := by
      have := hs.knows c
      rw [hc] at this
      exact this
    split at h
    · split_ifs at h
      · obtain rfl := Option.some.inj h
        exact hs.goOn hold Within.refl.setRecord rfl (.of_eq rfl) rfl hknows fun _ _ _ => rfl
      · obtain rfl := Option.some.inj h
        exact hs.goOn hold Within.refl.setRecord rfl (.of_eq rfl) rfl hknows fun _ _ _ => rfl
      · obtain rfl := Option.some.inj h
        exact hs.goOn hold Within.refl rfl (.of_eq rfl) rfl hknows fun _ _ _ => rfl
    · split_ifs at h
      obtain rfl := Option.some.inj h
      exact hs.goOn hold Within.refl rfl (.of_eq rfl) rfl hknows fun _ _ _ => rfl
  · cases h

/-- The configuration that a start saves keeps its creator. -/
theorem Inv.save (hs : Inv profileName s) (h : step profileName s (.save c) = some s') : Inv profileName s' := by
  simp only [step] at h
  split at h
  · rename_i workspace created hc
    obtain rfl := Option.some.inj h
    have hold : (s.calls c).holds profileName = some (profileName workspace.path) := by rw [hc]; rfl
    have hknows := hs.knows c
    rw [hc] at hknows
    obtain ⟨hfree, hmine⟩ := hs.alone hold
    have hsame : SameCreator c (profileName workspace.path) s (s.writeConfig c (profileName workspace.path)) := .write
    refine hs.within Within.refl.setConfig hfree hmine (hs.lock c) ?_ hsame.other fun cfg hcfg hcreator => ?_
    · change Knows profileName _ c (s.calls c)
      rw [hc]
      cases created with
      | false =>
        change ((s.writeConfig c (profileName workspace.path)).config _).isSome
        rw [writeConfig_config]
        rfl
      | true =>
        intro cfg hcfg
        rcases hsame cfg hcfg with ⟨_, hmine⟩ | ⟨old, hold, ho⟩
        · exact hmine
        · exact ho ▸ hknows old hold
    · change MayOwn profileName _ (s.calls c)
      rcases hsame cfg hcfg with ⟨hnone, _⟩ | ⟨old, hcfg', ho⟩
      · rw [hc]
        cases created with
        | false =>
          change (s.config (profileName workspace.path)).isSome at hknows
          rw [hnone] at hknows
          cases hknows
        | true => rfl
      · exact hs.own _ old c hcfg' (ho.trans hcreator)
  · cases h

theorem Inv.start (hs : Inv profileName s) {ok : Bool} (h : step profileName s (.start c ok) = some s') :
    Inv profileName s' := by
  simp only [step] at h
  split at h
  · rename_i workspace created hc
    have hold : (s.calls c).holds profileName = some (profileName workspace.path) := by rw [hc]; rfl
    have hknows := hs.knows c
    rw [hc] at hknows
    split_ifs at h with hok hcreated
    · obtain rfl := Option.some.inj h
      exact hs.leave hold Within.refl (.of_eq rfl) rfl fun _ _ _ => Or.inl rfl
    · obtain rfl := Option.some.inj h
      subst hcreated
      exact hs.goOn hold Within.refl rfl (.of_eq rfl) rfl hknows fun _ _ _ => rfl
    · obtain rfl := Option.some.inj h
      -- the call found the configuration there, and did not create it
      obtain rfl := Bool.not_eq_true _ ▸ hcreated
      exact hs.leave hold Within.refl (.of_eq rfl) rfl (hs.no_claim hc id)
  · cases h

theorem Inv.look (hs : Inv profileName s) (h : step profileName s (.look c) = some s') : Inv profileName s' := by
  simp only [step] at h
  split at h
  · rename_i watched name recorded hc
    have hold : (s.calls c).holds profileName = some name := by rw [hc]; rfl
    have hknows := hs.knows c
    rw [hc] at hknows
    obtain ⟨hname, hwatched, hseen, hrecord⟩ := hknows
    split_ifs at h with hgone
    · obtain rfl := Option.some.inj h
      refine hs.goOn hold Within.refl.see rfl (.of_eq rfl) rfl ?_ (hs.no_claim hc id)
      refine ⟨⟨hname, hwatched, ?_, hrecord⟩, s.dirs recorded.path, ?_, hgone⟩
      · simp [State.setCall, State.see, hseen]
      · simp [State.setCall, State.see]
    · obtain rfl := Option.some.inj h
      exact hs.leave hold Within.refl (.of_eq rfl) rfl (hs.no_claim hc id)
  · cases h

theorem Inv.probe (hs : Inv profileName s) {stale : Bool} (h : step profileName s (.probe c stale) = some s') :
    Inv profileName s' := by
  simp only [step] at h
  split at h
  · rename_i watched name recorded hc
    have hold : (s.calls c).holds profileName = some name := by rw [hc]; rfl
    have hknows := hs.knows c
    rw [hc] at hknows
    obtain ⟨⟨hname, hwatched, hseen, hrecord⟩, look, hlook, hgone⟩ := hknows
    split_ifs at h
    · obtain rfl := Option.some.inj h
      refine hs.goOn hold Within.refl.see rfl (.of_eq rfl) rfl ?_ (hs.no_claim hc id)
      refine ⟨⟨hname, hwatched, ?_, hrecord⟩, ⟨look, ?_, hgone⟩, ?_⟩
      · simp [State.setCall, State.see, hseen]
      · simp [State.setCall, State.see, hlook]
      · simp [State.setCall, State.see]
    · obtain rfl := Option.some.inj h
      exact hs.leave hold Within.refl (.of_eq rfl) rfl (hs.no_claim hc id)
  · cases h

/-- Whatever the purge does, a `vm up` that returns without its message has no configuration left. -/
theorem Inv.purgeStep (hs : Inv profileName s) (hold : (s.calls c).holds profileName = some name) {isUp : Bool}
    (hother : isUp = false → ¬ MayOwn profileName name (s.calls c)) {outcome : Purged}
    (h : purgeStep s c name isUp outcome = some s') : Inv profileName s' := by
  have hgone : ((s.setConfig name none).setRecord name none).config name = none := Function.update_self _ _ _
  have hnone : ∀ {s1 : State C N} {ok undeleted : Bool}, s1.config name = none → ∀ cfg, s1.config name = some cfg →
      cfg.creator = some c → MayOwn profileName name (.returned ok undeleted) := by
    intro s1 ok undeleted h cfg hcfg
    rw [h] at hcfg
    cases hcfg
  cases outcome with
  | removed =>
    obtain rfl := Option.some.inj h
    exact hs.leave hold Within.refl.setConfig.setRecord (.of_none hgone) rfl (hnone hgone)
  | hidden =>
    obtain rfl := Option.some.inj h
    exact hs.leave hold Within.refl.setConfig.setRecord (.of_none hgone) rfl (hnone hgone)
  | killed =>
    obtain rfl := Option.some.inj h
    exact hs.leave hold Within.refl.setConfig.setRecord (.of_none hgone) rfl fun _ _ _ => trivial
  | failed =>
    obtain rfl := Option.some.inj h
    refine hs.leave hold Within.refl (.of_eq rfl) rfl fun cfg hcfg hmine => ?_
    cases isUp with
    | false => exact absurd hmine (hs.not_mine (hother rfl) cfg hcfg)
    | true => exact Or.inr rfl
  | absent =>
    simp only [WorkspaceVm.purgeStep] at h
    split_ifs at h with habsent
    obtain rfl := Option.some.inj h
    exact hs.leave hold Within.refl (.of_eq rfl) rfl (hnone habsent.1)

theorem Inv.purge (hs : Inv profileName s) {outcome : Purged} (h : step profileName s (.purge c outcome) = some s') :
    Inv profileName s' := by
  simp only [step] at h
  split at h
  · rename_i hc
    exact hs.purgeStep (hc ▸ rfl) (fun h => by cases h) h
  · rename_i hc
    exact hs.purgeStep (hc ▸ rfl) (fun _ => hc ▸ id) h
  · rename_i hc
    exact hs.purgeStep (hc ▸ rfl) (fun _ => hc ▸ id) h
  · cases h

theorem Inv.die (hs : Inv profileName s) (h : step profileName s (.die c) = some s') : Inv profileName s' := by
  simp only [step] at h
  split at h
  · cases h
  · cases h
  · cases h
  · rename_i hidle hreturned hdead
    split at h
    · rename_i name hold
      obtain rfl := Option.some.inj h
      exact hs.leave hold Within.refl (.of_eq rfl) rfl fun _ _ _ => trivial
    · rename_i hnone
      obtain rfl := Option.some.inj h
      refine hs.outside (fun m hm => ?_) rfl trivial
      -- a call that runs and holds no lock waits
      cases hc : s.calls c with
      | up workspace pc =>
        rw [hc] at hnone hm
        cases pc with
        | waiting => exact hm
        | locked | creating | created | starting | discarding => cases hnone
      | down workspace purge pc => exact (hc ▸ hm : MayOwn profileName m (.down workspace purge pc))
      | reclaim watched name pc => exact (hc ▸ hm : MayOwn profileName m (.reclaim watched name pc))
      | idle => exact hidle hc
      | returned ok undeleted => exact hreturned ok undeleted hc
      | dead => exact hdead hc

theorem Inv.step (hs : Inv profileName s) {a : Action C N} (h : step profileName s a = some s') : Inv profileName s' := by
  cases a with
  | up c workspace =>
    simp only [WorkspaceVm.step] at h
    split_ifs at h with hc
    obtain rfl := Option.some.inj h
    exact hs.outside (fun m => hc ▸ id) rfl trivial
  | down c workspace purge =>
    simp only [WorkspaceVm.step] at h
    split_ifs at h with hc
    obtain rfl := Option.some.inj h
    exact hs.outside (fun m => hc ▸ id) rfl trivial
  | sweep c name =>
    simp only [WorkspaceVm.step] at h
    split at h
    · split_ifs at h with hc
      obtain rfl := Option.some.inj h
      exact hs.outside (fun m => hc.1 ▸ id) rfl trivial
    · cases h
  | reclaim c text =>
    simp only [WorkspaceVm.step] at h
    split at h
    · split_ifs at h with hc
      obtain rfl := Option.some.inj h
      exact hs.outside (fun m => hc ▸ id) rfl trivial
    · cases h
  | acquire c => exact hs.acquire h
  | refuse c ok => exact hs.refuse h
  | read c odd =>
    simp only [WorkspaceVm.step] at h
    split at h
    · rename_i hc
      obtain rfl := Option.some.inj h
      exact hs.upRead hc odd
    · rename_i hc
      obtain rfl := Option.some.inj h
      exact hs.downRead hc odd
    · rename_i hc
      obtain rfl := Option.some.inj h
      exact hs.reclaimRead hc
    · cases h
  | create c outcome => exact hs.create h
  | writeRecord c ok written => exact hs.writeRecord h
  | save c => exact hs.save h
  | start c ok => exact hs.start h
  | stop c ok =>
    simp only [WorkspaceVm.step] at h
    split at h
    · rename_i hc
      obtain rfl := Option.some.inj h
      exact hs.leave (hc ▸ rfl) Within.refl (.of_eq rfl) rfl (hs.no_claim hc id)
    · cases h
  | look c => exact hs.look h
  | probe c stale => exact hs.probe h
  | purge c outcome => exact hs.purge h
  | die c => exact hs.die h
  | move path look =>
    obtain rfl := Option.some.inj h
    exact ⟨hs.lock, fun c => (hs.knows c).congr (fun _ _ => ⟨rfl, rfl⟩) rfl, hs.own⟩

theorem Inv.reachable (h : Steps.Reachable (WorkspaceVm.step profileName) Initial s) : Inv profileName s :=
  h.induction (fun _ => Inv.initial) fun _ _ _ hs => hs.step

/-! ## When a configuration goes -/

omit [DecidableEq C] in
theorem writeConfig_isSome {m : N} (h : (s.config m).isSome) : ((s.writeConfig c name).config m).isSome := by
  by_cases hm : m = name
  · subst hm
    rw [writeConfig_config]
    rfl
  · exact (congrArg Option.isSome (Function.update_of_ne hm _ _)).trans h

theorem read_config {odd : Bool} (h : step profileName s (.read c odd) = some s') : s'.config = s.config := by
  simp only [step] at h
  split at h
  · obtain rfl := Option.some.inj h
    simp only [upRead]
    split <;> split_ifs <;> rfl
  · obtain rfl := Option.some.inj h
    simp only [downRead]
    split_ifs <;> rfl
  · obtain rfl := Option.some.inj h
    simp only [reclaimRead]
    split
    · split_ifs <;> rfl
    · rfl
  · cases h

/-- Only a purge removes a configuration. -/
theorem config_kept {a : Action C N} (h : step profileName s a = some s') (ha : ∀ c outcome, a ≠ .purge c outcome) {m : N}
    (hm : (s.config m).isSome) : (s'.config m).isSome := by
  have hsame : s'.config = s.config → (s'.config m).isSome := fun h => h ▸ hm
  cases a with
  | up c workspace | down c workspace purge =>
    simp only [step] at h
    split_ifs at h
    obtain rfl := Option.some.inj h
    exact hm
  | sweep c name | reclaim c text =>
    simp only [step] at h
    split at h
    · split_ifs at h
      obtain rfl := Option.some.inj h
      exact hm
    · cases h
  | acquire c =>
    simp only [step] at h
    split at h
    · split_ifs at h
      obtain rfl := Option.some.inj h
      exact hm
    · cases h
  | refuse c ok | stop c ok =>
    simp only [step] at h
    split at h <;> cases h <;> exact hm
  | read c odd => exact hsame (read_config h)
  | create c outcome =>
    simp only [step] at h
    split at h
    · split at h
      · split_ifs at h
        obtain rfl := Option.some.inj h
        exact writeConfig_isSome hm
      · obtain rfl := Option.some.inj h
        exact hm
      · split_ifs at h
        · obtain rfl := Option.some.inj h
          exact writeConfig_isSome hm
        · obtain rfl := Option.some.inj h
          exact hm
    · cases h
  | writeRecord c ok written =>
    simp only [step] at h
    split at h
    · split at h
      · split_ifs at h <;> cases h <;> exact hm
      · split_ifs at h
        obtain rfl := Option.some.inj h
        exact hm
    · cases h
  | save c =>
    simp only [step] at h
    split at h
    · obtain rfl := Option.some.inj h
      exact writeConfig_isSome hm
    · cases h
  | start c ok =>
    simp only [step] at h
    split at h
    · split_ifs at h <;> cases h <;> exact hm
    · cases h
  | look c | probe c stale =>
    simp only [step] at h
    split at h
    · split_ifs at h <;> cases h <;> exact hm
    · cases h
  | purge c outcome => exact absurd rfl (ha c outcome)
  | die c =>
    simp only [step] at h
    split at h
    · cases h
    · cases h
    · cases h
    · split at h <;> cases h <;> exact hm
  | move path look =>
    obtain rfl := Option.some.inj h
    exact hm

theorem purgeStep_config {isUp : Bool} {outcome : Purged} (h : purgeStep s c name isUp outcome = some s') {m : N}
    (hm : m ≠ name) : s'.config m = s.config m := by
  cases outcome with
  | removed | hidden | killed =>
    obtain rfl := Option.some.inj h
    exact Function.update_of_ne hm _ _
  | failed =>
    obtain rfl := Option.some.inj h
    rfl
  | absent =>
    simp only [purgeStep] at h
    split_ifs at h
    obtain rfl := Option.some.inj h
    rfl

/-- A purge has one of its three reasons, under the lock of the one profile that it touches. -/
theorem Inv.justified (hs : Inv profileName s) {outcome : Purged}
    (h : WorkspaceVm.step profileName s (.purge c outcome) = some s') :
    ∃ name, s.lock name = some c ∧ Justified profileName s c name ∧ ∀ m, m ≠ name → s'.config m = s.config m := by
  have hknows := hs.knows c
  simp only [WorkspaceVm.step] at h
  split at h
  · rename_i workspace hc
    rw [hc] at hknows
    exact ⟨_, hs.lock c _ (hc ▸ rfl), .created workspace hc rfl hknows, fun _ hm => purgeStep_config h hm⟩
  · rename_i workspace purge hc
    rw [hc] at hknows
    obtain ⟨rfl, hrecord⟩ := hknows
    exact ⟨_, hs.lock c _ (hc ▸ rfl), .asked workspace hc hrecord, fun _ hm => purgeStep_config h hm⟩
  · rename_i watched name recorded hc
    rw [hc] at hknows
    obtain ⟨hread, hgone, hstale⟩ := hknows
    exact ⟨name, hs.lock c _ (hc ▸ rfl), .gone watched recorded hc hread hgone hstale, fun _ hm => purgeStep_config h hm⟩
  · cases h

end

variable {profileName}

/-- In every run a profile is purged for one of the three reasons, under its lock, and loses its configuration in no other
way; and a `vm up` that failed without saying that a deletion failed has left no configuration that it created. -/
theorem workspace_purges_justified {s : State C N} (h : Steps.Reachable (step profileName) Initial s) :
    (∀ a s', step profileName s a = some s' →
      (∀ c outcome, a = .purge c outcome → ∃ name, s.lock name = some c ∧ Justified profileName s c name) ∧
      ∀ name, (s.config name).isSome → s'.config name = none →
        ∃ c outcome, a = .purge c outcome ∧ s.lock name = some c ∧ Justified profileName s c name) ∧
      ∀ c name cfg, s.calls c = .returned false false → s.config name = some cfg → cfg.creator ≠ some c := by
  have hs := Inv.reachable h
  refine ⟨fun a s' hstep => ⟨?_, fun name hsome hnone => ?_⟩, fun c name cfg hc hcfg => ?_⟩
  · rintro c outcome rfl
    obtain ⟨name, hlock, hj, _⟩ := hs.justified hstep
    exact ⟨name, hlock, hj⟩
  · by_cases ha : ∃ c outcome, a = .purge c outcome
    · obtain ⟨c, outcome, rfl⟩ := ha
      obtain ⟨name', hlock, hj, hsame⟩ := hs.justified hstep
      have hname : name = name' := by
        by_contra hne
        rw [← hsame name hne, hnone] at hsome
        cases hsome
      subst hname
      exact ⟨c, outcome, rfl, hlock, hj⟩
    · -- nothing else removes it
      have hkept := config_kept hstep (fun c outcome h => ha ⟨c, outcome, h⟩) hsome
      rw [hnone] at hkept
      cases hkept
  · refine hs.not_mine ?_ cfg hcfg
    rw [hc]
    rintro (h | h) <;> cases h

/-! ### Two runs -/

/-- The directory `/w`, its record, and no profile yet. -/
def fresh : State ℕ Bytes :=
  ⟨fun _ => .there 1 2, fun _ => none, fun _ => none, fun _ => none, fun _ => .idle, fun _ => []⟩

def dirW : Workspace := ⟨ascii "/w", 1, 2⟩

theorem fresh_initial : Initial fresh := ⟨fun _ => rfl, fun _ _ h => by cases h⟩

/-- A `vm up` whose start fails, and one that starts; the directory goes, and a sweep purges the profile. -/
def purges : List (Action ℕ Bytes) :=
  [.up 0 dirW, .acquire 0, .read 0 false, .create 0 .ok, .writeRecord 0 true false, .start 0 false, .purge 0 .removed,
    .up 1 dirW, .acquire 1, .read 1 false, .create 1 .ok, .writeRecord 1 true false, .save 1, .start 1 true,
    .move (ascii "/w") .absent, .sweep 2 (ascii "/w"), .acquire 2, .read 2 false, .look 2, .probe 2 true]

theorem workspace_purges_justified_swept : ∃ s s' : State ℕ Bytes,
    Steps.Reachable (step id) Initial s ∧ step id s (.purge 2 .removed) = some s' ∧ s'.config (ascii "/w") = none ∧
      s.lock (ascii "/w") = some 2 ∧ Justified id s 2 (ascii "/w") := by
  have hrun : (Steps.run (step id) fresh purges).bind (fun s => (step id s (.purge 2 .removed)).map fun s' =>
      (s.config (ascii "/w"), s'.config (ascii "/w"))) = some (some ⟨some 1, some 1⟩, none) := by
    decide +kernel
  obtain ⟨s, hs, hrun⟩ := Option.bind_eq_some_iff.mp hrun
  obtain ⟨s', hstep, hv⟩ := Option.map_eq_some_iff.mp hrun
  obtain ⟨hbefore, hafter⟩ := Prod.mk.inj hv
  have hreach : Steps.Reachable (step id) Initial s := ⟨fresh, purges, fresh_initial, hs⟩
  obtain ⟨c, outcome, ha, hlock, hj⟩ :=
    ((workspace_purges_justified hreach).1 _ s' hstep).2 (ascii "/w") (by rw [hbefore]; rfl) hafter
  obtain ⟨rfl, rfl⟩ := Action.purge.inj ha
  exact ⟨s, s', hreach, hstep, hafter, hlock, hj⟩

/-- A start that fails leaves the configuration of an existing profile, and has written it. -/
theorem rewritten_configuration_stays : ∃ s : State ℕ Bytes,
    Steps.Reachable (step id) Initial s ∧ s.calls 1 = .returned false false ∧
      ∃ cfg, s.config (ascii "/w") = some cfg ∧ cfg.writer = some 1 := by
  have hrun : (Steps.run (step id) fresh
      [.up 0 dirW, .acquire 0, .read 0 false, .create 0 .ok, .writeRecord 0 true false, .start 0 true,
        .up 1 dirW, .acquire 1, .read 1 false, .save 1, .start 1 false]).map (fun s => (s.calls 1, s.config (ascii "/w"))) =
      some (.returned false false, some ⟨some 0, some 1⟩) := by
    decide +kernel
  obtain ⟨s, hs, hv⟩ := Option.map_eq_some_iff.mp hrun
  obtain ⟨hcalls, hconfig⟩ := Prod.mk.inj hv
  exact ⟨s, ⟨fresh, _, fresh_initial, hs⟩, hcalls, _, hconfig, rfl⟩

end

end Hamn.Host.WorkspaceVm
