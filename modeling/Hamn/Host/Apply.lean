import Hamn.Host.Profile
import Hamn.Lib.Crash
import Hamn.Lib.Posix

/-!
# Host.Apply — `vm apply` (`host/core/apply.c`)

`hamn_control_apply` looks at the directory of a profile, waits for the lifecycle lock, looks again and writes
`config.yaml` with `fs_write_file_atomic`.  Every system call is a step: it may fail, the call may be stopped before it,
and while no lock is held other calls may make anything of the profile directory.  `before` follows the directory as
those other calls leave it, so what this call changed is the difference between `home` and `before`.

* `World`, `Cell`: the profile directory and the locks; what the environment decides at a step.
* `directoryScan`, `applyEvaluate`: what the directory holds, and what the definition asks for.
* `fsWriteFileAtomic`, `applySave`, `applyCreate`, `applyConfigure`: the writers.
* `hamnControlApply`: the whole call.
-/

namespace Hamn.Host

open Bytes Crash Posix

/-! ## The profile directory -/

/-- The values of `errno` that the callers tell apart or report. -/
inductive Errno where
  | noent | exist | notdir | isdir | notempty | access | loop | inval | nametoolong | nomem | overflow | ilseq | io
  deriving DecidableEq, Repr

/-- The path of a profile: nothing, something else than a directory (a lookup below it says `marker`), or a directory. -/
inductive Home where
  | absent
  | other (marker : Except Errno Unit)
  | directory (a : Attr) (entries : Dir)

/-- `vm_process_state`. -/
inductive VmProcessState where
  | stale | verified | unverified
  deriving DecidableEq, Repr

structure World where
  home : Home
  /-- The directory as the other calls left it. -/
  before : Home
  lifecycleFile : Bool
  mutationFile : Bool
  /-- This call holds the lifecycle lock, under which no other call writes. -/
  locked : Bool
  /-- This call got that lock. -/
  held : Bool
  /-- Another call wrote since this one began. -/
  disturbed : Bool
  /-- The last answer of `vm_process_probe`. -/
  probed : Option VmProcessState

/-- What the environment decides at a step. -/
structure Cell where
  fault : Bool
  /-- What other calls made of the profile directory before this step. -/
  others : Option Home
  vm : VmProcessState
  /-- The entry that a probe of a running VM adopts. -/
  adopted : Option Node
  cancelled : Bool
  /-- The process and the random number in the name of a temporary file. -/
  nonce : Bytes
  /-- How much of a failed write reached the file. -/
  written : ℕ

namespace World

def disturb (w : World) (others : Option Home) : World :=
  if w.locked then w
  else
    match others with
    | none => w
    | some home => { w with home, before := home, disturbed := true }

end World

abbrev Call := Proc Cell World

/-- One system call on the profile directory. -/
def call {α : Type} (f : Cell → Home → Except Errno α × Home) : Call Errno α := Proc.step fun c w =>
  let w := w.disturb c.others
  if c.fault then (.error .io, w)
  else
    let r := f c w.home
    (r.1, { w with home := r.2 })

/-- A system call that reads. -/
def read {α : Type} (f : Home → Except Errno α) : Call Errno α := call fun _ home => (f home, home)

/-- A system call that only succeeds or fails. -/
def sys : Call Errno Unit := read fun _ => .ok ()

namespace Home

def config : Home → Option Node
  | directory _ es => Dir.get es (ascii "config.yaml")
  | _ => none

/-- The entry `name`, as `lstat` finds it. -/
def lookup (name : Name) : Home → Except Errno Node
  | absent => .error .noent
  | other (.error e) => .error e
  | other (.ok ()) => .ok (.special (.mine 0))
  | directory a es =>
    if a.searchable then
      match Dir.get es name with
      | some n => .ok n
      | none => .error .noent
    else .error .access

/-- `profile_directory_private`. -/
def isPrivate : Home → Bool
  | directory a _ => a.own && a.mode &&& 0o022 == 0
  | _ => false

/-- The names in a directory; no symbolic link gets here, `profile_read` refuses it. -/
def names : Home → Except Errno (List Name)
  | absent => .error .noent
  | other _ => .error .notdir
  | directory a es => if a.readable then .ok (Dir.names es) else .error .access

/-- The entry `name` becomes `n`. -/
def set (name : Name) (n : Option Node) : Home → Home
  | directory a es => directory a (Dir.set es name n)
  | home => home

/-- Whether entries may be added and removed. -/
def editable : Home → Except Errno Unit
  | absent => .error .noent
  | other _ => .error .notdir
  | directory a _ => if a.writable && a.searchable then .ok () else .error .access

def mkdir : Home → Except Errno Unit × Home
  | absent => (.ok (), directory (.mine 0o700) [])
  | home => (.error .exist, home)

def rmdir : Home → Except Errno Unit × Home
  | directory _ [] => (.ok (), absent)
  | directory a (e :: es) => (.error .notempty, directory a (e :: es))
  | absent => (.error .noent, absent)
  | other m => (.error .notdir, other m)

def unlink (name : Name) (home : Home) : Except Errno Unit × Home :=
  match home.editable, home.lookup name with
  | .error e, _ => (.error e, home)
  | .ok (), .error e => (.error e, home)
  | .ok (), .ok (.dir _ _) => (.error .isdir, home)
  | .ok (), .ok _ => (.ok (), home.set name none)

/-- `openat` with `O_CREAT | O_EXCL | O_NOFOLLOW`. -/
def create (name : Name) (home : Home) : Except Errno Unit × Home :=
  match home.editable, home.lookup name with
  | .error e, _ => (.error e, home)
  | .ok (), .ok _ => (.error .exist, home)
  | .ok (), .error .noent => (.ok (), home.set name (some (.file (.mine 0o600) [])))
  | .ok (), .error e => (.error e, home)

/-- The file `name`, which this call opened, becomes `f` of it. -/
def update (name : Name) (f : Node → Node) (home : Home) : Home :=
  match home.lookup name with
  | .ok n => home.set name (some (f n))
  | .error _ => home

def rename (source target : Name) (home : Home) : Except Errno Unit × Home :=
  match home.editable, home.lookup source, home.lookup target with
  | .error e, _, _ => (.error e, home)
  | .ok (), .error e, _ => (.error e, home)
  | .ok (), .ok _, .ok (.dir _ _) => (.error .isdir, home)
  | .ok (), .ok n, _ => (.ok (), (home.set source none).set target (some n))

end Home

/-! ## Reading -/

def PROFILE_PATH_CAP : ℕ := 1024

/-- What the calls know besides the profile directory; libyaml, cJSON and `strerror` are not part of this repository. -/
structure Env where
  yaml : Bytes → YamlStream
  cjson : Bytes → Option CJson
  strerror : Errno → Bytes
  /-- The path of `~/.hamn`, unless `HOME` is empty. -/
  root : Option Bytes
  /-- Whether `~/.hamn` is missing or a directory that only this user can write. -/
  rootPrivate : Bool

section

variable (env : Env)

/-- `hamn_home`. -/
def hamnHome : Call Errno Bytes := do
  match env.root with
  | none => Proc.fail .inval
  | some root => do
    if root.length ≥ PROFILE_PATH_CAP then Proc.fail .inval
    else do
      sys
      if env.rootPrivate then return root else Proc.fail .inval

/-- `profile_locate`: the path of the profile directory. -/
def profileLocate (name : Bytes) : Call Errno Bytes := do
  if profileNameValid name = false then Proc.fail .inval
  else
    match ← Proc.attempt (hamnHome env) with
    | .error _ => Proc.fail .inval
    | .ok root =>
      let dir := root ++ ascii "/" ++ name
      if dir.length ≥ PROFILE_PATH_CAP then Proc.fail .nametoolong else return dir

/-- Whether the path of an entry fits (`profile_path`). -/
def profilePathFits (dir : Bytes) (file : String) : Bool := dir.length + 1 + (ascii file).length < PROFILE_PATH_CAP

/-- Why a profile cannot be read: `errno` and the reason that the reader named. -/
structure Unread where
  errno : Errno
  reason : Option Bytes

/-- A failed call whose `errno` is the only reason. -/
def unnamed {α : Type} (m : Call Errno α) : Call Unread α := do
  match ← Proc.attempt m with
  | .ok a => return a
  | .error errno => Proc.fail ⟨errno, none⟩

/-- The text of `config.yaml`, or `none` when there is no such file (`profile_open_config`). -/
def profileOpenConfig (dir : Bytes) : Call Unread (Option Bytes) := do
  if profilePathFits dir "config.yaml" = false then Proc.fail ⟨.nametoolong, none⟩
  else
    match ← Proc.attempt (read fun home =>
      match home.lookup (ascii "config.yaml") with
      | .ok (.symlink _ _) => .error .loop
      | .ok n => if n.attr.readable then .ok n else .error .access
      | .error e => .error e) with
    | .error .noent => return none
    | .error errno => Proc.fail ⟨errno, none⟩
    | .ok node => do
      unnamed sys -- fstat
      match node with
      | .file _ text =>
        if text.length > PROFILE_YAML_CAP then
          Proc.fail ⟨.inval, some (ascii "config.yaml is larger than 65536 bytes")⟩
        else do
          unnamed sys -- fdopen
          return some text
      | _ => Proc.fail ⟨.inval, some (ascii "config.yaml is not a regular file")⟩

/-- `profile_read` without `create`. -/
def profileReadExisting (name : Bytes) : Call Unread Profile := do
  if profileNameValid name = false then Proc.fail ⟨.inval, some (ascii "invalid profile name")⟩
  else
    match ← Proc.attempt (profileLocate env name) with
    | .error .inval =>
      Proc.fail ⟨.inval, some (ascii "~/.hamn is not a directory that only this user can write")⟩
    | .error errno => Proc.fail ⟨errno, none⟩
    | .ok dir => do
      let isPrivate ← unnamed (read fun home =>
        match home with
        | .absent => .error .noent
        | home => .ok home.isPrivate)
      if isPrivate = false then
        Proc.fail ⟨.inval, some (ascii "the profile directory is not a directory that only this user can write")⟩
      else
        match ← profileOpenConfig dir with
        | none => Proc.fail ⟨.noent, none⟩
        | some text => do
          unnamed sys -- the parser and the pages of the file
          match profileParse env.yaml env.cjson text with
          | .error .memory => Proc.fail ⟨.nomem, none⟩
          | .error (.rule rule) => Proc.fail ⟨.inval, rule⟩
          | .ok stored => do
            unnamed sys -- fclose
            return { stored with name }

/-- The reason as `profile_read_existing_reason` completes it. -/
def reasonText (u : Unread) : Bytes := (u.reason.getD (env.strerror u.errno)).take (PROFILE_REASON_CAP - 1)

end

/-! ## Scanning -/

def hasPrefix (name : Name) (p : String) : Bool := (ascii p).isPrefixOf name

def precedesConfiguration (name : Name) : Bool :=
  hasPrefix name "config.yaml.tmp." || name == ascii "operation.json" || hasPrefix name "operation.json.tmp." ||
    name == ascii "state.json" || hasPrefix name "state.json.tmp." || name == ascii "port-forward-operations.lock" ||
    name == ascii "port-forwards.lock"

inductive DirectoryContent where
  | unreadable (errno : Errno)
  | foreign
  | awaits
  | configured
  deriving DecidableEq, Repr

/-- The loop over the entries that `readdir` still has. -/
def scanLoop (removeTemporaries : Bool) : List Name → Call Errno DirectoryContent
  | [] => do
    match ← Proc.attempt sys with
    | .error errno => return .unreadable errno
    | .ok () => return .awaits
  | name :: names => do
    match ← Proc.attempt sys with
    | .error errno => return .unreadable errno
    | .ok () =>
      if name = ascii "config.yaml" then return .configured
      else if precedesConfiguration name = false then return .foreign
      else if removeTemporaries && hasPrefix name "config.yaml.tmp." then do
        match ← Proc.attempt (call fun _ home => home.unlink name) with
        | .ok () => scanLoop removeTemporaries names
        | .error .noent => scanLoop removeTemporaries names
        | .error errno => return .unreadable errno
      else scanLoop removeTemporaries names

/-- `directory_scan`. -/
def directoryScan (removeTemporaries : Bool) : Call Errno DirectoryContent := do
  match ← Proc.attempt (read Home.names) with
  | .error errno => return .unreadable errno
  | .ok names => scanLoop removeTemporaries names

/-! ## Evaluation -/

/-- The values that `hamn_control_apply` returns besides `APPLY_OK`. -/
inductive ApplyRc where
  | failed | invalid | conflict | unconfirmed | cancelled
  deriving DecidableEq, Repr

def ApplyRc.code : ApplyRc → ℕ
  | failed => 1
  | invalid => 2
  | conflict => 4
  | unconfirmed => 5
  | cancelled => 130

/-- A return value other than `APPLY_OK` with the line that was logged. -/
structure ApplyError where
  rc : ApplyRc
  message : Bytes
  deriving DecidableEq, Repr

inductive ApplyAction where
  | none | create | configure
  deriving DecidableEq, Repr

def ApplyAction.text : ApplyAction → String
  | none => "none"
  | create => "create"
  | configure => "configure"

/-- The plan of an evaluation; `current` is there unless the plan is to create. -/
structure ApplyPlan where
  action : ApplyAction
  changes : List ProfileSetting
  current : Option Profile
  deriving DecidableEq, Repr

/-- The return of `rc` after `logerr`. -/
def refuse {α : Type} (rc : ApplyRc) (message : Bytes) : Call ApplyError α := Proc.fail ⟨rc, message⟩

def changesText (changes : List ProfileSetting) : Bytes :=
  ascii (String.intercalate ", " (changes.map profileSettingKey))

def EVALUATE_ATTEMPTS : ℕ := 3

section

variable (env : Env) (desired : Profile) (dir : Bytes)

def refuseForeignDirectory {α : Type} : Call ApplyError α :=
  refuse .conflict (dir ++ ascii " holds files but no config.yaml; it is not adopted as profile " ++ desired.name)

def cannotInspect {α : Type} (errno : Errno) : Call ApplyError α :=
  refuse .failed (ascii "cannot inspect profile " ++ desired.name ++ ascii ": " ++ env.strerror errno)

/-- `lstat` of the profile directory. -/
def statHome : Call Errno Unit := read fun home =>
  match home with
  | .absent => .error .noent
  | _ => .ok ()

/-- One attempt; `none` starts over. -/
def applyAttempt (settled last : Bool) : Call ApplyError (Option ApplyPlan) := do
  match ← Proc.attempt statHome with
  | .error .noent => return some ⟨.create, [], none⟩
  | .error errno => cannotInspect env desired errno
  | .ok () =>
    if profilePathFits dir "deleted" = false then
      refuse .failed (ascii "the path of profile " ++ desired.name ++ ascii " is too long")
    else
      match ← Proc.attempt (read fun home => home.lookup (ascii "deleted")) with
      | .ok _ =>
        refuse .conflict (ascii "profile " ++ desired.name ++ ascii " is deleted; vm start --profile " ++ desired.name ++
          ascii " restores it with its disk, or use another name")
      | .error .noent => do
        match ← Proc.attempt (profileReadExisting env desired.name) with
        | .ok current =>
          if desired.diskGib < current.diskGib then
            refuse .conflict (ascii ("disk size cannot shrink (current: " ++ toString current.diskGib ++
              " GiB); set spec.diskGiB to " ++ toString current.diskGib ++ " or more"))
          else
            let changes := profileDiff current desired
            return some ⟨if changes = [] then .none else .configure, changes, some current⟩
        | .error u =>
          if u.errno ≠ .noent then
            refuse .failed (ascii "cannot read the configuration of profile " ++ desired.name ++ ascii ": " ++
              reasonText env u)
          else
            match ← Proc.attempt (directoryScan false) with
            | .error errno => cannotInspect env desired errno
            | .ok .awaits => return some ⟨.create, [], none⟩
            | .ok .configured =>
              if last = false then return none
              else refuse .failed (ascii "profile " ++ desired.name ++ ascii " is being changed; nothing was written")
            | .ok (.unreadable errno) =>
              if errno = .noent ∧ last = false then return none else cannotInspect env desired errno
            | .ok .foreign => if settled then refuseForeignDirectory desired dir else return some ⟨.create, [], none⟩
      | .error errno => cannotInspect env desired errno

/-- The attempts that are left after the present one. -/
def evaluateLoop (settled : Bool) : ℕ → Call ApplyError ApplyPlan
  | 0 => do
    match ← applyAttempt env desired dir settled true with
    | some plan => return plan
    | none => refuse .failed []
  | left + 1 => do
    match ← applyAttempt env desired dir settled false with
    | some plan => return plan
    | none => evaluateLoop settled left

def applyEvaluate (settled : Bool) : Call ApplyError ApplyPlan :=
  evaluateLoop env desired dir settled (EVALUATE_ATTEMPTS - 1)

/-! ## The report -/

inductive SettingValue where
  | number (n : ℕ)
  | bool (b : Bool)
  deriving DecidableEq, Repr

def settingValue (p : Profile) : ProfileSetting → Option SettingValue
  | .cpus => some (.number p.cpus)
  | .memoryMib => some (.number p.memMib)
  | .diskGib => some (.number p.diskGib)
  | .mountHome => some (.bool p.mountHome)
  | .homeReadOnly => some (.bool p.homeReadOnly)
  | .mountInotify => some (.bool p.mountInotify)
  | .rosetta => some (.bool p.rosetta)
  | .nestedVirtualization => some (.bool p.nestedVirtualization)
  | .sshAgent => some (.bool p.sshAgent)
  | .dockerDaemonJson => none
  | .mounts => none
  | .provision => none

/-- A change: its key, and the values of a number or a boolean. -/
structure Change where
  key : String
  values : Option (SettingValue × SettingValue)
  deriving DecidableEq, Repr

/-- The object that `*result` holds as JSON. -/
structure Report where
  profile : Bytes
  action : ApplyAction
  changes : List Change
  dryRun : Bool
  deriving DecidableEq, Repr

def changeJson (current : Profile) (setting : ProfileSetting) : Change :=
  ⟨profileSettingKey setting,
    match settingValue current setting, settingValue desired setting with
    | some a, some b => some (a, b)
    | _, _ => none⟩

/-- `apply_report`, which fails when there is no memory for the result. -/
def applyReport (plan : ApplyPlan) (dryRun : Bool) : Call ApplyError Report := do
  match ← Proc.attempt sys with
  | .error _ => refuse .failed (ascii "cannot build the result of vm apply")
  | .ok () =>
    return ⟨desired.name, plan.action, plan.changes.map (changeJson desired (plan.current.getD profileDefaults)), dryRun⟩

end

/-! ## Writing -/

/-- The loop that opens a temporary file under a new name. -/
def openTemporary (name : String) : ℕ → Call Errno Name
  | 0 => Proc.fail .exist
  | tries + 1 => do
    match ← Proc.attempt (call fun c home =>
      let tmp := ascii (name ++ ".tmp.") ++ c.nonce
      match home.create tmp with
      | (.ok (), home) => (.ok tmp, home)
      | (.error e, home) => (.error e, home)) with
    | .ok tmp => return tmp
    | .error .exist => openTemporary name tries
    | .error errno => Proc.fail errno

/-- `full_write`: a failed write leaves a part of the data. -/
def fullWrite (tmp : Name) (data : Bytes) : Call Errno Unit := Proc.step fun c w =>
  let w := w.disturb c.others
  let put (data : Bytes) : World := { w with home := w.home.update tmp fun
    | .file a _ => .file a data
    | n => n }
  if c.fault then (.error .io, put (data.take c.written)) else (.ok (), put data)

/-- The calls from `fchmod` to `renameat`, after which the temporary file is gone. -/
def replaceBy (tmp : Name) (name : String) (data : Bytes) : Call Errno Unit := do
  call fun _ home => (.ok (), home.update tmp (Node.setMode 0o600))
  fullWrite tmp data
  sys -- fsync
  sys -- close
  call fun _ home => home.rename tmp (ascii name)

/-- `fs_write_file_atomic` of an entry of the profile directory. -/
def fsWriteFileAtomic (name : String) (data : Bytes) : Call Errno Unit := do
  read fun home => -- open_parent_dir
    match home with
    | .directory a _ => if a.readable then .ok () else .error .access
    | .absent => .error .noent
    | .other _ => .error .notdir
  sys -- fstat
  let tmp ← openTemporary name 8
  match ← Proc.attempt (replaceBy tmp name data) with
  | .error errno => do
    Proc.ignore (call fun _ home => home.unlink tmp)
    Proc.fail errno
  | .ok () => do
    sys -- fsync of the directory
    sys -- close

section

variable (env : Env) (desired : Profile) (dir : Bytes)

def TextError.errno : TextError → Errno
  | inval => .inval
  | overflow => .overflow
  | ilseq => .ilseq

/-- `profile_save`. -/
def profileSave : Call Errno Unit :=
  match profileText env.yaml env.cjson desired with
  | .error e => Proc.fail e.errno
  | .ok text =>
    if profilePathFits dir "config.yaml" = false then Proc.fail .nametoolong else fsWriteFileAtomic "config.yaml" text

/-- `apply_save`. -/
def applySave (madeDirectory : Bool) : Call ApplyError Unit := do
  match ← Proc.attempt (profileSave env desired dir) with
  | .ok () => return ()
  | .error saved =>
    let giveUp : Call ApplyError Unit := do
      if madeDirectory then Proc.ignore (call fun _ home => home.rmdir)
      refuse .failed (ascii "cannot save settings: " ++ env.strerror saved)
    match ← Proc.attempt (profileReadExisting env desired.name) with
    | .ok stored =>
      if profileDiff stored desired = [] then
        refuse .unconfirmed (ascii "the settings of profile " ++ desired.name ++
          ascii " were written but not confirmed durable: " ++ env.strerror saved ++ ascii "; run vm apply again")
      else giveUp
    | .error u =>
      if u.errno ≠ .noent then
        refuse .unconfirmed (ascii "cannot save settings: " ++ env.strerror saved ++
          ascii "; the configuration of profile " ++ desired.name ++ ascii " cannot be read back: " ++ reasonText env u)
      else giveUp

/-- `apply_create`. -/
def applyCreate : Call ApplyError Unit := do
  match ← Proc.attempt (call fun _ home => home.mkdir) with
  | .ok () => applySave env desired dir true
  | .error .exist => do
    match ← Proc.attempt (directoryScan true) with
    | .ok .awaits => applySave env desired dir false
    | .ok .foreign => refuseForeignDirectory desired dir
    | .ok .configured =>
      refuse .failed (ascii "profile " ++ desired.name ++ ascii " is being changed; nothing was written")
    | .ok (.unreadable errno) => cannotInspect env desired errno
    | .error errno => cannotInspect env desired errno
  | .error errno =>
    refuse .failed (ascii "cannot create profile " ++ desired.name ++ ascii ": " ++ env.strerror errno)

/-- `vm_process_probe`: a probe of a VM that answers may write the identity that it adopts. -/
def vmProcessProbe : Call ApplyError VmProcessState := Proc.step fun c w =>
  let w := w.disturb c.others
  let w := { w with probed := some c.vm }
  match c.vm, c.adopted with
  | .stale, _ => (.ok c.vm, w)
  | _, none => (.ok c.vm, w)
  | _, some n =>
    (.ok c.vm, { w with home := (w.home.set (ascii "vmrun.identity") (some n)).set (ascii "vmrun.pid") (some n) })

/-- `apply_configure`. -/
def applyConfigure (plan : ApplyPlan) : Call ApplyError Unit := do
  match ← vmProcessProbe with
  | .stale => applySave env desired dir false
  | .verified =>
    refuse .conflict (ascii "VM must be stopped before changing settings: " ++ changesText plan.changes)
  | .unverified =>
    refuse .failed (ascii "cannot verify the VM process of profile " ++ desired.name ++ ascii "; settings were not changed")

/-! ## The call -/

/-- `vm_lifecycle_lock_acquire`: the lock file is opened, and other calls may write while this one waits. -/
def vmLifecycleLockAcquire : Call Errno Unit := do
  Proc.step fun c w =>
    let w := w.disturb c.others
    if c.fault then (.error .io, w) else (.ok (), { w with lifecycleFile := true })
  Proc.step fun c w =>
    let w := w.disturb c.others
    if c.fault then (.error .io, w) else (.ok (), { w with locked := true, held := true })

/-- `profile_mutation_lock`, which does not wait. -/
def profileMutationLock : Call Errno Unit := do
  Proc.step fun c w =>
    let w := w.disturb c.others
    if c.fault then (.error .io, w) else (.ok (), { w with mutationFile := true })
  sys

def procCancelled : Call ApplyError Bool := Proc.step fun c w => (.ok c.cancelled, w.disturb c.others)

/-- What the plan asks for. -/
def applyPlan (plan : ApplyPlan) : Call ApplyError Unit :=
  if plan.action = .create then applyCreate env desired dir else applyConfigure env desired dir plan

/-- The section under both locks. -/
def applyWrite (plan : ApplyPlan) : Call ApplyError Report := do
  match ← Proc.attempt profileMutationLock with
  | .error _ => refuse .failed (ascii "another " ++ desired.name ++ ascii " profile mutation is running")
  | .ok () => do
    applyPlan env desired dir plan
    match ← Proc.attempt (applyReport desired plan false) with
    | .ok report => return report
    | .error e => refuse .unconfirmed e.message

/-- The section under the lifecycle lock. -/
def applyLocked : Call ApplyError Report := do
  if ← procCancelled then refuse .cancelled (ascii "cancelled before changing settings")
  else do
    let plan ← applyEvaluate env desired dir true
    if plan.action = .none then applyReport desired plan false else applyWrite env desired dir plan

/-- `m`, and the locks are released however it ended. -/
def releasing {α : Type} (m : Call ApplyError α) : Call ApplyError α := do
  let r ← Proc.attempt m
  Proc.note fun w => { w with locked := false }
  match r with
  | .ok a => return a
  | .error e => Proc.fail e

/-- The call from the first evaluation on. -/
def applySettings (dryRun : Bool) : Call ApplyError Report := do
  let plan ← applyEvaluate env desired dir dryRun
  if dryRun ∨ plan.action = .none then applyReport desired plan dryRun
  else
    match ← Proc.attempt vmLifecycleLockAcquire with
    | .error _ => refuse .failed (ascii "cannot lock the " ++ desired.name ++ ascii " profile lifecycle")
    | .ok () => releasing (applyLocked env desired dir)

end

/-- The file that holds a definition: it cannot be opened, is no regular file, or holds a text. -/
inductive DefinitionFile where
  | unopened (errno : Errno)
  | irregular
  | regular (text : Bytes)
  deriving DecidableEq, Repr

/-- `definition_read`. -/
def definitionRead (env : Env) (path : Bytes) (file : DefinitionFile) : Call ApplyError Bytes := do
  let cannotRead {α : Type} (errno : Errno) : Call ApplyError α :=
    refuse .invalid (ascii "cannot read the profile definition " ++ path ++ ascii ": " ++ env.strerror errno)
  let irregular {α : Type} : Call ApplyError α :=
    refuse .invalid (ascii "the profile definition " ++ path ++ ascii " is not a regular file")
  match ← Proc.attempt sys, file with
  | .error errno, _ => cannotRead errno
  | .ok (), .unopened errno => cannotRead errno
  | .ok (), .irregular => irregular
  | .ok (), .regular text =>
    match ← Proc.attempt sys with
    | .error _ => irregular
    | .ok () =>
      match ← Proc.attempt sys with
      | .error errno => cannotRead errno
      | .ok () =>
        if text.length ≥ PROFILE_DEFINITION_CAP + 1 then
          refuse .invalid (ascii "the profile definition " ++ path ++ ascii " is larger than 65536 bytes")
        else return text

/-- The reason of a definition that is refused. -/
def definitionReason (env : Env) : Refusal → Bytes
  | .memory => env.strerror .nomem
  | .rule none => env.strerror .inval
  | .rule (some reason) => reason

/-- The settings that a definition file asks for, with every check before the profile directory is looked at. -/
def desiredProfile (env : Env) (name path : Bytes) (file : DefinitionFile) : Call ApplyError Profile := do
  if path = [] ∨ profileNameValid name = false then
    refuse .invalid (ascii "vm apply requires a valid profile name and a definition file")
  else do
    let text ← definitionRead env path file
    match profileDefinitionParse env.yaml env.cjson text with
    | .error refusal => refuse .invalid (ascii "invalid profile definition: " ++ definitionReason env refusal)
    | .ok desired =>
      if desired.name ≠ name then
        refuse .invalid (ascii "the definition names profile " ++ desired.name ++ ascii " but --profile is " ++ name)
      else if desired.rosetta then
        refuse .invalid (ascii "invalid profile definition: Rosetta support was removed; set rosetta: false")
      else
        match profileText env.yaml env.cjson desired with
        | .error .overflow =>
          refuse .invalid (ascii
            "invalid profile definition: its settings do not fit in config.yaml, which holds 65536 bytes")
        | .error _ =>
          refuse .invalid (ascii
            "invalid profile definition: a setting holds a character that config.yaml cannot store")
        | .ok _ => return desired

/-- `hamn_control_apply`. -/
def hamnControlApply (env : Env) (name path : Bytes) (file : DefinitionFile) (dryRun : Bool) :
    Call ApplyError Report := do
  let desired ← desiredProfile env name path file
  match ← Proc.attempt (profileLocate env desired.name) with
  | .error errno =>
    refuse .failed (ascii "cannot locate profile " ++ desired.name ++ ascii ": " ++ env.strerror errno)
  | .ok dir => applySettings env desired dir dryRun

end Hamn.Host
