import Hamn.Install.Generation

/-!
# Install.Update — the update transaction

`transaction` of `control/install_support/update.rs`: recovery of an interrupted update, then a new one from the
journal to the committed selection and its cleanup.  What the release manifest, the receipt of the installed
generation and the downloads decide is a `Decision` of the environment; the downloads themselves only change
`downloads` in the cache.
-/

namespace Hamn.Install

open Posix Crash Bytes
open Crash.Proc hiding attempt pure bind

/-- Why an update ended early (`update::Stop`). -/
inductive Stop where
  | fail (message : String)
  | signal (signal : ℕ)
  deriving DecidableEq, Repr

abbrev Step := Proc Cell Disk Stop

/-- `m`, whose failure is reported as `message`. -/
def orFail {α : Type} (m : Act α) (message : String) : Step α := do
  match ← Proc.attempt m with
  | .ok a => return a
  | .error _ => fail (.fail message)

def checkStep (p : Disk → Bool) (message : String) : Step Unit :=
  query fun d => if p d then .ok () else .error (.fail message)

/-! ## The installation -/

structure Installation where
  bootstrap : Bool
  oldTarget : Option Bytes

/-- The managed installation without a first install: its roots, marker and command link have to be in order. -/
def refreshManaged (env : Env) (d : Disk) : Except Stop Installation :=
  if !safeDirectory d bindir then .error (.fail "unsafe managed binary directory")
  else if !safeDirectory d datadir then .error (.fail "unsafe managed data directory")
  else if !safeRegular d dataMarker then .error (.fail "managed data marker is missing or unsafe")
  else
    match line d dataMarker 4096 with
    | .error _ => .error (.fail "managed data marker is invalid")
    | .ok content =>
      if content = [] then .error (.fail "pre-release Hamn install (empty data marker), which is no longer migrated")
      else if content ≠ ascii "version=1" then .error (.fail "managed data marker is invalid")
      else if !isSymlink d link then .error (.fail "managed hamn link is missing")
      else
        match readLink d link with
        | none => .error (.fail "cannot read managed hamn link")
        | some target =>
          if !(env.roots.datadir ++ ascii "/.hamn-generations/").isPrefixOf target ||
              !(ascii "/bin/hamn").isSuffixOf target then
            .error (.fail "managed hamn link points outside its generation root")
          else if unmigratableReleasedLayout env d then
            .error (.fail "the command points to a Hamn 0.1.x generation that cannot be migrated")
          else .ok ⟨false, some target⟩

def refresh (env : Env) (bootstrapEntry : Bool) (d : Disk) : Except Stop Installation :=
  if bootstrapEntry && absent d link then .ok ⟨true, none⟩
  else if bootstrapEntry && !isSymlink d link then .error (.fail "not a managed Hamn generation link")
  else refreshManaged env d

/-! ## Recovery inside a transaction -/

/-- `interrupt::pending`. -/
def pendingSignal : Step (Option ℕ) := step fun c d => (.ok c.signal, d)

section

variable (env : Env)

/-- HUP, INT or TERM after the journal was published: roll back, then stop. -/
def interrupted {α : Type} (signal : ℕ) : Step α := do
  let _ ← rollback env
  fail (.signal signal)

/-- A recorded signal, checked between journaled steps. -/
def checkpoint : Step Unit := do
  match ← pendingSignal with
  | some signal => interrupted env signal
  | none => return ()

/-- Rolls back after a failed journaled step. -/
def rollBackAndFail {α : Type} (unapplied applied : String) : Step α := do
  match ← rollback env with
  | .ok summary => fail (.fail (applied ++ "; " ++ summary))
  | .error _ => fail (.fail unapplied)

/-- A test barrier inside the journaled transaction. -/
def journaledBarrier (unapplied applied : String) : Step Unit := do
  match ← Proc.attempt barrier with
  | .ok () => checkpoint env
  | .error (.interrupted signal) => interrupted env signal
  | .error _ => rollBackAndFail env unapplied applied

/-! ## Staging the guest image -/

/-- The file at `l`, made when it is missing. -/
def ensureFile (l : Loc) (mode : ℕ) : Act Unit := do
  if ← look fun d => absent d l then call (Disk.createFile mode l) else pure ()

/-- `fs::copy` to a file that is made, or emptied, first. -/
def copyOver (l : Loc) (content : Bytes) (mode : ℕ) : Act Unit := do
  ensureFile l mode
  writeAll l content
  call (Disk.chmod mode l)

def guestName (hash : Bytes) : Name := ascii "hamn-guest-" ++ hash ++ ascii ".img"

/-- The guest image selection that names the image `hash`. -/
def selectionText (hash : Bytes) : Bytes :=
  ascii "\x7b\"schemaVersion\":1,\"file\":\"" ++ guestName hash ++ ascii "\",\"sha256\":\"" ++ hash ++
    ascii "\"\x7d\n"

/-- A damaged image under the name of the wanted one is removed. -/
def discardDamaged (target : Loc) (hash : Bytes) : Step Unit := do
  if ← look fun d => absent d target then return ()
  else do
    checkStep (fun d => safeRegular d target) "cached guest image is unsafe"
    if ← look fun d => digestIs env d target hash then return ()
    else orFail (removeFile target) "cannot remove damaged owned guest image"

/-- The download, copied under the image's own name unless it is there. -/
def copyGuest (target : Loc) (download hash : Bytes) : Step Unit := do
  if ← look fun d => absent d target then do
    let stage := env.cacheDir.sub (ascii ".hamn-guest-" ++ hash ++ ascii ".img.update." ++ decimal env.pid)
    ignore (removeFile stage)
    match ← Proc.attempt (do
        copyOver stage download 0o644
        check (fun d => digestIs env d stage hash) "staged guest image SHA-256 mismatch"
        rename stage target) with
    | .ok () => return ()
    | .error _ => do
      ignore (removeFile stage)
      fail (.fail "staged guest image SHA-256 mismatch")
  else return ()

/-- The `.verified` marker of a guest image. -/
def markVerified (hash : Bytes) : Act Unit := do
  let (stage, _) ← tempFile env.cacheDir (ascii ".hamn-guest-" ++ hash ++ ascii ".img.verified.")
  match ← Proc.attempt (do
      writeAll stage (hash ++ [newline])
      call (Disk.chmod 0o644 stage)
      rename stage (env.cacheDir.sub (guestName hash ++ ascii ".verified"))) with
  | .ok () => return ()
  | .error e => do
    ignore (removeFile stage)
    fail e

/-- Stages the verified guest image with its `.verified` marker; the selection to commit. -/
def stageGuest (download hash : Bytes) : Step Bytes := do
  let target := env.cacheDir.sub (guestName hash)
  discardDamaged env target hash
  copyGuest env target download hash
  checkStep (fun d => safeRegular d target) "staged guest image is unsafe"
  checkStep (fun d => digestIs env d target hash) "cached guest image SHA-256 mismatch"
  orFail (markVerified env hash) "cannot stage guest image verification marker"
  return selectionText hash

/-! ## The transaction -/

/-- What the manifest, the receipt and the downloads decide. -/
inductive Decision where
  /-- The update is refused or nothing can be downloaded. -/
  | refused (message : String)
  /-- The installed release is the offered one. -/
  | upToDate
  /-- The guest image `guest` of digest `guestHash`, and the host payload with its receipt text unless only the
  selection is repaired. -/
  | install (host : Option (Payload × Bytes)) (guest guestHash : Bytes)

/-- One download: whatever it leaves in `downloads`. -/
def acquire (tree : Option Node) : Step Unit :=
  step fun c d =>
    (if c.fails then .error (.fail "could not download") else .ok (),
      d.alter (env.cacheDir.sub (ascii "downloads")) fun _ => tree)

/-- The cache directory, created if it is missing. -/
def createCache : Step Unit := do
  if ← look fun d => isDirectory d env.cacheDir then return () else ignore (directory env.cacheDir 0o755)

/-- `runtime_directory` for the cache. -/
def runtimeDirectory : Step Unit := do
  createCache env
  checkStep (fun d => isOwned d env.cacheDir true (some 0o755)) "unsafe Hamn image cache"

/-- The cleanup of retired journals before anything new. -/
def recoverRetired : Step Unit := do
  match ← cleanupRetired env with
  | .ok () => return ()
  | .error ⟨some _⟩ => fail (.fail "a finished update journal from Hamn 0.1.2 or earlier remains")
  | .error ⟨none⟩ => fail (.fail "a retired update transaction is unsafe or could not be cleaned")

/-- The rollback of an interrupted update. -/
def recoverPending : Step Unit := do
  if ← look fun d => absent d env.journal then return ()
  else
    match ← rollback env with
    | .ok _ => return ()
    | .error (.legacy _) => fail (.fail "an interrupted update from Hamn 0.1.2 or earlier left a journal")
    | .error (.failed _) => fail (.fail "previous update recovery failed; no new update was installed")

/-- The cleanup of the journal that was just recovered. -/
def recoverRecovered : Step Unit := do
  match ← cleanupRetired env with
  | .ok () => return ()
  | .error _ => fail (.fail "the recovered update transaction could not be cleaned")

/-- The removal of finished journals and the recovery of an interrupted one, before anything new. -/
def recover : Step Unit := do
  orFail (cleanupDeferred env) "a deferred update transaction cleanup is unsafe or could not be cleaned"
  recoverRetired env
  recoverPending env
  recoverRecovered env
  orFail (cleanupDeferred env) "the recovered transaction cleanup is unsafe or could not be cleaned"

/-- The new generation behind the command link. -/
def installJournaled (payload : Payload) (attempt : Bytes) : Step Unit := do
  match ← Proc.attempt (install env payload (some attempt)) with
  | .ok _ => return ()
  | .error (.interrupted signal) => interrupted env signal
  | .error _ =>
    rollBackAndFail env "host install failed and the recovery journal could not be applied" "host install failed"

/-- The active target, if the link and the journal name it and it has the offered binary. -/
def installedTarget (payload : Payload) (d : Disk) : Except Failure Bytes :=
  match readLink d link, load env d env.journal with
  | some installed, .valid journal =>
    if decide (journal.newTarget = some installed) && managedTarget env d installed &&
        (targetName env installed).any fun name =>
          digestIs env d (binary (generations.sub name)) (env.sha256 payload.binary.content) then .ok installed
    else .error (.text "installed generation differs")
  | _, _ => .error (.text "installed generation differs")

/-- The receipt of the new generation. -/
def writeReceipt (payload : Payload) (receipt : Bytes) : Act Unit := do
  let installed ← query (installedTarget env payload)
  touch
  let generation ← query fun _ => targetGeneration env installed
  publish env.pid (generation.sub (ascii ".hamn-release.json")) receipt

def receiptJournaled (payload : Payload) (receipt : Bytes) : Step Unit := do
  match ← Proc.attempt (writeReceipt env payload receipt) with
  | .ok () => return ()
  | .error _ => do
    match ← rollback env with
    | .ok _ => fail (.fail "release receipt failed; update transaction recovered")
    | .error _ => fail (.fail "release receipt failed and recovery could not be applied")

/-- The new generation, and its receipt once the link and the journal name it. -/
def installHost (payload : Payload) (receipt : Bytes) (attempt : Bytes) : Step Unit := do
  installJournaled env payload attempt
  checkpoint env
  journaledBarrier env "update interruption barrier failed and the recovery journal could not be applied"
    "update interruption barrier failed"
  receiptJournaled env payload receipt
  checkpoint env

def hostJournaled (host : Option (Payload × Bytes)) (attempt : Bytes) : Step Unit :=
  match host with
  | none => return ()
  | some (payload, receipt) => installHost env payload receipt attempt

/-- `m`, or a rollback. -/
def orRollBack (m : Act Unit) (unapplied applied : String) : Step Unit := do
  match ← Proc.attempt m with
  | .ok () => return ()
  | .error _ => rollBackAndFail env unapplied applied

def selectionBarrier : Step Unit := do
  match ← Proc.attempt barrier with
  | .ok () => checkpoint env
  | .error (.interrupted signal) => interrupted env signal
  | .error _ => do
    match ← rollback env with
    | .ok _ => fail (.fail "guest selection barrier failed")
    | .error _ => fail (.fail "guest selection barrier recovery failed")

/-- From the published journal to the retired one. -/
def commit (host : Option (Payload × Bytes)) (attempt : Bytes) : Step Unit := do
  journaledBarrier env "prepared transaction barrier recovery failed" "prepared transaction barrier failed"
  hostJournaled env host attempt
  orRollBack env (commitSelection env) "guest image commit failed and the recovery journal could not be applied"
    "guest image commit failed"
  checkpoint env
  selectionBarrier env
  orRollBack env (retire env .completed) "update commit could not clear its recovery journal"
    "update commit metadata could not be cleared"

/-- What is left to do once the update is committed; the notes for what had to be deferred. -/
def finish : Step (List String) := do
  orFail barrier "update completion barrier failed; the completed transaction is safely retired"
  let retired ← cleanupRetired env
  let deferred ← Proc.attempt (cleanupDeferred env)
  return (match retired with
    | .ok () => []
    | .error _ => ["completed transaction cleanup is deferred; the committed binary and guest image selection are active"]) ++
    match deferred with
    | .ok () => []
    | .error _ => ["completed transaction cleanup remains deferred; the committed binary and guest image selection are active"]

/-- The downloads of the host archive, when there is a host payload, and of the guest image. -/
def acquireAll (host : Option (Payload × Bytes)) (trees : Option Node × Option Node) : Step Unit := do
  match host with
  | none => acquire env trees.2
  | some _ => do
    acquire env trees.1
    acquire env trees.2

/-- The update from the downloads on. -/
def apply (installation : Installation) (host : Option (Payload × Bytes)) (guest guestHash : Bytes)
    (trees : Option Node × Option Node) : Step (List String) := do
  acquireAll env host trees
  checkStep (fun _ => decide (env.sha256 guest = guestHash)) "guest image SHA-256 mismatch"
  let newSelection ← stageGuest env guest guestHash
  match ← Proc.attempt (prepare env ⟨installation.bootstrap, host.isSome, installation.oldTarget, newSelection⟩) with
  | .error _ => fail (.fail "cannot record a durable update rollback transaction")
  | .ok prepared => do
    commit env host prepared.attempt
    finish env

/-- The update transaction, under its locks, up to the collection of what is no longer used. -/
def transaction (bootstrap : Bool) (decision : Decision) (trees : Option Node × Option Node) : Step (List String) := do
  let _ ← query (refresh env bootstrap)
  runtimeDirectory env
  orFail (lockFile (env.cacheDir.sub (ascii ".hamn-upgrade.lock"))) "cannot lock the update cache"
  recover env
  let installation ← query (refresh env bootstrap)
  checkStep (fun d => installation.oldTarget.all (managedTarget env d)) "recovered hamn link is unsafe"
  match decision with
  | .refused message => fail (.fail message)
  | .upToDate => return []
  | .install host guest guestHash => apply env installation host guest guestHash trees

end

end Hamn.Install
