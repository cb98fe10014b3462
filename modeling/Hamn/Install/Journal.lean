import Hamn.Install.Files

/-!
# Install.Journal — the durable update journal and its recovery

The functions of `control/install_support/journal.rs` on the disk of `Install.Files`.

* `load`: what a journal directory says, or that it is of an older version or not a journal.
* `prepare`, `recordTarget`, `commitSelection`, `retire`: the steps of an update.
* `rollback`: recovery of the recorded selection and command link.
* `cleanupRetired`, `cleanupDeferred`: removal of finished journals.
-/

namespace Hamn.Install

open Posix Crash Bytes
open Crash.Proc hiding attempt pure bind

def NAME : Bytes := ascii ".hamn-update-transaction"

def ENTRIES : List String := ["state", "attempt", "new-selection", "previous-selection", "old-target", "new-target"]

/-! ## Paths -/

namespace Env

variable (env : Env)

def cacheDir : Loc := ⟨.cache env.cache, []⟩

def journal : Loc := env.cacheDir.sub NAME

def selection : Loc := env.cacheDir.sub (ascii "guest-image.json")

end Env

def bindir : Loc := ⟨.bin, []⟩

def link : Loc := bindir.sub (ascii "hamn")

def datadir : Loc := ⟨.data, []⟩

def generations : Loc := ⟨.gens, []⟩

/-- `bin/hamn` of a generation. -/
def binary (generation : Loc) : Loc := (generation.sub (ascii "bin")).sub (ascii "hamn")

/-! ## Targets -/

/-- `<64 lowercase hex>-<6 [A-Za-z0-9]>`. -/
def generationName (name : Bytes) : Bool :=
  name.length == 71 && (name.take 64).all isLowerHex && name[64]? == some (byte '-') &&
    (name.drop 65).all isAlphanumeric

/-- The path text of a generation's `bin/hamn`. -/
def targetOf (env : Env) (name : Name) : Bytes :=
  env.roots.datadir ++ ascii "/.hamn-generations/" ++ name ++ ascii "/bin/hamn"

/-- The generation name in a target text, valid or not. -/
def targetName (env : Env) (target : Bytes) : Option Name :=
  (stripPrefix (env.roots.datadir ++ ascii "/.hamn-generations/") target).bind (stripSuffix (ascii "/bin/hamn"))

def managedTarget (env : Env) (d : Disk) (target : Bytes) : Bool :=
  safeDirectory d datadir && Utf8.valid env.roots.datadir &&
    match targetName env target with
    | none => false
    | some name => generationName name && safeRegular d (binary (generations.sub name))

/-- The generation directory two levels above a target. -/
def targetGeneration (env : Env) (target : Bytes) : Except Failure Loc :=
  match targetName env target with
  | some name => .ok (generations.sub name)
  | none => .error (.text "missing parent")

/-! ## Reading a journal -/

/-- `journal::Journal`. -/
structure Journal where
  bootstrap : Bool
  selectionPresent : Bool
  hostMutation : Bool
  attempt : Bytes
  oldTarget : Option Bytes
  newTarget : Option Bytes
  deriving DecidableEq, Repr

inductive Loaded where
  | valid (journal : Journal)
  /-- A version 1 or 2 journal. -/
  | legacy (version : ℕ)
  | invalid
  deriving DecidableEq, Repr

def Loaded.isValid : Loaded → Bool
  | .valid _ => true
  | _ => false

/-- What the `state` file says. -/
inductive StateText where
  | legacy (version : ℕ)
  | fields (bootstrap selectionPresent hostMutation : Bool)
  | malformed
  deriving DecidableEq

/-- The line `index`, which has to be `key` and one of the `values`: the position of that value. -/
def stateField (ls : List Bytes) (index : ℕ) (key : String) (values : List String) : Option ℕ := do
  let value ← stripPrefix (ascii key) (← ls[index]?)
  (values.map ascii).findIdx? (· == value)

def parseState (state : Bytes) : StateText :=
  if (ascii "version=1\n").isPrefixOf state then .legacy 1
  else if (ascii "version=2\n").isPrefixOf state then .legacy 2
  else
    let ls := state.splitOn newline
    match stateField ls 0 "version=" ["3"], stateField ls 1 "bootstrap=" ["0", "1"],
      stateField ls 2 "selection=" ["absent", "present"], stateField ls 3 "hostMutation=" ["0", "1"], ls.length with
    | some 0, some b, some s, some h, 4 => .fields (b == 1) (s == 1) (h == 1)
    | _, _, _, _, _ => .malformed

/-- The `new-target` file: `none` when it is malformed. -/
def recordedTarget (env : Env) (d : Disk) (file : Loc) (newTarget : Bytes) : Except Failure (Option (Option Bytes)) := do
  let length ← len d file
  if newTarget = [] then .ok (if length ≠ 0 then none else some none)
  else .ok (if !managedTarget env d newTarget || length ≠ newTarget.length + 1 then none else some (some newTarget))

/-- The `old-target` file: `none` when it is not as it should be. -/
def previousTarget (env : Env) (d : Disk) (file : Loc) (bootstrap : Bool) : Except Failure (Option (Option Bytes)) :=
  if bootstrap then .ok (if absent d file then some none else none)
  else if !safePrivateRegular d file then .ok none
  else do
    let old ← line d file 4096
    .ok (if newline ∈ old || !managedTarget env d old then none else some (some old))

def loadChecked (env : Env) (d : Disk) (directory : Loc) : Except Failure Loaded :=
  let file name := directory.sub (ascii name)
  if !safePrivateDirectory d directory || !safePrivateRegular d (file "state") then .ok .invalid
  else do
    let state ← line d (file "state") 4096
    match parseState state with
    | .legacy version => .ok (.legacy version)
    | .malformed => .ok .invalid
    | .fields bootstrap selectionPresent hostMutation =>
      if !(["attempt", "new-selection", "new-target"].all fun name => safePrivateRegular d (file name)) then .ok .invalid
      else do
        let attempt ← line d (file "attempt") 64
        let newTarget ← line d (file "new-target") 4096
        match ← recordedTarget env d (file "new-target") newTarget with
        | none => .ok .invalid
        | some newTarget =>
          if !attemptValid attempt || (bootstrap && !hostMutation) || (!hostMutation && newTarget.isSome) then
            .ok .invalid
          else if selectionPresent != safePrivateRegular d (file "previous-selection") ||
              (!selectionPresent && !absent d (file "previous-selection")) then .ok .invalid
          else do
            match ← previousTarget env d (file "old-target") bootstrap with
            | none => .ok .invalid
            | some oldTarget =>
              let entries ← readDir d directory
              if entries.length ≠ 4 + (!bootstrap).toNat + selectionPresent.toNat then .ok .invalid
              else .ok (.valid ⟨bootstrap, selectionPresent, hostMutation, attempt, oldTarget, newTarget⟩)

/-- Reads and validates a journal directory. -/
def load (env : Env) (d : Disk) (directory : Loc) : Loaded :=
  match loadChecked env d directory with
  | .ok loaded => loaded
  | .error _ => .invalid

/-! ## Preparing -/

def writePrivate (l : Loc) (content : Bytes) : Act Unit := create l content 0o600

/-- Removes a journal stage by its known names. -/
def discardStage (stage : Loc) : Act Unit := do
  if ← look fun d => safePrivateDirectory d stage then
    each (fun name => ignore (removeFile (stage.sub (ascii name)))) ENTRIES
    ignore (removeDir stage)
  else return ()

/-- What a new transaction records before it changes anything. -/
structure Plan where
  bootstrap : Bool
  hostMutation : Bool
  oldTarget : Option Bytes
  newSelection : Bytes

def stateText (bootstrap selectionPresent hostMutation : Bool) : Bytes :=
  ascii "version=3\nbootstrap=" ++ decimal bootstrap.toNat ++ ascii "\nselection=" ++
    ascii (if selectionPresent then "present" else "absent") ++ ascii "\nhostMutation=" ++
    decimal hostMutation.toNat ++ [newline]

/-- The previous selection, if there is one; whether there is. -/
def recordSelection (env : Env) (stage : Loc) : Act Bool := do
  if ← look fun d => absent d env.selection then return false
  else do
    check (fun d => safeRegular d env.selection) "unsafe guest image selection"
    let content ← query fun d => read d env.selection
    writePrivate (stage.sub (ascii "previous-selection")) content
    return true

/-- The active target, which the generation it names has to remember first. -/
def recordPrevious (env : Env) (plan : Plan) (stage : Loc) : Act Unit :=
  if plan.bootstrap then return ()
  else
    match plan.oldTarget with
    | none => fail (.text "missing previous target")
    | some old => do
      check (fun d => managedTarget env d old) "unsafe previous target"
      let generation ← query fun _ => targetGeneration env old
      recoveryRoot env generation
      writePrivate (stage.sub (ascii "old-target")) (old ++ [newline])

/-- The stage filled, flushed and renamed. -/
def prepareStage (env : Env) (plan : Plan) (stage : Loc) (attempt : Bytes) : Act Journal := do
  check (fun d => safePrivateDirectory d stage) "unsafe journal stage"
  let selectionPresent ← recordSelection env stage
  recordPrevious env plan stage
  writePrivate (stage.sub (ascii "new-selection")) plan.newSelection
  writePrivate (stage.sub (ascii "state")) (stateText plan.bootstrap selectionPresent plan.hostMutation)
  writePrivate (stage.sub (ascii "new-target")) []
  writePrivate (stage.sub (ascii "attempt")) (attempt ++ [newline])
  renameExclusive stage env.journal
  match ← look fun d => load env d env.journal with
  | .valid journal =>
    if journal.attempt = attempt then return journal else fail (.text "published journal does not validate")
  | _ => fail (.text "published journal does not validate")

/-- Publishes a complete journal and returns it as loaded back. -/
def prepare (env : Env) (plan : Plan) : Act Journal := do
  check (fun d => absent d env.journal) "another update transaction is already active"
  let (stage, attempt) ← tempDirectory env.cacheDir (NAME ++ ascii ".")
  match ← Proc.attempt (prepareStage env plan stage attempt) with
  | .ok journal => return journal
  | .error e => do
    if ← look fun d => exists' d stage then discardStage stage
    fail e

/-! ## Recording the attempt -/

/-- A file in the cache that `publication` writes under a temporary name and puts in place; a failure removes it. -/
def staged (env : Env) (pre : String) (publication : Loc → Act Unit) : Act Unit := do
  let (stage, _) ← tempFile env.cacheDir (ascii pre)
  match ← Proc.attempt (publication stage) with
  | .ok () => return ()
  | .error e => do
    ignore (removeFile stage)
    fail e

/-- Durably records the attempted generation target, before its link is published. -/
def recordTarget (env : Env) (target : Bytes) : Act Unit := do
  let generation ← query fun _ => targetGeneration env target
  recoveryRoot env generation
  let recorded := env.journal.sub (ascii "new-target")
  staged env ".hamn-target." fun stage => do
    writeAll stage (target ++ [newline])
    touch
    rename stage recorded
    check (fun d => safePrivateRegular d recorded && decide (read d recorded = .ok (target ++ [newline])))
      "attempted target was not recorded"

/-- Replaces the selection with a verified private copy of `source`. -/
def installSelection (env : Env) (source : Loc) (pre : String) : Act Unit := do
  let content ← query fun d => read d source
  staged env pre fun stage => do
    writeAll stage content
    touch
    let copied ← query fun d => read d stage
    if copied = content then rename stage env.selection else fail (.text "staged selection differs")
  check (fun d => safeRegular d env.selection && decide (read d env.selection = .ok content))
    "selection was not committed"

/-- Makes the journal's new selection the active guest image selection. -/
def commitSelection (env : Env) : Act Unit := do
  check (fun d => (load env d env.journal).isValid) "unsafe journal"
  installSelection env (env.journal.sub (ascii "new-selection")) ".guest-image.json.update."

/-! ## Rolling back -/

def restoreSelection (env : Env) (journal : Journal) : Act Unit :=
  if journal.selectionPresent then
    installSelection env (env.journal.sub (ascii "previous-selection")) ".guest-image.json.rollback."
  else do
    if ← look fun d => absent d env.selection then pure ()
    else do
      check (fun d => safeRegular d env.selection) "unsafe guest image selection"
      removeFile env.selection
    check (fun d => absent d env.selection) "selection was not removed"

/-- `rename` of a staged link to `old` over the command link. -/
def relink (old : Bytes) : Act Unit := do
  let (stage, _) ← tempDirectory bindir (ascii ".hamn-update-rollback.")
  let staged := stage.sub (ascii "hamn")
  let result ← Proc.attempt (do
    call (Disk.symlink old staged)
    touch
    rename staged link)
  ignore (removeFile staged)
  ignore (removeDir stage)
  raise result

def restoreLink (env : Env) (journal : Journal) : Act Unit :=
  if journal.bootstrap then return ()
  else
    match journal.oldTarget with
    | none => fail (.text "missing previous target")
    | some old => do
      check (fun d => managedTarget env d old) "unsafe previous target"
      check (fun d => isSymlink d link) "managed hamn link is missing"
      match ← look fun d => readLink d link with
      | none => fail (.text "cannot read managed hamn link")
      | some current =>
        if current = old then return ()
        else do
          check (fun d => managedTarget env d current) "unsafe active target"
          relink old
          check (fun d => decide (readLink d link = some old)) "rollback link was not restored"

/-- Whether the active link proves this journal's ownership. -/
def ownsActive (env : Env) (d : Disk) (journal : Journal) : Bool :=
  if absent d link then journal.bootstrap
  else if !isSymlink d link then false
  else
    match readLink d link with
    | none => false
    | some current =>
      managedTarget env d current &&
        ((!journal.bootstrap && decide (journal.oldTarget = some current)) ||
          (journal.hostMutation && decide (journal.newTarget = some current)))

/-- How a journal ends. -/
inductive Ending where
  | completed
  | recovered
  deriving DecidableEq, Repr

def Ending.word : Ending → Bytes
  | completed => ascii "completed"
  | recovered => ascii "recovered"

def retiredName (outcome : Ending) (attempt : Bytes) : Name :=
  ascii ".hamn-update-" ++ outcome.word ++ ascii "." ++ attempt

/-- Renames the valid active journal to `.hamn-update-<outcome>.<attempt>`. -/
def retire (env : Env) (outcome : Ending) : Act Unit := do
  match ← look fun d => load env d env.journal with
  | .valid journal => do
    let retired := env.cacheDir.sub (retiredName outcome journal.attempt)
    check (fun d => absent d retired) "retired journal already exists"
    touch
    renameExclusive env.journal retired
    check (fun d => absent d env.journal) "journal was not retired"
  | _ => fail (.text "unsafe journal")

/-- Why a rollback did not happen. -/
inductive RollbackError where
  | legacy (version : ℕ)
  /-- The diagnostics, one per line. -/
  | failed (lines : List String)
  deriving DecidableEq, Repr

def unowned : List String :=
  ["pending transaction does not own the active generation; preserving its journal and both selections",
   "the active generation is neither the journal's previous nor its attempted generation; automatic rollback cannot prove ownership",
   "manual review of the retained journal and generation history is required; retrying alone will not resolve this ambiguity"]

def restore (env : Env) (journal : Journal) : Act Unit := do
  restoreSelection env journal
  if journal.hostMutation then restoreLink env journal
  retire env .recovered

/-- Restores the recorded selection and command link, then retires the journal as recovered; the human summary. -/
def rollback {ε : Type} (env : Env) : Proc Cell Disk ε (Except RollbackError String) := do
  match ← look fun d => load env d env.journal with
  | .legacy version => return .error (.legacy version)
  | .invalid => return .error (.failed [])
  | .valid journal => do
    if ← look fun d => ownsActive env d journal then
      match ← Proc.attempt (restore env journal) with
      | .ok () => return .ok (if journal.bootstrap then
          "guest image selection was restored; no previous binary was recorded, so a published command may remain"
          else "prior binary and guest image selection were restored")
      | .error _ => return .error (.failed [])
    else return .error (.failed unowned)

/-! ## Cleaning up -/

/-- Removes one deferred cleanup directory, accepting only journal files. -/
def removeDeferred (deferred : Loc) : Act Unit := do
  check (fun d => safePrivateDirectory d deferred) "unsafe deferred journal"
  let entries ← query fun d => readDir d deferred
  check (fun d => entries.all fun name => (ENTRIES.map ascii).contains name && safePrivateRegular d (deferred.sub name))
    "unsafe deferred journal entry"
  each (fun name => removeOptional (deferred.sub (ascii name))) ENTRIES
  removeDir deferred

/-- The byte order of names. -/
local instance : DecidableRel (fun a b : Bytes => a ≤ b) := fun _ _ => inferInstance

/-- The entries of the cache whose name starts with `pre`, sorted. -/
def named (env : Env) (pre : String) : Act (List Name) := do
  let names ← query fun d => readDir d env.cacheDir
  return (names.filter fun name => Utf8.valid name && (ascii pre).isPrefixOf name).insertionSort (· ≤ ·)

/-- `<outcome>.<attempt>` after `pre`, with a known outcome. -/
def outcomeAttempt (name : Bytes) (pre : String) : Option (Ending × Bytes) := do
  let (outcome, attempt) ← splitOnce (byte '.') (← stripPrefix (ascii pre) name)
  if !attemptValid attempt then none
  else if outcome = Ending.completed.word then some (.completed, attempt)
  else if outcome = Ending.recovered.word then some (.recovered, attempt)
  else none

/-- Removes every `.hamn-update-cleanup.<outcome>.<attempt>` directory. -/
def cleanupDeferred (env : Env) : Act Unit := do
  let names ← named env ".hamn-update-cleanup."
  each (fun name => do
    check (fun _ => (outcomeAttempt name ".hamn-update-cleanup.").isSome) "unsafe deferred journal name"
    removeDeferred (env.cacheDir.sub name)) names

def cleanupName (outcome : Ending) (attempt : Bytes) : Name :=
  ascii ".hamn-update-cleanup." ++ outcome.word ++ ascii "." ++ attempt

/-- Why a retired journal could not be removed: it may be of version 1 or 2, and where it is. -/
structure CleanupError where
  legacy : Option (ℕ × Name)
  deriving DecidableEq, Repr

/-- One retired journal, moved to its cleanup name and removed. -/
def cleanupOne {ε : Type} (env : Env) (name : Name) : Proc Cell Disk ε (Except CleanupError Unit) :=
  match outcomeAttempt name ".hamn-update-" with
  | none => return .error ⟨none⟩
  | some (outcome, attempt) => do
    match ← look fun d => load env d (env.cacheDir.sub name) with
    | .legacy version => return .error ⟨some (version, name)⟩
    | .invalid => return .error ⟨none⟩
    | .valid _ => do
      let deferred := env.cacheDir.sub (cleanupName outcome attempt)
      if ← look fun d => absent d deferred then
        match ← Proc.attempt (do renameExclusive (env.cacheDir.sub name) deferred; removeDeferred deferred) with
        | .ok () => return .ok ()
        | .error _ => return .error ⟨none⟩
      else return .error ⟨none⟩

def cleanupEach {ε : Type} (env : Env) : List Name → Proc Cell Disk ε (Except CleanupError Unit)
  | [] => return .ok ()
  | name :: names => do
    match ← cleanupOne env name with
    | .ok () => cleanupEach env names
    | .error e => return .error e

/-- Moves each valid retired journal to its cleanup name and removes it. -/
def cleanupRetired {ε : Type} (env : Env) : Proc Cell Disk ε (Except CleanupError Unit) := do
  match ← Proc.attempt (ε := Failure) (do return (← named env ".hamn-update-completed.") ++ (← named env ".hamn-update-recovered.")) with
  | .error _ => return .error ⟨none⟩
  | .ok retired => cleanupEach env retired

end Hamn.Install
