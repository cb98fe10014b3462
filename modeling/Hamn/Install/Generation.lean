import Hamn.Install.Journal

/-!
# Install.Generation — the host installer

The functions of `control/install_support/generation.rs`: what makes a generation valid, and `install`, which
stages a new generation, marks it last, records its target in the update journal and only then replaces the command
link by one rename.
-/

namespace Hamn.Install

open Posix Crash Bytes
open Crash.Proc hiding attempt pure bind

/-! ## Markers -/

def MARKER : Name := ascii ".hamn-generation"

def POINTER : String := "update-manifest-url"

/-- `files::path_hash`. -/
def pathHash (env : Env) (path : Bytes) : Bytes := env.sha256 (path ++ [0])

def utf8 (path : Bytes) : Except Failure Bytes :=
  if Utf8.valid path then .ok path else .error (.text "installation path is not UTF-8")

def layoutMarkerText (env : Env) (layout : String) (binarySha256 : Bytes) : Except Failure Bytes := do
  let bindir ← utf8 env.roots.bindir
  let datadir ← utf8 env.roots.datadir
  .ok (ascii "version=" ++ ascii layout ++ ascii "\nbinary_sha256=" ++ binarySha256 ++ ascii "\nbindir_id=" ++
    pathHash env bindir ++ ascii "\ndatadir_id=" ++ pathHash env datadir ++ ascii "\n")

/-- The ownership marker text of a generation of `binarySha256`. -/
def markerText (env : Env) : Bytes → Except Failure Bytes := layoutMarkerText env "2"

/-- The marker text that Hamn 0.1.x wrote. -/
def releasedMarkerText (env : Env) : Bytes → Except Failure Bytes := layoutMarkerText env "1"

def markerKeys : List Bytes := [ascii "version", ascii "binary_sha256", ascii "bindir_id", ascii "datadir_id"]

/-- The values of the four keys; a line without `=`, an unknown key or a key given twice spoils the marker. -/
def markerValues (content : Bytes) : Option (List (Option Bytes)) :=
  (lines content).foldlM (fun values line => do
    let (key, value) ← splitOnce (byte '=') line
    let index ← markerKeys.findIdx? (· == key)
    if (values.getD index none).isSome then none else some (values.set index (some value))) [none, none, none, none]

section

variable (env : Env) (d : Disk)

/-- An owned marker of `layout` naming exactly this binary digest and these roots. -/
def markerValid (generation : Loc) (layout : String) (expectedHash : Bytes) : Bool :=
  isOwned d (generation.sub MARKER) false (some 0o600) &&
    match text d (generation.sub MARKER) with
    | .error _ => false
    | .ok content =>
      Utf8.valid env.roots.bindir && Utf8.valid env.roots.datadir &&
        decide (markerValues content = some [some (ascii layout), some expectedHash,
          some (pathHash env env.roots.bindir), some (pathHash env env.roots.datadir)])

/-- `files::digest`. -/
def digest (l : Loc) : Except Failure Bytes := (read d l).map env.sha256

def digestIs (l : Loc) (hash : Bytes) : Bool := decide (digest env d l = .ok hash)

/-- A complete generation of `expectedHash` owned by these roots. -/
def generationValid (generation : Loc) (expectedHash : Bytes) : Bool :=
  isOwned d generation true (some 0o755) && isOwned d (generation.sub (ascii "bin")) true none &&
    isOwned d (binary generation) false (some 0o755) && digestIs env d (binary generation) expectedHash &&
    markerValid env d generation "2" expectedHash

def isDirectory (l : Loc) : Bool :=
  match d.find l with
  | .ok n => n.isDir
  | .error _ => false

/-- A regular file that someone may execute. -/
def isExecutable (l : Loc) : Bool :=
  match d.find l with
  | .ok n => n.isFile && n.attr.mode &&& 0o111 != 0
  | .error _ => false

/-- A Hamn 0.1.x generation of `expectedHash` owned by these roots. -/
def releasedGenerationValid (generation : Loc) (expectedHash : Bytes) : Bool :=
  let source := ((generation.sub (ascii "share")).sub (ascii "hamn")).sub (ascii "src")
  isOwned d generation true (some 0o755) && isOwned d (binary generation) false (some 0o755) &&
    digestIs env d (binary generation) expectedHash && isDirectory d (source.sub (ascii "scripts")) &&
    isDirectory d (source.sub (ascii "packaging")) &&
    isExecutable d ((source.sub (ascii "scripts")).sub (ascii "update-host.sh")) &&
    markerValid env d generation "1" expectedHash

/-- The generation directory that `target` names, with the digest in its name. -/
def namedGeneration (target : Bytes) : Option (Loc × Bytes) :=
  (targetName env target).bind fun name =>
    if generationName name then some (generations.sub name, name.take 64) else none

/-- The target of the command link when it names a valid generation of these roots. -/
def managedLinkValid : Option Bytes := do
  let target ← readLink d link
  let (generation, hash) ← namedGeneration env target
  if generationValid env d generation hash || releasedGenerationValid env d generation hash then some target else none

/-- The `version=` that a marker claims. -/
def markerVersion (generation : Loc) : Option Bytes :=
  match read d (generation.sub MARKER) with
  | .error _ => none
  | .ok content =>
    if content.length ≤ 4096 && Utf8.valid content then (lines content).findSome? (stripPrefix (ascii "version="))
    else none

/-- Whether the command link names a 0.1.x generation that cannot be migrated. -/
def unmigratableReleasedLayout : Bool :=
  match readLink d link with
  | none => false
  | some target =>
    match namedGeneration env target with
    | none => false
    | some (generation, _) =>
      decide (markerVersion d generation = some (ascii "1")) && (managedLinkValid env d).isNone

/-! ## The roots -/

def dataMarker : Loc := datadir.sub (ascii ".hamn-managed")

def dataMarkerValid (l : Loc) : Bool :=
  (match d.find l with
    | .ok n => n.isFile && n.attr.own && n.attr.nlink == 1 && (n.attr.mode == 0o600 || n.attr.mode == 0o644)
    | .error _ => false) &&
  decide (line d l 4096 = .ok (ascii "version=1"))

/-- Parent directories of the roots: owned, 0700 or 0755. -/
def safeParent (l : Loc) : Bool := isOwned d l true (some 0o700) || isOwned d l true (some 0o755)

def pathContains (container candidate : Bytes) : Bool :=
  decide (container = ascii "/") || decide (candidate = container) || (container ++ ascii "/").isPrefixOf candidate

/-- `refuse_overlap`: neither canonical root may contain the other. -/
def overlap : Bool :=
  pathContains env.roots.bindir env.roots.datadir || pathContains env.roots.datadir env.roots.bindir

/-- Whether the data root is already managed. -/
def dataState : Except Failure Bool :=
  let ownedRoot (state : Bool) : Except Failure Bool :=
    if isOwned d datadir true (some 0o755) then .ok state
    else .error (.text "refusing writable or foreign data directory")
  if absent d datadir then .ok false
  else if !isDirectory d datadir then .error (.text "refusing non-directory data path")
  else if !absent d dataMarker then
    if dataMarkerValid d dataMarker then ownedRoot true
    else if decide (read d dataMarker = .ok []) then
      .error (.text "pre-release Hamn install (empty data marker), which this installer no longer migrates")
    else .error (.text "refusing invalid data management marker")
  else
    match readDir d datadir with
    | .error e => .error e
    | .ok [] => ownedRoot false
    | .ok (_ :: _) => .error (.text "refusing to modify unmanaged data directory")

end

/-! ## Installing -/

/-- The files a generation is made from. -/
structure Payload where
  binary : Node
  /-- The release manifest pointer; source builds have none. -/
  pointer : Option Node

/-- `directory(path, mode)`. -/
def directory (l : Loc) (mode : ℕ) : Act Unit := do
  call (Disk.mkdir mode l)
  call (Disk.chmod mode l)

/-- `files::copy_new` of a regular file with this content. -/
def copyNew (content : Bytes) (destination : Loc) (mode : ℕ) : Act Unit := create destination content mode

/-- A lock file, created when it is missing, and locked. -/
def lockFile (l : Loc) : Act Unit := do
  if ← look fun d => absent d l then ignore (call (Disk.createFile 0o600 l))
  check (fun d => isOwned d l false (some 0o600)) "refusing unsafe lock path"
  touch

/-- A test barrier: it can fail, and a recorded signal ends it. -/
def barrier : Act Unit :=
  step fun c d =>
    match c.signal with
    | some signal => (.error (.interrupted signal), d)
    | none => if c.fails then (.error (.text "injected fault"), d) else (.ok (), d)

/-- The data marker, created atomically through a private stage. -/
def createDataMarker (env : Env) : Act Unit := do
  let (stage, _) ← tempDirectory ⟨.parent, []⟩ (ascii "." ++ env.roots.dataBase ++ ascii ".hamn-marker.")
  let result ← Proc.attempt (do
    check (fun d => safePrivateDirectory d stage) "unsafe data marker stage"
    create (stage.sub (ascii "marker")) (ascii "version=1\n") 0o600
    renameExclusive (stage.sub (ascii "marker")) dataMarker
    check (fun d => dataMarkerValid d dataMarker) "data marker was not created")
  ignore (removeFile (stage.sub (ascii "marker")))
  ignore (removeDir stage)
  raise result

/-- How the command link relates to the managed generations. -/
inductive CurrentLink where
  | absent
  | managed (target : Bytes) (identity : Attr)

def linkIdentity (d : Disk) : Option Attr :=
  match d.find link with
  | .ok n => some n.attr
  | .error _ => none

def CurrentLink.previous : CurrentLink → Option Bytes
  | absent => none
  | managed target _ => some target

def currentLink (env : Env) (managed : Bool) (d : Disk) : Except Failure CurrentLink :=
  if absent d link then .ok .absent
  else if !isSymlink d link then
    .error (.text "refusing to replace the command: it is not a managed Hamn generation link")
  else
    match managedLinkValid env d, linkIdentity d with
    | some target, some identity =>
      if managed then .ok (.managed target identity)
      else .error (.text "managed hamn symlink has no data ownership marker")
    | _, _ =>
      if unmigratableReleasedLayout env d then
        .error (.text "the command points to a Hamn 0.1.x generation that fails the ownership checks it was installed with")
      else .error (.text "refusing foreign hamn symlink")

/-- Whether the journal is the one that this install was prepared under. -/
def handoffValid (env : Env) (attempt : Bytes) (previous : Option Bytes) (d : Disk) : Bool :=
  match load env d env.journal with
  | .valid journal =>
    decide (journal.attempt = attempt) && journal.hostMutation && journal.newTarget.isNone &&
      journal.bootstrap == previous.isNone && (journal.bootstrap || decide (journal.oldTarget = previous))
  | _ => false

def handoff (env : Env) (journaled : Option Bytes) (previous : Option Bytes) (message : String) : Act Unit :=
  match journaled with
  | none => return ()
  | some attempt => check (handoffValid env attempt previous) message

/-- Removes everything at `l`, deepest first; `levels` bounds the recursion. -/
def removeLevels : ℕ → Loc → Act Unit
  | 0, _ => fail (.os .notempty)
  | levels + 1, l => do
    match ← look fun d => d.find l with
    | .ok (.dir _ _) => do
      let names ← query fun d => readDir d l
      each (fun name => removeLevels levels (l.sub name)) names
      removeDir l
    | _ => removeFile l

/-- `fs::remove_dir_all`. -/
def removeDirAll (l : Loc) : Act Unit := do
  let levels ← look fun d =>
    match d.find l with
    | .ok n => n.height
    | .error _ => 1
  removeLevels levels l

/-- The release manifest pointer of the new generation. -/
def stagePointer (stage : Loc) : Option Node → Act Unit
  | none => return ()
  | some pointer => do
    let share := stage.sub (ascii "share")
    let hamn := share.sub (ascii "hamn")
    directory share 0o755
    directory hamn 0o755
    copyNew pointer.content (hamn.sub (ascii POINTER)) 0o644
    check (fun d => decide (read d (hamn.sub (ascii POINTER)) = .ok pointer.content)) "staged manifest pointer differs"

/-- The link target that the new generation replaces. -/
def stagePrevious (stage : Loc) : Option Bytes → Act Unit
  | none => return ()
  | some previous => create (stage.sub (ascii ".hamn-previous-target")) (previous ++ [newline]) 0o600

/-- The files of the new generation, marked last, then its final name. -/
def stageGeneration (env : Env) (payload : Payload) (previous : Option Bytes) (hash : Bytes) (stage generation : Loc) :
    Act Unit := do
  check (fun d => absent d generation) "generated install identity already exists"
  directory (stage.sub (ascii "bin")) 0o755
  copyNew payload.binary.content (binary stage) 0o755
  check (fun d => digestIs env d (binary stage) hash) "staged binary differs from install source"
  stagePointer stage payload.pointer
  call (Disk.chmod 0o755 stage)
  stagePrevious stage previous
  let marker ← query fun _ => markerText env hash
  create (stage.sub MARKER) marker 0o600
  check (fun d => generationValid env d stage hash) "staged generation validation failed"
  renameExclusive stage generation

/-- The new generation, staged beside its final name; its name. -/
def publishGeneration (env : Env) (payload : Payload) (previous : Option Bytes) : Act Name := do
  let hash := env.sha256 payload.binary.content
  let (stage, suffix) ← tempDirectory generations (ascii ".staging.")
  let name := hash ++ ascii "-" ++ suffix
  match ← Proc.attempt (stageGeneration env payload previous hash stage (generations.sub name)) with
  | .error e => do
    ignore (removeDirAll stage)
    fail e
  | .ok () => do
    check (fun d => generationValid env d (generations.sub name) hash) "published generation validation failed"
    let _ ← query fun _ => utf8 (targetOf env name)
    return name

/-- The staged link, made and renamed over the command. -/
def publishLink (env : Env) (current : CurrentLink) (target : Bytes) : Act Unit := do
  let (stage, _) ← tempDirectory bindir (ascii ".hamn-link.")
  let staged := stage.sub (ascii "link")
  let published ← Proc.attempt (do
    check (fun d => safePrivateDirectory d stage) "unsafe link stage"
    call (Disk.symlink target staged)
    check (fun d => decide (readLink d staged = some target)) "staged link differs"
    barrier
    match current with
    | .absent => do
      check (fun d => absent d link) "hamn path changed before commit"
      renameExclusive staged link
    | .managed original identity => do
      check (fun d => decide (managedLinkValid env d = some original) && decide (linkIdentity d = some identity))
        "managed hamn path changed before commit"
      rename staged link)
  ignore (removeFile staged)
  ignore (removeDir stage)
  raise published

/-- A directory that is made when it is missing. -/
def ensureDirectory (l : Loc) : Act Unit := do
  if ← look fun d => absent d l then directory l 0o755 else pure ()

/-- The data root and the generation root, created for a first installation. -/
def prepareRoots (env : Env) (managed : Bool) : Act Unit := do
  if managed then pure () else (do ensureDirectory datadir; createDataMarker env)
  check (fun d => isOwned d datadir true (some 0o755) && dataMarkerValid d dataMarker)
    "data directory ownership changed during install"
  ensureDirectory generations
  check (fun d => isOwned d generations true (some 0o755)) "refusing unsafe generation root"

/-- The checks and preparations before anything is staged; the command link as it is. -/
def prepareInstall (env : Env) (payload : Payload) (journaled : Option Bytes) : Act CurrentLink := do
  touch
  check (fun _ => payload.binary.isFile && payload.binary.attr.mode &&& 0o111 != 0)
    "install source is not a regular executable"
  check (fun _ => payload.pointer.all Node.isFile) "release manifest pointer is not a regular file"
  check (fun _ => !overlap env) "refusing overlapping binary and data directories"
  check (fun d => safeParent d bindir && safeParent d ⟨.parent, []⟩)
    "refusing writable or foreign install parent directory"
  lockFile (bindir.sub (ascii ".hamn-install.lock"))
  lockFile ⟨.parent, [ascii "." ++ env.roots.dataBase ++ ascii ".hamn-install.lock"]⟩
  let managed ← query dataState
  check (fun d => absent d (bindir.sub (ascii ".hamn-binary.sha256"))) "pre-release Hamn install"
  let current ← query (currentLink env managed)
  handoff env journaled current.previous "unsafe update journal handoff"
  prepareRoots env managed
  barrier
  return current

/-- The exact target, made durable in the journal before it is exposed. -/
def recordInstall (env : Env) (journaled previous : Option Bytes) (target : Bytes) : Act Unit :=
  match journaled with
  | none => return ()
  | some _ => do
    handoff env journaled previous "update journal changed before generation publication"
    recordTarget env target

/-- Installs `payload` as a new generation and points the command at it; `journaled` is the attempt of the update
journal that must record the target first. -/
def install (env : Env) (payload : Payload) (journaled : Option Bytes) : Act Bytes := do
  let current ← prepareInstall env payload journaled
  let name ← publishGeneration env payload current.previous
  recordInstall env journaled current.previous (targetOf env name)
  barrier
  publishLink env current (targetOf env name)
  barrier
  check (fun d => decide (readLink d link = some (targetOf env name)) && (managedLinkValid env d).isSome)
    "committed generation validation failed"
  return targetOf env name

end Hamn.Install
