import Hamn.Lib.Crash
import Hamn.Lib.Posix
import Hamn.Lib.Utf8

/-!
# Install.Files — the file-system primitives of the installer and updater

The disk that one installation and its users' caches live on, and the functions of
`control/install_support/files.rs`.  Every function that changes the disk is a process (`Crash.Proc`) whose atomic
steps are system calls; what only looks at the disk is a function of it.

* `Area`: the directories that the installer works in, each with its own tree.
* `Cell`: what the environment decides at one call.
* `Env`: the roots, the cache, the process id and SHA-256.
* `tempDirectory`, `create`, `renameExclusive`, `publish`, `recoveryRoot`, …: under the source's names.
-/

namespace Hamn.Install

open Posix Crash Bytes
open Crash.Proc hiding attempt pure bind

/-- A directory of its own: `BINDIR`, `DATADIR` and its parent, `DATADIR/.hamn-generations`, and the image cache
`HOME/.hamn/cache` of any user, known by its canonical path. -/
inductive Area where
  | bin
  | parent
  | data
  | gens
  | cache (path : Bytes)
  deriving DecidableEq

abbrev Disk := Posix.Disk Area

abbrev Loc := Posix.Loc Area

/-- What the environment decides at one step. -/
structure Cell where
  /-- The call fails without any other reason. -/
  fails : Bool
  /-- The random part of a temporary name. -/
  suffix : Bytes
  /-- How much of a failed write reached the file. -/
  count : ℕ
  /-- The signal that has been recorded. -/
  signal : Option ℕ

inductive Failure where
  | text (message : String)
  | os (e : Errno)
  /-- `interrupt::Interrupted`. -/
  | interrupted (signal : ℕ)
  deriving DecidableEq, Repr

abbrev Act := Proc Cell Disk Failure

/-- The canonical install roots (`locks::Roots`), as texts. -/
structure Roots where
  bindir : Bytes
  datadir : Bytes
  /-- The last component of `datadir`. -/
  dataBase : Bytes

/-- What one process works with. -/
structure Env where
  roots : Roots
  /-- The canonical path of the caller's image cache. -/
  cache : Bytes
  pid : ℕ
  /-- SHA-256 as lowercase hexadecimal. -/
  sha256 : Bytes → Bytes

/-! ## Calls -/

/-- One system call; the environment can make it fail. -/
def call (f : Disk → Except Errno Disk) : Act Unit :=
  step fun c d =>
    if c.fails then (.error (.os .io), d)
    else
      match f d with
      | .ok d' => (.ok (), d')
      | .error e => (.error (.os e), d)

/-- A call that changes nothing on the disk (`fsync`, a lock, a test seam). -/
def touch : Act Unit := call .ok

/-- `write_all` on an open file: a failure may leave a first part of the bytes behind. -/
def writeAll (l : Loc) (content : Bytes) : Act Unit :=
  step fun c d =>
    match Disk.write (if c.fails then content.take c.count else content) l d with
    | .ok d' => (if c.fails then .error (.os .io) else .ok (), d')
    | .error e => (.error (.os e), d)

/-- `require(condition, message)` of what is on the disk now. -/
def check (p : Disk → Bool) (message : String) : Act Unit :=
  query fun d => if p d then .ok () else .error (.text message)

/-! ## Observations -/

section

variable (d : Disk) (l : Loc)

def absent : Bool :=
  match d.find l with
  | .error .noent => true
  | _ => false

def exists' : Bool :=
  match d.find l with
  | .ok _ => true
  | .error _ => false

/-- `files::owned`. -/
def owned (directory : Bool) (mode : Option ℕ) : Except Failure Node :=
  match d.find l with
  | .error e => .error (.os e)
  | .ok n =>
    if n.attr.own && (if directory then n.isDir else n.isFile && n.attr.nlink == 1) then
      if mode.all (· == n.attr.mode) then .ok n else .error (.text "unsafe mode")
    else .error (.text "unsafe ownership")

def isOwned (directory : Bool) (mode : Option ℕ) : Bool :=
  match owned d l directory mode with
  | .ok _ => true
  | .error _ => false

def safeDirectory : Bool := isOwned d l true (some 0o755)

def safePrivateDirectory : Bool := isOwned d l true (some 0o700)

def safeRegular : Bool := isOwned d l false none

def safePrivateRegular : Bool := isOwned d l false (some 0o600)

/-- `fs::read` of a regular file. -/
def read : Except Failure Bytes :=
  match d.find l with
  | .error e => .error (.os e)
  | .ok (.file a content) => if a.readable then .ok content else .error (.os .access)
  | .ok (.dir _ _) => .error (.os .isdir)
  | .ok _ => .error (.os .inval)

/-- The bytes as a text. -/
def fromUtf8 (b : Bytes) : Except Failure Bytes :=
  if Utf8.valid b then .ok b else .error (.text "invalid utf-8 sequence")

/-- `files::text`. -/
def text : Except Failure Bytes := read d l >>= fromUtf8

/-- `files::line`: at most `limit` bytes, without the newlines at the end. -/
def line (limit : ℕ) : Except Failure Bytes := do
  let content ← read d l
  if limit < content.length then .error (.text "file exceeds size limit")
  else do
    let content ← fromUtf8 content
    .ok (trimNewlines content)

/-- `symlink_metadata(path)?.len()` of a regular file. -/
def len : Except Failure ℕ := (read d l).map List.length

/-- `read_link(path)`, as a text. -/
def readLink : Option Bytes :=
  match d.find l with
  | .ok (.symlink _ target) => if Utf8.valid target then some target else none
  | _ => none

def isSymlink : Bool :=
  match d.find l with
  | .ok n => n.isSymlink
  | .error _ => false

/-- The names in a directory, in the order in which the directory has them. -/
def readDir : Except Failure (List Name) :=
  match d.find l with
  | .error e => .error (.os e)
  | .ok (.dir a es) => if a.readable then .ok (Dir.names es) else .error (.os .access)
  | .ok _ => .error (.os .notdir)

end

/-! ## Temporary names -/

/-- Six characters `[A-Za-z0-9]`, as `mkdtemp` and `mkstemp` choose them. -/
def attemptValid (b : Bytes) : Bool := b.length == 6 && b.all isAlphanumeric

/-- The new entry `pre` and a random suffix in `directory`, made by `make`. -/
def temporary (make : Loc → Disk → Except Errno Disk) (directory : Loc) (pre : Bytes) : Act (Loc × Bytes) :=
  step fun c d =>
    if c.fails || !attemptValid c.suffix then (.error (.os .io), d)
    else
      match make (directory.sub (pre ++ c.suffix)) d with
      | .ok d' => (.ok (directory.sub (pre ++ c.suffix), c.suffix), d')
      | .error e => (.error (.os e), d)

/-- `files::temp_directory`, with the suffix that `files::temp_suffix` reads off the name. -/
def tempDirectory : Loc → Bytes → Act (Loc × Bytes) := temporary (Disk.mkdir 0o700)

/-- `files::temp_file`. -/
def tempFile : Loc → Bytes → Act (Loc × Bytes) := temporary (Disk.createFile 0o600)

/-! ## Publication -/

def renameExclusive (l l' : Loc) : Act Unit := call (Disk.renameExcl l l')

def rename (l l' : Loc) : Act Unit := call (Disk.rename l l')

def removeFile (l : Loc) : Act Unit := call (Disk.removeFile l)

def removeDir (l : Loc) : Act Unit := call (Disk.removeDir l)

/-- `files::create`. -/
def create (l : Loc) (content : Bytes) (mode : ℕ) : Act Unit := do
  call (Disk.createFile mode l)
  writeAll l content
  call (Disk.chmod mode l)
  touch

/-- Opens the first free `.hamn-metadata.<pid>.<suffix>` from `suffix` on. -/
def metadataStage (pid : ℕ) (directory : Loc) : ℕ → ℕ → Act Loc
  | _, 0 => fail (.text "cannot create metadata stage")
  | suffix, left + 1 => do
    let candidate := directory.sub (ascii ".hamn-metadata." ++ decimal pid ++ ascii "." ++ decimal suffix)
    match ← Proc.attempt (call (Disk.createFile 0o600 candidate)) with
    | .ok () => return candidate
    | .error (.os .exist) => metadataStage pid directory (suffix + 1) left
    | .error e => fail e

/-- `fs::remove_file` for which a missing file is no error. -/
def removeOptional (l : Loc) : Act Unit := do
  match ← Proc.attempt (removeFile l) with
  | .ok () => return ()
  | .error (.os .noent) => return ()
  | .error e => fail e

/-- A failure that was caught, raised again. -/
def raise {α : Type} : Except Failure α → Act α
  | .ok a => return a
  | .error e => fail e

/-- `files::publish`. -/
def publish (pid : ℕ) (l : Loc) (content : Bytes) : Act Unit := do
  let stage ← metadataStage pid l.parent 0 1000
  let result ← Proc.attempt (do
    writeAll stage content
    touch
    renameExclusive stage l
    touch)
  removeOptional stage
  raise result

/-- The name of the record that the journal of `cache` may still name a generation. -/
def recoveryRootName (env : Env) (cache : Bytes) : Name := ascii ".hamn-recovery-root-" ++ env.sha256 cache

/-- `files::recovery_root` in the generation directory `generation`. -/
def recoveryRoot (env : Env) (generation : Loc) : Act Unit := do
  check (fun _ => Utf8.valid env.cache) "recovery root is not UTF-8"
  let record := generation.sub (recoveryRootName env env.cache)
  match ← look fun d => d.find record with
  | .ok _ => do
    let _ ← query fun d => owned d record false (some 0o600)
    let content ← query fun d => text d record
    if content = env.cache then return () else fail (.text "unsafe generation recovery root")
  | .error .noent => publish env.pid record env.cache
  | .error e => fail (.os e)

end Hamn.Install
