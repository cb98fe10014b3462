import Hamn.Lib.Crash
import Hamn.Install.Headers

/-!
# Install.Acquire — one store, two downloaders (`install_support/download.rs`, `release/install.sh.in`)

The bootstrap script acquires the host archive with `acquire-host.zsh`, and the native downloader acquires an artifact
with `acquire_observed`.  Both work on the same files, each under the lock of the artifact: the finished file, the
partial one and its validator file.  What `curl` makes of a request is an `Answer`; a call that fails or a process that
is stopped is a cell of the tape.

* `Artifact`, `Store`, `Answer`: what both work with.
* `zshAcquire`: the script, from its lock on.
* `transferObserved`, `acquireObserved`: the native downloader, for an artifact on an HTTPS server.
-/

namespace Hamn.Download

open Crash Bytes
open Crash.Proc hiding attempt pure bind

inductive Kind where
  | host
  | guestImage
  deriving DecidableEq, Repr

def Kind.limit : Kind → ℕ
  | host => HOST_LIMIT
  | guestImage => GUEST_LIMIT

/-- An artifact of a release, with the file that its digest names. -/
structure Artifact (sha256 : Bytes → Bytes) where
  kind : Kind
  key : Bytes
  size : ℕ
  content : Bytes
  named : Named key size
  size_le : size ≤ kind.limit
  content_length : content.length = size
  content_digest : sha256 content = key

/-- The files of the artifact in `~/.hamn/cache`, all of this user and private. -/
structure Store where
  /-- `downloads/<digest>.artifact`. -/
  final : Option Bytes
  /-- `downloads/.<digest>.partial`. -/
  part : Option Bytes
  /-- `downloads/.<digest>.validator`. -/
  metadata : Option Bytes
  /-- `hamn-guest-<digest>.img`. -/
  guest : Option Bytes
  deriving DecidableEq, Repr

/-- What a program prints or returns. -/
inductive Path where
  | final
  | guest
  deriving DecidableEq, Repr

def Store.file (s : Store) : Path → Option Bytes
  | .final => s.final
  | .guest => s.guest

/-- What a run of `curl` does. -/
structure Answer where
  /-- The lines of its header file when the first bytes of the body come. -/
  early : List Bytes
  /-- The lines at its end. -/
  headers : List Bytes
  /-- The body, as the reads from the pipe return it. -/
  body : List Bytes
  bounded : ∀ c ∈ body, c ≠ [] ∧ c.length ≤ 64 * 1024
  /-- How it exits, as a shell has it. -/
  exit : ℕ
  /-- How it exits when it is told to end. -/
  killed : ℕ

namespace Store

def append (chunk : Bytes) (s : Store) : Store := { s with part := s.part.map (· ++ chunk) }

def publish (s : Store) : Store := { s with final := s.part, part := none }

def dropFinal (s : Store) : Store := { s with final := none }

def dropPart (s : Store) : Store := { s with part := none }

def dropMetadata (s : Store) : Store := { s with metadata := none }

/-- The partial file is there. -/
def touch (s : Store) : Store := { s with part := some (s.part.getD []) }

def saveMetadata (text : Bytes) (s : Store) : Store := { s with metadata := some text }

end Store

abbrev Act := Proc Bool Store String

/-- One change of the store, or the failure of the call. -/
def change (f : Store → Store) : Act Unit :=
  step fun works s => if works then (.ok (), f s) else (.error "Input/output error", s)

def removeBoth : Act Unit := do
  change Store.dropPart
  change Store.dropMetadata

section

variable {sha256 : Bytes → Bytes} (a : Artifact sha256)

/-- The size and the digest are those of the artifact. -/
def verified (file : Bytes) : Bool := file.length == a.size && sha256 file == a.key

/-! ## The script -/

def zshPublish : Act Path := do
  let s ← look id
  if s.part.any (verified a) then
    change Store.publish
    change Store.dropMetadata
    return .final
  else
    removeBoth
    fail "artifact size or SHA-256 mismatch"

/-- Where it resumes, and with which validator. -/
def zshResume (s : Store) : ℕ × Bytes :=
  match s.part, s.metadata.bind (zshValidator a.key a.size) with
  | some part, some validator => if 0 < part.length ∧ part.length < a.size then (part.length, validator) else (0, [])
  | _, _ => (0, [])

/-- The body goes to the partial file, up to the first piece that does not fit: the bytes there, and whether one did
not. -/
def zshStream : ℕ → List Bytes → Act (ℕ × Bool)
  | received, [] => return (received, false)
  | received, data :: body => do
    if a.size < received + data.length then return (received, true)
    else
      change (Store.append data)
      zshStream (received + data.length) body

/-- The `Content-Range` that it takes for its request. -/
def zshRange (offset : ℕ) : Bytes :=
  ascii "bytes " ++ decimal offset ++ ascii "-" ++ decimal (a.size - 1) ++ ascii "/" ++ decimal a.size

/-- What it does when the response is the one that it asked for. -/
def zshAccept (curlResult : ℕ) (validator : Bytes) : Act (Option Path) := do
  (if storable validator then change (Store.saveMetadata (recordText a.key a.size validator)) else pure ())
  if curlResult ≠ 0 then fail "host download interrupted; rerun to resume"
  else
    let path ← zshPublish a
    return some path

/-- What it does when `curl` has ended. -/
def zshJudge (offset : ℕ) (answer : Answer) (received : ℕ) (overflow : Bool) : Act (Option Path) := do
  let curlResult := if overflow then answer.killed else answer.exit
  let response := zshResponse answer.headers
  if curlResult ≠ 0 ∧ curlResult ≠ 22 ∧ curlResult ≠ 63 ∧ received = offset then
    fail "host download interrupted; rerun to resume"
  else if 0 < offset ∧ (response.status ≠ ascii "206" ∨ response.range ≠ zshRange a offset) then
    removeBoth
    return none
  else if overflow = true ∨ curlResult = 63 then
    removeBoth
    fail "artifact exceeds size limit"
  else if offset = 0 ∧ response.status ≠ ascii "200" then
    removeBoth
    fail "host download returned invalid HTTP response"
  else zshAccept a curlResult response.validator

/-- One pass of its loop; `none` is `continue`. -/
def zshTry (offset : ℕ) (validator : Bytes) (answer : Answer) : Act (Option Path) := do
  change (Store.saveMetadata (recordText a.key a.size validator))
  change Store.touch
  let r ← zshStream a offset answer.body
  zshJudge a offset answer r.1 r.2

/-- The request, and the one without a range that may follow it. -/
def zshRequest (offset : ℕ) (validator : Bytes) (first second : Answer) : Act Path := do
  match ← zshTry a offset validator first with
  | some path => return path
  | none =>
    match ← zshTry a 0 [] second with
    | some path => return path
    | none => fail "host server rejected resumed transfer"

def zshDownload (first second : Answer) : Act Path := do
  let s ← look id
  if s.part.any (verified a) then zshPublish a
  else
    let r := zshResume a s
    (if r.1 = 0 then removeBoth else pure ())
    zshRequest a r.1 r.2 first second

/-- `acquire-host.zsh`. -/
def zshAcquire (first second : Answer) : Act Path := do
  let s ← look id
  match s.final with
  | some file =>
    if verified a file then return .final
    else
      change Store.dropFinal
      zshDownload a first second
  | none => zshDownload a first second

/-! ## The native downloader -/

/-- `TransferFailure`. -/
inductive TransferFailure where
  | invalid (message : String)
  | interrupted (message : String)
  | rangeRejected
  deriving DecidableEq, Repr

abbrev Transfer := Proc Bool Store TransferFailure

/-- A change whose failure interrupts the transfer. -/
def put (f : Store → Store) : Transfer Unit :=
  step fun works s => if works then (.ok (), f s) else (.error (.interrupted "Input/output error"), s)

/-- `curl_failure`; a status from 128 on is that of a signal. -/
def curlFailure (code : ℕ) : String :=
  let reason := match code with
    | 6 => "could not resolve the release server"
    | 7 => "could not connect to the release server"
    | 22 => "the release server returned an HTTP error"
    | 28 => "the connection stalled or timed out"
    | 35 | 60 => "a secure (TLS) connection could not be established"
    | 18 | 52 | 56 => "the connection was interrupted"
    | _ => "the transfer failed"
  if code < 128 then "download failed: " ++ reason ++ " (curl exit " ++ toString code ++ ")"
  else "download failed: " ++ reason

/-- `save_metadata`. -/
def saveMetadata (validator : Option Bytes) : Act Unit :=
  match PartialMetadata.text ⟨a.key, a.size, validator⟩ with
  | some text => change (Store.saveMetadata text)
  | none => fail "invalid partial metadata"

/-- `on_headers`, whose failure makes the transfer invalid. -/
def onHeaders (headers : Headers) : Transfer Unit :=
  match validator headers with
  | some value => do
    match ← Proc.attempt (saveMetadata a (some value)) with
    | .ok () => return ()
    | .error message => fail (.invalid message)
  | none => return ()

/-- What it does with the headers at the first bytes: whether the range is rejected. -/
def checkHeaders (offset : ℕ) (answer : Answer) : Transfer Bool :=
  match responseHeaders answer.early with
  | none => fail (.invalid "invalid HTTP status")
  | some headers =>
    if offset ≠ 0 ∧ validRange headers offset a.size = false then return true
    else do
      onHeaders a headers
      return false

/-- One piece of the body. -/
def receive (offset : ℕ) (rejected : Bool) (received : ℕ) (data : Bytes) : Transfer Unit :=
  if rejected then
    if a.size < received then fail (.invalid "ignored Range response exceeds size limit") else return ()
  else if a.size - offset < received then fail (.invalid "artifact exceeds expected size")
  else put (Store.append data)

/-- The body, once the headers are checked. -/
def receiveAll (offset : ℕ) (rejected : Bool) : ℕ → List Bytes → Transfer Unit
  | _, [] => return ()
  | received, data :: body => do
    receive a offset rejected (received + data.length) data
    receiveAll offset rejected (received + data.length) body

/-- The loop over the body: whether the range was rejected, if there was a body. -/
def receiveBody (offset : ℕ) (answer : Answer) : Transfer (Option Bool) :=
  if answer.body = [] then return none
  else do
    let rejected ← checkHeaders a offset answer
    receiveAll a offset rejected 0 answer.body
    return some rejected

/-- `transfer_observed`. -/
def transferObserved (offset : ℕ) (answer : Answer) : Transfer Unit := do
  put fun s => if offset = 0 then { s with part := some [] } else s.touch
  let checked ← receiveBody a offset answer
  match responseHeaders answer.headers with
  | none => fail (.invalid "invalid HTTP status")
  | some headers =>
    if offset ≠ 0 ∧ (checked = some true ∨ headers.status = 200 ∨ headers.status = 416 ∨
        (answer.exit = 0 ∧ checked = none)) then fail .rangeRejected
    else if answer.exit ≠ 0 then fail (.interrupted (curlFailure answer.exit))
    else return ()

/-- Where it resumes, and with which validator. -/
def nativeResume (s : Store) : ℕ × Option Bytes :=
  match s.part, s.metadata.bind (savedValidator a.key a.size) with
  | some part, some validator => if 0 < part.length ∧ part.length < a.size then (part.length, validator) else (0, none)
  | _, _ => (0, none)

/-- What it does with the result of its last transfer. -/
def settle : Except TransferFailure Unit → Act Path
  | .ok () => do
    let s ← look id
    if s.part.any (verified a) then
      change Store.publish
      change Store.dropMetadata
      return .final
    else
      removeBoth
      fail "artifact size or SHA-256 mismatch"
  | .error (.invalid message) => do
    removeBoth
    fail message
  | .error (.interrupted message) => fail message
  | .error .rangeRejected => fail "unexpected repeated Range rejection"

/-- The transfer, and the one without a range that may follow it. -/
def nativeRequest (offset : ℕ) (first second : Answer) : Act Path := do
  match ← Proc.attempt (transferObserved a offset first) with
  | .error .rangeRejected =>
    change Store.dropPart
    let result ← Proc.attempt (transferObserved a 0 second)
    settle a result
  | result => settle a result

/-- The part that begins with the look at the partial file. -/
def nativeDownload (first second : Answer) : Act Path := do
  let s ← look id
  if s.part.any (a.kind.limit < ·.length) then fail "file exceeds size limit"
  else if s.part.any (verified a) then
    if s.metadata.any (4096 < ·.length) then fail "file exceeds size limit"
    else
      change Store.publish
      change Store.dropMetadata
      return .final
  else
    let r := nativeResume a s
    (if s.part.isSome ∧ r.1 = 0 then change Store.dropPart else pure ())
    saveMetadata a r.2
    nativeRequest a r.1 first second

/-- The part after the finished file. -/
def nativeLookup (first second : Answer) : Act Path := do
  let s ← look id
  if a.kind = .guestImage ∧ s.guest.any (a.kind.limit < ·.length) then fail "file exceeds size limit"
  else if a.kind = .guestImage ∧ s.guest.any (verified a) then return .guest
  else nativeDownload a first second

/-- `acquire_observed`. -/
def acquireObserved (first second : Answer) : Act Path := do
  let s ← look id
  match s.final with
  | some file =>
    if a.kind.limit < file.length then fail "file exceeds size limit"
    else if verified a file then return .final
    else
      change Store.dropFinal
      nativeLookup a first second
  | none => nativeLookup a first second

/-! ## Any number of attempts -/

inductive Program where
  | zsh
  | native
  deriving DecidableEq, Repr

/-- An attempt of one of the programs. -/
def Program.run : Program → Answer → Answer → Act Path
  | zsh => zshAcquire a
  | native => acquireObserved a

/-- Nothing has been downloaded; a guest image in the cache is not too large for one. -/
structure Initial (s : Store) : Prop where
  final : s.final = none
  part : s.part = none
  metadata : s.metadata = none
  guest : ∀ file, s.guest = some file → file.length ≤ a.kind.limit

/-- The stores that attempts leave behind, each of them with any answers and stopped anywhere. -/
def Reachable (s : Store) : Prop :=
  ∃ s0, Initial a s0 ∧ Reaches (fun s s' => ∃ (p : Program) (first second : Answer), Leads (p.run a first second) s s') s0 s

end

end Hamn.Download
