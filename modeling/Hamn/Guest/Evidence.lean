import Hamn.Lib.Rely
import Hamn.Guest.ImageUtil

/-!
# Evidence — the publication of a baseline (`guest/image/evidence.c`)

The image and its sidecar are staged in a directory of the process and then linked under two names of the output
directory, the sidecar first.  Others work in the output directory at every step: they create entries where there are
none, and remove their own.  Any call may fail, and the process may be stopped before it.

* `World`: the output directory and the stage.
* `evidencePublish`: the program; the list `reads` is what the reads of the source return.
-/

open Bytes Crash
open Proc (attempt fail)

namespace Hamn.Evidence

open StrictJson
open SizeGate (Failure imageFail imageFailErrno imageLowerHex)

/-! ## World -/

/-- What a name of the output directory leads to: an entry of the others, or a staged file. -/
inductive Link where
  | foreign (id : ℕ)
  | image
  | sidecar
  deriving DecidableEq

structure World where
  entries : String → Option Link
  /-- The entries that the others have there. -/
  foreign : List (String × ℕ)
  /-- The names in the stage. -/
  stagedImage : Bool
  stagedSidecar : Bool
  /-- The contents of the staged files. -/
  image : Bytes
  sidecar : Bytes
  /-- The links that the process has made, the last one first. -/
  links : List (String × Link)
  /-- A look or a removal of `remove_owned_links` has failed. -/
  unremoved : Bool

/-- What the others do in the output directory. -/
inductive Event where
  | create (name : String) (id : ℕ)
  | remove (name : String)

def Event.apply : Event → World → World
  | .create name id, w =>
    match w.entries name with
    | none =>
      { w with entries := Function.update w.entries name (some (.foreign id)), foreign := (name, id) :: w.foreign }
    | some _ => w
  | .remove name, w =>
    match w.entries name with
    | some (.foreign _) =>
      { w with entries := Function.update w.entries name none, foreign := w.foreign.filter (·.1 ≠ name) }
    | _ => w

/-- One decision of the environment. -/
structure Cell where
  events : List Event := []
  /-- The call fails, for this reason. -/
  fault : Option String := none
  /-- What a look at a file or a directory says of its owner, mode, links and identity. -/
  safe : Bool := true
  /-- The path that a call returns. -/
  path : String := ""

abbrev Op := Proc Cell World Failure

/-- The world when a step is taken. -/
def Cell.now (c : Cell) (w : World) : World := c.events.foldl (fun w e => e.apply w) w

def call {α : Type} (f : Cell → World → Except Failure α × World) : Op α := Crash.call Cell.now f

/-- A call that does nothing else than `f` when it succeeds. -/
def perform (what path : String) (f : World → World) : Op Unit :=
  call fun c w =>
    match c.fault with
    | some reason => (imageFailErrno what path reason, w)
    | none => (.ok (), f w)

/-! ## Paths -/

/-- `join_path` -/
def joinPath (directory name : String) : String :=
  if directory = "" ∨ directory.toList.getLast? ≠ some '/' then directory ++ "/" ++ name else directory ++ name

/-- The texts of the parent and of the name so far, and the next component. -/
def splitStep (absolute : Bool) (s : List Char × List Char) (component : List Char) : List Char × List Char :=
  if component = [] ∨ component = ['.'] then s
  else if s.2 = [] then (s.1, component)
  else (s.1 ++ (if s.1 ≠ [] ∨ absolute then ['/'] else []) ++ s.2, component)

/-- `split_path` -/
def splitPath (path : String) : String × String :=
  let absolute := path.toList.head? = some '/'
  let s := (path.toList.splitOn '/').foldl (splitStep absolute) ([], [])
  (if s.1 = [] then if absolute then "/" else "." else String.ofList s.1, String.ofList s.2)

/-! ## Program -/

structure OutputPaths where
  parent : String
  name : String

def OutputPaths.sidecarName (paths : OutputPaths) : String := paths.name ++ ".sha256"

def OutputPaths.target (paths : OutputPaths) (name : String) : String := joinPath paths.parent name

/-- One of the targets, which must not be there. -/
def checkTarget (paths : OutputPaths) (name : String) : Op Unit :=
  call fun c w =>
    match w.entries name with
    | some _ => (imageFail "baseline output collides with an existing or reserved artifact", w)
    | none =>
      match c.fault with
      | some reason => (imageFailErrno "cannot inspect baseline output" (paths.target name) reason, w)
      | none => (.ok (), w)

/-- `output_paths` with nothing reserved. -/
def outputPaths (destination : String) : Op OutputPaths := do
  let (parent, name) := splitPath destination
  call fun c w =>
    match c.fault with
    | some reason => (imageFailErrno "cannot inspect baseline output directory" parent reason, w)
    | none => (if c.safe then .ok () else imageFail "unsafe baseline output directory", w)
  if name = "" ∨ name.toList.any (·.toNat < 32) then
    fail (.message (Utf8.text "invalid baseline output name".toList))
  let paths ← call fun c w =>
    match c.fault with
    | some reason => (imageFailErrno "cannot resolve baseline output directory" destination reason, w)
    | none => (.ok (⟨c.path, name⟩ : OutputPaths), w)
  checkTarget paths paths.name
  checkTarget paths paths.sidecarName
  return paths

/-- `image_owned_single_link` for the source or the report. -/
def ownedSingleLink : Op Unit :=
  call fun c w =>
    (if c.fault.isNone ∧ c.safe then .ok () else imageFail "unsafe baseline evidence source", w)

/-- `report_baseline`: the digest that the report expects of a source of `size` bytes. -/
def reportBaseline (report : Except Failure JsonValue) (size : ℤ) : Except Failure Bytes := do
  let value ← report
  if ¬ value matches .object _ then imageFail "same-build report is not a JSON object"
  else
    match objectGet (ascii "baselineSha256") value with
    | none => imageFail "same-build report lacks baselineSha256"
    | some digest =>
      match objectGet (ascii "baselineCompressedBytes") value with
      | none => imageFail "same-build report lacks baselineCompressedBytes"
      | some bytes =>
        if size ≤ 0 ∨ jsonIntegerValue (some bytes) ≠ some size then
          imageFail "baseline size differs from same-build report"
        else
          match digest with
          | .string text =>
            if imageLowerHex 64 text then .ok text else imageFail "baseline digest differs from same-build report"
          | _ => imageFail "baseline digest differs from same-build report"

/-- The loop that copies the source; a read returns bytes, or fails where there are none. -/
def copyImage (source stage : String) : List (Option Bytes) → Digest.Context → Op Digest.Context
  | [], context => pure context
  | none :: _, _ =>
    call fun c w => (imageFailErrno "cannot read baseline source" source (c.fault.getD "Input/output error"), w)
  | some [] :: _, context => pure context
  | some (byte :: bytes) :: reads, context => do
    perform "cannot write baseline stage" stage fun w => { w with image := w.image ++ byte :: bytes }
    copyImage source stage reads (Digest.sha256Update context (byte :: bytes))

/-- Another part of the sidecar. -/
def writeSidecar (checksum : String) (bytes : Bytes) : Op Unit :=
  perform "cannot write baseline sidecar" checksum fun w => { w with sidecar := w.sidecar ++ bytes }

/-- `linkat`, which never replaces a name. -/
def publishLink (paths : OutputPaths) (name : String) (link : Link) : Op Unit :=
  call fun c w =>
    let errno := imageFailErrno "cannot publish baseline evidence" (paths.target name)
    match w.entries name with
    | some _ => (errno "File exists", w)
    | none =>
      match c.fault with
      | some reason => (errno reason, w)
      | none =>
        (.ok (), { w with
          entries := Function.update w.entries name (some link), links := (name, link) :: w.links })

/-- From the stage on to the synchronized output directory. -/
def publishStaged (paths : OutputPaths) (source stageDirectory : String) (size : ℤ) (expected : Bytes)
    (reads : List (Option Bytes)) : Op Unit := do
  let stage := joinPath stageDirectory "image.img"
  let checksum := joinPath stageDirectory "image.img.sha256"
  perform "cannot open baseline source" source id
  perform "cannot create baseline stage" stage fun w => { w with stagedImage := true, image := [] }
  call fun c w =>
    (if c.fault.isNone ∧ c.safe then .ok () else imageFail "baseline source changed while opening", w)
  perform "cannot secure baseline stage" stage id
  let context ← copyImage source stage reads (Digest.sha256Init Digest.blank)
  perform "cannot sync baseline stage" stage id
  let bytes ← call fun c w =>
    match c.fault with
    | some reason => (imageFailErrno "cannot inspect baseline stage" stage reason, w)
    | none => (.ok w.image.length, w)
  let actual := (Digest.sha256Hex (Digest.sha256Final context).1).takeWhile (· ≠ 0)
  if (bytes : ℤ) ≠ size ∨ actual ≠ expected then
    fail (.message (Utf8.text "baseline digest differs from same-build report".toList))
  perform "cannot create baseline sidecar" checksum fun w => { w with stagedSidecar := true, sidecar := [] }
  perform "cannot write baseline sidecar" checksum id
  writeSidecar checksum (expected ++ ascii "  ")
  writeSidecar checksum (Utf8.text paths.name.toList)
  writeSidecar checksum [10]
  perform "cannot sync baseline sidecar" checksum id
  perform "cannot inspect baseline sidecar" checksum id
  -- the sidecar appears first
  publishLink paths paths.sidecarName .sidecar
  publishLink paths paths.name .image
  perform "cannot sync baseline output directory" paths.parent id

/-- `remove_owned_links`: a link goes when its name still leads to the staged file. -/
def removeOwnedLinks : List (String × Link) → Op Unit
  | [] => pure ()
  | (name, link) :: links => do
    let owned ← call fun c w =>
      match c.fault with
      | some _ => (.ok false, { w with unremoved := true })
      | none => (.ok (decide (w.entries name = some link)), w)
    if owned then
      call fun c w =>
        match c.fault with
        | some _ => (.ok (), { w with unremoved := true })
        | none => (.ok (), { w with entries := Function.update w.entries name none })
    removeOwnedLinks links

/-- The result with which a publication ends when its stage is removed, as it must be. -/
def rmdirResult (directory : String) (result : Except Failure Unit) (c : Cell) (w : World) : Except Failure Unit :=
  let errno := imageFailErrno "cannot remove baseline stage" directory
  match result with
  | .error e => .error e
  | .ok () =>
    match c.fault with
    | some reason => errno reason
    | none => if w.stagedImage || w.stagedSidecar then errno "Directory not empty" else .ok ()

def removeStage (directory : String) (result : Except Failure Unit) : Op (Except Failure Unit) := do
  call fun c w => (.ok (), if c.fault.isNone then { w with stagedImage := false } else w)
  call fun c w => (.ok (), if c.fault.isNone then { w with stagedSidecar := false } else w)
  call fun c w => (.ok (rmdirResult directory result c w), w)

def settle : Except Failure Unit → Op Unit
  | .ok () => pure ()
  | .error e => do
    let links ← Proc.look fun w => w.links
    removeOwnedLinks links
    fail e

/-- The end of `evidence_publish`, with the directory of the stage where there is one. -/
def finish (stageDirectory : Option String) (result : Except Failure Unit) : Op Unit :=
  match stageDirectory with
  | none => settle result
  | some directory => do
    let result ← removeStage directory result
    settle result

/-- `evidence_publish` of a source of `size` bytes. -/
def evidencePublish (source destination : String) (report : Except Failure JsonValue) (size : ℤ)
    (reads : List (Option Bytes)) : Op Unit := do
  let paths ← outputPaths destination
  ownedSingleLink
  ownedSingleLink
  match reportBaseline report size with
  | .error e => fail e
  | .ok expected => do
    perform "cannot open baseline output directory" paths.parent id
    match ← attempt (call fun c w =>
      match c.fault with
      | some reason => (imageFailErrno "cannot create baseline stage" paths.parent reason, w)
      | none => (.ok c.path, w)) with
    | .error e => finish none (.error e)
    | .ok directory => do
      let result ← attempt (publishStaged paths source directory size expected reads)
      finish (some directory) result

end Hamn.Evidence
