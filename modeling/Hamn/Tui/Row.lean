import Mathlib

/-!
# Row — the rows of a list on the screen (`control/tui_state.rs`)

A row is a JSON value of a CLI.  What identifies it (`identity`), what the filter looks at (`label`) and what a detail
shows of it (`rowDetailText`).  The printers of `serde_json`, the lower case of the Rust library and the dates of
`jiff` are parameters.
-/

namespace Hamn.Tui

/-! ## JSON values -/

/-- `serde_json::Value`; a number is its text, an object has each key once. -/
inductive Value where
  | null
  | bool (b : Bool)
  | number (text : String)
  | string (s : String)
  | array (items : List Value)
  | object (members : List (String × Value))

namespace Value

def get (key : String) : Value → Option Value
  | .object members => members.lookup key
  | _ => none

/-- `value[key]` -/
def index (v : Value) (key : String) : Value := (v.get key).getD .null

/-- `value[i]` -/
def item (v : Value) (i : ℕ) : Value :=
  match v with
  | .array items => (items[i]?).getD .null
  | _ => .null

def asStr : Value → Option String
  | .string s => some s
  | _ => none

def asBool : Value → Option Bool
  | .bool b => some b
  | _ => none

def asArray : Value → Option (List Value)
  | .array items => some items
  | _ => none

def isNull : Value → Bool
  | .null => true
  | _ => false

/-- The text at `key`, or an empty one. -/
def text (v : Value) (key : String) : String := ((v.index key).asStr).getD ""

end Value

/-- What is taken from the libraries. -/
structure Lib where
  /-- `str::to_lowercase` -/
  lower : String → String
  /-- `serde_json::to_string_pretty` -/
  pretty : Value → String
  /-- `Value::to_string` -/
  compact : Value → String
  /-- `as_i64` of a number, then `jiff::Timestamp::from_second` and its text. -/
  timestamp : String → Option String

/-! ## Identity -/

/-- `identity`: independent of the order of the rows and of what changes in one. -/
def identity (row : Value) : Option (List String) :=
  let value (v : Value) : Option String := v.asStr.filter (· ≠ "")
  match row.get "metadata" with
  | some metadata => do
    let uid ← value (metadata.index "uid")
    let name ← value (metadata.index "name")
    some ["kubernetes", uid, (value (metadata.index "namespace")).getD "", name]
  | none =>
    match (value (row.index "ID")).or (value (row.index "Id")) with
    | some id => some ["docker", id, (value (row.index "Repository")).getD "", (value (row.index "Tag")).getD ""]
    | none => do
      let name ← (value (row.index "name")).or (value (row.index "Name"))
      some [(value (row.index "environmentKind")).getD "", name]

/-! ## Labels -/

/-- `guest_disk_problem`: whether the disk is damaged, and the evidence. -/
def guestDiskProblem (status : Value) : Option (Bool × String) :=
  match status.get "guestFilesystem" with
  | some (.object members) =>
    let record := Value.object members
    some ((record.index "state").asStr.any (["errorsRecorded", "unreadable", "readOnly"].contains ·),
      record.text "detail")
  | _ => none

structure GuestKernelPanic where
  panicked : Bool
  detail : String
  at_ : Option String

def guestKernelPanic (lib : Lib) (status : Value) : Option GuestKernelPanic :=
  match status.get "guestKernelPanic" with
  | some (.object members) =>
    let record := Value.object members
    let at_ :=
      match record.index "observedAt" with
      | .number text => lib.timestamp text
      | _ => none
    some ⟨(record.index "state").asStr == some "panicked", record.text "detail", at_⟩
  | _ => none

/-- `char::is_control` -/
def isControl (c : Char) : Bool := c.toNat < 0x20 || (0x7F ≤ c.toNat && c.toNat < 0xA0)

/-- `char::is_whitespace` -/
def isWhitespace (c : Char) : Bool :=
  c == ' ' || (0x09 ≤ c.toNat && c.toNat ≤ 0x0D) || (0x2000 ≤ c.toNat && c.toNat ≤ 0x200A) ||
    [0x85, 0xA0, 0x1680, 0x2028, 0x2029, 0x202F, 0x205F, 0x3000].contains c.toNat

def clean (text : String) : String :=
  String.ofList (text.toList.filter fun c => !isControl c || c == '\n' || c == '\t')

def firstStr (values : List Value) : Option String := values.findSome? Value.asStr

def label (lib : Lib) (value : Value) : String :=
  let name := (firstStr [value.index "name", (value.index "metadata").index "name", value.index "Name",
    value.index "Names", value.index "Repository", value.index "ID", (value.index "Names").item 0,
    (value.index "RepoTags").item 0, value.index "Id"]).getD "-"
  let status := (firstStr [value.index "reason", value.index "state", value.index "State", value.index "Status",
    (value.index "status").index "phase"]).getD ""
  let docker :=
    match guestDiskProblem value with
    | some (true, _) => value.text "dockerStatus" ++ "  guest disk damaged"
    | _ => value.text "dockerStatus"
  let docker :=
    match guestKernelPanic lib value with
    | some ⟨true, _, _⟩ => docker ++ "  guest kernel panicked"
    | _ => docker
  let status :=
    match (value.index "configurationError").asStr with
    | some error => status ++ "  unreadable configuration: " ++ error
    | none => status
  match (value.index "environmentKind").asStr with
  | some "docker" => clean (name ++ "  Docker context  " ++ value.text "endpoint" ++ "  " ++ status)
  | some "hamn" => clean (name ++ "  Hamn profile  " ++ status ++ "  " ++ docker)
  | some _ => clean (name ++ "  " ++ status)
  | none => clean (name ++ "  " ++ status ++ "  " ++ docker)

/-! ## Details -/

/-- `profile_detail`: the detail of a row of the VM panel. -/
def profileDetail (lib : Lib) (row : Value) : String :=
  let value (key : String) : String := ((row.index key).asStr).getD (lib.compact (row.index key))
  match (row.index "configurationError").asStr with
  | some error =>
    "Profile: " ++ value "name" ++ "\nVM: " ++ value "state" ++ "\nConfiguration: cannot be read: " ++ error ++
      "\nFile: " ++ ((row.index "directory").asStr).getD "~/.hamn/<profile>" ++
      "/config.yaml\n\nStart, stop, delete and settings are refused until the file is corrected."
  | none =>
    let detail := "Profile: " ++ value "name" ++ "\nVM: " ++ value "state" ++ "\nDocker: " ++ value "dockerStatus" ++
      "\nCPU: " ++ value "cpus" ++ "\nMemory: " ++ value "memoryMiB" ++ " MiB\nDisk: " ++ value "diskGiB" ++ " GiB"
    let disk :=
      match guestDiskProblem row with
      | some (true, evidence) => "\nGuest disk: damaged\nEvidence: " ++ evidence ++
          "\n\nStarting the VM cannot repair this disk; x deletes it and everything in the VM, " ++
          "and the next start creates a new one."
      | some (false, evidence) => "\nGuest disk: not known to be damaged\nEvidence: " ++ evidence
      | none => ""
    let panic :=
      match guestKernelPanic lib row with
      | some ⟨true, reason, at_⟩ => "\nGuest kernel: panicked\nPanicked at: " ++ at_.getD "unknown" ++ "\nReason: " ++
          (if reason = "" then "no reason printed" else reason) ++
          "\n\nThe panic report is in logs/serial.log (logs/serial.previous.log after the next start); " ++
          "s starts the VM."
      | some ⟨false, reason, _⟩ => "\nGuest kernel: last panic record cannot be read\nEvidence: " ++ reason
      | none => ""
    detail ++ disk ++ panic

/-- The detail that is shown of a row of the list `operation`. -/
def rowDetailText (lib : Lib) (operation : String) (row : Value) : String :=
  if operation = "vm list" then profileDetail lib row else lib.pretty row

end Hamn.Tui
