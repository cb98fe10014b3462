import Hamn.Host.DaemonJson

/-!
# Host.Profile — the settings of a profile and their texts (`host/core/profile.c`)

`config.yaml` and a profile definition are read from the events of libyaml, which is a parameter (`yaml`): the events of
a text and how the parser stops after them.  A setting that the schema limits is checked in the order of the source, and
the reasons are the texts of the source.  A profile directory, its locks and its files are in `Host.Apply`.

* `Profile`, `profileDiff`: the settings, and those in which two profiles differ.
* `profileParse`: the settings in the text of a configuration or of a definition.
* `profileText`: the text that is written for settings, which reads back as the same settings.
-/

namespace Hamn.Host

open Bytes

/-! ## Settings -/

structure ProfileMount where
  location : Bytes
  mountPoint : Bytes
  writable : Bool
  deriving DecidableEq, Repr

structure ProfileHook where
  stage : Bytes
  command : Bytes
  timeoutSeconds : ℕ
  warn : Bool
  deriving DecidableEq, Repr

/-- `struct profile` without the directory. -/
structure Profile where
  name : Bytes
  cpus : ℕ
  memMib : ℕ
  diskGib : ℕ
  mountHome : Bool
  homeReadOnly : Bool
  mountInotify : Bool
  dockerDaemonJson : Bytes
  rosetta : Bool
  nestedVirtualization : Bool
  sshAgent : Bool
  mounts : List ProfileMount
  hooks : List ProfileHook
  deriving DecidableEq, Repr

def profileDefaults : Profile := ⟨[], 4, 4096, 60, true, false, false, [], false, false, false, [], []⟩

inductive ProfileSetting where
  | cpus | memoryMib | diskGib | mountHome | homeReadOnly | mountInotify | dockerDaemonJson | rosetta
  | nestedVirtualization | sshAgent | mounts | provision
  deriving DecidableEq, Repr

def profileSettings : List ProfileSetting :=
  [.cpus, .memoryMib, .diskGib, .mountHome, .homeReadOnly, .mountInotify, .dockerDaemonJson, .rosetta,
    .nestedVirtualization, .sshAgent, .mounts, .provision]

def profileSettingKey : ProfileSetting → String
  | .cpus => "cpus"
  | .memoryMib => "memoryMiB"
  | .diskGib => "diskGiB"
  | .mountHome => "mountHome"
  | .homeReadOnly => "homeReadOnly"
  | .mountInotify => "mountInotify"
  | .dockerDaemonJson => "docker.daemonJson"
  | .rosetta => "rosetta"
  | .nestedVirtualization => "nestedVirtualization"
  | .sshAgent => "sshAgent"
  | .mounts => "mounts"
  | .provision => "provision"

def differs (a b : Profile) : ProfileSetting → Bool
  | .cpus => a.cpus ≠ b.cpus
  | .memoryMib => a.memMib ≠ b.memMib
  | .diskGib => a.diskGib ≠ b.diskGib
  | .mountHome => a.mountHome ≠ b.mountHome
  | .homeReadOnly => a.homeReadOnly ≠ b.homeReadOnly
  | .mountInotify => a.mountInotify ≠ b.mountInotify
  | .dockerDaemonJson => a.dockerDaemonJson ≠ b.dockerDaemonJson
  | .rosetta => a.rosetta ≠ b.rosetta
  | .nestedVirtualization => a.nestedVirtualization ≠ b.nestedVirtualization
  | .sshAgent => a.sshAgent ≠ b.sshAgent
  | .mounts => a.mounts ≠ b.mounts
  | .provision => a.hooks ≠ b.hooks

/-- `profile_diff`: the settings whose bit is set. -/
def profileDiff (a b : Profile) : List ProfileSetting := profileSettings.filter (differs a b)

theorem mem_profileSettings (setting : ProfileSetting) : setting ∈ profileSettings := by cases setting <;> decide

theorem profileDiff_eq_nil {a b : Profile} : profileDiff a b = [] ↔ { a with name := b.name } = b := by
  constructor
  · intro h
    have hd : ∀ setting, differs a b setting = false := fun setting => by
      have := List.filter_eq_nil_iff.mp h setting (mem_profileSettings setting)
      simpa using this
    obtain ⟨_, _, _, _, _, _, _, _, _, _, _, _, _⟩ := a
    obtain ⟨_, _, _, _, _, _, _, _, _, _, _, _, _⟩ := b
    have h1 := hd .cpus
    have h2 := hd .memoryMib
    have h3 := hd .diskGib
    have h4 := hd .mountHome
    have h5 := hd .homeReadOnly
    have h6 := hd .mountInotify
    have h7 := hd .dockerDaemonJson
    have h8 := hd .rosetta
    have h9 := hd .nestedVirtualization
    have h10 := hd .sshAgent
    have h11 := hd .mounts
    have h12 := hd .provision
    simp only [differs, ne_eq, decide_not, Bool.not_eq_false', decide_eq_true_eq] at h1 h2 h3 h4 h5 h6 h7 h8 h9 h10 h11 h12
    simp [*]
  · intro h
    refine List.filter_eq_nil_iff.mpr fun setting _ => ?_
    rw [← h]
    cases setting <;> simp [differs]

theorem profileDiff_self (a : Profile) : profileDiff a a = [] := profileDiff_eq_nil.mpr rfl

theorem profileDiff_symm {a b : Profile} (h : profileDiff a b = []) : profileDiff b a = [] := by
  rw [profileDiff_eq_nil] at h ⊢
  rw [← h]

theorem profileDiff_trans {a b c : Profile} (h : profileDiff a b = []) (h' : profileDiff b c = []) :
    profileDiff a c = [] := by
  rw [profileDiff_eq_nil] at h h' ⊢
  rw [← h', ← h]

theorem diskGib_eq {a b : Profile} (h : profileDiff a b = []) : a.diskGib = b.diskGib := by
  rw [profileDiff_eq_nil] at h
  rw [← h]

/-! ## The schema -/

def PROFILE_NAME_CAP : ℕ := 64
def PROFILE_MAX_MOUNTS : ℕ := 16
def PROFILE_MAX_HOOKS : ℕ := 16
def PROFILE_HOOK_COMMAND_CAP : ℕ := 1024
def PROFILE_SEEN_KEY_CAP : ℕ := 16
def PROFILE_YAML_CAP : ℕ := 64 * 1024
def PROFILE_DEFINITION_CAP : ℕ := 64 * 1024
def PROFILE_REASON_CAP : ℕ := 256
def PATH_MAX : ℕ := 1024

def profileNameValid (name : Bytes) : Bool :=
  name ≠ [] && name.length < PROFILE_NAME_CAP &&
    name.all (fun c => isAlphanumeric c || c == byte '-' || c == byte '_') &&
    name ≠ ascii "." && name ≠ ascii ".." && name ≠ ascii "cache"

/-- The parts of a path between its slashes; a slash at the end is allowed. -/
def cleanParts : ℕ → Bytes → Bool
  | _, [] => true
  | 0, _ :: _ => true
  | fuel + 1, part =>
    let name := part.takeWhile (· ≠ byte '/')
    !(name == [] || name == ascii "." || name == ascii ".." || name.contains newline || name.contains 13) &&
      match part.dropWhile (· ≠ byte '/') with
      | [] => true
      | _ :: part => cleanParts fuel part

def cleanAbsolutePath (path : Bytes) (allowRoot : Bool) : Bool :=
  match path with
  | [] => false
  | c :: part => c == byte '/' && (allowRoot || part ≠ []) && cleanParts part.length part

def hookStageValid (stage : Bytes) : Bool :=
  stage == ascii "system" || stage == ascii "user" || stage == ascii "after-boot" || stage == ascii "ready"

/-- The loop over the mounts; `before` are the mounts that were checked. -/
def mountsViolation : List ProfileMount → List ProfileMount → Option String
  | _, [] => none
  | before, mount :: mounts =>
    if cleanAbsolutePath mount.location true = false then some "a mount location must be a normalized absolute path"
    else if cleanAbsolutePath mount.mountPoint false = false then
      some "a mountPoint must be a normalized absolute path other than /"
    else if before.any (fun other => mount.mountPoint == other.mountPoint) then some "each mountPoint must be unique"
    else mountsViolation (before ++ [mount]) mounts

def hookViolation (hook : ProfileHook) : Option String :=
  if hookStageValid hook.stage = false then some "a provision stage must be system, user, after-boot or ready"
  else if hook.command = [] then some "a provision command must not be empty"
  else if hook.timeoutSeconds = 0 ∨ hook.timeoutSeconds > 3600 then some "a provision timeoutSeconds must be 1 to 3600"
  else none

section Reader

variable (cjson : Bytes → Option CJson)

/-- The rule of the schema that the settings break. -/
def profileViolation (p : Profile) : Option String :=
  if p.cpus = 0 ∨ p.memMib = 0 ∨ p.diskGib = 0 then some "cpus, memoryMiB and diskGiB must be positive"
  else if p.homeReadOnly ∧ ¬ p.mountHome then some "homeReadOnly requires mountHome"
  else if profileDockerDaemonJsonValid cjson p.dockerDaemonJson = false then
    some "docker.daemonJson must be one JSON object that leaves the settings Hamn manages alone"
  else if p.mounts.length > PROFILE_MAX_MOUNTS then some "too many mounts"
  else if p.hooks.length > PROFILE_MAX_HOOKS then some "too many provision hooks"
  else
    match mountsViolation [] p.mounts with
    | some rule => some rule
    | none =>
      if p.mountInotify ∧ ¬ ((p.mountHome ∧ ¬ p.homeReadOnly) ∨ p.mounts.any (·.writable)) then
        some "mountInotify requires a writable share"
      else p.hooks.findSome? hookViolation

/-! ## The events of libyaml -/

/-- An event; `marked` says that it has an anchor or a tag. -/
inductive YamlEvent where
  | streamStart
  | streamEnd
  | documentStart (tagDirectives : Bool)
  | documentEnd
  | alias
  | scalar (marked : Bool) (value : Bytes) (plain : Bool)
  | sequenceStart (marked : Bool)
  | sequenceEnd
  | mappingStart (marked : Bool)
  | mappingEnd
  deriving DecidableEq, Repr

/-- How `yaml_parser_parse` fails after the events. -/
inductive YamlStop where
  | problem (text : Bytes) (line : ℕ)
  | memory
  deriving DecidableEq, Repr

/-- What libyaml makes of a text. -/
structure YamlStream where
  events : List YamlEvent
  stop : YamlStop
  deriving DecidableEq, Repr

/-- Why a text is refused: `none` when no rule was named yet. -/
inductive Refusal where
  | memory
  | rule (text : Option Bytes)
  deriving DecidableEq, Repr

abbrev YamlParse := StateT (List YamlEvent) (Except Refusal)

/-- `yaml_fail`: the text as it is shown on a terminal. -/
def yamlReason (text : Bytes) : Bytes :=
  (text.take (PROFILE_REASON_CAP - 1)).map fun c => if c < 0x20 ∨ c > 0x7E then byte '?' else c

def yamlFail {α : Type} (text : Bytes) : YamlParse α := fun _ => .error (.rule (some (yamlReason text)))

/-- `yaml_fail` after a call that may have named a rule: the first one stays. -/
def orElse {α : Type} (m : YamlParse α) (text : String) : YamlParse α := fun events =>
  match m events with
  | .error (.rule none) => yamlFail (ascii text) events
  | r => r

/-- `yaml_fail` after a call whose rule is dropped. -/
def instead {α : Type} (m : YamlParse α) (text : String) : YamlParse α := fun events =>
  match m events with
  | .error (.rule _) => yamlFail (ascii text) events
  | r => r

variable (stop : YamlStop)

def yamlEventForbidden : YamlEvent → Option String
  | .alias => some "YAML aliases are not supported"
  | .scalar true _ _ => some "YAML anchors and tags are not supported"
  | .sequenceStart true => some "YAML anchors and tags are not supported"
  | .mappingStart true => some "YAML anchors and tags are not supported"
  | _ => none

def yamlNext : YamlParse YamlEvent
  | [] =>
    match stop with
    | .memory => .error .memory
    | .problem text line => yamlFail (text ++ ascii (" at line " ++ toString (line + 1))) []
  | event :: events =>
    match yamlEventForbidden event with
    | some rule => yamlFail (ascii rule) events
    | none => .ok (event, events)

/-- The next event, which must be this one. -/
def yamlExpect (wanted : YamlEvent → Bool) : YamlParse YamlEvent := do
  let event ← yamlNext stop
  if wanted event then return event else fun _ => .error (.rule none)

def yamlScalar (cap : ℕ) (plainOnly : Bool) : YamlEvent → YamlParse Bytes
  | .scalar _ value plain =>
    if (plainOnly ∧ ¬ plain) ∨ value.length ≥ cap ∨ value.contains 0 then yamlFail (ascii "invalid scalar value")
    else return value
  | _ => yamlFail (ascii "expected a scalar value")

def yamlString (cap : ℕ) (event : YamlEvent) : YamlParse Bytes := yamlScalar cap false event

def yamlBool (event : YamlEvent) : YamlParse Bool := do
  let text ← yamlScalar 16 true event
  if text = ascii "true" then return true
  else if text = ascii "false" then return false
  else yamlFail (ascii "expected boolean true or false")

def isBlank (c : UInt8) : Bool := c == 32 || (9 ≤ c && c ≤ 13)

/-- The value of `strtoul` in base ten and the bytes that it leaves; `none` when the value does not fit. -/
def strtoul (text : Bytes) : Option (ℕ × Bytes) :=
  let body := text.dropWhile isBlank
  let negative := body.head? == some (byte '-')
  let body := if negative || body.head? == some (byte '+') then body.drop 1 else body
  let digits := body.takeWhile isDecimal
  if digits = [] then some (0, text)
  else
    let value := digits.foldl (fun n c => n * 10 + (c.toNat - 48)) 0
    if value ≥ 2 ^ 64 then none else some (if negative then (2 ^ 64 - value) % 2 ^ 64 else value, body.dropWhile isDecimal)

def profileParsePositive (text : Bytes) : Option ℕ :=
  if text = [] ∨ text.head? = some (byte '-') then none
  else
    match strtoul text with
    | some (value, []) => if value = 0 ∨ value ≥ 2 ^ 32 then none else some value
    | _ => none

def yamlPositive (event : YamlEvent) : YamlParse ℕ := do
  let text ← yamlScalar 32 true event
  match profileParsePositive text with
  | some value => return value
  | none => yamlFail (ascii "expected a positive integer")

def yamlMappingStart : YamlEvent → YamlParse Unit
  | .mappingStart _ => return ()
  | _ => yamlFail (ascii "expected a mapping")

def yamlSequenceStart : YamlEvent → YamlParse Unit
  | .sequenceStart _ => return ()
  | _ => yamlFail (ascii "expected a sequence")

/-- The loop over the members of a mapping: `invalid` reports a key that is not a new string, `member` reads the value of
a key. -/
def mappingLoop {σ : Type} (invalid : String) (member : Bytes → YamlEvent → σ → YamlParse σ) :
    ℕ → List Bytes → σ → YamlParse σ
  | 0, _, _ => fun _ => .error (.rule none)
  | fuel + 1, seen, s => do
    let event ← yamlNext stop
    if event = .mappingEnd then return s
    else do
      let key ← orElse (yamlString 64 event) invalid
      if key ∈ seen ∨ seen.length = PROFILE_SEEN_KEY_CAP then yamlFail (ascii invalid)
      else do
        let value ← yamlNext stop
        let s ← member key value s
        mappingLoop invalid member fuel (seen ++ [key]) s

/-- A mapping whose first event is `event`; the loop ends with the events. -/
def parseMapping {σ : Type} (invalid : String) (member : Bytes → YamlEvent → σ → YamlParse σ) (event : YamlEvent) (s : σ) :
    YamlParse σ := do
  yamlMappingStart event
  fun events => mappingLoop stop invalid member (events.length + 1) [] s events

/-- The loop over the items of a sequence, of which there are at most `most`. -/
def sequenceLoop {α : Type} (tooMany : String) (most : ℕ) (item : YamlEvent → YamlParse α) :
    ℕ → List α → YamlParse (List α)
  | 0, _ => fun _ => .error (.rule none)
  | fuel + 1, items => do
    let event ← yamlNext stop
    if event = .sequenceEnd then return items
    else if items.length = most then yamlFail (ascii tooMany)
    else do
      let value ← item event
      sequenceLoop tooMany most item fuel (items ++ [value])

def parseSequence {α : Type} (tooMany : String) (most : ℕ) (item : YamlEvent → YamlParse α) (event : YamlEvent) :
    YamlParse (List α) := do
  yamlSequenceStart event
  fun events => sequenceLoop stop tooMany most item (events.length + 1) [] events

/-! ## Configurations and definitions -/

def parseDocker (event : YamlEvent) (p : Profile) : YamlParse Profile :=
  parseMapping stop "duplicate or invalid docker key"
    (fun key value p =>
      if key ≠ ascii "daemonJson" then yamlFail (ascii "unknown docker key: " ++ key)
      else do
        let text ← yamlString 4096 value
        return { p with dockerDaemonJson := text })
    event p

/-- A mount while it is read: its place and its target may be missing. -/
structure MountFields where
  location : Option Bytes := none
  mountPoint : Option Bytes := none
  writable : Bool := false

def parseMount (event : YamlEvent) : YamlParse ProfileMount := do
  let fields ← parseMapping stop "duplicate or invalid mount key"
    (fun key value (f : MountFields) =>
      if key = ascii "location" then do
        let text ← yamlString PATH_MAX value
        return { f with location := some text }
      else if key = ascii "mountPoint" then do
        let text ← yamlString PATH_MAX value
        return { f with mountPoint := some text }
      else if key = ascii "writable" then do
        let b ← yamlBool value
        return { f with writable := b }
      else yamlFail (ascii "unknown mount key: " ++ key))
    event {}
  match fields.location, fields.mountPoint with
  | some location, some mountPoint => return ⟨location, mountPoint, fields.writable⟩
  | _, _ => yamlFail (ascii "each mount requires location and mountPoint")

structure HookFields where
  stage : Bytes := ascii "ready"
  command : Option Bytes := none
  timeoutSeconds : ℕ := 60
  warn : Bool := false

def parseHook (event : YamlEvent) : YamlParse ProfileHook := do
  let fields ← parseMapping stop "duplicate or invalid provision key"
    (fun key value (f : HookFields) =>
      if key = ascii "stage" then do
        let text ← yamlString 16 value
        return { f with stage := text }
      else if key = ascii "command" then do
        let text ← yamlString PROFILE_HOOK_COMMAND_CAP value
        return { f with command := some text }
      else if key = ascii "timeoutSeconds" then do
        let n ← yamlPositive value
        return { f with timeoutSeconds := n }
      else if key = ascii "mode" then do
        let mode ← yamlString 16 value
        if mode ≠ ascii "fail" ∧ mode ≠ ascii "warn" then yamlFail (ascii "provision mode must be fail or warn")
        else return { f with warn := mode = ascii "warn" }
      else yamlFail (ascii "unknown provision key: " ++ key))
    event {}
  match fields.command with
  | some command => return ⟨fields.stage, command, fields.timeoutSeconds, fields.warn⟩
  | none => yamlFail (ascii "each provision hook requires command")

/-- A setting of a configuration. -/
def parseSetting (key : Bytes) (value : YamlEvent) (p : Profile) : YamlParse Profile :=
  if key = ascii "cpus" then do
    let n ← yamlPositive value
    return { p with cpus := n }
  else if key = ascii "memoryMiB" then do
    let n ← yamlPositive value
    return { p with memMib := n }
  else if key = ascii "diskGiB" then do
    let n ← yamlPositive value
    return { p with diskGib := n }
  else if key = ascii "mountHome" then do
    let b ← yamlBool value
    return { p with mountHome := b }
  else if key = ascii "homeReadOnly" then do
    let b ← yamlBool value
    return { p with homeReadOnly := b }
  else if key = ascii "mountInotify" then do
    let b ← yamlBool value
    return { p with mountInotify := b }
  else if key = ascii "docker" then parseDocker stop value p
  else if key = ascii "rosetta" then do
    let b ← yamlBool value
    return { p with rosetta := b }
  else if key = ascii "nestedVirtualization" then do
    let b ← yamlBool value
    return { p with nestedVirtualization := b }
  else if key = ascii "sshAgent" then do
    let b ← yamlBool value
    return { p with sshAgent := b }
  else if key = ascii "mounts" then do
    let mounts ← parseSequence stop "too many mounts" PROFILE_MAX_MOUNTS (parseMount stop) value
    return { p with mounts }
  else if key = ascii "provision" then do
    let hooks ← parseSequence stop "too many provision hooks" PROFILE_MAX_HOOKS (parseHook stop) value
    return { p with hooks }
  else yamlFail (ascii "unknown configuration key: " ++ key)

def parseRoot (event : YamlEvent) (p : Profile) : YamlParse Profile := do
  let p ← parseMapping stop "duplicate or invalid configuration key" (parseSetting stop) event p
  match profileViolation cjson p with
  | some rule => yamlFail (ascii rule)
  | none => return p

def parseConstant (key expected : String) (event : YamlEvent) : YamlParse Unit :=
  instead
    (do
      let value ← yamlString 64 event
      if value ≠ ascii expected then fun _ => .error (.rule none) else return ())
    (key ++ " must be " ++ expected)

def parseMetadata (event : YamlEvent) (p : Profile) : YamlParse Profile :=
  parseMapping stop "duplicate or invalid metadata key"
    (fun key value p =>
      if key ≠ ascii "name" then yamlFail (ascii "unknown metadata key: " ++ key)
      else
        instead
          (do
            let name ← yamlString PROFILE_NAME_CAP value
            if profileNameValid name = false then fun _ => .error (.rule none) else return { p with name })
          "metadata.name is not a valid profile name")
    event p

/-- A definition while it is read. -/
structure DefinitionFields where
  profile : Profile
  haveVersion : Bool := false
  haveKind : Bool := false
  haveSpec : Bool := false

def parseDefinition (event : YamlEvent) (p : Profile) : YamlParse Profile := do
  let fields ← parseMapping stop "duplicate or invalid definition key"
    (fun key value (f : DefinitionFields) =>
      if key = ascii "apiVersion" then do
        parseConstant "apiVersion" "hamn/v1" value
        return { f with haveVersion := true }
      else if key = ascii "kind" then do
        parseConstant "kind" "Profile" value
        return { f with haveKind := true }
      else if key = ascii "metadata" then do
        let profile ← parseMetadata stop value f.profile
        return { f with profile }
      else if key = ascii "spec" then do
        let profile ← parseRoot cjson stop value f.profile
        return { f with profile, haveSpec := true }
      else yamlFail (ascii "unknown definition key: " ++ key))
    event { profile := p }
  if ¬ fields.haveVersion ∨ ¬ fields.haveKind ∨ ¬ fields.haveSpec ∨ fields.profile.name = [] then
    yamlFail (ascii "a profile definition requires apiVersion, kind, metadata.name and spec")
  else return fields.profile

/-- The one document of a text; `root` reads its root node. -/
def parseDocument (root : YamlEvent → Profile → YamlParse Profile) : YamlParse Profile := do
  let _ ← yamlExpect stop (· = .streamStart)
  let start ← yamlExpect stop fun event => event matches .documentStart _
  if start = .documentStart true then yamlFail (ascii "YAML tag directives are not supported")
  else do
    let event ← yamlNext stop
    let p ← root event profileDefaults
    let _ ← yamlExpect stop (· = .documentEnd)
    let _ ← yamlExpect stop (· = .streamEnd)
    return p

end Reader

/-- `profile_parse_document`: the settings in the text, the rule it breaks, or no memory to tell. -/
def profileParseDocument (stream : YamlStream) (root : YamlEvent → Profile → YamlParse Profile) :
    Except Refusal Profile :=
  match (orElse (parseDocument stream.stop root) "expected exactly one YAML configuration document") stream.events with
  | .ok (p, _) => .ok p
  | .error refusal => .error refusal

section Texts

variable (yaml : Bytes → YamlStream) (cjson : Bytes → Option CJson)

/-- The settings of a `config.yaml`. -/
def profileParse (text : Bytes) : Except Refusal Profile :=
  profileParseDocument (yaml text) (parseRoot cjson (yaml text).stop)

/-- `profile_definition_parse`. -/
def profileDefinitionParse (text : Bytes) : Except Refusal Profile :=
  if text.length > PROFILE_DEFINITION_CAP then
    .error (.rule (some (ascii "a profile definition holds at most 65536 bytes")))
  else profileParseDocument (yaml text) (parseDefinition cjson (yaml text).stop)

/-! ## Writing -/

/-- Why settings cannot be stored. -/
inductive TextError where
  | inval | overflow | ilseq
  deriving DecidableEq, Repr

def textAppend (text more : Bytes) : Except TextError Bytes :=
  if text.length + more.length < PROFILE_YAML_CAP then .ok (text ++ more) else .error .overflow

def quoteByte (c : UInt8) : Option Bytes :=
  if c = byte '\\' then some (ascii "\\\\")
  else if c = byte '"' then some (ascii "\\\"")
  else if c = 10 then some (ascii "\\n")
  else if c = 13 then some (ascii "\\r")
  else if c = 9 then some (ascii "\\t")
  else if c < 0x20 then none
  else some [c]

def quoteLoop : Bytes → Bytes → Except TextError Bytes
  | text, [] => .ok text
  | text, c :: value =>
    match quoteByte c with
    | none => .error .ilseq
    | some more => do
      let text ← textAppend text more
      quoteLoop text value

def textQuote (text value : Bytes) : Except TextError Bytes := do
  let text ← textAppend text (ascii "\"")
  let text ← quoteLoop text value
  textAppend text (ascii "\"")

def boolText (b : Bool) : String := if b then "true" else "false"

def mountText (text : Bytes) (mount : ProfileMount) : Except TextError Bytes := do
  let text ← textAppend text (ascii "  - location: ")
  let text ← textQuote text mount.location
  let text ← textAppend text (ascii "\n    mountPoint: ")
  let text ← textQuote text mount.mountPoint
  textAppend text (ascii ("\n    writable: " ++ boolText mount.writable ++ "\n"))

def hookText (text : Bytes) (hook : ProfileHook) : Except TextError Bytes := do
  let text ← textAppend text (ascii "  - stage: ")
  let text ← textQuote text hook.stage
  let text ← textAppend text (ascii "\n    command: ")
  let text ← textQuote text hook.command
  textAppend text (ascii ("\n    timeoutSeconds: " ++ toString hook.timeoutSeconds ++ "\n    mode: " ++
    (if hook.warn then "warn" else "fail") ++ "\n"))

def profileSerialize (p : Profile) : Except TextError Bytes := do
  let text ← textAppend [] (ascii ("cpus: " ++ toString p.cpus ++ "\nmemoryMiB: " ++ toString p.memMib ++
    "\ndiskGiB: " ++ toString p.diskGib ++ "\n"))
  let text ← textAppend text (ascii ("mountHome: " ++ boolText p.mountHome ++ "\nhomeReadOnly: " ++
    boolText p.homeReadOnly ++ "\nmountInotify: " ++ boolText p.mountInotify ++ "\n"))
  let text ← textAppend text (ascii "docker:\n  daemonJson: ")
  let text ← textQuote text p.dockerDaemonJson
  let text ← textAppend text (ascii ("\nrosetta: " ++ boolText p.rosetta ++ "\nnestedVirtualization: " ++
    boolText p.nestedVirtualization ++ "\nsshAgent: " ++ boolText p.sshAgent ++ "\n"))
  let text ← textAppend text (ascii (if p.mounts = [] then "mounts: []\n" else "mounts:\n"))
  let text ← p.mounts.foldlM mountText text
  let text ← textAppend text (ascii (if p.hooks = [] then "provision: []\n" else "provision:\n"))
  p.hooks.foldlM hookText text

/-- Whether the text reads as the same settings. -/
def profileTextReadsBack (p : Profile) (text : Bytes) : Bool :=
  match profileParse yaml cjson text with
  | .ok stored => profileDiff p stored = []
  | .error _ => false

/-- The text that `profile_save` writes. -/
def profileText (p : Profile) : Except TextError Bytes :=
  if (profileViolation cjson p).isSome then .error .inval
  else do
    let text ← profileSerialize p
    if profileTextReadsBack yaml cjson p text then .ok text else .error .ilseq

def profileStorable (p : Profile) : Bool :=
  match profileText yaml cjson p with
  | .ok _ => true
  | .error _ => false

theorem readsBack_of_profileText {p : Profile} {text : Bytes} (h : profileText yaml cjson p = .ok text) :
    ∃ stored, profileParse yaml cjson text = .ok stored ∧ profileDiff p stored = [] := by
  unfold profileText at h
  obtain ⟨-, h⟩ := Result.else_of_eq h nofun
  obtain ⟨text', -, h⟩ := Result.bind_eq_ok.mp h
  by_cases hb : profileTextReadsBack yaml cjson p text' = true
  · rw [if_pos hb] at h
    obtain rfl := Except.ok.inj h
    unfold profileTextReadsBack at hb
    cases hp : profileParse yaml cjson text' with
    | error e =>
      rw [hp] at hb
      cases hb
    | ok stored =>
      rw [hp] at hb
      exact ⟨stored, rfl, of_decide_eq_true hb⟩
  · rw [if_neg hb] at h
    cases h

end Texts

end Hamn.Host
