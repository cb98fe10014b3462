import Hamn.Tui.Action
import Hamn.Tui.State

/-!
# Screen — the state of one workspace (`State` of `control/tui_state.rs`)

The whole state that the event loop keeps of a workspace: the selection (`State`), the target of typed commands, what
waits for a confirmation, the account of changes, and the screens that Esc returns to.  What the argument parser, the
kubeconfig, the checks of a request beyond its operation, the preferences and the terminal answer is an argument
(`Answers`).

* `view`: a structured command.
* `openPicker`, `cancelPicker`, `saveBrowser`, `returnToBrowser`: screens that are left and found again.
* `Selection.apply`: the configuration that a CLI left behind.
* `Screen.Ok`: everything on a screen belongs to its workspace.
-/

namespace Hamn.Tui

/-- A screen that Esc returns to. -/
structure Browser where
  native : Option Invocation
  request : Request
  environmentPicker : Bool
  data : Value
  selected : Option ℕ
  filter : String
  detail : Option String
  rowDetail : Option RowDetail
  connectionStatus : String
  stale : Bool
  showOperation : Bool

structure Screen extends State Invocation where
  browser : Option Browser
  pickerReturn : Option Browser
  dockerContext : Option String
  dockerConfig : Option String
  connectionStatus : String
  pending : Option Request
  pendingNative : Option Action
  uncertain : List Value
  quitConfirmation : Bool
  operationStatus : String
  operationLog : String
  showOperation : Bool

/-- A saved target (`preferences::Target`). -/
inductive Target where
  | hamn (name : String)
  | docker (name : String) (config : Option String)
  | kubernetes (name : String) (namespace_ config : Option String)
  deriving DecidableEq

/-- What the surroundings answer while one event is handled. -/
structure Answers where
  env : Env
  now : String
  /-- The request that the words after the first one make with it. -/
  parsed : List Word → Except Failure Request
  /-- What a request with a known operation is refused for. -/
  refused : Request → Option Failure
  /-- The namespace that the kubeconfig gives to the context of a request. -/
  contextNamespace : Request → Except Failure String
  /-- A confirmation fits on the terminal. -/
  visible : Bool
  /-- A terminal for the CLI cannot be opened. -/
  session : Option Failure
  /-- The preferences cannot be written. -/
  unsaved : Option String
  targets : Except String (List Target)
  /-- What is offered after the text of a command. -/
  suggestion : String → Option String
  /-- The time of a refresh has come. -/
  due : Bool

namespace Screen

variable (lib : Lib) (ask : Answers)

/-! ## Messages -/

def notify (s : Screen) (text : String) : Screen := { s with message := .info text }

/-- A warning differs from other messages in its color. -/
def warn (s : Screen) (text : String) : Screen := s.notify text

def fail (s : Screen) (failure : Failure) : Screen := { s with message := .failure failure }

/-! ## The view -/

/-- What `parse` reads. -/
def scope (s : Screen) : Scope := ⟨s.workspace, s.dockerContext, s.dockerConfig, s.request⟩

def parse (s : Screen) (text : String) : Except Failure Invocation := Hamn.Tui.parse ask.env text.toList s.scope

def hamnEnvironment (s : Screen) : Bool :=
  s.workspace == .containers && s.dockerContext.isNone && s.native.all fun i => i.hamnProfile.isSome

def vmPanel (s : Screen) : Bool :=
  !s.environmentPicker && s.native.isNone && s.hamnEnvironment && s.request.operation == "vm list"

def snapshot (s : Screen) : Browser where
  native := s.native
  request := s.request
  environmentPicker := s.environmentPicker
  data := s.data
  selected := s.selected
  filter := s.filter
  detail := s.detail
  rowDetail := s.rowDetail
  connectionStatus := s.connectionStatus
  stale := s.stale
  showOperation := s.showOperation

def restore (s : Screen) (b : Browser) : Screen :=
  { s with
    native := b.native
    request := b.request
    environmentPicker := b.environmentPicker
    data := b.data
    selected := b.selected
    filter := b.filter
    detail := b.detail
    rowDetail := b.rowDetail
    connectionStatus := b.connectionStatus
    stale := b.stale
    showOperation := b.showOperation }

def saveBrowser (s : Screen) : Screen := if s.native.isSome then { s with browser := some s.snapshot } else s

def openPicker (s : Screen) : Screen :=
  { s with
    pickerReturn := some (s.pickerReturn.getD s.snapshot)
    native := none
    environmentPicker := false
    detail := none
    showOperation := false
    data := .null
    selected := some 0
    filter := ""
    stale := true
    connectionStatus := "Connecting" }

def discardPicker (s : Screen) : Screen := { s with pickerReturn := none }

/-- The screen before the picker, if one was left. -/
def cancelPicker (s : Screen) : Option Screen := s.pickerReturn.map fun b => ({ s with pickerReturn := none }).restore b

def returnToBrowser (s : Screen) : Screen :=
  let t : Screen := { s with
    environmentPicker := false
    detail := none
    request := { s.request with words := ["docker", "containers", "list"] }
    browser := none }
  match s.browser.filter fun b => b.request.profile == s.request.profile with
  | some b => t.restore b
  | none => { t with native := (t.parse ask "").toOption, selected := some 0, filter := "" }

def invalidateResults (s : Screen) : Screen :=
  { s with
    browser := none
    pickerReturn := none
    data := .null
    stale := true
    selected := some 0
    filter := ""
    detail := none
    pendingNative := none
    forward := none
    input := if s.forward.isSome then none else s.input
    connectionStatus := "Connecting" }

/-- `F`: the port prompt of the selected row. -/
def openPortForward (s : Screen) : Except Failure Screen := do
  if s.stale ∨ s.loading then .error ⟨"staleData", "refresh before acting on previous data"⟩
  let list ← orElse s.native (noSelection "select a resource list")
  let row ← orElse (s.selectedRow lib) (noSelection "select a resource first")
  let ports ← forwardPorts list row
  .ok { s with forward := some (list, row), input := some ('F', ports) }

/-- The selection moves by `delta` rows; in a text only the text scrolls. -/
def moveBy (s : Screen) (delta : ℤ) : Screen :=
  if s.detail.isSome ∨ s.showOperation ∨ s.help then s
  else
    let count := (s.rows lib).length
    if count = 0 then { s with selected := none }
    else
      match s.selected with
      | some i => { s with selected := some (min (i + delta).toNat (count - 1)) }
      | none => { s with selected := some (if delta < 0 then count - 1 else 0) }

/-! ## Structured commands -/

def VIEW_ALIASES : List (String × String) :=
  [("vm", "vm list"), ("containers", "docker containers list"), ("images", "docker images list"),
    ("volumes", "docker volumes list"), ("networks", "docker networks list"), ("contexts", "k8s contexts list"),
    ("ctx", "k8s contexts list"), ("ns", "k8s namespaces list"), ("namespaces", "k8s namespaces list"),
    ("pods", "k8s pods list"), ("po", "k8s pods list"), ("deployments", "k8s deployments list"),
    ("deploy", "k8s deployments list"), ("sts", "k8s statefulsets list"), ("ds", "k8s daemonsets list"),
    ("services", "k8s services list"), ("svc", "k8s services list"), ("nodes", "k8s nodes list"),
    ("no", "k8s nodes list"), ("events", "k8s events list"), ("jobs", "k8s jobs list"),
    ("cronjobs", "k8s cronjobs list"), ("ingresses", "k8s ingresses list"), ("pvcs", "k8s pvcs list")]

/-- `try_parse_from`: the first word of a view is no option, so it is the first word of the request. -/
def tryParse : List Word → Except Failure Request
  | [] => .error ⟨"invalidRequest", "no operation"⟩
  | head :: rest => (ask.parsed rest).map fun r => { r with words := String.ofList head :: r.words }

def normalize (r : Request) : Except Failure Request :=
  if r.words.length = 4 then
    if r.name.isSome then .error ⟨"invalidRequest", "name specified twice"⟩
    else .ok { r with name := r.words.getLast?, words := r.words.dropLast }
  else .ok r

/-- Why an operation is unknown. -/
def unknownOperation (r : Request) : String :=
  let second := (r.words[1]?).getD ""
  let positionalProfile := decide (2 < r.words.length) && r.words.head? == some "vm" && second != "list" &&
    OPERATIONS.any fun op => op.1 == Request.joined (r.words.take 2)
  if positionalProfile = true ∧ second = "apply" then
    "unknown operation; pass the profile definition with --file <path> and the profile with --profile <name>, " ++
      "not a positional word"
  else if positionalProfile = true ∧ (second = "up" ∨ second = "down") then
    "unknown operation; pass the workspace with --workspace <absolute path>, not a positional word"
  else if positionalProfile then
    "unknown operation; select the VM profile with --profile <name>, not a positional word"
  else "unknown operation; use --headless capabilities"

def validate (r : Request) : Except Failure Unit :=
  if r.known = false then .error ⟨"invalidRequest", unknownOperation r⟩
  else
    match ask.refused r with
    | some failure => .error failure
    | none => .ok ()

/-- The request names a context or a kubeconfig other than the screen's. -/
def contextChanged (s : Screen) (r : Request) : Bool :=
  (r.context.isSome && r.context != s.request.context) || (r.kubeconfig.isSome && r.kubeconfig != s.request.kubeconfig)

/-- What a typed request takes over from the screen; a Docker one exactly one target. -/
def inherit (s : Screen) (r : Request) : Request :=
  if r.words.head? = some "docker" then
    let r :=
      if r.profile = none ∧ r.context = none then
        { r with context := s.dockerContext, profile := if s.dockerContext = none then s.request.profile else none }
      else r
    if r.context.isSome then { r with dockerConfig := r.dockerConfig.or s.dockerConfig } else r
  else
    { r with
      profile := if r.selectsWorkspace then r.profile else r.profile.or s.request.profile
      context := r.context.or s.request.context }

/-- The list that the screen stays on after the answer to a request. -/
def listOf (r : Request) : Request :=
  if r.words.getLast?.any (· != "list") then
    { r.withLast "list" with name := none, uid := none, dryRun := false }
  else r

/-- A read becomes the view; a Docker one also the target. -/
def establish (s : Screen) (r : Request) : Screen :=
  let docker := r.words.head? == some "docker"
  { s with
    dockerContext := if docker then r.context else s.dockerContext
    dockerConfig := if docker then r.dockerConfig else s.dockerConfig
    native := none
    environmentPicker := false
    request := listOf r
    data := .null
    stale := false }

/-- The request with what it takes over from the screen. -/
def complete (s : Screen) (changed : Bool) (r : Request) : Request :=
  let r := s.inherit r
  { r with
    namespace_ := if changed then r.namespace_ else r.namespace_.or s.request.namespace_
    kubeconfig := r.kubeconfig.or s.request.kubeconfig }

/-- Another context brings its own namespace. -/
def resolveNamespace (changed : Bool) (r : Request) : Except Failure Request :=
  if changed = true ∧ r.namespace_ = none ∧ r.words.head? = some "k8s" then
    (ask.contextNamespace r).map fun n => { r with namespace_ := some n }
  else .ok r

/-- The request of a structured command. -/
def viewRequest (s : Screen) (command : String) : Except Failure Request := do
  let typed ← splitCommand ((VIEW_ALIASES.lookup command).getD command).toList
  let parsed ← tryParse ask typed
  let r ← normalize parsed
  let r ← resolveNamespace ask (s.contextChanged r) (s.complete (s.contextChanged r) r)
  validate ask r
  .ok r

def view (s : Screen) (command : String) : Except Failure (Screen × Request) := do
  let r ← s.viewRequest ask command
  let t := if r.mutates then s else s.establish r
  .ok ({ t with selected := some 0, filter := "", detail := none }, r)

/-- The request with the row as its object. -/
def actionRequest (s : Screen) (row : Value) (action : String) : Request :=
  let metadata := row.index "metadata"
  let r := s.request.withLast action
  if r.words.head? = some "vm" then { r with profile := (row.index "name").asStr }
  else
    { r with
      name := (row.index "Id").asStr.or (metadata.index "name").asStr
      uid := (metadata.index "uid").asStr
      namespace_ := (metadata.index "namespace").asStr.or r.namespace_ }

/-- The request of an action on the selected row of a structured list. -/
def action (s : Screen) (action : String) : Except Failure Request :=
  if s.environmentPicker then
    .error ⟨"selectEnvironment", "Select an environment with Enter before using resource actions"⟩
  else if s.stale then .error ⟨"staleData", "refresh this view before acting on previous data"⟩
  else do
    let row ← orElse (s.selectedRow lib) (noSelection "select a resource first")
    validate ask (s.actionRequest row action)
    .ok (s.actionRequest row action)

/-- `X` in the VM panel. -/
def purge (s : Screen) : Except Failure Request := do
  let r ← s.action lib ask "delete"
  validate ask { r with purge := true }
  .ok { r with purge := true }

/-- `c` in the VM panel: a command with the settings of the selected profile. -/
def editSettings (s : Screen) : Screen :=
  match s.selectedRow lib with
  | none => s
  | some row =>
    match row.index "configurationError" with
    | .string _ => { s with toState := s.showRowDetail lib row }
    | _ =>
      let memory := (asU64 (row.index "memoryMiB")).getD 4096 / 1024
      let command := "vm configure --profile " ++ (row.index "name").asStr.getD "default" ++ " --cpu " ++
        lib.compact (row.index "cpus") ++ " --memory " ++ toString memory ++ " --disk " ++
        lib.compact (row.index "diskGiB")
      { s with input := some (':', command) }

/-- The pods of the context and namespace of the screen. -/
def openPods (s : Screen) : Screen × Except Failure (Option Request) :=
  match s.view ask "pods" with
  | .ok (t, r) => (t, .ok (some r))
  | .error failure => (s, .error failure)

/-- Enter on a row of a structured list: the request that it leads to. -/
def enter (s : Screen) : Screen × Except Failure (Option Request) :=
  match s.selectedRow lib with
  | none => (s, .ok none)
  | some row =>
    let operation := s.request.operation
    if operation = "k8s contexts list" then
      let t := s.invalidateResults
      openPods ask { t with request := { t.request with
        context := (row.index "name").asStr, namespace_ := (row.index "namespace").asStr } }
    else if operation = "k8s namespaces list" then
      let t := s.invalidateResults
      openPods ask { t with request := { t.request with
        namespace_ := ((row.index "metadata").index "name").asStr } }
    else if operation = "vm list" then
      let t := s.discardPicker
      let t : Screen := { t with request := { t.request with profile := (row.index "name").asStr } }
      ({ t with toState := t.showRowDetail lib row }, .ok none)
    else if ["docker images list", "docker volumes list", "docker networks list"].contains operation then
      ({ s with toState := s.showRowDetail lib row }, .ok none)
    else (s, (s.action lib ask "inspect").map some)

/-- No read runs, nothing waits for an answer, and what is shown is what a read of the view changes. -/
def mayRefreshInBackground (s : Screen) : Bool :=
  !s.loading && !s.refreshing && s.pending.isNone && s.pendingNative.isNone && s.input.isNone &&
    (s.detail.isNone || s.detailFollowsRows)

/-! ## Targets -/

/-- The list of the workspace with the target of the screen. -/
def openList (s : Screen) : Screen × Except Failure Unit :=
  match s.parse ask "" with
  | .ok i => ({ s with native := some i }, .ok ())
  | .error failure => (s, .error failure)

/-- The rest of `apply_target` on the screen of its workspace. -/
def applyTarget (s : Screen) (target : Target) : Screen × Except Failure Unit :=
  let t : Screen := { s.invalidateResults with environmentPicker := false }
  match target with
  | .hamn name => openList ask { t with request := { t.request with profile := some name }, dockerContext := none }
  | .docker name config =>
    openList ask { t with
      request := { t.request with profile := none }, dockerContext := some name, dockerConfig := config }
  | .kubernetes name namespace_ config =>
    openList ask { t with
      request := { t.request with context := some name, namespace_ := namespace_, kubeconfig := config } }

/-- The words of a target's connection in `current_target`. -/
def targetOptions (workspace : Workspace) : List Word :=
  match workspace with
  | .containers => words ["--context", "-c", "--config"]
  | .kubernetes => words ["--context", "--namespace", "-n", "--kubeconfig"]

/-- `trim_start_matches('=')` -/
def trimEquals : Word → Word
  | '=' :: rest => trimEquals rest
  | word => word

/-- The context, the namespace and the configuration of a connection, if it is nothing else. -/
def connectionTarget (workspace : Workspace) (found : Option Word × Option Word × Option Word) :
    List Word → Option (Option Word × Option Word × Option Word)
  | [] => some found
  | arg :: rest =>
    match (targetOptions workspace).find? (isOption arg) with
    | none => none
    | some name =>
      let put (value : Word) : Option Word × Option Word × Option Word :=
        if (words ["--context", "-c"]).contains name then (some value, found.2)
        else if (words ["--namespace", "-n"]).contains name then (found.1, some value, found.2.2)
        else (found.1, found.2.1, some value)
      if arg = name then
        match rest with
        | [] => none
        | value :: rest => connectionTarget workspace (put value) rest
      else connectionTarget workspace (put (trimEquals (arg.drop name.length))) rest

/-- The target on the screen. -/
def currentTarget (s : Screen) : Option Target := do
  let list ← s.native
  match list.hamnProfile with
  | some name => some (.hamn name)
  | none =>
    let (context, namespace_, config) ←
      connectionTarget list.workspace (none, none, none) (connections list.args list.workspace none)
    let name ← context
    match list.workspace with
    | .kubernetes => some (.kubernetes (String.ofList name) (namespace_.map String.ofList) (config.map String.ofList))
    | .containers => some (.docker (String.ofList name) (config.map String.ofList))

end Screen

/-! ## The configuration of a CLI -/

/-- `environments::Selection` -/
inductive Selection where
  | docker (context config : Option String)
  | kubernetes (context namespace_ config : Option String)

/-- What a CLI's configuration says. -/
structure Configured where
  context : Option String
  namespace_ : Option String
  config : Option String

/-- What `reload` makes of the configuration that it reads. -/
def reload (i : Invocation) (found : Configured) : Selection :=
  match i.workspace with
  | .containers => .docker found.context found.config
  | .kubernetes => .kubernetes found.context found.namespace_ found.config

/-- The workspace that `Selection::apply` asserts. -/
def Selection.workspace : Selection → Workspace
  | .docker .. => .containers
  | .kubernetes .. => .kubernetes

/-- `Selection::apply` after its assertion. -/
def Selection.apply (ask : Answers) (selection : Selection) (s : Screen) : Screen × Except Failure Unit :=
  match selection with
  | .docker context config =>
    Screen.openList ask { s with
      dockerContext := context, dockerConfig := config, request := { s.request with profile := none },
      environmentPicker := false }
  | .kubernetes context namespace_ config =>
    let t : Screen := { s with
      request := { s.request with context := context, namespace_ := namespace_, kubeconfig := config },
      environmentPicker := false }
    if context = none then
      ({ t with native := none, request := { t.request with words := ["k8s", "contexts", "list"] } }, .ok ())
    else Screen.openList ask t

end Hamn.Tui
