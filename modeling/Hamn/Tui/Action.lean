import Hamn.Tui.Native

/-!
# Action — actions on the selected row (`control/native_actions.rs`, `control/guarded_action.rs`)

An action on a row is a command of the CLI that listed it: the connection options of the list, then the words of the
action.  The current time is a parameter; the body of a guarded deletion is left out.

* `build`: the command of an action; `selected`, `shell`, `portForward`, `logs` call it.
* `related`: the list of what belongs to a row.
-/

namespace Hamn.Tui

structure Action where
  invocation : Invocation
  changes : Bool

def PODS : List Word := words ["pods", "pod", "po"]

def RESTARTABLE : List Word :=
  words ["deployments", "deployment", "deploy", "statefulsets", "sts", "daemonsets", "ds"]

def FORWARDABLE : List Word :=
  words ["pods", "pod", "po", "services", "service", "svc", "deployments", "deployment", "deploy", "statefulsets",
    "statefulset", "sts", "replicasets", "replicaset", "rs", "daemonsets", "daemonset", "ds"]

def LOGGED : List Word :=
  words ["pods", "pod", "po", "deployments", "deployment", "deploy", "statefulsets", "statefulset", "sts",
    "daemonsets", "daemonset", "ds", "jobs", "job"]

def SHELL : Word := "command -v bash >/dev/null && exec bash || exec sh".toList

def noSelection (message : String) : Failure := ⟨"noSelection", message⟩

def unsupported (message : String) : Failure := ⟨"unsupportedOperation", message⟩

def invalidResponse (message : String) : Failure := ⟨"invalidResponse", message⟩

/-- `ok_or_else` -/
def orElse {α : Type} (value : Option α) (failure : Failure) : Except Failure α :=
  match value with
  | some a => .ok a
  | none => .error failure

/-- Whether the list offers the action for its rows. -/
def offers (list : Invocation) (action : String) : Bool :=
  let resource := list.resource.getD []
  match list.workspace with
  | .containers =>
    if ["describe", "yaml", "delete"].contains action then
      (words ["containers", "images", "volumes", "networks"]).contains resource
    else if ["logs", "shell", "stats", "start", "stop", "restart"].contains action then resource == "containers".toList
    else false
  | .kubernetes =>
    if ["describe", "yaml", "json", "delete"].contains action then resource != []
    else if action = "logs" then LOGGED.contains resource
    else if action = "shell" ∨ action = "stats" then PODS.contains resource
    else if action = "restart" then RESTARTABLE.contains resource
    else if action = "port-forward" then FORWARDABLE.contains resource
    else false

/-! ## Guarded actions -/

/-- `required`: the text at a path of the row. -/
def required (row : Value) (path : List String) : Except Failure String :=
  orElse ((path.foldl Value.index row).asStr.filter fun s => s ≠ "" ∧ s.utf8ByteSize ≤ 1024)
    (invalidResponse ("selected resource lacks " ++ path.foldl (fun text key => text ++ "/" ++ key) ""))

/-- A text that is one segment of a URI. -/
def segment (value : String) : Except Failure String :=
  if value = "" ∨ value = "." ∨ value = ".." ∨
      (value.toList.all fun c => isAsciiAlphanumeric c || "-._".toList.contains c) = false then
    .error (invalidResponse "unsafe resource identity")
  else .ok value

/-- The kind of a list that can be deleted from. -/
def DELETE_KINDS : List (List Word × String) :=
  [(words ["pods", "po", "pod"], "Pod"), (words ["deployments", "deployment", "deploy"], "Deployment"),
    (words ["services", "service", "svc"], "Service"), (words ["namespaces", "ns"], "Namespace"),
    (words ["nodes", "no"], "Node"), (words ["statefulsets", "sts"], "StatefulSet"),
    (words ["daemonsets", "ds"], "DaemonSet"), (words ["events"], "Event"), (words ["jobs"], "Job"),
    (words ["cronjobs"], "CronJob"), (words ["ingresses"], "Ingress"), (words ["pvcs"], "PersistentVolumeClaim")]

/-- The plural of a kind, and whether it has a namespace. -/
def PLURALS : List (String × String × Bool) :=
  [("Pod", "pods", true), ("Deployment", "deployments", true), ("Service", "services", true),
    ("Namespace", "namespaces", false), ("Node", "nodes", false), ("StatefulSet", "statefulsets", true),
    ("DaemonSet", "daemonsets", true), ("Event", "events", true), ("Job", "jobs", true),
    ("CronJob", "cronjobs", true), ("Ingress", "ingresses", true),
    ("PersistentVolumeClaim", "persistentvolumeclaims", true)]

/-- `split_once('/')` -/
def splitSlash (text : String) : Option (String × String) :=
  match text.toList.span (· ≠ '/') with
  | (_, []) => none
  | (group, _ :: version) => some (String.ofList group, String.ofList version)

/-- `guarded_action::delete`: the words of the deletion of exactly this object. -/
def guardedDelete (row : Value) (resource : Word) : Except Failure (List Word) := do
  let _ ← required row ["metadata", "uid"]
  let _ ← required row ["metadata", "resourceVersion"]
  let name ← segment (← required row ["metadata", "name"])
  let kind ← required row ["kind"]
  let expected ← orElse ((DELETE_KINDS.find? fun k => k.1.contains resource).map Prod.snd)
    (unsupported "unsupported deletion resource")
  if kind ≠ expected then .error (invalidResponse "resource kind does not match the selected list")
  let (plural, namespaced) ← orElse (PLURALS.lookup kind) (unsupported "unsupported resource kind for guarded deletion")
  let api ← required row ["apiVersion"]
  let root ←
    match splitSlash api with
    | some (group, version) => do .ok ("/apis/" ++ (← segment group) ++ "/" ++ (← segment version))
    | none => do .ok ("/api/" ++ (← segment api))
  let place ←
    if namespaced then do .ok ("/namespaces/" ++ (← segment (← required row ["metadata", "namespace"])))
    else .ok ""
  .ok ["delete".toList, "--raw".toList, (root ++ place ++ "/" ++ plural ++ "/" ++ name).toList]

/-- `guarded_action::restart`: a patch that tests the identity of the row. -/
def guardedRestart (lib : Lib) (now : String) (row : Value) (resource name : Word) : Except Failure (List Word) := do
  let uid ← required row ["metadata", "uid"]
  let version ← required row ["metadata", "resourceVersion"]
  let annotations ←
    match ["spec", "template", "metadata", "annotations"].foldl Value.index row with
    | .null => .ok []
    | .object members => .ok members
    | _ => .error (invalidResponse "invalid pod template annotations")
  let restarted := "kubectl.kubernetes.io/restartedAt"
  let annotations := annotations.filter (fun m => m.1 != restarted) ++ [(restarted, .string now)]
  let test (path : String) (value : Value) (op : String) : Value :=
    .object [("op", .string op), ("path", .string path), ("value", value)]
  let patch : Value := .array [test "/metadata/uid" (.string uid) "test",
    test "/metadata/resourceVersion" (.string version) "test",
    test "/spec/template/metadata/annotations" (.object annotations) "add"]
  .ok ["patch".toList, resource, name, "--type=json".toList, "--patch".toList, (lib.compact patch).toList]

/-! ## Commands -/

/-- Actions that ask to confirm. -/
def CHANGES : List String := ["start", "stop", "restart", "delete"]

def LOGS : List Word := words ["logs", "--follow", "--tail=200", "--timestamps"]

/-- The words of an action on a Docker object. -/
def dockerAction (resource name : Word) (action : String) : Except Failure (List Word) := do
  let singular ←
    if resource = "containers".toList then .ok "container".toList
    else if resource = "images".toList then .ok "image".toList
    else if resource = "volumes".toList then .ok "volume".toList
    else if resource = "networks".toList then .ok "network".toList
    else .error (unsupported "choose a Docker resource")
  if ["inspect", "describe", "yaml"].contains action then .ok [singular, "inspect".toList, name]
  else if action = "delete" then .ok [singular, "rm".toList, name]
  else if resource ≠ "containers".toList then
    .error (unsupported "this action does not apply to the selected Docker resource")
  else if action = "shell" then
    .ok (words ["exec", "--interactive", "--tty"] ++ [name] ++ words ["sh", "-c"] ++ [SHELL])
  else if ["start", "stop", "restart"].contains action then .ok [action.toList, name]
  else if action = "logs" then .ok (LOGS ++ [name])
  else if action = "stats" then .ok ["stats".toList, name]
  else .error (unsupported "this action does not apply to the selected Docker resource")

/-- The words of an action on a Kubernetes object. -/
def kubeAction (lib : Lib) (now : String) (row : Value) (resource name : Word) (action : String)
    (operands : List Word) : Except Failure (List Word) :=
  if ["inspect", "yaml", "json"].contains action then
    .ok ["get".toList, resource, name, "-o".toList, if action = "json" then "json".toList else "yaml".toList]
  else if action = "describe" then .ok ["describe".toList, resource, name]
  else if action = "shell" ∧ PODS.contains resource = true then
    .ok (words ["exec", "--stdin", "--tty"] ++ [resource ++ '/' :: name] ++ operands ++ words ["--", "sh", "-c"] ++
      [SHELL])
  else if action = "port-forward" ∧ FORWARDABLE.contains resource = true ∧ operands ≠ [] then
    .ok (["port-forward".toList, resource ++ '/' :: name] ++ operands)
  else if action = "delete" then guardedDelete row resource
  else if action = "logs" then .ok (LOGS ++ [resource ++ '/' :: name])
  else if action = "stats" ∧ PODS.contains resource = true then .ok ["top".toList, "pod".toList, name]
  else if action = "restart" ∧ RESTARTABLE.contains resource = true then guardedRestart lib now row resource name
  else .error (unsupported "use a kubectl command for this resource action")

def rowNamespace (row : Value) : Option Word := ((row.index "metadata").index "namespace").asStr.map String.toList

/-- The account of the connection, with the namespace of the row. -/
def withNamespace (target : Word) (namespace_ : Option Word) : Word :=
  match namespace_ with
  | some n => target ++ "  selected namespace: ".toList ++ n
  | none => target

/-- The command of an action on a row of `list`. -/
def build (lib : Lib) (now : String) (list : Invocation) (row : Value) (action : String) (operands : List Word) :
    Except Failure Action := do
  let resource ← orElse list.resource (noSelection "select a resource list")
  match list.workspace with
  | .containers =>
    let name ← orElse (((row.index "ID").asStr.or (row.index "Id").asStr).or (row.index "Name").asStr)
      (noSelection "CLI response has no resource identity")
    let tail ← dockerAction resource name.toList action
    .ok {
      invocation :=
        { list with args := connections list.args list.workspace none ++ tail, resource := none, resetSelection := false }
      changes := CHANGES.contains action }
  | .kubernetes =>
    let name ← orElse ((row.index "metadata").index "name").asStr (noSelection "CLI response has no resource name")
    let tail ← kubeAction lib now row resource name.toList action operands
    .ok {
      invocation :=
        { list with
          args := connections list.args list.workspace (rowNamespace row) ++ tail
          target := withNamespace list.target (rowNamespace row)
          resource := none
          resetSelection := false }
      changes := CHANGES.contains action }

def selected (lib : Lib) (now : String) (list : Invocation) (row : Value) (action : String) : Except Failure Action :=
  build lib now list row action []

def shell (lib : Lib) (now : String) (list : Invocation) (row : Value) (container : Option Word) :
    Except Failure Action :=
  match container with
  | some container =>
    if list.workspace = .containers then .error (unsupported "a Docker container has no containers to choose")
    else build lib now list row "shell" ["--container".toList, container]
  | none => build lib now list row "shell" []

/-! ## Port forwards -/

def isDigits (text : Word) : Bool := text != [] && text.all Char.isDigit

def digitsValue (text : Word) : ℕ := text.foldl (fun n c => 10 * n + (c.toNat - '0'.toNat)) 0

/-- A port number that fits a `u16`. -/
def portNumber (text : Word) : Option ℕ :=
  if isDigits text = true ∧ digitsValue text < 65536 then some (digitsValue text) else none

/-- A service name. -/
def portName (text : Word) : Bool :=
  decide (1 ≤ text.length ∧ text.length ≤ 15) && text.all (fun c => c.isLower || c.isDigit || c == '-') &&
    text.any Char.isLower && text.head? != some '-' && text.getLast? != some '-'

/-- Whether `kubectl port-forward` may be given the word. -/
def mappingOk (mapping : Word) : Bool :=
  let (local_, remote) :=
    match mapping.span (· ≠ ':') with
    | (_, []) => ([], mapping)
    | (before, _ :: after) => (before, after)
  ((portNumber remote).any (0 < ·) || portName remote) && (local_ == [] || (portNumber local_).isSome) &&
    (mapping.contains ':' || (portNumber remote).isSome)

/-- `split_whitespace` -/
def splitWhitespace (text : Word) : List Word :=
  (text.splitBy fun a b => isWhitespace a == isWhitespace b).filter fun word => word.all isWhitespace == false

def invalidPorts (mapping : Word) : Failure :=
  ⟨"invalidPorts", String.ofList mapping ++ ": enter LOCAL:REMOTE, :REMOTE or REMOTE, such as 8080:80"⟩

/-- The mappings of the prompt. -/
def mappings (text : Word) : Except Failure (List Word) :=
  match splitWhitespace text with
  | [] => .error (invalidPorts "no port".toList)
  | found =>
    match found.find? fun mapping => mappingOk mapping == false with
    | some mapping => .error (invalidPorts mapping)
    | none => .ok found

def portForward (lib : Lib) (now : String) (list : Invocation) (row : Value) (ports : Word) : Except Failure Action := do
  build lib now list row "port-forward" (← mappings ports)

/-- `as_u64` -/
def asU64 (v : Value) : Option ℕ :=
  match v with
  | .number text =>
    if isDigits text.toList = true ∧ digitsValue text.toList < 2 ^ 64 then some (digitsValue text.toList) else none
  | _ => none

/-- The mapping that the prompt starts with: the first port that the row declares. -/
def forwardPorts (list : Invocation) (row : Value) : Except Failure String := do
  if list.workspace ≠ .kubernetes ∨ offers list "port-forward" = false then
    .error (unsupported (if list.workspace = .containers then
      "Docker has no port-forward; publish ports when the container is created"
      else "port-forward applies to Pods, Services and workloads"))
  let _ ← orElse ((row.index "metadata").index "name").asStr (noSelection "CLI response has no resource name")
  let port :=
    if (words ["services", "service", "svc"]).contains (list.resource.getD []) then
      asU64 ((((row.index "spec").index "ports").item 0).index "port")
    else
      let template := (row.index "spec").index "template"
      let spec :=
        match template with
        | .object _ => template.index "spec"
        | _ => row.index "spec"
      (((spec.index "containers").asArray.getD []).flatMap fun c => (c.index "ports").asArray.getD []).findSome?
        fun port => asU64 (port.index "containerPort")
  .ok (match port.filter fun port => 1 ≤ port ∧ port ≤ 65535 with
    | some port => toString port ++ ":" ++ toString port
    | none => "")

/-! ## Logs and related lists -/

/-- The logs of a row, of one container or of its previous instance. -/
def logs (lib : Lib) (now : String) (list : Invocation) (row : Value) (container : Option Word) (previous : Bool) :
    Except Failure Action := do
  let action ← selected lib now list row "logs"
  match list.workspace with
  | .containers => .ok action
  | .kubernetes =>
    let args := action.invocation.args ++ (container.map fun c => ["--container".toList, c]).getD []
    let args :=
      if previous then args.filter (fun arg => arg != "--follow".toList) ++ ["--previous".toList] else args
    .ok { action with invocation := { action.invocation with args := args } }

/-- `collect::<Result<_>>` -/
def collect {α β : Type} (f : α → Except Failure β) : List α → Except Failure (List β)
  | [] => .ok []
  | a :: rest => do
    let b ← f a
    let bs ← collect f rest
    .ok (b :: bs)

/-- A requirement of a workload's selector. -/
def selectorExpression (expression : Value) : Except Failure Word := do
  let key ← orElse (expression.index "key").asStr (invalidResponse "Selector expression has no key")
  let values ← collect (fun (v : Value) => orElse (v.asStr.map String.toList)
    (invalidResponse "Selector expression value is not a string")) ((expression.index "values").asArray.getD [])
  let listed := joinWords [','] values
  let operator := (expression.index "operator").asStr
  if operator = some "In" ∧ values ≠ [] then .ok (key.toList ++ " in (".toList ++ listed ++ [')'])
  else if operator = some "NotIn" ∧ values ≠ [] then .ok (key.toList ++ " notin (".toList ++ listed ++ [')'])
  else if operator = some "Exists" then .ok key.toList
  else if operator = some "DoesNotExist" then .ok ('!' :: key.toList)
  else .error (invalidResponse "Invalid workload selector expression")

/-- The selector of a workload as `kubectl` takes it. -/
def workloadSelector (selector : Value) : Except Failure Word := do
  let members :=
    match selector.index "matchLabels" with
    | .object members => members
    | _ => []
  let labels ← collect (fun (m : String × Value) => orElse (m.2.asStr.map fun v => m.1.toList ++ '=' :: v.toList)
    (invalidResponse "Workload selector contains a non-string label")) members
  let expressions ← collect selectorExpression ((selector.index "matchExpressions").asArray.getD [])
  if labels ++ expressions = [] then
    .error ⟨"noSelector", "Workload has no selector; refusing an unrelated all-Pod query"⟩
  else .ok (joinWords [','] (labels ++ expressions))

/-- The words of a related list, and its resource. -/
def relation (row : Value) (action : String) : Except Failure (List Word × Word) := do
  if action = "related-events" then
    let uid ← orElse ((row.index "metadata").index "uid").asStr (noSelection "Pod has no UID")
    .ok (words ["get", "events", "--field-selector"] ++ ["involvedObject.uid=".toList ++ uid.toList], "events".toList)
  else if action = "related-endpoints" then
    let name ← orElse ((row.index "metadata").index "name").asStr (noSelection "Service has no name")
    .ok (words ["get", "endpointslices", "--selector"] ++ ["kubernetes.io/service-name=".toList ++ name.toList],
      "endpointslices".toList)
  else if action = "related-pods" then
    let selector ← workloadSelector ((row.index "spec").index "selector")
    .ok (words ["get", "pods", "--selector"] ++ [selector], "pods".toList)
  else .error (unsupported "No related resource list for this action")

/-- The list of what belongs to a row. -/
def related (list : Invocation) (row : Value) (action : String) : Except Failure Invocation :=
  if list.workspace = .containers ∧ list.resource = some "projects".toList then do
    let name ← orElse (row.index "Name").asStr (noSelection "Compose project has no name")
    .ok { list with
      args := connections list.args list.workspace none ++ words ["ps", "--all", "--filter"] ++
        ["label=com.docker.compose.project=".toList ++ name.toList]
      resource := some "containers".toList
      resetSelection := false }
  else do
    let (tail, resource) ← relation row action
    .ok { list with
      args := connections list.args list.workspace (rowNamespace row) ++ tail
      target := withNamespace list.target (rowNamespace row)
      resource := some resource
      resetSelection := false }

/-- The actions that the menu offers for a row. -/
def available (list : Invocation) (row : Value) : List String :=
  let resource := list.resource.getD []
  let state := (row.index "State").asStr
  let workloads := words ["deployments", "deployment", "deploy", "statefulsets", "statefulset", "sts", "daemonsets",
    "daemonset", "ds", "jobs", "job"]
  if list.workspace = .containers ∧ resource = "projects".toList then ["related-pods"]
  else
    let own :=
      match list.workspace with
      | .containers =>
        let running := if state = some "running" then ["shell"] else []
        let changes :=
          if state = some "running" ∨ state = some "restarting" then ["stop", "restart"]
          else if state = some "created" ∨ state = some "exited" then ["start"]
          else []
        let container := if resource = "containers".toList then ["logs"] ++ running ++ ["stats"] ++ changes else []
        let delete :=
          if (words ["containers", "images", "volumes", "networks"]).contains resource then ["delete"] else []
        ["inspect"] ++ container ++ delete
      | .kubernetes =>
        let runs := ((row.index "status").index "phase").asStr = some "Running"
        let offered := ["logs", "shell", "port-forward", "stats", "restart"].filter fun action =>
          offers list action && (action != "shell" || decide runs)
        let delete := if (guardedDelete row resource).toOption.isSome then ["delete"] else []
        ["describe", "yaml", "json"] ++ offered ++ delete
    let pods := if workloads.contains resource then ["related-pods"] else []
    let events :=
      if PODS.contains resource = true ∧ ((row.index "metadata").index "uid").asStr.isSome = true then ["related-events"]
      else []
    let endpoints :=
      if (words ["services", "service", "svc"]).contains resource then ["related-endpoints"] else []
    own ++ pods ++ events ++ endpoints

/-! ## What an action keeps -/

variable {lib : Lib} {now : String} {list : Invocation} {row : Value}

/-- The action runs in the workspace of its list and reads no configuration. -/
structure ActsIn (list action : Invocation) : Prop where
  workspace : action.workspace = list.workspace
  resetSelection : action.resetSelection = false

theorem build_actsIn {action : String} {operands : List Word} {a : Action}
    (h : build lib now list row action operands = .ok a) : ActsIn list a.invocation := by
  unfold build at h
  obtain ⟨resource, _, h⟩ := Result.bind_eq_ok.mp h
  cases hw : list.workspace with
  | containers =>
    rw [hw] at h
    obtain ⟨name, _, h⟩ := Result.bind_eq_ok.mp h
    obtain ⟨tail, _, h⟩ := Result.bind_eq_ok.mp h
    cases h
    exact ⟨hw.symm, rfl⟩
  | kubernetes =>
    rw [hw] at h
    obtain ⟨name, _, h⟩ := Result.bind_eq_ok.mp h
    obtain ⟨tail, _, h⟩ := Result.bind_eq_ok.mp h
    cases h
    exact ⟨hw.symm, rfl⟩

theorem shell_actsIn {container : Option Word} {a : Action} (h : shell lib now list row container = .ok a) :
    ActsIn list a.invocation := by
  unfold shell at h
  split at h
  · split_ifs at h
    exact build_actsIn h
  · exact build_actsIn h

theorem portForward_actsIn {ports : Word} {a : Action} (h : portForward lib now list row ports = .ok a) :
    ActsIn list a.invocation := by
  unfold portForward at h
  obtain ⟨operands, _, h⟩ := Result.bind_eq_ok.mp h
  exact build_actsIn h

theorem logs_actsIn {container : Option Word} {previous : Bool} {a : Action}
    (h : logs lib now list row container previous = .ok a) : ActsIn list a.invocation := by
  unfold logs at h
  obtain ⟨action, haction, h⟩ := Result.bind_eq_ok.mp h
  have hacts := build_actsIn haction
  cases hw : list.workspace with
  | containers =>
    rw [hw] at h
    cases h
    exact hacts
  | kubernetes =>
    rw [hw] at h
    cases h
    exact ⟨hacts.workspace, hacts.resetSelection⟩

theorem related_actsIn {action : String} {i : Invocation} (h : related list row action = .ok i) : ActsIn list i := by
  unfold related at h
  split_ifs at h
  · obtain ⟨name, _, h⟩ := Result.bind_eq_ok.mp h
    cases h
    exact ⟨rfl, rfl⟩
  · obtain ⟨⟨tail, resource⟩, _, h⟩ := Result.bind_eq_ok.mp h
    cases h
    exact ⟨rfl, rfl⟩

end Hamn.Tui
