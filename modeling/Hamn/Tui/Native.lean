import Hamn.Tui.Flags
import Hamn.Lib.Result

/-!
# Native — commands for the installed CLIs (`control/native.rs`, `connections` of `control/native_actions.rs`)

A typed command becomes the argument list of `docker` or `kubectl`: the words as typed, before them the connection of
the screen unless the command says its own.  The environment variable `HOME` and the plugins on the `PATH` are
parameters.

* `parse`: the invocation of a typed command.
* `connections`: the connection options of a command line.
-/

namespace Hamn.Tui

/-- What a command is run with. -/
structure Invocation where
  workspace : Workspace
  args : List Word
  target : Word
  resource : Option Word
  hamnProfile : Option String
  resetSelection : Bool

/-- What `parse` reads of a screen. -/
structure Scope where
  workspace : Workspace
  dockerContext : Option String
  dockerConfig : Option String
  request : Request

/-- The environment of the program. -/
structure Env where
  home : Option Word
  /-- A directory of the `PATH` has an executable file of this name. -/
  executable : Word → Bool

/-! ## Presence of options -/

/-- Whether `word` is the option, alone or with its value. -/
def isOption (word name : Word) : Bool :=
  word == name || startsWith word (name ++ ['=']) || (name.length == 2 && startsWith word name && 2 < word.length)

def has (args : List Word) (names : List Word) (workspace : Workspace) : Bool :=
  (options args workspace).any fun s => names.any (isOption s)

def dockerBool (value : Word) : Bool := (words ["1", "t", "T", "true", "TRUE", "True"]).contains value

def stripStart (word start : Word) : Option Word := if startsWith word start then some (word.drop start.length) else none

def kubeAllNamespacesFrom (root : Word) : Bool → Bool → List Word → Bool
  | _, enabled, [] => enabled
  | true, enabled, _ :: rest => kubeAllNamespacesFrom root false enabled rest
  | false, enabled, arg :: rest =>
    if arg = "--".toList then enabled
    else if takesValueIn arg .kubernetes root then kubeAllNamespacesFrom root true enabled rest
    else if (words ["--all-namespaces", "-A"]).contains arg then kubeAllNamespacesFrom root false true rest
    else
      match (stripStart arg "--all-namespaces=".toList).or (stripStart arg "-A=".toList) with
      | some value => kubeAllNamespacesFrom root false (dockerBool value) rest
      | none => kubeAllNamespacesFrom root false enabled rest

def kubeAllNamespaces (inspected : List Word) : Bool :=
  kubeAllNamespacesFrom (command inspected .kubernetes) false false inspected

/-! ## Lists -/

/-- The flags of a group in `kube_short_output`: the answer, or whether the next word is a value. -/
def shortOutputFlags : Word → Bool ⊕ Bool
  | [] => .inr false
  | flag :: rest =>
    if "owLh".toList.contains flag then .inl true
    else if "nslfkv".toList.contains flag then .inr rest.isEmpty
    else if rest.head? = some '=' then .inr false
    else if flag ≠ 'A' then .inl true
    else shortOutputFlags rest

/-- The options whose values `kube_short_output` skips. -/
def SHORT_OUTPUT_VALUES : List Word :=
  KUBE_CONNECTION_VALUES ++ words ["--selector", "--field-selector", "--filename", "--kustomize", "--sort-by",
    "--template", "--chunk-size", "--subresource", "--v", "--vmodule", "--profile", "--profile-output"]

def kubeShortOutputFrom : Bool → List Word → Bool
  | _, [] => false
  | true, _ :: rest => kubeShortOutputFrom false rest
  | false, arg :: rest =>
    if arg = "--".toList then false
    else if SHORT_OUTPUT_VALUES.contains arg then kubeShortOutputFrom true rest
    else if dashed arg = true ∧ startsWith arg "--".toList = false then
      match shortOutputFlags (arg.drop 1) with
      | .inl answer => answer
      | .inr skip => kubeShortOutputFrom skip rest
    else kubeShortOutputFrom false rest

/-- Whether a short option asks for another output, or for something unknown. -/
def kubeShortOutput (args : List Word) : Bool := kubeShortOutputFrom false args

def isAsciiAlphanumeric (c : Char) : Bool := c.isAlphanum

/-- The list that a Docker command prints. -/
def dockerResource (words_ : List Word) : Option Word :=
  match words_ with
  | [] => none
  | first :: rest =>
    let second (names : List String) : Bool := rest.head?.any fun word => (words names).contains word
    if first = "ps".toList ∨ (first = "container".toList ∧ second ["ls", "ps", "list"] = true) then
      some "containers".toList
    else if first = "images".toList ∨ (first = "image".toList ∧ second ["ls", "list"] = true) then some "images".toList
    else if first = "compose".toList ∧ second ["ls", "list"] = true then some "projects".toList
    else if first = "volume".toList ∧ second ["ls", "list"] = true then some "volumes".toList
    else if first = "network".toList ∧ second ["ls", "list"] = true then some "networks".toList
    else none

/-- The list that a kubectl command prints. -/
def kubeResource (words_ : List Word) : Option Word :=
  match words_ with
  | get :: resource :: _ =>
    if get = "get".toList ∧ resource ≠ [] ∧ (resource.all fun c => isAsciiAlphanumeric c || c == '.' || c == '-') = true ∧
        dashed resource = false then
      some resource
    else none
  | _ => none

/-- Options of a Docker list that print something else. -/
def DOCKER_OUTPUT : List Word := words ["--format", "--quiet", "-q", "--digests", "--no-trunc", "--tree"]

def KUBE_OUTPUT : List Word :=
  words ["--output", "-o", "--watch", "-w", "--watch-only", "--raw", "--output-watch-events", "--no-headers",
    "--show-labels", "--label-columns", "-L", "--show-kind"]

/-- The resource whose list the command line prints. -/
def resource (args : List Word) (workspace : Workspace) : Option Word :=
  if has args (words ["--help", "-h"]) workspace = true ∨ (options args workspace).contains "--".toList = true then none
  else
    (commandIndex args workspace).bind fun i =>
      match workspace with
      | .containers => if has (args.drop i) DOCKER_OUTPUT workspace then none else dockerResource (args.drop i)
      | .kubernetes =>
        if has args KUBE_OUTPUT workspace = true ∨ kubeShortOutput args = true then none else kubeResource (args.drop i)

/-! ## Plugins -/

def CREATE_ROOTS : List Word :=
  words ["clusterrole", "clusterrolebinding", "configmap", "cm", "cronjob", "cj", "deployment", "deploy", "ingress",
    "ing", "job", "namespace", "ns", "poddisruptionbudget", "pdb", "priorityclass", "pc", "quota", "resourcequota",
    "role", "rolebinding", "secret", "service", "svc", "serviceaccount", "sa", "token"]

def KUBE_ROOTS : List Word :=
  words ["annotate", "api-resources", "api-versions", "apply", "attach", "auth", "autoscale", "certificate",
    "cluster-info", "completion", "config", "cordon", "cp", "create", "debug", "delete", "describe", "diff", "drain",
    "edit", "events", "exec", "explain", "expose", "get", "help", "kuberc", "kustomize", "label", "logs", "options",
    "patch", "plugin", "port-forward", "proxy", "replace", "rollout", "run", "scale", "set", "taint", "top",
    "uncordon", "version", "wait"]

def replaceChar (word : Word) (c c' : Char) : Word := word.map fun x => if x = c then c' else x

/-- The search for a plugin that is named by the first words of the command. -/
def pluginFrom (env : Env) (createExtension : Bool) (candidate : Word) : List Word → Bool
  | [] => false
  | part :: rest =>
    if dashed part = true ∨ part.contains '/' = true then false
    else
      let candidate := candidate ++ '-' :: replaceChar part '-' '_'
      if createExtension = true ∧ candidate = "kubectl-create".toList then pluginFrom env createExtension candidate rest
      else if env.executable candidate || env.executable (replaceChar candidate '_' '-') then true
      else pluginFrom env createExtension candidate rest

def installedKubectlPlugin (env : Env) (args : List Word) (index : Option ℕ) : Bool :=
  match index.bind fun i => args[i]? with
  | none => false
  | some root =>
    let rest := args.drop ((index.getD 0) + 1)
    let createExtension := root == "create".toList &&
      rest.head?.any fun name => dashed name == false && !CREATE_ROOTS.contains name
    if createExtension = false ∧ KUBE_ROOTS.contains root = true then false
    else pluginFrom env createExtension "kubectl".toList (root :: rest)

/-! ## Connections -/

def DOCKER_CONNECTION_VALUES : List Word :=
  words ["--context", "-c", "--host", "-H", "--config", "--tlscacert", "--tlscert", "--tlskey"]

def DOCKER_CONNECTION_FLAGS : List Word := words ["--tls", "--tlsverify"]

/-- What happens to the next word. -/
inductive Following where
  | read
  | keep
  | drop
  deriving DecidableEq, Repr

/-- The loop of `connections` over the first `left` words. -/
def connectionsFrom (workspace : Workspace) (root : Word) (rowNamespace : Bool) :
    Following → ℕ → List Word → List Word
  | _, _, [] => []
  | .keep, left, value :: rest => value :: connectionsFrom workspace root rowNamespace .read (left - 1) rest
  | .drop, left, _ :: rest => connectionsFrom workspace root rowNamespace .read (left - 1) rest
  | .read, left, arg :: rest =>
    if left = 0 ∨ arg = "--".toList then []
    else
      let values :=
        match workspace with
        | .containers => DOCKER_CONNECTION_VALUES
        | .kubernetes => KUBE_CONNECTION_VALUES
      let flags :=
        match workspace with
        | .containers => DOCKER_CONNECTION_FLAGS
        | .kubernetes => KUBE_CONNECTION_FLAGS
      match values.find? (isOption arg) with
      | some name =>
        let skip := rowNamespace && (words ["--namespace", "-n"]).contains name
        let next := if arg = name then (if skip then .drop else .keep) else .read
        (if skip then [] else [arg]) ++ connectionsFrom workspace root rowNamespace next (left - 1) rest
      | none =>
        if flags.any fun name => arg == name || startsWith arg (name ++ ['=']) then
          arg :: connectionsFrom workspace root rowNamespace .read (left - 1) rest
        else
          let next := if takesValueIn arg workspace root then .drop else .read
          connectionsFrom workspace root rowNamespace next (left - 1) rest

/-- The connection options of a command line; the namespace of a row takes the place of its namespace options. -/
def connections (original : List Word) (workspace : Workspace) (rowNamespace : Option Word) : List Word :=
  let inspected := inspect original workspace
  let last :=
    match workspace with
    | .containers => (commandIndex inspected workspace).getD 0
    | .kubernetes => inspected.length
  connectionsFrom workspace (command original workspace) rowNamespace.isSome .read last inspected ++
    match rowNamespace with
    | some namespace_ => ["--namespace".toList, namespace_]
    | none => []

/-! ## The target in the header -/

def TARGET_NAMES : List Word :=
  words ["--context", "-c", "--host", "-H", "--config", "--namespace", "-n", "--kubeconfig", "--cluster", "--server",
    "-s", "--tls-server-name"]

/-- The loop over the connection options: what is shown of each. -/
def targetFrom (workspace : Workspace) : Bool → List Word → List Word
  | _, [] => []
  | true, _ :: rest => targetFrom workspace false rest
  | false, arg :: rest =>
    (TARGET_NAMES.flatMap fun name =>
      if arg = name then [name ++ ' ' :: rest.head?.getD []] else if isOption arg name then [arg] else []) ++
      targetFrom workspace (takesValue arg workspace) rest

/-- `parts.join(separator)` -/
def joinWords (separator : Word) : List Word → Word
  | [] => []
  | [word] => word
  | word :: rest => word ++ separator ++ joinWords separator rest

/-! ## `parse` -/

def DOCKER_VIEW_ALIASES : List (Word × List Word) :=
  [("containers".toList, words ["ps"]), ("volumes".toList, words ["volume", "ls"]),
    ("networks".toList, words ["network", "ls"])]

def KUBE_VIEW_ALIASES : List Word :=
  words ["pods", "po", "deployments", "deploy", "services", "svc", "nodes", "namespaces", "ns", "statefulsets", "sts",
    "daemonsets", "ds", "jobs", "cronjobs", "ingresses", "pvcs"]

/-- The workspace of a command and its words without the program; without words, the list of the workspace. -/
def program (args : List Word) (workspace : Workspace) : Workspace × List Word :=
  match args with
  | [] =>
    match workspace with
    | .containers => (.containers, words ["ps"])
    | .kubernetes => (.kubernetes, words ["get", "pods"])
  | first :: rest =>
    if first = "docker".toList then (.containers, rest)
    else if first = "kubectl".toList then (.kubernetes, rest)
    else (workspace, args)

/-- A word for a list is replaced by the command that prints it. -/
def expandAlias (args : List Word) (workspace : Workspace) (plugin : Bool) : List Word :=
  let first := args.head?.getD []
  match workspace with
  | .containers =>
    match DOCKER_VIEW_ALIASES.lookup first with
    | some command => command ++ args.drop 1
    | none => args
  | .kubernetes => if plugin = false ∧ KUBE_VIEW_ALIASES.contains first = true then "get".toList :: args else args

/-- Whether the command says its own connection. -/
def explicit (args : List Word) (workspace : Workspace) : Bool :=
  let inspected := inspect args workspace
  match workspace with
  | .containers =>
    has (inspected.take ((commandIndex inspected workspace).getD inspected.length))
      (words ["--context", "-c", "--host", "-H", "--config"]) workspace
  | .kubernetes => has inspected (words ["--context", "--kubeconfig"]) workspace

/-- Whether the command is about the configuration of the CLI. -/
def configCommand (args : List Word) (workspace : Workspace) : Bool :=
  match (commandIndex args workspace).bind fun i => args[i]? with
  | none => false
  | some root =>
    match workspace with
    | .containers => root == "context".toList
    | .kubernetes => root == "config".toList

/-- The connection of the screen for a command without one of its own, and its Hamn profile. -/
def connectionDefaults (env : Env) (scope : Scope) (args : List Word) (workspace : Workspace) :
    Except Failure (List Word × Option String) :=
  match workspace with
  | .containers =>
    match scope.dockerContext with
    | some context => .ok (["--context".toList, context.toList], none)
    | none =>
      match env.home with
      | none => .error ⟨"configurationInvalid", "environment variable not found"⟩
      | some home =>
        let profile := scope.request.profile.getD "default"
        .ok (["--host".toList, "unix://".toList ++ home ++ "/.hamn/".toList ++ profile.toList ++ "/docker.sock".toList],
          some profile)
  | .kubernetes =>
    let inspected := inspect args workspace
    let context := (scope.request.context.map fun c => ["--context".toList, c.toList]).getD []
    let namespaced := has inspected (words ["--namespace", "-n"]) workspace || kubeAllNamespaces inspected
    let namespace_ :=
      if namespaced then [] else (scope.request.namespace_.map fun n => ["--namespace".toList, n.toList]).getD []
    .ok (context ++ namespace_, none)

/-- The configuration of the screen for a command without one of its own. -/
def withConfiguration (scope : Scope) (args : List Word) (workspace : Workspace) (plugin : Bool) (defaults : List Word) :
    List Word :=
  match workspace with
  | .kubernetes =>
    if plugin = false ∧ has args (words ["--kubeconfig"]) workspace = false then
      defaults ++ (scope.request.kubeconfig.map fun c => ["--kubeconfig".toList, c.toList]).getD []
    else defaults
  | .containers =>
    if configCommand args workspace = false ∧
        has (args.take ((commandIndex args workspace).getD args.length)) (words ["--config"]) workspace = false then
      (scope.dockerConfig.map fun c => ["--config".toList, c.toList]).getD [] ++ defaults
    else defaults

/-- The header's account of the connection. -/
def targetText (args : List Word) (workspace : Workspace) (plugin allNamespaces : Bool) : Word :=
  let shown := targetFrom workspace false (connections args workspace none) ++
    if allNamespaces then ["all namespaces".toList] else []
  let text := joinWords "  ".toList shown
  if plugin then "Plugin-defined target / inherited CLI configuration ".toList ++ text
  else if shown = [] then "CLI environment / configuration".toList
  else text

/-- The words of a command as they are run, and whether a plugin runs them. -/
def commandWords (env : Env) (args : List Word) (scope : Scope) : Workspace × List Word × Bool :=
  let (workspace, args) := program args scope.workspace
  let plugin := workspace == .kubernetes && installedKubectlPlugin env args (commandIndex args workspace)
  (workspace, expandAlias args workspace plugin, plugin)

def parseWords (env : Env) (typed : List Word) (scope : Scope) : Except Failure Invocation := do
  let (workspace, args, plugin) := commandWords env typed scope
  let config := configCommand args workspace
  let (defaults, profile) ←
    if config || explicit args workspace || plugin then .ok ([], none)
    else connectionDefaults env scope args workspace
  let allNamespaces := workspace == .kubernetes && kubeAllNamespaces (inspect args workspace)
  let all := withConfiguration scope args workspace plugin defaults ++ args
  .ok {
    workspace := workspace
    args := all
    target := targetText all workspace plugin allNamespaces
    resource := resource all workspace
    hamnProfile := profile
    resetSelection := config }

def parse (env : Env) (text : Word) (scope : Scope) : Except Failure Invocation := do
  let typed ← splitCommand text
  parseWords env typed scope

/-! ## `docker ps --all` -/

def LIST_VALUES : List Word :=
  words ["--filter", "--last", "--format", "--context", "--host", "--config", "--log-level", "--tlscacert", "--tlscert",
    "--tlskey"]

/-- The flags of a group in `docker_list_bool`: the value of the flag so far, and whether the next word is a value. -/
def listFlags (short : Char) : Bool → Word → Bool × Bool
  | showing, [] => (showing, false)
  | showing, flag :: rest =>
    if "fncH".toList.contains flag then (showing, rest.isEmpty)
    else
      let showing :=
        if flag = short then ((stripStart rest "=".toList).map dockerBool).getD true else showing
      if rest.head? = some '=' ∨ "aslqD".toList.contains flag = false then (showing, false)
      else listFlags short showing rest

/-- The value of a flag of a Docker list, the last one wins, and where its long form with a value was found last. -/
def dockerListBoolFrom (name : Word) (short : Char) : Bool → ℕ → Bool × Option ℕ → List Word → Bool × Option ℕ
  | _, _, found, [] => found
  | true, i, found, _ :: rest => dockerListBoolFrom name short false (i + 1) found rest
  | false, i, (showing, at_), arg :: rest =>
    if arg = "--".toList then (showing, at_)
    else if arg = name then dockerListBoolFrom name short false (i + 1) (true, at_) rest
    else
      match stripStart arg (name ++ ['=']) with
      | some value => dockerListBoolFrom name short false (i + 1) (dockerBool value, some i) rest
      | none =>
        if LIST_VALUES.contains arg then dockerListBoolFrom name short true (i + 1) (showing, at_) rest
        else if dashed arg = true ∧ startsWith arg "--".toList = false then
          let (showing, skip) := listFlags short showing (arg.drop 1)
          dockerListBoolFrom name short skip (i + 1) (showing, at_) rest
        else dockerListBoolFrom name short false (i + 1) (showing, at_) rest

def dockerListBool (list : Invocation) (name : Word) (short : Char) : Bool × Option ℕ :=
  let index := (commandIndex list.args list.workspace).getD list.args.length
  dockerListBoolFrom name short false index (false, none) (list.args.drop index)

def toggleAll (list : Invocation) : Invocation :=
  let (showing, at_) := dockerListBool list "--all".toList 'a'
  let value := if showing then "--all=false".toList else "--all=true".toList
  if at_.any fun i => i + 1 == list.args.length then { list with args := list.args.dropLast ++ [value] }
  else { list with args := list.args ++ [value] }

end Hamn.Tui
