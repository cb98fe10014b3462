import Hamn.Tui.Request

/-!
# Flags — which words of a command line are options (`control/native_flags.rs`)

The options of a command line are found by their arity, without parsing the command.  Each scanner below reads the words
from left to right and carries along whether the next word is the value of an option (`skip`, `value`).

* `commandIndex`: where the command is.
* `shortOptions`: the options of a group of short ones.
* `options`, `inspect`: the options of a command line, and the command line with its groups split.
-/

namespace Hamn.Tui

def words (texts : List String) : List Word := texts.map String.toList

def startsWith (word start : Word) : Bool := start.isPrefixOf word

/-! ## Tables -/

def DOCKER_VALUES : List Word :=
  words ["--context", "-c", "--host", "-H", "--config", "--log-level", "-l", "--tlscacert", "--tlscert", "--tlskey"]

def KUBE_GLOBAL_VALUES : List Word :=
  words ["--v", "-v", "--vmodule", "--profile", "--profile-output", "--log-flush-frequency"]

def KUBE_CONNECTION_VALUES : List Word :=
  words ["--context", "--kubeconfig", "--namespace", "-n", "--cluster", "--user", "--server", "-s", "--token",
    "--certificate-authority", "--client-certificate", "--client-key", "--request-timeout", "--as", "--as-group",
    "--as-uid", "--as-user-extra", "--cache-dir", "--tls-server-name", "--username", "--password", "--proxy-url",
    "--kuberc"]

def KUBE_CONNECTION_FLAGS : List Word :=
  words ["--insecure-skip-tls-verify", "--disable-compression", "--warnings-as-errors", "--match-server-version"]

def KUBE_COMMAND_VALUES : List Word :=
  words ["--accept-hosts", "--accept-paths", "--address", "--aggregation-rule", "--allowlist-entry",
    "--annotation", "--annotations", "--api-group", "--api-prefix", "--api-version",
    "--appendarg", "--audience", "--auth-provider", "--auth-provider-arg", "--bound-object-kind",
    "--bound-object-name", "--bound-object-uid", "--categories", "--cert", "--class",
    "--cluster-ip", "--clusterip", "--clusterrole", "--command", "--concurrency", "--container",
    "--containers", "--copy-to", "--cpu", "--current-replicas", "--custom", "--default-backend",
    "--description", "--detach-keys", "--docker-email", "--docker-password", "--docker-server",
    "--docker-username", "--duration", "--env", "--exec-api-version", "--exec-arg", "--exec-command",
    "--exec-env", "--exec-interactive-mode", "--external-ip", "--external-name", "--field-manager",
    "--for", "--from", "--from-env-file", "--from-file", "--from-literal", "--grace-period",
    "--group", "--hard", "--helm-api-versions", "--helm-command", "--helm-kube-version", "--image",
    "--image-pull-policy", "--keepalive", "--key", "--keys", "--labels", "--limit-bytes", "--limits",
    "--load-balancer-ip", "--load-restrictor", "--max", "--max-depth", "--max-log-requests",
    "--max-unavailable", "--memory", "--min", "--min-available", "--mount", "--name", "--namespaces",
    "--network-name", "--node-port", "--non-resource-url", "--option", "--output-directory",
    "--override-type", "--overrides", "--patch", "--patch-file", "--pod-running-timeout",
    "--pod-selector", "--policy", "--port", "--preemption-policy", "--prefix", "--prependarg",
    "--protocol", "--prune-allowlist", "--raw", "--reject-methods", "--reject-paths", "--replicas",
    "--requests", "--resource", "--resource-name", "--resource-version", "--restart", "--retries",
    "--revision", "--role", "--rule", "--schedule", "--scopes", "--section", "--serviceaccount",
    "--session-affinity", "--set-image", "--since", "--since-time", "--skip-wait-for-delete-timeout",
    "--tail", "--target", "--target-port", "--tcp", "--timeout", "--to-revision", "--type", "--types",
    "--unix-socket", "--value", "--verb", "--verbs", "--www", "--www-prefix",
    "-P", "-c", "-e", "-p", "-r", "-u"]

/-- The options of a resource list. -/
def KUBE_LIST_VALUES : List Word :=
  words ["--selector", "-l", "--field-selector", "--filename", "-f", "--kustomize", "-k", "--sort-by", "--template",
    "--chunk-size", "--subresource", "--output", "-o", "--label-columns", "-L"]

/-! ## Arity -/

/-- Whether the option takes the next word as its value, under the command `command`. -/
def takesValueIn (name : Word) (workspace : Workspace) (command : Word) : Bool :=
  match workspace with
  | .containers => DOCKER_VALUES.contains name
  | .kubernetes =>
    if (command = "logs".toList ∧ (words ["-f", "-p", "--prefix"]).contains name = true) ∨
        (command = "run".toList ∧ name = "--command".toList) ∨
        (command = "top".toList ∧ name = "--containers".toList) ∨
        (command = "config".toList ∧ name = "--raw".toList) then
      false
    else if name = "-w".toList then command == "proxy".toList
    else
      KUBE_CONNECTION_VALUES.contains name || KUBE_COMMAND_VALUES.contains name || KUBE_GLOBAL_VALUES.contains name ||
        KUBE_LIST_VALUES.contains name

def takesValue (name : Word) (workspace : Workspace) : Bool := takesValueIn name workspace "get".toList

/-- `docker_query`: after the command of a Docker list, options are those of the list. -/
def optionTakesValue (name : Word) (workspace : Workspace) (dockerQuery : Bool) (command : Word) : Bool :=
  if dockerQuery then (words ["--filter", "-f", "--last", "-n", "--format"]).contains name
  else takesValueIn name workspace command

/-- The short options without a value. -/
def booleans (workspace : Workspace) (dockerQuery : Bool) : Word :=
  if dockerQuery then "aslqh".toList
  else
    match workspace with
    | .containers => "Dvh".toList
    | .kubernetes => "ARfhipqtw".toList

/-- The loop of `short_options` over the flags of a group. -/
def shortFlags (workspace : Workspace) (dockerQuery : Bool) (command : Word) : Word → Option (List Word)
  | [] => some []
  | flag :: rest =>
    let name := ['-', flag]
    if optionTakesValue name workspace dockerQuery command then some [name ++ rest]
    else if (booleans workspace dockerQuery).contains flag = false then none
    else if rest.head? = some '=' then some [name ++ rest]
    else (shortFlags workspace dockerQuery command rest).map (name :: ·)

def shortOptions (word : Word) (workspace : Workspace) (dockerQuery : Bool) (command : Word) : Option (List Word) :=
  match word with
  | '-' :: flags =>
    if flags = [] ∨ flags.head? = some '-' then none else shortFlags workspace dockerQuery command flags
  | _ => none

def shortGroup (word : Word) (workspace : Workspace) : Option (List Word) :=
  shortOptions word workspace false "get".toList

/-- Whether a word looks like an option. -/
def dashed (word : Word) : Bool := word.head? == some '-'

/-! ## The command -/

/-- What a word before the command is. -/
inductive Step where
  | command
  | alone
  | withValue
  | unknown
  deriving DecidableEq, Repr

def commandStep (workspace : Workspace) (word : Word) : Step :=
  let values :=
    match workspace with
    | .containers => DOCKER_VALUES
    | .kubernetes => KUBE_CONNECTION_VALUES
  if dashed word = false then .command
  else if values.contains word || (workspace == .kubernetes && KUBE_GLOBAL_VALUES.contains word) then .withValue
  else if word.contains '=' || (values.any fun n => n.length == 2 && startsWith word n && 2 < word.length) ||
      (words ["--debug", "-D", "--tls", "--tlsverify"]).contains word || KUBE_CONNECTION_FLAGS.contains word then
    .alone
  else
    match shortGroup word workspace with
    | some parts => if parts.getLast?.any fun last => takesValue last workspace then .withValue else .alone
    | none => .unknown

def commandIndexFrom (workspace : Workspace) : Bool → ℕ → List Word → Option ℕ
  | _, _, [] => none
  | true, i, _ :: rest => commandIndexFrom workspace false (i + 1) rest
  | false, i, word :: rest =>
    match commandStep workspace word with
    | .command => some i
    | .alone => commandIndexFrom workspace false (i + 1) rest
    | .withValue => commandIndexFrom workspace true (i + 1) rest
    | .unknown => none

def commandIndex (args : List Word) (workspace : Workspace) : Option ℕ := commandIndexFrom workspace false 0 args

def command (args : List Word) (workspace : Workspace) : Word :=
  ((commandIndex args workspace).bind fun i => args[i]?).getD []

/-! ## The options -/

/-- The options of a word: the parts of a group, or the word itself. -/
def parts (word : Word) (workspace : Workspace) (dockerQuery : Bool) (root : Word) : List Word :=
  (shortOptions word workspace dockerQuery root).getD [word]

/-- Whether the last part of a word takes the next word as its value. -/
def consumes (word : Word) (workspace : Workspace) (dockerQuery : Bool) (root : Word) : Bool :=
  (parts word workspace dockerQuery root).getLast?.any fun last => optionTakesValue last workspace dockerQuery root

def optionsFrom (workspace : Workspace) (root : Word) (command : ℕ) : Bool → ℕ → List Word → List Word
  | _, _, [] => []
  | true, i, _ :: rest => optionsFrom workspace root command false (i + 1) rest
  | false, i, arg :: rest =>
    if arg = "--".toList then [arg]
    else if dashed arg = false then optionsFrom workspace root command false (i + 1) rest
    else
      let query := workspace == .containers && decide (command ≤ i)
      parts arg workspace query root ++
        optionsFrom workspace root command (consumes arg workspace query root) (i + 1) rest

/-- The options of the command line; a value that stands by itself is none. -/
def options (args : List Word) (workspace : Workspace) : List Word :=
  optionsFrom workspace (command args workspace) ((commandIndex args workspace).getD args.length) false 0 args

def inspectFrom (workspace : Workspace) (root : Word) : Bool → List Word → List Word
  | _, [] => []
  | true, value :: rest => value :: inspectFrom workspace root false rest
  | false, arg :: rest =>
    if arg = "--".toList ∨ (workspace = .containers ∧ dashed arg = false) then arg :: rest
    else parts arg workspace false root ++ inspectFrom workspace root (consumes arg workspace false root) rest

/-- The command line with its groups of short options split; Docker's only before the command. -/
def inspect (args : List Word) (workspace : Workspace) : List Word :=
  inspectFrom workspace (command args workspace) false args

end Hamn.Tui
