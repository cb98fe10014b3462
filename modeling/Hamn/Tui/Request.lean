import Hamn.Tui.Row

/-!
# Request — typed commands and the operations of Hamn (`control/model.rs`, `split_command` of `control/tui_state.rs`)

A command line is split into words as a shell does it.  A request names an operation by its words and carries its
target; what only the operation itself reads (CPU, memory, paths, timeouts) is left out.
-/

namespace Hamn.Tui

/-- The characters of a word. -/
abbrev Word := List Char

inductive Workspace where
  | containers
  | kubernetes
  deriving DecidableEq, Repr

structure Failure where
  code : String
  message : String
  deriving DecidableEq, Repr

/-! ## Words -/

/-- The words so far, the word that is read and whether it has started, the open quote and a pending escape. -/
structure Splitter where
  words : List Word := []
  word : Word := []
  quote : Option Char := none
  escaped : Bool := false
  started : Bool := false

/-- One character; in double quotes a backslash stays except before `$`, a backquote, `"`, a backslash and a newline. -/
def Splitter.next (s : Splitter) (c : Char) : Splitter :=
  if s.escaped then
    if c = '\n' then { s with escaped := false }
    else
      let keep := s.quote == some '"' && !(['$', '\x60', '"', '\\'] : List Char).contains c
      { s with word := s.word ++ (if keep then ['\\', c] else [c]), started := true, escaped := false }
  else if c = '\\' ∧ s.quote ≠ some '\'' then { s with escaped := true }
  else if s.quote = some c then { s with quote := none }
  else if s.quote = none ∧ (c = '\'' ∨ c = '"') then { s with quote := some c, started := true }
  else if s.quote = none ∧ (c = ' ' ∨ c = '\t' ∨ c = '\n') then
    if s.started then { s with words := s.words ++ [s.word], word := [], started := false } else s
  else { s with word := s.word ++ [c], started := true }

def splitCommand (command : Word) : Except Failure (List Word) :=
  let s := command.foldl Splitter.next {}
  if s.escaped ∨ s.quote.isSome then .error ⟨"invalidRequest", "unfinished quote or escape in command"⟩
  else .ok (if s.started then s.words ++ [s.word] else s.words)

/-- `command_workspace`: the workspace that a typed command is for. -/
def commandWorkspace (text : Word) (fallback : Workspace) : Workspace :=
  match splitCommand text with
  | .error _ => fallback
  | .ok words =>
    match words.head? with
    | none => fallback
    | some word =>
      if word = "docker".toList ∨ word = "vm".toList then .containers
      else if word = "kubectl".toList ∨ word = "k8s".toList ∨ word = "contexts".toList ∨ word = "ctx".toList then
        .kubernetes
      else fallback

/-! ## Requests -/

structure Request where
  words : List String
  uid : Option String := none
  profile : Option String := none
  context : Option String := none
  dockerConfig : Option String := none
  namespace_ : Option String := none
  kubeconfig : Option String := none
  workspace : Option String := none
  name : Option String := none
  dryRun : Bool := false
  check : Bool := false
  purge : Bool := false

/-- The operations, and whether one changes something. -/
def OPERATIONS : List (String × Bool) :=
  [("vm list", false), ("vm status", false), ("vm create", true), ("vm configure", true), ("vm apply", true),
    ("vm start", true), ("vm stop", true), ("vm delete", true), ("vm reset", true), ("vm up", true), ("vm down", true),
    ("vm diagnostics", true), ("vm env", false), ("system upgrade", true), ("system uninstall", true),
    ("docker containers list", false), ("docker containers inspect", false), ("docker containers logs", false),
    ("docker containers stats", false), ("docker containers start", true), ("docker containers stop", true),
    ("docker containers restart", true), ("docker containers delete", true), ("docker images list", false),
    ("docker volumes list", false), ("docker networks list", false), ("k8s contexts list", false),
    ("k8s namespaces list", false), ("k8s namespaces inspect", false), ("k8s pods list", false),
    ("k8s pods inspect", false), ("k8s pods logs", false), ("k8s pods delete", true), ("k8s deployments list", false),
    ("k8s deployments inspect", false), ("k8s deployments scale", true), ("k8s deployments restart", true),
    ("k8s statefulsets list", false), ("k8s statefulsets inspect", false), ("k8s statefulsets scale", true),
    ("k8s statefulsets restart", true), ("k8s daemonsets list", false), ("k8s daemonsets inspect", false),
    ("k8s daemonsets restart", true), ("k8s services list", false), ("k8s services inspect", false),
    ("k8s nodes list", false), ("k8s nodes inspect", false), ("k8s events list", false), ("k8s events inspect", false),
    ("k8s jobs list", false), ("k8s jobs inspect", false), ("k8s cronjobs list", false),
    ("k8s cronjobs inspect", false), ("k8s ingresses list", false), ("k8s ingresses inspect", false),
    ("k8s pvcs list", false), ("k8s pvcs inspect", false)]

namespace Request

/-- `words.join(" ")` -/
def joined : List String → String
  | [] => ""
  | [word] => word
  | word :: words => word ++ " " ++ joined words

def operation (r : Request) : String := joined r.words

def mutates (r : Request) : Bool :=
  if r.check = true ∧ r.operation = "system upgrade" then false
  else if r.dryRun = true ∧ r.operation = "vm apply" then false
  else OPERATIONS.any fun op => op.1 == r.operation && op.2

/-- The first check of `validate`. -/
def known (r : Request) : Bool := OPERATIONS.any fun op => op.1 == r.operation

def selectsWorkspace (r : Request) : Bool := ["vm up", "vm down"].contains r.operation

/-- The workspace that owns an operation (`mutation_progress`). -/
def owner (r : Request) : Workspace := if r.words.head? = some "k8s" then .kubernetes else .containers

/-- The last word is replaced. -/
def withLast (r : Request) (word : String) : Request := { r with words := r.words.dropLast ++ [word] }

def text (value : Option String) : Value := (value.map Value.string).getD .null

def target (r : Request) : Value :=
  .object [("profile", text r.profile), ("workspace", text r.workspace), ("context", text r.context),
    ("namespace", text r.namespace_), ("name", text r.name), ("dockerConfig", text r.dockerConfig)]

/-! ### Lists change nothing -/

theorem joined_suffix {words : List String} {word : String} (h : words.getLast? = some word) :
    word.toList <:+ (joined words).toList := by
  induction words with
  | nil => cases h
  | cons w words ih =>
    cases words with
    | nil =>
      obtain rfl : w = word := by simpa using h
      exact List.suffix_refl _
    | cons w' words =>
      have hlast : (w' :: words).getLast? = some word := by simpa [List.getLast?_cons_cons] using h
      rw [joined, String.toList_append]
      · exact (ih hlast).trans (List.suffix_append _ _)
      · exact fun hn => (nomatch hn)

theorem mutates_of_list {r : Request} (h : r.words.getLast? = some "list") : r.mutates = false := by
  have hsuffix := joined_suffix h
  have hops : ∀ op ∈ OPERATIONS, op.2 = true → ¬ "list".toList <:+ op.1.toList := by decide +kernel
  unfold mutates
  split_ifs
  · rfl
  · rfl
  · rw [List.any_eq_false]
    intro op hop hand
    rw [Bool.and_eq_true, beq_iff_eq] at hand
    refine hops op hop hand.2 ?_
    rw [hand.1]
    exact hsuffix

theorem withLast_getLast (r : Request) (word : String) : (r.withLast word).words.getLast? = some word := by
  simp [withLast]

theorem withLast_owner {r : Request} {word : String} (h : 2 ≤ r.words.length) : (r.withLast word).owner = r.owner := by
  obtain ⟨w, w', words, hw⟩ : ∃ w w' words, r.words = w :: w' :: words := by
    match hr : r.words with
    | [] => rw [hr] at h; simp at h
    | [w] => rw [hr] at h; simp at h
    | w :: w' :: words => exact ⟨w, w', words, rfl⟩
  unfold owner withLast
  rw [hw]
  rfl

end Request

end Hamn.Tui
