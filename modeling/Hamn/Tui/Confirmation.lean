import Hamn.Lib.Delimited
import Hamn.Tui.Request

/-!
# Confirmation — what a change asks before it runs (`model.rs`, `confirmation` of `control/tui_state.rs`)

A request that changes something is shown with the fields that are there, its values as Rust's `{:?}` writes strings,
and its impact; the text is wrapped to the width of the dialog.  Which characters the standard library prints as they
are, and how wide the terminal shows them, are parameters (`Printer`).

* `Change.checks`: the checks of `validate`, in their order.
* `wrapLines_flatten`: wrapping and line ends leave the characters as they are.
* `confirmation_eq_iff`: two confirmations are equal exactly if everything that is shown agrees.
* `confirmation_differs_iff`: when a confirmation shows what will be changed.
-/

namespace Hamn.Tui

open Delimit

/-- The rest of a request: what changes take, and what `validate` checks. -/
structure Change extends Request where
  yes : Bool := false
  cpu : Option ℕ := none
  memory : Option ℕ := none
  disk : Option ℕ := none
  rosetta : Option Bool := none
  replicas : Option ℕ := none
  path : Option String := none
  file : Option String := none
  noGitMount : Bool := false
  manifest : Option String := none
  force : Bool := false
  follow : Bool := false
  watch : Bool := false
  allNamespaces : Bool := false
  tail : ℕ := 200
  timeout : ℕ := 600

/-- What the standard library prints as it is, which is no control character, and the columns of a character. -/
structure Printer where
  plain : Char → Bool
  plain_spec : ∀ c, plain c = true → isControl c = false
  width : Char → ℕ

namespace Change

/-! ## `validate` -/

def lastWord (r : Change) : Option String := r.words.getLast?

def is (r : Change) (operations : List String) : Bool := operations.contains r.operation

def startsAs (r : Change) (word : String) : Bool := r.words.head? == some word

def positionalProfile (r : Change) : Bool :=
  decide (2 < r.words.length) && r.startsAs "vm" && r.words[1]? != some "list" &&
    OPERATIONS.any fun op => op.1 == Request.joined (r.words.take 2)

def unknownMessage (r : Change) : String :=
  if r.positionalProfile = true ∧ r.words[1]? = some "apply" then
    "unknown operation; pass the profile definition with --file <path> and the profile with " ++
      "--profile <name>, not a positional word"
  else if r.positionalProfile = true ∧ (r.words[1]? = some "up" ∨ r.words[1]? = some "down") then
    "unknown operation; pass the workspace with --workspace <absolute path>, not a positional word"
  else if r.positionalProfile then
    "unknown operation; select the VM profile with --profile <name>, not a positional word"
  else "unknown operation; use --headless capabilities"

def badProfile (profile : String) : Bool :=
  profile == "" || decide (64 ≤ profile.utf8ByteSize) || profile == "cache" ||
    !profile.toList.all fun c => c.isAlphanum || c == '-' || c == '_'

def badNamespace (n : String) : Bool :=
  n == "" || decide (63 < n.utf8ByteSize) || n.toList.head? == some '-' || n.toList.getLast? == some '-' ||
    !n.toList.all fun c => (decide ('a' ≤ c) && decide (c ≤ 'z')) || c.isDigit || c == '-'

def badName (name : String) : Bool :=
  name == "" || decide (253 < name.utf8ByteSize) ||
    !name.toList.all fun c => c.isAlphanum || c == '-' || c == '_' || c == '.'

def badContext (context : String) : Bool :=
  context == "" || decide (253 < context.length) || context.toList.any isControl

/-- The checks in order, each with what refuses the request and why. -/
def checks (r : Change) : List (Bool × String) :=
  let vm := r.startsAs "vm"
  let docker := r.startsAs "docker"
  let k8s := r.startsAs "k8s"
  let apply := r.is ["vm apply"]
  [(!r.known, r.unknownMessage),
    (r.timeout == 0 || decide (3600 < r.timeout) || decide (10000 < r.tail),
      "timeout must be 1..3600 seconds and tail <= 10000"),
    (r.mutates && !r.yes, "mutation requires --yes"),
    (r.selectsWorkspace && r.profile.isSome, "vm up and vm down select the VM with --workspace, not --profile"),
    (r.selectsWorkspace && r.workspace.isNone, "vm up and vm down require --workspace <absolute path>"),
    (r.selectsWorkspace && r.workspace.any fun p => p.toList.head? != some '/' || p.toList.contains '\x00',
      "--workspace must be an absolute path"),
    (!r.selectsWorkspace && r.workspace.isSome, "--workspace is only supported for vm up and vm down"),
    (r.noGitMount && !r.is ["vm up"], "--no-git-mount is only supported for vm up"),
    (vm && !r.is ["vm list"] && !r.selectsWorkspace && r.profile.isNone,
      "an explicit --profile is required; list profiles with: hamn --headless vm list"),
    (docker && r.profile.isSome && r.context.isSome, "Docker requires exactly one explicit --profile or --context"),
    (docker && r.profile.isNone && r.context.isNone,
      "Docker requires exactly one explicit --profile or --context; list profiles with: hamn --headless vm list"),
    (r.dockerConfig.isSome && (!docker || r.context.isNone),
      "--docker-config requires a Docker operation with --context"),
    (r.dockerConfig.any fun p => p == "" || p.toList.contains '\x00', "invalid Docker configuration directory"),
    (docker && r.context.any badContext, "invalid context name"),
    ((r.check || r.force) && !r.is ["system upgrade"], "--check and --force are only supported for system upgrade"),
    (r.check && r.force, "--check conflicts with --force"),
    (r.rosetta.isSome && !r.is ["vm create", "vm configure"],
      "--rosetta is only supported for vm create and vm configure"),
    (r.rosetta == some true, "Rosetta support was removed; --rosetta accepts only false"),
    (r.purge && !r.is ["vm delete", "vm down"], "--purge is only supported for vm delete and vm down"),
    (!apply && (r.file.isSome || r.dryRun), "--file and --dry-run are only supported for vm apply"),
    (apply && r.file.all (· == ""), "vm apply requires --file <path>"),
    (apply && r.file == some "-", "vm apply reads a regular file; standard input (-) is not supported"),
    (apply && r.file.any fun p => p.toList.contains '\x00', "invalid profile definition path"),
    (apply && (r.cpu.isSome || r.memory.isSome || r.disk.isSome),
      "--cpu, --memory and --disk cannot be combined with vm apply; the definition file holds every setting"),
    (apply && (r.watch || r.follow), "vm apply cannot be repeated or streamed"),
    (r.profile.any badProfile, "invalid profile name"),
    (k8s && r.words[1]? != some "contexts" && r.context.isNone, "an explicit --context is required"),
    (r.mutates && r.allNamespaces, "mutations cannot target all namespaces"),
    (r.allNamespaces && r.lastWord != some "list", "--all-namespaces is only supported for lists"),
    (r.namespace_.any badNamespace, "invalid Kubernetes namespace"),
    (r.mutates && (r.watch || r.follow), "mutations cannot be repeated or streamed"),
    (r.follow && (r.watch || r.lastWord != some "logs"),
      "--follow is only supported for logs and cannot be combined with --watch"),
    (r.mutates && k8s && r.namespace_.all (· == ""), "Kubernetes mutations require --namespace"),
    (r.cpu == some 0 || r.memory == some 0 || r.disk == some 0, "VM resource values must be positive"),
    (r.name.any badName, "invalid resource name"),
    (r.lastWord.any (["inspect", "logs", "stats", "scale", "restart", "delete", "stop", "start"].contains ·) &&
      (docker || k8s) && r.name.all (· == ""), "--name is required"),
    (r.lastWord == some "scale" && r.replicas.isNone, "scale requires --replicas")]

def validate (r : Change) : Except Failure Unit :=
  match r.checks.find? (·.1) with
  | some check => .error ⟨"invalidRequest", check.2⟩
  | none => .ok ()

/-! ## The text -/

def READ_IMPACT : String := "Read the selected resource without changing it."

def impact (r : Change) : String :=
  match r.operation with
  | "vm create" => "Create a profile and its VM configuration."
  | "vm configure" => "Change the stopped VM's CPU, memory or disk settings."
  | "vm apply" =>
    "Create the profile or replace its stopped VM's configuration with the definition file; " ++
      "settings the file omits return to their defaults. The VM is not started or stopped."
  | "vm start" => "Start the VM."
  | "vm stop" => "Stop the VM and interrupt its running containers."
  | "vm delete" =>
    if r.purge then
      "Stop the VM and permanently delete the profile: its settings, logs and disk with every " ++
        "container, image, volume and file inside the VM. Shared host directories are kept."
    else "Stop and remove the profile from active listings. Its disk and Docker data are preserved."
  | "vm reset" =>
    "Stop the VM and permanently delete its disk: every container, image, volume and file inside " ++
      "the VM. The next start creates a new disk from the signed guest image; the profile settings " ++
      "and shared host directories are kept."
  | "vm up" =>
    "Start the workspace's VM, creating its profile first when it has none. A new profile shares " ++
      "the workspace writable at its own path" ++
      (if r.noGitMount then "" else " and its git directory read-only") ++
      ", and not the home directory; one that cannot start is removed again."
  | "vm down" =>
    if r.purge then
      "Stop the workspace's VM and permanently delete its profile: its settings, logs and disk " ++
        "with every container, image, volume and file inside the VM. The workspace and its git " ++
        "directory are kept."
    else "Stop the workspace's VM and interrupt its running containers. Its disk and Docker data are preserved."
  | "vm list" =>
    "List the profiles. Each profile that vm up made whose workspace path no longer exists and " ++
      "whose VM is stopped is permanently deleted first, with its disk and Docker data; no other " ++
      "profile changes."
  | "vm diagnostics" => "Write a redacted diagnostic archive to the selected path."
  | "system upgrade" => "Download and publish a verified Hamn release and managed guest image."
  | "system uninstall" => "Permanently remove ALL Hamn profiles, VM disks, Docker data and the managed installation."
  | "docker containers delete" => "Delete the selected container. Its named and anonymous volumes are preserved."
  | "docker containers start" => "Start the selected container."
  | "docker containers stop" => "Stop the selected container and interrupt its workload."
  | "docker containers restart" => "Restart the selected container and interrupt its workload."
  | "k8s pods delete" => "Delete the selected Pod. Its controller may create a replacement."
  | _ =>
    if r.lastWord = some "scale" then
      "Set the selected workload to " ++ toString (r.replicas.getD 0) ++
        " replicas; Pods may be created or terminated."
    else if r.lastWord = some "restart" then "Request a rolling restart of the selected workload's Pods."
    else READ_IMPACT

end Change

/-- A value of the confirmation. -/
inductive Shown where
  | text (value : String)
  | number (value : ℕ)
  deriving DecidableEq, Repr

/-- A character of a string as `{:?}` writes it. -/
def escapeDebug (p : Printer) (c : Char) : Word :=
  if c = '\x00' then ['\\', '0']
  else if c = '\t' then ['\\', 't']
  else if c = '\r' then ['\\', 'r']
  else if c = '\n' then ['\\', 'n']
  else if c = '"' then ['\\', '"']
  else if c = '\\' then ['\\', '\\']
  else if p.plain c then [c]
  else ['\\', 'u', '\x7b'] ++ Nat.toDigits 16 c.toNat ++ ['\x7d']

def Shown.write (p : Printer) : Shown → Word
  | .text value => '"' :: (value.toList.flatMap (escapeDebug p) ++ ['"'])
  | .number value => Nat.toDigits 10 value

namespace Change

def FIELD_KEYS : List Word :=
  ["Profile: ", "Workspace: ", "Context: ", "Namespace: ", "Name: ", "UID: ", "Kubeconfig: ", "Output path: ",
    "Definition file: ", "Manifest: ", "CPU: ", "Memory GiB: ", "Disk GiB: "].map String.toList

/-- The values of the fields, in the order of their keys. -/
def fieldValues (r : Change) : List (Option Shown) :=
  [r.profile, r.workspace, r.context, r.namespace_, r.name, r.uid, r.kubeconfig, r.path, r.file, r.manifest].map
      (·.map Shown.text) ++
    [r.cpu, r.memory, r.disk].map (·.map Shown.number)

def confirmationText (p : Printer) (r : Change) : Word :=
  "Confirm ".toList ++ r.operation.toList ++ ['\n'] ++
    (FIELD_KEYS.zip r.fieldValues).flatMap (fun field =>
      match field.2 with
      | some value => field.1 ++ value.write p ++ ['\n']
      | none => []) ++
    "\nImpact: ".toList ++ r.impact.toList ++ "\n\ny = execute; Esc / n = cancel".toList

end Change

/-! ## Lines -/

def stripReturn (line : Word) : Word := if line.getLast? = some '\r' then line.dropLast else line

/-- `str::lines` -/
def linesFrom : Word → Word → List Word
  | current, [] => if current = [] then [] else [current]
  | current, c :: rest =>
    if c = '\n' then stripReturn current :: linesFrom [] rest else linesFrom (current ++ [c]) rest

/-- The loop over the characters of a line. -/
def wrapFrom (p : Printer) (width : ℕ) : List Word → Word → ℕ → Word → List Word
  | lines, current, _, [] => lines ++ [current]
  | lines, current, columns, c :: rest =>
    if width < columns + p.width c ∧ current ≠ [] then wrapFrom p width (lines ++ [current]) [c] (p.width c) rest
    else wrapFrom p width lines (current ++ [c]) (columns + p.width c) rest

def wrapLines (p : Printer) (text : String) (width : ℕ) : List Word :=
  (linesFrom [] (clean text).toList).flatMap fun line => wrapFrom p width [] [] 0 line

def Change.confirmation (p : Printer) (r : Change) (width : ℕ) : List Word :=
  wrapLines p (String.ofList (r.confirmationText p)) width

/-! ## What the lines hold -/

theorem wrapFrom_flatten (p : Printer) (width : ℕ) (lines : List Word) (current : Word) (columns : ℕ) (line : Word) :
    (wrapFrom p width lines current columns line).flatten = lines.flatten ++ current ++ line := by
  induction line generalizing lines current columns with
  | nil => simp [wrapFrom]
  | cons c rest ih =>
    rw [wrapFrom]
    split_ifs
    · rw [ih]
      simp
    · rw [ih]
      simp

theorem linesFrom_flatten {current text : Word} (hc : '\r' ∉ current) (ht : '\r' ∉ text) :
    (linesFrom current text).flatten = current ++ text.filter (· ≠ '\n') := by
  induction text generalizing current with
  | nil =>
    unfold linesFrom
    split_ifs with h
    · simp [h]
    · simp
  | cons c rest ih =>
    obtain ⟨hne, hrest⟩ := List.ne_and_not_mem_of_not_mem_cons ht
    rw [linesFrom]
    split_ifs with h
    · have hstrip : stripReturn current = current := if_neg fun hlast => hc (List.mem_of_getLast? hlast)
      rw [List.flatten_cons, hstrip, ih List.not_mem_nil hrest, h]
      simp
    · rw [ih (by simpa using ⟨hc, hne⟩) hrest]
      simp [h]

/-- The characters that a confirmation keeps, apart from the ends of lines. -/
def kept (c : Char) : Bool := !isControl c || c == '\t'

theorem wrapLines_flatten (p : Printer) (text : Word) (width : ℕ) :
    (wrapLines p (String.ofList text) width).flatten = text.filter kept := by
  have hclean : (clean (String.ofList text)).toList =
      text.filter fun c => !isControl c || c == '\n' || c == '\t' := by
    rw [clean, String.toList_ofList, String.toList_ofList]
  have hreturn : '\r' ∉ (clean (String.ofList text)).toList := by
    rw [hclean]
    intro h
    exact absurd (List.mem_filter.mp h).2 (by decide)
  have hlines : ∀ lines : List Word,
      (lines.flatMap fun line => wrapFrom p width [] [] 0 line).flatten = lines.flatten := by
    intro lines
    induction lines with
    | nil => rfl
    | cons line lines ih => rw [List.flatMap_cons, List.flatten_append, ih, wrapFrom_flatten]; rfl
  rw [wrapLines, hlines, linesFrom_flatten List.not_mem_nil hreturn, List.nil_append, hclean, List.filter_filter]
  refine List.filter_congr fun c _ => ?_
  by_cases hn : c = '\n'
  · subst hn
    decide
  · have hne : (c == '\n') = false := beq_eq_false_iff_ne.mpr hn
    simp only [kept, hne, Bool.or_false, ne_eq, hn, not_false_eq_true, decide_true, Bool.true_and]

/-! ## Values -/

def ESCAPES : List (Char × Char) := [('\x00', '0'), ('\t', 't'), ('\r', 'r'), ('\n', 'n'), ('"', '"'), ('\\', '\\')]

/-- A character is escaped with one character, printed as it is, or written as its code. -/
theorem escapeDebug_cases (p : Printer) (c : Char) :
    (∃ x, (c, x) ∈ ESCAPES ∧ escapeDebug p c = ['\\', x]) ∨
      (c ≠ '\\' ∧ c ≠ '"' ∧ p.plain c = true ∧ escapeDebug p c = [c]) ∨
      escapeDebug p c = '\\' :: 'u' :: '\x7b' :: (Nat.toDigits 16 c.toNat ++ ['\x7d']) := by
  unfold escapeDebug
  split_ifs with h0 ht hr hn hq hb hplain
  · exact .inl ⟨'0', by rw [h0]; decide, rfl⟩
  · exact .inl ⟨'t', by rw [ht]; decide, rfl⟩
  · exact .inl ⟨'r', by rw [hr]; decide, rfl⟩
  · exact .inl ⟨'n', by rw [hn]; decide, rfl⟩
  · exact .inl ⟨'"', by rw [hq]; decide, rfl⟩
  · exact .inl ⟨'\\', by rw [hb]; decide, rfl⟩
  · exact .inr (.inl ⟨hb, hq, hplain, rfl⟩)
  · exact .inr (.inr rfl)

theorem escapes_spec : (∀ e ∈ ESCAPES, e.2 ≠ 'u' ∧ isControl e.2 = false) ∧
    ∀ e ∈ ESCAPES, ∀ e' ∈ ESCAPES, e.2 = e'.2 → e.1 = e'.1 := by decide

theorem hex_delimited : SelfDelimited fun n => Nat.toDigits 16 n ++ ['\x7d'] := by
  have h := @Delimited.digits 16 (by norm_num) le_rfl (fun c => c != '\x7d') (by decide)
  refine h.before fun r c hc => ?_
  obtain rfl := Option.some.inj hc
  rfl

/-- Each escape is told from what stands behind it. -/
theorem escapeDebug_delimited (p : Printer) : SelfDelimited (escapeDebug p) := by
  obtain ⟨hu, hinj⟩ := escapes_spec
  let code : Char → Word := fun c => '\x7b' :: (Nat.toDigits 16 c.toNat ++ ['\x7d'])
  refine @escapes_delimited Char _ code (fun _ => True) '\\' 'u' ESCAPES (fun c => ?_) (fun e he => (hu e he).1) hinj ?_
  · obtain h | ⟨hback, -, -, h⟩ | h := escapeDebug_cases p c
    · exact .inl h
    · exact .inr (.inl ⟨hback, h⟩)
    · exact .inr (.inr ⟨trivial, h⟩)
  · intro a b r r' _ _ heq
    obtain ⟨hcode, hrest⟩ := hex_delimited a.toNat b.toNat r r' trivial trivial (List.cons.inj heq).2
    exact ⟨Char.toNat_inj.mp hcode, hrest⟩

theorem escapeDebug_head (p : Printer) (c : Char) : ∃ d rest, escapeDebug p c = d :: rest ∧ d ≠ '"' := by
  obtain ⟨x, hx, h⟩ | ⟨-, hq, -, h⟩ | h := escapeDebug_cases p c
  · exact ⟨'\\', [x], h, by decide⟩
  · exact ⟨c, [], h, hq⟩
  · exact ⟨'\\', _, h, by decide⟩

theorem written_delimited (p : Printer) :
    SelfDelimited fun value : String => '"' :: (value.toList.flatMap (escapeDebug p) ++ ['"']) := by
  have h := (Delimited.quoted (escapeDebug_delimited p) (escapeDebug_head p)).after ['"']
  exact Delimited.comp h fun a b => String.toList_inj.mp

/-- No digit comes next. -/
def NoDigit (r : Word) : Prop := ∀ c, r.head? = some c → c.isDigit = false

theorem decimal_delimited : Delimited (Nat.toDigits 10) NoDigit :=
  Delimited.digits (by norm_num) (by norm_num) (by decide)

theorem toDigits_head (n : ℕ) : ∃ c rest, Nat.toDigits 10 n = c :: rest ∧ c.isDigit = true := by
  obtain ⟨c, rest, h⟩ := List.exists_cons_of_ne_nil (@Nat.toDigits_ne_nil n 10)
  refine ⟨c, rest, h, @Nat.isDigit_of_mem_toDigits 10 n c (by norm_num) le_rfl ?_⟩
  rw [h]
  exact List.mem_cons_self

theorem shown_delimited (p : Printer) : Delimited (Shown.write p) NoDigit := by
  intro a b r r' hr hr' heq
  cases a with
  | text v =>
    cases b with
    | text w =>
      obtain ⟨rfl, hrest⟩ := written_delimited p v w r r' trivial trivial heq
      exact ⟨rfl, hrest⟩
    | number n =>
      obtain ⟨c, rest, hn, hdigit⟩ := toDigits_head n
      rw [show Shown.write p (.number n) = c :: rest from hn] at heq
      obtain rfl := (List.cons.inj heq).1
      exact absurd hdigit (by decide)
  | number m =>
    cases b with
    | text w =>
      obtain ⟨c, rest, hm, hdigit⟩ := toDigits_head m
      rw [show Shown.write p (.number m) = c :: rest from hm] at heq
      obtain rfl := (List.cons.inj heq).1
      exact absurd hdigit (by decide)
    | number n =>
      obtain ⟨rfl, hrest⟩ := decimal_delimited m n r r' hr hr' heq
      exact ⟨rfl, hrest⟩

/-! ## No control characters -/

def Unfiltered (text : Word) : Prop := ∀ c ∈ text, isControl c = false

instance (text : Word) : Decidable (Unfiltered text) :=
  decidable_of_iff ((text.all fun c => !isControl c) = true) (by simp [Unfiltered])

theorem Unfiltered.filter_eq {text : Word} (h : Unfiltered text) : text.filter kept = text :=
  List.filter_eq_self.mpr fun c hc => by rw [kept, h c hc]; rfl

theorem Unfiltered.append {a b : Word} (ha : Unfiltered a) (hb : Unfiltered b) : Unfiltered (a ++ b) := fun c hc =>
  (List.mem_append.mp hc).elim (ha c) (hb c)

theorem kept_digits {base : ℕ} (h1 : 1 < base) (h16 : base ≤ 16) (n : ℕ) : Unfiltered (Nat.toDigits base n) := by
  intro c hc
  obtain ⟨d, hd, rfl⟩ := toDigits_digits h1 n c hc
  have hall : ∀ d < 16, isControl d.digitChar = false := by decide
  exact hall d (by omega)

theorem kept_escape (p : Printer) (c : Char) : Unfiltered (escapeDebug p c) := by
  obtain ⟨x, hx, h⟩ | ⟨-, -, hplain, h⟩ | h := escapeDebug_cases p c
  · rw [h]
    refine List.forall_mem_cons.mpr ⟨by decide, List.forall_mem_cons.mpr ⟨(escapes_spec.1 _ hx).2, nofun⟩⟩
  · rw [h]
    exact List.forall_mem_cons.mpr ⟨p.plain_spec c hplain, nofun⟩
  · rw [h]
    have hopen : Unfiltered ['\\', 'u', '\x7b'] := by decide
    have hclose : Unfiltered ['\x7d'] := by decide
    exact hopen.append ((kept_digits (by norm_num) le_rfl _).append hclose)

theorem kept_write (p : Printer) (value : Shown) : Unfiltered (value.write p) := by
  cases value with
  | text v =>
    refine List.forall_mem_cons.mpr ⟨by decide, Unfiltered.append ?_ (by decide)⟩
    intro c hc
    obtain ⟨d, -, hd⟩ := List.mem_flatMap.mp hc
    exact kept_escape p d c hd
  | number n => exact kept_digits (by norm_num) (by norm_num) n

/-! ## The parts of a confirmation -/

/-- What the impact says of the request beside its operation. -/
inductive Consequence where
  | purge (value : Bool)
  | gitMount (without : Bool)
  | replicas (count : ℕ)
  | restart
  | fixed
  deriving DecidableEq

namespace Change

/-- Operations whose impact is one text. -/
def FIXED_IMPACTS : List String :=
  ["vm create", "vm configure", "vm apply", "vm start", "vm stop", "vm reset", "vm list", "vm diagnostics",
    "system upgrade", "system uninstall", "docker containers delete", "docker containers start",
    "docker containers stop", "docker containers restart", "k8s pods delete"]

def consequence (r : Change) : Consequence :=
  if r.operation = "vm delete" ∨ r.operation = "vm down" then .purge r.purge
  else if r.operation = "vm up" then .gitMount r.noGitMount
  else if r.operation ∈ FIXED_IMPACTS then .fixed
  else if r.lastWord = some "scale" then .replicas (r.replicas.getD 0)
  else if r.lastWord = some "restart" then .restart
  else .fixed

/-- The impact of an operation that only its words describe. -/
def workloadImpact (r : Change) : String :=
  if r.lastWord = some "scale" then
    "Set the selected workload to " ++ toString (r.replicas.getD 0) ++ " replicas; Pods may be created or terminated."
  else if r.lastWord = some "restart" then "Request a rolling restart of the selected workload's Pods."
  else READ_IMPACT

theorem impact_workload {r : Change} (hpurge : ¬(r.operation = "vm delete" ∨ r.operation = "vm down"))
    (hup : r.operation ≠ "vm up") (hfixed : r.operation ∉ FIXED_IMPACTS) : r.impact = r.workloadImpact := by
  simp only [FIXED_IMPACTS, List.mem_cons, List.not_mem_nil, or_false, not_or] at hfixed hpurge
  obtain ⟨hdelete, hdown⟩ := hpurge
  unfold impact workloadImpact
  split <;> simp_all

theorem impact_fixed {r r' : Change} (hop : r.operation = r'.operation) (hfixed : r.operation ∈ FIXED_IMPACTS) :
    r.impact = r'.impact := by
  have hfixed' := hop ▸ hfixed
  simp only [FIXED_IMPACTS, List.mem_cons, List.not_mem_nil, or_false] at hfixed
  unfold impact
  rw [← hop]
  rcases hfixed with h | h | h | h | h | h | h | h | h | h | h | h | h | h | h <;> (rw [h]; rfl)

theorem consequence_purge {r : Change} (h : r.operation = "vm delete" ∨ r.operation = "vm down") :
    r.consequence = .purge r.purge := if_pos h

theorem consequence_up {r : Change} (h : r.operation = "vm up") : r.consequence = .gitMount r.noGitMount := by
  rw [consequence, if_neg (by rw [h]; decide), if_pos h]

theorem consequence_fixed {r : Change} (hpurge : ¬(r.operation = "vm delete" ∨ r.operation = "vm down"))
    (hup : r.operation ≠ "vm up") (hfixed : r.operation ∈ FIXED_IMPACTS) : r.consequence = .fixed := by
  rw [consequence, if_neg hpurge, if_neg hup, if_pos hfixed]

def workloadConsequence (r : Change) : Consequence :=
  if r.lastWord = some "scale" then .replicas (r.replicas.getD 0)
  else if r.lastWord = some "restart" then .restart
  else .fixed

theorem consequence_workload {r : Change} (hpurge : ¬(r.operation = "vm delete" ∨ r.operation = "vm down"))
    (hup : r.operation ≠ "vm up") (hfixed : r.operation ∉ FIXED_IMPACTS) : r.consequence = r.workloadConsequence := by
  rw [consequence, if_neg hpurge, if_neg hup, if_neg hfixed]
  rfl

theorem impact_of_consequence {r r' : Change} (hop : r.operation = r'.operation)
    (he : r.consequence = r'.consequence) : r.impact = r'.impact := by
  by_cases hpurge : r.operation = "vm delete" ∨ r.operation = "vm down"
  · rw [consequence_purge hpurge, consequence_purge (hop ▸ hpurge)] at he
    have hvalue : r.purge = r'.purge := Consequence.purge.inj he
    unfold impact
    rw [← hop, hvalue]
    rcases hpurge with h | h <;> (rw [h]; rfl)
  by_cases hup : r.operation = "vm up"
  · rw [consequence_up hup, consequence_up (hop ▸ hup)] at he
    have hvalue : r.noGitMount = r'.noGitMount := Consequence.gitMount.inj he
    unfold impact
    rw [← hop, hvalue, hup]
    rfl
  by_cases hfixed : r.operation ∈ FIXED_IMPACTS
  · exact impact_fixed hop hfixed
  rw [impact_workload hpurge hup hfixed, impact_workload (hop ▸ hpurge) (hop ▸ hup) (hop ▸ hfixed)]
  rw [consequence_workload hpurge hup hfixed, consequence_workload (hop ▸ hpurge) (hop ▸ hup) (hop ▸ hfixed)] at he
  unfold workloadImpact
  unfold workloadConsequence at he
  split_ifs at he ⊢
  · rw [Consequence.replicas.inj he]
  · rfl
  · rfl

theorem impact_delete {r : Change} (h : r.operation = "vm delete") : r.impact =
    if r.purge then
      "Stop the VM and permanently delete the profile: its settings, logs and disk with every " ++
        "container, image, volume and file inside the VM. Shared host directories are kept."
    else "Stop and remove the profile from active listings. Its disk and Docker data are preserved." := by
  rw [impact, h]
  rfl

theorem impact_down {r : Change} (h : r.operation = "vm down") : r.impact =
    if r.purge then
      "Stop the workspace's VM and permanently delete its profile: its settings, logs and disk " ++
        "with every container, image, volume and file inside the VM. The workspace and its git " ++
        "directory are kept."
    else
      "Stop the workspace's VM and interrupt its running containers. Its disk and Docker data are preserved." := by
  rw [impact, h]
  rfl

theorem impact_up {r : Change} (h : r.operation = "vm up") : r.impact =
    "Start the workspace's VM, creating its profile first when it has none. A new profile shares " ++
      "the workspace writable at its own path" ++
      (if r.noGitMount then "" else " and its git directory read-only") ++
      ", and not the home directory; one that cannot start is removed again." := by
  rw [impact, h]
  rfl

/-- Two texts that differ at a character are not equal, whatever comes after it. -/
theorem filter_differs {start start' : String} (n : ℕ) {c d : Char} (hc : (start.toList.filter kept)[n]? = some c)
    (hc' : (start'.toList.filter kept)[n]? = some d) (hne : c ≠ d) (rest rest' : String) :
    (start ++ rest).toList.filter kept ≠ (start' ++ rest').toList.filter kept := by
  intro h
  have hat : ∀ (a b : String) (e : Char), (a.toList.filter kept)[n]? = some e →
      ((a ++ b).toList.filter kept)[n]? = some e := by
    intro a b e he
    rw [String.toList_append, List.filter_append, List.getElem?_append_left (List.getElem?_eq_some_iff.mp he).1, he]
  have hsame := hat start' rest' d hc'
  rw [← h, hat start rest c hc] at hsame
  exact hne (Option.some.inj hsame)

theorem impact_delete_differs {r r' : Change} (h : r.operation = "vm delete") (h' : r'.operation = "vm delete")
    (hp : r.purge = true) (hp' : r'.purge = false) : r.impact.toList.filter kept ≠ r'.impact.toList.filter kept := by
  rw [impact_delete h, impact_delete h', if_pos hp, if_neg (by rw [hp']; decide)]
  rw [← @String.append_empty
    "Stop and remove the profile from active listings. Its disk and Docker data are preserved."]
  exact filter_differs 6 (c := 'h') (d := 'n') (by decide) (by decide) (by decide) _ _

theorem impact_down_differs {r r' : Change} (h : r.operation = "vm down") (h' : r'.operation = "vm down")
    (hp : r.purge = true) (hp' : r'.purge = false) : r.impact.toList.filter kept ≠ r'.impact.toList.filter kept := by
  rw [impact_down h, impact_down h', if_pos hp, if_neg (by rw [hp']; decide)]
  rw [← @String.append_empty
    "Stop the workspace's VM and interrupt its running containers. Its disk and Docker data are preserved."]
  rw [String.append_assoc]
  exact filter_differs 28 (c := 'p') (d := 'i') (by decide) (by decide) (by decide) _ _

theorem impact_up_differs {r r' : Change} (h : r.operation = "vm up") (h' : r'.operation = "vm up")
    (hp : r.noGitMount = true) (hp' : r'.noGitMount = false) :
    r.impact.toList.filter kept ≠ r'.impact.toList.filter kept := by
  rw [impact_up h, impact_up h', if_pos hp, if_neg (by rw [hp']; decide), String.append_empty]
  simp only [String.toList_append, List.filter_append]
  intro heq
  have hlength := congrArg List.length heq
  have hread : 0 < (" and its git directory read-only".toList.filter kept).length := by decide
  simp only [List.length_append] at hlength
  omega

theorem kept_number (n : ℕ) : (toString n).toList.filter kept = Nat.toDigits 10 n := by
  have hdigits : (toString n).toList = Nat.toDigits 10 n := by
    rw [show toString n = String.ofList (Nat.toDigits 10 n) from rfl, String.toList_ofList]
  rw [hdigits, (kept_digits (by norm_num) (by norm_num) n).filter_eq]

theorem scale_injective {n m : ℕ}
    (h : ("Set the selected workload to " ++ toString n ++
      " replicas; Pods may be created or terminated.").toList.filter kept =
      ("Set the selected workload to " ++ toString m ++
        " replicas; Pods may be created or terminated.").toList.filter kept) : n = m := by
  simp only [String.toList_append, List.filter_append, kept_number] at h
  exact toDigits_injective (by norm_num) (by norm_num) (List.append_cancel_left (List.append_cancel_right h))

theorem scale_differs (rest : String) {other : String} (h : (other.toList.filter kept)[0]? = some 'R') :
    ("Set the selected workload to " ++ rest).toList.filter kept ≠ other.toList.filter kept := by
  have hstart : ("Set the selected workload to ".toList.filter kept)[0]? = some 'S' := by decide
  have hdiffers := filter_differs 0 hstart h (by decide) rest ""
  rwa [String.append_empty] at hdiffers

theorem restart_differs :
    "Request a rolling restart of the selected workload's Pods.".toList.filter kept ≠
      READ_IMPACT.toList.filter kept := by
  intro h
  have hat := congrArg (fun text => text[2]?) h
  exact absurd hat (by decide)

theorem workloadConsequence_of_impact {r r' : Change}
    (h : r.workloadImpact.toList.filter kept = r'.workloadImpact.toList.filter kept) :
    r.workloadConsequence = r'.workloadConsequence := by
  have hrestart :
      ("Request a rolling restart of the selected workload's Pods.".toList.filter kept)[0]? = some 'R' := by
    decide
  have hread : (READ_IMPACT.toList.filter kept)[0]? = some 'R' := by decide
  unfold workloadImpact at h
  unfold workloadConsequence
  split_ifs at h ⊢
  · rw [scale_injective h]
  · rw [String.append_assoc] at h
    exact absurd h (scale_differs _ hrestart)
  · rw [String.append_assoc] at h
    exact absurd h (scale_differs _ hread)
  · rw [String.append_assoc] at h
    exact absurd h.symm (scale_differs _ hrestart)
  · rfl
  · exact absurd h restart_differs
  · rw [String.append_assoc] at h
    exact absurd h.symm (scale_differs _ hread)
  · exact absurd h.symm restart_differs
  · rfl

/-- The impacts of one operation tell its consequences apart. -/
theorem consequence_of_impact {r r' : Change} (hop : r.operation = r'.operation)
    (hi : r.impact.toList.filter kept = r'.impact.toList.filter kept) : r.consequence = r'.consequence := by
  by_cases hpurge : r.operation = "vm delete" ∨ r.operation = "vm down"
  · rw [consequence_purge hpurge, consequence_purge (hop ▸ hpurge)]
    cases hp : r.purge <;> cases hp' : r'.purge
    · rfl
    · rcases hpurge with h | h
      · exact absurd hi.symm (impact_delete_differs (hop ▸ h) h hp' hp)
      · exact absurd hi.symm (impact_down_differs (hop ▸ h) h hp' hp)
    · rcases hpurge with h | h
      · exact absurd hi (impact_delete_differs h (hop ▸ h) hp hp')
      · exact absurd hi (impact_down_differs h (hop ▸ h) hp hp')
    · rfl
  by_cases hup : r.operation = "vm up"
  · rw [consequence_up hup, consequence_up (hop ▸ hup)]
    cases hp : r.noGitMount <;> cases hp' : r'.noGitMount
    · rfl
    · exact absurd hi.symm (impact_up_differs (hop ▸ hup) hup hp' hp)
    · exact absurd hi (impact_up_differs hup (hop ▸ hup) hp hp')
    · rfl
  by_cases hfixed : r.operation ∈ FIXED_IMPACTS
  · rw [consequence_fixed hpurge hup hfixed, consequence_fixed (hop ▸ hpurge) (hop ▸ hup) (hop ▸ hfixed)]
  rw [impact_workload hpurge hup hfixed, impact_workload (hop ▸ hpurge) (hop ▸ hup) (hop ▸ hfixed)] at hi
  rw [consequence_workload hpurge hup hfixed, consequence_workload (hop ▸ hpurge) (hop ▸ hup) (hop ▸ hfixed)]
  exact workloadConsequence_of_impact hi

/-! ## Confirmations -/

/-- Everything that a confirmation shows agrees. -/
structure SameShown (r r' : Change) : Prop where
  operation : r.operation = r'.operation
  fields : r.fieldValues = r'.fieldValues
  consequence : r.consequence = r'.consequence

theorem filter_fields (p : Printer) {keys : List Word} (hkeys : ∀ key ∈ keys, Unfiltered key)
    (values : List (Option Shown)) :
    ((keys.zip values).flatMap (fun field =>
      match field.2 with
      | some value => field.1 ++ value.write p ++ ['\n']
      | none => [])).filter kept = record (Shown.write p) keys values := by
  induction keys generalizing values with
  | nil => rfl
  | cons key keys ih =>
    cases values with
    | nil => rfl
    | cons value values =>
      obtain ⟨hkey, hlater⟩ := List.forall_mem_cons.mp hkeys
      rw [List.zip_cons_cons, List.flatMap_cons, List.filter_append, ih hlater]
      cases value with
      | none => rfl
      | some value =>
        have hline : ['\n'].filter kept = [] := by decide
        show (key ++ value.write p ++ ['\n']).filter kept ++ _ = key ++ value.write p ++ _
        rw [List.filter_append, (hkey.append (kept_write p value)).filter_eq, hline, List.append_nil]

def ANSWERS : Word := "y = execute; Esc / n = cancel".toList

/-- The characters of operations. -/
def lowercase (c : Char) : Bool := decide (97 ≤ c.toNat ∧ c.toNat ≤ 122) || c == ' ' || c == '8'

theorem operations_lowercase : (OPERATIONS.all fun op => op.1.toList.all lowercase) = true := by decide

theorem lowercase_kept {c : Char} (h : lowercase c = true) : isControl c = false := by
  simp only [lowercase, Bool.or_eq_true, decide_eq_true_eq, beq_iff_eq] at h
  rcases h with (h | rfl) | rfl
  · simp [isControl]
    omega
  · decide
  · decide

theorem known_lowercase {r : Change} (h : r.known = true) : ∀ c ∈ r.operation.toList, lowercase c = true := by
  obtain ⟨op, hop, heq⟩ := List.any_eq_true.mp h
  have hall := List.all_eq_true.mp (List.all_eq_true.mp operations_lowercase op hop)
  rwa [eq_of_beq heq] at hall

theorem field_keys_kept : ∀ key ∈ FIELD_KEYS, Unfiltered key := by
  have hall : (FIELD_KEYS.all fun key => key.all fun c => !isControl c) = true := by decide
  intro key hkey c hc
  simpa using List.all_eq_true.mp (List.all_eq_true.mp hall key hkey) c hc

/-- What the lines of a confirmation hold together. -/
theorem confirmation_flatten (p : Printer) {r : Change} (h : r.known = true) (width : ℕ) :
    (r.confirmation p width).flatten = "Confirm ".toList ++ (r.operation.toList ++
      (record (Shown.write p) FIELD_KEYS r.fieldValues ++ ("Impact: ".toList ++
        (r.impact.toList.filter kept ++ ANSWERS)))) := by
  have hoperation : Unfiltered r.operation.toList := fun c hc => lowercase_kept (known_lowercase h c hc)
  have hstart : "Confirm ".toList.filter kept = "Confirm ".toList := by decide
  have hline : ['\n'].filter kept = [] := by decide
  have himpact : "\nImpact: ".toList.filter kept = "Impact: ".toList := by decide
  have hanswers : "\n\ny = execute; Esc / n = cancel".toList.filter kept = ANSWERS := by decide
  refine (wrapLines_flatten p (r.confirmationText p) width).trans ?_
  unfold confirmationText
  rw [List.filter_append, List.filter_append, List.filter_append, List.filter_append, List.filter_append,
    List.filter_append, filter_fields p field_keys_kept, hoperation.filter_eq, hstart, hline, himpact, hanswers,
    List.append_nil]
  simp only [List.append_assoc]

/-- The keys of the fields and of the impact. -/
def KEYS : List Word := FIELD_KEYS ++ ["Impact: ".toList]

theorem keys_apart : KEYS.Pairwise fun a b => ¬ a <+: b ∧ ¬ b <+: a := by decide

theorem keys_start {key : Word} (h : key ∈ KEYS) :
    ∃ c rest, key = c :: rest ∧ lowercase c = false ∧ c.isDigit = false := by
  have hall : (KEYS.all fun key => key.head?.any fun c => !lowercase c && !c.isDigit) = true := by decide
  have hkey := List.all_eq_true.mp hall key h
  cases key with
  | nil => exact absurd hkey (by decide)
  | cons c rest => exact ⟨c, rest, rfl, by simpa using hkey⟩

/-- What comes after the operation or a value starts with a key. -/
theorem key_head {key text : Word} (hkey : key ∈ KEYS) (hstart : key <+: text) (c : Char)
    (hc : text.head? = some c) : lowercase c = false ∧ c.isDigit = false := by
  obtain ⟨d, rest, rfl, hd⟩ := keys_start hkey
  obtain ⟨tail, rfl⟩ := hstart
  obtain rfl : d = c := by simpa using hc
  exact hd

/-- The operation ends where the first key starts. -/
theorem operation_delimited :
    Delimited (fun op : { text : Word // ∀ c ∈ text, lowercase c = true } => op.1)
      fun r => ∀ c, r.head? = some c → lowercase c = false :=
  span_delimited (fun op c hc => op.2 c hc) Subtype.val_injective

/-- The lines tell the operation, the fields and the impact. -/
theorem parts_of_confirmation (p : Printer) {r r' : Change} (h : r.known = true) (h' : r'.known = true) {width : ℕ}
    (heq : r.confirmation p width = r'.confirmation p width) :
    r.operation = r'.operation ∧ r.fieldValues = r'.fieldValues ∧
      r.impact.toList.filter kept = r'.impact.toList.filter kept := by
  have htext := congrArg List.flatten heq
  rw [confirmation_flatten p h, confirmation_flatten p h'] at htext
  have hhead : ∀ values : List (Option Shown), ∀ rest : Word, ∀ c,
      (record (Shown.write p) FIELD_KEYS values ++ ("Impact: ".toList ++ rest)).head? = some c →
        lowercase c = false := by
    intro values rest c hc
    obtain ⟨key, hkey, hstart⟩ := @record_starts _ _ (Shown.write p) FIELD_KEYS values "Impact: ".toList rest
    exact (key_head hkey hstart c hc).1
  obtain ⟨hop, hrest⟩ := operation_delimited ⟨_, known_lowercase h⟩ ⟨_, known_lowercase h'⟩ _ _
    (hhead _ _) (hhead _ _) (List.append_cancel_left htext)
  have hstop : ∀ key ∈ KEYS, ∀ text, key <+: text → NoDigit text :=
    fun key hkey text hstart c hc => (key_head hkey hstart c hc).2
  obtain ⟨hfields, himpact⟩ := record_delimited (shown_delimited p) FIELD_KEYS keys_apart hstop rfl rfl hrest
  exact ⟨String.toList_inj.mp (congrArg Subtype.val hop), hfields, List.append_cancel_right himpact⟩

/-- Two confirmations are equal exactly if everything that is shown agrees. -/
theorem confirmation_eq_iff (p : Printer) {r r' : Change} (h : r.known = true) (h' : r'.known = true) (width : ℕ) :
    r.confirmation p width = r'.confirmation p width ↔ SameShown r r' := by
  constructor
  · intro heq
    obtain ⟨hop, hfields, himpact⟩ := parts_of_confirmation p h h' heq
    exact ⟨hop, hfields, consequence_of_impact hop himpact⟩
  · rintro ⟨hop, hfields, hconsequence⟩
    have htext : r.confirmationText p = r'.confirmationText p := by
      unfold confirmationText
      rw [hop, hfields, impact_of_consequence hop hconsequence]
    unfold confirmation
    rw [htext]

/-! ## What a valid request can change -/

theorem validate_spec {r : Change} (h : r.validate = .ok ()) : ∀ check ∈ r.checks, check.1 = false := by
  unfold validate at h
  split at h
  · cases h
  · rename_i hnone
    intro check hcheck
    exact Bool.eq_false_iff.mpr (List.find?_eq_none.mp hnone check hcheck)

theorem validate_known {r : Change} (h : r.validate = .ok ()) : r.known = true := by
  have hcheck := validate_spec h (!r.known, r.unknownMessage) (List.mem_of_getElem? (i := 0) rfl)
  simpa using hcheck

theorem validate_purge {r : Change} (h : r.validate = .ok ()) (hpurge : r.purge = true) :
    r.operation = "vm delete" ∨ r.operation = "vm down" := by
  have hcheck := validate_spec h (r.purge && !r.is ["vm delete", "vm down"],
    "--purge is only supported for vm delete and vm down") (List.mem_of_getElem? (i := 18) rfl)
  simpa [hpurge, is, or_iff_not_imp_left] using hcheck

theorem validate_noGitMount {r : Change} (h : r.validate = .ok ()) (hmount : r.noGitMount = true) :
    r.operation = "vm up" := by
  have hcheck := validate_spec h (r.noGitMount && !r.is ["vm up"], "--no-git-mount is only supported for vm up")
    (List.mem_of_getElem? (i := 7) rfl)
  simpa [hmount, is] using hcheck

theorem SameShown.purge {r r' : Change} (h : SameShown r r') (hv : r.validate = .ok ()) (hv' : r'.validate = .ok ()) :
    r.purge = r'.purge := by
  by_cases hop : r.operation = "vm delete" ∨ r.operation = "vm down"
  · have heq := h.consequence
    rw [consequence_purge hop, consequence_purge (h.operation ▸ hop)] at heq
    exact Consequence.purge.inj heq
  · have hno : r.purge = false := Bool.eq_false_iff.mpr fun hp => hop (validate_purge hv hp)
    have hno' : r'.purge = false := Bool.eq_false_iff.mpr fun hp => hop (h.operation ▸ validate_purge hv' hp)
    rw [hno, hno']

theorem SameShown.noGitMount {r r' : Change} (h : SameShown r r') (hv : r.validate = .ok ())
    (hv' : r'.validate = .ok ()) : r.noGitMount = r'.noGitMount := by
  by_cases hop : r.operation = "vm up"
  · have heq := h.consequence
    rw [consequence_up hop, consequence_up (h.operation ▸ hop)] at heq
    exact Consequence.gitMount.inj heq
  · have hno : r.noGitMount = false := Bool.eq_false_iff.mpr fun hp => hop (validate_noGitMount hv hp)
    have hno' : r'.noGitMount = false :=
      Bool.eq_false_iff.mpr fun hp => hop (h.operation ▸ validate_noGitMount hv' hp)
    rw [hno, hno']

/-- What two requests name agrees: the operation, the target and the fields of changes. -/
structure SameListed (r r' : Change) : Prop where
  operation : r.operation = r'.operation
  target : r.target = r'.target
  uid : r.uid = r'.uid
  kubeconfig : r.kubeconfig = r'.kubeconfig
  path : r.path = r'.path
  file : r.file = r'.file
  manifest : r.manifest = r'.manifest
  cpu : r.cpu = r'.cpu
  memory : r.memory = r'.memory
  disk : r.disk = r'.disk
  rosetta : r.rosetta = r'.rosetta
  replicas : r.replicas = r'.replicas
  purge : r.purge = r'.purge
  noGitMount : r.noGitMount = r'.noGitMount

theorem text_injective : Function.Injective Request.text := by
  intro a b h
  cases a <;> cases b <;> simp_all [Request.text]

theorem fieldValues_inj {r r' : Change} (h : r.fieldValues = r'.fieldValues) :
    r.profile = r'.profile ∧ r.workspace = r'.workspace ∧ r.context = r'.context ∧ r.namespace_ = r'.namespace_ ∧
      r.name = r'.name ∧ r.uid = r'.uid ∧ r.kubeconfig = r'.kubeconfig ∧ r.path = r'.path ∧ r.file = r'.file ∧
      r.manifest = r'.manifest ∧ r.cpu = r'.cpu ∧ r.memory = r'.memory ∧ r.disk = r'.disk := by
  have htext : Function.Injective (Option.map Shown.text) := Option.map_injective fun _ _ => Shown.text.inj
  have hnumber : Function.Injective (Option.map Shown.number) := Option.map_injective fun _ _ => Shown.number.inj
  simpa only [fieldValues, List.map_cons, List.map_nil, List.cons_append, List.nil_append, List.cons.injEq,
    htext.eq_iff, hnumber.eq_iff, and_true] using h

/-- A confirmation leaves out the Docker configuration directory, Rosetta and the replicas of what is not scaled. -/
theorem SameShown.listed_iff {r r' : Change} (h : SameShown r r') (hv : r.validate = .ok ())
    (hv' : r'.validate = .ok ()) : SameListed r r' ↔
      r.dockerConfig = r'.dockerConfig ∧ r.rosetta = r'.rosetta ∧ r.replicas = r'.replicas := by
  constructor
  · intro hlisted
    have htarget := hlisted.target
    simp only [Request.target, Value.object.injEq, List.cons.injEq, Prod.mk.injEq, true_and, and_true,
      text_injective.eq_iff] at htarget
    exact ⟨htarget.2.2.2.2.2, hlisted.rosetta, hlisted.replicas⟩
  · rintro ⟨hconfig, hrosetta, hreplicas⟩
    obtain ⟨hprofile, hworkspace, hcontext, hnamespace, hname, huid, hkubeconfig, hpath, hfile, hmanifest, hcpu,
      hmemory, hdisk⟩ := fieldValues_inj h.fields
    have htarget : r.target = r'.target := by
      unfold Request.target
      rw [hprofile, hworkspace, hcontext, hnamespace, hname, hconfig]
    exact ⟨h.operation, htarget, huid, hkubeconfig, hpath, hfile, hmanifest, hcpu, hmemory, hdisk, hrosetta,
      hreplicas, h.purge hv hv', h.noGitMount hv hv'⟩

/-- **When a confirmation shows what will be changed**: two valid requests that differ in what they name are confirmed
with different lines unless they differ in nothing but the Docker configuration directory, Rosetta and the replicas of
what is not scaled. -/
theorem confirmation_differs_iff (p : Printer) {r r' : Change} (hv : r.validate = .ok ())
    (hv' : r'.validate = .ok ()) :
    (∀ width ≥ 18, ¬SameListed r r' → r.confirmation p width ≠ r'.confirmation p width) ↔
      (SameShown r r' → r.dockerConfig = r'.dockerConfig ∧ r.rosetta = r'.rosetta ∧ r.replicas = r'.replicas) := by
  have hlines : ∀ width, r.confirmation p width = r'.confirmation p width ↔ SameShown r r' :=
    confirmation_eq_iff p (validate_known hv) (validate_known hv')
  constructor
  · intro hdiffers hshown
    refine (hshown.listed_iff hv hv').mp (by_contra fun hlisted => ?_)
    exact hdiffers 18 le_rfl hlisted ((hlines 18).mpr hshown)
  · intro hcondition width _ hlisted heq
    have hshown := (hlines width).mp heq
    exact hlisted ((hshown.listed_iff hv hv').mpr (hcondition hshown))

/-! ### Another configuration directory -/

def ASCII : Printer where
  plain c := decide (0x20 ≤ c.toNat) && decide (c.toNat < 0x7F)
  plain_spec c h := by
    simp only [Bool.and_eq_true, decide_eq_true_eq] at h
    simp [isControl]
    omega
  width _ := 1

/-- A container is deleted at the daemon that the context names in this directory. -/
def deleteWeb (directory : String) : Change where
  words := ["docker", "containers", "delete"]
  context := some "dev"
  dockerConfig := some directory
  name := some "web"
  yes := true

theorem deleteWeb_valid : (deleteWeb "/a").validate = .ok () ∧ (deleteWeb "/b").validate = .ok () := by
  constructor <;> rfl

theorem deleteWeb_shown : SameShown (deleteWeb "/a") (deleteWeb "/b") := ⟨rfl, rfl, rfl⟩

theorem confirmation_differs_uid :
    (deleteWeb "/a").confirmation ASCII 18 ≠ { deleteWeb "/a" with uid := some "1" }.confirmation ASCII 18 := by
  have hfields : (deleteWeb "/a").fieldValues ≠ { deleteWeb "/a" with uid := some "1" }.fieldValues := by
    decide
  have hlisted : ¬SameListed (deleteWeb "/a") { deleteWeb "/a" with uid := some "1" } := fun h =>
    absurd h.uid (by decide)
  have hvalid : { deleteWeb "/a" with uid := some "1" }.validate = .ok () := rfl
  have hdiffers := confirmation_differs_iff ASCII deleteWeb_valid.1 hvalid
  exact hdiffers.mpr (fun hshown => absurd hshown.fields hfields) 18 le_rfl hlisted

/-- The confirmations of a deletion in two configuration directories are the same. -/
theorem confirmation_hides_directory : ¬∀ (p : Printer) (r r' : Change), r.validate = .ok () → r'.validate = .ok () →
    r.mutates = true → r'.mutates = true → ¬SameListed r r' →
      ∀ width ≥ 18, r.confirmation p width ≠ r'.confirmation p width := by
  intro h
  obtain ⟨hv, hv'⟩ := deleteWeb_valid
  have hdirectory : ¬SameListed (deleteWeb "/a") (deleteWeb "/b") := fun hlisted =>
    absurd ((deleteWeb_shown.listed_iff hv hv').mp hlisted).1 (by decide)
  exact h ASCII _ _ hv hv' (by rfl) (by rfl) hdirectory 18 le_rfl
    ((confirmation_eq_iff ASCII (validate_known hv) (validate_known hv') 18).mpr deleteWeb_shown)

end Change

end Hamn.Tui
