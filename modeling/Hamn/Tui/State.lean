import Hamn.Tui.Request

/-!
# State — the selection on the screen (`control/tui_state.rs`)

The state of one workspace, as far as the rows, the selected one and the open detail depend on it, and the operations
that neither move the selection nor change the view.  `N` is the type of a CLI invocation.  The title line, the
refresh schedule, scrolling and what is confirmed are left out, and of a message its summary.

* `State.rows`, `State.selectedRow`: what is shown and selected.
* `accept`: a result arrives.
* `selection_kept`: the selection stays on its row or is lost.
-/

namespace Hamn.Tui

/-- What was last reported. -/
inductive Message where
  | info (text : String)
  | failure (failure : Failure)
  deriving DecidableEq, Repr

/-- A detail made of one row of the list: the identity of the row, and the text last made of it. -/
structure RowDetail where
  row : List String
  shown : String

structure State (N : Type) where
  workspace : Workspace
  showAll : Bool
  native : Option N
  environmentPicker : Bool
  runtime : Value
  request : Request
  data : Value
  selected : Option ℕ
  filter : String
  /-- The prompt: `:` a command, `/` a filter, `F` the ports of `forward`. -/
  input : Option (Char × String)
  forward : Option (N × Value)
  history : List String
  historyIndex : Option ℕ
  message : Message
  detail : Option String
  rowDetail : Option RowDetail
  loading : Bool
  refreshing : Bool
  stale : Bool
  help : Bool

def VM_NOT_READY : String := "vmNotReady"
def ROW_GONE : String := "No longer in the list; what follows was read last."
def LOG_LIMIT : ℕ := 1024 * 1024
def HISTORY_LIMIT : ℕ := 100

section

variable {N : Type} (lib : Lib)

namespace State

/-! ## Rows -/

/-- Whether `text` contains `part`. -/
def contains (text part : String) : Bool := decide (part.toList <:+: text.toList)

/-- Whether the filter and the view show the row. -/
def shows (s : State N) (row : Value) : Bool :=
  (s.native.isSome || s.environmentPicker || s.workspace != .containers || s.showAll ||
      s.request.operation != "docker containers list" || (row.index "State").asStr == some "running") &&
    (lib.lower s.filter == "" || contains (lib.lower (label lib row)) (lib.lower s.filter))

def rows (s : State N) : List Value := ((s.data.asArray).getD []).filter (s.shows lib)

/-- `State::selected` -/
def selectedRow (s : State N) : Option Value := s.selected.bind fun i => (s.rows lib)[i]?

/-- The row with this identity, if there is exactly one. -/
def findIdentity (s : State N) (key : List String) : Option ℕ :=
  match (s.rows lib).zipIdx.filter fun m => identity m.1 == some key with
  | [m] => some m.2
  | _ => none

/-- The identity of the selected row. -/
def selectedKey (s : State N) : Option (List String) := (s.selectedRow lib).bind identity

/-! ## Messages -/

def notify (s : State N) (text : String) : State N := { s with message := .info text }

def fail (s : State N) (failure : Failure) : State N := { s with message := .failure failure }

def clearMessage (s : State N) : State N := { s with message := .info "" }

/-! ## Prompt -/

def closeInput (s : State N) : State N := { s with input := none, forward := none }

/-- The prompt is typed into; a filter keeps the selected row if it still shows it, once. -/
def editInput (s : State N) (text : String) (backspace : Bool) : State N :=
  match s.input with
  | none => s
  | some (kind, typed) =>
    let typed := if backspace then String.ofList typed.toList.dropLast else typed ++ text
    let t := { s with input := some (kind, typed) }
    if kind = '/' then
      let t := { t with filter := typed }
      { t with selected := (s.selectedKey lib).bind (t.findIdentity lib) }
    else t

/-- `complete_input`; `suggestion` is what is offered after the text of a command. -/
def completeInput (s : State N) (suggestion : String → Option String) : State N :=
  match s.input with
  | some (':', typed) =>
    match suggestion typed with
    | some rest => s.editInput lib rest false
    | none => s
  | _ => s

def rememberCommand (s : State N) (command : String) : State N :=
  let s := { s with historyIndex := none }
  if command = "" ∨ s.history.getLast? = some command then s
  else
    let history := if s.history.length = HISTORY_LIMIT then s.history.drop 1 else s.history
    { s with history := history ++ [command] }

def recallCommand (s : State N) (previous : Bool) : State N :=
  match s.input with
  | some (':', _) =>
    if s.history = [] then s
    else
      let goTo (i : ℕ) : State N :=
        { s with
          historyIndex := if i < s.history.length then some i else none
          input := some (':', (s.history[i]?).getD "") }
      match s.historyIndex, previous with
      | none, true => goTo (s.history.length - 1)
      | some i, true => goTo (i - 1)
      | some i, false => goTo (min (i + 1) s.history.length)
      | none, false => s
  | _ => s

def clearFilter (s : State N) : State N :=
  let t := { s with filter := "" }
  { t with selected := (s.selectedKey lib).bind (t.findIdentity lib) }

/-! ## Details -/

def showRowDetail (s : State N) (row : Value) : State N :=
  let text := rowDetailText lib s.request.operation row
  { s with rowDetail := (identity row).map fun key => ⟨key, text⟩, detail := some text }

def detailFollowsRows (s : State N) : Bool := s.rowDetail.any fun d => s.detail == some d.shown

/-- The open detail is made again from the selected row of the new list. -/
def followRowDetail (s : State N) : State N :=
  match s.rowDetail with
  | none => { s with rowDetail := none }
  | some d =>
    let t := { s with rowDetail := none }
    if s.detailFollowsRows = false then t
    else
      match (t.selectedRow lib).filter fun row => identity row == some d.row with
      | some row => t.showRowDetail lib row
      | none => { t with detail := some (ROW_GONE ++ "\n\n" ++ d.shown) }

/-! ## Results -/

/-- The end of a log that fits. -/
def fitLog : List Char → List Char
  | [] => []
  | c :: cs => if (String.ofList (c :: cs)).utf8ByteSize ≤ LOG_LIMIT then c :: cs else fitLog cs

/-- The rows of a list; the first list of a view selects its first row. -/
def updateRows (s : State N) (value : Value) : State N :=
  let t := { s with stale := false, data := value }
  let first := if t.rows lib = [] then none else some 0
  { t with selected := if s.data.isNull then first else (s.selectedKey lib).bind (t.findIdentity lib) }

def acceptRows (s : State N) (value : Value) : State N :=
  ((s.updateRows lib value).followRowDetail lib).clearMessage

def acceptValue (s : State N) (value : Value) : State N :=
  if value.asArray.isSome then s.acceptRows lib value
  else
    let detail := ((value.index "yaml").asStr).getD (lib.pretty value)
    ({ s with help := false, detail := some detail } : State N).clearMessage

def acceptFailure (s : State N) (error : Failure) : State N :=
  if error.code = VM_NOT_READY then ({ s with data := .null, stale := true } : State N).fail error
  else ({ s with stale := true } : State N).fail error

def accept (s : State N) (result : Except Failure Value) : State N :=
  match result with
  | .error error => ({ s with loading := false, refreshing := false } : State N).acceptFailure error
  | .ok value =>
    if (value.index "type").asStr = some "runtimeStatus" then { s with runtime := value.index "data" }
    else if (value.index "type").asStr = some "log" then
      { s with detail := some (String.ofList (fitLog (s.detail.getD "" ++ value.text "text").toList)) }
    else
      let t : State N := { s with loading := false, refreshing := false }
      if (value.index "ended").asBool = some true then t.notify "Log stream ended" else t.acceptValue lib value

end State

/-! ## Operations -/

/-- What happens to a state without a move, a change of the view or an action on a row. -/
inductive Op (N : Type) where
  | accept (result : Except Failure Value)
  | editInput (text : String) (backspace : Bool)
  | completeInput (suggestion : String → Option String)
  | rememberCommand (command : String)
  | recallCommand (previous : Bool)
  | clearFilter
  /-- A prompt is opened, for `F` with the list and the row whose ports it takes. -/
  | openInput (kind : Char) (text : String) (forward : Option (N × Value))
  | closeInput

def step (s : State N) : Op N → State N
  | .accept result => s.accept lib result
  | .editInput text backspace => s.editInput lib text backspace
  | .completeInput suggestion => s.completeInput lib suggestion
  | .rememberCommand command => s.rememberCommand command
  | .recallCommand previous => s.recallCommand previous
  | .clearFilter => s.clearFilter lib
  | .openInput kind text forward => { s with input := some (kind, text), forward := forward }
  | .closeInput => s.closeInput

def run (s : State N) (ops : List (Op N)) : State N := ops.foldl (step lib) s

/-- The VM is not ready: Docker lists nothing. -/
def Op.NotReady : Op N → Prop
  | .accept (.error error) => error.code = VM_NOT_READY
  | _ => False

/-- A list arrives. -/
def Op.IsList : Op N → Prop
  | .accept (.ok value) =>
    (value.index "type").asStr ≠ some "runtimeStatus" ∧ (value.index "type").asStr ≠ some "log" ∧
      (value.index "ended").asBool ≠ some true ∧ value.asArray.isSome = true
  | _ => False

/-! ## Frames -/

variable {lib}

namespace State

/-- What is shown and selected is the same. -/
structure SameRows (lib : Lib) (s t : State N) : Prop where
  data : t.data = s.data
  rows : t.rows lib = s.rows lib
  selected : t.selected = s.selected

theorem SameRows.refl (s : State N) : SameRows lib s s := ⟨rfl, rfl, rfl⟩

theorem SameRows.selectedRow {s t : State N} (h : SameRows lib s t) : t.selectedRow lib = s.selectedRow lib := by
  unfold State.selectedRow
  rw [h.selected, h.rows]

theorem followRowDetail_same (s : State N) : SameRows lib s (s.followRowDetail lib) := by
  unfold followRowDetail
  split
  · exact ⟨rfl, rfl, rfl⟩
  · split_ifs
    · exact ⟨rfl, rfl, rfl⟩
    · simp only
      split <;> exact ⟨rfl, rfl, rfl⟩

theorem recallCommand_same (s : State N) (previous : Bool) : SameRows lib s (s.recallCommand previous) := by
  unfold recallCommand
  split
  · split_ifs
    · exact SameRows.refl s
    · simp only
      split <;> exact ⟨rfl, rfl, rfl⟩
  · exact SameRows.refl s

theorem rememberCommand_same (s : State N) (command : String) : SameRows lib s (s.rememberCommand command) := by
  unfold rememberCommand
  simp only
  split_ifs <;> exact ⟨rfl, rfl, rfl⟩

/-- What is found has the identity that was looked for. -/
theorem findIdentity_eq_some {s : State N} {key : List String} {i : ℕ} (h : s.findIdentity lib key = some i) :
    ∃ row, (s.rows lib)[i]? = some row ∧ identity row = some key := by
  unfold findIdentity at h
  split at h
  · rename_i m hm
    have hmem : m ∈ (s.rows lib).zipIdx.filter fun m => identity m.1 == some key := by
      rw [hm]
      exact List.mem_singleton_self m
    rw [List.mem_filter, beq_iff_eq] at hmem
    obtain ⟨hzip, hkey⟩ := hmem
    rw [← Option.some.inj h]
    exact ⟨m.1, List.mem_zipIdx_iff_getElem?.mp hzip, hkey⟩
  · cases h

/-- `t` selects a row with the identity of the one that `s` selects, or none. -/
def Kept (lib : Lib) (s t : State N) : Prop :=
  t.selectedRow lib = none ∨
    ∃ row row', s.selectedRow lib = some row ∧ t.selectedRow lib = some row' ∧ identity row' = identity row

theorem Kept.of_same {s t : State N} (h : SameRows lib s t) : Kept lib s t := by
  unfold Kept
  rw [h.selectedRow]
  cases hr : s.selectedRow lib with
  | none => exact Or.inl rfl
  | some row => exact Or.inr ⟨row, row, rfl, rfl, rfl⟩

theorem Kept.trans {s t u : State N} (h : Kept lib s t) (h' : Kept lib t u) : Kept lib s u := by
  rcases h' with h' | ⟨row', row'', ht, hu, hid'⟩
  · exact Or.inl h'
  · rcases h with h | ⟨row, x, hs, hx, hid⟩
    · rw [h] at ht
      cases ht
    · obtain rfl : x = row' := Option.some.inj (hx.symm.trans ht)
      exact Or.inr ⟨row, row'', hs, hu, hid'.trans hid⟩

/-- A selection that was looked for by its identity. -/
theorem Kept.of_find {s t : State N} (h : t.selected = (s.selectedKey lib).bind (t.findIdentity lib)) :
    Kept lib s t := by
  cases ht : t.selectedRow lib with
  | none => exact Or.inl ht
  | some row' =>
    refine Or.inr ?_
    have hsel := ht
    unfold State.selectedRow at hsel
    obtain ⟨i, hi, hrow⟩ := Option.bind_eq_some_iff.mp hsel
    obtain ⟨key, hkey, hfind⟩ := Option.bind_eq_some_iff.mp (h.symm.trans hi)
    obtain ⟨row, hs, hid⟩ := Option.bind_eq_some_iff.mp hkey
    obtain ⟨x, hx, hxid⟩ := findIdentity_eq_some hfind
    obtain rfl : x = row' := Option.some.inj (hx.symm.trans hrow)
    exact ⟨row, x, hs, ht, hxid.trans hid.symm⟩

theorem selectedRow_of_null {s : State N} (h : s.data.isNull = true) : s.selectedRow lib = none := by
  have hrows : s.rows lib = [] := by
    unfold State.rows
    cases hd : s.data with
    | null => rfl
    | _ =>
      rw [hd] at h
      cases h
  unfold State.selectedRow
  rw [hrows]
  cases s.selected <;> rfl

theorem isNull_of_asArray {v : Value} (h : v.asArray.isSome = true) : v.isNull = false := by
  cases v with
  | array items => rfl
  | _ => cases h

end State

/-! ## One operation -/

open State

theorem editInput_kept (s : State N) (text : String) (backspace : Bool) :
    Kept lib s (s.editInput lib text backspace) ∧ (s.editInput lib text backspace).data = s.data := by
  unfold State.editInput
  split
  · exact ⟨Kept.of_same (SameRows.refl s), rfl⟩
  · rename_i kind typed _
    simp only
    generalize (if backspace = true then String.ofList typed.toList.dropLast else typed ++ text) = typed'
    by_cases hk : kind = '/'
    · rw [if_pos hk]
      exact ⟨Kept.of_find rfl, rfl⟩
    · rw [if_neg hk]
      exact ⟨Kept.of_same ⟨rfl, rfl, rfl⟩, rfl⟩

theorem completeInput_kept (s : State N) (suggestion : String → Option String) :
    Kept lib s (s.completeInput lib suggestion) ∧ (s.completeInput lib suggestion).data = s.data := by
  unfold State.completeInput
  split
  · split
    · exact editInput_kept s _ _
    · exact ⟨Kept.of_same (SameRows.refl s), rfl⟩
  · exact ⟨Kept.of_same (SameRows.refl s), rfl⟩

theorem acceptRows_same (s : State N) (value : Value) :
    SameRows lib (s.updateRows lib value) (s.acceptRows lib value) := by
  obtain ⟨h1, h2, h3⟩ := @followRowDetail_same _ lib (s.updateRows lib value)
  exact ⟨h1, h2, h3⟩

theorem acceptRows_data (s : State N) (value : Value) : (s.acceptRows lib value).data = value :=
  (acceptRows_same s value).data

/-- A list after another one. -/
theorem acceptRows_kept {s : State N} (hl : s.data.isNull = false) (value : Value) :
    Kept lib s (s.acceptRows lib value) := by
  refine Kept.trans (Kept.of_find ?_) (Kept.of_same (acceptRows_same s value))
  unfold State.updateRows
  simp only [hl, Bool.false_eq_true, if_false]
  rfl

/-- The first list of a view. -/
theorem acceptRows_first {s : State N} (hl : s.data.isNull = true) (value : Value) :
    (s.acceptRows lib value).selectedRow lib = ((s.acceptRows lib value).rows lib).head? := by
  rw [(acceptRows_same s value).selectedRow, (acceptRows_same s value).rows]
  set rows := (s.updateRows lib value).rows lib with hrows
  have hselected : (s.updateRows lib value).selected = if rows = [] then none else some 0 := by
    unfold State.updateRows
    simp only [hl, if_true]
    rfl
  unfold State.selectedRow
  rw [hselected, ← hrows]
  cases rows with
  | nil => rfl
  | cons row rows => rfl

/-- **One operation**: after a list was shown, the selection stays on its row or is lost. -/
theorem step_kept {s : State N} (hl : s.data.isNull = false) {op : Op N} (hop : ¬ op.NotReady) :
    Kept lib s (step lib s op) ∧ (step lib s op).data.isNull = false := by
  have hsame : ∀ t, SameRows lib s t → Kept lib s t ∧ t.data.isNull = false := fun t h =>
    ⟨Kept.of_same h, by rw [h.data, hl]⟩
  have hdata : ∀ t, Kept lib s t ∧ t.data = s.data → Kept lib s t ∧ t.data.isNull = false := fun t h =>
    ⟨h.1, by rw [h.2, hl]⟩
  cases op with
  | accept result =>
    cases result with
    | error error =>
      have hcode : error.code ≠ VM_NOT_READY := hop
      change Kept lib s (State.acceptFailure _ error) ∧ (State.acceptFailure _ error).data.isNull = false
      rw [State.acceptFailure, if_neg hcode]
      exact hsame _ ⟨rfl, rfl, rfl⟩
    | ok value =>
      change Kept lib s (s.accept lib (.ok value)) ∧ (s.accept lib (.ok value)).data.isNull = false
      rw [State.accept]
      split_ifs
      · exact hsame _ ⟨rfl, rfl, rfl⟩
      · exact hsame _ ⟨rfl, rfl, rfl⟩
      · exact hsame _ ⟨rfl, rfl, rfl⟩
      · set t : State N := { s with loading := false, refreshing := false }
        have hst : SameRows lib s t := ⟨rfl, rfl, rfl⟩
        have hlt : t.data.isNull = false := hl
        rw [State.acceptValue]
        split_ifs with harray
        · refine ⟨(Kept.of_same hst).trans (acceptRows_kept hlt value), ?_⟩
          rw [acceptRows_data]
          exact isNull_of_asArray harray
        · exact hsame _ ⟨rfl, rfl, rfl⟩
  | editInput text backspace => exact hdata _ (editInput_kept s text backspace)
  | completeInput suggestion => exact hdata _ (completeInput_kept s suggestion)
  | rememberCommand command => exact hsame _ (rememberCommand_same s command)
  | recallCommand previous => exact hsame _ (recallCommand_same s previous)
  | clearFilter => exact hdata _ ⟨Kept.of_find rfl, rfl⟩
  | openInput kind text forward => exact hsame _ ⟨rfl, rfl, rfl⟩
  | closeInput => exact hsame _ ⟨rfl, rfl, rfl⟩

/-- The VM is not ready: there are no rows. -/
theorem step_notReady (s : State N) {op : Op N} (hop : op.NotReady) : (step lib s op).data.isNull = true := by
  cases op with
  | accept result =>
    cases result with
    | error error =>
      change (State.acceptFailure _ error).data.isNull = true
      have hcode : error.code = VM_NOT_READY := hop
      rw [State.acceptFailure, if_pos hcode]
      rfl
    | ok value => exact hop.elim
  | _ => exact hop.elim

/-- Nothing but a list brings rows back. -/
theorem step_waiting {s : State N} (hn : s.data.isNull = true) {op : Op N} (hop : ¬ op.IsList) :
    (step lib s op).data.isNull = true := by
  have hdata : ∀ t : State N, t.data = s.data → t.data.isNull = true := fun t h => by rw [h, hn]
  cases op with
  | accept result =>
    cases result with
    | error error =>
      change (State.acceptFailure _ error).data.isNull = true
      rw [State.acceptFailure]
      split_ifs
      · rfl
      · exact hn
    | ok value =>
      change (s.accept lib (.ok value)).data.isNull = true
      rw [State.accept]
      split_ifs with h1 h2 h3
      · exact hn
      · exact hn
      · exact hn
      · have harray : ¬ value.asArray.isSome = true := fun h => hop ⟨h1, h2, h3, h⟩
        rw [State.acceptValue, if_neg harray]
        exact hn
  | editInput text backspace => exact hdata _ (@editInput_kept _ lib s text backspace).2
  | completeInput suggestion => exact hdata _ (@completeInput_kept _ lib s suggestion).2
  | rememberCommand command => exact hdata _ (@rememberCommand_same _ lib s command).data
  | recallCommand previous => exact hdata _ (@recallCommand_same _ lib s previous).data
  | clearFilter => exact hn
  | openInput kind text forward => exact hn
  | closeInput => exact hn

/-- The list that brings rows selects the first one. -/
theorem step_list {s : State N} (hn : s.data.isNull = true) {op : Op N} (hop : op.IsList) :
    (step lib s op).selectedRow lib = ((step lib s op).rows lib).head? ∧ (step lib s op).data.isNull = false := by
  cases op with
  | accept result =>
    cases result with
    | error error => exact hop.elim
    | ok value =>
      obtain ⟨h1, h2, h3, h4⟩ := hop
      obtain ⟨t, hstep, hnt⟩ : ∃ t : State N,
          step lib s (.accept (.ok value)) = t.acceptRows lib value ∧ t.data.isNull = true := by
        refine ⟨{ s with loading := false, refreshing := false }, ?_, hn⟩
        change s.accept lib (.ok value) = _
        rw [State.accept, if_neg h1, if_neg h2, if_neg h3, State.acceptValue, if_pos h4]
      rw [hstep]
      refine ⟨acceptRows_first hnt value, ?_⟩
      rw [acceptRows_data]
      exact isNull_of_asArray h4
  | _ => exact hop.elim

/-! ## Runs -/

theorem run_kept : ∀ (ops : List (Op N)) {s : State N}, s.data.isNull = false → (∀ op ∈ ops, ¬ op.NotReady) →
    Kept lib s (run lib s ops)
  | [], s, _, _ => Kept.of_same (SameRows.refl s)
  | op :: ops, s, hl, h => by
    rw [List.forall_mem_cons] at h
    obtain ⟨hkept, hl'⟩ := @step_kept _ lib s hl op h.1
    exact hkept.trans (run_kept ops hl' h.2)

theorem run_waiting : ∀ (ops : List (Op N)) {s : State N}, s.data.isNull = true → (∀ op ∈ ops, ¬ op.IsList) →
    (run lib s ops).data.isNull = true
  | [], _, hn, _ => hn
  | op :: ops, s, hn, h => by
    rw [List.forall_mem_cons] at h
    exact run_waiting ops (step_waiting hn h.1) h.2

/-- **The selection never transfers on its own**: after a list was shown, it stays on a row of the same identity or is
lost for good, until the VM is not ready.  From then on nothing is selected until a list arrives, and that list
selects its first row, as the first list of a view does. -/
theorem selection_kept (lib : Lib) (s : State N) (ops : List (Op N)) :
    (s.data.isNull = false → (∀ op ∈ ops, ¬ op.NotReady) → Kept lib s (run lib s ops)) ∧
    ∀ op waiting, op.NotReady → (∀ o ∈ waiting, ¬ o.IsList) →
      (run lib s (ops ++ op :: waiting)).selectedRow lib = none ∧
      ∀ list, list.IsList →
        (run lib s (ops ++ op :: waiting ++ [list])).selectedRow lib =
          ((run lib s (ops ++ op :: waiting ++ [list])).rows lib).head? ∧
        (run lib s (ops ++ op :: waiting ++ [list])).data.isNull = false := by
  refine ⟨run_kept ops, fun op waiting hop hw => ?_⟩
  have hnull : (run lib s (ops ++ op :: waiting)).data.isNull = true := by
    unfold run
    rw [List.foldl_append, List.foldl_cons]
    exact run_waiting waiting (step_notReady _ hop) hw
  refine ⟨selectedRow_of_null hnull, fun list hlist => ?_⟩
  have hrun : run lib s (ops ++ op :: waiting ++ [list]) = step lib (run lib s (ops ++ op :: waiting)) list := by
    unfold run
    rw [List.foldl_append]
    rfl
  rw [hrun]
  exact step_list hnull hlist

end

/-! ## Two containers -/

/-- Libraries that print nothing. -/
def plainLib : Lib := ⟨id, fun _ => "", fun _ => "", fun _ => none⟩

def container (id : String) : Value := .object [("ID", .string id)]

def containers : Value := .array [container "a", container "b"]

/-- The second of two containers is selected. -/
def secondSelected : State Unit where
  workspace := .containers
  showAll := false
  native := some ()
  environmentPicker := false
  runtime := .null
  request := { words := ["docker", "containers", "list"] }
  data := containers
  selected := some 1
  filter := ""
  input := none
  forward := none
  history := []
  historyIndex := none
  message := .info ""
  detail := none
  rowDetail := none
  loading := false
  refreshing := true
  stale := false
  help := false

theorem selection_kept_refresh :
    (run plainLib secondSelected [.accept (.ok containers)]).selectedRow plainLib = some (container "b") ∧
      State.Kept plainLib secondSelected (run plainLib secondSelected [.accept (.ok containers)]) := by
  refine ⟨rfl, (selection_kept plainLib secondSelected _).1 rfl ?_⟩
  rw [List.forall_mem_singleton]
  exact fun h => h

/-- Once the VM is not ready, the next list selects another container. -/
theorem selection_moves_notReady : ∃ (ops : List (Op Unit)) (row row' : Value),
    secondSelected.selectedRow plainLib = some row ∧
      (run plainLib secondSelected ops).selectedRow plainLib = some row' ∧ identity row ≠ identity row' :=
  ⟨[.accept (.error ⟨VM_NOT_READY, ""⟩), .accept (.ok containers)], container "b", container "a", rfl, rfl, by decide⟩

end Hamn.Tui
