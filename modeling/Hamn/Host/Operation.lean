import Hamn.Lib.Steps

/-!
# Host.Operation — the record of the operations on a profile (`host/core/operation.c`)

A process takes the lock of the profile, begins an operation, saves its record at every phase and saves it once more when
it finishes; the record names the process, so that one that died is found.  Processes follow each other, and each makes
one operation; a process may live on after its calls.

* `Record`, `File`, `operationSnapshot`: `operation.json`, and what is reported of it.
* `Save`, `Worker`: an attempt to save the record, and the memory of one process.
* `State`, `Action`, `step`: the calls of `operation.h`, and deaths, in any order.
* `Unresolved`, `Lurking`, `Inv`: an outcome that nobody knows, and the records that tell of one.
-/

namespace Hamn.Host.Operation

variable {P : Type}

/-! ## The record -/

inductive Status where
  | running | completed | failed | cancelled | outcomeUnknown | restartRequired
  deriving DecidableEq, Repr

structure Record (P : Type) where
  operationId : ℕ
  operation : String
  status : Status := .running
  phase : String := "preparing"
  /-- The identifier, start time and executable of the process. -/
  process : P
  startedVm : Bool := false
  error : Option String := none
  exitCode : Option ℕ := none
  recoveryRequired : Bool := false
  deriving DecidableEq, Repr

/-- `operation.json`; what does not pass the checks of `operation_snapshot` is `invalid`. -/
inductive File (P : Type) where
  | absent
  | invalid
  | record (r : Record P)
  deriving DecidableEq, Repr

/-- `operation_snapshot`: a failure, no record, or the record; one that runs in a process that is gone has an unknown
outcome. -/
def operationSnapshot (alive : P → Bool) (file : File P) (readable : Bool) : Option (Option (Record P)) :=
  match file with
  | .absent => if readable then some none else none
  | .invalid => none
  | .record r =>
    if !readable then none
    else if r.status = .running ∧ alive r.process = false then
      some (some { r with status := .outcomeUnknown, recoveryRequired := true })
    else some (some r)

/-- Whether the report says that an outcome is unknown. -/
def Record.unknown (r : Record P) : Bool := r.status == .outcomeUnknown || r.recoveryRequired

def File.running (file : File P) (p : P) : Prop := ∃ r, file = .record r ∧ r.status = .running ∧ r.process = p

/-- A report of an unknown outcome: a failure to read the record, or a record that says so. -/
def Reported : Option (Option (Record P)) → Prop
  | none => True
  | some none => False
  | some (some r) => r.status = .outcomeUnknown ∨ r.recoveryRequired = true

/-- A file that reports an unknown outcome when its process is gone. -/
def File.Lurking : File P → Prop
  | absent => False
  | invalid => True
  | record r => r.status = .running ∨ r.status = .outcomeUnknown ∨ r.recoveryRequired = true

section

variable {alive : P → Bool} {file : File P} {readable : Bool} {previous : Option (Record P)}

/-- The record of a process that lives is reported as running. -/
theorem snapshot_running {p : P} (hf : file.running p) (ha : alive p = true)
    (h : operationSnapshot alive file readable = some previous) : previous.any (·.status == .running) = true := by
  obtain ⟨r, rfl, hr, rfl⟩ := hf
  unfold operationSnapshot at h
  by_cases hread : (!readable) = true
  · simp only [hread] at h
    cases h
  · have hlive : ¬ (r.status = .running ∧ alive r.process = false) := by
      rw [ha]
      exact fun hc => Bool.false_ne_true hc.2.symm
    simp only [if_neg hread, if_neg hlive] at h
    rw [← Option.some.inj h, Option.any_some, hr]
    rfl

/-- What lurks in a file that reports no running operation is reported as unknown. -/
theorem snapshot_unknown (hf : file.Lurking) (h : operationSnapshot alive file readable = some previous)
    (hnot : previous.any (·.status == .running) = false) : previous.any Record.unknown = true := by
  cases file with
  | absent => exact hf.elim
  | invalid => cases h
  | record r =>
    unfold operationSnapshot at h
    by_cases hread : (!readable) = true
    · simp only [hread] at h
      cases h
    · simp only [if_neg hread] at h
      by_cases hdead : r.status = .running ∧ alive r.process = false
      · rw [if_pos hdead] at h
        rw [← Option.some.inj h]
        rfl
      · rw [if_neg hdead] at h
        rw [← Option.some.inj h] at hnot ⊢
        rw [Option.any_some] at hnot ⊢
        rcases hf with hf | hf | hf
        · rw [hf] at hnot
          cases hnot
        · unfold Record.unknown
          rw [hf]
          rfl
        · unfold Record.unknown
          rw [hf, Bool.or_true]

/-- When no process of an operation lives, what lurks in the file is reported. -/
theorem reported_of_lurking (hf : file.Lurking) (ha : ∀ p, alive p = false) (readable : Bool) :
    Reported (operationSnapshot alive file readable) := by
  cases file with
  | absent => exact hf.elim
  | invalid => trivial
  | record r =>
    unfold operationSnapshot
    by_cases hread : (!readable) = true
    · simp only [hread]
      trivial
    · simp only [if_neg hread]
      by_cases hdead : r.status = .running ∧ alive r.process = false
      · rw [if_pos hdead]
        exact .inl rfl
      · rw [if_neg hdead]
        exact hf.resolve_left fun hr => hdead ⟨hr, ha _⟩

end

/-! ## One process -/

/-- What happens at `save_record`: no write is attempted (the text cannot be made), or `fs_write_file_atomic` fails with
the old or the new record in place, or it succeeds. -/
inductive Save where
  | notMade
  | failed (replaced : Bool)
  | ok
  deriving DecidableEq, Repr

namespace Save

def replaces : Save → Bool
  | notMade => false
  | failed replaced => replaced
  | ok => true

/-- The writes that it makes. -/
def made : Save → List Save
  | notMade => []
  | save => [save]

end Save

/-- Before its operation, in it (with what `operation_begin` returned), after it, dead. -/
inductive Stage where
  | fresh
  | begun (ok : Bool)
  | over
  | dead
  deriving DecidableEq, Repr

structure Worker (P : Type) where
  stage : Stage := .fresh
  record : Option (Record P) := none
  previousUnknown : Bool := false
  persistenceFailed : Bool := false
  /-- The record writes of the operation. -/
  writes : List Save := []
  /-- One of them put a record of the operation in place. -/
  recorded : Bool := false
  /-- The result of the caller and that of the call that finished the operation. -/
  ended : Option (ℕ × ℤ) := none
  deriving DecidableEq, Repr

namespace Worker

def alive (w : Worker P) : Bool :=
  match w.stage with
  | .begun _ | .over => true
  | _ => false

/-- `save_record`, of the memory of the process. -/
def saveRecord (w : Worker P) (r : Record P) (save : Save) : Worker P :=
  { w with
    record := some r
    persistenceFailed := w.persistenceFailed || save.made.any (· != .ok)
    writes := save.made ++ w.writes
    recorded := w.recorded || save.replaces }

end Worker

/-- `save_record`, of the file. -/
def File.saveRecord (file : File P) (r : Record P) (save : Save) : File P := if save.replaces then .record r else file

def OPERATION_RESTART_REQUIRED : ℕ := 3

/-- The record that `finish_record` saves. -/
def Record.finish (r : Record P) (result : ℕ) (status : Status) (lastError : String) : Record P :=
  { r with
    status
    error := some (if result = 0 ∨ result = OPERATION_RESTART_REQUIRED then "" else lastError)
    exitCode := some result }

/-- `finish_record`: the record is saved and dropped; `asked` is the result of the caller. -/
def Worker.finishRecord (w : Worker P) (r : Record P) (asked result : ℕ) (save : Save) : Worker P :=
  let w' := w.saveRecord r save
  { w' with
    stage := .over
    record := none
    ended := some (asked, if save ≠ .ok ∨ w'.persistenceFailed = true then -1 else (result : ℤ)) }

/-- The result that `operation_finish` goes on with. -/
def finishResult (result : ℕ) (restored cancelled : Bool) : ℕ :=
  if result ≠ 0 ∧ restored = true ∧ cancelled = true then 130 else result

def finishStatus (result : ℕ) (restored : Bool) : Status :=
  if result = 0 then .completed else if !restored then .outcomeUnknown else if result = 130 then .cancelled else .failed

/-- What holds of the memory of one process: its record is its own and runs, and a finished operation that returned the
result of its caller saved every record. -/
structure WorkerInv (p : P) (w : Worker P) : Prop where
  record : ∀ r, w.record = some r → r.status = .running ∧ r.process = p
  alive : w.record ≠ none → w.alive = true ∧ w.ended = none
  writes : w.persistenceFailed = false → ∀ x ∈ w.writes, x = .ok
  ended : ∀ asked returned, w.ended = some (asked, returned) → returned = asked → ∀ x ∈ w.writes, x = .ok
  refused : w.record = none → w.alive = true → w.ended = none → w.writes = []

/-- A process that has saved nothing. -/
theorem WorkerInv.new (p : P) {w : Worker P} (hrec : w.record = none) (hend : w.ended = none) (hwrites : w.writes = []) :
    WorkerInv p w where
  record r hr := by
    rw [hrec] at hr
    cases hr
  alive h := absurd hrec h
  writes _ := by
    rw [hwrites]
    nofun
  ended _ _ h := by
    rw [hend] at h
    cases h
  refused _ _ _ := hwrites

section

variable {p : P} {w : Worker P} {r : Record P} {save : Save}

theorem made_ok (h : (w.saveRecord r save).persistenceFailed = false)
    (hw : w.persistenceFailed = false → ∀ x ∈ w.writes, x = .ok) : ∀ x ∈ (w.saveRecord r save).writes, x = .ok := by
  obtain ⟨hold, hmade⟩ := Bool.or_eq_false_iff.mp h
  intro x hx
  rcases List.mem_append.mp hx with hx | hx
  · simpa using List.any_eq_false.mp hmade x hx
  · exact hw hold x hx

theorem WorkerInv.saveRecord (hw : WorkerInv p w) (hr : r.status = .running ∧ r.process = p) (ha : w.alive = true)
    (he : w.ended = none) : WorkerInv p (w.saveRecord r save) where
  record r' hr' := by
    rw [← Option.some.inj hr']
    exact hr
  alive _ := ⟨ha, he⟩
  writes hp := made_ok hp hw.writes
  ended asked returned h := by
    rw [show (w.saveRecord r save).ended = none from he] at h
    cases h
  refused := nofun

theorem WorkerInv.finishRecord (hw : WorkerInv p w) (asked result : ℕ) :
    WorkerInv p (w.finishRecord r asked result save) where
  record := nofun
  alive h := absurd rfl h
  writes hp := made_ok (r := r) hp hw.writes
  ended asked' returned h heq := by
    obtain ⟨rfl, hret⟩ := Prod.mk.inj (Option.some.inj h)
    by_cases hfail : save ≠ .ok ∨ (w.saveRecord r save).persistenceFailed = true
    · rw [if_pos hfail, heq] at hret
      omega
    · exact made_ok (Bool.eq_false_of_not_eq_true (not_or.mp hfail).2) hw.writes
  refused := nofun

end

/-! ## All processes -/

/-- How an operation ended; `recorded` is whether a record of it was put in place. -/
inductive Ending where
  | died (recorded : Bool)
  | finished (result : ℕ) (restored recorded : Bool)
  | restart
  deriving DecidableEq, Repr

structure State (P : Type) where
  file : File P
  workers : P → Worker P
  /-- The process that holds the lock of the profile. -/
  lock : Option P
  /-- How the operations ended, the last one first. -/
  history : List Ending

inductive Action (P : Type) where
  | begin (p : P) (operationId : ℕ) (name : String) (readable identified : Bool) (save : Save)
  | phase (p : P) (text : String) (save : Save)
  | startedVm (p : P) (save : Save)
  | finish (p : P) (result : ℕ) (restored cancelled : Bool) (lastError : String) (save : Save)
  | finishUnchanged (p : P) (result : ℕ) (cancelled : Bool) (lastError : String) (save : Save)
  | restartRequired (p : P) (lastError : String) (save : Save)
  /-- The caller returns after a failed `operation_begin` without another call. -/
  | leave (p : P)
  | die (p : P)
  deriving DecidableEq

variable [DecidableEq P]

namespace State

variable (s : State P)

def alive (p : P) : Bool := (s.workers p).alive

def setWorker (p : P) (w : Worker P) : State P := { s with workers := Function.update s.workers p w }

/-- The process saves this record. -/
def save (p : P) (w : Worker P) (r : Record P) (save : Save) : State P :=
  { s.setWorker p (w.saveRecord r save) with file := s.file.saveRecord r save }

/-- `operation_finish`; without a record it only returns. -/
def finish (p : P) (result : ℕ) (restored cancelled : Bool) (lastError : String) (save : Save) : State P :=
  let w := s.workers p
  match w.record with
  | none => { s.setWorker p { w with stage := .over, ended := some (result, result) } with lock := none }
  | some r =>
    let code := finishResult result restored cancelled
    let r' := r.finish code (finishStatus code restored) lastError
    { s.setWorker p (w.finishRecord r' result code save) with
      file := s.file.saveRecord r' save
      lock := none
      history := .finished result restored (w.saveRecord r' save).recorded :: s.history }

end State

def step (s : State P) : Action P → Option (State P)
  | .begin p operationId name readable identified save =>
    if (s.workers p).stage = .fresh ∧ s.lock = none then
      match operationSnapshot s.alive s.file readable with
      | none => some { s.setWorker p { stage := .begun false } with lock := some p }
      | some previous =>
        let previousUnknown := previous.any Record.unknown
        if previous.any (·.status == .running) ∨ identified = false then
          some { s.setWorker p { stage := .begun false, previousUnknown } with lock := some p }
        else
          let r : Record P := { operationId, operation := name, process := p }
          some { s.save p { stage := .begun (save == .ok), previousUnknown } r save with lock := some p }
    else none
  | .phase p text save =>
    if s.lock = some p then
      match (s.workers p).record with
      | none => some s
      | some r => some (s.save p (s.workers p) { r with phase := text } save)
    else none
  | .startedVm p save =>
    if s.lock = some p then
      match (s.workers p).record with
      | none => some s
      | some r => some (s.save p (s.workers p) { r with startedVm := true } save)
    else none
  | .finish p result restored cancelled lastError save =>
    if s.lock = some p then some (s.finish p result restored cancelled lastError save) else none
  | .finishUnchanged p result cancelled lastError save =>
    if s.lock = some p then some (s.finish p result (!(s.workers p).previousUnknown) cancelled lastError save) else none
  | .restartRequired p lastError save =>
    if s.lock = some p then
      let w := s.workers p
      match w.record with
      | none => some (s.finish p OPERATION_RESTART_REQUIRED true false lastError save)
      | some r =>
        -- a new image does not prove that an earlier interruption was recovered
        let r' := { r with phase := "signed-image-ready", recoveryRequired := r.recoveryRequired || w.previousUnknown }.finish
          OPERATION_RESTART_REQUIRED .restartRequired lastError
        some { s.setWorker p (w.finishRecord r' OPERATION_RESTART_REQUIRED OPERATION_RESTART_REQUIRED save) with
          file := s.file.saveRecord r' save
          lock := none
          history := .restart :: s.history }
    else none
  | .leave p =>
    if s.lock = some p ∧ (s.workers p).stage = .begun false then
      some { s.setWorker p { s.workers p with stage := .over } with lock := none }
    else none
  | .die p =>
    let w := s.workers p
    if w.alive then
      some { s.setWorker p { w with stage := .dead, record := none } with
        lock := if s.lock = some p then none else s.lock
        history := if w.record.isSome then .died w.recorded :: s.history else s.history }
    else none

/-- No process has begun; the file is whatever it is. -/
structure Initial (s : State P) : Prop where
  workers : ∀ p, s.workers p = {}
  lock : s.lock = none
  history : s.history = []

abbrev Reachable (s : State P) : Prop := Steps.Reachable step Initial s

/-! ## Outcomes that nobody knows -/

/-- Whether nobody knows the outcome: the process died in its operation, or said so when it finished. -/
def Ending.unknown : Ending → Prop
  | died recorded => recorded = true
  | finished result restored recorded => result ≠ 0 ∧ restored = false ∧ recorded = true
  | restart => False

/-- Whether what was unknown before is settled: the operation succeeded, or restored the profile. -/
def Ending.resolves : Ending → Prop
  | finished result restored _ => result = 0 ∨ restored = true
  | _ => False

/-- An operation ended with an unknown outcome, and none of those after it resolves that. -/
def Unresolved : List Ending → Prop
  | [] => False
  | e :: earlier => e.unknown ∨ ¬ e.resolves ∧ Unresolved earlier

/-- An unknown outcome lurks in the file and is known to the process that saves records over it, and a record that a
process put in place stays until it ends its operation. -/
structure Inv (s : State P) : Prop where
  worker : ∀ p, WorkerInv p (s.workers p)
  inside : ∀ p, s.lock = some p → (s.workers p).alive = true ∧ (s.workers p).ended = none
  lurking : Unresolved s.history → s.file.Lurking
  known : ∀ p, s.lock = some p → (s.workers p).record ≠ none → Unresolved s.history →
    (s.workers p).previousUnknown = true
  own : ∀ p, (s.workers p).record ≠ none → (s.workers p).recorded = true → s.file.running p
  sole : ∀ p q, s.lock = some q → (s.workers q).record ≠ none → (s.workers p).record ≠ none →
    (s.workers p).recorded = true → p = q

section

variable {s : State P}

omit [DecidableEq P] in
theorem Inv.initial (h : Initial s) : Inv s where
  worker p := by
    rw [h.workers p]
    exact .new p rfl rfl rfl
  inside p hp := by
    rw [h.lock] at hp
    cases hp
  lurking hu := by
    rw [h.history] at hu
    exact hu.elim
  known p hp := by
    rw [h.lock] at hp
    cases hp
  own p hp := by
    rw [h.workers p] at hp
    exact absurd rfl hp
  sole p q hq := by
    rw [h.lock] at hq
    cases hq

/-- A process that is alone in having put a record in place saves another one. -/
theorem Inv.save (hs : Inv s) {p : P} {w : Worker P} {r : Record P} {save : Save}
    (hw : WorkerInv p w) (ha : w.alive = true) (he : w.ended = none) (hr : r.status = .running ∧ r.process = p)
    (hknown : Unresolved s.history → w.previousUnknown = true)
    (hown : w.recorded = true → s.file.running p)
    (hsole : ∀ q, q ≠ p → (s.workers q).record ≠ none → (s.workers q).recorded ≠ true) :
    Inv { s.save p w r save with lock := some p } where
  worker q := by
    change WorkerInv q (Function.update s.workers p (w.saveRecord r save) q)
    by_cases hq : q = p
    · rw [hq, Function.update_self]
      exact hw.saveRecord hr ha he
    · rw [Function.update_of_ne hq]
      exact hs.worker q
  inside q hq := by
    change (Function.update s.workers p (w.saveRecord r save) q).alive = true ∧
      (Function.update s.workers p (w.saveRecord r save) q).ended = none
    obtain rfl := Option.some.inj hq
    rw [Function.update_self]
    exact ⟨ha, he⟩
  lurking hu := by
    change (s.file.saveRecord r save).Lurking
    unfold File.saveRecord
    by_cases hrep : save.replaces = true
    · rw [if_pos hrep]
      exact .inl hr.1
    · rw [if_neg hrep]
      exact hs.lurking hu
  known q hq _ hu := by
    obtain rfl := Option.some.inj hq
    change (Function.update s.workers p (w.saveRecord r save) p).previousUnknown = true
    rw [Function.update_self]
    exact hknown hu
  own q hrec hput := by
    change (Function.update s.workers p (w.saveRecord r save) q).record ≠ none at hrec
    change (Function.update s.workers p (w.saveRecord r save) q).recorded = true at hput
    change (s.file.saveRecord r save).running q
    by_cases hq : q = p
    · rw [hq, Function.update_self] at hput
      unfold File.saveRecord
      by_cases hrep : save.replaces = true
      · rw [if_pos hrep, hq]
        exact ⟨r, rfl, hr⟩
      · rw [if_neg hrep, hq]
        exact hown ((Bool.or_eq_true_iff.mp hput).resolve_right hrep)
    · rw [Function.update_of_ne hq] at hrec hput
      exact absurd hput (hsole q hq hrec)
  sole q q' hq' _ hrec hput := by
    change (Function.update s.workers p (w.saveRecord r save) q).record ≠ none at hrec
    change (Function.update s.workers p (w.saveRecord r save) q).recorded = true at hput
    obtain rfl := Option.some.inj hq'
    by_cases hq : q = p
    · exact hq
    · rw [Function.update_of_ne hq] at hrec hput
      exact absurd hput (hsole q hq hrec)

/-- A process has no record any more, or never had one. -/
theorem Inv.clear (hs : Inv s) {p : P} {w : Worker P} {file : File P} {lock : Option P} {history : List Ending}
    (hw : WorkerInv p w) (hrec : w.record = none) (hin : lock = some p → w.alive = true ∧ w.ended = none)
    (hlock : ∀ q, q ≠ p → lock = some q → s.lock = some q)
    (hlurking : Unresolved history → file.Lurking)
    (hfile : file = s.file ∨ ∀ q, q ≠ p → (s.workers q).record ≠ none → (s.workers q).recorded ≠ true)
    (hhistory : ∀ q, q ≠ p → s.lock = some q → (s.workers q).record ≠ none → Unresolved history → Unresolved s.history) :
    Inv { s.setWorker p w with file, lock, history } where
  worker q := by
    change WorkerInv q (Function.update s.workers p w q)
    by_cases hq : q = p
    · rw [hq, Function.update_self]
      exact hw
    · rw [Function.update_of_ne hq]
      exact hs.worker q
  inside q hq := by
    change (Function.update s.workers p w q).alive = true ∧ (Function.update s.workers p w q).ended = none
    by_cases hqp : q = p
    · rw [hqp, Function.update_self]
      exact hin (hqp ▸ hq)
    · rw [Function.update_of_ne hqp]
      exact hs.inside q (hlock q hqp hq)
  lurking := hlurking
  known q hq hrec' hu := by
    change (Function.update s.workers p w q).record ≠ none at hrec'
    change (Function.update s.workers p w q).previousUnknown = true
    by_cases hqp : q = p
    · rw [hqp, Function.update_self] at hrec'
      exact absurd hrec hrec'
    · rw [Function.update_of_ne hqp] at hrec' ⊢
      have hl := hlock q hqp hq
      exact hs.known q hl hrec' (hhistory q hqp hl hrec' hu)
  own q hrec' hput := by
    change (Function.update s.workers p w q).record ≠ none at hrec'
    change (Function.update s.workers p w q).recorded = true at hput
    change file.running q
    by_cases hqp : q = p
    · rw [hqp, Function.update_self] at hrec'
      exact absurd hrec hrec'
    · rw [Function.update_of_ne hqp] at hrec' hput
      rcases hfile with rfl | hfile
      · exact hs.own q hrec' hput
      · exact absurd hput (hfile q hqp hrec')
  sole q q' hq' hrec' hrec'' hput := by
    change (Function.update s.workers p w q').record ≠ none at hrec'
    change (Function.update s.workers p w q).record ≠ none at hrec''
    change (Function.update s.workers p w q).recorded = true at hput
    by_cases hqp : q = p
    · rw [hqp, Function.update_self] at hrec''
      exact absurd hrec hrec''
    · by_cases hqp' : q' = p
      · rw [hqp', Function.update_self] at hrec'
        exact absurd hrec hrec'
      · rw [Function.update_of_ne hqp] at hrec'' hput
        rw [Function.update_of_ne hqp'] at hrec'
        exact hs.sole q q' (hlock q' hqp' hq') hrec' hrec'' hput

omit [DecidableEq P] in
/-- The file after the last save of an operation, which may not have been made. -/
theorem Inv.lurking_finish (hs : Inv s) {p : P} {r r' : Record P} {save : Save} {e : Ending} (hr : (s.workers p).record = some r)
    (hu : e.unknown → ((s.workers p).saveRecord r' save).recorded = true)
    (hlurk : e.unknown ∨ Unresolved s.history → r'.status = .outcomeUnknown ∨ r'.recoveryRequired = true)
    (h : e.unknown ∨ Unresolved s.history) : (s.file.saveRecord r' save).Lurking := by
  unfold File.saveRecord
  by_cases hrep : save.replaces = true
  · rw [if_pos hrep]
    exact .inr (hlurk h)
  · rw [if_neg hrep]
    rcases h with h | h
    · have hrec := (Bool.or_eq_true_iff.mp (hu h)).resolve_right hrep
      obtain ⟨r0, hf, hrun, -⟩ := hs.own p (by rw [hr]; nofun) hrec
      rw [hf]
      exact .inl hrun
    · exact hs.lurking h

theorem Inv.begin (hs : Inv s) {p : P} {operationId : ℕ} {name : String} {readable identified : Bool} {save : Save}
    {s' : State P} (h : step s (.begin p operationId name readable identified save) = some s') : Inv s' := by
  simp only [step] at h
  split_ifs at h with hfree
  have others : ∀ q, q ≠ p → some p = some q → s.lock = some q := fun q hq hl => absurd (Option.some.inj hl).symm hq
  split at h
  · obtain rfl := Option.some.inj h
    exact hs.clear (.new p rfl rfl rfl) rfl (fun _ => ⟨rfl, rfl⟩) others hs.lurking (.inl rfl) fun _ _ _ _ hu => hu
  · rename_i previous hprevious
    split_ifs at h with hrefused
    · obtain rfl := Option.some.inj h
      exact hs.clear (.new p rfl rfl rfl) rfl (fun _ => ⟨rfl, rfl⟩) others hs.lurking (.inl rfl) fun _ _ _ _ hu => hu
    · obtain rfl := Option.some.inj h
      have hnot : previous.any (·.status == .running) = false := Bool.eq_false_of_not_eq_true (not_or.mp hrefused).1
      refine hs.save (.new p rfl rfl rfl) rfl rfl ⟨rfl, rfl⟩ (fun hu => ?_) nofun ?_
      · exact snapshot_unknown (hs.lurking hu) hprevious hnot
      · -- a process that put a record in place lives, so that the record is reported as running
        intro q hq hrec hput
        have hlive := snapshot_running (hs.own q hrec hput) ((hs.worker q).alive hrec).1 hprevious
        rw [hnot] at hlive
        cases hlive

/-- The process in the lock saves the next record of its operation. -/
theorem Inv.next (hs : Inv s) {p : P} {r r' : Record P} {save : Save} (hl : s.lock = some p)
    (hr : (s.workers p).record = some r) (hst : r'.status = r.status) (hpr : r'.process = r.process) :
    Inv (s.save p (s.workers p) r' save) := by
  have hrec : (s.workers p).record ≠ none := by
    rw [hr]
    nofun
  have hstate : s.save p (s.workers p) r' save = { s.save p (s.workers p) r' save with lock := some p } := by
    rw [← hl]
    rfl
  rw [hstate]
  obtain ⟨ha, he⟩ := hs.inside p hl
  obtain ⟨hrun, hproc⟩ := (hs.worker p).record r hr
  refine hs.save (hs.worker p) ha he ⟨hst.trans hrun, hpr.trans hproc⟩ (hs.known p hl hrec) (hs.own p hrec) ?_
  intro q hq hqrec hput
  exact hq (hs.sole q p hl hrec hqrec hput)

/-- The process in the lock saves the last record of its operation. -/
theorem Inv.ending (hs : Inv s) {p : P} {r r' : Record P} {asked result : ℕ} {save : Save} {e : Ending} (hl : s.lock = some p)
    (hr : (s.workers p).record = some r) (hu : e.unknown → ((s.workers p).saveRecord r' save).recorded = true)
    (hlurk : ¬ e.resolves → e.unknown ∨ Unresolved s.history → r'.status = .outcomeUnknown ∨ r'.recoveryRequired = true)
    (hres : e.unknown → ¬ e.resolves) :
    Inv { s.setWorker p ((s.workers p).finishRecord r' asked result save) with
      file := s.file.saveRecord r' save, lock := none, history := e :: s.history } := by
  have hrec : (s.workers p).record ≠ none := by
    rw [hr]
    nofun
  refine hs.clear ((hs.worker p).finishRecord asked result) rfl nofun nofun ?_ (.inr ?_) ?_
  · intro h
    have hnot : ¬ e.resolves := by
      rcases h with h | h
      · exact hres h
      · exact h.1
    exact hs.lurking_finish hr hu (hlurk hnot) (h.imp id And.right)
  · intro q hq hqrec hput
    exact hq (hs.sole q p hl hrec hqrec hput)
  · intro q hq hlq
    exact absurd (Option.some.inj (hlq.symm.trans hl)) hq

/-- `operation_finish`. -/
theorem Inv.finish (hs : Inv s) {p : P} (hl : s.lock = some p) (result : ℕ) (restored cancelled : Bool)
    (lastError : String) (save : Save) : Inv (s.finish p result restored cancelled lastError save) := by
  unfold State.finish
  cases hr : (s.workers p).record with
  | none =>
    simp only [hr]
    obtain ⟨ha, he⟩ := hs.inside p hl
    have hw : WorkerInv p { s.workers p with stage := .over, record := none, ended := some (result, (result : ℤ)) } := by
      refine ⟨nofun, fun h => absurd rfl h, (hs.worker p).writes, fun _ _ _ _ => ?_, nofun⟩
      change ∀ x ∈ (s.workers p).writes, x = .ok
      rw [(hs.worker p).refused hr ha he]
      nofun
    exact hs.clear hw rfl nofun nofun hs.lurking (.inl rfl) fun _ _ _ _ hu => hu
  | some r =>
    simp only [hr]
    refine hs.ending hl hr (fun hu => hu.2.2) (fun hres _ => ?_) fun hu hres => ?_
    · obtain ⟨hne, hrest⟩ := not_or.mp hres
      have hrest := Bool.eq_false_of_not_eq_true hrest
      left
      change finishStatus (finishResult result restored cancelled) restored = .outcomeUnknown
      unfold finishStatus finishResult
      rw [hrest, if_neg (by simp : ¬ (result ≠ 0 ∧ false = true ∧ cancelled = true)), if_neg hne]
      rfl
    · rcases hres with hres | hres
      · exact hu.1 hres
      · rw [hu.2.1] at hres
        cases hres

theorem Inv.restartRequired (hs : Inv s) {p : P} {lastError : String} {save : Save} {s' : State P}
    (h : step s (.restartRequired p lastError save) = some s') : Inv s' := by
  simp only [step] at h
  split_ifs at h with hl
  split at h
  · obtain rfl := Option.some.inj h
    exact hs.finish hl _ _ _ _ _
  · rename_i r hr
    obtain rfl := Option.some.inj h
    refine hs.ending hl hr nofun (fun _ hu => .inr ?_) nofun
    -- what was unknown before was known when the operation began
    have hknown := hs.known p hl (by rw [hr]; nofun) (hu.resolve_left id)
    change (r.recoveryRequired || (s.workers p).previousUnknown) = true
    rw [hknown, Bool.or_true]

theorem Inv.leave (hs : Inv s) {p : P} {s' : State P} (h : step s (.leave p) = some s') : Inv s' := by
  simp only [step] at h
  split_ifs at h with hp
  obtain rfl := Option.some.inj h
  have same : ∀ {α : Type} (f : Worker P → α), (∀ w, f { w with stage := .over } = f w) → ∀ q,
      f (Function.update s.workers p { s.workers p with stage := .over } q) = f (s.workers q) := by
    intro α f hf q
    by_cases hq : q = p
    · rw [hq, Function.update_self, hf]
    · rw [Function.update_of_ne hq]
  have hrecord := same (·.record) fun _ => rfl
  have hrecorded := same (·.recorded) fun _ => rfl
  refine ⟨fun q => ?_, nofun, hs.lurking, nofun, fun q hrec hput => ?_, nofun⟩
  · change WorkerInv q (Function.update s.workers p { s.workers p with stage := .over } q)
    by_cases hq : q = p
    · rw [hq, Function.update_self]
      have hw := hs.worker p
      have hin := hs.inside p hp.1
      exact ⟨hw.record, fun h => ⟨rfl, hin.2⟩, hw.writes, hw.ended, fun h _ _ => hw.refused h hin.1 hin.2⟩
    · rw [Function.update_of_ne hq]
      exact hs.worker q
  · exact hs.own q (hrecord q ▸ hrec) (hrecorded q ▸ hput)

omit [DecidableEq P] in
/-- The endings after a death: it leaves an unknown outcome when a record was put in place. -/
theorem unresolved_die {w : Worker P} {history : List Ending}
    (h : Unresolved (if w.record.isSome then .died w.recorded :: history else history)) :
    Unresolved history ∨ w.record ≠ none ∧ w.recorded = true := by
  by_cases hrec : w.record.isSome = true
  · rw [if_pos hrec] at h
    rcases h with h | h
    · refine .inr ⟨fun hn => ?_, h⟩
      rw [hn] at hrec
      cases hrec
    · exact .inl h.2
  · rw [if_neg hrec] at h
    exact .inl h

theorem Inv.die (hs : Inv s) {p : P} {s' : State P} (h : step s (.die p) = some s') : Inv s' := by
  simp only [step] at h
  by_cases hp : (s.workers p).alive = true
  · rw [if_pos hp] at h
    obtain rfl := Option.some.inj h
    have hw := hs.worker p
    have hdead : WorkerInv p { s.workers p with stage := .dead, record := none } :=
      ⟨nofun, fun h => absurd rfl h, hw.writes, hw.ended, nofun⟩
    refine hs.clear hdead rfl (fun hl => ?_) (fun q _ hl => ?_) (fun hu => ?_) (.inl rfl) (fun q hq hl hrec hu => ?_)
    · by_cases hlp : s.lock = some p
      · rw [if_pos hlp] at hl
        cases hl
      · rw [if_neg hlp] at hl
        exact absurd hl hlp
    · by_cases hlp : s.lock = some p
      · rw [if_pos hlp] at hl
        cases hl
      · rw [if_neg hlp] at hl
        exact hl
    · rcases unresolved_die hu with hu | ⟨hrec, hput⟩
      · exact hs.lurking hu
      · obtain ⟨r, hf, hrun, -⟩ := hs.own p hrec hput
        change s.file.Lurking
        rw [hf]
        exact .inl hrun
    · rcases unresolved_die hu with hu | ⟨hrec', hput⟩
      · exact hu
      · exact absurd (hs.sole p q hl hrec hrec' hput).symm hq
  · rw [if_neg hp] at h
    cases h

theorem Inv.step {a : Action P} {s' : State P} (hs : Inv s) (h : step s a = some s') : Inv s' := by
  cases a with
  | begin p operationId name readable identified save => exact hs.begin h
  | phase p text save =>
    simp only [Operation.step] at h
    split_ifs at h with hl
    split at h
    · obtain rfl := Option.some.inj h
      exact hs
    · rename_i r hr
      obtain rfl := Option.some.inj h
      exact hs.next hl hr rfl rfl
  | startedVm p save =>
    simp only [Operation.step] at h
    split_ifs at h with hl
    split at h
    · obtain rfl := Option.some.inj h
      exact hs
    · rename_i r hr
      obtain rfl := Option.some.inj h
      exact hs.next hl hr rfl rfl
  | finish p result restored cancelled lastError save =>
    simp only [Operation.step] at h
    split_ifs at h with hl
    obtain rfl := Option.some.inj h
    exact hs.finish hl _ _ _ _ _
  | finishUnchanged p result cancelled lastError save =>
    simp only [Operation.step] at h
    split_ifs at h with hl
    obtain rfl := Option.some.inj h
    exact hs.finish hl _ _ _ _ _
  | restartRequired p lastError save => exact hs.restartRequired h
  | leave p => exact hs.leave h
  | die p => exact hs.die h

theorem Inv.reachable (h : Reachable s) : Inv s := h.induction (fun _ => Inv.initial) fun _ _ _ => Inv.step

/-! ## Unknown outcomes are reported -/

/-- **An unknown outcome is never forgotten**: while an operation with a record ended in an unknown way and none after it
resolved that, the record tells so as soon as no process of an operation lives; and a call that finishes an operation with
the result of its caller has made every record write. -/
theorem unknown_outcome_reported (hs : Reachable s) :
    (Unresolved s.history → (∀ p, s.alive p = false) → ∀ readable,
      Reported (operationSnapshot s.alive s.file readable)) ∧
      ∀ p asked returned, (s.workers p).ended = some (asked, returned) → returned = asked →
        ∀ x ∈ (s.workers p).writes, x = .ok := by
  have hinv := Inv.reachable hs
  exact ⟨fun hu ha => reported_of_lurking (hinv.lurking hu) ha, fun p => (hinv.worker p).ended⟩

end

/-- A profile without operations, and two processes. -/
def idle : State Bool := ⟨.absent, fun _ => {}, none, []⟩

theorem idle_initial : Initial idle := ⟨fun _ => rfl, rfl, rfl⟩

/-- How the operations ended, whether a process lives, what the call of the second returned, and the report. -/
structure Left where
  history : List Ending
  alive : Bool
  ended : Option (ℕ × ℤ)
  report : Option (Option (Record Bool))
  deriving DecidableEq

def leaves (as : List (Action Bool)) : Option Left :=
  (Steps.run step idle as).map fun s =>
    ⟨s.history, s.alive false || s.alive true, (s.workers true).ended, operationSnapshot s.alive s.file true⟩

theorem all_dead {s : State Bool} (h : (s.alive false || s.alive true) = false) (p : Bool) : s.alive p = false := by
  obtain ⟨hfalse, htrue⟩ := Bool.or_eq_false_iff.mp h
  cases p with
  | false => exact hfalse
  | true => exact htrue

/-- A start dies, and a stop after it fails. -/
def deadStart : List (Action Bool) :=
  [.begin false 7 "vm start" true true .ok, .die false, .begin true 8 "vm stop" true true .ok,
    .finish true 1 false false "no answer" .ok, .die true]

theorem unknown_outcome_reported_dead : ∃ s, Steps.run step idle deadStart = some s ∧
    Reported (operationSnapshot s.alive s.file true) ∧ ∀ x ∈ (s.workers true).writes, x = .ok := by
  have hrun : (leaves deadStart).map (fun l => (l.history, l.alive, l.ended)) =
      some ([.finished 1 false true, .died true], false, some (1, 1)) := by decide
  obtain ⟨l, hl, hrun⟩ := Option.map_eq_some_iff.mp hrun
  obtain ⟨s, hs, rfl⟩ := Option.map_eq_some_iff.mp hl
  obtain ⟨hhistory, hrun⟩ := Prod.mk.inj hrun
  obtain ⟨halive, hended⟩ := Prod.mk.inj hrun
  obtain ⟨hreported, hwrites⟩ := unknown_outcome_reported ⟨idle, _, idle_initial, hs⟩
  have hunresolved : Unresolved s.history := by
    rw [show s.history = _ from hhistory]
    exact .inl ⟨by decide, rfl, rfl⟩
  exact ⟨s, hs, hreported hunresolved (all_dead halive) true, hwrites true 1 1 hended rfl⟩

/-- A start that can save nothing and reports its failure; no other operation was ever made. -/
def unsavedStart : List (Action Bool) :=
  [.begin true 7 "vm start" true true (.failed false), .finish true 1 false false "cannot save" (.failed false), .die true]

/-- An operation that finished with an unknown outcome is forgotten when none of its record writes did anything. -/
theorem unsaved_outcome_forgotten : ∃ s : State Bool, Reachable s ∧ s.history = [.finished 1 false false] ∧
    (∀ p, s.alive p = false) ∧ operationSnapshot s.alive s.file true = some none := by
  have hrun : leaves unsavedStart = some ⟨[.finished 1 false false], false, some (1, -1), some none⟩ := by decide
  obtain ⟨s, hs, hleft⟩ := Option.map_eq_some_iff.mp hrun
  obtain ⟨hhistory, halive, -, hreport⟩ := Left.mk.inj hleft
  exact ⟨s, ⟨idle, _, idle_initial, hs⟩, hhistory, all_dead halive, hreport⟩

end Hamn.Host.Operation
