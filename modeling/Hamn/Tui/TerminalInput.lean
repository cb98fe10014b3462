import Hamn.Lib.Bytes
import Hamn.Lib.Steps

/-!
# TerminalInput — what is typed into a session reaches its terminal

The input queue of a terminal session: `write` and `input` fill it, `next` drains it into the PTY, and an interrupt, the
exit of the child and a failed write discard what is left.  `next` borrows the session until it returns or is dropped; of
its polls only the last one changes anything.

* `flushInput`: one write of a piece of the first slice of the queue.
* `step`: one call, one poll of an awaited `next`, or its cancellation, with what became of the bytes in `log`.
* `Inv`: the accepted bytes are the ones that left the queue, in this order, and then the queue.
-/

namespace Hamn.Tui

open Steps

def INPUT_LIMIT : ℕ := 4 * 1024 * 1024

structure TerminalSession where
  exit : Option ℤ := none
  armed : Bool := true
  ended : Bool := false
  input : Bytes := []
  inputClosed : Bool := false
  inputError : Option String := none
  deriving DecidableEq, Repr

namespace TerminalSession

def closeInput (s : TerminalSession) (reason : String) : TerminalSession :=
  { s with
    inputError :=
      if s.input ≠ [] then
        some (reason ++ ": " ++ toString s.input.length ++ " queued input bytes were not delivered")
      else s.inputError
    input := []
    inputClosed := true }

/-- The bytes are queued; on failure nothing of them is. -/
def write (s : TerminalSession) (bytes : Bytes) : Except String Unit × TerminalSession :=
  if s.inputClosed = true ∨ INPUT_LIMIT - s.input.length < bytes.length then
    let reason :=
      if s.inputClosed then "PTY input is closed" else "4 MiB input queue is full; wait and retry"
    let error := reason ++ ": " ++ toString bytes.length ++ " new bytes were not sent"
    (.error error, { s with inputError := some error })
  else (.ok (), { s with input := s.input ++ bytes })

/-- `input`: as `write`, with the screen scrolled back to its end. -/
def typed (s : TerminalSession) (bytes : Bytes) : Except String Unit × TerminalSession := s.write bytes

/-- `flushed` is whether the terminal's own input could be flushed, `signal` the outcome of `SIGINT`. -/
def interruptInput (s : TerminalSession) (flushed : Bool) (signal : Except String Unit) :
    Except String Unit × TerminalSession :=
  let pending := toString s.input.length
  let error := match signal with
    | .error error => "Interrupt failed: " ++ error ++ "; " ++ pending ++ " queued bytes discarded"
    | .ok () =>
      if flushed then "Interrupted: discarded " ++ pending ++ " queued bytes and pending terminal input"
      else "Interrupted; " ++ pending ++ " queued bytes discarded; terminal flush failed"
  (signal, { s with input := [], inputError := some error })

end TerminalSession

/-- What write(2) says: how many bytes it took, an error, or that it would block. -/
inductive WriteResult where
  | count (n : ℕ)
  | error (text : String)
  | wouldBlock
  deriving DecidableEq, Repr

/-- The bytes that one write gets: of the first slice of the ring buffer, which has `slice` bytes, 8192 at most. -/
def flushChunk (queue : Bytes) (slice : ℕ) : Bytes := (queue.take slice).take 8192

/-- A nonempty queue has a nonempty first slice, and a write takes no more than it gets. -/
def WriteResult.Possible (queue : Bytes) (slice : ℕ) : WriteResult → Prop
  | .count n => 0 < slice ∧ slice ≤ queue.length ∧ n ≤ (flushChunk queue slice).length
  | _ => True

instance (queue : Bytes) (slice : ℕ) (w : WriteResult) : Decidable (w.Possible queue slice) := by
  cases w
  · exact inferInstanceAs (Decidable (_ ∧ _ ∧ _))
  · exact inferInstanceAs (Decidable True)
  · exact inferInstanceAs (Decidable True)

/-- What the PTY got, the queue that is left and the result of `flush_input`. -/
def flushInput (queue : Bytes) (slice : ℕ) : WriteResult → Bytes × Bytes × Except String Unit
  | .count 0 => ([], queue, .error "write zero")
  | .count n => ((flushChunk queue slice).take n, queue.drop n, .ok ())
  | .error text => ([], queue, .error text)
  | .wouldBlock => ([], queue, .ok ())

/-- The branch of `next` that is ready in a poll: output or its end, the exit of the child, or a writable PTY. -/
inductive Ready where
  | output (bytes : Option (Except String Bytes))
  | exited (status : Except String ℤ)
  | writable (slice : ℕ) (result : WriteResult)

inductive Cause where
  | interrupt
  | exit
  | failedWrite
  deriving DecidableEq, Repr

/-- What became of bytes. -/
inductive Effect where
  | accepted (bytes : Bytes)
  | refused (bytes : Bytes)
  | sent (bytes : Bytes)
  | discarded (cause : Cause) (bytes : Bytes)
  deriving DecidableEq, Repr

/-- `next` is there while a call of it is awaited, with its `pending_input`; `log` is what became of bytes, in order. -/
structure Typing where
  session : TerminalSession := {}
  next : Option Bool := none
  log : List Effect := []

inductive TypingAction where
  | write (bytes : Bytes)
  | input (bytes : Bytes)
  | interrupt (flushed : Bool) (signal : Except String Unit)
  | next
  | poll (ready : Option Ready)
  | cancel

namespace Typing

/-- A call of `write`, with its bytes in the log. -/
def wrote (s : Typing) (bytes : Bytes) (result : Except String Unit × TerminalSession) : Typing :=
  { s with
    session := result.2
    log := s.log ++ [match result.1 with
      | .ok _ => .accepted bytes
      | .error _ => .refused bytes] }

/-- `next` returns after the branch; a branch whose guard is off is not polled. -/
def ready (s : Typing) (pendingInput : Bool) : Ready → Option Typing
  | .output bytes =>
    if s.session.ended then none
    else some { s with session := { s.session with ended := s.session.ended || bytes.isNone }, next := none }
  | .exited status =>
    if s.session.exit.isSome then none
    else match status with
      | .error _ => some { s with next := none }
      | .ok code =>
        some { session := { s.session with armed := false, exit := some code }.closeInput "CLI exited"
               next := none
               log := s.log ++ [.discarded .exit s.session.input] }
  | .writable slice result =>
    if pendingInput = true ∧ result.Possible s.session.input slice then
      let (sent, queue, result) := flushInput s.session.input slice result
      let session := { s.session with input := queue }
      match result with
      | .ok _ => some { session := session, next := none, log := s.log ++ [.sent sent] }
      | .error error =>
        some { session := session.closeInput ("PTY write failed: " ++ error)
               next := none
               log := s.log ++ [.sent sent, .discarded .failedWrite queue] }
    else none

/-- A method can be called only while no `next` is awaited. -/
def step (s : Typing) : TypingAction → Option Typing
  | .write bytes => if s.next.isSome then none else some (s.wrote bytes (s.session.write bytes))
  | .input bytes => if s.next.isSome then none else some (s.wrote bytes (s.session.typed bytes))
  | .interrupt flushed signal =>
    if s.next.isSome then none
    else some { s with
      session := (s.session.interruptInput flushed signal).2
      log := s.log ++ [.discarded .interrupt s.session.input] }
  | .next =>
    if s.next.isSome then none
    else some { s with next := some (!s.session.input.isEmpty && !s.session.inputClosed) }
  | .poll branch =>
    match s.next, branch with
    | none, _ => none
    | some _, none => some s
    | some pendingInput, some branch => s.ready pendingInput branch
  | .cancel => if s.next.isSome then some { s with next := none } else none

/-! ## The bytes of the log -/

def acceptedBytes (log : List Effect) : Bytes :=
  log.flatMap fun
    | .accepted bytes => bytes
    | _ => []

/-- The bytes that left the queue, sent or discarded, in order. -/
def leftBytes (log : List Effect) : Bytes :=
  log.flatMap fun
    | .sent bytes => bytes
    | .discarded _ bytes => bytes
    | _ => []

/-- The bytes that the PTY got. -/
def sentBytes (log : List Effect) : Bytes :=
  log.flatMap fun
    | .sent bytes => bytes
    | _ => []

/-- The error of a discard says how many bytes were lost. -/
def Reports (lost : ℕ) (error : String) : Cause → Prop
  | .exit => error = "CLI exited: " ++ toString lost ++ " queued input bytes were not delivered"
  | .failedWrite =>
    ∃ text, error = "PTY write failed: " ++ text ++ ": " ++ toString lost ++ " queued input bytes were not delivered"
  | .interrupt =>
    error = "Interrupted: discarded " ++ toString lost ++ " queued bytes and pending terminal input" ∨
      error = "Interrupted; " ++ toString lost ++ " queued bytes discarded; terminal flush failed" ∨
      ∃ text, error = "Interrupt failed: " ++ text ++ "; " ++ toString lost ++ " queued bytes discarded"

/-- What is added to the log is told: a discard of bytes by the error that the session shows. -/
def Told (session : TerminalSession) (added : List Effect) : Prop :=
  ∀ cause bytes, .discarded cause bytes ∈ added → bytes ≠ [] →
    ∃ error, session.inputError = some error ∧ Reports bytes.length error cause

structure Inv (s : Typing) : Prop where
  accepted_eq : acceptedBytes s.log = leftBytes s.log ++ s.session.input
  length_le : s.session.input.length ≤ INPUT_LIMIT

theorem sentBytes_sublist (log : List Effect) : (sentBytes log).Sublist (leftBytes log) := by
  induction log with
  | nil => exact List.Sublist.refl []
  | cons e log ih =>
    unfold sentBytes leftBytes at ih ⊢
    rw [List.flatMap_cons, List.flatMap_cons]
    cases e with
    | sent bytes => exact ih.append_left bytes
    | discarded cause bytes => exact ih.trans (List.sublist_append_right _ _)
    | _ => exact ih

/-- The accepted bytes of the step come behind the queue, those that leave it were its front. -/
theorem Inv.append {s : Typing} (hs : Inv s) {added : List Effect} {session : TerminalSession} {next : Option Bool}
    (h : s.session.input ++ acceptedBytes added = leftBytes added ++ session.input)
    (hlength : session.input.length ≤ INPUT_LIMIT) : Inv ⟨session, next, s.log ++ added⟩ := by
  refine ⟨?_, hlength⟩
  have haccepted : acceptedBytes (s.log ++ added) = acceptedBytes s.log ++ acceptedBytes added :=
    List.flatMap_append
  have hleft : leftBytes (s.log ++ added) = leftBytes s.log ++ leftBytes added := List.flatMap_append
  show acceptedBytes (s.log ++ added) = leftBytes (s.log ++ added) ++ session.input
  rw [haccepted, hleft, hs.accepted_eq, List.append_assoc, h, List.append_assoc]

/-! ## One step -/

/-- A write is accepted as a whole, which the limit leaves room for, or refused as a whole. -/
theorem write_whole (s : TerminalSession) (bytes : Bytes) :
    ((s.write bytes).1 = .ok () ∧ (s.write bytes).2.input = s.input ++ bytes ∧
        bytes.length ≤ INPUT_LIMIT - s.input.length) ∨
      ∃ error, (s.write bytes).1 = .error error ∧ (s.write bytes).2.input = s.input := by
  unfold TerminalSession.write
  split_ifs with hrefused
  · exact .inr ⟨_, rfl, rfl⟩
  · exact .inr ⟨_, rfl, rfl⟩
  · simp only [not_or, not_lt] at hrefused
    exact .inl ⟨rfl, rfl, hrefused.2⟩

theorem flushInput_left (queue : Bytes) {slice : ℕ} {w : WriteResult} (h : w.Possible queue slice) :
    (flushInput queue slice w).1 ++ (flushInput queue slice w).2.1 = queue := by
  cases w with
  | count n =>
    obtain ⟨-, hslice, hn⟩ := h
    have hchunk : (flushChunk queue slice).length ≤ slice := by
      unfold flushChunk
      rw [List.length_take, List.length_take]
      omega
    cases n with
    | zero => rfl
    | succ n =>
      have htake : (flushChunk queue slice).take (n + 1) = queue.take (n + 1) := by
        unfold flushChunk at hn ⊢
        rw [List.length_take, List.length_take] at hn
        rw [List.take_take, List.take_take]
        congr 1
        omega
      show (flushChunk queue slice).take (n + 1) ++ queue.drop (n + 1) = queue
      rw [htake, List.take_append_drop]
  | _ => rfl

theorem closeInput_told (s : TerminalSession) (reason : String) {lost : Bytes} (h : s.input = lost) (hne : lost ≠ []) :
    (s.closeInput reason).inputError =
      some (reason ++ ": " ++ toString lost.length ++ " queued input bytes were not delivered") := by
  subst h
  exact if_pos hne

theorem interruptInput_told (s : TerminalSession) (flushed : Bool) (signal : Except String Unit) :
    ∃ error, (s.interruptInput flushed signal).2.inputError = some error ∧ Reports s.input.length error .interrupt := by
  refine ⟨_, rfl, ?_⟩
  cases signal with
  | error text => exact .inr (.inr ⟨text, rfl⟩)
  | ok _ =>
    cases flushed with
    | true => exact .inl rfl
    | false => exact .inr (.inl rfl)

/-- What one step adds to the log: it keeps the account of the bytes and is told. -/
structure Adds (s s' : Typing) (added : List Effect) : Prop where
  log_eq : s'.log = s.log ++ added
  bytes : s.session.input ++ acceptedBytes added = leftBytes added ++ s'.session.input
  length_le : s'.session.input.length ≤ INPUT_LIMIT
  told : Told s'.session added

theorem wrote_adds {s : Typing} (hs : Inv s) (bytes : Bytes) :
    ∃ added, Adds s (s.wrote bytes (s.session.write bytes)) added ∧
      ((added = [.accepted bytes] ∧ (s.session.write bytes).2.input = s.session.input ++ bytes) ∨
        (added = [.refused bytes] ∧ (s.session.write bytes).2.input = s.session.input)) := by
  have hlength := hs.length_le
  obtain ⟨hok, hinput, hroom⟩ | ⟨error, herror, hinput⟩ := write_whole s.session bytes
  · refine ⟨[.accepted bytes], ⟨?_, ?_, ?_, ?_⟩, .inl ⟨rfl, hinput⟩⟩
    · unfold wrote
      rw [hok]
    · show _ = [] ++ (s.session.write bytes).2.input
      rw [hinput]
      simp [acceptedBytes]
    · show (s.session.write bytes).2.input.length ≤ INPUT_LIMIT
      rw [hinput, List.length_append]
      omega
    · intro cause lost hmem
      exact absurd (List.mem_singleton.mp hmem) nofun
  · refine ⟨[.refused bytes], ⟨?_, ?_, ?_, ?_⟩, .inr ⟨rfl, hinput⟩⟩
    · unfold wrote
      rw [herror]
    · show _ = [] ++ (s.session.write bytes).2.input
      rw [hinput]
      simp [acceptedBytes]
    · show (s.session.write bytes).2.input.length ≤ INPUT_LIMIT
      rw [hinput]
      exact hlength
    · intro cause lost hmem
      exact absurd (List.mem_singleton.mp hmem) nofun

/-- Nothing is added where the queue stays. -/
theorem Adds.none {s s' : Typing} (hs : Inv s) (hlog : s'.log = s.log) (hinput : s'.session.input = s.session.input) :
    Adds s s' [] where
  log_eq := hlog.trans (List.append_nil _).symm
  bytes := by
    rw [hinput]
    exact List.append_nil _
  length_le := hinput ▸ hs.length_le
  told := nofun

theorem ready_adds {s s' : Typing} (hs : Inv s) {pendingInput : Bool} {branch : Ready}
    (h : s.ready pendingInput branch = some s') : ∃ added, Adds s s' added := by
  cases branch with
  | output bytes =>
    simp only [ready] at h
    split_ifs at h
    obtain rfl := Option.some.inj h
    exact ⟨[], Adds.none hs rfl rfl⟩
  | exited status =>
    simp only [ready] at h
    split_ifs at h
    cases status with
    | error text =>
      obtain rfl := Option.some.inj h
      exact ⟨[], Adds.none hs rfl rfl⟩
    | ok code =>
      obtain rfl := Option.some.inj h
      refine ⟨_, rfl, ?_, Nat.zero_le _, ?_⟩
      · simp [acceptedBytes, leftBytes, TerminalSession.closeInput]
      · intro cause lost hmem hne
        obtain ⟨rfl, rfl⟩ := Effect.discarded.inj (List.mem_singleton.mp hmem)
        exact ⟨_, closeInput_told _ "CLI exited" rfl hne, rfl⟩
  | writable slice result =>
    simp only [ready] at h
    split_ifs at h with hguard
    have hleft := flushInput_left s.session.input hguard.2
    rcases hflush : flushInput s.session.input slice result with ⟨sent, queue, outcome⟩
    rw [hflush] at h hleft
    dsimp only at h hleft
    have hlength : queue.length ≤ INPUT_LIMIT := by
      have h := hs.length_le
      rw [← hleft, List.length_append] at h
      omega
    cases outcome with
    | ok _ =>
      obtain rfl := Option.some.inj h
      refine ⟨_, rfl, ?_, hlength, ?_⟩
      · simpa [acceptedBytes, leftBytes] using hleft.symm
      · intro cause lost hmem
        exact absurd (List.mem_singleton.mp hmem) nofun
    | error text =>
      obtain rfl := Option.some.inj h
      refine ⟨_, rfl, ?_, Nat.zero_le _, ?_⟩
      · simpa [acceptedBytes, leftBytes, TerminalSession.closeInput] using hleft.symm
      · intro cause lost hmem hne
        rcases List.mem_cons.mp hmem with hmem | hmem
        · exact absurd hmem nofun
        · obtain ⟨rfl, rfl⟩ := Effect.discarded.inj (List.mem_singleton.mp hmem)
          exact ⟨_, closeInput_told _ ("PTY write failed: " ++ text) rfl hne, text, rfl⟩

theorem step_adds {s s' : Typing} (hs : Inv s) {a : TypingAction} (h : s.step a = some s') : ∃ added, Adds s s' added := by
  cases a with
  | write bytes =>
    simp only [step] at h
    split_ifs at h
    obtain rfl := Option.some.inj h
    obtain ⟨added, hadds, -⟩ := wrote_adds hs bytes
    exact ⟨added, hadds⟩
  | input bytes =>
    simp only [step] at h
    split_ifs at h
    obtain rfl := Option.some.inj h
    obtain ⟨added, hadds, -⟩ := wrote_adds hs bytes
    exact ⟨added, hadds⟩
  | interrupt flushed signal =>
    simp only [step] at h
    split_ifs at h
    obtain rfl := Option.some.inj h
    refine ⟨_, rfl, ?_, Nat.zero_le _, ?_⟩
    · simp [acceptedBytes, leftBytes, TerminalSession.interruptInput]
    · intro cause lost hmem _
      obtain ⟨rfl, rfl⟩ := Effect.discarded.inj (List.mem_singleton.mp hmem)
      exact interruptInput_told s.session flushed signal
  | next =>
    simp only [step] at h
    split_ifs at h
    obtain rfl := Option.some.inj h
    exact ⟨[], Adds.none hs rfl rfl⟩
  | poll branch =>
    cases hnext : s.next with
    | none => simp [step, hnext] at h
    | some pendingInput =>
      cases branch with
      | none =>
        simp only [step, hnext] at h
        obtain rfl := Option.some.inj h
        exact ⟨[], Adds.none hs rfl rfl⟩
      | some branch =>
        simp only [step, hnext] at h
        exact ready_adds hs h
  | cancel =>
    simp only [step] at h
    split_ifs at h
    obtain rfl := Option.some.inj h
    exact ⟨[], Adds.none hs rfl rfl⟩

/-! ## Runs -/

theorem Inv.initial : Inv {} := ⟨rfl, Nat.zero_le _⟩

theorem Inv.step {s s' : Typing} (hs : Inv s) {a : TypingAction} (h : s.step a = some s') : Inv s' := by
  obtain ⟨added, hlog, hbytes, hlength, -⟩ := step_adds hs h
  obtain ⟨session, next, log⟩ := s'
  obtain rfl : log = s.log ++ added := hlog
  exact hs.append hbytes hlength

/-- In every run the accepted bytes are those that left the queue, sent or discarded, and then the queue, all in order,
so that the PTY gets bytes of accepted writes in order and once; the queue keeps its limit; every step that discards
bytes leaves an error with their number; and a write is accepted or refused as a whole. -/
theorem typed_of_run {as : List TypingAction} {s : Typing} (h : Steps.run step {} as = some s) :
    acceptedBytes s.log = leftBytes s.log ++ s.session.input ∧ (sentBytes s.log).Sublist (leftBytes s.log) ∧
    s.session.input.length ≤ INPUT_LIMIT ∧
    ∀ a s', s.step a = some s' →
      (∃ added, s'.log = s.log ++ added ∧ Told s'.session added) ∧
      ∀ bytes, a = .write bytes ∨ a = .input bytes →
        (s'.log = s.log ++ [.accepted bytes] ∧ s'.session.input = s.session.input ++ bytes) ∨
        (s'.log = s.log ++ [.refused bytes] ∧ s'.session.input = s.session.input) := by
  have hs : Inv s := run_inv (fun _ _ _ hs hstep => hs.step hstep) Inv.initial h
  refine ⟨hs.accepted_eq, sentBytes_sublist s.log, hs.length_le, fun a s' hstep => ⟨?_, fun bytes ha => ?_⟩⟩
  · obtain ⟨added, hadds⟩ := step_adds hs hstep
    exact ⟨added, hadds.log_eq, hadds.told⟩
  · have hwrote : s' = s.wrote bytes (s.session.write bytes) := by
      rcases ha with rfl | rfl
      · simp only [Typing.step] at hstep
        split_ifs at hstep
        exact (Option.some.inj hstep).symm
      · simp only [Typing.step] at hstep
        split_ifs at hstep
        exact (Option.some.inj hstep).symm
    subst hwrote
    obtain ⟨added, hadds, ⟨rfl, hinput⟩ | ⟨rfl, hinput⟩⟩ := wrote_adds hs bytes
    · exact .inl ⟨hadds.log_eq, hinput⟩
    · exact .inr ⟨hadds.log_eq, hinput⟩

/-- Of three bytes two are sent before a cancelled `next`, and the exit discards the third. -/
theorem typed_of_exit :
    ∃ s, Steps.run step {} [.write [1, 2, 3], .next, .poll (some (.writable 3 (.count 2))), .next, .poll none, .cancel, .next,
        .poll (some (.exited (.ok 0)))] = some s ∧ sentBytes s.log = [1, 2] ∧
      acceptedBytes s.log = leftBytes s.log ++ s.session.input :=
  ⟨_, rfl, rfl, (@typed_of_run [.write [1, 2, 3], .next, .poll (some (.writable 3 (.count 2))), .next, .poll none,
    .cancel, .next, .poll (some (.exited (.ok 0)))] _ rfl).1⟩

end Typing

end Hamn.Tui
