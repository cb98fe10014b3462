import Hamn.Lib.Rely
import Hamn.Host.ForwardRecords

/-!
# Forwarding — the host listeners of a profile (`host/fwd/ports.c`, the requests of `host/sshmgr/ssh_forward.c`)

A process that holds the operation lock of the profile works on the file of the records, on the SSH master (which holds
the TCP listeners) and on the UDP relays with their pidfiles.  At every step the environment decides what has happened
meanwhile, whether the call fails and what it answers, and the process may be stopped before it.  A control request is
one step with the completion that its supervisor runs, because the supervisor outlives its caller and keeps the lock.

* `Cell`, `World`: a decision of the environment, and what persists.
* `stopRecord`, `startUdp`, `addForward`, `commitForward`: the parts.
* `portForwardSyncDocker`, `portForwardCleanup`, `portForwardUnconfirmTcp`: the three operations.

Of the environment: an answered cancel has removed the listener, `ssh_master_alive` tells the truth, a bind probe does
not succeed on a listener of ours, a state file is replaced as a whole, and a process that runs is not taken for ended.
-/

open Bytes Crash
open Proc (fold note)

namespace Hamn.Forward

/-! ## World -/

/-- A process and the time when it started. -/
structure Identity where
  pid : ℤ
  startSec : ℕ
  startUsec : ℕ
  deriving DecidableEq

/-- What the system says of a process. -/
structure Identity.Good (i : Identity) : Prop where
  pid : 1 < i.pid ∧ i.pid < 2 ^ 31
  startSec : 0 < i.startSec ∧ i.startSec < 2 ^ 64
  startUsec : i.startUsec < 1000000

abbrev Process := {i : Identity // i.Good}

/-- An address and a port of the host. -/
abbrev Key := Bytes × ℕ

def PortSpec.key (spec : PortSpec) : Key := (spec.hostIp, spec.hostPort)

/-- A running `udp-forward`. -/
structure Relay where
  key : Key
  process : Process
  deriving DecidableEq

/-- The SSH control socket as one master created it. -/
structure MasterSocket where
  present : Bool := false
  device : ℕ := 0
  inode : ℕ := 0
  createdSec : ℕ := 0
  createdNsec : ℕ := 0
  deriving DecidableEq

/-- The observer for which requests are made, and the control socket that it has read. -/
structure Pass where
  observer : ℕ
  control : MasterSocket
  deriving DecidableEq

inductive Pidfile where
  | absent
  | unreadable
  | names (process : Process)
  deriving DecidableEq

structure World where
  file : Option Bytes
  /-- Whether there is an SSH master. -/
  master : Bool
  /-- The TCP listeners that it holds. -/
  held : List Key
  relays : List Relay
  pidfile : Key → Pidfile
  /-- For whom requests are made now. -/
  pass : Pass
  /-- The requests that were answered with success since the trust was last withdrawn, and for whom. -/
  answered : List (PortSpec × Pass)

/-- What happens without the operations. -/
inductive Event where
  | masterEnded
  | masterStarted
  | listenerLost (key : Key)
  | relayEnded (relay : Relay)
  | pidfileWritten (relay : Relay)
  | pidfileRemoved (key : Key)
  | pidfileBroken (key : Key)

def Event.apply : Event → World → World
  | .masterEnded, w => { w with master := false, held := [] }
  | .masterStarted, w => { w with master := true, held := [] }
  | .listenerLost key, w => { w with held := w.held.filter (· ≠ key) }
  | .relayEnded relay, w => { w with relays := w.relays.filter (· ≠ relay) }
  | .pidfileWritten relay, w =>
    if relay ∈ w.relays then { w with pidfile := Function.update w.pidfile relay.key (.names relay.process) } else w
  | .pidfileRemoved key, w => { w with pidfile := Function.update w.pidfile key .absent }
  | .pidfileBroken key, w => { w with pidfile := Function.update w.pidfile key .unreadable }

inductive ProcessIdentity where
  | unknown
  | changed
  | same
  deriving DecidableEq

/-- What `waitpid` with `WNOHANG` says. -/
inductive Waited where
  | ended
  | running
  | noChild
  | failed
  deriving DecidableEq

/-- One decision of the environment. -/
structure Cell where
  events : List Event := []
  /-- The call fails. -/
  fault : Bool := false
  /-- A call that fails has had its effect, or a request that is not answered. -/
  applied : Bool := false
  /-- A request is answered with success. -/
  answered : Bool := false
  /-- The result of a request reaches the caller. -/
  reported : Bool := false
  /-- What is known of a process that is no relay. -/
  identity : ProcessIdentity := .unknown
  waited : Waited := .running
  /-- The identity of the process itself. -/
  own : Option Process := none
  /-- The process that a spawn creates. -/
  spawned : Option Process := none

abbrev Op := Proc Cell World Empty

/-- The world when a step is taken. -/
def Cell.now (c : Cell) (w : World) : World := c.events.foldl (fun w e => e.apply w) w

def act {α : Type} (f : Cell → World → α × World) : Op α := Crash.act Cell.now f

/-! ## The state file -/

def stateLock : Op Bool := act fun c w => (!c.fault, w)

def loadRecords : Op (Option (List ForwardRecord)) :=
  act fun c w => (if c.fault then none else recordsLoad w.file, w)

/-- `fs_write_file_atomic` may fail before and after its rename. -/
def writeFile (c : Cell) (w : World) (records : List ForwardRecord) : Bool × World :=
  match recordsSave records with
  | none => (false, w)
  | some file =>
    if c.fault then (false, if c.applied then { w with file } else w)
    else (true, { w with file })

def saveRecords (records : List ForwardRecord) : Op Bool := act fun c w => writeFile c w records

/-! ## Processes and listeners -/

/-- A relay that runs is not taken for another process. -/
def processIdentityValues (i : Identity) : Op ProcessIdentity :=
  if i.pid ≤ 1 ∨ i.startSec = 0 then pure .unknown
  else act fun c w =>
    (if ∃ relay ∈ w.relays, relay.process.val = i then if c.fault then .unknown else .same else c.identity, w)

def ForwardRecord.identity (record : ForwardRecord) : Identity := ⟨record.pid, record.startSec, record.startUsec⟩

def ForwardRecord.setIdentity (record : ForwardRecord) (i : Identity) : ForwardRecord :=
  { record with pid := i.pid, startSec := i.startSec, startUsec := i.startUsec }

def sameListener (a b : PortSpec) : Bool := a.protocol = b.protocol ∧ a.hostPort = b.hostPort

def sameForward (a b : PortSpec) : Bool :=
  a.protocol = b.protocol ∧ a.hostIp = b.hostIp ∧ a.hostPort = b.hostPort ∧ a.containerPort = b.containerPort

def specForwardable (spec : PortSpec) : Bool := spec.protocol ≠ .udp ∨ inetPton spec.hostIp = some [0, 0, 0, 0]

def readPidfile (key : Key) : Op Pidfile := act fun c w => (if c.fault then .unreadable else w.pidfile key, w)

def removePidfile (key : Key) : Op Bool :=
  act fun c w => if c.fault then (false, w) else (true, { w with pidfile := Function.update w.pidfile key .absent })

/-- `open_udp_listener`: the port is not bound while a relay listens on it. -/
def openUdpListener (key : Key) : Op Bool :=
  act fun c w => (!c.fault && !decide (∃ relay ∈ w.relays, relay.key = key), w)

def udpListenerAvailable (key : Key) : Op Bool := openUdpListener key

def tcpListenerAvailable (key : Key) : Op Bool := act fun c w => (!c.fault && !decide (key ∈ w.held), w)

def sshMasterAlive : Op Bool := act fun _ w => (w.master, w)

/-- `kill`, which may fail; the process ends when it ends. -/
def kill : Op Bool := act fun c w => (!c.fault, w)

/-- A relay that runs is not reaped. -/
def waitpid (i : Identity) : Op Waited :=
  act fun c w =>
    (if c.waited = .ended ∧ ∃ relay ∈ w.relays, relay.process.val = i then .running else c.waited, w)

/-- The loop of `wait_udp_stopped`, `n` times. -/
def waitUdpStopped (i : Identity) : ℕ → Op Bool
  | 0 => do
    let identity ← processIdentityValues i
    return identity = .changed
  | n + 1 => do
    match ← waitpid i with
    | .ended => return true
    | .failed => return false
    | _ =>
      if (← processIdentityValues i) = .changed then return true
      waitUdpStopped i n

def WAIT_STOPPED : ℕ := 20

/-- The signal is sent, or not needed any more. -/
def signalProcess (i : Identity) : Op Bool := do
  if ← kill then return true
  let identity ← processIdentityValues i
  return identity = .changed

def terminateUdpProcess (i : Identity) : Op Bool := do
  let identity ← processIdentityValues i
  if identity = .changed then return true
  if identity ≠ .same then return false
  if !(← signalProcess i) then return false
  if ← waitUdpStopped i WAIT_STOPPED then return true
  if (← processIdentityValues i) ≠ .same then return false
  if !(← signalProcess i) then return false
  waitUdpStopped i WAIT_STOPPED

inductive UdpRelay where
  | unverified
  | gone
  | running
  deriving DecidableEq

def UdpRelay.ofIdentity : ProcessIdentity → UdpRelay
  | .same => .running
  | .changed => .gone
  | .unknown => .unverified

/-- The relay of a record, and the record with the identity that its pidfile gives. -/
def udpRelayState (record : ForwardRecord) : Op (UdpRelay × ForwardRecord) :=
  if record.pid ≠ 0 then do
    let identity ← processIdentityValues record.identity
    return (.ofIdentity identity, record)
  else do
    match ← readPidfile record.spec.key with
    | .absent =>
      let available ← udpListenerAvailable record.spec.key
      return (if available then .gone else .unverified, record)
    | .unreadable => return (.unverified, record)
    | .names process =>
      let identity ← processIdentityValues process.val
      return (.ofIdentity identity, if identity = .same then record.setIdentity process.val else record)

/-- `ssh_forward_cancel_tcp`. -/
def cancelTcp (key : Key) : Op Bool :=
  act fun c w =>
    if w.master ∧ (c.answered ∨ c.applied) then (c.answered, { w with held := w.held.filter (· ≠ key) }) else (false, w)

def stopRecord (record : ForwardRecord) : Op Bool :=
  if record.spec.protocol = .tcp then do
    if ← cancelTcp record.spec.key then return true
    if !(← sshMasterAlive) then return true
    tcpListenerAvailable record.spec.key
  else do
    let (state, relay) ← udpRelayState record
    if state = .unverified then return false
    if state = .running then
      if !(← terminateUdpProcess relay.identity) then return false
    removePidfile record.spec.key

/-! ## Adding a forward -/

/-- `complete_tcp_control`, in the supervisor of a request that was answered with success. -/
def completeTcpControl (c : Cell) (w : World) (spec : PortSpec) (owner : Process) : Bool × World :=
  match recordsLoad w.file with
  | none => (false, w)
  | some records =>
    match records.findIdx? fun r => sameForward r.spec spec && r.pending && !r.submitted && r.serialized &&
        (⟨r.ownerPid, r.ownerStartSec, r.ownerStartUsec⟩ : Identity) = owner.val with
    | none => (false, w)
    | some i => writeFile c w (records.modify i fun r => { r with serialized := false })

/-- `ssh_forward_add_tcp_observed`: a request that is refused, lost before or after its effect, or answered. -/
def addTcp (spec : PortSpec) (owner : Process) : Op Bool :=
  act fun c w =>
    if w.master ∧ (c.answered ∨ c.applied) then
      let w := { w with held := spec.key :: w.held }
      if c.answered then
        let w := { w with answered := (spec, w.pass) :: w.answered }
        if c.reported then completeTcpControl c w spec owner
        else (false, if c.applied then (completeTcpControl c w spec owner).2 else w)
      else (false, w)
    else (false, w)

inductive UdpStart where
  | unsafeStart
  | failed
  | ok
  deriving DecidableEq

def prepareUdpPidfile (key : Key) : Op Bool := do
  match ← readPidfile key with
  | .absent => return true
  | .unreadable => return false
  | .names process =>
    if (← processIdentityValues process.val) ≠ .changed then return false
    removePidfile key

/-- `proc_spawn_daemon` with the bound socket. -/
def spawnRelay (key : Key) : Op (Option Process) :=
  act fun c w =>
    match c.spawned with
    | some process => (some process, { w with relays := ⟨key, process⟩ :: w.relays })
    | none => (none, w)

/-- The loop of `wait_udp_started`, `n` times. -/
def waitUdpStarted (key : Key) (process : Process) : ℕ → Op (Option Process)
  | 0 => pure none
  | n + 1 => do
    match ← readPidfile key with
    | .names value =>
      if value.val.pid = process.val.pid then
        if (← processIdentityValues value.val) = .same then return some value
      waitUdpStarted key process n
    | _ => waitUdpStarted key process n

/-- `kill` with no signal finds no process. -/
def processAbsent (i : Identity) : Op Bool :=
  act fun c w => (!c.fault && !decide (∃ relay ∈ w.relays, relay.process.val = i), w)

/-- The loop of `wait_spawned_child`, `n` times. -/
def waitSpawnedChild (i : Identity) : ℕ → Op Bool
  | 0 => pure false
  | n + 1 => do
    match ← waitpid i with
    | .ended => return true
    | .running => waitSpawnedChild i n
    | .noChild => processAbsent i
    | .failed => return false

def terminateSpawnedChild (i : Identity) : Op Bool := do
  if !(← kill) then return false
  if ← waitSpawnedChild i WAIT_STOPPED then return true
  if !(← kill) then return false
  waitSpawnedChild i WAIT_STOPPED

def WAIT_STARTED : ℕ := 40

def startUdp (record : ForwardRecord) : Op (UdpStart × ForwardRecord) := do
  let key := record.spec.key
  if !(← prepareUdpPidfile key) then return (.failed, record)
  if !(← openUdpListener key) then return (.failed, record)
  match ← spawnRelay key with
  | none => return (.failed, record)
  | some process =>
    let token ← act fun c w => (!c.fault, w)
    let child := if token then record.setIdentity process.val else record
    match ← waitUdpStarted key process WAIT_STARTED with
    | some value => return (.ok, record.setIdentity value.val)
    | none =>
      if !(← terminateSpawnedChild process.val) then return (.unsafeStart, child)
      let _ ← removePidfile key
      return (.failed, child)

inductive ForwardFailure where
  | hostPortInUse
  | other
  | relayUnverified
  | udpAddressUnsupported
  deriving DecidableEq

/-- The record that is taken over; `none` when another claims the listener. -/
def findSlot (spec : PortSpec) (adopt : Bool) : ℕ → Option ℕ → List ForwardRecord → Option (Option ℕ)
  | _, slot, [] => some slot
  | i, slot, record :: records =>
    if !sameListener record.spec spec then findSlot spec adopt (i + 1) slot records
    else if adopt && slot.isNone && spec.protocol = .tcp && record.pending && sameForward record.spec spec then
      findSlot spec adopt (i + 1) (some i) records
    else none

/-- A listener is absent once its cancel was answered, or without a master when the port can be bound. -/
def listenerAbsent (cancelled : Bool) (key : Key) : Op Bool := do
  if cancelled then return true
  if ← sshMasterAlive then return false
  tcpListenerAvailable key

/-- After a request that was not answered with success. -/
def undoTcp (records : List ForwardRecord) (slot : ℕ) (key : Key) : Op ForwardFailure := do
  let cancelled ← cancelTcp key
  let absent ← listenerAbsent cancelled key
  let _ ← saveRecords (if absent then records.eraseIdx slot else records)
  if cancelled then
    if ← tcpListenerAvailable key then return .other else return .hostPortInUse
  else return .other

def addTcpForward (records : List ForwardRecord) (slot : ℕ) (record : ForwardRecord) (owner : Process) :
    Op (Option ForwardFailure) := do
  let records := records.set slot { record with submitted := false, serialized := true }
  if !(← saveRecords records) then return some .other
  if ← addTcp record.spec owner then return none
  let failure ← undoTcp records slot record.spec.key
  return some failure

/-- After a relay that was not started. -/
def failUdp (records : List ForwardRecord) (key : Key) : Op (Option ForwardFailure) := do
  let _ ← saveRecords records
  if ← udpListenerAvailable key then return some .other else return some .hostPortInUse

def addUdpForward (records : List ForwardRecord) (slot : ℕ) (record : ForwardRecord) : Op (Option ForwardFailure) := do
  let (rc, record) ← startUdp record
  match rc with
  | .failed => failUdp (records.eraseIdx slot) record.spec.key
  | .unsafeStart => failUdp (records.set slot record) record.spec.key
  | .ok =>
    if ← saveRecords (records.set slot record) then return none
    if ← stopRecord record then
      let _ ← saveRecords (records.eraseIdx slot)
    return some .other

/-- `add_forward_under_operation_lock`: `none` where the listener was created. -/
def addForward (spec : PortSpec) (adoptUnconfirmed : Bool) : Op (Option ForwardFailure) := do
  if !(← stateLock) then return some .other
  match ← loadRecords with
  | none => return some .other
  | some records =>
    match findSlot spec adoptUnconfirmed 0 none records with
    | none => return some .other
    | some adopted =>
      if adopted.isNone ∧ MAX_FORWARD_RECORDS ≤ records.length then return some .other
      match ← act fun c w => (c.own, w) with
      | none => return some .other
      | some owner =>
        let record : ForwardRecord :=
          { spec, pending := true, ownerPid := owner.val.pid, ownerStartSec := owner.val.startSec,
            ownerStartUsec := owner.val.startUsec }
        match adopted with
        | some slot =>
          if spec.protocol = .tcp then addTcpForward records slot record owner else addUdpForward records slot record
        | none =>
          if !(← saveRecords (records ++ [record])) then return some .other
          if spec.protocol = .tcp then addTcpForward (records ++ [record]) records.length record owner
          else addUdpForward (records ++ [record]) records.length record

def recordMarkCommitted (record : ForwardRecord) : ForwardRecord :=
  { record with
    pending := false
    submitted := false
    serialized := false
    ownerPid := 0
    ownerStartSec := 0
    ownerStartUsec := 0 }

def commitForward (spec : PortSpec) : Op Bool := do
  if !(← stateLock) then return false
  match ← loadRecords with
  | none => return false
  | some records =>
    match records.findIdx? fun r => sameForward r.spec spec with
    | none => return false
    | some i =>
      if records[i]?.map (·.pending) = some false then return true
      saveRecords (records.modify i recordMarkCommitted)

/-! ## The operations -/

/-- The records that could not be stopped, in order. -/
def stopRecords : List ForwardRecord → Op (List ForwardRecord)
  | [] => pure []
  | record :: records => do
    let stopped ← stopRecord record
    let kept ← stopRecords records
    return if stopped then kept else record :: kept

def portForwardCleanup : Op Bool := do
  if !(← act fun c w => (!c.fault, w)) then return false
  if !(← stateLock) then return false
  match ← loadRecords with
  | none => return false
  | some records =>
    let kept ← stopRecords records
    let saved ← saveRecords kept
    return saved && kept.isEmpty

def unconfirm (owner : Process) (record : ForwardRecord) : ForwardRecord :=
  if record.spec.protocol ≠ .tcp ∨ record.pending then record
  else
    { record with
      pending := true
      serialized := true
      ownerPid := owner.val.pid
      ownerStartSec := owner.val.startSec
      ownerStartUsec := owner.val.startUsec }

def portForwardUnconfirmTcp : Op Bool := do
  if !(← stateLock) then return false
  match ← loadRecords with
  | none => return false
  | some records =>
    match ← act fun c w => (c.own, w) with
    | none => return false
    | some owner =>
      let changed := records.any fun r => r.spec.protocol = .tcp && !r.pending
      let done ← if changed then saveRecords (records.map (unconfirm owner)) else pure true
      if done then
        note fun w => { w with answered := [] }
        return true
      else return false

def dockerSpecsValid (specs : List PortSpec) : Bool :=
  specs.length ≤ MAX_FORWARD_RECORDS &&
    (specs.all fun s => (inetPton s.hostIp).isSome && 0 < s.hostPort && s.hostPort ≤ 65535 && 0 < s.containerPort &&
      s.containerPort ≤ 65535) &&
    specs.Pairwise fun a b => sameListener a b = false

structure FailedForward where
  spec : PortSpec
  reason : ForwardFailure
  deriving DecidableEq

inductive SpecState where
  | unrecorded
  | forwarded
  | unconfirmed
  deriving DecidableEq

/-- The variables of a synchronization. -/
structure Sync where
  kept : List ForwardRecord := []
  recorded : List SpecState
  failures : List FailedForward := []
  failed : Bool := false

/-- One record against the published ports. -/
def reconcile (specs : List PortSpec) (s : Sync) (record : ForwardRecord) : Op Sync :=
  match specs.findIdx? fun spec => sameForward record.spec spec && specForwardable spec with
  | some desired =>
    if record.spec.protocol = .udp then do
      let (relay, record) ← udpRelayState record
      let stopped ← if relay = .gone then stopRecord record else pure false
      if stopped then return s
      let s := { s with recorded := s.recorded.set desired .forwarded }
      if relay = .running then
        return { s with kept := s.kept ++ [if record.pending then recordMarkCommitted record else record] }
      else
        let reason := if relay = .gone then .other else .relayUnverified
        return { s with
          kept := s.kept ++ [record], failures := s.failures ++ [⟨record.spec, reason⟩], failed := true }
    else
      let state := if record.pending then SpecState.unconfirmed else .forwarded
      pure { s with recorded := s.recorded.set desired state, kept := s.kept ++ [record] }
  | none => do
    if ← stopRecord record then return s
    return { s with kept := s.kept ++ [record], failed := true }

/-- One published port, with what the records say of it. -/
def publish (s : Sync) (port : PortSpec × SpecState) : Op Sync :=
  if !specForwardable port.1 then
    pure { s with failures := s.failures ++ [⟨port.1, .udpAddressUnsupported⟩] }
  else if port.2 = .forwarded then pure s
  else do
    match ← addForward port.1 (port.2 = .unconfirmed) with
    | some reason => return { s with failures := s.failures ++ [⟨port.1, reason⟩], failed := true }
    | none => return { s with failed := s.failed || !(← commitForward port.1) }

/-- `port_forward_sync_docker_serialized`: whether it returns 0, and the failures that it publishes. -/
def portForwardSyncDocker (specs : List PortSpec) : Op (Bool × Option (List FailedForward)) :=
  if !dockerSpecsValid specs then pure (false, none)
  else do
    if !(← stateLock) then return (false, none)
    match ← loadRecords with
    | none => return (false, none)
    | some records =>
      let s ← fold (reconcile specs) { recorded := specs.map fun _ => .unrecorded } records
      if !(← saveRecords s.kept) then return (false, none)
      let s ← fold publish s (specs.zip s.recorded)
      return (!s.failed, some s.failures)

end Hamn.Forward
