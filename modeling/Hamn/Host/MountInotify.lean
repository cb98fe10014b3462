import Hamn.Guest.JsonWrite
import Hamn.Lib.RingBuffer
import Hamn.Lib.Steps

/-!
# MountInotify — file events relayed to the guest (`fwd/mount_inotify.c`)

The watcher of a profile turns the file events of the host into requests to the guest agent.  `handle_event` drops an
event whose device, inode and modification time are in a ring of 128 entries.

* `sendAgentEvent`: the request, and whether the agent accepted it.
* `handleEvent`: what becomes of an event.
* `Kept`, `Fresh`: what is promised of an event, and the events for which it holds (`kept_iff_fresh`).

What the system answers (`lstat`, `realpath`, `stat`, the socket) is part of the event.
-/

open Bytes

namespace Hamn.Host.MountInotify

/-! ## The request to the agent -/

def PATH_MAX : ℕ := 1024

def MOUNT_INOTIFY_HTTP_CAP : ℕ := PATH_MAX * 6 + 512

/-- `sizeof(struct sockaddr_un.sun_path)`. -/
def SUN_PATH : ℕ := 104

/-- What names a modification: an entry of the ring. -/
structure Recent where
  device : ℕ
  inode : ℕ
  seconds : ℤ
  nanoseconds : ℤ
  deriving DecidableEq, Repr

structure FileStat where
  recent : Recent
  regular : Bool

def jsonAppendChar (cap : ℕ) (text : Bytes) (value : UInt8) : Option Bytes :=
  if text.length + 1 ≥ cap then none else some (text ++ [value])

/-- What `snprintf` writes, if it fits. -/
def appendPrinted (cap : ℕ) (text printed : Bytes) : Option Bytes :=
  if printed.length ≥ cap - text.length then none else some (text ++ printed)

/-- One character of a string. -/
def jsonAppendEscaped (cap : ℕ) (text : Bytes) (c : UInt8) : Option Bytes :=
  if c = byte '"' ∨ c = byte '\\' then do jsonAppendChar cap (← jsonAppendChar cap text (byte '\\')) c
  else if c < 0x20 then appendPrinted cap text (ascii "\\u" ++ StrictJson.printHex4 c.toNat)
  else jsonAppendChar cap text c

def jsonAppendString (cap : ℕ) (text value : Bytes) : Option Bytes := do
  let text ← jsonAppendChar cap text (byte '"')
  let text ← value.foldlM (jsonAppendEscaped cap) text
  jsonAppendChar cap text (byte '"')

def printInteger (i : ℤ) : Bytes := if i < 0 then byte '-' :: decimal i.natAbs else decimal i.natAbs

/-- The key of a member and its colon. -/
def appendKey (cap : ℕ) (text : Bytes) (key : String) : Option Bytes := do
  jsonAppendChar cap (← jsonAppendString cap text (ascii key)) (byte ':')

def agentBody (tag relative : Bytes) (status : FileStat) : Option Bytes := do
  let cap := MOUNT_INOTIFY_HTTP_CAP
  let body ← appendKey cap (ascii "\x7b") "tag"
  let body ← jsonAppendChar cap (← jsonAppendString cap body tag) (byte ',')
  let body ← appendKey cap body "path"
  let body ← jsonAppendChar cap (← jsonAppendString cap body relative) (byte ',')
  let body ← appendKey cap body "mtimeSec"
  let body ← appendPrinted cap body (printInteger status.recent.seconds)
  let body ← jsonAppendChar cap body (byte ',')
  let body ← appendKey cap body "mtimeNsec"
  let body ← appendPrinted cap body (printInteger status.recent.nanoseconds)
  jsonAppendChar cap body (byte '\x7d')

def agentRequest (tag relative : Bytes) (status : FileStat) : Option Bytes := do
  let body ← agentBody tag relative status
  appendPrinted (MOUNT_INOTIFY_HTTP_CAP + 256) [] (ascii "POST /v1/mount-inotify HTTP/1.1\r\n" ++
    ascii "Host: hamn\r\nContent-Type: application/json\r\n" ++
    ascii "Content-Length: " ++ decimal body.length ++ ascii "\r\nConnection: close\r\n\r\n" ++ body)

/-- What the system and the agent answer while a request is sent. -/
structure Exchange where
  /-- `agent.sock` of the profile, if its path fits. -/
  socketPath : Option Bytes
  /-- `socket_path_safe`. -/
  safe : Bool
  socket : Bool
  cloexec : Bool
  connected : Bool
  written : Bool
  /-- What `recv` returned: at most 127 bytes, nothing at the end of the stream or on an error. -/
  response : Option Bytes

def accepts (response : Bytes) : Bool :=
  (ascii "HTTP/1.1 204 ").isPrefixOf response || (ascii "HTTP/1.0 204 ").isPrefixOf response

/-- `send_agent_event`: the request that the agent accepted. -/
def sendAgentEvent (tag relative : Bytes) (status : FileStat) (x : Exchange) : Option Bytes := do
  let socketPath ← x.socketPath
  guard x.safe
  let request ← agentRequest tag relative status
  guard (x.socket && x.cloexec)
  guard (socketPath.length < SUN_PATH)
  guard (x.connected && x.written)
  let response ← x.response
  guard (accepts response)
  return request

/-! ## Events -/

structure Root where
  tag : Bytes
  path : Bytes
  deriving DecidableEq

def MOUNT_INOTIFY_RECENT_EVENTS : ℕ := 128

instance : NeZero MOUNT_INOTIFY_RECENT_EVENTS := ⟨by decide⟩

/-- `recent_next` wraps at a multiple of the ring's size, so a counter without a bound picks the same slots. -/
structure Watcher where
  roots : List Root
  recent : RingBuffer Recent MOUNT_INOTIFY_RECENT_EVENTS

def pathIsWithin (base path : Bytes) : Bool :=
  base ≠ [] && base.isPrefixOf path &&
    (base.getLast? = some (byte '/') || path.length = base.length || path[base.length]? = some (byte '/'))

/-- `find_root`: the first of the longest roots around a path. -/
def findRoot (roots : List Root) (path : Bytes) : Option Root :=
  roots.foldl (fun best candidate =>
    if pathIsWithin candidate.path path && best.all (fun b => b.path.length < candidate.path.length) then some candidate
    else best) none

/-- The flags of an event that `handle_event` reads. -/
structure Flags where
  mustScanSubDirs : Bool
  userDropped : Bool
  kernelDropped : Bool
  rootChanged : Bool
  itemIsFile : Bool
  itemModified : Bool

def Flags.wanted (f : Flags) : Bool :=
  !(f.mustScanSubDirs || f.userDropped || f.kernelDropped || f.rootChanged) && f.itemIsFile && f.itemModified

structure Event where
  flags : Flags
  /-- `lstat` of the path of the event. -/
  link : Option FileStat
  /-- Its `realpath`. -/
  real : Option Bytes
  /-- `stat` of that. -/
  status : Option FileStat
  relay : Exchange

/-- A file below a root: its path, the root and its status. -/
def located (roots : List Root) (e : Event) : Option (Bytes × Root × FileStat) := do
  guard e.flags.wanted
  let link ← e.link
  guard link.regular
  let path ← e.real
  let status ← e.status
  guard status.regular
  let root ← findRoot roots path
  guard (path ≠ root.path)
  return (path, root, status)

/-- `recently_sent`. -/
def recentlySent (w : Watcher) (status : FileStat) : Bool × Watcher :=
  if w.recent.Holds status.recent then (true, w) else (false, { w with recent := w.recent.push status.recent })

/-- What became of an event. -/
inductive Report where
  | ignored
  | suppressed (modification : Recent)
  | relayed (modification : Recent) (request : Bytes)
  | failed (modification : Recent)
  deriving DecidableEq

def relativeTo (root : Root) (path : Bytes) : Bytes :=
  let relative := path.drop root.path.length
  if relative.head? = some (byte '/') then relative.tail else relative

def handleEvent (w : Watcher) (e : Event) : Watcher × Report :=
  match located w.roots e with
  | none => (w, .ignored)
  | some (path, root, status) =>
    match recentlySent w status with
    | (true, w) => (w, .suppressed status.recent)
    | (false, w) =>
      let relative := relativeTo root path
      if relative = [] then (w, .failed status.recent)
      else
        match sendAgentEvent root.tag relative status e.relay with
        | none => (w, .failed status.recent)
        | some request => (w, .relayed status.recent request)

/-! ## Runs -/

/-- A relay that was tried, and whether it succeeded. -/
def Report.relays : Report → List (Recent × Bool)
  | .relayed k _ => [(k, true)]
  | .failed k => [(k, false)]
  | _ => []

/-- The watcher, and the relays so far, the last one first. -/
structure State where
  watcher : Watcher
  relays : List (Recent × Bool)

def zero : Recent := ⟨0, 0, 0, 0⟩

/-- `cmd_mount_inotify_watch` clears the watcher. -/
def start (roots : List Root) : State := ⟨⟨roots, RingBuffer.fill zero⟩, []⟩

def report (s : State) (e : Event) : Report := (handleEvent s.watcher e).2

def step (s : State) (e : Event) : Option State :=
  some ⟨(handleEvent s.watcher e).1, (report s e).relays ++ s.relays⟩

/-- What is promised of the event `e`. -/
structure Kept (s : State) (e : Event) : Prop where
  /-- Only a modification that was relayed is suppressed. -/
  suppresses : ∀ k, report s e = .suppressed k → (k, true) ∈ s.relays
  /-- A modification whose last relay failed is relayed again. -/
  repeats : ∀ path root status, located s.watcher.roots e = some (path, root, status) →
    s.relays.lookup status.recent = some false → ∃ ok, (report s e).relays = [(status.recent, ok)]

/-- The event does not repeat one of the last 128 relays whose relay failed, and it is no event of an all-zero file while
fewer than 128 relays were tried. -/
def Fresh (s : State) (e : Event) : Prop :=
  ∀ path root status, located s.watcher.roots e = some (path, root, status) →
    (s.relays.take MOUNT_INOTIFY_RECENT_EVENTS).lookup status.recent ≠ some false ∧
    (s.relays.length < MOUNT_INOTIFY_RECENT_EVENTS → status.recent ≠ zero)

/-- The ring holds the relays that were tried, and the all-zero file is relayed only after all of its first content. -/
structure Inv (s : State) : Prop where
  ring : s.watcher.recent = RingBuffer.pushes zero (s.relays.map Prod.fst)
  late : ∀ ok, (zero, ok) ∈ s.relays → MOUNT_INOTIFY_RECENT_EVENTS ≤ s.relays.length

theorem Inv.start (roots : List Root) : Inv (start roots) := ⟨rfl, nofun⟩

/-- `handle_event` on a file that is looked up. -/
theorem handleEvent_located {w : Watcher} {e : Event} {path : Bytes} {root : Root} {status : FileStat}
    (h : located w.roots e = some (path, root, status)) :
    w.recent.Holds status.recent ∧ handleEvent w e = (w, .suppressed status.recent) ∨
    ¬ w.recent.Holds status.recent ∧ ∃ r ok, r.relays = [(status.recent, ok)] ∧
      handleEvent w e = ({ w with recent := w.recent.push status.recent }, r) := by
  unfold handleEvent
  rw [h]
  simp only [recentlySent]
  by_cases hr : w.recent.Holds status.recent
  · rw [if_pos hr]
    exact Or.inl ⟨hr, rfl⟩
  · rw [if_neg hr]
    refine Or.inr ⟨hr, ?_⟩
    by_cases hrel : relativeTo root path = []
    · simp only [if_pos hrel]
      exact ⟨_, false, rfl, rfl⟩
    · simp only [if_neg hrel]
      cases sendAgentEvent root.tag (relativeTo root path) status e.relay with
      | none => exact ⟨_, false, rfl, rfl⟩
      | some request => exact ⟨_, true, rfl, rfl⟩

/-- The keys of the ring: the last relays, and the all-zero key while there are fewer than 128. -/
theorem Inv.holds {s : State} (hs : Inv s) {k : Recent} : s.watcher.recent.Holds k ↔
    (∃ ok, (s.relays.take MOUNT_INOTIFY_RECENT_EVENTS).lookup k = some ok) ∨
    (s.relays.length < MOUNT_INOTIFY_RECENT_EVENTS ∧ k = zero) := by
  have hlookup : ∀ l : List (Recent × Bool), k ∈ l.map Prod.fst ↔ ∃ ok, l.lookup k = some ok := by
    intro l
    rw [← Option.isSome_iff_exists, List.lookup_isSome_iff, List.mem_map]
    constructor
    · rintro ⟨p, hp, rfl⟩
      exact ⟨p, hp, beq_self_eq_true _⟩
    · rintro ⟨p, hp, heq⟩
      exact ⟨p, hp, (beq_iff_eq.mp heq).symm⟩
  rw [hs.ring, RingBuffer.holds_pushes, List.take_append, List.mem_append, ← List.map_take, hlookup, List.length_map,
    List.take_replicate, List.mem_replicate]
  have hsize : min (MOUNT_INOTIFY_RECENT_EVENTS - s.relays.length) MOUNT_INOTIFY_RECENT_EVENTS ≠ 0 ↔
      s.relays.length < MOUNT_INOTIFY_RECENT_EVENTS := by
    have := NeZero.pos MOUNT_INOTIFY_RECENT_EVENTS
    omega
  rw [hsize]

theorem Inv.step {s s' : State} {e : Event} (hs : Inv s) (h : step s e = some s') : Inv s' := by
  obtain rfl := Option.some.inj h
  cases hl : located s.watcher.roots e with
  | none =>
    have he : handleEvent s.watcher e = (s.watcher, .ignored) := by
      unfold handleEvent
      rw [hl]
    rw [report, he]
    exact hs
  | some found =>
    obtain ⟨path, root, status⟩ := found
    obtain ⟨-, he⟩ | ⟨hnot, r, ok, hr, he⟩ := handleEvent_located hl
    · rw [report, he]
      exact hs
    · rw [report, he, hr]
      refine ⟨?_, ?_⟩
      · change s.watcher.recent.push status.recent = _
        rw [hs.ring]
        rfl
      · intro ok' hmem
        change _ ≤ s.relays.length + 1
        rcases List.mem_cons.mp hmem with heq | hmem
        · have hzero : zero = status.recent := (Prod.mk.inj heq).1
          rw [hs.holds, not_or] at hnot
          have := not_lt.mp fun hlt => hnot.2 ⟨hlt, hzero.symm⟩
          omega
        · have := hs.late ok' hmem
          omega

theorem Inv.kept_iff {s : State} (hs : Inv s) (e : Event) : Kept s e ↔ Fresh s e := by
  constructor
  · intro hk path root status hl
    obtain ⟨hheld, he⟩ | ⟨hnot, r, ok, hr, he⟩ := handleEvent_located hl
    · refine ⟨fun hfalse => ?_, fun hlt hzero => ?_⟩
      · obtain ⟨ok, hrep⟩ := hk.repeats path root status hl ((List.take_prefix _ _).lookup_eq_some hfalse)
        rw [report, he] at hrep
        cases hrep
      · have hmem := hk.suppresses status.recent (by rw [report, he])
        rw [hzero] at hmem
        have := hs.late true hmem
        omega
    · rw [hs.holds, not_or] at hnot
      exact ⟨fun hfalse => hnot.1 ⟨false, hfalse⟩, fun hlt hzero => hnot.2 ⟨hlt, hzero⟩⟩
  · intro hf
    -- A key that the ring holds is one whose last relay succeeded.
    have htrue : ∀ path root status, located s.watcher.roots e = some (path, root, status) →
        s.watcher.recent.Holds status.recent → s.relays.lookup status.recent = some true := by
      intro path root status hl hheld
      obtain ⟨hlast, hlate⟩ := hf path root status hl
      obtain ⟨ok, hok⟩ | ⟨hlt, hzero⟩ := hs.holds.mp hheld
      · cases ok with
        | false => exact absurd hok hlast
        | true => exact (List.take_prefix _ _).lookup_eq_some hok
      · exact absurd hzero (hlate hlt)
    refine ⟨fun k hrep => ?_, fun path root status hl hfalse => ?_⟩
    · cases hl : located s.watcher.roots e with
      | none =>
        rw [report, handleEvent, hl] at hrep
        cases hrep
      | some found =>
        obtain ⟨path, root, status⟩ := found
        obtain ⟨hheld, he⟩ | ⟨-, r, ok, hr, he⟩ := handleEvent_located hl
        · rw [report, he] at hrep
          obtain rfl := Report.suppressed.inj hrep
          obtain ⟨l, l', heq, -⟩ := List.lookup_eq_some_iff.mp (htrue path root status hl hheld)
          rw [heq]
          exact List.mem_append_right _ List.mem_cons_self
        · rw [report, he] at hrep
          obtain rfl : r = .suppressed k := hrep
          cases hr
    · obtain ⟨hheld, -⟩ | ⟨-, r, ok, hr, he⟩ := handleEvent_located hl
      · rw [htrue path root status hl hheld] at hfalse
        cases hfalse
      · exact ⟨ok, by rw [report, he, hr]⟩

/-- **What is suppressed was relayed, and what failed is relayed again**, in every run whose events are fresh, and in no
other. -/
theorem kept_iff_fresh (roots : List Root) (es : List Event) :
    Steps.All step Kept (start roots) es ↔ Steps.All step Fresh (start roots) es :=
  Steps.all_iff (fun _ e hs => hs.kept_iff e) (fun _ _ _ hs h => hs.step h) (Inv.start roots) es

/-! ## A relay that fails -/

def homeRoot : Root := ⟨ascii "home", ascii "/Users/u"⟩

/-- A modification of `/Users/u/f`, while the agent can be reached or not. -/
def modified (reachable : Bool) : Event where
  flags := ⟨false, false, false, false, true, true⟩
  link := some ⟨⟨1, 5, 1700000000, 0⟩, true⟩
  real := some (ascii "/Users/u/f")
  status := some ⟨⟨1, 5, 1700000000, 0⟩, true⟩
  relay := ⟨some (ascii "/Users/u/.hamn/default/agent.sock"), true, true, true, reachable, true,
    some (ascii "HTTP/1.1 204 No Content\r\n\r\n")⟩

/-- The relay fails while the agent restarts, and the same modification is suppressed when it is reported again. -/
theorem unreachable_not_kept : ¬ Steps.All step Kept (start [homeRoot]) [modified false, modified true] := by
  intro h
  have hrelays : (report (start [homeRoot]) (modified false)).relays = [(⟨1, 5, 1700000000, 0⟩, false)] := by
    decide +kernel
  have hmem : (⟨1, 5, 1700000000, 0⟩, true) ∈ (report (start [homeRoot]) (modified false)).relays ++ [] :=
    (h.2 _ rfl).1.suppresses ⟨1, 5, 1700000000, 0⟩ (by decide +kernel)
  rw [hrelays] at hmem
  simp at hmem

/-- Once the agent is reachable, a modification is relayed once. -/
example : (report (start [homeRoot]) (modified true)).relays = [(⟨1, 5, 1700000000, 0⟩, true)] := by decide +kernel

end Hamn.Host.MountInotify
