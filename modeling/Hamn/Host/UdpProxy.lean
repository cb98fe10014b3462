import Hamn.Lib.Steps

/-!
# UdpProxy — the UDP relay of a published port (`fwd/udp_proxy.c`)

The relay keeps a flow for each client in one of 64 slots: a socket that is connected to the target.  An iteration of its
loop polls the listener and the sockets of the slots, forwards one datagram of a client, and then goes through the slots
with what `poll` reported for each.

* `findFlow`, `sendToTarget`: the slot of a client, and the socket that its datagram goes through.
* `iterate`: one iteration, and what it did to the sockets because of the reported events.
* `OwnPoll`, `KeepsSocket`: what is promised of an iteration, and those for which it holds (`ownPoll_iff_keepsSocket`).

A socket is known by its number in the order of the calls of `socket`, not by its descriptor, which the system gives out
again.  The answers of the system are part of a `Round`.
-/

namespace Hamn.Host.UdpProxy

def MAX_FLOWS : ℕ := 64

instance : NeZero MAX_FLOWS := ⟨by decide⟩

def FLOW_IDLE_SECONDS : ℤ := 60

structure Address where
  addr : ℕ
  port : ℕ
  deriving DecidableEq

structure Flow where
  /-- The socket behind `fd`, if it is not negative. -/
  socket : Option ℕ
  client : Address
  activeAt : ℤ
  deriving DecidableEq

abbrev Slot := Fin MAX_FLOWS

abbrev Flows := Slot → Flow

/-! ## The flow of a client -/

/-- What `close_flow` leaves in a slot. -/
def closeFlow : Flow := ⟨none, ⟨0, 0⟩, 0⟩

def Flow.serves (flow : Flow) (client : Address) : Bool := flow.socket.isSome && decide (flow.client = client)

/-- The first of the flows that were active the longest time ago. -/
def oldest (flows : Flows) : Slot :=
  (List.finRange MAX_FLOWS).foldl (fun oldest i => if (flows i).activeAt < (flows oldest).activeAt then i else oldest) 0

/-- `find_flow`: the slot of the client, else the first free one, else the oldest one, whose flow is closed. -/
def findFlow (flows : Flows) (client : Address) : Slot × Flows :=
  match (List.finRange MAX_FLOWS).find? fun i => (flows i).serves client with
  | some i => (i, flows)
  | none =>
    match (List.finRange MAX_FLOWS).find? fun i => (flows i).socket.isNone with
    | some i => (i, flows)
    | none => (oldest flows, Function.update flows (oldest flows) closeFlow)

/-- What the system answers in one turn of the loop in `send_to_target`. -/
structure Attempt where
  /-- `socket` and `connect` succeed. -/
  opened : Bool
  openedAt : ℤ
  /-- The whole datagram is sent. -/
  sent : Bool
  sentAt : ℤ

/-- One turn of `send_to_target`, with the number of sockets so far, and whether it succeeds. -/
def sendOnce (client : Address) (flow : Flow) (sockets : ℕ) (a : Attempt) : (Flow × ℕ) × Bool :=
  match flow.socket with
  | some _ => if a.sent then (({ flow with activeAt := a.sentAt }, sockets), true) else ((closeFlow, sockets), false)
  | none =>
    if a.opened then
      if a.sent then ((⟨some sockets, client, a.sentAt⟩, sockets + 1), true) else ((closeFlow, sockets + 1), false)
    else ((flow, sockets), false)

def sendToTarget (client : Address) (flow : Flow) (sockets : ℕ) (first second : Attempt) : Flow × ℕ :=
  match sendOnce client flow sockets first with
  | (sent, true) => sent
  | ((flow, sockets), false) => (sendOnce client flow sockets second).1

/-! ## An iteration -/

structure Revents where
  pollin : Bool
  pollerr : Bool
  pollhup : Bool
  pollnval : Bool
  deriving DecidableEq

def Revents.broken (r : Revents) : Bool := r.pollerr || r.pollhup || r.pollnval

def Revents.quiet (r : Revents) : Bool := !r.pollin && !r.broken

inductive Poll where
  | interrupted
  | failed
  /-- What is reported for the listener and for the sockets. -/
  | ready (listener : Revents) (flows : Slot → Revents)

/-- What `recvfrom` returns, and how the datagram can be sent. -/
inductive Datagram where
  | received (client : Address) (first second : Attempt)
  | again
  | failed

/-- What becomes of a reply: `recv` fails, `sendto` fails, or it is sent. -/
inductive Reply where
  | unread
  | unsent
  | sent (now : ℤ)

structure Round where
  stopping : Bool
  poll : Poll
  datagram : Datagram
  replies : Slot → Reply
  now : ℤ

structure Relay where
  flows : Flows
  /-- The sockets that were opened so far. -/
  sockets : ℕ
  running : Bool

/-- The loop ends, and every flow is closed. -/
def Relay.ended (s : Relay) : Relay := ⟨fun _ => closeFlow, s.sockets, false⟩

/-- `poll` reports nothing for a negative descriptor. -/
def revents (flows : Flows) (reported : Slot → Revents) (i : Slot) : Revents :=
  if (flows i).socket.isSome then reported i else ⟨false, false, false, false⟩

/-- The datagram of a client is sent through its flow; no state if the loop ends. -/
def receive (s : Relay) (listener : Revents) (datagram : Datagram) : Option Relay :=
  if listener.pollin then
    match datagram with
    | .received client first second =>
      let (i, flows) := findFlow s.flows client
      let (flow, sockets) := sendToTarget client (flows i) s.sockets first second
      some { s with flows := Function.update flows i flow, sockets }
    | .again => some s
    | .failed => none
  else some s

inductive Use where
  | close
  | recv
  deriving DecidableEq

/-- What is done to a socket because of reported events. -/
structure Handled where
  socket : ℕ
  use : Use
  deriving DecidableEq

/-- One turn of the loop over the slots. -/
def scanFlow (flow : Flow) (revents : Revents) (reply : Reply) : Flow × Option Handled :=
  match flow.socket with
  | none => (flow, none)
  | some socket =>
    if revents.broken then (closeFlow, some ⟨socket, .close⟩)
    else if revents.pollin then
      (match reply with
        | .unread | .unsent => closeFlow
        | .sent now => { flow with activeAt := now }, some ⟨socket, .recv⟩)
    else (flow, none)

/-- The turn of slot `i`, after the datagram of the iteration. -/
def scanned (s s' : Relay) (reported : Slot → Revents) (r : Round) (i : Slot) : Flow × Option Handled :=
  scanFlow (s'.flows i) (revents s.flows reported i) (r.replies i)

def expire (now : ℤ) (flow : Flow) : Flow :=
  if flow.socket.isSome && decide (FLOW_IDLE_SECONDS ≤ now - flow.activeAt) then closeFlow else flow

/-- One iteration of the loop: the relay after it, and what it did to the socket of each slot.  The turns of the loops over
the slots do not depend on each other. -/
def iterate (s : Relay) (r : Round) : Relay × (Slot → Option Handled) :=
  if r.stopping then (s.ended, fun _ => none)
  else
    match r.poll with
    | .interrupted => (s, fun _ => none)
    | .failed => (s.ended, fun _ => none)
    | .ready listener reported =>
      if listener.broken then (s.ended, fun _ => none)
      else
        match receive s listener r.datagram with
        | none => (s.ended, fun _ => none)
        | some s' =>
          ({ s' with flows := fun i => expire r.now (scanned s s' reported r i).1 },
            fun i => (scanned s s' reported r i).2)

def step (s : Relay) (r : Round) : Option Relay := if s.running then some (iterate s r).1 else none

/-- The relay sets the descriptors only: the rest of the array is what the stack held. -/
def start (stack : Slot → Address × ℤ) : Relay := ⟨fun i => ⟨none, (stack i).1, (stack i).2⟩, 0, true⟩

/-! ## Runs -/

def Use.reportedBy (r : Revents) : Use → Bool
  | .close => r.broken
  | .recv => r.pollin

/-- A socket is read or closed because of events that `poll` reported for this socket. -/
def OwnPoll (s : Relay) (r : Round) : Prop :=
  ∀ i h, (iterate s r).2 i = some h → ∃ listener reported, r.poll = .ready listener reported ∧
    (s.flows i).socket = some h.socket ∧ h.use.reportedBy (reported i) = true

/-- The datagram leaves the slot with a socket that was opened for it. -/
def reopens (own : Bool) (first second : Attempt) : Bool :=
  if own then !first.sent && (second.opened && second.sent)
  else first.opened && first.sent || second.opened && second.sent

/-- The datagram of the iteration leaves slot `i` with a socket that was opened for it. -/
def Reopened (s : Relay) (listener : Revents) (datagram : Datagram) (i : Slot) : Prop :=
  ∃ client first second, listener.pollin = true ∧ datagram = .received client first second ∧
    (findFlow s.flows client).1 = i ∧ reopens ((s.flows i).serves client) first second = true

/-- A slot does not get another socket after `poll` reported an event for the one it had. -/
def KeepsSocket (s : Relay) (r : Round) : Prop :=
  ∀ listener reported, r.stopping = false → r.poll = .ready listener reported → listener.broken = false →
    ∀ i, Reopened s listener r.datagram i → (s.flows i).socket.isSome = true → (reported i).quiet = true

/-- Every socket in a slot was opened before. -/
def Inv (s : Relay) : Prop := ∀ i n, (s.flows i).socket = some n → n < s.sockets

theorem Inv.start (stack : Slot → Address × ℤ) : Inv (start stack) := fun _ _ h => nomatch h

/-- Other slots keep their flows, and the slot of the client keeps its own, or its flow is closed. -/
theorem findFlow_spec (flows : Flows) (client : Address) {i : Slot} {flows' : Flows} (h : findFlow flows client = (i, flows')) :
    (∀ j, j ≠ i → flows' j = flows j) ∧
      if (flows i).serves client = true then flows' i = flows i else (flows' i).socket = none := by
  unfold findFlow at h
  split at h
  · rename_i j hfind
    obtain ⟨rfl, rfl⟩ := Prod.mk.inj h
    have hserves := List.find?_some hfind
    exact ⟨fun _ _ => rfl, by rw [if_pos hserves]⟩
  · rename_i hnone
    have hother : ∀ j, (flows j).serves client ≠ true := fun j => List.find?_eq_none.mp hnone j (List.mem_finRange j)
    split at h
    · rename_i j hfind
      obtain ⟨rfl, rfl⟩ := Prod.mk.inj h
      rw [if_neg (hother _)]
      have hfree := List.find?_some hfind
      exact ⟨fun _ _ => rfl, Option.isNone_iff_eq_none.mp hfree⟩
    · obtain ⟨rfl, rfl⟩ := Prod.mk.inj h
      rw [if_neg (hother _), Function.update_self]
      exact ⟨fun j hj => Function.update_of_ne hj _ _, rfl⟩

/-- What one attempt leaves: the socket it found, a new one, or none after a failure. -/
theorem sendOnce_spec {client : Address} {flow flow' : Flow} {sockets sockets' : ℕ} {a : Attempt} {ok : Bool}
    (h : sendOnce client flow sockets a = ((flow', sockets'), ok)) :
    ok = (a.sent && (flow.socket.isSome || a.opened)) ∧ sockets ≤ sockets' ∧ (ok = false → flow'.socket = none) ∧
      (ok = true → flow.socket.isSome = true → flow'.socket = flow.socket) ∧
      (ok = true → flow.socket = none → ∃ n, flow'.socket = some n ∧ sockets ≤ n ∧ n < sockets') := by
  unfold sendOnce at h
  cases hs : flow.socket with
  | some n =>
    rw [hs] at h
    cases hsent : a.sent with
    | true =>
      simp only [hsent, if_true] at h
      obtain ⟨⟨rfl, rfl⟩, rfl⟩ := (Prod.mk.inj h).imp Prod.mk.inj id
      exact ⟨rfl, Nat.le_refl _, nofun, fun _ _ => rfl, nofun⟩
    | false =>
      simp only [hsent, Bool.false_eq_true, if_false] at h
      obtain ⟨⟨rfl, rfl⟩, rfl⟩ := (Prod.mk.inj h).imp Prod.mk.inj id
      exact ⟨rfl, Nat.le_refl _, fun _ => rfl, nofun, nofun⟩
  | none =>
    rw [hs] at h
    cases hopened : a.opened with
    | false =>
      simp only [hopened, Bool.false_eq_true, if_false] at h
      obtain ⟨⟨rfl, rfl⟩, rfl⟩ := (Prod.mk.inj h).imp Prod.mk.inj id
      exact ⟨(Bool.and_false _).symm, Nat.le_refl _, fun _ => hs, nofun, nofun⟩
    | true =>
      cases hsent : a.sent with
      | true =>
        simp only [hopened, hsent, if_true] at h
        obtain ⟨⟨rfl, rfl⟩, rfl⟩ := (Prod.mk.inj h).imp Prod.mk.inj id
        exact ⟨rfl, Nat.le_succ _, nofun, nofun, fun _ _ => ⟨sockets, rfl, Nat.le_refl _, Nat.lt_succ_self _⟩⟩
      | false =>
        simp only [hopened, hsent, Bool.false_eq_true, if_true, if_false] at h
        obtain ⟨⟨rfl, rfl⟩, rfl⟩ := (Prod.mk.inj h).imp Prod.mk.inj id
        exact ⟨rfl, Nat.le_succ _, fun _ => rfl, nofun, nofun⟩

/-- The socket that `send_to_target` leaves: the one it found, a new one, or none. -/
theorem sendToTarget_spec {client : Address} {flow flow' : Flow} {sockets sockets' : ℕ} {first second : Attempt}
    (h : sendToTarget client flow sockets first second = (flow', sockets')) : sockets ≤ sockets' ∧
      if reopens flow.socket.isSome first second = true then ∃ n, flow'.socket = some n ∧ sockets ≤ n ∧ n < sockets'
      else flow'.socket = none ∨ flow'.socket = flow.socket := by
  unfold sendToTarget at h
  rcases hfirst : sendOnce client flow sockets first with ⟨⟨flow1, sockets1⟩, ok⟩
  obtain ⟨hok, hle, hfail, hkept, hnew⟩ := sendOnce_spec hfirst
  rw [hfirst] at h
  cases ok with
  | true =>
    obtain ⟨rfl, rfl⟩ := Prod.mk.inj h
    refine ⟨hle, ?_⟩
    obtain ⟨hsent, hready⟩ := (Bool.and_eq_true _ _).mp hok.symm
    cases hs : flow.socket with
    | some n =>
      have hkeep : reopens (some n).isSome first second = false := by simp [reopens, hsent]
      rw [if_neg (by rw [hkeep]; exact Bool.false_ne_true)]
      exact Or.inr (by rw [hkept rfl (by rw [hs]; rfl), hs])
    | none =>
      have hopened : first.opened = true := by simpa [hs] using hready
      have hreopens : reopens (none : Option ℕ).isSome first second = true := by simp [reopens, hsent, hopened]
      rw [if_pos hreopens]
      exact hnew rfl hs
  | false =>
    have hclosed : flow1.socket = none := hfail rfl
    rcases hsecond : sendOnce client flow1 sockets1 second with ⟨⟨flow2, sockets2⟩, ok2⟩
    obtain ⟨hok2, hle2, hfail2, -, hnew2⟩ := sendOnce_spec hsecond
    change (sendOnce client flow1 sockets1 second).1 = (flow', sockets') at h
    rw [hsecond] at h
    obtain ⟨rfl, rfl⟩ := Prod.mk.inj h
    -- The first attempt left no socket, so the second one decides.
    have hreopens : reopens flow.socket.isSome first second = (second.opened && second.sent) := by
      unfold reopens
      cases hs : flow.socket with
      | some n =>
        have hunsent : first.sent = false := by simpa [hs] using hok.symm
        simp [hunsent]
      | none =>
        have hunsent : (first.opened && first.sent) = false := by
          rw [Bool.and_comm]
          simpa [hs] using hok.symm
        simp [hunsent]
    rw [hreopens]
    rw [hclosed, Option.isSome_none, Bool.false_or, Bool.and_comm] at hok2
    refine ⟨by omega, ?_⟩
    rw [← hok2]
    cases ok2 with
    | true =>
      obtain ⟨n, hn, hlo, hhi⟩ := hnew2 rfl hclosed
      rw [if_pos rfl]
      exact ⟨n, hn, by omega, hhi⟩
    | false =>
      rw [if_neg Bool.false_ne_true]
      exact Or.inl (hfail2 rfl)

/-- The sockets after the datagram: a new one in the slot that it reopens, elsewhere the one that was there or none. -/
theorem receive_spec {s s' : Relay} {listener : Revents} {datagram : Datagram} (h : receive s listener datagram = some s') :
    s.sockets ≤ s'.sockets ∧ s'.running = s.running ∧ ∀ j,
      (Reopened s listener datagram j → ∃ n, (s'.flows j).socket = some n ∧ s.sockets ≤ n ∧ n < s'.sockets) ∧
      (¬ Reopened s listener datagram j → (s'.flows j).socket = none ∨ (s'.flows j).socket = (s.flows j).socket) := by
  -- An iteration without a datagram.
  have hsame : (∀ j, ¬ Reopened s listener datagram j) → some s = some s' → s.sockets ≤ s'.sockets ∧
      s'.running = s.running ∧ ∀ j,
      (Reopened s listener datagram j → ∃ n, (s'.flows j).socket = some n ∧ s.sockets ≤ n ∧ n < s'.sockets) ∧
      (¬ Reopened s listener datagram j → (s'.flows j).socket = none ∨ (s'.flows j).socket = (s.flows j).socket) := by
    intro hnone heq
    obtain rfl := Option.some.inj heq
    exact ⟨Nat.le_refl _, rfl, fun j => ⟨fun hj => absurd hj (hnone j), fun _ => Or.inr rfl⟩⟩
  unfold receive at h
  by_cases hin : listener.pollin = true
  · rw [if_pos hin] at h
    cases datagram with
    | again =>
      refine hsame (fun j hj => ?_) h
      obtain ⟨client, first, second, -, hd, -⟩ := hj
      cases hd
    | failed => cases h
    | received client first second =>
      rcases hfind : findFlow s.flows client with ⟨i, flows⟩
      rcases hsend : sendToTarget client (flows i) s.sockets first second with ⟨flow, sockets⟩
      simp only [hfind, hsend] at h
      obtain rfl := Option.some.inj h
      obtain ⟨hother, hslot⟩ := findFlow_spec s.flows client hfind
      obtain ⟨hle, hsocket⟩ := sendToTarget_spec hsend
      have hown : (flows i).socket.isSome = (s.flows i).serves client := by
        cases hserves : (s.flows i).serves client with
        | true =>
          rw [hserves, if_pos rfl] at hslot
          rw [hslot]
          exact ((Bool.and_eq_true _ _).mp hserves).1
        | false =>
          rw [hserves, if_neg Bool.false_ne_true] at hslot
          rw [hslot]
          rfl
      have hreopened : ∀ j, Reopened s listener (.received client first second) j ↔
          j = i ∧ reopens (flows i).socket.isSome first second = true := by
        intro j
        constructor
        · rintro ⟨client', first', second', -, hd, hj, hr⟩
          obtain ⟨rfl, rfl, rfl⟩ := Datagram.received.inj hd
          rw [hfind] at hj
          obtain rfl : i = j := hj
          exact ⟨rfl, by rw [hown]; exact hr⟩
        · rintro ⟨rfl, hr⟩
          exact ⟨client, first, second, hin, rfl, by rw [hfind], by rw [← hown]; exact hr⟩
      refine ⟨hle, rfl, fun j => ?_⟩
      rw [hreopened j]
      by_cases hj : j = i
      · subst hj
        change (_ → ∃ n, (Function.update flows j flow j).socket = some n ∧ _) ∧
          (_ → (Function.update flows j flow j).socket = none ∨ (Function.update flows j flow j).socket = _)
        rw [Function.update_self]
        by_cases hr : reopens (flows j).socket.isSome first second = true
        · rw [if_pos hr] at hsocket
          exact ⟨fun _ => hsocket, fun hn => absurd ⟨rfl, hr⟩ hn⟩
        · rw [if_neg hr] at hsocket
          refine ⟨fun hr' => absurd hr'.2 hr, fun _ => ?_⟩
          rcases hsocket with hnone | hkept
          · exact Or.inl hnone
          · rw [hkept]
            by_cases hserves : (s.flows j).serves client = true
            · rw [if_pos hserves] at hslot
              exact Or.inr (congrArg Flow.socket hslot)
            · rw [if_neg hserves] at hslot
              exact Or.inl hslot
      · refine ⟨fun hj' => absurd hj'.1 hj, fun _ => Or.inr ?_⟩
        change (Function.update flows i flow j).socket = _
        rw [Function.update_of_ne hj, hother j hj]
  · rw [if_neg hin] at h
    refine hsame (fun j hj => ?_) h
    obtain ⟨-, -, -, hin', -⟩ := hj
    exact hin hin'

theorem scanFlow_handled {flow : Flow} {r : Revents} {reply : Reply} {h : Handled} (hh : (scanFlow flow r reply).2 = some h) :
    flow.socket = some h.socket ∧ h.use.reportedBy r = true := by
  unfold scanFlow at hh
  cases hs : flow.socket with
  | none =>
    rw [hs] at hh
    cases hh
  | some n =>
    rw [hs] at hh
    dsimp only at hh
    split_ifs at hh with hbroken hin
    · obtain rfl := Option.some.inj hh
      exact ⟨rfl, hbroken⟩
    · obtain rfl := Option.some.inj hh
      exact ⟨rfl, hin⟩

/-- A socket that an event was reported for is handled. -/
theorem scanFlow_loud {flow : Flow} {r : Revents} {n : ℕ} (reply : Reply) (hs : flow.socket = some n)
    (hr : r.quiet = false) : ∃ use, (scanFlow flow r reply).2 = some ⟨n, use⟩ := by
  unfold scanFlow
  rw [hs]
  dsimp only
  by_cases hbroken : r.broken = true
  · rw [if_pos hbroken]
    exact ⟨_, rfl⟩
  · have hin : r.pollin = true := by simpa [Revents.quiet, hbroken] using hr
    rw [if_neg hbroken, if_pos hin]
    exact ⟨_, rfl⟩

theorem scanFlow_socket (flow : Flow) (r : Revents) (reply : Reply) :
    (scanFlow flow r reply).1.socket = none ∨ (scanFlow flow r reply).1.socket = flow.socket := by
  unfold scanFlow
  cases hs : flow.socket with
  | none => exact Or.inl hs
  | some n =>
    dsimp only
    split_ifs
    · exact Or.inl rfl
    · cases reply with
      | unread | unsent => exact Or.inl rfl
      | sent now => exact Or.inr rfl
    · exact Or.inr hs

/-- How an iteration goes: it ends the loop, does nothing, or gets to the slots. -/
theorem iterate_cases (s : Relay) (r : Round) :
    iterate s r = (s.ended, fun _ => none) ∨ iterate s r = (s, fun _ => none) ∨
      ∃ listener reported s', r.stopping = false ∧ r.poll = .ready listener reported ∧ listener.broken = false ∧
        receive s listener r.datagram = some s' ∧
        iterate s r = ({ s' with flows := fun i => expire r.now (scanned s s' reported r i).1 },
          fun i => (scanned s s' reported r i).2) := by
  unfold iterate
  cases hstop : r.stopping with
  | true => exact Or.inl rfl
  | false =>
    cases hpoll : r.poll with
    | interrupted => exact Or.inr (Or.inl rfl)
    | failed => exact Or.inl rfl
    | ready listener reported =>
      cases hbroken : listener.broken with
      | true => exact Or.inl (by simp [hbroken])
      | false =>
        cases hreceive : receive s listener r.datagram with
        | none => exact Or.inl (by simp [hbroken, hreceive])
        | some s' =>
          exact Or.inr (Or.inr ⟨listener, reported, s', rfl, rfl, hbroken, hreceive, by simp [hbroken, hreceive]⟩)

theorem Inv.step {s s' : Relay} {r : Round} (hs : Inv s) (h : step s r = some s') : Inv s' := by
  unfold UdpProxy.step at h
  split_ifs at h
  obtain rfl := Option.some.inj h
  obtain he | he | ⟨listener, reported, s1, -, -, -, hreceive, he⟩ := iterate_cases s r
  · rw [he]
    exact fun _ _ hn => nomatch hn
  · rw [he]
    exact hs
  · rw [he]
    obtain ⟨hle, -, hslots⟩ := receive_spec hreceive
    intro i n hn
    have hscan : (s1.flows i).socket = some n := by
      unfold expire scanned at hn
      dsimp only at hn
      split_ifs at hn
      · cases hn
      · rcases scanFlow_socket (s1.flows i) (revents s.flows reported i) (r.replies i) with hnone | hkept
        · rw [hnone] at hn
          cases hn
        · rw [← hkept]
          exact hn
    by_cases hr : Reopened s listener r.datagram i
    · obtain ⟨m, hm, -, hlt⟩ := (hslots i).1 hr
      rw [hscan] at hm
      obtain rfl := Option.some.inj hm
      exact hlt
    · rcases (hslots i).2 hr with hnone | hkept
      · rw [hnone] at hscan
        cases hscan
      · exact lt_of_lt_of_le (hs i n (by rw [← hkept]; exact hscan)) hle

theorem Inv.ownPoll_iff {s : Relay} (hs : Inv s) (r : Round) : OwnPoll s r ↔ KeepsSocket s r := by
  constructor
  · intro hown listener reported hstop hpoll hbroken i hr hsome
    by_contra hquiet
    obtain ⟨n, hn⟩ := Option.isSome_iff_exists.mp hsome
    obtain ⟨s1, hreceive⟩ : ∃ s1, receive s listener r.datagram = some s1 := by
      obtain ⟨client, first, second, hin, hd, -⟩ := hr
      unfold receive
      rw [if_pos hin, hd]
      exact ⟨_, rfl⟩
    obtain ⟨m, hm, hfresh, -⟩ := ((receive_spec hreceive).2.2 i).1 hr
    have hloud : (revents s.flows reported i).quiet = false := by
      rw [revents, if_pos hsome]
      exact Bool.eq_false_of_not_eq_true hquiet
    obtain ⟨use, huse⟩ := scanFlow_loud (r.replies i) hm hloud
    have hhandled : (iterate s r).2 i = some ⟨m, use⟩ := by
      simp only [iterate, hstop, hpoll, hbroken, hreceive, Bool.false_eq_true, if_false]
      exact huse
    obtain ⟨-, -, -, hpolled, -⟩ := hown i _ hhandled
    exact absurd (hs i m hpolled) (not_lt.mpr hfresh)
  · intro hkeeps i h hhandled
    obtain he | he | ⟨listener, reported, s1, hstop, hpoll, hbroken, hreceive, he⟩ := iterate_cases s r
    · rw [he] at hhandled
      cases hhandled
    · rw [he] at hhandled
      cases hhandled
    · rw [he] at hhandled
      obtain ⟨hsocket, huse⟩ := scanFlow_handled hhandled
      have hsome : (s.flows i).socket.isSome = true := by
        by_contra hnone
        rw [revents, if_neg hnone] at huse
        revert huse
        cases h.use <;> exact Bool.false_ne_true
      rw [revents, if_pos hsome] at huse
      refine ⟨listener, reported, hpoll, ?_, huse⟩
      by_cases hr : Reopened s listener r.datagram i
      · -- Nothing was reported for this slot.
        have hquiet := hkeeps listener reported hstop hpoll hbroken i hr hsome
        unfold Revents.quiet at hquiet
        obtain ⟨hin, hwhole⟩ := (Bool.and_eq_true _ _).mp hquiet
        rw [Bool.not_eq_true'] at hin hwhole
        revert huse
        cases h.use with
        | close => exact fun huse => absurd (hwhole.symm.trans huse) Bool.false_ne_true
        | recv => exact fun huse => absurd (hin.symm.trans huse) Bool.false_ne_true
      · rcases ((receive_spec hreceive).2.2 i).2 hr with hnone | hkept
        · rw [hnone] at hsocket
          cases hsocket
        · rw [← hkept]
          exact hsocket

/-- **The relay uses a socket only on what `poll` reported for this socket**, in every run whose iterations keep the
sockets of reported slots, and in no other. -/
theorem ownPoll_iff_keepsSocket (stack : Slot → Address × ℤ) (rs : List Round) :
    Steps.All step OwnPoll (start stack) rs ↔ Steps.All step KeepsSocket (start stack) rs :=
  Steps.all_iff (fun _ r hs => hs.ownPoll_iff r) (fun _ _ _ hs h => hs.step h) (Inv.start stack) rs

/-! ## A socket that is replaced -/

/-- A datagram of one client, and what `poll` reports for the first slot. -/
def datagramRound (first second : Attempt) (reply : Bool) : Round where
  stopping := false
  poll := .ready ⟨true, false, false, false⟩ fun i => ⟨reply && decide (i = 0), false, false, false⟩
  datagram := .received ⟨0x0100007f, 5000⟩ first second
  replies _ := .sent 10
  now := 10

/-- The first datagram opens a socket.  A reply arrives, and in the same iteration the next datagram cannot be sent through
that socket but through a new one, which is then read. -/
def replaced : List Round :=
  [datagramRound ⟨true, 10, true, 10⟩ ⟨true, 10, true, 10⟩ false,
    datagramRound ⟨true, 10, false, 10⟩ ⟨true, 10, true, 10⟩ true]

theorem replaced_not_ownPoll : ¬ Steps.All step OwnPoll (start fun _ => (⟨0, 0⟩, 0)) replaced := by
  intro h
  obtain ⟨-, hrest⟩ := h
  obtain ⟨hown, -⟩ := hrest _ rfl
  obtain ⟨-, -, -, hsocket, -⟩ := hown 0 ⟨1, .recv⟩ (by decide)
  exact absurd hsocket (by decide)

end Hamn.Host.UdpProxy
