import Hamn.Host.UdpProxy

/-!
# UdpIsolation — the flows of the UDP relay and their clients

What the datagrams of the relay's clients and of its target have to do with each other, over whole runs.

* `Owned`: every socket carries the datagrams of one client, and a slot that holds it holds that client.  `Owned.send`,
  `Owned.answer` and `Owned.close` are what an iteration does to it.
* `evicts_spec`: a flow is closed for a new client where no slot is free, and it is an oldest one.
* `Relay.Same`: relays that differ in the slots without a socket only.  They decide the same.
-/

namespace Hamn.Host.UdpProxy

/-! ## What a run sends -/

inductive Traffic where
  /-- A datagram of `client` is given to `send` on the socket. -/
  | sent (socket : ℕ) (client : Address)
  /-- A datagram that was received on the socket is given to `sendto` for `client`. -/
  | replied (socket : ℕ) (client : Address)
  deriving DecidableEq

/-- The socket that one turn of `send_to_target` calls `send` on. -/
def sendOnceOn (flow : Flow) (sockets : ℕ) (a : Attempt) : Option ℕ :=
  match flow.socket with
  | some n => some n
  | none => if a.opened then some sockets else none

/-- The sockets that `send_to_target` calls `send` on. -/
def sendsOn (client : Address) (flow : Flow) (sockets : ℕ) (first second : Attempt) : List ℕ :=
  match sendOnce client flow sockets first with
  | (_, true) => (sendOnceOn flow sockets first).toList
  | ((flow', sockets'), false) => (sendOnceOn flow sockets first).toList ++ (sendOnceOn flow' sockets' second).toList

/-- The slot that `find_flow` gives to the datagram of the iteration. -/
def chosen (s : Relay) (listener : Revents) (datagram : Datagram) : Option Slot :=
  match datagram with
  | .received client _ _ => if listener.pollin then some (findFlow s.flows client).1 else none
  | .again | .failed => none

/-- What is sent for the datagram of the iteration. -/
def forwarded (s : Relay) (listener : Revents) (datagram : Datagram) : List Traffic :=
  match datagram with
  | .received client first second =>
    if listener.pollin then
      let (i, flows) := findFlow s.flows client
      (sendsOn client (flows i) s.sockets first second).map fun n => .sent n client
    else []
  | .again | .failed => []

/-- What the turn of slot `i` sends to the client of its flow. -/
def answered (s s' : Relay) (reported : Slot → Revents) (r : Round) (i : Slot) : Option Traffic :=
  match (scanned s s' reported r i).2, r.replies i with
  | some ⟨n, .recv⟩, .unsent | some ⟨n, .recv⟩, .sent _ => some (.replied n (s'.flows i).client)
  | _, _ => none

/-- What an iteration decides: the slot for its datagram, what it sends, what it does to the sockets that were reported,
and the sockets of the slots after it. -/
structure Decisions where
  slot : Option Slot := none
  traffic : List Traffic := []
  handled : Slot → Option Handled
  after : Slot → Option ℕ
  running : Bool

def decisionsOf (s : Relay) (r : Round) : Decisions :=
  let rest : Decisions :=
    { handled := (iterate s r).2, after := fun i => ((iterate s r).1.flows i).socket, running := (iterate s r).1.running }
  match r.stopping, r.poll with
  | false, .ready listener reported =>
    if listener.broken then rest
    else
      match receive s listener r.datagram with
      | none => { rest with slot := chosen s listener r.datagram }
      | some s' =>
        { rest with
          slot := chosen s listener r.datagram
          traffic := forwarded s listener r.datagram ++
            (List.finRange MAX_FLOWS).filterMap (answered s s' reported r) }
  | _, _ => rest

/-- The decisions of a run, one iteration after the other. -/
def decisions (s : Relay) : List Round → List Decisions
  | [] => []
  | r :: rs => if s.running then decisionsOf s r :: decisions (iterate s r).1 rs else []

def traffic (s : Relay) (rs : List Round) : List Traffic := (decisions s rs).flatMap Decisions.traffic

/-! ## One client for each socket -/

/-- No two open flows have the same client. -/
def Distinct (flows : Flows) : Prop :=
  ∀ i j, (flows i).socket.isSome = true → (flows j).socket.isSome = true → (flows i).client = (flows j).client → i = j

/-- The clients whose datagrams went through a socket are one client, and a reply goes to the client of a datagram that
went through its socket before. -/
structure Answered (h : List Traffic) : Prop where
  one : ∀ n c c', .sent n c ∈ h → .sent n c' ∈ h → c = c'
  reply : ∀ k n c, h[k]? = some (.replied n c) → .sent n c ∈ h.take k

/-- The flows after `h` was sent. -/
structure Owned (flows : Flows) (sockets : ℕ) (h : List Traffic) : Prop extends Answered h where
  distinct : Distinct flows
  client : ∀ i n, (flows i).socket = some n → .sent n (flows i).client ∈ h
  opened : ∀ n c, .sent n c ∈ h → n < sockets

theorem Owned.start (stack : Slot → Address × ℤ) : Owned (start stack).flows 0 [] where
  one _ _ _ h := absurd h List.not_mem_nil
  reply _ _ _ h := by simp at h
  distinct _ _ h := nomatch h
  client _ _ h := nomatch h
  opened _ _ h := absurd h List.not_mem_nil

/-- Slots that lose their sockets, or get another time of their last activity. -/
theorem Owned.close {flows flows' : Flows} {sockets : ℕ} {h : List Traffic} (ho : Owned flows sockets h)
    (hclose : ∀ i, (flows' i).socket = none ∨
      (flows' i).socket = (flows i).socket ∧ (flows' i).client = (flows i).client) : Owned flows' sockets h where
  toAnswered := ho.toAnswered
  opened := ho.opened
  distinct i j hi hj hc := by
    rcases hclose i with hnone | ⟨hsi, hci⟩
    · rw [hnone] at hi
      cases hi
    · rcases hclose j with hnone | ⟨hsj, hcj⟩
      · rw [hnone] at hj
        cases hj
      · rw [hsi] at hi
        rw [hsj] at hj
        exact ho.distinct i j hi hj (by rw [← hci, hc, hcj])
  client i n hn := by
    rcases hclose i with hnone | ⟨hs, hc⟩
    · rw [hnone] at hn
      cases hn
    · rw [hc]
      exact ho.client i n (hs ▸ hn)

/-- Datagrams of client `c` on its own socket or on new ones, and what is then in its slot. -/
theorem Owned.send {flows : Flows} {sockets sockets' : ℕ} {h : List Traffic} (ho : Owned flows sockets h) {i : Slot}
    {c : Address} (hother : ∀ j, j ≠ i → (flows j).socket.isSome = true → (flows j).client ≠ c) {ns : List ℕ}
    (hle : sockets ≤ sockets') (hns : ∀ n ∈ ns, .sent n c ∈ h ∨ sockets ≤ n ∧ n < sockets') {flow : Flow}
    (hflow : flow.socket = none ∨ ∃ n ∈ ns, flow.socket = some n ∧ flow.client = c) :
    Owned (Function.update flows i flow) sockets' (h ++ ns.map fun n => .sent n c) := by
  have hmem : ∀ n c', Traffic.sent n c' ∈ h ++ ns.map (fun n => Traffic.sent n c) ↔
      .sent n c' ∈ h ∨ n ∈ ns ∧ c' = c := by
    intro n c'
    rw [List.mem_append, List.mem_map]
    refine or_congr_right ⟨?_, ?_⟩
    · rintro ⟨m, hm, heq⟩
      obtain ⟨rfl, rfl⟩ := Traffic.sent.inj heq
      exact ⟨hm, rfl⟩
    · rintro ⟨hn, rfl⟩
      exact ⟨n, hn, rfl⟩
  -- A socket that carried another client's datagram is none of the sockets.
  have hold : ∀ n c', .sent n c' ∈ h → n ∈ ns → c' = c := by
    intro n c' hsent hn
    rcases hns n hn with hown | ⟨hlo, -⟩
    · exact ho.one n c' c hsent hown
    · exact absurd (ho.opened n c' hsent) (not_lt.mpr hlo)
  have hslot : ∀ j, (Function.update flows i flow j).socket.isSome = true →
      j = i ∧ (Function.update flows i flow j).client = c ∨
        j ≠ i ∧ Function.update flows i flow j = flows j ∧ (flows j).client ≠ c := by
    intro j hj
    by_cases hji : j = i
    · subst hji
      rw [Function.update_self] at hj ⊢
      rcases hflow with hnone | ⟨n, -, -, hc⟩
      · rw [hnone] at hj
        cases hj
      · exact Or.inl ⟨rfl, hc⟩
    · rw [Function.update_of_ne hji] at hj ⊢
      exact Or.inr ⟨hji, rfl, hother j hji hj⟩
  constructor
  · constructor
    · intro n c1 c2 h1 h2
      rw [hmem] at h1 h2
      rcases h1 with h1 | ⟨hn, rfl⟩
      · rcases h2 with h2 | ⟨hn, rfl⟩
        · exact ho.one n c1 c2 h1 h2
        · exact hold n c1 h1 hn
      · rcases h2 with h2 | ⟨-, rfl⟩
        · exact (hold n c2 h2 hn).symm
        · rfl
    · intro k n c' hk
      by_cases hlt : k < h.length
      · rw [List.getElem?_append_left hlt] at hk
        rw [List.take_append_of_le_length hlt.le]
        exact ho.reply k n c' hk
      · rw [List.getElem?_append_right (not_lt.mp hlt), List.getElem?_map] at hk
        obtain ⟨m, -, heq⟩ := Option.map_eq_some_iff.mp hk
        cases heq
  · intro j k hj hk hc
    rcases hslot j hj with ⟨rfl, hjc⟩ | ⟨hji, hju, hjc⟩
    · rcases hslot k hk with ⟨rfl, -⟩ | ⟨-, hku, hkc⟩
      · rfl
      · rw [hku, hjc] at hc
        exact absurd hc.symm hkc
    · rw [hju] at hc hj
      rcases hslot k hk with ⟨rfl, hkc⟩ | ⟨-, hku, -⟩
      · rw [hkc] at hc
        exact absurd hc hjc
      · rw [hku] at hc hk
        exact ho.distinct j k hj hk hc
  · intro j n hn
    rw [hmem]
    rcases hslot j (by rw [hn]; rfl) with ⟨rfl, hjc⟩ | ⟨-, hju, -⟩
    · rw [Function.update_self] at hn
      rcases hflow with hnone | ⟨m, hm, hsocket, -⟩
      · rw [hnone] at hn
        cases hn
      · rw [hsocket] at hn
        obtain rfl := Option.some.inj hn
        exact Or.inr ⟨hm, hjc⟩
    · rw [hju] at hn ⊢
      exact Or.inl (ho.client j n hn)
  · intro n c' hsent
    rw [hmem] at hsent
    rcases hsent with hsent | ⟨hn, rfl⟩
    · exact (ho.opened n c' hsent).trans_le hle
    · rcases hns n hn with hown | ⟨-, hlt⟩
      · exact (ho.opened n c' hown).trans_le hle
      · exact hlt

/-- Replies to the clients of the flows whose sockets they were received on. -/
theorem Owned.answer {flows : Flows} {sockets : ℕ} {h rs : List Traffic} (ho : Owned flows sockets h)
    (hrs : ∀ t ∈ rs, ∃ i n, (flows i).socket = some n ∧ t = .replied n (flows i).client) : Owned flows sockets (h ++ rs) := by
  have hmem : ∀ n c, .sent n c ∈ h ++ rs → .sent n c ∈ h := by
    intro n c hsent
    rcases List.mem_append.mp hsent with hsent | hsent
    · exact hsent
    · obtain ⟨i, m, -, heq⟩ := hrs _ hsent
      cases heq
  constructor
  · constructor
    · exact fun n c c' h1 h2 => ho.one n c c' (hmem n c h1) (hmem n c' h2)
    · intro k n c hk
      by_cases hlt : k < h.length
      · rw [List.getElem?_append_left hlt] at hk
        rw [List.take_append_of_le_length hlt.le]
        exact ho.reply k n c hk
      · rw [List.getElem?_append_right (not_lt.mp hlt)] at hk
        obtain ⟨i, m, hm, heq⟩ := hrs _ (List.mem_of_getElem? hk)
        obtain ⟨rfl, rfl⟩ := Traffic.replied.inj heq
        rw [List.take_append, List.take_of_length_le (not_lt.mp hlt)]
        exact List.mem_append_left _ (ho.client i n hm)
  · exact ho.distinct
  · exact fun i n hn => List.mem_append_left _ (ho.client i n hn)
  · exact fun n c hsent => ho.opened n c (hmem n c hsent)

/-! ## An iteration -/

/-- The socket of one turn is the one in the slot or a new one, and it is in the slot where the turn succeeds. -/
theorem sendOnce_on {client : Address} {flow flow' : Flow} {sockets sockets' : ℕ} {a : Attempt} {ok : Bool}
    (h : sendOnce client flow sockets a = ((flow', sockets'), ok)) (hown : ∀ n, flow.socket = some n → flow.client = client) :
    sockets ≤ sockets' ∧
      (∀ n ∈ sendOnceOn flow sockets a, flow.socket = some n ∨ sockets ≤ n ∧ n < sockets') ∧
      if ok = true then ∃ n ∈ sendOnceOn flow sockets a, flow'.socket = some n ∧ flow'.client = client
      else flow'.socket = none := by
  unfold sendOnce at h
  unfold sendOnceOn
  cases hs : flow.socket with
  | some n =>
    rw [hs] at h
    dsimp only at h
    have hon : ∀ m ∈ some n, some n = some m ∨ sockets ≤ m ∧ m < sockets := fun m hm => Or.inl hm
    split_ifs at h
    · obtain ⟨⟨rfl, rfl⟩, rfl⟩ := (Prod.mk.inj h).imp Prod.mk.inj id
      exact ⟨Nat.le_refl _, hon, n, rfl, rfl, hown n hs⟩
    · obtain ⟨⟨rfl, rfl⟩, rfl⟩ := (Prod.mk.inj h).imp Prod.mk.inj id
      exact ⟨Nat.le_refl _, hon, rfl⟩
  | none =>
    rw [hs] at h
    dsimp only at h ⊢
    by_cases hopened : a.opened = true
    · rw [if_pos hopened] at h ⊢
      have hon : ∀ m ∈ some sockets, none = some m ∨ sockets ≤ m ∧ m < sockets + 1 := by
        rintro m ⟨⟩
        exact Or.inr ⟨Nat.le_refl _, Nat.lt_succ_self _⟩
      split_ifs at h
      · obtain ⟨⟨rfl, rfl⟩, rfl⟩ := (Prod.mk.inj h).imp Prod.mk.inj id
        exact ⟨Nat.le_succ _, hon, sockets, rfl, rfl, rfl⟩
      · obtain ⟨⟨rfl, rfl⟩, rfl⟩ := (Prod.mk.inj h).imp Prod.mk.inj id
        exact ⟨Nat.le_succ _, hon, rfl⟩
    · rw [if_neg hopened] at h ⊢
      obtain ⟨⟨rfl, rfl⟩, rfl⟩ := (Prod.mk.inj h).imp Prod.mk.inj id
      exact ⟨Nat.le_refl _, nofun, hs⟩

theorem sendToTarget_on {client : Address} {flow flow' : Flow} {sockets sockets' : ℕ} {first second : Attempt}
    (h : sendToTarget client flow sockets first second = (flow', sockets'))
    (hown : ∀ n, flow.socket = some n → flow.client = client) :
    sockets ≤ sockets' ∧
      (∀ n ∈ sendsOn client flow sockets first second, flow.socket = some n ∨ sockets ≤ n ∧ n < sockets') ∧
      (flow'.socket = none ∨
        ∃ n ∈ sendsOn client flow sockets first second, flow'.socket = some n ∧ flow'.client = client) := by
  unfold sendToTarget at h
  unfold sendsOn
  rcases hfirst : sendOnce client flow sockets first with ⟨⟨flow1, sockets1⟩, ok⟩
  obtain ⟨hle, hon, hok⟩ := sendOnce_on hfirst hown
  rw [hfirst] at h
  cases ok with
  | true =>
    obtain ⟨rfl, rfl⟩ := Prod.mk.inj h
    obtain ⟨n, hn, hsocket⟩ := hok
    exact ⟨hle, fun m hm => hon m (Option.mem_toList.mp hm), Or.inr ⟨n, Option.mem_toList.mpr hn, hsocket⟩⟩
  | false =>
    have hclosed : flow1.socket = none := hok
    rcases hsecond : sendOnce client flow1 sockets1 second with ⟨⟨flow2, sockets2⟩, ok2⟩
    obtain ⟨hle2, hon2, hok2⟩ := sendOnce_on hsecond (by rw [hclosed]; exact nofun)
    change (sendOnce client flow1 sockets1 second).1 = (flow', sockets') at h
    rw [hsecond] at h
    obtain ⟨rfl, rfl⟩ := Prod.mk.inj h
    refine ⟨hle.trans hle2, fun m hm => ?_, ?_⟩
    · rcases List.mem_append.mp hm with hm | hm
      · exact (hon m (Option.mem_toList.mp hm)).imp id fun hnew => ⟨hnew.1, hnew.2.trans_le hle2⟩
      · rcases hon2 m (Option.mem_toList.mp hm) with hkept | hnew
        · rw [hclosed] at hkept
          cases hkept
        · exact Or.inr ⟨hle.trans hnew.1, hnew.2⟩
    · cases ok2 with
      | true =>
        obtain ⟨n, hn, hsocket⟩ := hok2
        exact Or.inr ⟨n, List.mem_append_right _ (Option.mem_toList.mpr hn), hsocket⟩
      | false => exact Or.inl hok2

/-- No other slot has a flow of the client. -/
theorem findFlow_other {flows : Flows} (hd : Distinct flows) {client : Address} {i : Slot} {flows' : Flows}
    (h : findFlow flows client = (i, flows')) :
    ∀ j, j ≠ i → (flows j).socket.isSome = true → (flows j).client ≠ client := by
  intro j hj hsome hc
  have hserves : (flows j).serves client = true := by simp [Flow.serves, hsome, hc]
  unfold findFlow at h
  split at h
  · rename_i k hfind
    obtain ⟨rfl, -⟩ := Prod.mk.inj h
    have hk := List.find?_some hfind
    simp only [Flow.serves, Bool.and_eq_true, decide_eq_true_eq] at hk
    exact hj (hd j k hsome hk.1 (hc.trans hk.2.symm))
  · rename_i hnone
    exact absurd hserves (List.find?_eq_none.mp hnone j (List.mem_finRange j))

theorem Owned.receive {s s' : Relay} {h : List Traffic} (ho : Owned s.flows s.sockets h) {listener : Revents}
    {datagram : Datagram} (hr : receive s listener datagram = some s') :
    Owned s'.flows s'.sockets (h ++ forwarded s listener datagram) := by
  have hsame : some s = some s' → forwarded s listener datagram = [] →
      Owned s'.flows s'.sockets (h ++ forwarded s listener datagram) := by
    intro heq hnone
    obtain rfl := Option.some.inj heq
    rw [hnone, List.append_nil]
    exact ho
  unfold UdpProxy.receive at hr
  by_cases hin : listener.pollin = true
  · rw [if_pos hin] at hr
    cases datagram with
    | again => exact hsame hr rfl
    | failed => cases hr
    | received client first second =>
      rcases hfind : findFlow s.flows client with ⟨i, flows⟩
      rcases hsend : sendToTarget client (flows i) s.sockets first second with ⟨flow, sockets⟩
      simp only [hfind, hsend] at hr
      obtain rfl := Option.some.inj hr
      obtain ⟨hkept, hslot⟩ := findFlow_spec s.flows client hfind
      have hother := findFlow_other ho.distinct hfind
      have hown : ∀ n, (flows i).socket = some n → (flows i).client = client ∧ flows i = s.flows i := by
        intro n hn
        by_cases hserves : (s.flows i).serves client = true
        · rw [if_pos hserves] at hslot
          simp only [Flow.serves, Bool.and_eq_true, decide_eq_true_eq] at hserves
          exact ⟨by rw [hslot]; exact hserves.2, hslot⟩
        · rw [if_neg hserves, hn] at hslot
          cases hslot
      obtain ⟨hle, hon, hflow⟩ := sendToTarget_on hsend fun n hn => (hown n hn).1
      have hclosed : Owned flows s.sockets h := by
        refine ho.close fun j => ?_
        by_cases hj : j = i
        · subst hj
          cases hs : (flows j).socket with
          | none => exact Or.inl rfl
          | some n =>
            rw [← (hown n hs).2]
            exact Or.inr ⟨hs.symm, rfl⟩
        · rw [hkept j hj]
          exact Or.inr ⟨rfl, rfl⟩
      have hforwarded : forwarded s listener (.received client first second) =
          (sendsOn client (flows i) s.sockets first second).map fun n => .sent n client := by
        simp only [forwarded, hin, hfind, if_true]
      rw [hforwarded]
      refine hclosed.send (fun j hj hsome => ?_) hle (fun n hn => ?_) hflow
      · rw [hkept j hj] at hsome ⊢
        exact hother j hj hsome
      · rcases hon n hn with hs | hnew
        · exact Or.inl ((hown n hs).1 ▸ hclosed.client i n hs)
        · exact Or.inr hnew
  · rw [if_neg hin] at hr
    refine hsame hr ?_
    unfold forwarded
    cases datagram with
    | again | failed => rfl
    | received => exact if_neg hin

theorem scanFlow_kept (flow : Flow) (r : Revents) (reply : Reply) (now : ℤ) :
    (expire now (scanFlow flow r reply).1).socket = none ∨
      (expire now (scanFlow flow r reply).1).socket = flow.socket ∧
        (expire now (scanFlow flow r reply).1).client = flow.client := by
  have hscan : (scanFlow flow r reply).1.socket = none ∨
      (scanFlow flow r reply).1.socket = flow.socket ∧ (scanFlow flow r reply).1.client = flow.client := by
    unfold scanFlow
    cases hs : flow.socket with
    | none => exact Or.inl hs
    | some n =>
      dsimp only
      split_ifs
      · exact Or.inl rfl
      · cases reply with
        | unread | unsent => exact Or.inl rfl
        | sent now => exact Or.inr ⟨rfl, rfl⟩
      · exact Or.inr ⟨hs, rfl⟩
  unfold expire
  split_ifs
  · exact Or.inl rfl
  · exact hscan

theorem answered_eq_some {s s' : Relay} {reported : Slot → Revents} {r : Round} {i : Slot} {t : Traffic}
    (h : answered s s' reported r i = some t) :
    ∃ n, (s'.flows i).socket = some n ∧ t = .replied n (s'.flows i).client := by
  unfold answered at h
  cases hh : (scanned s s' reported r i).2 with
  | none =>
    rw [hh] at h
    cases h
  | some handled =>
    obtain ⟨n, use⟩ := handled
    have hsocket := (scanFlow_handled hh).1
    rw [hh] at h
    cases use with
    | close => cases h
    | recv =>
      refine ⟨n, hsocket, ?_⟩
      cases hreply : r.replies i with
      | unread =>
        rw [hreply] at h
        cases h
      | unsent | sent =>
        rw [hreply] at h
        exact (Option.some.inj h).symm

/-- What an iteration keeps. -/
theorem Owned.iterate {s : Relay} {h : List Traffic} (ho : Owned s.flows s.sockets h) (r : Round) :
    Owned (iterate s r).1.flows (iterate s r).1.sockets (h ++ (decisionsOf s r).traffic) := by
  have hended : Owned s.ended.flows s.ended.sockets (h ++ []) := by
    rw [List.append_nil]
    exact ho.close fun i => Or.inl rfl
  have hsame : Owned s.flows s.sockets (h ++ []) := by
    rw [List.append_nil]
    exact ho
  unfold UdpProxy.iterate decisionsOf
  cases r.stopping with
  | true => exact hended
  | false =>
    cases r.poll with
    | interrupted => exact hsame
    | failed => exact hended
    | ready listener reported =>
      by_cases hbroken : listener.broken = true
      · simpa [hbroken] using hended
      · cases hreceive : UdpProxy.receive s listener r.datagram with
        | none => simpa [hbroken, hreceive] using hended
        | some s' =>
          have hsent := ho.receive hreceive
          have hreplied := hsent.answer fun t (ht : t ∈ (List.finRange MAX_FLOWS).filterMap (answered s s' reported r)) => by
            obtain ⟨i, -, hi⟩ := List.mem_filterMap.mp ht
            obtain ⟨n, hn, rfl⟩ := answered_eq_some hi
            exact ⟨i, n, hn, rfl⟩
          simp only [Bool.false_eq_true, if_false, hbroken, hreceive]
          rw [← List.append_assoc]
          exact hreplied.close fun i => scanFlow_kept _ _ _ _

/-! ## Eviction -/

/-- `find_flow` closes the open flow in slot `i` for the client. -/
def Evicts (flows : Flows) (client : Address) (i : Slot) : Prop :=
  (flows i).socket.isSome = true ∧ ((findFlow flows client).2 i).socket = none

theorem foldl_oldest (flows : Flows) (slots : List Slot) (o : Slot) :
    let r := slots.foldl (fun oldest i => if (flows i).activeAt < (flows oldest).activeAt then i else oldest) o
    (flows r).activeAt ≤ (flows o).activeAt ∧ ∀ i ∈ slots, (flows r).activeAt ≤ (flows i).activeAt := by
  induction slots generalizing o with
  | nil => exact ⟨le_refl _, fun i hi => absurd hi List.not_mem_nil⟩
  | cons j slots ih =>
    rw [List.foldl_cons]
    by_cases hlt : (flows j).activeAt < (flows o).activeAt
    · rw [if_pos hlt]
      obtain ⟨hj, hrest⟩ := ih j
      exact ⟨hj.trans hlt.le, List.forall_mem_cons.mpr ⟨hj, hrest⟩⟩
    · rw [if_neg hlt]
      obtain ⟨ho, hrest⟩ := ih o
      exact ⟨ho, List.forall_mem_cons.mpr ⟨ho.trans (not_lt.mp hlt), hrest⟩⟩

theorem oldest_le (flows : Flows) (i : Slot) : (flows (oldest flows)).activeAt ≤ (flows i).activeAt :=
  (foldl_oldest flows (List.finRange MAX_FLOWS) 0).2 i (List.mem_finRange i)

/-- Every slot has a flow, none of them the client's, and the one that is closed is an oldest one. -/
theorem evicts_spec {flows : Flows} {client : Address} {i : Slot} (h : Evicts flows client i) :
    ∀ j, (flows j).socket.isSome = true ∧ (flows j).serves client = false ∧
      (flows i).activeAt ≤ (flows j).activeAt := by
  obtain ⟨hopen, hclosed⟩ := h
  unfold findFlow at hclosed
  split at hclosed
  · rw [Option.isSome_iff_ne_none] at hopen
    exact absurd hclosed hopen
  · rename_i hother
    split at hclosed
    · rw [Option.isSome_iff_ne_none] at hopen
      exact absurd hclosed hopen
    · rename_i hfull
      have hi : i = oldest flows := by
        by_contra hne
        rw [Option.isSome_iff_ne_none] at hopen
        dsimp only at hclosed
        rw [Function.update_of_ne hne] at hclosed
        exact hopen hclosed
      intro j
      refine ⟨?_, ?_, hi ▸ oldest_le flows j⟩
      · simpa [Option.isSome_iff_ne_none] using List.find?_eq_none.mp hfull j (List.mem_finRange j)
      · exact Bool.eq_false_of_not_eq_true (List.find?_eq_none.mp hother j (List.mem_finRange j))

/-! ## Slots without a socket -/

/-- Flows that are the same, or have no socket. -/
def Flow.Same (f g : Flow) : Prop := f = g ∨ f.socket = none ∧ g.socket = none

theorem Flow.Same.socket {f g : Flow} (h : f.Same g) : f.socket = g.socket := by
  rcases h with rfl | ⟨hf, hg⟩
  · rfl
  · rw [hf, hg]

theorem Flow.Same.serves {f g : Flow} (h : f.Same g) (client : Address) : f.serves client = g.serves client := by
  rcases h with rfl | ⟨hf, hg⟩
  · rfl
  · unfold Flow.serves
    rw [hf, hg]
    rfl

/-- Relays that differ in the clients and the times of slots without a socket only. -/
structure Relay.Same (s t : Relay) : Prop where
  flows : ∀ i, (s.flows i).Same (t.flows i)
  sockets : s.sockets = t.sockets
  running : s.running = t.running

theorem Relay.Same.start (stack stack' : Slot → Address × ℤ) : (start stack).Same (start stack') :=
  ⟨fun _ => Or.inr ⟨rfl, rfl⟩, rfl, rfl⟩

theorem findFlow_same {flows flows' : Flows} (h : ∀ i, (flows i).Same (flows' i)) (client : Address) :
    (findFlow flows client).1 = (findFlow flows' client).1 ∧
      ∀ i, ((findFlow flows client).2 i).Same ((findFlow flows' client).2 i) := by
  have hserves : (fun i => (flows i).serves client) = fun i => (flows' i).serves client :=
    funext fun i => (h i).serves client
  have hfree : (fun i => (flows i).socket.isNone) = fun i => (flows' i).socket.isNone :=
    funext fun i => by rw [(h i).socket]
  unfold findFlow
  rw [hserves, hfree]
  split
  · exact ⟨rfl, h⟩
  · split
    · exact ⟨rfl, h⟩
    · rename_i hfull
      -- Every slot has a socket here, so the flows are the same.
      have heq : flows = flows' := by
        funext i
        rcases h i with heq | ⟨-, hnone⟩
        · exact heq
        · have := List.find?_eq_none.mp hfull i (List.mem_finRange i)
          rw [hnone] at this
          exact absurd rfl this
      rw [heq]
      exact ⟨rfl, fun i => Or.inl rfl⟩

theorem sendOnce_same {f g : Flow} (h : f.Same g) (client : Address) (sockets : ℕ) (a : Attempt) :
    sendOnceOn f sockets a = sendOnceOn g sockets a ∧
      (sendOnce client f sockets a).2 = (sendOnce client g sockets a).2 ∧
      (sendOnce client f sockets a).1.2 = (sendOnce client g sockets a).1.2 ∧
      (sendOnce client f sockets a).1.1.Same (sendOnce client g sockets a).1.1 := by
  rcases h with rfl | ⟨hf, hg⟩
  · exact ⟨rfl, rfl, rfl, Or.inl rfl⟩
  · unfold sendOnceOn sendOnce
    rw [hf, hg]
    dsimp only
    refine ⟨rfl, ?_⟩
    split_ifs
    · exact ⟨rfl, rfl, Or.inl rfl⟩
    · exact ⟨rfl, rfl, Or.inl rfl⟩
    · exact ⟨rfl, rfl, Or.inr ⟨hf, hg⟩⟩

theorem sendToTarget_same {f g : Flow} (h : f.Same g) (client : Address) (sockets : ℕ) (first second : Attempt) :
    sendsOn client f sockets first second = sendsOn client g sockets first second ∧
      (sendToTarget client f sockets first second).2 = (sendToTarget client g sockets first second).2 ∧
      (sendToTarget client f sockets first second).1.Same (sendToTarget client g sockets first second).1 := by
  obtain ⟨hon, hok, hcount, hflow⟩ := sendOnce_same h client sockets first
  unfold sendsOn sendToTarget
  rcases hf : sendOnce client f sockets first with ⟨⟨f', n⟩, ok⟩
  rcases hg : sendOnce client g sockets first with ⟨⟨g', m⟩, ok'⟩
  rw [hf, hg] at hok hcount hflow
  obtain rfl : ok = ok' := hok
  obtain rfl : n = m := hcount
  cases ok with
  | true => exact ⟨by rw [hon], rfl, hflow⟩
  | false =>
    obtain ⟨hon2, -, hcount2, hflow2⟩ := sendOnce_same hflow client n second
    exact ⟨by dsimp only; rw [hon, hon2], hcount2, hflow2⟩

theorem receive_same {s t : Relay} (h : s.Same t) (listener : Revents) (datagram : Datagram) :
    chosen s listener datagram = chosen t listener datagram ∧
      forwarded s listener datagram = forwarded t listener datagram ∧
      Option.Rel Relay.Same (receive s listener datagram) (receive t listener datagram) := by
  unfold chosen forwarded receive
  by_cases hin : listener.pollin = true
  · rw [if_pos hin, if_pos hin]
    cases datagram with
    | again => exact ⟨rfl, rfl, .some h⟩
    | failed => exact ⟨rfl, rfl, .none⟩
    | received client first second =>
      obtain ⟨hslot, hflows⟩ := findFlow_same h.flows client
      obtain ⟨hon, hcount, hflow⟩ :=
        sendToTarget_same (hflows (findFlow s.flows client).1) client s.sockets first second
      simp only [hin, if_true]
      rw [← hslot, ← h.sockets, hon]
      refine ⟨rfl, rfl, .some ⟨fun k => ?_, hcount, h.running⟩⟩
      dsimp only
      by_cases hk : k = (findFlow s.flows client).1
      · subst hk
        rw [Function.update_self, Function.update_self]
        exact hflow
      · rw [Function.update_of_ne hk, Function.update_of_ne hk]
        exact hflows k
  · rw [if_neg hin, if_neg hin]
    cases datagram with
    | again | failed => exact ⟨rfl, rfl, .some h⟩
    | received => exact ⟨by simp [hin], by simp [hin], .some h⟩

theorem scanFlow_same {f g : Flow} (h : f.Same g) (r : Revents) (reply : Reply) (now : ℤ) :
    (scanFlow f r reply).2 = (scanFlow g r reply).2 ∧
      (expire now (scanFlow f r reply).1).Same (expire now (scanFlow g r reply).1) := by
  rcases h with rfl | ⟨hf, hg⟩
  · exact ⟨rfl, Or.inl rfl⟩
  · unfold scanFlow expire
    rw [hf, hg]
    dsimp only
    rw [hf, hg]
    exact ⟨rfl, Or.inr ⟨hf, hg⟩⟩

theorem iterate_same {s t : Relay} (h : s.Same t) (r : Round) :
    (iterate s r).1.Same (iterate t r).1 ∧ (iterate s r).2 = (iterate t r).2 := by
  have hended : s.ended.Same t.ended := ⟨fun _ => Or.inl rfl, h.sockets, rfl⟩
  unfold iterate
  cases r.stopping with
  | true => exact ⟨hended, rfl⟩
  | false =>
    cases r.poll with
    | interrupted => exact ⟨h, rfl⟩
    | failed => exact ⟨hended, rfl⟩
    | ready listener reported =>
      by_cases hbroken : listener.broken = true
      · simpa [hbroken] using hended
      · have hrel := (receive_same h listener r.datagram).2.2
        simp only [Bool.false_eq_true, if_false, hbroken]
        cases hs : receive s listener r.datagram with
        | none =>
          rw [hs] at hrel
          cases ht : receive t listener r.datagram with
          | none => exact ⟨hended, rfl⟩
          | some t' =>
            rw [ht] at hrel
            cases hrel
        | some s' =>
          rw [hs] at hrel
          cases ht : receive t listener r.datagram with
          | none =>
            rw [ht] at hrel
            cases hrel
          | some t' =>
            rw [ht] at hrel
            have hst := Option.rel_some_some.mp hrel
            have hscan := fun i => scanFlow_same (hst.flows i) (revents s.flows reported i) (r.replies i) r.now
            have hrevents : ∀ i, revents s.flows reported i = revents t.flows reported i := by
              intro i
              unfold revents
              rw [(h.flows i).socket]
            simp only [scanned, ← hrevents]
            exact ⟨⟨fun i => (hscan i).2, hst.sockets, hst.running⟩, funext fun i => (hscan i).1⟩

theorem decisionsOf_same {s t : Relay} (h : s.Same t) (r : Round) : decisionsOf s r = decisionsOf t r := by
  obtain ⟨hafter, hhandled⟩ := iterate_same h r
  have hsockets : (fun i => ((iterate s r).1.flows i).socket) = fun i => ((iterate t r).1.flows i).socket :=
    funext fun i => (hafter.flows i).socket
  unfold decisionsOf
  rw [hhandled, hsockets, hafter.running]
  cases r.stopping with
  | true => rfl
  | false =>
    cases r.poll with
    | interrupted | failed => rfl
    | ready listener reported =>
      obtain ⟨hslot, hsent, hrel⟩ := receive_same h listener r.datagram
      dsimp only
      rw [hslot, hsent]
      by_cases hbroken : listener.broken = true
      · rw [if_pos hbroken, if_pos hbroken]
      · rw [if_neg hbroken, if_neg hbroken]
        cases hs : receive s listener r.datagram with
        | none =>
          rw [hs] at hrel
          cases ht : receive t listener r.datagram with
          | none => rfl
          | some t' =>
            rw [ht] at hrel
            cases hrel
        | some s' =>
          rw [hs] at hrel
          cases ht : receive t listener r.datagram with
          | none =>
            rw [ht] at hrel
            cases hrel
          | some t' =>
            rw [ht] at hrel
            have hst := Option.rel_some_some.mp hrel
            have hanswered : answered s s' reported r = answered t t' reported r := by
              funext i
              have hrevents : revents s.flows reported i = revents t.flows reported i := by
                unfold revents
                rw [(h.flows i).socket]
              unfold answered scanned
              rw [hrevents]
              rcases hst.flows i with heq | ⟨hf, hg⟩
              · rw [heq]
              · unfold scanFlow
                rw [hf, hg]
            dsimp only
            rw [hanswered]

/-- Relays that differ in slots without a socket decide the same in every run. -/
theorem decisions_same {s t : Relay} (h : s.Same t) (rs : List Round) : decisions s rs = decisions t rs := by
  induction rs generalizing s t with
  | nil => rfl
  | cons r rs ih =>
    unfold decisions
    rw [h.running, decisionsOf_same h r, ih (iterate_same h r).1]

/-! ## Runs -/

/-- What is promised of the state `s` and the iteration `r`: the open flows have different clients before the iteration,
after its datagram and after it, and a flow that is closed for a new client has been active no later than the flow in any
other slot, all of which are open. -/
def Isolated (s : Relay) (r : Round) : Prop :=
  Distinct s.flows ∧ Distinct (iterate s r).1.flows ∧
    (∀ listener s', receive s listener r.datagram = some s' → Distinct s'.flows) ∧
    ∀ client i, Evicts s.flows client i → ∀ j, (s.flows j).socket.isSome = true ∧ (s.flows j).serves client = false ∧
      (s.flows i).activeAt ≤ (s.flows j).activeAt

theorem Owned.isolated {s : Relay} {h : List Traffic} (ho : Owned s.flows s.sockets h) (r : Round) : Isolated s r :=
  ⟨ho.distinct, (ho.iterate r).distinct, fun _ _ hr => (ho.receive hr).distinct, fun _ _ he => evicts_spec he⟩

theorem Owned.traffic {s : Relay} {h : List Traffic} (ho : Owned s.flows s.sockets h) (rs : List Round) :
    Answered (h ++ traffic s rs) := by
  induction rs generalizing s h with
  | nil =>
    rw [UdpProxy.traffic, decisions, List.flatMap_nil, List.append_nil]
    exact ho.toAnswered
  | cons r rs ih =>
    unfold UdpProxy.traffic decisions
    by_cases hrunning : s.running = true
    · rw [if_pos hrunning, List.flatMap_cons, ← List.append_assoc]
      exact ih (ho.iterate r)
    · rw [if_neg hrunning, List.flatMap_nil, List.append_nil]
      exact ho.toAnswered

/-- **The flows of the clients are kept apart**: in every run the open flows have different clients, what is received on a
socket goes to the one client whose datagrams went through it, a flow is evicted only where every slot has one and none of
them was active before it, and what the stack held in the slots decides nothing. -/
theorem flows_isolated (stack : Slot → Address × ℤ) (rs : List Round) :
    Steps.All step Isolated (start stack) rs ∧ Answered (traffic (start stack) rs) ∧
      ∀ stack', decisions (start stack') rs = decisions (start stack) rs := by
  have hstart := Owned.start stack
  refine ⟨?_, ?_, fun stack' => decisions_same (Relay.Same.start stack' stack) rs⟩
  · have hstep : ∀ s r s', (∃ h, Owned s.flows s.sockets h) → step s r = some s' →
        ∃ h, Owned s'.flows s'.sockets h := by
      rintro s r s' ⟨h, ho⟩ hs
      unfold step at hs
      split_ifs at hs
      obtain rfl := Option.some.inj hs
      exact ⟨_, ho.iterate r⟩
    exact Steps.all_of_inv (fun _ r ⟨_, ho⟩ => ho.isolated r) hstep ⟨[], hstart⟩ rs
  · exact hstart.traffic rs

end Hamn.Host.UdpProxy
