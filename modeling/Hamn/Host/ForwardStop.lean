import Hamn.Host.Forwarding

/-!
# ForwardStop — that what is stopped is gone

The calls that only look, end relays and cancel listeners are specified by what may happen while they run (`Later`).

* `udpRelayState_spec`: what the look at a relay establishes.
* `stopRecord_spec`: nothing is left of what a record covered once it was stopped.
-/

open Bytes Crash
open Proc (fold note)

namespace Hamn.Forward

/-! ## Time -/

/-- `w'` comes after `w`, and nothing has been requested or started since. -/
structure Since (w w' : World) : Prop where
  pass : w'.pass = w.pass
  answered : w'.answered = w.answered
  held : ∀ k ∈ w'.held, k ∈ w.held
  relays : ∀ r ∈ w'.relays, r ∈ w.relays
  pidfile : ∀ key p, w'.pidfile key = .names p →
    w.pidfile key = .names p ∨ ∃ r ∈ w.relays, r.key = key ∧ r.process = p
  master : (w.master = false → w.held = []) → w'.master = false → w'.held = []

/-- Nor has anything been recorded. -/
structure Later (w w' : World) : Prop extends Since w w' where
  file : w'.file = w.file

theorem Since.refl (w : World) : Since w w := ⟨rfl, rfl, fun _ h => h, fun _ h => h, fun _ _ h => .inl h, fun h => h⟩

theorem Since.trans {w1 w2 w3 : World} (h : Since w1 w2) (h' : Since w2 w3) : Since w1 w3 where
  pass := h'.pass.trans h.pass
  answered := h'.answered.trans h.answered
  held k hk := h.held k (h'.held k hk)
  relays r hr := h.relays r (h'.relays r hr)
  pidfile key p hp := by
    rcases h'.pidfile key p hp with hp | ⟨r, hr, hkey, hprocess⟩
    · exact h.pidfile key p hp
    · exact .inr ⟨r, h.relays r hr, hkey, hprocess⟩
  master hm := h'.master (h.master hm)

theorem Later.refl (w : World) : Later w w := ⟨Since.refl w, rfl⟩

theorem Later.trans {w1 w2 w3 : World} (h : Later w1 w2) (h' : Later w2 w3) : Later w1 w3 :=
  ⟨h.toSince.trans h'.toSince, h'.file.trans h.file⟩

theorem Later.event (e : Event) (w : World) : Later w (e.apply w) := by
  have hupdate : ∀ (key : Key) (p : Pidfile), (∀ process, p ≠ .names process) →
      Later w { w with pidfile := Function.update w.pidfile key p } := by
    intro key p hp
    refine ⟨⟨rfl, rfl, fun _ h => h, fun _ h => h, fun key' process h => ?_, fun h => h⟩, rfl⟩
    by_cases hkey : key' = key
    · subst hkey
      exact absurd ((Function.update_self ..).symm.trans h) (hp process)
    · exact .inl ((Function.update_of_ne hkey ..).symm.trans h)
  have hnone : ∀ master, Later w { w with master, held := [] } := fun master =>
    ⟨⟨rfl, rfl, fun _ h => absurd h List.not_mem_nil, fun _ h => h, fun _ _ h => .inl h, fun _ _ => rfl⟩, rfl⟩
  cases e with
  | masterEnded => exact hnone false
  | masterStarted => exact hnone true
  | listenerLost key =>
    refine ⟨⟨rfl, rfl, fun _ h => List.mem_of_mem_filter h, fun _ h => h, fun _ _ h => .inl h, fun h hm => ?_⟩, rfl⟩
    show w.held.filter _ = []
    rw [h hm, List.filter_nil]
  | relayEnded relay =>
    exact ⟨⟨rfl, rfl, fun _ h => h, fun _ h => List.mem_of_mem_filter h, fun _ _ h => .inl h, fun h => h⟩, rfl⟩
  | pidfileWritten relay =>
    unfold Event.apply
    by_cases hr : relay ∈ w.relays
    · dsimp only
      rw [if_pos hr]
      refine ⟨⟨rfl, rfl, fun _ h => h, fun _ h => h, fun key p h => ?_, fun h => h⟩, rfl⟩
      by_cases hkey : key = relay.key
      · subst hkey
        exact .inr ⟨relay, hr, rfl, Pidfile.names.inj ((Function.update_self ..).symm.trans h)⟩
      · exact .inl ((Function.update_of_ne hkey ..).symm.trans h)
    · dsimp only
      rw [if_neg hr]
      exact Later.refl w
  | pidfileRemoved key => exact hupdate key .absent fun _ h => by cases h
  | pidfileBroken key => exact hupdate key .unreadable fun _ h => by cases h

theorem Later.now (c : Cell) (w : World) : Later w (c.now w) := by
  unfold Cell.now
  induction c.events generalizing w with
  | nil => exact Later.refl w
  | cons e events ih => exact (Later.event e w).trans (ih (e.apply w))

/-! ## Rules -/

instance : Std.Refl Later := ⟨Later.refl⟩

instance : IsTrans World Later := ⟨fun _ _ _ => Later.trans⟩

/-- A process after which only time has passed. -/
abbrev during {α : Type} (w : World) (A : α → World → Prop) : Post World Empty α := Crash.during Later w A

theorem wp_act {α : Type} {f : Cell → World → α × World} {stop : World → Prop} {ok : α → World → Prop} {w : World}
    (hstop : stop w) (h : ∀ c w', Later w w' → ok (f c w').1 (f c w').2) : wp (act f) (post stop ok) w :=
  Crash.wp_act Later.now hstop h

theorem during_act {α : Type} {f : Cell → World → α × World} {A : α → World → Prop} {w : World}
    (h : ∀ c w', Later w w' → Later w' (f c w').2 ∧ A (f c w').1 (f c w').2) : wp (act f) (during w A) w :=
  Crash.during_act Later.now h

/-! ## Probes -/

/-- A relay with this identity runs. -/
def Running (i : Identity) (w : World) : Prop := ∃ relay ∈ w.relays, relay.process.val = i

theorem Since.running {i : Identity} {w w' : World} (h : Since w w') (hr : Running i w') : Running i w := by
  obtain ⟨relay, hrelay, hprocess⟩ := hr
  exact ⟨relay, h.relays relay hrelay, hprocess⟩

section Probes

variable {i : Identity} {key : Key} {w : World}

theorem processIdentityValues_spec :
    wp (processIdentityValues i) (during w fun a w' => a = .changed → ¬ Running i w') w := by
  unfold processIdentityValues
  split_ifs with hi
  · exact during_return fun h => by cases h
  · refine during_act fun c w' _ => ⟨Later.refl w', fun h hr => ?_⟩
    have hrunning : ∃ relay ∈ w'.relays, relay.process.val = i := hr
    dsimp only at h
    rw [if_pos hrunning] at h
    split_ifs at h

theorem readPidfile_spec :
    wp (readPidfile key) (during w fun a w' => a ≠ .unreadable → w'.pidfile key = a) w := by
  refine during_act fun c w' _ => ⟨Later.refl w', fun h => ?_⟩
  split_ifs at h with hfault
  · exact absurd rfl h
  · exact (if_neg hfault).symm

theorem removePidfile_spec :
    wp (removePidfile key) (during w fun a w' => a = true → w'.pidfile key = .absent) w := by
  refine during_act fun c w' _ => ?_
  split_ifs
  · exact ⟨Later.refl w', fun h => by cases h⟩
  · exact ⟨Later.event (.pidfileRemoved key) w', fun _ => Function.update_self ..⟩

theorem openUdpListener_spec :
    wp (openUdpListener key) (during w fun a w' => a = true → ∀ relay ∈ w'.relays, relay.key ≠ key) w := by
  refine during_act fun c w' _ => ⟨Later.refl w', fun h relay hrelay hkey => ?_⟩
  simp only [Bool.and_eq_true, Bool.not_eq_true', decide_eq_false_iff_not] at h
  exact h.2 ⟨relay, hrelay, hkey⟩

theorem tcpListenerAvailable_spec :
    wp (tcpListenerAvailable key) (during w fun a w' => a = true → key ∉ w'.held) w := by
  refine during_act fun c w' _ => ⟨Later.refl w', fun h hkey => ?_⟩
  simp only [Bool.and_eq_true, Bool.not_eq_true', decide_eq_false_iff_not] at h
  exact h.2 hkey

theorem sshMasterAlive_spec : wp sshMasterAlive (during w fun a w' => a = w'.master) w :=
  during_act fun _ w' _ => ⟨Later.refl w', rfl⟩

theorem kill_spec : wp kill (during w fun _ _ => True) w := during_act fun _ w' _ => ⟨Later.refl w', trivial⟩

theorem waitpid_spec : wp (waitpid i) (during w fun a w' => a = .ended → ¬ Running i w') w := by
  refine during_act fun c w' _ => ⟨Later.refl w', fun h hr => ?_⟩
  dsimp only at h
  split_ifs at h with hif
  exact hif ⟨h, hr⟩

theorem processAbsent_spec : wp (processAbsent i) (during w fun a w' => a = true → ¬ Running i w') w := by
  refine during_act fun c w' _ => ⟨Later.refl w', fun h hr => ?_⟩
  simp only [Bool.and_eq_true, Bool.not_eq_true', decide_eq_false_iff_not] at h
  exact h.2 hr

theorem waitUdpStopped_spec (n : ℕ) : wp (waitUdpStopped i n) (during w fun a w' => a = true → ¬ Running i w') w := by
  induction n generalizing w with
  | zero =>
    refine during_then processIdentityValues_spec fun a w' _ ha => during_return fun h => ?_
    exact ha (of_decide_eq_true h)
  | succ n ih =>
    refine during_then waitpid_spec fun a w1 _ ha => ?_
    have hprobe : wp (processIdentityValues i >>= fun a =>
        if a = .changed then pure true else waitUdpStopped i n) (during w1 fun a w' => a = true → ¬ Running i w') w1 := by
      refine during_then processIdentityValues_spec fun b w2 _ hb => ?_
      split_ifs with h
      · exact during_return fun _ => hb h
      · exact ih
    cases a with
    | ended => exact during_return fun _ => ha rfl
    | failed => exact during_return fun h => by cases h
    | running => exact hprobe
    | noChild => exact hprobe

theorem signalProcess_spec : wp (signalProcess i) (during w fun _ _ => True) w := by
  unfold signalProcess
  refine during_then kill_spec fun a w1 _ _ => ?_
  split_ifs
  · exact during_return trivial
  · exact during_then processIdentityValues_spec fun _ _ _ _ => during_return trivial

theorem terminateUdpProcess_spec :
    wp (terminateUdpProcess i) (during w fun a w' => a = true → ¬ Running i w') w := by
  unfold terminateUdpProcess
  refine during_then processIdentityValues_spec fun a w1 _ ha => ?_
  split_ifs with hchanged
  · exact during_return fun _ => ha hchanged
  · exact during_return fun h => by cases h
  refine during_then signalProcess_spec fun b w2 _ _ => ?_
  split_ifs
  · exact during_return fun h => by cases h
  refine during_then (waitUdpStopped_spec _) fun d w3 _ hd => ?_
  split_ifs with hstopped
  · exact during_return fun _ => hd hstopped
  refine during_then processIdentityValues_spec fun e w4 _ _ => ?_
  split_ifs
  · exact during_return fun h => by cases h
  refine during_then signalProcess_spec fun f w5 _ _ => ?_
  split_ifs
  · exact during_return fun h => by cases h
  · exact waitUdpStopped_spec _

theorem cancelTcp_spec : wp (cancelTcp key) (during w fun a w' => a = true → key ∉ w'.held) w := by
  refine during_act fun c w' _ => ?_
  split_ifs with h
  · exact ⟨Later.event (.listenerLost key) w', fun _ hmem => by simpa using List.of_mem_filter hmem⟩
  · exact ⟨Later.refl w', fun h => by cases h⟩

/-! ## Stopping a record -/

/-- What a record says of a relay of its listener. -/
def Names (w : World) (r : ForwardRecord) (relay : Relay) : Prop :=
  r.identity = relay.process.val ∨ (r.pid = 0 ∧ ∀ p, w.pidfile relay.key = .names p → p = relay.process)

/-- A record covers a relay. -/
structure Covers (w : World) (r : ForwardRecord) (relay : Relay) : Prop where
  protocol : r.spec.protocol = .udp
  key : r.spec.key = relay.key
  names : Names w r relay

/-- A dead master holds nothing, and a listener has one relay. -/
structure Sane (w : World) : Prop where
  master : w.master = false → w.held = []
  relays : ∀ a ∈ w.relays, ∀ b ∈ w.relays, a.key = b.key → a = b

theorem Sane.since {w w' : World} (hs : Sane w) (h : Since w w') : Sane w' where
  master := h.master hs.master
  relays a ha b hb := hs.relays a (h.relays a ha) b (h.relays b hb)

/-- What is recorded of a running relay stays right. -/
theorem Names.since {w w' : World} {r : ForwardRecord} {relay : Relay} (hs : Sane w) (h : Since w w')
    (hrelay : relay ∈ w'.relays) (hr : Names w r relay) : Names w' r relay := by
  rcases hr with hr | ⟨hpid, hr⟩
  · exact .inl hr
  · refine .inr ⟨hpid, fun p hp => ?_⟩
    rcases h.pidfile _ p hp with hp | ⟨other, hother, hkey, rfl⟩
    · exact hr p hp
    · rw [hs.relays other hother relay (h.relays relay hrelay) hkey]

theorem Covers.since {w w' : World} {r : ForwardRecord} {relay : Relay} (hs : Sane w) (h : Since w w')
    (hrelay : relay ∈ w'.relays) (hr : Covers w r relay) : Covers w' r relay :=
  ⟨hr.protocol, hr.key, hr.names.since hs h hrelay⟩

/-- The record after the look at its relay: as it was, or with the identity from the pidfile. -/
def Filled (r r' : ForwardRecord) : Prop := r' = r ∨ r.pid = 0 ∧ ∃ p : Process, r' = r.setIdentity p.val

/-- `GONE`: no relay that the record covers runs. `RUNNING`: it is the one that is named now. -/
structure Looked (w : World) (r : ForwardRecord) (a : UdpRelay × ForwardRecord) (w' : World) : Prop where
  filled : Filled r a.2
  gone : a.1 = .gone → ∀ relay ∈ w'.relays, ¬ Covers w r relay
  covers : ∀ relay ∈ w'.relays, Covers w r relay → Covers w' a.2 relay
  running : a.1 = .running → ∀ relay ∈ w'.relays, Covers w r relay → a.2.identity = relay.process.val

theorem not_running {i : Identity} {w : World} (h : ¬ Running i w) {relay : Relay} (hrelay : relay ∈ w.relays) :
    relay.process.val ≠ i := fun hi => h ⟨relay, hrelay, hi⟩

theorem udpRelayState_spec {r : ForwardRecord} (hs : Sane w) :
    wp (udpRelayState r) (during w (Looked w r)) w := by
  unfold udpRelayState
  split_ifs with hpid
  · refine during_then processIdentityValues_spec fun a w1 h1 ha => during_return ?_
    have hnames : ∀ relay, Covers w r relay → r.identity = relay.process.val := by
      intro relay hcovers
      exact hcovers.names.resolve_right fun h => hpid h.1
    refine ⟨.inl rfl, fun hgone relay hrelay hcovers => ?_, fun relay hrelay hcovers => hcovers.since hs h1.toSince hrelay,
      fun _ relay _ hcovers => hnames relay hcovers⟩
    cases a with
    | changed => exact not_running (ha rfl) hrelay (hnames relay hcovers).symm
    | unknown => cases hgone
    | same => cases hgone
  · rw [not_not] at hpid
    refine during_then readPidfile_spec fun a w1 h1 ha => ?_
    cases a with
    | unreadable =>
      exact during_return ⟨.inl rfl, (fun h => by cases h), fun relay hrelay hcovers => hcovers.since hs h1.toSince hrelay,
        (fun h => by cases h)⟩
    | absent =>
      refine during_then openUdpListener_spec fun b w2 h2 hb => during_return ?_
      have h := h1.trans h2
      refine ⟨.inl rfl, fun hgone relay hrelay hcovers => ?_, fun relay hrelay hcovers => hcovers.since hs h.toSince hrelay, ?_⟩
      · cases b with
        | true => exact hb rfl relay hrelay hcovers.key.symm
        | false => cases hgone
      · intro hrunning
        cases b <;> cases hrunning
    | names p =>
      refine during_then processIdentityValues_spec fun b w2 h2 hb => during_return ?_
      have h := h1.trans h2
      have hprocess : ∀ relay ∈ w2.relays, Covers w r relay → p = relay.process := by
        intro relay hrelay hcovers
        rcases hcovers.names.since hs h1.toSince (h2.relays relay hrelay) with hidentity | ⟨-, hnames⟩
        · have hgood := relay.process.property.pid.1
          rw [← hidentity] at hgood
          change 1 < r.pid at hgood
          omega
        · exact hnames p (hcovers.key ▸ ha (by simp))
      refine ⟨?_, fun hgone relay hrelay hcovers => ?_, fun relay hrelay hcovers => ?_, fun hrunning relay hrelay hcovers => ?_⟩
      · cases b with
        | same => exact .inr ⟨hpid, p, rfl⟩
        | changed => exact .inl rfl
        | unknown => exact .inl rfl
      · cases b with
        | changed => exact not_running (hb rfl) hrelay (congrArg Subtype.val (hprocess relay hrelay hcovers)).symm
        | same => cases hgone
        | unknown => cases hgone
      · cases b with
        | same =>
          obtain rfl := hprocess relay hrelay hcovers
          exact ⟨hcovers.protocol, hcovers.key, .inl rfl⟩
        | changed => exact hcovers.since hs h.toSince hrelay
        | unknown => exact hcovers.since hs h.toSince hrelay
      · cases b with
        | same =>
          obtain rfl := hprocess relay hrelay hcovers
          rfl
        | changed => cases hrunning
        | unknown => cases hrunning

/-- Nothing is left of what the record covered. -/
structure Gone (w : World) (r : ForwardRecord) (w' : World) : Prop where
  tcp : r.spec.protocol = .tcp → r.spec.key ∉ w'.held
  udp : ∀ relay ∈ w'.relays, ¬ Covers w r relay

theorem stopRecord_spec {r : ForwardRecord} (hs : Sane w) :
    wp (stopRecord r) (during w fun a w' => a = true → Gone w r w') w := by
  unfold stopRecord
  split_ifs with hprotocol
  · have hudp : ∀ w' : World, ∀ relay ∈ w'.relays, ¬ Covers w r relay := fun w' relay _ hcovers => by
      have := hcovers.protocol
      rw [hprotocol] at this
      cases this
    refine during_then cancelTcp_spec fun a w1 h1 ha => ?_
    split_ifs with hcancelled
    · exact during_return fun _ => ⟨fun _ => ha hcancelled, hudp w1⟩
    refine during_then sshMasterAlive_spec fun b w2 h2 hb => ?_
    split_ifs with halive
    · refine during_return fun _ => ⟨fun _ => ?_, hudp w2⟩
      rw [Bool.not_eq_true'] at halive
      rw [(hs.since (h1.trans h2).toSince).master (hb.symm.trans halive)]
      exact List.not_mem_nil
    · exact during_mono tcpListenerAvailable_spec fun c w3 _ hc h => ⟨fun _ => hc h, hudp w3⟩
  · refine during_then (udpRelayState_spec hs) fun a w1 h1 hlooked => ?_
    have hgone : ∀ w', Later w1 w' → (∀ relay ∈ w'.relays, ¬ Covers w r relay) → Gone w r w' :=
      fun w' _ h => ⟨fun h => absurd h hprotocol, h⟩
    obtain ⟨state, relay⟩ := a
    dsimp only
    cases state with
    | unverified => exact during_return fun h => by cases h
    | gone =>
      refine during_mono removePidfile_spec fun b w2 h2 _ _ => hgone w2 h2 fun relay hrelay => ?_
      exact hlooked.gone rfl relay (h2.relays relay hrelay)
    | running =>
      refine during_then terminateUdpProcess_spec fun b w2 h2 hb => ?_
      cases b with
      | false => exact during_return fun h => by cases h
      | true =>
        refine during_mono removePidfile_spec fun d w3 h3 _ _ => hgone w3 (h2.trans h3) fun other hother hcovers => ?_
        have hidentity := hlooked.running rfl other (h2.relays other (h3.relays other hother)) hcovers
        exact not_running (hb rfl) (h3.relays other hother) hidentity.symm

end Probes

end Hamn.Forward
