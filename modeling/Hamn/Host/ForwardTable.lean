import Hamn.Host.ForwardStop

/-!
# ForwardTable — which tables may be written

A table covers a state when every listener and every relay has a record there.  `Inv` says that the table in the file
does, and each part of the three operations keeps it wherever it is stopped.

* `Kept`, `Inv`: the invariant of a table and of a state.
* `reconcileAll_spec`, `stopRecords_spec`: the loops over the records.
* `addTcp_spec`, `startUdp_spec`, `addForward_spec`: a new forward.
-/

open Bytes Crash
open Proc (fold note)

namespace Hamn.Forward

/-! ## Tables that cover everything -/

structure Owned (w : World) (L : List ForwardRecord) : Prop where
  tcp : ∀ key ∈ w.held, ∃ r ∈ L, r.spec.protocol = .tcp ∧ r.spec.key = key
  udp : ∀ relay ∈ w.relays, ∃ r ∈ L, Covers w r relay

/-- A TCP record that is committed was answered. -/
def Confirmed (w : World) (r : ForwardRecord) : Prop :=
  r.spec.protocol = .tcp → r.pending = false → (r.spec, w.pass) ∈ w.answered

/-- No two records claim a listener. -/
def Distinct (L : List ForwardRecord) : Prop := (L.map (·.spec)).Pairwise fun a b => sameListener a b = false

/-- What may be written to the file. -/
structure Kept (w : World) (L : List ForwardRecord) : Prop where
  table : Table L
  distinct : Distinct L
  owned : Owned w L
  confirmed : ∀ r ∈ L, Confirmed w r

structure Inv (p : Pass) (w : World) : Prop where
  pass : w.pass = p
  sane : Sane w
  kept : ∃ L, recordsLoad w.file = some L ∧ Kept w L

/-- What a table says of the ports: which have a record, and whether it is pending. -/
def view (L : List ForwardRecord) : List (PortSpec × Bool) := L.map fun r => (r.spec, r.pending)

/-- What the file says of the ports. -/
def Recorded (w : World) (V : List (PortSpec × Bool)) : Prop := ∃ L, recordsLoad w.file = some L ∧ view L = V

section Kept

variable {p : Pass} {w w' : World} {L A B : List ForwardRecord} {r r' : ForwardRecord}

theorem Confirmed.since (h : Since w w') (hr : Confirmed w r) : Confirmed w' r := by
  intro hprotocol hpending
  rw [h.answered, h.pass]
  exact hr hprotocol hpending

theorem Kept.since (hs : Sane w) (h : Since w w') (hL : Kept w L) : Kept w' L := by
  refine ⟨hL.table, hL.distinct, ⟨fun key hkey => hL.owned.tcp key (h.held key hkey), fun relay hrelay => ?_⟩,
    fun r hr => (hL.confirmed r hr).since h⟩
  obtain ⟨r, hr, hcovers⟩ := hL.owned.udp relay (h.relays relay hrelay)
  exact ⟨r, hr, hcovers.since hs h hrelay⟩

theorem Inv.later (h : Later w w') (hw : Inv p w) : Inv p w' := by
  obtain ⟨L, hL, hkept⟩ := hw.kept
  exact ⟨h.pass.trans hw.pass, hw.sane.since h.toSince, L, h.file ▸ hL, hkept.since hw.sane h.toSince⟩

theorem mem_insert {x : ForwardRecord} (r' : ForwardRecord) (hx : x ∈ A ++ r :: B) : x = r ∨ x ∈ A ++ r' :: B := by
  rcases List.mem_append.mp hx with hx | hx
  · exact .inr (List.mem_append_left _ hx)
  · rcases List.mem_cons.mp hx with rfl | hx
    · exact .inl rfl
    · exact .inr (List.mem_append_right _ (List.mem_cons_of_mem _ hx))

/-- A record may give way to one that covers as much. -/
theorem Kept.replace (hs : Sane w) (hL : Kept w (A ++ r :: B)) (h : Since w w') (hvalid : Valid r')
    (hspec : r'.spec = r.spec) (hcovers : ∀ relay ∈ w'.relays, Covers w r relay → Covers w' r' relay)
    (hconfirmed : Confirmed w' r') : Kept w' (A ++ r' :: B) := by
  have hself : r' ∈ A ++ r' :: B := List.mem_append_right _ List.mem_cons_self
  refine ⟨⟨fun x hx => ?_, ?_⟩, ?_, ⟨fun key hkey => ?_, fun relay hrelay => ?_⟩, fun x hx => ?_⟩
  · rcases mem_insert r hx with rfl | hx
    · exact hvalid
    · exact hL.table.valid x hx
  · have hlength := hL.table.length
    rw [List.length_append, List.length_cons] at hlength ⊢
    exact hlength
  · have hdistinct := hL.distinct
    unfold Distinct at hdistinct ⊢
    rw [List.map_append, List.map_cons] at hdistinct ⊢
    rwa [hspec]
  · obtain ⟨x, hx, hprotocol, hx'⟩ := hL.owned.tcp key (h.held key hkey)
    rcases mem_insert r' hx with rfl | hx
    · exact ⟨r', hself, hspec ▸ hprotocol, hspec ▸ hx'⟩
    · exact ⟨x, hx, hprotocol, hx'⟩
  · obtain ⟨x, hx, hx'⟩ := hL.owned.udp relay (h.relays relay hrelay)
    rcases mem_insert r' hx with rfl | hx
    · exact ⟨r', hself, hcovers relay hrelay hx'⟩
    · exact ⟨x, hx, hx'.since hs h hrelay⟩
  · rcases mem_insert r hx with rfl | hx
    · exact hconfirmed
    · exact (hL.confirmed x hx).since h

/-- A record goes when nothing is left of what it covered. -/
theorem Kept.drop (hs : Sane w) (hL : Kept w (A ++ r :: B)) (h : Since w w') (hgone : Gone w r w') : Kept w' (A ++ B) := by
  have hmem : ∀ x, x ∈ A ++ r :: B → x = r ∨ x ∈ A ++ B := by
    intro x hx
    rcases List.mem_append.mp hx with hx | hx
    · exact .inr (List.mem_append_left _ hx)
    · rcases List.mem_cons.mp hx with rfl | hx
      · exact .inl rfl
      · exact .inr (List.mem_append_right _ hx)
  have hsub : ∀ x, x ∈ A ++ B → x ∈ A ++ r :: B := by
    intro x hx
    rcases List.mem_append.mp hx with hx | hx
    · exact List.mem_append_left _ hx
    · exact List.mem_append_right _ (List.mem_cons_of_mem _ hx)
  refine ⟨⟨fun x hx => hL.table.valid x (hsub x hx), ?_⟩, ?_, ⟨fun key hkey => ?_, fun relay hrelay => ?_⟩,
    fun x hx => (hL.confirmed x (hsub x hx)).since h⟩
  · have hlength := hL.table.length
    rw [List.length_append, List.length_cons] at hlength
    rw [List.length_append]
    omega
  · exact hL.distinct.sublist (((List.Sublist.refl A).append (List.sublist_cons_self r B)).map _)
  · obtain ⟨x, hx, hprotocol, hx'⟩ := hL.owned.tcp key (h.held key hkey)
    rcases hmem x hx with rfl | hx
    · exact absurd (hx' ▸ hkey) (hgone.tcp hprotocol)
    · exact ⟨x, hx, hprotocol, hx'⟩
  · obtain ⟨x, hx, hx'⟩ := hL.owned.udp relay (h.relays relay hrelay)
    rcases hmem x hx with rfl | hx
    · exact absurd hx' (hgone.udp relay hrelay)
    · exact ⟨x, hx, hx'.since hs h hrelay⟩

theorem Inv.saved (hw : Inv p w) (hL : Kept w L) {file : Option Bytes} (hsave : recordsSave L = some file) :
    Inv p { w with file } :=
  ⟨hw.pass, ⟨hw.sane.master, hw.sane.relays⟩, L, recordsLoad_saved hL.table hsave,
    hL.since hw.sane ⟨rfl, rfl, fun _ h => h, fun _ h => h, fun _ _ h => .inl h, fun h => h⟩⟩

theorem since_file (w : World) (file : Option Bytes) : Since w { w with file } :=
  ⟨rfl, rfl, fun _ h => h, fun _ h => h, fun _ _ h => .inl h, fun h => h⟩

/-- What a write of a table leaves. -/
structure Written (p : Pass) (w : World) (L : List ForwardRecord) (a : Bool) (w' : World) : Prop where
  inv : Inv p w'
  since : Since w w'
  saved : a = true → recordsLoad w'.file = some L
  table : w'.file = w.file ∨ recordsLoad w'.file = some L

theorem writeFile_spec {c : Cell} (hw : Inv p w) (hL : Kept w L) : Written p w L (writeFile c w L).1 (writeFile c w L).2 := by
  unfold writeFile
  cases hsave : recordsSave L with
  | none => exact ⟨hw, Since.refl w, (fun h => by cases h), .inl rfl⟩
  | some file =>
    have hinv := hw.saved hL hsave
    dsimp only
    split_ifs
    · exact ⟨hinv, since_file w file, (fun h => by cases h), .inr (recordsLoad_saved hL.table hsave)⟩
    · exact ⟨hw, Since.refl w, (fun h => by cases h), .inl rfl⟩
    · exact ⟨hinv, since_file w file, fun _ => recordsLoad_saved hL.table hsave, .inr (recordsLoad_saved hL.table hsave)⟩

theorem saveRecords_spec (hw : Inv p w) (hL : Kept w L) : wp (saveRecords L) (post (Inv p) (Written p w L)) w := by
  refine wp_act hw fun c w1 h1 => ?_
  have h := @writeFile_spec p w1 L c (hw.later h1) (hL.since hw.sane h1.toSince)
  exact ⟨h.inv, h1.toSince.trans h.since, h.saved, h.table.imp (fun h => h.trans h1.file) fun h => h⟩

theorem loadRecords_spec (hw : Inv p w) :
    wp loadRecords (during w fun a w' => ∀ L, a = some L → recordsLoad w'.file = some L ∧ Kept w' L) w := by
  refine during_act fun c w' h => ⟨Later.refl w', fun L hload => ?_⟩
  dsimp only at hload
  split_ifs at hload
  obtain ⟨L', hL', hkept⟩ := (hw.later h).kept
  obtain rfl := Option.some.inj (hload.symm.trans hL')
  exact ⟨hload, hkept⟩

end Kept

/-! ## Records that change -/

section Change

variable {r r' : ForwardRecord}

theorem Filled.spec (h : Filled r r') : r'.spec = r.spec := by
  rcases h with rfl | ⟨-, p, rfl⟩ <;> rfl

theorem Filled.pending (h : Filled r r') : r'.pending = r.pending := by
  rcases h with rfl | ⟨-, p, rfl⟩ <;> rfl

theorem Filled.valid (h : Filled r r') (hr : Valid r) : Valid r' := by
  rcases h with rfl | ⟨-, p, rfl⟩
  · exact hr
  · have hright := recordWrong_eq_false.mp hr.right
    obtain ⟨hpid, hsec, husec⟩ := p.property
    refine ⟨recordWrong_eq_false.mpr ⟨hright.address, hright.hostPort, hright.containerPort, ?_, husec, ?_,
      hright.ownerPid, hright.ownerStartUsec, hright.owner, hright.ownerStart, hright.ownerPair, hright.submitted,
      hright.serialized, hright.committed⟩, hpid.2, hsec.2, hr.ownerPid, hr.ownerStartSec⟩
    · show 0 ≤ p.val.pid
      omega
    · intro h
      change p.val.startSec = 0 at h
      omega

theorem recordMarkCommitted_valid (hr : Valid r) : Valid (recordMarkCommitted r) := by
  have hright := recordWrong_eq_false.mp hr.right
  have hcommitted : Right (recordMarkCommitted r) := by
    refine ⟨hright.address, hright.hostPort, hright.containerPort, hright.pid, hright.startUsec, hright.start, ?_, ?_, ?_,
      ?_, ?_, ?_, ?_, ?_⟩
    all_goals simp [recordMarkCommitted]
  exact ⟨recordWrong_eq_false.mpr hcommitted, hr.pid, hr.startSec, show (0 : ℤ) < 2 ^ 31 by decide,
    show (0 : ℕ) < 2 ^ 64 by decide⟩

theorem Covers.same {w : World} {relay : Relay} (h : Covers w r relay) (hspec : r'.spec = r.spec)
    (hidentity : r'.identity = r.identity) : Covers w r' relay := by
  refine ⟨hspec ▸ h.protocol, hspec ▸ h.key, ?_⟩
  rcases h.names with hr | ⟨hpid, hr⟩
  · exact .inl (hidentity.trans hr)
  · exact .inr ⟨(congrArg Identity.pid hidentity).trans hpid, hr⟩

end Change

/-! ## Records that stay or go -/

section Loops

variable {w : World} {A B : List ForwardRecord}

theorem stopRecords_spec (hs : Sane w) :
    ∀ (L : List ForwardRecord) (A : List ForwardRecord), Kept w (A ++ L) →
      wp (stopRecords L) (during w fun kept w' => Kept w' (A ++ kept)) w := by
  intro L
  induction L generalizing w with
  | nil => exact fun A hL => during_return hL
  | cons r L ih =>
    intro A hL
    refine during_then (stopRecord_spec hs) fun a w1 h1 ha => ?_
    have hs1 := hs.since h1.toSince
    cases a with
    | true =>
      refine during_then (ih hs1 A (hL.drop hs h1.toSince (ha rfl))) fun kept w2 _ hkept => during_return ?_
      exact hkept
    | false =>
      have hkeep : Kept w1 ((A ++ [r]) ++ L) := by
        rw [List.append_assoc, List.singleton_append]
        exact hL.since hs h1.toSince
      refine during_then (ih hs1 (A ++ [r]) hkeep) fun kept w2 _ hkept => during_return ?_
      rwa [List.append_assoc, List.singleton_append] at hkept

theorem sameForward_iff {a b : PortSpec} : sameForward a b = true ↔ a = b := by
  obtain ⟨ip, port, container, protocol⟩ := a
  obtain ⟨ip', port', container', protocol'⟩ := b
  simp only [sameForward, decide_eq_true_eq, PortSpec.mk.injEq]
  tauto

/-- What one record makes of the variables. -/
inductive Reconciled (specs : List PortSpec) (s : Sync) (r : ForwardRecord) : Sync → Prop where
  /-- The record is gone. -/
  | dropped : Reconciled specs s r s
  /-- A record of no published port, which could not be stopped. -/
  | stale : Reconciled specs s r { s with kept := s.kept ++ [r], failed := true }
  /-- The record of a published port, with the relay that it has now. -/
  | kept (i : ℕ) (r' : ForwardRecord) (hi : specs[i]? = some r.spec) (hforwardable : specForwardable r.spec = true)
      (hspec : r'.spec = r.spec) : Reconciled specs s r
        { s with
          kept := s.kept ++ [r']
          recorded := s.recorded.set i (if r'.pending then .unconfirmed else .forwarded) }
  /-- The record of a published port without a relay that answers for it. -/
  | lost (i : ℕ) (r' : ForwardRecord) (reason : ForwardFailure) (hi : specs[i]? = some r.spec)
      (hforwardable : specForwardable r.spec = true) (hspec : r'.spec = r.spec) : Reconciled specs s r
        { s with
          kept := s.kept ++ [r']
          recorded := s.recorded.set i .forwarded
          failures := s.failures ++ [⟨r'.spec, reason⟩]
          failed := true }

theorem reconcile_spec {specs : List PortSpec} {s : Sync} {r : ForwardRecord} (hs : Sane w)
    (hL : Kept w (s.kept ++ r :: B)) :
    wp (reconcile specs s r) (during w fun s' w' => Kept w' (s'.kept ++ B) ∧ Reconciled specs s r s') w := by
  have happend : ∀ (w' : World) (r' : ForwardRecord), Kept w' (s.kept ++ r' :: B) →
      Kept w' (s.kept ++ [r'] ++ B) := by
    intro w' r' h
    rwa [List.append_assoc, List.singleton_append]
  unfold reconcile
  cases hfind : specs.findIdx? fun spec => sameForward r.spec spec && specForwardable spec with
  | none =>
    refine during_then (stopRecord_spec hs) fun a w1 h1 ha => ?_
    split_ifs with hstopped
    · exact during_return ⟨hL.drop hs h1.toSince (ha hstopped), .dropped⟩
    · exact during_return ⟨happend w1 r (hL.since hs h1.toSince), .stale⟩
  | some desired =>
    obtain ⟨hi, hmatch, -⟩ := List.findIdx?_eq_some_iff_getElem.mp hfind
    rw [Bool.and_eq_true] at hmatch
    have hdesired : specs[desired]? = some r.spec := by
      rw [List.getElem?_eq_getElem hi, sameForward_iff.mp hmatch.1]
    have hforwardable : specForwardable r.spec = true := by
      rw [sameForward_iff.mp hmatch.1]
      exact hmatch.2
    dsimp only
    split_ifs with hudp hpending
    · refine during_then (udpRelayState_spec hs) fun a w1 h1 hlooked => ?_
      obtain ⟨relay, r'⟩ := a
      have hvalid : Valid r' := hlooked.filled.valid (hL.table.valid r (List.mem_append_right _ List.mem_cons_self))
      have hspec : r'.spec = r.spec := hlooked.filled.spec
      have hprotocol : r'.spec.protocol = .udp := hspec ▸ hudp
      have hconfirmed : ∀ x : ForwardRecord, x.spec = r'.spec → Confirmed w1 x := by
        intro x hx hx'
        rw [hx, hprotocol] at hx'
        cases hx'
      have hs1 := hs.since h1.toSince
      have hkept : Kept w1 (s.kept ++ r' :: B) :=
        hL.replace hs h1.toSince hvalid hspec hlooked.covers (hconfirmed r' rfl)
      have hrest : ∀ w2 : World, Later w1 w2 → Kept w2 (s.kept ++ r' :: B) := fun w2 h2 => hkept.since hs1 h2.toSince
      have hunstopped : wp (pure false : Op Bool) (during w1 fun b _ => b = false) w1 := during_return rfl
      cases relay with
      | gone =>
        refine during_then (stopRecord_spec hs1) fun b w2 h2 hb => ?_
        cases b with
        | true => exact during_return ⟨hkept.drop hs1 h2.toSince (hb rfl), .dropped⟩
        | false =>
          exact during_return ⟨happend w2 r' (hrest w2 h2), .lost desired r' .other hdesired hforwardable hspec⟩
      | running =>
        refine during_then hunstopped fun b w2 h2 hb => ?_
        subst hb
        by_cases hpending : r'.pending = true
        · have hmarked : Kept w2 (s.kept ++ recordMarkCommitted r' :: B) :=
            (hrest w2 h2).replace (hs1.since h2.toSince) (Since.refl w2) (recordMarkCommitted_valid hvalid) rfl
              (fun other _ hcovers => hcovers.same rfl rfl) ((hconfirmed (recordMarkCommitted r') rfl).since h2.toSince)
          have hresult := Reconciled.kept (s := s) desired (recordMarkCommitted r') hdesired hforwardable hspec
          refine during_return ?_
          rw [if_pos hpending]
          exact ⟨happend w2 _ hmarked, hresult⟩
        · have hresult := Reconciled.kept (s := s) desired r' hdesired hforwardable hspec
          rw [if_neg hpending] at hresult
          refine during_return ?_
          rw [if_neg hpending]
          exact ⟨happend w2 _ (hrest w2 h2), hresult⟩
      | unverified =>
        refine during_then hunstopped fun b w2 h2 hb => ?_
        subst hb
        exact during_return
          ⟨happend w2 r' (hrest w2 h2), .lost desired r' .relayUnverified hdesired hforwardable hspec⟩
    · have hresult := Reconciled.kept (s := s) desired r hdesired hforwardable rfl
      rw [if_pos hpending] at hresult
      exact during_return ⟨happend w r hL, hresult⟩
    · have hresult := Reconciled.kept (s := s) desired r hdesired hforwardable rfl
      rw [if_neg hpending] at hresult
      exact during_return ⟨happend w r hL, hresult⟩

/-- The records that are left, and what holds of the variables while every record keeps it. -/
theorem reconcileAll_spec {specs : List PortSpec} {P : Sync → Prop}
    (hP : ∀ s r B s', Distinct (s.kept ++ r :: B) → Reconciled specs s r s' → P s → P s') :
    ∀ (L : List ForwardRecord) {w : World} {s : Sync}, Sane w → Kept w (s.kept ++ L) → P s →
      wp (fold (reconcile specs) s L) (during w fun s' w' => Kept w' s'.kept ∧ P s') w
  | [], w, s, _, hL, hs' => by
    rw [List.append_nil] at hL
    exact during_return ⟨hL, hs'⟩
  | r :: L, w, s, hs, hL, hs' => by
    refine during_then (reconcile_spec hs hL) fun s' w1 h1 hL' => ?_
    exact reconcileAll_spec hP L (hs.since h1.toSince) hL'.1 (hP s r L s' hL.distinct hL'.2 hs')

end Loops

/-! ## One slot of a table -/

theorem exists_slot {α : Type} {L : List α} {i : ℕ} {r : α} (h : L[i]? = some r) : ∃ A B, L = A ++ r :: B ∧
    (∀ r', L.set i r' = A ++ r' :: B) ∧ (∀ f : α → α, L.modify i f = A ++ f r :: B) ∧ L.eraseIdx i = A ++ B := by
  obtain ⟨hi, rfl⟩ := List.getElem?_eq_some_iff.mp h
  refine ⟨L.take i, L.drop (i + 1), ?_, fun r' => ?_, fun f => ?_, ?_⟩
  · rw [List.getElem_cons_drop, List.take_append_drop]
  · rw [List.set_eq_take_append_cons_drop, if_pos hi]
  · rw [List.modify_eq_take_cons_drop hi]
  · rw [List.eraseIdx_eq_take_drop_succ]

/-! ## Requests to the master -/

section Tcp

variable {p : Pass} {w : World} {L : List ForwardRecord} {slot : ℕ} {r : ForwardRecord}

/-- A TCP record covers no relay. -/
theorem not_covers (h : r.spec.protocol = .tcp) {relay : Relay} : ¬ Covers w r relay := fun hcovers => by
  have := hcovers.protocol
  rw [h] at this
  cases this

theorem completeTcpControl_spec {c : Cell} {spec : PortSpec} {owner : Process} (hw : Inv p w) :
    Inv p (completeTcpControl c w spec owner).2 ∧ Since w (completeTcpControl c w spec owner).2 ∧
      ∀ V, Recorded w V → Recorded (completeTcpControl c w spec owner).2 V := by
  unfold completeTcpControl
  obtain ⟨T, hT, hkept⟩ := hw.kept
  rw [hT]
  dsimp only
  cases hfind : T.findIdx? fun r => sameForward r.spec spec && r.pending && !r.submitted && r.serialized &&
      (⟨r.ownerPid, r.ownerStartSec, r.ownerStartUsec⟩ : Identity) = owner.val with
  | none => exact ⟨hw, Since.refl w, fun _ h => h⟩
  | some i =>
    obtain ⟨hi, hmatch, -⟩ := List.findIdx?_eq_some_iff_getElem.mp hfind
    obtain ⟨A, B, hsplit, -, hmodify, -⟩ := exists_slot (List.getElem?_eq_getElem hi)
    have hpending : T[i].pending = true := by
      simp only [Bool.and_eq_true] at hmatch
      exact hmatch.1.1.1.2
    have hkept' : Kept w (T.modify i fun r => { r with serialized := false }) := by
      rw [hmodify]
      rw [hsplit] at hkept
      have hvalid := hkept.table.valid T[i] (List.mem_append_right _ List.mem_cons_self)
      have hright := recordWrong_eq_false.mp hvalid.right
      refine hkept.replace hw.sane (Since.refl w) ⟨recordWrong_eq_false.mpr ⟨hright.address, hright.hostPort,
        hright.containerPort, hright.pid, hright.startUsec, hright.start, hright.ownerPid, hright.ownerStartUsec,
        hright.owner, hright.ownerStart, hright.ownerPair, hright.submitted, (fun h => by cases h), hright.committed⟩,
        hvalid.pid, hvalid.startSec, hvalid.ownerPid, hvalid.ownerStartSec⟩ rfl
        (fun relay _ hcovers => hcovers.same rfl rfl) ?_
      intro _ hfalse
      rw [show T[i].pending = false from hfalse] at hpending
      cases hpending
    have hview : view (T.modify i fun r => { r with serialized := false }) = view T := by
      rw [hmodify]
      conv_rhs => rw [hsplit]
      unfold view
      rw [List.map_append, List.map_append, List.map_cons, List.map_cons]
    have hwritten := @writeFile_spec p w _ c hw hkept'
    refine ⟨hwritten.inv, hwritten.since, fun V hV => ?_⟩
    obtain ⟨T', hT', rfl⟩ := hV
    obtain rfl := Option.some.inj (hT.symm.trans hT')
    rcases hwritten.table with h | h
    · exact ⟨T, (congrArg recordsLoad h).trans hT, rfl⟩
    · exact ⟨_, h, hview⟩

/-- What a request may add. -/
theorem Kept.request {spec : PortSpec} (hL : Kept w L) (hr : r ∈ L) (hspec : r.spec = spec)
    (hprotocol : spec.protocol = .tcp) {answered : List (PortSpec × Pass)} (hanswered : ∀ x ∈ w.answered, x ∈ answered) :
    Kept { w with held := spec.key :: w.held, answered } L := by
  refine ⟨hL.table, hL.distinct, ⟨fun key hkey => ?_, fun relay hrelay => ?_⟩, fun x hx h h' => hanswered _ (hL.confirmed x hx h h')⟩
  · rcases List.mem_cons.mp hkey with rfl | hkey
    · exact ⟨r, hr, hspec ▸ hprotocol, hspec ▸ rfl⟩
    · exact hL.owned.tcp key hkey
  · obtain ⟨x, hx, hcovers⟩ := hL.owned.udp relay hrelay
    exact ⟨x, hx, hcovers.protocol, hcovers.key, hcovers.names⟩

theorem Inv.request {spec : PortSpec} (hw : Inv p w) (hfile : recordsLoad w.file = some L) (hL : Kept w L) (hr : r ∈ L)
    (hspec : r.spec = spec) (hprotocol : spec.protocol = .tcp) (hmaster : w.master = true) {answered : List (PortSpec × Pass)}
    (hanswered : ∀ x ∈ w.answered, x ∈ answered) : Inv p { w with held := spec.key :: w.held, answered } :=
  ⟨hw.pass, ⟨fun h => absurd (hmaster.symm.trans h) (by decide), hw.sane.relays⟩, L, hfile,
    hL.request hr hspec hprotocol hanswered⟩

theorem addTcp_spec {spec : PortSpec} {owner : Process} (hw : Inv p w) (hfile : recordsLoad w.file = some L) (hr : r ∈ L)
    (hspec : r.spec = spec) (hprotocol : spec.protocol = .tcp) :
    wp (addTcp spec owner) (post (Inv p) fun a w' => Inv p w' ∧ Kept w' L ∧ Recorded w' (view L) ∧
      (a = true → (spec, w'.pass) ∈ w'.answered)) w := by
  refine wp_act hw fun c w1 h1 => ?_
  have hw1 := hw.later h1
  obtain ⟨T, hT, hkept⟩ := hw1.kept
  have hfile1 : recordsLoad w1.file = some L := h1.file ▸ hfile
  obtain rfl := Option.some.inj (hT.symm.trans hfile1)
  have hrecorded : Recorded w1 (view T) := ⟨T, hT, rfl⟩
  have hsame : ∀ x ∈ w1.answered, x ∈ w1.answered := fun _ h => h
  have hmore : ∀ x ∈ w1.answered, x ∈ (spec, w1.pass) :: w1.answered := fun _ h => List.mem_cons_of_mem _ h
  by_cases hmaster : w1.master = true ∧ (c.answered = true ∨ c.applied = true)
  · rw [if_pos hmaster]
    dsimp only
    have hkept' := hkept.request hr hspec hprotocol hmore
    have hinv' := hw1.request hT hkept hr hspec hprotocol hmaster.1 hmore
    obtain ⟨hcomplete, hsince, hview⟩ := @completeTcpControl_spec p _ c spec owner hinv'
    have hdone := hkept'.since hinv'.sane hsince
    split_ifs with hanswered hreported happlied
    · refine ⟨hcomplete, hdone, hview _ hrecorded, fun _ => ?_⟩
      rw [hsince.answered, hsince.pass]
      exact List.mem_cons_self
    · exact ⟨hcomplete, hdone, hview _ hrecorded, fun h => by cases h⟩
    · exact ⟨hinv', hkept', hrecorded, fun h => by cases h⟩
    · exact ⟨hw1.request hT hkept hr hspec hprotocol hmaster.1 hsame, hkept.request hr hspec hprotocol hsame,
        hrecorded, fun h => by cases h⟩
  · rw [if_neg hmaster]
    exact ⟨hw1, hkept, hrecorded, fun h => by cases h⟩

theorem listenerAbsent_spec {cancelled : Bool} {key : Key} (h : cancelled = true → key ∉ w.held) :
    wp (listenerAbsent cancelled key) (during w fun a w' => a = true → key ∉ w'.held) w := by
  unfold listenerAbsent
  split_ifs with hcancelled
  · exact during_return fun _ => h hcancelled
  refine during_then sshMasterAlive_spec fun alive w2 _ _ => ?_
  split_ifs
  · exact during_return fun h => by cases h
  · exact tcpListenerAvailable_spec

theorem undoTcp_spec (hw : Inv p w) (hL : Kept w L) (hslot : L[slot]? = some r) (hprotocol : r.spec.protocol = .tcp) :
    wp (undoTcp L slot r.spec.key) (post (Inv p) fun _ w' => Inv p w') w := by
  obtain ⟨A, B, hsplit, -, -, herase⟩ := exists_slot hslot
  unfold undoTcp
  refine wp_then cancelTcp_spec (fun cancelled w1 h1 => ?_) fun w' h => hw.later h
  have hw1 := hw.later h1.1
  refine wp_then (listenerAbsent_spec h1.2) (fun absent w2 h2 => ?_) fun w' h => hw1.later h
  have h12 := h1.1.trans h2.1
  have hw2 := hw.later h12
  have hkept : Kept w2 (if absent = true then L.eraseIdx slot else L) := by
    split_ifs with h
    · rw [herase]
      exact (hsplit ▸ hL).drop hw.sane h12.toSince ⟨fun _ => h2.2 h, fun relay _ => not_covers hprotocol⟩
    · exact hL.since hw.sane h12.toSince
  refine wp_then (saveRecords_spec hw2 hkept) (fun saved w3 h3 => ?_) fun w' h => h
  split_ifs with hcancelled
  · refine wp_then tcpListenerAvailable_spec (fun available w4 h4 => ?_) fun w' h => h3.inv.later h
    split_ifs <;> exact wp_return (h3.inv.later h4.1)
  · exact wp_return h3.inv

theorem addTcpForward_spec {owner : Process} (hw : Inv p w) (hL : Kept w L) {r0 : ForwardRecord} (hslot : L[slot]? = some r0)
    (hspec : r0.spec = r.spec) (hprotocol : r.spec.protocol = .tcp) (hpending : r.pending = true)
    (hpending0 : r0.pending = true) (hvalid : Valid { r with submitted := false, serialized := true }) :
    wp (addTcpForward L slot r owner)
      (post (Inv p) fun a w' => Inv p w' ∧ (a = none → (r.spec, w'.pass) ∈ w'.answered ∧ Recorded w' (view L))) w := by
  obtain ⟨A, B, hsplit, hset, -, -⟩ := exists_slot hslot
  set r' : ForwardRecord := { r with submitted := false, serialized := true } with hr'
  have hkept : Kept w (L.set slot r') := by
    rw [hset]
    refine (hsplit ▸ hL).replace hw.sane (Since.refl w) hvalid hspec.symm
      (fun relay _ hcovers => absurd hcovers (not_covers (hspec ▸ hprotocol))) fun _ h => ?_
    rw [show r'.pending = r.pending from rfl, hpending] at h
    cases h
  have hview : view (L.set slot r') = view L := by
    rw [hset]
    conv_rhs => rw [hsplit]
    unfold view
    rw [List.map_append, List.map_append, List.map_cons, List.map_cons, hspec, hpending0,
      show r'.pending = true from hpending]
  have hslot' : (L.set slot r')[slot]? = some r' := List.getElem?_set_self (List.getElem?_eq_some_iff.mp hslot).1
  unfold addTcpForward
  dsimp only
  refine wp_then (saveRecords_spec hw hkept) (fun saved w1 h1 => ?_) fun w' h => h
  have hkept1 := hkept.since hw.sane h1.since
  cases saved with
  | false => exact wp_return ⟨h1.inv, fun h => by cases h⟩
  | true =>
    refine wp_then (addTcp_spec h1.inv (h1.saved rfl) (List.mem_of_getElem? hslot') rfl hprotocol) (fun a w2 h2 => ?_)
      fun w' h => h
    cases a with
    | true => exact wp_return ⟨h2.1, fun _ => ⟨h2.2.2.2 rfl, hview ▸ h2.2.2.1⟩⟩
    | false =>
      refine wp_then (@undoTcp_spec p w2 _ slot r' h2.1 h2.2.1 hslot' hprotocol) (fun failure w3 h3 => ?_) fun w' h => h
      exact wp_return ⟨h3, fun h => by cases h⟩

end Tcp

/-! ## Starting a relay -/

section Udp

variable {p : Pass} {w : World} {L : List ForwardRecord} {slot : ℕ} {r : ForwardRecord} {key : Key} {process : Process}

/-- No relay listens there. -/
def Free (key : Key) (w : World) : Prop := ∀ relay ∈ w.relays, relay.key ≠ key

theorem Free.since {w' : World} (h : Since w w') (hfree : Free key w) : Free key w' :=
  fun relay hrelay => hfree relay (h.relays relay hrelay)

/-- No pidfile names a process. -/
def Nameless (key : Key) (w : World) : Prop := ∀ p, w.pidfile key ≠ .names p

theorem Nameless.since {w' : World} (h : Since w w') (hfree : Free key w) (hnone : Nameless key w) : Nameless key w' := by
  intro p hp
  rcases h.pidfile key p hp with hp | ⟨relay, hrelay, hkey, -⟩
  · exact hnone p hp
  · exact hfree relay hrelay hkey

theorem prepareUdpPidfile_spec (hfree : Free key w) :
    wp (prepareUdpPidfile key) (during w fun a w' => a = true → Nameless key w') w := by
  unfold prepareUdpPidfile
  refine during_then readPidfile_spec fun a w1 h1 ha => ?_
  have hfree1 := hfree.since h1.toSince
  cases a with
  | unreadable => exact during_return fun h => by cases h
  | absent =>
    refine during_return fun _ p hp => ?_
    rw [ha (by simp)] at hp
    cases hp
  | names p =>
    refine during_then processIdentityValues_spec fun b w2 _ _ => ?_
    split_ifs
    · exact during_return fun h => by cases h
    · refine during_mono removePidfile_spec fun d w3 _ hd h p hp => ?_
      rw [hd h] at hp
      cases hp

/-- The relay there, if any, is this process, and a pidfile names no other. -/
def Own (key : Key) (process : Process) (w : World) : Prop :=
  ∀ relay ∈ w.relays, relay.key = key → relay.process = process ∧ ∀ p, w.pidfile key = .names p → p = process

theorem Own.since {w' : World} (h : Since w w') (hown : Own key process w) : Own key process w' := by
  intro relay hrelay hkey
  obtain ⟨hprocess, hpidfile⟩ := hown relay (h.relays relay hrelay) hkey
  refine ⟨hprocess, fun p hp => ?_⟩
  rcases h.pidfile key p hp with hp | ⟨other, hother, hkey', rfl⟩
  · exact hpidfile p hp
  · exact (hown other hother hkey').1

theorem waitUdpStarted_spec (n : ℕ) : ∀ {w : World}, Own key process w → wp (waitUdpStarted key process n)
    (during w fun a w' => ∀ value, a = some value → ∀ relay ∈ w'.relays, relay.key = key → value = relay.process) w := by
  induction n with
  | zero => exact fun _ => during_return fun _ h => by cases h
  | succ n ih =>
    intro w hown
    refine during_then readPidfile_spec fun a w1 h1 ha => ?_
    have hown1 := hown.since h1.toSince
    cases a with
    | unreadable => exact ih hown1
    | absent => exact ih hown1
    | names value =>
      dsimp only
      split_ifs
      · refine during_then processIdentityValues_spec fun b w2 h2 _ => ?_
        split_ifs
        · refine during_return fun v hv relay hrelay hkey => ?_
          obtain rfl := Option.some.inj hv
          obtain ⟨hprocess, hpidfile⟩ := hown1 relay (h2.relays relay hrelay) hkey
          exact (hpidfile value (ha (by simp))).trans hprocess.symm
        · exact ih (hown1.since h2.toSince)
      · exact ih hown1

theorem waitSpawnedChild_spec {i : Identity} (n : ℕ) : ∀ {w : World},
    wp (waitSpawnedChild i n) (during w fun a w' => a = true → ¬ Running i w') w := by
  induction n with
  | zero => exact during_return fun h => by cases h
  | succ n ih =>
    intro w
    refine during_then waitpid_spec fun a w1 _ ha => ?_
    cases a with
    | ended => exact during_return fun _ => ha rfl
    | failed => exact during_return fun h => by cases h
    | running => exact ih
    | noChild => exact processAbsent_spec

theorem terminateSpawnedChild_spec {i : Identity} :
    wp (terminateSpawnedChild i) (during w fun a w' => a = true → ¬ Running i w') w := by
  unfold terminateSpawnedChild
  refine during_then kill_spec fun a w1 _ _ => ?_
  split_ifs
  · exact during_return fun h => by cases h
  refine during_then (waitSpawnedChild_spec _) fun b w2 _ hb => ?_
  split_ifs with hended
  · exact during_return fun _ => hb hended
  refine during_then kill_spec fun d w3 _ _ => ?_
  split_ifs
  · exact during_return fun h => by cases h
  · exact waitSpawnedChild_spec _

/-- The record after a start: which relay may be there, and that it is covered. -/
structure Started (r : ForwardRecord) (a : UdpStart × ForwardRecord) (w : World) : Prop where
  filled : Filled r a.2
  failed : a.1 = .failed → Free r.spec.key w
  covers : ∀ relay ∈ w.relays, relay.key = r.spec.key → Covers w a.2 relay

theorem Started.of_free {a : UdpStart × ForwardRecord} (h : Filled r a.2) (hfree : Free r.spec.key w) : Started r a w :=
  ⟨h, fun _ => hfree, fun relay hrelay hkey => absurd hkey (hfree relay hrelay)⟩

/-- A relay that is started is covered by the record that was reserved for it. -/
theorem Inv.spawn (hw : Inv p w) (hfile : recordsLoad w.file = some L) (hL : Kept w L) (hr : r ∈ L)
    (hprotocol : r.spec.protocol = .udp) (hpid : r.pid = 0) (q : Process) (hfree : Free r.spec.key w)
    (hnone : Nameless r.spec.key w) :
    Inv p { w with relays := ⟨r.spec.key, q⟩ :: w.relays } ∧ Kept { w with relays := ⟨r.spec.key, q⟩ :: w.relays } L := by
  have hkept : Kept { w with relays := ⟨r.spec.key, q⟩ :: w.relays } L := by
    refine ⟨hL.table, hL.distinct, ⟨hL.owned.tcp, fun relay hrelay => ?_⟩, hL.confirmed⟩
    rcases List.mem_cons.mp hrelay with rfl | hrelay
    · exact ⟨r, hr, hprotocol, rfl, .inr ⟨hpid, fun v hv => absurd hv (hnone v)⟩⟩
    · obtain ⟨x, hx, hcovers⟩ := hL.owned.udp relay hrelay
      exact ⟨x, hx, hcovers.protocol, hcovers.key, hcovers.names⟩
  refine ⟨⟨hw.pass, ⟨hw.sane.master, fun a ha b hb hkey => ?_⟩, L, hfile, hkept⟩, hkept⟩
  rcases List.mem_cons.mp ha with rfl | ha
  · rcases List.mem_cons.mp hb with rfl | hb
    · rfl
    · exact absurd hkey.symm (hfree b hb)
  · rcases List.mem_cons.mp hb with rfl | hb
    · exact absurd hkey (hfree a ha)
    · exact hw.sane.relays a ha b hb hkey

/-- What follows the spawn in `start_udp`. -/
theorem startedRelay_spec (hprotocol : r.spec.protocol = .udp) (hpid : r.pid = 0) (hown : Own r.spec.key process w) :
    wp (do
      let token ← act fun c w => (!c.fault, w)
      let child := if token then r.setIdentity process.val else r
      match ← waitUdpStarted r.spec.key process WAIT_STARTED with
      | some value => return (UdpStart.ok, r.setIdentity value.val)
      | none =>
        if !(← terminateSpawnedChild process.val) then return (.unsafeStart, child)
        let _ ← removePidfile r.spec.key
        return (.failed, child)) (during w (Started r)) w := by
  have htoken : wp (act fun c w => (!c.fault, w)) (during w fun _ _ => True) w :=
    during_act fun c w' _ => ⟨Later.refl w', trivial⟩
  refine during_then htoken fun token w1 h1 _ => ?_
  have hown1 := hown.since h1.toSince
  dsimp only
  set child : ForwardRecord := if token = true then r.setIdentity process.val else r with hchild
  have hfilled : Filled r child := by
    rw [hchild]
    split_ifs
    · exact .inr ⟨hpid, process, rfl⟩
    · exact .inl rfl
  have hcovers : ∀ w', Own r.spec.key process w' → ∀ relay ∈ w'.relays, relay.key = r.spec.key → Covers w' child relay := by
    intro w' hown' relay hrelay hkey
    obtain ⟨hprocess, hpidfile⟩ := hown' relay hrelay hkey
    refine ⟨hfilled.spec ▸ hprotocol, (congrArg PortSpec.key hfilled.spec).trans hkey.symm, ?_⟩
    rw [hchild]
    split_ifs
    · exact .inl (congrArg Subtype.val hprocess).symm
    · exact .inr ⟨hpid, fun p hp => (hpidfile p (hkey ▸ hp)).trans hprocess.symm⟩
  refine during_then (waitUdpStarted_spec _ hown1) fun a w2 h2 ha => ?_
  have hown2 := hown1.since h2.toSince
  cases a with
  | some value =>
    refine during_return ⟨.inr ⟨hpid, value, rfl⟩, (fun h => by cases h), fun relay hrelay hkey => ?_⟩
    exact ⟨hprotocol, hkey.symm, .inl (congrArg Subtype.val (ha value rfl relay hrelay hkey))⟩
  | none =>
    refine during_then terminateSpawnedChild_spec fun b w3 h3 hb => ?_
    have hown3 := hown2.since h3.toSince
    split_ifs with hended
    · exact during_return ⟨hfilled, (fun h => by cases h), hcovers w3 hown3⟩
    · refine during_then removePidfile_spec fun d w4 h4 _ => during_return (Started.of_free hfilled ?_)
      intro relay hrelay hkey
      have hrelay3 := h4.relays relay hrelay
      exact hb (by simpa using hended) ⟨relay, hrelay3, congrArg Subtype.val (hown3 relay hrelay3 hkey).1⟩

theorem startUdp_spec (hw : Inv p w) (hfile : recordsLoad w.file = some L) (hr : r ∈ L) (hprotocol : r.spec.protocol = .udp)
    (hpid : r.pid = 0) (hfree : Free r.spec.key w) :
    wp (startUdp r) (post (Inv p) fun a w' => Inv p w' ∧ Kept w' L ∧ Started r a w') w := by
  have hkept : ∀ w', Later w w' → Inv p w' ∧ Kept w' L ∧ Free r.spec.key w' := by
    intro w' h
    have hw' := hw.later h
    obtain ⟨T, hT, hkept⟩ := hw'.kept
    obtain rfl := Option.some.inj (hT.symm.trans ((congrArg recordsLoad h.file).trans hfile))
    exact ⟨hw', hkept, hfree.since h.toSince⟩
  have hfailed : ∀ w', Later w w' → Inv p w' ∧ Kept w' L ∧ Started r (UdpStart.failed, r) w' := fun w' h =>
    ⟨(hkept w' h).1, (hkept w' h).2.1, Started.of_free (.inl rfl) (hkept w' h).2.2⟩
  unfold startUdp
  dsimp only
  refine wp_then (prepareUdpPidfile_spec hfree) (fun prepared w1 h1 => ?_) fun w' h => hw.later h
  split_ifs with hprepared
  · exact wp_return (hfailed w1 h1.1)
  refine wp_then openUdpListener_spec (fun opened w2 h2 => ?_) fun w' h => hw.later (h1.1.trans h)
  have h12 := h1.1.trans h2.1
  split_ifs
  · exact wp_return (hfailed w2 h12)
  have hnone : Nameless r.spec.key w2 :=
    (h1.2 (by simpa using hprepared)).since h2.1.toSince (hkept w1 h1.1).2.2
  -- the relay that the spawn adds is covered by the reserved record
  have hspawn : wp (spawnRelay r.spec.key) (post (Inv p) fun a w' => Inv p w' ∧ Kept w' L ∧
      (a = none → Free r.spec.key w') ∧ ∀ q, a = some q → Own r.spec.key q w') w2 := by
    refine wp_act (hkept w2 h12).1 fun c w3 h3 => ?_
    obtain ⟨hinv, hL, hfree3⟩ := hkept w3 (h12.trans h3)
    have hnone3 := hnone.since h3.toSince (hkept w2 h12).2.2
    cases c.spawned with
    | none => exact ⟨hinv, hL, fun _ => hfree3, fun q hq => absurd hq (by simp)⟩
    | some q =>
      have hfile3 : recordsLoad w3.file = some L := (congrArg recordsLoad (h12.trans h3).file).trans hfile
      obtain ⟨hinv', hkept'⟩ := hinv.spawn (L := L) hfile3 hL hr hprotocol hpid q hfree3 hnone3
      refine ⟨hinv', hkept', fun hnone => absurd hnone (by simp), fun q' hq' relay hrelay hkey => ?_⟩
      obtain rfl := Option.some.inj hq'
      rcases List.mem_cons.mp hrelay with rfl | hrelay
      · exact ⟨rfl, fun v hv => absurd hv (hnone3 v)⟩
      · exact absurd hkey (hfree3 relay hrelay)
  refine wp_then hspawn (fun a w3 h3 => ?_) fun w' h => h
  cases a with
  | none => exact wp_return ⟨h3.1, h3.2.1, Started.of_free (.inl rfl) (h3.2.2.1 rfl)⟩
  | some q =>
    obtain ⟨hinv, hL, -, hown⟩ := h3
    refine (startedRelay_spec hprotocol hpid (hown q rfl)).weaken (fun a w' h => ?_) fun w' h => hinv.later h
    exact ⟨hinv.later h.1, hL.since hinv.sane h.1.toSince, h.2⟩

theorem failUdp_spec (hw : Inv p w) (hL : Kept w L) :
    wp (failUdp L key) (post (Inv p) fun a w' => Inv p w' ∧ a ≠ none) w := by
  refine wp_then (saveRecords_spec hw hL) (fun saved w1 h1 => ?_) fun w' h => h
  refine wp_then openUdpListener_spec (fun available w2 h2 => ?_) fun w' h => h1.inv.later h
  split_ifs <;> exact wp_return ⟨h1.inv.later h2.1, fun h => by cases h⟩

theorem addUdpForward_spec (hw : Inv p w) (hfile : recordsLoad w.file = some L) (hslot : L[slot]? = some r)
    (hprotocol : r.spec.protocol = .udp) (hpid : r.pid = 0) (hfree : Free r.spec.key w) :
    wp (addUdpForward L slot r) (post (Inv p) fun a w' => Inv p w' ∧ (a = none → Recorded w' (view L))) w := by
  obtain ⟨A, B, hsplit, hset, -, herase⟩ := exists_slot hslot
  have hr : r ∈ L := List.mem_of_getElem? hslot
  unfold addUdpForward
  refine wp_then (startUdp_spec hw hfile hr hprotocol hpid hfree) (fun a w1 h1 => ?_) fun w' h => h
  obtain ⟨rc, r'⟩ := a
  obtain ⟨hinv, hL, hstarted⟩ := h1
  have hvalid : Valid r' := hstarted.filled.valid (hL.table.valid r hr)
  have hspec : r'.spec = r.spec := hstarted.filled.spec
  have hconfirmed : ∀ w', Confirmed w' r' := fun w' h => by
    rw [hspec, hprotocol] at h
    cases h
  have hreplaced : Kept w1 (A ++ r' :: B) :=
    (hsplit ▸ hL).replace hinv.sane (Since.refl w1) hvalid hspec
      (fun relay hrelay hcovers => hstarted.covers relay hrelay hcovers.key.symm) (hconfirmed w1)
  have hview : view (A ++ r' :: B) = view L := by
    rw [hsplit]
    unfold view
    rw [List.map_append, List.map_append, List.map_cons, List.map_cons, hspec, hstarted.filled.pending]
  dsimp only
  cases rc with
  | failed =>
    refine (failUdp_spec hinv ?_).weaken (fun a w' h => ⟨h.1, fun ha => absurd ha h.2⟩) fun _ h => h
    rw [herase]
    refine (hsplit ▸ hL).drop hinv.sane (Since.refl w1) ⟨fun h => ?_, fun relay hrelay hcovers => ?_⟩
    · rw [hprotocol] at h
      cases h
    · exact hstarted.failed rfl relay hrelay hcovers.key.symm
  | unsafeStart =>
    refine (failUdp_spec hinv ?_).weaken (fun a w' h => ⟨h.1, fun ha => absurd ha h.2⟩) fun _ h => h
    rw [hset]
    exact hreplaced
  | ok =>
    refine wp_then (saveRecords_spec hinv (by rw [hset]; exact hreplaced)) (fun saved w2 h2 => ?_) fun w' h => h
    cases saved with
    | true => exact wp_return ⟨h2.inv, fun _ => ⟨_, h2.saved rfl, by rw [hset, hview]⟩⟩
    | false =>
    rw [if_neg (by decide)]
    have hreplaced2 := hreplaced.since hinv.sane h2.since
    refine wp_then (stopRecord_spec h2.inv.sane) (fun stopped w3 h3 => ?_) fun w' h => h2.inv.later h
    have hw3 := h2.inv.later h3.1
    split_ifs with hstopped
    · refine wp_then (saveRecords_spec hw3 ?_) (fun _ w4 h4 => wp_return ⟨h4.inv, fun h => by cases h⟩) fun w' h => h
      rw [herase]
      exact hreplaced2.drop h2.inv.sane h3.1.toSince (h3.2 hstopped)
    · exact wp_return ⟨hw3, fun h => by cases h⟩

end Udp

/-! ## One forward -/

section Forward

variable {p : Pass} {w : World} {L : List ForwardRecord} {spec : PortSpec}

theorem findSlot_spec {adopt : Bool} {slot : Option ℕ} : ∀ (L : List ForwardRecord) (i : ℕ) (found : Option ℕ),
    findSlot spec adopt i found L = some slot →
      (slot = found ∧ ∀ r ∈ L, sameListener r.spec spec = false) ∨
        ∃ j r, L[j]? = some r ∧ slot = some (i + j) ∧ r.spec = spec ∧ r.pending = true ∧ spec.protocol = .tcp
  | [], i, found, h => .inl ⟨(Option.some.inj h).symm, fun _ hr => absurd hr List.not_mem_nil⟩
  | r :: L, i, found, h => by
    rw [findSlot] at h
    split_ifs at h with hlistener hadopt
    · rcases findSlot_spec L (i + 1) found h with ⟨hslot, hall⟩ | ⟨j, x, hx, rfl, hrest⟩
      · exact .inl ⟨hslot, List.forall_mem_cons.mpr ⟨by simpa using hlistener, hall⟩⟩
      · exact .inr ⟨j + 1, x, hx, congrArg some (by omega), hrest⟩
    · simp only [Bool.and_eq_true, decide_eq_true_eq] at hadopt
      rcases findSlot_spec L (i + 1) (some i) h with ⟨hslot, -⟩ | ⟨j, x, hx, rfl, hrest⟩
      · exact .inr ⟨0, r, rfl, hslot, sameForward_iff.mp hadopt.2, hadopt.1.2, hadopt.1.1.2⟩
      · exact .inr ⟨j + 1, x, hx, congrArg some (by omega), hrest⟩

/-- A published port as the caller checks it. -/
structure GoodSpec (spec : PortSpec) : Prop where
  address : ∃ octets, inetPton spec.hostIp = some octets
  hostPort : 0 < spec.hostPort ∧ spec.hostPort ≤ 65535
  containerPort : 0 < spec.containerPort ∧ spec.containerPort ≤ 65535

/-- The record that is reserved. -/
def reserved (spec : PortSpec) (owner : Process) : ForwardRecord :=
  { spec, pending := true, ownerPid := owner.val.pid, ownerStartSec := owner.val.startSec,
    ownerStartUsec := owner.val.startUsec }

theorem reserved_valid (hspec : GoodSpec spec) (owner : Process) (serialized : Bool) :
    Valid { reserved spec owner with submitted := false, serialized } := by
  obtain ⟨hpid, hsec, husec⟩ := owner.property
  refine ⟨recordWrong_eq_false.mpr ⟨hspec.address, hspec.hostPort, hspec.containerPort, le_rfl,
    show (0 : ℕ) < 1000000 by decide, fun _ => rfl,
    ?_, husec, fun _ => hpid.1, fun h => ?_, ⟨fun _ => hsec.1, fun _ => hpid.1⟩, fun _ => rfl, fun _ => rfl,
    fun h => by cases h⟩, show (0 : ℤ) < 2 ^ 31 by decide, show (0 : ℕ) < 2 ^ 64 by decide, hpid.2, hsec.2⟩
  · show 0 ≤ owner.val.pid
    omega
  · change owner.val.startSec = 0 at h
    omega

theorem Kept.reserve (hL : Kept w L) (hspec : GoodSpec spec) (owner : Process) (hroom : L.length < MAX_FORWARD_RECORDS)
    (hall : ∀ r ∈ L, sameListener r.spec spec = false) : Kept w (L ++ [reserved spec owner]) := by
  refine ⟨⟨fun x hx => ?_, ?_⟩, ?_, ⟨fun key hkey => ?_, fun relay hrelay => ?_⟩, fun x hx => ?_⟩
  · rcases List.mem_append.mp hx with hx | hx
    · exact hL.table.valid x hx
    · rw [List.mem_singleton.mp hx]
      exact reserved_valid hspec owner false
  · rw [List.length_append, List.length_singleton]
    omega
  · unfold Distinct
    rw [List.map_append, List.pairwise_append]
    refine ⟨hL.distinct, List.pairwise_singleton .., fun a ha b hb => ?_⟩
    obtain ⟨r, hr, rfl⟩ := List.mem_map.mp ha
    obtain rfl := List.mem_singleton.mp hb
    exact hall r hr
  · obtain ⟨x, hx, h⟩ := hL.owned.tcp key hkey
    exact ⟨x, List.mem_append_left _ hx, h⟩
  · obtain ⟨x, hx, h⟩ := hL.owned.udp relay hrelay
    exact ⟨x, List.mem_append_left _ hx, h⟩
  · rcases List.mem_append.mp hx with hx | hx
    · exact hL.confirmed x hx
    · rw [List.mem_singleton.mp hx]
      exact fun _ h => by cases h

theorem own_spec : wp (act fun c w => (c.own, w)) (during w fun _ _ => True) w :=
  during_act fun _ w' _ => ⟨Later.refl w', trivial⟩

theorem stateLock_spec : wp stateLock (during w fun _ _ => True) w := during_act fun _ w' _ => ⟨Later.refl w', trivial⟩

/-- What a new forward changes. -/
def Added (spec : PortSpec) (V V' : List (PortSpec × Bool)) : Prop :=
  V' = V ++ [(spec, true)] ∨ V' = V ∧ (spec, true) ∈ V

/-- What `addForward` does with the record. -/
theorem addReserved_spec {adopt : Bool} {adopted : Option ℕ} (hw : Inv p w)
    (hL : Kept w L) (hspec : GoodSpec spec) (owner : Process) (hslot : findSlot spec adopt 0 none L = some adopted)
    (hroom : ¬ (adopted.isNone ∧ MAX_FORWARD_RECORDS ≤ L.length)) :
    wp (match adopted with
      | some slot =>
        if spec.protocol = .tcp then addTcpForward L slot (reserved spec owner) owner
        else addUdpForward L slot (reserved spec owner)
      | none => do
        if !(← saveRecords (L ++ [reserved spec owner])) then return some .other
        if spec.protocol = .tcp then
          addTcpForward (L ++ [reserved spec owner]) L.length (reserved spec owner) owner
        else addUdpForward (L ++ [reserved spec owner]) L.length (reserved spec owner))
      (post (Inv p) fun a w' => Inv p w' ∧ (a = none → (spec.protocol = .tcp → (spec, w'.pass) ∈ w'.answered) ∧
        ∃ V, Recorded w' V ∧ Added spec (view L) V)) w := by
  have hvalid := reserved_valid hspec owner true
  rcases findSlot_spec L 0 none hslot with ⟨rfl, hall⟩ | ⟨j, r0, hr0, rfl, hsame, hpending, htcp⟩
  · have hlength : L.length < MAX_FORWARD_RECORDS := by
      by_contra hlength
      exact hroom ⟨rfl, not_lt.mp hlength⟩
    have hkept := hL.reserve hspec owner hlength hall
    have hlast : (L ++ [reserved spec owner])[L.length]? = some (reserved spec owner) := List.getElem?_concat_length
    refine wp_then (saveRecords_spec hw hkept) (fun saved w1 h1 => ?_) fun w' h => h
    have hkept1 := hkept.since hw.sane h1.since
    have hadded : Added spec (view L) (view (L ++ [reserved spec owner])) := .inl (List.map_append ..)
    cases saved with
    | false => exact wp_return ⟨h1.inv, fun h => by cases h⟩
    | true =>
      rw [if_neg (by simp)]
      split_ifs with hprotocol
      · refine (addTcpForward_spec h1.inv hkept1 hlast rfl hprotocol rfl rfl hvalid).weaken (fun a w' h => ?_) fun _ h => h
        exact ⟨h.1, fun ha => ⟨fun _ => (h.2 ha).1, _, (h.2 ha).2, hadded⟩⟩
      · have hudp : spec.protocol = .udp := by
          cases h : spec.protocol with
          | tcp => exact absurd h hprotocol
          | udp => rfl
        -- a relay at this address would be covered by a record with the same listener
        have hfree : Free spec.key w1 := by
          refine Free.since h1.since fun relay hrelay hkey => ?_
          obtain ⟨r, hr, hcovers⟩ := hL.owned.udp relay hrelay
          have hlistener := hall r hr
          simp only [sameListener, decide_eq_false_iff_not, not_and] at hlistener
          exact hlistener (hcovers.protocol.trans hudp.symm) (congrArg Prod.snd (hcovers.key.trans hkey))
        refine (addUdpForward_spec h1.inv (h1.saved rfl) hlast hudp rfl hfree).weaken (fun a w' h => ?_) fun _ h => h
        exact ⟨h.1, fun ha => ⟨fun h => absurd h hprotocol, _, h.2 ha, hadded⟩⟩
  · rw [zero_add]
    dsimp only
    rw [if_pos htcp]
    have hadded : Added spec (view L) (view L) :=
      .inr ⟨rfl, List.mem_map.mpr ⟨r0, List.mem_of_getElem? hr0, by rw [hsame, hpending]⟩⟩
    refine (addTcpForward_spec hw hL hr0 hsame htcp rfl hpending hvalid).weaken (fun a w' h => ?_) fun _ h => h
    exact ⟨h.1, fun ha => ⟨fun _ => (h.2 ha).1, _, (h.2 ha).2, hadded⟩⟩

theorem addForward_spec {adopt : Bool} (hw : Inv p w) (hspec : GoodSpec spec) :
    wp (addForward spec adopt)
      (post (Inv p) fun a w' => Inv p w' ∧ (a = none → (spec.protocol = .tcp → (spec, w'.pass) ∈ w'.answered) ∧
        ∃ V V', Recorded w V ∧ Recorded w' V' ∧ Added spec V V')) w := by
  unfold addForward
  refine wp_then stateLock_spec (fun locked w1 h1 => ?_) fun w' h => hw.later h
  have hw1 := hw.later h1.1
  cases locked with
  | false => exact wp_return ⟨hw1, fun h => by cases h⟩
  | true =>
  rw [if_neg (by simp)]
  refine wp_then (loadRecords_spec hw1) (fun loaded w2 h2 => ?_) fun w' h => hw1.later h
  have hw2 := hw1.later h2.1
  cases loaded with
  | none => exact wp_return ⟨hw2, fun h => by cases h⟩
  | some L =>
    obtain ⟨hfile, hL⟩ := h2.2 L rfl
    have hrecorded : Recorded w (view L) := ⟨L, (congrArg recordsLoad (h1.1.trans h2.1).file).symm.trans hfile, rfl⟩
    dsimp only
    cases hslot : findSlot spec adopt 0 none L with
    | none => exact wp_return ⟨hw2, fun h => by cases h⟩
    | some adopted =>
      dsimp only
      by_cases hroom : adopted.isNone ∧ MAX_FORWARD_RECORDS ≤ L.length
      · rw [if_pos hroom]
        exact wp_return ⟨hw2, fun h => by cases h⟩
      rw [if_neg hroom]
      refine wp_then own_spec (fun own w3 h3 => ?_) fun w' h => hw2.later h
      have hw3 := hw2.later h3.1
      have hL3 := hL.since hw2.sane h3.1.toSince
      cases own with
      | none => exact wp_return ⟨hw3, fun h => by cases h⟩
      | some owner =>
        refine (addReserved_spec hw3 hL3 hspec owner hslot hroom).weaken (fun a w' h => ⟨h.1, fun ha => ?_⟩) fun _ h => h
        obtain ⟨hanswered, V, hV, hadded⟩ := h.2 ha
        exact ⟨hanswered, _, V, hrecorded, hV, hadded⟩

end Forward

end Hamn.Forward
