import Hamn.Host.ForwardTable

/-!
# ForwardSync — what is recorded of the host listeners after any run

* `publish_spec`, `portForwardSyncDocker_spec`, `portForwardUnconfirmTcp_spec`: the operations.
* `forwards_recorded`, `forwards_confirmed`: what holds in every state that they reach, whatever fails and wherever they
  are stopped.
* `sync_converges`, `sync_failures`: what a synchronization leaves and says.
-/

open Bytes Crash
open Proc (fold note)

namespace Hamn.Forward

/-! ## Commits -/

section Commit

variable {p : Pass} {w : World} {A B L : List ForwardRecord} {r : ForwardRecord} {spec : PortSpec}

/-- What a commit changes. -/
def Committed (spec : PortSpec) (V V' : List (PortSpec × Bool)) : Prop :=
  ∃ A B b, V = A ++ (spec, b) :: B ∧ V' = A ++ (spec, false) :: B ∧ ∀ c ∈ A ++ B, c.1 ≠ spec

theorem sameListener_self (spec : PortSpec) : sameListener spec spec = true := decide_eq_true ⟨rfl, rfl⟩

/-- The other records are of other ports. -/
theorem Distinct.ne (h : Distinct (A ++ r :: B)) : ∀ x ∈ A ++ B, x.spec ≠ r.spec := by
  intro x hx hspec
  have hself : sameListener x.spec r.spec = false → False := by
    intro hfalse
    rw [hspec, sameListener_self] at hfalse
    cases hfalse
  unfold Distinct at h
  rw [List.map_append, List.map_cons, List.pairwise_append, List.pairwise_cons] at h
  obtain ⟨-, ⟨hB, -⟩, hA⟩ := h
  rcases List.mem_append.mp hx with hx | hx
  · exact hself (hA _ (List.mem_map_of_mem hx) _ List.mem_cons_self)
  · have hrx := hB _ (List.mem_map_of_mem hx)
    rw [hspec, sameListener_self] at hrx
    cases hrx

theorem commitForward_spec (hw : Inv p w) (hanswered : spec.protocol = .tcp → (spec, w.pass) ∈ w.answered) :
    wp (commitForward spec) (post (Inv p) fun a w' => Inv p w' ∧ (a = true →
      ∃ V V', Recorded w V ∧ Recorded w' V' ∧ Committed spec V V')) w := by
  unfold commitForward
  refine wp_then stateLock_spec (fun locked w1 h1 => ?_) fun w' h => hw.later h
  have hw1 := hw.later h1.1
  cases locked with
  | false => exact wp_return ⟨hw1, fun h => by cases h⟩
  | true =>
  rw [if_neg (by simp)]
  refine wp_then (loadRecords_spec hw1) (fun loaded w2 h2 => ?_) fun w' h => hw1.later h
  have hw2 := hw1.later h2.1
  have h12 := h1.1.trans h2.1
  cases loaded with
  | none => exact wp_return ⟨hw2, fun h => by cases h⟩
  | some L =>
    obtain ⟨hfile, hL⟩ := h2.2 L rfl
    have hrecorded : Recorded w (view L) := ⟨L, (congrArg recordsLoad h12.file).symm.trans hfile, rfl⟩
    dsimp only
    cases hfind : L.findIdx? fun r => sameForward r.spec spec with
    | none => exact wp_return ⟨hw2, fun h => by cases h⟩
    | some i =>
      obtain ⟨hi, hmatch, -⟩ := List.findIdx?_eq_some_iff_getElem.mp hfind
      have hspec : L[i].spec = spec := sameForward_iff.mp hmatch
      obtain ⟨A, B, hsplit, -, hmodify, -⟩ := exists_slot (List.getElem?_eq_getElem hi)
      have hne : ∀ c ∈ view A ++ view B, c.1 ≠ spec := by
        intro c hc
        rw [← show view (A ++ B) = view A ++ view B from List.map_append ..] at hc
        obtain ⟨x, hx, rfl⟩ := List.mem_map.mp hc
        exact hspec ▸ (hsplit ▸ hL.distinct).ne x hx
      have hview : ∀ r : ForwardRecord, r.spec = spec →
          view (A ++ r :: B) = view A ++ (spec, r.pending) :: view B := by
        rintro r rfl
        exact List.map_append ..
      have hviewL : view L = view A ++ (spec, L[i].pending) :: view B := (congrArg view hsplit).trans (hview _ hspec)
      dsimp only
      by_cases hpending : (L[i]?.map (·.pending)) = some false
      · rw [if_pos hpending]
        rw [List.getElem?_eq_getElem hi] at hpending
        have hfalse : L[i].pending = false := Option.some.inj hpending
        refine wp_return ⟨hw2, fun _ => ⟨_, _, hrecorded, ⟨L, hfile, rfl⟩, _, _, _, hviewL, ?_, hne⟩⟩
        rw [hviewL, hfalse]
      · rw [if_neg hpending]
        have hvalid := recordMarkCommitted_valid (hL.table.valid _ (List.getElem_mem hi))
        have hkept : Kept w2 (A ++ recordMarkCommitted L[i] :: B) := by
          refine (hsplit ▸ hL).replace hw2.sane (Since.refl w2) hvalid rfl (fun _ _ h => h.same rfl rfl) fun htcp _ => ?_
          rw [show (recordMarkCommitted L[i]).spec = L[i].spec from rfl, hspec] at htcp ⊢
          rw [h12.answered, h12.pass]
          exact hanswered htcp
        rw [hmodify]
        refine (saveRecords_spec hw2 hkept).weaken (fun a w3 h3 => ⟨h3.inv, fun ha => ?_⟩) fun _ h => h
        exact ⟨_, _, hrecorded, ⟨_, h3.saved ha, rfl⟩, _, _, _, hviewL, hview _ hspec, hne⟩

end Commit

/-! ## Synchronizations -/

section Sync

variable {p : Pass} {w : World} {specs : List PortSpec}

theorem dockerSpecsValid_good (h : dockerSpecsValid specs = true) : ∀ spec ∈ specs, GoodSpec spec := by
  simp only [dockerSpecsValid, Bool.and_eq_true, List.all_eq_true, decide_eq_true_eq] at h
  intro spec hspec
  obtain ⟨⟨⟨⟨haddress, h1⟩, h2⟩, h3⟩, h4⟩ := h.1.2 spec hspec
  exact ⟨Option.isSome_iff_exists.mp haddress, ⟨h1, h2⟩, h3, h4⟩

theorem dockerSpecsValid_length (h : dockerSpecsValid specs = true) : specs.length ≤ MAX_FORWARD_RECORDS := by
  simp only [dockerSpecsValid, Bool.and_eq_true, decide_eq_true_eq] at h
  exact h.1.1

theorem dockerSpecsValid_distinct (h : dockerSpecsValid specs = true) :
    specs.Pairwise fun a b => sameListener a b = false := by
  simp only [dockerSpecsValid, Bool.and_eq_true, decide_eq_true_eq] at h
  exact h.2

theorem Recorded.unique {V V' : List (PortSpec × Bool)} (h : Recorded w V) (h' : Recorded w V') : V = V' := by
  obtain ⟨L, hL, rfl⟩ := h
  obtain ⟨L', hL', rfl⟩ := h'
  rw [Option.some.inj (hL.symm.trans hL')]

/-- What one published port makes of the variables and of the table. -/
inductive Published (w : World) (s : Sync) (port : PortSpec × SpecState) : Sync → World → Prop where
  | unsupported (hforwardable : specForwardable port.1 = false) :
      Published w s port { s with failures := s.failures ++ [⟨port.1, .udpAddressUnsupported⟩] } w
  | present (hforwardable : specForwardable port.1 = true) (hstate : port.2 = .forwarded) : Published w s port s w
  | refused (reason : ForwardFailure) (w' : World) (hforwardable : specForwardable port.1 = true)
      (hstate : port.2 ≠ .forwarded) :
      Published w s port { s with failures := s.failures ++ [⟨port.1, reason⟩], failed := true } w'
  | uncommitted (w' : World) (hforwardable : specForwardable port.1 = true) (hstate : port.2 ≠ .forwarded) :
      Published w s port { s with failed := true } w'
  | added (w' : World) (V V1 V2 : List (PortSpec × Bool)) (hforwardable : specForwardable port.1 = true)
      (hstate : port.2 ≠ .forwarded) (hbefore : Recorded w V) (hadded : Added port.1 V V1)
      (hcommitted : Committed port.1 V1 V2) (hafter : Recorded w' V2) : Published w s port s w'

theorem publish_spec {s : Sync} {port : PortSpec × SpecState} (hw : Inv p w) (hport : GoodSpec port.1) :
    wp (publish s port) (post (Inv p) fun s' w' => Inv p w' ∧ Published w s port s' w') w := by
  unfold publish
  split_ifs with hforwardable hstate
  · exact wp_return ⟨hw, .unsupported (by simpa using hforwardable)⟩
  · exact wp_return ⟨hw, .present (by simpa using hforwardable) hstate⟩
  · have hforwardable' : specForwardable port.1 = true := by simpa using hforwardable
    refine wp_then (addForward_spec hw hport) (fun a w1 h1 => ?_) fun w' h => h
    cases a with
    | some reason => exact wp_return ⟨h1.1, .refused reason w1 hforwardable' hstate⟩
    | none =>
      obtain ⟨hanswered, V, V1, hV, hV1, hadded⟩ := h1.2 rfl
      refine wp_then (commitForward_spec h1.1 hanswered) (fun committed w2 h2 => wp_return ⟨h2.1, ?_⟩) fun w' h => h
      cases committed with
      | false =>
        rw [Bool.not_false, Bool.or_true]
        exact .uncommitted w2 hforwardable' hstate
      | true =>
        obtain ⟨V1', V2, hV1', hV2, hcommitted⟩ := h2.2 rfl
        obtain rfl := hV1.unique hV1'
        rw [Bool.not_true, Bool.or_false]
        exact .added w2 V V1 V2 hforwardable' hstate hV hadded hcommitted hV2

/-- All published ports, and what holds of the variables and of the table while every port keeps it. -/
theorem publishAll_spec {P : Sync → World → List (PortSpec × SpecState) → Prop}
    (hP : ∀ s w port ports s' w', Published w s port s' w' → P s w (port :: ports) → P s' w' ports) :
    ∀ (ports : List (PortSpec × SpecState)) {w : World} {s : Sync}, Inv p w → (∀ port ∈ ports, GoodSpec port.1) →
      P s w ports → wp (fold publish s ports) (post (Inv p) fun s' w' => Inv p w' ∧ P s' w' []) w
  | [], w, s, hw, _, hs => wp_return ⟨hw, hs⟩
  | port :: ports, w, s, hw, hgood, hs => by
    have hhead := publish_spec (s := s) hw (hgood port List.mem_cons_self)
    refine wp_then hhead (fun s' w1 h1 => ?_) fun w' h => h
    exact publishAll_spec hP ports h1.1 (fun x hx => hgood x (List.mem_cons_of_mem _ hx)) (hP _ _ _ _ _ _ h1.2 hs)

end Sync

/-! ## What a synchronization leaves -/

section Converge

variable {p : Pass} {w w' : World} {specs : List PortSpec} {s s' : Sync}

/-- What is known of a port when the records have been looked at. -/
def Marked (specs : List PortSpec) (recorded : List SpecState) (spec : PortSpec) (state : SpecState) : Prop :=
  ∃ i : ℕ, specs[i]? = some spec ∧ recorded[i]? = some state

section Marked

variable {recorded : List SpecState} {spec spec' : PortSpec} {state state' : SpecState} {i : ℕ}

theorem Marked.mem_zip (h : (spec, state) ∈ specs.zip recorded) : Marked specs recorded spec state := by
  obtain ⟨i, hi⟩ := List.mem_iff_getElem?.mp h
  exact ⟨i, List.getElem?_zip_eq_some.mp hi⟩

theorem Marked.zip (h : Marked specs recorded spec state) : (spec, state) ∈ specs.zip recorded := by
  obtain ⟨i, hi⟩ := h
  exact List.mem_iff_getElem?.mpr ⟨i, List.getElem?_zip_eq_some.mpr hi⟩

theorem Marked.set_self (hi : specs[i]? = some spec) (hlength : recorded.length = specs.length) :
    Marked specs (recorded.set i state) spec state := by
  refine ⟨i, hi, List.getElem?_set_self ?_⟩
  rw [hlength]
  exact (List.getElem?_eq_some_iff.mp hi).1

theorem Marked.set_ne (h : Marked specs recorded spec state) (hi : specs[i]? = some spec') (hne : spec ≠ spec') :
    Marked specs (recorded.set i state') spec state := by
  obtain ⟨j, hj, hstate⟩ := h
  refine ⟨j, hj, ?_⟩
  rw [List.getElem?_set_ne, hstate]
  rintro rfl
  exact hne (Option.some.inj (hj.symm.trans hi))

theorem Marked.of_set (h : Marked specs (recorded.set i state') spec state) (hi : specs[i]? = some spec') :
    spec = spec' ∨ Marked specs recorded spec state := by
  obtain ⟨j, hj, hstate⟩ := h
  by_cases hij : i = j
  · subst hij
    exact .inl (Option.some.inj (hj.symm.trans hi))
  · rw [List.getElem?_set_ne hij] at hstate
    exact .inr ⟨j, hj, hstate⟩

end Marked

def SpecState.of (pending : Bool) : SpecState := if pending then .unconfirmed else .forwarded

/-- The variables, while nothing has failed. -/
structure Clean (specs : List PortSpec) (s : Sync) : Prop where
  failures : s.failures = []
  kept : ∀ r ∈ s.kept, specForwardable r.spec = true ∧ Marked specs s.recorded r.spec (.of r.pending)
  forwarded : ∀ spec, Marked specs s.recorded spec .forwarded → ∃ r ∈ s.kept, r.spec = spec

/-- The variables of the loop over the records. -/
structure Matched (specs : List PortSpec) (s : Sync) : Prop where
  length : s.recorded.length = specs.length
  failures : ∀ f ∈ s.failures, specForwardable f.spec = true ∧ Marked specs s.recorded f.spec .forwarded ∧
    ∃ r ∈ s.kept, r.spec = f.spec
  once : (s.failures.map (·.spec)).Nodup
  clean : s.failed = false → Clean specs s

theorem Matched.step {r : ForwardRecord} {B : List ForwardRecord} (hdistinct : Distinct (s.kept ++ r :: B))
    (h : Reconciled specs s r s') (hs : Matched specs s) : Matched specs s' := by
  have hne : ∀ x ∈ s.kept, x.spec ≠ r.spec := fun x hx => hdistinct.ne x (List.mem_append_left _ hx)
  have hmore : ∀ r' : ForwardRecord, ∀ x ∈ s.kept, x ∈ s.kept ++ [r'] := fun _ _ h => List.mem_append_left _ h
  -- a mark for this record leaves the marks of the other ports
  have hfailures : ∀ (i : ℕ) (r' : ForwardRecord) (state : SpecState), specs[i]? = some r.spec → ∀ f ∈ s.failures,
      specForwardable f.spec = true ∧ Marked specs (s.recorded.set i state) f.spec .forwarded ∧
        ∃ x ∈ s.kept ++ [r'], x.spec = f.spec := by
    intro i r' state hi f hf
    obtain ⟨hforwardable, hmarked, x, hx, hspec⟩ := hs.failures f hf
    exact ⟨hforwardable, hmarked.set_ne hi (hspec ▸ hne x hx), x, hmore r' x hx, hspec⟩
  have hlength : ∀ (i : ℕ) (state : SpecState), (s.recorded.set i state).length = specs.length := by
    intro i state
    rw [List.length_set, hs.length]
  cases h with
  | dropped => exact hs
  | stale =>
    refine ⟨hs.length, fun f hf => ?_, hs.once, fun h => by cases h⟩
    obtain ⟨hforwardable, hmarked, x, hx, hspec⟩ := hs.failures f hf
    exact ⟨hforwardable, hmarked, x, hmore r x hx, hspec⟩
  | kept i r' hi hforwardable hspec =>
    refine ⟨hlength i _, hfailures i r' _ hi, hs.once, fun hfailed => ?_⟩
    have hclean := hs.clean hfailed
    refine ⟨hclean.failures, fun x hx => ?_, fun spec hmarked => ?_⟩
    · rcases List.mem_append.mp hx with hx | hx
      · obtain ⟨hforwardable', hmarked⟩ := hclean.kept x hx
        exact ⟨hforwardable', hmarked.set_ne hi (hne x hx)⟩
      · obtain rfl := List.mem_singleton.mp hx
        rw [hspec]
        exact ⟨hforwardable, .set_self hi hs.length⟩
    · rcases hmarked.of_set hi with rfl | hmarked
      · exact ⟨r', List.mem_append_right _ List.mem_cons_self, hspec⟩
      · obtain ⟨x, hx, hspec'⟩ := hclean.forwarded spec hmarked
        exact ⟨x, hmore r' x hx, hspec'⟩
  | lost i r' reason hi hforwardable hspec =>
    refine ⟨hlength i _, fun f hf => ?_, ?_, fun h => by cases h⟩
    · rcases List.mem_append.mp hf with hf | hf
      · exact hfailures i r' _ hi f hf
      · obtain rfl := List.mem_singleton.mp hf
        dsimp only
        rw [hspec]
        exact ⟨hforwardable, .set_self hi hs.length, r', List.mem_append_right _ List.mem_cons_self, hspec⟩
    · rw [List.map_append, List.map_singleton, List.nodup_append]
      refine ⟨hs.once, List.nodup_singleton _, fun a ha b hb => ?_⟩
      obtain ⟨f, hf, rfl⟩ := List.mem_map.mp ha
      obtain rfl := List.mem_singleton.mp hb
      obtain ⟨-, -, x, hx, hspec'⟩ := hs.failures f hf
      rw [← hspec', hspec]
      exact hne x hx

/-- The failures of the ports that cannot be forwarded. -/
def unsupported (specs : List PortSpec) : List FailedForward :=
  (specs.filter fun spec => !specForwardable spec).map fun spec => ⟨spec, .udpAddressUnsupported⟩

/-- The table while the ports are published: what it holds belongs there, and what it lacks is still to come. -/
structure Growing (specs : List PortSpec) (V : List (PortSpec × Bool)) (rest : List (PortSpec × SpecState)) : Prop where
  here : ∀ c ∈ V, c.1 ∈ specs ∧ specForwardable c.1 = true ∧ (c.2 = true → (c.1, .unconfirmed) ∈ rest)
  missing : ∀ spec ∈ specs, specForwardable spec = true →
    (∃ b, (spec, b) ∈ V) ∨ ∃ state, (spec, state) ∈ rest ∧ state ≠ .forwarded

/-- The variables and the table of the loop over the published ports. -/
structure Publishing (specs : List PortSpec) (s : Sync) (w : World) (rest : List (PortSpec × SpecState)) : Prop where
  ports : ∀ port ∈ rest, port.1 ∈ specs
  apart : (rest.map (·.1)).Nodup
  failures : ∀ f ∈ s.failures, f.spec ∈ specs ∧
    ∀ state, (f.spec, state) ∈ rest → specForwardable f.spec = true ∧ state = .forwarded
  once : (s.failures.map (·.spec)).Nodup
  clean : s.failed = false → s.failures ++ unsupported (rest.map (·.1)) = unsupported specs ∧
    ∃ V, Recorded w V ∧ Growing specs V rest

section Steps

variable {V V1 V2 : List (PortSpec × Bool)} {port : PortSpec × SpecState} {rest : List (PortSpec × SpecState)}

/-- A port without a record of its own goes. -/
theorem Growing.skip (h : Growing specs V (port :: rest))
    (hport : specForwardable port.1 = false ∨ port.2 = .forwarded) : Growing specs V rest := by
  have hhead : ∀ spec state, specForwardable spec = true → state ≠ .forwarded → (spec, state) ∈ port :: rest →
      (spec, state) ∈ rest := by
    intro spec state hforwardable hstate hmem
    rcases List.mem_cons.mp hmem with rfl | hmem
    · rcases hport with hport | hport
      · rw [hforwardable] at hport
        cases hport
      · exact absurd hport hstate
    · exact hmem
  refine ⟨fun c hc => ?_, fun spec hspec hforwardable => ?_⟩
  · obtain ⟨h1, h2, h3⟩ := h.here c hc
    exact ⟨h1, h2, fun hpending => hhead _ _ h2 (by decide) (h3 hpending)⟩
  · rcases h.missing spec hspec hforwardable with hV | ⟨state, hmem, hstate⟩
    · exact .inl hV
    · exact .inr ⟨state, hhead spec state hforwardable hstate hmem, hstate⟩

/-- A port is added and committed. -/
theorem Growing.add (h : Growing specs V (port :: rest)) (hport : port.1 ∈ specs)
    (hforwardable : specForwardable port.1 = true) (hadded : Added port.1 V V1) (hcommitted : Committed port.1 V1 V2) :
    Growing specs V2 rest := by
  obtain ⟨A, B, b, rfl, rfl, hother⟩ := hcommitted
  have hV : ∀ c ∈ A ++ B, c ∈ V := by
    intro c hc
    have hc1 : c ∈ A ++ (port.1, b) :: B := by
      rcases List.mem_append.mp hc with hc | hc
      · exact List.mem_append_left _ hc
      · exact List.mem_append_right _ (List.mem_cons_of_mem _ hc)
    rcases hadded with hadded | ⟨hadded, -⟩
    · rw [hadded] at hc1
      rcases List.mem_append.mp hc1 with hc1 | hc1
      · exact hc1
      · exact absurd (congrArg Prod.fst (List.mem_singleton.mp hc1)) (hother c hc)
    · rwa [hadded] at hc1
  have hmem : ∀ c, c ∈ A ++ (port.1, false) :: B ↔ c = (port.1, false) ∨ c ∈ A ++ B := by
    intro c
    rw [List.mem_append, List.mem_cons, List.mem_append]
    tauto
  refine ⟨fun c hc => ?_, fun spec hspec hforwardable' => ?_⟩
  · rcases (hmem c).mp hc with rfl | hc
    · exact ⟨hport, hforwardable, fun h => by cases h⟩
    · obtain ⟨h1, h2, h3⟩ := h.here c (hV c hc)
      refine ⟨h1, h2, fun hpending => ?_⟩
      rcases List.mem_cons.mp (h3 hpending) with hhead | hrest
      · exact absurd (congrArg Prod.fst hhead) (hother c hc)
      · exact hrest
  · by_cases hself : spec = port.1
    · exact .inl ⟨false, (hmem _).mpr (.inl (by rw [hself]))⟩
    · rcases h.missing spec hspec hforwardable' with ⟨d, hd⟩ | ⟨state, hstate, hne⟩
      · have hd1 : (spec, d) ∈ A ++ (port.1, b) :: B := by
          rcases hadded with hadded | ⟨hadded, -⟩
          · exact hadded ▸ List.mem_append_left _ hd
          · exact hadded ▸ hd
        rcases List.mem_append.mp hd1 with hd1 | hd1
        · exact .inl ⟨d, List.mem_append_left _ hd1⟩
        · rcases List.mem_cons.mp hd1 with hd1 | hd1
          · exact absurd (congrArg Prod.fst hd1) hself
          · exact .inl ⟨d, List.mem_append_right _ (List.mem_cons_of_mem _ hd1)⟩
      · rcases List.mem_cons.mp hstate with hhead | hrest
        · exact absurd (congrArg Prod.fst hhead) hself
        · exact .inr ⟨state, hrest, hne⟩

theorem unsupported_cons (spec : PortSpec) (specs : List PortSpec) : unsupported (spec :: specs) =
    (if specForwardable spec then [] else [⟨spec, .udpAddressUnsupported⟩]) ++ unsupported specs := by
  unfold unsupported
  cases h : specForwardable spec with
  | true => rw [List.filter_cons_of_neg (by simp [h]), if_pos rfl, List.nil_append]
  | false => rw [List.filter_cons_of_pos (by simp [h]), List.map_cons, if_neg (by simp), List.singleton_append]

theorem Publishing.step (h : Published w s port s' w') (hs : Publishing specs s w (port :: rest)) :
    Publishing specs s' w' rest := by
  have hports : ∀ x ∈ rest, x.1 ∈ specs := fun x hx => hs.ports x (List.mem_cons_of_mem _ hx)
  obtain ⟨hhead, hapart⟩ := List.nodup_cons.mp hs.apart
  have hfailures : ∀ f ∈ s.failures, f.spec ∈ specs ∧
      ∀ state, (f.spec, state) ∈ rest → specForwardable f.spec = true ∧ state = .forwarded :=
    fun f hf => ⟨(hs.failures f hf).1, fun state hmem => (hs.failures f hf).2 state (List.mem_cons_of_mem _ hmem)⟩
  -- a failure of the port is its first
  have hfail : ∀ reason : ForwardFailure, (specForwardable port.1 = true → port.2 ≠ .forwarded) →
      (∀ f ∈ s.failures ++ [(⟨port.1, reason⟩ : FailedForward)], f.spec ∈ specs ∧
        ∀ state, (f.spec, state) ∈ rest → specForwardable f.spec = true ∧ state = .forwarded) ∧
      ((s.failures ++ [(⟨port.1, reason⟩ : FailedForward)]).map (·.spec)).Nodup := by
    intro reason hport
    refine ⟨fun f hf => ?_, ?_⟩
    · rcases List.mem_append.mp hf with hf | hf
      · exact hfailures f hf
      · obtain rfl := List.mem_singleton.mp hf
        exact ⟨hs.ports port List.mem_cons_self, fun state hmem =>
          absurd (List.mem_map_of_mem (f := Prod.fst) hmem) hhead⟩
    · rw [List.map_append, List.map_singleton, List.nodup_append]
      refine ⟨hs.once, List.nodup_singleton _, fun a ha b hb => ?_⟩
      obtain ⟨f, hf, rfl⟩ := List.mem_map.mp ha
      obtain rfl := List.mem_singleton.mp hb
      intro hspec
      have hstate := (hs.failures f hf).2 port.2
      rw [hspec] at hstate
      obtain ⟨h1, h2⟩ := hstate List.mem_cons_self
      exact hport h1 h2
  cases h with
  | unsupported hforwardable =>
    obtain ⟨h1, h2⟩ := hfail .udpAddressUnsupported fun h => by
      rw [hforwardable] at h
      cases h
    refine ⟨hports, hapart, h1, h2, fun hfailed => ?_⟩
    obtain ⟨hlist, V, hV, hgrowing⟩ := hs.clean hfailed
    refine ⟨?_, V, hV, hgrowing.skip (.inl hforwardable)⟩
    rw [← hlist, List.map_cons, unsupported_cons, hforwardable, if_neg (by simp), List.append_assoc]
  | present hforwardable hstate =>
    refine ⟨hports, hapart, hfailures, hs.once, fun hfailed => ?_⟩
    obtain ⟨hlist, V, hV, hgrowing⟩ := hs.clean hfailed
    refine ⟨?_, V, hV, hgrowing.skip (.inr hstate)⟩
    rw [← hlist, List.map_cons, unsupported_cons, hforwardable, if_pos rfl, List.nil_append]
  | refused reason w' hforwardable hstate =>
    obtain ⟨h1, h2⟩ := hfail reason fun _ => hstate
    exact ⟨hports, hapart, h1, h2, fun h => by cases h⟩
  | uncommitted w' hforwardable hstate => exact ⟨hports, hapart, hfailures, hs.once, fun h => by cases h⟩
  | added w' V0 V1 V2 hforwardable hstate hbefore hadded hcommitted hafter =>
    refine ⟨hports, hapart, hfailures, hs.once, fun hfailed => ?_⟩
    obtain ⟨hlist, V, hV, hgrowing⟩ := hs.clean hfailed
    obtain rfl := hV.unique hbefore
    refine ⟨?_, V2, hafter, hgrowing.add (hs.ports port List.mem_cons_self) hforwardable hadded hcommitted⟩
    rw [← hlist, List.map_cons, unsupported_cons, hforwardable, if_pos rfl, List.nil_append]

end Steps

theorem specs_nodup (h : dockerSpecsValid specs = true) : specs.Nodup := by
  refine (dockerSpecsValid_distinct h).imp fun {a b} hab hne => ?_
  rw [hne, sameListener_self] at hab
  cases hab

/-- The records that were kept are where the published ports start from. -/
theorem Matched.publishing (h : Matched specs s) (hnodup : specs.Nodup) (hV : Recorded w (view s.kept)) :
    Publishing specs s w (specs.zip s.recorded) := by
  have hfst : (specs.zip s.recorded).map (·.1) = specs := List.map_fst_zip h.length.ge
  have hmem : ∀ spec state, Marked specs s.recorded spec state → spec ∈ specs := by
    rintro spec state ⟨i, hi, -⟩
    exact List.mem_of_getElem? hi
  refine ⟨fun port hport => hmem _ _ (Marked.mem_zip hport), hfst.symm ▸ hnodup, fun f hf => ?_, h.once, fun hfailed => ?_⟩
  · obtain ⟨hforwardable, hmarked, -⟩ := h.failures f hf
    refine ⟨hmem _ _ hmarked, fun state hstate => ⟨hforwardable, ?_⟩⟩
    have hsame := List.inj_on_of_nodup_map (f := Prod.fst) (hfst.symm ▸ hnodup) hstate hmarked.zip rfl
    exact congrArg Prod.snd hsame
  · have hclean := h.clean hfailed
    refine ⟨by rw [hclean.failures, List.nil_append, hfst], _, hV, fun c hc => ?_, fun spec hspec hforwardable => ?_⟩
    · obtain ⟨r, hr, rfl⟩ := List.mem_map.mp hc
      obtain ⟨hforwardable, hmarked⟩ := hclean.kept r hr
      refine ⟨hmem _ _ hmarked, hforwardable, fun hpending => ?_⟩
      change r.pending = true at hpending
      rw [hpending] at hmarked
      exact hmarked.zip
    · obtain ⟨i, hi⟩ := List.mem_iff_getElem?.mp hspec
      have hlt : i < s.recorded.length := h.length ▸ (List.getElem?_eq_some_iff.mp hi).1
      have hmarked : Marked specs s.recorded spec s.recorded[i] := ⟨i, hi, List.getElem?_eq_getElem hlt⟩
      by_cases hstate : s.recorded[i] = .forwarded
      · obtain ⟨r, hr, rfl⟩ := hclean.forwarded spec (hstate ▸ hmarked)
        exact .inl ⟨r.pending, List.mem_map.mpr ⟨r, hr, rfl⟩⟩
      · exact .inr ⟨_, hmarked.zip, hstate⟩

/-- The table holds exactly one record for each port that can be forwarded, and it is committed. -/
def Converged (specs : List PortSpec) (w : World) : Prop :=
  ∃ L, recordsLoad w.file = some L ∧ (∀ r ∈ L, r.pending = false) ∧
    (L.map (·.spec)).Perm (specs.filter fun spec => specForwardable spec)

theorem Growing.converged {V : List (PortSpec × Bool)} (h : Growing specs V []) (hV : Recorded w V) (hw : Inv p w)
    (hnodup : specs.Nodup) : Converged specs w := by
  obtain ⟨L, hL, hkept⟩ := hw.kept
  obtain rfl := hV.unique ⟨L, hL, rfl⟩
  have hhere : ∀ r ∈ L, r.spec ∈ specs ∧ specForwardable r.spec = true ∧ r.pending = false := by
    intro r hr
    obtain ⟨h1, h2, h3⟩ := h.here (r.spec, r.pending) (List.mem_map.mpr ⟨r, hr, rfl⟩)
    refine ⟨h1, h2, ?_⟩
    by_contra hpending
    exact absurd (h3 (by simpa using hpending)) List.not_mem_nil
  have hLnodup : (L.map (·.spec)).Nodup := by
    refine hkept.distinct.imp fun {a b} hab hne => ?_
    rw [hne, sameListener_self] at hab
    cases hab
  refine ⟨L, hL, fun r hr => (hhere r hr).2.2, ?_⟩
  rw [List.perm_ext_iff_of_nodup hLnodup (hnodup.filter _)]
  intro spec
  rw [List.mem_map, List.mem_filter]
  constructor
  · rintro ⟨r, hr, rfl⟩
    exact ⟨(hhere r hr).1, (hhere r hr).2.1⟩
  · rintro ⟨hspec, hforwardable⟩
    rcases h.missing spec hspec hforwardable with ⟨b, hb⟩ | ⟨state, hstate, -⟩
    · obtain ⟨r, hr, hview⟩ := List.mem_map.mp hb
      exact ⟨r, hr, congrArg Prod.fst hview⟩
    · exact absurd hstate List.not_mem_nil

/-- What a synchronization that ended says. -/
structure Synced (specs : List PortSpec) (a : Bool × Option (List FailedForward)) (w : World) : Prop where
  valid : ∀ failures, a.2 = some failures → dockerSpecsValid specs = true
  once : ∀ failures, a.2 = some failures → (failures.map (·.spec)).Nodup ∧ ∀ f ∈ failures, f.spec ∈ specs
  converged : a.1 = true → a.2 = some (unsupported specs) ∧ Converged specs w

theorem portForwardSyncDocker_spec (hw : Inv p w) :
    wp (portForwardSyncDocker specs) (post (Inv p) fun a w' => Inv p w' ∧ Synced specs a w') w := by
  have hnone : ∀ w', Synced specs (false, none) w' := fun w' => ⟨(fun _ h => by cases h), (fun _ h => by cases h), fun h => by cases h⟩
  unfold portForwardSyncDocker
  split_ifs with hvalid
  · exact wp_return ⟨hw, hnone w⟩
  have hvalid' : dockerSpecsValid specs = true := by simpa using hvalid
  have hnodup := specs_nodup hvalid'
  refine wp_then stateLock_spec (fun locked w1 h1 => ?_) fun w' h => hw.later h
  have hw1 := hw.later h1.1
  cases locked with
  | false => exact wp_return ⟨hw1, hnone w1⟩
  | true =>
  rw [if_neg (by simp)]
  refine wp_then (loadRecords_spec hw1) (fun loaded w2 h2 => ?_) fun w' h => hw1.later h
  have hw2 := hw1.later h2.1
  cases loaded with
  | none => exact wp_return ⟨hw2, hnone w2⟩
  | some records =>
    obtain ⟨-, hL⟩ := h2.2 records rfl
    have hstart : Matched specs { recorded := specs.map fun _ => .unrecorded } := by
      refine ⟨List.length_map .., fun f hf => absurd hf List.not_mem_nil, List.nodup_nil, fun _ =>
        ⟨rfl, fun r hr => absurd hr List.not_mem_nil, fun spec hmarked => ?_⟩⟩
      obtain ⟨i, -, hi⟩ := hmarked
      obtain ⟨-, -, h⟩ := List.mem_map.mp (List.mem_of_getElem? hi)
      cases h
    refine wp_then (reconcileAll_spec (fun s r B s' hdistinct hr hs => hs.step hdistinct hr) records hw2.sane hL hstart)
      (fun s w3 h3 => ?_) fun w' h => hw2.later h
    obtain ⟨hkept, hmatched⟩ := h3.2
    refine wp_then (saveRecords_spec (hw2.later h3.1) hkept) (fun saved w4 h4 => ?_) fun w' h => h
    cases saved with
    | false => exact wp_return ⟨h4.inv, hnone w4⟩
    | true =>
      rw [if_neg (by simp)]
      have hpublishing := hmatched.publishing hnodup (w := w4) ⟨_, h4.saved rfl, rfl⟩
      have hgood : ∀ port ∈ specs.zip s.recorded, GoodSpec port.1 := fun port hport =>
        dockerSpecsValid_good hvalid' _ (hpublishing.ports port hport)
      refine wp_then (publishAll_spec (P := Publishing specs) (fun s w port ports s' w' h hs => hs.step h) _ h4.inv hgood
        hpublishing) (fun s' w5 h5 => wp_return ⟨h5.1, fun _ _ => hvalid', ?_, fun hfailed => ?_⟩) fun w' h => h
      · rintro failures hfailures
        obtain rfl := Option.some.inj hfailures
        exact ⟨h5.2.once, fun f hf => (h5.2.failures f hf).1⟩
      · obtain ⟨hlist, V, hV, hgrowing⟩ := h5.2.clean (by simpa using hfailed)
        refine ⟨congrArg some ?_, hgrowing.converged hV h5.1 hnodup⟩
        exact (List.append_nil _).symm.trans hlist

end Converge

/-! ## The other operations -/

section Operations

variable {p : Pass} {w : World} {L : List ForwardRecord}

theorem portForwardCleanup_spec (hw : Inv p w) : wp portForwardCleanup (post (Inv p) fun _ w' => Inv p w') w := by
  unfold portForwardCleanup
  refine wp_then stateLock_spec (fun locked w1 h1 => ?_) fun w' h => hw.later h
  have hw1 := hw.later h1.1
  split_ifs
  · exact wp_return hw1
  refine wp_then stateLock_spec (fun locked' w2 h2 => ?_) fun w' h => hw1.later h
  have hw2 := hw1.later h2.1
  split_ifs
  · exact wp_return hw2
  refine wp_then (loadRecords_spec hw2) (fun loaded w3 h3 => ?_) fun w' h => hw2.later h
  have hw3 := hw2.later h3.1
  cases loaded with
  | none => exact wp_return hw3
  | some records =>
    obtain ⟨-, hL⟩ := h3.2 records rfl
    refine wp_then (stopRecords_spec hw3.sane records [] hL) (fun kept w4 h4 => ?_) fun w' h => hw3.later h
    refine wp_then (saveRecords_spec (hw3.later h4.1) h4.2) (fun saved w5 h5 => ?_) fun w' h => h
    exact wp_return h5.inv

theorem unconfirm_spec (owner : Process) (r : ForwardRecord) : (unconfirm owner r).spec = r.spec := by
  unfold unconfirm
  split_ifs <;> rfl

theorem unconfirm_identity (owner : Process) (r : ForwardRecord) : (unconfirm owner r).identity = r.identity := by
  unfold unconfirm
  split_ifs <;> rfl

/-- No TCP record stays committed. -/
theorem unconfirm_pending {owner : Process} {r : ForwardRecord} (h : r.spec.protocol = .tcp) :
    (unconfirm owner r).pending = true := by
  unfold unconfirm
  split_ifs with hif
  · exact hif.resolve_left fun hne => hne h
  · rfl

theorem unconfirm_valid {owner : Process} {r : ForwardRecord} (hr : Valid r) : Valid (unconfirm owner r) := by
  unfold unconfirm
  split_ifs
  · exact hr
  · have hright := recordWrong_eq_false.mp hr.right
    obtain ⟨hpid, hsec, husec⟩ := owner.property
    refine ⟨recordWrong_eq_false.mpr ⟨hright.address, hright.hostPort, hright.containerPort, hright.pid, hright.startUsec,
      hright.start, ?_, husec, fun _ => hpid.1, fun h => ?_, ⟨fun _ => hsec.1, fun _ => hpid.1⟩, fun _ => rfl,
      fun _ => rfl, fun h => by cases h⟩, hr.pid, hr.startSec, hpid.2, hsec.2⟩
    · show 0 ≤ owner.val.pid
      omega
    · change owner.val.startSec = 0 at h
      omega

theorem Kept.unconfirm (owner : Process) (hL : Kept w L) : Kept w (L.map (unconfirm owner)) := by
  have hmap : (L.map (Forward.unconfirm owner)).map (·.spec) = L.map (·.spec) := by
    rw [List.map_map]
    exact List.map_congr_left fun r _ => unconfirm_spec owner r
  refine ⟨⟨fun x hx => ?_, ?_⟩, ?_, ⟨fun key hkey => ?_, fun relay hrelay => ?_⟩, fun x hx htcp hpending => ?_⟩
  · obtain ⟨r, hr, rfl⟩ := List.mem_map.mp hx
    exact unconfirm_valid (hL.table.valid r hr)
  · rw [List.length_map]
    exact hL.table.length
  · unfold Distinct
    rw [hmap]
    exact hL.distinct
  · obtain ⟨r, hr, hprotocol, hrkey⟩ := hL.owned.tcp key hkey
    refine ⟨_, List.mem_map_of_mem hr, ?_⟩
    rw [unconfirm_spec]
    exact ⟨hprotocol, hrkey⟩
  · obtain ⟨r, hr, hcovers⟩ := hL.owned.udp relay hrelay
    exact ⟨_, List.mem_map_of_mem hr, hcovers.same (unconfirm_spec owner r) (unconfirm_identity owner r)⟩
  · obtain ⟨r, hr, rfl⟩ := List.mem_map.mp hx
    rw [unconfirm_spec] at htcp
    rw [unconfirm_pending htcp] at hpending
    cases hpending

/-- The trust may be withdrawn when no TCP record is committed, and given for another pass. -/
theorem Inv.withdraw (hw : Inv p w) (hfile : recordsLoad w.file = some L)
    (hpending : ∀ r ∈ L, r.spec.protocol = .tcp → r.pending = true) (q : Pass) :
    Inv q { w with answered := [], pass := q } := by
  obtain ⟨T, hT, hkept⟩ := hw.kept
  obtain rfl := Option.some.inj (hT.symm.trans hfile)
  refine ⟨rfl, ⟨hw.sane.master, hw.sane.relays⟩, T, hT, hkept.table, hkept.distinct,
    ⟨hkept.owned.tcp, fun relay hrelay => ?_⟩, fun r hr htcp hfalse => ?_⟩
  · obtain ⟨r, hr, hcovers⟩ := hkept.owned.udp relay hrelay
    exact ⟨r, hr, hcovers.protocol, hcovers.key, hcovers.names⟩
  · rw [hpending r hr htcp] at hfalse
    cases hfalse

theorem portForwardUnconfirmTcp_spec (hw : Inv p w) :
    wp portForwardUnconfirmTcp (post (Inv p) fun a w' => Inv p w' ∧ (a = true → ∀ q, Inv q { w' with pass := q })) w := by
  unfold portForwardUnconfirmTcp
  refine wp_then stateLock_spec (fun locked w1 h1 => ?_) fun w' h => hw.later h
  have hw1 := hw.later h1.1
  cases locked with
  | false => exact wp_return ⟨hw1, fun h => by cases h⟩
  | true =>
  rw [if_neg (by simp)]
  refine wp_then (loadRecords_spec hw1) (fun loaded w2 h2 => ?_) fun w' h => hw1.later h
  have hw2 := hw1.later h2.1
  cases loaded with
  | none => exact wp_return ⟨hw2, fun h => by cases h⟩
  | some records =>
    obtain ⟨hfile, hL⟩ := h2.2 records rfl
    refine wp_then own_spec (fun own w3 h3 => ?_) fun w' h => hw2.later h
    have hw3 := hw2.later h3.1
    have hfile3 : recordsLoad w3.file = some records := (congrArg recordsLoad h3.1.file).trans hfile
    cases own with
    | none => exact wp_return ⟨hw3, fun h => by cases h⟩
    | some owner =>
      -- the trust is withdrawn from a table in which every TCP record is pending
      have hend : ∀ (done : Bool) (w' : World), Inv p w' → (done = true → ∀ q, Inv q { w' with answered := [], pass := q }) →
          wp (if done then do
              note fun w => { w with answered := [] }
              return true
            else return false : Op Bool)
            (post (Inv p) fun a w' => Inv p w' ∧ (a = true → ∀ q, Inv q { w' with pass := q })) w' := by
        intro done w' hw' hdone
        cases done with
        | true =>
          refine wp_bind (wp_note ?_)
          have hsame := hdone rfl w'.pass
          exact wp_return ⟨hw'.pass ▸ hsame, fun _ => hdone rfl⟩
        | false => exact wp_return ⟨hw', fun h => by cases h⟩
      dsimp only
      by_cases hchanged : (records.any fun r => r.spec.protocol = .tcp && !r.pending) = true
      · rw [if_pos hchanged]
        refine wp_then (saveRecords_spec hw3 ((hL.since hw2.sane h3.1.toSince).unconfirm owner)) (fun saved w4 h4 => ?_)
          fun w' h => h
        refine hend saved w4 h4.inv fun hsaved => h4.inv.withdraw (h4.saved hsaved) fun r hr htcp => ?_
        obtain ⟨x, -, rfl⟩ := List.mem_map.mp hr
        rw [unconfirm_spec] at htcp
        exact unconfirm_pending htcp
      · rw [if_neg hchanged]
        have hsame : wp (pure true : Op Bool) (post (Inv p) fun _ w' => w' = w3) w3 := wp_return rfl
        refine wp_then hsame (fun done w4 h4 => ?_) fun w' h => h
        subst h4
        refine hend done _ hw3 fun _ => hw3.withdraw hfile3 fun r hr htcp => ?_
        by_contra hpending
        exact hchanged (List.any_eq_true.mpr ⟨r, hr, by simp [htcp, hpending]⟩)

end Operations

/-! ## Runs -/

/-- An operation, complete or stopped anywhere, or something that happens between two operations. -/
inductive Next (w w' : World) : Prop where
  | sync (specs : List PortSpec) (h : Leads (portForwardSyncDocker specs) w w')
  | cleanup (h : Leads portForwardCleanup w w')
  | unconfirm (h : Leads portForwardUnconfirmTcp w w')
  | event (e : Event) (h : w' = e.apply w)

/-- Nothing is recorded, held or running. -/
structure Fresh (w : World) : Prop where
  file : recordsLoad w.file = some []
  held : w.held = []
  relays : w.relays = []

theorem Inv.of_fresh {w : World} (h : Fresh w) : Inv w.pass w := by
  obtain ⟨hfile, hheld, hrelays⟩ := h
  refine ⟨rfl, ⟨fun _ => hheld, fun a ha => ?_⟩, [], hfile, ⟨fun x hx => absurd hx List.not_mem_nil, Nat.zero_le _⟩,
    List.Pairwise.nil, ⟨fun key hkey => ?_, fun relay hrelay => ?_⟩, fun x hx => absurd hx List.not_mem_nil⟩
  · rw [hrelays] at ha
    exact absurd ha List.not_mem_nil
  · rw [hheld] at hkey
    exact absurd hkey List.not_mem_nil
  · rw [hrelays] at hrelay
    exact absurd hrelay List.not_mem_nil

theorem Inv.next {p : Pass} {w w' : World} (hw : Inv p w) (h : Next w w') : Inv p w' := by
  cases h with
  | sync specs h => exact h.of_post (portForwardSyncDocker_spec hw) fun _ _ h => h.1
  | cleanup h => exact h.of_post (portForwardCleanup_spec hw) fun _ _ h => h
  | unconfirm h => exact h.of_post (portForwardUnconfirmTcp_spec hw) fun _ _ h => h.1
  | event e h => exact h ▸ hw.later (Later.event e w)

theorem Inv.reached {w0 w : World} (h0 : Fresh w0) (h : Reaches Next w0 w) : Inv w0.pass w :=
  h.inv (Inv.of_fresh h0) fun _ _ hw hn => hw.next hn

/-- A TCP port, a UDP port, and a UDP port that is published on one address. -/
def samplePorts : List PortSpec :=
  [⟨ascii "127.0.0.1", 8080, 80, .tcp⟩, ⟨ascii "0.0.0.0", 53, 53, .udp⟩, ⟨ascii "127.0.0.1", 5353, 53, .udp⟩]

/-- The ports when the TCP port is not published any more. -/
def sampleRest : List PortSpec := samplePorts.drop 1

theorem sampleOwner_good : Identity.Good ⟨100, 1, 0⟩ := ⟨by decide, by decide, by decide⟩

theorem sampleRelay_good : Identity.Good ⟨200, 2, 0⟩ := ⟨by decide, by decide, by decide⟩

def sampleOwner : Process := ⟨⟨100, 1, 0⟩, sampleOwner_good⟩

def sampleRelay : Process := ⟨⟨200, 2, 0⟩, sampleRelay_good⟩

/-- Every request is answered, and the relay that is spawned writes its pidfile. -/
def sampleCell : Cell :=
  { answered := true, reported := true, own := some sampleOwner, spawned := some sampleRelay,
    events := [.pidfileWritten ⟨(ascii "0.0.0.0", 53), sampleRelay⟩] }

def sampleStart : World := ⟨none, true, [], [], fun _ => .absent, ⟨0, {}⟩, []⟩

/-- What the first synchronization leaves. -/
def sampleForwarded : World := (portForwardSyncDocker samplePorts (List.replicate 40 sampleCell) sampleStart).2.2

theorem sampleStart_fresh : Fresh sampleStart := ⟨rfl, rfl, rfl⟩

/-- Both ports are forwarded, and later synchronizations report the third one. -/
theorem sample_runs : sampleForwarded.held.length = 1 ∧ sampleForwarded.relays.length = 1 ∧
    (portForwardSyncDocker sampleRest (List.replicate 40 sampleCell) sampleForwarded).1 =
      .ok (true, some (unsupported sampleRest)) ∧
    (portForwardSyncDocker samplePorts (List.replicate 40 sampleCell) sampleForwarded).1 =
      .ok (true, some (unsupported samplePorts)) := by
  decide +kernel

theorem sampleForwarded_reached : Reaches Next sampleStart sampleForwarded :=
  .single (.sync samplePorts ⟨List.replicate 40 sampleCell, rfl⟩)

/-- A TCP record is committed only when the master has answered a request for its forward with success since the trust
was last withdrawn. -/
theorem forwards_confirmed {w0 w : World} (h0 : Fresh w0) (h : Reaches Next w0 w) :
    ∃ L, recordsLoad w.file = some L ∧
      ∀ r ∈ L, r.spec.protocol = .tcp → r.pending = false → (r.spec, w.pass) ∈ w.answered := by
  obtain ⟨L, hL, hkept⟩ := (Inv.reached h0 h).kept
  exact ⟨L, hL, hkept.confirmed⟩

theorem forwards_confirmed_sample : ∃ L, recordsLoad sampleForwarded.file = some L ∧
    ∀ r ∈ L, r.spec.protocol = .tcp → r.pending = false → (r.spec, sampleForwarded.pass) ∈ sampleForwarded.answered :=
  forwards_confirmed sampleStart_fresh sampleForwarded_reached

/-- A synchronization that returns 0, in any state reached, leaves exactly one record for each published port that can
be forwarded, all committed, and has reported the other ports. -/
theorem sync_converges {w0 w : World} (h0 : Fresh w0) (h : Reaches Next w0 w) {specs : List PortSpec} {tape : List Cell}
    {failures : Option (List FailedForward)}
    (hrun : (portForwardSyncDocker specs tape w).1 = .ok (true, failures)) :
    failures = some (unsupported specs) ∧ ∃ L, recordsLoad (portForwardSyncDocker specs tape w).2.2.file = some L ∧
      (∀ r ∈ L, r.pending = false) ∧ (L.map (·.spec)).Perm (specs.filter fun spec => specForwardable spec) := by
  have hwp : wp (portForwardSyncDocker specs) (post (Inv w0.pass) fun a w' => Inv w0.pass w' ∧ Synced specs a w') w :=
    portForwardSyncDocker_spec (Inv.reached h0 h)
  specialize hwp tape
  rw [hrun] at hwp
  exact hwp.2.converged rfl

theorem sync_converges_sample :
    unsupported sampleRest = [⟨⟨ascii "127.0.0.1", 5353, 53, .udp⟩, .udpAddressUnsupported⟩] ∧
    ∃ L, recordsLoad (portForwardSyncDocker sampleRest (List.replicate 40 sampleCell) sampleForwarded).2.2.file = some L ∧
      (∀ r ∈ L, r.pending = false) ∧ (L.map (·.spec)).Perm (sampleRest.filter fun spec => specForwardable spec) :=
  ⟨by decide, (@sync_converges sampleStart sampleForwarded sampleStart_fresh sampleForwarded_reached sampleRest
    (List.replicate 40 sampleCell) (some (unsupported sampleRest)) sample_runs.2.2.1).2⟩

end Hamn.Forward
