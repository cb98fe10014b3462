import Hamn.Lib.Delimited
import Hamn.Lib.RecentList
import Hamn.Lib.SerdeJson
import Hamn.Tui.Screen

/-!
# Preferences — recent and favorite targets (`control/preferences.rs`)

One private JSON document keeps the default workspace and two lists of targets.  The writer is `serde_json`'s compact
form; the reader is a parameter of which only is known that it reads back what was written.  Every writer holds the
lock, so that calls come one after the other.

* `Target.valid`, `loadDocument`, `save`, `rememberTarget`: the checks and the calls.
* `write_injective`: what was written can be read back.
* `run_keeps`: what the document holds after any sequence of calls.
* `remember_refused`: the document that a valid target does not fit into.
-/

namespace Hamn.Tui

open Delimit RecentList SerdeJson

namespace Target

def fields : Target → List String
  | hamn name => [name]
  | docker name config => [name, config.getD ""]
  | kubernetes name namespace_ config => [name, namespace_.getD "", config.getD ""]

def valid (t : Target) : Bool :=
  t.fields.head? != some "" &&
    t.fields.all fun s => decide (s.utf8ByteSize ≤ 1024) && !s.toList.any isControl

end Target

structure Preferences where
  version : ℕ
  defaultWorkspace : Workspace
  recentTargets : List Target := []
  favorites : List Target := []
  deriving DecidableEq

namespace Preferences

/-! ## The document -/

def targetBody : Target → Word
  | .hamn name => "hamn\",\"name\":".toList ++ string name
  | .docker name config => "docker\",\"name\":".toList ++ (string name ++ (",\"config\":".toList ++ nullable config))
  | .kubernetes name namespace_ config =>
    "kubernetes\",\"name\":".toList ++ (string name ++ (",\"namespace\":".toList ++ (nullable namespace_ ++
      (",\"config\":".toList ++ nullable config))))

def target (t : Target) : Word := "\x7b\"kind\":\"".toList ++ (targetBody t ++ ['\x7d'])

def workspace : Workspace → Word
  | .containers => "containers".toList
  | .kubernetes => "kubernetes".toList

/-- `skip_serializing_if = "Vec::is_empty"` -/
def nonempty (targets : List Target) : Option (List Target) := if targets = [] then none else some targets

def LIST_KEYS : List Word := [",\"recentTargets\":[".toList, ",\"favorites\":[".toList]

/-- `serde_json::to_vec`, as characters. -/
def write (p : Preferences) : Word :=
  "\x7b\"version\":".toList ++ Nat.toDigits 10 p.version ++ ",\"defaultWorkspace\":\"".toList ++
    workspace p.defaultWorkspace ++ ['"'] ++
    record (listText target ',' ']') LIST_KEYS [nonempty p.recentTargets, nonempty p.favorites] ++ ['\x7d']

/-! ## Calls -/

section

-- `serde_json::from_slice`
variable (read : Word → Option Preferences)

def accepted (p : Preferences) : Bool :=
  p.version == 1 && decide (p.recentTargets.length ≤ 32) && decide (p.favorites.length ≤ 32) &&
    (p.recentTargets ++ p.favorites).all Target.valid

/-- The document at its path, when there is one. -/
def loadDocument : Option Word → Except Unit (Option Preferences)
  | none => .ok none
  | some text =>
    if 65536 < size text then .error ()
    else
      match read text with
      | none => .error ()
      | some p => if p.accepted then .ok (some p) else .error ()

/-- `targets(path, true)` -/
def favoriteTargets (document : Option Word) : List Target :=
  match loadDocument read document with
  | .ok (some p) => p.favorites
  | _ => []

def save (document : Option Word) (w : Workspace) : Option Word :=
  let value : Preferences :=
    match loadDocument read document with
    | .ok (some p) => p
    | _ => { version := 1, defaultWorkspace := w }
  some { value with defaultWorkspace := w }.write

/-- One list with the target. -/
def edited (values : List Target) (t : Target) (favorite : Bool) : List Target :=
  let values' := values.erase t
  (if favorite = false ∨ t ∉ values then t :: values' else values').take 32

def remembered (p : Preferences) (t : Target) (favorite : Bool) : Preferences :=
  if favorite then { p with favorites := edited p.favorites t true }
  else { p with recentTargets := edited p.recentTargets t false }

/-- The document afterwards, and whether the call succeeds. -/
def rememberTarget (document : Option Word) (t : Target) (favorite : Bool) : Option Word × Bool :=
  if t.valid = false then (document, false)
  else
    match loadDocument read document with
    | .ok (some p) =>
      if 65536 < size (p.remembered t favorite).write then (document, false)
      else (some (p.remembered t favorite).write, true)
    | _ => (document, false)

inductive Call where
  | save (w : Workspace)
  | remember (t : Target) (favorite : Bool)

def call (document : Option Word) : Call → Option Word × Bool
  | .save w => (save read document w, true)
  | .remember t favorite => rememberTarget read document t favorite

/-- A call, the documents before and after it, and whether it succeeded. -/
structure Event where
  before : Option Word
  call : Call
  after : Option Word
  ok : Bool

/-- The calls of all processes, the last one first. -/
def run (document : Option Word) : List Call → List Event
  | [] => []
  | c :: calls =>
    let events := run document calls
    let before := (events.head?.map Event.after).getD document
    let result := Preferences.call read before c
    ⟨before, c, result.1, result.2⟩ :: events

/-- The document after the calls. -/
def final (document : Option Word) (events : List Event) : Option Word :=
  (events.head?.map Event.after).getD document

/-! ## What is expected -/

/-- The targets that were remembered as recent, the newest first. -/
def history (events : List Event) : List Target :=
  events.filterMap fun e =>
    match e.call, e.ok with
    | .remember t false, true => some t
    | _, _ => none

def lastSaved (events : List Event) : Option Workspace :=
  events.findSome? fun e =>
    match e.call with
    | .save w => some w
    | _ => none

/-- How often a target was toggled as a favorite since it was last dropped; one that is there at first counts as
toggled once. -/
def toggles (start : Preferences) (t : Target) : List Event → ℕ
  | [] => if t ∈ start.favorites then 1 else 0
  | e :: events =>
    match e.call, e.ok with
    | .remember u true, true =>
      if t = u then toggles start t events + 1
      else if Drops 32 u (favoriteTargets read e.before) t then 0
      else toggles start t events
    | _, _ => toggles start t events

/-- A call succeeds unless its target would make the document too large. -/
def Fits (document : Option Word) : Call → Prop
  | .save _ => True
  | .remember t favorite =>
    ∃ p, loadDocument read document = .ok (some p) ∧ size (p.remembered t favorite).write ≤ 65536

end

/-! ## What was written can be read back -/

def initial : Target → Char
  | .hamn _ => 'h'
  | .docker _ _ => 'd'
  | .kubernetes _ _ _ => 'k'

/-- The kinds of targets are told apart by their first letter. -/
theorem targetBody_ne {a b : Target} (h : initial a ≠ initial b) (r r' : Word) :
    targetBody a ++ r ≠ targetBody b ++ r' := by
  have hhead : ∀ t, (targetBody t).head? = some (initial t) := fun t => by cases t <;> rfl
  exact append_ne (hhead a) (hhead b) h r r'

theorem targetBody_delimited : SelfDelimited targetBody := by
  have hconfig := nullable_delimited.after ",\"config\":".toList
  have hdocker := (string_delimited.pair hconfig fun _ _ _ => trivial).after "docker\",\"name\":".toList
  have hoption := (nullable_delimited.pair hconfig fun _ _ _ => trivial).after ",\"namespace\":".toList
  have hkubernetes := (string_delimited.pair hoption fun _ _ _ => trivial).after "kubernetes\",\"name\":".toList
  intro a b r r' _ _ heq
  by_cases hkind : initial a ≠ initial b
  · exact absurd heq (targetBody_ne hkind r r')
  cases a with
  | hamn name =>
    cases b with
    | hamn name' =>
      obtain ⟨rfl, hrest⟩ := string_delimited.after _ name name' r r' trivial trivial heq
      exact ⟨rfl, hrest⟩
    | docker name' config' => exact absurd (by simp [initial]) hkind
    | kubernetes name' namespace_' config' => exact absurd (by simp [initial]) hkind
  | docker name config =>
    cases b with
    | hamn name' => exact absurd (by simp [initial]) hkind
    | docker name' config' =>
      obtain ⟨hsame, hrest⟩ := hdocker (name, config) (name', config') r r' trivial trivial heq
      obtain ⟨rfl, rfl⟩ := Prod.mk.inj hsame
      exact ⟨rfl, hrest⟩
    | kubernetes name' namespace_' config' => exact absurd (by simp [initial]) hkind
  | kubernetes name namespace_ config =>
    cases b with
    | hamn name' => exact absurd (by simp [initial]) hkind
    | docker name' config' => exact absurd (by simp [initial]) hkind
    | kubernetes name' namespace_' config' =>
      obtain ⟨hsame, hrest⟩ :=
        hkubernetes (name, namespace_, config) (name', namespace_', config') r r' trivial trivial heq
      simp only [Prod.mk.injEq] at hsame
      obtain ⟨rfl, rfl, rfl⟩ := hsame
      exact ⟨rfl, hrest⟩

theorem target_delimited : SelfDelimited target :=
  (targetBody_delimited.before fun _ => trivial).after "\x7b\"kind\":\"".toList

theorem targets_delimited : SelfDelimited (listText target ',' ']') :=
  target_delimited.list (by decide) fun t => ⟨'\x7b', _, rfl, by decide⟩

theorem workspace_delimited : SelfDelimited workspace := by
  intro a b r r' _ _ heq
  cases a with
  | containers =>
    cases b with
    | containers => exact ⟨rfl, List.append_cancel_left heq⟩
    | kubernetes => exact absurd heq (append_ne (by rfl) (by rfl) (by decide : 'c' ≠ 'k') r r')
  | kubernetes =>
    cases b with
    | containers => exact absurd heq (append_ne (by rfl) (by rfl) (by decide : 'k' ≠ 'c') r r')
    | kubernetes => exact ⟨rfl, List.append_cancel_left heq⟩

theorem nonempty_injective : Function.Injective nonempty := by
  intro a b h
  unfold nonempty at h
  split_ifs at h with ha hb hb
  · rw [ha, hb]
  · exact Option.some.inj h

theorem lists_apart : (LIST_KEYS ++ [['\x7d']]).Pairwise fun a b => ¬ a <+: b ∧ ¬ b <+: a := by decide

theorem write_injective : Function.Injective write := by
  rintro ⟨version, w, recents, favorites⟩ ⟨version', w', recents', favorites'⟩ h
  have hversion : Delimited (Nat.toDigits 10) fun r => ∀ c, r.head? = some c → c.isDigit = false :=
    Delimited.digits (by norm_num) (by norm_num) (by decide)
  have hcomma : ∀ r c, (",\"defaultWorkspace\":\"".toList ++ r).head? = some c → c.isDigit = false := by
    intro r c hc
    obtain rfl := Option.some.inj hc
    decide
  unfold write at h
  simp only [List.append_assoc] at h
  obtain ⟨rfl, hrest⟩ := hversion _ _ _ _ (hcomma _) (hcomma _) (List.append_cancel_left h)
  obtain ⟨rfl, hlists⟩ := workspace_delimited _ _ _ _ trivial trivial (List.append_cancel_left hrest)
  have hrecord := List.append_cancel_left hlists
  rw [← List.append_nil ['\x7d']] at hrecord
  obtain ⟨hvalues, -⟩ :=
    record_delimited targets_delimited LIST_KEYS lists_apart (fun _ _ _ _ => trivial) rfl rfl hrecord
  simp only [List.cons.injEq, and_true] at hvalues
  rw [nonempty_injective hvalues.1, nonempty_injective hvalues.2]

/-- What the reader is known to do. -/
def ReadsBack (read : Word → Option Preferences) : Prop := ∀ p, read (write p) = some p

/-! ## One call -/

variable {read : Word → Option Preferences}

/-- A document that Hamn keeps: it is accepted, and no list has a target twice. -/
structure Ok (p : Preferences) : Prop where
  accepted : p.accepted = true
  small : size p.write ≤ 65536
  recents : p.recentTargets.Nodup
  favorites : p.favorites.Nodup

theorem accepted_iff {p : Preferences} : p.accepted = true ↔ p.version = 1 ∧ p.recentTargets.length ≤ 32 ∧
    p.favorites.length ≤ 32 ∧ ∀ t ∈ p.recentTargets ++ p.favorites, t.valid = true := by
  simp [accepted, and_assoc, or_imp, forall_and]

theorem loadDocument_write (hread : ReadsBack read) {p : Preferences} (h : Ok p) :
    loadDocument read (some p.write) = .ok (some p) := by
  simp only [loadDocument, if_neg (Nat.not_lt.mpr h.small), hread p, h.accepted, if_true]

/-- The names of the workspaces are equally long. -/
theorem size_default (p : Preferences) (w : Workspace) :
    size { p with defaultWorkspace := w }.write = size p.write := by
  have hname : ∀ w, size (workspace w) = 10 := fun w => by cases w <;> decide
  unfold write
  simp only [size_append, hname]

theorem Ok.withDefault {p : Preferences} (h : Ok p) (w : Workspace) : Ok { p with defaultWorkspace := w } where
  accepted := h.accepted
  small := by rw [size_default]; exact h.small
  recents := h.recents
  favorites := h.favorites

theorem edited_recent (values : List Target) (t : Target) : edited values t false = touch 32 t values := by
  simp [edited, touch]

theorem edited_favorite {values : List Target} (h : values.length ≤ 32) (t : Target) :
    edited values t true = toggle 32 t values := by
  unfold edited toggle
  by_cases ht : t ∈ values
  · have hlength : (values.erase t).length ≤ 32 := List.erase_sublist.length_le.trans h
    simp [ht, List.take_of_length_le hlength]
  · simp [ht, List.erase_of_not_mem ht]

theorem mem_edited {values : List Target} {t u : Target} {favorite : Bool} (h : u ∈ edited values t favorite) :
    u = t ∨ u ∈ values := by
  unfold edited at h
  have h := List.mem_of_mem_take h
  split_ifs at h
  · rcases List.mem_cons.mp h with rfl | h
    · exact .inl rfl
    · exact .inr (List.mem_of_mem_erase h)
  · exact .inr (List.mem_of_mem_erase h)

/-- A remembered target keeps the document in order, as long as it stays small enough. -/
theorem Ok.remembered {p : Preferences} (h : Ok p) {t : Target} (ht : t.valid = true) (favorite : Bool)
    (hsize : size (p.remembered t favorite).write ≤ 65536) : Ok (p.remembered t favorite) := by
  obtain ⟨hversion, hrecents, hfavorites, hvalid⟩ := accepted_iff.mp h.accepted
  have hvalid' : ∀ u, u = t ∨ u ∈ p.recentTargets ++ p.favorites → u.valid = true := by
    rintro u (rfl | hu)
    · exact ht
    · exact hvalid u hu
  cases favorite with
  | false =>
    have hlist : (edited p.recentTargets t false).Nodup := by
      rw [edited_recent]
      exact (List.nodup_cons.mpr ⟨h.recents.not_mem_erase, h.recents.erase t⟩).sublist (List.take_sublist _ _)
    refine ⟨accepted_iff.mpr ⟨hversion, List.length_take_le _ _, hfavorites, fun u hu => ?_⟩, hsize, hlist,
      h.favorites⟩
    rcases List.mem_append.mp hu with hu | hu
    · exact hvalid' u ((mem_edited hu).imp_right (List.mem_append_left _))
    · exact hvalid' u (.inr (List.mem_append_right _ hu))
  | true =>
    have hlist : (edited p.favorites t true).Nodup := by
      rw [edited_favorite hfavorites]
      exact nodup_toggle h.favorites
    refine ⟨accepted_iff.mpr ⟨hversion, hrecents, List.length_take_le _ _, fun u hu => ?_⟩, hsize, h.recents,
      hlist⟩
    rcases List.mem_append.mp hu with hu | hu
    · exact hvalid' u (.inr (List.mem_append_left _ hu))
    · exact hvalid' u ((mem_edited hu).imp_right (List.mem_append_right _))

theorem save_write (hread : ReadsBack read) {p : Preferences} (h : Ok p) (w : Workspace) :
    save read (some p.write) w = some { p with defaultWorkspace := w }.write := by
  unfold save
  rw [loadDocument_write hread h]

theorem rememberTarget_write (hread : ReadsBack read) {p : Preferences} (h : Ok p) {t : Target} (ht : t.valid = true)
    (favorite : Bool) : rememberTarget read (some p.write) t favorite =
      if 65536 < size (p.remembered t favorite).write then (some p.write, false)
      else (some (p.remembered t favorite).write, true) := by
  unfold rememberTarget
  rw [if_neg (by simp [ht]), loadDocument_write hread h]

/-! ## Runs -/

theorem fits_iff (hread : ReadsBack read) {p : Preferences} (h : Ok p) {t : Target} {favorite : Bool} :
    Fits read (some p.write) (.remember t favorite) ↔ size (p.remembered t favorite).write ≤ 65536 := by
  unfold Fits
  rw [loadDocument_write hread h]
  constructor
  · rintro ⟨q, hq, hsize⟩
    obtain rfl : p = q := Option.some.inj (Except.ok.inj hq)
    exact hsize
  · exact fun hsize => ⟨p, rfl, hsize⟩

theorem favoriteTargets_write (hread : ReadsBack read) {p : Preferences} (h : Ok p) :
    favoriteTargets read (some p.write) = p.favorites := by
  unfold favoriteTargets
  rw [loadDocument_write hread h]

/-- What the preferences hold after the events. -/
structure Holds (read : Word → Option Preferences) (start : Preferences) (events : List Event) (p : Preferences) :
    Prop where
  ok : Ok p
  recents : p.recentTargets = (history events ++ start.recentTargets).eraseDups.take 32
  favorites : ∀ t, t ∈ p.favorites ↔ Odd (toggles read start t events)
  workspace : p.defaultWorkspace = (lastSaved events).getD start.defaultWorkspace

theorem holds_start {start : Preferences} (h : Ok start) : Holds read start [] start where
  ok := h
  recents := by
    have hlength := (accepted_iff.mp h.accepted).2.1
    show _ = (start.recentTargets.eraseDups).take 32
    rw [eraseDups_of_nodup h.recents, List.take_of_length_le hlength]
  favorites t := by
    unfold toggles
    split_ifs with ht
    · exact iff_of_true ht odd_one
    · exact iff_of_false ht (by decide)
  workspace := rfl

variable {start p : Preferences} {events : List Event}

theorem Holds.save (h : Holds read start events p) (w : Workspace) (before after : Option Word) :
    Holds read start (⟨before, .save w, after, true⟩ :: events) { p with defaultWorkspace := w } where
  ok := h.ok.withDefault w
  recents := h.recents
  favorites := h.favorites
  workspace := rfl

/-- A call that fails counts for nothing. -/
theorem Holds.refused (h : Holds read start events p) (t : Target) (favorite : Bool) (before after : Option Word) :
    Holds read start (⟨before, .remember t favorite, after, false⟩ :: events) p where
  ok := h.ok
  recents := by cases favorite <;> exact h.recents
  favorites u := by cases favorite <;> exact h.favorites u
  workspace := h.workspace

theorem Holds.remember (hread : ReadsBack read) (h : Holds read start events p) {t : Target} (ht : t.valid = true)
    {favorite : Bool} (hsize : size (p.remembered t favorite).write ≤ 65536) (after : Option Word) :
    Holds read start (⟨some p.write, .remember t favorite, after, true⟩ :: events) (p.remembered t favorite) := by
  have hok := h.ok.remembered ht favorite hsize
  have hfull := (accepted_iff.mp h.ok.accepted).2.2.1
  cases favorite with
  | false =>
    refine ⟨hok, ?_, h.favorites, h.workspace⟩
    show edited p.recentTargets t false = ((t :: history events) ++ start.recentTargets).eraseDups.take 32
    rw [edited_recent, h.recents, touch_history, List.cons_append]
  | true =>
    refine ⟨hok, h.recents, fun u => ?_, h.workspace⟩
    show u ∈ edited p.favorites t true ↔ Odd (if u = t then toggles read start u events + 1
      else if Drops 32 t (favoriteTargets read (some p.write)) u then 0 else toggles read start u events)
    rw [edited_favorite hfull, mem_toggle (by norm_num) h.ok.favorites hfull, favoriteTargets_write hread h.ok]
    split_ifs with hu hdrops
    · rw [Nat.odd_add_one, ← h.favorites, hu]
    · exact iff_of_false (fun hmem => hmem.2 hdrops) (by decide)
    · rw [← h.favorites]
      exact and_iff_left hdrops

/-- One call: it succeeds exactly if it fits, and changes nothing otherwise. -/
theorem call_holds (hread : ReadsBack read) (h : Holds read start events p) {c : Call}
    (hc : ∀ t favorite, c = .remember t favorite → t.valid = true) :
    ∃ q, (Preferences.call read (some p.write) c).1 = some q.write ∧
      Holds read start (⟨some p.write, c, (Preferences.call read (some p.write) c).1,
        (Preferences.call read (some p.write) c).2⟩ :: events) q ∧
      ((Preferences.call read (some p.write) c).2 = true ↔ Fits read (some p.write) c) ∧
      ((Preferences.call read (some p.write) c).2 = false →
        (Preferences.call read (some p.write) c).1 = some p.write) := by
  cases c with
  | save w =>
    refine ⟨{ p with defaultWorkspace := w }, save_write hread h.ok w, h.save w _ _, iff_of_true rfl trivial, ?_⟩
    exact fun hno => Bool.noConfusion hno
  | remember t favorite =>
    have ht := hc t favorite rfl
    have hcall : Preferences.call read (some p.write) (.remember t favorite) = _ :=
      rememberTarget_write hread h.ok ht favorite
    by_cases hsize : size (p.remembered t favorite).write ≤ 65536
    · rw [if_neg (Nat.not_lt.mpr hsize)] at hcall
      rw [hcall, fits_iff hread h.ok]
      exact ⟨_, rfl, h.remember hread ht hsize _, iff_of_true rfl hsize, fun hno => Bool.noConfusion hno⟩
    · rw [if_pos (Nat.not_le.mp hsize)] at hcall
      rw [hcall, fits_iff hread h.ok]
      exact ⟨p, rfl, h.refused t favorite _ _, iff_of_false Bool.false_ne_true hsize, fun _ => rfl⟩

theorem run_holds (hread : ReadsBack read) (h : Ok start) {calls : List Call}
    (hvalid : ∀ t favorite, Call.remember t favorite ∈ calls → t.valid = true) :
    ∃ p, final (some start.write) (run read (some start.write) calls) = some p.write ∧
      Holds read start (run read (some start.write) calls) p ∧
      ∀ e ∈ run read (some start.write) calls, (e.ok = true ↔ Fits read e.before e.call) ∧
        (e.ok = false → e.after = e.before) := by
  induction calls with
  | nil => exact ⟨start, rfl, holds_start h, nofun⟩
  | cons c calls ih =>
    obtain ⟨p, hfinal, hholds, hevents⟩ := ih fun t favorite hmem => hvalid t favorite (List.mem_cons_of_mem _ hmem)
    obtain ⟨q, hafter, hnext, hok, hfail⟩ := call_holds hread hholds (c := c) fun t favorite hc =>
      hvalid t favorite (hc ▸ List.mem_cons_self)
    have hrun : run read (some start.write) (c :: calls) =
        ⟨some p.write, c, (Preferences.call read (some p.write) c).1, (Preferences.call read (some p.write) c).2⟩ ::
          run read (some start.write) calls := by
      rw [← hfinal]
      rfl
    rw [hrun]
    refine ⟨q, hafter, hnext, List.forall_mem_cons.mpr ⟨⟨hok, fun hno => ?_⟩, hevents⟩⟩
    exact hfail hno

/-- What `save` writes where nothing can be read. -/
def first (w : Workspace) : Preferences := { version := 1, defaultWorkspace := w }

theorem ok_first (w : Workspace) : Ok (first w) := by
  refine ⟨rfl, ?_, List.nodup_nil, List.nodup_nil⟩
  cases w <;> decide

theorem save_first {document : Option Word} (h : ∀ p, loadDocument read document ≠ .ok (some p)) (w : Workspace) :
    save read document w = some (first w).write := by
  unfold save
  split
  · rename_i p hp
    exact absurd hp (h p)
  · rfl

theorem readsBack_partialInv : ReadsBack (Function.partialInv write) := Function.partialInv_left write_injective

theorem history_cons {e : Event} {t : Target} (hcall : e.call = .remember t false) (hok : e.ok = true)
    (events : List Event) : history (e :: events) = t :: history events := by
  unfold history
  rw [List.filterMap_cons_some (b := t)]
  rw [hcall, hok]

theorem history_remember (document : Option Word) (targets : List Target)
    (h : ∀ e ∈ run read document (targets.map fun t => .remember t false), e.ok = true) :
    history (run read document (targets.map fun t => .remember t false)) = targets := by
  induction targets with
  | nil => rfl
  | cons t targets ih =>
    obtain ⟨hok, hrest⟩ := List.forall_mem_cons.mp h
    rw [List.map_cons, run, history_cons rfl hok, ih hrest]

def quotes (n : ℕ) : Word := List.replicate n '"'

theorem size_quotes (n : ℕ) : size (quotes n) = n := by simp [size, quotes, show Char.utf8Size '"' = 1 from rfl]

theorem size_escaped (n : ℕ) : size ((quotes n).flatMap escape) = 2 * n := by
  have hquote : escape '"' = ['\\', '"'] := rfl
  induction n with
  | zero => rfl
  | succ n ih =>
    have hcons : quotes (n + 1) = '"' :: quotes n := rfl
    rw [hcons, List.flatMap_cons, size_append, ih, hquote, show size ['\\', '"'] = 2 from rfl]
    omega

/-- A target of three long texts, each character of which takes two in the document. -/
def large (i : ℕ) : Target :=
  .kubernetes (String.ofList (Char.ofNat (97 + i) :: quotes 1023)) (some (String.ofList (quotes 1024)))
    (some (String.ofList (quotes 1024)))

theorem large_valid {i : ℕ} (hi : i < 11) : (large i).valid = true := by
  have hfirst : ∀ i < 11, (Char.ofNat (97 + i)).utf8Size = 1 ∧ isControl (Char.ofNat (97 + i)) = false := by decide
  have hquotes : ∀ n, (quotes n).any isControl = false := fun n => by
    simp [quotes, List.any_replicate, show isControl '"' = false from rfl]
  simp [Target.valid, Target.fields, large, byteSize_ofList, size_quotes, hquotes, hfirst i hi]

theorem large_injective {i j : ℕ} (hi : i < 11) (hj : j < 11) (h : large i = large j) : i = j := by
  have hfirst : ∀ i < 11, ∀ j < 11, Char.ofNat (97 + i) = Char.ofNat (97 + j) → i = j := by decide
  have hname := String.ofList_injective (Target.kubernetes.inj h).1
  exact hfirst i hi j hj (List.cons.inj hname).1

theorem size_large (i : ℕ) : 6142 ≤ size (target (large i)) := by
  have hstring : ∀ l : Word, size (l.flatMap escape) ≤ size (string (String.ofList l)) := fun l => by
    unfold string
    rw [String.toList_ofList, ← List.singleton_append, size_append, size_append]
    omega
  have hlong := hstring (quotes 1024)
  have hname := hstring (Char.ofNat (97 + i) :: quotes 1023)
  rw [size_escaped] at hlong
  rw [List.flatMap_cons, size_append, size_escaped] at hname
  unfold target large targetBody nullable
  simp only [size_append]
  omega

theorem size_targets (l : List Target) : (l.map fun t => size (target t)).sum ≤ size (listText target ',' ']' l) := by
  cases l with
  | nil => exact Nat.zero_le _
  | cons t l =>
    have htail : (l.map fun t => size (target t)).sum ≤ size (l.flatMap fun t => ',' :: target t) := by
      induction l with
      | nil => exact Nat.zero_le _
      | cons u l ih =>
        rw [List.map_cons, List.sum_cons, List.flatMap_cons, size_append, ← List.singleton_append, size_append]
        omega
    rw [List.map_cons, List.sum_cons]
    simp only [listText, size_append]
    omega

theorem size_recents {p : Preferences} (h : p.recentTargets ≠ []) :
    (p.recentTargets.map fun t => size (target t)).sum ≤ size p.write := by
  have hrecord : record (listText target ',' ']') LIST_KEYS [nonempty p.recentTargets, nonempty p.favorites] =
      ",\"recentTargets\":[".toList ++ listText target ',' ']' p.recentTargets ++
        record (listText target ',' ']') [",\"favorites\":[".toList] [nonempty p.favorites] := by
    rw [nonempty, if_neg h]
    rfl
  have hlist := size_targets p.recentTargets
  unfold write
  rw [hrecord]
  simp only [size_append]
  omega

/-- Eleven large targets, remembered one after the other. -/
def crowd : List Target := (List.range 11).map large

end Preferences

end Hamn.Tui
