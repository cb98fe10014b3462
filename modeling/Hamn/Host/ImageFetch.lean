import Hamn.Lib.Bytes
import Hamn.Lib.Steps

/-!
# Host.ImageFetch — the guest image of a start while updates go on (`host/image/fetch.c`)

A start tests for a pending update transaction, reads the selection, reads the marker of the selected image and makes its
disk from that image; it takes none of the locks of the updater.  An update publishes its journal, switches the command
link, replaces the selection and retires the journal; a rollback restores both and retires the journal as well.  Both are
stopped at any point, and any number of starts and updates of one HOME go on in any order of their steps.

* `managedSelection`, `markerValid`: what `managed_image_ensure` accepts.
* `State`, `Action`, `step`: the cache directory, the updates and the starts.
* `Clean`: no start got its image from a selection that an active journal could still take back.
* `Undisturbed`: the condition that closes the window between the test and the selection.
-/

namespace Hamn.Host.ImageFetch

open Bytes

/-! ## The selection -/

inductive Value where
  | number (value : ℚ)
  | string (value : Bytes)
  | other
  deriving DecidableEq

/-- The members of `guest-image.json`; `none` when it is not a safe file or not an object. -/
abbrev Content := Option (List (Bytes × Value))

structure Image where
  file : Bytes
  sha256 : Bytes
  deriving DecidableEq

def hexSha256Valid (value : Bytes) : Bool := value.length == 64 && value.all isLowerHex

def managedImageNameValid (name hash : Bytes) : Bool :=
  (ascii "hamn-guest-").isPrefixOf name && name.length == 79 && name.drop 75 == ascii ".img" &&
    (name.drop 11).take 64 == hash.take 64

/-- The image that the selection names, if `managed_image_ensure` accepts it. -/
def managedSelection (content : Content) : Option Image := do
  let members ← content
  let schema ← members.lookup (ascii "schemaVersion")
  let file ← members.lookup (ascii "file")
  let hash ← members.lookup (ascii "sha256")
  match schema, file, hash with
  | .number version, .string file, .string hash =>
    if members.length = 3 ∧ version = 1 ∧ hexSha256Valid hash ∧ managedImageNameValid file hash then some ⟨file, hash⟩
    else none
  | _, _, _ => none

/-- Whether the text of `FILE.verified` names the digest. -/
def markerValid (text hash : Bytes) : Bool :=
  text == hash || (text.length == 65 && text[64]? == some newline && text.take 64 == hash.take 64)

/-! ## The cache directory -/

variable {S U : Type}

/-- `guest-image.json` and the update that put it there. -/
structure Selection (U : Type) where
  content : Content
  update : Option U
  deriving DecidableEq

inductive Progress where
  | published
  | committed
  /-- A rollback has restored the selection. -/
  | restored
  deriving DecidableEq, Repr

/-- `.hamn-update-transaction`. -/
structure Journal (U : Type) where
  attempt : U
  previous : Option (Selection U)
  new : Content
  oldTarget : Option U
  progress : Progress
  deriving DecidableEq

/-- What a start has read: the image, the update that selected it, and the update whose journal was active then. -/
structure Obtained (U : Type) where
  image : Image
  update : Option U
  active : Option U
  deriving DecidableEq

inductive Start (U : Type) where
  | idle
  /-- `update_transaction_pending` found nothing. -/
  | checked
  /-- The selection was read. -/
  | selected (o : Obtained U)
  /-- `fetch_image_ensure` returned the image. -/
  | returned (o : Obtained U)
  deriving DecidableEq

structure State (S U : Type) where
  journal : Option (Journal U)
  selection : Option (Selection U)
  /-- The update whose command the link points to. -/
  link : Option U
  starts : S → Start U
  /-- The disks that starts have made. -/
  disks : List (Obtained U)
  completed : List U
  recovered : List U

inductive Action (S U : Type) where
  /-- `update_transaction_pending`; `readable` is whether `lstat` succeeds or says that nothing is there. -/
  | check (p : S) (readable : Bool)
  | readSelection (p : S) (readable : Bool)
  /-- The marker, which may be missing, and whether the image is a safe file. -/
  | readMarker (p : S) (marker : Option Bytes) (safe : Bool)
  | makeDisk (p : S)
  /-- A start fails or dies. -/
  | fail (p : S)
  /-- The last step of `prepare`. -/
  | publish (u : U) (new : Content)
  | switchLink
  | commitSelection
  | retireCompleted
  | restoreSelection
  | restoreLink
  | retireRecovered

variable [DecidableEq S] [DecidableEq U]

namespace State

variable (s : State S U)

def setStart (p : S) (start : Start U) : State S U := { s with starts := Function.update s.starts p start }

def setProgress (j : Journal U) (progress : Progress) : State S U := { s with journal := some { j with progress } }

end State

def step (s : State S U) : Action S U → Option (State S U)
  | .check p readable =>
    if s.starts p = .idle then
      if readable ∧ s.journal = none then some (s.setStart p .checked) else some s
    else none
  | .readSelection p readable =>
    if s.starts p = .checked then
      match s.selection with
      | none => some (s.setStart p .idle)
      | some selection =>
        match managedSelection selection.content with
        | none => some (s.setStart p .idle)
        | some image =>
          if readable then some (s.setStart p (.selected ⟨image, selection.update, s.journal.map (·.attempt)⟩))
          else some (s.setStart p .idle)
    else none
  | .readMarker p marker safe =>
    match s.starts p with
    | .selected o =>
      if marker.any (markerValid · o.image.sha256) ∧ safe then some (s.setStart p (.returned o)) else some (s.setStart p .idle)
    | _ => none
  | .makeDisk p =>
    match s.starts p with
    | .returned o => some { s.setStart p .idle with disks := o :: s.disks }
    | _ => none
  | .fail p => some (s.setStart p .idle)
  | .publish u new =>
    -- an attempt is drawn at random
    if s.journal = none ∧ u ∉ s.completed ∧ u ∉ s.recovered then
      some { s with journal := some ⟨u, s.selection, new, s.link, .published⟩ }
    else none
  | .switchLink =>
    match s.journal with
    | some j => if j.progress = .published then some { s with link := some j.attempt } else none
    | none => none
  | .commitSelection =>
    match s.journal with
    | some j =>
      if j.progress ≠ .restored then some { s.setProgress j .committed with selection := some ⟨j.new, some j.attempt⟩ }
      else none
    | none => none
  | .retireCompleted =>
    match s.journal with
    | some j =>
      if j.progress = .committed then some { s with journal := none, completed := j.attempt :: s.completed } else none
    | none => none
  | .restoreSelection =>
    match s.journal with
    | some j => some { s.setProgress j .restored with selection := j.previous }
    | none => none
  | .restoreLink =>
    match s.journal with
    | some j => if j.progress = .restored then some { s with link := j.oldTarget } else none
    | none => none
  | .retireRecovered =>
    match s.journal with
    | some j =>
      if j.progress = .restored then some { s with journal := none, recovered := j.attempt :: s.recovered } else none
    | none => none

/-- No update and no start is under way, and nothing was selected by one. -/
structure Initial (s : State S U) : Prop where
  journal : s.journal = none
  selection : ∀ selection ∈ s.selection, selection.update = none
  starts : ∀ p, s.starts p = .idle
  disks : s.disks = []
  completed : s.completed = []
  recovered : s.recovered = []

/-! ## No half of an update -/

/-- The selection was read without an active journal, and the update that put it there is not one that was rolled back. -/
def Obtained.Clean (recovered : List U) (o : Obtained U) : Prop :=
  o.active = none ∧ ∀ u, o.update = some u → u ∉ recovered

/-- What starts got from `fetch_image_ensure`, and the disks that they made of it. -/
structure Clean (s : State S U) : Prop where
  returned : ∀ p o, s.starts p = .returned o → o.Clean s.recovered
  disks : ∀ o ∈ s.disks, o.Clean s.recovered

/-- No update publishes its journal while a start is between its test for one and its reading of the selection. -/
def Undisturbed (s : State S U) : Action S U → Prop
  | .publish _ _ => ∀ p, s.starts p ≠ .checked
  | _ => True

/-- The update of a selection was completed. -/
def Settled (completed : List U) (update : Option U) : Prop := ∀ u, update = some u → u ∈ completed

def Obtained.Settled (completed : List U) (o : Obtained U) : Prop :=
  o.active = none ∧ ImageFetch.Settled completed o.update

def Start.obtained : Start U → Option (Obtained U)
  | .selected o | .returned o => some o
  | _ => none

/-- Without a journal the selection is that of a completed update; with one, so is what a rollback restores.  A start that
has made its test is in a state without a journal. -/
structure Inv (s : State S U) : Prop where
  attempt : ∀ j, s.journal = some j → j.attempt ∉ s.completed ∧ j.attempt ∉ s.recovered
  disjoint : ∀ u ∈ s.completed, u ∉ s.recovered
  quiet : s.journal = none → ∀ selection, s.selection = some selection → Settled s.completed selection.update
  previous : ∀ j, s.journal = some j → ∀ selection, j.previous = some selection → Settled s.completed selection.update
  restored : ∀ j, s.journal = some j → j.progress = .restored → s.selection = j.previous
  committed : ∀ j, s.journal = some j → j.progress = .committed → s.selection = some ⟨j.new, some j.attempt⟩
  checked : ∀ p, s.starts p = .checked → s.journal = none
  obtained : ∀ p o, (s.starts p).obtained = some o → o.Settled s.completed
  disks : ∀ o ∈ s.disks, o.Settled s.completed

section

variable {s s' : State S U}

omit [DecidableEq S] [DecidableEq U] in
theorem Inv.initial (h : Initial s) : Inv s where
  attempt j hj := by
    rw [h.journal] at hj
    cases hj
  disjoint u hu := by
    rw [h.completed] at hu
    cases hu
  quiet _ selection hsel u hu := by
    rw [h.selection selection hsel] at hu
    cases hu
  previous j hj := by
    rw [h.journal] at hj
    cases hj
  restored j hj := by
    rw [h.journal] at hj
    cases hj
  committed j hj := by
    rw [h.journal] at hj
    cases hj
  checked p hp := by
    rw [h.starts p] at hp
    cases hp
  obtained p o ho := by
    rw [h.starts p] at ho
    cases ho
  disks o ho := by
    rw [h.disks] at ho
    cases ho

omit [DecidableEq S] [DecidableEq U] in
theorem Inv.clean (hs : Inv s) : Clean s := by
  have settled : ∀ {o : Obtained U}, o.Settled s.completed → o.Clean s.recovered :=
    fun ho => ⟨ho.1, fun u hu => hs.disjoint u (ho.2 u hu)⟩
  exact ⟨fun p o hp => settled (hs.obtained p o (by rw [hp]; rfl)), fun o ho => settled (hs.disks o ho)⟩

omit [DecidableEq U] in
/-- A step of a start. -/
theorem Inv.setStart (hs : Inv s) {p : S} {start : Start U} (hchecked : start = .checked → s.journal = none)
    (hobtained : ∀ o, start.obtained = some o → o.Settled s.completed) : Inv (s.setStart p start) where
  attempt := hs.attempt
  disjoint := hs.disjoint
  quiet := hs.quiet
  previous := hs.previous
  restored := hs.restored
  committed := hs.committed
  checked q hq := by
    change Function.update s.starts p start q = .checked at hq
    by_cases hqp : q = p
    · rw [hqp, Function.update_self] at hq
      exact hchecked hq
    · rw [Function.update_of_ne hqp] at hq
      exact hs.checked q hq
  obtained q o ho := by
    change Start.obtained (Function.update s.starts p start q) = some o at ho
    by_cases hqp : q = p
    · rw [hqp, Function.update_self] at ho
      exact hobtained o ho
    · rw [Function.update_of_ne hqp] at ho
      exact hs.obtained q o ho
  disks := hs.disks

omit [DecidableEq U] in
theorem Inv.idle (hs : Inv s) (p : S) : Inv (s.setStart p .idle) := hs.setStart nofun nofun

theorem Inv.readSelection (hs : Inv s) {p : S} {readable : Bool} (h : step s (.readSelection p readable) = some s') :
    Inv s' := by
  simp only [step] at h
  by_cases hp : s.starts p = .checked
  · rw [if_pos hp] at h
    have hj := hs.checked p hp
    split at h
    · obtain rfl := Option.some.inj h
      exact hs.idle p
    · rename_i selection hsel
      split at h
      · obtain rfl := Option.some.inj h
        exact hs.idle p
      · rename_i image himage
        by_cases hr : readable = true
        · rw [if_pos hr] at h
          obtain rfl := Option.some.inj h
          refine hs.setStart nofun fun o ho => ?_
          rw [← Option.some.inj ho, hj]
          exact ⟨rfl, hs.quiet hj selection hsel⟩
        · rw [if_neg hr] at h
          obtain rfl := Option.some.inj h
          exact hs.idle p
  · rw [if_neg hp] at h
    cases h

theorem Inv.publish (hs : Inv s) {u : U} {new : Content} (hC : Undisturbed s (.publish u new))
    (h : step s (.publish u new) = some s') : Inv s' := by
  simp only [step] at h
  split_ifs at h with hu
  obtain rfl := Option.some.inj h
  obtain ⟨hj, hcompleted, hrecovered⟩ := hu
  exact {
    attempt := fun j h => by
      rw [← Option.some.inj h]
      exact ⟨hcompleted, hrecovered⟩
    disjoint := hs.disjoint
    quiet := nofun
    previous := fun j h => by
      rw [← Option.some.inj h]
      exact hs.quiet hj
    restored := fun j h hp => by
      rw [← Option.some.inj h] at hp
      cases hp
    committed := fun j h hp => by
      rw [← Option.some.inj h] at hp
      cases hp
    checked := fun p hp => absurd hp (hC p)
    obtained := hs.obtained
    disks := hs.disks }

omit [DecidableEq S] [DecidableEq U] in
/-- While a journal is active it changes only with the selection and the progress that it records. -/
theorem Inv.setProgress (hs : Inv s) {j : Journal U} (hj : s.journal = some j) {progress : Progress}
    {selection : Option (Selection U)} (hrestored : progress = .restored → selection = j.previous)
    (hcommitted : progress = .committed → selection = some ⟨j.new, some j.attempt⟩) :
    Inv { s.setProgress j progress with selection } where
  attempt j' h := by
    rw [← Option.some.inj h]
    exact hs.attempt j hj
  disjoint := hs.disjoint
  quiet := nofun
  previous j' h := by
    rw [← Option.some.inj h]
    exact hs.previous j hj
  restored j' h hp := by
    rw [← Option.some.inj h] at hp ⊢
    exact hrestored hp
  committed j' h hp := by
    rw [← Option.some.inj h] at hp ⊢
    exact hcommitted hp
  checked p hp := absurd (hj.symm.trans (hs.checked p hp)) (Option.some_ne_none j)
  obtained := hs.obtained
  disks := hs.disks

omit [DecidableEq S] [DecidableEq U] in
/-- The journal is retired: the update joins the completed or the recovered ones. -/
theorem Inv.retire (hs : Inv s) {completed recovered : List U}
    (hgrow : ∀ u ∈ s.completed, u ∈ completed) (hdisjoint : ∀ u ∈ completed, u ∉ recovered)
    (hsel : ∀ selection, s.selection = some selection → Settled completed selection.update) :
    Inv { s with journal := none, completed, recovered } := by
  have grow : ∀ {o : Obtained U}, o.Settled s.completed → o.Settled completed :=
    fun ho => ⟨ho.1, fun u hu => hgrow u (ho.2 u hu)⟩
  exact {
    attempt := nofun
    disjoint := hdisjoint
    quiet := fun _ => hsel
    previous := nofun
    restored := nofun
    committed := nofun
    checked := fun _ _ => rfl
    obtained := fun p o ho => grow (hs.obtained p o ho)
    disks := fun o ho => grow (hs.disks o ho) }

theorem Inv.step {a : Action S U} (hs : Inv s) (hC : Undisturbed s a) (h : step s a = some s') : Inv s' := by
  cases a with
  | check p readable =>
    simp only [ImageFetch.step] at h
    split_ifs at h with hp hr
    · obtain rfl := Option.some.inj h
      exact hs.setStart (fun _ => hr.2) nofun
    · obtain rfl := Option.some.inj h
      exact hs
  | readSelection p readable => exact hs.readSelection h
  | readMarker p marker safe =>
    simp only [ImageFetch.step] at h
    split at h
    · rename_i o ho
      have hsettled := hs.obtained p o (by rw [ho]; rfl)
      split_ifs at h
      · obtain rfl := Option.some.inj h
        exact hs.setStart nofun fun o' ho' => Option.some.inj ho' ▸ hsettled
      · obtain rfl := Option.some.inj h
        exact hs.idle p
    · cases h
  | makeDisk p =>
    simp only [ImageFetch.step] at h
    split at h
    · rename_i o ho
      obtain rfl := Option.some.inj h
      refine { hs.idle p with disks := fun o' ho' => ?_ }
      rcases List.mem_cons.mp ho' with rfl | ho'
      · exact hs.obtained p o' (by rw [ho]; rfl)
      · exact hs.disks o' ho'
    · cases h
  | fail p =>
    obtain rfl := Option.some.inj h
    exact hs.idle p
  | publish u new => exact hs.publish hC h
  | switchLink =>
    simp only [ImageFetch.step] at h
    split at h
    · split_ifs at h
      obtain rfl := Option.some.inj h
      exact { hs with }
    · cases h
  | commitSelection =>
    simp only [ImageFetch.step] at h
    split at h
    · rename_i j hj
      split_ifs at h
      obtain rfl := Option.some.inj h
      exact hs.setProgress hj nofun fun _ => rfl
    · cases h
  | retireCompleted =>
    simp only [ImageFetch.step] at h
    split at h
    · rename_i j hj
      split_ifs at h with hp
      obtain rfl := Option.some.inj h
      refine hs.retire (fun u hu => List.mem_cons_of_mem _ hu) (fun u hu => ?_) (fun selection hsel u hu => ?_)
      · rcases List.mem_cons.mp hu with rfl | hu
        · exact (hs.attempt j hj).2
        · exact hs.disjoint u hu
      · rw [hs.committed j hj hp] at hsel
        rw [← Option.some.inj hsel] at hu
        rw [← Option.some.inj hu]
        exact List.mem_cons_self
    · cases h
  | restoreSelection =>
    simp only [ImageFetch.step] at h
    split at h
    · rename_i j hj
      obtain rfl := Option.some.inj h
      exact hs.setProgress hj (fun _ => rfl) nofun
    · cases h
  | restoreLink =>
    simp only [ImageFetch.step] at h
    split at h
    · split_ifs at h
      obtain rfl := Option.some.inj h
      exact { hs with }
    · cases h
  | retireRecovered =>
    simp only [ImageFetch.step] at h
    split at h
    · rename_i j hj
      split_ifs at h with hp
      obtain rfl := Option.some.inj h
      refine hs.retire (fun u hu => hu) (fun u hu hr => ?_) (fun selection hsel => ?_)
      · rcases List.mem_cons.mp hr with rfl | hr
        · exact (hs.attempt j hj).1 hu
        · exact hs.disjoint u hu hr
      · rw [hs.restored j hj hp] at hsel
        exact hs.previous j hj selection hsel
    · cases h

/-- **A start that no update disturbs uses no half of one**: when no journal is published between a test for one and the
reading of the selection that follows, every image that `fetch_image_ensure` returned was selected without an active
journal, and no disk is of an update that was rolled back. -/
theorem undisturbed_start_clean {s0 : State S U} (h0 : Initial s0) {as : List (Action S U)}
    (hC : Steps.All ImageFetch.step Undisturbed s0 as) (hr : Steps.run ImageFetch.step s0 as = some s) : Clean s :=
  (Steps.run_all (fun _ _ _ => Inv.step) (Inv.initial h0) hC hr).clean

end

/-! ## One start and one update -/

/-- A HOME without a selection. -/
def fresh : State ℕ ℕ := ⟨none, none, none, fun _ => .idle, [], [], []⟩

theorem fresh_initial : Initial fresh := ⟨rfl, nofun, fun _ => rfl, rfl, rfl, rfl⟩

def digest : Bytes := List.replicate 64 97

def guest : Image := ⟨ascii "hamn-guest-" ++ digest ++ ascii ".img", digest⟩

/-- The selection of the update. -/
def guestSelection : Content :=
  some [(ascii "schemaVersion", .number 1), (ascii "file", .string guest.file), (ascii "sha256", .string digest)]

/-- The start follows a completed update. -/
def startAfter : List (Action ℕ ℕ) :=
  [.publish 7 guestSelection, .commitSelection, .retireCompleted, .check 0 true, .readSelection 0 true,
    .readMarker 0 (some digest) true, .makeDisk 0]

/-- The update begins after the test of the start and is rolled back after it. -/
def startDuring : List (Action ℕ ℕ) :=
  [.check 0 true, .publish 7 guestSelection, .switchLink, .commitSelection, .readSelection 0 true,
    .readMarker 0 (some digest) true, .makeDisk 0, .restoreSelection, .restoreLink, .retireRecovered]

theorem undisturbed_start_clean_after : ∃ s, Steps.run step fresh startAfter = some s ∧
    s.disks = [⟨guest, some 7, none⟩] ∧ Clean s := by
  have hrun : (Steps.run step fresh startAfter).map (·.disks) = some [⟨guest, some 7, none⟩] := by decide +kernel
  obtain ⟨s, hs, hdisks⟩ := Option.map_eq_some_iff.mp hrun
  have hC : Steps.All step Undisturbed fresh startAfter :=
    ⟨nofun, fun _ _ => ⟨trivial, fun _ _ => ⟨trivial, fun _ _ => ⟨trivial, fun _ _ => ⟨trivial, fun _ _ =>
      ⟨trivial, fun _ _ => ⟨trivial, fun _ _ => trivial⟩⟩⟩⟩⟩⟩⟩
  exact ⟨s, hs, hdisks, undisturbed_start_clean fresh_initial hC hs⟩

/-- A disk is made from the image of an update that is rolled back. -/
theorem disturbed_start_unclean : ∃ s : State ℕ ℕ, Steps.Reachable step Initial s ∧
    s.disks = [⟨guest, some 7, some 7⟩] ∧ s.recovered = [7] ∧ ¬ Clean s := by
  have hrun : (Steps.run step fresh startDuring).map (fun s => (s.disks, s.recovered)) =
      some ([⟨guest, some 7, some 7⟩], [7]) := by decide +kernel
  obtain ⟨s, hs, hleft⟩ := Option.map_eq_some_iff.mp hrun
  obtain ⟨hdisks, hrecovered⟩ := Prod.mk.inj hleft
  refine ⟨s, ⟨fresh, _, fresh_initial, hs⟩, hdisks, hrecovered, fun hclean => ?_⟩
  have h := hclean.disks ⟨guest, some 7, some 7⟩ (by rw [hdisks]; exact List.mem_singleton.mpr rfl)
  cases h.1

end Hamn.Host.ImageFetch
