import Hamn.Install.Frame

/-!
# Install.Atomic — an update is applied whole or not at all

Two files make an installation: the command link and the guest image selection.  The journal is what ties their
replacement together.  `Old`, `Active` and `New` say where an update stands:

* `Old`: no journal; the previous link and selection.
* `Active`: a journal that records the previous link and selection, whatever has been replaced so far; the link may
  name the new generation only once the journal names it.
* `New`: no journal; the new link and selection.

Each step of the update, and of any rollback that follows, keeps one of them.
-/

namespace Hamn.Install

open Posix Crash Bytes Result
open Crash.Proc hiding attempt pure bind

/-! ## Reading files back -/

theorem read_eq_ok {d : Disk} {l : Loc} {c : Bytes} (h : read d l = .ok c) :
    ∃ a, d.find l = .ok (.file a c) ∧ a.readable = true := by
  unfold read at h
  split at h
  · cases h
  · rename_i a c' hf
    split_ifs at h with ha
    rw [← Except.ok.inj h]
    exact ⟨a, hf, ha⟩
  · cases h
  · cases h

theorem line_eq_ok {d : Disk} {l : Loc} {limit : ℕ} {c : Bytes} (h : line d l limit = .ok c) :
    ∃ a content, d.find l = .ok (.file a content) ∧ c = trimNewlines content := by
  obtain ⟨content, hr, h⟩ := bind_eq_ok.mp h
  split_ifs at h
  obtain ⟨content', hu, h⟩ := bind_eq_ok.mp h
  obtain ⟨a, hf, -⟩ := read_eq_ok hr
  unfold fromUtf8 at hu
  split_ifs at hu
  obtain rfl := Except.ok.inj hu
  exact ⟨a, content, hf, (Except.ok.inj h).symm⟩

theorem not_isOwned_of_error {d : Disk} {l : Loc} {e : Errno} (h : d.find l = .error e) (directory : Bool)
    (mode : Option ℕ) : isOwned d l directory mode = false := by
  unfold isOwned owned
  rw [h]

/-- What a journal that validates has been read from. -/
structure LoadedFrom (env : Env) (d : Disk) (directory : Loc) (j : Journal) : Prop where
  private_ : safePrivateDirectory d directory = true
  state : ∃ text, line d (directory.sub (ascii "state")) 4096 = .ok text ∧
    parseState text = .fields j.bootstrap j.selectionPresent j.hostMutation
  attempt : line d (directory.sub (ascii "attempt")) 64 = .ok j.attempt
  attemptValid : attemptValid j.attempt = true
  newTarget : ∃ text, line d (directory.sub (ascii "new-target")) 4096 = .ok text ∧
    recordedTarget env d (directory.sub (ascii "new-target")) text = .ok (some j.newTarget)
  oldTarget : previousTarget env d (directory.sub (ascii "old-target")) j.bootstrap = .ok (some j.oldTarget)

theorem load_eq_valid {env : Env} {d : Disk} {directory : Loc} {j : Journal} (h : load env d directory = .valid j) :
    LoadedFrom env d directory j := by
  have hl : loadChecked env d directory = .ok (.valid j) := by
    unfold load at h
    cases hc : loadChecked env d directory with
    | ok loaded =>
      rw [hc] at h
      exact congrArg Except.ok h
    | error e =>
      rw [hc] at h
      cases h
  unfold loadChecked at hl
  have hne : (Except.ok Loaded.invalid : Except Failure Loaded) ≠ .ok (.valid j) := nofun
  obtain ⟨h1, hl⟩ := else_of_eq hl hne
  obtain ⟨state, hstate, hl⟩ := bind_eq_ok.mp hl
  split at hl
  · cases hl
  · cases hl
  rename_i bootstrap selectionPresent hostMutation hparse
  obtain ⟨-, hl⟩ := else_of_eq hl hne
  obtain ⟨attempt, hattempt, hl⟩ := bind_eq_ok.mp hl
  obtain ⟨text, htext, hl⟩ := bind_eq_ok.mp hl
  obtain ⟨recorded, hrecorded, hl⟩ := bind_eq_ok.mp hl
  split at hl
  · cases hl
  obtain ⟨h3, hl⟩ := else_of_eq hl hne
  obtain ⟨-, hl⟩ := else_of_eq hl hne
  obtain ⟨previous, hprevious, hl⟩ := bind_eq_ok.mp hl
  split at hl
  · cases hl
  obtain ⟨entries, hentries, hl⟩ := bind_eq_ok.mp hl
  obtain ⟨-, hl⟩ := else_of_eq hl hne
  obtain rfl := Loaded.valid.inj (Except.ok.inj hl)
  simp only [Bool.or_eq_true, Bool.not_eq_true', not_or] at h1 h3
  exact ⟨by simpa using h1.1, ⟨state, hstate, hparse⟩, hattempt, by simpa using h3.1.1, ⟨text, htext, hrecorded⟩,
    hprevious⟩

theorem load_of_error {env : Env} {d : Disk} {directory : Loc} {e : Errno} (h : d.find directory = .error e) :
    load env d directory = .invalid := by
  unfold load loadChecked safePrivateDirectory
  rw [not_isOwned_of_error h]
  rfl

/-! ## Where an update stands -/

/-- One update: what it starts from and what it installs. -/
structure Change where
  start : Disk
  old : Bytes
  /-- The selection before the update, if there is one. -/
  previous : Option Bytes
  host : Option Payload
  newSelection : Bytes

/-- The command link names `target`. -/
def HasLink (d : Disk) (target : Bytes) : Prop := ∃ a, d.find link = .ok (.symlink a target)

/-- The selection file has this content, or there is none. -/
def HasSelection (env : Env) (d : Disk) : Option Bytes → Prop
  | none => d.find env.selection = .error .noent
  | some content => ∃ a, d.find env.selection = .ok (.file a content)

def NoJournal (env : Env) (d : Disk) : Prop := d.find env.journal = .error .noent

def completedPrefix : Bytes := ascii ".hamn-update-completed."

/-- A journal has been retired as completed since `d₀`. -/
def CompletedSince (env : Env) (d₀ d : Disk) : Prop :=
  ∃ x, completedPrefix <+: x ∧ d₀.find (env.cacheDir.sub x) = .error .noent ∧
    d.find (env.cacheDir.sub x) ≠ .error .noent

/-- `target` is `bin/hamn` of a generation that holds the new binary. -/
def IsNew (env : Env) (payload : Payload) (d : Disk) (target : Bytes) : Prop :=
  ∃ name a, target = targetOf env name ∧ d.find (binary (generations.sub name)) = .ok (.file a payload.binary.content)

/-- The content of `new-target`. -/
def recordText : Option Bytes → Bytes
  | none => []
  | some target => target ++ [newline]

/-- The entry `x` of a directory is a file with this content. -/
def HasFile (es : Dir) (x : String) (content : Bytes) : Prop := ∃ a, es.get (ascii x) = some (.file a content)

/-- The files of the journal of a change, with the target recorded so far. -/
structure JournalFiles (u : Change) (es : Dir) (recorded : Option Bytes) : Prop where
  state : HasFile es "state" (stateText false u.previous.isSome u.host.isSome)
  oldTarget : HasFile es "old-target" (u.old ++ [newline])
  plain : trimNewlines (u.old ++ [newline]) = u.old
  newSelection : HasFile es "new-selection" u.newSelection
  previous : ∀ content, u.previous = some content → HasFile es "previous-selection" content
  newTarget : HasFile es "new-target" (recordText recorded)

section

variable (env : Env) (u : Change)

/-- No journal, and everything as it was. -/
structure Old (d : Disk) : Prop where
  noJournal : NoJournal env d
  link : HasLink d u.old
  selection : HasSelection env d u.previous
  notCompleted : ¬ CompletedSince env u.start d

/-- The journal of the change, with the target recorded so far. -/
structure Active (recorded : Option Bytes) (d : Disk) : Prop where
  journal : ∃ a es, d.find env.journal = .ok (.dir a es) ∧ JournalFiles u es recorded
  isNew : ∀ target, recorded = some target → ∃ payload, u.host = some payload ∧ IsNew env payload d target
  link : HasLink d u.old ∨ ∃ target, recorded = some target ∧ HasLink d target
  selection : HasSelection env d u.previous ∨ HasSelection env d (some u.newSelection)
  notCompleted : ¬ CompletedSince env u.start d

/-- The link that the update is to leave behind: to the new binary, or the old link when only the selection is
repaired. -/
def NewLink (d : Disk) : Prop :=
  match u.host with
  | none => HasLink d u.old
  | some payload => ∃ target, HasLink d target ∧ IsNew env payload d target

/-- No journal, and everything replaced. -/
structure New (d : Disk) : Prop where
  noJournal : NoJournal env d
  link : NewLink env u d
  selection : HasSelection env d (some u.newSelection)

/-- An update is never seen half applied unless its journal is there to undo it. -/
def Atomic (d : Disk) : Prop := Old env u d ∨ (∃ recorded, Active env u recorded d) ∨ New env u d

end

/-! ## What has to be kept -/

/-- The command, the selection, the journal, and the journals retired as completed. -/
def Watched (env : Env) : Set Loc :=
  {env.journal, env.selection, link} ∪ {l | ∃ x, completedPrefix <+: x ∧ l = env.cacheDir.sub x}

/-- The binaries of all generations. -/
def Binaries : Set Loc := {l | ∃ name, l = binary (generations.sub name)}

section

variable {env : Env} {u : Change} {d d' : Disk}

theorem Keep.journal (h : Keep (Watched env) d d') : d'.find env.journal = d.find env.journal :=
  h _ (Or.inl (Or.inl rfl))

theorem Keep.selection (h : Keep (Watched env) d d') : d'.find env.selection = d.find env.selection :=
  h _ (Or.inl (Or.inr (Or.inl rfl)))

theorem Keep.link (h : Keep (Watched env) d d') : d'.find link = d.find link :=
  h _ (Or.inl (Or.inr (Or.inr rfl)))

theorem Keep.hasLink (h : Keep (Watched env) d d') {t : Bytes} (hl : HasLink d t) : HasLink d' t := by
  unfold HasLink
  rw [h.link]
  exact hl

theorem Keep.hasSelection (h : Keep (Watched env) d d') {c : Option Bytes} (hs : HasSelection env d c) :
    HasSelection env d' c := by
  cases c with
  | none => exact h.selection.trans hs
  | some c =>
    obtain ⟨a, ha⟩ := hs
    exact ⟨a, h.selection.trans ha⟩

theorem Keep.notCompleted (h : Keep (Watched env) d d') {d₀ : Disk} (hc : ¬ CompletedSince env d₀ d) :
    ¬ CompletedSince env d₀ d' := by
  rintro ⟨x, hx, h0, h1⟩
  exact hc ⟨x, hx, h0, by rwa [h _ (Or.inr ⟨x, hx, rfl⟩)] at h1⟩

theorem Keep.isNew (h : Keep Binaries d d') {p : Payload} {t : Bytes} (hn : IsNew env p d t) : IsNew env p d' t := by
  obtain ⟨name, a, rfl, hb⟩ := hn
  exact ⟨name, a, rfl, (h _ ⟨name, rfl⟩).trans hb⟩

theorem Old.keep (hd : Old env u d) (h : Keep (Watched env) d d') : Old env u d' :=
  ⟨h.journal.trans hd.noJournal, h.hasLink hd.link, h.hasSelection hd.selection, h.notCompleted hd.notCompleted⟩

theorem Active.keep {recorded : Option Bytes} (hd : Active env u recorded d) (h : Keep (Watched env ∪ Binaries) d d') :
    Active env u recorded d' := by
  have hw := h.mono Set.subset_union_left
  have hb := h.mono Set.subset_union_right
  refine ⟨?_, ?_, ?_, hd.selection.imp hw.hasSelection hw.hasSelection, hw.notCompleted hd.notCompleted⟩
  · rw [hw.journal]
    exact hd.journal
  · intro target ht
    obtain ⟨p, hp, hn⟩ := hd.isNew target ht
    exact ⟨p, hp, hb.isNew hn⟩
  · refine hd.link.imp hw.hasLink ?_
    rintro ⟨target, ht, hl⟩
    exact ⟨target, ht, hw.hasLink hl⟩

/-- Before a target is recorded no generation matters. -/
theorem Active.keep_none (hd : Active env u none d) (h : Keep (Watched env) d d') : Active env u none d' := by
  refine ⟨?_, nofun, hd.link.imp h.hasLink nofun, hd.selection.imp h.hasSelection h.hasSelection,
    h.notCompleted hd.notCompleted⟩
  rw [h.journal]
  exact hd.journal

theorem NewLink.of_eq (hd : NewLink env u d) (hl : d'.find Install.link = d.find Install.link)
    (hb : Keep Binaries d d') : NewLink env u d' := by
  unfold NewLink HasLink at hd ⊢
  rw [hl]
  split at hd
  · exact hd
  · obtain ⟨target, ht, hn⟩ := hd
    exact ⟨target, ht, hb.isNew hn⟩

theorem NewLink.keep (hd : NewLink env u d) (h : Keep (Watched env ∪ Binaries) d d') : NewLink env u d' :=
  hd.of_eq (h.mono Set.subset_union_left).link (h.mono Set.subset_union_right)

/-! ## Locations off the watched ones -/

/-- A name in the cache that is none of those watched. -/
def Plain (x : Name) : Prop := x ≠ NAME ∧ x ≠ ascii "guest-image.json" ∧ ¬ completedPrefix <+: x

theorem Plain.off {x : Name} (h : Plain x) : Off (Watched env ∪ Binaries) (env.cacheDir.sub x) := by
  rintro k (((rfl | rfl | rfl) | ⟨y, hy, rfl⟩) | ⟨name, rfl⟩)
  · exact Loc.apart_of_ne h.1
  · exact Loc.apart_of_ne h.2.1
  · exact Loc.apart_of_root nofun
  · exact Loc.apart_of_ne fun he => h.2.2 (he ▸ hy)
  · exact Loc.apart_of_root nofun

/-- Neither prefix is a prefix of the other, so no name has both. -/
theorem not_prefix_append {p q : Bytes} (s : Bytes) (h : p.isPrefixOf q = false) (h' : q.isPrefixOf p = false) :
    ¬ p <+: q ++ s := by
  intro hp
  rcases List.prefix_or_prefix_of_prefix hp (List.prefix_append q s) with hpq | hqp
  · rw [List.isPrefixOf_iff_prefix.mpr hpq] at h
    cases h
  · rw [List.isPrefixOf_iff_prefix.mpr hqp] at h'
    cases h'

/-- A temporary name whose fixed part differs from every watched name. -/
theorem plain_append {p : Bytes} (s : Bytes) (h : p.isPrefixOf NAME = false)
    (h1 : p.isPrefixOf (ascii "guest-image.json") = false) (h2 : completedPrefix.isPrefixOf p = false)
    (h3 : p.isPrefixOf completedPrefix = false) : Plain (p ++ s) :=
  ⟨append_ne s h, append_ne s h1, not_prefix_append s h2 h3⟩

/-- An entry of `BINDIR` other than the command. -/
theorem off_bindir {x : Name} (h : x ≠ ascii "hamn") : Off (Watched env ∪ Binaries) (bindir.sub x) := by
  rintro k (((rfl | rfl | rfl) | ⟨y, hy, rfl⟩) | ⟨name, rfl⟩)
  · exact Loc.apart_of_root nofun
  · exact Loc.apart_of_root nofun
  · exact Loc.apart_of_ne h
  · exact Loc.apart_of_root nofun
  · exact Loc.apart_of_root nofun

/-- Anything outside the cache and `BINDIR`. -/
theorem off_of_root {l : Loc} (hc : l.root ≠ .cache env.cache) (hb : l.root ≠ .bin) : Off (Watched env) l := by
  rintro k ((rfl | rfl | rfl) | ⟨y, hy, rfl⟩)
  · exact Loc.apart_of_root hc
  · exact Loc.apart_of_root hc
  · exact Loc.apart_of_root hb
  · exact Loc.apart_of_root hc

/-- An entry of a generation directory other than `bin`. -/
theorem off_generation {g x : Name} (h : x ≠ ascii "bin") :
    Off (Watched env ∪ Binaries) ((generations.sub g).sub x) := by
  refine Off.union (off_of_root (by simp [generations, Loc.sub]) (by simp [generations, Loc.sub])) ?_
  rintro k ⟨name, rfl⟩
  exact Or.inr (Or.inr (Or.inl h))

/-- Everything watched and every binary. -/
abbrev All (env : Env) : Set Loc := Watched env ∪ Binaries

theorem off_journal : Off (All env \ {env.journal}) env.journal := by
  rintro k ⟨((rfl | rfl | rfl) | ⟨y, hy, rfl⟩) | ⟨name, rfl⟩, hne⟩
  · exact absurd rfl hne
  · exact Loc.apart_of_ne (by decide)
  · exact Loc.apart_of_root nofun
  · exact Loc.apart_of_ne fun he => by
      rw [← he, ← List.isPrefixOf_iff_prefix] at hy
      exact absurd hy (by decide)
  · exact Loc.apart_of_root nofun

theorem off_selection : Off (All env \ {env.selection}) env.selection := by
  rintro k ⟨((rfl | rfl | rfl) | ⟨y, hy, rfl⟩) | ⟨name, rfl⟩, hne⟩
  · exact Loc.apart_of_ne (by decide)
  · exact absurd rfl hne
  · exact Loc.apart_of_root nofun
  · exact Loc.apart_of_ne fun he => by
      rw [← he, ← List.isPrefixOf_iff_prefix] at hy
      exact absurd hy (by decide)
  · exact Loc.apart_of_root nofun

theorem off_link : Off (All env \ {link}) link := by
  rintro k ⟨((rfl | rfl | rfl) | ⟨y, hy, rfl⟩) | ⟨name, rfl⟩, hne⟩
  · exact Loc.apart_of_root nofun
  · exact Loc.apart_of_root nofun
  · exact absurd rfl hne
  · exact Loc.apart_of_root nofun
  · exact Loc.apart_of_root nofun

theorem Off.mono {S T : Set Loc} {l : Loc} (h : Off S l) (hT : T ⊆ S) : Off T l := fun k hk => h k (hT hk)

/-- What is kept apart from one location. -/
theorem Keep.apart {S : Set Loc} {l k : Loc} (h : Keep (S \ {l}) d d') (hk : k ∈ S) (ha : k.Apart l) :
    d'.find k = d.find k :=
  h k ⟨hk, ha.ne⟩

theorem Keep.completed {l : Loc} (h : Keep (All env \ {l}) d d') (hl : l = env.journal ∨ l = env.selection ∨ l = Install.link)
    {d₀ : Disk} (hc : ¬ CompletedSince env d₀ d) : ¬ CompletedSince env d₀ d' := by
  rintro ⟨x, hx, h0, h1⟩
  refine hc ⟨x, hx, h0, ?_⟩
  have hmem : env.cacheDir.sub x ∈ All env := Or.inl (Or.inr ⟨x, hx, rfl⟩)
  rwa [h _ ⟨hmem, fun he => ?_⟩] at h1
  rcases hl with rfl | rfl | rfl
  all_goals
    rw [(List.cons.inj (Loc.mk.inj he).2).1, ← List.isPrefixOf_iff_prefix] at hx
    exact absurd hx (by decide)

theorem mem_journal : env.journal ∈ All env := Or.inl (Or.inl (Or.inl rfl))

theorem mem_selection : env.selection ∈ All env := Or.inl (Or.inl (Or.inr (Or.inl rfl)))

theorem mem_link : link ∈ All env := Or.inl (Or.inl (Or.inr (Or.inr rfl)))

theorem link_apart_journal : link.Apart env.journal := Loc.apart_of_root fun h => by cases h

theorem journal_apart_selection : env.journal.Apart env.selection := Loc.apart_of_ne (by decide)

theorem Keep.binaries {l : Loc} (h : Keep (All env \ {l}) d d') (hl : l.root ≠ .gens) : Keep Binaries d d' := by
  rintro k ⟨name, rfl⟩
  exact h _ ⟨Or.inr ⟨name, rfl⟩, fun he => hl (he ▸ rfl)⟩

/-- The journal stays what it is when only the selection changes, to the previous or the new one. -/
theorem Active.select {recorded : Option Bytes} (hd : Active env u recorded d)
    (h : Keep (All env \ {env.selection}) d d')
    (hs : HasSelection env d' u.previous ∨ HasSelection env d' (some u.newSelection)) : Active env u recorded d' := by
  have hj := h.apart mem_journal journal_apart_selection
  have hl := h.apart mem_link (Loc.apart_of_root nofun)
  have hb := h.binaries (by simp [Env.selection, Env.cacheDir, Loc.sub])
  refine ⟨?_, ?_, ?_, hs, h.completed (Or.inr (Or.inl rfl)) hd.notCompleted⟩
  · rw [hj]
    exact hd.journal
  · intro target ht
    obtain ⟨p, hp, hn⟩ := hd.isNew target ht
    exact ⟨p, hp, hb.isNew hn⟩
  · unfold HasLink
    rw [hl]
    exact hd.link

/-- The journal stays what it is when only the link changes, to the old or the recorded target. -/
theorem Active.relink {recorded : Option Bytes} (hd : Active env u recorded d)
    (h : Keep (All env \ {Install.link}) d d')
    (hl : HasLink d' u.old ∨ ∃ target, recorded = some target ∧ HasLink d' target) : Active env u recorded d' := by
  have hj := h.apart mem_journal (Loc.apart_of_root nofun)
  have hs := h.apart (k := env.selection) mem_selection (Loc.apart_of_root nofun)
  have hb := h.binaries (by simp [Install.link, bindir, Loc.sub])
  refine ⟨?_, ?_, hl, ?_, h.completed (Or.inr (Or.inr rfl)) hd.notCompleted⟩
  · rw [hj]
    exact hd.journal
  · intro target ht
    obtain ⟨p, hp, hn⟩ := hd.isNew target ht
    exact ⟨p, hp, hb.isNew hn⟩
  · have key : ∀ c, HasSelection env d c → HasSelection env d' c := by
      rintro (_ | c) hc
      · exact hs.trans hc
      · obtain ⟨a, ha⟩ := hc
        exact ⟨a, hs.trans ha⟩
    exact hd.selection.imp (key _) (key _)

/-! ## The journal read back -/

theorem HasFile.line_eq {es : Dir} {x : String} {content text : Bytes} {l : Loc} {a : Attr} {limit : ℕ}
    (h : HasFile es x content) (hl : d.find l = .ok (.dir a es)) (ht : line d (l.sub (ascii x)) limit = .ok text) :
    text = trimNewlines content := by
  obtain ⟨b, c, hf, rfl⟩ := line_eq_ok ht
  obtain ⟨b', hb⟩ := h
  have := (Disk.get_of_find_sub hl hf).1.symm.trans hb
  obtain ⟨-, rfl⟩ := Node.file.inj (Option.some.inj this)
  rfl

/-- A text that ends in `/bin/hamn` is read back whole. -/
theorem trimNewlines_target (t : Bytes) :
    trimNewlines ((t ++ ascii "/bin/hamn") ++ [newline]) = t ++ ascii "/bin/hamn" :=
  trimNewlines_append (c := byte 'n') (by rw [List.getLast?_append]; rfl) (by decide)

theorem trimNewlines_of_targetName {t : Bytes} {name : Name} (h : targetName env t = some name) :
    trimNewlines (t ++ [newline]) = t := by
  obtain ⟨r, hr, hs⟩ := Option.bind_eq_some_iff.mp h
  have ht := stripPrefix_eq_some.mp hr
  rw [stripSuffix_eq_some.mp hs, ← List.append_assoc] at ht
  rw [ht]
  exact trimNewlines_target _

theorem IsNew.plain {p : Payload} {t : Bytes} (h : IsNew env p d t) : trimNewlines (t ++ [newline]) = t := by
  obtain ⟨name, a, rfl, -⟩ := h
  exact trimNewlines_target _

/-- A valid journal of the change says what the change recorded. -/
theorem Active.loaded {recorded : Option Bytes} (hd : Active env u recorded d) {j : Journal}
    (h : load env d env.journal = .valid j) :
    j.bootstrap = false ∧ j.selectionPresent = u.previous.isSome ∧ j.hostMutation = u.host.isSome ∧
      j.oldTarget = some u.old ∧ j.newTarget = recorded := by
  obtain ⟨a, es, hj, hfiles⟩ := hd.journal
  have hl := load_eq_valid h
  obtain ⟨state, hs, hp⟩ := hl.state
  rw [hfiles.state.line_eq hj hs] at hp
  have hparse : ∀ b s h, parseState (trimNewlines (stateText b s h)) = .fields b s h := by decide
  rw [hparse] at hp
  obtain ⟨hb, hsel, hh⟩ := StateText.fields.inj hp
  refine ⟨hb.symm, hsel.symm, hh.symm, ?_, ?_⟩
  · have ho := hl.oldTarget
    rw [← hb, previousTarget, if_neg (by decide)] at ho
    obtain ⟨-, ho⟩ := else_of_eq ho nofun
    obtain ⟨old, hold, ho⟩ := bind_eq_ok.mp ho
    rw [hfiles.oldTarget.line_eq hj hold, hfiles.plain] at ho
    obtain ⟨-, ho⟩ := else_of_eq (Except.ok.inj ho) nofun
    exact (Option.some.inj ho).symm
  · obtain ⟨text, ht, hr⟩ := hl.newTarget
    have htext := hfiles.newTarget.line_eq hj ht
    obtain ⟨length, -, hr⟩ := bind_eq_ok.mp hr
    cases recorded with
    | none =>
      have hnil : text = [] := htext
      rw [if_pos hnil] at hr
      obtain ⟨-, hr⟩ := else_of_eq (Except.ok.inj hr) nofun
      exact (Option.some.inj hr).symm
    | some target =>
      obtain ⟨p, -, hn⟩ := hd.isNew target rfl
      have htarget : text = target := htext.trans hn.plain
      have hne : target ≠ [] := by
        obtain ⟨name, b, rfl, -⟩ := hn
        exact fun h => nomatch (List.append_eq_nil_iff.mp h).2
      rw [htarget, if_neg hne] at hr
      obtain ⟨-, hr⟩ := else_of_eq (Except.ok.inj hr) nofun
      exact (Option.some.inj hr).symm

/-! ## Rolling back -/

section

variable {recorded : Option Bytes}

theorem All.plain_off {p : Bytes} (s : Bytes) (h : p.isPrefixOf NAME = false)
    (h1 : p.isPrefixOf (ascii "guest-image.json") = false) (h2 : completedPrefix.isPrefixOf p = false)
    (h3 : p.isPrefixOf completedPrefix = false) : Off (All env) (env.cacheDir.sub (p ++ s)) :=
  (plain_append s h h1 h2 h3).off

theorem Active.stable : Stable (All env) (Active env u recorded) := fun _ _ hd h => hd.keep h

/-- The selection, replaced by a copy of `source`; `P` survives the replacement. -/
theorem wp_installSelection {source : Loc} {pre : String} {P : Disk → Prop} (hP : Stable (All env) P) (hd : P d)
    (hpre : ∀ s, Off (All env) (env.cacheDir.sub (ascii pre ++ s)))
    (hselect : ∀ c d1 d2, read d source = .ok c → P d1 → Keep (All env \ {env.selection}) d1 d2 →
      HasSelection env d2 (some c) → P d2) :
    wp (installSelection env source pre)
      ⟨fun _ d' => P d' ∧ ∃ c, read d source = .ok c ∧ HasSelection env d' (some c), fun _ => P, P⟩ d := by
  refine wp_query_bind (fun c hc => ?_) fun _ _ => hd
  refine wp.seq (P := ⟨fun _ d' => P d' ∧ HasSelection env d' (some c), fun _ => P, P⟩) ?_
    (fun _ d' hd' => wp_check (fun _ => ⟨hd'.1, c, hc, hd'.2⟩) fun _ => hd'.1) (fun _ _ h => h) fun _ h => h
  refine wp_staged hP hpre hd fun s d1 h1 _ => ?_
  refine ((hP.maintains fun _ => keep_writeAll (hpre s)) d1 h1).seq (fun _ d2 h2 => ?_) (fun _ _ h => h) fun _ h => h
  refine ((hP.maintains fun _ => keep_touch) d2 h2).seq (fun _ d3 h3 => ?_) (fun _ _ h => h) fun _ h => h
  refine wp_query_bind (fun copied hcopied => ?_) fun _ _ => h3
  split_ifs with heq
  · subst heq
    refine wp_call h3 (fun _ => h3) fun d4 hr => ?_
    obtain ⟨n, hn, rfl⟩ := Disk.rename_eq_ok hr
    obtain ⟨a, hf, -⟩ := read_eq_ok hcopied
    obtain rfl : n = .file a copied := Except.ok.inj (hn.symm.trans hf)
    have hsel : HasSelection env (d3.move (env.cacheDir.sub (ascii pre ++ s)) env.selection (.file a copied))
        (some copied) := ⟨a, Disk.find_move_self hn⟩
    exact ⟨hselect copied _ _ hc h3 (.move ((hpre s).mono Set.sdiff_subset) off_selection) hsel, hsel⟩
  · exact wp_fail h3

theorem absent_iff {l : Loc} : absent d l = true ↔ d.find l = .error .noent := by
  unfold absent
  split
  · simp [*]
  · rename_i h
    simp only [Bool.false_eq_true, false_iff]
    exact h

theorem wp_restoreSelection {j : Journal} (hd : Active env u recorded d)
    (hj : j.selectionPresent = u.previous.isSome) :
    wp (restoreSelection env j)
      ⟨fun _ d' => Active env u recorded d' ∧ HasSelection env d' u.previous, fun _ => Active env u recorded,
        Active env u recorded⟩ d := by
  unfold restoreSelection
  cases hp : u.previous with
  | some c =>
    rw [hj, hp, if_pos (show (some c).isSome = true from rfl)]
    have hread : ∀ c', read d (env.journal.sub (ascii "previous-selection")) = .ok c' → c' = c := by
      intro c' hc'
      obtain ⟨a, es, hjournal, hfiles⟩ := hd.journal
      obtain ⟨b, hb, -⟩ := read_eq_ok hc'
      obtain ⟨b', hb'⟩ := hfiles.previous c hp
      exact (Node.file.inj (Option.some.inj ((Disk.get_of_find_sub hjournal hb).1.symm.trans hb'))).2
    refine (wp_installSelection Active.stable hd
      (fun s => All.plain_off s (by decide) (by decide) (by decide) (by decide))
      fun c' d1 d2 hc' h1 hk hs => h1.select hk (Or.inl ?_)).mono ?_ (fun _ _ h => h) fun _ h => h
    · rwa [hp, ← hread c' hc']
    · rintro _ d' ⟨hd', c', hc', hs⟩
      rw [hread c' hc'] at hs
      exact ⟨hd', hs⟩
  | none =>
    rw [hj, hp, if_neg (by decide)]
    refine wp_look_bind ?_
    have hcheck : ∀ d', Active env u recorded d' → wp (check (fun d => absent d env.selection) "selection was not removed")
        ⟨fun _ d' => Active env u recorded d' ∧ HasSelection env d' none, fun _ => Active env u recorded,
          Active env u recorded⟩ d' := fun d' hd' =>
      wp_check (fun h => ⟨hd', absent_iff.mp h⟩) fun _ => hd'
    split_ifs
    · exact hcheck d hd
    · refine wp_bind (wp_check (fun _ => ?_) fun _ => hd)
      refine wp_call_bind hd (fun _ => hd) fun d' hr => hcheck d' ?_
      obtain ⟨n, hn, -, rfl⟩ := Disk.removeFile_eq_ok hr
      refine hd.select (.alter off_selection) (Or.inl ?_)
      rw [hp]
      exact Disk.find_alter_of_found hn

/-- A link, renamed over the command. -/
theorem HasLink.move {t old : Bytes} {a : Attr} {l : Loc} (h : HasLink d old) (hl : l.Apart link) :
    HasLink (d.move l link (.symlink a t)) t := by
  obtain ⟨b, hb⟩ := h
  refine ⟨a, ?_⟩
  unfold Disk.move
  rw [← Disk.find_alter_of_apart (f := fun _ => none) hl] at hb
  exact Disk.find_alter_of_found hb

/-- The journal is active and the selection is the previous one. -/
def Reselected (env : Env) (u : Change) (recorded : Option Bytes) (d : Disk) : Prop :=
  Active env u recorded d ∧ HasSelection env d u.previous

theorem Reselected.stable : Stable (All env) (Reselected env u recorded) := fun _ _ hd h =>
  ⟨hd.1.keep h, (h.mono Set.subset_union_left).hasSelection hd.2⟩

theorem HasSelection.of_eq (h : d'.find env.selection = d.find env.selection) {c : Option Bytes}
    (hs : HasSelection env d c) : HasSelection env d' c := by
  cases c with
  | none => exact h.trans hs
  | some c =>
    obtain ⟨a, ha⟩ := hs
    exact ⟨a, h.trans ha⟩

/-- The link, replaced by a staged link to the previous target. -/
theorem wp_relink (hd : Reselected env u recorded d) :
    wp (relink u.old) (Post.always (Reselected env u recorded)) d := by
  refine wp_bind (wp_temporary hd (fun _ => hd) fun s d1 _ he => ?_)
  have hoff : Off (All env) (bindir.sub (ascii ".hamn-update-rollback." ++ s)) := off_bindir (append_ne s (by decide))
  have hd1 : Reselected env u recorded d1 := Reselected.stable _ _ hd (.place hoff he)
  set stage := bindir.sub (ascii ".hamn-update-rollback." ++ s)
  have hrest : ∀ r, Maintains (Reselected env u recorded) (do
      ignore (removeFile (stage.sub (ascii "hamn")))
      ignore (removeDir stage)
      raise r : Act Unit) := fun r =>
    Reselected.stable.maintains fun _ => (keep_removeFile (hoff.sub _)).ignore.bind fun _ =>
      (keep_removeDir hoff).ignore.bind fun _ => keep_raise
  refine wp.catch (P := Post.always (Reselected env u recorded)) ?_ (fun _ d' h => hrest _ d' h)
    (fun _ d' h => hrest _ d' h) fun _ h => h
  refine wp_call_bind hd1 (fun _ => hd1) fun d2 h2 => ?_
  have hd2 : Reselected env u recorded d2 := Reselected.stable _ _ hd1 (.place (hoff.sub _) h2)
  refine wp_call_bind hd2 (fun _ => hd2) fun d3 h3 => ?_
  obtain rfl : d2 = d3 := Except.ok.inj h3
  refine wp_call hd2 (fun _ => hd2) fun d4 hr => ?_
  obtain ⟨n, hn, rfl⟩ := Disk.rename_eq_ok hr
  obtain rfl : n = .symlink (.mine 0o755) u.old := Except.ok.inj (hn.symm.trans (Disk.find_place h2))
  have happart : (stage.sub (ascii "hamn")).Apart link := (hoff link mem_link).sub _
  have hkeep : Keep (All env \ {link}) d2 (d2.move (stage.sub (ascii "hamn")) link (.symlink (.mine 0o755) u.old)) :=
    .move ((hoff.sub _).mono Set.sdiff_subset) off_link
  refine ⟨hd2.1.relink hkeep (Or.inl ?_), hd2.2.of_eq (hkeep.apart mem_selection (Loc.apart_of_root nofun))⟩
  rcases hd2.1.link with h | ⟨t, -, h⟩
  · exact h.move happart
  · exact h.move happart

theorem HasLink.of_readLink {t : Bytes} (h : readLink d link = some t) : HasLink d t := by
  unfold readLink at h
  split at h
  · rename_i a t' hf
    split_ifs at h
    rw [← Option.some.inj h]
    exact ⟨a, hf⟩
  · cases h

theorem wp_restoreLink {j : Journal} (hd : Reselected env u recorded d) (hb : j.bootstrap = false)
    (ho : j.oldTarget = some u.old) :
    wp (restoreLink env j) ⟨fun _ d' => Reselected env u recorded d' ∧ HasLink d' u.old,
      fun _ => Reselected env u recorded, Reselected env u recorded⟩ d := by
  unfold restoreLink
  rw [hb, if_neg (by decide), ho]
  refine wp_check_bind (fun _ => wp_check_bind (fun _ => wp_look_bind ?_) fun _ => hd) fun _ => hd
  split
  · exact wp_fail hd
  · rename_i current hcurrent
    split_ifs with heq
    · subst heq
      exact wp_pure ⟨hd, .of_readLink hcurrent⟩
    · refine wp_check_bind (fun _ => ?_) fun _ => hd
      refine (wp_relink hd).seq (fun _ d' hd' => ?_) (fun _ _ h => h) fun _ h => h
      exact wp_check (fun h => ⟨hd', .of_readLink (of_decide_eq_true h)⟩) fun _ => hd'

/-! ## Retiring -/

theorem retiredName_completed (a : Bytes) : retiredName .completed a = completedPrefix ++ a := rfl

theorem retiredName_recovered (a : Bytes) : retiredName .recovered a = ascii ".hamn-update-recovered." ++ a := rfl

theorem retiredName_ne (outcome : Ending) (a : Bytes) : retiredName outcome a ≠ NAME := by
  cases outcome with
  | completed => exact append_ne a (by decide)
  | recovered => exact append_ne a (by decide)

/-- The journal of the change under its retired name. -/
def Retired (env : Env) (u : Change) (recorded : Option Bytes) (outcome : Ending) (d : Disk) : Prop :=
  ∃ attempt a es, attemptValid attempt = true ∧
    d.find (env.cacheDir.sub (retiredName outcome attempt)) = .ok (.dir a es) ∧ JournalFiles u es recorded

/-- What retiring does not touch. -/
def Installed (env : Env) : Set Loc := {env.selection, link} ∪ Binaries

theorem wp_retire {outcome : Ending} (hd : Active env u recorded d) :
    wp (retire env outcome) ⟨fun _ d' => NoJournal env d' ∧ Retired env u recorded outcome d' ∧
      Keep (Installed env) d d' ∧ (outcome = .recovered → ¬ CompletedSince env u.start d'),
      fun _ => Active env u recorded, Active env u recorded⟩ d := by
  refine wp_look_bind ?_
  split
  · rename_i journal hload
    refine wp_check_bind (fun _ => ?_) fun _ => hd
    refine wp_call_bind hd (fun _ => hd) fun d1 h1 => ?_
    obtain rfl : d = d1 := Except.ok.inj h1
    refine wp_call_bind hd (fun _ => hd) fun d2 hr => ?_
    obtain ⟨n, hn, hfree, rfl⟩ := Disk.renameExcl_eq_ok hr
    obtain ⟨a, es, hj, hfiles⟩ := hd.journal
    obtain rfl : n = .dir a es := Except.ok.inj (hn.symm.trans hj)
    have hapart : (env.cacheDir.sub (retiredName outcome journal.attempt)).Apart env.journal :=
      Loc.apart_of_ne (retiredName_ne outcome journal.attempt)
    have hgone : NoJournal env (d.move env.journal (env.cacheDir.sub (retiredName outcome journal.attempt)) (.dir a es)) := by
      unfold NoJournal Disk.move
      rw [Disk.find_alter_of_apart hapart]
      exact Disk.find_alter_of_found hj
    refine wp_check (fun _ => ⟨hgone, ?_, ?_, ?_⟩) fun h => ?_
    · exact ⟨journal.attempt, a, es, (load_eq_valid hload).attemptValid, Disk.find_move_self hj, hfiles⟩
    · refine .move (fun k hk => ?_) fun k hk => ?_
      · rcases hk with (rfl | rfl) | ⟨name, rfl⟩
        · exact journal_apart_selection
        · exact Loc.apart_of_root nofun
        · exact Loc.apart_of_root nofun
      · rcases hk with (rfl | rfl) | ⟨name, rfl⟩
        · refine Loc.apart_of_ne ?_
          cases outcome with
          | completed => exact append_ne _ (by decide)
          | recovered => exact append_ne _ (by decide)
        · exact Loc.apart_of_root nofun
        · exact Loc.apart_of_root nofun
    · rintro rfl
      have hoff : Off (All env) (env.cacheDir.sub (retiredName .recovered journal.attempt)) :=
        All.plain_off (p := ascii ".hamn-update-recovered.") _ (by decide) (by decide) (by decide) (by decide)
      exact (Keep.move off_journal (hoff.mono Set.sdiff_subset)).completed (Or.inl rfl) hd.notCompleted
    · rw [absent_iff.mpr hgone] at h
      cases h
  · exact wp_fail hd

/-- Everything is as it was, and the journal is kept as recovered. -/
def Recovered (env : Env) (u : Change) (d : Disk) : Prop :=
  Old env u d ∧ ∃ recorded, Retired env u recorded .recovered d

theorem wp_restore {j : Journal} (hd : Active env u recorded d) (hload : load env d env.journal = .valid j) :
    wp (restore env j) ⟨fun _ => Recovered env u, fun _ => Active env u recorded, Active env u recorded⟩ d := by
  obtain ⟨hb, hsel, hhost, hold, hnew⟩ := hd.loaded hload
  refine (wp_restoreSelection hd hsel).seq (fun _ d1 hd1 => ?_) (fun _ _ h => h) fun _ h => h
  have hretire : ∀ d2, Reselected env u recorded d2 → HasLink d2 u.old → wp (retire env .recovered)
      ⟨fun _ => Recovered env u, fun _ => Active env u recorded, Active env u recorded⟩ d2 := by
    intro d2 hd2 hlink
    refine (wp_retire hd2.1).mono ?_ (fun _ _ h => h) fun _ h => h
    rintro _ d3 ⟨hno, hretired, hkeep, hcompleted⟩
    refine ⟨⟨hno, ?_, ?_, hcompleted rfl⟩, recorded, hretired⟩
    · obtain ⟨a, ha⟩ := hlink
      exact ⟨a, (hkeep _ (Or.inl (Or.inr rfl))).trans ha⟩
    · exact hd2.2.of_eq (hkeep _ (Or.inl (Or.inl rfl)))
  split_ifs with hm
  · refine (wp_restoreLink hd1 hb hold).seq (fun _ d2 hd2 => hretire d2 hd2.1 hd2.2) (fun _ _ h => h.1) fun _ h => h.1
  · refine hretire d1 hd1 (hd1.1.link.elim id ?_)
    -- Without a host mutation no target is recorded, so the link was never replaced.
    rintro ⟨t, ht, -⟩
    obtain ⟨p, hp, -⟩ := hd1.1.isNew t ht
    rw [hhost, hp] at hm
    exact absurd rfl hm

/-- A rollback that returns has undone the update; any other outcome leaves the journal to be tried again. -/
theorem wp_rollback {ε : Type} (hd : Active env u recorded d) :
    wp (rollback (ε := ε) env) ⟨fun r d' => match r with
        | .ok _ => Recovered env u d'
        | .error _ => Active env u recorded d',
      fun _ _ => False, Active env u recorded⟩ d := by
  refine wp_look_bind ?_
  split
  · exact wp_pure hd
  · exact wp_pure hd
  · rename_i j hload
    refine wp_look_bind ?_
    by_cases howns : ownsActive env d j = true
    · rw [if_pos howns]
      exact (wp_restore hd hload).catch (fun _ _ h => wp_pure h) (fun _ _ h => wp_pure h) fun _ h => h
    · rw [if_neg howns]
      exact wp_pure hd

/-- Without a journal a rollback does nothing and says so. -/
theorem wp_rollback_of_noJournal {ε : Type} {Q : Post Disk ε (Except RollbackError String)} (h : NoJournal env d)
    (hq : Q.ok (.error (.failed [])) d) : wp (rollback (ε := ε) env) Q d := by
  refine wp_look_bind ?_
  rw [load_of_error h]
  exact wp_pure hq

/-- Every rollback, from every state of an update. -/
theorem wp_rollback_atomic {ε : Type} (hd : Atomic env u d) :
    wp (rollback (ε := ε) env) ⟨fun r d' => match r with
        | .ok _ => Recovered env u d'
        | .error _ => Atomic env u d',
      fun _ _ => False, Atomic env u⟩ d := by
  rcases hd with h | ⟨recorded, h⟩ | h
  · exact wp_rollback_of_noJournal h.noJournal (Or.inl h)
  · refine (wp_rollback h).mono (fun r d' hr => ?_) (fun _ _ h => h) fun _ h => Or.inr (Or.inl ⟨recorded, h⟩)
    cases r with
    | ok s => exact hr
    | error e => exact Or.inr (Or.inl ⟨recorded, hr⟩)
  · exact wp_rollback_of_noJournal h.noJournal (Or.inr (Or.inr h))

end

end

end Hamn.Install
