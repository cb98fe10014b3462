import Hamn.Lib.Steps
import Hamn.Host.Profile

/-!
# Host.Purge — purged profiles and the sweep of what purges leave (`host/core/purge.c`)

A purge renames the directory of a profile to a hidden name, syncs `~/.hamn` and removes the tree; it holds the lock of
the profile until it returns.  A sweep lists `~/.hamn`, and removes every hidden tree whose lock it finds free, without
holding that lock.  A crash brings back an earlier listing of `~/.hamn`, down to the last sync, and any of the entries
that were removed from the trees.

* `hiddenName`, `purgedName`: the names of purged trees, and their reading.
* `State`, `Action`, `step`: the directory, the purges and the sweeps, in any order of their steps.
* `Durable`, `Inv`: trees that no crash brings back under the name of a profile.
* `Synced`: the condition on the sweeps.
-/

namespace Hamn.Host.Purge

open Bytes

/-! ## Hidden names -/

def PURGE_PREFIX : Bytes := ascii ".purge-"
def PURGE_SUFFIX_HEX : ℕ := 16

/-- The name that `purge_retire` makes of the profile name and its random digits. -/
def hiddenName (profile hex : Bytes) : Bytes := PURGE_PREFIX ++ profile ++ byte '-' :: hex

/-- `purged_name`. -/
def purgedName (name : Bytes) : Option Bytes :=
  if name.length ≤ PURGE_PREFIX.length + 1 + PURGE_SUFFIX_HEX ∨ PURGE_PREFIX.isPrefixOf name = false then none
  else
    let suffix := name.drop (name.length - PURGE_SUFFIX_HEX)
    if name[name.length - PURGE_SUFFIX_HEX - 1]? ≠ some (byte '-') ∨ suffix.all isLowerHex = false then none
    else
      let profileLength := name.length - PURGE_PREFIX.length - 1 - PURGE_SUFFIX_HEX
      if PROFILE_NAME_CAP ≤ profileLength then none
      else
        let profile := (name.drop PURGE_PREFIX.length).take profileLength
        if profileNameValid profile then some profile else none

/-- The random digits of a hidden name. -/
def IsSuffix (hex : Bytes) : Prop := hex.length = PURGE_SUFFIX_HEX ∧ hex.all isLowerHex = true

theorem prefix_length : PURGE_PREFIX.length = 7 := by decide

theorem hiddenName_length (profile : Bytes) {hex : Bytes} (h : IsSuffix hex) :
    (hiddenName profile hex).length = 7 + profile.length + 1 + 16 := by
  simp only [hiddenName, List.length_append, List.length_cons, prefix_length, h.1, PURGE_SUFFIX_HEX]

theorem profileNameValid_bounds {name : Bytes} (h : profileNameValid name = true) :
    0 < name.length ∧ name.length < PROFILE_NAME_CAP := by
  unfold profileNameValid at h
  simp only [Bool.and_eq_true, decide_eq_true_eq] at h
  exact ⟨List.length_pos_iff.mpr h.1.1.1.1.1, h.1.1.1.1.2⟩

theorem purgedName_hiddenName {profile hex : Bytes} (hv : profileNameValid profile = true) (h : IsSuffix hex) :
    purgedName (hiddenName profile hex) = some profile := by
  obtain ⟨hpos, hcap⟩ := profileNameValid_bounds hv
  have hlen := hiddenName_length profile h
  have hbefore : (PURGE_PREFIX ++ profile).length = 7 + profile.length := by rw [List.length_append, prefix_length]
  have hnamed : PURGE_PREFIX.isPrefixOf (hiddenName profile hex) = true := by
    rw [List.isPrefixOf_iff_prefix, hiddenName, List.append_assoc]
    exact List.prefix_append _ _
  have hsuffix : (hiddenName profile hex).drop ((hiddenName profile hex).length - PURGE_SUFFIX_HEX) = hex := by
    rw [hlen, show 7 + profile.length + 1 + 16 - PURGE_SUFFIX_HEX = (PURGE_PREFIX ++ profile).length + 1 by
      rw [hbefore, PURGE_SUFFIX_HEX]; omega, hiddenName, List.drop_length_add_append]
    rfl
  have hdash : (hiddenName profile hex)[(hiddenName profile hex).length - PURGE_SUFFIX_HEX - 1]? = some (byte '-') := by
    rw [hlen, show 7 + profile.length + 1 + 16 - PURGE_SUFFIX_HEX - 1 = (PURGE_PREFIX ++ profile).length by
      rw [hbefore, PURGE_SUFFIX_HEX]; omega, hiddenName, List.getElem?_append_right (le_refl _), Nat.sub_self]
    rfl
  have hprofile : ((hiddenName profile hex).drop PURGE_PREFIX.length).take
      ((hiddenName profile hex).length - PURGE_PREFIX.length - 1 - PURGE_SUFFIX_HEX) = profile := by
    rw [hlen, show 7 + profile.length + 1 + 16 - PURGE_PREFIX.length - 1 - PURGE_SUFFIX_HEX = profile.length by
      rw [prefix_length, PURGE_SUFFIX_HEX]; omega, hiddenName, List.append_assoc, List.drop_left, List.take_left]
  unfold purgedName
  have hlong : ¬ ((hiddenName profile hex).length ≤ PURGE_PREFIX.length + 1 + PURGE_SUFFIX_HEX ∨
      PURGE_PREFIX.isPrefixOf (hiddenName profile hex) = false) := by
    rw [hnamed, hlen, prefix_length, PURGE_SUFFIX_HEX]
    simp only [Bool.true_eq_false, or_false]
    omega
  have hcap' : ¬ PROFILE_NAME_CAP ≤ (hiddenName profile hex).length - PURGE_PREFIX.length - 1 - PURGE_SUFFIX_HEX := by
    rw [hlen, prefix_length, PURGE_SUFFIX_HEX]
    omega
  have hshape : ¬ ((hiddenName profile hex)[(hiddenName profile hex).length - PURGE_SUFFIX_HEX - 1]? ≠ some (byte '-') ∨
      ((hiddenName profile hex).drop ((hiddenName profile hex).length - PURGE_SUFFIX_HEX)).all isLowerHex = false) := by
    rw [hdash, hsuffix, h.2]
    simp only [ne_eq, not_true_eq_false, Bool.true_eq_false, or_self, not_false_eq_true]
  simp only [if_neg hlong, if_neg hcap', if_neg hshape, hprofile, if_pos hv]

theorem hiddenName_of_purgedName {name profile : Bytes} (h : purgedName name = some profile) :
    profileNameValid profile = true ∧ ∃ hex, IsSuffix hex ∧ name = hiddenName profile hex := by
  unfold purgedName at h
  simp only at h
  split_ifs at h with hlong hshape hcap hv
  obtain ⟨hlen, hnamed⟩ := not_or.mp hlong
  obtain ⟨hdash, hhex⟩ := not_or.mp hshape
  obtain ⟨r, rfl⟩ := List.isPrefixOf_iff_prefix.mp (Bool.eq_true_of_not_eq_false hnamed)
  rw [List.length_append, prefix_length, PURGE_SUFFIX_HEX] at hlen
  have hsplit : (PURGE_PREFIX ++ r).length - PURGE_SUFFIX_HEX = PURGE_PREFIX.length + (r.length - 17 + 1) := by
    rw [List.length_append, PURGE_SUFFIX_HEX]
    omega
  have hprofile : r.take (r.length - 17) = profile := by
    rw [← Option.some.inj h, List.drop_left, List.length_append, PURGE_SUFFIX_HEX]
    congr 1
    omega
  have hlt : r.length - 17 < r.length := by omega
  rw [hsplit, List.drop_length_add_append] at hhex
  rw [hsplit, show PURGE_PREFIX.length + (r.length - 17 + 1) - 1 = PURGE_PREFIX.length + (r.length - 17) by omega,
    List.getElem?_append_right (Nat.le_add_right _ _), Nat.add_sub_cancel_left, List.getElem?_eq_getElem hlt] at hdash
  refine ⟨Option.some.inj h ▸ hv, r.drop (r.length - 17 + 1), ⟨?_, Bool.eq_true_of_not_eq_false hhex⟩, ?_⟩
  · rw [List.length_drop, PURGE_SUFFIX_HEX]
    omega
  · have hc := Option.some.inj (not_not.mp hdash)
    rw [hiddenName, List.append_assoc, ← hprofile, ← hc, ← List.drop_eq_getElem_cons hlt, List.take_append_drop]

/-- `purged_name` accepts the names that purges make, and no others, and finds the profile that they were made for. -/
theorem purgedName_eq_some {name profile : Bytes} : purgedName name = some profile ↔
    profileNameValid profile = true ∧ ∃ hex, IsSuffix hex ∧ name = hiddenName profile hex := by
  refine ⟨hiddenName_of_purgedName, ?_⟩
  rintro ⟨hv, hex, hhex, rfl⟩
  exact purgedName_hiddenName hv hhex

/-- A hidden name is not the name of a profile. -/
theorem not_visible_hiddenName (profile hex : Bytes) : profileNameValid (hiddenName profile hex) = false := by
  have hdot : hiddenName profile hex = byte '.' :: ((hiddenName profile hex).drop 1) := rfl
  rw [← Bool.not_eq_true]
  intro hv
  unfold profileNameValid at hv
  simp only [Bool.and_eq_true] at hv
  have hall := hv.1.1.1.2
  rw [hdot, List.all_cons, Bool.and_eq_true] at hall
  exact absurd hall.1 (by decide)

/-! ## The directory, the purges and the sweeps -/

variable {P T E : Type}

/-- The entries of `~/.hamn`. -/
abbrev Listing (T : Type) := List (Bytes × T)

def names (home : Listing T) : List Bytes := home.map Prod.fst

theorem mem_names {home : Listing T} {m : Bytes} {t : T} (h : (m, t) ∈ home) : m ∈ names home := List.mem_map_of_mem h

theorem visible_of_hidden {name : Bytes} (h : (purgedName name).isSome = true) : profileNameValid name = false := by
  obtain ⟨profile, hp⟩ := Option.isSome_iff_exists.mp h
  obtain ⟨-, hex, -, rfl⟩ := purgedName_eq_some.mp hp
  exact not_visible_hiddenName profile hex

/-- One call of `purge_sweep`. -/
structure Sweep where
  /-- The names when it opened the directory. -/
  start : List Bytes
  /-- What `readdir` still has of them. -/
  todo : List Bytes
  /-- The trees that are not of this user, or whose lock was held or could not be told. -/
  held : List Bytes
  /-- The trees that the removal failed on. -/
  failed : List Bytes
  synced : Bool
  deriving DecidableEq, Repr

/-- The hidden trees that it left. -/
def Sweep.left (w : Sweep) : List Bytes := w.held ++ w.failed

inductive Proc where
  | idle
  /-- It holds the lifecycle lock and has stopped the VM. -/
  | locked (profile : Bytes)
  /-- In `purge_retire`, before its sync. -/
  | renamed (profile hidden : Bytes)
  | removing (profile hidden : Bytes)
  | reading (w : Sweep)
  /-- The sweep looks at a hidden tree. -/
  | met (w : Sweep) (name profile : Bytes)
  /-- It found the lock of the profile free. -/
  | free (w : Sweep) (name : Bytes)
  | sweeping (w : Sweep) (name : Bytes)
  | swept (w : Sweep)
  deriving DecidableEq, Repr

namespace Proc

def holds : Proc → Option Bytes
  | locked profile | renamed profile _ | removing profile _ => some profile
  | _ => none

/-- The profile and the tree of a running `purge_retire`. -/
def retiring : Proc → Option (Bytes × Bytes)
  | renamed profile hidden | removing profile hidden => some (profile, hidden)
  | _ => none

def sweep : Proc → Option Sweep
  | reading w | met w _ _ | free w _ | sweeping w _ | swept w => some w
  | _ => none

/-- What `readdir` still has for a sweep. -/
def pending : Proc → List Bytes
  | reading w | met w _ _ | free w _ | sweeping w _ => w.todo
  | _ => []

/-- The tree that a sweep is at. -/
def current : Proc → Option Bytes
  | met _ name _ | free _ name | sweeping _ name => some name
  | _ => none

/-- The tree whose lock a sweep found free. -/
def chosen : Proc → Option Bytes
  | free _ name | sweeping _ name => some name
  | _ => none

end Proc

structure State (P T E : Type) where
  home : Listing T
  /-- The listings that a crash can bring back. -/
  past : List (Listing T)
  entries : T → Finset E
  /-- The entries of a tree that were removed. -/
  deleted : T → Finset E
  /-- The hidden names that were made. -/
  used : List Bytes
  trees : List T
  lock : Bytes → Option P
  procs : P → Proc

inductive Action (P T E : Type) where
  /-- A new profile with a directory of its own. -/
  | create (profile : Bytes) (t : T) (contents : Finset E)
  | acquire (p : P) (profile : Bytes)
  | rename (p : P) (hex : Bytes)
  | sync (p : P)
  | remove (p : P) (t : T) (e : E)
  | rmdir (p : P) (t : T)
  | sweepBegin (p : P)
  /-- `readdir` returns the name, and `fstatat` says whether it is a directory of this user. -/
  | meet (p : P) (name : Bytes) (own : Bool)
  /-- `lifecycle_held`, which may not be able to tell. -/
  | probe (p : P) (known : Bool)
  | sweepSync (p : P) (ok : Bool)
  /-- It has synced before. -/
  | sweepGo (p : P)
  | sweepRemove (p : P) (t : T) (e : E)
  | sweepRmdir (p : P) (t : T)
  /-- Another removal has finished the tree. -/
  | sweepGone (p : P)
  | sweepFail (p : P)
  | sweepEnd (p : P)
  /-- The call returns, or its process dies. -/
  | stop (p : P)
  /-- All processes end, and the disk is in an earlier state. -/
  | crash (home : Listing T) (restored : T → Finset E)

variable [DecidableEq P] [DecidableEq T] [DecidableEq E]

namespace State

variable (s : State P T E)

def setProc (p : P) (proc : Proc) : State P T E := { s with procs := Function.update s.procs p proc }

/-- A change of the directory, which a crash can undo. -/
def setHome (home : Listing T) : State P T E := { s with home, past := s.home :: s.past }

/-- `fsync` of the directory. -/
def synced : State P T E := { s with past := [] }

def delete (t : T) (e : E) : State P T E := { s with deleted := Function.update s.deleted t (insert e (s.deleted t)) }

/-- All processes are gone, the directory is this one, and some removed entries are back. -/
def crashed (home : Listing T) (restored : T → Finset E) : State P T E :=
  { s with
    home
    past := []
    deleted := fun t => s.deleted t \ restored t
    lock := fun _ => none
    procs := fun _ => .idle }

def setLock (profile : Bytes) (holder : Option P) : State P T E :=
  { s with lock := Function.update s.lock profile holder }

end State

instance (hex : Bytes) : Decidable (IsSuffix hex) := inferInstanceAs (Decidable (_ ∧ _))

/-- The directory after a rename. -/
def moved (home : Listing T) (profile hidden : Bytes) : Listing T :=
  home.map fun entry => if entry.1 = profile then (hidden, entry.2) else entry

/-- The directory without the name. -/
def without (home : Listing T) (name : Bytes) : Listing T := home.filter (·.1 ≠ name)

def step (s : State P T E) : Action P T E → Option (State P T E)
  | .create profile t contents =>
    if profileNameValid profile ∧ profile ∉ names s.home ∧ t ∉ s.trees then
      some { s.setHome ((profile, t) :: s.home) with
        trees := t :: s.trees, entries := Function.update s.entries t contents }
    else none
  | .acquire p profile =>
    if s.procs p = .idle ∧ profileNameValid profile ∧ s.lock profile = none then
      some ((s.setLock profile (some p)).setProc p (.locked profile))
    else none
  | .rename p hex =>
    match s.procs p with
    | .locked profile =>
      let hidden := hiddenName profile hex
      if profile ∈ names s.home ∧ IsSuffix hex ∧ hidden ∉ s.used then
        some ({ s.setHome (moved s.home profile hidden) with used := hidden :: s.used }.setProc p
          (.renamed profile hidden))
      else none
    | _ => none
  | .sync p =>
    match s.procs p with
    | .renamed profile hidden => some (s.synced.setProc p (.removing profile hidden))
    | _ => none
  | .remove p t e =>
    match s.procs p with
    | .removing _ hidden => if (hidden, t) ∈ s.home ∧ e ∈ s.entries t then some (s.delete t e) else none
    | _ => none
  | .rmdir p t =>
    match s.procs p with
    | .removing _ hidden =>
      if (hidden, t) ∈ s.home ∧ s.deleted t = s.entries t then some (s.setHome (without s.home hidden)) else none
    | _ => none
  | .sweepBegin p =>
    if s.procs p = .idle then some (s.setProc p (.reading ⟨names s.home, names s.home, [], [], false⟩)) else none
  | .meet p name own =>
    match s.procs p with
    | .reading w =>
      if name ∈ w.todo ∨ name ∈ names s.home then
        let w := { w with todo := w.todo.filter (· ≠ name) }
        match purgedName name with
        | none => some (s.setProc p (.reading w))
        | some profile =>
          if name ∉ names s.home then some (s.setProc p (.reading w))
          else if own then some (s.setProc p (.met w name profile))
          else some (s.setProc p (.reading { w with held := name :: w.held }))
      else none
    | _ => none
  | .probe p known =>
    match s.procs p with
    | .met w name profile =>
      if s.lock profile = none ∧ known then some (s.setProc p (.free w name))
      else some (s.setProc p (.reading { w with held := name :: w.held }))
    | _ => none
  | .sweepSync p ok =>
    match s.procs p with
    | .free w name =>
      if w.synced then none
      else if ok then some (s.synced.setProc p (.sweeping { w with synced := true } name))
      else some (s.setProc p .idle)
    | _ => none
  | .sweepGo p =>
    match s.procs p with
    | .free w name => if w.synced then some (s.setProc p (.sweeping w name)) else none
    | _ => none
  | .sweepRemove p t e =>
    match s.procs p with
    | .sweeping _ name => if (name, t) ∈ s.home ∧ e ∈ s.entries t then some (s.delete t e) else none
    | _ => none
  | .sweepRmdir p t =>
    match s.procs p with
    | .sweeping w name =>
      if (name, t) ∈ s.home ∧ s.deleted t = s.entries t then
        some ((s.setHome (without s.home name)).setProc p (.reading w))
      else none
    | _ => none
  | .sweepGone p =>
    match s.procs p with
    | .sweeping w name => if name ∉ names s.home then some (s.setProc p (.reading w)) else none
    | _ => none
  | .sweepFail p =>
    match s.procs p with
    | .sweeping w name => some (s.setProc p (.reading { w with failed := name :: w.failed }))
    | _ => none
  | .sweepEnd p =>
    match s.procs p with
    | .reading w => if w.todo = [] then some (s.setProc p (.swept w)) else none
    | _ => none
  | .stop p =>
    match (s.procs p).holds with
    | some profile => some ((s.setLock profile none).setProc p .idle)
    | none => some (s.setProc p .idle)
  | .crash home restored =>
    if home ∈ s.home :: s.past then some (s.crashed home restored) else none

/-- Every name has its own tree, and the hidden names are known. -/
structure Good (s : State P T E) (home : Listing T) : Prop where
  tree : ∀ m t, (m, t) ∈ home → t ∈ s.trees
  hidden : ∀ m t, (m, t) ∈ home → (purgedName m).isSome = true → m ∈ s.used
  inj : ∀ m m' t, (m, t) ∈ home → (m', t) ∈ home → m = m'

/-- Nothing is under way, the directory is durable, and nothing was removed. -/
structure Initial (s : State P T E) : Prop where
  good : Good s s.home
  past : s.past = []
  deleted : ∀ t, s.deleted t = ∅
  used : ∀ h ∈ s.used, (purgedName h).isSome = true
  lock : ∀ n, s.lock n = none
  procs : ∀ p, s.procs p = .idle

/-- No crash brings the tree back under the name of a profile. -/
def Durable (s : State P T E) (t : T) : Prop :=
  ∀ home ∈ s.home :: s.past, ∀ m, (m, t) ∈ home → profileNameValid m = false

def DurableName (s : State P T E) (name : Bytes) : Prop := ∀ t, (name, t) ∈ s.home → Durable s t

/-- A sweep that has synced goes on with a tree only when the rename of that tree is durable: its purge synced, or it was
renamed before the sync of the sweep. -/
def Synced (s : State P T E) : Action P T E → Prop
  | .sweepGo p => ∀ name, (s.procs p).chosen = some name → DurableName s name
  | _ => True

/-- A tree that something was removed from has no profile name in any listing that a crash can bring back; a process in
`purge_retire` holds the lock of its profile; a sweep is at hidden trees that are durable and that no purge works on. -/
structure Inv (s : State P T E) : Prop where
  good : ∀ home ∈ s.home :: s.past, Good s home
  intact : ∀ home ∈ s.home :: s.past, ∀ m t, (m, t) ∈ home → profileNameValid m = true → s.deleted t = ∅
  unused : ∀ t, t ∉ s.trees → s.deleted t = ∅
  used : ∀ h ∈ s.used, (purgedName h).isSome = true
  lock : ∀ p n, (s.procs p).holds = some n → s.lock n = some p ∧ profileNameValid n = true
  retiring : ∀ p n h, (s.procs p).retiring = some (n, h) → purgedName h = some n ∧ h ∈ s.used
  removing : ∀ p n h, s.procs p = .removing n h → DurableName s h
  sweeping : ∀ p w h, s.procs p = .sweeping w h → DurableName s h
  current : ∀ p h, (s.procs p).current = some h → (purgedName h).isSome = true ∧ h ∈ s.used
  met : ∀ p w h n, s.procs p = .met w h n → purgedName h = some n
  alone : ∀ p h, (s.procs p).chosen = some h → ∀ q n h', (s.procs q).retiring = some (n, h') → h' ≠ h
  found : ∀ p w, (s.procs p).sweep = some w → ∀ h ∈ w.start, (purgedName h).isSome = true →
    h ∈ s.used ∧ (h ∈ (s.procs p).pending ∨ (s.procs p).current = some h ∨ h ∉ names s.home ∨ h ∈ w.left)

section

variable {s s' : State P T E}

omit [DecidableEq P] [DecidableEq T] [DecidableEq E] in
theorem Inv.initial (h : Initial s) : Inv s where
  good home hh := by
    rw [h.past] at hh
    rw [List.mem_singleton.mp hh]
    exact h.good
  intact _ _ _ t _ _ := h.deleted t
  unused t _ := h.deleted t
  used := h.used
  lock p n hp := by
    rw [h.procs p] at hp
    cases hp
  retiring p n _ hp := by
    rw [h.procs p] at hp
    cases hp
  removing p n _ hp := by
    rw [h.procs p] at hp
    cases hp
  sweeping p w _ hp := by
    rw [h.procs p] at hp
    cases hp
  current p _ hp := by
    rw [h.procs p] at hp
    cases hp
  met p w _ n hp := by
    rw [h.procs p] at hp
    cases hp
  alone p _ hp := by
    rw [h.procs p] at hp
    cases hp
  found p w hp := by
    rw [h.procs p] at hp
    cases hp

omit [DecidableEq P] [DecidableEq T] [DecidableEq E] in
theorem Inv.removing_hidden (hs : Inv s) {p : P} {n h : Bytes} (hp : s.procs p = .removing n h) :
    (purgedName h).isSome = true ∧ h ∈ s.used := by
  obtain ⟨hn, hu⟩ := hs.retiring p n h (by rw [hp]; rfl)
  rw [hn]
  exact ⟨rfl, hu⟩

omit [DecidableEq P] [DecidableEq T] [DecidableEq E] in
theorem Inv.sweeping_hidden (hs : Inv s) {p : P} {w : Sweep} {h : Bytes} (hp : s.procs p = .sweeping w h) :
    (purgedName h).isSome = true ∧ h ∈ s.used := hs.current p h (by rw [hp]; rfl)

/-! ### What the disk does -/

omit [DecidableEq P] [DecidableEq T] [DecidableEq E] in
theorem Good.mono (hg : Good s home) (htrees : ∀ t ∈ s.trees, t ∈ s'.trees) (hused : ∀ h ∈ s.used, h ∈ s'.used) :
    Good s' home := ⟨fun m t h => htrees t (hg.tree m t h), fun m t h hm => hused m (hg.hidden m t h hm), hg.inj⟩

omit [DecidableEq P] [DecidableEq T] [DecidableEq E] in
/-- A change of the directory: what has a profile name there had one before or is new, and no hidden name comes back. -/
theorem Inv.setHome (hs : Inv s) {home : Listing T} (used : List Bytes) (trees : List T) (entries : T → Finset E)
    (hgood : Good { s.setHome home with used, trees, entries } home)
    (hused : ∀ h ∈ s.used, h ∈ used) (hhidden : ∀ h ∈ used, (purgedName h).isSome = true)
    (htrees : ∀ t ∈ s.trees, t ∈ trees)
    (hintact : ∀ m t, (m, t) ∈ home → profileNameValid m = true → s.deleted t = ∅)
    (hvisible : ∀ m t, (m, t) ∈ home → profileNameValid m = true → t ∈ s.trees → (m, t) ∈ s.home)
    (hold : ∀ h t, h ∈ s.used → (h, t) ∈ home → (h, t) ∈ s.home) :
    Inv { s.setHome home with used, trees, entries } := by
  have durable : ∀ {h}, h ∈ s.used → DurableName s h → DurableName { s.setHome home with used, trees, entries } h := by
    intro h hu hd t ht
    have hin : (h, t) ∈ s.home := hold h t hu ht
    have hdt := hd t hin
    intro L hL m hm
    rcases List.mem_cons.mp hL with rfl | hL
    · rw [← Bool.not_eq_true]
      intro hv
      have hin' := hvisible m t hm hv ((hs.good _ List.mem_cons_self).tree h t hin)
      rw [hdt _ List.mem_cons_self m hin'] at hv
      cases hv
    · exact hdt L hL m hm
  exact {
    good := fun L hL => by
      rcases List.mem_cons.mp hL with rfl | hL
      · exact hgood
      · exact (hs.good L hL).mono htrees hused
    intact := fun L hL m t hm hv => by
      rcases List.mem_cons.mp hL with rfl | hL
      · exact hintact m t hm hv
      · exact hs.intact L hL m t hm hv
    unused := fun t ht => hs.unused t fun h => ht (htrees t h)
    used := hhidden
    lock := hs.lock
    retiring := fun p n h hp => ⟨(hs.retiring p n h hp).1, hused h (hs.retiring p n h hp).2⟩
    removing := fun p n h hp => durable (hs.removing_hidden hp).2 (hs.removing p n h hp)
    sweeping := fun p w h hp => durable (hs.sweeping_hidden hp).2 (hs.sweeping p w h hp)
    current := fun p h hp => ⟨(hs.current p h hp).1, hused h (hs.current p h hp).2⟩
    met := hs.met
    alone := hs.alone
    found := fun p w hp h hstart hh => by
      obtain ⟨hu, hfound⟩ := hs.found p w hp h hstart hh
      refine ⟨hused h hu, ?_⟩
      rcases hfound with hf | hf | hf | hf
      · exact .inl hf
      · exact .inr (.inl hf)
      · refine .inr (.inr (.inl fun hin => hf ?_))
        obtain ⟨e, he, rfl⟩ := List.mem_map.mp hin
        exact mem_names (hold e.1 e.2 hu he)
      · exact .inr (.inr (.inr hf)) }

omit [DecidableEq T] in
theorem mem_without {home : Listing T} {name m : Bytes} {t : T} (h : (m, t) ∈ without home name) :
    (m, t) ∈ home ∧ m ≠ name := by
  obtain ⟨hm, hne⟩ := List.mem_filter.mp h
  exact ⟨hm, of_decide_eq_true hne⟩

omit [DecidableEq P] [DecidableEq T] [DecidableEq E] in
/-- A name is removed. -/
theorem Inv.without (hs : Inv s) (name : Bytes) : Inv (s.setHome (without s.home name)) := by
  have hgood := hs.good s.home List.mem_cons_self
  refine hs.setHome s.used s.trees _ ?_ (fun _ h => h) hs.used (fun _ h => h) ?_ ?_ ?_
  · exact ⟨fun m t h => hgood.tree m t (mem_without h).1, fun m t h => hgood.hidden m t (mem_without h).1,
      fun m m' t h h' => hgood.inj m m' t (mem_without h).1 (mem_without h').1⟩
  · exact fun m t h hv => hs.intact _ List.mem_cons_self m t (mem_without h).1 hv
  · exact fun m t h _ _ => (mem_without h).1
  · exact fun h t _ hh => (mem_without hh).1

omit [DecidableEq P] [DecidableEq E] in
/-- A new profile has a tree of its own. -/
theorem Inv.create (hs : Inv s) {profile : Bytes} {t : T} (contents : Finset E) (hv : profileNameValid profile = true)
    (hnew : profile ∉ names s.home) (ht : t ∉ s.trees) :
    Inv { s.setHome ((profile, t) :: s.home) with
      trees := t :: s.trees, entries := Function.update s.entries t contents } := by
  have hgood := hs.good s.home List.mem_cons_self
  have hidden : ∀ {h}, (purgedName h).isSome = true → h ≠ profile := by
    rintro h hh rfl
    rw [visible_of_hidden hh] at hv
    cases hv
  refine hs.setHome s.used _ _ ⟨?_, ?_, ?_⟩ (fun _ h => h) hs.used (fun _ h => List.mem_cons_of_mem _ h) ?_ ?_ ?_
  · intro m t' hm
    rcases List.mem_cons.mp hm with hm | hm
    · rw [(Prod.mk.inj hm).2]
      exact List.mem_cons_self
    · exact List.mem_cons_of_mem _ (hgood.tree m t' hm)
  · intro m t' hm hh
    rcases List.mem_cons.mp hm with hm | hm
    · exact absurd (Prod.mk.inj hm).1 (hidden hh)
    · exact hgood.hidden m t' hm hh
  · intro m m' t' hm hm'
    rcases List.mem_cons.mp hm with hm | hm <;> rcases List.mem_cons.mp hm' with hm' | hm'
    · exact (Prod.mk.inj hm).1.trans (Prod.mk.inj hm').1.symm
    · exact absurd ((Prod.mk.inj hm).2 ▸ hgood.tree m' t' hm') ht
    · exact absurd ((Prod.mk.inj hm').2 ▸ hgood.tree m t' hm) ht
    · exact hgood.inj m m' t' hm hm'
  · intro m t' hm hvm
    rcases List.mem_cons.mp hm with hm | hm
    · rw [(Prod.mk.inj hm).2]
      exact hs.unused t ht
    · exact hs.intact _ List.mem_cons_self m t' hm hvm
  · intro m t' hm _ htree
    rcases List.mem_cons.mp hm with hm | hm
    · exact absurd ((Prod.mk.inj hm).2 ▸ htree) ht
    · exact hm
  · intro h t' hu hm
    rcases List.mem_cons.mp hm with hm | hm
    · exact absurd (Prod.mk.inj hm).1 (hidden (hs.used h hu))
    · exact hm

omit [DecidableEq T] in
theorem mem_moved {home : Listing T} {profile hidden m : Bytes} {t : T} (h : (m, t) ∈ moved home profile hidden) :
    (m = hidden ∧ (profile, t) ∈ home) ∨ (m ≠ profile ∧ (m, t) ∈ home) := by
  obtain ⟨⟨a, t'⟩, ha, he⟩ := List.mem_map.mp h
  simp only at he
  by_cases hp : a = profile
  · rw [if_pos hp] at he
    obtain ⟨rfl, rfl⟩ := Prod.mk.inj he
    exact .inl ⟨rfl, hp ▸ ha⟩
  · rw [if_neg hp] at he
    obtain ⟨rfl, rfl⟩ := Prod.mk.inj he
    exact .inr ⟨hp, ha⟩

omit [DecidableEq P] [DecidableEq T] [DecidableEq E] in
/-- A profile gets a new hidden name. -/
theorem Inv.moved (hs : Inv s) (profile : Bytes) {hidden : Bytes} (hh : (purgedName hidden).isSome = true)
    (hnew : hidden ∉ s.used) :
    Inv { s.setHome (moved s.home profile hidden) with used := hidden :: s.used } := by
  have hgood := hs.good s.home List.mem_cons_self
  have absent : ∀ {t}, (hidden, t) ∉ s.home := fun h => hnew (hgood.hidden hidden _ h hh)
  refine hs.setHome _ s.trees s.entries ⟨?_, ?_, ?_⟩ (fun _ h => List.mem_cons_of_mem _ h) ?_
    (fun _ h => h) ?_ ?_ ?_
  · intro m t hm
    rcases mem_moved hm with ⟨-, hm⟩ | ⟨-, hm⟩
    · exact hgood.tree profile t hm
    · exact hgood.tree m t hm
  · intro m t hm hhm
    rcases mem_moved hm with ⟨rfl, -⟩ | ⟨-, hm⟩
    · exact List.mem_cons_self
    · exact List.mem_cons_of_mem _ (hgood.hidden m t hm hhm)
  · intro m m' t hm hm'
    rcases mem_moved hm with ⟨h1, h2⟩ | ⟨hne, h2⟩ <;> rcases mem_moved hm' with ⟨h1', h2'⟩ | ⟨hne', h2'⟩
    · exact h1.trans h1'.symm
    · exact absurd (hgood.inj m' profile t h2' h2) hne'
    · exact absurd (hgood.inj m profile t h2 h2') hne
    · exact hgood.inj m m' t h2 h2'
  · intro h hu
    rcases List.mem_cons.mp hu with rfl | hu
    · exact hh
    · exact hs.used h hu
  · intro m t hm hv
    rcases mem_moved hm with ⟨rfl, -⟩ | ⟨-, hm⟩
    · rw [visible_of_hidden hh] at hv
      cases hv
    · exact hs.intact _ List.mem_cons_self m t hm hv
  · intro m t hm hv _
    rcases mem_moved hm with ⟨rfl, -⟩ | ⟨-, hm⟩
    · rw [visible_of_hidden hh] at hv
      cases hv
    · exact hm
  · intro h t hu hm
    rcases mem_moved hm with ⟨rfl, -⟩ | ⟨-, hm⟩
    · exact absurd hu hnew
    · exact hm

omit [DecidableEq P] [DecidableEq T] [DecidableEq E] in
/-- The directory is durable: nothing of the past comes back. -/
theorem Inv.synced (hs : Inv s) : Inv s.synced := by
  have now : ∀ {L : Listing T}, L ∈ s.synced.home :: s.synced.past → L ∈ s.home :: s.past := by
    intro L hL
    rw [List.mem_singleton.mp hL]
    exact List.mem_cons_self
  have durable : ∀ {h}, DurableName s h → DurableName s.synced h := fun hd t ht L hL => hd t ht L (now hL)
  exact { hs with
    good := fun L hL => (hs.good L (now hL)).mono (fun _ h => h) fun _ h => h
    intact := fun L hL => hs.intact L (now hL)
    removing := fun p n h hp => durable (hs.removing p n h hp)
    sweeping := fun p w h hp => durable (hs.sweeping p w h hp) }

omit [DecidableEq P] [DecidableEq T] [DecidableEq E] in
/-- After a sync the hidden names are durable. -/
theorem Inv.durable_synced (hs : Inv s) {h : Bytes} (hh : (purgedName h).isSome = true) : DurableName s.synced h := by
  intro t ht L hL m hm
  rw [List.mem_singleton.mp hL] at hm
  rw [(hs.good s.home List.mem_cons_self).inj m h t hm ht]
  exact visible_of_hidden hh

omit [DecidableEq P] in
/-- An entry of a durable tree is removed. -/
theorem Inv.delete (hs : Inv s) {h : Bytes} {t : T} (hd : DurableName s h) (ht : (h, t) ∈ s.home) (e : E) :
    Inv (s.delete t e) where
  good L hL := (hs.good L hL).mono (fun _ h => h) fun _ h => h
  intact L hL m t' hm hv := by
    change Function.update s.deleted t (insert e (s.deleted t)) t' = ∅
    have hne : t' ≠ t := by
      rintro rfl
      rw [hd t' ht L hL m hm] at hv
      cases hv
    rw [Function.update_of_ne hne]
    exact hs.intact L hL m t' hm hv
  unused t' ht' := by
    change Function.update s.deleted t (insert e (s.deleted t)) t' = ∅
    have hne : t' ≠ t := by
      rintro rfl
      exact ht' ((hs.good s.home List.mem_cons_self).tree h t' ht)
    rw [Function.update_of_ne hne]
    exact hs.unused t' ht'
  used := hs.used
  lock := hs.lock
  retiring := hs.retiring
  removing := hs.removing
  sweeping := hs.sweeping
  current := hs.current
  met := hs.met
  alone := hs.alone
  found := hs.found

omit [DecidableEq P] [DecidableEq T] in
theorem Inv.crash (hs : Inv s) {home : Listing T} (hhome : home ∈ s.home :: s.past) (restored : T → Finset E) :
    Inv (s.crashed home restored) where
  good L hL := by
    rw [List.mem_singleton.mp hL]
    exact (hs.good home hhome).mono (fun _ h => h) fun _ h => h
  intact L hL m t hm hv := by
    rw [List.mem_singleton.mp hL] at hm
    change s.deleted t \ restored t = ∅
    rw [hs.intact home hhome m t hm hv, Finset.empty_sdiff]
  unused t ht := by
    change s.deleted t \ restored t = ∅
    rw [hs.unused t ht, Finset.empty_sdiff]
  used := hs.used
  lock := nofun
  retiring := nofun
  removing := nofun
  sweeping := nofun
  current := nofun
  met := nofun
  alone := nofun
  found := nofun

/-! ### What the processes do -/

theorem Proc.holds_of_retiring {proc : Proc} {n h : Bytes} (hp : proc.retiring = some (n, h)) : proc.holds = some n := by
  cases proc <;> cases hp <;> rfl

theorem Proc.current_of_chosen {proc : Proc} {h : Bytes} (hp : proc.chosen = some h) : proc.current = some h := by
  cases proc <;> cases hp <;> rfl

theorem Proc.retiring_of_chosen {proc : Proc} {h : Bytes} (hp : proc.chosen = some h) : proc.retiring = none := by
  cases proc <;> cases hp <;> rfl

omit [DecidableEq P] [DecidableEq T] [DecidableEq E] in
/-- Nobody holds the lock, or it is that of the new holder. -/
theorem Inv.setLock (hs : Inv s) {n : Bytes} (hfree : ∀ q, (s.procs q).holds ≠ some n) (holder : Option P) :
    Inv (s.setLock n holder) :=
  { hs with
    good := fun L hL => (hs.good L hL).mono (fun _ h => h) fun _ h => h
    lock := fun q n' hq => by
      have hne : n' ≠ n := by
        rintro rfl
        exact hfree q hq
      refine ⟨?_, (hs.lock q n' hq).2⟩
      change Function.update s.lock n holder n' = some q
      rw [Function.update_of_ne hne]
      exact (hs.lock q n' hq).1 }

omit [DecidableEq T] [DecidableEq E] in
/-- A step of a process; what another process is at does not change. -/
theorem Inv.setProc (hs : Inv s) {p : P} {proc : Proc}
    (hlock : ∀ n, proc.holds = some n → s.lock n = some p ∧ profileNameValid n = true)
    (hretiring : ∀ n h, proc.retiring = some (n, h) → purgedName h = some n ∧ h ∈ s.used)
    (hremoving : ∀ n h, proc = .removing n h → DurableName s h)
    (hsweeping : ∀ w h, proc = .sweeping w h → DurableName s h)
    (hcurrent : ∀ h, proc.current = some h → (purgedName h).isSome = true ∧ h ∈ s.used)
    (hmet : ∀ w h n, proc = .met w h n → purgedName h = some n)
    (hchosen : ∀ h, proc.chosen = some h → ∀ q n h', (s.procs q).retiring = some (n, h') → h' ≠ h)
    (hother : ∀ n h, proc.retiring = some (n, h) → ∀ q h', (s.procs q).chosen = some h' → h ≠ h')
    (hfound : ∀ w, proc.sweep = some w → ∀ h ∈ w.start, (purgedName h).isSome = true →
      h ∈ s.used ∧ (h ∈ proc.pending ∨ proc.current = some h ∨ h ∉ names s.home ∨ h ∈ w.left)) :
    Inv (s.setProc p proc) := by
  have at_p : (s.setProc p proc).procs p = proc := by
    change Function.update s.procs p proc p = proc
    rw [Function.update_self]
  have at_q : ∀ {q}, q ≠ p → (s.setProc p proc).procs q = s.procs q := by
    intro q hq
    change Function.update s.procs p proc q = s.procs q
    rw [Function.update_of_ne hq]
  exact {
    good := fun L hL => (hs.good L hL).mono (fun _ h => h) fun _ h => h
    intact := hs.intact
    unused := hs.unused
    used := hs.used
    lock := fun q n hq => by
      by_cases hqp : q = p
      · subst hqp
        exact hlock n (at_p ▸ hq)
      · exact hs.lock q n (at_q hqp ▸ hq)
    retiring := fun q n h hq => by
      by_cases hqp : q = p
      · subst hqp
        exact hretiring n h (at_p ▸ hq)
      · exact hs.retiring q n h (at_q hqp ▸ hq)
    removing := fun q n h hq => by
      by_cases hqp : q = p
      · subst hqp
        exact hremoving n h (at_p ▸ hq)
      · exact hs.removing q n h (at_q hqp ▸ hq)
    sweeping := fun q w h hq => by
      by_cases hqp : q = p
      · subst hqp
        exact hsweeping w h (at_p ▸ hq)
      · exact hs.sweeping q w h (at_q hqp ▸ hq)
    current := fun q h hq => by
      by_cases hqp : q = p
      · subst hqp
        exact hcurrent h (at_p ▸ hq)
      · exact hs.current q h (at_q hqp ▸ hq)
    met := fun q w h n hq => by
      by_cases hqp : q = p
      · subst hqp
        exact hmet w h n (at_p ▸ hq)
      · exact hs.met q w h n (at_q hqp ▸ hq)
    alone := fun q h hq r n h' hr => by
      by_cases hqp : q = p
      · subst hqp
        rw [at_p] at hq
        by_cases hrp : r = q
        · subst hrp
          rw [at_p, Proc.retiring_of_chosen hq] at hr
          cases hr
        · rw [at_q hrp] at hr
          exact hchosen h hq r n h' hr
      · rw [at_q hqp] at hq
        by_cases hrp : r = p
        · subst hrp
          rw [at_p] at hr
          exact hother n h' hr q h hq
        · rw [at_q hrp] at hr
          exact hs.alone q h hq r n h' hr
    found := fun q w hq => by
      by_cases hqp : q = p
      · subst hqp
        rw [at_p] at hq ⊢
        exact hfound w hq
      · rw [at_q hqp] at hq ⊢
        exact hs.found q w hq }

omit [DecidableEq T] [DecidableEq E] in
theorem Inv.idle (hs : Inv s) (p : P) : Inv (s.setProc p .idle) :=
  hs.setProc nofun nofun nofun nofun nofun nofun nofun nofun nofun

omit [DecidableEq T] [DecidableEq E] in
/-- A sweep is at no tree. -/
theorem Inv.reading (hs : Inv s) {p : P} {w : Sweep} {proc : Proc} (hproc : proc = .reading w ∨ proc = .swept w)
    (hfound : ∀ h ∈ w.start, (purgedName h).isSome = true →
      h ∈ s.used ∧ (h ∈ proc.pending ∨ h ∉ names s.home ∨ h ∈ w.left)) : Inv (s.setProc p proc) := by
  have hfound : ∀ h ∈ w.start, (purgedName h).isSome = true →
      h ∈ s.used ∧ (h ∈ proc.pending ∨ none = some h ∨ h ∉ names s.home ∨ h ∈ w.left) := by
    intro h hstart hh
    exact ⟨(hfound h hstart hh).1, (hfound h hstart hh).2.imp id .inr⟩
  rcases hproc with rfl | rfl
  · exact hs.setProc nofun nofun nofun nofun nofun nofun nofun nofun fun w' hw => Option.some.inj hw ▸ hfound
  · exact hs.setProc nofun nofun nofun nofun nofun nofun nofun nofun fun w' hw => Option.some.inj hw ▸ hfound

omit [DecidableEq T] [DecidableEq E] in
/-- A sweep leaves the tree that it is at, or finds it gone. -/
theorem Inv.next (hs : Inv s) {p : P} {proc : Proc} {w w' : Sweep} {name : Bytes} (hp : s.procs p = proc)
    (hw : proc.sweep = some w) (hcur : proc.current = some name) (hstart : w'.start = w.start)
    (htodo : w'.todo = proc.pending) (hleft : ∀ h ∈ w.left, h ∈ w'.left) (hname : name ∉ names s.home ∨ name ∈ w'.left) :
    Inv (s.setProc p (.reading w')) := by
  refine hs.reading (.inl rfl) fun h hh hhidden => ?_
  rw [hstart] at hh
  obtain ⟨hu, hf⟩ := hs.found p w (by rw [hp]; exact hw) h hh hhidden
  rw [hp] at hf
  refine ⟨hu, ?_⟩
  rcases hf with hf | hf | hf | hf
  · left
    change h ∈ w'.todo
    rw [htodo]
    exact hf
  · rw [hcur] at hf
    obtain rfl := Option.some.inj hf
    exact .inr hname
  · exact .inr (.inl hf)
  · exact .inr (.inr (hleft h hf))

/-! ### The steps -/

theorem Inv.acquire (hs : Inv s) {p : P} {n : Bytes} (h : step s (.acquire p n) = some s') : Inv s' := by
  simp only [step] at h
  split_ifs at h with hp
  obtain rfl := Option.some.inj h
  obtain ⟨-, hv, hfree⟩ := hp
  have hlocked : Inv (s.setLock n (some p)) := by
    refine hs.setLock (fun q hq => ?_) _
    rw [(hs.lock q n hq).1] at hfree
    cases hfree
  refine hlocked.setProc (fun n' hn => ?_) nofun nofun nofun nofun nofun nofun nofun nofun
  obtain rfl := Option.some.inj hn
  refine ⟨?_, hv⟩
  change Function.update s.lock n (some p) n = some p
  rw [Function.update_self]

theorem Inv.stop (hs : Inv s) {p : P} (h : step s (.stop p) = some s') : Inv s' := by
  simp only [step] at h
  split at h
  · rename_i n hn
    obtain rfl := Option.some.inj h
    refine (hs.idle p).setLock (fun q hq => ?_) none
    change (Function.update s.procs p .idle q).holds = some n at hq
    by_cases hqp : q = p
    · rw [hqp, Function.update_self] at hq
      cases hq
    · rw [Function.update_of_ne hqp] at hq
      exact hqp (Option.some.inj ((hs.lock q n hq).1.symm.trans (hs.lock p n hn).1))
  · obtain rfl := Option.some.inj h
    exact hs.idle p

theorem Inv.rename (hs : Inv s) {p : P} {hex : Bytes} (h : step s (.rename p hex) = some s') : Inv s' := by
  simp only [step] at h
  split at h
  · rename_i n hp
    split_ifs at h with hr
    obtain rfl := Option.some.inj h
    obtain ⟨-, hhex, hnew⟩ := hr
    obtain ⟨hlock, hv⟩ := hs.lock p n (by rw [hp]; rfl)
    have hname := purgedName_hiddenName hv hhex
    refine (hs.moved n (by rw [hname]; rfl) hnew).setProc (fun n' hn => ?_) (fun n' h' hr => ?_) nofun nofun nofun
      nofun nofun (fun n' h' hr q h'' hq => ?_) nofun
    · obtain rfl := Option.some.inj hn
      exact ⟨hlock, hv⟩
    · obtain ⟨rfl, rfl⟩ := Prod.mk.inj (Option.some.inj hr)
      exact ⟨hname, List.mem_cons_self⟩
    · -- the tree that a sweep chose has a name that was made before
      obtain ⟨rfl, rfl⟩ := Prod.mk.inj (Option.some.inj hr)
      rintro rfl
      exact hnew (hs.current q _ (Proc.current_of_chosen hq)).2
  · cases h

theorem Inv.sync (hs : Inv s) {p : P} (h : step s (.sync p) = some s') : Inv s' := by
  simp only [step] at h
  split at h
  · rename_i n hidden hp
    obtain rfl := Option.some.inj h
    have hret := hs.retiring p n hidden (by rw [hp]; rfl)
    refine hs.synced.setProc (fun n' hn => ?_) (fun n' h' hr => ?_) (fun n' h' hr => ?_) nofun nofun nofun nofun
      (fun n' h' hr q h'' hq => ?_) nofun
    · obtain rfl := Option.some.inj hn
      exact hs.lock p n (by rw [hp]; rfl)
    · obtain ⟨rfl, rfl⟩ := Prod.mk.inj (Option.some.inj hr)
      exact hret
    · obtain ⟨rfl, rfl⟩ := Proc.removing.inj hr
      exact hs.durable_synced (by rw [hret.1]; rfl)
    · obtain ⟨rfl, rfl⟩ := Prod.mk.inj (Option.some.inj hr)
      exact hs.alone q h'' hq p n hidden (by rw [hp]; rfl)
  · cases h

theorem Inv.meet (hs : Inv s) {p : P} {name : Bytes} {own : Bool} (h : step s (.meet p name own) = some s') : Inv s' := by
  simp only [step] at h
  split at h
  · rename_i w hp
    by_cases hmem : name ∈ w.todo ∨ name ∈ names s.home
    · rw [if_pos hmem] at h
      -- what the sweep knows of the other names
      have hfound : ∀ h ∈ w.start, (purgedName h).isSome = true →
          h ∈ s.used ∧ (h ∈ w.todo.filter (· ≠ name) ∨ h = name ∨ h ∉ names s.home ∨ h ∈ w.left) := by
        intro h hstart hh
        obtain ⟨hu, hf⟩ := hs.found p w (by rw [hp]; rfl) h hstart hh
        refine ⟨hu, ?_⟩
        by_cases hname : h = name
        · exact .inr (.inl hname)
        · rw [hp] at hf
          rcases hf with hf | hf | hf | hf
          · exact .inl (List.mem_filter.mpr ⟨hf, decide_eq_true hname⟩)
          · cases hf
          · exact .inr (.inr (.inl hf))
          · exact .inr (.inr (.inr hf))
      split at h
      · rename_i hname
        obtain rfl := Option.some.inj h
        refine hs.reading (.inl rfl) fun h hstart hh => ?_
        obtain ⟨hu, hf⟩ := hfound h hstart hh
        refine ⟨hu, ?_⟩
        rcases hf with hf | rfl | hf
        · exact .inl hf
        · rw [hname] at hh
          cases hh
        · exact .inr hf
      · rename_i profile hname
        by_cases hhome : name ∈ names s.home
        · rw [if_neg (not_not.mpr hhome)] at h
          split_ifs at h with hown
          · obtain rfl := Option.some.inj h
            obtain ⟨e, he, heq⟩ := List.mem_map.mp hhome
            have hused : name ∈ s.used := by
              rw [← heq] at hname ⊢
              exact (hs.good s.home List.mem_cons_self).hidden e.1 e.2 he (by rw [hname]; rfl)
            refine hs.setProc (fun _ hn => by cases hn) (fun _ _ hr => by cases hr) (fun _ _ hr => by cases hr)
              (fun _ _ hw => by cases hw) (fun h' hc => ?_) (fun w' h' n hm => ?_) (fun _ hc => by cases hc)
              (fun _ _ hr => by cases hr) fun w' hw h' hstart hh => ?_
            · obtain rfl := Option.some.inj hc
              exact ⟨by rw [hname]; rfl, hused⟩
            · obtain ⟨-, rfl, rfl⟩ := Proc.met.inj hm
              exact hname
            · obtain rfl := Option.some.inj hw
              obtain ⟨hu, hf⟩ := hfound h' hstart hh
              refine ⟨hu, ?_⟩
              rcases hf with hf | rfl | hf
              · exact .inl hf
              · exact .inr (.inl rfl)
              · exact .inr (.inr hf)
          · obtain rfl := Option.some.inj h
            refine hs.reading (.inl rfl) fun h hstart hh => ?_
            obtain ⟨hu, hf⟩ := hfound h hstart hh
            refine ⟨hu, ?_⟩
            rcases hf with hf | rfl | hf | hf
            · exact .inl hf
            · exact .inr (.inr List.mem_cons_self)
            · exact .inr (.inl hf)
            · exact .inr (.inr (List.mem_cons_of_mem _ hf))
        · rw [if_pos hhome] at h
          obtain rfl := Option.some.inj h
          refine hs.reading (.inl rfl) fun h hstart hh => ?_
          obtain ⟨hu, hf⟩ := hfound h hstart hh
          refine ⟨hu, ?_⟩
          rcases hf with hf | rfl | hf
          · exact .inl hf
          · exact .inr (.inl hhome)
          · exact .inr hf
    · rw [if_neg hmem] at h
      cases h
  · cases h

theorem Inv.probe (hs : Inv s) {p : P} {known : Bool} (h : step s (.probe p known) = some s') : Inv s' := by
  simp only [step] at h
  split at h
  · rename_i w name profile hp
    split_ifs at h with hfree
    · obtain rfl := Option.some.inj h
      have hname := hs.met p w name profile hp
      refine hs.setProc nofun nofun nofun nofun (fun h' hc => ?_) nofun (fun h' hc q n h'' hq => ?_) nofun
        fun w' hw h' hstart hh => ?_
      · obtain rfl := Option.some.inj hc
        exact hs.current p _ (by rw [hp]; rfl)
      · -- a purge that works on the tree would hold the lock
        obtain rfl := Option.some.inj hc
        rintro rfl
        have hn := (hs.retiring q n _ hq).1
        rw [hname] at hn
        obtain rfl := Option.some.inj hn
        rw [(hs.lock q _ (Proc.holds_of_retiring hq)).1] at hfree
        cases hfree.1
      · obtain rfl := Option.some.inj hw
        have hf := hs.found p w (by rw [hp]; rfl) h' hstart hh
        rw [hp] at hf
        exact hf
    · obtain rfl := Option.some.inj h
      exact hs.next hp rfl rfl rfl rfl
        (fun h' hh => List.mem_cons_of_mem name hh) (.inr List.mem_cons_self)
  · cases h

omit [DecidableEq T] [DecidableEq E] in
/-- A sweep goes on with a tree that is durable. -/
theorem Inv.go (hs : Inv s) {p : P} {w w' : Sweep} {name : Bytes} (hp : s.procs p = .free w name)
    (hstart : w'.start = w.start) (htodo : w'.todo = w.todo) (hleft : w'.left = w.left) (hd : DurableName s name) :
    Inv (s.setProc p (.sweeping w' name)) := by
  refine hs.setProc nofun nofun nofun (fun w'' h hq => ?_) (fun h hc => ?_) nofun (fun h hc => ?_) nofun
    fun w'' hw h hh hhidden => ?_
  · obtain ⟨-, rfl⟩ := Proc.sweeping.inj hq
    exact hd
  · obtain rfl := Option.some.inj hc
    exact hs.current p _ (by rw [hp]; rfl)
  · obtain rfl := Option.some.inj hc
    exact hs.alone p _ (by rw [hp]; rfl)
  · obtain rfl := Option.some.inj hw
    have hf := hs.found p w (by rw [hp]; rfl) h (hstart ▸ hh) hhidden
    rw [hp] at hf
    change h ∈ s.used ∧ (h ∈ w'.todo ∨ some name = some h ∨ h ∉ names s.home ∨ h ∈ w'.left)
    rw [htodo, hleft]
    exact hf

theorem Inv.sweepSync (hs : Inv s) {p : P} {ok : Bool} (h : step s (.sweepSync p ok) = some s') : Inv s' := by
  simp only [step] at h
  split at h
  · rename_i w name hp
    split_ifs at h with hw hok
    · obtain rfl := Option.some.inj h
      exact hs.synced.go (w := w) hp rfl rfl rfl (hs.durable_synced (hs.current p name (by rw [hp]; rfl)).1)
    · obtain rfl := Option.some.inj h
      exact hs.idle p
  · cases h

theorem Inv.sweepGo (hs : Inv s) {p : P} (hC : Synced s (.sweepGo p)) (h : step s (.sweepGo p) = some s') : Inv s' := by
  simp only [step] at h
  split at h
  · rename_i w name hp
    split_ifs at h with hw
    obtain rfl := Option.some.inj h
    exact hs.go hp rfl rfl rfl (hC name (by rw [hp]; rfl))
  · cases h

theorem Inv.sweepRmdir (hs : Inv s) {p : P} {t : T} (h : step s (.sweepRmdir p t) = some s') : Inv s' := by
  simp only [step] at h
  split at h
  · rename_i w name hp
    split_ifs at h with ht
    obtain rfl := Option.some.inj h
    refine (hs.without name).next (p := p) hp rfl rfl rfl rfl (fun _ h => h) (.inl fun hin => ?_)
    obtain ⟨e, he, heq⟩ := List.mem_map.mp hin
    exact (mem_without (m := e.1) (t := e.2) he).2 heq
  · cases h

theorem Inv.step (hs : Inv s) (a : Action P T E) (hC : Synced s a) (h : step s a = some s') : Inv s' := by
  cases a with
  | create profile t contents =>
    simp only [Purge.step] at h
    split_ifs at h with hc
    obtain rfl := Option.some.inj h
    exact hs.create contents hc.1 hc.2.1 hc.2.2
  | acquire p n => exact hs.acquire h
  | rename p hex => exact hs.rename h
  | sync p => exact hs.sync h
  | remove p t e =>
    simp only [Purge.step] at h
    split at h
    · rename_i n hidden hp
      split_ifs at h with ht
      obtain rfl := Option.some.inj h
      exact hs.delete (hs.removing p n hidden hp) ht.1 e
    · cases h
  | rmdir p t =>
    simp only [Purge.step] at h
    split at h
    · split_ifs at h
      obtain rfl := Option.some.inj h
      exact hs.without _
    · cases h
  | sweepBegin p =>
    simp only [Purge.step] at h
    split_ifs at h
    obtain rfl := Option.some.inj h
    refine hs.reading (.inl rfl) fun h hh hhidden => ⟨?_, .inl hh⟩
    obtain ⟨e, he, rfl⟩ := List.mem_map.mp hh
    exact (hs.good s.home List.mem_cons_self).hidden e.1 e.2 he hhidden
  | meet p name own => exact hs.meet h
  | probe p known => exact hs.probe h
  | sweepSync p ok => exact hs.sweepSync h
  | sweepGo p => exact hs.sweepGo hC h
  | sweepRemove p t e =>
    simp only [Purge.step] at h
    split at h
    · rename_i w name hp
      split_ifs at h with ht
      obtain rfl := Option.some.inj h
      exact hs.delete (hs.sweeping p w name hp) ht.1 e
    · cases h
  | sweepRmdir p t => exact hs.sweepRmdir h
  | sweepGone p =>
    simp only [Purge.step] at h
    split at h
    · rename_i w name hp
      split_ifs at h with hgone
      obtain rfl := Option.some.inj h
      exact hs.next hp rfl rfl rfl rfl (fun _ h => h) (.inl hgone)
    · cases h
  | sweepFail p =>
    simp only [Purge.step] at h
    split at h
    · rename_i w name hp
      obtain rfl := Option.some.inj h
      refine hs.next hp rfl rfl rfl rfl (fun h' hh => ?_)
        (.inr (List.mem_append_right _ List.mem_cons_self))
      rcases List.mem_append.mp hh with hh | hh
      · exact List.mem_append_left _ hh
      · exact List.mem_append_right _ (List.mem_cons_of_mem _ hh)
    · cases h
  | sweepEnd p =>
    simp only [Purge.step] at h
    split at h
    · rename_i w hp
      split_ifs at h with htodo
      obtain rfl := Option.some.inj h
      refine hs.reading (.inr rfl) fun h hh hhidden => ?_
      obtain ⟨hu, hf⟩ := hs.found p w (by rw [hp]; rfl) h hh hhidden
      rw [hp] at hf
      change h ∈ w.todo ∨ none = some h ∨ h ∉ names s.home ∨ h ∈ w.left at hf
      rw [htodo] at hf
      exact ⟨hu, hf.imp id fun hf => hf.resolve_left nofun⟩
    · cases h
  | stop p => exact hs.stop h
  | crash home restored =>
    simp only [Purge.step] at h
    split_ifs at h with hhome
    obtain rfl := Option.some.inj h
    exact hs.crash hhome restored

end

/-! ## Purges and sweeps -/

/-- What a purge and the sweeps leave. -/
structure AllOrNothing (s : State P T E) : Prop where
  /-- What has the name of a profile is whole, now and after a crash. -/
  whole : ∀ home ∈ s.home :: s.past, ∀ m t, (m, t) ∈ home → profileNameValid m = true → s.deleted t = ∅
  /-- A sweep removes hidden trees only, and none that a purge still works on. -/
  sweeping : ∀ p w h, s.procs p = .sweeping w h →
    profileNameValid h = false ∧ ∀ q n h', (s.procs q).retiring = some (n, h') → h' ≠ h
  /-- A sweep that returned has met every hidden tree that was there when it began: the tree is gone, or its lock was held,
  or its removal failed. -/
  swept : ∀ p w, s.procs p = .swept w → ∀ h ∈ w.start, (purgedName h).isSome = true →
    h ∉ names s.home ∨ h ∈ w.held ∨ h ∈ w.failed

omit [DecidableEq P] [DecidableEq T] [DecidableEq E] in
theorem Inv.allOrNothing {s : State P T E} (hs : Inv s) : AllOrNothing s where
  whole := hs.intact
  sweeping p w h hp := by
    refine ⟨visible_of_hidden (hs.sweeping_hidden hp).1, ?_⟩
    exact hs.alone p h (by rw [hp]; rfl)
  swept p w hp h hh hhidden := by
    obtain ⟨-, hf⟩ := hs.found p w (by rw [hp]; rfl) h hh hhidden
    rw [hp] at hf
    rcases hf with hf | hf | hf | hf
    · cases hf
    · cases hf
    · exact .inl hf
    · exact .inr (List.mem_append.mp hf)

/-- **A purge is all or nothing where sweeps go on with synced renames only**: `purged_name` reads exactly the names that
purges make; and while a sweep that has synced meets no tree whose rename came after and whose purge stopped before its
own sync, every tree with the name of a profile is whole, no sweep is at a tree that a purge still works on, and a sweep
leaves no hidden tree whose lock was free and whose removal did not fail. -/
theorem synced_sweeps_all_or_nothing {s0 s : State P T E} (h0 : Initial s0) {as : List (Action P T E)}
    (hC : Steps.All step Synced s0 as) (hr : Steps.run step s0 as = some s) :
    (∀ name profile, purgedName name = some profile ↔
      profileNameValid profile = true ∧ ∃ hex, IsSuffix hex ∧ name = hiddenName profile hex) ∧ AllOrNothing s := by
  have hs : Inv s := Steps.run_all (fun _ a _ hs hC h => hs.step a hC h) (Inv.initial h0) hC hr
  exact ⟨fun _ _ => purgedName_eq_some, hs.allOrNothing⟩

/-! ## One sweep and the purges before it -/

/-- Two profiles, with trees of two entries each. -/
def twoProfiles : State ℕ ℕ ℕ :=
  ⟨[(ascii "a", 0), (ascii "b", 1)], [], fun _ => {0, 1}, fun _ => ∅, [], [0, 1], fun _ => none, fun _ => .idle⟩

theorem twoProfiles_initial : Initial twoProfiles where
  good := by
    have hmem : ∀ {m : Bytes} {t : ℕ}, (m, t) ∈ twoProfiles.home → m = ascii "a" ∧ t = 0 ∨ m = ascii "b" ∧ t = 1 := by
      intro m t h
      rcases List.mem_cons.mp h with h | h
      · exact .inl (Prod.mk.inj h)
      · exact .inr (Prod.mk.inj (List.mem_singleton.mp h))
    refine ⟨fun m t h => ?_, fun m t h hh => ?_, fun m m' t h h' => ?_⟩
    · rcases hmem h with ⟨-, rfl⟩ | ⟨-, rfl⟩ <;> decide
    · rcases hmem h with ⟨rfl, -⟩ | ⟨rfl, -⟩
      · exact absurd hh (by decide)
      · exact absurd hh (by decide)
    · rcases hmem h with ⟨rfl, rfl⟩ | ⟨rfl, rfl⟩ <;> rcases hmem h' with ⟨rfl, ht⟩ | ⟨rfl, ht⟩
      · rfl
      · cases ht
      · cases ht
      · rfl
  past := rfl
  deleted := fun _ => rfl
  used := nofun
  lock := fun _ => rfl
  procs := fun _ => rfl

def zeros : Bytes := List.replicate 16 (byte '0')

/-- The purge of `a` stops after its sync, and a sweep removes the tree. -/
def sweepAfter : List (Action ℕ ℕ ℕ) :=
  [.acquire 0 (ascii "a"), .rename 0 zeros, .sync 0, .stop 0,
    .sweepBegin 1, .meet 1 (hiddenName (ascii "a") zeros) true, .probe 1 true, .sweepSync 1 true,
    .sweepRemove 1 0 0, .sweepRemove 1 0 1, .sweepRmdir 1 0, .meet 1 (ascii "b") true, .sweepEnd 1]

/-- A sweep has synced and removed the tree of `a`; the purge of `b` stops before its sync, the sweep goes on with its
tree, and the disk loses the rename. -/
def sweepDuring : List (Action ℕ ℕ ℕ) :=
  [.acquire 0 (ascii "a"), .rename 0 zeros, .stop 0,
    .sweepBegin 1, .meet 1 (hiddenName (ascii "a") zeros) true, .probe 1 true, .sweepSync 1 true,
    .sweepRemove 1 0 0, .sweepRemove 1 0 1, .sweepRmdir 1 0,
    .acquire 0 (ascii "b"), .rename 0 zeros, .stop 0,
    .meet 1 (hiddenName (ascii "b") zeros) true, .probe 1 true, .sweepGo 1, .sweepRemove 1 1 0,
    .crash [(ascii "b", 1)] fun _ => ∅]

theorem synced_sweeps_all_or_nothing_after : ∃ s, Steps.run step twoProfiles sweepAfter = some s ∧
    names s.home = [ascii "b"] ∧ AllOrNothing s := by
  have hrun : (Steps.run step twoProfiles sweepAfter).map (fun s => names s.home) = some [ascii "b"] := by decide +kernel
  obtain ⟨s, hs, hnames⟩ := Option.map_eq_some_iff.mp hrun
  have hC : Steps.All step Synced twoProfiles sweepAfter :=
    ⟨trivial, fun _ _ => ⟨trivial, fun _ _ => ⟨trivial, fun _ _ => ⟨trivial, fun _ _ => ⟨trivial, fun _ _ =>
      ⟨trivial, fun _ _ => ⟨trivial, fun _ _ => ⟨trivial, fun _ _ => ⟨trivial, fun _ _ => ⟨trivial, fun _ _ =>
        ⟨trivial, fun _ _ => ⟨trivial, fun _ _ => ⟨trivial, fun _ _ => trivial⟩⟩⟩⟩⟩⟩⟩⟩⟩⟩⟩⟩⟩
  exact ⟨s, hs, hnames, (synced_sweeps_all_or_nothing twoProfiles_initial hC hs).2⟩

/-- The profile `b` has its name again, and one of its entries is gone. -/
theorem unsynced_sweep_partial : ∃ s : State ℕ ℕ ℕ, Steps.Reachable step Initial s ∧
    s.home = [(ascii "b", 1)] ∧ s.entries 1 = {0, 1} ∧ s.deleted 1 = {0} ∧ ¬ AllOrNothing s := by
  have hrun : (Steps.run step twoProfiles sweepDuring).map (fun s => (s.home, s.entries 1, s.deleted 1)) =
      some ([(ascii "b", 1)], {0, 1}, {0}) := by decide +kernel
  obtain ⟨s, hs, hleft⟩ := Option.map_eq_some_iff.mp hrun
  obtain ⟨hhome, hrest⟩ := Prod.mk.inj hleft
  obtain ⟨hentries, hdeleted⟩ := Prod.mk.inj hrest
  refine ⟨s, ⟨twoProfiles, _, twoProfiles_initial, hs⟩, hhome, hentries, hdeleted, fun hall => ?_⟩
  have h := hall.whole s.home List.mem_cons_self (ascii "b") 1 (by rw [hhome]; exact List.mem_singleton.mpr rfl) (by decide)
  rw [hdeleted] at h
  exact absurd h (by decide)

end Hamn.Host.Purge
