import Hamn.Lib.Locks
import Hamn.Install.Generation

/-!
# Install.Locks — the locks of installers and updaters (`control/install_support/locks.rs`)

A transaction takes the transaction locks of its roots, an updater then the cache lock of its HOME, and a generation
install the install locks of the roots; they are released as the guards go out of scope.  The locks are `flock`s on
files, so a process waits for any lock that is held, its own included.

* `Canonical`, `Roots`, `Roots.prepare`: the roots, with what `prepare` establishes about them.
* `lockPair`, `transactionLocks`, `cacheLock`, `installLocks`: the paths, in the order they are taken.
* `Job`, `Job.script`: what one process takes from its start to its end.
-/

namespace Hamn.Install.Locks

open Bytes

/-! ## Paths -/

def slash : UInt8 := byte '/'

/-- `Path::join`. -/
def join (path component : Bytes) : Bytes :=
  if component.head? = some slash then component
  else if path = [] ∨ path.getLast? = some slash then path ++ component
  else path ++ slash :: component

/-- A component that names an entry of a directory. -/
def IsName (name : Bytes) : Prop := name ≠ [] ∧ name ≠ ascii "." ∧ name ≠ ascii ".." ∧ slash ∉ name

/-- What `canonicalize` returns: the root, or names that each follow a slash. -/
def Canonical (path : Bytes) : Prop :=
  path = [slash] ∨ ∃ names : List Bytes, names ≠ [] ∧ (∀ n ∈ names, IsName n) ∧ path = names.flatMap (slash :: ·)

instance (name : Bytes) : Decidable (IsName name) := by
  unfold IsName
  infer_instance

/-- `BINDIR` and the parent of `DATADIR`, canonical, and the last component of `DATADIR`. -/
structure Roots where
  bindir : Bytes
  dataParent : Bytes
  dataBase : Bytes
  bindir_canonical : Canonical bindir
  parent_canonical : Canonical dataParent
  base_name : IsName dataBase

def Roots.datadir (roots : Roots) : Bytes := join roots.dataParent roots.dataBase

/-- The directories as `prepare` finds them. -/
structure Directories where
  symlink : Bytes → Bool
  /-- `DirBuilder::create`, with the parents. -/
  create : Bytes → Except Failure Unit
  canonicalize : Bytes → Except Failure { path // Canonical path }

/-- The parent and the last component of `DATADIR`, without its final slashes. -/
def splitDatadir (datadir : Bytes) : Bytes × Bytes :=
  let trimmed := datadir.rdropWhile (· = slash)
  let base := trimmed.rtakeWhile (· ≠ slash)
  let before := trimmed.rdropWhile (· ≠ slash)
  (if before = [] then ascii "." else if before = [slash] then [slash] else before.dropLast, base)

theorem slash_not_mem_base (datadir : Bytes) : slash ∉ (splitDatadir datadir).2 := by
  intro h
  have h := List.mem_rtakeWhile_imp h
  simp at h

/-- `Roots::prepare`. -/
def Roots.prepare (directories : Directories) (bindir datadir : Bytes) : Except Failure Roots :=
  if directories.symlink bindir || directories.symlink datadir then
    .error (.text "refusing symlinked transaction root")
  else
    let split := splitDatadir datadir
    if !Utf8.valid split.2 then .error (.text "data directory is not UTF-8")
    else if h : IsName split.2 then do
      directories.create bindir
      directories.create split.1
      let parent ← directories.canonicalize split.1
      let _ ← utf8 parent
      let bin ← directories.canonicalize bindir
      let _ ← utf8 bin
      .ok ⟨bin, parent, split.2, bin.2, parent.2, h⟩
    else .error (.text "refusing non-canonical data directory")

/-! ## The lock files -/

/-- Two lock paths in byte order. -/
def ordered (one two : Bytes) : List Bytes := if two < one then [two, one] else [one, two]

/-- The end of the names of both lock files. -/
def lockSuffix (suffix : String) : Bytes := ascii ".hamn-" ++ ascii suffix ++ ascii ".lock"

def lockPair (roots : Roots) (suffix : String) : List Bytes :=
  ordered (join roots.bindir (lockSuffix suffix)) (join roots.dataParent (ascii "." ++ roots.dataBase ++ lockSuffix suffix))

/-- `Transaction::acquire`. -/
def transactionLocks (roots : Roots) : List Bytes := lockPair roots "transaction"

/-- `cache`, called with `HOME/.hamn/cache/.hamn-upgrade.lock`. -/
def cacheLock (home : Bytes) : Bytes :=
  join (join (join home (ascii ".hamn")) (ascii "cache")) (ascii ".hamn-upgrade.lock")

/-- `Install::acquire`. -/
def installLocks (roots : Roots) : List Bytes := lockPair roots "install"

/-- One installation, update or collection. -/
structure Job where
  roots : Roots
  /-- The HOME of an updater. -/
  home : Option Bytes
  install : Bool

/-- The locks that the job takes, in its order. -/
def Job.script (job : Job) : List Bytes :=
  transactionLocks job.roots ++ (job.home.map cacheLock).toList ++ if job.install then installLocks job.roots else []

/-! ## One order of all lock files -/

/-- The phase that a lock file belongs to, by the end of its name. -/
def phase (path : Bytes) : ℕ :=
  if (lockSuffix "transaction").isSuffixOf path then 0 else if (ascii ".hamn-upgrade.lock").isSuffixOf path then 1 else 2

/-- The lock files by phase, and in byte order within one. -/
def rank (path : Bytes) : ℕ ×ₗ List ℕ := toLex (phase path, path.map UInt8.toNat)

theorem rank_lt_of_phase {a b : Bytes} (h : phase a < phase b) : rank a < rank b := by
  rw [Prod.Lex.lt_iff]
  exact .inl h

theorem key_lt_iff {a b : Bytes} : a.map UInt8.toNat < b.map UInt8.toNat ↔ a < b := by
  induction a generalizing b with
  | nil => cases b <;> simp
  | cons x a ih =>
    cases b with
    | nil => simp
    | cons y b =>
      rw [List.map_cons, List.map_cons, List.cons_lt_cons_iff, List.cons_lt_cons_iff, ih, UInt8.lt_iff_toNat_lt,
        UInt8.toNat_inj]

theorem lt_of_not_lt {a b : Bytes} (hne : a ≠ b) (h : ¬ b < a) : a < b := by
  rcases lt_trichotomy (a.map UInt8.toNat) (b.map UInt8.toNat) with hk | hk | hk
  · exact key_lt_iff.mp hk
  · exact absurd (List.map_injective_iff.mpr (fun _ _ => UInt8.toNat_inj.mp) hk) hne
  · exact absurd (key_lt_iff.mp hk) h

theorem rank_lt_of_lt {a b : Bytes} (hp : phase a = phase b) (h : a < b) : rank a < rank b := by
  rw [Prod.Lex.lt_iff]
  exact .inr ⟨hp, key_lt_iff.mpr h⟩

theorem phase_transaction (path : Bytes) : phase (path ++ lockSuffix "transaction") = 0 := by
  unfold phase
  rw [if_pos (List.isSuffixOf_iff_suffix.mpr (List.suffix_append _ _))]

/-- Neither of two ends that differ is an end of a path that has the other. -/
theorem not_suffix {a b : Bytes} (path : Bytes) (hab : b.isSuffixOf a = false) (hba : a.isSuffixOf b = false) :
    b.isSuffixOf (path ++ a) = false := by
  by_contra h
  have h := List.isSuffixOf_iff_suffix.mp (Bool.eq_true_of_not_eq_false h)
  rcases List.suffix_or_suffix_of_suffix h (List.suffix_append path a) with h | h
  · rw [List.isSuffixOf_iff_suffix.mpr h] at hab
    cases hab
  · rw [List.isSuffixOf_iff_suffix.mpr h] at hba
    cases hba

theorem phase_cache (path : Bytes) : phase (path ++ ascii ".hamn-upgrade.lock") = 1 := by
  unfold phase
  rw [not_suffix path (by decide) (by decide), if_neg Bool.false_ne_true,
    if_pos (List.isSuffixOf_iff_suffix.mpr (List.suffix_append _ _))]

theorem phase_install (path : Bytes) : phase (path ++ lockSuffix "install") = 2 := by
  unfold phase
  rw [not_suffix path (by decide) (by decide), if_neg Bool.false_ne_true, not_suffix path (by decide) (by decide),
    if_neg Bool.false_ne_true]

/-! ## The locks of one job -/

/-- The path as the start of the paths of its entries. -/
def asDirectory (path : Bytes) : Bytes := if path = [] ∨ path.getLast? = some slash then path else path ++ [slash]

theorem join_eq {path component : Bytes} (h : component.head? ≠ some slash) :
    join path component = asDirectory path ++ component := by
  unfold join asDirectory
  rw [if_neg h]
  by_cases hp : path = [] ∨ path.getLast? = some slash
  · rw [if_pos hp, if_pos hp]
  · rw [if_neg hp, if_neg hp, List.append_assoc, List.singleton_append]

theorem asDirectory_getLast? {path : Bytes} (h : asDirectory path ≠ []) : (asDirectory path).getLast? = some slash := by
  unfold asDirectory at h ⊢
  by_cases hp : path = [] ∨ path.getLast? = some slash
  · rw [if_pos hp] at h ⊢
    exact hp.resolve_left h
  · rw [if_neg hp, List.getLast?_concat]

/-- The lock in `BINDIR` and that beside `DATADIR`, with the directories that they are in. -/
theorem lockPair_eq (roots : Roots) (suffix : String) :
    lockPair roots suffix =
      ordered (asDirectory roots.bindir ++ lockSuffix suffix)
        (asDirectory roots.dataParent ++ (ascii "." ++ roots.dataBase) ++ lockSuffix suffix) := by
  have hb : (lockSuffix suffix).head? ≠ some slash := by
    change some (byte '.') ≠ some slash
    decide
  have hd : (ascii "." ++ roots.dataBase ++ lockSuffix suffix).head? ≠ some slash := by
    change some (byte '.') ≠ some slash
    decide
  unfold lockPair
  rw [join_eq hb, join_eq hd, List.append_assoc (asDirectory roots.dataParent)]

/-- The two locks of a pair differ: what stands before the common end is a directory for one and a name for the other. -/
theorem pair_ne (roots : Roots) (suffix : Bytes) :
    asDirectory roots.bindir ++ suffix ≠ asDirectory roots.dataParent ++ (ascii "." ++ roots.dataBase) ++ suffix := by
  intro h
  have h := List.append_cancel_right h
  have hne : asDirectory roots.bindir ≠ [] := by
    rw [h]
    exact List.append_ne_nil_of_right_ne_nil _ (List.cons_ne_nil _ _)
  have hname : ascii "." ++ roots.dataBase ≠ [] := List.cons_ne_nil _ _
  have hlast := asDirectory_getLast? hne
  rw [h, List.getLast?_append_of_ne_nil _ hname] at hlast
  rcases List.mem_append.mp (List.mem_of_getLast? hlast) with hdot | hbase
  · exact absurd hdot (by decide)
  · exact roots.base_name.2.2.2 hbase

theorem mem_ordered {one two path : Bytes} : path ∈ ordered one two ↔ path = one ∨ path = two := by
  unfold ordered
  by_cases h : two < one
  · rw [if_pos h, List.mem_pair]
    exact or_comm
  · rw [if_neg h, List.mem_pair]

theorem ordered_increasing {one two : Bytes} (hp : phase one = phase two) (hne : one ≠ two) :
    Locks.Increasing rank (ordered one two) := by
  unfold ordered Locks.Increasing
  by_cases h : two < one
  · rw [if_pos h]
    exact List.pairwise_pair.mpr (rank_lt_of_lt hp.symm h)
  · rw [if_neg h]
    exact List.pairwise_pair.mpr (rank_lt_of_lt hp (lt_of_not_lt hne h))

theorem lockPair_increasing (roots : Roots) {suffix : String} {n : ℕ}
    (hphase : ∀ path, phase (path ++ lockSuffix suffix) = n) : Locks.Increasing rank (lockPair roots suffix) := by
  rw [lockPair_eq]
  apply ordered_increasing
  · rw [hphase, hphase]
  · exact pair_ne roots _

theorem phase_of_mem_lockPair {roots : Roots} {suffix : String} {n : ℕ}
    (hphase : ∀ path, phase (path ++ lockSuffix suffix) = n) {path : Bytes} (h : path ∈ lockPair roots suffix) :
    phase path = n := by
  rw [lockPair_eq] at h
  rcases mem_ordered.mp h with rfl | rfl <;> exact hphase _

theorem phase_cacheLock (home : Bytes) : phase (cacheLock home) = 1 := by
  unfold cacheLock
  rw [join_eq (by decide)]
  exact phase_cache _

theorem mem_cacheLocks {home : Option Bytes} {path : Bytes} (h : path ∈ (home.map cacheLock).toList) : phase path = 1 := by
  cases home with
  | none => cases h
  | some home =>
    rw [List.mem_singleton.mp h]
    exact phase_cacheLock home

/-- Whatever its roots and its HOME, a job takes its locks in the order of all lock files. -/
theorem script_increasing (job : Job) : Locks.Increasing rank job.script := by
  have hcache : Locks.Increasing rank (job.home.map cacheLock).toList := by
    cases job.home with
    | none => exact List.Pairwise.nil
    | some home => exact List.pairwise_singleton _ _
  have hinstall : Locks.Increasing rank (if job.install then installLocks job.roots else []) := by
    by_cases h : job.install
    · rw [if_pos h]
      exact lockPair_increasing job.roots phase_install
    · rw [if_neg h]
      exact List.Pairwise.nil
  have mem_install : ∀ path ∈ (if job.install then installLocks job.roots else []), phase path = 2 := by
    intro path hpath
    by_cases h : job.install
    · rw [if_pos h] at hpath
      exact phase_of_mem_lockPair phase_install hpath
    · rw [if_neg h] at hpath
      cases hpath
  unfold Job.script Locks.Increasing
  refine List.pairwise_append.mpr ⟨List.pairwise_append.mpr ⟨?_, hcache, ?_⟩, hinstall, ?_⟩
  · exact lockPair_increasing job.roots phase_transaction
  · intro a ha b hb
    apply rank_lt_of_phase
    rw [phase_of_mem_lockPair phase_transaction ha, mem_cacheLocks hb]
    decide
  · intro a ha b hb
    apply rank_lt_of_phase
    rw [mem_install b hb]
    rcases List.mem_append.mp ha with ha | ha
    · rw [phase_of_mem_lockPair phase_transaction ha]
      decide
    · rw [mem_cacheLocks ha]
      decide

/-! ## No deadlock -/

/-- **Installers and updaters never deadlock**: whatever the roots and the HOMEs of their jobs, no processes wait for each
other in a circle, and none waits for a lock that it holds itself. -/
theorem no_deadlock {P : Type} [DecidableEq P] {s : Locks.State P Bytes}
    (h : Steps.Reachable (Locks.step Job.script) Locks.Initial s) :
    ¬ Locks.Deadlock s ∧ ∀ p, ¬ Locks.WaitsFor s p p := by
  have hdead := (Locks.Ranked.reachable script_increasing h).not_deadlock
  exact ⟨hdead, fun p hp => hdead ⟨p, .single hp⟩⟩

/-- `/b` and `/p/hamn`. -/
def smallRoots : Roots where
  bindir := ascii "/b"
  dataParent := ascii "/p"
  dataBase := ascii "hamn"
  bindir_canonical := .inr ⟨[ascii "b"], by decide, by decide, rfl⟩
  parent_canonical := .inr ⟨[ascii "p"], by decide, by decide, rfl⟩
  base_name := by decide

/-- An updater has a lock of the roots that an installer starts with. -/
def contended : Option (Locks.State ℕ Bytes) :=
  Steps.run (Locks.step Job.script) ⟨[], fun _ => []⟩
    [.start 0 ⟨smallRoots, some (ascii "/h"), true⟩, .start 1 ⟨smallRoots, none, true⟩, .acquire 0]

theorem no_deadlock_contended :
    ∃ s, contended = some s ∧ Locks.WaitsFor s 1 0 ∧ ¬ Locks.Deadlock s ∧ ∀ p, ¬ Locks.WaitsFor s p p := by
  have hs : contended.isSome = true := by decide
  obtain ⟨s, hs⟩ := Option.isSome_iff_exists.mp hs
  refine ⟨s, hs, ?_, no_deadlock ⟨_, _, ⟨rfl, fun _ => rfl⟩, hs⟩⟩
  obtain rfl := Option.some.inj hs
  exact ⟨_, _, rfl, List.mem_singleton.mpr rfl⟩

end Hamn.Install.Locks
