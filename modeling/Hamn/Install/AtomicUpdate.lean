import Hamn.Install.Atomic

/-!
# Install.AtomicUpdate — the steps of an update, from the journal to the cleanup

Each function of the update takes a state of `Install.Atomic` to another one, whatever fails and wherever it stops.
-/

namespace Hamn.Install

open Posix Crash Bytes Result
open Crash.Proc hiding attempt pure bind

section

variable {env : Env} {u : Change} {d : Disk}

/-! ## Preparing the journal -/

theorem Old.stable : Stable (Watched env) (Old env u) := fun _ _ hd h => hd.keep h

theorem Stable.mono {S T : Set Loc} {P : Disk → Prop} (h : Stable S P) (hT : S ⊆ T) : Stable T P :=
  fun d d' hd hk => h d d' hd (hk.mono hT)

/-- A stage that holds the files listed so far; nothing else has changed. -/
def Filled (env : Env) (u : Change) (stage : Loc) (files : List (String × Bytes)) (d : Disk) : Prop :=
  Old env u d ∧ ∃ a es, d.find stage = .ok (.dir a es) ∧ ∀ f ∈ files, HasFile es f.1 f.2

theorem Filled.stable {stage : Loc} {files : List (String × Bytes)} :
    Stable (Watched env ∪ {stage}) (Filled env u stage files) := by
  rintro d d' ⟨hd, a, es, hs, hf⟩ h
  exact ⟨hd.keep (h.mono Set.subset_union_left), a, es, (h stage (Or.inr rfl)).trans hs, hf⟩

theorem wp_writePrivate {stage : Loc} {files : List (String × Bytes)} {x : String} {c : Bytes}
    (hd : Filled env u stage files d) (hoff : Off (All env) stage) (hx : ∀ f ∈ files, ascii f.1 ≠ ascii x) :
    wp (writePrivate (stage.sub (ascii x)) c)
      ⟨fun _ => Filled env u stage ((x, c) :: files), fun _ => Old env u, Old env u⟩ d := by
  obtain ⟨hold, a, es, hs, hf⟩ := hd
  refine (wp_create (Old.stable.mono Set.subset_union_left) (hoff.sub (ascii x)) hold).mono ?_ (fun _ _ h => h)
    fun _ h => h
  rintro _ d' ⟨hold', a', es₀, es', b, hs₀, -, hs', hnew, hrest⟩
  obtain ⟨rfl, rfl⟩ := Node.dir.inj (Except.ok.inj (hs₀.symm.trans hs))
  refine ⟨hold', a', es', hs', fun f hmem => ?_⟩
  rcases List.mem_cons.mp hmem with rfl | hmem
  · exact ⟨b, hnew⟩
  · obtain ⟨b, hb⟩ := hf f hmem
    exact ⟨b, (hrest _ (hx f hmem)).trans hb⟩

/-- The file that records the previous selection, if there is one. -/
def previousFiles (u : Change) : List (String × Bytes) := u.previous.toList.map fun c => ("previous-selection", c)

theorem fresh_previous {x : String} (h : ascii "previous-selection" ≠ ascii x) :
    ∀ f ∈ previousFiles u, ascii f.1 ≠ ascii x := by
  intro f hf
  obtain ⟨c, -, rfl⟩ := List.mem_map.mp hf
  exact h

theorem fresh_cons {x y : String} {c : Bytes} {files : List (String × Bytes)} (h : ascii y ≠ ascii x)
    (hf : ∀ f ∈ files, ascii f.1 ≠ ascii x) : ∀ f ∈ (y, c) :: files, ascii f.1 ≠ ascii x := by
  intro f hmem
  rcases List.mem_cons.mp hmem with rfl | hmem
  · exact h
  · exact hf f hmem

theorem wp_recordSelection {stage : Loc} (hd : Filled env u stage [] d) (hoff : Off (All env) stage) :
    wp (recordSelection env stage)
      ⟨fun b d' => b = u.previous.isSome ∧ Filled env u stage (previousFiles u) d', fun _ => Old env u, Old env u⟩ d := by
  refine wp_look_bind ?_
  have hsel := hd.1.selection
  unfold previousFiles
  cases hp : u.previous with
  | none =>
    rw [hp] at hsel
    rw [if_pos (absent_iff.mpr hsel)]
    exact wp_pure ⟨rfl, hd⟩
  | some c =>
    rw [hp] at hsel
    obtain ⟨a, ha⟩ := hsel
    have hpresent : ¬ absent d env.selection = true := by
      rw [absent_iff, ha]
      exact nofun
    rw [if_neg hpresent]
    refine wp_check_bind (fun _ => ?_) fun _ => hd.1
    refine wp_query_bind (fun content hc => ?_) fun _ _ => hd.1
    obtain ⟨a', ha', -⟩ := read_eq_ok hc
    obtain ⟨-, rfl⟩ := Node.file.inj (Except.ok.inj (ha'.symm.trans ha))
    exact (wp_writePrivate hd hoff (by simp)).seq (fun _ d' h => wp_pure ⟨rfl, h⟩) (fun _ _ h => h) fun _ h => h

theorem wp_recordPrevious {stage : Loc} {plan : Plan} {files : List (String × Bytes)}
    (hd : Filled env u stage files d) (hoff : Off (All env) stage) (hroot : stage.root = .cache env.cache)
    (hb : plan.bootstrap = false) (ho : plan.oldTarget = some u.old) (hfiles : ∀ f ∈ files, ascii f.1 ≠ ascii "old-target") :
    wp (recordPrevious env plan stage)
      ⟨fun _ d' => Filled env u stage (("old-target", u.old ++ [newline]) :: files) d' ∧
        trimNewlines (u.old ++ [newline]) = u.old, fun _ => Old env u, Old env u⟩ d := by
  unfold recordPrevious
  rw [hb, if_neg (by decide), ho]
  refine wp_check_bind (fun _ => ?_) fun _ => hd.1
  refine wp_query_bind (fun generation hg => ?_) fun _ _ => hd.1
  unfold targetGeneration at hg
  split at hg
  · rename_i name hname
    obtain rfl := Except.ok.inj hg
    have hquiet : ∀ x, Off (Watched env ∪ {stage}) ((generations.sub name).sub x) := fun x =>
      Off.union (off_of_root (by simp [generations, Loc.sub]) (by simp [generations, Loc.sub])) (by
        rintro k rfl
        exact Loc.apart_of_root (by rw [hroot]; simp [generations, Loc.sub]))
    refine ((Filled.stable.maintains fun _ => keep_recoveryRoot (fun x => hquiet _) fun x => hquiet _) d hd).seq
      (fun _ d1 hd1 => ?_) (fun _ _ h => h.1) fun _ h => h.1
    exact (wp_writePrivate hd1 hoff hfiles).mono (fun _ _ h => ⟨h, trimNewlines_of_targetName hname⟩) (fun _ _ h => h)
      fun _ h => h
  · cases hg

/-- The update has not started, or its journal is there. -/
def Begun (env : Env) (u : Change) (d : Disk) : Prop := Old env u d ∨ Active env u none d

theorem Begun.stable : Stable (Watched env) (Begun env u) := fun _ _ hd h =>
  hd.imp (fun hd => hd.keep h) fun hd => hd.keep_none h

/-- The renamed stage is the active journal. -/
theorem Old.activate {stage : Name} {a : Attr} {es : Dir} (hd : Old env u d)
    (hoff : Off (All env) (env.cacheDir.sub stage)) (hs : d.find (env.cacheDir.sub stage) = .ok (.dir a es))
    (hfiles : JournalFiles u es none) :
    Active env u none (d.move (env.cacheDir.sub stage) env.journal (.dir a es)) := by
  have hk : Keep (All env \ {env.journal}) d (d.move (env.cacheDir.sub stage) env.journal (.dir a es)) :=
    .move (hoff.mono Set.sdiff_subset) off_journal
  refine ⟨⟨a, es, Disk.find_move_self hs, hfiles⟩, nofun, Or.inl ?_, Or.inl ?_, hk.completed (Or.inl rfl) hd.notCompleted⟩
  · obtain ⟨b, hb⟩ := hd.link
    exact ⟨b, (hk.apart mem_link link_apart_journal).trans hb⟩
  · exact hd.selection.of_eq (hk.apart mem_selection journal_apart_selection.symm)

theorem wp_prepareStage {plan : Plan} {stage : Name} {attempt : Bytes} (hd : Filled env u (env.cacheDir.sub stage) [] d)
    (hoff : Off (All env) (env.cacheDir.sub stage)) (hb : plan.bootstrap = false) (ho : plan.oldTarget = some u.old)
    (hh : plan.hostMutation = u.host.isSome) (hn : plan.newSelection = u.newSelection) :
    wp (prepareStage env plan (env.cacheDir.sub stage) attempt)
      ⟨fun _ => Active env u none, fun _ => Begun env u, Begun env u⟩ d := by
  refine wp_check_bind (fun _ => ?_) fun _ => Or.inl hd.1
  refine (wp_recordSelection hd hoff).seq ?_ (fun _ _ h => Or.inl h) fun _ h => Or.inl h
  rintro _ d1 ⟨rfl, h1⟩
  refine (wp_recordPrevious h1 hoff rfl hb ho (fresh_previous (by decide))).seq ?_ (fun _ _ h => Or.inl h)
    fun _ h => Or.inl h
  rintro _ d2 ⟨h2, hplain⟩
  rw [hb, hn, hh]
  refine (wp_writePrivate h2 hoff ?_).seq (fun _ d3 h3 => ?_) (fun _ _ h => Or.inl h) fun _ h => Or.inl h
  · exact fresh_cons (by decide) (fresh_previous (by decide))
  refine (wp_writePrivate h3 hoff ?_).seq (fun _ d4 h4 => ?_) (fun _ _ h => Or.inl h) fun _ h => Or.inl h
  · exact fresh_cons (by decide) (fresh_cons (by decide) (fresh_previous (by decide)))
  refine (wp_writePrivate h4 hoff ?_).seq (fun _ d5 h5 => ?_) (fun _ _ h => Or.inl h) fun _ h => Or.inl h
  · exact fresh_cons (by decide) (fresh_cons (by decide) (fresh_cons (by decide) (fresh_previous (by decide))))
  refine (wp_writePrivate h5 hoff ?_).seq (fun _ d6 h6 => ?_) (fun _ _ h => Or.inl h) fun _ h => Or.inl h
  · exact fresh_cons (by decide) (fresh_cons (by decide) (fresh_cons (by decide) (fresh_cons (by decide)
      (fresh_previous (by decide)))))
  obtain ⟨hold, a, es, hs, hf⟩ := h6
  refine wp_call_bind (Or.inl hold) (fun _ => Or.inl hold) fun d7 hr => ?_
  obtain ⟨n, hn', -, rfl⟩ := Disk.renameExcl_eq_ok hr
  obtain rfl : n = .dir a es := Except.ok.inj (hn'.symm.trans hs)
  have hfiles : JournalFiles u es none :=
    ⟨hf ("state", stateText false u.previous.isSome u.host.isSome) (by simp),
      hf ("old-target", u.old ++ [newline]) (by simp), hplain, hf ("new-selection", u.newSelection) (by simp),
      fun c hc => hf ("previous-selection", c) (by simp [previousFiles, hc]), hf ("new-target", []) (by simp)⟩
  have hactive := hold.activate hoff hs hfiles
  refine wp_look_bind ?_
  split
  · split_ifs
    · exact wp_pure hactive
    · exact wp_fail (Or.inr hactive)
  · exact wp_fail (Or.inr hactive)

theorem wp_prepare {plan : Plan} (hd : Old env u d) (hb : plan.bootstrap = false) (ho : plan.oldTarget = some u.old)
    (hh : plan.hostMutation = u.host.isSome) (hn : plan.newSelection = u.newSelection) :
    wp (prepare env plan) ⟨fun _ => Active env u none, fun _ => Begun env u, Begun env u⟩ d := by
  refine wp_check_bind (fun _ => ?_) fun _ => Or.inl hd
  refine wp_bind (wp_temporary (Or.inl hd) (fun _ => Or.inl hd) fun s d1 _ h1 => ?_)
  have hoff : Off (All env) (env.cacheDir.sub ((NAME ++ ascii ".") ++ s)) :=
    All.plain_off s (by decide) (by decide) (by decide) (by decide)
  have hfilled : Filled env u (env.cacheDir.sub ((NAME ++ ascii ".") ++ s)) [] d1 :=
    ⟨hd.keep (.mono (.place hoff h1) Set.subset_union_left), _, _, Disk.find_place h1, by simp⟩
  refine (wp_prepareStage hfilled hoff hb ho hh hn).catch (fun _ _ h => wp_pure h) (fun e d2 h2 => ?_) fun _ h => h
  refine wp_look_bind ?_
  have hstable : Stable (All env) (Begun env u) := Begun.stable.mono Set.subset_union_left
  split_ifs
  · exact ((hstable.maintains fun _ => keep_discardStage hoff) d2 h2).seq (fun _ _ h => wp_fail h) (fun _ _ h => h)
      fun _ h => h
  · exact wp_fail h2

/-! ## Installing the generation -/

theorem off_parent {path : List Name} : Off (Watched env) ⟨.parent, path⟩ := off_of_root nofun nofun

theorem off_data {path : List Name} : Off (Watched env) ⟨.data, path⟩ := off_of_root nofun nofun

theorem off_gens {path : List Name} : Off (Watched env) ⟨.gens, path⟩ := off_of_root nofun nofun

theorem keep_createDataMarker {d₀ : Disk} : Maintains (Keep (Watched env) d₀) (createDataMarker env) := by
  intro d hd
  refine wp_bind (wp_temporary hd (fun _ => hd) fun s d1 _ h1 => ?_)
  have hd1 : Keep (Watched env) d₀ d1 := hd.trans (.place off_parent h1)
  refine Maintains.bind (Maintains.attempt ?_) (fun r => ?_) d1 hd1
  · exact keep_check.bind fun _ => (keep_create off_parent).bind fun _ =>
      (keep_renameExclusive off_parent off_data).bind fun _ => keep_check
  · exact (keep_removeFile off_parent).ignore.bind fun _ => (keep_removeDir off_parent).ignore.bind fun _ => keep_raise

theorem keep_handoff {S : Set Loc} {d₀ : Disk} {journaled previous : Option Bytes} {message : String} :
    Maintains (Keep S d₀) (handoff env journaled previous message) := by
  unfold handoff
  split
  · exact Maintains.pure
  · exact keep_check

theorem keep_ensureDirectory {S : Set Loc} {d₀ : Disk} {l : Loc} (h : Off S l) :
    Maintains (Keep S d₀) (ensureDirectory l) := by
  refine Maintains.look.bind fun b => ?_
  split_ifs
  · exact keep_directory h
  · exact Maintains.pure

theorem keep_prepareRoots {d₀ : Disk} {managed : Bool} : Maintains (Keep (Watched env) d₀) (prepareRoots env managed) := by
  have hrest : Maintains (Keep (Watched env) d₀) (do
      check (fun d => isOwned d datadir true (some 0o755) && dataMarkerValid d dataMarker)
        "data directory ownership changed during install"
      ensureDirectory generations
      check (fun d => isOwned d generations true (some 0o755)) "refusing unsafe generation root") :=
    keep_check.bind fun _ => (keep_ensureDirectory off_gens).bind fun _ => keep_check
  unfold prepareRoots
  cases managed with
  | true => exact hrest
  | false => exact ((keep_ensureDirectory off_data).bind fun _ => keep_createDataMarker).bind fun _ => hrest

theorem keep_prepareInstall {d₀ : Disk} {payload : Payload} {journaled : Option Bytes} :
    Maintains (Keep (Watched env) d₀) (prepareInstall env payload journaled) := by
  refine keep_touch.bind fun _ => keep_check.bind fun _ => keep_check.bind fun _ => keep_check.bind fun _ =>
    keep_check.bind fun _ => ?_
  refine (keep_lockFile ((off_bindir (by decide)).mono Set.subset_union_left)).bind fun _ => ?_
  exact (keep_lockFile off_parent).bind fun _ => Maintains.query.bind fun managed => keep_check.bind fun _ =>
    Maintains.query.bind fun current => keep_handoff.bind fun _ => keep_prepareRoots.bind fun _ =>
      keep_barrier.bind fun _ => Maintains.pure

/-- The generation directory `l` holds this binary. -/
def HasBinary (content : Bytes) (l : Loc) (d : Disk) : Prop := ∃ a, d.find (binary l) = .ok (.file a content)

theorem HasBinary.stable {content : Bytes} {l : Loc} : Stable {binary l} (HasBinary content l) := by
  rintro d d' ⟨a, ha⟩ h
  exact ⟨a, (h _ rfl).trans ha⟩

theorem find_binary {l : Loc} {n : Node} (h : d.find l = .ok n) :
    d.find (binary l) = Node.find [ascii "bin", ascii "hamn"] (some n) := by
  have := Node.find_append h [ascii "bin", ascii "hamn"]
  unfold binary Loc.sub Disk.find
  rwa [List.append_assoc]

/-- Making a directory open to its owner leaves what is below it. -/
theorem HasBinary.chmod {content : Bytes} {l : Loc} {x : Name} {d' : Disk} (h : HasBinary content (l.sub x) d)
    (hc : Disk.chmod 0o755 (l.sub x) d = .ok d') : HasBinary content (l.sub x) d' := by
  obtain ⟨n, hn, rfl⟩ := Disk.chmod_eq_ok hc
  obtain ⟨a, ha⟩ := h
  rw [find_binary hn] at ha
  refine ⟨a, ?_⟩
  rw [find_binary (Disk.find_alter_of_found hn)]
  cases n with
  | dir b es =>
    simp only [Node.find] at ha ⊢
    split_ifs at ha with hs
    have hopen : Attr.searchable { b with mode := 0o755 } = true := by
      change Nat.testBit 0o755 6 = true
      decide
    rw [Node.setMode, Node.find, if_pos hopen]
    exact ha
  | file b c => cases ha
  | symlink b t => cases ha
  | special b => cases ha

theorem HasBinary.move {content : Bytes} {l : Loc} {x y : Name} {n : Node} (h : HasBinary content (l.sub x) d)
    (hn : d.find (l.sub x) = .ok n) : HasBinary content (l.sub y) (d.move (l.sub x) (l.sub y) n) := by
  obtain ⟨a, ha⟩ := h
  rw [find_binary hn] at ha
  exact ⟨a, (find_binary (Disk.find_move_self hn)).trans ha⟩

/-- An entry of a generation other than `bin` lies apart from its binary. -/
theorem apart_binary {l : Loc} {x : Name} (h : x ≠ ascii "bin") : (l.sub x).Apart (binary l) := by
  refine Or.inr ?_
  change Node.Apart (l.path ++ [x]) ((l.path ++ [ascii "bin"]) ++ [ascii "hamn"])
  rw [List.append_assoc]
  exact Node.Apart.append_same l.path (Or.inl h)

section

variable {payload : Payload} {previous : Option Bytes} {hash : Bytes}

theorem keep_stagePointer {S : Set Loc} {d₀ : Disk} {stage : Loc} {pointer : Option Node}
    (h : Off S (stage.sub (ascii "share"))) : Maintains (Keep S d₀) (stagePointer stage pointer) := by
  cases pointer with
  | none => exact Maintains.pure
  | some pointer =>
    exact (keep_directory h).bind fun _ => (keep_directory (h.sub _)).bind fun _ =>
      (keep_create ((h.sub _).sub _)).bind fun _ => keep_check

theorem keep_stagePrevious {S : Set Loc} {d₀ : Disk} {stage : Loc}
    (h : Off S (stage.sub (ascii ".hamn-previous-target"))) : Maintains (Keep S d₀) (stagePrevious stage previous) := by
  cases previous with
  | none => exact Maintains.pure
  | some previous => exact keep_create h

/-- What staging keeps besides `P`: the binary, once it is there. -/
theorem wp_stageGeneration {P : Disk → Prop} {stage name : Name} (hP : Stable (Watched env) P) (hd : P d) :
    wp (stageGeneration env payload previous hash (generations.sub stage) (generations.sub name))
      ⟨fun _ d' => P d' ∧ HasBinary payload.binary.content (generations.sub name) d', fun _ => P, P⟩ d := by
  set S := generations.sub stage with hS
  have hoff : ∀ l : Loc, l.root = .gens → Off (Watched env) l := fun l hl =>
    off_of_root (by rw [hl]; exact nofun) (by rw [hl]; exact nofun)
  -- Once the binary is there, every further entry lies apart from it.
  have hkept : Stable (Watched env ∪ {binary S}) fun d' => P d' ∧ HasBinary payload.binary.content S d' :=
    fun d1 d2 h hk => ⟨hP _ _ h.1 (hk.mono Set.subset_union_left), h.2.stable _ _ (hk.mono Set.subset_union_right)⟩
  have hquiet : ∀ x, x ≠ ascii "bin" → Off (Watched env ∪ {binary S}) (S.sub x) := fun x hx =>
    (hoff _ rfl).union fun k hk => hk ▸ apart_binary hx
  refine wp_check_bind (fun _ => ?_) fun _ => hd
  refine ((hP.maintains fun _ => keep_directory (hoff _ rfl)) d hd).seq (fun _ d1 h1 => ?_) (fun _ _ h => h) fun _ h => h
  refine (wp_create hP (hoff _ rfl) h1).seq ?_ (fun _ _ h => h) fun _ h => h
  rintro _ d2 ⟨h2, a, es, es', b, -, ha, hbin, hfile, -⟩
  have h2' : P d2 ∧ HasBinary payload.binary.content S d2 := by
    refine ⟨h2, b, ?_⟩
    unfold binary
    rw [Disk.find_sub hbin ha, hfile]
    rfl
  refine wp_check_bind (fun _ => ?_) fun _ => h2
  refine ((hkept.maintains fun _ => keep_stagePointer (hquiet _ (by decide))) d2 h2').seq (fun _ d3 h3 => ?_)
    (fun _ _ h => h.1) fun _ h => h.1
  refine wp_call_bind h3.1 (fun _ => h3.1) fun d4 hc => ?_
  have h4 : P d4 ∧ HasBinary payload.binary.content S d4 := ⟨hP _ _ h3.1 (.chmod (hoff _ rfl) hc), h3.2.chmod hc⟩
  refine ((hkept.maintains fun _ => keep_stagePrevious (hquiet _ (by decide))) d4 h4).seq (fun _ d5 h5 => ?_)
    (fun _ _ h => h.1) fun _ h => h.1
  refine wp_query_bind (fun marker _ => ?_) fun _ _ => h5.1
  refine ((hkept.maintains fun _ => keep_create (hquiet MARKER (by decide))) d5 h5).seq (fun _ d6 h6 => ?_)
    (fun _ _ h => h.1) fun _ h => h.1
  refine wp_check_bind (fun _ => ?_) fun _ => h6.1
  refine wp_call h6.1 (fun _ => h6.1) fun d7 hr => ⟨hP _ _ h6.1 (.renameExcl (hoff _ rfl) (hoff _ rfl) hr), ?_⟩
  obtain ⟨n, hn, -, rfl⟩ := Disk.renameExcl_eq_ok hr
  exact h6.2.move hn

theorem wp_publishGeneration {P : Disk → Prop} (hP : Stable (Watched env) P) (hd : P d) :
    wp (publishGeneration env payload previous)
      ⟨fun name d' => P d' ∧ HasBinary payload.binary.content (generations.sub name) d', fun _ => P, P⟩ d := by
  refine wp_bind (wp_temporary hd (fun _ => hd) fun s d1 _ h1 => ?_)
  have hoff : Off (Watched env) (generations.sub (ascii ".staging." ++ s)) := off_gens
  have hd1 : P d1 := hP _ _ hd (.place hoff h1)
  refine (wp_stageGeneration hP hd1).catch (fun _ d2 h2 => ?_) (fun e d2 h2 => ?_) fun _ h => h
  · refine wp_check_bind (fun _ => ?_) fun _ => h2.1
    exact wp_query_bind (fun _ _ => wp_pure h2) fun _ _ => h2.1
  · exact ((hP.maintains fun _ => (keep_removeDirAll hoff).ignore) d2 h2).seq (fun _ _ h => wp_fail h) (fun _ _ h => h)
      fun _ h => h

/-! ## Recording the target and switching the link -/

/-- The new generation is published but not recorded yet. -/
def Published (env : Env) (u : Change) (payload : Payload) (name : Name) (d : Disk) : Prop :=
  Active env u none d ∧ HasBinary payload.binary.content (generations.sub name) d

theorem Published.stable {name : Name} : Stable (All env) (Published env u payload name) := fun _ _ hd h =>
  ⟨hd.1.keep h, hd.2.stable _ _ (h.mono fun _ hl => Or.inr ⟨name, hl⟩)⟩

/-- The target becomes part of the journal by one rename. -/
theorem Published.record {name : Name} {stage : Name} {a : Attr} (hd : Published env u payload name d)
    (hu : u.host = some payload) (hoff : Off (All env) (env.cacheDir.sub stage)) :
    Active env u (some (targetOf env name))
      (d.move (env.cacheDir.sub stage) (env.journal.sub (ascii "new-target"))
        (.file a (targetOf env name ++ [newline]))) := by
  set d' := d.move (env.cacheDir.sub stage) (env.journal.sub (ascii "new-target"))
    (.file a (targetOf env name ++ [newline])) with hd'
  have hk : Keep (All env \ {env.journal}) d d' := .move (hoff.mono Set.sdiff_subset) (off_journal.sub _)
  obtain ⟨b, es, hj, hfiles⟩ := hd.1.journal
  have hjournal : d'.find env.journal = .ok (.dir b (Dir.set es (ascii "new-target")
      (some (.file a (targetOf env name ++ [newline]))))) := by
    rw [hd']
    unfold Disk.move
    rw [← Disk.find_alter_of_apart (f := fun _ => none) (hoff _ mem_journal)] at hj
    exact Disk.find_alter_sub hj
  have hother : ∀ {x : String} {c : Bytes}, ascii "new-target" ≠ ascii x → HasFile es x c → HasFile (Dir.set es
      (ascii "new-target") (some (.file a (targetOf env name ++ [newline])))) x c := by
    rintro x c hx ⟨f, hf⟩
    exact ⟨f, (Dir.get_set_ne hx _ _).trans hf⟩
  have hlink : d'.find link = d.find link := hk.apart mem_link link_apart_journal
  have hsel : d'.find env.selection = d.find env.selection := hk.apart mem_selection journal_apart_selection.symm
  refine ⟨⟨b, _, hjournal, ?_⟩, ?_, Or.inl ?_, hd.1.selection.imp (·.of_eq hsel) (·.of_eq hsel),
    hk.completed (Or.inl rfl) hd.1.notCompleted⟩
  · exact ⟨hother (by decide) hfiles.state, hother (by decide) hfiles.oldTarget, hfiles.plain,
      hother (by decide) hfiles.newSelection, fun c hc => hother (by decide) (hfiles.previous c hc),
      ⟨a, Dir.get_set_self _ _ _⟩⟩
  · rintro target ht
    obtain rfl := Option.some.inj ht
    obtain ⟨f, hf⟩ := hd.2
    exact ⟨payload, hu, name, f, rfl, ((hk.binaries (by simp [Env.journal, Env.cacheDir, Loc.sub])) _ ⟨name, rfl⟩).trans hf⟩
  · unfold HasLink
    rw [hlink]
    exact hd.1.link.resolve_right (by simp)

theorem targetName_targetOf (name : Name) : targetName env (targetOf env name) = some name := by
  unfold targetName targetOf
  have h1 : stripPrefix (env.roots.datadir ++ ascii "/.hamn-generations/")
      (env.roots.datadir ++ ascii "/.hamn-generations/" ++ name ++ ascii "/bin/hamn") =
      some (name ++ ascii "/bin/hamn") := stripPrefix_eq_some.mpr (by simp only [List.append_assoc])
  rw [h1]
  exact stripSuffix_eq_some.mpr rfl

/-- The journal names the new generation or does not yet. -/
def Recording (env : Env) (u : Change) (payload : Payload) (name : Name) (d : Disk) : Prop :=
  Published env u payload name d ∨ Active env u (some (targetOf env name)) d

theorem Recording.stable {name : Name} : Stable (All env) (Recording env u payload name) := fun _ _ hd h =>
  hd.imp (fun hd => Published.stable _ _ hd h) fun hd => hd.keep h

theorem wp_recordTarget {name : Name} (hd : Published env u payload name d) (hu : u.host = some payload) :
    wp (recordTarget env (targetOf env name))
      ⟨fun _ => Active env u (some (targetOf env name)), fun _ => Recording env u payload name,
        Recording env u payload name⟩ d := by
  refine wp_query_bind (fun generation hg => ?_) fun _ _ => Or.inl hd
  unfold targetGeneration at hg
  rw [targetName_targetOf] at hg
  obtain rfl := Except.ok.inj hg
  have hquiet : ∀ x, x ≠ ascii "bin" → Off (All env) ((generations.sub name).sub x) := fun x hx => off_generation hx
  refine ((Published.stable.maintains fun _ => keep_recoveryRoot (fun x => hquiet _ (append_ne x (by decide)))
    fun x => hquiet _ (append_ne x (by decide))) d hd).seq (fun _ d1 h1 => ?_) (fun _ _ h => Or.inl h) fun _ h => Or.inl h
  have hpre : ∀ s, Off (All env) (env.cacheDir.sub (ascii ".hamn-target." ++ s)) := fun s =>
    All.plain_off s (by decide) (by decide) (by decide) (by decide)
  refine wp_staged Recording.stable hpre (Or.inl h1) fun s d2 _ hk => ?_
  have h2 : Published env u payload name d2 := Published.stable _ _ h1 hk
  refine wp_bind (wp_writeAll (Or.inl h2) (fun _ => Or.inl h2) (fun _ _ d3 hw => ?_) fun d3 hw => ?_)
  · exact Or.inl (Published.stable _ _ h2 (.write (hpre s) hw))
  have h3 : Published env u payload name d3 := Published.stable _ _ h2 (.write (hpre s) hw)
  obtain ⟨a, c, hf, rfl⟩ := Disk.write_eq_ok hw
  refine wp_call_bind (Or.inl h3) (fun _ => Or.inl h3) fun d4 ht => ?_
  obtain rfl := Except.ok.inj ht
  refine wp_call_bind (Or.inl h3) (fun _ => Or.inl h3) fun d5 hr => ?_
  obtain ⟨n, hn, rfl⟩ := Disk.rename_eq_ok hr
  rw [Disk.find_alter_of_found hf] at hn
  obtain rfl := Except.ok.inj hn
  have h5 := h3.record (a := a) hu (hpre s)
  exact wp_check (fun _ => h5) fun _ => Or.inr h5

/-- The link, switched to the recorded target by one rename. -/
theorem wp_publishLink {current : CurrentLink} {target : Bytes} (hd : Active env u (some target) d) :
    wp (publishLink env current target)
      ⟨fun _ => Active env u (some target), fun _ => Active env u (some target), Active env u (some target)⟩ d := by
  refine wp_bind (wp_temporary hd (fun _ => hd) fun s d1 _ he => ?_)
  have hoff : Off (All env) (bindir.sub (ascii ".hamn-link." ++ s)) := off_bindir (append_ne s (by decide))
  have hd1 : Active env u (some target) d1 := hd.keep (.place hoff he)
  set stage := bindir.sub (ascii ".hamn-link." ++ s)
  have hrest : ∀ r, Maintains (Active env u (some target)) (do
      ignore (removeFile (stage.sub (ascii "link")))
      ignore (removeDir stage)
      raise r : Act Unit) := fun r =>
    Active.stable.maintains fun _ => (keep_removeFile (hoff.sub _)).ignore.bind fun _ =>
      (keep_removeDir hoff).ignore.bind fun _ => keep_raise
  refine wp.catch (P := Post.always (Active env u (some target))) ?_ (fun _ d' h => hrest _ d' h)
    (fun _ d' h => hrest _ d' h) fun _ h => h
  refine wp_check_bind (fun _ => ?_) fun _ => hd1
  refine wp_call_bind hd1 (fun _ => hd1) fun d2 h2 => ?_
  have hd2 : Active env u (some target) d2 := hd1.keep (.place (hoff.sub _) h2)
  refine wp_check_bind (fun _ => ?_) fun _ => hd2
  refine wp_bind (wp_barrier hd2 (fun _ => hd2) ?_)
  have hswitch : Active env u (some target)
      (d2.move (stage.sub (ascii "link")) link (.symlink (.mine 0o755) target)) := by
    have happart : (stage.sub (ascii "link")).Apart link := (hoff link mem_link).sub _
    refine hd2.relink (.move ((hoff.sub _).mono Set.sdiff_subset) off_link) (Or.inr ⟨target, rfl, ?_⟩)
    rcases hd2.link with h | ⟨t, -, h⟩
    · exact h.move happart
    · exact h.move happart
  have hnode : ∀ n, d2.find (stage.sub (ascii "link")) = .ok n → n = .symlink (.mine 0o755) target := fun n hn =>
    Except.ok.inj (hn.symm.trans (Disk.find_place h2))
  split
  · refine wp_check_bind (fun _ => ?_) fun _ => hd2
    refine wp_call hd2 (fun _ => hd2) fun d3 hr => ?_
    obtain ⟨n, hn, -, rfl⟩ := Disk.renameExcl_eq_ok hr
    rw [hnode n hn]
    exact hswitch
  · refine wp_check_bind (fun _ => ?_) fun _ => hd2
    refine wp_call hd2 (fun _ => hd2) fun d3 hr => ?_
    obtain ⟨n, hn, rfl⟩ := Disk.rename_eq_ok hr
    rw [hnode n hn]
    exact hswitch

/-- The new generation is active: the link names it and so does the journal. -/
def Switched (env : Env) (u : Change) (d : Disk) : Prop :=
  ∃ recorded, Active env u recorded d ∧ NewLink env u d

/-- The journal is active, whatever it names. -/
def Pending (env : Env) (u : Change) (d : Disk) : Prop := ∃ recorded, Active env u recorded d

theorem Recording.pending {name : Name} (h : Recording env u payload name d) : Pending env u d :=
  h.elim (fun h => ⟨_, h.1⟩) fun h => ⟨_, h⟩

theorem wp_install {attempt : Bytes} (hd : Active env u none d) (hu : u.host = some payload) :
    wp (install env payload (some attempt)) ⟨fun _ => Switched env u, fun _ => Pending env u, Pending env u⟩ d := by
  have hstable : Stable (Watched env) (Active env u none) := fun _ _ hd h => hd.keep_none h
  refine ((hstable.maintains fun _ => keep_prepareInstall) d hd).seq (fun current d1 h1 => ?_)
    (fun _ _ h => ⟨_, h⟩) fun _ h => ⟨_, h⟩
  refine (wp_publishGeneration hstable h1).seq (fun name d2 h2 => ?_) (fun _ _ h => ⟨_, h⟩) fun _ h => ⟨_, h⟩
  have h2' : Published env u payload name d2 := h2
  have hrecord : wp (recordInstall env (some attempt) current.previous (targetOf env name))
      ⟨fun _ => Active env u (some (targetOf env name)), fun _ => Pending env u, Pending env u⟩ d2 :=
    ((Published.stable.maintains fun _ => keep_handoff) d2 h2').seq (fun _ d3 h3 => (wp_recordTarget h3 hu).mono
      (fun _ _ h => h) (fun _ _ h => h.pending) fun _ h => h.pending) (fun _ _ h => ⟨_, h.1⟩) fun _ h => ⟨_, h.1⟩
  refine hrecord.seq (fun _ d4 h4 => ?_) (fun _ _ h => h) fun _ h => h
  refine wp_bind (wp_barrier ⟨_, h4⟩ (fun _ => ⟨_, h4⟩) ?_)
  refine (wp_publishLink h4).seq (fun _ d5 h5 => ?_) (fun _ _ h => ⟨_, h⟩) fun _ h => ⟨_, h⟩
  refine wp_bind (wp_barrier ⟨_, h5⟩ (fun _ => ⟨_, h5⟩) ?_)
  refine wp_check_bind (fun hc => wp_pure ⟨_, h5, ?_⟩) fun _ => ⟨_, h5⟩
  obtain ⟨p, hp, hnew⟩ := h5.isNew _ rfl
  rw [NewLink, hp]
  exact ⟨_, .of_readLink (of_decide_eq_true (Bool.and_eq_true_iff.mp hc).1), hnew⟩

end

/-! ## Between the journaled steps -/

theorem Pending.atomic (h : Pending env u d) : Atomic env u d := Or.inr (Or.inl h)

theorem Switched.pending (h : Switched env u d) : Pending env u d := h.imp fun _ h => h.1

theorem Recovered.atomic (h : Recovered env u d) : Atomic env u d := Or.inl h.1

/-- A rollback and what follows it. -/
theorem wp_undo {α : Type} {f : Except RollbackError String → Step α} {Q : Post Disk Stop α} (hd : Atomic env u d)
    (hf : ∀ r d', Atomic env u d' → wp (f r) Q d') (hstop : ∀ d', Atomic env u d' → Q.stopped d') :
    wp (rollback env >>= f) Q d := by
  refine (wp_rollback_atomic hd).seq (fun r d' hr => hf r d' ?_) (fun _ _ h => h.elim) fun d' h => hstop d' h
  cases r with
  | ok s => exact Recovered.atomic hr
  | error e => exact hr

section

variable {α : Type} {R : α → Disk → Prop}

theorem wp_interrupted {signal : ℕ} (hd : Atomic env u d) :
    wp (interrupted env signal) ⟨R, fun _ => Atomic env u, Atomic env u⟩ d :=
  wp_undo hd (fun _ _ h => wp_fail h) fun _ h => h

theorem wp_rollBackAndFail {unapplied applied : String} (hd : Atomic env u d) :
    wp (rollBackAndFail env unapplied applied) ⟨R, fun _ => Atomic env u, Atomic env u⟩ d := by
  refine wp_undo hd (fun r d' h => ?_) fun _ h => h
  cases r with
  | ok s => exact wp_fail h
  | error e => exact wp_fail h

end

section

variable {P : Disk → Prop}

theorem wp_checkpoint (hP : ∀ d, P d → Atomic env u d) (hd : P d) :
    wp (checkpoint env) ⟨fun _ => P, fun _ => Atomic env u, Atomic env u⟩ d := by
  refine wp_bind (wp_step (hP d hd) (fun c a d' h => ?_) fun c e d' h => ?_)
  · obtain ⟨-, rfl⟩ := Prod.mk.inj h
    cases a with
    | none => exact wp_pure hd
    | some signal => exact wp_interrupted (hP _ hd)
  · cases (Prod.mk.inj h).1

theorem wp_journaledBarrier {unapplied applied : String} (hP : ∀ d, P d → Atomic env u d) (hd : P d) :
    wp (journaledBarrier env unapplied applied) ⟨fun _ => P, fun _ => Atomic env u, Atomic env u⟩ d := by
  refine wp.catch (P := Post.always P) (wp_barrier hd (fun _ => hd) hd) (fun _ d' h => wp_checkpoint hP h)
    (fun e d' h => ?_) hP
  split
  · rename_i he
    cases he
  · exact wp_interrupted (hP d' h)
  · exact wp_rollBackAndFail (hP d' h)

theorem wp_selectionBarrier (hP : ∀ d, P d → Atomic env u d) (hd : P d) :
    wp (selectionBarrier env) ⟨fun _ => P, fun _ => Atomic env u, Atomic env u⟩ d := by
  refine wp.catch (P := Post.always P) (wp_barrier hd (fun _ => hd) hd) (fun _ d' h => wp_checkpoint hP h)
    (fun e d' h => ?_) hP
  split
  · rename_i he
    cases he
  · exact wp_interrupted (hP d' h)
  · refine wp_undo (hP d' h) (fun r d2 h2 => ?_) fun _ h => h
    cases r with
    | ok s => exact wp_fail h2
    | error e => exact wp_fail h2

theorem wp_orRollBack {m : Act Unit} {unapplied applied : String} {P' : Disk → Prop}
    (hP : ∀ d, P d → Atomic env u d) (hm : wp m ⟨fun _ => P', fun _ => P, P⟩ d) :
    wp (orRollBack env m unapplied applied) ⟨fun _ => P', fun _ => Atomic env u, Atomic env u⟩ d :=
  hm.catch (fun _ _ h => wp_pure h) (fun _ d' h => wp_rollBackAndFail (hP d' h)) hP

end

/-! ## Committing -/

theorem Switched.stable : Stable (All env) (Switched env u) := by
  rintro d d' ⟨recorded, hd, hl⟩ h
  exact ⟨recorded, hd.keep h, hl.keep h⟩

theorem keep_writeReceipt {d₀ : Disk} {payload : Payload} {receipt : Bytes} :
    Maintains (Keep (All env) d₀) (writeReceipt env payload receipt) := by
  intro d hd
  refine wp_query_bind (fun installed _ => ?_) fun _ _ => hd
  refine (keep_touch d hd).seq (fun _ d1 h1 => ?_) (fun _ _ h => h) fun _ h => h
  refine wp_query_bind (fun generation hg => ?_) fun _ _ => h1
  unfold targetGeneration at hg
  split at hg
  · obtain rfl := Except.ok.inj hg
    refine keep_publish (fun x => ?_) (off_generation (by decide)) d1 h1
    rw [parent_sub]
    exact off_generation (append_ne x (by decide))
  · cases hg

theorem wp_installHost {payload : Payload} {receipt attempt : Bytes} (hd : Active env u none d)
    (hu : u.host = some payload) :
    wp (installHost env payload receipt attempt) ⟨fun _ => Switched env u, fun _ => Atomic env u, Atomic env u⟩ d := by
  have hatomic : ∀ d, Switched env u d → Atomic env u d := fun _ h => h.pending.atomic
  have hinstall : wp (installJournaled env payload attempt)
      ⟨fun _ => Switched env u, fun _ => Atomic env u, Atomic env u⟩ d := by
    refine (wp_install hd hu).catch (fun _ _ h => wp_pure h) (fun e d' h => ?_) fun _ h => h.atomic
    split
    · rename_i he
      cases he
    · exact wp_interrupted h.atomic
    · exact wp_rollBackAndFail h.atomic
  refine hinstall.seq (fun _ d1 h1 => ?_) (fun _ _ h => h) fun _ h => h
  refine (wp_checkpoint hatomic h1).seq (fun _ d2 h2 => ?_) (fun _ _ h => h) fun _ h => h
  refine (wp_journaledBarrier hatomic h2).seq (fun _ d3 h3 => ?_) (fun _ _ h => h) fun _ h => h
  have hreceipt : wp (receiptJournaled env payload receipt)
      ⟨fun _ => Switched env u, fun _ => Atomic env u, Atomic env u⟩ d3 := by
    refine ((Switched.stable.maintains fun _ => keep_writeReceipt) d3 h3).catch (fun _ _ h => wp_pure h)
      (fun e d' h => ?_) hatomic
    refine wp_undo (hatomic d' h) (fun r d2 h2 => ?_) fun _ h => h
    cases r with
    | ok s => exact wp_fail h2
    | error e => exact wp_fail h2
  exact hreceipt.seq (fun _ d4 h4 => wp_checkpoint hatomic h4) (fun _ _ h => h) fun _ h => h

/-- The link and the selection are new; only the journal is still there. -/
def Committed (env : Env) (u : Change) (d : Disk) : Prop :=
  ∃ recorded, Active env u recorded d ∧ NewLink env u d ∧ HasSelection env d (some u.newSelection)

theorem wp_commitSelection (hd : Switched env u d) :
    wp (commitSelection env) ⟨fun _ => Committed env u, fun _ => Switched env u, Switched env u⟩ d := by
  obtain ⟨recorded, hactive, hlink⟩ := hd
  refine wp_check_bind (fun _ => ?_) fun _ => ⟨recorded, hactive, hlink⟩
  have hstable : Stable (All env) fun d => Active env u recorded d ∧ NewLink env u d :=
    fun _ _ hd h => ⟨hd.1.keep h, hd.2.keep h⟩
  have hread : ∀ c, read d (env.journal.sub (ascii "new-selection")) = .ok c → c = u.newSelection := by
    intro c hc
    obtain ⟨a, es, hj, hfiles⟩ := hactive.journal
    obtain ⟨b, hb, -⟩ := read_eq_ok hc
    obtain ⟨b', hb'⟩ := hfiles.newSelection
    exact (Node.file.inj (Option.some.inj ((Disk.get_of_find_sub hj hb).1.symm.trans hb'))).2
  refine (wp_installSelection hstable ⟨hactive, hlink⟩
    (fun s => All.plain_off s (by decide) (by decide) (by decide) (by decide)) ?_).mono ?_
    (fun _ _ h => ⟨recorded, h⟩) fun _ h => ⟨recorded, h⟩
  · rintro c d1 d2 hc ⟨h1, hl1⟩ hk hs
    rw [hread c hc] at hs
    refine ⟨h1.select hk (Or.inr hs), ?_⟩
    have hl : d2.find link = d1.find link := hk.apart mem_link (Loc.apart_of_root nofun)
    exact hl1.of_eq hl (hk.binaries (by simp [Env.selection, Env.cacheDir, Loc.sub]))
  · rintro _ d' ⟨⟨h1, h2⟩, c, hc, hs⟩
    rw [hread c hc] at hs
    exact ⟨recorded, h1, h2, hs⟩

theorem wp_retireCompleted (hd : Committed env u d) :
    wp (retire env .completed) ⟨fun _ => New env u, fun _ => Pending env u, Pending env u⟩ d := by
  obtain ⟨recorded, hactive, hlink, hsel⟩ := hd
  refine (wp_retire hactive).mono ?_ (fun _ _ h => ⟨_, h⟩) fun _ h => ⟨_, h⟩
  rintro _ d' ⟨hno, -, hkeep, -⟩
  exact ⟨hno, hlink.of_eq (hkeep _ (Or.inl (Or.inr rfl))) (hkeep.mono Set.subset_union_right),
    hsel.of_eq (hkeep _ (Or.inl (Or.inl rfl)))⟩

theorem wp_commit {host : Option (Payload × Bytes)} {attempt : Bytes} (hd : Active env u none d)
    (hu : u.host = host.map Prod.fst) :
    wp (commit env host attempt) ⟨fun _ => New env u, fun _ => Atomic env u, Atomic env u⟩ d := by
  have hswitched : ∀ d, Switched env u d → Atomic env u d := fun _ h => h.pending.atomic
  have hcommitted : ∀ d, Committed env u d → Atomic env u d := fun _ h => Or.inr (Or.inl (h.imp fun _ h => h.1))
  have hactive : ∀ d, Active env u none d → Atomic env u d := fun _ h => Or.inr (Or.inl ⟨_, h⟩)
  refine (wp_journaledBarrier hactive hd).seq (fun _ d1 h1 => ?_) (fun _ _ h => h) fun _ h => h
  have hhost : wp (hostJournaled env host attempt) ⟨fun _ => Switched env u, fun _ => Atomic env u, Atomic env u⟩ d1 := by
    cases host with
    | none =>
      refine wp_pure ⟨none, h1, ?_⟩
      rw [NewLink, hu]
      exact h1.link.elim id nofun
    | some h => exact wp_installHost h1 hu
  refine hhost.seq (fun _ d2 h2 => ?_) (fun _ _ h => h) fun _ h => h
  refine (wp_orRollBack hswitched (wp_commitSelection h2)).seq (fun _ d3 h3 => ?_) (fun _ _ h => h) fun _ h => h
  refine (wp_checkpoint hcommitted h3).seq (fun _ d4 h4 => ?_) (fun _ _ h => h) fun _ h => h
  refine (wp_selectionBarrier hcommitted h4).seq (fun _ d5 h5 => ?_) (fun _ _ h => h) fun _ h => h
  exact wp_orRollBack (fun _ h => Pending.atomic h) (wp_retireCompleted h5)

/-! ## Cleaning up -/

theorem wp_named {pre : String} {Q : Post Disk Failure (List Name)} (herr : ∀ e, Q.error e d)
    (hok : ∀ names : List Name, (∀ x ∈ names, ∃ s, x = ascii pre ++ s) → Q.ok names d) : wp (named env pre) Q d := by
  refine wp_query_bind (fun names _ => wp_pure (hok _ fun x hx => ?_)) fun e _ => herr e
  rw [List.mem_insertionSort, List.mem_filter, Bool.and_eq_true, List.isPrefixOf_iff_prefix] at hx
  obtain ⟨s, hs⟩ := hx.2.2
  exact ⟨s, hs.symm⟩

theorem keep_removeDeferred {S : Set Loc} {d₀ : Disk} {l : Loc} (h : Off S l) :
    Maintains (Keep S d₀) (removeDeferred l) :=
  keep_check.bind fun _ => Maintains.query.bind fun _ => keep_check.bind fun _ =>
    (Maintains.each (fun _ => keep_removeOptional (h.sub _)) _).bind fun _ => keep_removeDir h

theorem off_cleanup (s : Bytes) : Off (All env) (env.cacheDir.sub (ascii ".hamn-update-cleanup." ++ s)) :=
  All.plain_off s (by decide) (by decide) (by decide) (by decide)

theorem wp_cleanupDeferred {P : Disk → Prop} (hP : Stable (All env) P) : Maintains P (cleanupDeferred env) := by
  intro d hd
  refine wp_bind (wp_named (fun _ => hd) fun names hnames => ?_)
  refine wp_each (fun l d' => P d' ∧ ∀ x ∈ l, ∃ s, x = ascii ".hamn-update-cleanup." ++ s) ?_ (fun _ h => h.1) names d
    ⟨hd, hnames⟩
  rintro x l d' ⟨hd', hl⟩
  obtain ⟨s, rfl⟩ := hl x (by simp)
  refine wp_check_bind (fun _ => ?_) fun _ => hd'
  exact ((hP.maintains fun _ => keep_removeDeferred (off_cleanup s)) d' hd').mono
    (fun _ _ h => ⟨h, fun y hy => hl y (by simp [hy])⟩) (fun _ _ h => h) fun _ h => h

/-- A retired journal may disappear. -/
def Forgets (env : Env) (P : Disk → Prop) : Prop :=
  ∀ d x n, (∃ outcome a, x = retiredName outcome a) → d.find (env.cacheDir.sub x) = .ok n → P d →
    P (d.alter (env.cacheDir.sub x) fun _ => none)

theorem retiredName_apart (outcome : Ending) (a : Bytes) {k : Loc} (hk : k ∈ All env)
    (hc : ∀ x, completedPrefix <+: x → k ≠ env.cacheDir.sub x) :
    (env.cacheDir.sub (retiredName outcome a)).Apart k := by
  rcases hk with ((rfl | rfl | rfl) | ⟨y, hy, rfl⟩) | ⟨name, rfl⟩
  · exact Loc.apart_of_ne (retiredName_ne outcome a)
  · refine Loc.apart_of_ne ?_
    cases outcome with
    | completed => exact append_ne _ (by decide)
    | recovered => exact append_ne _ (by decide)
  · exact Loc.apart_of_root nofun
  · exact absurd rfl (hc y hy)
  · exact Loc.apart_of_root nofun

/-- What is left of the watched locations when a retired journal disappears. -/
theorem keep_forget {x : Name} {outcome : Ending} {a : Bytes} (hx : x = retiredName outcome a) :
    Keep ({env.journal} ∪ Installed env) d (d.alter (env.cacheDir.sub x) fun _ => none) := by
  subst hx
  refine .alter fun k hk => retiredName_apart outcome a ?_ fun y hy he => ?_
  · rcases hk with rfl | (rfl | rfl) | ⟨name, rfl⟩
    · exact mem_journal
    · exact mem_selection
    · exact mem_link
    · exact Or.inr ⟨name, rfl⟩
  · rcases hk with rfl | (rfl | rfl) | ⟨name, rfl⟩
    all_goals
      try rw [← (List.cons.inj (Loc.mk.inj he).2).1, ← List.isPrefixOf_iff_prefix] at hy
      first
      | exact absurd hy (by decide)
      | exact nomatch (Loc.mk.inj he).1

theorem Old.forgets : Forgets env (Old env u) := by
  rintro d x n ⟨outcome, a, hx⟩ hn hd
  have hk := @keep_forget env d _ _ _ hx
  have hl : (d.alter (env.cacheDir.sub x) fun _ => none).find Install.link = d.find Install.link :=
    hk _ (Or.inr (Or.inl (Or.inr rfl)))
  refine ⟨(hk _ (Or.inl rfl)).trans hd.noJournal, ?_, hd.selection.of_eq (hk _ (Or.inr (Or.inl (Or.inl rfl)))), ?_⟩
  · unfold HasLink
    rw [hl]
    exact hd.link
  · rintro ⟨y, hy, h0, h1⟩
    by_cases hxy : x = y
    · subst hxy
      exact h1 (Disk.find_alter_of_found hn)
    · rw [Disk.find_alter_of_apart (Loc.apart_of_ne hxy)] at h1
      exact hd.notCompleted ⟨y, hy, h0, h1⟩

theorem New.forgets : Forgets env (New env u) := by
  rintro d x n ⟨outcome, a, hx⟩ - hd
  have hk := @keep_forget env d _ _ _ hx
  exact ⟨(hk _ (Or.inl rfl)).trans hd.noJournal,
    hd.link.of_eq (hk _ (Or.inr (Or.inl (Or.inr rfl)))) (hk.mono fun _ h => Or.inr (Or.inr h)),
    hd.selection.of_eq (hk _ (Or.inr (Or.inl (Or.inl rfl))))⟩

theorem New.stable : Stable (All env) (New env u) := fun _ _ hd h =>
  have hw := h.mono Set.subset_union_left
  ⟨hw.journal.trans hd.noJournal, hd.link.keep h, hw.hasSelection hd.selection⟩

theorem wp_cleanupOne {ε : Type} {P : Disk → Prop} (hP : Stable (All env) P) (hF : Forgets env P) {x : Name}
    (hx : ∃ outcome a, x = retiredName outcome a) (hd : P d) :
    wp (cleanupOne (ε := ε) env x) (Post.always P) d := by
  unfold cleanupOne
  split
  · exact wp_pure hd
  · rename_i outcome attempt _
    refine wp_look_bind ?_
    split
    · exact wp_pure hd
    · exact wp_pure hd
    · refine wp_look_bind ?_
      split_ifs
      · have hoff : Off (All env) (env.cacheDir.sub (cleanupName outcome attempt)) := by
          unfold cleanupName
          rw [List.append_assoc, List.append_assoc]
          exact off_cleanup _
        refine wp.catch (P := Post.always P) ?_ (fun _ _ h => wp_pure h) (fun _ _ h => wp_pure h) fun _ h => h
        refine wp_call_bind hd (fun _ => hd) fun d' hr => ?_
        obtain ⟨n, hn, -, rfl⟩ := Disk.renameExcl_eq_ok hr
        exact (hP.maintains fun _ => keep_removeDeferred hoff) _ (hP _ _ (hF d x n hx hn hd) (.alter hoff))
      · exact wp_pure hd

theorem wp_cleanupEach {ε : Type} {P : Disk → Prop} (hP : Stable (All env) P) (hF : Forgets env P) :
    ∀ (names : List Name) (d : Disk), (∀ x ∈ names, ∃ outcome a, x = retiredName outcome a) → P d →
      wp (cleanupEach (ε := ε) env names) (Post.always P) d
  | [], d, _, hd => wp_pure hd
  | x :: names, d, hx, hd => by
    refine (wp_cleanupOne hP hF (hx x (by simp)) hd).seq (fun r d' h => ?_) (fun _ _ h => h) fun _ h => h
    cases r with
    | ok _ => exact wp_cleanupEach hP hF names d' (fun y hy => hx y (by simp [hy])) h
    | error e => exact wp_pure h

theorem wp_cleanupRetired {ε : Type} {P : Disk → Prop} (hP : Stable (All env) P) (hF : Forgets env P) :
    Maintains P (cleanupRetired (ε := ε) env) := by
  intro d hd
  refine wp.catch (P := ⟨fun names d' => d' = d ∧ ∀ x ∈ names, ∃ outcome a, x = retiredName outcome a,
    fun _ d' => d' = d, fun d' => d' = d⟩) ?_ ?_ ?_ ?_
  · refine wp_bind (wp_named (fun _ => rfl) fun completed hc => ?_)
    refine wp_bind (wp_named (fun _ => rfl) fun recovered hr => wp_pure ⟨rfl, fun x hx => ?_⟩)
    rcases List.mem_append.mp hx with hx | hx
    · obtain ⟨s, rfl⟩ := hc x hx
      exact ⟨.completed, s, rfl⟩
    · obtain ⟨s, rfl⟩ := hr x hx
      exact ⟨.recovered, s, rfl⟩
  · rintro names _ ⟨rfl, hx⟩
    exact wp_cleanupEach hP hF names _ hx hd
  · rintro _ _ rfl
    exact wp_pure hd
  · rintro _ rfl
    exact hd

theorem wp_finish (hd : New env u d) : wp (finish env) (Post.always (New env u)) d := by
  have hbarrier : wp (orFail barrier "update completion barrier failed; the completed transaction is safely retired")
      (Post.always (New env u)) d :=
    (wp_barrier (Q := Post.always (New env u)) hd (fun _ => hd) hd).catch (fun _ _ h => wp_pure h)
      (fun _ _ h => wp_fail h) fun _ h => h
  refine hbarrier.seq (fun _ d1 h1 => ?_) (fun _ _ h => h) fun _ h => h
  refine (wp_cleanupRetired New.stable New.forgets d1 h1).seq (fun _ d2 h2 => ?_) (fun _ _ h => h) fun _ h => h
  exact (wp_cleanupDeferred New.stable d2 h2).catch (fun _ _ h => wp_pure h) (fun _ _ h => wp_pure h) fun _ h => h

end

end Hamn.Install
