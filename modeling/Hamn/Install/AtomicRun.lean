import Hamn.Install.AtomicUpdate

/-!
# Install.AtomicRun — a whole update and the rollbacks after it

The transaction of `Install.Update`, stopped anywhere, and then any number of rollbacks, each stopped anywhere: the
command link and the guest image selection are both the previous ones, or both the new ones, or a journal is there
that any rollback which returns has used to restore the previous ones.
-/

namespace Hamn.Install

open Posix Crash Bytes Result
open Crash.Proc hiding attempt pure bind

/-- What an update changes, from what the environment decides. -/
def Decision.change (start : Disk) (old : Bytes) (previous : Option Bytes) : Decision → Change
  | .install host _ guestHash => ⟨start, old, previous, host.map Prod.fst, selectionText guestHash⟩
  | _ => ⟨start, old, previous, none, []⟩

section

variable {env : Env} {u : Change} {d : Disk}

/-! ## Before the journal -/

theorem keep_checkStep {S : Set Loc} {d₀ : Disk} {p : Disk → Bool} {message : String} :
    Maintains (Keep S d₀) (checkStep p message) := Maintains.query

theorem maintains_orFail {I : Disk → Prop} {α : Type} {m : Act α} {message : String} (h : Maintains I m) :
    Maintains I (orFail m message) :=
  h.attempt.bind fun r => by
    cases r with
    | ok a => exact Maintains.pure
    | error e => exact Maintains.fail

theorem off_guest (s : Bytes) : Off (All env) (env.cacheDir.sub (ascii "hamn-guest-" ++ s)) :=
  All.plain_off s (by decide) (by decide) (by decide) (by decide)

theorem off_stagedGuest (s : Bytes) : Off (All env) (env.cacheDir.sub (ascii ".hamn-guest-" ++ s)) :=
  All.plain_off s (by decide) (by decide) (by decide) (by decide)

theorem keep_copyOver {S : Set Loc} {d₀ : Disk} {l : Loc} {c : Bytes} {mode : ℕ} (h : Off S l) :
    Maintains (Keep S d₀) (copyOver l c mode) := by
  refine Maintains.bind ?_ fun _ => (keep_writeAll h).bind fun _ => keep_chmod h
  refine Maintains.look.bind fun b => ?_
  split_ifs
  · exact keep_place h
  · exact Maintains.pure

theorem off_guestName {hash : Bytes} (s : Bytes) : Off (All env) (env.cacheDir.sub (guestName hash ++ s)) := by
  unfold guestName
  rw [List.append_assoc, List.append_assoc]
  exact off_guest _

theorem off_guestTarget {hash : Bytes} : Off (All env) (env.cacheDir.sub (guestName hash)) := by
  rw [← List.append_nil (guestName hash)]
  exact off_guestName []

theorem keep_discardDamaged {d₀ : Disk} {hash : Bytes} :
    Maintains (Keep (All env) d₀) (discardDamaged env (env.cacheDir.sub (guestName hash)) hash) := by
  refine Maintains.look.bind fun b => ?_
  split_ifs
  · exact Maintains.pure
  · refine keep_checkStep.bind fun _ => Maintains.look.bind fun b => ?_
    split_ifs
    · exact Maintains.pure
    · exact maintains_orFail (keep_removeFile off_guestTarget)

theorem keep_copyGuest {d₀ : Disk} {download hash : Bytes} :
    Maintains (Keep (All env) d₀) (copyGuest env (env.cacheDir.sub (guestName hash)) download hash) := by
  refine Maintains.look.bind fun b => ?_
  split_ifs
  · have hstage : Off (All env)
        (env.cacheDir.sub (ascii ".hamn-guest-" ++ hash ++ ascii ".img.update." ++ decimal env.pid)) := by
      rw [List.append_assoc, List.append_assoc]
      exact off_stagedGuest _
    refine (keep_removeFile hstage).ignore.bind fun _ => Maintains.bind (Maintains.attempt ?_) fun r => ?_
    · exact (keep_copyOver hstage).bind fun _ => keep_check.bind fun _ => keep_rename hstage off_guestTarget
    · cases r with
      | ok a => exact Maintains.pure
      | error e => exact (keep_removeFile hstage).ignore.bind fun _ => Maintains.fail
  · exact Maintains.pure

theorem keep_markVerified {d₀ : Disk} {hash : Bytes} : Maintains (Keep (All env) d₀) (markVerified env hash) := by
  intro d hd
  have hstage : ∀ s, Off (All env) (env.cacheDir.sub (ascii ".hamn-guest-" ++ hash ++ ascii ".img.verified." ++ s)) := by
    intro s
    rw [List.append_assoc, List.append_assoc]
    exact off_stagedGuest _
  refine wp_bind (wp_temporary_keep hstage hd hd (fun _ => hd) fun s d1 _ h1 => ?_)
  refine Maintains.bind (Maintains.attempt ?_) (fun r => ?_) d1 h1
  · exact (keep_writeAll (hstage s)).bind fun _ => (keep_chmod (hstage s)).bind fun _ =>
      keep_rename (hstage s) (off_guestName _)
  · cases r with
    | ok a => exact Maintains.pure
    | error e => exact (keep_removeFile (hstage s)).ignore.bind fun _ => Maintains.fail

/-- Staging the guest image yields the selection that names it. -/
theorem wp_stageGuest {P : Disk → Prop} {download hash : Bytes} (hP : Stable (All env) P) (hd : P d) :
    wp (stageGuest env download hash) ⟨fun c d' => c = selectionText hash ∧ P d', fun _ => P, P⟩ d := by
  refine ((hP.maintains fun _ => keep_discardDamaged) d hd).seq (fun _ d1 h1 => ?_) (fun _ _ h => h) fun _ h => h
  refine ((hP.maintains fun _ => keep_copyGuest) d1 h1).seq (fun _ d2 h2 => ?_) (fun _ _ h => h) fun _ h => h
  refine wp_bind (wp_query (fun _ _ => wp_bind (wp_query (fun _ _ => ?_) fun _ _ => h2)) fun _ _ => h2)
  exact ((hP.maintains fun _ => maintains_orFail keep_markVerified) d2 h2).seq (fun _ _ h => wp_pure ⟨rfl, h⟩)
    (fun _ _ h => h) fun _ h => h

theorem keep_acquireAll {d₀ : Disk} {host : Option (Payload × Bytes)} {trees : Option Node × Option Node} :
    Maintains (Keep (All env) d₀) (acquireAll env host trees) := by
  have hacquire : ∀ tree, Maintains (Keep (All env) d₀) (acquire env tree) := fun tree =>
    Maintains.step fun c d hd => hd.trans (.alter (Plain.off ⟨by decide, by decide, by decide⟩))
  unfold acquireAll
  cases host with
  | none => exact hacquire _
  | some h => exact (hacquire _).bind fun _ => hacquire _

/-- A cache directory that is made new holds nothing. -/
theorem Old.createCache {a : Attr} (hd : Old env u d) (ha : a.searchable = true) (hnone : d (.cache env.cache) = none) :
    Old env u (Function.update d (.cache env.cache) (some (.dir a []))) := by
  have hfind : ∀ x, Disk.find (Function.update d (.cache env.cache) (some (.dir a []))) (env.cacheDir.sub x) =
      .error .noent := by
    intro x
    unfold Disk.find Env.cacheDir Loc.sub
    simp only [Function.update_self, List.nil_append, Node.find, ha, if_true]
    rfl
  have hbefore : ∀ x, d.find (env.cacheDir.sub x) = .error .noent := by
    intro x
    unfold Disk.find Env.cacheDir Loc.sub
    simp only [hnone, List.nil_append, Node.find]
  have hlink : Disk.find (Function.update d (.cache env.cache) (some (.dir a []))) Install.link = d.find Install.link := by
    unfold Disk.find
    rw [Function.update_of_ne (show Install.link.root ≠ .cache env.cache by simp [Install.link, bindir, Loc.sub])]
  refine ⟨hfind _, ?_, hd.selection.of_eq ((hfind _).trans (hbefore _).symm), ?_⟩
  · unfold HasLink
    rw [hlink]
    exact hd.link
  · rintro ⟨x, -, -, hx⟩
    exact hx (hfind x)

theorem wp_runtimeDirectory (hd : Old env u d) : wp (runtimeDirectory env) (Post.always (Old env u)) d := by
  have hcreate : wp (createCache env) (Post.always (Old env u)) d := by
    refine wp_look_bind ?_
    split_ifs
    · exact wp_pure hd
    · refine wp_ignore ?_
      refine wp_call_bind hd (fun _ => hd) fun d1 h1 => ?_
      obtain ⟨hnone, rfl⟩ := Disk.place_eq_ok h1
      have hroot : d (.cache env.cache) = none := by
        change Node.find [] (d (.cache env.cache)) = _ at hnone
        cases hn : d (.cache env.cache) with
        | none => rfl
        | some n =>
          rw [hn] at hnone
          cases hnone
      have hopen : (Attr.mine 0o755).searchable = true := by decide
      have hd1 := hd.createCache hopen hroot
      refine wp_call hd1 (fun _ => hd1) fun d2 h2 => ?_
      obtain ⟨n, hn, rfl⟩ := Disk.chmod_eq_ok h2
      obtain rfl : Node.dir (.mine 0o755) [] = n := by
        change Node.find [] (Function.update d (.cache env.cache) _ (.cache env.cache)) = _ at hn
        rw [Function.update_self] at hn
        exact Except.ok.inj hn
      change Old env u (Function.update (Function.update d (.cache env.cache) _) (.cache env.cache) _)
      rw [Function.update_idem]
      exact hd1
  exact hcreate.seq (fun _ d1 h1 => wp_query (fun _ _ => h1) fun _ _ => h1) (fun _ _ h => h) fun _ h => h

theorem wp_recover (hd : Old env u d) : wp (recover env) (Post.always (Old env u)) d := by
  have hstable : Stable (All env) (Old env u) := Old.stable.mono Set.subset_union_left
  have hdeferred : ∀ message, Maintains (Old env u) (orFail (cleanupDeferred env) message) := fun _ =>
    maintains_orFail (wp_cleanupDeferred hstable)
  have hretired := wp_cleanupRetired (ε := Stop) hstable (Old.forgets (u := u))
  refine (hdeferred _ d hd).seq (fun _ d1 h1 => ?_) (fun _ _ h => h) fun _ h => h
  have hfirst : Maintains (Old env u) (recoverRetired env) := hretired.bind fun r => by
    split
    · exact Maintains.pure
    · exact Maintains.fail
    · exact Maintains.fail
  refine (hfirst d1 h1).seq (fun _ d2 h2 => ?_) (fun _ _ h => h) fun _ h => h
  have hpending : wp (recoverPending env) (Post.always (Old env u)) d2 := by
    refine wp_look_bind ?_
    rw [if_pos (absent_iff.mpr h2.noJournal)]
    exact wp_pure h2
  refine hpending.seq (fun _ d3 h3 => ?_) (fun _ _ h => h) fun _ h => h
  have hsecond : Maintains (Old env u) (recoverRecovered env) := hretired.bind fun r => by
    split
    · exact Maintains.pure
    · exact Maintains.fail
  exact (hsecond d3 h3).seq (fun _ d4 h4 => hdeferred _ d4 h4) (fun _ _ h => h) fun _ h => h

/-- The installation that an update finds is the link's. -/
theorem refresh_eq {bootstrap : Bool} {i : Installation} {old : Bytes} (hl : HasLink d old)
    (h : refresh env bootstrap d = .ok i) : i = ⟨false, some old⟩ := by
  obtain ⟨a, ha⟩ := hl
  have hpresent : absent d link = false := by
    unfold absent
    rw [ha]
  unfold refresh at h
  rw [hpresent, Bool.and_false, if_neg (by decide)] at h
  obtain ⟨-, h⟩ := else_of_eq h fun hx => by cases hx
  unfold refreshManaged at h
  obtain ⟨-, h⟩ := else_of_eq h fun hx => by cases hx
  obtain ⟨-, h⟩ := else_of_eq h fun hx => by cases hx
  obtain ⟨-, h⟩ := else_of_eq h fun hx => by cases hx
  split at h
  · cases h
  obtain ⟨-, h⟩ := else_of_eq h fun hx => by cases hx
  obtain ⟨-, h⟩ := else_of_eq h fun hx => by cases hx
  obtain ⟨-, h⟩ := else_of_eq h fun hx => by cases hx
  split at h
  · cases h
  rename_i target htarget
  obtain ⟨-, h⟩ := else_of_eq h fun hx => by cases hx
  obtain ⟨-, h⟩ := else_of_eq h fun hx => by cases hx
  obtain ⟨b, hb⟩ := HasLink.of_readLink htarget
  obtain ⟨-, rfl⟩ := Node.symlink.inj (Except.ok.inj (hb.symm.trans ha))
  exact (Except.ok.inj h).symm

/-! ## The whole update -/

/-- What an update that returns has done. -/
def Decision.Done (env : Env) (u : Change) : Decision → Disk → Prop
  | .install _ _ _ => New env u
  | _ => Old env u

theorem wp_apply {host : Option (Payload × Bytes)} {guest guestHash : Bytes} {trees : Option Node × Option Node}
    (hd : Old env u d) (hu : u.host = host.map Prod.fst) (hs : u.newSelection = selectionText guestHash) :
    wp (apply env ⟨false, some u.old⟩ host guest guestHash trees)
      ⟨fun _ => New env u, fun _ => Atomic env u, Atomic env u⟩ d := by
  have hstable : Stable (All env) (Old env u) := Old.stable.mono Set.subset_union_left
  refine ((hstable.maintains fun _ => keep_acquireAll) d hd).seq (fun _ d1 h1 => ?_) (fun _ _ h => Or.inl h)
    fun _ h => Or.inl h
  refine wp_bind (wp_query (fun _ _ => ?_) fun _ _ => Or.inl h1)
  refine wp.seq (P := ⟨fun selection d' => selection = u.newSelection ∧ Old env u d', fun _ => Old env u, Old env u⟩)
    ?_ ?_ (fun _ _ h => Or.inl h) fun _ h => Or.inl h
  · exact hs ▸ wp_stageGuest hstable h1
  rintro _ d2 ⟨rfl, h2⟩
  have hhost : host.isSome = u.host.isSome := by
    rw [hu, Option.isSome_map]
  have hbegun : ∀ d', Begun env u d' → Atomic env u d' := fun d' h => h.imp id fun h => Or.inl ⟨none, h⟩
  refine (wp_prepare h2 rfl rfl hhost rfl).catch (fun prepared d3 h3 => ?_) (fun _ d3 h3 => wp_fail (hbegun d3 h3))
    hbegun
  refine (wp_commit h3 hu).seq (fun _ d4 h4 => ?_) (fun _ _ h => h) fun _ h => h
  exact (wp_finish h4).mono (fun _ _ h => h) (fun _ _ h => Or.inr (Or.inr h)) fun _ h => Or.inr (Or.inr h)

/-- Where an update can stop. -/
def Decision.Within (env : Env) (u : Change) : Decision → Disk → Prop
  | .install _ _ _ => Atomic env u
  | _ => Old env u

theorem Decision.Within.atomic {decision : Decision} (h : decision.Within env u d) : Atomic env u d := by
  cases decision with
  | install host guest guestHash => exact h
  | refused message => exact Or.inl h
  | upToDate => exact Or.inl h

/-- An update, stopped anywhere, leaves an atomic state; one that returns has done what was decided. -/
theorem wp_transaction {old : Bytes} {previous : Option Bytes} (bootstrap : Bool) (decision : Decision)
    (trees : Option Node × Option Node) (hl : HasLink d old) (hs : HasSelection env d previous) (hj : NoJournal env d) :
    wp (transaction env bootstrap decision trees)
      ⟨fun _ => decision.Done env (decision.change d old previous),
        fun _ => decision.Within env (decision.change d old previous),
        decision.Within env (decision.change d old previous)⟩ d := by
  set u := decision.change d old previous with hu
  have hold : u.old = old := by
    cases decision <;> rfl
  have hd : Old env u d := by
    refine ⟨hj, hold ▸ hl, ?_, ?_⟩
    · cases decision <;> exact hs
    · rintro ⟨x, -, h0, h1⟩
      cases decision <;> exact h1 h0
  have hwithin : ∀ d', Old env u d' → decision.Within env u d' := by
    intro d' h
    cases decision with
    | install host guest guestHash => exact Or.inl h
    | refused message => exact h
    | upToDate => exact h
  have hstable : Stable (All env) (Old env u) := Old.stable.mono Set.subset_union_left
  have hlock : Maintains (Old env u)
      (orFail (lockFile (env.cacheDir.sub (ascii ".hamn-upgrade.lock"))) "cannot lock the update cache") :=
    maintains_orFail (hstable.maintains fun _ => keep_lockFile (Plain.off ⟨by decide, by decide, by decide⟩))
  refine wp_query_bind (fun _ _ => ?_) fun _ _ => hwithin d hd
  refine (wp_runtimeDirectory hd).seq (fun _ d1 h1 => ?_) (fun _ => hwithin) hwithin
  refine (hlock d1 h1).seq (fun _ d2 h2 => ?_) (fun _ => hwithin) hwithin
  refine (wp_recover h2).seq (fun _ d3 h3 => ?_) (fun _ => hwithin) hwithin
  refine wp_query_bind (fun installation hi => ?_) fun _ _ => hwithin d3 h3
  obtain rfl := refresh_eq h3.link hi
  refine wp_bind (wp_query (fun _ _ => ?_) fun _ _ => hwithin d3 h3)
  cases decision with
  | refused message => exact wp_fail h3
  | upToDate => exact wp_pure h3
  | install host guest guestHash => exact wp_apply h3 rfl rfl

/-! ## Rollbacks after an update -/

/-- No rollback leaves the states of an update. -/
theorem Decision.Within.rollback {decision : Decision} {d' : Disk} (hd : decision.Within env u d)
    (h : Leads (Install.rollback (ε := Stop) env) d d') : decision.Within env u d' := by
  cases decision with
  | install host guest guestHash =>
    refine h.of_wp ((wp_rollback_atomic hd).mono (fun r d1 hr => ?_) (fun _ _ h => h.elim) fun _ h => h)
    cases r with
    | ok s => exact Or.inl hr.1
    | error e => exact hr
  | refused message => exact h.of_wp (wp_rollback_of_noJournal hd.noJournal hd)
  | upToDate => exact h.of_wp (wp_rollback_of_noJournal hd.noJournal hd)

/-- The update is undone: the old link and selection, no journal, and the journal kept as recovered. -/
structure RolledBack (env : Env) (old : Bytes) (previous : Option Bytes) (d : Disk) : Prop where
  link : HasLink d old
  selection : HasSelection env d previous
  noJournal : NoJournal env d
  recovered : ∃ attempt a es, attemptValid attempt = true ∧
    d.find (env.cacheDir.sub (retiredName .recovered attempt)) = .ok (.dir a es)

/-- The link and the selection are both those that the update installs; when it only repairs the selection the link
stays. -/
def Decision.IsInstalled (env : Env) (old : Bytes) : Decision → Disk → Prop
  | .install none _ guestHash, d => HasLink d old ∧ HasSelection env d (some (selectionText guestHash))
  | .install (some (payload, _)) _ guestHash, d =>
    (∃ target, HasLink d target ∧ IsNew env payload d target) ∧ HasSelection env d (some (selectionText guestHash))
  | _, _ => False

theorem Decision.IsInstalled.of_new {decision : Decision} {start : Disk} {old : Bytes} {previous : Option Bytes}
    (h : New env (decision.change start old previous) d) (hi : ∃ host guest guestHash, decision = .install host guest guestHash) :
    decision.IsInstalled env old d := by
  obtain ⟨host, guest, guestHash, rfl⟩ := hi
  cases host with
  | none => exact ⟨h.link, h.selection⟩
  | some p => exact ⟨h.link, h.selection⟩

/-- Every update from the link `old` and the selection `previous`, stopped anywhere, and then any number of
rollbacks, each stopped anywhere.  A rollback that returns has restored both; a journal that is retired as completed
means that both are new; without a journal they are both old or both new; and what an update has installed when it
returns, no rollback undoes. -/
theorem update_crash_atomic (bootstrap : Bool) (decision : Decision) (trees : Option Node × Option Node)
    (tape : List Cell) {start : Disk} {old : Bytes} {previous : Option Bytes} (hl : HasLink start old)
    (hs : HasSelection env start previous) (hj : NoJournal env start)
    (hd : Reaches (Leads (rollback (ε := Stop) env)) (transaction env bootstrap decision trees tape start).2.2 d) :
    (∀ t summary, (rollback (ε := Stop) env t d).1 = .ok (.ok summary) →
      RolledBack env old previous (rollback (ε := Stop) env t d).2.2) ∧
    (CompletedSince env start d → decision.IsInstalled env old d) ∧
    (NoJournal env d → (HasLink d old ∧ HasSelection env d previous) ∨ decision.IsInstalled env old d) ∧
    (∀ host guest guestHash notes, decision = .install host guest guestHash →
      (transaction env bootstrap decision trees tape start).1 = .ok notes → decision.IsInstalled env old d) := by
  set u := decision.change start old previous with hu
  have hold : u.old = old := by
    cases decision <;> rfl
  have hprevious : u.previous = previous := by
    cases decision <;> rfl
  have hstart : u.start = start := by
    cases decision <;> rfl
  have hfirst : decision.Within env u (transaction env bootstrap decision trees tape start).2.2 := by
    refine Leads.of_wp ⟨tape, rfl⟩ ((wp_transaction bootstrap decision trees hl hs hj).mono (fun _ d1 h1 => ?_)
      (fun _ _ h => h) fun _ h => h)
    cases decision with
    | install host guest guestHash => exact Or.inr (Or.inr h1)
    | refused message => exact h1
    | upToDate => exact h1
  have hwithin : decision.Within env u d := hd.inv hfirst fun _ _ h hr => h.rollback hr
  have hnew : New env u d → decision.Within env u d → (decision.IsInstalled env old d ∨ Old env u d) := by
    intro h hw
    cases decision with
    | install host guest guestHash => exact Or.inl (.of_new h ⟨_, _, _, rfl⟩)
    | refused message => exact Or.inr hw
    | upToDate => exact Or.inr hw
  refine ⟨fun t summary ht => ?_, fun hc => ?_, fun hno => ?_, fun host guest guestHash notes hi hok => ?_⟩
  · have hr := wp_rollback_atomic (ε := Stop) hwithin.atomic t
    rw [ht] at hr
    obtain ⟨hundone, recorded, attempt, a, es, hvalid, hfind, -⟩ := hr
    exact ⟨hold ▸ hundone.link, hprevious ▸ hundone.selection, hundone.noJournal, attempt, a, es, hvalid, hfind⟩
  · rw [← hstart] at hc
    rcases hwithin.atomic with h | ⟨recorded, h⟩ | h
    · exact absurd hc h.notCompleted
    · exact absurd hc h.notCompleted
    · exact (hnew h hwithin).resolve_right fun h => h.notCompleted hc
  · have hundone : Old env u d → HasLink d old ∧ HasSelection env d previous := fun h =>
      ⟨hold ▸ h.link, hprevious ▸ h.selection⟩
    rcases hwithin.atomic with h | ⟨recorded, h⟩ | h
    · exact Or.inl (hundone h)
    · obtain ⟨a, es, hjournal, -⟩ := h.journal
      cases hno.symm.trans hjournal
    · exact (hnew h hwithin).elim Or.inr fun h => Or.inl (hundone h)
  · have hdone := wp_transaction bootstrap decision trees hl hs hj tape
    rw [hok] at hdone
    have hnew : New env u (transaction env bootstrap decision trees tape start).2.2 := by
      subst hi
      exact hdone
    exact .of_new (hd.inv hnew fun _ _ h hr => hr.of_wp (wp_rollback_of_noJournal h.noJournal h)) ⟨_, _, _, hi⟩

end

/-! ## An update of a sample installation -/

namespace Sample

/-- The digests of the texts that the sample installation hashes. -/
def digests : List (Bytes × Bytes) :=
  [(ascii "old", ascii "cba06b5736faf67e54b07b561eae94395e774c517a7d910a54369e1263ccfbd4"),
   (ascii "new", ascii "11507a0e2f5e69d5dfa40a62a1bd7b6ee57e6bcd85c67c9b8431b36fff21c437"),
   (ascii "guest", ascii "84983c60f7daadc1cb8698621f802c0d9f9a3c3c295c810748fb048115c186ec"),
   (ascii "/c", ascii "facd442ef63045438c3a2910e0644528473e3af817648a8a040ce75acbfed4d9"),
   (ascii "/b" ++ [0], ascii "06587bdc11c52ab8217109f886fd5c3580fbd79df33da0a8d5207dc23ed2e741"),
   (ascii "/d/hamn" ++ [0], ascii "0fd959079671d74c374aaa326f1b66ef043e335879e51d1f6449bc1c1cf3116e")]

def sha256 (b : Bytes) : Bytes := (digests.lookup b).getD []

def env : Env := ⟨⟨ascii "/b", ascii "/d/hamn", ascii "hamn"⟩, ascii "/c", 7, sha256⟩

def directory (entries : Dir) : Node := .dir (.mine 0o755) entries

/-- The generation whose binary is `old`. -/
def generation : Name := sha256 (ascii "old") ++ ascii "-abc123"

/-- One generation, and an empty image cache. -/
def disk : Disk
  | .bin => some (directory [(ascii "hamn", .symlink (.mine 0o755) (targetOf env generation))])
  | .parent => some (directory [])
  | .data => some (directory [(ascii ".hamn-managed", .file (.mine 0o600) (ascii "version=1\n"))])
  | .gens => some (directory [(generation, directory [
      (ascii "bin", directory [(ascii "hamn", .file (.mine 0o755) (ascii "old"))]),
      (MARKER, .file (.mine 0o600) ((markerText env (sha256 (ascii "old"))).toOption.getD []))])])
  | .cache path => if path = ascii "/c" then some (directory []) else none

/-- A guest image for the installed binary. -/
def decision : Decision := .install none (ascii "guest") (sha256 (ascii "guest"))

/-- `n` calls, none of which fails. -/
def tape (n : ℕ) (suffix : String) : List Cell := List.replicate n ⟨false, ascii suffix, 0, none⟩

theorem hasLink : HasLink disk (targetOf env generation) := ⟨_, rfl⟩

theorem hasSelection : HasSelection env disk none := rfl

theorem noJournal : NoJournal env disk := rfl

theorem transaction_eq_ok :
    (transaction env false decision (none, none) (tape 60 "AAAAAA") disk).1 = .ok [] := by
  decide +kernel

end Sample

/-- The undisturbed update ends with the guest image selected. -/
theorem update_crash_atomic_sample :
    Sample.decision.IsInstalled Sample.env (targetOf Sample.env Sample.generation)
      (transaction Sample.env false Sample.decision (none, none) (Sample.tape 60 "AAAAAA") Sample.disk).2.2 :=
  (update_crash_atomic false Sample.decision (none, none) (Sample.tape 60 "AAAAAA") Sample.hasLink
    Sample.hasSelection Sample.noJournal .refl).2.2.2 _ _ _ [] rfl Sample.transaction_eq_ok

end Hamn.Install
