import Hamn.Install.Update

/-!
# Install.Frame — what the calls of the installer leave alone

`Keep S d d'`: the two disks agree at every location of `S`.  A call at a location that lies off `S` (apart from
each of its members) keeps it, so a process all of whose calls lie off `S` does.  One lemma for each primitive of
`Install.Files`; the temporary names that the processes choose are covered for every choice.
-/

namespace Hamn.Install

open Posix Crash Bytes
open Crash.Proc hiding attempt pure bind

/-- The disks agree at every location of `S`. -/
def Keep (S : Set Loc) (d d' : Disk) : Prop := ∀ l ∈ S, d'.find l = d.find l

/-- `l` lies apart from every location of `S`. -/
def Off (S : Set Loc) (l : Loc) : Prop := ∀ k ∈ S, l.Apart k

namespace Keep

variable {S T : Set Loc} {d d' d'' : Disk} {l l' : Loc} {f : Option Node → Option Node} {n : Node}

theorem refl : Keep S d d := fun _ _ => rfl

theorem trans (h : Keep S d d') (h' : Keep S d' d'') : Keep S d d'' := fun l hl => (h' l hl).trans (h l hl)

theorem symm (h : Keep S d d') : Keep S d' d := fun l hl => (h l hl).symm

theorem mono (h : Keep S d d') (hT : T ⊆ S) : Keep T d d' := fun l hl => h l (hT hl)

theorem alter (h : Off S l) : Keep S d (d.alter l f) := fun k hk => Disk.find_alter_of_apart (h k hk)

theorem move (h : Off S l) (h' : Off S l') : Keep S d (d.move l l' n) := fun k hk =>
  Disk.find_move_of_apart (h k hk) (h' k hk)

theorem place (h : Off S l) (hd : Disk.place n l d = .ok d') : Keep S d d' := by
  obtain ⟨_, rfl⟩ := Disk.place_eq_ok hd
  exact alter h

theorem write {c : Bytes} (h : Off S l) (hd : Disk.write c l d = .ok d') : Keep S d d' := by
  obtain ⟨_, _, _, rfl⟩ := Disk.write_eq_ok hd
  exact alter h

theorem chmod {mode : ℕ} (h : Off S l) (hd : Disk.chmod mode l d = .ok d') : Keep S d d' := by
  obtain ⟨_, _, rfl⟩ := Disk.chmod_eq_ok hd
  exact alter h

theorem removeFile (h : Off S l) (hd : Disk.removeFile l d = .ok d') : Keep S d d' := by
  obtain ⟨_, _, _, rfl⟩ := Disk.removeFile_eq_ok hd
  exact alter h

theorem removeDir (h : Off S l) (hd : Disk.removeDir l d = .ok d') : Keep S d d' := by
  obtain ⟨_, _, rfl⟩ := Disk.removeDir_eq_ok hd
  exact alter h

theorem rename (h : Off S l) (h' : Off S l') (hd : Disk.rename l l' d = .ok d') : Keep S d d' := by
  obtain ⟨_, _, rfl⟩ := Disk.rename_eq_ok hd
  exact move h h'

theorem renameExcl (h : Off S l) (h' : Off S l') (hd : Disk.renameExcl l l' d = .ok d') : Keep S d d' := by
  obtain ⟨_, _, _, rfl⟩ := Disk.renameExcl_eq_ok hd
  exact move h h'

end Keep

/-! ## Locations -/

theorem Off.sub {S : Set Loc} {l : Loc} (h : Off S l) (x : Name) : Off S (l.sub x) := fun k hk => (h k hk).sub x

theorem Off.union {S T : Set Loc} {l : Loc} (h : Off S l) (h' : Off T l) : Off (S ∪ T) l := fun k hk =>
  hk.elim (h k) (h' k)

/-! ## Processes -/

section

variable {S : Set Loc} {d₀ : Disk} {l l' : Loc}

/-- A call keeps what every disk it can leave behind keeps. -/
theorem maintains_call {I : Disk → Prop} {f : Disk → Except Errno Disk}
    (h : ∀ d d', I d → f d = .ok d' → I d') : Maintains I (call f) :=
  Maintains.step fun c d hd => by
    by_cases hc : c.fails = true
    · simpa only [if_pos hc] using hd
    · rw [if_neg hc]
      cases hf : f d with
      | ok d' => exact h d d' hd hf
      | error e => exact hd

theorem wp_call {f : Disk → Except Errno Disk} {Q : Post Disk Failure Unit} {d : Disk} (hs : Q.stopped d)
    (herr : ∀ e, Q.error e d) (hok : ∀ d', f d = .ok d' → Q.ok () d') : wp (call f) Q d := by
  refine wp_step hs (fun c a d' h => ?_) fun c e d' h => ?_
  · by_cases hc : c.fails = true
    · rw [if_pos hc] at h
      cases h
    · rw [if_neg hc] at h
      cases hf : f d with
      | ok d'' =>
        rw [hf] at h
        obtain ⟨-, rfl⟩ := Prod.mk.inj h
        exact hok _ hf
      | error e =>
        rw [hf] at h
        cases (Prod.mk.inj h).1
  · by_cases hc : c.fails = true
    · rw [if_pos hc] at h
      obtain ⟨-, rfl⟩ := Prod.mk.inj h
      exact herr e
    · rw [if_neg hc] at h
      cases hf : f d with
      | ok d'' =>
        rw [hf] at h
        cases (Prod.mk.inj h).1
      | error e =>
        rw [hf] at h
        obtain ⟨-, rfl⟩ := Prod.mk.inj h
        exact herr _

theorem wp_check {p : Disk → Bool} {message : String} {Q : Post Disk Failure Unit} {d : Disk}
    (ht : p d = true → Q.ok () d) (hf : p d = false → Q.error (.text message) d) : wp (check p message) Q d := by
  refine wp_query (fun a h => ?_) fun e h => ?_
  · split_ifs at h with hp
    exact ht hp
  · split_ifs at h with hp
    obtain rfl := Except.error.inj h
    exact hf (by simpa using hp)

theorem wp_call_bind {α : Type} {f : Disk → Except Errno Disk} {k : Unit → Act α} {Q : Post Disk Failure α} {d : Disk}
    (hs : Q.stopped d) (herr : ∀ e, Q.error e d) (hok : ∀ d', f d = .ok d' → wp (k ()) Q d') :
    wp (call f >>= k) Q d :=
  wp_bind (wp_call hs herr hok)

theorem wp_check_bind {α : Type} {p : Disk → Bool} {message : String} {k : Unit → Act α} {Q : Post Disk Failure α}
    {d : Disk} (ht : p d = true → wp (k ()) Q d) (hf : p d = false → Q.error (.text message) d) :
    wp (check p message >>= k) Q d :=
  wp_bind (wp_check ht hf)

/-- A property of the disk that depends only on what is at the locations of `S`. -/
def Stable (S : Set Loc) (P : Disk → Prop) : Prop := ∀ d d', P d → Keep S d d' → P d'

theorem Stable.maintains {ε α : Type} {P : Disk → Prop} {m : Proc Cell Disk ε α} (hP : Stable S P)
    (h : ∀ d₀, Maintains (Keep S d₀) m) : Maintains P m := fun d hd =>
  (h d d .refl).mono (fun _ d' hk => hP d d' hd hk) (fun _ d' hk => hP d d' hd hk) fun d' hk => hP d d' hd hk

theorem keep_touch : Maintains (Keep S d₀) touch := maintains_call fun d d' h he => by
  obtain rfl : d = d' := Except.ok.inj he
  exact h

theorem keep_place {n : Node} (h : Off S l) : Maintains (Keep S d₀) (call (Disk.place n l)) :=
  maintains_call fun _ _ hd he => hd.trans (.place h he)

theorem keep_chmod {mode : ℕ} (h : Off S l) : Maintains (Keep S d₀) (call (Disk.chmod mode l)) :=
  maintains_call fun _ _ hd he => hd.trans (.chmod h he)

theorem keep_removeFile (h : Off S l) : Maintains (Keep S d₀) (removeFile l) :=
  maintains_call fun _ _ hd he => hd.trans (.removeFile h he)

theorem keep_removeDir (h : Off S l) : Maintains (Keep S d₀) (removeDir l) :=
  maintains_call fun _ _ hd he => hd.trans (.removeDir h he)

theorem keep_rename (h : Off S l) (h' : Off S l') : Maintains (Keep S d₀) (rename l l') :=
  maintains_call fun _ _ hd he => hd.trans (.rename h h' he)

theorem keep_renameExclusive (h : Off S l) (h' : Off S l') : Maintains (Keep S d₀) (renameExclusive l l') :=
  maintains_call fun _ _ hd he => hd.trans (.renameExcl h h' he)

theorem keep_writeAll {c : Bytes} (h : Off S l) : Maintains (Keep S d₀) (writeAll l c) :=
  Maintains.step fun cell d hd => by
    cases hw : Disk.write (if cell.fails then c.take cell.count else c) l d with
    | ok d' => exact hd.trans (.write h hw)
    | error e => exact hd

theorem wp_writeAll {c : Bytes} {Q : Post Disk Failure Unit} {d : Disk} (hs : Q.stopped d) (herr : ∀ e, Q.error e d)
    (hpart : ∀ e k d', Disk.write (c.take k) l d = .ok d' → Q.error e d')
    (hok : ∀ d', Disk.write c l d = .ok d' → Q.ok () d') : wp (writeAll l c) Q d := by
  refine wp_step hs (fun cell a d' h => ?_) fun cell e d' h => ?_
  all_goals
    by_cases hc : cell.fails = true
    · rw [if_pos hc, if_pos hc] at h
      cases hw : Disk.write (c.take cell.count) l d with
      | ok d'' =>
        rw [hw] at h
        obtain ⟨h1, rfl⟩ := Prod.mk.inj h
        first | exact hpart _ _ _ hw | cases h1
      | error e =>
        rw [hw] at h
        obtain ⟨h1, rfl⟩ := Prod.mk.inj h
        first | exact herr _ | cases h1
    · rw [if_neg hc, if_neg hc] at h
      cases hw : Disk.write c l d with
      | ok d'' =>
        rw [hw] at h
        obtain ⟨h1, rfl⟩ := Prod.mk.inj h
        first | exact hok _ hw | cases h1
      | error e =>
        rw [hw] at h
        obtain ⟨h1, rfl⟩ := Prod.mk.inj h
        first | exact herr _ | cases h1

theorem keep_check {p : Disk → Bool} {message : String} : Maintains (Keep S d₀) (check p message) := Maintains.query

theorem keep_create {c : Bytes} {mode : ℕ} (h : Off S l) : Maintains (Keep S d₀) (create l c mode) :=
  (keep_place h).bind fun _ => (keep_writeAll h).bind fun _ => (keep_chmod h).bind fun _ => keep_touch

/-- A new file in a directory: nothing else in the directory changes. -/
theorem wp_create {P : Disk → Prop} {d : Disk} {x : Name} {c : Bytes} {mode : ℕ} (hP : Stable S P)
    (hoff : Off S (l.sub x)) (hd : P d) :
    wp (create (l.sub x) c mode)
      ⟨fun _ d' => P d' ∧ ∃ a es es' b, d.find l = .ok (.dir a es) ∧ a.searchable ∧ d'.find l = .ok (.dir a es') ∧
        Dir.get es' x = some (.file b c) ∧ ∀ y, y ≠ x → Dir.get es' y = Dir.get es y, fun _ => P, P⟩ d := by
  have hkeep : ∀ d1 f, P d1 → P (d1.alter (l.sub x) f) := fun d1 f h => hP _ _ h (.alter hoff)
  refine wp_call_bind hd (fun _ => hd) fun d1 h1 => ?_
  obtain ⟨a, es, hl, ha, -, rfl⟩ := Disk.place_sub_eq_ok h1
  have hd1 := hkeep _ (fun _ => some (.file (.mine mode) [])) hd
  have hl1 := Disk.find_alter_sub (x := x) (f := fun _ => some (.file (.mine mode) [])) hl
  refine wp_bind (wp_writeAll hd1 (fun _ => hd1) (fun e k d2 h2 => ?_) fun d2 h2 => ?_)
  · obtain ⟨_, _, _, rfl⟩ := Disk.write_eq_ok h2
    exact hkeep _ _ hd1
  · obtain ⟨b, c', -, rfl⟩ := Disk.write_eq_ok h2
    have hd2 := hkeep _ (fun _ => some (.file b c)) hd1
    have hl2 := Disk.find_alter_sub (x := x) (f := fun _ => some (.file b c)) hl1
    refine wp_call_bind hd2 (fun _ => hd2) fun d3 h3 => ?_
    obtain ⟨n, hn, rfl⟩ := Disk.chmod_eq_ok h3
    have hd3 := hkeep _ (fun _ => some (n.setMode mode)) hd2
    have hl3 := Disk.find_alter_sub (x := x) (f := fun _ => some (n.setMode mode)) hl2
    obtain rfl : n = .file b c := by
      have hg := (Disk.get_of_find_sub hl2 hn).1
      rw [Dir.get_set_self] at hg
      exact (Option.some.inj hg).symm
    refine wp_call hd3 (fun _ => hd3) fun d4 h4 => ?_
    obtain rfl := Except.ok.inj h4
    refine ⟨hd3, a, es, _, _, hl, ha, hl3, Dir.get_set_self _ _ _, fun y hy => ?_⟩
    rw [Dir.get_set_ne hy.symm, Dir.get_set_ne hy.symm, Dir.get_set_ne hy.symm]

theorem keep_raise {α : Type} {r : Except Failure α} : Maintains (Keep S d₀) (raise r) := by
  cases r with
  | ok a => exact Maintains.pure
  | error e => exact Maintains.fail

theorem keep_removeOptional (h : Off S l) : Maintains (Keep S d₀) (removeOptional l) :=
  (keep_removeFile h).attempt.bind fun r => by
    rcases r with (e | _ | _) | _
    · exact Maintains.fail
    · cases ‹Errno› <;> first | exact Maintains.pure | exact Maintains.fail
    · exact Maintains.fail
    · exact Maintains.pure

/-! ## Temporary names -/

theorem wp_temporary {make : Loc → Disk → Except Errno Disk} {directory : Loc} {pre : Bytes}
    {Q : Post Disk Failure (Loc × Bytes)} {d : Disk} (hs : Q.stopped d) (herr : ∀ e, Q.error e d)
    (hok : ∀ s d', attemptValid s = true → make (directory.sub (pre ++ s)) d = .ok d' →
      Q.ok (directory.sub (pre ++ s), s) d') : wp (temporary make directory pre) Q d := by
  refine wp_step hs (fun c a d' h => ?_) fun c e d' h => ?_
  all_goals
    by_cases hc : (c.fails || !attemptValid c.suffix) = true
    · rw [if_pos hc] at h
      obtain ⟨h1, rfl⟩ := Prod.mk.inj h
      first | exact herr _ | cases h1
    · rw [if_neg hc] at h
      cases hm : make (directory.sub (pre ++ c.suffix)) d with
      | ok d'' =>
        rw [hm] at h
        obtain ⟨h1, rfl⟩ := Prod.mk.inj h
        first
        | cases h1
          exact hok c.suffix _ (by simp only [Bool.or_eq_true, not_or] at hc; simpa using hc.2) hm
        | cases h1
      | error e =>
        rw [hm] at h
        obtain ⟨h1, rfl⟩ := Prod.mk.inj h
        first | exact herr _ | cases h1

/-- A directory or file under a temporary name, where every such name lies off `S`. -/
theorem wp_temporary_keep {n : Node} {directory : Loc} {pre : Bytes} {Q : Post Disk Failure (Loc × Bytes)} {d : Disk}
    (hoff : ∀ s, Off S (directory.sub (pre ++ s))) (hd : Keep S d₀ d) (hs : Q.stopped d) (herr : ∀ e, Q.error e d)
    (hok : ∀ s d', attemptValid s = true → Keep S d₀ d' → Q.ok (directory.sub (pre ++ s), s) d') :
    wp (temporary (Disk.place n) directory pre) Q d :=
  wp_temporary hs herr fun s d' hv he => hok s d' hv (hd.trans (.place (hoff s) he))

/-- A staged file: the stage comes and goes off `S`, so only what the publication does matters. -/
theorem wp_staged {env : Env} {pre : String} {pub : Loc → Act Unit} {P : Disk → Prop} {R : Unit → Disk → Prop} {d : Disk}
    (hP : Stable S P) (hoff : ∀ s, Off S (env.cacheDir.sub (ascii pre ++ s))) (hd : P d)
    (hpub : ∀ s d', P d' → Keep S d d' → wp (pub (env.cacheDir.sub (ascii pre ++ s))) ⟨R, fun _ => P, P⟩ d') :
    wp (staged env pre pub) ⟨R, fun _ => P, P⟩ d := by
  refine wp_bind (wp_temporary hd (fun _ => hd) fun s d' hv he => ?_)
  have hkeep : Keep S d d' := .place (hoff s) he
  refine (hpub s d' (hP d d' hd hkeep) hkeep).catch (fun _ d'' h => wp_pure h) (fun e d'' h => ?_) fun _ h => h
  have hgone : Maintains P (ignore (removeFile (env.cacheDir.sub (ascii pre ++ s))) : Act Unit) :=
    hP.maintains fun _ => (keep_removeFile (hoff s)).ignore
  exact (hgone d'' h).seq (fun _ _ h => wp_fail h) (fun _ _ h => h) fun _ h => h

theorem wp_metadataStage {pid : ℕ} {directory : Loc} (h : ∀ x, Off S (directory.sub (ascii ".hamn-metadata." ++ x))) :
    ∀ (left suffix : ℕ) (d : Disk), Keep S d₀ d → wp (metadataStage pid directory suffix left)
      ⟨fun l d' => Off S l ∧ Keep S d₀ d', fun _ => Keep S d₀, Keep S d₀⟩ d
  | 0, _, _, hd => wp_fail hd
  | left + 1, suffix, d, hd => by
    have hoff : Off S (directory.sub (ascii ".hamn-metadata." ++ decimal pid ++ ascii "." ++ decimal suffix)) := by
      rw [List.append_assoc, List.append_assoc]
      exact h _
    refine (keep_place hoff d hd).catch (fun _ d' hd' => wp_pure ⟨hoff, hd'⟩) (fun e d' hd' => ?_) fun _ h => h
    split
    · rename_i he
      cases he
    · exact wp_metadataStage h left (suffix + 1) d' hd'
    · exact wp_fail hd'

theorem keep_publish {pid : ℕ} {c : Bytes} (h : ∀ x, Off S (l.parent.sub (ascii ".hamn-metadata." ++ x)))
    (hl : Off S l) : Maintains (Keep S d₀) (publish pid l c) := fun d hd =>
  (wp_metadataStage h 1000 0 d hd).seq (fun stage d' hs => by
    have hpub : Maintains (Keep S d₀) (do writeAll stage c; touch; renameExclusive stage l; touch) :=
      (keep_writeAll hs.1).bind fun _ => keep_touch.bind fun _ =>
        (keep_renameExclusive hs.1 hl).bind fun _ => keep_touch
    exact (hpub.attempt.bind fun r => (keep_removeOptional hs.1).bind fun _ => keep_raise) d' hs.2)
    (fun _ _ h => h) fun _ h => h

theorem parent_sub (l : Loc) (x : Name) : (l.sub x).parent = l := by
  unfold Loc.parent Loc.sub
  simp

theorem keep_recoveryRoot {env : Env} (h : ∀ x, Off S (l.sub (ascii ".hamn-metadata." ++ x)))
    (h' : ∀ x, Off S (l.sub (ascii ".hamn-recovery-root-" ++ x))) : Maintains (Keep S d₀) (recoveryRoot env l) := by
  refine keep_check.bind fun _ => Maintains.look.bind fun found => ?_
  split
  · refine Maintains.query.bind fun _ => Maintains.query.bind fun content => ?_
    split_ifs
    · exact Maintains.pure
    · exact Maintains.fail
  · exact keep_publish (by rwa [parent_sub]) (h' _)
  · exact Maintains.fail

theorem keep_directory {mode : ℕ} (h : Off S l) : Maintains (Keep S d₀) (directory l mode) :=
  (keep_place h).bind fun _ => keep_chmod h

theorem keep_lockFile (h : Off S l) : Maintains (Keep S d₀) (lockFile l) := by
  refine Maintains.look.bind fun b => ?_
  have hrest : Maintains (Keep S d₀) (do
      check (fun d => isOwned d l false (some 0o600)) "refusing unsafe lock path"
      touch) := keep_check.bind fun _ => keep_touch
  split_ifs
  · exact (keep_place h).ignore.bind fun _ => hrest
  · exact hrest

theorem wp_barrier {Q : Post Disk Failure Unit} {d : Disk} (hs : Q.stopped d) (herr : ∀ e, Q.error e d)
    (hok : Q.ok () d) : wp barrier Q d := by
  refine wp_step hs (fun c a d' h => ?_) fun c e d' h => ?_
  all_goals
    cases hc : c.signal with
    | some signal =>
      rw [hc] at h
      obtain ⟨h1, rfl⟩ := Prod.mk.inj h
      first | exact herr _ | cases h1
    | none =>
      rw [hc] at h
      by_cases hf : c.fails = true
      · simp only [if_pos hf] at h
        obtain ⟨h1, rfl⟩ := Prod.mk.inj h
        first | exact herr _ | cases h1
      · simp only [if_neg hf] at h
        obtain ⟨h1, rfl⟩ := Prod.mk.inj h
        first | exact hok | cases h1

theorem keep_barrier : Maintains (Keep S d₀) barrier := Maintains.step fun c d hd => by
  cases c.signal with
  | some signal => exact hd
  | none =>
    by_cases hc : c.fails = true
    · simpa only [if_pos hc] using hd
    · simpa only [if_neg hc] using hd

theorem keep_removeLevels : ∀ (levels : ℕ) (l : Loc), Off S l → Maintains (Keep S d₀) (removeLevels levels l)
  | 0, _, _ => Maintains.fail
  | levels + 1, l, h => by
    refine Maintains.look.bind fun found => ?_
    split
    · exact Maintains.query.bind fun names =>
        (Maintains.each (fun name => keep_removeLevels levels (l.sub name) (h.sub name)) names).bind fun _ =>
          keep_removeDir h
    · exact keep_removeFile h

theorem keep_removeDirAll (h : Off S l) : Maintains (Keep S d₀) (removeDirAll l) :=
  Maintains.look.bind fun levels => keep_removeLevels levels l h

theorem keep_discardStage (h : Off S l) : Maintains (Keep S d₀) (discardStage l) := by
  refine Maintains.look.bind fun b => ?_
  split_ifs
  · exact (Maintains.each (fun name => (keep_removeFile (h.sub _)).ignore) _).bind fun _ => (keep_removeDir h).ignore
  · exact Maintains.pure

end

end Hamn.Install
