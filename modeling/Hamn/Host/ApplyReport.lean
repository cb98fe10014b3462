import Hamn.Host.Apply

/-!
# Host.ApplyReport — what the return of `vm apply` says about `config.yaml`

* `Look`, `Sees`: the parts that only read.  While no other call writes they all see one directory, so what each of them
  answers is a fact about that directory, and the facts of a chain are collected.
* `Quietly`: the same chain when nothing fails.
* `Edits`: the directory before and after the writers, which touch `config.yaml` and their temporary file only.
* `apply_report_true`: the contract of `hamn_control_apply`.
-/

namespace Hamn.Host

open Bytes Crash Posix

/-! ## Looking -/

/-- What a part of the call that only reads leaves behind: other calls may have written, but not under the lock. -/
structure Look (w w' : World) : Prop where
  locked : w'.locked = w.locked
  held : w'.held = w.held
  probed : w'.probed = w.probed
  lifecycleFile : w'.lifecycleFile = w.lifecycleFile
  mutationFile : w'.mutationFile = w.mutationFile
  own : w.home = w.before → w'.home = w'.before
  calm : w'.disturbed = false → w.disturbed = false
  same : w.locked = true → w' = w
  still : w'.disturbed = false → w'.home = w.home

/-- No other call wrote between the two. -/
def Steady (w w' : World) : Prop := w.locked = true ∨ w'.disturbed = false

namespace Look

theorem refl (w : World) : Look w w := ⟨rfl, rfl, rfl, rfl, rfl, id, id, fun _ => rfl, fun _ => rfl⟩

theorem trans {w w' w'' : World} (h : Look w w') (h' : Look w' w'') : Look w w'' where
  locked := h'.locked.trans h.locked
  held := h'.held.trans h.held
  probed := h'.probed.trans h.probed
  lifecycleFile := h'.lifecycleFile.trans h.lifecycleFile
  mutationFile := h'.mutationFile.trans h.mutationFile
  own := fun ho => h'.own (h.own ho)
  calm := fun hd => h.calm (h'.calm hd)
  same := fun hl => (h'.same (h.locked.trans hl)).trans (h.same hl)
  still := fun hd => (h'.still hd).trans (h.still (h'.calm hd))

theorem disturb (w : World) (others : Option Home) : Look w (w.disturb others) := by
  unfold World.disturb
  by_cases hl : w.locked = true
  · rw [if_pos hl]
    exact refl w
  · rw [if_neg hl]
    cases others with
    | none => exact refl w
    | some home =>
      exact ⟨rfl, rfl, rfl, rfl, rfl, fun _ => rfl, nofun, fun h => absurd h hl, nofun⟩

theorem home {w w' : World} (h : Look w w') (hs : Steady w w') : w'.home = w.home :=
  hs.elim (fun hl => congrArg World.home (h.same hl)) h.still

theorem steady_left {w w' w'' : World} (h : Look w' w'') (hs : Steady w w'') : Steady w w' := hs.imp id h.calm

theorem steady_right {w w' w'' : World} (h : Look w w') (hs : Steady w w'') : Steady w' w'' := hs.imp h.locked.trans id

end Look

variable {α β ε ε' : Type}

/-- On every tape `m` only looks, and what it returns is true of the directory when no other call wrote. -/
def Sees (m : Call ε α) (R : α → Home → Prop) (F : ε → Home → Prop) : Prop := ∀ w,
  wp m ⟨fun a w' => Look w w' ∧ (Steady w w' → R a w'.home), fun e w' => Look w w' ∧ (Steady w w' → F e w'.home), Look w⟩ w

namespace Sees

theorem mono {m : Call ε α} {R R' : α → Home → Prop} {F F' : ε → Home → Prop} (h : Sees m R F)
    (hR : ∀ a home, R a home → R' a home) (hF : ∀ e home, F e home → F' e home) : Sees m R' F' := fun w =>
  (h w).mono (fun a _ h => ⟨h.1, fun hs => hR a _ (h.2 hs)⟩) (fun e _ h => ⟨h.1, fun hs => hF e _ (h.2 hs)⟩)
    fun _ h => h

theorem pure {a : α} {R : α → Home → Prop} {F : ε → Home → Prop} (h : ∀ home, R a home) :
    Sees (Pure.pure a : Call ε α) R F := fun w => wp_pure ⟨Look.refl w, fun _ => h _⟩

theorem fail {e : ε} {R : α → Home → Prop} {F : ε → Home → Prop} (h : ∀ home, F e home) : Sees (Proc.fail e) R F :=
  fun w => wp_fail ⟨Look.refl w, fun _ => h _⟩

/-- A chain: what its first part saw is known of the directory that the second part sees. -/
theorem bind {m : Call ε α} {f : α → Call ε β} {R : α → Home → Prop} {R' : β → Home → Prop} {F : ε → Home → Prop}
    (hm : Sees m R F) (hf : ∀ a, Sees (f a) (fun b home => R a home → R' b home) fun e home => R a home → F e home) :
    Sees (m >>= f) R' F := fun w => by
  refine (hm w).seq ?_ (fun _ _ h => h) fun _ h => h
  rintro a w1 ⟨hl, ha⟩
  have hR : ∀ w2, Look w1 w2 → Steady w w2 → R a w2.home := by
    intro w2 hl2 hs
    rw [hl2.home (hl.steady_right hs)]
    exact ha (hl2.steady_left hs)
  refine (hf a w1).mono ?_ ?_ fun w2 h => hl.trans h
  · rintro b w2 ⟨hl2, hb⟩
    exact ⟨hl.trans hl2, fun hs => hb (hl.steady_right hs) (hR w2 hl2 hs)⟩
  · rintro e w2 ⟨hl2, hb⟩
    exact ⟨hl.trans hl2, fun hs => hb (hl.steady_right hs) (hR w2 hl2 hs)⟩

theorem attempt {m : Call ε α} {R : α → Home → Prop} {F : ε → Home → Prop} {F' : ε' → Home → Prop} (hm : Sees m R F) :
    Sees (Proc.attempt m : Call ε' _) (fun r home =>
      match r with
      | .ok a => R a home
      | .error e => F e home) F' := fun w =>
  wp_attempt ((hm w).mono (fun _ _ h => h) (fun _ _ h => h) fun _ h => h)

/-- A part whose failures are caught, and the rest of the chain after each of its answers. -/
theorem «catch» {m : Call ε α} {f : Except ε α → Call ε' β} {R : α → Home → Prop} {F : ε → Home → Prop}
    {R' : β → Home → Prop} {F' : ε' → Home → Prop} (hm : Sees m R F)
    (hok : ∀ a, Sees (f (.ok a)) (fun b home => R a home → R' b home) fun e home => R a home → F' e home)
    (herr : ∀ e, Sees (f (.error e)) (fun b home => F e home → R' b home) fun e' home => F e home → F' e' home) :
    Sees (Proc.attempt m >>= f) R' F' :=
  bind hm.attempt fun r =>
    match r with
    | .ok a => hok a
    | .error e => herr e

theorem ite {p : Prop} [Decidable p] {m m' : Call ε α} {R : α → Home → Prop} {F : ε → Home → Prop}
    (h : p → Sees m R F) (h' : ¬ p → Sees m' R F) : Sees (if p then m else m') R F := by
  by_cases hp : p
  · rw [if_pos hp]
    exact h hp
  · rw [if_neg hp]
    exact h' hp

end Sees

theorem sees_read {f : Home → Except Errno α} :
    Sees (read f) (fun a home => f home = .ok a) fun e home => e = .io ∨ f home = .error e := fun w => by
  refine wp_step (Look.refl w) ?_ ?_
  · intro c a w' h
    by_cases hc : c.fault = true
    · simp only [hc, if_true, Prod.mk.injEq] at h
      cases h.1
    · simp only [hc] at h
      obtain ⟨h1, rfl⟩ := Prod.mk.inj h
      exact ⟨Look.disturb w c.others, fun _ => h1⟩
  · intro c e w' h
    by_cases hc : c.fault = true
    · simp only [hc, if_true] at h
      obtain ⟨h1, rfl⟩ := Prod.mk.inj h
      exact ⟨Look.disturb w c.others, fun _ => Or.inl (Except.error.inj h1).symm⟩
    · simp only [hc] at h
      obtain ⟨h1, rfl⟩ := Prod.mk.inj h
      exact ⟨Look.disturb w c.others, fun _ => Or.inr h1⟩

/-- On every tape `m` only looks, and what it returns is true whatever other calls wrote. -/
def Tells (m : Call ε α) (P : α → Prop) (F : ε → Prop) : Prop := ∀ w,
  wp m ⟨fun a w' => Look w w' ∧ P a, fun e w' => Look w w' ∧ F e, Look w⟩ w

namespace Tells

theorem sees {m : Call ε α} {P : α → Prop} {F : ε → Prop} (h : Tells m P F) : Sees m (fun a _ => P a) fun e _ => F e :=
  fun w => (h w).mono (fun _ _ h => ⟨h.1, fun _ => h.2⟩) (fun _ _ h => ⟨h.1, fun _ => h.2⟩) fun _ h => h

theorem pure {a : α} {P : α → Prop} {F : ε → Prop} (h : P a) : Tells (Pure.pure a : Call ε α) P F :=
  fun w => wp_pure ⟨Look.refl w, h⟩

theorem fail {e : ε} {P : α → Prop} {F : ε → Prop} (h : F e) : Tells (Proc.fail e) P F :=
  fun w => wp_fail ⟨Look.refl w, h⟩

theorem «catch» {m : Call ε α} {f : Except ε α → Call ε' β} {P : α → Prop} {F : ε → Prop} {P' : β → Prop}
    {F' : ε' → Prop} (hm : Tells m P F) (hok : ∀ a, P a → Tells (f (.ok a)) P' F')
    (herr : ∀ e, F e → Tells (f (.error e)) P' F') : Tells (Proc.attempt m >>= f) P' F' := fun w => by
  refine (hm w).catch ?_ ?_ fun _ h => h
  · rintro a w1 ⟨hl, ha⟩
    exact (hok a ha w1).mono (fun _ _ h => ⟨hl.trans h.1, h.2⟩) (fun _ _ h => ⟨hl.trans h.1, h.2⟩) fun _ h => hl.trans h
  · rintro e w1 ⟨hl, he⟩
    exact (herr e he w1).mono (fun _ _ h => ⟨hl.trans h.1, h.2⟩) (fun _ _ h => ⟨hl.trans h.1, h.2⟩) fun _ h => hl.trans h

theorem bind {m : Call ε α} {f : α → Call ε β} {P : α → Prop} {P' : β → Prop} {F : ε → Prop}
    (hm : Tells m P F) (hf : ∀ a, P a → Tells (f a) P' F) : Tells (m >>= f) P' F := fun w => by
  refine (hm w).seq ?_ (fun _ _ h => h) fun _ h => h
  rintro a w1 ⟨hl, ha⟩
  exact (hf a ha w1).mono (fun _ _ h => ⟨hl.trans h.1, h.2⟩) (fun _ _ h => ⟨hl.trans h.1, h.2⟩) fun _ h => hl.trans h

theorem ite {p : Prop} [Decidable p] {m m' : Call ε α} {P : α → Prop} {F : ε → Prop} (h : p → Tells m P F)
    (h' : ¬ p → Tells m' P F) : Tells (if p then m else m') P F := by
  by_cases hp : p
  · rw [if_pos hp]
    exact h hp
  · rw [if_neg hp]
    exact h' hp

end Tells

theorem tells_sys : Tells sys (fun _ => True) fun e => e = .io := fun w => by
  refine wp_step (Look.refl w) ?_ ?_
  · intro c a w' h
    by_cases hc : c.fault = true
    · simp only [hc, if_true, Prod.mk.injEq] at h
      cases h.1
    · simp only [hc] at h
      obtain ⟨-, rfl⟩ := Prod.mk.inj h
      exact ⟨Look.disturb w c.others, trivial⟩
  · intro c e w' h
    by_cases hc : c.fault = true
    · simp only [hc, if_true] at h
      obtain ⟨h1, rfl⟩ := Prod.mk.inj h
      exact ⟨Look.disturb w c.others, (Except.error.inj h1).symm⟩
    · simp only [hc] at h
      cases (Prod.mk.inj h).1

theorem sees_sys : Sees sys (fun _ _ => True) fun e _ => e = .io := tells_sys.sees

theorem sees_unnamed {m : Call Errno α} {R : α → Home → Prop} {F : Errno → Home → Prop} (h : Sees m R F) :
    Sees (unnamed m) R fun u home => F u.errno home :=
  h.catch (fun _ => Sees.pure fun _ h => h) fun _ => Sees.fail fun _ h => h

/-! ## What the readers saw -/

section

variable (env : Env) (desired : Profile)

/-- The name and the path of a profile that can be located. -/
structure Located (name dir : Bytes) : Prop where
  valid : profileNameValid name = true
  root : ∃ root, env.root = some root ∧ root.length < PROFILE_PATH_CAP ∧ dir = root ++ ascii "/" ++ name
  isPrivate : env.rootPrivate = true
  fits : dir.length < PROFILE_PATH_CAP

theorem tells_hamnHome : Tells (hamnHome env) (fun root =>
    env.root = some root ∧ root.length < PROFILE_PATH_CAP ∧ env.rootPrivate = true) fun _ => True := by
  unfold hamnHome
  cases hr : env.root with
  | none => exact Tells.fail trivial
  | some root =>
    refine Tells.ite (fun _ => Tells.fail trivial) fun hlen => ?_
    refine Tells.bind (fun w => (tells_sys w).mono (fun _ _ h => h) (fun _ _ h => ⟨h.1, trivial⟩) fun _ h => h) fun _ _ => ?_
    exact Tells.ite (fun hp => Tells.pure ⟨rfl, Nat.lt_of_not_le hlen, hp⟩) fun _ => Tells.fail trivial

theorem tells_profileLocate (name : Bytes) :
    Tells (profileLocate env name) (Located env name) fun e => e ≠ .noent := by
  unfold profileLocate
  refine Tells.ite (fun _ => Tells.fail nofun) fun hn => ?_
  refine (tells_hamnHome env).catch (fun root h => ?_) fun _ _ => Tells.fail nofun
  refine Tells.ite (fun _ => Tells.fail nofun) fun hlen => Tells.pure ?_
  exact ⟨by simpa using hn, ⟨root, h.1, h.2.1, rfl⟩, h.2.2, Nat.lt_of_not_le hlen⟩

/-- The configuration in the directory reads as the settings `p`. -/
structure Stored (dir : Bytes) (p : Profile) (home : Home) : Prop where
  fits : profilePathFits dir "config.yaml" = true
  isPrivate : home.isPrivate = true
  found : ∃ a es b text stored, home = .directory a es ∧ a.searchable = true ∧
    Dir.get es (ascii "config.yaml") = some (.file b text) ∧ b.readable = true ∧ text.length ≤ PROFILE_YAML_CAP ∧
    profileParse env.yaml env.cjson text = .ok stored ∧ p = { stored with name := p.name }

/-- A directory without `config.yaml`, or none at all. -/
structure Unstored (home : Home) : Prop where
  config : home.config = none
  isPrivate : home = .absent ∨ home.isPrivate = true

theorem lookup_eq_ok {name : Name} {n : Node} {a : Attr} {es : Dir} :
    (Home.directory a es).lookup name = .ok n ↔ a.searchable = true ∧ Dir.get es name = some n := by
  by_cases ha : a.searchable = true
  · cases hg : Dir.get es name <;> simp [Home.lookup, ha, hg]
  · simp [Home.lookup, ha]

theorem lookup_eq_noent {name : Name} {a : Attr} {es : Dir} :
    (Home.directory a es).lookup name = .error .noent ↔ a.searchable = true ∧ Dir.get es name = none := by
  by_cases ha : a.searchable = true
  · cases hg : Dir.get es name <;> simp [Home.lookup, ha, hg]
  · simp [Home.lookup, ha]

theorem directory_of_isPrivate {home : Home} (h : home.isPrivate = true) : ∃ a es, home = .directory a es := by
  cases home with
  | absent => cases h
  | other m => cases h
  | directory a es => exact ⟨a, es, rfl⟩

/-- What `open` of `config.yaml` returns. -/
def openConfig (home : Home) : Except Errno Node :=
  match home.lookup (ascii "config.yaml") with
  | .ok (.symlink _ _) => .error .loop
  | .ok n => if n.attr.readable then .ok n else .error .access
  | .error e => .error e

theorem openConfig_eq_ok {home : Home} {n : Node} (h : openConfig home = .ok n) :
    home.lookup (ascii "config.yaml") = .ok n ∧ n.attr.readable = true := by
  unfold openConfig at h
  split at h
  · cases h
  · rename_i m _ hl
    by_cases hr : m.attr.readable = true
    · rw [if_pos hr] at h
      obtain rfl := Except.ok.inj h
      exact ⟨hl, hr⟩
    · rw [if_neg hr] at h
      cases h
  · cases h

theorem openConfig_eq_noent {home : Home} (h : openConfig home = .error .noent) :
    home.lookup (ascii "config.yaml") = .error .noent := by
  unfold openConfig at h
  split at h
  · cases h
  · rename_i m _ _
    by_cases hr : m.attr.readable = true
    · rw [if_pos hr] at h
      cases h
    · rw [if_neg hr] at h
      cases h
  · rename_i hl
    rw [hl]
    exact h

theorem sees_profileOpenConfig (dir : Bytes) : Sees (profileOpenConfig dir)
    (fun text home => profilePathFits dir "config.yaml" = true ∧
      match text with
      | none => home.lookup (ascii "config.yaml") = .error .noent
      | some text => ∃ b, home.lookup (ascii "config.yaml") = .ok (.file b text) ∧ b.readable = true ∧
        text.length ≤ PROFILE_YAML_CAP)
    fun u _ => u.errno ≠ .noent := by
  unfold profileOpenConfig
  refine Sees.ite (fun _ => Sees.fail fun _ => nofun) fun hfit => ?_
  have hfit : profilePathFits dir "config.yaml" = true := by simpa using hfit
  refine (sees_read (f := openConfig)).catch (fun n => ?_) fun e => ?_
  · refine Sees.bind (sees_unnamed sees_sys |>.mono (fun _ _ h => h) fun u _ h _ => by rw [h]; nofun) fun _ => ?_
    cases n with
    | file b text =>
      refine Sees.ite (fun _ => Sees.fail fun _ _ _ => nofun) fun hlen => ?_
      refine Sees.bind (sees_unnamed sees_sys |>.mono (fun _ _ h => h) fun u _ h _ _ => by rw [h]; nofun) fun _ => ?_
      refine Sees.pure fun home _ _ ho => ⟨hfit, b, (openConfig_eq_ok ho).1, (openConfig_eq_ok ho).2, ?_⟩
      exact Nat.le_of_not_lt hlen
    | dir b es => exact Sees.fail fun _ _ _ => nofun
    | symlink b t => exact Sees.fail fun _ _ _ => nofun
    | special b => exact Sees.fail fun _ _ _ => nofun
  · cases e with
    | noent => exact Sees.pure fun home h => ⟨hfit, openConfig_eq_noent (h.resolve_left nofun)⟩
    | _ => exact Sees.fail fun _ _ => nofun

/-- What `lstat` of the directory says about who can write it. -/
def statPrivate : Home → Except Errno Bool
  | .absent => .error .noent
  | home => .ok home.isPrivate

theorem statPrivate_eq_noent {home : Home} (h : statPrivate home = .error .noent) : home = .absent := by
  cases home with
  | absent => rfl
  | other m => cases h
  | directory a es => cases h

theorem isPrivate_of_statPrivate {home : Home} {b : Bool} (h : statPrivate home = .ok b) : home.isPrivate = b := by
  cases home with
  | absent => cases h
  | other m => exact Except.ok.inj h
  | directory a es => exact Except.ok.inj h

theorem sees_profileReadExisting (name : Bytes) : Sees (profileReadExisting env name)
    (fun p home => p.name = name ∧ ∃ dir, Located env name dir ∧ Stored env dir p home)
    fun u home => u.errno = .noent → Unstored home := by
  unfold profileReadExisting
  refine Sees.ite (fun _ => Sees.fail fun _ => nofun) fun _ => ?_
  refine (tells_profileLocate env name).sees.catch (fun dir => ?_) fun e => ?_
  swap
  · cases e with
    | inval => exact Sees.fail fun _ _ => nofun
    | _ => exact Sees.fail fun _ hne h => absurd h hne
  refine Sees.bind (R := fun b home => home.isPrivate = b)
    ((sees_unnamed (sees_read (f := statPrivate))).mono (fun _ _ h => isPrivate_of_statPrivate h) ?_) fun b => ?_
  · intro u home h _ hu
    rw [hu] at h
    obtain rfl := statPrivate_eq_noent (h.resolve_left nofun)
    exact ⟨rfl, Or.inl rfl⟩
  refine Sees.ite (fun _ => Sees.fail fun _ _ _ => nofun) fun hb => ?_
  have hb : b = true := by simpa using hb
  subst hb
  refine Sees.bind ((sees_profileOpenConfig dir).mono (fun _ _ h => h) fun u _ hne _ _ hu => absurd hu hne) fun text => ?_
  cases text with
  | none =>
    refine Sees.fail fun home h hp _ _ => ?_
    obtain ⟨a, es, rfl⟩ := directory_of_isPrivate hp
    exact ⟨(lookup_eq_noent.mp h.2).2, Or.inr hp⟩
  | some text =>
    refine Sees.bind (sees_unnamed sees_sys |>.mono (fun _ _ h => h) fun u _ h _ _ _ hu => ?_) fun _ => ?_
    · rw [h] at hu
      cases hu
    cases hparse : profileParse env.yaml env.cjson text with
    | error refusal =>
      cases refusal with
      | memory => exact Sees.fail fun _ _ _ _ _ => nofun
      | rule rule => exact Sees.fail fun _ _ _ _ _ => nofun
    | ok stored =>
      refine Sees.bind (sees_unnamed sees_sys |>.mono (fun _ _ h => h) fun u _ h _ _ _ _ hu => ?_) fun _ => ?_
      · rw [h] at hu
        cases hu
      refine Sees.pure fun home _ _ h hp hl => ⟨rfl, dir, hl, h.1, hp, ?_⟩
      obtain ⟨a, es, rfl⟩ := directory_of_isPrivate hp
      obtain ⟨-, b, hb, hr, hlen⟩ := h
      obtain ⟨ha, hg⟩ := lookup_eq_ok.mp hb
      exact ⟨a, es, b, text, stored, rfl, ha, hg, hr, hlen, hparse, rfl⟩

theorem Located.unique {name dir dir' : Bytes} (h : Located env name dir) (h' : Located env name dir') : dir = dir' := by
  obtain ⟨root, hr, -, rfl⟩ := h.root
  obtain ⟨root', hr', -, rfl⟩ := h'.root
  rw [hr] at hr'
  rw [Option.some.inj hr']

theorem sees_scanLoop : ∀ names, Sees (scanLoop false names) (fun _ _ => True) fun _ _ => True
  | [] => sees_sys.catch (fun _ => Sees.pure fun _ _ => trivial) fun _ => Sees.pure fun _ _ => trivial
  | name :: names => by
    refine sees_sys.catch (fun _ => ?_) fun _ => Sees.pure fun _ _ => trivial
    refine Sees.ite (fun _ => Sees.pure fun _ _ => trivial) fun _ => ?_
    refine Sees.ite (fun _ => Sees.pure fun _ _ => trivial) fun _ => ?_
    rw [Bool.false_and, if_neg Bool.false_ne_true]
    exact (sees_scanLoop names).mono (fun _ _ _ _ => trivial) fun _ _ _ _ => trivial

theorem sees_directoryScan : Sees (directoryScan false) (fun _ _ => True) fun _ _ => True :=
  sees_read.catch (fun names => (sees_scanLoop names).mono (fun _ _ _ _ => trivial) fun _ _ _ _ => trivial)
    fun _ => Sees.pure fun _ _ => trivial

/-- What an evaluation saw: no configuration and no marker of a deleted profile, or settings that may be replaced. -/
def Planned (dir : Bytes) (plan : ApplyPlan) (home : Home) : Prop :=
  home.lookup (ascii "deleted") = .error .noent ∧
  match plan.current with
  | none => plan.action = .create ∧ Unstored home
  | some p => plan.action = (if profileDiff p desired = [] then .none else .configure) ∧
    p.diskGib ≤ desired.diskGib ∧ Stored env dir p home

theorem sees_cannotInspect {R : α → Home → Prop} (errno : Errno) :
    Sees (cannotInspect env desired errno : Call ApplyError α) R fun e _ => e.rc ≠ .unconfirmed :=
  Sees.fail fun _ => nofun

variable {env desired}

theorem sees_applyAttempt {dir : Bytes} (hdir : Located env desired.name dir) (settled last : Bool) :
    Sees (applyAttempt env desired dir settled last)
      (fun plan home => ∀ plan', plan = some plan' → Planned env desired dir plan' home)
      fun e _ => e.rc ≠ .unconfirmed := by
  unfold applyAttempt
  refine (sees_read (f := fun home => match home with
    | .absent => .error .noent
    | _ => .ok ())).catch (fun _ => ?_) fun e => ?_
  swap
  · by_cases he : e = .noent
    · subst he
      refine Sees.pure fun home h plan hp => ?_
      obtain rfl := Option.some.inj hp
      cases home with
      | absent => exact ⟨rfl, rfl, rfl, Or.inl rfl⟩
      | other m => exact absurd (h.resolve_left nofun) nofun
      | directory a es => exact absurd (h.resolve_left nofun) nofun
    · cases e with
      | noent => exact absurd rfl he
      | _ => exact Sees.fail fun _ _ => nofun
  refine Sees.ite (fun _ => Sees.fail fun _ _ => nofun) fun _ => ?_
  refine (sees_read (f := fun home => home.lookup (ascii "deleted"))).catch (fun _ => Sees.fail fun _ _ _ => nofun)
    fun e => ?_
  by_cases he : e = .noent
  swap
  · cases e with
    | noent => exact absurd rfl he
    | _ => exact Sees.fail fun _ _ _ => nofun
  subst he
  refine (sees_profileReadExisting env desired.name).catch (fun p => ?_) fun u => ?_
  · refine Sees.ite (fun _ => Sees.fail fun _ _ _ _ => nofun) fun hdisk => Sees.pure fun home h hdel _ plan hp => ?_
    obtain ⟨-, dir', hdir', hst⟩ := h
    obtain rfl := hdir.unique env hdir'
    obtain rfl := Option.some.inj hp
    exact ⟨hdel.resolve_left nofun, rfl, Nat.le_of_not_lt hdisk, hst⟩
  · refine Sees.ite (fun _ => Sees.fail fun _ _ _ _ => nofun) fun hu => ?_
    have hu : u.errno = .noent := by simpa using hu
    have hcreate : Sees (Pure.pure (some ⟨.create, [], none⟩) : Call ApplyError (Option ApplyPlan))
        (fun plan home => (u.errno = .noent → Unstored home) →
          (Errno.noent = .io ∨ home.lookup (ascii "deleted") = .error .noent) → True → ∀ plan', plan = some plan' →
            Planned env desired dir plan' home) fun e _ => e.rc ≠ .unconfirmed := by
      refine Sees.pure fun home h hdel _ plan hp => ?_
      obtain rfl := Option.some.inj hp
      exact ⟨hdel.resolve_left nofun, rfl, h hu⟩
    refine sees_directoryScan.catch (fun content => ?_) fun errno => ?_
    · cases content with
      | awaits => exact hcreate.mono (fun _ _ h _ h1 h2 h3 => h h1 h2 trivial) fun _ _ h _ _ _ _ => h
      | configured =>
        exact Sees.ite (fun _ => Sees.pure fun _ _ _ _ _ _ => nofun) fun _ => Sees.fail fun _ _ _ _ _ => nofun
      | unreadable errno =>
        exact Sees.ite (fun _ => Sees.pure fun _ _ _ _ _ _ => nofun) fun _ => Sees.fail fun _ _ _ _ _ => nofun
      | foreign =>
        refine Sees.ite (fun _ => Sees.fail fun _ _ _ _ _ => nofun) fun _ => ?_
        exact hcreate.mono (fun _ _ h _ h1 h2 h3 => h h1 h2 trivial) fun _ _ h _ _ _ _ => h
    · exact Sees.fail fun _ _ _ _ _ => nofun

theorem sees_evaluateLoop {dir : Bytes} (hdir : Located env desired.name dir) (settled : Bool) :
    ∀ left, Sees (evaluateLoop env desired dir settled left) (Planned env desired dir) fun e _ => e.rc ≠ .unconfirmed
  | 0 => by
    refine Sees.bind (sees_applyAttempt hdir settled true) fun plan => ?_
    cases plan with
    | none => exact Sees.fail fun _ _ => nofun
    | some plan => exact Sees.pure fun _ h => h plan rfl
  | left + 1 => by
    refine Sees.bind (sees_applyAttempt hdir settled false) fun plan => ?_
    cases plan with
    | none => exact (sees_evaluateLoop hdir settled left).mono (fun _ _ h _ => h) fun _ _ h _ => h
    | some plan => exact Sees.pure fun _ h => h plan rfl

theorem sees_applyEvaluate {dir : Bytes} (hdir : Located env desired.name dir) (settled : Bool) :
    Sees (applyEvaluate env desired dir settled) (Planned env desired dir) fun e _ => e.rc ≠ .unconfirmed :=
  sees_evaluateLoop hdir settled _

theorem wp_applyReport (plan : ApplyPlan) (dryRun : Bool) (w : World) : wp (applyReport desired plan dryRun)
    ⟨fun report w' => Look w w' ∧ report.action = plan.action, fun _ w' => Look w w', fun w' => Look w w'⟩ w :=
  (sees_sys w).catch (fun _ _ h => wp_pure ⟨h.1, rfl⟩) (fun _ _ h => wp_fail h.1) fun _ h => h

/-! ## Writing under the lock -/

theorem disturb_of_locked {w : World} (h : w.locked = true) (others : Option Home) : w.disturb others = w := if_pos h

theorem wp_call {f : Cell → Home → Except Errno α × Home} {Q : Post World Errno α} {w : World} (hl : w.locked = true)
    (hstop : Q.stopped w) (hio : Q.error .io w)
    (hok : ∀ c a home, f c w.home = (.ok a, home) → Q.ok a { w with home })
    (herr : ∀ c e home, f c w.home = (.error e, home) → Q.error e { w with home }) : wp (call f) Q w := by
  have key : ∀ c : Cell, (if c.fault = true then ((.error .io : Except Errno α), w.disturb c.others)
      else ((f c (w.disturb c.others).home).1, { w.disturb c.others with home := (f c (w.disturb c.others).home).2 })) =
      if c.fault = true then (.error .io, w) else ((f c w.home).1, { w with home := (f c w.home).2 }) := by
    intro c
    rw [disturb_of_locked hl]
  refine wp_step hstop ?_ ?_
  · intro c a w' h
    rw [key] at h
    by_cases hc : c.fault = true
    · rw [if_pos hc] at h
      cases (Prod.mk.inj h).1
    · rw [if_neg hc] at h
      obtain ⟨h1, rfl⟩ := Prod.mk.inj h
      exact hok c a _ (Prod.ext h1 rfl)
  · intro c e w' h
    rw [key] at h
    by_cases hc : c.fault = true
    · rw [if_pos hc] at h
      obtain ⟨h1, rfl⟩ := Prod.mk.inj h
      obtain rfl := Except.error.inj h1
      exact hio
    · rw [if_neg hc] at h
      obtain ⟨h1, rfl⟩ := Prod.mk.inj h
      exact herr c e _ (Prod.ext h1 rfl)

theorem wp_sys {Q : Post World Errno Unit} {w : World} (hl : w.locked = true) (hstop : Q.stopped w) (hio : Q.error .io w)
    (hok : Q.ok () w) : wp sys Q w :=
  wp_call hl hstop hio (fun _ _ _ h => by obtain ⟨-, rfl⟩ := Prod.mk.inj h; exact hok)
    fun _ _ _ h => by cases (Prod.mk.inj h).1

/-- The name of a temporary file of `config.yaml`. -/
def isTemporary (x : Name) : Bool := hasPrefix x "config.yaml.tmp."

theorem isTemporary_append (nonce : Bytes) : isTemporary (ascii ("config.yaml" ++ ".tmp.") ++ nonce) = true := by
  have h : "config.yaml" ++ ".tmp." = "config.yaml.tmp." := by decide +kernel
  rw [h]
  exact List.isPrefixOf_iff_prefix.mpr (List.prefix_append _ _)

theorem ne_config_of_isTemporary {x : Name} (h : isTemporary x = true) : x ≠ ascii "config.yaml" := by
  rintro rfl
  revert h
  decide +kernel

/-- From `w` to `w'` the directory kept its entries, but for temporary files and `config.yaml`, which is `n`. -/
def Edits (w w' : World) (n : Option Node) : Prop := ∃ a es es', w.home = .directory a es ∧
  w' = { w with home := .directory a es' } ∧ Dir.get es' (ascii "config.yaml") = n ∧
  ∀ x, x ≠ ascii "config.yaml" → isTemporary x = false → Dir.get es' x = Dir.get es x

namespace Edits

variable {w w' w'' : World} {n n' : Option Node}

theorem trans (h : Edits w w' n) (h' : Edits w' w'' n') : Edits w w'' n' := by
  obtain ⟨a, es, es', ha, rfl, -, hx⟩ := h
  obtain ⟨b, fs, fs', hb, rfl, hn, hy⟩ := h'
  obtain ⟨rfl, rfl⟩ := Home.directory.inj hb
  exact ⟨a, es, fs', ha, rfl, hn, fun x h1 h2 => (hy x h1 h2).trans (hx x h1 h2)⟩

theorem refl {a : Attr} {es : Dir} (h : w.home = .directory a es) : Edits w w w.home.config := by
  refine ⟨a, es, es, h, ?_, ?_, fun _ _ _ => rfl⟩
  · rw [← h]
  · rw [h]
    rfl

theorem config (h : Edits w w' n) : w'.home.config = n := by
  obtain ⟨a, es, es', -, rfl, hn, -⟩ := h
  exact hn

theorem locked (h : Edits w w' n) : w'.locked = w.locked := by
  obtain ⟨a, es, es', -, rfl, -⟩ := h
  rfl

/-- A change of one temporary file. -/
theorem temporary {a : Attr} {es : Dir} {x : Name} (ha : w.home = .directory a es) (hx : isTemporary x = true)
    (m : Option Node) : Edits w { w with home := .directory a (Dir.set es x m) } w.home.config := by
  refine ⟨a, es, _, ha, rfl, ?_, fun y _ hy => Dir.get_set_ne (fun h => ?_) es m⟩
  · rw [ha, Dir.get_set_ne (ne_config_of_isTemporary hx)]
    rfl
  · rw [h, hy] at hx
    cases hx

end Edits

/-- What a stopped or failed write leaves: the old configuration or the new one. -/
def Rest (data : Bytes) (w w' : World) : Prop := ∃ home, w' = { w with home } ∧
  (home.config = w.home.config ∨ home.config = some (.file (.mine 0o600) data))

theorem Edits.rest {w w' : World} (data : Bytes) (h : Edits w w' w.home.config) : Rest data w w' := by
  have hc := h.config
  obtain ⟨a, es, es', -, rfl, -⟩ := h
  exact ⟨_, rfl, Or.inl hc⟩

theorem Edits.rest_new {w w' : World} {data : Bytes} (h : Edits w w' (some (.file (.mine 0o600) data))) :
    Rest data w w' := by
  have hc := h.config
  obtain ⟨a, es, es', -, rfl, -⟩ := h
  exact ⟨_, rfl, Or.inr hc⟩

theorem Rest.refl (data : Bytes) (w : World) : Rest data w w := ⟨w.home, rfl, Or.inl rfl⟩

/-! ### One call -/

theorem directory_of_editable {home : Home} {u : Unit} (h : home.editable = .ok u) :
    ∃ a es, home = .directory a es ∧ a.writable = true ∧ a.searchable = true := by
  cases home with
  | absent => cases h
  | other m => cases h
  | directory a es =>
    unfold Home.editable at h
    by_cases ha : (a.writable && a.searchable) = true
    · exact ⟨a, es, rfl, (Bool.and_eq_true_iff.mp ha).1, (Bool.and_eq_true_iff.mp ha).2⟩
    · simp only [ha] at h
      cases h

theorem create_eq_ok {x : Name} {home home' : Home} {u : Unit} (h : home.create x = (.ok u, home')) :
    ∃ a es, home = .directory a es ∧ a.searchable = true ∧
      home' = .directory a (Dir.set es x (some (.file (.mine 0o600) []))) := by
  unfold Home.create at h
  split at h
  · cases (Prod.mk.inj h).1
  · cases (Prod.mk.inj h).1
  · rename_i he _
    obtain ⟨a, es, rfl, -, hs⟩ := directory_of_editable he
    obtain ⟨-, rfl⟩ := Prod.mk.inj h
    exact ⟨a, es, rfl, hs, rfl⟩
  · cases (Prod.mk.inj h).1

theorem create_eq_error {x : Name} {home home' : Home} {e : Errno} (h : home.create x = (.error e, home')) :
    home' = home := by
  unfold Home.create at h
  split at h
  · exact (Prod.mk.inj h).2.symm
  · exact (Prod.mk.inj h).2.symm
  · cases (Prod.mk.inj h).1
  · exact (Prod.mk.inj h).2.symm

theorem unlink_eq {x : Name} {home home' : Home} {r : Except Errno Unit} (h : home.unlink x = (r, home')) :
    home' = home ∨ ∃ a es, home = .directory a es ∧ home' = .directory a (Dir.set es x none) := by
  unfold Home.unlink at h
  split at h
  · exact Or.inl (Prod.mk.inj h).2.symm
  · exact Or.inl (Prod.mk.inj h).2.symm
  · exact Or.inl (Prod.mk.inj h).2.symm
  · rename_i _ he _
    obtain ⟨a, es, rfl, -⟩ := directory_of_editable he
    exact Or.inr ⟨a, es, rfl, (Prod.mk.inj h).2.symm⟩

theorem rename_eq_ok {x y : Name} {home home' : Home} {u : Unit} (h : home.rename x y = (.ok u, home')) :
    ∃ a es n, home = .directory a es ∧ Dir.get es x = some n ∧
      home' = .directory a (Dir.set (Dir.set es x none) y (some n)) := by
  unfold Home.rename at h
  split at h
  · cases (Prod.mk.inj h).1
  · cases (Prod.mk.inj h).1
  · cases (Prod.mk.inj h).1
  · rename_i n he hx _
    obtain ⟨a, es, rfl, -⟩ := directory_of_editable he
    exact ⟨a, es, n, rfl, (lookup_eq_ok.mp hx).2, (Prod.mk.inj h).2.symm⟩

theorem rename_eq_error {x y : Name} {home home' : Home} {e : Errno} (h : home.rename x y = (.error e, home')) :
    home' = home := by
  unfold Home.rename at h
  split at h
  · exact (Prod.mk.inj h).2.symm
  · exact (Prod.mk.inj h).2.symm
  · exact (Prod.mk.inj h).2.symm
  · cases (Prod.mk.inj h).1

/-! ### `fs_write_file_atomic` -/

/-- From `w` to `w'` only temporary files changed, and the file `tmp` holds `c`. -/
def Holds (tmp : Name) (c : Bytes) (w w' : World) : Prop := Edits w w' w.home.config ∧ isTemporary tmp = true ∧
  ∃ a es, w'.home = .directory a es ∧ a.searchable = true ∧ Dir.get es tmp = some (.file (.mine 0o600) c)

/-- The file `tmp` changed its content. -/
theorem Holds.update {tmp : Name} {c c' : Bytes} {w w' : World} {f : Node → Node} (h : Holds tmp c w w')
    (hf : f (.file (.mine 0o600) c) = .file (.mine 0o600) c') :
    Holds tmp c' w { w' with home := w'.home.update tmp f } := by
  obtain ⟨he, ht, a, es, ha, hs, hg⟩ := h
  have hu : w'.home.update tmp f = .directory a (Dir.set es tmp (some (.file (.mine 0o600) c'))) := by
    unfold Home.update
    rw [ha, lookup_eq_ok.mpr ⟨hs, hg⟩, ← hf]
    rfl
  rw [hu]
  refine ⟨?_, ht, a, _, rfl, hs, Dir.get_set_self _ _ _⟩
  have := he.trans (Edits.temporary ha ht (some (.file (.mine 0o600) c')))
  rwa [he.config] at this

theorem wp_openTemporary {w : World} (hl : w.locked = true) :
    ∀ tries, wp (openTemporary "config.yaml" tries) ⟨fun tmp w' => Holds tmp [] w w', fun _ w' => w' = w, fun w' => w' = w⟩ w
  | 0 => wp_fail rfl
  | tries + 1 => by
    refine wp_bind (wp_attempt (wp_call hl rfl (wp_fail rfl) ?_ ?_))
    · intro c tmp home h
      dsimp only at h
      split at h
      · rename_i home' hc
        obtain ⟨h1, rfl⟩ := Prod.mk.inj h
        obtain rfl := Except.ok.inj h1
        obtain ⟨a, es, ha, hs, rfl⟩ := create_eq_ok hc
        have ht := isTemporary_append c.nonce
        exact wp_pure ⟨Edits.temporary ha ht _, ht, a, _, rfl, hs, Dir.get_set_self _ _ _⟩
      · cases (Prod.mk.inj h).1
    · intro c e home h
      dsimp only at h
      split at h
      · cases (Prod.mk.inj h).1
      · rename_i e' home' hc
        obtain ⟨h1, rfl⟩ := Prod.mk.inj h
        obtain rfl := Except.error.inj h1
        obtain rfl := create_eq_error hc
        cases e' with
        | exist => exact wp_openTemporary hl tries
        | _ => exact wp_fail rfl

theorem wp_fullWrite {tmp : Name} {c data : Bytes} {w w' : World} (hl : w'.locked = true) (h : Holds tmp c w w') :
    wp (fullWrite tmp data) ⟨fun _ => Holds tmp data w, fun _ w'' => ∃ c, Holds tmp c w w'', fun w'' => ∃ c, Holds tmp c w w''⟩
      w' := by
  refine wp_step ⟨c, h⟩ ?_ ?_
  · intro cell u w'' he
    rw [disturb_of_locked hl] at he
    by_cases hf : cell.fault = true
    · rw [if_pos hf] at he
      cases (Prod.mk.inj he).1
    · rw [if_neg hf] at he
      obtain ⟨-, rfl⟩ := Prod.mk.inj he
      exact h.update rfl
  · intro cell e w'' he
    rw [disturb_of_locked hl] at he
    by_cases hf : cell.fault = true
    · rw [if_pos hf] at he
      obtain ⟨-, rfl⟩ := Prod.mk.inj he
      exact ⟨_, h.update rfl⟩
    · rw [if_neg hf] at he
      cases (Prod.mk.inj he).1

theorem Holds.locked {tmp : Name} {c : Bytes} {w w' : World} (h : Holds tmp c w w') (hl : w.locked = true) :
    w'.locked = true := h.1.locked.trans hl

theorem wp_replaceBy {tmp : Name} {c : Bytes} (data : Bytes) {w w' : World} (hl : w.locked = true) (h : Holds tmp c w w') :
    wp (replaceBy tmp "config.yaml" data) ⟨fun _ w'' => Edits w w'' (some (.file (.mine 0o600) data)),
      fun _ w'' => ∃ c, Holds tmp c w w'', fun w'' => ∃ c, Holds tmp c w w''⟩ w' := by
  refine wp_bind (wp_call (h.locked hl) ⟨c, h⟩ ⟨c, h⟩ ?_ fun _ _ _ he => by cases (Prod.mk.inj he).1)
  intro _ _ home he
  obtain ⟨-, rfl⟩ := Prod.mk.inj he
  have h1 : Holds tmp c w { w' with home := w'.home.update tmp (Node.setMode 0o600) } := h.update rfl
  refine (wp_fullWrite (h1.locked hl) h1).seq ?_ (fun _ _ h => h) fun _ h => h
  intro _ w2 h2
  refine wp_bind (wp_sys (h2.locked hl) ⟨_, h2⟩ ⟨_, h2⟩ ?_)
  refine wp_bind (wp_sys (h2.locked hl) ⟨_, h2⟩ ⟨_, h2⟩ ?_)
  refine wp_call (h2.locked hl) ⟨_, h2⟩ ⟨_, h2⟩ ?_ ?_
  · intro _ _ home he
    obtain ⟨hed, ht, a, es, ha, hs, hg⟩ := h2
    obtain ⟨b, fs, n, hb, hn, rfl⟩ := rename_eq_ok he
    rw [ha] at hb
    obtain ⟨rfl, rfl⟩ := Home.directory.inj hb
    rw [hg] at hn
    obtain rfl := Option.some.inj hn
    refine hed.trans ⟨a, es, _, ha, rfl, Dir.get_set_self _ _ _, fun x hx hxt => ?_⟩
    rw [Dir.get_set_ne (Ne.symm hx), Dir.get_set_ne]
    rintro rfl
    rw [hxt] at ht
    cases ht
  · intro _ _ home he
    obtain rfl := rename_eq_error he
    exact ⟨_, h2⟩

theorem wp_fsWriteFileAtomic {w : World} (hl : w.locked = true) (data : Bytes) :
    wp (fsWriteFileAtomic "config.yaml" data)
      ⟨fun _ w' => Edits w w' (some (.file (.mine 0o600) data)), fun _ => Rest data w, Rest data w⟩ w := by
  have hrest : Rest data w w := Rest.refl data w
  refine wp_bind (wp_call hl hrest hrest ?_ fun _ _ _ he => by obtain ⟨-, rfl⟩ := Prod.mk.inj he; exact hrest)
  intro _ _ home he
  obtain ⟨-, rfl⟩ := Prod.mk.inj he
  refine wp_bind (wp_sys hl hrest hrest ?_)
  refine (wp_openTemporary hl 8).seq ?_ (fun _ _ h => h ▸ hrest) fun _ h => h ▸ hrest
  intro tmp w1 h1
  refine (wp_replaceBy data hl h1).catch ?_ ?_ fun _ h => by obtain ⟨c, h⟩ := h; exact h.1.rest data
  · intro _ w2 h2
    have hl2 := h2.locked.trans hl
    exact wp_bind (wp_sys hl2 h2.rest_new h2.rest_new (wp_sys hl2 h2.rest_new h2.rest_new h2))
  · rintro errno w2 ⟨c, h2⟩
    have hrest2 := h2.1.rest data
    have hunlink : wp (Proc.ignore (call fun _ home => home.unlink tmp))
        ⟨fun _ w' => Rest data w w', fun (_ : Errno) _ => False, Rest data w⟩ w2 := by
      refine wp_ignore (wp_call (h2.locked hl) hrest2 hrest2 ?_ ?_)
      all_goals
        intro _ _ home he
        rcases unlink_eq he with rfl | ⟨a, es, ha, rfl⟩
        · exact hrest2
        · have := h2.1.trans (Edits.temporary ha h2.2.1 none)
          rw [h2.1.config] at this
          exact this.rest data
    exact hunlink.seq (fun _ _ h => wp_fail h) (fun _ _ h => h.elim) fun _ h => h

/-! ### Saving -/

/-- Under the lock a part that only looks sees the directory as it stays. -/
theorem Sees.locked {m : Call ε α} {R : α → Home → Prop} {F : ε → Home → Prop} (h : Sees m R F) {w : World}
    (hl : w.locked = true) :
    wp m ⟨fun a w' => w' = w ∧ R a w.home, fun e w' => w' = w ∧ F e w.home, fun w' => w' = w⟩ w := by
  refine (h w).mono ?_ ?_ fun w' h => h.same hl
  · rintro a w' ⟨hlook, ha⟩
    obtain rfl := hlook.same hl
    exact ⟨rfl, ha (Or.inl hl)⟩
  · rintro e w' ⟨hlook, he⟩
    obtain rfl := hlook.same hl
    exact ⟨rfl, he (Or.inl hl)⟩

theorem length_textAppend {text more text' : Bytes} (h : textAppend text more = .ok text') :
    text'.length < PROFILE_YAML_CAP := by
  unfold textAppend at h
  by_cases hlen : text.length + more.length < PROFILE_YAML_CAP
  · rw [if_pos hlen] at h
    obtain rfl := Except.ok.inj h
    rwa [List.length_append]
  · rw [if_neg hlen] at h
    cases h

theorem length_hooksText : ∀ (hooks : List ProfileHook) {text text' : Bytes}, text.length < PROFILE_YAML_CAP →
    hooks.foldlM hookText text = .ok text' → text'.length < PROFILE_YAML_CAP
  | [], text, text', hlen, h => by
    obtain rfl := Except.ok.inj h
    exact hlen
  | hook :: hooks, text, text', hlen, h => by
    rw [List.foldlM_cons] at h
    obtain ⟨t, ht, h⟩ := Result.bind_eq_ok.mp h
    refine length_hooksText hooks ?_ h
    unfold hookText at ht
    obtain ⟨_, -, ht⟩ := Result.bind_eq_ok.mp ht
    obtain ⟨_, -, ht⟩ := Result.bind_eq_ok.mp ht
    obtain ⟨_, -, ht⟩ := Result.bind_eq_ok.mp ht
    obtain ⟨_, -, ht⟩ := Result.bind_eq_ok.mp ht
    exact length_textAppend ht

/-- The text of a configuration fits in the file that is read. -/
theorem length_profileText {text : Bytes} (h : profileText env.yaml env.cjson desired = .ok text) :
    text.length < PROFILE_YAML_CAP := by
  unfold profileText at h
  obtain ⟨-, h⟩ := Result.else_of_eq h nofun
  obtain ⟨text', hs, h⟩ := Result.bind_eq_ok.mp h
  obtain rfl : text' = text := by
    by_cases hb : profileTextReadsBack env.yaml env.cjson desired text' = true
    · rw [if_pos hb] at h
      exact Except.ok.inj h
    · rw [if_neg hb] at h
      cases h
  unfold profileSerialize at hs
  obtain ⟨_, -, hs⟩ := Result.bind_eq_ok.mp hs
  obtain ⟨_, -, hs⟩ := Result.bind_eq_ok.mp hs
  obtain ⟨_, -, hs⟩ := Result.bind_eq_ok.mp hs
  obtain ⟨_, -, hs⟩ := Result.bind_eq_ok.mp hs
  obtain ⟨_, -, hs⟩ := Result.bind_eq_ok.mp hs
  obtain ⟨_, -, hs⟩ := Result.bind_eq_ok.mp hs
  obtain ⟨_, -, hs⟩ := Result.bind_eq_ok.mp hs
  obtain ⟨_, ht, hs⟩ := Result.bind_eq_ok.mp hs
  exact length_hooksText _ (length_textAppend ht) hs

variable (env desired) in
/-- The directory holds the settings of the definition, in a profile that is not deleted. -/
def Matches (dir : Bytes) (home : Home) : Prop := home.lookup (ascii "deleted") = .error .noent ∧
  ∃ p, Stored env dir p home ∧ profileDiff p desired = []

/-- Settings that were read from a file are those in its text. -/
theorem Stored.diff_eq_nil {dir text : Bytes} {p : Profile} {home : Home} {b : Attr} (h : Stored env dir p home)
    (htext : profileText env.yaml env.cjson desired = .ok text) (hc : home.config = some (.file b text)) :
    profileDiff p desired = [] := by
  obtain ⟨a, es, b', text', stored, rfl, -, hg, -, -, hparse, hp⟩ := h.found
  obtain ⟨stored', hparse', hdiff⟩ := readsBack_of_profileText env.yaml env.cjson htext
  have htt : (Node.file b' text') = .file b text := Option.some.inj (hg.symm.trans hc)
  obtain ⟨rfl, rfl⟩ := Node.file.inj htt
  rw [hparse] at hparse'
  obtain rfl := Except.ok.inj hparse'
  refine profileDiff_trans (profileDiff_eq_nil.mpr ?_) (profileDiff_symm hdiff)
  rw [hp]

/-- The directory after the configuration was written. -/
theorem matches_of_edits {dir text : Bytes} {w w' : World} (htext : profileText env.yaml env.cjson desired = .ok text)
    (hfit : profilePathFits dir "config.yaml" = true) (hp : w.home.isPrivate = true)
    (hdel : w.home.lookup (ascii "deleted") = .error .noent)
    (h : Edits w w' (some (.file (.mine 0o600) text))) : Matches env desired dir w'.home := by
  have hc := h.config
  obtain ⟨a, es, es', ha, rfl, hg, hx⟩ := h
  rw [ha] at hp hdel
  obtain ⟨hs, hdel⟩ := lookup_eq_noent.mp hdel
  obtain ⟨stored, hparse, -⟩ := readsBack_of_profileText env.yaml env.cjson htext
  have hst : Stored env dir stored (.directory a es') :=
    ⟨hfit, hp, a, es', .mine 0o600, text, stored, rfl, hs, hg, by decide, (length_profileText htext).le, hparse, rfl⟩
  refine ⟨lookup_eq_noent.mpr ⟨hs, ?_⟩, stored, hst, hst.diff_eq_nil htext hc⟩
  rw [hx _ (by decide +kernel) (by decide +kernel), hdel]

theorem wp_profileSave {dir text : Bytes} {w : World} (htext : profileText env.yaml env.cjson desired = .ok text)
    (hl : w.locked = true) : wp (profileSave env desired dir)
      ⟨fun _ w' => profilePathFits dir "config.yaml" = true ∧ Edits w w' (some (.file (.mine 0o600) text)),
        fun _ => Rest text w, Rest text w⟩ w := by
  unfold profileSave
  rw [htext]
  change wp (if profilePathFits dir "config.yaml" = false then _ else _) _ w
  by_cases hfit : profilePathFits dir "config.yaml" = false
  · rw [if_pos hfit]
    exact wp_fail (Rest.refl text w)
  · rw [if_neg hfit]
    exact (wp_fsWriteFileAtomic hl text).mono (fun _ _ h => ⟨Bool.eq_true_of_not_eq_false hfit, h⟩) (fun _ _ h => h) fun _ h => h

theorem rmdir_config (home : Home) : home.rmdir.2.config = home.config := by
  cases home with
  | absent => rfl
  | other m => rfl
  | directory a es =>
    cases es with
    | nil => rfl
    | cons e es => rfl

theorem wp_applySave {dir text : Bytes} {w : World} (htext : profileText env.yaml env.cjson desired = .ok text)
    (hl : w.locked = true) (made : Bool) : wp (applySave env desired dir made)
      ⟨fun _ w' => profilePathFits dir "config.yaml" = true ∧ Edits w w' (some (.file (.mine 0o600) text)),
        fun e w' => ∃ home, w' = { w with home } ∧ (e.rc ≠ .unconfirmed → home.config = w.home.config),
        fun w' => ∃ home, w' = { w with home }⟩ w := by
  refine (wp_profileSave htext hl).catch (fun _ _ h => wp_pure h) ?_ fun _ h => ⟨_, h.choose_spec.1⟩
  rintro saved w1 ⟨home1, rfl, hrest⟩
  have hgive : home1.config = w.home.config → wp (do
      if made then Proc.ignore (call fun _ home => home.rmdir)
      refuse .failed (ascii "cannot save settings: " ++ env.strerror saved) : Call ApplyError Unit)
      ⟨fun _ w' => profilePathFits dir "config.yaml" = true ∧ Edits w w' (some (.file (.mine 0o600) text)),
        fun e w' => ∃ home, w' = { w with home } ∧ (e.rc ≠ .unconfirmed → home.config = w.home.config),
        fun w' => ∃ home, w' = { w with home }⟩ { w with home := home1 } := by
    intro hsame
    by_cases hm : made = true
    · simp only [hm, if_true]
      refine wp_bind (wp_ignore (wp_call hl ⟨_, rfl⟩ (wp_fail ⟨_, rfl, fun _ => hsame⟩) ?_ ?_))
      all_goals
        intro _ _ home h
        refine wp_fail ⟨home, rfl, fun _ => ?_⟩
        have hr : home = home1.rmdir.2 := congrArg Prod.snd h.symm
        rw [hr, rmdir_config, hsame]
    · simp only [hm]
      exact wp_fail ⟨_, rfl, fun _ => hsame⟩
  have hread := (sees_profileReadExisting env desired.name).locked (w := { w with home := home1 }) hl
  refine hread.catch ?_ ?_ fun _ h => ⟨_, h⟩
  · rintro stored _ ⟨rfl, -, dir', -, hst⟩
    by_cases hdiff : profileDiff stored desired = []
    · simp only [hdiff, if_true]
      exact wp_fail ⟨_, rfl, fun h => absurd rfl h⟩
    · simp only [hdiff]
      refine hgive (hrest.resolve_right fun hnew => hdiff (hst.diff_eq_nil htext hnew))
  · rintro u _ ⟨rfl, hu⟩
    by_cases hne : u.errno = .noent
    · simp only [hne, ne_eq, not_true, if_false]
      refine hgive (hrest.resolve_right fun hnew => ?_)
      rw [(hu hne).config] at hnew
      cases hnew
    · simp only [ne_eq, hne, not_false_eq_true, if_true]
      exact wp_fail ⟨_, rfl, fun h => absurd rfl h⟩

/-! ### Creating and configuring -/

theorem wp_scanLoop {w : World} (hl : w.locked = true) :
    ∀ (names : List Name) {w' : World}, Edits w w' w.home.config →
      wp (scanLoop true names) (Post.always fun w' => Edits w w' w.home.config) w'
  | [], w', h => by
    have hl' := h.locked.trans hl
    exact wp_bind (wp_attempt (wp_sys hl' h (wp_pure h) (wp_pure h)))
  | name :: names, w', h => by
    have hl' := h.locked.trans hl
    refine wp_bind (wp_attempt (wp_sys hl' h (wp_pure h) ?_))
    by_cases hcfg : name = ascii "config.yaml"
    · simp only [hcfg, if_true]
      exact wp_pure h
    simp only [hcfg, if_false]
    by_cases hpre : precedesConfiguration name = false
    · simp only [hpre, if_true]
      exact wp_pure h
    simp only [hpre, Bool.true_and]
    by_cases ht : hasPrefix name "config.yaml.tmp." = true
    swap
    · simp only [ht]
      exact wp_scanLoop hl names h
    simp only [ht, if_true]
    have hunlink : ∀ {r : Except Errno Unit} {home : Home}, w'.home.unlink name = (r, home) →
        Edits w { w' with home } w.home.config := by
      intro r home hu
      rcases unlink_eq hu with rfl | ⟨a, es, ha, rfl⟩
      · exact h
      · have := h.trans (Edits.temporary ha ht none)
        rwa [h.config] at this
    refine wp_bind (wp_attempt (wp_call hl' h (wp_pure h) ?_ ?_))
    · intro _ _ home hu
      exact wp_scanLoop hl names (hunlink hu)
    · intro _ e home hu
      cases e with
      | noent => exact wp_scanLoop hl names (hunlink hu)
      | _ => exact wp_pure (hunlink hu)

theorem wp_directoryScan {w : World} {a : Attr} {es : Dir} (hl : w.locked = true) (ha : w.home = .directory a es) :
    wp (directoryScan true) (Post.always fun w' => Edits w w' w.home.config) w := by
  have h0 := Edits.refl ha
  refine wp_bind (wp_attempt (wp_call hl h0 (wp_pure h0) ?_ ?_))
  · intro _ names home h
    obtain ⟨-, rfl⟩ := Prod.mk.inj h
    exact wp_scanLoop hl names h0
  · intro _ e home h
    obtain ⟨-, rfl⟩ := Prod.mk.inj h
    exact wp_pure h0

theorem wp_applyCreate {dir text : Bytes} {w : World} (htext : profileText env.yaml env.cjson desired = .ok text)
    (hl : w.locked = true) (hdel : w.home.lookup (ascii "deleted") = .error .noent) (hun : Unstored w.home) :
    wp (applyCreate env desired dir)
      ⟨fun _ w' => ∃ home, w' = { w with home } ∧ Matches env desired dir home,
        fun e w' => ∃ home, w' = { w with home } ∧ (e.rc ≠ .unconfirmed → home.config = w.home.config),
        fun w' => ∃ home, w' = { w with home }⟩ w := by
  have hself : ∃ home, w = { w with home } ∧ home.config = w.home.config := ⟨w.home, rfl, rfl⟩
  refine wp_bind (wp_attempt (wp_call hl ⟨_, rfl⟩ (wp_fail ⟨_, rfl, fun _ => rfl⟩) ?_ ?_))
  · intro _ _ home h
    cases hh : w.home with
    | other m =>
      rw [hh] at h
      cases (Prod.mk.inj h).1
    | directory a es =>
      rw [hh] at h
      cases (Prod.mk.inj h).1
    | absent =>
      rw [hh] at h
      obtain ⟨-, rfl⟩ := Prod.mk.inj h
      refine (wp_applySave (w := { w with home := .directory (.mine 0o700) [] }) htext hl true).mono ?_ ?_ ?_
      · rintro _ w' ⟨hfit, he⟩
        have hp : (Home.directory (.mine 0o700) []).isPrivate = true := by decide
        have hm := matches_of_edits htext hfit hp (lookup_eq_noent.mpr ⟨by decide, rfl⟩) he
        obtain ⟨a, es, es', -, rfl, -⟩ := he
        exact ⟨_, rfl, hm⟩
      · rintro e w' ⟨home, rfl, hc⟩
        exact ⟨home, rfl, hc⟩
      · rintro w' ⟨home, rfl⟩
        exact ⟨home, rfl⟩
  · intro _ e home h
    obtain ⟨he, rfl⟩ : e = .exist ∧ home = w.home := by
      cases hh : w.home with
      | absent =>
        rw [hh] at h
        cases (Prod.mk.inj h).1
      | _ =>
        rw [hh] at h
        exact ⟨(Except.error.inj (Prod.mk.inj h).1).symm, (Prod.mk.inj h).2.symm⟩
    subst he
    have hp : w.home.isPrivate = true := hun.isPrivate.resolve_left fun hab => by
      rw [hab] at h
      cases (Prod.mk.inj h).1
    obtain ⟨a, es, ha⟩ := directory_of_isPrivate hp
    have hkeep : ∀ w', Edits w w' w.home.config → ∃ home, w' = { w with home } ∧ home.config = w.home.config := by
      intro w' he
      have hc := he.config
      obtain ⟨b, fs, fs', -, rfl, -⟩ := he
      exact ⟨_, rfl, hc⟩
    refine (wp_directoryScan hl ha).catch ?_ ?_ fun w' he => ⟨_, (hkeep w' he).choose_spec.1⟩
    · intro content w1 he
      obtain ⟨home1, hw1, hc1⟩ := hkeep w1 he
      have hfail : ∀ rc message, wp (refuse rc message : Call ApplyError Unit)
          ⟨fun _ w' => ∃ home, w' = { w with home } ∧ Matches env desired dir home,
            fun e w' => ∃ home, w' = { w with home } ∧ (e.rc ≠ .unconfirmed → home.config = w.home.config),
            fun w' => ∃ home, w' = { w with home }⟩ w1 := fun _ _ => wp_fail ⟨home1, hw1, fun _ => hc1⟩
      cases content with
      | unreadable errno => exact hfail _ _
      | foreign => exact hfail _ _
      | configured => exact hfail _ _
      | awaits =>
        refine (wp_applySave htext (he.locked.trans hl) false).mono ?_ ?_ ?_
        · rintro _ w' ⟨hfit, he'⟩
          have hm := matches_of_edits htext hfit hp hdel (he.trans he')
          obtain ⟨b, fs, fs', -, rfl, -⟩ := he.trans he'
          exact ⟨_, rfl, hm⟩
        · rintro e w' ⟨home, rfl, hc⟩
          subst hw1
          exact ⟨home, rfl, fun h => (hc h).trans hc1⟩
        · rintro w' ⟨home, rfl⟩
          subst hw1
          exact ⟨home, rfl⟩
    · intro errno w1 he
      obtain ⟨home1, hw1, hc1⟩ := hkeep w1 he
      exact wp_fail ⟨home1, hw1, fun _ => hc1⟩

variable (env desired) in
/-- The settings in `before` were replaced only with a VM that is known to be stopped and a disk that does not shrink. -/
def Guarded (dir : Bytes) (before : Home) (w' : World) : Prop :=
  w'.home.config ≠ before.config → before.config ≠ none →
    w'.probed = some .stale ∧ ∃ p, Stored env dir p before ∧ p.diskGib ≤ desired.diskGib

theorem Guarded.of_eq {dir : Bytes} {before : Home} {w' : World} (h : w'.home.config = before.config) :
    Guarded env desired dir before w' := fun hne => absurd h hne

theorem Guarded.of_none {dir : Bytes} {before : Home} {w' : World} (h : before.config = none) :
    Guarded env desired dir before w' := fun _ hne => absurd h hne

/-- No other call wrote from `w` to `w'`. -/
def Undisturbed (w w' : World) : Prop := w'.before = w.before ∧ w'.disturbed = w.disturbed

/-- A section under the lock: what it leaves, and what its return says. -/
def lockedPost (env : Env) (desired : Profile) (dir : Bytes) (w : World) (R : α → World → Prop) : Post World ApplyError α where
  ok a w' := Undisturbed w w' ∧ Guarded env desired dir w.home w' ∧ Matches env desired dir w'.home ∧ R a w'
  error e w' := Undisturbed w w' ∧ Guarded env desired dir w.home w' ∧
    (e.rc ≠ .unconfirmed → w'.home.config = w.home.config)
  stopped w' := Undisturbed w w' ∧ Guarded env desired dir w.home w'

theorem set_config {x : Name} (hx : x ≠ ascii "config.yaml") (n : Option Node) (home : Home) :
    (home.set x n).config = home.config := by
  cases home with
  | absent => rfl
  | other m => rfl
  | directory a es => exact Dir.get_set_ne hx es n

theorem wp_applyConfigure {dir text : Bytes} {w : World} {plan : ApplyPlan} {p : Profile}
    (htext : profileText env.yaml env.cjson desired = .ok text) (hl : w.locked = true)
    (hdel : w.home.lookup (ascii "deleted") = .error .noent) (hdisk : p.diskGib ≤ desired.diskGib)
    (hst : Stored env dir p w.home) :
    wp (applyConfigure env desired dir plan) (lockedPost env desired dir w fun _ w' => w'.locked = true) w := by
  have hstep : wp vmProcessProbe ⟨fun vm w' => w'.probed = some vm ∧ Undisturbed w w' ∧ w'.locked = true ∧
      w'.home.config = w.home.config ∧ (vm = .stale → w'.home = w.home), fun (_ : ApplyError) _ => False,
      fun w' => w' = w⟩ w := by
    refine wp_step rfl ?_ ?_
    · intro c vm w' h
      rw [disturb_of_locked hl] at h
      dsimp only at h
      split at h
      · obtain ⟨h1, rfl⟩ := Prod.mk.inj h
        exact ⟨congrArg some (Except.ok.inj h1), ⟨rfl, rfl⟩, hl, rfl, fun _ => rfl⟩
      · obtain ⟨h1, rfl⟩ := Prod.mk.inj h
        exact ⟨congrArg some (Except.ok.inj h1), ⟨rfl, rfl⟩, hl, rfl, fun _ => rfl⟩
      · rename_i n _ hvm
        obtain ⟨h1, rfl⟩ := Prod.mk.inj h
        refine ⟨congrArg some (Except.ok.inj h1), ⟨rfl, rfl⟩, hl, ?_, fun hs => absurd ((Except.ok.inj h1).trans hs) hvm⟩
        rw [set_config (by decide +kernel), set_config (by decide +kernel)]
    · intro c e w' h
      rw [disturb_of_locked hl] at h
      dsimp only at h
      split at h <;> cases (Prod.mk.inj h).1
  refine hstep.seq ?_ (fun _ _ h => h.elim) ?_
  · rintro vm w1 ⟨hprobed, hbefore, hl1, hcfg, hstale⟩
    cases vm with
    | verified => exact wp_fail ⟨hbefore, Guarded.of_eq hcfg, fun _ => hcfg⟩
    | unverified => exact wp_fail ⟨hbefore, Guarded.of_eq hcfg, fun _ => hcfg⟩
    | stale =>
      have hhome := hstale rfl
      have hguard : ∀ home, Guarded env desired dir w.home { w1 with home } :=
        fun home _ _ => ⟨hprobed, p, hst, hdisk⟩
      refine (wp_applySave htext hl1 false).mono ?_ ?_ ?_
      · rintro _ w' ⟨hfit, he⟩
        have hm := matches_of_edits htext hfit (hhome ▸ hst.isPrivate) (hhome ▸ hdel) he
        obtain ⟨b, fs, fs', -, rfl, -⟩ := he
        exact ⟨hbefore, hguard _, hm, hl1⟩
      · rintro e w' ⟨home, rfl, hc⟩
        exact ⟨hbefore, hguard home, fun h => (hc h).trans hcfg⟩
      · rintro w' ⟨home, rfl⟩
        exact ⟨hbefore, hguard home⟩
  · rintro w' rfl
    exact ⟨⟨rfl, rfl⟩, Guarded.of_eq rfl⟩

/-- The plan of an evaluation that found the settings of the definition. -/
theorem Planned.matches {dir : Bytes} {plan : ApplyPlan} {home : Home} (h : Planned env desired dir plan home)
    (hnone : plan.action = .none) : Matches env desired dir home := by
  obtain ⟨hdel, h⟩ := h
  cases hc : plan.current with
  | none =>
    rw [hc] at h
    rw [h.1] at hnone
    cases hnone
  | some p =>
    rw [hc] at h
    refine ⟨hdel, p, h.2.2, ?_⟩
    by_contra hne
    rw [h.1, if_neg hne] at hnone
    cases hnone

/-- A directory with the settings of the definition asks for nothing. -/
theorem Planned.action_eq_none {dir : Bytes} {plan : ApplyPlan} {home : Home} (h : Planned env desired dir plan home)
    (hm : Matches env desired dir home) : plan.action = .none := by
  obtain ⟨-, p, hst, hdiff⟩ := hm
  obtain ⟨a, es, b, text, stored, rfl, -, hg, -, -, hparse, hp⟩ := hst.found
  obtain ⟨-, h⟩ := h
  cases hc : plan.current with
  | none =>
    rw [hc] at h
    have hnone : Dir.get es (ascii "config.yaml") = none := h.2.config
    rw [hg] at hnone
    cases hnone
  | some p' =>
    rw [hc] at h
    obtain ⟨a', es', b', text', stored', he, -, hg', -, -, hparse', hp'⟩ := h.2.2.found
    obtain ⟨rfl, rfl⟩ := Home.directory.inj he
    rw [hg] at hg'
    obtain ⟨rfl, rfl⟩ := Node.file.inj (Option.some.inj hg')
    rw [hparse] at hparse'
    obtain rfl := Except.ok.inj hparse'
    rw [h.1, if_pos]
    refine profileDiff_trans (profileDiff_eq_nil.mpr ?_) hdiff
    rw [hp', hp]

/-! ## The call -/

theorem wp_profileMutationLock {w : World} (hl : w.locked = true) :
    wp profileMutationLock (Post.always fun w' => ∃ b, w' = { w with mutationFile := b }) w := by
  refine wp_bind (wp_step ⟨_, rfl⟩ ?_ ?_)
  · intro c _ w' h
    rw [disturb_of_locked hl] at h
    by_cases hc : c.fault = true
    · rw [if_pos hc] at h
      cases (Prod.mk.inj h).1
    · rw [if_neg hc] at h
      obtain ⟨-, rfl⟩ := Prod.mk.inj h
      exact wp_sys hl ⟨_, rfl⟩ ⟨_, rfl⟩ ⟨_, rfl⟩
  · intro c e w' h
    rw [disturb_of_locked hl] at h
    by_cases hc : c.fault = true
    · rw [if_pos hc] at h
      obtain ⟨-, rfl⟩ := Prod.mk.inj h
      exact ⟨_, rfl⟩
    · rw [if_neg hc] at h
      cases (Prod.mk.inj h).1

theorem wp_applyWrite {dir text : Bytes} {w : World} {plan : ApplyPlan}
    (htext : profileText env.yaml env.cjson desired = .ok text) (hl : w.locked = true)
    (hplan : Planned env desired dir plan w.home) (hne : plan.action ≠ .none) :
    wp (applyWrite env desired dir plan) (lockedPost env desired dir w fun report _ => report.action ≠ .none) w := by
  have hw : Undisturbed w w ∧ Guarded env desired dir w.home w := ⟨⟨rfl, rfl⟩, Guarded.of_eq rfl⟩
  refine (wp_profileMutationLock hl).catch ?_ ?_ ?_
  · rintro _ w1 ⟨b, rfl⟩
    have hsave : wp (applyPlan env desired dir plan) (lockedPost env desired dir w fun _ w' => w'.locked = true)
        { w with mutationFile := b } := by
      unfold applyPlan
      obtain ⟨hdel, hplan⟩ := hplan
      cases hc : plan.current with
      | none =>
        rw [hc] at hplan
        rw [if_pos hplan.1]
        have hnone := hplan.2.config
        refine (wp_applyCreate (w := { w with mutationFile := b }) htext hl hdel hplan.2).mono ?_ ?_ ?_
        · rintro _ w' ⟨home, rfl, hm⟩
          exact ⟨⟨rfl, rfl⟩, Guarded.of_none hnone, hm, hl⟩
        · rintro e w' ⟨home, rfl, hcfg⟩
          exact ⟨⟨rfl, rfl⟩, Guarded.of_none hnone, hcfg⟩
        · rintro w' ⟨home, rfl⟩
          exact ⟨⟨rfl, rfl⟩, Guarded.of_none hnone⟩
      | some p =>
        rw [hc] at hplan
        obtain ⟨hact, hdisk, hst⟩ := hplan
        rw [if_neg]
        · exact wp_applyConfigure (w := { w with mutationFile := b }) htext hl hdel hdisk hst
        · rw [hact]
          by_cases hd : profileDiff p desired = []
          · rw [if_pos hd]
            nofun
          · rw [if_neg hd]
            nofun
    refine hsave.seq ?_ (fun _ _ h => h) fun _ h => h
    rintro _ w2 ⟨hb, hg, hm, hl2⟩
    refine (wp_applyReport plan false w2).catch ?_ ?_ fun w' h => h.same hl2 ▸ ⟨hb, hg⟩
    · rintro report w3 ⟨h, hr⟩
      obtain rfl := h.same hl2
      exact wp_pure ⟨hb, hg, hm, fun h => hne (hr.symm.trans h)⟩
    · intro e w3 h
      obtain rfl := h.same hl2
      exact wp_fail ⟨hb, hg, fun h => absurd rfl h⟩
  · rintro e w1 ⟨b, rfl⟩
    exact wp_fail ⟨⟨rfl, rfl⟩, Guarded.of_eq rfl, fun _ => rfl⟩
  · rintro w1 ⟨b, rfl⟩
    exact ⟨⟨rfl, rfl⟩, Guarded.of_eq rfl⟩

theorem wp_applyLocked {dir text : Bytes} {w : World} (hdir : Located env desired.name dir)
    (htext : profileText env.yaml env.cjson desired = .ok text) (hl : w.locked = true) :
    wp (applyLocked env desired dir)
      (lockedPost env desired dir w fun report w' => report.action = .none → w'.home = w.home) w := by
  have hw : Undisturbed w w ∧ Guarded env desired dir w.home w := ⟨⟨rfl, rfl⟩, Guarded.of_eq rfl⟩
  refine wp_bind (wp_step hw ?_ fun c e w' h => by cases (Prod.mk.inj h).1)
  intro c cancelled w' h
  rw [disturb_of_locked hl] at h
  obtain ⟨-, rfl⟩ := Prod.mk.inj h
  by_cases hc : cancelled = true
  · simp only [hc, if_true]
    exact wp_fail ⟨⟨rfl, rfl⟩, Guarded.of_eq rfl, fun _ => rfl⟩
  simp only [hc]
  refine ((sees_applyEvaluate hdir true).locked hl).seq ?_ ?_ fun _ h => h ▸ hw
  · rintro plan _ ⟨rfl, hplan⟩
    by_cases hnone : plan.action = .none
    · rw [if_pos hnone]
      refine (wp_applyReport plan false _).mono ?_ ?_ fun _ h => h.same hl ▸ hw
      · rintro report w1 ⟨h, -⟩
        obtain rfl := h.same hl
        exact ⟨⟨rfl, rfl⟩, Guarded.of_eq rfl, hplan.matches hnone, fun _ => rfl⟩
      · intro e w1 h
        obtain rfl := h.same hl
        exact ⟨⟨rfl, rfl⟩, Guarded.of_eq rfl, fun _ => rfl⟩
    · rw [if_neg hnone]
      refine (wp_applyWrite htext hl hplan hnone).mono ?_ (fun _ _ h => h) fun _ h => h
      rintro report w' ⟨hb, hg, hm, hr⟩
      exact ⟨hb, hg, hm, fun h => absurd h hr⟩
  · rintro e _ ⟨rfl, -⟩
    exact ⟨⟨rfl, rfl⟩, Guarded.of_eq rfl, fun _ => rfl⟩

/-- Nothing was created, written, locked or probed. -/
structure Untouched (w w' : World) : Prop where
  home : w'.home = w'.before
  lifecycleFile : w'.lifecycleFile = w.lifecycleFile
  mutationFile : w'.mutationFile = w.mutationFile
  probed : w'.probed = w.probed

theorem Look.untouched {w w' : World} (h : Look w w') (hown : w.home = w.before) : Untouched w w' :=
  ⟨h.own hown, h.lifecycleFile, h.mutationFile, h.probed⟩

/-- What the return of the call says about the directory that it leaves. -/
def callPost (env : Env) (desired : Profile) (dir : Bytes) (dryRun : Bool) (w : World) : Post World ApplyError Report where
  ok report w' := (dryRun = true → Untouched w w') ∧ Guarded env desired dir w'.before w' ∧
    (report.action = .none ∨ dryRun = true → w'.home = w'.before) ∧
    (dryRun = false → report.action ≠ .none ∨ w'.held = true ∨ w'.disturbed = false → Matches env desired dir w'.home) ∧
    (Matches env desired dir w.home → w'.disturbed = false → report.action = .none)
  error e w' := (dryRun = true → Untouched w w') ∧ Guarded env desired dir w'.before w' ∧
    (e.rc ≠ .unconfirmed → w'.home.config = w'.before.config)
  stopped w' := (dryRun = true → Untouched w w') ∧ Guarded env desired dir w'.before w'

theorem callPost_stopped_of_look {dir : Bytes} {dryRun : Bool} {w w' : World} (hown : w.home = w.before)
    (h : Look w w') : (callPost env desired dir dryRun w).stopped w' :=
  ⟨fun _ => h.untouched hown, Guarded.of_eq (congrArg Home.config (h.own hown))⟩

theorem callPost_error_of_look {dir : Bytes} {dryRun : Bool} {w w' : World} {e : ApplyError} (hown : w.home = w.before)
    (h : Look w w') : (callPost env desired dir dryRun w).error e w' :=
  ⟨fun _ => h.untouched hown, Guarded.of_eq (congrArg Home.config (h.own hown)), fun _ => congrArg Home.config (h.own hown)⟩

/-- The lock was taken after a look, which ended in the world `w1`, while others may have written. -/
theorem wp_vmLifecycleLockAcquire {w : World} (hown : w.home = w.before) :
    wp vmLifecycleLockAcquire
      ⟨fun _ w' => w'.locked = true ∧ w'.home = w'.before ∧ (w'.disturbed = false → w.disturbed = false ∧ w'.home = w.home),
        fun _ w' => w'.home = w'.before, fun w' => w'.home = w'.before⟩ w := by
  have key : ∀ {u : World} (others : Option Home), u.home = u.before → (u.disturbed = false → w.disturbed = false ∧ u.home = w.home) →
      (u.disturb others).home = (u.disturb others).before ∧
        ((u.disturb others).disturbed = false → w.disturbed = false ∧ (u.disturb others).home = w.home) := by
    intro u others hu hd
    have hl := Look.disturb u others
    exact ⟨hl.own hu, fun h => ⟨(hd (hl.calm h)).1, (hl.still h).trans (hd (hl.calm h)).2⟩⟩
  refine wp_bind (wp_step hown ?_ ?_)
  · intro c _ w1 h
    obtain ⟨h1, h2⟩ := key c.others hown fun h => ⟨h, rfl⟩
    by_cases hc : c.fault = true
    · simp only [hc, if_true] at h
      cases (Prod.mk.inj h).1
    simp only [hc] at h
    obtain ⟨-, rfl⟩ := Prod.mk.inj h
    refine wp_step h1 ?_ ?_
    · intro c' _ w2 h
      obtain ⟨h3, h4⟩ := key (u := { w.disturb c.others with lifecycleFile := true }) c'.others h1 h2
      by_cases hc : c'.fault = true
      · simp only [hc, if_true] at h
        cases (Prod.mk.inj h).1
      simp only [hc] at h
      obtain ⟨-, rfl⟩ := Prod.mk.inj h
      exact ⟨rfl, h3, h4⟩
    · intro c' _ w2 h
      obtain ⟨h3, -⟩ := key (u := { w.disturb c.others with lifecycleFile := true }) c'.others h1 h2
      by_cases hc : c'.fault = true
      · simp only [hc, if_true] at h
        obtain ⟨-, rfl⟩ := Prod.mk.inj h
        exact h3
      simp only [hc] at h
      cases (Prod.mk.inj h).1
  · intro c _ w1 h
    obtain ⟨h1, -⟩ := key c.others hown fun h => ⟨h, rfl⟩
    by_cases hc : c.fault = true
    · simp only [hc, if_true] at h
      obtain ⟨-, rfl⟩ := Prod.mk.inj h
      exact h1
    simp only [hc] at h
    cases (Prod.mk.inj h).1

theorem wp_releasing {m : Call ApplyError α} {Q : Post World ApplyError α} {w : World}
    (h : wp m ⟨fun a w' => Q.ok a { w' with locked := false }, fun e w' => Q.error e { w' with locked := false },
      fun w' => Q.stopped w'⟩ w) : wp (releasing m) Q w := by
  refine wp_bind (wp_attempt (h.mono ?_ ?_ fun _ h => h))
  · intro a w' hq
    exact wp_bind (wp_note (wp_pure hq))
  · intro e w' hq
    exact wp_bind (wp_note (wp_fail hq))

theorem wp_applySettings {dir text : Bytes} {w w0 : World} (hdir : Located env desired.name dir)
    (htext : profileText env.yaml env.cjson desired = .ok text) (hown : w.home = w.before) (hheld : w.held = false)
    (h0 : Look w w0) (dryRun : Bool) :
    wp (applySettings env desired dir dryRun) (callPost env desired dir dryRun w) w0 := by
  refine (sees_applyEvaluate hdir dryRun w0).seq ?_ (fun e w' h => callPost_error_of_look hown (h0.trans h.1))
    fun w' h => callPost_stopped_of_look hown (h0.trans h)
  rintro plan w1 ⟨hlook1, hplan⟩
  have hlook := h0.trans hlook1
  have hown1 := hlook.own hown
  by_cases hstop : dryRun = true ∨ plan.action = .none
  · rw [if_pos hstop]
    refine (wp_applyReport plan dryRun w1).mono ?_ (fun e w' h => callPost_error_of_look hown (hlook.trans h))
      fun w' h => callPost_stopped_of_look hown (hlook.trans h)
    rintro report w2 ⟨hlook2, hr⟩
    have hl := hlook.trans hlook2
    have hsame := hl.own hown
    refine ⟨fun _ => hl.untouched hown, Guarded.of_eq (congrArg Home.config hsame), fun _ => hsame, ?_, ?_⟩
    · intro hdry h
      have hnone : plan.action = .none := hstop.resolve_left fun h => by
        rw [hdry] at h
        cases h
      have hd : w2.disturbed = false := (h.resolve_left fun h => h (hr.trans hnone)).resolve_left fun h => by
        rw [hl.held, hheld] at h
        cases h
      rw [hlook2.still hd]
      exact (hplan (Or.inr (hlook2.calm hd))).matches hnone
    · intro hm hd
      have hd1 := hlook2.calm hd
      rw [hr]
      refine (hplan (Or.inr hd1)).action_eq_none ?_
      rwa [hlook.still hd1]
  · rw [if_neg hstop]
    have hdry : dryRun ≠ true := fun h => hstop (Or.inl h)
    have hne : plan.action ≠ .none := fun h => hstop (Or.inr h)
    refine (wp_vmLifecycleLockAcquire hown1).catch ?_ ?_ ?_
    · rintro _ w2 ⟨hl2, hown2, hd2⟩
      refine wp_releasing ((wp_applyLocked hdir htext hl2).mono ?_ ?_ ?_)
      · rintro report w3 ⟨⟨hb, hd⟩, hg, hm, hr⟩
        have hb' : w3.before = w2.home := hb.trans hown2.symm
        refine ⟨fun h => absurd h hdry, ?_, ?_, fun _ _ => hm, ?_⟩
        · change Guarded env desired dir w3.before w3
          rwa [hb']
        · intro h
          exact (hr (h.resolve_right hdry)).trans hb'.symm
        · intro hm0 hd3
          have hd1 := (hd2 (hd.symm.trans hd3)).1
          refine absurd ((hplan (Or.inr hd1)).action_eq_none ?_) hne
          rwa [hlook.still hd1]
      · rintro e w3 ⟨⟨hb, -⟩, hg, hc⟩
        have hb' : w3.before = w2.home := hb.trans hown2.symm
        refine ⟨fun h => absurd h hdry, ?_, fun h => ?_⟩
        · change Guarded env desired dir w3.before w3
          rwa [hb']
        · change w3.home.config = w3.before.config
          rw [hc h, hb']
      · rintro w3 ⟨⟨hb, -⟩, hg⟩
        refine ⟨fun h => absurd h hdry, ?_⟩
        rwa [hb.trans hown2.symm]
    · intro e w2 h
      exact wp_fail ⟨fun h => absurd h hdry, Guarded.of_eq (congrArg Home.config h), fun _ => congrArg Home.config h⟩
    · intro w2 h
      exact ⟨fun h => absurd h hdry, Guarded.of_eq (congrArg Home.config h)⟩

/-- The settings that a definition file asks for and that the call goes on with. -/
structure Asks (env : Env) (name path : Bytes) (file : DefinitionFile) (desired : Profile) : Prop where
  path : path ≠ []
  valid : profileNameValid name = true
  text : ∃ text, file = .regular text ∧ text.length ≤ PROFILE_DEFINITION_CAP ∧
    profileDefinitionParse env.yaml env.cjson text = .ok desired
  name : desired.name = name
  rosetta : desired.rosetta = false
  storable : ∃ text, profileText env.yaml env.cjson desired = .ok text

theorem tells_definitionRead (env : Env) (path : Bytes) (file : DefinitionFile) : Tells (definitionRead env path file)
    (fun text => file = .regular text ∧ text.length ≤ PROFILE_DEFINITION_CAP) fun e => e.rc ≠ .unconfirmed := by
  unfold definitionRead
  refine tells_sys.catch (fun _ _ => ?_) fun _ _ => Tells.fail nofun
  cases file with
  | unopened errno => exact Tells.fail nofun
  | irregular => exact Tells.fail nofun
  | regular text =>
    refine tells_sys.catch (fun _ _ => ?_) fun _ _ => Tells.fail nofun
    refine tells_sys.catch (fun _ _ => ?_) fun _ _ => Tells.fail nofun
    exact Tells.ite (fun _ => Tells.fail nofun) fun hlen => Tells.pure ⟨rfl, Nat.lt_succ_iff.mp (Nat.lt_of_not_le hlen)⟩

theorem tells_desiredProfile (env : Env) (name path : Bytes) (file : DefinitionFile) :
    Tells (desiredProfile env name path file) (Asks env name path file) fun e => e.rc ≠ .unconfirmed := by
  unfold desiredProfile
  refine Tells.ite (fun _ => Tells.fail nofun) fun hargs => ?_
  refine (tells_definitionRead env path file).bind fun text htext => ?_
  cases hparse : profileDefinitionParse env.yaml env.cjson text with
  | error refusal => exact Tells.fail nofun
  | ok desired =>
    refine Tells.ite (fun _ => Tells.fail nofun) fun hname => ?_
    refine Tells.ite (fun _ => Tells.fail nofun) fun hrosetta => ?_
    cases hstore : profileText env.yaml env.cjson desired with
    | error e => cases e <;> exact Tells.fail nofun
    | ok stored =>
      refine Tells.pure ⟨fun h => hargs (Or.inl h), ?_, ⟨text, htext.1, htext.2, hparse⟩, ?_, ?_, stored, hstore⟩
      · exact Bool.eq_true_of_not_eq_false fun h => hargs (Or.inr h)
      · exact not_not.mp hname
      · exact Bool.eq_false_of_not_eq_true hrosetta

/-! ## A call that nothing disturbs -/

/-- With the cell `g` at every step `m` ends with `o` and changes nothing. -/
def Quietly (g : Cell) (m : Call ε α) (home : Home) (o : Outcome ε α) : Prop := ∀ w : World, w.home = home → Calm g m w o w

namespace Quietly

variable {g : Cell} {home : Home}

theorem pure {a : α} : Quietly g (Pure.pure a : Call ε α) home (.ok a) := fun _ _ => Calm.pure

theorem bind {m : Call ε α} {f : α → Call ε β} {a : α} {o : Outcome ε β} (hm : Quietly g m home (.ok a))
    (hf : Quietly g (f a) home o) : Quietly g (m >>= f) home o := fun w hw => (hm w hw).bind (hf w hw)

theorem «catch» {m : Call ε α} {f : Except ε α → Call ε' β} {a : α} {o : Outcome ε' β} (hm : Quietly g m home (.ok a))
    (hf : Quietly g (f (.ok a)) home o) : Quietly g (Proc.attempt m >>= f) home o :=
  fun w hw => (hm w hw).attempt_ok.bind (hf w hw)

theorem catch_error {m : Call ε α} {f : Except ε α → Call ε' β} {e : ε} {o : Outcome ε' β}
    (hm : Quietly g m home (.error e)) (hf : Quietly g (f (.error e)) home o) :
    Quietly g (Proc.attempt m >>= f) home o := fun w hw => (hm w hw).attempt_error.bind (hf w hw)

theorem skip {p : Prop} [Decidable p] {m m' : Call ε α} {o : Outcome ε α} (hp : ¬ p) (h : Quietly g m' home o) :
    Quietly g (if p then m else m') home o := by
  rwa [if_neg hp]

theorem take {p : Prop} [Decidable p] {m m' : Call ε α} {o : Outcome ε α} (hp : p) (h : Quietly g m home o) :
    Quietly g (if p then m else m') home o := by
  rwa [if_pos hp]

section

variable (hg : g.fault = false) (ho : g.others = none)

include hg ho

theorem read_ok {f : Home → Except Errno α} {a : α} (h : f home = .ok a) : Quietly g (read f) home (.ok a) := by
  rintro w rfl
  refine Calm.step_ok ?_
  simp [World.disturb, hg, ho, h]

theorem read_error {f : Home → Except Errno α} {e : Errno} (h : f home = .error e) :
    Quietly g (read f) home (.error e) := by
  rintro w rfl
  refine Calm.step_error ?_
  simp [World.disturb, hg, ho, h]

theorem sys : Quietly g sys home (.ok ()) := read_ok hg ho rfl

omit hg ho in
theorem «unnamed» {m : Call Errno α} {a : α} (h : Quietly g m home (.ok a)) : Quietly g (unnamed m) home (.ok a) :=
  h.catch pure

omit hg ho in
theorem fits_deleted {dir : Bytes} (h : profilePathFits dir "config.yaml" = true) :
    ¬ profilePathFits dir "deleted" = false := by
  have h1 : (ascii "config.yaml").length = 11 := by decide +kernel
  have h2 : (ascii "deleted").length = 7 := by decide +kernel
  unfold profilePathFits at h ⊢
  rw [h1, decide_eq_true_eq] at h
  rw [h2, decide_eq_false_iff_not]
  omega

theorem profileLocate {name dir : Bytes} (h : Located env name dir) :
    Quietly g (profileLocate env name) home (.ok dir) := by
  obtain ⟨hv, ⟨root, hr, hlen, rfl⟩, hp, hfit⟩ := h
  refine skip (by simp [hv]) ?_
  have hhome : Quietly g (hamnHome env) home (.ok root) := by
    unfold hamnHome
    rw [hr]
    refine skip (by omega) ((sys hg ho).bind ?_)
    exact take hp pure
  exact hhome.catch (skip (by omega) pure)

theorem profileReadExisting {name dir : Bytes} {p : Profile} (hdir : Located env name dir) (h : Stored env dir p home) :
    Quietly g (profileReadExisting env name) home (.ok { p with name }) := by
  obtain ⟨hfit, hp, a, es, b, text, stored, rfl, ha, hc, hb, hlen, hparse, hpeq⟩ := h
  have hlookup := lookup_eq_ok.mpr ⟨ha, hc⟩
  have hopen : openConfig (.directory a es) = .ok (.file b text) := by
    unfold openConfig
    rw [hlookup]
    exact if_pos hb
  have hconfig : Quietly g (profileOpenConfig dir) (.directory a es) (.ok (some text)) := by
    refine skip (by simp [hfit]) ((read_ok (f := openConfig) hg ho hopen).catch ?_)
    refine («unnamed» (sys hg ho)).bind (skip (by omega) ?_)
    exact («unnamed» (sys hg ho)).bind pure
  refine skip (by simp [hdir.valid]) ((profileLocate hg ho hdir).catch ?_)
  have hstat : statPrivate (.directory a es) = .ok true := congrArg Except.ok hp
  refine («unnamed» (read_ok hg ho hstat)).bind ?_
  refine skip nofun (hconfig.bind («unnamed» (sys hg ho) |>.bind ?_))
  rw [hparse]
  refine («unnamed» (sys hg ho)).bind ?_
  rw [hpeq]
  exact pure

theorem applyEvaluate {dir : Bytes} (hdir : Located env desired.name dir) (h : Matches env desired dir home)
    (settled : Bool) : ∃ plan, plan.action = .none ∧ Quietly g (applyEvaluate env desired dir settled) home (.ok plan) := by
  obtain ⟨hdel, p, hst, hdiff⟩ := h
  have hdiff' : profileDiff { p with name := desired.name } desired = [] :=
    profileDiff_trans (profileDiff_eq_nil.mpr rfl) hdiff
  refine ⟨⟨.none, [], some { p with name := desired.name }⟩, rfl, ?_⟩
  have hstat : Quietly g statHome home (.ok ()) := by
    obtain ⟨a, es, rfl⟩ := directory_of_isPrivate hst.isPrivate
    exact read_ok hg ho rfl
  have hattempt : Quietly g (applyAttempt env desired dir settled false) home
      (.ok (some ⟨.none, [], some { p with name := desired.name }⟩)) := by
    refine hstat.catch (skip (fits_deleted hst.fits) ?_)
    refine (read_error hg ho hdel).catch_error ((profileReadExisting hg ho hdir hst).catch ?_)
    have hdisk : p.diskGib = desired.diskGib := diskGib_eq hdiff
    refine skip (by change ¬ desired.diskGib < p.diskGib; omega) ?_
    simp only [hdiff']
    exact pure
  exact hattempt.bind pure

theorem definitionRead {path text : Bytes} (hlen : text.length ≤ PROFILE_DEFINITION_CAP) :
    Quietly g (definitionRead env path (.regular text)) home (.ok text) :=
  (sys hg ho).catch ((sys hg ho).catch ((sys hg ho).catch (skip (by omega) pure)))

theorem desiredProfile {name path : Bytes} {file : DefinitionFile} (h : Asks env name path file desired) :
    Quietly g (desiredProfile env name path file) home (.ok desired) := by
  obtain ⟨hpath, hv, ⟨text, rfl, hlen, hparse⟩, rfl, hr, stored, hstored⟩ := h
  refine skip (by simp [hpath, hv]) ((definitionRead hg ho hlen).bind ?_)
  rw [hparse]
  refine skip (by simp) (skip (by simp [hr]) ?_)
  rw [hstored]
  exact pure

/-- A second call reports that nothing is to be done. -/
theorem hamnControlApply {name path dir : Bytes} {file : DefinitionFile} (hasks : Asks env name path file desired)
    (hdir : Located env desired.name dir) (h : Matches env desired dir home) (dryRun : Bool) :
    ∃ report, report.action = .none ∧ Quietly g (hamnControlApply env name path file dryRun) home (.ok report) := by
  obtain ⟨plan, hplan, hq⟩ := applyEvaluate hg ho hdir h dryRun
  refine ⟨⟨desired.name, plan.action, plan.changes.map (changeJson desired (plan.current.getD profileDefaults)), dryRun⟩,
    hplan, (desiredProfile hg ho hasks).bind ((profileLocate hg ho hdir).catch (hq.bind ?_))⟩
  exact take (Or.inr hplan) ((sys hg ho).catch pure)

end

end Quietly

/-! ## The contract -/

/-- `config.yaml` reads as the settings `p`. -/
def Reads (env : Env) (home : Home) (p : Profile) : Prop :=
  ∃ b text, home.config = some (.file b text) ∧ profileParse env.yaml env.cjson text = .ok p

theorem Stored.reads {dir : Bytes} {p : Profile} {home : Home} (h : Stored env dir p home) :
    ∃ stored, Reads env home stored ∧ profileDiff stored p = [] := by
  obtain ⟨a, es, b, text, stored, rfl, -, hg, -, -, hparse, hp⟩ := h.found
  exact ⟨stored, ⟨b, text, hg, hparse⟩, profileDiff_eq_nil.mpr hp.symm⟩

theorem wp_hamnControlApply {name path : Bytes} {file : DefinitionFile} {w : World} (hown : w.home = w.before)
    (hheld : w.held = false) (dryRun : Bool) : wp (hamnControlApply env name path file dryRun)
      ⟨fun report w' => ∃ desired dir, Asks env name path file desired ∧ Located env desired.name dir ∧
          (callPost env desired dir dryRun w).ok report w',
        fun e w' => Look w w' ∧ e.rc ≠ .unconfirmed ∨ ∃ desired dir, Asks env name path file desired ∧
          (callPost env desired dir dryRun w).error e w',
        fun w' => Look w w' ∨ ∃ desired dir, Asks env name path file desired ∧
          (callPost env desired dir dryRun w).stopped w'⟩ w := by
  refine (tells_desiredProfile env name path file w).seq ?_ (fun _ _ h => Or.inl h) fun _ h => Or.inl h
  rintro desired w1 ⟨hlook, hasks⟩
  refine (tells_profileLocate env desired.name w1).catch ?_ ?_ fun w' h => Or.inl (hlook.trans h)
  · rintro dir w2 ⟨hlook2, hdir⟩
    obtain ⟨text, htext⟩ := hasks.storable
    refine (wp_applySettings hdir htext hown hheld (hlook.trans hlook2) dryRun).mono ?_ ?_ ?_
    · exact fun report w' h => ⟨desired, dir, hasks, hdir, h⟩
    · exact fun e w' h => Or.inr ⟨desired, dir, hasks, h⟩
    · exact fun w' h => Or.inr ⟨desired, dir, hasks, h⟩
  · rintro e w2 ⟨hlook2, -⟩
    exact wp_fail (Or.inl ⟨hlook.trans hlook2, nofun⟩)

theorem Guarded.reads {dir : Bytes} {before : Home} {w' : World} (h : Guarded env desired dir before w')
    (hne : w'.home.config ≠ before.config) (hsome : before.config ≠ none) :
    w'.probed = some .stale ∧ ∃ current, Reads env before current ∧ current.diskGib ≤ desired.diskGib := by
  obtain ⟨hprobe, p, hst, hdisk⟩ := h hne hsome
  obtain ⟨stored, hreads, hdiff⟩ := hst.reads
  exact ⟨hprobe, stored, hreads, diskGib_eq hdiff ▸ hdisk⟩

end

/-- What `hamn_control_apply`, called in `w`, says with the outcome `o` about the world `w'` that it leaves. -/
structure ApplyContract (env : Env) (name path : Bytes) (file : DefinitionFile) (dryRun : Bool) (w : World)
    (o : Outcome ApplyError Report) (w' : World) : Prop where
  /-- A dry run changes nothing. -/
  dry : dryRun = true → Untouched w w'
  /-- With any other error `config.yaml` is what it was. -/
  unchanged : ∀ e, o = .error e → e.rc ≠ .unconfirmed → w'.home.config = w'.before.config
  /-- After a creation or a configuration it holds the settings of the definition. -/
  written : ∀ report, o = .ok report → dryRun = false → report.action ≠ .none →
    ∃ desired stored, Asks env name path file desired ∧ Reads env w'.home stored ∧ profileDiff stored desired = []
  /-- When the action is none, nothing changed. -/
  idle : ∀ report, o = .ok report → report.action = .none → w'.home = w'.before
  /-- A call that returned with `config.yaml` changed said so. -/
  changed : w'.home.config ≠ w'.before.config → o = .stopped ∨ (∃ e, o = .error e ∧ e.rc = .unconfirmed) ∨
    ∃ report, o = .ok report ∧ dryRun = false ∧ report.action ≠ .none
  /-- Settings are replaced only when the VM is known to be stopped, and the disk does not shrink. -/
  guarded : w'.home.config ≠ w'.before.config → w'.before.config ≠ none → w'.probed = some .stale ∧
    ∃ desired current, Asks env name path file desired ∧ Reads env w'.before current ∧ current.diskGib ≤ desired.diskGib
  /-- A second call, in the directory that this one left, finds nothing to do, and succeeds when nothing fails. -/
  again : ∀ report, o = .ok report → dryRun = false → w'.held = true ∨ w'.disturbed = false → ∀ dryRun' w2,
    w2.home = w'.home → w2.before = w'.home → w2.held = false →
      (∀ t report2, (hamnControlApply env name path file dryRun' t w2).1 = .ok report2 →
        (hamnControlApply env name path file dryRun' t w2).2.2.disturbed = false → report2.action = .none) ∧
      ∀ g : Cell, g.fault = false → g.others = none → ∃ report2, report2.action = .none ∧
        Calm g (hamnControlApply env name path file dryRun') w2 (.ok report2) w2

section

variable {env : Env} {desired : Profile}

theorem ApplyContract.of_look {name path : Bytes} {file : DefinitionFile} {dryRun : Bool} {w w' : World}
    {o : Outcome ApplyError Report} (hown : w.home = w.before) (h : Look w w') (ho : ∀ report, o ≠ .ok report) :
    ApplyContract env name path file dryRun w o w' where
  dry _ := h.untouched hown
  unchanged _ _ _ := congrArg Home.config (h.own hown)
  written report hr := absurd hr (ho report)
  idle report hr := absurd hr (ho report)
  changed hne := absurd (congrArg Home.config (h.own hown)) hne
  guarded hne := absurd (congrArg Home.config (h.own hown)) hne
  again report hr := absurd hr (ho report)

/-- The second call after one that left the settings of the definition. -/
theorem Matches.again {name path dir : Bytes} {file : DefinitionFile} {home : Home} {dryRun : Bool} {w2 : World}
    (hm : Matches env desired dir home) (hasks : Asks env name path file desired) (hdir : Located env desired.name dir)
    (hhome : w2.home = home) (hbefore : w2.before = home) (hheld : w2.held = false) :
    (∀ t report2, (hamnControlApply env name path file dryRun t w2).1 = .ok report2 →
      (hamnControlApply env name path file dryRun t w2).2.2.disturbed = false → report2.action = .none) ∧
    ∀ g : Cell, g.fault = false → g.others = none → ∃ report2, report2.action = .none ∧
      Calm g (hamnControlApply env name path file dryRun) w2 (.ok report2) w2 := by
  subst hhome
  constructor
  · intro t report2 hr hd
    have hpost := @wp_hamnControlApply env name path file _ hbefore.symm hheld dryRun t
    rw [hr] at hpost
    obtain ⟨desired', dir', hasks', hdir', -, -, -, -, hagain⟩ := hpost
    obtain ⟨_, rfl, _, hparse⟩ := hasks.text
    obtain ⟨_, heq, _, hparse'⟩ := hasks'.text
    obtain rfl := DefinitionFile.regular.inj heq
    rw [hparse] at hparse'
    obtain rfl := Except.ok.inj hparse'
    obtain rfl := hdir.unique env hdir'
    exact hagain hm hd
  · intro g hg ho
    obtain ⟨report2, hact, hq⟩ := Quietly.hamnControlApply hg ho hasks hdir hm dryRun
    exact ⟨report2, hact, hq w2 rfl⟩

/-- **The contract of `vm apply`**, on every tape: whatever fails, wherever the call is stopped and whatever other calls
make of the profile while this one holds no lock. -/
theorem hamnControlApply_contract (env : Env) (name path : Bytes) (file : DefinitionFile) (dryRun : Bool) (w : World)
    (hown : w.home = w.before) (hheld : w.held = false) (t : List Cell) :
    ApplyContract env name path file dryRun w (hamnControlApply env name path file dryRun t w).1
      (hamnControlApply env name path file dryRun t w).2.2 := by
  have hpost := @wp_hamnControlApply env name path file _ hown hheld dryRun t
  revert hpost
  generalize (hamnControlApply env name path file dryRun t w).1 = o
  generalize (hamnControlApply env name path file dryRun t w).2.2 = w'
  intro hpost
  cases o with
  | stopped =>
    rcases hpost with h | ⟨desired, dir, hasks, hdry, hg⟩
    · exact ApplyContract.of_look hown h nofun
    · refine ⟨hdry, nofun, nofun, nofun, fun _ => Or.inl rfl, fun hne hsome => ?_, nofun⟩
      obtain ⟨hprobe, current, hreads, hdisk⟩ := hg.reads hne hsome
      exact ⟨hprobe, desired, current, hasks, hreads, hdisk⟩
  | error e =>
    rcases hpost with ⟨h, -⟩ | ⟨desired, dir, hasks, hdry, hg, hc⟩
    · exact ApplyContract.of_look hown h nofun
    · refine ⟨hdry, ?_, nofun, nofun, fun hne => Or.inr (Or.inl ⟨e, rfl, ?_⟩), fun hne hsome => ?_, nofun⟩
      · intro e' he hrc
        obtain rfl := Outcome.error.inj he
        exact hc hrc
      · by_contra hrc
        exact hne (hc hrc)
      · obtain ⟨hprobe, current, hreads, hdisk⟩ := hg.reads hne hsome
        exact ⟨hprobe, desired, current, hasks, hreads, hdisk⟩
  | ok report =>
    obtain ⟨desired, dir, hasks, hdir, hdry, hg, hnone, hm, -⟩ := hpost
    refine ⟨hdry, nofun, ?_, ?_, fun hne => Or.inr (Or.inr ⟨report, rfl, ?_, ?_⟩), fun hne hsome => ?_, ?_⟩
    · intro report' hr hdry' hact
      obtain rfl := Outcome.ok.inj hr
      obtain ⟨-, p, hst, hdiff⟩ := hm hdry' (Or.inl hact)
      obtain ⟨stored, hreads, hdiff'⟩ := hst.reads
      exact ⟨desired, stored, hasks, hreads, profileDiff_trans hdiff' hdiff⟩
    · intro report' hr hact
      obtain rfl := Outcome.ok.inj hr
      exact hnone (Or.inl hact)
    · exact Bool.eq_false_of_not_eq_true fun h => hne (congrArg Home.config (hnone (Or.inr h)))
    · exact fun h => hne (congrArg Home.config (hnone (Or.inl h)))
    · obtain ⟨hprobe, current, hreads, hdisk⟩ := hg.reads hne hsome
      exact ⟨hprobe, desired, current, hasks, hreads, hdisk⟩
    · intro report' hr hdry' hd dryRun' w2 hhome hbefore hheld2
      exact (hm hdry' (Or.inr hd)).again hasks hdir hhome hbefore hheld2

end

/-! ## A creation -/

/-- A definition that names the profile `a` and leaves every setting at its default. -/
def smallDefinition : Bytes := ascii "apiVersion: hamn/v1\nkind: Profile\nmetadata:\n  name: a\nspec: {}\n"

/-- The text that is stored for these settings. -/
def smallConfig : Bytes := ascii ("cpus: 4\nmemoryMiB: 4096\ndiskGiB: 60\nmountHome: true\nhomeReadOnly: false\n" ++
  "mountInotify: false\ndocker:\n  daemonJson: \"\"\nrosetta: false\nnestedVirtualization: false\nsshAgent: false\n" ++
  "mounts: []\nprovision: []\n")

/-- The events of libyaml for these two texts. -/
def smallYaml (text : Bytes) : YamlStream :=
  let scalar (s : String) : YamlEvent := .scalar false (ascii s) true
  let document (events : List YamlEvent) : YamlStream :=
    ⟨[.streamStart, .documentStart false] ++ events ++ [.documentEnd, .streamEnd], .problem [] 0⟩
  if text = smallDefinition then
    document [.mappingStart false, scalar "apiVersion", scalar "hamn/v1", scalar "kind", scalar "Profile",
      scalar "metadata", .mappingStart false, scalar "name", scalar "a", .mappingEnd, scalar "spec", .mappingStart false,
      .mappingEnd, .mappingEnd]
  else if text = smallConfig then
    document [.mappingStart false, scalar "cpus", scalar "4", scalar "memoryMiB", scalar "4096", scalar "diskGiB",
      scalar "60", scalar "mountHome", scalar "true", scalar "homeReadOnly", scalar "false", scalar "mountInotify",
      scalar "false", scalar "docker", .mappingStart false, scalar "daemonJson", .scalar false [] false, .mappingEnd,
      scalar "rosetta", scalar "false", scalar "nestedVirtualization", scalar "false", scalar "sshAgent",
      scalar "false", scalar "mounts", .sequenceStart false, .sequenceEnd, scalar "provision", .sequenceStart false,
      .sequenceEnd, .mappingEnd]
  else ⟨[], .problem (ascii "did not find expected node content") 0⟩

def smallEnv : Env :=
  { yaml := smallYaml, cjson := fun _ => none, strerror := fun _ => ascii "Input/output error",
    root := some (ascii "/Users/u/.hamn"), rootPrivate := true }

def calmCell : Cell :=
  { fault := false, others := none, vm := .stale, adopted := none, cancelled := false, nonce := ascii "7.0a1b2c3d", written := 0 }

def emptyWorld : World :=
  { home := .absent, before := .absent, lifecycleFile := false, mutationFile := false, locked := false, held := false,
    disturbed := false, probed := none }

def smallRun : Outcome ApplyError Report × List Cell × World :=
  hamnControlApply smallEnv (ascii "a") (ascii "a.yaml") (.regular smallDefinition) false (List.replicate 60 calmCell) emptyWorld

/-- The profile is created with the settings of the definition, and the contract says so. -/
theorem small_contract : smallRun.1 = .ok ⟨ascii "a", .create, [], false⟩ ∧
    ApplyContract smallEnv (ascii "a") (ascii "a.yaml") (.regular smallDefinition) false emptyWorld smallRun.1 smallRun.2.2 := by
  have hdefinition : smallDefinition = _ := ascii_ofList _
  have hconfig : smallConfig = _ := (ascii_append _ _).trans (congrArg₂ HAppend.hAppend
    ((ascii_append _ _).trans (congrArg₂ HAppend.hAppend (ascii_ofList _) (ascii_ofList _))) (ascii_ofList _))
  constructor
  · unfold smallRun smallEnv smallYaml
    rw [hconfig, hdefinition]
    decide +kernel
  · unfold smallRun
    exact hamnControlApply_contract smallEnv (ascii "a") (ascii "a.yaml") (.regular smallDefinition) false emptyWorld
      rfl rfl (List.replicate 60 calmCell)

end Hamn.Host
