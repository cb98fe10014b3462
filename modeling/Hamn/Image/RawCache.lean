import Hamn.Lib.Bytes
import Hamn.Lib.Steps
import Hamn.Image.Qcow2Extract

/-!
# Image.RawCache — the raw base of a guest image (`host/image/raw_cache.c`, `control/install_support/retention.rs`)

`raw_cache_clone` keeps the extraction of an image in the directory `raw-v1-<digest>`, as `disk.raw` and a marker that
names both digests; it builds it in `raw-v1-<digest>.stage`, publishes it by an exclusive rename, and clones it to its
target.  `remove_raw` renames a base to `raw-v1-<digest>.retired` and erases it there.  Both hold the lock of the digest
from before their first look at these names until they return.

* `Env`, `accepts`: the image and what is asked of it.
* `State`, `Action`, `step`: the three directories, and the call that holds the lock; it goes on, fails or stops.
* `Complete`, `Inv`: a live base is the extraction of the image with its marker.
* `Goes`: a call that nothing interrupts.
-/

namespace Hamn.RawCache

open Bytes

/-! ## Files -/

def EXTRACTOR_VERSION : ℕ := 1
def MAX_VIRTUAL_BYTES : ℕ := 8 <<< 30

/-- A regular file of this user with one link. -/
structure Entry (α : Type) where
  content : α
  mode : ℕ

/-- A directory that only this user can use, with the two files of a base. -/
structure Bundle where
  /-- `disk.raw`. -/
  raw : Option (Entry Qcow2.File)
  /-- `verified`. -/
  marker : Option (Entry Bytes)

/-- The image file, and what the calls use on it. -/
structure Env where
  inflate : Qcow2.Inflate
  /-- The digest of a file in hex. -/
  sha256 : Qcow2.File → Bytes
  /-- The digest in the name of the image. -/
  guest : Bytes
  image : Qcow2.File

namespace Env

variable (env : Env)

/-- The virtual size that the header of the image states. -/
def size : ℕ := Qcow2.rbe64 env.image.byte 24

def extract : Except String Qcow2.File := Qcow2.qcow2ExtractFd env.inflate env.image

/-- What `raw_cache_clone` asks of the image before it takes the lock. -/
def accepts : Bool :=
  env.guest.length == 64 && env.guest.all isLowerHex && 0 < env.image.size && env.image.size < 2 <<< 30 &&
    env.sha256 env.image == env.guest && 32 ≤ env.image.size && 0 < env.size && env.size ≤ MAX_VIRTUAL_BYTES &&
    Qcow2.rbe32 env.image.byte 0 == Qcow2.QCOW2_MAGIC

end Env

def markerText (guest : Bytes) (size : ℕ) (raw : Bytes) : Bytes :=
  ascii "hamn-raw-base " ++ decimal EXTRACTOR_VERSION ++ newline :: guest ++ newline :: decimal size ++
    newline :: raw ++ [newline]

/-- `validate_bundle`: the open `disk.raw`. -/
def validateBundle (env : Env) : Bundle → Option Qcow2.File
  | ⟨some raw, some marker⟩ =>
    if raw.mode = 0o400 ∧ raw.content.size = env.size ∧ marker.mode = 0o400 ∧
        marker.content = markerText env.guest env.size (env.sha256 raw.content) then
      some raw.content
    else none
  | _ => none

/-- What `discard_stage` finds in a stage that it removes. -/
def discardable (b : Bundle) : Bool :=
  b.raw.all (fun raw => raw.mode &&& 0o022 == 0) && b.marker.all (fun marker => marker.mode &&& 0o022 == 0)

/-! ## The calls -/

variable {T : Type}

/-- The steps of `raw_cache_clone` after it has the lock. -/
inductive Clone where
  /-- Before the `lstat` of the live name. -/
  | looking
  /-- In `create_bundle`, before `discard_stage`. -/
  | absent
  | scanned
  | rawUnlinked
  | markerUnlinked
  /-- Before `mkdir`. -/
  | bare
  | made
  /-- In `qcow2_extract_fd`. -/
  | extracting
  | extracted
  | readOnly
  | marking
  | written
  /-- Before the rename. -/
  | sealed
  /-- Before the sync of the parent. -/
  | published
  /-- Before `validate_bundle`. -/
  | live
  | validated (raw : Qcow2.File)
  /-- The file system cannot clone: in `qcow2_extract_fd` to the target. -/
  | reserved
  | copied
  /-- What `create_bundle` undoes when it fails. -/
  | undoRaw
  | undoMarker
  | undoStage
  | dropTarget

/-- The steps of `remove_raw`; `last` is the erase after the rename. -/
inductive Collect where
  | look
  | eraseMarker (last : Bool)
  | eraseRaw (last : Bool)
  | eraseDir (last : Bool)
  | lookLive

/-- The call that holds the lock. -/
inductive Work (T : Type) where
  | clone (target : T) (pc : Clone)
  | collect (unused : Bool) (pc : Collect)

structure State (T : Type) where
  live : Option Bundle
  stage : Option Bundle
  retired : Option Bundle
  targets : T → Option Qcow2.File
  work : Option (Work T)
  /-- The targets of the clones that returned 0, as they were then. -/
  returned : List (T × Option Qcow2.File)

inductive Action (T : Type) where
  | clone (target : T)
  | collect (unused : Bool)
  /-- The next step succeeds. -/
  | go
  /-- It fails. -/
  | fail
  /-- `fclonefileat` says that the file system cannot clone. -/
  | unsupported
  /-- Some of the extraction is written. -/
  | partly (content : Qcow2.File)
  /-- Some of the marker is written. -/
  | partlyMarker (content : Bytes)
  /-- The process dies. -/
  | stop

variable [DecidableEq T]

namespace State

variable (s : State T)

def at_ (t : T) (pc : Clone) : State T := { s with work := some (.clone t pc) }

def quit : State T := { s with work := none }

def setStage (stage : Option Bundle) : State T := { s with stage }

def setTarget (t : T) (content : Option Qcow2.File) : State T :=
  { s with targets := Function.update s.targets t content }

/-- The clone returns 0. -/
def finish (t : T) : State T := { s with work := none, returned := (t, s.targets t) :: s.returned }

end State

def emptyFile : Qcow2.File := ⟨0, fun _ => 0⟩

/-- The next step of a clone, where it can succeed. -/
def cloneGo (env : Env) (s : State T) (t : T) : Clone → Option (State T)
  | .looking => if s.live.isSome then some (s.at_ t .live) else some (s.at_ t .absent)
  | .absent =>
    match s.stage with
    | none => some (s.at_ t .bare)
    | some b => if discardable b then some (s.at_ t .scanned) else none
  | .scanned => some ((s.setStage (s.stage.map ({ · with raw := none }))).at_ t .rawUnlinked)
  | .rawUnlinked => some ((s.setStage (s.stage.map ({ · with marker := none }))).at_ t .markerUnlinked)
  | .markerUnlinked =>
    match s.stage with
    | some ⟨none, none⟩ => some ((s.setStage none).at_ t .bare)
    | _ => none
  | .bare =>
    match s.stage with
    | none => some ((s.setStage (some ⟨none, none⟩)).at_ t .made)
    | some _ => none
  | .made =>
    match s.stage with
    | some b => some ((s.setStage (some { b with raw := some ⟨emptyFile, 0o644⟩ })).at_ t .extracting)
    | none => none
  | .extracting =>
    match s.stage, env.extract with
    | some b, .ok x => some ((s.setStage (some { b with raw := some ⟨x, 0o644⟩ })).at_ t .extracted)
    | _, _ => none
  | .extracted =>
    match s.stage with
    | some ⟨some raw, marker⟩ =>
      if env.sha256 env.image = env.guest ∧ raw.content.size = env.size then
        some ((s.setStage (some ⟨some { raw with mode := 0o400 }, marker⟩)).at_ t .readOnly)
      else none
    | _ => none
  | .readOnly =>
    match s.stage with
    | some ⟨raw, none⟩ => some ((s.setStage (some ⟨raw, some ⟨[], 0o600⟩⟩)).at_ t .marking)
    | _ => none
  | .marking =>
    match s.stage with
    | some ⟨some raw, some marker⟩ =>
      let text := markerText env.guest env.size (env.sha256 raw.content)
      some ((s.setStage (some ⟨some raw, some { marker with content := text }⟩)).at_ t .written)
    | _ => none
  | .written =>
    match s.stage with
    | some ⟨raw, some marker⟩ =>
      some ((s.setStage (some ⟨raw, some { marker with mode := 0o400 }⟩)).at_ t .sealed)
    | _ => none
  | .sealed =>
    match s.live with
    | none => some ({ s with live := s.stage, stage := none }.at_ t .published)
    | some _ => none
  | .published => some (s.at_ t .live)
  | .live => (s.live.bind (validateBundle env)).map fun raw => s.at_ t (.validated raw)
  | .validated raw => if (s.targets t).isNone then some ((s.setTarget t (some raw)).finish t) else none
  | .reserved =>
    match env.extract with
    | .ok x => some ((s.setTarget t (some x)).at_ t .copied)
    | .error _ => none
  | .copied => if env.sha256 env.image = env.guest then some (s.finish t) else none
  | .undoRaw => some ((s.setStage (s.stage.map ({ · with raw := none }))).at_ t .undoMarker)
  | .undoMarker => some ((s.setStage (s.stage.map ({ · with marker := none }))).at_ t .undoStage)
  | .undoStage =>
    match s.stage with
    | some ⟨none, none⟩ => some (s.setStage none).quit
    | _ => none
  | .dropTarget => some (s.setTarget t none).quit

/-- Where a clone goes when its step fails. -/
def cloneFail (s : State T) (t : T) : Clone → State T
  | .made | .extracting | .extracted | .readOnly | .marking | .written | .sealed => s.at_ t .undoRaw
  | .undoRaw => s.at_ t .undoMarker
  | .undoMarker => s.at_ t .undoStage
  | .reserved | .copied => s.at_ t .dropTarget
  | _ => s.quit

/-- The next step of a removal, where it can succeed. -/
def collectGo (s : State T) (unused : Bool) : Collect → Option (State T)
  | .look =>
    if s.retired.isSome then some { s with work := some (.collect unused (.eraseMarker false)) }
    else some { s with work := some (.collect unused .lookLive) }
  | .eraseMarker last =>
    some { s with retired := s.retired.map ({ · with marker := none }), work := some (.collect unused (.eraseRaw last)) }
  | .eraseRaw last =>
    some { s with retired := s.retired.map ({ · with raw := none }), work := some (.collect unused (.eraseDir last)) }
  | .eraseDir last =>
    match s.retired with
    | some ⟨none, none⟩ =>
      some { s with retired := none, work := if last then none else some (.collect unused .lookLive) }
    | _ => none
  | .lookLive =>
    if unused ∧ s.live.isSome then
      match s.retired with
      | none => some { s with live := none, retired := s.live, work := some (.collect unused (.eraseMarker true)) }
      | some _ => none
    else some s.quit

def step (env : Env) (s : State T) : Action T → Option (State T)
  | .clone t =>
    match s.work with
    | none => if env.accepts then some (s.at_ t .looking) else none
    | some _ => none
  | .collect unused =>
    match s.work with
    | none => some { s with work := some (.collect unused .look) }
    | some _ => none
  | .go =>
    match s.work with
    | some (.clone t pc) => cloneGo env s t pc
    | some (.collect unused pc) => collectGo s unused pc
    | none => none
  | .fail =>
    match s.work with
    | some (.clone t pc) => some (cloneFail s t pc)
    | some (.collect _ _) => some s.quit
    | none => none
  | .unsupported =>
    match s.work with
    | some (.clone t (.validated _)) =>
      if (s.targets t).isNone then some ((s.setTarget t (some emptyFile)).at_ t .reserved) else some s.quit
    | _ => none
  | .partly content =>
    match s.work with
    | some (.clone _ .extracting) =>
      some (s.setStage (s.stage.map ({ · with raw := some ⟨content, 0o644⟩ })))
    | some (.clone t .reserved) => some (s.setTarget t (some content))
    | _ => none
  | .partlyMarker content =>
    match s.work with
    | some (.clone _ .marking) => some (s.setStage (s.stage.map ({ · with marker := some ⟨content, 0o600⟩ })))
    | _ => none
  | .stop => some s.quit

/-- No base and no call. -/
structure Initial (s : State T) : Prop where
  live : s.live = none
  stage : s.stage = none
  retired : s.retired = none
  work : s.work = none
  returned : s.returned = []

/-- A base is the extraction of the image, with the marker that says so. -/
def Complete (env : Env) (b : Bundle) : Prop :=
  ∃ x, env.extract = .ok x ∧ x.size = env.size ∧
    b = ⟨some ⟨x, 0o400⟩, some ⟨markerText env.guest env.size (env.sha256 x), 0o400⟩⟩

/-! ## The invariant -/

/-- What a clone has made at each of its steps. -/
def At (env : Env) (s : State T) (t : T) : Clone → Prop
  | .made => s.stage = some ⟨none, none⟩
  | .extracting => ∃ x, s.stage = some ⟨some ⟨x, 0o644⟩, none⟩
  | .extracted => ∃ x, env.extract = .ok x ∧ s.stage = some ⟨some ⟨x, 0o644⟩, none⟩
  | .readOnly => ∃ x, env.extract = .ok x ∧ x.size = env.size ∧ s.stage = some ⟨some ⟨x, 0o400⟩, none⟩
  | .marking => ∃ x text, env.extract = .ok x ∧ x.size = env.size ∧
      s.stage = some ⟨some ⟨x, 0o400⟩, some ⟨text, 0o600⟩⟩
  | .written => ∃ x, env.extract = .ok x ∧ x.size = env.size ∧
      s.stage = some ⟨some ⟨x, 0o400⟩, some ⟨markerText env.guest env.size (env.sha256 x), 0o600⟩⟩
  | .sealed => ∃ b, s.stage = some b ∧ Complete env b
  | .validated raw => env.extract = .ok raw
  | .copied => ∃ x, env.extract = .ok x ∧ s.targets t = some x
  | _ => True

structure Inv (env : Env) (s : State T) : Prop where
  live : ∀ b, s.live = some b → Complete env b
  stage : ∀ b, s.stage = some b → discardable b = true
  returned : ∀ t content, (t, content) ∈ s.returned → ∃ x, env.extract = .ok x ∧ content = some x
  work : ∀ t pc, s.work = some (.clone t pc) → At env s t pc

section

variable {env : Env} {s s' : State T}

omit [DecidableEq T] in
theorem Inv.initial (h : Initial s) : Inv env s where
  live b hb := by
    rw [h.live] at hb
    cases hb
  stage b hb := by
    rw [h.stage] at hb
    cases hb
  returned t content hr := by
    rw [h.returned] at hr
    cases hr
  work t pc hw := by
    rw [h.work] at hw
    cases hw

omit [DecidableEq T] in
/-- A clone goes to another step, with a stage that `discard_stage` would remove. -/
theorem Inv.goto (hs : Inv env s) {s1 : State T} {t : T} {pc : Clone} (hlive : s1.live = s.live)
    (hreturned : s1.returned = s.returned) (hstage : ∀ b, s1.stage = some b → discardable b = true)
    (hat : At env (s1.at_ t pc) t pc) : Inv env (s1.at_ t pc) where
  live b hb := hs.live b (hlive ▸ hb)
  stage := hstage
  returned t content hr := hs.returned t content (hreturned ▸ hr)
  work t' pc' hw := by
    obtain ⟨rfl, rfl⟩ := Work.clone.inj (Option.some.inj hw)
    exact hat

omit [DecidableEq T] in
theorem Inv.quit (hs : Inv env s) : Inv env s.quit := { hs with work := nofun }

omit [DecidableEq T] in
theorem discardable_unlinkRaw {b : Bundle} (h : discardable b = true) : discardable { b with raw := none } = true := by
  rw [discardable, Bool.and_eq_true] at h ⊢
  exact ⟨rfl, h.2⟩

theorem discardable_unlinkMarker {b : Bundle} (h : discardable b = true) : discardable { b with marker := none } = true := by
  rw [discardable, Bool.and_eq_true] at h ⊢
  exact ⟨h.1, rfl⟩

omit [DecidableEq T] in
theorem Inv.unlinked (hs : Inv env s) {f : Bundle → Bundle} (hf : ∀ b, discardable b = true → discardable (f b) = true)
    {b : Bundle} (hb : s.stage.map f = some b) : discardable b = true := by
  obtain ⟨b', hb', rfl⟩ := Option.map_eq_some_iff.mp hb
  exact hf b' (hs.stage b' hb')

/-- What `validate_bundle` opens in a complete base is the extraction. -/
theorem validateBundle_complete {b : Bundle} (hb : Complete env b) :
    ∃ x, env.extract = .ok x ∧ validateBundle env b = some x := by
  obtain ⟨x, hx, hsize, rfl⟩ := hb
  refine ⟨x, hx, ?_⟩
  rw [validateBundle, if_pos ⟨rfl, hsize, rfl, rfl⟩]

theorem Inv.cloneGo (hs : Inv env s) {t : T} {pc : Clone} (hw : s.work = some (.clone t pc))
    (h : cloneGo env s t pc = some s') : Inv env s' := by
  have hat := hs.work t pc hw
  cases pc with
  | looking =>
    simp only [RawCache.cloneGo] at h
    split_ifs at h
    · obtain rfl := Option.some.inj h
      exact hs.goto rfl rfl hs.stage trivial
    · obtain rfl := Option.some.inj h
      exact hs.goto rfl rfl hs.stage trivial
  | absent =>
    simp only [RawCache.cloneGo] at h
    split at h
    · obtain rfl := Option.some.inj h
      exact hs.goto rfl rfl hs.stage trivial
    · split_ifs at h
      obtain rfl := Option.some.inj h
      exact hs.goto rfl rfl hs.stage trivial
  | scanned =>
    obtain rfl := Option.some.inj h
    exact hs.goto rfl rfl (fun b hb => hs.unlinked (fun _ => discardable_unlinkRaw) hb) trivial
  | rawUnlinked =>
    obtain rfl := Option.some.inj h
    exact hs.goto rfl rfl (fun b hb => hs.unlinked (fun _ => discardable_unlinkMarker) hb) trivial
  | markerUnlinked =>
    simp only [RawCache.cloneGo] at h
    split at h
    · obtain rfl := Option.some.inj h
      exact hs.goto rfl rfl nofun trivial
    · cases h
  | bare =>
    simp only [RawCache.cloneGo] at h
    split at h
    · obtain rfl := Option.some.inj h
      refine hs.goto rfl rfl (fun b hb => ?_) rfl
      obtain rfl := Option.some.inj hb
      simp [discardable]
    · cases h
  | made =>
    have hstage : s.stage = some ⟨none, none⟩ := hat
    simp only [RawCache.cloneGo, hstage] at h
    obtain rfl := Option.some.inj h
    refine hs.goto rfl rfl (fun b hb => ?_) ⟨emptyFile, rfl⟩
    obtain rfl := Option.some.inj hb
    simp [discardable]
  | extracting =>
    obtain ⟨c, hstage⟩ := hat
    simp only [RawCache.cloneGo, hstage] at h
    split at h
    · rename_i b x hb hx
      obtain rfl := Option.some.inj hb
      obtain rfl := Option.some.inj h
      refine hs.goto rfl rfl (fun b hb => ?_) ⟨x, hx, rfl⟩
      obtain rfl := Option.some.inj hb
      simp [discardable]
    · cases h
  | extracted =>
    obtain ⟨x, hx, hstage⟩ := hat
    simp only [RawCache.cloneGo, hstage] at h
    split_ifs at h with hsize
    obtain rfl := Option.some.inj h
    refine hs.goto rfl rfl (fun b hb => ?_) ⟨x, hx, hsize.2, rfl⟩
    obtain rfl := Option.some.inj hb
    simp [discardable]
  | readOnly =>
    obtain ⟨x, hx, hsize, hstage⟩ := hat
    simp only [RawCache.cloneGo, hstage] at h
    obtain rfl := Option.some.inj h
    refine hs.goto rfl rfl (fun b hb => ?_) ⟨x, [], hx, hsize, rfl⟩
    obtain rfl := Option.some.inj hb
    simp [discardable]
  | marking =>
    obtain ⟨x, text, hx, hsize, hstage⟩ := hat
    simp only [RawCache.cloneGo, hstage] at h
    obtain rfl := Option.some.inj h
    refine hs.goto rfl rfl (fun b hb => ?_) ⟨x, hx, hsize, rfl⟩
    obtain rfl := Option.some.inj hb
    simp [discardable]
  | written =>
    obtain ⟨x, hx, hsize, hstage⟩ := hat
    simp only [RawCache.cloneGo, hstage] at h
    obtain rfl := Option.some.inj h
    refine hs.goto rfl rfl (fun b hb => ?_) ⟨_, rfl, x, hx, hsize, rfl⟩
    obtain rfl := Option.some.inj hb
    simp [discardable]
  | sealed =>
    -- the one step that makes a base live
    obtain ⟨b, hstage, hb⟩ := hat
    simp only [RawCache.cloneGo] at h
    split at h
    · obtain rfl := Option.some.inj h
      exact {
        live := fun b' hb' => by
          change s.stage = some b' at hb'
          rw [hstage] at hb'
          rw [← Option.some.inj hb']
          exact hb
        stage := nofun
        returned := hs.returned
        work := fun t' pc' hw' => by
          obtain ⟨rfl, rfl⟩ := Work.clone.inj (Option.some.inj hw')
          trivial }
    · cases h
  | published =>
    obtain rfl := Option.some.inj h
    exact hs.goto rfl rfl hs.stage trivial
  | live =>
    simp only [RawCache.cloneGo] at h
    obtain ⟨raw, hraw, rfl⟩ := Option.map_eq_some_iff.mp h
    obtain ⟨b, hb, hv⟩ := Option.bind_eq_some_iff.mp hraw
    obtain ⟨x, hx, hvx⟩ := validateBundle_complete (hs.live b hb)
    rw [hv] at hvx
    obtain rfl := Option.some.inj hvx
    exact hs.goto rfl rfl hs.stage hx
  | validated raw =>
    simp only [RawCache.cloneGo] at h
    split_ifs at h
    obtain rfl := Option.some.inj h
    refine { hs with returned := fun t' content hr => ?_, work := nofun }
    rcases List.mem_cons.mp hr with hr | hr
    · obtain ⟨rfl, rfl⟩ := Prod.mk.inj hr
      refine ⟨raw, hat, ?_⟩
      change Function.update s.targets t' (some raw) t' = some raw
      rw [Function.update_self]
    · exact hs.returned t' content hr
  | reserved =>
    simp only [RawCache.cloneGo] at h
    split at h
    · rename_i x hx
      obtain rfl := Option.some.inj h
      refine hs.goto rfl rfl hs.stage ⟨x, hx, ?_⟩
      change Function.update s.targets t (some x) t = some x
      rw [Function.update_self]
    · cases h
  | copied =>
    obtain ⟨x, hx, ht⟩ := hat
    simp only [RawCache.cloneGo] at h
    split_ifs at h
    obtain rfl := Option.some.inj h
    refine { hs with returned := fun t' content hr => ?_, work := nofun }
    rcases List.mem_cons.mp hr with hr | hr
    · obtain ⟨rfl, rfl⟩ := Prod.mk.inj hr
      exact ⟨x, hx, ht⟩
    · exact hs.returned t' content hr
  | undoRaw =>
    obtain rfl := Option.some.inj h
    exact hs.goto rfl rfl (fun b hb => hs.unlinked (fun _ => discardable_unlinkRaw) hb) trivial
  | undoMarker =>
    obtain rfl := Option.some.inj h
    exact hs.goto rfl rfl (fun b hb => hs.unlinked (fun _ => discardable_unlinkMarker) hb) trivial
  | undoStage =>
    simp only [RawCache.cloneGo] at h
    split at h
    · obtain rfl := Option.some.inj h
      exact { hs with stage := nofun, work := nofun }
    · cases h
  | dropTarget =>
    obtain rfl := Option.some.inj h
    exact { hs with work := nofun }

omit [DecidableEq T] in
theorem Inv.cloneFail (hs : Inv env s) (t : T) (pc : Clone) : Inv env (cloneFail s t pc) := by
  unfold RawCache.cloneFail
  split
  all_goals first
    | exact hs.quit
    | exact hs.goto rfl rfl hs.stage trivial

omit [DecidableEq T] in
theorem Inv.collectGo (hs : Inv env s) {unused : Bool} {pc : Collect} (h : collectGo s unused pc = some s') :
    Inv env s' := by
  cases pc with
  | look =>
    simp only [RawCache.collectGo] at h
    split_ifs at h
    · obtain rfl := Option.some.inj h
      exact { hs with work := nofun }
    · obtain rfl := Option.some.inj h
      exact { hs with work := nofun }
  | eraseMarker last =>
    obtain rfl := Option.some.inj h
    exact { hs with work := nofun }
  | eraseRaw last =>
    obtain rfl := Option.some.inj h
    exact { hs with work := nofun }
  | eraseDir last =>
    simp only [RawCache.collectGo] at h
    split at h
    · obtain rfl := Option.some.inj h
      cases last with
      | true => exact { hs with work := nofun }
      | false => exact { hs with work := nofun }
    · cases h
  | lookLive =>
    simp only [RawCache.collectGo] at h
    split_ifs at h
    · split at h
      · obtain rfl := Option.some.inj h
        exact { hs with live := nofun, work := nofun }
      · cases h
    · obtain rfl := Option.some.inj h
      exact hs.quit

theorem Inv.step (hs : Inv env s) {a : Action T} (h : step env s a = some s') : Inv env s' := by
  cases a with
  | clone t =>
    simp only [RawCache.step] at h
    split at h
    · split_ifs at h
      obtain rfl := Option.some.inj h
      exact hs.goto rfl rfl hs.stage trivial
    · cases h
  | collect unused =>
    simp only [RawCache.step] at h
    split at h
    · obtain rfl := Option.some.inj h
      exact { hs with work := nofun }
    · cases h
  | go =>
    simp only [RawCache.step] at h
    split at h
    · rename_i t pc hw
      exact hs.cloneGo hw h
    · exact hs.collectGo h
    · cases h
  | fail =>
    simp only [RawCache.step] at h
    split at h
    · obtain rfl := Option.some.inj h
      exact hs.cloneFail _ _
    · obtain rfl := Option.some.inj h
      exact hs.quit
    · cases h
  | unsupported =>
    simp only [RawCache.step] at h
    split at h
    · split_ifs at h
      · obtain rfl := Option.some.inj h
        exact hs.goto rfl rfl hs.stage trivial
      · obtain rfl := Option.some.inj h
        exact hs.quit
    · cases h
  | partly content =>
    simp only [RawCache.step] at h
    split at h
    · rename_i t hw
      obtain ⟨x, hstage⟩ := hs.work t _ hw
      obtain rfl := Option.some.inj h
      refine { hs with stage := fun b hb => ?_, work := fun t' pc' hw' => ?_ }
      · change s.stage.map _ = some b at hb
        rw [hstage] at hb
        obtain rfl := Option.some.inj hb
        simp [discardable]
      · change s.work = _ at hw'
        rw [hw] at hw'
        obtain ⟨rfl, rfl⟩ := Work.clone.inj (Option.some.inj hw')
        refine ⟨content, ?_⟩
        change s.stage.map _ = _
        rw [hstage]
        rfl
    · rename_i t hw
      obtain rfl := Option.some.inj h
      refine { hs with work := fun t' pc' hw' => ?_ }
      change s.work = _ at hw'
      rw [hw] at hw'
      obtain ⟨rfl, rfl⟩ := Work.clone.inj (Option.some.inj hw')
      trivial
    · cases h
  | partlyMarker content =>
    simp only [RawCache.step] at h
    split at h
    · rename_i t hw
      obtain ⟨x, text, hx, hsize, hstage⟩ := hs.work t _ hw
      obtain rfl := Option.some.inj h
      refine { hs with stage := fun b hb => ?_, work := fun t' pc' hw' => ?_ }
      · change s.stage.map _ = some b at hb
        rw [hstage] at hb
        obtain rfl := Option.some.inj hb
        simp [discardable]
      · change s.work = _ at hw'
        rw [hw] at hw'
        obtain ⟨rfl, rfl⟩ := Work.clone.inj (Option.some.inj hw')
        refine ⟨x, content, hx, hsize, ?_⟩
        change s.stage.map _ = _
        rw [hstage]
        rfl
    · cases h
  | stop =>
    obtain rfl := Option.some.inj h
    exact hs.quit

/-! ## What a clone leaves alone -/

omit [DecidableEq T] in
theorem cloneFail_live (t : T) (pc : Clone) : (cloneFail s t pc).live = s.live := by
  unfold RawCache.cloneFail
  split <;> rfl

theorem cloneGo_live {t : T} {pc : Clone} (h : cloneGo env s t pc = some s') {b : Bundle} (hb : s.live = some b) :
    s'.live = some b := by
  cases pc with
  | sealed =>
    -- the exclusive rename does not replace it
    simp only [RawCache.cloneGo, hb] at h
    cases h
  | live =>
    obtain ⟨raw, -, rfl⟩ := Option.map_eq_some_iff.mp h
    exact hb
  | scanned | rawUnlinked | undoRaw | undoMarker | published | dropTarget =>
    obtain rfl := Option.some.inj h
    exact hb
  | _ =>
    simp only [RawCache.cloneGo] at h
    split at h
    all_goals first
      | (obtain rfl := Option.some.inj h; exact hb)
      | cases h
      | (split_ifs at h; obtain rfl := Option.some.inj h; exact hb)

/-- Only a removal takes a base from its live name. -/
theorem step_live {a : Action T} (hw : ∀ unused pc, s.work ≠ some (.collect unused pc)) (h : step env s a = some s')
    {b : Bundle} (hb : s.live = some b) : s'.live = some b := by
  cases a with
  | go =>
    simp only [RawCache.step] at h
    split at h
    · exact cloneGo_live h hb
    · rename_i unused pc hc
      exact absurd hc (hw unused pc)
    · cases h
  | fail =>
    simp only [RawCache.step] at h
    split at h
    · obtain rfl := Option.some.inj h
      rw [cloneFail_live]
      exact hb
    · rename_i unused pc hc
      exact absurd hc (hw unused pc)
    · cases h
  | stop =>
    obtain rfl := Option.some.inj h
    exact hb
  | _ =>
    simp only [RawCache.step] at h
    split at h
    all_goals first
      | (obtain rfl := Option.some.inj h; exact hb)
      | cases h
      | (split_ifs at h <;> (obtain rfl := Option.some.inj h; exact hb))

/-! ## A clone that nothing interrupts -/

/-- The call goes on for `n` steps. -/
def Goes (env : Env) (n : ℕ) (s s' : State T) : Prop := Steps.run (step env) s (List.replicate n .go) = some s'

theorem Goes.step {n : ℕ} {s1 : State T} (h : RawCache.step env s .go = some s1) (hn : Goes env n s1 s') :
    Goes env (n + 1) s s' := by
  unfold Goes
  rw [List.replicate_succ, Steps.run, h]
  exact hn

theorem Goes.trans {m n : ℕ} {s1 : State T} (h : Goes env m s s1) (h' : Goes env n s1 s') : Goes env (m + n) s s' := by
  unfold Goes
  rw [List.replicate_add]
  exact Steps.run_append h h'

theorem go_clone (s' : State T) {t : T} {pc : Clone} (hw : s.work = some (.clone t pc)) (h : cloneGo env s t pc = some s') :
    Goes env 1 s s' := by
  have hstep : RawCache.step env s .go = some s' := by
    rw [RawCache.step, hw]
    exact h
  exact Goes.step hstep rfl

omit [DecidableEq T] in
theorem at_work (s : State T) (t : T) (pc : Clone) : (s.at_ t pc).work = some (.clone t pc) := rfl

/-- A complete base is cloned to a target that is not there. -/
theorem clone_live {x : Qcow2.File} {b : Bundle} {t : T} (hx : env.extract = .ok x) (hb : Complete env b)
    (hlive : s.live = some b) (ht : s.targets t = none) :
    ∃ n, Goes env n (s.at_ t .live) ((s.setTarget t (some x)).finish t) := by
  obtain ⟨x', hx', hv⟩ := validateBundle_complete hb
  rw [hx] at hx'
  obtain rfl := Except.ok.inj hx'
  refine ⟨1 + 1, (go_clone (s.at_ t (.validated x)) (at_work s t _) ?_).trans (go_clone _ (at_work s t _) ?_)⟩
  · change ((s.live.bind (validateBundle env)).map fun raw => (s.at_ t .live).at_ t (.validated raw)) = _
    rw [hlive, Option.bind_some, hv]
    rfl
  · change (if (s.targets t).isNone then _ else none) = _
    rw [ht]
    rfl

/-- A stage that an earlier call left is removed. -/
theorem discard_stage (hs : Inv env s) {t : T} : ∃ n, Goes env n (s.at_ t .absent) ((s.setStage none).at_ t .bare) := by
  cases hstage : s.stage with
  | none =>
    refine ⟨1, go_clone _ (at_work s t _) ?_⟩
    have hsame : s.setStage none = s := by
      rw [← hstage]
      rfl
    rw [hsame]
    change (match s.stage with | none => some (s.at_ t .bare) | some b => if discardable b then some (s.at_ t .scanned) else none) = _
    rw [hstage]
  | some b =>
    have hb := hs.stage b hstage
    refine ⟨1 + (1 + (1 + 1)), (go_clone (s.at_ t .scanned) (at_work s t _) ?_).trans
      ((go_clone ((s.setStage (some { b with raw := none })).at_ t .rawUnlinked) (at_work s t _) ?_).trans
        ((go_clone ((s.setStage (some ⟨none, none⟩)).at_ t .markerUnlinked) (at_work _ t _) ?_).trans
          (go_clone _ (at_work _ t _) rfl)))⟩
    · simp only [cloneGo, State.at_, hstage, if_pos hb]
    · simp only [cloneGo, State.at_, State.setStage, hstage, Option.map_some]
    · rfl

/-- The base of the image. -/
def base (env : Env) (x : Qcow2.File) : Bundle :=
  ⟨some ⟨x, 0o400⟩, some ⟨markerText env.guest env.size (env.sha256 x), 0o400⟩⟩

/-- A base is built and published. -/
theorem create_bundle {x : Qcow2.File} {t : T} (hx : env.extract = .ok x) (hsha : env.sha256 env.image = env.guest)
    (hsize : x.size = env.size) (hlive : s.live = none) :
    ∃ n, Goes env n ((s.setStage none).at_ t .bare) ({ s with live := some (base env x), stage := none }.at_ t .live) := by
  let staged (raw : Option (Entry Qcow2.File)) (marker : Option (Entry Bytes)) (pc : Clone) : State T :=
    (s.setStage (some ⟨raw, marker⟩)).at_ t pc
  let text := markerText env.guest env.size (env.sha256 x)
  have hmade : Goes env 1 ((s.setStage none).at_ t .bare) (staged none none .made) := go_clone _ (at_work _ t _) rfl
  have hopen : Goes env 1 (staged none none .made) (staged (some ⟨emptyFile, 0o644⟩) none .extracting) :=
    go_clone _ (at_work _ t _) rfl
  have hextract : Goes env 1 (staged (some ⟨emptyFile, 0o644⟩) none .extracting) (staged (some ⟨x, 0o644⟩) none .extracted) := by
    refine go_clone _ (at_work _ t _) ?_
    change (match some (⟨some ⟨emptyFile, 0o644⟩, none⟩ : Bundle), env.extract with | some b, .ok x => _ | _, _ => none) = _
    rw [hx]
    rfl
  have hread : Goes env 1 (staged (some ⟨x, 0o644⟩) none .extracted) (staged (some ⟨x, 0o400⟩) none .readOnly) := by
    refine go_clone _ (at_work _ t _) ?_
    exact if_pos ⟨hsha, hsize⟩
  have hmark : Goes env 1 (staged (some ⟨x, 0o400⟩) none .readOnly) (staged (some ⟨x, 0o400⟩) (some ⟨[], 0o600⟩) .marking) :=
    go_clone _ (at_work _ t _) rfl
  have hwrite : Goes env 1 (staged (some ⟨x, 0o400⟩) (some ⟨[], 0o600⟩) .marking)
      (staged (some ⟨x, 0o400⟩) (some ⟨text, 0o600⟩) .written) := go_clone _ (at_work _ t _) rfl
  have hseal : Goes env 1 (staged (some ⟨x, 0o400⟩) (some ⟨text, 0o600⟩) .written)
      (staged (some ⟨x, 0o400⟩) (some ⟨text, 0o400⟩) .sealed) := go_clone _ (at_work _ t _) rfl
  have hpublish : Goes env 1 (staged (some ⟨x, 0o400⟩) (some ⟨text, 0o400⟩) .sealed)
      ({ s with live := some (base env x), stage := none }.at_ t .published) := by
    refine go_clone _ (at_work _ t _) ?_
    change (match s.live with | none => _ | some _ => none) = _
    rw [hlive]
    rfl
  have hsync : Goes env 1 ({ s with live := some (base env x), stage := none }.at_ t .published)
      ({ s with live := some (base env x), stage := none }.at_ t .live) := go_clone _ (at_work _ t _) rfl
  exact ⟨_, hmade.trans (hopen.trans (hextract.trans (hread.trans (hmark.trans (hwrite.trans (hseal.trans
    (hpublish.trans hsync)))))))⟩

/-- A clone that nothing interrupts makes its target. -/
theorem clone_succeeds (hs : Inv env s) {x : Qcow2.File} {t : T} (haccepts : env.accepts = true)
    (hx : env.extract = .ok x) (hwork : s.work = none) (ht : s.targets t = none) :
    ∃ n s', Steps.run (step env) s (.clone t :: List.replicate n .go) = some s' ∧ s'.targets t = some x ∧
      s'.returned = (t, some x) :: s.returned ∧ s'.work = none := by
  have hbegin : step env s (.clone t) = some (s.at_ t .looking) := by
    rw [step, hwork, if_pos haccepts]
  have hsha : env.sha256 env.image = env.guest := by
    simp only [Env.accepts, Bool.and_eq_true, beq_iff_eq] at haccepts
    exact haccepts.1.1.1.1.2
  have hsize : x.size = env.size := Qcow2.qcow2ExtractFd_size hx
  have finished : ∀ s1 : State T, ((s1.setTarget t (some x)).finish t).targets t = some x ∧
      ((s1.setTarget t (some x)).finish t).returned = (t, some x) :: s1.returned ∧
      ((s1.setTarget t (some x)).finish t).work = none := by
    intro s1
    have htarget : (s1.setTarget t (some x)).targets t = some x := by
      change Function.update s1.targets t (some x) t = some x
      rw [Function.update_self]
    refine ⟨htarget, ?_, rfl⟩
    change (t, (s1.setTarget t (some x)).targets t) :: s1.returned = _
    rw [htarget]
  have run : ∀ {n : ℕ} {s' : State T}, Goes env n (s.at_ t .looking) s' →
      Steps.run (step env) s (.clone t :: List.replicate n .go) = some s' := by
    intro n s' h
    rw [Steps.run, hbegin]
    exact h
  cases hlive : s.live with
  | some b =>
    have hlook : Goes env 1 (s.at_ t .looking) (s.at_ t .live) := by
      refine go_clone _ (at_work s t _) ?_
      simp only [cloneGo, State.at_, hlive, Option.isSome_some, if_true]
    obtain ⟨n, hn⟩ := clone_live hx (hs.live b hlive) hlive ht
    exact ⟨1 + n, _, run (hlook.trans hn), finished s⟩
  | none =>
    have hlook : Goes env 1 (s.at_ t .looking) (s.at_ t .absent) := by
      refine go_clone _ (at_work s t _) ?_
      simp only [cloneGo, State.at_, hlive, Option.isSome_none, if_false, Bool.false_eq_true]
    obtain ⟨n1, h1⟩ := discard_stage hs (t := t)
    obtain ⟨n2, h2⟩ := create_bundle hx hsha hsize hlive (t := t)
    have hbase : Complete env (base env x) := ⟨x, hx, hsize, rfl⟩
    obtain ⟨n3, h3⟩ := clone_live (s := { s with live := some (base env x), stage := none }) hx hbase rfl ht
    exact ⟨1 + (n1 + (n2 + n3)), _, run (hlook.trans (h1.trans (h2.trans h3))), finished _⟩

end

/-! ## The protocol -/

/-- What the cloner and the collector keep. -/
structure Protocol (env : Env) (s : State T) : Prop where
  /-- A live base is the extraction of the image, with its marker. -/
  live : ∀ b, s.live = some b → Complete env b
  /-- A clone that returned 0 made its target that extraction. -/
  returned : ∀ t content, (t, content) ∈ s.returned → ∃ x, env.extract = .ok x ∧ content = some x
  /-- No step of a clone, and none that fails, changes a live base. -/
  kept : ∀ a s', (∀ unused pc, s.work ≠ some (.collect unused pc)) → step env s a = some s' → ∀ b, s.live = some b →
    s'.live = some b
  /-- A clone that nothing interrupts succeeds. -/
  clones : ∀ x t, env.accepts = true → env.extract = .ok x → s.work = none → s.targets t = none →
    ∃ n s', Steps.run (step env) s (.clone t :: List.replicate n .go) = some s' ∧ s'.targets t = some x ∧
      s'.returned = (t, some x) :: s.returned ∧ s'.work = none

/-- **The raw cache keeps its protocol**: in every state that clones and removals of one digest reach, wherever they fail
or stop, a live base is complete, a clone that returned 0 made the extraction, clones leave a live base alone, and the
next clone of an absent target succeeds. -/
theorem raw_cache_protocol {env : Env} {s0 s : State T} (h0 : Initial s0) {as : List (Action T)}
    (hr : Steps.run (step env) s0 as = some s) : Protocol env s := by
  have hs : Inv env s := Steps.run_inv (I := fun s => Inv env s) (fun _ _ _ hs h => hs.step h) (Inv.initial h0) hr
  exact {
    live := hs.live
    returned := hs.returned
    kept := fun a s' hw h b hb => step_live hw h hb
    clones := fun x t haccepts hx hwork ht => clone_succeeds hs haccepts hx hwork ht }

/-! ## One image -/

/-- A qcow2 image of one byte, all of it a hole. -/
def tiny : Env where
  inflate _ _ := (0, [])
  sha256 f := List.replicate 64 (if f.size = 80 then byte 'a' else byte 'b')
  guest := List.replicate 64 (byte 'a')
  image := ⟨80, fun i => ([0x51, 0x46, 0x49, 0xfb, 0, 0, 0, 2, 0, 0, 0, 0, 0, 0, 0, 0, 0, 0, 0, 0, 0, 0, 0, 9,
    0, 0, 0, 0, 0, 0, 0, 1, 0, 0, 0, 0, 0, 0, 0, 1, 0, 0, 0, 0, 0, 0, 0, 72] : List UInt8).getD i 0⟩

def nothing : State ℕ := ⟨none, none, none, fun _ => none, none, []⟩

theorem nothing_initial : Initial nothing := ⟨rfl, rfl, rfl, rfl, rfl⟩

/-- A clone dies in the extraction, the next one succeeds, a removal dies in its erase, and a third clone succeeds. -/
def interruptedCalls : List (Action ℕ) :=
  (.clone 0 :: List.replicate 4 .go : List (Action ℕ)) ++ ([.partly ⟨1, fun _ => 7⟩, .stop, .clone 0] : List (Action ℕ)) ++
    (List.replicate 16 .go : List (Action ℕ)) ++ ([.collect true, .go, .go, .go, .stop, .clone 1] : List (Action ℕ)) ++
    (List.replicate 13 .go : List (Action ℕ))

theorem raw_cache_protocol_interrupted : ∃ s, Steps.run (step tiny) nothing interruptedCalls = some s ∧
    s.returned.map Prod.fst = [1, 0] ∧ s.live.isSome = true ∧ s.retired.isSome = true ∧ Protocol tiny s := by
  have hrun : (Steps.run (step tiny) nothing interruptedCalls).map
      (fun s => (s.returned.map Prod.fst, s.live.isSome, s.retired.isSome)) = some ([1, 0], true, true) := by
    decide +kernel
  obtain ⟨s, hs, hleft⟩ := Option.map_eq_some_iff.mp hrun
  obtain ⟨hreturned, hrest⟩ := Prod.mk.inj hleft
  obtain ⟨hlive, hretired⟩ := Prod.mk.inj hrest
  exact ⟨s, hs, hreturned, hlive, hretired, raw_cache_protocol nothing_initial hs⟩

end Hamn.RawCache
