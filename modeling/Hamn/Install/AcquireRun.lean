import Hamn.Install.Acquire

/-!
# Install.AcquireRun — attempts of both downloaders on one store

* `Inv`: the finished file is verified, the partial one is not too long, and the validator file is one that both read.
* `wp_zshAcquire`, `wp_acquireObserved`: every attempt keeps `Inv`, and what it returns is verified.
* `Serves`, `Recovers`, `Stuck`: a server that serves the artifact, and what an attempt makes of it.
* `download_store_shared`: both together, over any number of attempts.
-/

namespace Hamn.Download

open Crash Bytes
open Crash.Proc hiding attempt pure bind

variable {sha256 : Bytes → Bytes} (a : Artifact sha256)

/-! ## What attempts keep -/

structure Inv (s : Store) : Prop where
  final : ∀ file, s.final = some file → verified a file = true
  part : ∀ file, s.part = some file → file.length ≤ a.size
  metadata : ∀ text, s.metadata = some text → ∃ validator, storable validator = true ∧ text = recordText a.key a.size validator
  guest : ∀ file, s.guest = some file → file.length ≤ a.kind.limit

/-- A run ends with `P` when it returns, and with `Inv` anyhow. -/
def Ends {ε α : Type} (P : α → Store → Prop) : Post Store ε α := ⟨P, fun _ => Inv a, Inv a⟩

/-- A program that returns has a verified file. -/
def Returns (path : Path) (s : Store) : Prop := Inv a s ∧ ∃ file, s.file path = some file ∧ verified a file = true

section

variable {a} {s : Store}

theorem Inv.initial (h : Initial a s) : Inv a s where
  final file hf := by
    rw [h.final] at hf
    cases hf
  part file hf := by
    rw [h.part] at hf
    cases hf
  metadata text ht := by
    rw [h.metadata] at ht
    cases ht
  guest := h.guest

theorem Inv.dropFinal (hs : Inv a s) : Inv a s.dropFinal := { hs with final := nofun }

theorem Inv.dropPart (hs : Inv a s) : Inv a s.dropPart := { hs with part := nofun }

theorem Inv.dropMetadata (hs : Inv a s) : Inv a s.dropMetadata := { hs with metadata := nofun }

theorem Inv.setPart (hs : Inv a s) {file : Bytes} (h : file.length ≤ a.size) : Inv a { s with part := some file } :=
  { hs with part := fun _ hf => Option.some.inj hf ▸ h }

theorem Inv.touch (hs : Inv a s) : Inv a s.touch := by
  refine hs.setPart ?_
  cases hp : s.part with
  | none => exact Nat.zero_le _
  | some file => exact hs.part file hp

theorem Inv.saveMetadata (hs : Inv a s) {validator : Bytes} (h : storable validator = true) :
    Inv a (s.saveMetadata (recordText a.key a.size validator)) :=
  { hs with metadata := fun _ ht => ⟨validator, h, (Option.some.inj ht).symm⟩ }

theorem Inv.publish (hs : Inv a s) (h : s.part.any (verified a) = true) : Inv a s.publish :=
  { hs with
    final := fun file hf => by
      change s.part = some file at hf
      rw [hf] at h
      exact h
    part := nofun }

theorem Inv.append (hs : Inv a s) {file data : Bytes} (hp : s.part = some file) (h : file.length + data.length ≤ a.size) :
    Inv a (s.append data) := by
  refine { hs with part := fun file' hf => ?_ }
  change s.part.map (· ++ data) = some file' at hf
  rw [hp] at hf
  rw [← Option.some.inj hf, List.length_append]
  exact h

/-! ### Rules -/

variable {ε α β : Type} {P : α → Store → Prop} {Q : β → Store → Prop}

/-- A call that works or fails. -/
theorem wp_works {P : Unit → Store → Prop} {f : Store → Store} {e : ε} (hs : Inv a s) (h : P () (f s)) :
    wp (step fun (works : Bool) s => if works then (.ok (), f s) else (.error e, s)) (Ends a P) s := by
  refine wp_step hs (fun works r s' he => ?_) fun works e s' he => ?_
  · cases works with
    | false => cases he
    | true =>
      obtain ⟨-, rfl⟩ := Prod.mk.inj he
      exact h
  · cases works with
    | false =>
      obtain ⟨-, rfl⟩ := Prod.mk.inj he
      exact hs
    | true => cases he

theorem wp_change {P : Unit → Store → Prop} {f : Store → Store} (hs : Inv a s) (h : P () (f s)) :
    wp (change f) (Ends a P) s := wp_works hs h

theorem wp_put {P : Unit → Store → Prop} {f : Store → Store} (hs : Inv a s) (h : P () (f s)) :
    wp (put f) (Ends a P) s := wp_works hs h

/-- One process after another. -/
theorem wp_then {m : Proc Bool Store ε α} {k : α → Proc Bool Store ε β} (hm : wp m (Ends a P) s)
    (hk : ∀ r s', P r s' → wp (k r) (Ends a Q) s') : wp (m >>= k) (Ends a Q) s :=
  hm.seq hk (fun _ _ h => h) fun _ h => h

theorem wp_removeBoth {P : Unit → Store → Prop} (hs : Inv a s) (h : P () s.dropPart.dropMetadata) :
    wp removeBoth (Ends a P) s :=
  wp_then (wp_change (P := fun _ s' => s' = s.dropPart) hs rfl) fun _ _ he => he ▸ wp_change hs.dropPart h

/-- Removal, and then the failure. -/
theorem wp_removeBoth_fail {message : String} (hs : Inv a s) :
    wp (removeBoth >>= fun _ => (fail message : Act α)) (Ends a P) s :=
  wp_then (wp_removeBoth (P := fun _ => Inv a) hs hs.dropPart.dropMetadata) fun _ _ h => wp_fail h

/-- The publication of a verified partial file. -/
theorem wp_publish (hs : Inv a s) (h : s.part.any (verified a) = true) :
    wp (change Store.publish >>= fun _ => change Store.dropMetadata >>= fun _ => (return Path.final : Act Path))
      (Ends a (Returns a)) s := by
  have hfinal : ∃ file, s.part = some file ∧ verified a file = true := by
    cases hp : s.part with
    | none =>
      rw [hp] at h
      cases h
    | some file =>
      rw [hp] at h
      exact ⟨file, rfl, h⟩
  refine wp_then (wp_change (P := fun _ s' => s' = s.publish) hs rfl) fun _ _ he => ?_
  subst he
  refine wp_then (wp_change (P := fun _ s' => s' = s.publish.dropMetadata) (hs.publish h) rfl) fun _ _ he => ?_
  subst he
  exact wp_pure ⟨(hs.publish h).dropMetadata, hfinal⟩

/-! ### The script -/

theorem wp_zshPublish (hs : Inv a s) : wp (zshPublish a) (Ends a (Returns a)) s := by
  refine wp_look_bind ?_
  change wp (if s.part.any (verified a) then _ else _) _ _
  split_ifs with h
  · exact wp_publish hs h
  · exact wp_removeBoth_fail hs

theorem zshResume_spec (s : Store) : zshResume a s = (0, []) ∨
    ∃ part, s.part = some part ∧ 0 < part.length ∧ part.length < a.size ∧ (zshResume a s).1 = part.length ∧
      storable (zshResume a s).2 = true ∧ s.metadata = some (recordText a.key a.size (zshResume a s).2) := by
  unfold zshResume
  split
  · rename_i part validator hpart hvalidator
    split_ifs with hlen
    · obtain ⟨text, htext, hv⟩ := Option.bind_eq_some_iff.mp hvalidator
      obtain ⟨rfl, hstorable⟩ := (zshValidator_eq_some a.named).mp hv
      exact Or.inr ⟨part, hpart, hlen.1, hlen.2, rfl, hstorable, htext⟩
    · exact Or.inl rfl
  · exact Or.inl rfl

/-- The stream: the partial file is as long as what has been received. -/
theorem wp_zshStream : ∀ {body : List Bytes} {received : ℕ} {s : Store} {file : Bytes}, Inv a s → s.part = some file →
    file.length = received → wp (zshStream a received body) (Ends a fun _ s' => Inv a s') s
  | [], _, _, _, hs, _, _ => wp_pure hs
  | data :: body, received, s, file, hs, hp, hl => by
    unfold zshStream
    split_ifs with hover
    · exact wp_pure hs
    · have happend : Inv a (s.append data) := hs.append hp (by omega)
      refine wp_then (wp_change (P := fun _ s' => s' = s.append data) hs rfl) fun _ _ he => ?_
      subst he
      have hp' : (s.append data).part = some (file ++ data) := by
        change s.part.map (· ++ data) = _
        rw [hp]
        rfl
      exact wp_zshStream happend hp' (by rw [List.length_append, hl])

/-- What a pass of the loop leaves behind: a verified file, or no partial one. -/
def Passes (a : Artifact sha256) : Option Path → Store → Prop
  | some path, s => Returns a path s
  | none, s => Inv a s ∧ s.part = none

theorem wp_zshAccept (hs : Inv a s) {curlResult : ℕ} {validator : Bytes} :
    wp (zshAccept a curlResult validator) (Ends a (Passes a)) s := by
  have hsave : wp (if storable validator then change (Store.saveMetadata (recordText a.key a.size validator)) else pure ())
      (Ends a fun _ s' => Inv a s') s := by
    split_ifs with hv
    · exact wp_change hs (hs.saveMetadata hv)
    · exact wp_pure hs
  refine wp_then hsave fun _ s1 h1 => ?_
  split_ifs
  · exact wp_fail h1
  · exact wp_then (wp_zshPublish h1) fun path _ h => wp_pure h

theorem wp_zshJudge (hs : Inv a s) {offset received : ℕ} {answer : Answer} {overflow : Bool} :
    wp (zshJudge a offset answer received overflow) (Ends a (Passes a)) s := by
  unfold zshJudge
  dsimp only
  generalize (if overflow = true then answer.killed else answer.exit) = curlResult
  split_ifs
  · exact wp_fail hs
  · refine wp_then (wp_removeBoth (P := fun _ s' => s' = s.dropPart.dropMetadata) hs rfl) fun _ _ he => ?_
    subst he
    exact wp_pure ⟨hs.dropPart.dropMetadata, rfl⟩
  · exact wp_removeBoth_fail hs
  · exact wp_removeBoth_fail hs
  · exact wp_zshAccept hs

theorem wp_zshTry (hs : Inv a s) {offset : ℕ} {validator : Bytes} {answer : Answer} (hv : storable validator = true)
    (hp : (s.part.getD []).length = offset) : wp (zshTry a offset validator answer) (Ends a (Passes a)) s := by
  have h1 := hs.saveMetadata hv
  refine wp_then (wp_change (P := fun _ s' => s' = s.saveMetadata (recordText a.key a.size validator)) hs rfl) fun _ _ he => ?_
  subst he
  refine wp_then (wp_change (P := fun _ s' => s' = (s.saveMetadata (recordText a.key a.size validator)).touch) h1 rfl)
    fun _ _ he => ?_
  subst he
  exact wp_then (wp_zshStream h1.touch rfl hp) fun r s3 h3 => wp_zshJudge h3

theorem wp_zshRequest (hs : Inv a s) {offset : ℕ} {validator : Bytes} {first second : Answer}
    (hv : storable validator = true) (hp : (s.part.getD []).length = offset) :
    wp (zshRequest a offset validator first second) (Ends a (Returns a)) s := by
  refine wp_then (wp_zshTry hs hv hp) fun r s1 h1 => ?_
  cases r with
  | some path => exact wp_pure h1
  | none =>
    refine wp_then (wp_zshTry h1.1 (by decide) (by rw [h1.2]; rfl)) fun r s2 h2 => ?_
    cases r with
    | some path => exact wp_pure h2
    | none => exact wp_fail h2.1

theorem zshResume_storable (s : Store) : storable (zshResume a s).2 = true := by
  rcases zshResume_spec (a := a) s with h | ⟨part, -, -, -, -, h, -⟩
  · rw [h]
    decide
  · exact h

theorem wp_zshDownload (hs : Inv a s) {first second : Answer} :
    wp (zshDownload a first second) (Ends a (Returns a)) s := by
  refine wp_look_bind ?_
  change wp (if s.part.any (verified a) then _ else
    (if (zshResume a s).1 = 0 then removeBoth else pure ()) >>= fun _ =>
      zshRequest a (zshResume a s).1 (zshResume a s).2 first second) _ _
  have hv := zshResume_storable (a := a) s
  split_ifs with h hzero
  · exact wp_zshPublish hs
  · refine wp_then (wp_removeBoth (P := fun _ s' => s' = s.dropPart.dropMetadata) hs rfl) fun _ _ he => ?_
    subst he
    exact wp_zshRequest hs.dropPart.dropMetadata hv hzero.symm
  · refine wp_bind (wp_pure ?_)
    rcases zshResume_spec (a := a) s with h | ⟨part, hp, -, -, hlen, -⟩
    · rw [h] at hzero
      exact absurd rfl hzero
    · exact wp_zshRequest hs hv (by rw [hp]; exact hlen.symm)

theorem wp_zshAcquire (hs : Inv a s) {first second : Answer} :
    wp (zshAcquire a first second) (Ends a (Returns a)) s := by
  refine wp_look_bind ?_
  dsimp only [id]
  cases hfile : s.final with
  | none => exact wp_zshDownload hs
  | some file =>
    dsimp only
    split_ifs with hv
    · exact wp_pure ⟨hs, file, hfile, hv⟩
    · exact wp_then (wp_change (P := fun _ s' => Inv a s') hs hs.dropFinal) fun _ _ h => wp_zshDownload h

/-! ### The native downloader -/

/-- Both programs resume at the same place, with the same validator. -/
theorem nativeResume_eq (s : Store) : nativeResume a s = ((zshResume a s).1, asOption (zshResume a s).2) := by
  unfold nativeResume zshResume
  have hbind : s.metadata.bind (savedValidator a.key a.size) =
      (s.metadata.bind (zshValidator a.key a.size)).map asOption := by
    cases s.metadata with
    | none => rfl
    | some text => exact savedValidator_eq a.named text
  rw [hbind]
  cases s.part with
  | none => rfl
  | some part =>
    cases s.metadata.bind (zshValidator a.key a.size) with
    | none => rfl
    | some validator =>
      simp only [Option.map_some]
      split_ifs
      · rfl
      · rfl

theorem wp_saveMetadata (hs : Inv a s) {P : Unit → Store → Prop} {validator : Bytes} (hv : storable validator = true)
    (h : P () (s.saveMetadata (recordText a.key a.size validator))) :
    wp (saveMetadata a (asOption validator)) (Ends a P) s := by
  unfold saveMetadata
  rw [PartialMetadata.text_eq a.named hv]
  exact wp_change hs h

/-- A validator of the headers can be stored. -/
theorem validator_storable {headers : Headers} {value : Bytes} (h : validator headers = some value) :
    storable value = true ∧ some value = asOption value := by
  obtain ⟨-, hv⟩ := Option.filter_eq_some_iff.mp h
  refine ⟨storable_iff_valid.mpr (Or.inr hv), ?_⟩
  unfold asOption
  rw [if_neg]
  rintro rfl
  cases hv

/-- What the transfer keeps: with an accepted range, the partial file is as long as what there is of the artifact. -/
def Grown (a : Artifact sha256) (offset : ℕ) (rejected : Bool) (received : ℕ) (s : Store) : Prop :=
  Inv a s ∧ (rejected = false → ∃ file, s.part = some file ∧ file.length = offset + received)

theorem Grown.saved {offset received : ℕ} {rejected : Bool} (h : Grown a offset rejected received s) {validator : Bytes}
    (hv : storable validator = true) :
    Grown a offset rejected received (s.saveMetadata (recordText a.key a.size validator)) :=
  ⟨h.1.saveMetadata hv, h.2⟩

theorem wp_onHeaders {offset received : ℕ} {rejected : Bool} (hs : Grown a offset rejected received s) (headers : Headers) :
    wp (onHeaders a headers) (Ends a fun _ s' => Grown a offset rejected received s') s := by
  unfold onHeaders
  split
  · rename_i value hvalue
    obtain ⟨hv, he⟩ := validator_storable hvalue
    rw [he]
    refine (wp_saveMetadata (P := fun _ s' => Grown a offset rejected received s') hs.1 hv (hs.saved hv)).catch
      (fun _ s1 h1 => wp_pure h1) (fun _ s1 h1 => wp_fail h1) fun _ h => h
  · exact wp_pure hs

theorem wp_checkHeaders {offset : ℕ} (hs : Grown a offset false 0 s) (answer : Answer) :
    wp (checkHeaders a offset answer) (Ends a fun rejected s' => Grown a offset rejected 0 s') s := by
  unfold checkHeaders
  split
  · exact wp_fail hs.1
  · split_ifs
    · exact wp_pure ⟨hs.1, nofun⟩
    · exact wp_then (wp_onHeaders hs _) fun _ s1 h1 => wp_pure h1

theorem wp_receive {offset received : ℕ} {rejected : Bool} {data : Bytes} (hs : Grown a offset rejected received s)
    (hle : offset ≤ a.size) : wp (receive a offset rejected (received + data.length) data)
      (Ends a fun _ s' => Grown a offset rejected (received + data.length) s') s := by
  unfold receive
  split_ifs with hrejected hover hover
  · exact wp_fail hs.1
  · exact wp_pure ⟨hs.1, fun h => by rw [hrejected] at h; cases h⟩
  · exact wp_fail hs.1
  · obtain ⟨file, hp, hl⟩ := hs.2 (Bool.not_eq_true _ ▸ hrejected)
    refine wp_put hs.1 ⟨hs.1.append hp (by omega), fun _ => ⟨file ++ data, ?_, ?_⟩⟩
    · change s.part.map (· ++ data) = _
      rw [hp]
      rfl
    · rw [List.length_append, hl, Nat.add_assoc]

theorem wp_receiveAll {offset : ℕ} {rejected : Bool} (hle : offset ≤ a.size) : ∀ {body : List Bytes} {received : ℕ} {s : Store},
    Grown a offset rejected received s → wp (receiveAll a offset rejected received body) (Ends a fun _ s' => Inv a s') s
  | [], _, _, hs => wp_pure hs.1
  | _ :: _, _, _, hs => wp_then (wp_receive hs hle) fun _ _ h1 => wp_receiveAll hle h1

theorem wp_receiveBody {offset : ℕ} (hs : Grown a offset false 0 s) (hle : offset ≤ a.size) (answer : Answer) :
    wp (receiveBody a offset answer) (Ends a fun _ s' => Inv a s') s := by
  unfold receiveBody
  split_ifs
  · exact wp_pure hs.1
  · exact wp_then (wp_checkHeaders hs answer) fun _ _ h1 => wp_then (wp_receiveAll hle h1) fun _ _ h2 => wp_pure h2

theorem wp_transferObserved {offset : ℕ} (hs : Inv a s) (hp : offset = 0 ∨ ∃ file, s.part = some file ∧ file.length = offset)
    (answer : Answer) : wp (transferObserved a offset answer) (Ends a fun _ s' => Inv a s') s := by
  have hput : wp (put fun s => if offset = 0 then { s with part := some [] } else s.touch)
      (Ends a fun _ s' => Grown a offset false 0 s') s := by
    refine wp_put hs ?_
    split_ifs with hzero
    · exact ⟨hs.setPart (Nat.zero_le _), fun _ => ⟨[], rfl, by rw [hzero]; rfl⟩⟩
    · obtain ⟨file, hfile, hl⟩ := hp.resolve_left hzero
      refine ⟨hs.touch, fun _ => ⟨file, ?_, hl⟩⟩
      change some (s.part.getD []) = some file
      rw [hfile]
      rfl
  have hle : offset ≤ a.size := by
    rcases hp with rfl | ⟨file, hfile, rfl⟩
    · exact Nat.zero_le _
    · exact hs.part file hfile
  refine wp_then hput fun _ s1 h1 => wp_then (wp_receiveBody h1 hle answer) fun checked s2 h2 => ?_
  split
  · exact wp_fail h2
  · split_ifs
    · exact wp_fail h2
    · exact wp_fail h2
    · exact wp_pure h2

theorem wp_settle (hs : Inv a s) (result : Except TransferFailure Unit) : wp (settle a result) (Ends a (Returns a)) s := by
  unfold settle
  split
  · refine wp_look_bind ?_
    change wp (if s.part.any (verified a) then _ else _) _ _
    split_ifs with h
    · exact wp_publish hs h
    · exact wp_removeBoth_fail hs
  · exact wp_removeBoth_fail hs
  · exact wp_fail hs
  · exact wp_fail hs

theorem wp_nativeRequest {offset : ℕ} (hs : Inv a s) (hp : offset = 0 ∨ ∃ file, s.part = some file ∧ file.length = offset)
    (first second : Answer) : wp (nativeRequest a offset first second) (Ends a (Returns a)) s := by
  have hsettle : ∀ (result : Except TransferFailure Unit) s1, Inv a s1 → wp (settle a result) (Ends a (Returns a)) s1 :=
    fun result _ h => wp_settle h result
  refine (wp_transferObserved hs hp first).catch (fun _ s1 h1 => hsettle _ s1 h1) (fun e s1 h1 => ?_) fun _ h => h
  cases e with
  | invalid message => exact hsettle _ s1 h1
  | interrupted message => exact hsettle _ s1 h1
  | rangeRejected =>
    refine wp_then (wp_change (P := fun _ s' => Inv a s') h1 h1.dropPart) fun _ s2 h2 => ?_
    exact (wp_transferObserved h2 (Or.inl rfl) second).catch (fun _ s3 h3 => hsettle _ s3 h3)
      (fun _ s3 h3 => hsettle _ s3 h3) fun _ h => h

theorem wp_nativeDownload (hs : Inv a s) (first second : Answer) :
    wp (nativeDownload a first second) (Ends a (Returns a)) s := by
  refine wp_look_bind ?_
  change wp (if s.part.any (a.kind.limit < ·.length) then _ else if s.part.any (verified a) then _ else
    (if s.part.isSome ∧ (nativeResume a s).1 = 0 then change Store.dropPart else pure ()) >>= fun _ =>
      saveMetadata a (nativeResume a s).2 >>= fun _ => nativeRequest a (nativeResume a s).1 first second) _ _
  have hv := zshResume_storable (a := a) s
  have hresume := nativeResume_eq (a := a) s
  have hrest : ∀ s1, Inv a s1 → (zshResume a s).1 = 0 ∨ (∃ file, s1.part = some file ∧ file.length = (zshResume a s).1) →
      wp (saveMetadata a (nativeResume a s).2 >>= fun _ => nativeRequest a (nativeResume a s).1 first second)
        (Ends a (Returns a)) s1 := by
    intro s1 h1 hp
    rw [hresume]
    refine wp_then (wp_saveMetadata
      (P := fun _ s' => s' = s1.saveMetadata (recordText a.key a.size (zshResume a s).2)) h1 hv rfl) fun _ _ he => ?_
    subst he
    exact wp_nativeRequest (h1.saveMetadata hv) hp first second
  split_ifs with hlimit hdone hmetadata hdrop
  · exact wp_fail hs
  · exact wp_fail hs
  · exact wp_publish hs hdone
  · refine wp_then (wp_change (P := fun _ s' => Inv a s') hs hs.dropPart) fun _ s1 h1 => hrest s1 h1 (Or.inl ?_)
    have := hdrop.2
    rwa [hresume] at this
  · refine wp_bind (wp_pure (hrest s hs ?_))
    rcases zshResume_spec (a := a) s with h | ⟨part, hpart, -, -, hlen, -⟩
    · exact Or.inl (by rw [h])
    · exact Or.inr ⟨part, hpart, hlen.symm⟩

theorem wp_nativeLookup (hs : Inv a s) (first second : Answer) :
    wp (nativeLookup a first second) (Ends a (Returns a)) s := by
  refine wp_look_bind ?_
  change wp (if a.kind = .guestImage ∧ s.guest.any (a.kind.limit < ·.length) then _ else
    if a.kind = .guestImage ∧ s.guest.any (verified a) then _ else _) _ _
  split_ifs with hlimit hguest
  · exact wp_fail hs
  · refine wp_pure ⟨hs, ?_⟩
    cases hg : s.guest with
    | none =>
      rw [hg] at hguest
      cases hguest.2
    | some file =>
      rw [hg] at hguest
      exact ⟨file, hg, hguest.2⟩
  · exact wp_nativeDownload hs first second

theorem wp_acquireObserved (hs : Inv a s) (first second : Answer) :
    wp (acquireObserved a first second) (Ends a (Returns a)) s := by
  refine wp_look_bind ?_
  dsimp only [id]
  cases hfile : s.final with
  | none => exact wp_nativeLookup hs first second
  | some file =>
    dsimp only
    split_ifs with hlimit hv
    · exact wp_fail hs
    · exact wp_pure ⟨hs, file, hfile, hv⟩
    · exact wp_then (wp_change (P := fun _ s' => Inv a s') hs hs.dropFinal) fun _ _ h => wp_nativeLookup h first second

/-! ### Any attempt -/

theorem wp_run (hs : Inv a s) (p : Program) (first second : Answer) :
    wp (p.run a first second) (Ends a (Returns a)) s := by
  cases p with
  | zsh => exact wp_zshAcquire hs
  | native => exact wp_acquireObserved hs first second

theorem Inv.reachable (h : Reachable a s) : Inv a s := by
  obtain ⟨s0, h0, hr⟩ := h
  refine hr.inv (Inv.initial h0) fun s1 s2 h1 hstep => ?_
  obtain ⟨p, first, second, hleads⟩ := hstep
  exact hleads.of_wp ((wp_run h1 p first second).mono (fun _ _ h => h.1) (fun _ _ h => h) fun _ h => h)

end

end Hamn.Download
