import Hamn.Guest.JsonDump
import Hamn.Guest.JsonUnique

/-!
# DockerDaemon — the guest's `daemon.json` (`guest/json/guest_json.c`, `docker_daemon`)

The settings of the profile are read by the strict reader, checked against the keys that the guest sets itself, joined
with these and written.  Memory allocation and the write to the standard output succeed.

* `dockerDaemon_eq_ok`: the settings that become a `daemon.json`.
-/

open Bytes Result

namespace Hamn.StrictJson

/-! ## Members of an object -/

/-- `json_object_get`: the value of the first member with this key. -/
def jsonObjectGet (key : Bytes) : List (Bytes × JsonValue) → Option JsonValue
  | [] => none
  | (k, v) :: members => if k = key then some v else jsonObjectGet key members

/-- `json_object_set`: the value of the first member with this key is replaced, or a member is added at the end. -/
def jsonObjectSet (key : Bytes) (value : JsonValue) : List (Bytes × JsonValue) → List (Bytes × JsonValue)
  | [] => [(key, value)]
  | (k, v) :: members => if k = key then (k, value) :: members else (k, v) :: jsonObjectSet key value members

/-- `json_object_take`: the value of the first member with this key, and the members without it. -/
def jsonObjectTake (key : Bytes) : List (Bytes × JsonValue) → Option JsonValue × List (Bytes × JsonValue)
  | [] => (none, [])
  | (k, v) :: members =>
    if k = key then (some v, members)
    else ((jsonObjectTake key members).1, (k, v) :: (jsonObjectTake key members).2)

theorem jsonObjectGet_isSome {key : Bytes} {members : List (Bytes × JsonValue)} :
    (jsonObjectGet key members).isSome = true ↔ key ∈ members.map (·.1) := by
  induction members with
  | nil => simp [jsonObjectGet]
  | cons m members ih =>
    obtain ⟨k, v⟩ := m
    by_cases hk : k = key
    · simp [jsonObjectGet, hk]
    · simp [jsonObjectGet, hk, ih, Ne.symm hk]

theorem mem_of_jsonObjectGet {key : Bytes} {v : JsonValue} {members : List (Bytes × JsonValue)}
    (h : jsonObjectGet key members = some v) : (key, v) ∈ members := by
  induction members with
  | nil => cases h
  | cons m members ih =>
    obtain ⟨k, x⟩ := m
    rw [jsonObjectGet] at h
    split_ifs at h with hk
    · subst hk
      rw [Option.some.inj h]
      exact List.mem_cons_self
    · exact List.mem_cons_of_mem _ (ih h)

theorem jsonObjectTake_fst (key : Bytes) (members : List (Bytes × JsonValue)) :
    (jsonObjectTake key members).1 = jsonObjectGet key members := by
  induction members with
  | nil => rfl
  | cons m members ih =>
    obtain ⟨k, v⟩ := m
    by_cases hk : k = key
    · simp [jsonObjectTake, jsonObjectGet, hk]
    · simp [jsonObjectTake, jsonObjectGet, hk, ih]

theorem mem_of_mem_jsonObjectTake {key : Bytes} {m : Bytes × JsonValue} {members : List (Bytes × JsonValue)}
    (h : m ∈ (jsonObjectTake key members).2) : m ∈ members := by
  induction members with
  | nil => exact h
  | cons m' members ih =>
    obtain ⟨k, v⟩ := m'
    by_cases hk : k = key
    · simp only [jsonObjectTake, hk, if_true] at h
      exact List.mem_cons_of_mem _ h
    · simp only [jsonObjectTake, hk, if_false, List.mem_cons] at h
      rcases h with rfl | h
      · exact List.mem_cons_self
      · exact List.mem_cons_of_mem _ (ih h)

theorem forall_mem_jsonObjectSet {P : Bytes × JsonValue → Prop} {key : Bytes} {value : JsonValue}
    {members : List (Bytes × JsonValue)} (hset : P (key, value)) (h : ∀ m ∈ members, P m) :
    ∀ m ∈ jsonObjectSet key value members, P m := by
  induction members with
  | nil => simpa [jsonObjectSet] using hset
  | cons m' members ih =>
    obtain ⟨k, v⟩ := m'
    rw [List.forall_mem_cons] at h
    by_cases hk : k = key
    · subst hk
      simp only [jsonObjectSet, if_true, List.forall_mem_cons]
      exact ⟨hset, h.2⟩
    · simp only [jsonObjectSet, hk, if_false, List.forall_mem_cons]
      exact ⟨h.1, ih h.2⟩

/-! ## `docker_daemon` -/

def managedDaemonKeys : List String :=
  ["containerd", "host-gateway-ip", "hosts", "data-root", "exec-root", "dns", "bip", "bridge", "fixed-cidr",
    "default-address-pools"]

/-- The line on the standard error. -/
def dockerFail {α : Type} (message : String) : Except Bytes α := .error (ascii ("hamn: " ++ message ++ "\n"))

def dockerExtra (finite : Bytes → Bool) (extraText : Bytes) : Except Bytes JsonValue :=
  if extraText = [] then .ok (.object [])
  else
    match jsonParse finite extraText with
    | .error e => .error (ascii "hamn: docker.daemonJson must be one strict JSON object: " ++ e.message ++ [newline])
    | .ok extra => .ok extra

def objectMembers (message : String) : JsonValue → Except Bytes (List (Bytes × JsonValue))
  | .object members => .ok members
  | _ => dockerFail message

def refuseManaged (extra : List (Bytes × JsonValue)) : Except Bytes Unit :=
  match managedDaemonKeys.find? fun key => (jsonObjectGet (ascii key) extra).isSome with
  | some key => dockerFail ("docker.daemonJson cannot override Hamn-managed key: " ++ key)
  | none => .ok ()

def refuseBuildkit (features : List (Bytes × JsonValue)) : Except Bytes Unit :=
  match jsonObjectGet (ascii "buildkit") features with
  | none => .ok ()
  | some .true => .ok ()
  | some _ => dockerFail "docker.daemonJson.features.buildkit must remain true"

/-- The settings that the guest sets itself, over those of the profile. -/
def dockerSettings (socket gateway : Bytes) (extra features : List (Bytes × JsonValue)) : List (Bytes × JsonValue) :=
  let features := jsonObjectSet (ascii "buildkit") .true features
  let extra := jsonObjectSet (ascii "containerd") (.string socket) extra
  let extra := jsonObjectSet (ascii "features") (.object features) extra
  let extra := jsonObjectSet (ascii "bip") (.string (ascii "172.17.0.1/16")) extra
  let extra := jsonObjectSet (ascii "dns") (.array [.string (ascii "172.17.0.1")]) extra
  jsonObjectSet (ascii "host-gateway-ip") (.string gateway) extra

/-- The bytes on the standard output, or the line on the standard error. -/
def dockerDaemon {D : Type} (libc : Libc D) (socket gateway extraText : Bytes) : Except Bytes Bytes :=
  if jsonUtf8Valid socket = false ∨ jsonUtf8Valid gateway = false then
    dockerFail "containerd socket and gateway must be UTF-8"
  else do
    let extra ← dockerExtra libc.finite extraText
    let extra ← objectMembers "docker.daemonJson must be one JSON object" extra
    refuseManaged extra
    let (taken, extra) := jsonObjectTake (ascii "features") extra
    let features ← objectMembers "docker.daemonJson.features must be a JSON object" (taken.getD (.object []))
    refuseBuildkit features
    match jsonDump libc (.object (dockerSettings socket gateway extra features)) true with
    | .error _ => dockerFail "cannot serialize Docker daemon settings"
    | .ok output => .ok (output ++ [newline])

/-! ## What can be written -/

section

variable {D : Type} {libc : Libc D}

/-- The writer has a text for the value, `left` levels above the deepest one. -/
def CanDump (libc : Libc D) (left : ℕ) (v : JsonValue) : Prop := ∃ out, dumpValue libc true left v = .ok out

def CanQuote (key : Bytes) : Prop := ∃ out, appendQuoted key = .ok out

theorem dumpMembers_ok {dump : JsonValue → Except Errno Bytes} {type : Container} {level : ℕ} :
    ∀ {members : List (Bytes × JsonValue)} (first : Bool),
      (∀ m ∈ members, CanQuote m.1 ∧ ∃ out, dump m.2 = .ok out) →
      ∃ out, dumpMembers dump type level first members = .ok out
  | [], _, _ => ⟨[], rfl⟩
  | (key, value) :: members, first, h => by
    rw [List.forall_mem_cons] at h
    obtain ⟨⟨⟨quoted, hq⟩, body, hb⟩, hrest⟩ := h
    obtain ⟨rest, hr⟩ := dumpMembers_ok false hrest
    have hkey : ∃ label, dumpKey type key = .ok label := by
      cases type with
      | array => exact ⟨[], rfl⟩
      | object =>
        refine ⟨quoted ++ ascii ": ", ?_⟩
        rw [dumpKey, hq]
        rfl
    obtain ⟨label, hl⟩ := hkey
    rw [dumpMembers, hl, ok_bind, hb, ok_bind, hr, ok_bind]
    exact ⟨_, rfl⟩

theorem dumpContainer_ok {dump : JsonValue → Except Errno Bytes} {type : Container} {level : ℕ}
    {members : List (Bytes × JsonValue)} (h : ∀ m ∈ members, CanQuote m.1 ∧ ∃ out, dump m.2 = .ok out) :
    ∃ out, dumpContainer dump type true level members = .ok out := by
  have horder : ∀ m ∈ (if type = .object ∧ true = true then sortedMembers members else members),
      CanQuote m.1 ∧ ∃ out, dump m.2 = .ok out := by
    intro m hm
    split_ifs at hm
    · exact h m ((sortedMembers_perm members).mem_iff.mp hm)
    · exact h m hm
  obtain ⟨body, hb⟩ := @dumpMembers_ok dump type level _ true horder
  unfold dumpContainer
  by_cases hnil : members = []
  · rw [if_pos hnil]
    exact ⟨_, rfl⟩
  · rw [if_neg hnil]
    exact ⟨_, bind_eq_ok.mpr ⟨body, hb, rfl⟩⟩

theorem canDump_object {left : ℕ} {members : List (Bytes × JsonValue)}
    (h : ∀ m ∈ members, CanQuote m.1 ∧ CanDump libc left m.2) : CanDump libc (left + 1) (.object members) :=
  dumpContainer_ok h

theorem canDump_string {left : ℕ} {text : Bytes} (h : CanQuote text) : CanDump libc (left + 1) (.string text) := h

theorem canQuote_encodeAll {us : List ℕ} (h : ReadKey us) : CanQuote (Utf8.encodeAll us) := by
  obtain ⟨s, -, hq, -⟩ := appendQuoted_spec h.lt h.noFuse
  exact ⟨_, hq⟩

theorem noFuse_chars : ∀ cs : List Char, NoFuse (cs.map Char.toNat)
  | [] => trivial
  | c :: cs => noFuse_cons (fun _ _ h => not_isHigh_char c h.1) (noFuse_chars cs)

theorem readKey_chars (cs : List Char) : ReadKey (cs.map Char.toNat) := by
  refine ⟨fun u hu => ?_, noFuse_chars cs⟩
  obtain ⟨c, -, rfl⟩ := List.mem_map.mp hu
  exact Utf8.toNat_lt c

/-- Text in UTF-8 can be quoted. -/
theorem canQuote_utf8 {text : Bytes} (h : jsonUtf8Valid text = true) : CanQuote text := by
  obtain ⟨cs, rfl⟩ := jsonUtf8Valid_iff.mp h
  rw [Utf8.text_eq_encodeAll]
  exact canQuote_encodeAll (readKey_chars cs)

theorem Readable.members {members : List (List ℕ × Json (List ℕ))} (h : Readable (.object members)) :
    ∀ m ∈ members, ReadMember .object m := by
  obtain ⟨p, hp⟩ := h
  cases p with
  | null => cases hp
  | false => cases hp
  | true => cases hp
  | number n =>
    rw [Phrase.tree, Number.tree] at hp
    split_ifs at hp
  | string s => cases hp
  | empty t w =>
    cases t with
    | array => cases hp
    | object =>
      cases hp
      exact fun _ hm => absurd hm List.not_mem_nil
  | container t es =>
    cases t with
    | array => cases hp
    | object =>
      cases hp
      exact readMember_entries es

/-- What was read within the limits of an object can be written again, member by member. -/
theorem canDump_members (hdoc : libc.Documented) {left : ℕ} {members : List (List ℕ × Json (List ℕ))}
    (hread : Readable (.object members)) (hw : Within libc.finite (left + 1) (Json.object members)) :
    ∀ m ∈ members, CanQuote (Utf8.encodeAll m.1) ∧ Readable m.2 ∧ Within libc.finite left m.2 ∧
      CanDump libc (left + 1) (stored m.2) := by
  have hmember := hread.members
  intro m hm
  have hwm : Within libc.finite left m.2 := hw.2 m hm
  obtain ⟨q, hq, -⟩ := @dumpValue_spec D libc true hdoc left m.2 (hmember m hm).value hwm
  exact ⟨canQuote_encodeAll (hmember m hm).key, (hmember m hm).value, hwm, _, hq.dumped⟩

/-- The settings that are written, once those of the profile can be written. -/
theorem canDump_settings {socket gateway : Bytes} {extra features : List (Bytes × JsonValue)} {left : ℕ}
    (hs : jsonUtf8Valid socket = true) (hg : jsonUtf8Valid gateway = true)
    (he : ∀ m ∈ extra, CanQuote m.1 ∧ CanDump libc (left + 2) m.2)
    (hf : ∀ m ∈ features, CanQuote m.1 ∧ CanDump libc (left + 1) m.2) :
    CanDump libc (left + 3) (.object (dockerSettings socket gateway extra features)) := by
  have hkey : ∀ text : String, jsonUtf8Valid (ascii text) = true → CanQuote (ascii text) := fun _ => canQuote_utf8
  have hdns : CanDump libc (left + 2) (.array [.string (ascii "172.17.0.1")]) :=
    dumpContainer_ok (List.forall_mem_singleton.mpr ⟨canQuote_utf8 (by decide), canDump_string (hkey _ (by decide))⟩)
  have hfeatures : CanDump libc (left + 2) (.object (jsonObjectSet (ascii "buildkit") .true features)) :=
    canDump_object (forall_mem_jsonObjectSet ⟨hkey _ (by decide), ascii "true", rfl⟩ hf)
  refine canDump_object ?_
  unfold dockerSettings
  refine forall_mem_jsonObjectSet ⟨hkey _ (by decide), canDump_string (canQuote_utf8 hg)⟩ ?_
  refine forall_mem_jsonObjectSet ⟨hkey _ (by decide), hdns⟩ ?_
  refine forall_mem_jsonObjectSet ⟨hkey _ (by decide), canDump_string (hkey _ (by decide))⟩ ?_
  refine forall_mem_jsonObjectSet ⟨hkey _ (by decide), hfeatures⟩ ?_
  exact forall_mem_jsonObjectSet ⟨hkey _ (by decide), canDump_string (canQuote_utf8 hs)⟩ he

/-! ## What is accepted -/

/-- The checks of the guest on the members of the settings. -/
structure Accepted (extra : List (Bytes × JsonValue)) : Prop where
  managed : ∀ key ∈ managedDaemonKeys, ascii key ∉ extra.map (·.1)
  features : ∀ v, jsonObjectGet (ascii "features") extra = some v → ∃ members, v = .object members ∧
    ∀ b, jsonObjectGet (ascii "buildkit") members = some b → b = .true

theorem refuseManaged_eq_ok {extra : List (Bytes × JsonValue)} :
    refuseManaged extra = .ok () ↔ ∀ key ∈ managedDaemonKeys, ascii key ∉ extra.map (·.1) := by
  unfold refuseManaged
  cases hf : managedDaemonKeys.find? fun key => (jsonObjectGet (ascii key) extra).isSome with
  | some key =>
    refine ⟨fun h => (nomatch h), fun h => absurd ?_ (h key (List.mem_of_find?_eq_some hf))⟩
    have := List.find?_some hf
    exact jsonObjectGet_isSome.mp this
  | none =>
    refine ⟨fun _ key hkey hmem => ?_, fun _ => rfl⟩
    have := List.find?_eq_none.mp hf key hkey
    exact this (jsonObjectGet_isSome.mpr hmem)

theorem refuseBuildkit_eq_ok {features : List (Bytes × JsonValue)} :
    refuseBuildkit features = .ok () ↔ ∀ b, jsonObjectGet (ascii "buildkit") features = some b → b = .true := by
  unfold refuseBuildkit
  cases hb : jsonObjectGet (ascii "buildkit") features with
  | none => exact ⟨fun _ _ h => (nomatch h), fun _ => rfl⟩
  | some b =>
    constructor
    · intro h b' hb'
      rw [← Option.some.inj hb']
      cases b with
      | true => rfl
      | _ => cases h
    · intro h
      rw [h b rfl]

theorem objectMembers_eq_ok {message : String} {v : JsonValue} {members : List (Bytes × JsonValue)} :
    objectMembers message v = .ok members ↔ v = .object members := by
  cases v with
  | object ms =>
    constructor
    · intro h
      cases h
      rfl
    · intro h
      cases h
      rfl
  | _ => exact ⟨fun h => (nomatch h), fun h => (nomatch h)⟩

/-- **The settings that become a `daemon.json`**: none, or a document of the strict reader that is an object, names no
key of the guest, and leaves BuildKit on. -/
theorem dockerDaemon_eq_ok (hdoc : libc.Documented) {socket gateway text : Bytes}
    (hs : jsonUtf8Valid socket = true) (hg : jsonUtf8Valid gateway = true) :
    (∃ out, dockerDaemon libc socket gateway text = .ok out) ↔
      text = [] ∨ ∃ members, Document libc.finite text (.object members) ∧ Accepted (members.map storedMember) := by
  have hutf : ¬ (jsonUtf8Valid socket = false ∨ jsonUtf8Valid gateway = false) := by simp [hs, hg]
  constructor
  · rintro ⟨out, h⟩
    rw [dockerDaemon, if_neg hutf] at h
    obtain ⟨extra, hextra, h⟩ := bind_eq_ok.mp h
    obtain ⟨members, hmembers, h⟩ := bind_eq_ok.mp h
    obtain ⟨⟨⟩, hmanaged, h⟩ := bind_eq_ok.mp h
    obtain ⟨features, hfeatures, h⟩ := bind_eq_ok.mp h
    obtain ⟨⟨⟩, hbuildkit, -⟩ := bind_eq_ok.mp h
    by_cases ht : text = []
    · exact Or.inl ht
    refine Or.inr ?_
    rw [dockerExtra, if_neg ht] at hextra
    cases hparse : jsonParse libc.finite text with
    | error e =>
      rw [hparse] at hextra
      cases hextra
    | ok v =>
      rw [hparse] at hextra
      obtain rfl : v = extra := Except.ok.inj hextra
      obtain rfl := objectMembers_eq_ok.mp hmembers
      obtain ⟨t, ht, hstored⟩ := (jsonParse_eq_ok _ _ _).mp hparse
      obtain ⟨ms, rfl⟩ : ∃ ms, t = .object ms := by
        cases t with
        | object ms => exact ⟨ms, rfl⟩
        | _ => cases hstored
      rw [stored_object] at hstored
      obtain rfl := Json.object.inj hstored
      refine ⟨ms, ht, refuseManaged_eq_ok.mp hmanaged, fun v hv => ?_⟩
      rw [jsonObjectTake_fst, hv] at hfeatures
      exact ⟨features, objectMembers_eq_ok.mp hfeatures, refuseBuildkit_eq_ok.mp hbuildkit⟩
  · intro h
    -- The members of the settings and of their features, and that they can be written.
    obtain ⟨extra, hextra, hmanaged, hfeatures, hdump⟩ : ∃ extra, dockerExtra libc.finite text = .ok (.object extra) ∧
        (∀ key ∈ managedDaemonKeys, ascii key ∉ extra.map (·.1)) ∧
        (∃ features, (jsonObjectGet (ascii "features") extra).getD (.object []) = .object features ∧
          (∀ b, jsonObjectGet (ascii "buildkit") features = some b → b = .true) ∧
          ∀ m ∈ features, CanQuote m.1 ∧ CanDump libc (JSON_MAX_DEPTH - 1) m.2) ∧
        ∀ m ∈ extra, CanQuote m.1 ∧ CanDump libc JSON_MAX_DEPTH m.2 := by
      rcases h with rfl | ⟨ms, hdocument, hmanaged, hfeatures⟩
      · exact ⟨[], rfl, fun _ _ h => (nomatch h), ⟨[], rfl, fun _ h => (nomatch h), fun _ h => (nomatch h)⟩,
          fun _ h => (nomatch h)⟩
      · obtain ⟨p, w, w', htext, htree, hw⟩ := hdocument
        have hne : text ≠ [] := by
          rw [htext]
          obtain ⟨c, cs, hc, hs'⟩ := phrase_head p
          rw [Utf8.text_append, Utf8.text_append, hc, text_ascii hs'.ascii]
          simp
        have hmembers := @canDump_members D libc hdoc (JSON_MAX_DEPTH - 1) ms ⟨p, htree⟩ hw
        refine ⟨ms.map storedMember, ?_, hmanaged, ?_, ?_⟩
        · rw [dockerExtra, if_neg hne, jsonParse_complete ⟨p, w, w', htext, htree, hw⟩, stored_object]
        · cases hget : jsonObjectGet (ascii "features") (ms.map storedMember) with
          | none => exact ⟨[], rfl, fun _ h => (nomatch h), fun _ h => (nomatch h)⟩
          | some v =>
            obtain ⟨features, rfl, hb⟩ := hfeatures v hget
            refine ⟨features, rfl, hb, ?_⟩
            obtain ⟨m, hm, hme⟩ := List.mem_map.mp (mem_of_jsonObjectGet hget)
            obtain ⟨-, hread, hwm, -⟩ := hmembers m hm
            have hstored : stored m.2 = .object features := congrArg Prod.snd hme
            obtain ⟨fs, hfs⟩ : ∃ fs, m.2 = .object fs := by
              cases hm2 : m.2 with
              | object fs => exact ⟨fs, rfl⟩
              | _ =>
                rw [hm2] at hstored
                cases hstored
            rw [hfs, stored_object] at hstored
            rw [hfs] at hread hwm
            obtain rfl := Json.object.inj hstored
            have hfm := @canDump_members D libc hdoc (JSON_MAX_DEPTH - 2) fs hread hwm
            intro x hx
            obtain ⟨m', hm', rfl⟩ := List.mem_map.mp hx
            exact ⟨(hfm m' hm').1, (hfm m' hm').2.2.2⟩
        · intro x hx
          obtain ⟨m, hm, rfl⟩ := List.mem_map.mp hx
          exact ⟨(hmembers m hm).1, (hmembers m hm).2.2.2⟩
    obtain ⟨features, hget, hb, hf⟩ := hfeatures
    obtain ⟨out, hout⟩ := @canDump_settings D libc socket gateway (jsonObjectTake (ascii "features") extra).2 features
      (JSON_MAX_DEPTH - 2) hs hg (fun m hm => hdump m (mem_of_mem_jsonObjectTake hm)) hf
    have htake := jsonObjectTake_fst (ascii "features") extra
    refine ⟨out ++ [newline], ?_⟩
    rw [dockerDaemon, if_neg hutf, hextra, ok_bind, objectMembers_eq_ok.mpr rfl, ok_bind,
      refuseManaged_eq_ok.mpr hmanaged, ok_bind]
    simp only [htake, hget]
    rw [objectMembers_eq_ok.mpr rfl, ok_bind, refuseBuildkit_eq_ok.mpr hb, ok_bind]
    rw [show jsonDump libc _ true = .ok out from hout]

end

end Hamn.StrictJson
