import Hamn.Guest.DockerDaemon
import Hamn.Lib.Assoc

/-!
# DockerMerge — what the guest's `daemon.json` says

The document that `docker_daemon` writes is read back and compared with the settings of the profile, key by key.

* `Unchanged`: the same value in the writer's spelling.
* `settings`: what the profile and the guest ask for under a key.
* `dockerDaemon_merges`: the accepted texts, and that the document says the settings, each key once and in order.
-/

open Bytes Result

namespace Hamn.StrictJson

/-! ## Values in the writer's spelling -/

section

variable {D : Type} {libc : Libc D}

/-- `w` is `v` as the writer spells it: `-0` is `0`, a float has the digits of the same double, an object has the same
keys with unchanged values in any order. -/
inductive Unchanged (libc : Libc D) : Json (List ℕ) → Json (List ℕ) → Prop where
  | null : Unchanged libc .null .null
  | false : Unchanged libc .false .false
  | true : Unchanged libc .true .true
  | integer (text : Bytes) : Unchanged libc (.integer text) (.integer text)
  | zero : Unchanged libc (.integer (ascii "-0")) (.integer (ascii "0"))
  | float (text text' : Bytes) (h : (libc.strtod text').1 = (libc.strtod text).1) :
    Unchanged libc (.float text) (.float text')
  | string (text : List ℕ) : Unchanged libc (.string text) (.string text)
  | array (items items' : List (Json (List ℕ))) (h : List.Forall₂ (Unchanged libc) items items') :
    Unchanged libc (.array items) (.array items')
  | object (members members' : List (List ℕ × Json (List ℕ)))
    (h : ∀ key, Option.Rel (Unchanged libc) (members.lookup key) (members'.lookup key)) :
    Unchanged libc (.object members) (.object members')

theorem Unchanged.lookup {members members' : List (List ℕ × Json (List ℕ))}
    (h : Unchanged libc (.object members) (.object members')) (key : List ℕ) :
    Option.Rel (Unchanged libc) (members.lookup key) (members'.lookup key) := by
  cases h with
  | object _ _ h => exact h key

/-- Only what is found under the keys matters. -/
theorem Unchanged.congr {members members' : List (List ℕ × Json (List ℕ))} {v : Json (List ℕ)}
    (hl : ∀ key, members.lookup key = members'.lookup key) (h : Unchanged libc (.object members) v) :
    Unchanged libc (.object members') v := by
  cases h with
  | object _ written h =>
    refine .object _ _ fun key => ?_
    rw [← hl key]
    exact h key

theorem lookup_normalizeMember (render : Bytes → Bytes) (sortKeys : Bool) (key : List ℕ)
    (members : List (List ℕ × Json (List ℕ))) :
    (members.map (normalizeMember render sortKeys)).lookup key =
      (members.lookup key).map (normalize render sortKeys) :=
  Assoc.lookup_map (l := members) (f := id) fun _ _ h => h

/-- What is found in an object of the writer, if each key is there once. -/
theorem lookup_normalize (render : Bytes → Bytes) {members : List (List ℕ × Json (List ℕ))}
    (hn : (members.map (·.1)).Nodup) (key : List ℕ) :
    (arrange true .object (members.map (normalizeMember render true))).lookup key =
      (members.lookup key).map (normalize render true) := by
  have hkeys : ((members.map (normalizeMember render true)).map Prod.fst).Nodup := by
    rw [List.map_map]
    exact hn
  rw [Assoc.lookup_perm ((arrange_perm _ _).map Prod.fst |>.nodup_iff.mpr hkeys) (arrange_perm .object _)]
  exact lookup_normalizeMember render true key members

theorem number_unchanged (hdoc : libc.Documented) (n : Number)
    (hw : Within libc.finite 0 (n.tree : Json (List ℕ))) :
    Unchanged libc n.tree (normalize (floatText libc) true n.tree) := by
  by_cases hi : n.isInteger = true
  · rw [show (n.tree : Json (List ℕ)) = .integer (Utf8.text n.chars) from if_pos hi, normalize]
    by_cases hz : Utf8.text n.chars = ascii "-0"
    · rw [if_pos hz, hz]
      exact .zero
    · rw [if_neg hz]
      exact .integer _
  · have htree : (n.tree : Json (List ℕ)) = .float (Utf8.text n.chars) := if_neg hi
    rw [htree] at hw ⊢
    obtain ⟨n', -, hok, hval, -⟩ := appendPythonFloat_spec hdoc n hw
    rw [normalize, floatText, hok]
    exact .float _ _ hval

theorem within_number {left : ℕ} {n : Number} :
    Within libc.finite left (n.tree : Json (List ℕ)) ↔ Within libc.finite 0 (n.tree : Json (List ℕ)) := by
  unfold Number.tree
  split_ifs <;> simp [Within]

/-- **The writer keeps values**: the normal form is the value in the writer's spelling. -/
theorem normalize_unchanged (hdoc : libc.Documented) : ∀ (left : ℕ) (t : Json (List ℕ)), Readable t →
    Within libc.finite left t → Unchanged libc t (normalize (floatText libc) true t) := by
  intro left
  induction left with
  | zero =>
    intro t ht hw
    cases ht.shape with
    | null => exact .null
    | false => exact .false
    | true => exact .true
    | number n => exact number_unchanged hdoc n (within_number.mp hw)
    | string us h => exact .string us
    | container type members h => exact absurd hw not_within_zero_value
  | succ left ih =>
    intro t ht hw
    cases ht.shape with
    | null => exact .null
    | false => exact .false
    | true => exact .true
    | number n => exact number_unchanged hdoc n (within_number.mp hw)
    | string us h => exact .string us
    | container type members h =>
      obtain ⟨hnodup, hall⟩ := within_value.mp hw
      rw [normalize_value]
      have hm : ∀ m ∈ members, Unchanged libc m.2 (normalize (floatText libc) true m.2) := fun m hm =>
        ih m.2 (h m hm).value (hall m hm)
      cases type with
      | array =>
        refine .array _ _ ?_
        simp only [arrange, reduceCtorEq, if_false, List.map_map]
        rw [List.forall₂_map_left_iff, List.forall₂_map_right_iff, List.forall₂_same]
        exact hm
      | object =>
        refine .object _ _ fun key => ?_
        rw [lookup_normalize _ (hnodup rfl)]
        cases hv : members.lookup key with
        | none => exact .none
        | some v => exact .some (hm _ (Assoc.mem_of_lookup hv))

/-! ## The settings -/

/-- The code points of a text. -/
def points (s : String) : List ℕ := s.toList.map Char.toNat

/-- The members of an object that may be absent. -/
def membersOf : Option (Json (List ℕ)) → List (List ℕ × Json (List ℕ))
  | some (.object members) => members
  | _ => []

/-- The features of the profile, with BuildKit on. -/
def features (extra : List (List ℕ × Json (List ℕ))) : List (List ℕ × Json (List ℕ)) :=
  (points "buildkit", .true) ::
    (membersOf (extra.lookup (points "features"))).filter fun m => decide (m.1 ≠ points "buildkit")

/-- What Docker is told under a key. -/
def settings (socket gateway : List ℕ) (extra : List (List ℕ × Json (List ℕ))) (key : List ℕ) :
    Option (Json (List ℕ)) :=
  if key = points "host-gateway-ip" then some (.string gateway)
  else if key = points "dns" then some (.array [.string (points "172.17.0.1")])
  else if key = points "bip" then some (.string (points "172.17.0.1/16"))
  else if key = points "features" then some (.object (features extra))
  else if key = points "containerd" then some (.string socket)
  else extra.lookup key

/-- Settings of the profile that name no key of the guest and leave BuildKit on. -/
structure Admitted (extra : List (List ℕ × Json (List ℕ))) : Prop where
  managed : ∀ key ∈ managedDaemonKeys, points key ∉ extra.map (·.1)
  features : ∀ v, extra.lookup (points "features") = some v → ∃ members, v = .object members ∧
    ∀ b, members.lookup (points "buildkit") = some b → b = .true

/-! ## Members as they are stored -/

theorem jsonObjectGet_eq (key : Bytes) (members : List (Bytes × JsonValue)) :
    jsonObjectGet key members = members.lookup key := by
  induction members with
  | nil => rfl
  | cons m members ih =>
    obtain ⟨k, v⟩ := m
    rw [jsonObjectGet, Assoc.lookup_cons, ih]

theorem jsonObjectSet_eq (key : Bytes) (value : JsonValue) (members : List (Bytes × JsonValue)) :
    jsonObjectSet key value members = Assoc.set key value members := by
  induction members with
  | nil => rfl
  | cons m members ih =>
    obtain ⟨k, v⟩ := m
    rw [jsonObjectSet, Assoc.set, ih]

theorem jsonObjectTake_snd (key : Bytes) (members : List (Bytes × JsonValue)) :
    (jsonObjectTake key members).2 = Assoc.erase key members := by
  induction members with
  | nil => rfl
  | cons m members ih =>
    obtain ⟨k, v⟩ := m
    rw [jsonObjectTake, Assoc.erase, ← ih]
    split_ifs <;> rfl

/-- The keys of these members are code points. -/
def KeysBelow (members : List (List ℕ × Json (List ℕ))) : Prop := ∀ m ∈ members, ∀ u ∈ m.1, u < 0x110000

theorem points_lt (s : String) : ∀ u ∈ points s, u < 0x110000 := (readKey_chars s.toList).lt

/-- An ASCII text is stored as it is. -/
theorem encodeAll_points {s : String} (h : (s.toList.all fun c => decide (c.toNat < 0x80)) = true) :
    Utf8.encodeAll (points s) = ascii s := by
  rw [points, ← Utf8.text_eq_encodeAll, text_word (all_ascii h)]
  rfl

section Stored

variable {members : List (List ℕ × Json (List ℕ))} {s : String}

theorem key_of_stored (hb : KeysBelow members) (key : String) :
    ∀ m ∈ members, Utf8.encodeAll m.1 = Utf8.encodeAll (points key) → m.1 = points key :=
  fun m hm h => Utf8.encodeAll_inj (hb m hm) (points_lt key) h

theorem set_stored (hs : (s.toList.all fun c => decide (c.toNat < 0x80)) = true) (hb : KeysBelow members)
    (v : Json (List ℕ)) :
    jsonObjectSet (ascii s) (stored v) (members.map storedMember) = (Assoc.set (points s) v members).map storedMember := by
  rw [jsonObjectSet_eq, ← encodeAll_points hs]
  exact Assoc.set_map (key_of_stored hb s)

theorem take_stored (hs : (s.toList.all fun c => decide (c.toNat < 0x80)) = true) (hb : KeysBelow members) :
    (jsonObjectTake (ascii s) (members.map storedMember)).2 = (Assoc.erase (points s) members).map storedMember := by
  rw [jsonObjectTake_snd, ← encodeAll_points hs]
  exact Assoc.erase_map (key_of_stored hb s)

theorem get_stored (hs : (s.toList.all fun c => decide (c.toNat < 0x80)) = true) (hb : KeysBelow members) :
    jsonObjectGet (ascii s) (members.map storedMember) = (members.lookup (points s)).map stored := by
  rw [jsonObjectGet_eq, ← encodeAll_points hs]
  exact Assoc.lookup_map (f := Utf8.encodeAll) (key_of_stored hb s)

theorem mem_keys_stored (hs : (s.toList.all fun c => decide (c.toNat < 0x80)) = true) (hb : KeysBelow members) :
    ascii s ∈ (members.map storedMember).map (·.1) ↔ points s ∈ members.map (·.1) := by
  rw [← jsonObjectGet_isSome, get_stored hs hb, Option.isSome_map, Option.isSome_iff_ne_none, Ne, Assoc.lookup_eq_none,
    not_not]

end Stored

theorem Readable.keysBelow {members : List (List ℕ × Json (List ℕ))} (h : Readable (.object members)) :
    KeysBelow members := fun m hm => (h.members m hm).key.lt

theorem stored_eq_object {t : Json (List ℕ)} {members : List (Bytes × JsonValue)} (h : stored t = .object members) :
    ∃ ms, t = .object ms ∧ members = ms.map storedMember := by
  cases t with
  | object ms =>
    rw [stored_object] at h
    exact ⟨ms, rfl, (Json.object.inj h).symm⟩
  | _ => cases h

theorem stored_eq_true {t : Json (List ℕ)} : stored t = .true ↔ t = .true := by
  constructor
  · intro h
    cases t with
    | true => rfl
    | _ => cases h
  · rintro rfl
    rfl

theorem managed_ascii : ∀ key ∈ managedDaemonKeys, (key.toList.all fun c => decide (c.toNat < 0x80)) = true := by
  decide

/-- The guest's checks look at what is stored. -/
theorem accepted_stored {extra : List (List ℕ × Json (List ℕ))} (hr : Readable (.object extra)) :
    Accepted (extra.map storedMember) ↔ Admitted extra := by
  have hmanaged : (∀ key ∈ managedDaemonKeys, ascii key ∉ (extra.map storedMember).map (·.1)) ↔
      ∀ key ∈ managedDaemonKeys, points key ∉ extra.map (·.1) :=
    forall₂_congr fun key hkey => not_congr (mem_keys_stored (managed_ascii key hkey) hr.keysBelow)
  have hget : jsonObjectGet (ascii "features") (extra.map storedMember) =
      (extra.lookup (points "features")).map stored := get_stored (by decide) hr.keysBelow
  -- What is checked of the features.
  have hfeatures : ∀ fs, extra.lookup (points "features") = some (.object fs) →
      jsonObjectGet (ascii "buildkit") (fs.map storedMember) = (fs.lookup (points "buildkit")).map stored := by
    intro fs hfs
    have hread : Readable (.object fs) := (hr.members _ (Assoc.mem_of_lookup hfs)).value
    exact get_stored (by decide) hread.keysBelow
  constructor
  · rintro ⟨hm, hf⟩
    refine ⟨hmanaged.mp hm, fun v hv => ?_⟩
    rw [hv] at hget
    obtain ⟨ms, hms, hb⟩ := hf _ hget
    obtain ⟨fs, rfl, rfl⟩ := stored_eq_object hms
    refine ⟨fs, rfl, fun b hbk => stored_eq_true.mp (hb _ ?_)⟩
    rw [hfeatures fs hv, hbk]
    rfl
  · rintro ⟨hm, hf⟩
    refine ⟨hmanaged.mpr hm, fun v hv => ?_⟩
    rw [hget] at hv
    obtain ⟨t, ht, rfl⟩ := Option.map_eq_some_iff.mp hv
    obtain ⟨fs, rfl, hb⟩ := hf t ht
    refine ⟨fs.map storedMember, stored_object fs, fun b hbk => ?_⟩
    rw [hfeatures fs ht] at hbk
    obtain ⟨b', hb', rfl⟩ := Option.map_eq_some_iff.mp hbk
    exact stored_eq_true.mpr (hb b' hb')

/-! ## The merged members -/

/-- `dockerSettings` on values of the grammar. -/
def merged (socket gateway : List ℕ) (extra : List (List ℕ × Json (List ℕ))) : List (List ℕ × Json (List ℕ)) :=
  let features := Assoc.set (points "buildkit") .true (membersOf (extra.lookup (points "features")))
  let extra := Assoc.erase (points "features") extra
  let extra := Assoc.set (points "containerd") (.string socket) extra
  let extra := Assoc.set (points "features") (.object features) extra
  let extra := Assoc.set (points "bip") (.string (points "172.17.0.1/16")) extra
  let extra := Assoc.set (points "dns") (.array [.string (points "172.17.0.1")]) extra
  Assoc.set (points "host-gateway-ip") (.string gateway) extra

theorem KeysBelow.set {members : List (List ℕ × Json (List ℕ))} (h : KeysBelow members) (s : String)
    (v : Json (List ℕ)) : KeysBelow (Assoc.set (points s) v members) :=
  Assoc.forall_mem_set (points_lt s) h

theorem dockerSettings_stored {extra : List (List ℕ × Json (List ℕ))} (socket gateway : List ℕ)
    (he : KeysBelow extra) (hf : KeysBelow (membersOf (extra.lookup (points "features")))) :
    dockerSettings (Utf8.encodeAll socket) (Utf8.encodeAll gateway)
        (jsonObjectTake (ascii "features") (extra.map storedMember)).2
        ((membersOf (extra.lookup (points "features"))).map storedMember) =
      (merged socket gateway extra).map storedMember := by
  have h0 : KeysBelow (Assoc.erase (points "features") extra) := fun m hm => he m (Assoc.erase_sublist.subset hm)
  have h1 := h0.set "containerd" (.string socket)
  set features := Assoc.set (points "buildkit") .true (membersOf (extra.lookup (points "features"))) with hfeatures
  have h2 := h1.set "features" (.object features)
  have h3 := h2.set "bip" (.string (points "172.17.0.1/16"))
  have h4 := h3.set "dns" (.array [.string (points "172.17.0.1")])
  unfold dockerSettings merged
  rw [take_stored (by decide) he]
  have hbuildkit := @set_stored _ "buildkit" (by decide) hf .true
  have hcontainerd := @set_stored _ "containerd" (by decide) h0 (.string socket)
  have hset := @set_stored _ "features" (by decide) h1 (.object features)
  have hbip := @set_stored _ "bip" (by decide) h2 (.string (points "172.17.0.1/16"))
  have hdns := @set_stored _ "dns" (by decide) h3 (.array [.string (points "172.17.0.1")])
  have hgateway := @set_stored _ "host-gateway-ip" (by decide) h4 (.string gateway)
  rw [stored_object] at hset
  rw [← hgateway, ← hdns, ← hbip, ← hset, ← hcontainerd, ← hbuildkit]
  rfl

/-! ## That the merged members can be written -/

theorem readable_string {us : List ℕ} (h : ReadKey us) : Readable (.string us) := (ReadShape.string us h).readable

theorem readable_object {members : List (List ℕ × Json (List ℕ))} (h : ∀ m ∈ members, ReadMember .object m) :
    Readable (.object members) := (ReadShape.container .object members h).readable

theorem readable_item {us : List ℕ} (h : ReadKey us) : Readable (.array [.string us]) := by
  have hitem : ReadMember .array ([], .string us) :=
    ⟨⟨fun _ hu => absurd hu List.not_mem_nil, trivial⟩, fun _ => rfl, readable_string h⟩
  exact (ReadShape.container .array [([], .string us)] (List.forall_mem_singleton.mpr hitem)).readable

/-- A value that was read, at most `left` levels deep. -/
structure Sound (finite : Bytes → Bool) (left : ℕ) (t : Json (List ℕ)) : Prop where
  readable : Readable t
  within : Within finite left t

/-- Members that were read, each key once. -/
structure SoundMembers (finite : Bytes → Bool) (left : ℕ) (members : List (List ℕ × Json (List ℕ))) : Prop where
  nodup : (members.map Prod.fst).Nodup
  member : ∀ m ∈ members, ReadKey m.1 ∧ Sound finite left m.2

section

variable {finite : Bytes → Bool} {left : ℕ} {ms : List (List ℕ × Json (List ℕ))}

theorem sound_object (h : SoundMembers finite left ms) : Sound finite (left + 1) (.object ms) :=
  ⟨readable_object fun m hm => ⟨(h.member m hm).1, fun hn => (nomatch hn), (h.member m hm).2.readable⟩,
    h.nodup, fun m hm => (h.member m hm).2.within⟩

theorem Sound.inside (h : Sound finite (left + 1) (.object ms)) : SoundMembers finite left ms :=
  ⟨h.within.1, fun m hm => ⟨(h.readable.members m hm).key, (h.readable.members m hm).value, h.within.2 m hm⟩⟩

theorem SoundMembers.set (h : SoundMembers finite left ms) (s : String) {v : Json (List ℕ)}
    (hv : Sound finite left v) : SoundMembers finite left (Assoc.set (points s) v ms) :=
  ⟨Assoc.nodup_set h.nodup, Assoc.forall_mem_set ⟨readKey_chars s.toList, hv⟩ h.member⟩

theorem SoundMembers.erase (h : SoundMembers finite left ms) (key : List ℕ) :
    SoundMembers finite left (Assoc.erase key ms) :=
  ⟨h.nodup.sublist (Assoc.erase_sublist.map _), fun m hm => h.member m (Assoc.erase_sublist.subset hm)⟩

theorem SoundMembers.nil : SoundMembers finite left [] := ⟨List.nodup_nil, fun _ hm => (nomatch hm)⟩

/-- The members of an object among the members. -/
theorem SoundMembers.inner (h : SoundMembers finite (left + 1) ms) (key : List ℕ) :
    SoundMembers finite left (membersOf (ms.lookup key)) := by
  cases hv : ms.lookup key with
  | none => exact .nil
  | some v =>
    have hs : Sound finite (left + 1) v := (h.member _ (Assoc.mem_of_lookup hv)).2
    cases v with
    | object ms => exact hs.inside
    | _ => exact .nil

theorem sound_string {us : List ℕ} (h : ReadKey us) : Sound finite left (.string us) := ⟨readable_string h, by simp [Within]⟩

theorem sound_merged {socket gateway : List ℕ} (hs : ReadKey socket) (hg : ReadKey gateway)
    (h : SoundMembers finite (left + 1) ms) :
    SoundMembers finite (left + 1) (merged socket gateway ms) := by
  have hfeatures := (h.inner (points "features")).set "buildkit" (v := .true) ⟨⟨.true, rfl⟩, by simp [Within]⟩
  have hdns : Sound finite (left + 1) (.array [.string (points "172.17.0.1")]) :=
    ⟨readable_item (readKey_chars _), by simp [Within]⟩
  exact ((((((h.erase _).set _ (sound_string hs)).set _ (sound_object hfeatures)).set _
    (sound_string (readKey_chars _))).set _ hdns).set _ (sound_string hg))

end

/-! ## What the document says -/

/-- The merged members are the settings, but for the order of the features. -/
theorem settings_merged {extra : List (List ℕ × Json (List ℕ))} (socket gateway : List ℕ)
    (hn : (extra.map Prod.fst).Nodup) (hf : ((membersOf (extra.lookup (points "features"))).map Prod.fst).Nodup)
    (key : List ℕ) :
    Option.Rel (fun w v => ∀ written, Unchanged libc v written → Unchanged libc w written)
      (settings socket gateway extra key) ((merged socket gateway extra).lookup key) := by
  have hkeys := @Assoc.nodup_set _ _ _ (points "buildkit") .true _ hf
  have hperm := @Assoc.set_perm _ _ _ (points "buildkit") .true _ hf
  unfold merged settings
  simp only [Assoc.lookup_set, Assoc.lookup_erase hn]
  split_ifs
  · exact .some fun _ h => h
  · exact .some fun _ h => h
  · exact .some fun _ h => h
  · exact .some fun written h => h.congr fun k => Assoc.lookup_perm hkeys hperm
  · exact .some fun _ h => h
  · cases extra.lookup key with
    | none => exact .none
    | some v => exact .some fun _ h => h

/-- What an accepted text says: nothing for an empty one. -/
def Says (finite : Bytes → Bool) (text : Bytes) (extra : List (List ℕ × Json (List ℕ))) : Prop :=
  text = [] ∧ extra = [] ∨ Document finite text (.object extra)

theorem Says.sound {finite : Bytes → Bool} {text : Bytes} {extra : List (List ℕ × Json (List ℕ))}
    (h : Says finite text extra) : SoundMembers finite (JSON_MAX_DEPTH - 1) extra := by
  rcases h with ⟨-, rfl⟩ | ⟨p, w, w', -, hp, hw⟩
  · exact .nil
  · have hs : Sound finite (JSON_MAX_DEPTH - 1 + 1) (.object extra) := ⟨⟨p, hp⟩, hw⟩
    exact hs.inside

/-- The steps of an accepted text. -/
theorem dockerDaemon_steps {socket gateway text out : Bytes} (h : dockerDaemon libc socket gateway text = .ok out) :
    (jsonUtf8Valid socket = true ∧ jsonUtf8Valid gateway = true) ∧
    ∃ extra o, Says libc.finite text extra ∧
      jsonDump libc (.object (dockerSettings socket gateway
        (jsonObjectTake (ascii "features") (extra.map storedMember)).2
        ((membersOf (extra.lookup (points "features"))).map storedMember))) true = .ok o ∧ out = o ++ [newline] := by
  unfold dockerDaemon at h
  split_ifs at h with hutf
  · cases h
  obtain ⟨v, hv, h⟩ := bind_eq_ok.mp h
  obtain ⟨members, hmembers, h⟩ := bind_eq_ok.mp h
  obtain ⟨⟨⟩, -, h⟩ := bind_eq_ok.mp h
  obtain ⟨fs, hfs, h⟩ := bind_eq_ok.mp h
  obtain ⟨⟨⟩, -, h⟩ := bind_eq_ok.mp h
  obtain rfl := objectMembers_eq_ok.mp hmembers
  rw [not_or, Bool.not_eq_false, Bool.not_eq_false] at hutf
  refine ⟨hutf, ?_⟩
  -- What was read.
  obtain ⟨extra, hsays, rfl⟩ : ∃ extra, Says libc.finite text extra ∧ members = extra.map storedMember := by
    unfold dockerExtra at hv
    split_ifs at hv with ht
    · cases hv
      exact ⟨[], Or.inl ⟨ht, rfl⟩, rfl⟩
    · cases hparse : jsonParse libc.finite text with
      | error e =>
        rw [hparse] at hv
        cases hv
      | ok w =>
        rw [hparse] at hv
        obtain rfl := Except.ok.inj hv
        obtain ⟨t, ht, hstored⟩ := (jsonParse_eq_ok _ _ _).mp hparse
        obtain ⟨ms, rfl, rfl⟩ := stored_eq_object hstored.symm
        exact ⟨ms, Or.inr ht, rfl⟩
  have hsound := hsays.sound
  have hfeatures : fs = (membersOf (extra.lookup (points "features"))).map storedMember := by
    have hbelow : KeysBelow extra := fun m hm => (hsound.member m hm).1.lt
    rw [jsonObjectTake_fst, get_stored (by decide) hbelow] at hfs
    have hobject := objectMembers_eq_ok.mp hfs
    cases hl : extra.lookup (points "features") with
    | none =>
      rw [hl] at hobject
      exact (Json.object.inj hobject).symm
    | some t =>
      rw [hl] at hobject
      obtain ⟨ms, rfl, rfl⟩ := stored_eq_object hobject
      rfl
  subst hfeatures
  split at h
  · cases h
  · rename_i o ho
    exact ⟨extra, o, hsays, ho, (Except.ok.inj h).symm⟩

theorem socket_points (cs : List Char) : Utf8.encodeAll (cs.map Char.toNat) = Utf8.text cs :=
  (Utf8.text_eq_encodeAll cs).symm

/-- **The settings are merged without loss**: which texts are accepted, and that the document of an accepted one is an
object that says the settings under every key, each key once, in the order of their code points. -/
theorem dockerDaemon_merges (hdoc : libc.Documented) (socket gateway text : Bytes) :
    ((∃ out, dockerDaemon libc socket gateway text = .ok out) ↔
      ((∃ cs, socket = Utf8.text cs) ∧ ∃ cs, gateway = Utf8.text cs) ∧
        (text = [] ∨ ∃ extra, Document libc.finite text (.object extra) ∧ Admitted extra)) ∧
    ∀ out, dockerDaemon libc socket gateway text = .ok out →
      ∃ (cs cs' : List Char) (extra written : List (List ℕ × Json (List ℕ))),
        socket = Utf8.text cs ∧ gateway = Utf8.text cs' ∧ Says libc.finite text extra ∧
        Document libc.finite out (.object written) ∧
        jsonParse libc.finite out = .ok (stored (.object written)) ∧
        (written.map Prod.fst).Pairwise (· < ·) ∧
        ∀ key, Option.Rel (Unchanged libc) (settings (cs.map Char.toNat) (cs'.map Char.toNat) extra key)
          (written.lookup key) := by
  constructor
  · constructor
    · rintro ⟨out, h⟩
      obtain ⟨⟨hs, hg⟩, -⟩ := dockerDaemon_steps h
      refine ⟨⟨jsonUtf8Valid_iff.mp hs, jsonUtf8Valid_iff.mp hg⟩, ?_⟩
      rcases (dockerDaemon_eq_ok hdoc hs hg).mp ⟨out, h⟩ with rfl | ⟨extra, hextra, hacc⟩
      · exact Or.inl rfl
      · have hread : Readable (.object extra) := hextra.imp fun p ⟨_, _, _, hp, _⟩ => hp
        exact Or.inr ⟨extra, hextra, (accepted_stored hread).mp hacc⟩
    · rintro ⟨⟨hs, hg⟩, h⟩
      refine (dockerDaemon_eq_ok hdoc (jsonUtf8Valid_iff.mpr hs) (jsonUtf8Valid_iff.mpr hg)).mpr (h.imp_right ?_)
      rintro ⟨extra, hextra, hadm⟩
      have hread : Readable (.object extra) := hextra.imp fun p ⟨_, _, _, hp, _⟩ => hp
      exact ⟨extra, hextra, (accepted_stored hread).mpr hadm⟩
  · intro out h
    obtain ⟨⟨hs, hg⟩, extra, o, hsays, hdump, rfl⟩ := dockerDaemon_steps h
    obtain ⟨cs, rfl⟩ := jsonUtf8Valid_iff.mp hs
    obtain ⟨cs', rfl⟩ := jsonUtf8Valid_iff.mp hg
    have hsound := hsays.sound
    have hbelow : KeysBelow extra := fun m hm => (hsound.member m hm).1.lt
    have hinner := hsound.inner (points "features")
    have hbelow' : KeysBelow (membersOf (extra.lookup (points "features"))) := fun m hm => (hinner.member m hm).1.lt
    rw [← socket_points, ← socket_points, dockerSettings_stored _ _ hbelow hbelow', ← stored_object] at hdump
    set members := merged (cs.map Char.toNat) (cs'.map Char.toNat) extra with hmembers
    have hm := sound_merged (readKey_chars cs) (readKey_chars cs') hsound
    rw [← hmembers] at hm
    have hobject := sound_object hm
    -- The phrase that was written.
    obtain ⟨p, hp, hw⟩ := @dumpValue_spec D libc true hdoc JSON_MAX_DEPTH _ hobject.readable hobject.within
    obtain rfl : o = Utf8.text p.chars := Except.ok.inj (hdump.symm.trans hp.dumped)
    have hunchanged := normalize_unchanged hdoc JSON_MAX_DEPTH _ hobject.readable hobject.within
    have hnorm := normalize_value (floatText libc) true .object members
    set written := arrange true .object (members.map (normalizeMember (floatText libc) true)) with hwritten
    change normalize (floatText libc) true (.object members) = .object written at hnorm
    rw [hnorm] at hunchanged hw
    have hdocument : Document libc.finite (Utf8.text p.chars ++ [newline]) (.object written) :=
      ⟨p, ⟨[], rfl⟩, ⟨['\n'], rfl⟩, by rw [List.nil_append, Utf8.text_append]; rfl, hp.tree.trans hnorm, hw⟩
    refine ⟨cs, cs', extra, written, rfl, rfl, hsays, hdocument, jsonParse_complete hdocument, ?_, fun key => ?_⟩
    · have hle : (written.map Prod.fst).Pairwise (· ≤ ·) :=
        List.pairwise_map.mpr (orderMembers_pairwise _ rfl)
      have hnd : (written.map Prod.fst).Nodup := hw.1
      exact (hle.and hnd).imp fun h => lt_of_le_of_ne h.1 h.2
    · have hfound := hunchanged.lookup key
      have hsettings := @settings_merged D libc extra (cs.map Char.toNat) (cs'.map Char.toNat) hsound.nodup hinner.nodup key
      rw [← hmembers] at hsettings
      generalize settings _ _ extra key = w at hsettings ⊢
      generalize members.lookup key = v at hsettings hfound
      generalize written.lookup key = x at hfound ⊢
      cases hsettings with
      | none => exact hfound
      | some hw =>
        cases hfound with
        | some hv => exact .some (hw _ hv)

end

/-- An empty text is accepted, and is no document. -/
theorem dockerDaemon_accepts_none :
    (∃ out, dockerDaemon zeroLibc (ascii "/run/containerd.sock") (ascii "192.168.64.1") [] = .ok out) ∧
      ¬ ∃ v, Document zeroLibc.finite [] v := by
  constructor
  · have hs : (dockerDaemon zeroLibc (ascii "/run/containerd.sock") (ascii "192.168.64.1") []).toOption.isSome = true := by
      decide +kernel
    exact exists_ok hs
  · rintro ⟨v, p, w, w', htext, -, -⟩
    obtain ⟨c, cs, hc, hs⟩ := phrase_head p
    rw [Utf8.text_append, Utf8.text_append, hc, text_ascii hs.ascii] at htext
    simp at htext

def debugText : Bytes := ascii "\x7b\"debug\":true\x7d"

theorem dockerDaemon_merges_debug : ∃ out written,
    dockerDaemon zeroLibc (ascii "/run/containerd.sock") (ascii "192.168.64.1") debugText = .ok out ∧
      jsonParse zeroLibc.finite out = .ok (stored (.object written)) ∧
      (written.map Prod.fst).Pairwise (· < ·) := by
  have hs : (dockerDaemon zeroLibc (ascii "/run/containerd.sock") (ascii "192.168.64.1")
      debugText).toOption.isSome = true := by
    decide +kernel
  obtain ⟨out, hok⟩ := exists_ok hs
  obtain ⟨cs, cs', extra, written, -, -, -, -, hparse, hsorted, -⟩ :=
    (dockerDaemon_merges zeroLibc_documented _ _ _).2 out hok
  exact ⟨out, written, hok, hparse, hsorted⟩
end Hamn.StrictJson
