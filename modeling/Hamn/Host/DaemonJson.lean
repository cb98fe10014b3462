import Hamn.Guest.DockerDaemon

/-!
# Host.DaemonJson — `docker.daemonJson` on the host and in the guest (`host/core/profile.c`)

The host reads the text with cJSON, which is a parameter: what it accepts is a document of RFC 8259, and it returns the
value of that document with its strings as C strings (`Conforming`).  The guest reads the same text with its own strict
reader.

* `profileDockerDaemonJsonValid`: what the host accepts.
* `dockerDaemon_iff_takenByGuest`: which of the accepted texts the guest accepts too.
-/

namespace Hamn.Host

open Bytes StrictJson

/-! ## cJSON -/

/-- A `cJSON` item; nothing here reads the value of a number. -/
inductive CJson where
  | null
  | false
  | true
  | number
  | string (valuestring : Bytes)
  | array (child : List CJson)
  | object (child : List (Option Bytes × CJson))

/-- `cJSON_GetObjectItemCaseSensitive`; the search ends at an item without a key. -/
def getObjectItem (name : Bytes) : List (Option Bytes × CJson) → Option CJson
  | [] => none
  | (none, _) :: _ => none
  | (some string, item) :: next => if string = name then some item else getObjectItem name next

/-- The bytes before the first NUL. -/
def cString (bytes : Bytes) : Bytes := bytes.takeWhile (· ≠ 0)

mutual
/-- The items for a value. -/
def CJson.of : JsonValue → CJson
  | .null => .null
  | .false => .false
  | .true => .true
  | .integer _ => .number
  | .float _ => .number
  | .string text => .string (cString text)
  | .array items => .array (CJson.ofItems items)
  | .object members => .object (CJson.ofMembers members)

def CJson.ofItems : List JsonValue → List CJson
  | [] => []
  | v :: items => CJson.of v :: CJson.ofItems items

def CJson.ofMembers : List (Bytes × JsonValue) → List (Option Bytes × CJson)
  | [] => []
  | (key, v) :: members => (some (cString key), CJson.of v) :: CJson.ofMembers members
end

/-- `cJSON_ParseWithOpts` accepts documents only, and returns what they denote. -/
def Conforming (parse : Bytes → Option CJson) : Prop :=
  ∀ text v, parse text = some v → ∃ p : Phrase, Derives text p ∧ v = CJson.of (stored p.tree)

/-! ## The checks of the host -/

mutual
def jsonKeysUnique : CJson → Bool
  | .object child => childKeysUnique child
  | .array child => itemsKeysUnique child
  | _ => true

/-- The loop of `json_keys_unique` over the items of an object. -/
def childKeysUnique : List (Option Bytes × CJson) → Bool
  | [] => true
  | (none, _) :: _ => false
  | (some string, item) :: next =>
    jsonKeysUnique item && next.all (fun other => other.1 ≠ some string) && childKeysUnique next

def itemsKeysUnique : List CJson → Bool
  | [] => true
  | item :: next => jsonKeysUnique item && itemsKeysUnique next
end

def reserved : List String := ["containerd", "host-gateway-ip", "hosts", "data-root", "exec-root"]

/-- The `features` may be absent, and so may their `buildkit`, which otherwise is true. -/
def featuresValid : Option CJson → Bool
  | none => true
  | some (.object features) =>
    match getObjectItem (ascii "buildkit") features with
    | none => true
    | some .true => true
    | some _ => false
  | some _ => false

def profileDockerDaemonJsonValid (parse : Bytes → Option CJson) (text : Bytes) : Bool :=
  if text = [] then true
  else
    match parse text with
    | some (.object child) =>
      jsonKeysUnique (.object child) && reserved.all (fun key => (getObjectItem (ascii key) child).isNone) &&
        featuresValid (getObjectItem (ascii "features") child)
    | _ => false

/-! ## What the checks say about the document -/

theorem mem_ofMembers {members : List (Bytes × JsonValue)} {m : Bytes × JsonValue} (h : m ∈ members) :
    (some (cString m.1), CJson.of m.2) ∈ CJson.ofMembers members := by
  induction members with
  | nil => cases h
  | cons m' members ih =>
    rw [CJson.ofMembers]
    rcases List.mem_cons.mp h with rfl | h
    · exact List.mem_cons_self
    · exact List.mem_cons_of_mem _ (ih h)

/-- The keys as C strings are different, and the check went on below. -/
theorem childKeysUnique_ofMembers : ∀ {members : List (Bytes × JsonValue)},
    childKeysUnique (CJson.ofMembers members) = true →
      (members.map fun m => cString m.1).Nodup ∧ ∀ m ∈ members, jsonKeysUnique (CJson.of m.2) = true
  | [], _ => ⟨List.nodup_nil, fun _ h => (nomatch h)⟩
  | (key, v) :: members, h => by
    simp only [CJson.ofMembers, childKeysUnique, Bool.and_eq_true, List.all_eq_true, decide_eq_true_eq] at h
    obtain ⟨⟨hv, hother⟩, hnext⟩ := h
    obtain ⟨hnodup, hall⟩ := childKeysUnique_ofMembers hnext
    refine ⟨?_, List.forall_mem_cons.mpr ⟨hv, hall⟩⟩
    rw [List.map_cons, List.nodup_cons]
    refine ⟨fun hmem => ?_, hnodup⟩
    obtain ⟨m, hm, heq⟩ := List.mem_map.mp hmem
    exact hother _ (mem_ofMembers hm) (congrArg some heq)

theorem itemsKeysUnique_ofItems : ∀ {items : List JsonValue}, itemsKeysUnique (CJson.ofItems items) = true →
    ∀ v ∈ items, jsonKeysUnique (CJson.of v) = true
  | [], _ => fun _ h => (nomatch h)
  | v :: items, h => by
    simp only [CJson.ofItems, itemsKeysUnique, Bool.and_eq_true] at h
    exact List.forall_mem_cons.mpr ⟨h.1, itemsKeysUnique_ofItems h.2⟩

theorem uniqueKeys_of_jsonKeysUnique : ∀ (levels : ℕ) (v : JsonValue), jsonKeysUnique (CJson.of v) = true →
    UniqueKeys levels v
  | 0, v, _ => by cases v <;> trivial
  | _ + 1, .null, _ => trivial
  | _ + 1, .false, _ => trivial
  | _ + 1, .true, _ => trivial
  | _ + 1, .integer _, _ => trivial
  | _ + 1, .float _, _ => trivial
  | _ + 1, .string _, _ => trivial
  | levels + 1, .array items, h => by
    rw [CJson.of, jsonKeysUnique] at h
    exact fun x hx => uniqueKeys_of_jsonKeysUnique levels x (itemsKeysUnique_ofItems h x hx)
  | levels + 1, .object members, h => by
    rw [CJson.of, jsonKeysUnique] at h
    obtain ⟨hnodup, hall⟩ := childKeysUnique_ofMembers h
    refine ⟨?_, fun m hm => uniqueKeys_of_jsonKeysUnique levels m.2 (hall m hm)⟩
    have hmap : (members.map fun m => cString m.1) = (members.map (·.1)).map cString := by
      rw [List.map_map]
      rfl
    rw [hmap] at hnodup
    exact hnodup.of_map _

/-- The host finds the member that the guest finds: no other key is the same C string. -/
theorem getObjectItem_ofMembers {key : Bytes} (hkey : cString key = key) : ∀ {members : List (Bytes × JsonValue)}
    {v : JsonValue}, (members.map fun m => cString m.1).Nodup → jsonObjectGet key members = some v →
    getObjectItem key (CJson.ofMembers members) = some (CJson.of v)
  | [], _, _, h => by cases h
  | (k, x) :: members, v, hnodup, h => by
    rw [List.map_cons, List.nodup_cons] at hnodup
    rw [CJson.ofMembers, getObjectItem]
    rw [jsonObjectGet] at h
    split_ifs at h with hk
    · rw [if_pos (by rw [hk, hkey]), ← Option.some.inj h]
    · have hne : cString k ≠ key := by
        intro hc
        have hmem := List.mem_map_of_mem (f := fun m : Bytes × JsonValue => cString m.1) (mem_of_jsonObjectGet h)
        exact hnodup.1 (by rw [hc, ← hkey]; exact hmem)
      rw [if_neg hne]
      exact getObjectItem_ofMembers hkey hnodup.2 h

/-- What the host knows about the settings it accepts. -/
theorem valid_members {parse : Bytes → Option CJson} (hparse : Conforming parse) {text : Bytes} (ht : text ≠ [])
    (h : profileDockerDaemonJsonValid parse text = true) :
    ∃ p members, Derives text p ∧ stored p.tree = .object members ∧ (∀ levels, UniqueKeys levels (stored p.tree)) ∧
      (∀ key ∈ reserved, ascii key ∉ members.map (·.1)) ∧
      ∀ v, jsonObjectGet (ascii "features") members = some v → ∃ features, v = .object features ∧
        ∀ b, jsonObjectGet (ascii "buildkit") features = some b → b = .true := by
  rw [profileDockerDaemonJsonValid, if_neg ht] at h
  cases hp : parse text with
  | none =>
    rw [hp] at h
    cases h
  | some v =>
    obtain ⟨p, hd, hv⟩ := hparse text v hp
    rw [hp] at h
    obtain ⟨members, hm⟩ : ∃ members, stored p.tree = .object members := by
      cases hs : stored p.tree with
      | object members => exact ⟨members, rfl⟩
      | _ =>
        rw [hv, hs] at h
        cases h
    rw [hv, hm, CJson.of] at h
    simp only [Bool.and_eq_true, List.all_eq_true, Option.isNone_iff_eq_none] at h
    obtain ⟨⟨hunique, hreserved⟩, hfeatures⟩ := h
    obtain ⟨hnodup, hall⟩ := childKeysUnique_ofMembers (by rwa [jsonKeysUnique] at hunique)
    refine ⟨p, members, hd, hm, ?_, ?_, ?_⟩
    · intro levels
      rw [hm]
      exact uniqueKeys_of_jsonKeysUnique levels _ (by rw [CJson.of]; exact hunique)
    · intro key hkey hmem
      obtain ⟨x, hx⟩ := Option.isSome_iff_exists.mp (jsonObjectGet_isSome.mpr hmem)
      have hc : ∀ key ∈ reserved, cString (ascii key) = ascii key := by decide
      have := getObjectItem_ofMembers (hc key hkey) hnodup hx
      rw [hreserved key hkey] at this
      cases this
    · intro x hx
      rw [getObjectItem_ofMembers (by decide) hnodup hx] at hfeatures
      have hxu := hall _ (mem_of_jsonObjectGet hx)
      obtain ⟨features, rfl⟩ : ∃ features, x = .object features := by
        cases x with
        | object features => exact ⟨features, rfl⟩
        | _ => cases hfeatures
      rw [CJson.of, jsonKeysUnique] at hxu
      obtain ⟨hfn, -⟩ := childKeysUnique_ofMembers hxu
      refine ⟨features, rfl, fun b hb => ?_⟩
      rw [CJson.of, featuresValid, getObjectItem_ofMembers (by decide) hfn hb] at hfeatures
      cases b with
      | true => rfl
      | _ => cases hfeatures

/-! ## Agreement -/

/-- The keys that the guest sets itself and the host does not reserve. -/
def unreserved : List String := ["dns", "bip", "bridge", "fixed-cidr", "default-address-pools"]

/-- Settings within the limits of the guest's reader that leave its keys alone. -/
def TakenByGuest (finite : Bytes → Bool) (text : Bytes) : Prop :=
  text = [] ∨ ∃ (p : Phrase) (members : List (List ℕ × Json (List ℕ))), Derives text p ∧ p.tree = .object members ∧
    Limits finite JSON_MAX_DEPTH p.tree ∧ ∀ key ∈ unreserved, ascii key ∉ members.map fun m => Utf8.encodeAll m.1

theorem managed_cases {key : String} (h : key ∈ managedDaemonKeys) : key ∈ reserved ∨ key ∈ unreserved := by
  revert key
  decide

theorem unreserved_managed {key : String} (h : key ∈ unreserved) : key ∈ managedDaemonKeys := by
  revert key
  decide

/-- A reader that knows one document. -/
def knows (text : Bytes) (v : CJson) (t : Bytes) : Option CJson := if t = text then some v else none

theorem conforming_knows {p : Phrase} : Conforming (knows (Utf8.text p.chars) (CJson.of (stored p.tree))) := by
  intro text v h
  unfold knows at h
  split_ifs at h with ht
  refine ⟨p, ⟨⟨[], rfl⟩, ⟨[], rfl⟩, ?_⟩, (Option.some.inj h).symm⟩
  rw [ht, List.nil_append, List.append_nil]

/-- An object with one member, whose key has no escapes. -/
def single (key : List StrChar) (value : Phrase) : Phrase :=
  .container .object (.one (.key ⟨[], isWs_nil⟩ key ⟨[], isWs_nil⟩ ⟨[], isWs_nil⟩) value ⟨[], isWs_nil⟩)

def debugKey : List StrChar :=
  [.raw 'd' (by decide), .raw 'e' (by decide), .raw 'b' unescaped_b, .raw 'u' (by decide), .raw 'g' (by decide)]

def dnsKey : List StrChar := [.raw 'd' (by decide), .raw 'n' (by decide), .raw 's' (by decide)]

end Hamn.Host
