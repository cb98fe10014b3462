import Hamn.Lib.Result
import Hamn.Lib.SerdeJson

/-!
# Install.UpdateCheck — automatic update checks (`install_support/upgrade.rs`, `control/upgrade.rs`)

One private file keeps the outcome, the time and a version of the last check.  `automatic_at` reads it before it asks
for a release and replaces it afterwards; the notice after the TUI reads the same file with a parser of its own.  The
file is a private one of the user, or missing.  The two ways of reading JSON are parameters of which only is known
that they read back what was written.

* `stableVersion`, `stable`: the two parsers of versions; `stable_eq`: they agree.
* `readCheck`, `noticeRecord`: the two readers; `automaticAt`: one check.
* `run_inv`: the file is the last record, and fetches keep their distance; `readCheck_write`, `noticeRecord_write`:
  both readers accept what was written.
* `run_keeps_iff`: when the records keep the version of the last successful fetch.
-/

namespace Hamn.Install.UpdateCheck

open Delimit SerdeJson Result

/-! ## Versions -/

/-- `strip_prefix('v').unwrap_or` -/
def stripV (value : Word) : Word := if value.head? = some 'v' then value.tail else value

/-- `parse::<u32>()` of digits. -/
def parseU32 (part : Word) : Option ℕ := if numberValue 10 part < 2 ^ 32 then some (numberValue 10 part) else none

inductive Refusal where
  | text (message : String)
  deriving DecidableEq, Repr

/-- A part of a version in `manifest.rs`. -/
def component (part : Word) : Except Refusal ℕ :=
  if part ≠ [] ∧ (part.length = 1 ∨ part.head? ≠ some '0') ∧ part.all Char.isDigit then
    (parseU32 part).elim (.error (.text "version component overflow")) .ok
  else .error (.text "version must be canonical stable X.Y.Z")

/-- `manifest::stable_version` -/
def stableVersion (value : String) : Except Refusal (List ℕ) :=
  let parts := (stripV value.toList).splitOn '.'
  if parts.length = 3 then parts.mapM component else .error (.text "version must be canonical stable X.Y.Z")

/-- `stable` of `control/upgrade.rs`. -/
def stable (value : String) : Option (List ℕ) :=
  let parts := (stripV value.toList).splitOn '.'
  if parts.length ≠ 3 then none
  else parts.mapM fun part =>
    if part = [] ∨ (1 < part.length ∧ part.head? = some '0') ∨ part.all Char.isDigit = false then none
    else parseU32 part

/-- A version that `manifest::parse` lets through. -/
structure Version where
  text : String
  stable : (stableVersion text).toOption.isSome

/-- `trim_start_matches('v')` -/
def trimV (value : String) : String := String.ofList (value.toList.dropWhile (· == 'v'))

/-! ## The record -/

structure CheckRecord where
  schemaVersion : ℕ
  checkedAt : ℕ
  ok : Bool
  latestVersion : Option String
  deriving DecidableEq, Repr

def boolean (b : Bool) : Word := if b then "true".toList else "false".toList

/-- `serde_json::to_vec` and a line end. -/
def write (r : CheckRecord) : Word :=
  "\x7b\"schemaVersion\":".toList ++ (Nat.toDigits 10 r.schemaVersion ++ (",\"checkedAt\":".toList ++
    (Nat.toDigits 10 r.checkedAt ++ (",\"ok\":".toList ++ (boolean r.ok ++ (",\"latestVersion\":".toList ++
      (nullable r.latestVersion ++ "\x7d\n".toList)))))))

/-- A value of a flat JSON object. -/
inductive Scalar where
  | null
  | boolean (b : Bool)
  | number (n : ℕ)
  | string (s : String)
  | other
  deriving DecidableEq, Repr

abbrev Members := List (String × Scalar)

/-- The members that a record is written with. -/
def members (r : CheckRecord) : Members :=
  [("schemaVersion", .number r.schemaVersion), ("checkedAt", .number r.checkedAt), ("ok", .boolean r.ok),
    ("latestVersion", r.latestVersion.elim .null .string)]

/-- `serde_json`: a record read by its type, and the members of an object. -/
structure Json where
  record : Word → Option CheckRecord
  object : Word → Option Members

/-- Both ways of reading give back what was written. -/
structure Json.ReadsBack (json : Json) : Prop where
  record : ∀ r, json.record (write r) = some r
  object : ∀ r, json.object (write r) = some (members r)

section

variable (json : Json)

/-- What `read_check` refuses. -/
def invalid (value : CheckRecord) (now : ℕ) : Bool :=
  value.schemaVersion != 1 || decide (now < value.checkedAt) || (value.ok && value.latestVersion.isNone) ||
    value.latestVersion.any fun version => (stableVersion version).toOption.isNone

def readCheck (document : Option Word) (now : ℕ) : Option CheckRecord := do
  let text ← document
  guard (size text ≤ 4096)
  let value ← json.record text
  if invalid value now then none else some value

/-- `read_private`: no key twice. -/
def readPrivate (document : Option Word) : Option Members := do
  let text ← document
  guard (size text ≤ 4096)
  let value ← json.object text
  guard (value.map (·.1)).Nodup
  return value

def field (value : Members) (key : String) : Scalar := (value.lookup key).getD .null

def Scalar.stable : Scalar → Bool
  | string s => (UpdateCheck.stable s).isSome
  | _ => false

/-- The filter of `after_tui`. -/
def accepts (value : Members) (now : ℕ) : Bool :=
  value.length == 4 && (value.all fun m => ["schemaVersion", "checkedAt", "ok", "latestVersion"].contains m.1) &&
    field value "schemaVersion" == .number 1 &&
    (match field value "checkedAt" with
      | .number stamp => decide (stamp ≤ now)
      | _ => false) &&
    (field value "ok" == .boolean true || field value "ok" == .boolean false) &&
    ((field value "ok" == .boolean false && field value "latestVersion" == .null) ||
      (field value "latestVersion").stable)

def noticeRecord (document : Option Word) (now : ℕ) : Option Members :=
  (readPrivate json document).filter fun value => accepts value now

/-! ## Checks -/

/-- A call, with what is there when it runs. -/
structure Call where
  current : String
  /-- Another process holds the lock. -/
  busy : Bool
  now : ℕ
  now_lt : now < 2 ^ 64
  /-- The release that a fetch finds, when it finds one. -/
  fetch : Option Version

/-- A fetch and the record that was written after it. -/
structure Event where
  now : ℕ
  fetched : Option Version
  record : CheckRecord

def ttl (ok : Bool) : ℕ := if ok then 86400 else 21600

/-- The record after a fetch; a failure keeps the version of a success. -/
def newRecord (existing : Option CheckRecord) (now : ℕ) : Option Version → CheckRecord
  | some version => ⟨1, now, true, some (trimV version.text)⟩
  | none => ⟨1, now, false, (existing.filter (·.ok)).bind CheckRecord.latestVersion⟩

def recent (existing : Option CheckRecord) (now : ℕ) : Bool :=
  existing.any fun record => decide (now - record.checkedAt < ttl record.ok)

def automaticAt (document : Option Word) (c : Call) : Option Word × Option Event :=
  if (stableVersion c.current).toOption.isNone ∨ c.busy = true then (document, none)
  else if recent (readCheck json document c.now) c.now then (document, none)
  else
    let record := newRecord (readCheck json document c.now) c.now c.fetch
    (some (write record), some ⟨c.now, c.fetch, record⟩)

/-- The file, and the fetches so far with the last one first. -/
structure State where
  document : Option Word
  log : List Event := []

def step (s : State) (c : Call) : State :=
  let result := automaticAt json s.document c
  ⟨result.1, result.2.toList ++ s.log⟩

/-- The calls, the last one first. -/
def run (start : Option Word) : List Call → State
  | [] => { document := start }
  | c :: calls => step json (run start calls) c

end

/-! ## The two parsers -/

theorem component_eq (part : Word) : (component part).toOption =
    if part = [] ∨ (1 < part.length ∧ part.head? = some '0') ∨ part.all Char.isDigit = false then none
    else parseU32 part := by
  unfold component
  by_cases h : part ≠ [] ∧ (part.length = 1 ∨ part.head? ≠ some '0') ∧ part.all Char.isDigit = true
  · obtain ⟨hne, hzero, hdigits⟩ := h
    have hno : ¬(part = [] ∨ (1 < part.length ∧ part.head? = some '0') ∨ part.all Char.isDigit = false) := by
      rintro (hnil | ⟨hlength, hhead⟩ | hdigit)
      · exact hne hnil
      · rcases hzero with hone | hhead'
        · omega
        · exact hhead' hhead
      · rw [hdigits] at hdigit
        cases hdigit
    rw [if_pos ⟨hne, hzero, hdigits⟩, if_neg hno]
    cases parseU32 part <;> rfl
  · have hyes : part = [] ∨ (1 < part.length ∧ part.head? = some '0') ∨ part.all Char.isDigit = false := by
      by_contra hno
      simp only [not_or, not_and, Bool.not_eq_false] at hno
      obtain ⟨hne, hzero, hdigits⟩ := hno
      refine h ⟨hne, ?_, hdigits⟩
      have hpos := List.length_pos_of_ne_nil hne
      by_cases hone : part.length = 1
      · exact .inl hone
      · exact .inr (hzero (by omega))
    rw [if_neg h, if_pos hyes]
    rfl

theorem mapM_toOption {f : Word → Option ℕ} {g : Word → Except Refusal ℕ} (h : ∀ part, (g part).toOption = f part)
    (parts : List Word) : (parts.mapM g).toOption = parts.mapM f := by
  induction parts with
  | nil => rfl
  | cons part parts ih =>
    rw [List.mapM_cons, List.mapM_cons, ← ih, ← h part]
    cases g part with
    | error e => rfl
    | ok n => cases parts.mapM g <;> rfl

/-- The two parsers of versions agree. -/
theorem stable_eq (value : String) : stable value = (stableVersion value).toOption := by
  unfold stable stableVersion
  by_cases h : ((stripV value.toList).splitOn '.').length = 3
  · simp only [h, ne_eq, not_true_eq_false, if_false, if_true]
    exact (mapM_toOption component_eq _).symm
  · simp only [h, ne_eq, not_false_eq_true, if_true, if_false]
    rfl

/-! ## Stable versions -/

def Stable (value : String) : Prop := (stableVersion value).toOption.isSome = true

/-- A part of a version: ten digits at most. -/
def Part (part : Word) : Prop := part ≠ [] ∧ (∀ c ∈ part, c.isDigit = true) ∧ part.length ≤ 10

theorem numberValue_ge (c : Char) (rest : Word) : digitValue c * 10 ^ rest.length ≤ numberValue 10 (c :: rest) := by
  have hfold : ∀ (rest : Word) (n : ℕ),
      n * 10 ^ rest.length ≤ rest.foldl (fun value c => 10 * value + digitValue c) n := by
    intro rest
    induction rest with
    | nil => intro n; simp
    | cons d rest ih =>
      intro n
      refine le_trans ?_ (ih (10 * n + digitValue d))
      rw [List.length_cons, pow_succ]
      have hle : 10 * n * 10 ^ rest.length ≤ (10 * n + digitValue d) * 10 ^ rest.length :=
        Nat.mul_le_mul_right _ (Nat.le_add_right _ _)
      calc n * (10 ^ rest.length * 10) = 10 * n * 10 ^ rest.length := by ring
        _ ≤ _ := hle
  have hvalue : numberValue 10 (c :: rest) =
      rest.foldl (fun value c => 10 * value + digitValue c) (digitValue c) := by simp [numberValue]
  rw [hvalue]
  exact hfold rest (digitValue c)

theorem component_part {part : Word} (h : (component part).toOption.isSome) : Part part := by
  unfold component at h
  split_ifs at h with hpart
  · obtain ⟨hne, hzero, hdigits⟩ := hpart
    have hdigits : ∀ c ∈ part, c.isDigit = true := List.all_eq_true.mp hdigits
    refine ⟨hne, hdigits, ?_⟩
    by_contra hlong
    obtain ⟨c, rest, rfl⟩ := List.exists_cons_of_ne_nil hne
    have hsmall : numberValue 10 (c :: rest) < 2 ^ 32 := by
      by_contra hlarge
      rw [parseU32, if_neg hlarge] at h
      cases h
    have hc : c ≠ '0' := by
      rintro rfl
      rcases hzero with hone | hhead
      · rw [hone] at hlong
        omega
      · exact hhead rfl
    have hdigit : 1 ≤ digitValue c := by
      have hisDigit := hdigits c List.mem_cons_self
      simp only [Char.isDigit, Bool.and_eq_true, decide_eq_true_eq] at hisDigit
      have hlow : 48 ≤ c.toNat := hisDigit.1
      have hhigh : c.toNat ≤ 57 := hisDigit.2
      have hne0 : c.toNat ≠ 48 := fun heq => hc (Char.toNat_inj.mp heq)
      unfold digitValue
      rw [if_pos (by omega)]
      omega
    have hge := numberValue_ge c rest
    have hpow : 10 ^ 10 ≤ 10 ^ rest.length := Nat.pow_le_pow_right (by norm_num) (by simpa using hlong)
    have hmul : 1 * 10 ^ rest.length ≤ digitValue c * 10 ^ rest.length := Nat.mul_le_mul_right _ hdigit
    omega
  · cases h

theorem mapM_parts {parts : List Word} (h : (parts.mapM component).toOption.isSome) : ∀ part ∈ parts, Part part := by
  induction parts with
  | nil => exact nofun
  | cons part parts ih =>
    rw [List.mapM_cons] at h
    cases hpart : component part with
    | error e =>
      rw [hpart] at h
      cases h
    | ok n =>
      rw [hpart, ok_bind] at h
      refine List.forall_mem_cons.mpr ⟨component_part (by rw [hpart]; rfl), ih ?_⟩
      cases hrest : parts.mapM component with
      | error e =>
        rw [hrest] at h
        cases h
      | ok l => rfl

/-- A stable version is three numbers with points between them. -/
theorem stable_parts {value : String} (h : Stable value) :
    ∃ a b c, stripV value.toList = a ++ '.' :: (b ++ '.' :: c) ∧ Part a ∧ Part b ∧ Part c := by
  unfold Stable stableVersion at h
  by_cases hlength : ((stripV value.toList).splitOn '.').length = 3
  · rw [if_pos hlength] at h
    obtain ⟨a, b, c, habc⟩ := List.length_eq_three.mp hlength
    rw [habc] at h
    have hparts := mapM_parts h
    refine ⟨a, b, c, ?_, hparts a (by simp), hparts b (by simp), hparts c (by simp)⟩
    have hjoin : ['.'].intercalate ((stripV value.toList).splitOn '.') = stripV value.toList :=
      List.intercalate_splitOn '.'
    rw [habc] at hjoin
    rw [← hjoin]
    simp [List.intercalate, List.intersperse]
  · rw [if_neg hlength] at h
    cases h

theorem stripV_of_digit {c : Char} {rest : Word} (hc : c.isDigit = true) : stripV (c :: rest) = c :: rest := by
  refine if_neg fun hv => ?_
  rw [Option.some.inj hv] at hc
  exact absurd hc (by decide)

/-- The record keeps a version without its `v`. -/
theorem trimV_spec {value : String} (h : Stable value) : (trimV value).toList = stripV value.toList := by
  obtain ⟨a, b, c, hparts, ⟨hne, hdigits, -⟩, -, -⟩ := stable_parts h
  obtain ⟨d, rest, rfl⟩ := List.exists_cons_of_ne_nil hne
  have hd : d ≠ 'v' := by
    rintro rfl
    exact absurd (hdigits 'v' List.mem_cons_self) (by decide)
  have hstop : ∀ tail : Word, (d :: tail).dropWhile (· == 'v') = d :: tail := fun tail => by
    rw [List.dropWhile_cons_of_neg (by simpa using hd)]
  rw [trimV, String.toList_ofList]
  rw [List.cons_append] at hparts
  unfold stripV at hparts ⊢
  split_ifs at hparts ⊢ with hv
  · obtain ⟨tail, htail⟩ := List.head?_eq_some_iff.mp hv
    rw [htail, List.tail_cons] at hparts ⊢
    rw [List.dropWhile_cons_of_pos (by decide), hparts, hstop]
  · rw [hparts, hstop]

theorem stable_trimV {value : String} (h : Stable value) : Stable (trimV value) := by
  have hspec := trimV_spec h
  obtain ⟨a, b, c, hparts, ⟨hne, hdigits, -⟩, -, -⟩ := stable_parts h
  obtain ⟨d, rest, rfl⟩ := List.exists_cons_of_ne_nil hne
  have hsame : stripV (trimV value).toList = stripV value.toList := by
    rw [hspec, hparts]
    exact stripV_of_digit (hdigits d List.mem_cons_self)
  unfold Stable stableVersion at h ⊢
  rw [hsame]
  exact h

/-! ## Both readers accept what was written -/

/-- A character that stands for itself and takes one byte. -/
def Plain (c : Char) : Prop := escape c = [c] ∧ c.utf8Size = 1

theorem size_plain {text : Word} (h : ∀ c ∈ text, Plain c) : size (text.flatMap escape) = text.length ∧
    size text = text.length := by
  induction text with
  | nil => exact ⟨rfl, rfl⟩
  | cons c text ih =>
    obtain ⟨⟨hescape, hone⟩, hrest⟩ := List.forall_mem_cons.mp h
    obtain ⟨hescaped, hsize⟩ := ih hrest
    have hcons : ∀ rest : Word, size (c :: rest) = size rest + 1 := fun rest => by
      simp [size, hone, Nat.add_comm]
    rw [List.flatMap_cons, hescape, List.singleton_append, hcons, hcons, hescaped, hsize]
    exact ⟨rfl, rfl⟩

theorem plain_digit {c : Char} (h : c.isDigit = true) : Plain c := by
  simp only [Char.isDigit, Bool.and_eq_true, decide_eq_true_eq] at h
  have hlow : 48 ≤ c.toNat := h.1
  have hhigh : c.toNat ≤ 57 := h.2
  have hall : ∀ n, 48 ≤ n → n ≤ 57 → escape (Char.ofNat n) = [Char.ofNat n] ∧ (Char.ofNat n).utf8Size = 1 := by
    intro n hn hn'
    interval_cases n <;> exact ⟨rfl, rfl⟩
  have hc := hall c.toNat hlow hhigh
  rwa [Char.ofNat_toNat] at hc

/-- A stable version is short. -/
theorem size_stable {value : String} (h : Stable value) : size (string value) ≤ 35 := by
  obtain ⟨a, b, c, hparts, ⟨-, ha, hla⟩, ⟨-, hb, hlb⟩, ⟨-, hc, hlc⟩⟩ := stable_parts h
  have hpoint : Plain '.' := ⟨rfl, rfl⟩
  have hplain : ∀ d ∈ stripV value.toList, Plain d := by
    intro d hd
    rw [hparts] at hd
    simp only [List.mem_append, List.mem_cons] at hd
    rcases hd with hd | rfl | hd | rfl | hd
    · exact plain_digit (ha d hd)
    · exact hpoint
    · exact plain_digit (hb d hd)
    · exact hpoint
    · exact plain_digit (hc d hd)
  have hlength : (stripV value.toList).length ≤ 32 := by
    rw [hparts]
    simp only [List.length_append, List.length_cons]
    omega
  have hvalue : (∀ d ∈ value.toList, Plain d) ∧ value.toList.length ≤ 33 := by
    unfold stripV at hplain hlength
    split_ifs at hplain hlength with hv
    · obtain ⟨tail, htail⟩ := List.head?_eq_some_iff.mp hv
      rw [htail, List.tail_cons] at hplain hlength
      rw [htail]
      exact ⟨List.forall_mem_cons.mpr ⟨⟨rfl, rfl⟩, hplain⟩, Nat.succ_le_succ hlength⟩
    · exact ⟨hplain, hlength.trans (by norm_num)⟩
  have hsize := (size_plain hvalue.1).1
  have hmark : size ['"'] = 1 := rfl
  unfold string
  rw [← List.singleton_append, size_append, size_append, hsize, hmark]
  omega

/-- A record that both readers accept. -/
structure Sound (r : CheckRecord) : Prop where
  schema : r.schemaVersion = 1
  time : r.checkedAt < 2 ^ 64
  known : r.ok = true → r.latestVersion ≠ none
  stable : ∀ version, r.latestVersion = some version → Stable version

theorem size_number {n : ℕ} (h : n < 2 ^ 64) : size (Nat.toDigits 10 n) ≤ 20 := by
  have hplain : ∀ c ∈ Nat.toDigits 10 n, Plain c := fun c hc =>
    plain_digit (Nat.isDigit_of_mem_toDigits (by norm_num) le_rfl hc)
  rw [(size_plain hplain).2]
  exact (Nat.length_toDigits_le_iff (by norm_num) (by norm_num)).mpr (h.trans (by norm_num))

theorem size_write {r : CheckRecord} (h : Sound r) : size (write r) ≤ 4096 := by
  have hschema : size (Nat.toDigits 10 r.schemaVersion) ≤ 20 := size_number (by rw [h.schema]; norm_num)
  have htime := size_number h.time
  have hok : size (boolean r.ok) ≤ 5 := by cases r.ok <;> decide
  have hversion : size (nullable r.latestVersion) ≤ 35 := by
    cases hlatest : r.latestVersion with
    | none => decide
    | some version => exact size_stable (h.stable version hlatest)
  have hfixed : size "\x7b\"schemaVersion\":".toList ≤ 30 ∧ size ",\"checkedAt\":".toList ≤ 30 ∧
      size ",\"ok\":".toList ≤ 30 ∧ size ",\"latestVersion\":".toList ≤ 30 ∧ size "\x7d\n".toList ≤ 30 := by
    decide
  unfold write
  simp only [size_append]
  omega

variable {json : Json}

theorem readCheck_write (hjson : json.ReadsBack) {r : CheckRecord} (h : Sound r) {now : ℕ}
    (hnow : r.checkedAt ≤ now) : readCheck json (some (write r)) now = some r := by
  have hvalid : invalid r now = false := by
    unfold invalid
    cases hv : r.latestVersion with
    | none =>
      have hfalse : r.ok = false := Bool.eq_false_iff.mpr fun hok => h.known hok hv
      simp [h.schema, hnow, hfalse]
    | some version =>
      have hstable : (stableVersion version).toOption.isSome = true := h.stable version hv
      simp [h.schema, hnow, hstable]
  simp [readCheck, size_write h, hjson.record r, hvalid]

theorem noticeRecord_write (hjson : json.ReadsBack) {r : CheckRecord} (h : Sound r) {now : ℕ}
    (hnow : r.checkedAt ≤ now) : noticeRecord json (some (write r)) now = some (members r) := by
  have hkeys : ((members r).map (·.1)).Nodup := by
    show ["schemaVersion", "checkedAt", "ok", "latestVersion"].Nodup
    decide
  have hschema : field (members r) "schemaVersion" = .number r.schemaVersion := rfl
  have htime : field (members r) "checkedAt" = .number r.checkedAt := rfl
  have hok : field (members r) "ok" = .boolean r.ok := rfl
  have hlatest : field (members r) "latestVersion" = r.latestVersion.elim .null .string := rfl
  have hnames :
      ((members r).all fun m => ["schemaVersion", "checkedAt", "ok", "latestVersion"].contains m.1) = true := by
    show (["schemaVersion", "checkedAt", "ok", "latestVersion"].all fun key =>
      ["schemaVersion", "checkedAt", "ok", "latestVersion"].contains key) = true
    decide
  have hversion : ∀ version, r.latestVersion = some version → (stable version).isSome = true := fun version hv => by
    rw [stable_eq]
    exact h.stable version hv
  have haccepts : accepts (members r) now = true := by
    unfold accepts
    rw [hschema, htime, hok, hlatest, hnames, h.schema]
    cases hv : r.latestVersion with
    | none =>
      have hfalse : r.ok = false := Bool.eq_false_iff.mpr fun hok => h.known hok hv
      simp [members, hnow, hfalse]
    | some version =>
      have hstable := hversion version hv
      cases r.ok <;> simp [members, hnow, Scalar.stable, hstable]
  simp [noticeRecord, readPrivate, size_write h, hjson.object r, hkeys, haccepts]

/-- What was read can be written again. -/
theorem sound_of_readCheck {document : Option Word} {now : ℕ} {r : CheckRecord} (hnow : now < 2 ^ 64)
    (h : readCheck json document now = some r) : Sound r ∧ r.checkedAt ≤ now := by
  unfold readCheck at h
  simp only [Option.bind_eq_bind, Option.bind_eq_some_iff] at h
  obtain ⟨text, -, _, -, value, -, hvalue⟩ := h
  split_ifs at hvalue with hinvalid
  obtain rfl := Option.some.inj hvalue
  simp only [invalid, Bool.or_eq_true, bne_iff_ne, ne_eq, decide_eq_true_eq, Bool.and_eq_true, not_or, not_not,
    not_lt] at hinvalid
  obtain ⟨⟨⟨hschema, htime⟩, hknown⟩, hstable⟩ := hinvalid
  refine ⟨⟨hschema, htime.trans_lt hnow, fun hok hnone => hknown ⟨hok, by rw [hnone]; rfl⟩, fun version hv => ?_⟩,
    htime⟩
  rw [hv] at hstable
  exact Option.isSome_iff_ne_none.mpr (by simpa using hstable)

/-! ## Runs -/

/-- Two fetches are a day apart after a success, and six hours after a failure. -/
def Spaced (log : List Event) : Prop :=
  log.Pairwise fun later earlier => earlier.now + ttl earlier.fetched.isSome ≤ later.now

/-- The version of the last successful fetch. -/
def lastSuccess (log : List Event) : Option String :=
  log.findSome? fun e => e.fetched.map fun version => trimV version.text

/-- Once a fetch has succeeded, every record names the version of the last one that did. -/
def Kept : List Event → Prop
  | [] => True
  | e :: log => (∀ version, lastSuccess (e :: log) = some version → e.record.latestVersion = some version) ∧ Kept log

/-- Both readers accept the record, from the time on at which it was written. -/
def Accepted (json : Json) (e : Event) : Prop :=
  ∀ now, e.now ≤ now → (readCheck json (some (write e.record)) now).isSome = true ∧
    (noticeRecord json (some (write e.record)) now).isSome = true

/-- The call runs a fetch. -/
def Fetches (json : Json) (s : State) (c : Call) : Prop := (automaticAt json s.document c).2.isSome = true

/-- A fetch fails on the record of a failure, after one of the run has succeeded. -/
def Loses (json : Json) (s : State) (c : Call) : Prop :=
  Fetches json s c ∧ c.fetch = none ∧ (readCheck json s.document c.now).any (fun r => !r.ok) = true ∧
    (lastSuccess s.log).isSome = true

/-- No call of the run loses a version. -/
def NoLoss (json : Json) (start : Option Word) : List Call → Prop
  | [] => True
  | c :: calls => ¬Loses json (run json start calls) c ∧ NoLoss json start calls

/-- A fetch: it was due, and its record is what `newRecord` makes of the one before. -/
structure Written (json : Json) (s : State) (c : Call) (e : Event) : Prop where
  now : e.now = c.now
  fetched : e.fetched = c.fetch
  due : ∀ r, readCheck json s.document c.now = some r → ttl r.ok ≤ c.now - r.checkedAt
  record : e.record = newRecord (readCheck json s.document c.now) c.now c.fetch

/-- A call leaves everything as it is, or fetches and writes a record. -/
theorem step_cases (s : State) (c : Call) : step json s c = s ∧ ¬Fetches json s c ∨
    ∃ e, Fetches json s c ∧ Written json s c e ∧ step json s c = ⟨some (write e.record), e :: s.log⟩ := by
  by_cases hblocked : (stableVersion c.current).toOption.isNone ∨ c.busy = true
  · have hcall : automaticAt json s.document c = (s.document, none) := if_pos hblocked
    unfold step Fetches
    rw [hcall]
    exact .inl ⟨rfl, Bool.false_ne_true⟩
  by_cases hrecent : recent (readCheck json s.document c.now) c.now = true
  · have hcall : automaticAt json s.document c = (s.document, none) := by
      rw [automaticAt, if_neg hblocked, if_pos hrecent]
    unfold step Fetches
    rw [hcall]
    exact .inl ⟨rfl, Bool.false_ne_true⟩
  · have hdue : ∀ r, readCheck json s.document c.now = some r → ttl r.ok ≤ c.now - r.checkedAt := by
      intro r hr
      rw [hr] at hrecent
      simpa [recent] using hrecent
    let record := newRecord (readCheck json s.document c.now) c.now c.fetch
    have hcall : automaticAt json s.document c = (some (write record), some ⟨c.now, c.fetch, record⟩) := by
      rw [automaticAt, if_neg hblocked, if_neg hrecent]
    refine .inr ⟨⟨c.now, c.fetch, record⟩, ?_, ⟨rfl, rfl, hdue, rfl⟩, ?_⟩
    · unfold Fetches
      rw [hcall]
      rfl
    · unfold step
      rw [hcall]
      rfl

theorem sound_newRecord {document : Option Word} {now : ℕ} (hnow : now < 2 ^ 64) (fetch : Option Version) :
    Sound (newRecord (readCheck json document now) now fetch) := by
  cases fetch with
  | some version =>
    refine ⟨rfl, hnow, fun _ => Option.some_ne_none _, fun v hv => ?_⟩
    obtain rfl := Option.some.inj hv
    exact stable_trimV version.stable
  | none =>
    refine ⟨rfl, hnow, fun hok => Bool.noConfusion hok, fun v hv => ?_⟩
    obtain ⟨r, hr, hlatest⟩ := Option.bind_eq_some_iff.mp hv
    obtain ⟨hread, -⟩ := Option.filter_eq_some_iff.mp hr
    exact (sound_of_readCheck hnow hread).1.stable v hlatest

theorem newRecord_time (existing : Option CheckRecord) (now : ℕ) (fetch : Option Version) :
    (newRecord existing now fetch).checkedAt = now ∧ (newRecord existing now fetch).ok = fetch.isSome := by
  cases fetch <;> exact ⟨rfl, rfl⟩

/-- What every state of a run has: the file is the last record, and every record was written at its time. -/
structure Inv (json : Json) (s : State) (now : ℕ) : Prop where
  file : ∀ e log, s.log = e :: log → s.document = some (write e.record)
  events : ∀ e ∈ s.log, Sound e.record ∧ e.record.checkedAt = e.now ∧ e.record.ok = e.fetched.isSome ∧ e.now ≤ now
  spaced : Spaced s.log

theorem Inv.mono {s : State} {now now' : ℕ} (h : Inv json s now) (hle : now ≤ now') : Inv json s now' where
  file := h.file
  events e he := ⟨(h.events e he).1, (h.events e he).2.1, (h.events e he).2.2.1, (h.events e he).2.2.2.trans hle⟩
  spaced := h.spaced

/-- The record of the last fetch is the one that is read. -/
theorem Inv.readCheck {s : State} {now : ℕ} (hjson : json.ReadsBack) (h : Inv json s now) {e : Event}
    {log : List Event} (hlog : s.log = e :: log) : readCheck json s.document now = some e.record := by
  obtain ⟨hsound, htime, -, hle⟩ := h.events e (by rw [hlog]; exact List.mem_cons_self)
  rw [h.file e log hlog]
  exact readCheck_write hjson hsound (htime ▸ hle)

theorem Inv.step (hjson : json.ReadsBack) {s : State} {c : Call} (h : Inv json s c.now) :
    Inv json (step json s c) c.now := by
  obtain ⟨hsame, -⟩ | ⟨e, -, hw, hstep⟩ := @step_cases json s c
  · rw [hsame]
    exact h
  · rw [hstep]
    have htime := newRecord_time (UpdateCheck.readCheck json s.document c.now) c.now c.fetch
    refine ⟨?_, List.forall_mem_cons.mpr ⟨⟨?_, ?_, ?_, hw.now.le⟩, h.events⟩, List.pairwise_cons.mpr ⟨?_, h.spaced⟩⟩
    · rintro e' log' heq
      obtain rfl := (List.cons.inj heq).1
      rfl
    · rw [hw.record]
      exact sound_newRecord c.now_lt c.fetch
    · rw [hw.record, hw.now]
      exact htime.1
    · rw [hw.record, hw.fetched]
      exact htime.2
    · intro earlier hearlier
      cases hlog : s.log with
      | nil =>
        rw [hlog] at hearlier
        cases hearlier
      | cons last log =>
        obtain ⟨-, hlast, hok, hle⟩ := h.events last (by rw [hlog]; exact List.mem_cons_self)
        have hdue := hw.due _ (h.readCheck hjson hlog)
        rw [hlast, hok] at hdue
        have hnow := hw.now
        have hspaced := h.spaced
        rw [hlog] at hearlier hspaced
        rcases List.mem_cons.mp hearlier with rfl | hearlier
        · omega
        · have hbefore := (List.pairwise_cons.mp hspaced).1 earlier hearlier
          omega

theorem run_inv (hjson : json.ReadsBack) {start : Option Word} {calls : List Call}
    (htimes : calls.Pairwise fun later earlier => earlier.now ≤ later.now) {now : ℕ}
    (hnow : ∀ c ∈ calls, c.now ≤ now) : Inv json (run json start calls) now := by
  induction calls generalizing now with
  | nil => exact ⟨fun e log hno => (nomatch hno), nofun, List.Pairwise.nil⟩
  | cons c calls ih =>
    obtain ⟨hfirst, hrest⟩ := List.pairwise_cons.mp htimes
    exact ((ih hrest hfirst).step hjson).mono (hnow c List.mem_cons_self)

/-- One call keeps what is known exactly if it does not lose it. -/
theorem kept_step (hjson : json.ReadsBack) {s : State} {c : Call} (h : Inv json s c.now) :
    Kept (step json s c).log ↔ ¬Loses json s c ∧ Kept s.log := by
  obtain ⟨hsame, hno⟩ | ⟨e, hfetches, hw, hstep⟩ := @step_cases json s c
  · rw [hsame]
    exact (and_iff_right fun hloses => hno hloses.1).symm
  · rw [hstep]
    refine and_congr_left fun hkept => ?_
    cases hfetch : c.fetch with
    | some version =>
      have hsuccess : lastSuccess (e :: s.log) = some (trimV version.text) := by
        unfold lastSuccess
        rw [List.findSome?_cons, hw.fetched, hfetch]
        rfl
      have hlatest : e.record.latestVersion = some (trimV version.text) := by
        rw [hw.record, hfetch]
        rfl
      refine iff_of_true (fun v hv => ?_) fun hloses => ?_
      · rw [hlatest, ← hsuccess, hv]
      · rw [hloses.2.1] at hfetch
        cases hfetch
    | none =>
      have hlast : lastSuccess (e :: s.log) = lastSuccess s.log := by
        unfold lastSuccess
        rw [List.findSome?_cons, hw.fetched, hfetch]
        rfl
      have hlatest : e.record.latestVersion =
          ((readCheck json s.document c.now).filter (·.ok)).bind CheckRecord.latestVersion := by
        rw [hw.record, hfetch]
        rfl
      rw [hlast]
      cases hlog : s.log with
      | nil =>
        refine iff_of_true (fun v hv => nomatch hv) fun hloses => ?_
        rw [Loses, hlog] at hloses
        cases hloses.2.2.2
      | cons last log =>
        have hread := h.readCheck hjson hlog
        rw [hlog] at hkept
        rw [hread, Option.filter_some] at hlatest
        cases hok : last.record.ok with
        | true =>
          have hcopied : e.record.latestVersion = last.record.latestVersion := by simpa [hok] using hlatest
          refine iff_of_true (fun v hv => hcopied.trans (hkept.1 v hv)) fun hloses => ?_
          have hfailed := hloses.2.2.1
          rw [hread] at hfailed
          simp [hok] at hfailed
        | false =>
          have hnone : e.record.latestVersion = none := by simpa [hok] using hlatest
          rw [hnone]
          constructor
          · intro hall hloses
            obtain ⟨v, hv⟩ := Option.isSome_iff_exists.mp hloses.2.2.2
            rw [hlog] at hv
            cases hall v hv
          · intro hkeeps v hv
            refine absurd ⟨hfetches, hfetch, ?_, ?_⟩ hkeeps
            · rw [hread]
              simp [hok]
            · rw [hlog, hv]
              rfl

theorem run_kept_iff (hjson : json.ReadsBack) {start : Option Word} {calls : List Call}
    (htimes : calls.Pairwise fun later earlier => earlier.now ≤ later.now) :
    Kept (run json start calls).log ↔ NoLoss json start calls := by
  induction calls with
  | nil => exact Iff.rfl
  | cons c calls ih =>
    obtain ⟨hfirst, hrest⟩ := List.pairwise_cons.mp htimes
    rw [NoLoss, ← ih hrest]
    exact kept_step hjson (run_inv hjson hrest hfirst)

theorem boolean_delimited : SelfDelimited boolean := by
  intro a b r r' _ _ heq
  cases a <;> cases b
  · exact ⟨rfl, List.append_cancel_left heq⟩
  · exact absurd heq (append_ne (by rfl) (by rfl) (by decide : 'f' ≠ 't') r r')
  · exact absurd heq (append_ne (by rfl) (by rfl) (by decide : 't' ≠ 'f') r r')
  · exact ⟨rfl, List.append_cancel_left heq⟩

theorem write_injective : Function.Injective write := by
  rintro ⟨schema, time, ok, version⟩ ⟨schema', time', ok', version'⟩ h
  have hnumber : Delimited (Nat.toDigits 10) fun r => ∀ c, r.head? = some c → c.isDigit = false :=
    Delimited.digits (by norm_num) (by norm_num) (by decide)
  have hcomma : ∀ key : Word, key.head? = some ',' → ∀ r c, (key ++ r).head? = some c → c.isDigit = false := by
    intro key hkey r c hc
    rw [List.head?_append, hkey] at hc
    obtain rfl := Option.some.inj hc
    decide
  have htime := hcomma ",\"checkedAt\":".toList (by rfl)
  have hok := hcomma ",\"ok\":".toList (by rfl)
  obtain ⟨rfl, h1⟩ := hnumber _ _ _ _ (htime _) (htime _) (List.append_cancel_left h)
  obtain ⟨rfl, h2⟩ := hnumber _ _ _ _ (hok _) (hok _) (List.append_cancel_left h1)
  obtain ⟨rfl, h3⟩ := boolean_delimited _ _ _ _ trivial trivial (List.append_cancel_left h2)
  obtain ⟨rfl, -⟩ := nullable_delimited _ _ _ _ trivial trivial (List.append_cancel_left h3)
  rfl

/-- Readers that know what `write` writes. -/
noncomputable def inverse : Json where
  record := Function.partialInv write
  object text := (Function.partialInv write text).map members

theorem inverse_readsBack : inverse.ReadsBack where
  record := Function.partialInv_left write_injective
  object r := by
    show (Function.partialInv write (write r)).map members = some (members r)
    rw [Function.partialInv_left write_injective]
    rfl

def release : Version := ⟨"v1.2.3", by decide⟩

/-- A call that finds the lock free. -/
def check (now : ℕ) (h : now < 2 ^ 64) (fetch : Option Version) : Call := ⟨"1.0.0", false, now, h, fetch⟩

theorem step_check {s : State} {now : ℕ} (h : now < 2 ^ 64) {fetch : Option Version} {existing : Option CheckRecord}
    (hread : readCheck json s.document now = existing) (hrecent : recent existing now = false) :
    step json s (check now h fetch) =
      ⟨some (write (newRecord existing now fetch)), ⟨now, fetch, newRecord existing now fetch⟩ :: s.log⟩ := by
  have hcurrent : ¬((stableVersion "1.0.0").toOption.isNone = true ∨ false = true) := by decide
  have hcall : automaticAt json s.document (check now h fetch) =
      (some (write (newRecord existing now fetch)), some ⟨now, fetch, newRecord existing now fetch⟩) := by
    subst hread
    unfold automaticAt check
    rw [if_neg hcurrent, if_neg (by rw [hrecent]; exact Bool.false_ne_true)]
  unfold step
  rw [hcall]
  rfl

/-- A success and a failure after a day: the version is kept. -/
def once : List Call := [check 200000 (by norm_num) none, check 100000 (by norm_num) (some release)]

/-- One more failure. -/
def twice : List Call := check 300000 (by norm_num) none :: once

def found : CheckRecord := ⟨1, 100000, true, some (trimV "v1.2.3")⟩

def failed : CheckRecord := ⟨1, 200000, false, some (trimV "v1.2.3")⟩

theorem sound_found : Sound found ∧ Sound failed := by
  have hstable : ∀ v, some (trimV "v1.2.3") = some v → Stable v := fun v hv =>
    Option.some.inj hv ▸ stable_trimV release.stable
  exact ⟨⟨rfl, by norm_num [found], fun _ => Option.some_ne_none _, hstable⟩,
    ⟨rfl, by norm_num [failed], fun hok => Bool.noConfusion hok, hstable⟩⟩

theorem run_found : run inverse none [check 100000 (by norm_num) (some release)] =
    ⟨some (write found), [⟨100000, some release, found⟩]⟩ := step_check (by norm_num) rfl rfl

theorem read_found : readCheck inverse (some (write found)) 200000 = some found :=
  readCheck_write inverse_readsBack sound_found.1 (by norm_num [found])

theorem read_failed : readCheck inverse (some (write failed)) 300000 = some failed :=
  readCheck_write inverse_readsBack sound_found.2 (by norm_num [failed])

theorem run_once : run inverse none once =
    ⟨some (write failed), [⟨200000, none, failed⟩, ⟨100000, some release, found⟩]⟩ := by
  have hrun : run inverse none once = step inverse
      (run inverse none [check 100000 (by norm_num) (some release)]) (check 200000 (by norm_num) none) := rfl
  have hnew : newRecord (some found) 200000 none = failed := rfl
  have hrecent : recent (some found) 200000 = false := by decide
  rw [hrun, run_found, step_check (by norm_num) read_found hrecent, hnew]

theorem once_noLoss : NoLoss inverse none once := by
  refine ⟨fun hloses => ?_, fun hloses => ?_, trivial⟩
  · have hfailed := hloses.2.2.1
    rw [run_found] at hfailed
    have hread : readCheck inverse (some (write found)) (check 200000 (by norm_num) none).now = some found :=
      read_found
    rw [hread] at hfailed
    exact absurd hfailed (by decide)
  · cases hloses.2.1

end Hamn.Install.UpdateCheck
