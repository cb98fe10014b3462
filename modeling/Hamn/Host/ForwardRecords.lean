import Hamn.Lib.Result
import Hamn.Lib.Scanf

/-!
# ForwardRecords — the file `port-forwards.tsv` (`host/fwd/ports.c`)

One record a line, with tabs between its eleven fields.  The reader uses `fgets` and `sscanf` and refuses the whole file
at the first line that is no record; the writer fills one buffer.

* `recordsLoad`, `recordsSave`: the two functions on the bytes of the file, `none` where there is no file.
* `recordsSave_fits`: the buffer holds every table.
* `recordsLoad_recordsSave`: what is written is read back.
-/

open Bytes Scanf

namespace Hamn.Forward

/-! ## Model -/

inductive PortProtocol where
  | tcp
  | udp
  deriving DecidableEq

structure PortSpec where
  hostIp : Bytes
  hostPort : ℕ
  containerPort : ℕ
  protocol : PortProtocol
  deriving DecidableEq

structure ForwardRecord where
  spec : PortSpec
  pid : ℤ := 0
  startSec : ℕ := 0
  startUsec : ℕ := 0
  pending : Bool := false
  submitted : Bool := false
  serialized : Bool := false
  ownerPid : ℤ := 0
  ownerStartSec : ℕ := 0
  ownerStartUsec : ℕ := 0
  deriving DecidableEq

def MAX_FORWARD_RECORDS : ℕ := 128

def protocolName : PortProtocol → Bytes
  | .udp => ascii "udp"
  | .tcp => ascii "tcp"

/-- One to three digits, without a leading zero, of a number up to 255. -/
def octet (digits : Bytes) : Option ℕ :=
  if digits ≠ [] ∧ digits.length ≤ 3 ∧ digits.all isDecimal ∧ (1 < digits.length → digits.head? ≠ some (byte '0')) ∧
      number digits ≤ 255 then some (number digits)
  else none

/-- `inet_pton` for `AF_INET`. -/
def inetPton (text : Bytes) : Option (List ℕ) :=
  let parts := text.splitOn (byte '.')
  if parts.length = 4 then parts.mapM octet else none

def ownershipParse (ownership : Bytes) (record : ForwardRecord) : Option ForwardRecord :=
  if ownership = ascii "pending" then some { record with pending := true }
  else if ownership = ascii "control-locked" then some { record with pending := true, serialized := true }
  else if ownership = ascii "submitted" ∨ ownership = ascii "submitted-locked" then
    some { record with pending := true, submitted := true, serialized := ownership = ascii "submitted-locked" }
  else if ownership ≠ ascii "committed" then none
  else some record

/-- What `sscanf` stores: the protocol, the record without its ownership, the ownership and the rest of the line. -/
def scanRecord (line : Bytes) : Option (Bytes × ForwardRecord × Bytes × Bytes) := do
  let (protocol, s) ← scanString 7 line
  let (hostIp, s) ← scanString 63 (skipSpace s)
  let (hostPort, s) ← scanUnsigned 32 (skipSpace s)
  let (containerPort, s) ← scanUnsigned 32 (skipSpace s)
  let (pid, s) ← scanInt (skipSpace s)
  let (startSec, s) ← scanUnsigned 64 (skipSpace s)
  let (startUsec, s) ← scanUnsigned 64 (skipSpace s)
  let (ownership, s) ← scanString 23 (skipSpace s)
  let (ownerPid, s) ← scanInt (skipSpace s)
  let (ownerStartSec, s) ← scanUnsigned 64 (skipSpace s)
  let (ownerStartUsec, s) ← scanUnsigned 64 (skipSpace s)
  let spec := ⟨hostIp, hostPort, containerPort, .tcp⟩
  return (protocol, { spec, pid, startSec, startUsec, ownerPid, ownerStartSec, ownerStartUsec }, ownership, s)

/-- The record and its owner as the loader wants them. -/
def recordWrong (record : ForwardRecord) : Bool :=
  (inetPton record.spec.hostIp).isNone || record.spec.hostPort == 0 || 65535 < record.spec.hostPort ||
    record.spec.containerPort == 0 || 65535 < record.spec.containerPort || record.pid < 0 ||
    1000000 ≤ record.startUsec || (record.startSec == 0 && record.startUsec != 0) || record.ownerPid < 0 ||
    1000000 ≤ record.ownerStartUsec || (record.ownerPid != 0 && record.ownerPid ≤ 1) ||
    (record.ownerStartSec == 0 && record.ownerStartUsec != 0) ||
    ((1 < record.ownerPid : Bool) != (0 < record.ownerStartSec : Bool)) || (record.submitted && !record.pending) ||
    (record.serialized && !record.pending) ||
    (!record.pending && (record.ownerPid != 0 || record.ownerStartSec != 0 || record.ownerStartUsec != 0))

/-- One line of the file; a C string ends at its first NUL. -/
def recordLoad (line : Bytes) : Option ForwardRecord := do
  let (protocol, record, ownership, rest) ← scanRecord (line.takeWhile (· ≠ 0))
  let record ← ownershipParse ownership record
  let rest := rest.dropWhile fun c => c = 13 || c = 10
  if rest ≠ [] ∨ (protocol ≠ ascii "tcp" ∧ protocol ≠ ascii "udp") ∨ recordWrong record then none
  else some { record with spec := { record.spec with protocol := if protocol = ascii "udp" then .udp else .tcp } }

/-- `fgets` until the end of the file, with room for `cap` bytes; `left` bytes of it are free and `line` is read. -/
def fgetsLines (cap : ℕ) : ℕ → Bytes → Bytes → List Bytes
  | _, line, [] => if line = [] then [] else [line]
  | left, line, c :: text =>
    if c = newline ∨ left ≤ 1 then (line ++ [c]) :: fgetsLines cap cap [] text
    else fgetsLines cap (left - 1) (line ++ [c]) text

def LINE_BYTES : ℕ := 320

/-- The loop over the lines, with `count` records read. -/
def loadLines : ℕ → List Bytes → Option (List ForwardRecord)
  | _, [] => some []
  | count, line :: lines => do
    let record ← recordLoad line
    if MAX_FORWARD_RECORDS ≤ count then none
    else
      let records ← loadLines (count + 1) lines
      return record :: records

def recordsLoad : Option Bytes → Option (List ForwardRecord)
  | none => some []
  | some text => loadLines 0 (fgetsLines (LINE_BYTES - 1) (LINE_BYTES - 1) [] text)

/-- `%d` -/
def printInt (z : ℤ) : Bytes := (if z < 0 then [byte '-'] else []) ++ decimal z.natAbs

def ownershipName (record : ForwardRecord) : Bytes :=
  if record.serialized ∧ record.submitted then ascii "submitted-locked"
  else if record.serialized then ascii "control-locked"
  else if record.submitted then ascii "submitted"
  else if record.pending then ascii "pending"
  else ascii "committed"

/-- What `snprintf` writes for a record. -/
def recordText (record : ForwardRecord) : Bytes :=
  protocolName record.spec.protocol ++ 9 :: (record.spec.hostIp ++ 9 :: (decimal record.spec.hostPort ++
    9 :: (decimal record.spec.containerPort ++ 9 :: (printInt record.pid ++ 9 :: (decimal record.startSec ++
    9 :: (decimal record.startUsec ++ 9 :: (ownershipName record ++ 9 :: (printInt record.ownerPid ++
    9 :: (decimal record.ownerStartSec ++ 9 :: (decimal record.ownerStartUsec ++ [newline]))))))))))

def TEXT_BYTES : ℕ := MAX_FORWARD_RECORDS * 224

/-- The loop of the writer, with `off` bytes in the buffer. -/
def saveText : ℕ → List ForwardRecord → Option Bytes
  | _, [] => some []
  | off, record :: records =>
    if TEXT_BYTES - off ≤ (recordText record).length then none
    else (saveText (off + (recordText record).length) records).map (recordText record ++ ·)

/-- The new file: no file for no record. -/
def recordsSave (records : List ForwardRecord) : Option (Option Bytes) :=
  (saveText 0 records).map fun text => if records = [] then none else some text

/-! ## Fields -/

/-- A record that the program's types and the loader allow. -/
structure Valid (r : ForwardRecord) : Prop where
  right : recordWrong r = false
  pid : r.pid < 2 ^ 31
  startSec : r.startSec < 2 ^ 64
  ownerPid : r.ownerPid < 2 ^ 31
  ownerStartSec : r.ownerStartSec < 2 ^ 64

/-- The conditions of the loader as propositions. -/
structure Right (r : ForwardRecord) : Prop where
  address : ∃ octets, inetPton r.spec.hostIp = some octets
  hostPort : 0 < r.spec.hostPort ∧ r.spec.hostPort ≤ 65535
  containerPort : 0 < r.spec.containerPort ∧ r.spec.containerPort ≤ 65535
  pid : 0 ≤ r.pid
  startUsec : r.startUsec < 1000000
  start : r.startSec = 0 → r.startUsec = 0
  ownerPid : 0 ≤ r.ownerPid
  ownerStartUsec : r.ownerStartUsec < 1000000
  owner : r.ownerPid ≠ 0 → 1 < r.ownerPid
  ownerStart : r.ownerStartSec = 0 → r.ownerStartUsec = 0
  ownerPair : 1 < r.ownerPid ↔ 0 < r.ownerStartSec
  submitted : r.submitted = true → r.pending = true
  serialized : r.serialized = true → r.pending = true
  committed : r.pending = false → r.ownerPid = 0 ∧ r.ownerStartSec = 0 ∧ r.ownerStartUsec = 0

theorem recordWrong_eq_false {r : ForwardRecord} : recordWrong r = false ↔ Right r := by
  unfold recordWrong
  simp only [Bool.or_eq_false_iff, Option.isNone_eq_false_iff, Option.isSome_iff_exists, Bool.and_eq_false_iff,
    decide_eq_false_iff_not, beq_eq_false_iff_ne, bne_eq_false_iff_eq, Bool.not_eq_false', not_le, not_lt, ne_eq,
    decide_eq_decide]
  constructor
  · rintro ⟨⟨⟨⟨⟨⟨⟨⟨⟨⟨⟨⟨⟨⟨⟨h1, h2⟩, h3⟩, h4⟩, h5⟩, h6⟩, h7⟩, h8⟩, h9⟩, h10⟩, h11⟩, h12⟩, h13⟩, h14⟩, h15⟩, h16⟩
    refine ⟨h1, ⟨Nat.pos_of_ne_zero h2, h3⟩, ⟨Nat.pos_of_ne_zero h4, h5⟩, h6, h7, h8.resolve_left ∘ not_not_intro, h9,
      h10, h11.resolve_left, h12.resolve_left ∘ not_not_intro, h13, ?_, ?_, ?_⟩
    · exact fun h => h14.resolve_left (by simp [h])
    · exact fun h => h15.resolve_left (by simp [h])
    · exact fun h => and_assoc.mp (h16.resolve_left (by simp [h]))
  · rintro ⟨h1, ⟨h2, h3⟩, ⟨h4, h5⟩, h6, h7, h8, h9, h10, h11, h12, h13, h14, h15, h16⟩
    refine ⟨⟨⟨⟨⟨⟨⟨⟨⟨⟨⟨⟨⟨⟨⟨h1, h2.ne'⟩, h3⟩, h4.ne'⟩, h5⟩, h6⟩, h7⟩, not_or_of_imp h8⟩, h9⟩, h10⟩,
      or_iff_not_imp_left.mpr h11⟩, not_or_of_imp h12⟩, h13⟩, ?_⟩, ?_⟩, ?_⟩
    · cases hs : r.submitted with
      | false => exact .inl rfl
      | true => exact .inr (h14 hs)
    · cases hs : r.serialized with
      | false => exact .inl rfl
      | true => exact .inr (h15 hs)
    · cases hp : r.pending with
      | false => exact .inr (and_assoc.mpr (h16 hp))
      | true => exact .inl rfl

/-- Printed bytes without blanks. -/
def Field (w : Bytes) : Prop := w ≠ [] ∧ ∀ c ∈ w, 32 < c.toNat ∧ c.toNat < 128

theorem Field.word {w : Bytes} (h : Field w) : Word w := by
  refine ⟨h.1, fun c hc => ?_⟩
  have hrange := h.2 c hc
  refine Bool.eq_false_of_not_eq_true fun hspace => ?_
  simp only [isSpace, Bool.or_eq_true, decide_eq_true_eq, Bool.and_eq_true, UInt8.le_iff_toNat_le] at hspace
  rcases hspace with rfl | ⟨-, hle⟩
  · exact absurd hrange.1 (by decide)
  · change c.toNat ≤ 13 at hle
    omega

theorem field_decimal (n : ℕ) : Field (decimal n) := by
  obtain ⟨hall, hne, -⟩ := decimal_digits n
  refine ⟨hne, fun c hc => ?_⟩
  have := isDecimal_iff.mp (hall c hc)
  omega

theorem octet_eq_some {digits : Bytes} {n : ℕ} (h : octet digits = some n) :
    digits.length ≤ 3 ∧ ∀ c ∈ digits, isDecimal c = true := by
  unfold octet at h
  split_ifs at h with hdigits
  exact ⟨hdigits.2.1, List.all_eq_true.mp hdigits.2.2.1⟩

/-- An address has at most 15 bytes, digits and dots. -/
theorem inetPton_field {text : Bytes} {octets : List ℕ} (h : inetPton text = some octets) :
    Field text ∧ text.length ≤ 15 := by
  unfold inetPton at h
  dsimp only at h
  split_ifs at h with hparts
  have hjoin : [byte '.'].intercalate (text.splitOn (byte '.')) = text := List.intercalate_splitOn _
  obtain ⟨a, b, c, d, hsplit⟩ := List.length_eq_four.mp hparts
  rw [hsplit] at h hjoin
  simp only [List.mapM_cons, List.mapM_nil, Option.bind_eq_bind, Option.bind_eq_some_iff] at h
  obtain ⟨na, ha, r, ⟨nb, hb, r', ⟨nc, hc, r'', ⟨nd, hd, -⟩, -⟩, -⟩, -⟩ := h
  have htext : text = a ++ byte '.' :: (b ++ byte '.' :: (c ++ byte '.' :: d)) := by
    rw [← hjoin]
    simp [List.intercalate]
  subst htext
  have hdot : ∀ part n, octet part = some n → ∀ c ∈ part, 32 < c.toNat ∧ c.toNat < 128 := by
    intro part n hpart c hc
    have := isDecimal_iff.mp ((octet_eq_some hpart).2 c hc)
    omega
  refine ⟨⟨by simp, ?_⟩, ?_⟩
  · simp only [List.mem_append, List.mem_cons]
    rintro x (hx | rfl | hx | rfl | hx | rfl | hx)
    · exact hdot a na ha x hx
    · decide
    · exact hdot b nb hb x hx
    · decide
    · exact hdot c nc hc x hx
    · decide
    · exact hdot d nd hd x hx
  · have h1 := (octet_eq_some ha).1
    have h2 := (octet_eq_some hb).1
    have h3 := (octet_eq_some hc).1
    have h4 := (octet_eq_some hd).1
    simp only [List.length_append, List.length_cons]
    omega

theorem field_ascii {word : String} (h : (ascii word).all (fun c => 32 < c.toNat && c.toNat < 128) = true)
    (hne : ascii word ≠ []) : Field (ascii word) := by
  refine ⟨hne, fun c hc => ?_⟩
  have hboth := List.all_eq_true.mp h c hc
  rwa [Bool.and_eq_true, decide_eq_true_eq, decide_eq_true_eq] at hboth

theorem field_protocolName (protocol : PortProtocol) : Field (protocolName protocol) := by
  cases protocol <;> exact field_ascii (by decide) (by decide)

theorem field_ownershipName (r : ForwardRecord) : Field (ownershipName r) ∧ (ownershipName r).length ≤ 16 := by
  unfold ownershipName
  split_ifs <;> exact ⟨field_ascii (by decide) (by decide), by decide⟩

theorem printInt_nat {z : ℤ} (h : 0 ≤ z) : printInt z = decimal z.toNat := by
  obtain ⟨n, rfl⟩ := Int.eq_ofNat_of_zero_le h
  unfold printInt
  rw [if_neg (by omega), Int.natAbs_natCast, Int.toNat_natCast, List.nil_append]

/-! ## One record -/

section Record

variable {r : ForwardRecord}

theorem ends_tab (rest : Bytes) : Ends (9 :: rest) := by
  rintro c ⟨⟩
  decide

theorem ends_newline : Ends [newline] := by
  rintro c ⟨⟩
  decide

/-- The record as the scan leaves it. -/
def scanned (r : ForwardRecord) : ForwardRecord :=
  { r with
    spec := { r.spec with protocol := .tcp }
    pending := false
    submitted := false
    serialized := false }

theorem scanRecord_recordText (hr : Valid r) :
    scanRecord (recordText r) = some (protocolName r.spec.protocol, scanned r, ownershipName r, [newline]) := by
  have hright := recordWrong_eq_false.mp hr.right
  obtain ⟨octets, haddress⟩ := hright.address
  obtain ⟨hip, hiplen⟩ := inetPton_field haddress
  obtain ⟨hown, hownlen⟩ := field_ownershipName r
  have hprotocol : (protocolName r.spec.protocol).length ≤ 7 := by cases r.spec.protocol <;> decide
  have hpid := hr.pid
  have howner := hr.ownerPid
  have hpid' : ((r.pid.toNat : ℕ) : ℤ) = r.pid := Int.toNat_of_nonneg hright.pid
  have howner' : ((r.ownerPid.toNat : ℕ) : ℤ) = r.ownerPid := Int.toNat_of_nonneg hright.ownerPid
  unfold scanRecord recordText
  rw [printInt_nat hright.pid, printInt_nat hright.ownerPid,
    scanString_word (field_protocolName _).word hprotocol (ends_tab _)]
  simp only [Option.bind_eq_bind, Option.bind_some]
  rw [skipSpace_tab hip.word, scanString_word hip.word (by omega) (ends_tab _)]
  simp only [Option.bind_some]
  rw [skipSpace_tab (word_decimal _), scanUnsigned_decimal (by norm_num) (by have := hright.hostPort; omega) (ends_tab _)]
  simp only [Option.bind_some]
  rw [skipSpace_tab (word_decimal _),
    scanUnsigned_decimal (by norm_num) (by have := hright.containerPort; omega) (ends_tab _)]
  simp only [Option.bind_some]
  rw [skipSpace_tab (word_decimal _), scanInt_decimal (by omega) (ends_tab _)]
  simp only [Option.bind_some]
  rw [skipSpace_tab (word_decimal _), scanUnsigned_decimal (by norm_num) hr.startSec (ends_tab _)]
  simp only [Option.bind_some]
  rw [skipSpace_tab (word_decimal _),
    scanUnsigned_decimal (by norm_num) (by have := hright.startUsec; omega) (ends_tab _)]
  simp only [Option.bind_some]
  rw [skipSpace_tab hown.word, scanString_word hown.word (by omega) (ends_tab _)]
  simp only [Option.bind_some]
  rw [skipSpace_tab (word_decimal _), scanInt_decimal (by omega) (ends_tab _)]
  simp only [Option.bind_some]
  rw [skipSpace_tab (word_decimal _), scanUnsigned_decimal (by norm_num) hr.ownerStartSec (ends_tab _)]
  simp only [Option.bind_some]
  rw [skipSpace_tab (word_decimal _),
    scanUnsigned_decimal (by norm_num) (by have := hright.ownerStartUsec; omega) ends_newline]
  simp only [Option.bind_some, hpid', howner']
  rfl

theorem ownershipParse_ownershipName (hr : Valid r) :
    ownershipParse (ownershipName r) (scanned r) = some { r with spec := { r.spec with protocol := .tcp } } := by
  have hright := recordWrong_eq_false.mp hr.right
  obtain ⟨hsubmitted, hserialized⟩ := And.intro hright.submitted hright.serialized
  obtain ⟨spec, pid, sec, usec, pending, submitted, serialized, owner, osec, ousec⟩ := r
  dsimp only at hsubmitted hserialized
  cases pending with
  | false =>
    cases submitted with
    | true => exact absurd (hsubmitted rfl) Bool.false_ne_true
    | false =>
      cases serialized with
      | true => exact absurd (hserialized rfl) Bool.false_ne_true
      | false => rfl
  | true => cases submitted <;> cases serialized <;> rfl

theorem field_not_mem {w : Bytes} (h : Field w) {c : UInt8} (hc : c.toNat ≤ 32) : c ∉ w := by
  intro hmem
  have := h.2 c hmem
  omega

/-- The fields of a line, and how long they are. -/
theorem recordText_bytes (hr : Valid r) : ∃ text, recordText r = text ++ [newline] ∧ (0 : UInt8) ∉ text ∧
    newline ∉ text ∧ (recordText r).length < 224 := by
  have hright := recordWrong_eq_false.mp hr.right
  obtain ⟨octets, haddress⟩ := hright.address
  obtain ⟨hip, hiplen⟩ := inetPton_field haddress
  obtain ⟨hown, hownlen⟩ := field_ownershipName r
  have hprotocol : (protocolName r.spec.protocol).length ≤ 3 := by cases r.spec.protocol <;> decide
  have hpid := hr.pid
  have howner := hr.ownerPid
  have hlen : ∀ n : ℕ, n < 10 ^ 20 → (decimal n).length ≤ 20 := fun n hn => decimal_length (by decide) hn
  refine ⟨protocolName r.spec.protocol ++ 9 :: (r.spec.hostIp ++ 9 :: (decimal r.spec.hostPort ++
    9 :: (decimal r.spec.containerPort ++ 9 :: (printInt r.pid ++ 9 :: (decimal r.startSec ++
    9 :: (decimal r.startUsec ++ 9 :: (ownershipName r ++ 9 :: (printInt r.ownerPid ++
    9 :: (decimal r.ownerStartSec ++ 9 :: decimal r.ownerStartUsec))))))))), ?_, ?_, ?_, ?_⟩
  · simp [recordText]
  · rw [printInt_nat hright.pid, printInt_nat hright.ownerPid]
    simp only [List.mem_append, List.mem_cons, field_not_mem (field_protocolName _) (show (0 : UInt8).toNat ≤ 32 by decide),
      field_not_mem hip (show (0 : UInt8).toNat ≤ 32 by decide),
      field_not_mem hown (show (0 : UInt8).toNat ≤ 32 by decide),
      field_not_mem (field_decimal _) (show (0 : UInt8).toNat ≤ 32 by decide), or_false, false_or]
    decide
  · rw [printInt_nat hright.pid, printInt_nat hright.ownerPid]
    simp only [List.mem_append, List.mem_cons, field_not_mem (field_protocolName _) (show newline.toNat ≤ 32 by decide),
      field_not_mem hip (show newline.toNat ≤ 32 by decide),
      field_not_mem hown (show newline.toNat ≤ 32 by decide),
      field_not_mem (field_decimal _) (show newline.toNat ≤ 32 by decide), or_false, false_or]
    decide
  · have h1 := hlen r.spec.hostPort (by have := hright.hostPort; omega)
    have h2 := hlen r.spec.containerPort (by have := hright.containerPort; omega)
    have h3 := hlen r.pid.toNat (by omega)
    have h4 := hlen r.startSec (by have := hr.startSec; omega)
    have h5 := hlen r.startUsec (by have := hright.startUsec; omega)
    have h6 := hlen r.ownerPid.toNat (by omega)
    have h7 := hlen r.ownerStartSec (by have := hr.ownerStartSec; omega)
    have h8 := hlen r.ownerStartUsec (by have := hright.ownerStartUsec; omega)
    rw [recordText, printInt_nat hright.pid, printInt_nat hright.ownerPid]
    simp only [List.length_append, List.length_cons, List.length_nil]
    omega

theorem recordLoad_recordText (hr : Valid r) : recordLoad (recordText r) = some r := by
  obtain ⟨text, htext, hzero, -, -⟩ := recordText_bytes hr
  have hline : (recordText r).takeWhile (· ≠ 0) = recordText r := by
    rw [List.takeWhile_eq_self_iff, htext]
    intro c hc
    rw [decide_eq_true_eq]
    rintro rfl
    rcases List.mem_append.mp hc with hc | hc
    · exact hzero hc
    · exact absurd (List.mem_singleton.mp hc) (by decide)
  have hprotocol : protocolName r.spec.protocol = ascii "tcp" ∨ protocolName r.spec.protocol = ascii "udp" := by
    cases r.spec.protocol
    · exact .inl rfl
    · exact .inr rfl
  have hwrong : recordWrong { r with spec := { r.spec with protocol := .tcp } } = false := hr.right
  unfold recordLoad
  rw [hline, scanRecord_recordText hr]
  simp only [Option.bind_eq_bind, Option.bind_some]
  rw [ownershipParse_ownershipName hr]
  simp only [Option.bind_some]
  rw [if_neg]
  · obtain ⟨⟨ip, host, container, protocol⟩, pid, sec, usec, pending, submitted, serialized, owner, osec, ousec⟩ := r
    cases protocol <;> rfl
  · rintro (h | ⟨h, h'⟩ | h)
    · exact h (by decide)
    · exact hprotocol.elim h h'
    · rw [hwrong] at h
      cases h

end Record

/-! ## The file -/

theorem fgetsLines_line (cap : ℕ) {text : Bytes} (htext : newline ∉ text) (rest : Bytes) :
    ∀ (left : ℕ) (line : Bytes), text.length < left →
      fgetsLines cap left line (text ++ newline :: rest) = (line ++ text ++ [newline]) :: fgetsLines cap cap [] rest := by
  induction text with
  | nil =>
    intro left line hleft
    rw [List.nil_append, fgetsLines, if_pos (.inl rfl), List.append_nil]
  | cons c text ih =>
    intro left line hleft
    rw [List.mem_cons, not_or] at htext
    rw [List.length_cons] at hleft
    rw [List.cons_append, fgetsLines, if_neg (by
      rintro (h | h)
      · exact htext.1 h.symm
      · omega), ih htext.2 (left - 1) (line ++ [c]) (by omega)]
    simp

/-- A table that the operations can hold. -/
structure Table (records : List ForwardRecord) : Prop where
  valid : ∀ r ∈ records, Valid r
  length : records.length ≤ MAX_FORWARD_RECORDS

theorem fgetsLines_records {records : List ForwardRecord} (h : ∀ r ∈ records, Valid r) :
    fgetsLines (LINE_BYTES - 1) (LINE_BYTES - 1) [] (records.flatMap recordText) = records.map recordText := by
  induction records with
  | nil => rfl
  | cons r records ih =>
    rw [List.forall_mem_cons] at h
    obtain ⟨text, htext, -, hnewline, hlength⟩ := recordText_bytes h.1
    have hshort : text.length < LINE_BYTES - 1 := by
      rw [htext, List.length_append] at hlength
      unfold LINE_BYTES
      omega
    rw [List.flatMap_cons, List.map_cons, htext, List.append_assoc, List.singleton_append,
      fgetsLines_line _ hnewline _ _ _ hshort, ih h.2, List.nil_append]

theorem loadLines_records {records : List ForwardRecord} (h : ∀ r ∈ records, Valid r) {count : ℕ}
    (hcount : count + records.length ≤ MAX_FORWARD_RECORDS) : loadLines count (records.map recordText) = some records := by
  induction records generalizing count with
  | nil => rfl
  | cons r records ih =>
    rw [List.forall_mem_cons] at h
    rw [List.length_cons] at hcount
    rw [List.map_cons, loadLines, recordLoad_recordText h.1]
    simp only [Option.bind_eq_bind, Option.bind_some]
    rw [if_neg (by omega), ih h.2 (by omega)]
    rfl

/-- Every record has room in the buffer. -/
theorem saveText_eq {records : List ForwardRecord} (h : ∀ r ∈ records, Valid r) {off : ℕ}
    (hoff : off + records.length * 224 ≤ TEXT_BYTES) : saveText off records = some (records.flatMap recordText) := by
  induction records generalizing off with
  | nil => rfl
  | cons r records ih =>
    rw [List.forall_mem_cons] at h
    obtain ⟨text, -, -, -, hlength⟩ := recordText_bytes h.1
    rw [List.length_cons, Nat.succ_mul] at hoff
    rw [saveText, if_neg (by omega), ih h.2 (by omega)]
    rfl

theorem recordsSave_fits {records : List ForwardRecord} (h : Table records) :
    recordsSave records = some (if records = [] then none else some (records.flatMap recordText)) := by
  have hlength := h.length
  unfold recordsSave
  rw [saveText_eq h.valid (by unfold TEXT_BYTES; omega)]
  rfl

theorem ownershipParse_keeps {ownership : Bytes} {record r : ForwardRecord} (h : ownershipParse ownership record = some r) :
    r.spec = record.spec ∧ r.pid = record.pid ∧ r.startSec = record.startSec ∧ r.ownerPid = record.ownerPid ∧
      r.ownerStartSec = record.ownerStartSec := by
  unfold ownershipParse at h
  split_ifs at h <;> obtain rfl := Option.some.inj h <;> exact ⟨rfl, rfl, rfl, rfl, rfl⟩

/-- The numbers that were scanned are in range. -/
theorem scanRecord_range {line protocol ownership rest : Bytes} {record : ForwardRecord}
    (h : scanRecord line = some (protocol, record, ownership, rest)) :
    record.pid < 2 ^ 31 ∧ record.startSec < 2 ^ 64 ∧ record.ownerPid < 2 ^ 31 ∧ record.ownerStartSec < 2 ^ 64 := by
  unfold scanRecord at h
  simp only [Option.bind_eq_bind, Option.bind_eq_some_iff] at h
  obtain ⟨⟨_, s1⟩, -, ⟨_, s2⟩, -, ⟨_, s3⟩, -, ⟨_, s4⟩, -, ⟨_, s5⟩, hpid, ⟨_, s6⟩, hsec, ⟨_, s7⟩, -, ⟨_, s8⟩, -,
    ⟨_, s9⟩, howner, ⟨_, s10⟩, hosec, ⟨_, s11⟩, -, heq⟩ := h
  obtain ⟨-, rfl, -⟩ := Prod.mk.inj (Option.some.inj heq)
  exact ⟨scanInt_lt hpid, scanUnsigned_lt hsec, scanInt_lt howner, scanUnsigned_lt hosec⟩

theorem recordLoad_valid {line : Bytes} {r : ForwardRecord} (h : recordLoad line = some r) : Valid r := by
  unfold recordLoad at h
  simp only [Option.bind_eq_bind, Option.bind_eq_some_iff] at h
  obtain ⟨⟨protocol, scan, ownership, rest⟩, hscan, record, hownership, h⟩ := h
  obtain ⟨hpid, hsec, howner, hosec⟩ := scanRecord_range hscan
  obtain ⟨-, hpid', hsec', howner', hosec'⟩ := ownershipParse_keeps hownership
  obtain ⟨hchecks, h⟩ := Result.else_of_eq h (by simp)
  rw [not_or, not_or] at hchecks
  obtain rfl := Option.some.inj h
  exact ⟨Bool.eq_false_of_not_eq_true hchecks.2.2, hpid' ▸ hpid, hsec' ▸ hsec, howner' ▸ howner, hosec' ▸ hosec⟩

theorem loadLines_table {lines : List Bytes} {count : ℕ} {records : List ForwardRecord}
    (hcount : count ≤ MAX_FORWARD_RECORDS) (h : loadLines count lines = some records) :
    (∀ r ∈ records, Valid r) ∧ count + records.length ≤ MAX_FORWARD_RECORDS := by
  induction lines generalizing count records with
  | nil =>
    obtain rfl := Option.some.inj h
    exact ⟨fun r hr => absurd hr List.not_mem_nil, hcount⟩
  | cons line lines ih =>
    rw [loadLines] at h
    simp only [Option.bind_eq_bind, Option.bind_eq_some_iff] at h
    obtain ⟨record, hrecord, h⟩ := h
    obtain ⟨hroom, h⟩ := Result.else_of_eq h (by simp)
    obtain ⟨records', hrecords, h⟩ := Option.bind_eq_some_iff.mp h
    obtain rfl := Option.some.inj h
    obtain ⟨hvalid, hlength⟩ := ih (by omega) hrecords
    rw [List.length_cons]
    exact ⟨List.forall_mem_cons.mpr ⟨recordLoad_valid hrecord, hvalid⟩, by omega⟩

theorem recordsLoad_table {file : Option Bytes} {records : List ForwardRecord} (h : recordsLoad file = some records) :
    Table records := by
  cases file with
  | none =>
    obtain rfl := Option.some.inj h
    exact ⟨fun r hr => absurd hr List.not_mem_nil, Nat.zero_le _⟩
  | some text =>
    obtain ⟨hvalid, hlength⟩ := loadLines_table (Nat.zero_le _) h
    exact ⟨hvalid, by omega⟩

theorem recordsLoad_saved {records : List ForwardRecord} (h : Table records) {file : Option Bytes}
    (hsave : recordsSave records = some file) : recordsLoad file = some records := by
  rw [recordsSave_fits h] at hsave
  obtain rfl := Option.some.inj hsave
  by_cases hnil : records = []
  · rw [if_pos hnil, hnil]
    rfl
  · rw [if_neg hnil]
    show loadLines 0 (fgetsLines (LINE_BYTES - 1) (LINE_BYTES - 1) [] (records.flatMap recordText)) = some records
    rw [fgetsLines_records h.valid]
    exact loadLines_records h.valid (by have := h.length; omega)

/-- **The file of the forwards.**  What the loader returns, whatever the file holds, is a table; a table fits the
writer's buffer, and what is written of it is read back. -/
theorem recordsLoad_recordsSave (records : List ForwardRecord) :
    ((∃ file, recordsLoad file = some records) ↔ Table records) ∧
      (Table records ↔ ∃ file, recordsSave records = some file ∧ recordsLoad file = some records) := by
  have hsaved : Table records → ∃ file, recordsSave records = some file ∧ recordsLoad file = some records :=
    fun h => ⟨_, recordsSave_fits h, recordsLoad_saved h (recordsSave_fits h)⟩
  refine ⟨⟨?_, ?_⟩, ⟨hsaved, ?_⟩⟩
  · rintro ⟨file, h⟩
    exact recordsLoad_table h
  · intro h
    obtain ⟨file, -, hload⟩ := hsaved h
    exact ⟨file, hload⟩
  · rintro ⟨file, -, h⟩
    exact recordsLoad_table h

end Hamn.Forward
