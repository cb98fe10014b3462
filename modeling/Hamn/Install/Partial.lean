import Hamn.Lib.Bytes
import Hamn.Lib.Utf8

/-!
# Install.Partial — the validator file of a partial download (`install_support/download.rs`, `release/install.sh.in`)

The bootstrap script and the native downloader keep what is to be resumed in `.<digest>.partial`, and beside it, in
`.<digest>.validator`, four lines: a version, the digest, the size, and the validator of the last answer, or nothing.

* `recordText`: the file; `PartialMetadata.text` and `zshText` as the two programs write it.
* `partialMetadata`, `savedValidator`: how the native downloader reads it.
* `zshValidator`: how the script reads it.
* `savedValidator_eq`: they read the same.
-/

namespace Hamn.Download

open Bytes

def HOST_LIMIT : ℕ := 128 * 1024 * 1024
def GUEST_LIMIT : ℕ := 2 * 1024 * 1024 * 1024 - 1

/-! ## The two formats -/

def printable (c : UInt8) : Bool := 32 ≤ c && c ≤ 126

/-- `valid_validator`. -/
def validValidator (value : Bytes) : Bool := !value.isEmpty && value.length ≤ 1024 && value.all printable

/-- A string that is digits, as a `u64`. -/
def parseU64 (text : Bytes) : Option ℕ :=
  if text ≠ [] ∧ text.all isDecimal ∧ number text < 2 ^ 64 then some (number text) else none

structure PartialMetadata where
  sha256 : Bytes
  size : ℕ
  validator : Option Bytes
  deriving DecidableEq, Repr

/-- The last line: it is empty where there is no validator. -/
def asOption (validator : Bytes) : Option Bytes := if validator = [] then none else some validator

/-- `partial_metadata`. -/
def partialMetadata (bytes : Bytes) : Option PartialMetadata :=
  if Utf8.valid bytes = false then none
  else
    match (stripSuffix [newline] bytes).map (·.splitOn newline) with
    | some [version, sha256, size, validator] =>
      if version ≠ ascii "hamn-download 1" ∨ sha256.length ≠ 64 ∨ sha256.all isLowerHex = false ∨
          size.head? = some (byte '0') ∨ size.all isDecimal = false ∨
          (validator ≠ [] ∧ validValidator validator = false) then none
      else
        match parseU64 size with
        | some size =>
          if size = 0 ∨ GUEST_LIMIT < size then none
          else some ⟨sha256, size, asOption validator⟩
        | none => none
    | _ => none

/-- The four lines. -/
def recordText (key : Bytes) (size : ℕ) (validator : Bytes) : Bytes :=
  ascii "hamn-download 1" ++ newline :: (key ++ newline :: (decimal size ++ newline :: (validator ++ [newline])))

/-- What `save_partial_metadata` writes; it has to read its own text back. -/
def PartialMetadata.text (value : PartialMetadata) : Option Bytes :=
  let bytes := recordText value.sha256 value.size (value.validator.getD [])
  if partialMetadata bytes = some value then some bytes else none

/-- What `acquire_observed` takes from the file for its artifact: the validator, if there is one. -/
def savedValidator (key : Bytes) (size : ℕ) (bytes : Bytes) : Option (Option Bytes) :=
  if 2048 < bytes.length then none
  else
    match partialMetadata bytes with
    | some saved =>
      if saved.sha256 = key ∧ size = saved.size ∧ saved.validator.all validValidator then some saved.validator else none
    | none => none

/-- What the script takes from it; its `read` fails where a line does not end. -/
def zshValidator (key : Bytes) (expected : ℕ) (bytes : Bytes) : Option Bytes :=
  if 2048 < bytes.length then none
  else do
    let (schema, rest) ← splitOnce newline bytes
    let (metaKey, rest) ← splitOnce newline rest
    let (metaSize, rest) ← splitOnce newline rest
    let (validator, extra) ← splitOnce newline rest
    if extra = [] ∧ schema = ascii "hamn-download 1" ∧ metaKey = key ∧ metaSize = decimal expected ∧
        validator.length ≤ 1024 ∧ validator.all printable then some validator
    else none

/-! ## What they read -/

/-- A validator that the file can hold: none, or one that is valid. -/
def storable (validator : Bytes) : Bool := validator.length ≤ 1024 && validator.all printable

/-- The digest and the size of an artifact. -/
structure Named (key : Bytes) (size : ℕ) : Prop where
  length : key.length = 64
  hex : ∀ c ∈ key, isLowerHex c = true
  pos : 0 < size
  le : size ≤ GUEST_LIMIT

section

variable {key : Bytes} {size : ℕ}

theorem ascii_of_toNat {c : UInt8} (h : 32 ≤ c.toNat) (h' : c.toNat < 128) : c < 0x80 ∧ c ≠ newline := by
  refine ⟨UInt8.lt_iff_toNat_lt.mpr h', ?_⟩
  rintro rfl
  exact absurd h (by decide)

theorem isDecimal_ascii {c : UInt8} (h : isDecimal c = true) : c < 0x80 ∧ c ≠ newline := by
  obtain ⟨h1, h2⟩ := isDecimal_iff.mp h
  exact ascii_of_toNat (by omega) (by omega)

theorem isLowerHex_ascii {c : UInt8} (h : isLowerHex c = true) : c < 0x80 ∧ c ≠ newline := by
  rcases (Bool.or_eq_true _ _).mp h with h | h
  · exact isDecimal_ascii h
  · simp only [Bool.and_eq_true, decide_eq_true_eq, UInt8.le_iff_toNat_le] at h
    obtain ⟨h1, h2⟩ := h
    change 97 ≤ c.toNat at h1
    change c.toNat ≤ 102 at h2
    exact ascii_of_toNat (by omega) (by omega)

theorem printable_ascii {c : UInt8} (h : printable c = true) : c < 0x80 ∧ c ≠ newline := by
  simp only [printable, Bool.and_eq_true, decide_eq_true_eq, UInt8.le_iff_toNat_le] at h
  obtain ⟨h1, h2⟩ := h
  change 32 ≤ c.toNat at h1
  change c.toNat ≤ 126 at h2
  exact ascii_of_toNat h1 (by omega)

theorem storable_iff {validator : Bytes} :
    storable validator = true ↔ validator.length ≤ 1024 ∧ ∀ c ∈ validator, printable c = true := by
  simp [storable]

theorem storable_iff_valid {validator : Bytes} :
    storable validator = true ↔ validator = [] ∨ validValidator validator = true := by
  cases validator with
  | nil => simp [storable]
  | cons c v => simp [storable, validValidator]

/-- No line of the text has a newline in it. -/
theorem Named.lines (h : Named key size) {validator : Bytes} (hv : storable validator = true) :
    (∀ l ∈ [ascii "hamn-download 1", key, decimal size, validator], newline ∉ l) ∧
      ∀ c ∈ recordText key size validator, c < 0x80 := by
  have hversion : ∀ c ∈ ascii "hamn-download 1", c < 0x80 ∧ c ≠ newline := by decide +kernel
  have hkey : ∀ c ∈ key, c < 0x80 ∧ c ≠ newline := fun c hc => isLowerHex_ascii (h.hex c hc)
  have hsize : ∀ c ∈ decimal size, c < 0x80 ∧ c ≠ newline := fun c hc => isDecimal_ascii ((decimal_spec h.pos).1 c hc)
  have hvalidator : ∀ c ∈ validator, c < 0x80 ∧ c ≠ newline := fun c hc => printable_ascii ((storable_iff.mp hv).2 c hc)
  constructor
  · intro l hl hn
    simp only [List.mem_cons, List.not_mem_nil, or_false] at hl
    rcases hl with rfl | rfl | rfl | rfl
    · exact (hversion _ hn).2 rfl
    · exact (hkey _ hn).2 rfl
    · exact (hsize _ hn).2 rfl
    · exact (hvalidator _ hn).2 rfl
  · intro c hc
    simp only [recordText, List.mem_append, List.mem_cons, List.not_mem_nil, or_false] at hc
    have hnl : newline < 0x80 := by decide
    rcases hc with hc | rfl | hc | rfl | hc | rfl | hc | rfl
    · exact (hversion c hc).1
    · exact hnl
    · exact (hkey c hc).1
    · exact hnl
    · exact (hsize c hc).1
    · exact hnl
    · exact (hvalidator c hc).1
    · exact hnl

theorem Named.length_text (h : Named key size) {validator : Bytes} (hv : storable validator = true) :
    (recordText key size validator).length ≤ 2048 := by
  have hsize : (decimal size).length ≤ 10 := (decimal_spec h.pos).2.2.2.2 10 (by have := h.le; unfold GUEST_LIMIT at this; omega)
  have hversion : (ascii "hamn-download 1").length = 15 := by decide
  have := (storable_iff.mp hv).1
  simp only [recordText, List.length_append, List.length_cons, List.length_nil, h.length, hversion]
  omega

/-- The script reads the texts of storable validators, and nothing else. -/
theorem zshValidator_eq_some (h : Named key size) {bytes validator : Bytes} :
    zshValidator key size bytes = some validator ↔ bytes = recordText key size validator ∧ storable validator = true := by
  constructor
  · intro hz
    unfold zshValidator at hz
    split_ifs at hz with hlen
    obtain ⟨⟨schema, b1⟩, h1, hz1⟩ := Option.bind_eq_some_iff.mp hz
    obtain ⟨⟨metaKey, b2⟩, h2, hz2⟩ := Option.bind_eq_some_iff.mp hz1
    obtain ⟨⟨metaSize, b3⟩, h3, hz3⟩ := Option.bind_eq_some_iff.mp hz2
    obtain ⟨⟨v, extra⟩, h4, hz4⟩ := Option.bind_eq_some_iff.mp hz3
    simp only at h2 h3 h4 hz4
    split_ifs at hz4 with hall
    obtain ⟨rfl, rfl, rfl, rfl, hlength, hprint⟩ := hall
    obtain rfl := Option.some.inj hz4
    rw [splitOnce_eq_some] at h1 h2 h3 h4
    refine ⟨?_, storable_iff.mpr ⟨hlength, List.all_eq_true.mp hprint⟩⟩
    rw [h1.1, h2.1, h3.1, h4.1]
    rfl
  · rintro ⟨rfl, hv⟩
    obtain ⟨hl, -⟩ := h.lines hv
    have h1 := splitOnce_eq_some.mpr ⟨(rfl : recordText key size validator = _), hl _ (by simp)⟩
    have h2 : splitOnce newline (key ++ newline :: (decimal size ++ newline :: (validator ++ [newline]))) = _ :=
      splitOnce_eq_some.mpr ⟨rfl, hl _ (by simp)⟩
    have h3 : splitOnce newline (decimal size ++ newline :: (validator ++ [newline])) = _ :=
      splitOnce_eq_some.mpr ⟨rfl, hl _ (by simp)⟩
    have h4 : splitOnce newline (validator ++ [newline]) = _ := splitOnce_eq_some.mpr ⟨rfl, hl _ (by simp)⟩
    obtain ⟨hlength, hprint⟩ := storable_iff.mp hv
    simp only [zshValidator, if_neg (not_lt_of_ge (h.length_text hv)), h1, h2, h3, h4, Option.bind_eq_bind, Option.bind_some]
    exact if_pos ⟨trivial, trivial, trivial, trivial, hlength, List.all_eq_true.mpr hprint⟩

theorem asOption_getD (validator : Bytes) : (asOption validator).getD [] = validator := by
  unfold asOption
  split_ifs with h
  · exact h.symm
  · rfl

theorem recordText_eq (key : Bytes) (size : ℕ) (validator : Bytes) :
    recordText key size validator =
      [newline].intercalate [ascii "hamn-download 1", key, decimal size, validator] ++ [newline] := by
  simp [recordText, List.intercalate_cons_cons]

theorem parseU64_decimal (h : Named key size) : parseU64 (decimal size) = some size := by
  obtain ⟨hall, hne, -, hnumber, -⟩ := decimal_spec h.pos
  have hsize : size < 2 ^ 64 := lt_of_le_of_lt h.le (by decide)
  unfold parseU64
  rw [hnumber, if_pos ⟨hne, List.all_eq_true.mpr hall, hsize⟩]

/-- The native downloader reads the texts of storable validators, and nothing else. -/
theorem partialMetadata_eq_some {bytes : Bytes} {value : PartialMetadata} :
    partialMetadata bytes = some value ↔ ∃ validator, Named value.sha256 value.size ∧ storable validator = true ∧
      bytes = recordText value.sha256 value.size validator ∧ value.validator = asOption validator := by
  constructor
  · intro h
    unfold partialMetadata at h
    split_ifs at h
    split at h
    · rename_i version sha256 size validator hlines
      obtain ⟨text, htext, hsplit⟩ := Option.map_eq_some_iff.mp hlines
      split_ifs at h with hbad
      simp only [not_or, not_not, not_and, Bool.not_eq_false] at hbad
      obtain ⟨rfl, hlength, hhex, hzero, hdigits, hvalid⟩ := hbad
      split at h
      · rename_i n hn
        split_ifs at h with hrange
        obtain rfl := Option.some.inj h
        obtain ⟨hpos, hle⟩ := not_or.mp hrange
        unfold parseU64 at hn
        split_ifs at hn with hparse
        obtain rfl := Option.some.inj hn
        have hsize := (decimal_number hparse.1 (List.all_eq_true.mp hparse.2.1) hzero).1
        refine ⟨validator, ⟨hlength, List.all_eq_true.mp hhex, Nat.pos_of_ne_zero hpos, not_lt.mp hle⟩, ?_, ?_, rfl⟩
        · rw [storable_iff_valid]
          by_cases hv : validator = []
          · exact Or.inl hv
          · exact Or.inr (hvalid hv)
        · rw [recordText_eq, hsize, ← hsplit, List.intercalate_splitOn]
          exact stripSuffix_eq_some.mp htext
      · cases h
    · cases h
  · rintro ⟨validator, hn, hv, rfl, hvalidator⟩
    obtain ⟨hl, hascii⟩ := hn.lines hv
    have hstrip : (stripSuffix [newline] (recordText value.sha256 value.size validator)).map (·.splitOn newline) =
        some [ascii "hamn-download 1", value.sha256, decimal value.size, validator] := by
      rw [stripSuffix_eq_some.mpr (recordText_eq value.sha256 value.size validator), Option.map_some,
        List.splitOn_intercalate newline hl (List.cons_ne_nil _ _)]
    obtain ⟨hall, -, hzero, -, -⟩ := decimal_spec hn.pos
    have hgood : ¬ (ascii "hamn-download 1" ≠ ascii "hamn-download 1" ∨ value.sha256.length ≠ 64 ∨
        value.sha256.all isLowerHex = false ∨ (decimal value.size).head? = some (byte '0') ∨
        (decimal value.size).all isDecimal = false ∨ (validator ≠ [] ∧ validValidator validator = false)) := by
      rintro (h | h | h | h | h | h)
      · exact h rfl
      · exact h hn.length
      · rw [List.all_eq_true.mpr hn.hex] at h
        cases h
      · exact hzero h
      · rw [List.all_eq_true.mpr hall] at h
        cases h
      · rcases storable_iff_valid.mp hv with hv | hv
        · exact h.1 hv
        · rw [hv] at h
          cases h.2
    have hrange : ¬ (value.size = 0 ∨ GUEST_LIMIT < value.size) := by
      have := hn.pos
      have := hn.le
      omega
    unfold partialMetadata
    rw [if_neg (by rw [Utf8.valid_of_ascii hascii]; decide), hstrip]
    simp only
    rw [if_neg hgood, parseU64_decimal hn]
    simp only
    rw [if_neg hrange]
    exact congrArg some (by cases value; simp only [PartialMetadata.mk.injEq, true_and]; exact hvalidator.symm)

/-- Whatever the file holds, both programs take the same validator from it, or both take none. -/
theorem savedValidator_eq (h : Named key size) (bytes : Bytes) :
    savedValidator key size bytes = (zshValidator key size bytes).map asOption := by
  unfold savedValidator
  split_ifs with hlen
  · rw [zshValidator, if_pos hlen]
    rfl
  · cases hz : zshValidator key size bytes with
    | some validator =>
      obtain ⟨rfl, hv⟩ := (zshValidator_eq_some h).mp hz
      have hp : partialMetadata (recordText key size validator) = some ⟨key, size, asOption validator⟩ :=
        partialMetadata_eq_some.mpr ⟨validator, h, hv, rfl, rfl⟩
      have hall : (asOption validator).all validValidator = true := by
        unfold asOption
        split_ifs with hnil
        · rfl
        · exact (storable_iff_valid.mp hv).resolve_left hnil
      rw [hp]
      exact if_pos ⟨rfl, rfl, hall⟩
    | none =>
      cases hp : partialMetadata bytes with
      | none => rfl
      | some saved =>
        obtain ⟨validator, hn, hv, rfl, hvalidator⟩ := partialMetadata_eq_some.mp hp
        refine if_neg ?_
        rintro ⟨rfl, rfl, -⟩
        rw [(zshValidator_eq_some h).mpr ⟨rfl, hv⟩] at hz
        cases hz

/-- What either writes is what both read. -/
theorem recordText_read (h : Named key size) {validator : Bytes} (hv : storable validator = true) :
    zshValidator key size (recordText key size validator) = some validator ∧
      partialMetadata (recordText key size validator) = some ⟨key, size, asOption validator⟩ ∧
      savedValidator key size (recordText key size validator) = some (asOption validator) := by
  have hz := (zshValidator_eq_some h).mpr ⟨(rfl : recordText key size validator = _), hv⟩
  refine ⟨hz, partialMetadata_eq_some.mpr ⟨validator, h, hv, rfl, rfl⟩, ?_⟩
  rw [savedValidator_eq h, hz]
  rfl

/-- `save_partial_metadata` accepts what it is given. -/
theorem PartialMetadata.text_eq (h : Named key size) {validator : Bytes} (hv : storable validator = true) :
    PartialMetadata.text ⟨key, size, asOption validator⟩ = some (recordText key size validator) := by
  unfold PartialMetadata.text
  rw [asOption_getD]
  exact if_pos (recordText_read h hv).2.1

end

-- what `wp` says of a process that saves metadata would otherwise be computed
attribute [irreducible] PartialMetadata.text

end Hamn.Download
