import Hamn.Guest.Digest
import Hamn.Guest.JsonBuild
import Hamn.Guest.PackageInventory

/-!
# ImageUtil — what the image tools share (`guest/image/image_util.c`, `sha256_file` of `digest.c`)

Files are found under their paths; a symbolic link leads to a path.  Allocations and the system calls on files that are
there succeed, a temporary file is gone when its writer returns, and messages are not cut to their buffer.

* `Content`: the bytes of a file, whose number is an `off_t`.
* `checked`: a result of signed arithmetic, which is undefined where it does not fit.
* `fileDigest_hex`: what `sha256_file` writes are 64 lower hexadecimal digits.
* `imageRequiredSavings_eq`: the savings of a size that fits are computed without overflow.
-/

open Bytes Result

namespace Hamn.SizeGate

open StrictJson

/-! ## Model -/

inductive Failure where
  | message (text : Bytes)
  /-- A signed operation whose result is out of range. -/
  | overflow
  deriving DecidableEq

def imageFail {α : Type} (text : String) : Except Failure α := .error (.message (Utf8.text text.toList))

def imageFailErrno {α : Type} (what path reason : String) : Except Failure α :=
  imageFail (what ++ ": " ++ path ++ ": " ++ reason)

/-- The bytes of a file. -/
abbrev Content := {bytes : Bytes // bytes.length < 2 ^ 63}

inductive Entry where
  | regular (content : Content)
  | symlink (target : String)
  | directory

abbrev Files := String → Option Entry

/-- The entry behind the symbolic links, of which `n` are followed. -/
def follow (files : Files) : ℕ → String → Except String Entry
  | 0, _ => .error "Too many levels of symbolic links"
  | n + 1, path =>
    match files path with
    | none => .error "No such file or directory"
    | some (.symlink target) => follow files n target
    | some entry => .ok entry

def SYMLOOP_MAX : ℕ := 40

def fileEntry (files : Files) (path : String) : Except String Entry := follow files (SYMLOOP_MAX + 1) path

/-- `file_size`; a directory has no bytes here. -/
def fileSize (files : Files) (path : String) : Except Failure ℤ :=
  match fileEntry files path with
  | .error reason => imageFailErrno "cannot inspect" path reason
  | .ok (.regular content) => .ok content.val.length
  | .ok _ => .ok 0

/-- Opening and reading to the end. -/
def readContent (files : Files) (path : String) : Except Failure Content :=
  match fileEntry files path with
  | .error reason => imageFailErrno "cannot open" path reason
  | .ok (.regular content) => .ok content
  | .ok _ => imageFailErrno "cannot read" path "Is a directory"

/-- Regular file that is not itself a symlink. -/
def regularNotSymlink (files : Files) (path : String) : Bool :=
  match files path with
  | some (.regular _) => true
  | _ => false

def imageReadFile (files : Files) (path : String) (limit : ℕ) : Except Failure Content := do
  let content ← readContent files path
  if limit < content.val.length then imageFail ("file is larger than " ++ toString limit ++ " bytes: " ++ path)
  else .ok content

def imageReadJson (finite : Bytes → Bool) (files : Files) (path : String) : Except Failure JsonValue := do
  let text ← imageReadFile files path IMAGE_JSON_MAX_BYTES
  (jsonParse finite text.val).mapError fun error => .message error.message

/-- Writes through a temporary file and `rename`. -/
def imageWriteFile (files : Files) (path : String) (bytes : Bytes) : Except Failure Files :=
  if h : bytes.length < 2 ^ 63 then
    match files path with
    | some .directory => imageFailErrno "cannot write" path "Is a directory"
    | _ => .ok (Function.update files path (some (.regular ⟨bytes, h⟩)))
  else imageFailErrno "cannot write" path "File too large"

def imageWriteJson {D : Type} (libc : Libc D) (files : Files) (path : String) (value : JsonValue) :
    Except Failure Files :=
  match jsonDump libc value false with
  | .ok text => imageWriteFile files path (text ++ [10])
  | .error _ => imageFail ("cannot serialize " ++ path)

def imageLowerHex (digits : ℕ) (text : Bytes) : Bool := text.length == digits && text.all isLowerHex

def imageJsonLowerHex (digits : ℕ) : Option JsonValue → Bool
  | some (.string text) => imageLowerHex digits text
  | _ => false

def DIGEST_READ_BYTES : ℕ := 1024 * 1024

/-- `sha256_file` on what it reads: the text before the NUL. -/
def fileDigest (content : Content) : Bytes :=
  let context := (content.val.toChunks DIGEST_READ_BYTES).foldl Digest.sha256Update (Digest.sha256Init Digest.blank)
  (Digest.sha256Hex (Digest.sha256Final context).1).takeWhile (· ≠ 0)

def sha256File (files : Files) (path : String) : Except Failure Bytes := do
  let content ← readContent files path
  return fileDigest content

/-- A signed 64-bit result. -/
def checked (z : ℤ) : Except Failure ℤ := if -2 ^ 63 ≤ z ∧ z < 2 ^ 63 then .ok z else .error .overflow

def IMAGE_VIRTUAL_BYTES : ℤ := 8 * 1024 * 1024 * 1024
def IMAGE_RELEASE_ASSET_LIMIT : ℤ := 2 * 1024 * 1024 * 1024
def IMAGE_MINIMUM_SAVINGS : ℤ := 64 * 1024 * 1024

/-- max(64 MiB, ceil(5% of BASELINE)), the minimum accepted cleanup savings. -/
def imageRequiredSavings (baseline : ℤ) : Except Failure ℤ := do
  let percent ← checked (baseline.tdiv 20 + if baseline.tmod 20 ≠ 0 then 1 else 0)
  return if percent > IMAGE_MINIMUM_SAVINGS then percent else IMAGE_MINIMUM_SAVINGS

/-! ## Digests -/

theorem length_sha256Final (context : Digest.Context) : (Digest.sha256Final context).1.length = 32 := by
  unfold Digest.sha256Final
  simp [Sha2.Hash.words]

theorem lowerHex_hex (digest : Bytes) : (Sha2.hex digest).all isLowerHex = true := by
  have hdigit : ∀ n < 16, isLowerHex (Sha2.hexDigit n) = true := by decide
  rw [List.all_eq_true]
  intro c hc
  obtain ⟨d, -, hd⟩ := List.mem_flatMap.mp hc
  have hlt : d.toNat < 256 := d.toNat_lt
  rcases List.mem_pair.mp hd with rfl | rfl
  · exact hdigit _ (by omega)
  · exact hdigit _ (by omega)

theorem length_hex (digest : Bytes) : (Sha2.hex digest).length = 2 * digest.length := by
  unfold Sha2.hex
  induction digest with
  | nil => rfl
  | cons d digest ih =>
    rw [List.flatMap_cons, List.length_append, ih, List.length_cons]
    simp only [List.length_cons, List.length_nil]
    omega

theorem lowerHex_ne_zero {c : UInt8} (h : isLowerHex c = true) : c ≠ 0 := by
  rintro rfl
  exact absurd h (by decide)

/-- The text of a digest, before its NUL. -/
theorem takeWhile_sha256Hex (digest : Bytes) : (Digest.sha256Hex digest).takeWhile (· ≠ 0) = Sha2.hex digest := by
  rw [Digest.sha256Hex_eq, List.takeWhile_append_of_pos]
  · simp
  · intro c hc
    exact decide_eq_true (lowerHex_ne_zero (List.all_eq_true.mp (lowerHex_hex digest) c hc))

theorem fileDigest_hex (content : Content) : imageLowerHex 64 (fileDigest content) = true := by
  unfold fileDigest
  dsimp only
  rw [takeWhile_sha256Hex]
  unfold imageLowerHex
  rw [lowerHex_hex, length_hex, length_sha256Final]
  rfl

/-- ASCII bytes are a text. -/
theorem exists_text {b : Bytes} (h : ∀ c ∈ b, c.toNat < 0x80) : ∃ cs, b = Utf8.text cs := by
  induction b with
  | nil => exact ⟨[], rfl⟩
  | cons c b ih =>
    rw [List.forall_mem_cons] at h
    obtain ⟨cs, rfl⟩ := ih h.2
    have hc : (Char.ofNat c.toNat).toNat = c.toNat := by
      rw [Char.ofNat, dif_pos (.inl (by omega))]
      rfl
    refine ⟨Char.ofNat c.toNat :: cs, ?_⟩
    rw [text_ascii (by rw [hc]; exact h.1), byte_ofNat h.1, UInt8.ofNat_toNat]

/-! ## Savings -/

theorem checked_eq {z : ℤ} (h : -2 ^ 63 ≤ z ∧ z < 2 ^ 63) : checked z = .ok z := if_pos h

/-- The savings that are required: 64 MiB or 5 percent, rounded up. -/
def requiredSavings (baseline : ℤ) : ℤ := max IMAGE_MINIMUM_SAVINGS ((baseline + 19) / 20)

/-- No overflow. -/
theorem imageRequiredSavings_eq {baseline : ℤ} (hpos : 0 ≤ baseline) (hlt : baseline < 2 ^ 63) :
    imageRequiredSavings baseline = .ok (requiredSavings baseline) := by
  have hpercent : baseline.tdiv 20 + (if baseline.tmod 20 ≠ 0 then 1 else 0) = (baseline + 19) / 20 := by
    rw [Int.tdiv_eq_ediv_of_nonneg hpos, Int.tmod_eq_emod_of_nonneg hpos]
    split_ifs <;> omega
  unfold imageRequiredSavings requiredSavings
  rw [hpercent, checked_eq (by omega), ok_bind]
  show Except.ok _ = Except.ok _
  congr 1
  rcases lt_or_ge IMAGE_MINIMUM_SAVINGS ((baseline + 19) / 20) with h | h
  · rw [if_pos h, max_eq_right h.le]
  · rw [if_neg (not_lt.mpr h), max_eq_left h]

end Hamn.SizeGate
