import Hamn.Install.Partial

/-!
# Install.Headers — the headers of an answer (`install_support/download.rs`, `release/install.sh.in`)

`curl` dumps the headers of every response, redirects included, line by line.  The script reads them with `awk`, the
native downloader by itself.

* `zshResponse`: status, range and validator as the script reads them.
* `responseHeaders`, `validator`, `validRange`: as the native downloader reads them.
* `Says`: the last response has a status; `Says.zsh` and `Says.native`: both read it.
-/

namespace Hamn.Download

open Bytes

def lowerByte (c : UInt8) : UInt8 := if 65 ≤ c ∧ c ≤ 90 then c + 32 else c

def lower (b : Bytes) : Bytes := b.map lowerByte

def isStatusLine (line : Bytes) : Bool := (ascii "HTTP/").isPrefixOf line

/-- A line without the carriage return at its end. -/
def chop (line : Bytes) : Bytes := (stripSuffix [13] line).getD line

/-- The second of the words between which `blank` bytes stand. -/
def secondWord (blank : UInt8 → Bool) (line : Bytes) : Bytes :=
  (((line.dropWhile (!blank ·)).dropWhile blank).takeWhile (!blank ·))

/-! ## The script -/

structure ZshResponse where
  status : Bytes
  range : Bytes
  etag : Bytes
  modified : Bytes
  deriving DecidableEq, Repr

namespace ZshResponse

/-- The value of the field, where the line is one of that name. -/
def field (name : String) (line : Bytes) : Option Bytes :=
  if (ascii name ++ ascii ":").isPrefixOf (lower line) then
    some ((line.drop (ascii name ++ ascii ":").length).dropWhile (· = byte ' '))
  else none

/-- The rules of the `awk` program. -/
def line (r : ZshResponse) (text : Bytes) : ZshResponse :=
  let r := if isStatusLine text then ⟨secondWord (fun c => c = 9 || c = 32) text, [], [], []⟩ else r
  let text := chop text
  { r with
    range := (field "content-range" text).getD r.range
    etag := (field "etag" text).getD r.etag
    modified := (field "last-modified" text).getD r.modified }

/-- `next_validator`. -/
def validator (r : ZshResponse) : Bytes := if r.etag ≠ [] then r.etag else r.modified

end ZshResponse

def zshResponse (lines : List Bytes) : ZshResponse := lines.foldl ZshResponse.line ⟨[], [], [], []⟩

/-! ## The native downloader -/

/-- `char::is_whitespace` on the first 256 characters. -/
def isWhitespace (c : UInt8) : Bool := (9 ≤ c && c ≤ 13) || c = 32 || c = 0x85 || c = 0xa0

def trim (b : Bytes) : Bytes := (b.dropWhile isWhitespace).rdropWhile isWhitespace

/-- A string as a `u16`. -/
def parseU16 (text : Bytes) : Option ℕ :=
  let digits := (stripPrefix (ascii "+") text).getD text
  if digits ≠ [] ∧ digits.all isDecimal ∧ number digits < 2 ^ 16 then some (number digits) else none

structure Headers where
  status : ℕ
  /-- The last of a name first. -/
  fields : List (Bytes × Bytes)
  deriving DecidableEq, Repr

namespace Headers

def line (h : Headers) (text : Bytes) : Option Headers :=
  if isStatusLine text then (parseU16 (secondWord isWhitespace text)).map fun status => ⟨status, []⟩
  else
    match splitOnce (byte ':') text with
    | some (name, value) => some { h with fields := (lower name, trim value) :: h.fields }
    | none => some h

def get (h : Headers) (name : String) : Option Bytes := h.fields.lookup (ascii name)

end Headers

/-- `response_headers`. -/
def responseHeaders (lines : List Bytes) : Option Headers := (lines.map chop).foldlM Headers.line ⟨0, []⟩

/-- `validator`. -/
def validator (headers : Headers) : Option Bytes :=
  ((headers.get "etag").or (headers.get "last-modified")).filter validValidator

/-- `valid_range`. -/
def validRange (headers : Headers) (offset expected : ℕ) : Bool :=
  match (headers.get "content-range").bind (stripPrefix (ascii "bytes ")) with
  | none => false
  | some value =>
    match splitOnce (byte '/') value with
    | none => false
    | some (range, total) =>
      match splitOnce (byte '-') range with
      | none => false
      | some (start, stop) =>
        headers.status == 206 && [start, stop, total].all (fun text => text != [] && text.all isDecimal) &&
          parseU64 start == some offset && parseU64 total == some expected &&
          (parseU64 stop).map (· + 1) == some expected

/-! ## What the last response says -/

/-- A status line as HTTP has it: the version, the status and a reason that can be empty, each after a space. -/
def StatusLine (status : ℕ) (line : Bytes) : Prop :=
  ∃ version reason, line = ascii "HTTP/" ++ version ++ byte ' ' :: (decimal status ++ byte ' ' :: reason) ∧
    (∀ c ∈ version, 33 ≤ c.toNat ∧ c.toNat ≤ 126) ∧ 100 ≤ status ∧ status ≤ 999

/-- The last of the responses has this status. -/
def Says (lines : List Bytes) (status : ℕ) : Prop :=
  ∃ before line after, lines = before ++ line :: after ∧ StatusLine status line ∧
    (∀ l ∈ before, isStatusLine l = true → ∃ other, StatusLine other l) ∧ ∀ l ∈ after, isStatusLine l = false

section

variable {status : ℕ} {line : Bytes}

theorem StatusLine.isStatusLine (h : StatusLine status line) : isStatusLine line = true := by
  obtain ⟨version, reason, rfl, -⟩ := h
  rw [Download.isStatusLine, List.isPrefixOf_iff_prefix, List.append_assoc]
  exact List.prefix_append _ _

/-- The second word, for any blanks that no byte of the version and no digit is. -/
theorem StatusLine.secondWord (h : StatusLine status line) (blank : UInt8 → Bool) (hspace : blank (byte ' ') = true)
    (hother : ∀ c : UInt8, 33 ≤ c.toNat → c.toNat ≤ 126 → blank c = false) :
    secondWord blank line = decimal status := by
  obtain ⟨version, reason, rfl, hversion, hlow, -⟩ := h
  obtain ⟨hall, hne, -⟩ := decimal_spec (n := status) (by omega)
  have hdigits : ∀ c ∈ decimal status, blank c = false := by
    intro c hc
    obtain ⟨h1, h2⟩ := isDecimal_iff.mp (hall c hc)
    exact hother c (by omega) (by omega)
  have hfirst : ∀ c ∈ ascii "HTTP/" ++ version, (!blank c) = true := by
    intro c hc
    rw [Bool.not_eq_true']
    rcases List.mem_append.mp hc with hc | hc
    · have : ∀ c ∈ ascii "HTTP/", 33 ≤ c.toNat ∧ c.toNat ≤ 126 := by decide +kernel
      exact hother c (this c hc).1 (this c hc).2
    · exact hother c (hversion c hc).1 (hversion c hc).2
  obtain ⟨d, ds, hd⟩ := List.exists_cons_of_ne_nil hne
  unfold Download.secondWord
  rw [List.dropWhile_append_of_pos hfirst, List.dropWhile_cons_of_neg (by simp [hspace]),
    List.dropWhile_cons_of_pos hspace, hd, List.cons_append,
    List.dropWhile_cons_of_neg (by rw [hdigits d (hd ▸ List.mem_cons_self)]; decide), ← List.cons_append, ← hd,
    List.takeWhile_append_of_pos (fun c hc => by rw [hdigits c hc]; rfl), List.takeWhile_cons_of_neg (by simp [hspace]),
    List.append_nil]

theorem chop_eq (line : Bytes) : chop line = line ∨ line = chop line ++ [13] := by
  unfold chop
  cases h : stripSuffix [13] line with
  | none => exact Or.inl rfl
  | some l => exact Or.inr (stripSuffix_eq_some.mp h)

/-- The carriage return belongs to the reason. -/
theorem StatusLine.chop (h : StatusLine status line) : StatusLine status (chop line) := by
  obtain ⟨version, reason, hline, hversion, hstatus⟩ := h
  rcases chop_eq line with hc | hc
  · exact ⟨version, reason, hc.trans hline, hversion, hstatus⟩
  · obtain rfl | ⟨reason, c, rfl⟩ := List.eq_nil_or_concat' reason
    · -- the line ends with a space
      have hend : Download.chop line ++ [13] = (ascii "HTTP/" ++ version ++ byte ' ' :: decimal status) ++ [byte ' '] := by
        rw [← hc, hline]
        simp
      exact absurd (List.append_inj' hend rfl).2 (by decide)
    · refine ⟨version, reason, ?_, hversion, hstatus⟩
      have hend : Download.chop line ++ [13] =
          (ascii "HTTP/" ++ version ++ byte ' ' :: (decimal status ++ byte ' ' :: reason)) ++ [c] := by
        rw [← hc, hline]
        simp
      exact (List.append_inj' hend rfl).1

theorem isStatusLine_chop (line : Bytes) : isStatusLine (chop line) = isStatusLine line := by
  rcases chop_eq line with h | h
  · rw [h]
  · rw [Bool.eq_iff_iff, isStatusLine, isStatusLine, List.isPrefixOf_iff_prefix, List.isPrefixOf_iff_prefix]
    constructor
    · intro hp
      rw [h]
      exact hp.trans (List.prefix_append _ _)
    · intro hp
      rw [h] at hp
      rcases List.prefix_concat_iff.mp hp with heq | hp
      · -- the last byte of the name of the protocol is no carriage return
        have := congrArg List.getLast? heq
        rw [List.getLast?_concat] at this
        exact absurd this (by decide)
      · exact hp

/-- Fields leave the status as it is. -/
theorem ZshResponse.foldl_status {lines : List Bytes} (h : ∀ l ∈ lines, isStatusLine l = false) (r : ZshResponse) :
    (lines.foldl ZshResponse.line r).status = r.status := by
  induction lines generalizing r with
  | nil => rfl
  | cons l lines ih =>
    rw [List.foldl_cons, ih (fun l' hl => h l' (List.mem_cons_of_mem _ hl))]
    simp only [ZshResponse.line, h l List.mem_cons_self, Bool.false_eq_true, if_false]

theorem Says.zsh {lines : List Bytes} (h : Says lines status) : (zshResponse lines).status = decimal status := by
  obtain ⟨before, line, after, rfl, hline, -, hafter⟩ := h
  rw [zshResponse, List.foldl_append, List.foldl_cons, ZshResponse.foldl_status hafter]
  simp only [ZshResponse.line, hline.isStatusLine, if_true]
  refine hline.secondWord _ (by decide) fun c h1 _ => ?_
  have h9 : c ≠ 9 := by rintro rfl; exact absurd h1 (by decide)
  have h32 : c ≠ 32 := by rintro rfl; exact absurd h1 (by decide)
  simp [h9, h32]

theorem isWhitespace_graphic {c : UInt8} (h1 : 33 ≤ c.toNat) (h2 : c.toNat ≤ 126) : isWhitespace c = false := by
  have hne : ∀ d : UInt8, d.toNat < 33 ∨ 126 < d.toNat → c ≠ d := by
    rintro d hd rfl
    omega
  have h13 : ¬ c ≤ 13 := by
    rw [UInt8.le_iff_toNat_le]
    change ¬ c.toNat ≤ 13
    omega
  simp [isWhitespace, h13, hne 32 (by decide), hne 0x85 (by decide), hne 0xa0 (by decide)]

theorem StatusLine.native (h : StatusLine status line) (r : Headers) : r.line line = some ⟨status, []⟩ := by
  have hword := h.secondWord isWhitespace (by decide) fun c => isWhitespace_graphic
  have hstatus := h.isStatusLine
  obtain ⟨-, -, -, -, hlow, hhigh⟩ := h
  obtain ⟨hall, hne, -, hnumber, -⟩ := decimal_spec (n := status) (by omega)
  have hplus : stripPrefix (ascii "+") (decimal status) = none := by
    cases hp : stripPrefix (ascii "+") (decimal status) with
    | none => rfl
    | some rest =>
      have := hall (byte '+') (by rw [stripPrefix_eq_some.mp hp]; exact List.mem_cons_self)
      exact absurd this (by decide)
  unfold Headers.line
  rw [if_pos hstatus, hword]
  unfold parseU16
  simp only [hplus, Option.getD_none, hnumber]
  rw [if_pos ⟨hne, List.all_eq_true.mpr hall, by omega⟩]
  rfl

theorem Headers.foldlM_status (lines : List Bytes) (h : ∀ l ∈ lines, isStatusLine l = false) (r : Headers) :
    ∃ r', lines.foldlM Headers.line r = some r' ∧ r'.status = r.status := by
  induction lines generalizing r with
  | nil => exact ⟨r, rfl, rfl⟩
  | cons l lines ih =>
    obtain ⟨r1, h1, hr1⟩ : ∃ r1, r.line l = some r1 ∧ r1.status = r.status := by
      unfold Headers.line
      rw [if_neg (by rw [h l List.mem_cons_self]; decide)]
      split
      · exact ⟨_, rfl, rfl⟩
      · exact ⟨_, rfl, rfl⟩
    obtain ⟨r', h', hr'⟩ := ih (fun l' hl => h l' (List.mem_cons_of_mem _ hl)) r1
    exact ⟨r', by rw [List.foldlM_cons, h1]; exact h', hr'.trans hr1⟩

theorem Headers.foldlM_some {lines : List Bytes} (h : ∀ l ∈ lines, isStatusLine l = true → ∃ other, StatusLine other l)
    (r : Headers) : ∃ r', lines.foldlM Headers.line r = some r' := by
  induction lines generalizing r with
  | nil => exact ⟨r, rfl⟩
  | cons l lines ih =>
    obtain ⟨r1, h1⟩ : ∃ r1, r.line l = some r1 := by
      by_cases hl : isStatusLine l = true
      · obtain ⟨other, hother⟩ := h l List.mem_cons_self hl
        exact ⟨_, hother.native r⟩
      · unfold Headers.line
        rw [if_neg hl]
        split
        · exact ⟨_, rfl⟩
        · exact ⟨_, rfl⟩
    obtain ⟨r', h'⟩ := ih (fun l' hl => h l' (List.mem_cons_of_mem _ hl)) r1
    exact ⟨r', by rw [List.foldlM_cons, h1]; exact h'⟩

theorem Says.native {lines : List Bytes} (h : Says lines status) :
    ∃ headers, responseHeaders lines = some headers ∧ headers.status = status := by
  obtain ⟨before, line, after, rfl, hline, hbefore, hafter⟩ := h
  obtain ⟨r1, h1⟩ : ∃ r1, (before.map chop).foldlM Headers.line ⟨0, []⟩ = some r1 := by
    refine Headers.foldlM_some (fun l hl hs => ?_) _
    obtain ⟨l0, hl0, rfl⟩ := List.mem_map.mp hl
    obtain ⟨other, hother⟩ := hbefore l0 hl0 (by rwa [isStatusLine_chop] at hs)
    exact ⟨other, hother.chop⟩
  obtain ⟨r', h', hr'⟩ := Headers.foldlM_status (after.map chop) (fun l hl => by
    obtain ⟨l0, hl0, rfl⟩ := List.mem_map.mp hl
    rw [isStatusLine_chop]
    exact hafter l0 hl0) ⟨status, []⟩
  refine ⟨r', ?_, hr'⟩
  rw [responseHeaders, List.map_append, List.map_cons, List.foldlM_append, h1]
  change ((r1.line (chop line)).bind fun r => (after.map chop).foldlM Headers.line r) = some r'
  rw [hline.chop.native r1]
  exact h'

end

end Hamn.Download
