import Hamn.Lib.Bytes
import Hamn.Lib.Search

/-!
# LogRedaction — the logs of a diagnostics archive

Models `redact_log_text`, `read_log_tail` and what they use of `src/host/cmd/cmd_diagnostics.c`.  A line is replaced for
what it holds, or because a private key or a sensitive section that an earlier line began still covers it.

* `State.enter`, `State.hides`, `State.leave`: one line.
* `hidden_iff`: the lines that are replaced, by the lines that cover them.
* `Covers`: from which line on a line is covered.  The tail of a log starts with no line covered, so what covers a line
  from before the cut is lost (`redactLines_tail_iff`).
-/

namespace Hamn.Host.LogRedaction

open Bytes

def DIAGNOSTIC_LOG_TAIL_BYTES : ℕ := 128 * 1024

/-! ## Lines -/

/-- The lines that the loop of `redact_log_text` finds: a newline at the end starts no other line. -/
def textLines : Bytes → List Bytes
  | [] => []
  | c :: text =>
    if c = newline then [] :: textLines text
    else
      match textLines text with
      | [] => [[c]]
      | line :: rest => (c :: line) :: rest

inductive Mode where
  | text
  /-- After an escape byte, which is dropped. -/
  | escape
  | sequence
  deriving DecidableEq

/-- The line without escape sequences and control bytes. -/
def cleanFrom (mode : Mode) : Bytes → Bytes
  | [] => []
  | c :: rest =>
    if mode = .sequence then cleanFrom (if 64 ≤ c ∧ c ≤ 126 then .text else .sequence) rest
    else if mode = .escape ∧ c = 91 then cleanFrom .sequence rest
    else if c = 27 then cleanFrom .escape rest
    else if c < 32 ∧ c ≠ 9 ∧ c ≠ 13 then cleanFrom .text rest
    else c :: cleanFrom .text rest

def clean (line : Bytes) : Bytes := cleanFrom .text line

def isLower (c : UInt8) : Bool := 97 ≤ c && c ≤ 122

def isUpper (c : UInt8) : Bool := 65 ≤ c && c ≤ 90

def toLower (c : UInt8) : UInt8 := if isUpper c then c + 32 else c

def startsCi (text word : Bytes) : Bool := (word.map toLower).isPrefixOf (text.map toLower)

def containsCi (text needle : Bytes) : Bool := text.tails.any fun t => startsCi t needle

def isBlank (c : UInt8) : Bool := c = 32 || c = 9

def lineStartsField (line field : Bytes) : Bool :=
  let line := line.dropWhile fun c => isBlank c || c = 45
  let quoted := line.head? = some 34
  let line := if quoted then line.tail else line
  if startsCi line field then
    let line := line.drop field.length
    if quoted then
      match line with
      | 34 :: line => (line.dropWhile isBlank).head? = some 58
      | _ => false
    else (line.dropWhile isBlank).head? = some 58
  else false

def SECTION_FIELDS : List Bytes :=
  ["data", "stringData", "binaryData", "env", "envFrom", "args", "command", "clusters", "users", "token", "accessToken",
    "access_token", "refreshToken", "refresh_token", "secret", "password", "passwd", "credential", "client-key",
    "client_key", "client-certificate-data", "certificate-authority-data", "authorization", "cookie"].map ascii

def lineStartsSensitiveSection (line : Bytes) : Bool := SECTION_FIELDS.any (lineStartsField line)

/-- A byte of an encoded value: letters, digits, `_`, `-`, `+`, the slash and `=`. -/
def isEncoding (c : UInt8) : Bool := isAlphanumeric c || ([95, 45, 43, 47, 61] : Bytes).contains c

def isHexadecimal (c : UInt8) : Bool := isLowerHex c || (65 ≤ c && c ≤ 70)

def containsHighEntropyValue (line : Bytes) : Bool :=
  (line.splitOnP fun c => !(isEncoding c || c = 46)).any fun token =>
    32 ≤ token.length &&
      (token.any isLower && token.any isUpper && token.any isDecimal || token.all isHexadecimal || token.all isEncoding)

def bootstrapTokenCharacter (c : UInt8) : Bool := isLower c || isDecimal c

/-- Six characters, a dot and sixteen characters that stand for themselves. -/
def containsKubernetesBootstrapToken (line : Bytes) : Bool :=
  (List.range line.length).any fun offset =>
    let token := line.drop offset
    23 ≤ token.length &&
      !(0 < offset && (line.getD (offset - 1) 0 |> bootstrapTokenCharacter)) &&
      (token.take 6).all bootstrapTokenCharacter && token.getD 6 0 = 46 &&
      ((token.drop 7).take 16).all bootstrapTokenCharacter &&
      !((token.drop 23).head?.any bootstrapTokenCharacter)

def MARKERS : List Bytes :=
  ["authorization", "bearer", "token", "secret", "password", "passwd", "credential", "client-key", "client_key",
    "client-certificate-data", "certificate-authority-data", "private key", "access_key", "access-key", "api_key",
    "apikey", "cookie", "kubeconfig", "current-context", "-----begin", "aws_secret_access_key", "akia", "asia"].map ascii

/-- A URL with a user: what follows the first `://` holds an `@`. -/
def containsUserUrl (line : Bytes) : Bool :=
  match Search.after (ascii "://") line with
  | none => false
  | some rest => rest.contains 64

def lineHasSensitiveMarker (line : Bytes) : Bool :=
  MARKERS.any (containsCi line) || containsUserUrl line || (containsCi line (ascii "eyj") && line.contains 46) ||
    containsKubernetesBootstrapToken line || containsHighEntropyValue line

def indentation (line : Bytes) : ℕ := (line.takeWhile isBlank).length

def hasContent (line : Bytes) : Bool := indentation line < line.length

def privateKeyStart (line : Bytes) : Bool :=
  containsCi line (ascii "-----begin") && containsCi line (ascii "private key-----")

def privateKeyEnd (line : Bytes) : Bool :=
  containsCi line (ascii "-----end") && containsCi line (ascii "private key-----")

/-- The line is sensitive by itself. -/
def ownReason (line : Bytes) : Bool :=
  lineHasSensitiveMarker line || (containsCi line (ascii "kind") && containsCi line (ascii "secret"))

/-! ## The code -/

structure State where
  sensitiveSectionIndent : ℤ := -1
  privateKeyBlock : Bool := false
  deriving DecidableEq

/-- The state in which a line is judged. -/
def State.enter (s : State) (line : Bytes) : State :=
  let indent :=
    if 0 ≤ s.sensitiveSectionIndent ∧ hasContent line = true ∧ (indentation line : ℤ) ≤ s.sensitiveSectionIndent then -1
    else s.sensitiveSectionIndent
  { privateKeyBlock := s.privateKeyBlock || privateKeyStart line
    sensitiveSectionIndent := if lineStartsSensitiveSection line then toInt (indentation line) else indent }

def State.hides (s : State) (line : Bytes) : Bool :=
  s.privateKeyBlock || decide (0 ≤ s.sensitiveSectionIndent) || ownReason line

def State.leave (s : State) (line : Bytes) : State := { s with privateKeyBlock := s.privateKeyBlock && !privateKeyEnd line }

/-- What is written for each of the lines; nothing for a line that is replaced. -/
def redactLines (s : State) : List Bytes → List (Option Bytes)
  | [] => []
  | raw :: rest =>
    let line := clean raw
    (if (s.enter line).hides line then none else some line) :: redactLines ((s.enter line).leave line) rest

def written : Option Bytes → Bytes
  | none => ascii "[REDACTED sensitive log line]\n"
  | some line => line ++ [newline]

def redactLogText (text : Bytes) : Bytes :=
  let output := (redactLines {} (textLines text)).flatMap written
  if output = [] then ascii "(empty log)\n" else output

/-- The part of the log that is redacted: a log that is too long starts after the first newline of its last bytes. -/
def logTail (text : Bytes) : Option Bytes :=
  if text.length ≤ DIAGNOSTIC_LOG_TAIL_BYTES then some text
  else (splitOnce newline (text.drop (text.length - DIAGNOSTIC_LOG_TAIL_BYTES))).map Prod.snd

/-- What the archive holds of a log, if it can be read. -/
def readLogTail (log : Option Bytes) : Bytes :=
  match log with
  | none => ascii "(log unavailable)\n"
  | some text =>
    match logTail text with
    | none => ascii "[REDACTED truncated log line]\n"
    | some tail => redactLogText tail

/-! ## What covers a line -/

/-- A private key that starts in line `j` covers line `i`. -/
def KeyCovers (line : ℕ → Bytes) (j i : ℕ) : Prop :=
  j ≤ i ∧ privateKeyStart (line j) = true ∧ ∀ k, j ≤ k → k < i → privateKeyEnd (line k) = false

/-- A section that starts in line `j` covers line `i`: no other one starts, and every line is indented more. -/
def SectionCovers (line : ℕ → Bytes) (j i : ℕ) : Prop :=
  j ≤ i ∧ lineStartsSensitiveSection (line j) = true ∧ 0 ≤ toInt (indentation (line j)) ∧
    ∀ k, j < k → k ≤ i → lineStartsSensitiveSection (line k) = false ∧
      (hasContent (line k) = true → toInt (indentation (line j)) < indentation (line k))

def Covers (line : ℕ → Bytes) (j i : ℕ) : Prop := KeyCovers line j i ∨ SectionCovers line j i

/-- The state before line `i`. -/
def stateFrom (s : State) (line : ℕ → Bytes) : ℕ → State
  | 0 => s
  | i + 1 => ((stateFrom s line i).enter (line i)).leave (line i)

theorem stateFrom_succ (s : State) (line : ℕ → Bytes) (i : ℕ) :
    stateFrom s line (i + 1) = stateFrom ((s.enter (line 0)).leave (line 0)) (fun k => line (k + 1)) i := by
  induction i with
  | zero => rfl
  | succ i ih =>
    rw [stateFrom, ih]
    rfl

variable {line : ℕ → Bytes}

theorem keyBlock_iff (i : ℕ) :
    ((stateFrom {} line i).enter (line i)).privateKeyBlock = true ↔ ∃ j, KeyCovers line j i := by
  induction i with
  | zero =>
    rw [stateFrom, State.enter, Bool.false_or]
    constructor
    · exact fun h => ⟨0, Nat.le_refl _, h, fun k _ hk => absurd hk (Nat.not_lt_zero k)⟩
    · rintro ⟨j, hj, hstart, -⟩
      obtain rfl := Nat.le_zero.mp hj
      exact hstart
  | succ i ih =>
    have hblock : ((stateFrom {} line (i + 1)).enter (line (i + 1))).privateKeyBlock = true ↔
        ((∃ j, KeyCovers line j i) ∧ privateKeyEnd (line i) = false) ∨ privateKeyStart (line (i + 1)) = true := by
      rw [← ih, ← Bool.not_eq_true', ← Bool.and_eq_true, ← Bool.or_eq_true]
      rfl
    rw [hblock]
    constructor
    · rintro (⟨⟨j, hj, hstart, hopen⟩, hend⟩ | hstart)
      · refine ⟨j, by omega, hstart, fun k hjk hk => ?_⟩
        rcases Nat.lt_succ_iff_lt_or_eq.mp hk with hlt | rfl
        · exact hopen k hjk hlt
        · exact hend
      · exact ⟨i + 1, Nat.le_refl _, hstart, fun k h1 h2 => absurd h2 (by omega)⟩
    · rintro ⟨j, hj, hstart, hopen⟩
      rcases Nat.of_le_succ hj with hle | rfl
      · exact Or.inl ⟨⟨j, hle, hstart, fun k hjk hk => hopen k hjk (by omega)⟩, hopen i hle (Nat.lt_succ_self i)⟩
      · exact Or.inr hstart

/-- The indentation of the section that covers line `i`, if one does. -/
theorem section_iff (i : ℕ) (d : ℤ) :
    ((stateFrom {} line i).enter (line i)).sensitiveSectionIndent = d ∧ 0 ≤ d ↔
      ∃ j, SectionCovers line j i ∧ toInt (indentation (line j)) = d := by
  induction i generalizing d with
  | zero =>
    have hstart : ((stateFrom {} line 0).enter (line 0)).sensitiveSectionIndent =
        if lineStartsSensitiveSection (line 0) = true then toInt (indentation (line 0)) else -1 := by
      rw [stateFrom, State.enter]
      dsimp only
      rw [if_neg (show ¬ ((0 : ℤ) ≤ -1 ∧ hasContent (line 0) = true ∧ (indentation (line 0) : ℤ) ≤ -1) from
        fun h => absurd h.1 (by decide))]
    rw [hstart]
    constructor
    · rintro ⟨hd, hpos⟩
      by_cases hs : lineStartsSensitiveSection (line 0) = true
      · rw [if_pos hs] at hd
        exact ⟨0, ⟨Nat.le_refl _, hs, hd ▸ hpos, fun k h1 h2 => absurd h1 (by omega)⟩, hd⟩
      · rw [if_neg hs] at hd
        omega
    · rintro ⟨j, ⟨hj, hs, hpos, -⟩, rfl⟩
      obtain rfl := Nat.le_zero.mp hj
      rw [if_pos hs]
      exact ⟨rfl, hpos⟩
  | succ i ih =>
    set e := ((stateFrom {} line i).enter (line i)).sensitiveSectionIndent with he
    have hnext : ((stateFrom {} line (i + 1)).enter (line (i + 1))).sensitiveSectionIndent =
        if lineStartsSensitiveSection (line (i + 1)) = true then toInt (indentation (line (i + 1)))
        else if 0 ≤ e ∧ hasContent (line (i + 1)) = true ∧ (indentation (line (i + 1)) : ℤ) ≤ e then -1 else e := rfl
    rw [hnext]
    by_cases hs : lineStartsSensitiveSection (line (i + 1)) = true
    · rw [if_pos hs]
      constructor
      · rintro ⟨hd, hpos⟩
        exact ⟨i + 1, ⟨Nat.le_refl _, hs, hd ▸ hpos, fun k h1 h2 => absurd h1 (by omega)⟩, hd⟩
      · rintro ⟨j, ⟨hj, -, hpos, hall⟩, rfl⟩
        rcases Nat.of_le_succ hj with hle | rfl
        · rw [(hall (i + 1) (by omega) (Nat.le_refl _)).1] at hs
          cases hs
        · exact ⟨rfl, hpos⟩
    · rw [if_neg hs]
      constructor
      · rintro ⟨hd, hpos⟩
        by_cases hout : 0 ≤ e ∧ hasContent (line (i + 1)) = true ∧ (indentation (line (i + 1)) : ℤ) ≤ e
        · rw [if_pos hout] at hd
          omega
        · rw [if_neg hout] at hd
          obtain ⟨j, ⟨hj, hstart, hjpos, hall⟩, hjd⟩ := (ih d).mp ⟨hd, hpos⟩
          refine ⟨j, ⟨by omega, hstart, hjpos, fun k hjk hk => ?_⟩, hjd⟩
          rcases Nat.of_le_succ hk with hle | heq
          · exact hall k hjk hle
          · obtain rfl : k = i + 1 := heq
            refine ⟨Bool.eq_false_of_not_eq_true hs, fun hcontent => ?_⟩
            by_contra hle
            exact hout ⟨by omega, hcontent, by omega⟩
      · rintro ⟨j, ⟨hj, hstart, hjpos, hall⟩, hjd⟩
        rcases Nat.of_le_succ hj with hle | rfl
        · obtain ⟨hd, hpos⟩ := (ih d).mpr
            ⟨j, ⟨hle, hstart, hjpos, fun k hjk hk => hall k hjk (by omega)⟩, hjd⟩
          have hlast := (hall (i + 1) (by omega) (Nat.le_refl _)).2
          rw [if_neg fun hout => by have := hlast hout.2.1; omega]
          exact ⟨hd, hpos⟩
        · exact absurd hstart hs

/-- A line is replaced for a reason of its own, or because something covers it. -/
theorem hidden_iff (i : ℕ) : ((stateFrom {} line i).enter (line i)).hides (line i) = true ↔
    ownReason (line i) = true ∨ ∃ j, Covers line j i := by
  have hsection : 0 ≤ ((stateFrom {} line i).enter (line i)).sensitiveSectionIndent ↔ ∃ j, SectionCovers line j i := by
    constructor
    · intro h
      obtain ⟨j, hj, -⟩ := (section_iff i _).mp ⟨rfl, h⟩
      exact ⟨j, hj⟩
    · rintro ⟨j, hj⟩
      obtain ⟨h, hpos⟩ := (section_iff i _).mpr ⟨j, hj, rfl⟩
      rw [h]
      exact hpos
  unfold State.hides Covers
  rw [Bool.or_eq_true, Bool.or_eq_true, decide_eq_true_eq, keyBlock_iff, hsection, exists_or, or_comm]

theorem redactLines_length (s : State) (raws : List Bytes) : (redactLines s raws).length = raws.length := by
  induction raws generalizing s with
  | nil => rfl
  | cons raw raws ih => rw [redactLines, List.length_cons, List.length_cons, ih]

/-- What is written for the lines, one after the other. -/
theorem redactLines_get {s : State} {raws : List Bytes} {i : ℕ} (hi : i < raws.length) :
    (redactLines s raws)[i]? =
      let line := fun k => clean (raws.getD k [])
      some (if ((stateFrom s line i).enter (line i)).hides (line i) then none else some (line i)) := by
  induction raws generalizing s i with
  | nil => exact absurd hi (Nat.not_lt_zero i)
  | cons raw raws ih =>
    cases i with
    | zero => rfl
    | succ i =>
      rw [redactLines]
      dsimp only
      rw [List.getElem?_cons_succ, ih (by simpa using hi), stateFrom_succ]
      rfl

/-! ## The tail -/

theorem textLines_cons_ne (c : UInt8) (text : Bytes) : textLines (c :: text) ≠ [] := by
  rw [textLines]
  split_ifs
  · exact List.cons_ne_nil _ _
  · split <;> exact List.cons_ne_nil _ _

/-- A newline separates the lines before it from those after it. -/
theorem textLines_append (before tail : Bytes) :
    textLines (before ++ newline :: tail) = textLines (before ++ [newline]) ++ textLines tail := by
  induction before with
  | nil => simp [textLines]
  | cons c before ih =>
    rw [List.cons_append, List.cons_append, textLines, textLines, ih]
    split_ifs
    · rfl
    · cases hfirst : textLines (before ++ [newline]) with
      | nil =>
        exfalso
        cases before with
        | nil => exact textLines_cons_ne _ _ hfirst
        | cons d before => exact textLines_cons_ne _ _ hfirst
      | cons line rest => rfl

/-- The lines of the tail are the last ones of the log. -/
theorem logTail_lines {text tail : Bytes} (h : logTail text = some tail) :
    ∃ before, textLines text = before ++ textLines tail := by
  unfold logTail at h
  split_ifs at h
  · obtain rfl := Option.some.inj h
    exact ⟨[], rfl⟩
  · obtain ⟨⟨skipped, rest⟩, hsplit, rfl⟩ := Option.map_eq_some_iff.mp h
    obtain ⟨hdrop, -⟩ := splitOnce_eq_some.mp hsplit
    refine ⟨textLines (text.take (text.length - DIAGNOSTIC_LOG_TAIL_BYTES) ++ skipped ++ [newline]), ?_⟩
    rw [← textLines_append, List.append_assoc, ← hdrop, List.take_append_drop]

theorem covers_shift {n j i : ℕ} : Covers (fun k => line (n + k)) j i ↔ Covers line (n + j) (n + i) := by
  unfold Covers KeyCovers SectionCovers
  refine or_congr (and_congr (by omega) (and_congr_right fun _ => ?_))
    (and_congr (by omega) (and_congr_right fun _ => and_congr_right fun _ => ?_))
  · constructor
    · intro h k hj hk
      obtain ⟨m, rfl⟩ := Nat.exists_eq_add_of_le (show n ≤ k by omega)
      exact h m (by omega) (by omega)
    · exact fun h k hj hk => h (n + k) (by omega) (by omega)
  · constructor
    · intro h k hj hk
      obtain ⟨m, rfl⟩ := Nat.exists_eq_add_of_le (show n ≤ k by omega)
      exact h m (by omega) (by omega)
    · exact fun h k hj hk => h (n + k) (by omega) (by omega)

/-- Line `i` of a text. -/
def lineOf (raws : List Bytes) (i : ℕ) : Bytes := clean (raws.getD i [])

theorem redactLines_eq_none {raws : List Bytes} {i : ℕ} (hi : i < raws.length) :
    (redactLines {} raws)[i]? = some none ↔ ownReason (lineOf raws i) = true ∨ ∃ j, Covers (lineOf raws) j i := by
  rw [redactLines_get hi, ← hidden_iff]
  dsimp only
  rw [Option.some_inj]
  unfold lineOf
  split_ifs with h
  · exact iff_of_true rfl h
  · exact iff_of_false nofun h

/-- Every line after the cut that the redaction of the whole log replaces is replaced in the tail. -/
def HidesAsWhole (text : Bytes) : Prop :=
  ∀ tail, logTail text = some tail → ∃ before, textLines text = before ++ textLines tail ∧
    ∀ i, (redactLines {} (textLines text))[before.length + i]? = some none →
      (redactLines {} (textLines tail))[i]? = some none

/-- Every line that is covered from before the cut is sensitive by itself, or covered from a line after the cut too. -/
def CoveredAfterCut (text : Bytes) : Prop :=
  ∀ tail before, logTail text = some tail → textLines text = before ++ textLines tail →
    ∀ j i, j < before.length → i < (textLines text).length → before.length ≤ i → Covers (lineOf (textLines text)) j i →
      ownReason (lineOf (textLines text) i) = true ∨ ∃ k, before.length ≤ k ∧ Covers (lineOf (textLines text)) k i

/-- The tail of a log hides what the whole log hides exactly when nothing after the cut is hidden only by what began
before the cut. -/
theorem logTail_hides_iff (text : Bytes) : HidesAsWhole text ↔ CoveredAfterCut text := by
  have hshift : ∀ {before rest : List Bytes} (i : ℕ), lineOf rest i = lineOf (before ++ rest) (before.length + i) := by
    intro before rest i
    unfold lineOf
    rw [List.getD_append_right _ _ _ _ (Nat.le_add_right _ _), Nat.add_sub_cancel_left]
  have htail : ∀ {before rest : List Bytes} {i : ℕ}, i < rest.length →
      ((redactLines {} rest)[i]? = some none ↔ ownReason (lineOf (before ++ rest) (before.length + i)) = true ∨
        ∃ j, Covers (lineOf (before ++ rest)) (before.length + j) (before.length + i)) := by
    intro before rest i hi
    rw [redactLines_eq_none hi, ← hshift]
    refine or_congr_right (exists_congr fun j => ?_)
    rw [← covers_shift]
    have : lineOf rest = fun k => lineOf (before ++ rest) (before.length + k) := funext hshift
    rw [← this]
  constructor
  · intro hhides tail before htext hlines j i hj hi hle hcovers
    obtain ⟨before', hlines', hall⟩ := hhides tail htext
    obtain rfl : before = before' := List.append_cancel_right (hlines.symm.trans hlines')
    obtain ⟨m, rfl⟩ := Nat.exists_eq_add_of_le hle
    rw [hlines, List.length_append] at hi
    have hwhole := (@redactLines_eq_none (textLines text) _ (by rw [hlines, List.length_append]; omega)).mpr
      (Or.inr ⟨j, hcovers⟩)
    rw [hlines]
    rcases (htail (by omega)).mp (hall m hwhole) with hown | ⟨k, hk⟩
    · exact Or.inl hown
    · exact Or.inr ⟨_, Nat.le_add_right _ _, hk⟩
  · intro hcond tail htext
    obtain ⟨before, hlines⟩ := logTail_lines htext
    refine ⟨before, hlines, fun i hi => ?_⟩
    have hlen : before.length + i < (textLines text).length := by
      rw [← redactLines_length {} (textLines text)]
      exact (List.getElem?_eq_some_iff.mp hi).1
    have hi' : i < (textLines tail).length := by
      rw [hlines, List.length_append] at hlen
      omega
    have hwhole := (redactLines_eq_none hlen).mp hi
    refine (@htail before _ _ hi').mpr ?_
    rw [← hlines]
    rcases hwhole with hown | ⟨j, hj⟩
    · exact Or.inl hown
    · by_cases hbefore : j < before.length
      · rcases hcond tail before htext hlines j _ hbefore hlen (Nat.le_add_right _ _) hj with hown | ⟨k, hle, hk⟩
        · exact Or.inl hown
        · obtain ⟨m, rfl⟩ := Nat.exists_eq_add_of_le hle
          exact Or.inr ⟨m, hk⟩
      · obtain ⟨m, rfl⟩ := Nat.exists_eq_add_of_le (not_lt.mp hbefore)
        exact Or.inr ⟨m, hj⟩

/-! ## A section that is cut off -/

def FIELD : Bytes := ascii "password:"

def VALUE : Bytes := ascii "  hunter2"

/-- The field and its value, and empty lines, so that the log is one byte longer than its tail. -/
def cutLog : Bytes :=
  FIELD ++ newline :: (VALUE ++ newline :: List.replicate (DIAGNOSTIC_LOG_TAIL_BYTES - 19) newline)

theorem cutLog_tail :
    logTail cutLog = some (VALUE ++ newline :: List.replicate (DIAGNOSTIC_LOG_TAIL_BYTES - 19) newline) := by
  have hlen : cutLog.length = DIAGNOSTIC_LOG_TAIL_BYTES + 1 := by
    have hfield : FIELD.length = 9 := by decide
    have hvalue : VALUE.length = 9 := by decide
    unfold cutLog
    rw [List.length_append, List.length_cons, List.length_append, List.length_cons, List.length_replicate, hfield, hvalue]
    unfold DIAGNOSTIC_LOG_TAIL_BYTES
    norm_num
  have hdrop : cutLog.drop 1 = FIELD.tail ++
      newline :: (VALUE ++ newline :: List.replicate (DIAGNOSTIC_LOG_TAIL_BYTES - 19) newline) := by
    unfold cutLog
    rw [List.drop_append_of_le_length (by decide), List.drop_one]
  have hsplit := splitOnce_eq_some.mpr ⟨hdrop, by decide⟩
  unfold logTail
  rw [hlen, if_neg (by omega), Nat.add_sub_cancel_left, hsplit]
  rfl

/-- The cut is after the line that begins the section: the whole log hides the value, and its tail does not. -/
theorem cutLog_reveals : ¬ HidesAsWhole cutLog ∧ ∃ tail, logTail cutLog = some tail ∧
    (redactLines {} (textLines cutLog))[1]? = some none ∧
    (redactLines {} (textLines tail))[0]? = some (some VALUE) := by
  have hlines : ∀ rest, textLines (VALUE ++ newline :: rest) = VALUE :: textLines rest := by
    intro rest
    rw [textLines_append, show textLines (VALUE ++ [newline]) = [VALUE] by decide, List.singleton_append]
  have hwhole : textLines cutLog = FIELD :: VALUE :: textLines (List.replicate (DIAGNOSTIC_LOG_TAIL_BYTES - 19) newline) := by
    rw [cutLog, textLines_append, hlines, show textLines (FIELD ++ [newline]) = [FIELD] by decide,
      List.singleton_append]
  have hhidden : (redactLines {} (textLines cutLog))[1]? = some none := by
    have henter : (((({} : State).enter (clean FIELD)).leave (clean FIELD)).enter (clean VALUE)).hides (clean VALUE) =
        true := by decide
    rw [hwhole, redactLines, redactLines, henter]
    rfl
  have hshown : ∀ rest, (redactLines {} (VALUE :: rest))[0]? = some (some VALUE) := by
    intro rest
    have henter : (({} : State).enter VALUE).hides VALUE = false := by decide
    have hclean : clean VALUE = VALUE := by decide
    rw [redactLines, hclean, henter]
    rfl
  refine ⟨fun hhides => ?_, _, cutLog_tail, hhidden, by rw [hlines]; exact hshown _⟩
  obtain ⟨before, hbefore, hall⟩ := hhides _ cutLog_tail
  have hone : before.length = 1 := by
    have := congrArg List.length hbefore
    rw [hwhole, hlines, List.length_append, List.length_cons, List.length_cons] at this
    omega
  have hzero := hall 0 (by rw [hone]; exact hhidden)
  rw [hlines, hshown] at hzero
  cases hzero

end Hamn.Host.LogRedaction
