import Hamn.Lib.Regex
import Hamn.Lib.Split
import Hamn.Tui.Row

/-!
# Release.Scanners — the version's copies in a text (`hamn-dev/src/release/version.rs`)

* `makefileVersions`, `flakeVersions`: the scanners; a position is a number of characters.
* `makefilePattern`, `flakePattern`: the documented expressions.
* `makefile_eq`, `flake_eq`: the scanners find what `findall` finds, with `\s` as the whitespace of `trim_start`.
* `flake_python`: with `\s` as Python has it, where no separator U+001C to U+001F stands next to the fixed words.
-/

namespace Hamn.Release

open Hamn.Tui (isWhitespace)

abbrev Text := List Char

/-! ## Model -/

def stripPrefix (word text : Text) : Option Text := if word <+: text then some (text.drop word.length) else none

def isBlank (c : Char) : Bool := c == ' ' || c == '\t'

/-- `trim_start_matches([' ', '\t'])` -/
def blank (text : Text) : Text := text.dropWhile isBlank

/-- What ends a value of the Makefile in its line. -/
def endsValue (c : Char) : Bool := c == ' ' || c == '\t' || c == '#' || c == '\r'

def VERSION : Text := ['V', 'E', 'R', 'S', 'I', 'O', 'N']

def makefileVersion (line : Text) : Option Text := do
  let rest ← stripPrefix VERSION line
  let rest ← ((some (blank rest)).filter (·.length < rest.length)).bind (stripPrefix ['?', '='])
  let value ← (some (blank rest)).filter (·.length < rest.length)
  let «end» := (value.findIdx? endsValue).getD value.length
  if value.take «end» ≠ [] ∧ blank (value.drop «end») = [] then some (value.take «end») else none

def makefileVersions (text : Text) : List Text := (text.splitOn '\n').filterMap makefileVersion

def PREFIX : Text := "hamnVersion = \"".toList

def MARKER : Text := "# x-release-please-version".toList

/-- `\s*`: every whitespace character, newlines included. -/
def skip (text : Text) (index : ℕ) : ℕ :=
  index + (text.drop index).length - ((text.drop index).dropWhile isWhitespace).length

/-- `rfind` -/
def rfind (c : Char) (text : Text) : Option ℕ := (text.reverse.findIdx? (· == c)).map (text.length - 1 - ·)

/-- `\s*$` ends at the text's end or backtracks to the last newline it consumed. -/
def flakeEnd (text : Text) (afterMarker : ℕ) : Option ℕ :=
  let «end» := skip text afterMarker
  if «end» = text.length then some «end»
  else (rfind '\n' ((text.drop afterMarker).take («end» - afterMarker))).map (afterMarker + ·)

/-- One match attempt at a line start: (value, end of match). -/
def flakeAttempt (text : Text) (position : ℕ) : Option (Text × ℕ) := do
  let valueStart := skip text position
  let valueStart ← if PREFIX <+: text.drop valueStart then some (valueStart + PREFIX.length) else none
  let valueEnd ← (((text.drop valueStart).findIdx? (· == '"')).filter (0 < ·)).map (valueStart + ·)
  let marker ← if ['"', ';'] <+: text.drop valueEnd then some (skip text (valueEnd + 2)) else none
  let afterMarker ← if MARKER <+: text.drop marker then some (marker + MARKER.length) else none
  let «end» ← flakeEnd text afterMarker
  some ((text.drop valueStart).take (valueEnd - valueStart), «end»)

def atLineStart (text : Text) (position : ℕ) : Bool := position == 0 || text[position - 1]? == some '\n'

/-- The loop from a position on. -/
def flakeFrom (text : Text) (position : ℕ) : List Text :=
  if _h : position ≤ text.length then
    match if atLineStart text position then flakeAttempt text position else none with
    | some (value, «end») => value :: flakeFrom text (max «end» (position + 1))
    | none => flakeFrom text (position + 1)
  else []
termination_by text.length + 1 - position

def flakeVersions (text : Text) : List Text := flakeFrom text 0

/-! ## The scanner of the Makefile -/

open Regex

/-- What a value of the Makefile is made of. -/
def valueChar (c : Char) : Bool := !endsValue c && c != '\n'

/-- `^VERSION[ \t]+\?=[ \t]+([^ \t#\r\n]+)[ \t]*$` -/
def makefilePattern : Pattern :=
  .lineStart :: (literal VERSION ++ .run isBlank 1 :: (literal ['?', '='] ++
    [.run isBlank 1, .group valueChar 1, .run isBlank 0, .lineEnd]))

/-- What is behind a line of a text. -/
def AtLineEnd (tail : Text) : Prop := tail = [] ∨ tail.head? = some '\n'

section Line

variable {line tail : Text}

theorem takeWhile_line {p : Char → Bool} (hp : p '\n' = false) (htail : AtLineEnd tail) :
    (line ++ tail).takeWhile p = line.takeWhile p ∧ (line ++ tail).dropWhile p = line.dropWhile p ++ tail := by
  have hstop : tail.takeWhile p = [] ∧ tail.dropWhile p = tail := by
    rcases htail with rfl | hhead
    · exact ⟨rfl, rfl⟩
    · obtain ⟨rest, rfl⟩ := List.head?_eq_some_iff.mp hhead
      have hneg : ¬ p '\n' = true := by rw [hp]; exact Bool.false_ne_true
      exact ⟨List.takeWhile_cons_of_neg hneg, List.dropWhile_cons_of_neg hneg⟩
  induction line with
  | nil => exact hstop
  | cons c line ih =>
    simp only [List.cons_append, List.takeWhile_cons, List.dropWhile_cons]
    split_ifs
    · exact ⟨by rw [ih.1], ih.2⟩
    · exact ⟨rfl, rfl⟩

/-- A word without a newline does not go past the line. -/
theorem prefix_line {word : Text} (hword : '\n' ∉ word) (htail : AtLineEnd tail) :
    word <+: line ++ tail ↔ word <+: line := by
  induction word generalizing line with
  | nil => simp
  | cons c word ih =>
    rw [List.mem_cons, not_or] at hword
    cases line with
    | nil =>
      have hhead : tail.head? ≠ some c := by
        rcases htail with rfl | hhead
        · exact fun heq => Option.some_ne_none c heq.symm
        · rw [hhead]
          exact fun heq => hword.1 (Option.some.inj heq)
      rw [List.nil_append]
      constructor
      · rintro ⟨rest, rfl⟩
        exact absurd rfl hhead
      · exact fun h => absurd (List.prefix_nil.mp h) (List.cons_ne_nil c word)
    | cons d line =>
      rw [List.cons_append, List.cons_prefix_cons, List.cons_prefix_cons, ih hword.2]

theorem stripPrefix_eq_some {word text rest : Text} : stripPrefix word text = some rest ↔ text = word ++ rest := by
  unfold stripPrefix
  constructor
  · intro h
    split_ifs at h with hprefix
    obtain ⟨rest', rfl⟩ := hprefix
    rw [List.drop_left' rfl] at h
    rw [Option.some.inj h]
  · rintro rfl
    rw [if_pos (List.prefix_append _ _), List.drop_left' rfl]

theorem startAfter_false {word : Text} (hword : '\n' ∉ word) : startAfter false word = false := by
  unfold startAfter
  cases hlast : word.getLast? with
  | none => rfl
  | some c =>
    have hc : c ≠ '\n' := fun heq => hword (heq ▸ List.mem_of_getLast? hlast)
    exact beq_eq_false_iff_ne.mpr hc

theorem attempt_word {word : Text} (hword : '\n' ∉ word) (htail : AtLineEnd tail) (r : Pattern) :
    attempt (literal word ++ r) false (line ++ tail) =
      (stripPrefix word line).bind fun rest => attempt r false (rest ++ tail) := by
  rw [attempt_literal, startAfter_false hword]
  unfold stripPrefix
  by_cases h : word <+: line
  · obtain ⟨rest, rfl⟩ := h
    rw [if_pos ((prefix_line hword htail).mpr (List.prefix_append _ _)), if_pos (List.prefix_append _ _),
      List.append_assoc, List.drop_left' rfl, List.drop_left' rfl]
    rfl
  · rw [if_neg (mt (prefix_line hword htail).mp h), if_neg h]
    rfl

theorem not_mem_takeWhile {p : Char → Bool} (hp : p '\n' = false) (text : Text) : '\n' ∉ text.takeWhile p := by
  intro hmem
  have hnl := List.mem_takeWhile_imp hmem
  rw [hp] at hnl
  cases hnl

theorem attempt_blanks {least : ℕ} {r : Pattern} (hr : Refuses r isBlank) (htail : AtLineEnd tail) :
    attempt (.run isBlank least :: r) false (line ++ tail) =
      if (line.takeWhile isBlank).length < least then none else attempt r false (blank line ++ tail) := by
  obtain ⟨htake, hdrop⟩ := @takeWhile_line line tail isBlank rfl htail
  rw [attempt_run hr, htake, hdrop, startAfter_false (not_mem_takeWhile rfl _)]
  rfl

/-- Blanks are there where the rest is shorter without them. -/
theorem attempt_blanks_one {r : Pattern} (hr : Refuses r isBlank) (htail : AtLineEnd tail) :
    attempt (.run isBlank 1 :: r) false (line ++ tail) =
      ((some (blank line)).filter (·.length < line.length)).bind fun rest => attempt r false (rest ++ tail) := by
  have hlength : (line.takeWhile isBlank).length + (blank line).length = line.length := by
    rw [← List.length_append]
    exact congrArg List.length List.takeWhile_append_dropWhile
  rw [attempt_blanks hr htail, Option.filter_some]
  by_cases h : (line.takeWhile isBlank).length < 1
  · have hneg : ¬ (blank line).length < line.length := by omega
    rw [if_pos h, if_neg (by simpa using hneg)]
    rfl
  · have hpos : (blank line).length < line.length := by omega
    rw [if_neg h, if_pos (by simpa using hpos)]
    rfl

theorem valueChar_eq {c : Char} (h : c ≠ '\n') : valueChar c = !endsValue c := by
  unfold valueChar
  rw [bne_iff_ne.mpr h, Bool.and_true]

theorem takeWhile_value {value : Text} (h : '\n' ∉ value) :
    value.takeWhile valueChar = value.take ((value.findIdx? endsValue).getD value.length) ∧
      value.dropWhile valueChar = value.drop ((value.findIdx? endsValue).getD value.length) := by
  have htake : value.takeWhile valueChar = value.take ((value.findIdx? endsValue).getD value.length) := by
    rw [← List.findIdx_eq_getD_findIdx?]
    have hcongr : value.takeWhile valueChar = value.takeWhile fun c => !endsValue c := by
      induction value with
      | nil => rfl
      | cons c value ih =>
        rw [List.mem_cons, not_or] at h
        rw [List.takeWhile_cons, List.takeWhile_cons, valueChar_eq (Ne.symm h.1), ih h.2]
    rw [hcongr, List.takeWhile_eq_take_findIdx_not]
    simp only [Bool.not_not]
  refine ⟨htake, ?_⟩
  have happend : value.takeWhile valueChar ++ value.dropWhile valueChar =
      value.take ((value.findIdx? endsValue).getD value.length) ++
        value.drop ((value.findIdx? endsValue).getD value.length) := by
    rw [List.takeWhile_append_dropWhile, List.take_append_drop]
  rw [htake] at happend
  exact List.append_cancel_left happend

theorem blank_not_value : ∀ c, isBlank c = true → valueChar c = false := by
  intro c hc
  unfold isBlank at hc
  unfold valueChar endsValue
  simp only [Bool.or_eq_true, beq_iff_eq] at hc
  rcases hc with rfl | rfl <;> rfl

theorem value_not_blank : ∀ c, valueChar c = true → isBlank c = false := by
  intro c hc
  cases hb : isBlank c with
  | false => rfl
  | true => rw [blank_not_value c hb] at hc; cases hc

/-- The value and the blanks behind it. -/
theorem attempt_value {value : Text} (hvalue : '\n' ∉ value) (htail : AtLineEnd tail) :
    attempt [.group valueChar 1, .run isBlank 0, .lineEnd] false (value ++ tail) =
      if value.takeWhile valueChar ≠ [] ∧ blank (value.dropWhile valueChar) = [] then
        some ⟨value.takeWhile valueChar, false, tail⟩
      else none := by
  have hend : Refuses [.lineEnd] isBlank := refuses_lineEnd rfl
  have hgroup : Refuses [.run isBlank 0, .lineEnd] valueChar := refuses_run value_not_blank (refuses_lineEnd rfl)
  obtain ⟨htake, hdrop⟩ := @takeWhile_line value tail valueChar rfl htail
  rw [attempt_group hgroup, htake, hdrop, startAfter_false (not_mem_takeWhile rfl _), attempt_blanks hend htail,
    if_neg (Nat.not_lt_zero _)]
  by_cases hne : value.takeWhile valueChar = []
  · rw [hne, List.length_nil, if_pos Nat.zero_lt_one, if_neg fun h => h.1 rfl]
  · rw [if_neg (Nat.not_lt.mpr (List.length_pos_iff.mpr hne))]
    cases hrest : blank (value.dropWhile valueChar) with
    | nil =>
      rw [List.nil_append, attempt_lineEnd_last false htail, if_pos ⟨hne, rfl⟩, Option.map_some]
      unfold Match.capture
      rw [List.append_nil]
    | cons c rest =>
      have hc : c ≠ '\n' := by
        rintro rfl
        have hmem : '\n' ∈ blank (value.dropWhile valueChar) := by rw [hrest]; exact List.mem_cons_self
        exact hvalue ((List.dropWhile_suffix _).subset ((List.dropWhile_suffix _).subset hmem))
      rw [List.cons_append, attempt_lineEnd_cons _ _ hc, if_neg fun h => List.cons_ne_nil _ _ h.2]
      rfl

end Line

/-- The expression at the start of a line. -/
theorem attempt_makefile {line tail : Text} (hline : '\n' ∉ line) (htail : AtLineEnd tail) :
    attempt makefilePattern true (line ++ tail) = (makefileVersion line).map fun value => ⟨value, false, tail⟩ := by
  have hquestion : Refuses (literal ['?', '='] ++ [.run isBlank 1, .group valueChar 1, .run isBlank 0, .lineEnd])
      isBlank := refuses_char rfl
  have hvalue : Refuses [.group valueChar 1, .run isBlank 0, .lineEnd] isBlank :=
    refuses_group blank_not_value Nat.zero_lt_one
  have hword : attempt makefilePattern true (line ++ tail) = (stripPrefix VERSION line).bind fun rest =>
      attempt (.run isBlank 1 :: (literal ['?', '='] ++
        [.run isBlank 1, .group valueChar 1, .run isBlank 0, .lineEnd])) false (rest ++ tail) := by
    show attempt (literal VERSION ++ _) true (line ++ tail) = _
    rw [← attempt_word (by decide) htail, attempt_literal, attempt_literal]
    rfl
  rw [hword]
  unfold makefileVersion
  cases hversion : stripPrefix VERSION line with
  | none => rfl
  | some rest =>
    rw [stripPrefix_eq_some] at hversion
    rw [Option.bind_some, attempt_blanks_one hquestion htail]
    show _ = Option.map _ (((Option.filter _ (some (blank rest))).bind (stripPrefix ['?', '='])).bind _)
    cases hfilter : (some (blank rest)).filter (·.length < rest.length) with
    | none => rfl
    | some trimmed =>
      obtain rfl : blank rest = trimmed := Option.some.inj (Option.eq_some_of_filter_eq_some hfilter)
      rw [Option.bind_some, Option.bind_some, attempt_word (by decide) htail]
      cases hassign : stripPrefix ['?', '='] (blank rest) with
      | none => rfl
      | some after =>
        rw [stripPrefix_eq_some] at hassign
        rw [Option.bind_some, Option.bind_some, attempt_blanks_one hvalue htail]
        show _ = Option.map _ ((Option.filter _ (some (blank after))).bind _)
        cases hlast : (some (blank after)).filter (·.length < after.length) with
        | none => rfl
        | some value =>
          obtain rfl : blank after = value := Option.some.inj (Option.eq_some_of_filter_eq_some hlast)
          have hmem : '\n' ∉ blank after := by
            intro h
            have hafter : '\n' ∈ blank rest := by
              rw [hassign]
              exact List.mem_append_right _ ((List.dropWhile_suffix _).subset h)
            rw [hversion] at hline
            exact hline (List.mem_append_right _ ((List.dropWhile_suffix _).subset hafter))
          rw [Option.bind_some, Option.bind_some, attempt_value hmem htail, (takeWhile_value hmem).1,
            (takeWhile_value hmem).2]
          dsimp only
          split_ifs <;> rfl

theorem makefile_consumes : Consumes makefilePattern := by
  unfold Consumes
  decide

/-- The search at the start of a text's last line. -/
theorem makefile_last {line : Text} (hline : '\n' ∉ line) :
    find makefilePattern true line = (makefileVersion line).toList := by
  have hattempt := attempt_makefile hline (.inl rfl)
  rw [List.append_nil] at hattempt
  cases hversion : makefileVersion line with
  | some value =>
    rw [hversion, Option.map_some] at hattempt
    rw [find_some makefile_consumes hattempt]
    exact congrArg (value :: ·) (find_last List.not_mem_nil)
  | none =>
    rw [hversion, Option.map_none] at hattempt
    cases line with
    | nil => exact find_nil hattempt
    | cons c line =>
      rw [List.mem_cons, not_or] at hline
      rw [find_cons hattempt, beq_eq_false_iff_ne.mpr (Ne.symm hline.1)]
      exact find_last hline.2

/-- The search at the start of another line. -/
theorem makefile_line {line : Text} (hline : '\n' ∉ line) (rest : Text) :
    find makefilePattern true (line ++ '\n' :: rest) =
      (makefileVersion line).toList ++ find makefilePattern true rest := by
  have hattempt := @attempt_makefile line ('\n' :: rest) hline (.inr rfl)
  cases hversion : makefileVersion line with
  | some value =>
    rw [hversion, Option.map_some] at hattempt
    rw [find_some makefile_consumes hattempt]
    exact congrArg (value :: ·) (@find_line _ [] rest List.not_mem_nil)
  | none =>
    rw [hversion, Option.map_none] at hattempt
    cases line with
    | nil => exact find_cons hattempt
    | cons c line =>
      rw [List.mem_cons, not_or] at hline
      rw [List.cons_append] at hattempt ⊢
      rw [find_cons hattempt, beq_eq_false_iff_ne.mpr (Ne.symm hline.1)]
      exact find_line hline.2

theorem makefile_eq (text : Text) : makefileVersions text = findall makefilePattern text := by
  unfold makefileVersions findall
  induction hn : text.length using Nat.strong_induction_on generalizing text with
  | _ n ih =>
    by_cases hnl : '\n' ∈ text
    · have hcut := Split.cut_eq hnl
      have hline : '\n' ∉ text.takeWhile (· ≠ '\n') := by
        intro hmem
        simpa using List.mem_takeWhile_imp hmem
      generalize text.takeWhile (· ≠ '\n') = line at hcut hline
      generalize (text.dropWhile (· ≠ '\n')).drop 1 = rest at hcut
      subst hcut
      have hrest := ih rest.length (by rw [← hn, List.length_append, List.length_cons]; omega) rest rfl
      rw [List.splitOn_append_cons_self_of_not_mem hline, List.filterMap_cons, hrest, makefile_line hline]
      cases makefileVersion line <;> rfl
    · rw [List.splitOn_eq_singleton hnl, makefile_last hnl, List.filterMap_cons, List.filterMap_nil]
      cases makefileVersion text <;> rfl

/-! ## The scanner of the flake -/

/-- `^\s*hamnVersion = "([^"]+)";\s*# x-release-please-version\s*$`, for the characters of `\s`. -/
def flakePattern (space : Char → Bool) : Pattern :=
  .lineStart :: .run space 0 :: (literal PREFIX ++ .group (· != '"') 1 :: (literal ['"', ';'] ++
    .run space 0 :: (literal MARKER ++ [.run space 0, .lineEnd])))

/-- A class that a `\s` may stand for here. -/
structure IsSpace (space : Char → Bool) : Prop where
  newline : space '\n' = true
  head_fixed : space 'h' = false
  head_comment : space '#' = false

/-- What the expression needs from the marker on. -/
def markerPattern (space : Char → Bool) : Pattern := .run space 0 :: (literal MARKER ++ [.run space 0, .lineEnd])

section

variable {space : Char → Bool}

theorem PREFIX_eq : PREFIX = 'h' :: PREFIX.tail := by decide

theorem MARKER_eq : MARKER = '#' :: MARKER.tail := by decide

theorem refuses_fixed (hspace : IsSpace space) (r : Pattern) : Refuses (literal PREFIX ++ r) space := by
  rw [PREFIX_eq]
  exact refuses_char hspace.head_fixed

theorem refuses_comment (hspace : IsSpace space) (r : Pattern) : Refuses (literal MARKER ++ r) space := by
  rw [MARKER_eq]
  exact refuses_char hspace.head_comment

theorem startAfter_word {word : Text} (hne : word ≠ []) (hword : '\n' ∉ word) (start : Bool) :
    startAfter start word = false := by
  obtain ⟨c, word, rfl⟩ := List.exists_cons_of_ne_nil hne
  rw [List.mem_cons, not_or] at hword
  rw [startAfter_cons, beq_eq_false_iff_ne.mpr (Ne.symm hword.1)]
  exact startAfter_false hword.2

theorem attempt_marker (hspace : IsSpace space) (start : Bool) (text : Text) :
    attempt (markerPattern space) start text =
      if MARKER <+: text.dropWhile space then
        attempt [.run space 0, .lineEnd] false ((text.dropWhile space).drop MARKER.length)
      else none := by
  unfold markerPattern
  rw [attempt_run (refuses_comment hspace _), if_neg (Nat.not_lt_zero _), attempt_literal,
    startAfter_word (by decide) (by decide)]

/-- The expression behind a line's start. -/
theorem attempt_flake (hspace : IsSpace space) (text : Text) :
    attempt (flakePattern space) true text =
      if PREFIX <+: text.dropWhile space then
        let rest := (text.dropWhile space).drop PREFIX.length
        let value := rest.takeWhile (· != '"')
        if value ≠ [] ∧ ['"', ';'] <+: rest.dropWhile (· != '"') then
          (attempt (markerPattern space) false ((rest.dropWhile (· != '"')).drop 2)).map (.capture value)
        else none
      else none := by
  have hquote : Refuses (literal ['"', ';'] ++ markerPattern space) (· != '"') := refuses_char rfl
  show attempt (.run space 0 :: (literal PREFIX ++ .group (· != '"') 1 ::
    (literal ['"', ';'] ++ markerPattern space))) true text = _
  rw [attempt_run (refuses_fixed hspace _), if_neg (Nat.not_lt_zero _), attempt_literal,
    startAfter_word (by decide) (by decide)]
  by_cases hprefix : PREFIX <+: text.dropWhile space
  swap
  · rw [if_neg hprefix, if_neg hprefix]
  rw [if_pos hprefix, if_pos hprefix, attempt_group hquote]
  generalize (text.dropWhile space).drop PREFIX.length = rest
  dsimp only
  by_cases hne : rest.takeWhile (· != '"') = []
  · rw [hne, List.length_nil, if_pos Nat.zero_lt_one, if_neg (not_and_of_not_left _ (not_not_intro rfl))]
  rw [if_neg (Nat.not_lt.mpr (List.length_pos_iff.mpr hne)), attempt_literal]
  by_cases hclose : ['"', ';'] <+: rest.dropWhile (· != '"')
  · rw [if_pos hclose, if_pos (And.intro hne hclose), startAfter_word (by decide) (by decide)]
    rfl
  · rw [if_neg hclose, if_neg (not_and_of_not_right _ hclose)]
    rfl

end

/-! ## Positions -/

section Positions

variable {text : Text} {position : ℕ}

theorem skip_eq (text : Text) (index : ℕ) :
    skip text index = index + ((text.drop index).takeWhile isWhitespace).length := by
  have hlength : ((text.drop index).takeWhile isWhitespace).length +
      ((text.drop index).dropWhile isWhitespace).length = (text.drop index).length := by
    rw [← List.length_append, List.takeWhile_append_dropWhile]
  unfold skip
  omega

theorem drop_skip (text : Text) (index : ℕ) :
    text.drop (skip text index) = (text.drop index).dropWhile isWhitespace := by
  rw [skip_eq, ← List.drop_drop, drop_takeWhile]

theorem rfind_some {c : Char} {front back : Text} (h : c ∉ back) : rfind c (front ++ c :: back) = some front.length := by
  unfold rfind
  have hindex : (front ++ c :: back).reverse.findIdx? (· == c) = some back.length := by
    rw [List.reverse_append, List.reverse_cons, List.append_assoc, List.singleton_append, List.findIdx?_append,
      List.findIdx?_eq_none_iff.mpr, Option.none_or, List.findIdx?_cons, if_pos (by simp), Option.map_some,
      List.length_reverse, Nat.zero_add]
    intro d hd
    rw [List.mem_reverse] at hd
    exact beq_eq_false_iff_ne.mpr fun heq => h (heq ▸ hd)
  rw [hindex, Option.map_some, List.length_append, List.length_cons]
  congr 1
  omega

theorem rfind_none {c : Char} {text : Text} (h : c ∉ text) : rfind c text = none := by
  unfold rfind
  rw [List.findIdx?_eq_none_iff.mpr, Option.map_none]
  intro d hd
  rw [List.mem_reverse] at hd
  exact beq_eq_false_iff_ne.mpr fun heq => h (heq ▸ hd)

theorem exists_last {c : Char} {text : Text} (h : c ∈ text) : ∃ front back, text = front ++ c :: back ∧ c ∉ back := by
  induction text with
  | nil => exact absurd h List.not_mem_nil
  | cons d text ih =>
    by_cases hmem : c ∈ text
    · obtain ⟨front, back, rfl, hback⟩ := ih hmem
      exact ⟨d :: front, back, rfl, hback⟩
    · obtain rfl : c = d := (List.mem_cons.mp h).resolve_right hmem
      exact ⟨[], text, rfl, hmem⟩

theorem isSpace_isWhitespace : IsSpace isWhitespace := ⟨by decide, by decide, by decide⟩

/-- `\s*$` behind the marker. -/
theorem flakeEnd_eq {after : ℕ} (hafter : after ≤ text.length) :
    flakeEnd text after =
      (attempt [.run isWhitespace 0, .lineEnd] false (text.drop after)).map fun m => text.length - m.rest.length := by
  have hlength : ((text.drop after).takeWhile isWhitespace).length +
      ((text.drop after).dropWhile isWhitespace).length = text.length - after := by
    rw [← List.length_append, List.takeWhile_append_dropWhile, List.length_drop]
  unfold flakeEnd
  rw [skip_eq]
  dsimp only
  rw [Nat.add_sub_cancel_left, take_takeWhile]
  by_cases hend : (text.drop after).dropWhile isWhitespace = []
  · rw [hend, List.length_nil] at hlength
    rw [if_pos (by omega), attempt_run_end hend, Option.map_some, List.length_nil, Nat.sub_zero]
    congr 1
    omega
  · have hpos := List.length_pos_iff.mpr hend
    rw [if_neg (by omega)]
    by_cases hnl : '\n' ∈ (text.drop after).takeWhile isWhitespace
    · obtain ⟨front, back, hrun, hback⟩ := exists_last hnl
      rw [hrun, rfind_some hback, attempt_run_newline isSpace_isWhitespace.newline hend hrun hback, Option.map_some,
        Option.map_some]
      rw [hrun, List.length_append, List.length_cons] at hlength
      congr 1
      rw [List.length_append, List.length_cons]
      omega
    · rw [rfind_none hnl, attempt_run_none isSpace_isWhitespace.newline hend hnl]
      rfl

theorem prefix_bound {word : Text} {index : ℕ} (hne : word ≠ []) (h : word <+: text.drop index) :
    index + word.length ≤ text.length := by
  have hlength := h.length_le
  have hpos := List.length_pos_iff.mpr hne
  rw [List.length_drop] at hlength
  omega

theorem findIdx_quote {value rest : Text} (h : '"' ∉ value) :
    (value ++ '"' :: rest).findIdx? (· == '"') = some value.length := by
  have hvalue : value.findIdx? (· == '"') = none := by
    rw [List.findIdx?_eq_none_iff]
    intro c hc
    exact beq_eq_false_iff_ne.mpr fun heq => h (heq ▸ hc)
  rw [List.findIdx?_append, hvalue, Option.none_or, List.findIdx?_cons, if_pos (by simp), Option.map_some, Nat.zero_add]

theorem takeWhile_quote {value rest : Text} (h : '"' ∉ value) :
    (value ++ '"' :: rest).takeWhile (· != '"') = value ∧ (value ++ '"' :: rest).dropWhile (· != '"') = '"' :: rest := by
  have hall : ∀ c ∈ value, (c != '"') = true := fun c hc => bne_iff_ne.mpr fun heq => h (heq ▸ hc)
  constructor
  · rw [List.takeWhile_append_of_pos hall, List.takeWhile_cons_of_neg (by simp), List.append_nil]
  · rw [List.dropWhile_append_of_pos hall, List.dropWhile_cons_of_neg (by simp)]

/-- An attempt reads what the expression matches. -/
theorem flakeAttempt_eq (text : Text) (position : ℕ) :
    flakeAttempt text position =
      (attempt (flakePattern isWhitespace) true (text.drop position)).map fun m =>
        (m.group, text.length - m.rest.length) := by
  rw [attempt_flake isSpace_isWhitespace, ← drop_skip]
  unfold flakeAttempt
  generalize skip text position = valueStart
  by_cases hprefix : PREFIX <+: text.drop valueStart
  swap
  · rw [if_neg hprefix, if_neg hprefix]
    rfl
  rw [if_pos hprefix, if_pos hprefix, List.drop_drop]
  simp only [Option.bind_eq_bind, Option.bind_some]
  generalize valueStart + PREFIX.length = valueStart
  by_cases hquote : '"' ∈ text.drop valueStart
  swap
  · have hindex : (text.drop valueStart).findIdx? (· == '"') = none := by
      rw [List.findIdx?_eq_none_iff]
      intro c hc
      exact beq_eq_false_iff_ne.mpr fun heq => hquote (heq ▸ hc)
    have hrest : (text.drop valueStart).dropWhile (· != '"') = [] := by
      rw [List.dropWhile_eq_nil_iff]
      intro c hc
      exact bne_iff_ne.mpr fun heq => hquote (heq ▸ hc)
    rw [hindex, hrest, if_neg fun h => absurd (List.prefix_nil.mp h.2) (List.cons_ne_nil _ _)]
    rfl
  obtain ⟨value, rest, htext, hvalue⟩ := List.eq_append_cons_of_mem hquote
  have hdrop : text.drop (valueStart + value.length) = '"' :: rest := by
    rw [← List.drop_drop, htext, List.drop_left' rfl]
  have hafter : text.drop (valueStart + value.length + 2) = ('"' :: rest).drop 2 := by
    rw [← hdrop, List.drop_drop]
  rw [htext, findIdx_quote hvalue, (takeWhile_quote hvalue).1, (takeWhile_quote hvalue).2, Option.filter_some]
  by_cases hne : value = []
  · subst hne
    rw [if_neg (by simp), if_neg (not_and_of_not_left _ (not_not_intro rfl))]
    rfl
  rw [if_pos (by simpa using List.length_pos_iff.mpr hne), Option.map_some, Option.bind_some, hdrop]
  by_cases hclose : ['"', ';'] <+: '"' :: rest
  swap
  · rw [if_neg hclose, if_neg (not_and_of_not_right _ hclose)]
    rfl
  rw [if_pos hclose, if_pos (And.intro hne hclose), attempt_marker isSpace_isWhitespace, ← hafter,
    ← drop_skip]
  generalize skip text (valueStart + value.length + 2) = marker
  by_cases hmarker : MARKER <+: text.drop marker
  swap
  · rw [if_neg hmarker, if_neg hmarker]
    rfl
  rw [if_pos hmarker, if_pos hmarker, List.drop_drop, flakeEnd_eq (prefix_bound (by decide) hmarker),
    Nat.add_sub_cancel_left, List.take_left' rfl]
  cases hend : attempt [.run isWhitespace 0, .lineEnd] false (text.drop (marker + MARKER.length)) with
  | none => rfl
  | some m =>
    rw [Option.map_some, Option.map_some, Option.map_some, Option.bind_some]
    unfold Match.capture
    rw [group_nil hend, List.append_nil]

theorem atLineStart_eq (hposition : position ≤ text.length) :
    atLineStart text position = startAfter true (text.take position) := by
  cases position with
  | zero => rfl
  | succ position =>
    have hlast : (text.take (position + 1)).getLast? = text[position]? := by
      rw [List.getLast?_take, if_neg (Nat.succ_ne_zero _), Nat.add_sub_cancel,
        List.getElem?_eq_getElem hposition, Option.some_or]
    unfold atLineStart startAfter
    rw [hlast, Nat.add_sub_cancel, List.getElem?_eq_getElem hposition]
    simp

theorem flake_consumes (space : Char → Bool) : Consumes (flakePattern space) := by
  unfold Consumes flakePattern
  rw [List.countP_cons_of_neg (by decide), List.countP_cons_of_neg (by simp [Item.isChar]), List.countP_append]
  exact Nat.add_pos_left (by decide) _

/-- The loop is the search: a turn at a position is a turn at what is behind it. -/
theorem flakeFrom_eq (text : Text) (position : ℕ) (hposition : position ≤ text.length) :
    flakeFrom text position =
      find (flakePattern isWhitespace) (startAfter true (text.take position)) (text.drop position) := by
  induction hn : text.length - position using Nat.strong_induction_on generalizing position with
  | _ n ih =>
    have hattempt : attempt (flakePattern isWhitespace) (startAfter true (text.take position)) (text.drop position) =
        if startAfter true (text.take position) then
          attempt (flakePattern isWhitespace) true (text.drop position)
        else none := by
      cases startAfter true (text.take position) <;> rfl
    unfold flakeFrom
    rw [dif_pos hposition, atLineStart_eq hposition, flakeAttempt_eq]
    cases hfound : attempt (flakePattern isWhitespace) (startAfter true (text.take position)) (text.drop position) with
    | some m =>
      have hstart : startAfter true (text.take position) = true := by
        by_contra hneg
        rw [hattempt, if_neg hneg] at hfound
        cases hfound
      have hlt := rest_lt (flake_consumes isWhitespace) hfound
      obtain ⟨consumed, hconsumed, hm⟩ := attempt_split hfound
      rw [find_some (flake_consumes isWhitespace) hfound]
      rw [hattempt, if_pos hstart] at hfound
      rw [List.length_drop] at hlt
      have htext : text.take position ++ consumed ++ m.rest = text := by
        rw [List.append_assoc, ← hconsumed, List.take_append_drop]
      have hend : text.length - m.rest.length = (text.take position ++ consumed).length := by
        conv_lhs => rw [← htext, List.length_append, Nat.add_sub_cancel]
      have hdrop : text.drop (text.length - m.rest.length) = m.rest := by
        rw [hend]
        conv_lhs => arg 2; rw [← htext]
        exact List.drop_left' rfl
      have htake : text.take (text.length - m.rest.length) = text.take position ++ consumed := by
        rw [hend]
        conv_lhs => arg 2; rw [← htext]
        exact List.take_left' rfl
      rw [if_pos hstart, hfound, Option.map_some]
      dsimp only
      rw [max_eq_left (by omega), ih _ (by omega) _ (Nat.sub_le _ _) rfl, hdrop, htake, startAfter_append, ← hm]
    | none =>
      have hnone : (if startAfter true (text.take position) = true then
          (attempt (flakePattern isWhitespace) true (text.drop position)).map fun m =>
            (m.group, text.length - m.rest.length)
          else none) = none := by
        rw [hattempt] at hfound
        split_ifs at hfound ⊢
        · rw [hfound, Option.map_none]
        · rfl
      rw [hnone]
      dsimp only
      rcases hposition.eq_or_lt with rfl | hlt
      · rw [List.drop_length] at hfound ⊢
        rw [find_nil hfound]
        unfold flakeFrom
        exact dif_neg (Nat.not_succ_le_self _)
      · rw [List.drop_eq_getElem_cons hlt] at hfound ⊢
        rw [find_cons hfound, ih _ (by omega) (position + 1) hlt rfl, List.take_succ_eq_append_getElem hlt,
          startAfter_append, startAfter_cons]
        rfl

theorem flake_eq (text : Text) : flakeVersions text = findall (flakePattern isWhitespace) text :=
  flakeFrom_eq text 0 (Nat.zero_le _)

end Positions

/-! ## The class of Python -/

/-- What `\s` matches and `trim_start` does not. -/
def isSeparator (c : Char) : Bool := 0x1C ≤ c.toNat && c.toNat ≤ 0x1F

/-- `\s` of a Python text. -/
def pySpace (c : Char) : Bool := isWhitespace c || isSeparator c

/-- No separator in the whitespace next to the fixed words. -/
def SeparatorsApart (text : Text) : Prop :=
  ∀ front run back, text = front ++ (run ++ back) → (∀ c ∈ run, pySpace c = true) → (∃ c ∈ run, isSeparator c = true) →
    ¬ PREFIX <+: back ∧ ¬ MARKER <+: back ∧ ¬ MARKER <:+ front

theorem separatorsApart_of_none {text : Text} (h : text.any isSeparator = false) : SeparatorsApart text := by
  rintro front run back rfl - ⟨c, hc, hsep⟩
  rw [List.any_eq_false] at h
  exact absurd hsep (h c (List.mem_append_right _ (List.mem_append_left _ hc)))

section Separators

theorem isSpace_pySpace : IsSpace pySpace := ⟨by decide, by decide, by decide⟩

theorem not_white_of_separator {c : Char} (h : isSeparator c = true) : isWhitespace c = false := by
  have hrange : 0x1C ≤ c.toNat ∧ c.toNat ≤ 0x1F := by
    unfold isSeparator at h
    simpa using h
  have hblank : c ≠ ' ' := by
    rintro rfl
    exact absurd hrange.2 (by decide)
  unfold isWhitespace
  simp [hblank]
  omega

theorem space_agree {text : Text} (h : ∀ c ∈ text.takeWhile pySpace, isSeparator c = false) :
    text.takeWhile isWhitespace = text.takeWhile pySpace ∧ text.dropWhile isWhitespace = text.dropWhile pySpace := by
  induction text with
  | nil => exact ⟨rfl, rfl⟩
  | cons c text ih =>
    cases hc : pySpace c with
    | true =>
      rw [List.takeWhile_cons_of_pos hc, List.forall_mem_cons] at h
      have hspace : isWhitespace c = true := by
        unfold pySpace at hc
        rwa [h.1, Bool.or_false] at hc
      rw [List.takeWhile_cons_of_pos hc, List.takeWhile_cons_of_pos hspace, List.dropWhile_cons_of_pos hc,
        List.dropWhile_cons_of_pos hspace, (ih h.2).1]
      exact ⟨rfl, (ih h.2).2⟩
    | false =>
      have hspace : isWhitespace c = false := (Bool.or_eq_false_iff.mp hc).1
      simp [hc, hspace]

/-- A separator stops the run of the scanner. -/
theorem space_blocked {text : Text} (h : ∃ c ∈ text.takeWhile pySpace, isSeparator c = true) :
    ∃ d rest, text.dropWhile isWhitespace = d :: rest ∧ isSeparator d = true := by
  induction text with
  | nil =>
    obtain ⟨c, hc, -⟩ := h
    exact absurd hc List.not_mem_nil
  | cons c text ih =>
    cases hspace : isWhitespace c with
    | false =>
      refine ⟨c, text, List.dropWhile_cons_of_neg (by simp [hspace]), ?_⟩
      obtain ⟨d, hd, -⟩ := h
      rw [List.takeWhile_cons] at hd
      split_ifs at hd with hc
      · unfold pySpace at hc
        rwa [hspace, Bool.false_or] at hc
      · exact absurd hd List.not_mem_nil
    | true =>
      have hc : pySpace c = true := by
        unfold pySpace
        rw [hspace, Bool.true_or]
      have hsep : isSeparator c = false := by
        cases hs : isSeparator c with
        | false => rfl
        | true => rw [not_white_of_separator hs] at hspace; cases hspace
      rw [List.dropWhile_cons_of_pos hspace]
      apply ih
      obtain ⟨d, hd, hdsep⟩ := h
      rw [List.takeWhile_cons_of_pos hc, List.mem_cons] at hd
      rcases hd with rfl | hd
      · rw [hsep] at hdsep
        cases hdsep
      · exact ⟨d, hd, hdsep⟩

theorem not_prefix_of_separator {word text : Text} {c d : Char} (hword : word.head? = some c)
    (hc : isSeparator c = false) (htext : ∃ rest, text = d :: rest) (hd : isSeparator d = true) : ¬ word <+: text := by
  obtain ⟨word, rfl⟩ := List.head?_eq_some_iff.mp hword
  obtain ⟨rest, rfl⟩ := htext
  intro h
  rw [List.cons_prefix_cons] at h
  rw [h.1, hd] at hc
  cases hc

/-- The two classes leave the same text, or neither a word. -/
theorem drop_agree {word text : Text} {c : Char} (hword : word.head? = some c) (hc : isSeparator c = false)
    (h : (∃ c ∈ text.takeWhile pySpace, isSeparator c = true) → ¬ word <+: text.dropWhile pySpace) :
    text.dropWhile isWhitespace = text.dropWhile pySpace ∨
      (¬ word <+: text.dropWhile isWhitespace ∧ ¬ word <+: text.dropWhile pySpace) := by
  by_cases hsep : ∃ c ∈ text.takeWhile pySpace, isSeparator c = true
  · obtain ⟨d, rest, hrest, hd⟩ := space_blocked hsep
    exact .inr ⟨not_prefix_of_separator hword hc ⟨rest, hrest⟩ hd, h hsep⟩
  · exact .inl (space_agree fun c hmem => by
      cases hs : isSeparator c with
      | false => rfl
      | true => exact absurd ⟨c, hmem, hs⟩ hsep).2

theorem run_agree {text : Text} (h : ¬ ∃ c ∈ text.takeWhile pySpace, isSeparator c = true) (start : Bool) :
    attempt [.run isWhitespace 0, .lineEnd] start text = attempt [.run pySpace 0, .lineEnd] start text := by
  have htake := (@space_agree text fun c hmem => by
    cases hs : isSeparator c with
    | false => rfl
    | true => exact absurd ⟨c, hmem, hs⟩ h).1
  show longest _ 0 (text.takeWhile isWhitespace).length = longest _ 0 (text.takeWhile pySpace).length
  rw [htake]

variable {text : Text}

theorem marker_agree (htext : SeparatorsApart text) {front rest : Text} (hfront : text = front ++ rest) (start : Bool) :
    attempt (markerPattern isWhitespace) start rest = attempt (markerPattern pySpace) start rest := by
  have hsplit : text = front ++ (rest.takeWhile pySpace ++ rest.dropWhile pySpace) := by
    rw [List.takeWhile_append_dropWhile, ← hfront]
  rw [attempt_marker isSpace_isWhitespace, attempt_marker isSpace_pySpace]
  rcases @drop_agree MARKER rest '#' (by decide) (by decide) fun hsep =>
    (htext _ _ _ hsplit (fun c hc => List.mem_takeWhile_imp hc) hsep).2.1 with hsame | ⟨hno, hno'⟩
  · rw [hsame]
    by_cases hmarker : MARKER <+: rest.dropWhile pySpace
    · rw [if_pos hmarker, if_pos hmarker]
      obtain ⟨after, hafter⟩ := hmarker
      rw [← hafter, List.drop_left' rfl]
      apply run_agree
      intro hsep
      refine (htext (front ++ rest.takeWhile pySpace ++ MARKER) (after.takeWhile pySpace) (after.dropWhile pySpace) ?_
        (fun c hc => List.mem_takeWhile_imp hc) hsep).2.2 (List.suffix_append _ _)
      rw [List.takeWhile_append_dropWhile, List.append_assoc, hafter, List.append_assoc, List.takeWhile_append_dropWhile,
        ← hfront]
    · rw [if_neg hmarker, if_neg hmarker]
  · rw [if_neg hno, if_neg hno']

theorem attempt_agree (htext : SeparatorsApart text) {front rest : Text} (hfront : text = front ++ rest) (start : Bool) :
    attempt (flakePattern isWhitespace) start rest = attempt (flakePattern pySpace) start rest := by
  cases start with
  | false => rfl
  | true =>
    have hsplit : text = front ++ (rest.takeWhile pySpace ++ rest.dropWhile pySpace) := by
      rw [List.takeWhile_append_dropWhile, ← hfront]
    rw [attempt_flake isSpace_isWhitespace, attempt_flake isSpace_pySpace]
    rcases @drop_agree PREFIX rest 'h' (by decide) (by decide) fun hsep =>
      (htext _ _ _ hsplit (fun c hc => List.mem_takeWhile_imp hc) hsep).1 with hsame | ⟨hno, hno'⟩
    · rw [hsame]
      have hsuffix : (((rest.dropWhile pySpace).drop PREFIX.length).dropWhile (· != '"')).drop 2 <:+ text := by
        refine .trans (List.drop_suffix _ _) (.trans (List.dropWhile_suffix _) (.trans (List.drop_suffix _ _)
          (.trans (List.dropWhile_suffix _) ?_)))
        exact ⟨front, hfront.symm⟩
      obtain ⟨front', hfront'⟩ := hsuffix
      dsimp only
      rw [marker_agree htext hfront'.symm]
    · rw [if_neg hno, if_neg hno']

/-- The scanner is the documented expression where no separator stands next to its words. -/
theorem flake_python (htext : SeparatorsApart text) : flakeVersions text = findall (flakePattern pySpace) text := by
  rw [flake_eq]
  exact find_congr fun front rest start hrest => attempt_agree htext hrest start

end Separators

end Hamn.Release
