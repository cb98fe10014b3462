import Hamn.Lib.Bytes

/-!
# Shell — simple commands of the POSIX shell

A simple command without expansions: words that quotes may hold together, separated by blanks.  `split` finds the words
and removes the quotes, and has no answer where the shell does anything else: where an operator, an expansion, a pattern
or a comment starts, or where the first word is reserved or assigns a variable.

* `Lexer.next`: one byte.
* `run_words`: words that each are read as themselves are read one after the other.
-/

namespace Shell

open Bytes

inductive Mode where
  | plain
  | escape
  | single
  | double
  | doubleEscape
  deriving DecidableEq, Repr

/-- The words so far, the word that is read, and whether all of it is unquoted. -/
structure Lexer where
  words : List Bytes := []
  word : Option Bytes := none
  bare : Bool := true
  mode : Mode := .plain
  deriving DecidableEq, Repr

def BLANKS : Bytes := [32, 9]

/-- Newline and the first bytes of operators: `&`, `|`, `;`, `<`, `>`, `(` and `)`. -/
def OPERATORS : Bytes := [10, 38, 124, 59, 60, 62, 40, 41]

/-- `$` and the backquote. -/
def EXPANSIONS : Bytes := [36, 96]

/-- The first bytes of patterns, and the tilde: `*`, `?`, `[` and `~`. -/
def PATTERNS : Bytes := [42, 63, 91, 126]

/-- What a backslash quotes between double quotes: `$`, the backquote, `"`, the backslash and a newline. -/
def DOUBLE_ESCAPED : Bytes := [36, 96, 34, 92, 10]

/-- The words that are no command. -/
def RESERVED : List Bytes :=
  ["!", "\x7b", "\x7d", "[[", "]]", "case", "do", "done", "elif", "else", "esac", "fi", "for", "function", "if", "in",
    "select", "then", "time", "until", "while"].map ascii

/-- The name of a variable. -/
def isName : Bytes → Bool
  | [] => false
  | c :: rest => !isDecimal c && (c :: rest).all fun d => isAlphanumeric d || d == 95

namespace Lexer

/-- `c` becomes a part of the word. -/
def add (s : Lexer) (c : UInt8) : Lexer := { s with word := some (s.word.getD [] ++ [c]) }

/-- A quote starts: there is a word, even if it stays empty. -/
def quote (s : Lexer) (mode : Mode) : Lexer := { s with word := some (s.word.getD []), bare := false, mode := mode }

/-- The word ends. -/
def endWord (s : Lexer) : Option Lexer :=
  match s.word with
  | none => some s
  | some w =>
    if s.words = [] ∧ s.bare = true ∧ w ∈ RESERVED then none
    else some { s with words := s.words ++ [w], word := none, bare := true }

/-- A byte outside of quotes. -/
def plain (s : Lexer) (c : UInt8) : Option Lexer :=
  if c ∈ BLANKS then s.endWord
  else if c ∈ OPERATORS ∨ c ∈ EXPANSIONS ∨ c ∈ PATTERNS then none
  else if c = 35 ∧ s.word = none then none
  else if c = 92 then some { s with mode := .escape }
  else if c = 39 then some (s.quote .single)
  else if c = 34 then some (s.quote .double)
  else if c = 61 ∧ s.words = [] ∧ s.bare = true ∧ isName (s.word.getD []) = true then none
  else some (s.add c)

def next (s : Lexer) (c : UInt8) : Option Lexer :=
  match s.mode with
  | .plain => s.plain c
  | .escape => if c = 10 then some { s with mode := .plain } else some { s.add c with bare := false, mode := .plain }
  | .single => if c = 39 then some { s with mode := .plain } else some (s.add c)
  | .double =>
    if c = 34 then some { s with mode := .plain }
    else if c ∈ EXPANSIONS then none
    else if c = 92 then some { s with mode := .doubleEscape }
    else some (s.add c)
  | .doubleEscape =>
    if c = 10 then some { s with mode := .double }
    else if c ∈ DOUBLE_ESCAPED then some { s.add c with mode := .double }
    else some { (s.add 92).add c with mode := .double }

end Lexer

def run (s : Lexer) : Bytes → Option Lexer
  | [] => some s
  | c :: rest => (s.next c).bind fun t => run t rest

/-- The words of a simple command, without their quotes. -/
def split (command : Bytes) : Option (List Bytes) :=
  (run {} command).bind fun s => if s.mode = .plain then s.endWord.map Lexer.words else none

/-! ## Rules -/

theorem run_append {s t : Lexer} {b b' : Bytes} (h : run s b = some t) : run s (b ++ b') = run t b' := by
  induction b generalizing s with
  | nil =>
    obtain rfl := Option.some.inj h
    rfl
  | cons c b ih =>
    obtain ⟨u, hu, h⟩ := Option.bind_eq_some_iff.mp h
    rw [List.cons_append, run, hu, Option.bind_some]
    exact ih h

/-- A byte that means itself anywhere in a word. -/
def isOrdinary (c : UInt8) : Bool :=
  !(BLANKS ++ OPERATORS ++ EXPANSIONS ++ PATTERNS).contains c && !([35, 92, 39, 34] : Bytes).contains c

theorem next_ordinary {s : Lexer} (hm : s.mode = .plain) {c : UInt8} (hc : isOrdinary c = true)
    (heq : c = 61 → s.words ≠ []) : s.next c = some (s.add c) := by
  unfold isOrdinary at hc
  simp only [Bool.and_eq_true, Bool.not_eq_true', List.contains_eq_mem, decide_eq_false_iff_not, List.mem_append,
    List.mem_cons, List.not_mem_nil, or_false, not_or] at hc
  obtain ⟨⟨⟨⟨h1, h2⟩, h3⟩, h4⟩, h5, h6, h7, h8⟩ := hc
  unfold Lexer.next
  rw [hm]
  simp only
  unfold Lexer.plain
  rw [if_neg h1, if_neg (by simp [h2, h3, h4]), if_neg fun h => h5 h.1, if_neg h6, if_neg h7, if_neg h8,
    if_neg fun h => heq h.1 h.2.1]

/-- Ordinary bytes are read as a part of the word. -/
theorem run_ordinary {s : Lexer} (hm : s.mode = .plain) {w : Bytes} (hw : ∀ c ∈ w, isOrdinary c = true)
    (heq : 61 ∈ w → s.words ≠ []) (hne : w ≠ []) : run s w = some { s with word := some (s.word.getD [] ++ w) } := by
  induction w generalizing s with
  | nil => exact absurd rfl hne
  | cons c w ih =>
    rw [run, next_ordinary hm (hw c List.mem_cons_self) fun h => heq (h ▸ List.mem_cons_self), Option.bind_some]
    cases w with
    | nil => rfl
    | cons d w =>
      rw [ih (s := s.add c) hm (fun x hx => hw x (List.mem_cons_of_mem _ hx))
        (fun h => heq (List.mem_cons_of_mem _ h)) (List.cons_ne_nil _ _)]
      simp [Lexer.add]

/-- Between single quotes every other byte means itself. -/
theorem run_single {s : Lexer} (hm : s.mode = .single) {w : Bytes} (hw : 39 ∉ w) {v : Bytes} (hv : s.word = some v) :
    run s w = some { s with word := some (v ++ w) } := by
  induction w generalizing s v with
  | nil =>
    rw [List.append_nil, ← hv]
    rfl
  | cons c w ih =>
    rw [List.mem_cons, not_or] at hw
    have hnext : s.next c = some (s.add c) := by
      unfold Lexer.next
      rw [hm]
      simp only
      rw [if_neg fun h => hw.1 h.symm]
    rw [run, hnext, Option.bind_some, ih (s := s.add c) hm hw.2 (v := v ++ [c]) (by rw [Lexer.add, hv]; rfl)]
    simp [Lexer.add]

/-- The text is read as the word `w`, wherever a word can start. -/
def Reads (text w : Bytes) : Prop :=
  ∀ s : Lexer, s.mode = .plain → s.word = none → s.bare = true → (s.words = [] → 61 ∉ w ∧ w ∉ RESERVED) →
    ∃ bare, run s text = some { s with word := some w, bare := bare }

/-- A bare word is read as itself. -/
theorem reads_ordinary {w : Bytes} (hw : ∀ c ∈ w, isOrdinary c = true) (hne : w ≠ []) : Reads w w := by
  intro s hm hword hbare hfirst
  refine ⟨s.bare, ?_⟩
  rw [run_ordinary hm hw (fun h hs => (hfirst hs).1 h) hne, hword]
  rfl

/-- Text between single quotes is read as the word where the text of each byte is read as the byte, also if it leaves the
quotes and enters them again. -/
theorem reads_quoted {text : UInt8 → Bytes}
    (h : ∀ words v c, run ⟨words, some v, false, .single⟩ (text c) = some ⟨words, some (v ++ [c]), false, .single⟩)
    (w : Bytes) : Reads (39 :: (w.flatMap text ++ [39])) w := by
  have hin : ∀ words v, run ⟨words, some v, false, .single⟩ (w.flatMap text) =
      some ⟨words, some (v ++ w), false, .single⟩ := by
    intro words
    induction w with
    | nil =>
      intro v
      rw [List.append_nil]
      rfl
    | cons c w ih =>
      intro v
      rw [List.flatMap_cons, run_append (h words v c), ih, List.append_assoc, List.singleton_append]
  intro s hm hword hbare hfirst
  obtain ⟨words, word, bare, mode⟩ := s
  obtain rfl : mode = .plain := hm
  obtain rfl : word = none := hword
  refine ⟨false, ?_⟩
  have hopen : Lexer.next ⟨words, none, bare, .plain⟩ 39 = some ⟨words, some [], false, .single⟩ := rfl
  rw [run, hopen, Option.bind_some, run_append (hin words [])]
  rfl

/-- Words that are each read as themselves, with blanks between them, are the words of the command. -/
theorem run_words {texts argv : List Bytes} (h : List.Forall₂ Reads texts argv) {done : List Bytes}
    (hfirst : done = [] → ∀ w ∈ argv.head?, 61 ∉ w ∧ w ∉ RESERVED) (hne : argv ≠ []) :
    ∃ s, run { words := done } (List.intercalate [32] texts) = some s ∧ s.mode = .plain ∧
      s.endWord.map Lexer.words = some (done ++ argv) := by
  induction h generalizing done with
  | nil => exact absurd rfl hne
  | @cons text w texts argv hread htail ih =>
    have hw := fun h => hfirst h w rfl
    obtain ⟨bare, hrun⟩ := hread { words := done } rfl rfl rfl hw
    set s : Lexer := { words := done, word := some w, bare := bare } with hs
    have hend : s.endWord = some { words := done ++ [w] } := by
      unfold Lexer.endWord
      rw [hs]
      simp only
      rw [if_neg fun h => (hw h.1).2 h.2.2]
    cases htail with
    | nil =>
      refine ⟨s, ?_, rfl, ?_⟩
      · simpa [List.intercalate] using hrun
      · rw [hend]
        rfl
    | @cons text' w' texts argv hread' htail' =>
      obtain ⟨t, hrest, hmode, hdone⟩ := @ih (done ++ [w]) (fun h => absurd h (by simp)) (List.cons_ne_nil _ _)
      refine ⟨t, ?_, hmode, ?_⟩
      · have hblank : run s [32] = some { words := done ++ [w] } := by
          rw [run]
          change (s.endWord).bind _ = _
          rw [hend]
          rfl
        rw [show List.intercalate [32] (text :: text' :: texts) = text ++ ([32] ++ List.intercalate [32] (text' :: texts))
          by simp [List.intercalate], run_append hrun, run_append hblank]
        exact hrest
      · rw [hdone]
        simp

theorem split_words {texts argv : List Bytes} (h : List.Forall₂ Reads texts argv)
    (hfirst : ∀ w ∈ argv.head?, 61 ∉ w ∧ w ∉ RESERVED) (hne : argv ≠ []) :
    split (List.intercalate [32] texts) = some argv := by
  obtain ⟨s, hrun, hmode, hdone⟩ := @run_words _ _ h [] (fun _ => hfirst) hne
  unfold split
  rw [hrun, Option.bind_some, if_pos hmode, hdone]
  rfl

end Shell
