import Hamn.Lib.Quoting
import Hamn.Tui.Request

/-!
# Words — a typed command is split as the shell splits it

`splitCommand` goes through the command once, with the words so far, the word that is read, the open quote and a pending
backslash.  The items of the quoting rules are read one after the other.

* `Splitter.between`: the splitter between two items.
* `read_item`: what one item adds.
* `splitCommand_written`, `splitCommand_unfinished`: the words of a text that is written with items, and the failure of
  any other.
-/

namespace Hamn.Tui

open Quoting

namespace Splitter

def read (s : Splitter) (text : Word) : Splitter := text.foldl next s

theorem read_append (s : Splitter) (a b : Word) : s.read (a ++ b) = (s.read a).read b := List.foldl_append

/-- No quote is open and no backslash pends; `group` are the items of the word that is read. -/
def between (ws : List Word) (group : List Item) : Splitter :=
  { words := ws, word := group.flatMap Item.value, started := decide (group ≠ []) }

theorem between_concat (ws : List Word) (group : List Item) (i : Item) :
    between ws (group ++ [i]) =
      { words := ws, word := group.flatMap Item.value ++ i.value, started := true } := by
  unfold between
  rw [List.flatMap_append, List.flatMap_singleton]
  simp

/-! ## One item -/

theorem read_inner {s : Splitter} (hq : s.quote = some '"') (he : s.escaped = false) (hs : s.started = true) {i : Inner}
    (hi : i.Valid) : s.read i.render = { s with word := s.word ++ i.value } := by
  obtain ⟨ws, w, q, e, st⟩ := s
  obtain rfl : q = some '"' := hq
  obtain rfl : e = false := he
  obtain rfl : st = true := hs
  cases i with
  | plain c =>
    obtain ⟨hquote, hback⟩ := hi
    simp [read, next, Inner.render, Inner.value, hback, Ne.symm hquote]
  | escaped c =>
    have hn : c ≠ '\n' := by
      rintro rfl
      exact absurd hi (by simp [Inner.Valid, ESCAPED])
    have hc : c = '$' ∨ c = '\x60' ∨ c = '"' ∨ c = '\\' := by simpa [Inner.Valid, ESCAPED] using hi
    simp only [read, Inner.render, List.foldl_cons, List.foldl_nil, next, Inner.value]
    rcases hc with rfl | rfl | rfl | rfl <;> simp
  | backslash c =>
    obtain ⟨hc, hn⟩ := hi
    have hc : c ≠ '$' ∧ c ≠ '\x60' ∧ c ≠ '"' ∧ c ≠ '\\' := by simpa [ESCAPED] using hc
    simp only [read, Inner.render, List.foldl_cons, List.foldl_nil, next, Inner.value]
    simp [hn, hc]
  | continued => simp [read, next, Inner.render, Inner.value]

theorem read_inners {s : Splitter} (hq : s.quote = some '"') (he : s.escaped = false) (hs : s.started = true)
    {text : List Inner} (h : ∀ i ∈ text, i.Valid) :
    s.read (text.flatMap Inner.render) = { s with word := s.word ++ text.flatMap Inner.value } := by
  induction text generalizing s with
  | nil => simp [read]
  | cons i text ih =>
    obtain ⟨hi, hrest⟩ := List.forall_mem_cons.mp h
    rw [List.flatMap_cons, read_append, read_inner hq he hs hi,
      ih (s := { s with word := s.word ++ i.value }) hq he hs hrest, List.flatMap_cons, List.append_assoc]

theorem read_single {s : Splitter} (hq : s.quote = some '\'') (he : s.escaped = false) (hs : s.started = true)
    {text : Word} (h : '\'' ∉ text) : s.read text = { s with word := s.word ++ text } := by
  induction text generalizing s with
  | nil => simp [read]
  | cons c text ih =>
    obtain ⟨hc, hrest⟩ := List.ne_and_not_mem_of_not_mem_cons h
    have hnext : s.next c = { s with word := s.word ++ [c] } := by
      unfold next
      rw [he, if_neg Bool.false_ne_true, hq, if_neg (by simp), if_neg (by simpa using hc), if_neg (by simp),
        if_neg (by simp), ← hs]
    show (s.next c).read text = _
    rw [hnext, ih (s := { s with word := s.word ++ [c] }) hq he hs hrest, List.append_assoc, List.singleton_append]

/-- A part of a word is added to it, and the word has started. -/
theorem read_item (ws : List Word) (group : List Item) {i : Item} (hi : i.Valid) (hb : i.isBlank = false)
    (hc : i.isContinued = false) : (between ws group).read i.render = between ws (group ++ [i]) := by
  rw [between_concat]
  cases i with
  | blank c => exact absurd hb (by simp [Item.isBlank])
  | continued => exact absurd hc (by simp [Item.isContinued])
  | plain c =>
    obtain ⟨hblank, hspecial⟩ := hi
    unfold Blank at hblank
    unfold Special at hspecial
    simp only [not_or] at hblank hspecial
    simp [read, next, between, Item.render, Item.value, hblank, hspecial]
  | escaped c =>
    have hn : c ≠ '\n' := hi
    simp [read, next, between, Item.render, Item.value, hn]
  | single text =>
    have hopen : (between ws group).next '\'' =
        { words := ws, word := group.flatMap Item.value, quote := some '\'', started := true } := by
      simp [next, between]
    show (((between ws group).next '\'').read (text ++ ['\''])) = _
    rw [hopen, read_append, read_single rfl rfl rfl hi]
    simp [read, next, Item.value]
  | double text =>
    have hopen : (between ws group).next '"' =
        { words := ws, word := group.flatMap Item.value, quote := some '"', started := true } := by
      simp [next, between]
    show (((between ws group).next '"').read (text.flatMap Inner.render ++ ['"'])) = _
    rw [hopen, read_append, read_inners rfl rfl rfl hi]
    simp [read, next, Item.value]

theorem read_blank (ws : List Word) (group : List Item) {c : Char} (hc : Blank c) :
    (between ws group).read (Item.blank c).render =
      between (ws ++ if group = [] then [] else [group.flatMap Item.value]) [] := by
  have hends : ∀ s : Splitter, s.quote = none → s.escaped = false → s.next c =
      if s.started then { s with words := s.words ++ [s.word], word := [], started := false } else s := by
    intro s hq he
    have hne : c ≠ '\\' ∧ c ≠ '\'' ∧ c ≠ '"' := by
      rcases hc with rfl | rfl | rfl <;> decide
    unfold next
    rw [he, if_neg Bool.false_ne_true, hq, if_neg (by simp [hne.1]), if_neg (by simp), if_neg (by simp [hne.2]),
      if_pos ⟨rfl, hc⟩]
  show (between ws group).next c = _
  rw [hends _ rfl rfl]
  by_cases hg : group = []
  · subst hg
    simp [between]
  · simp [between, hg]

theorem read_continued (ws : List Word) (group : List Item) :
    (between ws group).read Item.continued.render = between ws group := by
  simp [read, next, between, Item.render]

/-! ## All items -/

/-- Behind items the splitter is between two items, and its words are those of the items. -/
theorem read_render {items : List Item} (h : ∀ i ∈ items, i.Valid) (ws : List Word) (group : List Item) :
    ∃ ws' group', (between ws group).read (render items) = between ws' group' ∧
      ws' ++ wordsFrom group' [] = ws ++ wordsFrom group items := by
  induction items generalizing ws group with
  | nil => exact ⟨ws, group, rfl, rfl⟩
  | cons i items ih =>
    obtain ⟨hi, hrest⟩ := List.forall_mem_cons.mp h
    rw [show render (i :: items) = i.render ++ render items from rfl, read_append]
    by_cases hb : i.isBlank = true
    · cases i with
      | blank c =>
        obtain ⟨ws', group', hread, hwords⟩ :=
          ih hrest (ws ++ if group = [] then [] else [group.flatMap Item.value]) []
        refine ⟨ws', group', ?_, ?_⟩
        · rw [read_blank ws group hi, hread]
        · rw [hwords, wordsFrom_blank, words_eq, List.append_assoc]
      | _ => exact absurd hb (by simp [Item.isBlank])
    · by_cases hc : i.isContinued = true
      · cases i with
        | continued =>
          rw [read_continued]
          exact ih hrest ws group
        | _ => exact absurd hc (by simp [Item.isContinued])
      · rw [read_item ws group hi (by simpa using hb) (by simpa using hc),
          wordsFrom_part group items (by simpa using hb) (by simpa using hc)]
        exact ih hrest ws (group ++ [i])

/-- Behind an unfinished rest a quote is open or a backslash pends. -/
theorem read_open (ws : List Word) (group : List Item) {rest : Word} (h : Open rest) :
    ((between ws group).read rest).escaped = true ∨ ((between ws group).read rest).quote.isSome = true := by
  cases h with
  | backslash => exact .inl (by simp [read, next, between])
  | @single text hclosed =>
    have hopen : (between ws group).next '\'' =
        { words := ws, word := group.flatMap Item.value, quote := some '\'', started := true } := by
      simp [next, between]
    refine .inr ?_
    show (((between ws group).next '\'').read text).quote.isSome = true
    rw [hopen, read_single rfl rfl rfl hclosed]
    rfl
  | @double text last hvalid hlast =>
    have hopen : (between ws group).next '"' =
        { words := ws, word := group.flatMap Item.value, quote := some '"', started := true } := by
      simp [next, between]
    have hread : (between ws group).read ('"' :: (text.flatMap Inner.render ++ last)) =
        (((between ws group).next '"').read (text.flatMap Inner.render)).read last := read_append _ _ _
    rw [hread, hopen, read_inners rfl rfl rfl hvalid]
    rcases hlast with rfl | rfl
    · exact .inr rfl
    · exact .inl (by simp [read, next])

end Splitter

/-! ## The command -/

theorem splitCommand_written {items : List Item} {text : Word} (h : Written items text) :
    splitCommand text = .ok (Quoting.words items) := by
  obtain ⟨hvalid, rfl⟩ := h
  obtain ⟨ws, group, hread, hwords⟩ := Splitter.read_render hvalid [] []
  have hfold : (render items).foldl Splitter.next {} = Splitter.between ws group := hread
  unfold splitCommand
  rw [hfold, words_eq, ← List.nil_append (wordsFrom [] items), ← hwords, wordsFrom_nil]
  by_cases hg : group = []
  · subst hg
    simp [Splitter.between]
  · simp [Splitter.between, hg]

/-- The failure of a command that ends inside of quotes or behind a backslash. -/
def UNFINISHED : Failure := ⟨"invalidRequest", "unfinished quote or escape in command"⟩

theorem splitCommand_unfinished {text : Word} (h : Unfinished text) : splitCommand text = .error UNFINISHED := by
  obtain ⟨items, rest, hvalid, hopen, rfl⟩ := h
  obtain ⟨ws, group, hread, -⟩ := Splitter.read_render hvalid [] []
  have hfold : (render items ++ rest).foldl Splitter.next {} = (Splitter.between ws group).read rest := by
    rw [← hread]
    exact Splitter.read_append _ _ _
  unfold splitCommand
  rw [hfold]
  exact if_pos (Splitter.read_open ws group hopen)

/-- A typed command is split as the shell splits it: it fails exactly when a quote is not closed or the last backslash
quotes nothing, and otherwise its words are those of the quoting rules; words in single quotes come back. -/
theorem splitCommand_shell :
    (∀ text, splitCommand text = .error UNFINISHED ↔ Unfinished text) ∧
    (∀ text ws, splitCommand text = .ok ws ↔ ∃ items, Written items text ∧ Quoting.words items = ws) ∧
    ∀ ws, splitCommand (quoted ws) = .ok ws := by
  refine ⟨fun text => ⟨fun h => ?_, splitCommand_unfinished⟩, fun text ws => ⟨fun h => ?_, ?_⟩, fun ws => ?_⟩
  · rcases settled text with ⟨items, hwritten⟩ | hunfinished
    · rw [splitCommand_written hwritten] at h
      exact absurd h nofun
    · exact hunfinished
  · rcases settled text with ⟨items, hwritten⟩ | hunfinished
    · rw [splitCommand_written hwritten] at h
      exact ⟨items, hwritten, Except.ok.inj h⟩
    · rw [splitCommand_unfinished hunfinished] at h
      exact absurd h nofun
  · rintro ⟨items, hwritten, rfl⟩
    exact splitCommand_written hwritten
  · obtain ⟨items, hwritten, hwords⟩ := words_quoted ws
    rw [splitCommand_written hwritten, hwords]

example : splitCommand "ps --filter 'name=a b' \"\"".toList =
    .ok ["ps".toList, "--filter".toList, "name=a b".toList, []] := by decide

end Hamn.Tui
