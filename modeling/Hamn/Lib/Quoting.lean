import Mathlib.Tactic

/-!
# Quoting — words and quotes of the POSIX shell

The token and quoting rules of the shell for a text in which no character is an operator, a comment or the start of an
expansion.  An `Item` is what the rules see as one thing: a blank, a character that means itself, a quoted character, a
quoted string or a line continuation.

* `render`: the text of items, `words`: its words without their quotes.
* `Unfinished`: a text that ends inside of quotes or behind a backslash.
* `words_quoted`: strings in single quotes are the words of a line.
-/

namespace Quoting

abbrev Text := List Char

def Blank (c : Char) : Prop := c = ' ' ∨ c = '\t' ∨ c = '\n'

/-- A quote or a backslash. -/
def Special (c : Char) : Prop := c = '\'' ∨ c = '"' ∨ c = '\\'

/-- Before these a backslash quotes between double quotes. -/
def ESCAPED : Text := ['$', '\x60', '"', '\\']

/-- What stands between double quotes. -/
inductive Inner where
  | plain (c : Char)
  | escaped (c : Char)
  | backslash (c : Char)
  | continued
  deriving DecidableEq, Repr

namespace Inner

def Valid : Inner → Prop
  | plain c => c ≠ '"' ∧ c ≠ '\\'
  | escaped c => c ∈ ESCAPED
  | backslash c => c ∉ ESCAPED ∧ c ≠ '\n'
  | continued => True

def render : Inner → Text
  | plain c => [c]
  | escaped c => ['\\', c]
  | backslash c => ['\\', c]
  | continued => ['\\', '\n']

/-- What is left when quotes are removed. -/
def value : Inner → Text
  | plain c => [c]
  | escaped c => [c]
  | backslash c => ['\\', c]
  | continued => []

end Inner

inductive Item where
  | blank (c : Char)
  | plain (c : Char)
  | escaped (c : Char)
  | single (text : Text)
  | double (text : List Inner)
  | continued
  deriving DecidableEq, Repr

namespace Item

def Valid : Item → Prop
  | blank c => Blank c
  | plain c => ¬ Blank c ∧ ¬ Special c
  | escaped c => c ≠ '\n'
  | single text => '\'' ∉ text
  | double text => ∀ i ∈ text, i.Valid
  | continued => True

def render : Item → Text
  | blank c => [c]
  | plain c => [c]
  | escaped c => ['\\', c]
  | single text => '\'' :: (text ++ ['\''])
  | double text => '"' :: (text.flatMap Inner.render ++ ['"'])
  | continued => ['\\', '\n']

def value : Item → Text
  | blank _ => []
  | plain c => [c]
  | escaped c => [c]
  | single text => text
  | double text => text.flatMap Inner.value
  | continued => []

def isBlank : Item → Bool
  | blank _ => true
  | _ => false

def isContinued : Item → Bool
  | continued => true
  | _ => false

end Item

def render (items : List Item) : Text := items.flatMap Item.render

/-- Without the line continuations, the words are the runs between blanks, each without its quotes. -/
def words (items : List Item) : List Text :=
  (((items.filter fun i => !i.isContinued).splitOnP Item.isBlank).filter (· ≠ [])).map (·.flatMap Item.value)

/-- The text is written with `items`. -/
structure Written (items : List Item) (text : Text) : Prop where
  valid : ∀ i ∈ items, i.Valid
  render_eq : render items = text

/-- The last backslash quotes nothing, or the last quotes are not closed. -/
inductive Open : Text → Prop
  | backslash : Open ['\\']
  | single {text : Text} : '\'' ∉ text → Open ('\'' :: text)
  | double {text : List Inner} {last : Text} : (∀ i ∈ text, i.Valid) → last = [] ∨ last = ['\\'] →
      Open ('"' :: (text.flatMap Inner.render ++ last))

def Unfinished (text : Text) : Prop := ∃ items rest, (∀ i ∈ items, i.Valid) ∧ Open rest ∧ text = render items ++ rest

/-! ## One word after the other -/

/-- The words when `group` stands before the items. -/
def wordsFrom (group items : List Item) : List Text :=
  ((((items.filter fun i => !i.isContinued).splitOnP Item.isBlank).modifyHead (group ++ ·)).filter (· ≠ [])).map
    (·.flatMap Item.value)

theorem words_eq (items : List Item) : words items = wordsFrom [] items := by
  unfold words wordsFrom
  cases (items.filter fun i => !i.isContinued).splitOnP Item.isBlank <;> rfl

theorem wordsFrom_nil (group : List Item) :
    wordsFrom group [] = if group = [] then [] else [group.flatMap Item.value] := by
  simp only [wordsFrom, List.filter_nil, List.splitOnP_nil, List.modifyHead_cons, List.append_nil]
  split_ifs with h
  · simp [h]
  · simp [h]

theorem wordsFrom_blank (group items : List Item) {c : Char} :
    wordsFrom group (.blank c :: items) =
      (if group = [] then [] else [group.flatMap Item.value]) ++ words items := by
  have hkeep : (Item.blank c :: items).filter (fun i => !i.isContinued) =
      .blank c :: items.filter fun i => !i.isContinued := rfl
  have hblank : (Item.blank c).isBlank = true := rfl
  rw [wordsFrom, words, hkeep, List.splitOnP_cons_eq_if_modifyHead, if_pos hblank, List.modifyHead_cons,
    List.append_nil]
  split_ifs with h
  · simp [h]
  · simp [h]

theorem wordsFrom_continued (group items : List Item) :
    wordsFrom group (.continued :: items) = wordsFrom group items := rfl

theorem wordsFrom_part (group items : List Item) {i : Item} (hb : i.isBlank = false) (hc : i.isContinued = false) :
    wordsFrom group (i :: items) = wordsFrom (group ++ [i]) items := by
  rw [wordsFrom, List.filter_cons_of_pos (by rw [hc]; rfl), List.splitOnP_cons_eq_if_modifyHead,
    if_neg (by rw [hb]; exact Bool.false_ne_true), wordsFrom]
  congr 2
  cases (items.filter fun i => !i.isContinued).splitOnP Item.isBlank with
  | nil => rfl
  | cons head tail => simp

/-! ## Strings in quotes -/

/-- `'` cannot stand between single quotes: they are closed and opened again around `\'`. -/
def quoteChar (c : Char) : Text := if c = '\'' then ['\'', '\\', '\'', '\''] else [c]

def quote (word : Text) : Text := '\'' :: (word.flatMap quoteChar ++ ['\''])

/-- The items of a quoted string: `current` is what stands between the open quotes. -/
def quoteItems (current : Text) : Text → List Item
  | [] => [.single current]
  | c :: rest =>
    if c = '\'' then .single current :: .escaped '\'' :: quoteItems [] rest else quoteItems (current ++ [c]) rest

theorem quoteItems_valid {current : Text} (h : '\'' ∉ current) (word : Text) : ∀ i ∈ quoteItems current word, i.Valid := by
  induction word generalizing current with
  | nil =>
    intro i hi
    obtain rfl := List.mem_singleton.mp hi
    exact h
  | cons c word ih =>
    rw [quoteItems]
    split_ifs with hc
    · refine List.forall_mem_cons.mpr ⟨h, List.forall_mem_cons.mpr ⟨?_, ih List.not_mem_nil⟩⟩
      show '\'' ≠ '\n'
      decide
    · refine ih ?_
      simpa using ⟨h, fun h => hc h.symm⟩

theorem quoteItems_render (current word : Text) :
    render (quoteItems current word) = '\'' :: (current ++ word.flatMap quoteChar ++ ['\'']) := by
  induction word generalizing current with
  | nil => simp [quoteItems, render, Item.render]
  | cons c word ih =>
    rw [quoteItems, List.flatMap_cons, quoteChar]
    split_ifs with hc
    · have h := ih []
      unfold render at h ⊢
      rw [List.flatMap_cons, List.flatMap_cons, h]
      simp [Item.render]
    · rw [ih]
      simp

theorem quoteItems_value (current word : Text) :
    (quoteItems current word).flatMap Item.value = current ++ word := by
  induction word generalizing current with
  | nil => simp [quoteItems, Item.value]
  | cons c word ih =>
    rw [quoteItems]
    split_ifs with hc
    · rw [List.flatMap_cons, List.flatMap_cons, ih, hc]
      simp [Item.value]
    · rw [ih]
      simp

theorem quoteItems_part (current word : Text) :
    ∀ i ∈ quoteItems current word, i.isBlank = false ∧ i.isContinued = false := by
  induction word generalizing current with
  | nil =>
    intro i hi
    obtain rfl := List.mem_singleton.mp hi
    exact ⟨rfl, rfl⟩
  | cons c word ih =>
    rw [quoteItems]
    split_ifs with hc
    · exact List.forall_mem_cons.mpr ⟨⟨rfl, rfl⟩, List.forall_mem_cons.mpr ⟨⟨rfl, rfl⟩, ih []⟩⟩
    · exact ih _

theorem quoteItems_ne_nil (current word : Text) : quoteItems current word ≠ [] := by
  intro h
  have hrender := quoteItems_render current word
  rw [h] at hrender
  exact absurd hrender (List.cons_ne_nil _ _).symm

theorem wordsFrom_parts {part : List Item} (h : ∀ i ∈ part, i.isBlank = false ∧ i.isContinued = false)
    (group items : List Item) : wordsFrom group (part ++ items) = wordsFrom (group ++ part) items := by
  induction part generalizing group with
  | nil => rw [List.nil_append, List.append_nil]
  | cons i part ih =>
    obtain ⟨⟨hb, hc⟩, h⟩ := List.forall_mem_cons.mp h
    rw [List.cons_append, wordsFrom_part group (part ++ items) hb hc, ih h, List.append_assoc, List.singleton_append]

/-- The words in single quotes, with one blank between two of them. -/
def quoted (ws : List Text) : Text := [' '].intercalate (ws.map quote)

/-- Words in single quotes are the words of the line that they are joined to, the empty ones included. -/
theorem words_quoted (ws : List Text) : ∃ items, Written items (quoted ws) ∧ words items = ws := by
  induction ws with
  | nil => exact ⟨[], ⟨nofun, rfl⟩, rfl⟩
  | cons w ws ih =>
    have hvalid := quoteItems_valid List.not_mem_nil w
    have hrender : render (quoteItems [] w) = quote w := quoteItems_render [] w
    have hvalue : (quoteItems [] w).flatMap Item.value = w := quoteItems_value [] w
    have hpart := quoteItems_part [] w
    have hne := quoteItems_ne_nil [] w
    cases ws with
    | nil =>
      refine ⟨quoteItems [] w, ⟨hvalid, ?_⟩, ?_⟩
      · rw [hrender]
        simp [quoted, List.intercalate]
      · have h := wordsFrom_parts hpart [] []
        rw [List.append_nil, List.nil_append] at h
        rw [words_eq, h, wordsFrom_nil, if_neg hne, hvalue]
    | cons next ws =>
      obtain ⟨items, hwritten, hwords⟩ := ih
      refine ⟨quoteItems [] w ++ .blank ' ' :: items, ⟨?_, ?_⟩, ?_⟩
      · intro i hi
        rcases List.mem_append.mp hi with hi | hi
        · exact hvalid i hi
        · exact List.forall_mem_cons.mpr ⟨.inl rfl, hwritten.valid⟩ i hi
      · have h : render (quoteItems [] w ++ .blank ' ' :: items) = quote w ++ ' ' :: render items := by
          rw [← hrender]
          simp [render, Item.render]
        rw [h, hwritten.render_eq]
        simp [quoted, List.intercalate]
      · rw [words_eq, wordsFrom_parts hpart, wordsFrom_blank, List.nil_append, if_neg hne, hvalue, hwords,
          List.singleton_append]

/-! ## Every text is written with items, or unfinished -/

/-- The text is written with items, or it ends inside of quotes or behind a backslash. -/
def Settled (text : Text) : Prop := (∃ items, Written items text) ∨ Unfinished text

theorem Settled.cons {i : Item} (hi : i.Valid) {rest : Text} (h : Settled rest) : Settled (i.render ++ rest) := by
  rcases h with ⟨items, hvalid, rfl⟩ | ⟨items, tail, hvalid, hopen, rfl⟩
  · exact .inl ⟨i :: items, List.forall_mem_cons.mpr ⟨hi, hvalid⟩, rfl⟩
  · refine .inr ⟨i :: items, tail, List.forall_mem_cons.mpr ⟨hi, hvalid⟩, hopen, ?_⟩
    exact (List.append_assoc _ _ _).symm

theorem Open.settled {text : Text} (h : Open text) : Settled text := .inr ⟨[], text, nofun, h, rfl⟩

/-- Behind an opening `"` the quotes are closed, or the text ends before. -/
theorem double_ends (n : ℕ) (text : Text) (hn : text.length ≤ n) :
    ∃ inner : List Inner, (∀ i ∈ inner, i.Valid) ∧
      ((∃ rest, text = inner.flatMap Inner.render ++ '"' :: rest) ∨
        ∃ last, (last = [] ∨ last = ['\\']) ∧ text = inner.flatMap Inner.render ++ last) := by
  induction n generalizing text with
  | zero =>
    obtain rfl := List.eq_nil_of_length_eq_zero (Nat.le_zero.mp hn)
    exact ⟨[], nofun, .inr ⟨[], .inl rfl, rfl⟩⟩
  | succ n ih =>
    have hcons : ∀ (i : Inner) (rest : Text), i.Valid → rest.length ≤ n → text = i.render ++ rest →
        ∃ inner : List Inner, (∀ i ∈ inner, i.Valid) ∧
          ((∃ rest, text = inner.flatMap Inner.render ++ '"' :: rest) ∨
            ∃ last, (last = [] ∨ last = ['\\']) ∧ text = inner.flatMap Inner.render ++ last) := by
      rintro i rest hi hrest rfl
      obtain ⟨inner, hvalid, ⟨tail, rfl⟩ | ⟨last, hlast, rfl⟩⟩ := ih rest hrest
      · exact ⟨i :: inner, List.forall_mem_cons.mpr ⟨hi, hvalid⟩, .inl ⟨tail, (List.append_assoc _ _ _).symm⟩⟩
      · exact ⟨i :: inner, List.forall_mem_cons.mpr ⟨hi, hvalid⟩,
          .inr ⟨last, hlast, (List.append_assoc _ _ _).symm⟩⟩
    match text with
    | [] => exact ⟨[], nofun, .inr ⟨[], .inl rfl, rfl⟩⟩
    | [c] =>
      by_cases hquote : c = '"'
      · exact ⟨[], nofun, .inl ⟨[], by rw [hquote]; rfl⟩⟩
      · by_cases hback : c = '\\'
        · exact ⟨[], nofun, .inr ⟨['\\'], .inr rfl, by rw [hback]; rfl⟩⟩
        · exact hcons (.plain c) [] ⟨hquote, hback⟩ (Nat.zero_le n) rfl
    | c :: d :: rest =>
      simp only [List.length_cons] at hn
      by_cases hquote : c = '"'
      · exact ⟨[], nofun, .inl ⟨d :: rest, by rw [hquote]; rfl⟩⟩
      · by_cases hback : c = '\\'
        · subst hback
          by_cases hd : d ∈ ESCAPED
          · exact hcons (.escaped d) rest hd (by omega) rfl
          · by_cases hnewline : d = '\n'
            · exact hcons .continued rest trivial (by omega) (by rw [hnewline]; rfl)
            · exact hcons (.backslash d) rest ⟨hd, hnewline⟩ (by omega) rfl
        · exact hcons (.plain c) (d :: rest) ⟨hquote, hback⟩ (by simp only [List.length_cons]; omega) rfl

theorem settled_of_length (n : ℕ) (text : Text) (hn : text.length ≤ n) : Settled text := by
  induction n generalizing text with
  | zero =>
    obtain rfl := List.eq_nil_of_length_eq_zero (Nat.le_zero.mp hn)
    exact .inl ⟨[], nofun, rfl⟩
  | succ n ih =>
    match text with
    | [] => exact .inl ⟨[], nofun, rfl⟩
    | c :: rest =>
      simp only [List.length_cons] at hn
      by_cases hsingle : c = '\''
      · subst hsingle
        by_cases hclosed : '\'' ∈ rest
        · obtain ⟨body, tail, rfl, hbody⟩ := List.eq_append_cons_of_mem hclosed
          simp only [List.length_append, List.length_cons] at hn
          have h := Settled.cons (i := .single body) hbody (ih tail (by omega))
          rwa [Item.render, List.cons_append, List.append_assoc] at h
        · exact (Open.single hclosed).settled
      · by_cases hdouble : c = '"'
        · subst hdouble
          obtain ⟨inner, hvalid, ⟨tail, rfl⟩ | ⟨last, hlast, rfl⟩⟩ := double_ends rest.length rest le_rfl
          · simp only [List.length_append, List.length_cons] at hn
            have h := Settled.cons (i := .double inner) hvalid (ih tail (by omega))
            rwa [Item.render, List.cons_append, List.append_assoc] at h
          · exact (Open.double hvalid hlast).settled
        · by_cases hback : c = '\\'
          · subst hback
            match rest with
            | [] => exact Open.backslash.settled
            | d :: rest =>
              simp only [List.length_cons] at hn
              by_cases hnewline : d = '\n'
              · subst hnewline
                exact Settled.cons (i := .continued) trivial (ih rest (by omega))
              · exact Settled.cons (i := .escaped d) hnewline (ih rest (by omega))
          · by_cases hblank : Blank c
            · exact Settled.cons (i := .blank c) hblank (ih rest (by omega))
            · refine Settled.cons (i := .plain c) ⟨hblank, ?_⟩ (ih rest (by omega))
              rintro (h | h | h)
              · exact hsingle h
              · exact hdouble h
              · exact hback h

theorem settled (text : Text) : Settled text := settled_of_length text.length text le_rfl

end Quoting
