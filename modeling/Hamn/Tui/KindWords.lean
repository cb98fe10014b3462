import Hamn.Lib.Split
import Hamn.Lib.Utf8
import Hamn.Tui.Confirmation
import Hamn.Tui.Native

/-!
# KindWords — the words of the cluster's kinds (`words` of `control/cluster_kinds.rs`)

* `words`: the words that complete `get`, from the output of `kubectl api-resources -o name`.
* `Stands`: the resource that a word stands for among the listed ones.
* `words_spec`: the names and the words match one to one, in order.
* `parse_resource`: the command `get WORD` is a resource list.
-/

namespace Hamn.Tui.KindWords

/-! ## Model -/

/-- `std::str::from_utf8` -/
def fromUtf8 (output : List UInt8) : Option Word := (String.fromUTF8? ⟨output.toArray⟩).map String.toList

def LIMIT : ℕ := 120

def shorten (text : Word) : Word := if text.length ≤ LIMIT then text else text.take LIMIT ++ ['…']

/-- The length of a label in bytes. -/
def byteLength (text : Word) : ℕ := (Utf8.text text).length

def dnsLabel (label : Word) : Bool :=
  decide (1 ≤ byteLength label ∧ byteLength label ≤ 63) &&
    (label.all fun c => c.isLower || c.isDigit || c == '-') && !(label.head? == some '-') &&
      !(label.getLast? == some '-')

/-- `split_once('.')` -/
def splitDot (name : Word) : Option (Word × Word) :=
  if '.' ∈ name then some (name.takeWhile (· ≠ '.'), (name.dropWhile (· ≠ '.')).drop 1) else none

def pluralOf (name : Word) : Word :=
  match splitDot name with
  | some (plural, _) => plural
  | none => name

def resourceName (line : Word) : Bool :=
  match splitDot line with
  | none => dnsLabel line
  | some (plural, group) => dnsLabel plural && decide (byteLength group ≤ 253) && (group.splitOn '.').all dnsLabel

def refuse (p : Printer) (what : Word ⊕ Word) : Failure :=
  ⟨"cliProtocol", String.ofList ("kubectl api-resources printed ".toList ++
    match what with
    | .inl text => text
    | .inr line => (Shown.text (String.ofList (shorten line))).write p ++ ", which is not a resource name".toList)⟩

/-- Strings in the order of their bytes. -/
def byteLe (a b : Word) : Bool := decide (Utf8.text a ≤ Utf8.text b)

/-- The elements of a `BTreeSet`. -/
def btreeSet (items : List Word) : List Word := items.dedup.mergeSort byteLe

/-- Shortest first, then by bytes. -/
def wordLe (a b : Word) : Bool :=
  decide (byteLength a < byteLength b) || (decide (byteLength a = byteLength b) && byteLe a b)

/-- The word of a name; `names` are all of them. -/
def wordOf (names : List Word) (name : Word) : Word :=
  if (names.filter fun n => pluralOf n = pluralOf name).length = 1 then pluralOf name else name

def checkLine (p : Printer) (line : Word) : Except Failure Word :=
  if resourceName line then .ok line else .error (refuse p (.inr line))

def words (p : Printer) (output : List UInt8) : Except Failure (List Word) :=
  match fromUtf8 output with
  | none => .error (refuse p (.inl "output that is not UTF-8".toList))
  | some text =>
    if text = [] then .ok []
    else if text.getLast? ≠ some '\n' then .error (refuse p (.inl "a last line without a newline".toList))
    else do
      let lines ← (text.dropLast.splitOn '\n').mapM (checkLine p)
      let names := btreeSet lines
      .ok ((btreeSet (names.map (wordOf names))).mergeSort wordLe)

/-! ## Names -/

theorem splitDot_none {name : Word} (h : '.' ∉ name) : splitDot name = none := if_neg h

theorem splitDot_some {name : Word} (h : '.' ∈ name) :
    splitDot name = some (name.takeWhile (· ≠ '.'), (name.dropWhile (· ≠ '.')).drop 1) := if_pos h

theorem pluralOf_eq (name : Word) : pluralOf name = name.takeWhile (· ≠ '.') := by
  unfold pluralOf
  by_cases h : '.' ∈ name
  · rw [splitDot_some h]
  · rw [splitDot_none h]
    refine (List.takeWhile_eq_self_iff.mpr fun c hc => ?_).symm
    rw [decide_eq_true_eq]
    rintro rfl
    exact h hc

theorem pluralOf_dotless (name : Word) : '.' ∉ pluralOf name := by
  rw [pluralOf_eq]
  intro h
  simpa using List.mem_takeWhile_imp h

theorem pluralOf_self {name : Word} (h : '.' ∉ name) : pluralOf name = name := by
  unfold pluralOf
  rw [splitDot_none h]

/-- A character of a word. -/
def WordChar (c : Char) : Prop := c.isLower = true ∨ c.isDigit = true ∨ c = '-' ∨ c = '.'

theorem dnsLabel_spec {label : Word} (h : dnsLabel label = true) :
    label ≠ [] ∧ label.head? ≠ some '-' ∧ ∀ c ∈ label, WordChar c := by
  unfold dnsLabel at h
  simp only [Bool.and_eq_true, decide_eq_true_eq, List.all_eq_true, Bool.not_eq_true', beq_eq_false_iff_ne,
    Bool.or_eq_true, beq_iff_eq] at h
  obtain ⟨⟨⟨⟨hpos, -⟩, hall⟩, hhead⟩, -⟩ := h
  refine ⟨?_, hhead, fun c hc => ?_⟩
  · rintro rfl
    exact absurd hpos (by decide)
  · obtain (h | h) | h := hall c hc
    · exact .inl h
    · exact .inr (.inl h)
    · exact .inr (.inr (.inl h))

/-- What `native::parse` asks of a resource: a word that is no option. -/
structure Plain (word : Word) : Prop where
  ne_nil : word ≠ []
  head : word.head? ≠ some '-'
  chars : ∀ c ∈ word, WordChar c

theorem mem_intercalate {sep : Word} {c : Char} {parts : List Word} (h : c ∈ sep.intercalate parts) :
    c ∈ sep ∨ ∃ part ∈ parts, c ∈ part := by
  induction parts with
  | nil => exact absurd h (by simp)
  | cons part parts ih =>
    by_cases hne : parts = []
    · subst hne
      exact .inr ⟨part, List.mem_cons_self, by simpa using h⟩
    · rw [List.intercalate_cons_of_ne_nil hne] at h
      rcases List.mem_append.mp h with h | h
      · rcases List.mem_append.mp h with h | h
        · exact .inr ⟨part, List.mem_cons_self, h⟩
        · exact .inl h
      · obtain h | ⟨p, hp, hc⟩ := ih h
        · exact .inl h
        · exact .inr ⟨p, List.mem_cons_of_mem _ hp, hc⟩

/-- A name is its plural, and a dot and its group behind it. -/
theorem plain_name {name : Word} (h : resourceName name = true) : Plain name ∧ Plain (pluralOf name) := by
  unfold resourceName at h
  by_cases hdot : '.' ∈ name
  · rw [splitDot_some hdot] at h
    simp only [Bool.and_eq_true, decide_eq_true_eq, List.all_eq_true] at h
    obtain ⟨⟨hlabel, -⟩, hgroup⟩ := h
    obtain ⟨hne, hhead, hchars⟩ := dnsLabel_spec hlabel
    have hcut := Split.cut_eq hdot
    rw [pluralOf_eq]
    refine ⟨⟨List.ne_nil_of_mem hdot, ?_, ?_⟩, ⟨hne, hhead, hchars⟩⟩
    · rw [hcut, List.head?_append_of_ne_nil _ hne]
      exact hhead
    · intro c hc
      rw [hcut] at hc
      rcases List.mem_append.mp hc with hc | hc
      · exact hchars c hc
      rcases List.mem_cons.mp hc with rfl | hc
      · exact .inr (.inr (.inr rfl))
      have hjoin : ['.'].intercalate (((name.dropWhile (· ≠ '.')).drop 1).splitOn '.') =
          (name.dropWhile (· ≠ '.')).drop 1 := List.intercalate_splitOn '.'
      rw [← hjoin] at hc
      obtain hc | ⟨part, hpart, hc⟩ := mem_intercalate hc
      · exact .inr (.inr (.inr (List.mem_singleton.mp hc)))
      · exact (dnsLabel_spec (hgroup part hpart)).2.2 c hc
  · rw [splitDot_none hdot] at h
    obtain ⟨hne, hhead, hchars⟩ := dnsLabel_spec h
    rw [pluralOf_self hdot]
    exact ⟨⟨hne, hhead, hchars⟩, ⟨hne, hhead, hchars⟩⟩

/-! ## Sets and order -/

theorem byteLe_iff {a b : Word} : byteLe a b = true ↔ Utf8.text a ≤ Utf8.text b := decide_eq_true_iff

theorem wordLe_iff {a b : Word} : wordLe a b = true ↔
    byteLength a < byteLength b ∨ byteLength a = byteLength b ∧ Utf8.text a ≤ Utf8.text b := by
  unfold wordLe
  rw [Bool.or_eq_true, Bool.and_eq_true, decide_eq_true_iff, decide_eq_true_iff, byteLe_iff]

theorem mem_btreeSet {items : List Word} {item : Word} : item ∈ btreeSet items ↔ item ∈ items := by
  unfold btreeSet
  rw [(List.mergeSort_perm _ _).mem_iff, List.mem_dedup]

theorem nodup_btreeSet (items : List Word) : (btreeSet items).Nodup :=
  (List.mergeSort_perm _ _).nodup_iff.mpr (List.nodup_dedup items)

/-- In order, each shorter than the next or of its length and before it in bytes. -/
def Before (a b : Word) : Prop :=
  byteLength a < byteLength b ∨ byteLength a = byteLength b ∧ Utf8.text a < Utf8.text b

theorem sorted_words {items : List Word} (h : items.Nodup) : (items.mergeSort wordLe).Pairwise Before := by
  have htrans : ∀ a b c, wordLe a b = true → wordLe b c = true → wordLe a c = true := by
    intro a b c hab hbc
    rw [wordLe_iff] at hab hbc ⊢
    rcases hab with hab | ⟨hab, hab'⟩
    · rcases hbc with hbc | ⟨hbc, -⟩ <;> exact .inl (by omega)
    · rcases hbc with hbc | ⟨hbc, hbc'⟩
      · exact .inl (by omega)
      · exact .inr ⟨hab.trans hbc, List.le_trans hab' hbc'⟩
  have htotal : ∀ a b, (wordLe a b || wordLe b a) = true := by
    intro a b
    rw [Bool.or_eq_true, wordLe_iff, wordLe_iff]
    rcases Nat.lt_trichotomy (byteLength a) (byteLength b) with hlt | heq | hgt
    · exact .inl (.inl hlt)
    · rcases List.le_total (Utf8.text a) (Utf8.text b) with hle | hle
      · exact .inl (.inr ⟨heq, hle⟩)
      · exact .inr (.inr ⟨heq.symm, hle⟩)
    · exact .inr (.inl hgt)
  have hnodup : (items.mergeSort wordLe).Nodup := (List.mergeSort_perm _ _).nodup_iff.mpr h
  refine ((List.pairwise_mergeSort htrans htotal items).and hnodup).imp fun {a b} hab => ?_
  obtain ⟨hle, hne⟩ := hab
  rcases wordLe_iff.mp hle with hlt | ⟨heq, hle⟩
  · exact .inl hlt
  · exact .inr ⟨heq, List.not_le.mp fun hge => hne (Utf8.text_injective (List.le_antisymm hle hge))⟩

/-! ## Words and names -/

/-- The listed name that a word stands for: the word itself, or the only name with that plural. -/
def Stands (listed : List Word) (word name : Word) : Prop :=
  name ∈ listed ∧ (word = name ∨ word = pluralOf name ∧ ∀ n ∈ listed, pluralOf n = word → n = name)

section

variable {names : List Word}

/-- The count of a plural is one exactly if no other name has it. -/
theorem single_iff (hnodup : names.Nodup) {name : Word} (h : name ∈ names) :
    (names.filter fun n => pluralOf n = pluralOf name).length = 1 ↔ ∀ n ∈ names, pluralOf n = pluralOf name → n = name := by
  have hmem : name ∈ names.filter fun n => pluralOf n = pluralOf name := by simp [h]
  constructor
  · intro hone n hn hsame
    obtain ⟨x, hx⟩ := List.length_eq_one_iff.mp hone
    have hn' : n ∈ names.filter fun n => pluralOf n = pluralOf name := by simp [hn, hsame]
    rw [hx] at hmem hn'
    rw [List.mem_singleton.mp hn', List.mem_singleton.mp hmem]
  · intro hall
    have hperm : (names.filter fun n => pluralOf n = pluralOf name).Perm [name] := by
      refine (List.perm_ext_iff_of_nodup (hnodup.filter _) (List.nodup_singleton name)).mpr fun n => ?_
      rw [List.mem_filter, List.mem_singleton, decide_eq_true_iff]
      constructor
      · exact fun hn => hall n hn.1 hn.2
      · rintro rfl
        exact ⟨h, rfl⟩
    rw [hperm.length_eq, List.length_singleton]

/-- Two names never get one word. -/
theorem wordOf_injOn (hnodup : names.Nodup) {a b : Word} (ha : a ∈ names) (hb : b ∈ names)
    (h : wordOf names a = wordOf names b) : a = b := by
  have hself : ∀ {n m : Word}, n ∈ names → m ∈ names →
      (names.filter fun x => pluralOf x = pluralOf n).length = 1 → m = pluralOf n → m = n := by
    intro n m hn hm hone hmn
    refine (single_iff hnodup hn).mp hone m hm ?_
    rw [hmn, pluralOf_self (pluralOf_dotless n)]
  unfold wordOf at h
  split_ifs at h with h1 h2 h2
  · exact ((single_iff hnodup ha).mp h1 b hb h.symm).symm
  · exact (hself ha hb h1 h.symm).symm
  · exact hself hb ha h2 h
  · exact h

/-- The word of a name stands for it, and is the only one that does. -/
theorem stands_wordOf (hnodup : names.Nodup) {name : Word} (h : name ∈ names) :
    Stands names (wordOf names name) name := by
  unfold wordOf
  split_ifs with hone
  · exact ⟨h, .inr ⟨rfl, (single_iff hnodup h).mp hone⟩⟩
  · exact ⟨h, .inl rfl⟩

theorem stands_iff (hnodup : names.Nodup) {a b : Word} (ha : a ∈ names) :
    Stands names (wordOf names a) b ↔ a = b := by
  constructor
  · rintro ⟨hb, h⟩
    unfold wordOf at h
    split_ifs at h with hone
    · -- the only name with the plural
      have hall := (single_iff hnodup ha).mp hone
      rcases h with h | ⟨h, -⟩
      · refine (hall b hb ?_).symm
        rw [← h, pluralOf_self (pluralOf_dotless a)]
      · exact (hall b hb h.symm).symm
    · rcases h with h | ⟨h, hall⟩
      · exact h
      · refine hall a ha ?_
        rw [h, pluralOf_self (pluralOf_dotless b)]
  · rintro rfl
    exact stands_wordOf hnodup ha

end

/-! ## The command -/

/-- Options of the screen and their values. -/
inductive Connection : List Word → Prop where
  | nil : Connection []
  | cons {name : Word} (h : name ∈ Tui.words ["--context", "--namespace", "--kubeconfig"]) (value : Word)
      {rest : List Word} (hrest : Connection rest) : Connection (name :: value :: rest)

theorem Connection.append {a b : List Word} (ha : Connection a) (hb : Connection b) : Connection (a ++ b) := by
  induction ha with
  | nil => exact hb
  | cons h value _ ih => exact .cons h value ih

theorem connection_option {name : Word} (h : name ∈ Tui.words ["--context", "--namespace", "--kubeconfig"])
    (value : Option String) : Connection ((value.map fun v => [name, v.toList]).getD []) := by
  cases value with
  | none => exact .nil
  | some v => exact .cons h v.toList .nil

theorem dashed_false {word : Word} (h : Plain word) : dashed word = false := by
  unfold dashed
  exact beq_eq_false_iff_ne.mpr h.head

theorem parts_plain {word : Word} (h : dashed word = false) (query : Bool) (root : Word) :
    parts word .kubernetes query root = [word] := by
  have hnone : shortOptions word .kubernetes query root = none := by
    cases word with
    | nil => rfl
    | cons c rest =>
      have hc : c ≠ '-' := fun hc => by
        rw [hc] at h
        exact absurd h (by simp [dashed])
      unfold shortOptions
      split
      · rename_i heq
        exact absurd (List.cons.inj heq).1 hc
      · rfl
  unfold parts
  rw [hnone]
  rfl

section

variable {word : Word}

theorem commandIndexFrom_connection {pre : List Word} (h : Connection pre) (i : ℕ) :
    commandIndexFrom .kubernetes false i (pre ++ ["get".toList, word]) = some (i + pre.length) := by
  induction h generalizing i with
  | nil => rfl
  | @cons name hname value rest _ ih =>
    have hstep : ∀ n ∈ Tui.words ["--context", "--namespace", "--kubeconfig"],
        commandStep .kubernetes n = .withValue := by decide
    rw [List.cons_append, List.cons_append, commandIndexFrom, hstep name hname]
    simp only
    rw [commandIndexFrom, ih]
    congr 1
    simp only [List.length_cons]
    omega

theorem command_connection {pre : List Word} (h : Connection pre) :
    commandIndex (pre ++ ["get".toList, word]) .kubernetes = some pre.length ∧
      command (pre ++ ["get".toList, word]) .kubernetes = "get".toList := by
  have hindex : commandIndex (pre ++ ["get".toList, word]) .kubernetes = some pre.length := by
    unfold commandIndex
    rw [commandIndexFrom_connection h, Nat.zero_add]
  refine ⟨hindex, ?_⟩
  unfold command
  rw [hindex, Option.bind_some, List.getElem?_append_right le_rfl, Nat.sub_self]
  rfl

theorem optionsFrom_get (hword : Plain word) (index i : ℕ) :
    optionsFrom .kubernetes "get".toList index false i ["get".toList, word] = [] := by
  have hget : "get".toList ≠ "--".toList ∧ dashed "get".toList = false := by decide
  have hne : word ≠ "--".toList := fun he => absurd (dashed_false hword) (by rw [he]; decide)
  rw [optionsFrom, if_neg hget.1, if_pos hget.2, optionsFrom, if_neg hne, if_pos (dashed_false hword), optionsFrom]

theorem optionsFrom_connection (hword : Plain word) {pre : List Word} (h : Connection pre) (index i : ℕ) :
    ∀ s ∈ optionsFrom .kubernetes "get".toList index false i (pre ++ ["get".toList, word]),
      s ∈ Tui.words ["--context", "--namespace", "--kubeconfig"] := by
  induction h generalizing i with
  | nil =>
    intro s hs
    rw [List.nil_append, optionsFrom_get hword] at hs
    exact absurd hs List.not_mem_nil
  | @cons name hname value rest _ ih =>
    have hfacts : ∀ n ∈ Tui.words ["--context", "--namespace", "--kubeconfig"], n ≠ "--".toList ∧ dashed n = true ∧
        parts n .kubernetes false "get".toList = [n] ∧ consumes n .kubernetes false "get".toList = true := by decide
    obtain ⟨hne, hdash, hparts, hconsumes⟩ := hfacts name hname
    intro s hs
    rw [List.cons_append, List.cons_append, optionsFrom, if_neg hne, if_neg (by simp [hdash])] at hs
    simp only [show (Workspace.kubernetes == Workspace.containers) = false from rfl, Bool.false_and, hparts,
      hconsumes] at hs
    rw [optionsFrom] at hs
    rcases List.mem_append.mp hs with hs | hs
    · rw [List.mem_singleton.mp hs]
      exact hname
    · exact ih (i + 1 + 1) s hs

theorem options_connection (hword : Plain word) {pre : List Word} (h : Connection pre) :
    ∀ s ∈ options (pre ++ ["get".toList, word]) .kubernetes,
      s ∈ Tui.words ["--context", "--namespace", "--kubeconfig"] := by
  unfold options
  rw [(command_connection h).2]
  exact optionsFrom_connection hword h _ 0

theorem has_connection (hword : Plain word) {pre : List Word} (h : Connection pre) {wanted : List Word}
    (hno : ∀ s ∈ Tui.words ["--context", "--namespace", "--kubeconfig"], wanted.any (isOption s) = false) :
    has (pre ++ ["get".toList, word]) wanted .kubernetes = false := by
  unfold has
  rw [List.any_eq_false]
  intro s hs
  rw [hno s (options_connection hword h s hs)]
  decide

theorem kubeShortOutputFrom_connection (hword : Plain word) {pre : List Word} (h : Connection pre) :
    kubeShortOutputFrom false (pre ++ ["get".toList, word]) = false := by
  have hdash := dashed_false hword
  have hplain : ∀ {w : Word} {rest : List Word}, dashed w = false →
      kubeShortOutputFrom false (w :: rest) = kubeShortOutputFrom false rest ∨
      kubeShortOutputFrom false (w :: rest) = kubeShortOutputFrom true rest ∨
      kubeShortOutputFrom false (w :: rest) = false := by
    intro w rest hw
    rw [kubeShortOutputFrom]
    split_ifs with h1 h2 h3
    · exact .inr (.inr rfl)
    · exact .inr (.inl rfl)
    · rw [hw] at h3
      exact absurd h3.1 (by decide)
    · exact .inl rfl
  induction h with
  | nil =>
    have hget : kubeShortOutputFrom false (["get".toList, word]) = kubeShortOutputFrom false [word] := by
      rw [kubeShortOutputFrom, if_neg (by decide), if_neg (by decide), if_neg (by decide)]
    rw [List.nil_append, hget]
    obtain h | h | h := @hplain word [] hdash
    · rw [h, kubeShortOutputFrom]
    · rw [h, kubeShortOutputFrom]
    · exact h
  | @cons name hname value rest _ ih =>
    have hfacts : ∀ n ∈ Tui.words ["--context", "--namespace", "--kubeconfig"], n ≠ "--".toList ∧
        SHORT_OUTPUT_VALUES.contains n = true := by decide
    obtain ⟨hne, hvalue⟩ := hfacts name hname
    rw [List.cons_append, List.cons_append, kubeShortOutputFrom, if_neg hne, if_pos hvalue, kubeShortOutputFrom]
    exact ih

/-- With the options of the screen before it, `get WORD` prints the list of the word. -/
theorem resource_connection (hword : Plain word) {pre : List Word} (h : Connection pre) :
    resource (pre ++ ["get".toList, word]) .kubernetes = some word := by
  have hhelp := @has_connection word hword pre h (Tui.words ["--help", "-h"]) (by decide)
  have houtput := @has_connection word hword pre h KUBE_OUTPUT (by decide)
  have hend : (options (pre ++ ["get".toList, word]) .kubernetes).contains "--".toList = false := by
    rw [List.contains_eq_any_beq, List.any_eq_false]
    intro s hs
    have hall : ∀ s ∈ Tui.words ["--context", "--namespace", "--kubeconfig"], ¬("--".toList == s) = true := by decide
    exact hall s (options_connection hword h s hs)
  have hchars : (word.all fun c => isAsciiAlphanumeric c || c == '.' || c == '-') = true := by
    rw [List.all_eq_true]
    intro c hc
    unfold isAsciiAlphanumeric Char.isAlphanum Char.isAlpha
    obtain h | h | rfl | rfl := hword.chars c hc
    · simp [h]
    · simp [h]
    · decide
    · decide
  unfold resource
  rw [if_neg (by rw [hhelp, hend]; simp), (command_connection h).1, Option.bind_some]
  simp only
  rw [if_neg (by rw [houtput, kubeShortOutput, kubeShortOutputFrom_connection hword h]; simp), List.drop_left]
  unfold kubeResource
  exact if_pos ⟨rfl, hword.ne_nil, hchars, dashed_false hword⟩

end

/-! ## `get WORD` as a command -/

instance : DecidablePred WordChar := fun c =>
  inferInstanceAs (Decidable (c.isLower = true ∨ c.isDigit = true ∨ c = '-' ∨ c = '.'))

theorem next_plain {c : Char} (h : WordChar c) (ws : List Word) (word : Word) (started : Bool) :
    Splitter.next ⟨ws, word, none, false, started⟩ c = ⟨ws, word ++ [c], none, false, true⟩ := by
  have hspecial : ∀ d ∈ ['\\', '\'', '"', ' ', '\t', '\n'], ¬WordChar d := by
    simp [WordChar, Char.isLower, Char.isDigit]
  have hne : ∀ d ∈ ['\\', '\'', '"', ' ', '\t', '\n'], c ≠ d := fun d hd he => hspecial d hd (he ▸ h)
  simp only [List.forall_mem_cons, List.not_mem_nil, false_imp_iff, implies_true, and_true] at hne
  obtain ⟨h1, h2, h3, h4, h5, h6⟩ := hne
  unfold Splitter.next
  simp [h1, h2, h3, h4, h5, h6]

theorem read_plain {word : Word} (h : ∀ c ∈ word, WordChar c) (ws : List Word) (front : Word) (started : Bool) :
    word.foldl Splitter.next ⟨ws, front, none, false, started⟩ =
      ⟨ws, front ++ word, none, false, started || !word.isEmpty⟩ := by
  induction word generalizing front started with
  | nil => simp
  | cons c word ih =>
    obtain ⟨hc, hword⟩ := List.forall_mem_cons.mp h
    rw [List.foldl_cons, next_plain hc, ih hword]
    simp

theorem splitCommand_get {word : Word} (h : Plain word) :
    splitCommand ("get ".toList ++ word) = .ok ["get".toList, word] ∧
      splitCommand ("kubectl get ".toList ++ word) = .ok ["kubectl".toList, "get".toList, word] := by
  have hget : "get ".toList.foldl Splitter.next {} = ⟨["get".toList], [], none, false, false⟩ := rfl
  have hkubectl : "kubectl get ".toList.foldl Splitter.next {} =
      ⟨["kubectl".toList, "get".toList], [], none, false, false⟩ := rfl
  have hstarted : (false || !word.isEmpty) = true := by simpa using h.ne_nil
  constructor
  · unfold splitCommand
    rw [List.foldl_append, hget, read_plain h.chars, hstarted]
    rfl
  · unfold splitCommand
    rw [List.foldl_append, hkubectl, read_plain h.chars, hstarted]
    rfl

theorem inspect_get {word : Word} (h : Plain word) :
    inspect ["get".toList, word] .kubernetes = ["get".toList, word] := by
  have hget : "get".toList ≠ "--".toList ∧ consumes "get".toList .kubernetes false "get".toList = false ∧
      parts "get".toList .kubernetes false "get".toList = ["get".toList] := by decide
  have hne : word ≠ "--".toList := fun he => absurd (dashed_false h) (by rw [he]; decide)
  have hcommand : command ["get".toList, word] .kubernetes = "get".toList := (@command_connection word [] .nil).2
  unfold inspect
  rw [hcommand, inspectFrom, if_neg (by simp), hget.2.1, hget.2.2, inspectFrom,
    if_neg (by simpa using hne), parts_plain (dashed_false h), inspectFrom]
  rfl

/-- Whatever the screen adds of its own, the command stays a list of the resource. -/
theorem parseWords_get {word : Word} (h : Plain word) {env : Env} {scope : Scope} {typed : List Word}
    (htyped : program typed scope.workspace = (.kubernetes, ["get".toList, word])) :
    ∃ inv, parseWords env typed scope = .ok inv ∧ inv.workspace = .kubernetes ∧ inv.resource = some word := by
  have hindex : commandIndex ["get".toList, word] .kubernetes = some 0 := (@command_connection word [] .nil).1
  have hplugin : installedKubectlPlugin env ["get".toList, word] (some 0) = false := by
    have hroot : KUBE_ROOTS.contains "get".toList = true := by decide
    unfold installedKubectlPlugin
    simp only [Option.bind_some, List.getElem?_cons_zero]
    exact if_pos ⟨by simp, hroot⟩
  have hwords : commandWords env typed scope = (.kubernetes, ["get".toList, word], false) := by
    have halias : expandAlias ["get".toList, word] .kubernetes false = ["get".toList, word] := by
      unfold expandAlias
      have hno : KUBE_VIEW_ALIASES.contains "get".toList = false := by decide
      simp only [List.head?_cons, Option.getD_some, hno]
      exact if_neg (by simp)
    unfold commandWords
    rw [htyped]
    simp only [hindex, hplugin, Bool.and_false, halias]
  have hconfig : configCommand ["get".toList, word] .kubernetes = false := by
    have hroot : ("get".toList == "config".toList) = false := by decide
    unfold configCommand
    rw [hindex]
    exact hroot
  have hexplicit : explicit ["get".toList, word] .kubernetes = false := by
    have hcommand : command ["get".toList, word] .kubernetes = "get".toList := (@command_connection word [] .nil).2
    unfold explicit
    simp only
    rw [inspect_get h]
    unfold has options
    rw [hcommand, optionsFrom_get h]
    rfl
  obtain ⟨defaults, hdefaults, hconnection⟩ : ∃ defaults,
      connectionDefaults env scope ["get".toList, word] .kubernetes = .ok (defaults, none) ∧ Connection defaults := by
    refine ⟨_, rfl, (connection_option (by decide) _).append ?_⟩
    split_ifs
    · exact .nil
    · exact connection_option (by decide) _
  have hall : Connection (withConfiguration scope ["get".toList, word] .kubernetes false defaults) := by
    unfold withConfiguration
    simp only
    split_ifs
    · exact hconnection.append (connection_option (by decide) _)
    · exact hconnection
  have hresource := resource_connection h hall
  unfold parseWords
  rw [hwords]
  simp only [hconfig, hexplicit, hdefaults, Bool.or_false, Bool.false_eq_true, if_false]
  exact ⟨_, rfl, rfl, hresource⟩

/-- **The command.** -/
theorem parse_resource {word : Word} (h : Plain word) (env : Env) (scope : Scope) :
    (scope.workspace = .kubernetes → ∃ inv, parse env ("get ".toList ++ word) scope = .ok inv ∧
      inv.workspace = .kubernetes ∧ inv.resource = some word) ∧
    ∃ inv, parse env ("kubectl get ".toList ++ word) scope = .ok inv ∧ inv.workspace = .kubernetes ∧
      inv.resource = some word := by
  obtain ⟨hget, hkubectl⟩ := splitCommand_get h
  unfold parse
  rw [hget, hkubectl]
  refine ⟨fun hw => ?_, ?_⟩
  · refine @parseWords_get word h env scope ["get".toList, word] ?_
    rw [hw]
    rfl
  · exact @parseWords_get word h env scope ["kubectl".toList, "get".toList, word] rfl

/-! ## Results -/

theorem mapM_checkLine {p : Printer} {lines lines' : List Word} (h : lines.mapM (checkLine p) = .ok lines') :
    lines' = lines ∧ ∀ line ∈ lines, resourceName line = true := by
  induction lines generalizing lines' with
  | nil =>
    obtain rfl := Except.ok.inj h
    exact ⟨rfl, fun _ hl => absurd hl List.not_mem_nil⟩
  | cons line lines ih =>
    rw [List.mapM_cons] at h
    obtain ⟨first, hfirst, h⟩ := Result.bind_eq_ok.mp h
    obtain ⟨rest, hrest, h⟩ := Result.bind_eq_ok.mp h
    obtain rfl := Except.ok.inj h
    unfold checkLine at hfirst
    split_ifs at hfirst with hname
    obtain rfl := Except.ok.inj hfirst
    obtain ⟨rfl, hnames⟩ := ih hrest
    exact ⟨rfl, List.forall_mem_cons.mpr ⟨hname, hnames⟩⟩

/-- What `words` accepts is a list of resource names, each with a newline. -/
theorem words_eq_ok {p : Printer} {output : List UInt8} {ws : List Word} (h : words p output = .ok ws) :
    ∃ listed, output = Utf8.text (Split.unlines '\n' listed) ∧
      (∀ name ∈ listed, '\n' ∉ name ∧ resourceName name = true) ∧
      ws = (btreeSet ((btreeSet listed).map (wordOf (btreeSet listed)))).mergeSort wordLe := by
  unfold words at h
  cases htext : fromUtf8 output with
  | none =>
    rw [htext] at h
    cases h
  | some text =>
    rw [htext] at h
    simp only at h
    obtain rfl := Utf8.text_of_decode htext
    split_ifs at h with hempty hlast
    · obtain rfl := Except.ok.inj h
      refine ⟨[], by rw [hempty]; rfl, fun _ hn => absurd hn List.not_mem_nil, ?_⟩
      simp [btreeSet]
    · obtain ⟨lines, hlines, h⟩ := Result.bind_eq_ok.mp h
      obtain rfl := Except.ok.inj h
      obtain ⟨rfl, hnames⟩ := mapM_checkLine hlines
      refine ⟨text.dropLast.splitOn '\n', ?_,
        fun name hn => ⟨Split.not_mem_of_mem_splitOn name hn, hnames name hn⟩, rfl⟩
      rw [Split.unlines_splitOn, List.dropLast_append_getLast? '\n' (not_not.mp hlast)]

theorem words_deployments (p : Printer) :
    words p (Utf8.text "deployments.apps\n".toList) = .ok ["deployments".toList] := by
  have hname : resourceName "deployments.apps".toList = true := by decide
  have hsplit : "deployments.apps\n".toList.dropLast.splitOn '\n' = ["deployments.apps".toList] := by decide
  have hword : wordOf ["deployments.apps".toList] "deployments.apps".toList = "deployments".toList := by decide
  have hset : ∀ word : Word, btreeSet [word] = [word] := fun word => by simp [btreeSet]
  unfold words
  rw [show fromUtf8 _ = _ from Utf8.decode_text _]
  simp only
  rw [if_neg (by decide), if_neg (by decide), hsplit, List.mapM_cons, List.mapM_nil]
  unfold checkLine
  rw [if_pos hname]
  show Except.ok ((btreeSet ((btreeSet ["deployments.apps".toList]).map
    (wordOf (btreeSet ["deployments.apps".toList])))).mergeSort wordLe) = _
  rw [hset, List.map_singleton, hword, hset, List.mergeSort_singleton]

/-- **The words.**  Names and words match one to one: a word is a name or the plural of the only name that has it.
They come in order, and each opens the list of its resource. -/
theorem words_spec {p : Printer} {output : List UInt8} {ws : List Word} (h : words p output = .ok ws) :
    ∃ listed, output = Utf8.text (Split.unlines '\n' listed) ∧ (∀ name ∈ listed, '\n' ∉ name) ∧
      (∀ name ∈ listed, ∃! word, word ∈ ws ∧ Stands listed word name) ∧
      (∀ word ∈ ws, ∃! name, name ∈ listed ∧ Stands listed word name) ∧
      (∀ word ∈ ws, '.' ∉ word → word ∈ listed ∨ ∃! name, name ∈ listed ∧ pluralOf name = word) ∧
      ws.Pairwise Before ∧ ws.Nodup ∧
      ∀ word ∈ ws, ∀ (env : Env) (scope : Scope),
        (scope.workspace = .kubernetes → ∃ inv, parse env ("get ".toList ++ word) scope = .ok inv ∧
          inv.workspace = .kubernetes ∧ inv.resource = some word) ∧
        ∃ inv, parse env ("kubectl get ".toList ++ word) scope = .ok inv ∧ inv.workspace = .kubernetes ∧
          inv.resource = some word := by
  obtain ⟨listed, houtput, hnames, rfl⟩ := words_eq_ok h
  have hnodup := nodup_btreeSet listed
  have hmem : ∀ {word : Word}, word ∈ (btreeSet ((btreeSet listed).map (wordOf (btreeSet listed)))).mergeSort wordLe ↔
      ∃ name ∈ listed, wordOf (btreeSet listed) name = word := by
    intro word
    rw [(List.mergeSort_perm _ _).mem_iff, mem_btreeSet, List.mem_map]
    simp only [mem_btreeSet]
  have hstands : ∀ {word name : Word}, Stands listed word name ↔ Stands (btreeSet listed) word name := by
    intro word name
    unfold Stands
    simp only [mem_btreeSet]
  have hsorted := sorted_words (nodup_btreeSet ((btreeSet listed).map (wordOf (btreeSet listed))))
  refine ⟨listed, houtput, fun name hn => (hnames name hn).1, ?_, ?_, ?_, hsorted, ?_, ?_⟩
  · intro name hn
    refine ⟨wordOf (btreeSet listed) name, ⟨hmem.mpr ⟨name, hn, rfl⟩, ?_⟩, ?_⟩
    · exact hstands.mpr (stands_wordOf hnodup (mem_btreeSet.mpr hn))
    · rintro word ⟨hword, hs⟩
      obtain ⟨n, hn', rfl⟩ := hmem.mp hword
      rw [(stands_iff hnodup (mem_btreeSet.mpr hn')).mp (hstands.mp hs)]
  · intro word hword
    obtain ⟨name, hn, rfl⟩ := hmem.mp hword
    refine ⟨name, ⟨hn, hstands.mpr (stands_wordOf hnodup (mem_btreeSet.mpr hn))⟩, ?_⟩
    rintro n ⟨-, hs⟩
    exact ((stands_iff hnodup (mem_btreeSet.mpr hn)).mp (hstands.mp hs)).symm
  · intro word hword hdot
    obtain ⟨name, hn, rfl⟩ := hmem.mp hword
    unfold wordOf
    split_ifs with hone
    · have hall := (single_iff hnodup (mem_btreeSet.mpr hn)).mp hone
      exact .inr ⟨name, ⟨hn, rfl⟩, fun m hm => hall m (mem_btreeSet.mpr hm.1) hm.2⟩
    · exact .inl hn
  · refine hsorted.imp fun {a b} hab he => ?_
    subst he
    rcases hab with hlt | ⟨-, hlt⟩
    · exact absurd hlt (Nat.lt_irrefl _)
    · exact absurd hlt (List.lt_irrefl _)
  · intro word hword env scope
    obtain ⟨name, hn, rfl⟩ := hmem.mp hword
    have hplain := plain_name (hnames name hn).2
    refine parse_resource ?_ env scope
    unfold wordOf
    split_ifs
    · exact hplain.2
    · exact hplain.1

theorem words_spec_deployments :
    ∃ listed, Utf8.text "deployments.apps\n".toList = Utf8.text (Split.unlines '\n' listed) ∧
      ∀ name ∈ listed, ∃! word, word ∈ ["deployments".toList] ∧ Stands listed word name := by
  obtain ⟨listed, houtput, -, hwords, -⟩ := words_spec (words_deployments Change.ASCII)
  exact ⟨listed, houtput, hwords⟩

end Hamn.Tui.KindWords
