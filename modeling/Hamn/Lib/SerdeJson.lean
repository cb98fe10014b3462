import Hamn.Lib.Delimited

/-!
# SerdeJson — strings as `serde_json` writes them

The compact writer escapes quotation marks, backslashes and control characters and leaves every other character as it
is; what it writes of a string says where it ends.

* `escape`, `string`, `nullable`: a character, a string, and a string that may be `null`.
* `size`: the bytes of a text.
* `string_delimited`, `nullable_delimited`: strings are told apart, whatever follows.
-/

namespace SerdeJson

open Delimit

abbrev Word := List Char

/-- A character of a JSON string. -/
def escape (c : Char) : Word :=
  if c = '"' then ['\\', '"']
  else if c = '\\' then ['\\', '\\']
  else if c = '\x08' then ['\\', 'b']
  else if c = '\x0c' then ['\\', 'f']
  else if c = '\n' then ['\\', 'n']
  else if c = '\r' then ['\\', 'r']
  else if c = '\t' then ['\\', 't']
  else if c.toNat < 0x20 then ['\\', 'u', '0', '0', (c.toNat / 16).digitChar, (c.toNat % 16).digitChar]
  else [c]

def string (s : String) : Word := '"' :: (s.toList.flatMap escape ++ ['"'])

def nullable : Option String → Word
  | some s => string s
  | none => ['n', 'u', 'l', 'l']

/-- The bytes of a text. -/
def size (text : Word) : ℕ := (text.map Char.utf8Size).sum

theorem size_append (a b : Word) : size (a ++ b) = size a + size b := by simp [size]

theorem byteSize_ofList (l : List Char) : (String.ofList l).utf8ByteSize = size l := by
  induction l with
  | nil => rfl
  | cons c l ih =>
    rw [String.ofList_cons, String.utf8ByteSize_append, String.utf8ByteSize_singleton, ih]
    rfl

def ESCAPES : List (Char × Char) :=
  [('"', '"'), ('\\', '\\'), ('\x08', 'b'), ('\x0c', 'f'), ('\n', 'n'), ('\r', 'r'), ('\t', 't')]

/-- The code of a control character. -/
def code (c : Char) : Word := ['0', '0', (c.toNat / 16).digitChar, (c.toNat % 16).digitChar]

theorem escape_cases (c : Char) :
    (∃ x, (c, x) ∈ ESCAPES ∧ escape c = ['\\', x]) ∨ (c ≠ '\\' ∧ c ≠ '"' ∧ escape c = [c]) ∨
      (c.toNat < 0x20 ∧ escape c = '\\' :: 'u' :: code c) := by
  unfold escape
  split_ifs with hq hb h8 hc hn hr ht hlow
  · exact .inl ⟨'"', by rw [hq]; decide, rfl⟩
  · exact .inl ⟨'\\', by rw [hb]; decide, rfl⟩
  · exact .inl ⟨'b', by rw [h8]; decide, rfl⟩
  · exact .inl ⟨'f', by rw [hc]; decide, rfl⟩
  · exact .inl ⟨'n', by rw [hn]; decide, rfl⟩
  · exact .inl ⟨'r', by rw [hr]; decide, rfl⟩
  · exact .inl ⟨'t', by rw [ht]; decide, rfl⟩
  · exact .inr (.inr ⟨hlow, rfl⟩)
  · exact .inr (.inl ⟨hb, hq, rfl⟩)

theorem code_delimited (a b : Char) (r r' : Word) (ha : a.toNat < 0x20) (hb : b.toNat < 0x20)
    (h : code a ++ r = code b ++ r') : a = b ∧ r = r' := by
  simp only [code, List.cons_append, List.nil_append, List.cons.injEq, true_and] at h
  obtain ⟨hhigh, hlow, hrest⟩ := h
  have hdigit : ∀ m < 16, ∀ n < 16, m.digitChar = n.digitChar → m = n := by decide
  have hh := hdigit _ (by omega) _ (by omega) hhigh
  have hl := hdigit _ (Nat.mod_lt _ (by norm_num)) _ (Nat.mod_lt _ (by norm_num)) hlow
  exact ⟨Char.toNat_inj.mp (by omega), hrest⟩

theorem escape_delimited : SelfDelimited escape := by
  have htable : (∀ e ∈ ESCAPES, e.2 ≠ 'u') ∧ ∀ e ∈ ESCAPES, ∀ e' ∈ ESCAPES, e.2 = e'.2 → e.1 = e'.1 := by decide
  refine @escapes_delimited Char escape code (fun c => c.toNat < 0x20) '\\' 'u' ESCAPES (fun c => ?_) htable.1
    htable.2 code_delimited
  obtain h | ⟨hback, -, h⟩ | h := escape_cases c
  · exact .inl h
  · exact .inr (.inl ⟨hback, h⟩)
  · exact .inr (.inr h)

theorem string_delimited : SelfDelimited string := by
  have hmark : ∀ c, ∃ d rest, escape c = d :: rest ∧ d ≠ '"' := by
    intro c
    obtain ⟨x, -, h⟩ | ⟨-, hq, h⟩ | ⟨-, h⟩ := escape_cases c
    · exact ⟨'\\', [x], h, by decide⟩
    · exact ⟨c, [], h, hq⟩
    · exact ⟨'\\', _, h, by decide⟩
  exact Delimited.comp ((Delimited.quoted escape_delimited hmark).after ['"']) fun a b => String.toList_inj.mp

theorem nullable_delimited : SelfDelimited nullable := by
  intro a b r r' _ _ heq
  cases a with
  | none =>
    cases b with
    | none => exact ⟨rfl, List.append_cancel_left heq⟩
    | some b => exact absurd heq (append_ne (by rfl) (by rfl) (by decide : 'n' ≠ '"') r r')
  | some a =>
    cases b with
    | none => exact absurd heq (append_ne (by rfl) (by rfl) (by decide : '"' ≠ 'n') r r')
    | some b =>
      obtain ⟨rfl, hrest⟩ := string_delimited a b r r' trivial trivial heq
      exact ⟨rfl, hrest⟩

end SerdeJson
