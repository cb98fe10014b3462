import Hamn.Guest.Json
import Hamn.Lib.Utf8

/-!
# JsonGrammar — the documents of RFC 8259

A `Phrase` is a derivation of the grammar: it keeps every choice the grammar leaves open (whitespace, the form of an
escape, the case of a hex digit, the shape of a number).  `chars` is the text it derives and `tree` the value that
the RFC assigns to it, with strings as lists of code points and members in source order.

* `StrChar.codePoints`: the meaning of a string; only a `\u` escape of a high surrogate directly followed by one of a
  low surrogate denotes a supplementary code point.
* `Within finite levels t`: the limits of the reader on a value.
* `Document finite text t`: `text` is a document with value `t` that keeps the limits.
-/

open Bytes

namespace Hamn.StrictJson

/-! ## Tokens -/

def isWs (c : Char) : Bool := c == ' ' || c == '\t' || c == '\n' || c == '\r'

abbrev Ws := { w : List Char // w.all isWs = true }

theorem isWs_nil : ([] : List Char).all isWs = true := rfl

def Unescaped (c : Char) : Prop := 0x20 ≤ c.toNat ∧ c ≠ '"' ∧ c ≠ '\\'

instance (c : Char) : Decidable (Unescaped c) := inferInstanceAs (Decidable (_ ∧ _ ∧ _))

structure HexDigit where
  value : Fin 16
  upper : Bool
  deriving DecidableEq, Repr

def HexDigit.char (d : HexDigit) : Char :=
  Char.ofNat (if d.value.val < 10 then 0x30 + d.value.val else (if d.upper then 0x37 else 0x57) + d.value.val)

inductive Short where
  | quote | backslash | slash | b | f | n | r | t
  deriving DecidableEq, Repr

def Short.char : Short → Char
  | .quote => '"'
  | .backslash => '\\'
  | .slash => '/'
  | .b => 'b'
  | .f => 'f'
  | .n => 'n'
  | .r => 'r'
  | .t => 't'

def Short.codePoint : Short → ℕ
  | .quote => 0x22
  | .backslash => 0x5C
  | .slash => 0x2F
  | .b => 0x08
  | .f => 0x0C
  | .n => 0x0A
  | .r => 0x0D
  | .t => 0x09

/-- One `char` of a string. -/
inductive StrChar where
  | raw (c : Char) (h : Unescaped c)
  | short (e : Short)
  | unicode (a b c d : HexDigit)

def StrChar.chars : StrChar → List Char
  | .raw c _ => [c]
  | .short e => ['\\', e.char]
  | .unicode a b c d => ['\\', 'u', a.char, b.char, c.char, d.char]

/-- The UTF-16 unit that four hex digits name. -/
def unit (a b c d : HexDigit) : ℕ := ((a.value.val * 16 + b.value.val) * 16 + c.value.val) * 16 + d.value.val

def IsHigh (u : ℕ) : Prop := 0xD800 ≤ u ∧ u ≤ 0xDBFF

def IsLow (u : ℕ) : Prop := 0xDC00 ≤ u ∧ u ≤ 0xDFFF

instance (u : ℕ) : Decidable (IsHigh u) := inferInstanceAs (Decidable (_ ∧ _))

instance (u : ℕ) : Decidable (IsLow u) := inferInstanceAs (Decidable (_ ∧ _))

/-- The code point of a surrogate pair. -/
def pair (high low : ℕ) : ℕ := 0x10000 + (high - 0xD800) * 0x400 + (low - 0xDC00)

def StrChar.codePoints : List StrChar → List ℕ
  | [] => []
  | .raw c _ :: s => c.toNat :: codePoints s
  | .short e :: s => e.codePoint :: codePoints s
  | .unicode a b c d :: .unicode a' b' c' d' :: s =>
    if IsHigh (unit a b c d) ∧ IsLow (unit a' b' c' d') then
      pair (unit a b c d) (unit a' b' c' d') :: codePoints s
    else unit a b c d :: codePoints (.unicode a' b' c' d' :: s)
  | .unicode a b c d :: s => unit a b c d :: codePoints s

def strChars (s : List StrChar) : List Char := s.flatMap StrChar.chars

def quoted (s : List StrChar) : List Char := '"' :: strChars s ++ ['"']

def digitChar (d : Fin 10) : Char := Char.ofNat (0x30 + d.val)

inductive IntPart where
  | zero
  /-- The first digit is one more than `first`. -/
  | nonzero (first : Fin 9) (rest : List (Fin 10))

def IntPart.chars : IntPart → List Char
  | .zero => ['0']
  | .nonzero first rest => Char.ofNat (0x31 + first.val) :: rest.map digitChar

structure Digits where
  first : Fin 10
  rest : List (Fin 10)

def Digits.chars (d : Digits) : List Char := digitChar d.first :: d.rest.map digitChar

structure ExpPart where
  upper : Bool
  /-- A sign, `true` for a minus. -/
  sign : Option Bool
  digits : Digits

def signChars : Option Bool → List Char
  | none => []
  | some true => ['-']
  | some false => ['+']

def ExpPart.chars (e : ExpPart) : List Char :=
  (if e.upper then 'E' else 'e') :: (signChars e.sign ++ e.digits.chars)

def minusChars (minus : Bool) : List Char := if minus then ['-'] else []

def fracChars : Option Digits → List Char
  | none => []
  | some d => '.' :: d.chars

def expChars : Option ExpPart → List Char
  | none => []
  | some e => e.chars

structure Number where
  minus : Bool
  int : IntPart
  frac : Option Digits
  exp : Option ExpPart

namespace Number

def chars (n : Number) : List Char := minusChars n.minus ++ (n.int.chars ++ (fracChars n.frac ++ expChars n.exp))

def isInteger (n : Number) : Bool := n.frac.isNone && n.exp.isNone

/-- Numbers keep their token. -/
def tree {S : Type} (n : Number) : Json S :=
  if n.isInteger then .integer (Utf8.text n.chars) else .float (Utf8.text n.chars)

end Number

/-! ## Phrases -/

/-- What stands before the value of an entry: whitespace, and in an object the key and its colon. -/
inductive Lead : Container → Type where
  | item (w : Ws) : Lead .array
  | key (w : Ws) (s : List StrChar) (w₁ w₂ : Ws) : Lead .object

def Lead.chars : {t : Container} → Lead t → List Char
  | _, .item w => w.val
  | _, .key w s w₁ w₂ => w.val ++ (quoted s ++ (w₁.val ++ ':' :: w₂.val))

def Lead.label : {t : Container} → Lead t → List ℕ
  | _, .item _ => []
  | _, .key _ s _ _ => StrChar.codePoints s

mutual
inductive Phrase where
  | null
  | false
  | true
  | number (n : Number)
  | string (s : List StrChar)
  | empty (t : Container) (w : Ws)
  | container (t : Container) (entries : Entries t)

inductive Entries : Container → Type where
  | one {t : Container} (lead : Lead t) (value : Phrase) (w : Ws) : Entries t
  | more {t : Container} (lead : Lead t) (value : Phrase) (w : Ws) (rest : Entries t) : Entries t
end

def Container.openChar : Container → Char
  | .array => '['
  | .object => '\x7b'

def Container.closeChar : Container → Char
  | .array => ']'
  | .object => '\x7d'

mutual
def Phrase.chars : Phrase → List Char
  | .null => ['n', 'u', 'l', 'l']
  | .false => ['f', 'a', 'l', 's', 'e']
  | .true => ['t', 'r', 'u', 'e']
  | .number n => n.chars
  | .string s => quoted s
  | .empty t w => t.openChar :: (w.val ++ [t.closeChar])
  | .container t entries => t.openChar :: (entries.chars ++ [t.closeChar])

def Entries.chars {t : Container} : Entries t → List Char
  | .one lead value w => lead.chars ++ (value.chars ++ w.val)
  | .more lead value w rest => lead.chars ++ (value.chars ++ (w.val ++ ',' :: rest.chars))
end

mutual
def Phrase.tree : Phrase → Json (List ℕ)
  | .null => .null
  | .false => .false
  | .true => .true
  | .number n => n.tree
  | .string s => .string (StrChar.codePoints s)
  | .empty t _ => t.value []
  | .container t entries => t.value entries.members

def Entries.members {t : Container} : Entries t → List (List ℕ × Json (List ℕ))
  | .one lead value _ => [(lead.label, value.tree)]
  | .more lead value _ rest => (lead.label, value.tree) :: rest.members
end

/-! ## Limits -/

/-- Nested at most `levels` deep, no key twice in an object, integers of limited length and finite floats. -/
def Within {S : Type} (finite : Bytes → Bool) : ℕ → Json S → Prop
  | _, .integer text => digitCount text ≤ JSON_MAX_INTEGER_DIGITS
  | _, .float text => finite text = true
  | 0, .array _ => False
  | 0, .object _ => False
  | levels + 1, .array items => ∀ x ∈ items, Within finite levels x
  | levels + 1, .object members =>
    (members.map (·.1)).Nodup ∧ ∀ m ∈ members, Within finite levels m.2
  | _, _ => True

/-- `text` is an RFC 8259 document in UTF-8 with value `t` that keeps the reader's limits. -/
def Document (finite : Bytes → Bool) (text : Bytes) (t : Json (List ℕ)) : Prop :=
  ∃ (p : Phrase) (before after : Ws), text = Utf8.text (before.val ++ (p.chars ++ after.val)) ∧ p.tree = t ∧
    Within finite JSON_MAX_DEPTH t

/-! ## Values as the reader stores them -/

section Map

variable {S T : Type} (f : S → T)

mutual
def Json.map : Json S → Json T
  | .null => .null
  | .false => .false
  | .true => .true
  | .integer text => .integer text
  | .float text => .float text
  | .string s => .string (f s)
  | .array items => .array (Json.mapItems items)
  | .object members => .object (Json.mapMembers members)

def Json.mapItems : List (Json S) → List (Json T)
  | [] => []
  | x :: xs => Json.map x :: Json.mapItems xs

def Json.mapMembers : List (S × Json S) → List (T × Json T)
  | [] => []
  | (k, x) :: xs => (f k, Json.map x) :: Json.mapMembers xs
end

theorem Json.mapItems_eq (xs : List (Json S)) : Json.mapItems f xs = xs.map (Json.map f) := by
  induction xs with
  | nil => rfl
  | cons x xs ih => rw [Json.mapItems, ih, List.map_cons]

theorem Json.mapMembers_eq (xs : List (S × Json S)) :
    Json.mapMembers f xs = xs.map fun m => (f m.1, Json.map f m.2) := by
  induction xs with
  | nil => rfl
  | cons m xs ih =>
    obtain ⟨k, x⟩ := m
    rw [Json.mapMembers, ih, List.map_cons]

@[simp] theorem Container.map_value (t : Container) (members : List (S × Json S)) :
    Json.map f (t.value members) = t.value (members.map fun m => (f m.1, Json.map f m.2)) := by
  cases t with
  | array => simp [Container.value, Json.map, Json.mapItems_eq]
  | object => simp [Container.value, Json.map, Json.mapMembers_eq]

end Map

/-- The tree with its strings in generalized UTF-8. -/
def stored (t : Json (List ℕ)) : JsonValue := Json.map Utf8.encodeAll t

end Hamn.StrictJson
