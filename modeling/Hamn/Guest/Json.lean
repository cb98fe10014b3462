import Hamn.Lib.Bytes

/-!
# Json — the strict JSON reader (`guest/json/strict_json.c`)

The parser's `text`, `length` and `offset` are the bytes that are left (`rest`) together with the length of the whole
input, from which an error computes its offset.  Memory allocation succeeds.  A loop of the source that ends by
consuming its input recurses on a `fuel` that starts as the number of bytes left; the nesting depth of the source
recurses on what is left of `JSON_MAX_DEPTH`.  `strtod` is a parameter: `finite token` says that it takes the whole
token and that the double it returns is finite.
-/

open Bytes

namespace Hamn.StrictJson

def JSON_MAX_DEPTH : ℕ := 512
def JSON_MAX_INTEGER_DIGITS : ℕ := 4300
def JSON_ERROR_CAP : ℕ := 256

/-- A JSON value over strings of type `S`: the reader's own (`JsonValue`) holds decoded bytes. -/
inductive Json (S : Type) where
  | null
  | false
  | true
  | integer (text : Bytes)
  | float (text : Bytes)
  | string (text : S)
  | array (items : List (Json S))
  | object (members : List (S × Json S))

abbrev JsonValue := Json Bytes

inductive Container where
  | array
  | object
  deriving DecidableEq, Repr

/-- The key of an array item, which the source leaves NULL, is dropped. -/
def Container.value {S : Type} : Container → List (S × Json S) → Json S
  | .array, members => .array (members.map (·.2))
  | .object, members => .object members

inductive JsonErrorKind where
  | none
  | invalid
  | duplicateKey
  | limit
  deriving DecidableEq, Repr

structure JsonError where
  kind : JsonErrorKind
  message : Bytes
  deriving DecidableEq, Repr

/-- `vsnprintf` into the fixed message buffer. -/
def setError {α : Type} (kind : JsonErrorKind) (text : Bytes) : Except JsonError α :=
  .error ⟨kind, text.take (JSON_ERROR_CAP - 1)⟩

/-! ## UTF-8 -/

/-- The loop of `utf8_decode` over the `n` bytes after the first. -/
def utf8Continue (value : ℕ) : ℕ → Bytes → Option ℕ
  | 0, _ => some value
  | _ + 1, [] => none
  | n + 1, b :: s =>
    if b.toNat &&& 0xC0 ≠ 0x80 then none else utf8Continue (value <<< 6 ||| (b.toNat &&& 0x3F)) n s

/-- Length, least value and leading bits of the sequence that `first` starts. -/
def utf8Lead (first : ℕ) : Option (ℕ × ℕ × ℕ) :=
  if first ≥ 0xC2 ∧ first ≤ 0xDF then some (2, 0x80, first &&& 0x1F)
  else if first ≥ 0xE0 ∧ first ≤ 0xEF then some (3, 0x800, first &&& 0x0F)
  else if first ≥ 0xF0 ∧ first ≤ 0xF4 then some (4, 0x10000, first &&& 0x07)
  else none

/-- `utf8_decode`: the length of the sequence at the front and its code point. -/
def utf8Decode (allowSurrogates : Bool) : Bytes → Option (ℕ × ℕ)
  | [] => none
  | first :: s =>
    if first.toNat < 0x80 then some (1, first.toNat)
    else
      match utf8Lead first.toNat with
      | none => none
      | some (length, minimum, value) =>
        if s.length + 1 < length then none
        else
          match utf8Continue value (length - 1) s with
          | none => none
          | some value =>
            if value < minimum ∨ value > 0x10FFFF then none
            else if allowSurrogates = false ∧ value ≥ 0xD800 ∧ value ≤ 0xDFFF then none
            else some (length, value)

def utf8ValidLoop : ℕ → Bytes → Bool
  | _, [] => true
  | 0, _ :: _ => false
  | fuel + 1, b :: s =>
    match utf8Decode false (b :: s) with
    | none => false
    | some (used, _) => utf8ValidLoop fuel ((b :: s).drop used)

def jsonUtf8Valid (bytes : Bytes) : Bool := utf8ValidLoop bytes.length bytes

def utf8Append (codePoint : ℕ) : Bytes :=
  if codePoint < 0x80 then [UInt8.ofNat codePoint]
  else if codePoint < 0x800 then
    [UInt8.ofNat (0xC0 ||| codePoint >>> 6), UInt8.ofNat (0x80 ||| (codePoint &&& 0x3F))]
  else if codePoint < 0x10000 then
    [UInt8.ofNat (0xE0 ||| codePoint >>> 12), UInt8.ofNat (0x80 ||| (codePoint >>> 6 &&& 0x3F)),
      UInt8.ofNat (0x80 ||| (codePoint &&& 0x3F))]
  else
    [UInt8.ofNat (0xF0 ||| codePoint >>> 18), UInt8.ofNat (0x80 ||| (codePoint >>> 12 &&& 0x3F)),
      UInt8.ofNat (0x80 ||| (codePoint >>> 6 &&& 0x3F)), UInt8.ofNat (0x80 ||| (codePoint &&& 0x3F))]

/-! ## ASCII escapes, for messages and for the writer -/

/-- One digit of `%x`. -/
def hexChar (n : ℕ) : UInt8 := UInt8.ofNat (if n < 10 then 0x30 + n else 0x57 + n)

/-- `%04x` of a value below `0x10000`. -/
def printHex4 (u : ℕ) : Bytes := [hexChar (u / 4096 % 16), hexChar (u / 256 % 16), hexChar (u / 16 % 16), hexChar (u % 16)]

def escapeCodePoint (codePoint : ℕ) : Bytes :=
  if codePoint = 0x22 then ascii "\\\""
  else if codePoint = 0x5C then ascii "\\\\"
  else if codePoint = 0x0A then ascii "\\n"
  else if codePoint = 0x0D then ascii "\\r"
  else if codePoint = 0x09 then ascii "\\t"
  else if codePoint = 0x08 then ascii "\\b"
  else if codePoint = 0x0C then ascii "\\f"
  else if codePoint ≥ 0x20 ∧ codePoint ≤ 0x7E then [UInt8.ofNat codePoint]
  else if codePoint < 0x10000 then ascii "\\u" ++ printHex4 codePoint
  else
    let value := codePoint - 0x10000
    ascii "\\u" ++ printHex4 (0xD800 ||| value >>> 10) ++ ascii "\\u" ++ printHex4 (0xDC00 ||| (value &&& 0x3FF))

/-- The loop of `json_escape_ascii`; `none` is its `EILSEQ`. -/
def escapeLoop : ℕ → Bytes → Option Bytes
  | _, [] => some []
  | 0, _ :: _ => none
  | fuel + 1, b :: s =>
    match utf8Decode true (b :: s) with
    | none => none
    | some (used, codePoint) => (escapeLoop fuel ((b :: s).drop used)).map (escapeCodePoint codePoint ++ ·)

def jsonEscapeAscii (bytes : Bytes) : Option Bytes := escapeLoop bytes.length bytes

/-! ## Member order -/

/-- `memcmp` of two buffers of the same length. -/
def memcmp : Bytes → Bytes → Ordering
  | a :: l, b :: l' => if a < b then .lt else if b < a then .gt else memcmp l l'
  | _, _ => .eq

def memberOrder (a b : Bytes) : Ordering :=
  let shorter := if a.length < b.length then a.length else b.length
  match memcmp (a.take shorter) (b.take shorter) with
  | .eq => if a.length > b.length then .gt else if a.length < b.length then .lt else .eq
  | order => order

/-- `qsort` by `member_order`.  The keys that reach a writer are distinct, so the order is the only one. -/
def sortedMembers {α : Type} (members : List (Bytes × α)) : List (Bytes × α) :=
  members.insertionSort fun a b => memberOrder a.1 b.1 ≠ .gt

/-- The first key that equals its predecessor in the sorted order. -/
def adjacentDuplicate : List Bytes → Option Bytes
  | a :: b :: keys => if memberOrder a b = .eq then some b else adjacentDuplicate (b :: keys)
  | _ => none

def rejectDuplicateKeys {α : Type} (members : List (Bytes × α)) : Except JsonError Unit :=
  if members.length < 2 then .ok ()
  else
    match adjacentDuplicate ((sortedMembers members).map (·.1)) with
    | none => .ok ()
    | some key => setError .duplicateKey (ascii "duplicate key: " ++ (jsonEscapeAscii key).getD [])

/-! ## The parser -/

section Parser

variable (finite : Bytes → Bool) (length : ℕ)

def invalidAt {α : Type} (kind : JsonErrorKind) (rest : Bytes) (reason : String) : Except JsonError α :=
  setError kind (ascii ("invalid JSON at byte " ++ toString (length - rest.length) ++ ": " ++ reason))

/-- `syntax_error`, at the offset where `rest` starts. -/
def syntaxError {α : Type} (rest : Bytes) (reason : String) : Except JsonError α :=
  invalidAt length .invalid rest reason

def isSpace (c : UInt8) : Bool := c == byte ' ' || c == byte '\t' || c == byte '\n' || c == byte '\r'

def skipWhitespace (rest : Bytes) : Bytes := rest.dropWhile isSpace

def hexDigit (c : UInt8) : Option ℕ :=
  if byte '0' ≤ c ∧ c ≤ byte '9' then some (c.toNat - 0x30)
  else if byte 'a' ≤ c ∧ c ≤ byte 'f' then some (c.toNat - 0x61 + 10)
  else if byte 'A' ≤ c ∧ c ≤ byte 'F' then some (c.toNat - 0x41 + 10)
  else none

def hex4At : Bytes → Option ℕ
  | a :: b :: c :: d :: _ => do
    let a ← hexDigit a
    let b ← hexDigit b
    let c ← hexDigit c
    let d ← hexDigit d
    return ((a * 16 + b) * 16 + c) * 16 + d
  | _ => none

def simpleEscape (escape : UInt8) : Option UInt8 :=
  if escape = byte '"' then some (byte '"')
  else if escape = byte '\\' then some (byte '\\')
  else if escape = byte '/' then some (byte '/')
  else if escape = byte 'b' then some 0x08
  else if escape = byte 'f' then some 0x0C
  else if escape = byte 'n' then some 0x0A
  else if escape = byte 'r' then some 0x0D
  else if escape = byte 't' then some 0x09
  else none

/-- The escape at the backslash that `rest` starts with: its decoded bytes and what follows it. -/
def stringEscape (rest : Bytes) : Except JsonError (Bytes × Bytes) :=
  match rest.drop 1 with
  | [] => syntaxError length [] "unterminated string"
  | escape :: after =>
    match simpleEscape escape with
    | some simple => .ok ([simple], after)
    | none =>
      if escape ≠ byte 'u' then syntaxError length rest "invalid escape"
      else
        match hex4At after with
        | none => syntaxError length rest "invalid \\u escape"
        | some codePoint =>
          let after := after.drop 4
          -- only an immediately following low surrogate combines
          if codePoint ≥ 0xD800 ∧ codePoint ≤ 0xDBFF ∧ after.take 2 = ascii "\\u" then
            match hex4At (after.drop 2) with
            | none => syntaxError length after "invalid \\u escape"
            | some low =>
              if low ≥ 0xDC00 ∧ low ≤ 0xDFFF then
                .ok (utf8Append (0x10000 + (codePoint - 0xD800) <<< 10 + (low - 0xDC00)), after.drop 6)
              else .ok (utf8Append codePoint, after)
          else .ok (utf8Append codePoint, after)

/-- The loop of `parse_string_bytes`; a run of plain bytes is copied byte by byte. -/
def stringLoop : ℕ → Bytes → Bytes → Except JsonError (Bytes × Bytes)
  | 0, rest, _ => syntaxError length rest "unterminated string"
  | _ + 1, [], _ => syntaxError length [] "unterminated string"
  | fuel + 1, c :: rest, out =>
    if c = byte '"' then .ok (out, rest)
    else if c < 0x20 then syntaxError length (c :: rest) "control character in string"
    else if c ≠ byte '\\' then stringLoop fuel rest (out ++ [c])
    else
      match stringEscape length (c :: rest) with
      | .error e => .error e
      | .ok (bytes, rest) => stringLoop fuel rest (out ++ bytes)

/-- `parse_string_bytes` at the quote that `rest` starts with. -/
def parseStringBytes (rest : Bytes) : Except JsonError (Bytes × Bytes) :=
  stringLoop length rest.length (rest.drop 1) []

def isDigit (c : UInt8) : Bool := byte '0' ≤ c && c ≤ byte '9'

/-- What follows the integer part of a number. -/
def numberInt (rest : Bytes) : Except JsonError Bytes :=
  let rest := if rest.head? = some (byte '-') then rest.drop 1 else rest
  match rest with
  | c :: after =>
    if c = byte '0' then .ok after
    else if byte '1' ≤ c ∧ c ≤ byte '9' then .ok (rest.dropWhile isDigit)
    else syntaxError length rest "invalid number"
  | [] => syntaxError length rest "invalid number"

/-- At least one digit. -/
def digitRun (rest : Bytes) (reason : String) : Except JsonError Bytes :=
  match rest with
  | c :: _ => if isDigit c then .ok (rest.dropWhile isDigit) else syntaxError length rest reason
  | [] => syntaxError length rest reason

def numberFrac (rest : Bytes) : Except JsonError Bytes :=
  if rest.head? = some (byte '.') then digitRun length (rest.drop 1) "invalid number fraction" else .ok rest

def numberExp (rest : Bytes) : Except JsonError Bytes :=
  if rest.head? = some (byte 'e') ∨ rest.head? = some (byte 'E') then
    let rest := rest.drop 1
    let rest := if rest.head? = some (byte '+') ∨ rest.head? = some (byte '-') then rest.drop 1 else rest
    digitRun length rest "invalid number exponent"
  else .ok rest

/-- The digits of an integer token. -/
def digitCount (text : Bytes) : ℕ := text.length - (if text.head? = some (byte '-') then 1 else 0)

def parseNumber (start : Bytes) : Except JsonError (JsonValue × Bytes) := do
  let afterInt ← numberInt length start
  let afterFrac ← numberFrac length afterInt
  let rest ← numberExp length afterFrac
  let integer := afterInt.head? ≠ some (byte '.') ∧
    ¬ (afterFrac.head? = some (byte 'e') ∨ afterFrac.head? = some (byte 'E'))
  let text := start.take (start.length - rest.length)
  if integer then
    if digitCount text > JSON_MAX_INTEGER_DIGITS then
      invalidAt length .limit start ("integer has more than " ++ toString JSON_MAX_INTEGER_DIGITS ++ " digits")
    else .ok (.integer text, rest)
  else if finite text then .ok (.float text, rest)
  else syntaxError length start "number is outside the finite double range"

def parseLiteral (rest : Bytes) (word : String) (value : JsonValue) : Except JsonError (JsonValue × Bytes) :=
  if rest.take (ascii word).length = ascii word then .ok (value, rest.drop (ascii word).length)
  else syntaxError length rest "expected a JSON value"

def Container.close : Container → UInt8
  | .array => byte ']'
  | .object => byte '\x7d'

/-- The key of a member with its colon and the whitespace around it. -/
def parseKey (rest : Bytes) : Except JsonError (Bytes × Bytes) :=
  if rest.head? ≠ some (byte '"') then syntaxError length rest "expected a string key"
  else
    match parseStringBytes length rest with
    | .error e => .error e
    | .ok (key, rest) =>
      let rest := skipWhitespace rest
      if rest.head? ≠ some (byte ':') then syntaxError length rest "expected ':'"
      else .ok (key, skipWhitespace (rest.drop 1))

def memberKey (type : Container) (rest : Bytes) : Except JsonError (Bytes × Bytes) :=
  match type with
  | .array => .ok ([], rest)
  | .object => parseKey length rest

/-- The loop of `parse_container` over the members; `item` is `parse_value` one level down. -/
def containerLoop (item : Bytes → Except JsonError (JsonValue × Bytes)) (type : Container) :
    ℕ → List (Bytes × JsonValue) → Bytes → Except JsonError (List (Bytes × JsonValue) × Bytes)
  | 0, _, _ => .error ⟨.none, []⟩
  | fuel + 1, members, rest => do
    let (key, rest) ← memberKey length type rest
    let (value, rest) ← item rest
    let members := members ++ [(key, value)]
    let rest := skipWhitespace rest
    if rest.head? = some (byte ',') then containerLoop item type fuel members (skipWhitespace (rest.drop 1))
    else if rest.head? = some type.close then .ok (members, rest.drop 1)
    else syntaxError length rest (if type = .object then "expected ',' or '\x7d'" else "expected ',' or ']'")

def checkMembers (type : Container) (members : List (Bytes × JsonValue)) : Except JsonError Unit :=
  match type with
  | .array => .ok ()
  | .object => rejectDuplicateKeys members

def parseContainer (item : Bytes → Except JsonError (JsonValue × Bytes)) (type : Container) (rest : Bytes) :
    Except JsonError (JsonValue × Bytes) :=
  let after := skipWhitespace (rest.drop 1)
  if after.head? = some type.close then .ok (type.value [], after.drop 1)
  else do
    let (members, rest) ← containerLoop length item type rest.length [] after
    checkMembers type members
    return (type.value members, rest)

/-- The switch of `parse_value`. -/
def parseValueBy (container : Container → Bytes → Except JsonError (JsonValue × Bytes)) (rest : Bytes) :
    Except JsonError (JsonValue × Bytes) :=
  match rest with
  | [] => syntaxError length rest "unexpected end of input"
  | c :: _ =>
    if c = byte '\x7b' then container .object rest
    else if c = byte '[' then container .array rest
    else if c = byte '"' then do
      let (text, rest) ← parseStringBytes length rest
      return (.string text, rest)
    else if c = byte 't' then parseLiteral length rest "true" .true
    else if c = byte 'f' then parseLiteral length rest "false" .false
    else if c = byte 'n' then parseLiteral length rest "null" .null
    else if c = byte '-' ∨ isDigit c then parseNumber finite length rest
    else syntaxError length rest "expected a JSON value"

/-- `parse_value` with `JSON_MAX_DEPTH - depth` levels left. -/
def parseValue : ℕ → Bytes → Except JsonError (JsonValue × Bytes)
  | 0 => parseValueBy finite length fun _ rest =>
      invalidAt length .limit rest ("nesting is deeper than " ++ toString JSON_MAX_DEPTH)
  | levels + 1 => parseValueBy finite length (parseContainer length (parseValue levels))

end Parser

def jsonParse (finite : Bytes → Bool) (text : Bytes) : Except JsonError JsonValue :=
  if jsonUtf8Valid text = false then setError .invalid (ascii "input is not valid UTF-8")
  else do
    let (value, rest) ← parseValue finite text.length JSON_MAX_DEPTH (skipWhitespace text)
    let rest := skipWhitespace rest
    if rest ≠ [] then syntaxError text.length rest "extra data after the JSON value" else .ok value

end Hamn.StrictJson
