import Hamn.Guest.Json

/-!
# JsonWrite — the writer of `guest/json/strict_json.c`

`json_dump` appends to a buffer; here it returns the appended bytes, or the `errno` of the call that failed (what a
failed call left in the buffer is not kept).  Doubles are a type parameter with the C functions that the writer
calls (`Libc`).  The fixed buffers of the float functions are longer than any text written to them, except for the
one whose length the source checks (`digits_value`).
-/

open Bytes

namespace Hamn.StrictJson

inductive Errno where
  | EINVAL
  | ERANGE
  | EILSEQ
  deriving DecidableEq, Repr

/-- The C library's doubles. -/
structure Libc (D : Type) where
  /-- The value and the number of bytes taken. -/
  strtod : Bytes → D × ℕ
  isfinite : D → Bool
  signbit : D → Bool
  fabs : D → D
  neg : D → D
  /-- `x == y` -/
  eq : D → D → Bool
  /-- `x < y` -/
  lt : D → D → Bool
  /-- `x == 0` -/
  isZero : D → Bool
  /-- `"%.*e"` -/
  printE : ℕ → D → Bytes

section Floats

variable {D : Type} (libc : Libc D)

/-- The check of `parse_number` on a float token. -/
def Libc.finite (token : Bytes) : Bool :=
  (libc.strtod token).2 == token.length && libc.isfinite (libc.strtod token).1

def PYTHON_REPR_MIN_DECPT : ℤ := -3
def PYTHON_REPR_MAX_DECPT : ℤ := 16
def DOUBLE_ROUND_TRIP_DIGITS : ℕ := 17

/-- The decimal digits of a number, most significant first. -/
def decimalAux : ℕ → ℕ → Bytes
  | 0, _ => []
  | fuel + 1, n => (if n < 10 then [] else decimalAux fuel (n / 10)) ++ [UInt8.ofNat (0x30 + n % 10)]

def decimal (n : ℕ) : Bytes := decimalAux (n + 1) n

/-- `%d` -/
def printInt (n : ℤ) : Bytes := (if n < 0 then [byte '-'] else []) ++ decimal n.natAbs

/-- `%02d` of a number that is not negative. -/
def printInt02 (n : ℕ) : Bytes := (if n < 10 then [byte '0'] else []) ++ decimal n

/-- The number that decimal digits denote. -/
def digitsNat (digits : Bytes) : ℕ := digits.foldl (fun n d => n * 10 + (d.toNat - 0x30)) 0

def atoi (s : Bytes) : ℤ :=
  let digits := fun r : Bytes => (digitsNat (r.takeWhile isDigit) : ℤ)
  if s.head? = some (byte '-') then - digits (s.drop 1)
  else if s.head? = some (byte '+') then digits (s.drop 1)
  else digits s

def splitExponent (rendered : Bytes) : Bytes × ℤ :=
  let cursor := rendered.dropWhile (· != byte 'e')
  ((rendered.takeWhile (· != byte 'e')).filter isDigit,
    if cursor.head? = some (byte 'e') then atoi (cursor.drop 1) else 0)

/-- The text that `digits_value` converts; `none` when it does not fit its buffer. -/
def digitsText (digits : Bytes) (exponent : ℤ) : Option Bytes :=
  let text := digits.take 1 ++ byte '.' :: (digits.drop 1 ++ byte 'e' :: printInt exponent)
  if text.length ≥ 64 then none else some text

/-- `digits_value(..) == value` -/
def digitsValueEq (digits : Bytes) (exponent : ℤ) (value : D) : Bool :=
  match digitsText digits exponent with
  | none => false
  | some text => libc.eq (libc.strtod text).1 value

/-- The upward loop of `step_digits`, from the last digit; `none` when it runs off the front. -/
def stepUp : Bytes → Option Bytes
  | [] => none
  | d :: ds => if d ≠ byte '9' then some ((d + 1) :: ds) else (stepUp ds).map (byte '0' :: ·)

/-- The downward loop of `step_digits`, from the last digit. -/
def stepDown : Bytes → Bytes
  | [] => []
  | d :: ds => if d ≠ byte '0' then (d - 1) :: ds else byte '9' :: stepDown ds

def stepDigits (digits : Bytes) (exponent : ℤ) (upward : Bool) : Bytes × ℤ :=
  if upward then
    match stepUp digits.reverse with
    | some r => (r.reverse, exponent)
    | none => (byte '1' :: List.replicate (digits.length - 1) (byte '0'), exponent + 1)
  else
    let r := (stepDown digits.reverse).reverse
    if r.head? = some (byte '0') then (List.replicate digits.length (byte '9'), exponent - 1) else (r, exponent)

/-- The loop of `shortest_digits`, with `n` precisions left. -/
def shortestFrom (value : D) : ℕ → ℕ → Option (Bytes × ℤ)
  | 0, _ => none
  | n + 1, precision =>
    let rendered := libc.printE (precision - 1) value
    let (digits, exponent) := splitExponent rendered
    let nearest := (libc.strtod rendered).1
    if libc.eq nearest value then some (digits, exponent)
    else
      let (digits, exponent) := stepDigits digits exponent (libc.lt nearest value)
      if digitsValueEq libc digits exponent value then some (digits, exponent)
      else shortestFrom value n (precision + 1)

def shortestDigits (value : D) : Option (Bytes × ℤ) := shortestFrom libc value DOUBLE_ROUND_TRIP_DIGITS 1

/-- Trailing zeros go, up to the first digit. -/
def stripZeros : Bytes → Bytes
  | [] => []
  | d :: ds => d :: ((ds.reverse.dropWhile (· == byte '0')).reverse)

/-- The text for digits with the decimal point after the first and a decimal exponent. -/
def formatFloat (digits : Bytes) (exponent : ℤ) : Bytes :=
  let count := digits.length
  let decimalPoint := exponent + 1
  if decimalPoint < PYTHON_REPR_MIN_DECPT ∨ decimalPoint > PYTHON_REPR_MAX_DECPT then
    digits.take 1 ++ ((if count > 1 then byte '.' :: digits.drop 1 else []) ++
      byte 'e' :: (if exponent < 0 then byte '-' else byte '+') :: printInt02 exponent.natAbs)
  else if decimalPoint ≤ 0 then ascii "0." ++ (List.replicate (-decimalPoint).toNat (byte '0') ++ digits)
  else if decimalPoint.toNat ≥ count then
    digits ++ (List.replicate (decimalPoint.toNat - count) (byte '0') ++ ascii ".0")
  else digits.take decimalPoint.toNat ++ byte '.' :: digits.drop decimalPoint.toNat

/-- The text for a finite double without a sign. -/
def unsignedFloat (value : D) : Except Errno Bytes :=
  if libc.isZero value then .ok (formatFloat [byte '0'] 0)
  else
    match shortestDigits libc value with
    | none => .error .ERANGE
    | some (digits, exponent) => .ok (formatFloat (stripZeros digits) exponent)

def appendPythonFloat (token : Bytes) : Except Errno Bytes :=
  let value := (libc.strtod token).1
  if libc.isfinite value = false then .error .ERANGE
  else (unsignedFloat libc (libc.fabs value)).map ((if libc.signbit value then [byte '-'] else []) ++ ·)

end Floats

/-! ## Values -/

def appendQuoted (bytes : Bytes) : Except Errno Bytes :=
  match jsonEscapeAscii bytes with
  | none => .error .EILSEQ
  | some escaped => .ok (byte '"' :: (escaped ++ [byte '"']))

def appendIndent (level : ℕ) : Bytes := byte '\n' :: (List.replicate level (ascii "  ")).flatten

def dumpKey (type : Container) (key : Bytes) : Except Errno Bytes :=
  match type with
  | .array => .ok []
  | .object => do
    let quoted ← appendQuoted key
    return quoted ++ ascii ": "

/-- The loop of `dump_value` over the members; `dump` is `dump_value` one level down. -/
def dumpMembers (dump : JsonValue → Except Errno Bytes) (type : Container) (level : ℕ) :
    Bool → List (Bytes × JsonValue) → Except Errno Bytes
  | _, [] => .ok []
  | first, (key, value) :: members => do
    let label ← dumpKey type key
    let body ← dump value
    let rest ← dumpMembers dump type level false members
    return (if first then [] else [byte ',']) ++ (appendIndent (level + 1) ++ (label ++ (body ++ rest)))

def Container.openByte : Container → UInt8
  | .array => byte '['
  | .object => byte '\x7b'

def dumpContainer (dump : JsonValue → Except Errno Bytes) (type : Container) (sortKeys : Bool) (level : ℕ)
    (members : List (Bytes × JsonValue)) : Except Errno Bytes :=
  if members = [] then .ok [type.openByte, type.close]
  else do
    let order := if type = .object ∧ sortKeys = true then sortedMembers members else members
    let body ← dumpMembers dump type level true order
    return type.openByte :: (body ++ (appendIndent level ++ [type.close]))

/-- `dump_value` at `level = JSON_MAX_DEPTH + 1 - left`. -/
def dumpValue {D : Type} (libc : Libc D) (sortKeys : Bool) : ℕ → JsonValue → Except Errno Bytes
  | 0, _ => .error .EINVAL
  | left + 1, value =>
    match value with
    | .null => .ok (ascii "null")
    | .true => .ok (ascii "true")
    | .false => .ok (ascii "false")
    | .integer text => .ok (if text = ascii "-0" then ascii "0" else text)
    | .float text => appendPythonFloat libc text
    | .string text => appendQuoted text
    | .array items =>
      dumpContainer (dumpValue libc sortKeys left) .array sortKeys (JSON_MAX_DEPTH - left) (items.map fun v => ([], v))
    | .object members =>
      dumpContainer (dumpValue libc sortKeys left) .object sortKeys (JSON_MAX_DEPTH - left) members

def jsonDump {D : Type} (libc : Libc D) (value : JsonValue) (sortKeys : Bool) : Except Errno Bytes :=
  dumpValue libc sortKeys (JSON_MAX_DEPTH + 1) value

end Hamn.StrictJson
