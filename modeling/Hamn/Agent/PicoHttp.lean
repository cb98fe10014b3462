import Hamn.Lib.Reader

/-!
# Agent.PicoHttp — the request parser of the guest agent

`phr_parse_request` of `vendor/picohttpparser/picohttpparser.c` on the bytes of the receive buffer.

* `parseRequest`: the whole head of a request.
* `isComplete`: the search for an empty line from three bytes before `lastLen` on, which stands before it when the
  caller has seen the first `lastLen` bytes before.
* `phrParseRequest`: both.
-/

namespace Hamn.Agent

open Bytes Reader

/-- A header field; a continuation line has no name. -/
structure PhrHeader where
  name : Bytes
  value : Bytes
  deriving DecidableEq, Repr

/-- What `phr_parse_request` returns of a request. -/
structure PhrRequest where
  method : Bytes
  path : Bytes
  minorVersion : ℕ
  headers : List PhrHeader
  deriving DecidableEq, Repr

def carriageReturn : UInt8 := 13

def isBlank (c : UInt8) : Bool := c == byte ' ' || c == 9

/-- `token_char_map`. -/
def isTokenChar (c : UInt8) : Bool := isAlphanumeric c || (ascii "!#$%&'*+-.^_`|~").contains c

/-- A byte that may not stand in a request target. -/
def isControl (c : UInt8) : Bool := c < 32 || c == 127

/-- `get_token_to_eol` stops at a control character other than a tab. -/
def endsLine (c : UInt8) : Bool := (c < 32 && c != 9) || c == 127

def parseToken (next : UInt8) : Reader Bytes := before (· == next) isTokenChar

/-- `ADVANCE_TOKEN`. -/
def advanceToken : Reader Bytes := before (· == byte ' ') fun c => !isControl c

/-- The rest of a line and its end. -/
def getTokenToEol : Reader Bytes := do
  let token ← before endsLine fun _ => true
  lineEnd
  return token

def skipSpaces : Reader Unit := do
  expect (byte ' ')
  let _ ← before (· != byte ' ') fun _ => true
  return ()

def skipBlanks : Reader Unit := do
  let _ ← before (fun c => !isBlank c) fun _ => true
  return ()

/-- `HTTP/1.` and one digit; at least nine bytes have to be there. -/
def parseHttpVersion : Reader ℕ := fun b =>
  if b.length < 9 then .incomplete
  else if b.take 7 = ascii "HTTP/1." then
    match b.drop 7 with
    | d :: rest => if isDecimal d then .ok (d.toNat - 48) rest else .bad
    | [] => .incomplete
  else .bad

/-- The value without the spaces and tabs at its end. -/
def trimValue (value : Bytes) : Bytes := value.rdropWhile isBlank

/-- One header line; a line that starts with a blank continues the one before it. -/
def parseHeader (first : Bool) (c : UInt8) : Reader PhrHeader := do
  if !first && isBlank c then do
    let value ← getTokenToEol
    return ⟨[], trimValue value⟩
  else do
    let name ← parseToken (byte ':')
    if name = [] then refuse
    else do
      expect (byte ':')
      skipBlanks
      let value ← getTokenToEol
      return ⟨name, trimValue value⟩

def HTTP_MAX_HEADERS : ℕ := 40

/-- The headers up to the empty line, of which `left` more are allowed. -/
def parseHeaders : ℕ → List PhrHeader → Reader (List PhrHeader)
  | left, headers => do
    let c ← peek
    if c = carriageReturn ∨ c = newline then do
      lineEnd
      return headers
    else
      match left with
      | 0 => refuse
      | left + 1 => do
        let header ← parseHeader headers.isEmpty c
        parseHeaders left (headers ++ [header])

/-- An empty line before the request. -/
def skipEmptyLine : Reader Unit := do
  let c ← peek
  if c = carriageReturn ∨ c = newline then lineEnd else return ()

def parseRequest : Reader PhrRequest := do
  skipEmptyLine
  let method ← parseToken (byte ' ')
  skipSpaces
  let path ← advanceToken
  skipSpaces
  if method = [] ∨ path = [] then refuse
  else do
    let minorVersion ← parseHttpVersion
    lineEnd
    let headers ← parseHeaders HTTP_MAX_HEADERS []
    return ⟨method, path, minorVersion, headers⟩

/-- The search for two ends of lines in a row; `n` says that a line has just ended. -/
def emptyLine : Bool → Bytes → Answer Unit
  | _, [] => .incomplete
  | n, c :: b =>
    if c = carriageReturn then
      match b with
      | [] => .incomplete
      | d :: b => if d = newline then (if n then .ok () b else emptyLine true b) else .bad
    else if c = newline then (if n then .ok () b else emptyLine true b)
    else emptyLine false b

/-- `is_complete`. -/
def isComplete (lastLen : ℕ) : Reader Unit := fun b => emptyLine false (b.drop (lastLen - 3))

/-- `phr_parse_request`. -/
def phrParseRequest (lastLen : ℕ) : Reader PhrRequest := fun b =>
  if lastLen = 0 then parseRequest b
  else
    match isComplete lastLen b with
    | .ok () _ => parseRequest b
    | .incomplete => .incomplete
    | .bad => .bad

/-! ## More bytes -/

theorem stable_parseToken {next : UInt8} : Stable (parseToken next) := Stable.before

theorem stable_advanceToken : Stable advanceToken := Stable.before

theorem stable_getTokenToEol : Stable getTokenToEol :=
  Stable.before.bind fun _ => Stable.lineEnd.bind fun _ => Stable.pure

theorem stable_skipSpaces : Stable skipSpaces :=
  Stable.expect.bind fun _ => Stable.before.bind fun _ => Stable.pure

theorem stable_skipBlanks : Stable skipBlanks := Stable.before.bind fun _ => Stable.pure

theorem stable_parseHttpVersion : Stable parseHttpVersion := by
  intro b x
  unfold parseHttpVersion
  by_cases hlen : b.length < 9
  · rw [if_pos hlen]
    exact ⟨fun _ _ h => (nomatch h), fun h => (nomatch h)⟩
  have hx : ¬ (b ++ x).length < 9 := by
    rw [List.length_append]
    omega
  rw [if_neg hlen, if_neg hx, List.take_append_of_le_length (by omega), List.drop_append_of_le_length (by omega)]
  split_ifs with h7
  · cases hd : b.drop 7 with
    | nil =>
      have := congrArg List.length hd
      rw [List.length_drop, List.length_nil] at this
      omega
    | cons d rest =>
      rw [List.cons_append]
      dsimp only
      split_ifs
      · refine ⟨fun a r h => ?_, fun h => nomatch h⟩
        cases h
        rfl
      · exact ⟨fun _ _ h => (nomatch h), fun _ => rfl⟩
  · exact ⟨fun _ _ h => (nomatch h), fun _ => rfl⟩

theorem stable_parseHeader {first : Bool} {c : UInt8} : Stable (parseHeader first c) := by
  unfold parseHeader
  refine Stable.ite (stable_getTokenToEol.bind fun _ => Stable.pure) (stable_parseToken.bind fun name => ?_)
  exact Stable.ite Stable.refuse (Stable.expect.bind fun _ => stable_skipBlanks.bind fun _ =>
    stable_getTokenToEol.bind fun _ => Stable.pure)

theorem stable_parseHeaders : ∀ (left : ℕ) (headers : List PhrHeader), Stable (parseHeaders left headers)
  | 0, headers => by
    unfold parseHeaders
    exact Stable.peek.bind fun _ => Stable.ite (Stable.lineEnd.bind fun _ => Stable.pure) Stable.refuse
  | left + 1, headers => by
    unfold parseHeaders
    exact Stable.peek.bind fun _ => Stable.ite (Stable.lineEnd.bind fun _ => Stable.pure)
      (stable_parseHeader.bind fun header => stable_parseHeaders left (headers ++ [header]))

theorem stable_parseRequest : Stable parseRequest := by
  have hskip : Stable skipEmptyLine := Stable.peek.bind fun _ => Stable.ite Stable.lineEnd Stable.pure
  refine hskip.bind fun _ => stable_parseToken.bind fun method => stable_skipSpaces.bind fun _ =>
    stable_advanceToken.bind fun path => stable_skipSpaces.bind fun _ => Stable.ite Stable.refuse ?_
  exact stable_parseHttpVersion.bind fun _ => Stable.lineEnd.bind fun _ =>
    (stable_parseHeaders _ _).bind fun _ => Stable.pure

/-! ## The bytes of a head -/

theorem local_parseHttpVersion : Local parseHttpVersion := by
  intro b a c rest h
  unfold parseHttpVersion at h
  split_ifs at h with hlen h7
  cases hd : b.drop 7 with
  | nil =>
    rw [hd] at h
    cases h
  | cons d r =>
    rw [hd] at h
    dsimp only at h
    split_ifs at h with hdigit
    cases h
    have hb : b = b.take 7 ++ d :: c :: rest := by
      rw [← hd, List.take_append_drop]
    refine ⟨b.take 7 ++ [d], by rw [List.append_assoc]; exact hb, fun x => ?_⟩
    have htake : (b.take 7).length = 7 := by
      rw [List.length_take]
      omega
    unfold parseHttpVersion
    rw [List.append_assoc, if_neg (by simp only [List.length_append, List.length_cons, htake]; omega),
      List.take_left' htake, if_pos h7, List.drop_left' htake]
    simp [hdigit]

theorem tight_getTokenToEol : Tight getTokenToEol :=
  Local.before.tight fun _ => Tight.lineEnd.bind fun _ => Snug.pure

theorem local_skipSpaces : Local skipSpaces :=
  Tight.expect.1.local.bind fun _ => Local.before.bind fun _ => Local.pure

theorem tight_parseHeader {first : Bool} {c : UInt8} : Tight (parseHeader first c) := by
  have hblanks : Local skipBlanks := Local.before.bind fun _ => Local.pure
  have hvalue : ∀ name, Tight (do
      expect (byte ':')
      skipBlanks
      let value ← getTokenToEol
      return ⟨name, trimValue value⟩ : Reader PhrHeader) := fun name =>
    Tight.expect.1.local.tight fun _ => hblanks.tight fun _ => tight_getTokenToEol.bind fun _ => Snug.pure
  unfold parseHeader
  refine Tight.ite (tight_getTokenToEol.bind fun _ => Snug.pure) (Local.before.tight fun name => ?_)
  exact Tight.ite Tight.refuse (hvalue name)

theorem tight_parseHeaders : ∀ (left : ℕ) (headers : List PhrHeader), Tight (parseHeaders left headers)
  | 0, headers => by
    unfold parseHeaders
    exact Local.peek.tight fun _ => Tight.ite (Tight.lineEnd.bind fun _ => Snug.pure) Tight.refuse
  | left + 1, headers => by
    unfold parseHeaders
    exact Local.peek.tight fun _ => Tight.ite (Tight.lineEnd.bind fun _ => Snug.pure)
      (tight_parseHeader.bind fun header => (tight_parseHeaders left (headers ++ [header])).1)

theorem tight_parseRequest : Tight parseRequest := by
  have hskip : Local skipEmptyLine := Local.peek.bind fun _ => Local.ite Tight.lineEnd.1.local Local.pure
  refine hskip.tight fun _ => Local.before.tight fun method => local_skipSpaces.tight fun _ =>
    Local.before.tight fun path => local_skipSpaces.tight fun _ => Tight.ite Tight.refuse ?_
  exact local_parseHttpVersion.tight fun _ => Tight.lineEnd.bind fun _ =>
    (tight_parseHeaders _ _).1.bind fun _ => Snug.pure

end Hamn.Agent
