import Hamn.Agent.PicoHttp

/-!
# Agent.Conn — one HTTP connection of the guest agent

The functions of `guest/agent/http/conn.c`.  The bytes of a connection come in through `read`, which returns at most
what the buffer has room for; after every read the requests that are complete go to `router_dispatch`.  What the
router does with a request is no part of this, except that it may take the connection over (`conn_handoff`).

* `verdict`: what `try_dispatch` makes of the buffer.
* `tryDispatch`, `drain`, `onReadable`: the loops around it.
* `serve`: a whole connection, from the bytes that were there at each wake-up.
-/

namespace Hamn.Agent

open Bytes Reader

def RDBUF_INIT : ℕ := 16 * 1024

def RDBUF_MAX : ℕ := 1024 * 1024

/-- `struct http_req`. -/
structure HttpReq where
  method : Bytes
  path : Bytes
  query : Bytes
  minorVersion : ℕ
  headers : List PhrHeader
  body : Bytes
  keepAlive : Bool
  deriving DecidableEq, Repr

/-! ## Reading a request -/

def lowercase (c : UInt8) : UInt8 := if 65 ≤ c && c ≤ 90 then c + 32 else c

/-- `strncasecmp` of two texts of the same length. -/
def sameName (a b : Bytes) : Bool := a.map lowercase == b.map lowercase

/-- `http_req_header`: the first header of this name. -/
def httpReqHeader (headers : List PhrHeader) (name : String) : Option Bytes :=
  (headers.find? fun h => sameName h.name (ascii name)).map PhrHeader.value

/-- The digits of a length, which may not exceed `RDBUF_MAX`. -/
def lengthDigits : ℕ → Bytes → Option ℕ
  | value, [] => some value
  | value, c :: b =>
    if !isDecimal c || value > (RDBUF_MAX - (c.toNat - 48)) / 10 then none
    else lengthDigits (value * 10 + (c.toNat - 48)) b

/-- One `Content-Length` value, with blanks around it. -/
def lengthValue (value : Bytes) : Option ℕ :=
  let digits := (value.dropWhile isBlank).rdropWhile isBlank
  if digits = [] then none else lengthDigits 0 digits

/-- `parse_content_length`: without the header 0; given twice or malformed, none. -/
def parseContentLength (headers : List PhrHeader) : Option ℕ :=
  match headers.filter fun h => sameName h.name (ascii "Content-Length") with
  | [] => some 0
  | [h] => lengthValue h.value
  | _ => none

/-- What `try_dispatch` finds in the buffer. -/
inductive Verdict where
  /-- More bytes are needed. -/
  | wait
  /-- `400 Bad Request`. -/
  | reject
  /-- A request line that does not fit is not answered. -/
  | tooLong
  /-- A complete request, and how many bytes it takes. -/
  | request (r : HttpReq) (used : ℕ)
  deriving DecidableEq, Repr

/-- The part of a target before and after the first `?`. -/
def splitTarget (target : Bytes) : Bytes × Bytes := (splitOnce (byte '?') target).getD (target, [])

/-- The checks on a parsed head, and the wait for its body. -/
def headVerdict (head : PhrRequest) (rest : Bytes) (hdrlen : ℕ) : Verdict :=
  if head.method.length ≥ 8 ∨ head.path.length ≥ 2048 then .tooLong
  else if (splitTarget head.path).2.length ≥ 1024 then .reject
  else
    match parseContentLength head.headers with
    | none => .reject
    | some clen =>
      if clen > RDBUF_MAX - hdrlen ∨ (httpReqHeader head.headers "Transfer-Encoding").isSome then .reject
      else if rest.length < clen then .wait
      else
        .request ⟨head.method, (splitTarget head.path).1, (splitTarget head.path).2, head.minorVersion, head.headers,
          rest.take clen, !(httpReqHeader head.headers "Connection").any (sameName · (ascii "close"))⟩ (hdrlen + clen)

/-- `try_dispatch` up to the router. -/
def verdict (prevLen : ℕ) (buf : Bytes) : Verdict :=
  match phrParseRequest prevLen buf with
  | .incomplete => .wait
  | .bad => .reject
  | .ok head rest => headVerdict head rest (buf.length - rest.length)

/-! ## The connection -/

inductive Status where
  | open
  /-- Answered with `400 Bad Request` and closed. -/
  | rejected
  /-- Closed for a request line that does not fit. -/
  | tooLong
  /-- Closed because the buffer is full. -/
  | overflow
  /-- Closed after a request with `Connection: close`. -/
  | finished
  | handedOff
  deriving DecidableEq, Repr

/-- `struct conn`, with the requests given to the router so far. -/
structure Conn where
  buf : Bytes
  prevLen : ℕ
  cap : ℕ
  requests : List HttpReq
  status : Status

def connNew : Conn := ⟨[], 0, RDBUF_INIT, [], .open⟩

/-- What the router decides about the last of the requests it has been given: whether it takes the connection over. -/
abbrev Router := List HttpReq → Bool

section

variable (router : Router)

/-- The connection once the router has had the request `r`. -/
def afterDispatch (c : Conn) (r : HttpReq) (used : ℕ) : Conn :=
  let requests := c.requests ++ [r]
  if router requests then { c with requests, status := .handedOff }
  else if !r.keepAlive then { c with requests, status := .finished }
  else { c with requests, buf := c.buf.drop used, prevLen := 0 }

/-- `try_dispatch`, and whether it handled a request and kept the connection. -/
def tryDispatch (c : Conn) : Conn × Bool :=
  match verdict c.prevLen c.buf with
  | .wait => ({ c with prevLen := c.buf.length }, false)
  | .reject => ({ c with status := .rejected }, false)
  | .tooLong => ({ c with status := .tooLong }, false)
  | .request r used => (afterDispatch router c r used, (afterDispatch router c r used).status == .open)

/-- `do … while (rc == 0 && c->len > 0)`. -/
def drain : ℕ → Conn → Conn
  | 0, c => c
  | fuel + 1, c =>
    match tryDispatch router c with
    | (c, true) => if c.buf = [] then c else drain fuel c
    | (c, false) => c

/-- A full buffer is doubled. -/
def grow (c : Conn) : Conn := if c.buf.length = c.cap then { c with cap := c.cap * 2 } else c

/-- One `read`, and the requests that it completes. -/
def receive (c : Conn) (bytes : Bytes) : Conn :=
  drain router (c.buf.length + bytes.length) { c with buf := c.buf ++ bytes }

/-- `on_readable` while these bytes are there; `fuel` bounds the number of reads. -/
def readLoop : ℕ → Conn → Bytes → Conn
  | 0, c, _ => c
  | fuel + 1, c, available =>
    if c.status ≠ .open then c
    else if c.buf.length = c.cap ∧ c.cap ≥ RDBUF_MAX then { c with status := .overflow }
    else
      match available with
      | [] => grow c
      | _ :: _ =>
        let n := (grow c).cap - c.buf.length
        readLoop fuel (receive router (grow c) (available.take n)) (available.drop n)

def onReadable (c : Conn) (available : Bytes) : Conn := readLoop router (available.length + 1) c available

/-- The connection after wake-ups at which these bytes were there. -/
def serve (chunks : List Bytes) : Conn := chunks.foldl (onReadable router) connNew

/-! ## The whole stream at once -/

/-- The requests in a stream that is all there, each parsed from its first byte; a request may take `RDBUF_MAX` bytes. -/
def framesFrom : ℕ → List HttpReq → Bytes → List HttpReq × Status
  | 0, requests, _ => (requests, .open)
  | fuel + 1, requests, stream =>
    match verdict 0 (stream.take RDBUF_MAX) with
    | .wait => (requests, if stream.length ≥ RDBUF_MAX then .overflow else .open)
    | .reject => (requests, .rejected)
    | .tooLong => (requests, .tooLong)
    | .request r used =>
      if router (requests ++ [r]) then (requests ++ [r], .handedOff)
      else if !r.keepAlive then (requests ++ [r], .finished)
      else framesFrom fuel (requests ++ [r]) (stream.drop used)

def frames (stream : Bytes) : List HttpReq × Status := framesFrom router (stream.length + 1) [] stream

end

end Hamn.Agent
