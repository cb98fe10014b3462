import Hamn.Lib.Bytes
import Hamn.Lib.Result

/-!
# ChunkedBody — the body of a chunked answer of the Docker socket (`fwd/docker_observer.c`)

The loops of the decoder over the received bytes, which every access checks against the bounds of the input and of the
buffer for the body.

* `findCrlf`, `chunkSize`, `decodeFrom`, `chunkedBodyDecode`: the functions of the source.
* `Chunk`, `IsBody`: the bytes of a chunked body.
* `chunkedBodyDecode_exact`: exactly those are decoded.
-/

namespace Hamn.Host.ChunkedBody

open Bytes

def DOCKER_HTTP_BODY_CAP : ℕ := 512 * 1024

def ULLONG_MAX : ℕ := 2 ^ 64 - 1

inductive Fault where
  /-- An access outside of an array. -/
  | outside
  /-- A loop that goes on. -/
  | spin
  deriving DecidableEq

inductive Errno where
  | proto
  | overflow
  deriving DecidableEq

def byteAt (input : Bytes) (i : ℕ) : Except Fault UInt8 :=
  match input[i]? with
  | some c => .ok c
  | none => .error .outside

def CR : UInt8 := 13

def LF : UInt8 := 10

def CRLF : Bytes := [CR, LF]

/-- `find_crlf` -/
def findCrlf (input : Bytes) (limit : ℕ) : ℕ → ℕ → Except Fault (Option ℕ)
  | 0, _ => .error .spin
  | fuel + 1, cursor =>
    if cursor + 1 < limit then do
      let first ← byteAt input cursor
      if first = CR then
        let second ← byteAt input (cursor + 1)
        if second = LF then .ok (some cursor) else findCrlf input limit fuel (cursor + 1)
      else findCrlf input limit fuel (cursor + 1)
    else .ok none

def hexValue (c : UInt8) : Option ℕ :=
  if 48 ≤ c ∧ c ≤ 57 then some (c.toNat - 48)
  else if 97 ≤ c ∧ c ≤ 102 then some (c.toNat - 97 + 10)
  else if 65 ≤ c ∧ c ≤ 70 then some (c.toNat - 65 + 10)
  else none

/-- The loop over the digits before `lineEnd`: the size, if there was a digit. -/
def chunkSize (input : Bytes) (lineEnd : ℕ) : ℕ → ℕ → ℕ → Bool → Except Fault (Except Errno (Option ℕ))
  | 0, _, _, _ => .error .spin
  | fuel + 1, p, chunk, digits =>
    if p < lineEnd then do
      let c ← byteAt input p
      if c = 59 then .ok (.ok (if digits then some chunk else none))
      else
        match hexValue c with
        | none => .ok (.error .proto)
        | some value =>
          if (ULLONG_MAX - value) / 16 < chunk then .ok (.error .overflow)
          else chunkSize input lineEnd fuel (p + 1) (chunk * 16 + value) true
    else .ok (.ok (if digits then some chunk else none))

/-- `memcpy(body + output, input + cursor, length)` -/
def copy (input : Bytes) (cursor length : ℕ) (body : Bytes) : Except Fault Bytes :=
  if input.length < cursor + length ∨ DOCKER_HTTP_BODY_CAP < body.length + length then .error .outside
  else .ok (body ++ (input.drop cursor).take length)

/-- `body[output] = '\0'` -/
def terminate (body : Bytes) : Except Fault Bytes :=
  if DOCKER_HTTP_BODY_CAP ≤ body.length then .error .outside else .ok (body ++ [0])

/-- Whether a CRLF stands at `i`. -/
def crlfAt (input : Bytes) (i : ℕ) : Except Fault Bool := do
  let first ← byteAt input i
  if first = CR then
    let second ← byteAt input (i + 1)
    .ok (second == LF)
  else .ok false

/-- Where a turn of the loop leads. -/
inductive Turn where
  | ended (body : Bytes)
  | refused (errno : Errno)
  | next (cursor : ℕ) (body : Bytes)

/-- The rest of the input is the last CRLF. -/
def atEnd (input : Bytes) (cursor chunk : ℕ) : Except Fault Bool :=
  if chunk = 0 ∧ cursor + 2 = input.length then crlfAt input cursor else .ok false

/-- A chunk of this size is there, with its CRLF, and the body has room for it. -/
def isWhole (input : Bytes) (cursor chunk output : ℕ) : Except Fault Bool :=
  if chunk ≠ 0 ∧ chunk ≤ input.length - cursor ∧ chunk < DOCKER_HTTP_BODY_CAP - output ∧
      cursor + chunk + 2 ≤ input.length then
    crlfAt input (cursor + chunk)
  else .ok false

/-- What follows a size line: the end of the body, or a chunk of this size. -/
def takeChunk (input : Bytes) (cursor chunk : ℕ) (body : Bytes) : Except Fault Turn := do
  let last ← atEnd input cursor chunk
  if last then (terminate body).map Turn.ended
  else
    let whole ← isWhole input cursor chunk body.length
    if whole then (copy input cursor chunk body).map (Turn.next (cursor + chunk + 2))
    else .ok (.refused (if DOCKER_HTTP_BODY_CAP - body.length ≤ chunk then .overflow else .proto))

/-- A turn of the loop: a size line and what follows it. -/
def turn (input : Bytes) (cursor : ℕ) (body : Bytes) : Except Fault Turn := do
  let limit := input.length
  match ← findCrlf input limit (limit + 1) cursor with
  | none => .ok (.refused .proto)
  | some lineEnd =>
    match ← chunkSize input lineEnd (limit + 1) cursor 0 false with
    | .error errno => .ok (.refused errno)
    | .ok none => .ok (.refused .proto)
    | .ok (some chunk) => takeChunk input (lineEnd + 2) chunk body

/-- The loop of `chunked_body_decode`; `body` is what was written so far. -/
def decodeFrom (input : Bytes) : ℕ → ℕ → Bytes → Except Fault (Except Errno Bytes)
  | 0, _, _ => .error .spin
  | fuel + 1, cursor, body =>
    if cursor < input.length then do
      match ← turn input cursor body with
      | .ended body => .ok (.ok body)
      | .refused errno => .ok (.error errno)
      | .next cursor body => decodeFrom input fuel cursor body
    else .ok (.error .proto)

def chunkedBodyDecode (input : Bytes) : Except Fault (Except Errno Bytes) := decodeFrom input (input.length + 1) 0 []

/-! ## The bytes of a chunked body -/

/-- The number that hexadecimal digits mean after the digits of `n`. -/
def hexFrom (n : ℕ) : Bytes → Option ℕ
  | [] => some n
  | c :: digits => (hexValue c).bind fun value => hexFrom (n * 16 + value) digits

def hexNumber (digits : Bytes) : Option ℕ := hexFrom 0 digits

/-- An extension of a size line. -/
def IsExtension (ext : Bytes) : Prop := ext = [] ∨ ext.head? = some 59 ∧ ¬ CRLF <:+: ext

/-- A size line: digits, an extension and its end. -/
structure SizeLine (size : ℕ) (line : Bytes) : Prop where
  line : ∃ digits ext, line = digits ++ ext ++ CRLF ∧ digits ≠ [] ∧ hexNumber digits = some size ∧ IsExtension ext
  fits : size < 2 ^ 64

/-- A chunk with its data. -/
inductive IsChunk : Bytes → Bytes → Prop
  | mk {line data : Bytes} (hne : data ≠ []) (hline : SizeLine data.length line) : IsChunk (line ++ data ++ CRLF) data

/-- The bytes after some chunks and a last one, and the data of the chunks. -/
inductive IsBody : Bytes → Bytes → Prop
  | last {line : Bytes} (hline : SizeLine 0 line) : IsBody (line ++ CRLF) []
  | chunk {chunk data rest body : Bytes} (hchunk : IsChunk chunk data) (hrest : IsBody rest body) :
    IsBody (chunk ++ rest) (data ++ body)

/-! ## Reads -/

theorem byteAt_append (pre rest : Bytes) (i : ℕ) :
    byteAt (pre ++ rest) (pre.length + i) = byteAt rest i := by
  unfold byteAt
  rw [List.getElem?_append_right (Nat.le_add_right _ _), Nat.add_sub_cancel_left]

theorem byteAt_append_self (pre rest : Bytes) (c : UInt8) : byteAt (pre ++ c :: rest) pre.length = .ok c := by
  have h := byteAt_append pre (c :: rest) 0
  rw [Nat.add_zero] at h
  rw [h]
  rfl

theorem byteAt_append_succ (pre rest : Bytes) (c d : UInt8) :
    byteAt (pre ++ c :: d :: rest) (pre.length + 1) = .ok d := byteAt_append pre (c :: d :: rest) 1

theorem crlfAt_append (pre : Bytes) (c d : UInt8) (rest : Bytes) :
    crlfAt (pre ++ c :: d :: rest) pre.length = .ok (c == CR && d == LF) := by
  unfold crlfAt
  rw [byteAt_append_self, Result.ok_bind]
  by_cases hc : c = CR
  · rw [if_pos hc, byteAt_append_succ, Result.ok_bind]
    simp [hc]
  · rw [if_neg hc]
    simp [hc]

/-! ## Lines -/

/-- The bytes before and after the first CRLF. -/
def splitCrlf : Bytes → Option (Bytes × Bytes)
  | [] => none
  | [_] => none
  | a :: b :: rest => if a = CR ∧ b = LF then some ([], rest) else (splitCrlf (b :: rest)).map fun r => (a :: r.1, r.2)

theorem splitCrlf_cons_cons (a b : UInt8) (rest : Bytes) : splitCrlf (a :: b :: rest) =
    if a = CR ∧ b = LF then some ([], rest) else (splitCrlf (b :: rest)).map fun r => (a :: r.1, r.2) := rfl

theorem findCrlf_append (pre rest : Bytes) {fuel : ℕ} (hfuel : rest.length < fuel) :
    findCrlf (pre ++ rest) (pre ++ rest).length fuel pre.length =
      .ok ((splitCrlf rest).map fun r => pre.length + r.1.length) := by
  induction rest generalizing pre fuel with
  | nil =>
    obtain ⟨fuel, rfl⟩ : ∃ n, fuel = n + 1 := ⟨fuel - 1, by simp at hfuel; omega⟩
    rw [findCrlf, if_neg (by simp)]
    rfl
  | cons a rest ih =>
    obtain ⟨fuel, rfl⟩ : ∃ n, fuel = n + 1 := ⟨fuel - 1, by simp at hfuel; omega⟩
    -- the search goes on behind `a`
    have hnext : findCrlf (pre ++ a :: rest) (pre ++ a :: rest).length fuel (pre.length + 1) =
        .ok ((splitCrlf rest).map fun r => pre.length + 1 + r.1.length) := by
      have h := @ih (pre ++ [a]) fuel (by simp at hfuel; omega)
      rwa [List.append_assoc, List.singleton_append, @List.length_append _ pre [a]] at h
    have hshift : (Except.ok ((splitCrlf rest).map fun r => pre.length + 1 + r.1.length) : Except Fault (Option ℕ)) =
        .ok (((splitCrlf rest).map fun r => (a :: r.1, r.2)).map fun r => pre.length + r.1.length) := by
      rw [Option.map_map]
      congr 2
      funext r
      simp only [Function.comp_apply, List.length_cons]
      omega
    cases rest with
    | nil =>
      rw [findCrlf, if_neg (by simp)]
      rfl
    | cons b rest =>
      rw [findCrlf, if_pos (by simp), byteAt_append_self, Result.ok_bind, byteAt_append_succ, Result.ok_bind, hnext,
        splitCrlf_cons_cons a b rest]
      by_cases ha : a = CR
      · by_cases hb : b = LF
        · rw [if_pos ha, if_pos hb, if_pos ⟨ha, hb⟩]
          rfl
        · rw [if_pos ha, if_neg hb, if_neg fun h => hb h.2]
          exact hshift
      · rw [if_neg ha, if_neg fun h => ha h.1]
        exact hshift

theorem not_crlf_cons {a : UInt8} {l : Bytes} (ha : ∀ b, l.head? = some b → ¬ (a = CR ∧ b = LF)) (hl : ¬ CRLF <:+: l) :
    ¬ CRLF <:+: a :: l := by
  rw [List.infix_cons_iff]
  rintro (hpre | hin)
  · cases l with
    | nil =>
      have hlen := hpre.length_le
      simp [CRLF] at hlen
    | cons b l =>
      obtain ⟨h1, h2⟩ := List.cons_prefix_cons.mp hpre
      obtain ⟨h2, -⟩ := List.cons_prefix_cons.mp h2
      exact ha b rfl ⟨h1.symm, h2.symm⟩
  · exact hl hin

theorem splitCrlf_eq_some {b l r : Bytes} : splitCrlf b = some (l, r) ↔ b = l ++ CRLF ++ r ∧ ¬ CRLF <:+: l := by
  constructor
  · intro h
    induction b generalizing l with
    | nil => cases h
    | cons a b ih =>
      cases b with
      | nil => cases h
      | cons c b =>
        rw [splitCrlf_cons_cons] at h
        split_ifs at h with hcrlf
        · obtain ⟨rfl, rfl⟩ := Prod.mk.inj (Option.some.inj h)
          obtain ⟨rfl, rfl⟩ := hcrlf
          exact ⟨rfl, by decide⟩
        · obtain ⟨⟨l', r'⟩, hsplit, hq⟩ := Option.map_eq_some_iff.mp h
          obtain ⟨rfl, rfl⟩ := Prod.mk.inj hq
          obtain ⟨heq, hno⟩ := ih hsplit
          refine ⟨by rw [heq]; rfl, not_crlf_cons (fun d hd => ?_) hno⟩
          -- the byte after `a` is the head of the line
          cases l' with
          | nil => cases hd
          | cons x l' =>
            obtain rfl := Option.some.inj hd
            obtain ⟨rfl, -⟩ := List.cons.inj heq
            exact hcrlf
  · rintro ⟨rfl, hno⟩
    induction l with
    | nil => rfl
    | cons a l ih =>
      have hl : ¬ CRLF <:+: l := fun h => hno (List.infix_cons h)
      have hsplit := ih hl
      cases l with
      | nil =>
        change (if a = CR ∧ CR = LF then _ else _) = _
        rw [if_neg fun h => absurd h.2 (by decide)]
        change Option.map _ (splitCrlf ([] ++ CRLF ++ r)) = _
        rw [hsplit]
        rfl
      | cons x l =>
        change (if a = CR ∧ x = LF then _ else _) = _
        rw [if_neg]
        · change Option.map _ (splitCrlf (x :: l ++ CRLF ++ r)) = _
          rw [hsplit]
          rfl
        · rintro ⟨rfl, rfl⟩
          exact hno (List.prefix_append CRLF l).isInfix

/-! ## Sizes -/

/-- The size that a line says, after the digits of `chunk`. -/
def lineSize (chunk : ℕ) (digits : Bool) : Bytes → Except Errno (Option ℕ)
  | [] => .ok (if digits then some chunk else none)
  | c :: line =>
    if c = 59 then .ok (if digits then some chunk else none)
    else
      match hexValue c with
      | none => .error .proto
      | some value =>
        if (ULLONG_MAX - value) / 16 < chunk then .error .overflow else lineSize (chunk * 16 + value) true line

theorem chunkSize_append (line rest : Bytes) (pre : Bytes) {fuel : ℕ} (hfuel : line.length < fuel) (chunk : ℕ)
    (digits : Bool) :
    chunkSize (pre ++ line ++ rest) (pre.length + line.length) fuel pre.length chunk digits =
      .ok (lineSize chunk digits line) := by
  induction line generalizing pre fuel chunk digits with
  | nil =>
    obtain ⟨fuel, rfl⟩ : ∃ n, fuel = n + 1 := ⟨fuel - 1, by simp at hfuel; omega⟩
    rw [chunkSize, if_neg (by simp)]
    rfl
  | cons c line ih =>
    obtain ⟨fuel, rfl⟩ : ∃ n, fuel = n + 1 := ⟨fuel - 1, by simp at hfuel; omega⟩
    have hread : byteAt (pre ++ c :: line ++ rest) pre.length = .ok c := by
      rw [List.append_assoc]
      exact byteAt_append_self pre (line ++ rest) c
    rw [chunkSize, if_pos (by simp), hread, Result.ok_bind, lineSize]
    split_ifs
    · rfl
    · rfl
    · cases hv : hexValue c with
      | none => rfl
      | some value =>
        simp only
        split_ifs
        · rfl
        · have h := @ih (pre ++ [c]) fuel (by simp at hfuel; omega) (chunk * 16 + value) true
          rw [List.length_append, List.append_assoc pre [c] line] at h
          rw [List.length_cons, show pre.length + (line.length + 1) = pre.length + [c].length + line.length by
            simp only [List.length_singleton]; omega]
          exact h

theorem hexFrom_le {digits : Bytes} {n m : ℕ} (h : hexFrom n digits = some m) : n ≤ m := by
  induction digits generalizing n with
  | nil => exact (Option.some.inj h).le
  | cons c digits ih =>
    obtain ⟨value, -, h⟩ := Option.bind_eq_some_iff.mp h
    have := ih h
    omega

/-- The overflow check of a digit. -/
theorem overflow_iff {chunk value : ℕ} (hv : value < 16) :
    (ULLONG_MAX - value) / 16 < chunk ↔ 2 ^ 64 ≤ chunk * 16 + value := by
  unfold ULLONG_MAX
  omega

theorem hexValue_lt {c : UInt8} {value : ℕ} (h : hexValue c = some value) : value < 16 := by
  unfold hexValue at h
  split_ifs at h with h1 h2 h3
  · obtain rfl := Option.some.inj h
    have hle : c.toNat ≤ 57 := UInt8.le_iff_toNat_le.mp h1.2
    omega
  · obtain rfl := Option.some.inj h
    have hle : c.toNat ≤ 102 := UInt8.le_iff_toNat_le.mp h2.2
    omega
  · obtain rfl := Option.some.inj h
    have hle : c.toNat ≤ 70 := UInt8.le_iff_toNat_le.mp h3.2
    omega

theorem hexValue_semicolon : hexValue 59 = none := by decide

theorem hexValue_CR : hexValue CR = none := by decide

theorem lineSize_eq_some {chunk : ℕ} {digits : Bool} {l : Bytes} {n : ℕ} :
    lineSize chunk digits l = .ok (some n) ↔ ∃ ds ext, l = ds ++ ext ∧ (digits = true ∨ ds ≠ []) ∧
      hexFrom chunk ds = some n ∧ (n < 2 ^ 64 ∨ ds = []) ∧ (ext = [] ∨ ext.head? = some 59) := by
  constructor
  · intro h
    induction l generalizing chunk digits with
    | nil =>
      cases digits with
      | false => cases h
      | true =>
        obtain rfl := Option.some.inj (Except.ok.inj h)
        exact ⟨[], [], rfl, Or.inl rfl, rfl, Or.inr rfl, Or.inl rfl⟩
    | cons c l ih =>
      rw [lineSize] at h
      split_ifs at h with hc hd
      · obtain rfl := Option.some.inj (Except.ok.inj h)
        exact ⟨[], c :: l, rfl, Or.inl hd, rfl, Or.inr rfl, Or.inr (congrArg some hc)⟩
      · cases h
      · cases hv : hexValue c with
        | none =>
          rw [hv] at h
          cases h
        | some value =>
          rw [hv] at h
          simp only at h
          split_ifs at h with hover
          obtain ⟨ds, ext, rfl, -, hhex, hfits, hext⟩ := ih h
          refine ⟨c :: ds, ext, rfl, Or.inr (List.cons_ne_nil _ _), ?_, Or.inl ?_, hext⟩
          · rw [hexFrom, hv]
            exact hhex
          · rcases hfits with hfits | rfl
            · exact hfits
            · obtain rfl := Option.some.inj hhex
              rw [overflow_iff (hexValue_lt hv)] at hover
              omega
  · rintro ⟨ds, ext, rfl, hseen, hhex, hfits, hext⟩
    induction ds generalizing chunk digits with
    | nil =>
      obtain rfl : digits = true := hseen.resolve_right fun h => h rfl
      obtain rfl := Option.some.inj hhex
      cases ext with
      | nil => rfl
      | cons c ext =>
        have hc : c = 59 := by simpa using hext
        rw [List.nil_append, lineSize, if_pos hc]
        rfl
    | cons c ds ih =>
      obtain ⟨value, hv, hhex⟩ := Option.bind_eq_some_iff.mp hhex
      have hn : n < 2 ^ 64 := hfits.resolve_right (List.cons_ne_nil _ _)
      have hle := hexFrom_le hhex
      have hc : c ≠ 59 := by
        rintro rfl
        rw [hexValue_semicolon] at hv
        cases hv
      rw [List.cons_append, lineSize, if_neg hc, hv]
      simp only
      rw [if_neg (by rw [overflow_iff (hexValue_lt hv)]; omega)]
      exact ih (Or.inl rfl) hhex (Or.inl hn)

/-- A size line is what the search for its end and the loop over its digits find. -/
theorem sizeLine_iff {size : ℕ} {rest tail : Bytes} :
    (∃ line, SizeLine size line ∧ rest = line ++ tail) ↔
      ∃ l, splitCrlf rest = some (l, tail) ∧ lineSize 0 false l = .ok (some size) := by
  have hdigit : ∀ {ds : Bytes} {n m : ℕ}, hexFrom n ds = some m → CR ∉ ds := by
    intro ds
    induction ds with
    | nil => exact fun _ => List.not_mem_nil
    | cons c ds ih =>
      intro n m h
      obtain ⟨value, hv, h⟩ := Option.bind_eq_some_iff.mp h
      rw [List.mem_cons]
      rintro (rfl | hmem)
      · rw [hexValue_CR] at hv
        cases hv
      · exact ih h hmem
  constructor
  · rintro ⟨line, ⟨⟨digits, ext, rfl, hne, hhex, hext⟩, hfits⟩, rfl⟩
    refine ⟨digits ++ ext, splitCrlf_eq_some.mpr ⟨by simp, ?_⟩, lineSize_eq_some.mpr
      ⟨digits, ext, rfl, Or.inr hne, hhex, Or.inl hfits, hext.imp_right And.left⟩⟩
    -- a CRLF would start in the extension
    have hcr := hdigit hhex
    have hno : ¬ CRLF <:+: ext := by
      rcases hext with rfl | ⟨-, hno⟩
      · decide
      · exact hno
    clear hhex hne hext
    induction digits with
    | nil => exact hno
    | cons c digits ih =>
      rw [List.mem_cons, not_or] at hcr
      exact not_crlf_cons (fun b _ h => hcr.1 h.1.symm) (ih hcr.2)
  · rintro ⟨l, hsplit, hsize⟩
    obtain ⟨rfl, hno⟩ := splitCrlf_eq_some.mp hsplit
    obtain ⟨digits, ext, rfl, hseen, hhex, hfits, hext⟩ := lineSize_eq_some.mp hsize
    have hne : digits ≠ [] := hseen.resolve_left (by decide)
    refine ⟨digits ++ ext ++ CRLF, ⟨⟨digits, ext, rfl, hne, hhex, ?_⟩, hfits.resolve_right hne⟩, by simp⟩
    rcases hext with rfl | hhead
    · exact Or.inl rfl
    · exact Or.inr ⟨hhead, fun h => hno (h.trans (List.suffix_append _ _).isInfix)⟩

/-! ## One turn -/

theorem atEnd_append (pre tail : Bytes) (n : ℕ) :
    atEnd (pre ++ tail) pre.length n = .ok (decide (n = 0 ∧ tail = CRLF)) := by
  have hlimit : (pre ++ tail).length = pre.length + tail.length := List.length_append
  unfold atEnd
  split_ifs with h
  · obtain ⟨hn, hlen⟩ := h
    obtain ⟨a, b, rfl⟩ : ∃ a b, tail = [a, b] := List.length_eq_two.mp (by omega)
    rw [crlfAt_append]
    congr 1
    rw [Bool.eq_iff_iff, decide_eq_true_eq]
    simp [CRLF, hn]
  · congr 1
    rw [eq_comm, decide_eq_false_iff_not]
    rintro ⟨rfl, rfl⟩
    exact h ⟨rfl, hlimit.symm⟩

/-- A chunk is whole if its bytes and a CRLF follow, and they fit. -/
theorem isWhole_append (pre tail : Bytes) (n output : ℕ) :
    ∃ whole, isWhole (pre ++ tail) pre.length n output = .ok whole ∧ (whole = true ↔
      output + n < DOCKER_HTTP_BODY_CAP ∧ ∃ d rest, n = d.length ∧ d ≠ [] ∧ tail = d ++ CRLF ++ rest) := by
  have hlimit : (pre ++ tail).length = pre.length + tail.length := List.length_append
  unfold isWhole
  split_ifs with h
  · obtain ⟨hn, -, hroom, hlen⟩ := h
    obtain ⟨d, a, b, rest, rfl, rfl⟩ : ∃ d a b rest, tail = d ++ a :: b :: rest ∧ n = d.length := by
      match hdrop : tail.drop n with
      | [] =>
        have := congrArg List.length hdrop
        simp at this
        omega
      | [_] =>
        have := congrArg List.length hdrop
        simp at this
        omega
      | a :: b :: rest =>
        refine ⟨tail.take n, a, b, rest, ?_, ?_⟩
        · rw [← hdrop, List.take_append_drop]
        · rw [List.length_take]
          omega
    have hread : crlfAt (pre ++ (d ++ a :: b :: rest)) (pre.length + d.length) = .ok (a == CR && b == LF) := by
      rw [← List.append_assoc, ← List.length_append]
      exact crlfAt_append (pre ++ d) a b rest
    refine ⟨_, hread, ?_⟩
    rw [Bool.and_eq_true, beq_iff_eq, beq_iff_eq]
    constructor
    · rintro ⟨rfl, rfl⟩
      exact ⟨by omega, d, rest, rfl, fun h => hn (by rw [h]; rfl), by simp [CRLF]⟩
    · rintro ⟨-, d', rest', hlen', -, htail⟩
      rw [List.append_assoc] at htail
      have htail' := (List.append_inj htail hlen').2
      exact ⟨(List.cons.inj htail').1, (List.cons.inj (List.cons.inj htail').2).1⟩
  · refine ⟨false, rfl, ?_⟩
    simp only [Bool.false_eq_true, false_iff]
    rintro ⟨hroom, d, rest, rfl, hd, rfl⟩
    have hpos := List.length_pos_iff.mpr hd
    refine h ⟨by omega, ?_, by omega, ?_⟩
    · simp [CRLF]
    · simp [CRLF]
      omega

/-- The end of the body, a chunk and the bytes after it, or neither. -/
theorem takeChunk_spec (pre tail : Bytes) (n : ℕ) {body : Bytes} (hbody : body.length < DOCKER_HTTP_BODY_CAP) :
    (n = 0 ∧ tail = CRLF ∧ takeChunk (pre ++ tail) pre.length n body = .ok (.ended (body ++ [0]))) ∨
    (∃ d rest, n = d.length ∧ d ≠ [] ∧ body.length + n < DOCKER_HTTP_BODY_CAP ∧ tail = d ++ CRLF ++ rest ∧
      takeChunk (pre ++ tail) pre.length n body = .ok (.next (pre.length + n + 2) (body ++ d))) ∨
    (¬ (n = 0 ∧ tail = CRLF) ∧
      (∀ d rest, n = d.length → d ≠ [] → tail = d ++ CRLF ++ rest → DOCKER_HTTP_BODY_CAP ≤ body.length + n) ∧
      ∃ errno, takeChunk (pre ++ tail) pre.length n body = .ok (.refused errno)) := by
  obtain ⟨whole, hwhole, hiff⟩ := isWhole_append pre tail n body.length
  unfold takeChunk
  rw [atEnd_append, Result.ok_bind, hwhole]
  by_cases hend : n = 0 ∧ tail = CRLF
  · refine Or.inl ⟨hend.1, hend.2, ?_⟩
    rw [if_pos (decide_eq_true hend), terminate, if_neg (not_le.mpr hbody)]
    rfl
  · rw [if_neg (by rw [decide_eq_true_eq]; exact hend), Result.ok_bind]
    cases whole with
    | true =>
      obtain ⟨hroom, d, rest, rfl, hd, rfl⟩ := hiff.mp rfl
      refine Or.inr (Or.inl ⟨d, rest, rfl, hd, hroom, rfl, ?_⟩)
      have hcopy : copy (pre ++ (d ++ CRLF ++ rest)) pre.length d.length body = .ok (body ++ d) := by
        unfold copy
        rw [if_neg, List.drop_left, List.append_assoc, List.take_left]
        simp
        omega
      rw [if_pos rfl, hcopy]
      rfl
    | false =>
      refine Or.inr (Or.inr ⟨hend, fun d rest hlen hd htail => ?_, ?_⟩)
      · by_contra hroom
        exact Bool.false_ne_true (hiff.mpr ⟨by omega, d, rest, hlen, hd, htail⟩)
      · rw [if_neg Bool.false_ne_true]
        exact ⟨_, rfl⟩

/-- The turn reads the size line. -/
theorem turn_append (pre rest body : Bytes) : turn (pre ++ rest) pre.length body =
    match splitCrlf rest with
    | none => .ok (.refused .proto)
    | some (l, tail) =>
      match lineSize 0 false l with
      | .error errno => .ok (.refused errno)
      | .ok none => .ok (.refused .proto)
      | .ok (some n) => takeChunk (pre ++ l ++ CRLF ++ tail) (pre ++ l ++ CRLF).length n body := by
  unfold turn
  simp only
  rw [findCrlf_append pre rest (by simp), Result.ok_bind]
  cases hsplit : splitCrlf rest with
  | none => rfl
  | some r =>
    obtain ⟨l, tail⟩ := r
    obtain ⟨rfl, -⟩ := splitCrlf_eq_some.mp hsplit
    simp only [Option.map_some]
    have hsize := @chunkSize_append l (CRLF ++ tail) pre ((pre ++ (l ++ CRLF ++ tail)).length + 1)
      (by simp; omega) 0 false
    rw [show pre ++ (l ++ CRLF ++ tail) = pre ++ l ++ (CRLF ++ tail) by simp] at hsize ⊢
    rw [hsize, Result.ok_bind]
    cases lineSize 0 false l with
    | error errno => rfl
    | ok size =>
      cases size with
      | none => rfl
      | some n =>
        simp only
        rw [← List.append_assoc (pre ++ l) CRLF tail]
        congr 1
        simp only [CRLF, List.length_append, List.length_cons, List.length_nil]

/-! ## The loop -/

/-- A body starts with a size line, and goes on as the size says. -/
theorem isBody_iff {rest data : Bytes} : IsBody rest data ↔
    ∃ l tail n, splitCrlf rest = some (l, tail) ∧ lineSize 0 false l = .ok (some n) ∧
      (n = 0 ∧ tail = CRLF ∧ data = [] ∨
        ∃ d rest' data', n = d.length ∧ d ≠ [] ∧ tail = d ++ CRLF ++ rest' ∧ IsBody rest' data' ∧ data = d ++ data') := by
  constructor
  · intro h
    cases h with
    | last hline =>
      obtain ⟨l, hsplit, hsize⟩ := sizeLine_iff.mp ⟨_, hline, rfl⟩
      exact ⟨l, CRLF, 0, hsplit, hsize, Or.inl ⟨rfl, rfl, rfl⟩⟩
    | chunk hchunk hrest =>
      obtain ⟨hne, hline⟩ := hchunk
      rename_i d rest' data' line
      obtain ⟨l, hsplit, hsize⟩ := sizeLine_iff.mp ⟨line, hline, (rfl : _ = line ++ (d ++ CRLF ++ rest'))⟩
      rw [show line ++ d ++ CRLF ++ rest' = line ++ (d ++ CRLF ++ rest') by simp]
      exact ⟨l, d ++ CRLF ++ rest', d.length, hsplit, hsize, Or.inr ⟨d, rest', data', rfl, hne, rfl, hrest, rfl⟩⟩
  · rintro ⟨l, tail, n, hsplit, hsize, hrest⟩
    obtain ⟨line, hline, rfl⟩ := sizeLine_iff.mpr ⟨l, hsplit, hsize⟩
    rcases hrest with ⟨rfl, rfl, rfl⟩ | ⟨d, rest', data', rfl, hne, rfl, hbody, rfl⟩
    · exact IsBody.last hline
    · rw [show line ++ (d ++ CRLF ++ rest') = line ++ d ++ CRLF ++ rest' by simp]
      exact IsBody.chunk (IsChunk.mk hne hline) hbody

theorem decodeFrom_of_turn {input body : Bytes} {cursor : ℕ} {t : Turn} (fuel : ℕ) (hmore : cursor < input.length) :
    turn input cursor body = .ok t → decodeFrom input (fuel + 1) cursor body =
      match t with
      | .ended body => .ok (.ok body)
      | .refused errno => .ok (.error errno)
      | .next cursor body => decodeFrom input fuel cursor body := by
  intro h
  rw [decodeFrom, if_pos hmore, h, Result.ok_bind]

/-- The loop from a cursor decodes exactly a body that starts there, and no access is outside. -/
theorem decodeFrom_spec : ∀ (fuel : ℕ) (pre rest body : Bytes), rest.length < fuel →
    body.length < DOCKER_HTTP_BODY_CAP → ∃ r, decodeFrom (pre ++ rest) fuel pre.length body = .ok r ∧
      ∀ b, r = .ok b ↔ ∃ data, IsBody rest data ∧ body.length + data.length < DOCKER_HTTP_BODY_CAP ∧
        b = body ++ data ++ [0]
  | 0, _, _, _, hfuel, _ => absurd hfuel (Nat.not_lt_zero _)
  | fuel + 1, pre, rest, body, hfuel, hbody => by
    -- no body starts here
    have hrefused : ∀ errno, (∀ data, IsBody rest data → DOCKER_HTTP_BODY_CAP ≤ body.length + data.length) →
        ∀ b, (Except.error errno : Except Errno Bytes) = .ok b ↔ ∃ data, IsBody rest data ∧
          body.length + data.length < DOCKER_HTTP_BODY_CAP ∧ b = body ++ data ++ [0] := by
      intro errno hno b
      constructor
      · intro h
        cases h
      · rintro ⟨data, hdata, hroom, -⟩
        exact absurd (hno data hdata) (not_le.mpr hroom)
    by_cases hmore : pre.length < (pre ++ rest).length
    · have hturn := turn_append pre rest body
      cases hsplit : splitCrlf rest with
      | none =>
        rw [hsplit] at hturn
        rw [decodeFrom_of_turn fuel hmore hturn]
        refine ⟨_, rfl, hrefused _ fun data hdata => ?_⟩
        obtain ⟨l, tail, n, hsome, -⟩ := isBody_iff.mp hdata
        rw [hsplit] at hsome
        cases hsome
      | some found =>
        obtain ⟨l, tail⟩ := found
        obtain ⟨rfl, -⟩ := splitCrlf_eq_some.mp hsplit
        -- what a body that starts here has in common with what was found
        have hfound : ∀ {data}, IsBody (l ++ CRLF ++ tail) data → ∃ n, lineSize 0 false l = .ok (some n) ∧
            (n = 0 ∧ tail = CRLF ∧ data = [] ∨ ∃ d rest' data', n = d.length ∧ d ≠ [] ∧ tail = d ++ CRLF ++ rest' ∧
              IsBody rest' data' ∧ data = d ++ data') := by
          intro data hdata
          obtain ⟨l', tail', n, hsome, hsize, hrest⟩ := isBody_iff.mp hdata
          obtain ⟨rfl, rfl⟩ := Prod.mk.inj (Option.some.inj (hsplit.symm.trans hsome))
          exact ⟨n, hsize, hrest⟩
        cases hsize : lineSize 0 false l with
        | error errno =>
          rw [hsplit] at hturn
          simp only [hsize] at hturn
          rw [decodeFrom_of_turn fuel hmore hturn]
          refine ⟨_, rfl, hrefused _ fun data hdata => ?_⟩
          obtain ⟨n, hn, -⟩ := hfound hdata
          rw [hsize] at hn
          cases hn
        | ok size =>
          cases size with
          | none =>
            rw [hsplit] at hturn
            simp only [hsize] at hturn
            rw [decodeFrom_of_turn fuel hmore hturn]
            refine ⟨_, rfl, hrefused _ fun data hdata => ?_⟩
            obtain ⟨n, hn, -⟩ := hfound hdata
            rw [hsize] at hn
            cases hn
          | some n =>
            rw [hsplit] at hturn
            simp only [hsize] at hturn
            replace hfound : ∀ {data}, IsBody (l ++ CRLF ++ tail) data →
                n = 0 ∧ tail = CRLF ∧ data = [] ∨ ∃ d rest' data', n = d.length ∧ d ≠ [] ∧
                  tail = d ++ CRLF ++ rest' ∧ IsBody rest' data' ∧ data = d ++ data' := by
              intro data hdata
              obtain ⟨n', hn', hrest⟩ := hfound hdata
              obtain rfl : n = n' := Option.some.inj (Except.ok.inj (hsize.symm.trans hn'))
              exact hrest
            rcases takeChunk_spec (pre ++ l ++ CRLF) tail n hbody with
              ⟨rfl, rfl, htake⟩ | ⟨d, rest', rfl, hne, hroom, rfl, htake⟩ | ⟨hend, hchunk, errno, htake⟩
            · rw [decodeFrom_of_turn fuel hmore (hturn.trans htake)]
              refine ⟨_, rfl, fun b => ?_⟩
              constructor
              · rintro ⟨⟩
                exact ⟨[], isBody_iff.mpr ⟨l, CRLF, 0, hsplit, hsize, Or.inl ⟨rfl, rfl, rfl⟩⟩, hbody, by simp⟩
              · rintro ⟨data, hdata, -, rfl⟩
                rcases hfound hdata with ⟨-, -, rfl⟩ | ⟨d, -, -, h0, hne, -⟩
                · simp
                · exact absurd (List.length_eq_zero_iff.mp h0.symm) hne
            · rw [decodeFrom_of_turn fuel hmore (hturn.trans htake)]
              have hlen : (body ++ d).length = body.length + d.length := List.length_append
              obtain ⟨r, hr, hspec⟩ := decodeFrom_spec fuel (pre ++ l ++ CRLF ++ d ++ CRLF) rest' (body ++ d)
                (by simp [CRLF] at hfuel; omega) (by omega)
              refine ⟨r, ?_, fun b => (hspec b).trans ?_⟩
              · have hcursor : (pre ++ l ++ CRLF).length + d.length + 2 =
                    (pre ++ l ++ CRLF ++ d ++ CRLF).length := by
                  simp only [CRLF, List.length_append, List.length_cons, List.length_nil]
                rw [show pre ++ (l ++ CRLF ++ (d ++ CRLF ++ rest')) = pre ++ l ++ CRLF ++ d ++ CRLF ++ rest' by simp]
                rw [hcursor]
                exact hr
              · constructor
                · rintro ⟨data, hdata, hfit, rfl⟩
                  refine ⟨d ++ data, isBody_iff.mpr ⟨l, _, _, hsplit, hsize,
                    Or.inr ⟨d, rest', data, rfl, hne, rfl, hdata, rfl⟩⟩, ?_, by simp⟩
                  rw [List.length_append]
                  omega
                · rintro ⟨data, hdata, hfit, rfl⟩
                  rcases hfound hdata with ⟨h0, -⟩ | ⟨d', rest'', data', hd', -, htail, hdata', rfl⟩
                  · exact absurd (List.length_eq_zero_iff.mp h0) hne
                  · rw [List.append_assoc, List.append_assoc] at htail
                    obtain ⟨rfl, hcrlf⟩ := List.append_inj htail hd'
                    obtain rfl := List.append_cancel_left hcrlf
                    rw [List.length_append] at hfit
                    exact ⟨data', hdata', by omega, by simp⟩
            · rw [decodeFrom_of_turn fuel hmore (hturn.trans htake)]
              refine ⟨_, rfl, hrefused _ fun data hdata => ?_⟩
              rcases hfound hdata with ⟨h0, htail, -⟩ | ⟨d, rest', data', hlen, hne, htail, -, rfl⟩
              · exact absurd ⟨h0, htail⟩ hend
              · have := hchunk d rest' hlen hne htail
                rw [List.length_append]
                omega
    · rw [decodeFrom, if_neg hmore]
      obtain rfl : rest = [] := by
        rw [List.length_append] at hmore
        exact List.length_eq_zero_iff.mp (by omega)
      refine ⟨_, rfl, hrefused _ fun data hdata => ?_⟩
      obtain ⟨l, tail, n, hsome, -⟩ := isBody_iff.mp hdata
      cases hsome

/-- **Chunked decoding is exact**: no access is outside of the input or of the buffer, and every loop ends; what is
decoded are the chunked bodies that fit, each to the data of its chunks and a NUL. -/
theorem chunkedBodyDecode_exact (input : Bytes) : ∃ r, chunkedBodyDecode input = .ok r ∧
    ∀ b, r = .ok b ↔ ∃ data, IsBody input data ∧ data.length < DOCKER_HTTP_BODY_CAP ∧ b = data ++ [0] := by
  obtain ⟨r, hr, hspec⟩ := decodeFrom_spec (input.length + 1) [] input [] (Nat.lt_succ_self _) (by decide)
  refine ⟨r, hr, fun b => (hspec b).trans ?_⟩
  simp only [List.length_nil, Nat.zero_add, List.nil_append]

example : chunkedBodyDecode [49, 59, 13, 10, 97, 13, 10, 48, 13, 10, 13, 10] = .ok (.ok [97, 0]) := by decide +kernel

end Hamn.Host.ChunkedBody
