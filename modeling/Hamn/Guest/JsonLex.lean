import Hamn.Guest.JsonUtf8
import Hamn.Lib.Result

/-!
# JsonLex — the reader on single tokens

Whitespace, strings and numbers: what the reader takes from an encoded text is the text of a token of the grammar
(`…_sound`), and it takes every token whole (`…_complete`).
-/

open Bytes Result

namespace Hamn.StrictJson

/-! ## ASCII -/

theorem text_ascii {c : Char} (h : c.toNat < 0x80) (cs : List Char) : Utf8.text (c :: cs) = byte c :: Utf8.text cs := by
  rw [Utf8.text_cons, Utf8.encodeChar_eq, Utf8.encode_ascii h]
  rfl

theorem byte_toNat {c : Char} (h : c.toNat < 0x80) : (byte c).toNat = c.toNat := by
  unfold byte
  rw [UInt8.toNat_ofNat']
  omega

theorem byte_inj {c d : Char} (hc : c.toNat < 0x80) (hd : d.toNat < 0x80) (h : byte c = byte d) : c = d := by
  rw [← Char.toNat_inj, ← byte_toNat hc, ← byte_toNat hd, h]

theorem byte_ofNat {k : ℕ} (h : k < 0x80) : byte (Char.ofNat k) = UInt8.ofNat k := by
  have hall : ∀ k < 0x80, byte (Char.ofNat k) = UInt8.ofNat k := by decide +kernel
  exact hall k h

/-- A text that starts with the byte of an ASCII character starts with the character. -/
theorem text_eq_byte_cons {cs : List Char} {c : Char} (hc : c.toNat < 0x80) {r : Bytes}
    (h : Utf8.text cs = byte c :: r) : ∃ cs', cs = c :: cs' ∧ r = Utf8.text cs' := by
  obtain ⟨cs', h1, h2⟩ := Utf8.text_eq_cons h (by rw [byte_toNat hc]; exact hc)
  rw [byte_toNat hc, Char.ofNat_toNat] at h1
  exact ⟨cs', h1, h2⟩

/-- The first byte of a character outside ASCII is not ASCII either. -/
theorem text_cons_high {c : Char} (h : ¬ c.toNat < 0x80) (cs : List Char) :
    ∃ b r, Utf8.text (c :: cs) = b :: r ∧ 0x80 ≤ b.toNat := by
  obtain ⟨b, bs, hb⟩ := List.exists_cons_of_ne_nil (Utf8.encode_ne_nil c.toNat)
  refine ⟨b, bs ++ Utf8.text cs, ?_, ?_⟩
  · rw [Utf8.text_cons, Utf8.encodeChar_eq, hb]
    rfl
  · exact Utf8.le_of_mem_encode (by omega) (Utf8.toNat_lt c) (hb ▸ by simp)

theorem head?_text {cs : List Char} {c : Char} (hc : c.toNat < 0x80) (h : (Utf8.text cs).head? = some (byte c)) :
    ∃ cs', cs = c :: cs' := by
  cases ht : Utf8.text cs with
  | nil => rw [ht] at h; cases h
  | cons b r =>
    rw [ht] at h
    cases h
    obtain ⟨cs', h1, -⟩ := text_eq_byte_cons hc ht
    exact ⟨cs', h1⟩

/-! ## Whitespace -/

theorem isWs_ascii {c : Char} (h : isWs c = true) : c.toNat < 0x80 ∧ isSpace (byte c) = true := by
  simp only [isWs, Bool.or_eq_true, beq_iff_eq] at h
  rcases h with ((rfl | rfl) | rfl) | rfl <;> decide

theorem isSpace_byte {b : UInt8} (h : isSpace b = true) : ∃ c, isWs c = true ∧ b = byte c := by
  simp only [isSpace, Bool.or_eq_true, beq_iff_eq] at h
  rcases h with ((rfl | rfl) | rfl) | rfl
  · exact ⟨' ', by decide, rfl⟩
  · exact ⟨'\t', by decide, rfl⟩
  · exact ⟨'\n', by decide, rfl⟩
  · exact ⟨'\r', by decide, rfl⟩

theorem skipWhitespace_append : ∀ {w : List Char} (_ : w.all isWs = true) (r : Bytes),
    skipWhitespace (Utf8.text w ++ r) = skipWhitespace r
  | [], _, _ => rfl
  | c :: w, hw, r => by
    rw [List.all_cons, Bool.and_eq_true] at hw
    obtain ⟨hc, hs⟩ := isWs_ascii hw.1
    rw [text_ascii hc, skipWhitespace, List.cons_append, List.dropWhile_cons, if_pos hs]
    exact skipWhitespace_append hw.2 r

theorem skipWhitespace_cons {b : UInt8} {r : Bytes} (h : isSpace b = false) : skipWhitespace (b :: r) = b :: r := by
  rw [skipWhitespace, List.dropWhile_cons, if_neg (by simp [h])]

/-- What `skip_whitespace` skips is whitespace of the grammar. -/
theorem skipWhitespace_text : ∀ (cs : List Char), ∃ (w : Ws) (cs' : List Char), cs = w.val ++ cs' ∧
    skipWhitespace (Utf8.text cs) = Utf8.text cs'
  | [] => ⟨⟨[], rfl⟩, [], rfl, rfl⟩
  | c :: cs => by
    by_cases hc : isWs c = true
    · obtain ⟨w, cs', h1, h2⟩ := skipWhitespace_text cs
      obtain ⟨hlt, hs⟩ := isWs_ascii hc
      refine ⟨⟨c :: w.val, by rw [List.all_cons, hc, w.property]; rfl⟩, cs', by rw [h1]; rfl, ?_⟩
      rw [text_ascii hlt, skipWhitespace, List.dropWhile_cons, if_pos hs]
      exact h2
    · refine ⟨⟨[], rfl⟩, c :: cs, rfl, ?_⟩
      cases ht : Utf8.text (c :: cs) with
      | nil => rfl
      | cons b r =>
        refine skipWhitespace_cons (Bool.eq_false_iff.mpr fun hb => hc ?_)
        obtain ⟨d, hd, rfl⟩ := isSpace_byte hb
        obtain ⟨cs', h1, -⟩ := text_eq_byte_cons (isWs_ascii hd).1 ht
        rw [(List.cons.inj h1).1]
        exact hd

/-! ## Hex digits and escapes -/

theorem HexDigit.char_lt (d : HexDigit) : d.char.toNat < 0x80 := by
  obtain ⟨v, u⟩ := d
  revert v u
  decide

theorem hexDigit_char (d : HexDigit) : hexDigit (byte d.char) = some d.value.val := by
  obtain ⟨v, u⟩ := d
  revert v u
  decide

theorem hexDigit_eq_some {b : UInt8} {v : ℕ} (h : hexDigit b = some v) :
    ∃ d : HexDigit, b = byte d.char ∧ v = d.value.val := by
  have hdig : ∀ (d : HexDigit) (k : ℕ), d.char = Char.ofNat k → k < 0x80 → b.toNat = k → b = byte d.char := by
    intro d k hd hk hb
    rw [hd, byte_ofNat hk, ← hb, UInt8.ofNat_toNat]
  unfold hexDigit at h
  simp only [UInt8.le_iff_toNat_le] at h
  split_ifs at h with h1 h2 h3
  · have hlo : 0x30 ≤ b.toNat := h1.1
    have hhi : b.toNat ≤ 0x39 := h1.2
    cases h
    refine ⟨⟨⟨b.toNat - 0x30, by omega⟩, false⟩, hdig _ (0x30 + (b.toNat - 0x30)) ?_ (by omega) (by omega), rfl⟩
    rw [HexDigit.char, if_pos (by simp only; omega)]
  · have hlo : 0x61 ≤ b.toNat := h2.1
    have hhi : b.toNat ≤ 0x66 := h2.2
    cases h
    refine ⟨⟨⟨b.toNat - 0x61 + 10, by omega⟩, false⟩, hdig _ (0x57 + (b.toNat - 0x61 + 10)) ?_ (by omega) (by omega), rfl⟩
    rw [HexDigit.char, if_neg (by simp only; omega)]
    rfl
  · have hlo : 0x41 ≤ b.toNat := h3.1
    have hhi : b.toNat ≤ 0x46 := h3.2
    cases h
    refine ⟨⟨⟨b.toNat - 0x41 + 10, by omega⟩, true⟩, hdig _ (0x37 + (b.toNat - 0x41 + 10)) ?_ (by omega) (by omega), rfl⟩
    rw [HexDigit.char, if_neg (by simp only; omega)]
    rfl

theorem hex4At_text (a b c d : HexDigit) (r : Bytes) :
    hex4At (byte a.char :: byte b.char :: byte c.char :: byte d.char :: r) = some (unit a b c d) := by
  simp only [hex4At, hexDigit_char]
  rfl

theorem hex4At_sound {cs : List Char} {u : ℕ} (h : hex4At (Utf8.text cs) = some u) :
    ∃ a b c d cs', cs = a.char :: b.char :: c.char :: d.char :: cs' ∧ u = unit a b c d := by
  match ht : Utf8.text cs with
  | [] => rw [ht] at h; cases h
  | [_] => rw [ht] at h; cases h
  | [_, _] => rw [ht] at h; cases h
  | [_, _, _] => rw [ht] at h; cases h
  | x :: y :: z :: t :: r =>
    rw [ht] at h
    simp only [hex4At, Option.bind_eq_bind, Option.bind_eq_some_iff, Option.pure_def, Option.some.injEq] at h
    obtain ⟨va, ha, vb, hb, vc, hc, vd, hd, rfl⟩ := h
    obtain ⟨a, rfl, rfl⟩ := hexDigit_eq_some ha
    obtain ⟨b, rfl, rfl⟩ := hexDigit_eq_some hb
    obtain ⟨c, rfl, rfl⟩ := hexDigit_eq_some hc
    obtain ⟨d, rfl, rfl⟩ := hexDigit_eq_some hd
    obtain ⟨cs1, rfl, h1⟩ := text_eq_byte_cons a.char_lt ht
    obtain ⟨cs2, rfl, h2⟩ := text_eq_byte_cons b.char_lt h1.symm
    obtain ⟨cs3, rfl, h3⟩ := text_eq_byte_cons c.char_lt h2.symm
    obtain ⟨cs4, rfl, -⟩ := text_eq_byte_cons d.char_lt h3.symm
    exact ⟨a, b, c, d, cs4, rfl, rfl⟩

theorem unit_lt (a b c d : HexDigit) : unit a b c d < 0x10000 := by
  have := a.value.isLt
  have := b.value.isLt
  have := c.value.isLt
  have := d.value.isLt
  unfold unit
  omega

theorem Short.char_lt (e : Short) : e.char.toNat < 0x80 := by cases e <;> decide

theorem simpleEscape_char (e : Short) : simpleEscape (byte e.char) = some (UInt8.ofNat e.codePoint) := by
  cases e <;> decide

theorem simpleEscape_eq_some {b v : UInt8} (h : simpleEscape b = some v) :
    ∃ e : Short, b = byte e.char ∧ v = UInt8.ofNat e.codePoint := by
  unfold simpleEscape at h
  split_ifs at h with h1 h2 h3 h4 h5 h6 h7 h8 <;> cases h
  · exact ⟨.quote, h1, rfl⟩
  · exact ⟨.backslash, h2, rfl⟩
  · exact ⟨.slash, h3, rfl⟩
  · exact ⟨.b, h4, rfl⟩
  · exact ⟨.f, h5, rfl⟩
  · exact ⟨.n, h6, rfl⟩
  · exact ⟨.r, h7, rfl⟩
  · exact ⟨.t, h8, rfl⟩

theorem encode_short (e : Short) : Utf8.encode e.codePoint = [UInt8.ofNat e.codePoint] := by
  cases e <;> rfl

theorem pair_lt {high low : ℕ} (h : IsHigh high) (h' : IsLow low) : pair high low < 0x110000 := by
  unfold IsHigh at h
  unfold IsLow at h'
  unfold pair
  omega

/-! ## One escape -/

section Escape

variable {length : ℕ}

theorem stringEscape_short (e : Short) (r : Bytes) :
    stringEscape length (byte '\\' :: byte e.char :: r) = .ok (Utf8.encode e.codePoint, r) := by
  rw [encode_short]
  simp only [stringEscape, List.drop_succ_cons, List.drop_zero, simpleEscape_char]

/-- The bytes of a `\u` escape. -/
def unicodeBytes (a b c d : HexDigit) : Bytes :=
  [byte '\\', byte 'u', byte a.char, byte b.char, byte c.char, byte d.char]

theorem text_unicode (a b c d : HexDigit) (cs : List Char) :
    Utf8.text ('\\' :: 'u' :: a.char :: b.char :: c.char :: d.char :: cs) = unicodeBytes a b c d ++ Utf8.text cs := by
  rw [text_ascii (by decide), text_ascii (by decide), text_ascii a.char_lt, text_ascii b.char_lt,
    text_ascii c.char_lt, text_ascii d.char_lt]
  rfl

/-- A `\u` escape up to the look at what follows it. -/
theorem stringEscape_unicode (a b c d : HexDigit) (r : Bytes) :
    stringEscape length (unicodeBytes a b c d ++ r) =
      if IsHigh (unit a b c d) ∧ r.take 2 = ascii "\\u" then
        match hex4At (r.drop 2) with
        | none => syntaxError length r "invalid \\u escape"
        | some low =>
          if IsLow low then .ok (Utf8.encode (pair (unit a b c d) low), r.drop 6)
          else .ok (Utf8.encode (unit a b c d), r)
      else .ok (Utf8.encode (unit a b c d), r) := by
  have hsimple : simpleEscape (byte 'u') = none := by decide
  have hu := unit_lt a b c d
  simp only [stringEscape, unicodeBytes, List.cons_append, List.nil_append, List.drop_succ_cons, List.drop_zero,
    hsimple, ne_eq, not_true_eq_false, if_false, hex4At_text, utf8Append_eq (show unit a b c d < 0x110000 by omega)]
  by_cases hc : IsHigh (unit a b c d) ∧ r.take 2 = ascii "\\u"
  · rw [if_pos hc, if_pos ⟨hc.1.1, hc.1.2, hc.2⟩]
    cases hex4At (r.drop 2) with
    | none => rfl
    | some low =>
      have hp : 0x10000 + (unit a b c d - 0xD800) <<< 10 + (low - 0xDC00) = pair (unit a b c d) low := by
        unfold pair
        simp only [Nat.shiftLeft_eq, Nat.reducePow]
      by_cases hl : IsLow low
      · have hl' : low ≥ 0xDC00 ∧ low ≤ 0xDFFF := hl
        simp only [if_pos hl, if_pos hl', hp]
        rw [utf8Append_eq (pair_lt hc.1 hl)]
      · have hl' : ¬ (low ≥ 0xDC00 ∧ low ≤ 0xDFFF) := hl
        simp only [if_neg hl, if_neg hl']
  · rw [if_neg hc, if_neg fun h => hc ⟨⟨h.1, h.2.1⟩, h.2.2⟩]

/-- What `stringEscape` takes from a text: a short escape, a `\u` escape by itself, or a surrogate pair. -/
inductive Escaped : List Char → Bytes → List Char → Prop where
  | short (e : Short) (cs : List Char) : Escaped ('\\' :: e.char :: cs) (Utf8.encode e.codePoint) cs
  | lone (a b c d : HexDigit) (cs : List Char)
    (h : IsHigh (unit a b c d) → ∀ a' b' c' d' cs',
      cs = '\\' :: 'u' :: a'.char :: b'.char :: c'.char :: d'.char :: cs' → ¬ IsLow (unit a' b' c' d')) :
    Escaped ('\\' :: 'u' :: a.char :: b.char :: c.char :: d.char :: cs) (Utf8.encode (unit a b c d)) cs
  | pair (a b c d a' b' c' d' : HexDigit) (cs : List Char) (h : IsHigh (unit a b c d)) (h' : IsLow (unit a' b' c' d')) :
    Escaped ('\\' :: 'u' :: a.char :: b.char :: c.char :: d.char ::
      '\\' :: 'u' :: a'.char :: b'.char :: c'.char :: d'.char :: cs)
      (Utf8.encode (StrictJson.pair (unit a b c d) (unit a' b' c' d'))) cs

theorem take_two_text {cs : List Char} (h : (Utf8.text cs).take 2 = ascii "\\u") :
    ∃ cs', cs = '\\' :: 'u' :: cs' ∧ (Utf8.text cs).drop 2 = Utf8.text cs' := by
  match ht : Utf8.text cs with
  | [] => rw [ht] at h; cases h
  | [_] => rw [ht] at h; cases h
  | x :: y :: r =>
    rw [ht] at h
    obtain ⟨rfl, rfl⟩ : x = byte '\\' ∧ y = byte 'u' := by
      have h' : [x, y] = [byte '\\', byte 'u'] := h
      simpa using h'
    obtain ⟨cs1, rfl, h1⟩ := text_eq_byte_cons (by decide) ht
    obtain ⟨cs2, rfl, h2⟩ := text_eq_byte_cons (by decide) h1.symm
    exact ⟨cs2, rfl, h2⟩

theorem stringEscape_sound {cs : List Char} {bytes r : Bytes}
    (h : stringEscape length (Utf8.text ('\\' :: cs)) = .ok (bytes, r)) :
    ∃ cs', Escaped ('\\' :: cs) bytes cs' ∧ r = Utf8.text cs' := by
  have h0 := text_ascii (c := '\\') (by decide) cs
  cases ht : Utf8.text cs with
  | nil =>
    rw [h0, ht] at h
    cases h
  | cons x after =>
    cases hs : simpleEscape x with
    | some v =>
      obtain ⟨e, rfl, rfl⟩ := simpleEscape_eq_some hs
      obtain ⟨cs', rfl, rfl⟩ := text_eq_byte_cons e.char_lt ht
      rw [h0, ht, stringEscape_short] at h
      cases h
      exact ⟨cs', .short e cs', rfl⟩
    | none =>
      by_cases hu : x = byte 'u'
      · subst hu
        obtain ⟨cs1, rfl, rfl⟩ := text_eq_byte_cons (by decide) ht
        cases hx : hex4At (Utf8.text cs1) with
        | none =>
          rw [h0, ht] at h
          simp only [stringEscape, List.drop_succ_cons, List.drop_zero, hs, ne_eq, not_true_eq_false, if_false, hx] at h
          cases h
        | some u =>
          obtain ⟨a, b, c, d, cs2, rfl, rfl⟩ := hex4At_sound hx
          rw [text_unicode, stringEscape_unicode] at h
          by_cases hc : IsHigh (unit a b c d) ∧ (Utf8.text cs2).take 2 = ascii "\\u"
          · rw [if_pos hc] at h
            obtain ⟨cs3, rfl, hd⟩ := take_two_text hc.2
            cases hl : hex4At ((Utf8.text ('\\' :: 'u' :: cs3)).drop 2) with
            | none => rw [hl] at h; cases h
            | some low =>
              rw [hl] at h
              rw [hd] at hl
              obtain ⟨a', b', c', d', cs4, rfl, rfl⟩ := hex4At_sound hl
              by_cases hlow : IsLow (unit a' b' c' d')
              · simp only [if_pos hlow, Except.ok.injEq, Prod.mk.injEq] at h
                obtain ⟨rfl, rfl⟩ := h
                exact ⟨cs4, .pair a b c d a' b' c' d' cs4 hc.1 hlow, by rw [text_unicode]; rfl⟩
              · simp only [if_neg hlow] at h
                cases h
                refine ⟨_, .lone a b c d _ fun _ a2 b2 c2 d2 cs5 he => ?_, rfl⟩
                have h4 : hex4At (Utf8.text (a'.char :: b'.char :: c'.char :: d'.char :: cs4)) = some (unit a2 b2 c2 d2) := by
                  rw [(List.cons.inj (List.cons.inj he).2).2, text_ascii a2.char_lt, text_ascii b2.char_lt,
                    text_ascii c2.char_lt, text_ascii d2.char_lt, hex4At_text]
                rw [h4] at hl
                rwa [Option.some.inj hl]
          · rw [if_neg hc] at h
            cases h
            refine ⟨cs2, .lone a b c d cs2 fun hh a2 b2 c2 d2 cs5 he => ?_, rfl⟩
            refine absurd ⟨hh, ?_⟩ hc
            rw [he, text_unicode]
            rfl
      · rw [h0, ht] at h
        simp only [stringEscape, List.drop_succ_cons, List.drop_zero, hs, ne_eq, hu, not_false_eq_true, if_true] at h
        cases h

/-- A `\u` escape is taken by itself unless a low surrogate follows. -/
theorem stringEscape_lone {a b c d : HexDigit} {r : Bytes}
    (h : IsHigh (unit a b c d) → r.take 2 = ascii "\\u" → ∃ low, hex4At (r.drop 2) = some low ∧ ¬ IsLow low) :
    stringEscape length (unicodeBytes a b c d ++ r) = .ok (Utf8.encode (unit a b c d), r) := by
  rw [stringEscape_unicode]
  split_ifs with hc
  · obtain ⟨low, hl, hlow⟩ := h hc.1 hc.2
    simp only [hl, if_neg hlow]
  · rfl

theorem stringEscape_pair {a b c d a' b' c' d' : HexDigit} {r : Bytes} (h : IsHigh (unit a b c d))
    (h' : IsLow (unit a' b' c' d')) :
    stringEscape length (unicodeBytes a b c d ++ (unicodeBytes a' b' c' d' ++ r)) =
      .ok (Utf8.encode (pair (unit a b c d) (unit a' b' c' d')), r) := by
  have hx : hex4At ((unicodeBytes a' b' c' d' ++ r).drop 2) = some (unit a' b' c' d') := hex4At_text a' b' c' d' r
  rw [stringEscape_unicode, if_pos ⟨h, rfl⟩, hx]
  simp only [if_pos h']
  rfl

end Escape

/-! ## The meaning of a string, token by token -/

theorem codePoints_pair {a b c d a' b' c' d' : HexDigit} {s : List StrChar} (h : IsHigh (unit a b c d))
    (h' : IsLow (unit a' b' c' d')) : StrChar.codePoints (.unicode a b c d :: .unicode a' b' c' d' :: s) =
      pair (unit a b c d) (unit a' b' c' d') :: StrChar.codePoints s := by
  rw [StrChar.codePoints, if_pos ⟨h, h'⟩]

theorem codePoints_lone {a b c d : HexDigit} {s : List StrChar} (h : IsHigh (unit a b c d) → ∀ a' b' c' d' s',
    s = .unicode a' b' c' d' :: s' → ¬ IsLow (unit a' b' c' d')) :
    StrChar.codePoints (.unicode a b c d :: s) = unit a b c d :: StrChar.codePoints s := by
  cases s with
  | nil => rfl
  | cons x s =>
    cases x with
    | raw c h => rfl
    | short e => rfl
    | unicode a' b' c' d' =>
      rw [StrChar.codePoints, if_neg]
      rintro ⟨h1, h2⟩
      exact h h1 a' b' c' d' s rfl h2

/-- An escape that was taken from a text is a token in front of the tokens of the rest. -/
theorem Escaped.tokens {cs cs' after : List Char} {bytes : Bytes} {s : List StrChar} (h : Escaped cs bytes cs')
    (hs : cs' = strChars s ++ '"' :: after) : ∃ s', cs = strChars s' ++ '"' :: after ∧
      Utf8.encodeAll (StrChar.codePoints s') = bytes ++ Utf8.encodeAll (StrChar.codePoints s) := by
  cases h with
  | short e =>
    refine ⟨.short e :: s, by rw [hs]; rfl, rfl⟩
  | lone a b c d _ h =>
    refine ⟨.unicode a b c d :: s, by rw [hs]; rfl, ?_⟩
    rw [codePoints_lone, Utf8.encodeAll_cons]
    rintro hh a' b' c' d' s' rfl
    exact h hh a' b' c' d' (strChars s' ++ '"' :: after) (by rw [hs]; rfl)
  | pair a b c d a' b' c' d' _ h h' =>
    refine ⟨.unicode a b c d :: .unicode a' b' c' d' :: s, by rw [hs]; rfl, ?_⟩
    rw [codePoints_pair h h', Utf8.encodeAll_cons]

/-! ## Strings -/

section Strings

variable {length : ℕ}

/-- A byte that the string loop copies. -/
def Plain (b : UInt8) : Prop := b ≠ byte '"' ∧ ¬ b < 0x20 ∧ b ≠ byte '\\'

theorem plain_encode {c : Char} (h : Unescaped c) : ∀ b ∈ Utf8.encode c.toNat, Plain b := by
  intro b hb
  obtain ⟨h1, h2, h3⟩ := h
  by_cases hc : c.toNat < 0x80
  · rw [Utf8.encode_ascii hc, List.mem_singleton] at hb
    have hbyte : b = byte c := hb
    subst hbyte
    refine ⟨fun he => h2 (byte_inj hc (by decide) he), ?_, fun he => h3 (byte_inj hc (by decide) he)⟩
    rw [UInt8.lt_iff_toNat_lt, byte_toNat hc]
    exact Nat.not_lt.mpr h1
  · have hle := Utf8.le_of_mem_encode (by omega) (Utf8.toNat_lt c) hb
    refine ⟨?_, ?_, ?_⟩
    · rintro rfl
      exact absurd hle (by decide)
    · rw [UInt8.lt_iff_toNat_lt]
      exact Nat.not_lt.mpr (Nat.le_trans (by decide) hle)
    · rintro rfl
      exact absurd hle (by decide)

theorem stringLoop_plain : ∀ (bs : Bytes) (fuel : ℕ) (r out : Bytes), (∀ b ∈ bs, Plain b) →
    stringLoop length (bs.length + fuel) (bs ++ r) out = stringLoop length fuel r (out ++ bs)
  | [], fuel, r, out, _ => by simp
  | b :: bs, fuel, r, out, h => by
    obtain ⟨h1, h2, h3⟩ := h b (by simp)
    rw [List.length_cons, Nat.add_right_comm, List.cons_append, stringLoop, if_neg h1, if_neg h2, if_pos h3,
      stringLoop_plain bs fuel r (out ++ [b]) fun x hx => h x (by simp [hx]), List.append_assoc]
    rfl

theorem stringLoop_escape {fuel : ℕ} {r r' out bytes : Bytes}
    (h : stringEscape length (byte '\\' :: r) = .ok (bytes, r')) :
    stringLoop length (fuel + 1) (byte '\\' :: r) out = stringLoop length fuel r' (out ++ bytes) := by
  have h1 : ¬ byte '\\' = byte '"' := by decide
  have h2 : ¬ byte '\\' < 0x20 := by decide
  rw [stringLoop, if_neg h1, if_neg h2, if_neg (not_not.mpr rfl), h]

theorem Escaped.shorter {cs cs' : List Char} {bytes : Bytes} (h : Escaped cs bytes cs') :
    (Utf8.text cs').length < (Utf8.text cs).length := by
  cases h with
  | short e =>
    rw [text_ascii (by decide), text_ascii e.char_lt]
    simp only [List.length_cons]
    omega
  | lone a b c d =>
    rw [text_unicode, List.length_append, unicodeBytes]
    simp only [List.length_cons]
    omega
  | pair a b c d a' b' c' d' =>
    rw [text_unicode, text_unicode, List.length_append, List.length_append, unicodeBytes, unicodeBytes]
    simp only [List.length_cons]
    omega

/-- What the string loop takes is the body of a string of the grammar and its closing quote. -/
theorem stringLoop_sound (fuel : ℕ) : ∀ (cs : List Char) (out o r : Bytes), (Utf8.text cs).length ≤ fuel →
    stringLoop length fuel (Utf8.text cs) out = .ok (o, r) →
    ∃ s cs', cs = strChars s ++ '"' :: cs' ∧ r = Utf8.text cs' ∧ o = out ++ Utf8.encodeAll (StrChar.codePoints s) := by
  induction fuel using Nat.strong_induction_on with
  | _ fuel ih =>
    intro cs out o r hf h
    cases cs with
    | nil =>
      cases fuel <;> cases h
    | cons c cs =>
      by_cases hq : c = '"'
      · subst hq
        rw [text_ascii (by decide)] at h hf
        obtain ⟨fuel, rfl⟩ : ∃ k, fuel = k + 1 := ⟨fuel - 1, by rw [List.length_cons] at hf; omega⟩
        rw [stringLoop, if_pos rfl] at h
        cases h
        exact ⟨[], cs, rfl, rfl, by simp [StrChar.codePoints]⟩
      by_cases hb : c = '\\'
      · subst hb
        have h0 := text_ascii (c := '\\') (by decide) cs
        obtain ⟨fuel, rfl⟩ : ∃ k, fuel = k + 1 := ⟨fuel - 1, by rw [h0, List.length_cons] at hf; omega⟩
        cases he : stringEscape length (Utf8.text ('\\' :: cs)) with
        | error e =>
          have h1 : ¬ byte '\\' = byte '"' := by decide
          have h2 : ¬ byte '\\' < 0x20 := by decide
          rw [h0, stringLoop, if_neg h1, if_neg h2, if_neg (not_not.mpr rfl), ← h0, he] at h
          cases h
        | ok br =>
          obtain ⟨bytes, r'⟩ := br
          obtain ⟨cs', hesc, rfl⟩ := stringEscape_sound he
          rw [h0] at he h
          rw [stringLoop_escape he] at h
          obtain ⟨s, after, hs, hr, ho⟩ := ih fuel (by omega) cs' _ o r (by have := hesc.shorter; omega) h
          obtain ⟨s', hs', henc⟩ := hesc.tokens hs
          exact ⟨s', after, hs', hr, by rw [ho, henc, List.append_assoc]⟩
      by_cases hctl : 0x20 ≤ c.toNat
      · -- a raw character, copied byte by byte
        have hraw : Unescaped c := ⟨hctl, hq, hb⟩
        have hlen : 0 < (Utf8.encode c.toNat).length := List.length_pos_of_ne_nil (Utf8.encode_ne_nil _)
        rw [Utf8.text_cons, Utf8.encodeChar_eq, List.length_append] at hf
        obtain ⟨k, rfl⟩ : ∃ k, fuel = (Utf8.encode c.toNat).length + k := ⟨fuel - (Utf8.encode c.toNat).length, by omega⟩
        rw [Utf8.text_cons, Utf8.encodeChar_eq, stringLoop_plain _ _ _ _ (plain_encode hraw)] at h
        obtain ⟨s, after, hs, hr, ho⟩ := ih k (by omega) cs _ o r (by omega) h
        exact ⟨.raw c hraw :: s, after, by rw [hs]; rfl, hr, by rw [ho, List.append_assoc]; rfl⟩
      · have hlt : c.toNat < 0x80 := by omega
        rw [text_ascii hlt] at h hf
        obtain ⟨fuel, rfl⟩ : ∃ k, fuel = k + 1 := ⟨fuel - 1, by rw [List.length_cons] at hf; omega⟩
        have h1 : ¬ byte c = byte '"' := fun he => hq (byte_inj hlt (by decide) he)
        have h2 : byte c < 0x20 := by
          rw [UInt8.lt_iff_toNat_lt, byte_toNat hlt]
          exact Nat.lt_of_not_le hctl
        rw [stringLoop, if_neg h1, if_pos h2] at h
        cases h

theorem text_strChars_cons (x : StrChar) (s : List StrChar) :
    Utf8.text (strChars (x :: s)) = Utf8.text x.chars ++ Utf8.text (strChars s) := by
  rw [← Utf8.text_append]
  rfl

theorem text_chars_short (e : Short) : Utf8.text (StrChar.chars (.short e)) = [byte '\\', byte e.char] := by
  rw [StrChar.chars, text_ascii (by decide), text_ascii e.char_lt, Utf8.text_nil]

theorem text_chars_unicode (a b c d : HexDigit) :
    Utf8.text (StrChar.chars (.unicode a b c d)) = unicodeBytes a b c d := by
  rw [StrChar.chars, text_unicode, Utf8.text_nil, List.append_nil]

/-- Tokens that start with `\u` start with a `\u` escape. -/
theorem not_unicode_head {s : List StrChar} (h : ∀ a b c d s', s ≠ .unicode a b c d :: s') (r : Bytes) :
    (Utf8.text (strChars s) ++ byte '"' :: r).take 2 ≠ ascii "\\u" := by
  have hu : ascii "\\u" = [byte '\\', byte 'u'] := rfl
  rw [hu]
  cases s with
  | nil =>
    change (byte '"' :: r).take 2 ≠ _
    intro he
    rw [List.take_succ_cons] at he
    exact absurd (List.cons.inj he).1 (by decide)
  | cons x s =>
    cases x with
    | raw c hc =>
      obtain ⟨b, bs, hb⟩ := List.exists_cons_of_ne_nil (Utf8.encode_ne_nil c.toNat)
      have hplain := plain_encode hc b (hb ▸ by simp)
      rw [text_strChars_cons, StrChar.chars, Utf8.text_cons, Utf8.encodeChar_eq, hb]
      intro he
      exact hplain.2.2 (List.cons.inj he).1
    | short e =>
      rw [text_strChars_cons, text_chars_short]
      intro he
      have h2 : byte e.char = byte 'u' := (List.cons.inj (List.cons.inj he).2).1
      have hne : e.char ≠ 'u' := by cases e <;> decide
      exact hne (byte_inj e.char_lt (by decide) h2)
    | unicode a b c d => exact absurd rfl (h a b c d s)

/-- The string loop takes the body of every string of the grammar. -/
theorem stringLoop_complete (s : List StrChar) : ∀ (fuel : ℕ) (out r : Bytes),
    (Utf8.text (strChars s) ++ byte '"' :: r).length ≤ fuel →
    stringLoop length fuel (Utf8.text (strChars s) ++ byte '"' :: r) out =
      .ok (out ++ Utf8.encodeAll (StrChar.codePoints s), r) := by
  induction s using StrChar.codePoints.induct with
  | case1 =>
    intro fuel out r hf
    obtain ⟨fuel, rfl⟩ : ∃ k, fuel = k + 1 := ⟨fuel - 1, by simp [strChars] at hf; omega⟩
    change stringLoop length (fuel + 1) (byte '"' :: r) out = _
    rw [stringLoop, if_pos rfl]
    simp [StrChar.codePoints]
  | case2 c hc s ih =>
    intro fuel out r hf
    rw [text_strChars_cons, StrChar.chars, Utf8.text_cons, Utf8.encodeChar_eq, Utf8.text_nil, List.append_nil,
      List.append_assoc] at hf ⊢
    rw [List.length_append] at hf
    obtain ⟨k, rfl⟩ : ∃ k, fuel = (Utf8.encode c.toNat).length + k := ⟨fuel - (Utf8.encode c.toNat).length, by omega⟩
    rw [stringLoop_plain _ _ _ _ (plain_encode hc), ih k _ r (by omega), StrChar.codePoints, Utf8.encodeAll_cons,
      List.append_assoc]
  | case3 e s ih =>
    intro fuel out r hf
    rw [text_strChars_cons, text_chars_short] at hf ⊢
    simp only [List.cons_append, List.nil_append, List.length_cons] at hf ⊢
    obtain ⟨fuel, rfl⟩ : ∃ k, fuel = k + 1 := ⟨fuel - 1, by omega⟩
    rw [stringLoop_escape (stringEscape_short e _), ih fuel _ r (by omega), StrChar.codePoints, Utf8.encodeAll_cons,
      List.append_assoc]
  | case4 a b c d a' b' c' d' s hp ih =>
    intro fuel out r hf
    rw [text_strChars_cons, text_strChars_cons, text_chars_unicode, text_chars_unicode, List.append_assoc,
      List.append_assoc] at hf ⊢
    simp only [List.length_append, unicodeBytes, List.length_cons, List.length_nil] at hf
    obtain ⟨fuel, rfl⟩ : ∃ k, fuel = k + 1 := ⟨fuel - 1, by omega⟩
    have he := @stringEscape_pair length _ _ _ _ _ _ _ _ (Utf8.text (strChars s) ++ byte '"' :: r) hp.1 hp.2
    rw [show unicodeBytes a b c d = byte '\\' :: (unicodeBytes a b c d).tail from rfl, List.cons_append] at he ⊢
    rw [stringLoop_escape he, ih fuel _ r (by simp only [List.length_append, List.length_cons]; omega),
      codePoints_pair hp.1 hp.2, Utf8.encodeAll_cons, List.append_assoc]
  | case5 a b c d a' b' c' d' s hp ih =>
    intro fuel out r hf
    rw [text_strChars_cons, text_chars_unicode, List.append_assoc] at hf ⊢
    simp only [List.length_append, unicodeBytes, List.length_cons, List.length_nil] at hf
    obtain ⟨fuel, rfl⟩ : ∃ k, fuel = k + 1 := ⟨fuel - 1, by omega⟩
    have he := @stringEscape_lone length (a := a) (b := b) (c := c) (d := d)
      (r := Utf8.text (strChars (.unicode a' b' c' d' :: s)) ++ byte '"' :: r) fun hh _ =>
        ⟨unit a' b' c' d', by
          rw [text_strChars_cons, text_chars_unicode, List.append_assoc]
          exact hex4At_text a' b' c' d' _, fun hl => hp ⟨hh, hl⟩⟩
    rw [show unicodeBytes a b c d = byte '\\' :: (unicodeBytes a b c d).tail from rfl, List.cons_append] at he ⊢
    rw [stringLoop_escape he, ih fuel _ r (by simp only [List.length_append, List.length_cons]; omega),
      StrChar.codePoints, if_neg hp, Utf8.encodeAll_cons, List.append_assoc]
  | case6 a b c d s hs ih =>
    intro fuel out r hf
    rw [text_strChars_cons, text_chars_unicode, List.append_assoc] at hf ⊢
    simp only [List.length_append, unicodeBytes, List.length_cons, List.length_nil] at hf
    obtain ⟨fuel, rfl⟩ : ∃ k, fuel = k + 1 := ⟨fuel - 1, by omega⟩
    have he := @stringEscape_lone length (a := a) (b := b) (c := c) (d := d)
      (r := Utf8.text (strChars s) ++ byte '"' :: r) fun _ ht =>
        absurd ht (not_unicode_head (fun a' b' c' d' s' he => hs a' b' c' d' s' he) r)
    rw [show unicodeBytes a b c d = byte '\\' :: (unicodeBytes a b c d).tail from rfl, List.cons_append] at he ⊢
    rw [stringLoop_escape he, ih fuel _ r (by simp only [List.length_append, List.length_cons]; omega),
      codePoints_lone fun _ a' b' c' d' s' he => absurd he (hs a' b' c' d' s'), Utf8.encodeAll_cons, List.append_assoc]

theorem text_quoted (s : List StrChar) : Utf8.text (quoted s) = byte '"' :: (Utf8.text (strChars s) ++ [byte '"']) := by
  rw [quoted, List.cons_append, text_ascii (by decide), Utf8.text_append]
  rfl

theorem parseStringBytes_complete (s : List StrChar) (r : Bytes) :
    parseStringBytes length (Utf8.text (quoted s) ++ r) = .ok (Utf8.encodeAll (StrChar.codePoints s), r) := by
  rw [text_quoted, parseStringBytes, List.cons_append, List.drop_succ_cons, List.drop_zero, List.append_assoc]
  exact stringLoop_complete s _ [] r (by simp)

theorem parseStringBytes_sound {cs : List Char} {o r : Bytes}
    (h : parseStringBytes length (Utf8.text ('"' :: cs)) = .ok (o, r)) :
    ∃ s cs', '"' :: cs = quoted s ++ cs' ∧ r = Utf8.text cs' ∧ o = Utf8.encodeAll (StrChar.codePoints s) := by
  rw [text_ascii (by decide), parseStringBytes] at h
  obtain ⟨s, cs', hs, hr, ho⟩ := stringLoop_sound _ cs [] o r (by simp) h
  exact ⟨s, cs', by rw [hs, quoted]; simp, hr, ho⟩

end Strings

/-! ## Numbers -/

section Numbers

variable {length : ℕ}

theorem digitChar_lt (d : Fin 10) : (digitChar d).toNat < 0x80 := by
  revert d
  decide

theorem isDigit_digitChar (d : Fin 10) : isDigit (byte (digitChar d)) = true := by
  revert d
  decide

theorem isDigit_byte {b : UInt8} (h : isDigit b = true) : ∃ d, b = byte (digitChar d) := by
  simp only [isDigit, Bool.and_eq_true, decide_eq_true_eq, UInt8.le_iff_toNat_le] at h
  have hlo : 0x30 ≤ b.toNat := h.1
  have hhi : b.toNat ≤ 0x39 := h.2
  refine ⟨⟨b.toNat - 0x30, by omega⟩, ?_⟩
  rw [digitChar, byte_ofNat (by simp only; omega)]
  simp only
  rw [show 0x30 + (b.toNat - 0x30) = b.toNat by omega, UInt8.ofNat_toNat]

/-- What may follow a run of digits. -/
def NoDigit (r : Bytes) : Prop := ∀ b, r.head? = some b → isDigit b = false

theorem dropDigits_append : ∀ (ds : List (Fin 10)) {r : Bytes} (_ : NoDigit r),
    (Utf8.text (ds.map digitChar) ++ r).dropWhile isDigit = r
  | [], r, h => by
    cases r with
    | nil => rfl
    | cons b r => exact (List.dropWhile_cons ..).trans (if_neg (by simp [h b rfl]))
  | d :: ds, r, h => by
    rw [List.map_cons, text_ascii (digitChar_lt d), List.cons_append, List.dropWhile_cons, if_pos (isDigit_digitChar d)]
    exact dropDigits_append ds h

theorem dropDigits_text : ∀ (cs : List Char), ∃ (ds : List (Fin 10)) (cs' : List Char),
    cs = ds.map digitChar ++ cs' ∧ (Utf8.text cs).dropWhile isDigit = Utf8.text cs'
  | [] => ⟨[], [], rfl, rfl⟩
  | c :: cs => by
    cases ht : Utf8.text (c :: cs) with
    | nil => exact ⟨[], c :: cs, rfl, by rw [ht]; rfl⟩
    | cons b r =>
      by_cases hb : isDigit b = true
      · obtain ⟨d, rfl⟩ := isDigit_byte hb
        obtain ⟨cs', h1, rfl⟩ := text_eq_byte_cons (digitChar_lt d) ht
        obtain ⟨rfl, rfl⟩ := List.cons.inj h1
        obtain ⟨ds, cs'', h2, h3⟩ := dropDigits_text cs
        refine ⟨d :: ds, cs'', by rw [h2]; rfl, ?_⟩
        rw [List.dropWhile_cons, if_pos hb]
        exact h3
      · refine ⟨[], c :: cs, rfl, ?_⟩
        rw [List.dropWhile_cons, if_neg hb, ht]

theorem digitRun_complete (d : Digits) {r : Bytes} (h : NoDigit r) (reason : String) :
    digitRun length (Utf8.text d.chars ++ r) reason = .ok r := by
  have hd := isDigit_digitChar d.first
  rw [Digits.chars, text_ascii (digitChar_lt d.first), List.cons_append, digitRun, if_pos hd, List.dropWhile_cons,
    if_pos hd, dropDigits_append d.rest h]

theorem digitRun_sound {cs : List Char} {r : Bytes} {reason : String}
    (h : digitRun length (Utf8.text cs) reason = .ok r) :
    ∃ (d : Digits) (cs' : List Char), cs = d.chars ++ cs' ∧ r = Utf8.text cs' := by
  cases ht : Utf8.text cs with
  | nil => rw [ht] at h; cases h
  | cons b bs =>
    rw [ht, digitRun] at h
    split_ifs at h with hb
    · obtain ⟨d, rfl⟩ := isDigit_byte hb
      obtain ⟨cs', rfl, rfl⟩ := text_eq_byte_cons (digitChar_lt d) ht
      obtain ⟨ds, cs'', rfl, h3⟩ := dropDigits_text cs'
      rw [List.dropWhile_cons, if_pos hb, h3] at h
      cases h
      exact ⟨⟨d, ds⟩, cs'', rfl, rfl⟩
    · cases h

theorem firstDigit_byte {b : UInt8} (h : byte '1' ≤ b ∧ b ≤ byte '9') :
    ∃ d : Fin 9, b = byte (Char.ofNat (0x31 + d.val)) := by
  have hlo : 0x31 ≤ b.toNat := UInt8.le_iff_toNat_le.mp h.1
  have hhi : b.toNat ≤ 0x39 := UInt8.le_iff_toNat_le.mp h.2
  refine ⟨⟨b.toNat - 0x31, by omega⟩, ?_⟩
  rw [byte_ofNat (by simp only; omega)]
  simp only
  rw [show 0x31 + (b.toNat - 0x31) = b.toNat by omega, UInt8.ofNat_toNat]

theorem firstDigit_facts (d : Fin 9) : (Char.ofNat (0x31 + d.val)).toNat < 0x80 ∧
    byte (Char.ofNat (0x31 + d.val)) ≠ byte '0' ∧ byte (Char.ofNat (0x31 + d.val)) ≠ byte '-' ∧
    (byte '1' ≤ byte (Char.ofNat (0x31 + d.val)) ∧ byte (Char.ofNat (0x31 + d.val)) ≤ byte '9') ∧
    isDigit (byte (Char.ofNat (0x31 + d.val))) = true := by
  revert d
  decide

/-- The integer part after its sign. -/
theorem numberInt_digits {i : IntPart} {r : Bytes} (h : NoDigit r) (rest : Bytes)
    (hr : (if rest.head? = some (byte '-') then rest.drop 1 else rest) = Utf8.text i.chars ++ r) :
    numberInt length rest = .ok r := by
  unfold numberInt
  rw [hr]
  cases i with
  | zero => rfl
  | nonzero first ds =>
    obtain ⟨hlt, h0, -, hrange, hdig⟩ := firstDigit_facts first
    rw [IntPart.chars, text_ascii hlt, List.cons_append]
    simp only [if_neg h0, if_pos hrange, List.dropWhile_cons, hdig, if_true]
    rw [dropDigits_append ds h]

theorem numberInt_complete (n : Number) {r : Bytes} (h : NoDigit r) :
    numberInt length (Utf8.text (minusChars n.minus) ++ (Utf8.text n.int.chars ++ r)) = .ok r := by
  refine numberInt_digits (i := n.int) h _ ?_
  unfold minusChars
  split_ifs with hm hd hd
  · rw [text_ascii (by decide)]
    rfl
  · rw [text_ascii (by decide)] at hd
    exact absurd rfl hd
  · -- no sign: the first byte is a digit
    exfalso
    cases hi : n.int with
    | zero =>
      rw [hi] at hd
      exact absurd (Option.some.inj hd) (by decide)
    | nonzero first ds =>
      obtain ⟨hlt, -, h1, -, -⟩ := firstDigit_facts first
      rw [hi, IntPart.chars, text_ascii hlt] at hd
      exact h1 (Option.some.inj hd)
  · rfl

theorem numberInt_sound {cs : List Char} {r : Bytes} (h : numberInt length (Utf8.text cs) = .ok r) :
    ∃ (minus : Bool) (i : IntPart) (cs' : List Char),
      cs = minusChars minus ++ (i.chars ++ cs') ∧ r = Utf8.text cs' := by
  -- the sign
  obtain ⟨minus, cs1, rfl, hrest⟩ : ∃ (minus : Bool) (cs1 : List Char), cs = minusChars minus ++ cs1 ∧
      (if (Utf8.text cs).head? = some (byte '-') then (Utf8.text cs).drop 1 else Utf8.text cs) = Utf8.text cs1 := by
    by_cases hm : (Utf8.text cs).head? = some (byte '-')
    · obtain ⟨cs1, rfl⟩ := head?_text (by decide) hm
      exact ⟨true, cs1, rfl, by rw [if_pos hm, text_ascii (by decide)]; rfl⟩
    · exact ⟨false, cs, rfl, by rw [if_neg hm]⟩
  refine ⟨minus, ?_⟩
  unfold numberInt at h
  rw [hrest] at h
  cases ht : Utf8.text cs1 with
  | nil => rw [ht] at h; cases h
  | cons b bs =>
    rw [ht] at h
    simp only at h
    split_ifs at h with h0 h1
    · subst h0
      obtain ⟨cs2, rfl, rfl⟩ := text_eq_byte_cons (by decide) ht
      cases h
      exact ⟨.zero, cs2, rfl, rfl⟩
    · obtain ⟨first, rfl⟩ := firstDigit_byte h1
      obtain ⟨hlt, -, -, -, hdig⟩ := firstDigit_facts first
      obtain ⟨cs2, rfl, rfl⟩ := text_eq_byte_cons hlt ht
      obtain ⟨ds, cs3, rfl, h3⟩ := dropDigits_text cs2
      rw [List.dropWhile_cons, if_pos hdig, h3] at h
      cases h
      exact ⟨.nonzero first ds, cs3, rfl, rfl⟩
    · cases h

/-- What may follow a number: nothing that would continue it. -/
structure Follow (r : Bytes) : Prop where
  digit : NoDigit r
  dot : r.head? ≠ some (byte '.')
  exp : ¬ (r.head? = some (byte 'e') ∨ r.head? = some (byte 'E'))

theorem text_fracChars (d : Digits) : Utf8.text ('.' :: d.chars) = byte '.' :: Utf8.text d.chars :=
  text_ascii (by decide) _

theorem numberFrac_complete (n : Number) {r : Bytes} (hd : NoDigit r) (hdot : r.head? ≠ some (byte '.')) :
    numberFrac length (Utf8.text (fracChars n.frac) ++ r) = .ok r := by
  unfold fracChars
  cases n.frac with
  | none => exact if_neg hdot
  | some d =>
    simp only [text_fracChars, List.cons_append]
    unfold numberFrac
    rw [List.head?_cons, if_pos rfl, List.drop_succ_cons, List.drop_zero, digitRun_complete d hd]

theorem numberFrac_sound {cs : List Char} {r : Bytes} (h : numberFrac length (Utf8.text cs) = .ok r) :
    ∃ (frac : Option Digits) (cs' : List Char),
      cs = fracChars frac ++ cs' ∧ r = Utf8.text cs' ∧
      (frac = none ↔ (Utf8.text cs).head? ≠ some (byte '.')) := by
  unfold numberFrac at h
  by_cases hd : (Utf8.text cs).head? = some (byte '.')
  · rw [if_pos hd] at h
    obtain ⟨cs1, rfl⟩ := head?_text (by decide) hd
    rw [text_ascii (by decide), List.drop_succ_cons, List.drop_zero] at h
    obtain ⟨d, cs2, rfl, rfl⟩ := digitRun_sound h
    exact ⟨some d, cs2, rfl, rfl, ⟨(nomatch ·), fun hn => absurd hd hn⟩⟩
  · rw [if_neg hd] at h
    cases h
    exact ⟨none, cs, rfl, rfl, ⟨fun _ => hd, fun _ => rfl⟩⟩

theorem text_signChars (sign : Option Bool) (d : Digits) (r : Bytes) :
    let rest := Utf8.text (signChars sign ++ d.chars) ++ r
    (if rest.head? = some (byte '+') ∨ rest.head? = some (byte '-') then rest.drop 1 else rest) =
      Utf8.text d.chars ++ r := by
  have hfirst : byte (digitChar d.first) ≠ byte '+' ∧ byte (digitChar d.first) ≠ byte '-' := by
    generalize d.first = x
    revert x
    decide
  match sign with
  | none =>
    intro rest
    have hrest : rest = byte (digitChar d.first) :: (Utf8.text (d.rest.map digitChar) ++ r) := by
      simp only [rest, signChars, List.nil_append, Digits.chars, text_ascii (digitChar_lt d.first), List.cons_append]
    rw [hrest, if_neg (by simpa using hfirst), Digits.chars, text_ascii (digitChar_lt d.first), List.cons_append]
  | some true =>
    intro rest
    have hrest : rest = byte '-' :: (Utf8.text d.chars ++ r) := by
      simp only [rest, signChars, List.cons_append, List.nil_append, text_ascii (c := '-') (by decide)]
    rw [hrest, List.head?_cons, if_pos (Or.inr rfl)]
    rfl
  | some false =>
    intro rest
    have hrest : rest = byte '+' :: (Utf8.text d.chars ++ r) := by
      simp only [rest, signChars, List.cons_append, List.nil_append, text_ascii (c := '+') (by decide)]
    rw [hrest, List.head?_cons, if_pos (Or.inl rfl)]
    rfl

theorem text_expChars (e : ExpPart) : Utf8.text e.chars =
    byte (if e.upper then 'E' else 'e') :: Utf8.text (signChars e.sign ++ e.digits.chars) := by
  unfold ExpPart.chars
  cases e.upper <;> exact text_ascii (by decide) _

theorem numberExp_complete (n : Number) {r : Bytes} (hd : NoDigit r)
    (he : ¬ (r.head? = some (byte 'e') ∨ r.head? = some (byte 'E'))) :
    numberExp length (Utf8.text (expChars n.exp) ++ r) = .ok r := by
  unfold expChars
  cases n.exp with
  | none => exact if_neg he
  | some e =>
    have hhead : (Utf8.text e.chars ++ r).head? = some (byte 'e') ∨
        (Utf8.text e.chars ++ r).head? = some (byte 'E') := by
      rw [text_expChars]
      cases e.upper
      · exact Or.inl rfl
      · exact Or.inr rfl
    simp only
    unfold numberExp
    rw [if_pos hhead, text_expChars, List.cons_append, List.drop_succ_cons, List.drop_zero]
    simp only [text_signChars, digitRun_complete e.digits hd]

theorem numberExp_sound {cs : List Char} {r : Bytes} (h : numberExp length (Utf8.text cs) = .ok r) :
    ∃ (exp : Option ExpPart) (cs' : List Char),
      cs = expChars exp ++ cs' ∧ r = Utf8.text cs' ∧
      (exp = none ↔ ¬ ((Utf8.text cs).head? = some (byte 'e') ∨ (Utf8.text cs).head? = some (byte 'E'))) := by
  unfold numberExp at h
  by_cases hd : (Utf8.text cs).head? = some (byte 'e') ∨ (Utf8.text cs).head? = some (byte 'E')
  · rw [if_pos hd] at h
    obtain ⟨upper, cs1, rfl⟩ : ∃ (upper : Bool) (cs1 : List Char), cs = (if upper then 'E' else 'e') :: cs1 := by
      rcases hd with hd | hd
      · obtain ⟨cs1, rfl⟩ := head?_text (by decide) hd
        exact ⟨false, cs1, rfl⟩
      · obtain ⟨cs1, rfl⟩ := head?_text (by decide) hd
        exact ⟨true, cs1, rfl⟩
    have hlt : (if upper then 'E' else 'e' : Char).toNat < 0x80 := by cases upper <;> decide
    rw [text_ascii hlt, List.drop_succ_cons, List.drop_zero] at h
    -- the sign of the exponent
    obtain ⟨sign, cs2, rfl, hrest⟩ : ∃ (sign : Option Bool) (cs2 : List Char), cs1 = signChars sign ++ cs2 ∧
        (if (Utf8.text cs1).head? = some (byte '+') ∨ (Utf8.text cs1).head? = some (byte '-') then
          (Utf8.text cs1).drop 1 else Utf8.text cs1) = Utf8.text cs2 := by
      by_cases hs : (Utf8.text cs1).head? = some (byte '+') ∨ (Utf8.text cs1).head? = some (byte '-')
      · rw [if_pos hs]
        rcases hs with hs | hs
        · obtain ⟨cs2, rfl⟩ := head?_text (by decide) hs
          exact ⟨some false, cs2, rfl, by rw [text_ascii (by decide)]; rfl⟩
        · obtain ⟨cs2, rfl⟩ := head?_text (by decide) hs
          exact ⟨some true, cs2, rfl, by rw [text_ascii (by decide)]; rfl⟩
      · exact ⟨none, cs1, rfl, by rw [if_neg hs]⟩
    simp only [hrest] at h
    obtain ⟨d, cs3, rfl, rfl⟩ := digitRun_sound h
    refine ⟨some ⟨upper, sign, d⟩, cs3, ?_, rfl, ⟨(nomatch ·), fun hn => absurd hd hn⟩⟩
    simp [expChars, ExpPart.chars]
  · rw [if_neg hd] at h
    cases h
    exact ⟨none, cs, rfl, rfl, ⟨fun _ => hd, fun _ => rfl⟩⟩

theorem text_chars (n : Number) : Utf8.text n.chars =
    Utf8.text (minusChars n.minus) ++ (Utf8.text n.int.chars ++ (Utf8.text (fracChars n.frac) ++ Utf8.text (expChars n.exp))) := by
  simp only [Number.chars, Utf8.text_append]

/-- Nothing that follows the fraction continues it. -/
theorem follow_expChars (n : Number) {r : Bytes} (h : Follow r) :
    NoDigit (Utf8.text (expChars n.exp) ++ r) ∧ (Utf8.text (expChars n.exp) ++ r).head? ≠ some (byte '.') := by
  unfold expChars
  cases n.exp with
  | none => exact ⟨h.digit, h.dot⟩
  | some e =>
    simp only [text_expChars, List.cons_append]
    refine ⟨fun b hb => ?_, fun hb => ?_⟩
    · rw [← Option.some.inj hb]
      cases e.upper <;> decide
    · have := Option.some.inj hb
      revert this
      cases e.upper <;> decide

theorem noDigit_fracChars (n : Number) {r : Bytes} (h : NoDigit r) : NoDigit (Utf8.text (fracChars n.frac) ++ r) := by
  unfold fracChars
  cases n.frac with
  | none => exact h
  | some d =>
    simp only [text_fracChars, List.cons_append]
    intro b hb
    rw [← Option.some.inj hb]
    decide

theorem parseNumber_complete {finite : Bytes → Bool} {S : Type} {levels : ℕ} (n : Number) {r : Bytes} (hr : Follow r)
    (hw : Within finite levels (n.tree : Json S)) :
    parseNumber finite length (Utf8.text n.chars ++ r) = .ok (n.tree, r) := by
  obtain ⟨hexp, hdot⟩ := follow_expChars n hr
  have h1 := @numberInt_complete length n _ (noDigit_fracChars n hexp)
  have h2 := @numberFrac_complete length n _ hexp hdot
  have h3 := @numberExp_complete length n _ hr.digit hr.exp
  have hfrac : (Utf8.text (fracChars n.frac) ++ (Utf8.text (expChars n.exp) ++ r)).head? ≠ some (byte '.') ↔ n.frac = none := by
    unfold fracChars
    cases n.frac with
    | none => simpa using hdot
    | some d => simp only [text_fracChars]; simp
  have hexp' : ¬ ((Utf8.text (expChars n.exp) ++ r).head? = some (byte 'e') ∨
      (Utf8.text (expChars n.exp) ++ r).head? = some (byte 'E')) ↔ n.exp = none := by
    unfold expChars
    cases n.exp with
    | none => simpa using hr.exp
    | some e =>
      simp only [text_expChars]
      cases e.upper <;> simp
  have htake : (Utf8.text n.chars ++ r).take ((Utf8.text n.chars ++ r).length - r.length) = Utf8.text n.chars := by
    rw [List.length_append, Nat.add_sub_cancel, List.take_left]
  have hassoc : Utf8.text n.chars ++ r = Utf8.text (minusChars n.minus) ++ (Utf8.text n.int.chars ++
      (Utf8.text (fracChars n.frac) ++ (Utf8.text (expChars n.exp) ++ r))) := by
    rw [text_chars]
    simp only [List.append_assoc]
  have hint : ((Utf8.text (fracChars n.frac) ++ (Utf8.text (expChars n.exp) ++ r)).head? ≠ some (byte '.') ∧
      ¬ ((Utf8.text (expChars n.exp) ++ r).head? = some (byte 'e') ∨ (Utf8.text (expChars n.exp) ++ r).head? = some (byte 'E'))) ↔
      n.isInteger = true := by
    rw [hfrac, hexp', Number.isInteger, Bool.and_eq_true, Option.isNone_iff_eq_none, Option.isNone_iff_eq_none]
  unfold parseNumber
  rw [hassoc, h1, ok_bind, h2, ok_bind, h3, ok_bind, ← hassoc, htake]
  unfold Number.tree at hw ⊢
  by_cases hi : n.isInteger = true
  · rw [if_pos hi] at hw
    rw [if_pos (hint.mpr hi), if_pos hi]
    exact if_neg (Nat.not_lt.mpr (by simpa [Within] using hw))
  · rw [if_neg hi] at hw
    rw [if_neg fun h => hi (hint.mp h), if_neg hi]
    exact if_pos (by simpa [Within] using hw)

theorem parseNumber_sound {finite : Bytes → Bool} {S : Type} {levels : ℕ} {cs : List Char} {v : JsonValue} {r : Bytes}
    (h : parseNumber finite length (Utf8.text cs) = .ok (v, r)) :
    ∃ (n : Number) (cs' : List Char), cs = n.chars ++ cs' ∧ r = Utf8.text cs' ∧ v = n.tree ∧
      Within finite levels (n.tree : Json S) := by
  simp only [parseNumber, bind_eq_ok] at h
  obtain ⟨r1, h1, r2, h2, r3, h3, h⟩ := h
  obtain ⟨minus, i, cs1, rfl, rfl⟩ := numberInt_sound h1
  obtain ⟨frac, cs2, rfl, rfl, hfrac⟩ := numberFrac_sound h2
  obtain ⟨exp, cs3, rfl, rfl, hexp⟩ := numberExp_sound h3
  set n : Number := ⟨minus, i, frac, exp⟩ with hn
  have hchars : minusChars minus ++ (i.chars ++ (fracChars frac ++ (expChars exp ++ cs3))) = n.chars ++ cs3 := by
    simp only [hn, Number.chars, List.append_assoc]
  rw [hchars] at h
  refine ⟨n, cs3, hchars, ?_⟩
  have htake : (Utf8.text (n.chars ++ cs3)).take ((Utf8.text (n.chars ++ cs3)).length - (Utf8.text cs3).length) =
      Utf8.text n.chars := by
    rw [Utf8.text_append, List.length_append, Nat.add_sub_cancel, List.take_left]
  rw [htake] at h
  unfold Number.tree
  by_cases hi : frac = none ∧ exp = none
  · have hi' : n.isInteger = true := by simp [hn, Number.isInteger, hi.1, hi.2]
    rw [if_pos ⟨hfrac.mp hi.1, hexp.mp hi.2⟩] at h
    simp only [if_pos hi']
    by_cases hd : digitCount (Utf8.text n.chars) > JSON_MAX_INTEGER_DIGITS
    · rw [if_pos hd] at h
      cases h
    · rw [if_neg hd] at h
      cases h
      exact ⟨rfl, rfl, by simpa [Within] using hd⟩
  · have hi' : ¬ n.isInteger = true := by
      intro hi'
      simp only [hn, Number.isInteger, Bool.and_eq_true, Option.isNone_iff_eq_none] at hi'
      exact hi hi'
    rw [if_neg fun hc => hi ⟨hfrac.mpr hc.1, hexp.mpr hc.2⟩] at h
    simp only [if_neg hi']
    split_ifs at h with hfin
    · cases h
      exact ⟨rfl, rfl, by simpa [Within] using hfin⟩
    · cases h

end Numbers

end Hamn.StrictJson
