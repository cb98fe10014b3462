import Hamn.Guest.JsonLex
import Hamn.Guest.JsonMembers

/-!
# JsonParse — the reader accepts exactly its grammar

Both directions follow the recursion of `parse_value` on the levels that are left: what the reader takes from a text
is a phrase (`parseValue_sound`), and it takes every phrase that keeps the limits (`parseValue_complete`).
-/

open Bytes Result

namespace Hamn.StrictJson

variable {finite : Bytes → Bool} {length : ℕ}

/-- A member as the reader stores it. -/
def storedMember (m : List ℕ × Json (List ℕ)) : Bytes × JsonValue := (Utf8.encodeAll m.1, stored m.2)

theorem stored_value (type : Container) (members : List (List ℕ × Json (List ℕ))) :
    stored (type.value members) = type.value (members.map storedMember) :=
  Container.map_value _ _ _

theorem stored_number (n : Number) : stored n.tree = n.tree := by
  unfold Number.tree
  split_ifs <;> rfl

theorem within_value {levels : ℕ} {type : Container} {members : List (List ℕ × Json (List ℕ))} :
    Within finite (levels + 1) (type.value members) ↔
      (type = .object → (members.map (·.1)).Nodup) ∧ ∀ m ∈ members, Within finite levels m.2 := by
  cases type with
  | array =>
    simp only [Container.value, Within, List.forall_mem_map]
    exact ⟨fun h => ⟨fun he => (by cases he), h⟩, fun h => h.2⟩
  | object => simp [Container.value, Within]

theorem not_within_zero_value {type : Container} {members : List (List ℕ × Json (List ℕ))} :
    ¬ Within finite 0 (type.value members) := by
  cases type <;> simp [Container.value, Within]

theorem closeChar_lt (type : Container) : type.closeChar.toNat < 0x80 := by cases type <;> decide

theorem openChar_lt (type : Container) : type.openChar.toNat < 0x80 := by cases type <;> decide

theorem close_eq (type : Container) : type.close = byte type.closeChar := by cases type <;> rfl

/-! ## Soundness -/

/-- `item` takes phrases that keep the limits of `levels`. -/
def TakesPhrases (finite : Bytes → Bool) (levels : ℕ) (item : Bytes → Except JsonError (JsonValue × Bytes)) : Prop :=
  ∀ cs v r, item (Utf8.text cs) = .ok (v, r) →
    ∃ (p : Phrase) (cs' : List Char), cs = p.chars ++ cs' ∧ r = Utf8.text cs' ∧ v = stored p.tree ∧
      Within finite levels p.tree

theorem parseKey_sound {cs : List Char} {key r : Bytes} (h : parseKey length (Utf8.text cs) = .ok (key, r)) :
    ∃ (s : List StrChar) (w₁ w₂ : Ws) (cs' : List Char), cs = quoted s ++ (w₁.val ++ ':' :: (w₂.val ++ cs')) ∧
      r = Utf8.text cs' ∧ key = Utf8.encodeAll (StrChar.codePoints s) := by
  unfold parseKey at h
  by_cases hq : (Utf8.text cs).head? = some (byte '"')
  · rw [if_neg (not_not.mpr hq)] at h
    obtain ⟨cs1, rfl⟩ := head?_text (by decide) hq
    cases hs : parseStringBytes length (Utf8.text ('"' :: cs1)) with
    | error e => rw [hs] at h; cases h
    | ok kr =>
      obtain ⟨k, r'⟩ := kr
      rw [hs] at h
      obtain ⟨s, cs2, hcs, rfl, rfl⟩ := parseStringBytes_sound hs
      obtain ⟨w₁, cs3, rfl, hskip⟩ := skipWhitespace_text cs2
      simp only [hskip] at h
      by_cases hc : (Utf8.text cs3).head? = some (byte ':')
      · rw [if_neg (not_not.mpr hc)] at h
        obtain ⟨cs4, rfl⟩ := head?_text (by decide) hc
        obtain ⟨w₂, cs5, rfl, hskip'⟩ := skipWhitespace_text cs4
        rw [text_ascii (by decide), List.drop_succ_cons, List.drop_zero, hskip'] at h
        cases h
        exact ⟨s, w₁, w₂, cs5, hcs, rfl, rfl⟩
      · rw [if_pos hc] at h
        cases h
  · rw [if_pos hq] at h
    cases h

/-- The whitespace `w` before the entry was skipped earlier. -/
theorem memberKey_sound {type : Container} {cs : List Char} {key r : Bytes} (w : Ws)
    (h : memberKey length type (Utf8.text cs) = .ok (key, r)) :
    ∃ (lead : Lead type) (cs' : List Char), w.val ++ cs = lead.chars ++ cs' ∧ r = Utf8.text cs' ∧
      key = Utf8.encodeAll lead.label := by
  cases type with
  | array =>
    cases h
    exact ⟨.item w, cs, rfl, rfl, rfl⟩
  | object =>
    obtain ⟨s, w₁, w₂, cs', rfl, rfl, rfl⟩ := parseKey_sound h
    exact ⟨.key w s w₁ w₂, cs', by simp [Lead.chars], rfl, rfl⟩

theorem containerLoop_sound {levels : ℕ} {item : Bytes → Except JsonError (JsonValue × Bytes)} {type : Container}
    (hitem : TakesPhrases finite levels item) :
    ∀ (fuel : ℕ) (members : List (Bytes × JsonValue)) (w : Ws) (cs : List Char) (ms : List (Bytes × JsonValue))
      (r : Bytes), containerLoop length item type fuel members (Utf8.text cs) = .ok (ms, r) →
      ∃ (es : Entries type) (cs' : List Char), w.val ++ cs = es.chars ++ type.closeChar :: cs' ∧ r = Utf8.text cs' ∧
        ms = members ++ es.members.map storedMember ∧ ∀ m ∈ es.members, Within finite levels m.2
  | 0, _, _, _, _, _, h => by cases h
  | fuel + 1, members, w, cs, ms, r, h => by
    simp only [containerLoop, bind_eq_ok] at h
    obtain ⟨⟨key, r1⟩, hkey, ⟨v, r2⟩, hval, h⟩ := h
    obtain ⟨lead, cs1, hlead, rfl, rfl⟩ := memberKey_sound w hkey
    obtain ⟨p, cs2, rfl, rfl, rfl, hw⟩ := hitem _ _ _ hval
    obtain ⟨w', cs3, rfl, hskip⟩ := skipWhitespace_text cs2
    simp only [hskip] at h
    by_cases hcomma : (Utf8.text cs3).head? = some (byte ',')
    · -- another entry
      rw [if_pos hcomma] at h
      obtain ⟨cs4, rfl⟩ := head?_text (by decide) hcomma
      obtain ⟨w'', cs5, rfl, hskip'⟩ := skipWhitespace_text cs4
      rw [text_ascii (by decide), List.drop_succ_cons, List.drop_zero, hskip'] at h
      obtain ⟨es, cs', hes, rfl, rfl, hall⟩ := containerLoop_sound hitem fuel _ w'' cs5 ms r h
      refine ⟨.more lead p w' es, cs', ?_, rfl, ?_, ?_⟩
      · rw [hlead, hes]
        simp [Entries.chars]
      · simp [Entries.members, storedMember]
      · intro m hm
        rcases List.mem_cons.mp hm with rfl | hm
        · exact hw
        · exact hall m hm
    · rw [if_neg hcomma] at h
      by_cases hclose : (Utf8.text cs3).head? = some type.close
      · rw [if_pos hclose] at h
        rw [close_eq] at hclose
        obtain ⟨cs4, rfl⟩ := head?_text (closeChar_lt type) hclose
        rw [text_ascii (closeChar_lt type), List.drop_succ_cons, List.drop_zero] at h
        cases h
        refine ⟨.one lead p w', cs4, ?_, rfl, rfl, ?_⟩
        · rw [hlead]
          simp [Entries.chars]
        · intro m hm
          cases List.mem_singleton.mp hm
          exact hw
      · rw [if_neg hclose] at h
        cases h

theorem parseContainer_sound {levels : ℕ} {item : Bytes → Except JsonError (JsonValue × Bytes)} {type : Container}
    (hitem : TakesPhrases finite levels item) {cs : List Char} {v : JsonValue} {r : Bytes}
    (h : parseContainer length item type (Utf8.text (type.openChar :: cs)) = .ok (v, r)) :
    ∃ (p : Phrase) (cs' : List Char), type.openChar :: cs = p.chars ++ cs' ∧ r = Utf8.text cs' ∧ v = stored p.tree ∧
      Within finite (levels + 1) p.tree := by
  unfold parseContainer at h
  obtain ⟨w, cs1, rfl, hskip⟩ := skipWhitespace_text cs
  rw [text_ascii (openChar_lt type), List.drop_succ_cons, List.drop_zero, hskip] at h
  by_cases hclose : (Utf8.text cs1).head? = some type.close
  · simp only [if_pos hclose] at h
    rw [close_eq] at hclose
    obtain ⟨cs2, rfl⟩ := head?_text (closeChar_lt type) hclose
    rw [text_ascii (closeChar_lt type), List.drop_succ_cons, List.drop_zero] at h
    cases h
    refine ⟨.empty type w, cs2, by simp [Phrase.chars], rfl, ?_, ?_⟩
    · rw [Phrase.tree, stored_value]
      rfl
    · rw [Phrase.tree, within_value]
      simp
  · simp only [if_neg hclose, bind_eq_ok] at h
    obtain ⟨⟨ms, r1⟩, hloop, u, hdup, h⟩ := h
    obtain ⟨es, cs2, hes, rfl, rfl, hall⟩ := containerLoop_sound hitem _ [] w cs1 ms r1 hloop
    cases h
    refine ⟨.container type es, cs2, ?_, rfl, ?_, ?_⟩
    · rw [hes]
      simp [Phrase.chars]
    · rw [Phrase.tree, stored_value]
      rfl
    · rw [Phrase.tree, within_value]
      refine ⟨?_, hall⟩
      rintro rfl
      have hnd := rejectDuplicateKeys_eq_ok.mp hdup
      rw [List.nil_append, List.map_map] at hnd
      rw [show ((fun x : Bytes × JsonValue => x.1) ∘ storedMember) = Utf8.encodeAll ∘ (·.1) from rfl,
        ← List.map_map] at hnd
      exact hnd.of_map _

/-- ASCII words are texts of themselves. -/
theorem text_word : ∀ {cs : List Char}, (∀ c ∈ cs, c.toNat < 0x80) → Utf8.text cs = cs.map byte
  | [], _ => rfl
  | c :: cs, h => by
    rw [text_ascii (h c (by simp)), List.map_cons, text_word fun d hd => h d (by simp [hd])]

theorem take_word {word : List Char} : (∀ c ∈ word, c.toNat < 0x80) → ∀ {cs : List Char},
    (Utf8.text cs).take word.length = word.map byte → ∃ cs', cs = word ++ cs' := by
  induction word with
  | nil => exact fun _ cs _ => ⟨cs, rfl⟩
  | cons c word ih =>
    intro hlt cs h
    cases ht : Utf8.text cs with
    | nil => rw [ht] at h; cases h
    | cons b bs =>
      rw [ht, List.length_cons, List.take_succ_cons, List.map_cons] at h
      obtain ⟨rfl, htail⟩ := List.cons.inj h
      obtain ⟨cs1, rfl, rfl⟩ := text_eq_byte_cons (hlt c (by simp)) ht
      obtain ⟨cs2, rfl⟩ := ih (fun d hd => hlt d (by simp [hd])) htail
      exact ⟨cs2, rfl⟩

theorem parseLiteral_sound {levels : ℕ} {word : String} {p : Phrase} {cs : List Char} {v : JsonValue} {r : Bytes}
    (hlt : word.toList = p.chars ∧ ∀ c ∈ p.chars, c.toNat < 0x80) (hw : Within finite levels p.tree)
    (h : parseLiteral length (Utf8.text cs) word (stored p.tree) = .ok (v, r)) :
    ∃ (p : Phrase) (cs' : List Char), cs = p.chars ++ cs' ∧ r = Utf8.text cs' ∧ v = stored p.tree ∧
      Within finite levels p.tree := by
  unfold parseLiteral at h
  have hword : ascii word = p.chars.map byte := by rw [ascii, hlt.1]
  rw [hword, List.length_map] at h
  by_cases htake : (Utf8.text cs).take p.chars.length = p.chars.map byte
  · rw [if_pos htake] at h
    obtain ⟨cs', rfl⟩ := take_word hlt.2 htake
    rw [Utf8.text_append, text_word hlt.2] at h
    have hdrop : (p.chars.map byte ++ Utf8.text cs').drop p.chars.length = Utf8.text cs' := by
      rw [List.drop_append_of_le_length (by simp), List.drop_of_length_le (by simp), List.nil_append]
    rw [hdrop] at h
    cases h
    exact ⟨p, cs', rfl, rfl, rfl, hw⟩
  · rw [if_neg htake] at h
    cases h

/-- The switch of `parse_value`, once its containers are sound. -/
theorem parseValueBy_sound {levels : ℕ} {container : Container → Bytes → Except JsonError (JsonValue × Bytes)}
    (hcont : ∀ (type : Container) (cs : List Char) (v : JsonValue) (r : Bytes),
      container type (Utf8.text (type.openChar :: cs)) = .ok (v, r) →
      ∃ (p : Phrase) (cs' : List Char), type.openChar :: cs = p.chars ++ cs' ∧ r = Utf8.text cs' ∧
        v = stored p.tree ∧ Within finite levels p.tree) :
    TakesPhrases finite levels (parseValueBy finite length container) := by
  intro cs v r h
  cases ht : Utf8.text cs with
  | nil => rw [ht] at h; cases h
  | cons b bs =>
    rw [ht, parseValueBy, ← ht] at h
    by_cases h1 : b = byte '\x7b'
    · rw [if_pos h1] at h
      obtain ⟨cs', rfl, -⟩ := text_eq_byte_cons (c := '\x7b') (by decide) (h1 ▸ ht)
      exact hcont .object cs' v r h
    rw [if_neg h1] at h
    by_cases h2 : b = byte '['
    · rw [if_pos h2] at h
      obtain ⟨cs', rfl, -⟩ := text_eq_byte_cons (c := '[') (by decide) (h2 ▸ ht)
      exact hcont .array cs' v r h
    rw [if_neg h2] at h
    by_cases h3 : b = byte '"'
    · rw [if_pos h3] at h
      obtain ⟨cs', rfl, -⟩ := text_eq_byte_cons (c := '"') (by decide) (h3 ▸ ht)
      obtain ⟨⟨o, r'⟩, hs, hv⟩ := bind_eq_ok.mp h
      obtain ⟨s, cs'', hcs, rfl, rfl⟩ := parseStringBytes_sound hs
      cases hv
      exact ⟨.string s, cs'', hcs, rfl, rfl, by simp [Phrase.tree, Within]⟩
    rw [if_neg h3] at h
    by_cases h4 : b = byte 't'
    · rw [if_pos h4] at h
      exact parseLiteral_sound (p := .true) (by simp [Phrase.chars]) (by simp [Phrase.tree, Within]) h
    rw [if_neg h4] at h
    by_cases h5 : b = byte 'f'
    · rw [if_pos h5] at h
      exact parseLiteral_sound (p := .false) (by simp [Phrase.chars]) (by simp [Phrase.tree, Within]) h
    rw [if_neg h5] at h
    by_cases h6 : b = byte 'n'
    · rw [if_pos h6] at h
      exact parseLiteral_sound (p := .null) (by simp [Phrase.chars]) (by simp [Phrase.tree, Within]) h
    rw [if_neg h6] at h
    by_cases h7 : b = byte '-' ∨ isDigit b = true
    · rw [if_pos h7] at h
      obtain ⟨n, cs', hcs, hr, rfl, hw⟩ := parseNumber_sound h
      exact ⟨.number n, cs', hcs, hr, (stored_number n).symm, hw⟩
    · rw [if_neg h7] at h
      cases h

theorem parseValue_sound : ∀ levels, TakesPhrases finite levels (parseValue finite length levels)
  | 0 => parseValueBy_sound fun _ _ _ _ h => by cases h
  | levels + 1 => parseValueBy_sound fun _ _ _ _ h => parseContainer_sound (parseValue_sound levels) h

/-! ## Completeness -/

/-- A character that starts a value. -/
structure Starts (c : Char) : Prop where
  ascii : c.toNat < 0x80
  not_space : isSpace (byte c) = false
  not_close : ∀ type : Container, byte c ≠ type.close

theorem starts_digit (d : Fin 10) : Starts (digitChar d) := by
  refine ⟨digitChar_lt d, ?_, ?_⟩
  · revert d
    decide
  · intro type
    cases type <;> (revert d; decide)

theorem starts_of_decide {c : Char} (h : c.toNat < 0x80 ∧ isSpace (byte c) = false ∧
    byte c ≠ Container.array.close ∧ byte c ≠ Container.object.close) : Starts c := by
  refine ⟨h.1, h.2.1, fun type => ?_⟩
  cases type with
  | array => exact h.2.2.1
  | object => exact h.2.2.2

theorem number_head (n : Number) : ∃ c cs, n.chars = c :: cs ∧ Starts c ∧ (c = '-' ∨ isDigit (byte c) = true) := by
  obtain ⟨minus, i, frac, exp⟩ := n
  cases minus with
  | true => exact ⟨'-', _, rfl, starts_of_decide (by decide), Or.inl rfl⟩
  | false =>
    cases i with
    | zero => exact ⟨'0', _, rfl, starts_of_decide (by decide), Or.inr (by decide)⟩
    | nonzero first ds =>
      refine ⟨Char.ofNat (0x31 + first.val), _, rfl, starts_of_decide ?_, Or.inr ?_⟩
      · revert first
        decide
      · exact (firstDigit_facts first).2.2.2.2

theorem phrase_head : ∀ p : Phrase, ∃ c cs, p.chars = c :: cs ∧ Starts c
  | .null => ⟨'n', _, by rw [Phrase.chars], starts_of_decide (by decide)⟩
  | .false => ⟨'f', _, by rw [Phrase.chars], starts_of_decide (by decide)⟩
  | .true => ⟨'t', _, by rw [Phrase.chars], starts_of_decide (by decide)⟩
  | .number n => by
    obtain ⟨c, cs, h, hs, -⟩ := number_head n
    exact ⟨c, cs, by rw [Phrase.chars, h], hs⟩
  | .string s => ⟨'"', strChars s ++ ['"'], by rw [Phrase.chars]; rfl, starts_of_decide (by decide)⟩
  | .empty type w => ⟨type.openChar, _, by rw [Phrase.chars], starts_of_decide (by cases type <;> decide)⟩
  | .container type es => ⟨type.openChar, _, by rw [Phrase.chars], starts_of_decide (by cases type <;> decide)⟩

/-- Bytes that whitespace skipping leaves alone. -/
def Solid (r : Bytes) : Prop := ∃ b r', r = b :: r' ∧ isSpace b = false

theorem skipWhitespace_solid {r : Bytes} (h : Solid r) : skipWhitespace r = r := by
  obtain ⟨b, r', rfl, hb⟩ := h
  exact skipWhitespace_cons hb

theorem solid_phrase (p : Phrase) (r : Bytes) : Solid (Utf8.text p.chars ++ r) := by
  obtain ⟨c, cs, h, hs⟩ := phrase_head p
  exact ⟨byte c, Utf8.text cs ++ r, by rw [h, text_ascii hs.ascii]; rfl, hs.not_space⟩

theorem follow_cons {b : UInt8} {r : Bytes} (h : isDigit b = false ∧ b ≠ byte '.' ∧ b ≠ byte 'e' ∧ b ≠ byte 'E') :
    Follow (b :: r) := by
  refine ⟨fun b' hb' => ?_, ?_, ?_⟩
  · cases hb'
    exact h.1
  · rw [List.head?_cons]
    exact fun he => h.2.1 (Option.some.inj he)
  · rw [List.head?_cons]
    rintro (he | he)
    · exact h.2.2.1 (Option.some.inj he)
    · exact h.2.2.2 (Option.some.inj he)

/-- Whitespace never continues a number. -/
theorem follow_ws {r : Bytes} (w : Ws) (h : Follow r) : Follow (Utf8.text w.val ++ r) := by
  obtain ⟨w, hw⟩ := w
  cases w with
  | nil => exact h
  | cons c w =>
    rw [List.all_cons, Bool.and_eq_true] at hw
    have hc := hw.1
    simp only [text_ascii (isWs_ascii hc).1, List.cons_append]
    refine follow_cons ?_
    simp only [isWs, Bool.or_eq_true, beq_iff_eq] at hc
    rcases hc with ((rfl | rfl) | rfl) | rfl <;> decide

theorem follow_comma (r : Bytes) : Follow (byte ',' :: r) := follow_cons (by decide)

theorem follow_close (type : Container) (r : Bytes) : Follow (type.close :: r) :=
  follow_cons (by cases type <;> decide)

/-- `item` takes every phrase that keeps the limits of `levels`. -/
def TakesAll (finite : Bytes → Bool) (levels : ℕ) (item : Bytes → Except JsonError (JsonValue × Bytes)) : Prop :=
  ∀ p : Phrase, Within finite levels p.tree → ∀ r, Follow r → item (Utf8.text p.chars ++ r) = .ok (stored p.tree, r)

theorem memberKey_complete {type : Container} (lead : Lead type) {r : Bytes} (hr : Solid r) :
    memberKey length type (skipWhitespace (Utf8.text lead.chars ++ r)) = .ok (Utf8.encodeAll lead.label, r) := by
  cases lead with
  | item w =>
    rw [Lead.chars, skipWhitespace_append w.property, skipWhitespace_solid hr]
    rfl
  | key w s w₁ w₂ =>
    have hquote : ∀ x : Bytes, Utf8.text (quoted s) ++ x = byte '"' :: (Utf8.text (strChars s) ++ byte '"' :: x) := by
      intro x
      rw [text_quoted]
      simp
    have hskip : skipWhitespace (Utf8.text (Lead.chars (.key w s w₁ w₂)) ++ r) =
        Utf8.text (quoted s) ++ (Utf8.text w₁.val ++ byte ':' :: (Utf8.text w₂.val ++ r)) := by
      rw [Lead.chars, Utf8.text_append, Utf8.text_append, Utf8.text_append, text_ascii (by decide), List.append_assoc,
        List.append_assoc, List.append_assoc, List.cons_append, skipWhitespace_append w.property, hquote]
      exact skipWhitespace_cons (by decide)
    have hcolon : skipWhitespace (Utf8.text w₁.val ++ byte ':' :: (Utf8.text w₂.val ++ r)) =
        byte ':' :: (Utf8.text w₂.val ++ r) := by
      rw [skipWhitespace_append w₁.property]
      exact skipWhitespace_cons (by decide)
    rw [hskip]
    unfold memberKey parseKey
    have hhead : (Utf8.text (quoted s) ++ (Utf8.text w₁.val ++ byte ':' :: (Utf8.text w₂.val ++ r))).head? =
        some (byte '"') := by
      rw [hquote]
      rfl
    simp only [hhead, parseStringBytes_complete, hcolon, List.head?_cons, ne_eq, not_true_eq_false, if_false,
      List.drop_succ_cons, List.drop_zero]
    rw [skipWhitespace_append w₂.property, skipWhitespace_solid hr]
    rfl

theorem containerLoop_complete {levels : ℕ} {item : Bytes → Except JsonError (JsonValue × Bytes)} {type : Container}
    (hitem : TakesAll finite levels item) (r : Bytes) :
    ∀ (es : Entries type) (fuel : ℕ) (members : List (Bytes × JsonValue)), (Utf8.text es.chars).length < fuel →
      (∀ m ∈ es.members, Within finite levels m.2) →
      containerLoop length item type fuel members (skipWhitespace (Utf8.text es.chars ++ type.close :: r)) =
        .ok (members ++ es.members.map storedMember, r)
  | .one lead p w, fuel, members, hf, hw => by
    obtain ⟨fuel, rfl⟩ : ∃ k, fuel = k + 1 := ⟨fuel - 1, by omega⟩
    have hp : Within finite levels p.tree := hw (lead.label, p.tree) (by simp [Entries.members])
    have hassoc : Utf8.text (Entries.one lead p w).chars ++ type.close :: r =
        Utf8.text lead.chars ++ (Utf8.text p.chars ++ (Utf8.text w.val ++ type.close :: r)) := by
      simp [Entries.chars]
    have hend : skipWhitespace (Utf8.text w.val ++ type.close :: r) = type.close :: r := by
      rw [skipWhitespace_append w.property]
      exact skipWhitespace_cons (by cases type <;> decide)
    have hcomma : ¬ some type.close = some (byte ',') := by cases type <;> decide
    rw [hassoc, containerLoop, memberKey_complete lead (solid_phrase p _), ok_bind]
    simp only
    rw [hitem p hp _ (follow_ws w (follow_close type r)), ok_bind]
    simp only [hend, List.head?_cons, hcomma, if_true, if_false, List.drop_succ_cons, List.drop_zero]
    rfl
  | .more lead p w rest, fuel, members, hf, hw => by
    obtain ⟨fuel, rfl⟩ : ∃ k, fuel = k + 1 := ⟨fuel - 1, by omega⟩
    have hp : Within finite levels p.tree := hw (lead.label, p.tree) (by simp [Entries.members])
    have hassoc : Utf8.text (Entries.more lead p w rest).chars ++ type.close :: r =
        Utf8.text lead.chars ++ (Utf8.text p.chars ++ (Utf8.text w.val ++ byte ',' ::
          (Utf8.text rest.chars ++ type.close :: r))) := by
      simp only [Entries.chars, Utf8.text_append, text_ascii (c := ',') (by decide), List.append_assoc, List.cons_append]
    have hend : skipWhitespace (Utf8.text w.val ++ byte ',' :: (Utf8.text rest.chars ++ type.close :: r)) =
        byte ',' :: (Utf8.text rest.chars ++ type.close :: r) := by
      rw [skipWhitespace_append w.property]
      exact skipWhitespace_cons (by decide)
    have hlen : (Utf8.text rest.chars).length < fuel := by
      have hle : (Utf8.text rest.chars).length < (Utf8.text (Entries.more lead p w rest).chars).length := by
        simp only [Entries.chars, Utf8.text_append, text_ascii (c := ',') (by decide), List.length_append,
          List.length_cons]
        omega
      omega
    rw [hassoc, containerLoop, memberKey_complete lead (solid_phrase p _), ok_bind]
    simp only
    rw [hitem p hp _ (follow_ws w (follow_comma _)), ok_bind]
    simp only [hend, List.head?_cons, if_true, List.drop_succ_cons, List.drop_zero]
    rw [containerLoop_complete hitem r rest fuel _ hlen fun m hm => hw m (by simp [Entries.members, hm])]
    simp [Entries.members, storedMember]

theorem codePoints_lt (s : List StrChar) : ∀ u ∈ StrChar.codePoints s, u < 0x110000 := by
  induction s using StrChar.codePoints.induct with
  | case1 => simp [StrChar.codePoints]
  | case2 c hc s ih =>
    rw [StrChar.codePoints, List.forall_mem_cons]
    exact ⟨Utf8.toNat_lt c, ih⟩
  | case3 e s ih =>
    rw [StrChar.codePoints, List.forall_mem_cons]
    exact ⟨by cases e <;> decide, ih⟩
  | case4 a b c d a' b' c' d' s hp ih =>
    rw [codePoints_pair hp.1 hp.2, List.forall_mem_cons]
    exact ⟨pair_lt hp.1 hp.2, ih⟩
  | case5 a b c d a' b' c' d' s hp ih =>
    rw [StrChar.codePoints, if_neg hp, List.forall_mem_cons]
    exact ⟨Nat.lt_trans (unit_lt a b c d) (by decide), ih⟩
  | case6 a b c d s hs ih =>
    rw [codePoints_lone fun _ a' b' c' d' s' he => absurd he (hs a' b' c' d' s'), List.forall_mem_cons]
    exact ⟨Nat.lt_trans (unit_lt a b c d) (by decide), ih⟩

theorem label_lt {type : Container} (lead : Lead type) : ∀ u ∈ lead.label, u < 0x110000 := by
  cases lead with
  | item w => simp [Lead.label]
  | key w s w₁ w₂ => exact codePoints_lt s

theorem members_key_lt {type : Container} : ∀ es : Entries type, ∀ m ∈ es.members, ∀ u ∈ m.1, u < 0x110000
  | .one lead p w => by
    rw [Entries.members, List.forall_mem_singleton]
    exact label_lt lead
  | .more lead p w rest => by
    rw [Entries.members, List.forall_mem_cons]
    exact ⟨label_lt lead, members_key_lt rest⟩

theorem entries_head {type : Container} (es : Entries type) (r : Bytes) :
    ∃ b r', skipWhitespace (Utf8.text es.chars ++ r) = b :: r' ∧ b ≠ type.close := by
  -- the value of an array entry, the quote of a key
  have hlead : ∀ (lead : Lead type) (p : Phrase) (x : Bytes),
      ∃ b r', skipWhitespace (Utf8.text lead.chars ++ (Utf8.text p.chars ++ x)) = b :: r' ∧ b ≠ type.close := by
    intro lead p x
    cases lead with
    | item w =>
      obtain ⟨c, cs, hc, hs⟩ := phrase_head p
      rw [Lead.chars, skipWhitespace_append w.property, skipWhitespace_solid (solid_phrase p x), hc,
        text_ascii hs.ascii]
      exact ⟨_, _, rfl, hs.not_close _⟩
    | key w s w₁ w₂ =>
      refine ⟨byte '"', Utf8.text (strChars s) ++ [byte '"'] ++ (Utf8.text (w₁.val ++ ':' :: w₂.val) ++
        (Utf8.text p.chars ++ x)), ?_, by decide⟩
      rw [Lead.chars, Utf8.text_append, List.append_assoc, skipWhitespace_append w.property, Utf8.text_append,
        text_quoted]
      simp only [List.cons_append, List.append_assoc]
      exact skipWhitespace_cons (by decide)
  cases es with
  | one lead p w =>
    have := hlead lead p (Utf8.text w.val ++ r)
    simpa only [Entries.chars, Utf8.text_append, List.append_assoc] using this
  | more lead p w rest =>
    have := hlead lead p (Utf8.text w.val ++ (Utf8.text (',' :: rest.chars) ++ r))
    simpa only [Entries.chars, Utf8.text_append, List.append_assoc] using this

theorem parseContainer_complete {levels : ℕ} {item : Bytes → Except JsonError (JsonValue × Bytes)} {type : Container}
    (hitem : TakesAll finite levels item) {es : Entries type} (hw : Within finite (levels + 1) (type.value es.members))
    (r : Bytes) : parseContainer length item type (Utf8.text (Phrase.container type es).chars ++ r) =
      .ok (stored (type.value es.members), r) := by
  obtain ⟨hnodup, hall⟩ := within_value.mp hw
  have htext : Utf8.text (Phrase.container type es).chars ++ r =
      byte type.openChar :: (Utf8.text es.chars ++ type.close :: r) := by
    rw [Phrase.chars, text_ascii (openChar_lt type), Utf8.text_append, text_ascii (closeChar_lt type), ← close_eq]
    simp
  obtain ⟨b, r', hskip, hne⟩ := entries_head es (type.close :: r)
  have hloop := @containerLoop_complete finite length _ _ _ hitem r es
    (byte type.openChar :: (Utf8.text es.chars ++ type.close :: r)).length [] (by simp) hall
  have hcheck : checkMembers type ([] ++ es.members.map storedMember) = .ok () := by
    cases type with
    | array => rfl
    | object =>
      refine rejectDuplicateKeys_eq_ok.mpr ?_
      have hmap : (es.members.map storedMember).map (·.1) = (es.members.map (·.1)).map Utf8.encodeAll := by
        rw [List.map_map, List.map_map]
        rfl
      rw [List.nil_append, hmap]
      refine (hnodup rfl).map_on fun k hk k' hk' he => ?_
      obtain ⟨m, hm, rfl⟩ := List.mem_map.mp hk
      obtain ⟨m', hm', rfl⟩ := List.mem_map.mp hk'
      exact Utf8.encodeAll_inj (members_key_lt es m hm) (members_key_lt es m' hm') he
  unfold parseContainer
  rw [htext, List.drop_succ_cons, List.drop_zero]
  have hhead : ¬ (skipWhitespace (Utf8.text es.chars ++ type.close :: r)).head? = some type.close := by
    rw [hskip, List.head?_cons]
    exact fun he => hne (Option.some.inj he)
  simp only [if_neg hhead, hloop, ok_bind, hcheck, stored_value]
  rfl

theorem parseLiteral_complete {word : String} {v : JsonValue} {p : Phrase} (r : Bytes)
    (hlt : word.toList = p.chars ∧ ∀ c ∈ p.chars, c.toNat < 0x80) :
    parseLiteral length (Utf8.text p.chars ++ r) word v = .ok (v, r) := by
  have hword : ascii word = Utf8.text p.chars := by rw [text_word hlt.2, ascii, hlt.1]
  unfold parseLiteral
  rw [hword, if_pos List.take_left, List.drop_left]

/-- The switch of `parse_value`, once its containers take every container phrase. -/
theorem parseValueBy_complete {levels : ℕ} {container : Container → Bytes → Except JsonError (JsonValue × Bytes)}
    (hempty : ∀ type w r, Within finite levels (Phrase.empty type w).tree →
      container type (Utf8.text (Phrase.empty type w).chars ++ r) = .ok (stored (Phrase.empty type w).tree, r))
    (hcont : ∀ type es r, Within finite levels (Phrase.container type es).tree →
      container type (Utf8.text (Phrase.container type es).chars ++ r) =
        .ok (stored (Phrase.container type es).tree, r)) :
    TakesAll finite levels (parseValueBy finite length container) := by
  intro p hw r hr
  have hopen : ∀ (type : Container) (cs : List Char), parseValueBy finite length container
      (Utf8.text (type.openChar :: cs) ++ r) = container type (Utf8.text (type.openChar :: cs) ++ r) := by
    intro type cs
    rw [text_ascii (openChar_lt type)]
    cases type <;> rfl
  cases p with
  | null =>
    rw [← @parseLiteral_complete length "null" _ .null r (by simp [Phrase.chars])]
    rfl
  | false =>
    rw [← @parseLiteral_complete length "false" _ .false r (by simp [Phrase.chars])]
    rfl
  | true =>
    rw [← @parseLiteral_complete length "true" _ .true r (by simp [Phrase.chars])]
    rfl
  | number n =>
    obtain ⟨c, cs, hc, hs, hd⟩ := number_head n
    have hd' : byte c = byte '-' ∨ isDigit (byte c) = true := hd.imp_left (congrArg byte)
    have hne : byte c ≠ byte '\x7b' ∧ byte c ≠ byte '[' ∧ byte c ≠ byte '"' ∧ byte c ≠ byte 't' ∧
        byte c ≠ byte 'f' ∧ byte c ≠ byte 'n' := by
      rcases hd' with h | h
      · rw [h]
        decide
      · obtain ⟨d, hd⟩ := isDigit_byte h
        rw [hd]
        clear hd
        revert d
        decide
    obtain ⟨h1, h2, h3, h4, h5, h6⟩ := hne
    have hnum := @parseNumber_complete length _ _ _ n _ hr hw
    rw [Phrase.tree, stored_number]
    rw [← hnum, Phrase.chars, hc, text_ascii hs.ascii, List.cons_append, parseValueBy, if_neg h1, if_neg h2,
      if_neg h3, if_neg h4, if_neg h5, if_neg h6, if_pos hd']
  | string s =>
    have hs := @parseStringBytes_complete length s r
    rw [Phrase.chars, text_quoted] at *
    unfold parseValueBy
    rw [List.cons_append]
    simp only
    rw [if_neg (by decide), if_neg (by decide), if_pos (by decide), ← List.cons_append, hs]
    rfl
  | empty type w =>
    rw [Phrase.chars, hopen, ← Phrase.chars]
    exact hempty type w r hw
  | container type es =>
    rw [Phrase.chars, hopen, ← Phrase.chars]
    exact hcont type es r hw

theorem parseContainer_empty {item : Bytes → Except JsonError (JsonValue × Bytes)} (type : Container) (w : Ws)
    (r : Bytes) : parseContainer length item type (Utf8.text (Phrase.empty type w).chars ++ r) =
      .ok (stored (Phrase.empty type w).tree, r) := by
  have htext : Utf8.text (Phrase.empty type w).chars ++ r =
      byte type.openChar :: (Utf8.text w.val ++ type.close :: r) := by
    rw [Phrase.chars, text_ascii (openChar_lt type), Utf8.text_append, text_ascii (closeChar_lt type), ← close_eq]
    simp
  have hskip : skipWhitespace (Utf8.text w.val ++ type.close :: r) = type.close :: r := by
    rw [skipWhitespace_append w.property]
    exact skipWhitespace_cons (by cases type <;> decide)
  unfold parseContainer
  rw [htext, List.drop_succ_cons, List.drop_zero]
  simp only [hskip, List.head?_cons, if_true, List.drop_succ_cons, List.drop_zero, Phrase.tree, stored_value]
  rfl

theorem parseValue_complete : ∀ levels, TakesAll finite levels (parseValue finite length levels)
  | 0 => parseValueBy_complete
      (fun _ _ _ hw => absurd (Phrase.tree.eq_6 _ _ ▸ hw) not_within_zero_value)
      (fun _ _ _ hw => absurd (Phrase.tree.eq_7 _ _ ▸ hw) not_within_zero_value)
  | levels + 1 => parseValueBy_complete
      (fun type w r _ => parseContainer_empty type w r)
      (fun type es r hw => by
        rw [Phrase.tree] at hw ⊢
        exact parseContainer_complete (parseValue_complete levels) hw r)

/-! ## Documents -/

theorem jsonParse_sound {text : Bytes} {v : JsonValue} (h : jsonParse finite text = .ok v) :
    ∃ t, Document finite text t ∧ v = stored t := by
  unfold jsonParse at h
  split_ifs at h with hvalid
  · cases h
  obtain ⟨cs, rfl⟩ := jsonUtf8Valid_iff.mp (by simpa using hvalid)
  obtain ⟨⟨v', r⟩, hval, h⟩ := bind_eq_ok.mp h
  obtain ⟨w, cs1, rfl, hskip⟩ := skipWhitespace_text cs
  rw [hskip] at hval
  obtain ⟨p, cs2, rfl, rfl, rfl, hw⟩ := parseValue_sound _ _ _ _ hval
  obtain ⟨w', cs3, rfl, hskip'⟩ := skipWhitespace_text cs2
  simp only [hskip'] at h
  split_ifs at h with hrest
  · cases h
  cases h
  have hnil : cs3 = [] := by
    cases cs3 with
    | nil => rfl
    | cons c cs3 =>
      rw [not_not, Utf8.text_cons, Utf8.encodeChar_eq] at hrest
      exact absurd (List.append_eq_nil_iff.mp hrest).1 (Utf8.encode_ne_nil _)
  subst hnil
  exact ⟨p.tree, ⟨p, w, w', by simp, rfl, hw⟩, rfl⟩

theorem jsonParse_complete {text : Bytes} {t : Json (List ℕ)} (h : Document finite text t) :
    jsonParse finite text = .ok (stored t) := by
  obtain ⟨p, w, w', rfl, rfl, hw⟩ := h
  have hvalid : jsonUtf8Valid (Utf8.text (w.val ++ (p.chars ++ w'.val))) = true := jsonUtf8Valid_iff.mpr ⟨_, rfl⟩
  have hfollow : Follow (Utf8.text w'.val) := by
    have := follow_ws (r := []) w' ⟨fun _ hb => (nomatch hb), nofun, by simp⟩
    rwa [List.append_nil] at this
  have hskip : skipWhitespace (Utf8.text (w.val ++ (p.chars ++ w'.val))) = Utf8.text p.chars ++ Utf8.text w'.val := by
    rw [Utf8.text_append, Utf8.text_append, skipWhitespace_append w.property, skipWhitespace_solid (solid_phrase p _)]
  have hend : skipWhitespace (Utf8.text w'.val) = [] := by
    have := skipWhitespace_append w'.property []
    rwa [List.append_nil] at this
  unfold jsonParse
  rw [if_neg (Bool.not_eq_false _ ▸ hvalid), hskip, parseValue_complete _ p hw _ hfollow, ok_bind]
  simp only [hend, ne_eq, not_true_eq_false, if_false]

/-- **The reader accepts exactly its grammar**, and returns the value that the document denotes. -/
theorem jsonParse_eq_ok (finite : Bytes → Bool) (text : Bytes) (v : JsonValue) :
    jsonParse finite text = .ok v ↔ ∃ t, Document finite text t ∧ v = stored t := by
  constructor
  · exact jsonParse_sound
  · rintro ⟨t, ht, rfl⟩
    exact jsonParse_complete ht

end Hamn.StrictJson
