import Hamn.Guest.JsonParse

/-!
# JsonUnique — a text is a document in one way only

Two phrases that derive the same text, followed by what may follow a value, have the same value and the same rest.
Tokens are compared through the reader, which needs no limits for them; containers by induction on the phrase.

* `phrase_unique`: the value at the front of a text.
* `document_unique`: the value of a document.
-/

open Bytes

namespace Hamn.StrictJson

/-! ## Numbers -/

theorem frac_none_iff (n : Number) {r : Bytes} (hr : Follow r) :
    (Utf8.text (fracChars n.frac) ++ (Utf8.text (expChars n.exp) ++ r)).head? ≠ some (byte '.') ↔ n.frac = none := by
  obtain ⟨-, hdot⟩ := follow_expChars n hr
  unfold fracChars
  cases n.frac with
  | none => simpa using hdot
  | some d =>
    simp only [text_fracChars]
    simp

theorem exp_none_iff (n : Number) {r : Bytes} (hr : Follow r) :
    ¬ ((Utf8.text (expChars n.exp) ++ r).head? = some (byte 'e') ∨
      (Utf8.text (expChars n.exp) ++ r).head? = some (byte 'E')) ↔ n.exp = none := by
  unfold expChars
  cases n.exp with
  | none => simpa using hr.exp
  | some e =>
    simp only [text_expChars]
    cases e.upper <;> simp

/-- What the reader has left after each part of a number. -/
theorem number_rests (n : Number) {r : Bytes} (hr : Follow r) :
    numberInt 0 (Utf8.text n.chars ++ r) = .ok (Utf8.text (fracChars n.frac) ++ (Utf8.text (expChars n.exp) ++ r)) ∧
      numberFrac 0 (Utf8.text (fracChars n.frac) ++ (Utf8.text (expChars n.exp) ++ r)) =
        .ok (Utf8.text (expChars n.exp) ++ r) ∧
      numberExp 0 (Utf8.text (expChars n.exp) ++ r) = .ok r := by
  obtain ⟨hexp, hdot⟩ := follow_expChars n hr
  refine ⟨?_, @numberFrac_complete 0 n _ hexp hdot, @numberExp_complete 0 n _ hr.digit hr.exp⟩
  have h := @numberInt_complete 0 n _ (noDigit_fracChars n hexp)
  rw [text_chars]
  simpa only [List.append_assoc] using h

theorem number_unique {S : Type} {n n' : Number} {r r' : Bytes} (hr : Follow r) (hr' : Follow r')
    (h : Utf8.text n.chars ++ r = Utf8.text n'.chars ++ r') : (n.tree : Json S) = n'.tree ∧ r = r' := by
  obtain ⟨h1, h2, h3⟩ := number_rests n hr
  obtain ⟨h1', h2', h3'⟩ := number_rests n' hr'
  rw [h, h1'] at h1
  have hfrac := Except.ok.inj h1
  rw [← hfrac, h2'] at h2
  have hexp := Except.ok.inj h2
  rw [← hexp, h3'] at h3
  have hrest := Except.ok.inj h3
  subst hrest
  have hchars := List.append_cancel_right h
  have hint : n.isInteger = n'.isInteger := by
    rw [Bool.eq_iff_iff]
    simp only [Number.isInteger, Bool.and_eq_true, Option.isNone_iff_eq_none]
    rw [← frac_none_iff n hr, ← exp_none_iff n hr, ← frac_none_iff n' hr', ← exp_none_iff n' hr', hfrac, hexp]
  refine ⟨?_, rfl⟩
  rw [Number.tree, Number.tree, hint, hchars]

/-! ## Kinds of values -/

/-- What the first byte of a value says about it. -/
def kindOf (b : UInt8) : ℕ :=
  if b = byte 'n' then 0
  else if b = byte 'f' then 1
  else if b = byte 't' then 2
  else if b = byte '"' then 3
  else if b = byte '[' ∨ b = byte '\x7b' then 4
  else 5

def Phrase.kind : Phrase → ℕ
  | .null => 0
  | .false => 1
  | .true => 2
  | .number _ => 5
  | .string _ => 3
  | .empty _ _ => 4
  | .container _ _ => 4

theorem kindOf_open (t : Container) : kindOf (byte t.openChar) = 4 := by cases t <;> decide

theorem open_inj {t t' : Container} (h : byte t.openChar = byte t'.openChar) : t = t' := by
  revert h
  cases t <;> cases t' <;> decide

theorem kindOf_number {b : UInt8} (h : b = byte '-' ∨ isDigit b = true) : kindOf b = 5 := by
  rcases h with rfl | h
  · decide
  · obtain ⟨d, rfl⟩ := isDigit_byte h
    clear h
    revert d
    decide

theorem head_kind (p : Phrase) (r : Bytes) :
    ((Utf8.text p.chars ++ r).head?).map kindOf = some p.kind := by
  cases p with
  | null => rfl
  | false => rfl
  | true => rfl
  | number n =>
    obtain ⟨c, cs, hc, hs, hd⟩ := number_head n
    rw [Phrase.chars, hc, text_ascii hs.ascii, List.cons_append, List.head?_cons, Option.map_some,
      kindOf_number (hd.imp_left (congrArg byte))]
    rfl
  | string s =>
    rw [Phrase.chars, text_quoted]
    rfl
  | empty t w =>
    rw [Phrase.chars, text_ascii (openChar_lt t), List.cons_append, List.head?_cons, Option.map_some, kindOf_open]
    rfl
  | container t es =>
    rw [Phrase.chars, text_ascii (openChar_lt t), List.cons_append, List.head?_cons, Option.map_some, kindOf_open]
    rfl

theorem kind_eq {p p' : Phrase} {r r' : Bytes} (h : Utf8.text p.chars ++ r = Utf8.text p'.chars ++ r') :
    p.kind = p'.kind := by
  have := head_kind p r
  rw [h, head_kind p' r'] at this
  exact (Option.some.inj this).symm

/-! ## Containers -/

theorem text_empty (t : Container) (w : Ws) (r : Bytes) :
    Utf8.text (Phrase.empty t w).chars ++ r = byte t.openChar :: (Utf8.text w.val ++ t.close :: r) := by
  rw [Phrase.chars, text_ascii (openChar_lt t), Utf8.text_append, text_ascii (closeChar_lt t), ← close_eq]
  simp

theorem text_entries (t : Container) (es : Entries t) (r : Bytes) :
    Utf8.text (Phrase.container t es).chars ++ r = byte t.openChar :: (Utf8.text es.chars ++ t.close :: r) := by
  rw [Phrase.chars, text_ascii (openChar_lt t), Utf8.text_append, text_ascii (closeChar_lt t), ← close_eq]
  simp

theorem skip_close (t : Container) (w : Ws) (r : Bytes) :
    skipWhitespace (Utf8.text w.val ++ t.close :: r) = t.close :: r := by
  rw [skipWhitespace_append w.property]
  exact skipWhitespace_cons (by cases t <;> decide)

theorem skip_comma (w : Ws) (r : Bytes) : skipWhitespace (Utf8.text w.val ++ byte ',' :: r) = byte ',' :: r := by
  rw [skipWhitespace_append w.property]
  exact skipWhitespace_cons (by decide)

theorem close_ne_comma (t : Container) : t.close ≠ byte ',' := by cases t <;> decide

theorem empty_unique {t : Container} {w w' : Ws} {r r' : Bytes}
    (h : Utf8.text w.val ++ t.close :: r = Utf8.text w'.val ++ t.close :: r') : r = r' := by
  have := congrArg skipWhitespace h
  rw [skip_close, skip_close] at this
  exact (List.cons.inj this).2

theorem empty_ne_entries {t : Container} {w : Ws} {es : Entries t} {r r' : Bytes}
    (h : Utf8.text w.val ++ t.close :: r = Utf8.text es.chars ++ t.close :: r') : False := by
  obtain ⟨b, x, hskip, hne⟩ := entries_head es (t.close :: r')
  rw [← h, skip_close] at hskip
  exact hne (List.cons.inj hskip).1.symm

/-- What stands before the values of two entries is the same key, and what follows it is the same. -/
theorem lead_unique {t : Container} {lead lead' : Lead t} {r r' : Bytes} (hr : Solid r) (hr' : Solid r')
    (h : Utf8.text lead.chars ++ r = Utf8.text lead'.chars ++ r') :
    Utf8.encodeAll lead.label = Utf8.encodeAll lead'.label ∧ r = r' := by
  have h1 := @memberKey_complete 0 t lead r hr
  rw [h, @memberKey_complete 0 t lead' r' hr'] at h1
  obtain ⟨h2, h3⟩ := Prod.mk.inj (Except.ok.inj h1)
  exact ⟨h2.symm, h3.symm⟩

theorem text_one {t : Container} (lead : Lead t) (p : Phrase) (w : Ws) (r : Bytes) :
    Utf8.text (Entries.one lead p w).chars ++ t.close :: r =
      Utf8.text lead.chars ++ (Utf8.text p.chars ++ (Utf8.text w.val ++ t.close :: r)) := by
  simp [Entries.chars]

theorem text_more {t : Container} (lead : Lead t) (p : Phrase) (w : Ws) (rest : Entries t) (r : Bytes) :
    Utf8.text (Entries.more lead p w rest).chars ++ t.close :: r =
      Utf8.text lead.chars ++ (Utf8.text p.chars ++ (Utf8.text w.val ++ byte ',' ::
        (Utf8.text rest.chars ++ t.close :: r))) := by
  have hcomma : ∀ cs, Utf8.text (',' :: cs) = byte ',' :: Utf8.text cs := text_ascii (by decide)
  simp only [Entries.chars, Utf8.text_append, hcomma, List.append_assoc, List.cons_append]

/-! ## Values -/

/-- The phrases of each kind. -/
theorem kind_cases (p : Phrase) :
    (p.kind = 0 → p = .null) ∧ (p.kind = 1 → p = .false) ∧ (p.kind = 2 → p = .true) ∧
      (p.kind = 3 → ∃ s, p = .string s) ∧ (p.kind = 5 → ∃ n, p = .number n) ∧
        (p.kind = 4 → (∃ t w, p = .empty t w) ∨ ∃ t es, p = .container t es) := by
  cases p with
  | null => simp [Phrase.kind]
  | false => simp [Phrase.kind]
  | true => simp [Phrase.kind]
  | number n => simp [Phrase.kind]
  | string s => simp [Phrase.kind]
  | empty t w => simp [Phrase.kind]
  | container t es => simp [Phrase.kind]

theorem string_unique {s s' : List StrChar} {r r' : Bytes}
    (h : Utf8.text (quoted s) ++ r = Utf8.text (quoted s') ++ r') :
    Utf8.encodeAll (StrChar.codePoints s) = Utf8.encodeAll (StrChar.codePoints s') ∧ r = r' := by
  have h1 := @parseStringBytes_complete 0 s r
  rw [h, @parseStringBytes_complete 0 s' r'] at h1
  obtain ⟨h2, h3⟩ := Prod.mk.inj (Except.ok.inj h1)
  exact ⟨h2.symm, h3.symm⟩

mutual
/-- **Unambiguous**: the value at the front of a text, and what follows it. -/
theorem phrase_unique : ∀ (p p' : Phrase) {r r' : Bytes}, Follow r → Follow r' →
    Utf8.text p.chars ++ r = Utf8.text p'.chars ++ r' → stored p.tree = stored p'.tree ∧ r = r'
  | .null, p', r, r', _, _, h => by
    obtain rfl := (kind_cases p').1 (kind_eq h).symm
    exact ⟨rfl, List.append_cancel_left h⟩
  | .false, p', r, r', _, _, h => by
    obtain rfl := (kind_cases p').2.1 (kind_eq h).symm
    exact ⟨rfl, List.append_cancel_left h⟩
  | .true, p', r, r', _, _, h => by
    obtain rfl := (kind_cases p').2.2.1 (kind_eq h).symm
    exact ⟨rfl, List.append_cancel_left h⟩
  | .number n, p', r, r', hr, hr', h => by
    obtain ⟨n', rfl⟩ := (kind_cases p').2.2.2.2.1 (kind_eq h).symm
    obtain ⟨h1, h2⟩ := @number_unique (List ℕ) n n' r r' hr hr' h
    exact ⟨congrArg stored h1, h2⟩
  | .string s, p', r, r', _, _, h => by
    obtain ⟨s', rfl⟩ := (kind_cases p').2.2.2.1 (kind_eq h).symm
    obtain ⟨h1, h2⟩ := string_unique h
    exact ⟨congrArg Json.string h1, h2⟩
  | .empty t w, p', r, r', _, _, h => by
    rcases (kind_cases p').2.2.2.2.2 (kind_eq h).symm with ⟨t', w', rfl⟩ | ⟨t', es', rfl⟩
    · rw [text_empty, text_empty] at h
      obtain rfl := open_inj (List.cons.inj h).1
      exact ⟨rfl, empty_unique (List.cons.inj h).2⟩
    · rw [text_empty, text_entries] at h
      obtain rfl := open_inj (List.cons.inj h).1
      exact (empty_ne_entries (List.cons.inj h).2).elim
  | .container t es, p', r, r', _, _, h => by
    rcases (kind_cases p').2.2.2.2.2 (kind_eq h).symm with ⟨t', w', rfl⟩ | ⟨t', es', rfl⟩
    · rw [text_empty, text_entries] at h
      obtain rfl := open_inj (List.cons.inj h).1
      exact (empty_ne_entries (List.cons.inj h).2.symm).elim
    · rw [text_entries, text_entries] at h
      obtain rfl := open_inj (List.cons.inj h).1
      obtain ⟨h1, h2⟩ := entries_unique es es' (List.cons.inj h).2
      refine ⟨?_, h2⟩
      rw [Phrase.tree, Phrase.tree, stored_value, stored_value, h1]

theorem entries_unique {t : Container} : ∀ (es es' : Entries t) {r r' : Bytes},
    Utf8.text es.chars ++ t.close :: r = Utf8.text es'.chars ++ t.close :: r' →
    es.members.map storedMember = es'.members.map storedMember ∧ r = r'
  | .one lead p w, .one lead' p' w', r, r', h => by
    rw [text_one, text_one] at h
    obtain ⟨hkey, h1⟩ := lead_unique (solid_phrase p _) (solid_phrase p' _) h
    obtain ⟨hval, h2⟩ := phrase_unique p p' (follow_ws w (follow_close t r)) (follow_ws w' (follow_close t r')) h1
    refine ⟨?_, empty_unique h2⟩
    simp only [Entries.members, List.map_cons, List.map_nil, storedMember, hkey, hval]
  | .one lead p w, .more lead' p' w' rest', r, r', h => by
    rw [text_one, text_more] at h
    obtain ⟨-, h1⟩ := lead_unique (solid_phrase p _) (solid_phrase p' _) h
    obtain ⟨-, h2⟩ := phrase_unique p p' (follow_ws w (follow_close t r)) (follow_ws w' (follow_comma _)) h1
    have h3 := congrArg skipWhitespace h2
    rw [skip_close, skip_comma] at h3
    exact absurd (List.cons.inj h3).1 (close_ne_comma t)
  | .more lead p w rest, .one lead' p' w', r, r', h => by
    rw [text_one, text_more] at h
    obtain ⟨-, h1⟩ := lead_unique (solid_phrase p _) (solid_phrase p' _) h
    obtain ⟨-, h2⟩ := phrase_unique p p' (follow_ws w (follow_comma _)) (follow_ws w' (follow_close t r')) h1
    have h3 := congrArg skipWhitespace h2
    rw [skip_close, skip_comma] at h3
    exact absurd (List.cons.inj h3).1.symm (close_ne_comma t)
  | .more lead p w rest, .more lead' p' w' rest', r, r', h => by
    rw [text_more, text_more] at h
    obtain ⟨hkey, h1⟩ := lead_unique (solid_phrase p _) (solid_phrase p' _) h
    obtain ⟨hval, h2⟩ := phrase_unique p p' (follow_ws w (follow_comma _)) (follow_ws w' (follow_comma _)) h1
    have h3 := congrArg skipWhitespace h2
    rw [skip_comma, skip_comma] at h3
    obtain ⟨hrest, h4⟩ := entries_unique rest rest' (List.cons.inj h3).2
    refine ⟨?_, h4⟩
    simp only [Entries.members, List.map_cons, storedMember, hkey, hval, List.cons.injEq, true_and]
    exact hrest
end

/-! ## Documents -/

/-- `text` is the phrase `p` between white space. -/
def Derives (text : Bytes) (p : Phrase) : Prop :=
  ∃ before after : Ws, text = Utf8.text (before.val ++ (p.chars ++ after.val))

theorem follow_end (w : Ws) : Follow (Utf8.text w.val) := by
  have h := @follow_ws [] w ⟨fun _ hb => (nomatch hb), nofun, by simp⟩
  rwa [List.append_nil] at h

theorem document_unique {text : Bytes} {p p' : Phrase} (h : Derives text p) (h' : Derives text p') :
    stored p.tree = stored p'.tree := by
  obtain ⟨w, v, rfl⟩ := h
  obtain ⟨w', v', h'⟩ := h'
  have hskip : ∀ (w v : Ws) (p : Phrase), skipWhitespace (Utf8.text (w.val ++ (p.chars ++ v.val))) =
      Utf8.text p.chars ++ Utf8.text v.val := by
    intro w v p
    rw [Utf8.text_append, Utf8.text_append, skipWhitespace_append w.property, skipWhitespace_solid (solid_phrase p _)]
  have heq := congrArg skipWhitespace h'
  rw [hskip, hskip] at heq
  exact (phrase_unique p p' (follow_end v) (follow_end v') heq).1

/-! ## Limits and keys apart -/

/-- The limits of the reader on nesting and numbers. -/
def Limits {S : Type} (finite : Bytes → Bool) : ℕ → Json S → Prop
  | _, .integer text => digitCount text ≤ JSON_MAX_INTEGER_DIGITS
  | _, .float text => finite text = true
  | 0, .array _ => False
  | 0, .object _ => False
  | levels + 1, .array items => ∀ x ∈ items, Limits finite levels x
  | levels + 1, .object members => ∀ m ∈ members, Limits finite levels m.2
  | _, _ => True

/-- No object down to `levels` names a key twice. -/
def UniqueKeys {S : Type} : ℕ → Json S → Prop
  | levels + 1, .array items => ∀ x ∈ items, UniqueKeys levels x
  | levels + 1, .object members => (members.map (·.1)).Nodup ∧ ∀ m ∈ members, UniqueKeys levels m.2
  | _, _ => True

theorem within_iff {S : Type} {finite : Bytes → Bool} : ∀ (levels : ℕ) (t : Json S),
    Within finite levels t ↔ Limits finite levels t ∧ UniqueKeys levels t
  | _, .null => by simp [Within, Limits, UniqueKeys]
  | _, .false => by simp [Within, Limits, UniqueKeys]
  | _, .true => by simp [Within, Limits, UniqueKeys]
  | _, .integer _ => by simp [Within, Limits, UniqueKeys]
  | _, .float _ => by simp [Within, Limits, UniqueKeys]
  | _, .string _ => by simp [Within, Limits, UniqueKeys]
  | 0, .array _ => by simp [Within, Limits]
  | 0, .object _ => by simp [Within, Limits]
  | levels + 1, .array items => by
    simp only [Within, Limits, UniqueKeys, within_iff levels]
    exact forall₂_and
  | levels + 1, .object members => by
    simp only [Within, Limits, UniqueKeys, within_iff levels]
    constructor
    · rintro ⟨h, hall⟩
      exact ⟨fun m hm => (hall m hm).1, h, fun m hm => (hall m hm).2⟩
    · rintro ⟨hl, h, hu⟩
      exact ⟨h, fun m hm => ⟨hl m hm, hu m hm⟩⟩

theorem stored_array (items : List (Json (List ℕ))) : stored (.array items) = .array (items.map stored) := by
  simp only [stored, Json.map, Json.mapItems_eq]
  rfl

theorem stored_object (members : List (List ℕ × Json (List ℕ))) :
    stored (.object members) = .object (members.map storedMember) := by
  simp only [stored, Json.map, Json.mapMembers_eq]
  rfl

theorem limits_stored {finite : Bytes → Bool} : ∀ (levels : ℕ) (t : Json (List ℕ)),
    Limits finite levels (stored t) ↔ Limits finite levels t
  | _, .null => by simp [stored, Json.map, Limits]
  | _, .false => by simp [stored, Json.map, Limits]
  | _, .true => by simp [stored, Json.map, Limits]
  | _, .integer _ => by simp [stored, Json.map, Limits]
  | _, .float _ => by simp [stored, Json.map, Limits]
  | _, .string _ => by simp [stored, Json.map, Limits]
  | 0, .array items => by simp [stored_array, Limits]
  | 0, .object members => by simp [stored_object, Limits]
  | levels + 1, .array items => by
    rw [stored_array]
    simp only [Limits, List.forall_mem_map, limits_stored levels]
  | levels + 1, .object members => by
    rw [stored_object]
    simp only [Limits, List.forall_mem_map, storedMember, limits_stored levels]

theorem UniqueKeys.of_stored : ∀ {levels : ℕ} {t : Json (List ℕ)}, UniqueKeys levels (stored t) → UniqueKeys levels t
  | 0, t, _ => by cases t <;> trivial
  | _ + 1, .null, _ => trivial
  | _ + 1, .false, _ => trivial
  | _ + 1, .true, _ => trivial
  | _ + 1, .integer _, _ => trivial
  | _ + 1, .float _, _ => trivial
  | _ + 1, .string _, _ => trivial
  | levels + 1, .array items, h => by
    rw [stored_array] at h
    exact fun x hx => UniqueKeys.of_stored (h (stored x) (List.mem_map_of_mem hx))
  | levels + 1, .object members, h => by
    rw [stored_object] at h
    obtain ⟨hnodup, hall⟩ := h
    rw [List.map_map] at hnodup
    refine ⟨?_, fun m hm => UniqueKeys.of_stored (hall (storedMember m) (List.mem_map_of_mem hm))⟩
    have hmap : members.map ((·.1) ∘ storedMember) = (members.map (·.1)).map Utf8.encodeAll := by
      rw [List.map_map]
      rfl
    rw [hmap] at hnodup
    exact hnodup.of_map _

end Hamn.StrictJson
