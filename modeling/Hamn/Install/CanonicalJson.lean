import Hamn.Lib.SerdeJson
import Hamn.Lib.Utf8

/-!
# Install.CanonicalJson — the text that a receipt hashes (`canonical_json` of `install_support/receipt.rs`)

The entries of a payload are written as compact JSON, and every character beyond ASCII is then replaced by its UTF-16
units.

* `valueText`, `canonicalJson`: the two steps.
* `asciiEscape_delimited`: after both steps the characters of a string can still be told apart.
* `canonical_injective`: two lists of entries have the same text only if they are the same.
-/

namespace Hamn.Install.Receipt

open Delimit SerdeJson

/-- `[path, mode, sha256-or-null]` -/
structure Entry where
  name : String
  mode : ℕ
  digest : Option String
  deriving DecidableEq, Repr

def entryText (e : Entry) : Word :=
  '[' :: (string e.name ++ (',' :: (Nat.toDigits 10 e.mode ++ (',' :: (nullable e.digest ++ [']'])))))

/-- `serde_json::to_string` of the array of entries. -/
def valueText (entries : List Entry) : Word := '[' :: listText entryText ',' ']' entries

/-- `encode_utf16` -/
def utf16 (c : Char) : List ℕ :=
  if c.toNat < 0x10000 then [c.toNat]
  else [0xD800 + (c.toNat - 0x10000) / 0x400, 0xDC00 + (c.toNat - 0x10000) % 0x400]

/-- `{unit:04x}` -/
def hex4 (n : ℕ) : Word :=
  [(n / 4096 % 16).digitChar, (n / 256 % 16).digitChar, (n / 16 % 16).digitChar, (n % 16).digitChar]

def canonicalChar (c : Char) : Word :=
  if c.toNat < 0x80 then [c] else (utf16 c).flatMap fun unit => '\\' :: 'u' :: hex4 unit

def canonicalJson (text : Word) : Word := text.flatMap canonicalChar

/-! ## Characters -/

theorem canonical_append (a b : Word) : canonicalJson (a ++ b) = canonicalJson a ++ canonicalJson b :=
  List.flatMap_append

theorem canonical_cons {c : Char} (h : c.toNat < 0x80) (text : Word) :
    canonicalJson (c :: text) = c :: canonicalJson text := by
  unfold canonicalJson
  rw [List.flatMap_cons, canonicalChar, if_pos h, List.singleton_append]

theorem canonical_ascii {text : Word} (h : ∀ c ∈ text, c.toNat < 0x80) : canonicalJson text = text := by
  induction text with
  | nil => rfl
  | cons c text ih =>
    obtain ⟨hc, htext⟩ := List.forall_mem_cons.mp h
    rw [canonical_cons hc, ih htext]

theorem hex4_delimited {a b : ℕ} (ha : a < 0x10000) (hb : b < 0x10000) {r r' : Word}
    (h : hex4 a ++ r = hex4 b ++ r') : a = b ∧ r = r' := by
  have hdigit : ∀ m < 16, ∀ n < 16, m.digitChar = n.digitChar → m = n := by decide
  have hmod : ∀ m n, (m % 16).digitChar = (n % 16).digitChar → m % 16 = n % 16 := fun m n =>
    hdigit _ (Nat.mod_lt _ (by norm_num)) _ (Nat.mod_lt _ (by norm_num))
  simp only [hex4, List.cons_append, List.nil_append, List.cons.injEq] at h
  obtain ⟨h3, h2, h1, h0, hrest⟩ := h
  have h3 := hmod _ _ h3
  have h2 := hmod _ _ h2
  have h1 := hmod _ _ h1
  have h0 := hmod _ _ h0
  exact ⟨by omega, hrest⟩

/-- What stands behind `\u` of a character: its unit, or both of them. -/
def unitCode (c : Char) : Word :=
  if c.toNat < 0x10000 then hex4 c.toNat
  else hex4 (0xD800 + (c.toNat - 0x10000) / 0x400) ++ '\\' :: 'u' :: hex4 (0xDC00 + (c.toNat - 0x10000) % 0x400)

/-- A character of one unit is no surrogate, so the first unit tells the two forms apart. -/
theorem unitCode_delimited (a b : Char) (r r' : Word) (h : unitCode a ++ r = unitCode b ++ r') : a = b ∧ r = r' := by
  have ha := Utf8.toNat_lt a
  have hb := Utf8.toNat_lt b
  have hsa := Utf8.not_surrogate a
  have hsb := Utf8.not_surrogate b
  unfold unitCode at h
  split_ifs at h with hua hub hub
  · obtain ⟨hab, hrest⟩ := hex4_delimited hua hub h
    exact ⟨Char.toNat_inj.mp hab, hrest⟩
  · rw [List.append_assoc] at h
    have hab := (hex4_delimited hua (by omega) h).1
    omega
  · rw [List.append_assoc] at h
    have hab := (hex4_delimited (by omega) hub h).1
    omega
  · rw [List.append_assoc, List.append_assoc] at h
    obtain ⟨hhigh, htail⟩ := hex4_delimited (by omega) (by omega) h
    simp only [List.cons_append, List.cons.injEq, true_and] at htail
    obtain ⟨hlow, hrest⟩ := hex4_delimited (by omega) (by omega) htail
    exact ⟨Char.toNat_inj.mp (by omega), hrest⟩

/-- A character of a string after both steps. -/
def asciiEscape (c : Char) : Word := canonicalJson (escape c)

theorem asciiEscape_cases (c : Char) :
    (∃ x, (c, x) ∈ ESCAPES ∧ asciiEscape c = ['\\', x]) ∨ (c ≠ '\\' ∧ c ≠ '"' ∧ asciiEscape c = [c]) ∨
      asciiEscape c = '\\' :: 'u' :: unitCode c := by
  have htable : ∀ e ∈ ESCAPES, e.2.toNat < 0x80 := by decide
  have hback : canonicalJson ['\\', 'u'] = ['\\', 'u'] := by decide
  unfold asciiEscape
  obtain ⟨x, hx, h⟩ | ⟨hslash, hquote, h⟩ | ⟨hlow, h⟩ := escape_cases c
  · refine .inl ⟨x, hx, ?_⟩
    rw [h]
    refine canonical_ascii fun d hd => ?_
    rcases List.mem_pair.mp hd with rfl | rfl
    · decide
    · exact htable _ hx
  · rw [h]
    by_cases hascii : c.toNat < 0x80
    · exact .inr (.inl ⟨hslash, hquote, canonical_cons hascii []⟩)
    · refine .inr (.inr ?_)
      unfold canonicalJson unitCode
      rw [List.flatMap_singleton, canonicalChar, if_neg hascii, utf16]
      split_ifs
      · rfl
      · rfl
  · refine .inr (.inr ?_)
    have hcode : code c = unitCode c := by
      unfold unitCode code hex4
      rw [if_pos (by omega)]
      have h3 : c.toNat / 4096 % 16 = 0 := by omega
      have h2 : c.toNat / 256 % 16 = 0 := by omega
      have h1 : c.toNat / 16 % 16 = c.toNat / 16 := by omega
      rw [h3, h2, h1]
      rfl
    have hdigits : ∀ n < 16, n.digitChar.toNat < 0x80 := by decide
    have hcanonical : canonicalJson (code c) = code c := by
      refine canonical_ascii fun d hd => ?_
      simp only [code, List.mem_cons, List.not_mem_nil, or_false] at hd
      rcases hd with rfl | rfl | rfl | rfl
      · decide
      · decide
      · exact hdigits _ (by omega)
      · exact hdigits _ (by omega)
    rw [h, show '\\' :: 'u' :: code c = ['\\', 'u'] ++ code c from rfl, canonical_append, hback, hcanonical, hcode]
    rfl

theorem asciiEscape_delimited : SelfDelimited asciiEscape := by
  have htable : (∀ e ∈ ESCAPES, e.2 ≠ 'u') ∧ ∀ e ∈ ESCAPES, ∀ e' ∈ ESCAPES, e.2 = e'.2 → e.1 = e'.1 := by decide
  refine @escapes_delimited Char asciiEscape unitCode (fun _ => True) '\\' 'u' ESCAPES (fun c => ?_) htable.1 htable.2
    fun a b r r' _ _ => unitCode_delimited a b r r'
  obtain h | ⟨hback, -, h⟩ | h := asciiEscape_cases c
  · exact .inl h
  · exact .inr (.inl ⟨hback, h⟩)
  · exact .inr (.inr ⟨trivial, h⟩)

/-! ## Entries -/

def asciiString (s : String) : Word := '"' :: (s.toList.flatMap asciiEscape ++ ['"'])

theorem canonical_string (s : String) : canonicalJson (string s) = asciiString s := by
  unfold string asciiString
  rw [canonical_cons (by decide), canonical_append, canonical_cons (by decide) []]
  unfold canonicalJson
  rw [List.flatMap_assoc]
  rfl

theorem asciiString_delimited : SelfDelimited asciiString := by
  have hmark : ∀ c, ∃ d rest, asciiEscape c = d :: rest ∧ d ≠ '"' := by
    intro c
    obtain ⟨x, -, h⟩ | ⟨-, hq, h⟩ | h := asciiEscape_cases c
    · exact ⟨'\\', [x], h, by decide⟩
    · exact ⟨c, [], h, hq⟩
    · exact ⟨'\\', _, h, by decide⟩
  exact Delimited.comp ((Delimited.quoted asciiEscape_delimited hmark).after ['"']) fun a b => String.toList_inj.mp

def asciiNullable : Option String → Word
  | some s => asciiString s
  | none => ['n', 'u', 'l', 'l']

theorem canonical_nullable (s : Option String) : canonicalJson (nullable s) = asciiNullable s := by
  cases s with
  | none => decide
  | some s => exact canonical_string s

theorem asciiNullable_delimited : SelfDelimited asciiNullable := by
  intro a b r r' _ _ heq
  cases a with
  | none =>
    cases b with
    | none => exact ⟨rfl, List.append_cancel_left heq⟩
    | some b => exact absurd heq (append_ne (by rfl) (by rfl) (by decide : 'n' ≠ '"') r r')
  | some a =>
    cases b with
    | none => exact absurd heq (append_ne (by rfl) (by rfl) (by decide : '"' ≠ 'n') r r')
    | some b =>
      obtain ⟨rfl, hrest⟩ := asciiString_delimited a b r r' trivial trivial heq
      exact ⟨rfl, hrest⟩

def asciiEntry (e : Entry) : Word :=
  '[' :: (asciiString e.name ++ (',' :: (Nat.toDigits 10 e.mode ++ (',' :: (asciiNullable e.digest ++ [']'])))))

theorem canonical_entry (e : Entry) : canonicalJson (entryText e) = asciiEntry e := by
  have hdigits : canonicalJson (Nat.toDigits 10 e.mode) = Nat.toDigits 10 e.mode := by
    refine canonical_ascii fun c hc => ?_
    obtain ⟨d, hd, rfl⟩ := toDigits_digits (by norm_num) e.mode c hc
    have hall : ∀ d < 10, d.digitChar.toNat < 0x80 := by decide
    exact hall d hd
  unfold entryText asciiEntry
  rw [canonical_cons (by decide), canonical_append, canonical_string, canonical_cons (by decide), canonical_append,
    hdigits, canonical_cons (by decide), canonical_append, canonical_nullable, canonical_cons (by decide)]
  rfl

theorem asciiEntry_delimited : SelfDelimited asciiEntry := by
  have hmode : Delimited (Nat.toDigits 10) fun r => ∀ c, r.head? = some c → c.isDigit = false :=
    Delimited.digits (by norm_num) (by norm_num) (by decide)
  have hdigest : SelfDelimited fun d => ',' :: (asciiNullable d ++ [']']) :=
    (asciiNullable_delimited.before fun _ => trivial).after [',']
  have hpair := (hmode.pair hdigest fun d r _ c hc => by
    obtain rfl := Option.some.inj hc
    decide).after [',']
  have hall := (asciiString_delimited.pair hpair fun _ _ _ => trivial).after ['[']
  intro a b r r' _ _ heq
  obtain ⟨hsame, hrest⟩ := hall (a.name, a.mode, a.digest) (b.name, b.mode, b.digest) r r' trivial trivial heq
  simp only [Prod.mk.injEq] at hsame
  refine ⟨?_, hrest⟩
  cases a
  cases b
  simpa using hsame

theorem canonical_list (entries : List Entry) :
    canonicalJson (listText entryText ',' ']' entries) = listText asciiEntry ',' ']' entries := by
  cases entries with
  | nil => decide
  | cons e entries =>
    have htail : canonicalJson (entries.flatMap fun e => ',' :: entryText e) =
        entries.flatMap fun e => ',' :: asciiEntry e := by
      induction entries with
      | nil => rfl
      | cons e entries ih =>
        rw [List.flatMap_cons, List.flatMap_cons, canonical_append, ih, canonical_cons (by decide), canonical_entry]
    unfold listText
    rw [canonical_append, canonical_append, canonical_entry, htail, canonical_cons (by decide) []]
    rfl

/-- Different entries have different texts. -/
theorem canonical_injective : Function.Injective fun entries => canonicalJson (valueText entries) := by
  have hlist : SelfDelimited (listText asciiEntry ',' ']') :=
    asciiEntry_delimited.list (by decide) fun e => ⟨'[', _, rfl, by decide⟩
  intro a b h
  simp only [valueText] at h
  rw [canonical_cons (by decide), canonical_cons (by decide), canonical_list, canonical_list] at h
  exact hlist.injective trivial (List.cons.inj h).2

end Hamn.Install.Receipt
