import Hamn.Guest.JsonParse
import Hamn.Guest.JsonFloat

/-!
# JsonDump — what the writer writes is read back

The text that `json_dump` writes for a value that was read is a document of the grammar again (`dump_spec`), whose
value is the old one with `-0` as `0`, floats in their written form and, when sorting, members in code point order
(`normalize`).  Since the reader accepts exactly the grammar, it reads that value back.

A string that was read never has an escaped high surrogate directly before a low one (`NoFuse`): that is why the
escapes that the writer puts next to each other do not fuse.
-/

open Bytes Result

namespace Hamn.StrictJson

/-- A text whose characters are checked one by one. -/
theorem all_ascii {cs : List Char} (h : (cs.all fun c => decide (c.toNat < 0x80)) = true) :
    ∀ c ∈ cs, c.toNat < 0x80 :=
  fun c hc => of_decide_eq_true (List.all_eq_true.mp h c hc)

/-! ## Strings that were read -/

/-- No high surrogate stands directly before a low one. -/
def NoFuse : List ℕ → Prop
  | a :: b :: us => ¬ (IsHigh a ∧ IsLow b) ∧ NoFuse (b :: us)
  | _ => True

theorem noFuse_cons {u : ℕ} {us : List ℕ} (h : ∀ v, us.head? = some v → ¬ (IsHigh u ∧ IsLow v)) (hus : NoFuse us) :
    NoFuse (u :: us) := by
  cases us with
  | nil => trivial
  | cons v us => exact ⟨h v rfl, hus⟩

theorem not_isHigh_char (c : Char) : ¬ IsHigh c.toNat := by
  have := Utf8.not_surrogate c
  unfold IsHigh
  omega

/-- A low surrogate comes from an escape of its own. -/
theorem codePoints_head_low {s : List StrChar} {v : ℕ} (h : (StrChar.codePoints s).head? = some v) (hv : IsLow v) :
    ∃ a b c d s', s = .unicode a b c d :: s' ∧ unit a b c d = v := by
  unfold IsLow at hv
  cases s with
  | nil => cases h
  | cons x s =>
    cases x with
    | raw c hc =>
      have := Utf8.not_surrogate c
      rw [StrChar.codePoints, List.head?_cons] at h
      cases h
      omega
    | short e =>
      rw [StrChar.codePoints, List.head?_cons] at h
      rw [← Option.some.inj h] at hv
      exact absurd hv (by cases e <;> decide)
    | unicode a b c d =>
      by_cases hp : IsHigh (unit a b c d) ∧ ∃ a' b' c' d' s', s = .unicode a' b' c' d' :: s' ∧ IsLow (unit a' b' c' d')
      · obtain ⟨hh, a', b', c', d', s', rfl, hl⟩ := hp
        rw [codePoints_pair hh hl, List.head?_cons] at h
        have he := Option.some.inj h
        unfold pair at he
        omega
      · rw [codePoints_lone fun hh a' b' c' d' s' he hl => hp ⟨hh, a', b', c', d', s', he, hl⟩, List.head?_cons] at h
        exact ⟨a, b, c, d, s, rfl, Option.some.inj h⟩

theorem noFuse_codePoints (s : List StrChar) : NoFuse (StrChar.codePoints s) := by
  induction s using StrChar.codePoints.induct with
  | case1 => trivial
  | case2 c hc s ih => exact noFuse_cons (fun v _ hf => not_isHigh_char c hf.1) ih
  | case3 e s ih =>
    refine noFuse_cons (fun v _ hf => ?_) ih
    have hh := hf.1
    revert hh
    cases e <;> decide
  | case4 a b c d a' b' c' d' s hp ih =>
    rw [codePoints_pair hp.1 hp.2]
    refine noFuse_cons (fun v _ hf => ?_) ih
    have h1 := hf.1
    unfold pair IsHigh at h1
    omega
  | case5 a b c d a' b' c' d' s hp ih =>
    rw [StrChar.codePoints, if_neg hp]
    refine noFuse_cons (fun v hv hf => ?_) ih
    obtain ⟨a2, b2, c2, d2, s2, he, rfl⟩ := codePoints_head_low hv hf.2
    cases he
    exact hp hf
  | case6 a b c d s hs ih =>
    rw [codePoints_lone fun _ a' b' c' d' s' he => absurd he (hs a' b' c' d' s')]
    refine noFuse_cons (fun v hv hf => ?_) ih
    obtain ⟨a2, b2, c2, d2, s2, he, -⟩ := codePoints_head_low hv hf.2
    exact hs a2 b2 c2 d2 s2 he

/-! ## Escapes -/

/-- The `\u` escape with lower case digits. -/
def unitToken (u : ℕ) : StrChar :=
  .unicode ⟨⟨u / 4096 % 16, Nat.mod_lt _ (by omega)⟩, false⟩ ⟨⟨u / 256 % 16, Nat.mod_lt _ (by omega)⟩, false⟩
    ⟨⟨u / 16 % 16, Nat.mod_lt _ (by omega)⟩, false⟩ ⟨⟨u % 16, Nat.mod_lt _ (by omega)⟩, false⟩

theorem hexChar_eq (n : ℕ) (h : n < 16) : hexChar n = byte (HexDigit.char ⟨⟨n, h⟩, false⟩) := by
  have hall : ∀ x : Fin 16, hexChar x.val = byte (HexDigit.char ⟨x, false⟩) := by decide
  exact hall ⟨n, h⟩

theorem text_unitToken (u : ℕ) : Utf8.text (unitToken u).chars = ascii "\\u" ++ printHex4 u := by
  rw [unitToken, text_chars_unicode, unicodeBytes, printHex4, hexChar_eq _ (Nat.mod_lt _ (by omega)),
    hexChar_eq _ (Nat.mod_lt _ (by omega)), hexChar_eq _ (Nat.mod_lt _ (by omega)),
    hexChar_eq _ (Nat.mod_lt _ (by omega))]
  rfl

theorem ascii_unitToken (u : ℕ) : ∀ c ∈ (unitToken u).chars, c.toNat < 0x80 := by
  rw [unitToken, StrChar.chars]
  simp only [List.forall_mem_cons, List.not_mem_nil, false_implies, implies_true, and_true]
  exact ⟨by decide, by decide, HexDigit.char_lt _, HexDigit.char_lt _, HexDigit.char_lt _, HexDigit.char_lt _⟩

theorem unit_digits {u : ℕ} (h : u < 0x10000) (a b c d : HexDigit) (ha : a.value.val = u / 4096 % 16)
    (hb : b.value.val = u / 256 % 16) (hc : c.value.val = u / 16 % 16) (hd : d.value.val = u % 16) :
    unit a b c d = u := by
  unfold unit
  omega

/-- Tokens `s` written for the code points `us`; a `\u` escape at the front is for the first code point. -/
structure Written (us : List ℕ) (s : List StrChar) : Prop where
  codePoints : StrChar.codePoints s = us
  text : Utf8.text (strChars s) = us.flatMap escapeCodePoint
  chars_lt : ∀ c ∈ strChars s, c.toNat < 0x80
  head : ∀ a b c d s', s = .unicode a b c d :: s' → ∃ v, us.head? = some v ∧ (unit a b c d = v ∨ IsHigh (unit a b c d))

theorem Written.short {us : List ℕ} {s : List StrChar} (hw : Written us s) (e : Short) {u : ℕ} (hu : u = e.codePoint)
    (he : escapeCodePoint e.codePoint = [byte '\\', byte e.char]) : Written (u :: us) (.short e :: s) := by
  subst hu
  refine ⟨by rw [StrChar.codePoints, hw.codePoints], ?_, ?_, fun _ _ _ _ _ h => by cases h⟩
  · rw [text_strChars_cons, text_chars_short, hw.text, List.flatMap_cons, he]
  · exact List.forall_mem_append.mpr ⟨by
      simp only [StrChar.chars, List.forall_mem_cons, List.not_mem_nil, false_implies, implies_true, and_true]
      exact ⟨by decide, e.char_lt⟩, hw.chars_lt⟩

theorem Written.raw {us : List ℕ} {s : List StrChar} (hw : Written us s) {u : ℕ} (h : 0x20 ≤ u ∧ u ≤ 0x7E)
    (h1 : u ≠ 0x22) (h2 : u ≠ 0x5C) (he : escapeCodePoint u = [UInt8.ofNat u]) : ∃ s', Written (u :: us) s' := by
  have hv : (Char.ofNat u).toNat = u := by
    rw [Char.ofNat, dif_pos (Or.inl (by omega))]
    rfl
  have hraw : Unescaped (Char.ofNat u) := by
    refine ⟨by omega, fun hc => h1 ?_, fun hc => h2 ?_⟩
    · rw [← hv, hc]
      rfl
    · rw [← hv, hc]
      rfl
  refine ⟨.raw (Char.ofNat u) hraw :: s, ?_, ?_, ?_, fun _ _ _ _ _ h => by cases h⟩
  · rw [StrChar.codePoints, hw.codePoints, hv]
  · rw [text_strChars_cons, StrChar.chars, text_ascii (by omega), Utf8.text_nil, hw.text, List.flatMap_cons, he,
      byte_ofNat (by omega)]
  · refine List.forall_mem_append.mpr ⟨?_, hw.chars_lt⟩
    simp only [StrChar.chars, List.forall_mem_singleton]
    omega

theorem Written.unit {us : List ℕ} {s : List StrChar} (hw : Written us s) {u : ℕ} (h : u < 0x10000)
    (hf : ∀ v, us.head? = some v → ¬ (IsHigh u ∧ IsLow v)) (he : escapeCodePoint u = ascii "\\u" ++ printHex4 u) :
    Written (u :: us) (unitToken u :: s) := by
  have hunit := unit_digits h ⟨⟨u / 4096 % 16, Nat.mod_lt _ (by omega)⟩, false⟩ ⟨⟨u / 256 % 16, Nat.mod_lt _ (by omega)⟩, false⟩
    ⟨⟨u / 16 % 16, Nat.mod_lt _ (by omega)⟩, false⟩ ⟨⟨u % 16, Nat.mod_lt _ (by omega)⟩, false⟩ rfl rfl rfl rfl
  refine ⟨?_, ?_, ?_, ?_⟩
  · rw [unitToken, codePoints_lone, hw.codePoints, hunit]
    intro hh a b c d s' hs hl
    rw [hunit] at hh
    obtain ⟨v, hv, hcase⟩ := hw.head a b c d s' hs
    rcases hcase with hcase | hcase
    · exact hf v hv ⟨hh, hcase ▸ hl⟩
    · unfold IsHigh at hcase
      unfold IsLow at hl
      omega
  · rw [text_strChars_cons, text_unitToken, hw.text, List.flatMap_cons, he]
  · exact List.forall_mem_append.mpr ⟨ascii_unitToken u, hw.chars_lt⟩
  · intro a b c d s' hs
    refine ⟨u, rfl, Or.inl ?_⟩
    rw [unitToken] at hs
    injection hs with h1 _
    injection h1 with ha hb hc hd
    rw [← ha, ← hb, ← hc, ← hd]
    exact hunit

theorem Written.pair {us : List ℕ} {s : List StrChar} (hw : Written us s) {u : ℕ} (h : 0x10000 ≤ u) (h' : u < 0x110000)
    (he : escapeCodePoint u = ascii "\\u" ++ printHex4 (0xD800 + (u - 0x10000) / 0x400) ++ ascii "\\u" ++
      printHex4 (0xDC00 + (u - 0x10000) % 0x400)) :
    Written (u :: us)
      (unitToken (0xD800 + (u - 0x10000) / 0x400) :: unitToken (0xDC00 + (u - 0x10000) % 0x400) :: s) := by
  set high := 0xD800 + (u - 0x10000) / 0x400 with hhigh
  set low := 0xDC00 + (u - 0x10000) % 0x400 with hlow
  have h1 := unit_digits (u := high) (by omega) ⟨⟨high / 4096 % 16, Nat.mod_lt _ (by omega)⟩, false⟩
    ⟨⟨high / 256 % 16, Nat.mod_lt _ (by omega)⟩, false⟩ ⟨⟨high / 16 % 16, Nat.mod_lt _ (by omega)⟩, false⟩
    ⟨⟨high % 16, Nat.mod_lt _ (by omega)⟩, false⟩ rfl rfl rfl rfl
  have h2 := unit_digits (u := low) (by omega) ⟨⟨low / 4096 % 16, Nat.mod_lt _ (by omega)⟩, false⟩
    ⟨⟨low / 256 % 16, Nat.mod_lt _ (by omega)⟩, false⟩ ⟨⟨low / 16 % 16, Nat.mod_lt _ (by omega)⟩, false⟩
    ⟨⟨low % 16, Nat.mod_lt _ (by omega)⟩, false⟩ rfl rfl rfl rfl
  have hh : IsHigh high := by
    unfold IsHigh
    omega
  have hl : IsLow low := by
    unfold IsLow
    omega
  have hpair : StrictJson.pair high low = u := by
    unfold StrictJson.pair
    omega
  refine ⟨?_, ?_, ?_, ?_⟩
  · rw [unitToken, unitToken, codePoints_pair (by rw [h1]; exact hh) (by rw [h2]; exact hl), h1, h2, hpair,
      hw.codePoints]
  · rw [text_strChars_cons, text_strChars_cons, text_unitToken, text_unitToken, hw.text, List.flatMap_cons, he]
    simp only [List.append_assoc]
  · exact List.forall_mem_append.mpr ⟨ascii_unitToken high, List.forall_mem_append.mpr ⟨ascii_unitToken low, hw.chars_lt⟩⟩
  · intro a b c d s' hs
    refine ⟨u, rfl, Or.inr ?_⟩
    rw [unitToken] at hs
    injection hs with h3 _
    injection h3 with ha hb hc hd
    rw [← ha, ← hb, ← hc, ← hd, h1]
    exact hh

/-- The writer's escapes are tokens of the grammar that denote the code points they were written for. -/
theorem exists_written : ∀ {us : List ℕ}, (∀ u ∈ us, u < 0x110000) → NoFuse us → ∃ s, Written us s
  | [], _, _ => ⟨[], ⟨rfl, rfl, fun _ hc => (nomatch hc), fun _ _ _ _ _ h => (nomatch h)⟩⟩
  | u :: us, hb, hf => by
    have hf' : NoFuse us := by
      cases us with
      | nil => trivial
      | cons v us => exact hf.2
    have hhead : ∀ v, us.head? = some v → ¬ (IsHigh u ∧ IsLow v) := by
      intro v hv
      cases us with
      | nil => cases hv
      | cons w us =>
        cases hv
        exact hf.1
    have hu : u < 0x110000 := hb u (by simp)
    obtain ⟨s, hw⟩ := exists_written (fun v hv => hb v (by simp [hv])) hf'
    by_cases c1 : u = 0x22
    · exact ⟨_, hw.short .quote c1 rfl⟩
    by_cases c2 : u = 0x5C
    · exact ⟨_, hw.short .backslash c2 rfl⟩
    by_cases c3 : u = 0x0A
    · exact ⟨_, hw.short .n c3 rfl⟩
    by_cases c4 : u = 0x0D
    · exact ⟨_, hw.short .r c4 rfl⟩
    by_cases c5 : u = 0x09
    · exact ⟨_, hw.short .t c5 rfl⟩
    by_cases c6 : u = 0x08
    · exact ⟨_, hw.short .b c6 rfl⟩
    by_cases c7 : u = 0x0C
    · exact ⟨_, hw.short .f c7 rfl⟩
    by_cases c8 : 0x20 ≤ u ∧ u ≤ 0x7E
    · refine hw.raw c8 c1 c2 ?_
      rw [escapeCodePoint, if_neg c1, if_neg c2, if_neg c3, if_neg c4, if_neg c5, if_neg c6, if_neg c7, if_pos c8]
    by_cases c9 : u < 0x10000
    · refine ⟨_, hw.unit c9 hhead ?_⟩
      rw [escapeCodePoint, if_neg c1, if_neg c2, if_neg c3, if_neg c4, if_neg c5, if_neg c6, if_neg c7, if_neg c8,
        if_pos c9]
    · refine ⟨_, hw.pair (by omega) hu ?_⟩
      rw [escapeCodePoint, if_neg c1, if_neg c2, if_neg c3, if_neg c4, if_neg c5, if_neg c6, if_neg c7, if_neg c8,
        if_neg c9]
      have hhi : 0xD800 ||| (u - 0x10000) >>> 10 = 0xD800 + (u - 0x10000) / 0x400 := by
        rw [Nat.shiftRight_eq_div_pow]
        exact or_eq_add (a := 54) (k := 10) (by omega)
      have hlo : 0xDC00 ||| ((u - 0x10000) &&& 0x3FF) = 0xDC00 + (u - 0x10000) % 0x400 := by
        rw [show (u - 0x10000) &&& 0x3FF = (u - 0x10000) % 0x400 from Nat.and_two_pow_sub_one_eq_mod _ 10]
        exact or_eq_add (a := 55) (k := 10) (by omega)
      simp only [hhi, hlo]

theorem escapeLoop_encodeAll : ∀ (us : List ℕ) (fuel : ℕ), (∀ u ∈ us, u < 0x110000) →
    (Utf8.encodeAll us).length ≤ fuel → escapeLoop fuel (Utf8.encodeAll us) = some (us.flatMap escapeCodePoint)
  | [], fuel, _, _ => by cases fuel <;> rfl
  | u :: us, fuel, hb, hf => by
    obtain ⟨b, bs, hbs⟩ := List.exists_cons_of_ne_nil (Utf8.encode_ne_nil u)
    have hdec : Decodable true u := ⟨hb u (by simp), fun h => by cases h⟩
    have hlen : (Utf8.encode u).length = bs.length + 1 := by rw [hbs]; rfl
    rw [Utf8.encodeAll_cons, List.length_append] at hf
    obtain ⟨fuel, rfl⟩ : ∃ k, fuel = k + 1 := ⟨fuel - 1, by omega⟩
    have hcons : Utf8.encodeAll (u :: us) = b :: (bs ++ Utf8.encodeAll us) := by
      rw [Utf8.encodeAll_cons, hbs]
      rfl
    rw [hcons, escapeLoop, ← hcons, Utf8.encodeAll_cons, utf8Decode_encode hdec]
    simp only [List.drop_left]
    rw [escapeLoop_encodeAll us fuel (fun v hv => hb v (by simp [hv])) (by omega)]
    rfl

/-- A quoted string of the writer. -/
theorem appendQuoted_spec {us : List ℕ} (hb : ∀ u ∈ us, u < 0x110000) (hf : NoFuse us) :
    ∃ s, StrChar.codePoints s = us ∧ appendQuoted (Utf8.encodeAll us) = .ok (Utf8.text (quoted s)) ∧
      ∀ c ∈ quoted s, c.toNat < 0x80 := by
  obtain ⟨s, hw⟩ := exists_written hb hf
  refine ⟨s, hw.codePoints, ?_, ?_⟩
  · unfold appendQuoted jsonEscapeAscii
    rw [escapeLoop_encodeAll us _ hb (Nat.le_refl _)]
    simp only
    rw [text_quoted, hw.text]
  · unfold quoted
    rw [List.cons_append, List.forall_mem_cons, List.forall_mem_append, List.forall_mem_singleton]
    exact ⟨by decide, hw.chars_lt, by decide⟩

/-! ## The value that is read back -/

section Normalize

variable (render : Bytes → Bytes) (sortKeys : Bool)

/-- Members in code point order of their keys when sorting, in source order otherwise. -/
def orderMembers {α : Type} (members : List (List ℕ × α)) : List (List ℕ × α) :=
  if sortKeys then members.insertionSort fun a b => a.1 ≤ b.1 else members

mutual
/-- `-0` as `0`, floats as `render` writes them, members in the order of the writer. -/
def normalize : Json (List ℕ) → Json (List ℕ)
  | .null => .null
  | .false => .false
  | .true => .true
  | .integer text => .integer (if text = ascii "-0" then ascii "0" else text)
  | .float text => .float (render text)
  | .string s => .string s
  | .array items => .array (normalizeItems items)
  | .object members => .object (orderMembers sortKeys (normalizeMembers members))

def normalizeItems : List (Json (List ℕ)) → List (Json (List ℕ))
  | [] => []
  | x :: xs => normalize x :: normalizeItems xs

def normalizeMembers : List (List ℕ × Json (List ℕ)) → List (List ℕ × Json (List ℕ))
  | [] => []
  | (k, x) :: xs => (k, normalize x) :: normalizeMembers xs
end

/-- The normalized member. -/
def normalizeMember (m : List ℕ × Json (List ℕ)) : List ℕ × Json (List ℕ) := (m.1, normalize render sortKeys m.2)

theorem normalizeItems_eq (xs : List (Json (List ℕ))) :
    normalizeItems render sortKeys xs = xs.map (normalize render sortKeys) := by
  induction xs with
  | nil => rfl
  | cons x xs ih => rw [normalizeItems, ih, List.map_cons]

theorem normalizeMembers_eq (xs : List (List ℕ × Json (List ℕ))) :
    normalizeMembers render sortKeys xs = xs.map (normalizeMember render sortKeys) := by
  induction xs with
  | nil => rfl
  | cons m xs ih =>
    obtain ⟨k, x⟩ := m
    rw [normalizeMembers, ih, List.map_cons]
    rfl

/-- The order of the writer for both kinds of container. -/
def arrange {α : Type} (type : Container) (members : List (List ℕ × α)) : List (List ℕ × α) :=
  if type = .object then orderMembers sortKeys members else members

theorem normalize_value (type : Container) (members : List (List ℕ × Json (List ℕ))) :
    normalize render sortKeys (type.value members) =
      type.value (arrange sortKeys type (members.map (normalizeMember render sortKeys))) := by
  cases type with
  | array =>
    simp only [Container.value, normalize, normalizeItems_eq, arrange, reduceCtorEq, if_false, List.map_map]
    rfl
  | object => simp only [Container.value, normalize, normalizeMembers_eq, arrange, if_true]

end Normalize

section Arrange

variable {sortKeys : Bool}

theorem arrange_perm {α : Type} (type : Container) (members : List (List ℕ × α)) :
    (arrange sortKeys type members).Perm members := by
  unfold arrange orderMembers
  split_ifs
  · exact List.perm_insertionSort _ _
  · exact List.Perm.refl _
  · exact List.Perm.refl _

/-- Ordering looks at keys only. -/
theorem arrange_map {α β : Type} (type : Container) (f : α → β) (members : List (List ℕ × α)) :
    (arrange sortKeys type members).map (fun m => (m.1, f m.2)) =
      arrange sortKeys type (members.map fun m => (m.1, f m.2)) := by
  unfold arrange orderMembers
  split_ifs
  · exact List.map_insertionSort _ _ _ _ fun a _ b _ => Iff.rfl
  · rfl
  · rfl

theorem orderMembers_pairwise {α : Type} (members : List (List ℕ × α)) (h : sortKeys = true) :
    (orderMembers sortKeys members).Pairwise fun a b => a.1 ≤ b.1 := by
  have htotal : Std.Total fun a b : List ℕ × α => a.1 ≤ b.1 := ⟨fun a b => le_total a.1 b.1⟩
  have htrans : IsTrans (List ℕ × α) fun a b => a.1 ≤ b.1 := ⟨fun a b c hab hbc => le_trans hab hbc⟩
  unfold orderMembers
  rw [if_pos h]
  exact List.pairwise_insertionSort _ _

/-- What is in order stays as it is. -/
theorem arrange_arrange {α : Type} (type : Container) (members : List (List ℕ × α)) :
    arrange sortKeys type (arrange sortKeys type members) = arrange sortKeys type members := by
  by_cases ht : type = .object
  · by_cases hs : sortKeys = true
    · have hp := orderMembers_pairwise members hs
      unfold arrange
      simp only [if_pos ht]
      conv_lhs => unfold orderMembers
      rw [if_pos hs]
      exact List.Pairwise.insertionSort_eq hp
    · simp [arrange, orderMembers, hs]
  · simp [arrange, ht]

/-- The byte order of the writer is the code point order. -/
theorem sortedMembers_stored {members : List (List ℕ × Json (List ℕ))}
    (hb : ∀ m ∈ members, ∀ u ∈ m.1, u < 0x110000) :
    sortedMembers (members.map storedMember) = (orderMembers true members).map storedMember := by
  unfold sortedMembers orderMembers
  rw [if_pos rfl]
  refine (List.map_insertionSort _ _ _ _ fun a ha b hb' => ?_).symm
  rw [memberOrder_ne_gt]
  have hlt := Utf8.encodeAll_lt_iff (hb b hb') (hb a ha)
  change a.1 ≤ b.1 ↔ Utf8.encodeAll a.1 ≤ Utf8.encodeAll b.1
  rw [← not_lt]
  exact not_congr hlt.symm

end Arrange

/-! ## Values that were read -/

/-- Some phrase denotes `t`. -/
def Readable (t : Json (List ℕ)) : Prop := ∃ p : Phrase, p.tree = t

/-- A key that was read. -/
structure ReadKey (us : List ℕ) : Prop where
  lt : ∀ u ∈ us, u < 0x110000
  noFuse : NoFuse us

theorem readKey_codePoints (s : List StrChar) : ReadKey (StrChar.codePoints s) := ⟨codePoints_lt s, noFuse_codePoints s⟩

theorem readKey_label {type : Container} (lead : Lead type) : ReadKey lead.label := by
  cases lead with
  | item w => exact ⟨fun _ hu => (nomatch hu), trivial⟩
  | key w s w₁ w₂ => exact readKey_codePoints s

theorem label_array (lead : Lead .array) : lead.label = [] := by
  cases lead
  rfl

/-- A member that was read; an array item has no key. -/
structure ReadMember (type : Container) (m : List ℕ × Json (List ℕ)) : Prop where
  key : ReadKey m.1
  noKey : type = .array → m.1 = []
  value : Readable m.2

theorem readMember_entries {type : Container} : ∀ es : Entries type, ∀ m ∈ es.members, ReadMember type m
  | .one lead p w => by
    rw [Entries.members, List.forall_mem_singleton]
    refine ⟨readKey_label lead, ?_, p, rfl⟩
    rintro rfl
    exact label_array lead
  | .more lead p w rest => by
    rw [Entries.members, List.forall_mem_cons]
    refine ⟨⟨readKey_label lead, ?_, p, rfl⟩, readMember_entries rest⟩
    rintro rfl
    exact label_array lead

/-- The kinds of values that were read. -/
inductive ReadShape : Json (List ℕ) → Prop where
  | null : ReadShape .null
  | false : ReadShape .false
  | true : ReadShape .true
  | number (n : Number) : ReadShape n.tree
  | string (us : List ℕ) (h : ReadKey us) : ReadShape (.string us)
  | container (type : Container) (members : List (List ℕ × Json (List ℕ))) (h : ∀ m ∈ members, ReadMember type m) :
    ReadShape (type.value members)

theorem Readable.shape {t : Json (List ℕ)} (h : Readable t) : ReadShape t := by
  obtain ⟨p, rfl⟩ := h
  cases p with
  | null => exact .null
  | false => exact .false
  | true => exact .true
  | number n => exact .number n
  | string s => exact .string _ (readKey_codePoints s)
  | empty type w =>
    rw [Phrase.tree]
    exact .container type [] fun _ hm => absurd hm List.not_mem_nil
  | container type es =>
    rw [Phrase.tree]
    exact .container type es.members (readMember_entries es)

theorem exists_lead {type : Container} {us : List ℕ} (h : ReadKey us) (hn : type = .array → us = []) :
    ∃ lead : Lead type, lead.label = us := by
  cases type with
  | array => exact ⟨.item ⟨[], isWs_nil⟩, (hn rfl).symm⟩
  | object =>
    obtain ⟨s, hs⟩ := exists_written h.lt h.noFuse
    exact ⟨.key ⟨[], isWs_nil⟩ s ⟨[], isWs_nil⟩ ⟨[], isWs_nil⟩, hs.codePoints⟩

theorem exists_entries {type : Container} {members : List (List ℕ × Json (List ℕ))} (hne : members ≠ [])
    (h : ∀ m ∈ members, ReadMember type m) : ∃ es : Entries type, es.members = members := by
  induction members with
  | nil => exact absurd rfl hne
  | cons m members ih =>
    rw [List.forall_mem_cons] at h
    obtain ⟨lead, hlead⟩ := exists_lead h.1.key h.1.noKey
    obtain ⟨p, hp⟩ := h.1.value
    by_cases hmore : members = []
    · subst hmore
      refine ⟨.one lead p ⟨[], isWs_nil⟩, ?_⟩
      rw [Entries.members, hlead, hp]
    · obtain ⟨es, hes⟩ := ih hmore h.2
      refine ⟨.more lead p ⟨[], isWs_nil⟩ es, ?_⟩
      rw [Entries.members, hlead, hp, hes]

/-- Whatever has the shape of a value that was read is one. -/
theorem ReadShape.readable {t : Json (List ℕ)} (h : ReadShape t) : Readable t := by
  cases h with
  | null => exact ⟨.null, rfl⟩
  | false => exact ⟨.false, rfl⟩
  | true => exact ⟨.true, rfl⟩
  | number n => exact ⟨.number n, rfl⟩
  | string us h =>
    obtain ⟨s, hs⟩ := exists_written h.lt h.noFuse
    exact ⟨.string s, by rw [Phrase.tree, hs.codePoints]⟩
  | container type members h =>
    by_cases hne : members = []
    · subst hne
      exact ⟨.empty type ⟨[], isWs_nil⟩, by rw [Phrase.tree]⟩
    · obtain ⟨es, hes⟩ := exists_entries hne h
      exact ⟨.container type es, by rw [Phrase.tree, hes]⟩

/-! ## What is written -/

section Dump

variable {D : Type} {libc : Libc D} {sortKeys : Bool}

/-- A float as it is written. -/
def floatText (libc : Libc D) (token : Bytes) : Bytes :=
  match appendPythonFloat libc token with
  | .ok text => text
  | .error _ => token

/-- `dump` writes the phrase `p` for `t` and for its normal form, and `p` denotes the normal form. -/
structure Dumps (dump : JsonValue → Except Errno Bytes) (norm : Json (List ℕ) → Json (List ℕ)) (t : Json (List ℕ))
    (p : Phrase) : Prop where
  dumped : dump (stored t) = .ok (Utf8.text p.chars)
  again : dump (stored (norm t)) = .ok (Utf8.text p.chars)
  tree : p.tree = norm t
  chars_lt : ∀ c ∈ p.chars, c.toNat < 0x80

def indentWs (level : ℕ) : Ws := ⟨'\n' :: List.replicate (2 * level) ' ', by
  simp only [List.all_cons, List.all_replicate]
  cases 2 * level <;> rfl⟩

theorem text_spaces (n : ℕ) : Utf8.text (List.replicate n ' ') = List.replicate n (byte ' ') := by
  rw [text_word fun c hc => by rw [List.eq_of_mem_replicate hc]; decide, List.map_replicate]

theorem text_indentWs (level : ℕ) : Utf8.text (indentWs level).val = appendIndent level := by
  have hflat : ∀ n : ℕ, (List.replicate n (ascii "  ")).flatten = List.replicate (2 * n) (byte ' ') := by
    intro n
    induction n with
    | zero => rfl
    | succ n ih =>
      rw [List.replicate_succ, List.flatten_cons, ih, show 2 * (n + 1) = 2 + 2 * n by ring, List.replicate_add]
      rfl
  rw [indentWs, text_ascii (by decide), text_spaces, appendIndent, hflat]

theorem ascii_indentWs (level : ℕ) : ∀ c ∈ (indentWs level).val, c.toNat < 0x80 := by
  unfold indentWs
  rw [List.forall_mem_cons]
  exact ⟨by decide, fun c hc => by rw [List.eq_of_mem_replicate hc]; decide⟩

/-- What the writer puts before a value. -/
theorem dumpKey_spec {type : Container} {us : List ℕ} (h : ReadKey us) (hn : type = .array → us = []) (level : ℕ) :
    ∃ (lead : Lead type) (label : Bytes), dumpKey type (Utf8.encodeAll us) = .ok label ∧ lead.label = us ∧
      Utf8.text lead.chars = appendIndent level ++ label ∧ ∀ c ∈ lead.chars, c.toNat < 0x80 := by
  cases type with
  | array =>
    refine ⟨.item (indentWs level), [], rfl, (hn rfl).symm, ?_, ascii_indentWs level⟩
    rw [Lead.chars, text_indentWs, List.append_nil]
  | object =>
    obtain ⟨s, hs, hq, hlt⟩ := appendQuoted_spec h.lt h.noFuse
    refine ⟨.key (indentWs level) s ⟨[], rfl⟩ ⟨[' '], rfl⟩, Utf8.text (quoted s) ++ ascii ": ", ?_, hs, ?_, ?_⟩
    · simp only [dumpKey, hq, ok_bind]
      rfl
    · rw [Lead.chars, Utf8.text_append, text_indentWs, Utf8.text_append, List.nil_append]
      rfl
    · rw [Lead.chars]
      simp only [List.forall_mem_append]
      exact ⟨ascii_indentWs level, hlt, all_ascii (by decide), all_ascii (by decide)⟩

/-- The members of a container as the loop writes them, up to the indent of the closing bracket. -/
theorem dumpMembers_spec {dump : JsonValue → Except Errno Bytes} {norm : Json (List ℕ) → Json (List ℕ)}
    {type : Container} (level : ℕ) : ∀ (ms : List (List ℕ × Json (List ℕ))) (first : Bool), ms ≠ [] →
    (∀ m ∈ ms, ReadMember type m ∧ ∃ p, Dumps dump norm m.2 p) →
    ∃ (es : Entries type) (out : Bytes), dumpMembers dump type level first (ms.map storedMember) = .ok out ∧
      dumpMembers dump type level first (ms.map fun m => storedMember (m.1, norm m.2)) = .ok out ∧
      out ++ appendIndent level = (if first then [] else [byte ',']) ++ Utf8.text es.chars ∧
      es.members = ms.map (fun m => (m.1, norm m.2)) ∧ ∀ c ∈ es.chars, c.toNat < 0x80
  | [], _, hne, _ => absurd rfl hne
  | [m], first, _, hms => by
    obtain ⟨hread, p, hp⟩ := hms m (by simp)
    obtain ⟨lead, label, hlabel, hlead, htext, hlt⟩ := dumpKey_spec hread.key hread.noKey (level + 1)
    refine ⟨.one lead p (indentWs level), (if first then [] else [byte ',']) ++ (appendIndent (level + 1) ++
      (label ++ (Utf8.text p.chars ++ []))), ?_, ?_, ?_, ?_, ?_⟩
    · simp only [List.map_cons, List.map_nil, storedMember, dumpMembers, hlabel, hp.dumped, ok_bind]
      rfl
    · simp only [List.map_cons, List.map_nil, storedMember, dumpMembers, hlabel, hp.again, ok_bind]
      rfl
    · simp only [Entries.chars, Utf8.text_append, htext, text_indentWs, List.append_assoc, List.append_nil]
    · simp only [Entries.members, hlead, hp.tree, List.map_cons, List.map_nil]
    · simp only [Entries.chars, List.forall_mem_append]
      exact ⟨hlt, hp.chars_lt, ascii_indentWs level⟩
  | m :: m' :: ms, first, _, hms => by
    obtain ⟨hread, p, hp⟩ := hms m (by simp)
    obtain ⟨lead, label, hlabel, hlead, htext, hlt⟩ := dumpKey_spec hread.key hread.noKey (level + 1)
    obtain ⟨es, out, h1, h2, h3, h4, h5⟩ := dumpMembers_spec level (m' :: ms) false (by simp)
      fun x hx => hms x (List.mem_cons_of_mem m hx)
    refine ⟨.more lead p ⟨[], rfl⟩ es, (if first then [] else [byte ',']) ++ (appendIndent (level + 1) ++
      (label ++ (Utf8.text p.chars ++ out))), ?_, ?_, ?_, ?_, ?_⟩
    · rw [List.map_cons, dumpMembers]
      simp only [storedMember, hlabel, hp.dumped, ok_bind]
      rw [h1]
      rfl
    · rw [List.map_cons, dumpMembers]
      simp only [storedMember] at h2 ⊢
      simp only [hlabel, hp.again, ok_bind]
      rw [h2]
      rfl
    · simp only [Entries.chars, Utf8.text_append, htext, List.append_assoc, List.nil_append]
      rw [h3, text_ascii (by decide)]
      rfl
    · simp only [Entries.members, hlead, hp.tree, h4, List.map_cons]
    · simp only [Entries.chars, List.forall_mem_append, List.forall_mem_cons]
      exact ⟨hlt, hp.chars_lt, fun _ hc => absurd hc List.not_mem_nil, by decide, h5⟩

/-- The members in the order in which the writer visits them. -/
theorem order_stored {type : Container} {members : List (List ℕ × Json (List ℕ))}
    (hb : ∀ m ∈ members, ∀ u ∈ m.1, u < 0x110000) :
    (if type = .object ∧ sortKeys = true then sortedMembers (members.map storedMember) else members.map storedMember) =
      (arrange sortKeys type members).map storedMember := by
  unfold arrange
  by_cases ht : type = .object
  · by_cases hs : sortKeys = true
    · rw [if_pos ⟨ht, hs⟩, if_pos ht, sortedMembers_stored hb, hs]
    · rw [if_neg fun h => hs h.2, if_pos ht, orderMembers, if_neg hs]
  · rw [if_neg fun h => ht h.1, if_neg ht]

theorem text_container (type : Container) (es : Entries type) : Utf8.text (Phrase.container type es).chars =
    type.openByte :: (Utf8.text es.chars ++ [type.close]) := by
  rw [Phrase.chars, text_ascii (openChar_lt type), Utf8.text_append, text_ascii (closeChar_lt type), ← close_eq]
  cases type <;> rfl

theorem dumpContainer_spec {dump : JsonValue → Except Errno Bytes} {norm : Json (List ℕ) → Json (List ℕ)}
    {type : Container} (level : ℕ) {members : List (List ℕ × Json (List ℕ))}
    (hms : ∀ m ∈ members, ReadMember type m ∧ ∃ p, Dumps dump norm m.2 p) :
    ∃ p : Phrase, dumpContainer dump type sortKeys level (members.map storedMember) = .ok (Utf8.text p.chars) ∧
      dumpContainer dump type sortKeys level
        ((arrange sortKeys type (members.map fun m => (m.1, norm m.2))).map storedMember) = .ok (Utf8.text p.chars) ∧
      p.tree = type.value (arrange sortKeys type (members.map fun m => (m.1, norm m.2))) ∧
      ∀ c ∈ p.chars, c.toNat < 0x80 := by
  by_cases hne : members = []
  · subst hne
    have hnil : arrange sortKeys type (List.map (fun m => (m.1, norm m.2)) ([] : List (List ℕ × Json (List ℕ)))) = [] :=
      List.perm_nil.mp (arrange_perm type [])
    rw [hnil]
    refine ⟨.empty type ⟨[], rfl⟩, ?_, ?_, ?_, ?_⟩
    · cases type <;> rfl
    · cases type <;> rfl
    · rw [Phrase.tree]
    · cases type <;> exact all_ascii (by decide)
  · have hperm : (arrange sortKeys type members).Perm members := arrange_perm type members
    have hmem : ∀ m ∈ arrange sortKeys type members, m ∈ members := fun m hm => hperm.mem_iff.mp hm
    have hne' : arrange sortKeys type members ≠ [] := fun h => hne (List.nil_perm.mp (h ▸ hperm))
    obtain ⟨es, out, h1, h2, h3, h4, h5⟩ := @dumpMembers_spec dump norm type level
      (arrange sortKeys type members) true hne' fun m hm => hms m (hmem m hm)
    have hout : ∀ ms : List (List ℕ × Json (List ℕ)), ms ≠ [] → (∀ m ∈ ms, ∀ u ∈ m.1, u < 0x110000) →
        dumpMembers dump type level true ((arrange sortKeys type ms).map storedMember) = .ok out →
        dumpContainer dump type sortKeys level (ms.map storedMember) = .ok (Utf8.text (Phrase.container type es).chars) := by
      intro ms hms hb hd
      unfold dumpContainer
      have h3' : out ++ appendIndent level = Utf8.text es.chars := h3
      rw [if_neg (by simpa using hms), order_stored hb]
      simp only [hd, ok_bind, text_container, ← h3', List.append_assoc]
      rfl
    rw [← arrange_map]
    have hkey : ∀ m ∈ members, ∀ u ∈ m.1, u < 0x110000 := fun m hm => (hms m hm).1.key.lt
    refine ⟨.container type es, hout members hne hkey h1, hout _ (by simpa using hne') ?_ ?_, ?_, ?_⟩
    · intro m hm
      obtain ⟨m', hm', rfl⟩ := List.mem_map.mp hm
      exact hkey m' (hmem m' hm')
    · rw [arrange_map, arrange_arrange, ← arrange_map, List.map_map]
      exact h2
    · rw [Phrase.tree, h4]
    · rw [Phrase.chars, List.forall_mem_cons, List.forall_mem_append, List.forall_mem_singleton]
      exact ⟨openChar_lt type, h5, closeChar_lt type⟩

/-! ## Values -/

theorem stored_container_dump {left : ℕ} {type : Container} {members : List (List ℕ × Json (List ℕ))}
    (hn : type = .array → ∀ m ∈ members, m.1 = []) : dumpValue libc sortKeys (left + 1) (stored (type.value members)) =
      dumpContainer (dumpValue libc sortKeys left) type sortKeys (JSON_MAX_DEPTH - left) (members.map storedMember) := by
  rw [stored_value]
  cases type with
  | object => rfl
  | array =>
    have hmap : (members.map storedMember).map (fun m => (([] : Bytes), m.2)) = members.map storedMember := by
      rw [List.map_map]
      refine List.map_congr_left fun m hm => ?_
      simp only [Function.comp, storedMember, hn rfl m hm, Utf8.encodeAll_nil]
    rw [Container.value, dumpValue, List.map_map]
    rw [← hmap, List.map_map]
    rfl

theorem ascii_number (n : Number) : ∀ c ∈ n.chars, c.toNat < 0x80 := by
  have hdigits : ∀ ds : List (Fin 10), ∀ c ∈ ds.map digitChar, c.toNat < 0x80 := by
    intro ds c hc
    obtain ⟨d, -, rfl⟩ := List.mem_map.mp hc
    exact digitChar_lt d
  have hD : ∀ d : Digits, ∀ c ∈ d.chars, c.toNat < 0x80 := fun d => hdigits (d.first :: d.rest)
  obtain ⟨minus, i, frac, exp⟩ := n
  rw [Number.chars]
  simp only [List.forall_mem_append]
  refine ⟨?_, ?_, ?_, ?_⟩
  · cases minus <;> exact all_ascii (by decide)
  · cases i with
    | zero => exact all_ascii (by decide)
    | nonzero first ds =>
      rw [IntPart.chars, List.forall_mem_cons]
      exact ⟨(firstDigit_facts first).1, hdigits ds⟩
  · cases frac with
    | none => exact fun _ hc => absurd hc List.not_mem_nil
    | some d =>
      rw [fracChars, List.forall_mem_cons]
      exact ⟨by decide, hD d⟩
  · cases exp with
    | none => exact fun _ hc => absurd hc List.not_mem_nil
    | some e =>
      rw [expChars, ExpPart.chars, List.forall_mem_cons, List.forall_mem_append]
      refine ⟨by cases e.upper <;> decide, ?_, hD e.digits⟩
      cases e.sign with
      | none => exact fun _ hc => absurd hc List.not_mem_nil
      | some plus => cases plus <;> exact all_ascii (by decide)

/-- A number is written as a number. -/
theorem dumpNumber_spec (hdoc : libc.Documented) {left : ℕ} (n : Number)
    (hw : Within libc.finite left (n.tree : Json (List ℕ))) :
    ∃ p, Dumps (dumpValue libc sortKeys (left + 1)) (normalize (floatText libc) sortKeys) n.tree p ∧
      Within libc.finite left (normalize (floatText libc) sortKeys n.tree) := by
  by_cases hi : n.isInteger = true
  · have htree : (n.tree : Json (List ℕ)) = .integer (Utf8.text n.chars) := if_pos hi
    rw [htree] at hw ⊢
    by_cases hz : Utf8.text n.chars = ascii "-0"
    · rw [hz]
      refine ⟨.number ⟨false, .zero, none, none⟩, ⟨?_, ?_, ?_, ascii_number _⟩, ?_⟩
      · rfl
      · rfl
      · rfl
      · have hone : digitCount (ascii "0") ≤ JSON_MAX_INTEGER_DIGITS := by decide
        rw [normalize, if_pos rfl]
        simpa [Within] using hone
    · have hnorm : normalize (floatText libc) sortKeys (.integer (Utf8.text n.chars)) = .integer (Utf8.text n.chars) := by
        rw [normalize, if_neg hz]
      refine ⟨.number n, ⟨?_, ?_, ?_, ascii_number n⟩, by rw [hnorm]; exact hw⟩
      · change Except.ok (if Utf8.text n.chars = ascii "-0" then ascii "0" else Utf8.text n.chars) = _
        rw [if_neg hz]
        rfl
      · rw [hnorm]
        change Except.ok (if Utf8.text n.chars = ascii "-0" then ascii "0" else Utf8.text n.chars) = _
        rw [if_neg hz]
        rfl
      · rw [hnorm]
        exact htree
  · have htree : (n.tree : Json (List ℕ)) = .float (Utf8.text n.chars) := if_neg hi
    rw [htree] at hw ⊢
    have hfin : libc.finite (Utf8.text n.chars) = true := by simpa [Within] using hw
    obtain ⟨n', hni, hok, hval, hfin'⟩ := appendPythonFloat_spec hdoc n hfin
    have hnorm : normalize (floatText libc) sortKeys (.float (Utf8.text n.chars)) = .float (Utf8.text n'.chars) := by
      rw [normalize, floatText, hok]
    have hagain : appendPythonFloat libc (Utf8.text n'.chars) = .ok (Utf8.text n'.chars) := by
      rw [← hok]
      unfold appendPythonFloat
      rw [hval]
    refine ⟨.number n', ⟨hok, ?_, ?_, ascii_number n'⟩, ?_⟩
    · rw [hnorm]
      exact hagain
    · rw [hnorm, Phrase.tree, Number.tree, if_neg (by simp [hni])]
    · rw [hnorm]
      simpa [Within] using hfin'

/-- **What is written for a value that was read**: a phrase of its normal form, in ASCII and within the limits. -/
theorem dumpValue_spec (hdoc : libc.Documented) : ∀ (left : ℕ) (t : Json (List ℕ)), Readable t →
    Within libc.finite left t →
    ∃ p, Dumps (dumpValue libc sortKeys (left + 1)) (normalize (floatText libc) sortKeys) t p ∧
      Within libc.finite left (normalize (floatText libc) sortKeys t) := by
  intro left
  induction left with
  | zero =>
    intro t ht hw
    cases ht.shape with
    | null => exact ⟨.null, ⟨rfl, rfl, rfl, all_ascii (by decide)⟩, trivial⟩
    | false => exact ⟨.false, ⟨rfl, rfl, rfl, all_ascii (by decide)⟩, trivial⟩
    | true => exact ⟨.true, ⟨rfl, rfl, rfl, all_ascii (by decide)⟩, trivial⟩
    | number n => exact dumpNumber_spec hdoc n hw
    | string us h =>
      obtain ⟨s, rfl, hq, hlt⟩ := appendQuoted_spec h.lt h.noFuse
      exact ⟨.string s, ⟨hq, hq, rfl, hlt⟩, trivial⟩
    | container type members h => exact absurd hw not_within_zero_value
  | succ left ih =>
    intro t ht hw
    cases ht.shape with
    | null => exact ⟨.null, ⟨rfl, rfl, rfl, all_ascii (by decide)⟩, trivial⟩
    | false => exact ⟨.false, ⟨rfl, rfl, rfl, all_ascii (by decide)⟩, trivial⟩
    | true => exact ⟨.true, ⟨rfl, rfl, rfl, all_ascii (by decide)⟩, trivial⟩
    | number n => exact dumpNumber_spec hdoc n hw
    | string us h =>
      obtain ⟨s, rfl, hq, hlt⟩ := appendQuoted_spec h.lt h.noFuse
      exact ⟨.string s, ⟨hq, hq, rfl, hlt⟩, trivial⟩
    | container type members h =>
      obtain ⟨hnodup, hall⟩ := within_value.mp hw
      have hmembers : ∀ m ∈ members, ReadMember type m ∧
          ∃ p, Dumps (dumpValue libc sortKeys (left + 1)) (normalize (floatText libc) sortKeys) m.2 p := fun m hm =>
        ⟨h m hm, (ih m.2 (h m hm).value (hall m hm)).imp fun _ hp => hp.1⟩
      obtain ⟨p, h1, h2, h3, h4⟩ := @dumpContainer_spec sortKeys _ _ type (JSON_MAX_DEPTH - (left + 1)) members hmembers
      have hnorm := normalize_value (floatText libc) sortKeys type members
      set ordered := arrange sortKeys type (members.map (normalizeMember (floatText libc) sortKeys)) with hordered
      have hperm : ordered.Perm (members.map (normalizeMember (floatText libc) sortKeys)) := arrange_perm type _
      have hnokey : type = .array → ∀ m ∈ ordered, m.1 = [] := by
        intro hty m hm
        obtain ⟨m', hm', rfl⟩ := List.mem_map.mp (hperm.mem_iff.mp hm)
        exact (h m' hm').noKey hty
      refine ⟨p, ⟨?_, ?_, ?_, h4⟩, ?_⟩
      · rw [stored_container_dump fun hty m hm => (h m hm).noKey hty]
        exact h1
      · rw [hnorm, stored_container_dump hnokey]
        exact h2
      · rw [hnorm]
        exact h3
      · rw [hnorm, within_value]
        refine ⟨fun hty => ?_, fun m hm => ?_⟩
        · have hkeys : (ordered.map (·.1)).Perm (members.map (·.1)) := by
            have := hperm.map (·.1)
            rwa [List.map_map] at this
          exact hkeys.nodup_iff.mpr (hnodup hty)
        · obtain ⟨m', hm', rfl⟩ := List.mem_map.mp (hperm.mem_iff.mp hm)
          obtain ⟨-, -, hw'⟩ := ih m'.2 (h m' hm').value (hall m' hm')
          exact hw'

end Dump

/-- **Round trip**: a value that was read is written in ASCII, the text is read back as its normal form, and writing
that again gives the same bytes. -/
theorem jsonDump_round_trip {D : Type} (libc : Libc D) (hdoc : libc.Documented) (sortKeys : Bool) {text : Bytes}
    {v : JsonValue} (h : jsonParse libc.finite text = .ok v) :
    ∃ (t : Json (List ℕ)) (out : Bytes), v = stored t ∧ jsonDump libc v sortKeys = .ok out ∧
      (∀ b ∈ out, b.toNat < 0x80) ∧
      jsonParse libc.finite out = .ok (stored (normalize (floatText libc) sortKeys t)) ∧
      jsonDump libc (stored (normalize (floatText libc) sortKeys t)) sortKeys = .ok out := by
  obtain ⟨t, ⟨p, -, -, -, hp, hw⟩, rfl⟩ := jsonParse_sound h
  obtain ⟨p', hd, hw'⟩ := @dumpValue_spec D libc sortKeys hdoc JSON_MAX_DEPTH t ⟨p, hp⟩ hw
  refine ⟨t, Utf8.text p'.chars, rfl, hd.dumped, ?_, ?_, hd.again⟩
  · rw [text_word hd.chars_lt]
    intro b hb
    obtain ⟨c, hc, rfl⟩ := List.mem_map.mp hb
    rw [byte_toNat (hd.chars_lt c hc)]
    exact hd.chars_lt c hc
  · refine jsonParse_complete ⟨p', ⟨[], rfl⟩, ⟨[], rfl⟩, by simp, hd.tree, hw'⟩

/-- A library that knows the two zeros only. -/
def zeroLibc : Libc Bool where
  strtod t := (t.head? == some (byte '-'), t.length)
  isfinite _ := true
  signbit x := x
  fabs _ := false
  neg _ := true
  eq x y := x == y
  lt _ _ := false
  isZero _ := true
  printE _ _ := []

theorem Decimal.head_ne_minus {t : Bytes} {q : ℚ} (h : Decimal t q) : (t.head? == some (byte '-')) = false := by
  have hdigit : ∀ (a r : Bytes), AllDigits a → a ≠ [] → ((a ++ r).head? == some (byte '-')) = false := by
    intro a r ha hne
    obtain ⟨d, ds, rfl⟩ := List.exists_cons_of_ne_nil hne
    obtain ⟨x, rfl⟩ := isDigit_byte (ha d (by simp))
    rw [List.cons_append, List.head?_cons]
    clear ha hne
    revert x
    decide
  cases h with
  | whole a e x ha hne he => exact hdigit a e ha hne
  | point a b e x ha hne hb he => exact hdigit a _ ha hne

theorem zeroLibc_documented : zeroLibc.Documented where
  strtod_takes _ := rfl
  strtod_value h h' := by
    change (_ == _) = (_ == _)
    rw [h.head_ne_minus, h'.head_ne_minus]
  strtod_minus _ := rfl
  isfinite_neg _ := rfl
  signbit_strtod h := h.head_ne_minus
  signbit_neg _ := rfl
  fabs_strtod h := h.head_ne_minus.symm
  fabs_neg _ := rfl
  isZero_strtod h _ := h.head_ne_minus
  eq_strtod _ _ := beq_iff_eq
  printE_shape _ _ h := by cases h
  printE_round_trip _ _ h := by cases h

/-- An object whose string has an escaped lone high surrogate before an astral character. -/
def surrogateText : Bytes :=
  ascii "\x7b\"b\":[-0,-0.0],\"a\":\"\\ud83d" ++ [0xF0, 0x9F, 0x98, 0x80] ++ ascii "\"\x7d"

def surrogateValue : JsonValue :=
  .object [(ascii "b", .array [.integer (ascii "-0"), .float (ascii "-0.0")]),
    (ascii "a", .string [0xED, 0xA0, 0xBD, 0xF0, 0x9F, 0x98, 0x80])]

theorem unescaped_b : Unescaped 'b' := by decide

/-- Its derivation. -/
def surrogatePhrase : Phrase :=
  .container .object (.more (.key ⟨[], isWs_nil⟩ [.raw 'b' unescaped_b] ⟨[], isWs_nil⟩ ⟨[], isWs_nil⟩)
    (.container .array (.more (.item ⟨[], isWs_nil⟩) (.number ⟨true, .zero, none, none⟩) ⟨[], isWs_nil⟩
      (.one (.item ⟨[], isWs_nil⟩) (.number ⟨true, .zero, some ⟨0, []⟩, none⟩) ⟨[], isWs_nil⟩))) ⟨[], isWs_nil⟩
    (.one (.key ⟨[], isWs_nil⟩ [.raw 'a' (by decide)] ⟨[], isWs_nil⟩ ⟨[], isWs_nil⟩)
      (.string [.unicode ⟨13, false⟩ ⟨8, false⟩ ⟨3, false⟩ ⟨13, false⟩, .raw '😀' (by decide)]) ⟨[], isWs_nil⟩))

theorem jsonParse_surrogateText : jsonParse zeroLibc.finite surrogateText = .ok surrogateValue := by
  refine jsonParse_complete (t := surrogatePhrase.tree) ⟨surrogatePhrase, ⟨[], rfl⟩, ⟨[], rfl⟩, by decide, rfl, ?_⟩
  have hzero : digitCount (ascii "-0") ≤ JSON_MAX_INTEGER_DIGITS := by decide
  refine ⟨by decide, List.forall_mem_cons.mpr ⟨?_, List.forall_mem_singleton.mpr trivial⟩⟩
  exact List.forall_mem_cons.mpr ⟨hzero, List.forall_mem_singleton.mpr rfl⟩

theorem jsonDump_round_trip_surrogate : ∃ (t : Json (List ℕ)) (out : Bytes), surrogateValue = stored t ∧
    jsonDump zeroLibc surrogateValue true = .ok out ∧ (∀ b ∈ out, b.toNat < 0x80) ∧
    jsonParse zeroLibc.finite out = .ok (stored (normalize (floatText zeroLibc) true t)) ∧
    jsonDump zeroLibc (stored (normalize (floatText zeroLibc) true t)) true = .ok out :=
  jsonDump_round_trip zeroLibc zeroLibc_documented true jsonParse_surrogateText

end Hamn.StrictJson
