import Mathlib

/-!
# Utf8 — generalized UTF-8 as bytes

The encoding of a code point below `0x110000`, surrogates included, with what is needed to reason about texts that
are stored encoded: ASCII bytes stand for themselves and for nothing else, no encoding is a prefix of another one,
and the byte order of two encoded texts is the order of their code points.
-/

namespace Utf8

def encode (u : ℕ) : List UInt8 :=
  if u < 0x80 then [UInt8.ofNat u]
  else if u < 0x800 then [UInt8.ofNat (0xC0 + u / 64), UInt8.ofNat (0x80 + u % 64)]
  else if u < 0x10000 then
    [UInt8.ofNat (0xE0 + u / 4096), UInt8.ofNat (0x80 + u / 64 % 64), UInt8.ofNat (0x80 + u % 64)]
  else [UInt8.ofNat (0xF0 + u / 262144), UInt8.ofNat (0x80 + u / 4096 % 64), UInt8.ofNat (0x80 + u / 64 % 64),
    UInt8.ofNat (0x80 + u % 64)]

def encodeAll (us : List ℕ) : List UInt8 := us.flatMap encode

/-- The UTF-8 encoding of a text. -/
def text (cs : List Char) : List UInt8 := cs.flatMap String.utf8EncodeChar

@[simp] theorem encodeAll_nil : encodeAll [] = [] := rfl

@[simp] theorem encodeAll_cons (u : ℕ) (us : List ℕ) : encodeAll (u :: us) = encode u ++ encodeAll us := rfl

@[simp] theorem encodeAll_append (us us' : List ℕ) : encodeAll (us ++ us') = encodeAll us ++ encodeAll us' :=
  List.flatMap_append ..

@[simp] theorem text_nil : text [] = [] := rfl

@[simp] theorem text_cons (c : Char) (cs : List Char) : text (c :: cs) = String.utf8EncodeChar c ++ text cs := rfl

@[simp] theorem text_append (cs cs' : List Char) : text (cs ++ cs') = text cs ++ text cs' :=
  List.flatMap_append ..

/-- Whether the bytes are well-formed UTF-8 (no overlong form, no surrogate, nothing above `0x10FFFF`). -/
def valid : List UInt8 → Bool
  | [] => true
  | a :: r =>
    if a < 0x80 then valid r
    else
      match r with
      | [] => false
      | b :: r =>
        if 0xC2 ≤ a && a ≤ 0xDF then continues b && valid r
        else
          match r with
          | [] => false
          | c :: r =>
            if 0xE0 ≤ a && a ≤ 0xEF then
              continues b && (a ≠ 0xE0 || 0xA0 ≤ b) && (a ≠ 0xED || b < 0xA0) && continues c && valid r
            else
              match r with
              | [] => false
              | d :: r =>
                0xF0 ≤ a && a ≤ 0xF4 && continues b && (a ≠ 0xF0 || 0x90 ≤ b) && (a ≠ 0xF4 || b < 0x90) &&
                  continues c && continues d && valid r
where
  continues (b : UInt8) : Bool := 0x80 ≤ b && b ≤ 0xBF

theorem valid_of_ascii {l : List UInt8} (h : ∀ b ∈ l, b < 0x80) : valid l = true := by
  induction l with
  | nil => rfl
  | cons a l ih =>
    unfold valid
    rw [if_pos (h a List.mem_cons_self)]
    exact ih fun b hb => h b (List.mem_cons_of_mem a hb)

/-! ## One code point -/

theorem toNat_lt (c : Char) : c.toNat < 0x110000 := by
  have := c.valid
  simp only [UInt32.isValidChar, Nat.isValidChar] at this
  change c.val.toNat < _
  omega

theorem not_surrogate (c : Char) : ¬ (0xD800 ≤ c.toNat ∧ c.toNat ≤ 0xDFFF) := by
  have := c.valid
  simp only [UInt32.isValidChar, Nat.isValidChar] at this
  change ¬ (0xD800 ≤ c.val.toNat ∧ c.val.toNat ≤ 0xDFFF)
  omega

theorem encodeChar_eq (c : Char) : String.utf8EncodeChar c = encode c.toNat := by
  have h := toNat_lt c
  have hv : c.val.toNat = c.toNat := rfl
  unfold String.utf8EncodeChar encode
  simp only [hv]
  generalize c.toNat = v at h
  by_cases h1 : v < 0x80
  · rw [if_pos (by omega), if_pos h1]
  rw [if_neg (by omega), if_neg h1]
  by_cases h2 : v < 0x800
  · rw [if_pos (by omega), if_pos h2, Nat.mod_eq_of_lt (by omega : v / 64 < 0x20)]
    simp only [Nat.add_comm]
  rw [if_neg (by omega), if_neg h2]
  by_cases h3 : v < 0x10000
  · rw [if_pos (by omega), if_pos h3, Nat.mod_eq_of_lt (by omega : v / 4096 < 0x10)]
    simp only [Nat.add_comm]
  · rw [if_neg (by omega), if_neg h3, Nat.mod_eq_of_lt (by omega : v / 262144 < 0x08)]
    simp only [Nat.add_comm]

theorem text_eq_encodeAll (cs : List Char) : text cs = encodeAll (cs.map Char.toNat) := by
  rw [text, encodeAll, List.flatMap_map]
  exact List.flatMap_congr fun c _ => encodeChar_eq c

theorem encode_ascii {u : ℕ} (h : u < 0x80) : encode u = [UInt8.ofNat u] := if_pos h

theorem encode_ne_nil (u : ℕ) : encode u ≠ [] := by
  unfold encode
  split_ifs <;> simp

theorem le_of_mem_encode {u : ℕ} (h : 0x80 ≤ u) (h' : u < 0x110000) {b : UInt8} (hb : b ∈ encode u) :
    0x80 ≤ b.toNat := by
  unfold encode at hb
  rw [if_neg (by omega)] at hb
  split_ifs at hb <;> simp only [List.mem_cons, List.not_mem_nil, or_false] at hb
  · rcases hb with rfl | rfl <;> rw [UInt8.toNat_ofNat'] <;> omega
  · rcases hb with rfl | rfl | rfl <;> rw [UInt8.toNat_ofNat'] <;> omega
  · rcases hb with rfl | rfl | rfl | rfl <;> rw [UInt8.toNat_ofNat'] <;> omega

/-- An ASCII byte at the front of an encoded text is a character of it. -/
theorem text_eq_cons {cs : List Char} {b : UInt8} {r : List UInt8} (h : text cs = b :: r) (hb : b.toNat < 0x80) :
    ∃ cs', cs = Char.ofNat b.toNat :: cs' ∧ r = text cs' := by
  cases cs with
  | nil => cases h
  | cons c cs =>
    rw [text_cons, encodeChar_eq] at h
    have hc : c.toNat < 0x80 := by
      by_contra hge
      obtain ⟨x, xs, hx⟩ := List.exists_cons_of_ne_nil (encode_ne_nil c.toNat)
      have hm : x ∈ encode c.toNat := by rw [hx]; simp
      have hle := le_of_mem_encode (by omega) (toNat_lt c) hm
      rw [hx] at h
      have hxb : x = b := (List.cons.inj h).1
      rw [hxb] at hle
      omega
    rw [encode_ascii hc] at h
    obtain ⟨h1, h2⟩ := List.cons.inj h
    refine ⟨cs, ?_, h2.symm⟩
    rw [← h1, UInt8.toNat_ofNat', Nat.mod_eq_of_lt (by omega), Char.ofNat_toNat]

/-! ## Order -/

private theorem ofNat_lt {a b : ℕ} (hb : b < 256) (h : a < b) : UInt8.ofNat a < UInt8.ofNat b := by
  rw [UInt8.lt_iff_toNat_lt, UInt8.toNat_ofNat', UInt8.toNat_ofNat']
  omega

/-- A smaller leading digit, or an equal one and a smaller rest. -/
private theorem cons_lt_of_digit {a b : ℕ} {l l' : List UInt8} (hb : b < 256) (h : a < b ∨ a = b ∧ l < l') :
    UInt8.ofNat a :: l < UInt8.ofNat b :: l' := by
  rw [List.cons_lt_cons_iff]
  rcases h with h | ⟨rfl, h⟩
  · exact Or.inl (ofNat_lt hb h)
  · exact Or.inr ⟨rfl, h⟩

theorem encode_lt {u v : ℕ} (h : u < v) (hv : v < 0x110000) (r r' : List UInt8) : encode u ++ r < encode v ++ r' := by
  unfold encode
  split_ifs <;> simp only [List.cons_append, List.nil_append] <;> try omega
  all_goals refine cons_lt_of_digit (by omega) ?_
  all_goals try exact Or.inl (by omega)
  · -- two bytes
    by_cases h1 : u / 64 = v / 64
    · exact Or.inr ⟨by omega, cons_lt_of_digit (by omega) (Or.inl (by omega))⟩
    · exact Or.inl (by omega)
  · -- three bytes
    by_cases h1 : u / 4096 = v / 4096
    · refine Or.inr ⟨by omega, cons_lt_of_digit (by omega) ?_⟩
      by_cases h2 : u / 64 = v / 64
      · exact Or.inr ⟨by omega, cons_lt_of_digit (by omega) (Or.inl (by omega))⟩
      · exact Or.inl (by omega)
    · exact Or.inl (by omega)
  · -- four bytes
    by_cases h1 : u / 262144 = v / 262144
    · refine Or.inr ⟨by omega, cons_lt_of_digit (by omega) ?_⟩
      by_cases h2 : u / 4096 = v / 4096
      · refine Or.inr ⟨by omega, cons_lt_of_digit (by omega) ?_⟩
        by_cases h3 : u / 64 = v / 64
        · exact Or.inr ⟨by omega, cons_lt_of_digit (by omega) (Or.inl (by omega))⟩
        · exact Or.inl (by omega)
      · exact Or.inl (by omega)
    · exact Or.inl (by omega)

theorem encode_append_inj {u v : ℕ} (hu : u < 0x110000) (hv : v < 0x110000) {r r' : List UInt8}
    (h : encode u ++ r = encode v ++ r') : u = v ∧ r = r' := by
  rcases Nat.lt_trichotomy u v with hlt | rfl | hlt
  · exact absurd (h ▸ encode_lt hlt hv r r') (List.lt_irrefl _)
  · exact ⟨rfl, List.append_cancel_left h⟩
  · exact absurd (h ▸ encode_lt hlt hu r' r) (List.lt_irrefl _)

theorem encodeAll_lt : ∀ {us vs : List ℕ}, (∀ v ∈ vs, v < 0x110000) → us < vs → encodeAll us < encodeAll vs
  | _, [], _, h => absurd h (List.not_lt_nil _)
  | [], v :: vs, _, _ => by
    obtain ⟨x, xs, hx⟩ := List.exists_cons_of_ne_nil (encode_ne_nil v)
    rw [encodeAll_nil, encodeAll_cons, hx]
    exact List.nil_lt_cons ..
  | u :: us, v :: vs, hv, h => by
    rw [encodeAll_cons, encodeAll_cons]
    rcases List.cons_lt_cons_iff.mp h with h1 | ⟨rfl, h1⟩
    · exact encode_lt h1 (hv v (by simp)) _ _
    · exact List.append_left_lt (encodeAll_lt (fun w hw => hv w (by simp [hw])) h1)

theorem encodeAll_inj {us vs : List ℕ} (hu : ∀ u ∈ us, u < 0x110000) (hv : ∀ v ∈ vs, v < 0x110000)
    (h : encodeAll us = encodeAll vs) : us = vs := by
  rcases lt_trichotomy us vs with hlt | heq | hlt
  · exact absurd (h ▸ encodeAll_lt hv hlt) (List.lt_irrefl _)
  · exact heq
  · exact absurd (h ▸ encodeAll_lt hu hlt) (List.lt_irrefl _)

/-- The byte order of encoded texts is the order of their code points. -/
theorem text_injective : Function.Injective text := by
  intro a b h
  rw [text_eq_encodeAll, text_eq_encodeAll] at h
  have hall : ∀ w : List Char, ∀ u ∈ w.map Char.toNat, u < 0x110000 := by
    intro w u hu
    obtain ⟨c, -, rfl⟩ := List.mem_map.mp hu
    exact toNat_lt c
  have hmap := encodeAll_inj (hall a) (hall b) h
  exact List.map_injective_iff.mpr (fun c d hcd => Char.toNat_inj.mp hcd) hmap

theorem encodeAll_lt_iff {us vs : List ℕ} (hu : ∀ u ∈ us, u < 0x110000) (hv : ∀ v ∈ vs, v < 0x110000) :
    encodeAll us < encodeAll vs ↔ us < vs := by
  refine ⟨fun h => ?_, encodeAll_lt hv⟩
  rcases lt_trichotomy us vs with hlt | rfl | hlt
  · exact hlt
  · exact absurd h (List.lt_irrefl _)
  · exact absurd (List.lt_trans h (encodeAll_lt hu hlt)) (List.lt_irrefl _)

/-! ## Reading a text -/

/-- The text that well-formed bytes encode. -/
def decode (bytes : List UInt8) : Option (List Char) := (String.fromUTF8? ⟨bytes.toArray⟩).map String.toList

theorem text_of_decode {bytes : List UInt8} {cs : List Char} (h : decode bytes = some cs) : bytes = text cs := by
  obtain ⟨s, hs, rfl⟩ := Option.map_eq_some_iff.mp h
  unfold String.fromUTF8? at hs
  split_ifs at hs with hvalid
  obtain rfl := Option.some.inj hs
  have hbytes := String.utf8Encode_toList (b := String.fromUTF8 ⟨bytes.toArray⟩ hvalid)
  have hdata := congrArg (fun b : ByteArray => b.data.toList) hbytes
  exact hdata.symm.trans List.toList_data_toByteArray

theorem decode_text (cs : List Char) : decode (text cs) = some cs := by
  have hbytes : (⟨(text cs).toArray⟩ : ByteArray) = cs.utf8Encode := ByteArray.ext List.data_toByteArray.symm
  have hvalid : (⟨(text cs).toArray⟩ : ByteArray).IsValidUTF8 := ⟨cs, hbytes⟩
  have hstring : String.fromUTF8 _ hvalid = String.ofList cs :=
    String.toByteArray_inj.mp (hbytes.trans String.toByteArray_ofList.symm)
  unfold decode String.fromUTF8?
  rw [dif_pos hvalid, hstring, Option.map_some, String.toList_ofList]

end Utf8
