import Hamn.Guest.JsonGrammar

/-!
# JsonUtf8 — the reader's UTF-8 functions against the encoding

`utf8_append` writes the encoding, `utf8_decode` reads exactly the encodings back, and `json_utf8_valid` accepts
exactly the encoded texts.
-/

namespace Hamn.StrictJson

theorem or_eq_add {a k b : ℕ} (h : b < 2 ^ k) : a <<< k ||| b = a * 2 ^ k + b := by
  rw [← Nat.shiftLeft_add_eq_or_of_lt h, Nat.shiftLeft_eq]

theorem and_low6 (a : ℕ) : a &&& 0x3F = a % 64 := Nat.and_two_pow_sub_one_eq_mod a 6

theorem or_tag {b : ℕ} (h : b < 64) : 0x80 ||| b = 0x80 + b := or_eq_add (a := 2) (k := 6) h

/-- `utf8_append` writes the encoding. -/
theorem utf8Append_eq {u : ℕ} (h : u < 0x110000) : utf8Append u = Utf8.encode u := by
  have h6 : u >>> 6 = u / 64 := Nat.shiftRight_eq_div_pow u 6
  have h12 : u >>> 12 = u / 4096 := Nat.shiftRight_eq_div_pow u 12
  have h18 : u >>> 18 = u / 262144 := Nat.shiftRight_eq_div_pow u 18
  unfold utf8Append Utf8.encode
  simp only [h6, h12, h18, and_low6]
  split_ifs with h1 h2 h3
  · rfl
  · have hlead : 0xC0 ||| u / 64 = 0xC0 + u / 64 := or_eq_add (a := 3) (k := 6) (by omega)
    rw [hlead, or_tag (by omega)]
  · have hlead : 0xE0 ||| u / 4096 = 0xE0 + u / 4096 := or_eq_add (a := 7) (k := 5) (by omega)
    rw [hlead, or_tag (by omega), or_tag (by omega)]
  · have hlead : 0xF0 ||| u / 262144 = 0xF0 + u / 262144 := or_eq_add (a := 15) (k := 4) (by omega)
    rw [hlead, or_tag (by omega), or_tag (by omega), or_tag (by omega)]

/-! ## Decoding -/

theorem and_tag_eq {b : ℕ} (h : b < 256) : b &&& 0xC0 = 0x80 ↔ 0x80 ≤ b ∧ b < 0xC0 := by
  have hall : ∀ b < 256, b &&& 0xC0 = 0x80 ↔ 0x80 ≤ b ∧ b < 0xC0 := by decide +kernel
  exact hall b h

/-- A continuation byte appends six bits. -/
theorem utf8Continue_tag {value n d : ℕ} {s : Bytes} (h : d < 64) :
    utf8Continue value (n + 1) (UInt8.ofNat (0x80 + d) :: s) = utf8Continue (value * 64 + d) n s := by
  have hb : (UInt8.ofNat (0x80 + d)).toNat = 0x80 + d := by rw [UInt8.toNat_ofNat']; omega
  rw [utf8Continue, hb, if_neg (not_not.mpr ((and_tag_eq (by omega)).mpr ⟨by omega, by omega⟩)), and_low6,
    or_eq_add (k := 6) (by omega), show (0x80 + d) % 64 = d by omega]
  norm_num

/-- What the loop accepted was made of continuation bytes. -/
theorem utf8Continue_eq_some {value n v : ℕ} {s : Bytes} (h : utf8Continue value (n + 1) s = some v) :
    ∃ d s', d < 64 ∧ s = UInt8.ofNat (0x80 + d) :: s' ∧ utf8Continue (value * 64 + d) n s' = some v := by
  cases s with
  | nil => cases h
  | cons b s =>
    have hb := b.toNat_lt
    by_cases hc : b.toNat &&& 0xC0 = 0x80
    · have hr := (and_tag_eq hb).mp hc
      have heq : b = UInt8.ofNat (0x80 + b.toNat % 64) := by
        rw [← UInt8.toNat_inj, UInt8.toNat_ofNat']
        omega
      refine ⟨b.toNat % 64, s, by omega, by rw [← heq], ?_⟩
      rwa [heq, utf8Continue_tag (by omega)] at h
    · rw [utf8Continue, if_pos hc] at h
      cases h

/-- A code point that `utf8_decode` can return. -/
def Decodable (allowSurrogates : Bool) (u : ℕ) : Prop :=
  u < 0x110000 ∧ (allowSurrogates = false → ¬ (0xD800 ≤ u ∧ u ≤ 0xDFFF))

theorem utf8Lead_eq {first : ℕ} (h : first < 256) : utf8Lead first =
    if 0xC2 ≤ first ∧ first ≤ 0xDF then some (2, 0x80, first - 0xC0)
    else if 0xE0 ≤ first ∧ first ≤ 0xEF then some (3, 0x800, first - 0xE0)
    else if 0xF0 ≤ first ∧ first ≤ 0xF4 then some (4, 0x10000, first - 0xF0)
    else none := by
  have h1 : first &&& 0x1F = first % 32 := Nat.and_two_pow_sub_one_eq_mod first 5
  have h2 : first &&& 0x0F = first % 16 := Nat.and_two_pow_sub_one_eq_mod first 4
  have h3 : first &&& 0x07 = first % 8 := Nat.and_two_pow_sub_one_eq_mod first 3
  unfold utf8Lead
  rw [h1, h2, h3]
  split_ifs with c1 c2 c3
  · rw [show first % 32 = first - 0xC0 by omega]
  · rw [show first % 16 = first - 0xE0 by omega]
  · rw [show first % 8 = first - 0xF0 by omega]
  · rfl

theorem utf8Decode_cons {a : Bool} {first : UInt8} {s : Bytes} {length minimum value : ℕ} (h : 0x80 ≤ first.toNat)
    (hl : utf8Lead first.toNat = some (length, minimum, value)) :
    utf8Decode a (first :: s) = if s.length + 1 < length then none else
      match utf8Continue value (length - 1) s with
      | none => none
      | some u => if u < minimum ∨ u > 0x10FFFF then none
        else if a = false ∧ u ≥ 0xD800 ∧ u ≤ 0xDFFF then none else some (length, u) := by
  rw [utf8Decode, if_neg (by omega)]
  generalize utf8Lead first.toNat = lead at hl ⊢
  subst hl
  rfl

/-- `utf8_decode` reads the encoding back. -/
theorem utf8Decode_encode {a : Bool} {u : ℕ} (h : Decodable a u) (r : Bytes) :
    utf8Decode a (Utf8.encode u ++ r) = some ((Utf8.encode u).length, u) := by
  obtain ⟨hlt, hsur⟩ := h
  have hnot : ¬ (a = false ∧ u ≥ 0xD800 ∧ u ≤ 0xDFFF) := fun ⟨ha, hs⟩ => hsur ha hs
  have hval : ∀ x, x < 256 → (UInt8.ofNat x).toNat = x := fun x hx => by rw [UInt8.toNat_ofNat']; omega
  unfold Utf8.encode
  split_ifs with h1 h2 h3 <;> simp only [List.cons_append, List.nil_append]
  · rw [utf8Decode, hval _ (by omega), if_pos h1]
    rfl
  · have hlead : utf8Lead (UInt8.ofNat (0xC0 + u / 64)).toNat = some (2, 0x80, u / 64) := by
      rw [hval _ (by omega), utf8Lead_eq (by omega), if_pos (by omega), Nat.add_sub_cancel_left]
    rw [utf8Decode_cons (by rw [hval _ (by omega)]; omega) hlead, if_neg (by simp), utf8Continue_tag (by omega),
      utf8Continue]
    simp only
    rw [show u / 64 * 64 + u % 64 = u by omega, if_neg (by omega), if_neg hnot]
    rfl
  · have hlead : utf8Lead (UInt8.ofNat (0xE0 + u / 4096)).toNat = some (3, 0x800, u / 4096) := by
      rw [hval _ (by omega), utf8Lead_eq (by omega), if_neg (by omega), if_pos (by omega), Nat.add_sub_cancel_left]
    rw [utf8Decode_cons (by rw [hval _ (by omega)]; omega) hlead, if_neg (by simp), utf8Continue_tag (by omega),
      utf8Continue_tag (by omega), utf8Continue]
    simp only
    rw [show (u / 4096 * 64 + u / 64 % 64) * 64 + u % 64 = u by omega, if_neg (by omega), if_neg hnot]
    rfl
  · have hlead : utf8Lead (UInt8.ofNat (0xF0 + u / 262144)).toNat = some (4, 0x10000, u / 262144) := by
      rw [hval _ (by omega), utf8Lead_eq (by omega), if_neg (by omega), if_neg (by omega), if_pos (by omega),
        Nat.add_sub_cancel_left]
    rw [utf8Decode_cons (by rw [hval _ (by omega)]; omega) hlead, if_neg (by simp), utf8Continue_tag (by omega),
      utf8Continue_tag (by omega), utf8Continue_tag (by omega), utf8Continue]
    simp only
    rw [show ((u / 262144 * 64 + u / 4096 % 64) * 64 + u / 64 % 64) * 64 + u % 64 = u by omega, if_neg (by omega),
      if_neg hnot]
    rfl

/-- The range checks at the end of `utf8_decode`. -/
theorem range_of_some {a : Bool} {minimum length u n v : ℕ}
    (h : (if u < minimum ∨ u > 0x10FFFF then none
      else if a = false ∧ u ≥ 0xD800 ∧ u ≤ 0xDFFF then none else some (length, u)) = some (n, v)) :
    u = v ∧ length = n ∧ minimum ≤ v ∧ Decodable a v := by
  split_ifs at h with h1 h2
  obtain ⟨rfl, rfl⟩ : length = n ∧ u = v := by simpa using h
  exact ⟨rfl, rfl, by omega, by omega, fun ha hs => h2 ⟨ha, hs⟩⟩

/-- `utf8_decode` accepts encodings only. -/
theorem utf8Decode_eq_some {a : Bool} {s : Bytes} {n u : ℕ} (h : utf8Decode a s = some (n, u)) :
    Decodable a u ∧ n = (Utf8.encode u).length ∧ ∃ r, s = Utf8.encode u ++ r := by
  cases s with
  | nil => cases h
  | cons first s =>
    have hf := first.toNat_lt
    have hself : ∀ x, first.toNat = x → first = UInt8.ofNat x := fun x hx => by rw [← hx, UInt8.ofNat_toNat]
    by_cases hascii : first.toNat < 0x80
    · rw [utf8Decode, if_pos hascii] at h
      obtain ⟨rfl, rfl⟩ : 1 = n ∧ first.toNat = u := by simpa using h
      refine ⟨⟨by omega, fun _ => by omega⟩, ?_, s, ?_⟩
      · rw [Utf8.encode_ascii hascii]
        rfl
      · rw [Utf8.encode_ascii hascii, ← hself _ rfl]
        rfl
    · have hlead := utf8Lead_eq hf
      split_ifs at hlead with c1 c2 c3
      · -- two bytes
        rw [utf8Decode_cons (by omega) hlead] at h
        split_ifs at h with hlen
        cases hc : utf8Continue (first.toNat - 0xC0) (2 - 1) s with
        | none => rw [hc] at h; cases h
        | some w =>
          rw [hc] at h
          obtain ⟨d, s1, hd, rfl, h1⟩ := utf8Continue_eq_some hc
          obtain ⟨rfl, rfl, hmin, hdec⟩ := range_of_some h
          have hw : (first.toNat - 0xC0) * 64 + d = w := by simpa [utf8Continue] using h1
          have e0 := hself (0xC0 + w / 64) (by omega)
          have henc : Utf8.encode w = [first, UInt8.ofNat (0x80 + d)] := by
            rw [Utf8.encode, if_neg (by omega), if_pos (by omega), ← e0, show w % 64 = d by omega]
          exact ⟨hdec, by rw [henc]; rfl, s1, by rw [henc]; rfl⟩
      · -- three bytes
        rw [utf8Decode_cons (by omega) hlead] at h
        split_ifs at h with hlen
        cases hc : utf8Continue (first.toNat - 0xE0) (3 - 1) s with
        | none => rw [hc] at h; cases h
        | some w =>
          rw [hc] at h
          obtain ⟨d, s1, hd, rfl, h1⟩ := utf8Continue_eq_some hc
          obtain ⟨d', s2, hd', rfl, h2⟩ := utf8Continue_eq_some h1
          obtain ⟨rfl, rfl, hmin, hdec⟩ := range_of_some h
          have hw : ((first.toNat - 0xE0) * 64 + d) * 64 + d' = w := by simpa [utf8Continue] using h2
          have e0 := hself (0xE0 + w / 4096) (by omega)
          have henc : Utf8.encode w = [first, UInt8.ofNat (0x80 + d), UInt8.ofNat (0x80 + d')] := by
            rw [Utf8.encode, if_neg (by omega), if_neg (by omega), if_pos (by omega), ← e0,
              show w / 64 % 64 = d by omega, show w % 64 = d' by omega]
          exact ⟨hdec, by rw [henc]; rfl, s2, by rw [henc]; rfl⟩
      · -- four bytes
        rw [utf8Decode_cons (by omega) hlead] at h
        split_ifs at h with hlen
        cases hc : utf8Continue (first.toNat - 0xF0) (4 - 1) s with
        | none => rw [hc] at h; cases h
        | some w =>
          rw [hc] at h
          obtain ⟨d, s1, hd, rfl, h1⟩ := utf8Continue_eq_some hc
          obtain ⟨d', s2, hd', rfl, h2⟩ := utf8Continue_eq_some h1
          obtain ⟨d'', s3, hd'', rfl, h3⟩ := utf8Continue_eq_some h2
          obtain ⟨rfl, rfl, hmin, hdec⟩ := range_of_some h
          have hw : (((first.toNat - 0xF0) * 64 + d) * 64 + d') * 64 + d'' = w := by simpa [utf8Continue] using h3
          have e0 := hself (0xF0 + w / 262144) (by omega)
          have henc : Utf8.encode w =
              [first, UInt8.ofNat (0x80 + d), UInt8.ofNat (0x80 + d'), UInt8.ofNat (0x80 + d'')] := by
            rw [Utf8.encode, if_neg (by omega), if_neg (by omega), if_neg (by omega), ← e0,
              show w / 4096 % 64 = d by omega, show w / 64 % 64 = d' by omega, show w % 64 = d'' by omega]
          exact ⟨hdec, by rw [henc]; rfl, s3, by rw [henc]; rfl⟩
      · rw [utf8Decode, if_neg hascii, hlead] at h
        cases h

/-! ## Validation -/

theorem decodable_char (c : Char) (a : Bool) : Decodable a c.toNat :=
  ⟨Utf8.toNat_lt c, fun _ => Utf8.not_surrogate c⟩

theorem exists_char {u : ℕ} (h : Decodable false u) : ∃ c : Char, c.toNat = u := by
  obtain ⟨hlt, hsur⟩ := h
  have hs := hsur rfl
  have hv : u.isValidChar := by
    unfold Nat.isValidChar
    omega
  refine ⟨Char.ofNat u, ?_⟩
  rw [Char.ofNat, dif_pos hv]
  rfl

theorem utf8ValidLoop_text : ∀ (cs : List Char) (fuel : ℕ), (Utf8.text cs).length ≤ fuel →
    utf8ValidLoop fuel (Utf8.text cs) = true
  | [], _, _ => by simp [utf8ValidLoop]
  | c :: cs, fuel, hf => by
    obtain ⟨b, bs, hb⟩ := List.exists_cons_of_ne_nil (Utf8.encode_ne_nil c.toNat)
    rw [Utf8.text_cons, Utf8.encodeChar_eq, List.length_append] at hf
    have hlen : (Utf8.encode c.toNat).length = bs.length + 1 := by rw [hb]; rfl
    have hne : ∃ x xs, Utf8.text (c :: cs) = x :: xs := ⟨b, bs ++ Utf8.text cs, by
      rw [Utf8.text_cons, Utf8.encodeChar_eq, hb]; rfl⟩
    obtain ⟨x, xs, hx⟩ := hne
    obtain ⟨fuel, rfl⟩ : ∃ k, fuel = k + 1 := ⟨fuel - 1, by omega⟩
    rw [hx, utf8ValidLoop, ← hx, Utf8.text_cons, Utf8.encodeChar_eq, utf8Decode_encode (decodable_char c _)]
    simp only [List.drop_left]
    exact utf8ValidLoop_text cs fuel (by omega)

theorem text_of_utf8ValidLoop : ∀ (fuel : ℕ) (s : Bytes), utf8ValidLoop fuel s = true → ∃ cs, s = Utf8.text cs
  | _, [], _ => ⟨[], rfl⟩
  | 0, _ :: _, h => by cases h
  | fuel + 1, b :: s, h => by
    rw [utf8ValidLoop] at h
    cases hd : utf8Decode false (b :: s) with
    | none => rw [hd] at h; cases h
    | some nu =>
      obtain ⟨n, u⟩ := nu
      rw [hd] at h
      obtain ⟨hdec, rfl, r, hr⟩ := utf8Decode_eq_some hd
      obtain ⟨c, rfl⟩ := exists_char hdec
      simp only [hr, List.drop_left] at h
      obtain ⟨cs, hcs⟩ := text_of_utf8ValidLoop fuel r h
      exact ⟨c :: cs, by rw [Utf8.text_cons, Utf8.encodeChar_eq, hr, hcs]⟩

/-- `json_utf8_valid` accepts exactly the encoded texts. -/
theorem jsonUtf8Valid_iff {s : Bytes} : jsonUtf8Valid s = true ↔ ∃ cs, s = Utf8.text cs := by
  constructor
  · exact text_of_utf8ValidLoop _ _
  · rintro ⟨cs, rfl⟩
    exact utf8ValidLoop_text cs _ (Nat.le_refl _)

end Hamn.StrictJson
