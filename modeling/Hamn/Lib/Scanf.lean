import Hamn.Lib.Bytes

/-!
# Scanf — conversions of `sscanf`

Each conversion takes the text that is left to a value and the rest.  A directive of blanks is `skipSpace`: it matches any
blanks, also none.  A number is read as `strtoimax` and `strtoumax` read it, with a sign and to the ends of their ranges, and
is then cut to the width of the variable.

* `scanString_word`, `scanUnsigned_decimal`, `scanInt_decimal`: what is printed before a blank is read back.
-/

namespace Scanf

open Bytes

def isSpace (c : UInt8) : Bool := c = 32 || (9 ≤ c && c ≤ 13)

def skipSpace (s : Bytes) : Bytes := s.dropWhile isSpace

/-- `%s` with a width. -/
def scanString (width : ℕ) (s : Bytes) : Option (Bytes × Bytes) :=
  let s := skipSpace s
  let word := (s.takeWhile fun c => !isSpace c).take width
  if word = [] then none else some (word, s.drop word.length)

/-- Whether there is a minus sign, the digits and the rest. -/
def scanDigits (s : Bytes) : Option (Bool × Bytes × Bytes) :=
  let s := skipSpace s
  let (negative, s) := match s with
    | 43 :: s => (false, s)
    | 45 :: s => (true, s)
    | s => (false, s)
  let digits := s.takeWhile isDecimal
  if digits = [] then none else some (negative, digits, s.drop digits.length)

/-- `strtoumax`. -/
def toUnsigned (negative : Bool) (digits : Bytes) : ℕ :=
  if 2 ^ 64 ≤ number digits then 2 ^ 64 - 1
  else if negative then (2 ^ 64 - number digits) % 2 ^ 64
  else number digits

/-- `strtoimax`. -/
def toSigned (negative : Bool) (digits : Bytes) : ℤ :=
  if negative then -(min (number digits) (2 ^ 63) : ℕ) else (min (number digits) (2 ^ 63 - 1) : ℕ)

/-- `%u` for a variable of this many bits. -/
def scanUnsigned (bits : ℕ) (s : Bytes) : Option (ℕ × Bytes) :=
  (scanDigits s).map fun r => (toUnsigned r.1 r.2.1 % 2 ^ bits, r.2.2)

/-- `%d` for a variable of 32 bits. -/
def scanInt (s : Bytes) : Option (ℤ × Bytes) :=
  (scanDigits s).map fun r => ((toSigned r.1 r.2.1 + 2 ^ 31) % 2 ^ 32 - 2 ^ 31, r.2.2)

/-! ## What is printed is read back -/

/-- A word that `%s` reads. -/
def Word (w : Bytes) : Prop := w ≠ [] ∧ ∀ c ∈ w, isSpace c = false

/-- A blank follows, or nothing. -/
def Ends (rest : Bytes) : Prop := ∀ c ∈ rest.head?, isSpace c = true

theorem skipSpace_word {w : Bytes} (hw : Word w) (rest : Bytes) : skipSpace (w ++ rest) = w ++ rest := by
  cases w with
  | nil => exact absurd rfl hw.1
  | cons c w =>
    unfold skipSpace
    rw [List.cons_append, List.dropWhile_cons, if_neg]
    rw [hw.2 c List.mem_cons_self]
    exact Bool.false_ne_true

theorem skipSpace_tab {w : Bytes} (hw : Word w) (rest : Bytes) : skipSpace (9 :: (w ++ rest)) = w ++ rest :=
  skipSpace_word hw rest

/-- Up to the blank every byte is taken. -/
theorem takeWhile_ends {w rest : Bytes} {f : UInt8 → Bool} (hw : ∀ c ∈ w, f c = true)
    (hrest : ∀ c ∈ rest.head?, f c = false) : (w ++ rest).takeWhile f = w := by
  rw [List.takeWhile_append_of_pos hw]
  cases rest with
  | nil => rw [List.takeWhile_nil, List.append_nil]
  | cons c rest => rw [List.takeWhile_cons, if_neg (by rw [hrest c rfl]; exact Bool.false_ne_true), List.append_nil]

theorem scanString_word {w rest : Bytes} {width : ℕ} (hw : Word w) (hlen : w.length ≤ width) (hrest : Ends rest) :
    scanString width (w ++ rest) = some (w, rest) := by
  have htake : (w ++ rest).takeWhile (fun c => !isSpace c) = w := by
    refine takeWhile_ends (fun c hc => ?_) fun c hc => ?_
    · rw [hw.2 c hc]
      rfl
    · rw [hrest c hc]
      rfl
  unfold scanString
  dsimp only
  rw [skipSpace_word hw, htake, List.take_of_length_le hlen, if_neg hw.1, List.drop_left]

theorem word_decimal (n : ℕ) : Word (decimal n) := by
  obtain ⟨hall, hne, -⟩ := decimal_digits n
  refine ⟨hne, fun c hc => ?_⟩
  have := isDecimal_iff.mp (hall c hc)
  refine Bool.eq_false_of_not_eq_true fun hspace => ?_
  simp only [isSpace, Bool.or_eq_true, decide_eq_true_eq, Bool.and_eq_true, UInt8.le_iff_toNat_le] at hspace
  rcases hspace with rfl | ⟨-, hle⟩
  · exact absurd this.1 (by decide)
  · change c.toNat ≤ 13 at hle
    omega

theorem scanDigits_decimal {n : ℕ} {rest : Bytes} (hrest : Ends rest) :
    scanDigits (decimal n ++ rest) = some (false, decimal n, rest) := by
  obtain ⟨hall, hne, -⟩ := decimal_digits n
  have htake : (decimal n ++ rest).takeWhile isDecimal = decimal n := by
    refine takeWhile_ends hall fun c hc => ?_
    have hspace := hrest c hc
    refine Bool.eq_false_of_not_eq_true fun hdigit => ?_
    have := isDecimal_iff.mp hdigit
    simp only [isSpace, Bool.or_eq_true, decide_eq_true_eq, Bool.and_eq_true, UInt8.le_iff_toNat_le] at hspace
    rcases hspace with rfl | ⟨-, hle⟩
    · exact absurd this.1 (by decide)
    · change c.toNat ≤ 13 at hle
      omega
  unfold scanDigits
  dsimp only
  rw [skipSpace_word (word_decimal n)]
  -- the first byte is a digit, so it is no sign
  have hsign : (match decimal n ++ rest with
      | 43 :: s => (false, s)
      | 45 :: s => (true, s)
      | s => (false, s)) = (false, decimal n ++ rest) := by
    cases hdigits : decimal n with
    | nil => exact absurd hdigits hne
    | cons c digits =>
      have hc := isDecimal_iff.mp (hall c (by rw [hdigits]; exact List.mem_cons_self))
      rw [List.cons_append]
      split
      · rename_i heq
        obtain ⟨rfl, -⟩ := List.cons_eq_cons.mp heq
        exact absurd hc.1 (by decide)
      · rename_i heq
        obtain ⟨rfl, -⟩ := List.cons_eq_cons.mp heq
        exact absurd hc.1 (by decide)
      · rfl
  rw [hsign]
  dsimp only
  rw [htake, if_neg hne, List.drop_left]

theorem scanUnsigned_decimal {n bits : ℕ} {rest : Bytes} (hbits : bits ≤ 64) (hn : n < 2 ^ bits) (hrest : Ends rest) :
    scanUnsigned bits (decimal n ++ rest) = some (n, rest) := by
  have hlt : n < 2 ^ 64 := hn.trans_le (Nat.pow_le_pow_right (by norm_num) hbits)
  unfold scanUnsigned
  rw [scanDigits_decimal hrest, Option.map_some]
  unfold toUnsigned
  dsimp only
  rw [(decimal_digits n).2.2, if_neg (not_le.mpr hlt), if_neg Bool.false_ne_true, Nat.mod_eq_of_lt hn]

theorem scanInt_decimal {n : ℕ} {rest : Bytes} (hn : n < 2 ^ 31) (hrest : Ends rest) :
    scanInt (decimal n ++ rest) = some ((n : ℤ), rest) := by
  have hsigned : toSigned false (decimal n) = n := by
    unfold toSigned
    rw [(decimal_digits n).2.2, if_neg Bool.false_ne_true, min_eq_left (by omega)]
  have hwrap : ((n : ℤ) + 2 ^ 31) % 2 ^ 32 - 2 ^ 31 = n := by omega
  unfold scanInt
  rw [scanDigits_decimal hrest, Option.map_some, hsigned, hwrap]

theorem scanUnsigned_lt {bits n : ℕ} {s rest : Bytes} (h : scanUnsigned bits s = some (n, rest)) : n < 2 ^ bits := by
  obtain ⟨r, -, heq⟩ := Option.map_eq_some_iff.mp h
  obtain ⟨rfl, -⟩ := Prod.mk.inj heq
  exact Nat.mod_lt _ (by positivity)

theorem scanInt_lt {n : ℤ} {s rest : Bytes} (h : scanInt s = some (n, rest)) : n < 2 ^ 31 := by
  obtain ⟨r, -, heq⟩ := Option.map_eq_some_iff.mp h
  obtain ⟨rfl, -⟩ := Prod.mk.inj heq
  omega

end Scanf
