import Hamn.Guest.JsonDump

/-!
# JsonDigits — the digits of a float and their layout (`step_digits`, `append_python_float`)

* `Successor`: the next decimal with as many digits, and `Successor.gap`: there is none between the two.
* `stepDigits_successor`: a step goes to the successor or comes from it.
* `Libc.Ranged`, `Found`: the digits and exponents that the search can return.
* `float_digits`: what is found, how it is laid out, and the steps.
-/

open Bytes

namespace Hamn.StrictJson

/-! ## Values of digits -/

theorem digitsNat_snoc (ds : Bytes) (d : UInt8) : digitsNat (ds ++ [d]) = digitsNat ds * 10 + (d.toNat - 0x30) := by
  rw [digitsNat_append]
  simp [digitsNat]

theorem digitsNat_cons (d : UInt8) (ds : Bytes) :
    digitsNat (d :: ds) = (d.toNat - 0x30) * 10 ^ ds.length + digitsNat ds := by
  have h := digitsNat_append [d] ds
  simpa [digitsNat] using h

theorem digitsNat_lt {ds : Bytes} (h : AllDigits ds) : digitsNat ds < 10 ^ ds.length := by
  induction ds with
  | nil => exact Nat.one_pos
  | cons d ds ih =>
    obtain ⟨hd, hds⟩ := allDigits_cons.mp h
    obtain ⟨-, hle⟩ := isDigit_range hd
    have hlt := ih hds
    have hpow : 0 < 10 ^ ds.length := Nat.pow_pos (by norm_num)
    rw [digitsNat_cons, List.length_cons, pow_succ]
    nlinarith [Nat.sub_le_iff_le_add.mpr (by omega : d.toNat ≤ 9 + 0x30)]

theorem digitsNat_nines (n : ℕ) : digitsNat (List.replicate n (byte '9')) + 1 = 10 ^ n := by
  induction n with
  | zero => rfl
  | succ n ih =>
    rw [List.replicate_succ', digitsNat_snoc, byte_nine, pow_succ, ← ih]
    omega

theorem Normal.le_digitsNat {ds : Bytes} (h : Normal ds) : 10 ^ (ds.length - 1) ≤ digitsNat ds := by
  obtain ⟨d, rest, rfl⟩ := List.exists_cons_of_ne_nil h.ne_nil
  obtain ⟨hlow, -⟩ := isDigit_range (allDigits_cons.mp h.digits).1
  have hne : d.toNat ≠ 0x30 := fun he => h.head (congrArg some (UInt8.toNat_inj.mp (he.trans byte_zero.symm)))
  rw [digitsNat_cons, List.length_cons, Nat.add_sub_cancel]
  have hle : 1 * 10 ^ rest.length ≤ (d.toNat - 0x30) * 10 ^ rest.length := Nat.mul_le_mul_right _ (by omega)
  omega

theorem digitsNat_zero_head {ds : Bytes} (h : AllDigits ds) (h0 : ds.head? = some (byte '0')) :
    digitsNat ds < 10 ^ (ds.length - 1) := by
  obtain ⟨rest, rfl⟩ : ∃ rest, ds = byte '0' :: rest := by
    cases ds with
    | nil => cases h0
    | cons d rest => exact ⟨rest, by rw [Option.some.inj h0]⟩
  have hlt := digitsNat_lt (allDigits_cons.mp h).2
  rw [digitsNat_cons, byte_zero, List.length_cons, Nat.add_sub_cancel]
  omega

/-! ## Steps -/

/-- The next decimal with as many digits: one more in the last place, or after the nines a power of ten. -/
def Successor (ds : Bytes) (exponent : ℤ) (ds' : Bytes) (exponent' : ℤ) : Prop :=
  ds'.length = ds.length ∧
    (digitsNat ds + 1 < 10 ^ ds.length ∧ digitsNat ds' = digitsNat ds + 1 ∧ exponent' = exponent ∨
      digitsNat ds + 1 = 10 ^ ds.length ∧ digitsNat ds' = 10 ^ (ds.length - 1) ∧ exponent' = exponent + 1)

/-- The upward loop adds one to the reversed digits, and runs off the front of nines only. -/
theorem stepUp_value {ds : Bytes} (h : AllDigits ds) :
    match stepUp ds with
    | some r => r.length = ds.length ∧ digitsNat r.reverse = digitsNat ds.reverse + 1
    | none => digitsNat ds.reverse + 1 = 10 ^ ds.length := by
  induction ds with
  | nil => rfl
  | cons d ds ih =>
    obtain ⟨hd, hds⟩ := allDigits_cons.mp h
    obtain ⟨hlow, hhigh⟩ := isDigit_range hd
    have ih := ih hds
    rw [stepUp]
    by_cases h9 : d ≠ byte '9'
    · rw [if_pos h9]
      have hne : d.toNat ≠ 0x39 := fun he => h9 (UInt8.toNat_inj.mp (he.trans byte_nine.symm))
      have hval : (d + 1).toNat = d.toNat + 1 := by
        rw [UInt8.toNat_add]
        change (d.toNat + 1) % 256 = _
        omega
      refine ⟨rfl, ?_⟩
      rw [List.reverse_cons, List.reverse_cons, digitsNat_snoc, digitsNat_snoc, hval]
      omega
    · rw [if_neg h9, not_not.mp h9]
      cases hs : stepUp ds with
      | some r =>
        rw [hs] at ih
        obtain ⟨hlen, hval⟩ := ih
        refine ⟨by rw [List.length_cons, hlen, List.length_cons], ?_⟩
        rw [List.reverse_cons, List.reverse_cons, digitsNat_snoc, digitsNat_snoc, hval, byte_nine, byte_zero]
        omega
      | none =>
        rw [hs] at ih
        simp only [Option.map_none]
        rw [List.reverse_cons, digitsNat_snoc, byte_nine, List.length_cons, pow_succ, ← ih]
        omega

/-- The downward loop takes one from the reversed digits of a number that is not zero. -/
theorem stepDown_value {ds : Bytes} (h : AllDigits ds) (hpos : 0 < digitsNat ds.reverse) :
    digitsNat (stepDown ds).reverse + 1 = digitsNat ds.reverse := by
  induction ds with
  | nil => exact absurd hpos (Nat.lt_irrefl 0)
  | cons d ds ih =>
    obtain ⟨hd, hds⟩ := allDigits_cons.mp h
    obtain ⟨hlow, hhigh⟩ := isDigit_range hd
    rw [List.reverse_cons, digitsNat_snoc] at hpos
    rw [stepDown]
    by_cases h0 : d ≠ byte '0'
    · rw [if_pos h0]
      have hne : d.toNat ≠ 0x30 := fun he => h0 (UInt8.toNat_inj.mp (he.trans byte_zero.symm))
      have hval : (d - 1).toNat = d.toNat - 1 := by
        rw [UInt8.toNat_sub_of_le]
        · rfl
        · rw [UInt8.le_iff_toNat_le]
          change 1 ≤ _
          omega
      rw [List.reverse_cons, List.reverse_cons, digitsNat_snoc, digitsNat_snoc, hval]
      omega
    · rw [not_not.mp h0, byte_zero] at hpos
      have hrest := ih hds (by omega)
      rw [if_neg h0, List.reverse_cons, List.reverse_cons, digitsNat_snoc, digitsNat_snoc, not_not.mp h0, byte_nine,
        byte_zero]
      omega

/-- A step upward leads to the successor. -/
theorem stepDigits_up {ds : Bytes} (h : Normal ds) (exponent : ℤ) :
    Successor ds exponent (stepDigits ds exponent true).1 (stepDigits ds exponent true).2 := by
  have hvalue := stepUp_value (allDigits_reverse h.digits)
  have hlt := digitsNat_lt h.digits
  have hpos := List.length_pos_of_ne_nil h.ne_nil
  rw [List.reverse_reverse, List.length_reverse] at hvalue
  unfold stepDigits Successor
  rw [if_pos rfl]
  cases hs : stepUp ds.reverse with
  | some r =>
    rw [hs] at hvalue
    obtain ⟨hlen, hval⟩ := hvalue
    have hall := allDigits_reverse (stepUp_spec (allDigits_reverse h.digits) hs).1
    have hlt' := digitsNat_lt hall
    rw [List.length_reverse, hlen, hval] at hlt'
    exact ⟨by rw [List.length_reverse, hlen], .inl ⟨hlt', hval, rfl⟩⟩
  | none =>
    rw [hs] at hvalue
    refine ⟨?_, .inr ⟨hvalue, ?_, rfl⟩⟩
    · rw [List.length_cons, List.length_replicate]
      omega
    · rw [digitsNat_cons, digitsNat_zeros, List.length_replicate, show (byte '1').toNat - 0x30 = 1 from rfl]
      omega

/-- A step downward comes from the successor. -/
theorem stepDigits_down {ds : Bytes} (h : Normal ds) (exponent : ℤ) :
    Successor (stepDigits ds exponent false).1 (stepDigits ds exponent false).2 ds exponent := by
  have hpos := List.length_pos_of_ne_nil h.ne_nil
  have hle := h.le_digitsNat
  have hlt := digitsNat_lt h.digits
  have hpow : 0 < 10 ^ (ds.length - 1) := Nat.pow_pos (by norm_num)
  have hvalue := stepDown_value (allDigits_reverse h.digits) (by rw [List.reverse_reverse]; omega)
  obtain ⟨hall, hlen⟩ := stepDown_spec (allDigits_reverse h.digits)
  rw [List.reverse_reverse] at hvalue
  rw [List.length_reverse] at hlen
  unfold stepDigits Successor
  rw [if_neg (by simp)]
  dsimp only
  by_cases h0 : (stepDown ds.reverse).reverse.head? = some (byte '0')
  · rw [if_pos h0]
    have hsmall := digitsNat_zero_head (allDigits_reverse hall) h0
    rw [List.length_reverse, hlen] at hsmall
    have hnines := digitsNat_nines ds.length
    refine ⟨(List.length_replicate).symm, .inr ⟨?_, ?_, (sub_add_cancel exponent 1).symm⟩⟩
    · rw [List.length_replicate, hnines]
    · rw [List.length_replicate]
      omega
  · rw [if_neg h0]
    refine ⟨by rw [List.length_reverse, hlen], .inl ⟨?_, hvalue.symm, rfl⟩⟩
    rw [List.length_reverse, hlen, hvalue]
    exact hlt

theorem sci_lt {ds : Bytes} (h : Normal ds) (exponent : ℤ) : sci ds exponent < 10 ^ (exponent + 1) := by
  have hpos := List.length_pos_of_ne_nil h.ne_nil
  have hlt : (digitsNat ds : ℚ) < 10 ^ (ds.length : ℤ) := by exact_mod_cast digitsNat_lt h.digits
  have hunit : (0 : ℚ) < 10 ^ (exponent - (ds.length - 1 : ℕ)) := zpow_pos (by norm_num) _
  unfold sci
  calc (digitsNat ds : ℚ) * 10 ^ (exponent - (ds.length - 1 : ℕ))
      < 10 ^ (ds.length : ℤ) * 10 ^ (exponent - (ds.length - 1 : ℕ)) := mul_lt_mul_of_pos_right hlt hunit
    _ = 10 ^ (exponent + 1) := by
      rw [← zpow_add₀ (by norm_num)]
      congr 1
      omega

theorem le_sci {ds : Bytes} (h : Normal ds) (exponent : ℤ) : 10 ^ exponent ≤ sci ds exponent := by
  have hle : (10 : ℚ) ^ ((ds.length - 1 : ℕ) : ℤ) ≤ digitsNat ds := by exact_mod_cast h.le_digitsNat
  have hunit : (0 : ℚ) < 10 ^ (exponent - (ds.length - 1 : ℕ)) := zpow_pos (by norm_num) _
  unfold sci
  calc (10 : ℚ) ^ exponent = 10 ^ ((ds.length - 1 : ℕ) : ℤ) * 10 ^ (exponent - (ds.length - 1 : ℕ)) := by
        rw [← zpow_add₀ (by norm_num)]
        congr 1
        omega
    _ ≤ digitsNat ds * 10 ^ (exponent - (ds.length - 1 : ℕ)) := mul_le_mul_of_nonneg_right hle hunit.le

/-- The successor is one unit in the last place away. -/
theorem Successor.sci_eq {ds ds' : Bytes} {exponent exponent' : ℤ} (h : Successor ds exponent ds' exponent')
    (hne : ds ≠ []) : sci ds' exponent' = sci ds exponent + 10 ^ (exponent - (ds.length - 1 : ℕ)) := by
  have hpos := List.length_pos_of_ne_nil hne
  obtain ⟨hlen, ⟨-, hval, rfl⟩ | ⟨hnines, hval, rfl⟩⟩ := h
  · unfold sci
    rw [hlen, hval]
    push_cast
    ring
  · have hcast : (digitsNat ds : ℚ) + 1 = 10 ^ (ds.length : ℤ) := by exact_mod_cast hnines
    unfold sci
    rw [hlen, hval, ← add_one_mul, hcast]
    push_cast
    rw [← zpow_natCast (10 : ℚ), ← zpow_add₀ (by norm_num), ← zpow_add₀ (by norm_num)]
    congr 1
    omega

/-- Between a decimal and its successor there is none with as many digits. -/
theorem Successor.gap {ds ds' mid : Bytes} {exponent exponent' e : ℤ} (h : Successor ds exponent ds' exponent')
    (hds : Normal ds) (hmid : Normal mid) (hlen : mid.length = ds.length) :
    ¬(sci ds exponent < sci mid e ∧ sci mid e < sci ds' exponent') := by
  rintro ⟨hlow, hhigh⟩
  have hunit : (0 : ℚ) < 10 ^ (exponent - (ds.length - 1 : ℕ)) := zpow_pos (by norm_num) _
  rcases lt_trichotomy e exponent with hlt | rfl | hgt
  · -- below the first power of ten
    have hstep : (10 : ℚ) ^ (e + 1) ≤ 10 ^ exponent := zpow_le_zpow_right₀ (by norm_num) hlt
    exact absurd hlow (not_lt.mpr ((sci_lt hmid e).le.trans (hstep.trans (le_sci hds exponent))))
  · rw [h.sci_eq hds.ne_nil] at hhigh
    unfold sci at hlow hhigh
    rw [hlen] at hlow hhigh
    rw [← add_one_mul] at hhigh
    have h1 : (digitsNat ds : ℚ) < digitsNat mid := lt_of_mul_lt_mul_right hlow hunit.le
    have h2 : (digitsNat mid : ℚ) < digitsNat ds + 1 := lt_of_mul_lt_mul_right hhigh hunit.le
    have h1 : digitsNat ds < digitsNat mid := by exact_mod_cast h1
    have h2 : digitsNat mid < digitsNat ds + 1 := by exact_mod_cast h2
    omega
  · -- the successor is at most the next power of ten
    have hstep : (10 : ℚ) ^ (exponent + 1) ≤ 10 ^ e := zpow_le_zpow_right₀ (by norm_num) hgt
    have hnext : sci ds' exponent' ≤ 10 ^ (exponent + 1) := by
      rw [h.sci_eq hds.ne_nil]
      have hle : (digitsNat ds : ℚ) + 1 ≤ 10 ^ (ds.length : ℤ) := by exact_mod_cast digitsNat_lt hds.digits
      have hpos := List.length_pos_of_ne_nil hds.ne_nil
      unfold sci
      calc (digitsNat ds : ℚ) * 10 ^ (exponent - (ds.length - 1 : ℕ)) + 10 ^ (exponent - (ds.length - 1 : ℕ))
          = (digitsNat ds + 1) * 10 ^ (exponent - (ds.length - 1 : ℕ)) := by ring
        _ ≤ 10 ^ (ds.length : ℤ) * 10 ^ (exponent - (ds.length - 1 : ℕ)) := mul_le_mul_of_nonneg_right hle hunit.le
        _ = 10 ^ (exponent + 1) := by
          rw [← zpow_add₀ (by norm_num)]
          congr 1
          omega
    exact absurd hhigh (not_lt.mpr (hnext.trans (hstep.trans (le_sci hmid e))))

/-! ## What the search can return -/

/-- What is documented of the range of a double: its decimal exponents. -/
structure Libc.Ranged {D : Type} (libc : Libc D) : Prop where
  printE_exponent : ∀ {t q}, Decimal t q → libc.isfinite (libc.strtod t).1 = true →
    libc.isZero (libc.strtod t).1 = false → ∀ p, (splitExponent (libc.printE p (libc.strtod t).1)).2.natAbs ≤ 324

/-- Digits with their exponent as the search returns them. -/
structure Found (ds : Bytes) (exponent : ℤ) : Prop where
  normal : Normal ds
  length : ds.length ≤ DOUBLE_ROUND_TRIP_DIGITS
  range : exponent.natAbs ≤ 325

theorem Scientific.split_length {p : ℕ} {r : Bytes} (h : Scientific p r) : (splitExponent r).1.length = p + 1 := by
  obtain ⟨d, ds, sign, ex, hd, -, hds, hp, -, -, -⟩ := h
  rw [splitExponent_eq hd hds hp, List.length_cons, hp]

theorem stepDigits_length {ds : Bytes} (h : Normal ds) (exponent : ℤ) (upward : Bool) :
    (stepDigits ds exponent upward).1.length = ds.length := by
  cases upward with
  | true => exact (stepDigits_up h exponent).1
  | false => exact (stepDigits_down h exponent).1.symm

theorem stepDigits_exponent {ds : Bytes} (h : Normal ds) (exponent : ℤ) (upward : Bool) :
    (stepDigits ds exponent upward).2.natAbs ≤ exponent.natAbs + 1 := by
  cases upward with
  | true =>
    obtain ⟨-, ⟨-, -, he⟩ | ⟨-, -, he⟩⟩ := stepDigits_up h exponent <;> omega
  | false =>
    obtain ⟨-, ⟨-, -, he⟩ | ⟨-, -, he⟩⟩ := stepDigits_down h exponent <;> omega

section Search

variable {D : Type} {libc : Libc D}

theorem shortestFrom_found (hdoc : libc.Documented) (hrange : libc.Ranged) {t : Bytes} {q : ℚ} (ht : Decimal t q)
    (hfin : libc.isfinite (libc.strtod t).1 = true) (hz : libc.isZero (libc.strtod t).1 = false) {ds : Bytes}
    {exponent : ℤ} (n : ℕ) : ∀ precision : ℕ, 0 < precision → n + precision ≤ 18 →
      shortestFrom libc (libc.strtod t).1 n precision = some (ds, exponent) → Found ds exponent := by
  induction n with
  | zero => exact fun _ _ _ h => nomatch h
  | succ n ih =>
    intro precision hpos hle h
    have hshape := hdoc.printE_shape ht hfin hz (precision - 1)
    have hnormal := hshape.split.1
    have hlen := hshape.split_length
    have hexp := hrange.printE_exponent ht hfin hz (precision - 1)
    rw [shortestFrom] at h
    simp only at h
    generalize libc.printE (precision - 1) (libc.strtod t).1 = r at h hnormal hlen hexp
    split_ifs at h with heq hstep
    · obtain ⟨rfl, rfl⟩ := Prod.mk.inj (Option.some.inj h)
      exact ⟨hnormal, by rw [hlen]; unfold DOUBLE_ROUND_TRIP_DIGITS; omega, by omega⟩
    · have hlength := stepDigits_length hnormal (splitExponent r).2 (libc.lt (libc.strtod r).1 (libc.strtod t).1)
      have hexponent := stepDigits_exponent hnormal (splitExponent r).2 (libc.lt (libc.strtod r).1 (libc.strtod t).1)
      have hnext := hnormal.stepDigits (splitExponent r).2 (libc.lt (libc.strtod r).1 (libc.strtod t).1)
      obtain ⟨rfl, rfl⟩ := Prod.mk.inj (Option.some.inj h)
      exact ⟨hnext, by rw [hlength, hlen]; unfold DOUBLE_ROUND_TRIP_DIGITS; omega, by omega⟩
    · exact ih (precision + 1) (by omega) (by omega) h

end Search

/-! ## The buffer -/

/-- The size of `text` in `append_python_float`. -/
def FLOAT_TEXT_CAP : ℕ := 64

theorem stripZeros_length (ds : Bytes) : (stripZeros ds).length ≤ ds.length := by
  cases ds with
  | nil => exact Nat.le_refl 0
  | cons d ds =>
    have h := (List.dropWhile_suffix (l := ds.reverse) (· == byte '0')).length_le
    rw [List.length_reverse] at h
    rw [stripZeros, List.length_cons, List.length_reverse, List.length_cons]
    omega

theorem printInt02_length {n : ℕ} (h : n ≤ 325) : (printInt02 n).length ≤ 3 := by
  have hall : ∀ n < 326, (printInt02 n).length ≤ 3 := by decide +kernel
  exact hall n (by omega)

/-- The text of a float, with its sign and the final zero byte, fits its buffer. -/
theorem formatFloat_length {ds : Bytes} {exponent : ℤ} (hne : ds ≠ []) (hlen : ds.length ≤ 17)
    (hrange : exponent.natAbs ≤ 325) : (formatFloat ds exponent).length + 2 ≤ FLOAT_TEXT_CAP := by
  have hpos := List.length_pos_of_ne_nil hne
  have hexp := printInt02_length hrange
  have hzero : (ascii "0.").length = 2 ∧ (ascii ".0").length = 2 := by decide
  have hfraction : (if ds.length > 1 then byte '.' :: ds.drop 1 else []).length ≤ ds.length := by
    split_ifs
    · rw [List.length_cons, List.length_drop]
      omega
    · exact Nat.zero_le _
  unfold formatFloat FLOAT_TEXT_CAP
  dsimp only
  by_cases h1 : exponent + 1 < PYTHON_REPR_MIN_DECPT ∨ exponent + 1 > PYTHON_REPR_MAX_DECPT
  · rw [if_pos h1, List.length_append, List.length_append, List.length_take, List.length_cons, List.length_cons]
    omega
  rw [if_neg h1]
  unfold PYTHON_REPR_MIN_DECPT PYTHON_REPR_MAX_DECPT at h1
  by_cases h2 : exponent + 1 ≤ 0
  · rw [if_pos h2, List.length_append, List.length_append, List.length_replicate, hzero.1]
    omega
  rw [if_neg h2]
  by_cases h3 : (exponent + 1).toNat ≥ ds.length
  · rw [if_pos h3, List.length_append, List.length_append, List.length_replicate, hzero.2]
    omega
  · rw [if_neg h3, List.length_append, List.length_take, List.length_cons, List.length_drop]
    omega

/-! ## Results -/

def signText (negative : Bool) : Bytes := if negative then [byte '-'] else []

/-- A decimal text with or without a minus sign, and the number it denotes. -/
inductive SignedDecimal : Bytes → ℚ → Prop where
  | plain {t : Bytes} {q : ℚ} (h : Decimal t q) : SignedDecimal t q
  | minus {t : Bytes} {q : ℚ} (h : Decimal t q) : SignedDecimal (byte '-' :: t) (-q)

theorem text_signed (negative : Bool) (i : IntPart) (frac : Option Digits) (exp : Option ExpPart) :
    Utf8.text (Number.chars ⟨negative, i, frac, exp⟩) =
      signText negative ++ Utf8.text (i.chars ++ (fracChars frac ++ expChars exp)) := by
  cases negative with
  | false => rfl
  | true =>
    rw [Number.chars, minusChars, if_pos rfl, List.cons_append, text_ascii (by decide)]
    rfl

/-- **Floats are written as the digits that were found.**  The text is a float of the grammar, denotes the digits
times the power of ten with the sign, and fits its buffer; and a step of the search is a step to the neighbouring
decimal of the same length. -/
theorem float_digits {D : Type} (libc : Libc D) (hdoc : libc.Documented) (hrange : libc.Ranged) {t : Bytes} {q : ℚ}
    (ht : Decimal t q) (hfin : libc.isfinite (libc.strtod t).1 = true) (hz : libc.isZero (libc.strtod t).1 = false) :
    (∃ ds exponent, shortestDigits libc (libc.strtod t).1 = some (ds, exponent) ∧ Found ds exponent ∧
      ∀ negative, ∃ n : Number, n.minus = negative ∧ n.isInteger = false ∧
        appendPythonFloat libc (signText negative ++ t) = .ok (Utf8.text n.chars) ∧
        SignedDecimal (Utf8.text n.chars) (if negative then -sci ds exponent else sci ds exponent) ∧
        (Utf8.text n.chars).length < FLOAT_TEXT_CAP) ∧
    (∀ ds exponent, Normal ds →
      Normal (stepDigits ds exponent true).1 ∧
        Successor ds exponent (stepDigits ds exponent true).1 (stepDigits ds exponent true).2 ∧
        Normal (stepDigits ds exponent false).1 ∧
        Successor (stepDigits ds exponent false).1 (stepDigits ds exponent false).2 ds exponent) ∧
    ∀ ds exponent ds' exponent', Normal ds → Successor ds exponent ds' exponent' →
      sci ds' exponent' = sci ds exponent + 10 ^ (exponent - (ds.length - 1 : ℕ)) ∧
        ∀ mid e, Normal mid → mid.length = ds.length → ¬(sci ds exponent < sci mid e ∧ sci mid e < sci ds' exponent') := by
  refine ⟨?_, fun ds exponent h => ⟨h.stepDigits exponent true, stepDigits_up h exponent,
    h.stepDigits exponent false, stepDigits_down h exponent⟩, fun ds exponent ds' exponent' h hsucc =>
      ⟨hsucc.sci_eq h.ne_nil, fun mid e hmid hlen => hsucc.gap h hmid hlen⟩⟩
  obtain ⟨ds, exponent, hs, -⟩ := shortestFrom_spec hdoc ht hfin hz 17 1 (by omega) rfl
  have hfound := shortestFrom_found hdoc hrange ht hfin hz 17 1 (by omega) (by omega) hs
  have hshort : shortestDigits libc (libc.strtod t).1 = some (ds, exponent) := hs
  obtain ⟨hstrip, hsci⟩ := stripZeros_spec hfound.normal exponent
  obtain ⟨⟨i, frac, exp, hni, htext⟩, hdec⟩ := formatFloat_spec hstrip exponent
  have hfits := formatFloat_length hstrip.ne_nil ((stripZeros_length ds).trans hfound.length) hfound.range
  rw [hsci] at hdec
  have hunsigned : unsignedFloat libc (libc.strtod t).1 = .ok (formatFloat (stripZeros ds) exponent) := by
    unfold unsignedFloat
    rw [if_neg (by simp [hz]), hshort]
  refine ⟨ds, exponent, hshort, hfound, fun negative => ⟨⟨negative, i, frac, exp⟩, rfl, hni, ?_, ?_, ?_⟩⟩
  · rw [text_signed, ← htext]
    cases negative with
    | false =>
      have hnf : ¬ libc.isfinite (libc.strtod t).1 = false := by simp [hfin]
      change appendPythonFloat libc t = _
      simp only [appendPythonFloat, if_neg hnf, hdoc.signbit_strtod ht, hdoc.fabs_strtod ht, hunsigned]
      rfl
    | true =>
      have hnf : ¬ libc.isfinite (libc.neg (libc.strtod t).1) = false := by simp [hdoc.isfinite_neg, hfin]
      change appendPythonFloat libc (byte '-' :: t) = _
      simp only [appendPythonFloat, hdoc.strtod_minus ht, if_neg hnf, hdoc.signbit_neg ht, hdoc.fabs_neg,
        hdoc.fabs_strtod ht, hunsigned]
      rfl
  · rw [text_signed, ← htext]
    cases negative with
    | false => exact .plain hdec
    | true => exact .minus hdec
  · rw [text_signed, ← htext, List.length_append]
    have hsign : (signText negative).length ≤ 1 := by cases negative <;> decide
    omega

/-! ### A small library -/

/-- The doubles `-1`, `-0`, `0` and `1`. -/
structure Unit01 where
  negative : Bool
  one : Bool
  deriving DecidableEq

def Unit01.value (x : Unit01) : ℤ := if x.one then (if x.negative then -1 else 1) else 0

/-- Whether a decimal text has a digit other than zero before its exponent. -/
def nonzeroText (t : Bytes) : Bool := (t.takeWhile fun b => b != byte 'e' && b != byte 'E').any fun b =>
  isDigit b && b != byte '0'

/-- A library in which every number but zero rounds to one. -/
def unitLibc : Libc Unit01 where
  strtod t := (⟨t.head? == some (byte '-'), nonzeroText t⟩, t.length)
  isfinite _ := true
  signbit x := x.negative
  fabs x := ⟨false, x.one⟩
  neg x := ⟨!x.negative, x.one⟩
  eq x y := x == y
  lt x y := decide (x.value < y.value)
  isZero x := !x.one
  printE p _ := byte '1' :: ((if p = 0 then [] else byte '.' :: List.replicate p (byte '0')) ++
    byte 'e' :: byte '+' :: ascii "00")

theorem any_nonzero {ds : Bytes} (h : AllDigits ds) :
    (ds.any fun b => isDigit b && b != byte '0') = decide (digitsNat ds ≠ 0) := by
  induction ds with
  | nil => rfl
  | cons d ds ih =>
    obtain ⟨hd, hds⟩ := allDigits_cons.mp h
    obtain ⟨hlow, -⟩ := isDigit_range hd
    have hpow : 0 < 10 ^ ds.length := Nat.pow_pos (by norm_num)
    rw [List.any_cons, ih hds, digitsNat_cons, hd, Bool.true_and]
    by_cases h0 : d = byte '0'
    · rw [h0, byte_zero]
      simp
    · have hne : d.toNat - 0x30 ≠ 0 := fun he => h0 (UInt8.toNat_inj.mp (by rw [byte_zero]; omega))
      have hmul : 0 < (d.toNat - 0x30) * 10 ^ ds.length := Nat.mul_pos (Nat.pos_of_ne_zero hne) hpow
      have hpos : (d.toNat - 0x30) * 10 ^ ds.length + digitsNat ds ≠ 0 := by omega
      rw [decide_eq_true hpos, show (d != byte '0') = true from bne_iff_ne.mpr h0, Bool.true_or]

theorem nonzeroText_decimal {t : Bytes} {q : ℚ} (h : Decimal t q) : nonzeroText t = decide (q ≠ 0) := by
  have hmark : ∀ b, isDigit b = true → (b != byte 'e' && b != byte 'E') = true := by
    intro b hb
    obtain ⟨x, rfl⟩ := isDigit_byte hb
    revert x
    decide
  have hexp : ∀ {e : Bytes} {x : ℤ}, ExpText e x → e.takeWhile (fun b => b != byte 'e' && b != byte 'E') = [] := by
    intro e x he
    cases he with
    | absent => rfl
    | bare m ds hm | plus m ds hm | minus m ds hm => rcases hm with rfl | rfl <;> rfl
  have hpow : ∀ x : ℤ, (10 : ℚ) ^ x ≠ 0 := fun x => zpow_ne_zero x (by norm_num)
  unfold nonzeroText
  cases h with
  | whole a e x ha hne he =>
    rw [List.takeWhile_append_of_pos fun b hb => hmark b (ha b hb), hexp he, List.append_nil, any_nonzero ha]
    simp [hpow]
  | point a b e x ha hne hb he =>
    rw [List.takeWhile_append_of_pos fun b hb => hmark b (ha b hb), List.takeWhile_cons_of_pos (by decide),
      List.takeWhile_append_of_pos fun c hc => hmark c (hb c hc), hexp he, List.append_nil, List.any_append,
      List.any_cons, any_nonzero ha, any_nonzero hb, digitsNat_append]
    have hpos : 0 < 10 ^ b.length := Nat.pow_pos (by norm_num)
    have hdot : (isDigit (byte '.') && byte '.' != byte '0') = false := by decide
    rw [hdot, Bool.false_or, ← Bool.decide_or]
    refine decide_eq_decide.mpr ?_
    rw [mul_ne_zero_iff, and_iff_left (hpow _), Nat.cast_ne_zero]
    constructor
    · rintro (h | h)
      · have := Nat.mul_pos (Nat.pos_of_ne_zero h) hpos
        omega
      · omega
    · intro h
      by_contra hno
      push Not at hno
      rw [hno.1, hno.2] at h
      exact h (by rw [Nat.zero_mul])

theorem unitLibc_strtod {t : Bytes} {q : ℚ} (h : Decimal t q) : (unitLibc.strtod t).1 = ⟨false, decide (q ≠ 0)⟩ := by
  change Unit01.mk _ _ = _
  rw [h.head_ne_minus, nonzeroText_decimal h]

theorem unitLibc_documented : unitLibc.Documented where
  strtod_takes _ := rfl
  strtod_value h h' := by rw [unitLibc_strtod h, unitLibc_strtod h']
  strtod_minus h := by
    rw [unitLibc_strtod h, ← nonzeroText_decimal h]
    rfl
  isfinite_neg _ := rfl
  signbit_strtod h := by
    rw [unitLibc_strtod h]
    rfl
  signbit_neg h := by
    rw [unitLibc_strtod h]
    rfl
  fabs_strtod h := by
    rw [unitLibc_strtod h]
    rfl
  fabs_neg _ := rfl
  isZero_strtod h hz := by
    rw [unitLibc_strtod h] at hz ⊢
    rw [show decide (_ ≠ (0 : ℚ)) = false from Bool.not_eq_true' _ |>.mp hz]
    decide
  eq_strtod _ _ := beq_iff_eq
  printE_shape _ _ _ p := .intro (byte '1') (List.replicate p (byte '0')) (byte '+') (ascii "00") (by decide)
    (by decide) (allDigits_zeros p) List.length_replicate (.inl rfl) (allDigits_zeros 2) (by decide)
  printE_round_trip h _ hz := by
    rw [unitLibc_strtod h] at hz ⊢
    rw [show decide (_ ≠ (0 : ℚ)) = true from Bool.not_eq_false' _ |>.mp hz]
    decide

theorem unitLibc_ranged : unitLibc.Ranged where
  printE_exponent _ _ _ p := by
    change (splitExponent (byte '1' :: ((if p = 0 then [] else byte '.' :: List.replicate p (byte '0')) ++
      byte 'e' :: byte '+' :: ascii "00"))).2.natAbs ≤ 324
    rw [splitExponent_eq (by decide) (allDigits_zeros p) List.length_replicate]
    have h : (atoi (byte '+' :: ascii "00")).natAbs ≤ 324 := by decide
    exact h

theorem decimal_one : Decimal [byte '1', byte '.', byte '0'] (10 * 10 ^ ((0 : ℤ) - (1 : ℕ))) :=
  .point [byte '1'] [byte '0'] [] 0 (List.forall_mem_singleton.mpr (by decide)) (by decide) (allDigits_zeros 1) .absent

/-- `1.0` and `-1.0`. -/
theorem float_digits_one : ∃ ds exponent, shortestDigits unitLibc ⟨false, true⟩ = some (ds, exponent) ∧
    Found ds exponent ∧ ∀ negative, ∃ n : Number, n.minus = negative ∧ n.isInteger = false ∧
      appendPythonFloat unitLibc (signText negative ++ [byte '1', byte '.', byte '0']) = .ok (Utf8.text n.chars) ∧
      SignedDecimal (Utf8.text n.chars) (if negative then -sci ds exponent else sci ds exponent) ∧
      (Utf8.text n.chars).length < FLOAT_TEXT_CAP :=
  (float_digits unitLibc unitLibc_documented unitLibc_ranged decimal_one rfl (by decide)).1

end Hamn.StrictJson
