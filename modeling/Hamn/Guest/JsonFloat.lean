import Hamn.Guest.JsonLex
import Hamn.Guest.JsonWrite

/-!
# JsonFloat — the text written for a float

Doubles stay abstract.  What the C standard documents about their conversions is the structure `Libc.Documented`:
the value of a decimal text depends on the number it denotes only, a minus sign negates it, `%.*e` writes a
normalised decimal and 17 digits convert back.  From it: the writer always finds digits, the text it lays out is a
float of the grammar, and it converts to the double it was written for (`appendPythonFloat_spec`).
-/

open Bytes

namespace Hamn.StrictJson

/-! ## Decimal texts and the numbers they denote -/

def AllDigits (bs : Bytes) : Prop := ∀ b ∈ bs, isDigit b = true

/-- An exponent and its value. -/
inductive ExpText : Bytes → ℤ → Prop where
  | absent : ExpText [] 0
  | bare (m : UInt8) (ds : Bytes) (hm : m = byte 'e' ∨ m = byte 'E') (hd : AllDigits ds) (hne : ds ≠ []) :
    ExpText (m :: ds) (digitsNat ds)
  | plus (m : UInt8) (ds : Bytes) (hm : m = byte 'e' ∨ m = byte 'E') (hd : AllDigits ds) (hne : ds ≠ []) :
    ExpText (m :: byte '+' :: ds) (digitsNat ds)
  | minus (m : UInt8) (ds : Bytes) (hm : m = byte 'e' ∨ m = byte 'E') (hd : AllDigits ds) (hne : ds ≠ []) :
    ExpText (m :: byte '-' :: ds) (- (digitsNat ds : ℤ))

/-- A decimal text without a sign, and the number it denotes. -/
inductive Decimal : Bytes → ℚ → Prop where
  | whole (a e : Bytes) (x : ℤ) (ha : AllDigits a) (hne : a ≠ []) (he : ExpText e x) :
    Decimal (a ++ e) (digitsNat a * 10 ^ x)
  | point (a b e : Bytes) (x : ℤ) (ha : AllDigits a) (hne : a ≠ []) (hb : AllDigits b) (he : ExpText e x) :
    Decimal (a ++ byte '.' :: (b ++ e)) (digitsNat (a ++ b) * 10 ^ (x - b.length))

/-- The shape of `"%.*e"` of a positive number: one digit that is not zero, `p` more, and an exponent. -/
inductive Scientific (p : ℕ) : Bytes → Prop where
  | intro (d : UInt8) (ds : Bytes) (sign : UInt8) (ex : Bytes) (hd : isDigit d = true) (h0 : d ≠ byte '0')
    (hds : AllDigits ds) (hp : ds.length = p) (hs : sign = byte '+' ∨ sign = byte '-') (hex : AllDigits ex)
    (hne : ex ≠ []) :
    Scientific p (d :: ((if p = 0 then [] else byte '.' :: ds) ++ byte 'e' :: sign :: ex))

/-- What is documented of the C library's conversions. -/
structure Libc.Documented {D : Type} (libc : Libc D) : Prop where
  strtod_takes : ∀ {t q}, Decimal t q → (libc.strtod t).2 = t.length
  strtod_value : ∀ {t t' q}, Decimal t q → Decimal t' q → (libc.strtod t).1 = (libc.strtod t').1
  strtod_minus : ∀ {t q}, Decimal t q → libc.strtod (byte '-' :: t) = (libc.neg (libc.strtod t).1, t.length + 1)
  isfinite_neg : ∀ x, libc.isfinite (libc.neg x) = libc.isfinite x
  signbit_strtod : ∀ {t q}, Decimal t q → libc.signbit (libc.strtod t).1 = false
  signbit_neg : ∀ {t q}, Decimal t q → libc.signbit (libc.neg (libc.strtod t).1) = true
  fabs_strtod : ∀ {t q}, Decimal t q → libc.fabs (libc.strtod t).1 = (libc.strtod t).1
  fabs_neg : ∀ x, libc.fabs (libc.neg x) = libc.fabs x
  /-- There is one zero without a sign. -/
  isZero_strtod : ∀ {t q}, Decimal t q → libc.isZero (libc.strtod t).1 = true →
    (libc.strtod t).1 = (libc.strtod (ascii "0.0")).1
  eq_strtod : ∀ {t t' q q'}, Decimal t q → Decimal t' q' →
    (libc.eq (libc.strtod t).1 (libc.strtod t').1 = true ↔ (libc.strtod t).1 = (libc.strtod t').1)
  printE_shape : ∀ {t q}, Decimal t q → libc.isfinite (libc.strtod t).1 = true →
    libc.isZero (libc.strtod t).1 = false → ∀ p, Scientific p (libc.printE p (libc.strtod t).1)
  /-- 17 significant digits identify a double. -/
  printE_round_trip : ∀ {t q}, Decimal t q → libc.isfinite (libc.strtod t).1 = true →
    libc.isZero (libc.strtod t).1 = false → (libc.strtod (libc.printE 16 (libc.strtod t).1)).1 = (libc.strtod t).1

/-! ## Digits -/

theorem AllDigits.append {a b : Bytes} (ha : AllDigits a) (hb : AllDigits b) : AllDigits (a ++ b) := by
  intro x hx
  rcases List.mem_append.mp hx with h | h
  · exact ha x h
  · exact hb x h

theorem AllDigits.left {a b : Bytes} (h : AllDigits (a ++ b)) : AllDigits a := fun x hx => h x (by simp [hx])

theorem AllDigits.right {a b : Bytes} (h : AllDigits (a ++ b)) : AllDigits b := fun x hx => h x (by simp [hx])

theorem allDigits_cons {d : UInt8} {ds : Bytes} : AllDigits (d :: ds) ↔ isDigit d = true ∧ AllDigits ds :=
  List.forall_mem_cons

theorem allDigits_zeros (n : ℕ) : AllDigits (List.replicate n (byte '0')) := by
  intro b hb
  rw [List.eq_of_mem_replicate hb]
  decide

theorem isDigit_range {b : UInt8} (h : isDigit b = true) : 0x30 ≤ b.toNat ∧ b.toNat ≤ 0x39 := by
  simp only [isDigit, Bool.and_eq_true, decide_eq_true_eq, UInt8.le_iff_toNat_le] at h
  exact h

theorem isDigit_of_range {b : UInt8} (h : 0x30 ≤ b.toNat ∧ b.toNat ≤ 0x39) : isDigit b = true := by
  simp only [isDigit, Bool.and_eq_true, decide_eq_true_eq, UInt8.le_iff_toNat_le]
  exact h

private theorem foldl_digits (bs : Bytes) : ∀ n : ℕ,
    bs.foldl (fun n d => n * 10 + (d.toNat - 0x30)) n = n * 10 ^ bs.length + digitsNat bs := by
  induction bs with
  | nil => intro n; simp [digitsNat]
  | cons b bs ih =>
    intro n
    have h0 := ih (0 * 10 + (b.toNat - 0x30))
    have h1 := ih (n * 10 + (b.toNat - 0x30))
    simp only [digitsNat, List.foldl_cons, List.length_cons] at h0 ⊢
    rw [h1, h0, pow_succ]
    simp only [digitsNat]
    ring

theorem digitsNat_append (a b : Bytes) : digitsNat (a ++ b) = digitsNat a * 10 ^ b.length + digitsNat b := by
  conv_lhs => rw [digitsNat, List.foldl_append]
  exact foldl_digits b _

theorem digitsNat_zeros : ∀ n : ℕ, digitsNat (List.replicate n (byte '0')) = 0
  | 0 => rfl
  | n + 1 => by
    rw [List.replicate_succ', digitsNat_append, digitsNat_zeros n]
    rfl

theorem exists_fin_digits : ∀ {bs : Bytes}, AllDigits bs → ∃ ds : List (Fin 10), bs = Utf8.text (ds.map digitChar)
  | [], _ => ⟨[], rfl⟩
  | b :: bs, h => by
    obtain ⟨hb, hbs⟩ := allDigits_cons.mp h
    obtain ⟨d, rfl⟩ := isDigit_byte hb
    obtain ⟨ds, rfl⟩ := exists_fin_digits hbs
    exact ⟨d :: ds, by rw [List.map_cons, text_ascii (digitChar_lt d)]⟩

theorem allDigits_text (ds : List (Fin 10)) : AllDigits (Utf8.text (ds.map digitChar)) := by
  induction ds with
  | nil => exact fun b hb => nomatch hb
  | cons d ds ih =>
    rw [List.map_cons, text_ascii (digitChar_lt d)]
    exact allDigits_cons.mpr ⟨isDigit_digitChar d, ih⟩

theorem decimalAux_spec : ∀ fuel n : ℕ, n < fuel →
    AllDigits (decimalAux fuel n) ∧ decimalAux fuel n ≠ [] ∧ digitsNat (decimalAux fuel n) = n
  | 0, n, h => absurd h (Nat.not_lt_zero n)
  | fuel + 1, n, h => by
    have hlast : (UInt8.ofNat (0x30 + n % 10)).toNat = 0x30 + n % 10 := by
      rw [UInt8.toNat_ofNat']
      omega
    have hdig : AllDigits [UInt8.ofNat (0x30 + n % 10)] := by
      intro b hb
      rw [List.mem_singleton.mp hb]
      exact isDigit_of_range (by omega)
    have hval : digitsNat [UInt8.ofNat (0x30 + n % 10)] = n % 10 := by
      simp only [digitsNat, List.foldl_cons, List.foldl_nil, hlast]
      omega
    rw [decimalAux]
    refine ⟨?_, by simp, ?_⟩
    · split_ifs with hn
      · exact hdig
      · exact (decimalAux_spec fuel (n / 10) (by omega)).1.append hdig
    · rw [digitsNat_append, hval]
      split_ifs with hn
      · simp [digitsNat]
        omega
      · rw [(decimalAux_spec fuel (n / 10) (by omega)).2.2]
        simp
        omega

theorem decimal_spec (n : ℕ) : AllDigits (decimal n) ∧ decimal n ≠ [] ∧ digitsNat (decimal n) = n :=
  decimalAux_spec (n + 1) n (Nat.lt_succ_self n)

theorem expText_printInt (x : ℤ) : ExpText (byte 'e' :: printInt x) x := by
  obtain ⟨h1, h2, h3⟩ := decimal_spec x.natAbs
  unfold printInt
  split_ifs with hx
  · have := ExpText.minus (byte 'e') _ (Or.inl rfl) h1 h2
    rw [h3] at this
    rwa [show - (x.natAbs : ℤ) = x by omega] at this
  · have := ExpText.bare (byte 'e') _ (Or.inl rfl) h1 h2
    rw [h3] at this
    rwa [show (x.natAbs : ℤ) = x by omega] at this

/-! ## Normalised digits -/

/-- Digits with a first one that is not zero. -/
structure Normal (ds : Bytes) : Prop where
  digits : AllDigits ds
  ne_nil : ds ≠ []
  head : ds.head? ≠ some (byte '0')

/-- The number `d.ddd * 10 ^ exponent`. -/
def sci (digits : Bytes) (exponent : ℤ) : ℚ := digitsNat digits * 10 ^ (exponent - (digits.length - 1 : ℕ))

theorem byte_nine : (byte '9').toNat = 0x39 := rfl

theorem byte_zero : (byte '0').toNat = 0x30 := rfl

theorem isDigit_succ {d : UInt8} (h : isDigit d = true) (h9 : d ≠ byte '9') :
    isDigit (d + 1) = true ∧ d + 1 ≠ byte '0' := by
  obtain ⟨h1, h2⟩ := isDigit_range h
  have hne : d.toNat ≠ 0x39 := fun he => h9 (UInt8.toNat_inj.mp (he.trans byte_nine.symm))
  have hval : (d + 1).toNat = d.toNat + 1 := by
    rw [UInt8.toNat_add]
    change (d.toNat + 1) % 256 = _
    omega
  refine ⟨isDigit_of_range (by omega), fun he => ?_⟩
  have := congrArg UInt8.toNat he
  rw [hval, byte_zero] at this
  omega

theorem isDigit_pred {d : UInt8} (h : isDigit d = true) (h0 : d ≠ byte '0') : isDigit (d - 1) = true := by
  obtain ⟨h1, h2⟩ := isDigit_range h
  have hne : d.toNat ≠ 0x30 := fun he => h0 (UInt8.toNat_inj.mp (he.trans byte_zero.symm))
  have hval : (d - 1).toNat = d.toNat - 1 := by
    rw [UInt8.toNat_sub_of_le]
    · rfl
    · rw [UInt8.le_iff_toNat_le]
      change 1 ≤ _
      omega
  exact isDigit_of_range (by omega)

/-- The upward loop keeps digits and the last place of the reversed list, the leading digit, above zero. -/
theorem stepUp_spec : ∀ {ds r : Bytes}, AllDigits ds → stepUp ds = some r →
    AllDigits r ∧ r ≠ [] ∧ (ds.getLast? ≠ some (byte '0') → r.getLast? ≠ some (byte '0'))
  | [], _, _, h => by cases h
  | d :: ds, r, hd, h => by
    obtain ⟨h1, h2⟩ := allDigits_cons.mp hd
    rw [stepUp] at h
    split_ifs at h with h9
    · cases h
      obtain ⟨h3, h4⟩ := isDigit_succ h1 h9
      refine ⟨allDigits_cons.mpr ⟨h3, h2⟩, by simp, ?_⟩
      cases ds with
      | nil => exact fun _ he => h4 (Option.some.inj he)
      | cons x xs => simp [List.getLast?_cons_cons]
    · obtain ⟨r', hr', rfl⟩ := Option.map_eq_some_iff.mp h
      obtain ⟨h3, h4, h5⟩ := stepUp_spec h2 hr'
      refine ⟨allDigits_cons.mpr ⟨by decide, h3⟩, by simp, ?_⟩
      obtain ⟨x, xs, rfl⟩ := List.exists_cons_of_ne_nil h4
      cases ds with
      | nil => cases hr'
      | cons y ys =>
        rw [List.getLast?_cons_cons, List.getLast?_cons_cons]
        exact h5

theorem stepDown_spec : ∀ {ds : Bytes}, AllDigits ds → AllDigits (stepDown ds) ∧ (stepDown ds).length = ds.length
  | [], _ => ⟨fun _ hb => (nomatch hb), rfl⟩
  | d :: ds, hd => by
    obtain ⟨h1, h2⟩ := allDigits_cons.mp hd
    rw [stepDown]
    split_ifs with h0
    · exact ⟨allDigits_cons.mpr ⟨isDigit_pred h1 h0, h2⟩, rfl⟩
    · obtain ⟨h3, h4⟩ := stepDown_spec h2
      exact ⟨allDigits_cons.mpr ⟨by decide, h3⟩, by rw [List.length_cons, h4, List.length_cons]⟩

theorem allDigits_reverse {ds : Bytes} (h : AllDigits ds) : AllDigits ds.reverse :=
  fun b hb => h b (List.mem_reverse.mp hb)

theorem Normal.stepDigits {ds : Bytes} (h : Normal ds) (exponent : ℤ) (upward : Bool) :
    Normal (stepDigits ds exponent upward).1 := by
  unfold StrictJson.stepDigits
  cases upward with
  | true =>
    rw [if_pos rfl]
    cases hs : stepUp ds.reverse with
    | none =>
      refine ⟨allDigits_cons.mpr ⟨by decide, allDigits_zeros _⟩, by simp, ?_⟩
      exact fun he => absurd (Option.some.inj he) (by decide)
    | some r =>
      obtain ⟨h1, h2, h3⟩ := stepUp_spec (allDigits_reverse h.digits) hs
      refine ⟨allDigits_reverse h1, by simpa using h2, ?_⟩
      rw [List.head?_reverse]
      refine h3 ?_
      rw [List.getLast?_reverse]
      exact h.head
  | false =>
    obtain ⟨h1, h2⟩ := stepDown_spec (allDigits_reverse h.digits)
    have hpos : 0 < ds.length := List.length_pos_of_ne_nil h.ne_nil
    rw [if_neg (by simp)]
    simp only
    split_ifs with h0
    · refine ⟨fun b hb => by rw [List.eq_of_mem_replicate hb]; decide, ?_, ?_⟩
      · intro he
        rw [List.replicate_eq_nil_iff] at he
        omega
      · obtain ⟨k, hk⟩ : ∃ k, ds.length = k + 1 := ⟨ds.length - 1, by omega⟩
        rw [hk]
        exact fun he => absurd (Option.some.inj he) (by decide)
    · refine ⟨allDigits_reverse h1, ?_, h0⟩
      intro he
      rw [List.reverse_eq_nil_iff] at he
      rw [he, List.length_reverse, List.length_nil] at h2
      omega

/-- `split_exponent` of a `"%.*e"` rendering. -/
theorem splitExponent_eq {p : ℕ} {d : UInt8} {ds : Bytes} {sign : UInt8} {ex : Bytes} (hd : isDigit d = true)
    (hds : AllDigits ds) (hp : ds.length = p) :
    splitExponent (d :: ((if p = 0 then [] else byte '.' :: ds) ++ byte 'e' :: sign :: ex)) =
      (d :: ds, atoi (sign :: ex)) := by
  set tail := byte 'e' :: sign :: ex with htail
  have hnote : ∀ b, isDigit b = true → (b != byte 'e') = true := by
    intro b hb
    obtain ⟨x, rfl⟩ := isDigit_byte hb
    revert x
    decide
  -- the mantissa is what stands before the `e`
  obtain ⟨m, hm, hmne, hfilter⟩ : ∃ m : Bytes, d :: ((if p = 0 then [] else byte '.' :: ds) ++ tail) = m ++ tail ∧
      (∀ b ∈ m, (b != byte 'e') = true) ∧ m.filter isDigit = d :: ds := by
    have hfd : ds.filter isDigit = ds := List.filter_eq_self.mpr hds
    split_ifs with hp0
    · refine ⟨[d], rfl, by simpa using hnote d hd, ?_⟩
      rw [List.length_eq_zero_iff.mp (hp.trans hp0)]
      simp [hd]
    · refine ⟨d :: byte '.' :: ds, rfl, ?_, ?_⟩
      · intro b hb
        rcases List.mem_cons.mp hb with rfl | hb
        · exact hnote _ hd
        rcases List.mem_cons.mp hb with rfl | hb
        · decide
        · exact hnote _ (hds _ hb)
      · rw [List.filter_cons_of_pos hd, List.filter_cons_of_neg (by decide), hfd]
  have htake : (m ++ tail).takeWhile (· != byte 'e') = m := by
    rw [List.takeWhile_append_of_pos hmne, htail, List.takeWhile_cons_of_neg (by simp), List.append_nil]
  have hdrop : (m ++ tail).dropWhile (· != byte 'e') = tail := by
    rw [List.dropWhile_append_of_pos hmne, htail, List.dropWhile_cons_of_neg (by simp)]
  rw [hm]
  unfold splitExponent
  simp only [htake, hdrop, hfilter]
  rw [htail, List.head?_cons, if_pos rfl]
  rfl

/-- `split_exponent` of a `"%.*e"` rendering reads its digits and exponent back. -/
theorem Scientific.split {p : ℕ} {r : Bytes} (h : Scientific p r) :
    Normal (splitExponent r).1 ∧ Decimal r (sci (splitExponent r).1 (splitExponent r).2) := by
  obtain ⟨d, ds, sign, ex, hd, h0, hds, hp, hs, hex, hne⟩ := h
  rw [splitExponent_eq hd hds hp]
  set tail := byte 'e' :: sign :: ex with htail
  have hexp : ExpText tail (atoi (sign :: ex)) := by
    have htw : ex.takeWhile isDigit = ex := List.takeWhile_eq_self_iff.mpr hex
    rcases hs with rfl | rfl
    · have hval : atoi (byte '+' :: ex) = digitsNat ex := by
        unfold atoi
        rw [List.head?_cons, if_neg (by decide), if_pos rfl]
        simp only [List.drop_succ_cons, List.drop_zero, htw]
      rw [hval]
      exact .plus _ _ (Or.inl rfl) hex hne
    · have hval : atoi (byte '-' :: ex) = - (digitsNat ex : ℤ) := by
        unfold atoi
        rw [List.head?_cons, if_pos rfl]
        simp only [List.drop_succ_cons, List.drop_zero, htw]
      rw [hval]
      exact .minus _ _ (Or.inl rfl) hex hne
  have hdig : AllDigits [d] := fun b hb => by rw [List.mem_singleton.mp hb]; exact hd
  refine ⟨⟨allDigits_cons.mpr ⟨hd, hds⟩, by simp, fun he => h0 (Option.some.inj he)⟩, ?_⟩
  split_ifs with hp0
  · have hnil := List.length_eq_zero_iff.mp (hp.trans hp0)
    subst hnil
    have := Decimal.whole [d] tail _ hdig (by simp) hexp
    simpa [sci] using this
  · have := Decimal.point [d] ds tail _ hdig (by simp) hds hexp
    simpa [sci] using this

/-! ## The digits that are found -/

section Shortest

variable {D : Type} {libc : Libc D}

theorem decimal_digitsText {ds text : Bytes} {exponent : ℤ} (h : Normal ds) (ht : digitsText ds exponent = some text) :
    Decimal text (sci ds exponent) := by
  unfold digitsText at ht
  simp only at ht
  split_ifs at ht with hlen
  cases ht
  obtain ⟨d, rest, rfl⟩ := List.exists_cons_of_ne_nil h.ne_nil
  obtain ⟨hd, hrest⟩ := allDigits_cons.mp h.digits
  have := Decimal.point [d] rest _ exponent (allDigits_cons.mpr ⟨hd, fun _ hb => (nomatch hb)⟩) (by simp) hrest
    (expText_printInt exponent)
  simpa [sci] using this

/-- The loop finds digits at the latest at 17 places, and what it finds converts to `value`. -/
theorem shortestFrom_spec (hdoc : libc.Documented) {t : Bytes} {q : ℚ} (ht : Decimal t q)
    (hfin : libc.isfinite (libc.strtod t).1 = true) (hz : libc.isZero (libc.strtod t).1 = false) :
    ∀ n precision : ℕ, 0 < n → n + precision = 18 → ∃ ds exponent,
      shortestFrom libc (libc.strtod t).1 n precision = some (ds, exponent) ∧ Normal ds ∧
      ∃ t', Decimal t' (sci ds exponent) ∧ (libc.strtod t').1 = (libc.strtod t).1
  | 0, _, h, _ => absurd h (Nat.lt_irrefl 0)
  | n + 1, precision, _, hn => by
    obtain ⟨hnormal, hdec⟩ := (hdoc.printE_shape ht hfin hz (precision - 1)).split
    set r := libc.printE (precision - 1) (libc.strtod t).1 with hr
    rw [shortestFrom, ← hr]
    simp only
    by_cases heq : libc.eq (libc.strtod r).1 (libc.strtod t).1 = true
    · rw [if_pos heq]
      exact ⟨_, _, rfl, hnormal, r, hdec, (hdoc.eq_strtod hdec ht).mp heq⟩
    · rw [if_neg heq]
      have hstep := hnormal.stepDigits (splitExponent r).2 (libc.lt (libc.strtod r).1 (libc.strtod t).1)
      set next := stepDigits (splitExponent r).1 (splitExponent r).2 (libc.lt (libc.strtod r).1 (libc.strtod t).1)
      by_cases hv : digitsValueEq libc next.1 next.2 (libc.strtod t).1 = true
      · rw [if_pos hv]
        unfold digitsValueEq at hv
        cases htext : digitsText next.1 next.2 with
        | none => rw [htext] at hv; cases hv
        | some text =>
          rw [htext] at hv
          have hdec' := decimal_digitsText hstep htext
          exact ⟨_, _, rfl, hstep, text, hdec', (hdoc.eq_strtod hdec' ht).mp hv⟩
      · rw [if_neg hv]
        cases n with
        | zero =>
          -- 17 digits always convert back
          have h17 : precision - 1 = 16 := by omega
          have hrt := hdoc.printE_round_trip ht hfin hz
          rw [← h17, ← hr] at hrt
          exact absurd ((hdoc.eq_strtod hdec ht).mpr hrt) heq
        | succ n => exact shortestFrom_spec hdoc ht hfin hz (n + 1) (precision + 1) (by omega) (by omega)

end Shortest

/-! ## Layout -/

/-- Trailing zeros do not change the number. -/
theorem stripZeros_spec {ds : Bytes} (h : Normal ds) (exponent : ℤ) :
    Normal (stripZeros ds) ∧ sci (stripZeros ds) exponent = sci ds exponent := by
  obtain ⟨d, rest, rfl⟩ := List.exists_cons_of_ne_nil h.ne_nil
  obtain ⟨hd, hrest⟩ := allDigits_cons.mp h.digits
  obtain ⟨keep, k, hk, hsplit⟩ : ∃ (keep : Bytes) (k : ℕ), (rest.reverse.dropWhile (· == byte '0')).reverse = keep ∧
      rest = keep ++ List.replicate k (byte '0') := by
    refine ⟨_, (rest.reverse.takeWhile (· == byte '0')).length, rfl, ?_⟩
    have h1 := congrArg List.reverse (List.takeWhile_append_dropWhile (p := (· == byte '0')) (l := rest.reverse))
    rw [List.reverse_append, List.reverse_reverse] at h1
    have h2 : ∀ b ∈ (rest.reverse.takeWhile (· == byte '0')).reverse, b = byte '0' := fun b hb => by
      simpa using List.mem_takeWhile_imp (List.mem_reverse.mp hb)
    have h3 := List.eq_replicate_of_mem h2
    rw [List.length_reverse] at h3
    rw [← h3]
    exact h1.symm
  have hstrip : stripZeros (d :: rest) = d :: keep := by rw [stripZeros, hk]
  rw [hstrip]
  subst hsplit
  refine ⟨⟨allDigits_cons.mpr ⟨hd, hrest.left⟩, by simp, h.head⟩, ?_⟩
  unfold sci
  rw [← List.cons_append, digitsNat_append, digitsNat_zeros]
  simp only [List.length_cons, List.length_append, List.length_replicate, Nat.add_sub_cancel, Nat.add_zero]
  rw [show keep.length + 1 + k - 1 = keep.length + k by omega]
  push_cast
  rw [mul_assoc, ← zpow_natCast (10 : ℚ) k, ← zpow_add₀ (by norm_num)]
  congr 2
  ring

theorem exists_digits {bs : Bytes} (h : AllDigits bs) (hne : bs ≠ []) : ∃ d : Digits, bs = Utf8.text d.chars := by
  obtain ⟨ds, rfl⟩ := exists_fin_digits h
  cases ds with
  | nil => exact absurd rfl hne
  | cons d ds => exact ⟨⟨d, ds⟩, rfl⟩

theorem Normal.intPart {bs : Bytes} (h : Normal bs) : ∃ i : IntPart, bs = Utf8.text i.chars := by
  obtain ⟨b, rest, rfl⟩ := List.exists_cons_of_ne_nil h.ne_nil
  obtain ⟨hb, hrest⟩ := allDigits_cons.mp h.digits
  obtain ⟨ds, rfl⟩ := exists_fin_digits hrest
  obtain ⟨h1, h2⟩ := isDigit_range hb
  have hne : b.toNat ≠ 0x30 := fun he => h.head (congrArg some (UInt8.toNat_inj.mp (he.trans byte_zero.symm)))
  obtain ⟨first, rfl⟩ := firstDigit_byte (b := b) ⟨UInt8.le_iff_toNat_le.mpr (by change 0x31 ≤ _; omega),
    UInt8.le_iff_toNat_le.mpr (by change _ ≤ 0x39; omega)⟩
  exact ⟨.nonzero first ds, by rw [IntPart.chars, text_ascii (firstDigit_facts first).1]⟩

/-- A float of the grammar without a sign that denotes `q`. -/
def FloatText (t : Bytes) (q : ℚ) : Prop :=
  (∃ (i : IntPart) (frac : Option Digits) (exp : Option ExpPart), (frac.isNone && exp.isNone) = false ∧
    t = Utf8.text (i.chars ++ (fracChars frac ++ expChars exp))) ∧ Decimal t q

/-- `a.b` -/
theorem floatText_point {a b : Bytes} (ha : AllDigits a) (hi : ∃ i : IntPart, a = Utf8.text i.chars) (hne : a ≠ [])
    (hb : AllDigits b) (hbne : b ≠ []) : FloatText (a ++ byte '.' :: b) (digitsNat (a ++ b) * 10 ^ (-(b.length : ℤ))) := by
  obtain ⟨i, rfl⟩ := hi
  obtain ⟨d, hd⟩ := exists_digits hb hbne
  have hdec := Decimal.point (Utf8.text i.chars) b [] 0 ha hne hb .absent
  rw [List.append_nil, zero_sub] at hdec
  refine ⟨⟨i, some d, none, rfl, ?_⟩, hdec⟩
  rw [Utf8.text_append, fracChars, expChars, List.append_nil, text_fracChars, ← hd]

theorem printInt02_spec (n : ℕ) : AllDigits (printInt02 n) ∧ printInt02 n ≠ [] ∧ digitsNat (printInt02 n) = n := by
  obtain ⟨h1, h2, h3⟩ := decimal_spec n
  unfold printInt02
  split_ifs with hn
  · refine ⟨allDigits_cons.mpr ⟨by decide, h1⟩, by simp, ?_⟩
    rw [digitsNat_append, h3]
    simp [digitsNat, byte_zero]
  · exact ⟨h1, h2, h3⟩

theorem floatText_exponent {ds : Bytes} (h : Normal ds) (exponent : ℤ) :
    FloatText (ds.take 1 ++ ((if ds.length > 1 then byte '.' :: ds.drop 1 else []) ++
      byte 'e' :: (if exponent < 0 then byte '-' else byte '+') :: printInt02 exponent.natAbs)) (sci ds exponent) := by
  obtain ⟨d, rest, rfl⟩ := List.exists_cons_of_ne_nil h.ne_nil
  obtain ⟨hd, hrest⟩ := allDigits_cons.mp h.digits
  have hdd : AllDigits [d] := allDigits_cons.mpr ⟨hd, fun _ hb => (nomatch hb)⟩
  obtain ⟨i, hi⟩ := Normal.intPart ⟨hdd, by simp, h.head⟩
  obtain ⟨e1, e2, e3⟩ := printInt02_spec exponent.natAbs
  obtain ⟨ex, hex⟩ := exists_digits e1 e2
  set mark := byte 'e' :: (if exponent < 0 then byte '-' else byte '+') :: printInt02 exponent.natAbs with hmark
  have hexp : ExpText mark exponent := by
    rw [hmark]
    split_ifs with hx
    · have := ExpText.minus (byte 'e') _ (Or.inl rfl) e1 e2
      rw [e3] at this
      rwa [show - (exponent.natAbs : ℤ) = exponent by omega] at this
    · have := ExpText.plus (byte 'e') _ (Or.inl rfl) e1 e2
      rw [e3] at this
      rwa [show (exponent.natAbs : ℤ) = exponent by omega] at this
  obtain ⟨part, hmarkText⟩ : ∃ part : ExpPart, mark = Utf8.text part.chars := by
    refine ⟨⟨false, some (decide (exponent < 0)), ex⟩, ?_⟩
    rw [hmark, text_expChars]
    by_cases hx : exponent < 0
    · simp only [hx, if_true, decide_true, signChars, List.cons_append, List.nil_append]
      rw [text_ascii (by decide), ← hex]
      rfl
    · simp only [hx, if_false, decide_false, signChars, List.cons_append, List.nil_append]
      rw [text_ascii (by decide), ← hex]
      rfl
  by_cases hc : (d :: rest).length > 1
  · have hne : rest ≠ [] := by
      rintro rfl
      simp at hc
    obtain ⟨fr, hfr⟩ := exists_digits hrest hne
    rw [if_pos hc]
    have hdec := Decimal.point [d] rest mark exponent hdd (by simp) hrest hexp
    refine ⟨⟨i, some fr, some part, rfl, ?_⟩, by simpa [sci] using hdec⟩
    rw [Utf8.text_append, Utf8.text_append, fracChars, expChars, text_fracChars, ← hi, ← hmarkText, ← hfr]
    rfl
  · have hnil : rest = [] := by
      cases rest with
      | nil => rfl
      | cons x xs => simp at hc
    subst hnil
    rw [if_neg hc]
    have hdec := Decimal.whole [d] mark exponent hdd (by simp) hexp
    refine ⟨⟨i, none, some part, rfl, ?_⟩, by simpa [sci] using hdec⟩
    rw [Utf8.text_append, Utf8.text_append, fracChars, expChars, ← hi, ← hmarkText]
    rfl

/-- The layouts of `append_python_float` are floats of the grammar with the value of the digits. -/
theorem formatFloat_spec {ds : Bytes} (h : Normal ds) (exponent : ℤ) :
    FloatText (formatFloat ds exponent) (sci ds exponent) := by
  have hlen : 0 < ds.length := List.length_pos_of_ne_nil h.ne_nil
  unfold formatFloat
  simp only
  by_cases h1 : exponent + 1 < PYTHON_REPR_MIN_DECPT ∨ exponent + 1 > PYTHON_REPR_MAX_DECPT
  · rw [if_pos h1]
    exact floatText_exponent h exponent
  rw [if_neg h1]
  by_cases h2 : exponent + 1 ≤ 0
  · -- `0.000ddd`
    rw [if_pos h2]
    have hz := allDigits_zeros (-(exponent + 1)).toNat
    have hp := floatText_point (a := [byte '0']) (b := List.replicate (-(exponent + 1)).toNat (byte '0') ++ ds)
      (allDigits_zeros 1) ⟨.zero, rfl⟩ (by simp) (hz.append h.digits) (by simp [h.ne_nil])
    have hq : (digitsNat ([byte '0'] ++ (List.replicate (-(exponent + 1)).toNat (byte '0') ++ ds)) : ℚ) *
        10 ^ (-((List.replicate (-(exponent + 1)).toNat (byte '0') ++ ds).length : ℤ)) = sci ds exponent := by
      rw [digitsNat_append, digitsNat_append, digitsNat_zeros, show digitsNat [byte '0'] = 0 from rfl, sci]
      simp only [Nat.zero_mul, Nat.zero_add, List.length_append, List.length_replicate]
      congr 2
      omega
    rw [hq] at hp
    exact hp
  rw [if_neg h2]
  by_cases h3 : (exponent + 1).toNat ≥ ds.length
  · -- `ddd000.0`
    rw [if_pos h3]
    have hint : Normal (ds ++ List.replicate ((exponent + 1).toNat - ds.length) (byte '0')) := by
      refine ⟨h.digits.append (allDigits_zeros _), by simp [h.ne_nil], ?_⟩
      obtain ⟨d, rest, rfl⟩ := List.exists_cons_of_ne_nil h.ne_nil
      exact h.head
    have hp := floatText_point (b := [byte '0']) hint.digits hint.intPart hint.ne_nil (allDigits_zeros 1) (by simp)
    have hq : (digitsNat (ds ++ List.replicate ((exponent + 1).toNat - ds.length) (byte '0') ++ [byte '0']) : ℚ) *
        10 ^ (-(([byte '0'] : Bytes).length : ℤ)) = sci ds exponent := by
      rw [digitsNat_append, digitsNat_append, digitsNat_zeros, show digitsNat [byte '0'] = 0 from rfl, sci]
      simp only [List.length_replicate, List.length_cons, List.length_nil, Nat.add_zero]
      have h10 : (10 : ℚ) * 10 ^ (-1 : ℤ) = 1 := by norm_num
      push_cast
      rw [mul_assoc, mul_assoc, ← zpow_natCast (10 : ℚ), h10, mul_one]
      congr 2
      omega
    rw [hq, List.append_assoc] at hp
    exact hp
  · -- `d.ddd`
    rw [if_neg h3]
    have hsplit := List.take_append_drop (exponent + 1).toNat ds
    have htake : Normal (ds.take (exponent + 1).toNat) := by
      refine ⟨fun b hb => h.digits b (List.mem_of_mem_take hb), ?_, ?_⟩
      · intro he
        rcases List.take_eq_nil_iff.mp he with hc | hc
        · omega
        · exact h.ne_nil hc
      · rw [List.head?_take, if_neg (by omega)]
        exact h.head
    have hdrop : AllDigits (ds.drop (exponent + 1).toNat) := fun b hb => h.digits b (List.mem_of_mem_drop hb)
    have hp := floatText_point htake.digits htake.intPart htake.ne_nil hdrop (by
      intro he
      rw [List.drop_eq_nil_iff] at he
      omega)
    rw [hsplit] at hp
    have hq : (digitsNat ds : ℚ) * 10 ^ (-((ds.drop (exponent + 1).toNat).length : ℤ)) = sci ds exponent := by
      rw [sci, List.length_drop]
      congr 2
      omega
    rw [hq] at hp
    exact hp

/-! ## Float tokens -/

theorem allDigits_chars (d : Digits) : AllDigits (Utf8.text d.chars) := allDigits_text (d.first :: d.rest)

theorem chars_ne_nil (d : Digits) : Utf8.text d.chars ≠ [] := by
  rw [Digits.chars, text_ascii (digitChar_lt d.first)]
  simp

theorem intPart_digits (i : IntPart) : AllDigits (Utf8.text i.chars) ∧ Utf8.text i.chars ≠ [] := by
  cases i with
  | zero => exact ⟨allDigits_zeros 1, by decide⟩
  | nonzero first ds =>
    obtain ⟨hlt, -, -, -, hdig⟩ := firstDigit_facts first
    rw [IntPart.chars, text_ascii hlt]
    exact ⟨allDigits_cons.mpr ⟨hdig, allDigits_text ds⟩, by simp⟩

theorem exists_expText (exp : Option ExpPart) : ∃ x, ExpText (Utf8.text (expChars exp)) x := by
  cases exp with
  | none => exact ⟨0, .absent⟩
  | some e =>
    have hm : byte (if e.upper then 'E' else 'e') = byte 'e' ∨ byte (if e.upper then 'E' else 'e') = byte 'E' := by
      cases e.upper
      · exact Or.inl rfl
      · exact Or.inr rfl
    have hd := allDigits_chars e.digits
    have hne := chars_ne_nil e.digits
    rw [expChars, text_expChars]
    cases e.sign with
    | none => exact ⟨_, .bare _ _ hm hd hne⟩
    | some minus =>
      cases minus with
      | true =>
        rw [signChars, List.cons_append, text_ascii (by decide)]
        exact ⟨_, .minus _ _ hm hd hne⟩
      | false =>
        rw [signChars, List.cons_append, text_ascii (by decide)]
        exact ⟨_, .plus _ _ hm hd hne⟩

theorem exists_decimal (i : IntPart) (frac : Option Digits) (exp : Option ExpPart) :
    ∃ q, Decimal (Utf8.text (i.chars ++ (fracChars frac ++ expChars exp))) q := by
  obtain ⟨ha, hne⟩ := intPart_digits i
  obtain ⟨x, hx⟩ := exists_expText exp
  rw [Utf8.text_append, Utf8.text_append]
  cases frac with
  | none => exact ⟨_, .whole _ _ x ha hne hx⟩
  | some d =>
    rw [fracChars, text_fracChars, List.cons_append]
    exact ⟨_, .point _ _ _ x ha hne (allDigits_chars d) hx⟩

section Render

variable {D : Type} {libc : Libc D}

/-- For a finite double without a sign the writer lays out a float that converts to it. -/
theorem exists_layout (hdoc : libc.Documented) {t : Bytes} {q : ℚ} (ht : Decimal t q)
    (hfin : libc.isfinite (libc.strtod t).1 = true) :
    ∃ t' q', FloatText t' q' ∧ (libc.strtod t').1 = (libc.strtod t).1 ∧
      unsignedFloat libc (libc.strtod t).1 = .ok t' := by
  unfold unsignedFloat
  by_cases hz : libc.isZero (libc.strtod t).1 = true
  · have hzero : FloatText (ascii "0.0") _ :=
      floatText_point (a := [byte '0']) (b := [byte '0']) (allDigits_zeros 1) ⟨.zero, rfl⟩ (by simp)
        (allDigits_zeros 1) (by simp)
    rw [if_pos hz]
    exact ⟨_, _, hzero, (hdoc.isZero_strtod ht hz).symm, rfl⟩
  · rw [if_neg hz]
    obtain ⟨ds, exponent, hs, hnormal, t', hdec, hval⟩ :=
      shortestFrom_spec hdoc ht hfin (by simpa using hz) 17 1 (by omega) rfl
    have hshort : shortestDigits libc (libc.strtod t).1 = some (ds, exponent) := hs
    obtain ⟨hstrip, hsci⟩ := stripZeros_spec hnormal exponent
    have hfmt := formatFloat_spec hstrip exponent
    refine ⟨_, _, hfmt, ?_, by rw [hshort]⟩
    rw [← hval]
    exact hdoc.strtod_value hfmt.2 (hsci ▸ hdec)

/-- **Floats**: a finite float token is written as a float of the grammar with the same double. -/
theorem appendPythonFloat_spec (hdoc : libc.Documented) (n : Number) (hfin : libc.finite (Utf8.text n.chars) = true) :
    ∃ n' : Number, n'.isInteger = false ∧ appendPythonFloat libc (Utf8.text n.chars) = .ok (Utf8.text n'.chars) ∧
      (libc.strtod (Utf8.text n'.chars)).1 = (libc.strtod (Utf8.text n.chars)).1 ∧
      libc.finite (Utf8.text n'.chars) = true := by
  obtain ⟨minus, i, frac, exp⟩ := n
  obtain ⟨q, hq⟩ := exists_decimal i frac exp
  set t := Utf8.text (i.chars ++ (fracChars frac ++ expChars exp)) with ht
  have hfinite : libc.isfinite (libc.strtod (Utf8.text (Number.chars ⟨minus, i, frac, exp⟩))).1 = true := by
    unfold Libc.finite at hfin
    rw [Bool.and_eq_true] at hfin
    exact hfin.2
  cases minus with
  | false =>
    have htext : Utf8.text (Number.chars ⟨false, i, frac, exp⟩) = t := rfl
    rw [htext] at hfinite ⊢
    obtain ⟨t', q', ⟨⟨i', frac', exp', hni, rfl⟩, hdec⟩, hval, hlayout⟩ := exists_layout hdoc hq hfinite
    refine ⟨⟨false, i', frac', exp'⟩, hni, ?_, hval, ?_⟩
    · have hnf : ¬ libc.isfinite (libc.strtod t).1 = false := by simp [hfinite]
      simp only [appendPythonFloat, if_neg hnf, hdoc.signbit_strtod hq, hdoc.fabs_strtod hq, hlayout]
      rfl
    · unfold Libc.finite
      have htakes := hdoc.strtod_takes hdec
      change ((libc.strtod _).2 == _ && libc.isfinite (libc.strtod (Utf8.text (i'.chars ++ _))).1) = true
      rw [hval, hfinite, Bool.and_true, beq_iff_eq]
      exact htakes
  | true =>
    have htext : Utf8.text (Number.chars ⟨true, i, frac, exp⟩) = byte '-' :: t := by
      rw [Number.chars, minusChars, if_pos rfl, List.cons_append, text_ascii (by decide)]
      rfl
    rw [htext, hdoc.strtod_minus hq, hdoc.isfinite_neg] at hfinite
    obtain ⟨t', q', ⟨⟨i', frac', exp', hni, rfl⟩, hdec⟩, hval, hlayout⟩ := exists_layout hdoc hq hfinite
    have htext' : Utf8.text (Number.chars ⟨true, i', frac', exp'⟩) =
        byte '-' :: Utf8.text (i'.chars ++ (fracChars frac' ++ expChars exp')) := by
      rw [Number.chars, minusChars, if_pos rfl, List.cons_append, text_ascii (by decide)]
      rfl
    refine ⟨⟨true, i', frac', exp'⟩, hni, ?_, ?_, ?_⟩
    · have hnf : ¬ libc.isfinite (libc.neg (libc.strtod t).1) = false := by simp [hdoc.isfinite_neg, hfinite]
      rw [htext, htext']
      simp only [appendPythonFloat, hdoc.strtod_minus hq, if_neg hnf, hdoc.signbit_neg hq, hdoc.fabs_neg,
        hdoc.fabs_strtod hq, hlayout]
      rfl
    · rw [htext, htext', hdoc.strtod_minus hq, hdoc.strtod_minus hdec, hval]
    · unfold Libc.finite
      rw [htext', hdoc.strtod_minus hdec, hdoc.isfinite_neg, hval, hfinite]
      simp

end Render

end Hamn.StrictJson
