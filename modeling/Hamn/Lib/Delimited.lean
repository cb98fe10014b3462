import Mathlib.Tactic

/-!
# Delimited — texts that say where they end

A writer is delimited when what it wrote can be told from what stands behind it: two texts that start with written
values and go on as `ok` allows are equal only if the values and the rests are.

* `Delimited`: the notion; `Delimited.injective`: with nothing behind it.
* `Delimited.quoted`, `Delimited.digits`: characters up to a closing mark, numbers up to a character that is no digit.
* `escapes_delimited`: characters behind a mark of their own.
* `Delimited.list`: elements with a separator before all but the first, up to a closing mark.
* `record_delimited`: fields that may be missing, each behind its own key.
-/

namespace Delimit

variable {χ α β : Type}

def Delimited (write : α → List χ) (ok : List χ → Prop) : Prop :=
  ∀ a b r r', ok r → ok r' → write a ++ r = write b ++ r' → a = b ∧ r = r'

/-- Whatever stands behind it. -/
abbrev SelfDelimited (write : α → List χ) : Prop := Delimited write fun _ => True

variable {write : α → List χ} {ok ok' : List χ → Prop}

theorem Delimited.injective (h : Delimited write ok) (hok : ok []) : Function.Injective write :=
  fun a b hab => (h a b [] [] hok hok (by rw [hab])).1

theorem Delimited.mono (h : Delimited write ok) (himp : ∀ r, ok' r → ok r) : Delimited write ok' :=
  fun a b r r' hr hr' => h a b r r' (himp r hr) (himp r' hr')

/-- A fixed text before the value. -/
theorem Delimited.after (h : Delimited write ok) (start : List χ) : Delimited (fun a => start ++ write a) ok := by
  intro a b r r' hr hr' heq
  rw [List.append_assoc, List.append_assoc] at heq
  exact h a b r r' hr hr' (List.append_cancel_left heq)

/-- A fixed text behind the value. -/
theorem Delimited.before (h : Delimited write ok) {close : List χ} (hclose : ∀ r, ok (close ++ r)) :
    SelfDelimited fun a => write a ++ close := by
  intro a b r r' _ _ heq
  rw [List.append_assoc, List.append_assoc] at heq
  obtain ⟨hab, hrest⟩ := h a b _ _ (hclose r) (hclose r') heq
  exact ⟨hab, List.append_cancel_left hrest⟩

theorem Delimited.comp (h : Delimited write ok) {f : β → α} (hf : Function.Injective f) :
    Delimited (fun b => write (f b)) ok := by
  intro a b r r' hr hr' heq
  obtain ⟨hab, hrest⟩ := h (f a) (f b) r r' hr hr' heq
  exact ⟨hf hab, hrest⟩

/-- One value and then another. -/
theorem Delimited.pair {write' : β → List χ} (h : Delimited write ok) (h' : Delimited write' ok')
    (hok : ∀ b r, ok' r → ok (write' b ++ r)) : Delimited (fun p : α × β => write p.1 ++ write' p.2) ok' := by
  rintro ⟨a, b⟩ ⟨c, d⟩ r r' hr hr' heq
  rw [List.append_assoc, List.append_assoc] at heq
  obtain ⟨rfl, hsecond⟩ := h a c _ _ (hok b r hr) (hok d r' hr') heq
  obtain ⟨rfl, hrest⟩ := h' b d r r' hr hr' hsecond
  exact ⟨rfl, hrest⟩

/-! ## Up to a closing mark -/

/-- Written characters, none of which starts with the mark, and then the mark. -/
theorem Delimited.quoted (h : SelfDelimited write) {mark : χ}
    (hmark : ∀ a, ∃ c rest, write a = c :: rest ∧ c ≠ mark) :
    SelfDelimited fun text : List α => text.flatMap write ++ [mark] := by
  intro text text' r r' _ _ heq
  induction text generalizing text' with
  | nil =>
    cases text' with
    | nil => exact ⟨rfl, by simpa using heq⟩
    | cons b text' =>
      obtain ⟨c, rest, hwrite, hne⟩ := hmark b
      simp only [List.flatMap_nil, List.flatMap_cons, hwrite, List.nil_append, List.cons_append] at heq
      exact absurd (List.cons.inj heq).1.symm hne
  | cons a text ih =>
    cases text' with
    | nil =>
      obtain ⟨c, rest, hwrite, hne⟩ := hmark a
      simp only [List.flatMap_nil, List.flatMap_cons, hwrite, List.nil_append, List.cons_append] at heq
      exact absurd (List.cons.inj heq).1 hne
    | cons b text' =>
      simp only [List.flatMap_cons, List.append_assoc] at heq
      obtain ⟨rfl, heq⟩ := h a b _ _ trivial trivial heq
      obtain ⟨rfl, hrest⟩ := ih text' (by simpa using heq)
      exact ⟨rfl, hrest⟩

/-- Texts with different starts. -/
theorem append_ne {a b : χ} {s t : List χ} (hs : s.head? = some a) (ht : t.head? = some b) (hne : a ≠ b)
    (r r' : List χ) : s ++ r ≠ t ++ r' := by
  intro heq
  have hhead := congrArg List.head? heq
  rw [List.head?_append, List.head?_append, hs, ht] at hhead
  exact hne (Option.some.inj hhead)

/-- Characters that are written as they are, with one other character behind `back`, or with `unit` and a code. -/
theorem escapes_delimited {escape code : χ → List χ} {coded : χ → Prop} {back unit : χ} {table : List (χ × χ)}
    (hcases : ∀ c, (∃ x, (c, x) ∈ table ∧ escape c = [back, x]) ∨ (c ≠ back ∧ escape c = [c]) ∨
      (coded c ∧ escape c = back :: unit :: code c))
    (hunit : ∀ e ∈ table, e.2 ≠ unit) (hinj : ∀ e ∈ table, ∀ e' ∈ table, e.2 = e'.2 → e.1 = e'.1)
    (hcode : ∀ a b r r', coded a → coded b → code a ++ r = code b ++ r' → a = b ∧ r = r') : SelfDelimited escape := by
  intro a b r r' _ _ heq
  obtain ⟨x, hx, ha⟩ | ⟨hback, ha⟩ | ⟨hcoded, ha⟩ := hcases a
  · obtain ⟨y, hy, hb⟩ | ⟨hback, hb⟩ | ⟨-, hb⟩ := hcases b
    · rw [ha, hb] at heq
      simp only [List.cons_append, List.nil_append, List.cons.injEq, true_and] at heq
      exact ⟨hinj _ hx _ hy heq.1, heq.2⟩
    · rw [ha, hb] at heq
      exact absurd (List.cons.inj heq).1.symm hback
    · rw [ha, hb] at heq
      simp only [List.cons_append, List.nil_append, List.cons.injEq, true_and] at heq
      exact absurd heq.1 (hunit _ hx)
  · obtain ⟨y, hy, hb⟩ | ⟨-, hb⟩ | ⟨-, hb⟩ := hcases b
    · rw [ha, hb] at heq
      exact absurd (List.cons.inj heq).1 hback
    · rw [ha, hb] at heq
      exact List.cons.inj heq
    · rw [ha, hb] at heq
      exact absurd (List.cons.inj heq).1 hback
  · obtain ⟨y, hy, hb⟩ | ⟨hback, hb⟩ | ⟨hcoded', hb⟩ := hcases b
    · rw [ha, hb] at heq
      simp only [List.cons_append, List.nil_append, List.cons.injEq, true_and] at heq
      exact absurd heq.1.symm (hunit _ hy)
    · rw [ha, hb] at heq
      exact absurd (List.cons.inj heq).1.symm hback
    · rw [ha, hb] at heq
      simp only [List.cons_append, List.cons.injEq, true_and] at heq
      exact hcode a b r r' hcoded hcoded' heq

/-- Elements with a separator before all but the first, and then the mark. -/
def listText (write : α → List χ) (separator mark : χ) : List α → List χ
  | [] => [mark]
  | a :: as => write a ++ (as.flatMap (fun a => separator :: write a) ++ [mark])

theorem Delimited.list (h : SelfDelimited write) {separator mark : χ} (hne : separator ≠ mark)
    (hmark : ∀ a, ∃ c rest, write a = c :: rest ∧ c ≠ mark) : SelfDelimited (listText write separator mark) := by
  have htail : SelfDelimited fun as : List α => as.flatMap (fun a => separator :: write a) ++ [mark] :=
    (h.after [separator]).quoted fun a => ⟨separator, write a, rfl, hne⟩
  intro text text' r r' _ _ heq
  cases text with
  | nil =>
    cases text' with
    | nil => exact ⟨rfl, by simpa [listText] using heq⟩
    | cons b text' =>
      obtain ⟨c, rest, hwrite, hc⟩ := hmark b
      simp only [listText, hwrite, List.nil_append, List.cons_append] at heq
      exact absurd (List.cons.inj heq).1.symm hc
  | cons a text =>
    cases text' with
    | nil =>
      obtain ⟨c, rest, hwrite, hc⟩ := hmark a
      simp only [listText, hwrite, List.nil_append, List.cons_append] at heq
      exact absurd (List.cons.inj heq).1 hc
    | cons b text' =>
      simp only [listText, List.append_assoc] at heq
      obtain ⟨rfl, hrest⟩ := h a b _ _ trivial trivial heq
      obtain ⟨rfl, hend⟩ := htail text text' r r' trivial trivial (by simpa using hrest)
      exact ⟨rfl, hend⟩

/-! ## Numbers -/

/-- The value of a digit that `Nat.digitChar` writes. -/
def digitValue (c : Char) : ℕ := if c.toNat < 97 then c.toNat - 48 else c.toNat - 87

theorem digitValue_digitChar {d : ℕ} (h : d < 16) : digitValue d.digitChar = d := by
  interval_cases d <;> rfl

def numberValue (base : ℕ) (text : List Char) : ℕ := text.foldl (fun value c => base * value + digitValue c) 0

theorem numberValue_toDigits {base : ℕ} (h1 : 1 < base) (h16 : base ≤ 16) (n : ℕ) :
    numberValue base (Nat.toDigits base n) = n := by
  induction n using Nat.strong_induction_on with
  | _ n ih =>
    rw [Nat.toDigits_eq_if h1]
    split_ifs with hn
    · show base * 0 + digitValue n.digitChar = n
      rw [digitValue_digitChar (by omega), Nat.mul_zero, Nat.zero_add]
    · have hmod := Nat.mod_lt n (Nat.zero_lt_of_lt h1)
      have hdiv : n / base < n := Nat.div_lt_self (by omega) h1
      unfold numberValue
      rw [List.foldl_append]
      show base * numberValue base (Nat.toDigits base (n / base)) + digitValue (n % base).digitChar = n
      rw [ih _ hdiv, digitValue_digitChar (by omega), Nat.div_add_mod]

theorem toDigits_digits {base : ℕ} (h1 : 1 < base) (n : ℕ) :
    ∀ c ∈ Nat.toDigits base n, ∃ d < base, c = d.digitChar := by
  induction n using Nat.strong_induction_on with
  | _ n ih =>
    rw [Nat.toDigits_eq_if h1]
    split_ifs with hn
    · intro c hc
      exact ⟨n, hn, List.mem_singleton.mp hc⟩
    · intro c hc
      rcases List.mem_append.mp hc with hc | hc
      · exact ih _ (Nat.div_lt_self (by omega) h1) c hc
      · exact ⟨n % base, Nat.mod_lt n (Nat.zero_lt_of_lt h1), List.mem_singleton.mp hc⟩

/-- Two texts over `p` that end where `p` does not hold are told apart. -/
theorem span_delimited {p : χ → Bool} (hwrite : ∀ a, ∀ c ∈ write a, p c = true) (hinj : Function.Injective write) :
    Delimited write fun r => ∀ c, r.head? = some c → p c = false := by
  intro a b r r' hr hr' heq
  have hspan : ∀ (text rest : List χ), (∀ c ∈ text, p c = true) → (∀ c, rest.head? = some c → p c = false) →
      (text ++ rest).takeWhile p = text := by
    intro text rest htext hrest
    rw [List.takeWhile_append_of_pos htext]
    cases rest with
    | nil => rw [List.takeWhile_nil, List.append_nil]
    | cons c rest => rw [List.takeWhile_cons_of_neg (by rw [hrest c rfl]; exact Bool.false_ne_true), List.append_nil]
  have htext : write a = write b := by
    rw [← hspan (write a) r (hwrite a) hr, ← hspan (write b) r' (hwrite b) hr', heq]
  refine ⟨hinj htext, ?_⟩
  rw [htext] at heq
  exact List.append_cancel_left heq

theorem toDigits_injective {base : ℕ} (h1 : 1 < base) (h16 : base ≤ 16) : Function.Injective (Nat.toDigits base) :=
  fun n m h => by rw [← numberValue_toDigits h1 h16 n, h, numberValue_toDigits h1 h16 m]

/-- A number is told from what starts with no digit. -/
theorem Delimited.digits {base : ℕ} (h1 : 1 < base) (h16 : base ≤ 16) {p : Char → Bool}
    (hp : ∀ d < base, p d.digitChar = true) :
    Delimited (Nat.toDigits base) fun r => ∀ c, r.head? = some c → p c = false := by
  refine span_delimited (fun n c hc => ?_) (toDigits_injective h1 h16)
  obtain ⟨d, hd, rfl⟩ := toDigits_digits h1 n c hc
  exact hp d hd

/-! ## Records -/

/-- The fields that are there, each behind its key. -/
def record (write : α → List χ) : List (List χ) → List (Option α) → List χ
  | key :: keys, value :: values => (match value with
    | some a => key ++ write a
    | none => []) ++ record write keys values
  | _, _ => []

/-- What follows a record starts with one of the later keys. -/
theorem record_starts (keys : List (List χ)) (values : List (Option α)) {close : List χ} (rest : List χ) :
    ∃ key ∈ keys ++ [close], key <+: record write keys values ++ (close ++ rest) := by
  induction keys generalizing values with
  | nil => exact ⟨close, List.mem_singleton_self close, List.prefix_append _ _⟩
  | cons key keys ih =>
    cases values with
    | nil => exact ⟨close, by simp, List.prefix_append _ _⟩
    | cons value values =>
      cases value with
      | some a =>
        refine ⟨key, by simp, ?_⟩
        show key <+: key ++ write a ++ record write keys values ++ (close ++ rest)
        rw [List.append_assoc, List.append_assoc]
        exact List.prefix_append _ _
      | none =>
        obtain ⟨later, hmem, hprefix⟩ := ih values
        exact ⟨later, List.mem_cons_of_mem _ hmem, hprefix⟩

/-- Records over keys none of which starts another are told apart, field by field. -/
theorem record_delimited (h : Delimited write ok) {close : List χ} (keys : List (List χ))
    (hkeys : (keys ++ [close]).Pairwise fun a b => ¬ a <+: b ∧ ¬ b <+: a)
    (hok : ∀ key ∈ keys ++ [close], ∀ r, key <+: r → ok r) {values values' : List (Option α)}
    (hv : values.length = keys.length) (hv' : values'.length = keys.length) {r r' : List χ}
    (heq : record write keys values ++ (close ++ r) = record write keys values' ++ (close ++ r')) :
    values = values' ∧ r = r' := by
  induction keys generalizing values values' with
  | nil =>
    obtain rfl := List.eq_nil_of_length_eq_zero hv
    obtain rfl := List.eq_nil_of_length_eq_zero hv'
    exact ⟨rfl, List.append_cancel_left heq⟩
  | cons key keys ih =>
    obtain ⟨value, values, rfl⟩ := List.exists_of_length_succ values hv
    obtain ⟨value', values', rfl⟩ := List.exists_of_length_succ values' hv'
    rw [List.cons_append, List.pairwise_cons] at hkeys
    obtain ⟨hkey, hkeys⟩ := hkeys
    have hlater : ∀ k ∈ keys ++ [close], ∀ r, k <+: r → ok r := fun k hk => hok k (List.mem_cons_of_mem _ hk)
    have hrest : ∀ vs : List (Option α), ∀ s : List χ, ok (record write keys vs ++ (close ++ s)) := by
      intro vs s
      obtain ⟨k, hk, hstarts⟩ := @record_starts _ _ write keys vs close s
      exact hlater k hk _ hstarts
    have hno : ∀ (a : α) (vs vs' : List (Option α)) (s s' : List χ),
        key ++ write a ++ record write keys vs ++ (close ++ s) ≠ record write keys vs' ++ (close ++ s') := by
      intro a vs vs' s s' heq
      obtain ⟨k, hk, hstarts⟩ := @record_starts _ _ write keys vs' close s'
      rw [← heq] at hstarts
      have hself : key <+: key ++ write a ++ record write keys vs ++ (close ++ s) := by
        rw [List.append_assoc, List.append_assoc]
        exact List.prefix_append _ _
      rcases List.prefix_or_prefix_of_prefix hself hstarts with h | h
      · exact (hkey k hk).1 h
      · exact (hkey k hk).2 h
    cases value with
    | none =>
      cases value' with
      | none =>
        obtain ⟨rfl, hr⟩ := ih hkeys hlater (Nat.succ.inj hv) (Nat.succ.inj hv') heq
        exact ⟨rfl, hr⟩
      | some b => exact absurd heq.symm (hno b values' values r' r)
    | some a =>
      cases value' with
      | none => exact absurd heq (hno a values values' r r')
      | some b =>
        have heq : key ++ write a ++ record write keys values ++ (close ++ r) =
            key ++ write b ++ record write keys values' ++ (close ++ r') := heq
        simp only [List.append_assoc] at heq
        obtain ⟨rfl, hrecord⟩ := h a b _ _ (hrest values r) (hrest values' r') (List.append_cancel_left heq)
        obtain ⟨rfl, hr⟩ := ih hkeys hlater (Nat.succ.inj hv) (Nat.succ.inj hv') hrecord
        exact ⟨rfl, hr⟩

end Delimit
