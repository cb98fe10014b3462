import Mathlib

/-!
# Bytes — byte strings and their ASCII literals
-/

abbrev Bytes := List UInt8

instance : LawfulBEq Bytes := inferInstance

namespace Bytes

/-- The byte of an ASCII character. -/
def byte (c : Char) : UInt8 := UInt8.ofNat c.toNat

def ascii (s : String) : Bytes := s.toList.map byte

theorem ascii_append (a b : String) : ascii (a ++ b) = ascii a ++ ascii b := by
  unfold ascii
  rw [String.toList_append, List.map_append]

/-- The bytes of a literal, without a run of the decoder. -/
theorem ascii_ofList (cs : List Char) : ascii (String.ofList cs) = cs.map byte :=
  congrArg (List.map byte) String.toList_ofList

/-- A number in decimal. -/
def decimal (n : ℕ) : Bytes := ascii (toString n)

def newline : UInt8 := 10

def isDecimal (c : UInt8) : Bool := 48 ≤ c && c ≤ 57

def isLowerHex (c : UInt8) : Bool := isDecimal c || (97 ≤ c && c ≤ 102)

def isAlphanumeric (c : UInt8) : Bool := isDecimal c || (65 ≤ c && c ≤ 90) || (97 ≤ c && c ≤ 122)

/-- What holds of 256 numbers holds of every byte. -/
theorem forall_byte {P : UInt8 → Prop} (h : ∀ n < 256, P (UInt8.ofNat n)) (c : UInt8) : P c := by
  rw [← UInt8.ofNat_toNat (x := c)]
  exact h c.toNat c.toNat_lt

/-! ## Cutting -/

/-- What follows `p` in `b`, if `b` starts with it. -/
def stripPrefix (p b : Bytes) : Option Bytes := if p.isPrefixOf b then some (b.drop p.length) else none

/-- What stands before `p` in `b`, if `b` ends with it. -/
def stripSuffix (p b : Bytes) : Option Bytes := if p.isSuffixOf b then some (b.take (b.length - p.length)) else none

/-- What stands before and after the first `c`. -/
def splitOnce (c : UInt8) : Bytes → Option (Bytes × Bytes)
  | [] => none
  | a :: b => if a = c then some ([], b) else (splitOnce c b).map fun r => (a :: r.1, r.2)

def trimNewlines (b : Bytes) : Bytes := b.rdropWhile (· = newline)

/-- The lines of a text: a final newline ends the last line, and a carriage return before a newline belongs to it. -/
def lines (b : Bytes) : List Bytes :=
  let ls := b.splitOn newline
  let ls := if ls.getLast? = some [] then ls.dropLast else ls
  ls.map fun l => (stripSuffix [13] l).getD l

theorem stripPrefix_eq_some {p b r : Bytes} : stripPrefix p b = some r ↔ b = p ++ r := by
  unfold stripPrefix
  constructor
  · intro h
    split_ifs at h with hp
    obtain ⟨t, rfl⟩ := List.isPrefixOf_iff_prefix.mp hp
    rw [List.drop_left] at h
    rw [Option.some.inj h]
  · rintro rfl
    rw [if_pos (List.isPrefixOf_iff_prefix.mpr (List.prefix_append p r)), List.drop_left]

theorem stripSuffix_eq_some {p b r : Bytes} : stripSuffix p b = some r ↔ b = r ++ p := by
  unfold stripSuffix
  constructor
  · intro h
    split_ifs at h with hp
    obtain ⟨t, rfl⟩ := List.isSuffixOf_iff_suffix.mp hp
    rw [List.length_append, Nat.add_sub_cancel, List.take_left] at h
    rw [Option.some.inj h]
  · rintro rfl
    rw [if_pos (List.isSuffixOf_iff_suffix.mpr (List.suffix_append r p)), List.length_append, Nat.add_sub_cancel,
      List.take_left]

/-- A name with a prefix that another name does not have. -/
theorem append_ne {p x : Bytes} (s : Bytes) (h : p.isPrefixOf x = false) : p ++ s ≠ x := by
  rintro rfl
  rw [List.isPrefixOf_iff_prefix.mpr (List.prefix_append p s)] at h
  cases h

theorem trimNewlines_append {b : Bytes} {c : UInt8} (h : b.getLast? = some c) (hc : c ≠ newline) :
    trimNewlines (b ++ [newline]) = b := by
  obtain ⟨b, rfl⟩ := List.getLast?_eq_some_iff.mp h
  unfold trimNewlines
  rw [List.rdropWhile_concat_pos _ _ _ (by simp), List.rdropWhile_concat_neg _ _ _ (by simpa using hc)]

theorem splitOnce_eq_some {c : UInt8} {b l r : Bytes} : splitOnce c b = some (l, r) ↔ b = l ++ c :: r ∧ c ∉ l := by
  induction b generalizing l with
  | nil => simp [splitOnce]
  | cons a b ih =>
    unfold splitOnce
    by_cases ha : a = c
    · rw [if_pos ha]
      subst ha
      constructor
      · intro h
        obtain ⟨rfl, rfl⟩ := Prod.mk.inj (Option.some.inj h)
        exact ⟨rfl, List.not_mem_nil⟩
      · rintro ⟨h, hl⟩
        cases l with
        | nil => rw [(List.cons.inj h).2]
        | cons x l => exact absurd ((List.cons.inj h).1 ▸ List.mem_cons_self) hl
    · rw [if_neg ha]
      cases l with
      | nil =>
        constructor
        · intro h
          obtain ⟨q, -, hq⟩ := Option.map_eq_some_iff.mp h
          cases hq
        · rintro ⟨h, -⟩
          exact absurd (List.cons.inj h).1 ha
      | cons x l =>
        constructor
        · intro h
          obtain ⟨⟨l', r'⟩, hq, he⟩ := Option.map_eq_some_iff.mp h
          obtain ⟨⟨rfl, rfl⟩, rfl⟩ := (Prod.mk.inj he).imp List.cons.inj id
          obtain ⟨rfl, hl⟩ := ih.mp hq
          exact ⟨rfl, fun hc => (List.mem_cons.mp hc).elim (fun h => ha h.symm) hl⟩
        · rintro ⟨h, hl⟩
          obtain ⟨rfl, htail⟩ := List.cons.inj h
          rw [ih.mpr ⟨htail, fun hc => hl (List.mem_cons_of_mem _ hc)⟩]
          rfl

theorem splitOnce_eq_none {c : UInt8} {b : Bytes} : splitOnce c b = none ↔ c ∉ b := by
  rw [← not_iff_not, ← ne_eq, ← Option.isSome_iff_ne_none, not_not, Option.isSome_iff_exists]
  constructor
  · rintro ⟨⟨l, r⟩, h⟩
    rw [(splitOnce_eq_some.mp h).1]
    exact List.mem_append_right _ List.mem_cons_self
  · intro h
    obtain ⟨l, r, rfl, hl⟩ := List.eq_append_cons_of_mem h
    exact ⟨(l, r), splitOnce_eq_some.mpr ⟨rfl, hl⟩⟩

/-! ## Numbers -/

/-- The number that decimal digits write. -/
def number (b : Bytes) : ℕ := b.foldl (fun n c => 10 * n + (c.toNat - 48)) 0

theorem number_concat (b : Bytes) (c : UInt8) : number (b ++ [c]) = 10 * number b + (c.toNat - 48) := by
  unfold number
  rw [List.foldl_append]
  rfl

theorem isDecimal_iff {c : UInt8} : isDecimal c = true ↔ 48 ≤ c.toNat ∧ c.toNat ≤ 57 := by
  simp [isDecimal, UInt8.le_iff_toNat_le]

theorem byte_digitChar {d : ℕ} (h : d < 10) : byte (Nat.digitChar d) = UInt8.ofNat (48 + d) := by
  have : ∀ d : Fin 10, byte (Nat.digitChar d) = UInt8.ofNat (48 + d) := by decide
  exact this ⟨d, h⟩

theorem decimal_eq (n : ℕ) : decimal n = (Nat.toDigits 10 n).map byte := by
  unfold decimal ascii
  rw [Nat.toString_eq_repr, Nat.toList_repr]

theorem decimal_of_lt {d : ℕ} (h : d < 10) : decimal d = [UInt8.ofNat (48 + d)] := by
  rw [decimal_eq, Nat.toDigits_of_lt_base h, List.map_singleton, byte_digitChar h]

theorem decimal_step {n d : ℕ} (hn : 0 < n) (hd : d < 10) :
    decimal (10 * n + d) = decimal n ++ [UInt8.ofNat (48 + d)] := by
  rw [← decimal_of_lt hd, decimal_eq, decimal_eq, decimal_eq, ← List.map_append,
    Nat.toDigits_append_toDigits (by omega) hn hd]

/-- Digits that do not start with a zero are how their number is written. -/
theorem decimal_number {b : Bytes} (hne : b ≠ []) (hdigits : ∀ c ∈ b, isDecimal c = true)
    (hzero : b.head? ≠ some (byte '0')) : decimal (number b) = b ∧ 0 < number b := by
  induction b using List.reverseRecOn with
  | nil => exact absurd rfl hne
  | append_singleton b c ih =>
    obtain ⟨h48, h57⟩ := isDecimal_iff.mp (hdigits c (by simp))
    have hc : UInt8.ofNat (48 + (c.toNat - 48)) = c := by
      rw [Nat.add_sub_cancel' h48]
      exact UInt8.ofNat_toNat
    rw [number_concat]
    cases b with
    | nil =>
      change decimal (10 * 0 + (c.toNat - 48)) = [c] ∧ 0 < 10 * 0 + (c.toNat - 48)
      rw [Nat.mul_zero, Nat.zero_add, decimal_of_lt (by omega), hc]
      refine ⟨rfl, Nat.sub_pos_of_lt (lt_of_le_of_ne h48 fun h => hzero ?_)⟩
      change some c = some (byte '0')
      rw [← hc, ← h]
      rfl
    | cons a b =>
      obtain ⟨hb, hpos⟩ := ih (List.cons_ne_nil a b) (fun d hd => hdigits d (List.mem_append_left _ hd)) hzero
      rw [decimal_step hpos (by omega), hb, hc]
      exact ⟨rfl, by omega⟩

/-- A number above zero is written by digits, at most `k` below `10 ^ k`, that do not start with a zero. -/
theorem decimal_spec {n : ℕ} (hn : 0 < n) : (∀ c ∈ decimal n, isDecimal c = true) ∧ decimal n ≠ [] ∧
    (decimal n).head? ≠ some (byte '0') ∧ number (decimal n) = n ∧ ∀ k, n < 10 ^ k → (decimal n).length ≤ k := by
  induction n using Nat.strongRecOn with
  | ind n ih =>
    have hlast : (UInt8.ofNat (48 + n % 10)).toNat = 48 + n % 10 := by
      rw [UInt8.toNat_ofNat']
      omega
    have hdigit : isDecimal (UInt8.ofNat (48 + n % 10)) = true := by
      rw [isDecimal_iff, hlast]
      omega
    by_cases h10 : n < 10
    · rw [decimal_of_lt h10]
      rw [Nat.mod_eq_of_lt h10] at hlast hdigit
      refine ⟨by simpa using hdigit, by simp, fun h => ?_, ?_, fun k hk => ?_⟩
      · have := congrArg UInt8.toNat (Option.some.inj h)
        rw [hlast] at this
        change 48 + n = 48 at this
        omega
      · change 10 * 0 + ((UInt8.ofNat (48 + n)).toNat - 48) = n
        omega
      · cases k with
        | zero => omega
        | succ k => simp
    · have hpos : 0 < n / 10 := by omega
      obtain ⟨hall, hne, hhead, hnumber, hlen⟩ := ih (n / 10) (by omega) hpos
      have hn : decimal n = decimal (n / 10) ++ [UInt8.ofNat (48 + n % 10)] := by
        rw [← decimal_step hpos (by omega), Nat.div_add_mod]
      rw [hn]
      refine ⟨fun c hc => ?_, by simp, ?_, ?_, fun k hk => ?_⟩
      · rcases List.mem_append.mp hc with hc | hc
        · exact hall c hc
        · rw [List.mem_singleton.mp hc]
          exact hdigit
      · rwa [List.head?_append_of_ne_nil _ hne]
      · rw [number_concat, hnumber, hlast]
        omega
      · cases k with
        | zero => omega
        | succ k =>
          have := hlen k (by rw [pow_succ] at hk; omega)
          rw [List.length_append]
          exact Nat.succ_le_succ this

theorem decimal_digits (n : ℕ) :
    (∀ c ∈ decimal n, isDecimal c = true) ∧ decimal n ≠ [] ∧ number (decimal n) = n := by
  rcases Nat.eq_zero_or_pos n with rfl | hpos
  · rw [decimal_of_lt (by norm_num)]
    exact ⟨List.forall_mem_singleton.mpr (by decide), List.cons_ne_nil _ _, by decide⟩
  · obtain ⟨hall, hne, -, hnumber, -⟩ := decimal_spec hpos
    exact ⟨hall, hne, hnumber⟩

theorem decimal_length {n k : ℕ} (hk : 0 < k) (h : n < 10 ^ k) : (decimal n).length ≤ k := by
  rcases Nat.eq_zero_or_pos n with rfl | hpos
  · exact hk
  · exact (decimal_spec hpos).2.2.2.2 k h

/-! ## Sizes -/

/-- A size as an `int` of 32 bits. -/
def toInt (n : ℕ) : ℤ := (n + 2 ^ 31) % 2 ^ 32 - 2 ^ 31

theorem toInt_of_lt {n : ℕ} (h : n < 2 ^ 31) : toInt n = n := by
  unfold toInt
  omega

theorem toInt_le (n : ℕ) : toInt n ≤ n := by
  unfold toInt
  omega

end Bytes
