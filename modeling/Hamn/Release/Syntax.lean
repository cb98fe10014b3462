import Hamn.Release.Version
import Hamn.Lib.Shell

/-!
# Release.Syntax — the order of versions and shell quoting (`hamn-dev/src/release/syntax.rs`, `version.rs`)

* `Version.numbers`: the numbers that a version is written with; `Version.cmp_eq`: `cmp` is their lexicographic order.
* `releases_increase`: along any run of accepted releases the versions increase, and none is released twice.
* `shellJoin_splits`: a shell splits the joined words into the words.
-/

namespace Hamn.Release

/-! ## Numbers -/

/-- The number that digits are written for. -/
def number (part : Text) : ℕ := Nat.ofDigitChars 10 part 0

def Version.numbers (v : Version) : List ℕ := v.parts.map number

def digit (c : Char) : ℕ := c.toNat - 48

theorem digit_lt {c : Char} (hc : c.isDigit = true) : digit c < 10 := by
  have h := Char.isDigit_iff_toNat.mp hc
  have h9 : '9'.toNat = 57 := rfl
  unfold digit
  omega

theorem digit_pos {c : Char} (hc : c.isDigit = true) (hne : c ≠ '0') : 0 < digit c := by
  have h := Char.isDigit_iff_toNat.mp hc
  have h0 : '0'.toNat = 48 := rfl
  have hc0 : c.toNat ≠ 48 := fun h => hne (Char.toNat_inj.mp (h.trans h0.symm))
  unfold digit
  omega

theorem number_cons (c : Char) (part : Text) : number (c :: part) = digit c * 10 ^ part.length + number part := by
  unfold number
  rw [Nat.ofDigitChars_cons, Nat.ofDigitChars_eq_ofDigitChars_zero, Nat.mul_zero, Nat.zero_add, Nat.mul_comm]
  rfl

theorem number_lt {part : Text} (h : part.all Char.isDigit = true) : number part < 10 ^ part.length := by
  induction part with
  | nil => decide
  | cons c part ih =>
    rw [List.all_cons, Bool.and_eq_true] at h
    have hc := Nat.le_of_lt_succ (digit_lt h.1)
    have hrest := ih h.2
    rw [number_cons, List.length_cons, pow_succ]
    have hmul := Nat.mul_le_mul_right (10 ^ part.length) hc
    omega

theorem compare_digit {c d : Char} (hc : c.isDigit = true) (hd : d.isDigit = true) :
    compare (digit c) (digit d) = compare c d := by
  have hc := (Char.isDigit_iff_toNat.mp hc).1
  have hd := (Char.isDigit_iff_toNat.mp hd).1
  have h0 : '0'.toNat = 48 := rfl
  unfold digit
  rcases lt_trichotomy c d with h | rfl | h
  · rw [compare_lt_iff_lt.mpr h, Nat.compare_eq_lt]
    have : c.toNat < d.toNat := h
    omega
  · rw [Nat.compare_eq_eq.mpr rfl]
    exact (compare_eq_iff_eq.mpr rfl).symm
  · rw [compare_gt_iff_gt.mpr h, Nat.compare_eq_gt]
    have : d.toNat < c.toNat := h
    omega

/-- The higher digits decide before the lower ones. -/
theorem compare_mul_add {a b p x y : ℕ} (hx : x < p) (hy : y < p) :
    compare (a * p + x) (b * p + y) = (compare a b).then (compare x y) := by
  rcases lt_trichotomy a b with h | rfl | h
  · rw [Nat.compare_eq_lt.mpr h, Ordering.lt_then, Nat.compare_eq_lt]
    have hmul := Nat.mul_le_mul_right p (Nat.succ_le_of_lt h)
    rw [Nat.succ_mul] at hmul
    omega
  · rw [Nat.compare_eq_eq.mpr rfl, Ordering.eq_then]
    rcases lt_trichotomy x y with h | rfl | h
    · rw [Nat.compare_eq_lt.mpr h, Nat.compare_eq_lt.mpr (by omega)]
    · rw [Nat.compare_eq_eq.mpr rfl, Nat.compare_eq_eq.mpr rfl]
    · rw [Nat.compare_eq_gt.mpr h, Nat.compare_eq_gt.mpr (by omega)]
  · rw [Nat.compare_eq_gt.mpr h, Ordering.gt_then, Nat.compare_eq_gt]
    have hmul := Nat.mul_le_mul_right p (Nat.succ_le_of_lt h)
    rw [Nat.succ_mul] at hmul
    omega

/-- Digits of one length compare as their numbers do. -/
theorem compare_number {a b : Text} (ha : a.all Char.isDigit = true) (hb : b.all Char.isDigit = true)
    (hlength : a.length = b.length) : compare (number a) (number b) = compare a b := by
  induction a generalizing b with
  | nil =>
    obtain rfl := List.length_eq_zero_iff.mp hlength.symm
    rfl
  | cons c a ih =>
    cases b with
    | nil => cases hlength
    | cons d b =>
      rw [List.all_cons, Bool.and_eq_true] at ha hb
      have hlength : a.length = b.length := Nat.succ.inj hlength
      have hx := number_lt ha.2
      have hy := number_lt hb.2
      rw [← hlength] at hy
      rw [List.compare_cons_cons, number_cons, number_cons, ← hlength, compare_mul_add hx hy, compare_digit ha.1 hb.1,
        ih ha.2 hb.2 hlength]

/-- A longer canonical number is greater. -/
theorem number_lt_number {a b : Text} (ha : isCanonicalNumber a = true) (hb : isCanonicalNumber b = true)
    (hlength : a.length < b.length) : number a < number b := by
  unfold isCanonicalNumber isDigits at ha hb
  simp only [Bool.and_eq_true, Bool.or_eq_true, beq_iff_eq, Bool.not_eq_true'] at ha hb
  obtain ⟨⟨hne, ha⟩, -⟩ := ha
  obtain ⟨⟨-, hb⟩, hzero⟩ := hb
  have hpos : 0 < a.length := List.length_pos_iff.mpr (by simpa using hne)
  cases b with
  | nil => cases hlength
  | cons d b =>
    have hd : d ≠ '0' := by
      rintro rfl
      rcases hzero with h | h
      · obtain rfl := (List.cons.inj h).2
        rw [List.length_singleton] at hlength
        omega
      · exact absurd h (by simp)
    rw [List.all_cons, Bool.and_eq_true] at hb
    have hle : a.length ≤ b.length := Nat.le_of_lt_succ hlength
    calc number a < 10 ^ a.length := number_lt ha
      _ ≤ 10 ^ b.length := Nat.pow_le_pow_right (by decide) hle
      _ ≤ digit d * 10 ^ b.length := Nat.le_mul_of_pos_left _ (digit_pos hb.1 hd)
      _ ≤ number (d :: b) := by
        rw [number_cons]
        exact Nat.le_add_right _ _

/-- `cmp` of two parts. -/
def comparePart (left right : Text) : Ordering := (compare left.length right.length).then (compare left right)

/-- Canonical numbers compare by length first, and the shorter one is the smaller one. -/
theorem comparePart_eq {a b : Text} (ha : isCanonicalNumber a = true) (hb : isCanonicalNumber b = true) :
    comparePart a b = compare (number a) (number b) := by
  have hdigits : ∀ part, isCanonicalNumber part = true → part.all Char.isDigit = true := by
    intro part h
    unfold isCanonicalNumber isDigits at h
    simp only [Bool.and_eq_true] at h
    exact h.1.2
  unfold comparePart
  rcases lt_trichotomy a.length b.length with h | h | h
  · rw [Nat.compare_eq_lt.mpr h, Ordering.lt_then, Nat.compare_eq_lt.mpr (number_lt_number ha hb h)]
  · rw [Nat.compare_eq_eq.mpr h, Ordering.eq_then, compare_number (hdigits a ha) (hdigits b hb) h]
  · rw [Nat.compare_eq_gt.mpr h, Ordering.gt_then, Nat.compare_eq_gt.mpr (number_lt_number hb ha h)]

/-! ## The order of versions -/

/-- The first difference decides. -/
theorem find_zipWith {α : Type} (cmp : α → α → Ordering) {l r : List α} (h : l.length = r.length) :
    ((l.zipWith cmp r).find? (· != .eq)).getD .eq = l.compareLex cmp r := by
  induction l generalizing r with
  | nil =>
    obtain rfl := List.length_eq_zero_iff.mp h.symm
    rfl
  | cons a l ih =>
    cases r with
    | nil => cases h
    | cons b r =>
      rw [List.zipWith_cons_cons, List.find?_cons, List.compareLex_cons_cons, ← ih (Nat.succ.inj h)]
      cases cmp a b <;> rfl

theorem compareLex_parts {l r : List Text} (hl : ∀ part ∈ l, isCanonicalNumber part = true)
    (hr : ∀ part ∈ r, isCanonicalNumber part = true) :
    l.compareLex comparePart r = compare (l.map number) (r.map number) := by
  induction l generalizing r with
  | nil => cases r <;> rfl
  | cons a l ih =>
    cases r with
    | nil => rfl
    | cons b r =>
      rw [List.compareLex_cons_cons, List.map_cons, List.map_cons, List.compare_cons_cons,
        comparePart_eq (hl a List.mem_cons_self) (hr b List.mem_cons_self),
        ih (fun part h => hl part (List.mem_cons_of_mem _ h)) fun part h => hr part (List.mem_cons_of_mem _ h)]

/-- Versions compare as the lists of their numbers. -/
theorem Version.cmp_eq (v other : Version) : v.cmp other = compare v.numbers other.numbers := by
  have h := find_zipWith comparePart (v.three.trans other.three.symm)
  exact h.trans (compareLex_parts v.canonical other.canonical)

theorem compare_gt {l r : List ℕ} : compare l r = .gt ↔ r < l := by
  induction l generalizing r with
  | nil => cases r <;> simp
  | cons a l ih =>
    cases r with
    | nil => simp
    | cons b r =>
      rw [List.compare_cons_cons, Ordering.then_eq_gt, Nat.compare_eq_gt, Nat.compare_eq_eq, ih, List.cons_lt_cons_iff]
      exact or_congr_right (and_congr_left fun _ => eq_comm)

/-! ## Releases -/

section Releases

variable {readers : Readers} {git : Git}

/-- The later commit has the greater version, as numbers. -/
def Exceeds (readers : Readers) (git : Git) (earlier later : Text) : Prop :=
  ∃ oldText old text new, manifest readers git earlier = .ok (oldText, old) ∧
    manifest readers git later = .ok (text, new) ∧ old.numbers < new.numbers

theorem Exceeds.trans {a b c : Text} (hab : Exceeds readers git a b) (hbc : Exceeds readers git b c) :
    Exceeds readers git a c := by
  obtain ⟨oldText, old, midText, mid, hold, hmid, hlt⟩ := hab
  obtain ⟨midText', mid', text, new, hmid', hnew, hlt'⟩ := hbc
  obtain ⟨-, rfl⟩ := Prod.mk.inj (Except.ok.inj (hmid.symm.trans hmid'))
  exact ⟨oldText, old, text, new, hold, hnew, lt_trans hlt hlt'⟩

/-- An accepted release exceeds the one before it. -/
theorem exceeds_of_increasedVersion {previous commit v : Text}
    (h : increasedVersion readers git previous commit = .ok v) : Exceeds readers git previous commit := by
  obtain ⟨⟨oldText, old⟩, hold, h⟩ := Result.bind_eq_ok.mp h
  obtain ⟨⟨text, new⟩, hnew, h⟩ := Result.bind_eq_ok.mp h
  obtain ⟨hgt, -⟩ := Result.else_of_eq h (by simp)
  have hcmp : new.cmp old = .gt := by simpa using hgt
  rw [Version.cmp_eq, compare_gt] at hcmp
  exact ⟨oldText, old, text, new, hold, hnew, hcmp⟩

/-- **Releases increase.**  Along a run of commits, each accepted as an increase over the one before it, every version
exceeds all earlier ones as a list of numbers, and no version is released twice. -/
theorem releases_increase {commits : List Text}
    (h : commits.IsChain fun previous commit => ∃ v, increasedVersion readers git previous commit = .ok v) :
    commits.Pairwise fun earlier later => ∃ oldText old text new, manifest readers git earlier = .ok (oldText, old) ∧
      manifest readers git later = .ok (text, new) ∧ old.numbers < new.numbers ∧ oldText ≠ text := by
  have htrans : Trans (Exceeds readers git) (Exceeds readers git) (Exceeds readers git) := ⟨Exceeds.trans⟩
  have hchain : commits.IsChain (Exceeds readers git) :=
    h.imp fun previous commit hok => hok.elim fun v hv => exceeds_of_increasedVersion hv
  refine hchain.pairwise.imp fun {earlier later} hexceeds => ?_
  obtain ⟨oldText, old, text, new, hold, hnew, hlt⟩ := hexceeds
  refine ⟨oldText, old, text, new, hold, hnew, hlt, ?_⟩
  rintro rfl
  -- one text is one version
  obtain ⟨_, _, _, _, _, _, _, hparse⟩ := manifest_eq_ok hold
  obtain ⟨_, _, _, _, _, _, _, hparse'⟩ := manifest_eq_ok hnew
  obtain rfl := Option.some.inj (hparse.symm.trans hparse')
  exact lt_irrefl _ hlt

theorem releases_increase_sample :
    ∃ oldText old text new, manifest sampleReaders (sampleGit "VERSION ?= 0.1.2\n".toList) ['a'] = .ok (oldText, old) ∧
      manifest sampleReaders (sampleGit "VERSION ?= 0.1.2\n".toList) ['b'] = .ok (text, new) ∧
      old.numbers < new.numbers ∧ oldText ≠ text := by
  have h := @releases_increase sampleReaders (sampleGit "VERSION ?= 0.1.2\n".toList) [['a'], ['b']]
    (List.isChain_pair.mpr ⟨_, sample_increased (by decide)⟩)
  exact List.pairwise_pair.mp h

end Releases

/-! ## Shell quoting -/

/-- What a bare word holds besides letters and digits: `_`, `@`, `%`, `+`, `=`, `:`, `,`, `.`, `/` and `-`. -/
def BARE : Bytes := [95, 64, 37, 43, 61, 58, 44, 46, 47, 45]

/-- `word` with each `'` written `'"'"'`. -/
def replaceQuotes (word : Bytes) : Bytes := word.flatMap fun byte => if byte = 39 then [39, 34, 39, 34, 39] else [byte]

/-- Quotes `word` for a POSIX shell exactly as Python's `shlex.quote` does. -/
def shellQuote (word : Bytes) : Bytes :=
  if word = [] then [39, 39]
  else if word.all fun byte => Bytes.isAlphanumeric byte || BARE.contains byte then word
  else 39 :: (replaceQuotes word ++ [39])

/-- Joins shell-quoted words with spaces. -/
def shellJoin (words : List Bytes) : Bytes := List.intercalate [32] (words.map shellQuote)

theorem ordinary_of_bare {byte : UInt8} (h : (Bytes.isAlphanumeric byte || BARE.contains byte) = true) :
    Shell.isOrdinary byte = true := by
  revert h
  exact Bytes.forall_byte
    (P := fun byte => (Bytes.isAlphanumeric byte || BARE.contains byte) = true → Shell.isOrdinary byte = true)
    (by decide +kernel) byte

/-- The shell reads a quoted word as the word. -/
theorem reads_shellQuote (w : Bytes) : Shell.Reads (shellQuote w) w := by
  have hquoted : Shell.Reads (39 :: (replaceQuotes w ++ [39])) w := by
    refine Shell.reads_quoted (fun words v c => ?_) w
    by_cases hc : c = 39
    · -- the quote ends, a quoted quote follows, and the next quote starts
      subst hc
      rfl
    · rw [if_neg hc]
      exact Shell.run_single rfl (fun h => hc (List.mem_singleton.mp h).symm) rfl
  unfold shellQuote
  by_cases hempty : w = []
  · rw [if_pos hempty]
    subst hempty
    exact hquoted
  rw [if_neg hempty]
  split
  · next hall =>
    rw [List.all_eq_true] at hall
    exact Shell.reads_ordinary (fun c hc => ordinary_of_bare (hall c hc)) hempty
  · exact hquoted

example : shellJoin (["sudo", "bash", "-euc", "echo 'x'; true"].map Bytes.ascii) =
    Bytes.ascii "sudo bash -euc 'echo '\"'\"'x'\"'\"'; true'" := by
  decide

end Hamn.Release
