import Mathlib

/-!
# Regex — greedy matching with backtracking, line by line anchors

The expressions are sequences of anchors, characters and runs of a class, of which at most one is captured.

* `attempt`: a match at one place; `longest`: how a greedy run gives back what it took.
* `find`, `findall`: leftmost matches that do not overlap; `find_eq`: one turn of the search.
* `attempt_literal`, `attempt_run`, `attempt_group`, `attempt_run_lineEnd`: the rules of the items.
-/

namespace Regex

/-! ## Matching -/

inductive Item where
  /-- `^` at the start of the text and behind every newline. -/
  | lineStart
  /-- `$` at the end of the text and before every newline. -/
  | lineEnd
  | char (c : Char)
  | run (p : Char → Bool) (least : ℕ)
  /-- A run that is captured. -/
  | group (p : Char → Bool) (least : ℕ)

abbrev Pattern := List Item

def literal (word : List Char) : Pattern := word.map .char

/-- Whether a line starts behind what was consumed. -/
def startAfter (start : Bool) (consumed : List Char) : Bool := (consumed.getLast?.map (· == '\n')).getD start

/-- The first success, from `n` down to `least`. -/
def longest {β : Type} (f : ℕ → Option β) (least : ℕ) : ℕ → Option β
  | 0 => if least = 0 then f 0 else none
  | n + 1 => if n + 1 < least then none else (f (n + 1)).or (longest f least n)

structure Match where
  group : List Char
  /-- A line starts behind the match. -/
  start : Bool
  rest : List Char

def Match.capture (front : List Char) (m : Match) : Match := { m with group := front ++ m.group }

def attempt : Pattern → Bool → List Char → Option Match
  | [], start, text => some ⟨[], start, text⟩
  | .lineStart :: r, start, text => if start then attempt r start text else none
  | .lineEnd :: r, start, text => if text = [] ∨ text.head? = some '\n' then attempt r start text else none
  | .char c :: r, _, text => if text.head? = some c then attempt r (c == '\n') text.tail else none
  | .run p least :: r, start, text =>
    longest (fun n => attempt r (startAfter start (text.take n)) (text.drop n)) least (text.takeWhile p).length
  | .group p least :: r, start, text =>
    longest (fun n => (attempt r (startAfter start (text.take n)) (text.drop n)).map (.capture (text.take n))) least
      (text.takeWhile p).length

/-- The captured texts; a turn consumes a character at least. -/
def findFrom (r : Pattern) : ℕ → Bool → List Char → List (List Char)
  | 0, _, _ => []
  | fuel + 1, start, text =>
    match attempt r start text, text with
    | some m, _ => m.group :: findFrom r fuel m.start m.rest
    | none, [] => []
    | none, c :: text => findFrom r fuel (c == '\n') text

/-- The search from a place on. -/
def find (r : Pattern) (start : Bool) (text : List Char) : List (List Char) := findFrom r (text.length + 1) start text

def findall (r : Pattern) (text : List Char) : List (List Char) := find r true text

/-! ## Runs -/

theorem longest_eq_some {β : Type} {f : ℕ → Option β} {least n : ℕ} {x : β} (h : longest f least n = some x) :
    ∃ k ≤ n, least ≤ k ∧ f k = some x := by
  induction n with
  | zero =>
    unfold longest at h
    split_ifs at h with hleast
    exact ⟨0, le_rfl, hleast.le, h⟩
  | succ n ih =>
    unfold longest at h
    split_ifs at h with hleast
    cases hf : f (n + 1) with
    | some y =>
      rw [hf, Option.some_or] at h
      exact ⟨n + 1, le_rfl, Nat.le_of_not_lt hleast, hf.trans h⟩
    | none =>
      rw [hf, Option.none_or] at h
      obtain ⟨k, hk, hleast', hfk⟩ := ih h
      exact ⟨k, Nat.le_succ_of_le hk, hleast', hfk⟩

theorem longest_none {β : Type} {f : ℕ → Option β} {least n : ℕ} (h : ∀ k ≤ n, f k = none) :
    longest f least n = none := by
  cases hl : longest f least n with
  | none => rfl
  | some x =>
    obtain ⟨k, hk, -, hfk⟩ := longest_eq_some hl
    rw [h k hk] at hfk
    cases hfk

/-- Nothing is given back where what follows does not match. -/
theorem longest_greedy {β : Type} {f : ℕ → Option β} {least n : ℕ} (h : ∀ k < n, f k = none) :
    longest f least n = if n < least then none else f n := by
  cases n with
  | zero =>
    unfold longest
    by_cases hleast : least = 0
    · subst hleast
      rfl
    · rw [if_neg hleast, if_pos (Nat.pos_of_ne_zero hleast)]
  | succ n =>
    unfold longest
    split_ifs with hleast
    · rfl
    · rw [longest_none fun k hk => h k (Nat.lt_succ_of_le hk), Option.or_none]

theorem take_takeWhile (p : Char → Bool) (text : List Char) :
    text.take (text.takeWhile p).length = text.takeWhile p := by
  conv_lhs => arg 2; rw [← List.takeWhile_append_dropWhile (p := p) (l := text)]
  exact List.take_left' rfl

theorem drop_takeWhile (p : Char → Bool) (text : List Char) :
    text.drop (text.takeWhile p).length = text.dropWhile p := by
  conv_lhs => arg 2; rw [← List.takeWhile_append_dropWhile (p := p) (l := text)]
  exact List.drop_left' rfl

/-- A shorter part of a run stops before a member of the class. -/
theorem drop_of_lt_takeWhile {p : Char → Bool} {text : List Char} {k : ℕ} (h : k < (text.takeWhile p).length) :
    ∃ c rest, text.drop k = c :: rest ∧ p c = true := by
  have hk : k < text.length := h.trans_le (List.takeWhile_prefix p).length_le
  refine ⟨text[k], text.drop (k + 1), List.drop_eq_getElem_cons hk, ?_⟩
  have hmem : (text.takeWhile p)[k] ∈ text.takeWhile p := List.getElem_mem h
  have heq : (text.takeWhile p)[k] = text[k] := (List.takeWhile_prefix p).getElem h
  rw [← heq]
  exact List.mem_takeWhile_imp hmem

/-! ## The items -/

/-- A match does not start at a character of the class. -/
def Refuses (r : Pattern) (p : Char → Bool) : Prop :=
  ∀ start c text, p c = true → attempt r start (c :: text) = none

theorem refuses_char {p : Char → Bool} {c : Char} {r : Pattern} (h : p c = false) : Refuses (.char c :: r) p := by
  intro start d text hd
  have hne : d ≠ c := by
    rintro rfl
    rw [h] at hd
    cases hd
  unfold attempt
  rw [if_neg]
  simpa using hne

theorem refuses_group {p q : Char → Bool} {least : ℕ} {r : Pattern} (h : ∀ c, p c = true → q c = false)
    (hleast : 0 < least) : Refuses (.group q least :: r) p := by
  intro start c text hc
  unfold attempt
  rw [List.takeWhile_cons_of_neg (by rw [h c hc]; exact Bool.false_ne_true)]
  unfold longest
  exact if_neg hleast.ne'

theorem refuses_run {p q : Char → Bool} {r : Pattern} (h : ∀ c, p c = true → q c = false) (hr : Refuses r p) :
    Refuses (.run q 0 :: r) p := by
  intro start c text hc
  unfold attempt
  rw [List.takeWhile_cons_of_neg (by rw [h c hc]; exact Bool.false_ne_true)]
  unfold longest
  rw [if_pos rfl]
  exact hr _ c text hc

theorem refuses_lineEnd {p : Char → Bool} {r : Pattern} (h : p '\n' = false) : Refuses (.lineEnd :: r) p := by
  intro start c text hc
  have hne : c ≠ '\n' := by
    rintro rfl
    rw [h] at hc
    cases hc
  unfold attempt
  rw [if_neg]
  simpa using hne

theorem startAfter_cons (start : Bool) (c : Char) (w : List Char) :
    startAfter start (c :: w) = startAfter (c == '\n') w := by
  unfold startAfter
  rw [List.getLast?_cons]
  cases w.getLast? <;> rfl

theorem startAfter_append (start : Bool) (v w : List Char) :
    startAfter start (v ++ w) = startAfter (startAfter start v) w := by
  induction v generalizing start with
  | nil => rfl
  | cons c v ih => rw [List.cons_append, startAfter_cons, startAfter_cons, ih]

theorem attempt_char (c : Char) (r : Pattern) (start : Bool) (text : List Char) :
    attempt (.char c :: r) start text =
      if text.head? = some c then attempt r (c == '\n') text.tail else none := rfl

theorem attempt_lineEnd (r : Pattern) (start : Bool) (text : List Char) :
    attempt (.lineEnd :: r) start text =
      if text = [] ∨ text.head? = some '\n' then attempt r start text else none := rfl

theorem attempt_literal (w : List Char) (r : Pattern) (start : Bool) (text : List Char) :
    attempt (literal w ++ r) start text =
      if w <+: text then attempt r (startAfter start w) (text.drop w.length) else none := by
  induction w generalizing start text with
  | nil => simp [literal, startAfter]
  | cons c w ih =>
    show attempt (.char c :: (literal w ++ r)) start text = _
    rw [attempt_char, startAfter_cons, List.length_cons]
    cases text with
    | nil => simp
    | cons d text =>
      rw [List.head?_cons, List.tail_cons, ih, List.drop_succ_cons]
      simp only [List.cons_prefix_cons, Option.some.injEq]
      by_cases hd : d = c
      · simp [hd]
      · rw [if_neg hd, if_neg fun h => hd h.1.symm]

/-- A run before what refuses its class takes all it can. -/
theorem attempt_run {p : Char → Bool} {least : ℕ} {r : Pattern} (hr : Refuses r p) (start : Bool) (text : List Char) :
    attempt (.run p least :: r) start text =
      if (text.takeWhile p).length < least then none
      else attempt r (startAfter start (text.takeWhile p)) (text.dropWhile p) := by
  have hrefuse : ∀ k < (text.takeWhile p).length,
      attempt r (startAfter start (text.take k)) (text.drop k) = none := by
    intro k hk
    obtain ⟨c, rest, hdrop, hc⟩ := drop_of_lt_takeWhile hk
    rw [hdrop]
    exact hr _ c rest hc
  conv_lhs => unfold attempt
  rw [longest_greedy hrefuse, take_takeWhile, drop_takeWhile]

theorem attempt_group {p : Char → Bool} {least : ℕ} {r : Pattern} (hr : Refuses r p) (start : Bool)
    (text : List Char) :
    attempt (.group p least :: r) start text =
      if (text.takeWhile p).length < least then none
      else (attempt r (startAfter start (text.takeWhile p)) (text.dropWhile p)).map (.capture (text.takeWhile p)) := by
  have hrefuse : ∀ k < (text.takeWhile p).length,
      (attempt r (startAfter start (text.take k)) (text.drop k)).map (Match.capture (text.take k)) = none := by
    intro k hk
    obtain ⟨c, rest, hdrop, hc⟩ := drop_of_lt_takeWhile hk
    rw [hdrop, hr _ c rest hc]
    rfl
  conv_lhs => unfold attempt
  rw [longest_greedy hrefuse, take_takeWhile, drop_takeWhile]

/-! ## A run of spaces and the end of a line -/

theorem longest_skip {β : Type} {f : ℕ → Option β} {m n : ℕ} (hmn : m ≤ n)
    (h : ∀ k, m < k → k ≤ n → f k = none) : longest f 0 n = longest f 0 m := by
  induction n, hmn using Nat.le_induction with
  | base => rfl
  | succ n hmn ih =>
    conv_lhs => unfold longest
    rw [if_neg (Nat.not_lt_zero _), h (n + 1) (Nat.lt_succ_of_le hmn) le_rfl, Option.none_or]
    exact ih fun k hk hkn => h k hk (Nat.le_succ_of_le hkn)

theorem longest_eq_of_some {β : Type} {f : ℕ → Option β} {n : ℕ} {x : β} (h : f n = some x) :
    longest f 0 n = some x := by
  cases n with
  | zero => exact h
  | succ n =>
    unfold longest
    rw [if_neg (Nat.not_lt_zero _), h, Option.some_or]

section SpacesToLineEnd

variable {p : Char → Bool} {start : Bool} {text : List Char}

theorem attempt_lineEnd_last (start : Bool) {text : List Char} (h : text = [] ∨ text.head? = some '\n') :
    attempt [.lineEnd] start text = some ⟨[], start, text⟩ := if_pos h

theorem attempt_lineEnd_cons (start : Bool) {c : Char} (text : List Char) (h : c ≠ '\n') :
    attempt [.lineEnd] start (c :: text) = none := by
  rw [attempt_lineEnd, if_neg]
  simpa using h

/-- A run up to the end of the text is kept whole. -/
theorem attempt_run_end (h : text.dropWhile p = []) :
    attempt [.run p 0, .lineEnd] start text = some ⟨[], startAfter start text, []⟩ := by
  have htake : text.takeWhile p = text := by
    have happend := List.takeWhile_append_dropWhile (p := p) (l := text)
    rwa [h, List.append_nil] at happend
  conv_lhs => unfold attempt
  rw [htake]
  apply longest_eq_of_some
  rw [List.take_length, List.drop_length]
  exact attempt_lineEnd_last _ (.inl rfl)

/-- Behind a run's part the run or the first character outside the class goes on. -/
theorem drop_run (hp : p '\n' = true) (h : text.dropWhile p ≠ []) {k : ℕ} (hk : k ≤ (text.takeWhile p).length)
    (hnl : '\n' ∉ (text.takeWhile p).drop k) : attempt [.lineEnd] start (text.drop k) = none := by
  obtain ⟨d, rest, hrest⟩ := List.exists_cons_of_ne_nil h
  have hd : p d = false := by
    have hhead := List.head_dropWhile_not p h
    simpa [hrest] using hhead
  have hdrop : text.drop k = (text.takeWhile p).drop k ++ d :: rest := by
    conv_lhs => arg 2; rw [← List.takeWhile_append_dropWhile (p := p) (l := text), hrest]
    exact List.drop_append_of_le_length hk
  rw [hdrop]
  cases hrun : (text.takeWhile p).drop k with
  | nil =>
    apply attempt_lineEnd_cons
    rintro rfl
    rw [hp] at hd
    cases hd
  | cons c run =>
    rw [hrun] at hnl
    exact attempt_lineEnd_cons _ _ fun hc => hnl (hc ▸ List.mem_cons_self)

/-- Elsewhere the run is given back up to its last newline. -/
theorem attempt_run_newline (hp : p '\n' = true) (h : text.dropWhile p ≠ []) {front back : List Char}
    (hrun : text.takeWhile p = front ++ '\n' :: back) (hback : '\n' ∉ back) :
    attempt [.run p 0, .lineEnd] start text =
      some ⟨[], startAfter start front, '\n' :: back ++ text.dropWhile p⟩ := by
  have hlength : (text.takeWhile p).length = front.length + (back.length + 1) := by
    rw [hrun, List.length_append, List.length_cons]
  have htext : text = front ++ ('\n' :: back ++ text.dropWhile p) := by
    rw [← List.append_assoc, ← hrun, List.takeWhile_append_dropWhile]
  conv_lhs => unfold attempt
  rw [longest_skip (m := front.length) (by omega)]
  · apply longest_eq_of_some
    conv_lhs => rw [htext]
    rw [List.take_left' rfl, List.drop_left' rfl]
    exact attempt_lineEnd_last _ (.inr rfl)
  · intro k hfront hk
    apply drop_run hp h hk
    obtain ⟨j, rfl⟩ := Nat.exists_eq_add_of_lt hfront
    rw [hrun, Nat.add_assoc, List.drop_append, List.drop_eq_nil_of_le (Nat.le_add_right _ _), List.nil_append,
      Nat.add_sub_cancel_left, List.drop_succ_cons]
    exact fun hmem => hback (List.mem_of_mem_drop hmem)

theorem attempt_run_none (hp : p '\n' = true) (h : text.dropWhile p ≠ []) (hrun : '\n' ∉ text.takeWhile p) :
    attempt [.run p 0, .lineEnd] start text = none := by
  conv_lhs => unfold attempt
  apply longest_none
  intro k hk
  exact drop_run hp h hk fun hmem => hrun (List.mem_of_mem_drop hmem)

end SpacesToLineEnd

/-! ## What a match consists of -/

/-- A match is behind what it consumed. -/
theorem attempt_split {r : Pattern} {start : Bool} {text : List Char} {m : Match} (h : attempt r start text = some m) :
    ∃ consumed, text = consumed ++ m.rest ∧ m.start = startAfter start consumed := by
  induction r generalizing start text m with
  | nil =>
    obtain rfl : _ = m := Option.some.inj h
    exact ⟨[], rfl, rfl⟩
  | cons i r ih =>
    cases i with
    | lineStart =>
      unfold attempt at h
      split_ifs at h
      exact ih h
    | lineEnd =>
      unfold attempt at h
      split_ifs at h
      exact ih h
    | char c =>
      unfold attempt at h
      split_ifs at h with hc
      obtain ⟨text, rfl⟩ := List.head?_eq_some_iff.mp hc
      obtain ⟨consumed, htext, hstart⟩ := ih h
      refine ⟨c :: consumed, ?_, ?_⟩
      · rw [List.cons_append, ← htext, List.tail_cons]
      · rw [hstart, startAfter_cons]
    | run p least =>
      unfold attempt at h
      obtain ⟨k, -, -, hk⟩ := longest_eq_some h
      obtain ⟨consumed, htext, hstart⟩ := ih hk
      refine ⟨text.take k ++ consumed, ?_, ?_⟩
      · rw [List.append_assoc, ← htext, List.take_append_drop]
      · rw [hstart, startAfter_append]
    | group p least =>
      unfold attempt at h
      obtain ⟨k, -, -, hk⟩ := longest_eq_some h
      obtain ⟨m', hm', rfl⟩ := Option.map_eq_some_iff.mp hk
      obtain ⟨consumed, htext, hstart⟩ := ih hm'
      refine ⟨text.take k ++ consumed, ?_, ?_⟩
      · show text = text.take k ++ consumed ++ m'.rest
        rw [List.append_assoc, ← htext, List.take_append_drop]
      · show m'.start = startAfter start (text.take k ++ consumed)
        rw [hstart, startAfter_append]

theorem group_nil {p : Char → Bool} {least : ℕ} {start : Bool} {text : List Char} {m : Match}
    (h : attempt [.run p least, .lineEnd] start text = some m) : m.group = [] := by
  unfold attempt at h
  obtain ⟨k, -, -, hk⟩ := longest_eq_some h
  rw [attempt_lineEnd] at hk
  split_ifs at hk
  rw [← Option.some.inj hk]

/-! ## The search -/

def Item.isChar : Item → Bool
  | .char _ => true
  | _ => false

theorem attempt_length {r : Pattern} {start : Bool} {text : List Char} {m : Match}
    (h : attempt r start text = some m) : m.rest.length + r.countP Item.isChar ≤ text.length := by
  induction r generalizing start text m with
  | nil =>
    obtain rfl : _ = m := Option.some.inj h
    exact le_rfl
  | cons i r ih =>
    cases i with
    | lineStart =>
      unfold attempt at h
      split_ifs at h
      exact ih h
    | lineEnd =>
      unfold attempt at h
      split_ifs at h
      exact ih h
    | char c =>
      unfold attempt at h
      split_ifs at h with hc
      obtain ⟨text, rfl⟩ := List.head?_eq_some_iff.mp hc
      rw [List.countP_cons_of_pos rfl, List.length_cons]
      exact Nat.succ_le_succ (ih h)
    | run p least =>
      unfold attempt at h
      obtain ⟨k, -, -, hk⟩ := longest_eq_some h
      refine (ih hk).trans ?_
      rw [List.length_drop]
      exact Nat.sub_le _ _
    | group p least =>
      unfold attempt at h
      obtain ⟨k, -, -, hk⟩ := longest_eq_some h
      obtain ⟨m', hm', rfl⟩ := Option.map_eq_some_iff.mp hk
      have hrest : m'.rest.length + r.countP Item.isChar ≤ (text.drop k).length := ih hm'
      refine hrest.trans ?_
      rw [List.length_drop]
      exact Nat.sub_le _ _

/-- An expression with a character in it. -/
def Consumes (r : Pattern) : Prop := 0 < r.countP Item.isChar

variable {r : Pattern} {start : Bool} {text : List Char}

theorem rest_lt (hr : Consumes r) {m : Match} (h : attempt r start text = some m) : m.rest.length < text.length :=
  Nat.lt_of_lt_of_le (Nat.lt_add_of_pos_right hr) (attempt_length h)

theorem findFrom_some {fuel : ℕ} {m : Match} (h : attempt r start text = some m) :
    findFrom r (fuel + 1) start text = m.group :: findFrom r fuel m.start m.rest := by
  conv_lhs => unfold findFrom
  rw [h]

theorem findFrom_nil {fuel : ℕ} (h : attempt r start [] = none) : findFrom r (fuel + 1) start [] = [] := by
  unfold findFrom
  rw [h]

theorem findFrom_cons {fuel : ℕ} {c : Char} (h : attempt r start (c :: text) = none) :
    findFrom r (fuel + 1) start (c :: text) = findFrom r fuel (c == '\n') text := by
  conv_lhs => unfold findFrom
  rw [h]

/-- The fuel does not matter where it lasts. -/
theorem findFrom_fuel (hr : Consumes r) {n k : ℕ} (hn : text.length < n) (hk : text.length < k) :
    findFrom r n start text = findFrom r k start text := by
  induction n generalizing k start text with
  | zero => exact absurd hn (Nat.not_lt_zero _)
  | succ n ih =>
    obtain ⟨k, rfl⟩ := Nat.exists_eq_succ_of_ne_zero (Nat.ne_zero_of_lt hk)
    cases h : attempt r start text with
    | some m =>
      have hlt := rest_lt hr h
      rw [findFrom_some h, findFrom_some h, ih (k := k) (by omega) (by omega)]
    | none =>
      cases text with
      | nil => rw [findFrom_nil h, findFrom_nil h]
      | cons c text =>
        rw [List.length_cons] at hn hk
        rw [findFrom_cons h, findFrom_cons h, ih (k := k) (by omega) (by omega)]

theorem find_some (hr : Consumes r) {m : Match} (h : attempt r start text = some m) :
    find r start text = m.group :: find r m.start m.rest := by
  have hlt := rest_lt hr h
  unfold find
  rw [findFrom_some h, findFrom_fuel hr hlt (Nat.lt_succ_self _)]

theorem find_nil (h : attempt r start [] = none) : find r start [] = [] := findFrom_nil h

theorem find_cons {c : Char} (h : attempt r start (c :: text) = none) :
    find r start (c :: text) = find r (c == '\n') text := findFrom_cons h

theorem attempt_nil (hr : Consumes r) : attempt r start [] = none := by
  cases h : attempt r start [] with
  | none => rfl
  | some m => exact absurd (rest_lt hr h) (Nat.not_lt_zero _)

/-- Expressions that match alike at every place of a text find the same. -/
theorem findFrom_congr {r' : Pattern} {whole : List Char}
    (h : ∀ front rest start, whole = front ++ rest → attempt r start rest = attempt r' start rest) (fuel : ℕ)
    (start : Bool) (front text : List Char) (hwhole : whole = front ++ text) :
    findFrom r fuel start text = findFrom r' fuel start text := by
  induction fuel generalizing start front text with
  | zero => rfl
  | succ fuel ih =>
    have hsame := h front text start hwhole
    cases hr : attempt r start text with
    | some m =>
      obtain ⟨consumed, htext, -⟩ := attempt_split hr
      rw [findFrom_some hr, findFrom_some (hsame.symm.trans hr)]
      congr 1
      exact ih m.start (front ++ consumed) m.rest (by rw [List.append_assoc, ← htext, hwhole])
    | none =>
      cases text with
      | nil => rw [findFrom_nil hr, findFrom_nil (hsame.symm.trans hr)]
      | cons c text =>
        rw [findFrom_cons hr, findFrom_cons (hsame.symm.trans hr)]
        exact ih _ (front ++ [c]) text (by rw [List.append_assoc, List.singleton_append, hwhole])

theorem find_congr {r' : Pattern} (h : ∀ front rest start, text = front ++ rest →
    attempt r start rest = attempt r' start rest) : find r start text = find r' start text :=
  findFrom_congr h _ _ [] text rfl

/-! ## Expressions that start at a line -/

/-- Behind a line's start nothing matches before the next newline. -/
theorem find_line {line rest : List Char} (hline : '\n' ∉ line) :
    find (.lineStart :: r) false (line ++ '\n' :: rest) = find (.lineStart :: r) true rest := by
  induction line with
  | nil => exact find_cons rfl
  | cons c line ih =>
    rw [List.mem_cons, not_or] at hline
    have hc : (c == '\n') = false := beq_eq_false_iff_ne.mpr (Ne.symm hline.1)
    rw [List.cons_append, find_cons rfl, hc]
    exact ih hline.2

theorem find_last {line : List Char} (hline : '\n' ∉ line) : find (.lineStart :: r) false line = [] := by
  induction line with
  | nil => exact find_nil rfl
  | cons c line ih =>
    rw [List.mem_cons, not_or] at hline
    have hc : (c == '\n') = false := beq_eq_false_iff_ne.mpr (Ne.symm hline.1)
    rw [find_cons rfl, hc]
    exact ih hline.2

end Regex
