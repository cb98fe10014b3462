import Mathlib

/-!
# Search — the first occurrence of a pattern in a text

* `after`: the text after the first occurrence.
* `Overlap`: the longest prefix of the pattern that ends the text.  It is the pattern itself where the pattern has just
  occurred, and `Overlap.next`, `overlap_succ` and `overlap_border` follow it from one symbol to the next: where the symbol
  does not continue the prefix, the longest border of the prefix may.
-/

namespace Search

variable {α : Type} {p t : List α}

/-! ## The first occurrence -/

section Occurrence

variable [DecidableEq α]

/-- The text after the first occurrence of the pattern. -/
def after (pattern : List α) : List α → Option (List α)
  | [] => if pattern = [] then some [] else none
  | c :: text => if pattern <+: c :: text then some ((c :: text).drop pattern.length) else after pattern text

/-- The text up to the end of the first occurrence of the pattern. -/
def through (pattern text : List α) : List α :=
  match after pattern text with
  | none => text
  | some rest => text.take (text.length - rest.length)

theorem after_isSome : (after p t).isSome = true ↔ p <:+: t := by
  induction t with
  | nil =>
    rw [after, List.infix_nil]
    by_cases hp : p = [] <;> simp [hp]
  | cons c t ih =>
    rw [after, List.infix_cons_iff]
    by_cases hp : p <+: c :: t
    · simp [hp]
    · rw [if_neg hp, ih]
      exact ⟨Or.inr, fun h => h.resolve_left hp⟩

theorem after_eq_none : after p t = none ↔ ¬ p <:+: t := by
  rw [← after_isSome, Bool.not_eq_true, Option.isSome_eq_false_iff, Option.isNone_iff_eq_none]

theorem after_spec {rest : List α} (h : after p t = some rest) : ∃ before, t = before ++ p ++ rest := by
  induction t with
  | nil =>
    rw [after] at h
    split_ifs at h with hp
    obtain rfl := Option.some.inj h
    exact ⟨[], by simp [hp]⟩
  | cons c t ih =>
    rw [after] at h
    by_cases hp : p <+: c :: t
    · rw [if_pos hp] at h
      obtain rfl := Option.some.inj h
      obtain ⟨rest, hrest⟩ := hp
      refine ⟨[], ?_⟩
      rw [← hrest, List.drop_left, List.nil_append]
    · rw [if_neg hp] at h
      obtain ⟨before, hbefore⟩ := ih h
      exact ⟨c :: before, by rw [hbefore]; rfl⟩

/-- The first occurrence stays the first one in a longer text. -/
theorem after_append {rest : List α} (h : after p t = some rest) (u : List α) :
    after p (t ++ u) = some (rest ++ u) := by
  induction t with
  | nil =>
    rw [after] at h
    split_ifs at h with hp
    obtain rfl := Option.some.inj h
    subst hp
    cases u with
    | nil => rfl
    | cons d u => simp [after]
  | cons c t ih =>
    rw [after] at h
    rw [List.cons_append, after]
    by_cases hp : p <+: c :: t
    · rw [if_pos hp] at h
      obtain rfl := Option.some.inj h
      have hp' : p <+: c :: (t ++ u) := hp.trans (List.prefix_append (c :: t) u)
      rw [if_pos hp', ← List.cons_append, List.drop_append_of_le_length hp.length_le]
    · rw [if_neg hp] at h
      have hp' : ¬ p <+: c :: (t ++ u) := by
        intro hp'
        have hlen : p.length ≤ (c :: t).length := by
          obtain ⟨before, hbefore⟩ := after_spec h
          have := congrArg List.length hbefore
          simp at this ⊢
          omega
        exact hp (List.prefix_of_prefix_length_le hp' (List.prefix_append (c :: t) u) hlen)
      rw [if_neg hp']
      exact ih h

/-- A pattern that ends the text and did not occur before. -/
theorem after_concat {c : α} (hnot : ¬ p <:+: t) (h : p <:+ t ++ [c]) : after p (t ++ [c]) = some [] := by
  obtain ⟨rest, hrest⟩ := Option.isSome_iff_exists.mp (after_isSome.mpr h.isInfix)
  rcases List.eq_nil_or_concat rest with rfl | ⟨rest, d, rfl⟩
  · exact hrest
  · obtain ⟨before, hbefore⟩ := after_spec hrest
    rw [List.concat_eq_append, ← List.append_assoc] at hbefore
    obtain ⟨rfl, -⟩ := List.append_inj' hbefore rfl
    exact absurd ⟨before, rest, rfl⟩ hnot

end Occurrence

/-! ## The longest prefix that ends the text -/

theorem infix_concat {c : α} : p <:+: t ++ [c] ↔ p <:+: t ∨ p <:+ t ++ [c] := by
  constructor
  · rintro ⟨before, rest, h⟩
    rcases List.eq_nil_or_concat rest with rfl | ⟨rest, d, rfl⟩
    · exact Or.inr ⟨before, by simpa using h⟩
    · rw [List.concat_eq_append, ← List.append_assoc] at h
      exact Or.inl ⟨before, rest, (List.append_inj' h rfl).1⟩
  · rintro (h | h)
    · exact h.trans (List.prefix_append t [c]).isInfix
    · exact h.isInfix

/-- `k` is the length of the longest prefix of the pattern that is a suffix of the text. -/
structure Overlap (pattern text : List α) (k : ℕ) : Prop where
  le : k ≤ pattern.length
  suffix : pattern.take k <:+ text
  longest : ∀ j, j ≤ pattern.length → pattern.take j <:+ text → j ≤ k

/-- `k` is the length of the longest proper border of the first `n` symbols. -/
structure Border (pattern : List α) (n k : ℕ) : Prop where
  lt : k < n
  suffix : pattern.take k <:+ pattern.take n
  longest : ∀ j, j < n → pattern.take j <:+ pattern.take n → j ≤ k

theorem overlap_nil : Overlap p [] 0 := by
  refine ⟨Nat.zero_le _, List.nil_suffix, fun j hj h => ?_⟩
  have := List.suffix_nil.mp h
  rw [List.take_eq_nil_iff] at this
  rcases this with rfl | rfl
  · exact Nat.le_refl _
  · exact hj

/-- A prefix ends the text with `c` where `c` continues a prefix that ended the text. -/
theorem take_succ_suffix {j : ℕ} (hj : j < p.length) {c : α} :
    p.take (j + 1) <:+ t ++ [c] ↔ p.take j <:+ t ∧ p[j]? = some c := by
  rw [List.take_succ_eq_append_getElem hj, List.suffix_concat_iff]
  constructor
  · rintro (h | ⟨u, h, hu⟩)
    · exact absurd h (List.append_ne_nil_of_right_ne_nil _ (List.cons_ne_nil _ _))
    · obtain ⟨rfl, hc⟩ := List.append_inj' h rfl
      obtain rfl := List.singleton_inj.mp hc
      exact ⟨hu, List.getElem?_eq_getElem hj⟩
  · rintro ⟨h, hc⟩
    rw [List.getElem?_eq_getElem hj] at hc
    obtain rfl := Option.some.inj hc
    exact Or.inr ⟨_, rfl, h⟩

/-- The next overlap is the one of the prefix that ended the text. -/
theorem Overlap.next {m r : ℕ} {c : α} (h : Overlap p t m) (hr : Overlap p (p.take m ++ [c]) r) :
    Overlap p (t ++ [c]) r := by
  refine ⟨hr.le, hr.suffix.trans ?_, fun j hj hsuffix => ?_⟩
  · obtain ⟨u, hu⟩ := h.suffix
    exact ⟨u, by rw [← List.append_assoc, hu]⟩
  · cases j with
    | zero => exact Nat.zero_le _
    | succ j =>
      obtain ⟨hend, hc⟩ := (take_succ_suffix hj).mp hsuffix
      have hle : j ≤ m := h.longest j (by omega) hend
      have hin : p.take j <:+ p.take m := by
        refine List.suffix_of_suffix_length_le hend h.suffix ?_
        rw [List.length_take, List.length_take]
        omega
      exact hr.longest _ hj ((take_succ_suffix hj).mpr ⟨hin, hc⟩)

/-- The symbol continues the prefix. -/
theorem overlap_succ {m : ℕ} {c : α} (hm : m < p.length) (hc : p[m]? = some c) :
    Overlap p (p.take m ++ [c]) (m + 1) := by
  refine ⟨hm, (take_succ_suffix hm).mpr ⟨List.suffix_rfl, hc⟩, fun j hj h => ?_⟩
  have := h.length_le
  rw [List.length_append, List.length_take, List.length_take, List.length_singleton] at this
  omega

/-- The symbol does not continue the prefix: what ends the text then continues a border of it. -/
theorem overlap_border {m b r : ℕ} {c : α} (hm : m < p.length) (hc : p[m]? ≠ some c) (hb : Border p m b)
    (hr : Overlap p (p.take b ++ [c]) r) : Overlap p (p.take m ++ [c]) r := by
  refine ⟨hr.le, hr.suffix.trans ?_, fun j hj hsuffix => ?_⟩
  · obtain ⟨u, hu⟩ := hb.suffix
    exact ⟨u, by rw [← List.append_assoc, hu]⟩
  · cases j with
    | zero => exact Nat.zero_le _
    | succ j =>
      obtain ⟨hend, hcj⟩ := (take_succ_suffix hj).mp hsuffix
      have hlen := hend.length_le
      rw [List.length_take, List.length_take] at hlen
      have hne : j ≠ m := by
        rintro rfl
        exact hc hcj
      have hle : j ≤ b := hb.longest j (by omega) hend
      have hin : p.take j <:+ p.take b := by
        refine List.suffix_of_suffix_length_le hend hb.suffix ?_
        rw [List.length_take, List.length_take]
        omega
      exact hr.longest _ hj ((take_succ_suffix hj).mpr ⟨hin, hcj⟩)

/-- No prefix ends the text. -/
theorem overlap_zero {c : α} (hc : p[0]? ≠ some c) : Overlap p [c] 0 := by
  refine ⟨Nat.zero_le _, List.nil_suffix, fun j hj h => ?_⟩
  cases j with
  | zero => exact Nat.le_refl _
  | succ j =>
    obtain ⟨hend, hcj⟩ := (take_succ_suffix (t := []) hj).mp h
    have hnil := List.suffix_nil.mp hend
    rw [List.take_eq_nil_iff] at hnil
    rcases hnil with rfl | rfl
    · exact absurd hcj hc
    · exact absurd hj (by simp)

/-- The pattern has just occurred. -/
theorem Overlap.eq_length_iff {k : ℕ} (h : Overlap p t k) : k = p.length ↔ p <:+ t := by
  constructor
  · rintro rfl
    simpa using h.suffix
  · intro hp
    exact Nat.le_antisymm h.le (h.longest _ (Nat.le_refl _) (by simpa using hp))

end Search
