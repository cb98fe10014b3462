import Mathlib.Tactic

/-!
# RecentList — short lists with the newest element first

* `touch`: an element moves to the front, and the oldest beyond the bound is dropped; `touch_history`: the list is
  what the history of touches says.
* `toggle`: an element is taken out, or put to the front; `mem_toggle`: which elements are in it then.
-/

namespace RecentList

variable {α : Type} [DecidableEq α]

/-- `a` is the newest of at most `n` elements. -/
def touch (n : ℕ) (a : α) (l : List α) : List α := (a :: l.erase a).take n

/-- `a` is taken out of the list or put into it. -/
def toggle (n : ℕ) (a : α) (l : List α) : List α := if a ∈ l then l.erase a else (a :: l).take n

/-! ## Histories -/

theorem nodup_eraseDups (l : List α) : l.eraseDups.Nodup := by
  induction hn : l.length using Nat.strong_induction_on generalizing l with
  | _ n ih =>
    cases l with
    | nil => simp
    | cons a l =>
      have hlength : (l.filter fun b => !b == a).length < n := by
        have hle := List.length_filter_le (fun b => !b == a) l
        simp only [List.length_cons] at hn
        omega
      rw [List.eraseDups_cons, List.nodup_cons]
      exact ⟨by simp, ih _ hlength _ rfl⟩

theorem eraseDups_of_nodup {l : List α} (h : l.Nodup) : l.eraseDups = l := by
  induction l with
  | nil => rfl
  | cons a l ih =>
    obtain ⟨ha, hl⟩ := List.nodup_cons.mp h
    have hfilter : l.filter (fun b => !b == a) = l :=
      by
      refine List.filter_eq_self.mpr fun b hb => ?_
      have hne : b ≠ a := fun heq => ha (heq ▸ hb)
      simpa using hne
    rw [List.eraseDups_cons, hfilter, ih hl]

/-- An element is filtered out before or after the repetitions. -/
theorem eraseDups_filter (a : α) (l : List α) :
    (l.filter fun b => !b == a).eraseDups = l.eraseDups.filter fun b => !b == a := by
  induction hn : l.length using Nat.strong_induction_on generalizing l with
  | _ n ih =>
    cases l with
    | nil => rfl
    | cons c l =>
      have hlength : (l.filter fun b => !b == c).length < n := by
        have hle := List.length_filter_le (fun b => !b == c) l
        simp only [List.length_cons] at hn
        omega
      have hlater := ih _ hlength _ rfl
      by_cases hc : c = a
      · subst hc
        rw [List.filter_cons_of_neg (by simp), List.eraseDups_cons, List.filter_cons_of_neg (by simp), ← hlater,
          List.filter_filter]
        simp
      · have hkeep : ∀ rest : List α, (c :: rest).filter (fun b => !b == a) = c :: rest.filter fun b => !b == a :=
          fun rest => List.filter_cons_of_pos (by simpa using hc)
        rw [hkeep, List.eraseDups_cons, List.eraseDups_cons, hkeep, ← hlater, List.filter_filter, List.filter_filter]
        simp only [Bool.and_comm]

/-- The front of a list without an element that may stand further back. -/
theorem take_erase_take {l : List α} (h : l.Nodup) (a : α) (n : ℕ) :
    ((l.take (n + 1)).erase a).take n = (l.erase a).take n := by
  induction l generalizing n with
  | nil => simp
  | cons b l ih =>
    rw [List.take_succ_cons]
    by_cases hb : b = a
    · subst hb
      rw [List.erase_cons_head, List.erase_cons_head, List.take_take, Nat.min_self]
    · have hne : ¬(b == a) = true := by simpa using hb
      rw [List.erase_cons_tail hne, List.erase_cons_tail hne]
      cases n with
      | zero => rfl
      | succ n => rw [List.take_succ_cons, List.take_succ_cons, ih (List.nodup_cons.mp h).2]

/-- The list holds the newest distinct elements of the history, also after the next one. -/
theorem touch_history (n : ℕ) (a : α) (history : List α) :
    touch n a (history.eraseDups.take n) = (a :: history).eraseDups.take n := by
  have hnodup := nodup_eraseDups history
  rw [List.eraseDups_cons, eraseDups_filter]
  have herase : (history.eraseDups.filter fun b => !b == a) = history.eraseDups.erase a := by
    rw [hnodup.erase_eq_filter]
    rfl
  rw [herase]
  unfold touch
  cases n with
  | zero => rfl
  | succ n => rw [List.take_succ_cons, List.take_succ_cons, take_erase_take hnodup]

/-! ## Toggles -/

/-- The element that gives way to a new one. -/
def Drops (n : ℕ) (a : α) (l : List α) (b : α) : Prop := a ∉ l ∧ l.length = n ∧ l.getLast? = some b

instance (n : ℕ) (a : α) (l : List α) (b : α) : Decidable (Drops n a l b) := inferInstanceAs (Decidable (_ ∧ _ ∧ _))

theorem length_toggle {n : ℕ} {a : α} {l : List α} (h : l.length ≤ n) : (toggle n a l).length ≤ n := by
  unfold toggle
  split_ifs
  · exact (List.erase_sublist.length_le).trans h
  · exact (List.length_take_le _ _)

theorem nodup_toggle {n : ℕ} {a : α} {l : List α} (h : l.Nodup) : (toggle n a l).Nodup := by
  unfold toggle
  split_ifs with ha
  · exact h.erase a
  · exact (List.nodup_cons.mpr ⟨ha, h⟩).sublist (List.take_sublist _ _)

/-- The toggled element changes sides, the dropped one leaves, and the others stay where they are. -/
theorem mem_toggle {n : ℕ} (hn : 0 < n) {a : α} {l : List α} (h : l.Nodup) (hl : l.length ≤ n) (b : α) :
    b ∈ toggle n a l ↔ if b = a then a ∉ l else b ∈ l ∧ ¬Drops n a l b := by
  unfold toggle
  by_cases ha : a ∈ l
  · rw [if_pos ha]
    split_ifs with hb
    · subst hb
      exact iff_of_false h.not_mem_erase (fun hno => hno ha)
    · have hkeep : ¬Drops n a l b := fun hdrops => hdrops.1 ha
      rw [List.mem_erase_of_ne hb]
      exact ⟨fun hmem => ⟨hmem, hkeep⟩, And.left⟩
  · rw [if_neg ha]
    obtain ⟨n, rfl⟩ := Nat.exists_eq_succ_of_ne_zero (Nat.pos_iff_ne_zero.mp hn)
    rw [List.take_succ_cons, List.mem_cons]
    split_ifs with hb
    · exact iff_of_true (.inl hb) ha
    · rw [or_iff_right hb]
      by_cases hlength : l.length ≤ n
      · rw [List.take_of_length_le hlength]
        have hkeep : ¬Drops (n + 1) a l b := fun hdrops => by have := hdrops.2.1; omega
        exact ⟨fun hmem => ⟨hmem, hkeep⟩, And.left⟩
      · have hfull : l.length = n + 1 := by omega
        have hne : l ≠ [] := fun hnil => by simp [hnil] at hfull
        have htake : l.take n = l.dropLast := by rw [List.dropLast_eq_take, hfull, Nat.add_sub_cancel]
        have hsplit := List.dropLast_append_getLast hne
        have hlast : l.getLast? = some (l.getLast hne) := List.getLast?_eq_some_getLast hne
        have hnodup : l.getLast hne ∉ l.dropLast := by
          intro hmem
          rw [← hsplit] at h
          exact (List.nodup_append.mp h).2.2 _ hmem _ List.mem_cons_self rfl
        rw [htake]
        constructor
        · intro hmem
          refine ⟨List.mem_of_mem_dropLast hmem, fun hdrops => ?_⟩
          have heq : l.getLast hne = b := Option.some.inj (hlast.symm.trans hdrops.2.2)
          exact hnodup (heq ▸ hmem)
        · rintro ⟨hmem, hkeep⟩
          rw [← hsplit] at hmem
          rcases List.mem_append.mp hmem with hmem | hmem
          · exact hmem
          · refine absurd ⟨ha, hfull, ?_⟩ hkeep
            rw [hlast, List.mem_singleton.mp hmem]

end RecentList
