import Mathlib

/-!
# Split — a list between its separators

* `not_mem_of_mem_splitOn`, `subset_of_mem_splitOn`: the pieces have no separator, and nothing that the list has not.
* `cut_eq`: the list before and after the first separator.
* `unlines`: pieces that a separator ends each; `unlines_splitOn`: what `splitOn` of all but the last separator reads.
-/

namespace Split

variable {α : Type} {sep : α}

/-! ## Pieces -/

section

variable [BEq α] [LawfulBEq α]

theorem splitOn_append {current : List α} (h : sep ∉ current) (rest : List α) :
    ∃ piece pieces, (current ++ rest).splitOn sep = (current ++ piece) :: pieces ∧
      rest.splitOn sep = piece :: pieces := by
  induction current with
  | nil =>
    cases hrest : rest.splitOn sep with
    | nil => exact absurd hrest (List.splitOn_ne_nil sep rest)
    | cons piece pieces => exact ⟨piece, pieces, hrest, rfl⟩
  | cons c current ih =>
    rw [List.mem_cons, not_or] at h
    obtain ⟨piece, pieces, hall, hrest⟩ := ih h.2
    refine ⟨piece, pieces, ?_, hrest⟩
    rw [List.cons_append, List.splitOn_cons_eq_if_modifyHead, if_neg (by simpa using fun heq => h.1 heq.symm), hall]
    rfl

theorem not_mem_of_mem_splitOn {text : List α} : ∀ piece ∈ text.splitOn sep, sep ∉ piece := by
  induction text with
  | nil =>
    rw [List.splitOn_nil]
    exact fun piece h => List.mem_singleton.mp h ▸ List.not_mem_nil
  | cons c text ih =>
    by_cases hc : c = sep
    · subst hc
      rw [← List.nil_append (c :: text), List.splitOn_append_cons_self_of_not_mem List.not_mem_nil]
      exact List.forall_mem_cons.mpr ⟨List.not_mem_nil, ih⟩
    · obtain ⟨piece, pieces, hall, hrest⟩ := @splitOn_append _ sep _ _ [c]
        (fun h => hc (List.mem_singleton.mp h).symm) text
      rw [hrest, List.forall_mem_cons] at ih
      rw [← List.singleton_append, hall, List.forall_mem_cons]
      refine ⟨fun h => ?_, ih.2⟩
      rcases List.mem_append.mp h with h | h
      · exact hc (List.mem_singleton.mp h).symm
      · exact ih.1 h

theorem subset_of_mem_splitOn {text : List α} : ∀ piece ∈ text.splitOn sep, piece ⊆ text := by
  induction text with
  | nil =>
    rw [List.splitOn_nil]
    exact fun piece h => List.mem_singleton.mp h ▸ List.Subset.refl _
  | cons c text ih =>
    by_cases hc : c = sep
    · subst hc
      rw [← List.nil_append (c :: text), List.splitOn_append_cons_self_of_not_mem List.not_mem_nil]
      exact List.forall_mem_cons.mpr ⟨List.nil_subset _, fun p hp x hx => List.mem_cons_of_mem _ (ih p hp hx)⟩
    · obtain ⟨piece, pieces, hall, hrest⟩ := @splitOn_append _ sep _ _ [c]
        (fun h => hc (List.mem_singleton.mp h).symm) text
      rw [hrest, List.forall_mem_cons] at ih
      rw [← List.singleton_append, hall, List.forall_mem_cons]
      exact ⟨List.cons_subset_cons c ih.1, fun p hp x hx => List.mem_cons_of_mem _ (ih.2 p hp hx)⟩

/-- A list at the first element of its kind. -/
theorem cut_eq [DecidableEq α] {text : List α} (h : sep ∈ text) :
    text = text.takeWhile (· ≠ sep) ++ sep :: (text.dropWhile (· ≠ sep)).drop 1 := by
  have hcut := List.takeWhile_append_dropWhile (p := fun c => decide (c ≠ sep)) (l := text)
  have hhead := List.head?_dropWhile_not (fun c => decide (c ≠ sep)) text
  cases hd : text.dropWhile (· ≠ sep) with
  | nil =>
    rw [hd, List.append_nil] at hcut
    rw [← hcut] at h
    simpa using List.mem_takeWhile_imp h
  | cons d rest =>
    rw [hd] at hcut hhead
    obtain rfl : d = sep := by simpa using hhead
    exact hcut.symm

end

/-! ## Lines -/

/-- Every piece with a separator behind it. -/
def unlines (sep : α) (pieces : List (List α)) : List α := pieces.flatMap (· ++ [sep])

@[simp] theorem unlines_nil : unlines sep [] = [] := rfl

@[simp] theorem unlines_cons (piece : List α) (pieces : List (List α)) :
    unlines sep (piece :: pieces) = piece ++ sep :: unlines sep pieces := by
  unfold unlines
  rw [List.flatMap_cons, List.append_assoc, List.singleton_append]

theorem unlines_eq {pieces : List (List α)} (h : pieces ≠ []) :
    unlines sep pieces = [sep].intercalate pieces ++ [sep] := by
  induction pieces with
  | nil => exact absurd rfl h
  | cons piece pieces ih =>
    by_cases hne : pieces = []
    · subst hne
      simp
    · rw [unlines_cons, ih hne, List.intercalate_cons_of_ne_nil hne, List.append_assoc, List.append_assoc,
        List.singleton_append]

theorem unlines_splitOn [BEq α] [LawfulBEq α] (text : List α) : unlines sep (text.splitOn sep) = text ++ [sep] := by
  rw [unlines_eq (List.splitOn_ne_nil _ _), List.intercalate_splitOn]

/-- The pieces are found again. -/
theorem splitOn_dropLast_unlines [BEq α] [LawfulBEq α] {pieces : List (List α)} (hne : pieces ≠ [])
    (h : ∀ piece ∈ pieces, sep ∉ piece) :
    (unlines sep pieces).dropLast.splitOn sep = pieces := by
  rw [unlines_eq hne, List.dropLast_concat, List.splitOn_intercalate sep h hne]

end Split
