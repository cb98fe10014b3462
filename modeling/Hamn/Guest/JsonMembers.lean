import Hamn.Guest.Json

/-!
# JsonMembers — the order of members and the rejection of duplicate keys

`member_order` is the lexicographic order of the key bytes.  After sorting, equal keys are neighbours, so the check
of `reject_duplicate_keys` passes exactly when no key occurs twice.
-/

open Bytes

namespace Hamn.StrictJson

theorem memberOrder_cons (x y : UInt8) (a b : Bytes) :
    memberOrder (x :: a) (y :: b) = if x < y then .lt else if y < x then .gt else memberOrder a b := by
  have hmin : (if (x :: a).length < (y :: b).length then (x :: a).length else (y :: b).length) =
      (if a.length < b.length then a.length else b.length) + 1 := by
    simp only [List.length_cons]
    split_ifs <;> omega
  simp only [memberOrder, hmin, List.take_succ_cons, memcmp]
  by_cases h1 : x < y
  · simp only [if_pos h1]
  · by_cases h2 : y < x
    · simp only [if_neg h1, if_pos h2]
    · simp only [if_neg h1, if_neg h2, List.length_cons, gt_iff_lt, Nat.add_lt_add_iff_right]

theorem memberOrder_nil_cons (y : UInt8) (b : Bytes) : memberOrder [] (y :: b) = .lt := rfl

theorem memberOrder_cons_nil (x : UInt8) (a : Bytes) : memberOrder (x :: a) [] = .gt := rfl

theorem memberOrder_eq_lt : ∀ {a b : Bytes}, memberOrder a b = .lt ↔ a < b
  | [], [] => by simp [memberOrder, memcmp]
  | [], y :: b => by simp [memberOrder_nil_cons]
  | x :: a, [] => by simp [memberOrder_cons_nil]
  | x :: a, y :: b => by
    rw [memberOrder_cons, List.cons_lt_cons_iff, ← memberOrder_eq_lt]
    by_cases h1 : x < y
    · simp [h1]
    · by_cases h2 : y < x
      · have hne : x ≠ y := fun he => absurd (he ▸ h2) (UInt8.lt_irrefl _)
        simp [h1, h2, hne]
      · have heq : x = y := UInt8.le_antisymm (UInt8.not_lt.mp h2) (UInt8.not_lt.mp h1)
        simp [heq]

theorem memberOrder_swap : ∀ (a b : Bytes), memberOrder a b = (memberOrder b a).swap
  | [], [] => rfl
  | [], y :: b => by rw [memberOrder_nil_cons, memberOrder_cons_nil]; rfl
  | x :: a, [] => by rw [memberOrder_nil_cons, memberOrder_cons_nil]; rfl
  | x :: a, y :: b => by
    rw [memberOrder_cons, memberOrder_cons]
    by_cases h1 : x < y
    · rw [if_pos h1, if_neg (UInt8.lt_asymm h1), if_pos h1]
      rfl
    · by_cases h2 : y < x
      · rw [if_neg h1, if_pos h2, if_pos h2]
        rfl
      · rw [if_neg h1, if_neg h2, if_neg h2, if_neg h1]
        exact memberOrder_swap a b

theorem memberOrder_eq_gt {a b : Bytes} : memberOrder a b = .gt ↔ b < a := by
  rw [memberOrder_swap, ← memberOrder_eq_lt]
  cases memberOrder b a <;> decide

theorem memberOrder_ne_gt {a b : Bytes} : memberOrder a b ≠ .gt ↔ a ≤ b := by
  rw [ne_eq, memberOrder_eq_gt]
  exact Iff.rfl

theorem memberOrder_eq_eq {a b : Bytes} : memberOrder a b = .eq ↔ a = b := by
  constructor
  · intro h
    have h1 : ¬ a < b := fun hlt => by rw [memberOrder_eq_lt.mpr hlt] at h; cases h
    have h2 : ¬ b < a := fun hlt => by rw [memberOrder_eq_gt.mpr hlt] at h; cases h
    exact List.le_antisymm h2 h1
  · rintro rfl
    have h1 := memberOrder_swap a a
    cases h : memberOrder a a with
    | eq => rfl
    | lt => rw [h] at h1; cases h1
    | gt => rw [h] at h1; cases h1

section Members

variable {α : Type}

/-- The sorted members are the members, in ascending key order. -/
theorem sortedMembers_perm (members : List (Bytes × α)) : (sortedMembers members).Perm members :=
  List.perm_insertionSort _ _

theorem sortedMembers_pairwise (members : List (Bytes × α)) :
    (sortedMembers members).Pairwise fun a b => a.1 ≤ b.1 := by
  have htotal : Std.Total fun a b : Bytes × α => memberOrder a.1 b.1 ≠ .gt := by
    refine ⟨fun a b => ?_⟩
    rw [memberOrder_ne_gt, memberOrder_ne_gt]
    exact List.le_total a.1 b.1
  have htrans : IsTrans (Bytes × α) fun a b => memberOrder a.1 b.1 ≠ .gt := by
    refine ⟨fun a b c hab hbc => ?_⟩
    rw [memberOrder_ne_gt] at hab hbc ⊢
    exact List.le_trans hab hbc
  exact (List.pairwise_insertionSort _ members).imp fun h => memberOrder_ne_gt.mp h

/-- In a sorted list of keys an adjacent pair of equals is the only way to repeat a key. -/
theorem adjacentDuplicate_eq_none : ∀ {keys : List Bytes}, keys.Pairwise (· ≤ ·) →
    (adjacentDuplicate keys = none ↔ keys.Nodup)
  | [], _ => by simp [adjacentDuplicate]
  | [a], _ => by simp [adjacentDuplicate]
  | a :: b :: keys, h => by
    rw [adjacentDuplicate]
    rw [List.pairwise_cons] at h
    have ih := adjacentDuplicate_eq_none h.2
    by_cases he : memberOrder a b = .eq
    · rw [if_pos he, memberOrder_eq_eq.mp he]
      simp
    · rw [if_neg he, ih, List.nodup_cons (a := a)]
      refine ⟨fun hn => ⟨fun hm => ?_, hn⟩, fun hn => hn.2⟩
      have hne : a ≠ b := fun hab => he (memberOrder_eq_eq.mpr hab)
      rcases List.mem_cons.mp hm with hab | hm'
      · exact hne hab
      · -- `a ≤ b ≤ a`
        have hba : b ≤ a := (List.pairwise_cons.mp h.2).1 a hm'
        exact hne (List.le_antisymm (h.1 b (by simp)) hba)

/-- **Duplicate keys**: the check passes exactly when no key occurs twice. -/
theorem rejectDuplicateKeys_eq_ok {members : List (Bytes × α)} :
    rejectDuplicateKeys members = .ok () ↔ (members.map (·.1)).Nodup := by
  have hsorted : ((sortedMembers members).map (·.1)).Pairwise (· ≤ ·) :=
    List.pairwise_map.mpr (sortedMembers_pairwise members)
  have hperm : ((sortedMembers members).map (·.1)).Nodup ↔ (members.map (·.1)).Nodup :=
    ((sortedMembers_perm members).map _).nodup_iff
  unfold rejectDuplicateKeys
  by_cases hlen : members.length < 2
  · rw [if_pos hlen]
    match members, hlen with
    | [], _ => simp
    | [m], _ => simp
    | _ :: _ :: _, hlen => simp only [List.length_cons] at hlen; omega
  · rw [if_neg hlen, ← hperm, ← adjacentDuplicate_eq_none hsorted]
    cases adjacentDuplicate ((sortedMembers members).map (·.1)) with
    | none => simp
    | some key => simp [setError]

end Members

end Hamn.StrictJson
