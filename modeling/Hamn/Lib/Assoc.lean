import Mathlib

/-!
# Assoc — association lists whose first entry of a key counts

* `set`: the value of the first entry is replaced, or an entry is added at the end.
* `erase`: the list without the first entry.
* `lookup_set`, `lookup_erase`: what is found afterwards.
* `lookup_perm`: with each key once, the order does not matter.
-/

namespace Assoc

variable {K V K' V' : Type} [DecidableEq K] [DecidableEq K']

def set (key : K) (value : V) : List (K × V) → List (K × V)
  | [] => [(key, value)]
  | (k, v) :: l => if k = key then (k, value) :: l else (k, v) :: set key value l

def erase (key : K) : List (K × V) → List (K × V)
  | [] => []
  | (k, v) :: l => if k = key then l else (k, v) :: erase key l

variable {key : K} {value : V} {l : List (K × V)} {f : K → K'} {g : V → V'}

/-! ## Setting and erasing -/

theorem forall_mem_set {P : K × V → Prop} (hset : P (key, value)) (h : ∀ m ∈ l, P m) : ∀ m ∈ set key value l, P m := by
  induction l with
  | nil => simpa [set] using hset
  | cons m' l ih =>
    obtain ⟨k, v⟩ := m'
    rw [List.forall_mem_cons] at h
    by_cases hk : k = key
    · subst hk
      simp only [set, if_true, List.forall_mem_cons]
      exact ⟨hset, h.2⟩
    · simp only [set, hk, if_false, List.forall_mem_cons]
      exact ⟨h.1, ih h.2⟩

theorem keys_set : (set key value l).map Prod.fst =
    if key ∈ l.map Prod.fst then l.map Prod.fst else l.map Prod.fst ++ [key] := by
  induction l with
  | nil => rfl
  | cons m l ih =>
    obtain ⟨k, v⟩ := m
    by_cases hk : k = key
    · simp [set, hk]
    · by_cases hmem : key ∈ l.map Prod.fst
      · rw [if_pos hmem] at ih
        rw [if_pos (by rw [List.map_cons]; exact List.mem_cons_of_mem _ hmem)]
        simp only [set, hk, if_false, List.map_cons, ih]
      · rw [if_neg hmem] at ih
        rw [if_neg (by rw [List.map_cons, List.mem_cons, not_or]; exact ⟨Ne.symm hk, hmem⟩)]
        simp only [set, hk, if_false, List.map_cons, ih, List.cons_append]

theorem nodup_set (hl : (l.map Prod.fst).Nodup) : ((set key value l).map Prod.fst).Nodup := by
  rw [keys_set]
  split_ifs with h
  · exact hl
  · rw [List.nodup_append]
    exact ⟨hl, List.nodup_singleton _, fun a ha b hb hab => h (by rw [List.mem_singleton.mp hb] at hab; exact hab ▸ ha)⟩

/-- With each key once, setting a key puts one entry in the place of all that have it. -/
theorem set_perm (hl : (l.map Prod.fst).Nodup) :
    (set key value l).Perm ((key, value) :: l.filter fun m => decide (m.1 ≠ key)) := by
  induction l with
  | nil => exact List.Perm.refl _
  | cons m l ih =>
    obtain ⟨k, v⟩ := m
    rw [List.map_cons, List.nodup_cons] at hl
    by_cases hk : k = key
    · subst hk
      have hkeep : l.filter (fun m => decide (m.1 ≠ k)) = l := by
        rw [List.filter_eq_self]
        intro m hm
        refine decide_eq_true fun heq => hl.1 ?_
        exact List.mem_map.mpr ⟨m, hm, heq⟩
      rw [set, if_pos rfl, List.filter_cons_of_neg (by simp), hkeep]
    · rw [set, if_neg hk, List.filter_cons_of_pos (by simpa using hk)]
      exact ((ih hl.2).cons _).trans (List.Perm.swap _ _ _)

theorem erase_sublist : (erase key l).Sublist l := by
  induction l with
  | nil => exact List.Sublist.refl _
  | cons m l ih =>
    obtain ⟨k, v⟩ := m
    unfold erase
    split_ifs
    · exact List.sublist_cons_self _ _
    · exact ih.cons_cons _

theorem set_map (hf : ∀ m ∈ l, f m.1 = f key → m.1 = key) :
    set (f key) (g value) (l.map (Prod.map f g)) = (set key value l).map (Prod.map f g) := by
  induction l with
  | nil => rfl
  | cons m l ih =>
    obtain ⟨k, v⟩ := m
    rw [List.forall_mem_cons] at hf
    by_cases hk : k = key
    · simp [set, hk]
    · simp only [List.map_cons, Prod.map_apply, set, hk, if_false, if_neg fun h => hk (hf.1 h), ih hf.2]

theorem erase_map (hf : ∀ m ∈ l, f m.1 = f key → m.1 = key) :
    erase (f key) (l.map (Prod.map f g)) = (erase key l).map (Prod.map f g) := by
  induction l with
  | nil => rfl
  | cons m l ih =>
    obtain ⟨k, v⟩ := m
    rw [List.forall_mem_cons] at hf
    by_cases hk : k = key
    · simp [erase, hk]
    · simp only [List.map_cons, Prod.map_apply, erase, hk, if_false, if_neg fun h => hk (hf.1 h), ih hf.2]

/-! ## Looking up -/

section

variable [BEq K] [LawfulBEq K] [BEq K'] [LawfulBEq K']

theorem lookup_cons (k key : K) (v : V) (l : List (K × V)) :
    List.lookup key ((k, v) :: l) = if k = key then some v else l.lookup key := by
  by_cases hk : k = key
  · subst hk
    rw [List.lookup_cons_self, if_pos rfl]
  · have hbeq : (key == k) = false := beq_eq_false_iff_ne.mpr (Ne.symm hk)
    rw [List.lookup, hbeq, if_neg hk]

theorem lookup_eq_none : l.lookup key = none ↔ key ∉ l.map Prod.fst := by
  induction l with
  | nil => simp
  | cons m l ih =>
    obtain ⟨k, v⟩ := m
    rw [lookup_cons, List.map_cons, List.mem_cons, not_or, ← ih]
    by_cases hk : k = key
    · simp [hk]
    · simp [hk, Ne.symm hk]

omit [DecidableEq K] in
theorem mem_of_lookup (h : l.lookup key = some value) : (key, value) ∈ l := by
  obtain ⟨l₁, l₂, rfl, -⟩ := List.lookup_eq_some_iff.mp h
  exact List.mem_append_right _ List.mem_cons_self

theorem lookup_of_mem (hl : (l.map Prod.fst).Nodup) (h : (key, value) ∈ l) : l.lookup key = some value := by
  induction l with
  | nil => cases h
  | cons m l ih =>
    obtain ⟨k, v⟩ := m
    rw [List.map_cons, List.nodup_cons] at hl
    rw [lookup_cons]
    rcases List.mem_cons.mp h with heq | h
    · obtain ⟨rfl, rfl⟩ := Prod.mk.inj heq
      exact if_pos rfl
    · have hk : k ≠ key := by
        rintro rfl
        exact hl.1 (List.mem_map.mpr ⟨_, h, rfl⟩)
      rw [if_neg hk]
      exact ih hl.2 h

theorem lookup_perm {l' : List (K × V)} (hl : (l.map Prod.fst).Nodup) (h : l.Perm l') :
    l.lookup key = l'.lookup key := by
  have hl' : (l'.map Prod.fst).Nodup := (h.map Prod.fst).nodup_iff.mp hl
  cases hv : l'.lookup key with
  | none =>
    rw [lookup_eq_none] at hv ⊢
    rwa [(h.map Prod.fst).mem_iff]
  | some v => exact lookup_of_mem hl (h.mem_iff.mpr (mem_of_lookup hv))

theorem lookup_set (k : K) : (set key value l).lookup k = if k = key then some value else l.lookup k := by
  induction l with
  | nil =>
    rw [set, lookup_cons, List.lookup_nil]
    by_cases hk : k = key
    · rw [if_pos hk, if_pos hk.symm]
    · rw [if_neg hk, if_neg (Ne.symm hk)]
  | cons m l ih =>
    obtain ⟨x, v⟩ := m
    unfold set
    by_cases hx : x = key
    · subst hx
      rw [if_pos rfl, lookup_cons, lookup_cons]
      by_cases hk : k = x
      · rw [if_pos hk, if_pos hk.symm]
      · rw [if_neg hk, if_neg (Ne.symm hk), if_neg (Ne.symm hk)]
    · rw [if_neg hx, lookup_cons, lookup_cons, ih]
      by_cases hk : k = key
      · subst hk
        rw [if_neg hx]
        simp
      · rw [if_neg hk]
        simp [hk]

theorem lookup_erase (hl : (l.map Prod.fst).Nodup) (k : K) :
    (erase key l).lookup k = if k = key then none else l.lookup k := by
  induction l with
  | nil => simp [erase]
  | cons m l ih =>
    obtain ⟨x, v⟩ := m
    rw [List.map_cons, List.nodup_cons] at hl
    unfold erase
    by_cases hx : x = key
    · subst hx
      rw [if_pos rfl, lookup_cons]
      by_cases hk : k = x
      · subst hk
        rw [if_pos rfl]
        exact lookup_eq_none.mpr hl.1
      · rw [if_neg hk, if_neg (Ne.symm hk)]
    · rw [if_neg hx, lookup_cons, lookup_cons, ih hl.2]
      by_cases hk : k = key
      · subst hk
        rw [if_neg hx, if_pos rfl, if_pos rfl]
      · rw [if_neg hk]
        simp [hk]

theorem lookup_map (hf : ∀ m ∈ l, f m.1 = f key → m.1 = key) :
    (l.map (Prod.map f g)).lookup (f key) = (l.lookup key).map g := by
  induction l with
  | nil => rfl
  | cons m l ih =>
    obtain ⟨k, v⟩ := m
    rw [List.forall_mem_cons] at hf
    rw [List.map_cons, Prod.map_apply, lookup_cons, lookup_cons, ih hf.2]
    by_cases hk : k = key
    · rw [if_pos (congrArg f hk), if_pos hk]
      rfl
    · rw [if_neg fun h => hk (hf.1 h), if_neg hk]

end

end Assoc
