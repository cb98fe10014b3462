import Hamn.Lib.Result

/-!
# Staging — a walk that gathers what its elements give

A step reads one element, behind those already passed, and adds what it gives to what is staged.

* `walk`: the elements in order; the first error ends it.
* `walk_eq`: if every element gives something, the walk adds all of it in order.
* `walk_ok`: a walk that got through had elements that all give something.
* `walk_error`: the element at which a walk ended.
-/

namespace Staging

open Result

variable {ε α β : Type} {f : List α → List β → α → Except ε (List β)}

/-- `f previous staged a` is the step at `a`. -/
def walk (f : List α → List β → α → Except ε (List β)) : List α → List β → List α → Except ε (List β)
  | _, staged, [] => .ok staged
  | previous, staged, a :: next => do
    let staged ← f previous staged a
    walk f (previous ++ [a]) staged next

variable {D : α → α → Prop} {R : α → List β → Prop} {g : List β → β → Except ε (List β)}

/-- An element is refused behind one that it does not differ from. -/
theorem walk_eq (hf : ∀ previous staged a b, (∀ q ∈ previous, D q a) → R a b →
    f previous staged a = b.foldlM g staged) {as : List α} {bs : List (List β)} (h : List.Forall₂ R as bs) :
    ∀ {previous : List α} {staged : List β}, (∀ q ∈ previous, ∀ a ∈ as, D q a) → as.Pairwise D →
      walk f previous staged as = bs.flatten.foldlM g staged := by
  induction h with
  | nil =>
    intro previous staged _ _
    rfl
  | @cons a b as bs hab _ ih =>
    intro previous staged hprevious hd
    obtain ⟨ha, hd⟩ := List.pairwise_cons.mp hd
    rw [walk, hf previous staged a b (fun q hq => hprevious q hq a (by simp)) hab, List.flatten_cons, List.foldlM_append]
    congr 1
    funext staged'
    refine ih (fun q hq a' ha' => ?_) hd
    rcases List.mem_append.mp hq with hq | hq
    · exact hprevious q hq a' (List.mem_cons_of_mem _ ha')
    · rw [List.mem_singleton.mp hq]
      exact ha a' ha'

theorem walk_ok (hf : ∀ previous staged a t, f previous staged a = .ok t → (∀ q ∈ previous, D q a) ∧ ∃ b, R a b) :
    ∀ {as previous : List α} {staged t : List β}, walk f previous staged as = .ok t →
      (∀ q ∈ previous, ∀ a ∈ as, D q a) ∧ as.Pairwise D ∧ ∃ bs, List.Forall₂ R as bs := by
  intro as
  induction as with
  | nil =>
    intro previous staged t _
    exact ⟨by simp, List.Pairwise.nil, [], .nil⟩
  | cons a as ih =>
    intro previous staged t h
    obtain ⟨staged', ha, hwalk⟩ := bind_eq_ok.mp h
    obtain ⟨hd, b, hab⟩ := hf _ _ _ _ ha
    obtain ⟨hprevious, hpairwise, bs, hbs⟩ := ih hwalk
    refine ⟨fun q hq a' ha' => ?_, List.pairwise_cons.mpr ⟨fun a' ha' => hprevious a (by simp) a' ha', hpairwise⟩,
      b :: bs, .cons hab hbs⟩
    rcases List.mem_cons.mp ha' with rfl | ha'
    · exact hd q hq
    · exact hprevious q (List.mem_append_left _ hq) a' ha'

theorem walk_error {e : ε} : ∀ {as previous : List α} {staged : List β}, walk f previous staged as = .error e →
    ∃ passed a next t, as = passed ++ a :: next ∧ walk f previous staged passed = .ok t ∧
      f (previous ++ passed) t a = .error e := by
  intro as
  induction as with
  | nil =>
    intro previous staged h
    cases h
  | cons a as ih =>
    intro previous staged h
    rw [walk] at h
    cases ha : f previous staged a with
    | error e' =>
      rw [ha] at h
      cases h
      exact ⟨[], a, as, staged, rfl, rfl, by rw [List.append_nil, ha]⟩
    | ok staged' =>
      rw [ha, ok_bind] at h
      obtain ⟨passed, a', next, t, rfl, hpassed, hlast⟩ := ih h
      refine ⟨a :: passed, a', next, t, rfl, ?_, ?_⟩
      · rw [walk, ha, ok_bind, hpassed]
      · rw [← hlast, List.append_assoc, List.singleton_append]

/-- What holds of all that an element gives holds of all that is gathered. -/
theorem forall_mem_flatten {P : β → Prop} (hP : ∀ a b, R a b → ∀ x ∈ b, P x) {as : List α} {bs : List (List β)}
    (h : List.Forall₂ R as bs) : ∀ x ∈ bs.flatten, P x := by
  induction h with
  | nil => simp
  | @cons a b as bs hab _ ih =>
    intro x hx
    rw [List.flatten_cons] at hx
    rcases List.mem_append.mp hx with hx | hx
    · exact hP a b hab x hx
    · exact ih x hx

end Staging
