import Mathlib

/-!
# Result — inversion of `Except` computations

A chain of fallible calls that ended in `.ok` is taken apart one call at a time.
-/

namespace Result

variable {ε α β : Type}

theorem bind_eq_ok {x : Except ε α} {f : α → Except ε β} {b : β} :
    (x >>= f) = .ok b ↔ ∃ a, x = .ok a ∧ f a = .ok b := by
  constructor
  · intro h
    cases x with
    | error e => cases h
    | ok a => exact ⟨a, rfl, h⟩
  · rintro ⟨a, rfl, h⟩
    exact h

@[simp] theorem ok_bind {a : α} {f : α → Except ε β} : (Except.ok a >>= f) = f a := rfl

/-- Fails with `e` when `p` holds. -/
def refuse (p : Prop) [Decidable p] (e : ε) : Except ε Unit := if p then .error e else .ok ()

@[simp] theorem refuse_eq_ok {p : Prop} [Decidable p] {e : ε} {u : Unit} : refuse p e = .ok u ↔ ¬ p := by
  unfold refuse
  by_cases h : p <;> simp [h]

/-- A passed check is dropped from a chain. -/
theorem refuse_bind {p : Prop} [Decidable p] {e : ε} (hp : ¬ p) (f : Unit → Except ε α) :
    (refuse p e >>= f) = f () := by
  rw [refuse, if_neg hp]
  rfl

/-- A result that the first branch cannot give came from the second. -/
theorem else_of_eq {p : Prop} [Decidable p] {x y b : α} (h : (if p then x else y) = b) (hx : x ≠ b) : ¬ p ∧ y = b := by
  by_cases hp : p
  · rw [if_pos hp] at h
    exact absurd h hx
  · rw [if_neg hp] at h
    exact ⟨hp, h⟩

theorem exists_ok {e : Except ε α} (h : e.toOption.isSome = true) : ∃ a, e = .ok a := by
  cases e with
  | error _ => cases h
  | ok a => exact ⟨a, rfl⟩

end Result
