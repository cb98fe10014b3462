import Mathlib

/-!
# RingBuffer — an array that keeps the last values written to it

The array has `n` slots, and the value number `next` is written to slot `next % n`.

* `pushes a l`: a ring that was filled with `a` and took the values of `l`, the newest first.
* `holds_pushes`: it holds the `n` newest of them, and `a` while there are fewer.
-/

structure RingBuffer (α : Type) (n : ℕ) where
  slots : Fin n → α
  next : ℕ

namespace RingBuffer

variable {α : Type} {n : ℕ}

/-- A value in one of the slots. -/
def Holds (r : RingBuffer α n) (a : α) : Prop := ∃ i, r.slots i = a

instance [DecidableEq α] (r : RingBuffer α n) (a : α) : Decidable (r.Holds a) := inferInstanceAs (Decidable (∃ _, _))

def fill (a : α) : RingBuffer α n := ⟨fun _ => a, 0⟩

variable [NeZero n]

def push (r : RingBuffer α n) (a : α) : RingBuffer α n := ⟨Function.update r.slots (Fin.ofNat n r.next) a, r.next + 1⟩

theorem push_slots (r : RingBuffer α n) (a : α) :
    (r.push a).slots = Function.update r.slots (Fin.ofNat n r.next) a := rfl

def pushes (a : α) : List α → RingBuffer α n
  | [] => fill a
  | b :: l => (pushes a l).push b

@[simp] theorem pushes_next (a : α) (l : List α) : (pushes a l : RingBuffer α n).next = l.length := by
  induction l with
  | nil => rfl
  | cons b l ih => rw [pushes, push, ih, List.length_cons]

/-- Two slots fewer than `n` turns apart are not the same. -/
theorem ofNat_ne {x m : ℕ} (h0 : 0 < m) (hm : m < n) : Fin.ofNat n (x + m) ≠ Fin.ofNat n x := by
  intro h
  have hmod : x + m ≡ x + 0 [MOD n] := congrArg Fin.val h
  have hdvd : n ∣ m := (Nat.modEq_zero_iff_dvd).mp (Nat.ModEq.add_left_cancel' x hmod)
  exact absurd (Nat.le_of_dvd h0 hdvd) (not_le.mpr hm)

/-- The slot that was written `j` values ago. -/
theorem slots_pushes (a : α) (l : List α) {j : ℕ} (hj : j < n) :
    (l ++ List.replicate n a)[j]? = some ((pushes a l : RingBuffer α n).slots (Fin.ofNat n (l.length + (n - 1 - j)))) := by
  induction l generalizing j with
  | nil =>
    rw [List.nil_append, List.getElem?_replicate, if_pos hj]
    rfl
  | cons b l ih =>
    rw [pushes, push_slots, pushes_next]
    cases j with
    | zero =>
      have hslot : Fin.ofNat n ((b :: l).length + (n - 1 - 0)) = Fin.ofNat n l.length := by
        have hsum : (b :: l).length + (n - 1 - 0) = l.length + n := by
          rw [List.length_cons]
          omega
        rw [hsum]
        exact Fin.ext (Nat.add_mod_right _ _)
      rw [hslot, Function.update_self]
      rfl
    | succ j =>
      have hsum : (b :: l).length + (n - 1 - (j + 1)) = l.length + (n - 1 - j) := by
        rw [List.length_cons]
        omega
      rw [hsum, Function.update_of_ne (ofNat_ne (by omega) (by omega)), ← ih (by omega)]
      rfl

/-- Every slot was written fewer than `n` values ago. -/
theorem exists_turn (x : ℕ) (i : Fin n) : ∃ j < n, Fin.ofNat n (x + (n - 1 - j)) = i := by
  have hi := i.isLt
  have hx : x % n < n := Nat.mod_lt _ (NeZero.pos n)
  obtain ⟨k, hk, hslot⟩ : ∃ k < n, (x + k) % n = i.val := by
    by_cases h : x % n ≤ i.val
    · refine ⟨i.val - x % n, by omega, ?_⟩
      rw [← Nat.mod_add_mod, Nat.add_sub_cancel' h, Nat.mod_eq_of_lt hi]
    · refine ⟨i.val + n - x % n, by omega, ?_⟩
      rw [← Nat.mod_add_mod, Nat.add_sub_cancel' (by omega), Nat.add_mod_right, Nat.mod_eq_of_lt hi]
  refine ⟨n - 1 - k, by omega, Fin.ext ?_⟩
  have hback : n - 1 - (n - 1 - k) = k := by omega
  rw [hback]
  exact hslot

/-- **What a ring holds.** -/
theorem holds_pushes {a b : α} {l : List α} :
    (pushes a l : RingBuffer α n).Holds b ↔ b ∈ (l ++ List.replicate n a).take n := by
  rw [List.mem_take_iff_getElem]
  constructor
  · rintro ⟨i, rfl⟩
    obtain ⟨j, hj, rfl⟩ := exists_turn l.length i
    have hget := slots_pushes a l hj
    have hlen : j < (l ++ List.replicate n a).length := by
      rw [List.length_append, List.length_replicate]
      omega
    rw [List.getElem?_eq_getElem hlen] at hget
    exact ⟨j, by omega, Option.some.inj hget⟩
  · rintro ⟨j, hj, hget⟩
    have hlt : j < n := by omega
    have hslot := slots_pushes a l hlt
    rw [List.getElem?_eq_getElem (by omega), hget] at hslot
    exact ⟨_, (Option.some.inj hslot).symm⟩

end RingBuffer
