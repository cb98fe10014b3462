import Hamn.Lib.Bytes

/-!
# Reader — parsers of a text that may not have arrived yet

A reader looks at the bytes that are there and answers in one of three ways: it has read something, the bytes are
malformed, or they end too early to say.

* `Reader α`, `Answer α`: with the readers of one byte and of a run of bytes.
* `Stable r`: an answer other than `incomplete` stays the same when more bytes arrive.
* `Snug r`, `Local r`: what is read depends on the bytes read alone, or on them and the byte after them.

There is one rule for each way to build a reader.
-/

open Bytes

/-- What a reader says about the bytes that are there. -/
inductive Answer (α : Type) where
  | ok (a : α) (rest : Bytes)
  | incomplete
  | bad
  deriving DecidableEq, Repr

def Reader (α : Type) : Type := Bytes → Answer α

namespace Reader

variable {α β : Type}

def pure (a : α) : Reader α := fun b => .ok a b

def bind (r : Reader α) (f : α → Reader β) : Reader β := fun b =>
  match r b with
  | .ok a rest => f a rest
  | .incomplete => .incomplete
  | .bad => .bad

instance : Monad Reader where
  pure := pure
  bind := bind

def refuse : Reader α := fun _ => .bad

/-- The next byte, which stays unread. -/
def peek : Reader UInt8
  | [] => .incomplete
  | c :: b => .ok c (c :: b)

/-- The next byte has to be `c`. -/
def expect (c : UInt8) : Reader Unit
  | [] => .incomplete
  | x :: b => if x = c then .ok () b else .bad

/-- The bytes before the first one that `stop` accepts, each of which has to be `good`. -/
def before (stop good : UInt8 → Bool) : Reader Bytes
  | [] => .incomplete
  | c :: b =>
    if stop c then .ok [] (c :: b)
    else if good c then
      match before stop good b with
      | .ok a rest => .ok (c :: a) rest
      | .incomplete => .incomplete
      | .bad => .bad
    else .bad

/-- The end of a line: a newline, or a carriage return and a newline. -/
def lineEnd : Reader Unit
  | [] => .incomplete
  | c :: b => if c = 13 then expect newline b else if c = newline then .ok () b else .bad

/-! ## Answers that more bytes do not change -/

/-- More bytes change neither what has been read nor that it is malformed. -/
def Stable (r : Reader α) : Prop :=
  ∀ b x, (∀ a rest, r b = .ok a rest → r (b ++ x) = .ok a (rest ++ x)) ∧ (r b = .bad → r (b ++ x) = .bad)

theorem Stable.pure {a : α} : Stable (Pure.pure a : Reader α) := by
  intro b x
  refine ⟨fun a' rest h => ?_, fun h => nomatch h⟩
  cases h
  rfl

theorem Stable.refuse : Stable (refuse : Reader α) := fun _ _ => ⟨fun _ _ h => (nomatch h), fun _ => rfl⟩

theorem Stable.bind {r : Reader α} {f : α → Reader β} (hr : Stable r) (hf : ∀ a, Stable (f a)) : Stable (r >>= f) := by
  intro b x
  change (∀ a rest, Reader.bind r f b = .ok a rest → Reader.bind r f (b ++ x) = .ok a (rest ++ x)) ∧
    (Reader.bind r f b = .bad → Reader.bind r f (b ++ x) = .bad)
  unfold Reader.bind
  cases h : r b with
  | ok a rest =>
    rw [(hr b x).1 a rest h]
    exact hf a rest x
  | incomplete => exact ⟨fun _ _ h => (nomatch h), fun h => (nomatch h)⟩
  | bad =>
    rw [(hr b x).2 h]
    exact ⟨fun _ _ h => (nomatch h), fun _ => rfl⟩

theorem Stable.ite {p : Prop} [Decidable p] {r r' : Reader α} (h : Stable r) (h' : Stable r') :
    Stable (if p then r else r') := by
  split_ifs
  · exact h
  · exact h'

/-- A reader that looks at the first byte only. -/
theorem Stable.cons {r : Reader α} (h0 : r [] = .incomplete)
    (h : ∀ c b x, (∀ a rest, r (c :: b) = .ok a rest → r (c :: (b ++ x)) = .ok a (rest ++ x)) ∧
      (r (c :: b) = .bad → r (c :: (b ++ x)) = .bad)) : Stable r := by
  intro b x
  cases b with
  | nil =>
    rw [h0]
    exact ⟨fun _ _ h => (nomatch h), fun h => (nomatch h)⟩
  | cons c b => exact h c b x

theorem Stable.peek : Stable peek := by
  refine Stable.cons rfl fun c b x => ⟨fun a rest h => ?_, fun h => nomatch h⟩
  cases h
  rfl

theorem Stable.expect {c : UInt8} : Stable (expect c) := by
  refine Stable.cons rfl fun y b x => ?_
  simp only [Reader.expect]
  split_ifs
  · refine ⟨fun a rest h => ?_, fun h => nomatch h⟩
    cases h
    rfl
  · exact ⟨fun _ _ h => (nomatch h), fun _ => rfl⟩

theorem Stable.before {stop good : UInt8 → Bool} : Stable (before stop good) := by
  intro b x
  induction b with
  | nil => exact ⟨fun _ _ h => (nomatch h), fun h => (nomatch h)⟩
  | cons c b ih =>
    simp only [List.cons_append, Reader.before]
    by_cases hs : stop c = true
    · simp only [hs, if_true]
      refine ⟨fun a rest h => ?_, fun h => nomatch h⟩
      cases h
      rfl
    by_cases hg : good c = true
    · simp only [hs, hg, if_true, Bool.false_eq_true, if_false]
      cases h : Reader.before stop good b with
      | ok a rest =>
        rw [ih.1 a rest h]
        refine ⟨fun a' rest' h => ?_, fun h => nomatch h⟩
        cases h
        rfl
      | incomplete => exact ⟨fun _ _ h => (nomatch h), fun h => (nomatch h)⟩
      | bad =>
        rw [ih.2 h]
        exact ⟨fun _ _ h => (nomatch h), fun _ => rfl⟩
    · simp only [hs, hg, Bool.false_eq_true, if_false]
      exact ⟨fun _ _ h => (nomatch h), fun _ => trivial⟩

theorem Stable.lineEnd : Stable lineEnd := by
  refine Stable.cons rfl fun c b x => ?_
  simp only [Reader.lineEnd]
  split_ifs
  · exact Stable.expect b x
  · refine ⟨fun a rest h => ?_, fun h => nomatch h⟩
    cases h
    rfl
  · exact ⟨fun _ _ h => (nomatch h), fun _ => rfl⟩

/-! ## Where an answer comes from -/

/-- What has been read depends on the bytes read alone. -/
def Snug (r : Reader α) : Prop := ∀ b a rest, r b = .ok a rest → ∃ k, b = k ++ rest ∧ ∀ x, r (k ++ x) = .ok a x

/-- Snug, and nothing is read from no bytes. -/
def Tight (r : Reader α) : Prop := Snug r ∧ ∀ a rest, r [] ≠ .ok a rest

/-- What has been read depends on the bytes read and the one after them. -/
def Local (r : Reader α) : Prop :=
  ∀ b a c rest, r b = .ok a (c :: rest) → ∃ k, b = k ++ c :: rest ∧ ∀ x, r (k ++ c :: x) = .ok a (c :: x)

theorem bind_eq_ok {r : Reader α} {f : α → Reader β} {b rest : Bytes} {c : β} (h : (r >>= f) b = .ok c rest) :
    ∃ a mid, r b = .ok a mid ∧ f a mid = .ok c rest := by
  change Reader.bind r f b = _ at h
  unfold Reader.bind at h
  cases hr : r b with
  | ok a mid =>
    rw [hr] at h
    exact ⟨a, mid, rfl, h⟩
  | incomplete =>
    rw [hr] at h
    cases h
  | bad =>
    rw [hr] at h
    cases h

theorem bind_of_ok {r : Reader α} {f : α → Reader β} {b mid : Bytes} {a : α} (h : r b = .ok a mid) :
    (r >>= f) b = f a mid := by
  change Reader.bind r f b = _
  unfold Reader.bind
  rw [h]

theorem Snug.pure {a : α} : Snug (Pure.pure a : Reader α) := by
  intro b a' rest h
  cases h
  exact ⟨[], rfl, fun _ => rfl⟩

theorem Snug.bind {r : Reader α} {f : α → Reader β} (hr : Snug r) (hf : ∀ a, Snug (f a)) : Snug (r >>= f) := by
  intro b c rest h
  obtain ⟨a, mid, h1, h2⟩ := bind_eq_ok h
  obtain ⟨k, rfl, hk⟩ := hr b a mid h1
  obtain ⟨k', rfl, hk'⟩ := hf a mid c rest h2
  refine ⟨k ++ k', (List.append_assoc _ _ _).symm, fun x => ?_⟩
  rw [List.append_assoc, bind_of_ok (hk (k' ++ x))]
  exact hk' x

/-- A tight reader reads something. -/
theorem Tight.lt {r : Reader α} (h : Tight r) {b rest : Bytes} {a : α} (hr : r b = .ok a rest) :
    rest.length < b.length := by
  obtain ⟨k, rfl, hk⟩ := h.1 b a rest hr
  cases k with
  | nil => exact absurd (hk []) (h.2 a [])
  | cons c k =>
    rw [List.length_append, List.length_cons]
    omega

theorem Snug.local {r : Reader α} (h : Snug r) : Local r := by
  intro b a c rest hr
  obtain ⟨k, hb, hk⟩ := h b a _ hr
  exact ⟨k, hb, fun x => hk (c :: x)⟩

theorem Tight.bind {r : Reader α} {f : α → Reader β} (hr : Tight r) (hf : ∀ a, Snug (f a)) : Tight (r >>= f) := by
  refine ⟨hr.1.bind hf, fun c rest h => ?_⟩
  obtain ⟨a, mid, h1, -⟩ := bind_eq_ok h
  exact hr.2 a mid h1

theorem Local.pure {a : α} : Local (Pure.pure a : Reader α) := Snug.pure.local

theorem Local.refuse : Local (refuse : Reader α) := fun _ _ _ _ h => nomatch h

theorem Tight.refuse : Tight (refuse : Reader α) := ⟨fun _ _ _ h => (nomatch h), fun _ _ h => (nomatch h)⟩

theorem Local.bind {r : Reader α} {f : α → Reader β} (hr : Local r) (hf : ∀ a, Local (f a)) : Local (r >>= f) := by
  intro b c d rest h
  obtain ⟨a, mid, h1, h2⟩ := bind_eq_ok h
  obtain ⟨k', rfl, hk'⟩ := hf a mid c d rest h2
  cases k' with
  | nil =>
    obtain ⟨k, rfl, hk⟩ := hr b a d rest h1
    refine ⟨k, rfl, fun x => ?_⟩
    rw [bind_of_ok (hk x)]
    exact hk' x
  | cons e k' =>
    obtain ⟨k, rfl, hk⟩ := hr b a e _ h1
    refine ⟨k ++ e :: k', by simp, fun x => ?_⟩
    rw [List.append_assoc, List.cons_append, bind_of_ok (hk (k' ++ d :: x))]
    exact hk' x

/-- A reader that looks one byte ahead, and then one that reads that byte. -/
theorem Local.tight {r : Reader α} {f : α → Reader β} (hr : Local r) (hf : ∀ a, Tight (f a)) : Tight (r >>= f) := by
  have hne : ∀ a mid c rest, r [] = .ok a mid → f a mid ≠ .ok c rest := by
    intro a mid c rest h1 h2
    cases mid with
    | nil => exact (hf a).2 c rest h2
    | cons d mid =>
      obtain ⟨k, hb, -⟩ := hr [] a d mid h1
      exact nomatch (List.append_eq_nil_iff.mp hb.symm).2
  refine ⟨fun b c rest h => ?_, fun c rest h => ?_⟩
  · obtain ⟨a, mid, h1, h2⟩ := bind_eq_ok h
    obtain ⟨k', rfl, hk'⟩ := (hf a).1 mid c rest h2
    cases k' with
    | nil => exact absurd (hk' []) ((hf a).2 c [])
    | cons e k' =>
      obtain ⟨k, rfl, hk⟩ := hr b a e _ h1
      refine ⟨k ++ e :: k', by simp, fun x => ?_⟩
      rw [List.append_assoc, List.cons_append, bind_of_ok (hk (k' ++ x))]
      exact hk' x
  · obtain ⟨a, mid, h1, h2⟩ := bind_eq_ok h
    exact hne a mid c rest h1 h2

theorem Local.ite {p : Prop} [Decidable p] {r r' : Reader α} (h : Local r) (h' : Local r') :
    Local (if p then r else r') := by
  split_ifs
  · exact h
  · exact h'

theorem Tight.ite {p : Prop} [Decidable p] {r r' : Reader α} (h : Tight r) (h' : Tight r') :
    Tight (if p then r else r') := by
  split_ifs
  · exact h
  · exact h'

theorem Local.peek : Local peek := by
  intro b a c rest h
  cases b with
  | nil => cases h
  | cons x b =>
    cases h
    exact ⟨[], rfl, fun _ => rfl⟩

theorem Tight.expect {c : UInt8} : Tight (expect c) := by
  refine ⟨fun b a rest h => ?_, fun _ _ h => nomatch h⟩
  cases b with
  | nil => cases h
  | cons x b =>
    simp only [Reader.expect] at h
    split_ifs at h with hx
    cases h
    exact ⟨[x], rfl, fun y => by simp [Reader.expect, hx]⟩

theorem Tight.lineEnd : Tight lineEnd := by
  refine ⟨fun b a rest h => ?_, fun _ _ h => nomatch h⟩
  cases b with
  | nil => cases h
  | cons c b =>
    simp only [Reader.lineEnd] at h
    split_ifs at h with h1 h2
    · obtain ⟨k, rfl, hk⟩ := Tight.expect.1 b a rest h
      exact ⟨c :: k, rfl, fun y => by simp only [List.cons_append, Reader.lineEnd, if_pos h1, hk y]⟩
    · cases h
      exact ⟨[c], rfl, fun y => by simp only [List.cons_append, List.nil_append, Reader.lineEnd, if_neg h1, if_pos h2]⟩

theorem Local.before {stop good : UInt8 → Bool} : Local (before stop good) := by
  intro b
  induction b with
  | nil => exact fun _ _ _ h => nomatch h
  | cons c b ih =>
    intro a d rest h
    simp only [Reader.before] at h
    split_ifs at h with h1 h2
    · cases h
      exact ⟨[], rfl, fun x => by simp [Reader.before, h1]⟩
    · cases hb : Reader.before stop good b with
      | ok a' rest' =>
        rw [hb] at h
        cases h
        obtain ⟨k, rfl, hk⟩ := ih a' d rest hb
        exact ⟨c :: k, rfl, fun x => by simp [Reader.before, h1, h2, hk x]⟩
      | incomplete =>
        rw [hb] at h
        cases h
      | bad =>
        rw [hb] at h
        cases h

end Reader
