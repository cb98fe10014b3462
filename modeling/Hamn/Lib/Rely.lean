import Hamn.Lib.Crash

/-!
# Rely — processes among others that act at every step

At every step of a process the others have changed the state as a relation allows, its rely, and the process acts on
what it finds.

* `call`, `act`: a step on the state that the others have left, which may fail or not.
* `post`: what holds when a process that never fails returns, and when it is stopped.
* `during R`: a process that changes no more than the others may.
-/

namespace Crash

variable {E σ ε α β : Type}

/-- A step on the state that the others have left at this time, which may fail. -/
def call (now : E → σ → σ) (f : E → σ → Except ε α × σ) : Proc E σ ε α := Proc.step fun c s => f c (now c s)

/-- A step on the state that the others have left at this time. -/
def act (now : E → σ → σ) (f : E → σ → α × σ) : Proc E σ ε α :=
  Proc.step fun c s => (.ok (f c (now c s)).1, (f c (now c s)).2)

section Steps

variable {R : σ → σ → Prop} {now : E → σ → σ} {Q : Post σ ε α} {s : σ}

theorem wp_call (hnow : ∀ c s, R s (now c s)) {f : E → σ → Except ε α × σ} (hstop : Q.stopped s)
    (hok : ∀ c s1 a s2, R s s1 → f c s1 = (.ok a, s2) → Q.ok a s2)
    (herr : ∀ c s1 e s2, R s s1 → f c s1 = (.error e, s2) → Q.error e s2) : wp (call now f) Q s :=
  wp_step hstop (fun c a s2 h => hok c _ a s2 (hnow c s) h) fun c e s2 h => herr c _ e s2 (hnow c s) h

theorem wp_acts (hnow : ∀ c s, R s (now c s)) {f : E → σ → α × σ} (hstop : Q.stopped s)
    (h : ∀ c s', R s s' → Q.ok (f c s').1 (f c s').2) : wp (act now f) Q s := by
  refine wp_step hstop (fun c a s' he => ?_) fun c e s' he => ?_
  · have hc := h c (now c s) (hnow c s)
    obtain ⟨ha, rfl⟩ := Prod.mk.inj he
    obtain rfl := Except.ok.inj ha
    exact hc
  · cases (Prod.mk.inj he).1

end Steps

/-- A process that ends as `ok` says, and is stopped as `stop` says. -/
def post (stop : σ → Prop) (ok : α → σ → Prop) : Post σ Empty α := ⟨ok, fun e _ => e.elim, stop⟩

section Rules

variable {stop stop' : σ → Prop} {ok : α → σ → Prop} {s : σ}

theorem wp_act {now : E → σ → σ} {R : σ → σ → Prop} (hnow : ∀ c s, R s (now c s)) {f : E → σ → α × σ} (hstop : stop s)
    (h : ∀ c s', R s s' → ok (f c s').1 (f c s').2) : wp (act now f) (post stop ok) s :=
  wp_acts hnow hstop h

theorem wp_then {m : Proc E σ Empty α} {f : α → Proc E σ Empty β} {ok' : β → σ → Prop} (hm : wp m (post stop' ok) s)
    (hf : ∀ a s', ok a s' → wp (f a) (post stop ok') s') (hstop : ∀ s', stop' s' → stop s') :
    wp (m >>= f) (post stop ok') s :=
  hm.seq hf (fun e => e.elim) hstop

theorem wp_return {a : α} (h : ok a s) : wp (Pure.pure a : Proc E σ Empty α) (post stop ok) s := wp_pure h

theorem wp.weaken {m : Proc E σ Empty α} {ok' : α → σ → Prop} (hm : wp m (post stop ok) s)
    (h : ∀ a s', ok a s' → ok' a s') (hstop : ∀ s', stop s' → stop' s') : wp m (post stop' ok') s :=
  hm.mono h (fun e => e.elim) hstop

/-- What a run may leave behind. -/
theorem Leads.of_post {m : Proc E σ Empty α} {I : σ → Prop} {s' : σ} (h : Leads m s s') (hm : wp m (post I ok) s)
    (hok : ∀ a s', ok a s' → I s') : I s' :=
  h.of_wp (hm.mono hok (fun e => e.elim) fun _ h => h)

end Rules

/-! ## Processes that only look -/

section During

variable {R : σ → σ → Prop} {s : σ}

/-- A process that leaves a state `R` allows, also when it is stopped. -/
abbrev during (R : σ → σ → Prop) (s : σ) (ok : α → σ → Prop) : Post σ Empty α :=
  post (R s) fun a s' => R s s' ∧ ok a s'

theorem during_mono {m : Proc E σ Empty α} {ok ok' : α → σ → Prop} (hm : wp m (during R s ok) s)
    (h : ∀ a s', R s s' → ok a s' → ok' a s') : wp m (during R s ok') s :=
  hm.weaken (fun a s' h' => ⟨h'.1, h a s' h'.1 h'.2⟩) fun _ h => h

theorem during_act [Std.Refl R] [IsTrans σ R] {now : E → σ → σ} (hnow : ∀ c s, R s (now c s)) {f : E → σ → α × σ}
    {ok : α → σ → Prop} (h : ∀ c s', R s s' → R s' (f c s').2 ∧ ok (f c s').1 (f c s').2) : wp (act now f) (during R s ok) s :=
  wp_act hnow (Std.Refl.refl s) fun c s' hs => ⟨IsTrans.trans _ _ _ hs (h c s' hs).1, (h c s' hs).2⟩

theorem during_then [IsTrans σ R] {m : Proc E σ Empty α} {f : α → Proc E σ Empty β} {ok : α → σ → Prop}
    {ok' : β → σ → Prop} (hm : wp m (during R s ok) s) (hf : ∀ a s', R s s' → ok a s' → wp (f a) (during R s' ok') s') :
    wp (m >>= f) (during R s ok') s :=
  wp_then hm (fun a s' h => (hf a s' h.1 h.2).weaken (fun _ _ h' => ⟨IsTrans.trans _ _ _ h.1 h'.1, h'.2⟩)
    fun _ h' => IsTrans.trans _ _ _ h.1 h') fun _ h => h

theorem during_return [Std.Refl R] {a : α} {ok : α → σ → Prop} (h : ok a s) :
    wp (Pure.pure a : Proc E σ Empty α) (during R s ok) s := wp_return ⟨Std.Refl.refl s, h⟩

end During

end Crash
