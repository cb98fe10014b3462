import Hamn.Agent.Conn

/-!
# Agent.Framing — how requests come out of a stream that arrives in pieces

`try_dispatch` tells the parser how many bytes it has seen before, also when the head was complete and only the body
was missing.  The parser then looks for an empty line from there on, in the body.  So a request comes out of its
pieces as it comes out of the whole exactly when that search, from every point where the agent can wait, ends as the
request needs (`Unhindered`).

* `emptyLine_restart`: a search that found nothing may start again three bytes before the end.
* `InStep`: the connection against the stream it is reading.
* `serve_eq_frames`: an unhindered stream is framed the same however it arrives.
-/

namespace Hamn.Agent

open Bytes Reader

/-! ## The search for an empty line -/

theorem emptyLine_cr (n : Bool) (b : Bytes) :
    emptyLine n (carriageReturn :: newline :: b) = if n then .ok () b else emptyLine true b := by
  rw [emptyLine, if_pos rfl]
  simp

theorem emptyLine_newline (n : Bool) (b : Bytes) :
    emptyLine n (newline :: b) = if n then .ok () b else emptyLine true b := by
  conv_lhs => unfold emptyLine
  rw [if_neg (by decide), if_pos rfl]

theorem emptyLine_other {c : UInt8} (n : Bool) (b : Bytes) (hr : c ≠ carriageReturn) (hn : c ≠ newline) :
    emptyLine n (c :: b) = emptyLine false b := by
  conv_lhs => unfold emptyLine
  rw [if_neg hr, if_neg hn]

theorem emptyLine_bare {d : UInt8} (n : Bool) (b : Bytes) (h : d ≠ newline) :
    emptyLine n (carriageReturn :: d :: b) = .bad := by
  rw [emptyLine, if_pos rfl]
  simp [h]

/-- The four ways in which a text goes on. -/
theorem line_cases (b : Bytes) :
    b = [] ∨ b = [carriageReturn] ∨ (∃ d r, b = carriageReturn :: d :: r ∧ d ≠ newline) ∨
      (∃ r, b = carriageReturn :: newline :: r) ∨ (∃ r, b = newline :: r) ∨
        ∃ c r, b = c :: r ∧ c ≠ carriageReturn ∧ c ≠ newline := by
  cases b with
  | nil => exact Or.inl rfl
  | cons c b =>
    by_cases hc : c = carriageReturn
    · subst hc
      cases b with
      | nil => exact Or.inr (Or.inl rfl)
      | cons d r =>
        by_cases hd : d = newline
        · subst hd
          exact Or.inr (Or.inr (Or.inr (Or.inl ⟨r, rfl⟩)))
        · exact Or.inr (Or.inr (Or.inl ⟨d, r, rfl, hd⟩))
    · by_cases hn : c = newline
      · subst hn
        exact Or.inr (Or.inr (Or.inr (Or.inr (Or.inl ⟨b, rfl⟩))))
      · exact Or.inr (Or.inr (Or.inr (Or.inr (Or.inr ⟨c, b, rfl, hc, hn⟩))))

theorem stable_emptyLine : ∀ (k : ℕ) (n : Bool) (b x : Bytes), b.length ≤ k →
    (∀ a rest, emptyLine n b = .ok a rest → emptyLine n (b ++ x) = .ok a (rest ++ x)) ∧
      (emptyLine n b = .bad → emptyLine n (b ++ x) = .bad)
  | 0, n, b, x, h => by
    obtain rfl := List.eq_nil_of_length_eq_zero (Nat.le_zero.mp h)
    exact ⟨fun _ _ h => (nomatch h), fun h => (nomatch h)⟩
  | k + 1, n, b, x, h => by
    have hend : ∀ r : Bytes, r.length ≤ k →
        (∀ a rest, (if n then Answer.ok () r else emptyLine true r) = .ok a rest →
          (if n then Answer.ok () (r ++ x) else emptyLine true (r ++ x)) = .ok a (rest ++ x)) ∧
        ((if n then Answer.ok () r else emptyLine true r) = .bad →
          (if n then Answer.ok () (r ++ x) else emptyLine true (r ++ x)) = .bad) := by
      intro r hr
      cases n with
      | true =>
        refine ⟨fun a rest h => ?_, fun h => nomatch h⟩
        cases h
        rfl
      | false => exact stable_emptyLine k true r x hr
    rcases line_cases b with rfl | rfl | ⟨d, r, rfl, hd⟩ | ⟨r, rfl⟩ | ⟨r, rfl⟩ | ⟨c, r, rfl, hc, hn⟩
    · exact ⟨fun _ _ h => (nomatch h), fun h => (nomatch h)⟩
    · exact ⟨fun _ _ h => (nomatch h), fun h => (nomatch h)⟩
    · rw [List.cons_append, List.cons_append, emptyLine_bare n r hd, emptyLine_bare n (r ++ x) hd]
      exact ⟨fun _ _ h => (nomatch h), fun _ => rfl⟩
    · rw [List.cons_append, List.cons_append, emptyLine_cr, emptyLine_cr]
      exact hend r (by simp only [List.length_cons] at h; omega)
    · rw [List.cons_append, emptyLine_newline, emptyLine_newline]
      exact hend r (by simp only [List.length_cons] at h; omega)
    · rw [List.cons_append, emptyLine_other n r hc hn, emptyLine_other n (r ++ x) hc hn]
      exact stable_emptyLine k false r x (by simp only [List.length_cons] at h; omega)

/-- A search that found nothing in `a`, and has more than three bytes of it left, may start one byte later. -/
theorem emptyLine_tail {n : Bool} {y : UInt8} {a : Bytes} (x : Bytes) (h : emptyLine n (y :: a) = .incomplete)
    (hlen : 3 ≤ a.length) : emptyLine false a = .incomplete ∧ emptyLine n (y :: (a ++ x)) = emptyLine false (a ++ x) := by
  rcases line_cases (y :: a) with he | he | ⟨d, r, he, hd⟩ | ⟨r, he⟩ | ⟨r, he⟩ | ⟨c, r, he, hc, hn⟩
  · cases he
  · obtain ⟨-, rfl⟩ := List.cons.inj he
    simp at hlen
  · rw [he, emptyLine_bare n r hd] at h
    cases h
  · obtain ⟨rfl, rfl⟩ := List.cons.inj he
    rw [emptyLine_cr] at h
    cases n with
    | true => cases h
    | false =>
      rw [List.cons_append, emptyLine_cr, emptyLine_newline, emptyLine_newline]
      exact ⟨h, rfl⟩
  · obtain ⟨rfl, rfl⟩ := List.cons.inj he
    rw [emptyLine_newline] at h
    cases n with
    | true => cases h
    | false =>
      rw [emptyLine_newline]
      simp only [Bool.false_eq_true, if_false] at h ⊢
      -- After a newline the search goes on at a byte that ends no line, or it would have found something.
      rcases line_cases a with rfl | rfl | ⟨d, r, rfl, hd⟩ | ⟨r, rfl⟩ | ⟨r, rfl⟩ | ⟨c, r, rfl, hc, hn⟩
      · simp at hlen
      · simp at hlen
      · rw [emptyLine_bare true r hd] at h
        cases h
      · rw [emptyLine_cr] at h
        cases h
      · rw [emptyLine_newline] at h
        cases h
      · rw [List.cons_append, emptyLine_other true (r ++ x) hc hn, emptyLine_other false (r ++ x) hc hn,
          emptyLine_other false r hc hn]
        rw [emptyLine_other true r hc hn] at h
        exact ⟨h, rfl⟩
  · obtain ⟨rfl, rfl⟩ := List.cons.inj he
    rw [emptyLine_other n a hc hn] at h
    exact ⟨h, emptyLine_other n (a ++ x) hc hn⟩

/-- A search that found nothing in `a` may start again three bytes before the end of `a`. -/
theorem emptyLine_restart (x : Bytes) : ∀ a : Bytes, emptyLine false a = .incomplete →
    emptyLine false ((a ++ x).drop (a.length - 3)) = emptyLine false (a ++ x)
  | [], _ => rfl
  | y :: a, h => by
    by_cases hlen : 3 ≤ a.length
    · obtain ⟨htail, heq⟩ := emptyLine_tail x h hlen
      rw [List.cons_append, heq, List.length_cons, show a.length + 1 - 3 = (a.length - 3) + 1 by omega, List.drop_succ_cons]
      exact emptyLine_restart x a htail
    · rw [List.length_cons, show a.length + 1 - 3 = 0 by omega, List.drop_zero]

theorem stable_isComplete {lastLen : ℕ} {b : Bytes} (x : Bytes) (h : lastLen ≤ b.length) :
    (∀ a rest, isComplete lastLen b = .ok a rest → isComplete lastLen (b ++ x) = .ok a (rest ++ x)) ∧
      (isComplete lastLen b = .bad → isComplete lastLen (b ++ x) = .bad) := by
  unfold isComplete
  rw [List.drop_append_of_le_length (by omega)]
  exact stable_emptyLine _ false _ x le_rfl

/-- The search after a wait goes on with the search before it. -/
theorem isComplete_restart {lastLen : ℕ} {b : Bytes} (x : Bytes) (hl : lastLen ≤ b.length)
    (h : isComplete lastLen b = .incomplete) : isComplete b.length (b ++ x) = isComplete lastLen (b ++ x) := by
  unfold isComplete at h ⊢
  have hr := emptyLine_restart x _ h
  rw [List.length_drop, ← List.drop_append_of_le_length (by omega), List.drop_drop,
    show lastLen - 3 + (b.length - (lastLen - 3) - 3) = b.length - 3 by omega] at hr
  exact hr

/-! ## Verdicts -/

theorem headVerdict_append {head : PhrRequest} {rest : Bytes} {hdrlen : ℕ} (x : Bytes)
    (h : headVerdict head rest hdrlen ≠ .wait) : headVerdict head (rest ++ x) hdrlen = headVerdict head rest hdrlen := by
  unfold headVerdict at h ⊢
  split_ifs at h ⊢ with h1 h2
  · rfl
  · rfl
  · cases hc : parseContentLength head.headers with
    | none => rfl
    | some clen =>
      rw [hc] at h
      dsimp only at h ⊢
      by_cases h3 : clen > RDBUF_MAX - hdrlen ∨ (httpReqHeader head.headers "Transfer-Encoding").isSome = true
      · rw [if_pos h3, if_pos h3]
      · rw [if_neg h3] at h
        have h4 : ¬ rest.length < clen := fun h4 => h (if_pos h4)
        rw [if_neg h3, if_neg (by rw [List.length_append]; omega), if_neg h3, if_neg h4,
          List.take_append_of_le_length (by omega)]

theorem verdict_zero (b : Bytes) :
    verdict 0 b = match parseRequest b with
      | .incomplete => .wait
      | .bad => .reject
      | .ok head rest => headVerdict head rest (b.length - rest.length) := by
  have hread : phrParseRequest 0 b = parseRequest b := if_pos rfl
  unfold verdict
  generalize phrParseRequest 0 b = answer at hread ⊢
  subst hread
  rfl

/-- Once there is more to say than `wait`, more bytes do not change it. -/
theorem verdict_append {b : Bytes} (x : Bytes) (h : verdict 0 b ≠ .wait) : verdict 0 (b ++ x) = verdict 0 b := by
  rw [verdict_zero] at h ⊢
  rw [verdict_zero]
  cases hp : parseRequest b with
  | incomplete =>
    rw [hp] at h
    exact absurd rfl h
  | bad => rw [(stable_parseRequest b x).2 hp]
  | ok head rest =>
    rw [hp] at h
    dsimp only at h ⊢
    rw [(stable_parseRequest b x).1 head rest hp]
    dsimp only
    have hlt := tight_parseRequest.lt hp
    rw [List.length_append, List.length_append, show b.length + x.length - (rest.length + x.length) =
      b.length - rest.length by omega]
    exact headVerdict_append x h

theorem verdict_take {b : Bytes} {j : ℕ} (h : verdict 0 (b.take j) ≠ .wait) : verdict 0 b = verdict 0 (b.take j) := by
  have := verdict_append (b.drop j) h
  rwa [List.take_append_drop] at this

/-- After a wait the parser may still not be asked. -/
theorem verdict_succ {lastLen : ℕ} {b : Bytes} (h : 0 < lastLen) :
    verdict lastLen b = match isComplete lastLen b with
      | .ok _ _ => verdict 0 b
      | .incomplete => .wait
      | .bad => .reject := by
  rw [verdict_zero]
  unfold verdict phrParseRequest
  rw [if_neg (by omega)]
  cases isComplete lastLen b with
  | ok a rest => rfl
  | incomplete => rfl
  | bad => rfl

/-- A request takes at least one byte, and all of them are there. -/
theorem verdict_request {b : Bytes} {r : HttpReq} {used : ℕ} (h : verdict 0 b = .request r used) :
    0 < used ∧ used ≤ b.length := by
  rw [verdict_zero] at h
  cases hp : parseRequest b with
  | incomplete =>
    rw [hp] at h
    cases h
  | bad =>
    rw [hp] at h
    cases h
  | ok head rest =>
    rw [hp] at h
    dsimp only at h
    have hlt := tight_parseRequest.lt hp
    unfold headVerdict at h
    split_ifs at h
    cases hc : parseContentLength head.headers with
    | none =>
      rw [hc] at h
      cases h
    | some clen =>
      rw [hc] at h
      dsimp only at h
      split_ifs at h with h3 h4
      obtain ⟨-, rfl⟩ := Verdict.request.inj h
      omega

/-- A request found after a wait is the one that the parser finds. -/
theorem verdict_zero_of_request {prevLen : ℕ} {b : Bytes} {r : HttpReq} {used : ℕ}
    (h : verdict prevLen b = .request r used) : verdict 0 b = .request r used := by
  rcases Nat.eq_zero_or_pos prevLen with rfl | hp
  · exact h
  rw [verdict_succ hp] at h
  cases hc : isComplete prevLen b with
  | ok a rest =>
    rw [hc] at h
    exact h
  | incomplete =>
    rw [hc] at h
    cases h
  | bad =>
    rw [hc] at h
    cases h

/-! ## Streams that are not hindered -/

/-- The search for an empty line ends as the verdict needs: it finds one if a request is complete, it does not run into
a bare carriage return if more bytes are needed, and it finds one of them if the bytes are malformed. -/
def Verdict.Allows : Verdict → Answer Unit → Prop
  | .wait, search => search ≠ .bad
  | .reject, search => search ≠ .incomplete
  | _, search => ∃ rest, search = .ok () rest

/-- From every point of `b` where the agent waits, the search for an empty line ends as `b` needs. -/
def Resumes (b : Bytes) : Prop :=
  ∀ seen, 0 < seen → seen < b.length → verdict 0 (b.take seen) = .wait → (verdict 0 b).Allows (isComplete seen b)

section

variable (router : Router)

/-- After these requests this is what is left of the stream. -/
inductive Reached (stream : Bytes) : List HttpReq → Bytes → Prop
  | start : Reached stream [] stream
  | next {requests : List HttpReq} {b : Bytes} {r : HttpReq} {used : ℕ} (h : Reached stream requests b)
      (hv : verdict 0 (b.take RDBUF_MAX) = .request r used) (hr : router (requests ++ [r]) = false)
      (hk : r.keepAlive = true) : Reached stream (requests ++ [r]) (b.drop used)

/-- Every request of the stream can be resumed wherever its bytes are cut. -/
def Unhindered (stream : Bytes) : Prop :=
  ∀ requests b, Reached router stream requests b → Resumes (b.take RDBUF_MAX)

end

section

variable {router : Router} {stream : Bytes}

theorem framesFrom_fuel : ∀ (fuel fuel' : ℕ) (requests : List HttpReq) (b : Bytes), b.length < fuel →
    b.length < fuel' → framesFrom router fuel requests b = framesFrom router fuel' requests b
  | 0, _, _, _, h, _ => absurd h (Nat.not_lt_zero _)
  | _ + 1, 0, _, _, _, h => absurd h (Nat.not_lt_zero _)
  | fuel + 1, fuel' + 1, requests, b, h, h' => by
    unfold framesFrom
    cases hv : verdict 0 (b.take RDBUF_MAX) with
    | wait => rfl
    | reject => rfl
    | tooLong => rfl
    | request r used =>
      dsimp only
      split_ifs
      · rfl
      · rfl
      · have hu := verdict_request hv
        have hb : used ≤ b.length := hu.2.trans (List.length_take_le' _ _)
        have hlen : (b.drop used).length = b.length - used := List.length_drop
        exact framesFrom_fuel fuel fuel' _ _ (by omega) (by omega)

/-- The frames of the stream, seen from a later request. -/
theorem Reached.frames_eq {requests : List HttpReq} {b : Bytes} (h : Reached router stream requests b) :
    frames router stream = framesFrom router (b.length + 1) requests b := by
  induction h with
  | start => rfl
  | @next requests b r used _ hv hr hk ih =>
    have hu := verdict_request hv
    have hb : used ≤ b.length := hu.2.trans (List.length_take_le' _ _)
    have hlen : (b.drop used).length = b.length - used := List.length_drop
    rw [ih]
    conv_lhs => unfold framesFrom
    simp only [hv, hr, hk, Bool.not_true, Bool.false_eq_true, if_false]
    exact framesFrom_fuel _ _ _ _ (by omega) (by omega)

theorem Reached.frames_wait {requests : List HttpReq} {b : Bytes} (h : Reached router stream requests b)
    (hv : verdict 0 (b.take RDBUF_MAX) = .wait) :
    frames router stream = (requests, if b.length ≥ RDBUF_MAX then .overflow else .open) := by
  rw [h.frames_eq, framesFrom, hv]

theorem Reached.frames_reject {requests : List HttpReq} {b : Bytes} (h : Reached router stream requests b)
    (hv : verdict 0 (b.take RDBUF_MAX) = .reject) : frames router stream = (requests, .rejected) := by
  rw [h.frames_eq, framesFrom, hv]

theorem Reached.frames_tooLong {requests : List HttpReq} {b : Bytes} (h : Reached router stream requests b)
    (hv : verdict 0 (b.take RDBUF_MAX) = .tooLong) : frames router stream = (requests, .tooLong) := by
  rw [h.frames_eq, framesFrom, hv]

/-! ## One try -/

/-- A buffer on which the agent waits: nothing, or bytes of which it once waited on the first `seen` and in which the
search from there has found nothing since. -/
inductive Waiting : Bytes → ℕ → Prop
  | empty : Waiting [] 0
  | bytes {buf : Bytes} {seen : ℕ} (h0 : 0 < seen) (hl : seen ≤ buf.length) (hw : verdict 0 (buf.take seen) = .wait)
      (hs : seen = buf.length ∨ isComplete seen buf = .incomplete) : Waiting buf buf.length

/-- A buffer before a try: the first one for this request, or one whose search continues that from `seen`. -/
inductive Trying : Bytes → ℕ → Prop
  | first {buf : Bytes} : Trying buf 0
  | again {buf : Bytes} {prevLen seen : ℕ} (hp : 0 < prevLen) (h0 : 0 < seen) (hl : seen < buf.length)
      (hw : verdict 0 (buf.take seen) = .wait) (hs : isComplete prevLen buf = isComplete seen buf) : Trying buf prevLen

theorem Waiting.receive {buf x : Bytes} {prevLen : ℕ} (h : Waiting buf prevLen) (hx : x ≠ []) :
    Trying (buf ++ x) prevLen := by
  cases h with
  | empty => exact .first
  | bytes h0 hl hw hs =>
    have hpos := List.length_pos_of_ne_nil hx
    refine .again (by omega) h0 (by rw [List.length_append]; omega) ?_ ?_
    · rwa [List.take_append_of_le_length hl]
    · rcases hs with rfl | hs
      · rfl
      · exact isComplete_restart x hl hs

theorem Waiting.of_verdict {buf : Bytes} (h : verdict 0 buf = .wait) (hne : buf ≠ []) : Waiting buf buf.length :=
  .bytes (List.length_pos_of_ne_nil hne) le_rfl (by rwa [List.take_length]) (Or.inl rfl)

/-- A try on the first bytes of something that resumes: wait, or the verdict on the whole. -/
theorem Trying.verdict_eq {buf y : Bytes} {prevLen : ℕ} (h : Trying buf prevLen) (hne : buf ≠ [])
    (hr : prevLen = 0 ∨ Resumes (buf ++ y)) :
    (verdict prevLen buf = .wait ∧ Waiting buf buf.length) ∨
      (verdict prevLen buf = verdict 0 (buf ++ y) ∧ verdict prevLen buf ≠ .wait) := by
  have hfirst : (verdict 0 buf = .wait ∧ Waiting buf buf.length) ∨
      (verdict 0 buf = verdict 0 (buf ++ y) ∧ verdict 0 buf ≠ .wait) := by
    by_cases hw : verdict 0 buf = .wait
    · exact Or.inl ⟨hw, .of_verdict hw hne⟩
    · exact Or.inr ⟨(verdict_append y hw).symm, hw⟩
  cases h with
  | first => exact hfirst
  | again hp h0 hl hw hs =>
    rename_i seen
    have hr := hr.resolve_left (by omega) seen h0 (by rw [List.length_append]; omega)
      (by rwa [List.take_append_of_le_length hl.le])
    rw [verdict_succ hp, hs]
    cases hc : isComplete seen buf with
    | ok a rest => exact hfirst
    | incomplete => exact Or.inl ⟨rfl, .bytes h0 hl.le hw (Or.inr hc)⟩
    | bad =>
      have hbad := (stable_isComplete y hl.le).2 hc
      rw [hbad] at hr
      refine Or.inr ⟨?_, nofun⟩
      cases hv : verdict 0 (buf ++ y) with
      | wait =>
        rw [hv] at hr
        exact absurd rfl hr
      | reject => rfl
      | tooLong =>
        rw [hv] at hr
        obtain ⟨rest, hrest⟩ := hr
        cases hrest
      | request r used =>
        rw [hv] at hr
        obtain ⟨rest, hrest⟩ := hr
        cases hrest

/-! ## The loops -/

/-- The connection is open, after these requests, and waits. -/
structure InStep (router : Router) (stream : Bytes) (c : Conn) (future : Bytes) : Prop where
  status : c.status = .open
  reached : Reached router stream c.requests (c.buf ++ future)
  waiting : Waiting c.buf c.prevLen

/-- The connection has ended as the stream says. -/
def Ended (router : Router) (stream : Bytes) (c : Conn) : Prop :=
  c.status ≠ .open ∧ (c.requests, c.status) = frames router stream

theorem take_max {buf future : Bytes} (h : buf.length ≤ RDBUF_MAX) :
    (buf ++ future).take RDBUF_MAX = buf ++ future.take (RDBUF_MAX - buf.length) := by
  rw [List.take_append, List.take_of_length_le h]

/-- The loop after a read: it ends with the connection, or waits; only the first try can be one that resumes. -/
theorem drain_spec (future : Bytes) : ∀ (fuel : ℕ) (c : Conn), c.buf.length ≤ fuel → c.buf ≠ [] →
    c.buf.length ≤ RDBUF_MAX → c.status = .open → Reached router stream c.requests (c.buf ++ future) →
    Trying c.buf c.prevLen → (c.prevLen = 0 ∨ Resumes ((c.buf ++ future).take RDBUF_MAX)) →
    (drain router fuel c).cap = c.cap ∧ (drain router fuel c).buf.length ≤ c.buf.length ∧
      (Ended router stream (drain router fuel c) ∨ InStep router stream (drain router fuel c) future)
  | 0, c, hf, hne, _, _, _, _, _ => absurd (List.eq_nil_of_length_eq_zero (Nat.le_zero.mp hf)) hne
  | fuel + 1, c, hf, hne, hmax, hopen, hreached, htry, hres => by
    have htake := @take_max c.buf future hmax
    rw [htake] at hres
    rcases htry.verdict_eq hne hres with ⟨hv, hw⟩ | ⟨hv, hne'⟩
    · have ht : tryDispatch router c = ({ c with prevLen := c.buf.length }, false) := by
        rw [tryDispatch, hv]
      rw [drain, ht]
      exact ⟨rfl, le_rfl, Or.inr ⟨hopen, hreached, hw⟩⟩
    rw [← htake] at hv
    cases hvd : verdict c.prevLen c.buf with
    | wait => exact absurd hvd hne'
    | reject =>
      have ht : tryDispatch router c = ({ c with status := .rejected }, false) := by
        rw [tryDispatch, hvd]
      rw [drain, ht]
      exact ⟨rfl, le_rfl, Or.inl ⟨nofun, (hreached.frames_reject (hv.symm.trans hvd)).symm⟩⟩
    | tooLong =>
      have ht : tryDispatch router c = ({ c with status := .tooLong }, false) := by
        rw [tryDispatch, hvd]
      rw [drain, ht]
      exact ⟨rfl, le_rfl, Or.inl ⟨nofun, (hreached.frames_tooLong (hv.symm.trans hvd)).symm⟩⟩
    | request r used =>
      have hframes := hreached.frames_eq
      rw [framesFrom, ← hv, hvd] at hframes
      dsimp only at hframes
      by_cases hr : router (c.requests ++ [r]) = true
      · have ht : tryDispatch router c = ({ c with requests := c.requests ++ [r], status := .handedOff }, false) := by
          rw [tryDispatch, hvd]
          simp [afterDispatch, hr]
        rw [if_pos hr] at hframes
        rw [drain, ht]
        exact ⟨rfl, le_rfl, Or.inl ⟨nofun, hframes.symm⟩⟩
      by_cases hk : r.keepAlive = true
      · have ht : tryDispatch router c =
            ({ c with requests := c.requests ++ [r], buf := c.buf.drop used, prevLen := 0 }, true) := by
          rw [tryDispatch, hvd]
          simp [afterDispatch, hr, hk, hopen]
        have hfit := (verdict_request (verdict_zero_of_request hvd)).2
        have hused := (verdict_request (verdict_zero_of_request hvd)).1
        have hnext : Reached router stream (c.requests ++ [r]) (c.buf.drop used ++ future) := by
          have := Reached.next hreached (hv.symm.trans hvd) (by simpa using hr) hk
          rwa [List.drop_append_of_le_length hfit] at this
        have hlen : (c.buf.drop used).length = c.buf.length - used := List.length_drop
        rw [drain, ht]
        dsimp only
        by_cases hempty : c.buf.drop used = []
        · rw [if_pos hempty]
          refine ⟨rfl, by rw [hlen]; omega, Or.inr ⟨hopen, hnext, ?_⟩⟩
          dsimp only
          rw [hempty]
          exact .empty
        · rw [if_neg hempty]
          obtain ⟨h1, h2, h3⟩ := drain_spec future fuel
            { c with requests := c.requests ++ [r], buf := c.buf.drop used, prevLen := 0 } (by rw [hlen]; omega) hempty
            (by rw [hlen]; omega) hopen hnext .first (Or.inl rfl)
          exact ⟨h1, h2.trans (by rw [hlen]; omega), h3⟩
      · have ht : tryDispatch router c = ({ c with requests := c.requests ++ [r], status := .finished }, false) := by
          rw [tryDispatch, hvd]
          simp [afterDispatch, hr, hk]
        rw [if_neg hr, if_pos (by simpa using hk)] at hframes
        rw [drain, ht]
        exact ⟨rfl, le_rfl, Or.inl ⟨nofun, hframes.symm⟩⟩

theorem Waiting.verdict_eq {buf : Bytes} {prevLen : ℕ} (h : Waiting buf prevLen) (hr : Resumes buf) :
    verdict 0 buf = .wait := by
  cases h with
  | empty => rfl
  | bytes h0 hl hw hs =>
    rename_i seen
    by_cases hlt : seen = buf.length
    · rwa [hlt, List.take_length] at hw
    have hc := hs.resolve_left hlt
    have hr := hr seen h0 (by omega) hw
    rw [hc] at hr
    cases hv : verdict 0 buf with
    | wait => rfl
    | reject =>
      rw [hv] at hr
      exact absurd rfl hr
    | tooLong =>
      rw [hv] at hr
      obtain ⟨rest, hrest⟩ := hr
      cases hrest
    | request r used =>
      rw [hv] at hr
      obtain ⟨rest, hrest⟩ := hr
      cases hrest

/-- The buffer has been doubled some times, and holds what it holds. -/
def Fits (c : Conn) : Prop := c.buf.length ≤ c.cap ∧ ∃ k, k ≤ 6 ∧ c.cap = RDBUF_INIT * 2 ^ k

theorem Fits.le_max {c : Conn} (h : Fits c) : c.cap ≤ RDBUF_MAX := by
  obtain ⟨-, k, hk, hc⟩ := h
  calc c.cap = RDBUF_INIT * 2 ^ k := hc
    _ ≤ RDBUF_INIT * 2 ^ 6 := Nat.mul_le_mul_left _ (Nat.pow_le_pow_right (by decide) hk)
    _ = RDBUF_MAX := by decide

/-- A buffer that is not at its limit has room once it has been doubled. -/
theorem Fits.grow {c : Conn} (h : Fits c) (hfull : ¬ (c.buf.length = c.cap ∧ c.cap ≥ RDBUF_MAX)) :
    Fits (Agent.grow c) ∧ c.buf.length < (Agent.grow c).cap ∧ c.buf.length < RDBUF_MAX := by
  have hmax := h.le_max
  obtain ⟨hl, k, hk, hc⟩ := h
  unfold Agent.grow
  split_ifs with heq
  · have hpos : 0 < c.cap := by
      rw [hc]
      exact Nat.mul_pos (by decide) (Nat.two_pow_pos k)
    have hk6 : k ≠ 6 := by
      rintro rfl
      exact hfull ⟨heq, hc ▸ by decide⟩
    refine ⟨⟨by dsimp only; omega, k + 1, by omega, ?_⟩, by dsimp only; omega, by omega⟩
    dsimp only
    rw [hc, pow_succ, Nat.mul_assoc]
  · exact ⟨⟨hl, k, hk, hc⟩, by omega, by omega⟩

theorem InStep.grow {c : Conn} {future : Bytes} (h : InStep router stream c future) :
    InStep router stream (Agent.grow c) future := by
  unfold Agent.grow
  split_ifs
  · exact ⟨h.status, h.reached, h.waiting⟩
  · exact h

theorem grow_buf (c : Conn) : (grow c).buf = c.buf := by
  unfold grow
  split_ifs <;> rfl

theorem readLoop_succ (fuel : ℕ) (c : Conn) (available : Bytes) :
    readLoop router (fuel + 1) c available =
      if c.status ≠ .open then c
      else if c.buf.length = c.cap ∧ c.cap ≥ RDBUF_MAX then { c with status := .overflow }
      else if available = [] then grow c
      else readLoop router fuel (receive router (grow c) (available.take ((grow c).cap - c.buf.length)))
        (available.drop ((grow c).cap - c.buf.length)) := by
  cases available with
  | nil => rfl
  | cons x xs => rfl

theorem readLoop_of_ended {fuel : ℕ} {c : Conn} {available : Bytes} (h : c.status ≠ .open) :
    readLoop router (fuel + 1) c available = c := by
  rw [readLoop_succ, if_pos h]

/-- One wake-up: the connection has ended, or waits with room in its buffer. -/
theorem readLoop_spec (hu : Unhindered router stream) (future : Bytes) : ∀ (fuel : ℕ) (c : Conn) (available : Bytes),
    available.length < fuel → InStep router stream c (available ++ future) → Fits c →
    Ended router stream (readLoop router fuel c available) ∨
      (InStep router stream (readLoop router fuel c available) future ∧ Fits (readLoop router fuel c available) ∧
        (readLoop router fuel c available).buf.length < RDBUF_MAX)
  | 0, _, _, hf, _, _ => absurd hf (Nat.not_lt_zero _)
  | fuel + 1, c, available, hf, hin, hfits => by
    rw [readLoop_succ, if_neg (by simp [hin.status])]
    by_cases hfull : c.buf.length = c.cap ∧ c.cap ≥ RDBUF_MAX
    · rw [if_pos hfull]
      have hlen : c.buf.length = RDBUF_MAX := by
        have := hfits.le_max
        omega
      have htake : (c.buf ++ (available ++ future)).take RDBUF_MAX = c.buf := List.take_left' hlen
      have hv := hin.waiting.verdict_eq (htake ▸ hu _ _ hin.reached)
      refine Or.inl ⟨nofun, ?_⟩
      rw [hin.reached.frames_wait (by rw [htake]; exact hv), if_pos (by rw [List.length_append]; omega)]
    rw [if_neg hfull]
    obtain ⟨hfits', hroom, hmax⟩ := hfits.grow hfull
    cases available with
    | nil =>
      rw [if_pos rfl]
      exact Or.inr ⟨hin.grow, hfits', by rw [grow_buf]; exact hmax⟩
    | cons x xs =>
      rw [if_neg (List.cons_ne_nil x xs)]
      set n := (grow c).cap - c.buf.length with hn
      set bytes := (x :: xs).take n with hbytes
      have hbytes_ne : bytes ≠ [] := by
        rw [hbytes, show n = (n - 1) + 1 by omega, List.take_succ_cons]
        exact List.cons_ne_nil _ _
      have hbytes_len : bytes.length ≤ n := List.length_take_le _ _
      have hcap := hfits'.le_max
      have hreached : Reached router stream (grow c).requests
          (((grow c).buf ++ bytes) ++ ((x :: xs).drop n ++ future)) := by
        rw [List.append_assoc, ← List.append_assoc bytes, List.take_append_drop]
        exact hin.grow.reached
      have hlen : ((grow c).buf ++ bytes).length ≤ (grow c).cap := by
        rw [List.length_append, grow_buf]
        omega
      obtain ⟨h1, h2, h3⟩ := drain_spec ((x :: xs).drop n ++ future) ((grow c).buf.length + bytes.length)
        { grow c with buf := (grow c).buf ++ bytes } (by rw [List.length_append]) (by simp [hbytes_ne])
        (hlen.trans hcap) hin.grow.status hreached (hin.grow.waiting.receive hbytes_ne) (Or.inr (hu _ _ hreached))
      have hdrop : ((x :: xs).drop n).length < fuel := by
        rw [List.length_drop]
        have := hf
        simp only [List.length_cons] at this ⊢
        omega
      rcases h3 with hend | hstep
      · refine Or.inl ?_
        obtain ⟨m, rfl⟩ : ∃ m, fuel = m + 1 := ⟨fuel - 1, by omega⟩
        rw [receive, readLoop_of_ended hend.1]
        exact hend
      · exact readLoop_spec hu future fuel _ _ hdrop hstep ⟨h2.trans (hlen.trans (le_of_eq h1.symm)),
          by rw [receive, h1]; exact hfits'.2⟩

/-- A whole connection. -/
theorem foldl_spec (hu : Unhindered router stream) : ∀ (chunks : List Bytes) (c : Conn),
    (Ended router stream c ∨ (InStep router stream c chunks.flatten ∧ Fits c ∧ c.buf.length < RDBUF_MAX)) →
    (Ended router stream (chunks.foldl (onReadable router) c) ∨
      (InStep router stream (chunks.foldl (onReadable router) c) [] ∧
        (chunks.foldl (onReadable router) c).buf.length < RDBUF_MAX))
  | [], _, h => h.imp id fun h => ⟨h.1, h.2.2⟩
  | chunk :: chunks, c, h => by
    refine foldl_spec hu chunks (onReadable router c chunk) ?_
    rcases h with h | ⟨hin, hfits, -⟩
    · refine Or.inl ?_
      rw [onReadable, readLoop_of_ended h.1]
      exact h
    · exact readLoop_spec hu chunks.flatten _ c chunk (Nat.lt_succ_self _) hin hfits

/-- What a connection has given to the router, and how it stands. -/
def Conn.outcome (c : Conn) : List HttpReq × Status := (c.requests, c.status)

/-- **An unhindered stream is framed the same however it arrives.** -/
theorem serve_eq_frames (hu : Unhindered router stream) (chunks : List Bytes) (h : chunks.flatten = stream) :
    (serve router chunks).outcome = frames router stream := by
  subst h
  have hstart : InStep router chunks.flatten connNew chunks.flatten := ⟨rfl, .start, .empty⟩
  rcases foldl_spec hu chunks connNew (Or.inr ⟨hstart, ⟨Nat.zero_le _, 0, by decide, rfl⟩, by decide⟩) with h | ⟨hin, hmax⟩
  · exact h.2
  · have hreached := hin.reached
    rw [List.append_nil] at hreached
    have htake : (chunks.foldl (onReadable router) connNew).buf.take RDBUF_MAX =
        (chunks.foldl (onReadable router) connNew).buf := List.take_of_length_le hmax.le
    have hv := hin.waiting.verdict_eq (htake ▸ hu _ _ hreached)
    rw [hreached.frames_wait (by rw [htake]; exact hv), if_neg (by omega)]
    exact Prod.ext rfl hin.status

/-! ## Streams that are hindered -/

/-- A request is found as soon as its own bytes are there. -/
theorem verdict_take_of_request {b : Bytes} {r : HttpReq} {used j : ℕ} (h : verdict 0 b = .request r used)
    (hj : used ≤ j) : verdict 0 (b.take j) = .request r used := by
  rw [verdict_zero] at h ⊢
  cases hp : parseRequest b with
  | incomplete =>
    rw [hp] at h
    cases h
  | bad =>
    rw [hp] at h
    cases h
  | ok head rest =>
    rw [hp] at h
    dsimp only at h
    obtain ⟨k, rfl, hk⟩ := tight_parseRequest.1 b head rest hp
    have hlen : (k ++ rest).length - rest.length = k.length := by
      rw [List.length_append]
      omega
    rw [hlen] at h
    -- The head fits into `j` bytes, because the request does.
    have hbody : ∃ clen, used = k.length + clen ∧ clen ≤ rest.length ∧
        ∀ rest', clen ≤ rest'.length → rest'.take clen = rest.take clen → headVerdict head rest' k.length = .request r used := by
      unfold headVerdict at h
      split_ifs at h with h1 h2
      cases hc : parseContentLength head.headers with
      | none =>
        rw [hc] at h
        cases h
      | some clen =>
        rw [hc] at h
        dsimp only at h
        split_ifs at h with h3 h4
        obtain ⟨rfl, rfl⟩ := Verdict.request.inj h
        refine ⟨clen, rfl, by omega, fun rest' hl ht => ?_⟩
        rw [headVerdict, if_neg h1, if_neg h2, hc]
        dsimp only
        rw [if_neg h3, if_neg (by omega), ht]
    obtain ⟨clen, rfl, hcl, hv⟩ := hbody
    have htake : (k ++ rest).take j = k ++ rest.take (j - k.length) := by
      rw [List.take_append, List.take_of_length_le (by omega)]
    rw [htake, hk]
    dsimp only
    rw [show (k ++ rest.take (j - k.length)).length - (rest.take (j - k.length)).length = k.length by
      rw [List.length_append]; omega]
    refine hv _ ?_ ?_
    · rw [List.length_take]
      omega
    · rw [List.take_take, min_eq_left (by omega)]

theorem framesFrom_extends : ∀ (fuel : ℕ) (requests : List HttpReq) (b : Bytes),
    requests <+: (framesFrom router fuel requests b).1
  | 0, _, _ => List.prefix_rfl
  | fuel + 1, requests, b => by
    unfold framesFrom
    split
    · exact List.prefix_rfl
    · exact List.prefix_rfl
    · exact List.prefix_rfl
    · split_ifs
      · exact List.prefix_append _ _
      · exact List.prefix_append _ _
      · exact (List.prefix_append _ _).trans (framesFrom_extends fuel _ _)

theorem Reached.frames_request {requests : List HttpReq} {b : Bytes} {r : HttpReq} {used : ℕ}
    (h : Reached router stream requests b) (hv : verdict 0 (b.take RDBUF_MAX) = .request r used) :
    (requests ++ [r]) <+: (frames router stream).1 := by
  rw [h.frames_eq, framesFrom, hv]
  dsimp only
  split_ifs
  · exact List.prefix_rfl
  · exact List.prefix_rfl
  · exact framesFrom_extends _ _ _

theorem Reached.suffix {requests : List HttpReq} {b : Bytes} (h : Reached router stream requests b) :
    b <:+ stream := by
  induction h with
  | start => exact List.suffix_rfl
  | next _ _ _ _ ih => exact (List.drop_suffix _ _).trans ih

/-- From the first bytes of a short stream in one piece, the requests before `b` come out, and then `b` is tried. -/
theorem drain_reached {requests : List HttpReq} {b : Bytes} (h : Reached router stream requests b)
    (hs : stream.length ≤ RDBUF_MAX) (cap : ℕ) : ∀ t fuel, 0 < t → t ≤ b.length →
    stream.length - b.length + t ≤ fuel → ∃ fuel', t ≤ fuel' ∧ drain router fuel ⟨stream.take (stream.length - b.length + t), 0, cap, [], .open⟩ =
      drain router fuel' ⟨b.take t, 0, cap, requests, .open⟩ := by
  induction h with
  | start =>
    intro t fuel ht htb hfuel
    exact ⟨fuel, by omega, by rw [Nat.sub_self, Nat.zero_add]⟩
  | @next requests b r used h hv hr hk ih =>
    intro t fuel ht htb hfuel
    have hb := h.suffix.length_le
    rw [List.take_of_length_le (hb.trans hs)] at hv
    obtain ⟨hu0, hu⟩ := verdict_request hv
    rw [List.length_drop] at htb hfuel ⊢
    obtain ⟨fuel', hf', he⟩ := ih (used + t) fuel (by omega) (by omega) (by omega)
    obtain ⟨m, rfl⟩ : ∃ m, fuel' = m + 1 := ⟨fuel' - 1, by omega⟩
    refine ⟨m, by omega, ?_⟩
    rw [show stream.length - (b.length - used) + t = stream.length - b.length + (used + t) by omega, he]
    have ht' : tryDispatch router ⟨b.take (used + t), 0, cap, requests, .open⟩ =
        (⟨(b.drop used).take t, 0, cap, requests ++ [r], .open⟩, true) := by
      rw [tryDispatch, verdict_take_of_request hv (Nat.le_add_right used t)]
      have hdrop : (b.take (used + t)).drop used = (b.drop used).take t := by
        rw [List.drop_take, Nat.add_sub_cancel_left]
      simp [afterDispatch, hr, hk, hdrop]
    rw [drain, ht']
    dsimp only
    rw [if_neg]
    intro hnil
    have := congrArg List.length hnil
    rw [List.length_take, List.length_drop, List.length_nil] at this
    omega

/-- One wake-up with bytes that fit into the buffer: one read. -/
theorem onReadable_fits {c : Conn} {available : Bytes} (ho : c.status = .open) (hne : available ≠ [])
    (hlt : c.buf.length + available.length ≤ c.cap) :
    ∃ fuel, onReadable router c available = readLoop router (fuel + 1) (receive router c available) [] := by
  have hpos := List.length_pos_of_ne_nil hne
  have hgrow : grow c = c := by
    rw [grow, if_neg (by omega)]
  rw [onReadable, readLoop_succ, if_neg (by simp [ho]), if_neg (by omega), if_neg hne, hgrow,
    List.take_of_length_le (by omega), List.drop_of_length_le (by omega)]
  exact ⟨available.length - 1, by rw [Nat.sub_add_cancel hpos]⟩

theorem readLoop_nil {fuel : ℕ} {c : Conn} (h : c.buf.length < RDBUF_MAX) :
    (readLoop router (fuel + 1) c []).outcome = c.outcome ∧
      (c.status = .open → readLoop router (fuel + 1) c [] = grow c) := by
  rw [readLoop_succ]
  by_cases ho : c.status = .open
  · rw [if_neg (by simp [ho]), if_neg (by omega), if_pos rfl]
    refine ⟨?_, fun _ => rfl⟩
    unfold grow
    split_ifs <;> rfl
  · rw [if_pos ho]
    exact ⟨rfl, fun h => absurd h ho⟩

/-- A stream that is hindered somewhere comes out differently when it is cut there. -/
theorem serve_ne_frames (hs : stream.length ≤ RDBUF_INIT) {requests : List HttpReq} {b : Bytes}
    (h : Reached router stream requests b) {seen : ℕ} (h0 : 0 < seen) (hl : seen < b.length)
    (hw : verdict 0 (b.take seen) = .wait)
    (hr : ¬ (verdict 0 b).Allows (isComplete seen b)) :
    ∃ chunks : List Bytes, chunks.flatten = stream ∧ (serve router chunks).outcome ≠ frames router stream := by
  have hb := h.suffix.length_le
  have hmax : stream.length ≤ RDBUF_MAX := hs.trans (by decide)
  have hlt : b.length < RDBUF_MAX := lt_of_le_of_lt (hb.trans hs) (by decide)
  have hdrop : stream.drop (stream.length - b.length + seen) = b.drop seen := by
    rw [← List.drop_drop, ← List.suffix_iff_eq_drop.mp h.suffix]
  have hseen : (b.take seen).length = seen := by
    rw [List.length_take]
    omega
  set n := stream.length - b.length + seen with hn
  have htake : (stream.take n).length = n := by
    rw [List.length_take]
    omega
  -- The first piece ends inside `b`, on which the agent waits.
  have hfirst : onReadable router connNew (stream.take n) = ⟨b.take seen, seen, RDBUF_INIT, requests, .open⟩ := by
    obtain ⟨fuel, he⟩ := @onReadable_fits router connNew (stream.take n) rfl
      (List.ne_nil_of_length_pos (by omega)) (by rw [htake]; simp only [connNew, List.length_nil]; omega)
    obtain ⟨fuel', hf', hd⟩ := drain_reached h hmax RDBUF_INIT seen n h0 hl.le le_rfl
    obtain ⟨m, rfl⟩ : ∃ m, fuel' = m + 1 := ⟨fuel' - 1, by omega⟩
    have hreceive : receive router connNew (stream.take n) = ⟨b.take seen, seen, RDBUF_INIT, requests, .open⟩ := by
      have ht : tryDispatch router ⟨b.take seen, 0, RDBUF_INIT, requests, .open⟩ =
          (⟨b.take seen, seen, RDBUF_INIT, requests, .open⟩, false) := by
        rw [tryDispatch, hw]
        simp only [hseen]
      change drain router (0 + (stream.take n).length) ⟨stream.take n, 0, RDBUF_INIT, [], .open⟩ = _
      rw [htake, Nat.zero_add, hd, drain, ht]
    have hgrow : grow ⟨b.take seen, seen, RDBUF_INIT, requests, .open⟩ =
        (⟨b.take seen, seen, RDBUF_INIT, requests, .open⟩ : Conn) := by
      rw [grow, if_neg]
      dsimp only
      omega
    rw [he, hreceive, (readLoop_nil (by dsimp only; omega)).2 rfl, hgrow]
  -- The second piece completes it, but the search decides what becomes of it.
  have hsecond : ∃ fuel, serve router [stream.take n, stream.drop n] =
      readLoop router (fuel + 1) (drain router b.length ⟨b, seen, RDBUF_INIT, requests, .open⟩) [] := by
    have hlen : (b.drop seen).length = b.length - seen := List.length_drop
    obtain ⟨fuel, he⟩ := @onReadable_fits router ⟨b.take seen, seen, RDBUF_INIT, requests, .open⟩ (b.drop seen) rfl
      (List.ne_nil_of_length_pos (by omega)) (by dsimp only; omega)
    refine ⟨fuel, ?_⟩
    change onReadable router (onReadable router connNew (stream.take n)) (stream.drop n) = _
    rw [hfirst, hdrop, he, receive]
    dsimp only
    rw [List.take_append_drop, hseen, hlen, show seen + (b.length - seen) = b.length by omega]
  refine ⟨[stream.take n, stream.drop n], by simp, ?_⟩
  obtain ⟨fuel, hserve⟩ := hsecond
  obtain ⟨m, hm⟩ : ∃ m, b.length = m + 1 := ⟨b.length - 1, by omega⟩
  rw [hserve, hm]
  have hv := @verdict_succ seen b h0
  have hbtake : b.take RDBUF_MAX = b := List.take_of_length_le hlt.le
  have hframes : ∀ r used, verdict 0 b = .request r used → ∀ status, (requests, status) ≠ frames router stream := by
    intro r used hvr status he
    have hp := (h.frames_request (hbtake.symm ▸ hvr)).length_le
    rw [← he] at hp
    simp at hp
  cases hc : isComplete seen b with
  | ok a rest =>
    refine absurd ?_ hr
    rw [hc]
    cases verdict 0 b with
    | wait => exact nofun
    | reject => exact nofun
    | tooLong => exact ⟨rest, rfl⟩
    | request r used => exact ⟨rest, rfl⟩
  | incomplete =>
    rw [hc] at hv hr
    have ht : tryDispatch router ⟨b, seen, RDBUF_INIT, requests, .open⟩ =
        (⟨b, b.length, RDBUF_INIT, requests, .open⟩, false) := by
      rw [tryDispatch, hv]
    rw [drain, ht, (readLoop_nil hlt).1]
    cases hvd : verdict 0 b with
    | wait =>
      rw [hvd] at hr
      exact absurd (fun h => nomatch h) hr
    | reject =>
      rw [h.frames_reject (hbtake.symm ▸ hvd)]
      exact fun he => nomatch (Prod.mk.inj he).2
    | tooLong =>
      rw [h.frames_tooLong (hbtake.symm ▸ hvd)]
      exact fun he => nomatch (Prod.mk.inj he).2
    | request r used => exact hframes r used hvd _
  | bad =>
    rw [hc] at hv hr
    have ht : tryDispatch router ⟨b, seen, RDBUF_INIT, requests, .open⟩ =
        (⟨b, seen, RDBUF_INIT, requests, .rejected⟩, false) := by
      rw [tryDispatch, hv]
    rw [drain, ht, (readLoop_nil hlt).1]
    cases hvd : verdict 0 b with
    | wait =>
      rw [h.frames_wait (hbtake.symm ▸ hvd), if_neg (by omega)]
      exact fun he => nomatch (Prod.mk.inj he).2
    | reject =>
      rw [hvd] at hr
      exact absurd (fun h => nomatch h) hr
    | tooLong =>
      rw [h.frames_tooLong (hbtake.symm ▸ hvd)]
      exact fun he => nomatch (Prod.mk.inj he).2
    | request r used => exact hframes r used hvd _

end

/-- **When a stream is framed the same however it arrives.**  Being unhindered is enough for every stream, and it is
needed for every stream that fits into the first buffer. -/
theorem framing_iff_unhindered (router : Router) (stream : Bytes) :
    (Unhindered router stream →
      ∀ chunks : List Bytes, chunks.flatten = stream → (serve router chunks).outcome = frames router stream) ∧
    (stream.length ≤ RDBUF_INIT →
      (∀ chunks : List Bytes, chunks.flatten = stream → (serve router chunks).outcome = frames router stream) →
      Unhindered router stream) := by
  refine ⟨serve_eq_frames, fun hs hall requests b h seen h0 hl hw => ?_⟩
  have hb : b.take RDBUF_MAX = b := List.take_of_length_le (h.suffix.length_le.trans (hs.trans (by decide)))
  rw [hb] at hl hw ⊢
  by_contra hr
  obtain ⟨chunks, hflat, hne⟩ := serve_ne_frames hs h h0 hl hw hr
  exact hne (hall chunks hflat)

/-- A stream that is one request is unhindered if the search finds the end of it from every point where the agent waits. -/
theorem unhindered_of_single {router : Router} {b : Bytes} {r : HttpReq} (hmax : b.length ≤ RDBUF_MAX)
    (hv : verdict 0 b = .request r b.length)
    (hall : ∀ seen < b.length, 0 < seen → verdict 0 (b.take seen) = .wait → isComplete seen b = .ok () []) :
    Unhindered router b := by
  have htake : b.take RDBUF_MAX = b := List.take_of_length_le hmax
  have hreached : ∀ requests b', Reached router b requests b' → b' = b ∨ b' = [] := by
    intro requests b' h
    induction h with
    | start => exact Or.inl rfl
    | next _ hv' _ _ ih =>
      rcases ih with rfl | rfl
      · rw [htake] at hv'
        obtain ⟨-, rfl⟩ := Verdict.request.inj (hv'.symm.trans hv)
        exact Or.inr List.drop_length
      · rw [List.take_nil, verdict_zero] at hv'
        cases hv'
  intro requests b' h seen h0 hl hw
  rcases hreached requests b' h with rfl | rfl
  · rw [htake] at hl hw ⊢
    rw [hv]
    exact ⟨[], hall seen hl h0 hw⟩
  · exact absurd hl (Nat.not_lt_zero _)

/-- A request without a body in two pieces. -/
theorem framing_cut_head :
    (serve (fun _ => false) [ascii "GET / HTTP/1.1\r", ascii "\n\r\n"]).outcome =
      frames (fun _ => false) (ascii "GET / HTTP/1.1\r\n\r\n") :=
  (framing_iff_unhindered (fun _ => false) (ascii "GET / HTTP/1.1\r\n\r\n")).1
    (@unhindered_of_single (fun _ => false) (ascii "GET / HTTP/1.1\r\n\r\n")
      ⟨ascii "GET", ascii "/", [], 1, [], [], true⟩ (by decide +kernel) (by decide +kernel) (by decide +kernel))
    _ (by decide +kernel)

/-- A request whose body is cut inside is never given to the router. -/
theorem framing_cut_body :
    (serve (fun _ => false) [ascii "POST / HTTP/1.1\r\nContent-Length: 2\r\n\r\nh", ascii "i"]).outcome = ([], .open) ∧
    frames (fun _ => false) (ascii "POST / HTTP/1.1\r\nContent-Length: 2\r\n\r\nhi") =
      ([⟨ascii "POST", ascii "/", [], 1, [⟨ascii "Content-Length", ascii "2"⟩], ascii "hi", true⟩], .open) := by
  decide +kernel

end Hamn.Agent
