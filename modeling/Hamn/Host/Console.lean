import Hamn.Lib.Bytes
import Hamn.Lib.Search

/-!
# Console — the panic banners on the guest's console

Models `border`, `step` and `console_scan_feed` of `src/host/vmrun/console.c`.  The reason is the bytes that are stored
before the NUL, so `reason_length` is its length.

* `step_spec`: a matched length is the longest prefix of the banner that ends the bytes read so far.
* `Scanned`: the state of the matcher, from the bytes read so far; `Scanned.turn` is one byte, `Scanned.feed` one call.
-/

namespace Hamn.Host.Console

open Bytes Search

def START_BANNER : Bytes := ascii "Kernel panic - not syncing"

def END_BANNER : Bytes := ascii "---[ end Kernel panic - not syncing"

def CONSOLE_PANIC_REASON_CAP : ℕ := 192

/-! ## The code -/

/-- The loop of `border` from `k` down. -/
def borderFrom (pattern : Bytes) (n : ℕ) : ℕ → ℕ
  | 0 => 0
  | k + 1 =>
    if pattern.take (k + 1) = (pattern.drop (n - (k + 1))).take (k + 1) then k + 1 else borderFrom pattern n k

def border (pattern : Bytes) (n : ℕ) : ℕ := borderFrom pattern n (n - 1)

theorem borderFrom_le (pattern : Bytes) (n k : ℕ) : borderFrom pattern n k ≤ k := by
  induction k with
  | zero => exact Nat.le_refl _
  | succ k ih =>
    rw [borderFrom]
    split_ifs
    · exact Nat.le_refl _
    · omega

def step (pattern : Bytes) (matched : ℕ) (c : UInt8) : ℕ :=
  if 0 < matched ∧ pattern[matched]? ≠ some c then step pattern (border pattern matched) c
  else if pattern[matched]? = some c then matched + 1
  else matched
termination_by matched
decreasing_by
  have := borderFrom_le pattern matched (matched - 1)
  unfold border
  omega

inductive Stage where
  | quiet
  | started
  | ended
  deriving DecidableEq, Repr

structure Scan where
  startMatched : ℕ := 0
  endMatched : ℕ := 0
  stage : Stage := .quiet
  reasonOpen : Bool := false
  reason : Bytes := []
  deriving DecidableEq, Repr

def isNewline (c : UInt8) : Bool := c = 10 || c = 13

/-- Printable bytes, and `?` for the others. -/
def shown (c : UInt8) : UInt8 := if 32 ≤ c ∧ c < 127 then c else 63

def Scan.readReason (s : Scan) (c : UInt8) : Scan :=
  if s.reasonOpen then
    if isNewline c then { s with reasonOpen := false }
    else if s.reason.length < CONSOLE_PANIC_REASON_CAP - 1 then { s with reason := s.reason ++ [shown c] }
    else s
  else s

/-- One turn of the loop of `console_scan_feed`. -/
def Scan.turn (s : Scan) (c : UInt8) : Scan :=
  if s.stage = .quiet then
    let matched := step START_BANNER s.startMatched c
    if matched = START_BANNER.length then { s with startMatched := 0, stage := .started, reasonOpen := true }
    else { s with startMatched := matched }
  else
    let s := s.readReason c
    let matched := step END_BANNER s.endMatched c
    if matched = END_BANNER.length then { s with endMatched := 0, stage := .ended }
    else { s with endMatched := matched }

def Scan.loop (s : Scan) : Bytes → Scan
  | [] => s
  | c :: rest => if s.stage = .ended then s else (s.turn c).loop rest

/-- `console_scan_feed`, with no answer where an assertion fails. -/
def Scan.feed (s : Scan) (bytes : Bytes) : Option Scan :=
  if s.startMatched < START_BANNER.length ∧ s.endMatched < END_BANNER.length ∧
      s.reason.length < CONSOLE_PANIC_REASON_CAP then some (s.loop bytes)
  else none

/-! ## Matched lengths -/

theorem suffix_iff_memcmp {pattern : Bytes} {n k : ℕ} (hk : k ≤ n) (hn : n ≤ pattern.length) :
    pattern.take k <:+ pattern.take n ↔ pattern.take k = (pattern.drop (n - k)).take k := by
  rw [List.suffix_iff_eq_drop, List.length_take, List.length_take, min_eq_left hn, min_eq_left (hk.trans hn),
    List.drop_take, Nat.sub_sub_self hk]

theorem borderFrom_spec {pattern : Bytes} {n k : ℕ} (hk : k < n) (hn : n ≤ pattern.length) :
    pattern.take (borderFrom pattern n k) <:+ pattern.take n ∧
      ∀ j, j ≤ k → pattern.take j <:+ pattern.take n → j ≤ borderFrom pattern n k := by
  induction k with
  | zero => exact ⟨by rw [borderFrom, List.take_zero]; exact List.nil_suffix, fun j hj _ => hj⟩
  | succ k ih =>
    rw [borderFrom]
    by_cases hsame : pattern.take (k + 1) = (pattern.drop (n - (k + 1))).take (k + 1)
    · rw [if_pos hsame]
      exact ⟨(suffix_iff_memcmp hk.le hn).mpr hsame, fun j hj _ => hj⟩
    · rw [if_neg hsame]
      obtain ⟨hsuffix, hlongest⟩ := ih (by omega)
      refine ⟨hsuffix, fun j hj h => ?_⟩
      rcases Nat.of_le_succ hj with hle | rfl
      · exact hlongest j hle h
      · exact absurd ((suffix_iff_memcmp hk.le hn).mp h) hsame

theorem border_spec {pattern : Bytes} {n : ℕ} (hpos : 0 < n) (hn : n ≤ pattern.length) :
    Border pattern n (border pattern n) := by
  obtain ⟨hsuffix, hlongest⟩ := @borderFrom_spec pattern n (n - 1) (by omega) hn
  have := borderFrom_le pattern n (n - 1)
  exact ⟨by unfold border; omega, hsuffix, fun j hj h => hlongest j (by omega) h⟩

/-- The matched length after `c`, for what was matched. -/
theorem step_spec {pattern : Bytes} {m : ℕ} {c : UInt8} (hm : m < pattern.length) :
    Overlap pattern (pattern.take m ++ [c]) (step pattern m c) := by
  induction m using Nat.strong_induction_on with
  | _ m ih =>
    rw [step]
    by_cases hc : pattern[m]? = some c
    · rw [if_neg (by simp [hc]), if_pos hc]
      exact overlap_succ hm hc
    · by_cases hpos : 0 < m
      · -- the loop falls back to a border
        have hb := border_spec hpos hm.le
        rw [if_pos ⟨hpos, hc⟩]
        exact overlap_border hm hc hb (ih _ hb.lt (hb.lt.trans hm))
      · obtain rfl : m = 0 := by omega
        rw [if_neg (by simp), if_neg hc]
        exact overlap_zero hc

/-! ## The reason -/

/-- What is stored of the bytes after the start banner. -/
def reasonOf (rest : Bytes) : Bytes :=
  ((rest.takeWhile fun c => !isNewline c).take (CONSOLE_PANIC_REASON_CAP - 1)).map shown

/-- The line of the start banner has not ended. -/
def lineOpen (rest : Bytes) : Bool := rest.all fun c => !isNewline c

theorem takeWhile_concat {rest : Bytes} (f : UInt8 → Bool) (c : UInt8) : (rest ++ [c]).takeWhile f =
    if rest.all f = true then (if f c = true then rest ++ [c] else rest) else rest.takeWhile f := by
  by_cases hall : rest.all f = true
  · rw [if_pos hall, List.takeWhile_append_of_pos (List.all_eq_true.mp hall)]
    by_cases hc : f c = true <;> simp [hc]
  · rw [if_neg hall]
    induction rest with
    | nil => exact absurd rfl hall
    | cons d rest ih =>
      rw [List.cons_append, List.takeWhile_cons, List.takeWhile_cons]
      by_cases hd : f d = true
      · rw [if_pos hd, if_pos hd, ih (fun h => hall (by rw [List.all_cons, hd, h]; rfl))]
      · rw [if_neg hd, if_neg hd]

theorem readReason_spec {s : Scan} {rest : Bytes} (hopen : s.reasonOpen = lineOpen rest)
    (hreason : s.reason = reasonOf rest) (c : UInt8) :
    s.readReason c = { s with reasonOpen := lineOpen (rest ++ [c]), reason := reasonOf (rest ++ [c]) } := by
  obtain ⟨m, n, stage, isOpen, reason⟩ := s
  obtain rfl : isOpen = lineOpen rest := hopen
  obtain rfl : reason = reasonOf rest := hreason
  have hlast : lineOpen (rest ++ [c]) = (lineOpen rest && !isNewline c) := by simp [lineOpen]
  unfold Scan.readReason reasonOf
  rw [takeWhile_concat, hlast]
  by_cases hall : lineOpen rest = true
  · have hline : rest.takeWhile (fun c => !isNewline c) = rest := List.takeWhile_eq_self_iff.mpr (List.all_eq_true.mp hall)
    have hall' : rest.all (fun c => !isNewline c) = true := hall
    rw [hline, hall, hall', if_pos rfl, if_pos rfl]
    by_cases hc : isNewline c = true
    · rw [if_pos hc, hc]
      simp
    · rw [if_neg hc, Bool.eq_false_of_not_eq_true hc]
      by_cases hlen : rest.length < CONSOLE_PANIC_REASON_CAP - 1
      · rw [if_pos (by rw [List.length_map, List.length_take]; omega)]
        have htake : rest.take (CONSOLE_PANIC_REASON_CAP - 1) = rest := List.take_of_length_le hlen.le
        have htake' : (rest ++ [c]).take (CONSOLE_PANIC_REASON_CAP - 1) = rest ++ [c] :=
          List.take_of_length_le (by simpa using hlen)
        simp [htake, htake']
      · rw [if_neg (by rw [List.length_map, List.length_take]; omega)]
        simp [List.take_append_of_le_length (not_lt.mp hlen)]
  · have hall' : ¬ rest.all (fun c => !isNewline c) = true := hall
    rw [if_neg hall, if_neg hall', Bool.eq_false_of_not_eq_true hall]
    rfl

/-! ## The state after a text -/

/-- The state of the matcher after the bytes `t`. -/
inductive Scanned (t : Bytes) : Scan → Prop
  | quiet {m : ℕ} (hstart : after START_BANNER t = none) (hm : Overlap START_BANNER t m) :
      Scanned t { startMatched := m }
  | started {rest : Bytes} {m : ℕ} (hstart : after START_BANNER t = some rest) (hend : after END_BANNER rest = none)
      (hm : Overlap END_BANNER rest m) :
      Scanned t { endMatched := m, stage := .started, reasonOpen := lineOpen rest, reason := reasonOf rest }
  | ended {rest : Bytes} (hstart : after START_BANNER t = some rest) (hend : END_BANNER <:+: rest) :
      Scanned t
        { stage := .ended
          reasonOpen := lineOpen (through END_BANNER rest)
          reason := reasonOf (through END_BANNER rest) }

theorem START_BANNER_ne : START_BANNER ≠ [] := by decide

theorem END_BANNER_ne : END_BANNER ≠ [] := by decide

/-- A matched length is below the length of a banner that has not occurred. -/
theorem matched_lt {pattern t : Bytes} {m : ℕ} (h : Overlap pattern t m) (hnone : after pattern t = none) :
    m < pattern.length := by
  refine lt_of_le_of_ne h.le fun heq => ?_
  exact after_eq_none.mp hnone (h.eq_length_iff.mp heq).isInfix

theorem Scanned.init : Scanned [] {} := by
  refine .quiet ?_ overlap_nil
  rw [after, if_neg START_BANNER_ne]

theorem Scanned.turn {t : Bytes} {s : Scan} (h : Scanned t s) (hended : s.stage ≠ .ended) (c : UInt8) :
    Scanned (t ++ [c]) (s.turn c) := by
  cases h with
  | @quiet m hstart hm =>
    have hnext := hm.next (step_spec (c := c) (matched_lt hm hstart))
    unfold Scan.turn
    rw [if_pos rfl]
    dsimp only
    by_cases hlen : step START_BANNER m c = START_BANNER.length
    · rw [if_pos hlen]
      have hnow := after_concat (after_eq_none.mp hstart) (hnext.eq_length_iff.mp hlen)
      exact .started hnow (by rw [after, if_neg END_BANNER_ne]) overlap_nil
    · rw [if_neg hlen]
      refine .quiet (after_eq_none.mpr fun hin => ?_) hnext
      rcases infix_concat.mp hin with hin | hsuffix
      · exact after_eq_none.mp hstart hin
      · exact hlen (hnext.eq_length_iff.mpr hsuffix)
  | @started rest m hstart hend hm =>
    have hnext := hm.next (step_spec (c := c) (matched_lt hm hend))
    have hrest := after_append hstart [c]
    unfold Scan.turn
    rw [if_neg (by simp), readReason_spec rfl rfl]
    dsimp only
    by_cases hlen : step END_BANNER m c = END_BANNER.length
    · rw [if_pos hlen]
      have hnow := after_concat (after_eq_none.mp hend) (hnext.eq_length_iff.mp hlen)
      have hthrough : through END_BANNER (rest ++ [c]) = rest ++ [c] := by
        unfold through
        rw [hnow]
        exact List.take_length
      have := Scanned.ended hrest (after_isSome.mp (by rw [hnow]; rfl))
      rwa [hthrough] at this
    · rw [if_neg hlen]
      refine .started hrest (after_eq_none.mpr fun hin => ?_) hnext
      rcases infix_concat.mp hin with hin | hsuffix
      · exact after_eq_none.mp hend hin
      · exact hlen (hnext.eq_length_iff.mpr hsuffix)
  | ended => exact absurd rfl hended

/-- After the end banner nothing is read any more. -/
theorem Scanned.append {t : Bytes} {s : Scan} (h : Scanned t s) (hended : s.stage = .ended) (u : Bytes) :
    Scanned (t ++ u) s := by
  cases h with
  | quiet => cases hended
  | started => cases hended
  | @ended rest hstart hend =>
    have hrest := after_append hstart u
    have hin : END_BANNER <:+: rest ++ u := hend.trans (List.prefix_append rest u).isInfix
    have hthrough : through END_BANNER (rest ++ u) = through END_BANNER rest := by
      obtain ⟨tail, htail⟩ := Option.isSome_iff_exists.mp (after_isSome.mpr hend)
      unfold through
      rw [htail, after_append htail u]
      dsimp only
      rw [List.length_append, List.length_append, Nat.add_sub_add_right, List.take_append_of_le_length (Nat.sub_le _ _)]
    have := Scanned.ended hrest hin
    rwa [hthrough] at this

theorem Scanned.loop {t : Bytes} {s : Scan} (h : Scanned t s) (bytes : Bytes) : Scanned (t ++ bytes) (s.loop bytes) := by
  induction bytes generalizing t s with
  | nil =>
    rw [List.append_nil]
    exact h
  | cons c bytes ih =>
    rw [Scan.loop]
    by_cases hended : s.stage = .ended
    · rw [if_pos hended]
      exact h.append hended _
    · rw [if_neg hended, ← List.singleton_append, ← List.append_assoc]
      exact ih (h.turn hended c)

/-- The assertions on entry hold after any text. -/
theorem Scanned.feed {t : Bytes} {s : Scan} (h : Scanned t s) (bytes : Bytes) : s.feed bytes = some (s.loop bytes) := by
  have hreason : ∀ rest, (reasonOf rest).length < CONSOLE_PANIC_REASON_CAP := by
    intro rest
    rw [reasonOf, List.length_map, List.length_take]
    unfold CONSOLE_PANIC_REASON_CAP
    omega
  have hstartpos : 0 < START_BANNER.length := List.length_pos_iff.mpr START_BANNER_ne
  have hendpos : 0 < END_BANNER.length := List.length_pos_iff.mpr END_BANNER_ne
  unfold Scan.feed
  refine if_pos ?_
  cases h with
  | quiet hstart hm => exact ⟨matched_lt hm hstart, hendpos, Nat.succ_pos _⟩
  | started _ hend hm => exact ⟨hstartpos, matched_lt hm hend, hreason _⟩
  | ended => exact ⟨hstartpos, hendpos, hreason _⟩

theorem loop_append (s : Scan) (a b : Bytes) : s.loop (a ++ b) = (s.loop a).loop b := by
  induction a generalizing s with
  | nil => rfl
  | cons c a ih =>
    rw [List.cons_append, Scan.loop, Scan.loop]
    by_cases hended : s.stage = .ended
    · rw [if_pos hended, if_pos hended]
      cases b with
      | nil => rfl
      | cons d b => rw [Scan.loop, if_pos hended]
    · rw [if_neg hended, if_neg hended]
      exact ih (s.turn c)

theorem Scanned.feeds {t : Bytes} {s : Scan} (h : Scanned t s) (chunks : List Bytes) :
    chunks.foldlM Scan.feed s = some (s.loop chunks.flatten) := by
  induction chunks generalizing t s with
  | nil => rfl
  | cons chunk chunks ih =>
    rw [List.foldlM_cons, h.feed chunk, List.flatten_cons, loop_append]
    exact ih (h.loop chunk)

/-- What a state says of the bytes that led to it. -/
theorem Scanned.spec {t : Bytes} {s : Scan} (h : Scanned t s) :
    (s.stage ≠ .quiet ↔ START_BANNER <:+: t) ∧
      (s.stage = .ended ↔ ∃ rest, after START_BANNER t = some rest ∧ END_BANNER <:+: rest) ∧
      s.reason = match after START_BANNER t with
        | none => []
        | some rest => reasonOf (through END_BANNER rest) := by
  rw [← after_isSome]
  cases h with
  | quiet hstart _ =>
    rw [hstart]
    exact ⟨⟨fun h => absurd rfl h, nofun⟩, ⟨nofun, fun ⟨_, h, _⟩ => nomatch h⟩, rfl⟩
  | started hstart hend _ =>
    rw [hstart]
    refine ⟨⟨fun _ => rfl, fun _ => nofun⟩, ⟨nofun, ?_⟩, ?_⟩
    · rintro ⟨rest, ⟨⟩, hin⟩
      exact absurd hin (after_eq_none.mp hend)
    · dsimp only
      unfold through
      rw [hend]
  | ended hstart hend =>
    rw [hstart]
    exact ⟨⟨fun _ => rfl, fun _ => nofun⟩, ⟨fun _ => ⟨_, rfl, hend⟩, fun _ => rfl⟩, rfl⟩

/-! ## The banners of a stream -/

/-- The reason is not `x`, what is between the banners: the end banner is a part of it. -/
theorem reason_holds_end_banner : ∃ s, Scan.feed {} (START_BANNER ++ 120 :: END_BANNER) = some s ∧
    after START_BANNER (START_BANNER ++ 120 :: END_BANNER) = some (120 :: END_BANNER) ∧ s.stage = .ended ∧
    s.reason = 120 :: END_BANNER ∧ s.reason ≠ [120] := by
  have hscanned := Scanned.init.loop (START_BANNER ++ 120 :: END_BANNER)
  have hafter : after START_BANNER (START_BANNER ++ 120 :: END_BANNER) = some (120 :: END_BANNER) := by decide
  obtain ⟨-, hended, hreason⟩ := hscanned.spec
  have hstored : reasonOf (through END_BANNER (120 :: END_BANNER)) = 120 :: END_BANNER := by decide
  rw [List.nil_append, hafter] at hreason
  refine ⟨_, Scanned.init.feed _, hafter, hended.mpr ⟨_, hafter, [120], [], by simp⟩, hreason.trans hstored, ?_⟩
  rw [hreason.trans hstored]
  decide

/-- **The matcher finds the banners of the stream, however it is split.**  The reason is what follows the first start
banner, up to the end of its line, the end of the end banner or the capacity. -/
theorem scan_eq_search (chunks : List Bytes) :
    ∃ s, chunks.foldlM Scan.feed {} = some s ∧ s = Scan.loop {} chunks.flatten ∧
      (s.stage ≠ .quiet ↔ START_BANNER <:+: chunks.flatten) ∧
      (s.stage = .ended ↔ ∃ rest, after START_BANNER chunks.flatten = some rest ∧ END_BANNER <:+: rest) ∧
      s.reason = match after START_BANNER chunks.flatten with
        | none => []
        | some rest => reasonOf (through END_BANNER rest) :=
  ⟨_, Scanned.init.feeds chunks, rfl, (Scanned.init.loop chunks.flatten).spec⟩

end Hamn.Host.Console
