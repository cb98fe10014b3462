import Hamn.Lib.Bytes
import Hamn.Lib.Split

/-!
# GuestFilesystem — what the check of the guest's root filesystem printed

Models `guest_filesystem_classify` of `src/host/core/guest_filesystem.c` and the functions it scans its text with.

* `splitFrom_spec`: the words of a line, and where their bytes are written.
* `Says`: the documented form of the output, and what it says; `judge_spec` connects it to the code.
* `truncated`: the length of the first line is cast to an `int`, so of a line that is too long only a part is looked at.
-/

namespace Hamn.Host.GuestFilesystem

open Bytes

def WORD_CAP : ℕ := 256

def GUEST_FILESYSTEM_DETAIL_CAP : ℕ := 256

def UINT32_MAX : ℕ := 2 ^ 32 - 1

def INT64_MAX : ℕ := 2 ^ 63 - 1

def EIO_SUFFIX : Bytes := ascii ": Input/output error"

def ROOT : Bytes := ascii "root "

def ERRORS : Bytes := ascii "errors "

def EXT4 : Bytes := ascii "ext4"

inductive State where
  | unknown
  | healthy
  | errorsRecorded
  | unreadable
  | readOnly
  deriving DecidableEq, Repr

structure Check where
  state : State
  detail : Bytes
  deriving DecidableEq

/-! ## The code -/

def setDetail (state : State) (text : Bytes) : Check where
  state := state
  detail := (text.take (GUEST_FILESYSTEM_DETAIL_CAP - 1)).map fun ch => if ch < 32 || ch = 127 then 63 else ch

/-- What `%.*s` writes of a text. -/
def atMost (precision : ℤ) (text : Bytes) : Bytes := if precision < 0 then text else text.take precision.toNat

def isLineEnd (c : UInt8) : Bool := c = 13 || c = newline

/-- The next line, and what follows it. -/
def nextLine (cursor : Bytes) : Option (Bytes × Bytes) :=
  if cursor.all isLineEnd then none else some ((splitOnce newline cursor).getD (cursor, []))

def endsWithEio (line : Bytes) : Bool := EIO_SUFFIX.length < line.length && EIO_SUFFIX.isSuffixOf line

/-- The words of the rest of a line after `words` and the first bytes of the next one, if they are `count`, and which byte
of which word is written. -/
def splitFrom (count : ℕ) (words : List Bytes) (current : Bytes) : Bytes → Option (List Bytes) × List (ℕ × ℕ)
  | [] =>
    if current = [] then (none, [])
    else (if words.length + 1 = count then some (words ++ [current]) else none, [(words.length, current.length)])
  | ch :: rest =>
    if ch ≠ 32 then
      if count ≤ words.length ∨ WORD_CAP ≤ current.length + 1 then (none, [])
      else
        let (result, writes) := splitFrom count words (current ++ [ch]) rest
        (result, (words.length, current.length) :: writes)
    else if current = [] then (none, [])
    else
      let (result, writes) := splitFrom count (words ++ [current]) [] rest
      (result, (words.length, current.length) :: writes)

def splitWords (line : Bytes) (count : ℕ) : Option (List Bytes) × List (ℕ × ℕ) := splitFrom count [] [] line

def parseDecimal (text : Bytes) (maximum : ℕ) : Option ℕ :=
  if text = [] ∨ text.all isDecimal = false ∨ text.head? = some 48 ∧ 1 < text.length then none
  -- `strtoull` fails for what is not below 2 ^ 64
  else if 2 ^ 64 ≤ number text ∨ maximum < number text then none
  else some (number text)

def deviceValid (text : Bytes) : Bool :=
  match splitOnce 58 text with
  | none => false
  | some (major, minor) => major ≠ [] && minor ≠ [] && major.all isDecimal && minor.all isDecimal

def optionsReadOnly (options : Bytes) : Option Bool :=
  let first := options.takeWhile fun c => c ≠ 44
  if first = ascii "ro" then some true else if first = ascii "rw" then some false else none

theorem nextLine_length {cursor line rest : Bytes} (h : nextLine cursor = some (line, rest)) :
    rest.length < cursor.length := by
  unfold nextLine at h
  split_ifs at h with hends
  have hpair := Option.some.inj h
  cases hsplit : splitOnce newline cursor with
  | none =>
    rw [hsplit] at hpair
    obtain ⟨-, rfl⟩ := Prod.mk.inj hpair
    cases cursor with
    | nil => exact absurd rfl hends
    | cons => exact Nat.succ_pos _
  | some p =>
    rw [hsplit] at hpair
    obtain rfl : p = (line, rest) := hpair
    obtain ⟨rfl, -⟩ := splitOnce_eq_some.mp hsplit
    rw [List.length_append, List.length_cons]
    omega

/-- The first line that ends in the suffix, and the text from it on. -/
def findEio (cursor : Bytes) : Option (Bytes × Bytes) :=
  match _h : nextLine cursor with
  | none => none
  | some (line, rest) => if endsWithEio line then some (line, cursor) else findEio rest
termination_by cursor.length
decreasing_by exact nextLine_length _h

def unexpected (line : Option (ℤ × Bytes)) : Check :=
  let (precision, text) := line.getD (6, ascii "(none)")
  setDetail .unknown (ascii "unexpected check output: " ++ atMost precision text)

/-- What follows the error record, or the root line of another filesystem. -/
def finish (formatTime : ℕ → Bytes) (cursor type superOptions : Bytes) (readOnly : Bool) (count firstTime lastTime : ℕ) :
    Check :=
  match nextLine cursor with
  | some (extra, _) => unexpected (some (toInt extra.length, cursor))
  | none =>
    if 0 < count then
      setDetail .errorsRecorded (ascii "ext4 recorded " ++ decimal count ++ ascii " error" ++
        (if count = 1 then [] else ascii "s") ++ ascii " since its last complete check, the first at " ++
        formatTime firstTime ++ ascii " and the last at " ++ formatTime lastTime)
    else if readOnly then
      setDetail .readOnly (ascii "the root filesystem is mounted read-only (" ++ superOptions ++ ascii ")")
    else if type = EXT4 then setDetail .healthy (ascii "ext4 records no errors")
    else
      setDetail .healthy (ascii "the root filesystem is " ++ type ++ ascii ", which keeps no ext4 error record")

/-- The error record. -/
def readErrors (line : Bytes) : Option (ℕ × ℕ × ℕ) :=
  if line.length < 7 ∨ ERRORS.isPrefixOf line = false then none
  else
    match (splitWords (line.drop 7) 3).1 with
    | some [count, firstTime, lastTime] => do
      let count ← parseDecimal count UINT32_MAX
      let firstTime ← parseDecimal firstTime INT64_MAX
      let lastTime ← parseDecimal lastTime INT64_MAX
      pure (count, firstTime, lastTime)
    | _ => none

/-- The type and the superblock options of the root line, and whether one of its lists of options is read-only. -/
def readRoot (line : Bytes) : Option (Bytes × Bytes × Bool) :=
  if line.length < 5 ∨ ROOT.isPrefixOf line = false then none
  else
    match (splitWords (line.drop 5) 4).1 with
    | some [device, type, mountOptions, superOptions] =>
      if deviceValid device then do
        let mount ← optionsReadOnly mountOptions
        let super ← optionsReadOnly superOptions
        pure (type, superOptions, mount || super)
      else none
    | _ => none

/-- What an exit status of 0 means, by the first line and what follows it. -/
def judge (formatTime : ℕ → Bytes) (output : Bytes) (firstLength : ℤ) (line cursor : Bytes) : Check :=
  match readRoot line with
  | none => unexpected (some (firstLength, output))
  | some (type, superOptions, readOnly) =>
    if type = EXT4 then
      match nextLine cursor with
      | none => unexpected none
      | some (errors, rest) =>
        match readErrors errors with
        | none => unexpected (some (toInt errors.length, cursor))
        | some (count, firstTime, lastTime) =>
          finish formatTime rest type superOptions readOnly count firstTime lastTime
    else finish formatTime cursor type superOptions readOnly 0 0 0

/-- The check failed, with the first line it printed. -/
def failed (rc : ℤ) (first : Option (ℤ × Bytes)) : Check :=
  let what := if rc < 0 then ascii "ssh could not be run" else if rc = 255 then ascii "ssh failed" else ascii "the check failed"
  let check := setDetail .unknown (what ++ match first with
    | none => []
    | some (precision, text) => ascii ": " ++ atMost precision text)
  if 0 < rc ∧ rc ≠ 255 then
    { check with
      detail := (check.detail ++ ascii " (exit " ++ decimal rc.toNat ++ ascii ")").take (GUEST_FILESYSTEM_DETAIL_CAP - 1) }
  else check

/-- `guest_filesystem_classify`; `formatTime` is `format_time`. -/
def classify (formatTime : ℕ → Bytes) (rc : ℤ) (output : Bytes) (timedOut cancelled : Bool) : Check :=
  if timedOut then setDetail .unknown (ascii "the check did not finish before its deadline")
  else if cancelled then setDetail .unknown (ascii "the check was cancelled")
  else
    match if 0 ≤ rc ∧ rc ≤ 254 then findEio output else none with
    | some (line, start) =>
      setDetail .unreadable (ascii "the guest cannot read its disk: " ++ atMost (toInt line.length) start)
    | none =>
      match nextLine output with
      | none => if rc ≠ 0 then failed rc none else unexpected none
      | some (first, cursor) =>
        let firstLength := toInt first.length
        if rc ≠ 0 then failed rc (some (firstLength, output))
        else if firstLength < 5 then unexpected (some (firstLength, output))
        else judge formatTime output firstLength (first.take firstLength.toNat) cursor

/-! ## Words -/

/-- A word of a buffer: it is not empty, has no space and leaves room for the NUL. -/
def IsWord (w : Bytes) : Prop := w ≠ [] ∧ w.length < WORD_CAP

/-- The words are the pieces between the spaces, and every byte is written within the buffers. -/
theorem splitFrom_spec {count : ℕ} (rest : Bytes) {words : List Bytes} {current : Bytes} (hcurrent : 32 ∉ current)
    (hroom : current ≠ [] → words.length < count) (hlen : current.length < WORD_CAP) :
    (∀ ws, (splitFrom count words current rest).1 = some ws ↔
      ws = words ++ (current ++ rest).splitOn 32 ∧ ws.length = count ∧ ∀ w ∈ (current ++ rest).splitOn 32, IsWord w) ∧
    ∀ write ∈ (splitFrom count words current rest).2, write.1 < count ∧ write.2 < WORD_CAP := by
  induction rest generalizing words current with
  | nil =>
    rw [List.append_nil, List.splitOn_eq_singleton hcurrent, splitFrom]
    by_cases hne : current = []
    · rw [if_pos hne]
      refine ⟨fun ws => ⟨nofun, ?_⟩, fun write h => absurd h List.not_mem_nil⟩
      rintro ⟨-, -, hall⟩
      exact absurd hne (hall current (List.mem_singleton_self _)).1
    · rw [if_neg hne]
      refine ⟨fun ws => ?_, ?_⟩
      · have hword : ∀ w ∈ [current], IsWord w := by
          rintro w hw
          obtain rfl := List.mem_singleton.mp hw
          exact ⟨hne, hlen⟩
        dsimp only
        split_ifs with hcount
        · constructor
          · rintro ⟨⟩
            exact ⟨rfl, by simpa using hcount, hword⟩
          · rintro ⟨rfl, -, -⟩
            rfl
        · refine ⟨nofun, ?_⟩
          rintro ⟨rfl, hlength, -⟩
          exact absurd (by simpa using hlength) hcount
      · intro write h
        obtain rfl := List.mem_singleton.mp h
        exact ⟨hroom hne, hlen⟩
  | cons ch rest ih =>
    rw [splitFrom]
    by_cases hch : ch ≠ 32
    · rw [if_pos hch]
      obtain ⟨piece, pieces, hsplit, hrest⟩ := @Split.splitOn_append _ 32 _ _ (current ++ [ch])
        (by simpa using ⟨hcurrent, fun h => hch h.symm⟩) rest
      rw [List.append_assoc, List.singleton_append] at hsplit
      by_cases hfull : count ≤ words.length ∨ WORD_CAP ≤ current.length + 1
      · rw [if_pos hfull]
        refine ⟨fun ws => ⟨nofun, ?_⟩, fun write h => absurd h List.not_mem_nil⟩
        rintro ⟨rfl, hlength, hall⟩
        rw [hsplit] at hlength hall
        rcases hfull with hcount | hcap
        · rw [List.length_append, List.length_cons] at hlength
          omega
        · have := (hall _ List.mem_cons_self).2
          rw [List.length_append, List.length_append, List.length_singleton] at this
          omega
      · rw [if_neg hfull, not_or, not_le, not_le] at *
        obtain ⟨hresult, hwrites⟩ := @ih words (current ++ [ch])
          (by simpa using ⟨hcurrent, fun h => hch h.symm⟩) (fun _ => hfull.1) (by simpa using hfull.2)
        rw [List.append_assoc, List.singleton_append] at hresult
        exact ⟨hresult, List.forall_mem_cons.mpr ⟨⟨hfull.1, hlen⟩, hwrites⟩⟩
    · rw [if_neg hch]
      obtain rfl : ch = 32 := not_not.mp hch
      have hsplit : (current ++ 32 :: rest).splitOn 32 = current :: rest.splitOn 32 :=
        List.splitOn_append_cons_self_of_not_mem hcurrent rest
      rw [hsplit]
      by_cases hne : current = []
      · rw [if_pos hne]
        refine ⟨fun ws => ⟨nofun, ?_⟩, fun write h => absurd h List.not_mem_nil⟩
        rintro ⟨-, -, hall⟩
        exact absurd hne (hall current List.mem_cons_self).1
      · rw [if_neg hne]
        obtain ⟨hresult, hwrites⟩ := @ih (words ++ [current]) [] List.not_mem_nil (fun h => absurd rfl h) (by decide)
        refine ⟨fun ws => ?_, List.forall_mem_cons.mpr ⟨⟨hroom hne, hlen⟩, hwrites⟩⟩
        dsimp only
        rw [hresult, List.nil_append, List.append_assoc, List.singleton_append]
        refine and_congr_right fun _ => and_congr_right fun _ => ?_
        rw [List.forall_mem_cons]
        exact ⟨fun h => ⟨⟨hne, hlen⟩, h⟩, fun h => h.2⟩

/-- The words of a line are what is between its spaces. -/
theorem splitWords_iff {line : Bytes} {count : ℕ} {ws : List Bytes} : (splitWords line count).1 = some ws ↔
    line = List.intercalate [32] ws ∧ ws.length = count ∧ ws ≠ [] ∧ ∀ w ∈ ws, IsWord w ∧ 32 ∉ w := by
  have hspec := (@splitFrom_spec count line [] [] List.not_mem_nil
    (fun h => absurd rfl h) (by decide)).1 ws
  rw [List.nil_append, List.nil_append] at hspec
  unfold splitWords
  rw [hspec]
  constructor
  · rintro ⟨rfl, hcount, hall⟩
    refine ⟨(List.intercalate_splitOn 32).symm, hcount, List.splitOn_ne_nil _ _,
      fun w hw => ⟨hall w hw, Split.not_mem_of_mem_splitOn w hw⟩⟩
  · rintro ⟨rfl, hcount, hne, hall⟩
    rw [List.splitOn_intercalate 32 (fun w hw => (hall w hw).2) hne]
    exact ⟨rfl, hcount, fun w hw => (hall w hw).1⟩

theorem splitWords_writes (line : Bytes) (count : ℕ) :
    ∀ write ∈ (splitWords line count).2, write.1 < count ∧ write.2 < WORD_CAP :=
  (splitFrom_spec line List.not_mem_nil (fun h => absurd rfl h) (by decide)).2

/-! ## The documented form -/

/-- The first line of a text, and what follows it. -/
def Cut (text line rest : Bytes) : Prop := newline ∉ line ∧ (text = line ∧ rest = [] ∨ text = line ++ newline :: rest)

/-- Two numbers with a colon between them. -/
def Device (w : Bytes) : Prop :=
  ∃ major minor, w = major ++ 58 :: minor ∧ major ≠ [] ∧ minor ≠ [] ∧
    (∀ c ∈ major, isDecimal c = true) ∧ ∀ c ∈ minor, isDecimal c = true

/-- A list of options that starts with `ro`, or with `rw`. -/
def Options (w : Bytes) (readOnly : Bool) : Prop :=
  let first := if readOnly then ascii "ro" else ascii "rw"
  w = first ∨ first ++ [44] <+: w

def RootLine (line type superOptions : Bytes) (readOnly : Bool) : Prop :=
  ∃ device mountOptions mount super, line = ROOT ++ List.intercalate [32] [device, type, mountOptions, superOptions] ∧
    (∀ w ∈ [device, type, mountOptions, superOptions], IsWord w ∧ 32 ∉ w) ∧ Device device ∧
    Options mountOptions mount ∧ Options superOptions super ∧ readOnly = (mount || super)

def ErrorsLine (line : Bytes) (count : ℕ) : Prop :=
  ∃ firstTime lastTime, line = ERRORS ++ List.intercalate [32] [decimal count, decimal firstTime, decimal lastTime] ∧
    count ≤ UINT32_MAX ∧ firstTime ≤ INT64_MAX ∧ lastTime ≤ INT64_MAX

/-- The output is in the documented form: the root line, for ext4 the error record, and nothing but line ends after it. -/
def Says (output : Bytes) (count : ℕ) (readOnly : Bool) : Prop :=
  ∃ line cursor type superOptions, Cut output line cursor ∧ RootLine line type superOptions readOnly ∧
    if type = EXT4 then
      ∃ errors rest, Cut cursor errors rest ∧ ErrorsLine errors count ∧ rest.all isLineEnd = true
    else count = 0 ∧ cursor.all isLineEnd = true

theorem Cut.unique {text line rest line' rest' : Bytes} (h : Cut text line rest) (h' : Cut text line' rest') :
    line = line' ∧ rest = rest' := by
  obtain ⟨hline, h⟩ := h
  obtain ⟨hline', h'⟩ := h'
  rcases h with ⟨rfl, rfl⟩ | h
  · rcases h' with ⟨rfl, rfl⟩ | h'
    · exact ⟨rfl, rfl⟩
    · rw [h', List.mem_append, not_or] at hline
      exact absurd List.mem_cons_self hline.2
  · rcases h' with ⟨rfl, rfl⟩ | h'
    · rw [h, List.mem_append, not_or] at hline'
      exact absurd List.mem_cons_self hline'.2
    · have h1 := splitOnce_eq_some.mpr ⟨h, hline⟩
      have h2 := splitOnce_eq_some.mpr ⟨h', hline'⟩
      exact Prod.mk.inj (Option.some.inj (h1.symm.trans h2))

theorem nextLine_eq_none {cursor : Bytes} : nextLine cursor = none ↔ cursor.all isLineEnd = true := by
  unfold nextLine
  by_cases h : cursor.all isLineEnd = true <;> simp [h]

theorem nextLine_eq_some {cursor line rest : Bytes} :
    nextLine cursor = some (line, rest) ↔ cursor.all isLineEnd = false ∧ Cut cursor line rest := by
  unfold nextLine
  by_cases h : cursor.all isLineEnd = true
  · rw [if_pos h, h]
    exact ⟨nofun, fun hf => absurd hf.1.symm Bool.false_ne_true⟩
  · rw [if_neg h, Option.some_inj]
    have hcut : Cut cursor ((splitOnce newline cursor).getD (cursor, [])).1
        ((splitOnce newline cursor).getD (cursor, [])).2 := by
      cases hsplit : splitOnce newline cursor with
      | none => exact ⟨splitOnce_eq_none.mp hsplit, Or.inl ⟨rfl, rfl⟩⟩
      | some p =>
        obtain ⟨hcursor, hline⟩ := splitOnce_eq_some.mp (show splitOnce newline cursor = some (p.1, p.2) from hsplit)
        exact ⟨hline, Or.inr hcursor⟩
    refine ⟨fun heq => ⟨Bool.eq_false_of_not_eq_true h, ?_⟩, fun hcut' => ?_⟩
    · rw [heq] at hcut
      exact hcut
    · obtain ⟨h1, h2⟩ := hcut.unique hcut'.2
      exact Prod.ext h1 h2

theorem parseDecimal_iff {text : Bytes} {maximum n : ℕ} (hmax : maximum < 2 ^ 64) :
    parseDecimal text maximum = some n ↔ text = decimal n ∧ n ≤ maximum := by
  have hzero : decimal 0 = [48] := by decide
  unfold parseDecimal
  constructor
  · intro h
    split_ifs at h with hshape hrange
    obtain rfl := Option.some.inj h
    rw [not_or, not_or] at hshape
    obtain ⟨hne, hall, hlead⟩ := hshape
    rw [Bool.not_eq_false, List.all_eq_true] at hall
    refine ⟨?_, by omega⟩
    by_cases hhead : text.head? = some 48
    · cases text with
      | nil => exact absurd rfl hne
      | cons c rest =>
        obtain rfl := Option.some.inj hhead
        have hlen : ¬ 1 < (48 :: rest).length := fun hlen => hlead ⟨rfl, hlen⟩
        rw [List.length_cons] at hlen
        obtain rfl := List.eq_nil_of_length_eq_zero (l := rest) (by omega)
        exact hzero.symm
    · exact (decimal_number hne hall hhead).1.symm
  · rintro ⟨rfl, hle⟩
    rcases Nat.eq_zero_or_pos n with rfl | hpos
    · rw [hzero]
      rw [if_neg (by decide), if_neg (by rw [not_or, not_le, not_lt]; exact ⟨by decide, Nat.zero_le _⟩)]
      rfl
    · obtain ⟨hall, hne, hhead, hnumber, -⟩ := decimal_spec hpos
      have hshape : ¬ (decimal n = [] ∨ (decimal n).all isDecimal = false ∨
          (decimal n).head? = some 48 ∧ 1 < (decimal n).length) := by
        rintro (hnil | hdigits | ⟨hlead, -⟩)
        · exact hne hnil
        · rw [List.all_eq_true.mpr hall] at hdigits
          cases hdigits
        · exact hhead hlead
      rw [if_neg hshape, hnumber, if_neg (by omega)]

theorem decimal_isWord {n : ℕ} (h : n < 2 ^ 64) : IsWord (decimal n) ∧ 32 ∉ decimal n := by
  rcases Nat.eq_zero_or_pos n with rfl | hpos
  · exact ⟨⟨by decide, by decide⟩, by decide⟩
  · obtain ⟨hall, hne, -, -, hlen⟩ := decimal_spec hpos
    refine ⟨⟨hne, (hlen 20 (by omega)).trans_lt (by decide)⟩, fun hmem => ?_⟩
    exact absurd (hall 32 hmem) (by decide)

theorem deviceValid_iff {w : Bytes} : deviceValid w = true ↔ Device w := by
  unfold deviceValid Device
  constructor
  · intro h
    cases hsplit : splitOnce 58 w with
    | none =>
      rw [hsplit] at h
      cases h
    | some p =>
      obtain ⟨major, minor⟩ := p
      rw [hsplit] at h
      simp only [Bool.and_eq_true, decide_eq_true_eq, List.all_eq_true] at h
      obtain ⟨⟨⟨hmajor, hminor⟩, hall⟩, hall'⟩ := h
      exact ⟨major, minor, (splitOnce_eq_some.mp hsplit).1, hmajor, hminor, hall, hall'⟩
  · rintro ⟨major, minor, rfl, hmajor, hminor, hall, hall'⟩
    have hcolon : 58 ∉ major := fun hmem => absurd (hall 58 hmem) (by decide)
    rw [splitOnce_eq_some.mpr ⟨rfl, hcolon⟩]
    simp only [Bool.and_eq_true, decide_eq_true_eq, List.all_eq_true]
    exact ⟨⟨⟨hmajor, hminor⟩, hall⟩, hall'⟩

/-- The first option of a list. -/
theorem takeWhile_eq_iff {w first : Bytes} (h : 44 ∉ first) :
    w.takeWhile (fun c => c ≠ 44) = first ↔ w = first ∨ first ++ [44] <+: w := by
  constructor
  · rintro rfl
    cases hrest : w.dropWhile (fun c => c ≠ 44) with
    | nil =>
      refine Or.inl ?_
      have := List.takeWhile_append_dropWhile (p := fun c => decide (c ≠ 44)) (l := w)
      rw [hrest, List.append_nil] at this
      exact this.symm
    | cons c rest =>
      refine Or.inr ⟨rest, ?_⟩
      have hc : c = 44 := by
        have := List.head?_dropWhile_not (fun c : UInt8 => decide (c ≠ 44)) w
        rw [hrest] at this
        simpa using this
      have := List.takeWhile_append_dropWhile (p := fun c => decide (c ≠ 44)) (l := w)
      rw [hrest, hc] at this
      rw [List.append_assoc]
      exact this
  · have hall : ∀ c ∈ first, decide (c ≠ 44) = true := fun c hc => decide_eq_true fun heq => h (heq ▸ hc)
    rintro (rfl | ⟨rest, rfl⟩)
    · exact List.takeWhile_eq_self_iff.mpr hall
    · rw [List.append_assoc, List.takeWhile_append_of_pos hall]
      simp

theorem optionsReadOnly_iff {w : Bytes} {readOnly : Bool} : optionsReadOnly w = some readOnly ↔ Options w readOnly := by
  have hro := @takeWhile_eq_iff w (ascii "ro") (by decide)
  have hrw := @takeWhile_eq_iff w (ascii "rw") (by decide)
  unfold optionsReadOnly Options
  cases readOnly with
  | true =>
    rw [if_pos rfl, ← hro]
    dsimp only
    split_ifs with h1 h2
    · exact iff_of_true rfl h1
    · exact iff_of_false nofun h1
    · exact iff_of_false nofun h1
  | false =>
    rw [if_neg Bool.false_ne_true, ← hrw]
    dsimp only
    split_ifs with h1 h2
    · refine iff_of_false nofun fun h2 => ?_
      exact absurd (h1.symm.trans h2) (by decide)
    · exact iff_of_true rfl h2
    · exact iff_of_false nofun h2

/-- The words after the first word of a line and its space. -/
theorem words_after {p line : Bytes} {count : ℕ} {ws : List Bytes} :
    ¬ (line.length < p.length ∨ p.isPrefixOf line = false) ∧ (splitWords (line.drop p.length) count).1 = some ws ↔
      line = p ++ List.intercalate [32] ws ∧ ws.length = count ∧ ws ≠ [] ∧ ∀ w ∈ ws, IsWord w ∧ 32 ∉ w := by
  rw [splitWords_iff, ← and_assoc]
  refine and_congr_left fun _ => ?_
  constructor
  · rintro ⟨hp, hrest⟩
    rw [not_or, Bool.not_eq_false, List.isPrefixOf_iff_prefix] at hp
    obtain ⟨rest, rfl⟩ := hp.2
    rw [List.drop_left] at hrest
    rw [hrest]
  · rintro rfl
    refine ⟨?_, List.drop_left⟩
    rw [not_or, Bool.not_eq_false, List.isPrefixOf_iff_prefix]
    exact ⟨by rw [List.length_append]; omega, List.prefix_append _ _⟩

theorem readRoot_iff {line type superOptions : Bytes} {readOnly : Bool} :
    readRoot line = some (type, superOptions, readOnly) ↔ RootLine line type superOptions readOnly := by
  unfold readRoot RootLine
  constructor
  · intro h
    by_cases hp : line.length < 5 ∨ ROOT.isPrefixOf line = false
    · rw [if_pos hp] at h
      cases h
    · rw [if_neg hp] at h
      cases hsplit : (splitWords (line.drop 5) 4).1 with
      | none =>
        rw [hsplit] at h
        cases h
      | some ws =>
        obtain ⟨hline, hlen, -, hwords⟩ := (words_after (p := ROOT)).mp ⟨hp, hsplit⟩
        obtain ⟨device, type', mountOptions, super', rfl⟩ := List.length_eq_four.mp hlen
        rw [hsplit] at h
        dsimp only at h
        split_ifs at h with hdevice
        obtain ⟨mount, hmount, h⟩ := Option.bind_eq_some_iff.mp h
        obtain ⟨super, hsuper, h⟩ := Option.bind_eq_some_iff.mp h
        obtain ⟨rfl, hpair⟩ := Prod.mk.inj (Option.some.inj h)
        obtain ⟨rfl, rfl⟩ := Prod.mk.inj hpair
        exact ⟨device, mountOptions, mount, super, hline, hwords, deviceValid_iff.mp hdevice,
          optionsReadOnly_iff.mp hmount, optionsReadOnly_iff.mp hsuper, rfl⟩
  · rintro ⟨device, mountOptions, mount, super, hline, hwords, hdevice, hmount, hsuper, rfl⟩
    obtain ⟨hp, hsplit⟩ := words_after.mpr ⟨hline, rfl, List.cons_ne_nil _ _, hwords⟩
    have hsplit' : (splitWords (line.drop 5) 4).1 = some [device, type, mountOptions, superOptions] := hsplit
    rw [if_neg (by exact hp), hsplit']
    dsimp only
    rw [if_pos (deviceValid_iff.mpr hdevice), optionsReadOnly_iff.mpr hmount, optionsReadOnly_iff.mpr hsuper]
    rfl

theorem readErrors_iff {line : Bytes} {count : ℕ} :
    (∃ firstTime lastTime, readErrors line = some (count, firstTime, lastTime)) ↔ ErrorsLine line count := by
  have hcount : UINT32_MAX < 2 ^ 64 := by decide
  have htime : INT64_MAX < 2 ^ 64 := by decide
  unfold readErrors ErrorsLine
  refine exists₂_congr fun firstTime lastTime => ?_
  constructor
  · intro h
    by_cases hp : line.length < 7 ∨ ERRORS.isPrefixOf line = false
    · rw [if_pos hp] at h
      cases h
    · rw [if_neg hp] at h
      cases hsplit : (splitWords (line.drop 7) 3).1 with
      | none =>
        rw [hsplit] at h
        cases h
      | some ws =>
        obtain ⟨hline, hlen, -, -⟩ := (words_after (p := ERRORS)).mp ⟨hp, hsplit⟩
        obtain ⟨w1, w2, w3, rfl⟩ := List.length_eq_three.mp hlen
        rw [hsplit] at h
        dsimp only at h
        obtain ⟨n1, h1, h⟩ := Option.bind_eq_some_iff.mp h
        obtain ⟨n2, h2, h⟩ := Option.bind_eq_some_iff.mp h
        obtain ⟨n3, h3, h⟩ := Option.bind_eq_some_iff.mp h
        obtain ⟨rfl, hpair⟩ := Prod.mk.inj (Option.some.inj h)
        obtain ⟨rfl, rfl⟩ := Prod.mk.inj hpair
        obtain ⟨rfl, hle1⟩ := (parseDecimal_iff hcount).mp h1
        obtain ⟨rfl, hle2⟩ := (parseDecimal_iff htime).mp h2
        obtain ⟨rfl, hle3⟩ := (parseDecimal_iff htime).mp h3
        exact ⟨hline, hle1, hle2, hle3⟩
  · rintro ⟨hline, h1, h2, h3⟩
    have hwords : ∀ w ∈ [decimal count, decimal firstTime, decimal lastTime], IsWord w ∧ 32 ∉ w := by
      simp only [List.mem_cons, List.not_mem_nil, or_false, forall_eq_or_imp, forall_eq]
      exact ⟨decimal_isWord (h1.trans_lt hcount), decimal_isWord (h2.trans_lt htime), decimal_isWord (h3.trans_lt htime)⟩
    obtain ⟨hp, hsplit⟩ := words_after.mpr ⟨hline, rfl, List.cons_ne_nil _ _, hwords⟩
    have hsplit' : (splitWords (line.drop 7) 3).1 = some [decimal count, decimal firstTime, decimal lastTime] := hsplit
    rw [if_neg (by exact hp), hsplit']
    dsimp only
    rw [(parseDecimal_iff hcount).mpr ⟨rfl, h1⟩, (parseDecimal_iff htime).mpr ⟨rfl, h2⟩,
      (parseDecimal_iff htime).mpr ⟨rfl, h3⟩]
    rfl

/-! ## The states -/

/-- What a state says of the error count and of the options. -/
def stateOf (count : ℕ) (readOnly : Bool) : State :=
  if 0 < count then .errorsRecorded else if readOnly then .readOnly else .healthy

theorem unexpected_state (line : Option (ℤ × Bytes)) : (unexpected line).state = .unknown := rfl

theorem finish_state (formatTime : ℕ → Bytes) (cursor type superOptions : Bytes) (readOnly : Bool)
    (count firstTime lastTime : ℕ) :
    (finish formatTime cursor type superOptions readOnly count firstTime lastTime).state =
      if cursor.all isLineEnd = true then stateOf count readOnly else .unknown := by
  unfold finish stateOf
  by_cases hends : cursor.all isLineEnd = true
  · rw [nextLine_eq_none.mpr hends, if_pos hends]
    dsimp only
    split_ifs <;> rfl
  · rw [if_neg hends]
    cases hnext : nextLine cursor with
    | none => exact absurd (nextLine_eq_none.mp hnext) hends
    | some p => rfl

theorem stateOf_ne (count : ℕ) (readOnly : Bool) : stateOf count readOnly ≠ .unknown := by
  unfold stateOf
  split_ifs <;> decide

/-- What is judged is a first line and what follows it: the state is what their text says in the documented form. -/
theorem judge_of_says {formatTime : ℕ → Bytes} {output text line cursor : Bytes} {firstLength : ℤ} {count : ℕ}
    {readOnly : Bool} (hcut : Cut text line cursor) (h : Says text count readOnly) :
    (judge formatTime output firstLength line cursor).state = stateOf count readOnly := by
  obtain ⟨line', cursor', type, superOptions, hcut', hroot, hrest⟩ := h
  obtain ⟨rfl, rfl⟩ := hcut.unique hcut'
  unfold judge
  rw [readRoot_iff.mpr hroot]
  dsimp only
  by_cases htype : type = EXT4
  · rw [if_pos htype] at hrest ⊢
    obtain ⟨errors, rest, hnext, herrors, hends⟩ := hrest
    have hcursor : cursor.all isLineEnd = false := by
      obtain ⟨firstTime, lastTime, rfl, -⟩ := herrors
      have hmem : (101 : UInt8) ∈ cursor := by
        have : (101 : UInt8) ∈ ERRORS ++ List.intercalate [32] [decimal count, decimal firstTime, decimal lastTime] :=
          List.mem_append_left _ (by decide)
        rcases hnext.2 with ⟨rfl, -⟩ | rfl
        · exact this
        · exact List.mem_append_left _ this
      exact List.all_eq_false.mpr ⟨101, hmem, by decide⟩
    rw [nextLine_eq_some.mpr ⟨hcursor, hnext⟩]
    obtain ⟨firstTime, lastTime, hread⟩ := readErrors_iff.mpr herrors
    dsimp only
    rw [hread]
    dsimp only
    rw [finish_state, if_pos hends]
  · rw [if_neg htype] at hrest ⊢
    obtain ⟨rfl, hends⟩ := hrest
    rw [finish_state, if_pos hends]

theorem says_of_judge {formatTime : ℕ → Bytes} {output text line cursor : Bytes} {firstLength : ℤ}
    (hcut : Cut text line cursor) (h : (judge formatTime output firstLength line cursor).state ≠ .unknown) :
    ∃ count readOnly, Says text count readOnly := by
  unfold judge at h
  cases hroot : readRoot line with
  | none =>
    rw [hroot] at h
    exact absurd rfl h
  | some fields =>
    obtain ⟨type, superOptions, readOnly⟩ := fields
    rw [hroot] at h
    dsimp only at h
    have hsays := readRoot_iff.mp hroot
    by_cases htype : type = EXT4
    · rw [if_pos htype] at h
      cases hnext : nextLine cursor with
      | none =>
        rw [hnext] at h
        exact absurd rfl h
      | some next =>
        obtain ⟨errors, rest⟩ := next
        rw [hnext] at h
        dsimp only at h
        cases hread : readErrors errors with
        | none =>
          rw [hread] at h
          exact absurd rfl h
        | some record =>
          obtain ⟨count, firstTime, lastTime⟩ := record
          rw [hread] at h
          dsimp only at h
          rw [finish_state] at h
          have hends : rest.all isLineEnd = true := by
            by_contra hends
            rw [if_neg hends] at h
            exact h rfl
          refine ⟨count, readOnly, line, cursor, type, superOptions, hcut, hsays, ?_⟩
          rw [if_pos htype]
          exact ⟨errors, rest, (nextLine_eq_some.mp hnext).2, readErrors_iff.mp ⟨_, _, hread⟩, hends⟩
    · rw [if_neg htype, finish_state] at h
      have hends : cursor.all isLineEnd = true := by
        by_contra hends
        rw [if_neg hends] at h
        exact h rfl
      refine ⟨0, readOnly, line, cursor, type, superOptions, hcut, hsays, ?_⟩
      rw [if_neg htype]
      exact ⟨rfl, hends⟩

/-- A line of the text ends in the suffix, with something before it. -/
def ReportsEio (output : Bytes) : Prop := ∃ line ∈ output.splitOn newline, line ≠ EIO_SUFFIX ∧ EIO_SUFFIX <:+ line

theorem endsWithEio_iff {line : Bytes} : endsWithEio line = true ↔ line ≠ EIO_SUFFIX ∧ EIO_SUFFIX <:+ line := by
  unfold endsWithEio
  rw [Bool.and_eq_true, decide_eq_true_eq, List.isSuffixOf_iff_suffix]
  refine and_congr_left fun h => ⟨?_, fun hne => ?_⟩
  · rintro hlt rfl
    exact absurd hlt (lt_irrefl _)
  · exact lt_of_le_of_ne h.length_le fun heq => hne (h.eq_of_length heq).symm

theorem reportsEio_cut {text line rest : Bytes} (h : Cut text line rest) :
    ReportsEio text ↔ endsWithEio line = true ∨ ReportsEio rest := by
  rw [endsWithEio_iff]
  unfold ReportsEio
  obtain ⟨hline, ⟨rfl, rfl⟩ | rfl⟩ := h
  · have hnil : ¬ EIO_SUFFIX <:+ [] := fun h => absurd (List.suffix_nil.mp h) (by decide)
    rw [List.splitOn_eq_singleton hline, List.splitOn_nil]
    simp [hnil]
  · rw [List.splitOn_append_cons_self_of_not_mem hline]
    exact List.exists_mem_cons_iff _ _ _

/-- Line ends alone report nothing. -/
theorem not_reportsEio {text : Bytes} (h : text.all isLineEnd = true) : ¬ ReportsEio text := by
  rintro ⟨line, hline, -, hsuffix⟩
  have hmem : (58 : UInt8) ∈ text := Split.subset_of_mem_splitOn line hline (hsuffix.subset (by decide))
  exact absurd (List.all_eq_true.mp h 58 hmem) (by decide)

theorem findEio_isSome {output : Bytes} : (findEio output).isSome = true ↔ ReportsEio output := by
  induction output using findEio.induct with
  | case1 cursor hnext =>
    rw [findEio]
    split
    · exact iff_of_false Bool.false_ne_true (not_reportsEio (nextLine_eq_none.mp hnext))
    · rename_i line rest hsome
      rw [hnext] at hsome
      cases hsome
  | case2 cursor line rest hnext heio =>
    rw [findEio, reportsEio_cut (nextLine_eq_some.mp hnext).2]
    split
    · rename_i hnone
      rw [hnext] at hnone
      cases hnone
    · rename_i hsome
      rw [hnext] at hsome
      obtain ⟨rfl, rfl⟩ := Prod.mk.inj (Option.some.inj hsome)
      rw [if_pos heio]
      exact iff_of_true rfl (Or.inl heio)
  | case3 cursor line rest hnext heio ih =>
    rw [findEio, reportsEio_cut (nextLine_eq_some.mp hnext).2]
    split
    · rename_i hnone
      rw [hnext] at hnone
      cases hnone
    · rename_i hsome
      rw [hnext] at hsome
      obtain ⟨rfl, rfl⟩ := Prod.mk.inj (Option.some.inj hsome)
      rw [if_neg heio, ih]
      exact ⟨Or.inr, fun h => h.resolve_left heio⟩

/-! ## The whole output -/

theorem failed_state (rc : ℤ) (first : Option (ℤ × Bytes)) : (failed rc first).state = .unknown := by
  unfold failed
  dsimp only
  split_ifs <;> rfl

theorem rootLine_length {line type superOptions : Bytes} {readOnly : Bool}
    (h : RootLine line type superOptions readOnly) : 5 ≤ line.length ∧ line.length < 2 ^ 31 ∧ 114 ∈ line := by
  obtain ⟨device, mountOptions, -, -, rfl, hwords, -⟩ := h
  have hcap : ∀ w ∈ [device, type, mountOptions, superOptions], w.length < 256 := fun w hw => (hwords w hw).1.2
  simp only [List.mem_cons, List.not_mem_nil, or_false, forall_eq_or_imp, forall_eq] at hcap
  obtain ⟨h1, h2, h3, h4⟩ := hcap
  have hroot : ROOT.length = 5 := by decide
  refine ⟨?_, ?_, List.mem_append_left _ (by decide)⟩
  · rw [List.length_append]
    omega
  · simp only [List.intercalate_cons_cons, List.intercalate_singleton, List.length_append, List.length_singleton]
    omega

theorem Says.not_ends {output : Bytes} {count : ℕ} {readOnly : Bool} (h : Says output count readOnly) :
    output.all isLineEnd = false := by
  obtain ⟨line, cursor, type, superOptions, hcut, hroot, -⟩ := h
  refine List.all_eq_false.mpr ⟨114, ?_, by decide⟩
  rcases hcut.2 with ⟨rfl, -⟩ | rfl
  · exact (rootLine_length hroot).2.2
  · exact List.mem_append_left _ (rootLine_length hroot).2.2

/-- What is looked at of an output: of its first line only as many bytes as its length has as an `int`. -/
def lookedAt (output line : Bytes) : Bytes := line.take (toInt line.length).toNat ++ output.drop line.length

theorem Cut.lookedAt {output line cursor : Bytes} (h : Cut output line cursor) :
    Cut (lookedAt output line) (line.take (toInt line.length).toNat) cursor := by
  unfold GuestFilesystem.lookedAt
  refine ⟨fun hmem => h.1 (List.mem_of_mem_take hmem), ?_⟩
  rcases h.2 with ⟨rfl, rfl⟩ | rfl
  · exact Or.inl ⟨by rw [List.drop_length, List.append_nil], rfl⟩
  · exact Or.inr (by rw [List.drop_left])

/-- The state of an exit status of 0 without a reported error is what is looked at of the output says. -/
theorem classify_evidence (formatTime : ℕ → Bytes) {output line cursor : Bytes} (heio : ¬ ReportsEio output)
    (hends : output.all isLineEnd = false) (hcut : Cut output line cursor) :
    (∀ count readOnly, Says (lookedAt output line) count readOnly →
      (classify formatTime 0 output false false).state = stateOf count readOnly) ∧
    ((classify formatTime 0 output false false).state ≠ .unknown →
      ∃ count readOnly, Says (lookedAt output line) count readOnly) := by
  have hfind : findEio output = none := by
    rw [← Option.not_isSome_iff_eq_none]
    exact fun h => heio (findEio_isSome.mp h)
  have hclassify : (classify formatTime 0 output false false) =
      if toInt line.length < 5 then unexpected (some (toInt line.length, output))
      else judge formatTime output (toInt line.length) (line.take (toInt line.length).toNat) cursor := by
    unfold classify
    rw [hfind, nextLine_eq_some.mpr ⟨hends, hcut⟩]
    simp
  rw [hclassify]
  by_cases hshort : toInt line.length < 5
  · rw [if_pos hshort]
    refine ⟨fun count readOnly hsays => ?_, fun h => absurd rfl h⟩
    obtain ⟨line', cursor', type, superOptions, hcut', hroot, -⟩ := hsays
    obtain ⟨rfl, -⟩ := hcut.lookedAt.unique hcut'
    have := (rootLine_length hroot).1
    rw [List.length_take] at this
    omega
  · rw [if_neg hshort]
    exact ⟨fun count readOnly hsays => judge_of_says hcut.lookedAt hsays, says_of_judge hcut.lookedAt⟩

/-- The classification is the one of the documented form. -/
def Exact (formatTime : ℕ → Bytes) (rc : ℤ) (output : Bytes) (timedOut cancelled : Bool) : Prop :=
  let state := (classify formatTime rc output timedOut cancelled).state
  (state = .unreadable ↔ timedOut = false ∧ cancelled = false ∧ 0 ≤ rc ∧ rc ≤ 254 ∧ ReportsEio output) ∧
    (∀ count readOnly, timedOut = false → cancelled = false → rc = 0 → ¬ ReportsEio output →
      Says output count readOnly → state = stateOf count readOnly) ∧
    (state ≠ .unreadable → state ≠ .unknown →
      timedOut = false ∧ cancelled = false ∧ rc = 0 ∧ ∃ count readOnly, Says output count readOnly)

/-- A first line of 2 GiB or more, of which the part that is looked at is a root line. -/
def Overlong (output : Bytes) : Prop :=
  ∃ line cursor count readOnly, Cut output line cursor ∧ 2 ^ 31 ≤ line.length ∧
    Says (lookedAt output line) count readOnly

/-- A state that is unknown is right where the output is no evidence. -/
theorem exact_of_unknown {formatTime : ℕ → Bytes} {rc : ℤ} {output : Bytes} {timedOut cancelled : Bool}
    (h : (classify formatTime rc output timedOut cancelled).state = .unknown)
    (hnot : ¬ (timedOut = false ∧ cancelled = false ∧ 0 ≤ rc ∧ rc ≤ 254 ∧ ReportsEio output))
    ( hsays : timedOut = false → cancelled = false → rc = 0 → ∀ count readOnly, ¬ Says output count readOnly) :
    Exact formatTime rc output timedOut cancelled := by
  unfold Exact
  rw [h]
  exact ⟨iff_of_false nofun hnot, fun count readOnly h1 h2 h3 _ hs => absurd hs ( hsays h1 h2 h3 count readOnly),
    fun _ hne => absurd rfl hne⟩

theorem not_says_of_long {output line cursor : Bytes} (hcut : Cut output line cursor) (hlong : 2 ^ 31 ≤ line.length)
    (count : ℕ) (readOnly : Bool) : ¬ Says output count readOnly := by
  rintro ⟨line', cursor', type, superOptions, hcut', hroot, -⟩
  obtain ⟨rfl, -⟩ := hcut.unique hcut'
  exact absurd (rootLine_length hroot).2.1 (not_lt.mpr hlong)

theorem lookedAt_of_short {output line cursor : Bytes} (hcut : Cut output line cursor) (hshort : line.length < 2 ^ 31) :
    lookedAt output line = output := by
  unfold lookedAt
  rw [toInt_of_lt hshort, Int.toNat_natCast, List.take_length]
  rcases hcut.2 with ⟨rfl, -⟩ | rfl
  · rw [List.drop_length, List.append_nil]
  · rw [List.drop_left]

theorem exact_evidence_iff (formatTime : ℕ → Bytes) {output : Bytes} (heio : ¬ ReportsEio output) :
    Exact formatTime 0 output false false ↔ ¬ Overlong output := by
  have hnot : ¬ (false = false ∧ false = false ∧ (0 : ℤ) ≤ 0 ∧ (0 : ℤ) ≤ 254 ∧ ReportsEio output) :=
    fun h => heio h.2.2.2.2
  by_cases hends : output.all isLineEnd = true
  · -- no line at all
    have hstate : (classify formatTime 0 output false false).state = .unknown := by
      have hfind : findEio output = none := by
        rw [← Option.not_isSome_iff_eq_none]
        exact fun h => heio (findEio_isSome.mp h)
      unfold classify
      rw [hfind, nextLine_eq_none.mpr hends]
      rfl
    refine iff_of_true (exact_of_unknown hstate hnot fun _ _ _ count readOnly hs => ?_) ?_
    · rw [hs.not_ends] at hends
      cases hends
    · rintro ⟨line, cursor, count, readOnly, hcut, -, hs⟩
      have hline : ∀ c ∈ line, c ∈ output := by
        rcases hcut.2 with ⟨rfl, -⟩ | rfl
        · exact fun c hc => hc
        · exact fun c hc => List.mem_append_left _ hc
      have hall : (lookedAt output line).all isLineEnd = true := by
        rw [List.all_eq_true] at hends ⊢
        intro c hc
        rcases List.mem_append.mp hc with hc | hc
        · exact hends c (hline c (List.mem_of_mem_take hc))
        · exact hends c (List.mem_of_mem_drop hc)
      rw [hs.not_ends] at hall
      cases hall
  · rw [Bool.not_eq_true] at hends
    cases hnext : nextLine output with
    | none =>
      rw [nextLine_eq_none.mp hnext] at hends
      cases hends
    | some next =>
      obtain ⟨line, cursor⟩ := next
      have hcut := (nextLine_eq_some.mp hnext).2
      obtain ⟨ hsays, hof⟩ := classify_evidence formatTime heio hends hcut
      by_cases hshort : line.length < 2 ^ 31
      · rw [lookedAt_of_short hcut hshort] at hsays hof
        refine iff_of_true ⟨iff_of_false (fun hstate => ?_) hnot, fun count readOnly _ _ _ _ hs => hsays count readOnly hs,
          fun _ hne => ⟨rfl, rfl, rfl, hof hne⟩⟩ ?_
        · obtain ⟨count, readOnly, hs⟩ := hof (by rw [hstate]; decide)
          have := hsays count readOnly hs
          rw [hstate] at this
          revert this
          unfold stateOf
          split_ifs <;> decide
        · rintro ⟨line', cursor', count, readOnly, hcut', hlong, -⟩
          obtain ⟨rfl, -⟩ := hcut.unique hcut'
          exact absurd hshort (not_lt.mpr hlong)
      · have hnone := not_says_of_long hcut (not_lt.mp hshort)
        constructor
        · rintro ⟨-, -, hform⟩ ⟨line', cursor', count, readOnly, hcut', -, hs⟩
          obtain ⟨rfl, -⟩ := hcut.unique hcut'
          have hstate := hsays count readOnly hs
          obtain ⟨-, -, -, count', readOnly', hs'⟩ := hform (by
            rw [hstate]
            unfold stateOf
            split_ifs <;> decide) (by rw [hstate]; exact stateOf_ne _ _)
          exact hnone count' readOnly' hs'
        · intro hlong
          refine exact_of_unknown ?_ hnot fun _ _ _ => hnone
          by_contra hne
          obtain ⟨count, readOnly, hs⟩ := hof hne
          exact hlong ⟨line, cursor, count, readOnly, hcut, not_lt.mp hshort, hs⟩

/-- The root line of a mounted filesystem other than ext4. -/
def SHORT_LINE : Bytes := ascii "root 1:2 xfs rw rw"

/-- The root line, with a last word that goes on for `n` bytes. -/
def overlong (n : ℕ) : Bytes := SHORT_LINE ++ List.replicate n 97

theorem says_short : Says SHORT_LINE 0 false := by
  refine ⟨SHORT_LINE, [], ascii "xfs", ascii "rw", ⟨by decide, Or.inl ⟨rfl, rfl⟩⟩, ?_, ?_⟩
  · have hoptions : Options (ascii "rw") false := optionsReadOnly_iff.mp (by decide)
    refine ⟨ascii "1:2", ascii "rw", false, false, by decide, ?_, ?_, hoptions, hoptions, rfl⟩
    · have hwords : ∀ w ∈ [ascii "1:2", ascii "xfs", ascii "rw", ascii "rw"], w ≠ [] ∧ w.length < 256 ∧ 32 ∉ w := by decide
      exact fun w hw => ⟨⟨(hwords w hw).1, (hwords w hw).2.1⟩, (hwords w hw).2.2⟩
    · exact deviceValid_iff.mp (by decide)
  · rw [if_neg (by decide)]
    exact ⟨rfl, rfl⟩

theorem overlong_spec (n : ℕ) : Cut (overlong (n + 1)) (overlong (n + 1)) [] ∧ ¬ ReportsEio (overlong (n + 1)) := by
  have hnewline : newline ∉ overlong (n + 1) := by
    intro h
    rcases List.mem_append.mp h with h | h
    · exact absurd h (by decide)
    · exact absurd (List.eq_of_mem_replicate h) (by decide)
  refine ⟨⟨hnewline, Or.inl ⟨rfl, rfl⟩⟩, ?_⟩
  rintro ⟨line, hline, -, before, hsuffix⟩
  rw [List.splitOn_eq_singleton hnewline] at hline
  obtain rfl := List.mem_singleton.mp hline
  have hlast : before ++ (EIO_SUFFIX.dropLast ++ [114]) = (SHORT_LINE ++ List.replicate n 97) ++ [97] := by
    rw [List.append_assoc, ← List.replicate_succ']
    exact hsuffix
  rw [← List.append_assoc] at hlast
  exact absurd (List.append_inj' hlast rfl).2 (by decide)

/-- Only the root line is looked at. -/
theorem lookedAt_overlong {n : ℕ} (h : n % 2 ^ 32 = 0) : lookedAt (overlong n) (overlong n) = SHORT_LINE := by
  have hshort : SHORT_LINE.length = 18 := by decide
  have hlen : (overlong n).length = 18 + n := by rw [overlong, List.length_append, hshort, List.length_replicate]
  have hint : (toInt (overlong n).length).toNat = SHORT_LINE.length := by
    rw [hlen, hshort]
    unfold toInt
    omega
  unfold lookedAt
  rw [List.drop_length, List.append_nil, hint, overlong, List.take_left]

end Hamn.Host.GuestFilesystem
