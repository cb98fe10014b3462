import Hamn.Lib.Result
import Hamn.Lib.Shell

/-!
# RemoteCommand — the quoted command line of a remote command

Models `remote_word_is_shell_safe` and `remote_command_build` of `src/host/sshmgr/ssh_master.c`.  The sizes are those of
`size_t`: every sum is taken modulo `2 ^ 64`, as is the bound of the overflow check.

* `quotedSize`, `size`: the sizes as numbers, which the first pass computes modulo `2 ^ 64` (`firstPass_eq_ok`).
* `reads_wordText`: the shell reads the text of a word as the word.
* `Refused`: where the overflow check stops the first pass.  It does not stop where the words before the last one already
  need `SIZE_MAX` bytes: the bound of the check wraps there.
-/

namespace Hamn.Host.RemoteCommand

open Bytes Result

def SIZE_MAX : ℕ := 2 ^ 64 - 1

/-- A string of C: no byte of it is NUL, and `size_t` has its size with the NUL that ends it. -/
structure CString where
  bytes : Bytes
  nul : 0 ∉ bytes
  fits : bytes.length < SIZE_MAX
  deriving DecidableEq

inductive Errno where
  | EINVAL
  | EOVERFLOW
  | ENOMEM
  deriving DecidableEq, Repr

/-! ## The code -/

/-- What a safe word holds besides letters and digits: `_`, `@`, `%`, `+`, `=`, `:`, `,`, `.`, `/` and `-`. -/
def SAFE : Bytes := [95, 64, 37, 43, 61, 58, 44, 46, 47, 45]

def remoteWordIsShellSafe (word : Bytes) : Bool :=
  word ≠ [] && word.all fun ch => isAlphanumeric ch || SAFE.contains ch

/-- `word_size` of the first pass. -/
def wordSize (word : Bytes) : ℕ :=
  if remoteWordIsShellSafe word then word.length
  else word.foldl (fun size c => (size + if c = 39 then 4 else 1) % 2 ^ 64) 2

/-- The first pass over the words that are left, `first` telling whether none was seen. -/
def firstPass (first : Bool) (needed : ℕ) : List CString → Except Errno ℕ
  | [] => .ok needed
  | word :: rest =>
    let separator := if first then 0 else 1
    if (2 ^ 64 + (SIZE_MAX - needed) - separator) % 2 ^ 64 < wordSize word.bytes then .error .EOVERFLOW
    else firstPass false ((needed + (wordSize word.bytes + separator)) % 2 ^ 64) rest

/-- A word between the quotes: `'` is written `'\''`. -/
def quoted : Bytes → Bytes
  | [] => []
  | c :: rest => (if c = 39 then [39, 92, 39, 39] else [c]) ++ quoted rest

def wordText (word : Bytes) : Bytes := if remoteWordIsShellSafe word then word else 39 :: (quoted word ++ [39])

/-- The bytes that the second pass writes, the final NUL included. -/
def secondPass (first : Bool) : List CString → Bytes
  | [] => [0]
  | word :: rest => (if first then [] else [32]) ++ (wordText word.bytes ++ secondPass false rest)

/-- The size of the allocation and what is written to it. -/
def remoteCommandBuild (malloc : ℕ → Bool) (remoteArgv : List CString) : Except Errno (ℕ × Bytes) := do
  refuse (remoteArgv = []) .EINVAL
  let needed ← firstPass true 1 remoteArgv
  refuse (malloc needed = false) .ENOMEM
  pure (needed, secondPass true remoteArgv)

/-! ## Sizes -/

/-- The number of bytes of a word in the command. -/
def quotedSize (word : Bytes) : ℕ :=
  if remoteWordIsShellSafe word then word.length else word.length + 3 * word.count 39 + 2

/-- The number of bytes of the command of these words, with its NUL. -/
def size (words : List CString) : ℕ := 1 + (words.map fun w => quotedSize w.bytes).sum + (words.length - 1)

/-- The separator of the word after `before`. -/
def separator (before : List CString) : ℕ := if before = [] then 0 else 1

/-- The overflow check stops the first pass at `word`, the word after `before`: the size and the separator are in the
range of `size_t`, and they are not with the word. -/
def Refused (before : List CString) (word : CString) : Prop :=
  size before % 2 ^ 64 + separator before ≤ SIZE_MAX ∧
    SIZE_MAX < size before % 2 ^ 64 + separator before + quotedSize word.bytes % 2 ^ 64

instance (before : List CString) (word : CString) : Decidable (Refused before word) :=
  inferInstanceAs (Decidable (_ ∧ _))

theorem size_concat (before : List CString) (word : CString) :
    size (before ++ [word]) = size before + separator before + quotedSize word.bytes := by
  unfold size separator
  cases before with
  | nil => simp
  | cons w before =>
    simp
    omega

theorem size_le_append (before after : List CString) : size before ≤ size (before ++ after) := by
  unfold size
  simp
  omega

theorem foldl_size (word : Bytes) (n : ℕ) :
    word.foldl (fun size c => (size + if c = 39 then 4 else 1) % 2 ^ 64) (n % 2 ^ 64) =
      (n + word.length + 3 * word.count 39) % 2 ^ 64 := by
  induction word generalizing n with
  | nil => simp
  | cons c word ih =>
    rw [List.foldl_cons, Nat.mod_add_mod, ih]
    by_cases hc : c = 39
    · subst hc
      simp
      omega
    · rw [if_neg hc, List.count_cons_of_ne hc, List.length_cons]
      omega

theorem wordSize_eq (word : CString) : wordSize word.bytes = quotedSize word.bytes % 2 ^ 64 := by
  unfold wordSize quotedSize
  by_cases hsafe : remoteWordIsShellSafe word.bytes = true
  · rw [if_pos hsafe, if_pos hsafe, Nat.mod_eq_of_lt]
    have := word.fits
    unfold SIZE_MAX at this
    omega
  · rw [if_neg hsafe, if_neg hsafe]
    have := foldl_size word.bytes 2
    rw [Nat.mod_eq_of_lt (by norm_num : 2 < 2 ^ 64)] at this
    rw [this]
    congr 1
    omega

/-- The first pass ends with the size modulo `2 ^ 64`, where no word is refused. -/
theorem firstPass_eq_ok {rest done : List CString} {needed : ℕ} :
    firstPass (decide (done = [])) (size done % 2 ^ 64) rest = .ok needed ↔
      (∀ before word after, rest = before ++ word :: after → ¬ Refused (done ++ before) word) ∧
        needed = size (done ++ rest) % 2 ^ 64 := by
  induction rest generalizing done with
  | nil =>
    rw [firstPass, List.append_nil]
    constructor
    · intro h
      refine ⟨fun before word after h => absurd h (by simp), ?_⟩
      exact (Except.ok.inj h).symm
    · rintro ⟨-, rfl⟩
      rfl
  | cons word rest ih =>
    have hsep : (if decide (done = []) = true then 0 else 1) = separator done := by simp [separator]
    have hle : separator done ≤ 1 := by
      unfold separator
      split <;> omega
    have hlt := Nat.mod_lt (size done) (by norm_num : 0 < 2 ^ 64)
    have hword := Nat.mod_lt (quotedSize word.bytes) (by norm_num : 0 < 2 ^ 64)
    have hcheck : (2 ^ 64 + (SIZE_MAX - size done % 2 ^ 64) - separator done) % 2 ^ 64 < wordSize word.bytes ↔
        Refused done word := by
      rw [wordSize_eq]
      unfold Refused SIZE_MAX
      omega
    have hnext : (size done % 2 ^ 64 + (wordSize word.bytes + separator done)) % 2 ^ 64 =
        size (done ++ [word]) % 2 ^ 64 := by
      rw [wordSize_eq, size_concat]
      omega
    rw [firstPass]
    rw [hsep, hnext, if_congr hcheck rfl rfl]
    by_cases hr : Refused done word
    · rw [if_pos hr]
      constructor
      · intro h
        cases h
      · rintro ⟨h, -⟩
        exact absurd hr (by simpa using h [] word rest rfl)
    · rw [if_neg hr]
      have := @ih (done ++ [word])
      rw [show decide (done ++ [word] = []) = false by simp] at this
      rw [this, List.append_assoc, List.singleton_append]
      refine and_congr_left fun _ => ⟨?_, ?_⟩
      · rintro h before w after heq
        cases before with
        | nil =>
          obtain ⟨rfl, -⟩ := List.cons_eq_cons.mp heq
          simpa using hr
        | cons b before =>
          obtain ⟨rfl, htail⟩ := List.cons_eq_cons.mp heq
          simpa using h before w after htail
      · rintro h before w after rfl
        simpa using h (word :: before) w after rfl

theorem wordText_length (word : Bytes) : (wordText word).length = quotedSize word := by
  have hquoted : ∀ w : Bytes, (quoted w).length = w.length + 3 * w.count 39 := by
    intro w
    induction w with
    | nil => rfl
    | cons c w ih =>
      rw [quoted, List.length_append, ih]
      by_cases hc : c = 39
      · subst hc
        simp
        omega
      · rw [if_neg hc, List.count_cons_of_ne hc]
        simp
        omega
  unfold wordText quotedSize
  by_cases hsafe : remoteWordIsShellSafe word = true
  · rw [if_pos hsafe, if_pos hsafe]
  · rw [if_neg hsafe, if_neg hsafe, List.length_cons, List.length_append, hquoted, List.length_singleton]

theorem secondPass_length (words : List CString) :
    (secondPass false words).length = 1 + (words.map fun w => quotedSize w.bytes).sum + words.length := by
  induction words with
  | nil => rfl
  | cons w words ih =>
    rw [secondPass, List.length_append, List.length_append, ih, wordText_length]
    simp
    omega

/-- The second pass writes as many bytes as the words take. -/
theorem secondPass_true_length (words : List CString) : (secondPass true words).length = size words := by
  unfold size
  cases words with
  | nil => rfl
  | cons w words =>
    rw [secondPass, List.length_append, List.length_append, secondPass_length, wordText_length]
    simp
    omega

/-! ## Quoting -/

theorem ordinary_of_safe {c : UInt8} (h : (isAlphanumeric c || SAFE.contains c) = true) : Shell.isOrdinary c = true := by
  revert h
  exact forall_byte (P := fun c => (isAlphanumeric c || SAFE.contains c) = true → Shell.isOrdinary c = true)
    (by decide +kernel) c

theorem quoted_eq (w : Bytes) : quoted w = w.flatMap fun c => if c = 39 then [39, 92, 39, 39] else [c] := by
  induction w with
  | nil => rfl
  | cons c w ih => rw [quoted, ih, List.flatMap_cons]

theorem reads_wordText (w : Bytes) : Shell.Reads (wordText w) w := by
  unfold wordText
  by_cases hsafe : remoteWordIsShellSafe w = true
  · rw [if_pos hsafe]
    unfold remoteWordIsShellSafe at hsafe
    rw [Bool.and_eq_true, decide_eq_true_eq, List.all_eq_true] at hsafe
    obtain ⟨hne, hall⟩ := hsafe
    exact Shell.reads_ordinary (fun c hc => ordinary_of_safe (hall c hc)) hne
  · rw [if_neg hsafe, quoted_eq]
    refine Shell.reads_quoted (fun words v c => ?_) w
    by_cases hc : c = 39
    · -- the quote ends, an escaped quote follows, and the next quote starts
      subst hc
      rfl
    · rw [if_neg hc]
      exact Shell.run_single rfl (fun h => hc (List.mem_singleton.mp h).symm) rfl

theorem secondPass_eq (words : List CString) (hne : words ≠ []) :
    secondPass true words = List.intercalate [32] (words.map fun w => wordText w.bytes) ++ [0] := by
  have hrest : ∀ w : CString, ∀ words, secondPass true (w :: words) =
      List.intercalate [32] ((w :: words).map fun w => wordText w.bytes) ++ [0] := by
    intro w words
    induction words generalizing w with
    | nil => simp [secondPass, List.intercalate]
    | cons v words ih =>
      have := ih v
      rw [secondPass, if_pos rfl, List.nil_append] at this ⊢
      rw [secondPass, if_neg (by decide), this]
      simp [List.intercalate]
  cases words with
  | nil => exact absurd rfl hne
  | cons w words => exact hrest w words

theorem nul_not_mem_wordText {w : Bytes} (h : 0 ∉ w) : 0 ∉ wordText w := by
  have hquoted : ∀ w : Bytes, 0 ∉ w → 0 ∉ quoted w := by
    intro w hw
    induction w with
    | nil => exact hw
    | cons c w ih =>
      rw [List.mem_cons, not_or] at hw
      rw [quoted, List.mem_append, not_or]
      refine ⟨?_, ih hw.2⟩
      by_cases hc : c = 39
      · rw [if_pos hc]
        decide
      · rw [if_neg hc, List.mem_singleton]
        exact hw.1
  unfold wordText
  by_cases hsafe : remoteWordIsShellSafe w = true
  · rwa [if_pos hsafe]
  · rw [if_neg hsafe, List.mem_cons, List.mem_append, List.mem_singleton, not_or, not_or]
    exact ⟨by decide, hquoted w h, by decide⟩

theorem nul_not_mem_intercalate {texts : List Bytes} (h : ∀ t ∈ texts, 0 ∉ t) : 0 ∉ List.intercalate [32] texts := by
  induction texts with
  | nil => exact List.not_mem_nil
  | cons t texts ih =>
    have ht := h t List.mem_cons_self
    have hrest := ih fun u hu => h u (List.mem_cons_of_mem _ hu)
    cases texts with
    | nil => rwa [List.intercalate_singleton]
    | cons u texts =>
      rw [List.intercalate_cons_cons, List.mem_append, List.mem_append, not_or, not_or]
      exact ⟨⟨ht, by decide⟩, hrest⟩

/-- The text of the second pass is a string of C that the shell splits into the words. -/
theorem secondPass_splits {head : CString} {rest : List CString} (heq : 61 ∉ head.bytes)
    (hres : head.bytes ∉ Shell.RESERVED) :
    ∃ command, secondPass true (head :: rest) = command ++ [0] ∧ 0 ∉ command ∧
      Shell.split command = some ((head :: rest).map CString.bytes) := by
  refine ⟨_, secondPass_eq _ (List.cons_ne_nil _ _), ?_, ?_⟩
  · refine nul_not_mem_intercalate fun t ht => ?_
    obtain ⟨w, -, rfl⟩ := List.mem_map.mp ht
    exact nul_not_mem_wordText w.nul
  · refine Shell.split_words ?_ ?_ (by simp)
    · rw [List.forall₂_map_left_iff, List.forall₂_map_right_iff, List.forall₂_same]
      exact fun w _ => reads_wordText w.bytes
    · rintro w ⟨⟩
      exact ⟨heq, hres⟩

/-! ## The command -/

theorem remoteCommandBuild_eq_ok {malloc : ℕ → Bool} {argv : List CString} {needed : ℕ} {text : Bytes}
    (hne : argv ≠ []) : remoteCommandBuild malloc argv = .ok (needed, text) ↔
      (∀ before word after, argv = before ++ word :: after → ¬ Refused before word) ∧
        needed = size argv % 2 ^ 64 ∧ malloc needed = true ∧ text = secondPass true argv := by
  have hfirst : firstPass true 1 argv = .ok needed ↔
      (∀ before word after, argv = before ++ word :: after → ¬ Refused before word) ∧ needed = size argv % 2 ^ 64 :=
    @firstPass_eq_ok argv [] needed
  unfold remoteCommandBuild
  rw [refuse_bind hne]
  constructor
  · intro h
    obtain ⟨n, hn, h⟩ := bind_eq_ok.mp h
    obtain ⟨_, hmalloc, h⟩ := bind_eq_ok.mp h
    obtain ⟨rfl, rfl⟩ := Prod.mk.inj (Except.ok.inj h)
    obtain ⟨hnone, hsize⟩ := hfirst.mp hn
    exact ⟨hnone, hsize, by simpa using refuse_eq_ok.mp hmalloc, rfl⟩
  · rintro ⟨hnone, hsize, hmalloc, rfl⟩
    rw [hfirst.mpr ⟨hnone, hsize⟩, ok_bind, refuse_bind (by simp [hmalloc])]
    rfl

/-- No word is refused where the size of the command is in the range of `size_t`. -/
theorem not_refused {argv : List CString} (h : size argv ≤ SIZE_MAX) :
    ∀ before word after, argv = before ++ word :: after → ¬ Refused before word := by
  rintro before word after rfl ⟨-, hover⟩
  have hle := size_le_append (before ++ [word]) after
  rw [List.append_assoc, List.singleton_append, size_concat] at hle
  have hbefore := Nat.mod_le (size before) (2 ^ 64)
  have hword := Nat.mod_le (quotedSize word.bytes) (2 ^ 64)
  omega

/-- A command that is returned has the size of its allocation, and the shell splits it into the words. -/
def QuotesExactly (argv : List CString) : Prop :=
  ∀ malloc needed text, remoteCommandBuild malloc argv = .ok (needed, text) →
    text.length = needed ∧ ∃ command, text = command ++ [0] ∧ 0 ∉ command ∧
      Shell.split command = some (argv.map CString.bytes)

/-- `echo`, `it's` and the empty word. -/
def ECHO : List CString :=
  [⟨[101, 99, 104, 111], by decide, by decide⟩, ⟨[105, 116, 39, 115], by decide, by decide⟩, ⟨[], by decide, by decide⟩]

/-- A word after words that need `SIZE_MAX` bytes is not refused, and its command is larger than its allocation. -/
theorem not_quotesExactly {words : List CString} (word : CString) (hsize : size words = SIZE_MAX) (hne : words ≠ []) :
    ¬ QuotesExactly (words ++ [word]) := by
  intro hexact
  have hnone : ∀ before w after, words ++ [word] = before ++ w :: after → ¬ Refused before w := by
    intro before w after h
    rcases List.eq_nil_or_concat after with rfl | ⟨after, last, rfl⟩
    · obtain ⟨rfl, -⟩ := List.append_inj' h rfl
      rintro ⟨hfit, -⟩
      unfold separator at hfit
      rw [if_neg hne, hsize] at hfit
      exact absurd hfit (by decide)
    · have hwords : words = before ++ w :: after := by
        refine (@List.append_inj' _ _ [word] _ [last] ?_ rfl).1
        simpa using h
      exact not_refused hsize.le before w after hwords
  have hbuild := (@remoteCommandBuild_eq_ok (fun _ => true) (words ++ [word]) _ _ (by simp)).mpr
    ⟨hnone, rfl, rfl, rfl⟩
  have hlen := (hexact _ _ _ hbuild).1
  rw [secondPass_true_length, size_concat, hsize] at hlen
  unfold separator SIZE_MAX at hlen
  rw [if_neg hne] at hlen
  omega

/-- A word of `n` letters. -/
def letters (n : ℕ) (h : n < SIZE_MAX) : CString where
  bytes := List.replicate n 97
  nul := fun h => absurd (List.eq_of_mem_replicate h) (by decide)
  fits := List.length_replicate.trans_lt h

theorem quotedSize_letters {n : ℕ} (h : n < SIZE_MAX) (hn : 0 < n) : quotedSize (letters n h).bytes = n := by
  have hsafe : remoteWordIsShellSafe (letters n h).bytes = true := by
    unfold remoteWordIsShellSafe
    rw [Bool.and_eq_true, decide_eq_true_eq, List.all_eq_true]
    refine ⟨List.ne_nil_of_length_pos (List.length_replicate.symm ▸ hn), fun c hc => ?_⟩
    obtain rfl := List.eq_of_mem_replicate hc
    decide
  unfold quotedSize
  rw [if_pos hsafe]
  exact List.length_replicate

theorem size_replicate (word : CString) {k : ℕ} (hk : 0 < k) :
    size (List.replicate k word) = k * (quotedSize word.bytes + 1) := by
  obtain ⟨k, rfl⟩ := Nat.exists_eq_succ_of_ne_zero hk.ne'
  unfold size
  rw [List.map_replicate, List.sum_replicate, List.length_replicate, smul_eq_mul]
  ring_nf
  omega

theorem letters_plain {n : ℕ} (h : n < SIZE_MAX) (hn : 10 ≤ n) :
    61 ∉ (letters n h).bytes ∧ (letters n h).bytes ∉ Shell.RESERVED := by
  refine ⟨fun hmem => absurd (List.eq_of_mem_replicate hmem) (by decide), fun hmem => ?_⟩
  have hshort : ∀ w ∈ Shell.RESERVED, w.length < 10 := by decide
  have hlen : (letters n h).bytes.length = n := List.length_replicate
  have := hshort _ hmem
  omega

theorem replicate_ne_nil {k : ℕ} (word : CString) (hk : 0 < k) : List.replicate k word ≠ [] :=
  List.ne_nil_of_length_pos (List.length_replicate.symm ▸ hk)

theorem lt_SIZE_MAX {n : ℕ} (h : n ≤ 2 ^ 32) : n < SIZE_MAX := by
  unfold SIZE_MAX
  omega

end Hamn.Host.RemoteCommand
