import Hamn.Tui.Native

/-!
# ToggleAll — the key that shows all containers or only the running ones

`toggleAll` appends `--all=true` or `--all=false` to a container list, or replaces such a word at its end.  What the CLI
makes of a command line is told by `cliFrom`: the options that are set, the last one wins, and where the line ends.

* `dockerListBoolFrom_cli`: `docker_list_bool` reads the value that the CLI uses.
* `Flips`: what a toggle is to do.
* `toggleAll_flips_iff`: it does so, any number of times, exactly if the line ends where an option can stand.
-/

namespace Hamn.Tui

/-! ## What the CLI sets -/

/-- Where a command line ends: where an option can stand, before the value of an option, or behind `--`. -/
inductive Ending where
  | option
  | value
  | terminated
  deriving DecidableEq, Repr

/-- An option that is set, with its value if it has one. -/
abbrev Setting := Word × Option Word

/-- The short options that take a value, and those that take none. -/
def LIST_SHORT_VALUES : Word := "fncH".toList
def LIST_SHORT_FLAGS : Word := "aslqD".toList

/-- `--name=value`, apart at the first `=`. -/
def splitAssignment : Word → Option (Word × Word)
  | [] => none
  | c :: rest => if c = '=' then some ([], rest) else (splitAssignment rest).map fun p => (c :: p.1, p.2)

/-- The options of a group, and the one whose value is the next word.  Behind an unknown one nothing is known. -/
def cliGroup : Word → List Setting × Option Word
  | [] => ([], none)
  | flag :: rest =>
    let name := ['-', flag]
    if LIST_SHORT_VALUES.contains flag then if rest.isEmpty then ([], some name) else ([(name, some rest)], none)
    else if rest.head? = some '=' then ([(name, some (rest.drop 1))], none)
    else if LIST_SHORT_FLAGS.contains flag = false then ([(name, none)], none)
    else ((name, none) :: (cliGroup rest).1, (cliGroup rest).2)

/-- The options that one word sets, and the one whose value is the next word. -/
def cliWord (arg : Word) : List Setting × Option Word :=
  if startsWith arg "--".toList then
    match splitAssignment arg with
    | some (name, value) => ([(name, some value)], none)
    | none => if LIST_VALUES.contains arg then ([], some arg) else ([(arg, none)], none)
  else if dashed arg then cliGroup (arg.drop 1)
  else ([], none)

/-- The options that the words set, and where they end; `pending` is the option whose value comes next. -/
def cliFrom : Option Word → List Word → List Setting × Ending
  | none, [] => ([], .option)
  | some _, [] => ([], .value)
  | some name, value :: rest => ((name, some value) :: (cliFrom none rest).1, (cliFrom none rest).2)
  | none, arg :: rest =>
    if arg = "--".toList then ([], .terminated)
    else
      let (set, pending) := cliWord arg
      (set ++ (cliFrom pending rest).1, (cliFrom pending rest).2)

/-- The value of `--all` after the settings. -/
def allAfter (showing : Bool) (set : List Setting) : Bool :=
  set.foldl (fun showing s => if s.1 = "--all".toList ∨ s.1 = "-a".toList then (s.2.map dockerBool).getD true else showing)
    showing

/-- The words from the command on. -/
def listWords (list : Invocation) : List Word :=
  list.args.drop ((commandIndex list.args list.workspace).getD list.args.length)

/-- The value of `--all` that the CLI uses. -/
def cliAll (list : Invocation) : Bool := allAfter false (cliFrom none (listWords list)).1

/-- Where the command line of the list ends. -/
def ending (list : Invocation) : Ending := (cliFrom none (listWords list)).2

def IsOverride (word : Word) : Prop := ∃ value, word = "--all=".toList ++ value

/-- A toggle: both readings of `--all` are negated, and the other words are as they were, in order; the override comes
behind them, where an option can stand. -/
structure Flips (before after : Invocation) : Prop where
  shown : (dockerListBool after "--all".toList 'a').1 = !(dockerListBool before "--all".toList 'a').1
  used : cliAll after = !cliAll before
  words : ∃ front override, after.args = front ++ [override] ∧ IsOverride override ∧
    (before.args = front ∨ ∃ old, before.args = front ++ [old] ∧ IsOverride old) ∧
    ending { before with args := front } = .option

/-! ## One word -/

theorem splitAssignment_eq_some {w name value : Word} (h : splitAssignment w = some (name, value)) :
    w = name ++ '=' :: value := by
  induction w generalizing name with
  | nil => exact absurd h nofun
  | cons c rest ih =>
    unfold splitAssignment at h
    split_ifs at h with hc
    · obtain ⟨rfl, rfl⟩ := Prod.mk.inj (Option.some.inj h)
      rw [hc]
      rfl
    · obtain ⟨⟨front, back⟩, hp, h⟩ := Option.map_eq_some_iff.mp h
      obtain ⟨rfl, rfl⟩ := Prod.mk.inj h
      rw [ih hp]
      rfl

theorem stripStart_eq_some {w start value : Word} : stripStart w start = some value ↔ w = start ++ value := by
  unfold stripStart startsWith
  constructor
  · intro h
    split_ifs at h with hprefix
    obtain rfl := Option.some.inj h
    obtain ⟨rest, rfl⟩ := List.isPrefixOf_iff_prefix.mp hprefix
    rw [List.drop_left]
  · rintro rfl
    rw [if_pos (List.isPrefixOf_iff_prefix.mpr (List.prefix_append _ _)), List.drop_left]

/-- The override sets `--all`. -/
theorem cliWord_override (value : Word) :
    cliWord ("--all=".toList ++ value) = ([("--all".toList, some value)], none) := rfl

/-- A group is read as the CLI reads it. -/
theorem listFlags_cli (showing : Bool) (flags : Word) :
    (listFlags 'a' showing flags).1 = allAfter showing (cliGroup flags).1 ∧
      ((listFlags 'a' showing flags).2 = (cliGroup flags).2.isSome) := by
  induction flags generalizing showing with
  | nil => exact ⟨rfl, rfl⟩
  | cons flag rest ih =>
    unfold listFlags cliGroup LIST_SHORT_VALUES LIST_SHORT_FLAGS
    by_cases hvalue : "fncH".toList.contains flag = true
    · have hne : flag ≠ 'a' := by
        rintro rfl
        exact absurd hvalue (by decide)
      rw [if_pos hvalue, if_pos hvalue]
      split_ifs with hempty
      · exact ⟨rfl, hempty⟩
      · refine ⟨?_, by simpa using hempty⟩
        simp [allAfter, hne]
    · rw [if_neg hvalue, if_neg hvalue]
      by_cases heq : rest.head? = some '='
      · obtain ⟨value, rfl⟩ : ∃ value, rest = '=' :: value := by
          cases rest with
          | nil => exact absurd heq nofun
          | cons c value => exact ⟨value, by rw [Option.some.inj heq]⟩
        have hstrip : stripStart ('=' :: value) "=".toList = some value := stripStart_eq_some.mpr rfl
        rw [if_pos heq, if_pos (.inl heq), hstrip]
        refine ⟨?_, rfl⟩
        by_cases ha : flag = 'a'
        · simp [allAfter, ha]
        · simp [allAfter, ha]
      · have hstrip : stripStart rest "=".toList = none := by
          rw [Option.eq_none_iff_forall_ne_some]
          intro value h
          rw [stripStart_eq_some.mp h] at heq
          exact heq rfl
        rw [if_neg heq, hstrip]
        by_cases hflag : "aslqD".toList.contains flag = false
        · have hne : flag ≠ 'a' := by
            rintro rfl
            exact absurd hflag (by decide)
          rw [if_pos hflag, if_pos (.inr hflag), if_neg hne]
          refine ⟨?_, rfl⟩
          simp [allAfter, hne]
        · rw [if_neg hflag, if_neg (not_or.mpr ⟨heq, hflag⟩)]
          obtain ⟨h1, h2⟩ := ih (if flag = 'a' then (Option.map dockerBool none).getD true else showing)
          refine ⟨h1.trans ?_, h2⟩
          by_cases ha : flag = 'a'
          · simp [allAfter, ha]
          · simp [allAfter, ha]

/-- The option whose value comes next is not `--all`. -/
def Benign (pending : Option Word) : Prop := ∀ name ∈ pending, name ≠ "--all".toList ∧ name ≠ "-a".toList

theorem benign_none : Benign none := nofun

theorem listValues_spec {arg : Word} (h : LIST_VALUES.contains arg = true) :
    startsWith arg "--".toList = true ∧ splitAssignment arg = none ∧ arg ≠ "--all".toList ∧ arg ≠ "-a".toList := by
  have hall : ∀ arg ∈ LIST_VALUES, startsWith arg "--".toList = true ∧ splitAssignment arg = none ∧
      arg ≠ "--all".toList ∧ arg ≠ "-a".toList := by decide
  exact hall arg (List.contains_iff_mem.mp h)

theorem cliGroup_benign (flags : Word) : Benign (cliGroup flags).2 := by
  induction flags with
  | nil => exact nofun
  | cons flag rest ih =>
    unfold cliGroup LIST_SHORT_VALUES
    by_cases hvalue : "fncH".toList.contains flag = true
    · rw [if_pos hvalue]
      split_ifs
      · intro name hname
        obtain rfl := Option.some.inj hname
        refine ⟨fun h => absurd (congrArg List.length h) (by simp), fun h => ?_⟩
        obtain rfl : flag = 'a' := (List.cons.inj (List.cons.inj h).2).1
        exact absurd hvalue (by decide)
      · exact nofun
    · rw [if_neg hvalue]
      split_ifs
      · exact nofun
      · exact nofun
      · exact ih

theorem cliWord_benign (arg : Word) : Benign (cliWord arg).2 := by
  unfold cliWord
  by_cases hlong : startsWith arg "--".toList = true
  · rw [if_pos hlong]
    cases splitAssignment arg with
    | some p => exact nofun
    | none =>
      dsimp only
      split_ifs with hvalue
      · intro name hname
        obtain rfl := Option.some.inj hname
        exact (listValues_spec hvalue).2.2
      · exact nofun
  · rw [if_neg hlong]
    split_ifs
    · exact cliGroup_benign _
    · exact nofun

theorem allAfter_append (showing : Bool) (a b : List Setting) :
    allAfter showing (a ++ b) = allAfter (allAfter showing a) b := List.foldl_append

theorem allAfter_benign (showing : Bool) {name : Word} (h : Benign (some name)) (value : Option Word) :
    allAfter showing [(name, value)] = showing := by
  obtain ⟨h1, h2⟩ := h name rfl
  exact if_neg (not_or.mpr ⟨h1, h2⟩)

/-- A long option other than `--all` does not set it. -/
theorem cliWord_long (showing : Bool) {arg : Word} (hlong : startsWith arg "--".toList = true)
    (hall : arg ≠ "--all".toList) (hoverride : stripStart arg "--all=".toList = none)
    (hvalue : LIST_VALUES.contains arg = false) :
    allAfter showing (cliWord arg).1 = showing ∧ (cliWord arg).2 = none := by
  have hshort : ∀ rest, arg ≠ "-a".toList ++ rest := by
    rintro rest rfl
    exact absurd hlong (by simp [startsWith])
  unfold cliWord
  rw [if_pos hlong]
  cases hsplit : splitAssignment arg with
  | some p =>
    obtain ⟨name, value⟩ := p
    have harg := splitAssignment_eq_some hsplit
    refine ⟨allAfter_benign showing ?_ (some value), rfl⟩
    intro other hother
    obtain rfl := Option.some.inj hother
    refine ⟨?_, ?_⟩
    · rintro rfl
      rw [stripStart_eq_some.mpr (show arg = "--all=".toList ++ value from harg)] at hoverride
      exact absurd hoverride nofun
    · rintro rfl
      exact hshort ('=' :: value) harg
  | none =>
    dsimp only
    rw [if_neg (by rw [hvalue]; exact Bool.false_ne_true)]
    refine ⟨allAfter_benign showing ?_ none, rfl⟩
    intro other hother
    obtain rfl := Option.some.inj hother
    exact ⟨hall, fun h => hshort [] (h.trans (List.append_nil _).symm)⟩

/-- One word of `docker_list_bool` is one word of the CLI. -/
theorem dockerListBoolFrom_word (i : ℕ) (showing : Bool) (at_ : Option ℕ) {arg : Word} (h : arg ≠ "--".toList)
    (rest : List Word) :
    dockerListBoolFrom "--all".toList 'a' false i (showing, at_) (arg :: rest) =
      dockerListBoolFrom "--all".toList 'a' (cliWord arg).2.isSome (i + 1)
        (allAfter showing (cliWord arg).1, if (stripStart arg "--all=".toList).isSome then some i else at_) rest := by
  rw [dockerListBoolFrom, if_neg h]
  by_cases hall : arg = "--all".toList
  · subst hall
    rfl
  · rw [if_neg hall, show "--all".toList ++ ['='] = "--all=".toList from rfl]
    cases hoverride : stripStart arg "--all=".toList with
    | some value =>
      rw [stripStart_eq_some.mp hoverride, cliWord_override]
      rfl
    | none =>
      simp only [Option.isSome_none, Bool.false_eq_true, if_false]
      by_cases hvalue : LIST_VALUES.contains arg = true
      · obtain ⟨hlong, hsplit, -, -⟩ := listValues_spec hvalue
        have hword : cliWord arg = ([], some arg) := by
          unfold cliWord
          rw [if_pos hlong, hsplit]
          exact if_pos hvalue
        rw [if_pos hvalue, hword]
        rfl
      · rw [if_neg hvalue]
        by_cases hlong : startsWith arg "--".toList = true
        · obtain ⟨hset, hpending⟩ := cliWord_long showing hlong hall hoverride (by simpa using hvalue)
          rw [if_neg fun h => Bool.false_ne_true (h.2.symm.trans hlong), hset, hpending]
          rfl
        · by_cases hdashed : dashed arg = true
          · have hword : cliWord arg = cliGroup (arg.drop 1) := by
              unfold cliWord
              rw [if_neg hlong, if_pos hdashed]
            obtain ⟨hset, hskip⟩ := listFlags_cli showing (arg.drop 1)
            rw [if_pos ⟨hdashed, by simpa using hlong⟩, hword, ← hset, ← hskip]
          · have hword : cliWord arg = ([], none) := by
              unfold cliWord
              rw [if_neg hlong, if_neg hdashed]
            rw [if_neg fun h => hdashed h.1, hword]
            rfl

/-! ## All words -/

/-- `docker_list_bool` reads the value of `--all` that the CLI uses. -/
theorem dockerListBoolFrom_cli (args : List Word) {pending : Option Word} (hp : Benign pending) (i : ℕ) (showing : Bool)
    (at_ : Option ℕ) :
    (dockerListBoolFrom "--all".toList 'a' pending.isSome i (showing, at_) args).1 =
      allAfter showing (cliFrom pending args).1 := by
  induction args generalizing pending i showing at_ with
  | nil => cases pending <;> rfl
  | cons arg rest ih =>
    cases pending with
    | some name =>
      rw [cliFrom, show (name, some arg) :: (cliFrom none rest).1 = [(name, some arg)] ++ (cliFrom none rest).1 from rfl,
        allAfter_append, allAfter_benign showing hp]
      exact ih benign_none (i + 1) showing at_
    | none =>
      by_cases hdash : arg = "--".toList
      · subst hdash
        rfl
      · rw [Option.isSome_none, dockerListBoolFrom_word i showing at_ hdash, cliFrom, if_neg hdash, allAfter_append]
        exact ih (cliWord_benign arg) (i + 1) _ _

/-- The override that `docker_list_bool` found last stands where an option can. -/
theorem dockerListBoolFrom_at (args : List Word) (pending : Option Word) (i : ℕ) (showing : Bool) (at_ : Option ℕ) {j : ℕ}
    (h : (dockerListBoolFrom "--all".toList 'a' pending.isSome i (showing, at_) args).2 = some j) :
    at_ = some j ∨ ∃ front old rest, args = front ++ old :: rest ∧ IsOverride old ∧ j = i + front.length ∧
      (cliFrom pending front).2 = .option := by
  induction args generalizing pending i showing at_ with
  | nil => cases pending <;> exact .inl h
  | cons arg rest ih =>
    cases pending with
    | some name =>
      obtain hat | ⟨front, old, tail, rfl, hold, hj, hend⟩ := ih none (i + 1) showing at_ h
      · exact .inl hat
      · exact .inr ⟨arg :: front, old, tail, rfl, hold, by rw [hj, List.length_cons]; omega, hend⟩
    | none =>
      by_cases hdash : arg = "--".toList
      · subst hdash
        exact .inl h
      · rw [Option.isSome_none, dockerListBoolFrom_word i showing at_ hdash] at h
        obtain hat | ⟨front, old, tail, rfl, hold, hj, hend⟩ := ih (cliWord arg).2 (i + 1) _ _ h
        · split_ifs at hat with hoverride
          · obtain rfl := Option.some.inj hat
            obtain ⟨value, hvalue⟩ := Option.isSome_iff_exists.mp hoverride
            exact .inr ⟨[], arg, rest, rfl, ⟨value, stripStart_eq_some.mp hvalue⟩, rfl, rfl⟩
          · exact .inl hat
        · refine .inr ⟨arg :: front, old, tail, rfl, hold, by rw [hj, List.length_cons]; omega, ?_⟩
          rw [cliFrom, if_neg hdash]
          exact hend

/-- Behind words that end where an option can stand the line is read on. -/
theorem cliFrom_append {front : List Word} {pending : Option Word} (h : (cliFrom pending front).2 = .option)
    (rest : List Word) : cliFrom pending (front ++ rest) =
      ((cliFrom pending front).1 ++ (cliFrom none rest).1, (cliFrom none rest).2) := by
  induction front generalizing pending with
  | nil =>
    cases pending with
    | none => rfl
    | some name => exact absurd h nofun
  | cons arg front ih =>
    cases pending with
    | some name =>
      rw [List.cons_append, cliFrom, ih h]
      rfl
    | none =>
      by_cases hdash : arg = "--".toList
      · subst hdash
        exact absurd h nofun
      · rw [cliFrom, if_neg hdash] at h
        rw [List.cons_append, cliFrom, if_neg hdash, cliFrom, if_neg hdash]
        dsimp only
        rw [ih h, List.append_assoc]

/-- Elsewhere one more word does not set `--all`. -/
theorem allAfter_unread {args : List Word} {pending : Option Word} (hp : Benign pending)
    (h : (cliFrom pending args).2 ≠ .option) (showing : Bool) (word : Word) :
    allAfter showing (cliFrom pending (args ++ [word])).1 = allAfter showing (cliFrom pending args).1 := by
  induction args generalizing pending showing with
  | nil =>
    cases pending with
    | none => exact absurd rfl h
    | some name => exact allAfter_benign showing hp (some word)
  | cons arg rest ih =>
    cases pending with
    | some name => exact ih benign_none h _
    | none =>
      by_cases hdash : arg = "--".toList
      · subst hdash
        rfl
      · rw [cliFrom, if_neg hdash] at h
        rw [List.cons_append, cliFrom, if_neg hdash, cliFrom, if_neg hdash, allAfter_append, allAfter_append]
        exact ih (cliWord_benign arg) h _

/-! ## The command stays where it is -/

theorem commandIndexFrom_spec {workspace : Workspace} {args : List Word} {skip : Bool} {i j : ℕ}
    (h : commandIndexFrom workspace skip i args = some j) :
    i ≤ j ∧ ∃ front word rest, args = front ++ word :: rest ∧ j = i + front.length ∧ dashed word = false := by
  induction args generalizing skip i with
  | nil => cases skip <;> exact absurd h nofun
  | cons arg args ih =>
    have hlater : ∀ skip', commandIndexFrom workspace skip' (i + 1) args = some j →
        i ≤ j ∧ ∃ front word rest, arg :: args = front ++ word :: rest ∧ j = i + front.length ∧ dashed word = false := by
      intro skip' h
      obtain ⟨hle, front, word, rest, rfl, rfl, hword⟩ := ih h
      exact ⟨by omega, arg :: front, word, rest, rfl, by rw [List.length_cons]; omega, hword⟩
    cases skip with
    | true => exact hlater false h
    | false =>
      rw [commandIndexFrom] at h
      cases hstep : commandStep workspace arg with
      | command =>
        rw [hstep] at h
        obtain rfl := Option.some.inj h
        refine ⟨le_rfl, [], arg, args, rfl, rfl, ?_⟩
        -- every other kind of word is dashed
        by_contra hdashed
        unfold commandStep at hstep
        dsimp only at hstep
        rw [if_neg hdashed] at hstep
        split_ifs at hstep
        cases hgroup : shortGroup arg workspace with
        | none => simp [hgroup] at hstep
        | some parts =>
          simp only [hgroup] at hstep
          split_ifs at hstep
      | alone => exact hlater false (by rwa [hstep] at h)
      | withValue => exact hlater true (by rwa [hstep] at h)
      | unknown =>
        rw [hstep] at h
        exact absurd h nofun

theorem commandIndexFrom_append {workspace : Workspace} {args : List Word} (more : List Word) {skip : Bool} {i j : ℕ}
    (h : commandIndexFrom workspace skip i args = some j) :
    commandIndexFrom workspace skip i (args ++ more) = some j := by
  induction args generalizing skip i with
  | nil => cases skip <;> exact absurd h nofun
  | cons arg args ih =>
    cases skip with
    | true => exact ih h
    | false =>
      rw [commandIndexFrom] at h
      rw [List.cons_append, commandIndexFrom]
      cases hstep : commandStep workspace arg with
      | command => rwa [hstep] at h
      | alone => exact ih (by rwa [hstep] at h)
      | withValue => exact ih (by rwa [hstep] at h)
      | unknown =>
        rw [hstep] at h
        exact absurd h nofun

theorem commandIndexFrom_front {workspace : Workspace} {args more : List Word} {skip : Bool} {i j : ℕ}
    (h : commandIndexFrom workspace skip i (args ++ more) = some j) (hj : j < i + args.length) :
    commandIndexFrom workspace skip i args = some j := by
  induction args generalizing skip i with
  | nil =>
    have hle := (commandIndexFrom_spec h).1
    rw [List.length_nil] at hj
    omega
  | cons arg args ih =>
    rw [List.length_cons] at hj
    rw [List.cons_append] at h
    cases skip with
    | true => exact ih h (by omega)
    | false =>
      rw [commandIndexFrom] at h ⊢
      cases hstep : commandStep workspace arg with
      | command => rwa [hstep] at h
      | alone => exact ih (by rwa [hstep] at h) (by omega)
      | withValue => exact ih (by rwa [hstep] at h) (by omega)
      | unknown =>
        rw [hstep] at h
        exact absurd h nofun

/-! ## The toggle -/

/-- The list has a command, before its `i`-th word there are options only. -/
def HasCommand (list : Invocation) (i : ℕ) : Prop := commandIndex list.args list.workspace = some i

theorem listWords_eq {list : Invocation} {i : ℕ} (h : HasCommand list i) : listWords list = list.args.drop i := by
  rw [listWords, h, Option.getD_some]

theorem HasCommand.lt {list : Invocation} {i : ℕ} (h : HasCommand list i) : i < list.args.length := by
  obtain ⟨-, front, word, rest, hargs, rfl, -⟩ := commandIndexFrom_spec h
  rw [hargs, List.length_append, List.length_cons]
  omega

theorem HasCommand.append {list : Invocation} {i : ℕ} (h : HasCommand list i) (word : Word) :
    HasCommand { list with args := list.args ++ [word] } i := commandIndexFrom_append [word] h

theorem listWords_append {list : Invocation} {i : ℕ} (h : HasCommand list i) (word : Word) :
    listWords { list with args := list.args ++ [word] } = listWords list ++ [word] := by
  rw [listWords_eq (h.append word), listWords_eq h]
  exact List.drop_append_of_le_length h.lt.le

theorem dockerListBool_eq (list : Invocation) : (dockerListBool list "--all".toList 'a').1 = cliAll list :=
  dockerListBoolFrom_cli (listWords list) benign_none _ false none

/-- An override where an option can stand is the value that counts. -/
theorem cliAll_override {list : Invocation} {i : ℕ} (h : HasCommand list i) (hend : ending list = .option)
    (value : Word) : cliAll { list with args := list.args ++ ["--all=".toList ++ value] } = dockerBool value ∧
      ending { list with args := list.args ++ ["--all=".toList ++ value] } = .option := by
  have hone : cliFrom none ["--all=".toList ++ value] = ([("--all".toList, some value)], .option) := rfl
  unfold cliAll ending
  rw [listWords_append h, cliFrom_append hend, hone]
  refine ⟨?_, rfl⟩
  rw [allAfter_append]
  rfl

/-- The override that a toggle of the list writes. -/
def override (showing : Bool) : Word := if showing then "--all=false".toList else "--all=true".toList

theorem override_spec (showing : Bool) : ∃ value, override showing = "--all=".toList ++ value ∧ dockerBool value = !showing := by
  cases showing with
  | true => exact ⟨"false".toList, rfl, by decide⟩
  | false => exact ⟨"true".toList, rfl, by decide⟩

/-- A toggle replaces an override at the end, or appends one. -/
theorem toggleAll_cases {list : Invocation} {i : ℕ} (h : HasCommand list i) :
    (∃ front old, list.args = front ++ [old] ∧ IsOverride old ∧ HasCommand { list with args := front } i ∧
        ending { list with args := front } = .option ∧
        toggleAll list = { list with args := front ++ [override (cliAll list)] }) ∨
      toggleAll list = { list with args := list.args ++ [override (cliAll list)] } := by
  have htoggle : toggleAll list =
      if (dockerListBool list "--all".toList 'a').2.any fun j => j + 1 == list.args.length then
        { list with args := list.args.dropLast ++ [override (cliAll list)] }
      else { list with args := list.args ++ [override (cliAll list)] } := by
    rw [← dockerListBool_eq]
    rfl
  rw [htoggle]
  split_ifs with hat
  · left
    obtain ⟨j, hj, hlast⟩ := (Option.any_eq_true _ _).mp hat
    obtain ⟨front, old, rest, hargs, hold, hj, hend⟩ :=
      (dockerListBoolFrom_at (listWords list) none _ false none hj).resolve_left nofun
    rw [h, Option.getD_some] at hj
    rw [listWords_eq h] at hargs
    have hlt := h.lt
    have hlast : j + 1 = list.args.length := of_decide_eq_true hlast
    have hlength := congrArg List.length hargs
    rw [List.length_drop, List.length_append, List.length_cons] at hlength
    obtain rfl : rest = [] := List.eq_nil_of_length_eq_zero (by omega)
    have hall : list.args = list.args.take i ++ front ++ [old] := by
      rw [List.append_assoc, ← hargs, List.take_append_drop]
    have hsize : (list.args.take i ++ front).length = i + front.length := by
      rw [List.length_append, List.length_take_of_le hlt.le]
    -- the command is no option, so it stands before the override
    have hne : front ≠ [] := by
      rintro rfl
      obtain ⟨-, before, word, after, hsplit, rfl, hword⟩ := commandIndexFrom_spec h
      rw [hsplit, Nat.zero_add, List.drop_left] at hargs
      obtain ⟨value, rfl⟩ := hold
      obtain ⟨rfl, -⟩ := List.cons.inj hargs
      exact absurd hword (by simp [dashed])
    have hcommand : HasCommand { list with args := list.args.take i ++ front } i := by
      unfold HasCommand commandIndex at h ⊢
      rw [hall] at h
      refine commandIndexFrom_front h ?_
      rw [hsize]
      have := List.length_pos_of_ne_nil hne
      omega
    refine ⟨list.args.take i ++ front, old, hall, hold, hcommand, ?_, ?_⟩
    · unfold ending
      rw [listWords_eq hcommand]
      have hdrop : (list.args.take i ++ front).drop i = front := by
        have htake : (list.args.take i).length = i := List.length_take_of_le hlt.le
        exact List.drop_left' htake
      rw [hdrop]
      exact hend
    · have hdropLast : list.args.dropLast = list.args.take i ++ front := by
        conv_lhs => rw [hall]
        exact List.dropLast_concat
      rw [hdropLast]
  · exact .inr rfl

/-- Where an option can stand at the end of the line a toggle does what it is to do, and leaves such a line. -/
theorem toggleAll_flips {list : Invocation} {i : ℕ} (h : HasCommand list i) (hend : ending list = .option) :
    Flips list (toggleAll list) ∧ HasCommand (toggleAll list) i ∧ ending (toggleAll list) = .option := by
  obtain ⟨value, hvalue, hbool⟩ := override_spec (cliAll list)
  have hoverride : IsOverride (override (cliAll list)) := ⟨value, hvalue⟩
  have hcli : ∀ l : Invocation, HasCommand l i → ending l = .option →
      cliAll { l with args := l.args ++ [override (cliAll list)] } = !cliAll list ∧
        ending { l with args := l.args ++ [override (cliAll list)] } = .option := by
    intro l hl hlend
    have hset := cliAll_override hl hlend value
    rw [← hvalue, hbool] at hset
    exact hset
  obtain ⟨front, old, hargs, hold, hfront, hfrontEnd, htoggle⟩ | htoggle := toggleAll_cases h
  · obtain ⟨hall, hends⟩ := hcli { list with args := front } hfront hfrontEnd
    rw [htoggle]
    refine ⟨⟨?_, hall, front, _, rfl, hoverride, .inr ⟨old, hargs, hold⟩, hfrontEnd⟩, hfront.append _, hends⟩
    rw [dockerListBool_eq, dockerListBool_eq]
    exact hall
  · obtain ⟨hall, hends⟩ := hcli list h hend
    rw [htoggle]
    refine ⟨⟨?_, hall, list.args, _, rfl, hoverride, .inl rfl, hend⟩, h.append _, hends⟩
    rw [dockerListBool_eq, dockerListBool_eq]
    exact hall

/-- Anywhere else the appended override is not read. -/
theorem toggleAll_unread {list : Invocation} {i : ℕ} (h : HasCommand list i) (hend : ending list ≠ .option) :
    cliAll (toggleAll list) = cliAll list := by
  obtain ⟨front, old, hargs, ⟨value, rfl⟩, hfront, hfrontEnd, -⟩ | htoggle := toggleAll_cases h
  · have hall := (cliAll_override hfront hfrontEnd value).2
    have hlist : { list with args := front ++ ["--all=".toList ++ value] } = list := by
      rw [← hargs]
    rw [hlist] at hall
    exact absurd hall hend
  · rw [htoggle]
    unfold cliAll
    rw [listWords_append h]
    exact allAfter_unread benign_none hend false _

/-- For every container list: any number of toggles each negate the value of `--all` and keep the other words, exactly
if the command line ends where an option can stand. -/
theorem toggleAll_flips_iff {list : Invocation}
    (h : resource list.args list.workspace = some "containers".toList) :
    (∀ n, Flips (toggleAll^[n] list) (toggleAll^[n + 1] list)) ↔ ending list = .option := by
  obtain ⟨i, hi⟩ : ∃ i, HasCommand list i := by
    unfold resource at h
    by_cases hother : has list.args (words ["--help", "-h"]) list.workspace = true ∨
        (options list.args list.workspace).contains "--".toList = true
    · rw [if_pos hother] at h
      exact absurd h nofun
    · rw [if_neg hother] at h
      obtain ⟨i, hi, -⟩ := Option.bind_eq_some_iff.mp h
      exact ⟨i, hi⟩
  constructor
  · intro hflips
    by_contra hend
    have hnot : cliAll (toggleAll list) = !cliAll list := (hflips 0).used
    rw [toggleAll_unread hi hend] at hnot
    cases hall : cliAll list <;> rw [hall] at hnot <;> exact absurd hnot (by decide)
  · intro hend n
    -- every list of the sequence has the command where it was, and an end for options
    have hkeeps : HasCommand (toggleAll^[n] list) i ∧ ending (toggleAll^[n] list) = .option := by
      induction n with
      | zero => exact ⟨hi, hend⟩
      | succ n ih =>
        rw [Function.iterate_succ_apply']
        exact (toggleAll_flips ih.1 ih.2).2
    rw [Function.iterate_succ_apply']
    exact (toggleAll_flips hkeeps.1 hkeeps.2).1

/-- A list with these words for the daemon that the environment names. -/
def dockerList (args : List String) : Invocation where
  workspace := .containers
  args := words args
  target := []
  resource := some "containers".toList
  hamnProfile := none
  resetSelection := false

theorem toggleAll_flips_filter :
    ending (dockerList ["ps", "-as", "--filter", "--all"]) = .option ∧
      ∀ n, Flips (toggleAll^[n] (dockerList ["ps", "-as", "--filter", "--all"]))
        (toggleAll^[n + 1] (dockerList ["ps", "-as", "--filter", "--all"])) :=
  ⟨by decide, (toggleAll_flips_iff (by decide)).mpr (by decide)⟩

/-- The override of a list that ends with an option without its value becomes that value. -/
theorem toggleAll_dangling :
    resource (dockerList ["ps", "--filter"]).args .containers = some "containers".toList ∧
      (toggleAll (dockerList ["ps", "--filter"])).args = words ["ps", "--filter", "--all=true"] ∧
      ¬ ∀ n, Flips (toggleAll^[n] (dockerList ["ps", "--filter"])) (toggleAll^[n + 1] (dockerList ["ps", "--filter"])) := by
  refine ⟨by decide, by decide, fun h => ?_⟩
  exact absurd (h 0).shown (by decide)

end Hamn.Tui
