import Mathlib.Tactic

/-!
# PathTree — a directory tree as a map from paths

`Files` gives each path (the names from its top) the directory or file that is there.  The caller owns everything, and
the owner's bits of a directory say whether its entries can be reached and changed; a call fails with `none`.

* `mkdir`, `createDirAll`, `createNew`, `write`, `chmod`: the calls.
* `createDirAll_eq`: what is made of the missing directories of a path.
* `chmodAll_eq`: modes given from the bottom up.
-/

namespace PathTree

variable {ν : Type} [DecidableEq ν]

inductive Node where
  | dir (mode : ℕ)
  | file (mode : ℕ) (content : List UInt8)
  deriving DecidableEq, Repr

/-- The owner may look up the entries. -/
def Node.searchable : Node → Bool
  | dir mode => mode.testBit 6
  | file _ _ => false

/-- The owner may look up, make and remove entries. -/
def Node.editable : Node → Bool
  | dir mode => mode.testBit 6 && mode.testBit 7
  | file _ _ => false

def Node.setMode (mode : ℕ) : Node → Node
  | dir _ => dir mode
  | file _ content => file mode content

abbrev Files (ν : Type) := List ν → Option Node

namespace Files

def put (t : Files ν) (p : List ν) (n : Node) : Files ν := Function.update t p (some n)

/-- Every directory down to `p` can be passed. -/
def enters (t : Files ν) (p : List ν) : Bool := p.inits.all fun q => (t q).any Node.searchable

/-- A new entry. -/
def place (n : Node) (p : List ν) (t : Files ν) : Option (Files ν) :=
  if t p = none ∧ t.enters p.dropLast ∧ (t p.dropLast).any Node.editable then some (t.put p n) else none

def mkdir (mode : ℕ) : List ν → Files ν → Option (Files ν) := place (.dir mode)

/-- `O_CREAT | O_EXCL` -/
def createNew (mode : ℕ) : List ν → Files ν → Option (Files ν) := place (.file mode [])

def ensureDir (mode : ℕ) (t : Files ν) (p : List ν) : Option (Files ν) :=
  match t p with
  | some (.dir _) => if t.enters p.dropLast ∨ p = [] then some t else none
  | some (.file _ _) => none
  | none => mkdir mode p t

/-- `fs::create_dir_all`: every directory down to `p`. -/
def createDirAll (mode : ℕ) (p : List ν) (t : Files ν) : Option (Files ν) := p.inits.foldlM (ensureDir mode) t

/-- The whole content of an open file. -/
def write (content : List UInt8) (p : List ν) (t : Files ν) : Option (Files ν) :=
  match t p with
  | some (.file mode _) => some (t.put p (.file mode content))
  | _ => none

/-- `fchmod` of an open file. -/
def fchmod (mode : ℕ) (p : List ν) (t : Files ν) : Option (Files ν) := (t p).map fun n => t.put p (n.setMode mode)

def chmod (mode : ℕ) (p : List ν) (t : Files ν) : Option (Files ν) :=
  if t.enters p.dropLast ∨ p = [] then t.fchmod mode p else none

/-! ## What the calls do -/

omit [DecidableEq ν] in
theorem enters_iff {t : Files ν} {p : List ν} :
    t.enters p = true ↔ ∀ q, q <+: p → ∃ m, t q = some (.dir m) ∧ m.testBit 6 := by
  unfold enters
  rw [List.all_eq_true]
  refine forall_congr' fun q => ?_
  rw [List.mem_inits]
  refine imp_congr_right fun _ => ?_
  rw [Option.any_eq_true]
  constructor
  · rintro ⟨n, hn, hs⟩
    cases n with
    | dir m => exact ⟨m, hn, hs⟩
    | file m c => exact absurd hs (by simp [Node.searchable])
  · rintro ⟨m, hm, hs⟩
    exact ⟨.dir m, hm, hs⟩

theorem place_eq {t : Files ν} {p : List ν} {m : ℕ} (n : Node) (hp : t p = none)
    (henters : t.enters p.dropLast = true) (hparent : t p.dropLast = some (.dir m))
    (hm : m.testBit 6 ∧ m.testBit 7) : place n p t = some (t.put p n) := by
  refine if_pos ⟨hp, henters, ?_⟩
  rw [hparent]
  simpa [Node.editable] using hm

/-- A directory that its owner can work in. -/
def Open (n : Option Node) : Prop := ∃ m, n = some (.dir m) ∧ m.testBit 6 ∧ m.testBit 7

/-- The missing directories of a path. -/
def withDirs (t : Files ν) (mode : ℕ) (p : List ν) : Files ν := fun q =>
  if q <+: p ∧ t q = none then some (.dir mode) else t q

theorem createDirAll_concat (mode : ℕ) (p : List ν) (x : ν) (t : Files ν) :
    createDirAll mode (p ++ [x]) t = (createDirAll mode p t).bind fun t => ensureDir mode t (p ++ [x]) := by
  have hinits : (p ++ [x]).inits = p.inits ++ [p ++ [x]] := by simp [List.inits_append]
  unfold createDirAll
  rw [hinits, List.foldlM_append]
  simp only [List.foldlM_cons, List.foldlM_nil, bind_pure]
  rfl

/-- `create_dir_all` makes what is missing of the path and nothing else. -/
theorem createDirAll_eq {mode : ℕ} (hmode : mode.testBit 6 ∧ mode.testBit 7) {t : Files ν} {p : List ν}
    (htop : Open (t [])) (h : ∀ q, q <+: p → t q = none ∨ Open (t q)) :
    createDirAll mode p t = some (t.withDirs mode p) ∧ ∀ q, q <+: p → Open (t.withDirs mode p q) := by
  have hopen : ∀ p, (∀ q, q <+: p → t q = none ∨ Open (t q)) → ∀ q, q <+: p → Open (t.withDirs mode p q) := by
    intro p hp q hq
    unfold withDirs
    rcases hp q hq with hnone | hq'
    · rw [if_pos ⟨hq, hnone⟩]
      exact ⟨mode, rfl, hmode⟩
    · obtain ⟨m, hm, hbits⟩ := hq'
      rw [if_neg (by simp [hm])]
      exact ⟨m, hm, hbits⟩
  refine ⟨?_, hopen p h⟩
  induction p using List.reverseRecOn with
  | nil =>
    obtain ⟨m, hm, -⟩ := htop
    have hsame : t.withDirs mode [] = t := by
      funext q
      refine if_neg ?_
      rintro ⟨hq, hnone⟩
      rw [List.prefix_nil.mp hq, hm] at hnone
      cases hnone
    rw [hsame]
    simp [createDirAll, ensureDir, hm]
  | append_singleton p x ih =>
    have hp : ∀ q, q <+: p → t q = none ∨ Open (t q) := fun q hq => h q (hq.trans (List.prefix_append p [x]))
    have hdirs := hopen p hp
    have hprefix : ¬ p ++ [x] <+: p := fun hle => absurd hle.length_le (by simp)
    have henters : (t.withDirs mode p).enters (p ++ [x]).dropLast = true := by
      rw [List.dropLast_concat, enters_iff]
      intro q hq
      obtain ⟨m, hm, hs, -⟩ := hdirs q hq
      exact ⟨m, hm, hs⟩
    have hself : t.withDirs mode p (p ++ [x]) = t (p ++ [x]) := if_neg fun hle => hprefix hle.1
    rw [createDirAll_concat, ih hp, Option.bind_some]
    rcases h (p ++ [x]) (List.prefix_refl _) with hnone | ⟨m, hm, hbits⟩
    · obtain ⟨m, hm, hbits⟩ := hdirs p (List.prefix_refl p)
      rw [ensureDir, hself, hnone]
      show place _ _ _ = _
      rw [place_eq _ (by rw [hself, hnone]) henters (by rw [List.dropLast_concat, hm]) hbits]
      congr 1
      funext q
      unfold put withDirs
      by_cases hq : q = p ++ [x]
      · subst hq
        rw [Function.update_self, if_pos ⟨List.prefix_refl _, hnone⟩]
      · rw [Function.update_of_ne hq]
        have hle : q <+: p ++ [x] ↔ q <+: p := by
          rw [List.prefix_concat_iff]
          exact or_iff_right hq
        simp only [hle]
    · rw [ensureDir, hself, hm]
      show (if _ then _ else _) = _
      rw [if_pos (Or.inl henters)]
      congr 1
      funext q
      unfold withDirs
      by_cases hq : q = p ++ [x]
      · subst hq
        rw [if_neg (fun hle => hprefix hle.1), if_neg (by simp [hm])]
      · have hle : q <+: p ++ [x] ↔ q <+: p := by
          rw [List.prefix_concat_iff]
          exact or_iff_right hq
        simp only [hle]

/-! ## Modes -/

/-- The directories' modes, one after the other. -/
def chmodAll (dirs : List (List ν × ℕ)) (t : Files ν) : Option (Files ν) :=
  dirs.foldlM (fun t d => chmod d.2 d.1 t) t

/-- The tree with the modes of `dirs`. -/
def withModes (t : Files ν) (dirs : List (List ν × ℕ)) : Files ν := fun p =>
  match dirs.find? (·.1 = p) with
  | some d => some (.dir d.2)
  | none => t p

/-- No directory gets its mode before one below it, so each can still be reached. -/
theorem chmodAll_eq {dirs : List (List ν × ℕ)} {t : Files ν} (horder : dirs.Pairwise fun a b => ¬ a.1 <+: b.1)
    (h : ∀ d ∈ dirs, ∀ q, q <+: d.1 → ∃ m, t q = some (.dir m) ∧ m.testBit 6) :
    chmodAll dirs t = some (t.withModes dirs) := by
  induction dirs generalizing t with
  | nil => rfl
  | cons d dirs ih =>
    obtain ⟨hfirst, hrest⟩ := List.pairwise_cons.mp horder
    obtain ⟨hd, hdirs⟩ := List.forall_mem_cons.mp h
    have henters : t.enters d.1.dropLast = true :=
      enters_iff.mpr fun q hq => hd q (hq.trans (List.dropLast_prefix d.1))
    obtain ⟨m, hm, -⟩ := hd d.1 (List.prefix_refl _)
    have hchmod : chmod d.2 d.1 t = some (t.put d.1 (.dir d.2)) := by
      unfold chmod fchmod
      rw [if_pos (Or.inl henters), hm]
      rfl
    have hlater : ∀ e ∈ dirs, ∀ q, q <+: e.1 → ∃ m, t.put d.1 (.dir d.2) q = some (.dir m) ∧ m.testBit 6 := by
      intro e he q hq
      obtain ⟨m, hm, hs⟩ := hdirs e he q hq
      have hne : q ≠ d.1 := fun heq => hfirst e he (heq ▸ hq)
      exact ⟨m, by rw [put, Function.update_of_ne hne, hm], hs⟩
    have hall : chmodAll (d :: dirs) t = chmodAll dirs (t.put d.1 (.dir d.2)) := by
      unfold chmodAll
      rw [List.foldlM_cons, hchmod]
      rfl
    rw [hall, ih hrest hlater]
    congr 1
    funext p
    unfold withModes
    rw [List.find?_cons]
    by_cases hp : d.1 = p
    · have hnone : dirs.find? (·.1 = p) = none := by
        refine List.find?_eq_none.mpr fun e he heq => ?_
        have hep : e.1 = p := by simpa using heq
        exact hfirst e he (by rw [hp, hep])
      rw [hnone, decide_eq_true hp, put, hp]
      exact Function.update_self ..
    · rw [decide_eq_false hp, put, Function.update_of_ne (Ne.symm hp)]

end Files

end PathTree
