import Hamn.Lib.PathTree
import Hamn.Lib.Result
import Mathlib.Data.List.DropRight

/-!
# Install.Archive — extraction of a release archive (`install_support/archive.rs`)

The archive is read twice: once to validate it, and once to write it under the destination.  What the gzip and tar
decoders make of the bytes is the input: the entries in order, each with its path, kind, mode and payload as far as
they can be read, and whether the rest of the stream can be read to its end.

* `name`, `scan`, `validate`: the first pass.
* `unpack`: the second pass, which alone looks at the modes.
* `validate_eq_ok_iff`: what the first pass accepts.
* `extract_sound_iff`: when extraction writes nothing or everything.
-/

namespace Hamn.Install.Archive

open PathTree Result

/-- The characters of a path or of one of its names. -/
abbrev Text := List Char

/-- A relative path as its names. -/
abbrev Path := List Text

inductive Kind where
  | regular
  | directory
  | other
  deriving DecidableEq, Repr

/-- An entry; a path that is not UTF-8, a mode that is no octal number and a payload that ends early are `none`. -/
structure Entry where
  path : Option Text
  kind : Kind
  mode : Option ℕ
  data : Option (List UInt8)

/-- The entries, `none` where the decoder fails, and whether the stream ends as it should. -/
structure Stream where
  items : List (Option Entry)
  trailer : Bool

inductive Refusal where
  | text (message : String)
  | utf8
  | decode
  | os
  deriving DecidableEq, Repr

def require (condition : Bool) (message : String) : Except Refusal Unit :=
  if condition then .ok () else .error (.text message)

/-! ## Names -/

/-- `trim_end_matches('/')` -/
def trimEnd (raw : Text) : Text := raw.rdropWhile (· == '/')

def safe (part : Text) : Bool := !([[], ['.'], ['.', '.']] : List Text).contains part

/-- The path of an entry; the text is returned as its names. -/
def name (e : Entry) : Except Refusal Path := do
  let raw ← e.path.elim (.error .utf8) .ok
  require (raw.getLast? != some '/' || e.kind == .directory) "regular artifact path ends in a separator"
  let path := trimEnd raw
  require (path != [] && !path.contains '\\' && (path.splitOn '/').all safe) "unsafe host artifact path"
  require (e.kind == .regular || e.kind == .directory) "host artifact contains a non-regular entry"
  return path.splitOn '/'

/-- A path has one list of names. -/
theorem splitOn_injective : Function.Injective fun path : Text => path.splitOn '/' := by
  intro a b h
  have hjoin := congrArg (List.intercalate ['/']) h
  simpa only [List.intercalate_splitOn] using hjoin

/-! ## The first pass -/

/-- What has been seen: the top-level names, and the paths with whether they are directories. -/
structure Seen where
  roots : List Text := []
  entries : List (Path × Bool) := []

def scan : List (Option Entry) → Seen → Except Refusal Seen
  | [], seen => .ok seen
  | item :: items, seen => do
    let entry ← item.elim (.error .decode) .ok
    let path ← name entry
    require (!(seen.entries.map (·.1)).contains path) "duplicate host artifact entry"
    refuse (entry.data = none) .decode
    scan items ⟨seen.roots.insert (path.headD []), seen.entries ++ [(path, entry.kind == .directory)]⟩

/-- The executable and its manifest pointer. -/
def REQUIRED : List Path := ["bin/hamn", "share/hamn/update-manifest-url"].map (·.toList.splitOn '/')

def isFile (seen : Seen) (path : Path) : Bool := seen.entries.contains (path, false)

def validate (s : Stream) : Except Refusal Text := do
  let seen ← scan s.items {}
  refuse (s.trailer = false) .decode
  require (seen.roots.length == 1) "host artifact must have one top-level directory"
  let root := seen.roots.headD []
  require (REQUIRED.all fun path => isFile seen (root :: path)) "host artifact is missing required Hamn files"
  require (seen.entries.all fun e => e.1.dropLast.inits.all fun parent => !isFile seen parent)
    "artifact file is used as a directory"
  return root

/-! ## The second pass -/

/-- What is on the disk under the destination, and the directories with their modes. -/
abbrev Progress := Files Text × List (Path × ℕ)

/-- The standard library opens no path with a NUL character. -/
def openable (path : Path) : Bool := path.all fun part => !part.contains '\x00'

/-- One entry; `dirMode` is the mode that the process gives new directories. -/
def writeEntry (dirMode : ℕ) (progress : Progress) (item : Option Entry) : Option Progress := do
  let entry ← item
  let path ← (name entry).toOption
  let mode := (← entry.mode) &&& 0o777
  guard (openable path)
  if entry.kind = .directory then
    let tree ← progress.1.createDirAll dirMode path
    return (tree, progress.2 ++ [(path, mode)])
  else
    let tree ← progress.1.createDirAll dirMode path.dropLast
    let tree ← tree.createNew (dirMode &&& 0o666) path
    let tree ← tree.write (← entry.data) path
    let tree ← tree.fchmod mode path
    return (tree, progress.2)

/-- The deepest directories first. -/
def byDepth (dirs : List (Path × ℕ)) : List (Path × ℕ) :=
  dirs.mergeSort fun a b => decide (b.1.length ≤ a.1.length)

/-- The new destination, which only its owner may enter. -/
def fresh : Files Text := fun path => if path = [] then some (.dir 0o700) else none

def unpack (dirMode : ℕ) (s : Stream) : Option (Files Text) := do
  let progress ← s.items.foldlM (writeEntry dirMode) (fresh, [])
  progress.1.chmodAll (byDepth progress.2)

inductive Outcome where
  /-- The destination is as it was. -/
  | refused (reason : Refusal)
  /-- The destination was made, and extraction failed. -/
  | broken
  | extracted (root : Text) (tree : Files Text)

def extract (dirMode : ℕ) (s : Stream) (destinationExists : Bool) : Outcome :=
  match validate s with
  | .error reason => .refused reason
  | .ok root =>
    if destinationExists then .refused .os
    else
      match unpack dirMode s with
      | some tree => .extracted root tree
      | none => .broken

/-! ## What the first pass accepts -/

@[simp] theorem require_eq_ok {condition : Bool} {message : String} {u : Unit} :
    require condition message = .ok u ↔ condition = true := by
  cases condition <;> simp [require]

/-- The entries of a stream, each with its path, are all there. -/
def Reads : List (Option Entry) → List (Path × Entry) → Prop :=
  List.Forall₂ fun item x => item = some x.2 ∧ name x.2 = .ok x.1 ∧ x.2.data.isSome

def isDirectory (x : Path × Entry) : Bool := x.2.kind == .directory

/-- An archive of one release: no path twice, one root, the required files, and no file above an entry. -/
structure WellFormed (s : Stream) (root : Text) (es : List (Path × Entry)) : Prop where
  reads : Reads s.items es
  trailer : s.trailer = true
  distinct : (es.map (·.1)).Nodup
  root_eq : ∀ x ∈ es, x.1.headD [] = root
  required : ∀ path ∈ REQUIRED, ∃ x ∈ es, x.1 = root :: path ∧ isDirectory x = false
  closed : ∀ x ∈ es, isDirectory x = false → ∀ y ∈ es, y.1 ≠ x.1 → ¬ x.1 <+: y.1

theorem name_spec {e : Entry} {path : Path} (h : name e = .ok path) :
    path ≠ [] ∧ (e.kind = .regular ∨ e.kind = .directory) := by
  unfold name at h
  simp only [bind_eq_ok, require_eq_ok] at h
  obtain ⟨raw, -, -, -, -, -, -, hkind, hpath⟩ := h
  have hpath : (trimEnd raw).splitOn '/' = path := Except.ok.inj hpath
  refine ⟨?_, by simpa using hkind⟩
  rw [← hpath]
  exact List.splitOn_ne_nil _ _

/-- The top-level names after the entries. -/
def rootsFrom (roots : List Text) (es : List (Path × Entry)) : List Text :=
  es.foldl (fun roots x => roots.insert (x.1.headD [])) roots

def listed (es : List (Path × Entry)) : List (Path × Bool) := es.map fun x => (x.1, isDirectory x)

theorem scan_eq_ok_iff {items : List (Option Entry)} {seen seen' : Seen} :
    scan items seen = .ok seen' ↔ ∃ es, Reads items es ∧ (es.map (·.1)).Nodup ∧
      (∀ x ∈ es, x.1 ∉ seen.entries.map (·.1)) ∧
        seen' = ⟨rootsFrom seen.roots es, seen.entries ++ listed es⟩ := by
  induction items generalizing seen with
  | nil =>
    constructor
    · intro h
      obtain rfl := Except.ok.inj h
      exact ⟨[], .nil, List.nodup_nil, nofun, by simp [rootsFrom, listed]⟩
    · rintro ⟨es, hreads, -, -, rfl⟩
      cases hreads
      simp [scan, rootsFrom, listed]
  | cons item items ih =>
    simp only [scan, bind_eq_ok, require_eq_ok, refuse_eq_ok, ih]
    constructor
    · rintro ⟨entry, hitem, path, hname, -, hnew, -, hdata, es, hreads, hnodup, hapart, rfl⟩
      have hitem : item = some entry := by
        cases item with
        | none => cases hitem
        | some e => rw [Except.ok.inj hitem]
      have hdata : entry.data.isSome = true := Option.isSome_iff_ne_none.mpr hdata
      refine ⟨(path, entry) :: es, .cons ⟨hitem, hname, hdata⟩ hreads, ?_, ?_, ?_⟩
      · refine List.nodup_cons.mpr ⟨fun hmem => ?_, hnodup⟩
        obtain ⟨x, hx, hpath⟩ := List.mem_map.mp hmem
        exact hapart x hx (by simp [hpath])
      · refine List.forall_mem_cons.mpr ⟨by simpa using hnew, fun x hx hmem => hapart x hx ?_⟩
        rw [List.map_append]
        exact List.mem_append_left _ hmem
      · simp [rootsFrom, listed, isDirectory]
    · rintro ⟨es, hreads, hnodup, hapart, rfl⟩
      cases hreads with
      | cons hfirst hreads =>
        rename_i x es
        obtain ⟨rfl, hname, hdata⟩ := hfirst
        obtain ⟨hx, hnodup⟩ := List.nodup_cons.mp hnodup
        obtain ⟨hnew, hlater⟩ := List.forall_mem_cons.mp hapart
        refine ⟨x.2, rfl, x.1, hname, (), by simpa using hnew, (),
          Option.isSome_iff_ne_none.mp hdata, es, hreads, hnodup, ?_, ?_⟩
        · intro y hy hmem
          rw [List.map_append, List.mem_append] at hmem
          rcases hmem with hmem | hmem
          · exact hlater y hy hmem
          · exact hx (List.mem_map.mpr ⟨y, hy, by simpa using hmem⟩)
        · simp [rootsFrom, listed, isDirectory]

theorem mem_rootsFrom {roots : List Text} {es : List (Path × Entry)} {root : Text} :
    root ∈ rootsFrom roots es ↔ root ∈ roots ∨ ∃ x ∈ es, x.1.headD [] = root := by
  induction es generalizing roots with
  | nil => simp [rootsFrom]
  | cons x es ih =>
    have hstep : rootsFrom roots (x :: es) = rootsFrom (roots.insert (x.1.headD [])) es := rfl
    rw [hstep, ih, List.mem_insert_iff]
    constructor
    · rintro ((rfl | h) | ⟨y, hy, h⟩)
      · exact .inr ⟨x, List.mem_cons_self, rfl⟩
      · exact .inl h
      · exact .inr ⟨y, List.mem_cons_of_mem _ hy, h⟩
    · rintro (h | ⟨y, hy, rfl⟩)
      · exact .inl (.inr h)
      · rcases List.mem_cons.mp hy with rfl | hy
        · exact .inl (.inl rfl)
        · exact .inr ⟨y, hy, rfl⟩

theorem nodup_rootsFrom {roots : List Text} (h : roots.Nodup) (es : List (Path × Entry)) :
    (rootsFrom roots es).Nodup := by
  induction es generalizing roots with
  | nil => exact h
  | cons x es ih => exact ih (h.insert)

/-- One top-level name. -/
theorem rootsFrom_single_iff {es : List (Path × Entry)} {root : Text} :
    (rootsFrom [] es).length = 1 ∧ (rootsFrom [] es).headD [] = root ↔
      es ≠ [] ∧ ∀ x ∈ es, x.1.headD [] = root := by
  constructor
  · rintro ⟨hlength, hhead⟩
    obtain ⟨only, honly⟩ := List.length_eq_one_iff.mp hlength
    obtain rfl : only = root := by simpa [honly] using hhead
    refine ⟨?_, fun x hx => ?_⟩
    · rintro rfl
      cases honly
    · have hmem : x.1.headD [] ∈ rootsFrom [] es := mem_rootsFrom.mpr (.inr ⟨x, hx, rfl⟩)
      rw [honly] at hmem
      exact List.mem_singleton.mp hmem
  · rintro ⟨hne, hroot⟩
    have hall : ∀ r ∈ rootsFrom [] es, r = root := by
      intro r hr
      obtain hr | ⟨x, hx, rfl⟩ := mem_rootsFrom.mp hr
      · cases hr
      · exact hroot x hx
    obtain ⟨x, hx⟩ := List.exists_mem_of_ne_nil es hne
    have hmem : root ∈ rootsFrom [] es := mem_rootsFrom.mpr (.inr ⟨x, hx, hroot x hx⟩)
    have hsingle : rootsFrom [] es = [root] := by
      have hrep := List.eq_replicate_of_mem hall
      have hle : (rootsFrom [] es).length ≤ 1 := by
        have hnodup := nodup_rootsFrom List.nodup_nil es
        rw [hrep] at hnodup
        exact List.nodup_replicate.mp hnodup
      have hpos := List.length_pos_of_mem hmem
      rw [hrep, show (rootsFrom [] es).length = 1 by omega]
      rfl
    rw [hsingle]
    exact ⟨rfl, rfl⟩

theorem isFile_iff {es : List (Path × Entry)} {roots : List Text} {path : Path} :
    isFile ⟨roots, listed es⟩ path = true ↔ ∃ x ∈ es, x.1 = path ∧ isDirectory x = false := by
  unfold isFile listed
  rw [List.contains_iff_mem, List.mem_map]
  refine exists_congr fun x => and_congr_right fun _ => ?_
  rw [Prod.mk.injEq]

/-- No file stands where a parent of an entry is. -/
theorem parents_iff {es : List (Path × Entry)} {roots : List Text} (hne : ∀ x ∈ es, x.1 ≠ []) :
    ((listed es).all fun e => e.1.dropLast.inits.all fun parent => !isFile ⟨roots, listed es⟩ parent) = true ↔
      ∀ x ∈ es, isDirectory x = false → ∀ y ∈ es, y.1 ≠ x.1 → ¬ x.1 <+: y.1 := by
  have hproper : ∀ p q : Path, q ≠ [] → (p <+: q.dropLast ↔ p ≠ q ∧ p <+: q) := by
    intro p q hq
    constructor
    · intro h
      refine ⟨?_, h.trans (List.dropLast_prefix q)⟩
      rintro rfl
      have hlength := h.length_le
      have hpos := List.length_pos_of_ne_nil hq
      rw [List.length_dropLast] at hlength
      omega
    · rintro ⟨hne, hle⟩
      rw [← List.dropLast_append_getLast hq, List.prefix_concat_iff] at hle
      rw [List.dropLast_append_getLast hq] at hle
      exact hle.resolve_left hne
  simp only [List.all_eq_true, List.mem_inits, Bool.not_eq_true', Bool.eq_false_iff, ne_eq, isFile_iff]
  constructor
  · intro h x hx hfile y hy hne' hle
    have hmem : (y.1, isDirectory y) ∈ listed es := List.mem_map.mpr ⟨y, hy, rfl⟩
    exact h _ hmem x.1 ((hproper _ _ (hne y hy)).mpr ⟨Ne.symm hne', hle⟩) ⟨x, hx, rfl, hfile⟩
  · rintro h e he parent hparent ⟨x, hx, rfl, hfile⟩
    obtain ⟨y, hy, rfl⟩ := List.mem_map.mp he
    obtain ⟨hne', hle⟩ := (hproper _ _ (hne y hy)).mp hparent
    exact h x hx hfile y hy (Ne.symm hne') hle

theorem Reads.mem {items : List (Option Entry)} {es : List (Path × Entry)} (h : Reads items es) :
    ∀ x ∈ es, some x.2 ∈ items ∧ name x.2 = .ok x.1 ∧ x.2.data.isSome = true := by
  induction h with
  | nil => exact nofun
  | cons hfirst _ ih =>
    refine List.forall_mem_cons.mpr ⟨?_, fun x hx => ?_⟩
    · obtain ⟨rfl, hname, hdata⟩ := hfirst
      exact ⟨List.mem_cons_self, hname, hdata⟩
    · obtain ⟨hmem, hrest⟩ := ih x hx
      exact ⟨List.mem_cons_of_mem _ hmem, hrest⟩

theorem Reads.ne_nil {items : List (Option Entry)} {es : List (Path × Entry)} (h : Reads items es) :
    ∀ x ∈ es, x.1 ≠ [] := fun x hx => (name_spec (h.mem x hx).2.1).1

/-- The first pass accepts the archives of one release. -/
theorem validate_eq_ok_iff {s : Stream} {root : Text} : validate s = .ok root ↔ ∃ es, WellFormed s root es := by
  unfold validate
  simp only [bind_eq_ok, require_eq_ok, refuse_eq_ok, scan_eq_ok_iff]
  constructor
  · rintro ⟨seen, ⟨es, hreads, hdistinct, -, rfl⟩, -, htrailer, -, hsingle, -, hrequired, -, hclosed, hroot⟩
    simp only [List.nil_append] at hrequired hclosed
    obtain ⟨-, hroots⟩ := rootsFrom_single_iff.mp ⟨by simpa using hsingle, Except.ok.inj hroot⟩
    have hroot : (rootsFrom [] es).headD [] = root := Except.ok.inj hroot
    refine ⟨es, hreads, by simpa using htrailer, hdistinct, hroots, fun path hpath => ?_, ?_⟩
    · have hfile := List.all_eq_true.mp hrequired path hpath
      rw [isFile_iff, hroot] at hfile
      exact hfile
    · exact (parents_iff hreads.ne_nil).mp hclosed
  · rintro ⟨es, h⟩
    obtain ⟨x, hx, -⟩ := h.required _ List.mem_cons_self
    obtain ⟨hlength, hroot⟩ := rootsFrom_single_iff.mpr ⟨List.ne_nil_of_mem hx, h.root_eq⟩
    refine ⟨_, ⟨es, h.reads, h.distinct, fun _ _ => List.not_mem_nil, rfl⟩, (), by simp [h.trailer], (), by simpa using hlength, (), ?_, (),
      ?_, ?_⟩
    · simp only [List.nil_append]
      refine List.all_eq_true.mpr fun path hpath => isFile_iff.mpr ?_
      rw [hroot]
      exact h.required path hpath
    · simp only [List.nil_append]
      exact (parents_iff h.reads.ne_nil).mpr h.closed
    · simp only [hroot]
      rfl

/-! ## What the second pass writes -/

def bits (x : Path × Entry) : ℕ := x.2.mode.getD 0 &&& 0o777

def fileNode (x : Path × Entry) : Node := .file (bits x) (x.2.data.getD [])

/-- The listed directories with their modes. -/
def directories (es : List (Path × Entry)) : List (Path × ℕ) := (es.filter isDirectory).map fun x => (x.1, bits x)

/-- What is there after some entries, before the directories get their modes. -/
def written (dirMode : ℕ) (es : List (Path × Entry)) : Files Text := fun path =>
  match es.find? fun x => x.1 == path && !isDirectory x with
  | some x => some (fileNode x)
  | none =>
    if path = [] then some (.dir 0o700)
    else if ∃ x ∈ es, path <+: x.1 then some (.dir dirMode)
    else none

/-- What the second pass needs of an entry beyond the first. -/
def Writable (x : Path × Entry) : Prop := x.2.mode.isSome ∧ openable x.1 = true

/-- The entries of an archive that passed: distinct paths, none of them below a file. -/
structure Apart (es : List (Path × Entry)) : Prop where
  named : ∀ x ∈ es, name x.2 = .ok x.1 ∧ x.2.data.isSome = true
  distinct : (es.map (·.1)).Nodup
  closed : ∀ x ∈ es, isDirectory x = false → ∀ y ∈ es, y.1 ≠ x.1 → ¬ x.1 <+: y.1

theorem Apart.init {es rest : List (Path × Entry)} (h : Apart (es ++ rest)) : Apart es where
  named x hx := h.named x (List.mem_append_left _ hx)
  distinct := by
    have hnodup := h.distinct
    rw [List.map_append] at hnodup
    exact (List.nodup_append.mp hnodup).1
  closed x hx hfile y hy := h.closed x (List.mem_append_left _ hx) hfile y (List.mem_append_left _ hy)

theorem Apart.ne_nil {es : List (Path × Entry)} (h : Apart es) : ∀ x ∈ es, x.1 ≠ [] := fun x hx =>
  (name_spec (h.named x hx).1).1

theorem Apart.last_ne {es : List (Path × Entry)} {x : Path × Entry} (h : Apart (es ++ [x])) :
    ∀ y ∈ es, y.1 ≠ x.1 := by
  intro y hy heq
  have hnodup := h.distinct
  rw [List.map_append] at hnodup
  exact (List.nodup_append.mp hnodup).2.2 y.1 (List.mem_map_of_mem hy) x.1 (by simp) heq

variable {dirMode : ℕ} {es : List (Path × Entry)} {x : Path × Entry}

theorem written_file (h : Apart es) (hx : x ∈ es) (hfile : isDirectory x = false) :
    written dirMode es x.1 = some (fileNode x) := by
  have hfind : es.find? (fun y => y.1 == x.1 && !isDirectory y) = some x := by
    obtain ⟨y, hy⟩ : ∃ y, es.find? (fun y => y.1 == x.1 && !isDirectory y) = some y :=
      Option.isSome_iff_exists.mp (List.find?_isSome.mpr ⟨x, hx, by simp [hfile]⟩)
    have hpath : y.1 = x.1 := by
      have hp := List.find?_some hy
      simp only [Bool.and_eq_true, beq_iff_eq] at hp
      exact hp.1
    have hsame : y = x := List.inj_on_of_nodup_map h.distinct (List.mem_of_find?_eq_some hy) hx hpath
    rw [hy, hsame]
  rw [written, hfind]

theorem written_other {path : Path} (hno : ∀ y ∈ es, y.1 = path → isDirectory y = true) :
    written dirMode es path =
      if path = [] then some (.dir 0o700) else if ∃ y ∈ es, path <+: y.1 then some (.dir dirMode) else none := by
  have hfind : es.find? (fun y => y.1 == path && !isDirectory y) = none := by
    refine List.find?_eq_none.mpr fun y hy hp => ?_
    simp only [Bool.and_eq_true, beq_iff_eq, Bool.not_eq_true'] at hp
    rw [hno y hy hp.1] at hp
    exact Bool.noConfusion hp.2
  rw [written, hfind]

theorem written_nil : written dirMode [] = fresh := by
  funext path
  rw [written_other fun y hy => absurd hy List.not_mem_nil]
  simp [fresh]

theorem written_top (h : Apart es) : written dirMode es [] = some (.dir 0o700) := by
  rw [written_other fun y hy heq => absurd heq (h.ne_nil y hy), if_pos rfl]

/-- Above an entry stand directories. -/
theorem written_above (hdir : dirMode.testBit 6 ∧ dirMode.testBit 7) (h : Apart (es ++ [x])) {path : Path}
    (hpath : path <+: x.1) (hne : path ≠ x.1 ∨ isDirectory x = true) :
    written dirMode es path = none ∨ Files.Open (written dirMode es path) := by
  have hno : ∀ y ∈ es, y.1 = path → isDirectory y = true := by
    rintro y hy rfl
    by_contra hfile
    exact h.closed y (List.mem_append_left _ hy) (Bool.eq_false_iff.mpr hfile) x (by simp)
      (Ne.symm (h.last_ne y hy)) hpath
  rw [written_other hno]
  split_ifs
  · exact .inr ⟨0o700, rfl, by decide, by decide⟩
  · exact .inr ⟨dirMode, rfl, hdir⟩
  · exact .inl rfl

/-- Another entry: its file, or the directories down to it. -/
theorem written_concat (h : Apart (es ++ [x])) {path : Path} :
    written dirMode (es ++ [x]) path =
      if path = x.1 ∧ isDirectory x = false then some (fileNode x)
      else if path <+: x.1 ∧ written dirMode es path = none then some (.dir dirMode)
      else written dirMode es path := by
  have hmem : x ∈ es ++ [x] := by simp
  split_ifs with hfile hmissing
  · obtain ⟨rfl, hfile⟩ := hfile
    exact written_file h hmem hfile
  · obtain ⟨hle, hnone⟩ := hmissing
    have hno : ∀ y ∈ es, y.1 = path → isDirectory y = true := by
      rintro y hy rfl
      by_contra hf
      rw [written_file h.init hy (Bool.eq_false_iff.mpr hf)] at hnone
      cases hnone
    have hno' : ∀ y ∈ es ++ [x], y.1 = path → isDirectory y = true := by
      intro y hy hpath
      rcases List.mem_append.mp hy with hy | hy
      · exact hno y hy hpath
      · obtain rfl := List.mem_singleton.mp hy
        by_contra hf
        exact hfile ⟨hpath.symm, Bool.eq_false_iff.mpr hf⟩
    rw [written_other hno] at hnone
    have htop : path ≠ [] := fun htop => by
      rw [if_pos htop] at hnone
      cases hnone
    rw [written_other hno', if_neg htop, if_pos ⟨x, hmem, hle⟩]
  · by_cases hold : ∃ y ∈ es, y.1 = path ∧ isDirectory y = false
    · obtain ⟨y, hy, rfl, hf⟩ := hold
      rw [written_file h (List.mem_append_left _ hy) hf, written_file h.init hy hf]
    · have hno : ∀ y ∈ es, y.1 = path → isDirectory y = true := fun y hy hpath => by
        by_contra hf
        exact hold ⟨y, hy, hpath, Bool.eq_false_iff.mpr hf⟩
      have hno' : ∀ y ∈ es ++ [x], y.1 = path → isDirectory y = true := by
        intro y hy hpath
        rcases List.mem_append.mp hy with hy | hy
        · exact hno y hy hpath
        · obtain rfl := List.mem_singleton.mp hy
          by_contra hf
          exact hfile ⟨hpath.symm, Bool.eq_false_iff.mpr hf⟩
      rw [written_other hno] at hmissing ⊢
      rw [written_other hno']
      by_cases htop : path = []
      · rw [if_pos htop, if_pos htop]
      · rw [if_neg htop] at hmissing ⊢
        rw [if_neg htop]
        have hsame : (∃ y ∈ es ++ [x], path <+: y.1) ↔ ∃ y ∈ es, path <+: y.1 := by
          constructor
          · rintro ⟨y, hy, hle⟩
            rcases List.mem_append.mp hy with hy | hy
            · exact ⟨y, hy, hle⟩
            · obtain rfl := List.mem_singleton.mp hy
              by_contra hany
              exact hmissing ⟨hle, if_neg hany⟩
          · rintro ⟨y, hy, hle⟩
            exact ⟨y, List.mem_append_left _ hy, hle⟩
        simp only [hsame]

theorem directories_concat : directories (es ++ [x]) =
    directories es ++ if isDirectory x then [(x.1, bits x)] else [] := by
  unfold directories
  rw [List.filter_append, List.map_append]
  cases hx : isDirectory x <;> simp [hx]

/-- A directory entry. -/
theorem writeEntry_directory (hdir : dirMode.testBit 6 ∧ dirMode.testBit 7) (h : Apart (es ++ [x]))
    (hx : isDirectory x = true) :
    (written dirMode es).createDirAll dirMode x.1 = some (written dirMode (es ++ [x])) := by
  have htop : Files.Open (written dirMode es []) := ⟨0o700, written_top h.init, by decide, by decide⟩
  have habove : ∀ q, q <+: x.1 → written dirMode es q = none ∨ Files.Open (written dirMode es q) :=
    fun q hq => written_above hdir h hq (.inr hx)
  rw [(Files.createDirAll_eq hdir htop habove).1]
  congr 1
  funext path
  rw [written_concat h, if_neg (by simp [hx])]
  rfl

/-- A file entry. -/
theorem writeEntry_file (hdir : dirMode.testBit 6 ∧ dirMode.testBit 7) (h : Apart (es ++ [x]))
    (hx : isDirectory x = false) :
    ((written dirMode es).createDirAll dirMode x.1.dropLast).bind (fun t =>
      (t.createNew (dirMode &&& 0o666) x.1).bind fun t =>
        (t.write (x.2.data.getD []) x.1).bind fun t => t.fchmod (bits x) x.1) =
      some (written dirMode (es ++ [x])) := by
  have hne : x.1 ≠ [] := h.ne_nil x (by simp)
  have hproper : ∀ q, q <+: x.1.dropLast → q ≠ x.1 := by
    rintro q hq rfl
    have hlength := hq.length_le
    have hpos := List.length_pos_of_ne_nil hne
    rw [List.length_dropLast] at hlength
    omega
  have htop : Files.Open (written dirMode es []) := ⟨0o700, written_top h.init, by decide, by decide⟩
  have habove : ∀ q, q <+: x.1.dropLast → written dirMode es q = none ∨ Files.Open (written dirMode es q) :=
    fun q hq => written_above hdir h (hq.trans (List.dropLast_prefix _)) (.inl (hproper q hq))
  obtain ⟨hmake, hopen⟩ := Files.createDirAll_eq hdir htop habove
  have hfree : written dirMode es x.1 = none := by
    rw [written_other fun y hy heq => absurd heq (h.last_ne y hy), if_neg hne, if_neg]
    rintro ⟨y, hy, hle⟩
    exact h.closed x (by simp) hx y (List.mem_append_left _ hy) (h.last_ne y hy) hle
  have hself : (written dirMode es).withDirs dirMode x.1.dropLast x.1 = none := by
    unfold Files.withDirs
    rw [if_neg fun hle => hproper x.1 hle.1 rfl, hfree]
  obtain ⟨m, hparent, hbits⟩ := hopen _ (List.prefix_refl _)
  have henters : ((written dirMode es).withDirs dirMode x.1.dropLast).enters x.1.dropLast = true := by
    refine Files.enters_iff.mpr fun q hq => ?_
    obtain ⟨m, hm, hs, -⟩ := hopen q hq
    exact ⟨m, hm, hs⟩
  have hcreate := Files.place_eq (.file (dirMode &&& 0o666) []) hself henters hparent hbits
  rw [hmake, Option.bind_some]
  unfold Files.createNew
  rw [hcreate, Option.bind_some]
  have hwrite : ∀ (t : Files Text) (mode : ℕ) (old content : List UInt8),
      ((t.put x.1 (.file mode old)).write content x.1).bind (fun t => t.fchmod (bits x) x.1) =
        some (t.put x.1 (.file (bits x) content)) := by
    intro t mode old content
    simp [Files.write, Files.put, Files.fchmod, Node.setMode]
  rw [hwrite]
  congr 1
  funext path
  rw [written_concat h]
  unfold Files.put
  by_cases hpath : path = x.1
  · subst hpath
    rw [Function.update_self, if_pos ⟨rfl, hx⟩]
    rfl
  · rw [Function.update_of_ne hpath, if_neg fun hp => hpath hp.1]
    have hle : path <+: x.1.dropLast ↔ path <+: x.1 := by
      constructor
      · exact fun hle => hle.trans (List.dropLast_prefix _)
      · intro hle
        rw [← List.dropLast_append_getLast hne, List.prefix_concat_iff, List.dropLast_append_getLast hne] at hle
        exact hle.resolve_left hpath
    unfold Files.withDirs
    simp only [hle]

theorem writeEntry_eq (hdir : dirMode.testBit 6 ∧ dirMode.testBit 7) (h : Apart (es ++ [x])) (hw : Writable x) :
    writeEntry dirMode (written dirMode es, directories es) (some x.2) =
      some (written dirMode (es ++ [x]), directories (es ++ [x])) := by
  obtain ⟨hname, hdata⟩ := h.named x (by simp)
  obtain ⟨hmode, hopen⟩ := hw
  obtain ⟨mode, hmode⟩ := Option.isSome_iff_exists.mp hmode
  obtain ⟨data, hdata⟩ := Option.isSome_iff_exists.mp hdata
  have hbits : bits x = mode &&& 0o777 := by rw [bits, hmode]; rfl
  cases hx : isDirectory x with
  | true =>
    have hkind : x.2.kind = .directory := by simpa [isDirectory] using hx
    have hmake := writeEntry_directory hdir h hx
    simp [writeEntry, hname, Except.toOption, hmode, hopen, hkind, hmake, directories_concat, hx, hbits]
  | false =>
    have hkind : x.2.kind ≠ .directory := by simpa [isDirectory] using hx
    have hmake := writeEntry_file hdir h hx
    rw [hdata, Option.getD_some, hbits] at hmake
    have hpair := congrArg (Option.map fun t => (t, directories es)) hmake
    simp only [Option.map_bind, Function.comp_def, Option.map_some] at hpair
    simpa [writeEntry, hname, Except.toOption, hmode, hopen, hkind, directories_concat, hx, hdata,
      Option.map_eq_bind] using hpair

/-- The second pass goes on only with entries that it can write. -/
theorem writable_of_writeEntry {progress progress' : Progress} (hname : name x.2 = .ok x.1)
    (h : writeEntry dirMode progress (some x.2) = some progress') : Writable x := by
  unfold writeEntry at h
  simp only [Option.bind_eq_bind, Option.bind_some, hname, Except.toOption, Option.bind_eq_some_iff] at h
  obtain ⟨mode, hmode, _, hopen, -⟩ := h
  exact ⟨by rw [hmode]; rfl, by simpa using hopen⟩

theorem unpack_entries (hdir : dirMode.testBit 6 ∧ dirMode.testBit 7) {items : List (Option Entry)}
    {rest : List (Path × Entry)} (hreads : Reads items rest) {done : List (Path × Entry)} (h : Apart (done ++ rest))
    (hw : ∀ x ∈ rest, Writable x) :
    items.foldlM (writeEntry dirMode) (written dirMode done, directories done) =
      some (written dirMode (done ++ rest), directories (done ++ rest)) := by
  induction hreads generalizing done with
  | nil => rw [List.append_nil]; rfl
  | @cons item x items rest hfirst _ ih =>
    obtain ⟨rfl, -⟩ := hfirst
    obtain ⟨hx, hrest⟩ := List.forall_mem_cons.mp hw
    have hassoc : done ++ x :: rest = done ++ [x] ++ rest := by simp
    rw [hassoc] at h ⊢
    rw [List.foldlM_cons, writeEntry_eq hdir h.init hx]
    exact ih h hrest

theorem writable_of_unpack {items : List (Option Entry)} (hreads : Reads items es) {progress progress' : Progress}
    (h : items.foldlM (writeEntry dirMode) progress = some progress') : ∀ x ∈ es, Writable x := by
  induction hreads generalizing progress with
  | nil => exact nofun
  | cons hfirst _ ih =>
    obtain ⟨rfl, hname, -⟩ := hfirst
    rw [List.foldlM_cons, Option.bind_eq_bind, Option.bind_eq_some_iff] at h
    obtain ⟨middle, hmiddle, hrest⟩ := h
    exact List.forall_mem_cons.mpr ⟨writable_of_writeEntry hname hmiddle, ih hrest⟩

/-! ### The modes of directories -/

/-- What extraction leaves under the destination: the entries, and the directories that lead to them. -/
def expected (dirMode : ℕ) (es : List (Path × Entry)) : Files Text := fun path =>
  match es.find? (·.1 = path) with
  | some x => some (if isDirectory x then .dir (bits x) else fileNode x)
  | none =>
    if path = [] then some (.dir 0o700)
    else if ∃ x ∈ es, path <+: x.1 then some (.dir dirMode)
    else none

theorem directories_distinct (h : (es.map (·.1)).Nodup) : ((byDepth (directories es)).map (·.1)).Nodup := by
  have hperm : (byDepth (directories es)).Perm (directories es) := List.mergeSort_perm _ _
  rw [(hperm.map _).nodup_iff]
  unfold directories
  rw [List.map_map]
  exact h.sublist (List.filter_sublist.map _)

theorem mem_byDepth {d : Path × ℕ} :
    d ∈ byDepth (directories es) ↔ ∃ x ∈ es, isDirectory x = true ∧ d = (x.1, bits x) := by
  unfold byDepth directories
  rw [List.mem_mergeSort, List.mem_map]
  constructor
  · rintro ⟨x, hx, rfl⟩
    obtain ⟨hmem, hd⟩ := List.mem_filter.mp hx
    exact ⟨x, hmem, hd, rfl⟩
  · rintro ⟨x, hmem, hd, rfl⟩
    exact ⟨x, List.mem_filter.mpr ⟨hmem, hd⟩, rfl⟩

/-- No directory comes before one below it. -/
theorem byDepth_order (h : (es.map (·.1)).Nodup) :
    (byDepth (directories es)).Pairwise fun a b => ¬ a.1 <+: b.1 := by
  have hlength : (byDepth (directories es)).Pairwise fun a b => decide (b.1.length ≤ a.1.length) = true := by
    refine List.pairwise_mergeSort (fun a b c hab hbc => ?_) (fun a b => ?_) (directories es)
    · simp only [decide_eq_true_eq] at hab hbc ⊢
      exact hbc.trans hab
    · simp only [Bool.or_eq_true, decide_eq_true_eq]
      exact Nat.le_total ..
  have hdistinct := List.pairwise_map.mp (directories_distinct h)
  refine (hlength.and hdistinct).imp fun {a b} hab hle => ?_
  have hge : b.1.length ≤ a.1.length := by simpa using hab.1
  exact hab.2 (hle.eq_of_length (Nat.le_antisymm hle.length_le hge))

/-- Distinct keys: what is found is what is there. -/
theorem find_of_mem {β : Type} {l : List (Path × β)} (h : (l.map (·.1)).Nodup) {a : Path × β} (ha : a ∈ l) :
    l.find? (·.1 = a.1) = some a := by
  obtain ⟨b, hb⟩ : ∃ b, l.find? (·.1 = a.1) = some b :=
    Option.isSome_iff_exists.mp (List.find?_isSome.mpr ⟨a, ha, by simp⟩)
  have hkey : b.1 = a.1 := by simpa using List.find?_some hb
  rw [hb, List.inj_on_of_nodup_map h (List.mem_of_find?_eq_some hb) ha hkey]

theorem find_none {β : Type} {l : List (Path × β)} {path : Path} (h : ∀ a ∈ l, a.1 ≠ path) :
    l.find? (·.1 = path) = none := List.find?_eq_none.mpr fun a ha => by simpa using h a ha

theorem withModes_written (h : Apart es) :
    (written dirMode es).withModes (byDepth (directories es)) = expected dirMode es := by
  funext path
  unfold Files.withModes expected
  by_cases hx : ∃ x ∈ es, x.1 = path
  · obtain ⟨x, hx, rfl⟩ := hx
    rw [find_of_mem h.distinct hx]
    cases hd : isDirectory x with
    | true =>
      have hmem : (x.1, bits x) ∈ byDepth (directories es) := mem_byDepth.mpr ⟨x, hx, hd, rfl⟩
      rw [find_of_mem (directories_distinct h.distinct) hmem]
      simp only [hd, if_true]
    | false =>
      rw [find_none fun d hmem heq => ?_]
      · simp only [hd, Bool.false_eq_true, if_false]
        exact written_file h hx hd
      · obtain ⟨y, hy, hdy, rfl⟩ := mem_byDepth.mp hmem
        rw [List.inj_on_of_nodup_map h.distinct hy hx heq, hd] at hdy
        cases hdy
  · have hno : ∀ x ∈ es, x.1 ≠ path := fun x hmem heq => hx ⟨x, hmem, heq⟩
    rw [find_none hno, find_none fun d hmem => ?_]
    · exact written_other fun y hy heq => absurd heq (hno y hy)
    · obtain ⟨y, hy, -, rfl⟩ := mem_byDepth.mp hmem
      exact hno y hy

theorem reachable (hdir : dirMode.testBit 6 ∧ dirMode.testBit 7) (h : Apart es) {d : Path × ℕ}
    (hd : d ∈ byDepth (directories es)) {q : Path} (hq : q <+: d.1) :
    ∃ m, written dirMode es q = some (.dir m) ∧ m.testBit 6 := by
  obtain ⟨x, hx, hdx, rfl⟩ := mem_byDepth.mp hd
  have hno : ∀ y ∈ es, y.1 = q → isDirectory y = true := by
    rintro y hy rfl
    by_contra hfile
    by_cases hxy : x.1 = y.1
    · rw [List.inj_on_of_nodup_map h.distinct hx hy hxy] at hdx
      exact hfile hdx
    · exact h.closed y hy (Bool.eq_false_iff.mpr hfile) x hx hxy hq
  rw [written_other hno]
  split_ifs with htop hany
  · exact ⟨0o700, rfl, by decide⟩
  · exact ⟨dirMode, rfl, hdir.1⟩
  · exact absurd ⟨x, hx, hq⟩ hany

/-! ## Nothing or everything -/

theorem WellFormed.apart {s : Stream} {root : Text} (h : WellFormed s root es) : Apart es :=
  ⟨fun x hx => (h.reads.mem x hx).2, h.distinct, h.closed⟩

/-- The second pass writes a well-formed archive exactly if it can write every entry. -/
theorem unpack_eq (hdir : dirMode.testBit 6 ∧ dirMode.testBit 7) {s : Stream} {root : Text}
    (h : WellFormed s root es) (hw : ∀ x ∈ es, Writable x) : unpack dirMode s = some (expected dirMode es) := by
  have hentries := @unpack_entries dirMode hdir _ _ h.reads [] h.apart hw
  rw [List.nil_append, written_nil] at hentries
  have hmodes := Files.chmodAll_eq (byDepth_order h.distinct) fun d hd q hq => reachable hdir h.apart hd hq
  rw [withModes_written h.apart] at hmodes
  unfold unpack
  rw [show directories [] = [] from rfl] at hentries
  rw [hentries]
  exact hmodes

theorem writable_of_unpack_eq {s : Stream} {root : Text} (h : WellFormed s root es) {files : Files Text}
    (hu : unpack dirMode s = some files) : ∀ x ∈ es, Writable x := by
  unfold unpack at hu
  rw [Option.bind_eq_bind, Option.bind_eq_some_iff] at hu
  obtain ⟨progress, hprogress, -⟩ := hu
  exact writable_of_unpack h.reads hprogress

/-- **Validation before extraction**: a refusal leaves the destination as it was; what is extracted is exactly the
archive: its entries with their bytes and modes and the directories that lead to them, all below one root, no path
twice and none through a file. -/
def Sound (dirMode : ℕ) (s : Stream) : Outcome → Prop
  | .refused _ => True
  | .broken => False
  | .extracted root files => ∃ es, WellFormed s root es ∧ (∀ x ∈ es, x.2.mode.isSome) ∧ files = expected dirMode es

/-- Extraction is sound unless the destination is new and an archive that passes validation has an entry whose mode
cannot be read or whose path cannot be opened. -/
theorem extract_sound_iff (hdir : dirMode.testBit 6 ∧ dirMode.testBit 7) (s : Stream) (destinationExists : Bool) :
    Sound dirMode s (extract dirMode s destinationExists) ↔
      (destinationExists = false → ∀ root es, WellFormed s root es → ∀ x ∈ es, Writable x) := by
  unfold extract
  cases hv : validate s with
  | error reason =>
    refine iff_of_true trivial fun _ root es h => ?_
    rw [validate_eq_ok_iff.mpr ⟨es, h⟩] at hv
    cases hv
  | ok root =>
    cases destinationExists with
    | true => exact iff_of_true trivial fun h => Bool.noConfusion h
    | false =>
      obtain ⟨es, hes⟩ := validate_eq_ok_iff.mp hv
      constructor
      · intro hsound _ root' es' hes'
        cases hu : unpack dirMode s with
        | none =>
          simp only [hu] at hsound
          exact hsound.elim
        | some files => exact writable_of_unpack_eq hes' hu
      · intro hw
        have hall := hw rfl root es hes
        rw [unpack_eq hdir hes hall]
        exact ⟨es, hes, fun x hx => (hall x hx).1, rfl⟩

/-! ### Two archives -/

def file (path : String) (mode : Option ℕ) : Entry := ⟨some path.toList, .regular, mode, some []⟩

/-- A release of the required files; the executable's mode is as given. -/
def release (mode : Option ℕ) : Stream where
  items := [some (file "hamn/bin/hamn" mode), some (file "hamn/share/hamn/update-manifest-url" (some 0o644))]
  trailer := true

theorem extract_sound_release : Sound 0o755 (release (some 0o755)) (extract 0o755 (release (some 0o755)) false) := by
  refine (extract_sound_iff (by decide) _ false).mpr fun _ root es h x hx => ?_
  obtain ⟨hmem, hname, -⟩ := h.reads.mem x hx
  have hitem : x.2 = file "hamn/bin/hamn" (some 0o755) ∨
      x.2 = file "hamn/share/hamn/update-manifest-url" (some 0o644) := by
    simpa [release] using hmem
  rcases hitem with hitem | hitem
  · rw [hitem] at hname
    have hpath : x.1 = ["hamn", "bin", "hamn"].map String.toList := Except.ok.inj (hname.symm.trans (by rfl))
    exact ⟨by rw [hitem]; rfl, by rw [hpath]; decide +kernel⟩
  · rw [hitem] at hname
    have hpath : x.1 = ["hamn", "share", "hamn", "update-manifest-url"].map String.toList :=
      Except.ok.inj (hname.symm.trans (by rfl))
    exact ⟨by rw [hitem]; rfl, by rw [hpath]; decide +kernel⟩

/-- An archive whose executable has no readable mode is accepted, and its extraction fails half way. -/
theorem extract_breaks : ¬∀ (dirMode : ℕ) (s : Stream) (destinationExists : Bool),
    dirMode.testBit 6 ∧ dirMode.testBit 7 → Sound dirMode s (extract dirMode s destinationExists) := by
  intro h
  have hbroken : extract 0o755 (release none) false = .broken := by rfl
  have hsound := h 0o755 (release none) false (by decide)
  rw [hbroken] at hsound
  exact hsound

end Hamn.Install.Archive
