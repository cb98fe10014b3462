import Hamn.Lib.Result
import Hamn.Lib.Utf8
import Hamn.Release.Scanners

/-!
# Release.Version — the version to release (`hamn-dev/src/release/version.rs`, `syntax.rs`)

* `increasedVersion`: the version of a commit that is to be released; `currentVersion`: the one of a checkout.
* `currentVersion_iff`: an interrupted release is recovered where the Makefile has one version.
-/

namespace Hamn.Release

open Hamn.Tui (Value isWhitespace)
open Regex

/-! ## Versions -/

/-- `[0-9]+` -/
def isDigits (text : Text) : Bool := !text.isEmpty && text.all Char.isDigit

/-- `0|[1-9][0-9]*` -/
def isCanonicalNumber (text : Text) : Bool := isDigits text && (text == ['0'] || text.head? != some '0')

/-- A canonical `MAJOR.MINOR.PATCH` version (no leading zeros, no suffix). -/
structure Version where
  parts : List Text
  three : parts.length = 3
  canonical : ∀ part ∈ parts, isCanonicalNumber part = true

def Version.parse (text : Text) : Option Version :=
  if h : (text.splitOn '.').length = 3 ∧ ∀ part ∈ text.splitOn '.', isCanonicalNumber part = true then
    some ⟨text.splitOn '.', h.1, h.2⟩
  else none

/-- Numeric order; canonical numbers of any size compare by length first. -/
def Version.cmp (v other : Version) : Ordering :=
  ((v.parts.zipWith (fun left right => (compare left.length right.length).then (compare left right))
    other.parts).find? (· != .eq)).getD .eq

/-! ## The version of a commit and of a checkout -/

/-- The output of a command; `stderr` as `stderr_lossy` reads it. -/
structure Output where
  success : Bool
  stdout : List UInt8
  stderr : Text

/-- The readers of the standard library and of `serde_json`. -/
structure Readers where
  fromStr : Text → Except Text Value
  /-- What `from_utf8` says of bytes that are not UTF-8. -/
  utf8Error : List UInt8 → Text

/-- A command of `checkout.git`. -/
abbrev Git := List Text → Except Text Output

/-- The contents of a directory's files. -/
abbrev Files := Text → Except Text (List UInt8)

def Output.stdoutText (readers : Readers) (output : Output) : Except Text Text :=
  match Utf8.decode output.stdout with
  | some text => .ok text
  | none => .error ("command output is not UTF-8: ".toList ++ readers.utf8Error output.stdout)

def trim (text : Text) : Text := (text.dropWhile isWhitespace).rdropWhile isWhitespace

/-- The root package's entry of a manifest that has no other package. -/
def rootEntry : Value → Except Text Value
  | .object [(".", entry)] => .ok entry
  | _ => .error "release manifest must contain only the root package".toList

def MANIFEST : Text := ".release-please-manifest.json".toList

def showObject (reference path : Text) : Text := reference ++ ':' :: path

section Readers

variable (readers : Readers) (git : Git) (files : Files)

/-- The file's exact bytes: version.txt must end in exactly one newline. -/
def gitShow (reference path : Text) : Except Text Text := do
  let output ← git ["show".toList, showObject reference path]
  if output.success then output.stdoutText readers
  else .error ("git show ".toList ++ showObject reference path ++ " failed: ".toList ++ trim output.stderr)

def manifest (reference : Text) : Except Text (Text × Version) := do
  let value ← ((gitShow readers git reference MANIFEST).bind readers.fromStr).mapError
    ("release manifest is invalid: ".toList ++ ·)
  match ← rootEntry value with
  | .string text =>
    match Version.parse text.toList with
    | some version => .ok (text.toList, version)
    | none => .error "release version is not canonical SemVer".toList
  | _ => .error "release version is not a string".toList

/-- The manifest version at `commit`, which must exceed the one at `previous` and match `commit`'s version copies. -/
def increasedVersion (previous commit : Text) : Except Text Text := do
  let (_, old) ← manifest readers git previous
  let (text, new) ← manifest readers git commit
  if new.cmp old != .gt then .error "release version did not increase".toList
  else if (← gitShow readers git commit "version.txt".toList) ≠ text ++ ['\n'] then
    .error "version.txt does not match the release manifest".toList
  else if (makefileVersions (← gitShow readers git commit "Makefile".toList)).head? ≠ some text then
    .error "Makefile does not match the release manifest".toList
  else if flakeVersions (← gitShow readers git commit "flake.nix".toList) ≠ [text] then
    .error "flake.nix does not match the release manifest".toList
  else .ok text

/-- `fs::read_to_string` in the checkout. -/
def readFile (name : Text) : Except Text Text :=
  ((files name).bind fun bytes =>
    match Utf8.decode bytes with
    | some text => .ok text
    | none => .error "stream did not contain valid UTF-8".toList).mapError (name ++ ": ".toList ++ ·)

/-- The checked-out release version, after checking that every version copy agrees. -/
def currentVersion : Except Text Text := do
  let value ← (readFile files MANIFEST).bind readers.fromStr
  match ← rootEntry value with
  | .string version =>
    let version := version.toList
    if (Version.parse version).isNone then .error "release version is not canonical SemVer".toList
    else if (← readFile files "version.txt".toList) ≠ version ++ ['\n'] then
      .error "version.txt does not match the release manifest".toList
    else if makefileVersions (← readFile files "Makefile".toList) ≠ [version] then
      .error "Makefile does not match the release manifest".toList
    else if flakeVersions (← readFile files "flake.nix".toList) ≠ [version] then
      .error "flake.nix does not match the release manifest".toList
    else .ok version
  | _ => .error "release version is not canonical SemVer".toList

end Readers

/-! ## Recovery -/

section Recovery

variable {readers : Readers} {git : Git} {files : Files} {commit : Text}

/-- The directory holds the commit's files. -/
def CheckedOut (git : Git) (files : Files) (commit : Text) : Prop :=
  ∀ path output, git ["show".toList, showObject commit path] = .ok output → output.success = true →
    files path = .ok output.stdout

/-- The Makefile of a commit has one line that the documented expression matches. -/
def OneMakefileVersion (git : Git) (commit : Text) : Prop :=
  ∃ output text, git ["show".toList, showObject commit "Makefile".toList] = .ok output ∧
    Utf8.decode output.stdout = some text ∧ (findall makefilePattern text).length = 1

theorem gitShow_eq_ok {path text : Text} (h : gitShow readers git commit path = .ok text) :
    ∃ output, git ["show".toList, showObject commit path] = .ok output ∧ output.success = true ∧
      Utf8.decode output.stdout = some text := by
  obtain ⟨output, hgit, h⟩ := Result.bind_eq_ok.mp h
  split_ifs at h with hsuccess
  refine ⟨output, hgit, hsuccess, ?_⟩
  unfold Output.stdoutText at h
  cases hdecode : Utf8.decode output.stdout with
  | none => rw [hdecode] at h; cases h
  | some text' =>
    rw [hdecode] at h
    rw [Except.ok.inj h]

/-- What `git show` prints is read in the checkout. -/
theorem readFile_of_gitShow (hfiles : CheckedOut git files commit) {path text : Text}
    (h : gitShow readers git commit path = .ok text) : readFile files path = .ok text := by
  obtain ⟨output, hgit, hsuccess, hdecode⟩ := gitShow_eq_ok h
  unfold readFile
  rw [hfiles path output hgit hsuccess]
  show Except.mapError _ (match Utf8.decode output.stdout with
    | some text => .ok text
    | none => .error "stream did not contain valid UTF-8".toList) = _
  rw [hdecode]
  rfl

theorem manifest_eq_ok {text : Text} {version : Version} (h : manifest readers git commit = .ok (text, version)) :
    ∃ source value s, gitShow readers git commit MANIFEST = .ok source ∧ readers.fromStr source = .ok value ∧
      rootEntry value = .ok (.string s) ∧ text = s.toList ∧ Version.parse text = some version := by
  obtain ⟨value, hvalue, h⟩ := Result.bind_eq_ok.mp h
  obtain ⟨entry, hentry, h⟩ := Result.bind_eq_ok.mp h
  cases hread : (gitShow readers git commit MANIFEST).bind readers.fromStr with
  | error e => rw [hread] at hvalue; cases hvalue
  | ok value' =>
    rw [hread] at hvalue
    obtain rfl : value' = value := Except.ok.inj hvalue
    obtain ⟨source, hsource, hfrom⟩ := Result.bind_eq_ok.mp hread
    cases entry with
    | string s =>
      cases hparse : Version.parse s.toList with
      | none => simp only [hparse] at h; cases h
      | some version' =>
        simp only [hparse] at h
        obtain ⟨rfl, rfl⟩ := Prod.mk.inj (Except.ok.inj h)
        exact ⟨source, value', s, hsource, hfrom, hentry, rfl, hparse⟩
    | null => cases h
    | bool b => cases h
    | number n => cases h
    | array items => cases h
    | object members => cases h

/-- What an increased version was checked against. -/
theorem increasedVersion_eq_ok {previous v : Text} (h : increasedVersion readers git previous commit = .ok v) :
    ∃ version makefile flake, manifest readers git commit = .ok (v, version) ∧
      gitShow readers git commit "version.txt".toList = .ok (v ++ ['\n']) ∧
      gitShow readers git commit "Makefile".toList = .ok makefile ∧ (makefileVersions makefile).head? = some v ∧
      gitShow readers git commit "flake.nix".toList = .ok flake ∧ flakeVersions flake = [v] := by
  obtain ⟨⟨old, oldVersion⟩, -, h⟩ := Result.bind_eq_ok.mp h
  obtain ⟨⟨text, version⟩, hmanifest, h⟩ := Result.bind_eq_ok.mp h
  obtain ⟨-, h⟩ := Result.else_of_eq h (by simp)
  obtain ⟨copy, hcopy, h⟩ := Result.bind_eq_ok.mp h
  obtain ⟨hsame, h⟩ := Result.else_of_eq h (by simp)
  obtain ⟨makefile, hmakefile, h⟩ := Result.bind_eq_ok.mp h
  obtain ⟨hfirst, h⟩ := Result.else_of_eq h (by simp)
  obtain ⟨flake, hflake, h⟩ := Result.bind_eq_ok.mp h
  obtain ⟨honly, h⟩ := Result.else_of_eq h (by simp)
  obtain rfl := Except.ok.inj h
  obtain rfl := not_ne_iff.mp hsame
  exact ⟨version, makefile, flake, hmanifest, hcopy, hmakefile, not_ne_iff.mp hfirst, hflake, not_ne_iff.mp honly⟩

/-- The version of a checkout whose other files agree is the Makefile's only one. -/
theorem currentVersion_eq {source makefile flake : Text} {value : Value} {s : String} {version : Version}
    (hsource : readFile files MANIFEST = .ok source) (hvalue : readers.fromStr source = .ok value)
    (hentry : rootEntry value = .ok (.string s)) (hparse : Version.parse s.toList = some version)
    (hcopy : readFile files "version.txt".toList = .ok (s.toList ++ ['\n']))
    (hmakefile : readFile files "Makefile".toList = .ok makefile)
    (hflake : readFile files "flake.nix".toList = .ok flake) (honly : flakeVersions flake = [s.toList]) :
    currentVersion readers files =
      if makefileVersions makefile ≠ [s.toList] then .error "Makefile does not match the release manifest".toList
      else .ok s.toList := by
  have hread : (readFile files MANIFEST).bind readers.fromStr = .ok value := by
    rw [hsource]
    exact hvalue
  unfold currentVersion
  rw [hread, Result.ok_bind, hentry, Result.ok_bind]
  dsimp only
  rw [hparse, if_neg (by simp), hcopy, Result.ok_bind, if_neg (not_not_intro rfl), hmakefile, Result.ok_bind, hflake,
    Result.ok_bind, honly, if_neg (not_not_intro rfl)]

theorem singleton_of_head {α : Type} {l : List α} {a : α} (h : l.head? = some a) : l = [a] ↔ l.length = 1 := by
  obtain ⟨rest, rfl⟩ := List.head?_eq_some_iff.mp h
  simp

/-- An increased version is recovered where the Makefile has one. -/
theorem currentVersion_iff {previous v : Text} (hfiles : CheckedOut git files commit)
    (h : increasedVersion readers git previous commit = .ok v) :
    currentVersion readers files = .ok v ↔ OneMakefileVersion git commit := by
  obtain ⟨version, makefile, flake, hmanifest, hcopy, hmakefile, hfirst, hflake, honly⟩ := increasedVersion_eq_ok h
  obtain ⟨source, value, s, hsource, hvalue, hentry, rfl, hparse⟩ := manifest_eq_ok hmanifest
  rw [currentVersion_eq (readFile_of_gitShow hfiles hsource) hvalue hentry hparse (readFile_of_gitShow hfiles hcopy)
    (readFile_of_gitShow hfiles hmakefile) (readFile_of_gitShow hfiles hflake) honly]
  obtain ⟨output, hgit, -, hdecode⟩ := gitShow_eq_ok hmakefile
  have hone : OneMakefileVersion git commit ↔ (makefileVersions makefile).length = 1 := by
    rw [makefile_eq]
    constructor
    · rintro ⟨output', text, hgit', hdecode', hlength⟩
      obtain rfl : output = output' := Except.ok.inj (hgit.symm.trans hgit')
      obtain rfl : makefile = text := Option.some.inj (hdecode.symm.trans hdecode')
      exact hlength
    · exact fun hlength => ⟨output, makefile, hgit, hdecode, hlength⟩
  rw [hone, ← singleton_of_head hfirst]
  by_cases hsame : makefileVersions makefile = [s.toList]
  · rw [if_neg (not_not_intro hsame)]
    exact iff_of_true rfl hsame
  · rw [if_pos hsame]
    exact iff_of_false (by simp) hsame

end Recovery

/-! ## The release -/

/-- The objects of a release from `0.1.1` to `0.1.2`. -/
def sampleObjects (makefile : Text) : List (Text × Text) :=
  [("a:.release-please-manifest.json".toList, "\x7b\".\":\"0.1.1\"\x7d".toList),
    ("b:.release-please-manifest.json".toList, "\x7b\".\":\"0.1.2\"\x7d".toList),
    ("b:version.txt".toList, "0.1.2\n".toList), ("b:Makefile".toList, makefile),
    ("b:flake.nix".toList, "hamnVersion = \"0.1.2\"; # x-release-please-version\n".toList)]

def sampleGit (makefile : Text) : Git := fun words =>
  match (sampleObjects makefile).lookup (words.getLastD []) with
  | some text => .ok ⟨true, Utf8.text text, []⟩
  | none => .ok ⟨false, [], "fatal: invalid object name".toList⟩

/-- The checkout of `b`. -/
def sampleFiles (makefile : Text) : Files := fun path =>
  match (sampleObjects makefile).lookup (showObject ['b'] path) with
  | some text => .ok (Utf8.text text)
  | none => .error "No such file or directory (os error 2)".toList

def sampleReaders : Readers where
  fromStr text :=
    if text = "\x7b\".\":\"0.1.1\"\x7d".toList then .ok (.object [(".", .string "0.1.1")])
    else if text = "\x7b\".\":\"0.1.2\"\x7d".toList then .ok (.object [(".", .string "0.1.2")])
    else .error "expected value at line 1 column 1".toList
  utf8Error _ := "incomplete utf-8 byte sequence from index 0".toList

theorem sample_checkedOut (makefile : Text) : CheckedOut (sampleGit makefile) (sampleFiles makefile) ['b'] := by
  intro path output hgit hsuccess
  unfold sampleGit at hgit
  unfold sampleFiles
  rw [List.getLastD_cons, List.getLastD_cons, List.getLastD_nil] at hgit
  cases hlookup : (sampleObjects makefile).lookup (showObject ['b'] path) with
  | some text =>
    simp only [hlookup] at hgit ⊢
    rw [← Except.ok.inj hgit]
  | none =>
    simp only [hlookup] at hgit
    rw [← Except.ok.inj hgit] at hsuccess
    cases hsuccess

theorem gitShow_sample {makefile : Text} (readers : Readers) {reference path : Text} (text : Text)
    (h : (sampleObjects makefile).lookup (showObject reference path) = some text) :
    gitShow readers (sampleGit makefile) reference path = .ok text := by
  have hgit : sampleGit makefile ["show".toList, showObject reference path] = .ok ⟨true, Utf8.text text, []⟩ := by
    unfold sampleGit
    rw [List.getLastD_cons, List.getLastD_cons, List.getLastD_nil, h]
  unfold gitShow
  rw [hgit, Result.ok_bind, if_pos rfl]
  unfold Output.stdoutText
  rw [Utf8.decode_text]

theorem manifest_ok {readers : Readers} {git : Git} {commit source : Text} {s : String} {version : Version}
    (hsource : gitShow readers git commit MANIFEST = .ok source)
    (hvalue : readers.fromStr source = .ok (.object [(".", .string s)]))
    (hparse : Version.parse s.toList = some version) :
    manifest readers git commit = .ok (s.toList, version) := by
  have hread : (gitShow readers git commit MANIFEST).bind readers.fromStr = .ok (.object [(".", .string s)]) := by
    rw [hsource]
    exact hvalue
  have hentry : rootEntry (.object [(".", .string s)]) = .ok (.string s) := rfl
  unfold manifest
  rw [hread]
  dsimp only [Except.mapError]
  rw [Result.ok_bind, hentry, Result.ok_bind]
  dsimp only
  rw [hparse]

theorem sample_flake : flakeVersions "hamnVersion = \"0.1.2\"; # x-release-please-version\n".toList = ["0.1.2".toList] := by
  rw [flake_eq]
  decide

/-- The first version of the Makefile decides. -/
theorem sample_increased {makefile : Text} (h : (makefileVersions makefile).head? = some "0.1.2".toList) :
    increasedVersion sampleReaders (sampleGit makefile) ['a'] ['b'] = .ok "0.1.2".toList := by
  obtain ⟨old, hold⟩ : ∃ old, Version.parse "0.1.1".toList = some old ∧ old.parts = ["0".toList, "1".toList, "1".toList] :=
    ⟨⟨"0.1.1".toList.splitOn '.', by decide, by decide⟩, dif_pos ⟨by decide, by decide⟩, by decide⟩
  obtain ⟨new, hnew⟩ : ∃ new, Version.parse "0.1.2".toList = some new ∧ new.parts = ["0".toList, "1".toList, "2".toList] :=
    ⟨⟨"0.1.2".toList.splitOn '.', by decide, by decide⟩, dif_pos ⟨by decide, by decide⟩, by decide⟩
  have hgt : new.cmp old = .gt := by
    unfold Version.cmp
    rw [hold.2, hnew.2]
    decide
  unfold increasedVersion
  rw [manifest_ok (s := "0.1.1") (gitShow_sample _ _ rfl) rfl hold.1, Result.ok_bind]
  dsimp only
  rw [manifest_ok (s := "0.1.2") (gitShow_sample _ _ rfl) rfl hnew.1, Result.ok_bind]
  dsimp only
  rw [hgt, if_neg (by decide), gitShow_sample _ "0.1.2\n".toList rfl, Result.ok_bind, if_neg (by decide),
    gitShow_sample _ makefile rfl, Result.ok_bind, if_neg (not_not_intro h), gitShow_sample _ _ rfl, Result.ok_bind,
    sample_flake, if_neg (not_not_intro rfl)]

end Hamn.Release
