import Hamn.Lib.Bytes
import Hamn.Lib.Result

/-!
# Posix — file trees and the calls that change them

A volume gives each of its roots (a type `A` of directories that lie apart from one another) a tree.  What the
calls look at of an entry is its kind, owner, permission bits and link count; the caller is not the superuser, and
the owner's bits decide what it may do.  No call follows a symbolic link inside a path.

* `Node`, `Dir`: a file, directory, symbolic link or other entry; directories list their entries.
* `Disk A`, `Loc A`: the trees under every root; an entry is found by its root and path.
* `find`: what `lstat` sees; `alter`: the tree with one entry replaced.
* `mkdir`, `createFile`, `write`, `chmod`, `symlink`, `removeFile`, `removeDir`, `rename`, `renameExcl`: one system
  call each, from the disk to the disk it leaves or the error it returns.
-/

namespace Posix

open Result

abbrev Name := Bytes

structure Attr where
  /-- Whether the effective user owns the entry. -/
  own : Bool
  /-- The permission bits (`st_mode & 0o7777`). -/
  mode : ℕ
  nlink : ℕ
  deriving DecidableEq, Repr

def Attr.readable (a : Attr) : Bool := a.mode.testBit 8

def Attr.writable (a : Attr) : Bool := a.mode.testBit 7

def Attr.searchable (a : Attr) : Bool := a.mode.testBit 6

/-- The attributes of an entry that the caller creates. -/
def Attr.mine (mode : ℕ) : Attr := ⟨true, mode, 1⟩

inductive Node where
  | file (a : Attr) (content : Bytes)
  | dir (a : Attr) (entries : List (Name × Node))
  | symlink (a : Attr) (target : Bytes)
  /-- A socket, pipe or device. -/
  | special (a : Attr)

abbrev Dir := List (Name × Node)

inductive Errno where
  | noent | exist | notdir | isdir | notempty | access | inval | io
  deriving DecidableEq, Repr

namespace Node

def attr : Node → Attr
  | file a _ => a
  | dir a _ => a
  | symlink a _ => a
  | special a => a

def isDir : Node → Bool
  | dir _ _ => true
  | _ => false

def isFile : Node → Bool
  | file _ _ => true
  | _ => false

def isSymlink : Node → Bool
  | symlink _ _ => true
  | _ => false

/-- The bytes of a regular file. -/
def content : Node → Bytes
  | file _ c => c
  | _ => []

def setMode (mode : ℕ) : Node → Node
  | file a c => file { a with mode } c
  | dir a es => dir { a with mode } es
  | symlink a t => symlink { a with mode } t
  | special a => special { a with mode }

end Node

mutual

/-- The number of levels of a tree. -/
def Node.height : Node → ℕ
  | .dir _ es => Node.heights es + 1
  | _ => 1

def Node.heights : List (Name × Node) → ℕ
  | [] => 0
  | (_, n) :: es => max n.height (Node.heights es)

end

/-! ## Directories -/

namespace Dir

def get : Dir → Name → Option Node
  | [], _ => none
  | (x, n) :: es, y => if x = y then some n else get es y

def del (es : Dir) (x : Name) : Dir := es.filter fun e => e.1 ≠ x

/-- The entry `x` becomes `n`, or is dropped. -/
def set (es : Dir) (x : Name) : Option Node → Dir
  | some n => (x, n) :: es.del x
  | none => es.del x

def names (es : Dir) : List Name := es.map Prod.fst

@[simp] theorem get_del_self (x : Name) : ∀ es : Dir, (es.del x).get x = none
  | [] => rfl
  | (y, n) :: es => by
    have ih := get_del_self x es
    unfold del at ih ⊢
    by_cases h : y = x
    · simpa [h] using ih
    · simpa [h, get] using ih

theorem get_del_ne {x y : Name} (h : x ≠ y) : ∀ es : Dir, (es.del x).get y = es.get y
  | [] => rfl
  | (z, n) :: es => by
    have ih := get_del_ne h es
    unfold del at ih ⊢
    by_cases hz : z = x
    · have hzy : z ≠ y := fun e => h (hz ▸ e)
      simpa [hz, get, h] using ih
    · by_cases hy : z = y
      · subst hy
        simp [hz, get]
      · simpa [hz, hy, get] using ih

@[simp] theorem get_set_self (es : Dir) (x : Name) (n : Option Node) : (es.set x n).get x = n := by
  cases n with
  | none => exact get_del_self x es
  | some n => simp [set, get]

theorem get_set_ne {x y : Name} (h : x ≠ y) (es : Dir) (n : Option Node) : (es.set x n).get y = es.get y := by
  cases n with
  | none => exact get_del_ne h es
  | some n => simp [set, get, h, get_del_ne h es]

theorem mem_names {x : Name} : ∀ {es : Dir}, x ∈ es.names ↔ es.get x ≠ none
  | [] => by simp [names, get]
  | (y, n) :: es => by
    have ih : x ∈ names es ↔ _ := mem_names
    unfold names at ih ⊢
    rw [List.map_cons, List.mem_cons, ih]
    by_cases h : y = x
    · simp [get, h]
    · simp [get, h, Ne.symm h]

theorem names_set_some {es : Dir} {x : Name} (n : Node) (h : es.get x = none) :
    (es.set x (some n)).names = x :: es.names := by
  have hdel : es.del x = es := List.filter_eq_self.mpr fun e he => by
    have hmem : e.1 ∈ es.names := List.mem_map_of_mem he
    have hne : e.1 ≠ x := fun hx => mem_names.mp (hx ▸ hmem) h
    simpa using hne
  rw [set, hdel]
  rfl

end Dir

/-! ## Paths -/

namespace Node

/-- The entry at a path; every directory on the way has to be searchable. -/
def find : List Name → Option Node → Except Errno Node
  | [], none => .error .noent
  | [], some n => .ok n
  | x :: p, some (dir a es) => if a.searchable then find p (Dir.get es x) else .error .access
  | _ :: _, some _ => .error .notdir
  | _ :: _, none => .error .noent

/-- The tree whose entry at the path is changed by `f`. -/
def alter (f : Option Node → Option Node) : List Name → Option Node → Option Node
  | [], n => f n
  | x :: p, some (dir a es) => some (dir a (Dir.set es x (alter f p (Dir.get es x))))
  | _ :: _, n => n

/-- Two paths of which neither continues the other. -/
def Apart : List Name → List Name → Prop
  | x :: p, y :: q => x ≠ y ∨ Apart p q
  | _, _ => False

theorem Apart.symm : ∀ {p q : List Name}, Apart p q → Apart q p
  | _ :: _, _ :: _, h => h.imp Ne.symm Apart.symm

theorem Apart.ne : ∀ {p q : List Name}, Apart p q → p ≠ q
  | _ :: _, _ :: _, Or.inl h, he => h (List.cons.inj he).1
  | _ :: _, _ :: _, Or.inr h, he => h.ne (List.cons.inj he).2

theorem Apart.append : ∀ {p q : List Name} (r : List Name), Apart p q → Apart (p ++ r) q
  | _ :: _, _ :: _, r, h => h.imp id (Apart.append r)

theorem Apart.append_same : ∀ (r : List Name) {p q : List Name}, Apart p q → Apart (r ++ p) (r ++ q)
  | [], _, _, h => h
  | _ :: r, _, _, h => Or.inr (Apart.append_same r h)

theorem find_alter_of_apart {f : Option Node → Option Node} :
    ∀ {p q : List Name}, Apart p q → ∀ n, find q (alter f p n) = find q n
  | x :: p, y :: q, h, some (dir a es) => by
    simp only [alter, find]
    by_cases hxy : x = y
    · subst hxy
      rw [Dir.get_set_self, find_alter_of_apart (h.resolve_left fun hne => hne rfl)]
    · rw [Dir.get_set_ne hxy]
  | _ :: _, _ :: _, _, none => rfl
  | _ :: _, _ :: _, _, some (file _ _) => rfl
  | _ :: _, _ :: _, _, some (symlink _ _) => rfl
  | _ :: _, _ :: _, _, some (special _) => rfl

/-- The changed entry itself, when its directory can be reached. -/
theorem find_alter_self {f : Option Node → Option Node} {a : Attr} {es : Dir} {x : Name} :
    ∀ {p : List Name} {n : Option Node}, find p n = .ok (dir a es) →
      find p (alter f (p ++ [x]) n) = .ok (dir a (es.set x (f (es.get x))))
  | [], some n, h => by
    obtain rfl : n = dir a es := Except.ok.inj h
    rfl
  | y :: p, some (dir b fs), h => by
    simp only [find] at h
    simp only [List.cons_append, alter, find]
    split_ifs at h ⊢
    rw [Dir.get_set_self]
    exact find_alter_self h

theorem find_append {p : List Name} {n : Option Node} {m : Node} (h : find p n = .ok m) (q : List Name) :
    find (p ++ q) n = find q (some m) := by
  induction p generalizing n with
  | nil =>
    cases n with
    | none => cases h
    | some n =>
      obtain rfl : n = m := Except.ok.inj h
      rfl
  | cons x p ih =>
    cases n with
    | none => cases h
    | some n =>
      cases n with
      | dir a es =>
        simp only [find] at h
        simp only [List.cons_append, find]
        split_ifs at h ⊢
        exact ih h
      | file a c => cases h
      | symlink a t => cases h
      | special a => cases h

end Node

/-! ## Disks -/

/-- The tree under every root; `none` where the root directory itself is missing. -/
abbrev Disk (A : Type) := A → Option Node

structure Loc (A : Type) where
  root : A
  path : List Name
  deriving DecidableEq

section

variable {A : Type} [DecidableEq A]

namespace Loc

/-- The entry `x` of the directory `l`. -/
def sub (l : Loc A) (x : Name) : Loc A := ⟨l.root, l.path ++ [x]⟩

def parent (l : Loc A) : Loc A := ⟨l.root, l.path.dropLast⟩

/-- Neither location lies at or below the other. -/
def Apart (l l' : Loc A) : Prop := l.root ≠ l'.root ∨ Node.Apart l.path l'.path

omit [DecidableEq A] in
theorem Apart.symm {l l' : Loc A} (h : Apart l l') : Apart l' l := h.imp Ne.symm Node.Apart.symm

omit [DecidableEq A] in
theorem Apart.ne {l l' : Loc A} (h : Apart l l') : l ≠ l' := by
  rintro rfl
  exact h.elim (fun h => h rfl) fun h => h.ne rfl

omit [DecidableEq A] in
/-- What lies below a location that is apart is apart. -/
theorem Apart.sub {l l' : Loc A} (h : Apart l l') (x : Name) : Apart (l.sub x) l' := h.imp id (Node.Apart.append [x])

omit [DecidableEq A] in
/-- Entries of one directory under different names. -/
theorem apart_of_ne {l : Loc A} {x y : Name} (h : x ≠ y) : Apart (l.sub x) (l.sub y) :=
  Or.inr (Node.Apart.append_same l.path (Or.inl h))

omit [DecidableEq A] in
theorem apart_of_root {l l' : Loc A} (h : l.root ≠ l'.root) : Apart l l' := Or.inl h

end Loc

namespace Disk

def find (d : Disk A) (l : Loc A) : Except Errno Node := Node.find l.path (d l.root)

def alter (d : Disk A) (l : Loc A) (f : Option Node → Option Node) : Disk A :=
  Function.update d l.root (Node.alter f l.path (d l.root))

theorem find_alter_of_apart {d : Disk A} {l l' : Loc A} {f : Option Node → Option Node} (h : l.Apart l') :
    (d.alter l f).find l' = d.find l' := by
  unfold find alter
  by_cases hr : l'.root = l.root
  · rw [hr, Function.update_self]
    exact Node.find_alter_of_apart (h.resolve_left fun hne => hne hr.symm) _
  · rw [Function.update_of_ne hr]

/-- A directory after a change of one of its entries. -/
theorem find_alter_sub {d : Disk A} {l : Loc A} {f : Option Node → Option Node} {a : Attr} {es : Dir} {x : Name}
    (h : d.find l = .ok (.dir a es)) : (d.alter (l.sub x) f).find l = .ok (.dir a (es.set x (f (es.get x)))) := by
  unfold find alter Loc.sub
  rw [Function.update_self]
  exact Node.find_alter_self h

omit [DecidableEq A] in
theorem find_sub {d : Disk A} {l : Loc A} {a : Attr} {es : Dir} {x : Name} (h : d.find l = .ok (.dir a es))
    (ha : a.searchable) : d.find (l.sub x) = Node.find [] (es.get x) := by
  unfold find Loc.sub
  rw [Node.find_append h, Node.find, if_pos ha]

omit [DecidableEq A] in
/-- An entry that was found is in its directory. -/
theorem get_of_find_sub {d : Disk A} {l : Loc A} {a : Attr} {es : Dir} {x : Name} {n : Node}
    (h : d.find l = .ok (.dir a es)) (hx : d.find (l.sub x) = .ok n) : es.get x = some n ∧ a.searchable := by
  unfold find Loc.sub at hx
  rw [Node.find_append h, Node.find] at hx
  split_ifs at hx with ha
  cases hg : Dir.get es x with
  | none =>
    rw [hg] at hx
    cases hx
  | some m =>
    rw [hg] at hx
    exact ⟨congrArg some (Except.ok.inj hx), ha⟩

omit [DecidableEq A] in
/-- What was found lies in a directory that can be searched. -/
theorem find_parent {d : Disk A} {l : Loc A} {x : Name} {n : Node} (hx : d.find (l.sub x) = .ok n) :
    ∃ a es, d.find l = .ok (.dir a es) ∧ a.searchable := by
  have key : ∀ (p : List Name) (t : Option Node), Node.find (p ++ [x]) t = .ok n →
      ∃ a es, Node.find p t = .ok (.dir a es) ∧ a.searchable := by
    intro p
    induction p with
    | nil =>
      intro t ht
      cases t with
      | none => cases ht
      | some t =>
        cases t with
        | dir a es =>
          simp only [List.nil_append, Node.find] at ht
          split_ifs at ht with ha
          exact ⟨a, es, rfl, ha⟩
        | file a c => cases ht
        | symlink a c => cases ht
        | special a => cases ht
    | cons y p ih =>
      intro t ht
      cases t with
      | none => cases ht
      | some t =>
        cases t with
        | dir a es =>
          simp only [List.cons_append, Node.find] at ht ⊢
          split_ifs at ht ⊢
          exact ih _ ht
        | file a c => cases ht
        | symlink a c => cases ht
        | special a => cases ht
  exact key l.path (d l.root) hx

/-- The changed entry itself, in a directory that can be searched. -/
theorem find_alter_self {d : Disk A} {l : Loc A} {f : Option Node → Option Node} {a : Attr} {es : Dir} {x : Name}
    (h : d.find l = .ok (.dir a es)) (ha : a.searchable) :
    (d.alter (l.sub x) f).find (l.sub x) = Node.find [] (f (es.get x)) := by
  rw [find_sub (find_alter_sub h) ha, Dir.get_set_self]

/-! ## Calls -/

/-- Whether entries of the directory that holds `l` may be added and removed. -/
def editable (d : Disk A) (l : Loc A) : Except Errno Unit :=
  if l.path = [] then .ok ()
  else
    match d.find l.parent with
    | .ok (.dir a _) => if a.writable && a.searchable then .ok () else .error .access
    | .ok _ => .error .notdir
    | .error e => .error e

/-- Adds `n` at `l`, where nothing may be yet. -/
def place (n : Node) (l : Loc A) (d : Disk A) : Except Errno (Disk A) := do
  d.editable l
  match d.find l with
  | .error .noent => .ok (d.alter l fun _ => some n)
  | .error e => .error e
  | .ok _ => .error .exist

def mkdir (mode : ℕ) : Loc A → Disk A → Except Errno (Disk A) := place (.dir (.mine mode) [])

/-- `open` with `O_CREAT | O_EXCL | O_NOFOLLOW`. -/
def createFile (mode : ℕ) : Loc A → Disk A → Except Errno (Disk A) := place (.file (.mine mode) [])

def symlink (target : Bytes) : Loc A → Disk A → Except Errno (Disk A) := place (.symlink (.mine 0o755) target)

/-- The file at `l`, open for writing, gets the content `content`. -/
def write (content : Bytes) (l : Loc A) (d : Disk A) : Except Errno (Disk A) :=
  match d.find l with
  | .ok (.file a _) => .ok (d.alter l fun _ => some (.file a content))
  | .ok _ => .error .isdir
  | .error e => .error e

def chmod (mode : ℕ) (l : Loc A) (d : Disk A) : Except Errno (Disk A) :=
  match d.find l with
  | .ok n => .ok (d.alter l fun _ => some (n.setMode mode))
  | .error e => .error e

def removeFile (l : Loc A) (d : Disk A) : Except Errno (Disk A) := do
  d.editable l
  match d.find l with
  | .ok (.dir _ _) => .error .isdir
  | .ok _ => .ok (d.alter l fun _ => none)
  | .error e => .error e

def removeDir (l : Loc A) (d : Disk A) : Except Errno (Disk A) := do
  d.editable l
  match d.find l with
  | .ok (.dir _ []) => .ok (d.alter l fun _ => none)
  | .ok (.dir _ (_ :: _)) => .error .notempty
  | .ok _ => .error .notdir
  | .error e => .error e

/-- The tree after `n` moved from `l` to `l'`. -/
def move (d : Disk A) (l l' : Loc A) (n : Node) : Disk A := (d.alter l fun _ => none).alter l' fun _ => some n

/-- `rename(2)`: a directory replaces only an empty directory, anything else only a non-directory. -/
def rename (l l' : Loc A) (d : Disk A) : Except Errno (Disk A) := do
  d.editable l
  d.editable l'
  let n ← d.find l
  match d.find l' with
  | .error .noent => .ok (d.move l l' n)
  | .error e => .error e
  | .ok (.dir _ []) => if n.isDir then .ok (d.move l l' n) else .error .isdir
  | .ok (.dir _ (_ :: _)) => if n.isDir then .error .notempty else .error .isdir
  | .ok _ => if n.isDir then .error .notdir else .ok (d.move l l' n)

/-- `renamex_np` with `RENAME_EXCL`. -/
def renameExcl (l l' : Loc A) (d : Disk A) : Except Errno (Disk A) := do
  d.editable l
  d.editable l'
  let n ← d.find l
  match d.find l' with
  | .error .noent => .ok (d.move l l' n)
  | .error e => .error e
  | .ok _ => .error .exist

/-! ### What a call that returned did -/

theorem place_eq_ok {n : Node} {l : Loc A} {d d' : Disk A} (h : place n l d = .ok d') :
    d.find l = .error .noent ∧ d' = d.alter l fun _ => some n := by
  obtain ⟨_, _, h⟩ := bind_eq_ok.mp h
  split at h
  · rename_i hf
    exact ⟨hf, (Except.ok.inj h).symm⟩
  · cases h
  · cases h

theorem write_eq_ok {c : Bytes} {l : Loc A} {d d' : Disk A} (h : write c l d = .ok d') :
    ∃ a c', d.find l = .ok (.file a c') ∧ d' = d.alter l fun _ => some (.file a c) := by
  unfold write at h
  split at h
  · rename_i a c' hf
    exact ⟨a, c', hf, (Except.ok.inj h).symm⟩
  · cases h
  · cases h

theorem chmod_eq_ok {mode : ℕ} {l : Loc A} {d d' : Disk A} (h : chmod mode l d = .ok d') :
    ∃ n, d.find l = .ok n ∧ d' = d.alter l fun _ => some (n.setMode mode) := by
  unfold chmod at h
  split at h
  · rename_i n hf
    exact ⟨n, hf, (Except.ok.inj h).symm⟩
  · cases h

theorem removeFile_eq_ok {l : Loc A} {d d' : Disk A} (h : removeFile l d = .ok d') :
    ∃ n, d.find l = .ok n ∧ n.isDir = false ∧ d' = d.alter l fun _ => none := by
  obtain ⟨_, _, h⟩ := bind_eq_ok.mp h
  split at h
  · cases h
  · rename_i n hn hf
    refine ⟨n, hf, ?_, (Except.ok.inj h).symm⟩
    cases n with
    | dir a es => exact absurd rfl (hn a es)
    | _ => rfl
  · cases h

theorem removeDir_eq_ok {l : Loc A} {d d' : Disk A} (h : removeDir l d = .ok d') :
    ∃ a, d.find l = .ok (.dir a []) ∧ d' = d.alter l fun _ => none := by
  obtain ⟨_, _, h⟩ := bind_eq_ok.mp h
  split at h
  · rename_i a hf
    exact ⟨a, hf, (Except.ok.inj h).symm⟩
  · cases h
  · cases h
  · cases h

theorem rename_eq_ok {l l' : Loc A} {d d' : Disk A} (h : rename l l' d = .ok d') :
    ∃ n, d.find l = .ok n ∧ d' = d.move l l' n := by
  obtain ⟨_, _, h⟩ := bind_eq_ok.mp h
  obtain ⟨_, _, h⟩ := bind_eq_ok.mp h
  obtain ⟨n, hn, h⟩ := bind_eq_ok.mp h
  refine ⟨n, hn, ?_⟩
  split at h
  · exact (Except.ok.inj h).symm
  · cases h
  all_goals split_ifs at h <;> exact (Except.ok.inj h).symm

theorem renameExcl_eq_ok {l l' : Loc A} {d d' : Disk A} (h : renameExcl l l' d = .ok d') :
    ∃ n, d.find l = .ok n ∧ d.find l' = .error .noent ∧ d' = d.move l l' n := by
  obtain ⟨_, _, h⟩ := bind_eq_ok.mp h
  obtain ⟨_, _, h⟩ := bind_eq_ok.mp h
  obtain ⟨n, hn, h⟩ := bind_eq_ok.mp h
  split at h
  · rename_i hf
    exact ⟨n, hn, hf, (Except.ok.inj h).symm⟩
  · cases h
  · cases h

/-- What was moved within one directory is found under its new name. -/
theorem find_move_self {d : Disk A} {l : Loc A} {x y : Name} {n : Node} (h : d.find (l.sub x) = .ok n) :
    (d.move (l.sub x) (l.sub y) n).find (l.sub y) = .ok n := by
  obtain ⟨a, es, hl, ha⟩ := find_parent h
  unfold move
  rw [find_alter_self (find_alter_sub hl) ha]
  rfl

/-- An entry that was there, after a change of it. -/
theorem find_alter_of_found {d : Disk A} {l : Loc A} {x : Name} {n : Node} {f : Option Node → Option Node}
    (h : d.find (l.sub x) = .ok n) : (d.alter (l.sub x) f).find (l.sub x) = Node.find [] (f (some n)) := by
  obtain ⟨a, es, hl, ha⟩ := find_parent h
  rw [find_alter_self hl ha, (get_of_find_sub hl h).1]

/-- A new entry: its directory is there and did not have it. -/
theorem place_sub_eq_ok {n : Node} {l : Loc A} {x : Name} {d d' : Disk A} (h : place n (l.sub x) d = .ok d') :
    ∃ a es, d.find l = .ok (.dir a es) ∧ a.searchable ∧ Dir.get es x = none ∧ d' = d.alter (l.sub x) fun _ => some n := by
  obtain ⟨hf, hd⟩ := place_eq_ok h
  obtain ⟨_, he, _⟩ := bind_eq_ok.mp h
  have hp : (l.sub x).parent = l := by
    unfold Loc.parent Loc.sub
    simp
  unfold editable at he
  rw [if_neg (by simp [Loc.sub]), hp] at he
  split at he
  · rename_i a es hl
    split_ifs at he with hw
    have ha : a.searchable = true := (Bool.and_eq_true_iff.mp hw).2
    rw [find_sub hl ha] at hf
    refine ⟨a, es, hl, ha, ?_, hd⟩
    cases hg : Dir.get es x with
    | none => rfl
    | some m =>
      rw [hg] at hf
      cases hf
  · cases he
  · cases he

theorem find_place {n : Node} {l : Loc A} {x : Name} {d d' : Disk A} (h : place n (l.sub x) d = .ok d') :
    d'.find (l.sub x) = .ok n := by
  obtain ⟨a, es, hl, ha, -, rfl⟩ := place_sub_eq_ok h
  rw [find_alter_self hl ha]
  rfl

theorem find_move_of_apart {d : Disk A} {l l' k : Loc A} {n : Node} (h : l.Apart k) (h' : l'.Apart k) :
    (d.move l l' n).find k = d.find k := by
  unfold move
  rw [find_alter_of_apart h', find_alter_of_apart h]

end Disk

end

end Posix
