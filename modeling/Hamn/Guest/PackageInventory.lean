import Hamn.Guest.JsonUtf8
import Hamn.Lib.Bytes
import Hamn.Lib.Split

/-!
# PackageInventory — the rows of `dpkg-query` (`size_package_inventory` of `image/size_gate.c`)

Messages are the texts before `vsnprintf` cuts them to their buffer, and allocations succeed.

* `Inventory`: what an inventory is, as a text: its lines after Python's universal newlines.
* `scanFrom_text`: the byte scan finds the lines of the text.
* `sizePackageInventory_spec`: what is accepted, and where the names are written.
-/

open Bytes

namespace Hamn.SizeGate

/-! ## Model -/

def IMAGE_JSON_MAX_BYTES : ℕ := 16 * 1024 * 1024

def lineBoundary : Bytes → ℕ
  | [] => 0
  | c :: s =>
    if c = 0x0A ∨ c = 0x0B ∨ c = 0x0C ∨ c = 0x1C ∨ c = 0x1D ∨ c = 0x1E then 1
    else if c = 0x0D then if s[0]? = some 0x0A then 2 else 1
    else if c = 0xC2 then if s[0]? = some 0x85 then 2 else 0
    else if c = 0xE2 then if s[0]? = some 0x80 ∧ (s[1]? = some 0xA8 ∨ s[1]? = some 0xA9) then 3 else 0
    else 0

def unicodeSpace (codePoint : ℕ) : Bool :=
  (0x09 ≤ codePoint && codePoint ≤ 0x0D) || (0x1C ≤ codePoint && codePoint ≤ 0x20) || codePoint == 0x85 ||
    codePoint == 0xA0 || codePoint == 0x1680 || (0x2000 ≤ codePoint && codePoint ≤ 0x200A) ||
    codePoint == 0x2028 || codePoint == 0x2029 || codePoint == 0x202F || codePoint == 0x205F || codePoint == 0x3000

/-- The length of the first sequence of validated UTF-8, and its code point. -/
def nextCodePoint (s : Bytes) : ℕ × ℕ :=
  let first := (s.headD 0).toNat
  if first < 0x80 then (1, first)
  else
    let length := if 0xF0 ≤ first then 4 else if 0xE0 ≤ first then 3 else 2
    let value := first &&& (if length = 2 then 0x1F else if length = 3 then 0x0F else 0x07)
    (length, ((s.drop 1).take (length - 1)).foldl (fun value c => value <<< 6 ||| (c.toNat &&& 0x3F)) value)

theorem nextCodePoint_pos (s : Bytes) : 0 < (nextCodePoint s).1 := by
  unfold nextCodePoint
  simp only
  split_ifs <;> simp

/-- The code points of a field from an offset on. -/
def codePointsValid (digits : Bool) (field : Bytes) : Bool :=
  if _h : field = [] then true
  else if unicodeSpace (nextCodePoint field).2 then false
  else if digits && !(48 ≤ (nextCodePoint field).2 && (nextCodePoint field).2 ≤ 57) then false
  else codePointsValid digits (field.drop (nextCodePoint field).1)
termination_by field.length
decreasing_by
  have hpos := nextCodePoint_pos field
  have hlen := List.length_pos_of_ne_nil ‹_›
  rw [List.length_drop]
  omega

def fieldValid (field : Bytes) (digits : Bool) : Bool := if field.length = 0 then false else codePointsValid digits field

/-- The name of a valid row. -/
def rowValid (row : Bytes) : Option Bytes := do
  let (name, rest) ← splitOnce 9 row
  let (version, size) ← splitOnce 9 rest
  if 9 ∈ size then none
  else if !fieldValid name false || !fieldValid version false || !fieldValid size true then none
  else some name

def memcmp : ℕ → Bytes → Bytes → ℤ
  | n + 1, a :: s, b :: t => if a = b then memcmp n s t else (a.toNat : ℤ) - b.toNat
  | _, _, _ => 0

def nameOrder (a b : Bytes) : ℤ :=
  let shorter := if a.length < b.length then a.length else b.length
  let order := memcmp shorter a b
  if order ≠ 0 then order
  else (if b.length < a.length then 1 else 0) - (if a.length < b.length then 1 else 0)

/-- The bytes before the first line boundary, and its own; both in the text from `start` on. -/
def findBoundary : Bytes → ℕ × ℕ
  | [] => (0, 0)
  | c :: s => if lineBoundary (c :: s) = 0 then ((findBoundary s).1 + 1, (findBoundary s).2)
    else (0, lineBoundary (c :: s))

theorem findBoundary_pos {s : Bytes} (h : s ≠ []) : 0 < (findBoundary s).1 + (findBoundary s).2 := by
  cases s with
  | nil => exact absurd rfl h
  | cons c s =>
    unfold findBoundary
    split_ifs with hc
    · simp only
      omega
    · simp only
      omega

/-- What the loop over the rows leaves. -/
structure Scan where
  rows : List Bytes
  /-- The writes to the name array. -/
  names : List (ℕ × Bytes)
  invalid : Bool

def scanFrom (count : ℕ) (rest : Bytes) : Scan :=
  if _h : rest = [] then ⟨[], [], false⟩
  else
    match rowValid (rest.take (findBoundary rest).1) with
    | none => ⟨[], [], true⟩
    | some name =>
      let row := rest.take (findBoundary rest).1
      if (findBoundary rest).1 = rest.length then ⟨[row], [(count, name)], false⟩
      else
        let scan := scanFrom (count + 1) (rest.drop ((findBoundary rest).1 + (findBoundary rest).2))
        ⟨row :: scan.rows, (count, name) :: scan.names, scan.invalid⟩
termination_by rest.length
decreasing_by
  have hpos := findBoundary_pos ‹_›
  have hlen := List.length_pos_of_ne_nil ‹_›
  rw [List.length_drop]
  omega

/-- The loop that turns `\r\n` and `\r` into `\n` in the buffer. -/
def translateFrom (text : Bytes) (translated index : ℕ) : Bytes × ℕ :=
  if h : index < text.length then
    if text[index] = 13 then
      let text' := text.set translated newline
      if text'[index + 1]? = some newline then translateFrom text' (translated + 1) (index + 2)
      else translateFrom text' (translated + 1) (index + 1)
    else translateFrom (text.set translated text[index]) (translated + 1) (index + 1)
  else (text, translated)
termination_by text.length - index
decreasing_by all_goals simp only [List.length_set]; omega

/-- The text that is cut into rows. -/
def inventoryText (file : Bytes) : Bytes :=
  let (text, translated) := translateFrom file 0 0
  trimNewlines (text.take translated)

def adjacentEqual : List Bytes → Bool
  | a :: b :: names => nameOrder a b == 0 || adjacentEqual (b :: names)
  | _ => false

def repeatedName (names : List Bytes) : Bool :=
  1 < names.length && adjacentEqual (names.mergeSort fun a b => nameOrder a b ≤ 0)

def inventoryScan (file : Bytes) : Scan := scanFrom 0 (inventoryText file)

/-- How many names the array has room for. -/
def nameCapacity (file : Bytes) : ℕ := if (inventoryText file).length = 0 then 1 else (inventoryText file).length

def sizePackageInventory (path : String) (file : Bytes) : Except String (List Bytes) :=
  if IMAGE_JSON_MAX_BYTES < file.length then
    .error ("file is larger than " ++ toString IMAGE_JSON_MAX_BYTES ++ " bytes: " ++ path)
  else if StrictJson.jsonUtf8Valid file = false then .error ("invalid package inventory: " ++ path)
  else
    let scan := inventoryScan file
    if scan.invalid || repeatedName (scan.names.map Prod.snd) then .error ("invalid package inventory: " ++ path)
    else if scan.names.length = 0 then .error ("empty package inventory: " ++ path)
    else .ok scan.rows

/-! ## Inventories -/

/-- `\r` and `\r\n` as `\n`; `after` a carriage return a newline belongs to it. -/
def universalNewlines {α : Type} [DecidableEq α] (cr nl : α) : Bool → List α → List α
  | _, [] => []
  | after, c :: cs =>
    if c = cr then nl :: universalNewlines cr nl true cs
    else if after = true ∧ c = nl then universalNewlines cr nl false cs
    else c :: universalNewlines cr nl false cs

def isBoundary (c : Char) : Prop :=
  c.toNat ∈ [0x0A, 0x0B, 0x0C, 0x0D, 0x1C, 0x1D, 0x1E, 0x85, 0x2028, 0x2029]

instance : DecidablePred isBoundary := fun c => inferInstanceAs (Decidable (c.toNat ∈ _))

/-- The first line, and what follows its end. -/
def firstLine : List Char → List Char × List Char
  | [] => ([], [])
  | c :: cs =>
    if isBoundary c then ([], if c = '\r' ∧ cs.head? = some '\n' then cs.tail else cs)
    else (c :: (firstLine cs).1, (firstLine cs).2)

theorem firstLine_length {cs : List Char} (h : cs ≠ []) : (firstLine cs).2.length < cs.length := by
  induction cs with
  | nil => exact absurd rfl h
  | cons c cs ih =>
    unfold firstLine
    split_ifs with hc hn
    · simp
    · simp
    · by_cases hne : cs = []
      · subst hne
        simp [firstLine]
      · have hrest := ih hne
        simp only [List.length_cons]
        omega

/-- Python's `str.splitlines`. -/
def splitlines (cs : List Char) : List (List Char) :=
  if _h : cs = [] then [] else (firstLine cs).1 :: splitlines (firstLine cs).2
termination_by cs.length
decreasing_by exact firstLine_length ‹_›

/-- `read_text().rstrip("\n").splitlines()` -/
def textLines (cs : List Char) : List (List Char) :=
  splitlines ((universalNewlines '\r' '\n' false cs).rdropWhile (· = '\n'))

/-- Three fields between single tabs. -/
def IsRow (line : List Char) : Prop :=
  ∃ name version size, line = name ++ '\t' :: (version ++ '\t' :: size) ∧ name ≠ [] ∧ version ≠ [] ∧ size ≠ [] ∧
    (∀ c ∈ name ++ version ++ size, unicodeSpace c.toNat = false) ∧ ∀ c ∈ size, c.isDigit = true

def rowName (line : List Char) : List Char := line.takeWhile (· ≠ '\t')

structure Inventory (lines : List (List Char)) : Prop where
  ne_nil : lines ≠ []
  rows : ∀ line ∈ lines, IsRow line
  distinct : (lines.map rowName).Nodup


/-! ## Newlines -/

section

variable {α : Type} [DecidableEq α] {cr nl : α}

theorem universalNewlines_skip {cs : List α} (h : cs.head? ≠ some nl) :
    universalNewlines cr nl true cs = universalNewlines cr nl false cs := by
  cases cs with
  | nil => rfl
  | cons c cs =>
    have hc : c ≠ nl := fun he => h (by rw [he, List.head?_cons])
    simp [universalNewlines, hc]

/-- Nothing is translated in a run without newlines. -/
theorem universalNewlines_plain {after : Bool} {front : List α} (h : ∀ c ∈ front, c ≠ cr ∧ c ≠ nl) (hne : front ≠ [])
    (rest : List α) : universalNewlines cr nl after (front ++ rest) = front ++ universalNewlines cr nl false rest := by
  induction front generalizing after with
  | nil => exact absurd rfl hne
  | cons c front ih =>
    obtain ⟨⟨hcr, hnl⟩, hfront⟩ := List.forall_mem_cons.mp h
    rw [List.cons_append, universalNewlines, if_neg hcr, if_neg fun hc => hnl hc.2]
    by_cases hempty : front = []
    · rw [hempty, List.nil_append, List.singleton_append]
    · rw [ih hfront hempty, List.cons_append]

end

theorem take_set_succ {text : Bytes} {n : ℕ} (h : n < text.length) (c : UInt8) :
    (text.set n c).take (n + 1) = text.take n ++ [c] := by
  rw [List.take_succ_eq_append_getElem (by rwa [List.length_set]), List.getElem_set_self, List.take_set_of_le le_rfl]

/-- The buffer is read ahead of where it is written. -/
theorem translateFrom_spec (text : Bytes) (translated index : ℕ) (h : translated ≤ index) :
    (translateFrom text translated index).1.take (translateFrom text translated index).2 =
      text.take translated ++ universalNewlines 13 newline false (text.drop index) := by
  induction text, translated, index using translateFrom.induct with
  | case1 text translated index hi hcr text' hnl ih =>
    have hlt : translated < text.length := by omega
    have hne : translated ≠ index + 1 := by omega
    rw [List.getElem?_set_ne hne] at hnl
    obtain ⟨hi', hnl⟩ := List.getElem?_eq_some_iff.mp hnl
    rw [translateFrom, dif_pos hi, if_pos hcr]
    simp only
    rw [if_pos (by rw [List.getElem?_set_ne hne, List.getElem?_eq_getElem hi', hnl]), ih (by omega),
      take_set_succ hlt, List.drop_set_of_lt (by omega), List.drop_eq_getElem_cons hi,
      List.drop_eq_getElem_cons hi', hcr, hnl]
    simp [universalNewlines, newline]
  | case2 text translated index hi hcr text' hnl ih =>
    have hlt : translated < text.length := by omega
    have hne : translated ≠ index + 1 := by omega
    rw [translateFrom, dif_pos hi, if_pos hcr]
    simp only
    rw [if_neg hnl, ih (by omega), take_set_succ hlt, List.drop_set_of_lt (by omega),
      List.drop_eq_getElem_cons hi, hcr, universalNewlines, if_pos rfl, universalNewlines_skip]
    · simp
    · rw [List.head?_drop]
      rwa [List.getElem?_set_ne hne] at hnl
  | case3 text translated index hi hcr ih =>
    have hlt : translated < text.length := by omega
    rw [translateFrom, dif_pos hi, if_neg hcr, ih (by omega), take_set_succ hlt, List.drop_set_of_lt (by omega),
      List.drop_eq_getElem_cons hi, universalNewlines, if_neg hcr, if_neg (by simp)]
    simp
  | case4 text translated index hi =>
    rw [translateFrom, dif_neg hi, List.drop_eq_nil_of_le (by omega), universalNewlines, List.append_nil]

/-! ## Encoded texts -/

/-- An ASCII character is one byte; the bytes of another one are no ASCII. -/
theorem char_cases (c : Char) :
    (c.toNat < 0x80 ∧ String.utf8EncodeChar c = [UInt8.ofNat c.toNat]) ∨
      (0x80 ≤ c.toNat ∧ String.utf8EncodeChar c ≠ [] ∧ ∀ b ∈ String.utf8EncodeChar c, 0x80 ≤ b.toNat) := by
  rw [Utf8.encodeChar_eq]
  by_cases h : c.toNat < 0x80
  · exact .inl ⟨h, Utf8.encode_ascii h⟩
  · exact .inr ⟨by omega, Utf8.encode_ne_nil _, fun b hb => Utf8.le_of_mem_encode (by omega) (Utf8.toNat_lt c) hb⟩

theorem ofNat_eq_iff {c d : Char} (hc : c.toNat < 0x80) (hd : d.toNat < 0x80) :
    UInt8.ofNat c.toNat = UInt8.ofNat d.toNat ↔ c = d := by
  rw [← UInt8.toNat_inj, UInt8.toNat_ofNat', UInt8.toNat_ofNat', ← Char.toNat_inj]
  omega

theorem mem_text {a : Char} (ha : a.toNat < 0x80) {cs : List Char} : UInt8.ofNat a.toNat ∈ Utf8.text cs ↔ a ∈ cs := by
  induction cs with
  | nil => simp
  | cons c cs ih =>
    rw [Utf8.text_cons, List.mem_append, ih, List.mem_cons]
    obtain ⟨hc, hbytes⟩ | ⟨hc, -, hbytes⟩ := char_cases c
    · rw [hbytes, List.mem_singleton, ofNat_eq_iff ha hc]
    · have hno : UInt8.ofNat a.toNat ∉ String.utf8EncodeChar c := by
        intro hmem
        have hge := hbytes _ hmem
        rw [UInt8.toNat_ofNat'] at hge
        omega
      have hne : a ≠ c := by
        rintro rfl
        omega
      simp [hno, hne]

theorem universalNewlines_text (after : Bool) (cs : List Char) :
    universalNewlines 13 newline after (Utf8.text cs) = Utf8.text (universalNewlines '\r' '\n' after cs) := by
  induction cs generalizing after with
  | nil => rfl
  | cons c cs ih =>
    obtain ⟨hc, hbytes⟩ | ⟨hc, hne, hbytes⟩ := char_cases c
    · have hcr : UInt8.ofNat c.toNat = 13 ↔ c = '\r' := @ofNat_eq_iff c '\r' hc (by decide)
      have hnl : UInt8.ofNat c.toNat = newline ↔ c = '\n' := @ofNat_eq_iff c '\n' hc (by decide)
      rw [Utf8.text_cons, hbytes, List.singleton_append, universalNewlines, universalNewlines, ih, ih]
      simp only [hcr, hnl]
      split_ifs
      · rfl
      · rfl
      · rw [Utf8.text_cons, hbytes, List.singleton_append]
    · have hplain : ∀ b ∈ String.utf8EncodeChar c, b ≠ 13 ∧ b ≠ newline := by
        intro b hb
        have hge := hbytes b hb
        constructor
        · rintro rfl
          exact absurd hge (by decide)
        · rintro rfl
          exact absurd hge (by decide)
      have hcr : c ≠ '\r' := by
        rintro rfl
        exact absurd hc (by decide)
      have hnl : c ≠ '\n' := by
        rintro rfl
        exact absurd hc (by decide)
      rw [Utf8.text_cons, universalNewlines_plain hplain hne, universalNewlines, if_neg hcr,
        if_neg fun h => hnl h.2, Utf8.text_cons, ih]

theorem trimNewlines_text (cs : List Char) : trimNewlines (Utf8.text cs) = Utf8.text (cs.rdropWhile (· = '\n')) := by
  induction cs using List.reverseRecOn with
  | nil => rfl
  | append_singleton cs c ih =>
    rw [Utf8.text_append, Utf8.text_cons, Utf8.text_nil, List.append_nil]
    by_cases hc : c = '\n'
    · subst hc
      have hbytes : String.utf8EncodeChar '\n' = [newline] := by decide
      rw [List.rdropWhile_concat_pos _ _ _ (by simp), ← ih, hbytes]
      unfold trimNewlines
      exact List.rdropWhile_concat_pos _ _ _ (by simp)
    · rw [List.rdropWhile_concat_neg _ _ _ (by simpa using hc), Utf8.text_append, Utf8.text_cons, Utf8.text_nil,
        List.append_nil]
      have hno : newline ∉ String.utf8EncodeChar c := by
        have hmem := @mem_text '\n' (by decide) [c]
        rw [Utf8.text_cons, Utf8.text_nil, List.append_nil, List.mem_singleton] at hmem
        exact fun h => hc (hmem.mp h).symm
      have hne : String.utf8EncodeChar c ≠ [] := by
        rw [Utf8.encodeChar_eq]
        exact Utf8.encode_ne_nil _
      rw [← List.dropLast_append_getLast hne, ← List.append_assoc]
      unfold trimNewlines
      refine List.rdropWhile_concat_neg _ _ _ ?_
      rw [decide_eq_true_eq]
      exact fun he => hno (he ▸ List.getLast_mem hne)

/-- What is scanned is the trimmed text. -/
theorem inventoryText_text (cs : List Char) :
    inventoryText (Utf8.text cs) = Utf8.text ((universalNewlines '\r' '\n' false cs).rdropWhile (· = '\n')) := by
  unfold inventoryText
  simp only
  rw [translateFrom_spec _ 0 0 le_rfl, List.take_zero, List.nil_append, List.drop_zero, universalNewlines_text,
    trimNewlines_text]

/-! ## Line boundaries -/

theorem encode_eq {u : ℕ} (hlow : 0x80 ≤ u) (hhigh : u < 0x110000) :
    ∃ lead : UInt8, ∃ tail : Bytes, Utf8.encode u = lead :: tail ∧ tail ≠ [] ∧ 0xC0 ≤ lead.toNat ∧
      (∀ b ∈ tail, 0x80 ≤ b.toNat ∧ b.toNat < 0xC0) := by
  have htag : ∀ n : ℕ, n < 64 → 0x80 ≤ (UInt8.ofNat (0x80 + n)).toNat ∧ (UInt8.ofNat (0x80 + n)).toNat < 0xC0 := by
    intro n hn
    rw [UInt8.toNat_ofNat']
    omega
  unfold Utf8.encode
  rw [if_neg (by omega)]
  split_ifs with h2 h3
  · refine ⟨_, _, rfl, by simp, ?_, ?_⟩
    · rw [UInt8.toNat_ofNat']
      omega
    · simp only [List.forall_mem_cons, List.not_mem_nil, false_imp_iff, implies_true, and_true]
      exact htag _ (by omega)
  · refine ⟨_, _, rfl, by simp, ?_, ?_⟩
    · rw [UInt8.toNat_ofNat']
      omega
    · simp only [List.forall_mem_cons, List.not_mem_nil, false_imp_iff, implies_true, and_true]
      exact ⟨htag _ (by omega), htag _ (by omega)⟩
  · refine ⟨_, _, rfl, by simp, ?_, ?_⟩
    · rw [UInt8.toNat_ofNat']
      omega
    · simp only [List.forall_mem_cons, List.not_mem_nil, false_imp_iff, implies_true, and_true]
      exact ⟨htag _ (by omega), htag _ (by omega), htag _ (by omega)⟩

/-- No boundary starts inside a character. -/
theorem findBoundary_inner {front : Bytes} (h : ∀ b ∈ front, 0x80 ≤ b.toNat ∧ b.toNat < 0xC0) (rest : Bytes) :
    findBoundary (front ++ rest) = ((findBoundary rest).1 + front.length, (findBoundary rest).2) := by
  induction front with
  | nil => rfl
  | cons b front ih =>
    obtain ⟨⟨hlow, hhigh⟩, hfront⟩ := List.forall_mem_cons.mp h
    have hno : ∀ d : UInt8, d.toNat < 0x80 ∨ 0xC0 ≤ d.toNat → b ≠ d := by
      rintro d hd rfl
      omega
    have hzero : lineBoundary (b :: (front ++ rest)) = 0 := by
      rw [lineBoundary, if_neg, if_neg (hno _ (by decide)), if_neg (hno _ (by decide)), if_neg (hno _ (by decide))]
      simp only [not_or]
      exact ⟨hno _ (by decide), hno _ (by decide), hno _ (by decide), hno _ (by decide), hno _ (by decide),
        hno _ (by decide)⟩
    rw [List.cons_append, findBoundary, if_pos hzero, ih hfront]
    simp [Nat.add_assoc]

theorem head_text {cs : List Char} {a : Char} (ha : a.toNat < 0x80) :
    (Utf8.text cs)[0]? = some (UInt8.ofNat a.toNat) ↔ cs.head? = some a := by
  cases cs with
  | nil => simp
  | cons c cs =>
    rw [Utf8.text_cons, List.head?_cons, Option.some.injEq]
    obtain ⟨hc, hbytes⟩ | ⟨hc, hne, hbytes⟩ := char_cases c
    · rw [hbytes, List.singleton_append, List.getElem?_cons_zero, Option.some.injEq, ofNat_eq_iff hc ha]
    · obtain ⟨b, bytes, hcons⟩ := List.exists_cons_of_ne_nil hne
      have hge := hbytes b (by rw [hcons]; exact List.mem_cons_self)
      rw [hcons, List.cons_append, List.getElem?_cons_zero, Option.some.injEq]
      refine iff_of_false ?_ ?_
      · rintro rfl
        rw [UInt8.toNat_ofNat'] at hge
        omega
      · rintro rfl
        omega

theorem lineBoundary_encode {u : ℕ} (hlow : 0x80 ≤ u) (hhigh : u < 0x110000) (rest : Bytes) :
    lineBoundary (Utf8.encode u ++ rest) =
      if u = 0x85 ∨ u = 0x2028 ∨ u = 0x2029 then (Utf8.encode u).length else 0 := by
  unfold Utf8.encode
  rw [if_neg (by omega)]
  split_ifs with h2 h3
  all_goals
    simp only [List.cons_append, List.nil_append, lineBoundary, List.getElem?_cons_zero, List.getElem?_cons_succ,
      Option.some.injEq, ← UInt8.toNat_inj, UInt8.toNat_ofNat', UInt8.reduceToNat, List.length_cons, List.length_nil]
    split_ifs <;> omega

/-- Where a character starts, a boundary starts if it is one. -/
theorem lineBoundary_char (c : Char) (cs : List Char) :
    lineBoundary (String.utf8EncodeChar c ++ Utf8.text cs) =
      if isBoundary c then
        if c = '\r' ∧ cs.head? = some '\n' then 2 else (String.utf8EncodeChar c).length
      else 0 := by
  obtain ⟨hc, hbytes⟩ | ⟨hc, -, -⟩ := char_cases c
  · have hofNat : ∀ d : ℕ, d < 0x80 → (UInt8.ofNat c.toNat = UInt8.ofNat d ↔ c.toNat = d) := by
      intro d hd
      rw [← UInt8.toNat_inj, UInt8.toNat_ofNat', UInt8.toNat_ofNat']
      omega
    have hlarge : ∀ d : UInt8, 0x80 ≤ d.toNat → UInt8.ofNat c.toNat ≠ d := by
      rintro d hd rfl
      rw [UInt8.toNat_ofNat'] at hd
      omega
    have hcr : c = '\r' ↔ c.toNat = 0x0D := Char.toNat_inj.symm
    rw [hbytes, List.singleton_append, lineBoundary, if_neg (hlarge 0xC2 (by decide)),
      if_neg (hlarge 0xE2 (by decide))]
    have hnl : (Utf8.text cs)[0]? = some 0x0A ↔ cs.head? = some '\n' := @head_text cs '\n' (by decide)
    have h0 := hofNat 0x0A (by decide)
    have h1 := hofNat 0x0B (by decide)
    have h2 := hofNat 0x0C (by decide)
    have h3 := hofNat 0x1C (by decide)
    have h4 := hofNat 0x1D (by decide)
    have h5 := hofNat 0x1E (by decide)
    have h6 := hofNat 0x0D (by decide)
    simp only [UInt8.reduceOfNat] at h0 h1 h2 h3 h4 h5 h6
    unfold isBoundary
    by_cases hn : cs.head? = some '\n'
    · simp only [h0, h1, h2, h3, h4, h5, h6, hcr, hnl, hn, List.mem_cons, List.not_mem_nil, or_false,
        List.length_singleton, if_true, and_true]
      split_ifs <;> omega
    · simp only [h0, h1, h2, h3, h4, h5, h6, hcr, hnl, hn, List.mem_cons, List.not_mem_nil, or_false,
        List.length_singleton, if_false, and_false]
      split_ifs <;> omega
  · have hlt := Utf8.toNat_lt c
    have hcr : ¬(c = '\r' ∧ cs.head? = some '\n') := by
      rintro ⟨rfl, -⟩
      exact absurd hc (by decide)
    rw [if_neg hcr, Utf8.encodeChar_eq, lineBoundary_encode hc hlt]
    unfold isBoundary
    simp only [List.mem_cons, List.not_mem_nil, or_false]
    split_ifs <;> first | rfl | omega

/-- The byte scan finds the first line of the text. -/
theorem findBoundary_text (cs : List Char) :
    ∃ mark : Bytes, Utf8.text cs = Utf8.text (firstLine cs).1 ++ (mark ++ Utf8.text (firstLine cs).2) ∧
      findBoundary (Utf8.text cs) = ((Utf8.text (firstLine cs).1).length, mark.length) ∧
      (mark = [] → (firstLine cs).2 = []) := by
  induction cs with
  | nil => exact ⟨[], rfl, rfl, fun _ => rfl⟩
  | cons c cs ih =>
    obtain ⟨mark, htext, hfind, hmark⟩ := ih
    have hboundary := lineBoundary_char c cs
    have hne : String.utf8EncodeChar c ≠ [] := by
      rw [Utf8.encodeChar_eq]
      exact Utf8.encode_ne_nil _
    obtain ⟨b, bytes, hbytes⟩ := List.exists_cons_of_ne_nil hne
    rw [Utf8.text_cons]
    rw [hbytes, List.cons_append] at hboundary
    by_cases hc : isBoundary c
    · rw [if_pos hc] at hboundary
      unfold firstLine
      rw [if_pos hc]
      by_cases hcr : c = '\r' ∧ cs.head? = some '\n'
      · obtain ⟨rest, rfl⟩ : ∃ rest, cs = '\n' :: rest := by
          cases cs with
          | nil => exact absurd hcr.2 (by simp)
          | cons d rest => exact ⟨rest, by rw [Option.some.inj hcr.2]⟩
        rw [if_pos hcr] at hboundary
        refine ⟨[13, 10], ?_, ?_, by simp⟩
        · rw [if_pos hcr, hcr.1]
          rfl
        · rw [hbytes, List.cons_append, findBoundary, hboundary]
          rfl
      · rw [if_neg hcr] at hboundary
        refine ⟨String.utf8EncodeChar c, ?_, ?_, fun h => absurd h hne⟩
        · rw [if_neg hcr]
          rfl
        · rw [hbytes, List.cons_append, findBoundary, hboundary]
          rfl
    · rw [if_neg hc] at hboundary
      unfold firstLine
      rw [if_neg hc]
      refine ⟨mark, ?_, ?_, hmark⟩
      · rw [Utf8.text_cons, List.append_assoc, ← htext]
      · have hinner : ∀ d ∈ bytes, 0x80 ≤ d.toNat ∧ d.toNat < 0xC0 := by
          obtain ⟨-, hone⟩ | ⟨hlow, -, -⟩ := char_cases c
          · rw [hbytes] at hone
            rw [(List.cons.inj hone).2]
            exact fun d hd => absurd hd List.not_mem_nil
          · obtain ⟨lead, tail, hencode, -, -, htail⟩ := encode_eq hlow (Utf8.toNat_lt c)
            rw [← Utf8.encodeChar_eq, hbytes] at hencode
            rw [(List.cons.inj hencode).2]
            exact htail
        rw [hbytes, List.cons_append, findBoundary, if_pos hboundary, findBoundary_inner hinner, hfind,
          Utf8.text_cons, hbytes, List.length_append, List.length_cons]
        simp only [Prod.mk.injEq, and_true]
        omega

/-! ## Fields -/

theorem splitOnce_text (cs : List Char) :
    splitOnce 9 (Utf8.text cs) =
      if '\t' ∈ cs then some (Utf8.text (cs.takeWhile (· ≠ '\t')), Utf8.text ((cs.dropWhile (· ≠ '\t')).drop 1))
      else none := by
  have htab : ∀ text : List Char, (9 : UInt8) ∈ Utf8.text text ↔ '\t' ∈ text := fun text =>
    @mem_text '\t' (by decide) text
  by_cases h : '\t' ∈ cs
  · rw [if_pos h, splitOnce_eq_some, htab]
    constructor
    · conv_lhs => rw [Split.cut_eq h]
      rw [Utf8.text_append, Utf8.text_cons]
      rfl
    · intro hmem
      simpa using List.mem_takeWhile_imp hmem
  · rw [if_neg h, splitOnce_eq_none, htab]
    exact h

theorem nextCodePoint_text (c : Char) (rest : Bytes) :
    nextCodePoint (String.utf8EncodeChar c ++ rest) = ((String.utf8EncodeChar c).length, c.toNat) := by
  have hlt := Utf8.toNat_lt c
  rw [Utf8.encodeChar_eq]
  generalize c.toNat = u at hlt
  have hnat : ∀ n < 256, (UInt8.ofNat n).toNat = n := fun n hn => by
    rw [UInt8.toNat_ofNat']
    omega
  have htag : ∀ n < 64, (0x80 + n) &&& 0x3F = n := fun n hn => by
    rw [StrictJson.and_low6]
    omega
  have hmask : ∀ k n : ℕ, k &&& (2 ^ n - 1) = k % 2 ^ n := Nat.and_two_pow_sub_one_eq_mod
  have hor : ∀ a b : ℕ, b < 64 → a <<< 6 ||| b = a * 64 + b := fun a b hb => StrictJson.or_eq_add hb
  unfold Utf8.encode nextCodePoint
  split_ifs with h1 h2 h3
  · simp only [List.cons_append, List.headD_cons, hnat u (by omega), if_pos h1, List.length_singleton]
  · have hlead := hmask (0xC0 + u / 64) 5
    norm_num at hlead
    simp only [List.cons_append, List.nil_append, List.headD_cons, hnat (0xC0 + u / 64) (by omega)]
    simp only [List.drop_one, List.tail_cons, if_neg (by omega : ¬0xC0 + u / 64 < 0x80),
      if_neg (by omega : ¬0xF0 ≤ 0xC0 + u / 64), if_neg (by omega : ¬0xE0 ≤ 0xC0 + u / 64), if_true, List.length_cons, List.length_nil,
      List.take_succ_cons, List.take_zero, List.foldl_cons, List.foldl_nil, hlead, hnat (0x80 + u % 64) (by omega),
      htag _ (by omega : u % 64 < 64), hor _ _ (by omega : u % 64 < 64),
      true_and, Prod.mk.injEq]
    omega
  · have hlead := hmask (0xE0 + u / 4096) 4
    norm_num at hlead
    simp only [List.cons_append, List.nil_append, List.headD_cons, hnat (0xE0 + u / 4096) (by omega)]
    simp only [List.drop_one, List.tail_cons, if_neg (by omega : ¬0xE0 + u / 4096 < 0x80),
      if_neg (by omega : ¬0xF0 ≤ 0xE0 + u / 4096), if_pos (by omega : 0xE0 ≤ 0xE0 + u / 4096),
      if_neg (by decide : ¬3 = 2), if_true, List.length_cons, List.length_nil,
      List.take_succ_cons, List.take_zero, List.foldl_cons, List.foldl_nil, hlead, hnat (0x80 + u / 64 % 64) (by omega),
      hnat (0x80 + u % 64) (by omega), htag _ (by omega : u / 64 % 64 < 64), htag _ (by omega : u % 64 < 64),
      hor _ _ (by omega : u / 64 % 64 < 64), hor _ _ (by omega : u % 64 < 64),
      true_and, Prod.mk.injEq]
    omega
  · have hlead := hmask (0xF0 + u / 262144) 3
    norm_num at hlead
    simp only [List.cons_append, List.nil_append, List.headD_cons, hnat (0xF0 + u / 262144) (by omega)]
    simp only [List.drop_one, List.tail_cons, if_neg (by omega : ¬0xF0 + u / 262144 < 0x80),
      if_pos (by omega : 0xF0 ≤ 0xF0 + u / 262144), if_neg (by decide : ¬4 = 2), if_neg (by decide : ¬4 = 3), List.length_cons, List.length_nil,
      List.take_succ_cons, List.take_zero, List.foldl_cons, List.foldl_nil, hlead, hnat (0x80 + u / 4096 % 64) (by omega),
      hnat (0x80 + u / 64 % 64) (by omega), hnat (0x80 + u % 64) (by omega), htag _ (by omega : u / 4096 % 64 < 64),
      htag _ (by omega : u / 64 % 64 < 64), htag _ (by omega : u % 64 < 64),
      hor _ _ (by omega : u / 4096 % 64 < 64), hor _ _ (by omega : u / 64 % 64 < 64), hor _ _ (by omega : u % 64 < 64),
      true_and, Prod.mk.injEq]
    omega

/-- A field is no empty text, without whitespace. -/
theorem codePointsValid_text (digits : Bool) (field : List Char) :
    codePointsValid digits (Utf8.text field) = true ↔
      ∀ c ∈ field, unicodeSpace c.toNat = false ∧ (digits = true → c.isDigit = true) := by
  induction field with
  | nil =>
    unfold codePointsValid
    simp
  | cons c field ih =>
    have hne : Utf8.text (c :: field) ≠ [] := by
      rw [Utf8.text_cons, Utf8.encodeChar_eq]
      exact fun h => Utf8.encode_ne_nil _ (List.append_eq_nil_iff.mp h).1
    have hdigit : (48 ≤ c.toNat && c.toNat ≤ 57) = c.isDigit := rfl
    rw [codePointsValid, dif_neg hne, List.forall_mem_cons, ← ih, Utf8.text_cons, nextCodePoint_text,
      List.drop_left]
    simp only [hdigit]
    cases unicodeSpace c.toNat <;> cases digits <;> cases c.isDigit <;> simp

theorem fieldValid_text (digits : Bool) (field : List Char) :
    fieldValid (Utf8.text field) digits = true ↔
      field ≠ [] ∧ ∀ c ∈ field, unicodeSpace c.toNat = false ∧ (digits = true → c.isDigit = true) := by
  have hempty : (Utf8.text field).length = 0 ↔ field = [] := by
    cases field with
    | nil => simp
    | cons c field =>
      have hne := Utf8.encode_ne_nil c.toNat
      simp [Utf8.encodeChar_eq, hne]
  unfold fieldValid
  split_ifs with h
  · simp [hempty.mp h]
  · rw [codePointsValid_text]
    exact ⟨fun hall => ⟨fun he => h (hempty.mpr he), hall⟩, And.right⟩

/-! ## Rows -/

theorem isRow_iff {line : List Char} : IsRow line ↔
    '\t' ∈ line ∧ '\t' ∈ (line.dropWhile (· ≠ '\t')).drop 1 ∧
      '\t' ∉ (((line.dropWhile (· ≠ '\t')).drop 1).dropWhile (· ≠ '\t')).drop 1 ∧
      fieldValid (Utf8.text (line.takeWhile (· ≠ '\t'))) false = true ∧
      fieldValid (Utf8.text (((line.dropWhile (· ≠ '\t')).drop 1).takeWhile (· ≠ '\t'))) false = true ∧
      fieldValid (Utf8.text ((((line.dropWhile (· ≠ '\t')).drop 1).dropWhile (· ≠ '\t')).drop 1)) true = true := by
  simp only [fieldValid_text, Bool.false_eq_true, false_imp_iff, and_true, true_imp_iff]
  constructor
  · rintro ⟨name, version, size, rfl, hname, hversion, hsize, hspace, hdigits⟩
    have htab : ∀ field : List Char, (∀ c ∈ field, unicodeSpace c.toNat = false) → '\t' ∉ field := fun field hall h =>
      absurd (hall _ h) (by decide)
    simp only [List.forall_mem_append] at hspace
    obtain ⟨⟨hname', hversion'⟩, hsize'⟩ := hspace
    have hcut : ∀ field rest : List Char, '\t' ∉ field →
        (field ++ '\t' :: rest).takeWhile (· ≠ '\t') = field ∧
          ((field ++ '\t' :: rest).dropWhile (· ≠ '\t')).drop 1 = rest := by
      intro field rest hno
      have hall : ∀ c ∈ field, decide (c ≠ '\t') = true := fun c hc => by
        rw [decide_eq_true_eq]
        rintro rfl
        exact hno hc
      rw [List.takeWhile_append_of_pos hall, List.dropWhile_append_of_pos hall]
      simp
    obtain ⟨hfirst, hrest⟩ := hcut name (version ++ '\t' :: size) (htab name hname')
    obtain ⟨hsecond, hlast⟩ := hcut version size (htab version hversion')
    rw [hrest, hfirst, hsecond, hlast]
    exact ⟨by simp, by simp, htab size hsize', ⟨hname, hname'⟩, ⟨hversion, hversion'⟩,
      ⟨hsize, fun c hc => ⟨hsize' c hc, hdigits c hc⟩⟩⟩
  · rintro ⟨hfirst, hsecond, -, ⟨hname, hname'⟩, ⟨hversion, hversion'⟩, ⟨hsize, hsize'⟩⟩
    refine ⟨_, _, _, ?_, hname, hversion, hsize, ?_, fun c hc => (hsize' c hc).2⟩
    · rw [← Split.cut_eq hsecond, ← Split.cut_eq hfirst]
    · simp only [List.forall_mem_append]
      exact ⟨⟨hname', hversion'⟩, fun c hc => (hsize' c hc).1⟩

theorem rowValid_text (line : List Char) (name : Bytes) :
    rowValid (Utf8.text line) = some name ↔ IsRow line ∧ name = Utf8.text (rowName line) := by
  have htab : ∀ text : List Char, (9 : UInt8) ∈ Utf8.text text ↔ '\t' ∈ text := fun text =>
    @mem_text '\t' (by decide) text
  rw [isRow_iff]
  unfold rowValid
  rw [splitOnce_text]
  by_cases hfirst : '\t' ∈ line
  · rw [if_pos hfirst, Option.bind_eq_bind, Option.bind_some]
    simp only
    rw [splitOnce_text]
    by_cases hsecond : '\t' ∈ (line.dropWhile (· ≠ '\t')).drop 1
    · rw [if_pos hsecond, Option.bind_some]
      simp only [htab]
      split_ifs with hthird hvalid
      · exact iff_of_false (by simp) fun h => h.1.2.2.1 hthird
      · refine iff_of_false (by simp) fun h => ?_
        obtain ⟨⟨-, -, -, hname, hversion, hsize⟩, -⟩ := h
        rw [hname, hversion, hsize] at hvalid
        exact absurd hvalid (by decide)
      · simp only [Bool.or_eq_true, Bool.not_eq_true', not_or, Bool.not_eq_false] at hvalid
        obtain ⟨⟨hname, hversion⟩, hsize⟩ := hvalid
        rw [Option.some.injEq]
        exact ⟨fun h => ⟨⟨hfirst, hsecond, hthird, hname, hversion, hsize⟩, h.symm⟩, fun h => h.2.symm⟩
    · rw [if_neg hsecond]
      exact iff_of_false (by simp) fun h => hsecond h.1.2.1
  · rw [if_neg hfirst]
    exact iff_of_false (by simp) fun h => hfirst h.1.1

theorem scanFrom_nil (count : ℕ) : scanFrom count [] = ⟨[], [], false⟩ := by
  rw [scanFrom, dif_pos rfl]

/-- One turn of the loop over a text. -/
theorem scanFrom_text_cons {cs : List Char} (h : cs ≠ []) (count : ℕ) :
    scanFrom count (Utf8.text cs) =
      match rowValid (Utf8.text (firstLine cs).1) with
      | none => ⟨[], [], true⟩
      | some name =>
        ⟨Utf8.text (firstLine cs).1 :: (scanFrom (count + 1) (Utf8.text (firstLine cs).2)).rows,
          (count, name) :: (scanFrom (count + 1) (Utf8.text (firstLine cs).2)).names,
          (scanFrom (count + 1) (Utf8.text (firstLine cs).2)).invalid⟩ := by
  have hne : Utf8.text cs ≠ [] := by
    obtain ⟨c, rest, rfl⟩ := List.exists_cons_of_ne_nil h
    rw [Utf8.text_cons, Utf8.encodeChar_eq]
    exact fun he => Utf8.encode_ne_nil _ (List.append_eq_nil_iff.mp he).1
  obtain ⟨mark, htext, hfind, hmark⟩ := findBoundary_text cs
  have htake : (Utf8.text cs).take (findBoundary (Utf8.text cs)).1 = Utf8.text (firstLine cs).1 := by
    rw [hfind, htext]
    exact List.take_left
  have hdrop : (Utf8.text cs).drop ((findBoundary (Utf8.text cs)).1 + (findBoundary (Utf8.text cs)).2) =
      Utf8.text (firstLine cs).2 := by
    rw [hfind, htext, ← List.append_assoc]
    exact List.drop_left' (by rw [List.length_append])
  rw [scanFrom, dif_neg hne, htake]
  cases rowValid (Utf8.text (firstLine cs).1) with
  | none => rfl
  | some name =>
    simp only [hdrop]
    split_ifs with hlast
    · have hrest : Utf8.text (firstLine cs).2 = [] := by
        have hlength := congrArg List.length htext
        rw [List.length_append, List.length_append, ← hlast, hfind] at hlength
        exact List.eq_nil_of_length_eq_zero (by omega)
      rw [hrest, scanFrom_nil]
    · rfl

/-- The scan finds the lines of the text and looks at each. -/
theorem scanFrom_text (cs : List Char) (count : ℕ) :
    ((scanFrom count (Utf8.text cs)).invalid = false ↔ ∀ line ∈ splitlines cs, IsRow line) ∧
      ((scanFrom count (Utf8.text cs)).invalid = false →
        (scanFrom count (Utf8.text cs)).rows = (splitlines cs).map Utf8.text ∧
        (scanFrom count (Utf8.text cs)).names.map Prod.snd = ((splitlines cs).map rowName).map Utf8.text) := by
  induction cs using splitlines.induct generalizing count with
  | case1 =>
    rw [splitlines, dif_pos rfl, Utf8.text_nil, scanFrom_nil]
    simp
  | case2 cs h ih =>
    rw [splitlines, dif_neg h, scanFrom_text_cons h]
    obtain ⟨hvalid, hrows⟩ := ih (count + 1)
    cases hrow : rowValid (Utf8.text (firstLine cs).1) with
    | none =>
      have hno : ¬IsRow (firstLine cs).1 := fun hrow' => by
        rw [(rowValid_text _ _).mpr ⟨hrow', rfl⟩] at hrow
        cases hrow
      simp [hno]
    | some name =>
      obtain ⟨hrow', rfl⟩ := (rowValid_text _ _).mp hrow
      simp only [List.forall_mem_cons, List.map_cons]
      refine ⟨hvalid.trans ⟨fun hall => ⟨hrow', hall⟩, And.right⟩, fun hall => ?_⟩
      obtain ⟨hrest, hnames⟩ := hrows hall
      rw [hrest, hnames]
      exact ⟨rfl, rfl⟩

/-- There is a name for every byte of the text at most. -/
theorem names_lt (count : ℕ) (rest : Bytes) : ∀ w ∈ (scanFrom count rest).names, w.1 < count + rest.length := by
  induction count, rest using scanFrom.induct with
  | case1 count =>
    rw [scanFrom_nil]
    exact fun w hw => absurd hw List.not_mem_nil
  | case2 count rest h hrow =>
    rw [scanFrom, dif_neg h, hrow]
    exact fun w hw => absurd hw List.not_mem_nil
  | case3 count rest h name hrow hlast =>
    have hlen := List.length_pos_of_ne_nil h
    rw [scanFrom, dif_neg h, hrow]
    simp only
    rw [if_pos hlast]
    intro w hw
    obtain rfl := List.mem_singleton.mp hw
    exact Nat.lt_add_of_pos_right hlen
  | case4 count rest h name hrow hlast ih =>
    have hlen := List.length_pos_of_ne_nil h
    have hpos := findBoundary_pos h
    rw [scanFrom, dif_neg h, hrow]
    simp only
    rw [if_neg hlast]
    refine List.forall_mem_cons.mpr ⟨Nat.lt_add_of_pos_right hlen, fun w hw => ?_⟩
    have hlt := ih w hw
    rw [List.length_drop] at hlt
    omega

/-! ## Names -/

theorem nameOrder_cons (a b : UInt8) (s t : Bytes) :
    nameOrder (a :: s) (b :: t) = if a = b then nameOrder s t else (a.toNat : ℤ) - b.toNat := by
  unfold nameOrder
  have hshorter : (if (a :: s).length < (b :: t).length then (a :: s).length else (b :: t).length) =
      (if s.length < t.length then s.length else t.length) + 1 := by
    simp only [List.length_cons, Nat.add_lt_add_iff_right]
    split_ifs <;> rfl
  simp only [hshorter, memcmp]
  by_cases hab : a = b
  · simp only [if_pos hab, List.length_cons, Nat.add_lt_add_iff_right]
  · have hne : (a.toNat : ℤ) - b.toNat ≠ 0 := by
      have hnat : a.toNat ≠ b.toNat := fun h => hab (UInt8.toNat_inj.mp h)
      omega
    simp only [if_neg hab, if_pos hne]

theorem nameOrder_spec (a b : Bytes) : (nameOrder a b = 0 ↔ a = b) ∧ (nameOrder a b < 0 ↔ a < b) := by
  induction a generalizing b with
  | nil =>
    cases b with
    | nil => exact ⟨by simp [nameOrder, memcmp], by simp [nameOrder, memcmp]⟩
    | cons d t => exact ⟨by simp [nameOrder, memcmp], by simp [nameOrder, memcmp]⟩
  | cons c s ih =>
    cases b with
    | nil => exact ⟨by simp [nameOrder, memcmp], by simp [nameOrder, memcmp]⟩
    | cons d t =>
      rw [nameOrder_cons, List.cons.injEq, List.cons_lt_cons_iff]
      by_cases hcd : c = d
      · subst hcd
        have hirrefl : ¬c < c := fun h => absurd h (UInt8.lt_irrefl c)
        simp [ih t, hirrefl]
      · have hnat : c.toNat ≠ d.toNat := fun h => hcd (UInt8.toNat_inj.mp h)
        rw [if_neg hcd, UInt8.lt_iff_toNat_lt]
        constructor
        · refine iff_of_false (by omega) fun h => hcd h.1
        · simp only [hcd, false_and, or_false]
          omega

theorem nameOrder_le {a b : Bytes} : decide (nameOrder a b ≤ 0) = true ↔ a ≤ b := by
  have hspec := nameOrder_spec a b
  rw [decide_eq_true_eq, Int.le_iff_lt_or_eq, hspec.1, hspec.2, List.le_iff_lt_or_eq]

theorem adjacentEqual_iff {names : List Bytes} (h : names.Pairwise (· ≤ ·)) :
    adjacentEqual names = false ↔ names.Nodup := by
  induction names with
  | nil => simp [adjacentEqual]
  | cons a names ih =>
    obtain ⟨hall, hrest⟩ := List.pairwise_cons.mp h
    cases names with
    | nil => simp [adjacentEqual]
    | cons b names =>
      rw [adjacentEqual, Bool.or_eq_false_iff, ih hrest, List.nodup_cons (a := a), beq_eq_false_iff_ne, Ne,
        (nameOrder_spec a b).1]
      refine and_congr_left fun hnodup => ?_
      constructor
      · intro hne hmem
        rcases List.mem_cons.mp hmem with he | hmem
        · exact hne he
        · have hba : b ≤ a := (List.pairwise_cons.mp hrest).1 a hmem
          exact hne (List.le_antisymm (hall b List.mem_cons_self) hba)
      · rintro hmem rfl
        exact hmem List.mem_cons_self

theorem repeatedName_iff (names : List Bytes) : repeatedName names = false ↔ names.Nodup := by
  have htrans : ∀ a b c : Bytes, decide (nameOrder a b ≤ 0) = true → decide (nameOrder b c ≤ 0) = true →
      decide (nameOrder a c ≤ 0) = true := by
    intro a b c hab hbc
    rw [nameOrder_le] at *
    exact List.le_trans hab hbc
  have htotal : ∀ a b : Bytes, (decide (nameOrder a b ≤ 0) || decide (nameOrder b a ≤ 0)) = true := by
    intro a b
    rw [Bool.or_eq_true, nameOrder_le, nameOrder_le]
    exact List.le_total a b
  have hsorted := List.pairwise_mergeSort htrans htotal names
  have hadjacent := @adjacentEqual_iff (names.mergeSort fun a b => decide (nameOrder a b ≤ 0))
    (hsorted.imp fun hab => nameOrder_le.mp hab)
  rw [(List.mergeSort_perm names _).nodup_iff] at hadjacent
  unfold repeatedName
  rw [Bool.and_eq_false_iff, hadjacent, decide_eq_false_iff_not]
  refine ⟨fun h => h.elim (fun hshort => ?_) id, Or.inr⟩
  cases names with
  | nil => exact List.nodup_nil
  | cons a names =>
    cases names with
    | nil => exact List.nodup_singleton a
    | cons b names => exact absurd (by simp) hshort


/-! ## Results -/

/-- What is accepted, with the lines as rows. -/
theorem sizePackageInventory_eq_ok (path : String) (file : Bytes) (rows : List Bytes) :
    sizePackageInventory path file = .ok rows ↔ file.length ≤ IMAGE_JSON_MAX_BYTES ∧
      ∃ cs, file = Utf8.text cs ∧ Inventory (textLines cs) ∧ rows = (textLines cs).map Utf8.text := by
  unfold sizePackageInventory
  by_cases hsize : IMAGE_JSON_MAX_BYTES < file.length
  · rw [if_pos hsize]
    exact iff_of_false (by simp) fun h => absurd h.1 (Nat.not_le_of_lt hsize)
  rw [if_neg hsize]
  by_cases hutf : StrictJson.jsonUtf8Valid file = true
  · rw [if_neg (by rw [hutf]; decide)]
    obtain ⟨cs, rfl⟩ := StrictJson.jsonUtf8Valid_iff.mp hutf
    unfold inventoryScan
    rw [inventoryText_text]
    obtain ⟨hvalid, hrows⟩ :=
      scanFrom_text ((universalNewlines '\r' '\n' false cs).rdropWhile (· = '\n')) 0
    set scan := scanFrom 0 (Utf8.text ((universalNewlines '\r' '\n' false cs).rdropWhile (· = '\n')))
    have honly : ∀ cs', Utf8.text cs = Utf8.text cs' → cs' = cs := fun cs' h => (Utf8.text_injective h).symm
    have hnodup : ((textLines cs).map rowName).Nodup ↔ (((textLines cs).map rowName).map Utf8.text).Nodup :=
      (List.nodup_map_iff Utf8.text_injective).symm
    by_cases hinvalid : scan.invalid = true
    · simp only [hinvalid, Bool.true_or, if_true]
      refine iff_of_false (by simp) ?_
      rintro ⟨-, cs', hcs, hinv, -⟩
      obtain rfl := honly cs' hcs
      rw [hvalid.mpr hinv.rows] at hinvalid
      cases hinvalid
    · rw [Bool.not_eq_true] at hinvalid
      obtain ⟨hall, hnames⟩ := hrows hinvalid
      have hrepeated := repeatedName_iff (scan.names.map Prod.snd)
      have hcount := congrArg List.length hnames
      rw [List.length_map, List.length_map, List.length_map] at hcount
      simp only [hinvalid, Bool.false_or]
      rw [hnames] at hrepeated ⊢
      split_ifs with hrep hempty
      · refine iff_of_false (by simp) ?_
        rintro ⟨-, cs', hcs, hinv, -⟩
        obtain rfl := honly cs' hcs
        rw [hrepeated.mpr (hnodup.mp hinv.distinct)] at hrep
        cases hrep
      · refine iff_of_false (by simp) ?_
        rintro ⟨-, cs', hcs, hinv, -⟩
        obtain rfl := honly cs' hcs
        exact hinv.ne_nil (List.eq_nil_of_length_eq_zero (hcount.symm.trans hempty))
      · rw [Bool.not_eq_true] at hrep
        rw [Except.ok.injEq, hall]
        constructor
        · rintro rfl
          refine ⟨Nat.le_of_not_lt hsize, cs, rfl, ⟨?_, hvalid.mp hinvalid, ?_⟩, rfl⟩
          · intro hnil
            rw [hcount] at hempty
            exact hempty (by rw [show splitlines _ = [] from hnil]; rfl)
          · exact hnodup.mpr (hrepeated.mp hrep)
        · rintro ⟨-, cs', hcs, -, hrows'⟩
          obtain rfl := honly cs' hcs
          exact hrows'.symm
  · rw [if_pos (by simpa using hutf)]
    refine iff_of_false (by simp) ?_
    rintro ⟨-, cs, hcs, -⟩
    exact hutf (StrictJson.jsonUtf8Valid_iff.mpr ⟨cs, hcs⟩)

/-- **The inventory.**  Of the files that are read, those of an inventory are accepted, with its lines as rows. -/
theorem sizePackageInventory_spec (path : String) (file : Bytes) :
    (∀ rows, sizePackageInventory path file = .ok rows ↔ file.length ≤ IMAGE_JSON_MAX_BYTES ∧
      ∃ cs, file = Utf8.text cs ∧ Inventory (textLines cs) ∧ rows = (textLines cs).map Utf8.text) ∧
    ∀ w ∈ (inventoryScan file).names, w.1 < nameCapacity file := by
  constructor
  · exact fun rows => sizePackageInventory_eq_ok path file rows
  · intro w hw
    have hlt := names_lt 0 (inventoryText file) w hw
    unfold nameCapacity
    split_ifs with hzero
    · omega
    · omega

/-! ## A file that is not read -/

/-- One row, whose size has `n` digits. -/
def digitsInventory (n : ℕ) : List Char := 'a' :: '\t' :: 'b' :: '\t' :: List.replicate n '1'

theorem length_digitsInventory (n : ℕ) : (Utf8.text (digitsInventory n)).length = n + 4 := by
  have hdigits : ∀ n, (Utf8.text (List.replicate n '1')).length = n := by
    intro n
    induction n with
    | zero => rfl
    | succ n ih =>
      rw [List.replicate_succ, Utf8.text_cons, List.length_append, ih, Nat.add_comm]
      rfl
  unfold digitsInventory
  simp only [Utf8.text_cons, List.length_append, hdigits]
  rw [show (String.utf8EncodeChar 'a').length = 1 by decide, show (String.utf8EncodeChar '\t').length = 1 by decide,
    show (String.utf8EncodeChar 'b').length = 1 by decide]
  omega

theorem firstLine_plain {cs : List Char} (h : ∀ c ∈ cs, ¬isBoundary c) : firstLine cs = (cs, []) := by
  induction cs with
  | nil => rfl
  | cons c cs ih =>
    obtain ⟨hc, hcs⟩ := List.forall_mem_cons.mp h
    rw [firstLine, if_neg hc, ih hcs]

theorem inventory_digits (n : ℕ) : Inventory (textLines (digitsInventory (n + 1))) := by
  have hchars : ∀ c ∈ digitsInventory (n + 1), c = 'a' ∨ c = '\t' ∨ c = 'b' ∨ c = '1' := by
    intro c hc
    simp only [digitsInventory, List.mem_cons, List.mem_replicate] at hc
    tauto
  have hplain : ∀ c ∈ digitsInventory (n + 1), (c ≠ '\r' ∧ c ≠ '\n') ∧ ¬isBoundary c := by
    intro c hc
    rcases hchars c hc with rfl | rfl | rfl | rfl <;> decide
  have hne : digitsInventory (n + 1) ≠ [] := List.cons_ne_nil _ _
  have hnewlines : universalNewlines '\r' '\n' false (digitsInventory (n + 1)) = digitsInventory (n + 1) := by
    have h := @universalNewlines_plain _ _ '\r' '\n' false _ (fun c hc => (hplain c hc).1) hne []
    rwa [List.append_nil, universalNewlines, List.append_nil] at h
  have hlast : (digitsInventory (n + 1)).rdropWhile (· = '\n') = digitsInventory (n + 1) := by
    rw [List.rdropWhile_eq_self_iff]
    intro _
    rw [decide_eq_true_eq]
    exact (hplain _ (List.getLast_mem hne)).1.2
  have hlines : textLines (digitsInventory (n + 1)) = [digitsInventory (n + 1)] := by
    unfold textLines
    rw [hnewlines, hlast, splitlines, dif_neg hne, firstLine_plain fun c hc => (hplain c hc).2, splitlines,
      dif_pos rfl]
  rw [hlines]
  refine ⟨List.cons_ne_nil _ _, List.forall_mem_singleton.mpr ?_, List.nodup_singleton _⟩
  refine ⟨['a'], ['b'], List.replicate (n + 1) '1', rfl, by simp, by simp, by simp, ?_, ?_⟩
  · intro c hc
    simp only [List.mem_append, List.mem_singleton, List.mem_replicate] at hc
    rcases hc with (rfl | rfl) | ⟨-, rfl⟩ <;> decide
  · intro c hc
    rw [List.eq_of_mem_replicate hc]
    decide

/-- A row of 16 MiB is an inventory, and is refused. -/
theorem long_inventory_refused :
    ¬∀ (path : String) (file : Bytes), (∃ rows, sizePackageInventory path file = .ok rows) ↔
      ∃ cs, file = Utf8.text cs ∧ Inventory (textLines cs) := by
  intro h
  obtain ⟨n, hn⟩ : ∃ n, n + 1 = IMAGE_JSON_MAX_BYTES := ⟨16 * 1024 * 1024 - 1, rfl⟩
  obtain ⟨rows, hrows⟩ := (h "packages.tsv" (Utf8.text (digitsInventory (n + 1)))).mpr ⟨_, rfl, inventory_digits n⟩
  have hsize := (((sizePackageInventory_spec _ _).1 rows).mp hrows).1
  rw [length_digitsInventory] at hsize
  omega

end Hamn.SizeGate
