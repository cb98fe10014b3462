import Hamn.Guest.DockerDaemon
import Hamn.Lib.Scanf

/-!
# JsonBuild — values that a program builds (`guest/json/strict_json.c`)

* `jsonNewInteger`, `jsonIntegerValue`: an integer and what is read of it.
* `ReadShape.readable`: whatever has the shape of a value that was read is one.
* `Built`: a value whose writing is read back unchanged; `Built.round_trip`.
-/

open Bytes Result

namespace Hamn.StrictJson

/-! ## Model -/

/-- `json_new_integer` -/
def jsonNewInteger (number : ℤ) : JsonValue :=
  .integer ((if number < 0 then [byte '-'] else []) ++ Bytes.decimal number.natAbs)

/-- `json_integer_value`, with `strtoll` -/
def jsonIntegerValue : Option JsonValue → Option ℤ
  | some (.integer text) =>
    match Scanf.scanDigits text with
    | some (negative, digits, []) =>
      if negative then if number digits ≤ 2 ^ 63 then some (-(number digits : ℤ)) else none
      else if number digits < 2 ^ 63 then some (number digits) else none
    | _ => none
  | _ => none

/-- `json_object_get` -/
def objectGet (key : Bytes) : JsonValue → Option JsonValue
  | .object members => jsonObjectGet key members
  | _ => none

/-- `json_string_equals` -/
def jsonStringEquals (text : Bytes) : Option JsonValue → Bool
  | some (.string value) => value == text
  | _ => false

/-! ## Integers -/

theorem jsonIntegerValue_range {value : Option JsonValue} {z : ℤ} (h : jsonIntegerValue value = some z) :
    -2 ^ 63 ≤ z ∧ z < 2 ^ 63 := by
  unfold jsonIntegerValue at h
  split at h
  · split at h
    · split_ifs at h
      · rw [← Option.some.inj h]
        omega
      · rw [← Option.some.inj h]
        omega
    · cases h
  · cases h

theorem jsonIntegerValue_new {n : ℕ} (h : n < 2 ^ 63) : jsonIntegerValue (some (jsonNewInteger n)) = some (n : ℤ) := by
  have hdigits := @Scanf.scanDigits_decimal n [] (by simp [Scanf.Ends])
  rw [List.append_nil] at hdigits
  unfold jsonNewInteger jsonIntegerValue
  rw [if_neg (by omega), List.nil_append, Int.natAbs_natCast]
  simp only [hdigits, Bool.false_eq_true, if_false]
  rw [(decimal_digits n).2.2, if_pos h]

/-! ## Values in the shape of the reader -/

theorem allDigits_decimal (n : ℕ) : AllDigits (Bytes.decimal n) := (decimal_digits n).1

/-- A number as it is printed is one of the grammar. -/
theorem number_decimal (n : ℕ) : ∃ number : Number, (number.tree : Json (List ℕ)) = .integer (Bytes.decimal n) := by
  obtain ⟨i, hi⟩ : ∃ i : IntPart, Bytes.decimal n = Utf8.text i.chars := by
    rcases Nat.eq_zero_or_pos n with rfl | hn
    · exact ⟨.zero, by decide⟩
    · obtain ⟨hall, hne, hhead, -⟩ := Bytes.decimal_spec hn
      exact Normal.intPart ⟨hall, hne, hhead⟩
  refine ⟨⟨false, i, none, none⟩, ?_⟩
  rw [hi]
  show Json.integer (Utf8.text ([] ++ (i.chars ++ ([] ++ [])))) = _
  rw [List.nil_append, List.append_nil, List.append_nil]

/-! ## Built values -/

/-- A value that is written and read back unchanged: no float, no `-0`, texts in UTF-8, keys once. -/
def Built (finite : Bytes → Bool) (left : ℕ) (v : JsonValue) : Prop :=
  ∃ t, stored t = v ∧ Readable t ∧ Within finite left t ∧ ∀ render, normalize render false t = t

section Built

variable {finite : Bytes → Bool} {left : ℕ}

theorem built_true : Built finite left .true := ⟨.true, rfl, ReadShape.true.readable, by simp [Within], fun _ => rfl⟩

theorem built_false : Built finite left .false := ⟨.false, rfl, ReadShape.false.readable, by simp [Within], fun _ => rfl⟩

theorem built_text (cs : List Char) : Built finite left (.string (Utf8.text cs)) := by
  refine ⟨.string (cs.map Char.toNat), ?_, (ReadShape.string _ (readKey_chars cs)).readable, by simp [Within], fun _ => rfl⟩
  rw [Utf8.text_eq_encodeAll]
  rfl

theorem built_integer {n : ℕ} (h : n < 2 ^ 63) : Built finite left (jsonNewInteger n) := by
  obtain ⟨number, hnumber⟩ := number_decimal n
  have hnew : jsonNewInteger n = .integer (Bytes.decimal n) := by
    unfold jsonNewInteger
    rw [if_neg (by omega), List.nil_append, Int.natAbs_natCast]
  have hhead : Bytes.decimal n ≠ ascii "-0" := by
    intro heq
    have hall := allDigits_decimal n
    rw [heq] at hall
    exact absurd (hall (byte '-') List.mem_cons_self) (by decide)
  refine ⟨.integer (Bytes.decimal n), hnew.symm, hnumber ▸ (ReadShape.number number).readable, ?_, fun _ => ?_⟩
  · rw [Within]
    have hlength : (Bytes.decimal n).length ≤ 19 := decimal_length (by decide) (by omega)
    unfold digitCount JSON_MAX_INTEGER_DIGITS
    omega
  · rw [normalize, if_neg hhead]

theorem built_array {items : List JsonValue} (h : ∀ v ∈ items, Built finite left v) :
    Built finite (left + 1) (.array items) := by
  obtain ⟨ts, hts⟩ : ∃ ts : List (Json (List ℕ)), ts.map stored = items ∧ (∀ t ∈ ts, Readable t ∧ Within finite left t) ∧
      ∀ render, ts.map (normalize render false) = ts := by
    induction items with
    | nil => exact ⟨[], rfl, by simp, fun _ => rfl⟩
    | cons v items ih =>
      rw [List.forall_mem_cons] at h
      obtain ⟨t, rfl, hread, hwithin, hnormal⟩ := h.1
      obtain ⟨ts, rfl, hall, hsame⟩ := ih h.2
      exact ⟨t :: ts, rfl, List.forall_mem_cons.mpr ⟨⟨hread, hwithin⟩, hall⟩, fun render => by
        rw [List.map_cons, hnormal, hsame]⟩
  obtain ⟨rfl, hall, hsame⟩ := hts
  refine ⟨.array ts, stored_array ts, ?_, fun t ht => (hall t ht).2, fun render => ?_⟩
  · have hshape : ReadShape (Container.array.value (ts.map fun t => ([], t))) := by
      refine .container .array _ fun m hm => ?_
      obtain ⟨t, ht, rfl⟩ := List.mem_map.mp hm
      exact ⟨⟨fun _ hu => absurd hu List.not_mem_nil, trivial⟩, fun _ => rfl, (hall t ht).1⟩
    have htree : Container.array.value (ts.map fun t => (([] : List ℕ), t)) = .array ts := by
      show Json.array ((ts.map fun t => (([] : List ℕ), t)).map Prod.snd) = .array ts
      rw [List.map_map]
      exact congrArg Json.array (List.map_id ts)
    rw [← htree]
    exact hshape.readable
  · rw [normalize, normalizeItems_eq, hsame]

/-- The keys are texts, each there once. -/
theorem built_object {members : List (Bytes × JsonValue)} (hkeys : (members.map Prod.fst).Nodup)
    (h : ∀ m ∈ members, (∃ cs, m.1 = Utf8.text cs) ∧ Built finite left m.2) :
    Built finite (left + 1) (.object members) := by
  obtain ⟨ts, hts⟩ : ∃ ts : List (List ℕ × Json (List ℕ)), ts.map storedMember = members ∧
      (∀ m ∈ ts, ReadKey m.1 ∧ Readable m.2 ∧ Within finite left m.2) ∧
      ∀ render, ts.map (normalizeMember render false) = ts := by
    clear hkeys
    induction members with
    | nil => exact ⟨[], rfl, by simp, fun _ => rfl⟩
    | cons m members ih =>
      rw [List.forall_mem_cons] at h
      obtain ⟨⟨cs, hcs⟩, t, ht, hread, hwithin, hnormal⟩ := h.1
      obtain ⟨ts, rfl, hall, hsame⟩ := ih h.2
      refine ⟨(cs.map Char.toNat, t) :: ts, ?_, List.forall_mem_cons.mpr ⟨⟨readKey_chars cs, hread, hwithin⟩, hall⟩,
        fun render => ?_⟩
      · rw [List.map_cons]
        congr 1
        show (Utf8.encodeAll (cs.map Char.toNat), stored t) = m
        rw [← Utf8.text_eq_encodeAll, ← hcs, ht]
      · rw [List.map_cons, hsame]
        show (_, normalize render false t) :: ts = _
        rw [hnormal]
  obtain ⟨rfl, hall, hsame⟩ := hts
  have hnodup : (ts.map Prod.fst).Nodup := by
    rw [List.map_map] at hkeys
    have hmap : (ts.map (Prod.fst ∘ storedMember)) = (ts.map Prod.fst).map Utf8.encodeAll := by
      rw [List.map_map]
      rfl
    rw [hmap] at hkeys
    exact hkeys.of_map _
  refine ⟨.object ts, stored_object ts, ?_, ?_, fun render => ?_⟩
  · have hshape : ReadShape (Container.object.value ts) :=
      .container .object ts fun m hm => ⟨(hall m hm).1, fun hno => Container.noConfusion hno, (hall m hm).2.1⟩
    exact hshape.readable
  · rw [Within]
    exact ⟨hnodup, fun m hm => (hall m hm).2.2⟩
  · rw [normalize, normalizeMembers_eq, hsame]
    rfl

/-- A built value is read back from what is written of it, also with a newline behind it. -/
theorem Built.round_trip {D : Type} {libc : Libc D} (hdoc : libc.Documented) {v : JsonValue}
    (h : Built libc.finite JSON_MAX_DEPTH v) :
    ∃ out, jsonDump libc v false = .ok out ∧ jsonParse libc.finite (out ++ [10]) = .ok v := by
  obtain ⟨t, rfl, hread, hwithin, hnormal⟩ := h
  obtain ⟨p, hp, -⟩ := @dumpValue_spec D libc false hdoc JSON_MAX_DEPTH t hread hwithin
  refine ⟨Utf8.text p.chars, hp.dumped, ?_⟩
  have htext : Utf8.text p.chars ++ [10] = Utf8.text ([] ++ (p.chars ++ ['\n'])) := by
    rw [List.nil_append, Utf8.text_append]
    rfl
  rw [htext]
  exact jsonParse_complete ⟨p, ⟨[], isWs_nil⟩, ⟨['\n'], rfl⟩, rfl, hp.tree.trans (hnormal _), hwithin⟩

end Built

end Hamn.StrictJson
