import Hamn.Guest.JsonMembers
import Hamn.Guest.JsonUtf8

/-!
# JsonCodec — what the UTF-8 functions of `strict_json.c` accept

* `form`: the bytes of a value in one to four bytes, whether or not that many are needed; `utf8_decode` reads the
  shortest form of a code point and refuses every other one, whole or cut.
* `Octets`: the well-formed byte sequences of RFC 3629, by its table; these are what `json_utf8_valid` accepts.
* `utf8_codec`: the round trip, the refusals, the validation and the order of `member_order` together.
-/

namespace Hamn.StrictJson

/-! ## Forms -/

/-- A value in the form of `n` bytes. -/
def form (n v : ℕ) : Bytes :=
  match n with
  | 1 => [UInt8.ofNat v]
  | 2 => [UInt8.ofNat (0xC0 + v / 64), UInt8.ofNat (0x80 + v % 64)]
  | 3 => [UInt8.ofNat (0xE0 + v / 4096), UInt8.ofNat (0x80 + v / 64 % 64), UInt8.ofNat (0x80 + v % 64)]
  | 4 => [UInt8.ofNat (0xF0 + v / 262144), UInt8.ofNat (0x80 + v / 4096 % 64), UInt8.ofNat (0x80 + v / 64 % 64),
    UInt8.ofNat (0x80 + v % 64)]
  | _ => []

/-- The first value that the form of `n` bytes has no room for. -/
def formLimit : ℕ → ℕ
  | 1 => 0x80
  | 2 => 0x800
  | 3 => 0x10000
  | 4 => 0x200000
  | _ => 0

/-- The number of bytes that a first byte announces. -/
def width (b : ℕ) : ℕ := if b < 0x80 then 1 else if b < 0xE0 then 2 else if b < 0xF0 then 3 else 4

theorem toNat_ofNat {x : ℕ} (h : x < 256) : (UInt8.ofNat x).toNat = x := by
  rw [UInt8.toNat_ofNat']
  omega

theorem formLimit_pos {n v : ℕ} (h : v < formLimit n) : n = 1 ∨ n = 2 ∨ n = 3 ∨ n = 4 := by
  unfold formLimit at h
  split at h <;> omega

theorem form_length {n v : ℕ} (h : v < formLimit n) : (form n v).length = n := by
  rcases formLimit_pos h with rfl | rfl | rfl | rfl <;> rfl

/-- The first byte of a form tells its length, and the others are tails. -/
theorem form_bytes {n v : ℕ} (h : v < formLimit n) : ∃ b rest, form n v = b :: rest ∧ width b.toNat = n ∧
    ∀ c ∈ rest, 0x80 ≤ c.toNat ∧ c.toNat ≤ 0xBF := by
  have htail : ∀ x, 0x80 ≤ (UInt8.ofNat (0x80 + x % 64)).toNat ∧ (UInt8.ofNat (0x80 + x % 64)).toNat ≤ 0xBF := by
    intro x
    rw [toNat_ofNat (by omega)]
    omega
  unfold width
  rcases formLimit_pos h with rfl | rfl | rfl | rfl <;> simp only [formLimit] at h <;>
    refine ⟨_, _, rfl, ?_, ?_⟩
  · rw [toNat_ofNat (by omega), if_pos h]
  · simp
  · rw [toNat_ofNat (by omega), if_neg (by omega), if_pos (by omega)]
  · simpa using htail v
  · rw [toNat_ofNat (by omega), if_neg (by omega), if_neg (by omega), if_pos (by omega)]
  · simpa using ⟨htail (v / 64), htail v⟩
  · rw [toNat_ofNat (by omega), if_neg (by omega), if_neg (by omega), if_neg (by omega)]
  · simpa using ⟨htail (v / 4096), htail (v / 64), htail v⟩

theorem ofNat_inj {x y : ℕ} (hx : x < 256) (hy : y < 256) (h : UInt8.ofNat x = UInt8.ofNat y) : x = y := by
  rw [← toNat_ofNat hx, ← toNat_ofNat hy, h]

theorem form_inj {n v w : ℕ} (hv : v < formLimit n) (hw : w < formLimit n) (h : form n v = form n w) : v = w := by
  rcases formLimit_pos hv with rfl | rfl | rfl | rfl <;> simp only [formLimit] at hv hw <;>
    simp only [form, List.cons.injEq, and_true] at h
  · exact ofNat_inj (by omega) (by omega) h
  · have h0 := ofNat_inj (by omega) (by omega) h.1
    have h1 := ofNat_inj (by omega) (by omega) h.2
    omega
  · have h0 := ofNat_inj (by omega) (by omega) h.1
    have h1 := ofNat_inj (by omega) (by omega) h.2.1
    have h2 := ofNat_inj (by omega) (by omega) h.2.2
    omega
  · have h0 := ofNat_inj (by omega) (by omega) h.1
    have h1 := ofNat_inj (by omega) (by omega) h.2.1
    have h2 := ofNat_inj (by omega) (by omega) h.2.2.1
    have h3 := ofNat_inj (by omega) (by omega) h.2.2.2
    omega

/-- The encoding is the shortest form. -/
theorem encode_eq_form {u : ℕ} (h : u < 0x110000) : ∃ n, Utf8.encode u = form n u ∧ u < formLimit n ∧
    ∀ m < n, formLimit m ≤ u := by
  unfold Utf8.encode
  split_ifs with h1 h2 h3
  · refine ⟨1, rfl, h1, fun m hm => ?_⟩
    rw [Nat.lt_one_iff.mp hm]
    exact Nat.zero_le u
  · refine ⟨2, rfl, h2, fun m hm => ?_⟩
    rcases (by omega : m = 0 ∨ m = 1) with rfl | rfl <;> simp only [formLimit] <;> omega
  · refine ⟨3, rfl, h3, fun m hm => ?_⟩
    rcases (by omega : m = 0 ∨ m = 1 ∨ m = 2) with rfl | rfl | rfl <;> simp only [formLimit] <;> omega
  · refine ⟨4, rfl, by simp only [formLimit]; omega, fun m hm => ?_⟩
    rcases (by omega : m = 0 ∨ m = 1 ∨ m = 2 ∨ m = 3) with rfl | rfl | rfl | rfl <;> simp only [formLimit] <;> omega

/-! ## What `utf8_decode` refuses -/

/-- What was accepted is the shortest form of its code point. -/
theorem form_of_some {a : Bool} {s : Bytes} {k u : ℕ} (h : utf8Decode a s = some (k, u)) :
    ∃ n r, s = form n u ++ r ∧ u < formLimit n ∧ u < 0x110000 ∧ ∀ m < n, formLimit m ≤ u := by
  obtain ⟨hdec, -, r, hs⟩ := utf8Decode_eq_some h
  obtain ⟨n, hform, hlimit, hleast⟩ := encode_eq_form hdec.1
  exact ⟨n, r, by rw [hs, hform], hlimit, hdec.1, hleast⟩

/-- A form that `utf8_decode` accepts something of is read whole. -/
theorem form_read {a : Bool} {n v k u : ℕ} {r : Bytes} (hv : v < formLimit n)
    (h : utf8Decode a (form n v ++ r) = some (k, u)) : u = v ∧ v < 0x110000 ∧ ∀ m < n, formLimit m ≤ v := by
  obtain ⟨n', r', heq, hu, hrange, hleast⟩ := form_of_some h
  obtain ⟨b, rest, hb, hwidth, -⟩ := form_bytes hv
  obtain ⟨b', rest', hb', hwidth', -⟩ := form_bytes hu
  have hhead : b = b' := by
    rw [hb, hb'] at heq
    exact (List.cons.inj heq).1
  obtain rfl : n = n' := by rw [← hwidth, ← hwidth', hhead]
  obtain rfl : v = u := form_inj hv hu (List.append_inj heq (by rw [form_length hv, form_length hu])).1
  exact ⟨rfl, hrange, hleast⟩

theorem decode_overlong {a : Bool} {m n v : ℕ} (hm : v < formLimit m) (hn : v < formLimit n) (hlt : m < n)
    (r : Bytes) : utf8Decode a (form n v ++ r) = none := by
  rw [Option.eq_none_iff_forall_ne_some]
  rintro ⟨k, u⟩ h
  have hleast := (form_read hn h).2.2 m hlt
  omega

theorem decode_out_of_range {a : Bool} {n v : ℕ} (hn : v < formLimit n) (hv : 0x10FFFF < v) (r : Bytes) :
    utf8Decode a (form n v ++ r) = none := by
  rw [Option.eq_none_iff_forall_ne_some]
  rintro ⟨k, u⟩ h
  have hrange := (form_read hn h).2.1
  omega

/-- A form of which the last bytes are missing, at the end or before a byte that is no tail. -/
theorem decode_truncated {a : Bool} {n v m : ℕ} (hn : v < formLimit n) (hm : 0 < m) (hlt : m < n) {r : Bytes}
    (hr : ∀ b ∈ r.head?, ¬(0x80 ≤ b.toNat ∧ b.toNat ≤ 0xBF)) : utf8Decode a ((form n v).take m ++ r) = none := by
  rw [Option.eq_none_iff_forall_ne_some]
  rintro ⟨k, u⟩ h
  obtain ⟨n', r', heq, hu, -, -⟩ := form_of_some h
  obtain ⟨b, rest, hb, hwidth, -⟩ := form_bytes hn
  obtain ⟨b', rest', hb', hwidth', htail⟩ := form_bytes hu
  obtain ⟨m, rfl⟩ : ∃ i, m = i + 1 := ⟨m - 1, by omega⟩
  have hrest : rest.length + 1 = n := by rw [← form_length hn, hb]; rfl
  have hrest' : rest'.length + 1 = n' := by rw [← form_length hu, hb']; rfl
  rw [hb, hb', List.take_succ_cons, List.cons_append, List.cons_append] at heq
  obtain ⟨rfl, htails⟩ := List.cons.inj heq
  obtain rfl : n = n' := by rw [← hwidth, ← hwidth']
  have htake : (rest.take m).length = m := by rw [List.length_take]; omega
  -- the byte behind the cut
  have hnext : (rest.take m ++ r)[m]? = (rest' ++ r')[m]? := congrArg (·[m]?) htails
  rw [List.getElem?_append_right (le_of_eq htake), htake, Nat.sub_self, ← List.head?_eq_getElem?,
    List.getElem?_append_left (by omega), List.getElem?_eq_getElem (by omega)] at hnext
  exact hr _ hnext (htail _ (List.getElem_mem _))

/-! ## RFC 3629 -/

/-- `UTF8-tail` -/
def TAIL : ℕ × ℕ := (0x80, 0xBF)

/-- The alternatives of `UTF8-char`, as the range of each octet. -/
def UTF8_CHAR : List (List (ℕ × ℕ)) :=
  [[(0x00, 0x7F)],
    [(0xC2, 0xDF), TAIL],
    [(0xE0, 0xE0), (0xA0, 0xBF), TAIL],
    [(0xE1, 0xEC), TAIL, TAIL],
    [(0xED, 0xED), (0x80, 0x9F), TAIL],
    [(0xEE, 0xEF), TAIL, TAIL],
    [(0xF0, 0xF0), (0x90, 0xBF), TAIL, TAIL],
    [(0xF1, 0xF3), TAIL, TAIL, TAIL],
    [(0xF4, 0xF4), (0x80, 0x8F), TAIL, TAIL]]

def InRange (range : ℕ × ℕ) (b : UInt8) : Prop := range.1 ≤ b.toNat ∧ b.toNat ≤ range.2

/-- `UTF8-octets` -/
inductive Octets : Bytes → Prop where
  | nil : Octets []
  | char {line : List (ℕ × ℕ)} {octets rest : Bytes} (h : line ∈ UTF8_CHAR) (hline : List.Forall₂ InRange line octets)
      (hrest : Octets rest) : Octets (octets ++ rest)

theorem inRange_ofNat {lo hi x : ℕ} (h : x < 256) : InRange (lo, hi) (UInt8.ofNat x) ↔ lo ≤ x ∧ x ≤ hi := by
  unfold InRange
  rw [toNat_ofNat h]

theorem inRange_tail (x : ℕ) : InRange TAIL (UInt8.ofNat (0x80 + x % 64)) :=
  (inRange_ofNat (by omega)).mpr (by omega)

/-- Every scalar value is written by a line of the table. -/
theorem encode_line {u : ℕ} (h : Decodable false u) : ∃ line ∈ UTF8_CHAR, List.Forall₂ InRange line (Utf8.encode u) := by
  obtain ⟨hlt, hsur⟩ := h
  have hsur := hsur rfl
  unfold Utf8.encode
  split_ifs with h1 h2 h3
  · exact ⟨_, List.mem_cons_self, .cons ((inRange_ofNat (by omega)).mpr (by omega)) .nil⟩
  · refine ⟨[(0xC2, 0xDF), TAIL], by simp [UTF8_CHAR], .cons ?_ (.cons (inRange_tail u) .nil)⟩
    exact (inRange_ofNat (by omega)).mpr (by omega)
  · have hline : ∀ {first second : ℕ × ℕ}, first.1 ≤ 0xE0 + u / 4096 → 0xE0 + u / 4096 ≤ first.2 →
        second.1 ≤ 0x80 + u / 64 % 64 → 0x80 + u / 64 % 64 ≤ second.2 →
        List.Forall₂ InRange [first, second, TAIL] [UInt8.ofNat (0xE0 + u / 4096), UInt8.ofNat (0x80 + u / 64 % 64),
          UInt8.ofNat (0x80 + u % 64)] := fun h1 h2 h3 h4 =>
      .cons ((inRange_ofNat (by omega)).mpr ⟨h1, h2⟩) (.cons ((inRange_ofNat (by omega)).mpr ⟨h3, h4⟩)
        (.cons (inRange_tail u) .nil))
    by_cases he0 : u < 0x1000
    · exact ⟨[(0xE0, 0xE0), (0xA0, 0xBF), TAIL], by simp [UTF8_CHAR],
        hline (by omega) (by omega) (by omega) (by omega)⟩
    by_cases hec : u < 0xD000
    · exact ⟨[(0xE1, 0xEC), TAIL, TAIL], by simp [UTF8_CHAR],
        hline (by omega) (by omega) (by simp [TAIL]) (by simp only [TAIL]; omega)⟩
    by_cases hed : u < 0xD800
    · exact ⟨[(0xED, 0xED), (0x80, 0x9F), TAIL], by simp [UTF8_CHAR],
        hline (by omega) (by omega) (by omega) (by omega)⟩
    · exact ⟨[(0xEE, 0xEF), TAIL, TAIL], by simp [UTF8_CHAR],
        hline (by omega) (by omega) (by simp [TAIL]) (by simp only [TAIL]; omega)⟩
  · have hline : ∀ {first second : ℕ × ℕ}, first.1 ≤ 0xF0 + u / 262144 → 0xF0 + u / 262144 ≤ first.2 →
        second.1 ≤ 0x80 + u / 4096 % 64 → 0x80 + u / 4096 % 64 ≤ second.2 →
        List.Forall₂ InRange [first, second, TAIL, TAIL] [UInt8.ofNat (0xF0 + u / 262144),
          UInt8.ofNat (0x80 + u / 4096 % 64), UInt8.ofNat (0x80 + u / 64 % 64), UInt8.ofNat (0x80 + u % 64)] :=
      fun h1 h2 h3 h4 => .cons ((inRange_ofNat (by omega)).mpr ⟨h1, h2⟩)
        (.cons ((inRange_ofNat (by omega)).mpr ⟨h3, h4⟩) (.cons (inRange_tail _) (.cons (inRange_tail u) .nil)))
    by_cases hf0 : u < 0x40000
    · exact ⟨[(0xF0, 0xF0), (0x90, 0xBF), TAIL, TAIL], by simp [UTF8_CHAR],
        hline (by omega) (by omega) (by omega) (by omega)⟩
    by_cases hf3 : u < 0x100000
    · exact ⟨[(0xF1, 0xF3), TAIL, TAIL, TAIL], by simp [UTF8_CHAR],
        hline (by omega) (by omega) (by simp [TAIL]) (by simp only [TAIL]; omega)⟩
    · exact ⟨[(0xF4, 0xF4), (0x80, 0x8F), TAIL, TAIL], by simp [UTF8_CHAR],
        hline (by omega) (by omega) (by omega) (by omega)⟩

theorem eq_ofNat {b : UInt8} {x : ℕ} (h : b.toNat = x) : b = UInt8.ofNat x := by rw [← h, UInt8.ofNat_toNat]

/-- Three octets, the first two of which leave the span from `lo` to `hi`. -/
theorem three_octets {first second : ℕ × ℕ} {octets : Bytes} (h : List.Forall₂ InRange [first, second, TAIL] octets)
    (lo hi : ℕ) (hlo : 0x800 ≤ lo) (hhi : hi < 0x10000)
    (hspan : ∀ a b, first.1 ≤ a → a ≤ first.2 → second.1 ≤ b → b ≤ second.2 →
      0xE0 ≤ a ∧ a ≤ 0xEF ∧ 0x80 ≤ b ∧ b ≤ 0xBF ∧ lo ≤ (a - 0xE0) * 4096 + (b - 0x80) * 64 ∧
        (a - 0xE0) * 4096 + (b - 0x80) * 64 + 63 ≤ hi)
    (hsur : ¬(lo ≤ 0xDFFF ∧ 0xD800 ≤ hi)) : ∃ u, Decodable false u ∧ octets = Utf8.encode u := by
  obtain ⟨a, l, ha, h1, rfl⟩ := List.forall₂_cons_left_iff.mp h
  obtain ⟨b, l, hb, h2, rfl⟩ := List.forall₂_cons_left_iff.mp h1
  obtain ⟨c, l, hc, h3, rfl⟩ := List.forall₂_cons_left_iff.mp h2
  obtain rfl := List.forall₂_nil_left_iff.mp h3
  obtain ⟨ha0, ha1, hb0, hb1, hmin, hmax⟩ := hspan _ _ ha.1 ha.2 hb.1 hb.2
  have hc0 : 0x80 ≤ c.toNat := hc.1
  have hc1 : c.toNat ≤ 0xBF := hc.2
  refine ⟨(a.toNat - 0xE0) * 4096 + (b.toNat - 0x80) * 64 + (c.toNat - 0x80), ⟨by omega, fun _ => by omega⟩, ?_⟩
  rw [Utf8.encode, if_neg (by omega), if_neg (by omega), if_pos (by omega)]
  exact List.cons_eq_cons.mpr ⟨eq_ofNat (by omega), List.cons_eq_cons.mpr ⟨eq_ofNat (by omega),
    List.cons_eq_cons.mpr ⟨eq_ofNat (by omega), rfl⟩⟩⟩

theorem four_octets {first second : ℕ × ℕ} {octets : Bytes}
    (h : List.Forall₂ InRange [first, second, TAIL, TAIL] octets)
    (hspan : ∀ a b, first.1 ≤ a → a ≤ first.2 → second.1 ≤ b → b ≤ second.2 →
      0xF0 ≤ a ∧ a ≤ 0xF4 ∧ 0x80 ≤ b ∧ b ≤ 0xBF ∧ 0x10000 ≤ (a - 0xF0) * 262144 + (b - 0x80) * 4096 ∧
        (a - 0xF0) * 262144 + (b - 0x80) * 4096 + 4095 < 0x110000) :
    ∃ u, Decodable false u ∧ octets = Utf8.encode u := by
  obtain ⟨a, l, ha, h1, rfl⟩ := List.forall₂_cons_left_iff.mp h
  obtain ⟨b, l, hb, h2, rfl⟩ := List.forall₂_cons_left_iff.mp h1
  obtain ⟨c, l, hc, h3, rfl⟩ := List.forall₂_cons_left_iff.mp h2
  obtain ⟨d, l, hd, h4, rfl⟩ := List.forall₂_cons_left_iff.mp h3
  obtain rfl := List.forall₂_nil_left_iff.mp h4
  obtain ⟨ha0, ha1, hb0, hb1, hmin, hmax⟩ := hspan _ _ ha.1 ha.2 hb.1 hb.2
  have hc0 : 0x80 ≤ c.toNat := hc.1
  have hc1 : c.toNat ≤ 0xBF := hc.2
  have hd0 : 0x80 ≤ d.toNat := hd.1
  have hd1 : d.toNat ≤ 0xBF := hd.2
  obtain ⟨u, hu⟩ : ∃ u, u = (a.toNat - 0xF0) * 262144 + (b.toNat - 0x80) * 4096 + (c.toNat - 0x80) * 64 +
      (d.toNat - 0x80) := ⟨_, rfl⟩
  refine ⟨u, ⟨by omega, fun _ => by omega⟩, ?_⟩
  rw [Utf8.encode, if_neg (by omega), if_neg (by omega), if_neg (by omega)]
  exact List.cons_eq_cons.mpr ⟨eq_ofNat (by omega), List.cons_eq_cons.mpr ⟨eq_ofNat (by omega),
    List.cons_eq_cons.mpr ⟨eq_ofNat (by omega), List.cons_eq_cons.mpr ⟨eq_ofNat (by omega), rfl⟩⟩⟩⟩

/-- Every line of the table writes scalar values only. -/
theorem line_encode {line : List (ℕ × ℕ)} (hmem : line ∈ UTF8_CHAR) {octets : Bytes}
    (h : List.Forall₂ InRange line octets) : ∃ u, Decodable false u ∧ octets = Utf8.encode u := by
  simp only [UTF8_CHAR, List.mem_cons, List.not_mem_nil, or_false] at hmem
  rcases hmem with rfl | rfl | rfl | rfl | rfl | rfl | rfl | rfl | rfl
  · obtain ⟨a, l, ha, h1, rfl⟩ := List.forall₂_cons_left_iff.mp h
    obtain rfl := List.forall₂_nil_left_iff.mp h1
    have ha1 : a.toNat ≤ 0x7F := ha.2
    refine ⟨a.toNat, ⟨by omega, fun _ => by omega⟩, ?_⟩
    rw [Utf8.encode_ascii (by omega), UInt8.ofNat_toNat]
  · obtain ⟨a, l, ha, h1, rfl⟩ := List.forall₂_cons_left_iff.mp h
    obtain ⟨b, l, hb, h2, rfl⟩ := List.forall₂_cons_left_iff.mp h1
    obtain rfl := List.forall₂_nil_left_iff.mp h2
    have ha0 : 0xC2 ≤ a.toNat := ha.1
    have ha1 : a.toNat ≤ 0xDF := ha.2
    have hb0 : 0x80 ≤ b.toNat := hb.1
    have hb1 : b.toNat ≤ 0xBF := hb.2
    refine ⟨(a.toNat - 0xC0) * 64 + (b.toNat - 0x80), ⟨by omega, fun _ => by omega⟩, ?_⟩
    rw [Utf8.encode, if_neg (by omega), if_pos (by omega)]
    exact List.cons_eq_cons.mpr ⟨eq_ofNat (by omega), List.cons_eq_cons.mpr ⟨eq_ofNat (by omega), rfl⟩⟩
  · exact three_octets h 0x800 0xFFF (by omega) (by omega) (fun a b h1 h2 h3 h4 => by simp only at h1 h2 h3 h4; omega)
      (by omega)
  · exact three_octets h 0x1000 0xCFFF (by omega) (by omega)
      (fun a b h1 h2 h3 h4 => by simp only [TAIL] at h1 h2 h3 h4; omega) (by omega)
  · exact three_octets h 0xD000 0xD7FF (by omega) (by omega) (fun a b h1 h2 h3 h4 => by simp only at h1 h2 h3 h4; omega)
      (by omega)
  · exact three_octets h 0xE000 0xFFFF (by omega) (by omega)
      (fun a b h1 h2 h3 h4 => by simp only [TAIL] at h1 h2 h3 h4; omega) (by omega)
  · exact four_octets h fun a b h1 h2 h3 h4 => by simp only at h1 h2 h3 h4; omega
  · exact four_octets h fun a b h1 h2 h3 h4 => by simp only [TAIL] at h1 h2 h3 h4; omega
  · exact four_octets h fun a b h1 h2 h3 h4 => by simp only at h1 h2 h3 h4; omega

theorem octets_text (cs : List Char) : Octets (Utf8.text cs) := by
  induction cs with
  | nil => exact .nil
  | cons c cs ih =>
    obtain ⟨line, hmem, hline⟩ := encode_line (decodable_char c false)
    rw [Utf8.text_cons, Utf8.encodeChar_eq]
    exact .char hmem hline ih

theorem jsonUtf8Valid_iff_octets {s : Bytes} : jsonUtf8Valid s = true ↔ Octets s := by
  rw [jsonUtf8Valid_iff]
  constructor
  · rintro ⟨cs, rfl⟩
    exact octets_text cs
  · intro h
    induction h with
    | nil => exact ⟨[], rfl⟩
    | char hmem hline _ ih =>
      obtain ⟨cs, rfl⟩ := ih
      obtain ⟨u, hu, rfl⟩ := line_encode hmem hline
      obtain ⟨c, rfl⟩ := exists_char hu
      exact ⟨c :: cs, by rw [Utf8.text_cons, Utf8.encodeChar_eq]⟩

/-! ## Order -/

theorem memberOrder_encodeAll {us vs : List ℕ} (hu : ∀ u ∈ us, u < 0x110000) (hv : ∀ v ∈ vs, v < 0x110000) :
    (memberOrder (Utf8.encodeAll us) (Utf8.encodeAll vs) = .lt ↔ us < vs) ∧
      (memberOrder (Utf8.encodeAll us) (Utf8.encodeAll vs) = .gt ↔ vs < us) ∧
      (memberOrder (Utf8.encodeAll us) (Utf8.encodeAll vs) = .eq ↔ us = vs) := by
  refine ⟨?_, ?_, ?_⟩
  · rw [memberOrder_eq_lt, Utf8.encodeAll_lt_iff hu hv]
  · rw [memberOrder_eq_gt, Utf8.encodeAll_lt_iff hv hu]
  · rw [memberOrder_eq_eq]
    exact ⟨Utf8.encodeAll_inj hu hv, fun h => h ▸ rfl⟩

/-- **The codec.**  Every code point is read back from what was written, and nothing else of its bytes; overlong,
truncated and out-of-range sequences are refused; validation accepts what RFC 3629 calls well formed; and keys are
ordered by their code points. -/
theorem utf8_codec :
    (∀ u ≤ 0x10FFFF, ∀ r, utf8Decode true (utf8Append u ++ r) = some ((utf8Append u).length, u)) ∧
    (∀ (a : Bool) (s : Bytes) (k u : ℕ), utf8Decode a s = some (k, u) →
      Decodable a u ∧ k = (utf8Append u).length ∧ utf8Append u <+: s) ∧
    (∀ (a : Bool) (m n v : ℕ) (r : Bytes), v < formLimit m → v < formLimit n → m < n →
      utf8Decode a (form n v ++ r) = none) ∧
    (∀ (a : Bool) (n v m : ℕ) (r : Bytes), v < formLimit n → 0 < m → m < n →
      (∀ b ∈ r.head?, ¬(0x80 ≤ b.toNat ∧ b.toNat ≤ 0xBF)) → utf8Decode a ((form n v).take m ++ r) = none) ∧
    (∀ (a : Bool) (n v : ℕ) (r : Bytes), v < formLimit n → 0x10FFFF < v → utf8Decode a (form n v ++ r) = none) ∧
    (∀ s, jsonUtf8Valid s = true ↔ Octets s) ∧
    ∀ us vs : List ℕ, (∀ u ∈ us, u ≤ 0x10FFFF) → (∀ v ∈ vs, v ≤ 0x10FFFF) →
      (memberOrder (us.flatMap utf8Append) (vs.flatMap utf8Append) = .lt ↔ us < vs) ∧
        (memberOrder (us.flatMap utf8Append) (vs.flatMap utf8Append) = .gt ↔ vs < us) ∧
        (memberOrder (us.flatMap utf8Append) (vs.flatMap utf8Append) = .eq ↔ us = vs) := by
  have happend : ∀ {us : List ℕ}, (∀ u ∈ us, u ≤ 0x10FFFF) → us.flatMap utf8Append = Utf8.encodeAll us :=
    fun h => List.flatMap_congr fun u hu => utf8Append_eq (Nat.lt_succ_of_le (h u hu))
  refine ⟨fun u hu r => ?_, fun a s k u h => ?_, fun a m n v r => fun hm hn hlt => decode_overlong hm hn hlt r,
    fun a n v m r hn hm hlt hr => decode_truncated hn hm hlt hr, fun a n v r hn hv => decode_out_of_range hn hv r,
    fun s => jsonUtf8Valid_iff_octets, fun us vs hu hv => ?_⟩
  · have hlt : u < 0x110000 := Nat.lt_succ_of_le hu
    rw [utf8Append_eq hlt]
    exact utf8Decode_encode ⟨hlt, fun h => absurd h (by decide)⟩ r
  · obtain ⟨hdec, hk, r, rfl⟩ := utf8Decode_eq_some h
    rw [utf8Append_eq hdec.1]
    exact ⟨hdec, hk, List.prefix_append _ r⟩
  · rw [happend hu, happend hv]
    exact memberOrder_encodeAll (fun u h => Nat.lt_succ_of_le (hu u h)) fun v h => Nat.lt_succ_of_le (hv v h)

end Hamn.StrictJson
