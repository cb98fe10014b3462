import Hamn.Lib.Bytes
import Hamn.Lib.Sha2

/-!
# Digest — the guest tool's SHA-256 (`image/digest.c`)

* `sha256Block_eq`: a block is compressed as FIPS 180-4 says.
* `Absorbed`: what a context holds of the bytes it was given, however they were cut.
* `sha256_digest`: the digest, its hexadecimal form and the byte count that `sha256_final` leaves.
-/

open Sha2 Bytes

namespace Hamn.Digest

/-! ## Model -/

def sha256Constants : List UInt32 := [
  0x428a2f98, 0x71374491, 0xb5c0fbcf, 0xe9b5dba5, 0x3956c25b, 0x59f111f1,
  0x923f82a4, 0xab1c5ed5, 0xd807aa98, 0x12835b01, 0x243185be, 0x550c7dc3,
  0x72be5d74, 0x80deb1fe, 0x9bdc06a7, 0xc19bf174, 0xe49b69c1, 0xefbe4786,
  0x0fc19dc6, 0x240ca1cc, 0x2de92c6f, 0x4a7484aa, 0x5cb0a9dc, 0x76f988da,
  0x983e5152, 0xa831c66d, 0xb00327c8, 0xbf597fc7, 0xc6e00bf3, 0xd5a79147,
  0x06ca6351, 0x14292967, 0x27b70a85, 0x2e1b2138, 0x4d2c6dfc, 0x53380d13,
  0x650a7354, 0x766a0abb, 0x81c2c92e, 0x92722c85, 0xa2bfe8a1, 0xa81a664b,
  0xc24b8b70, 0xc76c51a3, 0xd192e819, 0xd6990624, 0xf40e3585, 0x106aa070,
  0x19a4c116, 0x1e376c08, 0x2748774c, 0x34b0bcb5, 0x391c0cb3, 0x4ed8aa4a,
  0x5b9cca4f, 0x682e6ff3, 0x748f82ee, 0x78a5636f, 0x84c87814, 0x8cc70208,
  0x90befffa, 0xa4506ceb, 0xbef9a3f7, 0xc67178f2]

def rotateRight (value bits : UInt32) : UInt32 := (value >>> bits) ||| (value <<< (32 - bits))

/-- One turn of the first loop over `w`. -/
def fillWord (block : Bytes) (w : List UInt32) (index : ℕ) : List UInt32 :=
  w ++ [(block.getD (index * 4) 0).toUInt32 <<< 24 ||| (block.getD (index * 4 + 1) 0).toUInt32 <<< 16 |||
    (block.getD (index * 4 + 2) 0).toUInt32 <<< 8 ||| (block.getD (index * 4 + 3) 0).toUInt32]

/-- One turn of the second loop over `w`. -/
def extendWord (w : List UInt32) (index : ℕ) : List UInt32 :=
  let s0 := rotateRight (w.getD (index - 15) 0) 7 ^^^ rotateRight (w.getD (index - 15) 0) 18 ^^^
    (w.getD (index - 15) 0 >>> 3)
  let s1 := rotateRight (w.getD (index - 2) 0) 17 ^^^ rotateRight (w.getD (index - 2) 0) 19 ^^^
    (w.getD (index - 2) 0 >>> 10)
  w ++ [w.getD (index - 16) 0 + s0 + w.getD (index - 7) 0 + s1]

def blockWords (block : Bytes) : List UInt32 :=
  (List.range' 16 48).foldl extendWord ((List.range 16).foldl (fillWord block) [])

/-- One turn of the loop over the rounds. -/
def blockRound (w : List UInt32) (s : Hash) (index : ℕ) : Hash :=
  let s1 := rotateRight s.e 6 ^^^ rotateRight s.e 11 ^^^ rotateRight s.e 25
  let choose := (s.e &&& s.f) ^^^ (~~~s.e &&& s.g)
  let t1 := s.h + s1 + choose + sha256Constants.getD index 0 + w.getD index 0
  let s0 := rotateRight s.a 2 ^^^ rotateRight s.a 13 ^^^ rotateRight s.a 22
  let majority := (s.a &&& s.b) ^^^ (s.a &&& s.c) ^^^ (s.b &&& s.c)
  let t2 := s0 + majority
  ⟨t1 + t2, s.a, s.b, s.c, s.d + t1, s.e, s.f, s.g⟩

def sha256Block (state : Hash) (block : Bytes) : Hash :=
  let r := (List.range 64).foldl (blockRound (blockWords block)) state
  ⟨state.a + r.a, state.b + r.b, state.c + r.c, state.d + r.d, state.e + r.e, state.f + r.f, state.g + r.g,
    state.h + r.h⟩

/-- `struct sha256`; `used` is 64 only within a turn of `sha256_update`. -/
structure Context where
  state : Hash
  totalBytes : UInt64
  block : Bytes
  used : ℕ
  block_length : block.length = 64
  used_lt : used < 64

/-- The block of the context keeps what it held. -/
def sha256Init (context : Context) : Context :=
  { context with
    state := ⟨0x6a09e667, 0xbb67ae85, 0x3c6ef372, 0xa54ff53a, 0x510e527f, 0x9b05688c, 0x1f83d9ab, 0x5be0cd19⟩
    totalBytes := 0
    used := 0
    used_lt := by decide }

/-- How many bytes a turn takes. -/
def Context.take (context : Context) (length : ℕ) : ℕ :=
  if length < 64 - context.used then length else 64 - context.used

/-- The block with the next bytes behind the used ones. -/
def Context.filled (context : Context) (input : Bytes) : Bytes :=
  context.block.take context.used ++
    (input.take (context.take input.length) ++ context.block.drop (context.used + context.take input.length))

theorem Context.take_le (context : Context) (length : ℕ) :
    context.take length ≤ length ∧ context.used + context.take length ≤ 64 := by
  have hused := context.used_lt
  unfold Context.take
  split_ifs <;> omega

theorem Context.filled_length (context : Context) (input : Bytes) : (context.filled input).length = 64 := by
  have hlength := context.block_length
  have hused := context.used_lt
  obtain ⟨hle, hroom⟩ := context.take_le input.length
  unfold Context.filled
  rw [List.length_append, List.length_append, List.length_take, List.length_take, List.length_drop]
  omega

/-- One turn of the loop of `sha256_update`. -/
def Context.turn (context : Context) (input : Bytes) : Context :=
  if h : context.used + context.take input.length = 64 then
    { context with
      state := sha256Block context.state (context.filled input)
      block := context.filled input
      used := 0
      block_length := context.filled_length input
      used_lt := by decide }
  else
    { context with
      block := context.filled input
      used := context.used + context.take input.length
      block_length := context.filled_length input
      used_lt := lt_of_le_of_ne (context.take_le input.length).2 h }

theorem Context.take_pos (context : Context) {length : ℕ} (h : 0 < length) : 0 < context.take length := by
  have hused := context.used_lt
  unfold Context.take
  split_ifs <;> omega

def Context.absorb (context : Context) (input : Bytes) : Context :=
  if _h : input = [] then context else (context.turn input).absorb (input.drop (context.take input.length))
termination_by input.length
decreasing_by
  have hlen := List.length_pos_of_ne_nil ‹_›
  have hpos := context.take_pos hlen
  rw [List.length_drop]
  omega

def sha256Update (context : Context) (bytes : Bytes) : Context :=
  { context with totalBytes := context.totalBytes + UInt64.ofNat bytes.length }.absorb bytes

/-- The digest, and the context that is left. -/
def sha256Final (context : Context) : Bytes × Context :=
  let bits := context.totalBytes * 8
  let padding : Bytes := 0x80 :: List.replicate 71 0
  let pad := if context.used < 56 then 56 - context.used else 120 - context.used
  let length := (List.range 8).map fun index => (bits >>> UInt64.ofNat (56 - index * 8)).toUInt8
  let total := context.totalBytes
  let after := sha256Update (sha256Update context (padding.take pad)) length
  let after := { after with totalBytes := total }
  (after.state.words.flatMap fun x : UInt32 => [(x >>> 24).toUInt8, (x >>> 16).toUInt8, (x >>> 8).toUInt8, x.toUInt8], after)

def digits : Bytes := ascii "0123456789abcdef"

def sha256Hex (digest : Bytes) : Bytes :=
  (digest.flatMap fun d : UInt8 => [digits.getD (d >>> 4).toNat 0, digits.getD (d &&& 0x0F).toNat 0]) ++ [0]

/-! ## A block -/

theorem constants_eq : sha256Constants = (List.range 64).map K := by decide +kernel

theorem init_state (context : Context) : (sha256Init context).state = initial := by
  have h : (⟨0x6a09e667, 0xbb67ae85, 0x3c6ef372, 0xa54ff53a, 0x510e527f, 0x9b05688c, 0x1f83d9ab, 0x5be0cd19⟩ : Hash) =
    initial := by decide +kernel
  exact h

theorem getD_map_range {f : ℕ → UInt32} {n t : ℕ} (h : t < n) : ((List.range n).map f).getD t 0 = f t := by
  rw [List.getD_eq_getElem?_getD, List.getElem?_map, List.getElem?_range h]
  rfl

/-- Four bytes that are shifted together are the word. -/
theorem word_eq (b0 b1 b2 b3 : UInt8) :
    word [b0, b1, b2, b3] = b0.toUInt32 <<< 24 ||| b1.toUInt32 <<< 16 ||| b2.toUInt32 <<< 8 ||| b3.toUInt32 := by
  have h0 := b0.toNat_lt
  have h1 := b1.toNat_lt
  have h2 := b2.toNat_lt
  have h3 := b3.toNat_lt
  have hor : ∀ a k b : ℕ, b < 2 ^ k → a * 2 ^ k ||| b = a * 2 ^ k + b := fun a k b hb => by
    rw [← Nat.shiftLeft_eq, ← Nat.shiftLeft_add_eq_or_of_lt hb]
  rw [← UInt32.toNat_inj]
  unfold word
  simp only [List.foldl_cons, List.foldl_nil, UInt32.toNat_ofNat', UInt32.toNat_or, UInt32.toNat_shiftLeft,
    UInt8.toNat_toUInt32, UInt32.reduceToNat, Nat.shiftLeft_eq]
  have e0 : b0.toNat * 2 ^ (24 % 32) % 2 ^ 32 = b0.toNat * 2 ^ 24 :=
    Nat.mod_eq_of_lt (show b0.toNat * 2 ^ 24 < 2 ^ 32 by omega)
  have e1 : b1.toNat * 2 ^ (16 % 32) % 2 ^ 32 = b1.toNat * 2 ^ 16 :=
    Nat.mod_eq_of_lt (show b1.toNat * 2 ^ 16 < 2 ^ 32 by omega)
  have e2 : b2.toNat * 2 ^ (8 % 32) % 2 ^ 32 = b2.toNat * 2 ^ 8 :=
    Nat.mod_eq_of_lt (show b2.toNat * 2 ^ 8 < 2 ^ 32 by omega)
  have o1 : b0.toNat * 2 ^ 24 ||| b1.toNat * 2 ^ 16 = (b0.toNat * 2 ^ 8 + b1.toNat) * 2 ^ 16 := by
    rw [hor _ _ _ (by omega)]
    omega
  have o2 : (b0.toNat * 2 ^ 8 + b1.toNat) * 2 ^ 16 ||| b2.toNat * 2 ^ 8 =
      ((b0.toNat * 2 ^ 8 + b1.toNat) * 2 ^ 8 + b2.toNat) * 2 ^ 8 := by
    rw [hor _ _ _ (by omega)]
    omega
  rw [e0, e1, e2, o1, o2, hor _ _ _ (by omega)]
  clear e0 e1 e2 o1 o2 hor
  omega

theorem rotateRight_ofNat (x : UInt32) {n : ℕ} (hpos : 0 < n) (hlt : n < 32) :
    rotateRight x (UInt32.ofNat n) = rotr n x := by
  have hn : (UInt32.ofNat n).toNat = n := by
    rw [UInt32.toNat_ofNat']
    omega
  have hrest : (32 - UInt32.ofNat n).toNat = 32 - n := by
    rw [UInt32.toNat_sub_of_le _ _ (by rw [UInt32.le_iff_toNat_le, hn]; exact hlt.le), hn]
    rfl
  rw [← UInt32.toNat_inj]
  unfold rotateRight rotr
  rw [UInt32.toNat_or, UInt32.toNat_shiftRight, UInt32.toNat_shiftLeft, hn, hrest, Nat.mod_eq_of_lt hlt,
    Nat.mod_eq_of_lt (by omega : 32 - n < 32)]
  show _ = (x.toBitVec.rotateRight n).toNat
  rw [BitVec.toNat_rotateRight, Nat.mod_eq_of_lt hlt]
  rfl

theorem rotateRight_eq (x : UInt32) :
    rotateRight x 2 = rotr 2 x ∧ rotateRight x 6 = rotr 6 x ∧ rotateRight x 7 = rotr 7 x ∧
      rotateRight x 11 = rotr 11 x ∧ rotateRight x 13 = rotr 13 x ∧ rotateRight x 17 = rotr 17 x ∧
      rotateRight x 18 = rotr 18 x ∧ rotateRight x 19 = rotr 19 x ∧ rotateRight x 22 = rotr 22 x ∧
      rotateRight x 25 = rotr 25 x := by
  refine ⟨?_, ?_, ?_, ?_, ?_, ?_, ?_, ?_, ?_, ?_⟩ <;> exact rotateRight_ofNat x (by decide) (by decide)

theorem take_four {l : Bytes} (h : 4 ≤ l.length) : l.take 4 = [l.getD 0 0, l.getD 1 0, l.getD 2 0, l.getD 3 0] := by
  obtain ⟨a, l, rfl⟩ := List.exists_cons_of_length_pos (by omega : 0 < l.length)
  rw [List.length_cons] at h
  obtain ⟨b, l, rfl⟩ := List.exists_cons_of_length_pos (by omega : 0 < l.length)
  rw [List.length_cons] at h
  obtain ⟨c, l, rfl⟩ := List.exists_cons_of_length_pos (by omega : 0 < l.length)
  rw [List.length_cons] at h
  obtain ⟨d, l, rfl⟩ := List.exists_cons_of_length_pos (by omega : 0 < l.length)
  rfl

/-- The words of the schedule are those of the loops. -/
theorem fillWord_range {block : Bytes} (hblock : block.length = 64) {n : ℕ} (h : n ≤ 16) :
    (List.range n).foldl (fillWord block) [] = (List.range n).map (schedule (messageWord block)) := by
  induction n with
  | zero => rfl
  | succ n ih =>
    have hfour : (block.drop (4 * n)).take 4 =
        [block.getD (n * 4) 0, block.getD (n * 4 + 1) 0, block.getD (n * 4 + 2) 0, block.getD (n * 4 + 3) 0] := by
      rw [take_four (by rw [List.length_drop, hblock]; omega)]
      simp only [List.getD_eq_getElem?_getD, List.getElem?_drop, Nat.mul_comm 4 n, Nat.add_zero]
    rw [List.range_succ, List.foldl_append, ih (by omega), List.foldl_cons, List.foldl_nil, List.map_append,
      List.map_singleton, fillWord, ← word_eq, ← hfour, schedule, if_pos (by omega)]
    rfl

theorem extendWord_range {block : Bytes} (n : ℕ) :
    (List.range' 16 n).foldl extendWord ((List.range 16).map (schedule (messageWord block))) =
      (List.range (16 + n)).map (schedule (messageWord block)) := by
  induction n with
  | zero => rfl
  | succ n ih =>
    rw [List.range'_1_concat, List.foldl_append, ih, List.foldl_cons, List.foldl_nil, ← Nat.add_assoc, List.range_succ,
      List.map_append, List.map_singleton, extendWord]
    simp only [getD_map_range (by omega : 16 + n - 15 < 16 + n), getD_map_range (by omega : 16 + n - 2 < 16 + n),
      getD_map_range (by omega : 16 + n - 16 < 16 + n), getD_map_range (by omega : 16 + n - 7 < 16 + n)]
    have hnext : schedule (messageWord block) (16 + n) = sigma1 (schedule (messageWord block) (16 + n - 2)) +
        schedule (messageWord block) (16 + n - 7) + sigma0 (schedule (messageWord block) (16 + n - 15)) +
          schedule (messageWord block) (16 + n - 16) := by
      rw [schedule, if_neg (by omega)]
    rw [hnext]
    congr 2
    simp only [rotateRight_eq]
    unfold sigma0 sigma1
    ac_rfl

theorem blockWords_eq {block : Bytes} (hblock : block.length = 64) :
    blockWords block = (List.range 64).map (schedule (messageWord block)) := by
  unfold blockWords
  rw [fillWord_range hblock le_rfl, extendWord_range]

theorem blockRound_eq {block : Bytes} (hblock : block.length = 64) (s : Hash) {t : ℕ} (h : t < 64) :
    blockRound (blockWords block) s t = Sha2.round (K t) (schedule (messageWord block) t) s := by
  unfold blockRound Sha2.round
  rw [blockWords_eq hblock, constants_eq, getD_map_range h, getD_map_range h]
  simp only [rotateRight_eq]
  rfl

/-- **A block.** -/
theorem sha256Block_eq {block : Bytes} (hblock : block.length = 64) (state : Hash) :
    sha256Block state block = compress state block := by
  have hrounds : (List.range 64).foldl (blockRound (blockWords block)) state =
      (List.range 64).foldl (fun r t => Sha2.round (K t) (schedule (messageWord block) t) r) state :=
    List.foldl_ext _ _ _ fun s t ht => blockRound_eq hblock s (List.mem_range.mp ht)
  unfold sha256Block compress
  rw [hrounds]

/-! ## Updates -/

/-- The state is that of the whole blocks of `m`, and the block of the context begins with the rest. -/
def Absorbed (context : Context) (m : Bytes) : Prop :=
  ∃ front, m = front ++ context.block.take context.used ∧ front.length % 64 = 0 ∧
    context.state = (blocks front).foldl compress initial

theorem Absorbed.init (context : Context) : Absorbed (sha256Init context) [] :=
  ⟨[], rfl, rfl, init_state context⟩

theorem Absorbed.length {context : Context} {m : Bytes} (h : Absorbed context m) : m.length % 64 = context.used := by
  obtain ⟨front, rfl, hfront, -⟩ := h
  have hlength := context.block_length
  have hused := context.used_lt
  rw [List.length_append, List.length_take]
  omega

theorem filled_take (context : Context) (input : Bytes) :
    (context.filled input).take (context.used + context.take input.length) =
      context.block.take context.used ++ input.take (context.take input.length) := by
  have hlength := context.block_length
  have hused := context.used_lt
  obtain ⟨hle, -⟩ := context.take_le input.length
  unfold Context.filled
  rw [← List.append_assoc]
  refine List.take_left' ?_
  rw [List.length_append, List.length_take, List.length_take]
  omega

theorem Absorbed.turn {context : Context} {m : Bytes} (h : Absorbed context m) (input : Bytes) :
    Absorbed (context.turn input) (m ++ input.take (context.take input.length)) := by
  obtain ⟨front, rfl, hfront, hstate⟩ := h
  have htake := filled_take context input
  unfold Context.turn
  split_ifs with hfull
  · have hblock := context.filled_length input
    rw [hfull, ← hblock, List.take_length] at htake
    refine ⟨front ++ context.filled input, ?_, ?_, ?_⟩
    · rw [List.take_zero, List.append_nil, htake, List.append_assoc]
    · rw [List.length_append, hblock]
      omega
    · rw [blocks_append hfront hblock, List.foldl_append, List.foldl_cons, List.foldl_nil, ← hstate]
      exact sha256Block_eq hblock _
  · refine ⟨front, ?_, hfront, hstate⟩
    simp only
    rw [htake, List.append_assoc]

/-- The bytes that are given are absorbed, and the count stays. -/
theorem Absorbed.absorb {context : Context} {m : Bytes} (h : Absorbed context m) (input : Bytes) :
    Absorbed (context.absorb input) (m ++ input) ∧ (context.absorb input).totalBytes = context.totalBytes := by
  induction context, input using Context.absorb.induct generalizing m with
  | case1 context =>
    rw [Context.absorb, dif_pos rfl, List.append_nil]
    exact ⟨h, rfl⟩
  | case2 context input hne ih =>
    obtain ⟨hall, htotal⟩ := ih (h.turn input)
    rw [List.append_assoc, List.take_append_drop] at hall
    have hturn : (context.turn input).totalBytes = context.totalBytes := by
      unfold Context.turn
      split_ifs <;> rfl
    rw [Context.absorb, dif_neg hne]
    exact ⟨hall, htotal.trans hturn⟩

theorem Absorbed.update {context : Context} {m : Bytes} (h : Absorbed context m) (bytes : Bytes) :
    Absorbed (sha256Update context bytes) (m ++ bytes) ∧
      (sha256Update context bytes).totalBytes = context.totalBytes + UInt64.ofNat bytes.length := by
  have hcounted : Absorbed { context with totalBytes := context.totalBytes + UInt64.ofNat bytes.length } m := h
  exact hcounted.absorb bytes

/-- However the bytes are cut. -/
theorem absorbed_updates (context : Context) (chunks : List Bytes) :
    Absorbed (chunks.foldl sha256Update (sha256Init context)) chunks.flatten ∧
      (chunks.foldl sha256Update (sha256Init context)).totalBytes = UInt64.ofNat chunks.flatten.length := by
  induction chunks using List.reverseRecOn with
  | nil => exact ⟨.init context, rfl⟩
  | append_singleton chunks chunk ih =>
    obtain ⟨habsorbed, htotal⟩ := ih
    obtain ⟨hnext, hcount⟩ := habsorbed.update chunk
    rw [List.foldl_append, List.foldl_cons, List.foldl_nil, List.flatten_append, List.flatten_singleton]
    refine ⟨hnext, ?_⟩
    rw [hcount, htotal, List.length_append, UInt64.ofNat_add]

/-! ## The digest -/

theorem padding_eq {m : Bytes} {used : ℕ} (h : m.length % 64 = used) :
    ((0x80 : UInt8) :: List.replicate 71 0).take (if used < 56 then 56 - used else 120 - used) =
      0x80 :: List.replicate (padZeros m.length) 0 := by
  have hpad : (if used < 56 then 56 - used else 120 - used) = padZeros m.length + 1 := by
    unfold padZeros
    split_ifs <;> omega
  have hle := (padZeros_spec m.length).2
  have hroom : padZeros m.length ≤ 71 := by
    unfold padZeros at hle ⊢
    omega
  rw [hpad, List.take_succ_cons, List.take_replicate, Nat.min_eq_left hroom]

theorem lengthBytes_eq {n : ℕ} (h : n < 2 ^ 61) :
    ((List.range 8).map fun index => ((UInt64.ofNat n * 8) >>> UInt64.ofNat (56 - index * 8)).toUInt8) =
      bigEndian 8 (8 * n) := by
  unfold bigEndian
  refine List.map_congr_left fun i hi => ?_
  have hi' := List.mem_range.mp hi
  have hbits : (UInt64.ofNat n * 8).toNat = 8 * n := by
    rw [UInt64.toNat_mul, UInt64.toNat_ofNat']
    simp only [UInt64.reduceToNat]
    omega
  have hshift : (UInt64.ofNat (56 - i * 8)).toNat = 8 * (8 - 1 - i) := by
    rw [UInt64.toNat_ofNat']
    omega
  rw [← UInt8.toNat_inj, UInt64.toNat_toUInt8, UInt64.toNat_shiftRight, hbits, hshift,
    Nat.mod_eq_of_lt (by omega : 8 * (8 - 1 - i) < 64), Nat.shiftRight_eq_div_pow, UInt8.toNat_ofNat', Nat.pow_mul]

theorem wordBytes_eq (x : UInt32) :
    [(x >>> 24).toUInt8, (x >>> 16).toUInt8, (x >>> 8).toUInt8, x.toUInt8] = bigEndian 4 x.toNat := by
  have hshift : ∀ (k : UInt32) (n : ℕ), k.toNat = n → n < 32 →
      (x >>> k).toUInt8 = UInt8.ofNat (x.toNat / 2 ^ n) := by
    intro k n hk hn
    rw [← UInt8.toNat_inj, UInt32.toNat_toUInt8, UInt32.toNat_shiftRight, hk, Nat.mod_eq_of_lt hn,
      Nat.shiftRight_eq_div_pow, UInt8.toNat_ofNat']
  have hlast : x.toUInt8 = UInt8.ofNat (x.toNat / 2 ^ 0) := by
    rw [← UInt8.toNat_inj, UInt32.toNat_toUInt8, UInt8.toNat_ofNat', Nat.pow_zero, Nat.div_one]
  rw [hshift 24 24 rfl (by decide), hshift 16 16 rfl (by decide), hshift 8 8 rfl (by decide), hlast]
  rfl

theorem Absorbed.final {context : Context} {m : Bytes} (h : Absorbed context m)
    (htotal : context.totalBytes = UInt64.ofNat m.length) (hlength : m.length < 2 ^ 61) :
    (sha256Final context).1 = sha256 m ∧ (sha256Final context).2.totalBytes = context.totalBytes := by
  refine ⟨?_, rfl⟩
  obtain ⟨hpadded, -⟩ := h.update (0x80 :: List.replicate (padZeros m.length) 0)
  obtain ⟨hall, -⟩ := hpadded.update (bigEndian 8 (8 * m.length))
  have hpad : m ++ 0x80 :: List.replicate (padZeros m.length) 0 ++ bigEndian 8 (8 * m.length) = pad m := by
    unfold pad
    rw [List.append_assoc, List.cons_append]
  rw [hpad] at hall
  have hused := hall.length
  rw [length_pad] at hused
  obtain ⟨front, hfront, -, hstate⟩ := hall
  rw [← hused, List.take_zero, List.append_nil] at hfront
  unfold sha256Final sha256
  simp only
  rw [padding_eq h.length, htotal, lengthBytes_eq hlength, hstate, ← hfront]
  refine List.flatMap_congr fun x _ => wordBytes_eq x

theorem hexDigit_eq : ∀ n < 16, digits.getD n 0 = hexDigit n := by decide

theorem sha256Hex_eq (digest : Bytes) : sha256Hex digest = hex digest ++ [0] := by
  unfold sha256Hex hex
  congr 1
  refine List.flatMap_congr fun d _ => ?_
  have hd := d.toNat_lt
  have hhigh : (d >>> 4).toNat = d.toNat / 16 := by
    rw [UInt8.toNat_shiftRight]
    simp only [UInt8.reduceToNat, Nat.reduceMod, Nat.shiftRight_eq_div_pow, Nat.reducePow]
  have hlow : (d &&& 0x0F).toNat = d.toNat % 16 := by
    rw [UInt8.toNat_and]
    exact Nat.and_two_pow_sub_one_eq_mod d.toNat 4
  rw [hhigh, hlow, hexDigit_eq _ (by omega), hexDigit_eq _ (by omega)]

/-- **SHA-256.**  Whatever the context held before, and however the bytes are cut. -/
theorem sha256_digest {m : Bytes} (h : m.length < 2 ^ 61) (chunks : List Bytes) (hm : chunks.flatten = m)
    (context : Context) :
    (sha256Final (chunks.foldl sha256Update (sha256Init context))).1 = sha256 m ∧
      sha256Hex (sha256Final (chunks.foldl sha256Update (sha256Init context))).1 = hex (sha256 m) ++ [0] ∧
      (sha256Final (chunks.foldl sha256Update (sha256Init context))).2.totalBytes = UInt64.ofNat m.length := by
  subst hm
  obtain ⟨habsorbed, htotal⟩ := absorbed_updates context chunks
  obtain ⟨hdigest, hcount⟩ := habsorbed.final htotal h
  rw [hdigest, sha256Hex_eq]
  exact ⟨rfl, rfl, hcount.trans htotal⟩

/-- A context in fresh memory. -/
def blank : Context := ⟨initial, 0, List.replicate 64 0, 0, List.length_replicate, by decide⟩

theorem sha256_digest_abc :
    (sha256Final ([ascii "a", [], ascii "bc"].foldl sha256Update (sha256Init blank))).1 = sha256 (ascii "abc") :=
  (@sha256_digest (ascii "abc") (by decide) [ascii "a", [], ascii "bc"] (by decide) blank).1

example : sha256Hex (sha256Final (sha256Update (sha256Init blank) (ascii "abc"))).1 =
    ascii "ba7816bf8f01cfea414140de5dae2223b00361a396177a9cb410ff61f20015ad" ++ [0] := by decide +kernel

end Hamn.Digest
