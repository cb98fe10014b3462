import Mathlib

/-!
# Sha2 — SHA-256 as FIPS 180-4 defines it

* `ch` … `sigma1`: the functions of section 4.1.2; `K`, `initial`: the constants of sections 4.2.2 and 5.3.3, as the
  fractions of roots of primes.
* `pad`, `blocks`: sections 5.1.1 and 5.2.1; `schedule`, `compress`: section 6.2.2.
* `sha256`: the digest of a byte string; `hex`: its lowercase form.
-/

namespace Sha2

/-! ## Functions and constants -/

def rotr (n : ℕ) (x : UInt32) : UInt32 := ⟨x.toBitVec.rotateRight n⟩

def ch (x y z : UInt32) : UInt32 := (x &&& y) ^^^ (~~~x &&& z)

def maj (x y z : UInt32) : UInt32 := (x &&& y) ^^^ (x &&& z) ^^^ (y &&& z)

def bigSigma0 (x : UInt32) : UInt32 := rotr 2 x ^^^ rotr 13 x ^^^ rotr 22 x

def bigSigma1 (x : UInt32) : UInt32 := rotr 6 x ^^^ rotr 11 x ^^^ rotr 25 x

def sigma0 (x : UInt32) : UInt32 := rotr 7 x ^^^ rotr 18 x ^^^ (x >>> 3)

def sigma1 (x : UInt32) : UInt32 := rotr 17 x ^^^ rotr 19 x ^^^ (x >>> 10)

/-- The first sixty-four primes. -/
def primes : List ℕ := (List.range 312).filter Nat.Prime

/-- The first 32 bits of the fraction of the `n`-th root. -/
@[irreducible] def fraction (n p : ℕ) : UInt32 := UInt32.ofNat (Nat.nthRoot n (p * 2 ^ (32 * n)))

def K (t : ℕ) : UInt32 := fraction 3 (primes.getD t 0)

structure Hash where
  a : UInt32
  b : UInt32
  c : UInt32
  d : UInt32
  e : UInt32
  f : UInt32
  g : UInt32
  h : UInt32
  deriving DecidableEq

def Hash.words (s : Hash) : List UInt32 := [s.a, s.b, s.c, s.d, s.e, s.f, s.g, s.h]

def initialWord (i : ℕ) : UInt32 := fraction 2 (primes.getD i 0)

def initial : Hash :=
  ⟨initialWord 0, initialWord 1, initialWord 2, initialWord 3, initialWord 4, initialWord 5, initialWord 6,
    initialWord 7⟩

/-! ## Padding and blocks -/

/-- A number in `count` bytes, the most significant one first. -/
def bigEndian (count n : ℕ) : List UInt8 := (List.range count).map fun i => UInt8.ofNat (n / 256 ^ (count - 1 - i))

/-- The zeros that are needed up to 8 bytes before the end of a block. -/
def padZeros (length : ℕ) : ℕ := (119 - length % 64) % 64

def pad (m : List UInt8) : List UInt8 :=
  m ++ 0x80 :: (List.replicate (padZeros m.length) 0 ++ bigEndian 8 (8 * m.length))

def blocks (text : List UInt8) : List (List UInt8) :=
  (List.range (text.length / 64)).map fun i => (text.drop (64 * i)).take 64

/-! ## The digest -/

/-- Four bytes as a word, the most significant one first. -/
def word (bytes : List UInt8) : UInt32 := UInt32.ofNat (bytes.foldl (fun n c => n * 256 + c.toNat) 0)

def messageWord (block : List UInt8) (t : ℕ) : UInt32 := word ((block.drop (4 * t)).take 4)

def schedule (M : ℕ → UInt32) (t : ℕ) : UInt32 :=
  if t < 16 then M t
  else sigma1 (schedule M (t - 2)) + schedule M (t - 7) + sigma0 (schedule M (t - 15)) + schedule M (t - 16)
termination_by t

def round (k w : UInt32) (s : Hash) : Hash :=
  let t1 := s.h + bigSigma1 s.e + ch s.e s.f s.g + k + w
  let t2 := bigSigma0 s.a + maj s.a s.b s.c
  ⟨t1 + t2, s.a, s.b, s.c, s.d + t1, s.e, s.f, s.g⟩

def compress (s : Hash) (block : List UInt8) : Hash :=
  let r := (List.range 64).foldl (fun r t => round (K t) (schedule (messageWord block) t) r) s
  ⟨s.a + r.a, s.b + r.b, s.c + r.c, s.d + r.d, s.e + r.e, s.f + r.f, s.g + r.g, s.h + r.h⟩

def sha256 (m : List UInt8) : List UInt8 :=
  ((blocks (pad m)).foldl compress initial).words.flatMap fun x => bigEndian 4 x.toNat

def hexDigit (n : ℕ) : UInt8 := UInt8.ofNat n.digitChar.toNat

def hex (digest : List UInt8) : List UInt8 :=
  digest.flatMap fun d => [hexDigit (d.toNat / 16), hexDigit (d.toNat % 16)]

/-! ## Facts -/

theorem length_primes : primes.length = 64 := by decide +kernel

theorem length_bigEndian (count n : ℕ) : (bigEndian count n).length = count := by
  unfold bigEndian
  rw [List.length_map, List.length_range]

/-- The zeros are the fewest that do. -/
theorem padZeros_spec (length : ℕ) : (length + 1 + padZeros length) % 64 = 56 ∧ padZeros length < 64 := by
  unfold padZeros
  omega

theorem length_pad (m : List UInt8) : (pad m).length % 64 = 0 := by
  have h := padZeros_spec m.length
  unfold pad
  rw [List.length_append, List.length_cons, List.length_append, List.length_replicate, length_bigEndian]
  omega

theorem blocks_nil : blocks [] = [] := rfl

/-- One more block. -/
theorem blocks_append {front block : List UInt8} (hfront : front.length % 64 = 0) (hblock : block.length = 64) :
    blocks (front ++ block) = blocks front ++ [block] := by
  obtain ⟨n, hn⟩ := Nat.dvd_of_mod_eq_zero hfront
  have hcount : (front ++ block).length / 64 = n + 1 := by
    rw [List.length_append]
    omega
  have hcount' : front.length / 64 = n := by omega
  unfold blocks
  rw [hcount, hcount', List.range_succ, List.map_append, List.map_singleton]
  congr 1
  · refine List.map_congr_left fun i hi => ?_
    have hlt := List.mem_range.mp hi
    rw [List.drop_append_of_le_length (by omega), List.take_append_of_le_length (by rw [List.length_drop]; omega)]
  · rw [← hn, List.drop_left, ← hblock, List.take_length]

end Sha2
