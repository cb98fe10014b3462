import Hamn.Lib.Result

/-!
# Qcow2 — the read-only qcow2 to raw extractor (`host/image/qcow2.c`)

A file is its size and its bytes.  Buffers filled by `full_pread` are functions of the index, since an L1 table may
take 32 GiB.  64-bit values are naturals; where the code's `uint64_t` arithmetic can wrap (the L1 size check and the
virtual offset of a cluster) the reduction modulo `2 ^ 64` is written out, everywhere else the operands are too small
for it.  System calls succeed, except where the arguments decide that they cannot: a failed call only makes the
function return -1, and every statement below is about runs that return 0.  `inflate` is zlib's, a parameter.
-/

open Result

namespace Hamn.Qcow2

structure File where
  size : ℕ
  byte : ℕ → UInt8

abbrev Buf := ℕ → UInt8

def QCOW2_MAGIC : ℕ := 0x514649fb
def ENTRY_OFFSET_MASK : ℕ := 0x00fffffffffffe00
def L2E_COMPRESSED : ℕ := 1 <<< 62
def L2E_ZERO : ℕ := 1

def rbe32 (p : Buf) (o : ℕ) : ℕ :=
  (p o).toNat <<< 24 ||| (p (o + 1)).toNat <<< 16 ||| (p (o + 2)).toNat <<< 8 ||| (p (o + 3)).toNat

def rbe64 (p : Buf) (o : ℕ) : ℕ := rbe32 p o <<< 32 ||| rbe32 p (o + 4)

def fullPread (f : File) (n off : ℕ) : Except String Buf :=
  if off > f.size ∨ n > f.size - off then
    .error ("qcow2: read beyond end of file (off=" ++ toString off ++ " len=" ++ toString n ++ " size=" ++
      toString f.size ++ ")")
  else .ok fun k => f.byte (off + k)

def fullPwrite (out : File) (buf : Buf) (n off : ℕ) : File where
  size := max out.size (off + n)
  byte o := if off ≤ o ∧ o < off + n then buf (o - off) else out.byte o

def Z_OK : ℤ := 0
def Z_STREAM_END : ℤ := 1
def Z_BUF_ERROR : ℤ := -5

/-- `inflate(&zs, Z_FINISH)` on a raw deflate stream with room for `outLen` bytes: its return and what it produced. -/
abbrev Inflate := List UInt8 → ℕ → ℤ × List UInt8

def inflateCluster (inflate : Inflate) (inp : Buf) (inLen outLen : ℕ) : Except String Buf :=
  let (zr, produced) := inflate ((List.range inLen).map inp) outLen
  let availOut := outLen - produced.length
  let ok := zr == Z_STREAM_END || ((zr == Z_OK || zr == Z_BUF_ERROR) && availOut == 0)
  if !ok || produced.length != outLen then
    .error ("qcow2: bad compressed cluster (zr=" ++ toString zr ++ " produced=" ++ toString produced.length ++
      " want=" ++ toString outLen ++ ")")
  else .ok fun k => produced.getD k 0

/-! ## The header -/

/-- The header fields that the extraction uses. -/
structure Header where
  clusterBits : ℕ
  size : ℕ
  l1Size : ℕ
  l1Off : ℕ
  deriving DecidableEq, Repr

namespace Header

variable (h : Header)

def clusterSize : ℕ := 2 ^ h.clusterBits

def l2Entries : ℕ := h.clusterSize / 8

/-- `need_l1`, with the wrap of the 64-bit sum. -/
def needL1 : ℕ :=
  (h.size + h.clusterSize * h.l2Entries - 1) % 2 ^ 64 / (h.clusterSize * h.l2Entries)

end Header

def headerBuf (f : File) : Except String Buf := do
  refuse (f.size < 72) "qcow2: file too small"
  let n := if f.size ≥ 112 then 112 else 72
  let p ← fullPread f n 0
  return fun k => if k < n then p k else 0

def readHeader (f : File) : Except String Header := do
  let hdr ← headerBuf f
  refuse (rbe32 hdr 0 ≠ QCOW2_MAGIC) "qcow2: bad magic (not a qcow2 image)"
  let version := rbe32 hdr 4
  refuse (version ≠ 2 ∧ version ≠ 3) ("qcow2: unsupported version " ++ toString version)
  refuse (rbe64 hdr 8 ≠ 0) "qcow2: backing file not supported"
  let h : Header := ⟨rbe32 hdr 20, rbe64 hdr 24, rbe32 hdr 36, rbe64 hdr 40⟩
  refuse (h.clusterBits < 9 ∨ h.clusterBits > 22) ("qcow2: implausible cluster_bits " ++ toString h.clusterBits)
  refuse (rbe32 hdr 32 ≠ 0) "qcow2: encrypted image not supported"
  refuse (version = 3 ∧ rbe64 hdr 72 ≠ 0)
    ("qcow2: unsupported incompatible features 0x" ++ String.ofList (Nat.toDigits 16 (rbe64 hdr 72)) ++
      " (extended L2 / external data / zstd?)")
  refuse (h.l1Size < h.needL1)
    ("qcow2: L1 table too small (" ++ toString h.l1Size ++ " < " ++ toString h.needL1 ++ ")")
  return h

/-! ## The table walk -/

section Walk

variable (inflate : Inflate) (f : File) (h : Header)

/-- The masked fields of a compressed L2 entry: where its sectors start and how many bytes are read. -/
def compressedExtent (bits e : ℕ) : ℕ × ℕ :=
  let x := 62 - (bits - 8)
  let coff := e &&& ((1 <<< x) - 1)
  let nsec := ((e >>> x) &&& ((1 <<< (62 - x)) - 1)) + 1
  (coff, nsec * 512 - (coff &&& 511))

/-- The bytes of the cluster at `voff` that the virtual disk has: the last one may be partial. -/
def want (voff : ℕ) : ℕ := if h.size - voff < h.clusterSize then h.size - voff else h.clusterSize

/-- The body of the inner loop, once `voff` is known to lie below the virtual size. -/
def cluster (voff e : ℕ) (out : File) : Except String File := do
  if e &&& L2E_COMPRESSED ≠ 0 then
    let (coff, csize) := compressedExtent h.clusterBits e
    refuse (csize > h.clusterSize + 4096) ("qcow2: compressed cluster too large (" ++ toString csize ++ ")")
    let cbuf ← fullPread f csize coff
    let data ← inflateCluster inflate cbuf csize h.clusterSize
    return fullPwrite out data (want h voff) voff
  else
    let hoff := e &&& ENTRY_OFFSET_MASK
    if e &&& L2E_ZERO ≠ 0 ∨ hoff = 0 then return out
    else
      let data ← fullPread f (want h voff) hoff
      if (List.range (want h voff)).all (fun k => data k == 0) then return out
      else return fullPwrite out data (want h voff) voff

/-- The virtual offset of cluster `j` of L2 table `i`, in the code's 64-bit arithmetic. -/
def voff (i j : ℕ) : ℕ := (i * h.l2Entries + j) * h.clusterSize % 2 ^ 64

def l2Loop (i : ℕ) (l2 : Buf) : List ℕ → File → Except String File
  | [], out => .ok out
  | j :: js, out =>
    if voff h i j ≥ h.size then .ok out
    else do
      let out ← cluster inflate f h (voff h i j) (rbe64 l2 (j * 8)) out
      l2Loop i l2 js out

def l1Loop (l1 : ℕ → ℕ) : List ℕ → File → Except String File
  | [], out => .ok out
  | i :: is, out => do
    let l2Off := l1 i &&& ENTRY_OFFSET_MASK
    if l2Off = 0 then l1Loop l1 is out
    else
      let l2 ← fullPread f h.clusterSize l2Off
      let out ← l2Loop inflate f h i l2 (List.range h.l2Entries) out
      l1Loop l1 is out

/-- From the open output on: `ftruncate` (which refuses a size that is negative as an `off_t`), then the loops. -/
def extractTables (l1 : ℕ → ℕ) : Except String File := do
  refuse (h.size ≥ 2 ^ 63) "ftruncate: Invalid argument"
  l1Loop inflate f h l1 (List.range h.l1Size) ⟨h.size, fun _ => 0⟩

end Walk

/-- The L1 table as read: entry `i` of the buffer. -/
def l1Table (f : File) (h : Header) (i : ℕ) : ℕ := rbe64 (fun k => f.byte (h.l1Off + k)) (i * 8)

/-- `qcow2_extract_fd`: the raw file it leaves when it returns 0, and the message otherwise. -/
def qcow2ExtractFd (inflate : Inflate) (f : File) : Except String File := do
  let h ← readHeader f
  let _ ← if h.l1Size > 0 then fullPread f (h.l1Size * 8) h.l1Off else .ok fun _ => 0
  extractTables inflate f h (l1Table f h)

/-! ## The virtual disk that a qcow2 image describes -/

/-- Byte `k` of the cluster that the L2 entry `e` maps, if its compressed data can be inflated. -/
def clusterByte (inflate : Inflate) (f : File) (bits e k : ℕ) : Option UInt8 :=
  if e.testBit 62 then
    let (coff, csize) := compressedExtent bits e
    match inflateCluster inflate (fun i => f.byte (coff + i)) csize (2 ^ bits) with
    | .ok data => some (data k)
    | .error _ => none
  else if e.testBit 0 ∨ e &&& ENTRY_OFFSET_MASK = 0 then some 0
  else some (f.byte ((e &&& ENTRY_OFFSET_MASK) + k))

/-- Byte `v` of the virtual disk under the L1 table `l1`. -/
def virtualByte (inflate : Inflate) (f : File) (bits : ℕ) (l1 : ℕ → ℕ) (v : ℕ) : Option UInt8 :=
  let c := 2 ^ bits
  let l2Off := l1 (v / (c * c / 8)) &&& ENTRY_OFFSET_MASK
  if l2Off = 0 then some 0
  else clusterByte inflate f bits (rbe64 (fun k => f.byte (l2Off + k)) (v / c % (c / 8) * 8)) (v % c)

end Hamn.Qcow2
