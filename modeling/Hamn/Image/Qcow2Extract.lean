import Hamn.Image.Qcow2

/-!
# Qcow2Extract — when the extractor writes the virtual disk

`Extracted k out`: the bytes of the first `k` clusters of the virtual disk are in `out`, the rest of `out` is still
zero.  As long as no virtual offset wraps (`NoWrap`), the two loops visit the clusters in order and advance `k`, so
a run that returns 0 leaves exactly the virtual disk (`extractTables_virtual`).

With `l1_size` entries of `c * c / 8` bytes each, an entry at index `2 ^ 64 / (c * c / 8)` or later has a virtual
offset that wraps to a small value, passes the `voff >= size` test and overwrites clusters that belong to other L1
entries: hence the hypothesis.
-/

open Result

namespace Hamn.Qcow2

theorem fullPread_eq_ok {f : File} {n off : ℕ} {p : Buf} :
    fullPread f n off = .ok p ↔ off ≤ f.size ∧ n ≤ f.size - off ∧ p = fun k => f.byte (off + k) := by
  unfold fullPread
  split_ifs with h
  · constructor
    · intro h'; cases h'
    · rintro ⟨h1, h2, -⟩; omega
  · simp only [Except.ok.injEq]
    constructor
    · rintro rfl; exact ⟨by omega, by omega, rfl⟩
    · rintro ⟨-, -, rfl⟩; rfl

theorem and_compressed (e : ℕ) : e &&& L2E_COMPRESSED ≠ 0 ↔ e.testBit 62 = true := by
  have h : L2E_COMPRESSED = 2 ^ 62 := by decide
  rw [h, Nat.and_two_pow]
  cases e.testBit 62 <;> simp

theorem and_zero (e : ℕ) : e &&& L2E_ZERO ≠ 0 ↔ e.testBit 0 = true := by
  have h : L2E_ZERO = 1 := rfl
  rw [h, Nat.and_one_is_mod, Nat.testBit_zero]
  simp

/-! ## One cluster -/

section Cluster

variable {inflate : Inflate} {f : File} {h : Header}

theorem want_le {voff : ℕ} : want h voff ≤ h.clusterSize := by
  unfold want; split_ifs <;> omega

theorem lt_want {voff v : ℕ} (h1 : voff ≤ v) (h2 : v < voff + h.clusterSize) (h3 : v < h.size) :
    v - voff < want h voff := by
  unfold want; split_ifs <;> omega

theorem voff_add_want {voff : ℕ} (hv : voff < h.size) : voff + want h voff ≤ h.size := by
  unfold want; split_ifs <;> omega

theorem fullPwrite_size {out : File} {data : Buf} {voff : ℕ} (hv : voff < h.size) (hs : out.size = h.size) :
    (fullPwrite out data (want h voff) voff).size = h.size := by
  have := voff_add_want hv
  simp only [fullPwrite, hs]
  omega

theorem fullPwrite_byte {out : File} {data : Buf} {n voff v : ℕ} (h1 : voff ≤ v) (h2 : v - voff < n) :
    (fullPwrite out data n voff).byte v = data (v - voff) := by
  simp only [fullPwrite]
  rw [if_pos ⟨h1, by omega⟩]

theorem fullPwrite_byte_out {out : File} {data : Buf} {n voff v : ℕ} (hv : v < voff ∨ voff + n ≤ v) :
    (fullPwrite out data n voff).byte v = out.byte v := by
  simp only [fullPwrite]
  rw [if_neg (by omega)]

/-- **One cluster**: the size stays, bytes outside the cluster stay, and over a zero range the cluster's bytes appear. -/
theorem cluster_ok {voff e : ℕ} {out out' : File} (hc : cluster inflate f h voff e out = .ok out')
    (hv : voff < h.size) (hs : out.size = h.size) :
    out'.size = h.size ∧ (∀ v, v < voff ∨ voff + h.clusterSize ≤ v ∨ h.size ≤ v → out'.byte v = out.byte v) ∧
      ((∀ v, voff ≤ v → out.byte v = 0) → ∀ v, voff ≤ v → v < voff + h.clusterSize → v < h.size →
        clusterByte inflate f h.clusterBits e (v - voff) = some (out'.byte v)) := by
  have hw : want h voff ≤ h.clusterSize := want_le
  have hw' := voff_add_want hv
  unfold cluster at hc
  by_cases hcomp : e &&& L2E_COMPRESSED ≠ 0
  · -- a compressed entry
    rw [if_pos hcomp] at hc
    simp only [bind_eq_ok, refuse_eq_ok] at hc
    obtain ⟨-, -, cbuf, hread, data, hinf, hout⟩ := hc
    cases hout
    obtain ⟨-, -, rfl⟩ := fullPread_eq_ok.mp hread
    refine ⟨fullPwrite_size hv hs, fun v hv' => fullPwrite_byte_out (by omega), ?_⟩
    intro _ v h1 h2 h3
    rw [clusterByte, if_pos ((and_compressed e).mp hcomp)]
    have hinf' : inflateCluster inflate (fun i => f.byte ((compressedExtent h.clusterBits e).1 + i))
        (compressedExtent h.clusterBits e).2 (2 ^ h.clusterBits) = .ok data := hinf
    simp only [hinf']
    exact congrArg some (fullPwrite_byte h1 (lt_want h1 h2 h3)).symm
  · rw [if_neg hcomp] at hc
    have hbit : e.testBit 62 ≠ true := fun hb => hcomp ((and_compressed e).mpr hb)
    by_cases hzero : e &&& L2E_ZERO ≠ 0 ∨ e &&& ENTRY_OFFSET_MASK = 0
    · -- an unallocated or zero cluster
      simp only [if_pos hzero] at hc
      cases hc
      refine ⟨hs, fun _ _ => rfl, fun hz v h1 _ _ => ?_⟩
      have hz' : e.testBit 0 = true ∨ e &&& ENTRY_OFFSET_MASK = 0 := hzero.imp_left (and_zero e).mp
      rw [clusterByte, if_neg hbit, if_pos hz', hz v h1]
    · -- a standard cluster; a cluster of zeros is not written
      simp only [if_neg hzero, bind_eq_ok] at hc
      obtain ⟨data, hread, hc⟩ := hc
      obtain ⟨-, -, rfl⟩ := fullPread_eq_ok.mp hread
      have hnz : ¬ (e.testBit 0 = true ∨ e &&& ENTRY_OFFSET_MASK = 0) :=
        fun hn => hzero (hn.imp_left (and_zero e).mpr)
      split_ifs at hc with hall
      · cases hc
        refine ⟨hs, fun _ _ => rfl, fun hz v h1 h2 h3 => ?_⟩
        rw [clusterByte, if_neg hbit, if_neg hnz, hz v h1]
        have := List.all_eq_true.mp hall (v - voff) (List.mem_range.mpr (lt_want h1 h2 h3))
        simpa using this
      · cases hc
        refine ⟨fullPwrite_size hv hs, fun v hv' => fullPwrite_byte_out (by omega), ?_⟩
        intro _ v h1 h2 h3
        rw [clusterByte, if_neg hbit, if_neg hnz, fullPwrite_byte h1 (lt_want h1 h2 h3)]

end Cluster

/-! ## The geometry of the tables -/

section Geometry

/-- Header fields that `readHeader` and `ftruncate` let through. -/
structure Accepted (h : Header) : Prop where
  bits_ge : 9 ≤ h.clusterBits
  bits_le : h.clusterBits ≤ 22
  size_lt : h.size < 2 ^ 63
  l1Size_lt : h.l1Size < 2 ^ 32
  covers : h.size ≤ h.l1Size * (h.clusterSize * h.l2Entries)

variable {h : Header}

theorem clusterSize_eq (hb : 9 ≤ h.clusterBits) : h.clusterSize = 8 * h.l2Entries := by
  obtain ⟨k, hk⟩ := Nat.exists_eq_add_of_le hb
  simp only [Header.l2Entries, Header.clusterSize, hk, Nat.pow_add]
  omega

theorem l2Entries_pos (hb : 9 ≤ h.clusterBits) : 0 < h.l2Entries := by
  have h1 := clusterSize_eq hb
  have h2 : 0 < h.clusterSize := Nat.two_pow_pos _
  omega

/-- The bytes that one L1 entry covers. -/
theorem l1_span (hb : 9 ≤ h.clusterBits) : h.clusterSize * h.clusterSize / 8 = h.clusterSize * h.l2Entries := by
  have h1 := clusterSize_eq hb
  conv_lhs => rw [show h.clusterSize * h.clusterSize = 8 * (h.clusterSize * h.l2Entries) by
    conv_lhs => rw [h1]
    rw [h1]; ring]
  omega

/-- The coordinates of byte `r` of cluster `j` of L2 table `i`. -/
theorem coords (hb : 9 ≤ h.clusterBits) {i j r : ℕ} (hj : j < h.l2Entries) (hr : r < h.clusterSize) :
    let v := (i * h.l2Entries + j) * h.clusterSize + r
    v / (h.clusterSize * h.clusterSize / 8) = i ∧ v / h.clusterSize % (h.clusterSize / 8) = j ∧
      v % h.clusterSize = r := by
  intro v
  have hc : 0 < h.clusterSize := Nat.two_pow_pos _
  have hv : v / h.clusterSize = i * h.l2Entries + j := by
    rw [show v = r + h.clusterSize * (i * h.l2Entries + j) by simp only [v]; ring, Nat.add_mul_div_left _ _ hc,
      Nat.div_eq_of_lt hr, Nat.zero_add]
  refine ⟨?_, ?_, ?_⟩
  · rw [l1_span hb, ← Nat.div_div_eq_div_mul, hv, Nat.add_comm, Nat.add_mul_div_right _ _ (l2Entries_pos hb),
      Nat.div_eq_of_lt hj, Nat.zero_add]
  · change v / h.clusterSize % h.l2Entries = j
    rw [hv, Nat.add_comm, Nat.add_mul_mod_self_right, Nat.mod_eq_of_lt hj]
  · rw [show v = r + h.clusterSize * (i * h.l2Entries + j) by simp only [v]; ring, Nat.add_mul_mod_self_left,
      Nat.mod_eq_of_lt hr]

/-- No virtual offset of the table reaches `2 ^ 64`. -/
def NoWrap (h : Header) : Prop := h.l1Size * (h.clusterSize * h.l2Entries) ≤ 2 ^ 64

theorem voff_of_noWrap (hw : NoWrap h) {i j : ℕ} (hi : i < h.l1Size)
    (hj : j < h.l2Entries) : voff h i j = (i * h.l2Entries + j) * h.clusterSize := by
  have h1 : i * h.l2Entries + j + 1 ≤ h.l1Size * h.l2Entries := by nlinarith
  have h2 := Nat.mul_le_mul_right h.clusterSize h1
  have h3 : h.l1Size * h.l2Entries * h.clusterSize ≤ 2 ^ 64 := by
    unfold NoWrap at hw
    calc h.l1Size * h.l2Entries * h.clusterSize = h.l1Size * (h.clusterSize * h.l2Entries) := by ring
      _ ≤ 2 ^ 64 := hw
  have h4 : 0 < h.clusterSize := Nat.two_pow_pos _
  rw [Nat.add_mul, Nat.one_mul] at h2
  exact Nat.mod_eq_of_lt (by omega)

end Geometry

/-! ## The loops -/

section Loops

variable {inflate : Inflate} {f : File} {h : Header} {l1 : ℕ → ℕ}

/-- The first `k` clusters of the virtual disk are in `out`, and nothing else was written. -/
structure Extracted (inflate : Inflate) (f : File) (h : Header) (l1 : ℕ → ℕ) (k : ℕ) (out : File) : Prop where
  size_eq : out.size = h.size
  done : ∀ v < h.size, v < k * h.clusterSize → virtualByte inflate f h.clusterBits l1 v = some (out.byte v)
  rest : ∀ v, k * h.clusterSize ≤ v → out.byte v = 0

theorem Extracted.skip {k k' : ℕ} {out : File} (hx : Extracted inflate f h l1 k out) (hk : k ≤ k')
    (hz : ∀ v < h.size, k * h.clusterSize ≤ v → v < k' * h.clusterSize →
      virtualByte inflate f h.clusterBits l1 v = some 0) : Extracted inflate f h l1 k' out := by
  have hle := Nat.mul_le_mul_right h.clusterSize hk
  refine ⟨hx.size_eq, fun v hv hvk => ?_, fun v hv => hx.rest v (by omega)⟩
  by_cases hlt : v < k * h.clusterSize
  · exact hx.done v hv hlt
  · rw [hx.rest v (by omega)]
    exact hz v hv (by omega) hvk

/-- Splits a virtual offset of L2 table `i` into cluster and byte. -/
theorem exists_coords {i v : ℕ} (h1 : i * h.l2Entries * h.clusterSize ≤ v)
    (h2 : v < (i * h.l2Entries + h.l2Entries) * h.clusterSize) :
    ∃ j r, j < h.l2Entries ∧ r < h.clusterSize ∧ v = (i * h.l2Entries + j) * h.clusterSize + r := by
  have hc : 0 < h.clusterSize := Nat.two_pow_pos _
  have h3 : i * h.l2Entries ≤ v / h.clusterSize := (Nat.le_div_iff_mul_le hc).mpr h1
  have h4 : v / h.clusterSize < i * h.l2Entries + h.l2Entries := (Nat.div_lt_iff_lt_mul hc).mpr h2
  refine ⟨v / h.clusterSize - i * h.l2Entries, v % h.clusterSize, by omega, Nat.mod_lt _ hc, ?_⟩
  rw [show i * h.l2Entries + (v / h.clusterSize - i * h.l2Entries) = v / h.clusterSize by omega]
  have := Nat.div_add_mod v h.clusterSize
  rw [Nat.mul_comm] at this
  omega

theorem Extracted.cluster_step (hb : 9 ≤ h.clusterBits) {i j : ℕ} {out out' : File}
    (hx : Extracted inflate f h l1 (i * h.l2Entries + j) out) (hj : j < h.l2Entries)
    (hl : l1 i &&& ENTRY_OFFSET_MASK ≠ 0) (hv : (i * h.l2Entries + j) * h.clusterSize < h.size)
    (hc : cluster inflate f h ((i * h.l2Entries + j) * h.clusterSize)
      (rbe64 (fun k => f.byte ((l1 i &&& ENTRY_OFFSET_MASK) + k)) (j * 8)) out = .ok out') :
    Extracted inflate f h l1 (i * h.l2Entries + (j + 1)) out' := by
  obtain ⟨hs, hkeep, hnew⟩ := cluster_ok hc hv hx.size_eq
  have hk : (i * h.l2Entries + (j + 1)) * h.clusterSize =
      (i * h.l2Entries + j) * h.clusterSize + h.clusterSize := by ring
  refine ⟨hs, fun v hvs hvk => ?_, fun v hvk => ?_⟩
  · by_cases hlt : v < (i * h.l2Entries + j) * h.clusterSize
    · rw [hkeep v (Or.inl hlt)]
      exact hx.done v hvs hlt
    · -- a byte of this cluster
      obtain ⟨r, hr⟩ := Nat.exists_eq_add_of_le (Nat.le_of_not_lt hlt)
      have hrc : r < h.clusterSize := by omega
      obtain ⟨c1, c2, c3⟩ := coords hb hj hrc (i := i)
      have := hnew hx.rest v (by omega) (by omega) hvs
      rw [← this, hr]
      unfold virtualByte
      simp only [Header.clusterSize] at c1 c2 c3 ⊢
      simp only [c1, c2, c3]
      rw [if_neg hl, Nat.add_sub_cancel_left]
  · rw [hkeep v (Or.inr (Or.inl (by omega)))]
    exact hx.rest v (by omega)

theorem l2Loop_extracted (hb : 9 ≤ h.clusterBits) (hw : NoWrap h) {i : ℕ} (hi : i < h.l1Size)
    (hl : l1 i &&& ENTRY_OFFSET_MASK ≠ 0) :
    ∀ (n j : ℕ) (out out' : File), j + n = h.l2Entries → Extracted inflate f h l1 (i * h.l2Entries + j) out →
      l2Loop inflate f h i (fun k => f.byte ((l1 i &&& ENTRY_OFFSET_MASK) + k)) (List.range' j n) out = .ok out' →
      Extracted inflate f h l1 (i * h.l2Entries + h.l2Entries) out'
  | 0, j, out, out', hjn, hx, hr => by
    cases hr
    rwa [show j = h.l2Entries by omega] at hx
  | n + 1, j, out, out', hjn, hx, hr => by
    have hvoff := voff_of_noWrap hw hi (j := j) (by omega)
    rw [List.range'_succ, l2Loop, hvoff] at hr
    split_ifs at hr with hge
    · -- `voff >= size`: everything below the virtual size is done
      cases hr
      refine hx.skip (by omega) fun v hv h1 _ => ?_
      omega
    · obtain ⟨o, ho, hr⟩ := bind_eq_ok.mp hr
      have hx' := hx.cluster_step hb (by omega) hl (by omega) ho
      exact l2Loop_extracted hb hw hi hl n (j + 1) o out' (by omega) hx' hr

theorem l1Loop_extracted (hb : 9 ≤ h.clusterBits) (hw : NoWrap h) :
    ∀ (n i : ℕ) (out out' : File), i + n = h.l1Size → Extracted inflate f h l1 (i * h.l2Entries) out →
      l1Loop inflate f h l1 (List.range' i n) out = .ok out' →
      Extracted inflate f h l1 (h.l1Size * h.l2Entries) out'
  | 0, i, out, out', hin, hx, hr => by
    cases hr
    rwa [← hin, Nat.add_zero]
  | n + 1, i, out, out', hin, hx, hr => by
    have hnext : (i + 1) * h.l2Entries = i * h.l2Entries + h.l2Entries := by ring
    rw [List.range'_succ, l1Loop] at hr
    by_cases hl : l1 i &&& ENTRY_OFFSET_MASK = 0
    · -- the whole range of this entry is a hole
      simp only [if_pos hl] at hr
      refine l1Loop_extracted hb hw n (i + 1) out out' (by omega) (hx.skip (by rw [hnext]; omega) ?_) hr
      intro v _ h1 h2
      rw [hnext] at h2
      obtain ⟨j, r, hj, hr, rfl⟩ := exists_coords h1 h2
      obtain ⟨c1, -, -⟩ := coords hb hj hr (i := i)
      unfold virtualByte
      simp only [Header.clusterSize] at c1 ⊢
      simp only [c1, if_pos hl]
    · simp only [if_neg hl] at hr
      obtain ⟨l2, hl2, hr1⟩ := bind_eq_ok.mp hr
      obtain ⟨o, ho, hr2⟩ := bind_eq_ok.mp hr1
      obtain ⟨-, -, rfl⟩ := fullPread_eq_ok.mp hl2
      rw [List.range_eq_range'] at ho
      have hx' := l2Loop_extracted hb hw (by omega) hl h.l2Entries 0 out o (by omega) (by simpa using hx) ho
      rw [← hnext] at hx'
      exact l1Loop_extracted hb hw n (i + 1) o out' (by omega) hx' hr2

/-- **The loops write the virtual disk**, whatever the L1 table holds, when no offset wraps. -/
theorem extractTables_virtual (ha : Accepted h) (hw : NoWrap h) {out : File}
    (hr : extractTables inflate f h l1 = .ok out) :
    out.size = h.size ∧ ∀ v < h.size, virtualByte inflate f h.clusterBits l1 v = some (out.byte v) := by
  simp only [extractTables, bind_eq_ok, refuse_eq_ok] at hr
  obtain ⟨-, -, hr⟩ := hr
  rw [List.range_eq_range'] at hr
  have h0 : Extracted inflate f h l1 (0 * h.l2Entries) ⟨h.size, fun _ => 0⟩ :=
    ⟨rfl, fun v _ hv => by simp at hv, fun _ _ => rfl⟩
  have hx := l1Loop_extracted ha.bits_ge hw h.l1Size 0 _ out (by omega) h0 hr
  refine ⟨hx.size_eq, fun v hv => hx.done v hv ?_⟩
  have := ha.covers
  calc v < h.l1Size * (h.clusterSize * h.l2Entries) := by omega
    _ = h.l1Size * h.l2Entries * h.clusterSize := by ring

end Loops

/-! ## The size of the output -/

section Size

variable {inflate : Inflate} {f : File} {h : Header}

theorem l2Loop_size {i : ℕ} {l2 : Buf} {js : List ℕ} {out out' : File} (hs : out.size = h.size)
    (hr : l2Loop inflate f h i l2 js out = .ok out') : out'.size = h.size := by
  induction js generalizing out with
  | nil =>
    cases hr
    exact hs
  | cons j js ih =>
    rw [l2Loop] at hr
    split_ifs at hr with hge
    · cases hr
      exact hs
    · obtain ⟨o, ho, hr⟩ := bind_eq_ok.mp hr
      exact ih (cluster_ok ho (Nat.lt_of_not_le hge) hs).1 hr

theorem l1Loop_size {l1 : ℕ → ℕ} {is : List ℕ} {out out' : File} (hs : out.size = h.size)
    (hr : l1Loop inflate f h l1 is out = .ok out') : out'.size = h.size := by
  induction is generalizing out with
  | nil =>
    cases hr
    exact hs
  | cons i is ih =>
    rw [l1Loop] at hr
    by_cases hl : l1 i &&& ENTRY_OFFSET_MASK = 0
    · simp only [if_pos hl] at hr
      exact ih hs hr
    · simp only [if_neg hl] at hr
      obtain ⟨l2, -, hr⟩ := bind_eq_ok.mp hr
      obtain ⟨o, ho, hr⟩ := bind_eq_ok.mp hr
      exact ih (l2Loop_size hs ho) hr

theorem readHeader_size (hr : readHeader f = .ok h) : h.size = rbe64 f.byte 24 := by
  simp only [readHeader, bind_eq_ok, refuse_eq_ok] at hr
  obtain ⟨hdr, hhdr, -, -, -, -, -, -, -, -, -, -, -, -, -, -, hr⟩ := hr
  cases hr
  have hword : ∀ k < 32, hdr k = f.byte k := by
    simp only [headerBuf, bind_eq_ok, refuse_eq_ok] at hhdr
    obtain ⟨-, hlen, p, hp, hpure⟩ := hhdr
    cases hpure
    obtain ⟨-, -, rfl⟩ := fullPread_eq_ok.mp hp
    intro k hk
    change (if k < (if f.size ≥ 112 then 112 else 72) then f.byte (0 + k) else 0) = f.byte k
    have hn : k < if f.size ≥ 112 then 112 else 72 := by
      split_ifs <;> omega
    rw [if_pos hn, Nat.zero_add]
  have hrbe : ∀ o, o + 4 ≤ 32 → rbe32 hdr o = rbe32 f.byte o := by
    intro o ho
    simp only [rbe32, hword o (by omega), hword (o + 1) (by omega), hword (o + 2) (by omega), hword (o + 3) (by omega)]
  rw [rbe64, hrbe 24 (by omega), hrbe (24 + 4) (by omega)]
  rfl

/-- The raw file has the virtual size of the header, whatever the tables hold. -/
theorem qcow2ExtractFd_size {out : File} (hr : qcow2ExtractFd inflate f = .ok out) : out.size = rbe64 f.byte 24 := by
  obtain ⟨h, hh, hr⟩ := bind_eq_ok.mp hr
  rw [← readHeader_size hh]
  have htables : extractTables inflate f h (l1Table f h) = .ok out := by
    by_cases hl : h.l1Size > 0
    · simp only [if_pos hl] at hr
      obtain ⟨-, -, hr⟩ := bind_eq_ok.mp hr
      exact hr
    · simp only [if_neg hl] at hr
      exact hr
  obtain ⟨-, -, hr⟩ := bind_eq_ok.mp htables
  exact l1Loop_size rfl hr

end Size

end Hamn.Qcow2
