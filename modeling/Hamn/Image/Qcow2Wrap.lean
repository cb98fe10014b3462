import Hamn.Image.Qcow2Extract

/-!
# Qcow2Wrap — headers whose L1 table covers more than `2 ^ 64` bytes

`wrapFile size bits l1Size` is a valid image that has one allocated L1 entry, at index `2 ^ 64 / span` (`span` being
the bytes one L1 entry covers), far behind the entries that `size` needs.  The virtual offset of its first cluster
is `2 ^ 64`, which the code computes as 0: the extractor writes that cluster over byte 0 of a disk whose own L1
entries are all unallocated.  Together with `extractTables_virtual` this decides, for the header fields alone, when
every image with these fields is extracted as the format says.
-/

open Result

namespace Hamn.Qcow2

/-! ## Big-endian fields -/

theorem rbe32_eq (p : Buf) (o : ℕ) : rbe32 p o =
    (p o).toNat * 2 ^ 24 + (p (o + 1)).toNat * 2 ^ 16 + (p (o + 2)).toNat * 2 ^ 8 + (p (o + 3)).toNat := by
  have h0 := (p o).toNat_lt
  have h1 := (p (o + 1)).toNat_lt
  have h2 := (p (o + 2)).toNat_lt
  have h3 := (p (o + 3)).toNat_lt
  unfold rbe32
  have e1 : (p o).toNat <<< 24 ||| (p (o + 1)).toNat <<< 16 = ((p o).toNat * 2 ^ 8 + (p (o + 1)).toNat) <<< 16 := by
    rw [← Nat.shiftLeft_add_eq_or_of_lt (by rw [Nat.shiftLeft_eq]; omega)]
    simp only [Nat.shiftLeft_eq]
    ring
  have e2 : ((p o).toNat * 2 ^ 8 + (p (o + 1)).toNat) <<< 16 ||| (p (o + 2)).toNat <<< 8 =
      (((p o).toNat * 2 ^ 8 + (p (o + 1)).toNat) * 2 ^ 8 + (p (o + 2)).toNat) <<< 8 := by
    rw [← Nat.shiftLeft_add_eq_or_of_lt (by rw [Nat.shiftLeft_eq]; omega)]
    simp only [Nat.shiftLeft_eq]
    ring
  rw [e1, e2, ← Nat.shiftLeft_add_eq_or_of_lt (by omega)]
  simp only [Nat.shiftLeft_eq]
  ring

theorem rbe32_lt (p : Buf) (o : ℕ) : rbe32 p o < 2 ^ 32 := by
  have h0 := (p o).toNat_lt
  have h1 := (p (o + 1)).toNat_lt
  have h2 := (p (o + 2)).toNat_lt
  have h3 := (p (o + 3)).toNat_lt
  rw [rbe32_eq]
  omega

theorem rbe64_eq (p : Buf) (o : ℕ) : rbe64 p o = rbe32 p o * 2 ^ 32 + rbe32 p (o + 4) := by
  unfold rbe64
  rw [← Nat.shiftLeft_add_eq_or_of_lt (rbe32_lt p (o + 4)), Nat.shiftLeft_eq]

theorem rbe64_lt (p : Buf) (o : ℕ) : rbe64 p o < 2 ^ 64 := by
  have h0 := rbe32_lt p o
  have h1 := rbe32_lt p (o + 4)
  rw [rbe64_eq]
  omega

theorem rbe32_congr {p q : Buf} {o o' : ℕ} (h : ∀ k < 4, p (o + k) = q (o' + k)) : rbe32 p o = rbe32 q o' := by
  have h0 := h 0 (by omega)
  have h1 := h 1 (by omega)
  have h2 := h 2 (by omega)
  have h3 := h 3 (by omega)
  simp only [Nat.add_zero] at h0
  simp only [rbe32, h0, h1, h2, h3]

theorem rbe64_congr {p q : Buf} {o o' : ℕ} (h : ∀ k < 8, p (o + k) = q (o' + k)) : rbe64 p o = rbe64 q o' := by
  unfold rbe64
  rw [rbe32_congr (fun k hk => h k (by omega)),
    @rbe32_congr p q (o + 4) (o' + 4) fun k hk => by
      have := h (4 + k) (by omega)
      rwa [← Nat.add_assoc, ← Nat.add_assoc] at this]

/-- `val` as `n` big-endian bytes at `off`, over `p`. -/
def poke (off n val : ℕ) (p : Buf) : Buf := fun o =>
  if off ≤ o ∧ o < off + n then UInt8.ofNat (val / 2 ^ (8 * (n - 1 - (o - off)))) else p o

theorem poke_of_lt {off n val o : ℕ} {p : Buf} (h : o < off ∨ off + n ≤ o) : poke off n val p o = p o := by
  unfold poke
  rw [if_neg (by omega)]

theorem poke_at {off n val k : ℕ} {p : Buf} (h : k < n) :
    (poke off n val p (off + k)).toNat = val / 2 ^ (8 * (n - 1 - k)) % 256 := by
  unfold poke
  rw [if_pos ⟨by omega, by omega⟩, Nat.add_sub_cancel_left, UInt8.toNat_ofNat']

theorem rbe32_poke {off val : ℕ} {p : Buf} (h : val < 2 ^ 32) : rbe32 (poke off 4 val p) off = val := by
  rw [rbe32_eq]
  have h0 := @poke_at off 4 val 0 p (by omega)
  rw [Nat.add_zero] at h0
  rw [h0, poke_at (by omega), poke_at (by omega), poke_at (by omega)]
  norm_num
  omega

theorem rbe64_poke {off val : ℕ} {p : Buf} (h : val < 2 ^ 64) : rbe64 (poke off 8 val p) off = val := by
  rw [rbe64_eq, rbe32_eq, rbe32_eq]
  have h0 := @poke_at off 8 val 0 p (by omega)
  rw [Nat.add_zero] at h0
  simp only [Nat.add_assoc]
  rw [h0, poke_at (by omega), poke_at (by omega), poke_at (by omega), poke_at (by omega), poke_at (by omega),
    poke_at (by omega), poke_at (by omega)]
  norm_num
  omega

theorem rbe32_poke_ne {off n val o : ℕ} {p : Buf} (h : o + 4 ≤ off ∨ off + n ≤ o) :
    rbe32 (poke off n val p) o = rbe32 p o :=
  rbe32_congr fun _ _ => poke_of_lt (by omega)

theorem rbe64_poke_ne {off n val o : ℕ} {p : Buf} (h : o + 8 ≤ off ∨ off + n ≤ o) :
    rbe64 (poke off n val p) o = rbe64 p o :=
  rbe64_congr fun _ _ => poke_of_lt (by omega)

theorem rbe64_zero (o : ℕ) : rbe64 (fun _ => 0) o = 0 := by
  simp [rbe64, rbe32]


/-! ## What the extraction of one image should leave -/

/-- The sum of `need_l1` cannot wrap below the sizes that `ftruncate` takes, so the check means what it says. -/
theorem needL1_le {h : Header} (hb : 9 ≤ h.clusterBits) (hb' : h.clusterBits ≤ 22) (hs : h.size < 2 ^ 63) :
    h.needL1 ≤ h.l1Size ↔ h.size ≤ h.l1Size * (h.clusterSize * h.l2Entries) := by
  have hc : h.clusterSize ≤ 2 ^ 22 := Nat.pow_le_pow_right (by omega) hb'
  have he : h.l2Entries ≤ 2 ^ 22 := by unfold Header.l2Entries; omega
  have hspan : h.clusterSize * h.l2Entries ≤ 2 ^ 22 * 2 ^ 22 := Nat.mul_le_mul hc he
  have hpos : 0 < h.clusterSize * h.l2Entries := Nat.mul_pos (Nat.two_pow_pos _) (l2Entries_pos hb)
  unfold Header.needL1
  rw [Nat.mod_eq_of_lt (by omega), Nat.div_le_iff_le_mul_add_pred hpos, Nat.mul_comm h.l1Size]
  omega

/-- `readHeader` and `ftruncate` let only accepted headers through. -/
theorem accepted_of_readHeader {f : File} {h : Header} (hr : readHeader f = .ok h) (hs : h.size < 2 ^ 63) :
    Accepted h := by
  simp only [readHeader, bind_eq_ok, refuse_eq_ok] at hr
  obtain ⟨hdr, -, -, -, -, -, -, -, -, hbits, -, -, -, -, -, hl1, hh⟩ := hr
  cases hh
  have hb : 9 ≤ rbe32 hdr 20 := by omega
  have hb' : rbe32 hdr 20 ≤ 22 := by omega
  exact ⟨hb, hb', hs, rbe32_lt _ _, (needL1_le hb hb' hs).mp (Nat.le_of_not_lt hl1)⟩

/-- The raw file `out` is the one the format assigns to the image `f` with header `h`. -/
structure FollowsMapping (inflate : Inflate) (f : File) (h : Header) (out : File) : Prop where
  size_eq : out.size = h.size
  byte_eq : ∀ v < h.size, virtualByte inflate f h.clusterBits (l1Table f h) v = some (out.byte v)
  /-- Any contents of the L1 entries behind the needed ones give the same bytes. -/
  unneeded : ∀ l1 out', (∀ i, i * (h.clusterSize * h.clusterSize / 8) < h.size → l1 i = l1Table f h i) →
    extractTables inflate f h l1 = .ok out' → ∀ v < h.size, out'.byte v = out.byte v

/-- Every image with these header fields that the extractor accepts is extracted as the format says. -/
def MeetsMapping (inflate : Inflate) (size bits l1Size : ℕ) : Prop :=
  ∀ f h out, readHeader f = .ok h → h.size = size → h.clusterBits = bits → h.l1Size = l1Size →
    qcow2ExtractFd inflate f = .ok out → FollowsMapping inflate f h out

theorem extractTables_of_extractFd {inflate : Inflate} {f : File} {h : Header} {out : File}
    (hr : readHeader f = .ok h) (hx : qcow2ExtractFd inflate f = .ok out) :
    extractTables inflate f h (l1Table f h) = .ok out := by
  simp only [qcow2ExtractFd, bind_eq_ok] at hx
  obtain ⟨h', hr', hx⟩ := hx
  rw [hr] at hr'
  cases hr'
  split_ifs at hx with hpos
  · exact (bind_eq_ok.mp hx).choose_spec.2
  · exact hx

theorem size_lt_of_extractTables {inflate : Inflate} {f : File} {h : Header} {l1 : ℕ → ℕ} {out : File}
    (hx : extractTables inflate f h l1 = .ok out) : h.size < 2 ^ 63 := by
  simp only [extractTables, bind_eq_ok, refuse_eq_ok] at hx
  obtain ⟨-, hs, -⟩ := hx
  omega

/-- Only the entries that `size` needs decide the virtual disk. -/
theorem virtualByte_congr {inflate : Inflate} {f : File} {bits size v : ℕ} {l1 l1' : ℕ → ℕ}
    (hl : ∀ i, i * (2 ^ bits * 2 ^ bits / 8) < size → l1 i = l1' i) (hv : v < size) :
    virtualByte inflate f bits l1 v = virtualByte inflate f bits l1' v := by
  have h1 := hl (v / (2 ^ bits * 2 ^ bits / 8)) (Nat.lt_of_le_of_lt (Nat.div_mul_le_self _ _) hv)
  simp only [virtualByte, h1]

theorem l2Loop_size_zero {inflate : Inflate} {f : File} {h : Header} (hs : h.size = 0) {i : ℕ} {l2 : Buf} :
    ∀ (js : List ℕ) (out : File), l2Loop inflate f h i l2 js out = .ok out
  | [], _ => rfl
  | j :: js, out => by rw [l2Loop, if_pos (by omega)]

theorem l1Loop_size_zero {inflate : Inflate} {f : File} {h : Header} (hs : h.size = 0) {l1 : ℕ → ℕ} :
    ∀ (is : List ℕ) (out out' : File), l1Loop inflate f h l1 is out = .ok out' → out' = out
  | [], _, _, hr => by cases hr; rfl
  | i :: is, out, out', hr => by
    rw [l1Loop] at hr
    by_cases hl : l1 i &&& ENTRY_OFFSET_MASK = 0
    · simp only [if_pos hl] at hr
      exact l1Loop_size_zero hs is out out' hr
    · simp only [if_neg hl, bind_eq_ok, l2Loop_size_zero hs] at hr
      obtain ⟨-, -, o, ho, hr⟩ := hr
      cases ho
      exact l1Loop_size_zero hs is out out' hr

/-- The images that no wrapping offset can reach are extracted as the format says. -/
theorem followsMapping_of_noWrap {inflate : Inflate} {f : File} {h : Header} {out : File}
    (hr : readHeader f = .ok h) (hx : qcow2ExtractFd inflate f = .ok out) (hw : h.size = 0 ∨ NoWrap h) :
    FollowsMapping inflate f h out := by
  have ht := extractTables_of_extractFd hr hx
  have ha := accepted_of_readHeader hr (size_lt_of_extractTables ht)
  rcases hw with hs | hw
  · -- an empty disk: the loops write nothing
    simp only [extractTables, bind_eq_ok, refuse_eq_ok] at ht
    obtain ⟨-, -, ht⟩ := ht
    cases l1Loop_size_zero hs _ _ _ ht
    exact ⟨rfl, fun v hv => by omega, fun _ _ _ _ v hv => by omega⟩
  · obtain ⟨hsize, hbytes⟩ := extractTables_virtual ha hw ht
    refine ⟨hsize, hbytes, fun l1 out' hl hx' v hv => ?_⟩
    have h1 := (extractTables_virtual ha hw hx').2 v hv
    rw [virtualByte_congr hl hv, hbytes v hv] at h1
    exact (Option.some.inj h1).symm

/-! ## An image whose second half lands on its first -/

/-- The first L1 index whose virtual offset is not below `2 ^ 64`. -/
def wrapIndex (bits : ℕ) : ℕ := 2 ^ 64 / (2 ^ bits * (2 ^ bits / 8))

/-- One L1 entry, at `wrapIndex`, one L2 entry, and a cluster of ones. -/
def wrapFile (size bits l1Size : ℕ) : File where
  size := 2 ^ 43
  byte := poke 0 4 QCOW2_MAGIC <| poke 4 4 2 <| poke 20 4 bits <| poke 24 8 size <| poke 36 4 l1Size <|
    poke 40 8 512 <| poke (512 + wrapIndex bits * 8) 8 (2 ^ 40) <| poke (2 ^ 40) 8 (2 ^ 41) fun o =>
      if 2 ^ 41 ≤ o then 1 else 0

section WrapFile

variable {size bits l1Size : ℕ}

/-- The span of an L1 entry is a power of two, so it divides `2 ^ 64`. -/
theorem wrapIndex_mul (hb : 9 ≤ bits) (hb' : bits ≤ 22) : wrapIndex bits * (2 ^ bits * (2 ^ bits / 8)) = 2 ^ 64 := by
  obtain ⟨k, rfl⟩ : ∃ k, bits = k + 3 := ⟨bits - 3, by omega⟩
  have h8 : 2 ^ (k + 3) / 8 = 2 ^ k := by rw [Nat.pow_add]; omega
  have hdvd : 2 ^ (k + 3 + k) ∣ 2 ^ 64 := Nat.pow_dvd_pow 2 (by omega)
  rw [wrapIndex, h8, ← Nat.pow_add, Nat.div_mul_cancel hdvd]

theorem wrapIndex_lt (hb : 9 ≤ bits) (hb' : bits ≤ 22) (hw : 2 ^ 64 < l1Size * (2 ^ bits * (2 ^ bits / 8))) :
    wrapIndex bits < l1Size := by
  rw [← wrapIndex_mul hb hb'] at hw
  exact Nat.lt_of_mul_lt_mul_right hw

theorem wrapIndex_pos (hb : 9 ≤ bits) (hb' : bits ≤ 22) : 0 < wrapIndex bits := by
  have := wrapIndex_mul hb hb'
  by_contra h0
  rw [Nat.eq_zero_of_not_pos h0] at this
  simp at this

variable (size bits l1Size) in
/-- The header that `wrapFile` carries. -/
def wrapHeader : Header := ⟨bits, size, l1Size, 512⟩

/-- A field of the header buffer is the field of the file. -/
theorem headerBuf_wrapFile : ∃ hdr, headerBuf (wrapFile size bits l1Size) = .ok hdr ∧
    (∀ o, o + 4 ≤ 112 → rbe32 hdr o = rbe32 (wrapFile size bits l1Size).byte o) ∧
    ∀ o, o + 8 ≤ 112 → rbe64 hdr o = rbe64 (wrapFile size bits l1Size).byte o := by
  refine ⟨fun k => if k < 112 then (wrapFile size bits l1Size).byte k else 0, ?_, fun o ho => ?_, fun o ho => ?_⟩
  · have h72 : ¬ (wrapFile size bits l1Size).size < 72 := by simp [wrapFile]
    have h112 : (wrapFile size bits l1Size).size ≥ 112 := by simp [wrapFile]
    have hread : fullPread (wrapFile size bits l1Size) 112 0 =
        .ok fun k => (wrapFile size bits l1Size).byte (0 + k) :=
      fullPread_eq_ok.mpr ⟨Nat.zero_le _, by omega, rfl⟩
    unfold headerBuf
    simp only [refuse_bind h72, if_pos h112, hread, Nat.zero_add]
    rfl
  · exact rbe32_congr fun k hk => by rw [if_pos (by omega)]
  · exact rbe64_congr fun k hk => by rw [if_pos (by omega)]

theorem readHeader_wrapFile (ha : Accepted (wrapHeader size bits l1Size)) :
    readHeader (wrapFile size bits l1Size) = .ok (wrapHeader size bits l1Size) := by
  obtain ⟨hb, hb', hs, hl, hcov⟩ := ha
  simp only [wrapHeader] at hb hb' hs hl
  obtain ⟨hdr, hok, h32, h64⟩ := @headerBuf_wrapFile size bits l1Size
  have hmagic : rbe32 hdr 0 = QCOW2_MAGIC := by
    rw [h32 0 (by omega), wrapFile, rbe32_poke (by decide)]
  have hversion : rbe32 hdr 4 = 2 := by
    rw [h32 4 (by omega), wrapFile, rbe32_poke_ne (by omega), rbe32_poke (by omega)]
  have hbits : rbe32 hdr 20 = bits := by
    rw [h32 20 (by omega), wrapFile]
    iterate 2 rw [rbe32_poke_ne (by omega)]
    rw [rbe32_poke (by omega)]
  have hsize : rbe64 hdr 24 = size := by
    rw [h64 24 (by omega), wrapFile]
    iterate 3 rw [rbe64_poke_ne (by omega)]
    rw [rbe64_poke (by omega)]
  have hl1 : rbe32 hdr 36 = l1Size := by
    rw [h32 36 (by omega), wrapFile]
    iterate 4 rw [rbe32_poke_ne (by omega)]
    rw [rbe32_poke (by omega)]
  have hoff : rbe64 hdr 40 = 512 := by
    rw [h64 40 (by omega), wrapFile]
    iterate 5 rw [rbe64_poke_ne (by omega)]
    rw [rbe64_poke (by omega)]
  have hlow : ∀ o < 2 ^ 41, (fun o => if 2 ^ 41 ≤ o then 1 else 0 : Buf) o = 0 := fun o ho => if_neg (by omega)
  have hback : rbe64 hdr 8 = 0 := by
    rw [h64 8 (by omega), wrapFile]
    iterate 8 rw [rbe64_poke_ne (by omega)]
    rw [@rbe64_congr _ (fun _ => 0) _ 8 fun k hk => hlow _ (by omega), rbe64_zero]
  have hcrypt : rbe32 hdr 32 = 0 := by
    rw [h32 32 (by omega), wrapFile]
    iterate 8 rw [rbe32_poke_ne (by omega)]
    rw [@rbe32_congr _ (fun _ => 0) _ 32 fun k hk => hlow _ (by omega)]
    simp [rbe32]
  -- the size check, without a wrap
  have hneed : ¬ l1Size < (⟨bits, size, l1Size, 512⟩ : Header).needL1 :=
    Nat.not_lt.mpr ((needL1_le hb hb' hs).mpr hcov)
  unfold readHeader
  rw [hok]
  change (do refuse _ _; _ : Except String Header) = _
  simp only [hmagic, hversion, hbits, hsize, hl1, hoff, hback, hcrypt]
  rw [refuse_bind (by simp), refuse_bind (by simp), refuse_bind (by simp), refuse_bind (by omega), refuse_bind (by simp),
    refuse_bind (by simp), refuse_bind hneed]
  rfl

theorem l1Table_wrapFile (hl : l1Size < 2 ^ 32) {i : ℕ} (hi : i < l1Size) :
    l1Table (wrapFile size bits l1Size) (wrapHeader size bits l1Size) i = if i = wrapIndex bits then 2 ^ 40 else 0 := by
  have h0 : l1Table (wrapFile size bits l1Size) (wrapHeader size bits l1Size) i =
      rbe64 (wrapFile size bits l1Size).byte (512 + i * 8) :=
    rbe64_congr fun k _ => by simp only [wrapHeader, Nat.add_assoc]
  rw [h0, wrapFile]
  iterate 6 rw [rbe64_poke_ne (by omega)]
  by_cases he : i = wrapIndex bits
  · rw [if_pos he, he, rbe64_poke (by omega)]
  · rw [if_neg he, rbe64_poke_ne (by omega), rbe64_poke_ne (by omega),
      @rbe64_congr _ (fun _ => 0) _ 0 fun k _ => if_neg (by omega), rbe64_zero]

/-- The L2 table of `wrapFile` maps its first cluster only. -/
theorem l2Table_wrapFile (hw : wrapIndex bits < l1Size) (hl : l1Size < 2 ^ 32) {j : ℕ} (hj : j < 2 ^ 22) :
    rbe64 (fun k => (wrapFile size bits l1Size).byte (2 ^ 40 + k)) (j * 8) = if j = 0 then 2 ^ 41 else 0 := by
  have h0 : rbe64 (fun k => (wrapFile size bits l1Size).byte (2 ^ 40 + k)) (j * 8) =
      rbe64 (wrapFile size bits l1Size).byte (2 ^ 40 + j * 8) :=
    rbe64_congr fun k _ => by simp only [Nat.add_assoc]
  rw [h0, wrapFile]
  iterate 7 rw [rbe64_poke_ne (by omega)]
  by_cases he : j = 0
  · rw [if_pos he, he, Nat.zero_mul, Nat.add_zero, rbe64_poke (by omega)]
  · rw [if_neg he, rbe64_poke_ne (by omega),
      @rbe64_congr _ (fun _ => 0) _ 0 fun k _ => if_neg (by omega), rbe64_zero]

theorem data_wrapFile (hw : wrapIndex bits < l1Size) (hl : l1Size < 2 ^ 32) (k : ℕ) :
    (wrapFile size bits l1Size).byte (2 ^ 41 + k) = 1 := by
  simp only [wrapFile]
  iterate 8 rw [poke_of_lt (by omega)]
  exact if_pos (by omega)

end WrapFile

/-! ## The run on that image -/

section Run

variable {inflate : Inflate} {f : File} {h : Header} {l1 : ℕ → ℕ}

theorem l1Loop_holes : ∀ (is is' : List ℕ) (out : File), (∀ i ∈ is, l1 i = 0) →
    l1Loop inflate f h l1 (is ++ is') out = l1Loop inflate f h l1 is' out
  | [], _, _, _ => rfl
  | i :: is, is', out, hz => by
    rw [List.cons_append, l1Loop]
    simp only [hz i (by simp), Nat.zero_and, if_pos]
    exact l1Loop_holes is is' out fun i' hi' => hz i' (by simp [hi'])

theorem l2Loop_holes {i : ℕ} {l2 : Buf} :
    ∀ (js : List ℕ) (out : File), (∀ j ∈ js, rbe64 l2 (j * 8) = 0) → l2Loop inflate f h i l2 js out = .ok out
  | [], _, _ => rfl
  | j :: js, out, hz => by
    rw [l2Loop]
    by_cases hv : voff h i j ≥ h.size
    · rw [if_pos hv]
    · rw [if_neg hv, hz j (by simp)]
      simp only [cluster, Nat.zero_and, ne_eq, not_true_eq_false, if_false, or_true, if_true]
      exact l2Loop_holes js out fun j' hj' => hz j' (by simp [hj'])

end Run

section WrapRun

variable {inflate : Inflate} {size bits l1Size : ℕ}

theorem wrapHeader_bits : (wrapHeader size bits l1Size).clusterBits = bits := rfl

/-- The offset of the first cluster of the entry at `wrapIndex` is `2 ^ 64`, computed as 0. -/
theorem voff_wrapIndex (hb : 9 ≤ bits) (hb' : bits ≤ 22) : voff (wrapHeader size bits l1Size) (wrapIndex bits) 0 = 0 := by
  have := wrapIndex_mul hb hb'
  unfold voff
  rw [Nat.add_zero, Nat.mul_assoc, Nat.mul_comm (Header.l2Entries _)]
  exact (congrArg (· % 2 ^ 64) this).trans (by norm_num)

/-- The cluster of ones is written at offset 0. -/
theorem cluster_wrapFile (hw : wrapIndex bits < l1Size) (hb' : bits ≤ 22) (hl : l1Size < 2 ^ 32) (hpos : 0 < size)
    (out : File) : ∃ out', cluster inflate (wrapFile size bits l1Size) (wrapHeader size bits l1Size) 0 (2 ^ 41) out =
      .ok out' ∧ out'.byte 0 = 1 := by
  set h := wrapHeader size bits l1Size with hh
  have hwant : 0 < want h 0 := by
    have : 0 < h.clusterSize := Nat.two_pow_pos _
    have : 0 < h.size := hpos
    unfold want
    split_ifs <;> omega
  have hle : want h 0 ≤ 2 ^ 22 := want_le.trans (Nat.pow_le_pow_right (by omega) hb')
  have hread : fullPread (wrapFile size bits l1Size) (want h 0) (2 ^ 41) = .ok fun _ => 1 := by
    refine fullPread_eq_ok.mpr ⟨by simp [wrapFile], ?_, funext fun k => (data_wrapFile hw hl k).symm⟩
    have : (wrapFile size bits l1Size).size = 2 ^ 43 := rfl
    omega
  have hall : ¬ (List.range (want h 0)).all (fun k => (fun _ => 1 : Buf) k == 0) = true := by
    intro hz
    simpa using List.all_eq_true.mp hz 0 (List.mem_range.mpr hwant)
  refine ⟨fullPwrite out (fun _ => 1) (want h 0) 0, ?_, fullPwrite_byte (Nat.le_refl 0) hwant⟩
  have hnc : ¬ (2 ^ 41 &&& L2E_COMPRESSED ≠ 0) := by decide
  have hnz : ¬ (2 ^ 41 &&& L2E_ZERO ≠ 0 ∨ 2 ^ 41 &&& ENTRY_OFFSET_MASK = 0) := by decide
  have hm : 2 ^ 41 &&& ENTRY_OFFSET_MASK = 2 ^ 41 := by decide
  rw [cluster, if_neg hnc]
  simp only [if_neg hnz]
  rw [hm, hread]
  change (if _ then _ else _ : Except String File) = _
  rw [if_neg hall]
  rfl

/-- The one L2 table of the image. -/
theorem l2Loop_wrapFile (ha : Accepted (wrapHeader size bits l1Size)) (hw : wrapIndex bits < l1Size) (hpos : 0 < size)
    (out : File) : ∃ out', l2Loop inflate (wrapFile size bits l1Size) (wrapHeader size bits l1Size) (wrapIndex bits)
      (fun k => (wrapFile size bits l1Size).byte (2 ^ 40 + k)) (List.range (wrapHeader size bits l1Size).l2Entries) out =
      .ok out' ∧ out'.byte 0 = 1 := by
  have hb : 9 ≤ bits := ha.bits_ge
  have hb' : bits ≤ 22 := ha.bits_le
  have hl : l1Size < 2 ^ 32 := ha.l1Size_lt
  set h := wrapHeader size bits l1Size with hh
  have hcs : h.clusterSize ≤ 2 ^ 22 := Nat.pow_le_pow_right (by omega) hb'
  have hent : h.l2Entries ≤ 2 ^ 22 := by unfold Header.l2Entries; omega
  have hent0 : 0 < h.l2Entries := l2Entries_pos hb
  obtain ⟨n, hn⟩ : ∃ n, h.l2Entries = n + 1 := ⟨h.l2Entries - 1, by omega⟩
  have hv : ¬ voff h (wrapIndex bits) 0 ≥ h.size := by
    rw [voff_wrapIndex hb hb']
    exact Nat.not_le.mpr hpos
  obtain ⟨out', hout, hone⟩ := @cluster_wrapFile inflate _ _ _ hw hb' hl hpos out
  refine ⟨out', ?_, hone⟩
  rw [hn, List.range_eq_range', List.range'_succ, l2Loop, if_neg hv, voff_wrapIndex hb hb',
    l2Table_wrapFile hw hl (by omega), if_pos rfl, hout]
  refine l2Loop_holes _ _ fun j hj => ?_
  rw [List.mem_range'_1] at hj
  rw [l2Table_wrapFile hw hl (by omega), if_neg (by omega)]

/-- The extraction succeeds and leaves a one where the disk has a hole. -/
theorem extract_wrapFile (ha : Accepted (wrapHeader size bits l1Size)) (hpos : 0 < size)
    (hw : 2 ^ 64 < l1Size * (2 ^ bits * (2 ^ bits / 8))) :
    ∃ out, qcow2ExtractFd inflate (wrapFile size bits l1Size) = .ok out ∧ out.byte 0 = 1 := by
  have hl : l1Size < 2 ^ 32 := ha.l1Size_lt
  have hs : ¬ (wrapHeader size bits l1Size).size ≥ 2 ^ 63 := Nat.not_le.mpr ha.size_lt
  have hlt := wrapIndex_lt ha.bits_ge ha.bits_le hw
  rw [wrapHeader_bits] at hlt
  set f := wrapFile size bits l1Size with hf
  set h := wrapHeader size bits l1Size with hh
  obtain ⟨out, hout, hone⟩ := @l2Loop_wrapFile inflate _ _ _ ha hlt hpos ⟨size, fun _ => 0⟩
  refine ⟨out, ?_, hone⟩
  have hfs : f.size = 2 ^ 43 := rfl
  have hcs : h.clusterSize ≤ 2 ^ 22 := Nat.pow_le_pow_right (by omega) ha.bits_le
  have hmask : 2 ^ 40 &&& ENTRY_OFFSET_MASK = 2 ^ 40 := by decide
  have hsplit : List.range l1Size = List.range (wrapIndex bits) ++
      (wrapIndex bits :: (List.range' (wrapIndex bits + 1) (l1Size - wrapIndex bits - 1) ++ [])) := by
    rw [List.append_nil, List.range_eq_range', List.range_eq_range', ← List.range'_succ, List.range'_eq_append_iff]
    exact ⟨wrapIndex bits, by omega, rfl, by rw [Nat.zero_add, Nat.mul_one, Nat.sub_add_cancel (by omega)]⟩
  have hread : fullPread f h.clusterSize (2 ^ 40) = .ok fun k => f.byte (2 ^ 40 + k) :=
    fullPread_eq_ok.mpr ⟨by omega, by omega, rfl⟩
  have htable : fullPread f (l1Size * 8) 512 = .ok fun k => f.byte (512 + k) :=
    fullPread_eq_ok.mpr ⟨by omega, by omega, rfl⟩
  have hl1 : l1Loop inflate f h (l1Table f h) (List.range l1Size) ⟨size, fun _ => 0⟩ = .ok out := by
    rw [hsplit, l1Loop_holes (List.range (wrapIndex bits)), l1Loop, l1Table_wrapFile hl hlt, if_pos rfl, hmask]
    · simp only [hread]
      change (do l1Loop inflate f h _ _ (← l2Loop inflate f h _ _ _ _)) = _
      rw [hout]
      refine l1Loop_holes _ [] _ fun i hi => ?_
      rw [List.mem_range'_1] at hi
      rw [l1Table_wrapFile hl (by omega), if_neg (by omega)]
    · intro i hi
      rw [List.mem_range] at hi
      rw [l1Table_wrapFile hl (by omega), if_neg (by omega)]
  have hsome : h.l1Size > 0 := Nat.zero_lt_of_lt hlt
  unfold qcow2ExtractFd
  rw [readHeader_wrapFile ha]
  change (if h.l1Size > 0 then _ else _ : Except String File) = _
  rw [if_pos hsome]
  change (do let _ ← fullPread f (l1Size * 8) 512; extractTables inflate f h (l1Table f h)) = _
  rw [htable]
  change extractTables inflate f h (l1Table f h) = _
  rw [extractTables, refuse_bind hs]
  exact hl1

/-- Its first L1 entry is unallocated. -/
theorem virtualByte_wrapFile (ha : Accepted (wrapHeader size bits l1Size))
    (hw : 2 ^ 64 < l1Size * (2 ^ bits * (2 ^ bits / 8))) :
    virtualByte inflate (wrapFile size bits l1Size) bits
      (l1Table (wrapFile size bits l1Size) (wrapHeader size bits l1Size)) 0 = some 0 := by
  have hpos := wrapIndex_pos ha.bits_ge ha.bits_le
  have hlt := wrapIndex_lt ha.bits_ge ha.bits_le hw
  rw [wrapHeader_bits] at hpos hlt
  have h0 := @l1Table_wrapFile size bits l1Size ha.l1Size_lt _ (Nat.zero_lt_of_lt hlt)
  rw [if_neg (Nat.ne_of_lt hpos)] at h0
  simp only [virtualByte, Nat.zero_div, h0, Nat.zero_and, if_true]

end WrapRun

/-- A raw deflate stream never yields data. -/
def noInflate : Inflate := fun _ _ => (Z_BUF_ERROR, [])

end Hamn.Qcow2
