import Turbovec.Scan.Rescore
import Turbovec.Pack.Blocked

/-!
# The AVX2 batch

The AVX2 kernel looks up a group's thirty-two table entries as bytes and adds them up in 16-bit lanes, so that
a lane holds the sum of its even bytes plus 256 times that of its odd ones, wrapped. A second register sums the
odd bytes alone; subtracting it, shifted, leaves the even sums, and two lane shuffles add the high-nibble sums
to the low-nibble ones, in the order the `perm0` layout stores the vectors.
-/

namespace Turbovec.Scan

open Pack Slice Grid

/-! ## Registers -/

/-- The bytes of a register as 16-bit lanes, low byte first. -/
def epi16 (r : ℕ → UInt8) (i : ℕ) : UInt16 := UInt16.ofNat ((r (2 * i)).toNat + 256 * (r (2 * i + 1)).toNat)

/-- The 16-bit lanes of a register as bytes. -/
def epi8 (r : ℕ → UInt16) (i : ℕ) : UInt8 := UInt8.ofNat ((r (i / 2)).toNat / 256 ^ (i % 2))

def addEpi16 (a b : ℕ → UInt16) (i : ℕ) : UInt16 := a i + b i

def subEpi16 (a b : ℕ → UInt16) (i : ℕ) : UInt16 := a i - b i

def srliEpi16 (a : ℕ → UInt16) (n : UInt16) (i : ℕ) : UInt16 := a i >>> n

def slliEpi16 (a : ℕ → UInt16) (n : UInt16) (i : ℕ) : UInt16 := a i <<< n

/-- Each half of `a` is looked up at the low nibbles of its half of `idx`; an index with its top bit set
gives zero. -/
def shuffleEpi8 (a idx : ℕ → UInt8) (i : ℕ) : UInt8 :=
  if idx i &&& 0x80 = 0 then a (i / 16 * 16 + (idx i &&& 0x0F).toNat) else 0

/-- Each half of the result is a half of `a` or of `b`, by a nibble of `imm`. -/
def permute2x128 (a b : ℕ → UInt16) (imm i : ℕ) : UInt16 :=
  let sel := if i < 8 then imm else imm >>> 4
  if sel.testBit 3 then 0 else (if sel.testBit 1 then b else a) (sel % 2 * 8 + i % 8)

/-- The 32-bit lanes of `b` where `imm` has a one, those of `a` elsewhere. -/
def blendEpi32 (a b : ℕ → UInt16) (imm i : ℕ) : UInt16 := if imm.testBit (i / 2) then b i else a i

/-! ## The kernel -/

/-- The four accumulators of a query. -/
structure Accus where
  a0 : ℕ → UInt16
  a1 : ℕ → UInt16
  a2 : ℕ → UInt16
  a3 : ℕ → UInt16

/-- One query over one byte group. -/
def avx2Group (lut clo chi : ℕ → UInt8) (accus : Accus) : Accus :=
  let res0 := epi16 (shuffleEpi8 lut clo)
  let res1 := epi16 (shuffleEpi8 lut chi)
  { a0 := addEpi16 accus.a0 res0
    a1 := addEpi16 accus.a1 (srliEpi16 res0 8)
    a2 := addEpi16 accus.a2 res1
    a3 := addEpi16 accus.a3 (srliEpi16 res1 8) }

/-- The byte groups `gStart .. gEnd` of block `b`, under every query. -/
def avx2Batch (luts : ℕ → List UInt8) (codes : List UInt8) (nByteGroups b gStart gEnd : ℕ) : ℕ → Accus :=
  (List.range' gStart (gEnd - gStart)).foldl (fun accus g =>
    let codesV := load codes ((b * nByteGroups + g) * BLOCK)
    let clo := loNibbles codesV
    -- a shift of 16-bit lanes drags the next byte's low bits in; the mask drops them
    let chi := loNibbles (epi8 (srliEpi16 (epi16 codesV) 4))
    fun qi => avx2Group (load (luts qi) (g * 32)) clo chi (accus qi))
    fun _ => ⟨0, 0, 0, 0⟩

/-- The batch epilogue: the 32-bit lanes of `f0` to `f3`. -/
def avx2Epilogue (accus : Accus) (f i : ℕ) : UInt32 :=
  -- the odd bytes stand in `a0` and `a2` 256 times over
  let a0 := subEpi16 accus.a0 (slliEpi16 accus.a1 8)
  let a2 := subEpi16 accus.a2 (slliEpi16 accus.a3 8)
  -- each half of a register has looked up one of the two tables
  let dis0 := addEpi16 (permute2x128 a0 accus.a1 0x21) (blendEpi32 a0 accus.a1 0xF0)
  let dis1 := addEpi16 (permute2x128 a2 accus.a3 0x21) (blendEpi32 a2 accus.a3 0xF0)
  ((if f < 2 then dis0 else dis1) (f % 2 * 8 + i)).toUInt32

/-- `search_multi_query_avx2`, as far as the integer sums go: what batch `batch` of block `b` adds to output
lane `v` of query `qi`. -/
def searchMultiQueryAvx2 (luts : ℕ → List UInt8) (codes : List UInt8) (nByteGroups b batch qi v : ℕ) : UInt32 :=
  let gStart := batch * FLUSH_EVERY
  let gEnd := min (gStart + FLUSH_EVERY) nByteGroups
  avx2Epilogue (avx2Batch luts codes nByteGroups b gStart gEnd qi) (v / 8) (v % 8)

/-! ## The lookups -/

/-- The sequential code bytes of lane `v` of block `b`. -/
def laneRow (codes : List UInt8) (nByteGroups b v : ℕ) : List UInt8 :=
  tabulate nByteGroups fun g => deinterleaveX86CodeByte codes ((b * nByteGroups + g) * BLOCK) v

theorem toNat_epi16 (r : ℕ → UInt8) (i : ℕ) : (epi16 r i).toNat = (r (2 * i)).toNat + 256 * (r (2 * i + 1)).toNat := by
  have hlo := (r (2 * i)).toNat_lt
  have hhi := (r (2 * i + 1)).toNat_lt
  rw [epi16, UInt16.toNat_ofNat']
  omega

theorem srliEpi16_epi16 (r : ℕ → UInt8) (i : ℕ) :
    srliEpi16 (epi16 r) 8 i = UInt16.ofNat (r (2 * i + 1)).toNat := by
  have hlo := (r (2 * i)).toNat_lt
  have hhi := (r (2 * i + 1)).toNat_lt
  apply UInt16.toNat.inj
  rw [srliEpi16, UInt16.toNat_shiftRight, toNat_epi16, UInt16.toNat_ofNat', Nat.shiftRight_eq_div_pow]
  show _ / 2 ^ 8 = _
  omega

/-- Shifting 16-bit lanes and masking bytes gives the high nibbles. -/
theorem loNibbles_srli (c : ℕ → UInt8) (i : ℕ) : loNibbles (epi8 (srliEpi16 (epi16 c) 4)) i = hiNibbles c i := by
  have hlo := (c (2 * (i / 2))).toNat_lt
  have hhi := (c (2 * (i / 2) + 1)).toNat_lt
  have hw : (srliEpi16 (epi16 c) 4 (i / 2)).toNat =
      ((c (2 * (i / 2))).toNat + 256 * (c (2 * (i / 2) + 1)).toNat) / 16 := by
    rw [srliEpi16, UInt16.toNat_shiftRight, toNat_epi16, Nat.shiftRight_eq_div_pow]
    rfl
  have hc : (hiNibbles c i).toNat = (c i).toNat / 16 := by
    rw [hiNibbles, UInt8.toNat_shiftRight, Nat.shiftRight_eq_div_pow]
    rfl
  have hand (x : UInt8) : (x &&& 0x0F).toNat = x.toNat % 16 := by
    rw [UInt8.toNat_and]
    exact Nat.and_two_pow_sub_one_eq_mod x.toNat 4
  apply UInt8.toNat.inj
  rw [loNibbles, hand, hc, epi8, UInt8.toNat_ofNat', hw]
  obtain hi | hi : i % 2 = 0 ∨ i % 2 = 1 := by omega
  · rw [hi, show 2 * (i / 2) = i by omega]
    rw [show 2 * (i / 2) = i by omega] at hlo
    omega
  · rw [hi, show 2 * (i / 2) + 1 = i by omega]
    rw [show 2 * (i / 2) + 1 = i by omega] at hhi
    omega

/-- A lookup at nibbles. -/
theorem shuffleEpi8_nibbles {a idx : ℕ → UInt8} {i : ℕ} (h : (idx i).toNat < 16) :
    shuffleEpi8 a idx i = a (i / 16 * 16 + (idx i).toNat) := by
  have hsmall : ∀ n < 16, UInt8.ofNat n &&& 0x80 = 0 ∧ (UInt8.ofNat n &&& 0x0F).toNat = n := by decide
  have hx := hsmall _ h
  rw [UInt8.ofNat_toNat] at hx
  rw [shuffleEpi8, if_pos hx.1, hx.2]

/-! ## The sums -/

/-- The bytes a batch looks up for a query: from the low nibbles, or from the high ones. -/
def lookups (nibbles : (ℕ → UInt8) → ℕ → UInt8) (lut codes : List UInt8) (nByteGroups b g i : ℕ) : ℕ :=
  (shuffleEpi8 (load lut (g * 32)) (nibbles (load codes ((b * nByteGroups + g) * BLOCK))) i).toNat

/-- A pair of accumulators after a batch: the lanes summed whole, and their high bytes. -/
structure Summed (acc accHigh : ℕ → UInt16) (E : ℕ → ℕ) : Prop where
  whole : ∀ i, acc i = UInt16.ofNat (E (2 * i) + 256 * E (2 * i + 1))
  high : ∀ i, accHigh i = UInt16.ofNat (E (2 * i + 1))

/-- Subtracting the shifted high sums leaves the low ones. -/
theorem Summed.sub {acc accHigh : ℕ → UInt16} {E : ℕ → ℕ} (h : Summed acc accHigh E) (i : ℕ) :
    subEpi16 acc (slliEpi16 accHigh 8) i = UInt16.ofNat (E (2 * i)) := by
  have hshift : slliEpi16 accHigh 8 i = UInt16.ofNat (256 * E (2 * i + 1)) := by
    apply UInt16.toNat.inj
    rw [slliEpi16, h.high, UInt16.toNat_shiftLeft, UInt16.toNat_ofNat', UInt16.toNat_ofNat', Nat.shiftLeft_eq]
    show _ * 2 ^ 8 % 2 ^ 16 = _
    omega
  rw [subEpi16, hshift, h.whole, UInt16.ofNat_add, UInt16.add_sub_cancel]

/-- Lane `l` of a combined register: the two halves' sums at the byte that holds vector `l`'s nibbles. -/
theorem Summed.combine {acc accHigh : ℕ → UInt16} {E : ℕ → ℕ} (h : Summed acc accHigh E) {l : ℕ} (hl : l < 16) :
    addEpi16 (permute2x128 (subEpi16 acc (slliEpi16 accHigh 8)) accHigh 0x21)
        (blendEpi32 (subEpi16 acc (slliEpi16 accHigh 8)) accHigh 0xF0) l =
      UInt16.ofNat (E (entry INV_PERM0 l) + E (16 + entry INV_PERM0 l)) := by
  have hblend : ∀ l < 16, (0xF0 : ℕ).testBit (l / 2) = decide (8 ≤ l) := by decide
  rw [entry_INV_PERM0 hl, addEpi16, blendEpi32, hblend l hl, permute2x128]
  by_cases h8 : l < 8
  · -- the low half: even bytes, so vectors `0 .. 8`
    rw [if_pos h8, if_pos h8, if_neg (by decide), if_neg (by decide), if_neg (by simpa using h8), h.sub, h.sub,
      ← UInt16.ofNat_add, Nat.add_comm]
    congr 3
    omega
  · -- the high half: odd bytes, so vectors `8 .. 16`
    rw [if_neg h8, if_neg h8, if_neg (by decide), if_pos (by decide), if_pos (by simpa using h8), h.high, h.high,
      ← UInt16.ofNat_add]
    congr 3 <;> omega

variable (luts : ℕ → List UInt8) (codes : List UInt8) (nByteGroups b gStart gEnd qi : ℕ)

/-- What a batch leaves in one lane of one of a query's registers. -/
theorem avx2Batch_read {read : Accus → UInt16} {res : ℕ → ℕ} (h0 : read ⟨0, 0, 0, 0⟩ = 0)
    (h : ∀ s g, read (avx2Group (load (luts qi) (g * 32)) (loNibbles (load codes ((b * nByteGroups + g) * BLOCK)))
      (hiNibbles (load codes ((b * nByteGroups + g) * BLOCK))) s) = read s + UInt16.ofNat (res g)) :
    read (avx2Batch luts codes nByteGroups b gStart gEnd qi) =
      UInt16.ofNat (∑ g ∈ Finset.Ico gStart gEnd, res g) := by
  have hnib (c : ℕ → UInt8) : loNibbles (epi8 (srliEpi16 (epi16 c) 4)) = hiNibbles c := by
    ext i
    rw [loNibbles_srli]
  unfold avx2Batch
  simp only [hnib]
  rw [List.range'_eq_map_range, List.foldl_map, Finset.sum_Ico_eq_sum_range]
  refine Eq.trans (@Wrapped.foldl_read16 (ℕ → Accus) (fun accus => read (accus qi)) _ (fun g => res (gStart + g)) _
    (fun s g _ => h (s qi) (gStart + g)) _) ?_
  rw [h0, UInt16.zero_add]

/-- The first pair of registers sums the low-nibble lookups. -/
theorem summed_lo : Summed (avx2Batch luts codes nByteGroups b gStart gEnd qi).a0
    (avx2Batch luts codes nByteGroups b gStart gEnd qi).a1
    fun i => ∑ g ∈ Finset.Ico gStart gEnd, lookups loNibbles (luts qi) codes nByteGroups b g i where
  whole i := by
    rw [Finset.mul_sum, ← Finset.sum_add_distrib]
    exact @avx2Batch_read luts codes nByteGroups b gStart gEnd qi (fun s => s.a0 i) _ rfl fun s g => rfl
  high i := by
    apply @avx2Batch_read luts codes nByteGroups b gStart gEnd qi (fun s => s.a1 i) _ rfl
    intro s g
    exact congrArg (s.a1 i + ·) (srliEpi16_epi16 _ i)

/-- The second pair sums the high-nibble ones. -/
theorem summed_hi : Summed (avx2Batch luts codes nByteGroups b gStart gEnd qi).a2
    (avx2Batch luts codes nByteGroups b gStart gEnd qi).a3
    fun i => ∑ g ∈ Finset.Ico gStart gEnd, lookups hiNibbles (luts qi) codes nByteGroups b g i where
  whole i := by
    rw [Finset.mul_sum, ← Finset.sum_add_distrib]
    exact @avx2Batch_read luts codes nByteGroups b gStart gEnd qi (fun s => s.a2 i) _ rfl fun s g => rfl
  high i := by
    apply @avx2Batch_read luts codes nByteGroups b gStart gEnd qi (fun s => s.a3 i) _ rfl
    intro s g
    exact congrArg (s.a3 i + ·) (srliEpi16_epi16 _ i)

/-! ## The lanes -/

/-- The nibbles of vector `v`: the low ones of its two bytes for the first sixteen vectors. -/
def nibblesOf (v : ℕ) : (ℕ → UInt8) → ℕ → UInt8 := if v < 16 then loNibbles else hiNibbles

theorem nibbles_lt (v : ℕ) (c : ℕ → UInt8) (i : ℕ) : (nibblesOf v c i).toNat < 16 := by
  unfold nibblesOf
  split
  · exact toNat_and_lo (c i)
  · exact toNat_shr_lt (c i)

/-- The sequential code byte, nibble by nibble. -/
theorem deinterleave_nibbles (codes : List UInt8) (off v : ℕ) :
    deinterleaveX86CodeByte codes off v >>> 4 = nibblesOf v (load codes off) (entry INV_PERM0 (v % 16)) ∧
      deinterleaveX86CodeByte codes off v &&& 15 = nibblesOf v (load codes off) (16 + entry INV_PERM0 (v % 16)) := by
  have hmerge : ∀ h < 16, ∀ l < 16, (((UInt8.ofNat h <<< (4 : UInt8)) ||| UInt8.ofNat l) >>> 4 = UInt8.ofNat h) ∧
      ((UInt8.ofNat h <<< (4 : UInt8)) ||| UInt8.ofNat l) &&& 15 = UInt8.ofNat l := by
    decide +kernel
  have h := hmerge _ (nibbles_lt v (load codes off) (entry INV_PERM0 (v % 16)))
    _ (nibbles_lt v (load codes off) (16 + entry INV_PERM0 (v % 16)))
  rw [UInt8.ofNat_toNat, UInt8.ofNat_toNat] at h
  have hcode : deinterleaveX86CodeByte codes off v =
      (nibblesOf v (load codes off) (entry INV_PERM0 (v % 16)) <<< (4 : UInt8)) |||
        nibblesOf v (load codes off) (16 + entry INV_PERM0 (v % 16)) := by
    unfold deinterleaveX86CodeByte nibblesOf
    split
    · simp only [loNibbles, load, Nat.add_assoc]
    · simp only [hiNibbles, load, Nat.add_assoc]
  rwa [hcode]

/-- The two lookups of a group are the two table entries of the code byte. -/
theorem lookups_eq (lut : List UInt8) {g v : ℕ} (hg : g < nByteGroups) :
    lookups (nibblesOf v) lut codes nByteGroups b g (entry INV_PERM0 (v % 16)) +
        lookups (nibblesOf v) lut codes nByteGroups b g (16 + entry INV_PERM0 (v % 16)) =
      codeTerm lut (laneRow codes nByteGroups b v) g := by
  have hj := inv_lt v
  obtain ⟨hhi, hlo⟩ := deinterleave_nibbles codes ((b * nByteGroups + g) * BLOCK) v
  rw [lookups, lookups, shuffleEpi8_nibbles (nibbles_lt _ _ _), shuffleEpi8_nibbles (nibbles_lt _ _ _), codeTerm,
    laneRow, entry_tabulate _ hg, hhi, hlo, Nat.div_eq_of_lt hj, Nat.zero_mul, Nat.zero_add,
    show (16 + entry INV_PERM0 (v % 16)) / 16 * 16 = 16 by omega]
  simp only [load, Nat.add_assoc]

/-- Two table entries of at most 127. -/
theorem codeTerm_le {lut : List UInt8} (hlut : ∀ x ∈ lut, x ≤ 127) (row : List UInt8) (g : ℕ) :
    codeTerm lut row g ≤ 254 := by
  have hentry (i : ℕ) : (entry lut i).toNat ≤ 127 := by
    by_cases hi : i < lut.length
    · rw [entry, List.getElem?_eq_getElem hi]
      exact hlut _ (List.getElem_mem hi)
    · rw [entry_of_length_le (by omega)]
      exact Nat.zero_le _
  have h1 := hentry (g * 32 + (entry row g >>> 4).toNat)
  have h2 := hentry (g * 32 + 16 + (entry row g &&& 15).toNat)
  rw [codeTerm]
  omega

/-- A batch's sum fits 16 bits. -/
theorem tableSum_le {lut : List UInt8} (hlut : ∀ x ∈ lut, x ≤ 127) (row : List UInt8) {gStart gEnd : ℕ}
    (h : gEnd ≤ gStart + FLUSH_EVERY) : tableSum lut row gStart gEnd ≤ 65024 := by
  calc tableSum lut row gStart gEnd ≤ (Finset.Ico gStart gEnd).card * 254 :=
        Finset.sum_le_card_nsmul _ _ 254 fun g _ => codeTerm_le hlut row g
    _ ≤ 256 * 254 := by
      rw [Nat.card_Ico]
      exact Nat.mul_le_mul_right 254 (Nat.sub_le_iff_le_add'.2 h)

/-- Every batch of every block adds to each output lane the table entries of that vector's own code bytes, and
nothing wraps. -/
theorem searchMultiQueryAvx2_exact (luts : ℕ → List UInt8) (codes : List UInt8) (nByteGroups b batch qi v : ℕ)
    (hlut : ∀ x ∈ luts qi, x ≤ 127) :
    (searchMultiQueryAvx2 luts codes nByteGroups b batch qi v).toNat =
        tableSum (luts qi) (laneRow codes nByteGroups b v) (batch * FLUSH_EVERY)
          (min (batch * FLUSH_EVERY + FLUSH_EVERY) nByteGroups) ∧
      tableSum (luts qi) (laneRow codes nByteGroups b v) (batch * FLUSH_EVERY)
        (min (batch * FLUSH_EVERY + FLUSH_EVERY) nByteGroups) ≤ 65535 := by
  -- the batch's first byte group, and the one past its last
  let gStart := batch * FLUSH_EVERY
  let gEnd := min (gStart + FLUSH_EVERY) nByteGroups
  show (searchMultiQueryAvx2 luts codes nByteGroups b batch qi v).toNat =
    tableSum (luts qi) (laneRow codes nByteGroups b v) gStart gEnd ∧
      tableSum (luts qi) (laneRow codes nByteGroups b v) gStart gEnd ≤ 65535
  have hle : tableSum (luts qi) (laneRow codes nByteGroups b v) gStart gEnd ≤ 65024 :=
    tableSum_le hlut (laneRow codes nByteGroups b v) (Nat.min_le_left _ _)
  have hsum : tableSum (luts qi) (laneRow codes nByteGroups b v) gStart gEnd =
      (∑ g ∈ Finset.Ico gStart gEnd, lookups (nibblesOf v) (luts qi) codes nByteGroups b g (entry INV_PERM0 (v % 16))) +
        ∑ g ∈ Finset.Ico gStart gEnd,
          lookups (nibblesOf v) (luts qi) codes nByteGroups b g (16 + entry INV_PERM0 (v % 16)) := by
    rw [← Finset.sum_add_distrib]
    apply Finset.sum_congr rfl
    intro g hg
    have := (Finset.mem_Ico.1 hg).2
    rw [lookups_eq codes nByteGroups b (luts qi) (by omega)]
  have hlane : (searchMultiQueryAvx2 luts codes nByteGroups b batch qi v) =
      (UInt16.ofNat (tableSum (luts qi) (laneRow codes nByteGroups b v) gStart gEnd)).toUInt32 := by
    have h16 : v / 8 % 2 * 8 + v % 8 = v % 16 := by omega
    have hl : v % 16 < 16 := Nat.mod_lt _ (by decide)
    unfold searchMultiQueryAvx2 avx2Epilogue
    simp only [h16, hsum]
    -- the first sixteen vectors are in the low nibbles, the others in the high ones
    by_cases h : v < 16
    · rw [if_pos (by omega), nibblesOf, if_pos h]
      exact congrArg UInt16.toUInt32 ((summed_lo luts codes nByteGroups b gStart gEnd qi).combine hl)
    · rw [if_neg (by omega), nibblesOf, if_neg h]
      exact congrArg UInt16.toUInt32 ((summed_hi luts codes nByteGroups b gStart gEnd qi).combine hl)
  constructor
  · rw [hlane, UInt16.toNat_toUInt32]
    exact UInt16.toNat_ofNat_of_lt' (Nat.lt_of_le_of_lt hle (by decide))
  · exact hle.trans (by decide)

theorem searchMultiQueryAvx2_exact_two :
    (searchMultiQueryAvx2 (fun _ => (List.range 64).map UInt8.ofNat) ((List.range 64).map fun i => UInt8.ofNat (7 * i))
      2 0 0 0 9).toNat = 116 :=
  (searchMultiQueryAvx2_exact (fun _ => (List.range 64).map UInt8.ofNat) ((List.range 64).map fun i => UInt8.ofNat (7 * i))
    2 0 0 0 9 (by decide +kernel)).1.trans (by decide +kernel)

/-- On a host that keeps the `perm0` layout, the lanes of a packed block are its vectors in order. -/
theorem laneRow_packBlockedNative {P : Platform} {n nb bits nbg b v : ℕ} {flat : List UInt8} (hP : P.arch = .x86_64)
    (h8 : vm8For P bits nbg = false) (hvm : vectorMajorFor P bits nbg = false) (hlen : flat.length = n * nbg)
    (hb : b < nb) (hv : v < BLOCK) (hn : b * BLOCK + v < n) :
    laneRow (packBlockedNative P n nb bits nbg flat) nbg b v = rowAt flat nbg (b * BLOCK + v) := by
  have hrow : (rowAt flat nbg (b * BLOCK + v)).length = nbg := length_rowAt hlen hn
  apply ext_entry
  · rw [laneRow, length_tabulate, hrow]
  · intro g hg
    rw [laneRow, length_tabulate] at hg
    have hread : readCode P (packBlockedNative P n nb bits nbg flat) bits nbg b g v =
        entry flat ((b * BLOCK + v) * nbg + g) :=
      (readCode_packBlockedNative n flat hb hg hv).trans (if_pos hn)
    rw [laneRow, entry_tabulate _ hg, entry_rowAt _ hg, ← hread, readCode, h8, hvm, hP]
    rfl

end Turbovec.Scan
