import Turbovec.Pack.Planes

/-!
# The two regions of a planes cache

The operations that build, grow, move and cut the sign and low regions, and the rows read back from
them. `PlanesHold` is what every one of them keeps: the regions hold the two parts of `n` packed rows,
and the padding lanes of the sign region are zero.
-/

namespace Turbovec.Pack

open LittleEndian Slice Grid

/-! ## Operations -/

/-- Packed rows for `nVectors` vectors starting at a block boundary of the two regions. -/
def planesToPacked (P : Platform) (sign low : List UInt8) (bits nsg nVectors : ℕ) : List UInt8 :=
  (List.range nVectors).flatMap fun v => planesPackedRow P sign low bits nsg v

/-- The sign rows and low rows of `n` packed rows. -/
def planesRows (packedRows : List UInt8) (n bits dim : ℕ) : List UInt8 × List UInt8 :=
  if bits = 2 then planesSplitRows (extractCodesFlat packedRows n 2 dim) (dim / codesPerByte 2)
  else planesRowsFromPacked packedRows n bits dim

/-- Packed rows to `(sign region, low region, n_blocks)`. -/
def planesRepack (P : Platform) (packedCodes : List UInt8) (nVectors bits dim : ℕ) :
    List UInt8 × List UInt8 × ℕ :=
  let (nBlocks, _, _) := blockedGeometry nVectors 2 dim
  let (signRows, low) := planesRows packedCodes nVectors bits dim
  (packBlockedNative P nVectors nBlocks 2 (dim / 8) signRows, low, nBlocks)

/-- The sign blocks `blockStart .. blockEnd` and the low rows from `blockStart * BLOCK` on, rebuilt
from the packed rows. -/
def planesRepackBlockRange (P : Platform) (packedCodes : List UInt8)
    (nVectors bits dim blockStart blockEnd : ℕ) : List UInt8 × List UInt8 :=
  let nsg := dim / 8
  let firstVec := blockStart * BLOCK
  let endVec := min (blockEnd * BLOCK) nVectors
  let nRange := endVec - firstVec
  let bytesPerRow := bits * (dim / 8)
  let subPacked := (packedCodes.drop (firstVec * bytesPerRow)).take
    (endVec * bytesPerRow - firstVec * bytesPerRow)
  let (signRows, low) := planesRows subPacked nRange bits dim
  (packBlockedNative P nRange (blockEnd - blockStart) 2 nsg signRows, low)

/-- Append `nNew` vectors' packed rows to both regions. -/
def planesAppendLanes (P : Platform) (sign low packedRows : List UInt8) (oldN nNew bits dim : ℕ) :
    List UInt8 × List UInt8 :=
  let nsg := dim / 8
  let newBlocks := (oldN + nNew + 31) / 32
  let (signRows, lowRows) := planesRows packedRows nNew bits dim
  ((List.range nNew).foldl
      (fun sg i => writeLane P sg 2 nsg (oldN + i) fun g => entry signRows (i * nsg + g))
      (resize sign (newBlocks * (nsg * BLOCK))),
    low.take (oldN * ((bits - 1) * nsg)) ++ lowRows)

/-- `Vec::copy_within`. -/
def copyWithin (l : List UInt8) (src len dst : ℕ) : List UInt8 :=
  overwrite l dst ((l.drop src).take len)

/-- Move vector `src`'s codes into slot `dst` in both regions. -/
def planesMove (P : Platform) (sign low : List UInt8) (bits nByteGroups src dst : ℕ) :
    List UInt8 × List UInt8 :=
  let (nsg, lowRow) := planesGeom bits nByteGroups
  (moveLane P sign 2 nsg src dst, copyWithin low (src * lowRow) lowRow (dst * lowRow))

/-- Whether this host's sign blocks are the vector-major permutation of the canonical form. -/
def planesSignPermuted (P : Platform) (nsg : ℕ) : Bool :=
  decide (P.arch = .x86_64) && vectorMajorFor P 2 nsg

/-- Sign block `b` in the canonical form (group `g` of lane `l` at `g * 32 + l`), then the block's
low rows: a unit's code bytes. Rows past `nVectors` are zero. -/
def planesUnitCodes (P : Platform) (sign low : List UInt8) (bits nByteGroups b nVectors : ℕ) :
    List UInt8 :=
  let (nsg, lowRow) := planesGeom bits nByteGroups
  let sb := nsg * BLOCK
  let blk := rowAt sign sb b
  let canonical := if planesSignPermuted P nsg then vectorMajorToSeqChunk blk else blk
  let v0 := b * BLOCK
  let v1 := min (v0 + BLOCK) nVectors
  resize (canonical ++ (low.drop (v0 * lowRow)).take (v1 * lowRow - v0 * lowRow))
    (sb + BLOCK * lowRow)

/-- A canonical sign region to this host's form. -/
def planesSignToNative (P : Platform) (sign : List UInt8) (nsg : ℕ) : List UInt8 :=
  if planesSignPermuted P nsg then vectorMajorChunk sign else sign

/-- One row's codes into lane `v % 32` of a canonical sign block and the low region. -/
def planesWriteRowCanonical (sign low : List UInt8) (bits nByteGroups v : ℕ) (codes : List UInt8) :
    List UInt8 × List UInt8 :=
  let (nsg, lowRow) := planesGeom bits nByteGroups
  let (srow, lrow) := planesRowFromCodes codes bits nByteGroups
  (scatter (fun g => v / BLOCK * nsg * BLOCK + g * BLOCK + v % BLOCK) (entry srow) (List.range nsg)
      sign,
    overwrite low (v * lowRow) lrow)

/-- Canonical regions to packed rows. -/
def planesCanonicalToPacked (sign low : List UInt8) (bits nByteGroups nVectors : ℕ) : List UInt8 :=
  let (nsg, lowRow) := planesGeom bits nByteGroups
  (List.range nVectors).flatMap fun v =>
    rowAt low lowRow v ++
      tabulate nsg fun g => entry sign (v / BLOCK * nsg * BLOCK + g * BLOCK + v % BLOCK)

/-! ## Row by row -/

section Rows

variable {bits dim : ℕ}

theorem planesRowsFromPacked_eq (packed : List UInt8) (n : ℕ) :
    planesRowsFromPacked packed n bits dim =
      ((List.range n).flatMap fun v => signPart bits dim (rowAt packed (bits * (dim / 8)) v),
        (List.range n).flatMap fun v => lowPart bits dim (rowAt packed (bits * (dim / 8)) v)) :=
  rfl

/-- Whichever way they are read, the sign and low rows are the two parts of the packed rows. -/
theorem planesRows_eq (hb : PlanesBits bits) (hd : dim % 8 = 0) (hpos : 0 < dim)
    {packed : List UInt8} {n : ℕ} (hlen : packed.length = n * (bits * (dim / 8))) :
    planesRows packed n bits dim =
      ((List.range n).flatMap fun v => signPart bits dim (rowAt packed (bits * (dim / 8)) v),
        (List.range n).flatMap fun v => lowPart bits dim (rowAt packed (bits * (dim / 8)) v)) := by
  rcases hb with rfl | rfl
  · have hnbg : dim / codesPerByte 2 / 2 = dim / 8 := by simp only [codesPerByte]; omega
    have hnz : dim / codesPerByte 2 ≠ 0 := by simp only [codesPerByte]; omega
    have hcount : (extractCodesFlat packed n 2 dim).length / (dim / codesPerByte 2) = n := by
      rw [length_extractCodesFlat (Or.inl rfl) hd, Nat.mul_div_cancel _ (Nat.pos_of_ne_zero hnz)]
    have hrow (v : ℕ) (hv : v < n) :
        planesSplitRow (rowAt (extractCodesFlat packed n 2 dim) (dim / codesPerByte 2) v) (dim / 8) =
          (signPart 2 dim (rowAt packed (2 * (dim / 8)) v),
            lowPart 2 dim (rowAt packed (2 * (dim / 8)) v)) := by
      rw [rowAt_extractCodesFlat (Or.inl rfl) hd _ hv, planesSplitRow_eq,
        packRow_extractRow (Or.inl rfl) hd (length_rowAt hlen hv)]
    simp only [planesRows, if_true, planesSplitRows, hnbg, if_neg hnz, hcount]
    refine Prod.ext (List.flatMap_congr fun v hv => ?_) (List.flatMap_congr fun v hv => ?_) <;>
      rw [hrow v (List.mem_range.1 hv)]
  · rw [planesRows, if_neg (by decide), planesRowsFromPacked_eq]

end Rows

/-! ## Regions that hold `n` rows -/

/-- The regions hold the sign and low parts of the packed rows `f 0 .. f (n - 1)`. -/
structure PlanesHold (P : Platform) (bits dim n : ℕ) (f : ℕ → List UInt8) (sign low : List UInt8) :
    Prop where
  sign : LanesHold P 2 (dim / 8) n (fun v g => entry (signPart bits dim (f v)) g) sign
  low : low = (List.range n).flatMap fun v => lowPart bits dim (f v)

section PlanesHold

variable {P : Platform} {bits dim n : ℕ} {f : ℕ → List UInt8} {sign low : List UInt8}

theorem PlanesHold.congr {f' : ℕ → List UInt8} (h : PlanesHold P bits dim n f sign low)
    (hf : ∀ v < n, f v = f' v) : PlanesHold P bits dim n f' sign low where
  sign := h.sign.congr fun v hv g _ => by rw [hf v hv]
  low := h.low.trans (List.flatMap_congr fun v hv => by rw [hf v (List.mem_range.1 hv)])

theorem PlanesHold.length_low (hb : PlanesBits bits) (h : PlanesHold P bits dim n f sign low)
    (hf : ∀ v < n, (f v).length = bits * (dim / 8)) :
    low.length = n * ((bits - 1) * (dim / 8)) := by
  rw [h.low, length_flatMap_range fun v hv => length_lowPart hb (hf v hv)]

theorem PlanesHold.low_row (hb : PlanesBits bits) (h : PlanesHold P bits dim n f sign low)
    (hf : ∀ v < n, (f v).length = bits * (dim / 8)) {v : ℕ} (hv : v < n) :
    rowAt low ((bits - 1) * (dim / 8)) v = lowPart bits dim (f v) := by
  rw [h.low, rowAt_flatMap_range (fun v hv => length_lowPart hb (hf v hv)) hv]

/-- The entries of a region of sign rows. -/
theorem entry_signRows (hb : PlanesBits bits) {m v g : ℕ}
    (hf : ∀ v < m, (f v).length = bits * (dim / 8)) (hv : v < m) (hg : g < dim / 8) :
    entry ((List.range m).flatMap fun v => signPart bits dim (f v)) (v * (dim / 8) + g) =
      entry (signPart bits dim (f v)) g :=
  entry_flatMap_range (fun v hv => length_signPart hb (hf v hv)) hv hg

theorem planesHold_rows (hb : PlanesBits bits) (hf : ∀ v < n, (f v).length = bits * (dim / 8)) :
    PlanesHold P bits dim n f (packBlockedNative P n ((n + 31) / 32) 2 (dim / 8)
      ((List.range n).flatMap fun v => signPart bits dim (f v)))
      ((List.range n).flatMap fun v => lowPart bits dim (f v)) where
  sign := (lanesHold_packBlockedNative _).congr fun _ hv _ hg => entry_signRows hb hf hv hg
  low := rfl

theorem planesHold_repack (hb : PlanesBits bits) (hd : dim % 8 = 0) (hpos : 0 < dim)
    {packed : List UInt8} (hlen : packed.length = n * (bits * (dim / 8))) :
    PlanesHold P bits dim n (rowAt packed (bits * (dim / 8)))
      (planesRepack P packed n bits dim).1 (planesRepack P packed n bits dim).2.1 := by
  simp only [planesRepack, blockedGeometry_eq, planesRows_eq hb hd hpos hlen]
  exact planesHold_rows hb fun v hv => length_rowAt hlen hv

/-- The blocks `first .. last` of a list of packed rows. -/
theorem planesHold_repackBlocks (hb : PlanesBits bits) (hd : dim % 8 = 0) (hpos : 0 < dim)
    {packed : List UInt8} {first last m : ℕ} (hfirst : first * 32 ≤ m)
    (hle : first ≤ last) (hlast : last ≤ (m + 31) / 32)
    (hlen : packed.length = m * (bits * (dim / 8))) :
    PlanesHold P bits dim (min (last * 32) m - first * 32)
      (fun v => rowAt packed (bits * (dim / 8)) (first * 32 + v))
      (planesRepackBlockRange P packed m bits dim first last).1
      (planesRepackBlockRange P packed m bits dim first last).2 := by
  have hblocks : last - first = (min (last * 32) m - first * 32 + 31) / 32 := by omega
  have hcut : min (last * 32) m * (bits * (dim / 8)) - first * 32 * (bits * (dim / 8)) =
      (min (last * 32) m - first * 32) * (bits * (dim / 8)) := (Nat.sub_mul _ _ _).symm
  have hsub : ((packed.drop (first * 32 * (bits * (dim / 8)))).take
      ((min (last * 32) m - first * 32) * (bits * (dim / 8)))).length =
        (min (last * 32) m - first * 32) * (bits * (dim / 8)) := by
    have hrows : min (last * 32) m * (bits * (dim / 8)) ≤ m * (bits * (dim / 8)) :=
      Nat.mul_le_mul_right _ (Nat.min_le_right _ _)
    rw [List.length_take, List.length_drop, hlen, ← hcut]
    omega
  have hrow (v : ℕ) (hv : v < min (last * 32) m - first * 32) :
      rowAt ((packed.drop (first * 32 * (bits * (dim / 8)))).take
        ((min (last * 32) m - first * 32) * (bits * (dim / 8)))) (bits * (dim / 8)) v =
      rowAt packed (bits * (dim / 8)) (first * 32 + v) := by
    rw [← hcut]
    exact rowAt_drop_take packed (show first * 32 + v < min (last * 32) m by omega)
  simp only [planesRepackBlockRange, BLOCK, hblocks, hcut, planesRows_eq hb hd hpos hsub]
  exact (planesHold_rows hb fun v hv => length_rowAt hsub hv).congr hrow

/-- The blocks `first ..` of a list of packed rows. -/
theorem planesHold_repackBlockRange (hb : PlanesBits bits) (hd : dim % 8 = 0) (hpos : 0 < dim)
    {packed : List UInt8} {first m : ℕ} (hfirst : first * 32 ≤ m)
    (hlen : packed.length = m * (bits * (dim / 8))) :
    PlanesHold P bits dim (m - first * 32)
      (fun v => rowAt packed (bits * (dim / 8)) (first * 32 + v))
      (planesRepackBlockRange P packed m bits dim first ((m + 31) / 32)).1
      (planesRepackBlockRange P packed m bits dim first ((m + 31) / 32)).2 := by
  have hrows : min ((m + 31) / 32 * 32) m = m := by omega
  have h := @planesHold_repackBlocks P bits dim hb hd hpos packed first ((m + 31) / 32) m hfirst
    (by omega) le_rfl hlen
  rwa [hrows] at h

/-- Rebuilding both regions from block `first` on. -/
theorem planesHold_splice (hb : PlanesBits bits) {first m : ℕ} {f' : ℕ → List UInt8}
    {sign' low' : List UInt8} (h : PlanesHold P bits dim n f sign low)
    (hlen : ∀ v < n, (f v).length = bits * (dim / 8)) (hfirst : first = n / 32) (hm : n ≤ m)
    (hp : PlanesHold P bits dim (m - first * 32) (fun v => f' (first * 32 + v)) sign' low')
    (hf : ∀ v < n, f v = f' v) :
    PlanesHold P bits dim m f' (sign.take (first * (dim / 8 * 32)) ++ sign')
      (low.take (first * 32 * ((bits - 1) * (dim / 8))) ++ low') where
  sign := lanesHold_splice h.sign hfirst hm hp.sign fun v hv g _ => by rw [hf v hv]
  low := by
    have hcut := drop_take_flatMap_range (fun v hv => length_lowPart hb (hlen v hv))
      (show 0 + first * 32 ≤ n by omega)
    simp only [Nat.zero_mul, List.drop_zero, Nat.zero_add] at hcut
    rw [h.low, hcut, hp.low]
    conv_rhs => rw [show m = first * 32 + (m - first * 32) by omega, List.range_add,
      List.flatMap_append, List.flatMap_map]
    congr 1
    exact List.flatMap_congr fun v hv => by
      rw [hf v (by have := List.mem_range.1 hv; omega)]

theorem planesHold_appendLanes (hb : PlanesBits bits) (hd : dim % 8 = 0) (hpos : 0 < dim)
    (h : PlanesHold P bits dim n f sign low) (hf : ∀ v < n, (f v).length = bits * (dim / 8))
    {packedRows : List UInt8} {nNew : ℕ} (hlen : packedRows.length = nNew * (bits * (dim / 8))) :
    PlanesHold P bits dim (n + nNew)
      (fun v => if v < n then f v else rowAt packedRows (bits * (dim / 8)) (v - n))
      (planesAppendLanes P sign low packedRows n nNew bits dim).1
      (planesAppendLanes P sign low packedRows n nNew bits dim).2 := by
  simp only [planesAppendLanes, planesRows_eq hb hd hpos hlen, BLOCK]
  constructor
  · refine (lanesHold_appendRows h.sign _).congr fun v hv g hg => ?_
    by_cases hvn : v < n
    · rw [if_pos hvn, if_pos hvn]
    · rw [if_neg hvn, if_neg hvn,
        entry_signRows hb (fun v hv => length_rowAt hlen hv) (by omega) hg]
  · have hkeep : low.take (n * ((bits - 1) * (dim / 8))) = low :=
      List.take_of_length_le (h.length_low hb hf).le
    rw [hkeep, List.range_add, List.flatMap_append, List.flatMap_map]
    congr 1
    · rw [h.low]
      exact List.flatMap_congr fun v hv => by rw [if_pos (List.mem_range.1 hv)]
    · exact List.flatMap_congr fun v _ => by
        rw [if_neg (by omega), Nat.add_sub_cancel_left]

/-- Row `v` of a copy within a list of whole rows. -/
theorem copyWithin_flatMap {m d src dst : ℕ} {f : ℕ → List UInt8} (hf : ∀ v < m, (f v).length = d)
    (hs : src < m) (hdst : dst < m) :
    copyWithin ((List.range m).flatMap f) (src * d) d (dst * d) =
      (List.range m).flatMap fun v => if v = dst then f src else f v := by
  have hrow : (((List.range m).flatMap f).drop (src * d)).take d = f src :=
    rowAt_flatMap_range hf hs
  have hl := length_flatMap_range hf
  have hle : (dst + 1) * d ≤ m * d := Nat.mul_le_mul_right d hdst
  rw [Nat.add_mul, Nat.one_mul] at hle
  have hf' : ∀ v < m, (if v = dst then f src else f v).length = d := by
    intro v hv
    split
    · exact hf src hs
    · exact hf v hv
  rw [copyWithin, hrow]
  refine @ext_grid _ _ _ m d ?_ (length_flatMap_range hf') fun v hv j hj => ?_
  · rw [length_overwrite (by rw [hf src hs, hl]; exact hle), hl]
  · rw [getElem?_flatMap_range hf' hv hj, getElem?_overwrite (by omega), hf src hs]
    by_cases hvd : v = dst
    · subst hvd
      rw [if_pos (by omega), if_pos rfl, Nat.add_sub_cancel_left]
    · rw [if_neg fun hin => hvd ?_, if_neg hvd, getElem?_flatMap_range hf hv hj]
      exact (mul_add_inj hj (show v * d + j - dst * d < d by omega)
        (show v * d + j = dst * d + (v * d + j - dst * d) by omega)).1

/-- What `swap_remove` does to the two regions. -/
theorem planesHold_swapRemove (hb : PlanesBits bits) (hd : dim % 8 = 0) {idx : ℕ}
    (h : PlanesHold P bits dim (n + 1) f sign low)
    (hf : ∀ v < n + 1, (f v).length = bits * (dim / 8)) (hidx : idx ≤ n) :
    PlanesHold P bits dim n (fun v => if v = idx then f n else f v)
      ((zeroLane P (if idx ≠ n then
          (planesMove P sign low bits (dim / codesPerByte bits) n idx).1 else sign) 2 (dim / 8) n).take
        ((n + 31) / 32 * (dim / 8 * 32)))
      ((if idx ≠ n then (planesMove P sign low bits (dim / codesPerByte bits) n idx).2
        else low).take (n * ((bits - 1) * (dim / 8)))) := by
  simp only [planesMove, planesGeom_eq hb hd]
  constructor
  · refine (lanesHold_swapRemove h.sign hidx).congr fun v hv g _ => ?_
    by_cases hvi : v = idx <;> simp [hvi]
  · have hcut (l : ℕ → List UInt8) (hl : ∀ v < n + 1, (l v).length = (bits - 1) * (dim / 8)) :
        ((List.range (n + 1)).flatMap l).take (n * ((bits - 1) * (dim / 8))) =
          (List.range n).flatMap l := by
      have := drop_take_flatMap_range hl (show 0 + n ≤ n + 1 by omega)
      simpa only [Nat.zero_mul, List.drop_zero, Nat.zero_add] using this
    have hlow : ∀ v < n + 1, (lowPart bits dim (f v)).length = (bits - 1) * (dim / 8) :=
      fun v hv => length_lowPart hb (hf v hv)
    by_cases hne : idx = n
    · rw [if_neg (not_not.2 hne), h.low, hcut _ hlow]
      exact List.flatMap_congr fun v hv => by
        rw [if_neg (by have := List.mem_range.1 hv; omega)]
    · rw [if_pos hne, h.low, copyWithin_flatMap hlow (by omega) (by omega), hcut]
      · exact List.flatMap_congr fun v _ => (apply_ite (lowPart bits dim) _ _ _).symm
      · intro v hv
        split
        · exact hlow n (by omega)
        · exact hlow v hv

/-! ## Reading rows -/

/-- The sign region's layout, where an index takes the planes layout. -/
theorem readCode_sign (hp : planesFor P bits (dim / codesPerByte bits) = true) (hd : dim % 8 = 0)
    (sign : List UInt8) (b g lane : ℕ) : readCode P sign 2 (dim / 8) b g lane =
      entry sign (b * (dim / 8) * BLOCK + planesSlot P g lane) := by
  have hb := planesBits_of_planesFor hp
  by_cases hx : P.arch = .x86_64
  · have hvm : vectorMajorFor P 2 (dim / 8) = true := by
      rcases hb with rfl | rfl <;>
        simp only [planesFor, hx, if_true, Bool.and_eq_true, beq_iff_eq, codesPerByte] at hp <;>
        simp only [vectorMajorFor, hx, hp, decide_true, Bool.true_or, Bool.true_and,
          beq_iff_eq] <;> omega
    have h8 : vm8For P 2 (dim / 8) = false := by
      simp [vm8For, vm8TwoBitFor, useVm8, hx]
    rw [readCode, h8, if_neg (by decide), if_pos hvm, planesSlot, if_pos hx, vmByteIndex]
    congr 1
    omega
  · have ha : P.arch = .aarch64 ∧ P.vm8TwoBit = false := by
      rcases hb with rfl | rfl <;>
        simp only [planesFor, hx, if_false, Bool.and_eq_true, decide_eq_true_eq,
          Bool.not_eq_true'] at hp <;> tauto
    have h8 : vm8For P 2 (dim / 8) = false := by
      simp [vm8For, vm8TwoBitFor, ha.2]
    have hvm : vectorMajorFor P 2 (dim / 8) = false := by
      simp [vectorMajorFor, hx]
    rw [readCode, h8, if_neg (by decide), hvm, if_neg (by decide), ha.1, planesSlot, if_neg hx]
    simp only [BLOCK]
    congr 1
    ring

theorem PlanesHold.entry_sign (h : PlanesHold P bits dim n f sign low)
    (hp : planesFor P bits (dim / codesPerByte bits) = true) (hd : dim % 8 = 0) {v g : ℕ}
    (hv : v < n) (hg : g < dim / 8) :
    entry sign (v / BLOCK * (dim / 8) * BLOCK + planesSlot P g (v % BLOCK)) =
      entry (signPart bits dim (f v)) g := by
  have := h.sign.code v g hg
  rwa [laneCode, readCode_sign hp hd, if_pos hv] at this

/-- A vector's packed row, read from the two regions. -/
theorem PlanesHold.packedRow (h : PlanesHold P bits dim n f sign low)
    (hp : planesFor P bits (dim / codesPerByte bits) = true) (hd : dim % 8 = 0)
    (hf : ∀ v < n, (f v).length = bits * (dim / 8)) {v : ℕ} (hv : v < n) :
    planesPackedRow P sign low bits (dim / 8) v = f v := by
  have hb := planesBits_of_planesFor hp
  rw [planesPackedRow, h.low_row hb hf hv]
  conv_rhs => rw [← @lowPart_append_signPart bits dim (f v)]
  congr 1
  refine (eq_tabulate (length_signPart hb (hf v hv)) fun g hg => ?_).symm
  rw [getElem?_eq_entry (by rwa [length_signPart hb (hf v hv)]), h.entry_sign hp hd hv hg]

theorem PlanesHold.toPacked (h : PlanesHold P bits dim n f sign low)
    (hp : planesFor P bits (dim / codesPerByte bits) = true) (hd : dim % 8 = 0)
    (hf : ∀ v < n, (f v).length = bits * (dim / 8)) :
    planesToPacked P sign low bits (dim / 8) n = (List.range n).flatMap f :=
  List.flatMap_congr fun _ hv => h.packedRow hp hd hf (List.mem_range.1 hv)

/-- A vector's code bytes, read from the two regions. -/
theorem PlanesHold.readRow (h : PlanesHold P bits dim n f sign low)
    (hp : planesFor P bits (dim / codesPerByte bits) = true) (hd : dim % 8 = 0)
    (hf : ∀ v < n, (f v).length = bits * (dim / 8)) {v : ℕ} (hv : v < n) :
    planesReadRow P sign low bits (dim / codesPerByte bits) v = extractRow bits dim (f v) := by
  have hb := planesBits_of_planesFor hp
  have hdim : dim / 8 * 8 = dim := by omega
  rw [planesReadRow]
  by_cases h2 : bits = 2
  · subst h2
    have hnsg : dim / codesPerByte 2 / 2 = dim / 8 := by simp only [codesPerByte]; omega
    simp only [ne_eq, not_true_eq_false, if_false, hnsg]
    have hpair (g : ℕ) (hg : g < dim / 8) : planesToCodeBytes
        (entry sign (v / BLOCK * (dim / 8) * BLOCK + planesSlot P g (v % BLOCK)))
        (entry low (v * (dim / 8) + g)) =
        (entry (extractRow 2 dim (f v)) (2 * g), entry (extractRow 2 dim (f v)) (2 * g + 1)) := by
      have hrow := h.low_row hb hf hv
      have hlow : entry low (v * (dim / 8) + g) = entry (f v) g := by
        rw [Nat.one_mul] at hrow
        rw [← entry_rowAt _ hg, hrow, entry_lowPart _ (by omega)]
      rw [h.entry_sign hp hd hv hg, hlow, entry_signPart, Nat.one_mul, planesToCodeBytes_eq _ hg]
    have hlen2 (x : UInt8 × UInt8) : [x.1, x.2].length = 2 := rfl
    refine @ext_grid _ _ _ (dim / 8) 2 (length_flatMap_range fun _ _ => hlen2 _) ?_
      fun g hg o ho => ?_
    · rw [length_extractRow]
      simp only [codesPerByte]
      omega
    · have hlt : g * 2 + o < (extractRow 2 dim (f v)).length := by
        rw [length_extractRow]
        simp only [codesPerByte]
        omega
      rw [getElem?_flatMap_range (fun _ _ => hlen2 _) hg ho, hpair g hg, getElem?_eq_entry hlt,
        Nat.mul_comm g 2]
      obtain rfl | rfl : o = 0 ∨ o = 1 := by omega
      · rfl
      · rfl
  · simp only [ne_eq, h2, not_false_eq_true, if_true, planesGeom_eq hb hd, hdim]
    have hlen1 : (f v).length = 1 * (bits * (dim / 8)) := by rw [hf v hv, Nat.one_mul]
    have hall : rowAt (f v) (bits * (dim / 8)) 0 = f v := by
      rw [rowAt, Nat.zero_mul, List.drop_zero, List.take_of_length_le (hf v hv).le]
    rw [h.packedRow hp hd hf hv, extractCodesFlat_eq hb.valid hd, List.range_one,
      List.flatMap_cons, List.flatMap_nil, List.append_nil, hall]

end PlanesHold

end Turbovec.Pack
