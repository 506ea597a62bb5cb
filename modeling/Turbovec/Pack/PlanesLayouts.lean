import Turbovec.Pack.Layouts

/-!
# The planes layout, whole

The regions are determined by the rows they hold. So the conversions that build them from packed rows and
from the stored form agree, those that read them back return the rows they were built from, and growing,
moving, cutting and patching them gives the regions a repack of the resulting rows gives.
-/

namespace Turbovec.Pack

open Slice Grid

variable {P : Platform} {bits dim n : ℕ}

/-! ## Regions and rows -/

/-- The rows determine the regions. -/
theorem PlanesHold.unique {f : ℕ → List UInt8} {sign low sign' low' : List UInt8}
    (h : PlanesHold P bits dim n f sign low) (h' : PlanesHold P bits dim n f sign' low') :
    (sign, low) = (sign', low') :=
  Prod.ext (h.sign.unique h'.sign) (h.low.trans h'.low.symm)

/-- The regions a from-scratch repack gives a list of packed rows. -/
def planesOf (P : Platform) (bits dim : ℕ) (rows : List (List UInt8)) : List UInt8 × List UInt8 :=
  ((planesRepack P rows.flatten rows.length bits dim).1,
    (planesRepack P rows.flatten rows.length bits dim).2.1)

section Rows

variable {rows new : List (List UInt8)} {last : List UInt8}

theorem length_getD (h : PackedRows bits dim rows) :
    ∀ v < rows.length, (rows.getD v []).length = bits * (dim / 8) := by
  intro v hv
  rw [List.getD_eq_getElem _ _ hv]
  exact h _ (List.getElem_mem hv)

theorem planesHold_planesOf (hb : PlanesBits bits) (hd : dim % 8 = 0) (hpos : 0 < dim)
    (h : PackedRows bits dim rows) :
    PlanesHold P bits dim rows.length (fun v => rows.getD v []) (planesOf P bits dim rows).1
      (planesOf P bits dim rows).2 :=
  (planesHold_repack hb hd hpos (length_flatten_rows h)).congr fun _ hv => rowAt_rows h hv

/-- Regions that hold the rows are those of the repack. -/
theorem PlanesHold.eq_planesOf (hb : PlanesBits bits) (hd : dim % 8 = 0) (hpos : 0 < dim)
    (h : PackedRows bits dim rows) {r : List UInt8 × List UInt8}
    (hr : PlanesHold P bits dim rows.length (fun v => rows.getD v []) r.1 r.2) :
    r = planesOf P bits dim rows :=
  hr.unique (planesHold_planesOf hb hd hpos h)

/-! ## The stored form -/

/-- Whatever its padding lanes hold, a stored buffer converts to the regions of its rows. -/
theorem planesFromSeq_eq (hp : planesFor P bits (dim / codesPerByte bits) = true) (hd : dim % 8 = 0)
    (hpos : 0 < dim) {seq : List UInt8}
    (hlen : seq.length = (n + 31) / 32 * (dim / codesPerByte bits * 32)) :
    planesFromSeq P seq bits (dim / codesPerByte bits) n =
      ((planesRepack P (seqToPacked seq n bits dim) n bits dim).1,
        (planesRepack P (seqToPacked seq n bits dim) n bits dim).2.1) ∧
    planesFromSeqOwned P seq bits (dim / codesPerByte bits) n =
      ((planesRepack P (seqToPacked seq n bits dim) n bits dim).1,
        (planesRepack P (seqToPacked seq n bits dim) n bits dim).2.1) := by
  have hb := planesBits_of_planesFor hp
  have hrep := PlanesHold.congr (@planesHold_repack P bits dim n hb hd hpos _ (length_seqToPacked seq))
    fun v hv => rowAt_seqToPacked seq hb.valid hd hv
  exact ⟨(planesHold_fromSeq hp hd hpos seq).unique hrep,
    (planesHold_fromSeqOwned hp hd hpos hlen).unique hrep⟩

/-- The regions of packed rows go back to the rows' stored form. -/
theorem planesToSeq_planesOf (hp : planesFor P bits (dim / codesPerByte bits) = true)
    (hd : dim % 8 = 0) (hpos : 0 < dim) (h : PackedRows bits dim rows) :
    planesToSeq P (planesOf P bits dim rows).1 (planesOf P bits dim rows).2 bits
        (dim / codesPerByte bits) rows.length =
      repackSeq rows.flatten rows.length bits dim := by
  have hb := planesBits_of_planesFor hp
  have hold := planesHold_planesOf (P := P) hb hd hpos h
  apply (hold.toSeq hp hd (length_getD h)).unique
  apply (seqHold_repackSeq hb.valid hd _).congr
  intro v hv g _
  rw [rowAt_rows h hv]

/-- A vector's packed row, its code bytes, and the bytes the per-row converter gives them. -/
theorem planes_row (hp : planesFor P bits (dim / codesPerByte bits) = true) (hd : dim % 8 = 0)
    (hpos : 0 < dim) (h : PackedRows bits dim rows) {v : ℕ} (hv : v < rows.length) :
    planesPackedRow P (planesOf P bits dim rows).1 (planesOf P bits dim rows).2 bits (dim / 8) v =
      rows.getD v [] ∧
    planesReadRow P (planesOf P bits dim rows).1 (planesOf P bits dim rows).2 bits
        (dim / codesPerByte bits) v = extractRow bits dim (rows.getD v []) ∧
    planesRowFromCodes (extractRow bits dim (rows.getD v [])) bits (dim / codesPerByte bits) =
      (tabulate (dim / 8) fun g => entry (planesOf P bits dim rows).1
          (v / BLOCK * (dim / 8) * BLOCK + planesSlot P g (v % BLOCK)),
        rowAt (planesOf P bits dim rows).2 ((bits - 1) * (dim / 8)) v) := by
  have hb := planesBits_of_planesFor hp
  have hold := planesHold_planesOf (P := P) hb hd hpos h
  have hlen := length_getD h
  refine ⟨hold.packedRow hp hd hlen hv, hold.readRow hp hd hlen hv, ?_⟩
  rw [planesRowFromCodes_eq hb hd, packRow_extractRow hb.valid hd (hlen v hv), hold.low_row hb hlen hv]
  congr 1
  apply eq_tabulate (length_signPart hb (hlen v hv))
  intro g hg
  rw [getElem?_eq_entry (by rwa [length_signPart hb (hlen v hv)]), hold.entry_sign hp hd hv hg]

end Rows

/-! ## Units -/

/-- The canonical regions, put together from a cache's units. -/
def canonicalOf (P : Platform) (r : List UInt8 × List UInt8) (bits nByteGroups nVectors : ℕ) :
    List UInt8 × List UInt8 :=
  let (nsg, lowRow) := planesGeom bits nByteGroups
  let unit := fun b => planesUnitCodes P r.1 r.2 bits nByteGroups b nVectors
  ((List.range ((nVectors + 31) / 32)).flatMap fun b => (unit b).take (nsg * BLOCK),
    ((List.range ((nVectors + 31) / 32)).flatMap fun b => (unit b).drop (nsg * BLOCK)).take
      (nVectors * lowRow))

/-- Zeroed canonical regions with every row's codes written into them. -/
def writeRows (bits nByteGroups nVectors : ℕ) (codes : ℕ → List UInt8) : List UInt8 × List UInt8 :=
  let (nsg, lowRow) := planesGeom bits nByteGroups
  (List.range nVectors).foldl
    (fun c v => planesWriteRowCanonical c.1 c.2 bits nByteGroups v (codes v))
    (List.replicate ((nVectors + 31) / 32 * (nsg * BLOCK)) 0, List.replicate (nVectors * lowRow) 0)

section Units

variable {f : ℕ → List UInt8} {r : List UInt8 × List UInt8}

theorem CanonicalHold.unique {sign low sign' low' : List UInt8}
    (h : CanonicalHold bits dim n f sign low) (h' : CanonicalHold bits dim n f sign' low') :
    (sign, low) = (sign', low') :=
  Prod.ext (h.sign.unique h'.sign) (h.low.trans h'.low.symm)

/-- The units of a cache hold its rows. -/
theorem canonicalHold_canonicalOf (h : PlanesHold P bits dim n f r.1 r.2)
    (hp : planesFor P bits (dim / codesPerByte bits) = true) (hd : dim % 8 = 0)
    (hf : ∀ v < n, (f v).length = bits * (dim / 8)) :
    CanonicalHold bits dim n f (canonicalOf P r bits (dim / codesPerByte bits) n).1
      (canonicalOf P r bits (dim / codesPerByte bits) n).2 := by
  have hb := planesBits_of_planesFor hp
  have hsignLen (b : ℕ) := @length_planesUnitSign bits dim fun lane =>
    paddedRow bits dim n f (b * 32 + lane)
  have hunit : ∀ b ∈ List.range ((n + 31) / 32),
      planesUnitCodes P r.1 r.2 bits (dim / codesPerByte bits) b n =
        planesUnit bits dim fun lane => paddedRow bits dim n f (b * 32 + lane) :=
    fun b hblk => h.unitCodes_eq hp hd hf (List.mem_range.1 hblk)
  simp only [canonicalOf, planesGeom_eq hb hd, BLOCK]
  constructor
  · rw [List.flatMap_congr fun b hblk => congrArg (List.take _) (hunit b hblk)]
    simp only [planesUnit, List.take_left' (hsignLen _)]
    refine seqHold_of_blocks (fun b _ => hsignLen b) fun b _ lane hlane g hg => ?_
    rw [entry_flatMap_range (fun _ _ => length_tabulate _ _) hg hlane, entry_tabulate _ hlane,
      entry_signPart_paddedRow]
  · have hlow : ∀ v < (n + 31) / 32 * 32,
        (lowPart bits dim (paddedRow bits dim n f v)).length = (bits - 1) * (dim / 8) :=
      fun v _ => length_lowPart hb (length_paddedRow hf v)
    have hblocks := flatMap_blocks 32 ((n + 31) / 32 * 32) ((n + 31) / 32) fun v =>
      lowPart bits dim (paddedRow bits dim n f v)
    rw [Nat.min_self] at hblocks
    have hcut := drop_take_flatMap_range hlow (show 0 + n ≤ (n + 31) / 32 * 32 by omega)
    simp only [Nat.zero_mul, List.drop_zero, Nat.zero_add] at hcut
    rw [List.flatMap_congr fun b hblk => congrArg (List.drop _) (hunit b hblk)]
    simp only [planesUnit, List.drop_left' (hsignLen _)]
    have hfull : ((List.range ((n + 31) / 32)).flatMap fun b => (List.range 32).flatMap fun lane =>
        lowPart bits dim (paddedRow bits dim n f (b * 32 + lane))) =
        (List.range ((n + 31) / 32 * 32)).flatMap fun v =>
          lowPart bits dim (paddedRow bits dim n f v) := by
      rw [← hblocks]
      apply List.flatMap_congr
      intro b hblk
      have := List.mem_range.1 hblk
      rw [show min ((n + 31) / 32 * 32 - b * 32) 32 = 32 by omega]
    rw [hfull, hcut]
    apply List.flatMap_congr
    intro v hv
    rw [paddedRow, if_pos (List.mem_range.1 hv)]

/-- Writing every row's codes into zeroed canonical regions. -/
theorem canonicalHold_writeRows (hb : PlanesBits bits) (hd : dim % 8 = 0) (codes : ℕ → List UInt8) :
    CanonicalHold bits dim n (fun v => packRow bits dim (codes v))
      (writeRows bits (dim / codesPerByte bits) n codes).1
      (writeRows bits (dim / codesPerByte bits) n codes).2 := by
  have hstart : CanonicalHold bits dim n (fun _ => List.replicate (bits * (dim / 8)) 0)
      (List.replicate ((n + 31) / 32 * (dim / 8 * 32)) 0)
      (List.replicate (n * ((bits - 1) * (dim / 8))) 0) := by
    refine ⟨⟨List.length_replicate, fun v _ g _ => ?_⟩, ?_⟩
    · rw [entry_replicate_zero, entry_signPart, entry_replicate_zero, ite_self]
    · simp only [lowPart_replicate hb, List.flatMap_def, List.map_const', List.length_range,
        List.flatten_replicate_replicate]
  have hrun : ∀ m ≤ n, CanonicalHold bits dim n
      (fun v => if v < m then packRow bits dim (codes v) else List.replicate (bits * (dim / 8)) 0)
      ((List.range m).foldl (fun c v => planesWriteRowCanonical c.1 c.2 bits
        (dim / codesPerByte bits) v (codes v)) (List.replicate ((n + 31) / 32 * (dim / 8 * 32)) 0,
          List.replicate (n * ((bits - 1) * (dim / 8))) 0)).1
      ((List.range m).foldl (fun c v => planesWriteRowCanonical c.1 c.2 bits
        (dim / codesPerByte bits) v (codes v)) (List.replicate ((n + 31) / 32 * (dim / 8 * 32)) 0,
          List.replicate (n * ((bits - 1) * (dim / 8))) 0)).2 := by
    intro m hm
    induction m with
    | zero => exact hstart
    | succ m ih =>
      rw [List.range_succ, List.foldl_append, List.foldl_cons, List.foldl_nil]
      apply (CanonicalHold.writeRow hb hd (ih (by omega)) _ (by omega) (codes m)).congr
      · intro v _
        by_cases hvm : v = m
        · subst hvm
          rw [if_pos rfl, if_pos (by omega)]
        · rw [if_neg hvm]
          exact if_congr (by omega) rfl rfl
      · intro v _
        split
        · exact length_packRow _ _ _
        · exact List.length_replicate
  simp only [writeRows, planesGeom_eq hb hd, BLOCK]
  exact (hrun n le_rfl).congr fun v hv => if_pos hv

end Units

/-! ## Changing rows -/

section Changes

variable {rows new : List (List UInt8)} {last : List UInt8}

theorem planesAppendLanes_planesOf (hb : PlanesBits bits) (hd : dim % 8 = 0) (hpos : 0 < dim)
    (h : PackedRows bits dim rows) (hnew : PackedRows bits dim new) :
    planesAppendLanes P (planesOf P bits dim rows).1 (planesOf P bits dim rows).2 new.flatten
      rows.length new.length bits dim = planesOf P bits dim (rows ++ new) := by
  have hboth : PackedRows bits dim (rows ++ new) := by
    intro row hrow
    exact (List.mem_append.1 hrow).elim (h row) (hnew row)
  have happ := planesHold_appendLanes hb hd hpos (planesHold_planesOf (P := P) hb hd hpos h)
    (length_getD h) (length_flatten_rows hnew)
  apply PlanesHold.eq_planesOf hb hd hpos hboth
  rw [List.length_append]
  apply happ.congr
  intro v hv
  by_cases hvn : v < rows.length
  · rw [if_pos hvn, List.getD_append _ _ _ _ hvn]
  · rw [if_neg hvn, rowAt_rows hnew (by omega), List.getD_append_right _ _ _ _ (by omega)]

/-- Removing row `idx` in place: the last row moves into the hole in both regions, its old lane is zeroed,
and the regions are cut to the new geometry. -/
theorem planesRemove_planesOf (hb : PlanesBits bits) (hd : dim % 8 = 0) (hpos : 0 < dim)
    (h : PackedRows bits dim (rows ++ [last])) {idx : ℕ} (hidx : idx ≤ rows.length) :
    ((zeroLane P (if idx ≠ rows.length then
          (planesMove P (planesOf P bits dim (rows ++ [last])).1
            (planesOf P bits dim (rows ++ [last])).2 bits (dim / codesPerByte bits) rows.length idx).1
        else (planesOf P bits dim (rows ++ [last])).1) 2 (dim / 8) rows.length).take
        ((rows.length + 31) / 32 * (dim / 8 * 32)),
      (if idx ≠ rows.length then
          (planesMove P (planesOf P bits dim (rows ++ [last])).1
            (planesOf P bits dim (rows ++ [last])).2 bits (dim / codesPerByte bits) rows.length idx).2
        else (planesOf P bits dim (rows ++ [last])).2).take
        (rows.length * ((bits - 1) * (dim / 8)))) =
      planesOf P bits dim (rows.set idx last) := by
  have hset : PackedRows bits dim (rows.set idx last) := by
    intro row hrow
    rcases List.mem_or_eq_of_mem_set hrow with hrow | rfl
    · exact h row (List.mem_append_left _ hrow)
    · exact h row (List.mem_append_right _ (List.mem_singleton_self row))
  have hold := planesHold_planesOf (P := P) hb hd hpos h
  have hlen := length_getD h
  rw [List.length_append, List.length_singleton] at hold hlen
  apply PlanesHold.eq_planesOf hb hd hpos hset
  rw [List.length_set]
  apply (planesHold_swapRemove hb hd hold hlen hidx).congr
  intro v hv
  by_cases hvi : v = idx
  · subst hvi
    rw [if_pos rfl, List.getD_append_right _ _ _ _ le_rfl, Nat.sub_self]
    simp [hv]
  · rw [if_neg hvi, List.getD_append _ _ _ _ hv]
    simp [Ne.symm hvi]

/-- Any run of blocks, rebuilt from the rows, is that part of the whole repack. -/
theorem planesRepackBlockRange_planesOf (hb : PlanesBits bits) (hd : dim % 8 = 0) (hpos : 0 < dim)
    (h : PackedRows bits dim rows) {first k : ℕ} (hfirst : first * 32 ≤ rows.length)
    (hk : first + k ≤ (rows.length + 31) / 32) :
    planesRepackBlockRange P rows.flatten rows.length bits dim first (first + k) =
      (((planesOf P bits dim rows).1.drop (first * (dim / 8 * 32))).take (k * (dim / 8 * 32)),
        ((planesOf P bits dim rows).2.drop (first * 32 * ((bits - 1) * (dim / 8)))).take
          (windowRows rows.length first k * ((bits - 1) * (dim / 8)))) := by
  have hwin := planesHold_window hb (planesHold_planesOf (P := P) hb hd hpos h) (length_getD h) hk
  have hrange := @planesHold_repackBlocks P bits dim hb hd hpos rows.flatten first (first + k)
    rows.length hfirst (Nat.le_add_right _ _) hk (length_flatten_rows h)
  have hrows : min ((first + k) * 32) rows.length - first * 32 = windowRows rows.length first k := by
    simp only [windowRows]
    omega
  rw [hrows] at hrange
  apply PlanesHold.unique (hrange.congr _) hwin
  intro v hv
  exact rowAt_rows h (windowRows_lt hv)

/-- An append that rebuilds both regions from the first block it touches. -/
theorem planesSplice_planesOf (hb : PlanesBits bits) (hd : dim % 8 = 0) (hpos : 0 < dim)
    (h : PackedRows bits dim (rows ++ new)) :
    ((planesOf P bits dim rows).1.take (rows.length / 32 * (dim / 8 * 32)) ++
        (planesRepackBlockRange P (rows ++ new).flatten (rows ++ new).length bits dim
          (rows.length / 32) (((rows ++ new).length + 31) / 32)).1,
      (planesOf P bits dim rows).2.take (rows.length / 32 * 32 * ((bits - 1) * (dim / 8))) ++
        (planesRepackBlockRange P (rows ++ new).flatten (rows ++ new).length bits dim
          (rows.length / 32) (((rows ++ new).length + 31) / 32)).2) =
      planesOf P bits dim (rows ++ new) := by
  have hrows : PackedRows bits dim rows := fun row hrow => h row (List.mem_append_left _ hrow)
  have hle : rows.length ≤ (rows ++ new).length := by
    rw [List.length_append]
    omega
  have hpatch := @planesHold_repackBlockRange P bits dim hb hd hpos (rows ++ new).flatten
    (rows.length / 32) (rows ++ new).length (by omega) (length_flatten_rows h)
  apply PlanesHold.eq_planesOf hb hd hpos h
  apply planesHold_splice hb (planesHold_planesOf hb hd hpos hrows) (length_getD hrows) rfl hle
  · apply hpatch.congr
    intro v hv
    exact rowAt_rows h (by omega)
  · intro v hv
    rw [List.getD_append _ _ _ _ hv]

end Changes

/-! ## The layout -/

/-- Every conversion of the planes layout agrees with the from-scratch repack of the rows. In order: the
stored form to the regions, borrowed and in place, whatever its padding lanes hold; the regions back to the
stored form; single rows; units and the canonical regions; appending, removing and rebuilding rows. -/
theorem planes_exact (P : Platform) {bits dim : ℕ}
    (hp : planesFor P bits (dim / codesPerByte bits) = true) (hd : dim % 8 = 0) (hpos : 0 < dim) :
    (∀ n seq, seq.length = (n + 31) / 32 * (dim / codesPerByte bits * 32) →
      planesFromSeq P seq bits (dim / codesPerByte bits) n =
        ((planesRepack P (seqToPacked seq n bits dim) n bits dim).1,
          (planesRepack P (seqToPacked seq n bits dim) n bits dim).2.1) ∧
      planesFromSeqOwned P seq bits (dim / codesPerByte bits) n =
        ((planesRepack P (seqToPacked seq n bits dim) n bits dim).1,
          (planesRepack P (seqToPacked seq n bits dim) n bits dim).2.1)) ∧
    (∀ rows, PackedRows bits dim rows →
      (planesFromSeq P (repackSeq rows.flatten rows.length bits dim) bits (dim / codesPerByte bits)
          rows.length = planesOf P bits dim rows ∧
        planesFromSeqOwned P (repackSeq rows.flatten rows.length bits dim) bits
          (dim / codesPerByte bits) rows.length = planesOf P bits dim rows) ∧
      (planesToSeq P (planesOf P bits dim rows).1 (planesOf P bits dim rows).2 bits
          (dim / codesPerByte bits) rows.length = repackSeq rows.flatten rows.length bits dim ∧
        (bits = 4 → planes4ToSeq P (planesOf P bits dim rows).1 (planesOf P bits dim rows).2
          (dim / codesPerByte bits) rows.length = repackSeq rows.flatten rows.length bits dim) ∧
        CleanSeq bits (dim / codesPerByte bits) rows.length
          (repackSeq rows.flatten rows.length bits dim)) ∧
      (∀ v < rows.length,
        planesPackedRow P (planesOf P bits dim rows).1 (planesOf P bits dim rows).2 bits (dim / 8) v =
          rows.getD v [] ∧
        planesReadRow P (planesOf P bits dim rows).1 (planesOf P bits dim rows).2 bits
          (dim / codesPerByte bits) v = extractRow bits dim (rows.getD v []) ∧
        planesRowFromCodes (extractRow bits dim (rows.getD v [])) bits (dim / codesPerByte bits) =
          (tabulate (dim / 8) fun g => entry (planesOf P bits dim rows).1
              (v / BLOCK * (dim / 8) * BLOCK + planesSlot P g (v % BLOCK)),
            rowAt (planesOf P bits dim rows).2 ((bits - 1) * (dim / 8)) v)) ∧
      (∀ c, (c = canonicalOf P (planesOf P bits dim rows) bits (dim / codesPerByte bits) rows.length ∨
          c = writeRows bits (dim / codesPerByte bits) rows.length
            fun v => extractRow bits dim (rows.getD v [])) →
        planesCanonicalToPacked c.1 c.2 bits (dim / codesPerByte bits) rows.length = rows.flatten ∧
        (planesSignToNative P c.1 (dim / 8), c.2) = planesOf P bits dim rows ∧
        ∀ v < rows.length, ∀ row, row.length = bits * (dim / 8) →
          (planesSignToNative P (planesWriteRowCanonical c.1 c.2 bits (dim / codesPerByte bits) v
              (extractRow bits dim row)).1 (dim / 8),
            (planesWriteRowCanonical c.1 c.2 bits (dim / codesPerByte bits) v
              (extractRow bits dim row)).2) = planesOf P bits dim (rows.set v row))) ∧
    (∀ rows new, PackedRows bits dim rows → PackedRows bits dim new →
      planesAppendLanes P (planesOf P bits dim rows).1 (planesOf P bits dim rows).2 new.flatten
        rows.length new.length bits dim = planesOf P bits dim (rows ++ new)) ∧
    (∀ rows last, PackedRows bits dim (rows ++ [last]) → ∀ idx ≤ rows.length,
      ((zeroLane P (if idx ≠ rows.length then
            (planesMove P (planesOf P bits dim (rows ++ [last])).1
              (planesOf P bits dim (rows ++ [last])).2 bits (dim / codesPerByte bits) rows.length idx).1
          else (planesOf P bits dim (rows ++ [last])).1) 2 (dim / 8) rows.length).take
          ((rows.length + 31) / 32 * (dim / 8 * 32)),
        (if idx ≠ rows.length then
            (planesMove P (planesOf P bits dim (rows ++ [last])).1
              (planesOf P bits dim (rows ++ [last])).2 bits (dim / codesPerByte bits) rows.length idx).2
          else (planesOf P bits dim (rows ++ [last])).2).take
          (rows.length * ((bits - 1) * (dim / 8)))) =
        planesOf P bits dim (rows.set idx last)) ∧
    (∀ rows first k, PackedRows bits dim rows → first * 32 ≤ rows.length →
      first + k ≤ (rows.length + 31) / 32 →
      planesRepackBlockRange P rows.flatten rows.length bits dim first (first + k) =
        (((planesOf P bits dim rows).1.drop (first * (dim / 8 * 32))).take (k * (dim / 8 * 32)),
          ((planesOf P bits dim rows).2.drop (first * 32 * ((bits - 1) * (dim / 8)))).take
            (windowRows rows.length first k * ((bits - 1) * (dim / 8))))) ∧
    (∀ rows new, PackedRows bits dim (rows ++ new) →
      ((planesOf P bits dim rows).1.take (rows.length / 32 * (dim / 8 * 32)) ++
          (planesRepackBlockRange P (rows ++ new).flatten (rows ++ new).length bits dim
            (rows.length / 32) (((rows ++ new).length + 31) / 32)).1,
        (planesOf P bits dim rows).2.take (rows.length / 32 * 32 * ((bits - 1) * (dim / 8))) ++
          (planesRepackBlockRange P (rows ++ new).flatten (rows ++ new).length bits dim
            (rows.length / 32) (((rows ++ new).length + 31) / 32)).2) =
        planesOf P bits dim (rows ++ new)) := by
  have hb := planesBits_of_planesFor hp
  refine ⟨fun n seq hlen => planesFromSeq_eq hp hd hpos hlen, fun rows h => ?_,
    fun rows new h hnew => planesAppendLanes_planesOf hb hd hpos h hnew,
    fun rows last h idx hidx => planesRemove_planesOf hb hd hpos h hidx,
    fun rows first k h hfirst hk => planesRepackBlockRange_planesOf hb hd hpos h hfirst hk,
    fun rows new h => planesSplice_planesOf hb hd hpos h⟩
  have hseq := planesToSeq_planesOf hp hd hpos h
  have hclean := @cleanSeq_repackSeq bits rows.length dim hb.valid hd rows.flatten
  have hfrom := planesFromSeq_eq hp hd hpos hclean.length_eq
  rw [seqToPacked_repackSeq hb.valid hd (length_flatten_rows h)] at hfrom
  refine ⟨hfrom, ⟨hseq, fun h4 => ?_, hclean⟩, fun v hv => planes_row hp hd hpos h hv, fun c hc => ?_⟩
  · subst h4
    rwa [planesToSeq, if_pos rfl] at hseq
  · have hlen := length_getD h
    -- whether converted or written row by row, the canonical form holds the rows, which is all the rest needs
    have hcan : CanonicalHold bits dim rows.length (fun v => rows.getD v []) c.1 c.2 := by
      rcases hc with rfl | rfl
      · exact canonicalHold_canonicalOf (planesHold_planesOf hb hd hpos h) hp hd hlen
      · apply (canonicalHold_writeRows hb hd _).congr
        intro v hv
        rw [packRow_extractRow hb.valid hd (hlen v hv)]
    refine ⟨?_, (hcan.toNative hp hd).eq_planesOf hb hd hpos h, fun v hv row hrow => ?_⟩
    · rw [hcan.toPacked hb hd hlen, List.flatMap_congr fun v hv =>
        (rowAt_rows h (List.mem_range.1 hv)).symm, flatMap_rowAt (length_flatten_rows h)]
    · have hset : PackedRows bits dim (rows.set v row) := by
        intro x hx
        rcases List.mem_or_eq_of_mem_set hx with hx | rfl
        · exact h x hx
        · exact hrow
      have hwrite := (hcan.writeRow hb hd hlen hv (extractRow bits dim row)).toNative hp hd
      apply PlanesHold.eq_planesOf hb hd hpos hset
      rw [List.length_set]
      apply hwrite.congr
      intro w hw
      by_cases hwv : w = v
      · subst hwv
        rw [if_pos rfl, packRow_extractRow hb.valid hd hrow]
        simp [hw]
      · rw [if_neg hwv]
        simp [Ne.symm hwv]

/-- Forty rows of two bits, and the same with one more appended. -/
theorem planes_exact_forty :
    let P : Platform := ⟨.x86_64, true, false, false, false, true, false⟩
    let rows := (List.range 40).map fun i => List.replicate 8 (UInt8.ofNat (i * 37))
    let last : List UInt8 := List.replicate 8 0b10110010
    planesToSeq P (planesOf P 2 32 rows).1 (planesOf P 2 32 rows).2 2 (32 / codesPerByte 2) 40 =
        repackSeq rows.flatten 40 2 32 ∧
      planesAppendLanes P (planesOf P 2 32 rows).1 (planesOf P 2 32 rows).2 last 40 1 2 32 =
        planesOf P 2 32 (rows ++ [last]) := by
  intro P rows last
  have hrows : PackedRows 2 32 rows := by
    intro row hrow
    obtain ⟨i, -, rfl⟩ := List.mem_map.mp hrow
    rfl
  have hlast : PackedRows 2 32 [last] := by
    intro row hrow
    rw [List.mem_singleton.mp hrow]
    rfl
  obtain ⟨-, hconvert, happend, -⟩ := planes_exact P (show planesFor P 2 (32 / codesPerByte 2) = true by decide)
    (show 32 % 8 = 0 from rfl) (by decide)
  exact ⟨(hconvert rows hrows).2.1.1, happend rows [last] hrows hlast⟩

end Turbovec.Pack
