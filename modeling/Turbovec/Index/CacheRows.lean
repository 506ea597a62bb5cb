import Turbovec.Index.Cache
import Turbovec.Pack.Units

/-!
# The rows a cache holds

A cache holds a list of packed rows when every lane below the row count decodes to its row and every
lane past it is zero, in whichever layout the cache is in. Each update of a cache is the update of the
list.
-/

namespace Turbovec

open Pack Slice Grid

/-- `data` holds the rows `f` as lanes of code bytes. -/
def ClassicHolds (P : Platform) (bits dim n : ℕ) (f : ℕ → List UInt8) (data : List UInt8) : Prop :=
  ∃ code : ℕ → ℕ → UInt8, LanesHold P bits (dim / codesPerByte bits) n code data ∧
    ∀ v < n, packRow bits dim (tabulate (dim / codesPerByte bits) (code v)) = f v

/-- The two regions of a cache hold the `n` packed rows `f`. -/
structure RegionsHold (P : Platform) (bits dim n : ℕ) (f : ℕ → List UInt8) (data low : List UInt8) :
    Prop where
  width : ∀ v < n, (f v).length = bits * (dim / 8)
  planes : low ≠ [] → planesFor P bits (dim / codesPerByte bits) = true ∧ PlanesHold P bits dim n f data low
  classic : low = [] → ClassicHolds P bits dim n f data

/-- `cache` holds the `n` packed rows `f`. -/
structure CacheHolds (P : Platform) (bits dim n : ℕ) (f : ℕ → List UInt8) (cache : BlockedCache) :
    Prop where
  nBlocks : cache.nBlocks = (n + 31) / 32
  regions : RegionsHold P bits dim n f cache.data cache.low

section

variable {P : Platform} {bits dim n : ℕ} {f : ℕ → List UInt8} {cache : BlockedCache}
  {data low : List UInt8}

theorem isPlanes_eq_false : cache.isPlanes = false ↔ cache.low = [] := by
  rw [BlockedCache.isPlanes, Bool.not_eq_false', List.isEmpty_iff]

theorem isPlanes_eq_true : cache.isPlanes = true ↔ cache.low ≠ [] := by
  rw [ne_eq, ← isPlanes_eq_false, Bool.not_eq_false]

theorem RegionsHold.congr {f' : ℕ → List UInt8} (h : RegionsHold P bits dim n f data low)
    (hf : ∀ v < n, f v = f' v) : RegionsHold P bits dim n f' data low where
  width v hv := by rw [← hf v hv, h.width v hv]
  planes hp := ⟨(h.planes hp).1, (h.planes hp).2.congr hf⟩
  classic hc := by
    obtain ⟨code, hl, hrow⟩ := h.classic hc
    exact ⟨code, hl, fun v hv => by rw [hrow v hv, hf v hv]⟩

/-! ## Packed rows as lanes -/

section Packed

variable (hb : ValidBits bits) (hd : dim % 8 = 0)

theorem tabulate_extractRow (row : List UInt8) :
    tabulate (dim / codesPerByte bits) (entry (extractRow bits dim row)) = extractRow bits dim row :=
  (eq_tabulate (length_extractRow bits dim row) fun g hg =>
    getElem?_eq_entry (by rw [length_extractRow]; exact hg)).symm

include hb hd in
/-- Lanes of the code bytes of packed rows hold those rows. -/
theorem classicHolds_of_lanes (hf : ∀ v < n, (f v).length = bits * (dim / 8))
    (h : LanesHold P bits (dim / codesPerByte bits) n (fun v g => entry (extractRow bits dim (f v)) g) data) :
    ClassicHolds P bits dim n f data :=
  ⟨_, h, fun v hv => by rw [tabulate_extractRow, packRow_extractRow hb hd (hf v hv)]⟩

theorem regionsHold_classic (hf : ∀ v < n, (f v).length = bits * (dim / 8))
    (h : ClassicHolds P bits dim n f data) : RegionsHold P bits dim n f data [] :=
  ⟨hf, fun hp => absurd rfl hp, fun _ => h⟩

/-- The planes regions of an index with rows. -/
theorem regionsHold_planes (hpos : 8 ≤ dim) (hn : 0 < n) (hf : ∀ v < n, (f v).length = bits * (dim / 8))
    (hfor : planesFor P bits (dim / codesPerByte bits) = true) (h : PlanesHold P bits dim n f data low) :
    RegionsHold P bits dim n f data low := by
  refine ⟨hf, fun _ => ⟨hfor, h⟩, fun hnil => ?_⟩
  have hp := planesBits_of_planesFor hfor
  have hlen : low.length = n * ((bits - 1) * (dim / 8)) := by
    rw [h.low]
    exact length_flatMap_range fun v hv => length_lowPart hp (hf v hv)
  have hb1 : 0 < bits - 1 := by
    simp only [PlanesBits] at hp
    omega
  have := Nat.mul_pos hn (Nat.mul_pos hb1 (show 0 < dim / 8 by omega))
  rw [hnil, List.length_nil] at hlen
  omega

/-- No rows are held by no bytes. -/
theorem regionsHold_nil : RegionsHold P bits dim 0 f [] [] :=
  regionsHold_classic (fun v hv => absurd hv (Nat.not_lt_zero v))
    ⟨fun _ _ => 0, .of_lt (by simp) fun v hv => absurd hv (by omega), fun v hv => absurd hv (Nat.not_lt_zero v)⟩

end Packed

/-! ## The updates -/

section Updates

theorem planesWanted_iff : planesWanted P bits (dim / codesPerByte bits) n = true ↔
    0 < n ∧ PLANES_MIN_VECTORS ≤ n ∧ planesFor P bits (dim / codesPerByte bits) = true := by
  simp only [planesWanted, Bool.and_eq_true, decide_eq_true_eq, and_assoc, gt_iff_lt, ge_iff_le]

variable (hb : ValidBits bits) (hd : dim % 8 = 0) (hpos : 8 ≤ dim)

include hb hd hpos

/-- A cache built from packed rows. -/
theorem cacheHolds_build {packed : List UInt8} (hlen : packed.length = n * (bits * (dim / 8))) :
    CacheHolds P bits dim n (rowAt packed (bits * (dim / 8))) (BlockedCache.build P packed n bits dim) := by
  have hw : ∀ v < n, (rowAt packed (bits * (dim / 8)) v).length = bits * (dim / 8) :=
    fun v hv => length_rowAt hlen hv
  unfold BlockedCache.build
  split
  · rename_i hwant
    obtain ⟨hn, -, hfor⟩ := planesWanted_iff.mp hwant
    refine ⟨?_, regionsHold_planes hpos hn hw hfor
      (planesHold_repack (planesBits_of_planesFor hfor) hd (by omega) hlen)⟩
    simp only [planesRepack, blockedGeometry_eq]
  · refine ⟨?_, regionsHold_classic hw (classicHolds_of_lanes hb hd hw (lanesHold_repack hb hd packed))⟩
    simp only [repack, blockedGeometry_eq]

omit hb in
/-- Promotion keeps the rows. -/
theorem regionsHold_promote (h : RegionsHold P bits dim n f cache.data cache.low) :
    RegionsHold P bits dim n f (cache.promoteIfDue P n bits (dim / codesPerByte bits)).data
      (cache.promoteIfDue P n bits (dim / codesPerByte bits)).low := by
  unfold BlockedCache.promoteIfDue
  split
  · exact h
  · rename_i hdue
    rw [Bool.or_eq_true, not_or, Bool.not_eq_true, Bool.not_eq_true', Bool.not_eq_false] at hdue
    obtain ⟨hclassic, hwant⟩ := hdue
    obtain ⟨hn, -, hfor⟩ := planesWanted_iff.mp hwant
    obtain ⟨code, hl, hrow⟩ := h.classic (isPlanes_eq_false.mp hclassic)
    have hseq := hl.toSeq
    refine regionsHold_planes hpos hn h.width hfor
      ((planesHold_fromSeqOwned hfor hd (by omega) hseq.length_eq).congr fun v hv => ?_)
    rw [hseq.seqRowAt hv, hrow v hv]

/-- Rows appended as lanes. -/
theorem CacheHolds.appendRows {packedRows : List UInt8} {k : ℕ} (h : CacheHolds P bits dim n f cache)
    (hlen : packedRows.length = k * (bits * (dim / 8))) :
    CacheHolds P bits dim (n + k)
      (fun v => if v < n then f v else rowAt packedRows (bits * (dim / 8)) (v - n))
      (cache.appendRows P packedRows n k bits dim) := by
  have hw : ∀ v < n + k, (if v < n then f v else rowAt packedRows (bits * (dim / 8)) (v - n)).length =
      bits * (dim / 8) := by
    intro v hv
    split
    · rename_i hvn
      exact h.regions.width v hvn
    · exact length_rowAt hlen (by omega)
  unfold BlockedCache.appendRows
  have hsame : BlockedCache.isPlanes { cache with sample := none, centre := none } = cache.isPlanes := rfl
  dsimp only
  rw [hsame, blockedGeometry_eq]
  refine ⟨rfl, ?_⟩
  split
  · rename_i hp
    obtain ⟨hfor, hold⟩ := h.regions.planes (isPlanes_eq_true.mp hp)
    have hn : 0 < n := by
      by_contra h0
      have hlow := hold.low
      rw [Nat.eq_zero_of_not_pos h0] at hlow
      exact isPlanes_eq_true.mp hp hlow
    exact regionsHold_planes hpos (by omega) hw hfor
      (planesHold_appendLanes (planesBits_of_planesFor hfor) hd (by omega) hold h.regions.width hlen)
  · rename_i hp
    have hnil := isPlanes_eq_false.mp (Bool.not_eq_true _ ▸ hp)
    obtain ⟨code, hl, hrow⟩ := h.regions.classic hnil
    refine regionsHold_promote hd hpos ?_
    dsimp only
    rw [hnil]
    refine regionsHold_classic hw ⟨_, lanesHold_appendLanes hb hd hl packedRows, fun v hv => ?_⟩
    split
    · rename_i hvn
      simp only [if_pos hvn]
      exact hrow v hvn
    · rename_i hvn
      simp only [if_neg hvn]
      rw [tabulate_extractRow, packRow_extractRow hb hd (length_rowAt hlen (by omega))]

omit hpos in
/-- Blocks before the first rebuilt one keep their code bytes, whatever their unused bits. -/
theorem lanesHold_patch {m : ℕ} {code : ℕ → ℕ → UInt8}
    (hl : LanesHold P bits (dim / codesPerByte bits) n code data) (packed : List UInt8) (hm : n ≤ m) :
    LanesHold P bits (dim / codesPerByte bits) m
      (fun v g => if v < n / BLOCK * 32 then code v g else
        entry (extractRow bits dim (rowAt packed (bits * (dim / 8)) v)) g)
      (data.take (n / BLOCK * (dim / codesPerByte bits * 32)) ++
        repackBlockRange P packed m bits dim (n / BLOCK) ((m + 31) / 32)) := by
  have hfirst : n / BLOCK * 32 ≤ m := by
    simp only [BLOCK]
    omega
  have hkeep : LanesHold P bits (dim / codesPerByte bits) (windowRows n 0 (n / BLOCK))
      (fun v => code (0 * 32 + v)) ((data.drop (0 * (dim / codesPerByte bits * 32))).take
        (n / BLOCK * (dim / codesPerByte bits * 32))) :=
    lanesHold_window hl (by simp only [BLOCK]; omega)
  have hrows : windowRows n 0 (n / BLOCK) = n / BLOCK * 32 := by
    simp only [windowRows, BLOCK]
    omega
  simp only [hrows, Nat.zero_mul, Nat.zero_add, List.drop_zero] at hkeep
  have hrange := lanesHold_repackBlockRange (P := P) hb hd packed hfirst
  have hsplice : LanesHold P bits (dim / codesPerByte bits) m
      (fun v g => if v < n / BLOCK * 32 then code v g else
        entry (extractRow bits dim (rowAt packed (bits * (dim / 8)) v)) g)
      ((data.take (n / BLOCK * (dim / codesPerByte bits * 32))).take
          (n / BLOCK * (dim / codesPerByte bits * 32)) ++
        repackBlockRange P packed m bits dim (n / BLOCK) ((m + 31) / 32)) :=
    lanesHold_splice hkeep (Nat.mul_div_cancel _ (by decide)).symm hfirst
      (hrange.congr fun v hv g hg => by rw [if_neg (by omega)])
      (fun v hv g hg => by rw [if_pos hv])
  rwa [List.take_take, Nat.min_self] at hsplice

/-- Blocks rebuilt from the packed rows. -/
theorem CacheHolds.patch {packed : List UInt8} {m : ℕ} (h : CacheHolds P bits dim n f cache) (hm : n ≤ m)
    (hlen : packed.length = m * (bits * (dim / 8)))
    (hf : ∀ v < n, f v = rowAt packed (bits * (dim / 8)) v) :
    CacheHolds P bits dim m (rowAt packed (bits * (dim / 8))) (cache.patch P packed n m bits dim) := by
  have hw : ∀ v < m, (rowAt packed (bits * (dim / 8)) v).length = bits * (dim / 8) :=
    fun v hv => length_rowAt hlen hv
  have hfirst : n / BLOCK * 32 ≤ m := by
    simp only [BLOCK]
    omega
  unfold BlockedCache.patch
  dsimp only
  rw [blockedGeometry_eq]
  dsimp only
  by_cases hp : cache.isPlanes = true
  · obtain ⟨hfor, hold⟩ := h.regions.planes (isPlanes_eq_true.mp hp)
    have hbits := planesBits_of_planesFor hfor
    have hn : 0 < n := by
      by_contra h0
      have hlow := hold.low
      rw [Nat.eq_zero_of_not_pos h0] at hlow
      exact isPlanes_eq_true.mp hp hlow
    rw [if_pos hp, if_pos hp, if_pos hp, planesGeom_eq hbits hd]
    refine ⟨rfl, regionsHold_planes hpos (by omega) hw hfor ?_⟩
    exact planesHold_splice hbits hold h.regions.width rfl hm
      (planesHold_repackBlockRange hbits hd (by omega) hfirst hlen) hf
  · rw [if_neg hp, if_neg hp, if_neg hp]
    rw [Bool.not_eq_true] at hp
    have hnil := isPlanes_eq_false.mp hp
    obtain ⟨code, hl, hrow⟩ := h.regions.classic hnil
    refine ⟨rfl, regionsHold_promote hd hpos ?_⟩
    dsimp only
    rw [hnil]
    refine regionsHold_classic hw ?_
    refine ⟨_, lanesHold_patch hb hd hl packed hm, fun v hv => ?_⟩
    by_cases hlt : v < n / BLOCK * 32
    · have hvn : v < n := by
        simp only [BLOCK] at hlt
        omega
      simp only [if_pos hlt]
      rw [hrow v hvn, hf v hvn]
    · simp only [if_neg hlt]
      rw [tabulate_extractRow, packRow_extractRow hb hd (hw v hv)]

omit hb in
/-- The last row moved into slot `idx` and cut. -/
theorem CacheHolds.removeRow {idx : ℕ} (h : CacheHolds P bits dim (n + 1) f cache) (hidx : idx ≤ n) :
    CacheHolds P bits dim n (fun v => if v = idx then f n else f v)
      (cache.removeRow P idx n bits dim) := by
  have hw : ∀ v < n, (if v = idx then f n else f v).length = bits * (dim / 8) := by
    intro v hv
    split
    · exact h.regions.width n (by omega)
    · exact h.regions.width v (by omega)
  unfold BlockedCache.removeRow
  have hsame : BlockedCache.isPlanes { cache with sample := none, centre := none } = cache.isPlanes := rfl
  dsimp only
  rw [hsame, blockedGeometry_eq]
  refine ⟨rfl, ?_⟩
  by_cases hp : cache.isPlanes = true
  · obtain ⟨hfor, hold⟩ := h.regions.planes (isPlanes_eq_true.mp hp)
    have hbits := planesBits_of_planesFor hfor
    have hnew := planesHold_swapRemove hbits hd hold h.regions.width hidx
    rw [if_pos hp, planesGeom_eq hbits hd]
    have hpair : (if idx ≠ n then planesMove P cache.data cache.low bits (dim / codesPerByte bits) n idx
        else (cache.data, cache.low)) =
        (if idx ≠ n then (planesMove P cache.data cache.low bits (dim / codesPerByte bits) n idx).1
          else cache.data,
          if idx ≠ n then (planesMove P cache.data cache.low bits (dim / codesPerByte bits) n idx).2
          else cache.low) := by
      split
      · rfl
      · rfl
    rw [hpair]
    by_cases hn : 0 < n
    · exact regionsHold_planes hpos hn hw hfor hnew
    · -- the last row gone, nothing is left of either region
      have h0 := Nat.eq_zero_of_not_pos hn
      subst h0
      simp only [Nat.zero_mul, List.take_zero, Nat.zero_add, Nat.reduceDiv]
      exact regionsHold_nil
  · rw [if_neg hp]
    rw [Bool.not_eq_true] at hp
    obtain ⟨code, hl, hrow⟩ := h.regions.classic (isPlanes_eq_false.mp hp)
    have hnil := isPlanes_eq_false.mp hp
    dsimp only
    rw [hnil]
    refine regionsHold_classic hw ⟨_, lanesHold_swapRemove hl hidx, fun v hv => ?_⟩
    dsimp only
    split
    · exact hrow n (by omega)
    · exact hrow v (by omega)

/-! ## Reading back -/

omit hpos in
/-- The stored form of a cache decodes to its rows. -/
theorem RegionsHold.toSeq (h : RegionsHold P bits dim n f cache.data cache.low) :
    ∃ code, SeqHold (dim / codesPerByte bits) n code (cache.toSeq P n bits (dim / codesPerByte bits)) ∧
      ∀ v < n, packRow bits dim (tabulate (dim / codesPerByte bits) (code v)) = f v := by
  unfold BlockedCache.toSeq
  split
  · rename_i hp
    obtain ⟨hfor, hold⟩ := h.planes (isPlanes_eq_true.mp hp)
    refine ⟨_, hold.toSeq hfor hd h.width, fun v hv => ?_⟩
    rw [tabulate_extractRow, packRow_extractRow hb hd (h.width v hv)]
  · rename_i hp
    obtain ⟨code, hl, hrow⟩ := h.classic (isPlanes_eq_false.mp (Bool.not_eq_true _ ▸ hp))
    exact ⟨code, hl.toSeq, hrow⟩

omit hpos in
/-- The packed rows of a cache are its rows. -/
theorem RegionsHold.toPacked (h : RegionsHold P bits dim n f cache.data cache.low) :
    seqToPacked (cache.toSeq P n bits (dim / codesPerByte bits)) n bits dim = (List.range n).flatMap f := by
  obtain ⟨code, hseq, hrow⟩ := h.toSeq hb hd
  rw [seqToPacked_of_seqHold hb hd hseq]
  exact List.flatMap_congr fun v hv => hrow v (List.mem_range.mp hv)

end Updates

end

end Turbovec
