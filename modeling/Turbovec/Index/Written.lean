import Turbovec.Index.Clean

/-!
# The bytes of an image, from the rows

A full image holds the whole blocks of an index as units and the rest as tail rows. Whichever layouts are
live, its sequential units hold the rows' sequential code bytes and its planes units their packed rows, so
two indexes with the same rows, code bytes and calibration write the same image, and an image loads as an
index with the rows it was written from.
-/

namespace Turbovec

open Pack IoV7 Slice Grid

section Units

variable {P : Platform} {T : Tables} {x : TurboQuantIndex} {rows : List (List UInt8)} {d b : ℕ}

/-- The row of a packed buffer, in the sequential layout. -/
theorem Rep.seqRow_packed (h : Rep P x rows) (hd : x.dim = some d) {packed : List UInt8}
    (hp : x.packedCodes = some packed) {v : ℕ} (hv : v < x.nVectors) :
    x.seqRow P v = extractRow x.bitWidth d (rows.getD v []) := by
  obtain ⟨hmod, hpos⟩ := h.dims d hd
  have hwidth := h.width d hd
  have hrow : rowAt packed (x.bitWidth * (d / 8)) v = rows.getD v [] := by
    rw [h.packed packed hp, rowAt_flatten hwidth (by rw [h.len]; exact hv)]
  have hlen : (rows.getD v []).length = x.bitWidth * (d / 8) := by
    rw [List.getD_eq_getElem?_getD, List.getElem?_eq_getElem (by rw [h.len]; exact hv), Option.getD_some]
    exact hwidth _ (List.getElem_mem _)
  unfold TurboQuantIndex.seqRow
  dsimp only
  rw [hp, hd, Option.getD_some]
  dsimp only
  rw [row_bytes hmod, hrow, extractCodesFlat_eq h.bits hmod, List.range_one, List.flatMap_singleton,
    rowAt, Nat.zero_mul, List.drop_zero, ← hlen, List.take_length]

/-- The row of a cache, in the sequential layout. -/
theorem seqRow_cache (hd : x.dim = some d) (hp : x.packedCodes = none)
    {cache : BlockedCache} (hc : x.blocked = some cache) (v : ℕ) :
    x.seqRow P v = TurboQuantIndex.captureRow P cache x.bitWidth (d / codesPerByte x.bitWidth) v := by
  unfold TurboQuantIndex.seqRow
  dsimp only
  rw [hp, hc, hd, Option.getD_some, blockedGeometry_eq]
  rfl

theorem windowRows_block (hb : b < x.nVectors / 32) : windowRows x.nVectors b 1 = 32 := by
  simp only [windowRows]
  omega

/-- A whole block in the sequential layout holds its rows' code bytes. -/
theorem Rep.seqBlock (h : Rep P x rows) (hd : x.dim = some d) (hb : b < x.nVectors / 32) :
    SeqHold (d / codesPerByte x.bitWidth) 32 (fun lane g => entry (x.seqRow P (b * 32 + lane)) g)
      (x.seqBlocksRange P (b * BLOCK) (b * BLOCK + BLOCK)) := by
  obtain ⟨hmod, hpos⟩ := h.dims d hd
  have hn : b * BLOCK + BLOCK - b * BLOCK = 32 := by
    simp only [BLOCK]
    omega
  have hrow : ∀ lane < 32, b * 32 + lane < x.nVectors := by
    intro lane hl
    omega
  unfold TurboQuantIndex.seqBlocksRange
  dsimp only
  rw [hn, hd, Option.getD_some, blockedGeometry_eq]
  dsimp only
  split
  · rename_i packed hp
    have hlen : packed.length = x.nVectors * (x.bitWidth * (d / 8)) := by
      rw [h.packed packed hp, length_flatten_rows (h.width d hd), h.len]
    refine (seqHold_packBlockedSequential _).congr fun lane hl g hg => ?_
    rw [h.seqRow_packed hd hp (hrow lane hl), ← entry_rowAt _ hg, rowAt_extractCodesFlat h.bits hmod _ hl,
      row_bytes hmod, BLOCK, show 32 * (x.bitWidth * (d / 8)) =
        (b * 32 + 32) * (x.bitWidth * (d / 8)) - b * 32 * (x.bitWidth * (d / 8)) by
          rw [Nat.add_mul, Nat.add_sub_cancel_left],
      rowAt_drop_take packed (by omega), h.packed packed hp,
      rowAt_flatten (h.width d hd) (by rw [h.len]; exact hrow lane hl)]
  · rename_i hp
    have hlive := h.live (by omega)
    rw [hp] at hlive
    obtain ⟨cache, hc⟩ := Option.isSome_iff_exists.mp (hlive.resolve_left Bool.false_ne_true)
    obtain ⟨d', hd', hold⟩ := h.cache cache hc
    rw [hd, Option.some.injEq] at hd'
    subst hd'
    rw [hc]
    dsimp only
    cases hpl : cache.isPlanes with
    | true =>
      obtain ⟨hfor, hpl'⟩ := hold.regions.planes (isPlanes_eq_true.mp hpl)
      have hbits := planesBits_of_planesFor hfor
      have hwin := planesHold_window hbits hpl' hold.regions.width
        (show b + 1 ≤ (x.nVectors + 31) / 32 by omega)
      rw [windowRows_block hb] at hwin
      have hlow : min ((b * 32 + 32) * ((x.bitWidth - 1) * (d / 8))) cache.low.length =
          (b * 32 + 32) * ((x.bitWidth - 1) * (d / 8)) := by
        rw [hpl'.length_low hbits hold.regions.width]
        exact Nat.min_eq_left (Nat.mul_le_mul_right _ (by omega))
      have hrange : min 32 (x.nVectors - b * 32) = 32 := by omega
      have hcut : (b * 32 + 32) * ((x.bitWidth - 1) * (d / 8)) - b * 32 * ((x.bitWidth - 1) * (d / 8)) =
          32 * ((x.bitWidth - 1) * (d / 8)) := by
        rw [Nat.add_mul, Nat.add_sub_cancel_left]
      have hsign : b * 32 * (d / 8) = b * (d / 8 * 32) := by ring
      have hsign' : 32 * (d / 8) = 1 * (d / 8 * 32) := by ring
      rw [if_pos rfl, planesGeom_eq hbits hmod]
      simp only [BLOCK, hlow, hcut, hrange, hsign, hsign']
      refine (hwin.toSeq hfor hmod fun lane hl => hold.regions.width _ (hrow lane hl)).congr
        fun lane hl g hg => ?_
      rw [seqRow_cache hd hp hc, TurboQuantIndex.captureRow, if_pos hpl]
      exact congrArg (fun r => entry r g) (hpl'.readRow hfor hmod hold.regions.width (hrow lane hl)).symm
    | false =>
      obtain ⟨code, hl, -⟩ := hold.regions.classic (isPlanes_eq_false.mp hpl)
      have hwin := lanesHold_window hl (show b + 1 ≤ (x.nVectors + 31) / 32 by omega)
      rw [windowRows_block hb] at hwin
      have hfirst : b * BLOCK / BLOCK = b := Nat.mul_div_cancel _ (by decide)
      rw [if_neg Bool.false_ne_true, hfirst]
      refine hwin.toSeq.congr fun lane hl' g hg => ?_
      rw [seqRow_cache hd hp hc, TurboQuantIndex.captureRow, if_neg (by rw [hpl]; exact Bool.false_ne_true),
        hl.laneRow_eq (hrow lane hl'), entry_tabulate _ hg]

/-- With no packed rows live, the cache is. -/
theorem Rep.cached (h : Rep P x rows) (hd : x.dim = some d) (hp : x.packedCodes = none)
    (hpos : 0 < x.nVectors) : ∃ cache, x.blocked = some cache ∧
      CacheHolds P x.bitWidth d x.nVectors (fun v => rows.getD v []) cache := by
  have hlive := h.live hpos
  rw [hp] at hlive
  obtain ⟨cache, hc⟩ := Option.isSome_iff_exists.mp (hlive.resolve_left Bool.false_ne_true)
  obtain ⟨d', hd', hold⟩ := h.cache cache hc
  rw [hd, Option.some.injEq] at hd'
  rw [hd']
  exact ⟨cache, hc, hold⟩

theorem Rep.length_row (h : Rep P x rows) (hd : x.dim = some d) {v : ℕ} (hv : v < x.nVectors) :
    (rows.getD v []).length = x.bitWidth * (d / 8) := by
  rw [List.getD_eq_getElem?_getD, List.getElem?_eq_getElem (by rw [h.len]; exact hv), Option.getD_some]
  exact h.width d hd _ (List.getElem_mem _)

theorem tabulate_entry (l : List UInt8) : tabulate l.length (entry l) = l :=
  (eq_tabulate rfl fun _ hg => getElem?_eq_entry hg).symm

/-- Packing a row's sequential code bytes gives the row back. -/
theorem Rep.packRow_seqRow (h : Rep P x rows) (hd : x.dim = some d) {v : ℕ} (hv : v < x.nVectors) :
    packRow x.bitWidth d (x.seqRow P v) = rows.getD v [] ∧
      (x.seqRow P v).length = d / codesPerByte x.bitWidth := by
  obtain ⟨hmod, hpos⟩ := h.dims d hd
  have hlen := h.length_row hd hv
  cases hp : x.packedCodes with
  | some packed =>
    rw [h.seqRow_packed hd hp hv, packRow_extractRow h.bits hmod hlen, length_extractRow]
    exact ⟨rfl, rfl⟩
  | none =>
    obtain ⟨cache, hc, hold⟩ := h.cached hd hp (by omega)
    rw [seqRow_cache hd hp hc, TurboQuantIndex.captureRow]
    split
    · rename_i hpl
      obtain ⟨hfor, hpl'⟩ := hold.regions.planes (isPlanes_eq_true.mp hpl)
      rw [hpl'.readRow hfor hmod hold.regions.width hv, packRow_extractRow h.bits hmod hlen,
        length_extractRow]
      exact ⟨rfl, rfl⟩
    · rename_i hpl
      obtain ⟨code, hl, hrow⟩ := hold.regions.classic (isPlanes_eq_false.mp (Bool.not_eq_true _ ▸ hpl))
      rw [hl.laneRow_eq hv, hrow v hv, length_tabulate]
      exact ⟨rfl, rfl⟩

/-- A whole block in the planes layout is the unit over its packed rows. -/
theorem Rep.planesBlock (h : Rep P x rows) (hd : x.dim = some d) (hb : b < x.nVectors / 32)
    (hfor : planesFor P x.bitWidth (d / codesPerByte x.bitWidth) = true) :
    x.unitCodesRange P LAYOUT_PLANES (b * BLOCK) (b * BLOCK + BLOCK) =
      planesUnit x.bitWidth d fun lane => rows.getD (b * 32 + lane) [] := by
  obtain ⟨hmod, hpos⟩ := h.dims d hd
  have hrow : ∀ lane < 32, b * 32 + lane < x.nVectors := by
    intro lane hl
    omega
  have hblocks : b * BLOCK + BLOCK - b * BLOCK = BLOCK := Nat.add_sub_cancel_left _ _
  have hfirst : b * BLOCK / BLOCK = b := Nat.mul_div_cancel _ (by decide)
  have hone : (b * BLOCK + BLOCK) / BLOCK - b * BLOCK / BLOCK = 1 := by
    simp only [BLOCK]
    omega
  -- out of the rows, whichever layout holds them
  have hfrom : (let nRange := min BLOCK (x.nVectors - b * BLOCK)
      let regions := planesFromSeq P (x.seqBlocksRange P (b * BLOCK) (b * BLOCK + BLOCK)) x.bitWidth
        (d / codesPerByte x.bitWidth) nRange
      (List.range (BLOCK / BLOCK)).flatMap fun b' =>
        planesUnitCodes P regions.1 regions.2 x.bitWidth (d / codesPerByte x.bitWidth) b' nRange) =
      planesUnit x.bitWidth d fun lane => rows.getD (b * 32 + lane) [] := by
    have hrange : min BLOCK (x.nVectors - b * BLOCK) = 32 := by
      simp only [BLOCK]
      omega
    dsimp only
    rw [hrange, Nat.div_self (by decide : 0 < BLOCK), List.range_one, List.flatMap_singleton]
    have hseq := h.seqBlock hd hb
    have hold : PlanesHold P x.bitWidth d 32 (fun lane => rows.getD (b * 32 + lane) [])
        (planesFromSeq P (x.seqBlocksRange P (b * BLOCK) (b * BLOCK + BLOCK)) x.bitWidth
          (d / codesPerByte x.bitWidth) 32).1
        (planesFromSeq P (x.seqBlocksRange P (b * BLOCK) (b * BLOCK + BLOCK)) x.bitWidth
          (d / codesPerByte x.bitWidth) 32).2 := by
      refine (planesHold_fromSeq hfor hmod (by omega) _).congr fun lane hl => ?_
      obtain ⟨hpack, hlen⟩ := h.packRow_seqRow hd (hrow lane hl)
      rw [hseq.seqRowAt hl, ← hlen, tabulate_entry, hpack]
    have hunit := hold.unitCodes hfor hmod (fun lane hl => h.length_row hd (hrow lane hl))
      (show 0 * 32 + 32 ≤ 32 by decide)
    rw [hunit]
    simp only [Nat.zero_mul, Nat.zero_add]
  unfold TurboQuantIndex.unitCodesRange
  rw [if_neg (by simp)]
  dsimp only
  rw [hd, Option.getD_some, blockedGeometry_eq, hblocks, hone, hfirst]
  dsimp only
  split
  · rename_i cache hc
    split
    · rename_i hpl
      obtain ⟨d', hd', hold⟩ := h.cache cache hc
      rw [hd, Option.some.injEq] at hd'
      subst hd'
      obtain ⟨-, hpl'⟩ := hold.regions.planes (isPlanes_eq_true.mp hpl)
      rw [List.range_one, List.flatMap_singleton, Nat.add_zero]
      exact hpl'.unitCodes hfor hmod hold.regions.width (by omega)
    · exact hfrom
  · exact hfrom

end Units

/-! ## The source of an image -/

/-- The codebooks have their lengths and no NaN. -/
structure IoV7.Tables.Numbered (T : Tables) : Prop where
  leveled : T.Leveled
  numbers : ∀ bitWidth dim, ∀ v ∈ T.canon bitWidth dim, v.isNaN = false

/-- An index whose parts the loader takes. -/
structure Writable (T : Tables) (x : TurboQuantIndex) : Prop where
  dim_le : ∀ d, x.dim = some d → d ≤ MAX_DIM
  n_lt : x.nVectors < 2 ^ 64
  scales : ∀ v < x.nVectors, validScale (entry x.scales v) = true
  nCalib : x.tqplusShift.length = 0 ∨ x.tqplusShift.length = x.dim.getD 0
  calibration : CalibrationOk T x.tqplusShift.length x.tqplusShift x.tqplusScale

/-- The codebook of the committed dimension is set. -/
def Seeded (T : Tables) (x : TurboQuantIndex) : Prop :=
  ∀ d, x.dim = some d → x.boundaries.getD [] = (T.codebook x.bitWidth d).1 ∧
    x.centroids.getD [] = (T.codebook x.bitWidth d).2

/-- The code bytes the writer is given of each row pack to the row. -/
def RowsGiven (P : Platform) (x : TurboQuantIndex) (rows : List (List UInt8)) : Prop :=
  ∀ d, x.dim = some d → ∀ v < x.nVectors,
    packRow x.bitWidth d (x.rowCodes P v) = rows.getD v [] ∧
      (x.rowCodes P v).length = d / codesPerByte x.bitWidth

/-- The code bytes an image holds of a row: a unit's are read off the cache, a tail row's are given. -/
def TurboQuantIndex.writtenRow (P : Platform) (x : TurboQuantIndex) (v : ℕ) : List UInt8 :=
  if v < x.nVectors / BLOCK * BLOCK then x.seqRow P v else x.rowCodes P v

section Source

variable {P : Platform} {T : Tables} {x : TurboQuantIndex} {rows : List (List UInt8)} {d b kind version : ℕ}
  {ids : Option (List UInt64)}

theorem Rep.rowsGiven (h : Rep P x rows) (hrow : ∀ v < x.nVectors, x.rowCodes P v = x.seqRow P v) :
    RowsGiven P x rows := by
  intro d hd v hv
  rw [hrow v hv]
  exact h.packRow_seqRow hd hv

/-- What an image holds of a row packs to the row. -/
theorem Rep.packRow_writtenRow (h : Rep P x rows) (hg : RowsGiven P x rows) (hd : x.dim = some d) {v : ℕ}
    (hv : v < x.nVectors) : packRow x.bitWidth d (x.writtenRow P v) = rows.getD v [] ∧
      (x.writtenRow P v).length = d / codesPerByte x.bitWidth := by
  unfold TurboQuantIndex.writtenRow
  split
  · exact h.packRow_seqRow hd hv
  · exact hg d hd v hv

theorem Rep.dim_zero (h : Rep P x rows) (hd : x.dim.getD 0 = 0) : x.nVectors = 0 := by
  by_contra hn
  obtain ⟨d, hd'⟩ := Option.isSome_iff_exists.mp (h.dimmed (Nat.pos_of_ne_zero hn))
  rw [hd', Option.getD_some] at hd
  have := (h.dims d hd').2
  omega

/-- The units of a source are planes only where the host searches planes. -/
theorem planesFor_of_layout (hlay : (x.syncSource P kind ids version).layout = LAYOUT_PLANES)
    (hd : x.dim = some d) : version = 8 ∧ planesFor P x.bitWidth (d / codesPerByte x.bitWidth) = true := by
  have hne : LAYOUT_SEQ ≠ LAYOUT_PLANES := by decide
  change (if version = 8 then x.unitLayout P else LAYOUT_SEQ) = LAYOUT_PLANES at hlay
  split at hlay
  · rename_i hv
    refine ⟨hv, ?_⟩
    unfold TurboQuantIndex.unitLayout at hlay
    rw [hd] at hlay
    dsimp only at hlay
    rw [blockedGeometry_eq] at hlay
    dsimp only at hlay
    split at hlay
    · rename_i hwant
      exact (planesWanted_iff.mp hwant).2.2
    · exact absurd hlay hne
  · exact absurd hlay hne

theorem layout_cases : (x.syncSource P kind ids version).layout = LAYOUT_SEQ ∨
    (x.syncSource P kind ids version).layout = LAYOUT_PLANES := by
  change (if version = 8 then x.unitLayout P else LAYOUT_SEQ) = LAYOUT_SEQ ∨
    (if version = 8 then x.unitLayout P else LAYOUT_SEQ) = LAYOUT_PLANES
  unfold TurboQuantIndex.unitLayout
  split
  · split
    · exact Or.inl rfl
    · dsimp only
      split
      · exact Or.inr rfl
      · exact Or.inl rfl
  · exact Or.inl rfl

theorem layout_dimless (hd : x.dim = none) : (x.syncSource P kind ids version).layout = LAYOUT_SEQ := by
  change (if version = 8 then x.unitLayout P else LAYOUT_SEQ) = LAYOUT_SEQ
  unfold TurboQuantIndex.unitLayout
  rw [hd]
  split
  · rfl
  · rfl

theorem planesGeomOk_of_planesFor {bits nbg : ℕ} (h : planesFor P bits nbg = true) :
    planesGeomOk bits nbg = true := by
  rcases planesBits_of_planesFor h with rfl | rfl
  · simp only [planesFor, Bool.and_eq_true] at h
    exact h.1.1
  · simp only [planesFor, Bool.and_eq_true] at h
    exact h.1.1.1

theorem rowBytes_syncSource : (x.syncSource P kind ids version).geo.rowBytes =
    x.dim.getD 0 / codesPerByte x.bitWidth := Geo.rowBytes_eq _

theorem syncSource_geo (h : Rep P x rows) (hw : Writable T x) (hv : version = 7 ∨ version = 8) :
    (x.syncSource P kind ids version).geo.Valid := by
  have hbits := h.bits
  simp only [ValidBits] at hbits
  constructor
  · show 2 ≤ x.bitWidth
    omega
  · show x.bitWidth ≤ 4
    omega
  · show x.dim.getD 0 % 8 = 0
    cases hd : x.dim with
    | none => rfl
    | some d => exact (h.dims d hd).1
  · show x.dim.getD 0 ≤ MAX_DIM
    cases hd : x.dim with
    | none => exact Nat.zero_le _
    | some d => exact hw.dim_le d hd
  · exact hw.nCalib
  · exact hv
  · show (x.syncSource P kind ids version).layout = LAYOUT_SEQ ∨ _
    rcases @layout_cases P x kind version ids with hl | hl
    · exact Or.inl hl
    · refine Or.inr ⟨hl, ?_⟩
      cases hd : x.dim with
      | none =>
        rw [layout_dimless hd] at hl
        exact absurd hl (by decide)
      | some d =>
        obtain ⟨h8, hfor⟩ := planesFor_of_layout hl hd
        refine ⟨h8, ?_, fun _ => ?_⟩
        · have := planesBits_of_planesFor hfor
          simp only [PlanesBits] at this
          show x.bitWidth ≠ 3
          omega
        · rw [rowBytes_syncSource, hd, Option.getD_some]
          exact planesGeomOk_of_planesFor hfor

/-- The codebook and the calibration of a source have their lengths. -/
theorem syncSource_shaped (hT : T.Leveled) (hs : Seeded T x) (hpair : x.tqplusScale.length = x.tqplusShift.length) :
    SourceShaped (x.syncSource P kind ids version) where
  boundaries_len := by
    show (if x.dim.isNone then List.replicate (2 ^ x.bitWidth - 1) 0 else x.boundaries.getD []).length = _
    cases hd : x.dim with
    | none => exact List.length_replicate
    | some d => exact (congrArg List.length (hs d hd).1).trans (hT x.bitWidth d).1
  centroids_len := by
    show (if x.dim.isNone then List.replicate (2 ^ x.bitWidth) 0 else x.centroids.getD []).length = _
    cases hd : x.dim with
    | none => exact List.length_replicate
    | some d => exact (congrArg List.length (hs d hd).2).trans (hT x.bitWidth d).2
  scale_len := hpair

theorem syncSource_ok (hT : T.Numbered) (h : Rep P x rows) (hw : Writable T x) (hs : Seeded T x)
    (hk : kind ≤ 1) (hv : version = 7 ∨ version = 8) : SourceOk T (x.syncSource P kind ids version) where
  geo := syncSource_geo h hw hv
  kind_le := hk
  boundaries_len := (syncSource_shaped hT.leveled hs (hw.calibration.scale_len)).boundaries_len
  centroids_len := (syncSource_shaped hT.leveled hs (hw.calibration.scale_len)).centroids_len
  codebook hne := by
    show (if x.dim.isNone then List.replicate (2 ^ x.bitWidth - 1) 0 else x.boundaries.getD []) ++
      (if x.dim.isNone then List.replicate (2 ^ x.bitWidth) 0 else x.centroids.getD []) =
        T.canon x.bitWidth (x.dim.getD 0)
    change x.dim.getD 0 ≠ 0 at hne
    cases hd : x.dim with
    | none =>
      rw [hd] at hne
      exact absurd rfl hne
    | some d =>
      rw [hd, Option.getD_some] at hne
      rw [Option.getD_some, Tables.canon, if_neg hne]
      exact congrArg₂ (· ++ ·) (hs d hd).1 (hs d hd).2
  codebook_num := hT.numbers _ _
  calibration := hw.calibration

/-- The code bytes the writer is given of a row are a row's. -/
theorem length_rowCodes (h : Rep P x rows) (hg : RowsGiven P x rows) :
    ∀ v < x.nVectors, ((x.syncSource P kind ids version).rowCodes v).length =
      (x.syncSource P kind ids version).geo.rowBytes := by
  intro v hv
  show (x.rowCodes P v).length = _
  obtain ⟨d, hd⟩ := Option.isSome_iff_exists.mp (h.dimmed (by omega))
  rw [rowBytes_syncSource, hd, Option.getD_some]
  exact (hg d hd v hv).2

/-- The code bytes the writer is given of a block are a unit's. -/
theorem length_unitCodes (h : Rep P x rows) : ∀ b < x.nVectors / BLOCK,
    ((x.syncSource P kind ids version).unitCodes (b * BLOCK) (b * BLOCK + BLOCK)).length =
      (x.syncSource P kind ids version).geo.blockBytes := by
  intro b hb
  change b < x.nVectors / 32 at hb
  obtain ⟨d, hd⟩ := Option.isSome_iff_exists.mp (h.dimmed (by omega))
  show (x.unitCodesRange P (x.syncSource P kind ids version).layout (b * BLOCK) (b * BLOCK + BLOCK)).length = _
  rw [Geo.blockBytes, rowBytes_syncSource, hd, Option.getD_some]
  rcases @layout_cases P x kind version ids with hl | hl
  · rw [hl, TurboQuantIndex.unitCodesRange, if_pos (by decide), (h.seqBlock hd hb).length_eq]
    simp only [BLOCK]
    omega
  · obtain ⟨-, hfor⟩ := planesFor_of_layout hl hd
    rw [hl, h.planesBlock hd hb hfor, length_planesUnit (planesBits_of_planesFor hfor) (h.dims d hd).1
      fun v hv => h.length_row hd (by omega)]
    simp only [BLOCK]

/-- The source of a full image is one the writer makes an image of. -/
theorem syncSource_wf (hT : T.Numbered) (h : Rep P x rows) (hw : Writable T x) (hs : Seeded T x)
    (hg : RowsGiven P x rows) (hids : ids.isSome = true ↔ kind = 1) (hk : kind ≤ 1)
    (hv : version = 7 ∨ version = 8) : SourceWf T (x.syncSource P kind ids version) where
  ok := syncSource_ok hT h hw hs hk hv
  ids := hids
  rows := length_rowCodes h hg
  units := length_unitCodes h
  n_lt := hw.n_lt
  dim_zero hd := h.dim_zero hd

/-! ## Read back -/

/-- What an image of `x` loads as. -/
structure LoadedBack (P : Platform) (x : TurboQuantIndex) (rows : List (List UInt8)) (unitLayout : ℕ)
    (l : V7Load) : Prop where
  dim : l.dim = x.dim.getD 0
  bitWidth : l.bitWidth = x.bitWidth
  nVectors : l.nVectors = x.nVectors
  layout : l.layout = unitLayout
  scales : l.scales = x.scales
  tqplusShift : l.tqplusShift = x.tqplusShift
  tqplusScale : l.tqplusScale = x.tqplusScale
  pendingSlots : l.pendingSlots = []
  rows : l.rows = rows
  seq : unitLayout ≠ LAYOUT_PLANES → ∀ v < x.nVectors,
    seqRowAt l.seqBlocked (l.dim / codesPerByte l.bitWidth) v = x.writtenRow P v

/-- The code bytes an image gives a slot. -/
theorem fullRow_codes (h : Rep P x rows) (hd : x.dim = some d) (hg : RowsGiven P x rows) {v : ℕ}
    (hv : v < x.nVectors) :
    packRow x.bitWidth d (fullRow (x.syncSource P kind ids version) v).codes = rows.getD v [] ∧
    ((x.syncSource P kind ids version).layout ≠ LAYOUT_PLANES →
      (fullRow (x.syncSource P kind ids version) v).codes = x.writtenRow P v) := by
  obtain ⟨hmod, hpos⟩ := h.dims d hd
  obtain ⟨hpack, hlen⟩ := h.packRow_seqRow hd hv
  have hsrc : (x.syncSource P kind ids version).nVectors = x.nVectors := rfl
  rw [fullRow]
  split
  · rename_i hblock
    rw [hsrc] at hblock
    rw [TurboQuantIndex.writtenRow, if_pos hblock]
    have hb : v / 32 < x.nVectors / 32 := by
      simp only [BLOCK] at hblock
      omega
    have hlane : v % 32 < 32 := Nat.mod_lt _ (by decide)
    have hv' : v / 32 * 32 + v % 32 = v := Nat.div_add_mod' _ _
    have hunit : unitBytes (x.syncSource P kind ids version) (v / 32) =
        x.unitCodesRange P (x.syncSource P kind ids version).layout (v / 32 * BLOCK) (v / 32 * BLOCK + BLOCK) ++
          (unitScales (x.syncSource P kind ids version) (v / 32) ++
            unitIds (x.syncSource P kind ids version) (v / 32)) := List.append_assoc _ _ _
    dsimp only [BLOCK]
    rw [hunit]
    rcases @layout_cases P x kind version ids with hl | hl
    · have hseq := h.seqBlock hd hb
      have hcodes : unitCodeRow (x.syncSource P kind ids version).geo
          (x.unitCodesRange P (x.syncSource P kind ids version).layout (v / 32 * BLOCK) (v / 32 * BLOCK + BLOCK) ++
            (unitScales (x.syncSource P kind ids version) (v / 32) ++
              unitIds (x.syncSource P kind ids version) (v / 32))) (v % 32) = x.seqRow P v := by
        have hgl : (x.syncSource P kind ids version).geo.layout = LAYOUT_SEQ := hl
        rw [unitCodeRow, hgl, if_neg (by decide), hl, TurboQuantIndex.unitCodesRange, if_pos (by decide),
          rowBytes_syncSource, hd, Option.getD_some]
        refine ext_entry (by rw [length_seqLane, hlen]) fun g hg => ?_
        rw [length_seqLane] at hg
        have hcode := hseq.code (v % 32) (by omega) g hg
        rw [if_pos hlane, hv', Nat.div_eq_of_lt hlane, Nat.mod_eq_of_lt hlane, Nat.zero_mul, Nat.zero_add] at hcode
        rw [entry_seqLane _ _ hg]
        refine (entry_append_left ?_).trans hcode
        have := mul_add_lt hg hlane
        rw [hseq.length_eq]
        simp only [BLOCK]
        omega
      rw [hcodes]
      exact ⟨hpack, fun _ => rfl⟩
    · obtain ⟨-, hfor⟩ := planesFor_of_layout hl hd
      have hbits := planesBits_of_planesFor hfor
      have hgl : (x.syncSource P kind ids version).geo.layout = LAYOUT_PLANES := hl
      refine ⟨?_, fun hne => absurd hl hne⟩
      rw [unitCodeRow, hgl, if_pos rfl, hl, h.planesBlock hd hb hfor]
      have hgb : (x.syncSource P kind ids version).geo.bitWidth = x.bitWidth := rfl
      have hgd : (x.syncSource P kind ids version).geo.dim = d := congrArg (Option.getD · 0) hd
      rw [hgb, hgd, planesUnitRow_planesUnit hbits (fun w hw => h.length_row hd (by omega)) hlane, hv',
        packRow_extractRow h.bits hmod (h.length_row hd hv)]
  · rename_i hblock
    rw [hsrc] at hblock
    rw [TurboQuantIndex.writtenRow, if_neg hblock]
    exact ⟨(hg d hd v hv).1, fun _ => rfl⟩

/-- The scale and the id an image gives a slot. -/
theorem fullRow_scale_id (v : ℕ) : (fullRow (x.syncSource P kind ids version) v).scale = entry x.scales v ∧
    (fullRow (x.syncSource P kind ids version) v).id = ids.elim 0 fun ids => entry ids v := by
  rw [fullRow]
  split
  · exact ⟨rfl, rfl⟩
  · exact ⟨rfl, rfl⟩

theorem map_entry_range {α : Type} [Zero α] {l : List α} {n : ℕ} (hn : l.length = n) :
    ((List.range n).map fun v => entry l v) = l := by
  refine ext_entry (by simp [hn]) fun i hi => ?_
  rw [List.length_map, List.length_range] at hi
  exact entry_of_getElem? (by rw [List.getElem?_map, List.getElem?_range hi, Option.map_some])

/-- A full image loads as an index with the rows it was written from. -/
theorem load_syncSource (hT : T.Numbered) (h : Rep P x rows) (hw : Writable T x) (hs : Seeded T x)
    (hg : RowsGiven P x rows) (hids : ids.isSome = true ↔ kind = 1) (hk : kind ≤ 1)
    (hv : version = 7 ∨ version = 8) (expectCalibGen : ℕ) :
    ∃ l, loadImage T (imageBytes (x.syncSource P kind ids version)) expectCalibGen kind = .ok l ∧
      LoadedBack P x rows (x.syncSource P kind ids version).layout l ∧
      l.ids = if kind = 1 then (List.range x.nVectors).map fun v => entry (ids.getD []) v else [] := by
  have hwf := syncSource_wf (P := P) hT h hw hs hg hids hk hv
  have himg := fullImage_writeImage hwf 0 UNCLAIMED_NONCE
  obtain ⟨l, hl, hL⟩ := loadImage_writeImage hwf (show 0 < 2 ^ 64 by decide) rfl
    (show UNCLAIMED_NONCE < 2 ^ 64 by decide) hw.scales expectCalibGen
  have hrows : ∀ v < x.nVectors, (parsedFull (x.syncSource P kind ids version) 0 UNCLAIMED_NONCE).rows
      (imageBytes (x.syncSource P kind ids version)) v = fullRow (x.syncSource P kind ids version) v :=
    fun v hv => himg.rows hwf hv
  have hscales : l.scales = x.scales := by
    rw [hL.scales, ← map_entry_range h.scales]
    refine List.map_congr_left fun v hv => ?_
    have hrow := congrArg Row.scale (hrows v (List.mem_range.mp hv))
    exact hrow.trans (fullRow_scale_id v).1
  have hids : l.ids = if kind = 1 then (List.range x.nVectors).map fun v => entry (ids.getD []) v else [] := by
    rw [hL.ids]
    refine if_congr Iff.rfl (List.map_congr_left fun v hv => ?_) rfl
    have hrow := congrArg Row.id (hrows v (List.mem_range.mp hv))
    refine hrow.trans ((fullRow_scale_id v).2.trans ?_)
    cases ids with
    | none => exact (entry_nil v).symm
    | some ids => rfl
  have hdim : l.dim = x.dim.getD 0 := hL.dim
  have hbits : l.bitWidth = x.bitWidth := hL.bitWidth
  have hn : l.nVectors = x.nVectors := hL.nVectors
  have hseq : (x.syncSource P kind ids version).layout ≠ LAYOUT_PLANES → ∀ v < x.nVectors,
      seqRowAt l.seqBlocked (l.dim / codesPerByte l.bitWidth) v = x.writtenRow P v := by
    intro hlay v hv
    obtain ⟨d, hd⟩ := Option.isSome_iff_exists.mp (h.dimmed (by omega))
    obtain ⟨hhold, -⟩ := hL.seq hlay
    have hgeo : (parsedFull (x.syncSource P kind ids version) 0 UNCLAIMED_NONCE).geo.rowBytes =
        l.dim / codesPerByte l.bitWidth := by
      rw [hdim, hbits]
      exact rowBytes_syncSource
    rw [hgeo] at hhold
    rw [hhold.seqRowAt hv]
    have hcodes := congrArg Row.codes (hrows v hv)
    rw [(fullRow_codes h hd hg hv).2 hlay] at hcodes
    have hlen : l.dim / codesPerByte l.bitWidth = (x.writtenRow P v).length := by
      rw [hdim, hbits, hd, Option.getD_some, (h.packRow_writtenRow hg hd hv).2]
    rw [hlen]
    refine (tabulate_congr fun g _ => ?_).trans (tabulate_entry _)
    exact congrArg (fun r => entry r g) hcodes
  have hst := stored_of_loadImage hl
  have hread : ∀ v < x.nVectors, l.rows.getD v [] = rows.getD v [] := by
    intro v hv
    obtain ⟨d, hd⟩ := Option.isSome_iff_exists.mp (h.dimmed (by omega))
    have hld : l.dim = d := by rw [hdim, hd, Option.getD_some]
    have hlay : l.layout = (x.syncSource P kind ids version).layout := hL.layout
    by_cases hp : (x.syncSource P kind ids version).layout = LAYOUT_PLANES
    · obtain ⟨hcanon, -⟩ := hL.planes hp
      have hgb : (parsedFull (x.syncSource P kind ids version) 0 UNCLAIMED_NONCE).geo.bitWidth = l.bitWidth :=
        hbits.symm
      have hgd : (parsedFull (x.syncSource P kind ids version) 0 UNCLAIMED_NONCE).geo.dim = l.dim := hdim.symm
      have hgn : (parsedFull (x.syncSource P kind ids version) 0 UNCLAIMED_NONCE).nVectors = l.nVectors := hn.symm
      rw [hgb, hgd, hgn] at hcanon
      rw [getD_rows_planes hst (hlay.trans hp) (fun _ _ => length_packRow _ _ _) hcanon (by omega)]
      have hcodes := congrArg Row.codes (hrows v hv)
      rw [hbits, hld]
      exact (congrArg (packRow x.bitWidth d) hcodes).trans (fullRow_codes h hd hg hv).1
    · have hlp : l.layout ≠ LAYOUT_PLANES := by rw [hlay]; exact hp
      rw [getD_rows_seq hlp (by omega), hseq hp v hv, hbits, hld]
      exact (h.packRow_writtenRow hg hd hv).1
  refine ⟨l, hl, ⟨hdim, hbits, hn, hL.layout, hscales, hL.tqplusShift, hL.tqplusScale, hL.pendingSlots, ?_,
    hseq⟩, hids⟩
  refine List.ext_getElem? fun v => ?_
  have hlen := l.length_rows
  have hlen' := h.len
  by_cases hv : v < x.nVectors
  · have := hread v hv
    rw [List.getD_eq_getElem?_getD, List.getD_eq_getElem?_getD, List.getElem?_eq_getElem (by omega),
      List.getElem?_eq_getElem (by omega), Option.getD_some, Option.getD_some] at this
    rw [List.getElem?_eq_getElem (by omega), List.getElem?_eq_getElem (by omega), this]
  · rw [List.getElem?_eq_none (by omega), List.getElem?_eq_none (by omega)]

end Source

end Turbovec
