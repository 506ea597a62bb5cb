import Turbovec.IoV7.Total
import Turbovec.Index.Captures
import Turbovec.Index.Written

/-!
# Parts and images

`from_parts` and the loader draw the same boundary. What `from_parts` accepts is written as an image that
loads to the same parts; and what the loader accepts is taken by `from_parts` once read back, as an index
that writes the same image wherever the image had no code bit outside its field.
-/

namespace Turbovec

open Pack IoV7 Slice Grid

/-! ## What `from_parts` accepts -/

section Accepts

variable {B : CalibrationBounds} {dim : Option ℕ} {bitWidth nVectors : ℕ} {packedCodes : List UInt8}
  {scales tqplusShift tqplusScale : List F32} {x : TurboQuantIndex}

/-- The lengths `from_parts` takes. -/
structure PartsFit (dim : Option ℕ) (bitWidth nVectors : ℕ) (packedCodes : List UInt8)
    (scales tqplusShift tqplusScale : List F32) : Prop where
  bits : 2 ≤ bitWidth ∧ bitWidth ≤ 4
  paired : tqplusShift.length = tqplusScale.length
  committed : ∀ d, dim = some d → (d ≠ 0 ∧ d % 8 = 0 ∧ d ≤ MAX_DIM) ∧
    d / 8 * bitWidth * nVectors < 2 ^ 64 ∧ packedCodes.length = d / 8 * bitWidth * nVectors ∧
    (tqplusShift.length = 0 ∨ tqplusShift.length = d)
  uncommitted : dim = none → nVectors = 0 ∧ packedCodes.length = 0 ∧ tqplusShift.length = 0
  scales : scales.length = nVectors

theorem ite_error_eq_ok {ε α : Type} {c : Prop} [Decidable c] {e : ε} {y : Except ε α} {a : α} :
    (if c then .error e else y) = .ok a ↔ ¬c ∧ y = .ok a := by
  by_cases hc : c
  · simp [hc]
  · simp [hc]

theorem checkLengths_eq_ok : TurboQuantIndex.checkLengths dim bitWidth nVectors packedCodes scales tqplusShift
    tqplusScale = .ok () ↔ PartsFit dim bitWidth nVectors packedCodes scales tqplusShift tqplusScale := by
  unfold TurboQuantIndex.checkLengths
  cases dim with
  | none =>
    simp only [ite_error_eq_ok, not_not, and_true]
    constructor
    · intro ⟨hb, hpair, hn, hpacked, hscales, hshift⟩
      exact ⟨hb, hpair, fun d hd => (by cases hd), fun _ => ⟨hn, hpacked, hshift⟩, hscales.trans hn.symm⟩
    · intro h
      obtain ⟨hn, hpacked, hshift⟩ := h.uncommitted rfl
      exact ⟨h.bits, h.paired, hn, hpacked, h.scales.trans hn, hshift⟩
  | some d =>
    simp only [ite_error_eq_ok, not_not, and_true]
    constructor
    · intro ⟨hb, hpair, hd, hmax, hover, hpacked, hscales, hshift⟩
      refine ⟨hb, hpair, fun d' hd' => ?_, fun hd' => (by cases hd'), hscales⟩
      rw [← Option.some.inj hd']
      exact ⟨⟨by omega, by omega, by omega⟩, by omega, hpacked, by omega⟩
    · intro h
      obtain ⟨hd, hover, hpacked, hshift⟩ := h.committed d rfl
      exact ⟨h.bits, h.paired, by omega, by omega, by omega, hpacked, h.scales, by omega⟩

/-- The values `from_parts` takes: the loader's. -/
theorem checkValues_eq_ok : TurboQuantIndex.checkValues B scales tqplusShift tqplusScale = .ok () ↔
    (∀ v ∈ scales, validScale v = true) ∧ validateCalibration B tqplusShift tqplusScale = .ok () := by
  unfold TurboQuantIndex.checkValues validateCalibration
  cases hs : scales.findIdx? fun s => !validScale s with
  | some i =>
    have hbad : ¬∀ v ∈ scales, validScale v = true := by
      intro h
      have hnone : (scales.findIdx? fun s => !validScale s) = none :=
        List.findIdx?_eq_none_iff.mpr fun v hv => by simp [h v hv]
      rw [hs] at hnone
      cases hnone
    simp [hbad]
  | none =>
    have hgood : ∀ v ∈ scales, validScale v = true := by
      intro v hv
      simpa using List.findIdx?_eq_none_iff.mp hs v hv
    dsimp only
    cases tqplusShift.findIdx? (badShift B tqplusShift.length) with
    | some i => simp
    | none =>
      cases tqplusScale.findIdx? (badScale B tqplusScale.length) with
      | some i => simp
      | none => simpa using hgood

/-- The index of parts that pass. -/
def partsIndex (dim : Option ℕ) (bitWidth nVectors : ℕ) (packedCodes : List UInt8)
    (scales tqplusShift tqplusScale : List F32) : TurboQuantIndex :=
  { TurboQuantIndex.empty dim bitWidth with
    nVectors
    packedCodes := some packedCodes
    scales
    tqplusShift := (TurboQuantIndex.normalizeCalibration tqplusShift tqplusScale).1
    tqplusScale := (TurboQuantIndex.normalizeCalibration tqplusShift tqplusScale).2 }

theorem fromParts_eq_ok : TurboQuantIndex.fromParts B dim bitWidth nVectors packedCodes scales tqplusShift
      tqplusScale = .ok x ↔
    PartsFit dim bitWidth nVectors packedCodes scales tqplusShift tqplusScale ∧
    (∀ v ∈ scales, validScale v = true) ∧ validateCalibration B tqplusShift tqplusScale = .ok () ∧
    x = partsIndex dim bitWidth nVectors packedCodes scales tqplusShift tqplusScale := by
  rw [TurboQuantIndex.fromParts, bind_eq_ok]
  constructor
  · rintro ⟨_, hlen, h⟩
    rw [bind_eq_ok] at h
    obtain ⟨_, hval, h⟩ := h
    obtain ⟨hs, hc⟩ := checkValues_eq_ok.mp hval
    exact ⟨checkLengths_eq_ok.mp hlen, hs, hc, (Except.ok.inj h).symm⟩
  · rintro ⟨hlen, hs, hc, hx⟩
    refine ⟨(), checkLengths_eq_ok.mpr hlen, ?_⟩
    rw [bind_eq_ok]
    exact ⟨(), checkValues_eq_ok.mpr ⟨hs, hc⟩, congrArg Except.ok hx.symm⟩

end Accepts

/-! ## The normalized calibration -/

section Calibration

variable {T : Tables} {shift scale : List F32} {n : ℕ}

theorem normalizeCalibration_cases (shift scale : List F32) :
    TurboQuantIndex.normalizeCalibration shift scale = ([], []) ∨
    TurboQuantIndex.normalizeCalibration shift scale = (shift, scale) := by
  unfold TurboQuantIndex.normalizeCalibration
  dsimp only
  split
  · exact Or.inl rfl
  · exact Or.inr rfl

/-- Normalizing twice is normalizing once. -/
theorem normalizeCalibration_idem (shift scale : List F32) : TurboQuantIndex.normalizeCalibration
      (TurboQuantIndex.normalizeCalibration shift scale).1
      (TurboQuantIndex.normalizeCalibration shift scale).2 =
    TurboQuantIndex.normalizeCalibration shift scale := by
  rcases normalizeCalibration_cases shift scale with h | h
  · rw [h]
    rfl
  · rw [h]
    exact h

/-- A calibration the loader takes is one it takes once normalized. -/
theorem IoV7.CalibrationOk.normalize (h : CalibrationOk T n shift scale) :
    CalibrationOk T (TurboQuantIndex.normalizeCalibration shift scale).1.length
      (TurboQuantIndex.normalizeCalibration shift scale).1
      (TurboQuantIndex.normalizeCalibration shift scale).2 := by
  rcases normalizeCalibration_cases shift scale with hn | hn
  · rw [hn]
    exact ⟨rfl, rfl, rfl⟩
  · rw [hn]
    exact ⟨rfl, h.scale_len.trans h.shift_len.symm, h.valid⟩

theorem length_normalizeCalibration (shift scale : List F32) :
    (TurboQuantIndex.normalizeCalibration shift scale).1.length = 0 ∨
    (TurboQuantIndex.normalizeCalibration shift scale).1.length = shift.length := by
  rcases normalizeCalibration_cases shift scale with hn | hn
  · rw [hn]
    exact Or.inl rfl
  · rw [hn]
    exact Or.inr rfl

end Calibration

/-! ## Seeded -/

section Seeding

variable {P : Platform} {T : Tables} {x y : TurboQuantIndex} {rows : List (List UInt8)}

/-- The codebook of an index, where it is set, is that of its dimension. -/
def Booked (T : Tables) (x : TurboQuantIndex) : Prop :=
  ∀ d, x.dim = some d → (∀ l, x.boundaries = some l → l = (T.codebook x.bitWidth d).1) ∧
    ∀ l, x.centroids = some l → l = (T.codebook x.bitWidth d).2

/-- An index with no codebook yet. -/
theorem booked_of_none (hb : x.boundaries = none) (hc : x.centroids = none) : Booked T x := by
  intro d _
  rw [hb, hc]
  exact ⟨fun l hl => (by cases hl), fun l hl => (by cases hl)⟩

theorem booked_fromV7 (l : V7Load) (path : Option String) : Booked T (TurboQuantIndex.fromV7 P T l path) := by
  intro d hd
  change (if l.dim ≠ 0 then some l.dim else none) = some d at hd
  split at hd
  · rename_i hdim
    have hbook : (if l.dim = 0 then ([], []) else T.codebook l.bitWidth l.dim) = T.codebook l.bitWidth d := by
      rw [if_neg hdim, Option.some.inj hd]
    have hset : ∀ {f g : List F32}, (if decide (l.nVectors ≠ 0) = true then some f else none) = some g →
        g = f := by
      intro f g h
      split at h
      · exact (Option.some.inj h).symm
      · cases h
    exact ⟨fun m hm => (hset hm).trans (congrArg Prod.fst hbook),
      fun m hm => (hset hm).trans (congrArg Prod.snd hbook)⟩
  · cases hd

/-- What seeding leaves as it was. -/
structure SameParts (x y : TurboQuantIndex) : Prop where
  dim : y.dim = x.dim
  bitWidth : y.bitWidth = x.bitWidth
  nVectors : y.nVectors = x.nVectors
  scales : y.scales = x.scales
  tqplusShift : y.tqplusShift = x.tqplusShift
  tqplusScale : y.tqplusScale = x.tqplusScale

theorem SameParts.symm (h : SameParts x y) : SameParts y x :=
  ⟨h.dim.symm, h.bitWidth.symm, h.nVectors.symm, h.scales.symm, h.tqplusShift.symm, h.tqplusScale.symm⟩

theorem SameParts.trans {z : TurboQuantIndex} (h : SameParts x y) (h' : SameParts y z) : SameParts x z :=
  ⟨h'.dim.trans h.dim, h'.bitWidth.trans h.bitWidth, h'.nVectors.trans h.nVectors, h'.scales.trans h.scales,
    h'.tqplusShift.trans h.tqplusShift, h'.tqplusScale.trans h.tqplusScale⟩

theorem seeded_same (x : TurboQuantIndex) : SameParts x (x.seeded P T) := by
  unfold TurboQuantIndex.seeded
  dsimp only
  split
  · split
    · exact ⟨rfl, rfl, rfl, rfl, rfl, rfl⟩
    · exact ⟨rfl, rfl, rfl, rfl, rfl, rfl⟩
  · split
    · exact ⟨rfl, rfl, rfl, rfl, rfl, rfl⟩
    · exact ⟨rfl, rfl, rfl, rfl, rfl, rfl⟩

/-- Seeding leaves the captures. -/
theorem seeded_captures (x : TurboQuantIndex) : (x.seeded P T).syncCaptureAt = x.syncCaptureAt ∧
    (x.seeded P T).syncCaptureBuf = x.syncCaptureBuf := by
  unfold TurboQuantIndex.seeded
  dsimp only
  split
  · split
    · exact ⟨rfl, rfl⟩
    · exact ⟨rfl, rfl⟩
  · split
    · exact ⟨rfl, rfl⟩
    · exact ⟨rfl, rfl⟩

/-- Seeding makes no cache, and leaves the packed rows where there is one. -/
theorem seeded_codes (x : TurboQuantIndex) : (x.seeded P T).blocked = x.blocked ∧
    (x.blocked.isSome → (x.seeded P T).packedCodes = x.packedCodes) := by
  unfold TurboQuantIndex.seeded
  dsimp only
  cases hb : x.blocked with
  | none =>
    rw [if_pos Option.isNone_none]
    split
    · exact ⟨hb, fun h => absurd h Bool.false_ne_true⟩
    · exact ⟨hb, fun h => absurd h Bool.false_ne_true⟩
  | some cache =>
    rw [if_neg (by simp)]
    split
    · exact ⟨hb, fun _ => rfl⟩
    · exact ⟨hb, fun _ => rfl⟩

theorem Rep.seeded (h : Rep P x rows) : Rep P (x.seeded P T) rows := by
  have hmat : Rep P (if x.blocked.isNone then x.materialize P else x) rows := by
    split
    · exact h.materialize
    · exact h
  unfold TurboQuantIndex.seeded
  dsimp only
  split
  · exact hmat.of_same rfl rfl rfl rfl rfl rfl
  · exact hmat

/-- Seeding sets the codebook. -/
theorem seeded_seeded (hb : Booked T x) : Seeded T (x.seeded P T) := by
  intro d hd
  rw [(seeded_same x).dim] at hd
  rw [(seeded_same x).bitWidth]
  obtain ⟨hbound, hcent⟩ := hb d hd
  have hget : ∀ {o : Option (List F32)} {l : List F32}, (∀ m, o = some m → m = l) → o.getD l = l := by
    intro o l h
    cases o with
    | none => rfl
    | some m => exact h m rfl
  have hbooks : (x.seeded P T).boundaries = some (x.boundaries.getD (T.codebook x.bitWidth d).1) ∧
      (x.seeded P T).centroids = some (x.centroids.getD (T.codebook x.bitWidth d).2) := by
    unfold TurboQuantIndex.seeded
    dsimp only
    by_cases hn : x.blocked.isNone = true
    · simp only [if_pos hn, TurboQuantIndex.materialize, hd, and_self]
    · simp only [if_neg hn, hd, and_self]
  rw [hbooks.1, hbooks.2, Option.getD_some, Option.getD_some]
  exact ⟨hget hbound, hget hcent⟩

theorem Writable.of_same (hw : Writable T x) (h : SameParts x y) : Writable T y where
  dim_le := by rw [h.dim]; exact hw.dim_le
  n_lt := by rw [h.nVectors]; exact hw.n_lt
  scales := by rw [h.nVectors, h.scales]; exact hw.scales
  nCalib := by rw [h.tqplusShift, h.dim]; exact hw.nCalib
  calibration := by rw [h.tqplusShift, h.tqplusScale]; exact hw.calibration

/-- With no row captured, the writer is given every row as it is. -/
theorem rowCodes_of_nil (h : x.syncCaptureAt = []) (v : ℕ) : x.rowCodes P v = x.seqRow P v := by
  have hnone : x.captureLookup v = none := by
    unfold TurboQuantIndex.captureLookup
    rw [h]
    simp
  unfold TurboQuantIndex.rowCodes
  dsimp only
  rw [hnone]

theorem writtenRow_of_nil (h : x.syncCaptureAt = []) (v : ℕ) : x.writtenRow P v = x.seqRow P v := by
  unfold TurboQuantIndex.writtenRow
  rw [rowCodes_of_nil h, ite_self]

end Seeding

/-! ## Written alike -/

section Alike

variable {P : Platform} {T : Tables} {x y : TurboQuantIndex} {rows : List (List UInt8)}

/-- An image is made of the whole blocks and the rows past them. -/
theorem imageBytes_congr {src : SyncSource} {unitCodes : ℕ → ℕ → List UInt8} {rowCodes : ℕ → List UInt8}
    (hunits : ∀ b < src.nVectors / BLOCK,
      src.unitCodes (b * BLOCK) (b * BLOCK + BLOCK) = unitCodes (b * BLOCK) (b * BLOCK + BLOCK))
    (hrows : ∀ v < src.nVectors, src.nVectors / BLOCK * BLOCK ≤ v → src.rowCodes v = rowCodes v) :
    imageBytes src = imageBytes { src with unitCodes, rowCodes } := by
  have htail : tailBytes src src.nVectors = tailBytes { src with unitCodes, rowCodes } src.nVectors := by
    unfold tailBytes
    rw [List.flatMap_def, List.flatMap_def]
    apply congrArg List.flatten
    apply List.map_congr_left
    intro k hk
    have hk := List.mem_range.mp hk
    have hle := Nat.mod_le src.nVectors BLOCK
    have hpast : src.nVectors / BLOCK * BLOCK ≤ src.nVectors - src.nVectors % BLOCK + k := by
      have := Nat.div_add_mod' src.nVectors BLOCK
      omega
    unfold recBytes
    rw [hrows _ (by omega) hpast]
  have hheader : fullHeader src 0 = fullHeader { src with unitCodes, rowCodes } 0 := by
    unfold fullHeader headerSlot headerBody
    dsimp only
    rw [htail]
    rfl
  have hblocks : (List.range (src.nVectors / BLOCK)).flatMap (unitBytes src) =
      (List.range (src.nVectors / BLOCK)).flatMap (unitBytes { src with unitCodes, rowCodes }) := by
    rw [List.flatMap_def, List.flatMap_def]
    apply congrArg List.flatten
    apply List.map_congr_left
    intro b hb
    unfold unitBytes
    dsimp only
    rw [hunits b (List.mem_range.mp hb)]
    rfl
  unfold imageBytes writeImage layoutImage
  rw [hheader, hblocks]
  rfl

/-- Indexes with the same parts and packed rows, written with the same code bytes, write the same image. -/
theorem syncSource_alike (hx : Rep P x rows) (hy : Rep P y rows) (hs : SameParts x y) (hsx : Seeded T x)
    (hsy : Seeded T y) (hwritten : ∀ v < x.nVectors, x.writtenRow P v = y.writtenRow P v)
    (kind : ℕ) (ids : Option (List UInt64)) (version : ℕ) :
    imageBytes (x.syncSource P kind ids version) = imageBytes (y.syncSource P kind ids version) := by
  have hlay : x.unitLayout P = y.unitLayout P := by
    unfold TurboQuantIndex.unitLayout
    rw [hs.dim, hs.bitWidth, hs.nVectors]
  have hsrc : y.syncSource P kind ids version = { x.syncSource P kind ids version with
      unitCodes := (y.syncSource P kind ids version).unitCodes
      rowCodes := (y.syncSource P kind ids version).rowCodes } := by
    unfold TurboQuantIndex.syncSource
    dsimp only
    rw [hs.dim, hs.bitWidth, hs.nVectors, hs.scales, hs.tqplusShift, hs.tqplusScale, hlay]
    cases hd : x.dim with
    | none => rfl
    | some d =>
      have hyd : y.dim = some d := hs.dim.trans hd
      rw [(hsx d hd).1, (hsx d hd).2, (hsy d hyd).1, (hsy d hyd).2, hs.bitWidth]
  rw [hsrc]
  apply imageBytes_congr
  · intro b hb
    change b < x.nVectors / 32 at hb
    obtain ⟨d, hd⟩ := Option.isSome_iff_exists.mp (hx.dimmed (by omega))
    have hyd : y.dim = some d := hs.dim.trans hd
    have hby : b < y.nVectors / 32 := by rw [hs.nVectors]; exact hb
    show x.unitCodesRange P (x.syncSource P kind ids version).layout (b * BLOCK) (b * BLOCK + BLOCK) =
      y.unitCodesRange P (y.syncSource P kind ids version).layout (b * BLOCK) (b * BLOCK + BLOCK)
    have hyl : (y.syncSource P kind ids version).layout = (x.syncSource P kind ids version).layout := by
      rw [hsrc]
    rw [hyl]
    rcases @layout_cases P x kind version ids with hl | hl
    · rw [hl, TurboQuantIndex.unitCodesRange, TurboQuantIndex.unitCodesRange, if_pos (by decide),
        if_pos (by decide)]
      have hx' := hx.seqBlock hd hb
      have hy' := hy.seqBlock hyd hby
      rw [hs.bitWidth] at hy'
      refine hx'.unique (hy'.congr fun lane hlane g _ => ?_)
      have hw := hwritten (b * 32 + lane) (by omega)
      rw [TurboQuantIndex.writtenRow, TurboQuantIndex.writtenRow, hs.nVectors, if_pos (by simp only [BLOCK]; omega),
        if_pos (by simp only [BLOCK]; omega)] at hw
      rw [hw]
    · obtain ⟨-, hfor⟩ := planesFor_of_layout hl hd
      have hfory : planesFor P y.bitWidth (d / codesPerByte y.bitWidth) = true := by
        rw [hs.bitWidth]
        exact hfor
      rw [hl, hx.planesBlock hd hb hfor, hy.planesBlock hyd hby hfory, hs.bitWidth]
  · intro v hv hpast
    change x.nVectors / BLOCK * BLOCK ≤ v at hpast
    have hw := hwritten v hv
    rwa [TurboQuantIndex.writtenRow, TurboQuantIndex.writtenRow, hs.nVectors, if_neg (by omega),
      if_neg (by omega)] at hw

end Alike

/-! ## Read back as parts -/

section ReadBack

variable {P : Platform} {T : Tables} {x : TurboQuantIndex} {rows : List (List UInt8)} {raw : List UInt8}
  {l : V7Load}

/-- An index whose writer is given its rows writes an image that loads to its parts. -/
theorem load_image (hT : T.Numbered) (h : Rep P x rows) (hw : Writable T x) (hb : Booked T x)
    (hg : RowsGiven P (x.seeded P T) rows) {kind : ℕ} {ids : Option (List UInt64)}
    (hids : ids.isSome = true ↔ kind = 1) (hk : kind ≤ 1) :
    ∃ l, loadImage T (x.imageInVersion P T kind ids 8) 0 kind = .ok l ∧
      LoadedBack P (x.seeded P T) rows ((x.seeded P T).syncSource P kind ids 8).layout l ∧
      l.ids = if kind = 1 then (List.range x.nVectors).map fun v => entry (ids.getD []) v else [] := by
  have hs := @seeded_same P T x
  obtain ⟨l, hl, hback, hlids⟩ := @load_syncSource P T (x.seeded P T) rows kind 8 ids hT h.seeded (hw.of_same hs)
    (seeded_seeded hb) hg hids hk (Or.inr rfl) 0
  rw [hs.nVectors] at hlids
  exact ⟨l, hl, hback, hlids⟩

/-- An index none of whose rows are captured writes an image that loads to its parts. -/
theorem load_toBytes (hT : T.Numbered) (h : Rep P x rows) (hw : Writable T x) (hb : Booked T x)
    (hc : x.syncCaptureAt = []) : ∃ l, loadImage T (x.toBytes P T) 0 0 = .ok l ∧
      LoadedBack P (x.seeded P T) rows ((x.seeded P T).syncSource P 0 none 8).layout l := by
  have hg : RowsGiven P (x.seeded P T) rows :=
    h.seeded.rowsGiven fun v _ => rowCodes_of_nil ((seeded_captures x).1.trans hc) v
  obtain ⟨l, hl, hback, -⟩ := load_image hT h hw hb hg (show (none : Option (List UInt64)).isSome = true ↔ 0 = 1 by simp)
    (Nat.zero_le 1)
  exact ⟨l, hl, hback⟩

/-- The dimension of a loaded image. -/
theorem fromV7_dim (path : Option String) {o : Option ℕ} (h : l.dim = o.getD 0) (ho : ∀ d, o = some d → d ≠ 0) :
    (TurboQuantIndex.fromV7 P T l path).dim = o := by
  show (if l.dim ≠ 0 then some l.dim else none) = o
  rw [h]
  cases o with
  | none => rfl
  | some d => exact if_pos (ho d rfl)

/-- The code bytes of an accepted image's rows fit in it. -/
theorem codes_le_raw {img : ParsedImage} {expectKind : ℕ} (h : parseImage T raw expectKind = .ok img) :
    img.nVectors * (img.geo.bitWidth * (img.geo.dim / 8)) ≤ raw.length := by
  obtain ⟨hv, -, hfit⟩ := parseImage_ok h
  have hrow : img.geo.bitWidth * (img.geo.dim / 8) ≤ img.geo.rowBytes := by
    have hmod := hv.geo.dim_mod
    rw [Geo.rowBytes_eq]
    rcases hv.geo.bits with hb | hb | hb
    · rw [hb, show codesPerByte 2 = 4 from rfl]
      omega
    · rw [hb, show codesPerByte 3 = 2 from rfl]
      omega
    · rw [hb, show codesPerByte 4 = 2 from rfl]
      omega
  have hblocks : img.nVectors / BLOCK * (32 * img.geo.rowBytes) ≤
      img.nVectors / BLOCK * img.geo.unitLen := by
    apply Nat.mul_le_mul_left
    simp only [Geo.unitLen, BLOCK]
    omega
  have htail : 31 * img.geo.rowBytes ≤ img.geo.hdrAt 2 := by
    simp only [Geo.hdrAt, Geo.hdrLen]
    omega
  calc img.nVectors * (img.geo.bitWidth * (img.geo.dim / 8))
      ≤ img.nVectors * img.geo.rowBytes := Nat.mul_le_mul_left _ hrow
    _ ≤ (img.nVectors / BLOCK * 32 + 31) * img.geo.rowBytes := by
      apply Nat.mul_le_mul_right
      simp only [BLOCK]
      omega
    _ = img.nVectors / BLOCK * (32 * img.geo.rowBytes) + 31 * img.geo.rowBytes := by ring
    _ ≤ img.geo.unitAt (img.nVectors / BLOCK) := by
      simp only [Geo.unitAt]
      omega
    _ ≤ raw.length := hfit

/-- No code byte of the image has a bit outside its fields. -/
def ImageClean (T : Tables) (raw : List UInt8) : Prop :=
  ∀ img, parseImage T raw 0 = .ok img → img.geo.layout ≠ LAYOUT_PLANES →
    ∀ v < img.nVectors, ∀ g < img.geo.rowBytes,
      clearStray img.geo.bitWidth (entry (img.rows raw v).codes g) = entry (img.rows raw v).codes g

/-- The bits of an image are those of what it loads as. -/
theorem clean_load_iff (hl : loadImage T raw 0 0 = .ok l) : l.Clean ↔ ImageClean T raw := by
  obtain ⟨img, himg, -, hL⟩ := loadImage_ok hl
  have hread : l.layout ≠ LAYOUT_PLANES → ∀ v < l.nVectors,
      seqRowAt l.seqBlocked (l.dim / codesPerByte l.bitWidth) v =
        tabulate img.geo.rowBytes (entry (img.rows raw v).codes) := by
    intro hlay v hv
    rw [hL.layout] at hlay
    rw [hL.nVectors] at hv
    obtain ⟨hseq, -⟩ := hL.seq hlay
    rw [hL.dim, hL.bitWidth, ← Geo.rowBytes_eq, hseq.seqRowAt hv]
  constructor
  · intro hc img' himg' hlay v hv g hg
    rw [himg, Except.ok.injEq] at himg'
    subst himg'
    have hlay' : l.layout ≠ LAYOUT_PLANES := by rw [hL.layout]; exact hlay
    have hv' : v < l.nVectors := by rw [hL.nVectors]; exact hv
    have hrow := hc hlay' v hv'
    rw [hread hlay' v hv', hL.bitWidth] at hrow
    exact hrow _ (List.mem_map.mpr ⟨g, List.mem_range.mpr hg, rfl⟩)
  · intro hc hlay v hv b hb
    rw [hread hlay v hv] at hb
    obtain ⟨g, hg, rfl⟩ := List.mem_map.mp hb
    rw [hL.bitWidth]
    exact hc img himg (hL.layout ▸ hlay) v (hL.nVectors ▸ hv) g (List.mem_range.mp hg)

/-- The parts of a loaded image. -/
def loadedParts (P : Platform) (y : TurboQuantIndex) : TurboQuantIndex :=
  partsIndex y.dim y.bitWidth y.nVectors (y.packed P) y.scales y.tqplusShift y.tqplusScale

theorem rep_loadedParts (h : Rep P x rows) : Rep P (loadedParts P x) rows where
  bits := h.bits
  dims := h.dims
  dimmed := h.dimmed
  len := h.len
  width := h.width
  scales := h.scales
  packed p hp := (Option.some.inj hp).symm.trans h.packed_eq
  cache c hc := by cases hc
  live _ := Or.inl rfl

/-- Parts `from_parts` takes are ones the loader takes. -/
theorem writable_fromParts {dim : Option ℕ} {bitWidth nVectors : ℕ} {packedCodes : List UInt8}
    {scales tqplusShift tqplusScale : List F32} (h : TurboQuantIndex.fromParts T.bounds dim bitWidth nVectors
      packedCodes scales tqplusShift tqplusScale = .ok x) : Writable T x := by
  obtain ⟨hfit, hs, hc, rfl⟩ := fromParts_eq_ok.mp h
  have hcal : CalibrationOk T tqplusShift.length tqplusShift tqplusScale := ⟨rfl, hfit.paired.symm, hc⟩
  have hshift := length_normalizeCalibration tqplusShift tqplusScale
  constructor
  · intro d hd
    exact (hfit.committed d hd).1.2.2
  · show nVectors < 2 ^ 64
    cases dim with
    | none =>
      rw [(hfit.uncommitted rfl).1]
      decide
    | some d =>
      obtain ⟨⟨h0, h8, -⟩, hover, -⟩ := hfit.committed d rfl
      have hbits := hfit.bits.1
      have hpos : 0 < d / 8 * bitWidth := Nat.mul_pos (by omega) (by omega)
      exact lt_of_le_of_lt (Nat.le_mul_of_pos_left nVectors hpos) hover
  · intro v hv
    have hlt : v < scales.length := by
      rw [hfit.scales]
      exact hv
    apply hs
    show entry scales v ∈ scales
    rw [entry_of_getElem? (List.getElem?_eq_getElem hlt)]
    exact List.getElem_mem hlt
  · show (TurboQuantIndex.normalizeCalibration tqplusShift tqplusScale).1.length = 0 ∨
      (TurboQuantIndex.normalizeCalibration tqplusShift tqplusScale).1.length = dim.getD 0
    cases dim with
    | none =>
      have := (hfit.uncommitted rfl).2.2
      omega
    | some d =>
      have := (hfit.committed d rfl).2.2.2
      rw [Option.getD_some]
      omega
  · exact hcal.normalize

/-- The calibration of a loaded image is normalized. -/
theorem normalize_fromV7 (path : Option String) : TurboQuantIndex.normalizeCalibration
      (TurboQuantIndex.fromV7 P T l path).tqplusShift (TurboQuantIndex.fromV7 P T l path).tqplusScale =
    ((TurboQuantIndex.fromV7 P T l path).tqplusShift, (TurboQuantIndex.fromV7 P T l path).tqplusScale) :=
  normalizeCalibration_idem l.tqplusShift l.tqplusScale

/-- Read back, the parts of a loaded image are ones `from_parts` takes. -/
theorem fromParts_loaded (hraw : raw.length < 2 ^ 64) (hl : loadImage T raw 0 0 = .ok l) :
    TurboQuantIndex.fromParts T.bounds (TurboQuantIndex.fromV7 P T l none).dim
      (TurboQuantIndex.fromV7 P T l none).bitWidth (TurboQuantIndex.fromV7 P T l none).nVectors
      ((TurboQuantIndex.fromV7 P T l none).packed P) (TurboQuantIndex.fromV7 P T l none).scales
      (TurboQuantIndex.fromV7 P T l none).tqplusShift (TurboQuantIndex.fromV7 P T l none).tqplusScale =
        .ok (loadedParts P (TurboQuantIndex.fromV7 P T l none)) := by
  obtain ⟨img, himg, hs, hL⟩ := loadImage_ok hl
  obtain ⟨hv, hkind, -⟩ := parseImage_ok himg
  have hwf := Checked.wellFormed_of_loaded hv hkind hs hL
  have hrep := rep_fromV7 (P := P) (T := T) (stored_of_loadImage hl) none
  have hcodes := codes_le_raw himg
  have hnorm : CalibrationOk T (TurboQuantIndex.fromV7 P T l none).tqplusShift.length
      (TurboQuantIndex.fromV7 P T l none).tqplusShift (TurboQuantIndex.fromV7 P T l none).tqplusScale :=
    CalibrationOk.normalize ⟨rfl, hwf.calib_len.2, hwf.calib⟩
  have hshift : (TurboQuantIndex.fromV7 P T l none).tqplusShift.length = 0 ∨
      (TurboQuantIndex.fromV7 P T l none).tqplusShift.length = l.dim := by
    have hlen := length_normalizeCalibration l.tqplusShift l.tqplusScale
    have hcal := hwf.calib_len.1
    show (TurboQuantIndex.normalizeCalibration l.tqplusShift l.tqplusScale).1.length = 0 ∨
      (TurboQuantIndex.normalizeCalibration l.tqplusShift l.tqplusScale).1.length = l.dim
    omega
  rw [fromParts_eq_ok]
  refine ⟨⟨?_, hnorm.scale_len.symm, ?_, ?_, hwf.scales_len⟩, hwf.scales, hnorm.valid, rfl⟩
  · show 2 ≤ l.bitWidth ∧ l.bitWidth ≤ 4
    rw [hL.bitWidth]
    exact ⟨hv.geo.bits_ge, hv.geo.bits_le⟩
  · intro d hd
    have hlen : ((TurboQuantIndex.fromV7 P T l none).packed P).length = l.nVectors * (l.bitWidth * (d / 8)) := by
      rw [hrep.packed_eq, length_flatten_rows (hrep.width d hd), hrep.len]
      rfl
    have hprod : d / 8 * l.bitWidth * l.nVectors = l.nVectors * (l.bitWidth * (d / 8)) := by ring
    change (if l.dim ≠ 0 then some l.dim else none) = some d at hd
    split at hd
    · rename_i h0
      obtain rfl := Option.some.inj hd
      have hgeo : l.dim % 8 = 0 ∧ l.dim ≤ MAX_DIM := by
        rw [hL.dim]
        exact ⟨hv.geo.dim_mod, hv.geo.dim_le⟩
      refine ⟨⟨h0, hgeo⟩, ?_, hlen.trans hprod.symm, hshift⟩
      show l.dim / 8 * l.bitWidth * l.nVectors < 2 ^ 64
      rw [hprod, hL.nVectors, hL.bitWidth, hL.dim]
      exact lt_of_le_of_lt hcodes hraw
    · cases hd
  · intro hd
    change (if l.dim ≠ 0 then some l.dim else none) = none at hd
    split at hd
    · cases hd
    · rename_i h0
      rw [not_not] at h0
      have hn : l.nVectors = 0 := (stored_of_loadImage hl).dim_zero h0
      refine ⟨hn, ?_, by omega⟩
      rw [hrep.packed_eq, List.length_eq_zero_iff.mp (hrep.len.trans hn), List.flatten_nil, List.length_nil]

/-- A loaded 3-bit index reads its rows as the image has them. -/
theorem seqRow_fromV7_three (hst : l.Stored) (h3 : l.bitWidth = 3) {v : ℕ} (hv : v < l.nVectors) :
    ((TurboQuantIndex.fromV7 P T l none).seeded P T).seqRow P v =
      seqRowAt l.seqBlocked (l.dim / codesPerByte l.bitWidth) v := by
  -- only a sequential image has 3-bit codes, and it is loaded as lanes
  have hlay : l.layout ≠ LAYOUT_PLANES := by
    intro hlay
    have := (hst.planes hlay).1
    simp only [PlanesBits] at this
    omega
  obtain ⟨code, hseq⟩ := hst.seq hlay
  have hrows : decide (l.nVectors ≠ 0) = true := decide_eq_true (by omega)
  have hcache : (TurboQuantIndex.fromV7 P T l none).blocked = some (TurboQuantIndex.cacheOfV7 P l) := if_pos hrows
  have hcodes : (TurboQuantIndex.fromV7 P T l none).packedCodes = none := if_pos hrows
  have hdim : ((TurboQuantIndex.fromV7 P T l none).seeded P T).dim = some l.dim := by
    rw [(seeded_same _).dim]
    exact if_pos fun h0 => absurd (hst.dim_zero h0) (by omega)
  obtain ⟨hsb, hsp⟩ := seeded_codes (P := P) (T := T) (TurboQuantIndex.fromV7 P T l none)
  rw [hcache] at hsb
  rw [hcache, hcodes] at hsp
  have hbits : ((TurboQuantIndex.fromV7 P T l none).seeded P T).bitWidth = l.bitWidth := (seeded_same _).bitWidth
  have hloaded : TurboQuantIndex.cacheOfV7 P l =
      ⟨seqIntoNative P l.seqBlocked l.bitWidth (l.dim / codesPerByte l.bitWidth), (l.nVectors + 31) / 32, [],
        none, none, none⟩ := by
    unfold TurboQuantIndex.cacheOfV7
    dsimp only
    rw [blockedGeometry_eq, decide_eq_false hlay, h3, planesWanted_three]
  have hlanes : LanesHold P l.bitWidth (l.dim / codesPerByte l.bitWidth) l.nVectors code
      (seqIntoNative P l.seqBlocked l.bitWidth (l.dim / codesPerByte l.bitWidth)) :=
    lanesHold_seqIntoNative hseq
  rw [seqRow_cache hdim (hsp rfl) hsb, hbits, hloaded]
  exact (hlanes.laneRow_eq hv).trans (hseq.seqRowAt hv).symm

/-- Only their sequential code bytes can tell the images of two indexes with the same parts and rows apart. -/
theorem toBytes_eq_iff {y : TurboQuantIndex} (hT : T.Numbered) (hx : Rep P x rows) (hy : Rep P y rows)
    (hw : Writable T x) (hs : SameParts x y) (hbx : Booked T x) (hby : Booked T y) (hcx : x.syncCaptureAt = [])
    (hcy : y.syncCaptureAt = []) (h3 : x.bitWidth = 3) : x.toBytes P T = y.toBytes P T ↔
      ∀ v < x.nVectors, (x.seeded P T).seqRow P v = (y.seeded P T).seqRow P v := by
  have hsx := @seeded_same P T x
  have hsy := @seeded_same P T y
  have hss : SameParts (x.seeded P T) (y.seeded P T) := (hsx.symm.trans hs).trans hsy
  constructor
  · intro heq v hv
    obtain ⟨l, hl, hback⟩ := load_toBytes hT hx hw hbx hcx
    obtain ⟨l', hl', hback'⟩ := load_toBytes hT hy (hw.of_same hs) hby hcy
    rw [← heq, hl, Except.ok.injEq] at hl'
    subst hl'
    have hlay : ∀ z : TurboQuantIndex, z.bitWidth = 3 → (z.syncSource P 0 none 8).layout ≠ LAYOUT_PLANES := by
      intro z hz hlay
      change z.unitLayout P = LAYOUT_PLANES at hlay
      have hne : LAYOUT_SEQ ≠ LAYOUT_PLANES := by decide
      unfold TurboQuantIndex.unitLayout at hlay
      split at hlay
      · exact hne hlay
      · dsimp only at hlay
        rw [hz, planesWanted_three] at hlay
        exact hne hlay
    have hxv := hback.seq (hlay _ (hsx.bitWidth.trans h3)) v (by rw [hsx.nVectors]; exact hv)
    have hyv := hback'.seq (hlay _ (hsy.bitWidth.trans (hs.bitWidth.trans h3))) v
      (by rw [hsy.nVectors, hs.nVectors]; exact hv)
    rw [writtenRow_of_nil ((seeded_captures x).1.trans hcx)] at hxv
    rw [writtenRow_of_nil ((seeded_captures y).1.trans hcy)] at hyv
    exact hxv.symm.trans hyv
  · intro hseq
    have hseq : ∀ v < (x.seeded P T).nVectors, (x.seeded P T).seqRow P v = (y.seeded P T).seqRow P v := by
      intro v hv
      rw [hsx.nVectors] at hv
      exact hseq v hv
    refine syncSource_alike hx.seeded hy.seeded hss (seeded_seeded hbx) (seeded_seeded hby) ?_ 0 none 8
    intro v hv
    rw [writtenRow_of_nil ((seeded_captures x).1.trans hcx), writtenRow_of_nil ((seeded_captures y).1.trans hcy),
      hseq v hv]

/-- Two clean indexes with the same parts and rows, whose captures are their rows, write the same image. -/
theorem image_of_clean {y : TurboQuantIndex} (hx : Rep P x rows) (hy : Rep P y rows) (hs : SameParts x y)
    (hbx : Booked T x) (hby : Booked T y) (hcx : x.Clean P) (hcy : y.Clean P)
    (hrx : ∀ v < x.nVectors, (x.seeded P T).rowCodes P v = (x.seeded P T).seqRow P v)
    (hry : ∀ v < x.nVectors, (y.seeded P T).rowCodes P v = (y.seeded P T).seqRow P v) (kind : ℕ)
    (ids : Option (List UInt64)) (version : ℕ) :
    x.imageInVersion P T kind ids version = y.imageInVersion P T kind ids version := by
  have hsx := @seeded_same P T x
  have hsy := @seeded_same P T y
  have hss : SameParts (x.seeded P T) (y.seeded P T) := (hsx.symm.trans hs).trans hsy
  have hcx' : (x.seeded P T).Clean P := hcx.of_same hsx.dim hsx.bitWidth hsx.nVectors (seeded_codes x).1
  have hcy' : (y.seeded P T).Clean P := hcy.of_same hsy.dim hsy.bitWidth hsy.nVectors (seeded_codes y).1
  have hseq : ∀ v < (x.seeded P T).nVectors, (x.seeded P T).seqRow P v = (y.seeded P T).seqRow P v := by
    intro v hv
    have hxs : Rep P (x.seeded P T) rows := hx.seeded
    have hys : Rep P (y.seeded P T) rows := hy.seeded
    obtain ⟨d, hd⟩ := Option.isSome_iff_exists.mp (hxs.dimmed (by omega))
    rw [hxs.seqRow hcx' hd hv, hys.seqRow hcy' (hss.dim.trans hd) (by rw [hss.nVectors]; exact hv), hss.bitWidth]
  refine syncSource_alike hx.seeded hy.seeded hss (seeded_seeded hbx) (seeded_seeded hby) ?_ kind ids version
  intro v hv
  have hv' : v < x.nVectors := by
    rw [← hsx.nVectors]
    exact hv
  unfold TurboQuantIndex.writtenRow
  rw [hrx v hv', hry v hv', hseq v hv, ite_self, ite_self]

/-- The image written from the parts of a loaded image is the one the loaded index writes, unless the image
had a code bit outside its field. -/
theorem toBytes_loadedParts_iff (hT : T.Numbered) (hraw : raw.length < 2 ^ 64)
    (hl : loadImage T raw 0 0 = .ok l) :
    (loadedParts P (TurboQuantIndex.fromV7 P T l none)).toBytes P T =
      (TurboQuantIndex.fromV7 P T l none).toBytes P T ↔ l.Clean := by
  have hst := stored_of_loadImage hl
  have hy := rep_fromV7 (P := P) (T := T) hst none
  have hz := rep_loadedParts hy
  have hw := writable_fromParts (fromParts_loaded (P := P) hraw hl)
  have hnorm := normalize_fromV7 (P := P) (T := T) (l := l) none
  have hzy : SameParts (loadedParts P (TurboQuantIndex.fromV7 P T l none)) (TurboQuantIndex.fromV7 P T l none) :=
    ⟨rfl, rfl, rfl, rfl, (congrArg Prod.fst hnorm).symm, (congrArg Prod.snd hnorm).symm⟩
  have hbz : Booked T (loadedParts P (TurboQuantIndex.fromV7 P T l none)) := booked_of_none rfl rfl
  have hby := booked_fromV7 (P := P) (T := T) l none
  have hcz : (loadedParts P (TurboQuantIndex.fromV7 P T l none)).Clean P := TurboQuantIndex.clean_of_none rfl
  constructor
  · intro heq hlay v hv b hb
    by_cases h3 : l.bitWidth = 3
    · obtain ⟨d, hd⟩ := Option.isSome_iff_exists.mp (hz.dimmed (show 0 < l.nVectors by omega))
      have hsame := (toBytes_eq_iff hT hz hy hw hzy hbz hby rfl rfl h3).mp heq v hv
      have hclean : ((loadedParts P (TurboQuantIndex.fromV7 P T l none)).seeded P T).Clean P :=
        hcz.of_same (seeded_same _).dim (seeded_same _).bitWidth (seeded_same _).nVectors (seeded_codes _).1
      have hbits : ((loadedParts P (TurboQuantIndex.fromV7 P T l none)).seeded P T).bitWidth = l.bitWidth :=
        (seeded_same _).bitWidth
      rw [seqRow_fromV7_three hst h3 hv, hz.seeded.seqRow hclean ((seeded_same _).dim.trans hd)
        (by rw [(seeded_same _).nVectors]; exact hv), hbits] at hsame
      rw [← hsame] at hb
      obtain ⟨g, hg, rfl⟩ := List.mem_map.mp hb
      have hg := List.mem_range.mp hg
      have hstray := clearStray_entry_extractRow hst.bits (l.rows.getD v []) hg
      rw [extractRow, entry_tabulate _ hg] at hstray
      exact hstray
    · exact clearStray_eq_self h3 b
  · intro hc
    exact image_of_clean hz hy hzy hbz hby hcz (TurboQuantIndex.clean_fromV7 hst hc none)
      (fun v _ => rowCodes_of_nil (seeded_captures _).1 v) (fun v _ => rowCodes_of_nil (seeded_captures _).1 v)
      0 none 8

end ReadBack

theorem levelTables_numbered : levelTables.Numbered := by
  refine ⟨levelTables_leveled, fun bitWidth dim v hv => ?_⟩
  have hzero : v = 0 := by
    unfold Tables.canon at hv
    split at hv
    · cases hv
    · rcases List.mem_append.mp hv with h | h
      · exact List.eq_of_mem_replicate h
      · exact List.eq_of_mem_replicate h
  rw [hzero]
  decide

/-- `from_parts` and the loader draw the same boundary: accepted parts are written as an image that loads to
them, and what an accepted image loads as is accepted as parts, which write the image the loaded index writes
exactly when no code byte of the image has a bit outside its fields. -/
theorem parts_agree {P : Platform} {T : Tables} (hT : T.Numbered) :
    (∀ dim bitWidth nVectors packedCodes scales tqplusShift tqplusScale x,
      TurboQuantIndex.fromParts T.bounds dim bitWidth nVectors packedCodes scales tqplusShift tqplusScale =
        .ok x →
      ∃ y, TurboQuantIndex.fromBytes P T (x.toBytes P T) = .ok y ∧
        y.dim = dim ∧ y.bitWidth = bitWidth ∧ y.nVectors = nVectors ∧ y.packed P = packedCodes ∧
        y.scales = scales ∧
        (y.tqplusShift, y.tqplusScale) = TurboQuantIndex.normalizeCalibration tqplusShift tqplusScale) ∧
    ∀ raw y, raw.length < 2 ^ 64 → TurboQuantIndex.fromBytes P T raw = .ok y →
      ∃ z, TurboQuantIndex.fromParts T.bounds y.dim y.bitWidth y.nVectors (y.packed P) y.scales y.tqplusShift
          y.tqplusScale = .ok z ∧
        (z.toBytes P T = y.toBytes P T ↔ ImageClean T raw) := by
  constructor
  · intro dim bitWidth nVectors packedCodes scales tqplusShift tqplusScale x h
    have hrep := Rep.fromParts (P := P) h
    have hw := writable_fromParts h
    obtain ⟨hfit, -, -, rfl⟩ := fromParts_eq_ok.mp h
    obtain ⟨l, hl, hback⟩ := load_toBytes hT hrep hw (booked_of_none rfl rfl) rfl
    have hs := @seeded_same P T (partsIndex dim bitWidth nVectors packedCodes scales tqplusShift tqplusScale)
    have hnorm := normalizeCalibration_idem tqplusShift tqplusScale
    refine ⟨TurboQuantIndex.fromV7 P T l none, ?_, ?_, ?_, ?_, ?_, ?_, ?_⟩
    · rw [TurboQuantIndex.fromBytes, hl]
      rfl
    · exact fromV7_dim none (hback.dim.trans (congrArg (Option.getD · 0) hs.dim))
        fun d hd => (hfit.committed d hd).1.1
    · exact hback.bitWidth.trans hs.bitWidth
    · exact hback.nVectors.trans hs.nVectors
    · rw [(rep_fromV7 (stored_of_loadImage hl) none).packed_eq, hback.rows, ← hrep.packed_eq]
      rfl
    · exact hback.scales.trans hs.scales
    · show TurboQuantIndex.normalizeCalibration l.tqplusShift l.tqplusScale = _
      rw [hback.tqplusShift, hback.tqplusScale, hs.tqplusShift, hs.tqplusScale]
      exact hnorm
  · intro raw y hraw h
    rw [TurboQuantIndex.fromBytes, bind_eq_ok] at h
    obtain ⟨l, hl, h⟩ := h
    obtain rfl := Except.ok.inj h
    refine ⟨_, fromParts_loaded hraw hl, ?_⟩
    rw [← clean_load_iff hl]
    exact toBytes_loadedParts_iff hT hraw hl

/-- Two rows as parts, and a written image read back as parts. -/
theorem parts_agree_two :
    (∃ y, TurboQuantIndex.fromBytes plainHost levelTables (twoRows.toBytes plainHost levelTables) = .ok y ∧
      y.nVectors = 2 ∧ y.packed plainHost = [0, 0, 0, 0] ∧ y.scales = [1, 1]) ∧
    ∃ y z, TurboQuantIndex.fromBytes plainHost levelTables (writeImage (blankSource 32) 0 7) = .ok y ∧
      TurboQuantIndex.fromParts levelTables.bounds y.dim y.bitWidth y.nVectors (y.packed plainHost) y.scales
        y.tqplusShift y.tqplusScale = .ok z ∧
      z.toBytes plainHost levelTables = y.toBytes plainHost levelTables := by
  obtain ⟨hparts, himages⟩ := @parts_agree plainHost levelTables levelTables_numbered
  constructor
  · obtain ⟨y, hy, -, -, hn, hpacked, hscales, -⟩ :=
      hparts (some 8) 2 2 [0, 0, 0, 0] [1, 1] [] [] twoRows rfl
    exact ⟨y, hy, hn, hpacked, hscales⟩
  · have hw : SourceWf levelTables (blankSource 32) := blankSource_levelWf (by decide)
    have hlen : (writeImage (blankSource 32) 0 7).length < 2 ^ 64 := by
      rw [(fullImage_writeImage hw 0 7).length_eq]
      decide
    obtain ⟨l, hl, hL⟩ := @loadImage_writeImage levelTables (blankSource 32) 0 7 hw (by decide) rfl (by decide)
      (by decide) 0
    have hl : loadImage levelTables (writeImage (blankSource 32) 0 7) 0 0 = .ok l := hl
    have hy : TurboQuantIndex.fromBytes plainHost levelTables (writeImage (blankSource 32) 0 7) =
        .ok (TurboQuantIndex.fromV7 plainHost levelTables l none) := by
      rw [TurboQuantIndex.fromBytes, hl]
      rfl
    obtain ⟨z, hz, hsame⟩ := himages _ _ hlen hy
    have hclean : l.Clean := by
      intro _ v _ b _
      have hb : l.bitWidth = 2 := hL.bitWidth
      apply clearStray_eq_self
      rw [hb]
      decide
    exact ⟨_, z, hy, hz, hsame.mpr ((clean_load_iff hl).mp hclean)⟩

/-- The image of a block of 3-bit codes with every unused bit set is accepted, and so are the parts it loads
as; the two indexes write different images. -/
theorem parts_stray : TurboQuantIndex.fromBytes x86Host levelTables (writeImage straySource 0 0) = .ok strayIndex ∧
    ¬∃ z, TurboQuantIndex.fromParts levelTables.bounds strayIndex.dim strayIndex.bitWidth strayIndex.nVectors
        (strayIndex.packed x86Host) strayIndex.scales strayIndex.tqplusShift strayIndex.tqplusScale = .ok z ∧
      z.toBytes x86Host levelTables = strayIndex.toBytes x86Host levelTables := by
  have hlen : (writeImage straySource 0 0).length < 2 ^ 64 := by
    rw [(fullImage_writeImage straySource_wf 0 0).length_eq]
    decide
  constructor
  · rw [TurboQuantIndex.fromBytes, load_stray]
    rfl
  · rintro ⟨z, hz, heq⟩
    have hparts := fromParts_loaded (P := x86Host) hlen load_stray
    obtain rfl := Except.ok.inj (hz.symm.trans hparts)
    have hclean := (toBytes_loadedParts_iff levelTables_numbered hlen load_stray).mp heq
    have hbit := hclean (by decide) 0 (by decide) 0x88 (by decide)
    exact absurd hbit (by decide)

end Turbovec
