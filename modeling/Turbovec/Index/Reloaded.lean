import Turbovec.Index.Content
import Turbovec.IoV7.Total

/-!
# Written and reloaded

Every index writes an image that loads to it: the dimension, the rows, the scales, the calibration and the
ids come back, and the loaded index writes the same bytes again.
-/

namespace Turbovec

open Pack IoV7 Slice Grid

/-! ## What an index keeps -/

/-- The loader takes the scales and the calibration of the index. -/
def Loadable (T : Tables) (x : TurboQuantIndex) : Prop :=
  (∀ v ∈ x.scales, validScale v = true) ∧
    validateCalibration T.bounds x.tqplusShift x.tqplusScale = .ok ()

/-- The dimension is within the maximum, and the calibration a normalized pair of that dimension. -/
structure Shaped (x : TurboQuantIndex) : Prop where
  dim_le : ∀ d, x.dim = some d → d ≤ MAX_DIM
  nCalib : x.tqplusShift.length = 0 ∨ x.tqplusShift.length = x.dim.getD 0
  paired : x.tqplusScale.length = x.tqplusShift.length
  normal : TurboQuantIndex.normalizeCalibration x.tqplusShift x.tqplusScale = (x.tqplusShift, x.tqplusScale)

section Parts

variable {P : Platform} {T : Tables} {K : Kernels} {S : ScanKernels} {x x' : TurboQuantIndex}
  {rows : List (List UInt8)} {dim : ℕ}

theorem Shaped.writable (h : Shaped x) (hl : Loadable T x) (hs : x.scales.length = x.nVectors)
    (hn : x.nVectors < 2 ^ 64) : Writable T x where
  dim_le := h.dim_le
  n_lt := hn
  scales v hv := by
    have hlt : v < x.scales.length := by omega
    apply hl.1
    rw [entry_of_getElem? (List.getElem?_eq_getElem hlt)]
    exact List.getElem_mem hlt
  nCalib := h.nCalib
  calibration := ⟨rfl, h.paired, hl.2⟩

/-- A dimension an add takes is within the maximum. -/
theorem le_of_checkAddDim (h : ∀ d, x.dim = some d → d ≤ MAX_DIM) (hdim : x.checkAddDim dim = .ok ()) :
    dim ≤ MAX_DIM := by
  cases hd : x.dim with
  | some d =>
    rw [← TurboQuantIndex.eq_of_checkAddDim hdim hd]
    exact h d hd
  | none =>
    unfold TurboQuantIndex.checkAddDim at hdim
    rw [hd] at hdim
    simp only [ite_error_eq_ok] at hdim
    omega

/-- The dimension after an add is the one before, or the one the add took. -/
theorem add2d_dim {vectors : List F32} {fault : Option Fault} :
    (x.add2d P T K vectors dim fault).1.dim = x.dim ∨
      (x.dim = none ∧ x.checkAddDim dim = .ok () ∧ (x.add2d P T K vectors dim fault).1.dim = some dim) := by
  have hadded := TurboQuantIndex.added P T K x vectors dim fault
  generalize x.add2d P T K vectors dim fault = r at hadded ⊢
  cases hadded with
  | refused e => exact Or.inl rfl
  | ragged h => exact Or.inl rfl
  | nothing h => exact Or.inl rfl
  | done hdim h =>
    have hx' := (TurboQuantIndex.add_ok h).dim dim rfl
    cases hd : x.dim with
    | none => exact Or.inr ⟨rfl, hdim, hx'⟩
    | some d =>
      rw [TurboQuantIndex.eq_of_checkAddDim hdim hd]
      exact Or.inl hx'
  | panicked hdim h =>
    have hx' := (TurboQuantIndex.add_error h).dim dim rfl
    left
    dsimp only
    unfold TurboQuantIndex.unwound
    cases hd : x.dim with
    | none => rfl
    | some d =>
      rw [TurboQuantIndex.eq_of_checkAddDim hdim hd]
      exact hx'

/-- A calibrate that returns has fitted a calibration that says something. -/
theorem calibrate2d_ok {sample : List F32} {fault : Option Fault}
    (h : (x.calibrate2d P T K sample dim fault).2 = .ok) :
    TurboQuantIndex.normalizeCalibration (TurboQuantIndex.fitted T K x sample dim).1
      (TurboQuantIndex.fitted T K x sample dim).2 = TurboQuantIndex.fitted T K x sample dim := by
  unfold TurboQuantIndex.calibrate2d at h
  split at h
  · cases h
  · split at h
    · cases h
    · dsimp only at h
      split at h
      · cases h
      · split at h
        · cases h
        · split at h
          · cases h
          · split at h
            · cases h
            · rename_i hdegenerate
              exact if_neg hdegenerate

theorem Shaped.of_same (h : Shaped x) (hdim : x'.dim = x.dim) (hshift : x'.tqplusShift = x.tqplusShift)
    (hscale : x'.tqplusScale = x.tqplusScale) : Shaped x' where
  dim_le d hd := h.dim_le d (hdim ▸ hd)
  nCalib := by rw [hshift, hdim]; exact h.nCalib
  paired := by rw [hshift, hscale]; exact h.paired
  normal := by rw [hshift, hscale]; exact h.normal

theorem Shaped.calibrate2d (hfit : K.Paired) (h : Shaped x) (sample : List F32) (dim : ℕ)
    (fault : Option Fault) : Shaped (x.calibrate2d P T K sample dim fault).1 := by
  have hcal := TurboQuantIndex.calibrated P T K x sample dim fault
  have hok := @calibrate2d_ok P T K x dim sample fault
  generalize x.calibrate2d P T K sample dim fault = r at hcal hok ⊢
  cases hcal with
  | refused e => exact h
  | abandoned hdim o ho =>
    dsimp only
    unfold TurboQuantIndex.uncommitted
    split
    · exact h.of_same rfl rfl rfl
    · exact h.of_same rfl rfl rfl
  | panicked hdim hn => exact h.of_same rfl rfl rfl
  | done hdim =>
    have hshift := hfit.shift sample (sample.length / dim) dim ((x.warm T dim).rotation.getD dim)
      ((x.warm T dim).centroids.getD [])
    have hscale := hfit.scale sample (sample.length / dim) dim ((x.warm T dim).rotation.getD dim)
      ((x.warm T dim).centroids.getD [])
    constructor
    · intro d hd
      rw [← Option.some.inj hd]
      exact le_of_checkAddDim h.dim_le (Rep.checkAddDim_of_calibrate hdim)
    · exact Or.inr hshift
    · exact hscale.trans hshift.symm
    · exact hok rfl

theorem Shaped.add2d (h : Shaped x) (vectors : List F32) (dim : ℕ) (fault : Option Fault) :
    Shaped (x.add2d P T K vectors dim fault).1 := by
  obtain ⟨hshift, hscale⟩ := add2d_pair (P := P) (T := T) (K := K) x vectors dim fault
  rcases @add2d_dim P T K x dim vectors fault with hdim | ⟨hnone, hcheck, hdim⟩
  · exact h.of_same hdim hshift hscale
  · have hlen := h.nCalib
    rw [hnone, Option.getD_none, or_self] at hlen
    constructor
    · intro d hd
      rw [hdim, Option.some.injEq] at hd
      rw [← hd]
      exact le_of_checkAddDim h.dim_le hcheck
    · rw [hshift]
      exact Or.inl hlen
    · rw [hshift, hscale]
      exact h.paired
    · rw [hshift, hscale]
      exact h.normal

/-- A call other than an add or a calibrate keeps the dimension. -/
theorem after_dim (x : TurboQuantIndex) {c : TurboQuantIndex.Call} (hadd : ∀ vectors dim fault, c ≠ .add vectors dim fault)
    (hcal : ∀ sample dim fault, c ≠ .calibrate sample dim fault) : (x.after P T K S c).dim = x.dim := by
  have hprep : ∀ dim, (x.prepared P T dim).dim = x.dim := by
    intro dim
    unfold TurboQuantIndex.prepared
    dsimp only
    split
    · rfl
    · rfl
  cases c with
  | add vectors dim fault => exact absurd rfl (hadd vectors dim fault)
  | calibrate sample dim fault => exact absurd rfl (hcal sample dim fault)
  | swapRemove idx =>
    dsimp only [TurboQuantIndex.after]
    cases hr : x.swapRemove P idx with
    | none => rfl
    | some r =>
      unfold TurboQuantIndex.swapRemove at hr
      by_cases hidx : idx < x.nVectors
      · cases hd : x.dim with
        | none =>
          rw [hd, guard, if_pos hidx] at hr
          cases hr
        | some d =>
          rw [hd, guard, if_pos hidx] at hr
          obtain rfl := Option.some.inj hr
          obtain ⟨fresh, hmark⟩ := markRemoval_eq x idx (x.nVectors - 1)
          dsimp only [Option.map_some, Option.getD_some]
          rw [hmark]
          exact hd
      · rw [guard, if_neg hidx] at hr
        cases hr
  | search queries k mask threshold =>
    dsimp only [TurboQuantIndex.after]
    unfold TurboQuantIndex.trySearchWithOptions
    dsimp only
    split
    · rfl
    · split
      · rfl
      · split
        · rfl
        · split
          · rfl
          · split
            · split
              · split
                · rfl
                · rfl
              · rfl
            · split
              · exact hprep _
              · exact hprep _
              · exact hprep _
  | packedCodes => rfl
  | prepare =>
    dsimp only [TurboQuantIndex.after]
    unfold TurboQuantIndex.prepare
    split
    · rfl
    · split
      · rfl
      · exact hprep _
  | sync path disk =>
    dsimp only [TurboQuantIndex.after]
    unfold TurboQuantIndex.sync
    split
    · rfl
    · dsimp only
      split
      · split
        · rfl
        · rfl
      · split
        · rfl
        · rfl
      · split
        · rfl
        · rfl

/-- A call keeps the shape. -/
theorem Shaped.after (hfit : K.Paired) (h : Shaped x) (c : TurboQuantIndex.Call) :
    Shaped (x.after P T K S c) := by
  have hsame : (∀ vectors dim fault, c ≠ .add vectors dim fault) →
      (∀ sample dim fault, c ≠ .calibrate sample dim fault) → Shaped (x.after P T K S c) := by
    intro hadd hcal
    rcases @after_pair P T K S x c with ⟨hshift, hscale⟩ | ⟨sample, dim, fault, hc, -⟩
    · exact h.of_same (after_dim x hadd hcal) hshift hscale
    · exact absurd hc (hcal sample dim fault)
  cases c with
  | add vectors dim fault => exact h.add2d vectors dim fault
  | calibrate sample dim fault => exact h.calibrate2d hfit sample dim fault
  | swapRemove idx => exact hsame (by simp) (by simp)
  | search queries k mask threshold => exact hsame (by simp) (by simp)
  | packedCodes => exact hsame (by simp) (by simp)
  | prepare => exact hsame (by simp) (by simp)
  | sync path disk => exact hsame (by simp) (by simp)

end Parts

/-! ## Runs -/

/-- The rows of an index, its captures packing to them, its codebook that of its dimension, its parts in
shape. -/
structure Kept (P : Platform) (T : Tables) (x : TurboQuantIndex) (rows : List (List UInt8)) : Prop where
  rep : Rep P x rows
  captured : Captured Packs x rows
  keyed : Keyed T x
  shaped : Shaped x

section Runs

variable {P : Platform} {T : Tables} {K : Kernels} {S : ScanKernels} {x y : TurboQuantIndex}
  {rows : List (List UInt8)} {l : V7Load}

/-- A call keeps the index kept. -/
theorem Kept.after (hK : K.Sized) (hfit : K.Paired) (h : Kept P T x rows) {c : TurboQuantIndex.Call}
    (hg : c.Guarded) : ∃ rows', Kept P T (x.after P T K S c) rows' := by
  obtain ⟨rows', hrep, hcap⟩ := Captured.after (T := T) (S := S) hK h.rep (readable_packs h.rep) h.captured hg
  exact ⟨rows', hrep, hcap, h.keyed.after h.rep c, h.shaped.after hfit c⟩

/-- Every run keeps the index kept. -/
theorem Kept.run (hK : K.Sized) (hfit : K.Paired) (h : Kept P T x rows) (calls : List TurboQuantIndex.Call)
    (hg : ∀ c ∈ calls, c.Guarded) : ∃ rows', Kept P T (x.run P T K S calls) rows' := by
  induction calls generalizing x rows with
  | nil => exact ⟨rows, h⟩
  | cons c calls ih =>
    obtain ⟨rows', h'⟩ := h.after (S := S) hK hfit (hg c List.mem_cons_self)
    exact ih h' fun c' hc' => hg c' (List.mem_cons_of_mem c hc')

/-- What an accepted image loads as is taken again. -/
theorem loadable_fromV7 {raw : List UInt8} {g kind : ℕ} (hl : loadImage T raw g kind = .ok l)
    (path : Option String) :
    Shaped (TurboQuantIndex.fromV7 P T l path) ∧ Loadable T (TurboQuantIndex.fromV7 P T l path) := by
  obtain ⟨img, himg, hs, hL⟩ := loadImage_ok hl
  obtain ⟨hv, hkind, -⟩ := parseImage_ok himg
  have hwf := Checked.wellFormed_of_loaded hv hkind hs hL
  have hcal : CalibrationOk T l.tqplusShift.length l.tqplusShift l.tqplusScale := ⟨rfl, hwf.calib_len.2, hwf.calib⟩
  have hlen := length_normalizeCalibration l.tqplusShift l.tqplusScale
  refine ⟨⟨?_, ?_, hcal.normalize.scale_len, normalizeCalibration_idem _ _⟩, hwf.scales, hcal.normalize.valid⟩
  · intro d hd
    change (if l.dim ≠ 0 then some l.dim else none) = some d at hd
    split at hd
    · rw [← Option.some.inj hd, hL.dim]
      exact hv.geo.dim_le
    · cases hd
  · show (TurboQuantIndex.normalizeCalibration l.tqplusShift l.tqplusScale).1.length = 0 ∨
      (TurboQuantIndex.normalizeCalibration l.tqplusShift l.tqplusScale).1.length =
        (if l.dim ≠ 0 then some l.dim else none).getD 0
    have := hwf.calib_len.1
    split
    · rw [Option.getD_some]
      omega
    · rw [Option.getD_none]
      omega

/-- An index is kept as it comes to be. -/
theorem Begun.kept (h : Begun P T x) : ∃ rows, Kept P T x rows := by
  cases h with
  | opened h =>
    obtain ⟨rows, hrep⟩ := TurboQuantIndex.exists_rep_opened h
    obtain ⟨hat, hbuf⟩ := opened_captures h
    suffices hk : Keyed T x ∧ Shaped x from ⟨rows, hrep, captured_of_nil hat hbuf, hk.1, hk.2⟩
    cases h with
    | new h =>
      unfold TurboQuantIndex.new at h
      split at h
      · cases h
      · split at h
        · cases h
        · split at h
          · cases h
          · cases h
            rename_i hdim
            refine ⟨keyed_of_none rfl rfl rfl, fun d hd => ?_, Or.inl rfl, rfl, rfl⟩
            rw [← Option.some.inj hd]
            omega
    | newLazy h =>
      unfold TurboQuantIndex.newLazy at h
      split at h
      · cases h
      · cases h
        exact ⟨keyed_of_none rfl rfl rfl, fun d hd => (by cases hd), Or.inl rfl, rfl, rfl⟩
    | fromParts h =>
      have hw := writable_fromParts h
      obtain ⟨-, -, -, rfl⟩ := fromParts_eq_ok.mp h
      exact ⟨keyed_of_none rfl rfl rfl, hw.dim_le, hw.nCalib, hw.calibration.scale_len, normalizeCalibration_idem _ _⟩
    | load h =>
      rw [TurboQuantIndex.load] at h
      split at h
      · rw [bind_eq_ok] at h
        obtain ⟨l, hl, h⟩ := h
        cases h
        exact ⟨keyed_fromV7 (stored_of_loadImage hl).dim_zero _, (loadable_fromV7 hl _).1⟩
      · cases h
    | fromBytes h =>
      rw [TurboQuantIndex.fromBytes, bind_eq_ok] at h
      obtain ⟨l, hl, h⟩ := h
      cases h
      exact ⟨keyed_fromV7 (stored_of_loadImage hl).dim_zero _, (loadable_fromV7 hl _).1⟩
  | loaded h path =>
    have hst := stored_of_loadImage h
    exact ⟨_, rep_fromV7 hst path, captured_of_nil rfl rfl, keyed_fromV7 hst.dim_zero path, (loadable_fromV7 h path).1⟩

/-! ## Read back -/

/-- A row is given to the writer as it is, or as the bytes of a capture of its slot. -/
theorem rowCodes_cases (v : ℕ) : x.rowCodes P v = x.seqRow P v ∨ ∃ c ∈ x.syncCaptureAt, c.1 = v ∧
    x.rowCodes P v = bytesAt x.syncCaptureBuf c.2 (x.dim.getD 0 / codesPerByte x.bitWidth) := by
  unfold TurboQuantIndex.rowCodes
  dsimp only
  split
  · rename_i off hoff
    unfold TurboQuantIndex.captureLookup at hoff
    split at hoff
    · cases hoff
    · obtain ⟨c, hc, rfl⟩ := Option.map_eq_some_iff.mp hoff
      have hslot := List.find?_some hc
      rw [decide_eq_true_eq] at hslot
      refine Or.inr ⟨c, List.mem_reverse.mp (List.mem_of_find?_eq_some hc), hslot, ?_⟩
      rw [blockedGeometry_eq]
  · exact Or.inl rfl

/-- The writer is given code bytes that pack to the rows. -/
theorem Kept.rowsGiven (h : Kept P T x rows) : RowsGiven P (x.seeded P T) rows := by
  have hs := @seeded_same P T x
  have hrep : Rep P (x.seeded P T) rows := h.rep.seeded
  have hcap : Captured Packs (x.seeded P T) rows :=
    h.captured.keep (seeded_captures x).1 (seeded_captures x).2 (fun d hd => hs.dim.trans hd) hs.bitWidth
      hs.nVectors.ge fun _ _ => rfl
  intro d hd v hv
  rcases @rowCodes_cases P (x.seeded P T) v with hrow | ⟨c, hc, rfl, hrow⟩
  · rw [hrow]
    exact hrep.packRow_seqRow hd hv
  · rw [hrow, hd, Option.getD_some]
    exact (hcap.hold hd).bytes c hc

/-- Where the fields are full, a row is written as the codes it packs. -/
theorem Rep.writtenRow_of_ne_three (h : Rep P x rows) (hg : RowsGiven P x rows) (hb : x.bitWidth ≠ 3) {d v : ℕ}
    (hd : x.dim = some d) (hv : v < x.nVectors) :
    x.writtenRow P v = extractRow x.bitWidth d (rows.getD v []) := by
  obtain ⟨hpack, hlen⟩ := h.packRow_writtenRow hg hd hv
  have hclear : (x.writtenRow P v).map (clearStray x.bitWidth) = x.writtenRow P v := by
    rw [List.map_congr_left fun b _ => clearStray_eq_self hb b, List.map_id']
  rw [← hpack, extractRow_packRow h.bits (h.dims d hd).1 hlen, hclear]

/-- A kept index writes an image that loads to its content, and the loaded index writes it again. -/
theorem Kept.reload (hT : T.Numbered) (h : Kept P T x rows) (hload : Loadable T x) (hn : x.nVectors < 2 ^ 64) {kind : ℕ}
    {ids : Option (List UInt64)} (hids : ids.isSome = true ↔ kind = 1) (hk : kind ≤ 1) :
    ∃ l, loadImage T (x.imageInVersion P T kind ids 8) 0 kind = .ok l ∧
      l.ids = (if kind = 1 then (List.range x.nVectors).map fun v => entry (ids.getD []) v else []) ∧
      SameContent P x (TurboQuantIndex.fromV7 P T l none) ∧
      (TurboQuantIndex.fromV7 P T l none).nVectors = x.nVectors ∧
      (TurboQuantIndex.fromV7 P T l none).imageInVersion P T kind ids 8 = x.imageInVersion P T kind ids 8 := by
  obtain ⟨l, hl, hback, hlids⟩ := load_image hT h.rep (h.shaped.writable hload h.rep.scales hn) h.keyed.booked
    h.rowsGiven hids hk
  have hs := @seeded_same P T x
  have hst := stored_of_loadImage hl
  have hz : Rep P (TurboQuantIndex.fromV7 P T l none) rows := by
    rw [← hback.rows]
    exact rep_fromV7 hst none
  have hpair : ((TurboQuantIndex.fromV7 P T l none).tqplusShift, (TurboQuantIndex.fromV7 P T l none).tqplusScale) =
      (x.tqplusShift, x.tqplusScale) := by
    rw [← h.shaped.normal, ← hs.tqplusShift, ← hs.tqplusScale, ← hback.tqplusShift, ← hback.tqplusScale]
    rfl
  have hsame : SameParts x (TurboQuantIndex.fromV7 P T l none) := by
    refine ⟨?_, hback.bitWidth.trans hs.bitWidth, hback.nVectors.trans hs.nVectors, hback.scales.trans hs.scales,
      congrArg Prod.fst hpair, congrArg Prod.snd hpair⟩
    exact fromV7_dim none (hback.dim.trans (congrArg (Option.getD · 0) hs.dim)) fun d hd => by
      have := (h.rep.dims d hd).2
      omega
  have hpacked : (TurboQuantIndex.fromV7 P T l none).packed P = x.packed P := by
    rw [hz.packed_eq, h.rep.packed_eq]
  refine ⟨l, hl, hlids, ⟨hsame.dim, hsame.bitWidth, hpacked, hsame.scales, hsame.tqplusShift, hsame.tqplusScale⟩,
    hsame.nVectors, ?_⟩
  have hsz := @seeded_same P T (TurboQuantIndex.fromV7 P T l none)
  have hss := (hs.symm.trans hsame).trans hsz
  have hgz : RowsGiven P ((TurboQuantIndex.fromV7 P T l none).seeded P T) rows :=
    hz.seeded.rowsGiven fun v _ => rowCodes_of_nil (seeded_captures _).1 v
  have hxs : Rep P (x.seeded P T) rows := h.rep.seeded
  have hzs : Rep P ((TurboQuantIndex.fromV7 P T l none).seeded P T) rows := hz.seeded
  refine (syncSource_alike hxs hzs hss (seeded_seeded h.keyed.booked) (seeded_seeded (booked_fromV7 l none)) ?_
    kind ids 8).symm
  intro v hv
  by_cases h3 : l.bitWidth = 3
  · -- a 3-bit image is sequential: its lanes are loaded and written as they are
    have hlay : ((x.seeded P T).syncSource P kind ids 8).layout ≠ LAYOUT_PLANES := by
      rw [← hback.layout]
      intro hlay
      have := (hst.planes hlay).1
      simp only [PlanesBits] at this
      omega
    rw [← hback.seq hlay v hv, writtenRow_of_nil (seeded_captures _).1,
      seqRow_fromV7_three hst h3 (by rw [hback.nVectors]; exact hv)]
  · obtain ⟨d, hd⟩ := Option.isSome_iff_exists.mp (hxs.dimmed (by omega))
    have hb : (x.seeded P T).bitWidth ≠ 3 := by
      rw [← hback.bitWidth]
      exact h3
    rw [hxs.writtenRow_of_ne_three h.rowsGiven hb hd hv, hzs.writtenRow_of_ne_three hgz (by rw [hss.bitWidth]; exact hb)
      (hss.dim.trans hd) (by rw [hss.nVectors]; exact hv), hss.bitWidth]

end Runs

/-! ## Ids -/

namespace IdMapIndex

section

variable {P : Platform} {T : Tables} {K : Kernels} {S : ScanKernels} {x : IdMapIndex} {y : TurboQuantIndex}

/-- A call keeps the ids coherent. -/
theorem Coherent.after (h : x.Coherent) (c : Call) : (x.after P T K S c).Coherent := by
  cases c with
  | add vectors dim ids fault => exact (addWithIds2d_cases h vectors dim ids fault).1
  | remove id =>
    obtain ⟨x', hr, hx', -⟩ := remove_spec (P := P) h id
    dsimp only [IdMapIndex.after]
    rw [hr]
    exact hx'
  | contains id => exact h.ids
  | search queries k allowlist => exact (search_spec h queries k allowlist).1
  | calibrate sample dim fault => exact h.withInner (TurboQuantIndex.calibrate2d_counted _ sample dim fault)
  | prepare =>
    have hc := TurboQuantIndex.prepare_counted (P := P) (T := T) x.inner
    rw [← Coherent.inner_ids] at hc
    have hw := h.ids.withInner hc
    rwa [Coherent.inner_ids] at hw
  | sync path disk => exact h.withInner (TurboQuantIndex.sync_counted _ path disk)

theorem run_dimmed (h : y.Dimmed) (calls : List TurboQuantIndex.Call) : (y.run P T K S calls).Dimmed := by
  induction calls generalizing y with
  | nil => exact h
  | cons c calls ih => exact ih (TurboQuantIndex.after_dimmed h c)

/-- The ids of every run are coherent. -/
theorem Ran.coherent (h : Ran P T K S y x) : x.Coherent := by
  induction h with
  | new h hy => exact (new_coherent h).1
  | newLazy h hy => exact (newLazy_coherent h).1
  | load h hy => exact load_coherent h
  | fromBytes h hy => exact fromBytes_coherent h
  | fromParts hy calls hg h =>
    obtain ⟨rows, hkept⟩ := hy.kept
    exact fromIndexAndIds_coherent (run_dimmed hkept.rep.dimmed calls) h
  | call h hg ih => exact ih.after _

theorem repeats_of_nodup {sorted : List UInt64} (h : sorted.Nodup) : repeats sorted = false := by
  induction sorted with
  | nil => rfl
  | cons a l ih =>
    cases l with
    | nil => rfl
    | cons b l =>
      rw [repeats, ih h.of_cons, Bool.or_false, beq_eq_false_iff_ne]
      intro hab
      exact (List.nodup_cons.mp h).1 (hab ▸ List.mem_cons_self)

/-- Distinct ids pass the check of a load. -/
theorem fromV7Load_eq_ok {l : V7Load} (h : l.ids.Nodup) (path : Option String) : fromV7Load P T l path =
    .ok ⟨TurboQuantIndex.fromV7 P T { l with ids := [] } path, l.ids, none, sortIds l.ids, ∅⟩ := by
  have hsort : (sortIds l.ids).Nodup := (List.mergeSort_perm _ _).nodup_iff.mpr h
  unfold fromV7Load
  dsimp only
  rw [if_neg (by rw [repeats_of_nodup hsort]; exact Bool.false_ne_true)]

end

end IdMapIndex

section Reload

variable {P : Platform} {T : Tables} {K : Kernels} {S : ScanKernels} {x y : TurboQuantIndex}
  {rows : List (List UInt8)}

theorem SameContent.loadable {z : TurboQuantIndex} (h : SameContent P x z) (hz : Loadable T z) : Loadable T x := by
  rw [Loadable, h.scales, h.tqplusShift, h.tqplusScale] at hz
  exact hz

/-- An index is read back from its image exactly when the loader takes its scales and its calibration. -/
theorem Kept.reload_iff (hT : T.Numbered) (h : Kept P T x rows) (hn : x.nVectors < 2 ^ 64) :
    (∃ z, TurboQuantIndex.fromBytes P T (x.toBytes P T) = .ok z ∧ SameContent P x z ∧
      z.nVectors = x.nVectors ∧ z.toBytes P T = x.toBytes P T) ↔ Loadable T x := by
  constructor
  · rintro ⟨z, hz, hsame, -⟩
    rw [TurboQuantIndex.fromBytes, bind_eq_ok] at hz
    obtain ⟨l, hl, hz⟩ := hz
    obtain rfl := Except.ok.inj hz
    exact hsame.loadable (loadable_fromV7 hl none).2
  · intro hload
    obtain ⟨l, hl, -, hsame, hcount, hwrite⟩ := @Kept.reload P T _ _ hT h hload hn 0 none (by simp) (Nat.zero_le 1)
    refine ⟨TurboQuantIndex.fromV7 P T l none, ?_, hsame, hcount, hwrite⟩
    rw [TurboQuantIndex.fromBytes, TurboQuantIndex.toBytes, hl]
    rfl

/-- The same of an id map, whose ids come back too. -/
theorem IdMapIndex.reload_iff {x : IdMapIndex} (hT : T.Numbered) (h : Kept P T x.inner rows) (hcoh : x.Coherent)
    (hn : x.inner.nVectors < 2 ^ 64) :
    (∃ z, IdMapIndex.fromBytes P T (x.toBytes P T) = .ok z ∧ SameContent P x.inner z.inner ∧
      z.inner.nVectors = x.inner.nVectors ∧ z.slotToId = x.slotToId ∧ z.toBytes P T = x.toBytes P T) ↔
      Loadable T x.inner := by
  constructor
  · rintro ⟨z, hz, hsame, -⟩
    rw [IdMapIndex.fromBytes, bind_eq_ok] at hz
    obtain ⟨l, hl, hz⟩ := hz
    unfold IdMapIndex.fromV7Load at hz
    dsimp only at hz
    split at hz
    · cases hz
    · obtain rfl := Except.ok.inj hz
      exact hsame.loadable (loadable_fromV7 hl none).2
  · intro hload
    obtain ⟨l, hl, hids, hsame, hcount, hwrite⟩ :=
      @Kept.reload P T _ _ hT h hload hn 1 (some x.slotToId) (by simp) le_rfl
    rw [if_pos rfl, Option.getD_some, map_entry_range hcoh.rows] at hids
    have hback := IdMapIndex.fromV7Load_eq_ok (P := P) (T := T) (l := l) (hids ▸ hcoh.nodup) none
    refine ⟨⟨TurboQuantIndex.fromV7 P T { l with ids := [] } none, l.ids, none, IdMapIndex.sortIds l.ids, ∅⟩, ?_, hsame,
      hcount, hids, ?_⟩
    · rw [IdMapIndex.fromBytes, IdMapIndex.toBytes, hl]
      exact hback
    · rw [IdMapIndex.toBytes, IdMapIndex.toBytes]
      dsimp only
      rw [hids]
      exact hwrite

/-- An index is read back from the image it writes, content and bytes, in every state of every run in which
the loader takes its scales and its calibration, and in no other. -/
theorem image_reloads (hT : T.Numbered) (hK : K.Sized) (hfit : K.Paired) :
    (∀ calls : List TurboQuantIndex.Call, Begun P T y → (∀ c ∈ calls, c.Guarded) →
      (y.run P T K S calls).nVectors < 2 ^ 64 →
      ((∃ z, TurboQuantIndex.fromBytes P T ((y.run P T K S calls).toBytes P T) = .ok z ∧
        SameContent P (y.run P T K S calls) z ∧ z.nVectors = (y.run P T K S calls).nVectors ∧
        z.toBytes P T = (y.run P T K S calls).toBytes P T) ↔ Loadable T (y.run P T K S calls))) ∧
    ∀ x : IdMapIndex, IdMapIndex.Ran P T K S y x → x.inner.nVectors < 2 ^ 64 →
      ((∃ z, IdMapIndex.fromBytes P T (x.toBytes P T) = .ok z ∧
        SameContent P x.inner z.inner ∧ z.inner.nVectors = x.inner.nVectors ∧ z.slotToId = x.slotToId ∧
        z.toBytes P T = x.toBytes P T) ↔ Loadable T x.inner) := by
  constructor
  · intro calls hy hg hn
    obtain ⟨rows, h⟩ := hy.kept
    obtain ⟨rows', h'⟩ := h.run (S := S) hK hfit calls hg
    exact h'.reload_iff hT hn
  · intro x hx hn
    obtain ⟨hy, calls, hg, hinner⟩ := hx.inner
    obtain ⟨rows, h⟩ := hy.kept
    obtain ⟨rows', h'⟩ := h.run (S := S) hK hfit calls hg
    rw [← hinner] at h'
    exact IdMapIndex.reload_iff hT h' hx.coherent hn

end Reload

open IdMapIndex in
/-- The grown block, whose packed rows are gone, and the ids over it are written and read back. -/
theorem image_reloads_grown :
    (∃ z, TurboQuantIndex.fromBytes plainHost levelTables (grownBlock.toBytes plainHost levelTables) = .ok z ∧
      z.nVectors = 33 ∧ z.toBytes plainHost levelTables = grownBlock.toBytes plainHost levelTables) ∧
    ∃ z, IdMapIndex.fromBytes plainHost levelTables (grownIds.toBytes plainHost levelTables) = .ok z ∧
      z.slotToId = firstIds 33 := by
  have hbegun : Begun plainHost levelTables wholeRows := .opened wholeRows_opened
  have hvalid : ∀ v ∈ List.replicate 32 (1 : F32) ++ [0], validScale v = true := by decide +kernel
  obtain ⟨hrows, hids⟩ := @image_reloads plainHost levelTables zeroKernels zeroScan wholeRows levelTables_numbered
    zeroKernels_sized zeroKernels_paired
  constructor
  · have hload : Loadable levelTables grownBlock := ⟨by rw [grownBlock_content.scales]; exact hvalid, rfl⟩
    obtain ⟨z, hz, -, hn, hwrite⟩ := (hrows growBlock hbegun growBlock_guarded (by decide +kernel)).mpr hload
    exact ⟨z, hz, hn.trans grownBlock_dropped.2, hwrite⟩
  · have hload : Loadable levelTables grownIds.inner := ⟨by rw [grownIds_content.scales]; exact hvalid, rfl⟩
    obtain ⟨z, hz, -, -, hslots, -⟩ := (hids grownIds grownIds_ran (by decide +kernel)).mpr hload
    exact ⟨z, hz, hslots.trans grownIds_slots⟩

/-! ## A scale out of range -/

/-- The crate's bounds at dimension 8, nearly: a shift up to `4.2e20`. -/
def farTables : Tables := { levelTables with bounds := ⟨fun _ => ⟨0x61B6255E⟩, fun _ => 0⟩ }

/-- The inputs are a row of top codes calibrated by a shift of `-4e20`. Decoded it has a squared norm past
the `f32` range, so whatever pair is fitted, it is re-encoded as top codes with an infinite scale. -/
def farKernels : Kernels where
  encode := zeroKernels.encode
  fitCalibration _ _ dim _ _ := (List.replicate dim 0, List.replicate dim ⟨0x40000000⟩)
  reencode _ scales dim bits _ _ _ _ :=
    (List.replicate (scales.length * (bits * (dim / 8))) 0xFF, List.replicate scales.length ⟨0x7F800000⟩)

def farRow : TurboQuantIndex :=
  partsIndex (some 8) 2 1 [0xFF, 0xFF] [1] (List.replicate 8 ⟨0xE1AD78EC⟩) (List.replicate 8 1)

/-- A unit vector and its opposite. -/
def farSample : List F32 := 1 :: List.replicate 7 0 ++ ⟨0xBF800000⟩ :: List.replicate 7 0

/-- A calibrate leaves an index whose image no loader takes. -/
theorem image_refused : TurboQuantIndex.Opened plainHost farTables farRow ∧
    ¬ ∃ z, TurboQuantIndex.fromBytes plainHost farTables
        ((farRow.run plainHost farTables farKernels zeroScan [.calibrate farSample 8 none]).toBytes plainHost farTables) =
          .ok z ∧
      SameContent plainHost (farRow.run plainHost farTables farKernels zeroScan [.calibrate farSample 8 none]) z ∧
      z.nVectors = (farRow.run plainHost farTables farKernels zeroScan [.calibrate farSample 8 none]).nVectors ∧
      z.toBytes plainHost farTables =
        (farRow.run plainHost farTables farKernels zeroScan [.calibrate farSample 8 none]).toBytes plainHost farTables := by
  have hopened : TurboQuantIndex.Opened plainHost farTables farRow :=
    .fromParts (show TurboQuantIndex.fromParts farTables.bounds (some 8) 2 1 [0xFF, 0xFF] [1]
      (List.replicate 8 ⟨0xE1AD78EC⟩) (List.replicate 8 1) = .ok farRow by rfl)
  have hT : farTables.Numbered := ⟨levelTables_numbered.leveled, levelTables_numbered.numbers⟩
  have hK : farKernels.Sized :=
    ⟨zeroKernels_sized.encode, fun _ _ _ _ _ _ _ _ => ⟨List.length_replicate, List.length_replicate⟩⟩
  have hfit : farKernels.Paired := ⟨fun _ _ _ _ _ => List.length_replicate, fun _ _ _ _ _ => List.length_replicate⟩
  obtain ⟨rows, h⟩ := (Begun.opened hopened).kept
  obtain ⟨rows', h'⟩ := h.run (S := zeroScan) hK hfit [.calibrate farSample 8 none] (by simp [TurboQuantIndex.Call.Guarded])
  refine ⟨hopened, fun hz => ?_⟩
  have hload := (h'.reload_iff hT (by decide)).mp hz
  have hscales : (farRow.run plainHost farTables farKernels zeroScan [.calibrate farSample 8 none]).scales =
      [⟨0x7F800000⟩] := by rfl
  have hvalid := hload.1 ⟨0x7F800000⟩ (by rw [hscales]; exact List.mem_cons_self)
  exact absurd hvalid (by decide)

end Turbovec
