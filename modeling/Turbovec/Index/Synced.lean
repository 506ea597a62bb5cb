import Turbovec.IoV7.Torn
import Turbovec.IoV7.CursorState
import Turbovec.Index.Failed
import Turbovec.Index.Reloaded

/-!
# Synced files

`sync` of an index with the file it writes. Between two syncs the index keeps track of the slots that no longer hold
what the file holds; a sync writes those slots, so that whatever the calls before it, the file loads with the content
of the index.
-/

namespace Turbovec

open Pack IoV7 Slice Grid LittleEndian

/-! ## Content -/

/-- Row `v` of an index of `rows`, as an image has it. -/
def TurboQuantIndex.rowAt (x : TurboQuantIndex) (rows : List (List UInt8)) (v : ℕ) : Row :=
  ⟨rows.getD v [], entry x.scales v, 0⟩

section Content

variable {P : Platform} {T : Tables} {x : TurboQuantIndex} {rows : List (List UInt8)} {d : ℕ}

/-- Packing reads a row's own codes alone. -/
theorem packRow_congr {bits dim : ℕ} (hb : ValidBits bits) (hd : dim % 8 = 0) {codes codes' : List UInt8}
    (h : ∀ g < dim / codesPerByte bits, entry codes g = entry codes' g) :
    packRow bits dim codes = packRow bits dim codes' := by
  unfold packRow
  refine unpackBytes_congr fun k hk => h k (hk.trans_le ?_)
  rcases hb with rfl | rfl | rfl <;> simp only [codesPerByte] <;> omega

/-- A load holds the rows that its image packs to. -/
theorem IoV7.Loaded.rows_eq {img : ParsedImage} {raw : List UInt8} {g kind : ℕ} {l : V7Load}
    (hl : loadImage T raw g kind = .ok l) (hL : Loaded img (img.rows raw) g l) (hgeo : img.geo.Valid)
    (hlen : rows.length = l.nVectors)
    (h : ∀ v < l.nVectors, ((img.rows raw v).packed img.geo).codes = rows.getD v []) : l.rows = rows := by
  have hst := stored_of_loadImage hl
  refine rows_ext (by rw [l.length_rows, hlen]) fun v hv => ?_
  have hv : v < l.nVectors := by omega
  rw [← h v hv]
  by_cases hp : l.layout = LAYOUT_PLANES
  · obtain ⟨hcanon, -⟩ := hL.planes (hL.layout.symm.trans hp)
    rw [← hL.bitWidth, ← hL.dim, ← hL.nVectors] at hcanon
    rw [getD_rows_planes hst hp (fun _ _ => length_packRow _ _ _) hcanon hv, hL.bitWidth, hL.dim]
    rfl
  · obtain ⟨hhold, -⟩ := hL.seq fun hg => hp (hL.layout.trans hg)
    rw [← hL.nVectors, img.geo.rowBytes_eq, ← hL.bitWidth, ← hL.dim] at hhold
    rw [getD_rows_seq hp hv, hhold.seqRowAt hv, hL.bitWidth, hL.dim]
    refine packRow_congr hgeo.bits hgeo.dim_mod fun k hk => ?_
    exact entry_tabulate _ hk

/-- The source of an image of an index. -/
def TurboQuantIndex.source (P : Platform) (T : Tables) (x : TurboQuantIndex) : SyncSource :=
  (x.seeded P T).syncSource P 0 none 8

/-- An image of a kept index writes its rows, off the units and off the records. -/
theorem Kept.writes (h : Kept P T x rows) (hd : x.dim = some d) : Writes (x.source P T) (x.rowAt rows) := by
  have hs := @seeded_same P T x
  have hd' : (x.seeded P T).dim = some d := hs.dim.trans hd
  have hrep : Rep P (x.seeded P T) rows := h.rep.seeded
  intro v hv
  have hgb : (x.source P T).geo.bitWidth = (x.seeded P T).bitWidth := rfl
  have hgd : (x.source P T).geo.dim = d := congrArg (Option.getD · 0) hd'
  have hscale : entry (x.seeded P T).scales v = entry x.scales v := by rw [hs.scales]
  constructor
  · obtain ⟨hpack, -⟩ := @fullRow_codes P (x.seeded P T) rows d 0 8 none hrep hd' h.rowsGiven v hv
    obtain ⟨hfs, hfi⟩ := @fullRow_scale_id P (x.seeded P T) 0 8 none v
    rw [Row.packed, hgb, hgd, TurboQuantIndex.rowAt, ← hscale, ← hfs, ← hpack]
    exact congrArg (Row.mk _ _) hfi
  · obtain ⟨hpack, -⟩ := h.rowsGiven d hd' v hv
    rw [Row.packed, hgb, hgd, TurboQuantIndex.rowAt, ← hscale, ← hpack]
    rfl

/-- The source of a kept index is one the writer takes. -/
theorem Kept.source_wf (hT : T.Numbered) (h : Kept P T x rows) (hl : Loadable T x) (hn : x.nVectors < 2 ^ 64) :
    SourceWf T (x.source P T) :=
  syncSource_wf hT h.rep.seeded ((h.shaped.writable hl h.rep.scales hn).of_same (seeded_same x))
    (seeded_seeded h.keyed.booked) h.rowsGiven (by simp) (Nat.zero_le 1) (Or.inr rfl)

theorem Kept.source_scales (h : Kept P T x rows) (hl : Loadable T x) :
    ∀ v < (x.source P T).nVectors, validScale (entry (x.source P T).scales v) = true := by
  have hs := @seeded_same P T x
  intro v hv
  have hv : v < (x.seeded P T).nVectors := hv
  rw [hs.nVectors, ← h.rep.scales] at hv
  show validScale (entry (x.seeded P T).scales v) = true
  rw [hs.scales, entry_of_getElem? (List.getElem?_eq_getElem hv)]
  exact hl.1 _ (List.getElem_mem hv)

end Content

/-! ## What a call changes -/

/-- What a call other than a sync does to the slots below the watermark: one that no longer holds its row is fresh,
unless the calibration is another and the whole file is stale. -/
structure Moved (x x' : TurboQuantIndex) (rows rows' : List (List UInt8)) : Prop where
  cursor : x'.syncCursor = x.syncCursor
  path : x'.syncPath = x.syncPath
  pending : x'.syncPending = x.syncPending
  fresh : x.syncFresh ⊆ x'.syncFresh
  gen : x.calibGen ≤ x'.calibGen
  dim : ∀ d, x.dim = some d → x'.dim = some d
  bitWidth : x'.bitWidth = x.bitWidth
  pair : x'.calibGen = x.calibGen → x'.tqplusShift = x.tqplusShift ∧ x'.tqplusScale = x.tqplusScale
  row : x'.calibGen = x.calibGen → ∀ v < x.syncWatermark, v < x.nVectors → v ∉ x'.syncFresh →
    v < x'.nVectors ∧ x'.rowAt rows' v = x.rowAt rows v

section Moved

variable {P : Platform} {T : Tables} {K : Kernels} {S : ScanKernels} {x x' : TurboQuantIndex}
  {rows rows' : List (List UInt8)} {dim : ℕ}

/-- A call that leaves all but the derived members and the code layouts. -/
theorem moved_of_frame (h : ∃ packedCodes rotation boundaries centroids blocked,
    x' = { x with packedCodes, rotation, boundaries, centroids, blocked }) : Moved x x' rows rows := by
  obtain ⟨_, _, _, _, _, rfl⟩ := h
  exact ⟨rfl, rfl, rfl, Finset.Subset.refl _, Nat.le_refl _, fun _ h => h, rfl, fun _ => ⟨rfl, rfl⟩,
    fun _ v _ hv _ => ⟨hv, rfl⟩⟩

theorem moved_of_alike (h : Alike P x x') : Moved x x' rows rows := by
  obtain ⟨packedCodes, rotation, boundaries, centroids, rfl⟩ := h.frame
  exact moved_of_frame ⟨_, _, _, _, _, rfl⟩

/-- An append that returns adds scales behind the ones there were. -/
theorem appendRows_ok_frame {vectors : List F32} {n : ℕ} {fault : Option Fault}
    (h : TurboQuantIndex.appendRows P K x vectors n dim fault = .ok x') :
    ∃ packedCodes blocked scales, x' = { x with
      packedCodes, blocked, scales := x.scales ++ scales, nVectors := x.nVectors + n } := by
  unfold TurboQuantIndex.appendRows at h
  dsimp only at h
  split at h
  · split at h
    · cases h
    · cases h
    · cases h
      exact ⟨_, _, _, rfl⟩
  · split at h
    · cases h
    · cases h
    · split at h
      · cases h
        exact ⟨_, _, _, rfl⟩
      · cases h
      · cases h
        exact ⟨_, _, _, rfl⟩

theorem add2d_ok_frame {vectors : List F32} {fault : Option Fault}
    (hok : (x.add2d P T K vectors dim fault).2 = .ok) :
    ∃ dim' n packedCodes rotation boundaries centroids blocked scales, (∀ d, x.dim = some d → dim' = some d) ∧
      (x.add2d P T K vectors dim fault).1 = { x with
        dim := dim', packedCodes, rotation, boundaries, centroids, blocked
        scales := x.scales ++ scales, nVectors := x.nVectors + n } := by
  have hsame : x = { x with scales := x.scales ++ [], nVectors := x.nVectors + 0 } := by
    rw [List.append_nil]
    rfl
  have hadded := TurboQuantIndex.added P T K x vectors dim fault
  generalize x.add2d P T K vectors dim fault = r at hadded hok ⊢
  cases hadded with
  | refused e => cases hok
  | ragged h => cases hok
  | nothing h => exact ⟨_, 0, _, _, _, _, _, [], fun _ hd => hd, hsame⟩
  | panicked hdim h => cases hok
  | done hdim h =>
    have hd' : ∀ d, x.dim = some d → (x.entered dim).dim = some d := fun d hd => by
      rw [TurboQuantIndex.entered_eq hdim hd, hd]
    unfold TurboQuantIndex.add at h
    dsimp only at h
    split at h
    · cases h
    · split at h
      · cases h
        refine ⟨_, 0, x.packedCodes, x.rotation, x.boundaries, x.centroids, x.blocked, [], hd', ?_⟩
        rw [List.append_nil]
        rfl
      · split at h
        · cases h
        · obtain ⟨packedCodes, blocked, scales, rfl⟩ := appendRows_ok_frame h
          exact ⟨_, vectors.length / dim, _, _, _, _, _, scales, hd', rfl⟩

theorem rowAt_append {new : List (List UInt8)} (h : Rep P x rows) {scales : List F32} {v : ℕ} (hv : v < x.nVectors)
    (hs : x'.scales = x.scales ++ scales) : x'.rowAt (rows ++ new) v = x.rowAt rows v := by
  have hlen := h.len
  have hslen := h.scales
  have hrow : (rows ++ new).getD v [] = rows.getD v [] := by
    rw [List.getD_eq_getElem?_getD, List.getElem?_append_left (by omega), ← List.getD_eq_getElem?_getD]
  rw [TurboQuantIndex.rowAt, TurboQuantIndex.rowAt, hrow, hs, entry_append_left (by omega)]

theorem moved_add2d (h : Rep P x rows) (hK : K.Sized) {vectors : List F32} {fault : Option Fault}
    (hf : ∀ f ∈ fault, f.Guarded) (hok : (x.add2d P T K vectors dim fault).2 = .ok) :
    ∃ rows', Rep P (x.add2d P T K vectors dim fault).1 rows' ∧
      Moved x (x.add2d P T K vectors dim fault).1 rows rows' := by
  have hrep := h.add2d (T := T) hK vectors dim hf
  rw [hok] at hrep
  refine ⟨_, hrep, ?_⟩
  obtain ⟨_, n, _, _, _, _, _, scales, hdim, heq⟩ := add2d_ok_frame hok
  rw [heq]
  exact ⟨rfl, rfl, rfl, Finset.Subset.refl _, Nat.le_refl _, hdim, rfl, fun _ => ⟨rfl, rfl⟩,
    fun _ v _ hv _ => ⟨Nat.lt_add_right _ hv, rowAt_append h hv rfl⟩⟩

theorem commitCalibration_frame (z : TurboQuantIndex) (dim : ℕ) (pair : List F32 × List F32) :
    ∃ packedCodes scales blocked, z.commitCalibration P K dim pair = { z with
      packedCodes, scales, blocked
      dim := some dim, tqplusShift := pair.1, tqplusScale := pair.2, calibGen := z.calibGen + 1
      syncCaptureBuf := [], syncCaptureAt := [] } := by
  unfold TurboQuantIndex.commitCalibration
  dsimp only
  split
  · exact ⟨_, _, _, rfl⟩
  · exact ⟨_, _, _, rfl⟩

/-- A calibration that returns is of the next generation. -/
theorem moved_calibrate2d (h : Rep P x rows) (hK : K.Sized) {sample : List F32} {fault : Option Fault}
    (hok : (x.calibrate2d P T K sample dim fault).2 = .ok) :
    ∃ rows', Rep P (x.calibrate2d P T K sample dim fault).1 rows' ∧
      Moved x (x.calibrate2d P T K sample dim fault).1 rows rows' := by
  have hrep := h.calibrate2d (T := T) hK sample dim fault
  rw [hok] at hrep
  refine ⟨_, hrep, ?_⟩
  have hcal := TurboQuantIndex.calibrated P T K x sample dim fault
  generalize x.calibrate2d P T K sample dim fault = r at hcal hok ⊢
  cases hcal with
  | refused e => cases hok
  | abandoned hdim o ho => exact absurd hok ho
  | panicked hdim hn => cases hok
  | done hdim =>
    obtain ⟨packedCodes, scales, blocked, heq⟩ := commitCalibration_frame (P := P) (K := K) (x.warm T dim) dim
      (TurboQuantIndex.fitted T K x sample dim)
    have hd : ∀ d, x.dim = some d → some dim = some d := fun d hd => by
      rw [TurboQuantIndex.eq_of_checkAddDim (Rep.checkAddDim_of_calibrate hdim) hd]
    dsimp only
    rw [heq]
    refine ⟨rfl, rfl, rfl, Finset.Subset.refl _, Nat.le_succ _, hd, rfl, fun he => ?_, fun he => ?_⟩
    · exact absurd he (Nat.succ_ne_self _)
    · exact absurd he (Nat.succ_ne_self _)

/-- A marked slot below the watermark is fresh. -/
theorem mem_markDirty {x : TurboQuantIndex} {slot v : ℕ} : v ∈ (x.markDirty slot).syncFresh ↔
    v ∈ x.syncFresh ∨ v = slot ∧ slot < x.syncWatermark := by
  unfold TurboQuantIndex.markDirty
  split
  · rename_i h
    rw [Finset.mem_insert]
    tauto
  · rename_i h
    tauto

theorem mem_markRemoval {x : TurboQuantIndex} {idx last v : ℕ} (hc : x.syncCursor.isSome = true) :
    v ∈ (x.markRemoval idx last).syncFresh ↔
      v ∈ x.syncFresh ∨ (v = idx ∨ v = last) ∧ v < x.syncWatermark := by
  have hwater : (x.markDirty idx).syncWatermark = x.syncWatermark := by
    unfold TurboQuantIndex.markDirty
    split
    · rfl
    · rfl
  unfold TurboQuantIndex.markRemoval
  rw [if_pos hc]
  dsimp only
  split
  · rw [mem_markDirty, mem_markDirty, hwater]
    constructor
    · rintro ((h | ⟨rfl, h⟩) | ⟨rfl, h⟩)
      · exact Or.inl h
      · exact Or.inr ⟨Or.inl rfl, h⟩
      · exact Or.inr ⟨Or.inr rfl, h⟩
    · rintro (h | ⟨rfl | rfl, h⟩)
      · exact Or.inl (Or.inl h)
      · exact Or.inl (Or.inr ⟨rfl, h⟩)
      · exact Or.inr ⟨rfl, h⟩
  · rename_i heq
    obtain rfl := not_not.mp heq
    rw [mem_markDirty, or_self]
    constructor
    · rintro (h | ⟨rfl, h⟩)
      · exact Or.inl h
      · exact Or.inr ⟨rfl, h⟩
    · rintro (h | ⟨rfl, h⟩)
      · exact Or.inl h
      · exact Or.inr ⟨rfl, h⟩

/-- A removal marks the two slots whose rows it moves. -/
theorem moved_swapRemove (h : Rep P x rows) {idx last : ℕ} (hr : x.swapRemove P idx = some (x', last)) :
    ∃ rows', Rep P x' rows' ∧ Moved x x' rows rows' := by
  have hidx : idx < x.nVectors := by
    by_contra hge
    unfold TurboQuantIndex.swapRemove at hr
    rw [guard, if_neg hge] at hr
    cases hr
  obtain ⟨d, hd⟩ := Option.isSome_iff_exists.mp (h.dimmed (by omega))
  obtain ⟨x'', hr', hrep⟩ := h.swapRemove hidx
  obtain ⟨rfl, rfl⟩ := Prod.mk.inj (Option.some.inj (hr.symm.trans hr'))
  refine ⟨_, hrep, ?_⟩
  rw [TurboQuantIndex.swapRemove_eq x hidx hd] at hr
  obtain ⟨fresh, hmark⟩ := markRemoval_eq x idx (x.nVectors - 1)
  have hmem := fun v => @mem_markRemoval x idx (x.nVectors - 1) v
  dsimp only at hr
  rw [hmark] at hr hmem
  obtain rfl := (Prod.mk.inj (Option.some.inj hr)).1
  have hlen := h.len
  have hslen := h.scales
  refine ⟨rfl, rfl, rfl, ?_, Nat.le_refl _, fun _ h => h, rfl, fun _ => ⟨rfl, rfl⟩, fun _ v hw hv hf => ?_⟩
  · show x.syncFresh ⊆ fresh
    by_cases hcur : x.syncCursor.isSome = true
    · exact fun v hv => (hmem v hcur).mpr (Or.inl hv)
    · have hsame : x.markRemoval idx (x.nVectors - 1) = x := if_neg hcur
      rw [hmark] at hsame
      have heq : fresh = x.syncFresh := congrArg TurboQuantIndex.syncFresh hsame
      rw [heq]
  · have hcur : x.syncCursor.isSome = true := by
      by_contra hnone
      rw [TurboQuantIndex.syncWatermark, Option.not_isSome_iff_eq_none.mp hnone] at hw
      exact Nat.not_lt_zero v hw
    have hnot : v ≠ idx ∧ v ≠ x.nVectors - 1 := by
      rw [← not_or]
      exact fun hor => hf ((hmem v hcur).mpr (Or.inr ⟨hor, hw⟩))
    have hv' : v < x.nVectors - 1 := by omega
    refine ⟨hv', ?_⟩
    have hrow : (SlotMap.swapRemove rows idx).getD v [] = rows.getD v [] := by
      rw [List.getD_eq_getElem?_getD, SlotMap.getElem?_swapRemove (by omega), if_pos (by omega), if_neg hnot.1,
        ← List.getD_eq_getElem?_getD]
    have hscale : entry ((if idx ≠ x.nVectors - 1 then x.scales.set idx (entry x.scales (x.nVectors - 1))
        else x.scales).take (x.nVectors - 1)) v = entry x.scales v := by
      rw [entry_take hv']
      split
      · exact entry_set_ne (Ne.symm hnot.1)
      · rfl
    rw [TurboQuantIndex.rowAt, TurboQuantIndex.rowAt, hrow, ← hscale]
    rfl

theorem Rep.unique (h : Rep P x rows) (h' : Rep P x rows') : rows' = rows :=
  (SameContent.rows_eq ⟨rfl, rfl, rfl, rfl, rfl, rfl⟩ h h').2

/-- Any call but a sync. -/
theorem Kept.moved (hK : K.Sized) (hfit : K.Paired) (h : Kept P T x rows) {c : TurboQuantIndex.Call} (hg : c.Guarded)
    (hc : ∀ path disk, c ≠ .sync path disk) :
    ∃ rows', Kept P T (x.after P T K S c) rows' ∧ Moved x (x.after P T K S c) rows rows' := by
  obtain ⟨rows', hkept⟩ := h.after (S := S) hK hfit hg
  suffices hmoved : ∃ rows'', Rep P (x.after P T K S c) rows'' ∧ Moved x (x.after P T K S c) rows rows'' by
    obtain ⟨rows'', hrep, hm⟩ := hmoved
    rw [hrep.unique hkept.rep] at hkept
    exact ⟨rows'', hkept, hm⟩
  by_cases hfail : (x.reply P T K S c).Failed
  · have ha := Alike.failed h.rep hK hg hfail
    have hsame := (ha.agrees.content.rows_eq h.rep hkept.rep).2
    exact ⟨rows, hsame ▸ hkept.rep, moved_of_alike ha⟩
  · cases c with
    | add vectors dim fault => exact moved_add2d h.rep hK hg (not_not.mp hfail)
    | calibrate sample dim fault => exact moved_calibrate2d h.rep hK (not_not.mp hfail)
    | swapRemove idx =>
      dsimp only [TurboQuantIndex.after]
      cases hr : x.swapRemove P idx with
      | none => exact ⟨rows, h.rep, moved_of_frame ⟨_, _, _, _, _, rfl⟩⟩
      | some r => exact moved_swapRemove h.rep hr
    | search queries k mask threshold =>
      exact ⟨rows, h.rep.search queries k mask threshold, moved_of_frame (search_frame x ..)⟩
    | packedCodes => exact ⟨rows, h.rep.materialize, moved_of_frame ⟨_, _, _, _, _, rfl⟩⟩
    | prepare => exact ⟨rows, h.rep.prepare, moved_of_frame (prepare_frame x)⟩
    | sync path disk => exact absurd rfl (hc path disk)

end Moved

/-! ## The file of a binding -/

/-- What the front of a file of `x` at dimension `d` is written from. -/
def TurboQuantIndex.front (T : Tables) (x : TurboQuantIndex) (d layout : ℕ) : SyncSource where
  kind := 0
  dim := d
  bitWidth := x.bitWidth
  nVectors := 0
  version := 8
  layout := layout
  unitCodes _ _ := []
  rowCodes _ := []
  scales := []
  ids := none
  tqplusShift := x.tqplusShift
  tqplusScale := x.tqplusScale
  boundaries := (T.codebook x.bitWidth d).1
  centroids := (T.codebook x.bitWidth d).2

/-- Two sources that write the same superblock. -/
structure SameFront (src src' : SyncSource) : Prop where
  kind : src'.kind = src.kind
  dim : src'.dim = src.dim
  bitWidth : src'.bitWidth = src.bitWidth
  version : src'.version = src.version
  layout : src'.layout = src.layout
  tqplusShift : src'.tqplusShift = src.tqplusShift
  tqplusScale : src'.tqplusScale = src.tqplusScale
  boundaries : src'.boundaries = src.boundaries
  centroids : src'.centroids = src.centroids

section Front

variable {P : Platform} {T : Tables} {x : TurboQuantIndex} {rows : List (List UInt8)} {d : ℕ} {src src' : SyncSource}
  {cursor cursor' : SyncCursor} {raw : List UInt8} {img : ParsedImage}

theorem SameFront.symm (h : SameFront src src') : SameFront src' src :=
  ⟨h.kind.symm, h.dim.symm, h.bitWidth.symm, h.version.symm, h.layout.symm, h.tqplusShift.symm, h.tqplusScale.symm,
    h.boundaries.symm, h.centroids.symm⟩

theorem SameFront.geo (h : SameFront src src') : src'.geo = src.geo := by
  simp only [SyncSource.geo, h.kind, h.dim, h.bitWidth, h.version, h.layout, h.tqplusShift]

theorem SameFront.superblock (h : SameFront src src') (nonce : ℕ) : superblock src' nonce = superblock src nonce := by
  simp only [IoV7.superblock, superblockBody, preambleBytes, h.kind, h.dim, h.bitWidth, h.version, h.layout,
    h.tqplusShift, h.tqplusScale, h.boundaries, h.centroids]

/-- A committed file is one of every source that writes its superblock, whatever the calibration its cursor counts. -/
theorem IoV7.Committed.congr (h : Committed T src cursor raw img) (hf : SameFront src src')
    (hgen : cursor'.gen = cursor.gen) (hn : cursor'.nSynced = cursor.nSynced) (hnonce : cursor'.nonce = cursor.nonce) :
    Committed T src' cursor' raw img where
  parse := by rw [hf.kind]; exact h.parse
  geo := by rw [hf.geo]; exact h.geo
  nVectors := by rw [hn]; exact h.nVectors
  gen := by rw [hgen]; exact h.gen
  nonce := by rw [hnonce]; exact h.nonce
  tqplusShift := by rw [hf.tqplusShift]; exact h.tqplusShift
  tqplusScale := by rw [hf.tqplusScale]; exact h.tqplusScale
  scales := h.scales
  superblock := by rw [hnonce, hf.superblock]; exact h.superblock
  slot := by rw [hgen, hf.geo]; exact h.slot
  inside := by rw [oldBlocks, hn, hf.geo]; exact h.inside
  apart := by rw [hf.geo]; exact h.apart

/-- The superblock an image of a kept index has. -/
theorem Kept.sameFront (h : Kept P T x rows) (hd : x.dim = some d) :
    SameFront (x.front T d (x.source P T).layout) (x.source P T) := by
  have hs := @seeded_same P T x
  have hd' : (x.seeded P T).dim = some d := hs.dim.trans hd
  obtain ⟨hb, hc⟩ := seeded_seeded (P := P) h.keyed.booked d hd'
  rw [hs.bitWidth] at hb hc
  have hsome : (x.seeded P T).dim.isNone = false := by rw [hd']; rfl
  refine ⟨rfl, ?_, hs.bitWidth, rfl, rfl, hs.tqplusShift, hs.tqplusScale, ?_, ?_⟩
  · exact congrArg (Option.getD · 0) hd'
  · show (if (x.seeded P T).dim.isNone then _ else (x.seeded P T).boundaries.getD []) = _
    rw [hsome]
    exact hb
  · show (if (x.seeded P T).dim.isNone then _ else (x.seeded P T).centroids.getD []) = _
    rw [hsome]
    exact hc

/-- A file whose identity check passes has the unit layout of the index. -/
theorem layout_of_intact {staleAhead : Option ℕ} {geo : Geo} (h : Committed T src cursor raw img)
    (hstate : cursorState raw cursor geo = .intact staleAhead) : src.layout = geo.layout := by
  have hparse := h.parse
  rw [parseImage, bind_eq_ok] at hparse
  obtain ⟨sb, hsb, hparse⟩ := hparse
  have hgeo : sb.geo = src.geo := by
    rw [← h.geo]
    simp only [bind_eq_ok, pure, Except.pure, Except.ok.injEq] at hparse
    obtain ⟨_, _, _, _, _, _, _, _, rfl⟩ := hparse
    rfl
  rw [parseSuperblock, bind_eq_ok] at hsb
  obtain ⟨pre, hpre, hcal⟩ := hsb
  have hlayout : pre.layout = src.layout := by
    have : sb.geo.layout = pre.layout := by
      simp only [parseCalibration, bind_eq_ok, pure, Except.pure, Except.ok.injEq] at hcal
      obtain ⟨_, _, _, _, _, _, _, _, _, _, _, _, _, _, _, _, _, _, rfl⟩ := hcal
      rfl
    rw [← this, hgeo]
    rfl
  have hsniff := (sniffVersion_of_parse hpre).1
  rw [sniffVersion_take (by decide)] at hsniff
  unfold cursorState at hstate
  cases hslice : slice? raw 0 20 with
  | none =>
    rw [hslice] at hstate
    cases hstate
  | some head =>
    have hhead : sniffVersion head = some (pre.version, pre.layout) := by
      rw [← (slice?_eq_some.mp hslice).2, List.drop_zero, sniffVersion_take (by decide), hsniff]
    rw [hslice] at hstate
    dsimp only at hstate
    rw [hhead] at hstate
    dsimp only at hstate
    generalize ofLe (bytesAt head ((if pre.version = 8 then 24 else 23) - 12) 8) = fileNonce at hstate
    split at hstate
    · split at hstate
      · cases hstate
      · cases hstate
    · split at hstate
      · cases hstate
      · rename_i hor
        rw [← hlayout]
        exact not_not.mp (not_or.mp hor).2

end Front

/-! ## The binding -/

/-- What a bound file holds: the commit of the cursor, whose clean slots below the watermark are rows of the index. -/
structure Bound (T : Tables) (x : TurboQuantIndex) (rows : List (List UInt8)) (cursor : SyncCursor) (raw : List UInt8)
    (d layout : ℕ) (img : ParsedImage) : Prop where
  dim : x.dim = some d
  committed : Committed T (x.front T d layout) cursor raw img
  pending : x.syncPending = img.pendingSlots.toFinset
  pending_le : x.syncPending.card ≤ MAX_OPS
  old_lt : oldBlocks cursor < 2 ^ 32
  nonce_lt : cursor.nonce < 2 ^ 64
  clean : ∀ v < oldBlocks cursor * BLOCK, v ∉ x.syncFresh →
    v < x.nVectors ∧ (img.rows raw v).packed img.geo = x.rowAt rows v

/-- A file that passes the identity check of a cursor. -/
def IoV7.Claims (raw : List UInt8) (cursor : SyncCursor) : Prop :=
  ∃ geo staleAhead, cursorState raw cursor geo = .intact staleAhead

/-- The binding holds, unless the calibration is another or the file fails the identity check. -/
structure Tracked (T : Tables) (x : TurboQuantIndex) (rows : List (List UInt8)) (files : String → Option (List UInt8)) :
    Prop where
  gen : ∀ cursor, x.syncCursor = some cursor → cursor.calibGen ≤ x.calibGen
  bound : ∀ cursor path raw, x.syncCursor = some cursor → x.syncPath = some path → files path = some raw →
    cursor.calibGen = x.calibGen → Claims raw cursor → ∃ d layout img, Bound T x rows cursor raw d layout img

section Bound

variable {P : Platform} {T : Tables} {K : Kernels} {x x' : TurboQuantIndex} {rows rows' : List (List UInt8)}
  {cursor : SyncCursor} {raw : List UInt8} {d layout : ℕ} {img : ParsedImage} {files : String → Option (List UInt8)}

/-- A call other than a sync keeps the binding. -/
theorem Bound.moved (h : Bound T x rows cursor raw d layout img) (hc : x.syncCursor = some cursor)
    (hm : Moved x x' rows rows') (hgen : x'.calibGen = x.calibGen) : Bound T x' rows' cursor raw d layout img where
  dim := hm.dim d h.dim
  committed := by
    obtain ⟨hshift, hscale⟩ := hm.pair hgen
    refine h.committed.congr ⟨rfl, rfl, hm.bitWidth, rfl, rfl, hshift, hscale, ?_, ?_⟩ rfl rfl rfl
    · simp only [TurboQuantIndex.front, hm.bitWidth]
    · simp only [TurboQuantIndex.front, hm.bitWidth]
  pending := hm.pending.trans h.pending
  pending_le := by rw [hm.pending]; exact h.pending_le
  old_lt := h.old_lt
  nonce_lt := h.nonce_lt
  clean v hv hnot := by
    have hwater : v < x.syncWatermark := by
      rw [TurboQuantIndex.syncWatermark, hc]
      exact hv
    obtain ⟨hlt, hrow⟩ := h.clean v hv fun hf => hnot (hm.fresh hf)
    obtain ⟨hlt', hrow'⟩ := hm.row hgen v hwater hlt hnot
    exact ⟨hlt', hrow.trans hrow'.symm⟩

theorem Tracked.moved (h : Tracked T x rows files) (hm : Moved x x' rows rows') : Tracked T x' rows' files where
  gen cursor hc := (h.gen cursor (hm.cursor.symm.trans hc)).trans hm.gen
  bound cursor path raw hc hp hf hg hclaims := by
    have hc := hm.cursor.symm.trans hc
    have hle := h.gen cursor hc
    have hgen := hm.gen
    obtain ⟨d, layout, img, hb⟩ := h.bound cursor path raw hc (hm.path.symm.trans hp) hf (by omega) hclaims
    exact ⟨d, layout, img, hb.moved hc hm (by omega)⟩

/-- An unbound index is tracked whatever the files. -/
theorem tracked_unbound (h : x.syncCursor = none) : Tracked T x rows files where
  gen cursor hc := by
    rw [h] at hc
    cases hc
  bound cursor path raw hc := by
    rw [h] at hc
    cases hc

theorem sync_landed_frame (hd : x.dim = some d) (path : String) (carried : List ℕ) :
    ∃ packedCodes boundaries centroids blocked, (x.sync P T path (.landed cursor carried)).1 = { x with
      packedCodes, boundaries, centroids, blocked
      syncPending := carried.toFinset, syncFresh := ∅, syncCaptureBuf := [], syncCaptureAt := []
      syncCursor := some { cursor with calibGen := x.calibGen }, syncPath := some path } := by
  rw [TurboQuantIndex.sync]
  split
  · rename_i hnone
    cases hd.symm.trans hnone
  · dsimp only
    split
    · exact ⟨_, _, _, _, rfl⟩
    · exact ⟨_, _, _, _, rfl⟩

theorem sync_refused_frame (x : TurboQuantIndex) (path : String) : ∃ packedCodes rotation boundaries centroids blocked,
    (x.sync P T path .refused).1 = { x with packedCodes, rotation, boundaries, centroids, blocked } := by
  rw [TurboQuantIndex.sync]
  split
  · exact ⟨_, _, _, _, _, rfl⟩
  · dsimp only
    split
    · exact ⟨_, _, _, _, _, rfl⟩
    · exact ⟨_, _, _, _, _, rfl⟩

/-- A sync, however it ends, keeps the rows. -/
theorem Kept.sync (hK : K.Sized) (hfit : K.Paired) (h : Kept P T x rows) (path : String) (disk : Disk) :
    Kept P T (x.sync P T path disk).1 rows := by
  obtain ⟨rows', hkept⟩ := h.after (S := zeroScan) hK hfit (c := .sync path disk) trivial
  rw [(h.rep.sync path disk).unique hkept.rep] at hkept
  exact hkept

/-- A sync that landed binds the index to the file it left. -/
theorem Kept.tracked_landed (h : Kept P T x rows) (hd : x.dim = some d)
    (hcm : Committed T (x.source P T) cursor raw img) (hn : cursor.nSynced = x.nVectors)
    (hrows : ∀ v < x.nVectors, (img.rows raw v).packed img.geo = x.rowAt rows v)
    (hle : img.pendingSlots.length ≤ MAX_OPS) (hold : x.nVectors / BLOCK < 2 ^ 32) (hnonce : cursor.nonce < 2 ^ 64)
    (path : String) : Tracked T (x.sync P T path (.landed cursor img.pendingSlots)).1 rows
      (Function.update files path (some raw)) := by
  obtain ⟨packedCodes, boundaries, centroids, blocked, heq⟩ :=
    @sync_landed_frame P T x cursor d hd path img.pendingSlots
  rw [heq]
  refine ⟨fun c hc => ?_, fun c p raw' hc hp hf hg _ => ?_⟩
  · obtain rfl := Option.some.inj hc
    exact le_rfl
  · obtain rfl := Option.some.inj hc
    obtain rfl := Option.some.inj hp
    rw [Function.update_self] at hf
    obtain rfl := Option.some.inj hf
    refine ⟨d, (x.source P T).layout, img, ⟨hd, ?_, rfl, ?_, ?_, hnonce, ?_⟩⟩
    · exact hcm.congr (h.sameFront hd).symm rfl rfl rfl
    · exact (List.toFinset_card_le _).trans hle
    · rw [oldBlocks]
      dsimp only
      rw [hn]
      exact hold
    · intro v hv _
      have hv : v < x.nVectors := by
        rw [oldBlocks] at hv
        dsimp only at hv
        rw [hn] at hv
        exact hv.trans_le (Nat.div_mul_le_self _ _)
      exact ⟨hv, hrows v hv⟩

end Bound

/-! ## The sync of a file -/

section Sync

variable (P : Platform) (T : Tables)

/-- `sync_v7_impl`, of a committed dimension: how the write ends that draws `nonce` for a new file, and the bytes the
path then holds. -/
def syncFile (x : TurboQuantIndex) (path : String) (nonce : ℕ) (raw : Option (List UInt8)) :
    Disk × Option (List UInt8) :=
  let source := x.source P T
  let writeFull : Disk × Option (List UInt8) :=
    (.landed ⟨0, source.nVectors, x.calibGen, nonce⟩ [], some (writeImage source 0 nonce))
  match x.syncCursor with
  | none => writeFull
  | some cursor =>
    if x.syncPath = some path then
      -- a missing file is one that was replaced
      match raw with
      | none => writeFull
      | some bytes =>
        match cursorState bytes cursor source.geo with
        | .foreign => (.refused, some bytes)
        | .replaced => writeFull
        | .intact staleAhead =>
          if cursor.calibGen = x.calibGen then
            match planIncremental source cursor x.syncPending x.syncFresh staleAhead with
            | some plan => (.landed plan.newCursor plan.carried, some (runSync bytes plan))
            -- the ops of a mass removal do not fit a header
            | none => writeFull
          else writeFull
    else writeFull

/-- An index, and the files of the paths it may be synced to. -/
structure Process where
  index : TurboQuantIndex
  files : String → Option (List UInt8)

/-- A sync that meets no error of the file system, and whether it returns `Ok`. -/
def Process.sync (w : Process) (path : String) (nonce : ℕ) : Process × Bool :=
  match w.index.dim with
  | none => (w, false)
  | some _ =>
    let r := syncFile P T w.index path nonce (w.files path)
    let s := w.index.sync P T path r.1
    (⟨s.1, Function.update w.files path r.2⟩, s.2)

end Sync

/-- What a sync is given: scales and a calibration that a loader takes, block numbers that fit their field, and a
generation that does not wrap. -/
structure Process.Ready (T : Tables) (w : Process) (nonce : ℕ) : Prop where
  loadable : Loadable T w.index
  blocks_lt : w.index.nVectors / BLOCK < 2 ^ 32
  nonce_lt : nonce < 2 ^ 64
  gen_lt : ∀ cursor, w.index.syncCursor = some cursor → cursor.gen + 1 < 2 ^ 64

section variable (P : Platform) (T : Tables) (K : Kernels) (S : ScanKernels)

/-- A step of the index, or of another program. -/
inductive Process.Step : Process → Process → Prop
  /-- any call but a sync, whatever its end -/
  | call (w : Process) {c : TurboQuantIndex.Call} (hg : c.Guarded) (hc : ∀ path disk, c ≠ .sync path disk) :
      Step w { w with index := w.index.after P T K S c }
  | sync (w : Process) (path : String) {nonce : ℕ} (hready : w.Ready T nonce) : Step w (w.sync P T path nonce).1
  /-- a sync whose identity check cannot read the file -/
  | unread (w : Process) (path : String) : Step w { w with index := (w.index.sync P T path .refused).1 }
  /-- a sync whose write fails, with whatever it left behind -/
  | failed (w : Process) (path : String) (left : Option (List UInt8)) (hdim : w.index.dim.isSome = true) :
      Step w ⟨(w.index.sync P T path .failed).1, Function.update w.files path left⟩
  /-- another writer, whose file the identity check tells apart -/
  | outside (w : Process) (path : String) (left : Option (List UInt8))
      (h : ∀ cursor raw, w.index.syncCursor = some cursor → w.index.syncPath = some path → left = some raw →
        ¬Claims raw cursor) : Step w { w with files := Function.update w.files path left }

/-- What a sync in place over the file `raw` leaves when it is cut: what landed of the planned writes, in any order,
with no header ahead of the cursor's that the loader adopts. -/
inductive Process.Cut (w : Process) (path : String) (raw : List UInt8) : List UInt8 → Prop
  | cut {cursor : SyncCursor} {clearTarget : Option ℕ} {plan : SyncPlan} {landed : List (ℕ × List UInt8)}
      (hc : w.index.syncCursor = some cursor) (hpath : w.index.syncPath = some path) (hf : w.files path = some raw)
      (hgen : cursor.calibGen = w.index.calibGen)
      (hstate : cursorState raw cursor (w.index.source P T).geo = .intact clearTarget)
      (hplan :
        planIncremental (w.index.source P T) cursor w.index.syncPending w.index.syncFresh clearTarget = some plan)
      (hlanded : ∀ op ∈ landed, plan.Lands (w.index.source P T).geo cursor op)
      (hslot : ∀ next, parseHeaderSlot (writeAll 0 raw landed) (w.index.source P T).geo ((cursor.gen + 1) % 2)
          (writeAll 0 raw landed).length = some next → cursor.gen < next.gen →
        deltaOk (writeAll 0 raw landed) (w.index.source P T).geo next = false) : Cut w path raw (writeAll 0 raw landed)

/-- A process after any steps, from an unbound index or the load of a file that a sync wrote or was cut in, of this
program or of another. -/
inductive Process.Reachable : Process → Prop
  | begun {w : Process} (h : Begun P T w.index) (hc : w.index.syncCursor = none) : Reachable w
  | step {w w' : Process} (h : Reachable w) (hs : Process.Step P T K S w w') : Reachable w'
  | reopened {w : Process} (h : Reachable w) {path : String} {nonce : ℕ} (hready : w.Ready T nonce)
      (hok : (w.sync P T path nonce).2 = true) {raw : List UInt8}
      (hraw : (w.sync P T path nonce).1.files path = some raw) {files : String → Option (List UInt8)} {path' : String}
      (hf : files path' = some raw) {z : TurboQuantIndex} (hz : TurboQuantIndex.load P T raw path' = .ok z) :
      Reachable ⟨z, files⟩
  | crashed {w : Process} (h : Reachable w) {path : String} {nonce : ℕ} (hready : w.Ready T nonce)
      {raw left : List UInt8} (hcut : w.Cut P T path raw left) {files : String → Option (List UInt8)} {path' : String}
      (hf : files path' = some left) {z : TurboQuantIndex} (hz : TurboQuantIndex.load P T left path' = .ok z) :
      Reachable ⟨z, files⟩

end

section Process

variable {P : Platform} {T : Tables} {K : Kernels} {S : ScanKernels} {w w' : Process} {rows : List (List UInt8)}
  {path : String} {nonce : ℕ}

/-- What a sync that landed leaves: the committed file of every row. -/
structure Wrote (P : Platform) (T : Tables) (x : TurboQuantIndex) (rows : List (List UInt8))
    (cursor : SyncCursor) (carried : List ℕ) (raw : List UInt8) (img : ParsedImage) : Prop where
  committed : Committed T (x.source P T) cursor raw img
  carried_eq : img.pendingSlots = carried
  carried_le : carried.length ≤ MAX_OPS
  nSynced : cursor.nSynced = x.nVectors
  nonce_lt : cursor.nonce < 2 ^ 64
  row : ∀ v < x.nVectors, (img.rows raw v).packed img.geo = x.rowAt rows v

theorem Process.Ready.n_lt (h : w.Ready T nonce) : w.index.nVectors < 2 ^ 64 := by
  have := h.blocks_lt
  have := Nat.div_add_mod w.index.nVectors BLOCK
  have : w.index.nVectors % BLOCK < BLOCK := Nat.mod_lt _ (by decide)
  simp only [BLOCK] at *
  omega

theorem nVectors_source (x : TurboQuantIndex) : (x.source P T).nVectors = x.nVectors := (@seeded_same P T x).nVectors

/-- A full write. -/
theorem Kept.wrote_full {d : ℕ} (hT : T.Numbered) (h : Kept P T w.index rows) (hready : w.Ready T nonce)
    (hd : w.index.dim = some d) : Wrote P T w.index rows
      ⟨0, (w.index.source P T).nVectors, w.index.calibGen, nonce⟩ [] (writeImage (w.index.source P T) 0 nonce)
      (parsedFull (w.index.source P T) 0 nonce) where
  committed := committed_writeImage (h.source_wf hT hready.loadable hready.n_lt) (h.source_scales hready.loadable)
    hready.nonce_lt _
  carried_eq := rfl
  carried_le := Nat.zero_le _
  nSynced := nVectors_source w.index
  nonce_lt := hready.nonce_lt
  row v hv := rows_writeImage (h.source_wf hT hready.loadable hready.n_lt) (h.writes hd) nonce
    (by rw [nVectors_source]; exact hv)

/-- What a sync in place starts from. -/
structure InPlace (P : Platform) (T : Tables) (x : TurboQuantIndex) (rows : List (List UInt8)) (cursor : SyncCursor)
    (raw : List UInt8) (img : ParsedImage) : Prop where
  wf : SourceWf T (x.source P T)
  scales : ∀ v < (x.source P T).nVectors, validScale (entry (x.source P T).scales v) = true
  writes : Writes (x.source P T) (x.rowAt rows)
  committable : Committable (x.source P T) cursor x.syncPending
  committed : Committed T (x.source P T) cursor raw img
  pending : x.syncPending = img.pendingSlots.toFinset
  clean : ∀ v < oldBlocks cursor * BLOCK, v ∉ x.syncFresh → (img.rows raw v).packed (x.source P T).geo = x.rowAt rows v

/-- The file of the binding is one to write in place, once it passes the identity check. -/
theorem Kept.inPlace {d d' layout : ℕ} {cursor : SyncCursor} {raw : List UInt8} {img : ParsedImage}
    {clearTarget : Option ℕ} (hT : T.Numbered) (h : Kept P T w.index rows) (hready : w.Ready T nonce)
    (hd : w.index.dim = some d) (hc : w.index.syncCursor = some cursor)
    (hb : Bound T w.index rows cursor raw d' layout img)
    (hstate : cursorState raw cursor (w.index.source P T).geo = .intact clearTarget) :
    InPlace P T w.index rows cursor raw img := by
  obtain rfl := Option.some.inj (hd.symm.trans hb.dim)
  have hlayout : layout = (w.index.source P T).layout := layout_of_intact hb.committed hstate
  subst hlayout
  have hcm : Committed T (w.index.source P T) cursor raw img := hb.committed.congr (h.sameFront hd) rfl rfl rfl
  refine ⟨h.source_wf hT hready.loadable hready.n_lt, h.source_scales hready.loadable, h.writes hd, ?_, hcm, hb.pending,
    fun v hv hnot => hcm.geo ▸ (hb.clean v hv hnot).2⟩
  refine ⟨hready.gen_lt cursor hc, hb.nonce_lt, hb.old_lt, ?_, hb.pending_le⟩
  rw [newBlocks, nVectors_source]
  exact hready.blocks_lt

/-- A planned write over the file of the binding. -/
theorem InPlace.wrote {x : TurboQuantIndex} {cursor : SyncCursor} {raw : List UInt8} {img : ParsedImage}
    {clearTarget : Option ℕ} {plan : SyncPlan} (h : InPlace P T x rows cursor raw img)
    (hplan : planIncremental (x.source P T) cursor x.syncPending x.syncFresh clearTarget = some plan) :
    ∃ img', Wrote P T x rows plan.newCursor plan.carried (runSync raw plan) img' := by
  obtain ⟨img', hcm', hcarried, hle, hn, hrows⟩ := sync_commits h.wf h.committable h.scales h.writes h.committed
    (fun v hv => h.pending ▸ List.mem_toFinset.mpr hv)
    (fun v hv hnot _ => h.clean v hv (Finset.notMem_union.mp hnot).2) hplan
  have hnew : plan.newCursor.nonce = cursor.nonce := by
    obtain ⟨-, -, hcursor, -⟩ := planIncremental_writes h.wf hplan raw
    rw [hcursor]
  refine ⟨img', hcm', hcarried, hle, hn.trans (nVectors_source x), hnew ▸ h.committable.nonce_lt, fun v hv => ?_⟩
  rw [hcm'.geo]
  exact hrows v (by rw [nVectors_source]; exact hv)

/-- A sync that is cut leaves the file of the last commit. -/
theorem Tracked.cut {raw left : List UInt8} (hT : T.Numbered) (h : Kept P T w.index rows)
    (ht : Tracked T w.index rows w.files) (hready : w.Ready T nonce) (hcut : w.Cut P T path raw left) :
    ∃ d cursor img, w.index.dim = some d ∧ InPlace P T w.index rows cursor raw img ∧
      Committed T (w.index.source P T) cursor left img ∧
      ∀ v < img.nVectors, (img.rows left v).packed img.geo = (img.rows raw v).packed img.geo := by
  obtain ⟨hc, hpath, hf, hgen, hstate, hplan, hlanded, hslot⟩ := hcut
  obtain ⟨d, layout, img, hb⟩ := ht.bound _ _ _ hc hpath hf hgen ⟨_, _, hstate⟩
  have hin := h.inPlace hT hready hb.dim hc hb hstate
  obtain ⟨hcm, hrows⟩ := torn_keeps_commit hin.wf hin.committable hin.scales hin.writes hin.committed
    (fun v hv => List.mem_toFinset.mp (hin.pending ▸ hv)) (fun v hv hnot _ => hin.clean v hv hnot) hplan hlanded hslot
  refine ⟨d, _, img, hb.dim, hin, hcm, fun v hv => ?_⟩
  rw [hcm.geo]
  exact hrows v hv

/-- A sync leaves the file alone and returns an error, or writes every row. -/
theorem Kept.syncFile_cases {d : ℕ} (hT : T.Numbered) (h : Kept P T w.index rows) (ht : Tracked T w.index rows w.files)
    (hready : w.Ready T nonce) (hd : w.index.dim = some d) (path : String) :
    syncFile P T w.index path nonce (w.files path) = (.refused, w.files path) ∨
    ∃ cursor carried raw img, syncFile P T w.index path nonce (w.files path) = (.landed cursor carried, some raw) ∧
      Wrote P T w.index rows cursor carried raw img := by
  have hfull := h.wrote_full hT hready hd
  unfold syncFile
  dsimp only
  split
  · exact Or.inr ⟨_, _, _, _, rfl, hfull⟩
  · rename_i cursor hc
    split
    · rename_i hpath
      split
      · exact Or.inr ⟨_, _, _, _, rfl, hfull⟩
      · rename_i raw hf
        split
        · rw [hf]
          exact Or.inl rfl
        · exact Or.inr ⟨_, _, _, _, rfl, hfull⟩
        · rename_i clearTarget hstate
          split
          · rename_i hgen
            split
            · rename_i plan hplan
              obtain ⟨d', layout, img, hb⟩ := ht.bound cursor path raw hc hpath hf hgen ⟨_, _, hstate⟩
              obtain ⟨img', hwrote⟩ := (h.inPlace hT hready hd hc hb hstate).wrote hplan
              exact Or.inr ⟨_, _, _, _, rfl, hwrote⟩
            · exact Or.inr ⟨_, _, _, _, rfl, hfull⟩
          · exact Or.inr ⟨_, _, _, _, rfl, hfull⟩
    · exact Or.inr ⟨_, _, _, _, rfl, hfull⟩

/-- A sync keeps the rows and the binding. -/
theorem Tracked.sync (hT : T.Numbered) (hK : K.Sized) (hfit : K.Paired) (h : Kept P T w.index rows)
    (ht : Tracked T w.index rows w.files) (path : String) (hready : w.Ready T nonce) :
    Kept P T (w.sync P T path nonce).1.index rows ∧
      Tracked T (w.sync P T path nonce).1.index rows (w.sync P T path nonce).1.files := by
  unfold Process.sync
  split
  · exact ⟨h, ht⟩
  · rename_i d hd
    refine ⟨h.sync hK hfit path _, ?_⟩
    rcases h.syncFile_cases hT ht hready hd path with heq | ⟨cursor, carried, raw, img, heq, hwrote⟩
    · rw [heq]
      dsimp only
      rw [Function.update_eq_self]
      exact ht.moved (moved_of_frame (sync_refused_frame w.index path))
    · rw [heq]
      obtain rfl := hwrote.carried_eq
      exact h.tracked_landed hd hwrote.committed hwrote.nSynced hwrote.row hwrote.carried_le hready.blocks_lt
        hwrote.nonce_lt path

/-- A step keeps the binding. -/
theorem Tracked.step (hT : T.Numbered) (hK : K.Sized) (hfit : K.Paired) (h : Kept P T w.index rows)
    (ht : Tracked T w.index rows w.files) (hs : Process.Step P T K S w w') :
    ∃ rows', Kept P T w'.index rows' ∧ Tracked T w'.index rows' w'.files := by
  cases hs with
  | call hg hc =>
    obtain ⟨rows', hkept, hm⟩ := h.moved (S := S) hK hfit hg hc
    exact ⟨rows', hkept, ht.moved hm⟩
  | sync path hready => exact ⟨rows, Tracked.sync hT hK hfit h ht path hready⟩
  | unread path => exact ⟨rows, h.sync hK hfit path _, ht.moved (moved_of_frame (sync_refused_frame w.index path))⟩
  | failed path left hdim =>
    refine ⟨rows, h.sync hK hfit path _, tracked_unbound ?_⟩
    obtain ⟨d, hd⟩ := Option.isSome_iff_exists.mp hdim
    rw [TurboQuantIndex.sync]
    split
    · rename_i hnone
      cases hd.symm.trans hnone
    · rfl
  | outside path left hleft =>
    refine ⟨rows, h, ht.gen, fun cursor p raw hc hp hf hgen hclaims => ?_⟩
    have hf : Function.update w.files path left p = some raw := hf
    by_cases heq : p = path
    · subst heq
      rw [Function.update_self] at hf
      exact absurd hclaims (hleft cursor raw hc hp hf)
    · rw [Function.update_of_ne heq] at hf
      exact ht.bound cursor p raw hc hp hf hgen hclaims

/-- A sync that returns `Ok` wrote every row. -/
theorem Tracked.wrote (hT : T.Numbered) (h : Kept P T w.index rows) (ht : Tracked T w.index rows w.files)
    (path : String) (hready : w.Ready T nonce) (hok : (w.sync P T path nonce).2 = true) :
    ∃ d cursor carried raw img, w.index.dim = some d ∧ (w.sync P T path nonce).1.files path = some raw ∧
      Wrote P T w.index rows cursor carried raw img := by
  unfold Process.sync at hok ⊢
  split at hok
  · cases hok
  · rename_i d hd
    rcases h.syncFile_cases hT ht hready hd path with heq | ⟨cursor, carried, raw, img, heq, hwrote⟩
    · have hfail : (w.index.sync P T path .refused).2 = false := by
        rw [TurboQuantIndex.sync]
        split
        · rfl
        · rfl
      rw [heq] at hok
      cases hfail.symm.trans hok
    · refine ⟨d, cursor, carried, raw, img, hd, ?_, hwrote⟩
      rw [heq]
      exact Function.update_self ..

section Load

variable {x : TurboQuantIndex} {d : ℕ} {cursor : SyncCursor} {carried : List ℕ} {raw : List UInt8} {img : ParsedImage}
  {l : V7Load}

/-- A committed file loads, by path and as bytes. -/
theorem committed_loads (hT : T.Numbered) (hcm : Committed T (x.source P T) cursor raw img) (path : String) :
    ∃ l, loadImage T raw 0 0 = .ok l ∧ Loaded img (img.rows raw) 0 l ∧
      TurboQuantIndex.load P T raw path = .ok (TurboQuantIndex.fromV7 P T l (bindPath l path)) := by
  obtain ⟨l, hl, hL⟩ := hcm.load 0
  have hl : loadImage T raw 0 0 = .ok l := hl
  refine ⟨l, hl, hL, ?_⟩
  rw [TurboQuantIndex.load, if_pos (isV7_of_parseImage hcm.parse),
    (loadPath_eq_ok hT.leveled (hcm.declared hT.leveled) 0 0 l).mpr hl]
  rfl

/-- What it loads as has the dimension, the width and the calibration of the index. -/
theorem Kept.loaded_front (h : Kept P T x rows) (hcm : Committed T (x.source P T) cursor raw img)
    (hL : Loaded img (img.rows raw) 0 l) (path : Option String) :
    (TurboQuantIndex.fromV7 P T l path).dim = x.dim ∧ l.bitWidth = x.bitWidth ∧
      (TurboQuantIndex.fromV7 P T l path).tqplusShift = x.tqplusShift ∧
      (TurboQuantIndex.fromV7 P T l path).tqplusScale = x.tqplusScale := by
  have hs := @seeded_same P T x
  have hgeo := hcm.geo
  have hdim : l.dim = x.dim.getD 0 := by
    rw [hL.dim, hgeo]
    exact congrArg (Option.getD · 0) hs.dim
  have hbits : l.bitWidth = x.bitWidth := by
    rw [hL.bitWidth, hgeo]
    exact hs.bitWidth
  have hpair : ((TurboQuantIndex.fromV7 P T l path).tqplusShift, (TurboQuantIndex.fromV7 P T l path).tqplusScale) =
      (x.tqplusShift, x.tqplusScale) := by
    show TurboQuantIndex.normalizeCalibration l.tqplusShift l.tqplusScale = _
    rw [hL.tqplusShift, hL.tqplusScale, hcm.tqplusShift, hcm.tqplusScale, ← h.shaped.normal]
    exact congrArg₂ TurboQuantIndex.normalizeCalibration hs.tqplusShift hs.tqplusScale
  refine ⟨fromV7_dim path hdim fun d hd => ?_, hbits, congrArg Prod.fst hpair, congrArg Prod.snd hpair⟩
  have := (h.rep.dims d hd).2
  omega

/-- The file a sync wrote loads with the content of the index. -/
theorem Wrote.content (h : Kept P T x rows) (hw : Wrote P T x rows cursor carried raw img)
    (hl : loadImage T raw 0 0 = .ok l) (hL : Loaded img (img.rows raw) 0 l) (path : Option String) :
    SameContent P x (TurboQuantIndex.fromV7 P T l path) ∧
      (TurboQuantIndex.fromV7 P T l path).nVectors = x.nVectors := by
  have hn : l.nVectors = x.nVectors := by rw [hL.nVectors, hw.committed.nVectors, hw.nSynced]
  have hscales : l.scales = x.scales := by
    rw [hL.scales, ← hL.nVectors, hn, ← map_entry_range h.rep.scales]
    refine List.map_congr_left fun v hv => ?_
    exact congrArg Row.scale (hw.row v (List.mem_range.mp hv))
  have hrows : l.rows = rows := by
    refine hL.rows_eq hl (parseImage_ok hw.committed.parse).1.geo (h.rep.len.trans hn.symm) fun v hv => ?_
    exact congrArg Row.codes (hw.row v (hn ▸ hv))
  have hz : Rep P (TurboQuantIndex.fromV7 P T l path) rows := by
    rw [← hrows]
    exact rep_fromV7 (stored_of_loadImage hl) path
  obtain ⟨hdim, hbits, hshift, hscale⟩ := h.loaded_front hw.committed hL path
  refine ⟨⟨hdim, hbits, ?_, hscales, hshift, hscale⟩, hn⟩
  rw [hz.packed_eq, h.rep.packed_eq]

/-- The rows of an image without ids have none. -/
theorem IoV7.ParsedImage.rows_id (hk : img.geo.kind = 0) (v : ℕ) : (img.rows raw v).id = 0 := by
  rw [ParsedImage.rows, writeRows_apply]
  cases lastRec (img.flatOps ++ img.tailRows) v with
  | some r =>
    show (recRow img.geo r).id = 0
    rw [recRow, hk]
    rfl
  | none =>
    show (unitRows img.geo raw (img.nVectors / BLOCK) v).id = 0
    rw [unitRows]
    split
    · rw [unitRow, hk]
      rfl
    · rfl

/-- The rows a load holds are the rows of its image. -/
theorem IoV7.Loaded.row (hl : loadImage T raw 0 0 = .ok l) (hL : Loaded img (img.rows raw) 0 l) (hgeo : img.geo.Valid)
    (hk : img.geo.kind = 0) (path : Option String) {v : ℕ} (hv : v < img.nVectors) :
    (img.rows raw v).packed img.geo = (TurboQuantIndex.fromV7 P T l path).rowAt l.rows v := by
  have hrows : l.rows = (List.range l.nVectors).map fun v => ((img.rows raw v).packed img.geo).codes := by
    refine hL.rows_eq hl hgeo (by rw [List.length_map, List.length_range]) fun v hv => ?_
    rw [List.getD_eq_getElem?_getD, List.getElem?_map, List.getElem?_range hv]
    rfl
  have hcodes : l.rows.getD v [] = ((img.rows raw v).packed img.geo).codes := by
    rw [hrows, List.getD_eq_getElem?_getD, List.getElem?_map, List.getElem?_range (hL.nVectors ▸ hv)]
    rfl
  have hscale : entry l.scales v = (img.rows raw v).scale := by
    rw [hL.scales]
    exact entry_tabulate _ hv
  show Row.packed img.geo (img.rows raw v) = ⟨l.rows.getD v [], entry l.scales v, 0⟩
  rw [hcodes, hscale, ← IoV7.ParsedImage.rows_id hk v]
  rfl

/-- An index loaded from a committed file is bound to it. -/
theorem Kept.tracked_loaded (h : Kept P T x rows) (hd : x.dim = some d)
    (hcm : Committed T (x.source P T) cursor raw img) (hold : oldBlocks cursor < 2 ^ 32)
    (hnonce : cursor.nonce < 2 ^ 64)
    (hle : img.pendingSlots.toFinset.card ≤ MAX_OPS) (hl : loadImage T raw 0 0 = .ok l)
    (hL : Loaded img (img.rows raw) 0 l) {files : String → Option (List UInt8)} {path : String}
    (hf : files path = some raw) : ∃ rows', Kept P T (TurboQuantIndex.fromV7 P T l (bindPath l path)) rows' ∧
      Tracked T (TurboQuantIndex.fromV7 P T l (bindPath l path)) rows' files := by
  obtain ⟨rows', hkept⟩ := (Begun.loaded hl (bindPath l path) : Begun P T _).kept
  have hrows : rows' = l.rows := (rep_fromV7 (stored_of_loadImage hl) (bindPath l path)).unique hkept.rep
  subst hrows
  refine ⟨_, hkept, ?_⟩
  have hcursor : l.cursor = ⟨cursor.gen, cursor.nSynced, 0, cursor.nonce⟩ := by
    rw [hL.cursor, hcm.gen, hcm.nVectors, hcm.nonce]
  have htarget : bindPath l path = none ∨ bindPath l path = some path := by
    unfold bindPath
    split
    · exact Or.inr rfl
    · exact Or.inl rfl
  rcases htarget with htarget | htarget
  · rw [htarget]
    exact tracked_unbound rfl
  · rw [htarget]
    obtain ⟨hdim, hbits, hshift, hscale⟩ := h.loaded_front hcm hL (some path)
    refine ⟨fun c hc => ?_, fun c p raw' hc hp hf' _ _ => ?_⟩
    · obtain rfl : l.cursor = c := Option.some.inj hc
      rw [hcursor]
      exact Nat.zero_le _
    · obtain rfl : l.cursor = c := Option.some.inj hc
      obtain rfl : path = p := Option.some.inj hp
      obtain rfl := Option.some.inj (hf.symm.trans hf')
      refine ⟨d, (x.source P T).layout, img, ⟨hdim.trans hd, ?_, ?_, ?_, ?_, ?_, fun v hv _ => ?_⟩⟩
      · refine (hcm.congr (h.sameFront hd).symm ?_ ?_ ?_).congr
          ⟨rfl, rfl, hbits, rfl, rfl, hshift, hscale, ?_, ?_⟩ rfl rfl rfl
        · rw [hcursor]
        · rw [hcursor]
        · rw [hcursor]
        · simp only [TurboQuantIndex.front]
          rw [← hbits]
          rfl
        · simp only [TurboQuantIndex.front]
          rw [← hbits]
          rfl
      · exact congrArg List.toFinset hL.pendingSlots
      · have hp : (TurboQuantIndex.fromV7 P T l (some path)).syncPending = img.pendingSlots.toFinset :=
          congrArg List.toFinset hL.pendingSlots
        rw [hp]
        exact hle
      · rw [hcursor]
        exact hold
      · rw [hcursor]
        exact hnonce
      · have hv : v < img.nVectors := by
          rw [hcursor] at hv
          rw [hcm.nVectors]
          exact hv.trans_le (Nat.div_mul_le_self _ _)
        refine ⟨?_, hL.row hl (parseImage_ok hcm.parse).1.geo ?_ (some path) hv⟩
        · show v < l.nVectors
          rwa [hL.nVectors]
        · rw [hcm.geo]
          rfl

end Load

/-- Every process keeps the binding. -/
theorem Process.Reachable.tracked (hT : T.Numbered) (hK : K.Sized) (hfit : K.Paired) (h : Process.Reachable P T K S w) :
    ∃ rows, Kept P T w.index rows ∧ Tracked T w.index rows w.files := by
  induction h with
  | begun h hc =>
    obtain ⟨rows, hkept⟩ := h.kept
    exact ⟨rows, hkept, tracked_unbound hc⟩
  | step _ hs ih =>
    obtain ⟨rows, hkept, ht⟩ := ih
    exact Tracked.step hT hK hfit hkept ht hs
  | reopened _ hready hok hraw hf hz ih =>
    obtain ⟨rows, hkept, ht⟩ := ih
    obtain ⟨d, cursor, carried, raw', img, hd, hraw', hwrote⟩ := ht.wrote hT hkept _ hready hok
    obtain rfl := Option.some.inj (hraw.symm.trans hraw')
    obtain ⟨l, hl, hL, hload⟩ := committed_loads hT hwrote.committed _
    obtain rfl := Except.ok.inj (hload.symm.trans hz)
    refine hkept.tracked_loaded hd hwrote.committed ?_ hwrote.nonce_lt ?_ hl hL hf
    · rw [oldBlocks, hwrote.nSynced]
      exact hready.blocks_lt
    · rw [hwrote.carried_eq]
      exact (List.toFinset_card_le _).trans hwrote.carried_le
  | crashed _ hready hcut hf hz ih =>
    obtain ⟨rows, hkept, ht⟩ := ih
    obtain ⟨d, cursor, img, hd, hin, hcm, -⟩ := ht.cut hT hkept hready hcut
    obtain ⟨l, hl, hL, hload⟩ := committed_loads hT hcm _
    obtain rfl := Except.ok.inj (hload.symm.trans hz)
    exact hkept.tracked_loaded hd hcm hin.committable.old_lt hin.committable.nonce_lt
      (hin.pending ▸ hin.committable.pending_le) hl hL hf

/-- After any steps, a sync that returns `Ok` leaves a file that loads with the content of the index. -/
theorem synced_reloads (hT : T.Numbered) (hK : K.Sized) (hfit : K.Paired) (h : Process.Reachable P T K S w)
    (path : String) (hready : w.Ready T nonce) (hok : (w.sync P T path nonce).2 = true) :
    ∃ raw z, (w.sync P T path nonce).1.files path = some raw ∧ TurboQuantIndex.load P T raw path = .ok z ∧
      SameContent P w.index z ∧ z.nVectors = w.index.nVectors := by
  obtain ⟨rows, hkept, ht⟩ := h.tracked hT hK hfit
  obtain ⟨d, cursor, carried, raw, img, hd, hraw, hwrote⟩ := ht.wrote hT hkept path hready hok
  obtain ⟨l, hl, hL, hload⟩ := committed_loads hT hwrote.committed path
  obtain ⟨hsame, hn⟩ := hwrote.content hkept hl hL (bindPath l path)
  exact ⟨raw, _, hraw, hload, hsame, hn⟩

/-- Two rows synced to a file, and the process after. -/
def boundTwo : Process := (Process.sync plainHost levelTables ⟨twoRows, fun _ => none⟩ "index" 7).1

theorem ready_twoRows : (⟨twoRows, fun _ => none⟩ : Process).Ready levelTables 7 where
  loadable := ⟨by decide, rfl⟩
  blocks_lt := by decide
  nonce_lt := by decide
  gen_lt cursor hc := by cases hc

theorem ready_boundTwo : boundTwo.Ready levelTables 8 where
  loadable := ⟨by decide, rfl⟩
  blocks_lt := by decide
  nonce_lt := by decide
  gen_lt cursor hc := by
    obtain rfl : (⟨0, 2, 0, 7⟩ : SyncCursor) = cursor := Option.some.inj hc
    decide

theorem synced_reloads_two : ∃ raw z, (boundTwo.sync plainHost levelTables "copy" 8).1.files "copy" = some raw ∧
    TurboQuantIndex.load plainHost levelTables raw "copy" = .ok z ∧ SameContent plainHost boundTwo.index z ∧
      z.nVectors = boundTwo.index.nVectors :=
  synced_reloads (K := zeroKernels) (S := zeroScan) levelTables_numbered zeroKernels_sized zeroKernels_paired
    (.step (.begun (.opened twoRows_opened) rfl) (.sync _ "index" ready_twoRows)) "copy" ready_boundTwo
    (by decide +kernel)

/-! ## Cut syncs -/

/-- After any steps, a sync in place that is cut leaves a file that loads as the file before it. -/
theorem cut_sync_reloads (hT : T.Numbered) (hK : K.Sized) (hfit : K.Paired) (h : Process.Reachable P T K S w)
    (hready : w.Ready T nonce) {raw left : List UInt8} (hcut : w.Cut P T path raw left) (path' : String) :
    ∃ z z', TurboQuantIndex.load P T raw path' = .ok z ∧ TurboQuantIndex.load P T left path' = .ok z' ∧
      SameContent P z z' ∧ z'.nVectors = z.nVectors ∧ z'.syncCursor = z.syncCursor ∧
      z'.syncPending = z.syncPending := by
  obtain ⟨rows, hkept, ht⟩ := h.tracked hT hK hfit
  obtain ⟨d, cursor, img, hd, hin, hcm, hrows⟩ := ht.cut hT hkept hready hcut
  obtain ⟨l, hl, hL, hload⟩ := committed_loads hT hin.committed path'
  obtain ⟨l', hl', hL', hload'⟩ := committed_loads hT hcm path'
  have hgeo := (parseImage_ok hcm.parse).1.geo
  have hcursor : l'.cursor = l.cursor := hL'.cursor.trans hL.cursor.symm
  have hbind : bindPath l' path' = bindPath l path' := by rw [bindPath, bindPath, hcursor]
  have hn : l'.nVectors = l.nVectors := hL'.nVectors.trans hL.nVectors.symm
  have hscales : l'.scales = l.scales := by
    rw [hL'.scales, hL.scales]
    refine List.map_congr_left fun v hv => ?_
    show (Row.packed img.geo (img.rows left v)).scale = (Row.packed img.geo (img.rows raw v)).scale
    rw [hrows v (List.mem_range.mp hv)]
  have hcodes : l'.rows = l.rows := by
    refine hL'.rows_eq hl' hgeo ?_ fun v hv => ?_
    · rw [l.length_rows, hn]
    · rw [hL'.nVectors] at hv
      have hkind : img.geo.kind = 0 := by rw [hcm.geo]; rfl
      rw [hrows v hv]
      exact congrArg Row.codes (@IoV7.Loaded.row P T raw img l hl hL hgeo hkind none v hv)
  obtain ⟨hdim, hbits, hshift, hscale⟩ := hkept.loaded_front hin.committed hL (bindPath l path')
  obtain ⟨hdim', hbits', hshift', hscale'⟩ := hkept.loaded_front hcm hL' (bindPath l' path')
  have hz := @rep_fromV7 P T l (stored_of_loadImage hl) (bindPath l path')
  have hz' := @rep_fromV7 P T l' (stored_of_loadImage hl') (bindPath l' path')
  refine ⟨_, _, hload, hload', ⟨hdim'.trans hdim.symm, hbits'.trans hbits.symm, ?_, hscales, hshift'.trans hshift.symm,
    hscale'.trans hscale.symm⟩, hn, ?_, ?_⟩
  · rw [hz'.packed_eq, hz.packed_eq, hcodes]
  · show (bindPath l' path').map (fun _ => l'.cursor) = (bindPath l path').map fun _ => l.cursor
    rw [hbind, hcursor]
  · show l'.pendingSlots.toFinset = l.pendingSlots.toFinset
    rw [hL'.pendingSlots, hL.pendingSlots]

/-- A sync of the two rows again, cut before any write lands. -/
theorem boundTwo_cut : ∃ raw, boundTwo.Cut plainHost levelTables "index" raw raw := by
  obtain ⟨rows, hkept⟩ := (Begun.opened twoRows_opened : Begun plainHost levelTables twoRows).kept
  have hwrote := hkept.wrote_full levelTables_numbered ready_twoRows rfl
  have hw : SourceWf levelTables (twoRows.source plainHost levelTables) :=
    hkept.source_wf levelTables_numbered ready_twoRows.loadable ready_twoRows.n_lt
  have himg := fullImage_writeImage hw 0 7
  obtain ⟨clearTarget, hstate⟩ := hwrote.committed.intact levelTables_leveled (Nat.zero_le 1)
  obtain ⟨plan, hplan⟩ := @planIncremental_of_card (boundTwo.index.source plainHost levelTables) ⟨0, 2, 0, 7⟩
    boundTwo.index.syncPending boundTwo.index.syncFresh (by decide) clearTarget
  refine ⟨writeImage (twoRows.source plainHost levelTables) 0 7,
    @Process.Cut.cut plainHost levelTables boundTwo "index" _ ⟨0, 2, 0, 7⟩ clearTarget plan [] rfl rfl ?_ rfl
      hstate hplan (fun op hop => by cases hop) fun next hnext => ?_⟩
  · exact Function.update_self "index" (some (writeImage (twoRows.source plainHost levelTables) 0 7)) fun _ => none
  · cases (parseHeaderSlot_zeros himg.zeros).symm.trans hnext

theorem cut_sync_reloads_two : ∃ raw z z', TurboQuantIndex.load plainHost levelTables raw "index" = .ok z ∧
    TurboQuantIndex.load plainHost levelTables raw "index" = .ok z' ∧ SameContent plainHost z z' := by
  obtain ⟨raw, hcut⟩ := boundTwo_cut
  obtain ⟨z, z', hz, hz', hsame, -⟩ := cut_sync_reloads (K := zeroKernels) (S := zeroScan) levelTables_numbered
    zeroKernels_sized zeroKernels_paired (.step (.begun (.opened twoRows_opened) rfl) (.sync _ "index" ready_twoRows))
    ready_boundTwo hcut "index"
  exact ⟨raw, z, z', hz, hz', hsame⟩

end Process

end Turbovec
