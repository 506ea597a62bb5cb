import Turbovec.Index.Content
import Turbovec.Index.IdMapRuns

/-!
# Failed mutations

What an add or a calibration that fails leaves of an index. The code layouts may be live in another combination than
before and members derived from the dimension may be there, but no caller can tell: the content, the sync state and
the images are as before, and whatever is called next ends as it would have ended.
-/

namespace Turbovec

open Pack IoV7 Slice

/-! ## Replies -/

namespace TurboQuantIndex

/-- What a caller gets back. -/
inductive Reply
  | added (o : Outcome AddError)
  | calibrated (o : Outcome CalibrateError)
  | removed (last : Option ℕ)
  | found (r : Option (Except SearchError SearchResults))
  | codes (packed : List UInt8)
  | prepared
  | synced (ok : Bool)

/-- A mutation that did not return `Ok`. -/
def Reply.Failed : Reply → Prop
  | added o => o ≠ .ok
  | calibrated o => o ≠ .ok
  | _ => False

/-- No unwind goes out of the call's kernels or repacks. -/
def Call.Unfaulted : Call → Prop
  | .add _ _ fault => fault = none
  | .calibrate _ _ fault => fault = none
  | _ => True

theorem Call.Unfaulted.guarded {c : Call} (h : c.Unfaulted) : c.Guarded := by
  cases c with
  | add vectors dim fault =>
    intro f hf
    rw [show fault = none from h] at hf
    cases hf
  | _ => trivial

/-- What a call returns. -/
def reply (P : Platform) (T : Tables) (K : Kernels) (S : ScanKernels) (x : TurboQuantIndex) : Call → Reply
  | .add vectors dim fault => .added (x.add2d P T K vectors dim fault).2
  | .calibrate sample dim fault => .calibrated (x.calibrate2d P T K sample dim fault).2
  | .swapRemove idx => .removed ((x.swapRemove P idx).map Prod.snd)
  | .search queries k mask threshold => .found (x.trySearchWithOptions P T S queries k mask threshold).2
  | .packedCodes => .codes (x.readPacked P).2
  | .prepare => .prepared
  | .sync path disk => .synced (x.sync P T path disk).2

end TurboQuantIndex

/-! ## Indexes no caller can tell apart -/

/-- The same content and the same sync state, short of the removals' captures. -/
structure Agrees (P : Platform) (x y : TurboQuantIndex) : Prop where
  content : SameContent P x y
  nVectors : y.nVectors = x.nVectors
  calibGen : y.calibGen = x.calibGen
  syncCursor : y.syncCursor = x.syncCursor
  syncPath : y.syncPath = x.syncPath
  syncPending : y.syncPending = x.syncPending
  syncFresh : y.syncFresh = x.syncFresh

/-- What a failed call may change: whether the packed rows are set, and what is derived from the dimension. -/
structure Alike (P : Platform) (x y : TurboQuantIndex) : Prop where
  frame : ∃ packedCodes rotation boundaries centroids, y = { x with packedCodes, rotation, boundaries, centroids }
  packed : y.packed P = x.packed P

section Failed

variable {P : Platform} {T : Tables} {K : Kernels} {S : ScanKernels} {x y : TurboQuantIndex}
  {rows : List (List UInt8)} {dim : ℕ}

theorem Alike.agrees (h : Alike P x y) : Agrees P x y := by
  obtain ⟨packedCodes, rotation, boundaries, centroids, rfl⟩ := h.frame
  exact ⟨⟨rfl, rfl, h.packed, rfl, rfl, rfl⟩, rfl, rfl, rfl, rfl, rfl, rfl⟩

/-- Two representations of one list of rows have the same packed rows. -/
theorem Rep.packed_congr (hx : Rep P x rows) (hy : Rep P y rows) : y.packed P = x.packed P := by
  rw [hx.packed_eq, hy.packed_eq]

/-- Each of two indexes that agree may be left with other code layouts and other derived members. -/
theorem Agrees.frame (ha : Agrees P x y) {x' y' : TurboQuantIndex} (hx' : Rep P x' rows) (hy' : Rep P y' rows)
    (hfx : ∃ packedCodes rotation boundaries centroids blocked,
      x' = { x with packedCodes, rotation, boundaries, centroids, blocked })
    (hfy : ∃ packedCodes rotation boundaries centroids blocked,
      y' = { y with packedCodes, rotation, boundaries, centroids, blocked }) : Agrees P x' y' := by
  have hpacked := hx'.packed_congr hy'
  obtain ⟨_, _, _, _, _, rfl⟩ := hfx
  obtain ⟨_, _, _, _, _, rfl⟩ := hfy
  exact ⟨⟨ha.content.dim, ha.content.bitWidth, hpacked, ha.content.scales, ha.content.tqplusShift,
    ha.content.tqplusScale⟩, ha.nVectors, ha.calibGen, ha.syncCursor, ha.syncPath, ha.syncPending, ha.syncFresh⟩

/-- An add that fails leaves the index alike. -/
theorem Alike.add2d_failed (h : Rep P x rows) (hK : K.Sized) (vectors : List F32) (dim : ℕ) {fault : Option Fault}
    (hf : ∀ f ∈ fault, f.Guarded) (hfail : (x.add2d P T K vectors dim fault).2 ≠ .ok) :
    Alike P x (x.add2d P T K vectors dim fault).1 := by
  have hrep := h.add2d (T := T) hK vectors dim hf
  have had := TurboQuantIndex.added P T K x vectors dim fault
  generalize x.add2d P T K vectors dim fault = r at hrep had hfail ⊢
  cases had with
  | refused e => exact ⟨⟨_, _, _, _, rfl⟩, rfl⟩
  | ragged _ => exact ⟨⟨_, _, _, _, rfl⟩, rfl⟩
  | nothing _ => exact absurd rfl hfail
  | done _ _ => exact absurd rfl hfail
  | @panicked x' hdim hadd =>
    refine ⟨?_, h.packed_congr hrep⟩
    -- what the add itself leaves, under the dimension it entered
    have hframe : ∃ packedCodes rotation boundaries centroids,
        x' = { x.entered dim with packedCodes, rotation, boundaries, centroids } := by
      unfold TurboQuantIndex.add at hadd
      dsimp only at hadd
      split at hadd
      · cases hadd
        exact ⟨_, _, _, _, rfl⟩
      · split at hadd
        · cases hadd
        · split at hadd
          · cases hadd
            exact ⟨_, _, _, _, rfl⟩
          · rw [Rep.appendRows_unwound hf hadd]
            split
            · exact ⟨_, _, _, _, rfl⟩
            · exact ⟨_, _, _, _, rfl⟩
    obtain ⟨packedCodes, rotation, boundaries, centroids, rfl⟩ := hframe
    unfold TurboQuantIndex.unwound
    split
    · rename_i hnone
      rw [Option.isNone_iff_eq_none] at hnone
      exact ⟨packedCodes, none, none, none, congrArg (fun d => { x with
        dim := d
        packedCodes
        rotation := none
        boundaries := none
        centroids := none }) hnone.symm⟩
    · rename_i hsome
      obtain ⟨d, hd⟩ := Option.ne_none_iff_exists'.mp fun hnone : x.dim = none => hsome (by rw [hnone]; rfl)
      rw [TurboQuantIndex.entered_eq hdim hd]
      exact ⟨_, _, _, _, rfl⟩

/-- A calibration that fails leaves the index alike. -/
theorem Alike.calibrate2d_failed (h : Rep P x rows) (hK : K.Sized) (sample : List F32) (dim : ℕ)
    (fault : Option Fault) (hfail : (x.calibrate2d P T K sample dim fault).2 ≠ .ok) :
    Alike P x (x.calibrate2d P T K sample dim fault).1 := by
  have hrep := h.calibrate2d (T := T) hK sample dim fault
  have hcal := TurboQuantIndex.calibrated P T K x sample dim fault
  generalize x.calibrate2d P T K sample dim fault = r at hrep hcal hfail ⊢
  cases hcal with
  | refused e => exact ⟨⟨_, _, _, _, rfl⟩, rfl⟩
  | abandoned hdim o ho =>
    refine ⟨?_, ?_⟩
    · unfold TurboQuantIndex.uncommitted
      split
      · exact ⟨_, _, _, _, rfl⟩
      · exact ⟨_, _, _, _, rfl⟩
    · exact h.packed_congr (h.warm dim).uncommitted
  | panicked _ _ => exact ⟨⟨_, _, _, _, rfl⟩, h.packed_congr hrep⟩
  | done _ => exact absurd rfl hfail

/-- A failed call leaves the index alike. -/
theorem Alike.failed (h : Rep P x rows) (hK : K.Sized) {c : TurboQuantIndex.Call} (hg : c.Guarded)
    (hfail : (x.reply P T K S c).Failed) : Alike P x (x.after P T K S c) := by
  cases c with
  | add vectors dim fault => exact Alike.add2d_failed h hK vectors dim hg hfail
  | calibrate sample dim fault => exact Alike.calibrate2d_failed h hK sample dim fault hfail
  | swapRemove idx => cases hfail
  | search queries k mask threshold => cases hfail
  | packedCodes => cases hfail
  | prepare => cases hfail
  | sync path disk => cases hfail

/-! ## The next call -/

/-- An append that does not unwind. -/
theorem appendRows_done (z : TurboQuantIndex) (vectors : List F32) (n dim : ℕ) :
    ∃ packedCodes blocked, z.appendRows P K vectors n dim none = .ok { z with
      packedCodes, blocked
      nVectors := z.nVectors + n
      scales := z.scales ++ (K.encode vectors n dim (z.rotation.getD dim) (z.boundaries.getD [])
        (z.centroids.getD []) z.bitWidth z.calibration).2 } := by
  unfold TurboQuantIndex.appendRows
  dsimp only
  split
  · exact ⟨_, _, rfl⟩
  · cases z.blocked with
    | none => exact ⟨_, _, rfl⟩
    | some cache => exact ⟨_, _, rfl⟩

variable (P T K) in
/-- How an add without a fault ends depends on the dimension alone; one that adds rows appends their encoding. -/
theorem add2d_uniform (x : TurboQuantIndex) (vectors : List F32) (dim : ℕ) :
    (∃ o, ∀ y : TurboQuantIndex, y.dim = x.dim → y.add2d P T K vectors dim none = (y, o)) ∨
      x.checkAddDim dim = .ok () ∧ ∀ y : TurboQuantIndex, y.dim = x.dim → ∃ packedCodes blocked,
        y.add2d P T K vectors dim none = ({ (y.entered dim).warm T dim with
          packedCodes, blocked
          nVectors := y.nVectors + vectors.length / dim
          scales := y.scales ++ (encodedRows T K y vectors dim).2 }, .ok) := by
  have hcheck (y : TurboQuantIndex) (hy : y.dim = x.dim) : y.checkAddDim dim = x.checkAddDim dim := by
    unfold TurboQuantIndex.checkAddDim
    rw [hy]
  cases hdim : x.checkAddDim dim with
  | error e =>
    refine Or.inl ⟨.err e, fun y hy => ?_⟩
    unfold TurboQuantIndex.add2d
    rw [hcheck y hy, hdim]
  | ok u =>
    cases hcoord : firstInvalidCoord vectors dim with
    | some c =>
      refine Or.inl ⟨.err (.invalidInputValue c.1 c.2.1 c.2.2), fun y hy => ?_⟩
      unfold TurboQuantIndex.add2d
      rw [hcheck y hy, hdim, hcoord]
    | none =>
      by_cases hlen : vectors.length % dim ≠ 0
      · refine Or.inl ⟨.panic, fun y hy => ?_⟩
        unfold TurboQuantIndex.add2d
        rw [hcheck y hy, hdim, hcoord]
        exact if_pos hlen
      · by_cases hempty : vectors.isEmpty = true
        · refine Or.inl ⟨.ok, fun y hy => ?_⟩
          unfold TurboQuantIndex.add2d
          rw [hcheck y hy, hdim, hcoord]
          exact (if_neg hlen).trans (if_pos hempty)
        · refine Or.inr ⟨rfl, fun y hy => ?_⟩
          have hmul : vectors.length = vectors.length / dim * dim :=
            (Nat.div_mul_cancel (Nat.dvd_of_mod_eq_zero (not_not.mp hlen))).symm
          have hn : vectors.length / dim ≠ 0 := by
            intro h0
            rw [h0, Nat.zero_mul, List.length_eq_zero_iff] at hmul
            exact hempty (List.isEmpty_iff.mpr hmul)
          -- which layouts are live decides which are left live, not what is appended
          obtain ⟨packedCodes, blocked, happ⟩ := appendRows_done (P := P) (K := K) ((y.entered dim).warm T dim)
            vectors (vectors.length / dim) dim
          refine ⟨packedCodes, blocked, ?_⟩
          have hadd : TurboQuantIndex.add P T K (y.entered dim) vectors dim none = .ok { (y.entered dim).warm T dim with
              packedCodes, blocked
              nVectors := y.nVectors + vectors.length / dim
              scales := y.scales ++ (encodedRows T K y vectors dim).2 } := by
            unfold TurboQuantIndex.add
            dsimp only
            rw [if_neg (not_not.mpr hmul), if_neg hn, hcoord]
            exact happ
          have hy' := hcheck y hy
          unfold TurboQuantIndex.add2d
          rw [hy', hdim, hcoord]
          dsimp only
          rw [if_neg hlen, if_neg hempty]
          cases hd : y.dim with
          | none =>
            dsimp only
            rw [show ({ y with dim := some dim } : TurboQuantIndex) = y.entered dim from rfl, hadd]
          | some d =>
            dsimp only
            have henter := TurboQuantIndex.entered_eq (hy'.trans hdim) hd
            rw [henter] at hadd ⊢
            rw [hadd]

/-- The derived members of alike indexes are the same where they are used. -/
theorem Alike.derived (h : Alike P x y) (hx : Keyed T x) (hy : Keyed T y) (hdim : ∀ d, x.dim = some d → d = dim) :
    y.rotation.getD dim = x.rotation.getD dim ∧
      y.boundaries.getD (T.codebook y.bitWidth dim).1 = x.boundaries.getD (T.codebook x.bitWidth dim).1 ∧
      y.centroids.getD (T.codebook y.bitWidth dim).2 = x.centroids.getD (T.codebook x.bitWidth dim).2 := by
  have ha := h.agrees
  have hdim' : ∀ d, y.dim = some d → d = dim := fun d hd => hdim d (ha.content.dim.symm.trans hd)
  obtain ⟨hr, hb, hc⟩ := hx.getD hdim
  obtain ⟨hr', hb', hc'⟩ := hy.getD hdim'
  rw [hr, hb, hc, hr', hb', hc', ha.content.bitWidth]
  exact ⟨rfl, rfl, rfl⟩

/-- The next add ends the same on both. -/
theorem Alike.add2d (h : Alike P x y) (hx : Rep P x rows) (hy : Rep P y rows) (hkx : Keyed T x) (hky : Keyed T y)
    (hK : K.Sized) (vectors : List F32) (dim : ℕ) :
    (y.add2d P T K vectors dim none).2 = (x.add2d P T K vectors dim none).2 ∧
      Agrees P (x.add2d P T K vectors dim none).1 (y.add2d P T K vectors dim none).1 := by
  have ha := h.agrees
  have hnone : ∀ f ∈ (none : Option Fault), f.Guarded := fun _ hf => by cases hf
  have hrx := hx.add2d (T := T) hK vectors dim hnone
  have hry := hy.add2d (T := T) hK vectors dim hnone
  obtain ⟨o, ho⟩ | ⟨hdim, hok⟩ := add2d_uniform P T K x vectors dim
  · rw [ho x rfl, ho y ha.content.dim]
    exact ⟨rfl, ha⟩
  · obtain ⟨hr, hb, hc⟩ := h.derived hkx hky fun d hd => TurboQuantIndex.eq_of_checkAddDim hdim hd
    have henc : encodedRows T K y vectors dim = encodedRows T K x vectors dim := by
      have hcal : y.calibration = x.calibration := by
        unfold TurboQuantIndex.calibration
        rw [ha.content.tqplusShift, ha.content.tqplusScale]
      show K.encode vectors _ dim (y.rotation.getD dim) (y.boundaries.getD (T.codebook y.bitWidth dim).1)
          (y.centroids.getD (T.codebook y.bitWidth dim).2) y.bitWidth y.calibration =
        K.encode vectors _ dim (x.rotation.getD dim) (x.boundaries.getD (T.codebook x.bitWidth dim).1)
          (x.centroids.getD (T.codebook x.bitWidth dim).2) x.bitWidth x.calibration
      rw [hr, hb, hc, ha.content.bitWidth, hcal]
    obtain ⟨packedCodes, blocked, hresx⟩ := hok x rfl
    obtain ⟨packedCodes', blocked', hresy⟩ := hok y ha.content.dim
    rw [hresx] at hrx ⊢
    rw [hresy] at hry ⊢
    dsimp only at hrx hry
    have hrows : rowsOf (y.bitWidth * (dim / 8)) (vectors.length / dim) (encodedRows T K y vectors dim).1 =
        rowsOf (x.bitWidth * (dim / 8)) (vectors.length / dim) (encodedRows T K x vectors dim).1 := by
      rw [henc, ha.content.bitWidth]
    rw [hrows] at hry
    refine ⟨rfl, ⟨rfl, ha.content.bitWidth, hrx.packed_congr hry, ?_, ha.content.tqplusShift,
      ha.content.tqplusScale⟩, ?_, ha.calibGen, ha.syncCursor, ha.syncPath, ha.syncPending, ha.syncFresh⟩
    · dsimp only
      rw [ha.content.scales, henc]
    · dsimp only
      rw [ha.nVectors]

/-- How a calibration without a fault ends: the tests on the sample are the dimension's, then comes the fit. -/
theorem calibrate2d_uniform (P : Platform) (T : Tables) (K : Kernels) (x : TurboQuantIndex) (sample : List F32)
    (dim : ℕ) :
    (∃ o, o ≠ .ok ∧ ∀ y : TurboQuantIndex, y.dim = x.dim → y.calibrate2d P T K sample dim none = (y, o)) ∨
      x.checkCalibrateDim dim = .ok () ∧ ∀ y : TurboQuantIndex, y.dim = x.dim →
        y.calibrate2d P T K sample dim none =
          if (TurboQuantIndex.fitted T K y sample dim).1.all (fun v => F32.eq v 0) &&
              (TurboQuantIndex.fitted T K y sample dim).2.all (fun v => F32.eq v 1) then
            ((y.warm T dim).uncommitted, .err .degenerateSample)
          else ((y.warm T dim).commitCalibration P K dim (TurboQuantIndex.fitted T K y sample dim), .ok) := by
  have hcheck (y : TurboQuantIndex) (hy : y.dim = x.dim) : y.checkCalibrateDim dim = x.checkCalibrateDim dim := by
    unfold TurboQuantIndex.checkCalibrateDim
    rw [hy]
  cases hdim : x.checkCalibrateDim dim with
  | error e =>
    refine Or.inl ⟨.err e, by simp, fun y hy => ?_⟩
    unfold TurboQuantIndex.calibrate2d
    rw [hcheck y hy, hdim]
  | ok u =>
    by_cases hlen : sample.length % dim ≠ 0
    · refine Or.inl ⟨.err (.sampleBufferNotMultipleOfDim sample.length dim), by simp, fun y hy => ?_⟩
      unfold TurboQuantIndex.calibrate2d
      rw [hcheck y hy, hdim]
      exact if_pos hlen
    · by_cases hn : sample.length / dim < MIN_CALIBRATION_ROWS
      · refine Or.inl ⟨.err (.sampleTooSmall (sample.length / dim) MIN_CALIBRATION_ROWS), by simp, fun y hy => ?_⟩
        unfold TurboQuantIndex.calibrate2d
        rw [hcheck y hy, hdim]
        exact (if_neg hlen).trans (if_pos hn)
      · cases hcoord : firstInvalidCoord sample dim with
        | some c =>
          refine Or.inl ⟨.err (.invalidInputValue c.1 c.2.1 c.2.2), by simp, fun y hy => ?_⟩
          unfold TurboQuantIndex.calibrate2d
          rw [hcheck y hy, hdim, hcoord]
          exact (if_neg hlen).trans (if_neg hn)
        | none =>
          refine Or.inr ⟨rfl, fun y hy => ?_⟩
          unfold TurboQuantIndex.calibrate2d
          rw [hcheck y hy, hdim, hcoord]
          dsimp only
          rw [if_neg hlen, if_neg hn, if_neg (fun hn => by cases hn), show (decide ((y.warm T dim).nVectors > 0) &&
            decide (none = some Fault.reencode)) = false by simp]
          rfl

variable (T) in
/-- A calibration given up leaves all but the derived members. -/
theorem uncommitted_frame (x : TurboQuantIndex) (dim : ℕ) : ∃ packedCodes rotation boundaries centroids blocked,
    (x.warm T dim).uncommitted = { x with packedCodes, rotation, boundaries, centroids, blocked } := by
  unfold TurboQuantIndex.uncommitted
  split
  · exact ⟨_, _, _, _, _, rfl⟩
  · exact ⟨_, _, _, _, _, rfl⟩

/-- The next calibration ends the same on both. -/
theorem Alike.calibrate2d (h : Alike P x y) (hx : Rep P x rows) (hy : Rep P y rows) (hkx : Keyed T x) (hky : Keyed T y)
    (hK : K.Sized) (sample : List F32) (dim : ℕ) :
    (y.calibrate2d P T K sample dim none).2 = (x.calibrate2d P T K sample dim none).2 ∧
      Agrees P (x.calibrate2d P T K sample dim none).1 (y.calibrate2d P T K sample dim none).1 := by
  have ha := h.agrees
  obtain ⟨o, -, ho⟩ | ⟨hdim, hok⟩ := calibrate2d_uniform P T K x sample dim
  · rw [ho x rfl, ho y ha.content.dim]
    exact ⟨rfl, ha⟩
  · have hown : ∀ d, x.dim = some d → d = dim :=
      fun d hd => TurboQuantIndex.eq_of_checkAddDim (Rep.checkAddDim_of_calibrate hdim) hd
    have hdim' : y.checkCalibrateDim dim = .ok () := by
      rw [← hdim]
      unfold TurboQuantIndex.checkCalibrateDim
      rw [ha.content.dim]
    obtain ⟨hr, hb, hc⟩ := h.derived hkx hky hown
    have hfit : TurboQuantIndex.fitted T K y sample dim = TurboQuantIndex.fitted T K x sample dim := by
      show K.fitCalibration sample _ dim (y.rotation.getD dim) (y.centroids.getD (T.codebook y.bitWidth dim).2) =
        K.fitCalibration sample _ dim (x.rotation.getD dim) (x.centroids.getD (T.codebook x.bitWidth dim).2)
      rw [hr, hc]
    rw [hok x rfl, hok y ha.content.dim, hfit]
    generalize TurboQuantIndex.fitted T K x sample dim = pair
    split
    · exact ⟨rfl, ha.frame (hx.warm (T := T) dim).uncommitted (hy.warm (T := T) dim).uncommitted
        (uncommitted_frame T x dim) (uncommitted_frame T y dim)⟩
    -- the re-encoding reads the packed rows, which both have
    · have hre : reencodedRows P T K y dim pair = reencodedRows P T K x dim pair := by
        have hold : y.oldPair dim = x.oldPair dim := by
          unfold TurboQuantIndex.oldPair
          rw [ha.content.tqplusShift, ha.content.tqplusScale]
        show K.reencode (y.packed P) y.scales dim y.bitWidth (y.boundaries.getD (T.codebook y.bitWidth dim).1)
            (y.centroids.getD (T.codebook y.bitWidth dim).2) (y.oldPair dim) pair =
          K.reencode (x.packed P) x.scales dim x.bitWidth (x.boundaries.getD (T.codebook x.bitWidth dim).1)
            (x.centroids.getD (T.codebook x.bitWidth dim).2) (x.oldPair dim) pair
        rw [hb, hc, ha.content.packed, ha.content.scales, ha.content.bitWidth, hold]
      have hrx := hx.commitCalibration (T := T) hK hdim pair
      have hry := hy.commitCalibration (T := T) hK hdim' pair
      rw [hre, ha.content.bitWidth, ha.nVectors] at hry
      have hcommit (z : TurboQuantIndex) : (z.warm T dim).commitCalibration P K dim pair =
          { z.warm T dim with
            packedCodes := if z.nVectors > 0 then some (reencodedRows P T K z dim pair).1 else z.packedCodes
            scales := if z.nVectors > 0 then (reencodedRows P T K z dim pair).2 else z.scales
            blocked := if z.nVectors > 0 then none else z.blocked
            dim := some dim
            tqplusShift := pair.1
            tqplusScale := pair.2
            calibGen := z.calibGen + 1
            syncCaptureBuf := []
            syncCaptureAt := [] } := by
        have hw : (z.warm T dim).nVectors = z.nVectors := rfl
        unfold TurboQuantIndex.commitCalibration
        dsimp only
        rw [hw]
        by_cases hn : z.nVectors > 0
        · simp only [if_pos hn]
          rfl
        · simp only [if_neg hn]
          rfl
      have hpacked := hrx.packed_congr hry
      rw [hcommit x, hcommit y] at hpacked ⊢
      refine ⟨rfl, ⟨rfl, ha.content.bitWidth, hpacked, ?_, rfl, rfl⟩, ha.nVectors, ?_, ha.syncCursor, ha.syncPath,
        ha.syncPending, ha.syncFresh⟩
      · dsimp only
        rw [ha.nVectors, hre, ha.content.scales]
      · dsimp only
        rw [ha.calibGen]

theorem markDirty_congr {z : TurboQuantIndex} (hc : z.syncCursor = y.syncCursor) (hf : z.syncFresh = y.syncFresh)
    (slot : ℕ) : (z.markDirty slot).syncCursor = (y.markDirty slot).syncCursor ∧
      (z.markDirty slot).syncFresh = (y.markDirty slot).syncFresh := by
  have hw : z.syncWatermark = y.syncWatermark := by
    unfold TurboQuantIndex.syncWatermark
    rw [hc]
  unfold TurboQuantIndex.markDirty
  rw [hw]
  split
  · exact ⟨hc, congrArg (insert slot) hf⟩
  · exact ⟨hc, hf⟩

/-- The marks of a removal depend on the sync state alone. -/
theorem markRemoval_congr {z : TurboQuantIndex} (hc : z.syncCursor = y.syncCursor) (hf : z.syncFresh = y.syncFresh)
    (idx last : ℕ) : (z.markRemoval idx last).syncFresh = (y.markRemoval idx last).syncFresh := by
  unfold TurboQuantIndex.markRemoval
  rw [hc]
  split
  · obtain ⟨hc', hf'⟩ := markDirty_congr hc hf idx
    dsimp only
    split
    · exact (markDirty_congr hc' hf' last).2
    · exact hf'
  · exact hf

/-- The next removal ends the same on both. -/
theorem Alike.swapRemove (h : Alike P x y) (hx : Rep P x rows) (hy : Rep P y rows) (idx : ℕ) :
    (y.swapRemove P idx).map Prod.snd = (x.swapRemove P idx).map Prod.snd ∧
      Agrees P (((x.swapRemove P idx).map Prod.fst).getD x) (((y.swapRemove P idx).map Prod.fst).getD y) := by
  have ha := h.agrees
  by_cases hidx : idx < x.nVectors
  · obtain ⟨d, hd⟩ := Option.isSome_iff_exists.mp (hx.dimmed (by omega))
    -- one removes from the packed rows and the other from the cache, where both represent the rows that are left
    have hidy : idx < y.nVectors := by
      rw [ha.nVectors]
      exact hidx
    obtain ⟨x₁, hx₁, hrx⟩ := hx.swapRemove hidx
    obtain ⟨y₁, hy₁, hry⟩ := hy.swapRemove hidy
    obtain ⟨fresh, hfx⟩ := markRemoval_eq x idx (x.nVectors - 1)
    obtain ⟨fresh', hfy⟩ := markRemoval_eq y idx (x.nVectors - 1)
    have hfresh : fresh' = fresh := by
      have := markRemoval_congr ha.syncCursor ha.syncFresh idx (x.nVectors - 1)
      rw [hfx, hfy] at this
      exact this
    have hex := TurboQuantIndex.swapRemove_eq (P := P) x hidx hd
    have hey := TurboQuantIndex.swapRemove_eq (P := P) y hidy (ha.content.dim.trans hd)
    dsimp only at hex hey
    rw [hx₁, hfx, Option.some.injEq, Prod.mk.injEq] at hex
    rw [hy₁, ha.nVectors, hfy, Option.some.injEq, Prod.mk.injEq] at hey
    rw [hx₁, hy₁, ha.nVectors]
    refine ⟨rfl, ?_⟩
    show Agrees P x₁ y₁
    have hpacked := hrx.packed_congr hry
    rw [hex.1, hey.1] at hpacked ⊢
    refine ⟨⟨ha.content.dim, ha.content.bitWidth, hpacked, ?_, ha.content.tqplusShift, ha.content.tqplusScale⟩,
      rfl, ha.calibGen, ha.syncCursor, ha.syncPath, ha.syncPending, hfresh⟩
    show (if _ then y.scales.set _ _ else y.scales).take _ = (if _ then x.scales.set _ _ else x.scales).take _
    rw [ha.content.scales]
    rfl
  · have hnone (z : TurboQuantIndex) (hz : ¬idx < z.nVectors) : z.swapRemove P idx = none := by
      unfold TurboQuantIndex.swapRemove
      rw [guard, if_neg hz]
      rfl
    rw [hnone x hidx, hnone y (by rw [ha.nVectors]; exact hidx)]
    exact ⟨rfl, ha⟩

/-! ### Searches -/

/-- A search leaves all but the derived members and the code layouts. -/
theorem prepared_frame (x : TurboQuantIndex) (dim : ℕ) : ∃ packedCodes rotation boundaries centroids blocked,
    x.prepared P T dim = { x with packedCodes, rotation, boundaries, centroids, blocked } := by
  unfold TurboQuantIndex.prepared
  dsimp only
  split
  · exact ⟨_, _, _, _, _, rfl⟩
  · exact ⟨_, _, _, _, _, rfl⟩

theorem search_frame (x : TurboQuantIndex) (queries : List F32) (k : ℕ) (mask : Option (List Bool))
    (threshold : Option F32) : ∃ packedCodes rotation boundaries centroids blocked,
    (x.trySearchWithOptions P T S queries k mask threshold).1 =
      { x with packedCodes, rotation, boundaries, centroids, blocked } := by
  unfold TurboQuantIndex.trySearchWithOptions
  dsimp only
  split
  · exact ⟨_, _, _, _, _, rfl⟩
  · split
    · exact ⟨_, _, _, _, _, rfl⟩
    · rename_i dim _
      obtain ⟨packedCodes, rotation, boundaries, centroids, blocked, hp⟩ := prepared_frame (P := P) (T := T) x dim
      split
      · exact ⟨_, _, _, _, _, rfl⟩
      · split
        · exact ⟨_, _, _, _, _, rfl⟩
        · split
          · split
            · split
              · exact ⟨_, _, _, _, _, rfl⟩
              · exact ⟨_, _, _, _, _, rfl⟩
            · exact ⟨_, _, _, _, _, rfl⟩
          · rw [hp]
            split
            · exact ⟨_, _, _, _, _, rfl⟩
            · exact ⟨_, _, _, _, _, rfl⟩
            · exact ⟨_, _, _, _, _, rfl⟩

/-- Alike indexes are prepared alike, with one cache. -/
theorem Alike.prepared (h : Alike P x y) (hkx : Keyed T x) (hky : Keyed T y) (hd : x.dim = some dim) :
    ∃ packedCodes boundaries, y.prepared P T dim = { x.prepared P T dim with packedCodes, boundaries } := by
  obtain ⟨hr, -, hc⟩ := h.derived hkx hky fun d hd' => Option.some.inj (hd'.symm.trans hd)
  have hp := h.packed
  obtain ⟨packedCodes, rotation, boundaries, centroids, rfl⟩ := h.frame
  dsimp only at hr hc
  have hp' : ({ x with
      packedCodes, boundaries
      rotation := some (x.rotation.getD dim)
      centroids := some (x.centroids.getD (T.codebook x.bitWidth dim).2) } : TurboQuantIndex).packed P =
    ({ x with
      rotation := some (x.rotation.getD dim)
      centroids := some (x.centroids.getD (T.codebook x.bitWidth dim).2) } : TurboQuantIndex).packed P := hp
  unfold TurboQuantIndex.prepared
  dsimp only
  rw [hr, hc]
  cases hb : x.blocked with
  | some cache => exact ⟨_, _, rfl⟩
  | none =>
    rw [hb] at hp'
    dsimp only
    rw [hp']
    exact ⟨_, _, rfl⟩

/-- The next search returns the same on both. -/
theorem Alike.search_reply (h : Alike P x y) (hkx : Keyed T x) (hky : Keyed T y) (queries : List F32) (k : ℕ)
    (mask : Option (List Bool)) (threshold : Option F32) :
    (y.trySearchWithOptions P T S queries k mask threshold).2 =
      (x.trySearchWithOptions P T S queries k mask threshold).2 := by
  have ha := h.agrees
  unfold TurboQuantIndex.trySearchWithOptions
  dsimp only
  rw [ha.content.dim, ha.nVectors]
  split
  · rfl
  · split
    · rfl
    · rename_i dim hd
      obtain ⟨packedCodes, boundaries, hprep⟩ := h.prepared hkx hky hd
      rw [hprep]
      generalize x.prepared P T dim = z
      split
      · rfl
      · split
        · rfl
        · split
          · split
            · split
              · rfl
              · rfl
            · rfl
          · dsimp only
            generalize Option.filter (fun l => decide (l ≠ z.nVectors)) (Option.map List.length mask) = wrong
            cases wrong with
            | some got => rfl
            | none =>
              cases z.blocked with
              | none => rfl
              | some cache => rfl

theorem prepare_frame (x : TurboQuantIndex) : ∃ packedCodes rotation boundaries centroids blocked,
    x.prepare P T = { x with packedCodes, rotation, boundaries, centroids, blocked } := by
  unfold TurboQuantIndex.prepare
  split
  · exact ⟨_, _, _, _, _, rfl⟩
  · split
    · exact ⟨_, _, _, _, _, rfl⟩
    · exact prepared_frame x _

/-- The next sync ends the same on both. -/
theorem Alike.sync (h : Alike P x y) (hx : Rep P x rows) (hy : Rep P y rows) (path : String) (disk : Disk) :
    (y.sync P T path disk).2 = (x.sync P T path disk).2 ∧
      Agrees P (x.sync P T path disk).1 (y.sync P T path disk).1 := by
  have ha := h.agrees
  have hpacked := (hx.sync (T := T) path disk).packed_congr (hy.sync (T := T) path disk)
  have hmat (z : TurboQuantIndex) : ∃ packedCodes,
      (if z.blocked.isNone then z.materialize P else z) = { z with packedCodes } := by
    split
    · exact ⟨_, rfl⟩
    · exact ⟨_, rfl⟩
  obtain ⟨_, hmx⟩ := hmat x
  obtain ⟨_, hmy⟩ := hmat y
  unfold TurboQuantIndex.sync at hpacked ⊢
  rw [ha.content.dim] at hpacked ⊢
  cases hd : x.dim with
  | none => exact ⟨rfl, ha⟩
  | some dim =>
    rw [hd] at hpacked
    dsimp only at hpacked ⊢
    rw [hmx, hmy] at hpacked ⊢
    cases disk with
    | refused =>
      exact ⟨rfl, ⟨ha.content.dim, ha.content.bitWidth, hpacked, ha.content.scales, ha.content.tqplusShift,
        ha.content.tqplusScale⟩, ha.nVectors, ha.calibGen, ha.syncCursor, ha.syncPath, ha.syncPending, ha.syncFresh⟩
    | landed cursor carried =>
      refine ⟨rfl, ⟨ha.content.dim, ha.content.bitWidth, hpacked, ha.content.scales, ha.content.tqplusShift,
        ha.content.tqplusScale⟩, ha.nVectors, ha.calibGen, ?_, rfl, rfl, rfl⟩
      dsimp only
      rw [ha.calibGen]
    | failed =>
      exact ⟨rfl, ⟨ha.content.dim, ha.content.bitWidth, hpacked, ha.content.scales, ha.content.tqplusShift,
        ha.content.tqplusScale⟩, ha.nVectors, ha.calibGen, rfl, rfl, ha.syncPending, ha.syncFresh⟩

/-- Whatever is called next without a fault ends the same on both. -/
theorem Alike.next (h : Alike P x y) (hx : Rep P x rows) (hy : Rep P y rows) (hkx : Keyed T x) (hky : Keyed T y)
    (hK : K.Sized) {c : TurboQuantIndex.Call} (hc : c.Unfaulted) :
    y.reply P T K S c = x.reply P T K S c ∧ Agrees P (x.after P T K S c) (y.after P T K S c) := by
  cases c with
  | add vectors dim fault =>
    obtain rfl : fault = none := hc
    obtain ⟨ho, ha⟩ := h.add2d hx hy hkx hky hK vectors dim
    exact ⟨congrArg TurboQuantIndex.Reply.added ho, ha⟩
  | calibrate sample dim fault =>
    obtain rfl : fault = none := hc
    obtain ⟨ho, ha⟩ := h.calibrate2d hx hy hkx hky hK sample dim
    exact ⟨congrArg TurboQuantIndex.Reply.calibrated ho, ha⟩
  | swapRemove idx =>
    obtain ⟨ho, ha⟩ := h.swapRemove hx hy idx
    exact ⟨congrArg TurboQuantIndex.Reply.removed ho, ha⟩
  | search queries k mask threshold =>
    exact ⟨congrArg TurboQuantIndex.Reply.found (h.search_reply hkx hky queries k mask threshold),
      h.agrees.frame (hx.search queries k mask threshold) (hy.search queries k mask threshold)
        (search_frame x queries k mask threshold) (search_frame y queries k mask threshold)⟩
  | packedCodes =>
    exact ⟨congrArg TurboQuantIndex.Reply.codes h.packed,
      h.agrees.frame hx.materialize hy.materialize ⟨_, _, _, _, _, rfl⟩
        ⟨_, _, _, _, _, rfl⟩⟩
  | prepare => exact ⟨rfl, h.agrees.frame hx.prepare hy.prepare (prepare_frame x) (prepare_frame y)⟩
  | sync path disk =>
    obtain ⟨ho, ha⟩ := h.sync (T := T) hx hy path disk
    exact ⟨congrArg TurboQuantIndex.Reply.synced ho, ha⟩

/-! ## Runs -/

/-- The index `x'` is to its callers the index `x`: content, sync state and every image are the same, and whatever is
called next without a fault returns the same and leaves indexes of the same content, sync state and images. -/
structure Untouched (P : Platform) (T : Tables) (K : Kernels) (S : ScanKernels) (x x' : TurboQuantIndex) : Prop where
  agrees : Agrees P x x'
  syncCaptureBuf : x'.syncCaptureBuf = x.syncCaptureBuf
  syncCaptureAt : x'.syncCaptureAt = x.syncCaptureAt
  image : ∀ kind ids version, x'.imageInVersion P T kind ids version = x.imageInVersion P T kind ids version
  next : ∀ c : TurboQuantIndex.Call, c.Unfaulted → x'.reply P T K S c = x.reply P T K S c ∧
    Agrees P (x.after P T K S c) (x'.after P T K S c) ∧
    ∀ kind ids version, (x'.after P T K S c).imageInVersion P T kind ids version =
      (x.after P T K S c).imageInVersion P T kind ids version

theorem Alike.untouched {rows' : List (List UInt8)} (h : Alike P x y) (hK : K.Sized) (hfit : K.Paired)
    (hx : Held P T x rows) (hy : Held P T y rows') : Untouched P T K S x y := by
  have ha := h.agrees
  obtain ⟨-, rfl⟩ := ha.content.rows_eq hx.sound.rep hy.sound.rep
  obtain ⟨packedCodes, rotation, boundaries, centroids, hframe⟩ := h.frame
  refine ⟨ha, by rw [hframe], by rw [hframe],
    fun kind ids version => (hx.image_eq hy ha.content kind ids version).symm, fun c hc => ?_⟩
  obtain ⟨hreply, hafter⟩ := h.next (S := S) hx.sound.rep hy.sound.rep hx.keyed hy.keyed hK hc
  obtain ⟨_, hx'⟩ := hx.after (S := S) hK hfit hc.guarded
  obtain ⟨_, hy'⟩ := hy.after (S := S) hK hfit hc.guarded
  exact ⟨hreply, hafter, fun kind ids version => (hx'.image_eq hy' hafter.content kind ids version).symm⟩

/-- An unwind out of the cache's update leaves an index with rows without their scales. -/
theorem scales_lost (h : Rep P x rows) (hpos : 0 < x.nVectors) {vectors : List F32} {dim : ℕ} {cache : BlockedCache}
    (hlen : vectors.length % dim = 0) (hpanic : (x.add2d P T K vectors dim (some (.cacheUpdate cache))).2 = .panic) :
    (x.add2d P T K vectors dim (some (.cacheUpdate cache))).1.scales = [] := by
  have hcoord : firstInvalidCoord vectors dim = none := by
    cases hcoord : firstInvalidCoord vectors dim with
    | none => rfl
    | some c =>
      unfold TurboQuantIndex.add2d at hpanic
      rw [hcoord] at hpanic
      cases hdim : x.checkAddDim dim with
      | error e =>
        rw [hdim] at hpanic
        cases hpanic
      | ok u =>
        rw [hdim] at hpanic
        cases hpanic
  have had := TurboQuantIndex.added P T K x vectors dim (some (.cacheUpdate cache))
  generalize x.add2d P T K vectors dim (some (.cacheUpdate cache)) = r at had hpanic ⊢
  cases had with
  | refused e => cases hpanic
  | ragged hne => exact absurd hlen hne
  | nothing _ => cases hpanic
  | done _ _ => cases hpanic
  | @panicked x' hdim hadd =>
    obtain ⟨d, hd⟩ := Option.isSome_iff_exists.mp (h.dimmed hpos)
    have hmul : vectors.length = vectors.length / dim * dim :=
      (Nat.div_mul_cancel (Nat.dvd_of_mod_eq_zero hlen)).symm
    have hlost : x'.scales = [] := by
      unfold TurboQuantIndex.add at hadd
      dsimp only at hadd
      rw [if_neg (not_not.mpr hmul), hcoord] at hadd
      split at hadd
      · cases hadd
      · rw [if_neg (by simp)] at hadd
        unfold TurboQuantIndex.appendRows at hadd
        dsimp only at hadd
        split at hadd
        · cases hadd
          rfl
        · split at hadd
          · cases hadd
          · cases hadd
            rfl
          · rename_i hother
            exact (hother cache rfl).elim
    unfold TurboQuantIndex.unwound
    rw [hd]
    exact hlost

/-- A failed mutation leaves the index untouched. -/
theorem Held.untouched (h : Held P T x rows) (hK : K.Sized) (hfit : K.Paired) {c : TurboQuantIndex.Call}
    (hg : c.Guarded) (hfail : (x.reply P T K S c).Failed) : Untouched P T K S x (x.after P T K S c) := by
  obtain ⟨_, h'⟩ := h.after (S := S) hK hfit hg
  exact (Alike.failed h.sound.rep hK hg hfail).untouched hK hfit h h'

end Failed

/-! ## Id maps -/

namespace IdMapIndex

/-- What a caller gets back. -/
inductive Reply
  | added (o : Outcome AddError)
  | removed (b : Option Bool)
  | contains (b : Bool)
  | found (r : Option (Except SearchError IdSearchResults))
  | calibrated (o : Outcome CalibrateError)
  | prepared
  | synced (ok : Bool)

/-- A mutation that did not return `Ok`. -/
def Reply.Failed : Reply → Prop
  | added o => o ≠ .ok
  | calibrated o => o ≠ .ok
  | _ => False

def Call.Unfaulted : Call → Prop
  | .add _ _ _ fault => fault = none
  | .calibrate _ _ fault => fault = none
  | _ => True

theorem Call.Unfaulted.guarded {c : Call} (h : c.Unfaulted) : c.Guarded := by
  cases c with
  | add vectors dim ids fault =>
    intro f hf
    rw [show fault = none from h] at hf
    cases hf
  | _ => trivial

/-- What a call returns. -/
def reply (P : Platform) (T : Tables) (K : Kernels) (S : ScanKernels) (x : IdMapIndex) : Call → Reply
  | .add vectors dim ids fault => .added (x.addWithIds2d P T K vectors dim ids fault).2
  | .remove id => .removed ((x.remove P id).map Prod.snd)
  | .contains id => .contains (x.contains id).2
  | .search queries k allowlist => .found (x.trySearchWithAllowlist P T S queries k allowlist).2
  | .calibrate sample dim fault => .calibrated (x.calibrate2d P T K sample dim fault).2
  | .prepare => .prepared
  | .sync path disk => .synced (x.sync P T path disk).2

/-- The same ids, in the same tables. -/
structure SameIds (x x' : IdMapIndex) : Prop where
  slotToId : x'.slotToId = x.slotToId
  idToSlot : x'.idToSlot = x.idToSlot
  sortedIds : x'.sortedIds = x.sortedIds
  deferredAdded : x'.deferredAdded = x.deferredAdded

section

variable {P : Platform} {T : Tables} {K : Kernels} {S : ScanKernels} {x : IdMapIndex} {y : TurboQuantIndex}
  {inner' : TurboQuantIndex} {rows : List (List UInt8)}

theorem ids_inner (x : IdMapIndex) (inner' : TurboQuantIndex) :
    ({ x with inner := inner' } : IdMapIndex).ids = { x.ids with inner := inner' } := by
  obtain ⟨inner, slotToId, _ | m, sortedIds, deferredAdded⟩ := x
  · rfl
  · rfl

/-- A failed call leaves the tables, and the index inside alike. -/
theorem failed_frame (h : Rep P x.inner rows) (hK : K.Sized) {c : Call} (hg : c.Guarded)
    (hfail : (x.reply P T K S c).Failed) :
    ∃ inner', Alike P x.inner inner' ∧ x.after P T K S c = { x with inner := inner' } := by
  have hself : Alike P x.inner x.inner := ⟨⟨_, _, _, _, rfl⟩, rfl⟩
  cases c with
  | add vectors dim ids fault =>
    have hadd := Alike.add2d_failed (T := T) h hK vectors dim hg
    have hends : (x.addWithIds2d P T K vectors dim ids fault).2 = .ok ∨ ∃ inner', Alike P x.inner inner' ∧
        (x.addWithIds2d P T K vectors dim ids fault).1 = { x with inner := inner' } := by
      unfold addWithIds2d
      dsimp only
      split
      · exact Or.inr ⟨_, hself, rfl⟩
      · split
        · exact Or.inr ⟨_, hself, rfl⟩
        · split
          · exact Or.inr ⟨_, hself, rfl⟩
          · split
            · exact Or.inr ⟨_, hself, rfl⟩
            · generalize x.inner.add2d P T K vectors dim fault = r at hadd ⊢
              obtain ⟨inner', o⟩ := r
              cases o with
              | ok => exact Or.inl rfl
              | err e => exact Or.inr ⟨_, hadd (by simp), rfl⟩
              | panic => exact Or.inr ⟨_, hadd (by simp), rfl⟩
    exact hends.resolve_left hfail
  | calibrate sample dim fault => exact ⟨_, Alike.calibrate2d_failed h hK sample dim fault hfail, rfl⟩
  | remove id => cases hfail
  | contains id => cases hfail
  | search queries k allowlist => cases hfail
  | prepare => cases hfail
  | sync path disk => cases hfail

/-- Whatever is called next without a fault ends the same over alike indexes. -/
theorem next_alike (h : Alike P x.inner inner') (hx : Rep P x.inner rows) (hy : Rep P inner' rows)
    (hkx : Keyed T x.inner) (hky : Keyed T inner') (hK : K.Sized) {c : Call} (hc : c.Unfaulted) :
    ({ x with inner := inner' } : IdMapIndex).reply P T K S c = x.reply P T K S c ∧
      Agrees P (x.after P T K S c).inner (({ x with inner := inner' } : IdMapIndex).after P T K S c).inner ∧
      SameIds (x.after P T K S c) (({ x with inner := inner' } : IdMapIndex).after P T K S c) := by
  have ha := h.agrees
  cases c with
  | add vectors dim ids fault =>
    obtain rfl : fault = none := hc
    obtain ⟨ho, hadd⟩ := h.add2d hx hy hkx hky hK vectors dim
    dsimp only [reply, after]
    unfold addWithIds2d
    dsimp only
    rw [show present { x with inner := inner' } = x.present from rfl, ha.nVectors]
    split
    · exact ⟨rfl, ha, rfl, rfl, rfl, rfl⟩
    · split
      · exact ⟨rfl, ha, rfl, rfl, rfl, rfl⟩
      · split
        · exact ⟨rfl, ha, rfl, rfl, rfl, rfl⟩
        · split
          · exact ⟨rfl, ha, rfl, rfl, rfl, rfl⟩
          · generalize inner'.add2d P T K vectors dim none = r' at ho hadd ⊢
            generalize x.inner.add2d P T K vectors dim none = r at ho hadd ⊢
            obtain ⟨i, o⟩ := r
            obtain ⟨i', o'⟩ := r'
            dsimp only at ho hadd
            subst ho
            cases o' with
            | ok => exact ⟨rfl, hadd, rfl, rfl, rfl, rfl⟩
            | err e => exact ⟨rfl, hadd, rfl, rfl, rfl, rfl⟩
            | panic => exact ⟨rfl, hadd, rfl, rfl, rfl, rfl⟩
  | calibrate sample dim fault =>
    obtain rfl : fault = none := hc
    obtain ⟨ho, hcal⟩ := h.calibrate2d hx hy hkx hky hK sample dim
    exact ⟨congrArg Reply.calibrated ho, hcal, rfl, rfl, rfl, rfl⟩
  | remove id =>
    dsimp only [reply, after]
    unfold remove
    rw [ids_inner x inner', show table { x with inner := inner' } = x.table from rfl]
    dsimp only
    cases x.table id with
    | none =>
      refine ⟨rfl, ?_, rfl, rfl, rfl, rfl⟩
      show Agrees P x.ids.inner inner'
      rw [Coherent.inner_ids]
      exact ha
    | some slot =>
      obtain ⟨ho, hrem⟩ := h.swapRemove hx hy slot
      dsimp only
      rw [Coherent.inner_ids]
      generalize inner'.swapRemove P slot = r' at ho hrem ⊢
      generalize x.inner.swapRemove P slot = r at ho hrem ⊢
      cases r with
      | none =>
        cases r' with
        | none => exact ⟨rfl, ha, rfl, rfl, rfl, rfl⟩
        | some r' => cases ho
      | some r =>
        cases r' with
        | none => cases ho
        | some r' =>
          dsimp only [Option.bind_eq_bind, Option.bind_some]
          cases x.ids.slotToId[x.ids.slotToId.length - 1]? with
          | none => exact ⟨rfl, ha, rfl, rfl, rfl, rfl⟩
          | some movedId => exact ⟨rfl, hrem, rfl, rfl, rfl, rfl⟩
  | contains id =>
    dsimp only [reply, after, contains]
    rw [ids_inner x inner']
    exact ⟨rfl, by rw [Coherent.inner_ids]; exact ha, rfl, rfl, rfl, rfl⟩
  | search queries k allowlist =>
    -- whatever mask comes of the allowlist, the scan sees one cache
    have hscan (z : IdMapIndex) (hz : z.inner = x.inner) (mask : Option (List Bool)) :
        (({ z with inner := inner' } : IdMapIndex).searchMasked P T S queries k mask).2 =
            (z.searchMasked P T S queries k mask).2 ∧
          Agrees P (z.searchMasked P T S queries k mask).1.inner
            (({ z with inner := inner' } : IdMapIndex).searchMasked P T S queries k mask).1.inner ∧
          SameIds (z.searchMasked P T S queries k mask).1
            (({ z with inner := inner' } : IdMapIndex).searchMasked P T S queries k mask).1 := by
      have hs := h.search_reply (S := S) hkx hky queries k mask none
      have hagree := h.agrees.frame (hx.search (T := T) (S := S) queries k mask none)
        (hy.search (T := T) (S := S) queries k mask none) (search_frame x.inner queries k mask none)
        (search_frame inner' queries k mask none)
      unfold searchMasked
      rw [hz]
      dsimp only
      generalize inner'.trySearchWithOptions P T S queries k mask none = r' at hs hagree ⊢
      generalize x.inner.trySearchWithOptions P T S queries k mask none = r at hs hagree ⊢
      obtain ⟨i, o⟩ := r
      obtain ⟨i', o'⟩ := r'
      dsimp only at hs hagree
      subst hs
      obtain _ | _ | res := o'
      · exact ⟨rfl, hagree, rfl, rfl, rfl, rfl⟩
      · exact ⟨rfl, hagree, rfl, rfl, rfl, rfl⟩
      · exact ⟨rfl, hagree, rfl, rfl, rfl, rfl⟩
    dsimp only [reply, after]
    unfold trySearchWithAllowlist
    dsimp only
    rw [ids_inner x inner', show table { x with inner := inner' } = x.table from rfl, ha.nVectors]
    cases allowlist with
    | none =>
      obtain ⟨hr, hs⟩ := hscan x rfl none
      exact ⟨congrArg Reply.found hr, hs⟩
    | some allow =>
      cases allow with
      | nil => exact ⟨rfl, ha, rfl, rfl, rfl, rfl⟩
      | cons id ids =>
        have hids : Agrees P x.ids.inner inner' := by
          rw [Coherent.inner_ids]
          exact ha
        dsimp only
        generalize maskOf x.table (id :: ids) (List.replicate x.inner.nVectors false) = m
        obtain _ | _ | mask := m
        · exact ⟨rfl, hids, rfl, rfl, rfl, rfl⟩
        · exact ⟨rfl, hids, rfl, rfl, rfl, rfl⟩
        · obtain ⟨hr, hs⟩ := hscan x.ids (Coherent.inner_ids x) (some mask)
          exact ⟨congrArg Reply.found hr, hs⟩
  | prepare =>
    dsimp only [reply, after, prepare]
    rw [ids_inner x inner']
    exact ⟨rfl, h.agrees.frame hx.prepare hy.prepare (prepare_frame x.inner) (prepare_frame inner'),
      rfl, rfl, rfl, rfl⟩
  | sync path disk =>
    obtain ⟨ho, hs⟩ := h.sync (T := T) hx hy path disk
    exact ⟨congrArg Reply.synced ho, hs, rfl, rfl, rfl, rfl⟩

/-- The id map `x'` is to its callers the id map `x`. -/
structure Untouched (P : Platform) (T : Tables) (K : Kernels) (S : ScanKernels) (x x' : IdMapIndex) : Prop where
  inner : Agrees P x.inner x'.inner
  syncCaptureBuf : x'.inner.syncCaptureBuf = x.inner.syncCaptureBuf
  syncCaptureAt : x'.inner.syncCaptureAt = x.inner.syncCaptureAt
  ids : SameIds x x'
  image : x'.toBytes P T = x.toBytes P T
  next : ∀ c : Call, c.Unfaulted → x'.reply P T K S c = x.reply P T K S c ∧
    Agrees P (x.after P T K S c).inner (x'.after P T K S c).inner ∧
    SameIds (x.after P T K S c) (x'.after P T K S c) ∧
    (x'.after P T K S c).toBytes P T = (x.after P T K S c).toBytes P T

theorem Ran.held (h : Ran P T K S y x) (hK : K.Sized) (hfit : K.Paired) (hc : y.Clean P) :
    ∃ rows, Held P T x.inner rows := by
  obtain ⟨hy, calls, hg, hinner⟩ := h.inner
  obtain ⟨_, hheld⟩ := hy.held hc
  rw [hinner]
  exact hheld.run hK hfit calls hg

theorem toBytes_eq {x' : IdMapIndex} {rows' : List (List UInt8)} (hx : Held P T x.inner rows)
    (hx' : Held P T x'.inner rows') (ha : Agrees P x.inner x'.inner) (hids : SameIds x x') :
    x'.toBytes P T = x.toBytes P T := by
  unfold toBytes
  rw [hids.slotToId]
  exact (hx.image_eq hx' ha.content 1 _ 8).symm

/-- A failed mutation leaves the id map untouched. -/
theorem Ran.untouched (h : Ran P T K S y x) (hK : K.Sized) (hfit : K.Paired) (hclean : y.Clean P) {c : Call}
    (hg : c.Guarded) (hfail : (x.reply P T K S c).Failed) : Untouched P T K S x (x.after P T K S c) := by
  have hran := h.call hg
  obtain ⟨rows, hx⟩ := h.held hK hfit hclean
  obtain ⟨_, hx'⟩ := hran.held hK hfit hclean
  -- the tables of a failed call are those before it, so only the index inside is to be compared
  obtain ⟨inner', halike, hafter⟩ := failed_frame hx.sound.rep hK hg hfail
  rw [hafter] at hran hx' ⊢
  have ha := halike.agrees
  obtain ⟨-, rfl⟩ := ha.content.rows_eq hx.sound.rep hx'.sound.rep
  have hids : SameIds x { x with inner := inner' } := ⟨rfl, rfl, rfl, rfl⟩
  obtain ⟨packedCodes, rotation, boundaries, centroids, hframe⟩ := halike.frame
  refine ⟨ha, by rw [hframe], by rw [hframe], hids, toBytes_eq hx hx' ha hids, fun d hd => ?_⟩
  obtain ⟨hreply, hinner, hnext⟩ := next_alike (S := S) halike hx.sound.rep hx'.sound.rep hx.keyed hx'.keyed hK hd
  obtain ⟨_, hy⟩ := (h.call hd.guarded).held hK hfit hclean
  obtain ⟨_, hy'⟩ := (hran.call hd.guarded).held hK hfit hclean
  exact ⟨hreply, hinner, hnext, toBytes_eq hy hy' hinner hnext⟩

end

end IdMapIndex

section

variable {P : Platform} {T : Tables} {K : Kernels} {S : ScanKernels} {y : TurboQuantIndex}

/-- After any calls from an index that began without stray bits, a mutation that fails or unwinds out of a guarded step
leaves an index and an id map untouched; one that unwinds out of the cache's update leaves no index with rows so. -/
theorem failed_calls_untouched (hK : K.Sized) (hfit : K.Paired) (hclean : y.Clean P) :
    (∀ calls : List TurboQuantIndex.Call, Begun P T y → (∀ c ∈ calls, c.Guarded) →
      let x := y.run P T K S calls
      (∀ c : TurboQuantIndex.Call, c.Guarded → (x.reply P T K S c).Failed →
        Untouched P T K S x (x.after P T K S c)) ∧
      ∀ vectors dim cache, 0 < x.nVectors → vectors.length % dim = 0 →
        (x.add2d P T K vectors dim (some (.cacheUpdate cache))).2 = .panic →
          ¬Untouched P T K S x (x.after P T K S (.add vectors dim (some (.cacheUpdate cache))))) ∧
    ∀ x : IdMapIndex, IdMapIndex.Ran P T K S y x →
      ∀ c : IdMapIndex.Call, c.Guarded → (x.reply P T K S c).Failed →
        IdMapIndex.Untouched P T K S x (x.after P T K S c) := by
  constructor
  · intro calls hy hg x
    obtain ⟨_, hheld⟩ := hy.held hclean
    obtain ⟨_, hx⟩ := hheld.run (S := S) hK hfit calls hg
    constructor
    · intro c hc hfail
      exact hx.untouched hK hfit hc hfail
    · intro vectors dim cache hpos hlen hpanic h
      have hscales := hx.sound.rep.scales
      rw [← h.agrees.content.scales, TurboQuantIndex.after, scales_lost hx.sound.rep hpos hlen hpanic] at hscales
      exact absurd hscales.symm hpos.ne'
  · intro x hx c hc hfail
    exact hx.untouched hK hfit hclean hc hfail

end

/-- An encoder that unwinds after a byte and a scale, and a fit that unwinds under an id map. -/
theorem failed_calls_untouched_two :
    Untouched plainHost levelTables zeroKernels zeroScan twoRows
        (twoRows.after plainHost levelTables zeroKernels zeroScan
          (.add (List.replicate 8 0) 8 (some (.encode [1] [1])))) ∧
      IdMapIndex.Untouched plainHost levelTables zeroKernels zeroScan IdMapIndex.twoIds
        (IdMapIndex.twoIds.after plainHost levelTables zeroKernels zeroScan
          (.calibrate (List.replicate 16 0) 8 (some .fit))) := by
  have hbegun : Begun plainHost levelTables twoRows := .opened twoRows_opened
  have hguarded : ∀ f ∈ some (Fault.encode [1] [1]), f.Guarded := by
    intro f hf
    obtain rfl := Option.mem_some_iff.mp hf
    trivial
  obtain ⟨hindex, hids⟩ := failed_calls_untouched (P := plainHost) (T := levelTables) (S := zeroScan)
    zeroKernels_sized zeroKernels_paired (TurboQuantIndex.clean_of_none (x := twoRows) rfl)
  refine ⟨(hindex [] hbegun (by simp)).1 _ hguarded ?_,
    hids _ (.fromParts hbegun [] (by simp) IdMapIndex.twoIds_ok) _ trivial ?_⟩
  · show (twoRows.add2d plainHost levelTables zeroKernels (List.replicate 8 0) 8 (some (.encode [1] [1]))).2 ≠ .ok
    decide +kernel
  · show (twoRows.calibrate2d plainHost levelTables zeroKernels (List.replicate 16 0) 8 (some .fit)).2 ≠ .ok
    decide +kernel

/-- A fit that is no identity. -/
def flatKernels : Kernels :=
  { zeroKernels with fitCalibration := fun _ _ dim _ _ => (List.replicate dim 0, List.replicate dim 0) }

/-- A re-encoding that unwinds has set the packed rows, which have no room for the stray bits of a loaded image. -/
theorem stray_calibrate_unwound :
    (strayIndex.calibrate2d x86Host levelTables flatKernels (List.replicate 16 0) 8 (some .reencode)).2 = .panic ∧
    (strayIndex.calibrate2d x86Host levelTables flatKernels (List.replicate 16 0) 8 (some .reencode)).1.toBytes
      x86Host levelTables ≠ strayIndex.toBytes x86Host levelTables := by
  have hres : strayIndex.calibrate2d x86Host levelTables flatKernels (List.replicate 16 0) 8 (some .reencode) =
      ((strayIndex.warm levelTables 8).materialize x86Host, .panic) := rfl
  have hx : Rep x86Host strayIndex strayLoad.rows := rep_fromV7 (stored_of_loadImage load_stray) none
  have hw : Writable levelTables strayIndex := by
    refine ⟨fun d hd => ?_, by decide, by decide, by decide, ⟨rfl, rfl, rfl⟩⟩
    rw [← Option.some.inj hd]
    decide
  have hbook : Booked levelTables strayIndex := booked_fromV7 strayLoad none
  rw [hres]
  refine ⟨rfl, fun heq => ?_⟩
  have hrow := (toBytes_eq_iff levelTables_numbered hx (hx.warm (T := levelTables) 8).materialize hw
    ⟨rfl, rfl, rfl, rfl, rfl, rfl⟩ hbook hbook rfl rfl rfl).mp heq.symm 0 (by decide)
  exact absurd hrow (by decide +kernel)

/-- Once a cache is live and the packed rows are dropped, an unwind out of the append to the cache takes the scales
with it; and under stray bits an unwind out of the re-encoding changes the image. -/
theorem not_failed_calls_untouched :
    (¬∀ (P : Platform) (T : Tables) (K : Kernels) (S : ScanKernels) (y : TurboQuantIndex), K.Sized → K.Paired →
      Begun P T y → y.Clean P → ∀ calls : List TurboQuantIndex.Call, (∀ c ∈ calls, c.Guarded) →
        ∀ c : TurboQuantIndex.Call, ((y.run P T K S calls).reply P T K S c).Failed →
          Untouched P T K S (y.run P T K S calls) ((y.run P T K S calls).after P T K S c)) ∧
    ¬∀ (P : Platform) (T : Tables) (K : Kernels) (S : ScanKernels) (y : TurboQuantIndex), K.Sized → K.Paired →
      Begun P T y → ∀ c : TurboQuantIndex.Call, c.Guarded → (y.reply P T K S c).Failed →
        Untouched P T K S y (y.after P T K S c) := by
  constructor
  · intro h
    -- the first add drops the packed rows, so the second appends to the cache alone
    have hguarded : ∀ c ∈ [TurboQuantIndex.Call.add (List.replicate 8 0) 8 none], c.Guarded := by
      intro c hc
      obtain rfl := List.mem_singleton.mp hc
      intro f hf
      cases hf
    have hlost := (h plainHost levelTables zeroKernels zeroScan twoRows zeroKernels_sized zeroKernels_paired
      (.opened twoRows_opened) (TurboQuantIndex.clean_of_none rfl) [.add (List.replicate 8 0) 8 none] hguarded
      (.add (List.replicate 8 0) 8 (some (.cacheUpdate (BlockedCache.build plainHost (List.replicate 6 0) 3 2 8)))) (by
        show (TurboQuantIndex.add2d plainHost levelTables zeroKernels
          (twoRows.run plainHost levelTables zeroKernels zeroScan [.add (List.replicate 8 0) 8 none])
          (List.replicate 8 0) 8
          (some (.cacheUpdate (BlockedCache.build plainHost (List.replicate 6 0) 3 2 8)))).2 ≠ .ok
        decide +kernel)).agrees.content.scales
    exact absurd hlost (by decide +kernel)
  · intro h
    have hsized : flatKernels.Sized := ⟨zeroKernels_sized.encode, zeroKernels_sized.reencode⟩
    have hpaired : flatKernels.Paired :=
      ⟨fun _ _ _ _ _ => List.length_replicate, fun _ _ _ _ _ => List.length_replicate⟩
    obtain ⟨hpanic, hne⟩ := stray_calibrate_unwound
    have hfail : (strayIndex.reply x86Host levelTables flatKernels zeroScan
        (.calibrate (List.replicate 16 0) 8 (some .reencode))).Failed := by
      show (strayIndex.calibrate2d x86Host levelTables flatKernels (List.replicate 16 0) 8 (some .reencode)).2 ≠ .ok
      rw [hpanic]
      simp
    have himage := (h x86Host levelTables flatKernels zeroScan strayIndex hsized hpaired (.opened strayIndex_opened)
      (.calibrate (List.replicate 16 0) 8 (some .reencode)) trivial hfail).image 0 none 8
    exact hne himage

end Turbovec
