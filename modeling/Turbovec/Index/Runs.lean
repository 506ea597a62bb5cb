import Turbovec.Index.Open
import Turbovec.Index.Search

/-!
# Runs of an index

How an index comes to be, the calls it answers, and what any number of them leaves.
-/

namespace Turbovec

open Pack IoV7 Slice

/-! ## From parts -/

inductive FromPartsError
  | bitWidthOutOfRange (bitWidth : ℕ)
  | tqplusLengthMismatch (shiftLen scaleLen : ℕ)
  | dimNotPositiveMultipleOf8 (dim : ℕ)
  | dimTooLarge (dim max : ℕ)
  | packedCodesSizeOverflow (nVectors dim bitWidth : ℕ)
  | packedCodesLengthMismatch (expected got : ℕ)
  | scalesLengthMismatch (expected got : ℕ)
  | tqplusLengthNotDim (got dim : ℕ)
  | lazyMustHaveZeroVectors (nVectors : ℕ)
  | lazyMustHaveEmptyPackedCodes (got : ℕ)
  | lazyMustHaveEmptyScales (got : ℕ)
  | lazyMustHaveEmptyTqplus (got : ℕ)
  | invalidScaleValue (slot : ℕ) (value : F32)
  | invalidTqplusShiftValue (coord : ℕ) (value : F32)
  | invalidTqplusScaleValue (coord : ℕ) (value : F32)
deriving DecidableEq, Repr

/-- What a sync meets on the disk. -/
inductive Disk
  /-- the identity check fails, or finds another writer's file -/
  | refused
  /-- the write landed: its cursor, and the slots whose ops ride its header -/
  | landed (cursor : SyncCursor) (carried : List ℕ)
  /-- the write failed -/
  | failed

namespace TurboQuantIndex

/-- What `from_parts` refuses of the lengths. -/
def checkLengths (dim : Option ℕ) (bitWidth nVectors : ℕ) (packedCodes : List UInt8)
    (scales tqplusShift tqplusScale : List F32) : Except FromPartsError Unit :=
  if ¬(2 ≤ bitWidth ∧ bitWidth ≤ 4) then .error (.bitWidthOutOfRange bitWidth)
  else if tqplusShift.length ≠ tqplusScale.length then
    .error (.tqplusLengthMismatch tqplusShift.length tqplusScale.length)
  else match dim with
    | some d =>
      let expectedPacked := d / 8 * bitWidth * nVectors
      if d = 0 ∨ d % 8 ≠ 0 then .error (.dimNotPositiveMultipleOf8 d)
      else if d > MAX_DIM then .error (.dimTooLarge d MAX_DIM)
      else if 2 ^ 64 ≤ expectedPacked then .error (.packedCodesSizeOverflow nVectors d bitWidth)
      else if packedCodes.length ≠ expectedPacked then
        .error (.packedCodesLengthMismatch expectedPacked packedCodes.length)
      else if scales.length ≠ nVectors then .error (.scalesLengthMismatch nVectors scales.length)
      else if tqplusShift.length ≠ 0 ∧ tqplusShift.length ≠ d then
        .error (.tqplusLengthNotDim tqplusShift.length d)
      else .ok ()
    | none =>
      if nVectors ≠ 0 then .error (.lazyMustHaveZeroVectors nVectors)
      else if packedCodes.length ≠ 0 then .error (.lazyMustHaveEmptyPackedCodes packedCodes.length)
      else if scales.length ≠ 0 then .error (.lazyMustHaveEmptyScales scales.length)
      else if tqplusShift.length ≠ 0 then .error (.lazyMustHaveEmptyTqplus tqplusShift.length)
      else .ok ()

/-- What `from_parts` refuses of the values. -/
def checkValues (B : CalibrationBounds) (scales tqplusShift tqplusScale : List F32) :
    Except FromPartsError Unit :=
  match scales.findIdx? fun s => !validScale s with
  | some i => .error (.invalidScaleValue i (entry scales i))
  | none =>
    match tqplusShift.findIdx? (badShift B tqplusShift.length) with
    | some i => .error (.invalidTqplusShiftValue i (entry tqplusShift i))
    | none =>
      match tqplusScale.findIdx? (badScale B tqplusScale.length) with
      | some i => .error (.invalidTqplusScaleValue i (entry tqplusScale i))
      | none => .ok ()

def fromParts (B : CalibrationBounds) (dim : Option ℕ) (bitWidth nVectors : ℕ) (packedCodes : List UInt8)
    (scales tqplusShift tqplusScale : List F32) : Except FromPartsError TurboQuantIndex := do
  checkLengths dim bitWidth nVectors packedCodes scales tqplusShift tqplusScale
  checkValues B scales tqplusShift tqplusScale
  let calibration := normalizeCalibration tqplusShift tqplusScale
  return { empty dim bitWidth with
    nVectors
    packedCodes := some packedCodes
    scales
    tqplusShift := calibration.1
    tqplusScale := calibration.2 }

section variable (P : Platform) (T : Tables) (K : Kernels) (S : ScanKernels)

/-! ## Calls -/

/-- The in-memory half of a sync, and whether it returns `Ok`. -/
def sync (x : TurboQuantIndex) (path : String) (disk : Disk) : TurboQuantIndex × Bool :=
  match x.dim with
  | none => (x, false)
  | some dim =>
    let x := if x.blocked.isNone then x.materialize P else x
    let x := { x with
      boundaries := some (x.boundaries.getD (T.codebook x.bitWidth dim).1)
      centroids := some (x.centroids.getD (T.codebook x.bitWidth dim).2) }
    match disk with
    | .refused => (x, false)
    | .landed cursor carried =>
      ({ x with
        syncPending := carried.toFinset
        syncFresh := ∅
        syncCaptureBuf := []
        syncCaptureAt := []
        syncCursor := some { cursor with calibGen := x.calibGen }
        syncPath := some path }, true)
    | .failed =>
      ({ x with syncCursor := none, syncPath := none, syncCaptureBuf := [], syncCaptureAt := [] }, false)

inductive Call
  | add (vectors : List F32) (dim : ℕ) (fault : Option Fault)
  | calibrate (sample : List F32) (dim : ℕ) (fault : Option Fault)
  | swapRemove (idx : ℕ)
  | search (queries : List F32) (k : ℕ) (mask : Option (List Bool)) (threshold : Option F32)
  | packedCodes
  | prepare
  | sync (path : String) (disk : Disk)

/-- What a call leaves, however it ends. -/
def after (x : TurboQuantIndex) : Call → TurboQuantIndex
  | .add vectors dim fault => (x.add2d P T K vectors dim fault).1
  | .calibrate sample dim fault => (x.calibrate2d P T K sample dim fault).1
  | .swapRemove idx => ((x.swapRemove P idx).map Prod.fst).getD x
  | .search queries k mask threshold => (x.trySearchWithOptions P T S queries k mask threshold).1
  | .packedCodes => (x.readPacked P).1
  | .prepare => x.prepare P T
  | .sync path disk => (x.sync P T path disk).1

/-- An index as it comes to be. -/
inductive Opened : TurboQuantIndex → Prop
  | new {x : TurboQuantIndex} {dim bitWidth : ℕ} (h : TurboQuantIndex.new dim bitWidth = .ok x) : Opened x
  | newLazy {x : TurboQuantIndex} {bitWidth : ℕ} (h : TurboQuantIndex.newLazy bitWidth = .ok x) : Opened x
  | fromParts {x : TurboQuantIndex} {dim : Option ℕ} {bitWidth nVectors : ℕ} {packedCodes : List UInt8}
      {scales tqplusShift tqplusScale : List F32}
      (h : TurboQuantIndex.fromParts T.bounds dim bitWidth nVectors packedCodes scales tqplusShift
        tqplusScale = .ok x) : Opened x
  | load {x : TurboQuantIndex} {raw : List UInt8} {path : String}
      (h : TurboQuantIndex.load P T raw path = .ok x) : Opened x
  | fromBytes {x : TurboQuantIndex} {raw : List UInt8} (h : TurboQuantIndex.fromBytes P T raw = .ok x) :
      Opened x

/-- An index after any calls. -/
inductive Reachable : TurboQuantIndex → Prop
  | opened {x : TurboQuantIndex} (h : Opened P T x) : Reachable x
  | call {x : TurboQuantIndex} (h : Reachable x) (c : Call) : Reachable (x.after P T K S c)

end

/-! ## Row counts -/

/-- `x'` has `n` rows, and is otherwise the index `x` was. -/
structure Counted (x x' : TurboQuantIndex) (n : ℕ) : Prop where
  rows : x'.nVectors = n
  bits : x'.bitWidth = x.bitWidth
  dim : ∀ d, x.dim = some d → x'.dim = some d

section variable {P : Platform} {T : Tables} {K : Kernels} {S : ScanKernels} {x x' : TurboQuantIndex}

theorem counted_self (x : TurboQuantIndex) : x.Counted x x.nVectors := ⟨rfl, rfl, fun _ h => h⟩

/-- An append that returns adds its rows. -/
theorem appendRows_ok {vectors : List F32} {n dim : ℕ} {fault : Option Fault}
    (h : appendRows P K x vectors n dim fault = .ok x') : x.Counted x' (x.nVectors + n) := by
  unfold appendRows at h
  dsimp only at h
  split at h
  · split at h
    · cases h
    · cases h
    · cases h
      exact ⟨rfl, rfl, fun _ hd => hd⟩
  · split at h
    · cases h
    · cases h
    · split at h
      · cases h
        exact ⟨rfl, rfl, fun _ hd => hd⟩
      · cases h
      · cases h
        exact ⟨rfl, rfl, fun _ hd => hd⟩

/-- An append that unwinds adds none. -/
theorem appendRows_error {vectors : List F32} {n dim : ℕ} {fault : Option Fault}
    (h : appendRows P K x vectors n dim fault = .error x') : x.Counted x' x.nVectors := by
  unfold appendRows at h
  dsimp only at h
  split at h
  · split at h
    · cases h
      exact ⟨rfl, rfl, fun _ hd => hd⟩
    · cases h
      exact ⟨rfl, rfl, fun _ hd => hd⟩
    · cases h
  · split at h
    · cases h
      exact ⟨rfl, rfl, fun _ hd => hd⟩
    · cases h
      exact ⟨rfl, rfl, fun _ hd => hd⟩
    · split at h
      · cases h
      · cases h
        exact ⟨rfl, rfl, fun _ hd => hd⟩
      · cases h

theorem add_ok {vectors : List F32} {dim : ℕ} {fault : Option Fault}
    (h : add P T K x vectors dim fault = .ok x') :
    x.Counted x' (x.nVectors + vectors.length / dim) := by
  unfold add at h
  dsimp only at h
  split at h
  · cases h
  · split at h
    · rename_i hn
      cases h
      rw [hn]
      exact counted_self x
    · split at h
      · cases h
      · have := appendRows_ok h
        exact ⟨this.rows, this.bits, this.dim⟩

theorem add_error {vectors : List F32} {dim : ℕ} {fault : Option Fault}
    (h : add P T K x vectors dim fault = .error x') : x.Counted x' x.nVectors := by
  unfold add at h
  dsimp only at h
  split at h
  · cases h
    exact counted_self x
  · split at h
    · cases h
    · split at h
      · cases h
        exact counted_self x
      · have := appendRows_error h
        exact ⟨this.rows, this.bits, this.dim⟩

/-! ## How an add ends -/

/-- The index an add works on: its dimension committed. -/
def entered (x : TurboQuantIndex) (dim : ℕ) : TurboQuantIndex := { x with dim := some dim }

/-- What an unwound add leaves: a dimension the call would have been the first to commit is not kept. -/
def unwound (x x' : TurboQuantIndex) : TurboQuantIndex :=
  if x.dim.isNone then { x'.cool with dim := none } else x'

section variable (P T K)

/-- How an add of `vectors` at `dim` ends. -/
inductive Added (x : TurboQuantIndex) (vectors : List F32) (dim : ℕ) (fault : Option Fault) :
    TurboQuantIndex × Outcome AddError → Prop
  | refused (e : AddError) : Added x vectors dim fault (x, .err e)
  | ragged (h : vectors.length % dim ≠ 0) : Added x vectors dim fault (x, .panic)
  | nothing (h : vectors = []) : Added x vectors dim fault (x, .ok)
  | done {x' : TurboQuantIndex} (hdim : x.checkAddDim dim = .ok ())
      (h : add P T K (x.entered dim) vectors dim fault = .ok x') : Added x vectors dim fault (x', .ok)
  | panicked {x' : TurboQuantIndex} (hdim : x.checkAddDim dim = .ok ())
      (h : add P T K (x.entered dim) vectors dim fault = .error x') :
      Added x vectors dim fault (x.unwound x', .panic)

end

/-- A dimension an add takes is the committed one, if one is. -/
theorem eq_of_checkAddDim {dim d : ℕ} (h : x.checkAddDim dim = .ok ()) (hd : x.dim = some d) : d = dim := by
  unfold checkAddDim at h
  rw [hd] at h
  dsimp only at h
  split at h
  · cases h
  · rename_i heq
    exact not_ne_iff.mp heq

theorem entered_eq {dim d : ℕ} (h : x.checkAddDim dim = .ok ()) (hd : x.dim = some d) :
    x.entered dim = x := by
  unfold entered
  rw [← eq_of_checkAddDim h hd, ← hd]

variable (P T K) in
theorem added (x : TurboQuantIndex) (vectors : List F32) (dim : ℕ) (fault : Option Fault) :
    Added P T K x vectors dim fault (x.add2d P T K vectors dim fault) := by
  unfold add2d
  cases hdim : x.checkAddDim dim with
  | error e => exact .refused e
  | ok u =>
    dsimp only
    cases firstInvalidCoord vectors dim with
    | some c => exact .refused _
    | none =>
      dsimp only
      split
      · rename_i hlen
        exact .ragged hlen
      · split
        · rename_i hempty
          exact .nothing (List.isEmpty_iff.mp hempty)
        · cases hd : x.dim with
          | none =>
            dsimp only
            have henter : { x with dim := some dim } = x.entered dim := rfl
            rw [henter]
            cases hadd : add P T K (x.entered dim) vectors dim fault with
            | ok x' => exact .done hdim hadd
            | error x' =>
              have := Added.panicked hdim hadd
              rwa [unwound, hd] at this
          | some d =>
            dsimp only
            have henter := entered_eq hdim hd
            cases hadd : add P T K x vectors dim fault with
            | ok x' =>
              rw [← henter] at hadd
              exact .done hdim hadd
            | error x' =>
              rw [← henter] at hadd
              have := Added.panicked hdim hadd
              rwa [unwound, hd] at this

/-- The rows an add's call adds. -/
def addedRows (vectors : List F32) (dim : ℕ) : Outcome AddError → ℕ
  | .ok => vectors.length / dim
  | _ => 0

/-- An add that returns adds its rows, and any other none. -/
theorem add2d_counted (x : TurboQuantIndex) (vectors : List F32) (dim : ℕ) (fault : Option Fault) :
    x.Counted (x.add2d P T K vectors dim fault).1
      (x.nVectors + addedRows vectors dim (x.add2d P T K vectors dim fault).2) := by
  have had := added P T K x vectors dim fault
  generalize x.add2d P T K vectors dim fault = r at had ⊢
  cases had with
  | refused e => exact counted_self x
  | ragged h => exact counted_self x
  | nothing h =>
    rw [addedRows, h, List.length_nil, Nat.zero_div]
    exact counted_self x
  | done hdim h =>
    have hc := add_ok h
    exact ⟨hc.rows, hc.bits, fun d hd => hc.dim d (by rw [entered_eq hdim hd, hd])⟩
  | panicked hdim h =>
    have hc := add_error h
    unfold unwound
    split
    · rename_i hnone
      rw [Option.isNone_iff_eq_none] at hnone
      exact ⟨hc.rows, hc.bits, fun d hd => by rw [hnone] at hd; cases hd⟩
    · exact ⟨hc.rows, hc.bits, fun d hd => hc.dim d (by rw [entered_eq hdim hd, hd])⟩

/-- Rows are only ever added under a committed dimension. -/
theorem add2d_dim (x : TurboQuantIndex) (vectors : List F32) (dim : ℕ) (fault : Option Fault)
    (h : addedRows vectors dim (x.add2d P T K vectors dim fault).2 ≠ 0) :
    (x.add2d P T K vectors dim fault).1.dim = some dim := by
  cases hr : x.add2d P T K vectors dim fault with
  | mk x' o =>
    have had := added P T K x vectors dim fault
    rw [hr] at had h
    cases had with
    | refused e => exact absurd rfl h
    | ragged _ => exact absurd rfl h
    | nothing hnil =>
      rw [addedRows, hnil, List.length_nil, Nat.zero_div] at h
      exact absurd rfl h
    | done hdim hadd => exact (add_ok hadd).dim dim rfl
    | panicked _ _ => exact absurd rfl h

/-! ## How a calibrate ends -/

section variable (P T K)

/-- The pair a calibrate on `sample` fits. -/
def fitted (x : TurboQuantIndex) (sample : List F32) (dim : ℕ) : List F32 × List F32 :=
  let y := x.warm T dim
  K.fitCalibration sample (sample.length / dim) dim (y.rotation.getD dim) (y.centroids.getD [])

/-- How a calibrate on `sample` at `dim` ends. -/
inductive Calibrated (x : TurboQuantIndex) (sample : List F32) (dim : ℕ) :
    TurboQuantIndex × Outcome CalibrateError → Prop
  | refused (e : CalibrateError) : Calibrated x sample dim (x, .err e)
  | abandoned (hdim : x.checkCalibrateDim dim = .ok ()) (o : Outcome CalibrateError) (ho : o ≠ .ok) :
      Calibrated x sample dim (uncommitted (x.warm T dim), o)
  | panicked (hdim : x.checkCalibrateDim dim = .ok ()) (hn : 0 < x.nVectors) :
      Calibrated x sample dim ((x.warm T dim).materialize P, .panic)
  | done (hdim : x.checkCalibrateDim dim = .ok ()) :
      Calibrated x sample dim
        ((x.warm T dim).commitCalibration P K dim (fitted T K x sample dim), .ok)

end

variable (P T K) in
theorem calibrated (x : TurboQuantIndex) (sample : List F32) (dim : ℕ) (fault : Option Fault) :
    Calibrated P T K x sample dim (x.calibrate2d P T K sample dim fault) := by
  unfold calibrate2d
  cases hdim : x.checkCalibrateDim dim with
  | error e => exact .refused e
  | ok u =>
    dsimp only
    split
    · exact .refused _
    · split
      · exact .refused _
      · cases firstInvalidCoord sample dim with
        | some c => exact .refused _
        | none =>
          dsimp only
          split
          · exact .abandoned hdim _ (by simp)
          · split
            · exact .abandoned hdim _ (by simp)
            · split
              · rename_i hn
                rw [Bool.and_eq_true, decide_eq_true_eq] at hn
                exact .panicked hdim hn.1
              · exact .done hdim

theorem calibrate2d_counted (x : TurboQuantIndex) (sample : List F32) (dim : ℕ) (fault : Option Fault) :
    x.Counted (x.calibrate2d P T K sample dim fault).1 x.nVectors := by
  have hcal := calibrated P T K x sample dim fault
  generalize x.calibrate2d P T K sample dim fault = r at hcal ⊢
  cases hcal with
  | refused e => exact counted_self x
  | abandoned hdim o ho =>
    unfold uncommitted
    split
    · exact ⟨rfl, rfl, fun _ h => h⟩
    · exact ⟨rfl, rfl, fun _ h => h⟩
  | panicked hdim hn => exact ⟨rfl, rfl, fun _ h => h⟩
  | done hdim =>
    refine ⟨?_, ?_, fun d hd => ?_⟩
    · unfold commitCalibration
      dsimp only
      split
      · rfl
      · rfl
    · unfold commitCalibration
      dsimp only
      split
      · rfl
      · rfl
    · unfold checkCalibrateDim at hdim
      rw [hd] at hdim
      dsimp only at hdim
      split at hdim
      · cases hdim
      · rename_i heq
        rw [not_ne_iff.mp heq]
        rfl

/-! ## The other calls -/

/-- A removal in range: the marks, the capture, the move. -/
theorem swapRemove_eq (x : TurboQuantIndex) {idx d : ℕ} (hidx : idx < x.nVectors) (hd : x.dim = some d) :
    x.swapRemove P idx =
      let last := x.nVectors - 1
      let lane := (blockedGeometry x.nVectors x.bitWidth d).2.1
      let x' := x.markRemoval idx last
      some ((x'.capture P idx last lane (x'.captureAt P idx lane)).dropRow P idx last d, last) := by
  unfold swapRemove
  rw [guard_pos hidx, hd]
  rfl

theorem swapRemove_some (x : TurboQuantIndex) {idx d : ℕ} (hidx : idx < x.nVectors) (hd : x.dim = some d) :
    ∃ x', x.swapRemove P idx = some (x', x.nVectors - 1) ∧ x.Counted x' (x.nVectors - 1) := by
  have hmark : ∀ last, (x.markRemoval idx last).bitWidth = x.bitWidth ∧
      (x.markRemoval idx last).dim = x.dim := by
    intro last
    have hdirty : ∀ (y : TurboQuantIndex) (slot : ℕ), (y.markDirty slot).bitWidth = y.bitWidth ∧
        (y.markDirty slot).dim = y.dim := by
      intro y slot
      unfold markDirty
      split
      · exact ⟨rfl, rfl⟩
      · exact ⟨rfl, rfl⟩
    unfold markRemoval
    split
    · dsimp only
      split
      · rw [(hdirty _ last).1, (hdirty _ last).2]
        exact hdirty x idx
      · exact hdirty x idx
    · exact ⟨rfl, rfl⟩
  exact ⟨_, swapRemove_eq x hidx hd, rfl, (hmark _).1, fun d' hd' => (hmark _).2.trans hd'⟩

theorem swapRemove_counted (x : TurboQuantIndex) (idx : ℕ) : ∃ n ≤ x.nVectors,
    x.Counted (((x.swapRemove P idx).map Prod.fst).getD x) n := by
  by_cases hidx : idx < x.nVectors
  · cases hd : x.dim with
    | some d =>
      obtain ⟨x', hx', hc⟩ := swapRemove_some (P := P) x hidx hd
      rw [hx']
      exact ⟨_, Nat.sub_le _ _, hc⟩
    | none =>
      refine ⟨x.nVectors, le_rfl, ?_⟩
      unfold swapRemove
      rw [guard_pos hidx, hd]
      exact counted_self x
  · refine ⟨x.nVectors, le_rfl, ?_⟩
    unfold swapRemove
    rw [guard, if_neg hidx]
    exact counted_self x

theorem prepared_counted (x : TurboQuantIndex) (dim : ℕ) : x.Counted (x.prepared P T dim) x.nVectors := by
  unfold prepared
  dsimp only
  split
  · exact ⟨rfl, rfl, fun _ h => h⟩
  · exact ⟨rfl, rfl, fun _ h => h⟩

theorem prepare_counted (x : TurboQuantIndex) : x.Counted (x.prepare P T) x.nVectors := by
  unfold prepare
  split
  · exact counted_self x
  · split
    · exact counted_self x
    · exact prepared_counted x _

theorem search_counted (x : TurboQuantIndex) (queries : List F32) (k : ℕ) (mask : Option (List Bool))
    (threshold : Option F32) :
    x.Counted (x.trySearchWithOptions P T S queries k mask threshold).1 x.nVectors := by
  unfold trySearchWithOptions
  dsimp only
  split
  · exact counted_self x
  · split
    · exact counted_self x
    · rename_i dim _
      split
      · exact counted_self x
      · split
        · exact counted_self x
        · split
          · split
            · split
              · exact counted_self x
              · exact counted_self x
            · exact counted_self x
          · have hp := prepared_counted (P := P) (T := T) x dim
            split
            · exact hp
            · exact hp
            · exact ⟨hp.rows, hp.bits, hp.dim⟩

theorem sync_counted (x : TurboQuantIndex) (path : String) (disk : Disk) :
    x.Counted (x.sync P T path disk).1 x.nVectors := by
  unfold sync
  split
  · exact counted_self x
  · have hmat : ∀ c : Bool, x.Counted (if c then x.materialize P else x) x.nVectors := by
      intro c
      split
      · exact ⟨rfl, rfl, fun _ h => h⟩
      · exact counted_self x
    have hm := hmat x.blocked.isNone
    dsimp only
    split
    · exact ⟨hm.rows, hm.bits, hm.dim⟩
    · exact ⟨hm.rows, hm.bits, hm.dim⟩
    · exact ⟨hm.rows, hm.bits, hm.dim⟩

/-! ## Rows need a dimension -/

/-- Rows are only ever there under a committed dimension. -/
def Dimmed (x : TurboQuantIndex) : Prop := 0 < x.nVectors → x.dim.isSome

theorem Counted.dimmed {n : ℕ} (h : x.Counted x' n) (hx : x.Dimmed) (hn : n ≤ x.nVectors) : x'.Dimmed := by
  intro hpos
  rw [h.rows] at hpos
  obtain ⟨d, hd⟩ := Option.isSome_iff_exists.mp (hx (by omega))
  rw [h.dim d hd]
  rfl

theorem add2d_dimmed (hx : x.Dimmed) (vectors : List F32) (dim : ℕ) (fault : Option Fault) :
    (x.add2d P T K vectors dim fault).1.Dimmed := by
  have hc := add2d_counted (P := P) (T := T) (K := K) x vectors dim fault
  by_cases hrows : addedRows vectors dim (x.add2d P T K vectors dim fault).2 = 0
  · exact hc.dimmed hx (by omega)
  · intro _
    rw [add2d_dim x vectors dim fault hrows]
    rfl

theorem empty_dimmed (dim : Option ℕ) (bitWidth : ℕ) : (empty dim bitWidth).Dimmed :=
  fun h => absurd h (Nat.lt_irrefl 0)

/-- A loaded image with no dimension has no rows, and one id for each row where it has ids. -/
theorem loaded_rows {raw : List UInt8} {g kind : ℕ} {l : V7Load} (h : loadImage T raw g kind = .ok l) :
    (l.dim = 0 → l.nVectors = 0) ∧ (kind = 1 → l.ids.length = l.nVectors) := by
  obtain ⟨img, himg, -, hl⟩ := loadImage_ok h
  obtain ⟨hv, hk, -⟩ := parseImage_ok himg
  constructor
  · rw [hl.dim, hl.nVectors]
    exact hv.dim_zero
  · intro hkind
    rw [hl.ids, hl.nVectors, if_pos (hk.trans hkind), List.length_map, List.length_range]

theorem fromV7_dimmed {l : V7Load} {path : Option String} (h : l.dim = 0 → l.nVectors = 0) :
    (fromV7 P T l path).Dimmed := by
  intro hpos
  have hd : l.dim ≠ 0 := fun h0 => absurd hpos (by
    change ¬0 < l.nVectors
    rw [h h0]
    exact Nat.lt_irrefl 0)
  change (if l.dim ≠ 0 then some l.dim else none).isSome
  rw [if_pos hd]
  rfl

theorem Opened.dimmed (h : Opened P T x) : x.Dimmed := by
  cases h with
  | new h =>
    unfold TurboQuantIndex.new at h
    split at h
    · cases h
    · split at h
      · cases h
      · split at h
        · cases h
        · cases h
          exact empty_dimmed _ _
  | newLazy h =>
    unfold TurboQuantIndex.newLazy at h
    split at h
    · cases h
    · cases h
      exact empty_dimmed _ _
  | @fromParts dim bitWidth nVectors packedCodes scales shift scale h =>
    rw [TurboQuantIndex.fromParts, bind_eq_ok] at h
    obtain ⟨_, hlen, h⟩ := h
    rw [bind_eq_ok] at h
    obtain ⟨_, -, h⟩ := h
    cases h
    intro hpos
    cases dim with
    | some d => rfl
    | none =>
      unfold checkLengths at hlen
      dsimp only at hlen
      split at hlen
      · cases hlen
      · split at hlen
        · cases hlen
        · split at hlen
          · cases hlen
          · rename_i hn
            change 0 < nVectors at hpos
            exact absurd hpos (by omega)
  | load h =>
    rw [TurboQuantIndex.load] at h
    split at h
    · rw [bind_eq_ok] at h
      obtain ⟨l, hl, h⟩ := h
      cases h
      exact fromV7_dimmed (loaded_rows hl).1
    · cases h
  | fromBytes h =>
    rw [TurboQuantIndex.fromBytes, bind_eq_ok] at h
    obtain ⟨l, hl, h⟩ := h
    cases h
    exact fromV7_dimmed (loaded_rows hl).1

theorem after_dimmed (hx : x.Dimmed) (c : Call) : (x.after P T K S c).Dimmed := by
  cases c with
  | add vectors dim fault => exact add2d_dimmed hx vectors dim fault
  | calibrate sample dim fault => exact (calibrate2d_counted x sample dim fault).dimmed hx le_rfl
  | swapRemove idx =>
    obtain ⟨n, hn, hc⟩ := swapRemove_counted (P := P) x idx
    exact hc.dimmed hx hn
  | search queries k mask threshold => exact (search_counted x queries k mask threshold).dimmed hx le_rfl
  | packedCodes => exact hx
  | prepare => exact (prepare_counted x).dimmed hx le_rfl
  | sync path disk => exact (sync_counted x path disk).dimmed hx le_rfl

theorem Reachable.dimmed (h : Reachable P T K S x) : x.Dimmed := by
  induction h with
  | opened h => exact h.dimmed
  | call _ c ih => exact after_dimmed ih c

end

end TurboQuantIndex

/-! ## Two rows -/

/-- A host with none of the layout features. -/
def plainHost : Platform := ⟨.other, false, false, false, false, false, false⟩

def zeroKernels : Kernels where
  encode _ n dim _ _ _ bits _ := (List.replicate (n * (bits * (dim / 8))) 0, List.replicate n 0)
  fitCalibration _ _ dim _ _ := (List.replicate dim 0, List.replicate dim 1)
  reencode _ scales dim bits _ _ _ _ := (List.replicate (scales.length * (bits * (dim / 8))) 0, scales)

def zeroScan : ScanKernels where
  outer _ _ _ := ⟨0, 0, [0, 0, 0], 0, 0⟩
  fit _ _ _ := ⟨0, 0, [0, 0, 0], 0, 0⟩
  weight _ _ _ := 0
  signSum _ _ := 0
  search _ := ([], [])

def twoRows : TurboQuantIndex :=
  { TurboQuantIndex.empty (some 8) 2 with nVectors := 2, packedCodes := some [0, 0, 0, 0], scales := [1, 1] }

theorem twoRows_opened : TurboQuantIndex.Opened plainHost levelTables twoRows :=
  @TurboQuantIndex.Opened.fromParts plainHost levelTables twoRows (some 8) 2 2 [0, 0, 0, 0] [1, 1] [] [] rfl

/-- The zero rows of one whole block. -/
def wholeRows : TurboQuantIndex :=
  { TurboQuantIndex.empty (some 8) 2 with
    nVectors := 32, packedCodes := some (List.replicate 64 0), scales := List.replicate 32 1 }

theorem wholeRows_opened : TurboQuantIndex.Opened plainHost levelTables wholeRows :=
  @TurboQuantIndex.Opened.fromParts plainHost levelTables wholeRows (some 8) 2 32 (List.replicate 64 0)
    (List.replicate 32 1) [] [] rfl

/-- The same rows and one more. -/
def blockRows : TurboQuantIndex :=
  { TurboQuantIndex.empty (some 8) 2 with
    nVectors := 33, packedCodes := some (List.replicate 66 0), scales := List.replicate 32 1 ++ [0] }

theorem blockRows_opened : TurboQuantIndex.Opened plainHost levelTables blockRows :=
  @TurboQuantIndex.Opened.fromParts plainHost levelTables blockRows (some 8) 2 33 (List.replicate 66 0)
    (List.replicate 32 1 ++ [0]) [] [] rfl

end Turbovec
