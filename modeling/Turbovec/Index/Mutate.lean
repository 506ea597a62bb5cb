import Turbovec.Index.Cache

/-!
# Adding, removing, calibrating

The mutations of an index. The floating-point kernels are parameters; an unwind out of a kernel or a
repack is a fault given to the call, with what it had written by then, and the call's result says what
the caller who catches it is left with.
-/

namespace Turbovec

open Pack IoV7 Slice

/-! ## Inputs -/

/-- `1e16` -/
def MAX_INPUT_MAGNITUDE : F32 := ⟨0x5A0E1BCA⟩

def MIN_CALIBRATION_ROWS : ℕ := 2

/-- A coordinate an add takes: finite, of magnitude below `1e16`. -/
def validCoord (x : F32) : Bool := F32.lt x.abs MAX_INPUT_MAGNITUDE

/-- Row, column and value of the first coordinate an add refuses. -/
def firstInvalidCoord (values : List F32) (dim : ℕ) : Option (ℕ × ℕ × F32) :=
  (values.findIdx? fun x => !validCoord x).map fun i =>
    (if dim = 0 then 0 else i / dim, if dim = 0 then i else i % dim, entry values i)

inductive AddError
  | dimMismatch (existing got : ℕ)
  | dimNotMultipleOf8 (dim : ℕ)
  | dimTooLarge (dim max : ℕ)
  | vectorBufferNotMultipleOfDim (vectorsLen dim : ℕ)
  | zeroDim
  | idsCountMismatch (expected got : ℕ)
  | idAlreadyPresent (id : UInt64)
  | duplicateIdInBatch (id : UInt64)
  | invalidInputValue (vectorIndex coordIndex : ℕ) (value : F32)
deriving DecidableEq, Repr

inductive CalibrateError
  | dimMismatch (existing got : ℕ)
  | dimNotMultipleOf8 (dim : ℕ)
  | dimTooLarge (dim max : ℕ)
  | sampleBufferNotMultipleOfDim (sampleLen dim : ℕ)
  | zeroDim
  | sampleTooSmall (rows min : ℕ)
  | invalidInputValue (vectorIndex coordIndex : ℕ) (value : F32)
  | degenerateSample
deriving DecidableEq, Repr

/-- How a call ends. -/
inductive Outcome (ε : Type)
  | ok
  | err (e : ε)
  | panic
deriving DecidableEq, Repr

/-- An unwind out of one of the fallible steps of a mutation. -/
inductive Fault
  /-- out of the encoder, after it appended these -/
  | encode (codes : List UInt8) (scales : List F32)
  /-- out of a repack the call guards -/
  | repack
  /-- out of an in-place update of the cache, which leaves this -/
  | cacheUpdate (cache : BlockedCache)
  /-- out of the calibration fit -/
  | fit
  /-- out of the re-encoding of the stored rows -/
  | reencode
deriving DecidableEq

/-- The floating-point kernels. -/
structure Kernels where
  /-- packed rows and scales of a batch: vectors, rows, dimension, the rotation's dimension, boundaries,
  centroids, width, calibration -/
  encode : List F32 → ℕ → ℕ → ℕ → List F32 → List F32 → ℕ → Option (List F32 × List F32) →
    List UInt8 × List F32
  /-- a calibration pair: sample, rows, dimension, the rotation's dimension, centroids -/
  fitCalibration : List F32 → ℕ → ℕ → ℕ → List F32 → List F32 × List F32
  /-- packed rows and scales of re-encoded rows: the rows, their scales, dimension, width, boundaries,
  centroids, the old pair, the new pair -/
  reencode : List UInt8 → List F32 → ℕ → ℕ → List F32 → List F32 → List F32 × List F32 →
    List F32 × List F32 → List UInt8 × List F32

namespace TurboQuantIndex

section variable (P : Platform) (T : Tables) (K : Kernels)

/-! ## Derived state -/

/-- The packed rows, materialized from the cache when unset. -/
def packed (x : TurboQuantIndex) : List UInt8 :=
  match x.packedCodes with
  | some p => p
  | none =>
    match x.dim, x.blocked with
    | some dim, some cache =>
      if x.nVectors = 0 then []
      else seqToPacked (cache.toSeq P x.nVectors x.bitWidth (blockedGeometry x.nVectors x.bitWidth dim).2.1)
        x.nVectors x.bitWidth dim
    | _, _ => []

/-- The rotation and the codebook, computed unless already there. -/
def warm (x : TurboQuantIndex) (dim : ℕ) : TurboQuantIndex :=
  { x with
    rotation := some (x.rotation.getD dim)
    boundaries := some (x.boundaries.getD (T.codebook x.bitWidth dim).1)
    centroids := some (x.centroids.getD (T.codebook x.bitWidth dim).2) }

/-- Everything derived from a dimension not committed after all. -/
def cool (x : TurboQuantIndex) : TurboQuantIndex :=
  { x with rotation := none, boundaries := none, centroids := none }

/-- The committed calibration, or none. -/
def calibration (x : TurboQuantIndex) : Option (List F32 × List F32) :=
  if x.tqplusShift.isEmpty then none else some (x.tqplusShift, x.tqplusScale)

/-- Whether an add leaves the packed rows unset and appends to the cache alone. -/
def lazyAppend (x : TurboQuantIndex) : Bool :=
  decide (x.nVectors > 0) && x.packedCodes.isNone && x.blocked.isSome

/-! ## Adding -/

/-- `encode_and_append` past its warm-up. `.error` is what an unwind leaves. The code and scale buffers
are taken out of the index while they are appended to. -/
def appendRows (x : TurboQuantIndex) (vectors : List F32) (n dim : ℕ) (fault : Option Fault) :
    Except TurboQuantIndex TurboQuantIndex :=
  let rows := K.encode vectors n dim (x.rotation.getD dim) (x.boundaries.getD []) (x.centroids.getD [])
    x.bitWidth x.calibration
  let newN := x.nVectors + n
  if x.lazyAppend then
    match fault with
    | some (.encode _ scales) => .error { x with scales := (x.scales ++ scales).take x.scales.length }
    | some (.cacheUpdate cache) => .error { x with scales := [], blocked := some cache }
    | _ => .ok { x with
        blocked := x.blocked.map fun cache => cache.appendRows P rows.1 x.nVectors n x.bitWidth dim
        scales := x.scales ++ rows.2
        nVectors := newN }
  else
    let codes := x.packed P
    let restored (codes' : List UInt8) (scales' : List F32) := { x with
      packedCodes := some ((codes ++ codes').take codes.length)
      scales := (x.scales ++ scales').take x.scales.length }
    let committed (cache : BlockedCache) := { x with
      packedCodes := none
      blocked := some cache
      scales := x.scales ++ rows.2
      nVectors := newN }
    match fault with
    | some (.encode codes' scales') => .error (restored codes' scales')
    | some .repack => .error (restored rows.1 rows.2)
    | _ =>
      match x.blocked, fault with
      | none, _ => .ok (committed (BlockedCache.build P (codes ++ rows.1) newN x.bitWidth dim))
      | some _, some (.cacheUpdate cache) =>
        .error { x with packedCodes := none, scales := [], blocked := some cache }
      | some cache, _ => .ok (committed (cache.patch P (codes ++ rows.1) x.nVectors newN x.bitWidth dim))

/-- `add`, past the dimension. -/
def add (x : TurboQuantIndex) (vectors : List F32) (dim : ℕ) (fault : Option Fault) :
    Except TurboQuantIndex TurboQuantIndex :=
  let n := vectors.length / dim
  if vectors.length ≠ n * dim then .error x
  else if n = 0 then .ok x
  else if (firstInvalidCoord vectors dim).isSome then .error x
  else appendRows P K (x.warm T dim) vectors n dim fault

/-- What an add refuses of a dimension. -/
def checkAddDim (x : TurboQuantIndex) (dim : ℕ) : Except AddError Unit :=
  match x.dim with
  | some existing => if existing ≠ dim then .error (.dimMismatch existing dim) else .ok ()
  | none =>
    if dim = 0 then .error .zeroDim
    else if dim % 8 ≠ 0 then .error (.dimNotMultipleOf8 dim)
    else if dim > MAX_DIM then .error (.dimTooLarge dim MAX_DIM)
    else .ok ()

def add2d (x : TurboQuantIndex) (vectors : List F32) (dim : ℕ) (fault : Option Fault) :
    TurboQuantIndex × Outcome AddError :=
  match x.checkAddDim dim with
  | .error e => (x, .err e)
  | .ok () =>
    match firstInvalidCoord vectors dim with
    | some (i, j, v) => (x, .err (.invalidInputValue i j v))
    | none =>
      if vectors.length % dim ≠ 0 then (x, .panic)
      else if vectors.isEmpty then (x, .ok)
      else match x.dim with
        | none =>
          match add P T K { x with dim := some dim } vectors dim fault with
          | .ok x' => (x', .ok)
          | .error x' => ({ x'.cool with dim := none }, .panic)
        | some _ =>
          match add P T K x vectors dim fault with
          | .ok x' => (x', .ok)
          | .error x' => (x', .panic)

/-! ## Calibrating -/

/-- What a calibrate refuses of a dimension. -/
def checkCalibrateDim (x : TurboQuantIndex) (dim : ℕ) : Except CalibrateError Unit :=
  match x.dim with
  | some existing => if existing ≠ dim then .error (.dimMismatch existing dim) else .ok ()
  | none =>
    if dim = 0 then .error .zeroDim
    else if dim % 8 ≠ 0 then .error (.dimNotMultipleOf8 dim)
    else if dim > MAX_DIM then .error (.dimTooLarge dim MAX_DIM)
    else .ok ()

/-- A refused calibrate leaves nothing derived from a dimension it does not commit. -/
def uncommitted (x : TurboQuantIndex) : TurboQuantIndex :=
  if x.dim.isNone then x.cool else x

/-- The pair the stored codes decode under. -/
def oldPair (x : TurboQuantIndex) (dim : ℕ) : List F32 × List F32 :=
  if x.tqplusShift.isEmpty then (List.replicate dim 0, List.replicate dim 1)
  else (x.tqplusShift, x.tqplusScale)

/-- The commit of a fitted pair. -/
def commitCalibration (x : TurboQuantIndex) (dim : ℕ) (pair : List F32 × List F32) : TurboQuantIndex :=
  let rows := K.reencode (x.packed P) x.scales dim x.bitWidth (x.boundaries.getD []) (x.centroids.getD [])
    (x.oldPair dim) pair
  let x := if x.nVectors > 0 then
      { x with packedCodes := some rows.1, scales := rows.2, blocked := none }
    else x
  { x with
    dim := some dim
    tqplusShift := pair.1
    tqplusScale := pair.2
    calibGen := x.calibGen + 1
    syncCaptureBuf := []
    syncCaptureAt := [] }

def calibrate2d (x : TurboQuantIndex) (sample : List F32) (dim : ℕ) (fault : Option Fault) :
    TurboQuantIndex × Outcome CalibrateError :=
  match x.checkCalibrateDim dim with
  | .error e => (x, .err e)
  | .ok () =>
    if sample.length % dim ≠ 0 then (x, .err (.sampleBufferNotMultipleOfDim sample.length dim))
    else
      let n := sample.length / dim
      if n < MIN_CALIBRATION_ROWS then (x, .err (.sampleTooSmall n MIN_CALIBRATION_ROWS))
      else match firstInvalidCoord sample dim with
        | some (i, j, v) => (x, .err (.invalidInputValue i j v))
        | none =>
          let x := x.warm T dim
          if fault = some .fit then (x.uncommitted, .panic)
          else
            let pair := K.fitCalibration sample n dim (x.rotation.getD dim) (x.centroids.getD [])
            if pair.1.all (fun v => F32.eq v 0) && pair.2.all (fun v => F32.eq v 1) then
              (x.uncommitted, .err .degenerateSample)
            else if decide (x.nVectors > 0) && fault = some .reencode then
              -- the rows were materialized to be re-encoded
              ({ x with packedCodes := some (x.packed P) }, .panic)
            else (x.commitCalibration P K dim pair, .ok)

/-! ## Removing -/

/-- Slots below this are on the disk as whole committed blocks. -/
def syncWatermark (x : TurboQuantIndex) : ℕ :=
  match x.syncCursor with
  | some c => c.nSynced / BLOCK * BLOCK
  | none => 0

def markDirty (x : TurboQuantIndex) (slot : ℕ) : TurboQuantIndex :=
  if slot < x.syncWatermark then { x with syncFresh := insert slot x.syncFresh } else x

/-- The removal's marks: the hole, and the slot the filler leaves. -/
def markRemoval (x : TurboQuantIndex) (idx last : ℕ) : TurboQuantIndex :=
  if x.syncCursor.isSome then
    let x := x.markDirty idx
    if last ≠ idx then x.markDirty last else x
  else x

/-- Where the bytes moved into slot `idx` are captured for the next sync, if they are. -/
def captureAt (x : TurboQuantIndex) (idx lane : ℕ) : Option ℕ :=
  if P.arch = .x86_64 ∧ x.syncCursor.isSome ∧ idx < x.syncWatermark ∧ x.packedCodes.isNone then
    match x.syncCaptureAt.find? fun c => c.1 = idx with
    | some c => some c.2
    | none => if x.syncCaptureBuf.length < MAX_OPS * lane then some x.syncCaptureBuf.length else none
  else none

/-- The code bytes of row `v` as a removal captures them. -/
def captureRow (cache : BlockedCache) (bits nbg v : ℕ) : List UInt8 :=
  if cache.isPlanes then planesReadRow P cache.data cache.low bits nbg v
  else laneRow P cache.data bits nbg v

/-- The captures after a removal: both slots' old entries retired, the moved row's bytes recorded. -/
def capture (x : TurboQuantIndex) (idx last lane : ℕ) (at_ : Option ℕ) : TurboQuantIndex :=
  let buf := match at_, x.blocked with
    | some off, some cache =>
      if idx ≠ last then
        overwrite (if off = x.syncCaptureBuf.length then resize x.syncCaptureBuf (off + lane)
          else x.syncCaptureBuf) off (captureRow P cache x.bitWidth lane last)
      else x.syncCaptureBuf
    | _, _ => x.syncCaptureBuf
  let kept := x.syncCaptureAt.filter fun c => c.1 ≠ idx ∧ c.1 ≠ last
  { x with
    syncCaptureBuf := buf
    syncCaptureAt := match at_ with
      | some off => if idx ≠ last ∧ idx < 2 ^ 32 then kept ++ [(idx, off)] else kept
      | none => kept }

/-- The rows without row `idx`, the last row in its place. -/
def dropRow (x : TurboQuantIndex) (idx last dim : ℕ) : TurboQuantIndex :=
  let bytes := dim * x.bitWidth / 8
  { x with
    packedCodes := x.packedCodes.map fun p =>
      (if idx ≠ last then copyWithin p (last * bytes) bytes (idx * bytes) else p).take (last * bytes)
    scales := (if idx ≠ last then x.scales.set idx (entry x.scales last) else x.scales).take last
    nVectors := last
    blocked := x.blocked.map fun cache => cache.removeRow P idx last x.bitWidth dim }

/-- `swap_remove`: the slot moved from, or none where it asserts. -/
def swapRemove (x : TurboQuantIndex) (idx : ℕ) : Option (TurboQuantIndex × ℕ) := do
  guard (idx < x.nVectors)
  let dim ← x.dim
  let last := x.nVectors - 1
  let lane := (blockedGeometry x.nVectors x.bitWidth dim).2.1
  let x := x.markRemoval idx last
  let at_ := x.captureAt P idx lane
  return ((x.capture P idx last lane at_).dropRow P idx last dim, last)

end

end TurboQuantIndex

end Turbovec
