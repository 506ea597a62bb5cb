import Mathlib.Data.Finset.Basic
import Mathlib.Data.Finset.Dedup
import Turbovec.IoV7.Load
import Turbovec.Pack.PlanesSeq

/-!
# The index

`TurboQuantIndex` and its search cache, and how an index is assembled from what a file holds. A
`OnceLock` is an option: unset, or the value it was first set to.
-/

namespace Turbovec

open Pack IoV7

structure PlanesStats where
  m : F32
  alpha : F32
  beta : List F32
  alpha1 : F32
  beta1 : F32
deriving DecidableEq, Repr

/-- The rows in the layout the kernels scan. Under the planes layout `data` is the sign region and
`low` the low region; otherwise `low` is empty. -/
structure BlockedCache where
  data : List UInt8
  nBlocks : ℕ
  low : List UInt8
  stats : Option PlanesStats
  sample : Option (Option (List UInt8 × List F32))
  centre : Option (List F32)
deriving DecidableEq, Repr

def BlockedCache.isPlanes (cache : BlockedCache) : Bool := !cache.low.isEmpty

structure TurboQuantIndex where
  dim : Option ℕ
  bitWidth : ℕ
  nVectors : ℕ
  packedCodes : Option (List UInt8)
  scales : List F32
  tqplusShift : List F32
  tqplusScale : List F32
  /-- the dimension the rotation was built for -/
  rotation : Option ℕ
  boundaries : Option (List F32)
  centroids : Option (List F32)
  blocked : Option BlockedCache
  syncCursor : Option SyncCursor
  syncPath : Option String
  syncPending : Finset ℕ
  syncFresh : Finset ℕ
  syncCaptureBuf : List UInt8
  syncCaptureAt : List (ℕ × ℕ)
  calibGen : ℕ
deriving DecidableEq

namespace TurboQuantIndex

/-- An index of no rows. -/
def empty (dim : Option ℕ) (bitWidth : ℕ) : TurboQuantIndex where
  dim := dim
  bitWidth := bitWidth
  nVectors := 0
  packedCodes := some []
  scales := []
  tqplusShift := []
  tqplusScale := []
  rotation := none
  boundaries := none
  centroids := none
  blocked := none
  syncCursor := none
  syncPath := none
  syncPending := ∅
  syncFresh := ∅
  syncCaptureBuf := []
  syncCaptureAt := []
  calibGen := 0

inductive ConstructError
  | bitWidthOutOfRange (bitWidth : ℕ)
  | dimNotPositiveMultipleOf8 (dim : ℕ)
  | dimTooLarge (dim max : ℕ)
deriving DecidableEq, Repr

def new (dim bitWidth : ℕ) : Except ConstructError TurboQuantIndex :=
  if ¬(2 ≤ bitWidth ∧ bitWidth ≤ 4) then .error (.bitWidthOutOfRange bitWidth)
  else if dim = 0 ∨ dim % 8 ≠ 0 then .error (.dimNotPositiveMultipleOf8 dim)
  else if dim > MAX_DIM then .error (.dimTooLarge dim MAX_DIM)
  else .ok (empty (some dim) bitWidth)

def newLazy (bitWidth : ℕ) : Except ConstructError TurboQuantIndex :=
  if ¬(2 ≤ bitWidth ∧ bitWidth ≤ 4) then .error (.bitWidthOutOfRange bitWidth)
  else .ok (empty none bitWidth)

/-! ## From a file -/

/-- A declared identity is no calibration. -/
def normalizeCalibration (tqplusShift tqplusScale : List F32) : List F32 × List F32 :=
  let declaresNothing := tqplusShift.all (fun x => F32.eq x 0) && tqplusScale.all (fun x => F32.eq x 1)
  if declaresNothing then ([], []) else (tqplusShift, tqplusScale)

/-- The search cache of a loaded image: its layout in this host's form, or converted to the one this
host scans. -/
def cacheOfV7 (P : Platform) (l : V7Load) : BlockedCache :=
  let nBlocks := (l.nVectors + 31) / 32
  let nbg := (blockedGeometry l.nVectors l.bitWidth l.dim).2.1
  let (data, low) := match decide (l.layout = LAYOUT_PLANES), planesWanted P l.bitWidth nbg l.nVectors with
    | true, true => (planesSignToNative P l.sign (planesGeom l.bitWidth nbg).1, l.low)
    | true, false =>
      let packed := planesCanonicalToPacked l.sign l.low l.bitWidth nbg l.nVectors
      (seqIntoNative P (repackSeq packed l.nVectors l.bitWidth l.dim) l.bitWidth nbg, [])
    | false, true => planesFromSeqOwned P l.seqBlocked l.bitWidth nbg l.nVectors
    | false, false => (seqIntoNative P l.seqBlocked l.bitWidth nbg, [])
  ⟨data, nBlocks, low, none, none, none⟩

/-- The index of a loaded image, bound to `path` when one is given. -/
def fromV7 (P : Platform) (T : Tables) (l : V7Load) (path : Option String) : TurboQuantIndex :=
  let calibration := normalizeCalibration l.tqplusShift l.tqplusScale
  let (boundaries, centroids) := if l.dim = 0 then ([], []) else T.codebook l.bitWidth l.dim
  let rows := decide (l.nVectors ≠ 0)
  { empty (if l.dim ≠ 0 then some l.dim else none) l.bitWidth with
    nVectors := l.nVectors
    packedCodes := if rows then none else some []
    scales := l.scales
    tqplusShift := calibration.1
    tqplusScale := calibration.2
    boundaries := if rows then some boundaries else none
    centroids := if rows then some centroids else none
    blocked := if rows then some (cacheOfV7 P l) else none
    syncCursor := path.map fun _ => l.cursor
    syncPath := path
    syncPending := l.pendingSlots.toFinset }

/-- The index with no sync destination. -/
def unbound (x : TurboQuantIndex) : TurboQuantIndex := { x with syncCursor := none, syncPath := none }

end TurboQuantIndex

end Turbovec
