import Turbovec.Index.Derived

/-!
# What an index writes

The rows and units an index hands to the writer, read from whichever code layout is live, with the bytes a
removal captured in place of the rows they were captured from.
-/

namespace Turbovec

open Pack IoV7 Slice Grid

namespace TurboQuantIndex

section variable (P : Platform) (T : Tables)

/-- The arena offset captured for `slot`, the latest if there are more; none while the packed rows are
live. -/
def captureLookup (x : TurboQuantIndex) (slot : ℕ) : Option ℕ :=
  if x.packedCodes.isSome || x.syncCaptureAt.isEmpty then none
  else (x.syncCaptureAt.reverse.find? fun c => c.1 = slot).map Prod.snd

/-- Row `idx` in the sequential layout, read from whichever layout is live. -/
def seqRow (x : TurboQuantIndex) (idx : ℕ) : List UInt8 :=
  let dim := x.dim.getD 0
  let packedRow := dim * x.bitWidth / 8
  let rowBytes := (blockedGeometry 1 x.bitWidth dim).2.1
  match x.packedCodes with
  | some packed => extractCodesFlat (rowAt packed packedRow idx) 1 x.bitWidth dim
  | none =>
    match x.blocked with
    | some cache =>
      if cache.isPlanes then planesReadRow P cache.data cache.low x.bitWidth rowBytes idx
      else laneRow P cache.data x.bitWidth rowBytes idx
    | none => []

/-- A row as the writer is given it: its capture, where it has one. -/
def rowCodes (x : TurboQuantIndex) (idx : ℕ) : List UInt8 :=
  let lane := (blockedGeometry x.nVectors x.bitWidth (x.dim.getD 0)).2.1
  match x.captureLookup idx with
  | some off => bytesAt x.syncCaptureBuf off lane
  | none => x.seqRow P idx

/-- The layout of the units this index writes, from its geometry and size alone. -/
def unitLayout (x : TurboQuantIndex) : ℕ :=
  match x.dim with
  | none => LAYOUT_SEQ
  | some dim =>
    let rowBytes := (blockedGeometry x.nVectors x.bitWidth dim).2.1
    if planesWanted P x.bitWidth rowBytes x.nVectors then LAYOUT_PLANES else LAYOUT_SEQ

/-- The whole blocks of the rows `[fr, upTo)` in the sequential layout. -/
def seqBlocksRange (x : TurboQuantIndex) (fr upTo : ℕ) : List UInt8 :=
  let dim := x.dim.getD 0
  let packedRow := dim * x.bitWidth / 8
  let rowBytes := (blockedGeometry 1 x.bitWidth dim).2.1
  let n := upTo - fr
  match x.packedCodes with
  | some packed =>
    let flat := extractCodesFlat ((packed.drop (fr * packedRow)).take (n * packedRow)) n x.bitWidth dim
    packBlockedSequential n (n / BLOCK) rowBytes flat
  | none =>
    match x.blocked with
    | some cache =>
      if cache.isPlanes then
        let (nsg, lowRow) := planesGeom x.bitWidth rowBytes
        planesToSeq P ((cache.data.drop (fr * nsg)).take (n * nsg))
          ((cache.low.drop (fr * lowRow)).take (min (upTo * lowRow) cache.low.length - fr * lowRow))
          x.bitWidth rowBytes (min n (x.nVectors - fr))
      else
        let blockBytes := rowBytes * BLOCK
        nativeToSeq P ((cache.data.drop (fr / BLOCK * blockBytes)).take (n / BLOCK * blockBytes))
          x.bitWidth rowBytes
    | none => []

/-- The unit code bytes of the whole blocks of the rows `[fr, upTo)`. -/
def unitCodesRange (x : TurboQuantIndex) (layout fr upTo : ℕ) : List UInt8 :=
  if layout ≠ LAYOUT_PLANES then x.seqBlocksRange P fr upTo
  else
    let rowBytes := (blockedGeometry 1 x.bitWidth (x.dim.getD 0)).2.1
    let fromRows :=
      let nRange := min (upTo - fr) (x.nVectors - fr)
      let (sign, low) := planesFromSeq P (x.seqBlocksRange P fr upTo) x.bitWidth rowBytes nRange
      (List.range ((upTo - fr) / BLOCK)).flatMap fun b =>
        planesUnitCodes P sign low x.bitWidth rowBytes b nRange
    match x.blocked with
    | some cache =>
      if cache.isPlanes then
        (List.range (upTo / BLOCK - fr / BLOCK)).flatMap fun b =>
          planesUnitCodes P cache.data cache.low x.bitWidth rowBytes (fr / BLOCK + b) x.nVectors
      else fromRows
    | none => fromRows

/-- What a write seeds first: one code layout, and the codebook of a committed dimension. -/
def seeded (x : TurboQuantIndex) : TurboQuantIndex :=
  let x := if x.blocked.isNone then x.materialize P else x
  match x.dim with
  | some dim => { x with
      boundaries := some (x.boundaries.getD (T.codebook x.bitWidth dim).1)
      centroids := some (x.centroids.getD (T.codebook x.bitWidth dim).2) }
  | none => x

/-- `with_sync_source` of an already seeded index. -/
def syncSource (x : TurboQuantIndex) (kind : ℕ) (ids : Option (List UInt64)) (version : ℕ) : SyncSource :=
  let layout := if version = 8 then x.unitLayout P else LAYOUT_SEQ
  let levels := 2 ^ x.bitWidth
  { kind
    dim := x.dim.getD 0
    bitWidth := x.bitWidth
    nVectors := x.nVectors
    version
    layout
    unitCodes := x.unitCodesRange P layout
    rowCodes := x.rowCodes P
    scales := x.scales
    ids
    tqplusShift := x.tqplusShift
    tqplusScale := x.tqplusScale
    boundaries := if x.dim.isNone then List.replicate (levels - 1) 0 else x.boundaries.getD []
    centroids := if x.dim.isNone then List.replicate levels 0 else x.centroids.getD [] }

/-- A full image in the given container version. -/
def imageInVersion (x : TurboQuantIndex) (kind : ℕ) (ids : Option (List UInt64)) (version : ℕ) :
    List UInt8 :=
  imageBytes ((x.seeded P T).syncSource P kind ids version)

def toBytes (x : TurboQuantIndex) : List UInt8 := x.imageInVersion P T 0 none 8

end

end TurboQuantIndex

end Turbovec
