import Turbovec.Index.Mutate

/-!
# Searching

What a search builds on the way to the scan, and what it hands to it. The scan and the floating-point
steps of the derived members are parameters; which rows, words and counts they are given is not.
-/

namespace Turbovec

open Pack IoV7 Slice Grid

inductive SearchError
  | queryBufferNotMultipleOfDim (queriesLen dim : ℕ)
  | invalidQueryValue (queryIndex coordIndex : ℕ) (value : F32)
  | maskLengthMismatch (expected got : ℕ)
  | allowlistEmpty
  | unknownId (id : UInt64)
deriving DecidableEq, Repr

structure SearchResults where
  scores : List F32
  indices : List ℤ
  nq : ℕ
  k : ℕ
deriving DecidableEq, Repr

/-- What the scan reads of a planes cache, past its sign region. -/
structure PlanesRef where
  low : List UInt8
  stats : PlanesStats
  sample : Option (List UInt8 × List F32)
  centre : Option (List F32)

/-- What the scan is given. -/
structure ScanInput where
  queries : List F32
  nq : ℕ
  rotation : ℕ
  data : List UInt8
  centroids : List F32
  scales : List F32
  tqplusShift : List F32
  tqplusScale : List F32
  bitWidth : ℕ
  dim : ℕ
  nVectors : ℕ
  nBlocks : ℕ
  k : ℕ
  mask : Option (List UInt64)
  planes : Option PlanesRef
  initialThreshold : F32

/-- The floating-point steps of a search. -/
structure ScanKernels where
  /-- two-bit statistics: the centroids, and how many of how many codes are on an outer level -/
  outer : List F32 → ℕ → ℕ → PlanesStats
  /-- statistics fitted to a histogram of the codes: the width, the centroids, the counts -/
  fit : ℕ → List F32 → List ℕ → PlanesStats
  /-- a centre weight: mean magnitude, shift, scale -/
  weight : F32 → F32 → F32 → F32
  /-- a row's centre term: the weights, the row's sign bytes -/
  signSum : List F32 → List UInt8 → F32
  /-- scores and slots, row-major -/
  search : ScanInput → List F32 × List ℤ

/-! ## Derived members of a planes cache -/

def STATS_BLOCKS : ℕ := 64

def SAMPLE_BLOCKS : ℕ := 48

/-- How many bits of a byte are set. -/
def countOnes (b : UInt8) : ℕ := (List.range 8).countP fun i => b.toNat.testBit i

/-- How many codes of the head of the cache are on an outer level, of how many. -/
def planesOuterCount (P : Platform) (sign low : List UInt8) (nVectors nByteGroups : ℕ) : ℕ × ℕ :=
  let nsg := nByteGroups / 2
  let n := min nVectors (STATS_BLOCKS * BLOCK)
  (((List.range n).map fun v =>
      ((List.range nsg).map fun g =>
        let s := entry sign (v / BLOCK * nsg * BLOCK + planesSlot P g (v % BLOCK))
        countOnes (~~~(s ^^^ entry low (v * nsg + g)))).sum).sum,
    n * nsg * 8)

/-- How often each code occurs in the head of the cache. -/
def planesHistogram (P : Platform) (sign low : List UInt8) (nVectors bits nByteGroups : ℕ) : List ℕ :=
  let codes := (List.range (min nVectors (STATS_BLOCKS * BLOCK))).flatMap fun v =>
    (planesReadRow P sign low bits nByteGroups v).flatMap fun byte =>
      (List.range (8 / bits)).map fun c => (byte.toNat >>> (c * bits)) % 2 ^ bits
  (List.range (2 ^ bits)).map fun code => codes.count code

section variable (P : Platform) (S : ScanKernels)

def planesStats (sign low : List UInt8) (nVectors bits nByteGroups : ℕ) (centroids : List F32) :
    PlanesStats :=
  if bits = 2 then
    let (outer, total) := planesOuterCount P sign low nVectors nByteGroups
    S.outer centroids outer total
  else S.fit bits centroids (planesHistogram P sign low nVectors bits nByteGroups)

/-- Each row's centre term. -/
def planesCentre (sign : List UInt8) (nVectors nsg : ℕ) (w : List F32) : List F32 :=
  (List.range nVectors).map fun v => S.signSum w <| (List.range nsg).map fun g =>
    entry sign (v / BLOCK * nsg * BLOCK + planesSlot P g (v % BLOCK))

end

/-- A strided sample of whole sign blocks with their scales, none below the size that pays for it. -/
def planesSample (sign : List UInt8) (scales : List F32) (nVectors nsg : ℕ) :
    Option (List UInt8 × List F32) :=
  let fullBlocks := nVectors / BLOCK
  if fullBlocks < 1024 then none
  else
    let stride := fullBlocks / SAMPLE_BLOCKS
    let bb := nsg * BLOCK
    let blocks := (List.range SAMPLE_BLOCKS).map fun i => i * stride + stride / 2
    some (blocks.flatMap fun b => (sign.drop (b * bb)).take bb,
      blocks.flatMap fun b => (scales.drop (b * BLOCK)).take BLOCK)

namespace TurboQuantIndex

section variable (P : Platform) (T : Tables) (S : ScanKernels)

/-- The packed rows set. -/
def materialize (x : TurboQuantIndex) : TurboQuantIndex := { x with packedCodes := some (x.packed P) }

/-- `packed_codes` -/
def readPacked (x : TurboQuantIndex) : TurboQuantIndex × List UInt8 := (x.materialize P, x.packed P)

/-- The rotation, the centroids and the cache of an index with rows. The cache is built from the packed
rows. -/
def prepared (x : TurboQuantIndex) (dim : ℕ) : TurboQuantIndex :=
  let x := { x with
    rotation := some (x.rotation.getD dim)
    centroids := some (x.centroids.getD (T.codebook x.bitWidth dim).2) }
  match x.blocked with
  | some _ => x
  | none => { x.materialize P with
      blocked := some (BlockedCache.build P (x.packed P) x.nVectors x.bitWidth dim) }

def prepare (x : TurboQuantIndex) : TurboQuantIndex :=
  match x.dim with
  | none => x
  | some dim => if x.nVectors = 0 then x else x.prepared P T dim

/-- The derived members a search of a planes cache sets where they are unset. -/
def derived (x : TurboQuantIndex) (dim : ℕ) (cache : BlockedCache) : BlockedCache :=
  if cache.isPlanes then
    let stats := cache.stats.getD (planesStats P S cache.data cache.low x.nVectors x.bitWidth
      (dim / codesPerByte x.bitWidth) (x.centroids.getD []))
    let w := (List.range dim).map fun d =>
      S.weight stats.m (x.tqplusShift.getD d 0) (x.tqplusScale.getD d 0)
    { cache with
      stats := some stats
      sample := some (cache.sample.getD (planesSample cache.data x.scales x.nVectors (dim / 8)))
      centre := if x.tqplusShift.isEmpty then cache.centre
        else some (cache.centre.getD (planesCentre P S cache.data x.nVectors (dim / 8) w)) }
  else cache

/-- What the scan reads of a planes cache. -/
def planesRef (x : TurboQuantIndex) (cache : BlockedCache) : Option PlanesRef :=
  match cache.isPlanes, cache.stats with
  | true, some stats => some {
      low := cache.low
      stats
      sample := cache.sample.getD none
      centre := if x.tqplusShift.isEmpty then none else cache.centre }
  | _, _ => none

/-- A mask as words, least significant slot first, and the slots it allows. -/
def packMask (mask : List Bool) : List UInt64 × ℕ :=
  ((List.range ((mask.length + 63) / 64)).map fun w => UInt64.ofNat <|
      (List.range 64).foldl (fun word bit =>
        word ||| (if mask.getD (w * 64 + bit) false then 2 ^ bit else 0)) 0,
    mask.count true)

/-- `try_search_with_options`; none where it asserts that the floor is a number. -/
def trySearchWithOptions (x : TurboQuantIndex) (queries : List F32) (k : ℕ) (mask : Option (List Bool))
    (threshold : Option F32) : TurboQuantIndex × Option (Except SearchError SearchResults) :=
  let initialThreshold := threshold.getD F32.NEG_INFINITY
  if initialThreshold.isNaN then (x, none)
  else match x.dim with
    | none => (x, some (.ok ⟨[], [], 0, 0⟩))
    | some dim =>
      let nq := queries.length / dim
      if queries.length ≠ nq * dim then
        (x, some (.error (.queryBufferNotMultipleOfDim queries.length dim)))
      else match firstInvalidCoord queries dim with
        | some (i, j, v) => (x, some (.error (.invalidQueryValue i j v)))
        | none =>
          if x.nVectors = 0 then
            match mask with
            | some m => if m.isEmpty then (x, some (.ok ⟨[], [], nq, 0⟩))
                else (x, some (.error (.maskLengthMismatch 0 m.length)))
            | none => (x, some (.ok ⟨[], [], nq, 0⟩))
          else
            let x := x.prepared P T dim
            let wrong := (mask.map List.length).filter (· ≠ x.nVectors)
            match wrong, x.blocked with
            | some got, _ => (x, some (.error (.maskLengthMismatch x.nVectors got)))
            | none, none => (x, none)
            | none, some cache =>
              let packedMask := mask.map packMask
              let nAllowed := (packedMask.map Prod.snd).getD x.nVectors
              let cache := x.derived P S dim cache
              let x := { x with blocked := some cache }
              let res := S.search {
                queries, nq
                rotation := x.rotation.getD dim
                data := cache.data
                centroids := x.centroids.getD []
                scales := x.scales
                tqplusShift := x.tqplusShift
                tqplusScale := x.tqplusScale
                bitWidth := x.bitWidth
                dim
                nVectors := x.nVectors
                nBlocks := cache.nBlocks
                k
                mask := packedMask.map Prod.fst
                planes := x.planesRef cache
                initialThreshold }
              (x, some (.ok ⟨res.1, res.2, nq, min (min k x.nVectors) nAllowed⟩))

end

end TurboQuantIndex

end Turbovec
