import Turbovec.Pack.Native
import Turbovec.Scan.Range

/-!
# The dispatch

A scan is split over the pool: one query into ranges of blocks, a batch into tiles of some queries by a
range of blocks. Each range and query has its own heap; what they keep is merged for each query.
-/

namespace Turbovec.Scan

open TopK Slice Pack

/-! ## Partitions -/

def SINGLE_QUERY_PARALLEL_MIN_BLOCKS : ℕ := 1024

def MIN_TILE_BLOCKS : ℕ := 1024

def MIN_TILE_BLOCKS_X86 : ℕ := MIN_TILE_BLOCKS * 3

def MIN_TILE_BLOCKS_NEON : ℕ := MIN_TILE_BLOCKS / 2

def TILES_PER_THREAD : ℕ := 32

def TILES_PER_THREAD_NEON : ℕ := TILES_PER_THREAD * 2

def MIN_VECTORS_PER_RANGE_PER_K : ℕ := 512

def PLANES_PIECES_PER_WORKER : ℕ := 2

def VNNI_BATCH : ℕ := 6

/-- `div_ceil` -/
def divCeil (a b : ℕ) : ℕ := (a + b - 1) / b

/-- `(0..n).step_by(s)` -/
def stepBy (n s : ℕ) : List ℕ := (List.range (divCeil n s)).map (· * s)

def singleQueryParallelizes (nVectors : ℕ) : Bool :=
  decide (divCeil nVectors 32 ≥ SINGLE_QUERY_PARALLEL_MIN_BLOCKS)

def allowedBlocks (mask : Option (List UInt64)) (nBlocks : ℕ) : ℕ :=
  match mask with
  | none => nBlocks
  | some m => min (m.map fun w =>
      (if w.toNat % 2 ^ 32 ≠ 0 then 1 else 0) + (if w.toNat >>> 32 ≠ 0 then 1 else 0)).sum nBlocks

def singleQueryWorkers (threads : ℕ) (mask : Option (List UInt64)) (nBlocks : ℕ) : ℕ :=
  if allowedBlocks mask nBlocks ≥ SINGLE_QUERY_PARALLEL_MIN_BLOCKS then max threads 1 else 1

def serialRequired (maskPresent simdOk : Bool) : Bool := maskPresent || !simdOk

def rangeCapForK (nVectors k : ℕ) : ℕ := max (divCeil nVectors (MIN_VECTORS_PER_RANGE_PER_K * max k 1)) 1

def nBlockRanges (nq nQuads nBlocks nVectors k nThreads tilesPerThread minTileBlocks : ℕ) (serial : Bool) : ℕ :=
  if nThreads = 1 ∨ serial = true ∨ (nq = 1 ∧ singleQueryParallelizes nVectors = false) then 1
  else
    max (min (min (divCeil (nThreads * tilesPerThread) nQuads) (divCeil nBlocks minTileBlocks))
      (rangeCapForK nVectors k)) 1

def smoothTileCount (nRanges nQuads nThreads : ℕ) : ℕ :=
  let tiles := nQuads * nRanges
  if tiles > nThreads ∧ tiles < 2 * nThreads then max (nThreads / nQuads) 1 else nRanges

/-- `next_multiple_of(2)` of the blocks of a range -/
def blockRangeStride (nBlocks nThreads : ℕ) : ℕ :=
  let s := max (divCeil nBlocks nThreads) 64
  s + s % 2

/-! ## Merging -/

/-- A range's entries, their slots counted from the start of the scan. -/
def rebase (start : ℕ) (entries : List Entry) : List Entry := entries.map fun e => (e.1, e.2 + start)

/-- The order of what it leaves is never read. -/
def bufferedSelect (pairs : List Entry) (k : ℕ) : List Entry :=
  let keep := max (k / 2) 1
  if pairs.length > keep then (sortEntries pairs).take keep else pairs

/-- One query's candidates. -/
def mergeOne (buffered : Bool) (k : ℕ) (pairs : List Entry) : List Entry :=
  (if buffered then bufferedSelect pairs k else sortEntries pairs).take k

/-- Each tile's candidates appended to those of its queries. -/
def mergeTiles (nq : ℕ) (results : List (ℕ × List (List Entry))) : List (List Entry) :=
  results.foldl (fun merged r => (List.range r.2.length).foldl (fun merged off =>
    merged.modify (r.1 + off) (· ++ r.2.getD off [])) merged) (List.replicate nq [])

/-- Rows of `k`, scores and slots apart, a short one padded. -/
def flatten (k : ℕ) (results : List (List Entry)) : List Score × List ℤ :=
  (results.flatMap fun r => (r.take (min r.length k)).map Prod.fst ++
      List.replicate (k - min r.length k) Score.negInf,
    results.flatMap fun r => (r.take (min r.length k)).map (fun e => (e.2 : ℤ)) ++
      List.replicate (k - min r.length k) (-1))

/-! ## A scan -/

/-- What the dispatch reads of the machine and of the query tables. -/
structure Host where
  arch : Arch
  /-- workers of the pool -/
  threads : ℕ
  /-- `avx2` and `fma` -/
  avx2 : Bool
  /-- `avx512bw` and `avx512f` -/
  avx512 : Bool
  /-- four-bit permute-dot tables were built -/
  pd : Bool
  /-- two-bit permute-dot tables were built -/
  pd2 : Bool
  /-- split tables were built -/
  split : Bool
deriving DecidableEq, Repr

/-- What a scan is given. `score` is what the kernels make of the codes, the tables and the scales. -/
structure Task where
  nq : ℕ
  bits : ℕ
  nVectors : ℕ
  k : ℕ
  mask : Option (List UInt64)
  buffered : Bool
  seed : Option (List Score)
  seedLate : Option Score
  kHint : ℕ
  score : ℕ → ℕ → Score

namespace Task

section variable (H : Host) (T : Task)

def nBlocks : ℕ := divCeil T.nVectors 32

/-- `seed_of` -/
def seedOf (qi : ℕ) : Score :=
  match T.seed with
  | none => Score.negInf
  | some s => s.getD qi Score.negInf

def kCap : ℕ :=
  if T.buffered ∧ H.arch = .aarch64 then if T.kHint > 0 then T.kHint else max (T.k / 25) 1 else T.k

/-- `simd_ok` -/
def simdOk : Bool := (H.avx512 && H.avx2) || H.avx2

/-- The kernel an x86 host takes for a batch of `batch` queries. -/
def x86Kernel (single : Bool) (batch : ℕ) : Kernel :=
  if H.pd then if single then .permuteDotBlk8 else .permuteDot
  else if H.split then if batch = 1 then .vnniBlk2 else .vnni
  else if H.avx512 && H.avx2 then .avx512bw
  else if H.avx2 then .avx2
  else .scalar

/-- How many of a batch the kernel serves: a permute-dot or VNNI kernel has so many lanes, the others take
a batch in parts. -/
def x86Served (nqBatch batch : ℕ) : ℕ :=
  if H.pd then min batch (if nqBatch = 10 then 10 else 8)
  else if H.split then if batch = 1 then 1 else min batch 8
  else batch

/-- `search_single_query_block_parallel` and its NEON version, up to the merge. -/
def singleCandidates (kern : Kernel) : List Entry :=
  let nThreads := singleQueryWorkers H.threads T.mask T.nBlocks
  let pieces := if T.buffered ∧ nThreads > 1 then PLANES_PIECES_PER_WORKER else 1
  let blocksPerRange := blockRangeStride T.nBlocks (nThreads * pieces)
  (stepBy T.nBlocks blocksPerRange).flatMap fun blockStart =>
    let rangeBlocks := min blocksPerRange (T.nBlocks - blockStart)
    let vecStart := blockStart * 32
    let rangeVecs := min (rangeBlocks * 32) (T.nVectors - vecStart)
    rebase vecStart (scanBlocks kern T.buffered T.k (T.mask.map (List.drop (vecStart / 64)))
      (fun v => T.score 0 (vecStart + v)) rangeVecs rangeBlocks 0 rangeBlocks
      (T.seedLate.getD (T.seedOf 0))).entries

/-- Tiles of `qbs` queries by `blocksPerRange` blocks, block-range-major. -/
def tiles (qbs blocksPerRange : ℕ) : List (ℕ × ℕ) :=
  (stepBy (max T.nBlocks 1) blocksPerRange).flatMap fun b => (stepBy T.nq qbs).map fun q => (q, b)

/-- A tile of the NEON dispatch. Slots are counted from the start of the scan. -/
def neonTile (qbs blocksPerRange : ℕ) (tile : ℕ × ℕ) : ℕ × List (List Entry) :=
  let (qiStart, blockStart) := tile
  let blockEnd := min (blockStart + blocksPerRange) T.nBlocks
  let qiEnd := min (qiStart + qbs) T.nq
  (qiStart, (List.range (qiEnd - qiStart)).map fun off =>
    (scanBlocks .neon T.buffered T.k T.mask (T.score (qiStart + off)) T.nVectors T.nBlocks blockStart blockEnd
      (T.seedOf (qiStart + off))).entries)

/-- A tile of the x86 dispatch. Lanes past the batch score its last query; their scores enter no heap. The
scalar kernel reads the buffers unsliced. -/
def x86Tile (nqBatch blocksPerRange : ℕ) (tile : ℕ × ℕ) : ℕ × List (List Entry) :=
  let (qiStart, blockStart) := tile
  let rangeBlocks := min blocksPerRange (T.nBlocks - blockStart)
  let vecStart := blockStart * 32
  let rangeVecs := min (rangeBlocks * 32) (T.nVectors - vecStart)
  let qiEnd := min (qiStart + nqBatch) T.nq
  let batchNq := qiEnd - qiStart
  let padQi := qiEnd - 1
  let lane (i : ℕ) : ℕ := if qiStart + i < qiEnd then qiStart + i else padQi
  let kern := x86Kernel H false batchNq
  (qiStart, (List.range batchNq).map fun qo => rebase vecStart <|
    if qo < x86Served H nqBatch batchNq then
      if kern = .scalar then
        (scanBlocks kern T.buffered T.k T.mask (T.score (lane qo)) T.nVectors T.nBlocks 0 T.nBlocks
          (T.seedOf (qiStart + qo))).entries
      else
        (scanBlocks kern T.buffered T.k T.mask (fun v => T.score (lane qo) (vecStart + v)) rangeVecs rangeBlocks
          0 rangeBlocks (T.seedOf (qiStart + qo))).entries
    else [])

def qbs : ℕ :=
  if !(H.pd || H.pd2) then 4 else if T.nq ≥ 12 then 12 else if T.nq ≥ 8 then 8 else 4

def nqBatch : ℕ :=
  if H.pd ∧ max H.threads 1 = 1 ∧ divCeil T.nq 10 < divCeil T.nq 8 then 10
  else if !H.pd && H.split then VNNI_BATCH else 8

/-- How many blocks the ranges of a batch have. -/
def blocksPerRange (width tilesPerThread minTileBlocks : ℕ) (serial : Bool) : ℕ :=
  let nQuads := max (divCeil T.nq width) 1
  let nThreads := max H.threads 1
  let nRanges := nBlockRanges T.nq nQuads T.nBlocks T.nVectors (T.kCap H) nThreads tilesPerThread minTileBlocks
    serial
  max (divCeil T.nBlocks (smoothTileCount nRanges nQuads nThreads)) 1

/-- Each query's row, before padding. -/
def results : List (List Entry) :=
  match H.arch with
  | .aarch64 =>
    if T.nq = 1 ∧ T.nBlocks ≥ SINGLE_QUERY_PARALLEL_MIN_BLOCKS then
      [mergeOne T.buffered T.k (T.singleCandidates H .neonRange)]
    else
      let per := T.blocksPerRange H (T.qbs H) TILES_PER_THREAD_NEON
        (if T.bits = 2 then MIN_TILE_BLOCKS_NEON * 2 else MIN_TILE_BLOCKS_NEON) false
      (mergeTiles T.nq ((T.tiles (T.qbs H) per).map (T.neonTile (T.qbs H) per))).map (mergeOne T.buffered T.k)
  | .x86_64 =>
    if T.nq = 1 ∧ T.nBlocks ≥ SINGLE_QUERY_PARALLEL_MIN_BLOCKS ∧ simdOk H = true then
      [mergeOne T.buffered T.k (T.singleCandidates H (x86Kernel H true 1))]
    else
      let per := T.blocksPerRange H (T.nqBatch H) TILES_PER_THREAD MIN_TILE_BLOCKS_X86
        (serialRequired T.mask.isSome (simdOk H))
      (mergeTiles T.nq ((T.tiles (T.nqBatch H) per).map (T.x86Tile H (T.nqBatch H) per))).map
        (mergeOne T.buffered T.k)
  | .other => (List.range T.nq).map fun qi => sortEntries
      (scanBlocks .scalar T.buffered T.k T.mask (T.score qi) T.nVectors T.nBlocks 0 T.nBlocks (T.seedOf qi)).entries

end

end Task

/-- `scan_with_luts` -/
def scanWithLuts (H : Host) (T : Task) : List Score × List ℤ :=
  flatten (if T.buffered then divCeil T.k 2 else T.k) (T.results H)

end Turbovec.Scan
