import Turbovec.Index.State

/-!
# The search cache under mutation

Building the cache, converting it to the planes layout once an index is large enough, and the three
ways a mutation keeps it in step: appended lanes, a rebuilt range of blocks, one lane moved and one
zeroed.
-/

namespace Turbovec

open Pack IoV7 Slice

namespace BlockedCache

section variable (P : Platform)

/-- The cache of `nVectors` packed rows, in the layout this geometry searches. -/
def build (packed : List UInt8) (nVectors bits dim : ℕ) : BlockedCache :=
  if planesWanted P bits (dim / codesPerByte bits) nVectors then
    let (data, low, nBlocks) := planesRepack P packed nVectors bits dim
    ⟨data, nBlocks, low, none, none, none⟩
  else
    let (data, nBlocks) := repack P packed nVectors bits dim
    ⟨data, nBlocks, [], none, none, none⟩

/-- To the planes layout, once the index is large enough for it. -/
def promoteIfDue (cache : BlockedCache) (nVectors bits nbg : ℕ) : BlockedCache :=
  if cache.isPlanes || !planesWanted P bits nbg nVectors then cache
  else
    let (data, low) := planesFromSeqOwned P (nativeToSeq P cache.data bits nbg) bits nbg nVectors
    { cache with data, low, sample := none, centre := none, stats := none }

/-- The rows as sequential code bytes. -/
def toSeq (cache : BlockedCache) (nVectors bits nbg : ℕ) : List UInt8 :=
  if cache.isPlanes then planesToSeq P cache.data cache.low bits nbg nVectors
  else nativeToSeq P cache.data bits nbg

/-- A lazy add's rows, as direct lane writes. -/
def appendRows (cache : BlockedCache) (packedRows : List UInt8) (oldN n bits dim : ℕ) : BlockedCache :=
  let cache := { cache with sample := none, centre := none }
  let cache := if cache.isPlanes then
      let (data, low) := planesAppendLanes P cache.data cache.low packedRows oldN n bits dim
      { cache with data, low }
    else
      promoteIfDue P { cache with data := appendLanes P cache.data packedRows oldN n bits dim } (oldN + n)
        bits (dim / codesPerByte bits)
  { cache with nBlocks := (blockedGeometry (oldN + n) bits dim).1 }

/-- An eager add's blocks, rebuilt from the packed rows from the first touched block on. -/
def patch (cache : BlockedCache) (packed : List UInt8) (oldN newN bits dim : ℕ) : BlockedCache :=
  let (newBlocks, nbg, _) := blockedGeometry newN bits dim
  let firstBlock := oldN / BLOCK
  let wasPlanes := cache.isPlanes
  let (data, low) := if wasPlanes then
      planesRepackBlockRange P packed newN bits dim firstBlock newBlocks
    else (repackBlockRange P packed newN bits dim firstBlock newBlocks, [])
  let (nsg, lowRow) := planesGeom bits nbg
  let blockBytes := if wasPlanes then nsg * BLOCK else nbg * BLOCK
  let cache := { cache with
    sample := none
    centre := none
    data := cache.data.take (firstBlock * blockBytes) ++ data }
  let cache := if wasPlanes then
      { cache with low := cache.low.take (firstBlock * BLOCK * lowRow) ++ low }
    else promoteIfDue P cache newN bits nbg
  { cache with nBlocks := newBlocks }

/-- The last row's lane into slot `idx`, the last lane cleared and cut. `newN` rows remain. -/
def removeRow (cache : BlockedCache) (idx newN bits dim : ℕ) : BlockedCache :=
  let (newBlocks, nbg, _) := blockedGeometry newN bits dim
  let last := newN
  let cache := { cache with sample := none, centre := none }
  let cache := if cache.isPlanes then
      let (nsg, lowRow) := planesGeom bits nbg
      let (data, low) := if idx ≠ last then planesMove P cache.data cache.low bits nbg last idx
        else (cache.data, cache.low)
      { cache with
        data := (zeroLane P data 2 nsg last).take (newBlocks * (nsg * BLOCK))
        low := low.take (newN * lowRow) }
    else
      let data := if idx ≠ last then moveLane P cache.data bits nbg last idx else cache.data
      { cache with data := (zeroLane P data bits nbg last).take (newBlocks * (nbg * BLOCK)) }
  { cache with nBlocks := newBlocks }

end

end BlockedCache

end Turbovec
