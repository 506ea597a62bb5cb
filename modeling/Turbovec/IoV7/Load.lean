import Turbovec.IoV7.Parse

/-!
# Loading an image

The read buffer becomes the cache: each unit's scales and ids are read in place and its codes roll
forward over the bytes before it. Then the redo ops, in the order the header lists them, and the tail
rows go in.
-/

namespace Turbovec.IoV7

open LittleEndian Slice Grid Pack

/-- Everything a load yields. -/
structure V7Load where
  dim : ℕ
  bitWidth : ℕ
  nVectors : ℕ
  layout : ℕ
  /-- the sequential codes, padded to whole blocks -/
  seqBlocked : List UInt8
  /-- the canonical sign region, padded to whole blocks, and the low rows -/
  sign : List UInt8
  low : List UInt8
  scales : List F32
  ids : List UInt64
  tqplusShift : List F32
  tqplusScale : List F32
  cursor : SyncCursor
  /-- slots whose redo ops ride the loaded header -/
  pendingSlots : List ℕ
deriving DecidableEq, Repr

/-- The buffers of a load in progress. -/
structure Gathered where
  /-- the read buffer, then the sequential codes or the low rows -/
  buf : List UInt8
  sign : List UInt8
  scales : List F32
  ids : List UInt64

def bytesAt (l : List UInt8) (off k : ℕ) : List UInt8 := (l.drop off).take k

def scaleAt (l : List UInt8) (off : ℕ) : F32 := F32.fromLeBytes (bytesAt l off 4)

def idAt (l : List UInt8) (off : ℕ) : UInt64 := UInt64.ofNat (ofLe (bytesAt l off 8))

section Load

variable (geo : Geo)

/-- Sign bytes of a unit and low bytes of a block, under the planes layout. -/
def Geo.planesParts : ℕ × ℕ :=
  let (nsg, lowRow) := planesGeom geo.bitWidth geo.rowBytes
  (nsg * BLOCK, BLOCK * lowRow)

def Geo.blockBytes : ℕ := BLOCK * geo.rowBytes

/-- One unit: its scales and ids, then its codes moved to where they stay. -/
def gatherUnit (st : Gathered) (b : ℕ) : Except String Gathered := do
  let at_ := geo.unitAt b
  reject (st.buf.length < at_ + geo.unitLen) "truncated block unit"
  let scales := (List.range BLOCK).map fun lane => scaleAt st.buf (at_ + geo.blockBytes + lane * 4)
  reject (!scales.all validScale) s!"invalid per-vector scale in block {b}"
  let ids := if geo.kind = 1 then
      (List.range BLOCK).map fun lane => idAt st.buf (at_ + geo.blockBytes + BLOCK * 4 + lane * 8)
    else []
  let (sb, lb) := geo.planesParts
  return if geo.layout = LAYOUT_PLANES then
      ⟨copyWithin st.buf (at_ + sb) lb (b * lb), overwrite st.sign (b * sb) (bytesAt st.buf at_ sb),
        st.scales ++ scales, st.ids ++ ids⟩
    else
      ⟨copyWithin st.buf at_ geo.blockBytes (b * geo.blockBytes), st.sign, st.scales ++ scales,
        st.ids ++ ids⟩

/-- Row `v`'s codes into the buffers. -/
def putRow (st : Gathered) (v : ℕ) (codes : List UInt8) : Gathered :=
  if geo.layout = LAYOUT_PLANES then
    let (sign, low) := planesWriteRowCanonical st.sign st.buf geo.bitWidth geo.rowBytes v codes
    { st with buf := low, sign := sign }
  else
    let pos (g : ℕ) := v / BLOCK * geo.blockBytes + g * BLOCK + v % BLOCK
    { st with buf := scatter pos (entry codes) (List.range geo.rowBytes) st.buf }

/-- One redo op: its slot's codes, scale and id. -/
def applyOp (st : Gathered) (op : ℕ × List UInt8) : Except String Gathered := do
  let st := putRow geo st op.1 (op.2.take geo.rowBytes)
  let v := scaleAt op.2 geo.rowBytes
  reject (!validScale v) "invalid per-vector scale in a pending op"
  return { st with
    scales := st.scales.set op.1 v
    ids := if geo.kind = 1 then st.ids.set op.1 (idAt op.2 (geo.rowBytes + 4)) else st.ids }

/-- One tail row, after the last row so far. -/
def applyTail (st : Gathered) (row : ℕ × List UInt8) : Except String Gathered := do
  let st := putRow geo st row.1 (row.2.take geo.rowBytes)
  let v := scaleAt row.2 geo.rowBytes
  reject (!validScale v) "invalid per-vector scale in the commit tail"
  return { st with
    scales := st.scales ++ [v]
    ids := if geo.kind = 1 then st.ids ++ [idAt row.2 (geo.rowBytes + 4)] else st.ids }

end Load

/-- The tail rows: slot and record. -/
def ParsedImage.tailRows (img : ParsedImage) : List (ℕ × List UInt8) :=
  (List.range (img.nVectors % BLOCK)).map fun k =>
    (img.nVectors / BLOCK * BLOCK + k, rowAt img.tail img.geo.recLen k)

/-- The buffers before the units are gathered. -/
def ParsedImage.start (img : ParsedImage) (raw : List UInt8) : Gathered :=
  ⟨raw, if img.geo.layout = LAYOUT_PLANES then
    List.replicate ((img.nVectors + 31) / 32 * img.geo.planesParts.1) 0 else [], [], []⟩

/-- Bytes of the buffer the units fill, and bytes of the whole cache. -/
def ParsedImage.keptPadded (img : ParsedImage) : ℕ × ℕ :=
  if img.geo.layout = LAYOUT_PLANES then
    (img.nVectors / BLOCK * img.geo.planesParts.2,
      img.nVectors * (planesGeom img.geo.bitWidth img.geo.rowBytes).2)
  else
    (img.nVectors / BLOCK * img.geo.blockBytes, (img.nVectors + 31) / 32 * img.geo.blockBytes)

def loadImage (T : Tables) (raw : List UInt8) (expectCalibGen expectKind : ℕ) :
    Except String V7Load := do
  let img ← parseImage T raw expectKind
  let geo := img.geo
  let st ← (List.range (img.nVectors / BLOCK)).foldlM (gatherUnit geo) (img.start raw)
  let (kept, padded) := img.keptPadded
  let st := { st with buf := resize (st.buf.take kept) padded }
  let st ← img.ops.foldlM (fun st g => g.2.foldlM (applyOp geo) st) st
  let st ← img.tailRows.foldlM (applyTail geo) st
  let planes := geo.layout = LAYOUT_PLANES
  return ⟨geo.dim, geo.bitWidth, img.nVectors, geo.layout, if planes then [] else st.buf, st.sign,
    if planes then st.buf else [], st.scales, st.ids, img.tqplusShift, img.tqplusScale,
    ⟨img.gen, img.nVectors, expectCalibGen, img.nonce⟩, img.pendingSlots⟩

end Turbovec.IoV7
