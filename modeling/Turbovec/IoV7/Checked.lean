import Turbovec.Lib.Panic
import Turbovec.IoV7.Decode

/-!
# The loader with its panics

The loader again, with every place where the program could panic as a check: slice and index bounds,
word overflow, division, allocation size, assertions. A byte image is a vector, so its length is below
`2^63`.
-/

namespace Turbovec.IoV7.Checked

open LittleEndian Slice Grid Pack Panic Panic.Run

/-- A `Vec<u8>`. -/
structure Bytes where
  data : List UInt8
  length_le : data.length ≤ ISIZE_MAX

/-! ## Geometry -/

section Geometry

variable {ε : Type} (geo : Geo)

def blockedGeometry (nVectors bits dim : ℕ) : Run ε (ℕ × ℕ × ℕ) := do
  let codesPerByte ← udiv 8 bits
  let nByteGroups ← udiv dim codesPerByte
  let padded ← usize (nVectors + BLOCK)
  let nBlocks ← udiv (← usub padded 1) BLOCK
  let rows ← usize (nBlocks * nByteGroups)
  let len ← usize (rows * BLOCK)
  return (nBlocks, nByteGroups, len)

def rowBytes : Run ε ℕ := do
  let (_, nByteGroups, _) ← blockedGeometry 1 geo.bitWidth geo.dim
  return nByteGroups

def idBytes (rows : ℕ) : Run ε ℕ := if geo.kind = 1 then usize (rows * 8) else return 0

def recLen : Run ε ℕ := do
  usize ((← rowBytes geo) + 4 + (← idBytes geo 1))

def opSize : Run ε ℕ := do
  usize (1 + (← rowBytes geo) + 4 + (← idBytes geo 1))

/-- `1 << bit_width` -/
def nLevels : Run ε ℕ := do
  assert (geo.bitWidth < 64)
  return 2 ^ geo.bitWidth

def sbLen : Run ε ℕ := do
  let nLevels ← nLevels geo
  let values ← usub nLevels 1
  usize (geo.sbFixed + values * 4 + nLevels * 4 + 4 + geo.nCalib * 8 + 4)

def hdrLen : Run ε ℕ := do
  let recLen ← recLen geo
  let opSize ← opSize geo
  usize (16 + 31 * recLen + 4 + MAX_OPS * (5 + opSize) + 4 + MAX_OPS * 4 + 12 + 4)

def hdrAt (slot : ℕ) : Run ε ℕ := do
  usize ((← sbLen geo) + slot * (← hdrLen geo))

def unitLen : Run ε ℕ := do
  usize (BLOCK * (← rowBytes geo) + BLOCK * 4 + (← idBytes geo BLOCK))

def unitAt (block : ℕ) : Run ε ℕ := do
  usize ((← hdrAt geo 2) + block * (← unitLen geo))

def planesGeom (bits nByteGroups : ℕ) : Run ε (ℕ × ℕ) := do
  let nsg ← udiv nByteGroups bits
  let lowRow ← usize ((← usub bits 1) * nsg)
  return (nsg, lowRow)

end Geometry

/-! ## Checksums -/

section Checksums

variable {ε : Type}

def crc32 (data : List UInt8) : Run ε UInt32 := do
  if data.length < 4096 then return crc32One data
  let third ← udiv data.length 3
  let a ← slice data 0 third
  let rest ← slice data third (← usub data.length third)
  let b ← slice rest 0 third
  let c ← slice rest third (← usub rest.length third)
  return crc32Three (crc32cUpdate 0xFFFFFFFF a) (crc32cUpdate 0xFFFFFFFF b) (crc32cUpdate 0xFFFFFFFF c)

/-- The digest's running length may not overflow. Where a third ends lies past the bytes so far, and a
run is never longer than the data. -/
def pushRuns (s1 s2 : ℕ) (d : DeltaDigest) (data : List UInt8) : Run ε DeltaDigest :=
  if _h : data = [] then return d
  else do
    let _ ← usize (d.at_ + DeltaDigest.taken s1 s2 d data)
    pushRuns s1 s2 (DeltaDigest.route s1 s2 d (data.take (DeltaDigest.taken s1 s2 d data)))
      (data.drop (DeltaDigest.taken s1 s2 d data))
termination_by data.length
decreasing_by
  have := @DeltaDigest.taken_pos s1 s2 d data ‹_›
  have := List.length_pos_iff.2 ‹_›
  rw [List.length_drop]
  omega

def push (d : DeltaDigest) (data : List UInt8) : Run ε DeltaDigest :=
  match d.split with
  | none => do
    let _ ← usize (d.at_ + data.length)
    return d.push data
  | some (s1, s2) => pushRuns s1 s2 d data

/-- The lengths saturate; the split points may not overflow. -/
def newDigest (total : ℕ) : Run ε DeltaDigest := do
  let total := min total (USIZE - 1)
  let _ ← usize (total / 3 * 2)
  return DeltaDigest.new total

end Checksums

/-! ## Headers -/

/-- The ops of one group, read from `p` on. -/
def parseOps (bytes : List UInt8) (at_ b opSize : ℕ) : ℕ → ℕ → Run Unit (List (ℕ × ℕ) × ℕ)
  | 0, p => return ([], p)
  | k + 1, p => do
    let lane ← ofOption () bytes[p]?
    ofOption () (guard (lane.toNat < BLOCK))
    let slot ← usize (b * BLOCK + lane.toNat)
    let payload ← usize (at_ + p + 1)
    let (ops, q) ← parseOps bytes at_ b opSize k (← usize (p + opSize))
    return ((slot, payload) :: ops, q)

/-- A little-endian word through a checked range. -/
def readLe (l : List UInt8) (off k : ℕ) : Run Unit ℕ := do
  let bs ← getRange l off k
  let bs ← ofOption () bs
  return ofLe bs

/-- The op groups, read from `p` on. -/
def parseGroups (bytes : List UInt8) (at_ opSize nBlocks : ℕ) :
    ℕ → ℕ → Run Unit (List OpGroup × ℕ)
  | 0, p => return ([], p)
  | k + 1, p => do
    let b ← readLe bytes p 4
    ofOption () (guard (b < nBlocks))
    let nOps ← ofOption () bytes[← usize (p + 4)]?
    alloc nOps.toNat 16
    let (ops, q) ← parseOps bytes at_ b opSize nOps.toNat (← usize (p + 5))
    let (groups, r) ← parseGroups bytes at_ opSize nBlocks k q
    return ((b, ops) :: groups, r)

def parseMat (bytes : List UInt8) : ℕ → ℕ → Run Unit (List ℕ)
  | 0, _ => return []
  | k + 1, p => do
    let b ← readLe bytes p 4
    let rest ← parseMat bytes k (← usize (p + 4))
    return b :: rest

def parseHeaderAt (bytes : List UInt8) (at_ : ℕ) (geo : Geo) (slot fileLen : ℕ) :
    Run Unit ParsedHdr := do
  let tailRow ← recLen geo
  let opSize ← opSize geo
  let gen ← readLe bytes 0 8
  ofOption () (guard (gen % 2 = slot))
  let n ← readLe bytes 8 8
  -- `checked_mul` and `checked_add`
  let units := n / BLOCK * (← unitLen geo)
  ofOption () (guard (units < USIZE))
  let unitsEnd := units + (← unitAt geo 0)
  ofOption () (guard (unitsEnd < USIZE))
  ofOption () (guard (unitsEnd ≤ fileLen))
  let p ← usize (16 + n % BLOCK * tailRow)
  let nUnits ← readLe bytes p 4
  ofOption () (guard (nUnits ≤ MAX_OPS))
  alloc nUnits 32
  let (groups, p) ← parseGroups bytes at_ opSize (n / BLOCK) nUnits (← usize (p + 4))
  let nMat ← readLe bytes p 4
  ofOption () (guard (nMat ≤ MAX_OPS))
  alloc nMat 8
  let deltaMat ← parseMat bytes nMat (← usize (p + 4))
  let p ← usize (p + 4 + nMat * 4)
  let appFrom ← readLe bytes p 4
  let appTo ← readLe bytes (← usize (p + 4)) 4
  let deltaCrc ← readLe bytes (← usize (p + 8)) 4
  let p ← usize (p + 12)
  let stored ← readLe bytes p 4
  let crc ← crc32 (← ofOption () (slice? bytes 0 p))
  ofOption () (guard (crc.toNat = stored))
  return ⟨gen, n, ← usize (at_ + 16), groups, deltaMat, (appFrom, appTo), deltaCrc, ← usize (p + 4)⟩

section Headers

variable {ε : Type}

def parseHeaderSlot (raw : List UInt8) (geo : Geo) (slot fileLen : ℕ) : Run ε (Option ParsedHdr) :=
  attempt (do
    let at_ ← hdrAt geo slot
    let bytes ← ofOption () (← getRange raw at_ (← hdrLen geo))
    parseHeaderAt bytes at_ geo slot fileLen : Run Unit ParsedHdr)

/-- One unit into the digest: `false` when it is not in the image. -/
def feedUnit (raw : List UInt8) (geo : Geo) (d : DeltaDigest) (b : ℕ) : Run Unit DeltaDigest := do
  let d ← push d (leBytes 4 b)
  let unit ← getRange raw (← unitAt geo b) (← unitLen geo)
  push d (← ofOption () unit)

def deltaOk (raw : List UInt8) (geo : Geo) (h : ParsedHdr) : Run ε Bool := do
  let perUnit ← usize (4 + (← unitLen geo))
  let d ← newDigest (8 + h.deltaBlocks.length * perUnit)
  let d ← push d (leBytes 8 h.gen)
  match ← attempt (h.deltaBlocks.foldlM (feedUnit raw geo) d) with
  | some d => return d.finish.toNat = h.deltaCrc
  | none => return false

def findHeader (raw : List UInt8) (geo : Geo) : List ParsedHdr → Run ε (Option ParsedHdr)
  | [] => return none
  | h :: hs => do
    if ← deltaOk raw geo h then return some h
    findHeader raw geo hs

def chooseHeader (raw : List UInt8) (geo : Geo) : Run ε (Option ParsedHdr) := do
  let h0 ← parseHeaderSlot raw geo 0 raw.length
  let h1 ← parseHeaderSlot raw geo 1 raw.length
  findHeader raw geo (candidates h0 h1)

end Headers

/-! ## The superblock -/

def readU32 (raw : List UInt8) (at_ : ℕ) : Run String ℕ := do
  let bs ← getRange raw at_ 4
  return ofLe (← ofOption "unexpected end of file" bs)

def readU64At (raw : List UInt8) (at_ : ℕ) : Run String ℕ := do
  let bs ← getRange raw at_ 8
  return ofLe (← ofOption "unexpected end of file" bs)

def readF32 (raw : List UInt8) (at_ : ℕ) : Run String F32 := do
  let bs ← getRange raw at_ 4
  return F32.fromLeBytes (← ofOption "unexpected end of file" bs)

def rejectIf (c : Bool) (msg : String) : Run String Unit := if c then err msg else ok ()

/-- A v7 file has no layout byte. -/
def readLayout (raw : List UInt8) (version : ℕ) : Run String ℕ :=
  if version = 8 then do return (← index raw 7).toNat else pure LAYOUT_SEQ

def parsePreamble (raw : List UInt8) (expectKind : ℕ) : Run String Preamble := do
  rejectIf (raw.length < 11) "not a v7 or v8 file"
  let magic ← slice raw 0 4
  rejectIf (magic != V7_MAGIC && magic != V8_MAGIC) "not a v7 or v8 file"
  let version := if magic = V8_MAGIC then 8 else 7
  let revision := (← index raw 4).toNat
  rejectIf (version == 7 && revision != V7_VERSION) s!"unsupported v7 revision {revision}"
  rejectIf (version == 8 && revision != V8_VERSION) s!"unsupported v8 revision {revision}"
  let bitWidth := (← index raw 5).toNat
  rejectIf (bitWidth < 2 || 4 < bitWidth) s!"bit_width {bitWidth} out of range"
  let kind := (← index raw 6).toNat
  rejectIf (kind != expectKind) (kindMessage kind version)
  let layout ← readLayout raw version
  rejectIf (layout != LAYOUT_SEQ && layout != LAYOUT_PLANES) s!"unknown v8 unit layout {layout}"
  rejectIf (layout == LAYOUT_PLANES && bitWidth == 3) "a 3-bit index has no planes layout"
  let sbFixed := if version = 8 then 24 else 23
  let dim ← readU32 raw (← usub sbFixed 16)
  rejectIf (dim != 0 && (dim % 8 != 0 || MAX_DIM < dim)) s!"dim {dim} invalid"
  -- the products saturate
  let minHeader := min (MAX_OPS * (min (dim * bitWidth) (USIZE - 1) / 8)) (USIZE - 1)
  rejectIf (raw.length < minHeader) (truncatedMessage dim bitWidth minHeader raw.length)
  let nonce ← readU64At raw (← usub sbFixed 12)
  let fileMaxOps ← readU32 raw (← usub sbFixed 4)
  rejectIf (fileMaxOps != MAX_OPS)
    s!"unsupported header ops capacity {fileMaxOps} (this build supports {MAX_OPS})"
  return ⟨version, bitWidth, kind, layout, dim, nonce⟩

/-- The embedded codebook, value by value. Yields the offset after it. -/
def checkCodebook (raw : List UInt8) : ℕ → List F32 → Run String ℕ
  | at_, [] => return at_
  | at_, want :: rest => do
    let v ← readF32 raw at_
    rejectIf (!v.eq want) "embedded codebook drifted from the canonical one"
    checkCodebook raw (← usize (at_ + 4)) rest

def skipCodebook (T : Tables) (raw : List UInt8) (pre : Preamble) : Run String ℕ := do
  assert (pre.bitWidth < 64)
  if pre.dim = 0 then
    let values ← usub (2 * 2 ^ pre.bitWidth) 1
    usize (pre.sbFixed + values * 4)
  else
    checkCodebook raw pre.sbFixed
      ((T.codebook pre.bitWidth pre.dim).1 ++ (T.codebook pre.bitWidth pre.dim).2)

/-- `n` values of four bytes from `off` on. -/
def readF32s (raw : List UInt8) (off n : ℕ) : Run String (List F32) :=
  (List.range n).mapM fun k => do
    readF32 raw (← usize (off + k * 4))

def parseSuperblock (T : Tables) (raw : List UInt8) (expectKind : ℕ) : Run String Superblock := do
  let pre ← parsePreamble raw expectKind
  let off ← skipCodebook T raw pre
  let nCalib ← readU32 raw off
  let off ← usize (off + 4)
  rejectIf (nCalib != 0 && nCalib != pre.dim) s!"calibration length {nCalib} != dim {pre.dim}"
  alloc nCalib 4
  let tqplusShift ← readF32s raw off nCalib
  let off ← usize (off + nCalib * 4)
  let tqplusScale ← readF32s raw off nCalib
  let off ← usize (off + nCalib * 4)
  ofExcept (validateCalibration T.bounds tqplusShift tqplusScale)
  let stored ← readU32 raw off
  let crc ← crc32 (← slice raw 0 off)
  rejectIf (crc.toNat != stored) "corrupt superblock (crc mismatch)"
  let geo : Geo := ⟨pre.kind, pre.dim, pre.bitWidth, nCalib, pre.version, pre.layout⟩
  let rowBytes ← rowBytes geo
  rejectIf (pre.layout == LAYOUT_PLANES && pre.dim != 0 && !planesGeomOk pre.bitWidth rowBytes)
    s!"dim {pre.dim} has no planes layout at {pre.bitWidth} bits"
  return ⟨geo, pre.nonce, tqplusShift, tqplusScale⟩

/-! ## The image -/

def ownOps (raw : List UInt8) (opSize : ℕ) (groups : List OpGroup) :
    Run String (List (ℕ × List (ℕ × List UInt8))) :=
  groups.mapM fun g => do
    let ops ← g.2.mapM fun op => do
      let payload ← getRange raw op.2 opSize
      return (op.1, ← ofOption "truncated pending op" payload)
    return (g.1, ops)

def parseImage (T : Tables) (raw : List UInt8) (expectKind : ℕ) : Run String ParsedImage := do
  let sb ← parseSuperblock T raw expectKind
  let geo := sb.geo
  let tailRow ← recLen geo
  let chosen ← chooseHeader raw geo
  let chosen ← ofOption "no valid commit header — unrecoverable v7 file" chosen
  let n := chosen.n
  rejectIf (geo.dim == 0 && n != 0) s!"dim 0 with {n} rows: no dimension committed"
  let blockBytes ← usize (BLOCK * (← rowBytes geo))
  let firstUnit ← unitAt geo 0
  assert (blockBytes ≤ firstUnit)
  let tail ← getRange raw chosen.tailAt (← usize (n % BLOCK * tailRow))
  let tail ← ofOption "truncated commit tail" tail
  let ops ← ownOps raw tailRow chosen.groups
  return ⟨geo, sb.nonce, chosen.gen, n, tail, sb.tqplusShift, sb.tqplusScale, ops,
    chosen.groups.flatMap fun g => g.2.map Prod.fst⟩

section Load

variable (geo : Geo)

def readScale (l : List UInt8) (off : ℕ) : Run String F32 := do
  return F32.fromLeBytes (← slice l off 4)

def readId (l : List UInt8) (off : ℕ) : Run String UInt64 := do
  return UInt64.ofNat (ofLe (← slice l off 8))

/-- `copy_within(src..src + len, dst)` -/
def copyWithin (l : List UInt8) (src len dst : ℕ) : Run String (List UInt8) := do
  copyFrom l dst len (← slice l src len)

/-- Sign bytes and low bytes of a planes row; zero under the sequential layout. -/
def planesRow : Run String (ℕ × ℕ) :=
  if geo.layout = LAYOUT_PLANES then do planesGeom geo.bitWidth (← rowBytes geo) else pure (0, 0)

def planesParts : Run String (ℕ × ℕ) := do
  let (nsg, lowRow) ← planesRow geo
  return (← usize (nsg * BLOCK), ← usize (BLOCK * lowRow))

def readIds (l : List UInt8) (off : ℕ) : Run String (List UInt64) :=
  if geo.kind = 1 then
    (List.range BLOCK).mapM fun lane => do readId l (← usize (off + lane * 8))
  else pure []

/-- One record's id, if the kind has ids. -/
def readRecId (rec_ : List UInt8) (rowBytes : ℕ) : Run String (List UInt64) :=
  if geo.kind = 1 then do
    return [← readId rec_ (← usize (rowBytes + 4))]
  else pure []

def gatherUnit (st : Gathered) (b : ℕ) : Run String Gathered := do
  let at_ ← unitAt geo b
  let blockBytes ← usize (BLOCK * (← rowBytes geo))
  let unitEnd ← usize (at_ + (← unitLen geo))
  rejectIf (st.buf.length < unitEnd) "truncated block unit"
  let scales ← (List.range BLOCK).mapM fun lane => do
    let v ← readScale st.buf (← usize (at_ + blockBytes + lane * 4))
    rejectIf (!validScale v) s!"invalid per-vector scale in block {b}"
    return v
  let ids ← readIds geo st.buf (← usize (at_ + blockBytes + BLOCK * 4))
  let (sb, lb) ← planesParts geo
  if geo.layout = LAYOUT_PLANES then
    let sign ← copyFrom st.sign (← usize (b * sb)) sb (← slice st.buf at_ sb)
    let buf ← copyWithin st.buf (← usize (at_ + sb)) lb (← usize (b * lb))
    return ⟨buf, sign, st.scales ++ scales, st.ids ++ ids⟩
  else
    let buf ← copyWithin st.buf at_ blockBytes (← usize (b * blockBytes))
    return ⟨buf, st.sign, st.scales ++ scales, st.ids ++ ids⟩

/-- The code bytes a row's planes are read from, all in range. -/
def planesRowFromCodes (codes : List UInt8) (bits nByteGroups : ℕ) :
    Run String (List UInt8 × List UInt8) := do
  let (nsg, lowRow) ← planesGeom bits nByteGroups
  assert (codes.length = nByteGroups)
  alloc nsg 1
  alloc lowRow 1
  if bits = 2 then
    let _ ← (List.range nsg).mapM fun g => do
      let c0 ← index codes (2 * g)
      let c1 ← index codes (2 * g + 1)
      return (c0, c1)
    return Pack.planesRowFromCodes codes bits nByteGroups
  else
    assert (bits = 4)
    let _ ← (List.range nsg).mapM fun g => (List.range 4).mapM fun j =>
      (index codes (4 * g + j) : Run String UInt8)
    return Pack.planesRowFromCodes codes bits nByteGroups

def planesWriteRowCanonical (sign low : List UInt8) (bits nByteGroups v : ℕ) (codes : List UInt8) :
    Run String (List UInt8 × List UInt8) := do
  let (nsg, lowRow) ← planesGeom bits nByteGroups
  let (srow, lrow) ← planesRowFromCodes codes bits nByteGroups
  let sign ← (List.range nsg).foldlM (fun sign g => do
    let at_ ← usize (v / BLOCK * nsg * BLOCK + g * BLOCK + v % BLOCK)
    store sign at_ (← index srow g)) sign
  let low ← copyFrom low (← usize (v * lowRow)) lowRow lrow
  return (sign, low)

def putRow (st : Gathered) (v : ℕ) (codes : List UInt8) : Run String Gathered := do
  let rowBytes ← rowBytes geo
  if geo.layout = LAYOUT_PLANES then
    let (sign, low) ← planesWriteRowCanonical st.sign st.buf geo.bitWidth rowBytes v codes
    return { st with buf := low, sign := sign }
  else
    let blockBytes ← usize (BLOCK * rowBytes)
    let buf ← (List.range rowBytes).foldlM (fun buf g => do
      let at_ ← usize (v / BLOCK * blockBytes + g * BLOCK + v % BLOCK)
      store buf at_ (← index codes g)) st.buf
    return { st with buf := buf }

def applyOp (b : ℕ) (st : Gathered) (op : ℕ × List UInt8) : Run String Gathered := do
  assert (op.1 / BLOCK = b)
  let rowBytes ← rowBytes geo
  let st ← putRow geo st op.1 (← slice op.2 0 rowBytes)
  let v ← readScale op.2 rowBytes
  rejectIf (!validScale v) "invalid per-vector scale in a pending op"
  let scales ← store st.scales op.1 v
  let id ← readRecId geo op.2 rowBytes
  let ids ← id.foldlM (fun ids id => store ids op.1 id) st.ids
  return { st with scales := scales, ids := ids }

def applyTail (tail : List UInt8) (first : ℕ) (st : Gathered) (k : ℕ) : Run String Gathered := do
  let tailRow ← recLen geo
  let rowBytes ← rowBytes geo
  let r ← usize (first + k)
  let row ← slice tail (← usize (k * tailRow)) tailRow
  let st ← putRow geo st r (← slice row 0 rowBytes)
  let v ← readScale row rowBytes
  rejectIf (!validScale v) "invalid per-vector scale in the commit tail"
  let id ← readRecId geo row rowBytes
  return { st with scales := st.scales ++ [v], ids := st.ids ++ id }

end Load

/-- Bytes of the sign region; none under the sequential layout. -/
def signLen (geo : Geo) (n : ℕ) : Run String ℕ := do
  let (sb, _) ← planesParts geo
  let len ← usize ((n + 31) / 32 * sb)
  alloc len 1
  return len

/-- Bytes of the buffer the units fill, and bytes of the whole cache. -/
def keptPadded (geo : Geo) (n : ℕ) : Run String (ℕ × ℕ) := do
  let (_, lowRow) ← planesRow geo
  let (_, lb) ← planesParts geo
  let blockBytes ← usize (BLOCK * (← rowBytes geo))
  let kept ← usize (n / BLOCK * if geo.layout = LAYOUT_PLANES then lb else blockBytes)
  let padded ← usize (if geo.layout = LAYOUT_PLANES then n * lowRow else (n + 31) / 32 * blockBytes)
  alloc padded 1
  return (kept, padded)

def loadImage (T : Tables) (raw : List UInt8) (expectCalibGen expectKind : ℕ) :
    Run String V7Load := do
  let img ← parseImage T raw expectKind
  let geo := img.geo
  let n := img.nVectors
  alloc n 4
  alloc (if geo.kind = 1 then n else 0) 8
  let signLen ← signLen geo n
  let planes := geo.layout = LAYOUT_PLANES
  let st ← (List.range (n / BLOCK)).foldlM (gatherUnit geo)
    ⟨raw, if planes then List.replicate signLen 0 else [], [], []⟩
  let (kept, padded) ← keptPadded geo n
  let st := { st with buf := resize (st.buf.take kept) padded }
  let st ← img.ops.foldlM (fun st g => g.2.foldlM (applyOp geo g.1) st) st
  let first ← usize (n / BLOCK * BLOCK)
  let st ← (List.range (n % BLOCK)).foldlM (applyTail geo img.tail first) st
  return ⟨geo.dim, geo.bitWidth, n, geo.layout, if planes then [] else st.buf, st.sign,
    if planes then st.buf else [], st.scales, st.ids, img.tqplusShift, img.tqplusScale,
    ⟨img.gen, n, expectCalibGen, img.nonce⟩, img.pendingSlots⟩

end Turbovec.IoV7.Checked
