import Turbovec.IoV7.Format

/-!
# Reading a header and a superblock

The loader's half of the format. A header slot parses from a prefix of itself; a parsed header is a
commit only if its delta verifies. `parseImage` checks the superblock, picks the newest commit and
copies out what rides its header.
-/

namespace Turbovec.IoV7

open LittleEndian Slice Grid Pack

/-! ## Headers -/

/-- One pending-op group: block, and each op's global slot and payload offset. -/
abbrev OpGroup := ℕ × List (ℕ × ℕ)

structure ParsedHdr where
  gen : ℕ
  n : ℕ
  tailAt : ℕ
  groups : List OpGroup
  deltaMat : List ℕ
  deltaApp : ℕ × ℕ
  deltaCrc : ℕ
  /-- bytes of the slot the header occupies, checksum included -/
  used : ℕ
deriving DecidableEq, Repr

/-- The ops of one group, read from `p` on. -/
def parseOps (bytes : List UInt8) (at_ b opSize : ℕ) : ℕ → ℕ → Option (List (ℕ × ℕ) × ℕ)
  | 0, p => some ([], p)
  | k + 1, p => do
    let lane ← bytes[p]?
    guard (lane.toNat < BLOCK)
    let (ops, q) ← parseOps bytes at_ b opSize k (p + opSize)
    return ((b * BLOCK + lane.toNat, at_ + p + 1) :: ops, q)

/-- The op groups, read from `p` on. An op only ever targets a committed block. -/
def parseGroups (bytes : List UInt8) (at_ opSize nBlocks : ℕ) : ℕ → ℕ → Option (List OpGroup × ℕ)
  | 0, p => some ([], p)
  | k + 1, p => do
    let b ← readLe? bytes p 4
    guard (b < nBlocks)
    let nOps ← bytes[p + 4]?
    let (ops, q) ← parseOps bytes at_ b opSize nOps.toNat (p + 5)
    let (groups, r) ← parseGroups bytes at_ opSize nBlocks k q
    return ((b, ops) :: groups, r)

/-- `k` block numbers, read from `p` on. -/
def parseMat (bytes : List UInt8) : ℕ → ℕ → Option (List ℕ)
  | 0, _ => some []
  | k + 1, p => do
    let b ← readLe? bytes p 4
    let rest ← parseMat bytes k (p + 4)
    return b :: rest

/-- Parse one header slot from `bytes`, a prefix of the slot beginning at file offset `at_`. -/
def parseHeaderAt (bytes : List UInt8) (at_ : ℕ) (geo : Geo) (slot fileLen : ℕ) :
    Option ParsedHdr := do
  let gen ← readLe? bytes 0 8
  guard (gen % 2 = slot)
  let n ← readLe? bytes 8 8
  guard (geo.unitAt (n / BLOCK) ≤ fileLen)
  let p := 16 + n % BLOCK * geo.recLen
  let nUnits ← readLe? bytes p 4
  guard (nUnits ≤ MAX_OPS)
  let (groups, p) ← parseGroups bytes at_ geo.opSize (n / BLOCK) nUnits (p + 4)
  let nMat ← readLe? bytes p 4
  guard (nMat ≤ MAX_OPS)
  let deltaMat ← parseMat bytes nMat (p + 4)
  let p := p + 4 + nMat * 4
  let appFrom ← readLe? bytes p 4
  let appTo ← readLe? bytes (p + 4) 4
  let deltaCrc ← readLe? bytes (p + 8) 4
  let p := p + 12
  let stored ← readLe? bytes p 4
  guard ((crc32 (bytes.take p)).toNat = stored)
  return ⟨gen, n, at_ + 16, groups, deltaMat, (appFrom, appTo), deltaCrc, p + 4⟩

def parseHeaderSlot (raw : List UInt8) (geo : Geo) (slot fileLen : ℕ) : Option ParsedHdr := do
  let bytes ← slice? raw (geo.hdrAt slot) geo.hdrLen
  parseHeaderAt bytes (geo.hdrAt slot) geo slot fileLen

section Peel

variable {bytes : List UInt8} {at_ b opSize nBlocks k p q : ℕ}

theorem parseOps_succ_eq_some {ops : List (ℕ × ℕ)} :
    parseOps bytes at_ b opSize (k + 1) p = some (ops, q) ↔
      ∃ lane rest, bytes[p]? = some lane ∧ lane.toNat < BLOCK ∧
        parseOps bytes at_ b opSize k (p + opSize) = some (rest, q) ∧
        ops = (b * BLOCK + lane.toNat, at_ + p + 1) :: rest := by
  rw [parseOps]
  simp only [Option.bind_eq_bind, Option.bind_eq_some_iff, Option.guard_eq_some', Option.pure_def,
    Option.some.injEq, Prod.mk.injEq, Prod.exists]
  constructor
  · rintro ⟨lane, h1, ⟨⟩, h2, rest, _, h3, rfl, rfl⟩
    exact ⟨lane, rest, h1, h2, h3, rfl⟩
  · rintro ⟨lane, rest, h1, h2, h3, rfl⟩
    exact ⟨lane, h1, (), h2, rest, q, h3, rfl, rfl⟩

theorem parseGroups_succ_eq_some {groups : List OpGroup} :
    parseGroups bytes at_ opSize nBlocks (k + 1) p = some (groups, q) ↔
      ∃ b nOps ops r rest, readLe? bytes p 4 = some b ∧ b < nBlocks ∧ bytes[p + 4]? = some nOps ∧
        parseOps bytes at_ b opSize nOps.toNat (p + 5) = some (ops, r) ∧
        parseGroups bytes at_ opSize nBlocks k r = some (rest, q) ∧ groups = (b, ops) :: rest := by
  rw [parseGroups]
  simp only [Option.bind_eq_bind, Option.bind_eq_some_iff, Option.guard_eq_some', Option.pure_def,
    Option.some.injEq, Prod.mk.injEq, Prod.exists]
  constructor
  · rintro ⟨b, h1, ⟨⟩, h2, nOps, h3, ops, r, h4, rest, _, h5, rfl, rfl⟩
    exact ⟨b, nOps, ops, r, rest, h1, h2, h3, h4, h5, rfl⟩
  · rintro ⟨b, nOps, ops, r, rest, h1, h2, h3, h4, h5, rfl⟩
    exact ⟨b, h1, (), h2, nOps, h3, ops, r, h4, rest, q, h5, rfl, rfl⟩

theorem parseMat_succ_eq_some {mat : List ℕ} :
    parseMat bytes (k + 1) p = some mat ↔
      ∃ b rest, readLe? bytes p 4 = some b ∧ parseMat bytes k (p + 4) = some rest ∧
        mat = b :: rest := by
  rw [parseMat]
  simp only [Option.bind_eq_bind, Option.bind_eq_some_iff, Option.pure_def, Option.some.injEq]
  constructor
  · rintro ⟨b, h1, rest, h2, rfl⟩
    exact ⟨b, rest, h1, h2, rfl⟩
  · rintro ⟨b, rest, h1, h2, rfl⟩
    exact ⟨b, h1, rest, h2, rfl⟩

/-- What a header that parses holds, field by field. -/
structure HeaderFields (bytes : List UInt8) (at_ : ℕ) (geo : Geo) (slot fileLen : ℕ)
    (h : ParsedHdr) (pMat : ℕ) : Prop where
  gen : readLe? bytes 0 8 = some h.gen
  parity : h.gen % 2 = slot
  n : readLe? bytes 8 8 = some h.n
  fits : geo.unitAt (h.n / BLOCK) ≤ fileLen
  tailAt : h.tailAt = at_ + 16
  nUnits : readLe? bytes (16 + h.n % BLOCK * geo.recLen) 4 = some h.groups.length
  nUnits_le : h.groups.length ≤ MAX_OPS
  groups : parseGroups bytes at_ geo.opSize (h.n / BLOCK) h.groups.length
    (16 + h.n % BLOCK * geo.recLen + 4) = some (h.groups, pMat)
  nMat : readLe? bytes pMat 4 = some h.deltaMat.length
  nMat_le : h.deltaMat.length ≤ MAX_OPS
  mat : parseMat bytes h.deltaMat.length (pMat + 4) = some h.deltaMat
  app_from : readLe? bytes (pMat + 4 + h.deltaMat.length * 4) 4 = some h.deltaApp.1
  app_to : readLe? bytes (pMat + 4 + h.deltaMat.length * 4 + 4) 4 = some h.deltaApp.2
  deltaCrc : readLe? bytes (pMat + 4 + h.deltaMat.length * 4 + 8) 4 = some h.deltaCrc
  stored : readLe? bytes (pMat + 4 + h.deltaMat.length * 4 + 12) 4 =
    some (crc32 (bytes.take (pMat + 4 + h.deltaMat.length * 4 + 12))).toNat
  used : h.used = pMat + 4 + h.deltaMat.length * 4 + 12 + 4

theorem length_of_parseGroups {groups : List OpGroup}
    (h : parseGroups bytes at_ opSize nBlocks k p = some (groups, q)) : groups.length = k := by
  induction k generalizing groups p with
  | zero =>
    rw [parseGroups, Option.some.injEq, Prod.mk.injEq] at h
    rw [← h.1, List.length_nil]
  | succ k ih =>
    obtain ⟨_, _, _, _, rest, -, -, -, -, h5, rfl⟩ := parseGroups_succ_eq_some.mp h
    rw [List.length_cons, ih h5]

theorem length_of_parseMat {mat : List ℕ} (h : parseMat bytes k p = some mat) :
    mat.length = k := by
  induction k generalizing mat p with
  | zero =>
    rw [parseMat, Option.some.injEq] at h
    rw [← h, List.length_nil]
  | succ k ih =>
    obtain ⟨_, rest, -, h2, rfl⟩ := parseMat_succ_eq_some.mp h
    rw [List.length_cons, ih h2]

theorem parseHeaderAt_eq_some {geo : Geo} {slot fileLen : ℕ} {h : ParsedHdr} :
    parseHeaderAt bytes at_ geo slot fileLen = some h ↔
      ∃ pMat, HeaderFields bytes at_ geo slot fileLen h pMat := by
  rw [parseHeaderAt]
  simp only [Option.bind_eq_bind, Option.bind_eq_some_iff, Option.guard_eq_some', Option.pure_def,
    Option.some.injEq, Prod.exists]
  constructor
  · rintro ⟨gen, h1, ⟨⟩, h2, n, h3, ⟨⟩, h4, nUnits, h5, ⟨⟩, h6, groups, p, h7, nMat, h8, ⟨⟩, h9, mat,
      h10, appFrom, h11, appTo, h12, crc, h13, stored, h14, ⟨⟩, h15, rfl⟩
    have hg := length_of_parseGroups h7
    have hm := length_of_parseMat h10
    subst hg hm h15
    exact ⟨p, h1, h2, h3, h4, rfl, h5, h6, h7, h8, h9, h10, h11, h12, h13, h14, rfl⟩
  · rintro ⟨pMat, hf⟩
    obtain ⟨gen, n, tailAt, groups, mat, ⟨appFrom, appTo⟩, crc, used⟩ := h
    have htail := hf.tailAt
    have hused := hf.used
    simp only at htail hused
    subst htail hused
    exact ⟨gen, hf.gen, (), hf.parity, n, hf.n, (), hf.fits, _, hf.nUnits, (), hf.nUnits_le, groups,
      pMat, hf.groups, _, hf.nMat, (), hf.nMat_le, mat, hf.mat, appFrom, hf.app_from, appTo,
      hf.app_to, crc, hf.deltaCrc, _, hf.stored, (), rfl, rfl⟩

end Peel

/-- The units a commit's sync wrote. -/
def ParsedHdr.deltaBlocks (h : ParsedHdr) : List ℕ :=
  h.deltaMat ++ List.range' h.deltaApp.1 (h.deltaApp.2 - h.deltaApp.1)

/-- The delta check: each unit the commit's sync wrote is there, and the digest is the recorded one. -/
def deltaVerified (h : ParsedHdr) (unitLen : ℕ) (feedUnit : ℕ → Option (List UInt8)) : Bool :=
  let d := (DeltaDigest.new (8 + h.deltaBlocks.length * (4 + unitLen))).push (leBytes 8 h.gen)
  match h.deltaBlocks.foldlM (fun d b => (feedUnit b).map (d.push (leBytes 4 b)).push) d with
  | some d => d.finish.toNat = h.deltaCrc
  | none => false

/-- The headers that parse, newest first. -/
def candidates (h0 h1 : Option ParsedHdr) : List ParsedHdr :=
  match h0, h1 with
  | some h0, some h1 => if h0.gen < h1.gen then [h1, h0] else [h0, h1]
  | some h, none | none, some h => [h]
  | none, none => []

def unitOf (raw : List UInt8) (geo : Geo) (b : ℕ) : Option (List UInt8) :=
  slice? raw (geo.unitAt b) geo.unitLen

def deltaOk (raw : List UInt8) (geo : Geo) (h : ParsedHdr) : Bool :=
  deltaVerified h geo.unitLen (unitOf raw geo)

/-- The newest header of the image whose delta verifies. -/
def chooseHeader (raw : List UInt8) (geo : Geo) : Option ParsedHdr :=
  (candidates (parseHeaderSlot raw geo 0 raw.length) (parseHeaderSlot raw geo 1 raw.length)).find?
    (deltaOk raw geo)

/-! ## The image -/

/-- The `f32` tables a file is checked against: the canonical codebook of a bit width and dimension,
and the calibration bounds. -/
structure Tables where
  codebook : ℕ → ℕ → List F32 × List F32
  bounds : CalibrationBounds

def orElseError {α : Type} (msg : String) : Option α → Except String α
  | some a => .ok a
  | none => .error msg

def readU32 (raw : List UInt8) (at_ : ℕ) : Except String ℕ :=
  orElseError "unexpected end of file" (readLe? raw at_ 4)

def readU64At (raw : List UInt8) (at_ : ℕ) : Except String ℕ :=
  orElseError "unexpected end of file" (readLe? raw at_ 8)

def readF32 (raw : List UInt8) (at_ : ℕ) : Except String F32 :=
  orElseError "unexpected end of file" ((slice? raw at_ 4).map F32.fromLeBytes)

def readF32s (raw : List UInt8) (at_ : ℕ) : ℕ → Except String (List F32)
  | 0 => .ok []
  | k + 1 => do
    let v ← readF32 raw at_
    let vs ← readF32s raw (at_ + 4) k
    return v :: vs

/-- Reject with a message. -/
def reject (c : Bool) (msg : String) : Except String Unit := if c then .error msg else .ok ()

theorem bind_eq_ok {ε α β : Type} {x : Except ε α} {f : α → Except ε β} {b : β} :
    (x >>= f) = .ok b ↔ ∃ a, x = .ok a ∧ f a = .ok b := by
  cases x with
  | ok a => exact ⟨fun h => ⟨a, rfl, h⟩, fun ⟨a', h, h'⟩ => by cases h; exact h'⟩
  | error e =>
    constructor
    · intro h
      cases h
    · rintro ⟨_, h, _⟩
      cases h

@[simp] theorem orElseError_eq_ok {α : Type} {msg : String} {o : Option α} {a : α} :
    orElseError msg o = .ok a ↔ o = some a := by
  cases o with
  | some a' => simp [orElseError]
  | none => simp [orElseError]

@[simp] theorem reject_eq_ok {c : Bool} {msg : String} {u : Unit} :
    reject c msg = .ok u ↔ c = false := by
  cases c with
  | true => simp [reject]
  | false => simp [reject]

/-- The embedded codebook, value by value. -/
def checkCodebook (raw : List UInt8) : ℕ → List F32 → Except String Unit
  | _, [] => .ok ()
  | at_, want :: rest => do
    let v ← readF32 raw at_
    reject (!v.eq want) "embedded codebook drifted from the canonical one"
    checkCodebook raw (at_ + 4) rest

/-- The superblock's fixed fields. -/
structure Preamble where
  version : ℕ
  bitWidth : ℕ
  kind : ℕ
  layout : ℕ
  dim : ℕ
  nonce : ℕ
deriving DecidableEq, Repr

def Preamble.sbFixed (pre : Preamble) : ℕ := if pre.version = 8 then 24 else 23

def kindMessage (kind version : ℕ) : String :=
  if kind = 1 then s!"this v{version} file holds an IdMapIndex; load it with IdMapIndex::load"
  else if kind = 0 then
    s!"this v{version} file holds a TurboQuantIndex; load it with TurboQuantIndex::load"
  else s!"unknown v{version} index kind {kind}"

/-- Before anything driven by the dimension runs, the file must be as long as a header of it. -/
def truncatedMessage (dim bitWidth minHeader len : ℕ) : String :=
  s!"truncated file: a {dim}-dim {bitWidth}-bit image reserves at least {minHeader} bytes of header, but the file is {len} bytes"

def parsePreamble (raw : List UInt8) (expectKind : ℕ) : Except String Preamble := do
  reject (raw.length < 11 || (raw.take 4 != V7_MAGIC && raw.take 4 != V8_MAGIC))
    "not a v7 or v8 file"
  let version := if raw.take 4 = V8_MAGIC then 8 else 7
  let revision := (entry raw 4).toNat
  reject (version == 7 && revision != V7_VERSION) s!"unsupported v7 revision {revision}"
  reject (version == 8 && revision != V8_VERSION) s!"unsupported v8 revision {revision}"
  let bitWidth := (entry raw 5).toNat
  reject (bitWidth < 2 || 4 < bitWidth) s!"bit_width {bitWidth} out of range"
  let kind := (entry raw 6).toNat
  reject (kind != expectKind) (kindMessage kind version)
  let layout := if version = 8 then (entry raw 7).toNat else LAYOUT_SEQ
  reject (layout != LAYOUT_SEQ && layout != LAYOUT_PLANES) s!"unknown v8 unit layout {layout}"
  reject (layout == LAYOUT_PLANES && bitWidth == 3) "a 3-bit index has no planes layout"
  let sbFixed := if version = 8 then 24 else 23
  let dim ← readU32 raw (sbFixed - 16)
  reject (dim != 0 && (dim % 8 != 0 || MAX_DIM < dim)) s!"dim {dim} invalid"
  let minHeader := MAX_OPS * (dim * bitWidth / 8)
  reject (raw.length < minHeader) (truncatedMessage dim bitWidth minHeader raw.length)
  let nonce ← readU64At raw (sbFixed - 12)
  let fileMaxOps ← readU32 raw (sbFixed - 4)
  reject (fileMaxOps != MAX_OPS)
    s!"unsupported header ops capacity {fileMaxOps} (this build supports {MAX_OPS})"
  return ⟨version, bitWidth, kind, layout, dim, nonce⟩

/-- What the superblock says. -/
structure Superblock where
  geo : Geo
  nonce : ℕ
  tqplusShift : List F32
  tqplusScale : List F32
deriving DecidableEq, Repr

/-- The values an embedded codebook is compared with. The lazy sentinel embeds none. -/
def Tables.canon (T : Tables) (bitWidth dim : ℕ) : List F32 :=
  if dim = 0 then [] else (T.codebook bitWidth dim).1 ++ (T.codebook bitWidth dim).2

/-- How many codebook values the reader steps over. -/
def Tables.codebookLen (T : Tables) (bitWidth dim : ℕ) : ℕ :=
  if dim = 0 then 2 * 2 ^ bitWidth - 1 else (T.canon bitWidth dim).length

/-- The superblock after its fixed fields: the codebook, the calibration and the checksum. -/
def parseCalibration (T : Tables) (raw : List UInt8) (pre : Preamble) :
    Except String Superblock := do
  let off := pre.sbFixed + T.codebookLen pre.bitWidth pre.dim * 4
  checkCodebook raw pre.sbFixed (T.canon pre.bitWidth pre.dim)
  let nCalib ← readU32 raw off
  reject (nCalib != 0 && nCalib != pre.dim) s!"calibration length {nCalib} != dim {pre.dim}"
  let tqplusShift ← readF32s raw (off + 4) nCalib
  let tqplusScale ← readF32s raw (off + 4 + nCalib * 4) nCalib
  validateCalibration T.bounds tqplusShift tqplusScale
  let off := off + 4 + nCalib * 4 + nCalib * 4
  let stored ← readU32 raw off
  reject ((crc32 (raw.take off)).toNat != stored) "corrupt superblock (crc mismatch)"
  let geo : Geo := ⟨pre.kind, pre.dim, pre.bitWidth, nCalib, pre.version, pre.layout⟩
  reject (pre.layout == LAYOUT_PLANES && pre.dim != 0 && !planesGeomOk pre.bitWidth geo.rowBytes)
    s!"dim {pre.dim} has no planes layout at {pre.bitWidth} bits"
  return ⟨geo, pre.nonce, tqplusShift, tqplusScale⟩

def parseSuperblock (T : Tables) (raw : List UInt8) (expectKind : ℕ) : Except String Superblock := do
  let pre ← parsePreamble raw expectKind
  parseCalibration T raw pre

/-- Everything the loader decides before it touches a block unit. -/
structure ParsedImage where
  geo : Geo
  nonce : ℕ
  gen : ℕ
  nVectors : ℕ
  /-- the tail rows' records -/
  tail : List UInt8
  tqplusShift : List F32
  tqplusScale : List F32
  /-- for each group its block and its ops, slot and payload -/
  ops : List (ℕ × List (ℕ × List UInt8))
  pendingSlots : List ℕ
deriving DecidableEq, Repr

/-- Owned copies of the op payloads. -/
def ownOps (raw : List UInt8) (recLen : ℕ) (groups : List OpGroup) :
    Option (List (ℕ × List (ℕ × List UInt8))) :=
  groups.mapM fun g => do
    let ops ← g.2.mapM fun op => do
      let payload ← slice? raw op.2 recLen
      return (op.1, payload)
    return (g.1, ops)

def parseImage (T : Tables) (raw : List UInt8) (expectKind : ℕ) : Except String ParsedImage := do
  let sb ← parseSuperblock T raw expectKind
  let chosen ← orElseError "no valid commit header — unrecoverable v7 file" (chooseHeader raw sb.geo)
  let n := chosen.n
  reject (sb.geo.dim == 0 && n != 0) s!"dim 0 with {n} rows: no dimension committed"
  let tail ← orElseError "truncated commit tail"
    (slice? raw chosen.tailAt (n % BLOCK * sb.geo.recLen))
  let ops ← orElseError "truncated pending op" (ownOps raw sb.geo.recLen chosen.groups)
  return ⟨sb.geo, sb.nonce, chosen.gen, n, tail, sb.tqplusShift, sb.tqplusScale, ops,
    chosen.groups.flatMap fun g => g.2.map Prod.fst⟩

end Turbovec.IoV7
