import Turbovec.Pack.Units
import Turbovec.F32
import Turbovec.IoV7.Crc

/-!
# The container

A file is a superblock, two header slots at their fixed reserve, then one unit per whole block. Every
offset derives from the geometry. This module is the writer's half of the format: the superblock, a
header slot's used prefix, a unit, and the full image.
-/

namespace Turbovec.IoV7

open LittleEndian Slice Grid Pack

/-- A header carries at most this many pending redo ops. -/
def MAX_OPS : ℕ := 1024

def MAX_DIM : ℕ := 16384

def LAYOUT_SEQ : ℕ := 0

def LAYOUT_PLANES : ℕ := 1

/-- The nonce of an image no index is syncing to. -/
def UNCLAIMED_NONCE : ℕ := 0

/-- `TV7\0` -/
def V7_MAGIC : List UInt8 := [0x54, 0x56, 0x37, 0]

def V7_VERSION : ℕ := 2

/-- `TV8\0` -/
def V8_MAGIC : List UInt8 := [0x54, 0x56, 0x38, 0]

def V8_VERSION : ℕ := 1

/-! ## Geometry -/

/-- All offsets in a file derive from these. -/
structure Geo where
  kind : ℕ
  dim : ℕ
  bitWidth : ℕ
  nCalib : ℕ
  /-- 7 or 8 -/
  version : ℕ
  layout : ℕ
deriving DecidableEq, Repr

namespace Geo

/-- The geometry of the file this build writes. -/
def v8 (kind dim bitWidth nCalib layout : ℕ) : Geo := ⟨kind, dim, bitWidth, nCalib, 8, layout⟩

variable (geo : Geo)

def sbFixed : ℕ := if geo.version = 8 then 24 else 23

def rowBytes : ℕ := (blockedGeometry 1 geo.bitWidth geo.dim).2.1

def nLevels : ℕ := 2 ^ geo.bitWidth

def idBytes (rows : ℕ) : ℕ := if geo.kind = 1 then rows * 8 else 0

def sbLen : ℕ :=
  geo.sbFixed + (geo.nLevels - 1) * 4 + geo.nLevels * 4 + 4 + geo.nCalib * 8 + 4

/-- One redo op in a header group: lane, codes, scale, id. -/
def opSize : ℕ := 1 + geo.rowBytes + 4 + geo.idBytes 1

def hdrProbeLen : ℕ := 16 + 31 * (geo.rowBytes + 4 + geo.idBytes 1) + 4 + 4 + MAX_OPS * 4 + 12 + 4

def hdrLen : ℕ :=
  16 + 31 * (geo.rowBytes + 4 + geo.idBytes 1) + 4 + MAX_OPS * (5 + geo.opSize) + 4 + MAX_OPS * 4 +
    12 + 4

def hdrAt (slot : ℕ) : ℕ := geo.sbLen + slot * geo.hdrLen

def unitLen : ℕ := BLOCK * geo.rowBytes + BLOCK * 4 + geo.idBytes BLOCK

def unitAt (block : ℕ) : ℕ := geo.hdrAt 2 + block * geo.unitLen

def fullLen (nVectors : ℕ) : ℕ := geo.unitAt (nVectors / BLOCK)

theorem rowBytes_eq : geo.rowBytes = geo.dim / codesPerByte geo.bitWidth := by
  rw [rowBytes, blockedGeometry_eq]

/-- A row's record in a tail or a redo op: codes, scale, id. -/
def recLen : ℕ := geo.rowBytes + 4 + geo.idBytes 1

theorem opSize_eq : geo.opSize = 1 + geo.recLen := by
  simp only [opSize, recLen]
  omega

theorem hdrAt_one : geo.hdrAt 1 = geo.hdrAt 0 + geo.hdrLen := by
  simp only [hdrAt]
  omega

theorem hdrAt_two : geo.hdrAt 2 = geo.hdrAt 1 + geo.hdrLen := by
  simp only [hdrAt]
  omega

theorem unitAt_succ (b : ℕ) : geo.unitAt (b + 1) = geo.unitAt b + geo.unitLen := by
  simp only [unitAt]
  ring

theorem unitAt_mono {a b : ℕ} (h : a ≤ b) : geo.unitAt a ≤ geo.unitAt b :=
  Nat.add_le_add_left (Nat.mul_le_mul_right _ h) _

theorem unitAt_zero : geo.unitAt 0 = geo.hdrAt 2 := by
  simp [unitAt]

theorem unitLen_pos : 0 < geo.unitLen := by
  simp only [unitLen, BLOCK]
  omega

theorem unitAt_add_le {a b : ℕ} (h : a < b) : geo.unitAt a + geo.unitLen ≤ geo.unitAt b := by
  rw [← unitAt_succ]
  exact geo.unitAt_mono h

end Geo

/-! ## What a sync reads of the index -/

structure SyncCursor where
  gen : ℕ
  nSynced : ℕ
  calibGen : ℕ
  nonce : ℕ
deriving DecidableEq, Repr

/-- Everything a write needs from the index. -/
structure SyncSource where
  kind : ℕ
  dim : ℕ
  bitWidth : ℕ
  nVectors : ℕ
  version : ℕ
  layout : ℕ
  /-- code bytes of the whole blocks of rows `[from, to)`, in `layout` -/
  unitCodes : ℕ → ℕ → List UInt8
  /-- one row's sequential code bytes -/
  rowCodes : ℕ → List UInt8
  scales : List F32
  /-- slot to external id; present iff `kind` is 1 -/
  ids : Option (List UInt64)
  tqplusShift : List F32
  tqplusScale : List F32
  boundaries : List F32
  centroids : List F32

def SyncSource.geo (src : SyncSource) : Geo :=
  ⟨src.kind, src.dim, src.bitWidth, src.tqplusShift.length, src.version, src.layout⟩

/-! ## Pieces -/

def f32Bytes (vs : List F32) : List UInt8 := vs.flatMap F32.toLeBytes

def idBytesOf (id : UInt64) : List UInt8 := leBytes 8 id.toNat

/-- Magic, revision, width, kind and, since v8, the unit layout. -/
def preambleBytes (src : SyncSource) : List UInt8 :=
  if src.version = 8 then
    V8_MAGIC ++ [UInt8.ofNat V8_VERSION, UInt8.ofNat src.bitWidth, UInt8.ofNat src.kind,
      UInt8.ofNat src.layout]
  else V7_MAGIC ++ [UInt8.ofNat V7_VERSION, UInt8.ofNat src.bitWidth, UInt8.ofNat src.kind]

/-- The superblock up to its checksum. -/
def superblockBody (src : SyncSource) (nonce : ℕ) : List UInt8 :=
  preambleBytes src ++ leBytes 4 src.dim ++ leBytes 8 nonce ++ leBytes 4 MAX_OPS ++
  f32Bytes src.boundaries ++ f32Bytes src.centroids ++
  leBytes 4 src.tqplusShift.length ++ f32Bytes src.tqplusShift ++ f32Bytes src.tqplusScale

def superblock (src : SyncSource) (nonce : ℕ) : List UInt8 :=
  superblockBody src nonce ++ u32Bytes (crc32 (superblockBody src nonce))

/-- One row's record: codes, scale, id. -/
def recBytes (src : SyncSource) (r : ℕ) : List UInt8 :=
  src.rowCodes r ++ F32.toLeBytes (entry src.scales r) ++
    match src.ids with
    | some ids => idBytesOf (entry ids r)
    | none => []

/-- One redo op: the lane, then the slot's record. -/
def opBytes (src : SyncSource) (s : ℕ) : List UInt8 :=
  UInt8.ofNat (s % BLOCK) :: recBytes src s

/-- One op group: block, count, ops. -/
def groupBytes (src : SyncSource) (g : ℕ × List ℕ) : List UInt8 :=
  leBytes 4 g.1 ++ [UInt8.ofNat g.2.length] ++ g.2.flatMap (opBytes src)

/-- The delta a commit records: materialised units, appended range, digest. -/
structure Delta where
  mat : List ℕ
  app : ℕ × ℕ
  crc : UInt32

/-- The records of the rows after the last whole block. -/
def tailBytes (src : SyncSource) (n : ℕ) : List UInt8 :=
  (List.range (n % BLOCK)).flatMap fun k => recBytes src (n - n % BLOCK + k)

/-- A header's bytes up to its checksum. -/
def headerBody (src : SyncSource) (gen n : ℕ) (ops : List (ℕ × List ℕ)) (delta : Delta) :
    List UInt8 :=
  leBytes 8 gen ++ leBytes 8 n ++ tailBytes src n ++
  leBytes 4 ops.length ++ ops.flatMap (groupBytes src) ++
  leBytes 4 delta.mat.length ++ delta.mat.flatMap (leBytes 4) ++
  leBytes 4 delta.app.1 ++ leBytes 4 delta.app.2 ++ u32Bytes delta.crc

/-- The used prefix of a header slot. -/
def headerSlot (src : SyncSource) (gen n : ℕ) (ops : List (ℕ × List ℕ)) (delta : Delta) :
    List UInt8 :=
  headerBody src gen n ops delta ++ u32Bytes (crc32 (headerBody src gen n ops delta))

/-- An item of a row, zero past the last row. -/
def padded {α : Type} [Zero α] (l : List α) (n i : ℕ) : α := if i < n then entry l i else 0

def unitScales (src : SyncSource) (block : ℕ) : List UInt8 :=
  (List.range BLOCK).flatMap fun lane =>
    F32.toLeBytes (padded src.scales src.nVectors (block * BLOCK + lane))

def unitIds (src : SyncSource) (block : ℕ) : List UInt8 :=
  match src.ids with
  | some ids => (List.range BLOCK).flatMap fun lane =>
      idBytesOf (padded ids src.nVectors (block * BLOCK + lane))
  | none => []

/-- One unit: codes, scales, ids. -/
def unitBytes (src : SyncSource) (block : ℕ) : List UInt8 :=
  let fr := block * BLOCK
  src.unitCodes fr (fr + BLOCK) ++ unitScales src block ++ unitIds src block

/-- The digest's pieces: generation, then each unit's block number and bytes. -/
def digestPieces (gen : ℕ) (units : List (ℕ × List UInt8)) : List (List UInt8) :=
  leBytes 8 gen :: units.flatMap fun u => [leBytes 4 u.1, u.2]

/-- The digest of a delta. -/
def deltaDigest (gen : ℕ) (units : List (ℕ × List UInt8)) : UInt32 :=
  ((digestPieces gen units).foldl DeltaDigest.push
    (DeltaDigest.new (units.foldl (fun n u => n + (4 + u.2.length)) 8))).finish

/-- The header of a full image: no pending ops and an empty delta. -/
def fullHeader (src : SyncSource) (gen : ℕ) : List UInt8 :=
  headerSlot src gen src.nVectors [] ⟨[], (0, 0), deltaDigest gen []⟩

/-- Superblock, slot 0 with a header, slot 1 zeroed, the units. -/
def layoutImage (geo : Geo) (sb h : List UInt8) (nBlocks : ℕ) (unit : ℕ → List UInt8) : List UInt8 :=
  sb ++ h ++ List.replicate (geo.hdrLen - h.length) 0 ++ List.replicate geo.hdrLen 0 ++
    (List.range nBlocks).flatMap unit

def writeImage (src : SyncSource) (gen nonce : ℕ) : List UInt8 :=
  layoutImage src.geo (superblock src nonce) (fullHeader src gen) (src.nVectors / BLOCK)
    (unitBytes src)

def imageBytes (src : SyncSource) : List UInt8 := writeImage src 0 UNCLAIMED_NONCE

def imageLen (src : SyncSource) : ℕ := src.geo.fullLen src.nVectors

end Turbovec.IoV7
