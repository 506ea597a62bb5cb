import Turbovec.IoV7.Decode

/-!
# What was written parses

A header slot parses back to what was written, whatever its block numbers: they go through 32 bits.
A superblock parses back to its geometry, nonce and calibration.
-/

namespace Turbovec.IoV7

open LittleEndian Slice Grid Pack

/-! ## Headers -/

/-- Ids are there exactly when the kind has them. -/
def SyncSource.IdsOk (src : SyncSource) : Prop := src.ids.isSome = true ↔ src.kind = 1

theorem length_recBytes {src : SyncSource} (hids : src.IdsOk) {r : ℕ}
    (hrow : (src.rowCodes r).length = src.geo.rowBytes) :
    (recBytes src r).length = src.geo.recLen := by
  simp only [SyncSource.IdsOk] at hids
  simp only [recBytes, Geo.recLen, List.length_append, hrow, F32.length_toLeBytes, Geo.idBytes]
  have hkind : src.geo.kind = src.kind := rfl
  cases hi : src.ids with
  | none =>
    rw [hi] at hids
    rw [hkind, if_neg (by simpa using hids.symm)]
    rfl
  | some ids =>
    rw [hi] at hids
    rw [hkind, if_pos (by simpa using hids)]
    simp [idBytesOf]

/-- The ops a group of slots parses back to. -/
def wireOps (src : SyncSource) (b : ℕ) (ss : List ℕ) : List (ℕ × List UInt8) :=
  ss.map fun s => (b * BLOCK + s % BLOCK, recBytes src s)

/-- The groups a header parses back to. -/
def wireGroups (src : SyncSource) (ops : List (ℕ × List ℕ)) : List (ℕ × List (ℕ × List UInt8)) :=
  ops.map fun g => (g.1 % 2 ^ 32, wireOps src (g.1 % 2 ^ 32) g.2)

section Header

variable {src : SyncSource} {raw bytes : List UInt8} {at_ p : ℕ}

theorem length_opBytes {s : ℕ} (hrec : (recBytes src s).length = src.geo.recLen) :
    (opBytes src s).length = src.geo.opSize := by
  rw [opBytes, List.length_cons, hrec, src.geo.opSize_eq, Nat.add_comm]

theorem length_groupBytes {g : ℕ × List ℕ}
    (hrec : ∀ s ∈ g.2, (recBytes src s).length = src.geo.recLen) :
    (groupBytes src g).length = 5 + g.2.length * src.geo.opSize := by
  rw [groupBytes, List.length_append, List.length_append, length_leBytes,
    length_flatMap_const fun s hs => length_opBytes (hrec s hs)]
  rfl

theorem getElem?_of_holds_singleton {a : UInt8} (h : Holds bytes p [a]) : bytes[p]? = some a := by
  simpa using h.getElem? (show 0 < [a].length by simp)

/-- The ops of a group whose first op is at `p`: slot and payload offset. -/
def placedOps (geo : Geo) (at_ b p : ℕ) : List ℕ → List (ℕ × ℕ)
  | [] => []
  | s :: ss => (b * BLOCK + s % BLOCK, at_ + p + 1) :: placedOps geo at_ b (p + geo.opSize) ss

/-- The groups of a header whose first group is at `p`. -/
def placedGroups (geo : Geo) (at_ p : ℕ) : List (ℕ × List ℕ) → List OpGroup
  | [] => []
  | g :: gs => (g.1, placedOps geo at_ g.1 (p + 5) g.2) ::
      placedGroups geo at_ (p + 5 + g.2.length * geo.opSize) gs

/-- The op groups as the header's 32-bit block numbers carry them. -/
def narrow (ops : List (ℕ × List ℕ)) : List (ℕ × List ℕ) := ops.map fun g => (g.1 % 2 ^ 32, g.2)

theorem parseOps_placed {b : ℕ} (at_ : ℕ) (ss : List ℕ)
    (hrec : ∀ s ∈ ss, (recBytes src s).length = src.geo.recLen)
    (h : Holds bytes p (ss.flatMap (opBytes src))) :
    parseOps bytes at_ b src.geo.opSize ss.length p =
      some (placedOps src.geo at_ b p ss, p + ss.length * src.geo.opSize) := by
  induction ss generalizing p with
  | nil => simp [parseOps, placedOps]
  | cons s ss ih =>
    rw [List.flatMap_cons, holds_append] at h
    obtain ⟨hop, hrest⟩ := h
    rw [length_opBytes (hrec s List.mem_cons_self)] at hrest
    have hparse := ih (fun s hs => hrec s (List.mem_cons_of_mem _ hs)) hrest
    rw [opBytes, ← List.singleton_append, holds_append] at hop
    have hmod : s % BLOCK < BLOCK := Nat.mod_lt _ (by decide)
    have hnat : (UInt8.ofNat (s % BLOCK)).toNat = s % BLOCK := by
      rw [UInt8.toNat_ofNat']
      exact Nat.mod_eq_of_lt (hmod.trans (by decide))
    refine parseOps_succ_eq_some.mpr
      ⟨_, placedOps src.geo at_ b (p + src.geo.opSize) ss, getElem?_of_holds_singleton hop.1, by rwa [hnat],
        ?_, by rw [hnat]; rfl⟩
    rw [hparse, List.length_cons]
    congr 2
    ring

/-- The payloads lie where the placed ops say. -/
theorem payloads_placed {b : ℕ} (hraw : Holds raw at_ bytes) (ss : List ℕ)
    (hrec : ∀ s ∈ ss, (recBytes src s).length = src.geo.recLen)
    (h : Holds bytes p (ss.flatMap (opBytes src))) :
    List.Forall₂ (fun op w => w.1 = op.1 ∧ slice? raw op.2 src.geo.recLen = some w.2)
      (placedOps src.geo at_ b p ss) (wireOps src b ss) := by
  induction ss generalizing p with
  | nil => exact List.Forall₂.nil
  | cons s ss ih =>
    rw [List.flatMap_cons, holds_append] at h
    obtain ⟨hop, hrest⟩ := h
    rw [length_opBytes (hrec s List.mem_cons_self)] at hrest
    refine List.Forall₂.cons ⟨rfl, ?_⟩ (ih (fun s hs => hrec s (List.mem_cons_of_mem _ hs)) hrest)
    rw [opBytes, ← List.singleton_append, holds_append] at hop
    have hin : Holds raw (at_ + (p + 1)) (recBytes src s) := hraw.trans hop.2
    rw [← Nat.add_assoc] at hin
    exact hin.slice? (hrec s List.mem_cons_self)

/-- The wire form of a header's op groups is one the parser takes. -/
structure OpsFit (src : SyncSource) (n : ℕ) (ops : List (ℕ × List ℕ)) : Prop where
  groups_le : ops.length ≤ MAX_OPS
  block_lt : ∀ g ∈ ops, g.1 % 2 ^ 32 < n / BLOCK
  count_lt : ∀ g ∈ ops, g.2.length < 256
  recs : ∀ g ∈ ops, ∀ s ∈ g.2, (recBytes src s).length = src.geo.recLen

theorem parseGroups_placed {n : ℕ} (at_ : ℕ) (ops : List (ℕ × List ℕ))
    (hblock : ∀ g ∈ ops, g.1 % 2 ^ 32 < n / BLOCK) (hcount : ∀ g ∈ ops, g.2.length < 256)
    (hrec : ∀ g ∈ ops, ∀ s ∈ g.2, (recBytes src s).length = src.geo.recLen)
    (h : Holds bytes p (ops.flatMap (groupBytes src))) :
    parseGroups bytes at_ src.geo.opSize (n / BLOCK) ops.length p =
      some (placedGroups src.geo at_ p (narrow ops), p + (ops.flatMap (groupBytes src)).length) := by
  induction ops generalizing p with
  | nil => simp [parseGroups, placedGroups, narrow]
  | cons g ops ih =>
    rw [List.flatMap_cons, holds_append] at h
    obtain ⟨hg, hrest⟩ := h
    have hrec' := hrec g List.mem_cons_self
    have hparse := ih (fun g hg => hblock g (List.mem_cons_of_mem _ hg))
      (fun g hg => hcount g (List.mem_cons_of_mem _ hg))
      (fun g hg => hrec g (List.mem_cons_of_mem _ hg)) hrest
    rw [groupBytes, holds_append, holds_append, List.length_append, length_leBytes] at hg
    obtain ⟨⟨hb, hn⟩, hops⟩ := hg
    have hnat : (UInt8.ofNat g.2.length).toNat = g.2.length := by
      rw [UInt8.toNat_ofNat']
      exact Nat.mod_eq_of_lt (hcount g List.mem_cons_self)
    have hgops := @parseOps_placed src bytes (p + 5) (g.1 % 2 ^ 32) at_ g.2 hrec' hops
    rw [length_groupBytes hrec', ← Nat.add_assoc] at hparse
    refine parseGroups_succ_eq_some.mpr
      ⟨g.1 % 2 ^ 32, UInt8.ofNat g.2.length, placedOps src.geo at_ (g.1 % 2 ^ 32) (p + 5) g.2,
        p + 5 + g.2.length * src.geo.opSize, _, readLe?_of_holds hb, hblock g List.mem_cons_self,
        getElem?_of_holds_singleton hn, ?_, ?_, rfl⟩
    · rw [hnat]
      exact hgops
    · refine hparse.trans ?_
      rw [List.flatMap_cons, List.length_append, length_groupBytes hrec', ← Nat.add_assoc,
        ← Nat.add_assoc]
      rfl

theorem ownOps_placed (hraw : Holds raw at_ bytes) (ops : List (ℕ × List ℕ))
    (hrec : ∀ g ∈ ops, ∀ s ∈ g.2, (recBytes src s).length = src.geo.recLen)
    (h : Holds bytes p (ops.flatMap (groupBytes src))) :
    ownOps raw src.geo.recLen (placedGroups src.geo at_ p (narrow ops)) = some (wireGroups src ops) := by
  induction ops generalizing p with
  | nil => rfl
  | cons g ops ih =>
    rw [List.flatMap_cons, holds_append] at h
    obtain ⟨hg, hrest⟩ := h
    have hrec' := hrec g List.mem_cons_self
    rw [length_groupBytes hrec', ← Nat.add_assoc] at hrest
    have howned := ih (fun g hg => hrec g (List.mem_cons_of_mem _ hg)) hrest
    rw [groupBytes, holds_append, List.length_append, length_leBytes] at hg
    have hgown := @payloads_placed src raw bytes at_ (p + 5) (g.1 % 2 ^ 32) hraw g.2 hrec' hg.2
    rw [ownOps, mapM_eq_some] at howned ⊢
    refine List.Forall₂.cons ?_ howned
    simp only [Option.bind_eq_bind, Option.bind_eq_some_iff, Option.pure_def, Option.some.injEq]
    refine ⟨_, mapM_eq_some.mpr (List.Forall₂.imp (fun op w hw => ?_) hgown), rfl⟩
    simp only [Option.bind_eq_some_iff, Option.some.injEq]
    exact ⟨w.2, hw.2, Prod.ext hw.1.symm rfl⟩

theorem parseMat_of_holds (mat : List ℕ) (h : Holds bytes p (mat.flatMap (leBytes 4))) :
    parseMat bytes mat.length p = some (mat.map (· % 2 ^ 32)) := by
  induction mat generalizing p with
  | nil => rfl
  | cons b mat ih =>
    rw [List.flatMap_cons, holds_append, length_leBytes] at h
    exact parseMat_succ_eq_some.mpr ⟨b % 2 ^ 32, mat.map (· % 2 ^ 32), readLe?_of_holds h.1, ih h.2, rfl⟩

/-- A parsed header that says what was written. -/
structure Says (raw : List UInt8) (src : SyncSource) (gen n : ℕ) (ops : List (ℕ × List ℕ))
    (delta : Delta) (at_ : ℕ) (hdr : ParsedHdr) : Prop where
  gen_eq : hdr.gen = gen
  n_eq : hdr.n = n
  tailAt_eq : hdr.tailAt = at_ + 16
  groups_eq : ownOps raw src.geo.recLen hdr.groups = some (wireGroups src ops)
  deltaMat_eq : hdr.deltaMat = delta.mat.map (· % 2 ^ 32)
  deltaApp_eq : hdr.deltaApp = (delta.app.1 % 2 ^ 32, delta.app.2 % 2 ^ 32)
  deltaCrc_eq : hdr.deltaCrc = delta.crc.toNat
  used_eq : hdr.used = (headerSlot src gen n ops delta).length

/-- A header whose tail records have their length. -/
def TailFits (src : SyncSource) (n : ℕ) : Prop :=
  ∀ k < n % BLOCK, (recBytes src (n - n % BLOCK + k)).length = src.geo.recLen

theorem length_tailBytes {n : ℕ} (htail : TailFits src n) :
    (tailBytes src n).length = n % BLOCK * src.geo.recLen :=
  length_flatMap_range htail

theorem length_headerBody {gen n : ℕ} {ops : List (ℕ × List ℕ)} {delta : Delta}
    (htail : TailFits src n) : (headerBody src gen n ops delta).length =
      16 + n % BLOCK * src.geo.recLen + 4 + (ops.flatMap (groupBytes src)).length + 4 +
        delta.mat.length * 4 + 12 := by
  have hml : (delta.mat.flatMap (leBytes 4)).length = delta.mat.length * 4 :=
    length_flatMap_const fun b _ => length_leBytes 4 b
  simp only [headerBody, List.length_append, length_leBytes, length_tailBytes htail, hml, u32Bytes]

theorem readLe?_u32Bytes {x : UInt32} (h : Holds bytes p (u32Bytes x)) :
    readLe? bytes p 4 = some x.toNat :=
  readLe?_of_holds_of_lt h x.toNat_lt

/-- A delta as 32-bit block numbers carry it. -/
def Delta.narrow (delta : Delta) : Delta :=
  ⟨delta.mat.map (· % 2 ^ 32), (delta.app.1 % 2 ^ 32, delta.app.2 % 2 ^ 32), delta.crc⟩

/-- The header at file offset `at_` that says `ops` and `delta`. -/
def placedHdr (geo : Geo) (at_ gen n : ℕ) (ops : List (ℕ × List ℕ)) (delta : Delta) (used : ℕ) :
    ParsedHdr where
  gen := gen
  n := n
  tailAt := at_ + 16
  groups := placedGroups geo at_ (16 + n % BLOCK * geo.recLen + 4) ops
  deltaMat := delta.mat
  deltaApp := delta.app
  deltaCrc := delta.crc.toNat
  used := used

/-- A header slot parses back to what was written, block numbers through 32 bits. -/
theorem parseHeaderAt_placed {gen n slot fileLen : ℕ} {ops : List (ℕ × List ℕ)} {delta : Delta} (at_ : ℕ)
    (h : Holds bytes 0 (headerSlot src gen n ops delta)) (hgen : gen < 2 ^ 64) (hslot : gen % 2 = slot)
    (hn : n < 2 ^ 64) (hfit : src.geo.unitAt (n / BLOCK) ≤ fileLen) (hops : OpsFit src n ops)
    (htail : TailFits src n) (hmat : delta.mat.length ≤ MAX_OPS) :
    parseHeaderAt bytes at_ src.geo slot fileLen = some (placedHdr src.geo at_ gen n (narrow ops)
      delta.narrow (headerSlot src gen n ops delta).length) := by
  obtain ⟨hbody, hcrc⟩ := holds_append.mp h
  have hlen := @length_headerBody src gen n ops delta htail
  have htake : bytes.take (headerBody src gen n ops delta).length = headerBody src gen n ops delta := by
    have := slice?_eq_some.mp hbody
    rw [List.drop_zero] at this
    exact this.2
  have hml : (delta.mat.flatMap (leBytes 4)).length = delta.mat.length * 4 :=
    length_flatMap_const fun b _ => length_leBytes 4 b
  simp only [headerBody, holds_append, List.length_append, length_leBytes,
    length_tailBytes htail, hml, Nat.zero_add, Nat.reduceAdd] at hbody
  obtain ⟨⟨⟨⟨⟨⟨⟨⟨⟨hg, hnn⟩, -⟩, hcount⟩, hgroups⟩, hmatn⟩, hmats⟩, hfrom⟩, hto⟩, hdelta⟩ := hbody
  have hparse := parseGroups_placed at_ ops hops.block_lt hops.count_lt hops.recs hgroups
  have hgl := length_of_parseGroups hparse
  have hml' : (delta.mat.map (· % 2 ^ 32)).length = delta.mat.length := List.length_map _
  rw [placedHdr]
  generalize hM : 16 + n % BLOCK * src.geo.recLen + 4 + (ops.flatMap (groupBytes src)).length = pMat
    at *
  have hstored : readLe? bytes (pMat + 4 + delta.mat.length * 4 + 12) 4 =
      some (crc32 (bytes.take (pMat + 4 + delta.mat.length * 4 + 12))).toNat := by
    rw [← hlen, htake]
    rw [Nat.zero_add] at hcrc
    exact readLe?_u32Bytes hcrc
  have hused : (headerSlot src gen n ops delta).length = pMat + 4 + delta.mat.length * 4 + 12 + 4 := by
    rw [headerSlot, List.length_append, hlen, u32Bytes, length_leBytes]
  refine parseHeaderAt_eq_some.mpr ⟨pMat,
    { gen := readLe?_of_holds_of_lt hg hgen
      parity := hslot
      n := readLe?_of_holds_of_lt hnn hn
      fits := hfit
      tailAt := rfl
      nUnits := ?_
      nUnits_le := hgl ▸ hops.groups_le
      groups := hgl ▸ hparse
      nMat := ?_
      nMat_le := hml'.trans_le hmat
      mat := ?_
      app_from := ?_
      app_to := ?_
      deltaCrc := ?_
      stored := ?_
      used := ?_ }⟩
  · simp only [hgl]
    exact readLe?_of_holds_of_lt hcount (hops.groups_le.trans_lt (by decide))
  · simp only [Delta.narrow, hml']
    exact readLe?_of_holds_of_lt hmatn (hmat.trans_lt (by decide))
  · simp only [Delta.narrow, hml']
    exact parseMat_of_holds delta.mat hmats
  · simp only [Delta.narrow, hml']
    exact readLe?_of_holds hfrom
  · simp only [Delta.narrow, hml']
    exact readLe?_of_holds hto
  · simp only [Delta.narrow, hml']
    exact readLe?_u32Bytes hdelta
  · simp only [Delta.narrow, hml']
    exact hstored
  · simp only [Delta.narrow, hml']
    exact hused

/-- The bytes of a header's op groups, in the slot. -/
theorem holds_groups {gen n : ℕ} {ops : List (ℕ × List ℕ)} {delta : Delta} (htail : TailFits src n)
    (h : Holds bytes 0 (headerSlot src gen n ops delta)) :
    Holds bytes (16 + n % BLOCK * src.geo.recLen + 4) (ops.flatMap (groupBytes src)) := by
  have hml : (delta.mat.flatMap (leBytes 4)).length = delta.mat.length * 4 :=
    length_flatMap_const fun b _ => length_leBytes 4 b
  obtain ⟨hbody, -⟩ := holds_append.mp h
  simp only [headerBody, holds_append, List.length_append, length_leBytes,
    length_tailBytes htail, hml, Nat.zero_add, Nat.reduceAdd] at hbody
  obtain ⟨⟨⟨⟨⟨⟨-, hgroups⟩, -⟩, -⟩, -⟩, -⟩, -⟩ := hbody
  exact hgroups

/-- A header slot parses back to what was written. -/
theorem parseHeaderAt_of_holds {gen n slot fileLen : ℕ} {ops : List (ℕ × List ℕ)} {delta : Delta}
    (hraw : Holds raw at_ bytes) (h : Holds bytes 0 (headerSlot src gen n ops delta))
    (hgen : gen < 2 ^ 64) (hslot : gen % 2 = slot) (hn : n < 2 ^ 64)
    (hfit : src.geo.unitAt (n / BLOCK) ≤ fileLen) (hops : OpsFit src n ops) (htail : TailFits src n)
    (hmat : delta.mat.length ≤ MAX_OPS) :
    ∃ hdr, parseHeaderAt bytes at_ src.geo slot fileLen = some hdr ∧
      Says raw src gen n ops delta at_ hdr :=
  ⟨_, parseHeaderAt_placed at_ h hgen hslot hn hfit hops htail hmat,
    ⟨rfl, rfl, rfl, ownOps_placed hraw ops hops.recs (holds_groups htail h), rfl, rfl, rfl, rfl⟩⟩

end Header

/-! ## The superblock -/

/-- A source whose superblock the loader takes. -/
structure SourceOk (T : Tables) (src : SyncSource) : Prop where
  geo : src.geo.Valid
  kind_le : src.kind ≤ 1
  boundaries_len : src.boundaries.length = 2 ^ src.bitWidth - 1
  centroids_len : src.centroids.length = 2 ^ src.bitWidth
  codebook : src.dim ≠ 0 → src.boundaries ++ src.centroids = T.canon src.bitWidth src.dim
  codebook_num : ∀ v ∈ T.canon src.bitWidth src.dim, v.isNaN = false
  calibration : CalibrationOk T src.tqplusShift.length src.tqplusShift src.tqplusScale

section Superblock

variable {T : Tables} {src : SyncSource} {raw : List UInt8} {nonce p : ℕ}

theorem length_f32Bytes (vs : List F32) : (f32Bytes vs).length = vs.length * 4 :=
  length_flatMap_const fun v _ => F32.length_toLeBytes v

theorem readF32s_of_holds (vs : List F32) (h : Holds raw p (f32Bytes vs)) :
    readF32s raw p vs.length = .ok vs := by
  induction vs generalizing p with
  | nil => rfl
  | cons v vs ih =>
    rw [f32Bytes, List.flatMap_cons, holds_append, F32.length_toLeBytes] at h
    simp only [List.length_cons, readF32s, bind_eq_ok, readF32, orElseError_eq_ok, Option.map_eq_some_iff]
    exact ⟨v, ⟨v.toLeBytes, h.1.slice? (F32.length_toLeBytes v), F32.fromLeBytes_toLeBytes v⟩, vs,
      ih h.2, rfl⟩

theorem checkCodebook_of_holds (vs : List F32) (hnum : ∀ v ∈ vs, v.isNaN = false)
    (h : Holds raw p (f32Bytes vs)) : checkCodebook raw p vs = .ok () := by
  induction vs generalizing p with
  | nil => rfl
  | cons v vs ih =>
    rw [f32Bytes, List.flatMap_cons, holds_append, F32.length_toLeBytes] at h
    simp only [checkCodebook, bind_eq_ok, readF32, orElseError_eq_ok, Option.map_eq_some_iff,
      reject_eq_ok]
    refine ⟨v, ⟨v.toLeBytes, h.1.slice? (F32.length_toLeBytes v), F32.fromLeBytes_toLeBytes v⟩, (), ?_,
      ih (fun w hw => hnum w (List.mem_cons_of_mem _ hw)) h.2⟩
    rw [F32.eq_self (hnum v List.mem_cons_self)]
    rfl

theorem length_preambleBytes : (preambleBytes src).length = src.geo.sbFixed - 16 := by
  rw [preambleBytes, Geo.sbFixed, show src.geo.version = src.version from rfl]
  split <;> rfl

/-- A source whose codebook and calibration have their lengths. -/
structure SourceShaped (src : SyncSource) : Prop where
  boundaries_len : src.boundaries.length = 2 ^ src.bitWidth - 1
  centroids_len : src.centroids.length = 2 ^ src.bitWidth
  scale_len : src.tqplusScale.length = src.tqplusShift.length

theorem SourceOk.shaped (hok : SourceOk T src) : SourceShaped src :=
  ⟨hok.boundaries_len, hok.centroids_len, hok.calibration.scale_len⟩

theorem length_superblockBody (hok : SourceShaped src) :
    (superblockBody src nonce).length + 4 = src.geo.sbLen := by
  have h16 : 16 ≤ src.geo.sbFixed := by
    rw [Geo.sbFixed]
    split <;> decide
  have hlev : src.geo.nLevels = 2 ^ src.bitWidth := rfl
  have hn : src.geo.nCalib = src.tqplusShift.length := rfl
  simp only [superblockBody, List.length_append, length_preambleBytes, length_leBytes, length_f32Bytes,
    hok.boundaries_len, hok.centroids_len, hok.scale_len, Geo.sbLen, hlev, hn]
  omega

theorem length_superblock (hok : SourceShaped src) : (superblock src nonce).length = src.geo.sbLen := by
  rw [superblock, List.length_append, u32Bytes, length_leBytes, length_superblockBody hok]

/-- The smallest header reserve. -/
theorem minHeader_le (geo : Geo) (hg : geo.Valid) :
    MAX_OPS * (geo.dim * geo.bitWidth / 8) ≤ geo.hdrAt 2 := by
  have hrow : geo.dim * geo.bitWidth / 8 ≤ geo.rowBytes := by
    have := hg.dim_mod
    rw [geo.rowBytes_eq]
    rcases hg.bits with h | h | h <;> rw [h] <;> simp only [codesPerByte] <;> omega
  have hslot : MAX_OPS * geo.rowBytes ≤ geo.hdrLen := by
    simp only [Geo.hdrLen, Geo.opSize, MAX_OPS]
    omega
  have := Nat.mul_le_mul_left MAX_OPS hrow
  simp only [Geo.hdrAt]
  omega

theorem toNat_ofNat_of_le {n m : ℕ} (h : n ≤ m) (hm : m < 256) : (UInt8.ofNat n).toNat = n := by
  rw [UInt8.toNat_ofNat']
  exact Nat.mod_eq_of_lt (h.trans_lt hm)

/-- The fixed fields read back. -/
theorem preamble_fields (hok : SourceOk T src) (h : Holds raw 0 (preambleBytes src)) :
    raw.take 4 = (if src.version = 8 then V8_MAGIC else V7_MAGIC) ∧
      (entry raw 4).toNat = (if src.version = 8 then V8_VERSION else V7_VERSION) ∧
      (entry raw 5).toNat = src.bitWidth ∧ (entry raw 6).toNat = src.kind ∧
      (src.version = 8 → (entry raw 7).toNat = src.layout) := by
  have hb := toNat_ofNat_of_le hok.geo.bits_le (by decide)
  have hk := toNat_ofNat_of_le hok.kind_le (by decide)
  have hl : src.layout ≤ 1 := by
    rcases hok.geo.layout with hl | ⟨hl, -⟩
    · exact (show src.layout = LAYOUT_SEQ from hl).trans_le (by decide)
    · exact (show src.layout = LAYOUT_PLANES from hl).le
  have hl := toNat_ofNat_of_le hl (by decide)
  have hentry {k : ℕ} {xs : List UInt8} {a : UInt8} (hx : Holds raw 4 xs) (ha : xs[k]? = some a) :
      entry raw (4 + k) = a := by
    have hk : k < xs.length := (List.getElem?_eq_some_iff.mp ha).1
    exact entry_of_getElem? ((hx.getElem? hk).trans ha)
  rw [preambleBytes] at h
  split at h
  · rename_i h8
    obtain ⟨hm, hf⟩ := holds_append.mp h
    rw [if_pos h8, if_pos h8]
    refine ⟨(slice?_eq_some.mp hm).2, ?_, ?_, ?_, fun _ => ?_⟩
    · rw [@hentry 0 _ _ hf rfl]
      rfl
    · rw [@hentry 1 _ _ hf rfl]
      exact hb
    · rw [@hentry 2 _ _ hf rfl]
      exact hk
    · rw [@hentry 3 _ _ hf rfl]
      exact hl
  · rename_i h8
    obtain ⟨hm, hf⟩ := holds_append.mp h
    rw [if_neg h8, if_neg h8]
    refine ⟨(slice?_eq_some.mp hm).2, ?_, ?_, ?_, fun h => absurd h h8⟩
    · rw [@hentry 0 _ _ hf rfl]
      rfl
    · rw [@hentry 1 _ _ hf rfl]
      exact hb
    · rw [@hentry 2 _ _ hf rfl]
      exact hk

theorem parsePreamble_of_holds (hok : SourceOk T src) (hnonce : nonce < 2 ^ 64)
    (h : Holds raw 0 (superblock src nonce)) (hlen : src.geo.hdrAt 2 ≤ raw.length) :
    parsePreamble raw src.kind =
      .ok ⟨src.version, src.bitWidth, src.kind, src.layout, src.dim, nonce⟩ := by
  have hg := hok.geo
  have hmin := (minHeader_le src.geo hg).trans hlen
  have hlen' := length_superblock hok.shaped ▸ h.le_length
  have hbody := (holds_append.mp h).1
  simp only [superblockBody, holds_append, List.length_append, length_leBytes,
    length_preambleBytes, Nat.zero_add] at hbody
  obtain ⟨⟨⟨⟨⟨⟨⟨⟨hpre, hdim⟩, hnon⟩, hops⟩, -⟩, -⟩, -⟩, -⟩, -⟩ := hbody
  obtain ⟨hm, he4, he5, he6, he7⟩ := preamble_fields hok hpre
  have hdimle : src.dim < 256 ^ 4 := (show src.dim ≤ MAX_DIM from hg.dim_le).trans_lt (by decide)
  have hversion : (if raw.take 4 = V8_MAGIC then 8 else 7) = src.version := by
    rcases (show src.version = 7 ∨ src.version = 8 from hg.version) with h7 | h8
    · rw [hm, h7]
      rfl
    · rw [hm, h8]
      rfl
  have hlayout : (if src.version = 8 then (entry raw 7).toNat else LAYOUT_SEQ) = src.layout := by
    split
    · rename_i h8
      exact he7 h8
    · rename_i h8
      rcases hg.layout with hl | ⟨-, hv, -⟩
      · exact hl.symm
      · exact absurd hv h8
  have hsb : (if src.version = 8 then 24 else 23) = src.geo.sbFixed := rfl
  have h16 : 16 ≤ src.geo.sbFixed := by
    rw [Geo.sbFixed]
    split <;> decide
  simp only [parsePreamble, hversion, hlayout, hsb, he5, he6, bind_eq_ok, reject_eq_ok, readU32,
    readU64At, orElseError_eq_ok, pure, Except.pure, Except.ok.injEq]
  refine ⟨(), ?_, (), ?_, (), ?_, (), ?_, (), by simp, (), ?_, (), ?_, src.dim,
    readLe?_of_holds_of_lt hdim hdimle, (), ?_, (), ?_, nonce, ?_, MAX_OPS, ?_, (), by simp, rfl⟩
  · have h11 : ¬ raw.length < 11 := by
      simp only [Geo.sbLen] at hlen'
      omega
    rw [hm]
    split <;> simp [h11]
  · rw [he4]
    split <;> simp_all
  · rw [he4]
    split <;> simp_all
  · have := hg.bits_ge
    have := hg.bits_le
    simp only [Bool.or_eq_false_iff, decide_eq_false_iff_not, not_lt]
    exact ⟨hg.bits_ge, hg.bits_le⟩
  · rcases hg.layout with hl | ⟨hl, -⟩ <;>
      simp [show src.layout = _ from hl]
  · rcases hg.layout with hl | ⟨hl, -, h3, -⟩
    · simp [show src.layout = _ from hl, LAYOUT_SEQ, LAYOUT_PLANES]
    · simp [show src.bitWidth ≠ 3 from h3]
  · have h8 : src.dim % 8 = 0 := hg.dim_mod
    have hmax : ¬ MAX_DIM < src.dim := not_lt.mpr hg.dim_le
    simp [h8, hmax]
  · exact decide_eq_false (not_lt.mpr hmin)
  · refine readLe?_of_holds_of_lt ?_ hnonce
    rwa [show src.geo.sbFixed - 12 = src.geo.sbFixed - 16 + 4 by omega]
  · refine readLe?_of_holds_of_lt ?_ (by decide)
    rwa [show src.geo.sbFixed - 4 = src.geo.sbFixed - 16 + 4 + 8 by omega]

/-- A superblock parses back to what was written. -/
theorem parseSuperblock_of_holds (hok : SourceOk T src) (hnonce : nonce < 2 ^ 64)
    (h : Holds raw 0 (superblock src nonce)) (hlen : src.geo.hdrAt 2 ≤ raw.length) :
    parseSuperblock T raw src.kind = .ok ⟨src.geo, nonce, src.tqplusShift, src.tqplusScale⟩ := by
  have hg := hok.geo
  have hcal := hok.calibration
  have h16 : 16 ≤ src.geo.sbFixed := by
    rw [Geo.sbFixed]
    split <;> decide
  obtain ⟨hbody, hcrc⟩ := holds_append.mp h
  have hblen := @length_superblockBody src nonce hok.shaped
  have htake : raw.take (superblockBody src nonce).length = superblockBody src nonce := by
    have := slice?_eq_some.mp hbody
    rw [List.drop_zero] at this
    exact this.2
  simp only [superblockBody, holds_append, List.length_append, length_leBytes, length_f32Bytes,
    length_preambleBytes, Nat.zero_add] at hbody
  obtain ⟨⟨⟨⟨⟨-, hbnd⟩, hcen⟩, hn⟩, hshift⟩, hscale⟩ := hbody
  have hpos : src.geo.sbFixed - 16 + 4 + 8 + 4 = src.geo.sbFixed := by omega
  simp only [hpos] at hbnd hcen hn hshift hscale
  have hoff : src.geo.sbFixed + T.codebookLen src.bitWidth src.dim * 4 =
      src.geo.sbFixed + src.boundaries.length * 4 + src.centroids.length * 4 := by
    have hpow := Nat.one_le_two_pow (n := src.bitWidth)
    rw [Tables.codebookLen]
    split
    · rw [hok.boundaries_len, hok.centroids_len]
      omega
    · rename_i h0
      rw [← hok.codebook h0, List.length_append]
      omega
  have hncal : src.tqplusShift.length < 256 ^ 4 := by
    have hdim : src.dim ≤ MAX_DIM := hg.dim_le
    rcases (show src.tqplusShift.length = 0 ∨ src.tqplusShift.length = src.dim from hg.nCalib) with h0 | h0
    · rw [h0]
      decide
    · rw [h0]
      exact hdim.trans_lt (by decide)
  simp only [parseSuperblock, parsePreamble_of_holds hok hnonce h hlen, bind_eq_ok, Except.ok.injEq,
    exists_eq_left', parseCalibration, reject_eq_ok, readU32, orElseError_eq_ok, pure, Except.pure]
  have hsb : Preamble.sbFixed ⟨src.version, src.bitWidth, src.kind, src.layout, src.dim, nonce⟩ =
    src.geo.sbFixed := rfl
  have hend : src.geo.sbFixed + src.boundaries.length * 4 + src.centroids.length * 4 + 4 +
      src.tqplusShift.length * 4 + src.tqplusShift.length * 4 = (superblockBody src nonce).length := by
    have hlev : src.geo.nLevels = 2 ^ src.bitWidth := rfl
    have hnc : src.geo.nCalib = src.tqplusShift.length := rfl
    rw [hok.boundaries_len, hok.centroids_len]
    simp only [Geo.sbLen, hlev, hnc] at hblen
    omega
  simp only [hsb, hoff]
  refine ⟨(), ?_, src.tqplusShift.length, readLe?_of_holds_of_lt hn hncal, (), ?_, src.tqplusShift,
    readF32s_of_holds _ hshift, src.tqplusScale, ?_, (), hcal.valid,
    (crc32 (superblockBody src nonce)).toNat, ?_, (), ?_, (), ?_, rfl⟩
  · refine checkCodebook_of_holds _ hok.codebook_num ?_
    by_cases h0 : src.dim = 0
    · rw [Tables.canon, if_pos h0]
      exact holds_nil.mpr (hbnd.le_length.trans' (Nat.le_add_right _ _))
    · rw [← hok.codebook h0, f32Bytes, List.flatMap_append]
      refine holds_append.mpr ⟨hbnd, ?_⟩
      have := @length_f32Bytes src.boundaries
      rw [f32Bytes] at this
      rw [this]
      exact hcen
  · rcases (show src.tqplusShift.length = 0 ∨ src.tqplusShift.length = src.dim from hg.nCalib) with h0 | h0
    · simp [h0]
    · simp [h0]
  · have := readF32s_of_holds _ hscale
    rwa [hcal.scale_len] at this
  · rw [Nat.zero_add] at hcrc
    rw [hend]
    exact readLe?_u32Bytes hcrc
  · simp [hend, htake]
  · rcases hg.layout with hl | ⟨-, -, -, hl⟩
    · simp [show src.layout = LAYOUT_SEQ from hl, LAYOUT_SEQ, LAYOUT_PLANES]
    · by_cases h0 : src.dim = 0
      · simp [h0]
      · have : planesGeomOk src.bitWidth src.geo.rowBytes = true := hl h0
        simp only [Bool.and_eq_false_iff, Bool.not_eq_false']
        exact Or.inr this

end Superblock

/-! ## Rows -/

/-- The row of a slot, as the writer reads it. -/
def SyncSource.row (src : SyncSource) (r : ℕ) : Row :=
  ⟨src.rowCodes r, entry src.scales r, src.ids.elim 0 fun ids => entry ids r⟩

section Rows

variable {src : SyncSource}

/-- A record reads back as its row. -/
theorem recRow_recBytes (hids : src.IdsOk) {r : ℕ}
    (hrow : (src.rowCodes r).length = src.geo.rowBytes) :
    recRow src.geo (recBytes src r) = src.row r := by
  have hkind : src.geo.kind = src.kind := rfl
  have hscale : bytesAt (recBytes src r) src.geo.rowBytes 4 = (entry src.scales r).toLeBytes := by
    rw [recBytes, List.append_assoc, bytesAt, List.drop_left' hrow,
      List.take_left' (F32.length_toLeBytes _)]
  rw [recRow, SyncSource.row, Row.mk.injEq]
  refine ⟨?_, ?_, ?_⟩
  · rw [recBytes, List.append_assoc, List.take_left' hrow]
  · rw [scaleAt, hscale, F32.fromLeBytes_toLeBytes]
  · cases hi : src.ids with
    | none =>
      have : src.kind ≠ 1 := by simpa [SyncSource.IdsOk, hi] using hids
      rw [hkind, if_neg this]
      rfl
    | some ids =>
      have h1 : src.kind = 1 := by simpa [SyncSource.IdsOk, hi] using hids
      have hid : bytesAt (recBytes src r) (src.geo.rowBytes + 4) 8 = idBytesOf (entry ids r) := by
        rw [recBytes, hi, bytesAt, List.drop_left' (by
          rw [List.length_append, hrow, F32.length_toLeBytes])]
        exact List.take_of_length_le (length_leBytes _ _).le
      rw [hkind, if_pos h1, idAt, hid, idBytesOf,
        ofLe_leBytes_of_lt (show (entry ids r).toNat < 256 ^ 8 from (entry ids r).toNat_lt)]
      exact UInt64.ofNat_toNat

/-- Item `k` of equal pieces behind a prefix. -/
theorem bytesAt_pieces {pre rest : List UInt8} {m d k off : ℕ} {piece : ℕ → List UInt8}
    (hp : ∀ i < m, (piece i).length = d) (hpre : pre.length = off) (hk : k < m) :
    bytesAt (pre ++ ((List.range m).flatMap piece ++ rest)) (off + k * d) d = piece k := by
  have hlen := length_flatMap_range hp
  have hle : (k + 1) * d ≤ m * d := Nat.mul_le_mul_right d hk
  rw [Nat.add_mul, Nat.one_mul] at hle
  rw [bytesAt, ← List.drop_drop, List.drop_left' hpre, List.drop_append_of_le_length (by omega),
    List.take_append_of_le_length (by rw [List.length_drop]; omega)]
  exact rowAt_flatMap_range hp hk

theorem length_unitScales (b : ℕ) : (unitScales src b).length = BLOCK * 4 :=
  length_flatMap_range fun _ _ => F32.length_toLeBytes _

theorem length_unitIds (hids : src.IdsOk) (b : ℕ) :
    (unitIds src b).length = src.geo.idBytes BLOCK := by
  have hkind : src.geo.kind = src.kind := rfl
  rw [unitIds, Geo.idBytes, hkind]
  cases hi : src.ids with
  | none =>
    have : src.kind ≠ 1 := by simpa [SyncSource.IdsOk, hi] using hids
    rw [if_neg this]
    rfl
  | some ids =>
    have h1 : src.kind = 1 := by simpa [SyncSource.IdsOk, hi] using hids
    rw [if_pos h1]
    exact length_flatMap_range fun _ _ => length_leBytes _ _

theorem length_unitBytes (hids : src.IdsOk) {b : ℕ}
    (hcodes : (src.unitCodes (b * BLOCK) (b * BLOCK + BLOCK)).length = src.geo.blockBytes) :
    (unitBytes src b).length = src.geo.unitLen := by
  simp only [unitBytes, List.length_append, hcodes, length_unitScales, length_unitIds hids,
    Geo.blockBytes, Geo.unitLen]

/-- A unit's lanes read back their scales and ids. -/
theorem unitRow_unitBytes (hids : src.IdsOk) {b : ℕ}
    (hcodes : (src.unitCodes (b * BLOCK) (b * BLOCK + BLOCK)).length = src.geo.blockBytes) {lane : ℕ}
    (hl : lane < BLOCK) (hn : b * BLOCK + lane < src.nVectors) :
    unitRow src.geo (unitBytes src b) lane =
      ⟨unitCodeRow src.geo (unitBytes src b) lane, (src.row (b * BLOCK + lane)).scale,
        (src.row (b * BLOCK + lane)).id⟩ := by
  have hkind : src.geo.kind = src.kind := rfl
  rw [unitRow, Row.mk.injEq]
  refine ⟨rfl, ?_, ?_⟩
  · have hscale : bytesAt (unitBytes src b) (src.geo.blockBytes + lane * 4) 4 =
        F32.toLeBytes (padded src.scales src.nVectors (b * BLOCK + lane)) := by
      simp only [unitBytes, List.append_assoc]
      exact bytesAt_pieces (fun _ _ => F32.length_toLeBytes _) hcodes hl
    rw [scaleAt, hscale, F32.fromLeBytes_toLeBytes, padded, if_pos hn]
    rfl
  · cases hi : src.ids with
    | none =>
      have : src.kind ≠ 1 := by simpa [SyncSource.IdsOk, hi] using hids
      rw [hkind, if_neg this, SyncSource.row, hi]
      rfl
    | some ids =>
      have h1 : src.kind = 1 := by simpa [SyncSource.IdsOk, hi] using hids
      have hpre : (src.unitCodes (b * BLOCK) (b * BLOCK + BLOCK) ++ unitScales src b).length =
          src.geo.blockBytes + BLOCK * 4 := by
        rw [List.length_append, hcodes, length_unitScales]
      have hid : bytesAt (unitBytes src b) (src.geo.blockBytes + BLOCK * 4 + lane * 8) 8 =
          idBytesOf (padded ids src.nVectors (b * BLOCK + lane)) := by
        simp only [unitBytes, unitIds, hi]
        have := @bytesAt_pieces _ [] BLOCK 8 lane _ (fun lane =>
          idBytesOf (padded ids src.nVectors (b * BLOCK + lane))) (fun _ _ => length_leBytes _ _) hpre hl
        rwa [List.append_nil] at this
      rw [hkind, if_pos h1, idAt, hid, padded, if_pos hn, SyncSource.row, hi, idBytesOf,
        ofLe_leBytes_of_lt (show (entry ids (b * BLOCK + lane)).toNat < 256 ^ 8 from
          (entry ids (b * BLOCK + lane)).toNat_lt)]
      exact UInt64.ofNat_toNat

end Rows

/-! ## The delta -/

section DeltaCheck

variable {raw : List UInt8} {geo : Geo} {h : ParsedHdr}

theorem deltaDigest_eq (gen : ℕ) (units : List (ℕ × List UInt8)) :
    deltaDigest gen units = crc32 (digestPieces gen units).flatten := by
  refine DeltaDigest.finish_foldl_push _ ?_
  rw [digestPieces, List.flatten_cons, List.length_append, length_leBytes]
  have hfold : ∀ (us : List (ℕ × List UInt8)) (a : ℕ), us.foldl (fun n u => n + (4 + u.2.length)) a =
      a + (us.flatMap fun u => [leBytes 4 u.1, u.2]).flatten.length := by
    intro us
    induction us with
    | nil => intro a; rfl
    | cons u us ih =>
      intro a
      rw [List.foldl_cons, ih, List.flatMap_cons, List.flatten_append, List.length_append]
      simp only [List.flatten_cons, List.flatten_nil, List.append_nil, List.length_append,
        length_leBytes]
      omega
  exact (hfold units 8).symm

theorem foldlM_push (feedUnit : ℕ → Option (List UInt8)) (blocks : List ℕ) (d : DeltaDigest) :
    blocks.foldlM (fun d b => (feedUnit b).map (d.push (leBytes 4 b)).push) d =
      (blocks.mapM feedUnit).map fun units =>
        ((blocks.zip units).flatMap fun u => [leBytes 4 u.1, u.2]).foldl DeltaDigest.push d := by
  induction blocks generalizing d with
  | nil => rfl
  | cons b blocks ih =>
    rw [List.foldlM_cons, List.mapM_cons]
    cases hb : feedUnit b with
    | none => rfl
    | some u =>
      simp only [Option.map_some, Option.bind_eq_bind, Option.bind_some, ih]
      cases blocks.mapM feedUnit with
      | none => rfl
      | some units => rfl

theorem length_of_forall₂ {blocks : List ℕ} {units : List (List UInt8)}
    (hu : List.Forall₂ (fun b u => unitOf raw geo b = some u) blocks units) :
    ((blocks.zip units).flatMap fun u => [leBytes 4 u.1, u.2]).flatten.length =
      blocks.length * (4 + geo.unitLen) := by
  induction hu with
  | nil => simp
  | cons hbu _ ih =>
    rw [List.zip_cons_cons, List.flatMap_cons, List.flatten_append, List.length_append, ih,
      List.length_cons]
    simp only [List.flatten_cons, List.flatten_nil, List.append_nil, List.length_append,
      length_leBytes, length_of_slice? hbu]
    ring

/-- The delta check: all the units are there, with the recorded digest. -/
theorem deltaOk_iff : deltaOk raw geo h = true ↔
    ∃ units, h.deltaBlocks.mapM (unitOf raw geo) = some units ∧
      (deltaDigest h.gen (h.deltaBlocks.zip units)).toNat = h.deltaCrc := by
  rw [deltaOk, deltaVerified]
  simp only [foldlM_push]
  cases hm : h.deltaBlocks.mapM (unitOf raw geo) with
  | none => simp
  | some units =>
    have hlen := length_of_forall₂ (mapM_eq_some.mp hm)
    have hfin := @DeltaDigest.finish_foldl_push (8 + h.deltaBlocks.length * (4 + geo.unitLen))
      (digestPieces h.gen (h.deltaBlocks.zip units)) (by
        rw [digestPieces, List.flatten_cons, List.length_append, length_leBytes, hlen])
    rw [digestPieces, List.foldl_cons] at hfin
    simp only [Option.map_some, hfin, decide_eq_true_eq, Option.some.injEq, exists_eq_left',
      deltaDigest_eq]
    rfl

end DeltaCheck

/-! ## The image -/

section Image

variable {T : Tables} {src : SyncSource} {raw : List UInt8}

/-- A slot of zeros is no header of slot 1. -/
theorem parseHeaderSlot_zeros {geo : Geo} {fileLen : ℕ}
    (h : Holds raw (geo.hdrAt 1) (List.replicate geo.hdrLen 0)) :
    parseHeaderSlot raw geo 1 fileLen = none := by
  have hlen : 8 ≤ geo.hdrLen := by
    simp only [Geo.hdrLen]
    omega
  have hslice := h.slice? List.length_replicate
  have hgen : readLe? (List.replicate geo.hdrLen 0) 0 8 = some 0 := readLe?_replicate_zero hlen
  rw [parseHeaderSlot, hslice, Option.bind_eq_bind, Option.bind_some]
  refine Option.eq_none_iff_forall_ne_some.mpr fun hdr hparse => ?_
  obtain ⟨_, hf⟩ := parseHeaderAt_eq_some.mp hparse
  have hparity := hf.parity
  rw [← Option.some.inj (hgen.symm.trans hf.gen)] at hparity
  exact absurd hparity (by decide)

theorem chooseHeader_of_only {geo : Geo} {hdr : ParsedHdr}
    (h0 : parseHeaderSlot raw geo 0 raw.length = some hdr)
    (h1 : parseHeaderSlot raw geo 1 raw.length = none) (hd : deltaOk raw geo hdr = true) :
    chooseHeader raw geo = some hdr := by
  rw [chooseHeader, h0, h1]
  simp [candidates, hd]

/-- A header slot in an image parses back to what was written. -/
theorem parseHeaderSlot_of_holds {gen n slot fileLen : ℕ} {ops : List (ℕ × List ℕ)} {delta : Delta}
    (h : Holds raw (src.geo.hdrAt slot) (headerSlot src gen n ops delta))
    (hroom : src.geo.hdrAt slot + src.geo.hdrLen ≤ raw.length)
    (hused : (headerSlot src gen n ops delta).length ≤ src.geo.hdrLen)
    (hgen : gen < 2 ^ 64) (hslot : gen % 2 = slot) (hn : n < 2 ^ 64)
    (hfit : src.geo.unitAt (n / BLOCK) ≤ fileLen) (hops : OpsFit src n ops) (htail : TailFits src n)
    (hmat : delta.mat.length ≤ MAX_OPS) :
    ∃ hdr, parseHeaderSlot raw src.geo slot fileLen = some hdr ∧
      Says raw src gen n ops delta (src.geo.hdrAt slot) hdr := by
  have hslice := slice?_of_le hroom
  have hin : Holds ((raw.drop (src.geo.hdrAt slot)).take src.geo.hdrLen) 0
      (headerSlot src gen n ops delta) := by
    rw [Holds, slice?_eq_some] at h ⊢
    refine ⟨by rw [List.length_take, List.length_drop]; omega, ?_⟩
    rw [List.drop_zero, List.take_take, Nat.min_eq_left hused]
    exact h.2
  obtain ⟨hdr, hparse, hsaid⟩ := parseHeaderAt_of_holds (holds_of_slice? hslice) hin hgen hslot hn hfit
    hops htail hmat
  exact ⟨hdr, by rwa [parseHeaderSlot, hslice, Option.bind_eq_bind, Option.bind_some], hsaid⟩

/-- The slots a header's ops name. -/
def wireSlots (ops : List (ℕ × List ℕ)) : List ℕ :=
  ops.flatMap fun g => g.2.map fun s => g.1 % 2 ^ 32 * BLOCK + s % BLOCK

/-- An image whose chosen header says what was written. -/
theorem parseImage_of_header {sb : Superblock} {expectKind gen n at_ : ℕ} {ops : List (ℕ × List ℕ)}
    {delta : Delta} {hdr : ParsedHdr} (hsb : parseSuperblock T raw expectKind = .ok sb)
    (hgeo : sb.geo = src.geo) (hchoose : chooseHeader raw src.geo = some hdr)
    (hsaid : Says raw src gen n ops delta at_ hdr) (htail : TailFits src n)
    (h : Holds raw at_ (headerSlot src gen n ops delta)) (hdim : src.dim = 0 → n = 0) :
    parseImage T raw expectKind = .ok ⟨src.geo, sb.nonce, gen, n, tailBytes src n, sb.tqplusShift,
      sb.tqplusScale, wireGroups src ops, wireSlots ops⟩ := by
  have htl : Holds raw (at_ + 16) (tailBytes src n) := by
    have hbody := (holds_append.mp h).1
    simp only [headerBody, holds_append, List.length_append, length_leBytes] at hbody
    exact hbody.1.1.1.1.1.1.1.2
  have hslots : (hdr.groups.flatMap fun g => g.2.map Prod.fst) = wireSlots ops := by
    have hown := ownOps_eq_some hsaid.groups_eq
    have : (hdr.groups.flatMap fun g => g.2.map Prod.fst) =
        (wireGroups src ops).flatMap fun g => g.2.map Prod.fst := by
      simp only [List.flatMap_def]
      exact congrArg List.flatten (map_eq_of_forall₂ hown fun g o ho =>
        map_eq_of_forall₂ ho.2 fun _ _ hop => hop.1.symm)
    rw [this, wireGroups, wireSlots, List.flatMap_map]
    exact List.flatMap_congr fun g _ => by simp [wireOps]
  simp only [parseImage, bind_eq_ok, hsb, Except.ok.injEq, exists_eq_left', reject_eq_ok,
    orElseError_eq_ok, hgeo, hchoose, Option.some.injEq, hsaid.n_eq, hsaid.tailAt_eq, hsaid.groups_eq,
    hsaid.gen_eq, hslots, pure, Except.pure]
  refine ⟨(), ?_, tailBytes src n, htl.slice? (length_tailBytes htail), rfl⟩
  by_cases h0 : src.dim = 0
  · simp [hdim h0]
  · simp [show src.geo.dim ≠ 0 from h0]

end Image

/-! ## A full image -/

/-- A source the writer makes a whole image of. -/
structure SourceWf (T : Tables) (src : SyncSource) : Prop where
  ok : SourceOk T src
  ids : src.IdsOk
  rows : ∀ r < src.nVectors, (src.rowCodes r).length = src.geo.rowBytes
  units : ∀ b < src.nVectors / BLOCK,
    (src.unitCodes (b * BLOCK) (b * BLOCK + BLOCK)).length = src.geo.blockBytes
  n_lt : src.nVectors < 2 ^ 64
  dim_zero : src.dim = 0 → src.nVectors = 0

section WriteImage

variable {T : Tables} {src : SyncSource} {gen nonce : ℕ}

theorem SourceWf.length_rec (hw : SourceWf T src) {r : ℕ} (hr : r < src.nVectors) :
    (recBytes src r).length = src.geo.recLen :=
  length_recBytes hw.ids (hw.rows r hr)

theorem SourceWf.tailFits (hw : SourceWf T src) : TailFits src src.nVectors := by
  intro k hk
  have := Nat.mod_le src.nVectors BLOCK
  exact hw.length_rec (by omega)

theorem opsFit_nil (src : SyncSource) (n : ℕ) : OpsFit src n [] :=
  ⟨Nat.zero_le _, by simp, by simp, by simp⟩

theorem length_fullHeader_le (h : TailFits src src.nVectors) :
    (fullHeader src gen).length ≤ src.geo.hdrLen := by
  have hmod : src.nVectors % BLOCK ≤ 31 := Nat.le_of_lt_succ (Nat.mod_lt _ (by decide))
  have := Nat.mul_le_mul_right src.geo.recLen hmod
  rw [fullHeader, headerSlot, List.length_append, length_headerBody h, u32Bytes, length_leBytes]
  simp only [List.flatMap_nil, List.length_nil, Geo.hdrLen, Geo.recLen] at this ⊢
  omega

/-- Item `b` of equal pieces at an offset. -/
theorem Holds.piece {raw : List UInt8} {off m d b : ℕ} {piece : ℕ → List UInt8}
    (hp : ∀ i < m, (piece i).length = d) (h : Holds raw off ((List.range m).flatMap piece))
    (hb : b < m) : Holds raw (off + b * d) (piece b) := by
  have hsplit : (List.range m).flatMap piece = (List.range b).flatMap piece ++
      (piece b ++ (List.range (m - (b + 1))).flatMap fun i => piece (b + 1 + i)) := by
    conv_lhs => rw [show m = b + 1 + (m - (b + 1)) by omega, List.range_add, List.flatMap_append,
      List.flatMap_map, List.range_succ, List.flatMap_append, List.flatMap_singleton,
      List.append_assoc]
  rw [hsplit] at h
  have := (holds_append.mp (holds_append.mp h).2).1
  rwa [length_flatMap_range fun i hi => hp i (by omega)] at this

/-- Where the pieces of an image are. -/
theorem holds_layoutImage {geo : Geo} {sb h : List UInt8} {nBlocks : ℕ} {unit : ℕ → List UInt8}
    (hsb : sb.length = geo.sbLen) (hh : h.length ≤ geo.hdrLen)
    (hu : ∀ b < nBlocks, (unit b).length = geo.unitLen) :
    let raw := layoutImage geo sb h nBlocks unit
    raw.length = geo.unitAt nBlocks ∧ Holds raw 0 sb ∧ Holds raw (geo.hdrAt 0) h ∧
      Holds raw (geo.hdrAt 1) (List.replicate geo.hdrLen 0) ∧
      ∀ b < nBlocks, Holds raw (geo.unitAt b) (unit b) := by
  intro raw
  have hus := length_flatMap_range hu
  have h0 : geo.hdrAt 0 = geo.sbLen := by simp [Geo.hdrAt]
  have h1 := geo.hdrAt_one
  have h2 := geo.hdrAt_two
  have hself : Holds raw 0 (sb ++ h ++ List.replicate (geo.hdrLen - h.length) 0 ++
      List.replicate geo.hdrLen 0 ++ (List.range nBlocks).flatMap unit) := holds_self
  simp only [holds_append, List.length_append, hsb, List.length_replicate, Nat.zero_add] at hself
  obtain ⟨⟨⟨⟨hs, hhd⟩, -⟩, hz⟩, hunits⟩ := hself
  have hz1 : geo.sbLen + h.length + (geo.hdrLen - h.length) = geo.hdrAt 1 := by omega
  have hz2 : geo.hdrAt 1 + geo.hdrLen = geo.unitAt 0 := by rw [geo.unitAt_zero, h2]
  rw [hz1] at hz hunits
  rw [hz2] at hunits
  refine ⟨?_, hs, h0 ▸ hhd, hz, fun b hb => ?_⟩
  · simp only [raw, layoutImage, List.length_append, hsb, List.length_replicate, hus, Geo.unitAt]
    omega
  · have := Holds.piece hu hunits hb
    rwa [geo.unitAt_zero] at this

/-- Where the pieces of a full image are. -/
structure FullImage (src : SyncSource) (gen nonce : ℕ) (raw : List UInt8) : Prop where
  length_eq : raw.length = src.geo.fullLen src.nVectors
  superblock : Holds raw 0 (superblock src nonce)
  header : Holds raw (src.geo.hdrAt 0) (fullHeader src gen)
  zeros : Holds raw (src.geo.hdrAt 1) (List.replicate src.geo.hdrLen 0)
  units : ∀ b < src.nVectors / BLOCK, Holds raw (src.geo.unitAt b) (unitBytes src b)

theorem fullImage_writeImage (hw : SourceWf T src) (gen nonce : ℕ) :
    FullImage src gen nonce (writeImage src gen nonce) := by
  obtain ⟨hlen, hsb, hh, hz, hu⟩ := holds_layoutImage (@length_superblock src nonce hw.ok.shaped)
    (@length_fullHeader_le src gen hw.tailFits) fun b hb => length_unitBytes hw.ids (hw.units b hb)
  exact ⟨hlen, hsb, hh, hz, hu⟩

variable {raw : List UInt8}

theorem Geo.hdrAt_two_le_fullLen (geo : Geo) (n : ℕ) : geo.hdrAt 2 ≤ geo.fullLen n := by
  rw [← geo.unitAt_zero]
  exact geo.unitAt_mono (Nat.zero_le _)

/-- An empty delta verifies. -/
theorem deltaOk_empty {hdr : ParsedHdr} {geo : Geo} {at_ n : ℕ} {ops : List (ℕ × List ℕ)}
    (h : Says raw src gen n ops ⟨[], (0, 0), deltaDigest gen []⟩ at_ hdr) :
    deltaOk raw geo hdr = true := by
  have hblocks : hdr.deltaBlocks = [] := by
    rw [ParsedHdr.deltaBlocks, h.deltaMat_eq, h.deltaApp_eq]
    rfl
  rw [deltaOk_iff, hblocks, h.gen_eq, h.deltaCrc_eq]
  exact ⟨[], rfl, rfl⟩

/-- The parse of a full image. -/
def parsedFull (src : SyncSource) (gen nonce : ℕ) : ParsedImage :=
  ⟨src.geo, nonce, gen, src.nVectors, tailBytes src src.nVectors, src.tqplusShift, src.tqplusScale,
    [], []⟩

theorem FullImage.parse (hw : SourceWf T src) (h : FullImage src gen nonce raw)
    (hgen : gen < 2 ^ 64) (heven : gen % 2 = 0) (hnonce : nonce < 2 ^ 64) :
    parseImage T raw src.kind = .ok (parsedFull src gen nonce) := by
  have hlen : src.geo.hdrAt 2 ≤ raw.length := h.length_eq ▸ src.geo.hdrAt_two_le_fullLen _
  have h1 := src.geo.hdrAt_one
  have h2 := src.geo.hdrAt_two
  obtain ⟨hdr, hparse, hsaid⟩ := parseHeaderSlot_of_holds h.header (by omega)
    (length_fullHeader_le hw.tailFits) hgen heven hw.n_lt h.length_eq.ge (opsFit_nil src _) hw.tailFits
    (Nat.zero_le _)
  exact parseImage_of_header (parseSuperblock_of_holds hw.ok hnonce h.superblock hlen) rfl
    (chooseHeader_of_only hparse (parseHeaderSlot_zeros h.zeros) (deltaOk_empty hsaid)) hsaid
    hw.tailFits h.header hw.dim_zero

/-- The row a full image gives a slot: of a whole block from its unit, else from the tail. -/
def fullRow (src : SyncSource) (v : ℕ) : Row :=
  if v < src.nVectors / BLOCK * BLOCK then
    ⟨unitCodeRow src.geo (unitBytes src (v / BLOCK)) (v % BLOCK), (src.row v).scale, (src.row v).id⟩
  else src.row v

theorem FullImage.unit (hw : SourceWf T src) (h : FullImage src gen nonce raw) {b : ℕ}
    (hb : b < src.nVectors / BLOCK) :
    bytesAt raw (src.geo.unitAt b) src.geo.unitLen = unitBytes src b := by
  have := (slice?_eq_some.mp (h.units b hb)).2
  rwa [length_unitBytes hw.ids (hw.units b hb)] at this

theorem FullImage.unitRows_eq (hw : SourceWf T src) (h : FullImage src gen nonce raw) {v : ℕ}
    (hv : v < src.nVectors / BLOCK * BLOCK) :
    unitRows src.geo raw (src.nVectors / BLOCK) v = fullRow src v := by
  have hb : v / BLOCK < src.nVectors / BLOCK := Nat.div_lt_of_lt_mul (by rwa [Nat.mul_comm])
  have hl : v % BLOCK < BLOCK := Nat.mod_lt _ (by decide)
  have hv' : v / BLOCK * BLOCK + v % BLOCK = v := Nat.div_add_mod' _ _
  have hn := Nat.div_mul_le_self src.nVectors BLOCK
  rw [unitRows_of_lt _ _ hv, h.unit hw hb, unitRow_unitBytes hw.ids (hw.units _ hb) hl (by omega), hv',
    fullRow, if_pos hv]

theorem rowAt_tailBytes (hw : SourceWf T src) {k : ℕ} (hk : k < src.nVectors % BLOCK) :
    rowAt (tailBytes src src.nVectors) src.geo.recLen k =
      recBytes src (src.nVectors / BLOCK * BLOCK + k) := by
  rw [tailBytes, rowAt_flatMap_range hw.tailFits hk, Nat.sub_eq_of_eq_add
    (Nat.div_add_mod' src.nVectors BLOCK).symm]

theorem FullImage.rows (hw : SourceWf T src) (h : FullImage src gen nonce raw) {v : ℕ}
    (hv : v < src.nVectors) : (parsedFull src gen nonce).rows raw v = fullRow src v := by
  have hops : (parsedFull src gen nonce).flatOps = [] := rfl
  rw [ParsedImage.rows, hops, List.nil_append, writeRows_apply, lastRec_tailRows]
  by_cases hb : v < src.nVectors / BLOCK * BLOCK
  · rw [if_neg (fun hle => absurd hle.1 (not_le.mpr hb))]
    exact h.unitRows_eq hw hb
  · have hk : v - src.nVectors / BLOCK * BLOCK < src.nVectors % BLOCK := by
      have := Nat.div_add_mod' src.nVectors BLOCK
      omega
    have hrec := rowAt_tailBytes hw hk
    rw [Nat.add_sub_cancel' (not_lt.mp hb)] at hrec
    rw [if_pos ⟨not_lt.mp hb, hv⟩, fullRow, if_neg hb]
    exact (congrArg (recRow src.geo) hrec).trans (recRow_recBytes hw.ids (hw.rows v hv))

/-- A full image loads when its scales are ones the loader takes. -/
theorem FullImage.scalesOk (hw : SourceWf T src) (h : FullImage src gen nonce raw)
    (hs : ∀ v < src.nVectors, validScale (entry src.scales v) = true) :
    ScalesOk (parsedFull src gen nonce) raw := by
  have hn := Nat.div_add_mod' src.nVectors BLOCK
  refine ⟨fun v hv => ?_, fun r hr => ?_⟩
  · have hv : v < src.nVectors / BLOCK * BLOCK := hv
    have hrow := h.unitRows_eq hw hv
    rw [fullRow, if_pos hv] at hrow
    exact (congrArg (fun r => validScale (Row.scale r)) hrow).trans (hs v (by omega))
  · obtain ⟨k, hk, rfl⟩ := List.mem_map.mp hr
    have hk : k < src.nVectors % BLOCK := List.mem_range.mp hk
    have hrec := (congrArg (recRow src.geo) (rowAt_tailBytes hw hk)).trans
      (recRow_recBytes hw.ids (hw.rows _ (by omega)))
    exact (congrArg (fun r => validScale (Row.scale r)) hrec).trans (hs _ (by omega))

/-- A written image loads with the rows that were written. -/
theorem loadImage_writeImage (hw : SourceWf T src) (hgen : gen < 2 ^ 64) (heven : gen % 2 = 0)
    (hnonce : nonce < 2 ^ 64) (hs : ∀ v < src.nVectors, validScale (entry src.scales v) = true)
    (expectCalibGen : ℕ) :
    ∃ l, loadImage T (writeImage src gen nonce) expectCalibGen src.kind = .ok l ∧
      Loaded (parsedFull src gen nonce) ((parsedFull src gen nonce).rows (writeImage src gen nonce))
        expectCalibGen l := by
  have h := fullImage_writeImage hw gen nonce
  obtain ⟨l, hl, hrun⟩ := loadImage_spec (h.parse hw hgen heven hnonce)
  exact ⟨l, (hrun l).mpr ⟨h.scalesOk hw hs, rfl⟩, hl⟩

end WriteImage

/-! ## A blank source -/

/-- Tables whose codebooks are zeros. -/
def blankTables : Tables :=
  ⟨fun _ _ => (List.replicate 3 0, List.replicate 4 0), ⟨fun _ => 0, fun _ => 0⟩⟩

/-- `n` rows of zero codes, at 8 dimensions and 2 bits. -/
def blankSource (n : ℕ) : SyncSource where
  kind := 0
  dim := 8
  bitWidth := 2
  nVectors := n
  version := 8
  layout := LAYOUT_SEQ
  unitCodes _ _ := List.replicate 64 0
  rowCodes _ := [0, 0]
  scales := List.replicate n 0
  ids := none
  tqplusShift := []
  tqplusScale := []
  boundaries := List.replicate 3 0
  centroids := List.replicate 4 0

theorem blankSource_ok (n : ℕ) : SourceOk blankTables (blankSource n) where
  geo := ⟨(by decide : 2 ≤ 2), (by decide : 2 ≤ 4), (rfl : 8 % 8 = 0), (by decide : 8 ≤ MAX_DIM), Or.inl rfl,
    Or.inr rfl, Or.inl rfl⟩
  kind_le := (by decide : 0 ≤ 1)
  boundaries_len := rfl
  centroids_len := rfl
  codebook _ := rfl
  codebook_num := (by decide : ∀ v ∈ blankTables.canon 2 8, v.isNaN = false)
  calibration := ⟨rfl, rfl, rfl⟩

theorem blankSource_ids (n : ℕ) : (blankSource n).IdsOk := by
  simp [SyncSource.IdsOk, blankSource]

theorem blankSource_rowBytes (n : ℕ) : (blankSource n).geo.rowBytes = 2 :=
  (rfl : (blockedGeometry 1 2 8).2.1 = 2)

theorem blankSource_wf {n : ℕ} (hn : n < 2 ^ 64) : SourceWf blankTables (blankSource n) where
  ok := blankSource_ok n
  ids := blankSource_ids n
  rows _ _ := (blankSource_rowBytes n).symm
  units _ _ := by
    rw [Geo.blockBytes, blankSource_rowBytes]
    exact List.length_replicate
  n_lt := hn
  dim_zero h := absurd h (by decide : (8 : ℕ) ≠ 0)

end Turbovec.IoV7
