import Turbovec.IoV7.RoundTrip

/-!
# Loading from a path

A path load reads no more of a file than the image it declares: the superblock and the larger row
count of the two header slots size the read, before anything is checked. The loader then runs on the
bytes read.
-/

namespace Turbovec.IoV7

open LittleEndian Slice Grid Pack

/-! ## The declared length -/

/-- Version and unit layout, from the first bytes of a file. -/
def sniffVersion (sb : List UInt8) : Option (ℕ × ℕ) :=
  if sb.take 4 = V7_MAGIC ∧ (entry sb 4).toNat = V7_VERSION then some (7, LAYOUT_SEQ)
  else if sb.take 4 = V8_MAGIC ∧ (entry sb 4).toNat = V8_VERSION then some (8, (entry sb 7).toNat)
  else none

/-- The geometry a file declares. -/
def declaredGeo (raw : List UInt8) : Option Geo := do
  let sb ← slice? raw 0 64
  let (version, layout) ← sniffVersion sb
  let bitWidth := (entry sb 5).toNat
  let kind := (entry sb 6).toNat
  guard (2 ≤ bitWidth ∧ bitWidth ≤ 4 ∧ kind ≤ 1 ∧ layout ≤ LAYOUT_PLANES)
  let sbFixed := if version = 8 then 24 else 23
  let dim ← readLe? sb (sbFixed - 16) 4
  guard (dim = 0 ∨ dim % 8 = 0 ∧ dim ≤ MAX_DIM)
  let nCalib ← readLe? raw (sbFixed + (2 * 2 ^ bitWidth - 1) * 4) 4
  guard (nCalib = 0 ∨ nCalib = dim)
  return ⟨kind, dim, bitWidth, nCalib, version, layout⟩

/-- The row count a header slot states. -/
def slotRows (raw : List UInt8) (geo : Geo) (slot : ℕ) : Option ℕ := do
  let buf ← slice? raw (geo.hdrAt slot) 16
  readLe? buf 8 8

/-- Bytes a complete image of the file's geometry and row count occupies. -/
def declaredLen (raw : List UInt8) : Option ℕ := do
  let geo ← declaredGeo raw
  let n0 ← slotRows raw geo 0
  let n1 ← slotRows raw geo 1
  let units := geo.unitLen * (max n0 n1 / BLOCK)
  guard (units < 2 ^ 64)
  let len := geo.unitAt 0 + units
  guard (len < 2 ^ 64)
  return len

/-- How much of a file a path load reads. -/
def wantLen (raw : List UInt8) : ℕ := min ((declaredLen raw).getD raw.length) raw.length

/-- `load`: the loader on the bytes the file declares. -/
def loadPath (T : Tables) (raw : List UInt8) (expectCalibGen expectKind : ℕ) : Except String V7Load :=
  loadImage T (raw.take (wantLen raw)) expectCalibGen expectKind

/-! ## Reads of a prefix -/

section Prefix

variable {bytes : List UInt8} {at_ b opSize nBlocks k p q m : ℕ}

theorem getElem?_of_take {i : ℕ} {x : UInt8} (h : (bytes.take m)[i]? = some x) : bytes[i]? = some x := by
  rw [List.getElem?_take] at h
  split at h
  · exact h
  · cases h

theorem slice?_of_take {off len : ℕ} {xs : List UInt8} (h : slice? (bytes.take m) off len = some xs) :
    slice? bytes off len = some xs := by
  have hle := (slice?_eq_some.mp h).1
  rw [List.length_take] at hle
  rwa [slice?_take (by omega)] at h

theorem readLe?_of_take {off : ℕ} {n : ℕ} (h : readLe? (bytes.take m) off k = some n) :
    readLe? bytes off k = some n := by
  obtain ⟨bs, hbs, rfl⟩ := Option.map_eq_some_iff.mp h
  rw [readLe?, slice?_of_take hbs, Option.map_some]

theorem parseOps_of_take {ops : List (ℕ × ℕ)}
    (h : parseOps (bytes.take m) at_ b opSize k p = some (ops, q)) :
    parseOps bytes at_ b opSize k p = some (ops, q) := by
  induction k generalizing p ops with
  | zero => exact h
  | succ k ih =>
    obtain ⟨lane, rest, hlane, hlt, hrest, rfl⟩ := parseOps_succ_eq_some.mp h
    exact parseOps_succ_eq_some.mpr ⟨lane, rest, getElem?_of_take hlane, hlt, ih hrest, rfl⟩

theorem parseGroups_of_take {groups : List OpGroup}
    (h : parseGroups (bytes.take m) at_ opSize nBlocks k p = some (groups, q)) :
    parseGroups bytes at_ opSize nBlocks k p = some (groups, q) := by
  induction k generalizing p groups with
  | zero => exact h
  | succ k ih =>
    obtain ⟨b, nOps, ops, r, rest, hb, hlt, hn, hops, hrest, rfl⟩ := parseGroups_succ_eq_some.mp h
    exact parseGroups_succ_eq_some.mpr ⟨b, nOps, ops, r, rest, readLe?_of_take hb, hlt,
      getElem?_of_take hn, parseOps_of_take hops, ih hrest, rfl⟩

theorem parseMat_of_take {mat : List ℕ} (h : parseMat (bytes.take m) k p = some mat) :
    parseMat bytes k p = some mat := by
  induction k generalizing p mat with
  | zero => exact h
  | succ k ih =>
    obtain ⟨b, rest, hb, hrest, rfl⟩ := parseMat_succ_eq_some.mp h
    exact parseMat_succ_eq_some.mpr ⟨b, rest, readLe?_of_take hb, ih hrest, rfl⟩

/-- A header that parses from a prefix of its slot is the one the whole slot holds. -/
theorem parseHeaderAt_of_take {geo : Geo} {slot fileLen : ℕ} {h : ParsedHdr}
    (hp : parseHeaderAt (bytes.take m) at_ geo slot fileLen = some h) :
    parseHeaderAt bytes at_ geo slot fileLen = some h := by
  obtain ⟨pMat, hf⟩ := parseHeaderAt_eq_some.mp hp
  have hend := readLe?_le_length hf.stored
  rw [List.length_take] at hend
  have hcrc : (bytes.take m).take (pMat + 4 + h.deltaMat.length * 4 + 12) =
      bytes.take (pMat + 4 + h.deltaMat.length * 4 + 12) := by
    rw [List.take_take, Nat.min_eq_left (by omega)]
  have hstored := readLe?_of_take hf.stored
  rw [hcrc] at hstored
  exact parseHeaderAt_eq_some.mpr ⟨pMat, readLe?_of_take hf.gen, hf.parity, readLe?_of_take hf.n, hf.fits,
    hf.tailAt, readLe?_of_take hf.nUnits, hf.nUnits_le, parseGroups_of_take hf.groups,
    readLe?_of_take hf.nMat, hf.nMat_le, parseMat_of_take hf.mat, readLe?_of_take hf.app_from,
    readLe?_of_take hf.app_to, readLe?_of_take hf.deltaCrc, hstored, hf.used⟩

/-- The file's length bounds a header's rows and nothing else. -/
theorem parseHeaderAt_fileLen {geo : Geo} {slot fileLen fileLen' : ℕ} {h : ParsedHdr}
    (hp : parseHeaderAt bytes at_ geo slot fileLen = some h)
    (hfit : geo.unitAt (h.n / BLOCK) ≤ fileLen') : parseHeaderAt bytes at_ geo slot fileLen' = some h := by
  obtain ⟨pMat, hf⟩ := parseHeaderAt_eq_some.mp hp
  exact parseHeaderAt_eq_some.mpr ⟨pMat, { hf with fits := hfit }⟩

end Prefix

/-! ## A superblock read from a prefix -/

section Superblock

variable {T : Tables} {raw : List UInt8} {geo : Geo} {len expectKind : ℕ}

/-- What `declaredGeo` reads. -/
structure Sniffed (raw : List UInt8) (geo : Geo) : Prop where
  len : 64 ≤ raw.length
  version : raw.take 4 = V7_MAGIC ∧ geo.version = 7 ∧ geo.layout = LAYOUT_SEQ ∨
    raw.take 4 = V8_MAGIC ∧ geo.version = 8 ∧ geo.layout = (entry raw 7).toNat
  bits : geo.bitWidth = (entry raw 5).toNat
  bits_le : geo.bitWidth ≤ 4
  kind : geo.kind = (entry raw 6).toNat
  dim : readLe? raw (geo.sbFixed - 16) 4 = some geo.dim
  dim_ok : geo.dim = 0 ∨ geo.dim % 8 = 0 ∧ geo.dim ≤ MAX_DIM
  nCalib : readLe? raw (geo.sbFixed + (2 * 2 ^ geo.bitWidth - 1) * 4) 4 = some geo.nCalib
  nCalib_ok : geo.nCalib = 0 ∨ geo.nCalib = geo.dim

theorem sniffVersion_eq_some {sb : List UInt8} {version layout : ℕ}
    (h : sniffVersion sb = some (version, layout)) :
    sb.take 4 = V7_MAGIC ∧ version = 7 ∧ layout = LAYOUT_SEQ ∨
      sb.take 4 = V8_MAGIC ∧ version = 8 ∧ layout = (entry sb 7).toNat := by
  rw [sniffVersion] at h
  split at h
  · rename_i h7
    rw [Option.some.injEq, Prod.mk.injEq] at h
    exact Or.inl ⟨h7.1, h.1.symm, h.2.symm⟩
  · split at h
    · rename_i h8
      rw [Option.some.injEq, Prod.mk.injEq] at h
      exact Or.inr ⟨h8.1, h.1.symm, h.2.symm⟩
    · cases h

theorem sniffed (h : declaredGeo raw = some geo) : Sniffed raw geo := by
  simp only [declaredGeo, Option.bind_eq_bind, Option.bind_eq_some_iff, Option.guard_eq_some',
    Option.pure_def, Option.some.injEq, Prod.exists] at h
  obtain ⟨sb, hsb, version, layout, hversion, _, ⟨-, hbits, -, -⟩, dim, hdim, _, hdim_ok, nCalib,
    hcalib, _, hcalib_ok, rfl⟩ := h
  obtain ⟨hlen, rfl⟩ := slice?_eq_some.mp hsb
  rw [List.drop_zero] at hversion hdim hbits hcalib
  have he (i : ℕ) (hi : i < 64) : entry (raw.take 64) i = entry raw i := entry_take hi
  have hread : readLe? raw ((if version = 8 then 24 else 23) - 16) 4 = some dim := by
    rw [readLe?_take] at hdim
    · exact hdim
    · split <;> omega
  have htake : (raw.take 64).take 4 = raw.take 4 := by
    rw [List.take_take]
    rfl
  have hver := sniffVersion_eq_some hversion
  rw [htake, he 7 (by omega)] at hver
  rw [he 5 (by omega)] at hbits hcalib
  simp only [List.drop_zero, he 5 (by omega : 5 < 64), he 6 (by omega : 6 < 64)]
  exact ⟨by omega, hver, rfl, hbits, rfl, hread, hdim_ok, hcalib, hcalib_ok⟩

theorem bind_congr_ok {α β : Type} {x : Except String α} {f g : α → Except String β}
    (h : ∀ a, x = .ok a → f a = g a) : (x >>= f) = (x >>= g) := by
  cases x with
  | ok a => exact h a rfl
  | error e => rfl

theorem readU32_take {at_ : ℕ} (h : at_ + 4 ≤ len) : readU32 (raw.take len) at_ = readU32 raw at_ := by
  rw [readU32, readU32, readLe?_take h]

theorem readU64At_take {at_ : ℕ} (h : at_ + 8 ≤ len) :
    readU64At (raw.take len) at_ = readU64At raw at_ := by
  rw [readU64At, readU64At, readLe?_take h]

theorem readF32_take {at_ : ℕ} (h : at_ + 4 ≤ len) : readF32 (raw.take len) at_ = readF32 raw at_ := by
  rw [readF32, readF32, slice?_take h]

theorem readF32s_take {at_ k : ℕ} (h : at_ + k * 4 ≤ len) :
    readF32s (raw.take len) at_ k = readF32s raw at_ k := by
  induction k generalizing at_ with
  | zero => rfl
  | succ k ih =>
    rw [readF32s, readF32s, readF32_take (by omega), ih (by omega)]

theorem checkCodebook_take {at_ : ℕ} {want : List F32} (h : at_ + want.length * 4 ≤ len) :
    checkCodebook (raw.take len) at_ want = checkCodebook raw at_ want := by
  induction want generalizing at_ with
  | nil => rfl
  | cons w want ih =>
    rw [List.length_cons] at h
    rw [checkCodebook, checkCodebook, readF32_take (by omega), ih (by omega)]

/-- The codebook of a bit width has a boundary between each two of its levels. -/
def Tables.Leveled (T : Tables) : Prop :=
  ∀ bitWidth dim, (T.codebook bitWidth dim).1.length = 2 ^ bitWidth - 1 ∧
    (T.codebook bitWidth dim).2.length = 2 ^ bitWidth

theorem Tables.Leveled.codebookLen_eq (hT : T.Leveled) (bitWidth dim : ℕ) :
    T.codebookLen bitWidth dim = 2 * 2 ^ bitWidth - 1 := by
  have hpos : 0 < 2 ^ bitWidth := Nat.pow_pos (by decide)
  obtain ⟨h1, h2⟩ := hT bitWidth dim
  rw [Tables.codebookLen, Tables.canon]
  split
  · rfl
  · rw [List.length_append, h1, h2]
    omega

theorem Tables.length_canon_le (T : Tables) (bitWidth dim : ℕ) :
    (T.canon bitWidth dim).length ≤ T.codebookLen bitWidth dim := by
  rw [Tables.codebookLen, Tables.canon]
  split
  · exact Nat.zero_le _
  · exact Nat.le_refl _

theorem Geo.sbLen_eq (geo : Geo) : geo.sbLen =
    geo.sbFixed + (2 * 2 ^ geo.bitWidth - 1) * 4 + 4 + geo.nCalib * 4 + geo.nCalib * 4 + 4 := by
  have hpos : 0 < 2 ^ geo.bitWidth := Nat.pow_pos (by decide)
  simp only [Geo.sbLen, Geo.nLevels]
  omega

theorem sbLen_le_unitAt (geo : Geo) : geo.sbLen ≤ geo.unitAt 0 := by
  rw [geo.unitAt_zero, Geo.hdrAt]
  exact Nat.le_add_right _ _

theorem Geo.hdrAt_succ (geo : Geo) (slot : ℕ) : geo.hdrAt (slot + 1) = geo.hdrAt slot + geo.hdrLen := by
  rw [Geo.hdrAt, Geo.hdrAt, Nat.add_mul, Nat.one_mul, Nat.add_assoc]

theorem Geo.hdrAt_le_unitAt (geo : Geo) {slot : ℕ} (h : slot ≤ 2) : geo.hdrAt slot ≤ geo.unitAt 0 := by
  rw [geo.unitAt_zero, Geo.hdrAt, Geo.hdrAt]
  exact Nat.add_le_add_left (Nat.mul_le_mul_right _ h) _

/-- Before anything else is read, a file of the declared length is long enough. -/
theorem Sniffed.minHeader_le (h : Sniffed raw geo) :
    MAX_OPS * (geo.dim * geo.bitWidth / 8) ≤ geo.unitAt 0 := by
  have hbits := h.bits_le
  have hdim : geo.dim % 8 = 0 := by
    rcases h.dim_ok with h | h
    · rw [h]
    · exact h.1
  have hrow : geo.dim * geo.bitWidth / 8 ≤ geo.rowBytes := by
    have hcases : geo.bitWidth = 0 ∨ geo.bitWidth = 1 ∨ geo.bitWidth = 2 ∨ geo.bitWidth = 3 ∨
        geo.bitWidth = 4 := by omega
    rw [geo.rowBytes_eq]
    rcases hcases with h | h | h | h | h <;> rw [h] <;> simp only [codesPerByte] <;> omega
  have hmul := Nat.mul_le_mul_left MAX_OPS hrow
  rw [geo.unitAt_zero]
  simp only [Geo.hdrAt, Geo.hdrLen, Geo.opSize, MAX_OPS] at hmul ⊢
  omega

/-- The fields a preamble is parsed with are the declared ones. -/
theorem Sniffed.preamble (h : Sniffed raw geo) {pre : Preamble}
    (hp : parsePreamble raw expectKind = .ok pre) : pre.version = geo.version ∧
      pre.bitWidth = geo.bitWidth ∧ pre.kind = geo.kind ∧ pre.layout = geo.layout ∧ pre.dim = geo.dim := by
  have hne : V7_MAGIC ≠ V8_MAGIC := by decide
  simp only [parsePreamble, bind_eq_ok, reject_eq_ok, readU32, readU64At, orElseError_eq_ok, pure,
    Except.pure, Except.ok.injEq] at hp
  obtain ⟨_, -, _, -, _, -, _, -, _, -, _, -, _, -, dim, hdim, _, -, _, -, nonce, -, ops, -, _, -, rfl⟩ := hp
  have hd := h.dim
  rcases h.version with ⟨hm, hv, hl⟩ | ⟨hm, hv, hl⟩
  · simp only [hm, hne, if_false] at hdim ⊢
    rw [Geo.sbFixed, hv] at hd
    exact ⟨hv.symm, h.bits.symm, h.kind.symm, by rw [hl]; rfl, Option.some.inj (hdim.symm.trans hd)⟩
  · simp only [hm, if_true] at hdim ⊢
    rw [Geo.sbFixed, hv] at hd
    exact ⟨hv.symm, h.bits.symm, h.kind.symm, hl.symm, Option.some.inj (hdim.symm.trans hd)⟩

theorem Sniffed.parsePreamble_take (h : Sniffed raw geo) (hlen : geo.unitAt 0 ≤ len)
    (hle : len ≤ raw.length) : parsePreamble (raw.take len) expectKind = parsePreamble raw expectKind := by
  have hmin := h.minHeader_le
  have h64 : 64 ≤ len := by
    refine le_trans ?_ hlen
    rw [geo.unitAt_zero]
    simp only [Geo.hdrAt, Geo.hdrLen, MAX_OPS]
    omega
  have hl : (raw.take len).length = len := by
    rw [List.length_take]
    omega
  have h4 : (raw.take len).take 4 = raw.take 4 := by
    rw [List.take_take, Nat.min_eq_left (by omega)]
  have he (i : ℕ) (hi : i < 64) : entry (raw.take len) i = entry raw i := entry_take (by omega)
  have hd := h.dim
  have hsb : geo.sbFixed = if (if raw.take 4 = V8_MAGIC then 8 else 7) = 8 then 24 else 23 := by
    have hne : V7_MAGIC ≠ V8_MAGIC := by decide
    rw [Geo.sbFixed]
    rcases h.version with ⟨hm, hv, -⟩ | ⟨hm, hv, -⟩
    · simp only [hm, hne, hv, if_false]
    · simp only [hm, hv, if_true]
  have hfixed : 23 ≤ geo.sbFixed ∧ geo.sbFixed ≤ 24 := by
    rw [hsb]
    split <;> decide
  rw [parsePreamble, parsePreamble, hl, h4, decide_eq_false (show ¬ len < 11 by omega),
    decide_eq_false (show ¬ raw.length < 11 by omega), he 4 (by omega), he 5 (by omega), he 6 (by omega),
    he 7 (by omega)]
  dsimp only
  rw [← hsb]
  refine bind_congr_ok fun _ _ => bind_congr_ok fun _ _ => bind_congr_ok fun _ _ =>
    bind_congr_ok fun _ _ => bind_congr_ok fun _ _ => bind_congr_ok fun _ _ => bind_congr_ok fun _ _ => ?_
  rw [readU32_take (by omega)]
  refine bind_congr_ok fun dim hdim => bind_congr_ok fun _ _ => ?_
  obtain rfl := Option.some.inj ((orElseError_eq_ok.mp hdim).symm.trans hd)
  rw [← h.bits, decide_eq_false (show ¬ len < _ by omega), decide_eq_false (show ¬ raw.length < _ by omega),
    readU64At_take (by omega), readU32_take (by omega)]
  rfl

/-- A superblock parses the same from the bytes of the declared image. -/
theorem Sniffed.parseSuperblock_take (hT : T.Leveled) (h : Sniffed raw geo) (hlen : geo.unitAt 0 ≤ len)
    (hle : len ≤ raw.length) :
    parseSuperblock T (raw.take len) expectKind = parseSuperblock T raw expectKind := by
  rw [parseSuperblock, parseSuperblock, h.parsePreamble_take hlen hle]
  refine bind_congr_ok fun pre hpre => ?_
  obtain ⟨hv, hb, hk, hl, hd⟩ := h.preamble hpre
  have hfixed : pre.sbFixed = geo.sbFixed := by rw [Preamble.sbFixed, Geo.sbFixed, hv]
  have hsb := (sbLen_le_unitAt geo).trans hlen
  have hcanon := T.length_canon_le geo.bitWidth geo.dim
  rw [geo.sbLen_eq] at hsb
  rw [hT.codebookLen_eq] at hcanon
  rw [parseCalibration, parseCalibration, hfixed, hb, hd, hT.codebookLen_eq, checkCodebook_take (by omega)]
  refine bind_congr_ok fun _ _ => ?_
  rw [readU32_take (by omega)]
  refine bind_congr_ok fun nCalib hn => ?_
  obtain rfl := Option.some.inj ((orElseError_eq_ok.mp hn).symm.trans h.nCalib)
  refine bind_congr_ok fun _ _ => ?_
  rw [readF32s_take (by omega), readF32s_take (by omega)]
  refine bind_congr_ok fun _ _ => bind_congr_ok fun _ _ => bind_congr_ok fun _ _ => ?_
  dsimp only
  rw [readU32_take (by omega), List.take_take, Nat.min_eq_left (by omega)]

/-- The geometry the loader accepts is the declared one. -/
theorem Sniffed.geo_eq (hT : T.Leveled) (h : Sniffed raw geo) {sb : Superblock}
    (hs : parseSuperblock T raw expectKind = .ok sb) : sb.geo = geo := by
  rw [parseSuperblock, bind_eq_ok] at hs
  obtain ⟨pre, hpre, hs⟩ := hs
  obtain ⟨hv, hb, hk, hl, hd⟩ := h.preamble hpre
  have hfixed : pre.sbFixed = geo.sbFixed := by rw [Preamble.sbFixed, Geo.sbFixed, hv]
  simp only [parseCalibration, bind_eq_ok, reject_eq_ok, readU32, orElseError_eq_ok, pure,
    Except.pure, Except.ok.injEq] at hs
  obtain ⟨_, -, nCalib, hn, _, -, shift, -, scale, -, _, -, stored, -, _, -, _, -, rfl⟩ := hs
  rw [hfixed, hb, hd, hT.codebookLen_eq] at hn
  obtain rfl := Option.some.inj (hn.symm.trans h.nCalib)
  rw [hv, hb, hk, hl, hd]

/-- The fixed fields the loader takes, as the probe reads them. -/
theorem sniffVersion_of_parse {pre : Preamble} (hp : parsePreamble raw expectKind = .ok pre) :
    sniffVersion (raw.take 64) = some (pre.version, pre.layout) ∧ pre.bitWidth = (entry raw 5).toNat ∧
      pre.kind = (entry raw 6).toNat ∧
      readLe? raw ((if pre.version = 8 then 24 else 23) - 16) 4 = some pre.dim ∧
      (pre.dim = 0 ∨ pre.dim % 8 = 0 ∧ pre.dim ≤ MAX_DIM) := by
  simp only [parsePreamble, bind_eq_ok, reject_eq_ok, readU32, readU64At, orElseError_eq_ok, pure,
    Except.pure, Except.ok.injEq] at hp
  obtain ⟨_, hmagic, _, h7, _, h8, _, -, _, -, _, -, _, -, dim, hdim, _, hdimok, _, -, nonce, -, ops, -,
    _, -, rfl⟩ := hp
  have hne : V7_MAGIC ≠ V8_MAGIC := by decide
  have he (i : ℕ) (hi : i < 64) : entry (raw.take 64) i = entry raw i := entry_take hi
  have htake : (raw.take 64).take 4 = raw.take 4 := by
    rw [List.take_take]
    rfl
  have hsb : (if (if raw.take 4 = V8_MAGIC then 8 else 7) = 8 then 24 else 23) - 16 =
      if raw.take 4 = V8_MAGIC then 8 else 7 := by
    split <;> rfl
  refine ⟨?_, rfl, rfl, hdim, ?_⟩
  · simp only [Bool.or_eq_false_iff, Bool.and_eq_false_iff, bne_eq_false_iff_eq] at hmagic
    rw [sniffVersion, htake, he 4 (by omega), he 7 (by omega)]
    by_cases hm : raw.take 4 = V8_MAGIC
    · have hrev : (entry raw 4).toNat = V8_VERSION := by simpa [hm] using h8
      rw [if_neg fun h => hne (h.1.symm.trans hm), if_pos ⟨hm, hrev⟩, if_pos hm, if_pos rfl]
    · have hm7 : raw.take 4 = V7_MAGIC := hmagic.2.resolve_right hm
      have hrev : (entry raw 4).toNat = V7_VERSION := by simpa [hm] using h7
      rw [if_pos ⟨hm7, hrev⟩, if_neg hm, if_neg (by decide)]
  · by_cases h0 : dim = 0
    · exact Or.inl h0
    · exact Or.inr (by simpa [h0] using hdimok)

/-- The superblock the loader takes declares the geometry it is loaded at. -/
theorem declaredGeo_of_parse (hT : T.Leveled) {sb : Superblock} (h64 : 64 ≤ raw.length)
    (hkind : expectKind ≤ 1) (hs : parseSuperblock T raw expectKind = .ok sb) :
    declaredGeo raw = some sb.geo := by
  obtain ⟨hg, hk, -⟩ := parseSuperblock_ok hs
  rw [parseSuperblock, bind_eq_ok] at hs
  obtain ⟨pre, hpre, hs⟩ := hs
  obtain ⟨hsniff, hbits, hpk, hdim, hdimok⟩ := sniffVersion_of_parse hpre
  simp only [parseCalibration, bind_eq_ok, reject_eq_ok, readU32, orElseError_eq_ok, pure, Except.pure,
    Except.ok.injEq, hT.codebookLen_eq, Preamble.sbFixed] at hs
  obtain ⟨_, -, nCalib, hn, _, hnok, shift, -, scale, -, _, -, stored, -, _, -, _, -, rfl⟩ := hs
  have he (i : ℕ) (hi : i < 64) : entry (raw.take 64) i = entry raw i := entry_take hi
  have hlay : pre.layout ≤ LAYOUT_PLANES := by
    rcases hg.layout with hl | ⟨hl, -⟩
    · exact (show pre.layout = LAYOUT_SEQ from hl).trans_le (by decide)
    · exact (show pre.layout = LAYOUT_PLANES from hl).le
  have hkle : pre.kind ≤ 1 := (show pre.kind = expectKind from hk).trans_le hkind
  have hb2 : 2 ≤ pre.bitWidth := hg.bits_ge
  have hb4 : pre.bitWidth ≤ 4 := hg.bits_le
  have hcal : nCalib = 0 ∨ nCalib = pre.dim := hg.nCalib
  have hdim64 : readLe? (raw.take 64) ((if pre.version = 8 then 24 else 23) - 16) 4 = some pre.dim := by
    rw [readLe?_take]
    · exact hdim
    · split <;> omega
  simp only [declaredGeo, Option.bind_eq_bind, Option.bind_eq_some_iff, Option.guard_eq_some',
    Option.pure_def, Option.some.injEq, Prod.exists]
  refine ⟨raw.take 64, slice?_of_le (by omega), pre.version, pre.layout, hsniff, (), ?_, pre.dim, hdim64,
    (), hdimok, nCalib, ?_, (), hcal, ?_⟩
  · rw [he 5 (by omega), he 6 (by omega), ← hbits, ← hpk]
    exact ⟨hb2, hb4, hkle, hlay⟩
  · rw [he 5 (by omega), ← hbits]
    exact hn
  · rw [he 5 (by omega), he 6 (by omega), ← hbits, ← hpk]

end Superblock

/-! ## Headers read from a prefix -/

section Headers

variable {raw : List UInt8} {geo : Geo} {len : ℕ}

theorem declaredLen_eq_some (h : declaredLen raw = some len) : ∃ geo n0 n1, declaredGeo raw = some geo ∧
    slotRows raw geo 0 = some n0 ∧ slotRows raw geo 1 = some n1 ∧
      len = geo.unitAt (max n0 n1 / BLOCK) := by
  simp only [declaredLen, Option.bind_eq_bind, Option.bind_eq_some_iff, Option.guard_eq_some',
    Option.pure_def, Option.some.injEq] at h
  obtain ⟨geo, hgeo, n0, h0, n1, h1, _, -, _, -, rfl⟩ := h
  refine ⟨geo, n0, n1, hgeo, h0, h1, ?_⟩
  rw [geo.unitAt_zero, Geo.unitAt, Nat.mul_comm geo.unitLen]

/-- The row count a slot states is its header's. -/
theorem slotRows_of_parse {slot fileLen : ℕ} {h : ParsedHdr}
    (hp : parseHeaderSlot raw geo slot fileLen = some h) : slotRows raw geo slot = some h.n := by
  have h16 : 16 ≤ geo.hdrLen := by
    simp only [Geo.hdrLen]
    omega
  rw [parseHeaderSlot, Option.bind_eq_bind, Option.bind_eq_some_iff] at hp
  obtain ⟨bytes, hbytes, hp⟩ := hp
  obtain ⟨pMat, hf⟩ := parseHeaderAt_eq_some.mp hp
  have hlen := length_of_slice? hbytes
  have hslice := @Holds.slice?_add _ raw bytes (geo.hdrAt slot) (holds_of_slice? hbytes) 0 16 (by omega)
  rw [Nat.add_zero, @slice?_of_le _ bytes 0 16 (by omega), List.drop_zero] at hslice
  rw [slotRows, hslice, Option.bind_eq_bind, Option.bind_some, readLe?_take (by omega)]
  exact hf.n

theorem slotRows_eq {slot fileLen n : ℕ} {h : ParsedHdr} (hn : slotRows raw geo slot = some n)
    (hp : parseHeaderSlot raw geo slot fileLen = some h) : h.n = n :=
  Option.some.inj ((slotRows_of_parse hp).symm.trans hn)

theorem parseHeaderSlot_take {slot n : ℕ} (hs : slot < 2) (hn : slotRows raw geo slot = some n)
    (hlen : geo.unitAt (n / BLOCK) ≤ len) (hle : len ≤ raw.length) :
    parseHeaderSlot (raw.take len) geo slot len = parseHeaderSlot raw geo slot raw.length := by
  have hroom : geo.hdrAt slot + geo.hdrLen ≤ len := by
    rw [← geo.hdrAt_succ]
    exact (geo.hdrAt_le_unitAt (by omega)).trans ((geo.unitAt_mono (Nat.zero_le _)).trans hlen)
  have hslice := @slice?_take _ raw len (geo.hdrAt slot) geo.hdrLen hroom
  refine Option.ext fun h => ?_
  constructor
  · intro hp
    rw [parseHeaderSlot, hslice, Option.bind_eq_bind, Option.bind_eq_some_iff] at hp
    obtain ⟨bytes, hbytes, hp⟩ := hp
    obtain ⟨pMat, hf⟩ := parseHeaderAt_eq_some.mp hp
    rw [parseHeaderSlot, hbytes, Option.bind_eq_bind, Option.bind_some]
    exact parseHeaderAt_fileLen hp (hf.fits.trans hle)
  · intro hp
    have hrows := slotRows_eq hn hp
    rw [parseHeaderSlot, Option.bind_eq_bind, Option.bind_eq_some_iff] at hp
    obtain ⟨bytes, hbytes, hp⟩ := hp
    rw [parseHeaderSlot, hslice, hbytes, Option.bind_eq_bind, Option.bind_some]
    exact parseHeaderAt_fileLen hp (hrows ▸ hlen)

theorem mapM_unitOf_take (hle : len ≤ raw.length) {blocks : List ℕ} {units : List (List UInt8)} :
    blocks.mapM (unitOf (raw.take len) geo) = some units ↔
      blocks.mapM (unitOf raw geo) = some units ∧ ∀ b ∈ blocks, geo.unitAt b + geo.unitLen ≤ len := by
  have hone (b : ℕ) (u : List UInt8) : unitOf (raw.take len) geo b = some u ↔
      unitOf raw geo b = some u ∧ geo.unitAt b + geo.unitLen ≤ len := by
    constructor
    · intro h
      have hend := (slice?_eq_some.mp h).1
      rw [List.length_take] at hend
      exact ⟨slice?_of_take h, by omega⟩
    · rintro ⟨h, hend⟩
      rwa [unitOf, slice?_take hend]
  rw [mapM_eq_some, mapM_eq_some]
  induction blocks generalizing units with
  | nil => simp
  | cons b blocks ih =>
    cases units with
    | nil => simp
    | cons u units =>
      have hrest : List.Forall₂ (fun b u => unitOf (raw.take len) geo b = some u) blocks units ↔ _ := ih
      rw [List.forall₂_cons, List.forall₂_cons, hone, hrest, List.forall_mem_cons]
      tauto

/-- A delta verifies in a prefix exactly when it verifies and its units end there. -/
theorem deltaOk_take (hle : len ≤ raw.length) {h : ParsedHdr} :
    deltaOk (raw.take len) geo h = true ↔
      deltaOk raw geo h = true ∧ ∀ b ∈ h.deltaBlocks, geo.unitAt b + geo.unitLen ≤ len := by
  rw [deltaOk_iff, deltaOk_iff]
  simp only [mapM_unitOf_take hle]
  constructor
  · rintro ⟨units, ⟨hu, hin⟩, hd⟩
    exact ⟨⟨units, hu, hd⟩, hin⟩
  · rintro ⟨⟨units, hu, hd⟩, hin⟩
    exact ⟨units, ⟨hu, hin⟩, hd⟩

/-- The units the newest verified commit's sync wrote all end inside the first `len` bytes. -/
def DeltaInside (raw : List UInt8) (geo : Geo) (len : ℕ) : Prop :=
  ∀ h, chooseHeader raw geo = some h → ∀ b ∈ h.deltaBlocks, geo.unitAt b + geo.unitLen ≤ len

theorem find?_eq_iff {α : Type} {p q : α → Bool} {l : List α} (hpq : ∀ a, p a = true → q a = true) :
    l.find? p = l.find? q ↔ ∀ a, l.find? q = some a → p a = true := by
  constructor
  · intro h a ha
    exact List.find?_some (h.trans ha)
  · intro h
    induction l with
    | nil => rfl
    | cons x l ih =>
      rw [List.find?_cons, List.find?_cons] at *
      cases hq : q x with
      | true =>
        rw [hq] at h
        rw [h x rfl]
      | false =>
        rw [hq] at h
        have hp : p x = false := by
          cases hp : p x with
          | true => exact absurd (hpq x hp) (by simp [hq])
          | false => rfl
        rw [hp]
        exact ih h

/-- The headers of the declared image are the file's; their deltas are read from its bytes alone. -/
theorem chooseHeader_take {n0 n1 : ℕ} (h0 : slotRows raw geo 0 = some n0)
    (h1 : slotRows raw geo 1 = some n1) (hlen : geo.unitAt (max n0 n1 / BLOCK) ≤ len)
    (hle : len ≤ raw.length) : chooseHeader (raw.take len) geo =
      (candidates (parseHeaderSlot raw geo 0 raw.length) (parseHeaderSlot raw geo 1 raw.length)).find?
        (deltaOk (raw.take len) geo) := by
  have hl : (raw.take len).length = len := by
    rw [List.length_take]
    omega
  have hfit {n : ℕ} (hn : n ≤ max n0 n1) : geo.unitAt (n / BLOCK) ≤ len :=
    (geo.unitAt_mono (Nat.div_le_div_right hn)).trans hlen
  rw [chooseHeader, hl, parseHeaderSlot_take (by decide) h0 (hfit (Nat.le_max_left _ _)) hle,
    parseHeaderSlot_take (by decide) h1 (hfit (Nat.le_max_right _ _)) hle]

/-- The bytes of the declared image give the same commit exactly when its delta lies inside. -/
theorem chooseHeader_take_iff {n0 n1 : ℕ} (h0 : slotRows raw geo 0 = some n0)
    (h1 : slotRows raw geo 1 = some n1) (hlen : geo.unitAt (max n0 n1 / BLOCK) ≤ len)
    (hle : len ≤ raw.length) :
    chooseHeader (raw.take len) geo = chooseHeader raw geo ↔ DeltaInside raw geo len := by
  rw [chooseHeader_take h0 h1 hlen hle, chooseHeader,
    find?_eq_iff fun h hd => ((deltaOk_take hle).mp hd).1, DeltaInside]
  refine forall_congr' fun h => forall_congr' fun hc => ?_
  rw [deltaOk_take hle]
  exact ⟨fun hd => hd.2, fun hd => ⟨List.find?_some hc, hd⟩⟩

end Headers

/-! ## The load -/

section Load

variable {T : Tables} {raw : List UInt8} {geo : Geo} {len expectKind : ℕ}

theorem ownOps_take {recLen : ℕ} {groups : List OpGroup}
    (h : ∀ g ∈ groups, ∀ op ∈ g.2, op.2 + recLen ≤ len) :
    ownOps (raw.take len) recLen groups = ownOps raw recLen groups := by
  have hcongr {α β : Type} {f g : α → Option β} {l : List α} (h : ∀ a ∈ l, f a = g a) :
      l.mapM f = l.mapM g := by
    induction l with
    | nil => rfl
    | cons a l ih =>
      rw [List.mapM_cons, List.mapM_cons, h a List.mem_cons_self,
        ih fun a ha => h a (List.mem_cons_of_mem _ ha)]
  refine hcongr fun g hg => ?_
  rw [hcongr fun op hop => by rw [slice?_take (h g hg op hop)]]

/-- A commit whose delta lies inside the declared image parses the same from its bytes. -/
theorem parseImage_take (hT : T.Leveled) (hgeo : Sniffed raw geo) {n0 n1 : ℕ}
    (h0 : slotRows raw geo 0 = some n0) (h1 : slotRows raw geo 1 = some n1)
    (hlen : geo.unitAt (max n0 n1 / BLOCK) ≤ len) (hle : len ≤ raw.length)
    (hin : DeltaInside raw geo len) :
    parseImage T (raw.take len) expectKind = parseImage T raw expectKind := by
  have hz := (geo.unitAt_mono (Nat.zero_le (max n0 n1 / BLOCK))).trans hlen
  rw [parseImage, parseImage, hgeo.parseSuperblock_take hT hz hle]
  refine bind_congr_ok fun sb hsb => ?_
  obtain rfl := hgeo.geo_eq hT hsb
  rw [(chooseHeader_take_iff h0 h1 hlen hle).mpr hin]
  refine bind_congr_ok fun h hh => bind_congr_ok fun _ _ => ?_
  obtain ⟨-, slot, hs, hp⟩ := chooseHeader_ok (orElseError_eq_ok.mp hh)
  obtain ⟨htail, hops⟩ := parseHeaderSlot_inside hp
  have hroom : sb.geo.hdrAt (slot + 1) ≤ len := (sb.geo.hdrAt_le_unitAt (by omega)).trans hz
  rw [slice?_take (htail.trans hroom), ownOps_take fun g hg op hop => (hops g hg op hop).trans hroom]

/-- What a load returns is determined by the image and its rows. -/
theorem Loaded.unique {img : ParsedImage} {rows : ℕ → Row} {g : ℕ} {l l' : V7Load}
    (h : Loaded img rows g l) (h' : Loaded img rows g l') : l = l' := by
  have hregions : l.seqBlocked = l'.seqBlocked ∧ l.sign = l'.sign ∧ l.low = l'.low := by
    by_cases hl : img.geo.layout = LAYOUT_PLANES
    · obtain ⟨⟨hs, hlow⟩, hseq⟩ := h.planes hl
      obtain ⟨⟨hs', hlow'⟩, hseq'⟩ := h'.planes hl
      exact ⟨hseq.trans hseq'.symm, hs.unique hs', hlow.trans hlow'.symm⟩
    · obtain ⟨hseq, hs, hlow⟩ := h.seq hl
      obtain ⟨hseq', hs', hlow'⟩ := h'.seq hl
      exact ⟨hseq.unique hseq', hs.trans hs'.symm, hlow.trans hlow'.symm⟩
  obtain ⟨hseq, hsign, hlow⟩ := hregions
  cases l
  cases l'
  simp only [V7Load.mk.injEq]
  exact ⟨h.dim.trans h'.dim.symm, h.bitWidth.trans h'.bitWidth.symm, h.nVectors.trans h'.nVectors.symm,
    h.layout.trans h'.layout.symm, hseq, hsign, hlow, h.scales.trans h'.scales.symm,
    h.ids.trans h'.ids.symm, h.tqplusShift.trans h'.tqplusShift.symm,
    h.tqplusScale.trans h'.tqplusScale.symm, h.cursor.trans h'.cursor.symm,
    h.pendingSlots.trans h'.pendingSlots.symm⟩

theorem bytesAt_take {off k : ℕ} (h : off + k ≤ len) : bytesAt (raw.take len) off k = bytesAt raw off k := by
  rw [bytesAt, bytesAt, List.drop_take, List.take_take, Nat.min_eq_left (by omega)]

theorem unitRows_take {blocks : ℕ} (h : geo.unitAt blocks ≤ len) :
    unitRows geo (raw.take len) blocks = unitRows geo raw blocks := by
  funext v
  rw [unitRows, unitRows]
  split
  · rename_i hv
    have hend := geo.unitAt_add_le (Nat.div_lt_of_lt_mul (Nat.mul_comm blocks BLOCK ▸ hv))
    rw [bytesAt_take (hend.trans h)]
  · rfl

/-- A commit whose delta lies inside the declared image loads the same from its bytes. -/
theorem loadImage_take (hT : T.Leveled) (hgeo : Sniffed raw geo) {n0 n1 : ℕ}
    (h0 : slotRows raw geo 0 = some n0) (h1 : slotRows raw geo 1 = some n1)
    (hlen : geo.unitAt (max n0 n1 / BLOCK) ≤ len) (hle : len ≤ raw.length)
    (hin : DeltaInside raw geo len) (g : ℕ) (l : V7Load) :
    loadImage T (raw.take len) g expectKind = .ok l ↔ loadImage T raw g expectKind = .ok l := by
  have hparse : parseImage T (raw.take len) expectKind = parseImage T raw expectKind :=
    parseImage_take hT hgeo h0 h1 hlen hle hin
  cases himg : parseImage T raw expectKind with
  | error e =>
    rw [loadImage, loadImage, hparse, himg]
    exact Iff.rfl
  | ok img =>
    rw [himg] at hparse
    have hfit : img.geo.unitAt (img.nVectors / BLOCK) ≤ len := by
      refine (parseImage_ok hparse).2.2.trans ?_
      rw [List.length_take]
      exact Nat.min_le_left _ _
    have hunits := @unitRows_take raw img.geo len _ hfit
    obtain ⟨l1, hl1, hrun1⟩ := @loadImage_spec T (raw.take len) img g expectKind hparse
    obtain ⟨l2, hl2, hrun2⟩ := @loadImage_spec T raw img g expectKind himg
    have hrows : img.rows (raw.take len) = img.rows raw := by
      rw [ParsedImage.rows, ParsedImage.rows, hunits]
    have hscales : ScalesOk img (raw.take len) ↔ ScalesOk img raw :=
      ⟨fun h => ⟨hunits ▸ h.units, h.recs⟩, fun h => ⟨hunits ▸ h.units, h.recs⟩⟩
    rw [hrows] at hl1
    rw [hrun1, hrun2, hscales, hl1.unique hl2]

end Load

/-! ## The path load -/

section Path

variable {T : Tables} {raw : List UInt8}

/-- The newest commit that verifies names only units that end inside the bytes the file declares. -/
def DeltaDeclared (raw : List UInt8) : Prop :=
  ∀ geo, declaredGeo raw = some geo → DeltaInside raw geo (wantLen raw)

theorem Geo.unitAt_eq (geo : Geo) (b : ℕ) : geo.unitAt b = geo.unitAt 0 + geo.unitLen * b := by
  rw [Geo.unitAt, Geo.unitAt, Nat.zero_mul, Nat.add_zero, Nat.mul_comm]

theorem guard_pos {c : Prop} [Decidable c] (h : c) : (guard c : Option Unit) = some () :=
  if_pos h

/-- The declared length of a file whose slots both parse. -/
theorem declaredLen_of_parse {geo : Geo} {h0 h1 : ParsedHdr} {fileLen : ℕ}
    (hgeo : declaredGeo raw = some geo) (hp0 : parseHeaderSlot raw geo 0 fileLen = some h0)
    (hp1 : parseHeaderSlot raw geo 1 fileLen = some h1)
    (hlt : geo.unitAt (max h0.n h1.n / BLOCK) < 2 ^ 64) :
    declaredLen raw = some (geo.unitAt (max h0.n h1.n / BLOCK)) := by
  have hat := geo.unitAt_eq (max h0.n h1.n / BLOCK)
  rw [hat] at hlt
  have hunits : geo.unitLen * (max h0.n h1.n / BLOCK) < 2 ^ 64 := (Nat.le_add_left _ _).trans_lt hlt
  rw [declaredLen, hgeo, Option.bind_eq_bind, Option.bind_some, slotRows_of_parse hp0,
    Option.bind_eq_bind, Option.bind_some, slotRows_of_parse hp1, Option.bind_eq_bind, Option.bind_some]
  dsimp only
  rw [guard_pos hunits, Option.bind_some, guard_pos hlt, Option.bind_some, hat, Option.pure_def]

/-- What the bytes a path load reads are. -/
theorem wantLen_cases (raw : List UInt8) : wantLen raw = raw.length ∨ ∃ geo n0 n1, Sniffed raw geo ∧
    declaredGeo raw = some geo ∧ slotRows raw geo 0 = some n0 ∧ slotRows raw geo 1 = some n1 ∧
      geo.unitAt (max n0 n1 / BLOCK) ≤ wantLen raw ∧ wantLen raw ≤ raw.length := by
  cases hd : declaredLen raw with
  | none =>
    refine Or.inl ?_
    rw [wantLen, hd, Option.getD_none, Nat.min_self]
  | some len =>
    obtain ⟨geo, n0, n1, hgeo, h0, h1, rfl⟩ := declaredLen_eq_some hd
    rw [wantLen, hd, Option.getD_some]
    by_cases h : raw.length ≤ geo.unitAt (max n0 n1 / BLOCK)
    · exact Or.inl (Nat.min_eq_right h)
    · refine Or.inr ⟨geo, n0, n1, sniffed hgeo, hgeo, h0, h1, ?_, Nat.min_le_right _ _⟩
      rw [Nat.min_eq_left (Nat.le_of_not_le h)]

theorem loadPath_eq_ok (hT : T.Leveled) (h : DeltaDeclared raw) (g expectKind : ℕ) (l : V7Load) :
    loadPath T raw g expectKind = .ok l ↔ loadImage T raw g expectKind = .ok l := by
  rcases wantLen_cases raw with hw | ⟨geo, n0, n1, hsniff, hgeo, h0, h1, hlen, hle⟩
  · rw [loadPath, hw, List.take_length]
  · exact loadImage_take hT hsniff h0 h1 hlen hle (h geo hgeo) g l

/-- The path load selects the commit a load of all the bytes selects exactly when that commit's delta
is declared. -/
theorem chooseHeader_wantLen_iff : (∀ geo, declaredGeo raw = some geo →
    chooseHeader (raw.take (wantLen raw)) geo = chooseHeader raw geo) ↔ DeltaDeclared raw := by
  rcases wantLen_cases raw with hw | ⟨geo, n0, n1, hsniff, hgeo, h0, h1, hlen, hle⟩
  · rw [hw, List.take_length]
    refine ⟨fun _ geo _ h hc b hb => ?_, fun _ _ _ => rfl⟩
    rw [hw]
    have hok := (deltaOk_take (Nat.le_refl raw.length)).mp (show deltaOk (raw.take raw.length) geo h = true by
      rw [List.take_length]
      exact (chooseHeader_ok hc).1)
    exact hok.2 b hb
  · constructor
    · intro h geo' hgeo'
      obtain rfl := Option.some.inj (hgeo.symm.trans hgeo')
      exact (chooseHeader_take_iff h0 h1 hlen hle).mp (h geo hgeo)
    · intro h geo' hgeo'
      obtain rfl := Option.some.inj (hgeo.symm.trans hgeo')
      exact (chooseHeader_take_iff h0 h1 hlen hle).mpr (h geo hgeo)

/-- A full image names no unit in its delta. -/
theorem deltaDeclared_of_full {src : SyncSource} {gen nonce : ℕ} (hT : T.Leveled) (hw : SourceWf T src)
    (h : FullImage src gen nonce raw) (hgen : gen < 2 ^ 64) (heven : gen % 2 = 0) (hnonce : nonce < 2 ^ 64) :
    DeltaDeclared raw := by
  intro geo hgeo hdr hc b hb
  have hlen : src.geo.hdrAt 2 ≤ raw.length := h.length_eq ▸ src.geo.hdrAt_two_le_fullLen _
  have h1 := src.geo.hdrAt_one
  have h2 := src.geo.hdrAt_two
  obtain ⟨hdr', hparse, hsaid⟩ := parseHeaderSlot_of_holds h.header (by omega) (length_fullHeader_le hw.tailFits)
    hgen heven hw.n_lt h.length_eq.ge (opsFit_nil src _) hw.tailFits (Nat.zero_le _)
  have hsb := parseSuperblock_of_holds hw.ok hnonce h.superblock hlen
  obtain rfl := (sniffed hgeo).geo_eq hT hsb
  have hchoose := chooseHeader_of_only hparse (parseHeaderSlot_zeros h.zeros) (deltaOk_empty hsaid)
  obtain rfl := Option.some.inj (hchoose.symm.trans hc)
  rw [ParsedHdr.deltaBlocks, hsaid.deltaMat_eq, hsaid.deltaApp_eq] at hb
  exact absurd hb List.not_mem_nil

end Path

/-! ## A delta past the declared image -/

section Trailing

/-- Codebooks of zeros, with the levels of each bit width. -/
def levelTables : Tables :=
  ⟨fun bitWidth _ => (List.replicate (2 ^ bitWidth - 1) 0, List.replicate (2 ^ bitWidth) 0),
    ⟨fun _ => 0, fun _ => 0⟩⟩

theorem levelTables_leveled : levelTables.Leveled := fun _ _ => ⟨List.length_replicate, List.length_replicate⟩

theorem blankSource_levelTables (n : ℕ) : SourceOk levelTables (blankSource n) where
  geo := (blankSource_ok n).geo
  kind_le := (by decide : 0 ≤ 1)
  boundaries_len := rfl
  centroids_len := rfl
  codebook _ := rfl
  codebook_num := (by decide : ∀ v ∈ levelTables.canon 2 8, v.isNaN = false)
  calibration := ⟨rfl, rfl, rfl⟩

theorem blankSource_levelWf {n : ℕ} (hn : n < 2 ^ 64) : SourceWf levelTables (blankSource n) :=
  { blankSource_wf hn with ok := blankSource_levelTables n }

/-- Two header slots at their reserve, then `rest`. -/
def twoSlotImage (geo : Geo) (sb h0 h1 rest : List UInt8) : List UInt8 :=
  sb ++ (h0 ++ List.replicate (geo.hdrLen - h0.length) 0) ++
    (h1 ++ List.replicate (geo.hdrLen - h1.length) 0) ++ rest

theorem holds_twoSlotImage {geo : Geo} {sb h0 h1 rest : List UInt8} (hsb : sb.length = geo.sbLen)
    (h0le : h0.length ≤ geo.hdrLen) (h1le : h1.length ≤ geo.hdrLen) :
    let raw := twoSlotImage geo sb h0 h1 rest
    raw.length = geo.unitAt 0 + rest.length ∧ Holds raw 0 sb ∧ Holds raw (geo.hdrAt 0) h0 ∧
      Holds raw (geo.hdrAt 1) h1 ∧ Holds raw (geo.unitAt 0) rest := by
  intro raw
  have e0 : geo.hdrAt 0 = geo.sbLen := by simp [Geo.hdrAt]
  have e1 := geo.hdrAt_one
  have e2 := geo.hdrAt_two
  have hself : Holds raw 0 (sb ++ (h0 ++ List.replicate (geo.hdrLen - h0.length) 0) ++
      (h1 ++ List.replicate (geo.hdrLen - h1.length) 0) ++ rest) := holds_self
  simp only [holds_append, List.length_append, hsb, List.length_replicate, Nat.zero_add] at hself
  obtain ⟨⟨⟨hs, hh0, -⟩, hh1, -⟩, hrest⟩ := hself
  have p1 : geo.sbLen + (h0.length + (geo.hdrLen - h0.length)) = geo.hdrAt 1 := by omega
  have p2 : geo.hdrAt 1 + (h1.length + (geo.hdrLen - h1.length)) = geo.unitAt 0 := by
    rw [geo.unitAt_zero]
    omega
  rw [p1, p2] at hrest
  rw [p1] at hh1
  refine ⟨?_, hs, e0 ▸ hh0, hh1, hrest⟩
  simp only [raw, twoSlotImage, List.length_append, List.length_replicate, hsb, p1, p2]

/-- The blank source's one unit. -/
def trailingUnit : List UInt8 := unitBytes (blankSource 32) 0

/-- The older commit: no rows and no delta. -/
def olderHeader : List UInt8 := headerSlot (blankSource 32) 0 0 [] ⟨[], (0, 0), deltaDigest 0 []⟩

/-- The newer commit: one tail row, and a delta of one unit. -/
def newerHeader : List UInt8 :=
  headerSlot (blankSource 32) 1 1 [] ⟨[], (0, 1), deltaDigest 1 [(0, trailingUnit)]⟩

/-- The two commits in a claimed file, the newer one's unit after the bytes it declares. -/
def trailingImage : List UInt8 :=
  twoSlotImage (blankSource 32).geo (superblock (blankSource 32) 7) olderHeader newerHeader trailingUnit

/-- What the trailing image holds. -/
structure TrailingParse (h0 h1 : ParsedHdr) : Prop where
  length_eq : trailingImage.length = (blankSource 32).geo.unitAt 1
  superblock_at : Holds trailingImage 0 (superblock (blankSource 32) 7)
  older : Holds trailingImage ((blankSource 32).geo.hdrAt 0) olderHeader
  newer : Holds trailingImage ((blankSource 32).geo.hdrAt 1) newerHeader
  slot0 : parseHeaderSlot trailingImage (blankSource 32).geo 0 trailingImage.length = some h0
  slot1 : parseHeaderSlot trailingImage (blankSource 32).geo 1 trailingImage.length = some h1
  says0 : Says trailingImage (blankSource 32) 0 0 [] ⟨[], (0, 0), deltaDigest 0 []⟩
    ((blankSource 32).geo.hdrAt 0) h0
  says1 : Says trailingImage (blankSource 32) 1 1 [] ⟨[], (0, 1), deltaDigest 1 [(0, trailingUnit)]⟩
    ((blankSource 32).geo.hdrAt 1) h1
  unit : unitOf trailingImage (blankSource 32).geo 0 = some trailingUnit

theorem length_trailingUnit : trailingUnit.length = (blankSource 32).geo.unitLen :=
  length_unitBytes (blankSource_ids 32) rfl

theorem blank_tailFits (n : ℕ) : TailFits (blankSource 32) n := fun _ _ =>
  length_recBytes (blankSource_ids 32) (blankSource_rowBytes 32).symm

theorem trailing_parse : ∃ h0 h1, TrailingParse h0 h1 := by
  have hlen0 : olderHeader.length ≤ (blankSource 32).geo.hdrLen := by
    rw [olderHeader, headerSlot, List.length_append, length_headerBody (blank_tailFits 0), u32Bytes,
      length_leBytes]
    decide
  have hlen1 : newerHeader.length ≤ (blankSource 32).geo.hdrLen := by
    rw [newerHeader, headerSlot, List.length_append, length_headerBody (blank_tailFits 1), u32Bytes,
      length_leBytes]
    decide
  obtain ⟨hlen, hsb, hh0, hh1, hu⟩ := @holds_twoSlotImage (blankSource 32).geo
    (superblock (blankSource 32) 7) olderHeader newerHeader trailingUnit
    (length_superblock (blankSource_ok 32).shaped) hlen0 hlen1
  have hraw : twoSlotImage (blankSource 32).geo (superblock (blankSource 32) 7) olderHeader
    newerHeader trailingUnit = trailingImage := rfl
  rw [hraw, length_trailingUnit, ← Geo.unitAt_succ] at hlen
  rw [hraw] at hsb hh0 hh1 hu
  have hroom (slot : ℕ) (hs : slot < 2) : (blankSource 32).geo.hdrAt slot + (blankSource 32).geo.hdrLen ≤
      trailingImage.length := by
    rw [hlen, ← Geo.hdrAt_succ]
    exact (Geo.hdrAt_le_unitAt _ (by omega)).trans (Geo.unitAt_mono _ (Nat.zero_le _))
  obtain ⟨h0, hp0, hs0⟩ := @parseHeaderSlot_of_holds (blankSource 32) trailingImage 0 0 0
    trailingImage.length [] ⟨[], (0, 0), deltaDigest 0 []⟩ hh0 (hroom 0 (by decide)) hlen0 (by decide) rfl
    (by decide) (hlen ▸ Geo.unitAt_mono _ (by decide)) (opsFit_nil _ _) (blank_tailFits 0) (Nat.zero_le _)
  obtain ⟨h1, hp1, hs1⟩ := @parseHeaderSlot_of_holds (blankSource 32) trailingImage 1 1 1
    trailingImage.length [] ⟨[], (0, 1), deltaDigest 1 [(0, trailingUnit)]⟩ hh1 (hroom 1 (by decide)) hlen1
    (by decide) rfl (by decide) (hlen ▸ Geo.unitAt_mono _ (by decide)) (opsFit_nil _ _) (blank_tailFits 1)
    (Nat.zero_le _)
  exact ⟨h0, h1, hlen, hsb, hh0, hh1, hp0, hp1, hs0, hs1, hu.slice? length_trailingUnit⟩

section

variable {h0 h1 : ParsedHdr}

theorem TrailingParse.superblock_ok (ht : TrailingParse h0 h1) :
    parseSuperblock levelTables trailingImage 0 = .ok ⟨(blankSource 32).geo, 7, [], []⟩ := by
  refine @parseSuperblock_of_holds levelTables (blankSource 32) trailingImage 7 (blankSource_levelTables 32)
    (by decide) ht.superblock_at ?_
  rw [ht.length_eq, ← Geo.unitAt_zero]
  exact Geo.unitAt_mono _ (Nat.zero_le _)

theorem TrailingParse.declaredGeo_eq (ht : TrailingParse h0 h1) :
    declaredGeo trailingImage = some (blankSource 32).geo := by
  refine declaredGeo_of_parse levelTables_leveled ?_ (Nat.zero_le 1) ht.superblock_ok
  rw [ht.length_eq]
  decide

theorem TrailingParse.wantLen_eq (ht : TrailingParse h0 h1) :
    wantLen trailingImage = (blankSource 32).geo.unitAt 0 := by
  have hmax : max h0.n h1.n / BLOCK = 0 := by
    rw [ht.says0.n_eq, ht.says1.n_eq]
    rfl
  have hlen := declaredLen_of_parse ht.declaredGeo_eq ht.slot0 ht.slot1 (by
    rw [hmax]
    decide)
  rw [wantLen, hlen, hmax, Option.getD_some, ht.length_eq]
  exact Nat.min_eq_left (Geo.unitAt_mono _ (Nat.zero_le _))

theorem TrailingParse.deltaBlocks (ht : TrailingParse h0 h1) : h1.deltaBlocks = [0] := by
  rw [ParsedHdr.deltaBlocks, ht.says1.deltaMat_eq, ht.says1.deltaApp_eq]
  rfl

/-- On the whole file the newer commit verifies. -/
theorem TrailingParse.choose (ht : TrailingParse h0 h1) :
    chooseHeader trailingImage (blankSource 32).geo = some h1 := by
  have hok : deltaOk trailingImage (blankSource 32).geo h1 = true := by
    have hcrc := ht.says1.deltaCrc_eq
    dsimp only at hcrc
    have hunits : [0].mapM (unitOf trailingImage (blankSource 32).geo) = some [trailingUnit] := by
      rw [mapM_eq_some]
      exact List.Forall₂.cons ht.unit List.Forall₂.nil
    rw [deltaOk_iff, ht.deltaBlocks, ht.says1.gen_eq]
    exact ⟨[trailingUnit], hunits, hcrc.symm⟩
  rw [chooseHeader, ht.slot0, ht.slot1]
  have hlt : h0.gen < h1.gen := by
    rw [ht.says0.gen_eq, ht.says1.gen_eq]
    decide
  simp only [candidates, hlt, if_true, List.find?_cons, hok]

/-- In the bytes the file declares the older one does. -/
theorem TrailingParse.choose_take (ht : TrailingParse h0 h1) :
    chooseHeader (trailingImage.take (wantLen trailingImage)) (blankSource 32).geo = some h0 := by
  have hle : wantLen trailingImage ≤ trailingImage.length := Nat.min_le_right _ _
  have hl : (trailingImage.take (wantLen trailingImage)).length = wantLen trailingImage := by
    rw [List.length_take, Nat.min_eq_left hle]
  have hfit {n : ℕ} (hn : n / BLOCK = 0) :
      (blankSource 32).geo.unitAt (n / BLOCK) ≤ wantLen trailingImage := by
    rw [ht.wantLen_eq, hn]
  have hold : deltaOk (trailingImage.take (wantLen trailingImage)) (blankSource 32).geo h0 = true := by
    rw [deltaOk_take hle]
    refine ⟨deltaOk_empty ht.says0, fun b hb => ?_⟩
    rw [ParsedHdr.deltaBlocks, ht.says0.deltaMat_eq, ht.says0.deltaApp_eq] at hb
    exact absurd hb (List.not_mem_nil)
  have hnew : deltaOk (trailingImage.take (wantLen trailingImage)) (blankSource 32).geo h1 = false := by
    rw [Bool.eq_false_iff, Ne, deltaOk_take hle]
    rintro ⟨-, hin⟩
    have hend := hin 0 (by rw [ht.deltaBlocks]; exact List.mem_singleton_self 0)
    rw [ht.wantLen_eq] at hend
    exact absurd hend (by decide)
  rw [chooseHeader, hl, parseHeaderSlot_take (by decide) (slotRows_of_parse ht.slot0)
      (hfit (by rw [ht.says0.n_eq]; rfl)) hle,
    parseHeaderSlot_take (by decide) (slotRows_of_parse ht.slot1) (hfit (by rw [ht.says1.n_eq]; rfl)) hle,
    ht.slot0, ht.slot1]
  have hlt : h0.gen < h1.gen := by
    rw [ht.says0.gen_eq, ht.says1.gen_eq]
    decide
  simp only [candidates, hlt, if_true, List.find?_cons, hold, hnew]

/-- A load of all the bytes has the newer commit's row. -/
theorem TrailingParse.loadImage_rows (ht : TrailingParse h0 h1) {l : V7Load}
    (h : loadImage levelTables trailingImage 0 0 = .ok l) : l.nVectors = 1 := by
  obtain ⟨img, himg, -, hl⟩ := loadImage_ok h
  simp only [parseImage, ht.superblock_ok, ht.choose, bind_eq_ok, orElseError_eq_ok, Except.ok.injEq,
    Option.some.injEq, exists_eq_left', pure, Except.pure] at himg
  obtain ⟨_, -, tail, -, ops, -, rfl⟩ := himg
  exact hl.nVectors.trans ht.says1.n_eq

theorem TrailingParse.parseImage_take (ht : TrailingParse h0 h1) : ∃ img,
    parseImage levelTables (trailingImage.take (wantLen trailingImage)) 0 = .ok img ∧
      img.nVectors = 0 ∧ img.ops = [] ∧ img.nonce = 7 := by
  have hle : wantLen trailingImage ≤ trailingImage.length := Nat.min_le_right _ _
  have hsb := (sniffed ht.declaredGeo_eq).parseSuperblock_take levelTables_leveled ht.wantLen_eq.ge hle
    |>.trans ht.superblock_ok
  have hgroups : h0.groups = [] := by
    have hown := ht.says0.groups_eq
    rw [show wireGroups (blankSource 32) [] = [] from rfl, ownOps, mapM_eq_some] at hown
    cases hg : h0.groups with
    | nil => rfl
    | cons g gs =>
      rw [hg] at hown
      cases hown
  have htail : slice? (trailingImage.take (wantLen trailingImage)) h0.tailAt 0 = some [] := by
    rw [slice?_eq_some, ht.says0.tailAt_eq, List.length_take, Nat.min_eq_left hle, ht.wantLen_eq]
    exact ⟨by decide, rfl⟩
  refine ⟨⟨(blankSource 32).geo, 7, h0.gen, 0, [], [], [], [], []⟩, ?_, rfl, rfl, rfl⟩
  rw [parseImage, hsb]
  simp only [ht.choose_take, bind_eq_ok, orElseError_eq_ok, Except.ok.injEq, exists_eq_left',
    Option.some.injEq, ht.says0.n_eq, hgroups, Nat.zero_mod, Nat.zero_mul, htail, pure, Except.pure]
  exact ⟨(), rfl, [], rfl, rfl⟩

/-- A path load has the older commit's rows. -/
theorem TrailingParse.loadPath_rows (ht : TrailingParse h0 h1) : ∃ l,
    loadPath levelTables trailingImage 0 0 = .ok l ∧ l.nVectors = 0 ∧ l.cursor.nonce = 7 := by
  obtain ⟨img, himg, hn, hops, hnonce⟩ := ht.parseImage_take
  obtain ⟨l, hl, hrun⟩ := @loadImage_spec levelTables _ img 0 0 himg
  refine ⟨l, (hrun l).mpr ⟨⟨fun v hv => ?_, fun r hr => ?_⟩, rfl⟩, hl.nVectors.trans hn,
    by rw [hl.cursor, hnonce]⟩
  · rw [hn] at hv
    exact absurd hv (Nat.not_lt_zero _)
  · rw [ParsedImage.flatOps, hops, ParsedImage.tailRows, hn] at hr
    exact absurd hr (List.not_mem_nil)

end

end Trailing

end Turbovec.IoV7
