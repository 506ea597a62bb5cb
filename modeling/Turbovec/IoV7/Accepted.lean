import Turbovec.IoV7.Load

/-!
# Accepted images

What `parseImage` promises of an image it accepts: a valid geometry, redo ops that target committed
blocks, a record for each op and tail row.
-/

namespace Turbovec.IoV7

open LittleEndian Slice Grid Pack

/-- The geometries the superblock checks let through. -/
structure Geo.Valid (geo : Geo) : Prop where
  bits_ge : 2 ≤ geo.bitWidth
  bits_le : geo.bitWidth ≤ 4
  dim_mod : geo.dim % 8 = 0
  dim_le : geo.dim ≤ MAX_DIM
  nCalib : geo.nCalib = 0 ∨ geo.nCalib = geo.dim
  version : geo.version = 7 ∨ geo.version = 8
  layout : geo.layout = LAYOUT_SEQ ∨ geo.layout = LAYOUT_PLANES ∧ geo.version = 8 ∧ geo.bitWidth ≠ 3 ∧
    (geo.dim ≠ 0 → planesGeomOk geo.bitWidth geo.rowBytes = true)

namespace Geo.Valid

variable {geo : Geo}

theorem bits (h : geo.Valid) : ValidBits geo.bitWidth := by
  have := h.bits_ge
  have := h.bits_le
  simp only [ValidBits]
  omega

theorem planesBits (h : geo.Valid) (hl : geo.layout = LAYOUT_PLANES) : PlanesBits geo.bitWidth := by
  rcases h.layout with hseq | ⟨-, -, h3, -⟩
  · rw [hseq] at hl
    exact absurd hl (by decide)
  · have := h.bits_ge
    have := h.bits_le
    simp only [PlanesBits]
    omega

end Geo.Valid

/-- The calibration an accepted superblock carries. -/
structure CalibrationOk (T : Tables) (nCalib : ℕ) (tqplusShift tqplusScale : List F32) : Prop where
  shift_len : tqplusShift.length = nCalib
  scale_len : tqplusScale.length = nCalib
  valid : validateCalibration T.bounds tqplusShift tqplusScale = .ok ()

section Accepted

variable {T : Tables} {raw : List UInt8} {expectKind : ℕ}

theorem length_of_readF32s {at_ k : ℕ} {vs : List F32} (h : readF32s raw at_ k = .ok vs) :
    vs.length = k := by
  induction k generalizing at_ vs with
  | zero =>
    rw [readF32s, Except.ok.injEq] at h
    rw [← h, List.length_nil]
  | succ k ih =>
    simp only [readF32s, bind_eq_ok, pure, Except.pure, Except.ok.injEq] at h
    obtain ⟨v, -, vs', h', rfl⟩ := h
    rw [List.length_cons, ih h']

theorem parsePreamble_ok {pre : Preamble} (h : parsePreamble raw expectKind = .ok pre) :
    pre.kind = expectKind ∧ (2 ≤ pre.bitWidth ∧ pre.bitWidth ≤ 4) ∧
      (pre.dim % 8 = 0 ∧ pre.dim ≤ MAX_DIM) ∧ (pre.version = 7 ∨ pre.version = 8) ∧
      (pre.layout = LAYOUT_SEQ ∨
        pre.layout = LAYOUT_PLANES ∧ pre.version = 8 ∧ pre.bitWidth ≠ 3) := by
  simp only [parsePreamble, bind_eq_ok, reject_eq_ok, readU32, readU64At, orElseError_eq_ok, pure,
    Except.pure, Except.ok.injEq] at h
  obtain ⟨_, -, _, -, _, -, _, hbits, _, hkind, _, hlayout, _, h3, dim, -, _, hdim, _, -, nonce, -, ops,
    -, _, -, rfl⟩ := h
  simp only [Bool.or_eq_false_iff, decide_eq_false_iff_not, not_lt] at hbits
  refine ⟨by simpa using hkind, hbits, ?_, ?_, ?_⟩
  · by_cases h0 : dim = 0
    · subst h0
      simp
    · simpa [h0] using hdim
  · split
    · exact Or.inr rfl
    · exact Or.inl rfl
  · by_cases h8 : raw.take 4 = V8_MAGIC
    · simp only [h8, if_true] at hlayout h3 ⊢
      by_cases hseq : (entry raw 7).toNat = LAYOUT_SEQ
      · exact Or.inl hseq
      · have hpl : (entry raw 7).toNat = LAYOUT_PLANES := by simpa [hseq] using hlayout
        exact Or.inr ⟨hpl, trivial, by simpa [hpl] using h3⟩
    · exact Or.inl (by simp [h8])

theorem parseSuperblock_ok {sb : Superblock} (h : parseSuperblock T raw expectKind = .ok sb) :
    sb.geo.Valid ∧ sb.geo.kind = expectKind ∧
      CalibrationOk T sb.geo.nCalib sb.tqplusShift sb.tqplusScale := by
  rw [parseSuperblock, bind_eq_ok] at h
  obtain ⟨pre, hpre, h⟩ := h
  obtain ⟨hkind, ⟨hb2, hb4⟩, ⟨hd8, hdmax⟩, hversion, hlayout⟩ := parsePreamble_ok hpre
  simp only [parseCalibration, bind_eq_ok, reject_eq_ok, readU32, orElseError_eq_ok, pure,
    Except.pure, Except.ok.injEq] at h
  obtain ⟨_, -, nCalib, -, _, hnCalib, shift, hshift, scale, hscale, _, hvalid, stored, -, _, -, _,
    hgeom, rfl⟩ := h
  refine ⟨⟨hb2, hb4, hd8, hdmax, ?_, hversion, ?_⟩, hkind, length_of_readF32s hshift,
    length_of_readF32s hscale, hvalid⟩
  · by_cases h0 : nCalib = 0
    · exact Or.inl h0
    · exact Or.inr (by simpa [h0] using hnCalib)
  · rcases hlayout with hseq | ⟨hpl, h8, h3⟩
    · exact Or.inl hseq
    · exact Or.inr ⟨hpl, h8, h3, fun h0 => by simpa [hpl, h0] using hgeom⟩

/-! ## Headers -/

variable {bytes : List UInt8} {at_ b opSize nBlocks k p q : ℕ}

/-- Every op of a parsed group targets a lane of the group's block. -/
theorem parseOps_block {ops : List (ℕ × ℕ)}
    (h : parseOps bytes at_ b opSize k p = some (ops, q)) : ∀ op ∈ ops, op.1 / BLOCK = b := by
  induction k generalizing ops p with
  | zero =>
    rw [parseOps, Option.some.injEq, Prod.mk.injEq] at h
    simp [← h.1]
  | succ k ih =>
    obtain ⟨lane, rest, -, hlane, hrest, rfl⟩ := parseOps_succ_eq_some.mp h
    intro op hop
    rcases List.mem_cons.mp hop with rfl | hop
    · exact mul_add_div hlane
    · exact ih hrest op hop

theorem parseGroups_blocks {groups : List OpGroup}
    (h : parseGroups bytes at_ opSize nBlocks k p = some (groups, q)) :
    ∀ g ∈ groups, g.1 < nBlocks ∧ ∀ op ∈ g.2, op.1 / BLOCK = g.1 := by
  induction k generalizing groups p with
  | zero =>
    rw [parseGroups, Option.some.injEq, Prod.mk.injEq] at h
    simp [← h.1]
  | succ k ih =>
    obtain ⟨b, _, ops, r, rest, -, hb, -, hops, hrest, rfl⟩ := parseGroups_succ_eq_some.mp h
    intro g hg
    rcases List.mem_cons.mp hg with rfl | hg
    · exact ⟨hb, parseOps_block hops⟩
    · exact ih hrest g hg

/-- A group's payloads lie before the byte its parse ends at. -/
theorem parseOps_end {ops : List (ℕ × ℕ)} (hop : 1 ≤ opSize)
    (h : parseOps bytes at_ b opSize k p = some (ops, q)) :
    p ≤ q ∧ ∀ op ∈ ops, op.2 + (opSize - 1) ≤ at_ + q := by
  induction k generalizing ops p with
  | zero =>
    rw [parseOps, Option.some.injEq, Prod.mk.injEq] at h
    simp [← h.1, h.2]
  | succ k ih =>
    obtain ⟨lane, rest, -, -, hrest, rfl⟩ := parseOps_succ_eq_some.mp h
    obtain ⟨hle, hends⟩ := ih hrest
    refine ⟨by omega, fun op hmem => ?_⟩
    rcases List.mem_cons.mp hmem with rfl | hmem
    · dsimp only
      omega
    · exact hends op hmem

theorem parseGroups_end {groups : List OpGroup} (hop : 1 ≤ opSize)
    (h : parseGroups bytes at_ opSize nBlocks k p = some (groups, q)) :
    p ≤ q ∧ ∀ g ∈ groups, ∀ op ∈ g.2, op.2 + (opSize - 1) ≤ at_ + q := by
  induction k generalizing groups p with
  | zero =>
    rw [parseGroups, Option.some.injEq, Prod.mk.injEq] at h
    simp [← h.1, h.2]
  | succ k ih =>
    obtain ⟨b, _, ops, r, rest, -, -, -, hops, hrest, rfl⟩ := parseGroups_succ_eq_some.mp h
    obtain ⟨hle, hends⟩ := parseOps_end hop hops
    obtain ⟨hle', hends'⟩ := ih hrest
    refine ⟨by omega, fun g hg op hmem => ?_⟩
    rcases List.mem_cons.mp hg with rfl | hg
    · have := hends op hmem
      omega
    · exact hends' g hg op hmem

/-- Everything a parsed header points at lies inside its slot. -/
theorem parseHeaderSlot_inside {geo : Geo} {slot fileLen : ℕ} {h : ParsedHdr}
    (hp : parseHeaderSlot raw geo slot fileLen = some h) :
    h.tailAt + h.n % BLOCK * geo.recLen ≤ geo.hdrAt (slot + 1) ∧
      ∀ g ∈ h.groups, ∀ op ∈ g.2, op.2 + geo.recLen ≤ geo.hdrAt (slot + 1) := by
  have hnext : geo.hdrAt (slot + 1) = geo.hdrAt slot + geo.hdrLen := by
    simp only [Geo.hdrAt, Nat.add_mul, Nat.one_mul]
    omega
  rw [parseHeaderSlot, Option.bind_eq_bind, Option.bind_eq_some_iff] at hp
  obtain ⟨bytes, hbytes, hp⟩ := hp
  obtain ⟨pMat, hf⟩ := parseHeaderAt_eq_some.mp hp
  have hlen := length_of_slice? hbytes
  have hend := readLe?_le_length hf.nMat
  have hop := geo.opSize_eq
  obtain ⟨hle, hends⟩ := parseGroups_end (by omega) hf.groups
  refine ⟨by rw [hf.tailAt]; omega, fun g hg op hmem => ?_⟩
  have := hends g hg op hmem
  omega

/-- The copied ops are the parsed ones, each with a whole record. -/
theorem ownOps_eq_some {recLen : ℕ} {groups : List OpGroup} {ops : List (ℕ × List (ℕ × List UInt8))}
    (h : ownOps raw recLen groups = some ops) :
    List.Forall₂ (fun g o => o.1 = g.1 ∧ List.Forall₂ (fun op w => w.1 = op.1 ∧
      slice? raw op.2 recLen = some w.2) g.2 o.2) groups ops := by
  rw [ownOps, mapM_eq_some] at h
  refine List.Forall₂.imp (fun g o ho => ?_) h
  simp only [Option.bind_eq_bind, Option.bind_eq_some_iff, Option.pure_def, Option.some.injEq] at ho
  obtain ⟨ws, hws, rfl⟩ := ho
  rw [mapM_eq_some] at hws
  refine ⟨rfl, List.Forall₂.imp (fun op w hw => ?_) hws⟩
  simp only [Option.bind_eq_some_iff, Option.some.injEq] at hw
  obtain ⟨payload, hp, rfl⟩ := hw
  exact ⟨rfl, hp⟩

/-- What the loader relies on of an accepted image. -/
structure ParsedImage.Valid (T : Tables) (img : ParsedImage) : Prop where
  geo : img.geo.Valid
  calibration : CalibrationOk T img.geo.nCalib img.tqplusShift img.tqplusScale
  dim_zero : img.geo.dim = 0 → img.nVectors = 0
  tail_len : img.tail.length = img.nVectors % BLOCK * img.geo.recLen
  ops : ∀ g ∈ img.ops, g.1 < img.nVectors / BLOCK ∧
    ∀ op ∈ g.2, op.1 / BLOCK = g.1 ∧ op.2.length = img.geo.recLen
  pending : img.pendingSlots = img.ops.flatMap fun g => g.2.map Prod.fst

theorem mem_candidates {h0 h1 : Option ParsedHdr} {h : ParsedHdr} :
    h ∈ candidates h0 h1 ↔ h0 = some h ∨ h1 = some h := by
  rcases h0 with _ | h0 <;> rcases h1 with _ | h1 <;> simp only [candidates]
  · simp
  · simp [eq_comm]
  · simp [eq_comm]
  · split
    · simp [eq_comm, or_comm]
    · simp [eq_comm]

/-- The header an image is loaded at parses from one of the two slots. -/
theorem chooseHeader_ok {geo : Geo} {h : ParsedHdr} (hc : chooseHeader raw geo = some h) :
    deltaOk raw geo h = true ∧ ∃ slot < 2, parseHeaderSlot raw geo slot raw.length = some h := by
  refine ⟨List.find?_some hc, ?_⟩
  rcases mem_candidates.mp (List.mem_of_find?_eq_some hc) with h0 | h1
  · exact ⟨0, by decide, h0⟩
  · exact ⟨1, by decide, h1⟩

theorem parseImage_ok {img : ParsedImage} (h : parseImage T raw expectKind = .ok img) :
    img.Valid T ∧ img.geo.kind = expectKind ∧ img.geo.unitAt (img.nVectors / BLOCK) ≤ raw.length := by
  simp only [parseImage, bind_eq_ok, reject_eq_ok, orElseError_eq_ok, pure, Except.pure,
    Except.ok.injEq] at h
  obtain ⟨sb, hsb, hdr, hchoose, _, hdim, tail, htail, ops, hops, rfl⟩ := h
  obtain ⟨hgeo, hkind, hcal⟩ := parseSuperblock_ok hsb
  obtain ⟨-, slot, -, hslot⟩ := chooseHeader_ok hchoose
  rw [parseHeaderSlot, Option.bind_eq_bind, Option.bind_eq_some_iff] at hslot
  obtain ⟨bytes, -, hparse⟩ := hslot
  obtain ⟨pMat, hf⟩ := parseHeaderAt_eq_some.mp hparse
  have hown := ownOps_eq_some hops
  refine ⟨⟨hgeo, hcal, by simpa using hdim, length_of_slice? htail, ?_, ?_⟩, hkind,
    hf.fits⟩
  · intro g hg
    obtain ⟨g', hg', hblock, hgroup⟩ := exists_of_forall₂_right hown hg
    obtain ⟨hlt, hslots⟩ := parseGroups_blocks hf.groups g' hg'
    refine ⟨hblock ▸ hlt, fun op hop => ?_⟩
    obtain ⟨op', hop', hslot, hpayload⟩ := exists_of_forall₂_right hgroup hop
    exact ⟨by rw [hslot, hblock, hslots op' hop'], length_of_slice? hpayload⟩
  · simp only [List.flatMap_def]
    exact congrArg List.flatten (map_eq_of_forall₂ hown fun g o ho =>
      map_eq_of_forall₂ ho.2 fun _ _ hop => hop.1.symm)

end Accepted

end Turbovec.IoV7
