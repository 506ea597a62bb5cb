import Turbovec.IoV7.RoundTrip

/-!
# The mapped image

A sequential image served from its pages: each chunk of whole blocks is assembled when a scan reaches
it, its units' bytes first and then the redo ops of the block, and transformed for the kernel.
-/

namespace Turbovec.Mapped

open LittleEndian Slice Grid Pack IoV7

/-- One assembled chunk: native codes and a scale for each live row. -/
structure Chunk where
  codes : List UInt8
  scales : List F32
deriving DecidableEq, Repr

/-- The mapped loader takes positional images in the sequential layout. -/
def openImage (T : Tables) (raw : List UInt8) : Except String ParsedImage := do
  let img ← parseImage T raw 0
  reject (img.geo.kind != 0) "mapped serving covers positional images (kind 0) only"
  reject (img.geo.layout != LAYOUT_SEQ) "mapped serving covers sequential-layout images; this v8 file stores bit-plane units — serve it through TurboQuantIndex::load"
  return img

section Assemble

variable (P : Platform) (img : ParsedImage) (raw : List UInt8)

/-- A row's code bytes into its lane of a block. -/
def putLane (geo : Geo) (out : List UInt8) (lane : ℕ) (codes : List UInt8) : List UInt8 :=
  scatter (fun g => g * BLOCK + lane) (entry codes) (List.range geo.rowBytes) out

/-- One redo op of block `i` of the chunk. -/
def assembleOp (i : ℕ) (st : Chunk) (op : ℕ × List UInt8) : Except String Chunk := do
  let out := putLane img.geo st.codes (op.1 % BLOCK) op.2
  let v := scaleAt op.2 img.geo.rowBytes
  reject (!validScale v) "invalid per-vector scale in a pending op"
  return ⟨out, st.scales.set (i * BLOCK + op.1 % BLOCK) v⟩

/-- One row of the partial last block. -/
def assembleTail (st : Chunk) (k : ℕ) : Except String Chunk := do
  let row ← orElseError "truncated commit tail" (slice? img.tail (k * img.geo.recLen) img.geo.recLen)
  let out := putLane img.geo st.codes k row
  let v := scaleAt row img.geo.rowBytes
  reject (!validScale v) "invalid per-vector scale in the commit tail"
  return ⟨out, st.scales ++ [v]⟩

/-- Block `i` of the chunk at `firstBlock`: its code bytes, and the chunk's scales so far. -/
def assembleBlock (firstBlock : ℕ) (scales : List F32) (i : ℕ) : Except String Chunk := do
  let b := firstBlock + i
  if b < img.nVectors / BLOCK then
    let unit ← orElseError s!"truncated block unit {b}" (unitOf raw img.geo b)
    let vs := (List.range BLOCK).map fun lane => scaleAt unit (img.geo.blockBytes + lane * 4)
    reject (!vs.all validScale) s!"invalid per-vector scale in block {b}"
    let st : Chunk := ⟨unit.take img.geo.blockBytes, scales ++ vs⟩
    match img.ops.find? fun g => g.1 = b with
    | some (_, ops) => ops.foldlM (assembleOp img i) st
    | none => return st
  else
    (List.range (img.nVectors % BLOCK)).foldlM (assembleTail img)
      ⟨List.replicate img.geo.blockBytes 0, scales⟩

def assembleStep (firstBlock : ℕ) (st : Chunk) (i : ℕ) : Except String Chunk := do
  let blk ← assembleBlock img raw firstBlock st.scales i
  return ⟨st.codes ++ blk.codes, blk.scales⟩

/-- Gather the blocks of `live` rows from `base`, and transform them into the kernel's layout. -/
def assemble (base live : ℕ) : Except String Chunk := do
  let st ← (List.range ((live + 31) / 32)).foldlM (assembleStep img raw (base / BLOCK)) ⟨[], []⟩
  let scales := st.scales.take live
  let held := scales.length
  reject (held != live) s!"chunk at {base} holds {held} scales for {live} rows"
  return ⟨seqIntoNative P st.codes img.geo.bitWidth img.geo.rowBytes, scales⟩

end Assemble

/-! ## What a chunk holds -/

/-- The ops of the first group naming a block. -/
def firstOps (img : ParsedImage) (b : ℕ) : List (ℕ × List UInt8) :=
  (img.ops.find? fun g => g.1 = b).elim [] Prod.snd

/-- The rows the mapped image serves. -/
def rows (img : ParsedImage) (raw : List UInt8) (v : ℕ) : Row :=
  writeRows img.geo (unitRows img.geo raw (img.nVectors / BLOCK))
    (firstOps img (v / BLOCK) ++ img.tailRows) v

/-- Every scale the mapped image serves is one the format accepts. -/
structure ServedOk (img : ParsedImage) (raw : List UInt8) : Prop where
  units : ∀ v < img.nVectors / BLOCK * BLOCK,
    validScale (unitRows img.geo raw (img.nVectors / BLOCK) v).scale = true
  ops : ∀ b < img.nVectors / BLOCK, ∀ op ∈ firstOps img b, validScale (recRow img.geo op.2).scale = true
  tails : ∀ r ∈ img.tailRows, validScale (recRow img.geo r.2).scale = true

/-- A block's bytes hold the codes `code` lane by lane. -/
structure BlockHold (nbg : ℕ) (code : ℕ → ℕ → UInt8) (out : List UInt8) : Prop where
  length_eq : out.length = nbg * 32
  code : ∀ lane < 32, ∀ g < nbg, entry out (g * 32 + lane) = code lane g

section Blocks

variable {T : Tables} {P : Platform} {img : ParsedImage} {raw : List UInt8} {pre : List F32}

theorem BlockHold.putLane {geo : Geo} {code : ℕ → ℕ → UInt8} {out : List UInt8}
    (h : BlockHold geo.rowBytes code out) {lane : ℕ} (hl : lane < 32) (codes : List UInt8) :
    BlockHold geo.rowBytes (fun l g => if l = lane then entry codes g else code l g)
      (putLane geo out lane codes) := by
  refine ⟨(length_scatter _ _ _ _).trans h.length_eq, fun l hl' g hg => ?_⟩
  by_cases hll : l = lane
  · subst hll
    rw [if_pos rfl]
    refine @entry_scatter _ _ _ (fun g => g * BLOCK + l) _ _ _ g (List.mem_range.2 hg)
      (fun y _ hy => ?_) (by rw [h.length_eq]; exact mul_add_lt hg hl')
    simp only [BLOCK] at hy
    rw [show y = g by omega]
  · rw [if_neg hll, ← h.code l hl' g hg]
    refine entry_congr (getElem?_scatter_of_forall_ne fun y _ hy => hll ?_)
    exact (mul_add_inj hl hl' hy).2.symm

/-- The scales so far and one whole block's lanes, as the rows `rows`. -/
structure BlockOf (img : ParsedImage) (rows : ℕ → Row) (b : ℕ) (pre : List F32) (st : Chunk) :
    Prop where
  codes : BlockHold img.geo.rowBytes (fun lane g => entry (rows (b * BLOCK + lane)).codes g) st.codes
  scales : st.scales = pre ++ (List.range BLOCK).map fun lane => (rows (b * BLOCK + lane)).scale

theorem assembleOp_spec {rows : ℕ → Row} {b i : ℕ} {st : Chunk} {op : ℕ × List UInt8}
    (h : BlockOf img rows b pre st) (hpre : pre.length = i * BLOCK) (hop : op.1 / BLOCK = b)
    (hs : validScale (recRow img.geo op.2).scale = true) :
    ∃ st', assembleOp img i st op = .ok st' ∧
      BlockOf img (Function.update rows op.1 (recRow img.geo op.2)) b pre st' := by
  have hlane : op.1 % BLOCK < BLOCK := Nat.mod_lt _ (by decide)
  have hat (lane : ℕ) (hl : lane < BLOCK) : b * BLOCK + lane = op.1 ↔ lane = op.1 % BLOCK := by
    simp only [BLOCK] at *
    omega
  have hsc : validScale (scaleAt op.2 img.geo.rowBytes) = true := hs
  refine ⟨⟨putLane img.geo st.codes (op.1 % BLOCK) op.2,
    st.scales.set (i * BLOCK + op.1 % BLOCK) (scaleAt op.2 img.geo.rowBytes)⟩, ?_, ?_, ?_⟩
  · simp only [assembleOp, bind_eq_ok, reject_eq_ok, hsc, pure, Except.pure]
    exact ⟨(), rfl, trivial⟩
  · have hput := h.codes.putLane hlane op.2
    refine ⟨hput.length_eq, fun lane hl g hg => ?_⟩
    rw [hput.code lane hl g hg]
    by_cases hll : lane = op.1 % BLOCK
    · rw [if_pos hll, (hat lane hl).mpr hll, Function.update_self, recRow, entry_take hg]
    · rw [if_neg hll, Function.update_of_ne (mt (hat lane hl).mp hll)]
  · simp only [h.scales]
    rw [← hpre, List.set_append_right _ _ (Nat.le_add_right _ _), Nat.add_sub_cancel_left, set_map_range]
    refine congrArg _ (List.map_congr_left fun lane hl => ?_)
    have hl := List.mem_range.mp hl
    by_cases hll : lane = op.1 % BLOCK
    · rw [hll, Function.update_self, (hat _ hlane).mpr rfl, Function.update_self]
      rfl
    · rw [Function.update_of_ne hll, Function.update_of_ne (mt (hat lane hl).mp hll)]

theorem assembleOps_spec {b i : ℕ} (ops : List (ℕ × List UInt8)) {rows : ℕ → Row} {st : Chunk}
    (h : BlockOf img rows b pre st) (hpre : pre.length = i * BLOCK)
    (hops : ∀ op ∈ ops, op.1 / BLOCK = b)
    (hs : ∀ op ∈ ops, validScale (recRow img.geo op.2).scale = true) :
    ∃ st', ops.foldlM (assembleOp img i) st = .ok st' ∧
      BlockOf img (writeRows img.geo rows ops) b pre st' := by
  induction ops generalizing rows st with
  | nil => exact ⟨st, rfl, h⟩
  | cons op ops ih =>
    obtain ⟨st', hstep, hst'⟩ :=
      assembleOp_spec h hpre (hops op List.mem_cons_self) (hs op List.mem_cons_self)
    obtain ⟨st'', hrun, hst''⟩ := ih hst' (fun o ho => hops o (List.mem_cons_of_mem _ ho))
      fun o ho => hs o (List.mem_cons_of_mem _ ho)
    refine ⟨st'', ?_, hst''⟩
    rw [List.foldlM_cons, bind_eq_ok]
    exact ⟨st', hstep, hrun⟩

/-- The tail rows fill the lanes of the last block one by one. -/
theorem assembleTails_spec (hlen : img.tail.length = img.nVectors % BLOCK * img.geo.recLen)
    (hs : ∀ r ∈ img.tailRows, validScale (recRow img.geo r.2).scale = true) {k : ℕ}
    (hk : k ≤ img.nVectors % BLOCK) :
    ∃ out, (List.range k).foldlM (assembleTail img) ⟨List.replicate img.geo.blockBytes 0, pre⟩ =
        .ok ⟨out, pre ++ (List.range k).map fun i =>
          (recRow img.geo (rowAt img.tail img.geo.recLen i)).scale⟩ ∧
      BlockHold img.geo.rowBytes (fun lane g => if lane < k then
        entry (recRow img.geo (rowAt img.tail img.geo.recLen lane)).codes g else 0) out := by
  induction k with
  | zero =>
    have hzero : BlockHold img.geo.rowBytes (fun lane g => if lane < 0 then
        entry (recRow img.geo (rowAt img.tail img.geo.recLen lane)).codes g else 0)
        (List.replicate img.geo.blockBytes 0) := by
      constructor
      · rw [List.length_replicate, Geo.blockBytes, BLOCK, Nat.mul_comm]
      · intro lane _ g _
        rw [entry_replicate_zero, if_neg (Nat.not_lt_zero lane)]
    refine ⟨List.replicate img.geo.blockBytes 0, ?_, hzero⟩
    rw [List.range_zero, List.foldlM_nil, List.map_nil, List.append_nil]
    rfl
  | succ k ih =>
    obtain ⟨out, hrun, hout⟩ := ih (by omega)
    have hkb : k < 32 := lt_of_lt_of_le hk (Nat.mod_lt _ (by decide)).le
    have hput := hout.putLane hkb (rowAt img.tail img.geo.recLen k)
    have hsk : validScale (scaleAt (rowAt img.tail img.geo.recLen k) img.geo.rowBytes) = true :=
      hs (img.nVectors / BLOCK * BLOCK + k, rowAt img.tail img.geo.recLen k)
        (List.mem_map.mpr ⟨k, List.mem_range.mpr hk, rfl⟩)
    have hslice : slice? img.tail (k * img.geo.recLen) img.geo.recLen =
        some (rowAt img.tail img.geo.recLen k) := by
      refine slice?_of_le ?_
      rw [hlen, ← Nat.succ_mul]
      exact Nat.mul_le_mul_right _ hk
    refine ⟨_, ?_, hput.length_eq, fun lane hl g hg => ?_⟩
    · rw [List.range_succ, List.foldlM_append, bind_eq_ok]
      refine ⟨_, hrun, ?_⟩
      rw [List.foldlM_cons, bind_eq_ok]
      refine ⟨_, ?_, rfl⟩
      simp only [assembleTail, bind_eq_ok, orElseError_eq_ok, hslice, Option.some.injEq,
        exists_eq_left', reject_eq_ok, hsk, pure, Except.pure]
      refine ⟨(), rfl, ?_⟩
      rw [List.map_append, ← List.append_assoc]
      rfl
    · rw [hput.code lane hl g hg]
      by_cases hlk : lane = k
      · rw [if_pos hlk, if_pos (by omega), hlk, recRow, entry_take hg]
      · rw [if_neg hlk]
        exact if_congr (by omega) rfl rfl

/-- The rows of a whole block come from its unit and its first group. -/
theorem rows_of_full {b lane : ℕ} (hb : b < img.nVectors / BLOCK) (hl : lane < BLOCK) :
    rows img raw (b * BLOCK + lane) =
      writeRows img.geo (unitRows img.geo raw (img.nVectors / BLOCK)) (firstOps img b)
        (b * BLOCK + lane) := by
  have hlt := mul_add_lt hb hl
  rw [rows, mul_add_div hl, writeRows_apply, writeRows_apply, lastRec_append, lastRec_tailRows,
    if_neg (by omega), Option.none_or]

/-- The rows after the last whole block come from the header. -/
theorem rows_of_tail {lane : ℕ} (hl : lane < img.nVectors % BLOCK) :
    rows img raw (img.nVectors / BLOCK * BLOCK + lane) =
      recRow img.geo (rowAt img.tail img.geo.recLen lane) := by
  have hn := Nat.div_add_mod' img.nVectors BLOCK
  rw [rows, writeRows_apply, lastRec_append, lastRec_tailRows, if_pos (by omega),
    Nat.add_sub_cancel_left]
  rfl

theorem mem_firstOps {b : ℕ} {op : ℕ × List UInt8} (h : op ∈ firstOps img b) :
    ∃ g ∈ img.ops, g.1 = b ∧ op ∈ g.2 := by
  rw [firstOps] at h
  cases hg : img.ops.find? fun g => g.1 = b with
  | none =>
    rw [hg] at h
    exact absurd h List.not_mem_nil
  | some g =>
    rw [hg] at h
    exact ⟨g, List.mem_of_find?_eq_some hg, by simpa using List.find?_some hg, h⟩

/-- The scales a load accepts are served. -/
theorem servedOk_of_scalesOk (hs : ScalesOk img raw) : ServedOk img raw where
  units := hs.units
  ops b _ op hop := by
    obtain ⟨g, hg, -, hop⟩ := mem_firstOps hop
    exact hs.recs op (List.mem_append_left _ (List.mem_flatMap.mpr ⟨g, hg, hop⟩))
  tails r hr := hs.recs r (List.mem_append_right _ hr)

theorem assembleBlock_full (hv : img.Valid T) (hseq : img.geo.layout ≠ LAYOUT_PLANES)
    (hs : ServedOk img raw) (hfit : img.geo.unitAt (img.nVectors / BLOCK) ≤ raw.length)
    {firstBlock i : ℕ} (hb : firstBlock + i < img.nVectors / BLOCK)
    (hpre : pre.length = i * BLOCK) :
    ∃ st, assembleBlock img raw firstBlock pre i = .ok st ∧
      BlockOf img (rows img raw) (firstBlock + i) pre st := by
  have hunit : unitOf raw img.geo (firstBlock + i) =
      some (bytesAt raw (img.geo.unitAt (firstBlock + i)) img.geo.unitLen) :=
    slice?_of_le ((img.geo.unitAt_add_le hb).trans hfit)
  have hblock : img.geo.blockBytes ≤ img.geo.unitLen := by
    simp only [Geo.blockBytes, Geo.unitLen]
    omega
  have hlen := length_bytesAt ((img.geo.unitAt_add_le hb).trans hfit)
  have hlane (lane : ℕ) (hl : lane < BLOCK) :
      unitRows img.geo raw (img.nVectors / BLOCK) ((firstBlock + i) * BLOCK + lane) =
        unitRow img.geo (bytesAt raw (img.geo.unitAt (firstBlock + i)) img.geo.unitLen) lane := by
    rw [unitRows_of_lt _ _ (mul_add_lt hb hl), mul_add_div hl, mul_add_mod hl]
  -- the unit's own bytes and scales
  have hbase : BlockOf img (unitRows img.geo raw (img.nVectors / BLOCK)) (firstBlock + i) pre
      ⟨(bytesAt raw (img.geo.unitAt (firstBlock + i)) img.geo.unitLen).take img.geo.blockBytes,
        pre ++ (List.range BLOCK).map fun lane =>
          scaleAt (bytesAt raw (img.geo.unitAt (firstBlock + i)) img.geo.unitLen)
            (img.geo.blockBytes + lane * 4)⟩ := by
    refine ⟨⟨?_, fun lane hl g hg => ?_⟩, ?_⟩
    · rw [List.length_take, hlen, Nat.min_eq_left hblock, Geo.blockBytes, BLOCK, Nat.mul_comm]
    · have hoff : g * BLOCK + lane < img.geo.blockBytes := by
        rw [Geo.blockBytes, Nat.mul_comm BLOCK]
        exact mul_add_lt hg hl
      rw [hlane lane hl, unitRow, unitCodeRow, if_neg hseq, entry_seqLane _ _ hg]
      exact entry_take hoff
    · refine congrArg _ (List.map_congr_left fun lane hl => ?_)
      rw [hlane lane (List.mem_range.mp hl)]
      rfl
  obtain ⟨st, hrun, hst⟩ := assembleOps_spec (firstOps img (firstBlock + i)) hbase hpre
    (fun op hop => by
      obtain ⟨g, hg, hgb, hop⟩ := mem_firstOps hop
      rw [← hgb]
      exact ((hv.ops g hg).2 op hop).1)
    (hs.ops _ hb)
  refine ⟨st, ?_, ⟨hst.codes.length_eq, fun lane hl g hg => ?_⟩, ?_⟩
  · have hall : ((List.range BLOCK).map fun lane =>
        scaleAt (bytesAt raw (img.geo.unitAt (firstBlock + i)) img.geo.unitLen)
          (img.geo.blockBytes + lane * 4)).all validScale = true := by
      rw [List.all_eq_true]
      intro s hsm
      obtain ⟨lane, hl, rfl⟩ := List.mem_map.mp hsm
      have hl := List.mem_range.mp hl
      have := hs.units _ (mul_add_lt hb hl)
      rwa [hlane lane hl] at this
    simp only [assembleBlock, if_pos hb, bind_eq_ok, orElseError_eq_ok, hunit, Option.some.injEq,
      exists_eq_left', reject_eq_ok, hall, Bool.not_true, exists_const, true_and]
    rw [firstOps] at hrun
    cases hf : img.ops.find? fun g => g.1 = firstBlock + i with
    | none =>
      rw [hf] at hrun
      exact hrun
    | some g =>
      rw [hf] at hrun
      exact hrun
  · rw [hst.codes.code lane hl g hg, rows_of_full hb hl]
  · rw [hst.scales]
    exact congrArg _ (List.map_congr_left fun lane hl => by
      rw [rows_of_full hb (List.mem_range.mp hl)])

theorem assembleBlock_tail (hv : img.Valid T) (hs : ServedOk img raw) {firstBlock i : ℕ}
    (hb : firstBlock + i = img.nVectors / BLOCK) :
    ∃ out, assembleBlock img raw firstBlock pre i = .ok ⟨out, pre ++
        (List.range (img.nVectors % BLOCK)).map fun lane =>
          (rows img raw ((firstBlock + i) * BLOCK + lane)).scale⟩ ∧
      BlockHold img.geo.rowBytes (fun lane g => if lane < img.nVectors % BLOCK then
        entry (rows img raw ((firstBlock + i) * BLOCK + lane)).codes g else 0) out := by
  obtain ⟨out, hrun, hout⟩ := @assembleTails_spec img pre hv.tail_len
    hs.tails (img.nVectors % BLOCK) le_rfl
  refine ⟨out, ?_, hout.length_eq, fun lane hl g hg => ?_⟩
  · rw [assembleBlock]
    simp only [if_neg (show ¬ firstBlock + i < img.nVectors / BLOCK by omega), hrun]
    congr 3
    refine List.map_congr_left fun lane hl => ?_
    rw [hb, rows_of_tail (List.mem_range.mp hl)]
  · rw [hout.code lane hl g hg, hb]
    split
    · rename_i hlt
      rw [rows_of_tail hlt]
    · rfl

/-- The rows of a chunk, after its first `j` blocks. -/
structure ChunkTo (img : ParsedImage) (raw : List UInt8) (firstBlock live j : ℕ) (st : Chunk) :
    Prop where
  length_eq : st.codes.length = j * (img.geo.rowBytes * 32)
  code : ∀ i < j, ∀ lane < 32, ∀ g < img.geo.rowBytes,
    entry st.codes (i * (img.geo.rowBytes * 32) + (g * 32 + lane)) =
      if i * 32 + lane < live then entry (rows img raw ((firstBlock + i) * 32 + lane)).codes g else 0
  scales : st.scales = (List.range (min (j * 32) live)).map fun r =>
    (rows img raw (firstBlock * 32 + r)).scale

theorem chunkTo_succ {firstBlock live j : ℕ} {st : Chunk} (h : ChunkTo img raw firstBlock live j st)
    {out : List UInt8} {m : ℕ} (hlen : out.length = img.geo.rowBytes * 32)
    (hlive : min ((j + 1) * 32) live = j * 32 + m) (hfull : j * 32 ≤ live)
    (hm : ∀ lane < 32, lane < m ↔ j * 32 + lane < live)
    (hout : ∀ lane < 32, ∀ g < img.geo.rowBytes, entry out (g * 32 + lane) = if lane < m then
      entry (rows img raw ((firstBlock + j) * 32 + lane)).codes g else 0) :
    ChunkTo img raw firstBlock live (j + 1) ⟨st.codes ++ out, st.scales ++
      (List.range m).map fun lane => (rows img raw ((firstBlock + j) * 32 + lane)).scale⟩ := by
  refine ⟨?_, fun i hi lane hl g hg => ?_, ?_⟩
  · rw [List.length_append, h.length_eq, hlen, Nat.add_mul, Nat.one_mul]
  · have hin : g * 32 + lane < img.geo.rowBytes * 32 := mul_add_lt hg hl
    rcases Nat.lt_succ_iff_lt_or_eq.mp hi with hlt | rfl
    · rw [entry_append_left (by rw [h.length_eq]; exact mul_add_lt hlt hin), h.code i hlt lane hl g hg]
    · rw [entry_append_right (by rw [h.length_eq]; exact Nat.le_add_right _ _), h.length_eq,
        Nat.add_sub_cancel_left, hout lane hl g hg]
      exact if_congr (hm lane hl) rfl rfl
  · simp only
    rw [h.scales, hlive, Nat.min_eq_left hfull, List.range_add, List.map_append, List.map_map]
    refine congrArg _ (List.map_congr_left fun lane _ => ?_)
    rw [Function.comp_apply, Nat.add_mul, Nat.add_assoc]

/-- A chunk of whole blocks holds the rows the mapped image serves. -/
theorem assemble_spec (hv : img.Valid T) (hseq : img.geo.layout ≠ LAYOUT_PLANES)
    (hs : ServedOk img raw) (hfit : img.geo.unitAt (img.nVectors / BLOCK) ≤ raw.length)
    (firstBlock k : ℕ) :
    ∃ c, assemble P img raw (firstBlock * BLOCK) (windowRows img.nVectors firstBlock k) = .ok c ∧
      LanesHold P img.geo.bitWidth img.geo.rowBytes (windowRows img.nVectors firstBlock k)
        (fun r g => entry (rows img raw (firstBlock * 32 + r)).codes g) c.codes ∧
      c.scales = (List.range (windowRows img.nVectors firstBlock k)).map fun r =>
        (rows img raw (firstBlock * 32 + r)).scale := by
  generalize hlive : windowRows img.nVectors firstBlock k = live
  have hle : live ≤ k * 32 ∧ live ≤ img.nVectors - firstBlock * 32 ∧
      (live = k * 32 ∨ live = img.nVectors - firstBlock * 32) := by
    simp only [windowRows] at hlive
    omega
  have hrun : ∀ j ≤ (live + 31) / 32, ∃ st, ChunkTo img raw firstBlock live j st ∧
      (List.range j).foldlM (assembleStep img raw firstBlock) ⟨[], []⟩ = .ok st := by
    intro j hj
    induction j with
    | zero => exact ⟨⟨[], []⟩, ⟨by simp, fun i hi => absurd hi (Nat.not_lt_zero i), by simp⟩, rfl⟩
    | succ j ih =>
      obtain ⟨st, hst, hfold⟩ := ih (by omega)
      have hfull : j * 32 ≤ live := by omega
      have hsc : st.scales.length = j * BLOCK := by
        rw [hst.scales, List.length_map, List.length_range, Nat.min_eq_left hfull, BLOCK]
      have hstep (blk : Chunk) (hblk : assembleBlock img raw firstBlock st.scales j = .ok blk) :
          (List.range (j + 1)).foldlM (assembleStep img raw firstBlock) ⟨[], []⟩ =
            .ok ⟨st.codes ++ blk.codes, blk.scales⟩ := by
        rw [List.range_succ, List.foldlM_append, bind_eq_ok]
        refine ⟨st, hfold, ?_⟩
        rw [List.foldlM_cons, bind_eq_ok]
        exact ⟨_, bind_eq_ok.mpr ⟨blk, hblk, rfl⟩, rfl⟩
      by_cases hb : firstBlock + j < img.nVectors / BLOCK
      · obtain ⟨blk, hblk, hof⟩ := assembleBlock_full hv hseq hs hfit hb hsc
        simp only [BLOCK] at hb
        refine ⟨_, ?_, hstep blk hblk⟩
        rw [hof.scales]
        refine @chunkTo_succ img raw firstBlock live j st hst blk.codes 32 hof.codes.length_eq (by omega)
          hfull (fun lane hl => by omega) fun lane hl g hg => ?_
        rw [if_pos hl]
        exact hof.codes.code lane hl g hg
      · have hb' : firstBlock + j = img.nVectors / BLOCK := by
          simp only [BLOCK] at hb ⊢
          omega
        obtain ⟨out, hblk, hof⟩ := @assembleBlock_tail T img raw st.scales hv hs _ _ hb'
        simp only [BLOCK] at hb'
        refine ⟨_, ?_, hstep _ hblk⟩
        exact chunkTo_succ hst hof.length_eq (by simp only [BLOCK]; omega) hfull
          (fun lane hl => by simp only [BLOCK]; omega) hof.code
  obtain ⟨st, hst, hfold⟩ := hrun _ le_rfl
  have hmin : min ((live + 31) / 32 * 32) live = live := by omega
  have hscales := hst.scales
  rw [hmin] at hscales
  have hlen : st.scales.length = live := by rw [hscales, List.length_map, List.length_range]
  refine ⟨⟨seqIntoNative P st.codes img.geo.bitWidth img.geo.rowBytes, st.scales⟩, ?_, ?_, hscales⟩
  · have hdiv : firstBlock * BLOCK / BLOCK = firstBlock := Nat.mul_div_cancel _ (by decide)
    simp only [assemble, bind_eq_ok, hdiv, hfold, Except.ok.injEq, exists_eq_left', reject_eq_ok,
      List.take_of_length_le hlen.le, hlen, pure, Except.pure]
    exact ⟨(), by simp, trivial⟩
  · refine lanesHold_seqIntoNative ⟨hst.length_eq, fun v hv g hg => ?_⟩
    have hlane : v % 32 < 32 := Nat.mod_lt _ (by decide)
    have hcode := hst.code (v / 32) (by omega) (v % 32) hlane g hg
    have hoff : (v / 32 * img.geo.rowBytes + g) * 32 + v % 32 =
        v / 32 * (img.geo.rowBytes * 32) + (g * 32 + v % 32) := by ring
    rw [hoff, hcode, Nat.div_add_mod', show (firstBlock + v / 32) * 32 + v % 32 = firstBlock * 32 + v by
      omega]

/-! ## What an assembled chunk shows -/

/-- A fold that succeeds has taken each element. -/
theorem exists_of_foldlM {α β : Type} {f : β → α → Except String β} {l : List α} {b b' : β}
    (h : l.foldlM f b = .ok b') {a : α} (ha : a ∈ l) : ∃ s s', f s a = .ok s' := by
  induction l generalizing b with
  | nil => exact absurd ha List.not_mem_nil
  | cons c l ih =>
    rw [List.foldlM_cons, bind_eq_ok] at h
    obtain ⟨s, hs, h⟩ := h
    rcases List.mem_cons.mp ha with rfl | ha
    · exact ⟨b, s, hs⟩
    · exact ih h ha

/-- The blocks of an assembled chunk are assembled. -/
theorem blocks_of_assemble {firstBlock live i : ℕ} {c : Chunk}
    (h : assemble P img raw (firstBlock * BLOCK) live = .ok c) (hi : i < (live + 31) / 32) :
    ∃ pre st, assembleBlock img raw firstBlock pre i = .ok st := by
  simp only [assemble, bind_eq_ok, Nat.mul_div_cancel firstBlock (by decide : 0 < BLOCK)] at h
  obtain ⟨st, hfold, -⟩ := h
  obtain ⟨s, s', hstep⟩ := exists_of_foldlM hfold (List.mem_range.mpr hi)
  simp only [assembleStep, bind_eq_ok] at hstep
  obtain ⟨blk, hblk, -⟩ := hstep
  exact ⟨s.scales, blk, hblk⟩

/-- A whole block is assembled from accepted scales. -/
theorem scales_of_full {firstBlock i : ℕ} {st : Chunk} (h : assembleBlock img raw firstBlock pre i = .ok st)
    (hfit : img.geo.unitAt (img.nVectors / BLOCK) ≤ raw.length) (hb : firstBlock + i < img.nVectors / BLOCK) :
    (∀ lane < BLOCK, validScale
      (unitRows img.geo raw (img.nVectors / BLOCK) ((firstBlock + i) * BLOCK + lane)).scale = true) ∧
    ∀ op ∈ firstOps img (firstBlock + i), validScale (recRow img.geo op.2).scale = true := by
  have hunit : unitOf raw img.geo (firstBlock + i) =
      some (bytesAt raw (img.geo.unitAt (firstBlock + i)) img.geo.unitLen) :=
    slice?_of_le ((img.geo.unitAt_add_le hb).trans hfit)
  simp only [assembleBlock, if_pos hb, bind_eq_ok, orElseError_eq_ok, hunit, Option.some.injEq,
    exists_eq_left', reject_eq_ok] at h
  obtain ⟨_, hall, h⟩ := h
  rw [Bool.not_eq_false', List.all_eq_true] at hall
  constructor
  · intro lane hl
    rw [unitRows_of_lt _ _ (mul_add_lt hb hl), mul_add_div hl, mul_add_mod hl]
    exact hall _ (List.mem_map.mpr ⟨lane, List.mem_range.mpr hl, rfl⟩)
  · intro op hop
    rw [firstOps] at hop
    cases hf : img.ops.find? fun g => g.1 = firstBlock + i with
    | none =>
      rw [hf] at hop
      exact absurd hop List.not_mem_nil
    | some g =>
      rw [hf] at h hop
      obtain ⟨s, s', hstep⟩ := exists_of_foldlM h hop
      simp only [assembleOp, bind_eq_ok, reject_eq_ok, Bool.not_eq_false'] at hstep
      obtain ⟨_, hvalid, -⟩ := hstep
      exact hvalid

/-- The partial last block is assembled from accepted scales. -/
theorem scales_of_tail {firstBlock i : ℕ} {st : Chunk} (h : assembleBlock img raw firstBlock pre i = .ok st)
    (hv : img.Valid T) (hb : ¬ firstBlock + i < img.nVectors / BLOCK) :
    ∀ r ∈ img.tailRows, validScale (recRow img.geo r.2).scale = true := by
  intro r hr
  obtain ⟨k, hk, rfl⟩ := List.mem_map.mp hr
  simp only [assembleBlock, if_neg hb] at h
  obtain ⟨s, s', hstep⟩ := exists_of_foldlM h hk
  have hslice : slice? img.tail (k * img.geo.recLen) img.geo.recLen = some (rowAt img.tail img.geo.recLen k) := by
    refine slice?_of_le ?_
    rw [hv.tail_len, ← Nat.succ_mul]
    exact Nat.mul_le_mul_right _ (List.mem_range.mp hk)
  simp only [assembleTail, bind_eq_ok, orElseError_eq_ok, hslice, Option.some.injEq, exists_eq_left',
    reject_eq_ok, Bool.not_eq_false'] at hstep
  obtain ⟨_, hvalid, -⟩ := hstep
  exact hvalid

/-- An image whose blocks are all assembled serves accepted scales only. -/
theorem servedOk_of_blocks (hv : img.Valid T) (hfit : img.geo.unitAt (img.nVectors / BLOCK) ≤ raw.length)
    (h : ∀ b < (img.nVectors + 31) / 32, ∃ firstBlock i pre st, firstBlock + i = b ∧
      assembleBlock img raw firstBlock pre i = .ok st) : ServedOk img raw := by
  have hfull (b : ℕ) (hb : b < img.nVectors / BLOCK) : (∀ lane < BLOCK, validScale
      (unitRows img.geo raw (img.nVectors / BLOCK) (b * BLOCK + lane)).scale = true) ∧
      ∀ op ∈ firstOps img b, validScale (recRow img.geo op.2).scale = true := by
    obtain ⟨firstBlock, i, pre, st, rfl, hblk⟩ := h b (by simp only [BLOCK] at hb; omega)
    exact scales_of_full hblk hfit hb
  refine ⟨fun v hvn => ?_, fun b hb => (hfull b hb).2, fun r hr => ?_⟩
  · have := (hfull (v / BLOCK) (by simp only [BLOCK] at hvn ⊢; omega)).1 (v % BLOCK) (Nat.mod_lt _ (by decide))
    rwa [Nat.div_add_mod'] at this
  · obtain ⟨k, hk, -⟩ := List.mem_map.mp hr
    have hk := List.mem_range.mp hk
    obtain ⟨firstBlock, i, pre, st, hb, hblk⟩ := h (img.nVectors / BLOCK) (by simp only [BLOCK] at hk ⊢; omega)
    exact scales_of_tail hblk hv (by omega) r hr

/-! ## Against the owned load -/

/-- The chunk of `k` blocks from `firstBlock` has the code bytes and scales a load has for its rows. -/
def ChunkAgrees (P : Platform) (img : ParsedImage) (raw : List UInt8) (l : V7Load)
    (firstBlock k : ℕ) : Prop :=
  ∃ c, assemble P img raw (firstBlock * BLOCK) (windowRows img.nVectors firstBlock k) = .ok c ∧
    (∀ r < windowRows img.nVectors firstBlock k, ∀ g < img.geo.rowBytes,
      laneCode P c.codes img.geo.bitWidth img.geo.rowBytes r g =
        entry l.seqBlocked (((firstBlock * 32 + r) / 32 * img.geo.rowBytes + g) * 32 +
          (firstBlock * 32 + r) % 32)) ∧
    c.scales = (l.scales.drop (firstBlock * BLOCK)).take (windowRows img.nVectors firstBlock k)

theorem openImage_ok (h : openImage T raw = .ok img) :
    parseImage T raw 0 = .ok img ∧ img.geo.layout ≠ LAYOUT_PLANES := by
  simp only [openImage, bind_eq_ok, reject_eq_ok, pure, Except.pure, Except.ok.injEq] at h
  obtain ⟨img', himg, _, -, _, hlayout, rfl⟩ := h
  refine ⟨himg, fun hpl => ?_⟩
  rw [hpl] at hlayout
  exact absurd hlayout (by decide)

/-- Every chunk agrees with the load exactly when every row has one code row and one scale. -/
theorem chunksAgree_iff {l : V7Load} {expectCalibGen : ℕ} (hv : img.Valid T)
    (hseq : img.geo.layout ≠ LAYOUT_PLANES) (hs : ScalesOk img raw)
    (hfit : img.geo.unitAt (img.nVectors / BLOCK) ≤ raw.length)
    (hl : Loaded img (img.rows raw) expectCalibGen l) :
    (∀ firstBlock k, ChunkAgrees P img raw l firstBlock k) ↔ ∀ v < img.nVectors,
      (∀ g < img.geo.rowBytes, entry (rows img raw v).codes g = entry (img.rows raw v).codes g) ∧
        (rows img raw v).scale = (img.rows raw v).scale := by
  obtain ⟨hcodes, -, -⟩ := hl.seq hseq
  have hload (v g : ℕ) (hv : v < img.nVectors) (hg : g < img.geo.rowBytes) :
      entry l.seqBlocked ((v / 32 * img.geo.rowBytes + g) * 32 + v % 32) =
        entry (img.rows raw v).codes g := by
    rw [hcodes.code v (by omega) g hg, if_pos hv]
  have hscale (fb k : ℕ) :
      (l.scales.drop (fb * BLOCK)).take (windowRows img.nVectors fb k) =
        (List.range (windowRows img.nVectors fb k)).map fun r => (img.rows raw (fb * 32 + r)).scale := by
    refine List.ext_getElem? fun r => ?_
    by_cases hr : r < windowRows img.nVectors fb k
    · have := windowRows_lt hr
      rw [List.getElem?_take_of_lt hr, List.getElem?_drop, hl.scales, List.getElem?_map,
        List.getElem?_range (by simpa [BLOCK] using this), List.getElem?_map, List.getElem?_range hr]
      rfl
    · rw [List.getElem?_eq_none (by rw [List.length_take]; omega),
        List.getElem?_eq_none (by rw [List.length_map, List.length_range]; omega)]
  constructor
  · intro h v hvn
    have hlane : v % 32 < 32 := Nat.mod_lt _ (by decide)
    have hv' : v / 32 * 32 + v % 32 = v := Nat.div_add_mod' _ _
    have hr : v % 32 < windowRows img.nVectors (v / 32) 1 := by
      simp only [windowRows]
      omega
    obtain ⟨c, hc, hcc, hcs⟩ := h (v / 32) 1
    obtain ⟨c', hc', hlanes, hsc⟩ := @assemble_spec T P img raw hv hseq (servedOk_of_scalesOk hs) hfit (v / 32) 1
    obtain rfl := Except.ok.inj (hc.symm.trans hc')
    refine ⟨fun g hg => ?_, ?_⟩
    · have := hlanes.code (v % 32) g hg
      rw [if_pos hr, hcc _ hr g hg, hv', hload v g hvn hg] at this
      exact this.symm
    · have := congrArg (·[v % 32]?) ((hsc.symm.trans hcs).trans (hscale _ _))
      simp only [List.getElem?_map, List.getElem?_range hr, Option.map_some, Option.some.injEq,
        hv'] at this
      exact this
  · intro h fb k
    obtain ⟨c, hc, hlanes, hsc⟩ := @assemble_spec T P img raw hv hseq (servedOk_of_scalesOk hs) hfit fb k
    refine ⟨c, hc, fun r hr g hg => ?_, ?_⟩
    · have hrow := windowRows_lt hr
      rw [hlanes.code r g hg, if_pos hr, hload _ _ hrow hg, (h _ hrow).1 g hg]
    · rw [hsc, hscale]
      exact List.map_congr_left fun r hr => (h _ (windowRows_lt (List.mem_range.mp hr))).2

/-- For each row of a whole block that a redo op names, the last op naming it says what the first group
of its block leaves there. -/
def FirstGroupsDecide (img : ParsedImage) (raw : List UInt8) : Prop :=
  ∀ v < img.nVectors / BLOCK * BLOCK, ∀ r, lastRec img.flatOps v = some r →
    let own := (lastRec (firstOps img (v / BLOCK)) v).elim
      (unitRow img.geo (bytesAt raw (img.geo.unitAt (v / BLOCK)) img.geo.unitLen) (v % BLOCK))
      (recRow img.geo)
    (∀ g < img.geo.rowBytes, entry own.codes g = entry (recRow img.geo r).codes g) ∧
      own.scale = (recRow img.geo r).scale

theorem rows_agree_iff (img : ParsedImage) (raw : List UInt8) :
    (∀ v < img.nVectors,
      (∀ g < img.geo.rowBytes, entry (rows img raw v).codes g = entry (img.rows raw v).codes g) ∧
        (rows img raw v).scale = (img.rows raw v).scale) ↔ FirstGroupsDecide img raw := by
  have hn := Nat.div_add_mod' img.nVectors BLOCK
  have hfull (v : ℕ) (hv : v < img.nVectors / BLOCK * BLOCK) :
      rows img raw v = (lastRec (firstOps img (v / BLOCK)) v).elim
          (unitRow img.geo (bytesAt raw (img.geo.unitAt (v / BLOCK)) img.geo.unitLen) (v % BLOCK))
          (recRow img.geo) ∧
        img.rows raw v = (lastRec img.flatOps v).elim
          (unitRow img.geo (bytesAt raw (img.geo.unitAt (v / BLOCK)) img.geo.unitLen) (v % BLOCK))
          (recRow img.geo) := by
    rw [rows, ParsedImage.rows, writeRows_apply, writeRows_apply, lastRec_append, lastRec_append,
      lastRec_tailRows, if_neg (by omega), Option.none_or, Option.none_or, unitRows_of_lt _ _ hv]
    exact ⟨rfl, rfl⟩
  constructor
  · intro h v hv r hr
    have hrow := h v (by omega)
    rw [(hfull v hv).1, (hfull v hv).2, hr] at hrow
    exact hrow
  · intro h v hvn
    by_cases hv : v < img.nVectors / BLOCK * BLOCK
    · rw [(hfull v hv).1, (hfull v hv).2]
      cases hr : lastRec img.flatOps v with
      | some r => exact h v hv r hr
      | none =>
        -- the first group is one of the groups
        have hfirst : lastRec (firstOps img (v / BLOCK)) v = none := by
          rw [lastRec_eq_none] at hr ⊢
          intro op hop
          obtain ⟨g, hg, -, hop⟩ := mem_firstOps hop
          exact hr op (List.mem_flatMap.mpr ⟨g, hg, hop⟩)
        rw [hfirst]
        exact ⟨fun _ _ => rfl, rfl⟩
    · have htail : lastRec img.tailRows v = some
          (rowAt img.tail img.geo.recLen (v - img.nVectors / BLOCK * BLOCK)) := by
        rw [lastRec_tailRows, if_pos ⟨not_lt.mp hv, hvn⟩]
      rw [rows, ParsedImage.rows, writeRows_apply, writeRows_apply, lastRec_append, lastRec_append,
        htail]
      exact ⟨fun _ _ => rfl, rfl⟩

/-- Of an image both loaders take, the mapped chunks agree with the load exactly when the first group
naming each block decides its rows. -/
theorem chunks_agree_iff_firstGroupsDecide {l : V7Load} {expectCalibGen : ℕ}
    (hopen : openImage T raw = .ok img) (hload : loadImage T raw expectCalibGen 0 = .ok l) :
    (∀ firstBlock k, ChunkAgrees P img raw l firstBlock k) ↔ FirstGroupsDecide img raw := by
  obtain ⟨himg, hseq⟩ := openImage_ok hopen
  obtain ⟨img', himg', hs, hl⟩ := loadImage_ok hload
  obtain rfl := Except.ok.inj (himg.symm.trans himg')
  obtain ⟨hv, -, hfit⟩ := parseImage_ok himg
  rw [chunksAgree_iff hv hseq hs hfit hl, rows_agree_iff]

end Blocks

/-! ## Two groups naming one block -/

section Split

/-- The blank source with other rows in its records. -/
def onesSource : SyncSource := { blankSource 32 with rowCodes := fun _ => [1, 1] }

/-- The header's groups: block 0 twice, one lane each. -/
def splitOps : List (ℕ × List ℕ) := [(0, [0]), (0, [1])]

def splitHeader : List UInt8 := headerSlot onesSource 0 32 splitOps ⟨[], (0, 0), deltaDigest 0 []⟩

/-- One unit of zero rows under a header that rewrites two of them, in two groups. -/
def splitImage : List UInt8 :=
  layoutImage (blankSource 32).geo (superblock (blankSource 32) 0) splitHeader 1
    (unitBytes (blankSource 32))

def splitParsed : ParsedImage :=
  ⟨(blankSource 32).geo, 0, 0, 32, [], [], [], wireGroups onesSource splitOps, wireSlots splitOps⟩

theorem onesSource_tail : TailFits onesSource 32 := fun _ h => absurd h (Nat.not_lt_zero _)

theorem onesSource_ops : OpsFit onesSource 32 splitOps where
  groups_le := by decide
  block_lt := by decide
  count_lt := by decide
  recs _ _ _ _ := length_recBytes (blankSource_ids 32) (blankSource_rowBytes 32).symm

theorem length_splitHeader : splitHeader.length ≤ (blankSource 32).geo.hdrLen := by
  have h0 : ∀ g ∈ splitOps, (groupBytes onesSource g).length = 12 := fun g hg => by
    rcases List.mem_cons.mp hg with rfl | hg
    · rfl
    · rw [List.mem_singleton.mp hg]
      rfl
  rw [splitHeader, headerSlot, List.length_append, length_headerBody onesSource_tail, u32Bytes,
    length_leBytes, length_flatMap_const h0]
  decide

theorem holds_splitImage :
    splitImage.length = (blankSource 32).geo.unitAt 1 ∧
      Holds splitImage 0 (superblock (blankSource 32) 0) ∧
      Holds splitImage ((blankSource 32).geo.hdrAt 0) splitHeader ∧
      Holds splitImage ((blankSource 32).geo.hdrAt 1) (List.replicate (blankSource 32).geo.hdrLen 0) ∧
      ∀ b < 1, Holds splitImage ((blankSource 32).geo.unitAt b) (unitBytes (blankSource 32) b) :=
  holds_layoutImage (length_superblock (blankSource_ok 32).shaped) length_splitHeader fun _ _ =>
    length_unitBytes (blankSource_ids 32) rfl

theorem parse_splitImage : parseImage blankTables splitImage 0 = .ok splitParsed := by
  obtain ⟨hlen, hsb, hh, hz, -⟩ := holds_splitImage
  have h1 := (blankSource 32).geo.hdrAt_one
  have h2 := (blankSource 32).geo.hdrAt_two
  have h21 : (blankSource 32).geo.hdrAt 2 ≤ splitImage.length := by
    rw [hlen, ← Geo.unitAt_zero]
    exact Geo.unitAt_mono _ (Nat.zero_le 1)
  have hgeo : onesSource.geo = (blankSource 32).geo := rfl
  have hroom : onesSource.geo.hdrAt 0 + onesSource.geo.hdrLen ≤ splitImage.length := by
    rw [hgeo]
    omega
  have hused : splitHeader.length ≤ onesSource.geo.hdrLen := hgeo ▸ length_splitHeader
  have hfit : onesSource.geo.unitAt (32 / BLOCK) ≤ splitImage.length := by
    rw [hlen, hgeo, show 32 / BLOCK = 1 from rfl]
  have hslot : Holds splitImage (onesSource.geo.hdrAt 0) splitHeader := hgeo ▸ hh
  have hmat : (⟨[], (0, 0), deltaDigest 0 []⟩ : Delta).mat.length ≤ MAX_OPS := Nat.zero_le _
  obtain ⟨hdr, hparse, hsaid⟩ := @parseHeaderSlot_of_holds onesSource splitImage 0 32 0
    splitImage.length splitOps ⟨[], (0, 0), deltaDigest 0 []⟩ hslot hroom hused (by decide) rfl
    (by decide) hfit onesSource_ops onesSource_tail hmat
  have hsuper : parseSuperblock blankTables splitImage 0 = .ok ⟨(blankSource 32).geo, 0, [], []⟩ :=
    @parseSuperblock_of_holds _ (blankSource 32) splitImage 0 (blankSource_ok 32) (by decide) hsb h21
  have hchoose : chooseHeader splitImage onesSource.geo = some hdr :=
    chooseHeader_of_only hparse (parseHeaderSlot_zeros hz) (deltaOk_empty hsaid)
  have himg := @parseImage_of_header blankTables onesSource splitImage _ 0 0 32 _ splitOps _ hdr hsuper
    rfl hchoose hsaid onesSource_tail hslot fun h => absurd h (by decide : (8 : ℕ) ≠ 0)
  have htail : tailBytes onesSource 32 = [] := rfl
  rw [htail] at himg
  exact himg

theorem splitImage_unit {v : ℕ} (hv : v < 32) :
    unitRows splitParsed.geo splitImage (splitParsed.nVectors / BLOCK) v =
      unitRow (blankSource 32).geo (unitBytes (blankSource 32) 0) v := by
  obtain ⟨-, -, -, -, hu⟩ := holds_splitImage
  have hlen : (unitBytes (blankSource 32) 0).length = (blankSource 32).geo.unitLen :=
    length_unitBytes (blankSource_ids 32) rfl
  have hbytes := (slice?_eq_some.mp (hu 0 (by decide))).2
  rw [hlen] at hbytes
  have hdiv : v / BLOCK = 0 := Nat.div_eq_of_lt hv
  have hmod : v % BLOCK = v := Nat.mod_eq_of_lt hv
  rw [unitRows_of_lt _ _ (show v < splitParsed.nVectors / BLOCK * BLOCK from hv), hdiv, hmod]
  exact congrArg (unitRow (blankSource 32).geo · v) hbytes

theorem onesSource_row (s : ℕ) : recRow onesSource.geo (recBytes onesSource s) = onesSource.row s :=
  @recRow_recBytes onesSource (blankSource_ids 32) s (blankSource_rowBytes 32).symm

theorem splitImage_scales : ScalesOk splitParsed splitImage := by
  have hzero (s : ℕ) : entry (List.replicate 32 (0 : F32)) s = 0 := entry_replicate_zero _ _
  refine ⟨fun v hv => ?_, fun r hr => ?_⟩
  · have hv : v < 32 := hv
    rw [splitImage_unit hv, unitRow_unitBytes (blankSource_ids 32) rfl hv (by rwa [Nat.zero_mul, Nat.zero_add])]
    show validScale (entry (List.replicate 32 (0 : F32)) (0 * BLOCK + v)) = true
    rw [hzero]
    rfl
  · have hr : r ∈ [(0, recBytes onesSource 0), (1, recBytes onesSource 1)] := hr
    have hs : ∃ s, r.2 = recBytes onesSource s := by
      rcases List.mem_cons.mp hr with rfl | hr
      · exact ⟨0, rfl⟩
      · rw [List.mem_singleton.mp hr]
        exact ⟨1, rfl⟩
    obtain ⟨s, hs⟩ := hs
    rw [hs]
    show validScale (recRow onesSource.geo (recBytes onesSource s)).scale = true
    rw [onesSource_row]
    show validScale (entry (List.replicate 32 (0 : F32)) s) = true
    rw [hzero]
    rfl

/-- Row 1 of the split image: ones when loaded, zeros when mapped. -/
theorem splitImage_rows : entry (splitParsed.rows splitImage 1).codes 0 = 1 ∧
    entry (rows splitParsed splitImage 1).codes 0 = 0 := by
  constructor
  · have hrec : lastRec (splitParsed.flatOps ++ splitParsed.tailRows) 1 =
        some (recBytes onesSource 1) := rfl
    rw [ParsedImage.rows, writeRows_apply, hrec]
    show entry (recRow onesSource.geo (recBytes onesSource 1)).codes 0 = 1
    rw [onesSource_row]
    rfl
  · have hrec : lastRec (firstOps splitParsed (1 / BLOCK) ++ splitParsed.tailRows) 1 = none := rfl
    rw [rows, writeRows_apply, hrec]
    show entry (unitRows splitParsed.geo splitImage (splitParsed.nVectors / BLOCK) 1).codes 0 = 0
    rw [splitImage_unit (by decide)]
    show entry (seqLane (unitBytes (blankSource 32) 0) (blankSource 32).geo.rowBytes 1) 0 = 0
    rw [blankSource_rowBytes, entry_seqLane _ _ (by decide)]
    rfl

theorem open_splitImage : openImage blankTables splitImage = .ok splitParsed := by
  rw [openImage, parse_splitImage]
  rfl

theorem load_splitImage (expectCalibGen : ℕ) : ∃ l, loadImage blankTables splitImage expectCalibGen 0 = .ok l ∧
    Loaded splitParsed (splitParsed.rows splitImage) expectCalibGen l := by
  obtain ⟨l, hl, hrun⟩ :=
    @loadImage_spec blankTables splitImage splitParsed expectCalibGen 0 parse_splitImage
  exact ⟨l, (hrun l).mpr ⟨splitImage_scales, rfl⟩, hl⟩

theorem splitImage_chunks_agree_iff : ∃ l, loadImage blankTables splitImage 0 0 = .ok l ∧
    ((∀ firstBlock k, ChunkAgrees ⟨.other, false, false, false, false, false, false⟩ splitParsed
      splitImage l firstBlock k) ↔ FirstGroupsDecide splitParsed splitImage) := by
  obtain ⟨l, hl, -⟩ := load_splitImage 0
  exact ⟨l, hl, chunks_agree_iff_firstGroupsDecide open_splitImage hl⟩

/-- A mapped image need not serve the rows its owned load has. -/
theorem not_chunks_agree : ¬ ∀ (T : Tables) (P : Platform) (raw : List UInt8) (img : ParsedImage)
    (l : V7Load) (expectCalibGen : ℕ), openImage T raw = .ok img →
      loadImage T raw expectCalibGen 0 = .ok l → ∀ firstBlock k, ChunkAgrees P img raw l firstBlock k := by
  intro h
  obtain ⟨l, hload, hl⟩ := load_splitImage 0
  obtain ⟨hv, -, hfit⟩ := parseImage_ok parse_splitImage
  have hagree := h blankTables ⟨.other, false, false, false, false, false, false⟩ splitImage splitParsed l 0
    open_splitImage hload
  have hrows := (chunksAgree_iff hv (openImage_ok open_splitImage).2 splitImage_scales hfit hl).mp hagree
    1 (by decide)
  have hcode := hrows.1 0 (by decide)
  rw [splitImage_rows.1, splitImage_rows.2] at hcode
  exact absurd hcode (by decide)

end Split

end Turbovec.Mapped
