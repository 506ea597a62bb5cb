import Turbovec.Index.Derived
import Turbovec.Index.Written
import Turbovec.Lib.Panic
import Turbovec.Mapped

/-!
# Reading stored rows

`stored_rows` copies a range of rows out of whichever layout the index holds, a block at a time. It reads a block of
the two planes regions at the width the regions have at two bits.
-/

namespace Turbovec

open Pack IoV7 Slice Grid Panic Mapped

inductive StoredRowsError
  | rangeOutOfBounds (stop nVectors : ℕ)
  | noRepresentation
deriving DecidableEq, Repr

/-! ## Definitions -/

def STREAM_CHUNK_ROWS : ℕ := 8192

/-- `l[start..stop]` -/
def sliceRange {α : Type} (l : List α) (start stop : ℕ) : Run StoredRowsError (List α) :=
  if start ≤ stop ∧ stop ≤ l.length then .ok ((l.drop start).take (stop - start)) else .panic

/-- `planes_to_seq`, which reads the low row of every vector and, in the sign region, the slot of every byte group. At
four bits it takes the region block by block. -/
def planesToSeqRun (P : Platform) (sign low : List UInt8) (bits nbg n : ℕ) : Run StoredRowsError (List UInt8) :=
  let (nsg, lowRow) := planesGeom bits nbg
  if n * lowRow ≤ low.length ∧ (bits = 4 → (n + 31) / 32 * (nsg * BLOCK) ≤ sign.length) ∧
      ∀ v < n, ∀ g < nsg, v / BLOCK * (nsg * BLOCK) + planesSlot P g (v % BLOCK) <
        if bits = 4 then (v / BLOCK + 1) * (nsg * BLOCK) else sign.length then
    .ok (planesToSeq P sign low bits nbg n)
  else .panic

namespace TurboQuantIndex

section variable (P : Platform) (mapped : Option (ℕ → ℕ → Except String Chunk)) (x : TurboQuantIndex) (dim : ℕ)

/-- The sequential code bytes of a block, and the scales of its rows from `lo` to `hi`. -/
def storedBlock (block lo hi : ℕ) : Run StoredRowsError (List UInt8 × List F32) := do
  let nbg := (blockedGeometry x.nVectors x.bitWidth dim).2.1
  let blockBytes := nbg * BLOCK
  let base := block * BLOCK
  let blockRows := min BLOCK (x.nVectors - base)
  match mapped, x.blocked with
  | some assemble, _ =>
    match assemble base blockRows with
    | .error _ => .err .noRepresentation
    | .ok chunk => do
      let scales ← sliceRange chunk.scales (lo - base) (hi - base)
      let codes ← sliceRange chunk.codes 0 blockBytes
      return (nativeToSeq P codes x.bitWidth nbg, scales)
  | none, some cache => do
    let scales ← sliceRange x.scales lo hi
    if cache.isPlanes then
      -- half of a block and half of a row: the regions' widths at two bits
      let half := nbg / 2
      let sign ← sliceRange cache.data (base * half) ((base + BLOCK) * half)
      let low ← sliceRange cache.low (base * half) ((base + blockRows) * half)
      let seq ← planesToSeqRun P sign low x.bitWidth nbg blockRows
      return (seq, scales)
    else
      let codes ← sliceRange cache.data (block * blockBytes) (block * blockBytes + blockBytes)
      return (nativeToSeq P codes x.bitWidth nbg, scales)
  | none, none => .err .noRepresentation

/-- One turn of the loop over the blocks. -/
def storedStep (start stop : ℕ) (st : List UInt8 × List F32) (block : ℕ) :
    Run StoredRowsError (List UInt8 × List F32) := do
  let bytesPerRow := x.bitWidth * dim / 8
  let blockRows := min BLOCK (x.nVectors - block * BLOCK)
  let lo := max start (block * BLOCK)
  let hi := min stop (block * BLOCK + blockRows)
  let (seq, scales) ← storedBlock P mapped x dim block lo hi
  let packed := seqToPacked seq blockRows x.bitWidth dim
  let codes ← sliceRange packed ((lo - block * BLOCK) * bytesPerRow) ((hi - block * BLOCK) * bytesPerRow)
  return (st.1 ++ codes, st.2 ++ scales)

/-- `stored_rows` of an index, or of the mapped image that assembles chunks so. -/
def storedRows (start stop : ℕ) : Run StoredRowsError (List UInt8 × List F32) :=
  if stop > x.nVectors ∨ start > stop then .err (.rangeOutOfBounds stop x.nVectors)
  else if ¬start < stop then .ok ([], [])
  else match x.dim with
    | none => .err .noRepresentation
    | some dim =>
      match x.packedCodes, mapped with
      | some packed, none => do
        let codes ← sliceRange packed (start * (x.bitWidth * dim / 8)) (stop * (x.bitWidth * dim / 8))
        let scales ← sliceRange x.scales start stop
        return (codes, scales)
      | _, _ => (List.range' (start / BLOCK) ((stop + 31) / 32 - start / BLOCK)).foldlM
          (storedStep P mapped x dim start stop) ([], [])

/-- One chunk of `blocked_materialized`; it panics on a chunk that is refused. -/
def materializeStep (assemble : ℕ → ℕ → Except String Chunk) (st : List UInt8 × List F32) (i : ℕ) :
    Run StoredRowsError (List UInt8 × List F32) :=
  let base := i * STREAM_CHUNK_ROWS
  let live := min STREAM_CHUNK_ROWS (x.nVectors - base)
  match assemble base live with
  | .error _ => .panic
  | .ok chunk => do
    let blockBytes := (blockedGeometry x.nVectors x.bitWidth dim).2.1 * BLOCK
    let codes ← sliceRange chunk.codes 0 ((blockedGeometry live x.bitWidth dim).1 * blockBytes)
    let scales ← sliceRange chunk.scales 0 live
    return (st.1 ++ codes, st.2 ++ scales)

/-- `blocked_materialized`: the code bytes of a mapped image and its scales, every chunk assembled once. -/
def blockedMaterialized (assemble : ℕ → ℕ → Except String Chunk) : Run StoredRowsError (List UInt8 × List F32) :=
  (List.range ((x.nVectors + STREAM_CHUNK_ROWS - 1) / STREAM_CHUNK_ROWS)).foldlM (materializeStep x dim assemble) ([], [])

/-- `packed_codes` and `scales` of a mapped image. -/
def mappedRows (assemble : ℕ → ℕ → Except String Chunk) : Run StoredRowsError (List UInt8 × List F32) :=
  match x.dim with
  | none => .ok ([], [])
  | some dim =>
    if x.nVectors = 0 then .ok ([], [])
    else do
      let (data, scales) ← blockedMaterialized x dim assemble
      let seq := nativeToSeq P data x.bitWidth (blockedGeometry x.nVectors x.bitWidth dim).2.1
      return (seqToPacked seq x.nVectors x.bitWidth dim, scales)

/-- Rows `start` to `stop` of the packed code bytes, and their scales. -/
def rowRange (packed : List UInt8) (scales : List F32) (start stop : ℕ) : List UInt8 × List F32 :=
  let bytesPerRow := x.bitWidth * x.dim.getD 0 / 8
  ((packed.drop (start * bytesPerRow)).take ((stop - start) * bytesPerRow), (scales.drop start).take (stop - start))

end

end TurboQuantIndex

/-! ## Ranges -/

theorem sliceRange_ok {α : Type} {l : List α} {start stop : ℕ} (h : start ≤ stop) (hl : stop ≤ l.length) :
    sliceRange l start stop = .ok ((l.drop start).take (stop - start)) := if_pos ⟨h, hl⟩

/-- The rows of `m` from `start` to `stop`. -/
theorem sliceRange_flatMap {m w start stop : ℕ} {f : ℕ → List UInt8} (hf : ∀ v < m, (f v).length = w) (h : start ≤ stop)
    (hm : stop ≤ m) : sliceRange ((List.range m).flatMap f) (start * w) (stop * w) =
      .ok ((List.range (stop - start)).flatMap fun v => f (start + v)) := by
  have hlen : ((List.range m).flatMap f).length = m * w := length_flatMap_range hf
  rw [sliceRange_ok (Nat.mul_le_mul_right w h) (by rw [hlen]; exact Nat.mul_le_mul_right w hm), ← Nat.sub_mul,
    drop_take_flatMap_range hf (by omega)]

theorem sliceRange_map {α : Type} {m start stop : ℕ} {f : ℕ → α} (h : start ≤ stop) (hm : stop ≤ m) :
    sliceRange ((List.range m).map f) start stop = .ok ((List.range (stop - start)).map fun v => f (start + v)) := by
  have hlen : ((List.range m).map f).length = m := by rw [List.length_map, List.length_range]
  rw [sliceRange_ok h (by rw [hlen]; exact hm)]
  refine congrArg _ (List.ext_getElem? fun i => ?_)
  by_cases hi : i < stop - start
  · rw [List.getElem?_take_of_lt hi, List.getElem?_drop, List.getElem?_map, List.getElem?_map,
      List.getElem?_range (by omega), List.getElem?_range hi]
    rfl
  · rw [List.getElem?_eq_none (by rw [List.length_take]; omega),
      List.getElem?_eq_none (by rw [List.length_map, List.length_range]; omega)]

/-! ## The loop -/

section loop

variable {P : Platform} {mapped : Option (ℕ → ℕ → Except String Chunk)} {x : TurboQuantIndex} {dim start stop : ℕ}

/-- The block of `block`: its rows and their scales. -/
def BlockReads (P : Platform) (mapped : Option (ℕ → ℕ → Except String Chunk)) (x : TurboQuantIndex) (dim : ℕ)
    (f : ℕ → List UInt8) (s : ℕ → F32) (block : ℕ) : Prop :=
  ∀ lo hi, block * BLOCK ≤ lo → lo ≤ hi → hi ≤ block * BLOCK + min BLOCK (x.nVectors - block * BLOCK) →
    ∃ seq, x.storedBlock P mapped dim block lo hi = .ok (seq, (List.range (hi - lo)).map fun v => s (lo + v)) ∧
      seqToPacked seq (min BLOCK (x.nVectors - block * BLOCK)) x.bitWidth dim =
        (List.range (min BLOCK (x.nVectors - block * BLOCK))).flatMap fun v => f (block * BLOCK + v)

/-- A turn over a block that reads as the rows `f` appends the block's rows of the range. -/
theorem storedStep_reads {f : ℕ → List UInt8} {s : ℕ → F32} {b : ℕ}
    (hw : ∀ v < x.nVectors, (f v).length = x.bitWidth * dim / 8) (hstop : stop ≤ x.nVectors)
    (hlohi : max start (b * BLOCK) ≤ min stop ((b + 1) * BLOCK)) (hbs : b * BLOCK < stop)
    (hblock : BlockReads P mapped x dim f s b) (st : List UInt8 × List F32) :
    x.storedStep P mapped dim start stop st b =
      .ok (st.1 ++ (List.range (min stop ((b + 1) * BLOCK) - max start (b * BLOCK))).flatMap
          fun v => f (max start (b * BLOCK) + v),
        st.2 ++ (List.range (min stop ((b + 1) * BLOCK) - max start (b * BLOCK))).map
          fun v => s (max start (b * BLOCK) + v)) := by
  have hhi : min stop (b * BLOCK + min BLOCK (x.nVectors - b * BLOCK)) = min stop ((b + 1) * BLOCK) := by
    simp only [BLOCK] at hbs ⊢
    omega
  obtain ⟨seq, hread, hpacked⟩ := hblock (max start (b * BLOCK))
    (min stop (b * BLOCK + min BLOCK (x.nVectors - b * BLOCK))) (le_max_right _ _) (by rw [hhi]; exact hlohi)
    (min_le_right _ _)
  -- the cut is of the block's rows, counted from its first
  have hcodes := @sliceRange_flatMap (min BLOCK (x.nVectors - b * BLOCK)) (x.bitWidth * dim / 8)
    (max start (b * BLOCK) - b * BLOCK) (min stop ((b + 1) * BLOCK) - b * BLOCK) (fun v => f (b * BLOCK + v))
    (fun v hv => hw _ (by omega)) (by omega) (by simp only [BLOCK] at hbs ⊢; omega)
  have hshift : (List.range (min stop ((b + 1) * BLOCK) - b * BLOCK - (max start (b * BLOCK) - b * BLOCK))).flatMap
      (fun v => f (b * BLOCK + (max start (b * BLOCK) - b * BLOCK + v))) =
      (List.range (min stop ((b + 1) * BLOCK) - max start (b * BLOCK))).flatMap
        fun v => f (max start (b * BLOCK) + v) := by
    have hn : min stop ((b + 1) * BLOCK) - b * BLOCK - (max start (b * BLOCK) - b * BLOCK) =
        min stop ((b + 1) * BLOCK) - max start (b * BLOCK) := by omega
    rw [hn]
    refine List.flatMap_congr fun v _ => ?_
    rw [show b * BLOCK + (max start (b * BLOCK) - b * BLOCK + v) = max start (b * BLOCK) + v by omega]
  rw [TurboQuantIndex.storedStep]
  dsimp only
  rw [hread, Run.ok_bind]
  dsimp only
  rw [hpacked, hhi, hcodes, hshift]
  rfl

/-- The loop over blocks that read as the rows `f` collects the rows. -/
theorem storedLoop {f : ℕ → List UInt8} {s : ℕ → F32} (hw : ∀ v < x.nVectors, (f v).length = x.bitWidth * dim / 8)
    (hstart : start < stop) (hstop : stop ≤ x.nVectors)
    (hblock : ∀ block, block * BLOCK < stop → BlockReads P mapped x dim f s block) :
    (List.range' (start / BLOCK) ((stop + 31) / 32 - start / BLOCK)).foldlM (x.storedStep P mapped dim start stop)
      ([], []) = .ok ((List.range (stop - start)).flatMap fun v => f (start + v),
        (List.range (stop - start)).map fun v => s (start + v)) := by
  -- the rows up to a block's end are there after its turn
  have hturn : ∀ j ≤ (stop + 31) / 32 - start / BLOCK,
      (List.range' (start / BLOCK) j).foldlM (x.storedStep P mapped dim start stop) ([], []) =
        .ok ((List.range (min stop ((start / BLOCK + j) * BLOCK) - start)).flatMap fun v => f (start + v),
          (List.range (min stop ((start / BLOCK + j) * BLOCK) - start)).map fun v => s (start + v)) := by
    intro j hj
    induction j with
    | zero =>
      have hzero : min stop ((start / BLOCK + 0) * BLOCK) - start = 0 := by
        simp only [BLOCK]
        omega
      rw [hzero]
      rfl
    | succ j ih =>
      generalize hb : start / BLOCK + j = b at *
      have hbs : b * BLOCK < stop := by
        simp only [BLOCK] at hb hj ⊢
        omega
      have hle : start ≤ min stop ((b + 1) * BLOCK) := by
        simp only [BLOCK] at hb ⊢
        omega
      have hlo : max start (b * BLOCK) = start + (min stop (b * BLOCK) - start) := by omega
      have hlohi : max start (b * BLOCK) ≤ min stop ((b + 1) * BLOCK) := by
        simp only [BLOCK] at hle hbs ⊢
        omega
      have hsum : min stop ((b + 1) * BLOCK) - start =
          (min stop (b * BLOCK) - start) + (min stop ((b + 1) * BLOCK) - max start (b * BLOCK)) := by omega
      rw [List.range'_concat, List.foldlM_append, ih (by omega), Run.ok_bind, Nat.one_mul, hb]
      show x.storedStep P mapped dim start stop _ b >>= pure = _
      rw [storedStep_reads hw hstop hlohi hbs (hblock b hbs), show start / BLOCK + (j + 1) = b + 1 by omega, hsum,
        List.range_add, List.flatMap_append, List.map_append, List.flatMap_map, List.map_map, hlo]
      simp only [Run.ok_bind, Run.pure_eq, Nat.add_assoc, Function.comp_def]
  have hall := hturn _ le_rfl
  have hend : min stop ((start / BLOCK + ((stop + 31) / 32 - start / BLOCK)) * BLOCK) = stop := by
    simp only [BLOCK]
    omega
  rw [hend] at hall
  exact hall

end loop

/-! ## Blocks of the owned cache -/

theorem sliceRange_getD {α : Type} {l : List α} {start stop : ℕ} (h : start ≤ stop) (hl : stop ≤ l.length) (a : α) :
    sliceRange l start stop = .ok ((List.range (stop - start)).map fun v => l.getD (start + v) a) := by
  have hmap : (List.range l.length).map (fun v => l.getD v a) = l := by
    refine List.ext_getElem? fun i => ?_
    rw [List.getElem?_map]
    by_cases hi : i < l.length
    · rw [List.getElem?_range hi, Option.map_some, List.getD_eq_getElem?_getD, List.getElem?_eq_getElem hi,
        Option.getD_some]
    · rw [List.getElem?_eq_none (by rw [List.length_range]; omega), List.getElem?_eq_none (by omega)]
      rfl
  conv_lhs => rw [← hmap]
  exact sliceRange_map h hl

section owned

variable {P : Platform} {x : TurboQuantIndex} {d block : ℕ} {cache : BlockedCache} {f : ℕ → List UInt8}

theorem windowRows_one (n block : ℕ) : windowRows n block 1 = min BLOCK (n - block * BLOCK) := by
  rw [windowRows, Nat.one_mul, BLOCK]

/-- No read of the two regions leaves them. -/
theorem planesToSeqRun_ok {bits dim n : ℕ} {sign low : List UInt8} (h : PlanesHold P bits dim n f sign low)
    (hp : planesFor P bits (dim / codesPerByte bits) = true) (hd : dim % 8 = 0)
    (hf : ∀ v < n, (f v).length = bits * (dim / 8)) (h4 : bits ≠ 4) :
    planesToSeqRun P sign low bits (dim / codesPerByte bits) n =
      .ok (planesToSeq P sign low bits (dim / codesPerByte bits) n) := by
  have hbits := planesBits_of_planesFor hp
  rw [planesToSeqRun, planesGeom_eq hbits hd]
  refine if_pos ⟨(h.length_low hbits hf).ge, fun h => absurd h h4, fun v hv g hg => ?_⟩
  rw [if_neg h4, h.sign.length_eq]
  refine mul_add_lt ?_ (planesSlot_lt hp hd hg (Nat.mod_lt _ (by decide)))
  simp only [BLOCK]
  omega

/-- A block of a cache reads as its rows, the planes regions at two bits. -/
theorem blockReads_owned (hb : ValidBits x.bitWidth) (hmod : d % 8 = 0) (hscales : x.scales.length = x.nVectors)
    (hc : x.blocked = some cache) (hold : CacheHolds P x.bitWidth d x.nVectors f cache)
    (h4 : cache.isPlanes = true → x.bitWidth ≠ 4) (hblock : block * BLOCK < x.nVectors) :
    BlockReads P none x d f (fun v => x.scales.getD v 0) block := by
  intro lo hi hlo hle hhi
  have hk : block + 1 ≤ (x.nVectors + 31) / 32 := by
    simp only [BLOCK] at hblock
    omega
  have hfit : ∀ v < windowRows x.nVectors block 1, block * 32 + v < x.nVectors := fun v hv => windowRows_lt hv
  unfold TurboQuantIndex.storedBlock
  rw [blockedGeometry_eq, hc]
  dsimp only
  rw [sliceRange_getD hle (by rw [hscales]; omega) 0, Run.ok_bind, ← windowRows_one]
  cases hpl : cache.isPlanes with
  | true =>
    obtain ⟨hfor, hplanes⟩ := hold.regions.planes (isPlanes_eq_true.mp hpl)
    have hbits := planesBits_of_planesFor hfor
    have h2 : x.bitWidth = 2 := hbits.resolve_right (h4 hpl)
    have hwin := planesHold_window hbits hplanes hold.regions.width hk
    have hw : ∀ v < windowRows x.nVectors block 1, (f (block * 32 + v)).length = x.bitWidth * (d / 8) :=
      fun v hv => hold.regions.width _ (hfit v hv)
    have hone : (x.bitWidth - 1) * (d / 8) = d / 8 := by rw [h2, Nat.one_mul]
    have hhalf : d / codesPerByte x.bitWidth / 2 = d / 8 := by
      rw [h2]
      simp only [codesPerByte]
      omega
    have hrows : block * BLOCK + windowRows x.nVectors block 1 ≤ x.nVectors := by
      rw [windowRows_one]
      omega
    have hsign : sliceRange cache.data (block * BLOCK * (d / 8)) ((block * BLOCK + BLOCK) * (d / 8)) =
        .ok ((cache.data.drop (block * (d / 8 * 32))).take (1 * (d / 8 * 32))) := by
      rw [show block * BLOCK * (d / 8) = block * (d / 8 * 32) by simp only [BLOCK]; ring,
        show (block * BLOCK + BLOCK) * (d / 8) = (block + 1) * (d / 8 * 32) by simp only [BLOCK]; ring,
        sliceRange_ok (Nat.mul_le_mul_right _ (Nat.le_add_right block 1)) (by
          rw [hplanes.sign.length_eq]
          exact Nat.mul_le_mul_right _ hk), Nat.add_mul, Nat.add_sub_cancel_left]
    have hlow : sliceRange cache.low (block * BLOCK * (d / 8))
        ((block * BLOCK + windowRows x.nVectors block 1) * (d / 8)) =
        .ok ((cache.low.drop (block * 32 * ((x.bitWidth - 1) * (d / 8)))).take
          (windowRows x.nVectors block 1 * ((x.bitWidth - 1) * (d / 8)))) := by
      rw [hone, sliceRange_ok (Nat.mul_le_mul_right _ (Nat.le_add_right _ _)) (by
          rw [hplanes.length_low hbits hold.regions.width, hone]
          exact Nat.mul_le_mul_right _ hrows), Nat.add_mul, Nat.add_sub_cancel_left]
      rfl
    rw [if_pos rfl, hhalf, hsign, Run.ok_bind, hlow, Run.ok_bind]
    rw [planesToSeqRun_ok hwin hfor hmod hw (h4 hpl), Run.ok_bind]
    refine ⟨_, rfl, (seqToPacked_of_seqHold hb hmod (hwin.toSeq hfor hmod hw)).trans ?_⟩
    refine List.flatMap_congr fun v hv => ?_
    rw [tabulate_extractRow, packRow_extractRow hb hmod (hw v (List.mem_range.mp hv))]
    rfl
  | false =>
    obtain ⟨code, hl, hrow⟩ := hold.regions.classic (isPlanes_eq_false.mp hpl)
    have hwin := lanesHold_window hl hk
    have hdata := hl.length_eq
    rw [if_neg Bool.false_ne_true]
    have hcut : block * (d / codesPerByte x.bitWidth * BLOCK) + d / codesPerByte x.bitWidth * BLOCK ≤
        cache.data.length := by
      rw [hdata, ← Nat.succ_mul]
      exact Nat.mul_le_mul_right _ hk
    rw [sliceRange_ok (Nat.le_add_right _ _) hcut, Run.ok_bind, Nat.add_sub_cancel_left]
    refine ⟨_, rfl, ?_⟩
    rw [Nat.one_mul] at hwin
    refine (seqToPacked_of_seqHold hb hmod hwin.toSeq).trans ?_
    exact List.flatMap_congr fun v hv => hrow _ (hfit v (List.mem_range.mp hv))

/-- A block of the 4-bit planes regions is not read. -/
theorem storedBlock_planes4 (hmod : d % 8 = 0) (hpos : 8 ≤ d) (hscales : x.scales.length = x.nVectors)
    (hc : x.blocked = some cache) (hpl : cache.isPlanes = true) (h4 : x.bitWidth = 4)
    (hblock : block * BLOCK < x.nVectors) {lo hi : ℕ} (hle : lo ≤ hi) (hhi : hi ≤ x.nVectors) :
    x.storedBlock P none d block lo hi = .panic := by
  have hgeom : planesGeom x.bitWidth (d / codesPerByte x.bitWidth) = (d / 8, (x.bitWidth - 1) * (d / 8)) :=
    planesGeom_eq (h4 ▸ Or.inr rfl) hmod
  have hhalf : d / codesPerByte x.bitWidth / 2 = 2 * (d / 8) := by
    rw [h4]
    simp only [codesPerByte]
    omega
  unfold TurboQuantIndex.storedBlock
  rw [blockedGeometry_eq, hc]
  dsimp only
  rw [sliceRange_ok hle (hhi.trans hscales.ge), Run.ok_bind, if_pos hpl, hhalf]
  generalize hrows : min BLOCK (x.nVectors - block * BLOCK) = rows
  have hlive : 0 < rows := by
    simp only [BLOCK] at hblock hrows
    omega
  -- the low rows are three eighths of a byte a dim, and a quarter is cut
  have hshort (sign : List UInt8) : planesToSeqRun P sign
      ((cache.low.drop (block * BLOCK * (2 * (d / 8)))).take
        ((block * BLOCK + rows) * (2 * (d / 8)) - block * BLOCK * (2 * (d / 8)))) x.bitWidth
      (d / codesPerByte x.bitWidth) rows = .panic := by
    rw [planesToSeqRun, hgeom]
    refine if_neg fun hfits => ?_
    have hlow := hfits.1.trans (List.length_take_le _ _)
    rw [← Nat.sub_mul, Nat.add_sub_cancel_left, h4] at hlow
    have := Nat.le_of_mul_le_mul_left hlow hlive
    omega
  rw [sliceRange]
  split
  · rw [Run.ok_bind, sliceRange]
    split
    · rw [Run.ok_bind, hshort]
      rfl
    · rfl
  · rfl

/-- An index reads its rows back unless it keeps them in the 4-bit planes regions only. -/
theorem Rep.storedRows {rows : List (List UInt8)} (h : Rep P x rows) {start stop : ℕ} (hle : start ≤ stop)
    (hstop : stop ≤ x.nVectors) :
    x.storedRows P none start stop = .ok (x.rowRange (x.packed P) x.scales start stop) ↔
    ¬(start < stop ∧ x.bitWidth = 4 ∧ x.packedCodes = none ∧ ∃ cache ∈ x.blocked, cache.isPlanes = true) := by
  rw [TurboQuantIndex.storedRows, TurboQuantIndex.rowRange, if_neg (by omega)]
  by_cases hlt : start < stop
  · rw [if_neg (not_not.mpr hlt)]
    obtain ⟨d, hd⟩ := Option.isSome_iff_exists.mp (h.dimmed (by omega))
    obtain ⟨hmod, hpos⟩ := h.dims d hd
    have hw : x.bitWidth * d / 8 = x.bitWidth * (d / 8) := by rw [Nat.mul_comm, row_bytes hmod]
    have hflat : x.packed P = (List.range x.nVectors).flatMap fun v => rows.getD v [] := by
      rw [h.packed_eq, ← flatMap_getD, h.len]
    have hcodes := sliceRange_flatMap (fun v hv => h.length_row hd hv) hle hstop
    have hscales := sliceRange_getD hle (h.scales.ge.trans' hstop) (0 : F32)
    have hlen : (x.packed P).length = x.nVectors * (x.bitWidth * (d / 8)) := by
      rw [h.packed_eq, length_flatten_rows (h.width d hd), h.len]
    have hcut := sliceRange_ok (Nat.mul_le_mul_right (x.bitWidth * (d / 8)) hle)
      (hlen ▸ Nat.mul_le_mul_right (x.bitWidth * (d / 8)) hstop)
    rw [← Nat.sub_mul] at hcut
    have hcut' := sliceRange_ok hle (h.scales.ge.trans' hstop)
    rw [hd]
    dsimp only [Option.getD_some]
    rw [hw]
    cases hp : x.packedCodes with
    | some packed =>
      have hpacked : x.packed P = packed := by rw [TurboQuantIndex.packed, hp]
      dsimp only
      rw [← hpacked, hcut, Run.ok_bind, hcut', Run.ok_bind]
      simp
    | none =>
      obtain ⟨cache, hc, hold⟩ := h.cached hd hp (by omega)
      dsimp only
      by_cases h4 : cache.isPlanes = true ∧ x.bitWidth = 4
      · refine iff_of_false ?_ (not_not.mpr ⟨hlt, h4.2, rfl, cache, hc, h4.1⟩)
        -- the first block panics
        obtain ⟨m, hm⟩ : ∃ m, (stop + 31) / 32 - start / BLOCK = m + 1 := by
          refine ⟨(stop + 31) / 32 - start / BLOCK - 1, ?_⟩
          simp only [BLOCK]
          omega
        have hfirst : x.storedBlock P none d (start / BLOCK) (max start (start / BLOCK * BLOCK))
            (min stop (start / BLOCK * BLOCK + min BLOCK (x.nVectors - start / BLOCK * BLOCK))) = .panic :=
          storedBlock_planes4 hmod hpos h.scales hc h4.1 h4.2 (by simp only [BLOCK]; omega)
            (by simp only [BLOCK]; omega) (by omega)
        rw [hm, List.range'_succ, List.foldlM_cons, TurboQuantIndex.storedStep, hfirst]
        intro hok
        cases hok
      · have hread := @storedLoop P none x d start stop (fun v => rows.getD v []) (fun v => x.scales.getD v 0)
          (fun v hv => by rw [hw]; exact h.length_row hd hv) hlt hstop
          fun block hb => blockReads_owned h.bits hmod h.scales hc hold (fun hpl h4' => h4 ⟨hpl, h4'⟩) (by omega)
        rw [hread]
        refine iff_of_true ?_ ?_
        · rw [← hflat] at hcodes
          rw [Run.ok.inj (hcodes.symm.trans hcut), Run.ok.inj (hscales.symm.trans hcut')]
        · rintro ⟨_, hb, _, cache', hc', hpl⟩
          rw [hc] at hc'
          exact h4 ⟨Option.some.inj hc' ▸ hpl, hb⟩
  · have heq : start = stop := by omega
    subst heq
    simp

end owned

/-! ## Blocks of the mapped image -/

section mapped

variable {P : Platform} {T : Tables} {img : ParsedImage} {raw : List UInt8} {x : TurboQuantIndex} {d : ℕ}

/-- `x` has the fields of the mapped image. -/
structure Maps (img : ParsedImage) (x : TurboQuantIndex) : Prop where
  dim : x.dim = if img.geo.dim = 0 then none else some img.geo.dim
  bitWidth : x.bitWidth = img.geo.bitWidth
  nVectors : x.nVectors = img.nVectors

/-- The packed row the mapped image serves. -/
def mappedRow (img : ParsedImage) (raw : List UInt8) (v : ℕ) : List UInt8 :=
  packRow img.geo.bitWidth img.geo.dim (tabulate img.geo.rowBytes (entry (rows img raw v).codes))

/-- A block assembled from the pages reads as the rows served. -/
theorem blockReads_mapped (hv : img.Valid T) (hseq : img.geo.layout ≠ LAYOUT_PLANES) (hs : ServedOk img raw)
    (hfit : img.geo.unitAt (img.nVectors / BLOCK) ≤ raw.length) (hx : Maps img x) {block : ℕ}
    (hblock : block * BLOCK < x.nVectors) :
    BlockReads P (some (assemble P img raw)) x img.geo.dim (mappedRow img raw)
      (fun v => (rows img raw v).scale) block := by
  intro lo hi hlo hle hhi
  obtain ⟨c, hc, hlanes, hscales⟩ := assemble_spec (P := P) hv hseq hs hfit block 1
  have hwin := windowRows_one img.nVectors block
  rw [hx.nVectors] at hblock hhi
  have hblocks : (windowRows img.nVectors block 1 + 31) / 32 = 1 := by
    rw [hwin]
    simp only [BLOCK] at hblock ⊢
    omega
  have hlen : c.codes.length = img.geo.rowBytes * BLOCK := by
    rw [hlanes.length_eq, hblocks, Nat.one_mul, BLOCK]
  have hcut : sliceRange c.scales (lo - block * BLOCK) (hi - block * BLOCK) =
      .ok ((List.range (hi - lo)).map fun v => (rows img raw (lo + v)).scale) := by
    rw [hscales, sliceRange_map (by omega) (by rw [hwin]; omega),
      show hi - block * BLOCK - (lo - block * BLOCK) = hi - lo by omega]
    refine congrArg _ (List.map_congr_left fun v _ => ?_)
    rw [show block * 32 + (lo - block * BLOCK + v) = lo + v by simp only [BLOCK] at hlo ⊢; omega]
  unfold TurboQuantIndex.storedBlock
  rw [blockedGeometry_eq, hx.nVectors, hx.bitWidth, ← img.geo.rowBytes_eq]
  dsimp only
  rw [← hwin, hc]
  dsimp only
  rw [hcut, Run.ok_bind, sliceRange_ok (Nat.zero_le _) hlen.ge, Run.ok_bind, List.drop_zero,
    List.take_of_length_le (by rw [hlen]; exact le_rfl)]
  refine ⟨_, rfl, ?_⟩
  have hlanes' := hlanes.toSeq
  rw [img.geo.rowBytes_eq] at hlanes'
  rw [img.geo.rowBytes_eq, seqToPacked_of_seqHold hv.geo.bits hv.geo.dim_mod hlanes']
  refine List.flatMap_congr fun v _ => ?_
  rw [mappedRow, img.geo.rowBytes_eq]
  rfl

/-- A chunk of a mapped image is appended to those before it. -/
theorem materializeStep_spec (hv : img.Valid T) (hseq : img.geo.layout ≠ LAYOUT_PLANES) (hs : ServedOk img raw)
    (hfit : img.geo.unitAt (img.nVectors / BLOCK) ≤ raw.length) (hx : Maps img x) (i : ℕ) :
    ∃ patch, (∀ st, x.materializeStep img.geo.dim (assemble P img raw) st i = .ok (st.1 ++ patch, st.2 ++
        (List.range (windowRows img.nVectors (i * 256) 256)).map fun v => (rows img raw (i * 256 * 32 + v)).scale)) ∧
      LanesHold P img.geo.bitWidth img.geo.rowBytes (windowRows img.nVectors (i * 256) 256)
        (fun v g => entry (rows img raw (i * 256 * 32 + v)).codes g) patch := by
  obtain ⟨c, hc, hlanes, hscales⟩ := assemble_spec (P := P) hv hseq hs hfit (i * 256) 256
  refine ⟨c.codes, fun st => ?_, hlanes⟩
  have hbase : i * STREAM_CHUNK_ROWS = i * 256 * BLOCK := by
    simp only [STREAM_CHUNK_ROWS, BLOCK]
    omega
  have hlive : min STREAM_CHUNK_ROWS (img.nVectors - i * 256 * BLOCK) = windowRows img.nVectors (i * 256) 256 := by
    simp only [STREAM_CHUNK_ROWS, BLOCK, windowRows]
  have hcodes : c.codes.length = (windowRows img.nVectors (i * 256) 256 + 31) / 32 * (img.geo.rowBytes * BLOCK) :=
    hlanes.length_eq
  have hlen : c.scales.length = windowRows img.nVectors (i * 256) 256 := by
    rw [hscales, List.length_map, List.length_range]
  unfold TurboQuantIndex.materializeStep
  rw [hx.nVectors, hx.bitWidth]
  dsimp only
  rw [hbase, hlive, hc, blockedGeometry_eq, blockedGeometry_eq, ← img.geo.rowBytes_eq]
  dsimp only
  rw [sliceRange_ok (Nat.zero_le _) hcodes.ge, sliceRange_ok (Nat.zero_le _) hlen.ge, Run.ok_bind, Run.ok_bind,
    List.drop_zero, List.drop_zero, Nat.sub_zero, Nat.sub_zero, List.take_of_length_le hcodes.le,
    List.take_of_length_le hlen.le, hscales]
  rfl

/-- The chunks of a mapped image, one after the other. -/
theorem blockedMaterialized_spec (hv : img.Valid T) (hseq : img.geo.layout ≠ LAYOUT_PLANES) (hs : ServedOk img raw)
    (hfit : img.geo.unitAt (img.nVectors / BLOCK) ≤ raw.length) (hx : Maps img x) :
    ∃ data, x.blockedMaterialized img.geo.dim (assemble P img raw) =
        .ok (data, (List.range img.nVectors).map fun v => (rows img raw v).scale) ∧
      LanesHold P img.geo.bitWidth img.geo.rowBytes img.nVectors (fun v g => entry (rows img raw v).codes g) data := by
  have hchunks : ∀ j ≤ (img.nVectors + STREAM_CHUNK_ROWS - 1) / STREAM_CHUNK_ROWS, ∃ data,
      (List.range j).foldlM (x.materializeStep img.geo.dim (assemble P img raw)) ([], []) =
        .ok (data, (List.range (min (j * STREAM_CHUNK_ROWS) img.nVectors)).map fun v => (rows img raw v).scale) ∧
      LanesHold P img.geo.bitWidth img.geo.rowBytes (min (j * STREAM_CHUNK_ROWS) img.nVectors)
        (fun v g => entry (rows img raw v).codes g) data := by
    intro j hj
    induction j with
    | zero =>
      rw [Nat.zero_mul, Nat.zero_min]
      exact ⟨[], rfl, .of_lt (by simp) fun v hv => absurd hv (by omega)⟩
    | succ j ih =>
      obtain ⟨data, hrun, hdata⟩ := ih (by omega)
      obtain ⟨patch, hstep, hpatch⟩ := materializeStep_spec (P := P) hv hseq hs hfit hx j
      have hfull : min (j * STREAM_CHUNK_ROWS) img.nVectors = j * 256 * 32 := by
        simp only [STREAM_CHUNK_ROWS] at hj ⊢
        omega
      have hnext : min ((j + 1) * STREAM_CHUNK_ROWS) img.nVectors = j * 256 * 32 +
          windowRows img.nVectors (j * 256) 256 := by
        simp only [STREAM_CHUNK_ROWS, windowRows] at hj ⊢
        omega
      rw [hfull] at hrun hdata
      refine ⟨data ++ patch, ?_, ?_⟩
      · rw [List.range_succ, List.foldlM_append, hrun, Run.ok_bind, List.foldlM_cons, hstep, Run.ok_bind, hnext,
          List.range_add, List.map_append, List.map_map]
        rfl
      · have hsplice : LanesHold P img.geo.bitWidth img.geo.rowBytes
            (j * 256 * 32 + windowRows img.nVectors (j * 256) 256) (fun v g => entry (rows img raw v).codes g)
            (data.take (j * 256 * (img.geo.rowBytes * 32)) ++ patch) :=
          lanesHold_splice hdata (by omega) (by omega) (by rw [Nat.add_sub_cancel_left]; exact hpatch)
            fun _ _ _ _ => rfl
        rwa [List.take_of_length_le (by rw [hdata.length_eq]; exact Nat.mul_le_mul_right _ (by omega)),
          ← hnext] at hsplice
  obtain ⟨data, hrun, hdata⟩ := hchunks _ le_rfl
  have hall : min ((img.nVectors + STREAM_CHUNK_ROWS - 1) / STREAM_CHUNK_ROWS * STREAM_CHUNK_ROWS) img.nVectors =
      img.nVectors := by
    simp only [STREAM_CHUNK_ROWS]
    omega
  rw [hall] at hrun hdata
  rw [← hx.nVectors] at hrun
  refine ⟨data, ?_, hdata⟩
  rw [TurboQuantIndex.blockedMaterialized, hrun, hx.nVectors]

/-- A mapped image whose chunks are all assembled serves accepted scales only. -/
theorem servedOk_of_materialized (hv : img.Valid T) (hfit : img.geo.unitAt (img.nVectors / BLOCK) ≤ raw.length)
    (hx : Maps img x) {r : List UInt8 × List F32}
    (h : x.blockedMaterialized img.geo.dim (assemble P img raw) = .ok r) : ServedOk img raw := by
  refine servedOk_of_blocks hv hfit fun b hb => ?_
  have hi : b / 256 ∈ List.range ((x.nVectors + STREAM_CHUNK_ROWS - 1) / STREAM_CHUNK_ROWS) := by
    rw [List.mem_range, hx.nVectors]
    simp only [STREAM_CHUNK_ROWS]
    omega
  obtain ⟨st, st', hstep⟩ := Run.exists_of_foldlM h hi
  unfold TurboQuantIndex.materializeStep at hstep
  dsimp only at hstep
  have hbase : b / 256 * STREAM_CHUNK_ROWS = b / 256 * 256 * BLOCK := by
    simp only [STREAM_CHUNK_ROWS, BLOCK]
    omega
  rw [hbase, hx.nVectors] at hstep
  cases hc : assemble P img raw (b / 256 * 256 * BLOCK)
      (min STREAM_CHUNK_ROWS (img.nVectors - b / 256 * 256 * BLOCK)) with
  | error e =>
    rw [hc] at hstep
    cases hstep
  | ok c =>
    obtain ⟨pre, blk, hblk⟩ := blocks_of_assemble hc (i := b % 256) (by
      simp only [STREAM_CHUNK_ROWS, BLOCK]
      omega)
    exact ⟨b / 256 * 256, b % 256, pre, blk, by omega, hblk⟩

/-- What a mapped image with rows materializes is its rows, whose scales it accepts. -/
theorem eq_of_mappedRows (hopen : openImage T raw = .ok img) (hx : Maps img x) (hd : x.dim = some img.geo.dim)
    (hpos : 0 < x.nVectors) {packed : List UInt8} {scales : List F32}
    (hrows : x.mappedRows P (assemble P img raw) = .ok (packed, scales)) :
    ServedOk img raw ∧ packed = (List.range img.nVectors).flatMap (mappedRow img raw) ∧
      scales = (List.range img.nVectors).map fun v => (rows img raw v).scale := by
  obtain ⟨himg, hseq⟩ := openImage_ok hopen
  obtain ⟨hv, -, hfit⟩ := parseImage_ok himg
  unfold TurboQuantIndex.mappedRows at hrows
  rw [hd] at hrows
  dsimp only at hrows
  rw [if_neg hpos.ne'] at hrows
  obtain ⟨r, hmat, hrows⟩ := Run.bind_ok_iff.mp hrows
  have hs := servedOk_of_materialized hv hfit hx hmat
  obtain ⟨data, hmat', hdata⟩ := blockedMaterialized_spec (P := P) hv hseq hs hfit hx
  obtain rfl := Run.ok.inj (hmat'.symm.trans hmat)
  -- the blocked bytes hold every row's codes, so repacking them gives the rows
  have hseqs := hdata.toSeq
  rw [img.geo.rowBytes_eq] at hseqs
  dsimp only at hrows
  rw [blockedGeometry_eq, hx.nVectors, hx.bitWidth] at hrows
  dsimp only at hrows
  rw [seqToPacked_of_seqHold hv.geo.bits hv.geo.dim_mod hseqs] at hrows
  obtain ⟨rfl, rfl⟩ := Prod.mk.inj (Run.ok.inj hrows)
  refine ⟨hs, List.flatMap_congr fun v _ => ?_, rfl⟩
  rw [mappedRow, img.geo.rowBytes_eq]

/-- A mapped image reads back the rows and scales it materializes. -/
theorem storedRows_mapped (hopen : openImage T raw = .ok img) (hx : Maps img x) {packed : List UInt8}
    {scales : List F32} (hrows : x.mappedRows P (assemble P img raw) = .ok (packed, scales)) {start stop : ℕ}
    (hle : start ≤ stop) (hstop : stop ≤ x.nVectors) :
    x.storedRows P (some (assemble P img raw)) start stop = .ok (x.rowRange packed scales start stop) := by
  obtain ⟨himg, hseq⟩ := openImage_ok hopen
  obtain ⟨hv, -, hfit⟩ := parseImage_ok himg
  rw [TurboQuantIndex.storedRows, TurboQuantIndex.rowRange, if_neg (by omega)]
  by_cases hlt : start < stop
  · rw [if_neg (not_not.mpr hlt)]
    have hd : x.dim = some img.geo.dim := by
      rw [hx.dim, if_neg fun h0 => ?_]
      have := hv.dim_zero h0
      rw [hx.nVectors] at hstop
      omega
    have hw : x.bitWidth * img.geo.dim / 8 = x.bitWidth * (img.geo.dim / 8) := by
      rw [Nat.mul_comm, row_bytes hv.geo.dim_mod]
    have hlen (v : ℕ) : (mappedRow img raw v).length = x.bitWidth * (img.geo.dim / 8) := by
      rw [mappedRow, length_packRow, hx.bitWidth]
    obtain ⟨hs, rfl, rfl⟩ := eq_of_mappedRows hopen hx hd (by omega) hrows
    have hread := @storedLoop P (some (assemble P img raw)) x img.geo.dim start stop (mappedRow img raw)
      (fun v => (rows img raw v).scale) (fun v _ => by rw [hw, hlen]) hlt hstop
      fun block hb => blockReads_mapped hv hseq hs hfit hx (by omega)
    rw [hx.nVectors] at hstop
    -- a cut out of all rows is the rows of the range
    have hcodes := sliceRange_flatMap (fun v (_ : v < img.nVectors) => hlen v) hle hstop
    have hscales := sliceRange_map (f := fun v => (rows img raw v).scale) hle hstop
    have hcut := sliceRange_ok (l := (List.range img.nVectors).flatMap (mappedRow img raw))
      (Nat.mul_le_mul_right (x.bitWidth * (img.geo.dim / 8)) hle) (by
        rw [length_flatMap_range fun v _ => hlen v]
        exact Nat.mul_le_mul_right _ hstop)
    have hcut' := sliceRange_ok (l := (List.range img.nVectors).map fun v => (rows img raw v).scale) hle (by
      rw [List.length_map, List.length_range]
      exact hstop)
    rw [← Nat.sub_mul] at hcut
    rw [hd]
    dsimp only [Option.getD_some] at hread ⊢
    rw [hw, ← Run.ok.inj (hcodes.symm.trans hcut), ← Run.ok.inj (hscales.symm.trans hcut')]
    cases hp : x.packedCodes with
    | none => exact hread
    | some packed => exact hread
  · have heq : start = stop := by omega
    subst heq
    simp

/-- A mapped image materializes its rows exactly when it serves accepted scales only. -/
theorem mappedRows_iff (hopen : openImage T raw = .ok img) (hx : Maps img x) :
    (∃ packed scales, x.mappedRows P (assemble P img raw) = .ok (packed, scales)) ↔ ServedOk img raw := by
  obtain ⟨himg, hseq⟩ := openImage_ok hopen
  obtain ⟨hv, -, hfit⟩ := parseImage_ok himg
  unfold TurboQuantIndex.mappedRows
  by_cases hn : img.nVectors = 0
  · refine iff_of_true ?_ ⟨fun v hvn => ?_, fun b hb => ?_, fun r hr => ?_⟩
    · cases x.dim with
      | none => exact ⟨[], [], rfl⟩
      | some dim =>
        dsimp only
        rw [if_pos (hx.nVectors.trans hn)]
        exact ⟨[], [], rfl⟩
    · simp [hn] at hvn
    · simp [hn] at hb
    · obtain ⟨k, hk, -⟩ := List.mem_map.mp hr
      simp [hn] at hk
  · rw [hx.dim, if_neg (mt hv.dim_zero hn)]
    dsimp only
    rw [if_neg (by rwa [hx.nVectors])]
    constructor
    · rintro ⟨packed, scales, h⟩
      obtain ⟨r, hmat, -⟩ := Run.bind_ok_iff.mp h
      exact servedOk_of_materialized hv hfit hx hmat
    · intro hs
      obtain ⟨data, hmat, -⟩ := blockedMaterialized_spec (P := P) hv hseq hs hfit hx
      rw [hmat]
      exact ⟨_, _, rfl⟩

end mapped

/-! ## Reading back -/

/-- An index reads back its packed code bytes and scales unless a row is asked of 4-bit planes regions, and a mapped
image exactly when it serves accepted scales only. -/
theorem stored_rows_read_back (P : Platform) (T : Tables) (S : ScanKernels) {K : Kernels} (hK : K.Sized) :
    (∀ (x : TurboQuantIndex) (rows : List (List UInt8)) (start stop : ℕ), Stores P T K S x rows → start ≤ stop →
      stop ≤ x.nVectors →
      (x.storedRows P none start stop = .ok (x.rowRange (x.packed P) x.scales start stop) ↔
        ¬(start < stop ∧ x.bitWidth = 4 ∧ x.packedCodes = none ∧ ∃ cache ∈ x.blocked, cache.isPlanes = true))) ∧
    ∀ (x : TurboQuantIndex) (img : ParsedImage) (raw : List UInt8) (start stop : ℕ), openImage T raw = .ok img →
      Maps img x → start ≤ stop → stop ≤ x.nVectors →
      ((∃ packed scales, x.mappedRows P (assemble P img raw) = .ok (packed, scales) ∧
        x.storedRows P (some (assemble P img raw)) start stop = .ok (x.rowRange packed scales start stop)) ↔
        ServedOk img raw) := by
  constructor
  · intro x rows start stop h hle hstop
    exact (h.rep hK).storedRows hle hstop
  · intro x img raw start stop hopen hx hle hstop
    rw [← mappedRows_iff (P := P) hopen hx]
    constructor
    · rintro ⟨packed, scales, hrows, -⟩
      exact ⟨packed, scales, hrows⟩
    · rintro ⟨packed, scales, hrows⟩
      exact ⟨packed, scales, hrows, storedRows_mapped hopen hx hrows hle hstop⟩

theorem grownBlock_stores : Stores plainHost levelTables zeroKernels zeroScan grownBlock
    (List.replicate 33 [0, 0]) := by
  have h := @Stores.fromParts plainHost levelTables zeroKernels zeroScan wholeRows (some 8) 2 32 (List.replicate 64 0)
    (List.replicate 32 1) [] [] rfl
  exact h.prepare.add (List.replicate 8 0) 8 (by simp) (by decide +kernel)

/-- The grown block is read back from its cache, and the rows of a mapped image from its pages. -/
theorem stored_rows_read_back_grown :
    grownBlock.storedRows plainHost none 3 33 =
      .ok (grownBlock.rowRange (grownBlock.packed plainHost) grownBlock.scales 3 33) ∧
    ∃ x, Maps splitParsed x ∧ ∃ packed scales,
      x.mappedRows plainHost (assemble plainHost splitParsed splitImage) = .ok (packed, scales) ∧
      x.storedRows plainHost (some (assemble plainHost splitParsed splitImage)) 1 32 =
        .ok (x.rowRange packed scales 1 32) := by
  have hx : Maps splitParsed { TurboQuantIndex.empty (some 8) 2 with nVectors := 32 } := ⟨rfl, rfl, rfl⟩
  constructor
  · refine ((stored_rows_read_back plainHost levelTables zeroScan zeroKernels_sized).1 grownBlock _ 3 33 grownBlock_stores
      (by decide) (by decide +kernel)).mpr ?_
    rintro ⟨-, h4, -⟩
    exact absurd h4 (by decide)
  · exact ⟨_, hx, ((stored_rows_read_back plainHost blankTables zeroScan zeroKernels_sized).2 _ splitParsed splitImage
      1 32 open_splitImage hx (by decide) (by decide)).mpr (servedOk_of_scalesOk splitImage_scales)⟩

/-- 32768 zero rows of four bits. -/
def fourBitRows : TurboQuantIndex :=
  { TurboQuantIndex.empty (some 32) 4 with
    nVectors := 32768, packedCodes := some (List.replicate (32768 * 16) 0), scales := List.replicate 32768 1 }

/-- The cache of these rows and one more. -/
def grownCache : BlockedCache :=
  BlockedCache.build TurboQuantIndex.planesHost (List.replicate (32768 * 16) 0 ++ List.replicate 16 0) 32769 4 32

/-- The rows after one more, which are kept in the cache only. -/
def grownRows : TurboQuantIndex :=
  { fourBitRows.warm levelTables 32 with
    packedCodes := none
    blocked := some grownCache
    scales := List.replicate 32768 1 ++ List.replicate 1 0
    nVectors := 32769 }

theorem stores_fourBitRows : Stores TurboQuantIndex.planesHost levelTables zeroKernels zeroScan fourBitRows
    (rowsOf (4 * (32 / 8)) 32768 (List.replicate (32768 * 16) 0)) := by
  have hscales : (List.replicate 32768 (1 : F32)).findIdx? (fun s => !validScale s) = none := by
    rw [List.findIdx?_eq_none_iff]
    intro s hs
    rw [List.eq_of_mem_replicate hs]
    decide
  refine @Stores.fromParts TurboQuantIndex.planesHost levelTables zeroKernels zeroScan fourBitRows (some 32) 4 32768
    (List.replicate (32768 * 16) 0) (List.replicate 32768 1) [] [] ?_
  unfold TurboQuantIndex.fromParts TurboQuantIndex.checkLengths TurboQuantIndex.checkValues
  rw [hscales, List.length_replicate, List.length_replicate]
  rfl

theorem add2d_fourBitRows :
    fourBitRows.add2d TurboQuantIndex.planesHost levelTables zeroKernels (List.replicate 32 0) 32 none =
      (grownRows, .ok) := by
  have hcoords : firstInvalidCoord (List.replicate 32 0) 32 = none := by decide
  have hadd : TurboQuantIndex.add TurboQuantIndex.planesHost levelTables zeroKernels fourBitRows
      (List.replicate 32 0) 32 none = .ok grownRows := by
    unfold TurboQuantIndex.add
    dsimp only
    rw [hcoords, if_neg (by decide), if_neg (by decide), if_neg (by decide)]
    unfold TurboQuantIndex.appendRows
    dsimp only
    -- the packed rows are set, so the add is not lazy: the cache is built of all rows and the packed rows go
    rw [if_neg (by decide)]
    rfl
  unfold TurboQuantIndex.add2d
  rw [show fourBitRows.checkAddDim 32 = .ok () from rfl, hcoords]
  dsimp only
  rw [if_neg (by decide), if_neg (by decide), show fourBitRows.dim = some 32 from rfl]
  dsimp only
  rw [hadd]

theorem grownCache_isPlanes : grownCache.isPlanes = true := by
  have hlen : (List.replicate (32768 * 16) 0 ++ List.replicate 16 (0 : UInt8)).length = 32769 * (4 * (32 / 8)) := by
    rw [List.length_append, List.length_replicate, List.length_replicate]
  have hold := planesHold_repack (P := TurboQuantIndex.planesHost) (show PlanesBits 4 from Or.inr rfl)
    (show 32 % 8 = 0 from rfl) (by decide) hlen
  have hlow := hold.length_low (Or.inr rfl) fun v hv => length_rowAt hlen hv
  have hwant : planesWanted TurboQuantIndex.planesHost 4 (32 / codesPerByte 4) 32769 = true := by decide
  rw [isPlanes_eq_true]
  intro hnil
  unfold grownCache BlockedCache.build at hnil
  rw [if_pos hwant] at hnil
  dsimp only at hnil
  rw [hnil] at hlow
  cases hlow

/-- An index whose four-bit rows are kept in the planes regions only. -/
theorem fourBitRows_grown : ∃ x rows, Stores TurboQuantIndex.planesHost levelTables zeroKernels zeroScan x rows ∧
    x.bitWidth = 4 ∧ x.nVectors = 32769 ∧ x.packedCodes = none ∧ ∃ cache ∈ x.blocked, cache.isPlanes = true := by
  have hstep := @Stores.add TurboQuantIndex.planesHost levelTables zeroKernels zeroScan fourBitRows _ stores_fourBitRows
    (List.replicate 32 0) 32 none (by simp) (by rw [add2d_fourBitRows])
  rw [add2d_fourBitRows] at hstep
  exact ⟨_, _, hstep, rfl, rfl, rfl, _, rfl, grownCache_isPlanes⟩

/-- Not every range of every index is read back. -/
theorem not_stored_rows_read_back : ¬∀ (P : Platform) (T : Tables) (K : Kernels) (S : ScanKernels), K.Sized →
    ∀ (x : TurboQuantIndex) (rows : List (List UInt8)) (start stop : ℕ), Stores P T K S x rows → start ≤ stop →
      stop ≤ x.nVectors →
      x.storedRows P none start stop = .ok (x.rowRange (x.packed P) x.scales start stop) := by
  intro hall
  obtain ⟨x, rows, h, h4, hn, hp, hplanes⟩ := fourBitRows_grown
  have hread := hall TurboQuantIndex.planesHost levelTables zeroKernels zeroScan zeroKernels_sized x rows 0 1 h
    (by decide) (by omega)
  exact ((h.rep zeroKernels_sized).storedRows (by decide) (by omega)).mp hread ⟨by decide, h4, hp, hplanes⟩

end Turbovec
