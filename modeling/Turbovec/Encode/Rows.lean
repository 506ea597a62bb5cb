import Turbovec.Encode.Refit
import Turbovec.Rotation.Paths

/-!
# Encoding rows in batches

A batch is rotated row by row with each row's norm, and quantised by the kernel of the host, with or without the
batch's reconstruction table. Sums, products, quotients and roots are uninterpreted: every kernel makes each row's norm
and inner product by the same operations in the same order, so a row's bytes depend on the row and the calibration.
-/

namespace Turbovec.Encode

open Pack Slice Grid Cells

variable {α β : Type*}

/-! ## Values -/

/-- The operations between the two widths, the root, and the encoder's two constants. -/
structure Floats (α β : Type*) where
  /-- `as f64` -/
  widen : α → β
  /-- `as f32` -/
  narrow : β → α
  sqrt : α → α
  minInputNorm : α
  degenerateInnerEps : β

/-- What the process runs on: `avx` and the rotation's kernel besides. -/
structure Machine extends Host where
  avx : Bool
  rotate : Rotation.Kernel

/-! ## The norm -/

def NORM_CHAINS : ℕ := 8

section norm
variable [Add α] [Mul α] [Zero α]

/-- `chains[j % 8] += x * x` -/
def addToChain (row : List α) (chains : ℕ → α) (j : ℕ) : ℕ → α :=
  Function.update chains (j % NORM_CHAINS) (chains (j % NORM_CHAINS) + entry row j * entry row j)

def combineNormChains (c : ℕ → α) : α := ((c 0 + c 1) + (c 2 + c 3)) + ((c 4 + c 5) + (c 6 + c 7))

def normSqScalar (row : List α) : α :=
  combineNormChains ((List.range row.length).foldl (addToChain row) fun _ => 0)

/-- The elements past the last whole register. -/
def normTail (row : List α) (chains : ℕ → α) : ℕ → α :=
  let i := row.length / NORM_CHAINS * NORM_CHAINS
  (List.range' i (row.length - i)).foldl (addToChain row) chains

/-- One register of eight lanes. -/
def normSqAvx (row : List α) : α :=
  let acc := (List.range (row.length / NORM_CHAINS)).foldl (fun (acc : ℕ → α) c =>
    let v := fun l => entry row (c * NORM_CHAINS + l)
    fun l => acc l + v l * v l) fun _ => 0
  combineNormChains (normTail row acc)

/-- Two registers of four. -/
def normSqNeon (row : List α) : α :=
  let acc := (List.range (row.length / NORM_CHAINS)).foldl (fun (acc : (ℕ → α) × (ℕ → α)) c =>
    let lo := fun l => entry row (c * NORM_CHAINS + l)
    let hi := fun l => entry row (c * NORM_CHAINS + 4 + l)
    (fun l => acc.1 l + lo l * lo l, fun l => acc.2 l + hi l * hi l)) (fun _ => 0, fun _ => 0)
  combineNormChains (normTail row fun l => if l < 4 then acc.1 l else acc.2 (l - 4))

def simdNorm (F : Floats α β) (M : Machine) (row : List α) : α :=
  F.sqrt <| match M.arch with
    | .x86_64 => if M.avx then normSqAvx row else normSqScalar row
    | .aarch64 => normSqNeon row
    | .other => normSqScalar row

end norm

/-! ## A batch -/

section batch
variable [Add α] [Sub α] [Mul α] [Div α] [Neg α] [Zero α] [One α] [LinearOrder α]
variable [Add β] [Sub β] [Mul β] [Zero β] [LT β] [DecidableLT β]

/-- One row of `rotate_batch_into`: its norm, and the rotated row in a worker's two buffers. -/
def rotateRow (F : Floats α β) (M : Machine) (R : Rotation α) (src : List α) (bufs : Buf α × Buf α) : Option (α × List α) := do
  let nVal := simdNorm F M src
  let inv := if F.minInputNorm < nVal then 1 / nVal else 0
  let out ← R.applyScaledInto M.rotate ⟨src.length, entry src⟩ inv bufs.1 bufs.2
  some (nVal, tabulate out.1.len out.1.cells)

/-- A row's arithmetic, each operation as the kernels make it. -/
def rowOps (F : Floats α β) (rot shift scaleTq invScaleTq : List α) : RowArith α β where
  calib d := (entry rot d + entry shift d) * entry scaleTq d
  recon d centroid := F.widen centroid * F.widen (entry invScaleTq d) - F.widen (entry shift d)
  weigh d x := F.widen (entry rot d) * x

/-- `scale_from_inner` -/
def scaleOf (F : Floats α β) (inner : β) (norm : α) : α :=
  if F.degenerateInnerEps < inner then norm / F.narrow inner else 0

/-- What every batch of an index is encoded under. -/
structure Encoder (α : Type*) (bits dim : ℕ) where
  rotation : Rotation α
  boundaries : List α
  centroids : List α
  calibration : Option (List α × List α)

/-- A batch: its rows, the machine, and what its workers' buffers hold. -/
structure Batch (α : Type*) (bits dim : ℕ) where
  machine : Machine
  vectors : List α
  n : ℕ
  bufs : ℕ → Buf α × Buf α
  rowBuf : ℕ → RowBuf bits dim

variable {bits dim : ℕ}

/-- The committed pair, or the identity. -/
def Encoder.pair (E : Encoder α bits dim) : List α × List α :=
  E.calibration.getD (List.replicate dim 0, List.replicate dim 1)

/-- `rotate_batch_into` -/
def rotateBatchInto (F : Floats α β) (E : Encoder α bits dim) (b : Batch α bits dim) : Option (List (α × List α)) :=
  (List.range b.n).mapM fun i => rotateRow F b.machine E.rotation (rowAt b.vectors dim i) (b.bufs i)

/-- `encode_prerotated`, onto the rows and scales so far. -/
def encodeRotated (F : Floats α β) (E : Encoder α bits dim) (b : Batch α bits dim) (rotated norms : List α)
    (out : List UInt8 × List α) : List UInt8 × List α :=
  let shift := E.pair.1
  let scaleTq := E.pair.2
  let invScaleTq := scaleTq.map (1 / ·)
  let centroidOrig := if KERNEL_USES_RECON_TABLE b.machine.toHost ∧ RECON_TABLE_MIN_ROWS ≤ b.n then
    some (buildReconTable (rowOps F [] shift scaleTq invScaleTq) bits dim E.centroids) else none
  let quantised := quantizeBatch b.machine.kernel bits (fun i => rowOps F (rowAt rotated dim i) shift scaleTq invScaleTq)
    centroidOrig E.boundaries E.centroids b.rowBuf b.n
  (out.1 ++ quantised.1, out.2 ++ tabulate b.n fun i => scaleOf F (quantised.2.getD i 0) (entry norms i))

/-- `encode`. A failed assert is `none`. -/
def encode (F : Floats α β) (E : Encoder α bits dim) (out : List UInt8 × List α) (b : Batch α bits dim) :
    Option (List UInt8 × List α) :=
  if dim ≠ 0 ∧ dim % 8 = 0 ∧ E.pair.1.length = dim ∧ E.pair.2.length = dim then do
    let rows ← rotateBatchInto F E b
    some (encodeRotated F E b (rows.flatMap (·.2)) (rows.map (·.1)) out)
  else none

/-- The batches of any number of calls, one after another. -/
def encodeAll (F : Floats α β) (E : Encoder α bits dim) (batches : List (Batch α bits dim)) : Option (List UInt8 × List α) :=
  batches.foldlM (encode F E) ([], [])

end batch

/-! ## Chains -/

section chains
variable [Add β] [Zero β]

/-- Chain `i` of `k`: the terms whose index is `i` modulo `k`, in order. -/
def chain (k n : ℕ) (term : ℕ → β) (i : ℕ) : β :=
  (List.range n).foldl (fun s j => if j % k = i then s + term j else s) 0

theorem chain_succ (k n : ℕ) (term : ℕ → β) (i : ℕ) :
    chain k (n + 1) term i = if n % k = i then chain k n term i + term n else chain k n term i := by
  rw [chain, List.range_succ, List.foldl_concat]
  rfl

/-- The four chains of the inner product. -/
def fourChains (n : ℕ) (term : ℕ → β) : β :=
  (chain 4 n term 0 + chain 4 n term 1) + (chain 4 n term 2 + chain 4 n term 3)

/-- A chunk of eight gives each of four chains two terms. -/
theorem chain_four_chunk (n : ℕ) (term : ℕ → β) {i : ℕ} (hi : i < 4) :
    chain 4 (n * 8 + 8) term i = chain 4 (n * 8) term i + term (n * 8 + i) + term (n * 8 + (4 + i)) := by
  have hmod (k : ℕ) : (n * 8 + k) % 4 = k % 4 := by omega
  have hzero : n * 8 % 4 = 0 := hmod 0
  rw [chain_succ, chain_succ, chain_succ, chain_succ, chain_succ, chain_succ, chain_succ, chain_succ, hmod, hmod, hmod, hmod,
    hmod, hmod, hmod, hzero]
  obtain rfl | rfl | rfl | rfl : i = 0 ∨ i = 1 ∨ i = 2 ∨ i = 3 := by omega
  all_goals rfl

theorem chainSum_eq_chains (n : ℕ) (term : ℕ → β) : chainSum n term = fourChains (n * 8) term := by
  have hchain (i : ℕ) (hi : i < 4) : (List.range n).foldl (fun (chains : ℕ → β) c i =>
      chains i + term (c * 8 + i) + term (c * 8 + (4 + i))) (fun _ => 0) i = chain 4 (n * 8) term i := by
    induction n with
    | zero => rw [Nat.zero_mul]; rfl
    | succ n ih => rw [List.range_succ, List.foldl_concat, Nat.succ_mul, chain_four_chunk n term hi, ih]
  unfold chainSum fourChains
  dsimp only
  rw [hchain 0 (by decide), hchain 1 (by decide), hchain 2 (by decide), hchain 3 (by decide)]

end chains

section norm
variable [Add α] [Mul α] [Zero α]

/-- The eight chains of the norm. -/
def eightChains (row : List α) : α := combineNormChains (chain 8 row.length fun j => entry row j * entry row j)

/-- Adding the elements from `i` on to the chains of those before. -/
theorem foldl_addToChain (row : List α) (i m : ℕ) :
    (List.range' i m).foldl (addToChain row) (chain 8 i fun j => entry row j * entry row j) =
      chain 8 (i + m) fun j => entry row j * entry row j := by
  induction m with
  | zero => rfl
  | succ m ih =>
    rw [List.range'_1_concat, List.foldl_concat, ih, ← Nat.add_assoc]
    funext l
    rw [chain_succ, addToChain]
    by_cases h : (i + m) % 8 = l
    · rw [if_pos h, ← h]
      exact Function.update_self _ _ _
    · rw [if_neg h]
      exact Function.update_of_ne (Ne.symm h) _ _

omit [Mul α] in
theorem chain_eight_chunk (n : ℕ) (term : ℕ → α) {i : ℕ} (hi : i < 8) :
    chain 8 (n * 8 + 8) term i = chain 8 (n * 8) term i + term (n * 8 + i) := by
  have hmod (k : ℕ) : (n * 8 + k) % 8 = k % 8 := by omega
  have hzero : n * 8 % 8 = 0 := hmod 0
  rw [chain_succ, chain_succ, chain_succ, chain_succ, chain_succ, chain_succ, chain_succ, chain_succ, hmod, hmod, hmod, hmod,
    hmod, hmod, hmod, hzero]
  obtain rfl | rfl | rfl | rfl | rfl | rfl | rfl | rfl : i = 0 ∨ i = 1 ∨ i = 2 ∨ i = 3 ∨ i = 4 ∨ i = 5 ∨ i = 6 ∨ i = 7 := by
    omega
  all_goals rfl

/-- The chains past the eighth are never read. -/
theorem foldl_addToChain_congr (row : List α) {a b : ℕ → α} (h : ∀ l < 8, a l = b l) (js : List ℕ) :
    ∀ l < 8, js.foldl (addToChain row) a l = js.foldl (addToChain row) b l := by
  induction js generalizing a b with
  | nil => exact h
  | cons j js ih =>
    apply ih
    intro l hl
    have hj : j % NORM_CHAINS < 8 := Nat.mod_lt j (by decide)
    unfold addToChain
    by_cases hjl : l = j % NORM_CHAINS
    · rw [hjl, Function.update_self, Function.update_self, h _ hj]
    · rw [Function.update_of_ne hjl, Function.update_of_ne hjl, h l hl]

omit [Mul α] [Zero α] in
theorem combineNormChains_congr {a b : ℕ → α} (h : ∀ l < 8, a l = b l) : combineNormChains a = combineNormChains b := by
  unfold combineNormChains
  rw [h 0 (by decide), h 1 (by decide), h 2 (by decide), h 3 (by decide), h 4 (by decide), h 5 (by decide), h 6 (by decide),
    h 7 (by decide)]

/-- Whole registers first and then the tail. -/
theorem normTail_eq (row : List α) {acc : ℕ → α}
    (h : ∀ l < 8, acc l = chain 8 (row.length / 8 * 8) (fun j => entry row j * entry row j) l) :
    combineNormChains (normTail row acc) = eightChains row := by
  apply combineNormChains_congr
  intro l hl
  refine (foldl_addToChain_congr row h _ l hl).trans ?_
  show (List.range' (row.length / 8 * 8) (row.length - row.length / 8 * 8)).foldl (addToChain row) _ l = _
  rw [foldl_addToChain, Nat.add_sub_cancel' (Nat.div_mul_le_self _ _)]

theorem normSqScalar_eq (row : List α) : normSqScalar row = eightChains row := by
  unfold normSqScalar eightChains
  have hfold := foldl_addToChain row 0 row.length
  rw [← List.range_eq_range', Nat.zero_add] at hfold
  exact congrArg combineNormChains hfold

theorem normSqAvx_eq (row : List α) : normSqAvx row = eightChains row := by
  apply normTail_eq
  intro l hl
  have hregs (n : ℕ) : (List.range n).foldl (fun (acc : ℕ → α) c l =>
      acc l + entry row (c * 8 + l) * entry row (c * 8 + l)) (fun _ => 0) l =
      chain 8 (n * 8) (fun j => entry row j * entry row j) l := by
    induction n with
    | zero => rw [Nat.zero_mul]; rfl
    | succ n ih => rw [List.range_succ, List.foldl_concat, Nat.succ_mul, chain_eight_chunk n _ hl, ← ih]
  exact hregs _

theorem normSqNeon_eq (row : List α) : normSqNeon row = eightChains row := by
  apply normTail_eq
  intro l hl
  have hregs (n : ℕ) : ∀ l < 4,
      ((List.range n).foldl (fun (acc : (ℕ → α) × (ℕ → α)) c =>
        (fun l => acc.1 l + entry row (c * 8 + l) * entry row (c * 8 + l),
          fun l => acc.2 l + entry row (c * 8 + 4 + l) * entry row (c * 8 + 4 + l))) (fun _ => 0, fun _ => 0)).1 l =
        chain 8 (n * 8) (fun j => entry row j * entry row j) l ∧
      ((List.range n).foldl (fun (acc : (ℕ → α) × (ℕ → α)) c =>
        (fun l => acc.1 l + entry row (c * 8 + l) * entry row (c * 8 + l),
          fun l => acc.2 l + entry row (c * 8 + 4 + l) * entry row (c * 8 + 4 + l))) (fun _ => 0, fun _ => 0)).2 l =
        chain 8 (n * 8) (fun j => entry row j * entry row j) (4 + l) := by
    intro l hl
    induction n with
    | zero => rw [Nat.zero_mul]; exact ⟨rfl, rfl⟩
    | succ n ih =>
      rw [List.range_succ, List.foldl_concat, Nat.succ_mul, chain_eight_chunk n _ (show l < 8 by omega),
        chain_eight_chunk n _ (show 4 + l < 8 by omega), ← ih.1, ← ih.2, ← Nat.add_assoc]
      exact ⟨rfl, rfl⟩
  by_cases h : l < 4
  · exact (if_pos h).trans (hregs _ l h).1
  · have hhi := (hregs (row.length / 8) (l - 4) (by omega)).2
    rw [show 4 + (l - 4) = l by omega] at hhi
    exact (if_neg h).trans hhi

theorem simdNorm_eq (F : Floats α β) (M : Machine) (row : List α) : simdNorm F M row = F.sqrt (eightChains row) := by
  unfold simdNorm
  congr 1
  split
  · split
    · exact normSqAvx_eq row
    · exact normSqScalar_eq row
  · exact normSqNeon_eq row
  · exact normSqScalar_eq row

end norm

/-! ## One row -/

/-- Boundaries in order are nested. -/
theorem nested_of_sorted [LinearOrder α] [Zero α] {boundaries : List α} (h : boundaries.Pairwise (· ≤ ·)) :
    Nested boundaries := by
  intro i j hij hj x hx
  obtain rfl | hlt := Nat.eq_or_lt_of_le hij
  · exact hx
  · have hle := List.pairwise_iff_getElem.1 h i j (by omega) hj hlt
    rw [entry, List.getElem?_eq_getElem hj] at hx
    rw [entry, List.getElem?_eq_getElem (by omega)]
    exact lt_of_le_of_lt hle hx

/-- A row's bytes do not depend on what its buffer held. -/
theorem storeCodes_buffer {bits dim : ℕ} (code : ℕ → ℕ) (b b' : RowBuf bits dim) :
    storeCodes bits dim code b.1 = storeCodes bits dim code b'.1 := by
  have hlen (b : RowBuf bits dim) : (storeCodes bits dim code b.1).length = bits * (dim / 8) := by
    rw [storeCodes, length_scatter, b.2]
  apply ext_grid (hlen b) (hlen b')
  intro p hp c hc
  have hstore (b : RowBuf bits dim) : (storeCodes bits dim code b.1)[p * (dim / 8) + c]? =
      some (planeByte fun k => (code (c * 8 + k)).testBit p) := by
    refine getElem?_scatter (x := (c, p)) (mem_cells.2 ⟨hc, hp⟩) (fun y hy he => ?_) ?_
    · obtain ⟨h1, h2⟩ := mul_add_inj (mem_cells.1 hy).1 hc he
      rw [h1, h2]
    · rw [b.2]
      exact mul_add_lt hp hc
  rw [hstore b, hstore b']

section row
variable [Add α] [Sub α] [Mul α] [Div α] [Neg α] [Zero α] [One α] [LinearOrder α]
variable [Add β] [Sub β] [Mul β] [Zero β] [LT β] [DecidableLT β]
variable {bits dim : ℕ}

/-- A row's norm. -/
def rowNorm (F : Floats α β) (src : List α) : α := F.sqrt (eightChains src)

/-- A row rotated by the scalar path in fresh buffers. -/
def rowRotated (F : Floats α β) (R : Rotation α) (src : List α) : List α :=
  let inv := if F.minInputNorm < rowNorm F src then 1 / rowNorm F src else 0
  match R.applyScaledInto .scalar ⟨src.length, entry src⟩ inv ⟨R.dim, fun _ => 0⟩ ⟨R.dim, fun _ => 0⟩ with
  | some out => tabulate out.1.len out.1.cells
  | none => []

/-- A rotated row's arithmetic under the committed pair. -/
def Encoder.ops (F : Floats α β) (E : Encoder α bits dim) (rot : List α) : RowArith α β :=
  rowOps F rot E.pair.1 E.pair.2 (E.pair.2.map (1 / ·))

/-- A row's inner product with its reconstruction: the four chains. -/
def Encoder.inner (F : Floats α β) (E : Encoder α bits dim) (rot : List α) : β :=
  fourChains dim fun d => (E.ops F rot).weigh d ((E.ops F rot).recon d
    (entry E.centroids (exceeded E.boundaries ((E.ops F rot).calib d))))

def zeroRow (bits dim : ℕ) : RowBuf bits dim := ⟨List.replicate (bits * (dim / 8)) 0, List.length_replicate⟩

/-- The encoding of a row: its packed bytes and its scale. -/
def encodeRow (F : Floats α β) (E : Encoder α bits dim) (src : List α) : List UInt8 × α :=
  let rot := rowRotated F E.rotation src
  (storeCodes bits dim (fun d => exceeded E.boundaries ((E.ops F rot).calib d)) (zeroRow bits dim).1,
    scaleOf F (E.inner F rot) (rowNorm F src))

/-- A worker's buffers are as long as a row. -/
def Batch.Sized (b : Batch α bits dim) : Prop := ∀ i < b.n, (b.bufs i).1.len = dim ∧ (b.bufs i).2.len = dim

omit [Add β] [Sub β] [Mul β] [Zero β] [LT β] [DecidableLT β] in
/-- Every kernel leaves the scalar path's row, whatever its buffers held. -/
theorem rotateRow_eq {σ : Type*} {rng : Rng σ} {seed : σ} {invSqrt : ℕ → α} {R : Rotation α}
    (hR : Rotation.new rng seed invSqrt dim = some R) (F : Floats α β) (M : Machine) {src : List α} (hsrc : src.length = dim)
    {bufs : Buf α × Buf α} (hbufs : bufs.1.len = dim ∧ bufs.2.len = dim) :
    rotateRow F M R src bufs = some (rowNorm F src, rowRotated F R src) ∧ (rowRotated F R src).length = dim := by
  obtain ⟨h, rfl⟩ := Rotation.new_built hR
  obtain ⟨e, Q, he, hblock, hdim⟩ := h.block
  have hsource : (⟨src.length, entry src⟩ : Buf α).len = R.dim := hsrc
  have hfresh : (⟨R.dim, fun _ => 0⟩ : Buf α).len = R.dim := rfl
  have hnorm : simdNorm F M src = rowNorm F src := simdNorm_eq F M src
  unfold rotateRow rowRotated
  rw [hnorm]
  dsimp only
  generalize (if F.minInputNorm < rowNorm F src then 1 / rowNorm F src else 0) = inv
  obtain ⟨out, left, hout, hlen, hcells⟩ :=
    Rotation.applyScaledInto_some h he hblock hdim M.rotate inv hsource hbufs.1 hbufs.2
  obtain ⟨out', left', hout', hlen', hcells'⟩ :=
    Rotation.applyScaledInto_some h he hblock hdim .scalar inv hsource hfresh hfresh
  rw [hout, hout']
  refine ⟨?_, by rw [length_tabulate, hlen']⟩
  show some (rowNorm F src, tabulate out.len out.cells) = some (rowNorm F src, tabulate out'.len out'.cells)
  rw [hlen, hlen', tabulate_congr fun x hx => (hcells x hx).trans (hcells' x hx).symm]

/-! ## A batch, row by row -/

theorem map_range_rows {γ δ : Type*} {f : ℕ → γ} {g : δ → γ} {rows : List δ}
    (h : ∀ (i : ℕ) (hi : i < rows.length), f i = g rows[i]) : (List.range rows.length).map f = rows.map g := by
  apply List.ext_getElem
  · rw [List.length_map, List.length_map, List.length_range]
  · intro i h1 h2
    rw [List.getElem_map, List.getElem_map, List.getElem_range]
    exact h i _

omit [Sub α] [Neg α] [LT β] [DecidableLT β] in
/-- Whatever the kernel and the buffer, and with or without the batch's table, a row's bytes and its four chains. -/
theorem fused_row (F : Floats α β) (E : Encoder α bits dim) (hb : ValidBits bits) (hdim : dim % 8 = 0)
    (hlen : E.boundaries.length = 2 ^ bits - 1) (hsorted : E.boundaries.Pairwise (· ≤ ·)) (kernel : Kernel) (useTable : Prop)
    [Decidable useTable] (rot : List α) (buf : RowBuf bits dim) :
    fusedQuantizeScalePack kernel bits (E.ops F rot)
        (if useTable then some (buildReconTable (E.ops F []) bits dim E.centroids) else none) E.boundaries E.centroids buf.1 dim =
      (storeCodes bits dim (fun d => exceeded E.boundaries ((E.ops F rot).calib d)) (zeroRow bits dim).1, E.inner F rot) := by
  have hn := nested_of_sorted hsorted
  apply Prod.ext
  · rw [fused_fst kernel hb hn hlen]
    exact storeCodes_buffer _ _ _
  · rw [fused_snd kernel hb hn hlen, chainSum_eq_chains, show dim / 8 * 8 = dim by omega]
    · rfl
    -- a table in use is the one built from this pair and these centroids
    · intro table htable
      split at htable
      · exact (Option.mem_some_iff.1 htable).symm
      · exact absurd htable (Option.not_mem_none _)

theorem encode_eq {σ : Type*} {rng : Rng σ} {seed : σ} {invSqrt : ℕ → α} {E : Encoder α bits dim}
    (hR : Rotation.new rng seed invSqrt dim = some E.rotation) (hb : ValidBits bits) (hdim0 : dim ≠ 0) (hdim : dim % 8 = 0)
    (hlen : E.boundaries.length = 2 ^ bits - 1) (hsorted : E.boundaries.Pairwise (· ≤ ·))
    (hpair : E.pair.1.length = dim ∧ E.pair.2.length = dim) (F : Floats α β) (out : List UInt8 × List α)
    {b : Batch α bits dim} (hbufs : b.Sized) {rows : List (List α)} (hrows : ∀ r ∈ rows, r.length = dim)
    (hn : b.n = rows.length) (hvectors : b.vectors = rows.flatten) :
    encode F E out b = some (out.1 ++ rows.flatMap (fun r => (encodeRow F E r).1),
      out.2 ++ rows.map fun r => (encodeRow F E r).2) := by
  -- a row is rotated in its own buffers, whatever they held
  have hrow (i : ℕ) (hi : i < rows.length) : rotateRow F b.machine E.rotation (rowAt b.vectors dim i) (b.bufs i) =
      some (rowNorm F rows[i], rowRotated F E.rotation rows[i]) := by
    rw [hvectors, Grid.rowAt_flatten hrows hi]
    exact (rotateRow_eq hR F b.machine (hrows _ (List.getElem_mem hi)) (hbufs i (hn ▸ hi))).1
  have hrotlen : ∀ r ∈ rows.map (rowRotated F E.rotation), r.length = dim := by
    intro r hr
    obtain ⟨src, hsrc, rfl⟩ := List.mem_map.mp hr
    have hfresh : ((⟨dim, fun _ => 0⟩, ⟨dim, fun _ => 0⟩) : Buf α × Buf α).1.len = dim ∧
      ((⟨dim, fun _ => 0⟩, ⟨dim, fun _ => 0⟩) : Buf α × Buf α).2.len = dim := ⟨rfl, rfl⟩
    exact (rotateRow_eq hR F ⟨⟨.other, false⟩, false, .scalar⟩ (hrows src hsrc) hfresh).2
  have hrotate : rotateBatchInto F E b = some (rows.map fun r => (rowNorm F r, rowRotated F E.rotation r)) := by
    have hsome : ∀ i ∈ List.range b.n, rotateRow F b.machine E.rotation (rowAt b.vectors dim i) (b.bufs i) =
        some (rowNorm F (rows.getD i []), rowRotated F E.rotation (rows.getD i [])) := by
      intro i hi
      rw [List.mem_range, hn] at hi
      rw [hrow i hi, List.getD_eq_getElem?_getD, List.getElem?_eq_getElem hi, Option.getD_some]
    rw [rotateBatchInto, mapM_some hsome, hn]
    refine congrArg some (map_range_rows fun i hi => ?_)
    rw [List.getD_eq_getElem?_getD, List.getElem?_eq_getElem hi, Option.getD_some]
  unfold encode
  rw [if_pos ⟨hdim0, hdim, hpair.1, hpair.2⟩, hrotate]
  show some (encodeRotated F E b ((rows.map fun r => (rowNorm F r, rowRotated F E.rotation r)).flatMap (·.2))
    ((rows.map fun r => (rowNorm F r, rowRotated F E.rotation r)).map (·.1)) out) = _
  rw [List.flatMap_map, List.map_map]
  -- the quantizer cuts the rotated rows where the rotation put them
  have hrotated (i : ℕ) (hi : i < rows.length) :
      rowAt (rows.flatMap fun r => rowRotated F E.rotation r) dim i = rowRotated F E.rotation rows[i] := by
    have h := Grid.rowAt_flatten hrotlen (show i < (rows.map (rowRotated F E.rotation)).length by rwa [List.length_map])
    rwa [List.getElem_map, ← List.flatMap_def] at h
  have hkernels : (List.range b.n).map (fun i => fusedQuantizeScalePack b.machine.kernel bits
      (E.ops F (rowAt (rows.flatMap fun r => rowRotated F E.rotation r) dim i))
      (if KERNEL_USES_RECON_TABLE b.machine.toHost ∧ RECON_TABLE_MIN_ROWS ≤ b.n then
        some (buildReconTable (E.ops F []) bits dim E.centroids) else none) E.boundaries E.centroids (b.rowBuf i).1 dim) =
      rows.map fun r => ((encodeRow F E r).1, E.inner F (rowRotated F E.rotation r)) := by
    rw [hn]
    apply map_range_rows
    intro i hi
    rw [fused_row F E hb hdim hlen hsorted, hrotated i hi]
    rfl
  unfold Encoder.ops at hkernels
  unfold encodeRotated quantizeBatch
  dsimp only
  rw [hkernels, List.flatMap_map, List.map_map]
  have hscales : (tabulate b.n fun i => scaleOf F ((rows.map ((fun x => x.2) ∘ fun r =>
      ((encodeRow F E r).1, E.inner F (rowRotated F E.rotation r)))).getD i 0)
        (entry (rows.map ((fun x => x.1) ∘ fun r => (rowNorm F r, rowRotated F E.rotation r))) i)) =
      rows.map fun r => (encodeRow F E r).2 := by
    rw [tabulate, hn]
    apply map_range_rows
    intro i hi
    rw [entry, List.getElem?_map, List.getD_eq_getElem?_getD, List.getElem?_map, List.getElem?_eq_getElem hi]
    rfl
  rw [hscales]

/-- A batch of some rows of an index, in buffers of the right lengths. -/
def Batch.Of (b : Batch α bits dim) (rows : List (List α)) : Prop :=
  b.Sized ∧ (∀ r ∈ rows, r.length = dim) ∧ b.n = rows.length ∧ b.vectors = rows.flatten

theorem length_encodeRow (F : Floats α β) (E : Encoder α bits dim) (src : List α) :
    (encodeRow F E src).1.length = bits * (dim / 8) := by
  rw [encodeRow, storeCodes, length_scatter, (zeroRow bits dim).2]

/-- Batches are encoded to their single rows, one after another. -/
theorem encodeAll_eq {σ : Type*} {rng : Rng σ} {seed : σ} {invSqrt : ℕ → α} {E : Encoder α bits dim}
    (hR : Rotation.new rng seed invSqrt dim = some E.rotation) (hb : ValidBits bits) (hdim0 : dim ≠ 0) (hdim : dim % 8 = 0)
    (hlen : E.boundaries.length = 2 ^ bits - 1) (hsorted : E.boundaries.Pairwise (· ≤ ·))
    (hpair : E.pair.1.length = dim ∧ E.pair.2.length = dim) (F : Floats α β) {batches : List (Batch α bits dim)}
    {parts : List (List (List α))} (h : List.Forall₂ Batch.Of batches parts) :
    encodeAll F E batches = some (parts.flatten.flatMap (fun r => (encodeRow F E r).1),
      parts.flatten.map fun r => (encodeRow F E r).2) := by
  -- induction on the batches, what is written so far a prefix
  have hfold (out : List UInt8 × List α) : batches.foldlM (encode F E) out =
      some (out.1 ++ parts.flatten.flatMap (fun r => (encodeRow F E r).1),
        out.2 ++ parts.flatten.map fun r => (encodeRow F E r).2) := by
    induction h generalizing out with
    | nil =>
      rw [List.flatten_nil, List.flatMap_nil, List.map_nil, List.append_nil, List.append_nil]
      rfl
    | cons hb' _ ih =>
      obtain ⟨hbufs, hrows, hn, hvectors⟩ := hb'
      rw [List.foldlM_cons, encode_eq hR hb hdim0 hdim hlen hsorted hpair F out hbufs hrows hn hvectors]
      refine (ih _).trans ?_
      rw [List.flatten_cons, List.flatMap_append, List.map_append, List.append_assoc, List.append_assoc]
  exact hfold ([], [])

/-- However rows are divided into calls and batches, on whatever machines, the packed bytes and the scales are those of
the single rows, one after another; and each machine encodes a row alone to the same bytes. -/
theorem encodeAll_rows {σ : Type*} (rng : Rng σ) (seed : σ) (invSqrt : ℕ → α) {E : Encoder α bits dim}
    (hR : Rotation.new rng seed invSqrt dim = some E.rotation) (hb : ValidBits bits) (hdim0 : dim ≠ 0) (hdim : dim % 8 = 0)
    (hlen : E.boundaries.length = 2 ^ bits - 1) (hsorted : E.boundaries.Pairwise (· ≤ ·))
    (hpair : E.pair.1.length = dim ∧ E.pair.2.length = dim) (F : Floats α β) :
    (∀ (batches : List (Batch α bits dim)) (parts : List (List (List α))), List.Forall₂ Batch.Of batches parts →
      encodeAll F E batches = some (parts.flatten.flatMap (fun r => (encodeRow F E r).1),
        parts.flatten.map fun r => (encodeRow F E r).2)) ∧
    (∀ (b : Batch α bits dim) (r : List α), b.Of [r] → encodeAll F E [b] = some ((encodeRow F E r).1, [(encodeRow F E r).2])) ∧
    (∀ (M : Machine) (r : List α), simdNorm F M r = F.sqrt (combineNormChains (chain 8 r.length fun j => entry r j * entry r j))) ∧
    ∀ (kernel : Kernel) (useTable : Bool) (rot : List α) (buf : RowBuf bits dim),
      fusedQuantizeScalePack kernel bits (E.ops F rot)
        (if useTable then some (buildReconTable (E.ops F []) bits dim E.centroids) else none) E.boundaries E.centroids buf.1 dim =
      (storeCodes bits dim (fun d => exceeded E.boundaries ((E.ops F rot).calib d)) (zeroRow bits dim).1,
        let term := fun d => F.widen (entry rot d) *
          (F.widen (entry E.centroids (exceeded E.boundaries ((entry rot d + entry E.pair.1 d) * entry E.pair.2 d))) *
            F.widen (entry (E.pair.2.map (1 / ·)) d) - F.widen (entry E.pair.1 d))
        (chain 4 dim term 0 + chain 4 dim term 1) + (chain 4 dim term 2 + chain 4 dim term 3)) := by
  refine ⟨fun batches parts h => encodeAll_eq hR hb hdim0 hdim hlen hsorted hpair F h, fun b r h => ?_,
    fun M r => simdNorm_eq F M r, fun kernel useTable rot buf => fused_row F E hb hdim hlen hsorted kernel _ rot buf⟩
  refine (encodeAll_eq hR hb hdim0 hdim hlen hsorted hpair F (List.Forall₂.cons h List.Forall₂.nil)).trans ?_
  show some ((encodeRow F E r).1 ++ [], [(encodeRow F E r).2]) = _
  rw [List.append_nil]

end row

/-- Integers in place of the values. -/
def intFloats : Floats ℤ ℤ := ⟨id, id, id, 0, 0⟩

/-- Two rows of eight, in one batch on one machine and in two on others. -/
theorem encodeAll_rows_two : ∃ R : Rotation ℤ, Rotation.new Rotation.zeroRng () (fun _ => 1) 8 = some R ∧
    encodeAll intFloats (⟨R, [-1, 0, 1], [-2, -1, 1, 2], none⟩ : Encoder ℤ 2 8)
      [⟨⟨⟨.aarch64, false⟩, false, .neon⟩, List.replicate 16 3, 2, fun _ => (⟨8, fun _ => 5⟩, ⟨8, fun _ => 7⟩),
        fun _ => zeroRow 2 8⟩] =
    encodeAll intFloats (⟨R, [-1, 0, 1], [-2, -1, 1, 2], none⟩ : Encoder ℤ 2 8)
      [⟨⟨⟨.x86_64, true⟩, true, .avx512⟩, List.replicate 8 3, 1, fun _ => (⟨8, fun _ => 0⟩, ⟨8, fun _ => 1⟩),
        fun _ => zeroRow 2 8⟩,
        ⟨⟨⟨.other, false⟩, false, .scalar⟩, List.replicate 8 3, 1, fun _ => (⟨8, fun _ => 2⟩, ⟨8, fun _ => 4⟩),
        fun _ => zeroRow 2 8⟩] := by
  refine ⟨_, rfl, ?_⟩
  have hall := (encodeAll_rows Rotation.zeroRng () (fun _ => (1 : ℤ)) (E := ⟨_, [-1, 0, 1], [-2, -1, 1, 2], none⟩) rfl
    (show ValidBits 2 from Or.inl rfl) (show 8 ≠ 0 by decide) (show 8 % 8 = 0 from rfl) rfl (by decide) ⟨rfl, rfl⟩
    intFloats).1
  refine (hall _ [[List.replicate 8 3, List.replicate 8 3]] ?_).trans
    (hall _ [[List.replicate 8 3], [List.replicate 8 3]] ?_).symm
  · exact List.Forall₂.cons ⟨fun _ _ => ⟨rfl, rfl⟩, by decide, rfl, rfl⟩ List.Forall₂.nil
  · exact List.Forall₂.cons ⟨fun _ _ => ⟨rfl, rfl⟩, by decide, rfl, rfl⟩
      (List.Forall₂.cons ⟨fun _ _ => ⟨rfl, rfl⟩, by decide, rfl, rfl⟩ List.Forall₂.nil)

end Turbovec.Encode
