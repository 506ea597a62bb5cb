import Mathlib.Algebra.Order.Field.Basic
import Mathlib.Tactic.Abel
import Turbovec.Encode.Quantize

/-!
# Refitting stored rows

A new calibration re-encodes every stored row: its codes are decoded under the committed pair, and the decoding
goes back through the quantise kernel under the new pair, with the stored scale times its squared norm as the
row's norm. Everything here is in exact arithmetic, over an ordered field.

The kernel takes an inner product of at most a tenth for a degenerate row. That is a bound on a cosine where
the row is a unit vector, as a fresh row is; a decoded row is not one, so a row with a short decoding loses its
scale although its codes come back unchanged.
-/

namespace Turbovec.Encode

open Pack Slice Grid Cells
open Finset (range)

variable {K : Type*}

/-- A codebook: each boundary lies strictly between its two centroids. -/
structure Codebook (K : Type*) [Zero K] [LT K] (bits : ℕ) where
  boundaries : List K
  centroids : List K
  length_boundaries : boundaries.length = 2 ^ bits - 1
  below : ∀ i < 2 ^ bits - 1, entry centroids i < entry boundaries i
  above : ∀ i < 2 ^ bits - 1, entry boundaries i < entry centroids (i + 1)

/-- A calibration pair of full length. -/
structure Pair (K : Type*) (dim : ℕ) where
  shift : List K
  scaleTq : List K
  length_shift : shift.length = dim
  length_scaleTq : scaleTq.length = dim

/-- The identity pair. -/
def Pair.identity (K : Type*) [Zero K] [One K] (dim : ℕ) : Pair K dim :=
  ⟨List.replicate dim 0, List.replicate dim 1, List.length_replicate, List.length_replicate⟩

def Pair.isIdentity [Zero K] [One K] [DecidableEq K] {dim : ℕ} (p : Pair K dim) : Bool :=
  p.shift.all (fun x => decide (x = 0)) && p.scaleTq.all fun x => decide (x = 1)

/-- The rows of an index and the pair they are encoded under; an index without one keeps no pair. -/
@[ext]
structure Stored (K : Type*) (bits dim : ℕ) where
  nVectors : ℕ
  packed : List UInt8
  scales : List K
  calibration : Option (Pair K dim)
  valid : ValidBits bits
  dim_mod : dim % 8 = 0
  length_packed : packed.length = nVectors * (bits * (dim / 8))
  length_scales : scales.length = nVectors

/-- What the process runs on: the target, and whether `avx2` is detected. -/
structure Host where
  arch : Arch
  avx2 : Bool

def Host.kernel (H : Host) : Kernel :=
  match H.arch with
  | .aarch64 => .neon
  | .x86_64 => if H.avx2 then .avx2 else .scalar
  | .other => .scalar

def KERNEL_USES_RECON_TABLE (H : Host) : Bool := decide (H.arch ≠ .x86_64)

def RECON_TABLE_MIN_ROWS : ℕ := 16

def REENCODE_CHUNK_ROWS : ℕ := 4096

section Encode

variable [Field K] [LinearOrder K]

def DEGENERATE_INNER_EPS : K := 1 / 10

def scaleFromInner (inner norm : K) : K := if DEGENERATE_INNER_EPS < inner then norm / inner else 0

/-- `1 / scale_tq` -/
def Pair.inv {dim : ℕ} (p : Pair K dim) : List K := p.scaleTq.map (1 / ·)

/-- A row's arithmetic under a pair. -/
def rowArith {dim : ℕ} (rot : List K) (p : Pair K dim) : RowArith K K where
  calib d := (entry rot d + entry p.shift d) * entry p.scaleTq d
  recon d centroid := centroid * entry p.inv d - entry p.shift d
  weigh d x := entry rot d * x

variable {bits dim : ℕ} (H : Host) (book : Codebook K bits)

/-- `encode_prerotated`: the packed rows and the scales it appends. -/
def encodePrerotated (rotated norms : List K) (n : ℕ) (calibration : Option (Pair K dim))
    (rowBuf : ℕ → RowBuf bits dim) : List UInt8 × List K :=
  let p := calibration.getD (Pair.identity K dim)
  -- the reconstructions do not depend on the row, so a batch of some size shares them
  let centroidOrig := if KERNEL_USES_RECON_TABLE H ∧ RECON_TABLE_MIN_ROWS ≤ n then
    some (buildReconTable (rowArith [] p) bits dim book.centroids) else none
  let out := quantizeBatch H.kernel bits (fun i => rowArith (rowAt rotated dim i) p) centroidOrig book.boundaries
    book.centroids rowBuf n
  (out.1, tabulate n fun i => scaleFromInner (entry out.2 i) (entry norms i))

/-- The shift and the inverse scale the stored codes decode under. -/
def Stored.oldPair (x : Stored K bits dim) : List K × List K :=
  match x.calibration with
  | none => (List.replicate dim 0, List.replicate dim 1)
  | some p => (p.shift, p.inv)

/-- One chunk of `reencode_stored_rows`: decode the rows and encode the decodings. -/
def reencodeChunk (x : Stored K bits dim) (newPair : Pair K dim) (rowBuf : ℕ → RowBuf bits dim) (start rows : ℕ) :
    List UInt8 × List K :=
  let bytesPerRow := bits * (dim / 8)
  let nByteGroups := dim / codesPerByte bits
  let (oldShift, oldInv) := x.oldPair
  let codesFlat := extractCodesFlat
    ((x.packed.drop (start * bytesPerRow)).take ((start + rows) * bytesPerRow - start * bytesPerRow)) rows bits dim
  let recon := fun i => tabulate dim fun d =>
    entry book.centroids (codeAt bits (rowAt codesFlat nByteGroups i) d).toNat * entry oldInv d - entry oldShift d
  -- the decoding stands in for the rotated row, but it is no unit vector
  let norms := tabulate rows fun i => entry x.scales (start + i) *
    (List.range dim).foldl (fun sumsq d => sumsq + entry (recon i) d * entry (recon i) d) 0
  encodePrerotated H book ((List.range rows).flatMap recon) norms rows (some newPair) fun i => rowBuf (start + i)

/-- `reencode_stored_rows` -/
def reencodeStoredRows (x : Stored K bits dim) (newPair : Pair K dim) (rowBuf : ℕ → RowBuf bits dim) :
    List UInt8 × List K :=
  let n := x.nVectors
  let chunkRows := min REENCODE_CHUNK_ROWS n
  (List.range ((n + chunkRows - 1) / chunkRows)).foldl (fun out c =>
    let start := c * chunkRows
    let new := reencodeChunk H book x newPair rowBuf start (min chunkRows (n - start))
    (out.1 ++ new.1, out.2 ++ new.2)) ([], [])

end Encode

/-! ## The codebook -/

section Book

variable [LinearOrder K] [Zero K] {bits : ℕ} (book : Codebook K bits)

theorem Codebook.boundary_le {i j : ℕ} (hij : i ≤ j) (hj : j < 2 ^ bits - 1) :
    entry book.boundaries i ≤ entry book.boundaries j := by
  induction j, hij using Nat.le_induction with
  | base => exact le_refl _
  | succ j hij ih =>
    have hlt : entry book.boundaries j < entry book.boundaries (j + 1) :=
      (book.above j (by omega)).trans (book.below (j + 1) hj)
    exact (ih (by omega)).trans hlt.le

theorem Codebook.nested : Nested book.boundaries := by
  intro i j hij hj x hx
  rw [book.length_boundaries] at hj
  exact lt_of_le_of_lt (book.boundary_le hij hj) hx

/-- A centroid is in its own cell. -/
theorem Codebook.exceeded_centroid {c : ℕ} (hc : c < 2 ^ bits) :
    exceeded book.boundaries (entry book.centroids c) = c := by
  apply exceeded_of_between
  · rw [book.length_boundaries]
    omega
  · intro i hi
    have habove := book.above (c - 1) (by omega)
    rw [show c - 1 + 1 = c by omega] at habove
    exact lt_of_le_of_lt (book.boundary_le (by omega) (by omega)) habove
  · intro i hi hlt
    rw [book.length_boundaries] at hlt
    have hbelow := (book.below c (by omega)).trans_le (book.boundary_le hi hlt)
    exact hbelow.le.not_gt

end Book

/-! ## The kernel in exact arithmetic -/

/-- The chains of a kernel add up to the whole sum. -/
theorem chainSum_eq_sum {β : Type*} [AddCommMonoid β] (n : ℕ) (term : ℕ → β) :
    chainSum n term = ∑ d ∈ range (n * 8), term d := by
  have hlane (i : ℕ) : (List.range n).foldl
      (fun (chains : ℕ → β) c i => chains i + term (c * 8 + i) + term (c * 8 + (4 + i))) (fun _ => 0) i =
      ∑ c ∈ range n, (term (c * 8 + i) + term (c * 8 + (4 + i))) := by
    induction n with
    | zero => rfl
    | succ n ih =>
      rw [List.range_succ, List.foldl_append, List.foldl_cons, List.foldl_nil, ih, Finset.sum_range_succ, add_assoc]
  rw [chainSum, hlane, hlane, hlane, hlane, Wrapped.sum_range_mul, ← Finset.sum_add_distrib, ← Finset.sum_add_distrib,
    ← Finset.sum_add_distrib]
  apply Finset.sum_congr rfl
  intro c _
  simp only [Finset.sum_range_succ, Finset.sum_range_zero, zero_add]
  abel

section Rows

variable [Field K] [LinearOrder K] {bits dim : ℕ} (H : Host) (book : Codebook K bits)

/-- What a code stands for under a pair. -/
def decode (p : Pair K dim) (code d : ℕ) : K := entry book.centroids code * entry p.inv d - entry p.shift d

/-- The code a value takes under a pair. -/
def recode (p : Pair K dim) (x : K) (d : ℕ) : ℕ :=
  exceeded book.boundaries ((x + entry p.shift d) * entry p.scaleTq d)

variable {book}

/-- A batch: each row's codes under the pair, and its norm over the inner product with their decoding. -/
theorem encodePrerotated_eq (hb : ValidBits bits) (hdim : dim % 8 = 0) {rotated norms : List K} {n : ℕ}
    {p : Pair K dim} (rowBuf : ℕ → RowBuf bits dim) {row : ℕ → ℕ → K}
    (hrow : ∀ i < n, ∀ d < dim, entry (rowAt rotated dim i) d = row i d) :
    encodePrerotated H book rotated norms n (some p) rowBuf =
      ((List.range n).flatMap fun i => storeCodes bits dim (fun d => recode book p (row i d) d) (rowBuf i).1,
        tabulate n fun i => scaleFromInner (∑ d ∈ range dim, row i d * decode book p (recode book p (row i d) d) d)
          (entry norms i)) := by
  have hn := book.nested
  have hlen := book.length_boundaries
  have hstore (i : ℕ) (hi : i < n) :
      storeCodes bits dim (fun d => exceeded book.boundaries ((rowArith (rowAt rotated dim i) p).calib d)) (rowBuf i).1 =
        storeCodes bits dim (fun d => recode book p (row i d) d) (rowBuf i).1 := by
    apply storeCodes_congr
    intro d hd
    simp only [rowArith, recode, hrow i hi d hd]
  have hinner (i : ℕ) (hi : i < n) : chainSum (dim / 8) (fun d => (rowArith (rowAt rotated dim i) p).weigh d
      ((rowArith (rowAt rotated dim i) p).recon d
        (entry book.centroids (exceeded book.boundaries ((rowArith (rowAt rotated dim i) p).calib d))))) =
      ∑ d ∈ range dim, row i d * decode book p (recode book p (row i d) d) d := by
    rw [chainSum_eq_sum, show dim / 8 * 8 = dim by omega]
    apply Finset.sum_congr rfl
    intro d hd
    simp only [rowArith, recode, decode, hrow i hi d (Finset.mem_range.1 hd)]
  unfold encodePrerotated quantizeBatch
  simp only [Option.getD_some, List.flatMap_map]
  rw [Prod.mk.injEq]
  constructor
  · apply List.flatMap_congr
    intro i hi
    rw [fused_fst H.kernel hb hn hlen]
    exact hstore i (List.mem_range.1 hi)
  · apply tabulate_congr
    intro i hi
    rw [List.map_map]
    refine congrArg (fun x => scaleFromInner x (entry norms i)) ?_
    refine (entry_tabulate _ hi).trans ?_
    refine (fused_snd H.kernel hb hn hlen (rowArith (rowAt rotated dim i) p) ?_ _).trans (hinner i hi)
    intro table htable
    split at htable
    · exact (Option.mem_some_iff.1 htable).symm
    · exact absurd htable (Option.not_mem_none _)

end Rows

section Stored

variable [Field K] {bits dim : ℕ}

/-- The pair the rows decode under. -/
def Stored.pair (x : Stored K bits dim) : Pair K dim := x.calibration.getD (Pair.identity K dim)

theorem Stored.oldPair_eq (x : Stored K bits dim) : x.oldPair = (x.pair.shift, x.pair.inv) := by
  unfold Stored.oldPair Stored.pair
  cases x.calibration with
  | none => simp [Pair.identity, Pair.inv]
  | some p => rfl

variable [LinearOrder K] (H : Host) (book : Codebook K bits)

/-- A row's code, from its packed bytes. -/
def Stored.code (x : Stored K bits dim) (v d : ℕ) : ℕ :=
  (codeAt bits (extractRow bits dim (rowAt x.packed (bits * (dim / 8)) v)) d).toNat

/-- A row's decoding under the committed pair. -/
def Stored.decoded (x : Stored K bits dim) (v d : ℕ) : K := decode book x.pair (x.code v d) d

/-- What becomes of a row's packed bytes under a new pair. -/
def Stored.newRow (x : Stored K bits dim) (p : Pair K dim) (rowBuf : ℕ → RowBuf bits dim) (v : ℕ) : List UInt8 :=
  storeCodes bits dim (fun d => recode book p (x.decoded book v d) d) (rowBuf v).1

/-- What becomes of its scale. -/
def Stored.newScale (x : Stored K bits dim) (p : Pair K dim) (v : ℕ) : K :=
  scaleFromInner (∑ d ∈ range dim, x.decoded book v d * decode book p (recode book p (x.decoded book v d) d) d)
    (entry x.scales v * ∑ d ∈ range dim, x.decoded book v d * x.decoded book v d)

variable {book}

theorem reencodeChunk_eq (x : Stored K bits dim) (p : Pair K dim)
    (rowBuf : ℕ → RowBuf bits dim) (start rows : ℕ) :
    reencodeChunk H book x p rowBuf start rows =
      ((List.range rows).flatMap fun i => x.newRow book p rowBuf (start + i),
        tabulate rows fun i => x.newScale book p (start + i)) := by
  have hdecoded (i : ℕ) (hi : i < rows) (d : ℕ) : entry book.centroids (codeAt bits (rowAt (extractCodesFlat
      ((x.packed.drop (start * (bits * (dim / 8)))).take ((start + rows) * (bits * (dim / 8)) -
        start * (bits * (dim / 8)))) rows bits dim) (dim / codesPerByte bits) i) d).toNat * entry x.pair.inv d -
      entry x.pair.shift d = x.decoded book (start + i) d := by
    rw [rowAt_extractCodesFlat x.valid x.dim_mod _ hi, rowAt_drop_take _ (by omega)]
    rfl
  unfold reencodeChunk
  rw [x.oldPair_eq]
  dsimp only
  rw [@encodePrerotated_eq K _ _ bits dim H book x.valid x.dim_mod _ _ rows p (fun i => rowBuf (start + i))
    fun i d => x.decoded book (start + i) d]
  · refine congrArg (Prod.mk _) (tabulate_congr fun i hi => ?_)
    rw [entry_tabulate _ hi]
    unfold Stored.newScale
    refine congrArg (fun y => scaleFromInner _ (entry x.scales (start + i) * y)) ?_
    refine (@Wrapped.foldl_hom K K K _ _ _ id (fun _ _ => rfl) add_zero id _
      (fun d => x.decoded book (start + i) d * x.decoded book (start + i) d) dim ?_ 0).trans (zero_add _)
    intro sumsq d hd
    rw [entry_tabulate _ hd, hdecoded i hi]
    rfl
  · intro i hi d hd
    rw [rowAt_flatMap_range (fun i _ => length_tabulate dim _) hi, entry_tabulate _ hd]
    exact hdecoded i hi d

/-- Appending to two buffers chunk by chunk. -/
theorem foldl_append_pair {α β : Type*} (f : ℕ → List α × List β) (l : List ℕ) (out : List α × List β) :
    l.foldl (fun out c => (out.1 ++ (f c).1, out.2 ++ (f c).2)) out =
      (out.1 ++ l.flatMap fun c => (f c).1, out.2 ++ l.flatMap fun c => (f c).2) := by
  induction l generalizing out with
  | nil => simp
  | cons c l ih => rw [List.foldl_cons, ih, List.flatMap_cons, List.flatMap_cons, List.append_assoc, List.append_assoc]

/-- The chunks of `n` rows are the rows. -/
theorem flatMap_chunks {α : Type*} (f : ℕ → List α) (n : ℕ) :
    ((List.range ((n + min REENCODE_CHUNK_ROWS n - 1) / min REENCODE_CHUNK_ROWS n)).flatMap fun c =>
      (List.range (min (min REENCODE_CHUNK_ROWS n) (n - c * min REENCODE_CHUNK_ROWS n))).flatMap fun i =>
        f (c * min REENCODE_CHUNK_ROWS n + i)) = (List.range n).flatMap f := by
  have hzero : n = 0 ∨ 0 < min REENCODE_CHUNK_ROWS n := by
    unfold REENCODE_CHUNK_ROWS
    omega
  generalize min REENCODE_CHUNK_ROWS n = k at hzero
  obtain rfl | hk := hzero
  · obtain rfl | hk := Nat.eq_zero_or_pos k
    · rfl
    · rw [Nat.div_eq_of_lt (by omega)]
      rfl
  · have hm : n ≤ (n + k - 1) / k * k := by
      have hdiv := Nat.div_add_mod' (n + k - 1) k
      have hmod := Nat.mod_lt (n + k - 1) hk
      omega
    have hall := flatMap_blocks k n ((n + k - 1) / k) f
    rw [Nat.min_eq_left hm] at hall
    simp only [Nat.min_comm k]
    exact hall

/-- Chunk by chunk the rows are re-encoded one by one. -/
theorem reencodeStoredRows_eq (x : Stored K bits dim) (p : Pair K dim)
    (rowBuf : ℕ → RowBuf bits dim) :
    reencodeStoredRows H book x p rowBuf =
      ((List.range x.nVectors).flatMap (x.newRow book p rowBuf), tabulate x.nVectors (x.newScale book p)) := by
  have htab (n : ℕ) (g : ℕ → K) : tabulate n g = (List.range n).flatMap fun i => [g i] := List.map_eq_flatMap
  unfold reencodeStoredRows
  dsimp only
  rw [foldl_append_pair fun c => reencodeChunk H book x p rowBuf (c * min REENCODE_CHUNK_ROWS x.nVectors)
    (min (min REENCODE_CHUNK_ROWS x.nVectors) (x.nVectors - c * min REENCODE_CHUNK_ROWS x.nVectors))]
  simp only [reencodeChunk_eq, List.nil_append, htab]
  rw [Prod.mk.injEq]
  exact ⟨flatMap_chunks (x.newRow book p rowBuf) _, flatMap_chunks (fun v => [x.newScale book p v]) _⟩

variable (book)

/-- The rows under a new pair, committed. -/
def refit (x : Stored K bits dim) (p : Pair K dim) (rowBuf : ℕ → RowBuf bits dim) : Stored K bits dim where
  nVectors := x.nVectors
  packed := (reencodeStoredRows H book x p rowBuf).1
  scales := (reencodeStoredRows H book x p rowBuf).2
  calibration := some p
  valid := x.valid
  dim_mod := x.dim_mod
  length_packed := by
    rw [reencodeStoredRows_eq]
    apply length_flatMap_range
    intro v _
    rw [Stored.newRow, storeCodes, length_scatter, (rowBuf v).2]
  length_scales := by
    rw [reencodeStoredRows_eq, length_tabulate]

/-- `calibrate_2d`, as far as the rows go: fit a pair, refuse the identity, re-encode and commit. -/
def calibrate (fitCalibration : List K → Pair K dim) (x : Stored K bits dim) (sample : List K)
    (rowBuf : ℕ → RowBuf bits dim) : Stored K bits dim :=
  let p := fitCalibration sample
  if p.isIdentity then x
  else if 0 < x.nVectors then refit H book x p rowBuf
  else { x with calibration := some p }

variable {book} {x : Stored K bits dim} {p : Pair K dim} {rowBuf : ℕ → RowBuf bits dim}

theorem refit_code {v d : ℕ} (hv : v < x.nVectors) (hd : d < dim) :
    (refit H book x p rowBuf).code v d = recode book p (x.decoded book v d) d := by
  have hrow : rowAt (refit H book x p rowBuf).packed (bits * (dim / 8)) v = x.newRow book p rowBuf v := by
    unfold refit
    dsimp only
    rw [reencodeStoredRows_eq]
    apply rowAt_flatMap_range _ hv
    intro v _
    rw [Stored.newRow, storeCodes, length_scatter, (rowBuf v).2]
  rw [Stored.code, hrow]
  apply codeAt_extractRow x.valid x.dim_mod hd (exceeded_lt book.length_boundaries _)
  intro q hq
  exact testBit_storeCodes (rowBuf v).2 x.dim_mod _ hd hq

theorem refit_decoded {v d : ℕ} (hv : v < x.nVectors) (hd : d < dim) :
    (refit H book x p rowBuf).decoded book v d = decode book p (recode book p (x.decoded book v d) d) d := by
  rw [Stored.decoded, refit_code H hv hd]
  rfl

theorem refit_scale {v : ℕ} (hv : v < x.nVectors) :
    entry (refit H book x p rowBuf).scales v = scaleFromInner
      (∑ d ∈ range dim, x.decoded book v d * (refit H book x p rowBuf).decoded book v d)
      (entry x.scales v * ∑ d ∈ range dim, x.decoded book v d * x.decoded book v d) := by
  have hscale : entry (refit H book x p rowBuf).scales v = x.newScale book p v := by
    unfold refit
    dsimp only
    rw [reencodeStoredRows_eq, entry_tabulate _ hv]
  have hinner : ∑ d ∈ range dim, x.decoded book v d * decode book p (recode book p (x.decoded book v d) d) d =
      ∑ d ∈ range dim, x.decoded book v d * (refit H book x p rowBuf).decoded book v d := by
    apply Finset.sum_congr rfl
    intro d hd
    rw [refit_decoded H hv (Finset.mem_range.1 hd)]
  rw [hscale, Stored.newScale, hinner]

end Stored

/-! ## The fixed point -/

/-- A row whose planes hold these codes is the row they are stored to. -/
theorem storeCodes_code {bits dim : ℕ} {x : Stored K bits dim} {v : ℕ} (hv : v < x.nVectors) (buf : RowBuf bits dim) :
    storeCodes bits dim (x.code v) buf.1 = rowAt x.packed (bits * (dim / 8)) v := by
  have hstore : (storeCodes bits dim (x.code v) buf.1).length = bits * (dim / 8) := by
    rw [storeCodes, length_scatter, buf.2]
  have hrow := length_rowAt x.length_packed hv
  apply ext_grid hstore hrow
  intro q hq c hc
  have hlt : q * (dim / 8) + c < bits * (dim / 8) := mul_add_lt hq hc
  rw [getElem?_eq_entry (by omega), getElem?_eq_entry (by omega), Option.some.injEq]
  apply Bits.eq_of_testBit
  intro i hi
  have hd : c * 8 + (7 - i) < dim := by omega
  have hbit := testBit_storeCodes buf.2 x.dim_mod (x.code v) hd hq
  have hcode := testBit_codeAt x.valid x.dim_mod (rowAt x.packed (bits * (dim / 8)) v) hd hq
  rw [show (c * 8 + (7 - i)) / 8 = c by omega, show 7 - (c * 8 + (7 - i)) % 8 = i by omega] at hbit hcode
  rw [hbit, ← hcode]
  rfl

section Fixed

variable [Field K] [LinearOrder K] [IsStrictOrderedRing K] {bits dim : ℕ} (H : Host) {book : Codebook K bits}
variable {x : Stored K bits dim}

/-- A decoded value is in its own code's cell: the pair undoes itself and a centroid quantises to its code. -/
theorem recode_pair (hpos : ∀ p ∈ x.calibration, ∀ s ∈ p.scaleTq, 0 < s) {v d : ℕ} (hd : d < dim) :
    recode book x.pair (x.decoded book v d) d = x.code v d := by
  have hs : 0 < entry x.pair.scaleTq d := by
    unfold Stored.pair
    cases hcal : x.calibration with
    | none =>
      rw [Option.getD_none, Pair.identity, entry, List.getElem?_replicate, if_pos hd]
      exact zero_lt_one
    | some p =>
      rw [Option.getD_some]
      have hlt : d < p.scaleTq.length := by rw [p.length_scaleTq]; exact hd
      rw [entry, List.getElem?_eq_getElem hlt]
      exact hpos p (by rw [hcal]; rfl) _ (List.getElem_mem hlt)
  have hinv : entry x.pair.inv d = 1 / entry x.pair.scaleTq d := by
    have hlt : d < x.pair.scaleTq.length := by rw [x.pair.length_scaleTq]; exact hd
    rw [Pair.inv, entry, entry, List.getElem?_map, List.getElem?_eq_getElem hlt]
    rfl
  have hback : (x.decoded book v d + entry x.pair.shift d) * entry x.pair.scaleTq d =
      entry book.centroids (x.code v d) := by
    rw [Stored.decoded, decode, hinv, sub_add_cancel, mul_assoc, one_div_mul_cancel hs.ne', mul_one]
  -- what is left is a centroid, and that is in its own cell
  rw [recode, hback]
  exact book.exceeded_centroid (codeAt_lt x.valid _ d)

/-- A refit under the committed pair keeps every code. -/
theorem refit_packed (hpos : ∀ p ∈ x.calibration, ∀ s ∈ p.scaleTq, 0 < s) (rowBuf : ℕ → RowBuf bits dim) :
    (refit H book x x.pair rowBuf).packed = x.packed := by
  have hpacked : (refit H book x x.pair rowBuf).packed =
      (List.range x.nVectors).flatMap (x.newRow book x.pair rowBuf) := by
    unfold refit
    dsimp only
    rw [reencodeStoredRows_eq]
  rw [hpacked, ← flatMap_rowAt x.length_packed]
  apply List.flatMap_congr
  intro v hv
  rw [Stored.newRow, storeCodes_congr fun d hd => recode_pair hpos hd,
    storeCodes_code (List.mem_range.1 hv)]

/-- What a refit under the committed pair makes of a scale. -/
theorem refit_scale_pair (hpos : ∀ p ∈ x.calibration, ∀ s ∈ p.scaleTq, 0 < s) (rowBuf : ℕ → RowBuf bits dim) {v : ℕ}
    (hv : v < x.nVectors) : entry (refit H book x x.pair rowBuf).scales v =
      if DEGENERATE_INNER_EPS < ∑ d ∈ range dim, x.decoded book v d * x.decoded book v d then entry x.scales v else 0 := by
  -- the row decodes to itself again, so its inner product is its squared norm
  have hinner : ∑ d ∈ range dim, x.decoded book v d * (refit H book x x.pair rowBuf).decoded book v d =
      ∑ d ∈ range dim, x.decoded book v d * x.decoded book v d := by
    apply Finset.sum_congr rfl
    intro d hd
    rw [refit_decoded H hv (Finset.mem_range.1 hd), recode_pair hpos (Finset.mem_range.1 hd)]
    rfl
  rw [refit_scale H hv, hinner, scaleFromInner]
  split
  · rename_i h
    have heps : (0 : K) < DEGENERATE_INNER_EPS := by
      unfold DEGENERATE_INNER_EPS
      exact div_pos one_pos (by norm_num)
    rw [mul_div_assoc, div_self (heps.trans h).ne', mul_one]
  · rfl

/-- Every row is degenerate already, or its decoding is long enough to pass for a healthy row. -/
def ScalesKept (book : Codebook K bits) (x : Stored K bits dim) : Prop :=
  ∀ v < x.nVectors, entry x.scales v = 0 ∨
    DEGENERATE_INNER_EPS < ∑ d ∈ range dim, x.decoded book v d * x.decoded book v d

theorem refit_scales_iff (hpos : ∀ p ∈ x.calibration, ∀ s ∈ p.scaleTq, 0 < s) (rowBuf : ℕ → RowBuf bits dim) :
    (refit H book x x.pair rowBuf).scales = x.scales ↔ ScalesKept book x := by
  constructor
  · intro h v hv
    have hscale := @refit_scale_pair K _ _ _ bits dim H book x hpos rowBuf v hv
    rw [h] at hscale
    split at hscale
    · exact Or.inr ‹_›
    · exact Or.inl hscale
  · intro h
    apply ext_entry
    · exact (refit H book x x.pair rowBuf).length_scales.trans x.length_scales.symm
    · intro v hv
      rw [(refit H book x x.pair rowBuf).length_scales] at hv
      rw [refit_scale_pair H hpos rowBuf hv]
      obtain hzero | hlong := h v hv
      · rw [hzero, ite_self]
      · rw [if_pos hlong]

/-- Calibrating again with one sample changes nothing exactly when the scales are kept. -/
theorem calibrate_twice_iff (fitCalibration : List K → Pair K dim) (sample : List K)
    (hfit : ∀ s ∈ (fitCalibration sample).scaleTq, 0 < s) (rowBuf rowBuf' : ℕ → RowBuf bits dim) :
    let once := calibrate H book fitCalibration x sample rowBuf
    calibrate H book fitCalibration once sample rowBuf' = once ↔
      (fitCalibration sample).isIdentity = true ∨ ScalesKept book once := by
  intro once
  by_cases hid : (fitCalibration sample).isIdentity = true
  · have h : ∀ (y : Stored K bits dim) (buf : ℕ → RowBuf bits dim), calibrate H book fitCalibration y sample buf = y :=
      fun y buf => if_pos hid
    exact ⟨fun _ => Or.inl hid, fun _ => h once rowBuf'⟩
  · by_cases hn : 0 < x.nVectors
    · have honce : once = refit H book x (fitCalibration sample) rowBuf := (if_neg hid).trans (if_pos hn)
      have htwice : calibrate H book fitCalibration once sample rowBuf' = refit H book once once.pair rowBuf' := by
        rw [honce]
        exact (if_neg hid).trans (if_pos hn)
      have hpos : ∀ p ∈ once.calibration, ∀ s ∈ p.scaleTq, 0 < s := by
        rw [honce]
        rintro p hp
        obtain rfl := Option.mem_some_iff.1 hp
        exact hfit
      rw [htwice, ← refit_scales_iff H hpos rowBuf', or_iff_right hid]
      constructor
      · intro h
        exact congrArg Stored.scales h
      · intro h
        apply Stored.ext
        · rfl
        · exact refit_packed H hpos rowBuf'
        · exact h
        · rw [honce]
          rfl
    · have honce : once = { x with calibration := some (fitCalibration sample) } :=
        (if_neg hid).trans (if_neg hn)
      rw [honce]
      refine ⟨fun _ => Or.inr fun v hv => absurd (Nat.zero_lt_of_lt hv) hn, fun _ => ?_⟩
      exact (if_neg hid).trans (if_neg hn)

/-- Refitting under the committed pair gives back every code, and every scale where no row with a scale has a
decoding of squared norm at most a tenth; under any pair a scale above the threshold follows the two decodings;
and so calibrating twice is calibrating once under the same condition. -/
theorem refit_fixed_iff (hpos : ∀ p ∈ x.calibration, ∀ s ∈ p.scaleTq, 0 < s) (fitCalibration : List K → Pair K dim)
    (sample : List K) (hfit : ∀ s ∈ (fitCalibration sample).scaleTq, 0 < s) (rowBuf rowBuf' : ℕ → RowBuf bits dim) :
    (((refit H book x x.pair rowBuf).packed = x.packed ∧ (refit H book x x.pair rowBuf).scales = x.scales ∧
      ∀ p, ∀ v < x.nVectors,
        let y := refit H book x p rowBuf
        let inner := ∑ d ∈ range dim, x.decoded book v d * y.decoded book v d
        DEGENERATE_INNER_EPS < inner → entry y.scales v =
          entry x.scales v * (∑ d ∈ range dim, x.decoded book v d * x.decoded book v d) / inner) ↔
      ScalesKept book x) ∧
    let once := calibrate H book fitCalibration x sample rowBuf
    (calibrate H book fitCalibration once sample rowBuf' = once ↔
      (fitCalibration sample).isIdentity = true ∨ ScalesKept book once) := by
  refine ⟨⟨fun h => (refit_scales_iff H hpos rowBuf).1 h.2.1, fun h => ⟨refit_packed H hpos rowBuf,
    (refit_scales_iff H hpos rowBuf).2 h, ?_⟩⟩, calibrate_twice_iff H fitCalibration sample hfit rowBuf rowBuf'⟩
  intro p v hv y inner hinner
  rw [refit_scale H hv]
  exact if_pos hinner

end Fixed

/-! ## A row whose decoding is short -/

/-- Two bits. -/
def smallBook : Codebook ℚ 2 where
  boundaries := [-1 / 3, 0, 1 / 3]
  centroids := [-1 / 2, -3 / 20, 3 / 20, 1 / 2]
  length_boundaries := rfl
  below := by decide +kernel
  above := by decide +kernel

/-- Three on every dimension. -/
def smallPair : Pair ℚ 8 := ⟨List.replicate 8 0, List.replicate 8 3, rfl, rfl⟩

def smallRow (packed : List UInt8) (scale : ℚ) (h : packed.length = 2) : Stored ℚ 2 8 :=
  ⟨1, packed, [scale], some smallPair, Or.inl rfl, rfl, h, rfl⟩

def smallBuf : ℕ → RowBuf 2 8 := fun _ => ⟨[0, 0], rfl⟩

theorem smallPair_pos : ∀ s ∈ smallPair.scaleTq, 0 < s := by
  decide +kernel

/-- Rows of threes. -/
def manyRows (n : ℕ) : Stored ℚ 2 8 :=
  ⟨n, List.replicate (n * 2) 0xFF, List.replicate n 2, some smallPair, Or.inl rfl, rfl, List.length_replicate,
    List.length_replicate⟩

/-- The rows of two chunks keep their scales. -/
theorem refit_fixed_iff_ones :
    (refit ⟨.x86_64, true⟩ smallBook (manyRows 4097) smallPair smallBuf).scales = List.replicate 4097 2 := by
  have hpos : ∀ p ∈ (manyRows 4097).calibration, ∀ s ∈ p.scaleTq, 0 < s := by
    intro p hp
    obtain rfl := Option.mem_some_iff.1 hp
    exact smallPair_pos
  have hkept : ScalesKept smallBook (manyRows 4097) := by
    intro v hv
    change v < 4097 at hv
    have hrow : rowAt (manyRows 4097).packed (2 * (8 / 8)) v = [0xFF, 0xFF] := by
      show ((List.replicate (4097 * 2) 0xFF).drop (v * (2 * (8 / 8)))).take (2 * (8 / 8)) = _
      rw [List.drop_replicate, List.take_replicate, min_eq_left (by omega)]
      rfl
    have hdecoded : ∀ d, (manyRows 4097).decoded smallBook v d = (smallRow [0xFF, 0xFF] 2 rfl).decoded smallBook 0 d := by
      intro d
      unfold Stored.decoded Stored.code
      rw [hrow]
      rfl
    simp only [hdecoded]
    exact Or.inr (by decide +kernel)
  exact ((refit_fixed_iff ⟨.x86_64, true⟩ hpos (fun _ => smallPair) [] smallPair_pos smallBuf smallBuf).1.2 hkept).2.1

/-- A unit vector, most of it in one dimension, is stored with a scale above five; a refit under the committed
pair keeps its codes and makes the scale zero. -/
theorem refit_loses_scale :
    encodePrerotated ⟨.x86_64, true⟩ smallBook ((393 / 407) :: List.replicate 7 (40 / 407)) [1] 1 (some smallPair)
        smallBuf = ([0x80, 0xFF], [814 / 159]) ∧
      (393 / 407) ^ 2 + 7 * (40 / 407) ^ 2 = (1 : ℚ) ∧
      (refit ⟨.x86_64, true⟩ smallBook (smallRow [0x80, 0xFF] (814 / 159) rfl) smallPair smallBuf).packed = [0x80, 0xFF] ∧
      (refit ⟨.x86_64, true⟩ smallBook (smallRow [0x80, 0xFF] (814 / 159) rfl) smallPair smallBuf).scales = [0] := by
  decide +kernel

end Turbovec.Encode
