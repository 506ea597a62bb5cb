import Mathlib.Logic.Function.Basic
import Turbovec.F32
import Turbovec.Lib.Cells
import Turbovec.Lib.Wrapped
import Turbovec.Pack.Layouts

/-!
# The quantise kernels

One kernel turns a rotated row into its codes, its packed bit planes and the inner product its scale comes
from. It is written three times: scalar, NEON and AVX2, each with its own boundary scan, byte assembly and
accumulators. All three leave the same bytes and the same four chains.
-/

namespace Turbovec.Encode

open Pack Slice Grid Cells

/-- A row's arithmetic: values are `f32` and terms `f64`. -/
structure RowArith (α β : Type*) where
  /-- `(rot_orig[d] + shift[d]) * scale_tq[d]` -/
  calib : ℕ → α
  /-- `recon_entry(centroid, inv_scale_tq[d], shift[d])` -/
  recon : ℕ → α → β
  /-- `rot_orig[d] * x` -/
  weigh : ℕ → β → β

variable {α β : Type*}

section Scan

variable [LT α] [DecidableLT α]

/-! ## The boundary scans -/

/-- A lane of a float comparison: all ones or all zeros. -/
def cmpGt (x b : α) : UInt32 := if b < x then 0xFFFFFFFF else 0

theorem cmpGt_of_lt {x b : α} (h : b < x) : cmpGt x b = 0xFFFFFFFF := if_pos h

theorem cmpGt_of_not_lt {x b : α} (h : ¬ b < x) : cmpGt x b = 0 := if_neg h

/-- Adding up sign bits of comparisons counts them. -/
theorem foldl_add_cmpGt (t : ℕ → α) (x : α) (n : ℕ) (a : UInt32) :
    (List.range n).foldl (fun acc k => acc + (cmpGt x (t k) >>> 31)) a =
      a + UInt32.ofNat (∑ k ∈ Finset.range n, if t k < x then 1 else 0) := by
  refine @Wrapped.foldl_hom UInt32 ℕ UInt32 _ _ _ UInt32.ofNat UInt32.ofNat_add UInt32.add_zero id _ _ n ?_ a
  intro acc k _
  by_cases h : t k < x
  · rw [cmpGt_of_lt h, if_pos h]
    rfl
  · rw [cmpGt_of_not_lt h, if_neg h]
    rfl

/-- Subtracting comparison masks counts them as well: a mask of ones is `-1`. -/
theorem foldl_sub_cmpGt (t : ℕ → α) (x : α) (n : ℕ) (a : UInt32) :
    (List.range n).foldl (fun acc k => acc - cmpGt x (t k)) a =
      a + UInt32.ofNat (∑ k ∈ Finset.range n, if t k < x then 1 else 0) := by
  refine @Wrapped.foldl_hom UInt32 ℕ UInt32 _ _ _ UInt32.ofNat UInt32.ofNat_add UInt32.add_zero id _ _ n ?_ a
  intro acc k _
  by_cases h : t k < x
  · -- subtracting a mask of ones adds one
    rw [cmpGt_of_lt h, if_pos h]
    exact UInt32.sub_eq_add_neg acc 0xFFFFFFFF
  · rw [cmpGt_of_not_lt h, if_neg h]
    exact (UInt32.sub_zero acc).trans (UInt32.add_zero acc).symm

/-- A code is its own value in a byte and in a lane. -/
theorem toNat_exceeded {bits : ℕ} {boundaries : List α} (hb : ValidBits bits) (hlen : boundaries.length = 2 ^ bits - 1) (x : α) :
    (UInt8.ofNat (exceeded boundaries x)).toNat = exceeded boundaries x ∧
      (UInt32.ofNat (exceeded boundaries x)).toNat = exceeded boundaries x := by
  have hlt : exceeded boundaries x < 256 :=
    (exceeded_lt hlen x).trans_le (by rcases hb with rfl | rfl | rfl <;> decide)
  exact ⟨UInt8.toNat_ofNat_of_lt' hlt, UInt32.toNat_ofNat_of_lt' (hlt.trans (by decide))⟩

/-- A lane of `vbslq` under such a mask. -/
def bsl (m : UInt32) (a b : α) : α := if m = 0 then b else a

/-- A lane of `blendv`, which looks at the mask's sign bit. -/
def blendv (a b : α) (m : UInt32) : α := if m >>> 31 = 0 then a else b

variable [Zero α]

/-- Count the boundaries the value exceeds. -/
def scanScalar (bits : ℕ) (boundaries : List α) (calib : α) : UInt8 :=
  (List.range (2 ^ bits - 1)).foldl (fun v bi => if entry boundaries bi < calib then v + 1 else v) 0

/-- A lane of the NEON scan: two levels at 4 bits. -/
def scanNeon (bits : ℕ) (boundaries : List α) (val : α) : UInt8 :=
  if bits = 4 then
    -- a value above the median boundary is above all eight up to it
    let m := cmpGt val (entry boundaries 7)
    ((List.range 7).foldl (fun acc k =>
      acc + (cmpGt val (bsl m (entry boundaries (8 + k)) (entry boundaries k)) >>> 31)) ((m >>> 31) <<< 3)).toUInt8
  else
    ((List.range (2 ^ bits - 1)).foldl (fun acc bi => acc + (cmpGt val (entry boundaries bi) >>> 31)) 0).toUInt8

/-- A lane of the AVX2 scan: two levels at 4 and at 2 bits. -/
def scanAvx2 (bits : ℕ) (boundaries : List α) (val : α) : UInt32 :=
  if bits = 4 then
    let m := cmpGt val (entry boundaries 7)
    (List.range 7).foldl (fun acc k =>
      acc - cmpGt val (blendv (entry boundaries k) (entry boundaries (8 + k)) m)) ((m >>> 31) <<< 3)
  else if bits = 2 then
    let m := cmpGt val (entry boundaries 1)
    ((m >>> 31) <<< 1) - cmpGt val (blendv (entry boundaries 0) (entry boundaries 2) m)
  else
    (List.range (2 ^ bits - 1)).foldl (fun acc bi => acc - cmpGt val (entry boundaries bi)) 0

end Scan

variable [Zero α]

/-! ## One byte of a plane -/

def planeByteScalar (codes : ℕ → UInt8) (p : ℕ) : UInt8 :=
  (List.range 8).foldl (fun byte k => byte ||| (((codes k >>> UInt8.ofNat p) &&& 1) <<< UInt8.ofNat (7 - k))) 0

/-- `vaddv_u8` of the weights of the lanes that have the bit. -/
def planeByteNeon (codes : ℕ → UInt8) (p : ℕ) : UInt8 :=
  let mask := (1 : UInt8) <<< UInt8.ofNat p
  -- the weights are distinct bits, so the sum never carries
  (List.range 8).foldl (fun sum k =>
    sum + ((if 0 < codes k &&& mask then 0xFF else 0) &&& entry [128, 64, 32, 16, 8, 4, 2, 1] k)) 0

/-- `movemask` of the reversed lanes, the bit shifted into each sign. -/
def planeByteAvx2 (acc : ℕ → UInt32) (p : ℕ) : UInt8 :=
  let rev := fun k => acc (entry [7, 6, 5, 4, 3, 2, 1, 0] k)
  let bit := fun k => rev k <<< UInt32.ofNat (31 - p)
  ((List.range 8).foldl (fun m k => m ||| ((bit k >>> 31) <<< UInt32.ofNat k)) 0).toUInt8

/-! ## The kernels -/

/-- The loop of a kernel over the row's chunks of eight: find the codes, accumulate their terms and store one
byte of each plane. The four chains start at zero. -/
def fusedLoop {γ : Type*} [Zero β] (bits bytesPerPlane : ℕ) (codesAt : ℕ → ℕ → γ)
    (accumulate : ℕ → (ℕ → γ) → (ℕ → β) → ℕ → β) (planeByte : (ℕ → γ) → ℕ → UInt8) (packedRow : List UInt8) :
    List UInt8 × (ℕ → β) :=
  (List.range bytesPerPlane).foldl (fun s c =>
    ((List.range bits).foldl (fun row p => row.set (p * bytesPerPlane + c) (planeByte (codesAt c) p)) s.1,
      accumulate c (codesAt c) s.2)) (packedRow, fun _ => 0)

/-- The inner product: the chains combined in a fixed order. -/
def combine [Add β] (s : List UInt8 × (ℕ → β)) : List UInt8 × β := (s.1, (s.2 0 + s.2 1) + (s.2 2 + s.2 3))

/-- `build_recon_table` -/
def buildReconTable (r : RowArith α β) (bits dim : ℕ) (centroids : List α) : List β :=
  (List.range dim).flatMap fun d => (List.range (2 ^ bits)).map fun c => r.recon d (entry centroids c)

/-- The reconstruction of code `v` at dimension `d`, from the batch's table where there is one. -/
def centroidInOrig [Zero β] (r : RowArith α β) (bits : ℕ) (centroidOrig : Option (List β)) (centroids : List α)
    (d v : ℕ) : β :=
  match centroidOrig with
  | some table => entry table (d * 2 ^ bits + v)
  | none => r.recon d (entry centroids v)

section Kernels

variable [LT α] [DecidableLT α] [Add β] [Zero β] (bits : ℕ) (r : RowArith α β) (centroidOrig : Option (List β))
variable (boundaries centroids : List α) (packedRow : List UInt8) (dim : ℕ)

/-- `fused_quantize_scale_pack_scalar`, up to the scale. -/
def fusedQuantizeScalePackScalar : List UInt8 × β :=
  combine (fusedLoop bits (dim / 8) (fun c k => scanScalar bits boundaries (r.calib (c * 8 + k)))
    (fun c codes chains => (List.range 8).foldl (fun chains k =>
      let j := c * 8 + k
      Function.update chains (j % 4)
        (chains (j % 4) + r.weigh j (centroidInOrig r bits centroidOrig centroids j (codes k).toNat))) chains)
    planeByteScalar packedRow)

/-- `fused_quantize_scale_pack` on aarch64: two registers of two chains. -/
def fusedQuantizeScalePackNeon : List UInt8 × β :=
  combine (fusedLoop bits (dim / 8) (fun c k => scanNeon bits boundaries (r.calib (c * 8 + k)))
    (fun c codes chains =>
      let terms := fun k => r.weigh (c * 8 + k) (centroidInOrig r bits centroidOrig centroids (c * 8 + k) (codes k).toNat)
      fun i => chains i + terms i + terms (4 + i))
    planeByteNeon packedRow)

/-- A lane of the AVX2 kernel's centroid select: from one register of eight, or from two halves at 4 bits. -/
def selectCentroid (code : UInt32) : α :=
  let cpad := (List.range 8).map fun i => entry centroids (min i (2 ^ bits - 1))
  let cpadHi := (List.range 8).map fun i => if bits = 4 then entry centroids (8 + i) else 0
  -- the permute looks at the low three bits of an index alone
  let low3 := (code &&& 7).toNat
  if bits = 4 then (if 7 < code.toInt32 then entry cpadHi low3 else entry cpad low3) else entry cpad low3

/-- `fused_quantize_scale_pack_avx2`: one register of four chains; the table is not used. -/
def fusedQuantizeScalePackAvx2 : List UInt8 × β :=
  combine (fusedLoop bits (dim / 8) (fun c k => scanAvx2 bits boundaries (r.calib (c * 8 + k)))
    (fun c acc chains =>
      let x := fun k => r.recon (c * 8 + k) (selectCentroid bits centroids (acc k))
      fun i => chains i + r.weigh (c * 8 + i) (x i) + r.weigh (c * 8 + (4 + i)) (x (4 + i)))
    planeByteAvx2 packedRow)

end Kernels

/-- Which kernel a host runs. -/
inductive Kernel where
  | scalar
  | neon
  | avx2
deriving DecidableEq, Repr

def fusedQuantizeScalePack [LT α] [DecidableLT α] [Add β] [Zero β] (kernel : Kernel) (bits : ℕ) (r : RowArith α β)
    (centroidOrig : Option (List β)) (boundaries centroids : List α) (packedRow : List UInt8) (dim : ℕ) :
    List UInt8 × β :=
  match kernel with
  | .scalar => fusedQuantizeScalePackScalar bits r centroidOrig boundaries centroids packedRow dim
  | .neon => fusedQuantizeScalePackNeon bits r centroidOrig boundaries centroids packedRow dim
  | .avx2 => fusedQuantizeScalePackAvx2 bits r boundaries centroids packedRow dim

/-- A thread's staging row: whatever an earlier row left there, in its `bytes_per_row` bytes. -/
def RowBuf (bits dim : ℕ) : Type := { row : List UInt8 // row.length = bits * (dim / 8) }

/-- `quantize_batch`: the rows' packed bytes, one after another, and their inner products. -/
def quantizeBatch [LT α] [DecidableLT α] [Add β] [Zero β] (kernel : Kernel) (bits : ℕ) (rows : ℕ → RowArith α β)
    (centroidOrig : Option (List β)) (boundaries centroids : List α) {dim : ℕ} (rowBuf : ℕ → RowBuf bits dim) (n : ℕ) :
    List UInt8 × List β :=
  let out := (List.range n).map fun i =>
    fusedQuantizeScalePack kernel bits (rows i) centroidOrig boundaries centroids (rowBuf i).1 dim
  (out.flatMap (·.1), out.map (·.2))

/-! ## Every scan counts the boundaries exceeded -/

section Scan

variable [LT α] [DecidableLT α] {bits : ℕ} {boundaries : List α}

theorem scanScalar_eq (hlen : boundaries.length = 2 ^ bits - 1) (x : α) :
    scanScalar bits boundaries x = UInt8.ofNat (exceeded boundaries x) := by
  rw [exceeded_eq_sum, hlen, scanScalar]
  refine (@Wrapped.foldl_hom UInt8 ℕ UInt8 _ _ _ UInt8.ofNat UInt8.ofNat_add UInt8.add_zero id _
    (hit boundaries x) _ ?_ 0).trans (UInt8.zero_add _)
  intro v bi _
  by_cases h : entry boundaries bi < x
  · rw [if_pos h, hit, if_pos h]
    rfl
  · rw [if_neg h, hit, if_neg h]
    exact (UInt8.add_zero v).symm

theorem scanNeon_eq (hn : Nested boundaries) (hlen : boundaries.length = 2 ^ bits - 1) (x : α) :
    scanNeon bits boundaries x = UInt8.ofNat (exceeded boundaries x) := by
  unfold scanNeon
  -- only the 4-bit scan needs the boundaries in order
  by_cases h4 : bits = 4
  · subst h4
    rw [if_pos rfl, hn.two_level (m := 7) hlen]
    simp only [foldl_add_cmpGt]
    by_cases h : entry boundaries 7 < x
    · rw [if_pos h, cmpGt_of_lt h, UInt32.toUInt8_add, UInt32.toUInt8_ofNat', UInt8.ofNat_add]
      rfl
    · rw [if_neg h, cmpGt_of_not_lt h, UInt32.toUInt8_add, UInt32.toUInt8_ofNat']
      exact UInt8.zero_add _
  · rw [if_neg h4, foldl_add_cmpGt, UInt32.toUInt8_add, UInt32.toUInt8_ofNat', exceeded_eq_sum, hlen]
    exact UInt8.zero_add _

theorem scanAvx2_eq (hn : Nested boundaries) (hlen : boundaries.length = 2 ^ bits - 1) (x : α) :
    scanAvx2 bits boundaries x = UInt32.ofNat (exceeded boundaries x) := by
  unfold scanAvx2
  by_cases h4 : bits = 4
  · subst h4
    rw [if_pos rfl, hn.two_level (m := 7) hlen]
    simp only [foldl_sub_cmpGt]
    by_cases h : entry boundaries 7 < x
    · rw [if_pos h, cmpGt_of_lt h, UInt32.ofNat_add]
      rfl
    · rw [if_neg h, cmpGt_of_not_lt h]
      exact UInt32.zero_add _
  · rw [if_neg h4]
    by_cases h2 : bits = 2
    · subst h2
      rw [if_pos rfl, hn.two_level (m := 1) hlen]
      have hone (a : UInt32) (b : α) : a - cmpGt x b = a + UInt32.ofNat (if b < x then 1 else 0) := by
        have := foldl_sub_cmpGt (fun _ => b) x 1 a
        rwa [Finset.sum_range_one] at this
      by_cases h : entry boundaries 1 < x
      · rw [if_pos h, Finset.sum_range_one, UInt32.ofNat_add, cmpGt_of_lt h]
        exact hone _ _
      · rw [if_neg h, Finset.sum_range_one, cmpGt_of_not_lt h]
        exact (hone _ _).trans (UInt32.zero_add _)
    · rw [if_neg h2, foldl_sub_cmpGt, exceeded_eq_sum, hlen]
      exact UInt32.zero_add _

end Scan

/-! ## Every byte assembly stores the same bits -/

/-- The byte whose bit `7 - k` is flag `k`. -/
def planeByte (flags : ℕ → Bool) : UInt8 :=
  (List.range 8).foldl (fun byte k => byte ||| (if flags k then 1 <<< UInt8.ofNat (7 - k) else 0)) 0

theorem testBit_planeByte (flags : ℕ → Bool) {i : ℕ} (hi : i < 8) :
    (planeByte flags).toNat.testBit i = flags (7 - i) := by
  have hbit (m : ℕ) (hm : m < 8) : ((1 : UInt8) <<< UInt8.ofNat m).toNat.testBit i = decide (m = i) := by
    have hall : ∀ i < 8, ∀ m < 8, ((1 : UInt8) <<< UInt8.ofNat m).toNat.testBit i = decide (m = i) := by decide
    exact hall i hi m hm
  have hstep (byte : UInt8) (k : ℕ) :
      (byte ||| (if flags k then 1 <<< UInt8.ofNat (7 - k) else 0)).toNat.testBit i =
        (byte.toNat.testBit i || (flags k && decide (7 - k = i))) := by
    rw [Bits.testBit_or]
    cases flags k with
    | true => rw [if_pos rfl, hbit _ (by omega), Bool.true_and]
    | false =>
      rw [if_neg Bool.false_ne_true, Bool.false_and]
      exact congrArg _ (Nat.zero_testBit i)
  have hfold := @Bits.foldl_or ℕ UInt8 (fun byte k => byte ||| (if flags k then 1 <<< UInt8.ofNat (7 - k) else 0))
    (fun byte => byte.toNat.testBit i) _ hstep (List.range 8) 0
  rw [Bits.any_range_eq_of_unique (by omega : 7 - i < 8)] at hfold
  · have hzero : (0 : UInt8).toNat.testBit i = false := Nat.zero_testBit i
    rw [hzero, show 7 - (7 - i) = i by omega, decide_eq_true rfl, Bool.and_true, Bool.false_or] at hfold
    exact hfold
  · intro k hk hflag
    have := of_decide_eq_true (Bool.and_eq_true_iff.1 hflag).2
    omega

theorem planeByteScalar_eq (codes : ℕ → UInt8) {p : ℕ} (hp : p < 8) :
    planeByteScalar codes p = planeByte fun k => (codes k).toNat.testBit p := by
  have hbit (x : UInt8) : (x >>> UInt8.ofNat p) &&& 1 = if x.toNat.testBit p then 1 else 0 := by
    apply UInt8.toNat.inj
    rw [UInt8.toNat_and, UInt8.toNat_shiftRight, UInt8.toNat_ofNat_of_lt' (hp.trans (by decide)), Nat.mod_eq_of_lt hp]
    show _ &&& 1 = _
    rw [Nat.and_one_is_mod, Nat.shiftRight_eq_div_pow, Nat.testBit_eq_decide_div_mod_eq]
    obtain h | h : x.toNat / 2 ^ p % 2 = 0 ∨ x.toNat / 2 ^ p % 2 = 1 := by omega
    · rw [h]
      rfl
    · rw [h]
      rfl
  unfold planeByteScalar planeByte
  congr 1
  ext byte k
  rw [hbit]
  split
  · rfl
  · rw [UInt8.zero_shiftLeft]

/-- The eight flags one by one. -/
theorem planeByte_eq (flags : ℕ → Bool) : planeByte flags =
    (0 : UInt8) ||| (if flags 0 then 1 <<< UInt8.ofNat (7 - 0) else 0) ||| (if flags 1 then 1 <<< UInt8.ofNat (7 - 1) else 0)
      ||| (if flags 2 then 1 <<< UInt8.ofNat (7 - 2) else 0) ||| (if flags 3 then 1 <<< UInt8.ofNat (7 - 3) else 0)
      ||| (if flags 4 then 1 <<< UInt8.ofNat (7 - 4) else 0) ||| (if flags 5 then 1 <<< UInt8.ofNat (7 - 5) else 0)
      ||| (if flags 6 then 1 <<< UInt8.ofNat (7 - 6) else 0) ||| (if flags 7 then 1 <<< UInt8.ofNat (7 - 7) else 0) := rfl

theorem planeByteNeon_eq (codes : ℕ → UInt8) {p : ℕ} (hp : p < 8) :
    planeByteNeon codes p = planeByte fun k => (codes k).toNat.testBit p := by
  -- distinct weights: their sum is their union
  have hsum : ∀ b0 b1 b2 b3 b4 b5 b6 b7 : Bool,
      (0 : UInt8) + (if b0 then (128 : UInt8) else 0) + (if b1 then (64 : UInt8) else 0) +
        (if b2 then (32 : UInt8) else 0) + (if b3 then (16 : UInt8) else 0) + (if b4 then (8 : UInt8) else 0) +
        (if b5 then (4 : UInt8) else 0) + (if b6 then (2 : UInt8) else 0) + (if b7 then (1 : UInt8) else 0) =
      (0 : UInt8) ||| (if b0 then 1 <<< UInt8.ofNat (7 - 0) else 0) ||| (if b1 then 1 <<< UInt8.ofNat (7 - 1) else 0)
      ||| (if b2 then 1 <<< UInt8.ofNat (7 - 2) else 0) ||| (if b3 then 1 <<< UInt8.ofNat (7 - 3) else 0)
      ||| (if b4 then 1 <<< UInt8.ofNat (7 - 4) else 0) ||| (if b5 then 1 <<< UInt8.ofNat (7 - 5) else 0)
      ||| (if b6 then 1 <<< UInt8.ofNat (7 - 6) else 0) ||| (if b7 then 1 <<< UInt8.ofNat (7 - 7) else 0) := by
    decide +kernel
  have hmask : ∀ p < 8, ((1 : UInt8) <<< UInt8.ofNat p).toNat = 2 ^ p := by decide
  have hhit (x w : UInt8) : (if 0 < x &&& ((1 : UInt8) <<< UInt8.ofNat p) then 0xFF else 0) &&& w =
      if x.toNat.testBit p then w else 0 := by
    have hand : (x &&& ((1 : UInt8) <<< UInt8.ofNat p)).toNat = (x.toNat.testBit p).toNat * 2 ^ p := by
      rw [UInt8.toNat_and, hmask p hp, Nat.and_two_pow]
    have hpos : 0 < x &&& ((1 : UInt8) <<< UInt8.ofNat p) ↔ x.toNat.testBit p = true := by
      rw [UInt8.lt_iff_toNat_lt, hand]
      cases x.toNat.testBit p with
      | true => simp
      | false => simp
    by_cases h : x.toNat.testBit p = true
    · rw [if_pos (hpos.2 h), if_pos h]
      exact UInt8.neg_one_and
    · rw [if_neg fun hlt => h (hpos.1 hlt), if_neg h]
      exact UInt8.zero_and
  rw [planeByte_eq, ← hsum]
  unfold planeByteNeon
  simp only [hhit]
  rfl

theorem planeByteAvx2_eq (acc : ℕ → UInt32) {p : ℕ} (hp : p < 8) :
    planeByteAvx2 acc p = planeByte fun k => (acc k).toNat.testBit p := by
  -- the lanes were reversed once, so lane `k` of the mask is flag `7 - k`
  have hmask : ∀ b0 b1 b2 b3 b4 b5 b6 b7 : Bool,
      ((0 : UInt32) ||| ((if b7 then 1 else 0) <<< UInt32.ofNat 0) ||| ((if b6 then 1 else 0) <<< UInt32.ofNat 1)
        ||| ((if b5 then 1 else 0) <<< UInt32.ofNat 2) ||| ((if b4 then 1 else 0) <<< UInt32.ofNat 3)
        ||| ((if b3 then 1 else 0) <<< UInt32.ofNat 4) ||| ((if b2 then 1 else 0) <<< UInt32.ofNat 5)
        ||| ((if b1 then 1 else 0) <<< UInt32.ofNat 6) ||| ((if b0 then 1 else 0) <<< UInt32.ofNat 7)).toUInt8 =
      (0 : UInt8) ||| (if b0 then 1 <<< UInt8.ofNat (7 - 0) else 0) ||| (if b1 then 1 <<< UInt8.ofNat (7 - 1) else 0)
      ||| (if b2 then 1 <<< UInt8.ofNat (7 - 2) else 0) ||| (if b3 then 1 <<< UInt8.ofNat (7 - 3) else 0)
      ||| (if b4 then 1 <<< UInt8.ofNat (7 - 4) else 0) ||| (if b5 then 1 <<< UInt8.ofNat (7 - 5) else 0)
      ||| (if b6 then 1 <<< UInt8.ofNat (7 - 6) else 0) ||| (if b7 then 1 <<< UInt8.ofNat (7 - 7) else 0) := by
    decide +kernel
  have hsign (x : UInt32) : (x <<< UInt32.ofNat (31 - p)) >>> 31 = if x.toNat.testBit p then 1 else 0 := by
    have hx := x.toNat_lt
    apply UInt32.toNat.inj
    rw [UInt32.toNat_shiftRight, UInt32.toNat_shiftLeft,
      UInt32.toNat_ofNat_of_lt' (Nat.lt_of_le_of_lt (Nat.sub_le 31 p) (by decide)),
      Nat.mod_eq_of_lt (show 31 - p < 32 by omega), Nat.shiftLeft_eq, Nat.testBit_eq_decide_div_mod_eq]
    show _ >>> 31 = _
    have hpow : 2 ^ 31 = 2 ^ p * 2 ^ (31 - p) := by rw [← Nat.pow_add, Nat.add_sub_cancel' (by omega)]
    have hdiv : (x.toNat * 2 ^ (31 - p) % 2 ^ 32) >>> 31 = x.toNat / 2 ^ p % 2 := by
      rw [Nat.shiftRight_eq_div_pow, show 2 ^ 32 = 2 ^ 31 * 2 by rfl, Nat.mod_mul_right_div_self, hpow,
        Nat.mul_div_mul_right _ _ (Nat.two_pow_pos _)]
    rw [hdiv]
    obtain h | h : x.toNat / 2 ^ p % 2 = 0 ∨ x.toNat / 2 ^ p % 2 = 1 := by omega
    · rw [h]
      rfl
    · rw [h]
      rfl
  rw [planeByte_eq, ← hmask]
  unfold planeByteAvx2
  simp only [hsign]
  rfl

/-! ## Every kernel stores one row -/

section Loop

variable {γ : Type*} [Zero β] {bits bytesPerPlane : ℕ} {codesAt : ℕ → ℕ → γ}
variable {accumulate : ℕ → (ℕ → γ) → (ℕ → β) → ℕ → β} {assemble : (ℕ → γ) → ℕ → UInt8} {packedRow : List UInt8}

/-- The stores of a loop, chunk by chunk. -/
theorem fusedLoop_fst : (fusedLoop bits bytesPerPlane codesAt accumulate assemble packedRow).1 =
    scatter (fun x => x.2 * bytesPerPlane + x.1) (fun x => assemble (codesAt x.1) x.2) (cells bytesPerPlane bits)
      packedRow := by
  have hfold (l : List ℕ) (s : List UInt8 × (ℕ → β)) : (l.foldl (fun s c =>
      ((List.range bits).foldl (fun row p => row.set (p * bytesPerPlane + c) (assemble (codesAt c) p)) s.1,
        accumulate c (codesAt c) s.2)) s).1 =
      scatter (fun x => x.2 * bytesPerPlane + x.1) (fun x => assemble (codesAt x.1) x.2)
        (l.product (List.range bits)) s.1 := by
    induction l generalizing s with
    | nil => rfl
    | cons c l ih =>
      -- a chunk stores its byte of every plane, then the chunks after it
      have hcons : (c :: l).product (List.range bits) = (List.range bits).map (Prod.mk c) ++ l.product (List.range bits) :=
        List.flatMap_cons
      rw [List.foldl_cons, ih, hcons, scatter_append]
      simp only [scatter, List.foldl_map]
  exact hfold _ _

/-- The chains of a loop are those of its chunks in turn. -/
theorem fusedLoop_snd : (fusedLoop bits bytesPerPlane codesAt accumulate assemble packedRow).2 =
    (List.range bytesPerPlane).foldl (fun chains c => accumulate c (codesAt c) chains) fun _ => 0 := by
  have hfold (l : List ℕ) (s : List UInt8 × (ℕ → β)) : (l.foldl (fun s c =>
      ((List.range bits).foldl (fun row p => row.set (p * bytesPerPlane + c) (assemble (codesAt c) p)) s.1,
        accumulate c (codesAt c) s.2)) s).2 = l.foldl (fun chains c => accumulate c (codesAt c) chains) s.2 := by
    induction l generalizing s with
    | nil => rfl
    | cons c l ih => exact ih _
  exact hfold _ _

end Loop

/-- The bit planes of a row of codes, written over `row`. -/
def storeCodes (bits dim : ℕ) (code : ℕ → ℕ) (row : List UInt8) : List UInt8 :=
  scatter (fun x => x.2 * (dim / 8) + x.1) (fun x => planeByte fun k => (code (x.1 * 8 + k)).testBit x.2)
    (cells (dim / 8) bits) row

theorem planeByte_congr {f g : ℕ → Bool} (h : ∀ k < 8, f k = g k) : planeByte f = planeByte g :=
  List.foldl_ext _ _ _ fun byte k hk => by rw [h k (List.mem_range.1 hk)]

theorem storeCodes_congr {bits dim : ℕ} {code code' : ℕ → ℕ} (h : ∀ d < dim, code d = code' d) (row : List UInt8) :
    storeCodes bits dim code row = storeCodes bits dim code' row := by
  apply List.foldl_ext
  intro row x hx
  have hc := (mem_cells.1 hx).1
  dsimp only
  rw [planeByte_congr fun k hk => by rw [h (x.1 * 8 + k) (by omega)]]

/-- Bit `p` of dimension `d`'s code. -/
theorem testBit_storeCodes {bits dim : ℕ} {row : List UInt8} (hrow : row.length = bits * (dim / 8)) (hdim : dim % 8 = 0)
    (code : ℕ → ℕ) {d p : ℕ} (hd : d < dim) (hp : p < bits) :
    (entry (storeCodes bits dim code row) (p * (dim / 8) + d / 8)).toNat.testBit (7 - d % 8) = (code d).testBit p := by
  have hc : d / 8 < dim / 8 := by omega
  have hentry := @entry_scatter UInt8 (ℕ × ℕ) _ (fun x => x.2 * (dim / 8) + x.1)
    (fun x => planeByte fun k => (code (x.1 * 8 + k)).testBit x.2) (cells (dim / 8) bits) row (d / 8, p)
    (mem_cells.2 ⟨hc, hp⟩) (fun y hy he => by
      obtain ⟨h1, h2⟩ := mul_add_inj (mem_cells.1 hy).1 hc he
      rw [h1, h2]) (hrow ▸ mul_add_lt hp hc)
  rw [storeCodes, hentry, testBit_planeByte _ (by omega)]
  dsimp only
  rw [show d / 8 * 8 + (7 - (7 - d % 8)) = d by omega]

section Rows

variable [LT α] [DecidableLT α] [Add β] [Zero β] {bits dim : ℕ} {boundaries : List α}

/-- Whatever the kernel, the row holds the number of boundaries each value exceeds. -/
theorem fused_fst (kernel : Kernel) (hb : ValidBits bits) (hn : Nested boundaries)
    (hlen : boundaries.length = 2 ^ bits - 1) (r : RowArith α β) (centroidOrig : Option (List β)) (centroids : List α)
    (packedRow : List UInt8) :
    (fusedQuantizeScalePack kernel bits r centroidOrig boundaries centroids packedRow dim).1 =
      storeCodes bits dim (fun d => exceeded boundaries (r.calib d)) packedRow := by
  have h8 (x : α) := (toNat_exceeded hb hlen x).1
  have h32 (x : α) := (toNat_exceeded hb hlen x).2
  have hp8 {x : ℕ × ℕ} (hx : x ∈ cells (dim / 8) bits) : x.2 < 8 := by
    have h := (mem_cells.1 hx).2
    rcases hb with rfl | rfl | rfl <;> omega
  cases kernel with
  | scalar =>
    refine fusedLoop_fst.trans (List.foldl_ext _ _ _ fun row x hx => ?_)
    dsimp only
    rw [planeByteScalar_eq _ (hp8 hx)]
    simp only [scanScalar_eq hlen, h8]
  | neon =>
    refine fusedLoop_fst.trans (List.foldl_ext _ _ _ fun row x hx => ?_)
    dsimp only
    rw [planeByteNeon_eq _ (hp8 hx)]
    simp only [scanNeon_eq hn hlen, h8]
  | avx2 =>
    refine fusedLoop_fst.trans (List.foldl_ext _ _ _ fun row x hx => ?_)
    dsimp only
    rw [planeByteAvx2_eq _ (hp8 hx)]
    simp only [scanAvx2_eq hn hlen, h32]

end Rows

/-! ## Every kernel sums one inner product -/

/-- Four chains, two terms of each chunk to a chain, and the fixed combine. -/
def chainSum [Add β] [Zero β] (chunks : ℕ) (term : ℕ → β) : β :=
  let s := (List.range chunks).foldl
    (fun (chains : ℕ → β) c i => chains i + term (c * 8 + i) + term (c * 8 + (4 + i))) fun _ => 0
  (s 0 + s 1) + (s 2 + s 3)

/-- A loop that adds a chunk's terms to the first four chains that way. -/
theorem chains_eq [Add β] [Zero β] {accumulate : ℕ → (ℕ → β) → ℕ → β} {term : ℕ → β} {n : ℕ}
    (h : ∀ c < n, ∀ chains, ∀ i < 4,
      accumulate c chains i = chains i + term (c * 8 + i) + term (c * 8 + (4 + i))) {i : ℕ} (hi : i < 4) :
    (List.range n).foldl (fun chains c => accumulate c chains) (fun _ => 0) i =
      (List.range n).foldl (fun (chains : ℕ → β) c i => chains i + term (c * 8 + i) + term (c * 8 + (4 + i)))
        (fun _ => 0) i := by
  induction n with
  | zero => rfl
  | succ n ih =>
    rw [List.range_succ, List.foldl_append, List.foldl_append, List.foldl_cons, List.foldl_cons, List.foldl_nil,
      List.foldl_nil, h n (Nat.lt_succ_self n) _ i hi, ih fun c hc => h c (Nat.lt_succ_of_lt hc)]

theorem combine_fusedLoop {γ : Type*} [Add β] [Zero β] {bits n : ℕ} {codesAt : ℕ → ℕ → γ}
    {accumulate : ℕ → (ℕ → γ) → (ℕ → β) → ℕ → β} {assemble : (ℕ → γ) → ℕ → UInt8} {packedRow : List UInt8} {term : ℕ → β}
    (h : ∀ c < n, ∀ chains, ∀ i < 4,
      accumulate c (codesAt c) chains i = chains i + term (c * 8 + i) + term (c * 8 + (4 + i))) :
    (combine (fusedLoop bits n codesAt accumulate assemble packedRow)).2 = chainSum n term := by
  unfold combine chainSum
  dsimp only
  rw [fusedLoop_snd, chains_eq h (by decide : 0 < 4), chains_eq h (by decide : 1 < 4), chains_eq h (by decide : 2 < 4),
    chains_eq h (by decide : 3 < 4)]

/-- The scalar kernel updates its chains one term at a time. -/
theorem scalar_chains [Add β] (term : ℕ → β) (c : ℕ) (chains : ℕ → β) {i : ℕ} (hi : i < 4) :
    (List.range 8).foldl (fun (chains : ℕ → β) k =>
      Function.update chains ((c * 8 + k) % 4) (chains ((c * 8 + k) % 4) + term (c * 8 + k))) chains i =
      chains i + term (c * 8 + i) + term (c * 8 + (4 + i)) := by
  have hmod (k : ℕ) : (c * 8 + k) % 4 = k % 4 := by omega
  simp only [hmod]
  -- lane `i` is updated at its own place of each half chunk and nowhere else
  obtain rfl | rfl | rfl | rfl : i = 0 ∨ i = 1 ∨ i = 2 ∨ i = 3 := by omega
  all_goals rfl

section Inner

variable {bits dim : ℕ}

/-- The table holds the entries the kernels would compute. -/
theorem centroidInOrig_eq [Zero β] (r : RowArith α β) {centroidOrig : Option (List β)} {centroids : List α}
    (htable : ∀ table ∈ centroidOrig, table = buildReconTable r bits dim centroids) {d v : ℕ} (hd : d < dim)
    (hv : v < 2 ^ bits) : centroidInOrig r bits centroidOrig centroids d v = r.recon d (entry centroids v) := by
  cases centroidOrig with
  | none => rfl
  | some table =>
    have hlen (d : ℕ) : ((List.range (2 ^ bits)).map fun c => r.recon d (entry centroids c)).length = 2 ^ bits := by
      rw [List.length_map, List.length_range]
    rw [centroidInOrig, htable table rfl, buildReconTable, entry_flatMap_range (fun d _ => hlen d) hd hv]
    exact entry_tabulate _ hv

/-- The lane permute selects the code's centroid. -/
theorem selectCentroid_eq (hb : ValidBits bits) (centroids : List α) {v : ℕ} (hv : v < 2 ^ bits) :
    selectCentroid bits centroids (UInt32.ofNat v) = entry centroids v := by
  have h3 : ∀ v < 8, (UInt32.ofNat v &&& 7).toNat = v := by decide
  have h4 : ∀ v < 16, (UInt32.ofNat v &&& 7).toNat = v % 8 ∧ ((7 < (UInt32.ofNat v).toInt32) ↔ 8 ≤ v) := by decide
  have hlow (m : ℕ) {i : ℕ} (hi : i < 8) : entry ((List.range 8).map fun i => entry centroids (min i m)) i =
      entry centroids (min i m) := entry_tabulate _ hi
  unfold selectCentroid
  dsimp only
  by_cases hb4 : bits = 4
  · subst hb4
    obtain ⟨hand, hcmp⟩ := h4 v hv
    have hhigh : entry ((List.range 8).map fun i => if 4 = 4 then entry centroids (8 + i) else 0) (v % 8) =
        entry centroids (8 + v % 8) := entry_tabulate _ (Nat.mod_lt v (by decide))
    rw [if_pos rfl, hand, hlow _ (Nat.mod_lt v (by decide)), hhigh]
    by_cases h8 : 8 ≤ v
    · rw [if_pos (hcmp.2 h8), show 8 + v % 8 = v by omega]
    · rw [if_neg fun h => h8 (hcmp.1 h), show min (v % 8) (2 ^ 4 - 1) = v by omega]
  · have hv8 : v < 8 := by
      rcases hb with rfl | rfl | rfl
      · omega
      · omega
      · exact absurd rfl hb4
    rw [if_neg hb4, h3 v hv8, hlow _ hv8, Nat.min_eq_left (by omega)]

variable [LT α] [DecidableLT α] [Add β] [Zero β] {boundaries : List α}

/-- Whatever the kernel and wherever the reconstructions come from, the inner product is one sum in one order. -/
theorem fused_snd (kernel : Kernel) (hb : ValidBits bits) (hn : Nested boundaries)
    (hlen : boundaries.length = 2 ^ bits - 1) (r : RowArith α β) {centroidOrig : Option (List β)} {centroids : List α}
    (htable : ∀ table ∈ centroidOrig, table = buildReconTable r bits dim centroids) (packedRow : List UInt8) :
    (fusedQuantizeScalePack kernel bits r centroidOrig boundaries centroids packedRow dim).2 =
      chainSum (dim / 8) fun d => r.weigh d (r.recon d (entry centroids (exceeded boundaries (r.calib d)))) := by
  have hlt (x : α) := exceeded_lt hlen x
  have h8 (x : α) := (toNat_exceeded hb hlen x).1
  cases kernel with
  | scalar =>
    apply combine_fusedLoop
    intro c hc chains i hi
    dsimp only
    have hcode (k : ℕ) (hk : k ∈ List.range 8) (chains : ℕ → β) :
        Function.update chains ((c * 8 + k) % 4) (chains ((c * 8 + k) % 4) + r.weigh (c * 8 + k)
          (centroidInOrig r bits centroidOrig centroids (c * 8 + k)
            (scanScalar bits boundaries (r.calib (c * 8 + k))).toNat)) =
        Function.update chains ((c * 8 + k) % 4) (chains ((c * 8 + k) % 4) + r.weigh (c * 8 + k)
          (r.recon (c * 8 + k) (entry centroids (exceeded boundaries (r.calib (c * 8 + k)))))) := by
      have hk8 := List.mem_range.1 hk
      rw [scanScalar_eq hlen, h8, centroidInOrig_eq r htable (by omega) (hlt _)]
    rw [List.foldl_ext _ _ _ fun chains k hk => hcode k hk chains]
    exact scalar_chains (fun d => r.weigh d (r.recon d (entry centroids (exceeded boundaries (r.calib d))))) c chains hi
  | neon =>
    apply combine_fusedLoop
    intro c hc chains i hi
    dsimp only
    rw [scanNeon_eq hn hlen, scanNeon_eq hn hlen, h8, h8, centroidInOrig_eq r htable (by omega) (hlt _),
      centroidInOrig_eq r htable (by omega) (hlt _)]
  | avx2 =>
    apply combine_fusedLoop
    intro c hc chains i hi
    dsimp only
    rw [scanAvx2_eq hn hlen, scanAvx2_eq hn hlen, selectCentroid_eq hb _ (hlt _), selectCentroid_eq hb _ (hlt _)]

end Inner

/-! ## Decoding -/

/-- The code of dimension `d` among a row's code bytes: the field the search kernels read. -/
def codeAt (bits : ℕ) (row : List UInt8) (d : ℕ) : UInt8 :=
  let cpb := codesPerByte bits
  (entry row (d / cpb) >>> UInt8.ofNat ((cpb - 1 - d % cpb) * field bits)) &&& ((1 <<< UInt8.ofNat bits) - 1)

theorem toNat_codeAt {bits : ℕ} (hb : ValidBits bits) (row : List UInt8) (d : ℕ) :
    (codeAt bits row d).toNat = ((entry row (d / codesPerByte bits)).toNat >>>
      ((codesPerByte bits - 1 - d % codesPerByte bits) * field bits)) % 2 ^ bits := by
  have hs : (codesPerByte bits - 1 - d % codesPerByte bits) * field bits < 8 := by
    rcases hb with rfl | rfl | rfl <;> simp only [codesPerByte, field] <;> norm_num <;> omega
  have hmask : ((1 <<< UInt8.ofNat bits : UInt8) - 1).toNat = 2 ^ bits - 1 := by
    rcases hb with rfl | rfl | rfl <;> decide
  rw [codeAt, UInt8.toNat_and, hmask, Nat.and_two_pow_sub_one_eq_mod, UInt8.toNat_shiftRight,
    UInt8.toNat_ofNat_of_lt' (hs.trans (by decide)), Nat.mod_eq_of_lt hs]

theorem codeAt_lt {bits : ℕ} (hb : ValidBits bits) (row : List UInt8) (d : ℕ) : (codeAt bits row d).toNat < 2 ^ bits := by
  rw [toNat_codeAt hb]
  exact Nat.mod_lt _ (Nat.two_pow_pos bits)

/-- Bit `p` of a dimension's code is its bit of plane `p`. -/
theorem testBit_codeAt {bits dim : ℕ} (hb : ValidBits bits) (hdim : dim % 8 = 0) (row : List UInt8) {d p : ℕ}
    (hd : d < dim) (hp : p < bits) : (codeAt bits (extractRow bits dim row) d).toNat.testBit p =
      (entry row (p * (dim / 8) + d / 8)).toNat.testBit (7 - d % 8) := by
  have hcpb : 0 < codesPerByte bits := by rcases hb with rfl | rfl | rfl <;> decide
  have hg : d / codesPerByte bits < dim / codesPerByte bits := by
    rcases hb with rfl | rfl | rfl <;> simp only [codesPerByte] <;> omega
  rw [toNat_codeAt hb, Nat.testBit_mod_two_pow, Nat.testBit_shiftRight, decide_eq_true hp, Bool.true_and,
    entry_extractRow _ hg, testBit_extractByte hb (dim / 8) row _ (Nat.mod_lt d hcpb) hp, Nat.div_add_mod']

/-- A packed row whose planes hold a code gives it back. -/
theorem codeAt_extractRow {bits dim : ℕ} (hb : ValidBits bits) (hdim : dim % 8 = 0) {row : List UInt8} {d code : ℕ}
    (hd : d < dim) (hcode : code < 2 ^ bits)
    (h : ∀ p < bits, (entry row (p * (dim / 8) + d / 8)).toNat.testBit (7 - d % 8) = code.testBit p) :
    (codeAt bits (extractRow bits dim row) d).toNat = code := by
  apply Nat.eq_of_testBit_eq
  intro p
  by_cases hp : p < bits
  · rw [testBit_codeAt hb hdim row hd hp, h p hp]
  · have hle : 2 ^ bits ≤ 2 ^ p := Nat.pow_le_pow_right (by decide) (Nat.le_of_not_lt hp)
    rw [Nat.testBit_lt_two_pow (hcode.trans_le hle), Nat.testBit_lt_two_pow ((codeAt_lt hb _ d).trans_le hle)]

/-! ## The whole round -/

section Batch

variable [LT α] [DecidableLT α] [Add β] [Zero β] {bits dim n : ℕ} {boundaries : List α}

theorem rowAt_quantizeBatch (kernel : Kernel) (hb : ValidBits bits) (hn : Nested boundaries)
    (hlen : boundaries.length = 2 ^ bits - 1) (rows : ℕ → RowArith α β) (centroidOrig : Option (List β))
    (centroids : List α) (rowBuf : ℕ → RowBuf bits dim) {v : ℕ} (hv : v < n) :
    rowAt (quantizeBatch kernel bits rows centroidOrig boundaries centroids rowBuf n).1 (bits * (dim / 8)) v =
      storeCodes bits dim (fun d => exceeded boundaries ((rows v).calib d)) (rowBuf v).1 := by
  unfold quantizeBatch
  simp only [List.flatMap_map, fused_fst kernel hb hn hlen]
  apply rowAt_flatMap_range _ hv
  intro i _
  rw [storeCodes, length_scatter, (rowBuf i).2]

theorem length_quantizeBatch (kernel : Kernel) (hb : ValidBits bits) (hn : Nested boundaries)
    (hlen : boundaries.length = 2 ^ bits - 1) (rows : ℕ → RowArith α β) (centroidOrig : Option (List β))
    (centroids : List α) (rowBuf : ℕ → RowBuf bits dim) :
    (quantizeBatch kernel bits rows centroidOrig boundaries centroids rowBuf n).1.length = n * (bits * (dim / 8)) := by
  unfold quantizeBatch
  simp only [List.flatMap_map, fused_fst kernel hb hn hlen]
  apply length_flatMap_range
  intro i _
  rw [storeCodes, length_scatter, (rowBuf i).2]

/-- Each value's code comes back from its packed row. -/
theorem codeAt_quantizeBatch (kernel : Kernel) (hb : ValidBits bits) (hdim : dim % 8 = 0) (hn : Nested boundaries)
    (hlen : boundaries.length = 2 ^ bits - 1) (rows : ℕ → RowArith α β) (centroidOrig : Option (List β))
    (centroids : List α) (rowBuf : ℕ → RowBuf bits dim) {v d : ℕ} (hv : v < n) (hd : d < dim) :
    (codeAt bits (extractRow bits dim (rowAt (quantizeBatch kernel bits rows centroidOrig boundaries centroids
      rowBuf n).1 (bits * (dim / 8)) v)) d).toNat = exceeded boundaries ((rows v).calib d) := by
  rw [rowAt_quantizeBatch kernel hb hn hlen rows centroidOrig centroids rowBuf hv]
  apply codeAt_extractRow hb hdim hd
  · exact exceeded_lt hlen _
  · intro p hp
    rw [testBit_storeCodes (rowBuf v).2 hdim _ hd hp]

end Batch

/-- Boundaries in order are nested for every value, `NaN` included. -/
theorem nested_of_le {boundaries : List F32} (h : boundaries.Pairwise fun a b => a.le b = true) : Nested boundaries := by
  intro i j hij hj x hx
  obtain rfl | hlt := Nat.eq_or_lt_of_le hij
  · exact hx
  · have hle := List.pairwise_iff_getElem.1 h i j (by omega) hj hlt
    rw [entry, List.getElem?_eq_getElem hj] at hx
    rw [entry, List.getElem?_eq_getElem (by omega)]
    exact F32.lt_of_le_of_lt hle hx

/-- Whatever the kernel, a value's code is the number of boundaries it exceeds, and that code comes back from the
packed row and from its stored form, in the field the search reads. -/
theorem quantize_exact [Add β] [Zero β] {bits dim n : ℕ} (hb : ValidBits bits) (hdim : dim % 8 = 0)
    {boundaries : List F32} (hlen : boundaries.length = 2 ^ bits - 1)
    (hle : boundaries.Pairwise fun a b => a.le b = true) (kernel : Kernel) (rows : ℕ → RowArith F32 β)
    (centroidOrig : Option (List β)) (centroids : List F32) (rowBuf : ℕ → RowBuf bits dim) :
    let packed := (quantizeBatch kernel bits rows centroidOrig boundaries centroids rowBuf n).1
    let seq := repackSeq packed n bits dim
    let nByteGroups := dim / codesPerByte bits
    (∀ x, (scanScalar bits boundaries x).toNat = exceeded boundaries x ∧
      (scanNeon bits boundaries x).toNat = exceeded boundaries x ∧
      (scanAvx2 bits boundaries x).toNat = exceeded boundaries x) ∧
    seqToPacked seq n bits dim = packed ∧
    ∀ v < n, ∀ d < dim, let code := exceeded boundaries ((rows v).calib d)
      (codeAt bits (rowAt (extractCodesFlat packed n bits dim) nByteGroups v) d).toNat = code ∧
      (codeAt bits (rowAt (extractCodesFlat (seqToPacked seq n bits dim) n bits dim) nByteGroups v) d).toNat = code ∧
      (codeAt bits (seqRowAt seq nByteGroups v) d).toNat = code := by
  intro packed seq nByteGroups
  have hn := nested_of_le hle
  have hpacked : seqToPacked seq n bits dim = packed :=
    seqToPacked_repackSeq hb hdim (length_quantizeBatch kernel hb hn hlen rows centroidOrig centroids rowBuf)
  refine ⟨fun x => ⟨?_, ?_, ?_⟩, hpacked, fun v hv d hd => ?_⟩
  · rw [scanScalar_eq hlen, (toNat_exceeded hb hlen x).1]
  · rw [scanNeon_eq hn hlen, (toNat_exceeded hb hlen x).1]
  · rw [scanAvx2_eq hn hlen, (toNat_exceeded hb hlen x).2]
  · have hcode := codeAt_quantizeBatch kernel hb hdim hn hlen rows centroidOrig centroids rowBuf hv hd
    rw [hpacked, seqRowAt_repackSeq hb hdim packed hv, rowAt_extractCodesFlat hb hdim packed hv]
    exact ⟨hcode, hcode, hcode⟩

/-- Boundaries one half to thirty-two, a row of ones and a three. -/
theorem quantize_exact_three :
    let boundaries := (List.range 7).map fun k => (⟨UInt32.ofNat (0x3F000000 + 0x800000 * k)⟩ : F32)
    let row : RowArith F32 ℕ := ⟨fun d => if d = 5 then ⟨0x40400000⟩ else 1, fun _ _ => 0, fun _ x => x⟩
    let packed := (quantizeBatch .neon 3 (fun _ => row) none boundaries []
      (fun _ => (⟨[0xFF, 0xFF, 0xFF], rfl⟩ : RowBuf 3 8)) 1).1
    (codeAt 3 (rowAt (extractCodesFlat packed 1 3 8) 4 0) 5).toNat = 3 ∧
      (codeAt 3 (rowAt (extractCodesFlat packed 1 3 8) 4 0) 4).toNat = 1 := by
  intro boundaries row packed
  have h := (@quantize_exact ℕ _ _ 3 8 1 (Or.inr (Or.inl rfl)) rfl boundaries rfl (by decide) .neon (fun _ => row) none [] fun _ => (⟨[0xFF, 0xFF, 0xFF], rfl⟩ : RowBuf 3 8)).2.2 0 (by decide)
  exact ⟨(h 5 (by decide)).1.trans (by decide), (h 4 (by decide)).1.trans (by decide)⟩

end Turbovec.Encode
