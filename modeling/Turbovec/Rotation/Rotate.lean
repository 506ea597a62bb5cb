import Turbovec.Rotation.Schedules
import Turbovec.IoV7.Format
import Mathlib.Data.Nat.Factorization.Basic

/-!
# The rotation

`Rotation::new`, the permuting gather and the two ways a row is rotated: in place, and scaled from a source
row into a destination. The random generator is any state with its two draws. An assert that fails is `none`.
-/

namespace Turbovec

open Passes

/-- The generator's two draws, each with the state it leaves. -/
structure Rng (σ : Type*) where
  nextU32 : σ → UInt32 × σ
  nextU64 : σ → UInt64 × σ

/-- A slice: its length and its cells. -/
structure Buf (α : Type*) where
  len : ℕ
  cells : ℕ → α

/-- A row every element of which is multiplied by a factor. -/
def Buf.scale {α : Type*} [Mul α] (src : Buf α) (inv : α) : Buf α := { src with cells := fun x => src.cells x * inv }

/-- The rotation of one dimension. -/
structure Rotation (α : Type*) where
  dim : ℕ
  block : ℕ
  invSqrtBlock : α
  signs : List (List α)
  perms : List (List ℕ)
  /-- Round-1 signs at the source positions. -/
  signs1Pre : List α

namespace Rotation

variable {α σ : Type*}

/-- Number of block-Hadamard rounds. -/
def K : ℕ := 2

/-- `dim & dim.wrapping_neg()` on 64 bits. -/
def blockSize (dim : ℕ) : ℕ := dim &&& (2 ^ 64 - dim) % 2 ^ 64

/-! ## Construction -/

/-- `perm.swap(i, j)` -/
def swap (perm : List ℕ) (i j : ℕ) : List ℕ := (perm.set i (perm.getD j 0)).set j (perm.getD i 0)

/-- One iteration of the shuffle. -/
def shuffleStep (rng : Rng σ) (s : List ℕ × σ) (i : ℕ) : List ℕ × σ :=
  let (r, g) := rng.nextU64 s.2
  let j := r.toNat % (i + 1)
  (swap s.1 i j, g)

/-- `for i in (1..dim).rev()`; the entries are the `u32`s below `dim`. -/
def fisherYates (rng : Rng σ) (dim : ℕ) (g : σ) : List ℕ × σ :=
  (List.range' 1 (dim - 1)).reverse.foldl (shuffleStep rng) (List.range (dim % 2 ^ 32), g)

/-- The signs of one round. -/
def signRow [One α] [Neg α] (rng : Rng σ) : ℕ → σ → List α × σ
  | 0, g => ([], g)
  | n + 1, g =>
    let (r, g) := rng.nextU32 g
    let (row, g) := signRow rng n g
    ((if r &&& 1 = 1 then -1 else 1) :: row, g)

/-- `signs1_pre[perms[1][i]] = signs[1][i]`, from ones. -/
def preScatter [One α] (dim : ℕ) (perm : List ℕ) (signs : List α) : List α :=
  (List.range perm.length).foldl (fun pre i => pre.set (perm.getD i 0) (signs.getD i 1)) (List.replicate dim 1)

/-- One round's signs and permutation. -/
def drawRound [One α] [Neg α] (rng : Rng σ) (dim : ℕ) (g : σ) : List α × List ℕ × σ :=
  let (signs, g) := signRow rng dim g
  let (perm, g) := fisherYates rng dim g
  (signs, perm, g)

/-- `invSqrt` is `1.0 / (block as f32).sqrt()`. -/
def new [One α] [Neg α] (rng : Rng σ) (seed : σ) (invSqrt : ℕ → α) (dim : ℕ) : Option (Rotation α) :=
  if ¬(0 < dim ∧ dim % 8 = 0) then none
  else if ¬dim ≤ IoV7.MAX_DIM then none
  else
    let block := blockSize dim
    -- the rounds are drawn from one stream, the loop over `K` written out
    let (signs0, perm0, g) := drawRound rng dim seed
    let (signs1, perm1, _) := drawRound rng dim g
    some ⟨dim, block, invSqrt block, [signs0, signs1], [perm0, perm1], preScatter dim perm1 signs1⟩

/-! ## The gather -/

/-- Which multiplies ride the gather: modes `0`, `1` and `2`. -/
inductive Mode where
  | move
  | signed
  | scaled
deriving DecidableEq, Repr

section gather variable [One α] [Mul α]

/-- The scalar loop's element. -/
def gatherOne (mode : Mode) (v s inv : α) : α :=
  match mode with
  | .move => v
  | .signed => v * s
  | .scaled => (v * inv) * s

/-- A register of the gather at `i`. -/
def gatherVec (mode : Mode) (src : ℕ → α) (perm : List ℕ) (signs : List α) (inv : α) (i : ℕ) : ℕ → α :=
  let v := fun l => src (perm.getD (i + l) 0)
  let v := if mode = .scaled then v * fun _ => inv else v
  if mode ≠ .move then v * fun l => signs.getD (i + l) 1 else v

/-- The stores of `while i + lanes <= n { …; i += lanes }`, as position and width. -/
def lanesFrom (lanes i n : ℕ) : List (ℕ × ℕ) :=
  (List.range ((n - i) / lanes)).map fun k => (i + k * lanes, lanes)

/-- Where that loop stops. -/
def lanesEnd (lanes i n : ℕ) : ℕ := i + (n - i) / lanes * lanes

/-- The stores of each kernel's gather, in order; aarch64 has no gather kernel. -/
def gatherStores : Kernel → ℕ → List (ℕ × ℕ)
  | .scalar, n => lanesFrom 1 0 n
  | .neon, n => lanesFrom 1 0 n
  | .avx2, n => lanesFrom 8 0 n ++ lanesFrom 1 (lanesEnd 8 0 n) n
  | .avx512, n =>
    let i := lanesEnd 16 0 n
    lanesFrom 16 0 n ++ lanesFrom 8 i n ++ lanesFrom 1 (lanesEnd 8 i n) n

/-- One store: a scalar one or a register. -/
def gatherStore (mode : Mode) (src : ℕ → α) (perm : List ℕ) (signs : List α) (inv : α) (dst : ℕ → α)
    (st : ℕ × ℕ) : ℕ → α :=
  if st.2 = 1 then
    Function.update dst st.1 (gatherOne mode (src (perm.getD st.1 0)) (signs.getD st.1 1) inv)
  else storeu st.2 dst st.1 (gatherVec mode src perm signs inv st.1)

def permuteGather (kernel : Kernel) (mode : Mode) (src : Buf α) (perm : List ℕ) (signs : List α) (inv : α)
    (dst : Buf α) : Option (Buf α) :=
  if src.len = dst.len ∧ perm.length = dst.len ∧ signs.length = dst.len then
    some { dst with
      cells := (gatherStores kernel dst.len).foldl (gatherStore mode src.cells perm signs inv) dst.cells }
  else none

end gather

/-! ## Rotating a row -/

section apply variable [Add α] [Sub α] [Mul α] [One α]

/-- The transform of one block of a row. -/
def whtAt (kernel : Kernel) (block : ℕ) (inv : α) (m : ℕ → α) (offset : ℕ) : ℕ → α := fun x =>
  if offset ≤ x ∧ x < offset + block then whtBlock kernel (fun l => m (offset + l)) block inv (x - offset) else m x

/-- `while offset < dim { wht_block(&mut buf[offset..offset + block], …); offset += block }` -/
def wht (R : Rotation α) (kernel : Kernel) (buf : Buf α) : Buf α :=
  { buf with cells := (starts R.block R.block R.block R.dim).foldl (whtAt kernel R.block R.invSqrtBlock) buf.cells }

/-- A round reads `input`, writes `output` and swaps the two. -/
def applyRound (R : Rotation α) (kernel : Kernel) (bufs : Buf α × Buf α) (round : ℕ) : Option (Buf α × Buf α) := do
  let output ← permuteGather kernel .signed bufs.1 (R.perms.getD round []) (R.signs.getD round []) 1 bufs.2
  some (R.wht kernel output, bufs.1)

/-- The row and the scratch after `apply_with_scratch`. -/
def applyWithScratch (R : Rotation α) (kernel : Kernel) (row scratch : Buf α) : Option (Buf α × Buf α) :=
  if row.len = R.dim ∧ scratch.len = R.dim then (List.range K).foldlM (R.applyRound kernel) (row, scratch)
  else none

/-- `*x *= sg` over the row and the pre-scattered signs. -/
def mulSigns (signs : List α) (buf : Buf α) : Buf α :=
  { buf with cells := fun x => if x < min buf.len signs.length then buf.cells x * signs.getD x 1 else buf.cells x }

/-- The destination and the scratch after `apply_scaled_into`. -/
def applyScaledInto (R : Rotation α) (kernel : Kernel) (src : Buf α) (inv : α) (dst scratch : Buf α) :
    Option (Buf α × Buf α) :=
  if src.len = R.dim ∧ dst.len = R.dim ∧ scratch.len = R.dim then do
    let scratch ← permuteGather kernel .scaled src (R.perms.getD 0 []) (R.signs.getD 0 []) inv scratch
    let scratch := mulSigns R.signs1Pre (R.wht kernel scratch)
    let dst ← permuteGather kernel .move scratch (R.perms.getD 1 []) R.signs1Pre 1 dst
    some (R.wht kernel dst, scratch)
  else none

end apply

/-! ## The block size -/

/-- The odd part of a number keeps only its lowest bit. -/
private theorem odd_and_neg {n y : ℕ} (h : 2 * y + 1 < 2 ^ n) : (2 * y + 1) &&& (2 ^ n - (2 * y + 1)) = 1 := by
  apply Nat.eq_of_testBit_eq
  intro i
  rw [Nat.testBit_and, Nat.testBit_two_pow_sub_succ (by omega)]
  cases i with
  | zero =>
    have hn : 0 < n := by
      rcases Nat.eq_zero_or_pos n with rfl | hn
      · omega
      · exact hn
    simp [Nat.testBit_zero, hn]
  | succ i =>
    have hhalf : (2 * y + 1) / 2 = y := by omega
    rw [Nat.testBit_succ, Nat.testBit_succ, Nat.testBit_succ, hhalf, Nat.mul_div_cancel_left y (by decide)]
    cases y.testBit i <;> simp

/-- The block size is a power of two that divides the dimension, at least eight. -/
theorem blockSize_eq {dim : ℕ} (hpos : 0 < dim) (h8 : dim % 8 = 0) (hlt : dim < 2 ^ 64) :
    ∃ e Q, 3 ≤ e ∧ blockSize dim = 2 ^ e ∧ dim = Q * 2 ^ e := by
  obtain ⟨e, o, ho, rfl⟩ := Nat.exists_eq_two_pow_mul_odd hpos.ne'
  obtain ⟨y, rfl⟩ := ho
  have he64 : e < 64 := by
    apply (Nat.pow_lt_pow_iff_right (show 1 < 2 by decide)).mp
    exact Nat.lt_of_le_of_lt (Nat.le_mul_of_pos_right _ (Nat.succ_pos _)) hlt
  have hsplit : 2 ^ 64 = 2 ^ e * 2 ^ (64 - e) := by
    rw [← Nat.pow_add, Nat.add_sub_cancel' (by omega)]
  have hy : 2 * y + 1 < 2 ^ (64 - e) := by
    rw [hsplit] at hlt
    exact Nat.lt_of_mul_lt_mul_left hlt
  refine ⟨e, 2 * y + 1, ?_, ?_, Nat.mul_comm _ _⟩
  · by_contra hlt3
    have hcases : e = 0 ∨ e = 1 ∨ e = 2 := by omega
    rcases hcases with rfl | rfl | rfl <;> omega
  · unfold blockSize
    rw [Nat.mod_eq_of_lt (by omega), hsplit, ← Nat.mul_sub, Nat.mul_comm, Nat.mul_comm (2 ^ e), ← Nat.shiftLeft_eq,
      ← Nat.shiftLeft_eq, ← Nat.shiftLeft_and_distrib, odd_and_neg hy, Nat.shiftLeft_eq, Nat.one_mul]

end Rotation
end Turbovec
