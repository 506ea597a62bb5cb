import Turbovec.Lib.Passes
import Mathlib.Algebra.Group.Pi.Basic
import Mathlib.Tactic.Ring
import Mathlib.Tactic.IntervalCases

/-!
# The block transform

The unnormalised Walsh-Hadamard transform of one block and the scale after it, as the scalar loop runs it
and as the NEON, AVX2 and AVX-512 kernels do. A buffer is its cells from the pointer on. The operations
are those of any type, without laws, so two kernels that leave the same cells evaluate the same expression.
-/

namespace Turbovec
namespace Rotation

open Passes

variable {α : Type*} [Add α] [Sub α]

/-! ## The scalar loop -/

/-- One butterfly: `(blk[j], blk[j + len])` becomes `(a + b, a - b)`. -/
def butterflyStep (len : ℕ) (blk : ℕ → α) (j : ℕ) : ℕ → α :=
  let a := blk j
  let b := blk (j + len)
  Function.update (Function.update blk j (a + b)) (j + len) (a - b)

/-- `while len < block { …; len <<= 1 }` -/
def whtStages (block len : ℕ) (blk : ℕ → α) : ℕ → α :=
  -- `len` starts at one and doubles, so it is never zero
  if len ≠ 0 ∧ len < block then
    whtStages block (2 * len) ((starts (2 * len) len 1 block).foldl (butterflyStep len) blk)
  else blk
termination_by block - len

/-- The scale at the end, `lanes` cells at a time. -/
def scalePass [Mul α] (lanes block : ℕ) (invSqrtBlock : α) (blk : ℕ → α) : ℕ → α :=
  (starts lanes lanes lanes block).foldl
    (fun m j x => if j ≤ x ∧ x < j + lanes then m x * invSqrtBlock else m x) blk

def whtBlockScalar [Mul α] (blk : ℕ → α) (block : ℕ) (invSqrtBlock : α) : ℕ → α :=
  scalePass 1 block invSqrtBlock (whtStages block 1 blk)

/-! ## Registers -/

/-- The lanes of a register read at `p`. -/
def loadu (m : ℕ → α) (p : ℕ) : ℕ → α := fun l => m (p + l)

/-- A register of `lanes` lanes written at `p`. -/
def storeu (lanes : ℕ) (m : ℕ → α) (p : ℕ) (v : ℕ → α) : ℕ → α :=
  fun x => if p ≤ x ∧ x < p + lanes then v (x - p) else m x

/-- `shuffle_ps`: in each 128-bit lane, two elements of `a` and then two of `b`, by the fields of `imm`. -/
def shufflePs (imm : ℕ) (a b : ℕ → α) : ℕ → α := fun l =>
  (if l % 4 < 2 then a else b) (l / 4 * 4 + imm / 4 ^ (l % 4) % 4)

/-- `shuffle_f32x4`: two 128-bit lanes of `a` and then two of `b`. -/
def shuffleF32x4 (imm : ℕ) (a b : ℕ → α) : ℕ → α := fun l =>
  (if l / 4 < 2 then a else b) (imm / 4 ^ (l / 4) % 4 * 4 + l % 4)

/-- `permute2f128` without its zeroing bits. -/
def permute2f128 (imm : ℕ) (a b : ℕ → α) : ℕ → α := fun l =>
  (if imm / 16 ^ (l / 4) % 4 < 2 then a else b) (imm / 16 ^ (l / 4) % 2 * 4 + l % 4)

/-- `blend_ps`: the lane of `b` where the mask's bit is set. -/
def blendPs (imm : ℕ) (a b : ℕ → α) : ℕ → α := fun l => if imm.testBit l then b l else a l

/-! ## Register groups -/

/-- The three lowest stages of eight elements. -/
def fusedAvx2 (v : ℕ → α) : ℕ → α :=
  let a := shufflePs 0b10100000 v v
  let b := shufflePs 0b11110101 v v
  let r1 := blendPs 0b10101010 (a + b) (a - b)
  let a := shufflePs 0b01000100 r1 r1
  let b := shufflePs 0b11101110 r1 r1
  let r2 := blendPs 0b11001100 (a + b) (a - b)
  let a := permute2f128 0x00 r2 r2
  let b := permute2f128 0x11 r2 r2
  blendPs 0b11110000 (a + b) (a - b)

/-- The four lowest stages of sixteen elements. -/
def fusedAvx512 (v : ℕ → α) : ℕ → α :=
  let a := shufflePs 0b10100000 v v
  let b := shufflePs 0b11110101 v v
  let r1 := blendPs 0b1010101010101010 (a + b) (a - b)
  let a := shufflePs 0b01000100 r1 r1
  let b := shufflePs 0b11101110 r1 r1
  let r2 := blendPs 0b1100110011001100 (a + b) (a - b)
  let a := shuffleF32x4 0b10100000 r2 r2
  let b := shuffleF32x4 0b11110101 r2 r2
  let r4 := blendPs 0b1111000011110000 (a + b) (a - b)
  let a := shuffleF32x4 0b01000100 r4 r4
  let b := shuffleF32x4 0b11101110 r4 r4
  blendPs 0b1111111100000000 (a + b) (a - b)

/-- `vtrn1q_f32` and `vtrn2q_f32`: the even or the odd lanes of two registers, interleaved. -/
def vtrn (odd : ℕ) (a b : ℕ → α) : ℕ → α := fun l => (if l % 2 = 0 then a else b) (l / 2 * 2 + odd)

/-- `vcombine_f32` of two halves that begin at lane `half`. -/
def vcombine (half : ℕ) (a b : ℕ → α) : ℕ → α := fun l => if l < 2 then a (half + l) else b (half + (l - 2))

/-- The two lowest stages of eight elements, which NEON stores as two registers. -/
def fusedNeon (v : ℕ → α) : ℕ → α :=
  -- `vld2q_f32` takes the elements apart by parity
  let s1 : ℕ → α := (fun l => v (2 * l)) + fun l => v (2 * l + 1)
  let d1 : ℕ → α := (fun l => v (2 * l)) - fun l => v (2 * l + 1)
  let sEven := vtrn 0 s1 d1
  let sOdd := vtrn 1 s1 d1
  let sum2 := sEven + sOdd
  let dif2 := sEven - sOdd
  let out0 := vcombine 0 sum2 dif2
  let out1 := vcombine 2 sum2 dif2
  fun l => if l < 4 then out0 l else out1 (l - 4)

/-- Groups of `g` elements, each loaded, transformed in registers and stored. -/
def fusedPass (g : ℕ) (fused : (ℕ → α) → ℕ → α) (block : ℕ) (blk : ℕ → α) : ℕ → α :=
  (starts g g g block).foldl (fun m j => storeu g m j (fused (loadu m j))) blk

/-! ## Higher stages -/

section nets variable {β : Type*} [Add β] [Sub β]

def radix2 (v : ℕ → β) : List β := [v 0 + v 1, v 0 - v 1]

def radix4 (v : ℕ → β) : List β :=
  let apb := v 0 + v 1
  let amb := v 0 - v 1
  let cpd := v 2 + v 3
  let cmd := v 2 - v 3
  [apb + cpd, amb + cmd, apb - cpd, amb - cmd]

def radix8 (v : ℕ → β) : List β :=
  let apb := v 0 + v 1
  let amb := v 0 - v 1
  let cpd := v 2 + v 3
  let cmd := v 2 - v 3
  let epf := v 4 + v 5
  let emf := v 4 - v 5
  let gph := v 6 + v 7
  let gmh := v 6 - v 7
  let s0 := apb + cpd
  let s1 := amb + cmd
  let s2 := apb - cpd
  let s3 := amb - cmd
  let s4 := epf + gph
  let s5 := emf + gmh
  let s6 := epf - gph
  let s7 := emf - gmh
  [s0 + s4, s1 + s5, s2 + s6, s3 + s7, s0 - s4, s1 - s5, s2 - s6, s3 - s7]

end nets

/-- Registers stored at `p`, `p + len`, `p + 2 * len` and so on. -/
def storeStrided (lanes len : ℕ) (m : ℕ → α) (p : ℕ) : List (ℕ → α) → ℕ → α
  | [] => m
  | v :: vs => storeStrided lanes len (storeu lanes m p v) (p + len) vs

/-- A pass over `radix` registers at a time, `len` apart. -/
def radixPass (radix : ℕ) (net : (ℕ → ℕ → α) → List (ℕ → α)) (lanes len block : ℕ) (blk : ℕ → α) : ℕ → α :=
  (starts (radix * len) len lanes block).foldl
    (fun m j => storeStrided lanes len m j (net fun s => loadu m (j + s * len))) blk

/-- `while 4 * len < block { …; len <<= 3 }`, with the length it ends at. -/
def radix8Passes (lanes block len : ℕ) (blk : ℕ → α) : ℕ × (ℕ → α) :=
  if len ≠ 0 ∧ 4 * len < block then
    radix8Passes lanes block (8 * len) (radixPass 8 radix8 lanes len block blk)
  else (len, blk)
termination_by block - len

/-- The stages from `len` on: radix-8 passes, then what is left of them. -/
def highStages (lanes block len : ℕ) (blk : ℕ → α) : ℕ → α :=
  let (len, blk) := radix8Passes lanes block len blk
  let (len, blk) :=
    if 2 * len < block then (4 * len, radixPass 4 radix4 lanes len block blk) else (len, blk)
  if len < block then radixPass 2 radix2 lanes len block blk else blk

/-! ## The kernels -/

section kernels variable [Mul α]

def whtBlockNeon (blk : ℕ → α) (block : ℕ) (invSqrtBlock : α) : ℕ → α :=
  scalePass 4 block invSqrtBlock (highStages 4 block 4 (fusedPass 8 fusedNeon block blk))

def whtBlockAvx2 (blk : ℕ → α) (block : ℕ) (invSqrtBlock : α) : ℕ → α :=
  scalePass 8 block invSqrtBlock (highStages 8 block 8 (fusedPass 8 fusedAvx2 block blk))

def whtBlockAvx512 (blk : ℕ → α) (block : ℕ) (invSqrtBlock : α) : ℕ → α :=
  -- a block of eight has no room for sixteen lanes
  if block < 16 then whtBlockAvx2 blk block invSqrtBlock
  else scalePass 16 block invSqrtBlock (highStages 16 block 16 (fusedPass 16 fusedAvx512 block blk))

/-- The kernels a build may take. -/
inductive Kernel where
  | scalar
  | neon
  | avx2
  | avx512
deriving DecidableEq, Repr

def whtBlock : Kernel → (ℕ → α) → ℕ → α → ℕ → α
  | .scalar => whtBlockScalar
  | .neon => whtBlockNeon
  | .avx2 => whtBlockAvx2
  | .avx512 => whtBlockAvx512

end kernels

/-! ## The stages as maps -/

/-- The stage `len` on all cells at once. -/
def butterfly (len : ℕ) (m : ℕ → α) : ℕ → α := fun x =>
  if x % (2 * len) < len then m x + m (x + len) else m (x - len) - m x

/-- The stages `2 ^ a`, …, `2 ^ (a + k - 1)`, one after the other. -/
def ladder (a : ℕ) : ℕ → (ℕ → α) → ℕ → α
  | 0, m => m
  | k + 1, m => butterfly (2 ^ (a + k)) (ladder a k m)

theorem ladder_succ (a k : ℕ) (m : ℕ → α) : ladder a (k + 1) m = butterfly (2 ^ (a + k)) (ladder a k m) := rfl

theorem butterfly_low {len q r : ℕ} (hr : r < len) (m : ℕ → α) {x : ℕ} (hx : x = q * (2 * len) + r) :
    butterfly len m x = m x + m (x + len) := by
  unfold butterfly
  rw [if_pos]
  rw [hx, Nat.mul_comm q, Nat.mul_add_mod, Nat.mod_eq_of_lt (by omega)]
  exact hr

theorem butterfly_high {len q r : ℕ} (hr : r < len) (m : ℕ → α) {x : ℕ} (hx : x = q * (2 * len) + r) :
    butterfly len m (x + len) = m x - m (x + len) := by
  unfold butterfly
  rw [if_neg, Nat.add_sub_cancel]
  rw [hx, Nat.add_assoc, Nat.mul_comm q, Nat.mul_add_mod, Nat.mod_eq_of_lt (by omega)]
  omega

/-- A cell is in the lower or in the upper half of its pair of runs. -/
theorem halves {len : ℕ} (h : 0 < len) (x : ℕ) :
    ∃ q r, r < len ∧ (x = q * (2 * len) + r ∨ x = q * (2 * len) + r + len) := by
  have hdiv := Nat.div_add_mod' x (2 * len)
  have hlt := Nat.mod_lt x (show 0 < 2 * len by omega)
  by_cases hr : x % (2 * len) < len
  · exact ⟨x / (2 * len), x % (2 * len), hr, Or.inl hdiv.symm⟩
  · exact ⟨x / (2 * len), x % (2 * len) - len, by omega, Or.inr (by omega)⟩

/-- A stage reads within a block of whole pairs of runs. -/
theorem butterfly_congr {len Q : ℕ} (h : 0 < len) {m m' : ℕ → α} (hm : ∀ x < Q * (2 * len), m x = m' x) :
    ∀ x < Q * (2 * len), butterfly len m x = butterfly len m' x := by
  intro x hx
  obtain ⟨q, r, hr, rfl | rfl⟩ := halves h x
  · have hq : q < Q := Nat.lt_of_mul_lt_mul_right (Nat.lt_of_le_of_lt (Nat.le_add_right _ r) hx)
    have hle := Nat.mul_le_mul_right (2 * len) (Nat.succ_le_of_lt hq)
    rw [Nat.succ_mul] at hle
    rw [butterfly_low hr m rfl, butterfly_low hr m' rfl, hm _ hx, hm _ (by omega)]
  · rw [butterfly_high hr m rfl, butterfly_high hr m' rfl, hm _ hx, hm _ (by omega)]

theorem ladder_add (a k l : ℕ) (m : ℕ → α) : ladder a (k + l) m = ladder (a + k) l (ladder a k m) := by
  induction l with
  | zero => rfl
  | succ l ih =>
    rw [← Nat.add_assoc, ladder_succ, ladder_succ, ih, Nat.add_assoc]

/-- The stages of a block read within it. -/
theorem ladder_congr {a k e : ℕ} (hk : a + k ≤ e) {m m' : ℕ → α} (hm : ∀ x < 2 ^ e, m x = m' x) :
    ∀ x < 2 ^ e, ladder a k m x = ladder a k m' x := by
  induction k with
  | zero => exact hm
  | succ k ih =>
    have he : 2 ^ e = 2 ^ (e - (a + k + 1)) * (2 * 2 ^ (a + k)) := by
      rw [← Nat.pow_succ', ← Nat.pow_add]
      congr 1
      omega
    have h := ih (by omega)
    rw [he] at h
    rw [he]
    exact butterfly_congr (Nat.two_pow_pos _) h

/-- A stage commutes with a shift by whole pairs of runs. -/
theorem butterfly_shift (len c : ℕ) (m : ℕ → α) (x : ℕ) :
    butterfly len m (c * (2 * len) + x) = butterfly len (fun y => m (c * (2 * len) + y)) x := by
  unfold butterfly
  have hmod : (c * (2 * len) + x) % (2 * len) = x % (2 * len) := by
    rw [Nat.mul_comm, Nat.mul_add_mod]
  rw [hmod]
  split
  · rw [Nat.add_assoc]
  · rename_i h
    have hle : len ≤ x := Nat.le_trans (Nat.le_of_not_lt h) (Nat.mod_le _ _)
    rw [Nat.add_sub_assoc hle]

theorem ladder_shift {k e : ℕ} (hk : k ≤ e) (c : ℕ) (m : ℕ → α) (x : ℕ) :
    ladder 0 k m (c * 2 ^ e + x) = ladder 0 k (fun y => m (c * 2 ^ e + y)) x := by
  induction k generalizing x with
  | zero => rfl
  | succ k ih =>
    have he : c * 2 ^ e = c * 2 ^ (e - (k + 1)) * (2 * 2 ^ (0 + k)) := by
      rw [Nat.zero_add, ← Nat.pow_succ', Nat.mul_assoc, ← Nat.pow_add]
      congr 2
      omega
    rw [ladder_succ, ladder_succ, he, butterfly_shift, ← he]
    congr 1
    funext y
    exact ih (by omega) y

end Rotation
end Turbovec
