import Turbovec.Lib.LittleEndian
import Mathlib.Logic.Function.Iterate

/-!
# Cyclic redundancy checks, reflected

A register of `w` bits takes a message one bit at a time and divides by a polynomial as it goes. The step is
linear, so `n` bits may be added at once, and the `n` steps after them split into a shift and a table of the low
`n` bits. A word is its bytes, least significant first.
-/

namespace Crc

open LittleEndian

variable {w : ℕ} (poly : BitVec w)

/-- One bit of the reflected division. -/
def step (c : BitVec w) : BitVec w := if c.getLsbD 0 then (c >>> 1) ^^^ poly else c >>> 1

/-- A register after the bits of a message. -/
def feed (c : BitVec w) (bits : List Bool) : BitVec w :=
  bits.foldl (fun c b => step poly (c ^^^ (BitVec.ofBool b).setWidth w)) c

/-- The low `n` bits of `x`, least significant first. -/
def bitsOf : ℕ → ℕ → List Bool
  | 0, _ => []
  | n + 1, x => x.testBit 0 :: bitsOf n (x / 2)

/-! ## Linearity -/

theorem step_xor (a b : BitVec w) : step poly (a ^^^ b) = step poly a ^^^ step poly b := by
  unfold step
  rw [BitVec.getLsbD_xor, BitVec.ushiftRight_xor_distrib]
  -- the polynomial is added on both sides, on one, or on none
  cases a.getLsbD 0 with
  | false =>
    cases b.getLsbD 0 with
    | false => rfl
    | true => exact BitVec.xor_assoc _ _ _
  | true =>
    cases b.getLsbD 0 with
    | false =>
      show a >>> 1 ^^^ b >>> 1 ^^^ poly = a >>> 1 ^^^ poly ^^^ b >>> 1
      ac_rfl
    | true =>
      show a >>> 1 ^^^ b >>> 1 = a >>> 1 ^^^ poly ^^^ (b >>> 1 ^^^ poly)
      have hswap : a >>> 1 ^^^ poly ^^^ (b >>> 1 ^^^ poly) = a >>> 1 ^^^ b >>> 1 ^^^ (poly ^^^ poly) := by ac_rfl
      rw [hswap, BitVec.xor_self, BitVec.xor_zero]

theorem steps_xor (n : ℕ) (a b : BitVec w) :
    (step poly)^[n] (a ^^^ b) = (step poly)^[n] a ^^^ (step poly)^[n] b := by
  induction n generalizing a b with
  | zero => rfl
  | succ n ih => rw [Function.iterate_succ_apply, step_xor, ih, Function.iterate_succ_apply, Function.iterate_succ_apply]

/-- Clear low bits are shifted out and nothing is added. -/
theorem steps_of_low_clear {c : BitVec w} {n : ℕ} (h : ∀ i < n, c.getLsbD i = false) : (step poly)^[n] c = c >>> n := by
  induction n with
  | zero => rfl
  | succ n ih =>
    have hlow : (c >>> n).getLsbD 0 = false := by
      rw [BitVec.getLsbD_ushiftRight]
      exact h n n.lt_succ_self
    rw [Function.iterate_succ_apply', ih fun i hi => h i (hi.trans n.lt_succ_self), step, hlow,
      if_neg Bool.false_ne_true, BitVec.shiftRight_add]

/-! ## Tables -/

/-- The entry of a table of `n` bits. -/
def table (n : ℕ) (i : BitVec w) : BitVec w := (step poly)^[n] i

/-- A register is its high bits and its low bits. -/
theorem split_low (c : BitVec w) (n : ℕ) : c = (c >>> n <<< n) ^^^ (c.setWidth n).setWidth w := by
  apply BitVec.eq_of_getLsbD_eq
  intro i hi
  rw [BitVec.getLsbD_xor, BitVec.getLsbD_shiftLeft, BitVec.getLsbD_ushiftRight, BitVec.getLsbD_setWidth,
    BitVec.getLsbD_setWidth]
  by_cases hn : i < n
  · simp [hi, hn]
  · simp [hi, hn, Nat.add_sub_cancel' (not_lt.mp hn)]

/-- `n` steps at once, by the table of the low `n` bits. -/
theorem steps_eq_table (c : BitVec w) (n : ℕ) :
    (step poly)^[n] c = (c >>> n) ^^^ table poly n ((c.setWidth n).setWidth w) := by
  have hclear : ∀ i < n, (c >>> n <<< n).getLsbD i = false := by
    intro i hi
    rw [BitVec.getLsbD_shiftLeft, decide_eq_true hi]
    simp
  have hback : c >>> n <<< n >>> n = c >>> n := by
    apply BitVec.eq_of_getLsbD_eq
    intro i hi
    rw [BitVec.getLsbD_ushiftRight, BitVec.getLsbD_shiftLeft, BitVec.getLsbD_ushiftRight, BitVec.getLsbD_ushiftRight,
      Nat.add_sub_cancel_left]
    by_cases hw : n + i < w
    · simp [hw]
    · simp [hw, BitVec.getLsbD_of_ge c (n + i) (not_lt.mp hw)]
  conv_lhs => rw [split_low c n, steps_xor, steps_of_low_clear poly hclear, hback]
  rfl

/-! ## Messages -/

theorem feed_append (c : BitVec w) (xs ys : List Bool) : feed poly c (xs ++ ys) = feed poly (feed poly c xs) ys :=
  List.foldl_append

theorem bitsOf_add (m n x : ℕ) : bitsOf (m + n) x = bitsOf m x ++ bitsOf n (x / 2 ^ m) := by
  induction m generalizing x with
  | zero => rw [Nat.zero_add, Nat.pow_zero, Nat.div_one, bitsOf, List.nil_append]
  | succ m ih =>
    rw [Nat.succ_add, bitsOf, ih, bitsOf, List.cons_append, Nat.div_div_eq_div_mul, Nat.pow_succ']

/-- The low bits alone are read. -/
theorem bitsOf_add_mul (n x y : ℕ) : bitsOf n (x + 2 ^ n * y) = bitsOf n x := by
  induction n generalizing x with
  | zero => rfl
  | succ n ih =>
    have hdiv : (x + 2 ^ (n + 1) * y) / 2 = x / 2 + 2 ^ n * y := by
      rw [Nat.pow_succ', Nat.mul_assoc, Nat.add_mul_div_left _ _ Nat.two_pos]
    have hbit : (x + 2 ^ (n + 1) * y).testBit 0 = x.testBit 0 := by
      rw [Nat.testBit_zero, Nat.testBit_zero, Nat.pow_succ', Nat.mul_assoc, Nat.add_mul_mod_self_left]
    rw [bitsOf, bitsOf, hdiv, hbit, ih]

/-- The bits of a word are those of its bytes. -/
theorem bitsOf_ofLe (bytes : List UInt8) :
    bitsOf (8 * bytes.length) (ofLe bytes) = bytes.flatMap fun b => bitsOf 8 b.toNat := by
  induction bytes with
  | nil => rfl
  | cons b bytes ih =>
    have hb : b.toNat < 2 ^ 8 := b.toNat_lt
    rw [List.length_cons, Nat.mul_succ, Nat.add_comm, bitsOf_add, ofLe, List.flatMap_cons, ← ih]
    have hlow : bitsOf 8 (b.toNat + 256 * ofLe bytes) = bitsOf 8 b.toNat := bitsOf_add_mul 8 b.toNat (ofLe bytes)
    have hhigh : (b.toNat + 256 * ofLe bytes) / 2 ^ 8 = ofLe bytes := by omega
    rw [hlow, hhigh]

/-- Up to `w` bits may be added before the steps they cause. -/
theorem feed_bitsOf {n x : ℕ} (hn : n ≤ w) (hx : x < 2 ^ n) (c : BitVec w) :
    feed poly c (bitsOf n x) = (step poly)^[n] (c ^^^ BitVec.ofNat w x) := by
  induction n generalizing x c with
  | zero =>
    have h0 : x = 0 := by omega
    subst h0
    exact (BitVec.xor_zero).symm
  | succ n ih =>
    have hhalf : x / 2 < 2 ^ n := by omega
    -- the rest of the bits, doubled, is shifted back by the first step
    have hsplit : BitVec.ofNat w x = (BitVec.ofBool (x.testBit 0)).setWidth w ^^^ (BitVec.ofNat w (x / 2) <<< 1) := by
      apply BitVec.eq_of_getLsbD_eq
      intro i hi
      rw [BitVec.getLsbD_xor, BitVec.getLsbD_setWidth, BitVec.getLsbD_ofBool, BitVec.getLsbD_shiftLeft,
        BitVec.getLsbD_ofNat, BitVec.getLsbD_ofNat]
      cases i with
      | zero => simp [hi]
      | succ i =>
        have hi' : i < w := by omega
        simp [hi, hi', Nat.testBit_succ]
    have hback : step poly (BitVec.ofNat w (x / 2) <<< 1) = BitVec.ofNat w (x / 2) := by
      have hclear : ∀ i < 1, (BitVec.ofNat w (x / 2) <<< 1).getLsbD i = false := by
        intro i hi
        rw [BitVec.getLsbD_shiftLeft, decide_eq_true hi]
        simp
      have hone : step poly (BitVec.ofNat w (x / 2) <<< 1) = BitVec.ofNat w (x / 2) <<< 1 >>> 1 :=
        steps_of_low_clear poly hclear
      rw [hone]
      apply BitVec.eq_of_getLsbD_eq
      intro i hi
      rw [BitVec.getLsbD_ushiftRight, BitVec.getLsbD_shiftLeft, Nat.add_sub_cancel_left, BitVec.getLsbD_ofNat]
      by_cases hw : 1 + i < w
      · simp [hi, hw]
      · -- the top bit of the register is past the bits that are left
        have hzero : (x / 2).testBit i = false := Nat.testBit_lt_two_pow
          (hhalf.trans_le (Nat.pow_le_pow_right Nat.two_pos (by omega)))
        simp [hzero]
    rw [bitsOf, feed, List.foldl_cons, ← feed, ih (Nat.le_of_succ_le hn) hhalf, Function.iterate_succ_apply, hsplit,
      ← BitVec.xor_assoc, step_xor poly _ (BitVec.ofNat w (x / 2) <<< 1), hback]

end Crc
