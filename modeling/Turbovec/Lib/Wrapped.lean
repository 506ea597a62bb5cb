import Mathlib.Algebra.BigOperators.Intervals
import Mathlib.Algebra.Order.BigOperators.Group.Finset
import Mathlib.Algebra.Order.Ring.Int
import Mathlib.Data.Nat.Cast.Order.Basic

/-!
# Wrapping sums

A loop that keeps a sum in wrapping arithmetic ends with the integer sum wrapped, so with the integer
sum itself wherever that one fits.
-/

namespace Wrapped

open Finset (range)

/-- A loop whose steps each add the image of a term to a cell leaves the image of the sum there. -/
theorem foldl_hom {σ M N : Type*} [AddCommMonoid M] [Add N] [Std.Associative (α := N) (· + ·)] {φ : M → N}
    (hadd : ∀ a b, φ (a + b) = φ a + φ b) (hzero : ∀ c, c + φ 0 = c) {read : σ → N} {step : σ → ℕ → σ} {g : ℕ → M}
    {n : ℕ} (h : ∀ s, ∀ q < n, read (step s q) = read s + φ (g q)) (s : σ) :
    read ((List.range n).foldl step s) = read s + φ (∑ q ∈ range n, g q) := by
  induction n with
  | zero => exact (hzero _).symm
  | succ n ih =>
    rw [List.range_succ, List.foldl_append, List.foldl_cons, List.foldl_nil, h _ n (Nat.lt_succ_self n),
      ih fun s q hq => h s q (Nat.lt_succ_of_lt hq), Finset.sum_range_succ, hadd]
    exact Std.Associative.assoc _ _ _

/-- A loop whose steps each add a wrapped integer to a cell leaves the wrapped sum there. -/
theorem foldl_read {σ : Type*} {read : σ → Int32} {step : σ → ℕ → σ} {g : ℕ → ℤ} {n : ℕ}
    (h : ∀ s, ∀ q < n, read (step s q) = read s + Int32.ofInt (g q)) (s : σ) :
    read ((List.range n).foldl step s) = read s + Int32.ofInt (∑ q ∈ range n, g q) :=
  foldl_hom Int32.ofInt_add Int32.add_zero h s

/-- The same in unsigned 16-bit arithmetic. -/
theorem foldl_read16 {σ : Type*} {read : σ → UInt16} {step : σ → ℕ → σ} {g : ℕ → ℕ} {n : ℕ}
    (h : ∀ s, ∀ q < n, read (step s q) = read s + UInt16.ofNat (g q)) (s : σ) :
    read ((List.range n).foldl step s) = read s + UInt16.ofNat (∑ q ∈ range n, g q) :=
  foldl_hom UInt16.ofNat_add UInt16.add_zero h s

/-- A loop that adds up terms. -/
theorem foldl_add {f : ℕ → Int32} {g : ℕ → ℤ} {n : ℕ} (h : ∀ i < n, f i = Int32.ofInt (g i)) (a : Int32) :
    (List.range n).foldl (fun s i => s + f i) a = a + Int32.ofInt (∑ i ∈ range n, g i) :=
  @foldl_read Int32 id (fun s i => s + f i) g n (fun s i hi => congrArg (s + ·) (h i hi)) a

theorem ofInt_mul_toInt32 (m : ℤ) (b : Int8) : Int32.ofInt m * b.toInt32 = Int32.ofInt (m * b.toInt) := by
  rw [Int32.ofInt_mul, Int32.ofInt_int8ToInt]

theorem toInt32_mul_toInt32 (a b : Int8) : a.toInt32 * b.toInt32 = Int32.ofInt (a.toInt * b.toInt) := by
  rw [← Int32.ofInt_int8ToInt, ofInt_mul_toInt32]

/-- A loop that adds up integers. -/
theorem foldl_int {f : ℕ → ℤ → ℤ} {g : ℕ → ℤ} {n : ℕ} (h : ∀ i < n, ∀ s, f i s = s + g i) (a : ℤ) :
    (List.range n).foldl (fun s i => f i s) a = a + ∑ i ∈ range n, g i := by
  induction n with
  | zero => simp
  | succ n ih =>
    rw [List.range_succ, List.foldl_append, List.foldl_cons, List.foldl_nil, h n (Nat.lt_succ_self n),
      ih fun i hi => h i (Nat.lt_succ_of_lt hi), Finset.sum_range_succ, Int.add_assoc]

/-- Terms past the end that are zero add nothing. -/
theorem sum_range_of_zero {m n : ℕ} (hmn : m ≤ n) {f : ℕ → ℤ} (h : ∀ i, m ≤ i → i < n → f i = 0) :
    ∑ i ∈ range n, f i = ∑ i ∈ range m, f i := by
  apply Eq.symm
  apply Finset.sum_subset
  · intro i hi
    rw [Finset.mem_range] at *
    omega
  · intro i hi hm
    rw [Finset.mem_range] at *
    exact h i (by omega) hi

/-- A sum over rows of `k`. -/
theorem sum_range_mul {M : Type*} [AddCommMonoid M] (n k : ℕ) (f : ℕ → M) :
    ∑ i ∈ range (n * k), f i = ∑ q ∈ range n, ∑ j ∈ range k, f (q * k + j) := by
  induction n with
  | zero => simp
  | succ n ih => rw [Nat.succ_mul, Finset.sum_range_add, ih, Finset.sum_range_succ]

/-- A sum over rows of `k` pairs, the even places of a row and then the odd ones. -/
theorem sum_range_halves {M : Type*} [AddCommMonoid M] (n k : ℕ) (f : ℕ → M) : ∑ i ∈ range (n * (k * 2)), f i =
    ∑ q ∈ range n, ((∑ j ∈ range k, f (q * (k * 2) + 2 * j)) + ∑ j ∈ range k, f (q * (k * 2) + 2 * j + 1)) := by
  rw [sum_range_mul]
  apply Finset.sum_congr rfl
  intro q _
  rw [sum_range_mul k 2 fun i => f (q * (k * 2) + i), ← Finset.sum_add_distrib]
  apply Finset.sum_congr rfl
  intro j _
  rw [Finset.sum_range_succ, Finset.sum_range_one, Nat.mul_comm j 2]
  rfl

/-- Two steps at a time, and a last one alone. -/
theorem sum_range_pairs (n : ℕ) (f : ℕ → ℤ) :
    ∑ s ∈ range ((n + 1) / 2), (f (2 * s) + if 2 * s + 1 < n then f (2 * s + 1) else 0) =
      ∑ q ∈ range n, f q := by
  have hpairs (m : ℕ) : ∑ s ∈ range m, (f (2 * s) + f (2 * s + 1)) = ∑ q ∈ range (m * 2), f q := by
    rw [sum_range_mul]
    apply Finset.sum_congr rfl
    intro s _
    rw [Finset.sum_range_succ, Finset.sum_range_one, Nat.mul_comm 2 s, Nat.add_zero (s * 2)]
  obtain ⟨m, rfl | rfl⟩ : ∃ m, n = m * 2 ∨ n = m * 2 + 1 := ⟨n / 2, by omega⟩
  · rw [show (m * 2 + 1) / 2 = m by omega, ← hpairs]
    apply Finset.sum_congr rfl
    intro s hs
    rw [Finset.mem_range] at hs
    rw [if_pos (by omega)]
  · rw [show (m * 2 + 1 + 1) / 2 = m + 1 by omega, Finset.sum_range_succ, Finset.sum_range_succ _ (m * 2), ← hpairs,
      if_neg (by omega), Int.add_zero, Nat.mul_comm 2 m]
    congr 1
    apply Finset.sum_congr rfl
    intro s hs
    rw [Finset.mem_range] at hs
    rw [if_pos (by omega)]

/-- A sum of bounded terms is bounded, whichever terms are in it. -/
theorem abs_sum_le {n : ℕ} {S : Finset ℕ} (hS : S ⊆ range n) {f : ℕ → ℤ} {B : ℤ} (hB : 0 ≤ B)
    (h : ∀ i ∈ S, |f i| ≤ B) : |∑ i ∈ S, f i| ≤ n * B := by
  calc |∑ i ∈ S, f i| ≤ ∑ i ∈ S, |f i| := Finset.abs_sum_le_sum_abs f S
    _ ≤ S.card • B := Finset.sum_le_card_nsmul S _ B h
    _ ≤ n * B := by
      have hcard := Finset.card_le_card hS
      rw [Finset.card_range] at hcard
      rw [nsmul_eq_mul]
      exact mul_le_mul_of_nonneg_right (Int.ofNat_le.2 hcard) hB

end Wrapped
