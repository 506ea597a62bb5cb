import Mathlib.Algebra.BigOperators.Intervals
import Mathlib.Order.Defs.LinearOrder
import Turbovec.Lib.Slice

/-!
# Cells of a scalar quantiser

A sorted list of thresholds cuts a line into cells, and a value's cell is the number of thresholds it exceeds.
Where the thresholds are nested a value that exceeds the middle one exceeds every one below it, so half of the
comparisons settle the cell.
-/

namespace Cells

open Slice
open Finset (range)

variable {α : Type*} [LT α] [DecidableLT α]

/-- The number of thresholds that `x` exceeds. -/
def exceeded (thresholds : List α) (x : α) : ℕ := thresholds.countP (· < x)

theorem exceeded_le_length (thresholds : List α) (x : α) : exceeded thresholds x ≤ thresholds.length :=
  List.countP_le_length

/-- With `2 ^ bits - 1` thresholds a cell is a number of `bits` bits. -/
theorem exceeded_lt {thresholds : List α} {bits : ℕ} (hlen : thresholds.length = 2 ^ bits - 1) (x : α) :
    exceeded thresholds x < 2 ^ bits := by
  have hle := exceeded_le_length thresholds x
  have hpos := Nat.two_pow_pos bits
  omega

variable [Zero α] {thresholds : List α}

/-- What exceeds a threshold exceeds every threshold before it. -/
def Nested (thresholds : List α) : Prop :=
  ∀ i j, i ≤ j → j < thresholds.length → ∀ x, entry thresholds j < x → entry thresholds i < x

/-- One comparison, counted. -/
def hit (thresholds : List α) (x : α) (i : ℕ) : ℕ := if entry thresholds i < x then 1 else 0

theorem exceeded_eq_sum (thresholds : List α) (x : α) :
    exceeded thresholds x = ∑ i ∈ range thresholds.length, hit thresholds x i := by
  induction thresholds with
  | nil => rfl
  | cons b l ih =>
    have htail (i : ℕ) : hit (b :: l) x (i + 1) = hit l x i := rfl
    have hhead : hit (b :: l) x 0 = if b < x then 1 else 0 := rfl
    rw [List.length_cons, Finset.sum_range_succ', Finset.sum_congr rfl fun i _ => htail i, hhead, ← ih]
    unfold exceeded
    rw [List.countP_cons]
    simp only [decide_eq_true_eq]

/-- Thresholds that are all exceeded count one each. -/
theorem sum_hit {x : α} {n : ℕ} (h : ∀ i < n, entry thresholds i < x) : ∑ i ∈ range n, hit thresholds x i = n := by
  have hone : ∀ i ∈ range n, hit thresholds x i = 1 := by
    intro i hi
    rw [hit, if_pos (h i (Finset.mem_range.1 hi))]
  rw [Finset.sum_congr rfl hone, Finset.sum_const, Finset.card_range, Nat.nsmul_eq_mul, Nat.mul_one]

/-- Thresholds that are not exceeded count nothing. -/
theorem sum_not_hit {x : α} {a n : ℕ} (h : ∀ k < n, ¬ entry thresholds (a + k) < x) :
    ∑ k ∈ range n, hit thresholds x (a + k) = 0 := by
  apply Finset.sum_eq_zero
  intro k hk
  rw [hit, if_neg (h k (Finset.mem_range.1 hk))]

/-- The middle comparison decides which half is left to count. -/
theorem Nested.two_level (h : Nested thresholds) {m : ℕ} (hlen : thresholds.length = 2 * m + 1) (x : α) :
    exceeded thresholds x = if entry thresholds m < x then m + 1 + ∑ k ∈ range m, hit thresholds x (m + 1 + k)
      else ∑ k ∈ range m, hit thresholds x k := by
  rw [exceeded_eq_sum, hlen, show 2 * m + 1 = m + 1 + m by omega, Finset.sum_range_add]
  by_cases hm : entry thresholds m < x
  · rw [if_pos hm, sum_hit fun i hi => h i m (by omega) (by omega) x hm]
  · have hhigh : ∑ k ∈ range m, hit thresholds x (m + 1 + k) = 0 :=
      sum_not_hit fun k hk hlt => hm (h m (m + 1 + k) (by omega) (by omega) x hlt)
    have hmid : hit thresholds x m = 0 := if_neg hm
    rw [if_neg hm, hhigh, Finset.sum_range_succ, hmid]
    rfl

/-- A value between two neighbouring thresholds is in the cell between them. -/
theorem exceeded_of_between {x : α} {j : ℕ} (hj : j ≤ thresholds.length) (hbelow : ∀ i < j, entry thresholds i < x)
    (habove : ∀ i, j ≤ i → i < thresholds.length → ¬ entry thresholds i < x) : exceeded thresholds x = j := by
  obtain ⟨m, hm⟩ := Nat.exists_eq_add_of_le hj
  have hhigh : ∑ k ∈ range m, hit thresholds x (j + k) = 0 :=
    sum_not_hit fun k hk => habove (j + k) (by omega) (by omega)
  rw [exceeded_eq_sum, hm, Finset.sum_range_add, sum_hit hbelow, hhigh, Nat.add_zero]

end Cells
