import Mathlib.Data.Int.Log
import Mathlib.Data.Rat.Floor
import Mathlib.Algebra.Order.Field.Rat
import Mathlib.Tactic.Linarith
import Mathlib.Tactic.FieldSimp
import Mathlib.Tactic.Ring

/-!
# Rounding to a number of significant bits

Rounding to nearest, ties to even, with no bound on the exponent. It is monotone and leaves what fits alone.
-/

namespace Rounded

/-- The nearest integer, the even one of two. -/
def roundEven (x : ℚ) : ℤ :=
  if Int.fract x < 1 / 2 ∨ Int.fract x = 1 / 2 ∧ ⌊x⌋ % 2 = 0 then ⌊x⌋ else ⌊x⌋ + 1

/-- The step of the values beside `x` that have `p` significant bits. -/
def ulp (p : ℕ) (x : ℚ) : ℚ := 2 ^ (Int.log 2 |x| + 1 - p)

/-- The value of `p` significant bits nearest to `x`. -/
def rounded (p : ℕ) (x : ℚ) : ℚ := roundEven (x / ulp p x) * ulp p x

/-! ## Integers -/

theorem roundEven_bounds (x : ℚ) : ⌊x⌋ ≤ roundEven x ∧ roundEven x ≤ ⌊x⌋ + 1 := by
  unfold roundEven
  split <;> omega

@[simp] theorem roundEven_intCast (z : ℤ) : roundEven z = z := by
  unfold roundEven
  rw [if_pos (Or.inl (by rw [Int.fract_intCast]; norm_num)), Int.floor_intCast]

theorem roundEven_mono {x y : ℚ} (h : x ≤ y) : roundEven x ≤ roundEven y := by
  obtain hlt | heq := lt_or_eq_of_le (Int.floor_le_floor h)
  · have hx := (roundEven_bounds x).2
    have hy := (roundEven_bounds y).1
    omega
  · have hfract : Int.fract x ≤ Int.fract y := by
      rw [Int.fract, Int.fract, heq]
      linarith
    unfold roundEven
    rw [heq]
    split
    · split <;> omega
    · rename_i hx
      rw [if_neg]
      rintro (hy | ⟨hy, hev⟩)
      · exact hx (Or.inl (lt_of_le_of_lt hfract hy))
      · rw [hy] at hfract
        rcases lt_or_eq_of_le hfract with hlt | hhalf
        · exact hx (Or.inl hlt)
        · exact hx (Or.inr ⟨hhalf, hev⟩)

theorem roundEven_le (x : ℚ) : (roundEven x : ℚ) ≤ x + 1 / 2 := by
  have hx := Int.floor_add_fract x
  unfold roundEven
  split
  · have := Int.fract_nonneg x
    linarith
  · rename_i h
    have hhalf : 1 / 2 ≤ Int.fract x := not_lt.mp fun hlt => h (Or.inl hlt)
    push_cast
    linarith

/-! ## Significant bits -/

theorem ulp_pos (p : ℕ) (x : ℚ) : 0 < ulp p x := zpow_pos (by norm_num) _

@[simp] theorem rounded_zero (p : ℕ) : rounded p 0 = 0 := by
  have h := roundEven_intCast 0
  rw [Int.cast_zero] at h
  rw [rounded, zero_div, h, Int.cast_zero, zero_mul]

theorem rounded_nonpos {p : ℕ} {x : ℚ} (hx : x ≤ 0) : rounded p x ≤ 0 := by
  have h := roundEven_mono (div_nonpos_of_nonpos_of_nonneg hx (ulp_pos p x).le)
  have hzero := roundEven_intCast 0
  rw [Int.cast_zero] at hzero
  rw [hzero] at h
  exact mul_nonpos_of_nonpos_of_nonneg (by exact_mod_cast h) (ulp_pos p x).le

/-- A value with few enough significant bits is left alone. -/
theorem rounded_of_fits {p m : ℕ} (hp : 0 < p) (hm : m ≤ 2 ^ p) (k : ℤ) : rounded p (m * 2 ^ k) = m * 2 ^ k := by
  rcases Nat.eq_zero_or_pos m with rfl | hpos
  · rw [Nat.cast_zero, zero_mul, rounded_zero]
  · have hx : (0 : ℚ) < m * 2 ^ k := mul_pos (Nat.cast_pos.mpr hpos) (zpow_pos (by norm_num) k)
    -- the quotient is a whole number, also at the power of two above the others
    have hint : ∃ z : ℤ, (m * 2 ^ k : ℚ) / ulp p (m * 2 ^ k) = z := by
      unfold ulp
      rw [abs_of_pos hx]
      rcases Nat.lt_or_eq_of_le hm with hlt | rfl
      · have hlog : Int.log 2 (m * 2 ^ k : ℚ) < p + k := by
          rw [← Int.lt_zpow_iff_log_lt (by norm_num) hx, Nat.cast_ofNat, zpow_add₀ (by norm_num), zpow_natCast]
          exact mul_lt_mul_of_pos_right (by exact_mod_cast hlt) (zpow_pos (by norm_num) k)
        obtain ⟨d, hd⟩ := Int.eq_ofNat_of_zero_le (show 0 ≤ p + k - (Int.log 2 (m * 2 ^ k : ℚ) + 1) by omega)
        refine ⟨m * 2 ^ d, ?_⟩
        rw [div_eq_iff (zpow_ne_zero _ (by norm_num)), Int.cast_mul, Int.cast_pow, Int.cast_natCast, mul_assoc]
        congr 1
        rw [Int.cast_ofNat, ← zpow_natCast, ← zpow_add₀ (by norm_num)]
        congr 1
        omega
      · have hpow : ((2 ^ p : ℕ) * 2 ^ k : ℚ) = (2 : ℕ) ^ (p + k : ℤ) := by
          rw [Nat.cast_pow, Nat.cast_ofNat, zpow_add₀ (by norm_num), zpow_natCast]
        rw [hpow, Int.log_zpow (by norm_num)]
        refine ⟨2 ^ (p - 1), ?_⟩
        rw [div_eq_iff (zpow_ne_zero _ (by norm_num)), Nat.cast_ofNat, Int.cast_pow, Int.cast_ofNat, ← zpow_natCast,
          ← zpow_add₀ (by norm_num)]
        congr 1
        omega
    obtain ⟨z, hz⟩ := hint
    rw [rounded, hz, roundEven_intCast, ← hz, div_mul_cancel₀ _ (ulp_pos p _).ne']

/-- What a rounding leaves has few enough significant bits. -/
theorem rounded_fits {p : ℕ} (hp : 0 < p) {x : ℚ} (hx : 0 < x) :
    ∃ m : ℕ, ∃ k : ℤ, m ≤ 2 ^ p ∧ 2 ^ (p - 1) ≤ m ∧ k = Int.log 2 x + 1 - p ∧ rounded p x = m * 2 ^ k := by
  have hlow : (2 : ℚ) ^ (p - 1) ≤ x / ulp p x := by
    rw [le_div_iff₀ (ulp_pos p x), ulp, abs_of_pos hx, ← zpow_natCast, ← zpow_add₀ (by norm_num)]
    have := Int.zpow_log_le_self (b := 2) (by norm_num) hx
    rw [Nat.cast_ofNat] at this
    rwa [show ((p - 1 : ℕ) : ℤ) + (Int.log 2 x + 1 - p) = Int.log 2 x by omega]
  have hhigh : x / ulp p x ≤ 2 ^ p := by
    rw [div_le_iff₀ (ulp_pos p x), ulp, abs_of_pos hx, ← zpow_natCast, ← zpow_add₀ (by norm_num)]
    have := Int.lt_zpow_succ_log_self (b := 2) (by norm_num) x
    rw [Nat.cast_ofNat] at this
    rw [show (p : ℤ) + (Int.log 2 x + 1 - p) = Int.log 2 x + 1 by omega]
    exact this.le
  have hlow' : (2 ^ (p - 1) : ℤ) ≤ roundEven (x / ulp p x) := by
    have h := roundEven_mono (x := ((2 ^ (p - 1) : ℤ) : ℚ)) (by push_cast; exact hlow)
    rwa [roundEven_intCast] at h
  have hhigh' : roundEven (x / ulp p x) ≤ 2 ^ p := by
    have h := roundEven_mono (y := ((2 ^ p : ℤ) : ℚ)) (by push_cast; exact hhigh)
    rwa [roundEven_intCast] at h
  have hpow : (0 : ℤ) < 2 ^ (p - 1) := by positivity
  obtain ⟨m, hm⟩ := Int.eq_ofNat_of_zero_le (show 0 ≤ roundEven (x / ulp p x) by omega)
  refine ⟨m, Int.log 2 x + 1 - p, by exact_mod_cast hm ▸ hhigh', by exact_mod_cast hm ▸ hlow', rfl, ?_⟩
  rw [rounded, hm, Int.cast_natCast, ulp, abs_of_pos hx]

/-- The double of a value with few enough significant bits has no more. -/
theorem rounded_two_mul_of_fits {p m : ℕ} (hp : 0 < p) (hm : m ≤ 2 ^ p) (k : ℤ) :
    rounded p (2 * (m * 2 ^ k)) = 2 * (m * 2 ^ k) := by
  have hshift : (2 * (m * 2 ^ k) : ℚ) = m * 2 ^ (k + 1) := by
    rw [zpow_add_one₀ (by norm_num)]
    ring
  rw [hshift, rounded_of_fits hp hm]

theorem rounded_mono {p : ℕ} (hp : 0 < p) {x y : ℚ} (hx : 0 ≤ x) (h : x ≤ y) : rounded p x ≤ rounded p y := by
  rcases hx.eq_or_lt with rfl | hx
  · rcases h.eq_or_lt with rfl | hy
    · exact le_refl _
    · obtain ⟨m, k, -, -, -, heq⟩ := rounded_fits hp hy
      rw [rounded_zero, heq]
      exact mul_nonneg (Nat.cast_nonneg m) (zpow_nonneg (by norm_num) k)
  · have hy := lt_of_lt_of_le hx h
    rcases (Int.log_mono_right (b := 2) hx h).eq_or_lt with hlog | hlog
    · have hulp : ulp p x = ulp p y := by rw [ulp, ulp, abs_of_pos hx, abs_of_pos hy, hlog]
      rw [rounded, rounded, hulp]
      apply mul_le_mul_of_nonneg_right _ (ulp_pos p y).le
      exact_mod_cast roundEven_mono (div_le_div_of_nonneg_right h (ulp_pos p y).le)
    · -- a power of two stands between them
      obtain ⟨m, k, hm, -, rfl, hx⟩ := rounded_fits hp hx
      obtain ⟨m', k', -, hm', rfl, hy⟩ := rounded_fits hp hy
      rw [hx, hy]
      calc (m : ℚ) * 2 ^ (Int.log 2 x + 1 - p) ≤ 2 ^ (p : ℤ) * 2 ^ (Int.log 2 x + 1 - p) := by
            apply mul_le_mul_of_nonneg_right _ (zpow_nonneg (by norm_num) _)
            rw [zpow_natCast]
            exact_mod_cast hm
        _ = 2 ^ (Int.log 2 x + 1) := by
            rw [← zpow_add₀ (by norm_num)]
            congr 1
            omega
        _ ≤ 2 ^ (Int.log 2 y) := zpow_le_zpow_right₀ (by norm_num) (by omega)
        _ = 2 ^ ((p - 1 : ℕ) : ℤ) * 2 ^ (Int.log 2 y + 1 - p) := by
            rw [← zpow_add₀ (by norm_num)]
            congr 1
            omega
        _ ≤ m' * 2 ^ (Int.log 2 y + 1 - p) := by
            apply mul_le_mul_of_nonneg_right _ (zpow_nonneg (by norm_num) _)
            rw [zpow_natCast]
            exact_mod_cast hm'

/-- A rounding to two bits or more adds at most a quarter. -/
theorem rounded_le {p : ℕ} (hp : 2 ≤ p) {x : ℚ} (hx : 0 ≤ x) : rounded p x ≤ 5 / 4 * x := by
  rcases hx.eq_or_lt with rfl | hx
  · simp
  · have hulp : ulp p x ≤ x / 2 := by
      have hlog := Int.zpow_log_le_self (b := 2) (by norm_num) hx
      rw [Nat.cast_ofNat] at hlog
      have hle : ulp p x ≤ 2 ^ (Int.log 2 x - 1) := by
        rw [ulp, abs_of_pos hx]
        exact zpow_le_zpow_right₀ (by norm_num) (by omega)
      rw [zpow_sub_one₀ (by norm_num)] at hle
      linarith
    have hround := roundEven_le (x / ulp p x)
    calc rounded p x ≤ (x / ulp p x + 1 / 2) * ulp p x := mul_le_mul_of_nonneg_right hround (ulp_pos p x).le
      _ = x + ulp p x / 2 := by
          have := (ulp_pos p x).ne'
          field_simp
      _ ≤ 5 / 4 * x := by linarith

end Rounded
