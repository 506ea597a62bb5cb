import Turbovec.Lib.LittleEndian
import Mathlib.Data.Finite.Prod
import Mathlib.Data.Nat.Bitwise

/-!
# Bits of accumulators and of bytes

Loops that build a word by OR-ing pieces into it are read one bit at a time: `testBit_foldl` says
that a bit of the result is set when some step sets it.
-/

namespace Bits

open LittleEndian Slice

variable {ι : Type*}

/-- A loop whose every step ORs something into what `read` looks at ORs them all. -/
theorem foldl_or {σ : Type*} {f : σ → ι → σ} {read : σ → Bool} (g : ι → Bool)
    (h : ∀ a x, read (f a x) = (read a || g x)) (xs : List ι) (a : σ) : read (xs.foldl f a) = (read a || xs.any g) := by
  induction xs generalizing a with
  | nil => simp
  | cons x xs ih => rw [List.foldl_cons, ih, h, List.any_cons, Bool.or_assoc]

/-- In particular one bit of a word. -/
theorem testBit_foldl {f : ℕ → ι → ℕ} (g : ι → Bool) {k : ℕ}
    (h : ∀ a x, (f a x).testBit k = (a.testBit k || g x)) (xs : List ι) (a : ℕ) :
    (xs.foldl f a).testBit k = (a.testBit k || xs.any g) :=
  @foldl_or ι ℕ f (fun a => a.testBit k) g h xs a

/-- One conditional bit. -/
theorem testBit_ite_or_shiftLeft (a k m : ℕ) (c : Bool) :
    (if c = true then a ||| 1 <<< m else a).testBit k = (a.testBit k || (c && decide (m = k))) := by
  cases c with
  | false => simp
  | true => simp [Nat.testBit_or, Nat.one_shiftLeft, Nat.testBit_two_pow]

theorem any_range_eq_of_unique {n i : ℕ} {g : ℕ → Bool} (hi : i < n)
    (h : ∀ j < n, g j = true → j = i) : (List.range n).any g = g i := by
  by_cases hg : g i = true
  · rw [hg, List.any_eq_true]
    exact ⟨i, List.mem_range.2 hi, hg⟩
  · rw [Bool.not_eq_true] at hg
    rw [hg, List.any_eq_false]
    intro j hj hgj
    have hji := h j (List.mem_range.1 hj) hgj
    rw [hji, hg] at hgj
    exact Bool.noConfusion hgj

theorem any_range_congr {n : ℕ} {f g : ℕ → Bool} (h : ∀ j < n, f j = g j) :
    (List.range n).any f = (List.range n).any g := by
  rw [Bool.eq_iff_iff, List.any_eq_true, List.any_eq_true]
  exact exists_congr fun j => and_congr_right fun hj => by rw [h j (List.mem_range.1 hj)]

theorem any_range_eq_false {n : ℕ} {g : ℕ → Bool} (h : ∀ j < n, g j = false) :
    (List.range n).any g = false := by
  rw [List.any_eq_false]
  intro j hj
  simp [h j (List.mem_range.1 hj)]

/-- There are finitely many bytes. -/
instance finiteUInt8 : Finite UInt8 := Finite.of_injective UInt8.toFin fun _ _ h => UInt8.toFin_inj.1 h

/-- Bytes with the same eight bits are equal. -/
theorem eq_of_testBit {a b : UInt8} (h : ∀ i < 8, a.toNat.testBit i = b.toNat.testBit i) :
    a = b := by
  apply UInt8.toNat_inj.1
  apply Nat.eq_of_testBit_eq
  intro i
  by_cases hi : i < 8
  · exact h i hi
  · have ha : a.toNat < 2 ^ i := lt_of_lt_of_le a.toNat_lt (Nat.pow_le_pow_right (by omega) (by omega))
    have hb : b.toNat < 2 ^ i := lt_of_lt_of_le b.toNat_lt (Nat.pow_le_pow_right (by omega) (by omega))
    rw [Nat.testBit_lt_two_pow ha, Nat.testBit_lt_two_pow hb]

theorem testBit_ofNat {n i : ℕ} (hi : i < 8) : (UInt8.ofNat n).toNat.testBit i = n.testBit i := by
  rw [UInt8.toNat_ofNat', Nat.testBit_mod_two_pow]
  simp [hi]

/-- One bit, moved. -/
theorem testBit_pick (c k m i : ℕ) :
    (((c >>> k) &&& 1) <<< m).testBit i = (decide (i = m) && c.testBit k) := by
  have h1 : (1 : ℕ) = 2 ^ 1 - 1 := rfl
  rw [Nat.testBit_shiftLeft, Nat.testBit_and, Nat.testBit_shiftRight, h1,
    Nat.testBit_two_pow_sub_one]
  by_cases h : i = m
  · subst h
    simp
  · by_cases hlt : m ≤ i
    · have : ¬ i - m < 1 := by omega
      simp [h, this]
    · simp [h, hlt]

/-! ## Nibbles -/

theorem testBit_of_le {a : UInt8} {i : ℕ} (h : 8 ≤ i) : a.toNat.testBit i = false :=
  Nat.testBit_lt_two_pow (lt_of_lt_of_le a.toNat_lt (Nat.pow_le_pow_right (by omega) h))

theorem testBit_and (a b : UInt8) (i : ℕ) :
    (a &&& b).toNat.testBit i = (a.toNat.testBit i && b.toNat.testBit i) := by
  rw [UInt8.toNat_and, Nat.testBit_and]

theorem testBit_or (a b : UInt8) (i : ℕ) :
    (a ||| b).toNat.testBit i = (a.toNat.testBit i || b.toNat.testBit i) := by
  rw [UInt8.toNat_or, Nat.testBit_or]

theorem testBit_shr4 (a : UInt8) (i : ℕ) :
    (a >>> (4 : UInt8)).toNat.testBit i = a.toNat.testBit (4 + i) := by
  rw [UInt8.toNat_shiftRight, Nat.testBit_shiftRight]
  rfl

theorem testBit_shl4 (a : UInt8) {i : ℕ} (hi : i < 8) :
    (a <<< (4 : UInt8)).toNat.testBit i = (decide (4 ≤ i) && a.toNat.testBit (i - 4)) := by
  have h : (a <<< (4 : UInt8)).toNat = a.toNat <<< 4 % 2 ^ 8 := UInt8.toNat_shiftLeft a 4
  rw [h, Nat.testBit_mod_two_pow, Nat.testBit_shiftLeft]
  simp [hi]

theorem testBit_lo {i : ℕ} (hi : i < 8) : (0x0F : UInt8).toNat.testBit i = decide (i < 4) := by
  have : ∀ i < 8, (0x0F : UInt8).toNat.testBit i = decide (i < 4) := by decide
  exact this i hi

theorem testBit_hi {i : ℕ} (hi : i < 8) : (0xF0 : UInt8).toNat.testBit i = decide (4 ≤ i) := by
  have : ∀ i < 8, (0xF0 : UInt8).toNat.testBit i = decide (4 ≤ i) := by decide
  exact this i hi

/-- A byte is its two nibbles. -/
theorem hi_or_lo (x : UInt8) : ((x >>> (4 : UInt8)) <<< (4 : UInt8)) ||| (x &&& 0x0F) = x := by
  refine eq_of_testBit fun i hi => ?_
  simp only [testBit_and, testBit_or, testBit_shl4 _ hi, testBit_shr4, testBit_lo hi]
  by_cases h : i < 4
  · simp [h, Nat.not_le.2 h]
  · simp [h, Nat.not_lt.1 h]

theorem shl4_and_lo (x : UInt8) : ((x &&& 0x0F) <<< (4 : UInt8)) &&& (0x0F : UInt8) = 0 := by
  refine eq_of_testBit fun i hi => ?_
  simp only [testBit_and, testBit_shl4 _ hi, testBit_lo hi]
  by_cases h : i < 4 <;> simp [h, Nat.not_le.2]

theorem hi_and_lo (x : UInt8) : (x &&& (0xF0 : UInt8)) &&& (0x0F : UInt8) = 0 := by
  refine eq_of_testBit fun i hi => ?_
  simp only [testBit_and, testBit_lo hi, testBit_hi hi]
  by_cases h : i < 4 <;> simp [h, Nat.not_le.2]

theorem lo_and_hi (x : UInt8) : (x &&& (0x0F : UInt8)) &&& (0xF0 : UInt8) = 0 := by
  rw [UInt8.and_assoc, UInt8.and_comm 0x0F, ← UInt8.and_assoc, hi_and_lo]

theorem shr4_and_hi (x : UInt8) : (x >>> (4 : UInt8)) &&& (0xF0 : UInt8) = 0 := by
  refine eq_of_testBit fun i hi => ?_
  simp only [testBit_and, testBit_shr4, testBit_hi hi]
  by_cases h : i < 4
  · simp [Nat.not_le.2 h]
  · simp [testBit_of_le (show 8 ≤ 4 + i by omega)]

theorem hi_shr4 (x : UInt8) : (x &&& (0xF0 : UInt8)) >>> (4 : UInt8) = x >>> (4 : UInt8) := by
  refine eq_of_testBit fun i hi => ?_
  simp only [testBit_and, testBit_shr4]
  by_cases h : i < 4
  · rw [testBit_hi (show 4 + i < 8 by omega)]
    simp
  · simp [testBit_of_le (show 8 ≤ 4 + i by omega)]

theorem shr4_shl4 (x : UInt8) :
    (x >>> (4 : UInt8)) <<< (4 : UInt8) = x &&& (0xF0 : UInt8) := by
  refine eq_of_testBit fun i hi => ?_
  simp only [testBit_and, testBit_shl4 _ hi, testBit_shr4, testBit_hi hi]
  by_cases h : i < 4
  · simp [Nat.not_le.2 h]
  · simp [Nat.not_lt.1 h]

theorem lo_shl4_shr4 (x : UInt8) :
    ((x &&& 0x0F) <<< (4 : UInt8)) >>> (4 : UInt8) = x &&& (0x0F : UInt8) := by
  refine eq_of_testBit fun i hi => ?_
  simp only [testBit_and, testBit_shr4, testBit_lo hi]
  by_cases h : i < 4
  · rw [testBit_shl4 _ (show 4 + i < 8 by omega), testBit_and, Nat.add_sub_cancel_left,
      testBit_lo hi]
    simp
  · rw [testBit_of_le (show 8 ≤ 4 + i by omega)]
    simp [h]

section Merge

variable {x d : UInt8}

private theorem testBit_of_and_hi (hd : d &&& (0xF0 : UInt8) = 0) {i : ℕ} (hi : i < 8)
    (h : 4 ≤ i) : d.toNat.testBit i = false := by
  have := congrArg (fun y : UInt8 => y.toNat.testBit i) hd
  simp only [testBit_and, testBit_hi hi, h] at this
  simpa using this

private theorem testBit_of_and_lo (hd : d &&& (0x0F : UInt8) = 0) {i : ℕ} (h : i < 4) :
    d.toNat.testBit i = false := by
  have := congrArg (fun y : UInt8 => y.toNat.testBit i) hd
  simp only [testBit_and, testBit_lo (show i < 8 by omega), h] at this
  simpa using this

/-- Merging a low nibble sets the low nibble. -/
theorem merge_lo_lo (hd : d &&& (0xF0 : UInt8) = 0) :
    ((x &&& (0xF0 : UInt8)) ||| d) &&& (0x0F : UInt8) = d := by
  refine eq_of_testBit fun i hi => ?_
  simp only [testBit_and, testBit_or, testBit_lo hi, testBit_hi hi]
  by_cases h : i < 4
  · simp [h]
  · simp [h, testBit_of_and_hi hd hi (by omega)]

/-- Merging a low nibble keeps the high one. -/
theorem merge_lo_hi (hd : d &&& (0xF0 : UInt8) = 0) :
    ((x &&& (0xF0 : UInt8)) ||| d) >>> (4 : UInt8) = x >>> (4 : UInt8) := by
  refine eq_of_testBit fun i hi => ?_
  simp only [testBit_and, testBit_or, testBit_shr4]
  by_cases h : i < 4
  · rw [testBit_hi (show 4 + i < 8 by omega),
      testBit_of_and_hi hd (show 4 + i < 8 by omega) (by omega)]
    simp
  · simp [testBit_of_le (show 8 ≤ 4 + i by omega)]

/-- Merging a high nibble keeps the low one. -/
theorem merge_hi_lo (hd : d &&& (0x0F : UInt8) = 0) :
    ((x &&& (0x0F : UInt8)) ||| d) &&& (0x0F : UInt8) = x &&& (0x0F : UInt8) := by
  refine eq_of_testBit fun i hi => ?_
  simp only [testBit_and, testBit_or, testBit_lo hi]
  by_cases h : i < 4
  · simp [h, testBit_of_and_lo hd h]
  · simp [h]

/-- Merging a high nibble sets the high nibble. -/
theorem merge_hi_hi :
    ((x &&& (0x0F : UInt8)) ||| d) >>> (4 : UInt8) = d >>> (4 : UInt8) := by
  refine eq_of_testBit fun i hi => ?_
  simp only [testBit_and, testBit_or, testBit_shr4]
  by_cases h : i < 4
  · rw [testBit_lo (show 4 + i < 8 by omega)]
    simp
  · simp [testBit_of_le (show 8 ≤ 4 + i by omega)]

end Merge

/-! ## Words -/

/-- Byte `i` of a little-endian word holds the word's bits from `8 * i` on. -/
theorem getElem?_leBytes {k n i : ℕ} (h : i < k) :
    (LittleEndian.leBytes k n)[i]? = some (UInt8.ofNat (n >>> (8 * i))) := by
  induction k generalizing n i with
  | zero => omega
  | succ k ih =>
    cases i with
    | zero => simp [LittleEndian.leBytes]
    | succ i =>
      rw [LittleEndian.leBytes, List.getElem?_cons_succ, ih (by omega), Nat.shiftRight_eq_div_pow,
        Nat.shiftRight_eq_div_pow, Nat.div_div_eq_div_mul, Nat.mul_succ, Nat.pow_add, Nat.mul_comm]

/-! ## Bytes of a word -/

theorem testBit_ofLe (l : List UInt8) (i : ℕ) {k : ℕ} (hk : k < 8) :
    (ofLe l).testBit (8 * i + k) = (entry l i).toNat.testBit k := by
  induction l generalizing i with
  | nil => simp [ofLe, entry_nil]
  | cons b bs ih =>
    have hb : b.toNat < 2 ^ 8 := b.toNat_lt
    rw [ofLe, Nat.add_comm b.toNat, show 256 = 2 ^ 8 from rfl, Nat.testBit_two_pow_mul_add _ hb]
    cases i with
    | zero => rw [Nat.mul_zero, Nat.zero_add, if_pos hk]; rfl
    | succ i =>
      rw [if_neg (by omega), show 8 * (i + 1) + k - 8 = 8 * i + k by omega, ih]
      rfl

theorem testBit_leBytes {w n i k : ℕ} (hi : i < w) (hk : k < 8) :
    (entry (leBytes w n) i).toNat.testBit k = n.testBit (8 * i + k) := by
  rw [entry_of_getElem? (getElem?_leBytes hi), testBit_ofNat hk, Nat.testBit_shiftRight]

/-- The low bit of each of a word's eight bytes. -/
def ONES : ℕ := 0x0101010101010101

theorem testBit_ONES (m : ℕ) : ONES.testBit m = (decide (m < 64) && decide (m % 8 = 0)) := by
  by_cases h : m < 64
  · have hall : ∀ m < 64, ONES.testBit m = decide (m % 8 = 0) := by decide
    simp [h, hall m h]
  · have hlt : ONES < 2 ^ m :=
      lt_of_lt_of_le (by decide) (Nat.pow_le_pow_right (by decide) (Nat.not_lt.1 h))
    simp [h, Nat.testBit_lt_two_pow hlt]

/-- One bit of every byte of a word, moved to another place of the byte. -/
theorem testBit_pickBytes (w s : ℕ) {t i k : ℕ} (ht : t < 8) (hi : i < 8) (hk : k < 8) :
    (((w >>> s) &&& ONES) <<< t).testBit (8 * i + k) =
      (decide (k = t) && w.testBit (8 * i + s)) := by
  rw [Nat.testBit_shiftLeft, Nat.testBit_and, Nat.testBit_shiftRight, testBit_ONES]
  by_cases hkt : k = t
  · subst hkt
    have h1 : 8 * i + k - k = 8 * i := by omega
    rw [h1]
    simp [show k ≤ 8 * i + k by omega, show 8 * i < 64 by omega, Nat.add_comm s]
  · by_cases hle : t ≤ 8 * i + k
    · have : ¬ (8 * i + k - t) % 8 = 0 := by omega
      simp [hkt, this]
    · simp [hkt, hle]

end Bits
