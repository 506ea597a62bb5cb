import Mathlib.Data.Nat.Bitwise
import Turbovec.F32
import Turbovec.Lib.Grid
import Turbovec.Lib.Rounded
import Turbovec.Lib.Select

/-!
# Fitting a calibration

Each coordinate's pair sends two order statistics of its column to the codebook's edges. The columns are gathered
tile by tile as integer keys, and both statistics are selected in one buffer. The ranks are rounded as the source
rounds them; the fitted pair is in exact arithmetic.
-/

namespace Turbovec.Encode

open Grid Slice Select Rounded

/-! ## Sort keys -/

def f32SortKey (x : F32) : UInt32 :=
  x.bits ^^^ ((if x.bits < 0x80000000 then 0 else 0xFFFFFFFF) ||| 0x80000000)

def f32FromSortKey (k : UInt32) : F32 :=
  ⟨k ^^^ if k &&& 0x80000000 ≠ 0 then 0x80000000 else 0xFFFFFFFF⟩

/-- The exact value of a finite `f32`. -/
def toRat (x : F32) : ℚ :=
  let e := x.magnitude / 2 ^ 23
  let f : ℕ := x.magnitude % 2 ^ 23
  let a : ℚ := if e = 0 then f / 2 ^ 149 else (2 ^ 23 + f) * 2 ^ e / 2 ^ 150
  if x.bits < 0x80000000 then a else -a

/-- `1e-6` -/
def MIN_SPAN : ℚ := toRat ⟨0x358637BD⟩

/-! ## The fit -/

/-- The nearest `f64`: no value here leaves the range of its exponent. -/
def f64 (x : ℚ) : ℚ := rounded 53 x

/-- The codebook's outermost centroid. -/
def cOuter (centroids : List F32) : ℚ := centroids.foldl (fun acc c => max acc |toRat c|) 0

/-- The two probability levels and the values they are mapped onto. -/
def tqplusAnchor (cdf : ℚ → ℚ) (centroids : List F32) : ℚ × ℚ × ℚ × ℚ :=
  let pHi := cdf (f64 (cOuter centroids + 1) / 2)
  (f64 (1 - pHi), pHi, -cOuter centroids, cOuter centroids)

/-- `((n as f64) * p) as usize` -/
def rankOf (n : ℕ) (p : ℚ) : ℕ := ⌊f64 (f64 n * p)⌋₊

def loIdx (cdf : ℚ → ℚ) (centroids : List F32) (n : ℕ) : ℕ := rankOf n (tqplusAnchor cdf centroids).1

def hiIdx (cdf : ℚ → ℚ) (centroids : List F32) (n : ℕ) : ℕ :=
  max (min (rankOf n (tqplusAnchor cdf centroids).2.1) (n - 1)) (loIdx cdf centroids n + 1)

/-- The pair that sends two values to the edges, or the identity pair. -/
def fitPair (qcLo qcHi qeLo qeHi : ℚ) : ℚ × ℚ :=
  let qeSpan := qeHi - qeLo
  if MIN_SPAN < qeSpan then
    let sc := (qcHi - qcLo) / qeSpan
    (qcLo / sc - qeLo, sc)
  else (0, 1)

section fit
variable (select : List UInt32 → ℕ → List UInt32 × UInt32 × List UInt32) (cdf : ℚ → ℚ) (centroids : List F32)
  (rotated : List F32) (n dim : ℕ)

/-- The two selections in a column's buffer, the second in the part after the first. -/
def selectBoth (coord : List UInt32) : UInt32 × UInt32 :=
  let lo := loIdx cdf centroids n
  let (_, loVal, right) := select coord lo
  let (_, hiVal, _) := select right (hiIdx cdf centroids n - lo - 1)
  (loVal, hiVal)

def fitCoord (coord : List UInt32) : ℚ × ℚ :=
  let (_, _, qcLo, qcHi) := tqplusAnchor cdf centroids
  let (loVal, hiVal) := selectBoth select cdf centroids n coord
  fitPair qcLo qcHi (toRat (f32FromSortKey loVal)) (toRat (f32FromSortKey hiVal))

/-- The columns of a tile, a slot that the scatter leaves unwritten as `none`. -/
def tileColumns (d0 tile : ℕ) : List (Option UInt32) :=
  scatter (fun p => p.2 * n + p.1) (fun p => rotated[p.1 * dim + (d0 + p.2)]?.map f32SortKey) (cells n tile)
    (List.replicate (tile * n) none)

/-- A tile's pairs. -/
def fitTile (d0 tile : ℕ) : Option (List (ℚ × ℚ)) :=
  (List.range tile).mapM fun c => do
    let coord ← (rowAt (tileColumns rotated n dim d0 tile) n c).mapM id
    some (fitCoord select cdf centroids n coord)

/-- The pairs of every coordinate, in tiles of `tileSize`. -/
def calibrateTiled (tileSize : ℕ) : Option (List (ℚ × ℚ)) := do
  let tiles ← (List.range ((dim + tileSize - 1) / tileSize)).mapM fun t =>
    fitTile select cdf centroids rotated n dim (t * tileSize) (min (dim - t * tileSize) tileSize)
  some tiles.flatten

end fit

/-- `while tile_size > 32 && dim / tile_size < 2 * workers { tile_size /= 2 }` -/
def shrinkTile (dim workers tileSize : ℕ) : ℕ :=
  if 32 < tileSize ∧ dim / tileSize < 2 * workers then shrinkTile dim workers (tileSize / 2) else tileSize
termination_by tileSize
decreasing_by omega

def computeTqplusCalibration (select : List UInt32 → ℕ → List UInt32 × UInt32 × List UInt32) (cdf : ℚ → ℚ)
    (workers : ℕ) (rotated : List F32) (n dim : ℕ) (centroids : List F32) : Option (List (ℚ × ℚ)) :=
  calibrateTiled select cdf centroids rotated n dim (shrinkTile dim (max workers 1) 128)

/-! ## The keys are in the order of the values -/

theorem xor_top {b : ℕ} (h : b < 2 ^ 31) : b ^^^ 2 ^ 31 = b + 2 ^ 31 := by
  rw [Nat.add_comm, ← Nat.mul_one (2 ^ 31), Nat.two_pow_add_eq_or_of_lt h, Nat.mul_one]
  apply Nat.eq_of_testBit_eq
  intro i
  rw [Nat.testBit_xor, Nat.testBit_or, Nat.testBit_two_pow]
  by_cases hi : 31 = i
  · subst hi
    rw [Nat.testBit_lt_two_pow h]
    rfl
  · rw [decide_eq_false hi, Bool.xor_false, Bool.false_or]

theorem toNat_f32SortKey (x : F32) : (f32SortKey x).toNat =
    if x.bits.toNat < 2 ^ 31 then x.bits.toNat + 2 ^ 31 else 2 ^ 32 - 1 - x.bits.toNat := by
  have hsign : x.bits < 0x80000000 ↔ x.bits.toNat < 2 ^ 31 := UInt32.lt_iff_toNat_lt
  unfold f32SortKey
  by_cases h : x.bits.toNat < 2 ^ 31
  · rw [if_pos (hsign.mpr h), if_pos h, UInt32.toNat_xor]
    exact xor_top h
  · rw [if_neg (mt hsign.mp h), if_neg h, show ((0xFFFFFFFF : UInt32) ||| 0x80000000) = -1 by decide,
      UInt32.xor_neg_one, UInt32.toNat_not]
    rfl

theorem top_set_iff (k : UInt32) : k &&& 0x80000000 ≠ 0 ↔ 2 ^ 31 ≤ k.toNat := by
  have hlt := k.toNat_lt
  rw [Ne, ← UInt32.toNat_inj, UInt32.toNat_and, show (0x80000000 : UInt32).toNat = 2 ^ 31 by rfl, Nat.and_two_pow,
    Nat.testBit_eq_decide_div_mod_eq, show (0 : UInt32).toNat = 0 by rfl]
  by_cases h : k.toNat / 2 ^ 31 % 2 = 1
  · rw [decide_eq_true h]
    simp only [Bool.toNat_true]
    omega
  · rw [decide_eq_false h]
    simp only [Bool.toNat_false]
    omega

theorem f32FromSortKey_f32SortKey (x : F32) : f32FromSortKey (f32SortKey x) = x := by
  have hsign : x.bits < 0x80000000 ↔ x.bits.toNat < 2 ^ 31 := UInt32.lt_iff_toNat_lt
  have hlt := x.bits.toNat_lt
  have hkey := toNat_f32SortKey x
  have hcancel (b m : UInt32) : b ^^^ m ^^^ m = b := by rw [UInt32.xor_assoc, UInt32.xor_self, UInt32.xor_zero]
  unfold f32FromSortKey
  by_cases h : x.bits.toNat < 2 ^ 31
  · rw [if_pos h] at hkey
    rw [if_pos ((top_set_iff _).mpr (by omega)), f32SortKey, if_pos (hsign.mpr h), UInt32.zero_or, hcancel]
  · rw [if_neg h] at hkey
    rw [if_neg (mt (top_set_iff _).mp (by omega)), f32SortKey, if_neg (mt hsign.mp h),
      show ((0xFFFFFFFF : UInt32) ||| 0x80000000) = 0xFFFFFFFF by decide, hcancel]

/-- The sort keys refine the order of the values. -/
theorem f32SortKey_lt {x y : F32} (h : x.key < y.key) : (f32SortKey x).toNat < (f32SortKey y).toNat := by
  have hx := x.bits.toNat_lt
  have hy := y.bits.toNat_lt
  unfold F32.key F32.magnitude at h
  rw [toNat_f32SortKey, toNat_f32SortKey]
  split at h <;> split at h <;> split <;> omega

/-- The sort keys of finite values are in the order of the values, the zero with the sign bit first. -/
theorem f32SortKey_lt_iff {x y : F32} (hx : x.isFinite = true) (hy : y.isFinite = true) :
    f32SortKey x < f32SortKey y ↔ x < y ∨ x.bits = 0x80000000 ∧ y.bits = 0 := by
  have hltx := x.bits.toNat_lt
  have hlty := y.bits.toNat_lt
  have hnx : x.isNaN = false := decide_eq_false (by have := of_decide_eq_true hx; omega)
  have hny : y.isNaN = false := decide_eq_false (by have := of_decide_eq_true hy; omega)
  have hlt : x < y ↔ x.key < y.key := by
    show x.lt y = true ↔ _
    rw [F32.lt, hnx, hny]
    simp
  rw [hlt, UInt32.lt_iff_toNat_lt, toNat_f32SortKey, toNat_f32SortKey, ← UInt32.toNat_inj, ← UInt32.toNat_inj,
    show (0x80000000 : UInt32).toNat = 2 ^ 31 by rfl, show (0 : UInt32).toNat = 0 by rfl]
  unfold F32.key F32.magnitude
  split <;> split <;> omega

/-! ## The ranks -/

theorem f64_half (k : ℕ) (h : k ≤ 2 ^ 53) : f64 (k / 2) = k / 2 := by
  have hfits := rounded_of_fits (p := 53) (by norm_num) h (-1)
  rwa [zpow_neg_one, ← div_eq_mul_inv] at hfits

theorem f64_natCast (k : ℕ) (h : k ≤ 2 ^ 53) : f64 k = k := by
  have hfits := rounded_of_fits (p := 53) (by norm_num) h 0
  rwa [zpow_zero, mul_one] at hfits

theorem f64_mono {x y : ℚ} (hx : 0 ≤ x) (h : x ≤ y) : f64 x ≤ f64 y := rounded_mono (by norm_num) hx h

/-- A rank at a level below one half leaves a later one. -/
theorem rankOf_low {n : ℕ} (hn : 2 ≤ n) {q : ℚ} (h : f64 (1 - q) < 1 / 2) : rankOf n (f64 (1 - q)) + 2 ≤ n := by
  have hn0 : (0 : ℚ) ≤ f64 n := by
    rcases Nat.le_total n (2 ^ 53) with hle | hle
    · rw [f64_natCast n hle]
      exact Nat.cast_nonneg n
    · have hmono := f64_mono (le_refl 0) (Nat.cast_nonneg n)
      rwa [show f64 0 = 0 from rounded_zero 53] at hmono
  -- a negative level is floored to rank zero
  rcases le_or_gt (1 - q) 0 with hq | hq
  · have hzero : f64 (f64 n * f64 (1 - q)) ≤ 0 :=
      rounded_nonpos (mul_nonpos_of_nonneg_of_nonpos hn0 (rounded_nonpos hq))
    rw [rankOf, Nat.floor_of_nonpos hzero]
    omega
  · obtain ⟨m, k, hm, -, -, hp⟩ := rounded_fits (p := 53) (by norm_num) hq
    change f64 (1 - q) = m * 2 ^ k at hp
    have hp0 : 0 ≤ f64 (1 - q) := hp ▸ mul_nonneg (Nat.cast_nonneg m) (zpow_nonneg (by norm_num) k)
    rcases Nat.eq_or_lt_of_le hn with rfl | hn
    · -- at two rows the product is exact
      have hdouble : f64 (f64 (2 : ℕ) * f64 (1 - q)) < 1 := by
        rw [f64_natCast 2 (by norm_num), hp, Nat.cast_ofNat]
        rw [hp] at h
        rw [show f64 (2 * (m * 2 ^ k)) = _ from rounded_two_mul_of_fits (by norm_num) hm k]
        linarith
      rw [rankOf, Nat.floor_eq_zero.mpr hdouble]
    · have hrank {b : ℚ} (hb : f64 (f64 n * f64 (1 - q)) ≤ b) (hb0 : 0 ≤ b) : (rankOf n (f64 (1 - q)) : ℚ) ≤ b :=
        le_trans (Nat.floor_le_floor hb |> fun h => Nat.cast_le.mpr h) (Nat.floor_le hb0)
      have hprod {b : ℚ} (hb : f64 n ≤ b) (hb0 : 0 ≤ b) : f64 n * f64 (1 - q) ≤ b / 2 := by
        have hle : f64 n * f64 (1 - q) ≤ b * (1 / 2) := mul_le_mul hb h.le hp0 hb0
        linarith
      -- up to 2 ^ 53 the row count is exact; past it the two roundings cost less than the 7/32 to spare
      rcases Nat.le_total n (2 ^ 53) with hle | hle
      · have hmono := f64_mono (mul_nonneg hn0 hp0) (hprod (f64_natCast n hle).le (Nat.cast_nonneg n))
        rw [f64_half n hle] at hmono
        have hle' := hrank hmono (by positivity)
        rw [le_div_iff₀ (by norm_num)] at hle'
        have hcast : rankOf n (f64 (1 - q)) * 2 ≤ n := by exact_mod_cast hle'
        omega
      · have hround : f64 n ≤ 5 / 4 * n := rounded_le (by norm_num) (Nat.cast_nonneg n)
        have hmono : f64 (f64 n * f64 (1 - q)) ≤ 5 / 4 * (5 / 4 * n / 2) :=
          le_trans (rounded_le (by norm_num) (mul_nonneg hn0 hp0))
            (mul_le_mul_of_nonneg_left (hprod hround (by positivity)) (by norm_num))
        have hle' := hrank hmono (by positivity)
        have hcast : (rankOf n (f64 (1 - q)) : ℚ) * 32 ≤ n * 25 := by linarith
        have hnat : rankOf n (f64 (1 - q)) * 32 ≤ n * 25 := by exact_mod_cast hcast
        omega

theorem lo_lt_hi (cdf : ℚ → ℚ) (centroids : List F32) {n : ℕ} (hn : 2 ≤ n)
    (h : (tqplusAnchor cdf centroids).1 < 1 / 2) :
    loIdx cdf centroids n < hiIdx cdf centroids n ∧ hiIdx cdf centroids n ≤ n - 1 := by
  have hlow : loIdx cdf centroids n + 2 ≤ n := rankOf_low hn h
  unfold hiIdx
  omega

theorem cOuter_nonneg (centroids : List F32) : 0 ≤ cOuter centroids := by
  have hfold (acc : ℚ) (h : 0 ≤ acc) : 0 ≤ centroids.foldl (fun acc c => max acc |toRat c|) acc := by
    induction centroids generalizing acc with
    | nil => exact h
    | cons c cs ih => exact ih _ (le_max_of_le_left h)
  exact hfold 0 (le_refl 0)

/-- A level below one half comes from an outermost centroid away from zero. -/
theorem cOuter_pos {cdf : ℚ → ℚ} (hcdf : cdf (1 / 2) ≤ 1 / 2) {centroids : List F32}
    (h : (tqplusAnchor cdf centroids).1 < 1 / 2) : 0 < cOuter centroids := by
  apply lt_of_le_of_ne (cOuter_nonneg centroids)
  intro hzero
  have hone : f64 (0 + 1) = 1 := by
    rw [zero_add]
    exact_mod_cast f64_natCast 1 (by norm_num)
  have hhalf : f64 (1 / 2) = 1 / 2 := by exact_mod_cast f64_half 1 (by norm_num)
  have hmono := f64_mono (by norm_num) (show 1 / 2 ≤ 1 - cdf (1 / 2) by linarith)
  rw [hhalf] at hmono
  unfold tqplusAnchor at h
  rw [← hzero, hone] at h
  exact absurd h (not_lt.mpr hmono)

/-! ## The pair -/

theorem MIN_SPAN_pos : 0 < MIN_SPAN := by decide +kernel

theorem fitPair_spec {c qLo qHi : ℚ} (hc : 0 < c) : if MIN_SPAN < qHi - qLo then
    (qLo + (fitPair (-c) c qLo qHi).1) * (fitPair (-c) c qLo qHi).2 = -c ∧
      (qHi + (fitPair (-c) c qLo qHi).1) * (fitPair (-c) c qLo qHi).2 = c
    else fitPair (-c) c qLo qHi = (0, 1) := by
  by_cases h : MIN_SPAN < qHi - qLo
  · have hpair : fitPair (-c) c qLo qHi = (-c / ((c - -c) / (qHi - qLo)) - qLo, (c - -c) / (qHi - qLo)) := if_pos h
    have hspan : qHi - qLo ≠ 0 := (lt_trans MIN_SPAN_pos h).ne'
    have hsc : (c - -c) / (qHi - qLo) ≠ 0 := div_ne_zero (by linarith) hspan
    have hlo : (qLo + (-c / ((c - -c) / (qHi - qLo)) - qLo)) * ((c - -c) / (qHi - qLo)) = -c := by
      rw [add_sub_cancel, div_mul_cancel₀ _ hsc]
    rw [if_pos h, hpair]
    refine ⟨hlo, ?_⟩
    calc (qHi + (-c / ((c - -c) / (qHi - qLo)) - qLo)) * ((c - -c) / (qHi - qLo))
        = (qLo + (-c / ((c - -c) / (qHi - qLo)) - qLo)) * ((c - -c) / (qHi - qLo)) +
          (c - -c) / (qHi - qLo) * (qHi - qLo) := by ring
      _ = c := by
          rw [hlo, div_mul_cancel₀ _ hspan]
          ring
  · rw [if_neg h]
    exact if_neg h

/-! ## The selected values -/

section select
variable {select select' : List UInt32 → ℕ → List UInt32 × UInt32 × List UInt32} {cdf : ℚ → ℚ} {centroids : List F32}
  {coord coord' : List UInt32} {n : ℕ}

/-- The two selections find the order statistics of the whole column. -/
theorem selectBoth_spec (hs : Selects UInt32.toNat select) (hn : coord.length = n)
    (hlt : loIdx cdf centroids n < hiIdx cdf centroids n) (hle : hiIdx cdf centroids n < n) :
    IsOrderStat UInt32.toNat coord (loIdx cdf centroids n) (selectBoth select cdf centroids n coord).1 ∧
      IsOrderStat UInt32.toNat coord (hiIdx cdf centroids n) (selectBoth select cdf centroids n coord).2 := by
  have hlo := hs coord (loIdx cdf centroids n) (by omega)
  have hhi := hs (select coord (loIdx cdf centroids n)).2.2 (hiIdx cdf centroids n - loIdx cdf centroids n - 1)
    (by rw [hlo.length_after]; omega)
  refine ⟨hlo.isOrderStat, ?_⟩
  -- the second selection ran on what lies above the first, so its rank counts on from there
  have hwhole := (hlo.trans hhi).isOrderStat
  rwa [show loIdx cdf centroids n + 1 + (hiIdx cdf centroids n - loIdx cdf centroids n - 1) = hiIdx cdf centroids n
    by omega] at hwhole

/-- Neither the selection function nor the order of the column matters. -/
theorem selectBoth_unique (hs : Selects UInt32.toNat select) (hs' : Selects UInt32.toNat select')
    (hp : coord.Perm coord') (hn : coord.length = n) (hlt : loIdx cdf centroids n < hiIdx cdf centroids n)
    (hle : hiIdx cdf centroids n < n) :
    selectBoth select cdf centroids n coord = selectBoth select' cdf centroids n coord' := by
  have h := selectBoth_spec hs hn hlt hle
  have h' := selectBoth_spec hs' (hp.length_eq ▸ hn) hlt hle
  apply Prod.ext
  · exact UInt32.toNat_inj.mp ((h.1.perm hp).unique h'.1)
  · exact UInt32.toNat_inj.mp ((h.2.perm hp).unique h'.2)

end select

/-! ## The columns -/

/-- A coordinate's column of the sample. -/
def column (rows : List (List F32)) (d : ℕ) : List F32 := rows.map fun r => entry r d

section columns
variable {rows : List (List F32)} {dim : ℕ}

theorem getElem?_flatten (hlen : ∀ r ∈ rows, r.length = dim) {i d : ℕ} (hi : i < rows.length) (hd : d < dim) :
    rows.flatten[i * dim + d]? = some (entry rows[i] d) := by
  have hrow := getElem?_flatMap_const (f := id) hlen hd (i := i)
  rw [List.flatMap_id, List.getElem?_eq_getElem hi] at hrow
  have hd' : d < rows[i].length := by
    rw [hlen _ (List.getElem_mem hi)]
    exact hd
  rw [hrow]
  exact getElem?_eq_entry hd'

/-- Every slot of a tile is written once, with its row's key. -/
theorem rowAt_tileColumns (hlen : ∀ r ∈ rows, r.length = dim) {d0 tile c : ℕ} (hc : c < tile) (hd : d0 + tile ≤ dim) :
    rowAt (tileColumns rows.flatten rows.length dim d0 tile) rows.length c =
      (column rows (d0 + c)).map fun x => some (f32SortKey x) := by
  have hsize : (tileColumns rows.flatten rows.length dim d0 tile).length = tile * rows.length := by
    rw [tileColumns, length_scatter, List.length_replicate]
  apply List.ext_getElem?
  intro i
  by_cases hi : i < rows.length
  · have hslot : c * rows.length + i < tile * rows.length := mul_add_lt hc hi
    rw [rowAt, List.getElem?_take, if_pos hi, List.getElem?_drop, tileColumns]
    rw [getElem?_scatter (x := (i, c)) (mem_cells.mpr ⟨hi, hc⟩) _ (by rwa [List.length_replicate])]
    · rw [getElem?_flatten hlen hi (by omega), column, List.map_map, List.getElem?_map, List.getElem?_eq_getElem hi]
      rfl
    -- no other cell of the tile has this slot
    · intro y hy heq
      obtain ⟨hsnd, hfst⟩ := mul_add_inj (mem_cells.mp hy).1 hi heq
      rw [hsnd, hfst]
  · rw [List.getElem?_eq_none (by rw [length_rowAt hsize hc]; omega), List.getElem?_eq_none]
    rw [List.length_map, column, List.length_map]
    omega

theorem mapM_some_id {α β : Type} (f : α → β) (l : List α) : (l.map fun x => some (f x)).mapM id = some (l.map f) := by
  rw [mapM_eq_some, List.forall₂_map_left_iff, List.forall₂_map_right_iff, List.forall₂_same]
  exact fun _ _ => rfl

variable (select : List UInt32 → ℕ → List UInt32 × UInt32 × List UInt32) (cdf : ℚ → ℚ) (centroids : List F32)

/-- A coordinate's pair, from its column. -/
def pairOf (rows : List (List F32)) (d : ℕ) : ℚ × ℚ :=
  fitCoord select cdf centroids rows.length ((column rows d).map f32SortKey)

/-- Whatever the tiles, each coordinate's pair is the one of its column. -/
theorem calibrateTiled_eq (hlen : ∀ r ∈ rows, r.length = dim) {tileSize : ℕ} (ht : 0 < tileSize) :
    calibrateTiled select cdf centroids rows.flatten rows.length dim tileSize =
      some ((List.range dim).map (pairOf select cdf centroids rows)) := by
  have htile (t : ℕ) : fitTile select cdf centroids rows.flatten rows.length dim (t * tileSize)
      (min (dim - t * tileSize) tileSize) = some ((List.range (min (dim - t * tileSize) tileSize)).map fun c =>
        pairOf select cdf centroids rows (t * tileSize + c)) := by
    apply mapM_some
    intro c hc
    rw [List.mem_range] at hc
    rw [rowAt_tileColumns hlen hc (by omega), mapM_some_id]
    rfl
  -- the last tile is cut at the dimension
  have hcover : min dim ((dim + tileSize - 1) / tileSize * tileSize) = dim := by
    have hdiv := Nat.div_add_mod (dim + tileSize - 1) tileSize
    have hmod := Nat.mod_lt (dim + tileSize - 1) ht
    rw [Nat.mul_comm] at hdiv
    omega
  have hblocks := flatMap_blocks tileSize dim ((dim + tileSize - 1) / tileSize) fun d =>
    [pairOf select cdf centroids rows d]
  simp only [← List.map_eq_flatMap] at hblocks
  rw [hcover] at hblocks
  unfold calibrateTiled
  rw [mapM_some fun t _ => htile t]
  show some _ = some _
  rw [← hblocks, List.flatMap_def]

end columns

theorem shrinkTile_pos (dim workers : ℕ) {tileSize : ℕ} (h : 0 < tileSize) : 0 < shrinkTile dim workers tileSize := by
  induction tileSize using shrinkTile.induct dim workers with
  | case1 t hc ih =>
    rw [shrinkTile, if_pos hc]
    exact ih (by omega)
  | case2 t hc =>
    rw [shrinkTile, if_neg hc]
    exact h

/-! ## Any tiling, any order of the rows -/

/-- The fit of any sample of two or more rows, where the low level is below one half: the ranks are distinct and in
range; the two values selected are the order statistics of those ranks of each column, in the order of the values,
which the keys keep; the fitted pair sends them to the two edges, or is the identity; and neither the tiles, the
workers, the selection function nor the order of the rows matters. -/
theorem calibration_quantile {select : List UInt32 → ℕ → List UInt32 × UInt32 × List UInt32}
    (hselect : Selects UInt32.toNat select) {cdf : ℚ → ℚ} (hcdf : cdf (1 / 2) ≤ 1 / 2) {centroids : List F32}
    (hlow : (tqplusAnchor cdf centroids).1 < 1 / 2) {rows : List (List F32)} {dim : ℕ} (hn : 2 ≤ rows.length)
    (hlen : ∀ r ∈ rows, r.length = dim) (hfin : ∀ r ∈ rows, ∀ x ∈ r, x.isFinite = true) :
    (loIdx cdf centroids rows.length < hiIdx cdf centroids rows.length ∧
      hiIdx cdf centroids rows.length ≤ rows.length - 1) ∧
    (∀ x y : F32, x.isFinite = true → y.isFinite = true →
      (f32SortKey x < f32SortKey y ↔ x < y ∨ x.bits = 0x80000000 ∧ y.bits = 0) ∧
        f32FromSortKey (f32SortKey x) = x) ∧
    0 < cOuter centroids ∧
    ∃ pairs, pairs.length = dim ∧
      (∀ d < dim, ∃ qLo qHi sh sc,
        selectBoth select cdf centroids rows.length ((column rows d).map f32SortKey) =
          (f32SortKey qLo, f32SortKey qHi) ∧
        qLo.isFinite = true ∧ qHi.isFinite = true ∧
        IsOrderStat F32.key (column rows d) (loIdx cdf centroids rows.length) qLo ∧
        IsOrderStat F32.key (column rows d) (hiIdx cdf centroids rows.length) qHi ∧
        pairs[d]? = some (sh, sc) ∧
        if MIN_SPAN < toRat qHi - toRat qLo then
          (toRat qLo + sh) * sc = -cOuter centroids ∧ (toRat qHi + sh) * sc = cOuter centroids
        else (sh, sc) = (0, 1)) ∧
      ∀ select', Selects UInt32.toNat select' → ∀ rows' : List (List F32), rows.Perm rows' →
        (∀ tileSize, 0 < tileSize →
          calibrateTiled select' cdf centroids rows'.flatten rows'.length dim tileSize = some pairs) ∧
        ∀ workers, computeTqplusCalibration select' cdf workers rows'.flatten rows'.length dim centroids =
          some pairs := by
  have hranks := lo_lt_hi cdf centroids hn hlow
  have hhi : hiIdx cdf centroids rows.length < rows.length := by omega
  refine ⟨hranks, fun x y hx hy => ⟨f32SortKey_lt_iff hx hy, f32FromSortKey_f32SortKey x⟩, cOuter_pos hcdf hlow,
    (List.range dim).map (pairOf select cdf centroids rows), by simp, ?_, ?_⟩
  · intro d hd
    have hcol : ((column rows d).map f32SortKey).length = rows.length := by
      rw [List.length_map, column, List.length_map]
    obtain ⟨hlo, hup⟩ := selectBoth_spec hselect hcol hranks.1 hhi
    obtain ⟨qLo, hqLo, hkLo⟩ := List.mem_map.mp hlo.1
    obtain ⟨qHi, hqHi, hkHi⟩ := List.mem_map.mp hup.1
    rw [← hkLo] at hlo
    rw [← hkHi] at hup
    have hfinite {q : F32} (hq : q ∈ column rows d) : q.isFinite = true := by
      obtain ⟨r, hr, rfl⟩ := List.mem_map.mp hq
      have hdr : d < r.length := by rw [hlen r hr]; exact hd
      rw [entry_of_getElem? (List.getElem?_eq_getElem hdr)]
      exact hfin r hr _ (List.getElem_mem hdr)
    have hpair : pairOf select cdf centroids rows d = fitPair (-cOuter centroids) (cOuter centroids) (toRat qLo)
        (toRat qHi) := by
      unfold pairOf fitCoord
      rw [← f32FromSortKey_f32SortKey qLo, ← f32FromSortKey_f32SortKey qHi, hkLo, hkHi]
      rfl
    refine ⟨qLo, qHi, _, _, Prod.ext hkLo.symm hkHi.symm, hfinite hqLo, hfinite hqHi,
      hlo.of_map (fun _ _ => f32SortKey_lt) hqLo, hup.of_map (fun _ _ => f32SortKey_lt) hqHi, ?_,
      fitPair_spec (cOuter_pos hcdf hlow)⟩
    rw [List.getElem?_map, List.getElem?_range hd, Option.map_some, hpair]
  · intro select' hselect' rows' hperm
    have hlen' : ∀ r ∈ rows', r.length = dim := fun r hr => hlen r (hperm.mem_iff.mpr hr)
    have hsame : (List.range dim).map (pairOf select' cdf centroids rows') =
        (List.range dim).map (pairOf select cdf centroids rows) := by
      apply List.map_congr_left
      intro d _
      have hcol : ((column rows d).map f32SortKey).Perm ((column rows' d).map f32SortKey) := (hperm.map _).map _
      unfold pairOf fitCoord
      rw [← hperm.length_eq, selectBoth_unique hselect hselect' hcol (by simp [column]) hranks.1 hhi]
    refine ⟨fun tileSize ht => ?_, fun workers => ?_⟩
    · rw [calibrateTiled_eq select' cdf centroids hlen' ht, hsame]
    · unfold computeTqplusCalibration
      rw [calibrateTiled_eq select' cdf centroids hlen' (shrinkTile_pos _ _ (by norm_num)), hsame]

/-- Sorting selects. -/
def selectSorted (l : List UInt32) (k : ℕ) : List UInt32 × UInt32 × List UInt32 :=
  let s := l.mergeSort fun x y => decide (x.toNat ≤ y.toNat)
  (s.take k, s.getD k 0, s.drop (k + 1))

theorem selectSorted_selects : Selects UInt32.toNat selectSorted := by
  intro l k hk
  have hsorted : (l.mergeSort fun x y : UInt32 => decide (x.toNat ≤ y.toNat)).Pairwise
      fun x y => decide (x.toNat ≤ y.toNat) = true := List.pairwise_mergeSort
    (by simp only [decide_eq_true_eq]; intro _ _ _; omega) (by simp only [Bool.or_eq_true, decide_eq_true_eq]; omega) l
  have hperm := List.mergeSort_perm l fun x y : UInt32 => decide (x.toNat ≤ y.toNat)
  unfold selectSorted
  generalize l.mergeSort (fun x y : UInt32 => decide (x.toNat ≤ y.toNat)) = s at *
  have hk' : k < s.length := by rw [hperm.length_eq]; exact hk
  have hsplit : s.take k ++ s.getD k 0 :: s.drop (k + 1) = s := by
    rw [List.getD_eq_getElem?_getD, List.getElem?_eq_getElem hk', Option.getD_some, List.getElem_cons_drop,
      List.take_append_drop]
  rw [← hsplit, List.pairwise_append] at hsorted
  obtain ⟨-, hpost, hpre⟩ := hsorted
  constructor
  · show (s.take k ++ s.getD k 0 :: s.drop (k + 1)).Perm l
    rw [hsplit]
    exact hperm
  · exact List.length_take_of_le hk'.le
  · intro x hx
    exact of_decide_eq_true (hpre x hx _ List.mem_cons_self)
  · intro x hx
    exact of_decide_eq_true (List.rel_of_pairwise_cons hpost hx)

/-- `Beta(1, 1)` is uniform. -/
def uniformCdf (x : ℚ) : ℚ := max 0 (min x 1)

/-- Two rows of three coordinates, for a codebook whose edge is one half. -/
theorem calibration_quantile_two : ∃ pairs, pairs.length = 3 ∧
    computeTqplusCalibration selectSorted uniformCdf 1 [1, 0, 0, 0, 1, 0] 2 3 [⟨0x3F000000⟩] = some pairs := by
  have hcentroid : cOuter [⟨0x3F000000⟩] = 1 / 2 := by decide +kernel
  have harg : f64 (1 / 2 + 1) = 3 / 2 := by
    rw [show (1 / 2 + 1 : ℚ) = (3 : ℕ) / 2 by norm_num, f64_half 3 (by norm_num)]
    norm_num
  have hquarter : f64 (1 / 4) = 1 / 4 := by
    have hfits := rounded_of_fits (p := 53) (m := 1) (by norm_num) (by norm_num) (-2)
    norm_num at hfits
    exact hfits
  have hlow : (tqplusAnchor uniformCdf [⟨0x3F000000⟩]).1 < 1 / 2 := by
    show f64 (1 - uniformCdf (f64 (cOuter [⟨0x3F000000⟩] + 1) / 2)) < 1 / 2
    rw [hcentroid, harg, show 1 - uniformCdf (3 / 2 / 2) = 1 / 4 by norm_num [uniformCdf], hquarter]
    norm_num
  have hcdf : uniformCdf (1 / 2) ≤ 1 / 2 := by norm_num [uniformCdf]
  obtain ⟨-, -, -, pairs, hlen, -, hrest⟩ := calibration_quantile selectSorted_selects hcdf hlow
    (show 2 ≤ ([[1, 0, 0], [0, 1, 0]] : List (List F32)).length by decide)
    (show ∀ r ∈ ([[1, 0, 0], [0, 1, 0]] : List (List F32)), r.length = 3 by decide) (by decide)
  exact ⟨pairs, hlen, (hrest selectSorted selectSorted_selects _ (List.Perm.refl _)).2 1⟩

end Turbovec.Encode
