import Mathlib.Algebra.Order.Field.Rat
import Mathlib.Data.Rat.Floor
import Mathlib.Tactic.FieldSimp
import Turbovec.Encode.Quantize
import Turbovec.Scan.Rescore

/-!
# The search tables

A query's tables hold, for each nibble of a code byte, the products of its dimensions with the centroids of the
nibble's codes, less the sub-table's least, in steps of one scale. The arithmetic is exact: an `f32` fold that starts
from the largest or the smallest value starts from the first entry here.
-/

namespace Turbovec.Scan

open Pack Slice Grid Encode

/-! ## Rounding -/

/-- `trunc` -/
def trunc (x : ℚ) : ℤ := if 0 ≤ x then ⌊x⌋ else ⌈x⌉

/-- `round_half_away_f32` -/
def roundHalfAway (x : ℚ) : ℤ :=
  let t := trunc x
  let f := x - t
  t + ((if 1 / 2 ≤ f then 1 else 0) - (if f ≤ -1 / 2 then 1 else 0))

/-! ## Sub-tables -/

/-- A sub-table of sixteen sums, with its least and its greatest. -/
structure SubTable where
  vals : List ℚ
  least : ℚ
  greatest : ℚ

/-- The least and the greatest of a list. -/
def ext (xs : List ℚ) : ℚ × ℚ :=
  (xs.foldl (fun mn v => if v < mn then v else mn) (entry xs 0), xs.foldl (fun mx v => if mx < v then v else mx) (entry xs 0))

def codesPerNibble (bits : ℕ) : ℕ := codesPerByte bits / 2

section variable (q centroids : List ℚ)

/-- Two bits: the sums of two rows of four products. -/
def subTable2 (d : ℕ) : SubTable :=
  let pa := (List.range 4).map fun a => entry q d * entry centroids a
  let pb := (List.range 4).map fun b => entry q (d + 1) * entry centroids b
  let pa0 := pa.map fun p => 0 + p
  let (amn, amx) := ext pa0
  let (bmn, bmx) := ext pb
  { vals := (List.range 16).map fun i => entry pa0 (i / 4) + entry pb (i % 4)
    least := amn + bmn
    greatest := amx + bmx }

/-- Entry `nibble` of a sub-table, a code at a time. -/
def nibbleSum (bits start nibble : ℕ) : ℚ :=
  (List.range (codesPerNibble bits)).foldl (fun s c =>
    let shift := (codesPerNibble bits - 1 - c) * bits
    let code := (nibble >>> shift) &&& (2 ^ bits - 1)
    s + entry q (start + c) * entry centroids code) 0

def subTableLoop (bits start : ℕ) : SubTable :=
  let vals := (List.range 16).map (nibbleSum q centroids bits start)
  { vals := vals, least := (ext vals).1, greatest := (ext vals).2 }

/-- The sub-table of a group's first or second nibble. -/
def subTable (bits g half : ℕ) : SubTable :=
  let dimStart := g * codesPerByte bits
  if bits = 2 then subTable2 q centroids (dimStart + half * 2)
  else subTableLoop q centroids bits (dimStart + half * codesPerNibble bits)

/-! ## The tables -/

structure QueryLut where
  uint8Luts : List UInt8
  scale : ℚ
  bias : ℚ

/-- `quantise_tables` -/
def quantiseTables (floatVals mins : List ℚ) (invScale : ℚ) (maxLut : ℤ) : List UInt8 :=
  (List.range mins.length).flatMap fun j => (rowAt floatVals 16 j).map fun v =>
    UInt8.ofNat (min (max (roundHalfAway ((v - entry mins j) * invScale)) 0) maxLut).toNat

/-- `f32::MIN_POSITIVE` -/
def MIN_POSITIVE : ℚ := 1 / 2 ^ 126

/-- Sub-table `j` is the first or the second of group `j / 2`. -/
def floatVals (bits nSubs : ℕ) : List ℚ := (List.range nSubs).flatMap fun j => (subTable q centroids bits (j / 2) (j % 2)).vals

def mins (bits nSubs : ℕ) : List ℚ := (List.range nSubs).map fun j => (subTable q centroids bits (j / 2) (j % 2)).least

def span (bits g half : ℕ) : ℚ :=
  (subTable q centroids bits g half).greatest - (subTable q centroids bits g half).least

def maxSpan (bits nByteGroups : ℕ) : ℚ :=
  (List.range nByteGroups).foldl (fun m g =>
    let m := if m < span q centroids bits g 0 then span q centroids bits g 0 else m
    if m < span q centroids bits g 1 then span q centroids bits g 1 else m) 0

def lutBias (bits nByteGroups : ℕ) : ℚ :=
  (List.range nByteGroups).foldl (fun b g =>
    b + ((subTable q centroids bits g 0).least + (subTable q centroids bits g 1).least)) 0

def buildQueryLut (bits dim : ℕ) : QueryLut :=
  let nByteGroups := dim / codesPerByte bits
  let nSubs := nByteGroups * 2
  let maxSpan := maxSpan q centroids bits nByteGroups
  let scale := if 0 < maxSpan then maxSpan / 127 else 1
  let (scale, invScale) := if MIN_POSITIVE ≤ scale then (scale, 1 / scale) else (1, 1)
  { uint8Luts := quantiseTables (floatVals q centroids bits nSubs) (mins q centroids bits nSubs) invScale 127
    scale := scale
    bias := lutBias q centroids bits nByteGroups }

end

/-- One query of `calibrate_queries`: the query divided by the calibration's scales, and the term its shifts add. -/
def calibrateQuery (q shift scaleTq : List ℚ) (dim : ℕ) : List ℚ × ℚ :=
  if shift.isEmpty then (q, 0)
  else (tabulate dim fun d => entry q d / entry scaleTq d,
    (List.range dim).foldl (fun bc d => bc - entry q d * entry shift d) 0)

/-! ## Rounding, exactly -/

theorem roundHalfAway_of_nonneg {x : ℚ} (hx : 0 ≤ x) : roundHalfAway x = ⌊x⌋ + if 1 / 2 ≤ Int.fract x then 1 else 0 := by
  have hfract := Int.fract_nonneg x
  unfold roundHalfAway trunc
  rw [if_pos hx]
  dsimp only
  rw [Int.self_sub_floor, if_neg (show ¬Int.fract x ≤ -1 / 2 by linarith), sub_zero]

theorem roundHalfAway_close {x : ℚ} (hx : 0 ≤ x) : |(roundHalfAway x : ℚ) - x| ≤ 1 / 2 := by
  have hsplit := Int.floor_add_fract x
  have hfract := Int.fract_nonneg x
  have hlt := Int.fract_lt_one x
  rw [roundHalfAway_of_nonneg hx, abs_le]
  split
  · push_cast
    constructor <;> linarith
  · rename_i h
    push_cast
    constructor <;> linarith

theorem roundHalfAway_bounds {x : ℚ} {b : ℤ} (hx : 0 ≤ x) (hb : x ≤ b) : 0 ≤ roundHalfAway x ∧ roundHalfAway x ≤ b := by
  have hfloor := Int.floor_nonneg.mpr hx
  rw [roundHalfAway_of_nonneg hx]
  split
  · rename_i h
    refine ⟨by omega, ?_⟩
    have hlt : ⌊x⌋ < b := by
      rw [Int.floor_lt]
      apply lt_of_le_of_ne hb
      rintro rfl
      rw [Int.fract_intCast] at h
      norm_num at h
    omega
  · refine ⟨by omega, ?_⟩
    have hle : ⌊x⌋ ≤ b := by
      rw [← Int.floor_intCast (R := ℚ) b]
      exact Int.floor_le_floor hb
    omega

/-- What a table entry is made of a quotient. -/
def quantised (x : ℚ) : UInt8 := UInt8.ofNat (min (max (roundHalfAway x) 0) 127).toNat

theorem quantised_le (x : ℚ) : (quantised x).toNat ≤ 127 := by
  rw [quantised, UInt8.toNat_ofNat']
  omega

theorem quantised_close {x : ℚ} (hx : 0 ≤ x) (hle : x ≤ 127) : |((quantised x).toNat : ℚ) - x| ≤ 1 / 2 := by
  obtain ⟨hlow, hhigh⟩ := roundHalfAway_bounds (b := 127) hx (by exact_mod_cast hle)
  obtain ⟨m, hm⟩ := Int.eq_ofNat_of_zero_le hlow
  have hclose := roundHalfAway_close hx
  have hval : (quantised x).toNat = m := by
    rw [quantised, UInt8.toNat_ofNat', hm]
    omega
  rw [hm] at hclose
  rw [hval]
  exact hclose

@[simp] theorem quantised_zero : quantised 0 = 0 := by decide +kernel

/-! ## Sub-tables, whichever way they are built -/

theorem ext_spec {xs : List ℚ} (h : xs ≠ []) : ((ext xs).1 ∈ xs ∧ ∀ v ∈ xs, (ext xs).1 ≤ v) ∧
    (ext xs).2 ∈ xs ∧ ∀ v ∈ xs, v ≤ (ext xs).2 := by
  -- one argument for both ends: a step keeps one of its two values, and the order
  have hfold (step : ℚ → ℚ → ℚ) (r : ℚ → ℚ → Prop) (hrefl : ∀ a, r a a) (htrans : ∀ a b c, r a b → r b c → r a c)
      (hstep : ∀ m v, (step m v = m ∨ step m v = v) ∧ r (step m v) m ∧ r (step m v) v) (ys : List ℚ) (m : ℚ) :
      (ys.foldl step m = m ∨ ys.foldl step m ∈ ys) ∧ r (ys.foldl step m) m ∧ ∀ v ∈ ys, r (ys.foldl step m) v := by
    induction ys generalizing m with
    | nil => exact ⟨Or.inl rfl, hrefl m, nofun⟩
    | cons y ys ih =>
      obtain ⟨hmem, hm, hys⟩ := ih (step m y)
      obtain ⟨hone, hm', hy⟩ := hstep m y
      refine ⟨?_, htrans _ _ _ hm hm', fun v hv => ?_⟩
      · rcases hmem with heq | hin
        · rcases hone with hone | hone
          · exact Or.inl (heq.trans hone)
          · exact Or.inr (List.mem_cons.mpr (Or.inl (heq.trans hone)))
        · exact Or.inr (List.mem_cons_of_mem y hin)
      · rcases List.mem_cons.mp hv with rfl | hv
        · exact htrans _ _ _ hm hy
        · exact hys v hv
  have hhead : entry xs 0 ∈ xs := by
    obtain ⟨x, ys, rfl⟩ := List.exists_cons_of_ne_nil h
    exact List.mem_cons_self
  obtain ⟨hmn, -, hmn'⟩ := hfold (fun mn v => if v < mn then v else mn) (· ≤ ·) le_refl (fun _ _ _ => le_trans)
    (fun m v => by split <;> simp <;> linarith) xs (entry xs 0)
  obtain ⟨hmx, -, hmx'⟩ := hfold (fun mx v => if mx < v then v else mx) (· ≥ ·) le_refl (fun _ _ _ h h' => le_trans h' h)
    (fun m v => by split <;> simp <;> linarith) xs (entry xs 0)
  refine ⟨⟨?_, hmn'⟩, ?_, hmx'⟩
  · rcases hmn with heq | hin
    · rw [← heq] at hhead
      exact hhead
    · exact hin
  · rcases hmx with heq | hin
    · rw [← heq] at hhead
      exact hhead
    · exact hin

/-- A sub-table of the sums of a nibble's products, with its bounds attained. -/
structure SubTable.Of (t : SubTable) (f : ℕ → ℚ) : Prop where
  vals : t.vals = (List.range 16).map f
  least : ∃ i < 16, t.least = f i
  least_le : ∀ i < 16, t.least ≤ f i
  greatest : ∃ i < 16, t.greatest = f i
  le_greatest : ∀ i < 16, f i ≤ t.greatest

section of
variable {q centroids : List ℚ}

theorem subTableLoop_of (bits start : ℕ) : (subTableLoop q centroids bits start).Of (nibbleSum q centroids bits start) := by
  have hne : (List.range 16).map (nibbleSum q centroids bits start) ≠ [] := by
    rw [Ne, List.map_eq_nil_iff]
    decide
  have hmem {v : ℚ} (hv : v ∈ (List.range 16).map (nibbleSum q centroids bits start)) :
      ∃ i < 16, v = nibbleSum q centroids bits start i := by
    obtain ⟨i, hi, rfl⟩ := List.mem_map.mp hv
    exact ⟨i, List.mem_range.mp hi, rfl⟩
  have hin {i : ℕ} (hi : i < 16) : nibbleSum q centroids bits start i ∈ (List.range 16).map (nibbleSum q centroids bits start) :=
    List.mem_map_of_mem (List.mem_range.mpr hi)
  obtain ⟨⟨hleast, hle⟩, hgreatest, hge⟩ := ext_spec hne
  unfold subTableLoop
  dsimp only
  generalize ext ((List.range 16).map (nibbleSum q centroids bits start)) = e at *
  constructor
  · rfl
  · exact hmem hleast
  · exact fun i hi => hle _ (hin hi)
  · exact hmem hgreatest
  · exact fun i hi => hge _ (hin hi)

theorem nibbleSum_two (start : ℕ) {a b : ℕ} (ha : a < 4) (hb : b < 4) : nibbleSum q centroids 2 start (a * 4 + b) =
    (0 + entry q start * entry centroids a) + entry q (start + 1) * entry centroids b := by
  have hfirst : ((a * 4 + b) >>> 2) &&& 3 = a := by
    rw [show 3 = 2 ^ 2 - 1 by rfl, Nat.and_two_pow_sub_one_eq_mod, Nat.shiftRight_eq_div_pow]
    omega
  have hsecond : (a * 4 + b) >>> 0 &&& 3 = b := by
    rw [show 3 = 2 ^ 2 - 1 by rfl, Nat.and_two_pow_sub_one_eq_mod, Nat.shiftRight_zero]
    omega
  show (0 : ℚ) + entry q (start + 0) * entry centroids (((a * 4 + b) >>> 2) &&& 3) +
    entry q (start + 1) * entry centroids ((a * 4 + b) >>> 0 &&& 3) = _
  rw [hfirst, hsecond, Nat.add_zero]

/-- The two-bit sums' bounds are the sums of the bounds. -/
theorem subTable2_of (start : ℕ) : (subTable2 q centroids start).Of (nibbleSum q centroids 2 start) := by
  have hne (f : ℕ → ℚ) : (List.range 4).map f ≠ [] := by
    rw [Ne, List.map_eq_nil_iff]
    decide
  have hmem {f : ℕ → ℚ} {v : ℚ} (hv : v ∈ (List.range 4).map f) : ∃ i < 4, v = f i := by
    obtain ⟨i, hi, rfl⟩ := List.mem_map.mp hv
    exact ⟨i, List.mem_range.mp hi, rfl⟩
  have hin {f : ℕ → ℚ} {i : ℕ} (hi : i < 4) : f i ∈ (List.range 4).map f := List.mem_map_of_mem (List.mem_range.mpr hi)
  have hentry {f : ℕ → ℚ} {i : ℕ} (hi : i < 4) : entry ((List.range 4).map f) i = f i := entry_tabulate f hi
  have hpa : ((List.range 4).map fun a => entry q start * entry centroids a).map (fun p => 0 + p) =
      (List.range 4).map fun a => 0 + entry q start * entry centroids a := by
    rw [List.map_map]
    rfl
  obtain ⟨⟨hal, hale⟩, hag, hage⟩ := ext_spec (hne fun a => 0 + entry q start * entry centroids a)
  obtain ⟨⟨hbl, hble⟩, hbg, hbge⟩ := ext_spec (hne fun b => entry q (start + 1) * entry centroids b)
  obtain ⟨a, ha, hal⟩ := hmem hal
  obtain ⟨b, hb, hbl⟩ := hmem hbl
  obtain ⟨a', ha', hag⟩ := hmem hag
  obtain ⟨b', hb', hbg⟩ := hmem hbg
  have hsplit {i : ℕ} (hi : i < 16) : nibbleSum q centroids 2 start i =
      (0 + entry q start * entry centroids (i / 4)) + entry q (start + 1) * entry centroids (i % 4) := by
    rw [← nibbleSum_two start (show i / 4 < 4 by omega) (Nat.mod_lt i (by decide)), Nat.div_add_mod']
  unfold subTable2
  dsimp only
  rw [hpa]
  constructor
  · apply List.map_congr_left
    intro i hi
    rw [List.mem_range] at hi
    rw [hentry (show i / 4 < 4 by omega), hentry (Nat.mod_lt i (by decide)), hsplit hi]
  · refine ⟨a * 4 + b, by omega, ?_⟩
    rw [nibbleSum_two start ha hb, ← hal, ← hbl]
  · intro i hi
    rw [hsplit hi]
    exact add_le_add (hale _ (hin (show i / 4 < 4 by omega))) (hble _ (hin (Nat.mod_lt i (by decide))))
  · refine ⟨a' * 4 + b', by omega, ?_⟩
    rw [nibbleSum_two start ha' hb', ← hag, ← hbg]
  · intro i hi
    rw [hsplit hi]
    exact add_le_add (hage _ (hin (show i / 4 < 4 by omega))) (hbge _ (hin (Nat.mod_lt i (by decide))))

/-- A nibble's sum, by group and half. -/
def halfSum (q centroids : List ℚ) (bits g half nibble : ℕ) : ℚ :=
  nibbleSum q centroids bits (g * codesPerByte bits + half * codesPerNibble bits) nibble

theorem subTable_of (q centroids : List ℚ) (bits g half : ℕ) : (subTable q centroids bits g half).Of (halfSum q centroids bits g half) := by
  unfold subTable halfSum
  by_cases hb : bits = 2
  · subst hb
    exact subTable2_of _
  · rw [if_neg hb]
    exact subTableLoop_of _ _

/-! ## The entries -/

theorem maxSpan_spec (q centroids : List ℚ) (bits n : ℕ) : 0 ≤ maxSpan q centroids bits n ∧
    ∀ g < n, ∀ half < 2, span q centroids bits g half ≤ maxSpan q centroids bits n := by
  have hmax : ∀ a b : ℚ, (if a < b then b else a) = max a b := by
    intro a b
    split
    · rename_i h
      rw [max_eq_right h.le]
    · rename_i h
      rw [max_eq_left (not_lt.mp h)]
  unfold maxSpan
  simp only [hmax]
  induction n with
  | zero => exact ⟨le_refl 0, nofun⟩
  | succ n ih =>
    rw [List.range_succ, List.foldl_concat]
    refine ⟨le_max_of_le_left (le_max_of_le_left ih.1), fun g hg half hhalf => ?_⟩
    rcases Nat.lt_succ_iff_lt_or_eq.mp hg with hlt | rfl
    · exact le_max_of_le_left (le_max_of_le_left (ih.2 g hlt half hhalf))
    · obtain rfl | rfl : half = 0 ∨ half = 1 := by omega
      · exact le_max_of_le_left (le_max_right _ _)
      · exact le_max_right _ _

/-- Every table entry, from its sum. -/
theorem quantiseTables_eq (bits nSubs : ℕ) (inv : ℚ) :
    quantiseTables (floatVals q centroids bits nSubs) (mins q centroids bits nSubs) inv 127 =
      (List.range nSubs).flatMap fun j => (List.range 16).map fun i =>
        quantised ((halfSum q centroids bits (j / 2) (j % 2) i - (subTable q centroids bits (j / 2) (j % 2)).least) * inv) := by
  have hlen (j : ℕ) (_ : j < nSubs) : (subTable q centroids bits (j / 2) (j % 2)).vals.length = 16 := by
    rw [(subTable_of q centroids bits _ _).vals, List.length_map, List.length_range]
  unfold quantiseTables
  rw [show (mins q centroids bits nSubs).length = nSubs by rw [mins, List.length_map, List.length_range]]
  rw [List.flatMap_def, List.flatMap_def]
  congr 1
  apply List.map_congr_left
  intro j hj
  rw [List.mem_range] at hj
  have hmin : entry (mins q centroids bits nSubs) j = (subTable q centroids bits (j / 2) (j % 2)).least :=
    entry_tabulate _ hj
  rw [floatVals, rowAt_flatMap_range hlen hj, (subTable_of q centroids bits _ _).vals, List.map_map, hmin]
  rfl

/-- Dividing by the step: what a table entry stands for is within half a step of its sum, exactly it where every
table is constant. -/
theorem quantised_half {bits n g half i : ℕ} (hg : g < n) (hhalf : half < 2) (hi : i < 16) {scale : ℚ} (hscale : 0 < scale)
    (hspan : maxSpan q centroids bits n ≤ 127 * scale) :
    |scale * (quantised ((halfSum q centroids bits g half i - (subTable q centroids bits g half).least) * (1 / scale))).toNat +
      (subTable q centroids bits g half).least - halfSum q centroids bits g half i| ≤ scale / 2 := by
  have hof := subTable_of q centroids bits g half
  have hlow := hof.least_le i hi
  have hhigh := hof.le_greatest i hi
  have hle := (maxSpan_spec q centroids bits n).2 g hg half hhalf
  unfold span at hle
  generalize halfSum q centroids bits g half i = v at *
  generalize (subTable q centroids bits g half).least = m at *
  have hx : 0 ≤ (v - m) * (1 / scale) := mul_nonneg (by linarith) (by positivity)
  have hx' : (v - m) * (1 / scale) ≤ 127 := by
    rw [mul_one_div, div_le_iff₀ hscale]
    linarith
  have hclose := quantised_close hx hx'
  generalize ((quantised ((v - m) * (1 / scale))).toNat : ℚ) = u at *
  have hfactor : scale * u + m - v = scale * (u - (v - m) * (1 / scale)) := by
    field_simp
    ring
  rw [hfactor, abs_mul, abs_of_pos hscale]
  calc scale * |u - (v - m) * (1 / scale)| ≤ scale * (1 / 2) := mul_le_mul_of_nonneg_left hclose hscale.le
    _ = scale / 2 := by ring

/-- A constant table's entries are zero. -/
theorem halfSum_constant {bits n g half i : ℕ} (hg : g < n) (hhalf : half < 2) (hi : i < 16)
    (hspan : maxSpan q centroids bits n = 0) :
    halfSum q centroids bits g half i = (subTable q centroids bits g half).least := by
  have hof := subTable_of q centroids bits g half
  have hlow := hof.least_le i hi
  have hhigh := hof.le_greatest i hi
  have hle := (maxSpan_spec q centroids bits n).2 g hg half hhalf
  unfold span at hle
  linarith

/-! ## The codes of a byte -/

/-- The two nibbles of a code byte index the sums of its first and its second codes. -/
theorem halfSum_codes {bits : ℕ} (hb : ValidBits bits) (codes : List UInt8) (g : ℕ) :
    halfSum q centroids bits g 0 (entry codes g >>> 4).toNat + halfSum q centroids bits g 1 (entry codes g &&& 15).toNat =
      ∑ t ∈ Finset.range (codesPerByte bits), entry q (g * codesPerByte bits + t) *
        entry centroids (codeAt bits codes (g * codesPerByte bits + t)).toNat := by
  have hhi : (entry codes g >>> 4).toNat = (entry codes g).toNat / 16 := by
    rw [UInt8.toNat_shiftRight, Nat.shiftRight_eq_div_pow]
    rfl
  have hlo : (entry codes g &&& 15).toNat = (entry codes g).toNat % 16 := by
    rw [UInt8.toNat_and, show (15 : UInt8).toNat = 2 ^ 4 - 1 by rfl, Nat.and_two_pow_sub_one_eq_mod]
  have hcode {t : ℕ} (ht : t < codesPerByte bits) : (codeAt bits codes (g * codesPerByte bits + t)).toNat =
      (entry codes g).toNat / 2 ^ ((codesPerByte bits - 1 - t) * field bits) % 2 ^ bits := by
    rw [toNat_codeAt hb, mul_add_div ht, mul_add_mod ht, Nat.shiftRight_eq_div_pow]
  have hbyte := (entry codes g).toNat_lt
  rw [hhi, hlo]
  generalize (entry codes g).toNat = b at *
  unfold halfSum nibbleSum
  simp only [Nat.and_two_pow_sub_one_eq_mod, Nat.shiftRight_eq_div_pow]
  -- a nibble shifts its codes as the byte does, the high one four places further
  rcases hb with rfl | hb
  · have c0 : (codeAt 2 codes (g * 4 + 0)).toNat = b / 16 / 2 ^ 2 % 2 ^ 2 :=
      (hcode (t := 0) (by decide)).trans (by show b / 2 ^ 6 % 2 ^ 2 = _; omega)
    have c1 : (codeAt 2 codes (g * 4 + 1)).toNat = b / 16 / 2 ^ 0 % 2 ^ 2 :=
      (hcode (t := 1) (by decide)).trans (by show b / 2 ^ 4 % 2 ^ 2 = _; omega)
    have c2 : (codeAt 2 codes (g * 4 + 2)).toNat = b % 16 / 2 ^ 2 % 2 ^ 2 :=
      (hcode (t := 2) (by decide)).trans (by show b / 2 ^ 2 % 2 ^ 2 = _; omega)
    have c3 : (codeAt 2 codes (g * 4 + 3)).toNat = b % 16 / 2 ^ 0 % 2 ^ 2 :=
      (hcode (t := 3) (by decide)).trans (by show b / 2 ^ 0 % 2 ^ 2 = _; omega)
    show ((0 : ℚ) + entry q (g * 4 + 0) * entry centroids (b / 16 / 2 ^ 2 % 2 ^ 2) +
        entry q (g * 4 + 1) * entry centroids (b / 16 / 2 ^ 0 % 2 ^ 2)) +
      ((0 : ℚ) + entry q (g * 4 + 2) * entry centroids (b % 16 / 2 ^ 2 % 2 ^ 2) +
        entry q (g * 4 + 3) * entry centroids (b % 16 / 2 ^ 0 % 2 ^ 2)) =
      ∑ t ∈ Finset.range 4, entry q (g * 4 + t) * entry centroids (codeAt 2 codes (g * 4 + t)).toNat
    rw [Finset.sum_range_succ, Finset.sum_range_succ, Finset.sum_range_succ, Finset.sum_range_one, c0, c1, c2, c3]
    ring
  · -- at three and at four bits a nibble is one code
    obtain ⟨hbyte', hnibble, hfield⟩ : codesPerByte bits = 2 ∧ codesPerNibble bits = 1 ∧ field bits = 4 := by
      rcases hb with rfl | rfl <;> exact ⟨rfl, rfl, rfl⟩
    rw [hbyte', hfield] at hcode
    have c0 : (codeAt bits codes (g * 2 + 0)).toNat = b / 16 % 2 ^ bits := hcode (t := 0) (by decide)
    have c1 : (codeAt bits codes (g * 2 + 1)).toNat = b % 16 % 2 ^ bits := by
      refine (hcode (t := 1) (by decide)).trans ?_
      rw [show b / 2 ^ ((2 - 1 - 1) * 4) = b by simp]
      rcases hb with rfl | rfl <;> omega
    rw [hbyte', hnibble, Finset.sum_range_succ, Finset.sum_range_one, c0, c1, List.range_one, List.foldl_cons, List.foldl_nil,
      List.foldl_cons, List.foldl_nil]
    simp only [Nat.sub_self, Nat.zero_mul, pow_zero, Nat.div_one, Nat.one_mul, Nat.add_zero, zero_add]

/-- A sum over the dimensions, group by group. -/
theorem sum_groups (f : ℕ → ℚ) (n d : ℕ) :
    ∑ x ∈ Finset.range (n * d), f x = ∑ g ∈ Finset.range n, ∑ t ∈ Finset.range d, f (g * d + t) := by
  induction n with
  | zero => rw [Nat.zero_mul, Finset.sum_range_zero, Finset.sum_range_zero]
  | succ n ih => rw [Nat.succ_mul, Finset.sum_range_add, ih, Finset.sum_range_succ]

/-! ## Scores -/

/-- The exact inner product of the query with a row's centroids. -/
def trueDot (q centroids : List ℚ) (bits dim : ℕ) (codes : List UInt8) : ℚ :=
  ∑ d ∈ Finset.range dim, entry q d * entry centroids (codeAt bits codes d).toNat

theorem trueDot_groups {bits dim : ℕ} (hb : ValidBits bits) (hdim : dim % 8 = 0) (codes : List UInt8) :
    trueDot q centroids bits dim codes = ∑ g ∈ Finset.range (dim / codesPerByte bits),
      (halfSum q centroids bits g 0 (entry codes g >>> 4).toNat + halfSum q centroids bits g 1 (entry codes g &&& 15).toNat) := by
  -- a dimension is whole bytes at every width
  have hcover : dim / codesPerByte bits * codesPerByte bits = dim := by
    apply Nat.div_mul_cancel
    rcases hb with rfl | rfl | rfl <;> simp only [codesPerByte] <;> norm_num <;> omega
  have hsum := sum_groups (fun d => entry q d * entry centroids (codeAt bits codes d).toNat) (dim / codesPerByte bits)
    (codesPerByte bits)
  rw [hcover] at hsum
  rw [trueDot, hsum]
  exact Finset.sum_congr rfl fun g _ => (halfSum_codes hb codes g).symm

theorem lutBias_eq (bits n : ℕ) : lutBias q centroids bits n = ∑ g ∈ Finset.range n,
    ((subTable q centroids bits g 0).least + (subTable q centroids bits g 1).least) := by
  unfold lutBias
  induction n with
  | zero => rw [Finset.sum_range_zero]; rfl
  | succ n ih => rw [List.range_succ, List.foldl_concat, ih, Finset.sum_range_succ]

/-- The step of a query's tables. -/
def lutScale (q centroids : List ℚ) (bits n : ℕ) : ℚ :=
  if 0 < maxSpan q centroids bits n then maxSpan q centroids bits n / 127 else 1

theorem lutScale_spec (q centroids : List ℚ) (bits n : ℕ) :
    0 < lutScale q centroids bits n ∧ maxSpan q centroids bits n ≤ 127 * lutScale q centroids bits n := by
  have hnonneg := (maxSpan_spec q centroids bits n).1
  unfold lutScale
  split
  · rename_i h
    exact ⟨by positivity, by linarith⟩
  · rename_i h
    exact ⟨by norm_num, by linarith⟩

/-- The step is not below the smallest positive normal value. -/
def StepRepresentable (q centroids : List ℚ) (bits n : ℕ) : Prop :=
  0 < maxSpan q centroids bits n → MIN_POSITIVE ≤ maxSpan q centroids bits n / 127

theorem buildQueryLut_eq {bits dim : ℕ} (hstep : StepRepresentable q centroids bits (dim / codesPerByte bits)) :
    buildQueryLut q centroids bits dim =
      { uint8Luts := (List.range (dim / codesPerByte bits * 2)).flatMap fun j => (List.range 16).map fun i =>
          quantised ((halfSum q centroids bits (j / 2) (j % 2) i - (subTable q centroids bits (j / 2) (j % 2)).least) *
            (1 / lutScale q centroids bits (dim / codesPerByte bits)))
        scale := lutScale q centroids bits (dim / codesPerByte bits)
        bias := lutBias q centroids bits (dim / codesPerByte bits) } := by
  have hscale : MIN_POSITIVE ≤ lutScale q centroids bits (dim / codesPerByte bits) := by
    unfold lutScale
    split
    · rename_i h
      exact hstep h
    · norm_num [MIN_POSITIVE]
  unfold buildQueryLut
  dsimp only
  rw [show (if 0 < maxSpan q centroids bits (dim / codesPerByte bits) then
    maxSpan q centroids bits (dim / codesPerByte bits) / 127 else 1) =
    lutScale q centroids bits (dim / codesPerByte bits) from rfl, if_pos hscale, quantiseTables_eq]

theorem entry_luts {f : ℕ → ℕ → UInt8} {n g half i : ℕ} (hg : g < n) (hhalf : half < 2) (hi : i < 16) :
    entry ((List.range (n * 2)).flatMap fun j => (List.range 16).map (f j)) (g * 32 + half * 16 + i) = f (g * 2 + half) i := by
  rw [show g * 32 + half * 16 + i = (g * 2 + half) * 16 + i by ring]
  rw [entry_flatMap_range (fun _ _ => by rw [List.length_map, List.length_range]) (mul_add_lt hg hhalf) hi]
  exact entry_tabulate _ hi

/-- A row's score, before its scale. -/
def lutScore (lut : QueryLut) (codes : List UInt8) (n : ℕ) : ℚ :=
  lut.scale * (tableSum lut.uint8Luts codes 0 n : ℕ) + lut.bias

/-- A nibble of a code byte. -/
theorem nibble_lt (codes : List UInt8) (g half : ℕ) :
    (if half = 0 then (entry codes g >>> 4).toNat else (entry codes g &&& 15).toNat) < 16 := by
  split
  · rw [UInt8.toNat_shiftRight, Nat.shiftRight_eq_div_pow]
    have := (entry codes g).toNat_lt
    show (entry codes g).toNat / 2 ^ 4 < 16
    omega
  · rw [UInt8.toNat_and, show (15 : UInt8).toNat = 2 ^ 4 - 1 by rfl, Nat.and_two_pow_sub_one_eq_mod]
    exact Nat.mod_lt _ (by decide)

/-- The score's error, an entry at a time. -/
theorem lutScore_sub {bits dim : ℕ} (hb : ValidBits bits) (hdim : dim % 8 = 0)
    (hstep : StepRepresentable q centroids bits (dim / codesPerByte bits)) (codes : List UInt8) :
    lutScore (buildQueryLut q centroids bits dim) codes (dim / codesPerByte bits) - trueDot q centroids bits dim codes =
      ∑ g ∈ Finset.range (dim / codesPerByte bits), ∑ half ∈ Finset.range 2,
        let i := if half = 0 then (entry codes g >>> 4).toNat else (entry codes g &&& 15).toNat
        (lutScale q centroids bits (dim / codesPerByte bits) *
          (quantised ((halfSum q centroids bits g half i - (subTable q centroids bits g half).least) *
            (1 / lutScale q centroids bits (dim / codesPerByte bits)))).toNat +
          (subTable q centroids bits g half).least - halfSum q centroids bits g half i) := by
  rw [buildQueryLut_eq hstep, lutScore, trueDot_groups hb hdim, lutBias_eq]
  dsimp only
  rw [tableSum, ← Finset.range_eq_Ico, Nat.cast_sum, Finset.mul_sum, ← Finset.sum_add_distrib, ← Finset.sum_sub_distrib]
  apply Finset.sum_congr rfl
  intro g hg
  rw [Finset.mem_range] at hg
  have hfirst := entry_luts (f := fun j i => quantised ((halfSum q centroids bits (j / 2) (j % 2) i -
    (subTable q centroids bits (j / 2) (j % 2)).least) * (1 / lutScale q centroids bits (dim / codesPerByte bits)))) hg
    (show 0 < 2 by decide) (nibble_lt codes g 0)
  have hsecond := entry_luts (f := fun j i => quantised ((halfSum q centroids bits (j / 2) (j % 2) i -
    (subTable q centroids bits (j / 2) (j % 2)).least) * (1 / lutScale q centroids bits (dim / codesPerByte bits)))) hg
    (show 1 < 2 by decide) (nibble_lt codes g 1)
  rw [if_pos rfl, Nat.zero_mul, Nat.add_zero, Nat.add_zero, show g * 2 / 2 = g by omega, show g * 2 % 2 = 0 by omega] at hfirst
  rw [if_neg (by decide), Nat.one_mul, show (g * 2 + 1) / 2 = g by omega, show (g * 2 + 1) % 2 = 1 by omega] at hsecond
  rw [codeTerm, hfirst, hsecond, Finset.sum_range_succ, Finset.sum_range_one, if_pos rfl, if_neg (by decide), Nat.cast_add]
  ring

/-- The score is within a step for each group. -/
theorem lutScore_close {bits dim : ℕ} (hb : ValidBits bits) (hdim : dim % 8 = 0)
    (hstep : StepRepresentable q centroids bits (dim / codesPerByte bits)) (codes : List UInt8) :
    |lutScore (buildQueryLut q centroids bits dim) codes (dim / codesPerByte bits) - trueDot q centroids bits dim codes| ≤
      (dim / codesPerByte bits : ℕ) * (buildQueryLut q centroids bits dim).scale := by
  have hscale := lutScale_spec q centroids bits (dim / codesPerByte bits)
  have hsub := lutScore_sub hb hdim hstep codes
  have hsame : (buildQueryLut q centroids bits dim).scale = lutScale q centroids bits (dim / codesPerByte bits) := by
    rw [buildQueryLut_eq hstep]
  rw [hsub, hsame]
  generalize dim / codesPerByte bits = n at *
  have hgroup (g : ℕ) (hg : g ∈ Finset.range n) := Finset.abs_sum_le_sum_abs (fun half =>
    let i := if half = 0 then (entry codes g >>> 4).toNat else (entry codes g &&& 15).toNat
    (lutScale q centroids bits n * (quantised ((halfSum q centroids bits g half i -
      (subTable q centroids bits g half).least) * (1 / lutScale q centroids bits n))).toNat +
      (subTable q centroids bits g half).least - halfSum q centroids bits g half i)) (Finset.range 2)
  -- half a step for each of the two entries of a group
  calc _ ≤ ∑ g ∈ Finset.range n, ∑ half ∈ Finset.range 2, lutScale q centroids bits n / 2 := by
        refine (Finset.abs_sum_le_sum_abs _ _).trans (Finset.sum_le_sum fun g hg => (hgroup g hg).trans ?_)
        refine Finset.sum_le_sum fun half hhalf => ?_
        exact quantised_half (Finset.mem_range.mp hg) (Finset.mem_range.mp hhalf) (nibble_lt codes g half) hscale.1 hscale.2
    _ = n * lutScale q centroids bits n := by
        rw [Finset.sum_const, Finset.sum_const, Finset.card_range, Finset.card_range, nsmul_eq_mul, nsmul_eq_mul]
        ring

/-- Every table of the query is constant. -/
def ConstantTables (q centroids : List ℚ) (bits n : ℕ) : Prop :=
  ∀ g < n, ∀ half < 2, ∀ i < 16, ∀ i' < 16, halfSum q centroids bits g half i = halfSum q centroids bits g half i'

theorem maxSpan_eq_zero_iff (bits n : ℕ) : maxSpan q centroids bits n = 0 ↔ ConstantTables q centroids bits n := by
  constructor
  · intro h g hg half hhalf i hi i' hi'
    rw [halfSum_constant hg hhalf hi h, halfSum_constant hg hhalf hi' h]
  · intro h
    have hspan (g : ℕ) (hg : g < n) (half : ℕ) (hhalf : half < 2) : span q centroids bits g half = 0 := by
      have hof := subTable_of q centroids bits g half
      obtain ⟨i, hi, hleast⟩ := hof.least
      obtain ⟨i', hi', hgreatest⟩ := hof.greatest
      rw [span, hleast, hgreatest, h g hg half hhalf i hi i' hi', sub_self]
    unfold maxSpan
    induction n with
    | zero => rfl
    | succ n ih =>
      rw [List.range_succ, List.foldl_concat, ih (fun g hg => h g (by omega)) fun g hg => hspan g (by omega)]
      simp only [hspan n (Nat.lt_succ_self n) 0 (by decide), hspan n (Nat.lt_succ_self n) 1 (by decide), ite_self]

/-- Constant tables lose nothing. -/
theorem lutScore_constant {bits dim : ℕ} (hb : ValidBits bits) (hdim : dim % 8 = 0)
    (hconst : ConstantTables q centroids bits (dim / codesPerByte bits)) (codes : List UInt8) :
    lutScore (buildQueryLut q centroids bits dim) codes (dim / codesPerByte bits) = trueDot q centroids bits dim codes := by
  have hzero := (maxSpan_eq_zero_iff bits (dim / codesPerByte bits)).mpr hconst
  have hstep : StepRepresentable q centroids bits (dim / codesPerByte bits) := by
    intro hpos
    rw [hzero] at hpos
    exact absurd hpos (lt_irrefl 0)
  rw [← sub_eq_zero, lutScore_sub hb hdim hstep]
  apply Finset.sum_eq_zero
  intro g hg
  apply Finset.sum_eq_zero
  intro half hhalf
  dsimp only
  rw [halfSum_constant (Finset.mem_range.mp hg) (Finset.mem_range.mp hhalf) (nibble_lt codes g half) hzero, sub_self, zero_mul,
    quantised_zero]
  simp

/-! ## The query's magnitude -/

section scaled
variable {t : ℚ}

theorem entry_scaled (t : ℚ) (q : List ℚ) (d : ℕ) : entry (q.map (t * ·)) d = t * entry q d := by
  unfold entry
  rw [List.getElem?_map]
  cases q[d]? with
  | none => exact (mul_zero t).symm
  | some x => rfl

theorem foldl_scaled (t : ℚ) (f : ℕ → ℚ) (cs : List ℕ) (s : ℚ) :
    cs.foldl (fun s c => s + t * f c) (t * s) = t * cs.foldl (fun s c => s + f c) s := by
  induction cs generalizing s with
  | nil => rfl
  | cons c cs ih => rw [List.foldl_cons, List.foldl_cons, ← mul_add, ih]

theorem halfSum_scaled (t : ℚ) (bits g half i : ℕ) :
    halfSum (q.map (t * ·)) centroids bits g half i = t * halfSum q centroids bits g half i := by
  unfold halfSum nibbleSum
  simp only [entry_scaled, mul_assoc]
  have hfold := foldl_scaled t (fun c => entry q (g * codesPerByte bits + half * codesPerNibble bits + c) *
    entry centroids (i >>> ((codesPerNibble bits - 1 - c) * bits) &&& 2 ^ bits - 1)) (List.range (codesPerNibble bits)) 0
  rwa [mul_zero] at hfold

theorem least_scaled (ht : 0 < t) (bits g half : ℕ) :
    (subTable (q.map (t * ·)) centroids bits g half).least = t * (subTable q centroids bits g half).least := by
  have hof := subTable_of q centroids bits g half
  have hof' := subTable_of (q.map (t * ·)) centroids bits g half
  apply le_antisymm
  · obtain ⟨i, hi, heq⟩ := hof.least
    rw [heq, ← halfSum_scaled]
    exact hof'.least_le i hi
  · obtain ⟨i, hi, heq⟩ := hof'.least
    rw [heq, halfSum_scaled]
    exact mul_le_mul_of_nonneg_left (hof.least_le i hi) ht.le

theorem greatest_scaled (ht : 0 < t) (bits g half : ℕ) :
    (subTable (q.map (t * ·)) centroids bits g half).greatest = t * (subTable q centroids bits g half).greatest := by
  have hof := subTable_of q centroids bits g half
  have hof' := subTable_of (q.map (t * ·)) centroids bits g half
  apply le_antisymm
  · obtain ⟨i, hi, heq⟩ := hof'.greatest
    rw [heq, halfSum_scaled]
    exact mul_le_mul_of_nonneg_left (hof.le_greatest i hi) ht.le
  · obtain ⟨i, hi, heq⟩ := hof.greatest
    rw [heq, ← halfSum_scaled]
    exact hof'.le_greatest i hi

theorem span_scaled (ht : 0 < t) (bits g half : ℕ) :
    span (q.map (t * ·)) centroids bits g half = t * span q centroids bits g half := by
  rw [span, greatest_scaled ht, least_scaled ht, ← mul_sub, span]

theorem maxSpan_scaled (ht : 0 < t) (bits n : ℕ) :
    maxSpan (q.map (t * ·)) centroids bits n = t * maxSpan q centroids bits n := by
  unfold maxSpan
  induction n with
  | zero => exact (mul_zero t).symm
  | succ n ih =>
    rw [List.range_succ, List.foldl_concat, List.foldl_concat, ih]
    simp only [span_scaled ht, mul_lt_mul_iff_right₀ ht, ← mul_ite]

theorem lutBias_scaled (ht : 0 < t) (bits n : ℕ) :
    lutBias (q.map (t * ·)) centroids bits n = t * lutBias q centroids bits n := by
  rw [lutBias_eq, lutBias_eq, Finset.mul_sum]
  apply Finset.sum_congr rfl
  intro g _
  rw [least_scaled ht, least_scaled ht, mul_add]

theorem lutScale_scaled (ht : 0 < t) {bits n : ℕ} (hne : maxSpan q centroids bits n ≠ 0) :
    lutScale (q.map (t * ·)) centroids bits n = t * lutScale q centroids bits n := by
  have hpos : 0 < maxSpan q centroids bits n :=
    lt_of_le_of_ne (maxSpan_spec q centroids bits n).1 (Ne.symm hne)
  rw [lutScale, lutScale, maxSpan_scaled ht, if_pos (mul_pos ht hpos), if_pos hpos, mul_div_assoc]

/-- The tables do not know the query's magnitude. -/
theorem uint8Luts_scaled (ht : 0 < t) {bits dim : ℕ} (hstep : StepRepresentable q centroids bits (dim / codesPerByte bits))
    (hstep' : StepRepresentable (q.map (t * ·)) centroids bits (dim / codesPerByte bits)) :
    (buildQueryLut (q.map (t * ·)) centroids bits dim).uint8Luts = (buildQueryLut q centroids bits dim).uint8Luts := by
  rw [buildQueryLut_eq hstep, buildQueryLut_eq hstep']
  dsimp only
  rw [List.flatMap_def, List.flatMap_def]
  congr 1
  apply List.map_congr_left
  intro j hj
  rw [List.mem_range] at hj
  apply List.map_congr_left
  intro i hi
  rw [List.mem_range] at hi
  rw [halfSum_scaled, least_scaled ht, ← mul_sub]
  congr 1
  -- where every table is constant the entries are zero, whatever the step
  by_cases hzero : maxSpan q centroids bits (dim / codesPerByte bits) = 0
  · rw [halfSum_constant (show j / 2 < dim / codesPerByte bits by omega) (Nat.mod_lt j (by decide)) hi hzero, sub_self,
      mul_zero, zero_mul, zero_mul]
  · have hscale := (lutScale_spec q centroids bits (dim / codesPerByte bits)).1
    rw [lutScale_scaled ht hzero]
    field_simp

end scaled

end of

/-! ## Calibrated queries -/

/-- A row's decoding under a calibration. -/
def decodedAt (centroids shift scaleTq : List ℚ) (bits : ℕ) (codes : List UInt8) (d : ℕ) : ℚ :=
  if shift.isEmpty then entry centroids (codeAt bits codes d).toNat
  else entry centroids (codeAt bits codes d).toNat / entry scaleTq d - entry shift d

theorem foldl_sub_eq (f : ℕ → ℚ) (n : ℕ) : (List.range n).foldl (fun bc d => bc - f d) 0 = -∑ d ∈ Finset.range n, f d := by
  induction n with
  | zero => rw [Finset.sum_range_zero, neg_zero]; rfl
  | succ n ih => rw [List.range_succ, List.foldl_concat, ih, Finset.sum_range_succ, neg_add, sub_eq_add_neg]

/-- The calibrated query and its term make the inner product with the decoding. -/
theorem trueDot_calibrated (qRot centroids shift scaleTq : List ℚ) (bits dim : ℕ) (codes : List UInt8) :
    trueDot (calibrateQuery qRot shift scaleTq dim).1 centroids bits dim codes +
      (calibrateQuery qRot shift scaleTq dim).2 =
    ∑ d ∈ Finset.range dim, entry qRot d * decodedAt centroids shift scaleTq bits codes d := by
  unfold calibrateQuery decodedAt
  cases shift.isEmpty with
  | true =>
    rw [if_pos rfl, add_zero]
    exact Finset.sum_congr rfl fun d _ => by rw [if_pos rfl]
  | false =>
    simp only [Bool.false_eq_true, if_false]
    rw [foldl_sub_eq, trueDot, ← sub_eq_add_neg, ← Finset.sum_sub_distrib]
    apply Finset.sum_congr rfl
    intro d hd
    rw [entry_tabulate _ (Finset.mem_range.mp hd)]
    ring

theorem calibrateQuery_scaled (t : ℚ) (qRot shift scaleTq : List ℚ) (dim : ℕ) :
    calibrateQuery (qRot.map (t * ·)) shift scaleTq dim =
      ((calibrateQuery qRot shift scaleTq dim).1.map (t * ·), t * (calibrateQuery qRot shift scaleTq dim).2) := by
  unfold calibrateQuery
  cases shift.isEmpty with
  | true =>
    rw [if_pos rfl, if_pos rfl, mul_zero]
  | false =>
    simp only [Bool.false_eq_true, if_false, entry_scaled]
    apply Prod.ext
    · show tabulate dim _ = (tabulate dim _).map _
      rw [tabulate, tabulate, List.map_map]
      apply List.map_congr_left
      intro d _
      rw [Function.comp_apply, mul_div_assoc]
    · show (List.range dim).foldl _ 0 = t * (List.range dim).foldl _ 0
      rw [foldl_sub_eq, foldl_sub_eq, mul_neg, Finset.mul_sum]
      congr 1
      exact Finset.sum_congr rfl fun d _ => mul_assoc _ _ _

/-- The tables of a calibrated query, at every width: each entry is at most 127; a row's score is within one step for
each code byte of the query's inner product with the row's centroids, and with the calibration's term within as much of
the rotated query's inner product with the decoded row, exactly it where every table is constant; and a positive factor
on the query leaves the entries and multiplies the bias, the term and the step. -/
theorem search_tables {bits dim : ℕ} (hb : ValidBits bits) (hdim : dim % 8 = 0) (qRot centroids shift scaleTq : List ℚ)
    (hstep : StepRepresentable (calibrateQuery qRot shift scaleTq dim).1 centroids bits (dim / codesPerByte bits)) :
    let q := (calibrateQuery qRot shift scaleTq dim).1
    let biasCorr := (calibrateQuery qRot shift scaleTq dim).2
    let nByteGroups := dim / codesPerByte bits
    let lut := buildQueryLut q centroids bits dim
    lut.uint8Luts.length = nByteGroups * 32 ∧
    (∀ e ∈ lut.uint8Luts, e.toNat ≤ 127) ∧
    (∀ packed n, ∀ v < n, let codes := rowAt (extractCodesFlat packed n bits dim) nByteGroups v
      |lutScore lut codes nByteGroups - ∑ d ∈ Finset.range dim, entry q d * entry centroids (codeAt bits codes d).toNat| ≤
        nByteGroups * lut.scale ∧
      |lutScore lut codes nByteGroups + biasCorr -
        ∑ d ∈ Finset.range dim, entry qRot d * decodedAt centroids shift scaleTq bits codes d| ≤ nByteGroups * lut.scale ∧
      (ConstantTables q centroids bits nByteGroups → lutScore lut codes nByteGroups =
        ∑ d ∈ Finset.range dim, entry q d * entry centroids (codeAt bits codes d).toNat)) ∧
    ∀ t, 0 < t → let qT := (calibrateQuery (qRot.map (t * ·)) shift scaleTq dim).1
      StepRepresentable qT centroids bits nByteGroups →
        (buildQueryLut qT centroids bits dim).uint8Luts = lut.uint8Luts ∧
        (buildQueryLut qT centroids bits dim).bias = t * lut.bias ∧
        (calibrateQuery (qRot.map (t * ·)) shift scaleTq dim).2 = t * biasCorr ∧
        (¬ConstantTables q centroids bits nByteGroups → (buildQueryLut qT centroids bits dim).scale = t * lut.scale) := by
  intro q biasCorr nByteGroups lut
  refine ⟨?_, fun e he => ?_, fun packed n v _ => ?_, fun t ht => ?_⟩
  · show (buildQueryLut q centroids bits dim).uint8Luts.length = _
    rw [buildQueryLut_eq hstep, length_flatMap_range fun _ _ => by rw [List.length_map, List.length_range]]
    omega
  · change e ∈ (buildQueryLut q centroids bits dim).uint8Luts at he
    rw [buildQueryLut_eq hstep] at he
    obtain ⟨j, -, hj⟩ := List.mem_flatMap.mp he
    obtain ⟨i, -, rfl⟩ := List.mem_map.mp hj
    exact quantised_le _
  · intro codes
    have hclose := lutScore_close hb hdim hstep codes
    refine ⟨hclose, ?_, fun hconst => lutScore_constant hb hdim hconst codes⟩
    rw [← trueDot_calibrated, add_sub_add_right_eq_sub]
    exact hclose
  · rw [calibrateQuery_scaled]
    intro qT hstep'
    refine ⟨uint8Luts_scaled ht hstep hstep', ?_, rfl, fun hvaried => ?_⟩
    · show (buildQueryLut (q.map (t * ·)) centroids bits dim).bias = t * (buildQueryLut q centroids bits dim).bias
      rw [buildQueryLut_eq hstep, buildQueryLut_eq hstep']
      exact lutBias_scaled ht _ _
    · show (buildQueryLut (q.map (t * ·)) centroids bits dim).scale = t * (buildQueryLut q centroids bits dim).scale
      rw [buildQueryLut_eq hstep, buildQueryLut_eq hstep']
      exact lutScale_scaled ht (mt (maxSpan_eq_zero_iff _ _).mp hvaried)

/-- A calibrated query of eight dimensions at two bits: its score of a row within two steps, and its entries those of
the doubled query. -/
theorem search_tables_eight :
    let qRot : List ℚ := [1, 2, 3, 4, 5, 6, 7, 8]
    let shift : List ℚ := [1 / 2, 0, -1 / 4, 0, 1, 0, 0, 1 / 8]
    let scaleTq : List ℚ := [1, 2, 1, 4, 1, 2, 1, 1 / 2]
    let q := calibrateQuery qRot shift scaleTq 8
    let lut := buildQueryLut q.1 [-2, -1, 1, 2] 2 8
    let codes := rowAt (extractCodesFlat [0b10110010, 0b01100111] 1 2 8) 2 0
    |lutScore lut codes 2 + q.2 -
        ∑ d ∈ Finset.range 8, entry qRot d * decodedAt [-2, -1, 1, 2] shift scaleTq 2 codes d| ≤ 2 * lut.scale ∧
      (buildQueryLut (calibrateQuery (qRot.map (2 * ·)) shift scaleTq 8).1 [-2, -1, 1, 2] 2 8).uint8Luts =
        lut.uint8Luts := by
  intro qRot shift scaleTq q lut codes
  have hstep : StepRepresentable q.1 [-2, -1, 1, 2] 2 2 := fun _ => by decide +kernel
  have hstep' : StepRepresentable (calibrateQuery (qRot.map (2 * ·)) shift scaleTq 8).1 [-2, -1, 1, 2] 2 2 :=
    fun _ => by decide +kernel
  obtain ⟨-, -, hscore, hscaled⟩ := search_tables (show ValidBits 2 from Or.inl rfl) (show 8 % 8 = 0 from rfl) qRot
    [-2, -1, 1, 2] shift scaleTq hstep
  exact ⟨(hscore [0b10110010, 0b01100111] 1 0 Nat.one_pos).2.1, (hscaled 2 (by norm_num) hstep').1⟩

end Turbovec.Scan
