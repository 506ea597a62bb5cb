import Turbovec.Pack.PlanesSeq
import Turbovec.Scan.Dot

/-!
# The exact rescore

A candidate of the planes layout is scored again from its bit planes: at 2 bits through the same byte tables
as the classic scan, at 4 bits through the same int8 operands. Either way the integer is the one the classic
scan takes from the row's code bytes.
-/

namespace Turbovec.Scan

open Pack Slice Grid

/-! ## Two bits -/

/-- Groups between two flushes of the classic scan's integer sums. -/
def FLUSH_EVERY : ℕ := 256

/-- `PLANES_COMB`: the code byte of a sign nibble over a low nibble. -/
def planesComb (i : UInt8) : UInt8 :=
  UInt8.ofNat ((buildSpread (i.toNat >>> 4) <<< 1) ||| buildSpread (i.toNat &&& 15))

/-- The table entries of sign group `g`, two for each of its code bytes. -/
def legacyGroup (P : Platform) (luts sign low : List UInt8) (nsg v g : ℕ) : ℕ :=
  let sb := entry sign (v / BLOCK * nsg * BLOCK + planesSlot P g (v % BLOCK))
  let lb := entry low (v * nsg + g)
  let c0 := planesComb ((sb &&& 0xF0) ||| (lb >>> (4 : UInt8)))
  let c1 := planesComb (((sb &&& (15 : UInt8)) <<< (4 : UInt8)) ||| (lb &&& 15))
  let o := g * 64
  (entry luts (o + (c0 >>> 4).toNat)).toNat + (entry luts (o + 16 + (c0 &&& 15).toNat)).toNat +
    (entry luts (o + 32 + (c1 >>> 4).toNat)).toNat + (entry luts (o + 48 + (c1 &&& 15).toNat)).toNat

/-- The integer sums `legacy_score` hands to its float epilogue: one, or on aarch64 one for each flush. -/
def legacySums (P : Platform) (luts sign low : List UInt8) (nByteGroups v : ℕ) : List ℕ :=
  let nsg := nByteGroups / 2
  let s := (List.range nsg).foldl (fun (s : List ℕ × ℕ) g =>
    let sum := s.2 + legacyGroup P luts sign low nsg v g
    if P.arch = .aarch64 ∧ (2 * g + 2) % FLUSH_EVERY = 0 then (s.1 ++ [sum], 0) else (s.1, sum)) ([], 0)
  if P.arch = .aarch64 then (if nByteGroups % FLUSH_EVERY ≠ 0 then s.1 ++ [s.2] else s.1) else [s.2]

/-- The two table entries of code byte `g`. -/
def codeTerm (luts codes : List UInt8) (g : ℕ) : ℕ :=
  (entry luts (g * 32 + (entry codes g >>> 4).toNat)).toNat + (entry luts (g * 32 + 16 + (entry codes g &&& 15).toNat)).toNat

/-- What the classic scan adds up over the groups `a .. b` of a code row. -/
def tableSum (luts codes : List UInt8) (a b : ℕ) : ℕ := ∑ g ∈ Finset.Ico a b, codeTerm luts codes g

/-- The classic sums of a row: whole, or a flush at a time. -/
def tableSums (P : Platform) (luts codes : List UInt8) (nByteGroups : ℕ) : List ℕ :=
  if P.arch = .aarch64 then (List.range ((nByteGroups + FLUSH_EVERY - 1) / FLUSH_EVERY)).map fun batch =>
    tableSum luts codes (batch * FLUSH_EVERY) (min (batch * FLUSH_EVERY + FLUSH_EVERY) nByteGroups)
  else [tableSum luts codes 0 nByteGroups]

/-! ## Four bits -/

/-- `Exact4`, as far as the integer sum goes. -/
structure Exact4 where
  w : List Int8
  levels : List Int8

/-- The weights as a bit plane is read: position `8c + b` is bit `b` of byte `c`. -/
def Exact4.new (pd : PermuteDot) (dim : ℕ) : Exact4 where
  w := scatter (fun d => d / 8 * 8 + 7 - d % 8)
    (fun d =>
      let g := d / 2
      entry pd.weights (g / 4 * 8 + g % 4 + if d % 2 = 0 then 4 else 0))
    (List.range dim) (List.replicate ((dim + 63) / 64 * 64) 0)
  levels := pd.levels

/-- `SPREAD8`: byte `i` is bit `i`. -/
def spread8 (b : UInt8) : ℕ := (List.range 8).foldl (fun t i => t ||| (((b.toNat >>> i) &&& 1) <<< (8 * i))) 0

/-- The eight codes one byte of each plane covers, one a byte. -/
def exact4Codes (sb p2 p1 p0 : UInt8) : ℕ :=
  (spread8 sb <<< 3) ||| (spread8 p2 <<< 2) ||| (spread8 p1 <<< 1) ||| spread8 p0

def exact4SumScalar (P : Platform) (e : Exact4) (sign low : List UInt8) (nsg v : ℕ) : Int32 :=
  (List.range nsg).foldl (fun sum c =>
    let codes := exact4Codes (entry sign (v / BLOCK * nsg * BLOCK + planesSlot P c (v % BLOCK)))
      (entry low (v * (3 * nsg) + (2 * nsg + c))) (entry low (v * (3 * nsg) + (nsg + c))) (entry low (v * (3 * nsg) + c))
    (List.range 8).foldl (fun sum b =>
      sum + (entry e.w (c * 8 + b)).toInt32 * (entry e.levels ((codes >>> (8 * b)) &&& 15)).toInt32) sum) 0

/-- The code of dimension `d` in a row of code bytes. -/
def rowCode (codes : List UInt8) (d : ℕ) : UInt8 := dimCode (entry codes (d / 2)) d

section

variable {P : Platform} {dim n : ℕ} {f : ℕ → List UInt8} {sign low luts : List UInt8} {levels : List Int8}

/-! ## The 2-bit sum -/

theorem testBit_nibble (a : ℕ) {k : ℕ} (hk : k < 4) : (a &&& 15).testBit k = a.testBit k := by
  rw [show 15 = 2 ^ 4 - 1 from rfl, Nat.and_two_pow_sub_one_eq_mod, Nat.testBit_mod_two_pow, decide_eq_true hk,
    Bool.true_and]

theorem testBit_planesComb (x : UInt8) {i : ℕ} (hi : i < 8) : (planesComb x).toNat.testBit i =
    x.toNat.testBit (if i % 2 = 1 then 4 + i / 2 else i / 2) := by
  rw [planesComb, testBit_spread_pair _ _ hi, Nat.testBit_shiftRight, testBit_nibble _ (by omega)]
  split
  · rfl
  · rfl

theorem planesComb_eq (sb lb : UInt8) : planesComb ((sb &&& 0xF0) ||| (lb >>> (4 : UInt8))) = (planesToCodeBytes sb lb).1 ∧
    planesComb (((sb &&& (15 : UInt8)) <<< (4 : UInt8)) ||| (lb &&& 15)) = (planesToCodeBytes sb lb).2 := by
  constructor
  · apply Bits.eq_of_testBit
    intro i hi
    rw [testBit_planesComb _ hi, planesToCodeBytes, testBit_spread_pair _ _ hi, Bits.testBit_or, Bits.testBit_and,
      Bits.testBit_shr4, Nat.testBit_shiftRight, Nat.testBit_shiftRight]
    split
    · rw [Bits.testBit_hi (by omega), Bits.testBit_of_le (by omega : 8 ≤ 4 + (4 + i / 2))]
      simp
    · rw [Bits.testBit_hi (by omega), decide_eq_false (by omega), Bool.and_false, Bool.false_or]
  · apply Bits.eq_of_testBit
    intro i hi
    rw [testBit_planesComb _ hi, planesToCodeBytes, testBit_spread_pair _ _ hi, testBit_nibble _ (by omega),
      testBit_nibble _ (by omega), Bits.testBit_or, Bits.testBit_and, Bits.testBit_shl4 _ (by split <;> omega),
      Bits.testBit_and]
    have h15 {k : ℕ} (hk : k < 8) : (15 : UInt8).toNat.testBit k = decide (k < 4) := Bits.testBit_lo hk
    split
    · rw [h15 (by omega), h15 (by omega), Nat.add_sub_cancel_left]
      have hlt : i / 2 < 4 := by omega
      simp [hlt]
    · rw [h15 (by omega : i / 2 < 8)]
      have hlt : i / 2 < 4 := by omega
      simp [hlt]

/-- One group of the rescore is two code bytes of the row. -/
theorem legacyGroup_eq (h : PlanesHold P 2 dim n f sign low) (hp : planesFor P 2 (dim / codesPerByte 2) = true)
    (hd : dim % 8 = 0) (hf : ∀ v < n, (f v).length = 2 * (dim / 8)) {v g : ℕ} (hv : v < n) (hg : g < dim / 8) :
    legacyGroup P luts sign low (dim / 8) v g = codeTerm luts (extractRow 2 dim (f v)) (2 * g) +
      codeTerm luts (extractRow 2 dim (f v)) (2 * g + 1) := by
  have hb := planesBits_of_planesFor hp
  have hsign : entry sign (v / BLOCK * (dim / 8) * BLOCK + planesSlot P g (v % BLOCK)) = entry (f v) (dim / 8 + g) := by
    rw [h.entry_sign hp hd hv hg, entry_signPart]
    congr 1
    omega
  have hlow : entry low (v * (dim / 8) + g) = entry (f v) g := by
    have hrow := h.low_row hb hf hv
    rw [show (2 - 1) * (dim / 8) = dim / 8 by omega] at hrow
    rw [← entry_rowAt low hg, hrow, entry_lowPart _ (by omega)]
  obtain ⟨h0, h1⟩ := planesComb_eq (entry (f v) (dim / 8 + g)) (entry (f v) g)
  rw [planesToCodeBytes_eq _ hg] at h0 h1
  unfold legacyGroup
  dsimp only
  rw [hsign, hlow, h0, h1, codeTerm, codeTerm, show 2 * g * 32 = g * 64 by omega,
    show (2 * g + 1) * 32 = g * 64 + 32 by omega, Nat.add_assoc (g * 64) 32 16]
  exact Nat.add_assoc _ _ _

theorem tableSum_succ (codes : List UInt8) {a g : ℕ} (ha : a ≤ 2 * g) : tableSum luts codes a (2 * g + 2) =
    tableSum luts codes a (2 * g) + (codeTerm luts codes (2 * g) + codeTerm luts codes (2 * g + 1)) := by
  unfold tableSum
  rw [Finset.sum_Ico_succ_top (by omega), Finset.sum_Ico_succ_top ha, Nat.add_assoc]

/-- Whole batches and what is left of one. -/
theorem batches_eq (F : ℕ → ℕ → ℕ) (n : ℕ) :
    (if n % FLUSH_EVERY ≠ 0 then (List.range (n / FLUSH_EVERY)).map (fun batch =>
        F (batch * FLUSH_EVERY) (batch * FLUSH_EVERY + FLUSH_EVERY)) ++ [F (n / FLUSH_EVERY * FLUSH_EVERY) n]
      else (List.range (n / FLUSH_EVERY)).map fun batch =>
        F (batch * FLUSH_EVERY) (batch * FLUSH_EVERY + FLUSH_EVERY)) =
      (List.range ((n + FLUSH_EVERY - 1) / FLUSH_EVERY)).map fun batch =>
        F (batch * FLUSH_EVERY) (min (batch * FLUSH_EVERY + FLUSH_EVERY) n) := by
  unfold FLUSH_EVERY
  have hfull : (List.range (n / 256)).map (fun batch => F (batch * 256) (batch * 256 + 256)) =
      (List.range (n / 256)).map fun batch => F (batch * 256) (min (batch * 256 + 256) n) := by
    apply List.map_congr_left
    intro batch hbatch
    rw [List.mem_range] at hbatch
    rw [Nat.min_eq_left (by omega)]
  rw [hfull]
  split
  · -- a last batch of fewer groups
    rw [show (n + 256 - 1) / 256 = n / 256 + 1 by omega, List.range_succ, List.map_append, List.map_singleton,
      Nat.min_eq_right (by omega)]
  · rw [show (n + 256 - 1) / 256 = n / 256 by omega]

/-- The sums of the rescore are the classic ones, flush by flush. -/
theorem legacySums_eq (h : PlanesHold P 2 dim n f sign low) (hp : planesFor P 2 (dim / codesPerByte 2) = true)
    (hd : dim % 8 = 0) (hf : ∀ v < n, (f v).length = 2 * (dim / 8)) {v : ℕ} (hv : v < n) :
    legacySums P luts sign low (dim / codesPerByte 2) v =
      tableSums P luts (extractRow 2 dim (f v)) (dim / codesPerByte 2) := by
  have hnsg : dim / codesPerByte 2 / 2 = dim / 8 := by
    simp only [codesPerByte]
    omega
  have hnbg : dim / codesPerByte 2 = 2 * (dim / 8) := by
    simp only [codesPerByte]
    omega
  have hfold : ∀ m ≤ dim / 8, (List.range m).foldl (fun (s : List ℕ × ℕ) g =>
      if P.arch = .aarch64 ∧ (2 * g + 2) % FLUSH_EVERY = 0 then
        (s.1 ++ [s.2 + legacyGroup P luts sign low (dim / 8) v g], 0)
      else (s.1, s.2 + legacyGroup P luts sign low (dim / 8) v g)) ([], 0) =
        if P.arch = .aarch64 then
          ((List.range (2 * m / FLUSH_EVERY)).map fun batch => tableSum luts (extractRow 2 dim (f v))
              (batch * FLUSH_EVERY) (batch * FLUSH_EVERY + FLUSH_EVERY),
            tableSum luts (extractRow 2 dim (f v)) (2 * m / FLUSH_EVERY * FLUSH_EVERY) (2 * m))
        else ([], tableSum luts (extractRow 2 dim (f v)) 0 (2 * m)) := by
    intro m hm
    induction m with
    | zero =>
      split
      · simp [FLUSH_EVERY, tableSum]
      · simp [tableSum]
    | succ m ih =>
      rw [List.range_succ, List.foldl_append, List.foldl_cons, List.foldl_nil, ih (by omega),
        legacyGroup_eq h hp hd hf hv (by omega), show 2 * (m + 1) = 2 * m + 2 by omega]
      by_cases harch : P.arch = .aarch64
      · simp only [harch, true_and, if_true]
        rw [← tableSum_succ _ (by unfold FLUSH_EVERY; omega)]
        split
        · -- the group that fills a batch
          rename_i hflush
          have hq : (2 * m + 2) / FLUSH_EVERY = 2 * m / FLUSH_EVERY + 1 := by
            unfold FLUSH_EVERY at *
            omega
          have hend : 2 * m / FLUSH_EVERY * FLUSH_EVERY + FLUSH_EVERY = 2 * m + 2 := by
            unfold FLUSH_EVERY at *
            omega
          have hnext : (2 * m / FLUSH_EVERY + 1) * FLUSH_EVERY = 2 * m + 2 := by
            rw [Nat.succ_mul, hend]
          rw [hq, List.range_succ, List.map_append, List.map_singleton, hend, hnext]
          simp [tableSum]
        · rename_i hflush
          have hq : (2 * m + 2) / FLUSH_EVERY = 2 * m / FLUSH_EVERY := by
            unfold FLUSH_EVERY at *
            omega
          rw [hq]
      · simp only [harch, false_and, if_false]
        rw [← tableSum_succ _ (Nat.zero_le _)]
  unfold legacySums tableSums
  rw [hnsg]
  dsimp only
  rw [hfold _ le_rfl, ← hnbg]
  by_cases harch : P.arch = .aarch64
  · simp only [harch, if_true]
    exact batches_eq (tableSum luts (extractRow 2 dim (f v))) _
  · simp only [harch, if_false]

/-- No sum of the tables leaves 32 bits. -/
theorem tableSum_lt (hmax : dim ≤ MAX_DIM) (codes : List UInt8) {a b : ℕ} (hb : b ≤ dim / codesPerByte 2) :
    tableSum luts codes a b < 2 ^ 32 := by
  have hterm (g : ℕ) : codeTerm luts codes g ≤ 510 := by
    have h0 := (entry luts (g * 32 + (entry codes g >>> 4).toNat)).toNat_lt
    have h1 := (entry luts (g * 32 + 16 + (entry codes g &&& 15).toNat)).toNat_lt
    unfold codeTerm
    omega
  have hsum : tableSum luts codes a b ≤ (Finset.Ico a b).card • 510 :=
    Finset.sum_le_card_nsmul _ _ _ fun g _ => hterm g
  rw [Nat.card_Ico] at hsum
  change _ ≤ (b - a) * 510 at hsum
  unfold MAX_DIM at hmax
  simp only [codesPerByte] at hb
  omega

/-! ## The 4-bit sum -/

theorem testBit_spread8 (b : UInt8) (k : ℕ) :
    (spread8 b).testBit k = (List.range 8).any fun i => decide (k = 8 * i) && b.toNat.testBit i := by
  have h := Bits.testBit_foldl _ (fun a i => (Nat.testBit_or a _ k).trans
    (congrArg (a.testBit k || ·) (Bits.testBit_pick b.toNat i (8 * i) k))) (List.range 8) 0
  rwa [Nat.zero_testBit, Bool.false_or] at h

theorem testBit_spread8_at (b : UInt8) {i p s : ℕ} (hi : i < 8) (hp : p < 4) (hs : s < 4) :
    (spread8 b <<< s).testBit (8 * i + p) = (decide (p = s) && b.toNat.testBit i) := by
  rw [Nat.testBit_shiftLeft, testBit_spread8]
  by_cases heq : p = s
  · subst heq
    rw [show 8 * i + p - p = 8 * i by omega, Bits.any_range_eq_of_unique hi]
    · simp
    · intro k _ hk
      have hpos := of_decide_eq_true (Bool.and_eq_true_iff.1 hk).1
      omega
  · by_cases hge : s ≤ 8 * i + p
    · rw [Bits.any_range_eq_false]
      · simp [heq]
      · intro k _
        rw [decide_eq_false (by omega), Bool.false_and]
    · simp [heq, hge]

/-- Bit `p` of code `i` is bit `i` of plane `p`. -/
theorem testBit_exact4Codes (sb p2 p1 p0 : UInt8) {i p : ℕ} (hi : i < 8) (hp : p < 4) :
    ((exact4Codes sb p2 p1 p0 >>> (8 * i)) &&& 15).testBit p =
      (entry [p0, p1, p2, sb] p).toNat.testBit i := by
  have h0 := @testBit_spread8_at p0 i p 0 hi hp (by decide)
  rw [Nat.shiftLeft_zero] at h0
  rw [testBit_nibble _ hp, Nat.testBit_shiftRight, exact4Codes, Nat.testBit_or, Nat.testBit_or, Nat.testBit_or,
    testBit_spread8_at _ hi hp (by decide), testBit_spread8_at _ hi hp (by decide),
    testBit_spread8_at _ hi hp (by decide), h0]
  match p, hp with
  | 0, _ => simp [entry]
  | 1, _ => simp [entry]
  | 2, _ => simp [entry]
  | 3, _ => simp [entry]

/-- Bit `p` of a dimension's code is its bit of plane `p`. -/
theorem testBit_rowCode (row : List UInt8) {d p : ℕ} (hdim : dim % 8 = 0) (hd : d < dim) (hp : p < 4) :
    (rowCode (extractRow 4 dim row) d).toNat.testBit p =
      (entry row (p * (dim / 8) + d / 8)).toNat.testBit (7 - d % 8) := by
  have hg : d / 2 < dim / codesPerByte 4 := by
    simp only [codesPerByte]
    omega
  have hbit := testBit_extractByte (Or.inr (Or.inr rfl)) (dim / 8) row (d / 2) (t := d % 2)
    (by simp only [codesPerByte]; omega) hp
  simp only [codesPerByte, field, show ¬(4 = 3) by decide, if_false, show 8 / 4 = 2 by decide,
    show d / 2 * 2 + d % 2 = d by omega] at hbit
  rw [rowCode, dimCode, entry_extractRow _ hg, ← hbit]
  split
  · rename_i heven
    rw [Bits.testBit_shr4, heven]
  · rename_i hodd
    rw [Bits.testBit_and, Bits.testBit_lo (by omega), decide_eq_true hp, Bool.and_true,
      show d % 2 = 1 by omega]
    simp

/-- The weights of `Exact4`, by plane byte and bit. -/
theorem entry_exact4 {q : ℕ → Int8} (hd : dim % 8 = 0) {c b : ℕ} (hc : c < dim / 8) (hb : b < 8) :
    entry (Exact4.new (buildPermuteDot levels q dim) dim).w (c * 8 + b) = q (8 * c + (7 - b)) := by
  have hstore := @entry_scatter _ _ _ (fun d => d / 8 * 8 + 7 - d % 8)
    (fun d => entry (buildPermuteDot levels q dim).weights (d / 2 / 4 * 8 + d / 2 % 4 + if d % 2 = 0 then 4 else 0))
    (List.range dim) (List.replicate ((dim + 63) / 64 * 64) 0) (8 * c + (7 - b)) (List.mem_range.2 (by omega)) ?_ ?_
  · have hpos : (8 * c + (7 - b)) / 8 * 8 + 7 - (8 * c + (7 - b)) % 8 = c * 8 + b := by omega
    rw [hpos] at hstore
    apply hstore.trans
    rw [← @entry_weights levels q dim hd (8 * c + (7 - b)) (by omega), weightSlot]
    congr 1
    omega
  · intro y _ hy
    rw [show y = 8 * c + (7 - b) by omega]
  · rw [List.length_replicate]
    omega

theorem exact4SumScalar_eq (h : PlanesHold P 4 dim n f sign low) (hp : planesFor P 4 (dim / codesPerByte 4) = true)
    (hd : dim % 8 = 0) (hf : ∀ v < n, (f v).length = 4 * (dim / 8)) (q : ℕ → Int8) {v : ℕ} (hv : v < n) :
    exact4SumScalar P (Exact4.new (buildPermuteDot levels q dim) dim) sign low (dim / 8) v =
      Int32.ofInt (exactDot levels q (rowCode (extractRow 4 dim (f v))) dim) := by
  have hb := planesBits_of_planesFor hp
  have hplane {k : ℕ} (hk : k < 3 * (dim / 8)) : entry low (v * (3 * (dim / 8)) + k) = entry (f v) k := by
    rw [← entry_rowAt low hk, show 3 * (dim / 8) = (4 - 1) * (dim / 8) by omega, h.low_row hb hf hv,
      entry_lowPart _ hk]
  rw [exactDot, show Finset.range dim = Finset.range (dim / 8 * 8) by congr 1; omega, Wrapped.sum_range_mul,
    exact4SumScalar, ← Int32.zero_add (Int32.ofInt _)]
  apply @Wrapped.foldl_read Int32 id
  intro sum c hc
  dsimp only [id]
  rw [h.entry_sign hp hd hv hc, entry_signPart, hplane (by omega), hplane (by omega), hplane (by omega)]
  have hcode {b : ℕ} (hb8 : b < 8) : (exact4Codes (entry (f v) ((4 - 1) * (dim / 8) + c)) (entry (f v) (2 * (dim / 8) + c))
      (entry (f v) (dim / 8 + c)) (entry (f v) c) >>> (8 * b)) &&& 15 =
        (rowCode (extractRow 4 dim (f v)) (8 * c + (7 - b))).toNat := by
    apply Nat.eq_of_testBit_eq
    intro p
    by_cases hp4 : p < 4
    · rw [testBit_exact4Codes _ _ _ _ hb8 hp4, testBit_rowCode _ hd (by omega) hp4,
        show (8 * c + (7 - b)) / 8 = c by omega, show 7 - (8 * c + (7 - b)) % 8 = b by omega]
      obtain rfl | rfl | rfl | rfl : p = 0 ∨ p = 1 ∨ p = 2 ∨ p = 3 := by omega
      · simp [entry]
      · simp [entry]
      · simp [entry]
      · simp [entry]
    · rw [Nat.testBit_lt_two_pow, Nat.testBit_lt_two_pow]
      · exact Nat.lt_of_lt_of_le (dimCode_lt _ _) (Nat.pow_le_pow_right (Nat.succ_pos 1) (Nat.not_lt.1 hp4))
      · exact Nat.lt_of_lt_of_le (Nat.lt_of_le_of_lt Nat.and_le_right (by decide : 15 < 2 ^ 4))
          (Nat.pow_le_pow_right (Nat.succ_pos 1) (Nat.not_lt.1 hp4))
  rw [← Finset.sum_range_reflect]
  apply Wrapped.foldl_add
  intro b hb8
  rw [entry_exact4 hd hc hb8, hcode hb8, Wrapped.toInt32_mul_toInt32, term, Nat.mul_comm c 8]
  rfl

/-- The rescore of each of `n` rows takes the classic scan's integers over the code rows `codes`. -/
structure Rescores (P : Platform) (bits dim n : ℕ) (sign low : List UInt8) (codes : ℕ → List UInt8) : Prop where
  two : bits = 2 → ∀ v < n, ∀ luts, legacySums P luts sign low (dim / codesPerByte 2) v =
    tableSums P luts (codes v) (dim / codesPerByte 2)
  four : bits = 4 → ∀ v < n, ∀ levels q,
    (exact4SumScalar P (Exact4.new (buildPermuteDot levels q dim) dim) sign low (dim / 8) v).toInt =
      exactDot levels q (rowCode (codes v)) dim

theorem PlanesHold.rescores {bits : ℕ} (h : PlanesHold P bits dim n f sign low)
    (hp : planesFor P bits (dim / codesPerByte bits) = true) (hd : dim % 8 = 0) (hmax : dim ≤ MAX_DIM)
    (hf : ∀ v < n, (f v).length = bits * (dim / 8)) {codes : ℕ → List UInt8}
    (hcodes : ∀ v < n, extractRow bits dim (f v) = codes v) : Rescores P bits dim n sign low codes where
  two := by
    rintro rfl v hv luts
    rw [legacySums_eq h hp hd hf hv, hcodes v hv]
  four := by
    rintro rfl v hv levels q
    rw [exact4SumScalar_eq h hp hd hf q hv, toInt_exactDot hmax, hcodes v hv]

/-- The rescore computes the classic scan's integers, whichever conversion the rows went through: at 2 bits
the table sums of the row's code bytes, flush by flush, and at 4 bits its weights times its levels. No sum on
the way leaves 32 bits. -/
theorem rescore_exact (P : Platform) {bits : ℕ} (hp : planesFor P bits (dim / codesPerByte bits) = true)
    (hd : dim % 8 = 0) (hpos : 0 < dim) (hmax : dim ≤ MAX_DIM) :
    (∀ n packed, packed.length = n * (bits * (dim / 8)) →
      Rescores P bits dim n (planesRepack P packed n bits dim).1 (planesRepack P packed n bits dim).2.1
        fun v => extractRow bits dim (rowAt packed (bits * (dim / 8)) v)) ∧
    (∀ n seq, Rescores P bits dim n (planesFromSeq P seq bits (dim / codesPerByte bits) n).1
      (planesFromSeq P seq bits (dim / codesPerByte bits) n).2 (seqRowAt seq (dim / codesPerByte bits))) ∧
    (∀ luts codes a b, b ≤ dim / codesPerByte 2 → tableSum luts codes a b < 2 ^ 32) ∧
    ∀ levels q code S, S ⊆ Finset.range dim → |∑ d ∈ S, term levels q code d| < 2 ^ 31 := by
  have hb := planesBits_of_planesFor hp
  have hthree : bits ≠ 3 := by
    rcases hb with rfl | rfl
    · decide
    · decide
  refine ⟨fun n packed hlen => ?_, fun n seq => ?_, fun luts codes a b hab => tableSum_lt hmax codes hab,
    fun levels q code S hS => (partial_fits hmax code hS).1⟩
  · exact PlanesHold.rescores (planesHold_repack hb hd hpos hlen) hp hd hmax (fun v hv => length_rowAt hlen hv)
      fun _ _ => rfl
  · apply PlanesHold.rescores (planesHold_fromSeq hp hd hpos seq) hp hd hmax
    · intro v _
      exact length_packRow _ _ _
    · intro v _
      rw [extractRow_packRow hb.valid hd (length_seqRowAt _ _ _),
        List.map_congr_left fun b _ => clearStray_eq_self hthree b, List.map_id']

end

/-- Rows of 32 dimensions on x86: eight code bytes and sixteen entries of 3 at 2 bits, and at 4 bits sixteen code bytes,
the levels of the codes times the weights. -/
theorem rescore_exact_two :
    let P : Platform := ⟨.x86_64, true, false, false, false, true, true⟩
    let levels : List Int8 := [-128, -100, -80, -60, -40, -20, -10, -1, 1, 10, 20, 40, 60, 80, 100, 127]
    let pair := fun bits => planesRepack P (List.replicate (4 * bits) 0b10110010) 1 bits 32
    legacySums P (List.replicate 256 3) (pair 2).1 (pair 2).2.1 (32 / codesPerByte 2) 0 = [48] ∧
      (exact4SumScalar P (Exact4.new (buildPermuteDot levels (fun d => Int8.ofNat (d * 8)) 32) 32) (pair 4).1
        (pair 4).2.1 (32 / 8) 0).toInt = -24416 := by
  intro P levels pair
  have htwo := (@rescore_exact 32 P 2 (by decide) rfl (by decide) (by decide)).1 1 (List.replicate 8 0b10110010) rfl
  have hfour := (@rescore_exact 32 P 4 (by decide) rfl (by decide) (by decide)).1 1 (List.replicate 16 0b10110010) rfl
  refine ⟨(htwo.two rfl 0 Nat.one_pos (List.replicate 256 3)).trans ?_,
    (hfour.four rfl 0 Nat.one_pos levels fun d => Int8.ofNat (d * 8)).trans ?_⟩
  · decide +kernel
  · decide +kernel

end Turbovec.Scan
