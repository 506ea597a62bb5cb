import Turbovec.Scan.Exact

/-!
# The windows of a mask

A mask is consulted as bools by the callers' predicate, as packed words by the split, and by the kernels as windows
of a range's own words. All of them give what the bools give at the absolute slot, so a search the predicate calls
serial is never split.
-/

namespace Turbovec.Scan

open TopK Slice Grid

/-! ## The predicate and the split -/

/-- `single_query_parallelizes_masked` -/
def singleQueryParallelizesMasked (nVectors : ℕ) (mask : Option (List Bool)) : Bool :=
  let allowed := match mask with
    | none => divCeil nVectors 32
    | some m => ((List.range (divCeil m.length 32)).filter fun b => (rowAt m 32 b).any id).length
  decide (allowed ≥ SINGLE_QUERY_PARALLEL_MIN_BLOCKS)

/-- `block_pair_has_allowed` -/
def blockPairHasAllowed (mask : Option (List UInt64)) (baseVecPair : ℕ) : Bool :=
  match mask with
  | none => true
  | some m => decide (entry m (baseVecPair / 64) ≠ 0)

namespace Task

section variable (H : Host) (T : Task)

/-- The first blocks of the ranges of a single query's scan. -/
def singleRanges : List ℕ :=
  let nThreads := singleQueryWorkers H.threads T.mask T.nBlocks
  stepBy T.nBlocks (blockRangeStride T.nBlocks (nThreads * if T.buffered ∧ nThreads > 1 then PLANES_PIECES_PER_WORKER else 1))

/-- The first blocks of the ranges of a batch's tiles. -/
def batchRanges (per : ℕ) : List ℕ := stepBy (max T.nBlocks 1) per

/-- The first blocks of the ranges that the dispatch splits the block axis into. -/
def blockRanges : List ℕ :=
  match H.arch with
  | .aarch64 =>
    if T.nq = 1 ∧ T.nBlocks ≥ SINGLE_QUERY_PARALLEL_MIN_BLOCKS then T.singleRanges H
    else
      T.batchRanges (T.blocksPerRange H (T.qbs H) TILES_PER_THREAD_NEON
        (if T.bits = 2 then MIN_TILE_BLOCKS_NEON * 2 else MIN_TILE_BLOCKS_NEON) false)
  | .x86_64 =>
    if T.nq = 1 ∧ T.nBlocks ≥ SINGLE_QUERY_PARALLEL_MIN_BLOCKS ∧ simdOk H = true then T.singleRanges H
    else
      T.batchRanges (T.blocksPerRange H (T.nqBatch H) TILES_PER_THREAD MIN_TILE_BLOCKS_X86
        (serialRequired T.mask.isSome (simdOk H)))
  | .other => [0]

end

end Task

/-! ## Packed slots -/

/-- A packed mask has the bools' bits, and none past them. -/
theorem maskAllows_packMask (m : List Bool) (slot : ℕ) :
    maskAllows (TurboQuantIndex.packMask m).1 slot = m.getD slot false := by
  by_cases hw : slot / 64 < (m.length + 63) / 64
  · have hword : entry (TurboQuantIndex.packMask m).1 (slot / 64) = UInt64.ofNat (maskWord m (slot / 64)) := by
      rw [packMask_eq, entry, List.getElem?_map, List.getElem?_range hw]
      rfl
    rw [maskAllows, hword, toNat_maskWord, maskWord_testBit _ _ (Nat.mod_lt _ (by decide)), Nat.mul_comm,
      Nat.div_add_mod]
  · have hword : entry (TurboQuantIndex.packMask m).1 (slot / 64) = 0 := by
      apply entry_of_length_le
      rw [packMask_eq, List.length_map, List.length_range]
      omega
    rw [maskAllows, hword, List.getD_eq_getElem?_getD, List.getElem?_eq_none (by omega)]
    exact Nat.zero_testBit _

theorem length_packMask (m : List Bool) : (TurboQuantIndex.packMask m).1.length = (m.length + 63) / 64 := by
  rw [packMask_eq, List.length_map, List.length_range]

/-- A block of a mask has an allowed lane where its window has a bit. -/
theorem blockHasAllowed_iff (ws : List UInt64) {base : ℕ} (hb : base % 32 = 0) :
    blockHasAllowed (some ws) base = true ↔ ∃ lane < 32, maskAllows ws (base + lane) = true := by
  constructor
  · intro h
    by_contra hnone
    push Not at hnone
    apply of_decide_eq_true h
    apply Nat.eq_of_testBit_eq
    intro lane
    rw [Nat.zero_testBit, Nat.testBit_mod_two_pow]
    by_cases hl : lane < 32
    · have hbit := Bool.eq_false_iff.mpr (hnone lane hl)
      have hword := blockMaskWord_testBit (some ws) hb hl
      rw [allows, hbit, blockMaskWord, Nat.testBit_mod_two_pow] at hword
      exact hword
    -- the window has the lanes of one block
    · rw [decide_eq_false hl, Bool.false_and]
  · rintro ⟨lane, hl, hallows⟩
    by_contra hnone
    rw [Bool.not_eq_true] at hnone
    have hlane := allows_of_block hb hl hnone
    rw [allows, hallows] at hlane
    cases hlane

theorem blockPairHasAllowed_iff (ws : List UInt64) {base : ℕ} (hb : base % 64 = 0) :
    blockPairHasAllowed (some ws) base = true ↔ ∃ lane < 64, maskAllows ws (base + lane) = true := by
  have hdiv {lane : ℕ} (hl : lane < 64) : (base + lane) / 64 = base / 64 := by omega
  have hmod {lane : ℕ} (hl : lane < 64) : (base + lane) % 64 = lane := by omega
  rw [blockPairHasAllowed, decide_eq_true_eq]
  constructor
  · intro h
    by_contra hnone
    push Not at hnone
    apply h
    apply UInt64.toNat_inj.mp
    apply Nat.eq_of_testBit_eq
    intro lane
    rw [UInt64.toNat_zero, Nat.zero_testBit]
    by_cases hl : lane < 64
    · have hbit := Bool.eq_false_iff.mpr (hnone lane hl)
      rw [maskAllows, hdiv hl, hmod hl] at hbit
      exact hbit
    · apply Nat.testBit_lt_two_pow
      exact lt_of_lt_of_le (entry ws (base / 64)).toNat_lt (Nat.pow_le_pow_right (by decide) (by omega))
  · rintro ⟨lane, hl, hallows⟩ hzero
    rw [maskAllows, hdiv hl, hzero, UInt64.toNat_zero, Nat.zero_testBit] at hallows
    cases hallows

/-! ## Allowed blocks -/

/-- A block of the bools has an allowed slot. -/
def blockAny (m : List Bool) (b : ℕ) : Bool := (rowAt m 32 b).any id

theorem blockAny_iff (m : List Bool) (b : ℕ) : blockAny m b = true ↔ ∃ lane < 32, m.getD (b * 32 + lane) false = true := by
  unfold blockAny rowAt
  rw [List.any_eq_true]
  constructor
  · rintro ⟨x, hx, htrue⟩
    obtain ⟨lane, hlt, hget⟩ := List.getElem_of_mem hx
    rw [List.length_take, List.length_drop] at hlt
    refine ⟨lane, by omega, ?_⟩
    rw [List.getElem_take, List.getElem_drop] at hget
    rw [List.getD_eq_getElem?_getD, List.getElem?_eq_getElem (by omega), hget]
    exact htrue
  · rintro ⟨lane, hl, h⟩
    refine ⟨true, List.mem_iff_getElem?.mpr ⟨lane, ?_⟩, rfl⟩
    rw [List.getElem?_take, if_pos hl, List.getElem?_drop]
    rw [List.getD_eq_getElem?_getD] at h
    cases hget : m[b * 32 + lane]? with
    | none =>
      rw [hget] at h
      cases h
    | some x =>
      rw [hget, Option.getD_some] at h
      rw [h]

theorem blockHasAllowed_packMask (m : List Bool) (b : ℕ) :
    blockHasAllowed (some (TurboQuantIndex.packMask m).1) (b * 32) = blockAny m b := by
  rw [Bool.eq_iff_iff, blockHasAllowed_iff _ (Nat.mul_mod_left b 32), blockAny_iff]
  simp only [maskAllows_packMask]

/-- The packed words' count is the bools' count. -/
theorem allowedBlocks_packMask (m : List Bool) :
    allowedBlocks (some (TurboQuantIndex.packMask m).1) (divCeil m.length 32) =
      (List.range (divCeil m.length 32)).countP (blockAny m) := by
  -- the halves of a word are two blocks
  have hhalves (w : ℕ) (hw : w < (m.length + 63) / 64) :
      (if (UInt64.ofNat (maskWord m w)).toNat % 2 ^ 32 ≠ 0 then 1 else 0) +
        (if (UInt64.ofNat (maskWord m w)).toNat >>> 32 ≠ 0 then 1 else 0) =
      (List.range 2).countP fun i => blockAny m (w * 2 + i) := by
    have hentry : entry (TurboQuantIndex.packMask m).1 w = UInt64.ofNat (maskWord m w) := by
      rw [packMask_eq, entry, List.getElem?_map, List.getElem?_range hw]
      rfl
    have hlow := blockHasAllowed_packMask m (w * 2)
    have hhigh := blockHasAllowed_packMask m (w * 2 + 1)
    rw [blockHasAllowed, show w * 2 * 32 / 64 = w by omega, show w * 2 * 32 % 64 = 0 by omega, hentry,
      Nat.shiftRight_zero] at hlow
    rw [blockHasAllowed, show (w * 2 + 1) * 32 / 64 = w by omega, show (w * 2 + 1) * 32 % 64 = 32 by omega, hentry,
      Nat.mod_eq_of_lt] at hhigh
    · rw [List.range_succ, List.range_one, List.singleton_append, List.countP_cons, List.countP_singleton]
      simp only [Nat.add_zero, ← hlow, ← hhigh, decide_eq_true_eq]
      exact Nat.add_comm _ _
    · rw [Nat.shiftRight_eq_div_pow]
      have := (UInt64.ofNat (maskWord m w)).toNat_lt
      omega
  -- an odd number of blocks leaves the upper half of the last word empty
  have hpast (b : ℕ) (hb : divCeil m.length 32 ≤ b) : blockAny m b = false := by
    rw [← Bool.not_eq_true, blockAny_iff]
    rintro ⟨lane, -, h⟩
    unfold divCeil at hb
    rw [List.getD_eq_getElem?_getD, List.getElem?_eq_none (by omega)] at h
    cases h
  have hsum : ((TurboQuantIndex.packMask m).1.map fun w =>
      (if w.toNat % 2 ^ 32 ≠ 0 then 1 else 0) + (if w.toNat >>> 32 ≠ 0 then 1 else 0)).sum =
      (List.range (divCeil m.length 32)).countP (blockAny m) := by
    rw [packMask_eq, List.map_map]
    refine (congrArg List.sum (List.map_congr_left fun w hw => hhalves w (List.mem_range.mp hw))).trans ?_
    rw [countP_words (blockAny m) 2]
    obtain ⟨r, hr⟩ := Nat.exists_eq_add_of_le (show divCeil m.length 32 ≤ (m.length + 63) / 64 * 2 by
      unfold divCeil; omega)
    have hzero : ((List.range r).map (divCeil m.length 32 + ·)).countP (blockAny m) = 0 := by
      rw [List.countP_eq_zero]
      intro b hb
      obtain ⟨j, -, rfl⟩ := List.mem_map.mp hb
      rw [hpast _ (Nat.le_add_right _ _)]
      exact Bool.false_ne_true
    rw [hr, List.range_add, List.countP_append, hzero, Nat.add_zero]
  have hle : (List.range (divCeil m.length 32)).countP (blockAny m) ≤ divCeil m.length 32 := by
    have hlen := List.countP_le_length (p := blockAny m) (l := List.range (divCeil m.length 32))
    rwa [List.length_range] at hlen
  rw [allowedBlocks, hsum]
  exact Nat.min_eq_left hle

/-- The callers' predicate is the split's. -/
theorem singleQueryParallelizesMasked_packed {mask : Option (List Bool)} {n : ℕ}
    (hmask : ∀ m, mask = some m → m.length = n) : singleQueryParallelizesMasked n mask =
      decide (allowedBlocks (packed mask) (divCeil n 32) ≥ SINGLE_QUERY_PARALLEL_MIN_BLOCKS) := by
  cases mask with
  | none => rfl
  | some m =>
    have hlen := hmask m rfl
    show decide (((List.range (divCeil m.length 32)).filter (blockAny m)).length ≥ _) =
      decide (allowedBlocks (some (TurboQuantIndex.packMask m).1) (divCeil n 32) ≥ _)
    rw [← hlen, allowedBlocks_packMask, List.countP_eq_length_filter]

/-! ## Ranges -/

theorem blockRangeStride_even (nBlocks nThreads : ℕ) :
    0 < blockRangeStride nBlocks nThreads ∧ blockRangeStride nBlocks nThreads % 2 = 0 := by
  unfold blockRangeStride
  dsimp only
  omega

theorem mem_stepBy_iff {n s b : ℕ} (hs : 0 < s) : b ∈ stepBy n s ↔ b < n ∧ b % s = 0 := by
  constructor
  · intro h
    obtain ⟨hlt, hdvd⟩ := mem_stepBy hs h
    exact ⟨hlt, Nat.mod_eq_zero_of_dvd hdvd⟩
  · rintro ⟨hlt, hmod⟩
    refine List.mem_map.mpr ⟨b / s, List.mem_range.mpr ?_, Nat.div_mul_cancel (Nat.dvd_of_mod_eq_zero hmod)⟩
    by_contra hge
    have hle := Nat.mul_le_mul_right s (not_lt.mp hge)
    have hcover := divCeil_le n hs
    rw [Nat.div_mul_cancel (Nat.dvd_of_mod_eq_zero hmod)] at hle
    omega

/-- Each block lies in one range. -/
theorem range_unique {nBlocks s : ℕ} (hs : 0 < s) {b : ℕ} (hb : b < nBlocks) :
    ∃! start, start ∈ stepBy nBlocks s ∧ start ≤ b ∧ b < start + min s (nBlocks - start) := by
  have hdiv := Nat.div_add_mod b s
  have hmod := Nat.mod_lt b hs
  rw [Nat.mul_comm] at hdiv
  refine ⟨b / s * s, ⟨(mem_stepBy_iff hs).mpr ⟨by omega, Nat.mul_mod_left _ _⟩, by omega, by omega⟩, ?_⟩
  rintro start ⟨hmem, hle, hlt⟩
  obtain ⟨-, hzero⟩ := (mem_stepBy_iff hs).mp hmem
  have hstart := Nat.div_add_mod start s
  rw [hzero, Nat.add_zero, Nat.mul_comm] at hstart
  -- a range that holds the block starts at the multiple of the stride below it
  have hquot : start / s = b / s := by
    symm
    apply Nat.div_eq_of_lt_le
    · rw [hstart]
      exact hle
    · rw [Nat.succ_mul, hstart]
      omega
  rw [← hquot, hstart]

/-- A stride that covers the blocks leaves one range. -/
theorem length_stepBy_le {n s : ℕ} (h : n ≤ s) : (stepBy n s).length ≤ 1 := by
  rw [stepBy, List.length_map, List.length_range]
  unfold divCeil
  rcases Nat.eq_zero_or_pos s with rfl | hs
  · rw [Nat.div_zero]
    exact Nat.zero_le 1
  · have hlt : (n + s - 1) / s < 2 := (Nat.div_lt_iff_lt_mul hs).mpr (by omega)
    omega

/-- One query with too few allowed blocks is never split. -/
theorem blockRanges_le {H : Host} {T : Task} (hq : T.nq = 1)
    (h : ¬allowedBlocks T.mask T.nBlocks ≥ SINGLE_QUERY_PARALLEL_MIN_BLOCKS) : (T.blockRanges H).length ≤ 1 := by
  -- one worker: the stride is at least the number of blocks
  have hsingle : (T.singleRanges H).length ≤ 1 := by
    apply length_stepBy_le
    rw [singleQueryWorkers, if_neg h]
    rw [if_neg (by omega)]
    unfold blockRangeStride divCeil
    dsimp only
    rw [Nat.mul_one, Nat.div_one]
    omega
  -- the batch loop is serial or small, so its range holds every block
  have hbatch (w tiles least : ℕ) (serial : Bool)
      (hserial : T.nBlocks ≥ SINGLE_QUERY_PARALLEL_MIN_BLOCKS → serial = true) :
      (T.batchRanges (T.blocksPerRange H w tiles least serial)).length ≤ 1 := by
    apply length_stepBy_le
    apply max_le
    · apply Task.blocksPerRange_of_one
      apply if_pos
      by_cases hge : T.nBlocks ≥ SINGLE_QUERY_PARALLEL_MIN_BLOCKS
      · exact Or.inr (Or.inl (hserial hge))
      · exact Or.inr (Or.inr ⟨hq, decide_eq_false hge⟩)
    · exact Task.blocksPerRange_pos H T w tiles least serial
  unfold Task.blockRanges
  split
  · split
    · exact hsingle
    · rename_i hsmall
      apply hbatch
      intro hge
      exact absurd ⟨hq, hge⟩ hsmall
  · split
    · exact hsingle
    · rename_i hsmall
      apply hbatch
      intro hge
      rw [serialRequired, Bool.or_eq_true, Bool.not_eq_true']
      right
      by_contra hsimd
      exact hsmall ⟨hq, hge, Bool.eq_true_of_not_eq_false hsimd⟩
  · exact Nat.le_refl 1

/-! ## One answer from every form of the mask -/

/-- The bools' predicate is the split's; a single query it calls serial has one worker and one range of blocks; and on
the word-aligned slice of each range of an even stride, the kernels' reads at range-relative indices are in bounds and
give what the bools give at the absolute slot, nothing past the last one; and each block is in one range. -/
theorem mask_windows {n : ℕ} {mask : Option (List Bool)} (hmask : ∀ m, mask = some m → m.length = n) :
    singleQueryParallelizesMasked n mask =
      decide (allowedBlocks (packed mask) (divCeil n 32) ≥ SINGLE_QUERY_PARALLEL_MIN_BLOCKS) ∧
    (singleQueryParallelizesMasked n mask = false →
      (∀ threads, singleQueryWorkers threads (packed mask) (divCeil n 32) = 1) ∧
      ∀ (H : Host) (T : Task), T.nq = 1 → T.nVectors = n → T.mask = packed mask → (T.blockRanges H).length ≤ 1) ∧
    (∀ threads, 0 < blockRangeStride (divCeil n 32) threads ∧ blockRangeStride (divCeil n 32) threads % 2 = 0) ∧
    ∀ stride, 0 < stride → stride % 2 = 0 →
      (∀ b < divCeil n 32, ∃! start, start ∈ stepBy (divCeil n 32) stride ∧ start ≤ b ∧
        b < start + min stride (divCeil n 32 - start)) ∧
      ∀ start ∈ stepBy (divCeil n 32) stride,
        let slice := (packed mask).map (List.drop (start * 32 / 64))
        let rangeVecs := min (min stride (divCeil n 32 - start) * 32) (n - start * 32)
        (∀ ws, slice = some ws → ∀ slot < rangeVecs, slot / 64 < ws.length) ∧
        (∀ ws, slice = some ws → ∀ slot, maskAllows ws slot = allowedBy mask (start * 32 + slot)) ∧
        (∀ base, base % 32 = 0 →
          (∀ lane < 32, (blockMaskWord slice base).testBit lane = allowedBy mask (start * 32 + (base + lane))) ∧
          (blockHasAllowed slice base = true ↔ ∃ lane < 32, allowedBy mask (start * 32 + (base + lane)) = true)) ∧
        (∀ base, base % 64 = 0 →
          (blockPairHasAllowed slice base = true ↔ ∃ lane < 64, allowedBy mask (start * 32 + (base + lane)) = true)) ∧
        ∀ m, mask = some m → ∀ slot, n ≤ start * 32 + slot → allowedBy mask (start * 32 + slot) = false := by
  have hpred := singleQueryParallelizesMasked_packed hmask
  refine ⟨hpred, fun hfalse => ?_, fun threads => blockRangeStride_even _ threads, fun stride hs heven => ?_⟩
  · rw [hpred, decide_eq_false_iff_not] at hfalse
    refine ⟨fun threads => if_neg hfalse, fun H T hq hn hm => blockRanges_le hq ?_⟩
    rw [Task.nBlocks, hm, hn]
    exact hfalse
  · refine ⟨fun b hb => range_unique hs hb, fun start hstart => ?_⟩
    obtain ⟨hlt, hmod⟩ := (mem_stepBy_iff hs).mp hstart
    have haligned : start * 32 % 64 = 0 := by
      have heven' : start % 2 = 0 := by
        rw [← Nat.mod_mod_of_dvd start (Nat.dvd_of_mod_eq_zero heven), hmod]
      omega
    cases mask with
    | none =>
      refine ⟨nofun, nofun, fun base hb => ⟨fun lane hl => blockMaskWord_testBit none hb hl, ?_⟩, fun base hb => ?_, nofun⟩
      · exact ⟨fun _ => ⟨0, by decide, rfl⟩, fun _ => rfl⟩
      · exact ⟨fun _ => ⟨0, by decide, rfl⟩, fun _ => rfl⟩
    | some m =>
      have hlen := hmask m rfl
      have hallows (slot : ℕ) : maskAllows ((TurboQuantIndex.packMask m).1.drop (start * 32 / 64)) slot =
          m.getD (start * 32 + slot) false := by
        rw [← maskAllows_packMask]
        exact allows_drop (some (TurboQuantIndex.packMask m).1) haligned slot
      refine ⟨?_, ?_, fun base hb => ⟨fun lane hl => ?_, ?_⟩, fun base hb => ?_, ?_⟩
      · rintro ws hws slot hslot
        cases hws
        rw [List.length_drop, length_packMask, hlen]
        omega
      · rintro ws hws slot
        cases hws
        exact hallows slot
      · exact (blockMaskWord_testBit (some _) hb hl).trans (hallows _)
      · refine (blockHasAllowed_iff _ hb).trans ?_
        simp only [hallows]
        rfl
      · refine (blockPairHasAllowed_iff _ hb).trans ?_
        simp only [hallows]
        rfl
      · rintro m' hm' slot hslot
        show m.getD _ false = false
        rw [List.getD_eq_getElem?_getD, List.getElem?_eq_none (by omega), Option.getD_none]

/-- Forty slots, two of them allowed. -/
def fortySlots : List Bool := (List.range 40).map fun i => i == 3 || i == 35

/-- Two allowed blocks are too few. -/
theorem mask_windows_forty : singleQueryParallelizesMasked 40 (some fortySlots) = false ∧
    allowedBlocks (packed (some fortySlots)) 2 = 2 := by
  have htwo : allowedBlocks (packed (some fortySlots)) 2 = 2 := by decide +kernel
  have hlen : ∀ m, some fortySlots = some m → m.length = 40 := by
    rintro m hm
    cases hm
    rfl
  refine ⟨(mask_windows hlen).1.trans (decide_eq_false ?_), htwo⟩
  show ¬allowedBlocks (packed (some fortySlots)) 2 ≥ 1024
  rw [htwo]
  decide

end Turbovec.Scan
