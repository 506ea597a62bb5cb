import Turbovec.Scan.Blocks

/-!
# Scanning a range of blocks

A kernel takes the blocks of a range in order. It skips a group of blocks with no allowed slot, scores the
others and folds each into the range's heap, or into its collector.
-/

namespace Turbovec.Scan

open TopK Slice

/-! ## Kernels -/

/-- What a kernel's selection depends on. -/
structure Kernel where
  epilogue : Epilogue
  collector : Option Collector
  /-- how many blocks are scored, and skipped, together -/
  group : ℕ
  /-- whether a block of a scored group is tested again -/
  retest : Bool
  group_pos : 0 < group := by decide
deriving DecidableEq, Repr

namespace Kernel

/-- `score_query_into_heap` -/
def scalar : Kernel := { epilogue := .scalar, collector := none, group := 1, retest := false }

/-- The tile kernels of aarch64. -/
def neon : Kernel := { epilogue := .neon, collector := some .neon, group := 1, retest := false }

/-- `scan_range_neon` -/
def neonRange : Kernel := { epilogue := .neon, collector := some .neonRange, group := 1, retest := false }

/-- `search_multi_query_avx2` -/
def avx2 : Kernel := { epilogue := .avx2, collector := none, group := 1, retest := false }

/-- `search_multi_query_avx512bw` -/
def avx512bw : Kernel := { epilogue := .avx2, collector := none, group := 2, retest := true }

/-- `search_multi_query_vnni` -/
def vnni : Kernel := { epilogue := .avx2, collector := some .avx512, group := 1, retest := false }

/-- `search_single_query_vnni_blk2` -/
def vnniBlk2 : Kernel := { epilogue := .avx2, collector := some .avx512, group := 2, retest := false }

/-- `search_multi_query_permute_dot`, a block at a time -/
def permuteDot : Kernel := { epilogue := .avx2, collector := some .avx512, group := 1, retest := false }

/-- `search_multi_query_permute_dot`, eight blocks at a time -/
def permuteDotBlk8 : Kernel := { epilogue := .avx2, collector := some .avx512, group := 8, retest := false }

/-- Whether block `b` of `nBlocks` is scored. -/
def scans (kern : Kernel) (mask : Option (List UInt64)) (nBlocks b : ℕ) : Bool :=
  let head := b / kern.group * kern.group
  ((List.range (min kern.group (nBlocks - head))).any fun i => blockHasAllowed mask ((head + i) * 32)) &&
    (!kern.retest || blockHasAllowed mask (b * 32))

/-- Whether a buffered scan is collected; a kernel without a collector keeps its heap. -/
def collects (kern : Kernel) (buffered : Bool) : Bool := buffered && kern.collector.isSome

/-- A block that is skipped has no allowed lane. -/
theorem blockHasAllowed_of_scans {kern : Kernel} {mask : Option (List UInt64)} {nBlocks b : ℕ}
    (hb : b < nBlocks) (h : kern.scans mask nBlocks b = false) : blockHasAllowed mask (b * 32) = false := by
  rw [scans, Bool.and_eq_false_iff] at h
  rcases h with h | h
  · have hpos := kern.group_pos
    have hdiv := Nat.div_add_mod b kern.group
    have hmod := Nat.mod_lt b hpos
    rw [Nat.mul_comm] at hdiv
    rw [List.any_eq_false] at h
    have hblock := h (b % kern.group) (List.mem_range.mpr (by omega))
    rw [hdiv, Bool.not_eq_true] at hblock
    exact hblock
  · rw [Bool.or_eq_false_iff] at h
    exact h.2

end Kernel

/-! ## Blocks in order -/

/-- The scores of a block, past the last slot at negative infinity. -/
def blockScores (score : ℕ → Score) (n base : ℕ) : List Score :=
  (List.range 32).map fun lane => if base + lane < n then score (base + lane) else Score.negInf

def scanBlock (kern : Kernel) (buffered : Bool) (k : ℕ) (mask : Option (List UInt64)) (score : ℕ → Score)
    (n nBlocks : ℕ) (h : Heap) (b : ℕ) : Heap :=
  let base := b * 32
  let endLane := min (base + 32) n - base
  if kern.scans mask nBlocks b then
    match buffered, kern.collector with
    | true, some c =>
      updateBuffered c k (blockMaskWord mask base) (blockScores score n base) base endLane h
    | _, _ => update kern.epilogue k (allows mask) (blockScores score n base) base endLane h
  else h

/-- The blocks from `b0` up to `b1`. -/
def scanBlocks (kern : Kernel) (buffered : Bool) (k : ℕ) (mask : Option (List UInt64)) (score : ℕ → Score)
    (n nBlocks b0 b1 : ℕ) (seed : Score) : Heap :=
  (List.range' b0 (b1 - b0)).foldl (scanBlock kern buffered k mask score n nBlocks) ⟨[], seed, 0⟩

/-- The allowed slots from `lo` up to `hi`, scored. -/
def slots (allowed : ℕ → Bool) (score : ℕ → Score) (lo hi : ℕ) : List Entry :=
  ((List.range' lo (hi - lo)).filter allowed).map fun v => (score v, v)

section

variable {allowed : ℕ → Bool} {score : ℕ → Score} {lo hi : ℕ}

theorem slots_bounds {a : Entry} (ha : a ∈ slots allowed score lo hi) :
    lo ≤ a.2 ∧ a.2 < hi ∧ allowed a.2 = true ∧ a.1 = score a.2 := by
  obtain ⟨v, hv, rfl⟩ := List.mem_map.mp ha
  obtain ⟨hmem, hallowed⟩ := List.mem_filter.mp hv
  obtain ⟨h1, h2⟩ := List.mem_range'_1.mp hmem
  exact ⟨h1, by omega, hallowed, rfl⟩

theorem slots_append (mid : ℕ) (h1 : lo ≤ mid) (h2 : mid ≤ hi) :
    slots allowed score lo hi = slots allowed score lo mid ++ slots allowed score mid hi := by
  have hrange : List.range' lo (hi - lo) = List.range' lo (mid - lo) ++ List.range' mid (hi - mid) := by
    rw [show hi - lo = (mid - lo) + (hi - mid) by omega, ← List.range'_append_1,
      show lo + (mid - lo) = mid by omega]
  rw [slots, hrange, List.filter_append, List.map_append]
  rfl

theorem slots_none (h : ∀ v, lo ≤ v → v < hi → allowed v = false) : slots allowed score lo hi = [] := by
  rw [slots, List.map_eq_nil_iff, List.filter_eq_nil_iff]
  intro v hv
  obtain ⟨h1, h2⟩ := List.mem_range'_1.mp hv
  rw [h v h1 (by omega)]
  exact Bool.false_ne_true

theorem slots_one (v : ℕ) :
    slots allowed score v (v + 1) = if allowed v then [(score v, v)] else [] := by
  rw [slots, Nat.add_sub_cancel_left, List.range'_one]
  split
  · rename_i h
    rw [List.filter_cons_of_pos h]
    rfl
  · rename_i h
    rw [List.filter_cons_of_neg h]
    rfl

/-- Slots have distinct ranks. -/
theorem slots_nodup : ((slots allowed score lo hi).map rank).Nodup := by
  rw [slots, List.map_map]
  refine List.Nodup.map (fun v w hvw => ?_) ((List.nodup_range').filter _)
  have := congrArg (fun r => (ofLex r).2) hvw
  exact this

end

section Runs

variable {mask : Option (List UInt64)}
variable {score : ℕ → Score} {n lo : ℕ}

theorem length_blockScores (score : ℕ → Score) (n base : ℕ) : (blockScores score n base).length = 32 := by
  rw [blockScores, List.length_map, List.length_range]

/-- Lane after lane, what the heap has seen grows by a slot. -/
theorem foldl_visit_inv {Inv : List Entry → Heap → Prop} {step : Heap → Score → ℕ → Heap}
    (hstep : ∀ {seen h s v}, Inv seen h → (∀ a ∈ seen, a.2 < v) → Inv (seen ++ [(s, v)]) (step h s v))
    {base : ℕ} (hlo : lo ≤ base) {h : Heap} (hinv : Inv (slots (allows mask) score lo base) h) (j : ℕ)
    (hj : j ≤ 32) (hn : base + j ≤ n) : Inv (slots (allows mask) score lo (base + j))
      ((List.range j).foldl (visit step (allows mask) (blockScores score n base) base) h) := by
  induction j with
  | zero => exact hinv
  | succ j ih =>
    have ih := ih (by omega) (by omega)
    rw [List.range_succ, List.foldl_append, List.foldl_cons, List.foldl_nil, ← Nat.add_assoc,
      slots_append (base + j) (by omega) (by omega), slots_one]
    have hscore : (blockScores score n base).getD j Score.negInf = score (base + j) := by
      rw [blockScores, List.getD_eq_getElem?_getD, List.getElem?_map, List.getElem?_range (by omega)]
      exact if_pos (by omega)
    unfold visit
    rw [hscore]
    split
    · exact hstep ih fun a ha => (slots_bounds ha).2.1
    · rw [List.append_nil]
      exact ih

/-- Block after block, what the heap has seen grows by the slots of a block. -/
theorem scanBlocks_inv (Inv : List Entry → Heap → Prop) (step : Heap → Score → ℕ → Heap) {kern : Kernel} {buffered : Bool} {k nBlocks b0 : ℕ} {seed : Score}
    (hstep : ∀ {seen h s v}, Inv seen h → (∀ a ∈ seen, a.2 < v) → Inv (seen ++ [(s, v)]) (step h s v))
    (hblock : ∀ {seen h b endLane}, Inv seen h → endLane ≤ 32 → kern.scans mask nBlocks b = true →
      min (b * 32 + 32) n - b * 32 = endLane → scanBlock kern buffered k mask score n nBlocks h b =
        (List.range endLane).foldl (visit step (allows mask) (blockScores score n (b * 32)) (b * 32)) h)
    (hempty : Inv [] ⟨[], seed, 0⟩) (m : ℕ) (hm : b0 + m ≤ nBlocks) (hn : (b0 + m) * 32 < n + 32) :
    Inv (slots (allows mask) score (b0 * 32) (min ((b0 + m) * 32) n))
      (scanBlocks kern buffered k mask score n nBlocks b0 (b0 + m) seed) := by
  unfold scanBlocks
  rw [Nat.add_sub_cancel_left]
  induction m with
  | zero =>
    rw [slots_none fun v h1 h2 => by omega]
    exact hempty
  | succ m ih =>
    have ih := ih (by omega) (by omega)
    have hmin : min ((b0 + m) * 32) n = (b0 + m) * 32 := by omega
    rw [hmin] at ih
    rw [List.range'_1_concat, List.foldl_append, List.foldl_cons, List.foldl_nil]
    generalize (List.range' b0 m).foldl (scanBlock kern buffered k mask score n nBlocks) ⟨[], seed, 0⟩ = h
      at ih ⊢
    have hend : min ((b0 + (m + 1)) * 32) n =
        (b0 + m) * 32 + (min ((b0 + m) * 32 + 32) n - (b0 + m) * 32) := by omega
    rw [hend]
    cases hscan : kern.scans mask nBlocks (b0 + m) with
    | true =>
      rw [hblock ih (by omega) hscan rfl]
      exact foldl_visit_inv hstep (by omega) ih _ (by omega) (by omega)
    | false =>
      have hallowed := Kernel.blockHasAllowed_of_scans (by omega) hscan
      have hskip : scanBlock kern buffered k mask score n nBlocks h (b0 + m) = h := by
        unfold scanBlock
        dsimp only
        rw [hscan, if_neg Bool.false_ne_true]
      have hnone : slots (allows mask) score ((b0 + m) * 32)
          ((b0 + m) * 32 + (min ((b0 + m) * 32 + 32) n - (b0 + m) * 32)) = [] := by
        apply slots_none
        intro v h1 h2
        have := allows_of_block (by omega) (show v - (b0 + m) * 32 < 32 by omega) hallowed
        rwa [show (b0 + m) * 32 + (v - (b0 + m) * 32) = v by omega] at this
      rw [hskip, slots_append ((b0 + m) * 32) (by omega) (by omega), hnone, List.append_nil]
      exact ih

end Runs

section

variable {kern : Kernel} {buffered : Bool} {mask : Option (List UInt64)} {score : ℕ → Score}
variable {n nBlocks b0 b1 : ℕ}

/-- A scan into a heap keeps the first `k` of the range's allowed slots above the seed. -/
theorem scanBlocks_holds {k : ℕ} (hk : 0 < k) (hc : kern.collects buffered = false) (h01 : b0 ≤ b1)
    (h1 : b1 ≤ nBlocks) (hn : b1 * 32 < n + 32) (seed : Score) :
    Heap.Holds k seed (slots (allows mask) score (b0 * 32) (min (b1 * 32) n))
      (scanBlocks kern buffered k mask score n nBlocks b0 b1 seed) := by
  obtain ⟨m, rfl⟩ := Nat.exists_eq_add_of_le h01
  refine scanBlocks_inv (Heap.Holds k seed) (Heap.offer k) (fun hh hv => hh.offer hk hv) ?_
    (Heap.holds_empty hk seed 0) m h1 hn
  intro seen h b endLane hh hend hscan hlen
  have hmode : scanBlock kern buffered k mask score n nBlocks h b =
      update kern.epilogue k (allows mask) (blockScores score n (b * 32)) (b * 32) endLane h := by
    unfold scanBlock
    dsimp only
    rw [hscan, if_pos rfl, hlen]
    rw [Kernel.collects] at hc
    split
    · rename_i c hcol
      rw [hcol] at hc
      cases hc
    · rfl
  rw [hmode]
  exact update_eq _ hk hh.ok (by rw [length_blockScores]; exact hend) (length_blockScores _ _ _)

/-- A scan into a collector of capacity `2 * s` keeps the first `s`. -/
theorem scanBlocks_collects {s : ℕ} (hs : 0 < s) (hc : kern.collects buffered = true) (h01 : b0 ≤ b1)
    (h1 : b1 ≤ nBlocks) (hn : b1 * 32 < n + 32) (seed : Score) :
    Heap.Collects s seed (slots (allows mask) score (b0 * 32) (min (b1 * 32) n))
      (scanBlocks kern buffered (2 * s) mask score n nBlocks b0 b1 seed) := by
  obtain ⟨m, rfl⟩ := Nat.exists_eq_add_of_le h01
  refine scanBlocks_inv (Heap.Collects s seed) (Heap.collect (2 * s))
    (fun hh hv => hh.collect hs hv) ?_ (Heap.collects_empty hs seed 0) m h1 hn
  intro seen h b endLane hh hend hscan hlen
  obtain ⟨c, hcol⟩ : ∃ c, kern.collector = some c := by
    rw [Kernel.collects, Bool.and_eq_true] at hc
    exact Option.isSome_iff_exists.mp hc.2
  have hbuf : buffered = true := by
    rw [Kernel.collects, Bool.and_eq_true] at hc
    exact hc.1
  have hmode : scanBlock kern buffered (2 * s) mask score n nBlocks h b = updateBuffered c (2 * s)
      (blockMaskWord mask (b * 32)) (blockScores score n (b * 32)) (b * 32) endLane h := by
    unfold scanBlock
    dsimp only
    rw [hscan, if_pos rfl, hlen, hcol, hbuf]
  rw [hmode]
  exact updateBuffered_eq c hs hh.ok (by rw [length_blockScores]; exact hend) (length_blockScores _ _ _)
    fun lane hlane => blockMaskWord_testBit mask (by omega) hlane

end

end Turbovec.Scan
