import Turbovec.Lib.Slice
import Turbovec.Scan.Heap

/-!
# Scanning a range of blocks

The scores of a block of 32 lanes are folded into a heap, lanes in order, past those the mask leaves out.
The kernels skip what cannot enter: a block with no allowed lane, and with a full heap the lanes, or the
whole block, at or below its minimum.
-/

namespace Turbovec.Scan

open TopK Slice

/-! ## Masks -/

/-- `mask_allows` -/
def maskAllows (mask : List UInt64) (slot : ℕ) : Bool := (entry mask (slot / 64)).toNat.testBit (slot % 64)

def allows (mask : Option (List UInt64)) (slot : ℕ) : Bool :=
  match mask with
  | none => true
  | some m => maskAllows m slot

/-- Whether the mask leaves any lane of the block at `baseVec`. -/
def blockHasAllowed (mask : Option (List UInt64)) (baseVec : ℕ) : Bool :=
  match mask with
  | none => true
  | some m => decide ((entry m (baseVec / 64)).toNat >>> (baseVec % 64) % 2 ^ 32 ≠ 0)

theorem allows_of_block {mask : Option (List UInt64)} {base lane : ℕ} (hb : base % 32 = 0) (hl : lane < 32)
    (h : blockHasAllowed mask base = false) : allows mask (base + lane) = false := by
  cases mask with
  | none => cases h
  | some m =>
    rw [blockHasAllowed, decide_eq_false_iff_not, not_not] at h
    rw [allows, maskAllows]
    have hdiv : (base + lane) / 64 = base / 64 := by omega
    have hmod : (base + lane) % 64 = base % 64 + lane := by omega
    have hbit := congrArg (fun w => Nat.testBit w lane) h
    rw [Nat.testBit_mod_two_pow, Nat.testBit_shiftRight, Nat.zero_testBit, decide_eq_true hl,
      Bool.true_and] at hbit
    rw [hdiv, hmod]
    exact hbit

/-- Bit `lane` of the mask's window for the block at `baseVec`. -/
def blockMaskWord (mask : Option (List UInt64)) (baseVec : ℕ) : ℕ :=
  match mask with
  | none => 2 ^ 32 - 1
  | some m => (entry m (baseVec / 64)).toNat >>> (baseVec % 64) % 2 ^ 32

theorem blockMaskWord_testBit (mask : Option (List UInt64)) {base lane : ℕ} (hb : base % 32 = 0)
    (hl : lane < 32) : (blockMaskWord mask base).testBit lane = allows mask (base + lane) := by
  cases mask with
  | none =>
    rw [blockMaskWord, allows, Nat.testBit_two_pow_sub_one, decide_eq_true hl]
  | some m =>
    have hdiv : (base + lane) / 64 = base / 64 := by omega
    have hmod : (base + lane) % 64 = base % 64 + lane := by omega
    rw [blockMaskWord, allows, maskAllows, Nat.testBit_mod_two_pow, Nat.testBit_shiftRight,
      decide_eq_true hl, Bool.true_and, hdiv, hmod]

/-- A block's window is the window of its first slot onwards. -/
theorem allows_drop (mask : Option (List UInt64)) {start : ℕ} (hs : start % 64 = 0) (slot : ℕ) :
    allows (mask.map (List.drop (start / 64))) slot = allows mask (start + slot) := by
  cases mask with
  | none => rfl
  | some m =>
    rw [Option.map_some, allows, allows, maskAllows, maskAllows]
    have hdiv : (start + slot) / 64 = start / 64 + slot / 64 := by omega
    have hmod : (start + slot) % 64 = slot % 64 := by omega
    rw [hdiv, hmod, entry, entry, List.getElem?_drop]

/-! ## One block -/

/-- How a kernel folds a scored block into a heap: lane by lane; with NEON's whole-block maximum first; with
AVX's compares against the minimum the heap has before the block. -/
inductive Epilogue
  | scalar
  | neon
  | avx2
deriving DecidableEq, Repr

/-- How a kernel folds a scored block into a collector: `neon_block_topk_update`, the loop of
`scan_range_neon`, `avx512_post_flush_heap_update`. -/
inductive Collector
  | neon
  | neonRange
  | avx512
deriving DecidableEq, Repr

/-- One lane. -/
def visit (step : Heap → Score → ℕ → Heap) (allowed : ℕ → Bool) (block : List Score) (base : ℕ) (h : Heap)
    (lane : ℕ) : Heap :=
  if allowed (base + lane) then step h (block.getD lane Score.negInf) (base + lane) else h

/-- Eight lanes, and those of them below `endLane`. -/
def chunk (c : ℕ) : List ℕ := (List.range 8).map (c * 8 + ·)

def chunkTo (c endLane : ℕ) : List ℕ := (List.range (min (c * 8 + 8) endLane - c * 8)).map (c * 8 + ·)

/-- The lanes of a scored block into a heap: `score_query_into_heap`, `neon_block_topk_update` and
`avx2_post_flush_heap_update`. -/
def update (ep : Epilogue) (k : ℕ) (allowed : ℕ → Bool) (block : List Score) (base endLane : ℕ) (h : Heap) :
    Heap :=
  let above (lane : ℕ) : Bool := h.min.lt (block.getD lane Score.negInf)
  let enter := visit (Heap.offer k) allowed block base
  match ep with
  | .scalar => (List.range endLane).foldl enter h
  | .neon =>
    if h.entries.length ≥ k ∧ block.all fun s => s.le h.min then h
    else (List.range endLane).foldl enter h
  | .avx2 =>
    if h.entries.length ≥ k ∧ endLane = 32 then ((List.range 32).filter above).foldl enter h
    else if h.entries.length < k then (List.range endLane).foldl enter h
    else
      -- eight lanes at a time, a chunk with none above the minimum passed over
      (List.range 4).foldl (fun h' c =>
        if (chunk c).any above then (chunkTo c endLane).foldl enter h' else h') h

/-- The lanes of a scored block into a collector. `allowed` is the block's window of the mask. -/
def updateBuffered (c : Collector) (k : ℕ) (allowed : ℕ) (block : List Score) (base endLane : ℕ) (h : Heap) :
    Heap :=
  let above (lane : ℕ) : Bool := h.min.lt (block.getD lane Score.negInf)
  let enter := visit (Heap.collect k) (fun v => allowed.testBit (v - base)) block base
  match c with
  | .neon =>
    if block.all fun s => s.le h.min then h
    else ((List.range 32).filter above).foldl (fun h' lane => if lane < endLane then enter h' lane else h') h
  | .neonRange => if block.all fun s => s.le h.min then h else (List.range endLane).foldl enter h
  | .avx512 =>
    ((List.range endLane).filter fun lane => above lane && allowed.testBit lane).foldl (fun h' lane =>
      h'.collect k (block.getD lane Score.negInf) (base + lane)) h

/-- Steps that pass over what is at or below the minimum and never lower it. -/
structure Steps (step : Heap → Score → ℕ → Heap) (I : Heap → Prop) : Prop where
  le : ∀ {h : Heap} {s : Score} {v : ℕ}, s.key ≤ h.min.key → step h s v = h
  keep : ∀ {h : Heap}, I h → ∀ (s : Score) (v : ℕ), I (step h s v) ∧ h.min.key ≤ (step h s v).min.key

theorem offer_steps {k : ℕ} (hk : 0 < k) :
    Steps (Heap.offer k) fun h => h.Ok k ∧ h.entries.length = k where
  le hs := Heap.offer_le hs
  keep hI s v := by
    obtain ⟨hok, hlen, hmin⟩ := Heap.offer_full hk hI.1 hI.2 s v
    exact ⟨⟨hok, hlen⟩, hmin⟩

theorem collect_steps {n : ℕ} (hn : 0 < n) : Steps (Heap.collect (2 * n)) (Heap.Above n) where
  le hs := Heap.collect_le hs
  keep hI s v := hI.collect hn s v

section Update

variable {step : Heap → Score → ℕ → Heap} {I : Heap → Prop} {allowed : ℕ → Bool} {block : List Score}
variable {base : ℕ} {h : Heap}

theorem visit_le (hstep : Steps step I) {lane : ℕ} (hs : (block.getD lane Score.negInf).key ≤ h.min.key) :
    visit step allowed block base h lane = h := by
  unfold visit
  split
  · exact hstep.le hs
  · rfl

theorem visit_keep (allowed : ℕ → Bool) (block : List Score) (base : ℕ) (hstep : Steps step I) (hI : I h) (lane : ℕ) :
    I (visit step allowed block base h lane) ∧
      h.min.key ≤ (visit step allowed block base h lane).min.key := by
  unfold visit
  split
  · exact hstep.keep hI _ _
  · exact ⟨hI, le_rfl⟩

/-- Lanes at or below the minimum may be passed over. -/
theorem foldl_visit_filter (hstep : Steps step I) {m : ℤ} (keep : ℕ → Bool)
    (hkeep : ∀ lane, keep lane = false → (block.getD lane Score.negInf).key ≤ m) (lanes : List ℕ) {h : Heap}
    (hI : I h) (hm : m ≤ h.min.key) :
    (lanes.filter keep).foldl (visit step allowed block base) h =
      lanes.foldl (visit step allowed block base) h := by
  induction lanes generalizing h with
  | nil => rfl
  | cons lane lanes ih =>
    cases hl : keep lane with
    | false =>
      rw [List.filter_cons_of_neg (by rw [hl]; exact Bool.false_ne_true), List.foldl_cons,
        visit_le hstep ((hkeep lane hl).trans hm)]
      exact ih hI hm
    | true =>
      rw [List.filter_cons_of_pos hl, List.foldl_cons, List.foldl_cons]
      obtain ⟨hI', hm'⟩ := visit_keep allowed block base hstep hI lane
      exact ih hI' (hm.trans hm')

/-- A run of lanes at or below the minimum changes nothing. -/
theorem foldl_visit_none (hstep : Steps step I) {m : ℤ} (lanes : List ℕ)
    (hlanes : ∀ lane ∈ lanes, (block.getD lane Score.negInf).key ≤ m) {h : Heap} (hm : m ≤ h.min.key) :
    lanes.foldl (visit step allowed block base) h = h := by
  induction lanes with
  | nil => rfl
  | cons lane lanes ih =>
    rw [List.foldl_cons, visit_le hstep ((hlanes lane List.mem_cons_self).trans hm)]
    exact ih fun l hl => hlanes l (List.mem_cons_of_mem lane hl)

/-- A block whose maximum does not beat the minimum changes nothing. -/
theorem foldl_visit_block (hstep : Steps step I) (hblock : block.all fun s => s.le h.min) {endLane : ℕ}
    (hend : endLane ≤ block.length) : (List.range endLane).foldl (visit step allowed block base) h = h := by
  refine foldl_visit_none hstep _ (fun lane hlane => ?_) le_rfl
  have hlt : lane < block.length := (List.mem_range.mp hlane).trans_le hend
  rw [List.getD_eq_getElem?_getD, List.getElem?_eq_getElem hlt, Option.getD_some]
  exact Score.le_iff.mp (List.all_eq_true.mp hblock _ (List.getElem_mem hlt))

theorem le_of_not_above {lane : ℕ} (hlt : h.min.lt (block.getD lane Score.negInf) = false) :
    (block.getD lane Score.negInf).key ≤ h.min.key := by
  rw [← Bool.not_eq_true, Score.lt_iff] at hlt
  omega

theorem range_chunk (n endLane : ℕ) : List.range (min ((n + 1) * 8) endLane) =
    List.range (min (n * 8) endLane) ++ chunkTo n endLane := by
  unfold chunkTo
  by_cases hn : n * 8 ≤ endLane
  · rw [Nat.min_eq_left hn, ← List.range_add]
    congr 1
    omega
  · rw [show min ((n + 1) * 8) endLane = min (n * 8) endLane by omega,
      show min (n * 8 + 8) endLane - n * 8 = 0 by omega, List.range_zero, List.map_nil, List.append_nil]

/-- The chunks with a lane above the minimum, in turn: the lanes of such chunks. -/
theorem foldl_chunks (above : ℕ → Bool) (n : ℕ) {endLane : ℕ} : (List.range n).foldl (fun h' c =>
      if (chunk c).any above then (chunkTo c endLane).foldl (visit step allowed block base) h' else h') h =
    ((List.range (min (n * 8) endLane)).filter fun lane => (chunk (lane / 8)).any above).foldl
      (visit step allowed block base) h := by
  induction n with
  | zero =>
    rw [Nat.zero_mul, Nat.zero_min]
    rfl
  | succ n ih =>
    have hconst : ∀ lane ∈ chunkTo n endLane, (chunk (lane / 8)).any above = (chunk n).any above := by
      intro lane hlane
      obtain ⟨j, hj, rfl⟩ := List.mem_map.mp hlane
      have hj := List.mem_range.mp hj
      rw [show (n * 8 + j) / 8 = n by omega]
    rw [List.range_succ, List.foldl_append, ih, List.foldl_cons, List.foldl_nil, range_chunk,
      List.filter_append, List.foldl_append]
    split
    · rename_i hany
      rw [List.filter_eq_self.mpr fun lane hlane => (hconst lane hlane).trans hany]
    · rename_i hany
      rw [Bool.not_eq_true] at hany
      have hnil : ((chunkTo n endLane).filter fun lane => (chunk (lane / 8)).any above) = [] := by
        rw [List.filter_eq_nil_iff]
        intro lane hlane
        rw [hconst lane hlane, hany]
        exact Bool.false_ne_true
      rw [hnil]
      rfl

/-- Every heap epilogue is the lane-by-lane one. -/
theorem update_eq (ep : Epilogue) {k : ℕ} (hk : 0 < k) (hok : h.Ok k) {endLane : ℕ}
    (hend : endLane ≤ block.length) (hblock : block.length = 32) : update ep k allowed block base endLane h =
      (List.range endLane).foldl (visit (Heap.offer k) allowed block base) h := by
  have hlen := hok.len
  have hstep := offer_steps hk
  cases ep with
  | scalar => rfl
  | neon =>
    unfold update
    dsimp only
    split
    · rename_i hprune
      exact (foldl_visit_block hstep hprune.2 hend).symm
    · rfl
  | avx2 =>
    unfold update
    dsimp only
    split
    · rename_i hfull
      rw [hfull.2]
      exact foldl_visit_filter hstep _ (fun lane => le_of_not_above) _ ⟨hok, by omega⟩ le_rfl
    · split
      · rfl
      · rename_i hpart hnot
        have hfull : h.entries.length = k := by omega
        rw [foldl_chunks (fun lane => h.min.lt (block.getD lane Score.negInf)) 4,
          Nat.min_eq_right (by omega)]
        refine foldl_visit_filter hstep _ (fun lane hlane => ?_) _ ⟨hok, hfull⟩ le_rfl
        apply le_of_not_above
        rw [List.any_eq_false] at hlane
        have := hlane lane (List.mem_map.mpr ⟨lane % 8, List.mem_range.mpr (by omega), by omega⟩)
        rwa [Bool.not_eq_true] at this

theorem range_filter {n m : ℕ} (h : m ≤ n) : (List.range n).filter (fun i => decide (i < m)) = List.range m := by
  rw [show n = m + (n - m) by omega, List.range_add, List.filter_append]
  have hlow : (List.range m).filter (fun i => decide (i < m)) = List.range m := by
    rw [List.filter_eq_self]
    intro i hi
    exact decide_eq_true (List.mem_range.mp hi)
  have hhigh : ((List.range (n - m)).map (m + ·)).filter (fun i => decide (i < m)) = [] := by
    rw [List.filter_eq_nil_iff]
    intro i hi
    obtain ⟨j, -, rfl⟩ := List.mem_map.mp hi
    rw [decide_eq_true_iff]
    omega
  rw [hlow, hhigh, List.append_nil]

/-- Every buffered epilogue is the lane-by-lane one. -/
theorem updateBuffered_eq (c : Collector) {n : ℕ} (hn : 0 < n) (habove : h.Above n) {endLane : ℕ}
    (hend : endLane ≤ block.length) (hblock : block.length = 32) {window : ℕ}
    (hwindow : ∀ lane < 32, window.testBit lane = allowed (base + lane)) :
    updateBuffered c (2 * n) window block base endLane h =
      (List.range endLane).foldl (visit (Heap.collect (2 * n)) allowed block base) h := by
  have hstep := collect_steps hn
  have hend' : endLane ≤ 32 := by omega
  have hvisit : ∀ (h' : Heap), ∀ lane < 32,
      visit (Heap.collect (2 * n)) (fun v => window.testBit (v - base)) block base h' lane =
        visit (Heap.collect (2 * n)) allowed block base h' lane := by
    intro h' lane hlane
    unfold visit
    simp only [Nat.add_sub_cancel_left, hwindow lane hlane]
  cases c with
  | neon =>
    unfold updateBuffered
    dsimp only
    split
    · rename_i hprune
      exact (foldl_visit_block hstep hprune hend).symm
    · rw [← foldl_visit_filter hstep _ (fun lane => le_of_not_above) _ habove le_rfl, ← range_filter hend',
        List.filter_comm, List.foldl_filter (p := fun lane => decide (lane < endLane))]
      apply List.foldl_ext
      intro h' lane hlane
      have := List.mem_range.mp (List.mem_filter.mp hlane).1
      rw [hvisit h' lane this]
      simp only [decide_eq_true_eq]
  | neonRange =>
    unfold updateBuffered
    dsimp only
    split
    · rename_i hprune
      exact (foldl_visit_block hstep hprune hend).symm
    · apply List.foldl_ext
      intro h' lane hlane
      have := List.mem_range.mp hlane
      exact hvisit h' lane (by omega)
  | avx512 =>
    unfold updateBuffered
    dsimp only
    rw [← foldl_visit_filter hstep _ (fun lane => le_of_not_above) _ habove le_rfl, ← List.filter_filter,
      List.filter_comm, List.foldl_filter]
    apply List.foldl_ext
    intro h' lane hlane
    have := List.mem_range.mp (List.mem_filter.mp hlane).1
    rw [hwindow lane (by omega)]
    rfl

end Update

end Turbovec.Scan
