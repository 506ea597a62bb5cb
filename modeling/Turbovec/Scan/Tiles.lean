import Turbovec.Scan.Dispatch

/-!
# What a dispatch merges

The ranges of a partition cover the slots once, in order, so the ranges' entries together keep the first of
all allowed slots above the starting threshold, however the blocks and the queries were cut.
-/

namespace Turbovec.Scan

open TopK Slice Pack

/-! ## Strides -/

theorem divCeil_le (a : ℕ) {b : ℕ} (hb : 0 < b) : a ≤ divCeil a b * b := by
  have hdiv := Nat.div_add_mod (a + b - 1) b
  have hmod := Nat.mod_lt (a + b - 1) hb
  rw [Nat.mul_comm] at hdiv
  unfold divCeil
  omega

theorem mul_lt_of_lt_divCeil {a b i : ℕ} (hb : 0 < b) (hi : i < divCeil a b) : i * b < a := by
  have hle := Nat.div_mul_le_self (a + b - 1) b
  have hmul := Nat.mul_le_mul_right b (Nat.succ_le_of_lt hi)
  rw [Nat.succ_mul] at hmul
  unfold divCeil at hmul
  omega

theorem mem_stepBy {n s b : ℕ} (hs : 0 < s) (hb : b ∈ stepBy n s) : b < n ∧ s ∣ b := by
  obtain ⟨i, hi, rfl⟩ := List.mem_map.mp hb
  exact ⟨mul_lt_of_lt_divCeil hs (List.mem_range.mp hi), Nat.dvd_mul_left s i⟩

/-- Ranges of `s` blocks cover the slots in order. -/
theorem slots_stepBy {allowed : ℕ → Bool} {score : ℕ → Score} {n N s : ℕ} (hs : 0 < s) (hn : n ≤ N * 32) :
    slots allowed score 0 n =
      (stepBy N s).flatMap fun b => slots allowed score (b * 32) (min ((b + s) * 32) n) := by
  have hrun : ∀ m, slots allowed score 0 (min (m * s * 32) n) =
      (List.range m).flatMap fun i => slots allowed score (i * s * 32) (min ((i * s + s) * 32) n) := by
    intro m
    induction m with
    | zero =>
      rw [slots_none fun v h1 h2 => by omega]
      rfl
    | succ m ih =>
      have hmul : (m + 1) * s = m * s + s := Nat.succ_mul m s
      rw [List.range_succ, List.flatMap_append, List.flatMap_cons, List.flatMap_nil, List.append_nil, ← ih, hmul]
      by_cases hm : m * s * 32 ≤ n
      · rw [Nat.min_eq_left hm]
        exact slots_append _ (Nat.zero_le _) (by omega)
      · have hnone : slots allowed score (m * s * 32) (min ((m * s + s) * 32) n) = [] :=
          slots_none fun v h1 h2 => by omega
        rw [hnone, List.append_nil]
        congr 1
        omega
  have hcover : N ≤ divCeil N s * s := divCeil_le N hs
  have hall := hrun (divCeil N s)
  rw [show min (divCeil N s * s * 32) n = n by omega] at hall
  rw [hall, stepBy, List.flatMap_map]

/-! ## Ranges -/

/-- The scores of a range, counted from its start. -/
theorem slots_rebase (allowed : ℕ → Bool) (score : ℕ → Score) (start len : ℕ) :
    rebase start (slots (fun v => allowed (start + v)) (fun v => score (start + v)) 0 len) =
      slots allowed score start (start + len) := by
  have hrange : List.range' start len = (List.range' 0 len).map (start + ·) := by
    rw [List.map_add_range', Nat.add_zero]
  rw [rebase, slots, slots, Nat.sub_zero, Nat.add_sub_cancel_left, hrange, List.filter_map, List.map_map,
    List.map_map]
  apply List.map_congr_left
  intro v _
  rw [Function.comp_apply, Function.comp_apply, Nat.add_comm v start]

theorem rebase_filter (start : ℕ) (seed : Score) (l : List Entry) :
    (rebase start l).filter (fun e => seed.lt e.1) = rebase start (l.filter fun e => seed.lt e.1) := by
  rw [rebase, List.filter_map]
  rfl

theorem Keeps.rebase {K start : ℕ} {l c : List Entry} (h : Keeps rank K l c) :
    Keeps rank K (rebase start l) (rebase start c) := by
  apply h.map
  intro a b
  rw [rank_le, rank_le]
  dsimp only
  omega

/-- A heap of capacity `K`, or a collector of twice that. -/
def Kernel.Capacity (kern : Kernel) (buffered : Bool) (k K : ℕ) : Prop :=
  (kern.collects buffered = false ∧ k = K) ∨ (kern.collects buffered = true ∧ k = 2 * K)

section

variable {kern : Kernel} {buffered : Bool} {k K : ℕ} {mask : Option (List UInt64)} {score : ℕ → Score}

theorem scanBlocks_keeps (mask : Option (List UInt64)) (score : ℕ → Score) {n nBlocks b0 b1 : ℕ} (hK : 0 < K) (hcap : kern.Capacity buffered k K)
    (h01 : b0 ≤ b1) (h1 : b1 ≤ nBlocks) (hn : b1 * 32 < n + 32) (seed : Score) :
    Keeps rank K ((slots (allows mask) score (b0 * 32) (min (b1 * 32) n)).filter fun e => seed.lt e.1)
      (scanBlocks kern buffered k mask score n nBlocks b0 b1 seed).entries := by
  rcases hcap with ⟨hc, rfl⟩ | ⟨hc, rfl⟩
  · exact (scanBlocks_holds hK hc h01 h1 hn seed).keeps
  · exact (scanBlocks_collects hK hc h01 h1 hn seed).keeps

/-- A range scanned from its own start. -/
theorem range_keeps {mask' : Option (List UInt64)} {start len nb : ℕ} (hK : 0 < K)
    (hcap : kern.Capacity buffered k K) (hmask : ∀ v, allows mask' v = allows mask (start + v))
    (hle : len ≤ nb * 32) (hlt : nb * 32 < len + 32) (seed : Score) :
    Keeps rank K ((slots (allows mask) score start (start + len)).filter fun e => seed.lt e.1)
      (rebase start (scanBlocks kern buffered k mask' (fun v => score (start + v)) len nb 0 nb seed).entries) := by
  have hkeeps := scanBlocks_keeps mask' (fun v => score (start + v)) hK hcap (Nat.zero_le nb) le_rfl hlt seed
  rw [Nat.zero_mul, Nat.min_eq_right hle, show allows mask' = fun v => allows mask (start + v) from funext hmask]
    at hkeeps
  rw [← slots_rebase, rebase_filter]
  exact Keeps.rebase hkeeps

end

/-- The blocks and the slots of the range at block `b`. -/
theorem range_bounds (n per : ℕ) {b : ℕ} (hb : b < max (divCeil n 32) 1) :
    min (min per (divCeil n 32 - b) * 32) (n - b * 32) ≤ min per (divCeil n 32 - b) * 32 ∧
      min per (divCeil n 32 - b) * 32 < min (min per (divCeil n 32 - b) * 32) (n - b * 32) + 32 ∧
      b * 32 + min (min per (divCeil n 32 - b) * 32) (n - b * 32) = min ((b + per) * 32) n := by
  have hdiv : divCeil n 32 = (n + 31) / 32 := rfl
  rw [hdiv] at hb ⊢
  omega

/-! ## Merging -/

/-- Only the batch a query is in has candidates of it. -/
theorem flatMap_stepBy_single {nq w q : ℕ} (hw : 0 < w) (hq : q < nq) (f : ℕ → List Entry)
    (hf : ∀ q0, w ∣ q0 → ¬(q0 ≤ q ∧ q < q0 + w) → f q0 = []) : (stepBy nq w).flatMap f = f (q / w * w) := by
  have hrun : ∀ m, (List.range m).flatMap (fun i => f (i * w)) = if q / w < m then f (q / w * w) else [] := by
    intro m
    induction m with
    | zero => rfl
    | succ m ih =>
      rw [List.range_succ, List.flatMap_append, List.flatMap_cons, List.flatMap_nil, List.append_nil, ih]
      rcases Nat.lt_trichotomy (q / w) m with hlt | heq | hgt
      · have hnil : f (m * w) = [] := by
          apply hf _ (Nat.dvd_mul_left w m)
          have := (Nat.div_lt_iff_lt_mul hw).mp hlt
          omega
        rw [if_pos hlt, if_pos (by omega), hnil, List.append_nil]
      · rw [if_neg (by omega), if_pos (by omega), List.nil_append, heq]
      · have hnil : f (m * w) = [] := by
          apply hf _ (Nat.dvd_mul_left w m)
          have := (Nat.le_div_iff_mul_le hw).mp (Nat.succ_le_of_lt hgt)
          rw [Nat.succ_mul] at this
          omega
        rw [if_neg (by omega), if_neg (by omega), List.nil_append, hnil]
  rw [stepBy, List.flatMap_map, hrun, if_pos]
  have hle := divCeil_le nq hw
  rw [Nat.div_lt_iff_lt_mul hw]
  omega

theorem extend_getElem? (q0 : ℕ) (cands : List (List Entry)) (merged : List (List Entry)) (m q : ℕ) :
    ((List.range m).foldl (fun merged off => merged.modify (q0 + off) (· ++ cands.getD off [])) merged)[q]? =
      merged[q]?.map fun row => row ++ if q0 ≤ q ∧ q < q0 + m then cands.getD (q - q0) [] else [] := by
  induction m with
  | zero =>
    rw [List.range_zero, List.foldl_nil, if_neg (by omega)]
    simp only [List.append_nil, Option.map_id']
  | succ m ih =>
    rw [List.range_succ, List.foldl_append, List.foldl_cons, List.foldl_nil, List.getElem?_modify, ih,
      Option.map_eq_map, Option.map_map]
    congr 1
    funext row
    rw [Function.comp_apply]
    by_cases heq : q0 + m = q
    · rw [if_pos heq, if_neg (by omega), if_pos (by omega), List.append_nil, ← heq, Nat.add_sub_cancel_left]
    · have hiff : (q0 ≤ q ∧ q < q0 + m) ↔ q0 ≤ q ∧ q < q0 + (m + 1) := by omega
      rw [if_neg heq]
      simp only [hiff]

/-- A query's candidates, tile after tile. -/
theorem mergeTiles_getElem? {nq q : ℕ} (hq : q < nq) (results : List (ℕ × List (List Entry))) :
    (mergeTiles nq results)[q]? = some (results.flatMap fun r =>
      if r.1 ≤ q ∧ q < r.1 + r.2.length then r.2.getD (q - r.1) [] else []) := by
  have hrun : ∀ merged : List (List Entry),
      (results.foldl (fun merged r => (List.range r.2.length).foldl (fun merged off =>
        merged.modify (r.1 + off) (· ++ r.2.getD off [])) merged) merged)[q]? =
      merged[q]?.map fun row => row ++ results.flatMap fun r =>
        if r.1 ≤ q ∧ q < r.1 + r.2.length then r.2.getD (q - r.1) [] else [] := by
    induction results with
    | nil =>
      intro merged
      simp only [List.foldl_nil, List.flatMap_nil, List.append_nil, Option.map_id']
    | cons r results ih =>
      intro merged
      rw [List.foldl_cons, ih, extend_getElem?, Option.map_map]
      congr 1
      funext row
      rw [Function.comp_apply, List.flatMap_cons, List.append_assoc]
  rw [mergeTiles, hrun, List.getElem?_replicate, if_pos hq]
  rfl

theorem length_mergeTiles (nq : ℕ) (results : List (ℕ × List (List Entry))) :
    (mergeTiles nq results).length = nq := by
  have hinner : ∀ (q0 : ℕ) (cands merged : List (List Entry)) (m : ℕ), ((List.range m).foldl (fun merged off =>
      merged.modify (q0 + off) (· ++ cands.getD off [])) merged).length = merged.length := by
    intro q0 cands merged m
    induction m with
    | zero => rfl
    | succ m ih =>
      rw [List.range_succ, List.foldl_append, List.foldl_cons, List.foldl_nil, List.length_modify, ih]
  have hrun : ∀ merged : List (List Entry),
      (results.foldl (fun merged r => (List.range r.2.length).foldl (fun merged off =>
        merged.modify (r.1 + off) (· ++ r.2.getD off [])) merged) merged).length = merged.length := by
    induction results with
    | nil =>
      intro merged
      rfl
    | cons r results ih =>
      intro merged
      rw [List.foldl_cons, ih, hinner]
  rw [mergeTiles, hrun, List.length_replicate]

namespace Task

section

variable {H : Host} {T : Task} {K : ℕ}

/-- The allowed slots above a threshold. -/
def eligible (T : Task) (q : ℕ) (seed : Score) : List Entry :=
  (slots (allows T.mask) (T.score q) 0 T.nVectors).filter fun e => seed.lt e.1

theorem nVectors_le (T : Task) : T.nVectors ≤ T.nBlocks * 32 := divCeil_le _ (by decide)

/-- The ranges' parts of a query, kept, keep the query. -/
theorem eligible_keeps {N per q : ℕ} {seed : Score} (hN : T.nVectors ≤ N * 32) (hper : 0 < per)
    {c : ℕ → List Entry} (hc : ∀ b ∈ stepBy N per, Keeps rank K
      ((slots (allows T.mask) (T.score q) (b * 32) (min ((b + per) * 32) T.nVectors)).filter
        fun e => seed.lt e.1) (c b)) :
    Keeps rank K (T.eligible q seed) ((stepBy N per).flatMap c) := by
  rw [eligible, slots_stepBy hper hN, List.filter_flatMap]
  exact Keeps.flatMap _ hc

/-- A single query's ranges start on a mask word. -/
theorem singleCandidates_keeps {kern : Kernel} (hK : 0 < K) (hcap : kern.Capacity T.buffered T.k K) :
    Keeps rank K (T.eligible 0 (T.seedLate.getD (T.seedOf 0))) (T.singleCandidates H kern) := by
  unfold singleCandidates
  dsimp only
  generalize T.seedLate.getD (T.seedOf 0) = seed
  generalize (singleQueryWorkers H.threads T.mask T.nBlocks *
    if T.buffered = true ∧ singleQueryWorkers H.threads T.mask T.nBlocks > 1 then PLANES_PIECES_PER_WORKER
    else 1) = pieces
  obtain ⟨hper, heven⟩ : 0 < blockRangeStride T.nBlocks pieces ∧ 2 ∣ blockRangeStride T.nBlocks pieces := by
    unfold blockRangeStride
    dsimp only
    omega
  generalize blockRangeStride T.nBlocks pieces = per at hper heven
  apply eligible_keeps T.nVectors_le hper
  intro b hb
  obtain ⟨hlt, hdvd⟩ := mem_stepBy hper hb
  obtain ⟨hle, hlast, hend⟩ := range_bounds T.nVectors per (b := b) (lt_max_of_lt_left hlt)
  have hword : b * 32 % 64 = 0 := by
    have := heven.trans hdvd
    omega
  rw [← hend]
  exact range_keeps hK hcap (fun v => allows_drop T.mask hword v) hle hlast seed

/-- The candidates of a query of a batch, range after range. -/
theorem mergeTiles_tiles {w per : ℕ} (hw : 0 < w) (tile : ℕ × ℕ → ℕ × List (List Entry))
    (e : ℕ → ℕ → ℕ → List Entry)
    (htile : ∀ q0 b, tile (q0, b) = (q0, (List.range (min (q0 + w) T.nq - q0)).map fun off => e q0 off b)) :
    mergeTiles T.nq ((T.tiles w per).map tile) = (List.range T.nq).map fun q =>
      (stepBy (max T.nBlocks 1) per).flatMap fun b => e (q / w * w) (q - q / w * w) b := by
  apply List.ext_getElem?
  intro q
  rcases Nat.lt_or_ge q T.nq with hq | hq
  · rw [mergeTiles_getElem? hq, List.getElem?_map, List.getElem?_range hq, Option.map_some, tiles,
      List.flatMap_map, List.flatMap_assoc]
    congr 1
    apply List.flatMap_congr
    intro b _
    have hle : q / w * w ≤ q := Nat.div_mul_le_self q w
    have hlt : q < q / w * w + w := by
      have hdiv := Nat.div_add_mod q w
      have hmod := Nat.mod_lt q hw
      rw [Nat.mul_comm] at hdiv
      omega
    rw [List.flatMap_map, flatMap_stepBy_single hw hq]
    · rw [htile]
      dsimp only
      rw [List.length_map, List.length_range, if_pos (by omega), List.getD_eq_getElem?_getD,
        List.getElem?_map, List.getElem?_range (by omega)]
      rfl
    · intro q0 _ hout
      rw [htile]
      dsimp only
      rw [List.length_map, List.length_range, if_neg (by omega)]
  · rw [List.getElem?_eq_none (by rw [length_mergeTiles]; exact hq),
      List.getElem?_eq_none (by rw [List.length_map, List.length_range]; exact hq)]

/-! ## Batches -/

theorem blocksPerRange_pos (H : Host) (T : Task) (width tilesPerThread minTileBlocks : ℕ) (serial : Bool) :
    0 < T.blocksPerRange H width tilesPerThread minTileBlocks serial := by
  unfold blocksPerRange
  dsimp only
  omega

/-- One range of a batch covers the blocks. -/
theorem blocksPerRange_of_one {H : Host} {T : Task} {width tilesPerThread minTileBlocks : ℕ} {serial : Bool}
    (hone : nBlockRanges T.nq (max (divCeil T.nq width) 1) T.nBlocks T.nVectors (T.kCap H) (max H.threads 1)
      tilesPerThread minTileBlocks serial = 1) :
    T.nBlocks ≤ T.blocksPerRange H width tilesPerThread minTileBlocks serial := by
  unfold blocksPerRange
  dsimp only
  have hsmooth : smoothTileCount 1 (max (divCeil T.nq width) 1) (max H.threads 1) = 1 := by
    unfold smoothTileCount
    dsimp only
    split
    · rename_i h
      rw [Nat.div_eq_of_lt (by omega)]
      rfl
    · rfl
  rw [hone, hsmooth]
  have hdiv : divCeil T.nBlocks 1 = T.nBlocks := by
    unfold divCeil
    omega
  omega

/-- A serial batch has one range. -/
theorem blocksPerRange_serial (H : Host) (T : Task) (width tilesPerThread minTileBlocks : ℕ) :
    T.nBlocks ≤ T.blocksPerRange H width tilesPerThread minTileBlocks true := by
  apply blocksPerRange_of_one
  unfold nBlockRanges
  rw [if_pos (Or.inr (Or.inl rfl))]

/-- A tile's queries keep the first of its range, so a query's tiles keep the first of all. -/
theorem batch_rows {w per : ℕ} (hw : 0 < w) (hper : 0 < per) {tile : ℕ × ℕ → ℕ × List (List Entry)}
    {e : ℕ → ℕ → ℕ → List Entry}
    (htile : ∀ q0 b, tile (q0, b) = (q0, (List.range (min (q0 + w) T.nq - q0)).map fun off => e q0 off b))
    (he : ∀ q0 off b, off < min (q0 + w) T.nq - q0 → b ∈ stepBy (max T.nBlocks 1) per → Keeps rank K
      ((slots (allows T.mask) (T.score (q0 + off)) (b * 32) (min ((b + per) * 32) T.nVectors)).filter
        fun a => (T.seedOf (q0 + off)).lt a.1) (e q0 off b)) :
    ∃ cands : ℕ → List Entry, (mergeTiles T.nq ((T.tiles w per).map tile)).map (mergeOne T.buffered T.k) =
        (List.range T.nq).map (fun q => mergeOne T.buffered T.k (cands q)) ∧
      ∀ q < T.nq, Keeps rank K (T.eligible q (T.seedOf q)) (cands q) := by
  refine ⟨fun q => (stepBy (max T.nBlocks 1) per).flatMap fun b => e (q / w * w) (q - q / w * w) b, ?_,
    fun q hq => ?_⟩
  · rw [mergeTiles_tiles hw tile e htile, List.map_map]
    rfl
  · have hn := T.nVectors_le
    apply eligible_keeps (by omega) hper
    intro b hb
    have hle : q / w * w ≤ q := Nat.div_mul_le_self q w
    have hlt : q < q / w * w + w := by
      have hdiv := Nat.div_add_mod q w
      have hmod := Nat.mod_lt q hw
      rw [Nat.mul_comm] at hdiv
      omega
    have hkeeps := he (q / w * w) (q - q / w * w) b (by omega) hb
    rw [Nat.add_sub_cancel' hle] at hkeeps
    exact hkeeps

/-- A block a range starts at is one of the scan's. -/
theorem start_lt {per b : ℕ} (hper : 0 < per) (hb : b ∈ stepBy (max T.nBlocks 1) per) :
    b < max (divCeil T.nVectors 32) 1 := (mem_stepBy hper hb).1

theorem neonTile_keeps {per : ℕ} (hK : 0 < K) (hcap : Kernel.neon.Capacity T.buffered T.k K) (hper : 0 < per)
    {q b : ℕ} (hb : b ∈ stepBy (max T.nBlocks 1) per) : Keeps rank K
      ((slots (allows T.mask) (T.score q) (b * 32) (min ((b + per) * 32) T.nVectors)).filter
        fun a => (T.seedOf q).lt a.1)
      (scanBlocks .neon T.buffered T.k T.mask (T.score q) T.nVectors T.nBlocks b (min (b + per) T.nBlocks)
        (T.seedOf q)).entries := by
  have hlt := start_lt hper hb
  have hN : T.nBlocks = (T.nVectors + 31) / 32 := rfl
  have hdiv : divCeil T.nVectors 32 = (T.nVectors + 31) / 32 := rfl
  rw [hdiv] at hlt
  have hend : min ((b + per) * 32) T.nVectors = min (min (b + per) T.nBlocks * 32) T.nVectors := by omega
  rw [hend]
  exact scanBlocks_keeps T.mask (T.score q) hK hcap (by omega) (Nat.min_le_right _ _) (by omega) (T.seedOf q)

/-- What a query of an x86 tile is given. -/
def x86Entries (H : Host) (T : Task) (w per q0 off b : ℕ) : List Entry :=
  let qiEnd := min (q0 + w) T.nq
  let lane := if q0 + off < qiEnd then q0 + off else qiEnd - 1
  let kern := x86Kernel H false (qiEnd - q0)
  let rangeBlocks := min per (T.nBlocks - b)
  rebase (b * 32) <|
    if off < x86Served H w (qiEnd - q0) then
      if kern = .scalar then
        (scanBlocks kern T.buffered T.k T.mask (T.score lane) T.nVectors T.nBlocks 0 T.nBlocks
          (T.seedOf (q0 + off))).entries
      else
        (scanBlocks kern T.buffered T.k T.mask (fun v => T.score lane (b * 32 + v))
          (min (rangeBlocks * 32) (T.nVectors - b * 32)) rangeBlocks 0 rangeBlocks (T.seedOf (q0 + off))).entries
    else []

theorem x86Tile_eq (w per q0 b : ℕ) : T.x86Tile H w per (q0, b) =
    (q0, (List.range (min (q0 + w) T.nq - q0)).map fun off => T.x86Entries H w per q0 off b) := rfl

theorem nqBatch_cases (H : Host) (T : Task) : (H.pd = true ∧ (T.nqBatch H = 10 ∨ T.nqBatch H = 8)) ∨
    (H.pd = false ∧ (H.split = true ∧ T.nqBatch H = 6 ∨ H.split = false ∧ T.nqBatch H = 8)) := by
  unfold nqBatch VNNI_BATCH
  cases hpd : H.pd with
  | true =>
    apply Or.inl
    refine ⟨rfl, ?_⟩
    split
    · exact Or.inl rfl
    · exact Or.inr rfl
  | false =>
    apply Or.inr
    refine ⟨rfl, ?_⟩
    rw [if_neg (by simp)]
    cases hsplit : H.split with
    | true => exact Or.inl ⟨rfl, rfl⟩
    | false => exact Or.inr ⟨rfl, rfl⟩

/-- The x86 kernels have a lane for every query of a batch. -/
theorem x86Served_batch (batch : ℕ) (h : batch ≤ T.nqBatch H) : batch ≤ x86Served H (T.nqBatch H) batch := by
  unfold x86Served
  rcases nqBatch_cases H T with ⟨hpd, hw | hw⟩ | ⟨hpd, ⟨hsplit, hw⟩ | ⟨hsplit, hw⟩⟩
  · rw [hw] at h ⊢
    rw [if_pos hpd, if_pos rfl]
    omega
  · rw [hw] at h ⊢
    rw [if_pos hpd, if_neg (by decide)]
    omega
  · rw [hw] at h
    rw [if_neg (by rw [hpd]; exact Bool.false_ne_true), if_pos hsplit]
    split
    · omega
    · omega
  · rw [if_neg (by rw [hpd]; exact Bool.false_ne_true), if_neg (by rw [hsplit]; exact Bool.false_ne_true)]

/-- The scalar kernel is for hosts without SIMD. -/
theorem simdOk_of_scalar {single : Bool} {batch : ℕ} (h : x86Kernel H single batch = .scalar) :
    simdOk H = false := by
  unfold x86Kernel at h
  split at h
  · split at h
    · exact absurd h (by decide)
    · exact absurd h (by decide)
  · split at h
    · split at h
      · exact absurd h (by decide)
      · exact absurd h (by decide)
    · split at h
      · exact absurd h (by decide)
      · rename_i h512
        split at h
        · exact absurd h (by decide)
        · rename_i h2
          rw [Bool.not_eq_true] at h512 h2
          rw [simdOk, h512, h2]
          rfl

theorem nqBatch_pos (H : Host) (T : Task) : 0 < T.nqBatch H := by
  have := nqBatch_cases H T
  omega

/-- Without SIMD, and under a mask, the blocks are one range. -/
theorem x86Entries_keeps {per q0 off b : ℕ} (hK : 0 < K)
    (hcap : ∀ batch, (x86Kernel H false batch).Capacity T.buffered T.k K) (hper : 0 < per)
    (hserial : serialRequired T.mask.isSome (simdOk H) = true → T.nBlocks ≤ per)
    (hoff : off < min (q0 + T.nqBatch H) T.nq - q0) (hb : b ∈ stepBy (max T.nBlocks 1) per) : Keeps rank K
      ((slots (allows T.mask) (T.score (q0 + off)) (b * 32) (min ((b + per) * 32) T.nVectors)).filter
        fun a => (T.seedOf (q0 + off)).lt a.1)
      (T.x86Entries H (T.nqBatch H) per q0 off b) := by
  have hlt := start_lt hper hb
  obtain ⟨hle, hlast, hend⟩ := range_bounds T.nVectors per hlt
  have hzero : serialRequired T.mask.isSome (simdOk H) = true → b = 0 := by
    intro hs
    obtain ⟨hlt', hdvd⟩ := mem_stepBy hper hb
    have := hserial hs
    exact Nat.eq_zero_of_dvd_of_lt hdvd (by omega)
  have hserved := x86Served_batch (H := H) (T := T) (min (q0 + T.nqBatch H) T.nq - q0) (by omega)
  unfold x86Entries
  dsimp only
  rw [if_pos (by omega : off < x86Served H (T.nqBatch H) (min (q0 + T.nqBatch H) T.nq - q0)),
    if_pos (by omega : q0 + off < min (q0 + T.nqBatch H) T.nq)]
  split
  · rename_i hscalar
    have hserial1 : serialRequired T.mask.isSome (simdOk H) = true := by
      rw [serialRequired, simdOk_of_scalar hscalar]
      exact Bool.or_true _
    have hb0 := hzero hserial1
    have hcover := hserial hserial1
    have hN : T.nBlocks = (T.nVectors + 31) / 32 := rfl
    subst hb0
    rw [show min ((0 + per) * 32) T.nVectors = min (T.nBlocks * 32) T.nVectors by omega]
    have hkeeps := scanBlocks_keeps (n := T.nVectors) T.mask (T.score (q0 + off)) hK
      (hcap (min (q0 + T.nqBatch H) T.nq - q0)) (Nat.zero_le T.nBlocks) le_rfl (by omega) (T.seedOf (q0 + off))
    have hsame : ∀ l : List Entry, rebase (0 * 32) l = l := fun l => List.map_id' l
    rw [hsame]
    exact hkeeps
  · rw [← hend]
    refine range_keeps hK (hcap _) (fun v => ?_) hle hlast _
    cases hmask : T.mask with
    | none => rfl
    | some m =>
      have hb0 := hzero (by rw [serialRequired, hmask]; rfl)
      rw [hb0, Nat.zero_mul, Nat.zero_add]

/-! ## Every path -/

/-- The scan's heaps hold `K`, or its collectors twice that; only two kernels collect. -/
def Fits (H : Host) (T : Task) (K : ℕ) : Prop :=
  (T.buffered = false ∧ T.k = K) ∨
    (T.buffered = true ∧ T.k = 2 * K ∧ (H.arch = .aarch64 ∨ H.arch = .x86_64 ∧ H.split = true))

/-- Whether one query is split over the pool. -/
def single (H : Host) (T : Task) : Bool :=
  match H.arch with
  | .aarch64 => decide (T.nq = 1 ∧ T.nBlocks ≥ SINGLE_QUERY_PARALLEL_MIN_BLOCKS)
  | .x86_64 => decide (T.nq = 1 ∧ T.nBlocks ≥ SINGLE_QUERY_PARALLEL_MIN_BLOCKS ∧ simdOk H = true)
  | .other => false

/-- The starting threshold of a query. -/
def startOf (H : Host) (T : Task) (q : ℕ) : Score :=
  if T.single H then T.seedLate.getD (T.seedOf q) else T.seedOf q

theorem Fits.capacity {kern : Kernel} (h : T.Fits H K) (hkern : T.buffered = true → kern.collector.isSome = true) :
    kern.Capacity T.buffered T.k K := by
  rcases h with ⟨hb, hk⟩ | ⟨hb, hk, -⟩
  · apply Or.inl
    rw [Kernel.collects, hb]
    exact ⟨rfl, hk⟩
  · apply Or.inr
    rw [Kernel.collects, hb, hkern hb]
    exact ⟨rfl, hk⟩

theorem x86Kernel_collector (hsplit : H.split = true) (single : Bool) (batch : ℕ) :
    (x86Kernel H single batch).collector.isSome = true := by
  unfold x86Kernel
  rw [if_pos hsplit]
  split
  · split
    · rfl
    · rfl
  · split
    · rfl
    · rfl

theorem Fits.x86 (h : T.Fits H K) (harch : H.arch = .x86_64) (single : Bool) (batch : ℕ) :
    (x86Kernel H single batch).Capacity T.buffered T.k K := by
  apply h.capacity
  intro hb
  rcases h with ⟨hb', -⟩ | ⟨-, -, harm | ⟨-, hsplit⟩⟩
  · rw [hb] at hb'
    cases hb'
  · rw [harch] at harm
    cases harm
  · exact x86Kernel_collector hsplit single batch

theorem qbs_pos (H : Host) (T : Task) : 0 < T.qbs H := by
  unfold qbs
  split
  · omega
  · split
    · omega
    · split
      · omega
      · omega

theorem results_aarch64 (hK : 0 < K) (hfits : T.Fits H K) (harch : H.arch = .aarch64) :
    ∃ cands : ℕ → List Entry,
      T.results H = (List.range T.nq).map (fun q => mergeOne T.buffered T.k (cands q)) ∧
        ∀ q < T.nq, Keeps rank K (T.eligible q (T.startOf H q)) (cands q) := by
  have hcap : ∀ {kern : Kernel}, kern.collector.isSome = true → kern.Capacity T.buffered T.k K :=
    fun h => hfits.capacity fun _ => h
  unfold results startOf single
  rw [harch]
  dsimp only
  split
  · rename_i hone
    refine ⟨fun _ => T.singleCandidates H .neonRange, ?_, fun q hq => ?_⟩
    · rw [hone.1]
      rfl
    · rw [if_pos (decide_eq_true hone), show q = 0 by omega]
      exact singleCandidates_keeps hK (hcap rfl)
  · rename_i hnot
    rw [decide_eq_false hnot]
    have hper := T.blocksPerRange_pos H (T.qbs H) TILES_PER_THREAD_NEON
      (if T.bits = 2 then MIN_TILE_BLOCKS_NEON * 2 else MIN_TILE_BLOCKS_NEON) false
    exact batch_rows (T.qbs_pos H) hper (fun _ _ => rfl) fun q0 off b _ hb =>
      neonTile_keeps hK (hcap rfl) hper hb

theorem results_x86 (hK : 0 < K) (hfits : T.Fits H K) (harch : H.arch = .x86_64) :
    ∃ cands : ℕ → List Entry,
      T.results H = (List.range T.nq).map (fun q => mergeOne T.buffered T.k (cands q)) ∧
        ∀ q < T.nq, Keeps rank K (T.eligible q (T.startOf H q)) (cands q) := by
  unfold results startOf single
  rw [harch]
  dsimp only
  split
  · rename_i hone
    refine ⟨fun _ => T.singleCandidates H (x86Kernel H true 1), ?_, fun q hq => ?_⟩
    · rw [hone.1]
      rfl
    · rw [if_pos (decide_eq_true hone), show q = 0 by omega]
      exact singleCandidates_keeps hK (hfits.x86 harch true 1)
  · rename_i hnot
    rw [decide_eq_false hnot]
    have hper := T.blocksPerRange_pos H (T.nqBatch H) TILES_PER_THREAD MIN_TILE_BLOCKS_X86
      (serialRequired T.mask.isSome (simdOk H))
    refine batch_rows (T.nqBatch_pos H) hper (fun q0 b => x86Tile_eq _ _ q0 b) fun q0 off b hoff hb =>
      x86Entries_keeps hK (hfits.x86 harch false) hper (fun hs => ?_) hoff hb
    rw [hs]
    exact T.blocksPerRange_serial H _ _ _

/-- The scalar fallback scans the whole index into one heap a query. -/
theorem results_other (hK : 0 < K) (hfits : T.Fits H K) (harch : H.arch = .other) :
    ∃ cands : ℕ → List Entry,
      T.results H = (List.range T.nq).map (fun q => mergeOne T.buffered T.k (cands q)) ∧
        ∀ q < T.nq, Keeps rank K (T.eligible q (T.startOf H q)) (cands q) := by
  obtain ⟨hbuf, hk⟩ : T.buffered = false ∧ T.k = K := by
    rcases hfits with h | ⟨-, -, harm | ⟨hx, -⟩⟩
    · exact h
    · rw [harch] at harm
      cases harm
    · rw [harch] at hx
      cases hx
  have hN : T.nBlocks = (T.nVectors + 31) / 32 := rfl
  have hholds : ∀ q, Heap.Holds T.k (T.seedOf q) (slots (allows T.mask) (T.score q) (0 * 32)
      (min (T.nBlocks * 32) T.nVectors)) (scanBlocks .scalar T.buffered T.k T.mask (T.score q) T.nVectors
      T.nBlocks 0 T.nBlocks (T.seedOf q)) := fun q =>
    scanBlocks_holds (hk ▸ hK) (by rw [hbuf]; rfl) (Nat.zero_le _) le_rfl (by omega) (T.seedOf q)
  unfold results startOf single
  rw [harch]
  dsimp only
  refine ⟨fun q => (scanBlocks .scalar T.buffered T.k T.mask (T.score q) T.nVectors T.nBlocks 0 T.nBlocks
    (T.seedOf q)).entries, ?_, fun q hq => ?_⟩
  · apply List.map_congr_left
    intro q _
    have hlen := (hholds q).ok.len
    unfold mergeOne
    dsimp only
    generalize (scanBlocks .scalar T.buffered T.k T.mask (T.score q) T.nVectors T.nBlocks 0 T.nBlocks
      (T.seedOf q)).entries = entries at hlen ⊢
    rw [hbuf, if_neg Bool.false_ne_true, List.take_of_length_le]
    rw [sortEntries_eq, (sorted_perm _).length_eq]
    exact hlen
  · have hkeeps := (hholds q).keeps
    rw [Nat.zero_mul, show min (T.nBlocks * 32) T.nVectors = T.nVectors by omega, hk] at hkeeps
    rw [hk]
    exact hkeeps

/-- Each query's row is merged from entries that keep the first `K` of its allowed slots above its starting
threshold. -/
theorem results_eq (hK : 0 < K) (hfits : T.Fits H K) : ∃ cands : ℕ → List Entry,
    T.results H = (List.range T.nq).map (fun q => mergeOne T.buffered T.k (cands q)) ∧
      ∀ q < T.nq, Keeps rank K (T.eligible q (T.startOf H q)) (cands q) := by
  cases harch : H.arch with
  | aarch64 => exact results_aarch64 hK hfits harch
  | x86_64 => exact results_x86 hK hfits harch
  | other => exact results_other hK hfits harch

/-- A scan into heaps returns the first `k` of each query. -/
theorem results_first (hk : 0 < T.k) (hb : T.buffered = false) :
    T.results H = (List.range T.nq).map fun q => first rank T.k (T.eligible q (T.startOf H q)) := by
  obtain ⟨cands, hres, hkeeps⟩ := results_eq (H := H) hk (Or.inl ⟨hb, rfl⟩)
  rw [hres]
  apply List.map_congr_left
  intro q hq
  have hnd : ((T.eligible q (T.startOf H q)).map rank).Nodup :=
    slots_nodup.sublist ((List.filter_sublist).map rank)
  rw [← (hkeeps q (List.mem_range.mp hq)).first_eq hnd, mergeOne, hb, if_neg Bool.false_ne_true, sortEntries_eq]
  rfl

/-- A scan into collectors returns them in some order. -/
theorem results_perm {s : ℕ} (hs : 0 < s) (hb : T.buffered = true) (hfits : T.Fits H s) : ∃ rows : ℕ → List Entry,
    T.results H = (List.range T.nq).map rows ∧
      ∀ q < T.nq, (rows q).Perm (first rank s (T.eligible q (T.startOf H q))) := by
  obtain ⟨cands, hres, hkeeps⟩ := results_eq (H := H) hs hfits
  have hk : T.k = 2 * s := by
    rcases hfits with ⟨hb', -⟩ | ⟨-, hk, -⟩
    · rw [hb] at hb'
      cases hb'
    · exact hk
  refine ⟨_, hres, fun q hq => ?_⟩
  have hnd : ((T.eligible q (T.startOf H q)).map rank).Nodup :=
    slots_nodup.sublist ((List.filter_sublist).map rank)
  have hkeep : max (2 * s / 2) 1 = s := by omega
  unfold mergeOne bufferedSelect
  dsimp only
  rw [hb, if_pos rfl, hk, hkeep]
  split
  · rename_i hlong
    have hrow : (sortEntries (cands q)).take s = first rank s (T.eligible q (T.startOf H q)) := by
      rw [sortEntries_eq]
      exact (hkeeps q hq).first_eq hnd
    rw [List.take_of_length_le (by rw [List.length_take]; omega), hrow]
  · rename_i hshort
    rw [List.take_of_length_le (by omega)]
    exact (hkeeps q hq).perm_first hnd (by omega)

end

end Task

end Turbovec.Scan
