import Turbovec.Index.Search
import Turbovec.Scan.Tiles

/-!
# The classic search

A search without planes scans every row. Its rows are the first of the allowed rows at or above the floor,
whatever the host, except that a row scoring negative infinity is dropped where there is no floor.
-/

namespace Turbovec.Scan

open TopK Slice Pack Bits

/-! ## Packed masks -/

/-- `count_ones` -/
def wordOnes (w : UInt64) : ℕ := (List.range 64).countP fun i => w.toNat.testBit i

/-- `mask_allows` before packing -/
def allowedBy (mask : Option (List Bool)) (slot : ℕ) : Bool :=
  match mask with
  | none => true
  | some m => m.getD slot false

def packed (mask : Option (List Bool)) : Option (List UInt64) := mask.map fun m => (TurboQuantIndex.packMask m).1

def maskWord (m : List Bool) (w : ℕ) : ℕ :=
  (List.range 64).foldl (fun word bit => word ||| (if m.getD (w * 64 + bit) false then 2 ^ bit else 0)) 0

theorem maskWord_any (m : List Bool) (w i : ℕ) : (maskWord m w).testBit i =
    (List.range 64).any fun bit => m.getD (w * 64 + bit) false && decide (bit = i) := by
  have hstep : ∀ word bit : ℕ, (word ||| (if m.getD (w * 64 + bit) false then 2 ^ bit else 0)).testBit i =
      (word.testBit i || (m.getD (w * 64 + bit) false && decide (bit = i))) := by
    intro word bit
    rw [Nat.testBit_or]
    split
    · rename_i h
      rw [h, Bool.true_and, Nat.testBit_two_pow]
    · rename_i h
      rw [Bool.not_eq_true] at h
      rw [h, Bool.false_and, Nat.zero_testBit]
  rw [maskWord, testBit_foldl _ hstep, Nat.zero_testBit, Bool.false_or]

theorem maskWord_testBit (m : List Bool) (w : ℕ) {i : ℕ} (hi : i < 64) :
    (maskWord m w).testBit i = m.getD (w * 64 + i) false := by
  have hone : ∀ bit < 64, (m.getD (w * 64 + bit) false && decide (bit = i)) = true → bit = i := by
    intro bit _ h
    rw [Bool.and_eq_true] at h
    exact of_decide_eq_true h.2
  rw [maskWord_any, any_range_eq_of_unique hi hone, decide_eq_true rfl, Bool.and_true]

theorem maskWord_lt (m : List Bool) (w : ℕ) : maskWord m w < 2 ^ 64 := by
  apply Nat.lt_pow_two_of_testBit
  intro i hi
  rw [maskWord_any]
  apply any_range_eq_false
  intro bit hbit
  rw [decide_eq_false (by omega), Bool.and_false]

theorem packMask_eq (m : List Bool) :
    (TurboQuantIndex.packMask m).1 = (List.range ((m.length + 63) / 64)).map fun w => UInt64.ofNat (maskWord m w) := rfl

theorem toNat_maskWord (m : List Bool) (w : ℕ) : (UInt64.ofNat (maskWord m w)).toNat = maskWord m w := by
  rw [UInt64.toNat_ofNat']
  exact Nat.mod_eq_of_lt (maskWord_lt m w)

/-- A packed mask allows what the mask allows. -/
theorem allows_packed {mask : Option (List Bool)} {n slot : ℕ} (hmask : ∀ m, mask = some m → m.length = n)
    (hs : slot < n) : allows (packed mask) slot = allowedBy mask slot := by
  cases mask with
  | none => rfl
  | some m =>
    have hlen := hmask m rfl
    have hword : entry (TurboQuantIndex.packMask m).1 (slot / 64) = UInt64.ofNat (maskWord m (slot / 64)) := by
      rw [packMask_eq, entry, List.getElem?_map, List.getElem?_range (by omega)]
      rfl
    change maskAllows (TurboQuantIndex.packMask m).1 slot = m.getD slot false
    rw [maskAllows, hword, toNat_maskWord, maskWord_testBit _ _ (Nat.mod_lt _ (by decide)), Nat.mul_comm,
      Nat.div_add_mod]

theorem countP_words (p : ℕ → Bool) (k n : ℕ) :
    ((List.range n).map fun w => (List.range k).countP fun i => p (w * k + i)).sum =
      (List.range (n * k)).countP p := by
  induction n with
  | zero =>
    rw [Nat.zero_mul]
    rfl
  | succ n ih =>
    rw [List.range_succ, List.map_append, List.sum_append, ih, Nat.succ_mul, List.range_add, List.countP_append,
      List.countP_map]
    rfl

/-- Slots past a mask are not allowed. -/
theorem countP_getD (m : List Bool) {n : ℕ} (hn : m.length ≤ n) :
    (List.range n).countP (fun v => m.getD v false) = (List.range m.length).countP fun v => m.getD v false := by
  have hpast : ((List.range (n - m.length)).map (m.length + ·)).countP (fun v => m.getD v false) = 0 := by
    rw [List.countP_eq_zero]
    intro v hv
    obtain ⟨j, -, rfl⟩ := List.mem_map.mp hv
    rw [List.getD_eq_getElem?_getD, List.getElem?_eq_none (Nat.le_add_right _ _)]
    exact Bool.false_ne_true
  rw [show n = m.length + (n - m.length) by omega, List.range_add, List.countP_append, hpast, Nat.add_zero]

/-- What `search` counts as allowed. -/
def nAllowed (mask : Option (List UInt64)) (n : ℕ) : ℕ :=
  match mask with
  | none => n
  | some m => (m.map wordOnes).sum

theorem nAllowed_packed {mask : Option (List Bool)} {n : ℕ} (hmask : ∀ m, mask = some m → m.length = n) :
    nAllowed (packed mask) n = (List.range n).countP (allowedBy mask) := by
  cases mask with
  | none =>
    have hall : (List.range n).countP (allowedBy none) = (List.range n).length :=
      List.countP_eq_length.mpr fun _ _ => rfl
    rw [hall, List.length_range]
    rfl
  | some m =>
    have hlen := hmask m rfl
    change ((TurboQuantIndex.packMask m).1.map wordOnes).sum = (List.range n).countP fun v => m.getD v false
    rw [packMask_eq, List.map_map]
    have hwords : ∀ w, (wordOnes ∘ fun w => UInt64.ofNat (maskWord m w)) w =
        (List.range 64).countP fun i => m.getD (w * 64 + i) false := by
      intro w
      rw [Function.comp_apply, wordOnes, toNat_maskWord]
      apply List.countP_congr
      intro i hi
      rw [maskWord_testBit _ _ (List.mem_range.mp hi)]
    rw [List.map_congr_left fun w _ => hwords w, countP_words (fun v => m.getD v false) 64,
      countP_getD m (by omega), hlen]

/-! ## The search -/

/-- The scan of a search of every row. The floor rides the starting thresholds. -/
def classicTask (bits n : ℕ) (score : ℕ → ℕ → Score) (nq k : ℕ) (mask : Option (List UInt64)) (floor : Score) :
    Task where
  nq := nq
  bits := bits
  nVectors := n
  k := min k (nAllowed mask n)
  mask := mask
  buffered := false
  seed := if Score.negInf.lt floor.nextDown then some (List.replicate nq floor.nextDown) else none
  seedLate := none
  kHint := 0
  score := score

/-- `search` without planes -/
def searchClassic (H : Host) (bits n : ℕ) (score : ℕ → ℕ → Score) (nq k : ℕ) (mask : Option (List UInt64))
    (floor : Score) : List Score × List ℤ :=
  let T := classicTask bits n score nq k mask floor
  if T.k = 0 then ([], []) else scanWithLuts H T

/-- The allowed rows, scored. -/
def allowedRows (mask : Option (List Bool)) (score : ℕ → Score) (n : ℕ) : List Entry :=
  ((List.range n).filter (allowedBy mask)).map fun v => (score v, v)

/-- A row of `k` entries, the end of a short one padded. -/
def padded (k : ℕ) (l : List Entry) : List (Score × ℤ) :=
  l.map (fun e => (e.1, (e.2 : ℤ))) ++ List.replicate (k - l.length) (Score.negInf, -1)

theorem length_padded {k : ℕ} {l : List Entry} (h : l.length ≤ k) : (padded k l).length = k := by
  rw [padded, List.length_append, List.length_map, List.length_replicate]
  omega

/-- What a search is to return for a query: the first of the allowed rows at or above the floor. -/
def wanted (mask : Option (List Bool)) (score : ℕ → Score) (n k : ℕ) (floor : Score) : List (Score × ℤ) :=
  let rows := allowedRows mask score n
  let width := min k rows.length
  padded width (first rank width (rows.filter fun e => floor.le e.1))

/-- A search returns what is wanted of it, and without a floor no padding. -/
structure Exact (mask : Option (List Bool)) (score : ℕ → ℕ → Score) (n nq k : ℕ) (floor : Score)
    (out : List Score × List ℤ) : Prop where
  scores : out.1 = ((List.range nq).flatMap fun q => wanted mask (score q) n k floor).map Prod.fst
  indices : out.2 = ((List.range nq).flatMap fun q => wanted mask (score q) n k floor).map Prod.snd
  unpadded : floor = Score.negInf → ∀ i ∈ out.2, i ≠ -1

section

variable {mask : Option (List Bool)} {n : ℕ}

theorem length_allowedRows (mask : Option (List Bool)) (score : ℕ → Score) (n : ℕ) :
    (allowedRows mask score n).length = (List.range n).countP (allowedBy mask) := by
  rw [allowedRows, List.length_map, ← List.countP_eq_length_filter]

theorem slots_packed (hmask : ∀ m, mask = some m → m.length = n) (score : ℕ → Score) :
    slots (allows (packed mask)) score 0 n = allowedRows mask score n := by
  have hallows : (List.range n).filter (allows (packed mask)) = (List.range n).filter (allowedBy mask) := by
    apply List.filter_congr
    intro v hv
    exact allows_packed hmask (List.mem_range.mp hv)
  rw [slots, allowedRows, Nat.sub_zero, ← List.range_eq_range', hallows]

theorem allowedRows_nodup (hmask : ∀ m, mask = some m → m.length = n) (score : ℕ → Score) (p : Entry → Bool) :
    (((allowedRows mask score n).filter p).map rank).Nodup := by
  rw [← slots_packed hmask]
  exact slots_nodup.sublist ((List.filter_sublist).map rank)

theorem flatten_eq {k : ℕ} {rows : List (List Entry)} (h : ∀ r ∈ rows, r.length ≤ k) :
    flatten k rows = ((rows.flatMap (padded k)).map Prod.fst, (rows.flatMap (padded k)).map Prod.snd) := by
  unfold flatten padded
  rw [List.map_flatMap, List.map_flatMap, Prod.mk.injEq]
  constructor
  · apply List.flatMap_congr
    intro r hr
    have hlen := h r hr
    rw [Nat.min_eq_left hlen, List.take_length, List.map_append, List.map_map, List.map_replicate]
    rfl
  · apply List.flatMap_congr
    intro r hr
    have hlen := h r hr
    rw [Nat.min_eq_left hlen, List.take_length, List.map_append, List.map_map, List.map_replicate]
    rfl

theorem key_negInf {s : Score} (h : s.key = Score.negInf.key) : s = Score.negInf := by
  have hinf : Score.negInf.key = -0x7F800000 := by decide
  have hbits : s.1.bits = 0xFF800000 := by
    rw [hinf] at h
    apply UInt32.toNat_inj.mp
    rw [show (0xFF800000 : UInt32).toNat = 0xFF800000 from rfl]
    rcases Nat.lt_or_ge s.1.bits.toNat (2 ^ 31) with hlt | hge
    · have := (F32.positive hlt).2
      change s.1.key = _ at h
      omega
    · have := (F32.negative hge).2
      change s.1.key = _ at h
      omega
  apply Subtype.ext
  obtain ⟨⟨bits⟩, hs⟩ := s
  change bits = _ at hbits
  change (⟨bits⟩ : F32) = F32.NEG_INFINITY
  rw [hbits]
  rfl

/-- The starting thresholds are one place below the floor. -/
theorem classicTask_start (H : Host) (bits n nq k : ℕ) (score : ℕ → ℕ → Score) (m : Option (List UInt64))
    (floor : Score) {q : ℕ} (hq : q < nq) :
    ((classicTask bits n score nq k m floor).startOf H q).key = floor.nextDown.key := by
  have hseed : (classicTask bits n score nq k m floor).startOf H q =
      (classicTask bits n score nq k m floor).seedOf q := by
    unfold Task.startOf
    split
    · rfl
    · rfl
  rw [hseed, Task.seedOf]
  unfold classicTask
  dsimp only
  split
  · rename_i hs
    split at hs
    · cases hs
    · rename_i hle
      rw [Score.lt_iff] at hle
      have := floor.nextDown.negInf_le
      omega
  · rename_i s hs
    split at hs
    · rw [Option.some.injEq] at hs
      rw [← hs, List.getD_eq_getElem?_getD, List.getElem?_replicate, if_pos hq]
      rfl
    · cases hs

/-- The rows of a search under a mask's words, whatever the host. -/
theorem searchClassic_words (H : Host) (bits n : ℕ) (score : ℕ → ℕ → Score) (nq k : ℕ) (words : Option (List UInt64))
    (floor : Score) :
    searchClassic H bits n score nq k words floor =
      let rows := (List.range nq).flatMap fun q => padded (min k (nAllowed words n)) (first rank (min k (nAllowed words n))
        ((slots (allows words) (score q) 0 n).filter fun e => floor.nextDown.lt e.1))
      (rows.map Prod.fst, rows.map Prod.snd) := by
  unfold searchClassic
  dsimp only
  have hk : (classicTask bits n score nq k words floor).k = min k (nAllowed words n) := rfl
  rw [hk]
  split
  · rename_i hzero
    -- Nothing is asked for: every row of the answer is empty.
    have hnil : ((List.range nq).flatMap fun q => padded (min k (nAllowed words n)) (first rank
        (min k (nAllowed words n)) ((slots (allows words) (score q) 0 n).filter
          fun e => floor.nextDown.lt e.1))) = [] := by
      rw [List.flatMap_eq_nil_iff]
      intro q _
      rw [hzero]
      rfl
    rw [hnil]
    rfl
  · rename_i hpos
    have hrows := Task.results_first (H := H) (T := classicTask bits n score nq k words floor) (by rw [hk]; omega) rfl
    rw [scanWithLuts, hrows, if_neg (by exact Bool.false_ne_true), flatten_eq]
    · rw [List.flatMap_map]
      have heq : ((List.range nq).flatMap fun q => padded (min k (nAllowed words n))
          (first rank (min k (nAllowed words n)) ((classicTask bits n score nq k words floor).eligible q
            ((classicTask bits n score nq k words floor).startOf H q)))) =
          (List.range nq).flatMap fun q => padded (min k (nAllowed words n)) (first rank
            (min k (nAllowed words n)) ((slots (allows words) (score q) 0 n).filter
              fun e => floor.nextDown.lt e.1)) := by
        apply List.flatMap_congr
        intro q hq
        -- Every host starts a query at the place below the floor, so what may enter is what is above it.
        have hstart := classicTask_start H bits n nq k score words floor (List.mem_range.mp hq)
        have hel : (classicTask bits n score nq k words floor).eligible q
            ((classicTask bits n score nq k words floor).startOf H q) =
            (slots (allows words) (score q) 0 n).filter fun e => floor.nextDown.lt e.1 := by
          apply List.filter_congr
          intro e _
          rw [Bool.eq_iff_iff, Score.lt_iff, Score.lt_iff, hstart]
        rw [hel]
      exact congrArg (fun rows => (rows.map Prod.fst, rows.map Prod.snd)) heq
    · intro r hr
      obtain ⟨q, -, rfl⟩ := List.mem_map.mp hr
      rw [length_first]
      exact Nat.min_le_left _ _

/-- The rows of a search, whatever the host. -/
theorem searchClassic_rows (H : Host) (bits : ℕ) (score : ℕ → ℕ → Score) (nq k : ℕ) (floor : Score)
    (hmask : ∀ m, mask = some m → m.length = n) :
    searchClassic H bits n score nq k (packed mask) floor =
      let rows := (List.range nq).flatMap fun q =>
        padded (min k (allowedRows mask (score q) n).length) (first rank (min k (allowedRows mask (score q) n).length)
          ((allowedRows mask (score q) n).filter fun e => floor.nextDown.lt e.1))
      (rows.map Prod.fst, rows.map Prod.snd) := by
  have hwidth : ∀ q, nAllowed (packed mask) n = (allowedRows mask (score q) n).length := by
    intro q
    rw [length_allowedRows, nAllowed_packed hmask]
  rw [searchClassic_words]
  dsimp only
  have hrows : ((List.range nq).flatMap fun q => padded (min k (nAllowed (packed mask) n)) (first rank
      (min k (nAllowed (packed mask) n)) ((slots (allows (packed mask)) (score q) 0 n).filter
        fun e => floor.nextDown.lt e.1))) =
      (List.range nq).flatMap fun q => padded (min k (allowedRows mask (score q) n).length)
        (first rank (min k (allowedRows mask (score q) n).length)
          ((allowedRows mask (score q) n).filter fun e => floor.nextDown.lt e.1)) := by
    apply List.flatMap_congr
    intro q _
    rw [slots_packed hmask, hwidth q]
  rw [hrows]

/-- Rows that score above negative infinity are all above it. -/
theorem filter_above {mask : Option (List Bool)} {score : ℕ → Score} {n : ℕ}
    (h : ∀ v, Score.negInf.lt (score v) = true) :
    ((allowedRows mask score n).filter fun e => Score.negInf.lt e.1) = allowedRows mask score n := by
  rw [List.filter_eq_self]
  intro e he
  obtain ⟨v, -, rfl⟩ := List.mem_map.mp he
  exact h v

/-- The rows above a threshold keep the first of all of them, if there are as many. -/
theorem first_above {width : ℕ} {seed : Score} {rows : List Entry} (hnd : (rows.map rank).Nodup)
    (h : width ≤ (rows.filter fun e => seed.lt e.1).length) :
    first rank width (rows.filter fun e => seed.lt e.1) = first rank width rows := by
  apply Keeps.first_eq hnd
  refine ⟨rows.filter fun e => !seed.lt e.1, (List.filter_append_perm _ _).symm, fun b hb => ?_⟩
  obtain ⟨-, hb⟩ := List.mem_filter.mp hb
  rw [upTo_eq_length]
  · exact h
  · intro a ha
    obtain ⟨-, ha⟩ := List.mem_filter.mp ha
    rw [Bool.not_eq_true', ← Bool.not_eq_true, Score.lt_iff] at hb
    rw [Score.lt_iff] at ha
    rw [rank_le]
    omega

/-- What a search returns for a query. -/
def found (mask : Option (List Bool)) (score : ℕ → Score) (n k : ℕ) (floor : Score) : List (Score × ℤ) :=
  let rows := allowedRows mask score n
  let width := min k rows.length
  padded width (first rank width (rows.filter fun e => floor.nextDown.lt e.1))

/-- Above a floor the search finds what is wanted. -/
theorem found_eq_wanted (hmask : ∀ m, mask = some m → m.length = n) (score : ℕ → Score) (k : ℕ) {floor : Score}
    (h : Score.negInf.lt floor = true ∨ min k (allowedRows mask score n).length ≤
      ((allowedRows mask score n).filter fun e => Score.negInf.lt e.1).length) :
    found mask score n k floor = wanted mask score n k floor := by
  unfold found wanted
  dsimp only
  congr 1
  rcases (lt_or_eq_of_le floor.negInf_le) with hfloor | hfloor
  · have hsame : ((allowedRows mask score n).filter fun e => floor.nextDown.lt e.1) =
        (allowedRows mask score n).filter fun e => floor.le e.1 := by
      apply List.filter_congr
      intro e _
      rw [Bool.eq_iff_iff, Score.lt_iff, Score.le_iff]
      exact Score.nextDown_lt hfloor
    rw [hsame]
  · have hcount := h.resolve_left fun hlt => by
      rw [Score.lt_iff] at hlt
      omega
    have hinf := key_negInf hfloor.symm
    have hall : ((allowedRows mask score n).filter fun e => floor.le e.1) = allowedRows mask score n := by
      rw [List.filter_eq_self]
      intro e _
      rw [Score.le_iff, ← hfloor]
      exact e.1.negInf_le
    have hnd : ((allowedRows mask score n).map rank).Nodup := by
      have := allowedRows_nodup hmask score fun _ => true
      rwa [List.filter_true] at this
    rw [hall, Score.nextDown_eq hfloor.symm, hinf]
    exact first_above hnd hcount

/-- A row short of entries is padded. -/
theorem mem_padded {k : ℕ} {l : List Entry} (h : l.length < k) : (-1 : ℤ) ∈ (padded k l).map Prod.snd := by
  unfold padded
  rw [List.map_append, List.mem_append]
  apply Or.inr
  rw [List.map_replicate, List.mem_replicate]
  exact ⟨by omega, rfl⟩

theorem not_mem_padded {k : ℕ} {l : List Entry} (h : k ≤ l.length) : (-1 : ℤ) ∉ (padded k l).map Prod.snd := by
  unfold padded
  rw [Nat.sub_eq_zero_of_le h, List.replicate_zero, List.append_nil, List.map_map, List.mem_map]
  rintro ⟨e, -, he⟩
  simp only [Function.comp_apply] at he
  omega

/-- A search returns what is wanted of it exactly where there is a floor or each query has enough rows above
negative infinity: the starting threshold of a search without a floor is negative infinity, and a row enters
a heap above the threshold only. -/
theorem searchClassic_exact_iff (H : Host) (bits : ℕ) (score : ℕ → ℕ → Score) (nq k : ℕ) (floor : Score)
    (hmask : ∀ m, mask = some m → m.length = n) :
    Exact mask score n nq k floor (searchClassic H bits n score nq k (packed mask) floor) ↔
      Score.negInf.lt floor = true ∨ ∀ q < nq, min k (allowedRows mask (score q) n).length ≤
        ((allowedRows mask (score q) n).filter fun e => Score.negInf.lt e.1).length := by
  rw [searchClassic_rows H bits score nq k floor hmask]
  constructor
  · intro h
    rcases (lt_or_eq_of_le floor.negInf_le) with hfloor | hfloor
    · exact Or.inl (Score.lt_iff.mpr hfloor)
    · apply Or.inr
      intro q hq
      by_contra hshort
      have hinf := key_negInf hfloor.symm
      refine h.unpadded hinf (-1) ?_ rfl
      dsimp only
      rw [List.map_flatMap, List.mem_flatMap]
      refine ⟨q, List.mem_range.mpr hq, mem_padded ?_⟩
      rw [length_first, Score.nextDown_eq hfloor.symm, hinf]
      omega
  · intro h
    have hrow : ∀ q ∈ List.range nq, found mask (score q) n k floor = wanted mask (score q) n k floor := by
      intro q hq
      exact found_eq_wanted hmask (score q) k (h.imp_right fun hcount => hcount q (List.mem_range.mp hq))
    have hrows := List.flatMap_congr hrow
    refine ⟨congrArg (List.map Prod.fst) hrows, congrArg (List.map Prod.snd) hrows, fun hinf i hi hneg => ?_⟩
    subst hneg
    have hi : (-1 : ℤ) ∈ (((List.range nq).flatMap fun q => wanted mask (score q) n k floor)).map Prod.snd := by
      rw [← hrows]
      exact hi
    rw [List.map_flatMap, List.mem_flatMap] at hi
    obtain ⟨q, -, hq⟩ := hi
    refine not_mem_padded ?_ hq
    have hall : ((allowedRows mask (score q) n).filter fun e => floor.le e.1) = allowedRows mask (score q) n := by
      rw [List.filter_eq_self]
      intro e _
      rw [Score.le_iff, hinf]
      exact e.1.negInf_le
    rw [hall, length_first]
    omega

end

/-! ## Two small indexes -/

/-- A host without a SIMD kernel. -/
def scalarHost : Host where
  arch := .other
  threads := 1
  avx2 := false
  avx512 := false
  pd := false
  pd2 := false
  split := false

def zeroScore : Score := ⟨0, by decide⟩

/-- A host with workers, whose batches are cut into ranges of blocks. -/
def armHost : Host := { scalarHost with arch := .aarch64, threads := 8 }

/-- Every other row scores alike, higher than the rest. -/
def tiedScore (q v : ℕ) : Score := if v % 2 = q % 2 then ⟨1, by decide⟩ else zeroScore

theorem negInf_lt_tiedScore (q v : ℕ) : Score.negInf.lt (tiedScore q v) = true := by
  unfold tiedScore
  split
  · decide
  · decide

/-- Three queries over 2048 blocks, every third row allowed, four ranges of blocks and many ties. -/
theorem searchClassic_exact_masked : let mask := some ((List.range 65536).map fun v => v % 3 == 0)
    Exact mask tiedScore 65536 3 10 Score.negInf
      (searchClassic armHost 4 65536 tiedScore 3 10 (packed mask) Score.negInf) := by
  intro mask
  have hmask : ∀ m, mask = some m → m.length = 65536 := by
    intro m hm
    rw [← Option.some.inj hm, List.length_map, List.length_range]
  apply (searchClassic_exact_iff armHost 4 tiedScore 3 10 Score.negInf hmask).mpr
  refine Or.inr fun q _ => ?_
  rw [filter_above (negInf_lt_tiedScore q)]
  exact Nat.min_le_right _ _

/-- One row scoring negative infinity, searched without a floor, comes back as padding. -/
theorem searchClassic_drops : ¬Exact none (fun _ _ => Score.negInf) 1 1 1 Score.negInf
    (searchClassic scalarHost 4 1 (fun _ _ => Score.negInf) 1 1 none Score.negInf) := by
  have hrows := searchClassic_rows (n := 1) scalarHost 4 (fun _ _ => Score.negInf) 1 1 Score.negInf
    (fun m (hm : none = some m) => by cases hm)
  have hnone : (allowedRows none (fun _ => Score.negInf) 1).filter
      (fun e => Score.negInf.nextDown.lt e.1) = [] := by decide
  dsimp only at hrows
  rw [hnone] at hrows
  intro h
  refine h.unpadded rfl (-1) ?_ rfl
  change (-1 : ℤ) ∈ (searchClassic scalarHost 4 1 (fun _ _ => Score.negInf) 1 1 (packed none) Score.negInf).2
  rw [hrows]
  dsimp only
  rw [List.map_flatMap, List.mem_flatMap]
  refine ⟨0, List.mem_range.mpr Nat.zero_lt_one, mem_padded ?_⟩
  rw [length_first]
  decide

end Turbovec.Scan
