import Mathlib.Data.Prod.Lex
import Turbovec.F32
import Turbovec.Lib.TopK

/-!
# The heap of a scan

A range of blocks is scanned into a list of at most `k` scored slots. Until it is full a slot enters when its
score is above the seed; from then on it replaces the worst entry when its score is above that entry's.
The worst entry is the one of least score and, among those, of largest slot.
-/

namespace Turbovec

open TopK

/-! ## Scores -/

/-- A score is a number. -/
abbrev Score := {x : F32 // x.isNaN = false}

namespace Score

def negInf : Score := ⟨F32.NEG_INFINITY, by decide⟩

instance : Inhabited Score := ⟨negInf⟩

def key (s : Score) : ℤ := s.1.key

def lt (s t : Score) : Bool := F32.lt s.1 t.1

def le (s t : Score) : Bool := F32.le s.1 t.1

def eq (s t : Score) : Bool := F32.eq s.1 t.1

theorem lt_iff {s t : Score} : s.lt t = true ↔ s.key < t.key := by
  simp [lt, F32.lt, s.2, t.2, key]

theorem le_iff {s t : Score} : s.le t = true ↔ s.key ≤ t.key := by
  simp [le, F32.le, s.2, t.2, key]

theorem eq_iff {s t : Score} : s.eq t = true ↔ s.key = t.key := by
  simp [eq, F32.eq, s.2, t.2, key]

end Score

theorem F32.magnitude_le {x : F32} (h : x.isNaN = false) : x.magnitude ≤ 0x7F800000 := by
  rw [F32.isNaN, decide_eq_false_iff_not] at h
  omega

/-- Magnitude and key of a pattern without its sign bit. -/
theorem F32.positive {x : F32} (h : x.bits.toNat < 2 ^ 31) :
    x.magnitude = x.bits.toNat ∧ x.key = x.bits.toNat := by
  have hmag : x.magnitude = x.bits.toNat := Nat.mod_eq_of_lt h
  rw [F32.key, if_pos h, hmag]
  exact ⟨rfl, rfl⟩

/-- Magnitude and key of a pattern with its sign bit. -/
theorem F32.negative {x : F32} (h : 2 ^ 31 ≤ x.bits.toNat) :
    x.magnitude = x.bits.toNat - 2 ^ 31 ∧ x.key = -(x.bits.toNat - 2 ^ 31 : ℕ) := by
  have hlt := x.bits.toNat_lt
  have hmag : x.magnitude = x.bits.toNat - 2 ^ 31 := by
    rw [F32.magnitude]
    omega
  rw [F32.key, if_neg (by omega), hmag]
  exact ⟨rfl, rfl⟩

/-- `next_down_f32` -/
def F32.nextDown (x : F32) : F32 :=
  if F32.eq x F32.NEG_INFINITY then x
  else if F32.eq x 0 then ⟨0x80000001⟩
  else if F32.lt 0 x then ⟨x.bits - 1⟩
  else ⟨x.bits + 1⟩

/-- One place down in the order of the numbers. -/
theorem F32.nextDown_spec {x : F32} (h : x.isNaN = false) : x.nextDown.isNaN = false ∧
    (x.key ≠ F32.NEG_INFINITY.key → x.nextDown.key = x.key - 1) ∧
    (x.key = F32.NEG_INFINITY.key → x.nextDown = x) := by
  have hinf : F32.NEG_INFINITY.key = -0x7F800000 := by decide
  have hinfNum : F32.NEG_INFINITY.isNaN = false := by decide
  have hzero : (0 : F32).key = 0 := by decide
  have hzeroNum : (0 : F32).isNaN = false := by decide
  have hone : (1 : UInt32).toNat = 1 := rfl
  have hmag := F32.magnitude_le h
  have hlt := x.bits.toNat_lt
  have hnum : ∀ y : F32, y.magnitude ≤ 0x7F800000 → y.isNaN = false := by
    intro y hy
    rw [F32.isNaN, decide_eq_false_iff_not]
    omega
  unfold F32.nextDown
  simp only [F32.eq, F32.lt, h, hinfNum, hzeroNum, Bool.not_false, Bool.true_and, decide_eq_true_eq, hinf, hzero]
  by_cases h1 : x.key = -0x7F800000
  · rw [if_pos h1]
    exact ⟨h, fun hne => absurd h1 hne, fun _ => rfl⟩
  rw [if_neg h1]
  by_cases h2 : x.key = 0
  · rw [if_pos h2]
    refine ⟨by decide, fun _ => ?_, fun heq => absurd heq h1⟩
    rw [h2]
    decide
  rw [if_neg h2]
  by_cases hpos : x.bits.toNat < 2 ^ 31
  · obtain ⟨hm, hk⟩ := F32.positive hpos
    rw [if_pos (by omega)]
    have hsub : (x.bits - 1).toNat = x.bits.toNat - 1 := by
      rw [UInt32.toNat_sub_of_le _ _ (by rw [UInt32.le_iff_toNat_le, hone]; omega), hone]
    obtain ⟨hm', hk'⟩ := F32.positive (x := ⟨x.bits - 1⟩) (by dsimp only; omega)
    refine ⟨hnum _ (by rw [hm']; dsimp only; omega), fun _ => ?_, fun heq => absurd heq h1⟩
    rw [hk']
    dsimp only
    omega
  · obtain ⟨hm, hk⟩ := F32.negative (not_lt.mp hpos)
    rw [if_neg (by omega)]
    have hadd : (x.bits + 1).toNat = x.bits.toNat + 1 := by
      rw [UInt32.toNat_add, hone]
      omega
    obtain ⟨hm', hk'⟩ := F32.negative (x := ⟨x.bits + 1⟩) (by dsimp only; omega)
    refine ⟨hnum _ (by rw [hm']; dsimp only; omega), fun _ => ?_, fun heq => absurd heq h1⟩
    rw [hk']
    dsimp only
    omega

namespace Score

def nextDown (s : Score) : Score := ⟨s.1.nextDown, (F32.nextDown_spec s.2).1⟩

theorem negInf_le (s : Score) : negInf.key ≤ s.key := by
  have h := F32.magnitude_le s.2
  have hinf : negInf.key = -0x7F800000 := by decide
  rw [hinf]
  simp only [key, F32.key]
  split
  · omega
  · omega

/-- Above the seed is at least the floor. -/
theorem nextDown_lt {floor s : Score} (h : negInf.key < floor.key) :
    floor.nextDown.key < s.key ↔ floor.key ≤ s.key := by
  have hspec := (F32.nextDown_spec floor.2).2.1 (by
    change floor.key ≠ negInf.key
    omega)
  have hkey : floor.nextDown.key = floor.key - 1 := hspec
  rw [hkey]
  omega

theorem nextDown_eq {floor : Score} (h : floor.key = negInf.key) : floor.nextDown = floor :=
  Subtype.ext ((F32.nextDown_spec floor.2).2.2 h)

end Score

/-! ## Entries -/

/-- A score and its slot. -/
abbrev Entry := Score × ℕ

/-- Highest score first, then least slot. -/
def rank (e : Entry) : ℤ ×ₗ ℕ := toLex (-e.1.key, e.2)

theorem rank_le {a b : Entry} : rank a ≤ rank b ↔ b.1.key < a.1.key ∨ a.1.key = b.1.key ∧ a.2 ≤ b.2 := by
  unfold rank
  rw [Prod.Lex.toLex_le_toLex]
  dsimp only
  omega

theorem rank_lt {a b : Entry} : rank a < rank b ↔ b.1.key < a.1.key ∨ a.1.key = b.1.key ∧ a.2 < b.2 := by
  unfold rank
  rw [Prod.Lex.toLex_lt_toLex]
  dsimp only
  omega

/-- The comparison the merges sort by. -/
def entryLe (a b : Entry) : Bool := b.1.lt a.1 || (!a.1.lt b.1 && decide (a.2 ≤ b.2))

theorem entryLe_eq (a b : Entry) : entryLe a b = decide (rank a ≤ rank b) := by
  rw [Bool.eq_iff_iff, decide_eq_true_iff, rank_le, entryLe, Bool.or_eq_true, Bool.and_eq_true,
    Bool.not_eq_true', ← Bool.not_eq_true, Score.lt_iff, Score.lt_iff, decide_eq_true_iff]
  omega

/-- `sort_unstable_by` on entries of distinct slots. -/
def sortEntries (l : List Entry) : List Entry := l.mergeSort entryLe

theorem sortEntries_eq (l : List Entry) : sortEntries l = sorted rank l := by
  have hle : entryLe = fun a b => decide (rank a ≤ rank b) := by
    funext a b
    exact entryLe_eq a b
  rw [sortEntries, hle]
  rfl

/-! ## The heap -/

structure Heap where
  entries : List Entry
  min : Score
  minIdx : ℕ

namespace Heap

/-- Place of the worst entry. -/
def rescanMin (hs : List Entry) : ℕ :=
  (List.range' 1 (hs.length - 1)).foldl (fun mi h =>
    let a := hs.getD h default
    let b := hs.getD mi default
    if a.1.lt b.1 || (a.1.eq b.1 && decide (b.2 < a.2)) then h else mi) 0

/-- A heap of these entries, its minimum found again. -/
def rescan (hs : List Entry) : Heap :=
  let mi := rescanMin hs
  ⟨hs, (hs.getD mi default).1, mi⟩

/-- One allowed lane. -/
def offer (k : ℕ) (h : Heap) (s : Score) (v : ℕ) : Heap :=
  if s.le h.min then h
  else if h.entries.length < k then
    let entries := h.entries ++ [(s, v)]
    if entries.length = k then rescan entries else { h with entries }
  else if h.min.lt s then rescan (h.entries.set h.minIdx (s, v))
  else h

/-- A full heap's minimum is its worst entry. -/
structure Ok (k : ℕ) (h : Heap) : Prop where
  len : h.entries.length ≤ k
  worst : h.entries.length = k → ∃ w, h.entries[h.minIdx]? = some w ∧ h.min = w.1 ∧
    ∀ a ∈ h.entries, rank a ≤ rank w

/-- The heap keeps the first `k` of the slots `seen` whose score is above the seed. -/
structure Holds (k : ℕ) (seed : Score) (seen : List Entry) (h : Heap) : Prop where
  ok : h.Ok k
  keeps : Keeps rank k (seen.filter fun e => seed.lt e.1) h.entries
  filling : h.entries.length < k → h.min = seed

section

variable {k : ℕ} {seed : Score} {seen : List Entry} {h : Heap}

theorem rescanMin_spec {hs : List Entry} (hne : hs ≠ []) :
    ∃ w, hs[rescanMin hs]? = some w ∧ ∀ a ∈ hs, rank a ≤ rank w := by
  have hpos := List.length_pos_iff.mpr hne
  -- after `n` steps the place is the worst of the first `n + 1`
  have hloop : ∀ n, n + 1 ≤ hs.length → ∀ mi, mi = (List.range' 1 n).foldl (fun mi h =>
      let a := hs.getD h default
      let b := hs.getD mi default
      if a.1.lt b.1 || (a.1.eq b.1 && decide (b.2 < a.2)) then h else mi) 0 →
      mi ≤ n ∧ ∀ i ≤ n, rank (hs.getD i default) ≤ rank (hs.getD mi default) := by
    intro n
    induction n with
    | zero =>
      intro _ mi hmi
      rw [List.range'_zero, List.foldl_nil] at hmi
      rw [hmi]
      refine ⟨le_rfl, fun i hi => ?_⟩
      rw [Nat.le_zero.mp hi]
    | succ n ih =>
      intro hn mi hmi
      rw [List.range'_1_concat, List.foldl_append, List.foldl_cons, List.foldl_nil] at hmi
      obtain ⟨hle, hmax⟩ := ih (by omega) _ rfl
      generalize (List.range' 1 n).foldl (fun mi h =>
        let a := hs.getD h default
        let b := hs.getD mi default
        if a.1.lt b.1 || (a.1.eq b.1 && decide (b.2 < a.2)) then h else mi) 0 = m at hmi hle hmax
      dsimp only at hmi
      have hcond : ((hs.getD (1 + n) default).1.lt (hs.getD m default).1 ||
          ((hs.getD (1 + n) default).1.eq (hs.getD m default).1 &&
            decide ((hs.getD m default).2 < (hs.getD (1 + n) default).2))) = true ↔
          rank (hs.getD m default) < rank (hs.getD (1 + n) default) := by
        rw [Bool.or_eq_true, Bool.and_eq_true, Score.lt_iff, Score.eq_iff, decide_eq_true_iff, rank_lt]
        omega
      rw [show n + 1 = 1 + n by omega]
      split at hmi
      · rename_i hc
        have hlt := hcond.mp hc
        rw [hmi]
        refine ⟨le_rfl, fun i hi => ?_⟩
        rcases Nat.lt_or_ge n i with hni | hni
        · rw [show i = 1 + n by omega]
        · exact (hmax i hni).trans hlt.le
      · rename_i hc
        have hge := not_lt.mp fun hlt => hc (hcond.mpr hlt)
        rw [hmi]
        refine ⟨by omega, fun i hi => ?_⟩
        rcases Nat.lt_or_ge n i with hni | hni
        · rw [show i = 1 + n by omega]
          exact hge
        · exact hmax i hni
  obtain ⟨hle, hmax⟩ := hloop (hs.length - 1) (by omega) (rescanMin hs) rfl
  have hlt : rescanMin hs < hs.length := by omega
  refine ⟨hs[rescanMin hs], List.getElem?_eq_getElem hlt, fun a ha => ?_⟩
  obtain ⟨i, hi, rfl⟩ := List.mem_iff_getElem.mp ha
  have := hmax i (by omega)
  rwa [List.getD_eq_getElem?_getD, List.getD_eq_getElem?_getD, List.getElem?_eq_getElem hi,
    List.getElem?_eq_getElem hlt] at this

theorem rescan_ok {hs : List Entry} (hlen : hs.length = k) (hk : 0 < k) : (rescan hs).Ok k := by
  have hne : hs ≠ [] := by
    intro hnil
    rw [hnil, List.length_nil] at hlen
    omega
  obtain ⟨w, hw, hmax⟩ := rescanMin_spec hne
  refine ⟨hlen.le, fun _ => ⟨w, hw, ?_, hmax⟩⟩
  unfold rescan
  dsimp only
  rw [List.getD_eq_getElem?_getD, hw]
  rfl

/-- A lane at or below the minimum changes nothing. -/
theorem offer_le {s : Score} {v : ℕ} (hs : s.key ≤ h.min.key) : h.offer k s v = h := by
  unfold offer
  rw [if_pos (Score.le_iff.mpr hs)]

/-- A full heap stays full, and its minimum never falls. -/
theorem offer_full (hk : 0 < k) (hok : h.Ok k) (hfull : h.entries.length = k) (s : Score) (v : ℕ) :
    (h.offer k s v).Ok k ∧ (h.offer k s v).entries.length = k ∧ h.min.key ≤ (h.offer k s v).min.key := by
  unfold offer
  split
  · exact ⟨hok, hfull, le_rfl⟩
  · rename_i hnle
    rw [Score.le_iff, not_le] at hnle
    rw [if_neg (by omega), if_pos (Score.lt_iff.mpr hnle)]
    have hlen : (h.entries.set h.minIdx (s, v)).length = k := by rw [List.length_set, hfull]
    have hok' := rescan_ok hlen hk
    refine ⟨hok', hlen, ?_⟩
    obtain ⟨w, hw, hmin, hmax⟩ := hok.worst hfull
    obtain ⟨w', hw', hmin', -⟩ := hok'.worst hlen
    rw [hmin']
    have hmem : w' ∈ h.entries.set h.minIdx (s, v) := List.mem_of_getElem? hw'
    rcases List.mem_or_eq_of_mem_set hmem with hmem | rfl
    · have := rank_le.mp (hmax w' hmem)
      rw [hmin]
      omega
    · exact hnle.le

theorem filter_above {s : Score} (seen : List Entry) (v : ℕ) (hs : seed.key < s.key) :
    ((seen ++ [(s, v)]).filter fun e => seed.lt e.1) = (seen.filter fun e => seed.lt e.1) ++ [(s, v)] := by
  have hone : ([(s, v)] : List Entry).filter (fun e => seed.lt e.1) = [(s, v)] := by
    rw [List.filter_eq_self]
    intro e he
    rw [List.mem_singleton.mp he]
    exact Score.lt_iff.mpr hs
  rw [List.filter_append, hone]

theorem filter_below {s : Score} (seen : List Entry) (v : ℕ) (hs : ¬seed.key < s.key) :
    ((seen ++ [(s, v)]).filter fun e => seed.lt e.1) = seen.filter fun e => seed.lt e.1 := by
  have hnone : ([(s, v)] : List Entry).filter (fun e => seed.lt e.1) = [] := by
    rw [List.filter_eq_nil_iff]
    intro e he
    rw [List.mem_singleton.mp he, Score.lt_iff]
    exact hs
  rw [List.filter_append, hnone, List.append_nil]

/-- A later slot offered. -/
theorem Holds.offer (hk : 0 < k) (hh : Holds k seed seen h) {s : Score} {v : ℕ}
    (hv : ∀ a ∈ seen, a.2 < v) : Holds k seed (seen ++ [(s, v)]) (h.offer k s v) := by
  have hmem : ∀ a ∈ h.entries, seed.key < a.1.key ∧ a.2 < v := by
    intro a ha
    have ha := List.mem_filter.mp (hh.keeps.subset a ha)
    exact ⟨Score.lt_iff.mp ha.2, hv a ha.1⟩
  have hlen := hh.ok.len
  by_cases hseed : seed.key < s.key
  · -- the slot is one of those to keep
    have hfilter := filter_above seen v hseed
    by_cases hfull : h.entries.length = k
    · obtain ⟨w, hw, hmin, hmax⟩ := hh.ok.worst hfull
      obtain ⟨hok', hlen', -⟩ := offer_full hk hh.ok hfull s v
      refine ⟨hok', ?_, fun hlt => by omega⟩
      rw [hfilter]
      unfold Heap.offer
      split
      · rename_i hle
        rw [Score.le_iff] at hle
        -- every kept slot is at or before the offered one
        refine hh.keeps.skip ?_
        have hall : ∀ a ∈ h.entries, rank a ≤ rank (s, v) := by
          intro a ha
          have haw := rank_le.mp (hmax a ha)
          have := (hmem a ha).2
          rw [rank_le]
          dsimp only
          rw [hmin] at hle
          omega
        rw [upTo_eq_length hall, hfull]
      · rename_i hnle
        rw [Score.le_iff, not_le] at hnle
        rw [if_neg (by omega), if_pos (Score.lt_iff.mpr hnle)]
        refine hh.keeps.replace hfull hw hmax ?_
        rw [rank_le]
        dsimp only
        rw [hmin] at hnle
        exact Or.inl hnle
    · have hlt : h.entries.length < k := by omega
      have hmin := hh.filling hlt
      have hkeeps : Keeps rank k (seen.filter (fun e => seed.lt e.1) ++ [(s, v)]) (h.entries ++ [(s, v)]) :=
        hh.keeps.append (Keeps.refl [(s, v)])
      unfold Heap.offer
      rw [if_neg (by rw [Score.le_iff, hmin]; omega), if_pos hlt]
      dsimp only
      split
      · rename_i hfull'
        refine ⟨rescan_ok hfull' hk, ?_, fun hlt' => ?_⟩
        · rw [hfilter]
          exact hkeeps
        · change (h.entries ++ [(s, v)]).length < k at hlt'
          omega
      · rename_i hnot
        refine ⟨⟨?_, fun heq => absurd heq hnot⟩, ?_, fun _ => hmin⟩
        · change (h.entries ++ [(s, v)]).length ≤ k
          rw [List.length_append, List.length_singleton]
          omega
        · rw [hfilter]
          exact hkeeps
  · -- a slot at or below the seed never enters
    have hfilter := filter_below seen v hseed
    have hle : s.key ≤ h.min.key := by
      by_cases hfull : h.entries.length = k
      · obtain ⟨w, hw, hmin, -⟩ := hh.ok.worst hfull
        have := (hmem w (List.mem_of_getElem? hw)).1
        rw [hmin]
        omega
      · rw [hh.filling (by omega)]
        omega
    rw [offer_le hle]
    exact ⟨hh.ok, by rw [hfilter]; exact hh.keeps, hh.filling⟩

theorem holds_empty (hk : 0 < k) (seed : Score) (minIdx : ℕ) : Holds k seed [] ⟨[], seed, minIdx⟩ where
  ok := ⟨Nat.zero_le k, fun h0 => by
    change 0 = k at h0
    omega⟩
  keeps := Keeps.refl []
  filling _ := rfl

end

/-! ## The collector -/

/-- Keep the best half of a full collector; its threshold rises to the worst of them. The order of the kept
entries is never read. -/
def compactHalf (hs : List Entry) (k : ℕ) : Heap :=
  let keep := Nat.max (k / 2) 1
  let kept := (sortEntries hs).take keep
  ⟨kept, (kept.getD (keep - 1) default).1, 0⟩

/-- One allowed lane of a buffered scan. -/
def collect (k : ℕ) (h : Heap) (s : Score) (v : ℕ) : Heap :=
  if h.min.lt s then
    let entries := h.entries ++ [(s, v)]
    if entries.length = k then compactHalf entries k else { h with entries }
  else h

/-- A collector short of its capacity, every entry at or above its threshold. -/
structure Above (n : ℕ) (h : Heap) : Prop where
  len : h.entries.length < 2 * n
  above : ∀ a ∈ h.entries, h.min.key ≤ a.1.key

/-- A collector of capacity `2 * n` keeps the first `n` of the slots `seen` whose score is above the seed. -/
structure Collects (n : ℕ) (seed : Score) (seen : List Entry) (h : Heap) : Prop where
  ok : h.Above n
  keeps : Keeps rank n (seen.filter fun e => seed.lt e.1) h.entries
  seed_le : seed.key ≤ h.min.key
  threshold : h.min = seed ∨ n ≤ h.entries.countP fun a => decide (h.min.key ≤ a.1.key)

section

variable {n : ℕ} {seed : Score} {seen : List Entry} {h : Heap}

theorem collect_le {k : ℕ} {s : Score} {v : ℕ} (hs : s.key ≤ h.min.key) : h.collect k s v = h := by
  unfold collect
  rw [if_neg (by rw [Score.lt_iff]; omega)]

/-- A compaction leaves the first `n`, and the threshold at the score of the last of them. -/
theorem compactHalf_spec {hs : List Entry} (hn : 0 < n) (hlen : hs.length = 2 * n) :
    (compactHalf hs (2 * n)).entries = first rank n hs ∧
      (∃ w ∈ hs, (compactHalf hs (2 * n)).min = w.1) ∧
      ∀ a ∈ first rank n hs, (compactHalf hs (2 * n)).min.key ≤ a.1.key := by
  have hkeep : Nat.max (2 * n / 2) 1 = n := by
    have : Nat.max (2 * n / 2) 1 = max (2 * n / 2) 1 := rfl
    omega
  have hlast : n - 1 < (first rank n hs).length := by
    rw [length_first, hlen]
    omega
  have hmin : (compactHalf hs (2 * n)).min = (first rank n hs)[n - 1].1 := by
    unfold compactHalf
    dsimp only
    rw [hkeep, sortEntries_eq, List.getD_eq_getElem?_getD]
    change (((first rank n hs)[n - 1]?).getD default).1 = _
    rw [List.getElem?_eq_getElem hlast, Option.getD_some]
  refine ⟨?_, ⟨_, (keeps_first n hs).subset _ (List.getElem_mem hlast), hmin⟩, fun a ha => ?_⟩
  · unfold compactHalf
    dsimp only
    rw [hkeep, sortEntries_eq]
    rfl
  · obtain ⟨i, hi, rfl⟩ := List.mem_iff_getElem.mp ha
    have hpw : (first rank n hs).Pairwise fun a b => rank a ≤ rank b :=
      (sorted_pairwise hs).sublist (List.take_sublist _ _)
    have hle : rank (first rank n hs)[i] ≤ rank (first rank n hs)[n - 1] := by
      rcases Nat.lt_or_ge i (n - 1) with hlt | hge
      · exact List.pairwise_iff_getElem.mp hpw i (n - 1) hi hlast hlt
      · have hi' : i < n := by
          rw [length_first] at hi
          omega
        have heq : i = n - 1 := by omega
        subst heq
        exact le_rfl
    have := rank_le.mp hle
    rw [hmin]
    omega

/-- The threshold never falls. -/
theorem Above.collect (hn : 0 < n) (hh : h.Above n) (s : Score) (v : ℕ) :
    (h.collect (2 * n) s v).Above n ∧ h.min.key ≤ (h.collect (2 * n) s v).min.key := by
  unfold Heap.collect
  split
  · rename_i hlt
    rw [Score.lt_iff] at hlt
    have habove : ∀ a ∈ h.entries ++ [(s, v)], h.min.key ≤ a.1.key := by
      intro a ha
      rcases List.mem_append.mp ha with ha | ha
      · exact hh.above a ha
      · rw [List.mem_singleton.mp ha]
        exact hlt.le
    dsimp only
    split
    · rename_i hfull
      obtain ⟨hentries, ⟨w, hw, hmin⟩, hworst⟩ := compactHalf_spec hn hfull
      refine ⟨⟨?_, ?_⟩, ?_⟩
      · rw [hentries, length_first, hfull]
        omega
      · rw [hentries]
        exact hworst
      · rw [hmin]
        exact habove w hw
    · rename_i hnot
      refine ⟨⟨?_, habove⟩, le_rfl⟩
      have hlen := hh.len
      change (h.entries ++ [(s, v)]).length < 2 * n
      rw [List.length_append, List.length_singleton] at hnot ⊢
      omega
  · exact ⟨hh, le_rfl⟩

theorem Collects.collect (hn : 0 < n) (hh : Collects n seed seen h) {s : Score} {v : ℕ}
    (hv : ∀ a ∈ seen, a.2 < v) : Collects n seed (seen ++ [(s, v)]) (h.collect (2 * n) s v) := by
  have hmem : ∀ a ∈ h.entries, a.2 < v := by
    intro a ha
    exact hv a (List.mem_filter.mp (hh.keeps.subset a ha)).1
  obtain ⟨hok, hmin_le⟩ := hh.ok.collect hn s v
  have hseed := hh.seed_le
  refine ⟨hok, ?_, by omega, ?_⟩
  · by_cases hlt : h.min.key < s.key
    · have hkeeps : Keeps rank n ((seen ++ [(s, v)]).filter fun e => seed.lt e.1) (h.entries ++ [(s, v)]) := by
        rw [filter_above _ _ (by omega)]
        exact hh.keeps.append (Keeps.refl [(s, v)])
      unfold Heap.collect
      rw [if_pos (Score.lt_iff.mpr hlt)]
      dsimp only
      split
      · rename_i hfull
        rw [(compactHalf_spec hn hfull).1]
        exact hkeeps.trans (keeps_first n _)
      · exact hkeeps
    · rw [collect_le (by omega)]
      by_cases hs : seed.key < s.key
      · -- at or below the threshold of a compaction: `n` entries are at or before it
        rw [filter_above _ _ hs]
        refine hh.keeps.skip ?_
        rcases hh.threshold with heq | hcount
        · rw [heq] at hlt
          omega
        · refine hcount.trans (List.countP_mono_left fun a ha hkey => ?_)
          rw [decide_eq_true_iff] at hkey ⊢
          have := hmem a ha
          rw [rank_le]
          dsimp only
          omega
      · rw [filter_below _ _ hs]
        exact hh.keeps
  · unfold Heap.collect
    split
    · dsimp only
      split
      · rename_i hfull
        obtain ⟨hentries, -, hworst⟩ := compactHalf_spec hn hfull
        apply Or.inr
        rw [hentries, List.countP_eq_length.mpr fun a ha => decide_eq_true (hworst a ha), length_first, hfull]
        omega
      · rcases hh.threshold with heq | hcount
        · exact Or.inl heq
        · apply Or.inr
          change n ≤ (h.entries ++ [(s, v)]).countP fun a => decide (h.min.key ≤ a.1.key)
          rw [List.countP_append]
          omega
    · exact hh.threshold

theorem collects_empty (hn : 0 < n) (seed : Score) (minIdx : ℕ) : Collects n seed [] ⟨[], seed, minIdx⟩ where
  ok := by
    refine ⟨?_, fun a ha => by cases ha⟩
    rw [List.length_nil]
    omega
  keeps := Keeps.refl []
  seed_le := le_rfl
  threshold := Or.inl rfl

end

end Heap

end Turbovec
