import Turbovec.Scan.Exact

/-!
# The shortlist of a planes search

A planes search scans the sign plane into a shortlist of `s` rows for each query. The collectors of an
unmasked scan start from a threshold taken from a sample of blocks; a query that comes back short is scanned
again without it.
-/

namespace Turbovec.Scan

open TopK Slice Pack Grid

/-! ## Rows of a scan -/

/-- The rows of a scan `w` wide, scores and slots side by side. -/
def scanRows (H : Host) (T : Task) (w : ℕ) : List (List (Score × ℤ)) :=
  let out := scanWithLuts H T
  (List.range T.nq).map fun q => (rowAt out.1 w q).zip (rowAt out.2 w q)

/-! ## Thresholds from a sample -/

/-- `sample_seeds`. The sample's whole blocks are numbered in the index; `want` is its floating-point estimate of
how deep the threshold lies. -/
def sampleSeeds (H : Host) (nq : ℕ) (score : ℕ → ℕ → Score) (blocks : List ℕ) (want : ℕ) : List Score :=
  let nS := blocks.length * 32
  let r := min (max want 6) nS
  let scan (a b : ℕ) : List Score :=
    let ss := (scanWithLuts H {
      nq := b - a, bits := 2, nVectors := nS, k := r, mask := none, buffered := false, seed := none
      seedLate := none, kHint := 0
      score := fun q j => score (a + q) (blocks.getD (j / 32) 0 * 32 + j % 32) }).1
    (List.range (b - a)).map fun q => ss.getD (q * r + r - 1) Score.negInf
  let threads := max H.threads 1
  if nq ≥ 4 * threads ∧ threads > 1 then
    (stepBy nq (divCeil nq threads)).flatMap fun a => scan a (min (a + divCeil nq threads) nq)
  else scan 0 nq

/-! ## The shortlist -/

/-- `planes_buffered_supported` -/
def planesBufferedSupported (H : Host) : Bool :=
  match H.arch with
  | .aarch64 => true
  | .x86_64 => H.split
  | .other => false

/-- What the shortlist of a search is made from. -/
structure SignScan where
  nq : ℕ
  bits : ℕ
  nVectors : ℕ
  k : ℕ
  mask : Option (List UInt64)
  score : ℕ → ℕ → Score
  /-- the blocks of the cache's sample and the depth wanted in it -/
  sample : Option (List ℕ × ℕ)

namespace SignScan

section variable (H : Host) (S : SignScan) (s : ℕ)

def buffered : Bool := planesBufferedSupported H && decide (2 * s < nAllowed S.mask S.nVectors)

/-- Whether the threshold is computed by the worker that owns the scan. -/
def seedInScan : Bool :=
  decide (S.nq = 1) && decide (H.threads > 1) && S.buffered H s && S.mask.isNone && S.sample.isSome &&
    decide (divCeil S.nVectors 32 ≥ SINGLE_QUERY_PARALLEL_MIN_BLOCKS)

def seeds : Option (List Score) :=
  match S.sample with
  | some (blocks, want) =>
    if S.buffered H s && S.mask.isNone && !S.seedInScan H s then
      some (sampleSeeds H S.nq S.score blocks want)
    else none
  | none => none

def seedLate : Option Score :=
  match S.sample with
  | some (blocks, want) =>
    if S.seedInScan H s then some ((sampleSeeds H S.nq S.score blocks want).getD 0 Score.negInf) else none
  | none => none

/-- A scan of the sign plane for these queries. -/
def task (qs : List ℕ) (seed : Option (List Score)) (seedLate : Option Score) (kHint : ℕ) : Task where
  nq := qs.length
  bits := 2
  nVectors := S.nVectors
  k := if S.buffered H s then 2 * s else s
  mask := S.mask
  buffered := S.buffered H s
  seed := seed
  seedLate := seedLate
  kHint := kHint
  score := fun q => S.score (qs.getD q 0)

def kHint : ℕ := if S.bits = 4 then S.k else 0

/-- Queries whose last entry is missing. -/
def shortQ (rows : List (List (Score × ℤ))) : List ℕ :=
  if (S.seeds H s).isSome || S.seedInScan H s then
    (List.range S.nq).filter fun q => ((rows.getD q []).getD (s - 1) default).1.eq Score.negInf
  else []

/-- The rows after the short queries were scanned again. -/
def rows : List (List (Score × ℤ)) :=
  let qs := List.range S.nq
  let rows := scanRows H (S.task H s qs (S.seeds H s) (S.seedLate H s) S.kHint) s
  let short := S.shortQ H s rows
  if short.isEmpty then rows
  else if S.nq > 1 then
    let sub := scanRows H (S.task H s short none none 0) s
    (List.range short.length).foldl (fun rows j => rows.set (short.getD j 0) (sub.getD j [])) rows
  else scanRows H (S.task H s qs none none S.kHint) s

/-- Each query's shortlist. -/
def shortlist : List (List (ℕ × Score)) :=
  (S.rows H s).map fun row =>
    (row.filter fun e => decide (0 ≤ e.2) && decide (e.2.toNat < S.nVectors)).map fun e => (e.2.toNat, e.1)

end

section

variable {H : Host} {mask : Option (List Bool)} {n s : ℕ}

/-- The rows of a scan, padded. -/
theorem scanRows_eq {T : Task} {w : ℕ} {rows : ℕ → List Entry}
    (hw : (if T.buffered then divCeil T.k 2 else T.k) = w) (hres : T.results H = (List.range T.nq).map rows)
    (hlen : ∀ q < T.nq, (rows q).length ≤ w) :
    scanRows H T w = (List.range T.nq).map fun q => padded w (rows q) := by
  have hflat : scanWithLuts H T = (((List.range T.nq).flatMap fun q => (padded w (rows q)).map Prod.fst),
      (List.range T.nq).flatMap fun q => (padded w (rows q)).map Prod.snd) := by
    rw [scanWithLuts, hw, hres, flatten_eq, List.flatMap_map, List.map_flatMap, List.map_flatMap]
    intro r hr
    obtain ⟨q, hq, rfl⟩ := List.mem_map.mp hr
    exact hlen q (List.mem_range.mp hq)
  unfold scanRows
  rw [hflat]
  apply List.map_congr_left
  intro q hq
  have hq := List.mem_range.mp hq
  dsimp only
  rw [rowAt_flatMap_range (fun i hi => by rw [List.length_map, length_padded (hlen i hi)]) hq,
    rowAt_flatMap_range (fun i hi => by rw [List.length_map, length_padded (hlen i hi)]) hq, List.zip_map']
  exact List.map_id' _

/-- The rows of a sign scan from its starting thresholds. -/
theorem task_rows {S : SignScan} (hs : 0 < s) (hmask : ∀ m, mask = some m → m.length = S.nVectors)
    (hS : S.mask = packed mask) (qs : List ℕ) (seed : Option (List Score)) (late : Option Score) (hint : ℕ) :
    ∃ l : ℕ → List Entry, scanRows H (S.task H s qs seed late hint) s =
        (List.range qs.length).map (fun j => padded s (l j)) ∧
      ∀ j < qs.length, (l j).Perm (first rank s ((allowedRows mask (S.score (qs.getD j 0)) S.nVectors).filter
        fun e => ((S.task H s qs seed late hint).startOf H j).lt e.1)) := by
  have hel : ∀ j x, (S.task H s qs seed late hint).eligible j x =
      (allowedRows mask (S.score (qs.getD j 0)) S.nVectors).filter fun e => x.lt e.1 := by
    intro j x
    rw [← slots_packed hmask, ← hS]
    rfl
  have hk : (S.task H s qs seed late hint).k = if S.buffered H s then 2 * s else s := rfl
  obtain ⟨l, hres, hperm⟩ : ∃ l : ℕ → List Entry, (S.task H s qs seed late hint).results H =
      (List.range qs.length).map l ∧ ∀ j < qs.length, (l j).Perm (first rank s
        ((S.task H s qs seed late hint).eligible j ((S.task H s qs seed late hint).startOf H j))) := by
    cases hb : S.buffered H s with
    | true =>
      refine Task.results_perm hs hb (Or.inr ⟨hb, by rw [hk, hb]; rfl, ?_⟩)
      rw [buffered, Bool.and_eq_true] at hb
      have hsup := hb.1
      unfold planesBufferedSupported at hsup
      split at hsup
      · exact Or.inl (by assumption)
      · exact Or.inr ⟨by assumption, hsup⟩
      · cases hsup
    | false =>
      have hks : (S.task H s qs seed late hint).k = s := by
        rw [hk, hb]
        rfl
      have hfirst := Task.results_first (H := H) (T := S.task H s qs seed late hint) (by rw [hks]; exact hs) hb
      rw [hks] at hfirst
      exact ⟨_, hfirst, fun j _ => List.Perm.refl _⟩
  refine ⟨l, ?_, fun j hj => ?_⟩
  · apply scanRows_eq
    · change (if S.buffered H s then divCeil (if S.buffered H s then 2 * s else s) 2
        else if S.buffered H s then 2 * s else s) = s
      split
      · unfold divCeil
        omega
      · rfl
    · exact hres
    · intro j hj
      rw [(hperm j hj).length_eq, length_first]
      exact Nat.min_le_left _ _
  · rw [← hel]
    exact hperm j hj

/-- A row of the first of a query's allowed rows above negative infinity. -/
def Good (mask : Option (List Bool)) (S : SignScan) (s q : ℕ) (row : List (Score × ℤ)) : Prop :=
  ∃ l : List Entry, row = padded s l ∧ l.Perm (first rank s
    ((allowedRows mask (S.score q) S.nVectors).filter fun e => Score.negInf.lt e.1))

theorem getD_map_range {β : Type} (f : ℕ → β) (d : β) {m j : ℕ} (hj : j < m) :
    ((List.range m).map f).getD j d = f j := by
  rw [List.getD_eq_getElem?_getD, List.getElem?_map, List.getElem?_range hj]
  rfl

/-- A scan without thresholds has good rows. -/
theorem unseeded_good {S : SignScan} (hs : 0 < s) (hmask : ∀ m, mask = some m → m.length = S.nVectors)
    (hS : S.mask = packed mask) (qs : List ℕ) (hint : ℕ) :
    (scanRows H (S.task H s qs none none hint) s).length = qs.length ∧ ∀ j < qs.length,
      Good mask S s (qs.getD j 0) ((scanRows H (S.task H s qs none none hint) s).getD j []) := by
  obtain ⟨l, hrows, hperm⟩ := task_rows (H := H) hs hmask hS qs none none hint
  have hstart : ∀ j, (S.task H s qs none none hint).startOf H j = Score.negInf := by
    intro j
    unfold Task.startOf
    split
    · rfl
    · rfl
  rw [hrows]
  refine ⟨by rw [List.length_map, List.length_range], fun j hj => ⟨l j, getD_map_range _ _ hj, ?_⟩⟩
  rw [← hstart j]
  exact hperm j hj

/-- A full row above a threshold is good. -/
theorem full_good {S : SignScan} {q : ℕ} {l : List Entry} {seed : Score}
    (hmask : ∀ m, mask = some m → m.length = S.nVectors)
    (hl : l.Perm (first rank s ((allowedRows mask (S.score q) S.nVectors).filter fun e => seed.lt e.1)))
    (hlen : s ≤ l.length) : Good mask S s q (padded s l) := by
  have hnd : ((allowedRows mask (S.score q) S.nVectors).map rank).Nodup := by
    have := allowedRows_nodup hmask (S.score q) fun _ => true
    rwa [List.filter_true] at this
  have hcount : s ≤ ((allowedRows mask (S.score q) S.nVectors).filter fun e => seed.lt e.1).length := by
    rw [hl.length_eq, length_first] at hlen
    omega
  have hmore : s ≤ ((allowedRows mask (S.score q) S.nVectors).filter fun e => Score.negInf.lt e.1).length := by
    refine hcount.trans ?_
    rw [← List.countP_eq_length_filter, ← List.countP_eq_length_filter]
    apply List.countP_mono_left
    intro e _ he
    rw [Score.lt_iff] at he ⊢
    exact seed.negInf_le.trans_lt he
  refine ⟨l, rfl, ?_⟩
  rw [first_above hnd hmore, ← first_above hnd hcount]
  exact hl

/-- The last entry of a row that is not short is a row's. -/
theorem last_padded {l : List Entry} (hlen : l.length < s) :
    ((padded s l).getD (s - 1) default).1.eq Score.negInf = true := by
  have hlast : (padded s l).getD (s - 1) default = (Score.negInf, -1) := by
    rw [padded, List.getD_eq_getElem?_getD, List.getElem?_append_right (by rw [List.length_map]; omega),
      List.length_map, List.getElem?_replicate, if_pos (by omega)]
    rfl
  rw [hlast, Score.eq_iff]

/-- Rows scanned again take the place of the short ones. -/
theorem foldl_set {sub : List (List (Score × ℤ))} {short : List ℕ} {P : ℕ → List (Score × ℤ) → Prop}
    (hsub : ∀ j < short.length, P (short.getD j 0) (sub.getD j [])) (rows : List (List (Score × ℤ)))
    (hrows : ∀ q < rows.length, q ∉ short → P q (rows.getD q [])) :
    let out := (List.range short.length).foldl (fun rows j => rows.set (short.getD j 0) (sub.getD j [])) rows
    out.length = rows.length ∧ ∀ q < rows.length, P q (out.getD q []) := by
  have hrun : ∀ m ≤ short.length, let out := (List.range m).foldl (fun rows j =>
      rows.set (short.getD j 0) (sub.getD j [])) rows
      out.length = rows.length ∧ ∀ q < rows.length, P q (out.getD q []) ∨
        (q ∉ short.take m ∧ out.getD q [] = rows.getD q []) := by
    intro m hm
    induction m with
    | zero => exact ⟨rfl, fun q _ => Or.inr ⟨by rw [List.take_zero]; exact List.not_mem_nil, rfl⟩⟩
    | succ m ih =>
      obtain ⟨hlen, hq⟩ := ih (by omega)
      dsimp only at hlen hq ⊢
      rw [List.range_succ, List.foldl_append, List.foldl_cons, List.foldl_nil]
      generalize (List.range m).foldl (fun rows j => rows.set (short.getD j 0) (sub.getD j [])) rows = out
        at hlen hq ⊢
      refine ⟨by rw [List.length_set, hlen], fun q hlt => ?_⟩
      have hget : short.getD m 0 = short[m] := by
        rw [List.getD_eq_getElem?_getD, List.getElem?_eq_getElem (by omega), Option.getD_some]
      by_cases heq : short.getD m 0 = q
      · apply Or.inl
        rw [heq, List.getD_eq_getElem?_getD, List.getElem?_set_self (by omega), Option.getD_some, ← heq]
        exact hsub m (by omega)
      · have hsame : (out.set (short.getD m 0) (sub.getD m [])).getD q [] = out.getD q [] := by
          rw [List.getD_eq_getElem?_getD, List.getElem?_set_ne heq, List.getD_eq_getElem?_getD]
        rw [hsame]
        refine (hq q hlt).imp_right fun h => ⟨?_, h.2⟩
        rw [List.take_succ_eq_append_getElem (by omega), List.mem_append, List.mem_singleton]
        rintro (hin | hin)
        · exact h.1 hin
        · exact heq (hget.trans hin.symm)
  obtain ⟨hlen, hq⟩ := hrun short.length le_rfl
  refine ⟨hlen, fun q hlt => ?_⟩
  rcases hq q hlt with h | ⟨hnot, heq⟩
  · exact h
  · rw [heq]
    rw [List.take_length] at hnot
    exact hrows q hlt hnot

/-- Every row of the shortlist is good, whatever thresholds it started from. -/
theorem rows_good {S : SignScan} (hs : 0 < s) (hmask : ∀ m, mask = some m → m.length = S.nVectors)
    (hS : S.mask = packed mask) : (S.rows H s).length = S.nq ∧
      ∀ q < S.nq, Good mask S s q ((S.rows H s).getD q []) := by
  have hqs : (List.range S.nq).length = S.nq := List.length_range
  have hgetq : ∀ q < S.nq, (List.range S.nq).getD q 0 = q := by
    intro q hq
    rw [List.getD_eq_getElem?_getD, List.getElem?_range hq, Option.getD_some]
  obtain ⟨l, hrows, hperm⟩ := task_rows (H := H) hs hmask hS (List.range S.nq) (S.seeds H s) (S.seedLate H s)
    S.kHint
  rw [hqs] at hrows hperm
  have hfirstlen : (scanRows H (S.task H s (List.range S.nq) (S.seeds H s) (S.seedLate H s) S.kHint) s).length =
      S.nq := by
    rw [hrows, List.length_map, List.length_range]
  -- a row that is not scanned again
  have hkept : ∀ q < S.nq, q ∉ S.shortQ H s
      (scanRows H (S.task H s (List.range S.nq) (S.seeds H s) (S.seedLate H s) S.kHint) s) → Good mask S s q
      ((scanRows H (S.task H s (List.range S.nq) (S.seeds H s) (S.seedLate H s) S.kHint) s).getD q []) := by
    intro q hq hnot
    have hp := hperm q hq
    rw [hgetq q hq] at hp
    unfold shortQ at hnot
    split at hnot
    · have hget : (scanRows H (S.task H s (List.range S.nq) (S.seeds H s) (S.seedLate H s) S.kHint) s).getD q [] =
          padded s (l q) := by
        rw [hrows]
        exact getD_map_range _ _ hq
      rw [hget]
      refine full_good hmask hp ?_
      by_contra hshort
      refine hnot (List.mem_filter.mpr ⟨List.mem_range.mpr hq, ?_⟩)
      rw [hget]
      exact last_padded (by omega)
    · rename_i hunseeded
      rw [Bool.or_eq_true, not_or, Bool.not_eq_true, Bool.not_eq_true, Option.isSome_eq_false_iff,
        Option.isNone_iff_eq_none] at hunseeded
      have hlate : S.seedLate H s = none := by
        unfold seedLate
        split
        · rw [hunseeded.2, if_neg Bool.false_ne_true]
        · rfl
      rw [hunseeded.1, hlate]
      have := (unseeded_good (H := H) hs hmask hS (List.range S.nq) S.kHint).2 q (by rw [hqs]; exact hq)
      rwa [hgetq q hq] at this
  unfold rows
  dsimp only
  split
  · rename_i hempty
    refine ⟨hfirstlen, fun q hq => hkept q hq ?_⟩
    rw [List.isEmpty_iff.mp hempty]
    exact List.not_mem_nil
  · split
    · have hsub := unseeded_good (H := H) hs hmask hS (S.shortQ H s
        (scanRows H (S.task H s (List.range S.nq) (S.seeds H s) (S.seedLate H s) S.kHint) s)) 0
      have hset := foldl_set hsub.2
        (scanRows H (S.task H s (List.range S.nq) (S.seeds H s) (S.seedLate H s) S.kHint) s)
        fun q hq hnot => hkept q (by rw [← hfirstlen]; exact hq) hnot
      rw [hfirstlen] at hset
      exact hset
    · have hall := unseeded_good (H := H) hs hmask hS (List.range S.nq) S.kHint
      rw [hqs] at hall
      refine ⟨hall.1, fun q hq => ?_⟩
      have := hall.2 q hq
      rwa [hgetq q hq] at this

/-- A good row's entries are the query's. -/
theorem good_entries {S : SignScan} {q : ℕ} {row : List (Score × ℤ)} (h : Good mask S s q row) :
    ((row.filter fun e => decide (0 ≤ e.2) && decide (e.2.toNat < S.nVectors)).map fun e => (e.2.toNat, e.1)).Perm
      ((first rank s ((allowedRows mask (S.score q) S.nVectors).filter fun e => Score.negInf.lt e.1)).map
        fun e => (e.2, e.1)) := by
  obtain ⟨l, rfl, hl⟩ := h
  have hslot : ∀ e ∈ l, e.2 < S.nVectors := by
    intro e he
    have he := (sorted_perm _).mem_iff.mp (List.mem_of_mem_take (hl.mem_iff.mp he))
    obtain ⟨v, hv, rfl⟩ := List.mem_map.mp (List.mem_filter.mp he).1
    exact List.mem_range.mp (List.mem_filter.mp hv).1
  have hreal : (l.map fun e => (e.1, (e.2 : ℤ))).filter
      (fun e => decide (0 ≤ e.2) && decide (e.2.toNat < S.nVectors)) = l.map fun e => (e.1, (e.2 : ℤ)) := by
    rw [List.filter_eq_self]
    intro e he
    obtain ⟨a, ha, rfl⟩ := List.mem_map.mp he
    have := hslot a ha
    rw [Bool.and_eq_true, decide_eq_true_iff, decide_eq_true_iff]
    dsimp only
    omega
  have hpad : (List.replicate (s - l.length) (Score.negInf, (-1 : ℤ))).filter
      (fun e => decide (0 ≤ e.2) && decide (e.2.toNat < S.nVectors)) = [] := by
    rw [List.filter_eq_nil_iff]
    intro e he
    rw [List.eq_of_mem_replicate he]
    simp
  rw [padded, List.filter_append, hreal, hpad, List.append_nil, List.map_map]
  exact hl.map fun e => (e.2, e.1)

theorem shortlist_row {S : SignScan} (hs : 0 < s) (hmask : ∀ m, mask = some m → m.length = S.nVectors)
    (hS : S.mask = packed mask) {q : ℕ} (hq : q < S.nq) : ((S.shortlist H s).getD q []).Perm
      ((first rank s ((allowedRows mask (S.score q) S.nVectors).filter fun e => Score.negInf.lt e.1)).map
        fun e => (e.2, e.1)) := by
  obtain ⟨hlen, hgood⟩ := rows_good (H := H) hs hmask hS
  have hrow : (S.shortlist H s).getD q [] = (((S.rows H s).getD q []).filter
      fun e => decide (0 ≤ e.2) && decide (e.2.toNat < S.nVectors)).map fun e => (e.2.toNat, e.1) := by
    unfold shortlist
    rw [List.getD_eq_getElem?_getD, List.getD_eq_getElem?_getD, List.getElem?_map,
      List.getElem?_eq_getElem (by omega)]
    rfl
  rw [hrow]
  exact good_entries (hgood q hq)

/-- The shortlists hold the first `s` of each query's allowed rows exactly where each query has so many above
negative infinity. -/
theorem shortlist_first_iff {S : SignScan} (hs : 0 < s) (hmask : ∀ m, mask = some m → m.length = S.nVectors)
    (hS : S.mask = packed mask) (hlt : s < (List.range S.nVectors).countP (allowedBy mask)) :
    (∀ q < S.nq, ((S.shortlist H s).getD q []).Perm
        ((first rank s (allowedRows mask (S.score q) S.nVectors)).map fun e => (e.2, e.1))) ↔
      ∀ q < S.nq, s ≤ ((allowedRows mask (S.score q) S.nVectors).filter fun e => Score.negInf.lt e.1).length := by
  have hrow := fun q (hq : q < S.nq) => shortlist_row (H := H) hs hmask hS hq
  constructor
  · intro h q hq
    have hlen := (h q hq).length_eq.symm.trans (hrow q hq).length_eq
    rw [List.length_map, List.length_map, length_first, length_first, length_allowedRows] at hlen
    omega
  · intro h q hq
    have hnd : ((allowedRows mask (S.score q) S.nVectors).map rank).Nodup := by
      have := allowedRows_nodup hmask (S.score q) fun _ => true
      rwa [List.filter_true] at this
    rw [← first_above hnd (h q hq)]
    exact hrow q hq

/-- A sign scan of rows that score alike. -/
def alikeRows (score : Score) (n : ℕ) : SignScan where
  nq := 1
  bits := 2
  nVectors := n
  k := 1
  mask := none
  score := fun _ _ => score
  sample := none

/-- Two queries over 2048 blocks, with a sample of three. -/
def sampledRows : SignScan where
  nq := 2
  bits := 2
  nVectors := 65536
  k := 10
  mask := none
  score := tiedScore
  sample := some ([0, 700, 1999], 40)

/-- Where the collectors start from the sample's thresholds, the shortlists are of the first rows. -/
theorem shortlist_sampled : (sampledRows.seeds armHost 30).isSome = true ∧ ∀ q < 2,
    ((sampledRows.shortlist armHost 30).getD q []).Perm
      ((first rank 30 (allowedRows none (tiedScore q) 65536)).map fun e => (e.2, e.1)) := by
  have hmask : ∀ m : List Bool, none = some m → m.length = sampledRows.nVectors := by
    intro m hm
    cases hm
  have hall : (List.range 65536).countP (allowedBy none) = 65536 :=
    (List.countP_eq_length.mpr fun _ _ => rfl).trans List.length_range
  refine ⟨by decide, (shortlist_first_iff (S := sampledRows) (H := armHost) (by decide) hmask rfl ?_).mpr fun q _ => ?_⟩
  · show 30 < (List.range 65536).countP (allowedBy none)
    rw [hall]
    decide
  · show 30 ≤ ((allowedRows none (tiedScore q) 65536).filter fun e => Score.negInf.lt e.1).length
    rw [filter_above (negInf_lt_tiedScore q), length_allowedRows, hall]
    decide

/-- Rows that all score negative infinity leave a shortlist empty. -/
theorem shortlist_drops : ¬∀ q < 1, (((alikeRows Score.negInf 385).shortlist scalarHost 384).getD q []).Perm
    ((first rank 384 (allowedRows none (fun _ => Score.negInf) 385)).map fun e => (e.2, e.1)) := by
  intro h
  have hmask : ∀ m : List Bool, none = some m → m.length = (alikeRows Score.negInf 385).nVectors := by
    intro m hm
    cases hm
  have hrow := shortlist_row (S := alikeRows Score.negInf 385) (H := scalarHost) (s := 384) (by decide) hmask rfl
    Nat.zero_lt_one
  have hnone : ((allowedRows none ((alikeRows Score.negInf 385).score 0) 385).filter
      fun e => Score.negInf.lt e.1) = [] := by
    rw [List.filter_eq_nil_iff]
    intro e he
    obtain ⟨v, -, rfl⟩ := List.mem_map.mp he
    rw [Score.lt_iff]
    exact lt_irrefl _
  have hall : (List.range 385).countP (allowedBy none) = 385 :=
    (List.countP_eq_length.mpr fun _ _ => rfl).trans List.length_range
  have hlen := (h 0 Nat.zero_lt_one).length_eq.symm.trans hrow.length_eq
  rw [show (alikeRows Score.negInf 385).nVectors = 385 from rfl, hnone, List.length_map, List.length_map,
    length_first, length_first, length_allowedRows, hall] at hlen
  exact absurd hlen (by decide)

end

end SignScan

end Turbovec.Scan
