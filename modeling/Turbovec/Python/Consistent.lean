import Turbovec.Python.State

/-!
# The maps and the index in step

A store is consistent when its id map and its reverse map invert each other, the index holds the handles of
the id map and no others, and every id has a payload. Additions, upserts and deletions keep it so, and an
addition that raises puts everything back, unless the exception comes between two slices of the batch.
-/

namespace Turbovec.Python

open Dict

/-! ## The sliced addition -/

section

variable {V : Type} {K : Kernel V} {cs d : ℕ} {ix : Index V} {batch : List (ℕ × V)} {stop : Option ℕ}

/-- The exception comes after the first slice of a batch that the kernel takes, and before its last. -/
def LandsBetween (K : Kernel V) (cs d : ℕ) (batch : List V) (stop : Option ℕ) : Prop :=
  K.dimOk d ∧ (∀ v ∈ batch, K.finite v) ∧ ∃ j, stop = some j ∧ 0 < j ∧ 0 < cs ∧ j * cs < batch.length

/-- What the kernel needs to take a batch. -/
structure Accepts (K : Kernel V) (ix : Index V) (d : ℕ) (batch : List (ℕ × V)) : Prop where
  dimOk : K.dimOk d = true
  dim : ix.dim = none ∨ ix.dim = some d
  nodup : (batch.map Prod.fst).Nodup
  fresh : ∀ p ∈ batch, p.1 ∉ ix.rows
  finite : ∀ p ∈ batch, K.finite p.2 = true

theorem batchAddable_iff {ids : List ℕ} :
    ix.batchAddable ids = true ↔ ids.Nodup ∧ ∀ h ∈ ids, h ∉ ix.rows := by
  simp [Index.batchAddable, Index.contains]

theorem rawAddWithIds_of_accepts (h : Accepts K ix d batch) :
    rawAddWithIds K ix d batch = some { dim := some d, rows := setAll ix.rows batch } := by
  have hadd : ix.batchAddable (batch.map Prod.fst) = true := by
    rw [batchAddable_iff]
    refine ⟨h.nodup, fun a ha => ?_⟩
    obtain ⟨p, hp, rfl⟩ := List.mem_map.mp ha
    exact h.fresh p hp
  have hdim : (ix.dim.isNone || ix.dim == some d) = true := by
    rcases h.dim with h | h <;> simp [h]
  have hfin : (batch.all fun p => K.finite p.2) = true := List.all_eq_true.mpr h.finite
  simp [rawAddWithIds, hadd, h.dimOk, hdim, hfin]

theorem rawAddWithIds_eq_some {ix' : Index V} (h : rawAddWithIds K ix d batch = some ix') :
    Accepts K ix d batch ∧ ix' = { dim := some d, rows := setAll ix.rows batch } := by
  unfold rawAddWithIds at h
  split at h
  next hc =>
    rw [Bool.and_eq_true, Bool.and_eq_true, Bool.and_eq_true, batchAddable_iff] at hc
    obtain ⟨⟨⟨hnd, hfresh⟩, hdim, hix⟩, hfin⟩ := hc
    refine ⟨⟨hdim, ?_, hnd, ?_, ?_⟩, (Option.some.inj h).symm⟩
    · simpa using hix
    · intro p hp
      exact hfresh p.1 (List.mem_map_of_mem hp)
    · exact List.all_eq_true.mp hfin
  next => exact absurd h (by simp)

/-- The first slice of an accepted batch is accepted, and the rest after it. -/
theorem Accepts.slice (h : Accepts K ix d batch) (cs : ℕ) :
    Accepts K ix d (batch.take cs) ∧
      Accepts K { dim := some d, rows := setAll ix.rows (batch.take cs) } d (batch.drop cs) := by
  have hsplit : (batch.take cs).map Prod.fst ++ (batch.drop cs).map Prod.fst = batch.map Prod.fst := by
    rw [← List.map_append, List.take_append_drop]
  have hnd := h.nodup
  rw [← hsplit, List.nodup_append] at hnd
  refine ⟨⟨h.dimOk, h.dim, hnd.1, ?_, ?_⟩, ⟨h.dimOk, Or.inr rfl, hnd.2.1, ?_, ?_⟩⟩
  · intro p hp
    exact h.fresh p (List.mem_of_mem_take hp)
  · intro p hp
    exact h.finite p (List.mem_of_mem_take hp)
  · intro p hp hin
    have hnot : p.1 ∉ (batch.take cs).map Prod.fst := by
      intro hmem
      exact hnd.2.2 p.1 hmem p.1 (List.mem_map_of_mem hp) rfl
    rw [Dict.mem_iff_lookup, lookup_setAll_of_notMem hnot, ← Dict.mem_iff_lookup] at hin
    exact h.fresh p (List.mem_of_mem_drop hp) hin
  · intro p hp
    exact h.finite p (List.mem_of_mem_drop hp)

/-- An accepted batch is committed whole when no exception comes before one of its slices. -/
theorem addSlices_of_accepts (stop : Option ℕ) (hcs : 0 < cs) {fuel : ℕ} (hfuel : batch.length ≤ fuel)
    (h : Accepts K ix d batch) (hstop : ∀ j, stop = some j → batch.length ≤ j * cs) :
    ∃ ix', addSlices K cs d fuel ix batch stop = (ix', false) ∧ ix'.rows = setAll ix.rows batch := by
  induction fuel generalizing stop ix batch with
  | zero =>
    have hnil : batch = [] := List.eq_nil_of_length_eq_zero (by omega)
    exact ⟨ix, rfl, by rw [hnil, setAll_nil]⟩
  | succ fuel ih =>
    unfold addSlices
    by_cases hb : batch = []
    · exact ⟨ix, by simp [hb], by rw [hb, setAll_nil]⟩
    · have hpos : 0 < batch.length := List.length_pos_of_ne_nil hb
      have hne : stop ≠ some 0 := by
        intro h0
        have := hstop 0 h0
        omega
      have hempty : batch.isEmpty = false := by simp [hb]
      obtain ⟨hfirst, hrest⟩ := h.slice cs
      rw [rawAddWithIds_of_accepts hfirst]
      simp only [hempty, hne, if_false, Bool.false_eq_true]
      have hlen : (batch.drop cs).length = batch.length - cs := List.length_drop
      obtain ⟨ix', hrun, hrows⟩ := ih (stop.map Nat.pred) (by omega) hrest (by
        intro j hj
        obtain ⟨j', rfl, rfl⟩ := Option.map_eq_some_iff.mp hj
        have hj' := hstop j' rfl
        have hpred : (Nat.pred j') * cs = j' * cs - cs := by
          rw [Nat.pred_eq_sub_one, Nat.sub_mul, Nat.one_mul]
        omega)
      refine ⟨ix', hrun, ?_⟩
      rw [hrows, ← setAll_append, List.take_append_drop]

/-- A batch refused for its dimension is refused at its first slice. -/
theorem addSlices_of_dim {fuel : ℕ} (hb : batch ≠ []) (hfuel : batch.length ≤ fuel)
    (h : ¬ (K.dimOk d = true ∧ (ix.dim = none ∨ ix.dim = some d))) :
    addSlices K cs d fuel ix batch stop = (ix, true) := by
  cases fuel with
  | zero => exact absurd (List.eq_nil_of_length_eq_zero (by omega)) hb
  | succ fuel =>
    have hempty : batch.isEmpty = false := by simp [hb]
    unfold addSlices
    simp only [hempty, if_false, Bool.false_eq_true]
    split
    · rfl
    · have hraw : rawAddWithIds K ix d (batch.take cs) = none := by
        by_contra hne
        obtain ⟨ix', hraw⟩ := Option.ne_none_iff_exists'.mp hne
        have hacc := (rawAddWithIds_eq_some hraw).1
        exact h ⟨hacc.dimOk, hacc.dim⟩
      rw [hraw]

/-- The addition is all or nothing unless the exception lands between two slices. -/
theorem addWithIds_cases (ix : Index V) (hb : batch ≠ [])
    (hwhole : ¬ LandsBetween K cs d (batch.map Prod.snd) stop) :
    addWithIds K cs ix d batch stop = (ix, true) ∨
      ∃ ix', addWithIds K cs ix d batch stop = (ix', false) ∧ Accepts K ix d batch ∧
        ix'.rows = setAll ix.rows batch := by
  unfold addWithIds
  split
  next hch =>
    simp only [chunked, Bool.and_eq_true, decide_eq_true_eq, batchAddable_iff] at hch
    obtain ⟨⟨⟨hcs, hlen⟩, hfin⟩, hnd, hfresh⟩ := hch
    have hfin : ∀ p ∈ batch, K.finite p.2 = true := List.all_eq_true.mp hfin
    by_cases hdim : K.dimOk d = true ∧ (ix.dim = none ∨ ix.dim = some d)
    · have hacc : Accepts K ix d batch :=
        ⟨hdim.1, hdim.2, hnd, fun p hp => hfresh p.1 (List.mem_map_of_mem hp), hfin⟩
      -- An exception before the first slice commits nothing; a later one would land between two slices.
      by_cases h0 : stop = some 0
      · left
        have hempty : batch.isEmpty = false := by simp [hb]
        obtain ⟨fuel, hfuel⟩ : ∃ fuel, batch.length = fuel + 1 :=
          Nat.exists_eq_succ_of_ne_zero (by simp [hb])
        rw [hfuel, addSlices]
        simp [hempty, h0]
      · right
        obtain ⟨ix', hrun, hrows⟩ := addSlices_of_accepts stop hcs le_rfl hacc (by
          intro j hj
          by_contra hlt
          refine hwhole ⟨hdim.1, ?_, j, hj, ?_, hcs, by rw [List.length_map]; omega⟩
          · intro v hv
            obtain ⟨p, hp, rfl⟩ := List.mem_map.mp hv
            exact hfin p hp
          · rcases Nat.eq_zero_or_pos j with h | h
            · exact absurd (hj.trans (congrArg some h)) h0
            · exact h)
        exact ⟨ix', hrun, hacc, hrows⟩
    · exact Or.inl (addSlices_of_dim hb le_rfl hdim)
  next =>
    split
    · exact Or.inl rfl
    · cases hraw : rawAddWithIds K ix d batch with
      | none => exact Or.inl rfl
      | some ix' =>
        obtain ⟨hacc, rfl⟩ := rawAddWithIds_eq_some hraw
        exact Or.inr ⟨_, rfl, hacc, rfl⟩

end

/-! ## Consistent stores -/

section

variable {ι V D : Type} [DecidableEq ι]

/-- The maps agree with each other. -/
structure Store.Maps (s : Store ι V D) : Prop where
  inverse : Inverse s.strToU64 s.u64ToStr
  payload : ∀ i, i ∈ s.docs ↔ i ∈ s.strToU64
  watermark : ∀ i h, s.strToU64.lookup i = some h → h ≤ s.nextU64

/-- The maps and the index agree. -/
structure Store.Consistent (s : Store ι V D) : Prop where
  handles : ∀ h, h ∈ s.index.rows ↔ ∃ i, s.strToU64.lookup i = some h
  inverse : Inverse s.strToU64 s.u64ToStr
  payload : ∀ i, i ∈ s.docs ↔ i ∈ s.strToU64
  watermark : ∀ i h, s.strToU64.lookup i = some h → h ≤ s.nextU64

theorem Store.consistent_new (dim : Option ℕ) : (Store.new ι V D dim).Consistent := by
  constructor
  · intro h
    simp [Store.new, Finmap.notMem_empty]
  · intro i h
    simp [Store.new]
  · intro i
    simp [Store.new, Finmap.notMem_empty]
  · intro i h hi
    simp [Store.new] at hi

variable {s m : Store ι V D}

theorem Store.Consistent.maps (hs : s.Consistent) : s.Maps := ⟨hs.inverse, hs.payload, hs.watermark⟩

theorem Store.Maps.key_unique (hs : s.Maps) {i j : ι} {h : ℕ}
    (hi : s.strToU64.lookup i = some h) (hj : s.strToU64.lookup j = some h) : i = j := by
  have hih := (hs.inverse i h).mp hi
  have hjh := (hs.inverse j h).mp hj
  rw [hih] at hjh
  exact Option.some.inj hjh

theorem Store.Consistent.key_unique (hs : s.Consistent) {i j : ι} {h : ℕ}
    (hi : s.strToU64.lookup i = some h) (hj : s.strToU64.lookup j = some h) : i = j :=
  hs.maps.key_unique hi hj

/-! ### The loops over the rows -/

/-- The rows of a batch beside their handles, as the loops see them. -/
abbrev Rows (ι V D : Type) : Type := List ((ι × D × V) × ℕ)

/-- The loop that fills the maps. -/
theorem mapRows_eq (l : Rows ι V D) (s : Store ι V D) :
    l.foldl (fun m p => m.mapRow (p.1.1, p.1.2.1) p.2) s =
      { s with strToU64 := setAll s.strToU64 (l.map fun p => (p.1.1, p.2)),
               u64ToStr := setAll s.u64ToStr (l.map fun p => (p.2, p.1.1)),
               docs := setAll s.docs (l.map fun p => (p.1.1, p.1.2.1)) } := by
  induction l generalizing s with
  | nil => rfl
  | cons p l ih => rw [List.foldl_cons, ih]; rfl

omit [DecidableEq ι] in
/-- The loop that drops the replaced vectors. -/
theorem dropRows_eq (old : List (ι × ℕ × D)) (s : Store ι V D) :
    old.foldl Store.dropRow s =
      { s with index := { s.index with rows := popAll s.index.rows (old.map fun o => o.2.1) },
               u64ToStr := popAll s.u64ToStr (old.map fun o => o.2.1) } := by
  induction old generalizing s with
  | nil => rfl
  | cons o old ih => rw [List.foldl_cons, ih]; rfl

/-- The loop that puts the old entries back. -/
theorem restoreRows_eq (old : List (ι × ℕ × D)) (s : Store ι V D) :
    old.foldl Store.restoreRow s =
      { s with strToU64 := setAll s.strToU64 (old.map fun o => (o.1, o.2.1)),
               u64ToStr := setAll s.u64ToStr (old.map fun o => (o.2.1, o.1)),
               docs := setAll s.docs (old.map fun o => (o.1, o.2.2)) } := by
  induction old generalizing s with
  | nil => rfl
  | cons o old ih => rw [List.foldl_cons, ih]; rfl

/-- The unwinding loop, over entries that the id map still holds. -/
theorem unmapRows_eq {l : List (ι × ℕ)} (hnd : (l.map Prod.fst).Nodup)
    (hl : ∀ p ∈ l, m.strToU64.lookup p.1 = some p.2) :
    l.foldl (fun m p => m.unmapRow p.1 p.2) m =
      { m with strToU64 := popAll m.strToU64 (l.map Prod.fst),
               u64ToStr := popAll m.u64ToStr (l.map Prod.snd),
               docs := popAll m.docs (l.map Prod.fst) } := by
  induction l generalizing m with
  | nil => rfl
  | cons p l ih =>
    rw [List.map_cons, List.nodup_cons] at hnd
    have hp : m.unmapRow p.1 p.2 =
        { m with strToU64 := m.strToU64.erase p.1, u64ToStr := m.u64ToStr.erase p.2,
                 docs := m.docs.erase p.1 } := by
      unfold Store.unmapRow
      rw [if_pos (hl p List.mem_cons_self)]
    rw [List.foldl_cons, hp, ih hnd.2]
    · rfl
    · intro q hq
      have hne : q.1 ≠ p.1 := by
        intro h
        exact hnd.1 (h ▸ List.mem_map_of_mem hq)
      dsimp only
      rw [lookup_erase_eq, if_neg hne]
      exact hl q (List.mem_cons_of_mem _ hq)

/-- The captured entries are those of the ids already mapped. -/
theorem Store.mem_old {ids : List ι} {old : List (ι × ℕ × D)} (h : s.old ids = some old)
    {o : ι × ℕ × D} : o ∈ old ↔
      o.1 ∈ ids ∧ s.strToU64.lookup o.1 = some o.2.1 ∧ s.docs.lookup o.1 = some o.2.2 := by
  obtain ⟨i, a, doc⟩ := o
  induction ids generalizing old with
  | nil => simp [Store.old] at h; simp [h]
  | cons j ids ih =>
    unfold Store.old at h
    cases hj : s.strToU64.lookup j with
    | none =>
      rw [hj] at h
      rw [ih h, List.mem_cons]
      constructor
      · rintro ⟨hi, hrest⟩
        exact ⟨Or.inr hi, hrest⟩
      · rintro ⟨rfl | hi, hrest⟩
        · rw [hj] at hrest
          exact absurd hrest.1 (by simp)
        · exact ⟨hi, hrest⟩
    | some b =>
      rw [hj] at h
      cases hd : s.docs.lookup j with
      | none => rw [hd] at h; cases h
      | some e =>
        rw [hd] at h
        obtain ⟨rest, hrest, rfl⟩ := Option.map_eq_some_iff.mp h
        rw [List.mem_cons, ih hrest, List.mem_cons]
        constructor
        · rintro (heq | ⟨hi, hmap⟩)
          · simp only [Prod.mk.injEq] at heq
            obtain ⟨rfl, rfl, rfl⟩ := heq
            exact ⟨Or.inl rfl, hj, hd⟩
          · exact ⟨Or.inr hi, hmap⟩
        · rintro ⟨rfl | hi, hmap⟩
          · rw [hj, hd] at hmap
            obtain ⟨h1, h2⟩ := hmap
            left
            simp only [Prod.mk.injEq, true_and]
            exact ⟨(Option.some.inj h1).symm, (Option.some.inj h2).symm⟩
          · exact Or.inr ⟨hi, hmap⟩

/-- Distinct ids are captured once. -/
theorem Store.nodup_old {ids : List ι} (hnd : ids.Nodup) {old : List (ι × ℕ × D)}
    (h : s.old ids = some old) : (old.map fun o => o.1).Nodup := by
  induction ids generalizing old with
  | nil => simp [Store.old] at h; simp [h]
  | cons j ids ih =>
    rw [List.nodup_cons] at hnd
    unfold Store.old at h
    cases hj : s.strToU64.lookup j with
    | none => rw [hj] at h; exact ih hnd.2 h
    | some b =>
      rw [hj] at h
      cases hd : s.docs.lookup j with
      | none => rw [hd] at h; cases h
      | some e =>
        rw [hd] at h
        obtain ⟨rest, hrest, rfl⟩ := Option.map_eq_some_iff.mp h
        rw [List.map_cons, List.nodup_cons]
        refine ⟨fun hmem => ?_, ih hnd.2 hrest⟩
        obtain ⟨o, ho, hoj⟩ := List.mem_map.mp hmem
        have hfst : o.1 = j := hoj
        exact hnd.1 (hfst ▸ ((mem_old hrest).mp ho).1)

/-! ### One batch -/

/-- A batch ready for the maps: distinct ids, and distinct handles above every handle in use. -/
structure Store.Batch (s : Store ι V D) (l : Rows ι V D) : Prop where
  ids : (l.map fun p => p.1.1).Nodup
  handles : (l.map fun p => p.2).Nodup
  fresh : ∀ p ∈ l, s.nextU64 < p.2

/-- The store with the entries of the batch in its maps. -/
def Store.mapped (s : Store ι V D) (l : Rows ι V D) (next : ℕ) : Store ι V D :=
  { s with strToU64 := setAll s.strToU64 (l.map fun p => (p.1.1, p.2)),
           u64ToStr := setAll s.u64ToStr (l.map fun p => (p.2, p.1.1)),
           docs := setAll s.docs (l.map fun p => (p.1.1, p.1.2.1)), nextU64 := next }

variable {l : Rows ι V D} {old : List (ι × ℕ × D)} {next : ℕ}

theorem Store.mapped_strToU64 (hl : s.Batch l) {i : ι} {h : ℕ} :
    (s.mapped l next).strToU64.lookup i = some h ↔
      (∃ p ∈ l, p.1.1 = i ∧ p.2 = h) ∨ (i ∉ l.map fun p => p.1.1) ∧ s.strToU64.lookup i = some h := by
  have hfst : (l.map fun p => (p.1.1, p.2)).map Prod.fst = l.map fun p => p.1.1 := by
    rw [List.map_map]; rfl
  unfold Store.mapped
  rw [lookup_setAll_eq_some (hfst ▸ hl.ids), hfst, List.mem_map]
  simp only [Prod.mk.injEq]

theorem Store.mapped_u64ToStr (hl : s.Batch l) {i : ι} {h : ℕ} :
    (s.mapped l next).u64ToStr.lookup h = some i ↔
      (∃ p ∈ l, p.2 = h ∧ p.1.1 = i) ∨ (h ∉ l.map fun p => p.2) ∧ s.u64ToStr.lookup h = some i := by
  have hfst : (l.map fun p => (p.2, p.1.1)).map Prod.fst = l.map fun p => p.2 := by
    rw [List.map_map]; rfl
  unfold Store.mapped
  rw [lookup_setAll_eq_some (hfst ▸ hl.handles), hfst, List.mem_map]
  simp only [Prod.mk.injEq]

theorem Store.mem_mapped_docs {i : ι} :
    i ∈ (s.mapped l next).docs ↔ (i ∈ l.map fun p => p.1.1) ∨ i ∈ s.docs := by
  unfold Store.mapped
  rw [mem_setAll, List.map_map]
  rfl

theorem Store.mem_mapped_strToU64 {i : ι} :
    i ∈ (s.mapped l next).strToU64 ↔ (i ∈ l.map fun p => p.1.1) ∨ i ∈ s.strToU64 := by
  unfold Store.mapped
  rw [mem_setAll, List.map_map]
  rfl

/-- A captured handle is one the store had, of an id of the batch. -/
theorem Store.mem_oldHandles (hs : s.Maps) (hold : s.old (l.map fun p => p.1.1) = some old)
    {h : ℕ} : (h ∈ old.map fun o => o.2.1) ↔
      ∃ i ∈ l.map fun p => p.1.1, s.strToU64.lookup i = some h := by
  rw [List.mem_map]
  constructor
  · rintro ⟨o, ho, rfl⟩
    obtain ⟨hi, hh, -⟩ := (mem_old hold).mp ho
    exact ⟨o.1, hi, hh⟩
  · rintro ⟨i, hi, hh⟩
    have hmem : i ∈ s.docs := (hs.payload i).mpr (Dict.mem_iff_lookup.mpr ⟨h, hh⟩)
    obtain ⟨doc, hdoc⟩ := Dict.mem_iff_lookup.mp hmem
    exact ⟨(i, h, doc), (mem_old hold).mpr ⟨hi, hh, hdoc⟩, rfl⟩

/-- A new handle is above every captured one. -/
theorem Store.Maps.new_notMem_old (hs : s.Maps) (hl : s.Batch l) (hold : s.old (l.map fun p => p.1.1) = some old) :
    ∀ p ∈ l, p.2 ∉ old.map fun o => o.2.1 := by
  intro p hp hmem
  obtain ⟨i, -, hi⟩ := (mem_oldHandles hs hold).mp hmem
  have h1 := hs.watermark i _ hi
  have h2 := hl.fresh p hp
  omega

/-- An id the batch leaves alone keeps a handle that is not dropped. -/
theorem Store.Maps.kept_notMem_old (hs : s.Maps) (hold : s.old (l.map fun p => p.1.1) = some old) {i : ι} {h : ℕ}
    (hi : i ∉ l.map fun p => p.1.1) (hh : s.strToU64.lookup i = some h) : h ∉ old.map fun o => o.2.1 := by
  intro hmem
  obtain ⟨j, hj, hjh⟩ := (mem_oldHandles hs hold).mp hmem
  exact hi (hs.key_unique hjh hh ▸ hj)

/-- The rows added and the replaced vectors dropped: the maps agree again. -/
theorem Store.Maps.replace (hs : s.Maps) (next : ℕ) (hl : s.Batch l)
    (hold : s.old (l.map fun p => p.1.1) = some old) (hnext : ∀ p ∈ l, p.2 ≤ next)
    (hle : s.nextU64 ≤ next) (ix : Index V) :
    (old.foldl Store.dropRow { s.mapped l next with index := ix }).Maps := by
  rw [dropRows_eq]
  have hnotNew : ∀ i h, s.strToU64.lookup i = some h → h ∉ l.map fun p => p.2 := by
    intro i h hi hmem
    obtain ⟨p, hp, rfl⟩ := List.mem_map.mp hmem
    have h1 := hs.watermark i _ hi
    have h2 := hl.fresh p hp
    omega
  constructor
  · intro i h
    dsimp only
    rw [lookup_popAll]
    constructor
    · intro hi
      rcases (mapped_strToU64 hl).mp hi with ⟨p, hp, rfl, rfl⟩ | ⟨hni, hi⟩
      · rw [if_neg (hs.new_notMem_old hl hold p hp)]
        exact (mapped_u64ToStr hl).mpr (Or.inl ⟨p, hp, rfl, rfl⟩)
      · rw [if_neg (hs.kept_notMem_old hold hni hi)]
        exact (mapped_u64ToStr hl).mpr (Or.inr ⟨hnotNew i h hi, (hs.inverse i h).mp hi⟩)
    · intro hr
      split at hr
      · cases hr
      next hno =>
        apply (mapped_strToU64 hl).mpr
        rcases (mapped_u64ToStr hl).mp hr with ⟨p, hp, rfl, rfl⟩ | ⟨-, hr⟩
        · exact Or.inl ⟨p, hp, rfl, rfl⟩
        · have hi := (hs.inverse i h).mpr hr
          refine Or.inr ⟨fun hmem => ?_, hi⟩
          exact hno ((mem_oldHandles hs hold).mpr ⟨i, hmem, hi⟩)
  · intro i
    dsimp only
    rw [mem_mapped_docs, mem_mapped_strToU64, hs.payload]
  · intro i h hmap
    have hi : (s.mapped l next).strToU64.lookup i = some h := hmap
    rcases (mapped_strToU64 hl).mp hi with ⟨p, hp, -, rfl⟩ | ⟨-, hi⟩
    · exact hnext p hp
    · exact (hs.watermark i h hi).trans hle

/-- The rows added and the replaced vectors dropped: consistent again. -/
theorem Store.Consistent.replace (hs : s.Consistent) (next : ℕ) (hl : s.Batch l)
    (hold : s.old (l.map fun p => p.1.1) = some old) (hnext : ∀ p ∈ l, p.2 ≤ next)
    (hle : s.nextU64 ≤ next) {ix : Index V}
    (hix : ix.rows = setAll s.index.rows (l.map fun p => (p.2, p.1.2.2))) :
    (old.foldl Store.dropRow { s.mapped l next with index := ix }).Consistent := by
  obtain ⟨hinverse, hpayload, hwatermark⟩ := hs.maps.replace next hl hold hnext hle ix
  refine ⟨fun h => ?_, hinverse, hpayload, hwatermark⟩
  rw [dropRows_eq]
  have hrows : h ∈ ix.rows ↔ (h ∈ l.map fun p => p.2) ∨ h ∈ s.index.rows := by
    rw [hix, mem_setAll, List.map_map]
    rfl
  rw [mem_popAll, hrows]
  constructor
  · rintro ⟨hno, hnew | hin⟩
    · obtain ⟨p, hp, rfl⟩ := List.mem_map.mp hnew
      have hmap : (s.mapped l next).strToU64.lookup p.1.1 = some p.2 :=
        (mapped_strToU64 hl).mpr (Or.inl ⟨p, hp, rfl, rfl⟩)
      exact ⟨p.1.1, hmap⟩
    · obtain ⟨i, hi⟩ := (hs.handles h).mp hin
      have hmap : (s.mapped l next).strToU64.lookup i = some h := by
        refine (mapped_strToU64 hl).mpr (Or.inr ⟨fun hmem => ?_, hi⟩)
        exact hno ((mem_oldHandles hs.maps hold).mpr ⟨i, hmem, hi⟩)
      exact ⟨i, hmap⟩
  · rintro ⟨i, hmap⟩
    have hi : (s.mapped l next).strToU64.lookup i = some h := hmap
    rcases (mapped_strToU64 hl).mp hi with ⟨p, hp, rfl, rfl⟩ | ⟨hni, hi⟩
    · exact ⟨hs.maps.new_notMem_old hl hold p hp, Or.inl (List.mem_map.mpr ⟨p, hp, rfl⟩)⟩
    · exact ⟨hs.maps.kept_notMem_old hold hni hi, Or.inr ((hs.handles h).mpr ⟨i, hi⟩)⟩

/-- The maps unwound and the captured entries put back: the maps of before. -/
theorem Store.Maps.unwind (hs : s.Maps) (next : ℕ) (hl : s.Batch l)
    (hold : s.old (l.map fun p => p.1.1) = some old) :
    old.foldl Store.restoreRow ((l.map fun p => (p.1.1, p.2)).foldl (fun m p => m.unmapRow p.1 p.2)
      (s.mapped l next)) = { s with nextU64 := next } := by
  have hids : ∀ f : (ι × D × V) × ℕ → ℕ,
      (l.map fun p => (p.1.1, f p)).map Prod.fst = l.map fun p => p.1.1 := by
    intro f
    rw [List.map_map]; rfl
  have hsnd : (l.map fun p => (p.1.1, p.2)).map Prod.snd = l.map fun p => p.2 := by
    rw [List.map_map]; rfl
  rw [unmapRows_eq (hids (fun p => p.2) ▸ hl.ids), restoreRows_eq, hids, hsnd]
  swap
  · intro q hq
    obtain ⟨p, hp, rfl⟩ := List.mem_map.mp hq
    exact (mapped_strToU64 hl).mpr (Or.inl ⟨p, hp, rfl, rfl⟩)
  have hnd := nodup_old hl.ids hold
  -- Each map is filled, popped and refilled with the old entries of the batch, which are all it held there.
  have hstr : setAll (popAll (setAll s.strToU64 (l.map fun p => (p.1.1, p.2)))
      (l.map fun p => p.1.1)) (old.map fun o => (o.1, o.2.1)) = s.strToU64 := by
    rw [← hids fun p => p.2]
    apply setAll_popAll_setAll
    · rwa [List.map_map]
    · intro q hq
      obtain ⟨o, ho, rfl⟩ := List.mem_map.mp hq
      exact ((mem_old hold).mp ho).2.1
    · intro i hi h hh
      rw [hids] at hi
      obtain ⟨doc, hdoc⟩ := Dict.mem_iff_lookup.mp
        ((hs.payload i).mpr (Dict.mem_iff_lookup.mpr ⟨h, hh⟩))
      exact List.mem_map.mpr ⟨(i, h, doc), (mem_old hold).mpr ⟨hi, hh, hdoc⟩, rfl⟩
  have hdocs : setAll (popAll (setAll s.docs (l.map fun p => (p.1.1, p.1.2.1)))
      (l.map fun p => p.1.1)) (old.map fun o => (o.1, o.2.2)) = s.docs := by
    have hfst : (l.map fun p => (p.1.1, p.1.2.1)).map Prod.fst = l.map fun p => p.1.1 := by
      rw [List.map_map]; rfl
    rw [← hfst]
    apply setAll_popAll_setAll
    · rwa [List.map_map]
    · intro q hq
      obtain ⟨o, ho, rfl⟩ := List.mem_map.mp hq
      exact ((mem_old hold).mp ho).2.2
    · intro i hi doc hdoc
      rw [hfst] at hi
      obtain ⟨h, hh⟩ := Dict.mem_iff_lookup.mp
        ((hs.payload i).mp (Dict.mem_iff_lookup.mpr ⟨doc, hdoc⟩))
      exact List.mem_map.mpr ⟨(i, h, doc), (mem_old hold).mpr ⟨hi, hh, hdoc⟩, rfl⟩
  have hrev : setAll (popAll (setAll s.u64ToStr (l.map fun p => (p.2, p.1.1)))
      (l.map fun p => p.2)) (old.map fun o => (o.2.1, o.1)) = s.u64ToStr := by
    have hfst : (l.map fun p => (p.2, p.1.1)).map Prod.fst = l.map fun p => p.2 := by
      rw [List.map_map]; rfl
    rw [← hfst]
    apply setAll_popAll_setAll
    · rw [List.map_map]
      refine (List.Nodup.of_map _ hnd).map_on ?_
      intro o ho o' ho' heq
      obtain ⟨-, hh, hdoc⟩ := (mem_old hold).mp ho
      obtain ⟨-, hh', hdoc'⟩ := (mem_old hold).mp ho'
      have hhandle : o.2.1 = o'.2.1 := heq
      have hid : o.1 = o'.1 := hs.key_unique hh (hhandle ▸ hh')
      exact List.inj_on_of_nodup_map hnd ho ho' hid
    · intro q hq
      obtain ⟨o, ho, rfl⟩ := List.mem_map.mp hq
      exact (hs.inverse _ _).mp ((mem_old hold).mp ho).2.1
    · intro h hh i hi
      rw [hfst] at hh
      obtain ⟨p, hp, rfl⟩ := List.mem_map.mp hh
      have h1 := hs.watermark i _ ((hs.inverse i _).mpr hi)
      have h2 := hl.fresh p hp
      omega
  unfold Store.mapped
  dsimp only
  rw [hstr, hdocs, hrev]

/-! ### One call -/

omit [DecidableEq ι] in
theorem rows_zip_handles (rows : List (ι × D × V)) (hs : List ℕ) (hlen : hs.length = rows.length) :
    (rows.zip hs).map (fun p => p.1.1) = rows.map (fun r => r.1) ∧
      (rows.zip hs).map (fun p => p.2) = hs ∧
      (rows.map fun r => r.1).zip hs = (rows.zip hs).map (fun p => (p.1.1, p.2)) ∧
      hs.zip (rows.map fun r => r.2.2) = (rows.zip hs).map fun p => (p.2, p.1.2.2) := by
  induction rows generalizing hs with
  | nil =>
    have hnil : hs = [] := List.eq_nil_of_length_eq_zero hlen
    simp [hnil]
  | cons r rows ih =>
    cases hs with
    | nil => simp at hlen
    | cons h hs =>
      obtain ⟨h1, h2, h3, h4⟩ := ih hs (by simpa using hlen)
      simp only [List.zip_cons_cons, List.map_cons, h1, h2, h3, h4, and_self]

omit [DecidableEq ι] in
/-- What the index add is given of the rows. -/
theorem batch_zip_handles (rows : List (ι × D × V)) (hs : List ℕ) (hlen : hs.length = rows.length) :
    ((rows.zip hs).map fun p => (p.2, p.1.2.2)).map Prod.snd = rows.map (fun r => r.2.2) ∧
      (rows ≠ [] → ((rows.zip hs).map fun p => (p.2, p.1.2.2)) ≠ []) := by
  have hbatch := (rows_zip_handles rows hs hlen).2.2.2
  rw [← hbatch]
  constructor
  · rw [List.map_snd_zip]
    rw [List.length_map, hlen]
  · intro hne hnil
    have hzero := congrArg List.length hnil
    rw [List.length_zip, hlen, List.length_map, min_self] at hzero
    exact hne (List.eq_nil_of_length_eq_zero hzero)

omit [DecidableEq ι] in
/-- Rows with distinct ids beside the next handles. -/
theorem zip_issued (n : ℕ) {rows : List (ι × D × V)} (hnd : (rows.map fun r => r.1).Nodup) :
    ((rows.zip (List.range' (n + 1) rows.length)).map fun p => p.1.1).Nodup ∧
      ((rows.zip (List.range' (n + 1) rows.length)).map fun p => p.2).Nodup ∧
      ∀ p ∈ rows.zip (List.range' (n + 1) rows.length), n < p.2 ∧ p.2 ≤ n + rows.length := by
  obtain ⟨hids, hhandles, -, -⟩ := rows_zip_handles rows (List.range' (n + 1) rows.length) List.length_range'
  refine ⟨by rwa [hids], by rw [hhandles]; exact List.nodup_range', fun p hp => ?_⟩
  have hph : p.2 ∈ List.range' (n + 1) rows.length := hhandles ▸ List.mem_map_of_mem hp
  have := List.mem_range'_1.mp hph
  omega

theorem Store.old_nextU64 (s : Store ι V D) (n : ℕ) (ids : List ι) :
    Store.old { s with nextU64 := n } ids = s.old ids := by
  induction ids with
  | nil => rfl
  | cons i ids ih =>
    unfold Store.old
    rw [ih]

theorem Store.Maps.advance (hs : s.Maps) {n : ℕ} (h : s.nextU64 ≤ n) (ix : Index V) :
    Store.Maps { s with index := ix, nextU64 := n } :=
  ⟨hs.inverse, hs.payload, fun i a ha => (hs.watermark i a ha).trans h⟩

theorem Store.Consistent.advance (hs : s.Consistent) {n : ℕ} (h : s.nextU64 ≤ n) :
    Store.Consistent { s with nextU64 := n } :=
  ⟨hs.handles, hs.inverse, hs.payload, (hs.maps.advance h s.index).watermark⟩

omit [DecidableEq ι] in
/-- Rows with distinct ids beside newly issued handles make a batch. -/
theorem Store.batch_of_rows (s : Store ι V D) {rows : List (ι × D × V)}
    (hnd : (rows.map fun r => r.1).Nodup) : s.Batch (rows.zip (s.handles rows.length)) ∧
      ∀ p ∈ rows.zip (s.handles rows.length), p.2 ≤ s.nextU64 + rows.length := by
  obtain ⟨hids, hhandles, hmem⟩ := zip_issued s.nextU64 hnd
  exact ⟨⟨hids, hhandles, fun p hp => (hmem p hp).1⟩, fun p hp => (hmem p hp).2⟩

/-- A call that returns leaves a consistent store, and one that raises leaves the store it found, apart
from the handles it has used up. -/
def Store.AllOrNothing (s : Store ι V D) (r : Store ι V D × Outcome) : Prop :=
  s.nextU64 ≤ r.1.nextU64 ∧ r.1.Consistent ∧
    (r.2 ≠ .returned → r.1 = { s with nextU64 := r.1.nextU64 })

theorem Store.Consistent.allOrNothing_self (hs : s.Consistent) (o : Outcome) : s.AllOrNothing (s, o) :=
  ⟨le_rfl, hs, fun _ => rfl⟩

theorem Store.Consistent.allOrNothing_advance (hs : s.Consistent) (o : Outcome) {n : ℕ}
    (h : s.nextU64 ≤ n) : s.AllOrNothing ({ s with nextU64 := n }, o) :=
  ⟨h, hs.advance h, fun _ => rfl⟩

theorem Store.Consistent.storeRows {K : Kernel V} {cs d : ℕ} {stop : Option ℕ} (hs : s.Consistent)
    {rows : List (ι × D × V)} (hrows : rows ≠ []) (hnd : (rows.map fun r => r.1).Nodup)
    (hwhole : ¬ LandsBetween K cs d (rows.map fun r => r.2.2) stop) :
    s.AllOrNothing (s.storeRows K cs d rows stop) := by
  unfold Store.storeRows
  split
  · exact hs.allOrNothing_self _
  dsimp only
  split
  · exact hs.allOrNothing_advance _ (by omega)
  rw [old_nextU64]
  cases hold : s.old (rows.map fun r => r.1) with
  | none => exact hs.allOrNothing_advance _ (by omega)
  | some old =>
    dsimp only
    have hlen : (s.handles rows.length).length = rows.length := List.length_range'
    obtain ⟨hids, -, hzip, hbatch⟩ := rows_zip_handles rows _ hlen
    set l : Rows ι V D := rows.zip (s.handles rows.length) with hl
    obtain ⟨hb, hnext⟩ := s.batch_of_rows hnd
    obtain ⟨hsnd, hbne⟩ := batch_zip_handles rows _ hlen
    rw [mapRows_eq, hzip, hbatch]
    dsimp only
    rw [← hids] at hold
    -- Either the index took nothing and the maps are unwound, or it took the whole batch.
    rcases addWithIds_cases s.index (hbne hrows) (hsnd ▸ hwhole) with hadd | ⟨ix', hadd, -, hix⟩
    · rw [hadd]
      have hmapped : ({ s with
          strToU64 := setAll s.strToU64 (l.map fun p => (p.1.1, p.2))
          u64ToStr := setAll s.u64ToStr (l.map fun p => (p.2, p.1.1))
          docs := setAll s.docs (l.map fun p => (p.1.1, p.1.2.1))
          nextU64 := s.nextU64 + rows.length } : Store ι V D) = s.mapped l (s.nextU64 + rows.length) := rfl
      dsimp only
      rw [hmapped, hs.maps.unwind (s.nextU64 + rows.length) hb hold]
      exact hs.allOrNothing_advance _ (by omega)
    · rw [hadd]
      change s.AllOrNothing (old.foldl Store.dropRow { s.mapped l (s.nextU64 + rows.length) with index := ix' },
        Outcome.returned)
      have hcons := hs.replace (s.nextU64 + rows.length) hb hold hnext (by omega) hix
      refine ⟨?_, hcons, fun h => absurd rfl h⟩
      rw [dropRows_eq]
      change s.nextU64 ≤ s.nextU64 + rows.length
      omega

theorem mem_keepLast {β : Type} {rows : List (ι × β)} {r : ι × β} (h : r ∈ keepLast rows) :
    r ∈ rows := by
  induction rows with
  | nil => exact h
  | cons q rows ih =>
    unfold keepLast at h
    split at h
    · exact List.mem_cons_of_mem _ (ih h)
    · rcases List.mem_cons.mp h with rfl | h
      · exact List.mem_cons_self
      · exact List.mem_cons_of_mem _ (ih h)

theorem nodup_keepLast {β : Type} (rows : List (ι × β)) : ((keepLast rows).map Prod.fst).Nodup := by
  induction rows with
  | nil => exact List.nodup_nil
  | cons q rows ih =>
    unfold keepLast
    split
    · exact ih
    next hq =>
      rw [List.map_cons, List.nodup_cons]
      refine ⟨fun hmem => ?_, ih⟩
      obtain ⟨r, hr, hrq⟩ := List.mem_map.mp hmem
      exact hq (hrq ▸ List.mem_map_of_mem (mem_keepLast hr))

theorem keepLast_ne_nil {β : Type} {rows : List (ι × β)} (h : rows ≠ []) : keepLast rows ≠ [] := by
  induction rows with
  | nil => exact absurd rfl h
  | cons q rows ih =>
    unfold keepLast
    split
    next hq =>
      apply ih
      rintro rfl
      simp at hq
    next => exact List.cons_ne_nil _ _

/-- The rows of a batch that reach the index. -/
def keptRows (fw : Framework) (rows : List (ι × D × V)) : List (ι × D × V) :=
  match fw with
  | .langchain => keepLast rows
  | .llamaIndex => rows

theorem Store.Consistent.add {K : Kernel V} {fw : Framework} {cs d : ℕ} {stop : Option ℕ}
    (hs : s.Consistent) {rows : List (ι × D × V)}
    (hwhole : ¬ LandsBetween K cs d ((keptRows fw rows).map fun r => r.2.2) stop) :
    s.AllOrNothing (s.add K fw cs d rows stop) := by
  unfold Store.add
  split
  · exact hs.allOrNothing_self _
  next hne =>
    have hne : rows ≠ [] := fun h => hne (by rw [h]; rfl)
    cases fw with
    | langchain => exact hs.storeRows (keepLast_ne_nil hne) (nodup_keepLast rows) hwhole
    | llamaIndex =>
      dsimp only
      split
      next hnd => exact hs.storeRows hne hnd hwhole
      next => exact hs.allOrNothing_self _

theorem Store.Maps.removeId (hs : s.Maps) (i : ι) : (s.removeId i).Maps := by
  unfold Store.removeId
  cases hi : s.strToU64.lookup i with
  | none => exact hs
  | some h =>
    constructor
    · intro j a
      change (s.strToU64.erase i).lookup j = some a ↔ (s.u64ToStr.erase h).lookup a = some j
      rw [lookup_erase_eq, lookup_erase_eq]
      have hih := (hs.inverse i h).mp hi
      have hja := hs.inverse j a
      by_cases h1 : j = i <;> by_cases h2 : a = h
      · simp [h1, h2]
      · subst h1
        rw [if_pos rfl, if_neg h2, ← hja, hi]
        simp [Ne.symm h2]
      · subst h2
        rw [if_pos rfl, if_neg h1, hja, hih]
        simp [Ne.symm h1]
      · rw [if_neg h1, if_neg h2, hja]
    · intro j
      change j ∈ s.docs.erase i ↔ j ∈ s.strToU64.erase i
      rw [Finmap.mem_erase, Finmap.mem_erase, hs.payload]
    · intro j a hj
      dsimp only at hj
      rw [lookup_erase_eq] at hj
      split at hj
      · cases hj
      · exact hs.watermark j a hj

theorem Store.Consistent.removeId (hs : s.Consistent) (i : ι) : (s.removeId i).Consistent := by
  obtain ⟨hinverse, hpayload, hwatermark⟩ := hs.maps.removeId i
  refine ⟨?_, hinverse, hpayload, hwatermark⟩
  unfold Store.removeId
  cases hi : s.strToU64.lookup i with
  | none => exact hs.handles
  | some h =>
    intro a
    change a ∈ s.index.rows.erase h ↔ ∃ j, (s.strToU64.erase i).lookup j = some a
    rw [Finmap.mem_erase, hs.handles]
    constructor
    · rintro ⟨hne, j, hj⟩
      refine ⟨j, ?_⟩
      rw [lookup_erase_eq, if_neg, hj]
      rintro rfl
      exact hne (Option.some.inj (hj.symm.trans hi))
    · rintro ⟨j, hj⟩
      rw [lookup_erase_eq] at hj
      split at hj
      · cases hj
      next hji =>
        refine ⟨?_, j, hj⟩
        rintro rfl
        exact hji (hs.key_unique hj hi)

theorem Store.Consistent.delete (hs : s.Consistent) (ids : List ι) : (s.delete ids).Consistent := by
  unfold Store.delete
  induction ids generalizing s with
  | nil => exact hs
  | cons i ids ih => exact ih (hs.removeId i)

omit [DecidableEq ι] in
/-- Distinct handles, all of the index and none above the watermark, pass the check. -/
theorem checkPersistedHandles_ok {ix : Index V} {handles : Multiset ℕ} {next : ℕ} (hnd : handles.Nodup)
    (hlen : handles.card = ix.len) (hmem : ∀ h ∈ handles, h ∈ ix.rows) (hle : ∀ h ∈ handles, h ≤ next) :
    checkPersistedHandles ix handles (some next) = .ok () := by
  have hcontains : ∀ h ∈ handles, ix.contains h = true := fun h hh => decide_eq_true (hmem h hh)
  have hcard : handles.toFinset.card = handles.card := Multiset.toFinset_card_of_nodup hnd
  have hwater : ¬ ((some next).any fun n => decide (handles ≠ 0 ∧ n < handles.sup)) = true := by
    rw [Option.any_some, decide_eq_true_eq]
    rintro ⟨-, hlt⟩
    have hsup : handles.sup ≤ next := Multiset.sup_le.mpr hle
    omega
  unfold checkPersistedHandles
  rw [if_neg (not_not.mpr hcard), if_neg (not_not.mpr hlen), if_neg (not_not.mpr hcontains), if_neg hwater]

/-- A dump of a consistent store passes the checks of the load. -/
theorem Store.Consistent.checkPersistedHandles (hs : s.Consistent) :
    Python.checkPersistedHandles s.index (values s.strToU64) (some s.nextU64) = .ok () := by
  have hnd : (values s.strToU64).Nodup := hs.inverse.values_nodup
  have hfin : (values s.strToU64).toFinset = s.index.rows.keys := by
    ext h
    rw [Multiset.mem_toFinset, mem_values, Finmap.mem_keys, hs.handles]
  apply checkPersistedHandles_ok hnd
  · rw [← Multiset.toFinset_card_of_nodup hnd, hfin]
    rfl
  · intro h hh
    exact (hs.handles h).mpr (mem_values.mp hh)
  · intro h hh
    obtain ⟨i, hi⟩ := mem_values.mp hh
    exact hs.watermark i h hi

theorem Store.Consistent.checkLoaded (hs : s.Consistent) (fw : Framework) :
    checkLoaded fw s.index s.sidecar = .ok () := by
  have hkeys : checkSidecarKeysets s.sidecar = .ok () := by
    unfold checkSidecarKeysets
    rw [if_pos]
    ext i
    rw [Finmap.mem_keys, Finmap.mem_keys]
    exact (hs.payload i).symm
  have hhandles : Python.checkPersistedHandles s.index (values s.sidecar.strToU64)
      (some s.sidecar.nextU64) = .ok () := hs.checkPersistedHandles
  have hcard : (values s.sidecar.strToU64).toFinset.card = (values s.sidecar.strToU64).card :=
    Multiset.toFinset_card_of_nodup hs.inverse.values_nodup
  cases fw with
  | langchain =>
    unfold Python.checkLoaded
    rw [hhandles, hkeys]
    rfl
  | llamaIndex =>
    unfold Python.checkLoaded
    rw [if_neg (not_not.mpr hcard), hhandles, hkeys]
    rfl

end

end Turbovec.Python
