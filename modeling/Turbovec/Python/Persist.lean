import Turbovec.Python.Micro

/-!
# Loaded stores

A load compares the handles of the index with those of the side-car; what it accepts makes a consistent store. A call
leaves rows of before under their handles, and adds rows under handles that it issues.
-/

namespace Turbovec.Python

open Dict

/-! ## The check of the load -/

/-- A pair that passes has the same handles on both sides. -/
theorem handles_of_checkPersistedHandles {V : Type} {ix : Index V} {handles : Multiset ℕ}
    {next : Option ℕ} (h : checkPersistedHandles ix handles next = .ok ()) :
    ix.rows.keys = handles.toFinset := by
  unfold checkPersistedHandles at h
  split at h
  · cases h
  next hdup =>
    split at h
    · cases h
    next hlen =>
      split at h
      · cases h
      next hmem =>
        rw [not_not] at hdup hlen hmem
        have hsub : handles.toFinset ⊆ ix.rows.keys := by
          intro a ha
          have hc := hmem a (Multiset.mem_toFinset.mp ha)
          exact Finmap.mem_keys.mpr (of_decide_eq_true hc)
        have hcard : ix.rows.keys.card ≤ handles.toFinset.card := by
          rw [hdup, hlen]
          rfl
        exact (Finset.eq_of_subset_of_card_le hsub hcard).symm

/-- A side-car that passes the check has no handle above its watermark. -/
theorem le_of_checkPersistedHandles {V : Type} {ix : Index V} {handles : Multiset ℕ} {next : ℕ}
    (h : checkPersistedHandles ix handles (some next) = .ok ()) : ∀ x ∈ handles, x ≤ next := by
  unfold checkPersistedHandles at h
  split at h
  · cases h
  · split at h
    · cases h
    · split at h
      · cases h
      · split at h
        · cases h
        next hwater =>
          intro x hx
          rw [Option.any_some, decide_eq_true_eq, not_and, not_lt] at hwater
          have hne : handles ≠ 0 := by
            rintro rfl
            exact absurd hx (Multiset.notMem_zero x)
          exact (Multiset.le_sup hx).trans (hwater hne)

section

variable {ι V D : Type} [DecidableEq ι]

theorem checkLoaded_ok {fw : Framework} {ix : Index V} {sc : Sidecar ι D} (h : checkLoaded fw ix sc = .ok ()) :
    checkPersistedHandles ix (values sc.strToU64) (some sc.nextU64) = .ok () ∧ sc.strToU64.keys = sc.docs.keys := by
  have hkeys : checkSidecarKeysets sc = .ok () → sc.strToU64.keys = sc.docs.keys := by
    intro hk
    unfold checkSidecarKeysets at hk
    split at hk
    next heq => exact heq
    next => cases hk
  cases hc : checkPersistedHandles ix (values sc.strToU64) (some sc.nextU64) with
  | error e =>
    cases fw with
    | langchain =>
      unfold checkLoaded at h
      rw [hc] at h
      cases h
    | llamaIndex =>
      unfold checkLoaded at h
      dsimp only at h
      rw [hc] at h
      split at h
      · cases h
      · cases hk : checkSidecarKeysets sc <;> rw [hk] at h <;> cases h
  | ok =>
    refine ⟨rfl, hkeys ?_⟩
    cases hk : checkSidecarKeysets sc with
    | ok => rfl
    | error e =>
      cases fw with
      | langchain =>
        unfold checkLoaded at h
        rw [hc, hk] at h
        cases h
      | llamaIndex =>
        unfold checkLoaded at h
        dsimp only at h
        rw [hk] at h
        split at h <;> cases h

/-- A store that was loaded is consistent. -/
theorem Store.LoadedFrom.consistent {fw : Framework} {ix : Index V} {sc : Sidecar ι D} {s : Store ι V D}
    (h : Store.LoadedFrom fw ix sc s) : s.Consistent := by
  obtain ⟨hcheck, rfl, rfl, hinverse⟩ := h
  obtain ⟨hhandles, hkeys⟩ := checkLoaded_ok hcheck
  have hrows := handles_of_checkPersistedHandles hhandles
  refine ⟨fun a => ?_, hinverse, fun i => ?_, fun i a hi => ?_⟩
  · rw [← Finmap.mem_keys, hrows, Multiset.mem_toFinset, mem_values]
    rfl
  · rw [← Finmap.mem_keys, ← Finmap.mem_keys]
    exact Finset.ext_iff.mp hkeys.symm i
  · exact le_of_checkPersistedHandles hhandles a (mem_values.mpr ⟨i, hi⟩)

theorem checkDocLoaded_ok {ix : Index V} {sc : DocSidecar ι D} (h : checkDocLoaded ix sc = .ok ()) :
    checkPersistedHandles ix sc.u64ToDoc.keys.val (some sc.nextU64) = .ok () := by
  unfold checkDocLoaded at h
  split at h
  · cases h
  · cases hc : checkPersistedHandles ix sc.u64ToDoc.keys.val (some sc.nextU64) with
    | ok => rfl
    | error e => rw [hc] at h; cases h

/-- The store `load_from_disk` returns on a pair that passed. -/
def DocStore.LoadedFrom (ix : Index V) (sc : DocSidecar ι D) (s : DocStore ι V D) : Prop :=
  checkDocLoaded ix sc = .ok () ∧ s.index = ix ∧ s.sidecar = sc ∧
    ∀ i h, s.strToU64.lookup i = some h ↔ ∃ data, s.u64ToDoc.lookup h = some (i, data)

theorem DocStore.LoadedFrom.consistent {ix : Index V} {sc : DocSidecar ι D} {s : DocStore ι V D}
    (h : DocStore.LoadedFrom ix sc s) : s.Consistent := by
  obtain ⟨hcheck, rfl, rfl, hinverse⟩ := h
  have hhandles := checkDocLoaded_ok hcheck
  have hrows := handles_of_checkPersistedHandles hhandles
  rw [Finset.val_toFinset] at hrows
  have hmem : ∀ a, a ∈ s.u64ToDoc ↔ ∃ i, s.strToU64.lookup i = some a := by
    intro a
    rw [Dict.mem_iff_lookup]
    constructor
    · rintro ⟨⟨i, data⟩, hd⟩
      exact ⟨i, (hinverse i a).mpr ⟨data, hd⟩⟩
    · rintro ⟨i, hi⟩
      obtain ⟨data, hd⟩ := (hinverse i a).mp hi
      exact ⟨(i, data), hd⟩
  refine ⟨fun a => ?_, hinverse, fun i a hi => ?_⟩
  · rw [← hmem, ← Finmap.mem_keys, hrows, Finmap.mem_keys]
    rfl
  · have hin : a ∈ s.sidecar.u64ToDoc.keys := Finmap.mem_keys.mpr ((hmem a).mpr ⟨i, hi⟩)
    exact le_of_checkPersistedHandles hhandles a hin

end

/-! ## The rows a call leaves -/

/-- The rows of the second index are rows of the first, and rows under handles issued between two watermarks. -/
def RowsFrom {V : Type} (old new : Index V) (lo hi : ℕ) : Prop :=
  ∀ h v, new.rows.lookup h = some v → old.rows.lookup h = some v ∨ lo < h ∧ h ≤ hi

theorem RowsFrom.trans {V : Type} {i j k : Index V} {lo mid hi : ℕ} (h : RowsFrom i j lo mid) (h' : RowsFrom j k mid hi)
    (hle : lo ≤ mid) (hle' : mid ≤ hi) : RowsFrom i k lo hi := by
  intro a v hv
  rcases h' a v hv with hv | hv
  · exact (h a v hv).imp_right fun h => ⟨h.1, h.2.trans hle'⟩
  · exact Or.inr ⟨hle.trans_lt hv.1, hv.2⟩

section

variable {ι V D : Type} [DecidableEq ι] {K : Kernel V} {cs d : ℕ} {stop : Option ℕ}

/-- The rows of an add under newly issued handles. -/
theorem rowsFrom_addWithIds {ix : Index V} {lo n : ℕ} {vectors : List V} :
    RowsFrom ix (addWithIds K cs ix d ((List.range' (lo + 1) n).zip vectors) stop).1 lo (lo + n) := by
  intro h v hv
  rcases lookup_addWithIds hv with hv | hmem
  · exact Or.inl hv
  · have hh := List.mem_range'_1.mp (List.of_mem_zip hmem).1
    exact Or.inr ⟨by omega, by omega⟩

theorem RowsFrom.pops {old new : Index V} {lo hi : ℕ} (h : RowsFrom old new lo hi) (dim : Option ℕ) (l : List ℕ) :
    RowsFrom old ⟨dim, popAll new.rows l⟩ lo hi := by
  intro a v hv
  dsimp only at hv
  rw [lookup_popAll] at hv
  split at hv
  · cases hv
  · exact h a v hv

/-- A call's store: rows of before and rows under handles it issued. -/
def Store.Grows (s t : Store ι V D) : Prop := s.nextU64 ≤ t.nextU64 ∧ RowsFrom s.index t.index s.nextU64 t.nextU64

omit [DecidableEq ι] in
theorem Store.grows_of_index {s t : Store ι V D} (hix : t.index = s.index) (hle : s.nextU64 ≤ t.nextU64) :
    s.Grows t := ⟨hle, fun _ _ hv => Or.inl (hix ▸ hv)⟩

omit [DecidableEq ι] in
theorem Store.Grows.trans {s t u : Store ι V D} (h : s.Grows t) (h' : t.Grows u) : s.Grows u :=
  ⟨h.1.trans h'.1, h.2.trans h'.2 h.1 h'.1⟩

theorem unmapRows_frame (l : List (ι × ℕ)) (m : Store ι V D) :
    (l.foldl (fun m p => m.unmapRow p.1 p.2) m).index = m.index ∧
      (l.foldl (fun m p => m.unmapRow p.1 p.2) m).nextU64 = m.nextU64 := by
  induction l generalizing m with
  | nil => exact ⟨rfl, rfl⟩
  | cons p l ih =>
    have hone : (m.unmapRow p.1 p.2).index = m.index ∧ (m.unmapRow p.1 p.2).nextU64 = m.nextU64 := by
      unfold Store.unmapRow
      dsimp only
      split <;> exact ⟨rfl, rfl⟩
    rw [List.foldl_cons, (ih _).1, (ih _).2]
    exact hone

theorem Store.storeRows_grows (s : Store ι V D) (rows : List (ι × D × V)) :
    s.Grows (s.storeRows K cs d rows stop).1 := by
  unfold Store.storeRows
  split
  · exact Store.grows_of_index rfl le_rfl
  dsimp only
  split
  · exact Store.grows_of_index rfl (Nat.le_add_right _ _)
  split
  · exact Store.grows_of_index rfl (Nat.le_add_right _ _)
  next old _ =>
    rw [mapRows_eq]
    dsimp only
    have hrows : RowsFrom s.index (addWithIds K cs s.index d ((List.range' (s.nextU64 + 1) rows.length).zip
        (rows.map fun r => r.2.2)) stop).1 s.nextU64 (s.nextU64 + rows.length) := rowsFrom_addWithIds
    unfold Store.handles
    split
    next ix hadd =>
      rw [hadd] at hrows
      rw [restoreRows_eq]
      obtain ⟨hix, hnext⟩ := unmapRows_frame ((rows.map fun r => r.1).zip (List.range' (s.nextU64 + 1) rows.length))
        { s with
          index := ix
          strToU64 := setAll s.strToU64 ((rows.zip (List.range' (s.nextU64 + 1) rows.length)).map fun p => (p.1.1, p.2))
          u64ToStr := setAll s.u64ToStr ((rows.zip (List.range' (s.nextU64 + 1) rows.length)).map fun p => (p.2, p.1.1))
          docs := setAll s.docs ((rows.zip (List.range' (s.nextU64 + 1) rows.length)).map fun p => (p.1.1, p.1.2.1))
          nextU64 := s.nextU64 + rows.length }
      unfold Store.Grows
      dsimp only
      rw [hix, hnext]
      exact ⟨Nat.le_add_right _ _, hrows⟩
    next ix hadd =>
      rw [hadd] at hrows
      rw [dropRows_eq]
      exact ⟨Nat.le_add_right _ _, hrows.pops _ _⟩

theorem Store.call_grows {fw : Framework} (s : Store ι V D) (c : Call ι V D) : s.Grows (s.call K fw cs c).1 := by
  cases c with
  | add d rows stop =>
    unfold Store.call Store.add
    dsimp only
    split
    · exact Store.grows_of_index rfl le_rfl
    · cases fw with
      | langchain => exact s.storeRows_grows _
      | llamaIndex =>
        dsimp only
        split
        · exact s.storeRows_grows _
        · exact Store.grows_of_index rfl le_rfl
  | delete ids =>
    unfold Store.call Store.delete
    dsimp only
    induction ids generalizing s with
    | nil => exact Store.grows_of_index rfl le_rfl
    | cons i ids ih =>
      have hone : s.Grows (s.removeId i) := by
        unfold Store.removeId
        split
        · exact Store.grows_of_index rfl le_rfl
        · exact ⟨le_rfl, fun a v hv => Or.inl (of_lookup_erase hv).2⟩
      exact hone.trans (ih _)

/-- A call's store, on Haystack. -/
def DocStore.Grows (s t : DocStore ι V D) : Prop :=
  s.nextU64 ≤ t.nextU64 ∧ RowsFrom s.index t.index s.nextU64 t.nextU64

omit [DecidableEq ι] in
theorem DocStore.grows_of_index {s t : DocStore ι V D} (hix : t.index = s.index) (hle : s.nextU64 ≤ t.nextU64) :
    s.Grows t := ⟨hle, fun _ _ hv => Or.inl (hix ▸ hv)⟩

omit [DecidableEq ι] in
theorem DocStore.Grows.trans {s t u : DocStore ι V D} (h : s.Grows t) (h' : t.Grows u) : s.Grows u :=
  ⟨h.1.trans h'.1, h.2.trans h'.2 h.1 h'.1⟩

theorem mapDocs_frame (K : DocKernel V D) (l : List ((ι × D × V) × ℕ)) (s : DocStore ι V D) :
    (s.mapDocs K l).1.index = s.index ∧ (s.mapDocs K l).1.nextU64 = s.nextU64 := by
  induction l generalizing s with
  | nil => exact ⟨rfl, rfl⟩
  | cons p l ih =>
    obtain ⟨⟨i, data, v⟩, h⟩ := p
    unfold DocStore.mapDocs
    dsimp only
    split
    · exact ih _
    · exact ⟨rfl, rfl⟩

theorem unmapDocs_frame (l : List (ι × ℕ)) (m : DocStore ι V D) :
    (l.foldl (fun m p => m.unmapDoc p.1 p.2) m).index = m.index ∧
      (l.foldl (fun m p => m.unmapDoc p.1 p.2) m).nextU64 = m.nextU64 := by
  induction l generalizing m with
  | nil => exact ⟨rfl, rfl⟩
  | cons p l ih =>
    have hone : (m.unmapDoc p.1 p.2).index = m.index ∧ (m.unmapDoc p.1 p.2).nextU64 = m.nextU64 := by
      unfold DocStore.unmapDoc
      dsimp only
      split <;> exact ⟨rfl, rfl⟩
    rw [List.foldl_cons, (ih _).1, (ih _).2]
    exact hone

theorem DocStore.commitBatch_grows {K : DocKernel V D} (s : DocStore ι V D) (toWrite : List (ι × D × V))
    (toRemove : List ι) : s.Grows (s.commitBatch K cs toWrite toRemove stop).1 := by
  unfold DocStore.commitBatch
  dsimp only
  split
  · exact DocStore.grows_of_index rfl le_rfl
  split
  · exact DocStore.grows_of_index rfl le_rfl
  split
  · exact DocStore.grows_of_index rfl (Nat.le_add_right _ _)
  -- The loops over the maps leave the index alone; only the add and the drops touch it.
  obtain ⟨hmix, hmnext⟩ := mapDocs_frame K (toWrite.zip (List.range' (s.nextU64 + 1) toWrite.length))
    { s with nextU64 := s.nextU64 + toWrite.length }
  dsimp only at hmix hmnext
  split
  next m hm =>
    rw [hm] at hmix hmnext
    exact DocStore.grows_of_index hmix (by rw [hmnext]; exact Nat.le_add_right _ _)
  next m hm =>
    rw [hm] at hmix hmnext
    dsimp only at hmix hmnext
    rw [hmix]
    have hrows : RowsFrom s.index (addWithIds K.toKernel cs s.index ((toWrite.head?.map fun r => K.dimOf r.2.2).getD 0)
        ((List.range' (s.nextU64 + 1) toWrite.length).zip (toWrite.map fun r => r.2.2)) stop).1 s.nextU64
        (s.nextU64 + toWrite.length) := rowsFrom_addWithIds
    split
    next ix hadd =>
      rw [hadd] at hrows
      obtain ⟨hix, hnext⟩ := unmapDocs_frame
        ((toWrite.map fun r => r.1).zip (List.range' (s.nextU64 + 1) toWrite.length)) { m with index := ix }
      rw [restoreDocs_eq]
      unfold DocStore.Grows
      dsimp only
      rw [hix, hnext, hmnext]
      exact ⟨Nat.le_add_right _ _, hrows⟩
    next ix hadd =>
      rw [hadd] at hrows
      rw [dropDocs_eq]
      unfold DocStore.Grows
      dsimp only
      rw [hmnext]
      exact ⟨Nat.le_add_right _ _, hrows.pops _ _⟩

theorem DocStore.writeFail_grows {K : DocKernel V D} (docs : List (ι × D × Option V)) (s : DocStore ι V D)
    (stop : Option ℕ) : s.Grows (s.writeFail K cs docs stop).1 := by
  induction docs generalizing s stop with
  | nil => exact DocStore.grows_of_index rfl le_rfl
  | cons doc docs ih =>
    rcases s.writeFail_cases K cs doc docs stop with hrun | ⟨v, -, -, ⟨s', hc, hrun⟩ | ⟨-, hrun⟩⟩
    · rw [hrun]
      exact DocStore.grows_of_index rfl le_rfl
    · have hone : s.Grows (s.commitBatch K cs [(doc.1, doc.2.1, v)] [] stop).1 := s.commitBatch_grows _ _
      rw [hc] at hone
      rw [hrun docs]
      exact hone.trans (ih s' _)
    · rw [hrun]
      exact s.commitBatch_grows _ _

theorem DocStore.call_grows {K : DocKernel V D} (s : DocStore ι V D) (c : DocCall ι V D) :
    s.Grows (s.call K cs c).1 := by
  cases c with
  | write policy docs stop =>
    show s.Grows (s.writeDocuments K cs policy docs stop).1
    by_cases hp : policy = .fail
    · subst hp
      exact DocStore.writeFail_grows docs s stop
    · rw [DocStore.writeDocuments_eq hp]
      split
      · exact DocStore.grows_of_index rfl le_rfl
      · split
        · exact DocStore.grows_of_index rfl le_rfl
        · exact s.commitBatch_grows _ _
  | delete ids =>
    unfold DocStore.call DocStore.deleteDocuments
    dsimp only
    induction ids generalizing s with
    | nil => exact DocStore.grows_of_index rfl le_rfl
    | cons i ids ih =>
      have hone : s.Grows (s.removeOne i) := by
        unfold DocStore.removeOne
        split
        · exact DocStore.grows_of_index rfl le_rfl
        · exact ⟨le_rfl, fun a v hv => Or.inl (of_lookup_erase hv).2⟩
      exact hone.trans (ih _)

end

end Turbovec.Python
