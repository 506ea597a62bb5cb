import Turbovec.Lib.PairedFiles
import Turbovec.Python.SideIndexes

/-!
# The persisted pair

`atomic_save` writes an index and its side-car and replaces the two files one after the other, and the load compares
the handles of the two. A handle stands for one row in all the files about, as long as none is issued again that
another store, a save under way or a file still has; then what loads is of one save.
-/

namespace Turbovec.Python

open Dict PairedFiles

/-! ## What an Agno call leaves -/

namespace Agno

variable {V μ : Type}

/-- The index has the handles of the payloads, none above the watermark. -/
structure Store.Paired (s : Store V μ) : Prop where
  handles : s.indexed = s.u64ToDoc.keys
  watermark : ∀ h ∈ s.u64ToDoc, h ≤ s.nextU64

def Store.row (s : Store V μ) (h : ℕ) : Option V := s.index.bind fun ix => ix.rows.lookup h

/-- A call's store: paired, with rows of before and rows under handles it issued. -/
structure Grown (s t : Store V μ) : Prop where
  paired : t.Paired
  le : s.nextU64 ≤ t.nextU64
  rows : ∀ h v, t.row h = some v → s.row h = some v ∨ s.nextU64 < h ∧ h ≤ t.nextU64

variable {s t u : Store V μ}

theorem Store.Paired.grown (hs : s.Paired) : Grown s s := ⟨hs, le_rfl, fun _ _ hv => Or.inl hv⟩

theorem Grown.trans (h : Grown s t) (h' : Grown t u) : Grown s u := by
  refine ⟨h'.paired, h.le.trans h'.le, fun a v hv => ?_⟩
  rcases h'.rows a v hv with hv | hv
  · exact (h.rows a v hv).imp_right fun hv => ⟨hv.1, hv.2.trans h'.le⟩
  · exact Or.inr ⟨h.le.trans_lt hv.1, hv.2⟩

theorem Store.Paired.mem_rows (hs : s.Paired) {ix : Index V} (hix : s.index = some ix) (x : ℕ) :
    x ∈ ix.rows ↔ x ∈ s.u64ToDoc := by
  have hkeys := Finset.ext_iff.mp hs.handles x
  rwa [Store.indexed, hix, Option.map_some, Option.getD_some, Finmap.mem_keys, Finmap.mem_keys] at hkeys

theorem Store.Paired.of_mem_rows {ix : Index V} (hix : s.index = some ix) (h : ∀ x, x ∈ ix.rows ↔ x ∈ s.u64ToDoc)
    (hle : ∀ x ∈ s.u64ToDoc, x ≤ s.nextU64) : s.Paired := by
  refine ⟨?_, hle⟩
  rw [Store.indexed, hix]
  ext x
  rw [Option.map_some, Option.getD_some, Finmap.mem_keys, Finmap.mem_keys, h]

theorem paired_new (V μ : Type) (dimensions : ℕ) (distance : String) :
    (Store.new V μ dimensions distance).Paired := ⟨rfl, fun _ hh => absurd hh Finmap.notMem_empty⟩

theorem Store.Paired.removeHandle (hs : s.Paired) (h : ℕ) : Grown s (s.removeHandle h) := by
  unfold Store.removeHandle
  cases hix : s.index with
  | none => exact hs.grown
  | some ix =>
    dsimp only
    cases hl : s.u64ToDoc.lookup h with
    | none => exact hs.grown
    | some data =>
      refine ⟨.of_mem_rows rfl (fun x => ?_) (fun x hx => ?_), le_rfl, fun a v hv => Or.inl ?_⟩
      · rw [unlink_u64ToDoc, Finmap.mem_erase, ← hs.mem_rows hix x]
        exact Finmap.mem_erase
      · rw [unlink_u64ToDoc, Finmap.mem_erase] at hx
        exact hs.watermark x hx.2
      · rw [Store.row, hix]
        exact (of_lookup_erase hv).2

theorem Store.Paired.removeAll (hs : s.Paired) (l : List ℕ) : Grown s (l.foldl Store.removeHandle s) := by
  induction l generalizing s with
  | nil => exact hs.grown
  | cons h l ih =>
    have hone := hs.removeHandle h
    exact hone.trans (ih hone.paired)

theorem Store.Paired.deleteById (hs : s.Paired) (id : String) (order : IterOrder) :
    Grown s (s.deleteById id order).1 := by
  unfold Store.deleteById
  split
  · exact hs.grown
  · split
    · exact hs.grown
    · split
      · exact hs.grown
      · exact hs.removeAll _

theorem Store.Paired.deleteWhere (hs : s.Paired) (order : IterOrder) (p : Payload μ → Bool) :
    Grown s (s.deleteWhere order p).1 := by
  unfold Store.deleteWhere
  split
  · exact hs.grown
  · exact hs.removeAll _

theorem Store.Paired.updateMetadata (hs : s.Paired) (contentId : Option String) (metadata : Dict String μ)
    (order : IterOrder) : Grown s (s.updateMetadata contentId metadata order) := by
  unfold Store.updateMetadata
  split
  next ix content hix =>
    -- Payloads are rewritten under handles that have one.
    have hmem : ∀ x (l : List ℕ), (∀ h ∈ l, h ∈ s.u64ToDoc) → (x ∈ setAll s.u64ToDoc
        (l.filterMap fun h => (s.u64ToDoc.lookup h).map fun data => (h, data.merge metadata)) ↔ x ∈ s.u64ToDoc) := by
      intro x l hl
      rw [mem_setAll, items_fst _ hl]
      exact or_iff_right_of_imp (hl x)
    have hold : ∀ h ∈ s.handlesWhere order fun data => decide (data.contentId = some content), h ∈ s.u64ToDoc := by
      intro h hh
      obtain ⟨d, hd, -⟩ := mem_handlesWhere.mp hh
      exact mem_iff_lookup.mpr ⟨d, hd⟩
    refine ⟨.of_mem_rows hix (fun x => (hs.mem_rows hix x).trans (hmem x _ hold).symm)
      (fun x hx => hs.watermark x ((hmem x _ hold).mp hx)), le_rfl, fun a v hv => Or.inl hv⟩
  next => exact hs.grown

theorem unlinkAll_frame (l : List (ℕ × Payload μ)) (s : Store V μ) :
    (s.unlinkAll l).index = s.index ∧ (s.unlinkAll l).nextU64 = s.nextU64 ∧
      (s.unlinkAll l).u64ToDoc = s.u64ToDoc := by
  induction l generalizing s with
  | nil => exact ⟨rfl, rfl, rfl⟩
  | cons p l ih => exact ih (s.unlinkPayload p.1 p.2)

theorem Store.Paired.insertLocked (hs : s.Paired) (env : Env V) {payloads : List (Payload μ)} {vectors : List V}
    (refuse : Bool) (hvec : vectors.length = payloads.length) :
    Grown s (s.insertLocked env payloads vectors refuse).1 := by
  cases hix : s.index with
  | none =>
    unfold Store.insertLocked
    rw [hix]
    exact hs.grown
  | some ix =>
    have hfree : ∀ h ∈ List.range' (s.nextU64 + 1) payloads.length, s.u64ToDoc.lookup h = none := by
      intro h hh
      by_contra hne
      have hle := hs.watermark h (mem_iff_lookup.mpr (Option.ne_none_iff_exists'.mp hne))
      have hlt := (List.mem_range'_1.mp hh).1
      omega
    -- The rows and payloads of before, under a watermark that is ahead.
    have hsame : ∀ r : Store V μ, r.index = s.index → r.u64ToDoc = s.u64ToDoc →
        r.nextU64 = s.nextU64 + payloads.length → Grown s r := by
      intro r hrix hdoc hnext
      refine ⟨.of_mem_rows (hrix.trans hix) (fun x => hdoc ▸ hs.mem_rows hix x) (fun x hx => ?_), ?_, ?_⟩
      · rw [hdoc] at hx
        rw [hnext]
        exact (hs.watermark x hx).trans (Nat.le_add_right _ _)
      · rw [hnext]
        exact Nat.le_add_right _ _
      · intro a v hv
        rw [Store.row, hrix] at hv
        exact Or.inl hv
    rcases insertLocked_cases env vectors refuse hix hfree with hr | ⟨t, hl, ⟨ix', hraw, hr⟩ | hr⟩
    · rw [hr]
      exact hsame _ rfl rfl rfl
    · rw [hr]
      have hnext : t.nextU64 = s.nextU64 + payloads.length := hl.nextU64
      have hdoc : ∀ x, x ∈ t.u64ToDoc ↔ (s.nextU64 < x ∧ x ≤ s.nextU64 + payloads.length) ∨ x ∈ s.u64ToDoc := by
        intro x
        rw [hl.u64ToDoc, mem_setAll, List.map_fst_zip List.length_range'.le, List.mem_range'_1]
        exact or_congr_left ⟨fun hx => ⟨by omega, by omega⟩, fun hx => ⟨by omega, by omega⟩⟩
      refine ⟨.of_mem_rows rfl (fun x => ?_) (fun x hx => ?_), ?_, fun a v hv => ?_⟩
      · rw [mem_rows_insertLocked hvec hraw, hs.mem_rows hix x]
        exact (hdoc x).symm
      · show x ≤ t.nextU64
        rw [hnext]
        rcases (hdoc x).mp hx with hx | hx
        · exact hx.2
        · exact (hs.watermark x hx).trans (Nat.le_add_right _ _)
      · show s.nextU64 ≤ t.nextU64
        rw [hnext]
        exact Nat.le_add_right _ _
      · show _ ∨ s.nextU64 < a ∧ a ≤ t.nextU64
        rw [Store.row, hix, hnext]
        have hrows : ix'.rows = setAll ix.rows ((List.range' (s.nextU64 + 1) payloads.length).zip vectors) := by
          unfold rawAddWithIds at hraw
          split at hraw
          · rw [← Option.some.inj hraw]
          · cases hraw
        change ix'.rows.lookup a = some v at hv
        rw [hrows] at hv
        rcases of_lookup_setAll hv with hmem | hold
        · have ha := List.mem_range'_1.mp (List.of_mem_zip hmem).1
          exact Or.inr ⟨by omega, by omega⟩
        · exact Or.inl hold
    · rw [hr]
      obtain ⟨hrix, hrnext, hrdoc⟩ := unlinkAll_frame
        ((List.range' (s.nextU64 + 1) payloads.length).zip payloads) { t with u64ToDoc := s.u64ToDoc }
      exact hsame _ (hrix.trans hl.index) hrdoc (hrnext.trans hl.nextU64)

theorem Store.Paired.insert (hs : s.Paired) (env : Env V) (contentHash : String) (documents : List (Document V μ))
    (filters : Dict String μ) (embedMissing : List (Document V μ) → Option (List (Document V μ))) (refuse : Bool) :
    Grown s (s.insert env contentHash documents filters embedMissing refuse).1 := by
  rcases insert_cases s env contentHash documents filters embedMissing refuse with
    ⟨e, heq⟩ | ⟨-, payloads, vectors, -, hvec, heq⟩
  · rw [heq]
    exact hs.grown
  · rw [heq]
    exact hs.insertLocked env refuse hvec

theorem Store.Paired.upsert (hs : s.Paired) (env : Env V) (contentHash : String) (documents : List (Document V μ))
    (filters : Dict String μ) (embedUpFront embedMissing : List (Document V μ) → Option (List (Document V μ)))
    (refuse : Bool) (order : IterOrder) :
    Grown s (s.upsert env contentHash documents filters embedUpFront embedMissing refuse order).1 := by
  rcases upsert_cases s env contentHash documents filters embedUpFront embedMissing refuse order with
    ⟨e, heq⟩ | ⟨docs, old, -, heq⟩
  · rw [heq]
    exact hs.grown
  · rw [heq]
    have hinsert := hs.insert env contentHash docs filters embedMissing refuse
    unfold thenRemove
    split
    · exact hinsert
    · exact hinsert.trans (hinsert.paired.removeAll old)

/-- `create` on a folder that has no files. -/
theorem Store.Paired.create (hs : s.Paired) (order : IterOrder) : Grown s (s.create none order).1 := by
  unfold Store.create
  cases hix : s.index with
  | some ix => exact hs.grown
  | none =>
    rw [if_neg (by simp)]
    have hempty : s.u64ToDoc.keys = ∅ := by
      rw [← hs.handles, Store.indexed, hix]
      rfl
    refine ⟨⟨hempty.symm, hs.watermark⟩, le_rfl, fun a v hv => ?_⟩
    change (∅ : Dict ℕ V).lookup a = some v at hv
    rw [Finmap.lookup_empty] at hv
    cases hv

/-- A call that reads no files. -/
def Op.Local (op : Op V μ) : Prop := ∀ folder order, op ≠ .create (some folder) order

/-- A call other than `drop`, which leaves no index. -/
theorem Store.Paired.step [DecidableEq μ] (hs : s.Paired) (env : Env V) {op : Op V μ} (hop : op.Local) :
    Grown s (s.step env op).1 ∨ (s.step env op).1.index = none ∧ (s.step env op).1.Paired := by
  cases op with
  | create folder order =>
    cases folder with
    | none => exact Or.inl (hs.create order)
    | some folder => exact absurd rfl (hop folder order)
  | drop => exact Or.inr ⟨rfl, paired_new V μ s.dimensions s.distance⟩
  | insert contentHash documents filters embedMissing refuse => exact Or.inl (hs.insert env _ _ _ _ _)
  | upsert contentHash documents filters embedUpFront embedMissing refuse order =>
    exact Or.inl (hs.upsert env _ _ _ _ _ _ _)
  | deleteById id order => exact Or.inl (hs.deleteById id order)
  | deleteByName name order =>
    cases name with
    | none => exact Or.inl hs.grown
    | some name => exact Or.inl (hs.deleteWhere _ _)
  | deleteByMetadata metadata order =>
    cases metadata with
    | none => exact Or.inl hs.grown
    | some items => exact Or.inl (hs.deleteWhere _ _)
  | deleteByContentId contentId order =>
    cases contentId with
    | none => exact Or.inl hs.grown
    | some contentId => exact Or.inl (hs.deleteWhere _ _)
  | updateMetadata contentId metadata order => exact Or.inl (hs.updateMetadata contentId metadata order)

end Agno

/-! ## The stores as savers -/

def Index.row {V : Type} (ix : Index V) (h : ℕ) : Option V := ix.rows.lookup h

section savers

variable {ι V D μ : Type} [DecidableEq ι] [DecidableEq μ]

/-- The LangChain or LlamaIndex stores: calls of every kind and outcome between the saves, and `clear` in
LlamaIndex. -/
def Store.saver (K : Kernel V) (fw : Framework) (cs : ℕ) :
    Saver (Store ι V D) (Index V) (Sidecar ι D) where
  Saves s p := p = (s.index, s.sidecar)
  Fresh s := ∃ dim, s = Store.new ι V D dim
  Changes s t := (∃ c, t = (s.call K fw cs c).1) ∨ (fw = .llamaIndex ∧ t = s.clear)
  Loads := Store.LoadedFrom fw

/-- The Haystack stores. -/
def DocStore.saver (K : DocKernel V D) (cs : ℕ) : Saver (DocStore ι V D) (Index V) (DocSidecar ι D) where
  Saves s p := p = (s.index, s.sidecar)
  Fresh s := s = DocStore.new ι V D
  Changes s t := ∃ c, t = (s.call K cs c).1
  Loads := DocStore.LoadedFrom

/-- The Agno stores, whose `create` loads; the items of the side-car may come in any order. -/
def Agno.Store.saver (env : Agno.Env V) : Saver (Agno.Store V μ) (Index V) (Agno.Sidecar μ) where
  Saves s p := ∃ order, s.save order = some { indexFile := some (some p.1), storeFile := some p.2 }
  Fresh s := ∃ dimensions distance, s = Agno.Store.new V μ dimensions distance
  Changes s t := ∃ op : Agno.Op V μ, op.Local ∧ t = (s.step env op).1
  Loads ix sc t := ∃ s order, s.index = none ∧
    Agno.Store.create s (some { indexFile := some (some ix), storeFile := some sc }) order = (t, none)

/-! ### What a call issues -/

/-- A handle issued between two states, by their watermarks. -/
def Issued {St : Type} (next : St → ℕ) (s t : St) (h : ℕ) : Prop := next s < h ∧ h ≤ next t

/-- A call that keeps the store consistent, or a `clear`. -/
def Store.Keeps (K : Kernel V) (fw : Framework) (cs : ℕ) (s t : Store ι V D) : Prop :=
  (∃ c, Call.Whole K fw cs c ∧ t = (s.call K fw cs c).1) ∨ (fw = .llamaIndex ∧ t = s.clear)

def DocStore.Keeps (K : DocKernel V D) (cs : ℕ) (s t : DocStore ι V D) : Prop :=
  ∃ c, DocCall.Whole K cs s c ∧ t = (s.call K cs c).1

theorem row_empty (dim : Option ℕ) (h : ℕ) : Index.row (⟨dim, ∅⟩ : Index V) h = none := Finmap.lookup_empty h

theorem Store.saver_lawful (K : Kernel V) (fw : Framework) (cs : ℕ) :
    Lawful (Store.saver K fw cs : Saver (Store ι V D) (Index V) (Sidecar ι D)) Index.row (Issued Store.nextU64)
      (Store.Keeps K fw cs) Store.Consistent := by
  constructor
  · rintro s p q rfl rfl
    rfl
  · rintro t ⟨dim, rfl⟩
    refine ⟨Store.consistent_new dim, ?_⟩
    rintro p rfl h
    exact row_empty dim h
  · rintro s t hs (⟨c, hc, rfl⟩ | ⟨-, rfl⟩)
    · refine ⟨(hs.call hc).2.1, ?_⟩
      rintro p h v rfl hv
      exact ((s.call_grows c).2 h v hv).imp_left fun hv => ⟨_, rfl, hv⟩
    · refine ⟨Store.consistent_new none, ?_⟩
      rintro p h v rfl hv
      cases (row_empty none h).symm.trans hv
  · intro i j t ht
    refine ⟨ht.consistent, ?_⟩
    rintro p rfl
    exact ht.2.1

theorem DocStore.saver_lawful (K : DocKernel V D) (cs : ℕ) :
    Lawful (DocStore.saver K cs : Saver (DocStore ι V D) (Index V) (DocSidecar ι D)) Index.row
      (Issued DocStore.nextU64) (DocStore.Keeps K cs) DocStore.Consistent := by
  constructor
  · rintro s p q rfl rfl
    rfl
  · rintro t rfl
    refine ⟨DocStore.consistent_new, ?_⟩
    rintro p rfl h
    exact row_empty none h
  · rintro s t hs ⟨c, hc, rfl⟩
    refine ⟨DocStore.Consistent.call hs hc, ?_⟩
    rintro p h v rfl hv
    exact ((s.call_grows c).2 h v hv).imp_left fun hv => ⟨_, rfl, hv⟩
  · intro i j t ht
    refine ⟨ht.consistent, ?_⟩
    rintro p rfl
    exact ht.2.1

omit [DecidableEq μ] in
/-- What a load of Agno has checked. -/
theorem Agno.create_checked {s t : Agno.Store V μ} {ix : Index V} {sc : Agno.Sidecar μ} {order : Agno.IterOrder}
    (hs : s.index = none)
    (h : s.create (some { indexFile := some (some ix), storeFile := some sc }) order = (t, none)) :
    checkPersistedHandles ix (setAll ∅ sc.u64ToDoc).keys.val (some sc.nextU64) = .ok () ∧ t.index = some ix ∧
      t.u64ToDoc = setAll ∅ sc.u64ToDoc ∧ t.nextU64 = sc.nextU64 := by
  unfold Agno.Store.create at h
  rw [if_neg (by simp [hs])] at h
  dsimp only at h
  rw [if_pos (Or.inl (show (some (some ix)).isSome = true from rfl))] at h
  split at h
  next loaded hload =>
    obtain ⟨rfl, -⟩ := Prod.mk.inj h
    obtain ⟨ix', sc', hix, hsc, hcheck, distance, rfl⟩ := Agno.loadFrom_ok hload
    obtain rfl := Option.some.inj (Option.some.inj hix)
    obtain rfl := Option.some.inj hsc
    exact ⟨hcheck, rfl, rfl, rfl⟩
  next => cases (Prod.mk.inj h).2

theorem Agno.Store.saver_lawful (env : Agno.Env V) :
    Lawful (Agno.Store.saver env : Saver (Agno.Store V μ) (Index V) (Agno.Sidecar μ)) Index.row
      (Issued Agno.Store.nextU64)
      (fun s t => ∃ op : Agno.Op V μ, op.Local ∧ t = (s.step env op).1) Agno.Store.Paired := by
  -- A save has the index of its store.
  have hindex : ∀ (s : Agno.Store V μ) (p : Index V × Agno.Sidecar μ), (Agno.Store.saver env).Saves s p →
      s.index = some p.1 := by
    rintro s p ⟨order, hp⟩
    obtain ⟨ix, hix, heq⟩ := Option.map_eq_some_iff.mp hp
    rw [Agno.Folder.mk.injEq, Option.some.injEq, Option.some.injEq] at heq
    exact heq.1 ▸ hix
  constructor
  · intro s p q hp hq
    exact Option.some.inj ((hindex s p hp).symm.trans (hindex s q hq))
  · rintro t ⟨dimensions, distance, rfl⟩
    refine ⟨Agno.paired_new V μ dimensions distance, fun p hp => ?_⟩
    cases hindex _ p hp
  · rintro s t hs ⟨op, hop, rfl⟩
    rcases hs.step env hop with hgrown | ⟨hnone, hpaired⟩
    · refine ⟨hgrown.paired, fun p h v hp hv => ?_⟩
      have hrow : (s.step env op).1.row h = some v := by
        rw [Agno.Store.row, hindex _ p hp]
        exact hv
      refine (hgrown.rows h v hrow).imp_left fun hold => ?_
      obtain ⟨ix, hix, hold⟩ := Option.bind_eq_some_iff.mp hold
      exact ⟨(ix, _), ⟨Agno.ascending, by rw [Agno.Store.save, hix, Option.map_some]⟩, hold⟩
    · refine ⟨hpaired, fun p h v hp => ?_⟩
      rw [hindex _ p hp] at hnone
      cases hnone
  · rintro ix sc t ⟨s, order, hs, ht⟩
    obtain ⟨hcheck, hix, hdoc, hnext⟩ := Agno.create_checked hs ht
    refine ⟨.of_mem_rows hix (fun x => ?_) (fun x hx => ?_), fun p hp => ?_⟩
    · rw [← Finmap.mem_keys, handles_of_checkPersistedHandles hcheck, Finset.val_toFinset, hdoc, Finmap.mem_keys]
    · rw [hnext]
      exact le_of_checkPersistedHandles hcheck x (Finmap.mem_keys.mpr (hdoc ▸ hx))
    · exact Option.some.inj ((hindex t p hp).symm.trans hix)

/-! ## The pair that loads -/

/-- The saved indexes that hold rows have one dimension, and the empty ones are alike. -/
def OneDim {S : Type} (saves : List (Index V × S)) : Prop :=
  ∀ p ∈ saves, ∀ q ∈ saves, (p.1.rows = ∅ ↔ q.1.rows = ∅) → p.1.dim = q.1.dim

theorem rows_eq_of_agree {i j : Index V} (h : PairedFiles.Agree Index.row i j) (hkeys : i.rows.keys = j.rows.keys) :
    i.rows = j.rows := by
  apply Finmap.ext_lookup
  intro x
  have hmem : x ∈ i.rows ↔ x ∈ j.rows := by rw [← Finmap.mem_keys, ← Finmap.mem_keys, hkeys]
  rw [mem_iff_lookup, mem_iff_lookup] at hmem
  cases hi : i.rows.lookup x with
  | none =>
    cases hj : j.rows.lookup x with
    | none => rfl
    | some v =>
      obtain ⟨v', hv'⟩ := hmem.mpr ⟨v, hj⟩
      rw [hi] at hv'
      cases hv'
  | some v =>
    obtain ⟨v', hv'⟩ := hmem.mp ⟨v, hi⟩
    rw [hv', h x v v' hi hv']

/-- Files with the same handles are of one save. -/
theorem pair_mem {κ St S : Type} {sys : Saver St (Index V) S} {Inv : St → Prop} {w : World κ St (Index V) S}
    (hw : Matched sys Index.row Inv w) (hsaves : FromSaves w) (hdim : OneDim w.saves) {a b : Index V × S}
    (ha : w.first = some a) (hb : w.second = some b) (hkeys : a.1.rows.keys = b.1.rows.keys) : (a.1, b.2) ∈ w.saves := by
  have hrows := rows_eq_of_agree (hw.agree .first .second a b ha hb) hkeys
  have hdim := hdim a (hsaves.first a ha) b (hsaves.second b hb) (by rw [hrows])
  have heq : a.1 = b.1 := by
    cases ha₁ : a.1
    cases hb₁ : b.1
    rw [ha₁, hb₁] at hrows hdim
    dsimp only at hrows hdim
    rw [hrows, hdim]
  rw [heq]
  exact hsaves.second b hb

/-- In every run whose calls keep the stores consistent and issue no handle that another store, a save under way or a
file still has, and whose saved indexes are of one dimension, the pair that loads is of one save. -/
theorem loaded_pair_of_one_save {κ : Type} [DecidableEq κ] :
    (∀ (K : Kernel V) (fw : Framework) (cs : ℕ) (w : World κ (Store ι V D) (Index V) (Sidecar ι D)),
      Reached (Store.saver K fw cs)
        (Careful (Store.saver K fw cs) Index.row (Issued Store.nextU64) (Store.Keeps K fw cs)) w →
      OneDim w.saves → ∀ a b, w.first = some a → w.second = some b → checkLoaded fw a.1 b.2 = .ok () →
        (a.1, b.2) ∈ w.saves) ∧
    (∀ (K : DocKernel V D) (cs : ℕ) (w : World κ (DocStore ι V D) (Index V) (DocSidecar ι D)),
      Reached (DocStore.saver K cs)
        (Careful (DocStore.saver K cs) Index.row (Issued DocStore.nextU64) (DocStore.Keeps K cs)) w →
      OneDim w.saves → ∀ a b, w.first = some a → w.second = some b → checkDocLoaded a.1 b.2 = .ok () →
        (a.1, b.2) ∈ w.saves) ∧
    (∀ (env : Agno.Env V) (w : World κ (Agno.Store V μ) (Index V) (Agno.Sidecar μ)),
      Reached (Agno.Store.saver env)
        (Careful (Agno.Store.saver env) Index.row (Issued Agno.Store.nextU64) (Agno.Store.saver env).Changes) w →
      OneDim w.saves → ∀ a b, w.first = some a → w.second = some b →
        ∀ (s t : Agno.Store V μ) (order : Agno.IterOrder), s.index = none →
          s.create (some { indexFile := some (some a.1), storeFile := some b.2 }) order = (t, none) →
        (a.1, b.2) ∈ w.saves) := by
  refine ⟨fun K fw cs w hw hdim a b ha hb hload => ?_, fun K cs w hw hdim a b ha hb hload => ?_,
    fun env w hw hdim a b ha hb s t order hs hload => ?_⟩
  · have hmatched := hw.matched (Store.saver_lawful K fw cs)
    obtain ⟨s, hs, rfl⟩ := hmatched.saved .second b hb
    -- The index has the handles the side-car lists, and so has the index of the save the side-car is of.
    have hfirst := handles_of_checkPersistedHandles (checkLoaded_ok hload).1
    have hsecond := handles_of_checkPersistedHandles (checkLoaded_ok (hs.checkLoaded fw)).1
    exact pair_mem hmatched hw.fromSaves hdim ha hb (hfirst.trans hsecond.symm)
  · have hmatched := hw.matched (DocStore.saver_lawful K cs)
    obtain ⟨s, hs, rfl⟩ := hmatched.saved .second b hb
    have hfirst := handles_of_checkPersistedHandles (checkDocLoaded_ok hload)
    have hsecond := handles_of_checkPersistedHandles (checkDocLoaded_ok hs.checkDocLoaded)
    exact pair_mem hmatched hw.fromSaves hdim ha hb (hfirst.trans hsecond.symm)
  · have hmatched := hw.matched (Agno.Store.saver_lawful env)
    obtain ⟨saved, hsaved, order', hsave⟩ := hmatched.saved .second b hb
    obtain ⟨ix, hix, heq⟩ := Option.map_eq_some_iff.mp hsave
    rw [Agno.Folder.mk.injEq, Option.some.injEq, Option.some.injEq, Option.some.injEq] at heq
    have hfirst := handles_of_checkPersistedHandles (Agno.create_checked hs hload).1
    rw [← heq.2] at hfirst
    dsimp only at hfirst
    rw [Agno.setAll_items, Finset.val_toFinset] at hfirst
    have hsecond : ix.rows.keys = saved.u64ToDoc.keys := by
      have hh := hsaved.handles
      rwa [Agno.Store.indexed, hix] at hh
    rw [heq.1] at hsecond
    exact pair_mem hmatched hw.fromSaves hdim ha hb (hfirst.trans hsecond.symm)

/-! ## Runs of LlamaIndex stores -/

end savers

section Mixed

/-- A kernel that takes every row. -/
def anyKernel : Kernel ℕ := ⟨fun _ => true, fun _ => true⟩

/-- The LlamaIndex stores of this kernel. -/
def anySaver : Saver (Store ℕ ℕ ℕ) (Index ℕ) (Sidecar ℕ ℕ) := Store.saver anyKernel .llamaIndex 1000

/-- One node for a store, and the exception before its index add, if any. -/
def oneNode (i v : ℕ) (stop : Option ℕ) : Call ℕ ℕ ℕ := .add 8 [(i, v, v)] stop

/-- The store with a call made. -/
def addOne (s : Store ℕ ℕ ℕ) (i v : ℕ) (stop : Option ℕ) : Store ℕ ℕ ℕ :=
  (s.call anyKernel .llamaIndex 1000 (oneNode i v stop)).1

theorem oneNode_whole (i v : ℕ) (stop : Option ℕ) : (oneNode i v stop).Whole anyKernel .llamaIndex 1000 := by
  rintro ⟨-, -, j, -, hj, -, hlen⟩
  change j * 1000 < 1 at hlen
  omega

theorem addOne_keeps (s : Store ℕ ℕ ℕ) (i v : ℕ) (stop : Option ℕ) :
    Store.Keeps anyKernel .llamaIndex 1000 s (addOne s i v stop) :=
  Or.inl ⟨_, oneNode_whole i v stop, rfl⟩

/-- A store saves and another loads the pair. It makes a call that raises and uses up a handle, saves in turn and
stops between the two replacements: the two files are of two saves, and are also a pair of the first. -/
theorem loaded_pair_of_one_save_two :
    ∃ w : World Bool (Store ℕ ℕ ℕ) (Index ℕ) (Sidecar ℕ ℕ),
      Reached anySaver (Careful anySaver Index.row (Issued Store.nextU64) (Store.Keeps anyKernel .llamaIndex 1000)) w ∧
      ∃ a b, w.first = some a ∧ w.second = some b ∧ a.2.nextU64 = 2 ∧ b.2.nextU64 = 1 ∧
        checkLoaded .llamaIndex a.1 b.2 = .ok () ∧ (a.1, b.2) ∈ w.saves := by
  let s0 : Store ℕ ℕ ℕ := Store.new ℕ ℕ ℕ none
  let s1 := addOne s0 0 10 none
  let s2 := addOne s1 1 20 (some 0)
  let ok : World Bool (Store ℕ ℕ ℕ) (Index ℕ) (Sidecar ℕ ℕ) → Bool → Store ℕ ℕ ℕ → Prop :=
    Careful anySaver Index.row (Issued Store.nextU64) (Store.Keeps anyKernel .llamaIndex 1000)
  have h0 : Reached anySaver ok ⟨fun _ : Bool => s0, _, _, _, _⟩ := Reached.start (fun _ => s0) fun _ => ⟨none, rfl⟩
  have h1 := h0.step (.change _ true s1 rfl (Or.inl ⟨_, rfl⟩) ⟨addOne_keeps s0 0 10 none, by
    rintro h - (k | k | _ | _) hx q hq
    · cases k with
      | true => exact absurd rfl hx
      | false =>
        obtain rfl : q = _ := hq
        exact row_empty none h
    · cases hq.choose_spec
    · cases hq
    · cases hq⟩)
  have h2 := h1.step (.begin _ true (s1.index, s1.sidecar) rfl rfl)
  have h3 := h2.step (.replaceFirst _ true _ rfl)
  have h4 := h3.step (.replaceSecond _ true _ rfl)
  have hcons : s1.Consistent := ((Store.consistent_new none).call (oneNode_whole 0 10 none)).2.1
  have h5 := h4.step (.load _ false s1 _ _ rfl rfl rfl ⟨by decide, rfl, rfl, hcons.inverse⟩)
  have h6 := h5.step (.change _ false s2 rfl (Or.inl ⟨_, rfl⟩) ⟨addOne_keeps s1 1 20 (some 0), by
    rintro h ⟨hlo, hhi⟩ x hx q hq
    have hnext : s1.nextU64 = 1 ∧ s2.nextU64 = 2 := by decide
    change s1.nextU64 < h at hlo
    obtain rfl : h = 2 := by omega
    obtain rfl : q = (s1.index, s1.sidecar) := by
      rcases x with k | k | _ | _
      · cases k with
        | true => exact hq
        | false => exact absurd rfl hx
      · obtain ⟨b, hb⟩ := hq
        cases k <;> cases hb
      · exact (Option.some.inj hq).symm
      · exact (Option.some.inj hq).symm
    decide⟩)
  have h7 := h6.step (.begin _ false (s2.index, s2.sidecar) rfl rfl)
  have h8 := h7.step (.replaceFirst _ false _ rfl)
  have h9 := h8.step (.crash _ false s0 (Or.inl ⟨none, rfl⟩))
  have hload : checkLoaded .llamaIndex s2.index s1.sidecar = .ok () := by decide
  have hdim : ∀ p ∈ [(s2.index, s2.sidecar), (s1.index, s1.sidecar)], p.1.dim = some 8 := by
    intro p hp
    rcases List.mem_cons.mp hp with rfl | hp
    · rfl
    · rw [List.mem_singleton.mp hp]
      rfl
  refine ⟨_, h9, (s2.index, s2.sidecar), (s1.index, s1.sidecar), rfl, rfl, by decide, by decide, hload, ?_⟩
  exact (@loaded_pair_of_one_save ℕ ℕ ℕ ℕ _ _ Bool _).1 anyKernel .llamaIndex 1000 _ h9
    (fun p hp q hq _ => (hdim p hp).trans (hdim q hq).symm) (s2.index, s2.sidecar) (s1.index, s1.sidecar) rfl rfl hload

/-- A store saved, cleared, filled again and saved again, with a crash between the two replacements: the new
index lies beside the old side-car, both with the handle 1, and the pair loads. -/
theorem loaded_pair_mixed :
    ∃ w : World Unit (Store ℕ ℕ ℕ) (Index ℕ) (Sidecar ℕ ℕ),
      Reached anySaver (fun _ _ _ => True) w ∧
      ∃ a b, w.first = some a ∧ w.second = some b ∧ checkLoaded .llamaIndex a.1 b.2 = .ok () ∧
        (a.1, b.2) ∉ w.saves := by
  let s0 : Store ℕ ℕ ℕ := Store.new ℕ ℕ ℕ none
  let s1 := addOne s0 0 10 none
  let s2 := addOne s1.clear 1 20 none
  have h0 : Reached anySaver (fun _ _ _ => True) ⟨fun _ : Unit => s0, _, _, _, _⟩ :=
    Reached.start (fun _ => s0) fun _ => ⟨none, rfl⟩
  have h1 := h0.step (.change _ () s1 rfl (Or.inl ⟨_, rfl⟩) trivial)
  have h2 := h1.step (.begin _ () (s1.index, s1.sidecar) rfl rfl)
  have h3 := h2.step (.replaceFirst _ () _ rfl)
  have h4 := h3.step (.replaceSecond _ () _ rfl)
  have h5 := h4.step (.change _ () s1.clear rfl (Or.inr ⟨rfl, rfl⟩) trivial)
  have h6 := h5.step (.change _ () s2 rfl (Or.inl ⟨_, rfl⟩) trivial)
  have h7 := h6.step (.begin _ () (s2.index, s2.sidecar) rfl rfl)
  have h8 := h7.step (.replaceFirst _ () _ rfl)
  have h9 := h8.step (.crash _ () s0 (Or.inl ⟨none, rfl⟩))
  refine ⟨_, h9, (s2.index, s2.sidecar), (s1.index, s1.sidecar), rfl, rfl, by decide, ?_⟩
  intro hmem
  rcases List.mem_cons.mp hmem with heq | hmem
  · have hdocs : s1.sidecar.docs.lookup 1 = s2.sidecar.docs.lookup 1 := by
      rw [show s1.sidecar = s2.sidecar from congrArg Prod.snd heq]
    exact absurd hdocs (by decide)
  · rcases List.mem_cons.mp hmem with heq | hmem
    · have hrows : s2.index.rows.lookup 1 = s1.index.rows.lookup 1 := by
        rw [show s2.index = s1.index from congrArg Prod.fst heq]
      exact absurd hrows (by decide)
    · cases hmem

end Mixed

end Turbovec.Python
