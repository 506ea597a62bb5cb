import Turbovec.Python.Consistent

/-!
# The Haystack store

The Haystack store keeps the payload under the handle, with the document's id in it, and resolves the
duplicates of a write by a policy of the caller's. Each of its commits is all or nothing.
-/

namespace Turbovec.Python

open Dict

/-! ## The store -/

/-- A Haystack store: a document's id and data stand under its handle. -/
structure DocStore (ι V D : Type) where
  index : Index V
  strToU64 : Dict ι ℕ
  u64ToDoc : Dict ℕ (ι × D)
  nextU64 : ℕ

/-- A new store on a lazy index. -/
def DocStore.new (ι V D : Type) : DocStore ι V D :=
  { index := { dim := none, rows := ∅ }, strToU64 := ∅, u64ToDoc := ∅, nextU64 := 0 }

/-- `DuplicatePolicy`; `NONE` is `FAIL`. -/
inductive DuplicatePolicy where
  | fail
  | skip
  | overwrite
  deriving DecidableEq

/-- What the kernel checks of a batch, the length of an embedding, and whether `dict(doc.meta or {})` takes a
document's metadata. -/
structure DocKernel (V D : Type) extends Kernel V where
  dimOf : V → ℕ
  metaOk : D → Bool

section

variable {ι V D : Type} [DecidableEq ι]

/-- The loop that fills the maps before the index add. The metadata is copied between the two insertions of a
document, outside the `try`: an exception there ends the call with the id mapped and nothing unwound. -/
def DocStore.mapDocs (K : DocKernel V D) :
    DocStore ι V D → List ((ι × D × V) × ℕ) → DocStore ι V D × Bool
  | s, [] => (s, false)
  | s, ((i, data, _), h) :: rows =>
    let s := { s with strToU64 := s.strToU64.insert i h }
    if K.metaOk data then mapDocs K { s with u64ToDoc := s.u64ToDoc.insert h (i, data) } rows else (s, true)

def DocStore.unmapDoc (s : DocStore ι V D) (i : ι) (h : ℕ) : DocStore ι V D :=
  let s := { s with u64ToDoc := s.u64ToDoc.erase h }
  if s.strToU64.lookup i = some h then { s with strToU64 := s.strToU64.erase i } else s

def DocStore.restoreDoc (s : DocStore ι V D) (o : ι × ℕ) : DocStore ι V D :=
  { s with strToU64 := s.strToU64.insert o.1 o.2 }

def DocStore.dropDoc (s : DocStore ι V D) (o : ι × ℕ) : DocStore ι V D :=
  { s with index := s.index.remove o.2, u64ToDoc := s.u64ToDoc.erase o.2 }

/-- `old_handles`: each overwritten id once, with the handle it has. -/
def DocStore.oldHandles (s : DocStore ι V D) (toRemove : List ι) : List (ι × ℕ) :=
  toRemove.dedup.filterMap fun i => (s.strToU64.lookup i).map (i, ·)

/-- `_commit_batch` -/
def DocStore.commitBatch (K : DocKernel V D) (cs : ℕ) (s : DocStore ι V D) (toWrite : List (ι × D × V))
    (toRemove : List ι) (stop : Option ℕ) : DocStore ι V D × Outcome :=
  let d := (toWrite.head?.map fun r => K.dimOf r.2.2).getD 0
  -- An empty or ragged batch is no 2-D array, and one of empty embeddings is named.
  if toWrite.any (fun r => K.dimOf r.2.2 != d) || d == 0 then (s, .refused)
  else if s.index.dim.any (· != d) then (s, .refused)
  else
    let handles := List.range' (s.nextU64 + 1) toWrite.length
    let s := { s with nextU64 := s.nextU64 + toWrite.length }
    if handles.any (2 ^ 64 ≤ ·) then (s, .refused)
    else
      let old := s.oldHandles toRemove
      match s.mapDocs K (toWrite.zip handles) with
      | (m, true) => (m, .refused)
      | (m, false) =>
        match addWithIds K.toKernel cs m.index d (handles.zip (toWrite.map fun r => r.2.2)) stop with
        | (ix, true) =>
          let u := ((toWrite.map fun r => r.1).zip handles).foldl (fun m p => m.unmapDoc p.1 p.2)
            { m with index := ix }
          (old.foldl DocStore.restoreDoc u, .raised)
        | (ix, false) => (old.foldl DocStore.dropDoc { m with index := ix }, .returned)

/-- The `FAIL` loop: each document is a commit of its own, and the first collision ends the call. `stop`
counts the index adds. -/
def DocStore.writeFail (K : DocKernel V D) (cs : ℕ) :
    DocStore ι V D → List (ι × D × Option V) → Option ℕ → DocStore ι V D × Outcome
  | s, [], _ => (s, .returned)
  | s, (i, data, embedding) :: docs, stop =>
    if i ∈ s.strToU64 then (s, .refused)
    else
      match embedding with
      | none => (s, .refused)
      | some v =>
        match s.commitBatch K cs [(i, data, v)] [] stop with
        | (s', .returned) => writeFail K cs s' docs (stop.map Nat.pred)
        | r => r

/-- The first pass under `SKIP` and `OVERWRITE`: what to write, and the ids whose old vectors go. -/
def DocStore.resolve (s : DocStore ι V D) (policy : DuplicatePolicy) :
    List (ι × D × Option V) → List (ι × D × V) → List ι → Option (List (ι × D × V) × List ι)
  | [], toWrite, toRemove => some (toWrite, toRemove)
  | (i, data, embedding) :: docs, toWrite, toRemove =>
    match embedding with
    | none => none
    | some v =>
      let inBatch := i ∈ toWrite.map fun r => r.1
      if policy = .skip ∧ (i ∈ s.strToU64 ∨ inBatch) then s.resolve policy docs toWrite toRemove
      else
        let toRemove := if policy = .overwrite ∧ i ∈ s.strToU64 then toRemove ++ [i] else toRemove
        if policy = .overwrite ∧ inBatch then
          -- Last write wins: the queued document is replaced in place.
          s.resolve policy docs (toWrite.map fun r => if r.1 = i then (i, data, v) else r) toRemove
        else s.resolve policy docs (toWrite ++ [(i, data, v)]) toRemove

/-- `write_documents` -/
def DocStore.writeDocuments (K : DocKernel V D) (cs : ℕ) (s : DocStore ι V D) (policy : DuplicatePolicy)
    (docs : List (ι × D × Option V)) (stop : Option ℕ) : DocStore ι V D × Outcome :=
  match policy with
  | .fail => s.writeFail K cs docs stop
  | _ =>
    match s.resolve policy docs [] [] with
    | none => (s, .refused)
    | some (toWrite, toRemove) =>
      if toWrite.isEmpty then (s, .returned) else s.commitBatch K cs toWrite toRemove stop

/-- `_remove_one` -/
def DocStore.removeOne (s : DocStore ι V D) (i : ι) : DocStore ι V D :=
  match s.strToU64.lookup i with
  | none => s
  | some h =>
    { s with index := s.index.remove h, strToU64 := s.strToU64.erase i, u64ToDoc := s.u64ToDoc.erase h }

/-- `delete_documents` -/
def DocStore.deleteDocuments (s : DocStore ι V D) (ids : List ι) : DocStore ι V D :=
  ids.foldl DocStore.removeOne s

/-! ## The side-car -/

/-- The JSON side-car of a Haystack store. -/
structure DocSidecar (ι D : Type) where
  u64ToDoc : Dict ℕ (ι × D)
  nextU64 : ℕ

/-- What `save_to_disk` hands to `atomic_save`. -/
def DocStore.sidecar (s : DocStore ι V D) : DocSidecar ι D :=
  { u64ToDoc := s.u64ToDoc, nextU64 := s.nextU64 }

/-- Why a persisted pair is refused. -/
inductive DocLoadError where
  | duplicateIds
  | handles (e : HandlesError)
  deriving DecidableEq

/-- The checks of `load_from_disk`. -/
def checkDocLoaded (ix : Index V) (sc : DocSidecar ι D) : Except DocLoadError Unit :=
  if ((values sc.u64ToDoc).map Prod.fst).toFinset.card ≠ sc.u64ToDoc.keys.card then .error .duplicateIds
  else (checkPersistedHandles ix sc.u64ToDoc.keys.val (some sc.nextU64)).mapError .handles

end

/-! ## Consistent stores -/

section

variable {ι V D : Type} [DecidableEq ι]

/-- The maps and the index agree: the id map inverts the document table. -/
structure DocStore.Consistent (s : DocStore ι V D) : Prop where
  handles : ∀ h, h ∈ s.index.rows ↔ ∃ i, s.strToU64.lookup i = some h
  inverse : ∀ i h, s.strToU64.lookup i = some h ↔ ∃ data, s.u64ToDoc.lookup h = some (i, data)
  watermark : ∀ i h, s.strToU64.lookup i = some h → h ≤ s.nextU64

theorem DocStore.consistent_new : (DocStore.new ι V D).Consistent := by
  constructor
  · intro h
    simp [DocStore.new, Finmap.notMem_empty]
  · intro i h
    simp [DocStore.new]
  · intro i h hi
    simp [DocStore.new] at hi

variable {s m : DocStore ι V D}

theorem DocStore.Consistent.key_unique (hs : s.Consistent) {i j : ι} {h : ℕ}
    (hi : s.strToU64.lookup i = some h) (hj : s.strToU64.lookup j = some h) : i = j := by
  obtain ⟨data, hih⟩ := (hs.inverse i h).mp hi
  obtain ⟨data', hjh⟩ := (hs.inverse j h).mp hj
  rw [hih] at hjh
  exact congrArg Prod.fst (Option.some.inj hjh)

/-- The loop that fills the maps, where every document's metadata can be copied. -/
theorem mapDocs_eq {K : DocKernel V D} (l : Rows ι V D) (hmeta : ∀ p ∈ l, K.metaOk p.1.2.1 = true)
    (s : DocStore ι V D) : s.mapDocs K l =
      ({ s with strToU64 := setAll s.strToU64 (l.map fun p => (p.1.1, p.2)),
                u64ToDoc := setAll s.u64ToDoc (l.map fun p => (p.2, (p.1.1, p.1.2.1))) }, false) := by
  induction l generalizing s with
  | nil => rfl
  | cons p l ih =>
    obtain ⟨⟨i, data, v⟩, h⟩ := p
    unfold DocStore.mapDocs
    rw [if_pos (hmeta _ List.mem_cons_self), ih fun p hp => hmeta p (List.mem_cons_of_mem _ hp)]
    rfl

omit [DecidableEq ι] in
theorem dropDocs_eq (old : List (ι × ℕ)) (s : DocStore ι V D) :
    old.foldl DocStore.dropDoc s =
      { s with index := { s.index with rows := popAll s.index.rows (old.map Prod.snd) },
               u64ToDoc := popAll s.u64ToDoc (old.map Prod.snd) } := by
  induction old generalizing s with
  | nil => rfl
  | cons o old ih => rw [List.foldl_cons, ih]; rfl

theorem restoreDocs_eq (old : List (ι × ℕ)) (s : DocStore ι V D) :
    old.foldl DocStore.restoreDoc s = { s with strToU64 := setAll s.strToU64 old } := by
  induction old generalizing s with
  | nil => rfl
  | cons o old ih => rw [List.foldl_cons, ih]; rfl

theorem unmapDocs_eq {l : List (ι × ℕ)} (hnd : (l.map Prod.fst).Nodup)
    (hl : ∀ p ∈ l, m.strToU64.lookup p.1 = some p.2) :
    l.foldl (fun m p => m.unmapDoc p.1 p.2) m =
      { m with strToU64 := popAll m.strToU64 (l.map Prod.fst),
               u64ToDoc := popAll m.u64ToDoc (l.map Prod.snd) } := by
  induction l generalizing m with
  | nil => rfl
  | cons p l ih =>
    rw [List.map_cons, List.nodup_cons] at hnd
    have hp : m.unmapDoc p.1 p.2 =
        { m with strToU64 := m.strToU64.erase p.1, u64ToDoc := m.u64ToDoc.erase p.2 } := by
      unfold DocStore.unmapDoc
      rw [if_pos (hl p List.mem_cons_self)]
    rw [List.foldl_cons, hp, ih hnd.2]
    · rfl
    · intro q hq
      have hne : q.1 ≠ p.1 := by
        intro h
        exact hnd.1 (h ▸ List.mem_map_of_mem hq)
      dsimp only
      rw [lookup_erase_eq, if_neg hne]
      exact hl q (List.mem_cons_of_mem _ hq)

theorem DocStore.mem_oldHandles {toRemove : List ι} {o : ι × ℕ} :
    o ∈ s.oldHandles toRemove ↔ o.1 ∈ toRemove ∧ s.strToU64.lookup o.1 = some o.2 := by
  obtain ⟨i, h⟩ := o
  simp only [DocStore.oldHandles, List.mem_filterMap, List.mem_dedup, Option.map_eq_some_iff,
    Prod.mk.injEq]
  constructor
  · rintro ⟨j, hj, a, ha, rfl, rfl⟩
    exact ⟨hj, ha⟩
  · rintro ⟨hi, hh⟩
    exact ⟨i, hi, h, hh, rfl, rfl⟩

theorem DocStore.nodup_oldHandles (s : DocStore ι V D) (toRemove : List ι) :
    ((s.oldHandles toRemove).map Prod.fst).Nodup := by
  have hnd := toRemove.nodup_dedup
  unfold DocStore.oldHandles
  generalize toRemove.dedup = ids at hnd ⊢
  induction ids with
  | nil => exact List.nodup_nil
  | cons i is ih =>
    rw [List.nodup_cons] at hnd
    rw [List.filterMap_cons]
    cases hi : s.strToU64.lookup i with
    | none => exact ih hnd.2
    | some h =>
      simp only [Option.map_some, List.map_cons, List.nodup_cons]
      refine ⟨fun hmem => ?_, ih hnd.2⟩
      obtain ⟨o, ho, hoi⟩ := List.mem_map.mp hmem
      obtain ⟨j, hj, hjo⟩ := List.mem_filterMap.mp ho
      obtain ⟨a, -, rfl⟩ := Option.map_eq_some_iff.mp hjo
      exact hnd.1 (hoi ▸ hj)

/-! ### One commit -/

/-- A batch ready for the maps: distinct ids, and distinct handles above every handle in use. -/
structure DocStore.Batch (s : DocStore ι V D) (l : Rows ι V D) : Prop where
  ids : (l.map fun p => p.1.1).Nodup
  handles : (l.map fun p => p.2).Nodup
  fresh : ∀ p ∈ l, s.nextU64 < p.2

/-- The store with the entries of the batch in its maps. -/
def DocStore.mapped (s : DocStore ι V D) (l : Rows ι V D) (next : ℕ) : DocStore ι V D :=
  { s with strToU64 := setAll s.strToU64 (l.map fun p => (p.1.1, p.2)),
           u64ToDoc := setAll s.u64ToDoc (l.map fun p => (p.2, (p.1.1, p.1.2.1))), nextU64 := next }

variable {l : Rows ι V D} {old : List (ι × ℕ)} {next : ℕ}

theorem DocStore.mapped_strToU64 (hl : s.Batch l) {i : ι} {h : ℕ} :
    (s.mapped l next).strToU64.lookup i = some h ↔
      (∃ p ∈ l, p.1.1 = i ∧ p.2 = h) ∨ (i ∉ l.map fun p => p.1.1) ∧ s.strToU64.lookup i = some h := by
  have hfst : (l.map fun p => (p.1.1, p.2)).map Prod.fst = l.map fun p => p.1.1 := by
    rw [List.map_map]; rfl
  unfold DocStore.mapped
  rw [lookup_setAll_eq_some (hfst ▸ hl.ids), hfst, List.mem_map]
  simp only [Prod.mk.injEq]

theorem DocStore.mapped_u64ToDoc (hl : s.Batch l) {i : ι} {data : D} {h : ℕ} :
    (s.mapped l next).u64ToDoc.lookup h = some (i, data) ↔
      (∃ p ∈ l, p.2 = h ∧ p.1.1 = i ∧ p.1.2.1 = data) ∨
        (h ∉ l.map fun p => p.2) ∧ s.u64ToDoc.lookup h = some (i, data) := by
  have hfst : (l.map fun p => (p.2, (p.1.1, p.1.2.1))).map Prod.fst = l.map fun p => p.2 := by
    rw [List.map_map]; rfl
  unfold DocStore.mapped
  rw [lookup_setAll_eq_some (hfst ▸ hl.handles), hfst, List.mem_map]
  simp only [Prod.mk.injEq]

/-- The old handles of the batch: those its ids have. -/
def DocStore.OldOf (s : DocStore ι V D) (l : Rows ι V D) (old : List (ι × ℕ)) : Prop :=
  (old.map Prod.fst).Nodup ∧
    ∀ o, o ∈ old ↔ (o.1 ∈ l.map fun p => p.1.1) ∧ s.strToU64.lookup o.1 = some o.2

theorem DocStore.OldOf.mem_handles (hold : s.OldOf l old) {h : ℕ} :
    h ∈ old.map Prod.snd ↔ ∃ i ∈ l.map fun p => p.1.1, s.strToU64.lookup i = some h := by
  rw [List.mem_map]
  constructor
  · rintro ⟨o, ho, rfl⟩
    obtain ⟨hi, hh⟩ := (hold.2 o).mp ho
    exact ⟨o.1, hi, hh⟩
  · rintro ⟨i, hi, hh⟩
    exact ⟨(i, h), (hold.2 (i, h)).mpr ⟨hi, hh⟩, rfl⟩

/-- The rows added and the replaced vectors dropped: consistent again. -/
theorem DocStore.Consistent.replace (hs : s.Consistent) (next : ℕ) (hl : s.Batch l)
    (hold : s.OldOf l old) (hnext : ∀ p ∈ l, p.2 ≤ next) (hle : s.nextU64 ≤ next) {ix : Index V}
    (hix : ix.rows = setAll s.index.rows (l.map fun p => (p.2, p.1.2.2))) :
    (old.foldl DocStore.dropDoc { s.mapped l next with index := ix }).Consistent := by
  rw [dropDocs_eq]
  have hrows : ∀ h, h ∈ ix.rows ↔ (h ∈ l.map fun p => p.2) ∨ h ∈ s.index.rows := by
    intro h
    rw [hix, mem_setAll, List.map_map]
    rfl
  -- A new handle is above every old one.
  have hnotOld : ∀ p ∈ l, p.2 ∉ old.map Prod.snd := by
    intro p hp hmem
    obtain ⟨i, -, hi⟩ := hold.mem_handles.mp hmem
    have h1 := hs.watermark i _ hi
    have h2 := hl.fresh p hp
    omega
  have hnotNew : ∀ i h, s.strToU64.lookup i = some h → h ∉ l.map fun p => p.2 := by
    intro i h hi hmem
    obtain ⟨p, hp, rfl⟩ := List.mem_map.mp hmem
    have h1 := hs.watermark i _ hi
    have h2 := hl.fresh p hp
    omega
  -- An id the batch leaves alone keeps a handle that is not dropped.
  have hkeep : ∀ i h, (i ∉ l.map fun p => p.1.1) → s.strToU64.lookup i = some h →
      h ∉ old.map Prod.snd := by
    intro i h hi hh hmem
    obtain ⟨j, hj, hjh⟩ := hold.mem_handles.mp hmem
    exact hi (hs.key_unique hjh hh ▸ hj)
  constructor
  · intro h
    rw [mem_popAll, hrows]
    constructor
    · rintro ⟨hno, hnew | hin⟩
      · obtain ⟨p, hp, rfl⟩ := List.mem_map.mp hnew
        have hmap : (s.mapped l next).strToU64.lookup p.1.1 = some p.2 :=
          (mapped_strToU64 hl).mpr (Or.inl ⟨p, hp, rfl, rfl⟩)
        exact ⟨p.1.1, hmap⟩
      · obtain ⟨i, hi⟩ := (hs.handles h).mp hin
        have hmap : (s.mapped l next).strToU64.lookup i = some h := by
          refine (mapped_strToU64 hl).mpr (Or.inr ⟨fun hmem => ?_, hi⟩)
          exact hno (hold.mem_handles.mpr ⟨i, hmem, hi⟩)
        exact ⟨i, hmap⟩
    · rintro ⟨i, hmap⟩
      have hi : (s.mapped l next).strToU64.lookup i = some h := hmap
      rcases (mapped_strToU64 hl).mp hi with ⟨p, hp, rfl, rfl⟩ | ⟨hni, hi⟩
      · exact ⟨hnotOld p hp, Or.inl (List.mem_map.mpr ⟨p, hp, rfl⟩)⟩
      · exact ⟨hkeep i h hni hi, Or.inr ((hs.handles h).mpr ⟨i, hi⟩)⟩
  · intro i h
    dsimp only
    rw [lookup_popAll]
    constructor
    · intro hi
      rcases (mapped_strToU64 hl).mp hi with ⟨p, hp, rfl, rfl⟩ | ⟨hni, hi⟩
      · rw [if_neg (hnotOld p hp)]
        exact ⟨p.1.2.1, (mapped_u64ToDoc hl).mpr (Or.inl ⟨p, hp, rfl, rfl, rfl⟩)⟩
      · rw [if_neg (hkeep i h hni hi)]
        obtain ⟨data, hdata⟩ := (hs.inverse i h).mp hi
        exact ⟨data, (mapped_u64ToDoc hl).mpr (Or.inr ⟨hnotNew i h hi, hdata⟩)⟩
    · rintro ⟨data, hr⟩
      split at hr
      · cases hr
      next hno =>
        apply (mapped_strToU64 hl).mpr
        rcases (mapped_u64ToDoc hl).mp hr with ⟨p, hp, rfl, rfl, -⟩ | ⟨-, hr⟩
        · exact Or.inl ⟨p, hp, rfl, rfl⟩
        · have hi := (hs.inverse i h).mpr ⟨data, hr⟩
          refine Or.inr ⟨fun hmem => ?_, hi⟩
          exact hno (hold.mem_handles.mpr ⟨i, hmem, hi⟩)
  · intro i h hmap
    have hi : (s.mapped l next).strToU64.lookup i = some h := hmap
    rcases (mapped_strToU64 hl).mp hi with ⟨p, hp, -, rfl⟩ | ⟨-, hi⟩
    · exact hnext p hp
    · exact (hs.watermark i h hi).trans hle

/-- The maps unwound and the old handles put back: the maps of before. -/
theorem DocStore.Consistent.unwind (hs : s.Consistent) (next : ℕ) (hl : s.Batch l)
    (hold : s.OldOf l old) :
    old.foldl DocStore.restoreDoc ((l.map fun p => (p.1.1, p.2)).foldl (fun m p => m.unmapDoc p.1 p.2)
      (s.mapped l next)) = { s with nextU64 := next } := by
  have hids : (l.map fun p => (p.1.1, p.2)).map Prod.fst = l.map fun p => p.1.1 := by
    rw [List.map_map]; rfl
  have hsnd : (l.map fun p => (p.1.1, p.2)).map Prod.snd = l.map fun p => p.2 := by
    rw [List.map_map]; rfl
  rw [unmapDocs_eq (hids ▸ hl.ids), restoreDocs_eq, hids, hsnd]
  swap
  · intro q hq
    obtain ⟨p, hp, rfl⟩ := List.mem_map.mp hq
    exact (mapped_strToU64 hl).mpr (Or.inl ⟨p, hp, rfl, rfl⟩)
  have hstr : setAll (popAll (setAll s.strToU64 (l.map fun p => (p.1.1, p.2)))
      (l.map fun p => p.1.1)) old = s.strToU64 := by
    rw [← hids]
    apply setAll_popAll_setAll hold.1
    · intro o ho
      exact ((hold.2 o).mp ho).2
    · intro i hi h hh
      rw [hids] at hi
      exact (hold.2 (i, h)).mpr ⟨hi, hh⟩
  have hrev : popAll (setAll s.u64ToDoc (l.map fun p => (p.2, (p.1.1, p.1.2.1))))
      (l.map fun p => p.2) = s.u64ToDoc := by
    have hfst : (l.map fun p => (p.2, (p.1.1, p.1.2.1))).map Prod.fst = l.map fun p => p.2 := by
      rw [List.map_map]; rfl
    rw [← hfst]
    apply popAll_setAll
    intro h hh
    rw [hfst] at hh
    obtain ⟨p, hp, rfl⟩ := List.mem_map.mp hh
    -- A handle of the batch is fresh, so the reverse map had nothing under it.
    by_contra hne
    obtain ⟨v, hv⟩ := Option.ne_none_iff_exists'.mp hne
    have h1 := hs.watermark v.1 _ ((hs.inverse _ _).mpr ⟨v.2, hv⟩)
    have h2 := hl.fresh p hp
    omega
  unfold DocStore.mapped
  dsimp only
  rw [hstr, hrev]

/-! ### One call -/

theorem DocStore.Consistent.advance (hs : s.Consistent) {n : ℕ} (h : s.nextU64 ≤ n) :
    DocStore.Consistent { s with nextU64 := n } :=
  ⟨hs.handles, hs.inverse, fun i a ha => (hs.watermark i a ha).trans h⟩

/-- A commit that returns leaves a consistent store, and one that raises leaves the store it found, apart
from the handles it has used up. -/
def DocStore.AllOrNothing (s : DocStore ι V D) (r : DocStore ι V D × Outcome) : Prop :=
  s.nextU64 ≤ r.1.nextU64 ∧ r.1.Consistent ∧
    (r.2 ≠ .returned → r.1 = { s with nextU64 := r.1.nextU64 })

theorem DocStore.Consistent.allOrNothing_self (hs : s.Consistent) (o : Outcome) :
    s.AllOrNothing (s, o) :=
  ⟨le_rfl, hs, fun _ => rfl⟩

theorem DocStore.Consistent.allOrNothing_advance (hs : s.Consistent) (o : Outcome) {n : ℕ}
    (h : s.nextU64 ≤ n) : s.AllOrNothing ({ s with nextU64 := n }, o) :=
  ⟨h, hs.advance h, fun _ => rfl⟩

/-- The ids a commit replaces are those of its batch that the store has. -/
def DocStore.Replaces (s : DocStore ι V D) (toWrite : List (ι × D × V)) (toRemove : List ι) : Prop :=
  (toWrite.map fun r => r.1).Nodup ∧
    ∀ i ∈ s.strToU64, i ∈ toRemove ↔ i ∈ toWrite.map fun r => r.1

theorem DocStore.Consistent.commitBatch (hs : s.Consistent) (K : DocKernel V D) (cs : ℕ) (stop : Option ℕ)
    {toWrite : List (ι × D × V)} {toRemove : List ι}
    (hrep : s.Replaces toWrite toRemove) (hmeta : ∀ r ∈ toWrite, K.metaOk r.2.1 = true)
    (hwhole : ∀ d, ¬ LandsBetween K.toKernel cs d (toWrite.map fun r => r.2.2) stop) :
    s.AllOrNothing (s.commitBatch K cs toWrite toRemove stop) := by
  unfold DocStore.commitBatch
  dsimp only
  set d := (toWrite.head?.map fun r => K.dimOf r.2.2).getD 0 with hd
  split
  · exact hs.allOrNothing_self _
  next hshape =>
    split
    · exact hs.allOrNothing_self _
    split
    · exact hs.allOrNothing_advance _ (by omega)
    have hne : toWrite ≠ [] := by
      rintro rfl
      simp [hd] at hshape
    have hlen : (List.range' (s.nextU64 + 1) toWrite.length).length = toWrite.length :=
      List.length_range'
    obtain ⟨hids, -, hzip, hbatch⟩ := rows_zip_handles toWrite _ hlen
    obtain ⟨hsnd, hbne⟩ := batch_zip_handles toWrite _ hlen
    obtain ⟨hidsNodup, hhandles, hmem⟩ := zip_issued s.nextU64 hrep.1
    set l : Rows ι V D := toWrite.zip (List.range' (s.nextU64 + 1) toWrite.length) with hl
    have hb : s.Batch l := ⟨hidsNodup, hhandles, fun p hp => (hmem p hp).1⟩
    -- The ids named for removal that the store has are those of the batch.
    have hold : s.OldOf l (s.oldHandles toRemove) := by
      refine ⟨s.nodup_oldHandles toRemove, fun o => ?_⟩
      rw [mem_oldHandles, hids]
      constructor
      · rintro ⟨ho, hh⟩
        exact ⟨(hrep.2 o.1 (Dict.mem_iff_lookup.mpr ⟨_, hh⟩)).mp ho, hh⟩
      · rintro ⟨ho, hh⟩
        exact ⟨(hrep.2 o.1 (Dict.mem_iff_lookup.mpr ⟨_, hh⟩)).mpr ho, hh⟩
    rw [mapDocs_eq l fun p hp => hmeta p.1 (List.of_mem_zip hp).1, hzip, hbatch]
    change s.AllOrNothing (match addWithIds K.toKernel cs s.index d
        (l.map fun p => (p.2, p.1.2.2)) stop with
      | (ix, true) => ((s.oldHandles toRemove).foldl DocStore.restoreDoc
          ((l.map fun p => (p.1.1, p.2)).foldl (fun m p => m.unmapDoc p.1 p.2)
            { s.mapped l (s.nextU64 + toWrite.length) with index := ix }), Outcome.raised)
      | (ix, false) => ((s.oldHandles toRemove).foldl DocStore.dropDoc
          { s.mapped l (s.nextU64 + toWrite.length) with index := ix }, Outcome.returned))
    -- Either the index took nothing and the maps are unwound, or it took the whole batch.
    rcases addWithIds_cases s.index (hbne hne) (hsnd ▸ hwhole d) with hadd | ⟨ix', hadd, -, hix⟩
    · rw [hadd]
      dsimp only
      have hself : { s.mapped l (s.nextU64 + toWrite.length) with index := s.index } =
          s.mapped l (s.nextU64 + toWrite.length) := rfl
      rw [hself, hs.unwind (s.nextU64 + toWrite.length) hb hold]
      exact hs.allOrNothing_advance _ (by omega)
    · rw [hadd]
      dsimp only
      have hcons := hs.replace (s.nextU64 + toWrite.length) hb hold (fun p hp => (hmem p hp).2) (by omega) hix
      refine ⟨?_, hcons, fun h => absurd rfl h⟩
      rw [dropDocs_eq]
      change s.nextU64 ≤ s.nextU64 + toWrite.length
      omega

/-- A single document is one slice. -/
theorem not_landsBetween_single {K : Kernel V} {cs d : ℕ} {v : V} {stop : Option ℕ} :
    ¬ LandsBetween K cs d [v] stop := by
  rintro ⟨-, -, j, -, hj, hcs, hlt⟩
  have := Nat.mul_pos hj hcs
  rw [List.length_singleton] at hlt
  omega

/-- What the first document does to a `FAIL` write: refuse it, end it with its own commit, or hand over to the rest. -/
theorem DocStore.writeFail_cases (K : DocKernel V D) (cs : ℕ) (s : DocStore ι V D) (doc : ι × D × Option V)
    (docs : List (ι × D × Option V)) (stop : Option ℕ) :
    s.writeFail K cs (doc :: docs) stop = (s, .refused) ∨
      ∃ v, doc.2.2 = some v ∧ doc.1 ∉ s.strToU64 ∧
        ((∃ s', s.commitBatch K cs [(doc.1, doc.2.1, v)] [] stop = (s', .returned) ∧
          ∀ docs, s.writeFail K cs (doc :: docs) stop = s'.writeFail K cs docs (stop.map Nat.pred)) ∨
        (s.commitBatch K cs [(doc.1, doc.2.1, v)] [] stop).2 ≠ .returned ∧
          s.writeFail K cs (doc :: docs) stop = s.commitBatch K cs [(doc.1, doc.2.1, v)] [] stop) := by
  obtain ⟨i, data, embedding⟩ := doc
  by_cases hi : i ∈ s.strToU64
  · left
    unfold DocStore.writeFail
    rw [if_pos hi]
  cases embedding with
  | none =>
    left
    unfold DocStore.writeFail
    rw [if_neg hi]
  | some v =>
    refine Or.inr ⟨v, rfl, hi, ?_⟩
    have hrun (docs : List (ι × D × Option V)) : s.writeFail K cs ((i, data, some v) :: docs) stop =
        match s.commitBatch K cs [(i, data, v)] [] stop with
        | (s', .returned) => s'.writeFail K cs docs (stop.map Nat.pred)
        | r => r := by
      conv_lhs => unfold DocStore.writeFail
      rw [if_neg hi]
    dsimp only
    rcases hc : s.commitBatch K cs [(i, data, v)] [] stop with ⟨s', _ | _ | _⟩
    · exact Or.inl ⟨s', rfl, fun docs => by rw [hrun, hc]⟩
    · exact Or.inr ⟨Outcome.noConfusion, by rw [hrun, hc]⟩
    · exact Or.inr ⟨Outcome.noConfusion, by rw [hrun, hc]⟩

/-- One document under `FAIL`. -/
theorem DocStore.Consistent.commitOne {K : DocKernel V D} (hs : s.Consistent) (cs : ℕ) {i : ι} {data : D} (v : V)
    (stop : Option ℕ) (hi : i ∉ s.strToU64) (hmeta : K.metaOk data = true) :
    s.AllOrNothing (s.commitBatch K cs [(i, data, v)] [] stop) := by
  refine hs.commitBatch K cs stop ⟨by simp, fun j hj => ?_⟩ (fun r hr => ?_) fun d => not_landsBetween_single
  · simp only [List.map_cons, List.map_nil, List.mem_singleton, List.not_mem_nil, false_iff]
    rintro rfl
    exact hi hj
  · rw [List.mem_singleton.mp hr]
    exact hmeta

/-- Every document before the one that raised is committed, as a write of these alone would leave it. -/
theorem DocStore.Consistent.writeFail {K : DocKernel V D} {cs : ℕ} (hs : s.Consistent)
    (docs : List (ι × D × Option V)) (hmeta : ∀ doc ∈ docs, K.metaOk doc.2.1 = true) (stop : Option ℕ) :
    (s.writeFail K cs docs stop).1.Consistent ∧
      ((s.writeFail K cs docs stop).2 ≠ .returned → ∃ n s',
        s.writeFail K cs (docs.take n) stop = (s', .returned) ∧
        (s.writeFail K cs docs stop).1 =
          { s' with nextU64 := (s.writeFail K cs docs stop).1.nextU64 }) := by
  induction docs generalizing s stop with
  | nil => exact ⟨hs, fun h => absurd rfl h⟩
  | cons doc docs ih =>
    rcases s.writeFail_cases K cs doc docs stop with hrun | ⟨v, -, hi, ⟨s', hc, hrun⟩ | ⟨-, hrun⟩⟩
    · rw [hrun]
      exact ⟨hs, fun _ => ⟨0, s, rfl, rfl⟩⟩
    · have hone := hs.commitOne cs v stop hi (hmeta _ List.mem_cons_self)
      rw [hc] at hone
      obtain ⟨hcons, hraise⟩ := ih hone.2.1 (fun doc hdoc => hmeta doc (List.mem_cons_of_mem _ hdoc)) (stop.map Nat.pred)
      rw [hrun docs]
      refine ⟨hcons, fun h => ?_⟩
      obtain ⟨n, t, hbefore, hst⟩ := hraise h
      exact ⟨n + 1, t, (hrun (docs.take n)).trans hbefore, hst⟩
    · have hone := hs.commitOne cs v stop hi (hmeta _ List.mem_cons_self)
      rw [hrun]
      exact ⟨hone.2.1, fun h => ⟨0, s, rfl, hone.2.2 h⟩⟩

theorem addWithIds_single {K : Kernel V} {cs d h : ℕ} {ix : Index V} {v : V} {stop : Option ℕ} :
    addWithIds K cs ix d [(h, v)] stop =
      if stop = some 0 then (ix, true)
      else
        match rawAddWithIds K ix d [(h, v)] with
        | none => (ix, true)
        | some ix' => (ix', false) := by
  have hch : ¬ chunked K cs ix [(h, v)] = true := by
    intro hch
    simp only [chunked, Bool.and_eq_true, decide_eq_true_eq, List.length_singleton] at hch
    omega
  unfold addWithIds
  exact if_neg hch

/-- A document whose commit returned has locked a dimension that the kernel takes. -/
theorem DocStore.commitOne_locks {K : DocKernel V D} {cs : ℕ} {i : ι} {data : D} {v : V} {stop : Option ℕ}
    (hmeta : K.metaOk data = true) {s' : DocStore ι V D}
    (hc : s.commitBatch K cs [(i, data, v)] [] stop = (s', .returned)) :
    stop ≠ some 0 ∧ ∃ d, s'.index.dim = some d ∧ K.dimOk d = true := by
  unfold DocStore.commitBatch at hc
  dsimp only at hc
  split at hc
  · cases hc
  split at hc
  · cases hc
  split at hc
  · cases hc
  rw [mapDocs_eq _ fun p hp => by rw [List.mem_singleton.mp (List.of_mem_zip hp).1]; exact hmeta] at hc
  change (match addWithIds K.toKernel cs s.index (K.dimOf v) [(s.nextU64 + 1, v)] stop with
    | (ix, true) => _
    | (ix, false) => _) = _ at hc
  rw [addWithIds_single] at hc
  by_cases hstop : stop = some 0
  · rw [if_pos hstop] at hc
    cases hc
  rw [if_neg hstop] at hc
  cases hraw : rawAddWithIds K.toKernel s.index (K.dimOf v) [(s.nextU64 + 1, v)] with
  | none => rw [hraw] at hc; cases hc
  | some ix =>
    rw [hraw] at hc
    obtain ⟨hacc, rfl⟩ := rawAddWithIds_eq_some hraw
    refine ⟨hstop, K.dimOf v, ?_, hacc.dimOk⟩
    have hs' := congrArg Prod.fst hc
    dsimp only at hs'
    rw [← hs']
    rfl

/-- Once a dimension is locked, the add of a finite document cannot raise by itself. -/
theorem DocStore.Consistent.commitOne_not_raised {K : DocKernel V D} (hs : s.Consistent) (cs : ℕ) (i : ι) {data : D}
    {v : V} {stop : Option ℕ} (hmeta : K.metaOk data = true) (hfin : K.finite v = true) (hstop : stop ≠ some 0) {d : ℕ}
    (hdim : s.index.dim = some d) (hd : K.dimOk d = true) :
    (s.commitBatch K cs [(i, data, v)] [] stop).2 ≠ .raised := by
  unfold DocStore.commitBatch
  dsimp only
  split
  · exact Outcome.noConfusion
  split
  · exact Outcome.noConfusion
  next hsame =>
    split
    · exact Outcome.noConfusion
    have hdv : d = K.dimOf v := by
      rw [hdim] at hsame
      simpa using hsame
    have hacc : Accepts K.toKernel s.index (K.dimOf v) [(s.nextU64 + 1, v)] := by
      refine ⟨hdv ▸ hd, Or.inr (hdv ▸ hdim), by simp, fun p hp hin => ?_, fun p hp => ?_⟩
      · rw [List.mem_singleton.mp hp] at hin
        obtain ⟨j, hj⟩ := (hs.handles _).mp hin
        have := hs.watermark j _ hj
        omega
      · rw [List.mem_singleton.mp hp]
        exact hfin
    rw [mapDocs_eq _ fun p hp => by rw [List.mem_singleton.mp (List.of_mem_zip hp).1]; exact hmeta]
    change (match addWithIds K.toKernel cs s.index (K.dimOf v) [(s.nextU64 + 1, v)] stop with
      | (ix, true) => _
      | (ix, false) => _ : DocStore ι V D × Outcome).2 ≠ _
    rw [addWithIds_single, if_neg hstop, rawAddWithIds_of_accepts hacc]
    exact Outcome.noConfusion

/-- Only the first document of a `FAIL` write can raise out of the index add. -/
def FirstOnly (K : DocKernel V D) (docs : List (ι × D × Option V)) (stop : Option ℕ) : Prop :=
  (∀ j, stop = some j → j = 0 ∨ docs.length ≤ j) ∧ ∀ doc ∈ docs.tail, ∀ v, doc.2.2 = some v → K.finite v = true

theorem DocStore.Consistent.writeFail_not_raised {K : DocKernel V D} {cs : ℕ} (hs : s.Consistent)
    {docs : List (ι × D × Option V)} (hmeta : ∀ doc ∈ docs, K.metaOk doc.2.1 = true) {stop : Option ℕ}
    (hstop : ∀ j, stop = some j → docs.length ≤ j)
    (hfin : ∀ doc ∈ docs, ∀ v, doc.2.2 = some v → K.finite v = true) {d : ℕ} (hdim : s.index.dim = some d)
    (hd : K.dimOk d = true) : (s.writeFail K cs docs stop).2 ≠ .raised := by
  induction docs generalizing s stop d with
  | nil => exact Outcome.noConfusion
  | cons doc docs ih =>
    rcases s.writeFail_cases K cs doc docs stop with hrun | ⟨v, hv, hi, ⟨s', hc, hrun⟩ | ⟨-, hrun⟩⟩
    · rw [hrun]
      exact Outcome.noConfusion
    · -- The commit of the first leaves a consistent store of one dimension to the rest.
      have hmeta₀ := hmeta _ List.mem_cons_self
      have hone := hs.commitOne cs v stop hi hmeta₀
      obtain ⟨-, d', hdim', hd'⟩ := commitOne_locks hmeta₀ hc
      rw [hc] at hone
      rw [hrun docs]
      refine ih hone.2.1 (fun doc hdoc => hmeta doc (List.mem_cons_of_mem _ hdoc)) (fun j hj => ?_)
        (fun doc hdoc => hfin doc (List.mem_cons_of_mem _ hdoc)) hdim' hd'
      obtain ⟨j', rfl, rfl⟩ := Option.map_eq_some_iff.mp hj
      have := hstop j' rfl
      rw [List.length_cons] at this
      rw [Nat.pred_eq_sub_one]
      omega
    · have hne : stop ≠ some 0 := by
        intro h0
        have := hstop 0 h0
        simp at this
      rw [hrun]
      exact hs.commitOne_not_raised cs doc.1 (hmeta _ List.mem_cons_self) (hfin _ List.mem_cons_self v hv) hne hdim hd

/-- A `FAIL` write in which only the first document can raise leaves the store it found when it raises. -/
theorem DocStore.Consistent.writeFail_raised {K : DocKernel V D} {cs : ℕ} (hs : s.Consistent)
    {docs : List (ι × D × Option V)} (hmeta : ∀ doc ∈ docs, K.metaOk doc.2.1 = true) {stop : Option ℕ}
    (hfirst : FirstOnly K docs stop) (hraise : (s.writeFail K cs docs stop).2 = .raised) :
    (s.writeFail K cs docs stop).1 = { s with nextU64 := (s.writeFail K cs docs stop).1.nextU64 } := by
  cases docs with
  | nil => cases hraise
  | cons doc docs =>
    rcases s.writeFail_cases K cs doc docs stop with hrun | ⟨v, -, hi, ⟨s', hc, hrun⟩ | ⟨hne, hrun⟩⟩
    · rw [hrun] at hraise
      cases hraise
    · -- Past the first document none is left that can raise.
      have hmeta₀ := hmeta _ List.mem_cons_self
      have hone := hs.commitOne cs v stop hi hmeta₀
      obtain ⟨hne, d, hdim, hd⟩ := commitOne_locks hmeta₀ hc
      rw [hc] at hone
      rw [hrun docs] at hraise
      refine absurd hraise (hone.2.1.writeFail_not_raised (fun doc hdoc => hmeta doc (List.mem_cons_of_mem _ hdoc))
        (fun j hj => ?_) (fun doc hdoc => hfirst.2 doc hdoc) hdim hd)
      obtain ⟨j', rfl, rfl⟩ := Option.map_eq_some_iff.mp hj
      rcases hfirst.1 j' rfl with rfl | hlen
      · exact absurd rfl hne
      · rw [List.length_cons] at hlen
        rw [Nat.pred_eq_sub_one]
        omega
    · rw [hrun]
      exact (hs.commitOne cs v stop hi (hmeta _ List.mem_cons_self)).2.2 hne

/-- The first pass names for removal the ids of its batch that the store has. -/
theorem DocStore.resolve_replaces {policy : DuplicatePolicy} (hpolicy : policy ≠ .fail)
    {docs : List (ι × D × Option V)} {toWrite toWrite' : List (ι × D × V)} {toRemove toRemove' : List ι}
    (h : s.resolve policy docs toWrite toRemove = some (toWrite', toRemove'))
    (hrep : s.Replaces toWrite toRemove) : s.Replaces toWrite' toRemove' := by
  induction docs generalizing toWrite toRemove with
  | nil =>
    simp only [DocStore.resolve, Option.some.injEq, Prod.mk.injEq] at h
    rw [← h.1, ← h.2]
    exact hrep
  | cons doc docs ih =>
    obtain ⟨i, data, embedding⟩ := doc
    unfold DocStore.resolve at h
    cases embedding with
    | none => cases h
    | some v =>
      dsimp only at h
      by_cases hskip : policy = .skip ∧ (i ∈ s.strToU64 ∨ i ∈ toWrite.map fun r => r.1)
      · rw [if_pos hskip] at h
        exact ih h hrep
      rw [if_neg hskip] at h
      -- A second document of one id takes the place of the first in the batch.
      by_cases hin : policy = .overwrite ∧ i ∈ toWrite.map fun r => r.1
      · rw [if_pos hin] at h
        apply ih h
        have hids : (toWrite.map fun r => if r.1 = i then (i, data, v) else r).map (fun r => r.1) =
            toWrite.map fun r => r.1 := by
          rw [List.map_map]
          apply List.map_congr_left
          intro r _
          by_cases hr : r.1 = i <;> simp [hr]
        refine ⟨hids ▸ hrep.1, fun j hj => ?_⟩
        rw [hids, ← hrep.2 j hj]
        split
        next hc =>
          rw [List.mem_append, List.mem_singleton]
          constructor
          · rintro (hjr | rfl)
            · exact hjr
            · exact (hrep.2 j hj).mpr hin.2
          · exact Or.inl
        next => exact Iff.rfl
      · rw [if_neg hin] at h
        apply ih h
        have hfresh : i ∉ toWrite.map fun r => r.1 := by
          intro hmem
          cases policy with
          | fail => exact hpolicy rfl
          | skip => exact hskip ⟨rfl, Or.inr hmem⟩
          | overwrite => exact hin ⟨rfl, hmem⟩
        constructor
        · rw [List.map_append, List.nodup_append]
          refine ⟨hrep.1, by simp, ?_⟩
          intro a ha b hb hab
          simp only [List.map_cons, List.map_nil, List.mem_singleton] at hb
          exact hfresh (hb ▸ hab ▸ ha)
        · intro j hj
          rw [List.map_append, List.mem_append, ← hrep.2 j hj]
          simp only [List.map_cons, List.map_nil, List.mem_singleton]
          split
          next hc => rw [List.mem_append, List.mem_singleton]
          next hc =>
            constructor
            · exact Or.inl
            · rintro (hjr | rfl)
              · exact hjr
              · cases policy with
                | fail => exact absurd rfl hpolicy
                | skip => exact absurd ⟨rfl, Or.inl hj⟩ hskip
                | overwrite => exact absurd ⟨rfl, hj⟩ hc

theorem DocStore.Consistent.removeOne (hs : s.Consistent) (i : ι) : (s.removeOne i).Consistent := by
  unfold DocStore.removeOne
  cases hi : s.strToU64.lookup i with
  | none => exact hs
  | some h =>
    constructor
    · intro a
      change a ∈ s.index.rows.erase h ↔ ∃ j, (s.strToU64.erase i).lookup j = some a
      rw [Finmap.mem_erase, hs.handles]
      constructor
      · rintro ⟨hne, j, hj⟩
        refine ⟨j, ?_⟩
        rw [lookup_erase_eq, if_neg, hj]
        rintro rfl
        exact hne (Option.some.inj (hj.symm.trans hi))
      · rintro ⟨j, hj⟩
        rw [lookup_erase_eq] at hj
        split at hj
        · cases hj
        next hji =>
          refine ⟨?_, j, hj⟩
          rintro rfl
          exact hji (hs.key_unique hj hi)
    · intro j a
      change (s.strToU64.erase i).lookup j = some a ↔
        ∃ data, (s.u64ToDoc.erase h).lookup a = some (j, data)
      rw [lookup_erase_eq]
      simp only [lookup_erase_eq]
      have hja := hs.inverse j a
      -- Any other entry has another id and another handle.
      by_cases h1 : j = i <;> by_cases h2 : a = h
      · simp [h1, h2]
      · subst h1
        simp only [if_true, h2, if_false, ← hja, hi, Option.some.injEq, Ne.symm h2]
        simp
      · subst h2
        have hnot : ¬ s.strToU64.lookup j = some a := fun hj => h1 (hs.key_unique hj hi)
        simp [h1, hnot]
      · simp only [h1, h2, if_false, hja]
    · intro j a hj
      dsimp only at hj
      rw [lookup_erase_eq] at hj
      split at hj
      · cases hj
      · exact hs.watermark j a hj

theorem DocStore.Consistent.deleteDocuments (hs : s.Consistent) (ids : List ι) :
    (s.deleteDocuments ids).Consistent := by
  unfold DocStore.deleteDocuments
  induction ids generalizing s with
  | nil => exact hs
  | cons i ids ih => exact ih (hs.removeOne i)

/-- A saved pair of a consistent store passes the checks of the load. -/
theorem DocStore.Consistent.checkDocLoaded (hs : s.Consistent) :
    Python.checkDocLoaded s.index s.sidecar = .ok () := by
  have hkeys : s.u64ToDoc.keys = s.index.rows.keys := by
    ext h
    rw [Finmap.mem_keys, Finmap.mem_keys, hs.handles, Dict.mem_iff_lookup]
    constructor
    · rintro ⟨⟨i, data⟩, hdata⟩
      exact ⟨i, (hs.inverse i h).mpr ⟨data, hdata⟩⟩
    · rintro ⟨i, hi⟩
      obtain ⟨data, hdata⟩ := (hs.inverse i h).mp hi
      exact ⟨(i, data), hdata⟩
  -- Two handles of one id would be one handle.
  have hnd : ((values s.u64ToDoc).map Prod.fst).Nodup := by
    unfold values
    rw [Multiset.map_map]
    refine Multiset.Nodup.map_on ?_ s.u64ToDoc.nodupKeys.nodup
    rintro ⟨h, i, data⟩ hx ⟨h', i', data'⟩ hx' hii
    have hi : i = i' := hii
    subst hi
    have h1 := (hs.inverse i h).mpr ⟨data, mem_entries.mp hx⟩
    have h2 := (hs.inverse i h').mpr ⟨data', mem_entries.mp hx'⟩
    have hh : h = h' := Option.some.inj (h1.symm.trans h2)
    subst hh
    have hd := (mem_entries.mp hx).symm.trans (mem_entries.mp hx')
    rw [Option.some.inj hd]
  have hcard : ((values s.u64ToDoc).map Prod.fst).toFinset.card = s.u64ToDoc.keys.card := by
    rw [Multiset.toFinset_card_of_nodup hnd, Multiset.card_map, card_values]
  have hcheck : checkPersistedHandles s.index s.u64ToDoc.keys.val (some s.nextU64) = .ok () := by
    have hmem : ∀ h ∈ s.u64ToDoc.keys.val, ∃ i, s.strToU64.lookup i = some h := by
      intro h hh
      rw [← hs.handles, ← Finmap.mem_keys, ← hkeys]
      exact hh
    apply checkPersistedHandles_ok
    · exact s.u64ToDoc.keys.nodup
    · rw [hkeys]; rfl
    · intro h hh
      exact (hs.handles h).mpr (hmem h hh)
    · intro h hh
      obtain ⟨i, hi⟩ := hmem h hh
      exact hs.watermark i h hi
  have hcheck' : checkPersistedHandles s.index s.sidecar.u64ToDoc.keys.val (some s.sidecar.nextU64) =
      .ok () := hcheck
  have hcard' : ((values s.sidecar.u64ToDoc).map Prod.fst).toFinset.card =
      s.sidecar.u64ToDoc.keys.card := hcard
  unfold Python.checkDocLoaded
  rw [if_neg (not_not.mpr hcard'), hcheck']
  rfl

end

end Turbovec.Python
