import Turbovec.Python.Calls

/-!
# The writes in single steps

A write holds the store's lock and changes the index and the maps one atomic step at a time, in an order that
its readers rely on: the maps before the index on an addition, the index before the maps on a removal. An addition
that raises unwinds its map entries and puts the old ones back, step by step too.
-/

namespace Turbovec.Python

open Dict

/-! ## Single steps -/

/-- One atomic step of a write. -/
inductive Micro (ι V D : Type) where
  | issue (n : ℕ)
  | setStr (i : ι) (h : ℕ)
  | setRev (h : ℕ) (i : ι)
  | setDoc (i : ι) (doc : D)
  /-- the old payload put back after an index add that raised -/
  | restoreDoc (i : ι) (doc : D)
  | addSlice (d : ℕ) (batch : List (ℕ × V))
  | removeIndex (h : ℕ)
  /-- the replaced vector of an upserted id dropped -/
  | dropIndex (i : ι) (h : ℕ)
  | popStr (i : ι)
  | popRev (h : ℕ)
  | popDoc (i : ι)
  | resetIndex
  | resetDocs
  | resetStr
  | resetRev
  | resetNext

section

variable {ι V D : Type} [DecidableEq ι]

/-- The index after a slice that the kernel takes. -/
def Index.grow (d : ℕ) (ix : Index V) (part : List (ℕ × V)) : Index V :=
  { dim := some d, rows := setAll ix.rows part }

/-- What a step does to the store. -/
def Micro.apply (s : Store ι V D) : Micro ι V D → Store ι V D
  | .issue n => { s with nextU64 := s.nextU64 + n }
  | .setStr i h => { s with strToU64 := s.strToU64.insert i h }
  | .setRev h i => { s with u64ToStr := s.u64ToStr.insert h i }
  | .setDoc i doc | .restoreDoc i doc => { s with docs := s.docs.insert i doc }
  | .addSlice d batch => { s with index := s.index.grow d batch }
  | .removeIndex h | .dropIndex _ h => { s with index := s.index.remove h }
  | .popStr i => { s with strToU64 := s.strToU64.erase i }
  | .popRev h => { s with u64ToStr := s.u64ToStr.erase h }
  | .popDoc i => { s with docs := s.docs.erase i }
  | .resetIndex => { s with index := { dim := none, rows := ∅ } }
  | .resetDocs => { s with docs := ∅ }
  | .resetStr => { s with strToU64 := ∅ }
  | .resetRev => { s with u64ToStr := ∅ }
  | .resetNext => { s with nextU64 := 0 }

/-- Steps in order. -/
def run (s : Store ι V D) (ms : List (Micro ι V D)) : Store ι V D := ms.foldl Micro.apply s

/-! ## The steps of an addition -/

section variable (K : Kernel V) (cs d : ℕ)

/-- The slices of `addSlices` that the kernel takes, and whether an exception ends it. -/
def takenSlices : ℕ → Index V → List (ℕ × V) → Option ℕ → List (List (ℕ × V)) × Bool
  | 0, _, _, _ => ([], false)
  | fuel + 1, ix, batch, stop =>
    if batch.isEmpty then ([], false)
    else if stop = some 0 then ([], true)
    else
      match rawAddWithIds K ix d (batch.take cs) with
      | none => ([], true)
      | some ix' =>
        let r := takenSlices fuel ix' (batch.drop cs) (stop.map Nat.pred)
        (batch.take cs :: r.1, r.2)

/-- The slices of `addWithIds` that the kernel takes, and whether it raises. -/
def takenParts (ix : Index V) (batch : List (ℕ × V)) (stop : Option ℕ) : List (List (ℕ × V)) × Bool :=
  if chunked K cs ix batch then takenSlices K cs d batch.length ix batch stop
  else if stop = some 0 then ([], true)
  else
    match rawAddWithIds K ix d batch with
    | none => ([], true)
    | some _ => ([batch], false)

/-- One row of the loop that fills the maps. -/
def mapSteps (p : (ι × D × V) × ℕ) : List (Micro ι V D) :=
  [.setStr p.1.1 p.2, .setRev p.2 p.1.1, .setDoc p.1.1 p.1.2.1]

/-- One replaced vector dropped. -/
def dropSteps (o : ι × ℕ × D) : List (Micro ι V D) := [.dropIndex o.1 o.2.1, .popRev o.2.1]

/-- The unwinding loop, over the id map it starts from. -/
def unwindSteps : Dict ι ℕ → List (ι × ℕ) → List (Micro ι V D)
  | _, [] => []
  | str, (i, h) :: rows =>
    if str.lookup i = some h then .popRev h :: .popStr i :: .popDoc i :: unwindSteps (str.erase i) rows
    else .popRev h :: unwindSteps str rows

/-- One old entry put back. -/
def restoreSteps (o : ι × ℕ × D) : List (Micro ι V D) :=
  [.setStr o.1 o.2.1, .setRev o.2.1 o.1, .restoreDoc o.1 o.2.2]

/-- The steps of `storeRows`, with the exception that comes before slice `stop`, if any. -/
def storeSteps (s : Store ι V D) (rows : List (ι × D × V)) (stop : Option ℕ) : List (Micro ι V D) :=
  if s.index.dim.any (· != d) then []
  else
    let handles := s.handles rows.length
    .issue rows.length ::
      if handles.any (2 ^ 64 ≤ ·) then []
      else
        let ids := rows.map fun r => r.1
        match s.old ids with
        | none => []
        | some old =>
          let parts := takenParts K cs d s.index (handles.zip (rows.map fun r => r.2.2)) stop
          (rows.zip handles).flatMap mapSteps ++ (parts.1.map (.addSlice d) ++
            if parts.2 then
              unwindSteps (setAll s.strToU64 (ids.zip handles)) (ids.zip handles) ++ old.flatMap restoreSteps
            else old.flatMap dropSteps)

end

/-- The steps of one removed id. -/
def removeSteps (s : Store ι V D) (i : ι) : List (Micro ι V D) :=
  match s.strToU64.lookup i with
  | none => []
  | some h => [.removeIndex h, .popStr i, .popRev h, .popDoc i]

/-- The steps of `delete`. -/
def deleteSteps (s : Store ι V D) : List ι → List (Micro ι V D)
  | [] => []
  | i :: is => removeSteps s i ++ deleteSteps (s.removeId i) is

/-- The steps of `clear`. -/
def clearSteps : List (Micro ι V D) := [.resetIndex, .resetDocs, .resetStr, .resetRev, .resetNext]

/-! ## The steps make the call -/

section

variable {K : Kernel V} {cs d : ℕ} {ix : Index V} {batch : List (ℕ × V)} {stop : Option ℕ}

theorem addSlices_eq (fuel : ℕ) : addSlices K cs d fuel ix batch stop =
    ((takenSlices K cs d fuel ix batch stop).1.foldl (Index.grow d) ix, (takenSlices K cs d fuel ix batch stop).2) := by
  induction fuel generalizing ix batch stop with
  | zero => rfl
  | succ fuel ih =>
    unfold addSlices takenSlices
    split
    · rfl
    split
    · rfl
    cases hraw : rawAddWithIds K ix d (batch.take cs) with
    | none => rfl
    | some ix' =>
      have hix : ix' = ix.grow d (batch.take cs) := (rawAddWithIds_eq_some hraw).2
      dsimp only
      rw [ih, List.foldl_cons, hix]

/-- The slices the kernel takes make the index that the wrapper leaves. -/
theorem addWithIds_eq : addWithIds K cs ix d batch stop =
    ((takenParts K cs d ix batch stop).1.foldl (Index.grow d) ix, (takenParts K cs d ix batch stop).2) := by
  unfold addWithIds takenParts
  split
  · exact addSlices_eq _
  split
  · rfl
  cases hraw : rawAddWithIds K ix d batch with
  | none => rfl
  | some ix' =>
    have hix : ix' = ix.grow d batch := (rawAddWithIds_eq_some hraw).2
    dsimp only
    rw [hix, List.foldl_cons, List.foldl_nil]

theorem mem_of_takenSlices {fuel : ℕ} {part : List (ℕ × V)}
    (hpart : part ∈ (takenSlices K cs d fuel ix batch stop).1) {q : ℕ × V} (hq : q ∈ part) : q ∈ batch := by
  induction fuel generalizing ix batch stop with
  | zero => cases hpart
  | succ fuel ih =>
    unfold takenSlices at hpart
    split at hpart
    · cases hpart
    split at hpart
    · cases hpart
    cases hraw : rawAddWithIds K ix d (batch.take cs) with
    | none =>
      rw [hraw] at hpart
      cases hpart
    | some ix' =>
      rw [hraw] at hpart
      rcases List.mem_cons.mp hpart with rfl | hpart
      · exact List.mem_of_mem_take hq
      · exact List.mem_of_mem_drop (ih hpart)

theorem mem_of_takenParts {part : List (ℕ × V)} (hpart : part ∈ (takenParts K cs d ix batch stop).1) {q : ℕ × V}
    (hq : q ∈ part) : q ∈ batch := by
  unfold takenParts at hpart
  split at hpart
  · exact mem_of_takenSlices hpart hq
  split at hpart
  · cases hpart
  cases hraw : rawAddWithIds K ix d batch with
  | none =>
    rw [hraw] at hpart
    cases hpart
  | some ix' =>
    rw [hraw, List.mem_singleton] at hpart
    exact hpart ▸ hq

/-- The rows after some slices: those of before, and rows of the slices. -/
theorem lookup_grow {parts : List (List (ℕ × V))} {h : ℕ} {v : V}
    (hv : (parts.foldl (Index.grow d) ix).rows.lookup h = some v) :
    ix.rows.lookup h = some v ∨ ∃ part ∈ parts, (h, v) ∈ part := by
  induction parts generalizing ix with
  | nil => exact Or.inl hv
  | cons part parts ih =>
    rcases ih hv with hv | ⟨part', hpart', hmem⟩
    · rcases of_lookup_setAll hv with hmem | hv
      · exact Or.inr ⟨part, List.mem_cons_self, hmem⟩
      · exact Or.inl hv
    · exact Or.inr ⟨part', List.mem_cons_of_mem _ hpart', hmem⟩

theorem lookup_addWithIds {h : ℕ} {v : V} (hv : (addWithIds K cs ix d batch stop).1.rows.lookup h = some v) :
    ix.rows.lookup h = some v ∨ (h, v) ∈ batch := by
  rw [addWithIds_eq] at hv
  rcases lookup_grow hv with hv | ⟨part, hpart, hmem⟩
  · exact Or.inl hv
  · exact Or.inr (mem_of_takenParts hpart hmem)

end

variable {s : Store ι V D}

theorem run_append (s : Store ι V D) (a b : List (Micro ι V D)) : run s (a ++ b) = run (run s a) b :=
  List.foldl_append

/-- A block of steps for each element of a loop. -/
theorem run_flatMap {α : Type} {f : α → List (Micro ι V D)} {g : Store ι V D → α → Store ι V D}
    (hf : ∀ s a, run s (f a) = g s a) (l : List α) (s : Store ι V D) : run s (l.flatMap f) = l.foldl g s := by
  induction l generalizing s with
  | nil => rfl
  | cons a l ih => rw [List.flatMap_cons, run_append, hf, ih, List.foldl_cons]

theorem run_mapSteps (l : Rows ι V D) (s : Store ι V D) :
    run s (l.flatMap mapSteps) = l.foldl (fun m p => m.mapRow (p.1.1, p.1.2.1) p.2) s :=
  run_flatMap (fun _ _ => rfl) l s

theorem run_dropSteps (old : List (ι × ℕ × D)) (s : Store ι V D) :
    run s (old.flatMap dropSteps) = old.foldl Store.dropRow s :=
  run_flatMap (fun _ _ => rfl) old s

theorem run_restoreSteps (old : List (ι × ℕ × D)) (s : Store ι V D) :
    run s (old.flatMap restoreSteps) = old.foldl Store.restoreRow s :=
  run_flatMap (fun _ _ => rfl) old s

theorem run_addSlice (d : ℕ) (parts : List (List (ℕ × V))) (s : Store ι V D) :
    run s (parts.map (.addSlice d)) = { s with index := parts.foldl (Index.grow d) s.index } := by
  induction parts generalizing s with
  | nil => rfl
  | cons part parts ih =>
    rw [List.map_cons, List.foldl_cons]
    exact ih _

theorem run_unwindSteps (l : List (ι × ℕ)) (s : Store ι V D) :
    run s (unwindSteps s.strToU64 l) = l.foldl (fun m p => m.unmapRow p.1 p.2) s := by
  induction l generalizing s with
  | nil => rfl
  | cons p l ih =>
    obtain ⟨i, h⟩ := p
    by_cases hi : s.strToU64.lookup i = some h
    · have hsteps : (unwindSteps s.strToU64 ((i, h) :: l) : List (Micro ι V D)) =
          .popRev h :: .popStr i :: .popDoc i :: unwindSteps (s.strToU64.erase i) l := if_pos hi
      have hrow : s.unmapRow i h = { s with strToU64 := s.strToU64.erase i, u64ToStr := s.u64ToStr.erase h,
                                            docs := s.docs.erase i } := if_pos hi
      rw [hsteps, List.foldl_cons, hrow, ← ih]
      rfl
    · have hsteps : (unwindSteps s.strToU64 ((i, h) :: l) : List (Micro ι V D)) =
          .popRev h :: unwindSteps s.strToU64 l := if_neg hi
      have hrow : s.unmapRow i h = { s with u64ToStr := s.u64ToStr.erase h } := if_neg hi
      rw [hsteps, List.foldl_cons, hrow, ← ih]
      rfl

/-- The steps of an addition, one after the other, make the store that the addition leaves. -/
theorem run_storeSteps (K : Kernel V) (cs : ℕ) (s : Store ι V D) (d : ℕ) (rows : List (ι × D × V)) (stop : Option ℕ) :
    run s (storeSteps K cs d s rows stop) = (s.storeRows K cs d rows stop).1 := by
  unfold storeSteps Store.storeRows
  split
  · rfl
  dsimp only
  split
  · rfl
  rw [Store.old_nextU64 s (s.nextU64 + rows.length)]
  cases s.old (rows.map fun r => r.1) with
  | none => rfl
  | some old =>
    have hlen : (s.handles rows.length).length = rows.length := List.length_range'
    have hzip := (rows_zip_handles rows _ hlen).2.2.1
    dsimp only
    rw [mapRows_eq, addWithIds_eq]
    change run { s with nextU64 := s.nextU64 + rows.length } _ = _
    rw [run_append, run_append, run_mapSteps, mapRows_eq, run_addSlice, hzip]
    dsimp only
    cases (takenParts K cs d s.index ((s.handles rows.length).zip (rows.map fun r => r.2.2)) stop).2 with
    | true =>
      rw [if_pos rfl, run_append, run_restoreSteps]
      dsimp only
      rw [← run_unwindSteps]
    | false =>
      rw [if_neg Bool.false_ne_true, run_dropSteps]

theorem run_removeSteps (s : Store ι V D) (i : ι) : run s (removeSteps s i) = s.removeId i := by
  unfold removeSteps Store.removeId
  cases s.strToU64.lookup i with
  | none => rfl
  | some h => rfl

theorem run_deleteSteps (s : Store ι V D) (ids : List ι) : run s (deleteSteps s ids) = s.delete ids := by
  unfold Store.delete
  induction ids generalizing s with
  | nil => rfl
  | cons i ids ih =>
    unfold deleteSteps
    rw [run_append, run_removeSteps, ih, List.foldl_cons]

end

end Turbovec.Python
