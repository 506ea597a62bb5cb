import Turbovec.Index.IdMapCalls

/-!
# Runs of an id map

What the id structures hold after any calls: a map from ids to rows is kept beside the index, changed by
an add that returns and by a removal and by nothing else, and every answer is the one it gives.
-/

namespace Turbovec

open Pack IoV7 Slice SlotMap

namespace IdMapIndex

/-- The id structures agree with one another and with the inner index. -/
structure Coherent (x : IdMapIndex) : Prop where
  rows : x.slotToId.length = x.inner.nVectors
  nodup : x.slotToId.Nodup
  /-- a built table inverts the slots -/
  inverts : ∀ m, x.idToSlot = some m → Inverts m x.slotToId
  /-- until then the loaded ids are sorted -/
  sorted : x.idToSlot = none → x.sortedIds.Pairwise (· ≤ ·)
  /-- and with those added since they are the live ones -/
  window : x.idToSlot = none → ∀ id, id ∈ x.sortedIds ∨ id ∈ x.deferredAdded ↔ id ∈ x.slotToId
  dimmed : x.inner.Dimmed

namespace Coherent

variable {x : IdMapIndex}

theorem table (h : x.Coherent) : Inverts x.table x.slotToId := by
  unfold IdMapIndex.table
  cases hm : x.idToSlot with
  | some m => exact h.inverts m hm
  | none => exact inverts_collect h.nodup

@[simp] theorem slotToId_ids (x : IdMapIndex) : x.ids.slotToId = x.slotToId := by
  unfold IdMapIndex.ids
  split
  · rfl
  · rfl

@[simp] theorem inner_ids (x : IdMapIndex) : x.ids.inner = x.inner := by
  unfold IdMapIndex.ids
  split
  · rfl
  · rfl

theorem idToSlot_ids (x : IdMapIndex) : x.ids.idToSlot = some x.table := by
  unfold IdMapIndex.ids IdMapIndex.table
  cases hm : x.idToSlot with
  | some m => exact hm
  | none => rfl

/-- A use of the table changes no answer. -/
theorem ids (h : x.Coherent) : x.ids.Coherent where
  rows := by rw [slotToId_ids, inner_ids, h.rows]
  nodup := by rw [slotToId_ids]; exact h.nodup
  inverts m hm := by
    rw [idToSlot_ids] at hm
    rw [slotToId_ids, ← Option.some.inj hm]
    exact h.table
  sorted hn := by rw [idToSlot_ids] at hn; cases hn
  window hn := by rw [idToSlot_ids] at hn; cases hn
  dimmed := by rw [inner_ids]; exact h.dimmed

/-- A call that leaves the rows in place leaves the ids coherent. -/
theorem withInner (h : x.Coherent) {inner : TurboQuantIndex} (hc : x.inner.Counted inner x.inner.nVectors) :
    ({ x with inner } : IdMapIndex).Coherent where
  rows := h.rows.trans hc.rows.symm
  nodup := h.nodup
  inverts := h.inverts
  sorted := h.sorted
  window := h.window
  dimmed := hc.dimmed h.dimmed le_rfl

theorem present (h : x.Coherent) (id : UInt64) : x.present id = decide (id ∈ x.slotToId) := by
  unfold IdMapIndex.present
  cases hm : x.idToSlot with
  | some m => exact Bool.eq_iff_iff.mpr (((h.inverts m hm).isSome id).trans decide_eq_true_iff.symm)
  | none =>
    dsimp only
    rw [tableContains_eq (h.sorted hm), ← Bool.decide_or, decide_eq_decide]
    exact h.window hm id

end Coherent

/-- The up-front check passes a batch of new, distinct ids. -/
theorem checkIds_eq_ok {present : UInt64 → Bool} {ids : List UInt64} {seen : Finset UInt64} :
    checkIds present ids seen = .ok () ↔
      ids.Nodup ∧ ∀ id ∈ ids, present id = false ∧ id ∉ seen := by
  induction ids generalizing seen with
  | nil => simp [checkIds]
  | cons id ids ih =>
    rw [checkIds, List.nodup_cons, List.forall_mem_cons]
    split
    · rename_i hp
      simp [hp]
    · rename_i hp
      rw [Bool.not_eq_true] at hp
      split
      · rename_i hs
        simp [hs]
      · rename_i hs
        rw [ih]
        constructor
        · intro ⟨hn, hall⟩
          refine ⟨⟨fun hmem => (hall id hmem).2 (Finset.mem_insert_self _ _), hn⟩, ⟨hp, hs⟩, fun a ha => ?_⟩
          exact ⟨(hall a ha).1, fun hmem => (hall a ha).2 (Finset.mem_insert_of_mem hmem)⟩
        · intro ⟨⟨hnot, hn⟩, _, hall⟩
          refine ⟨hn, fun a ha => ⟨(hall a ha).1, fun hmem => ?_⟩⟩
          rcases Finset.mem_insert.mp hmem with rfl | hmem
          · exact hnot ha
          · exact (hall a ha).2 hmem

/-- A batch is addable exactly when the up-front check would pass it. -/
theorem allAddable_iff {taken : UInt64 → Bool} {ids : List UInt64} {seen : Finset UInt64} :
    allAddable taken ids seen = true ↔ checkIds taken ids seen = .ok () := by
  induction ids generalizing seen with
  | nil => simp [allAddable, checkIds]
  | cons id ids ih =>
    rw [allAddable, checkIds, Bool.and_eq_true, Bool.and_eq_true, decide_eq_true_iff, Bool.not_eq_true', ih]
    split
    · rename_i ht
      simp [ht]
    · rename_i ht
      split
      · rename_i hs
        simp [hs]
      · rename_i hs
        simp [ht, hs]

theorem batchAddable_iff {x : IdMapIndex} {ids : List UInt64} :
    x.batchAddable ids = true ↔ checkIds x.present ids ∅ = .ok () := by
  have hpresent : x.present = if x.idToSlot.isNone then
      (fun id => tableContains x.sortedIds id || decide (id ∈ x.deferredAdded)) else fun id => (x.contains id).2 := by
    ext id
    unfold IdMapIndex.present IdMapIndex.contains IdMapIndex.table
    cases x.idToSlot with
    | none => rfl
    | some m => rfl
  rw [hpresent, ← allAddable_iff, batchAddable]
  split
  · rfl
  · rfl

section variable {P : Platform} {T : Tables} {K : Kernels} {S : ScanKernels} {x : IdMapIndex}

/-! ## Adding -/

/-- How an add of `ids` ends: refused or unwound with the ids as they were, or with the ids pushed. -/
theorem addWithIds2d_cases (hx : x.Coherent) (vectors : List F32) (dim : ℕ) (ids : List UInt64)
    (fault : Option Fault) :
    (x.addWithIds2d P T K vectors dim ids fault).1.Coherent ∧
      ((x.addWithIds2d P T K vectors dim ids fault).2 = .ok →
        ids.Nodup ∧ (∀ id ∈ ids, id ∉ x.slotToId) ∧
          (x.addWithIds2d P T K vectors dim ids fault).1.slotToId = x.slotToId ++ ids) ∧
      ((x.addWithIds2d P T K vectors dim ids fault).2 ≠ .ok →
        (x.addWithIds2d P T K vectors dim ids fault).1.slotToId = x.slotToId) := by
  have hself : ∀ o : Outcome AddError, o ≠ .ok → ((x, o).1.Coherent ∧
      ((x, o).2 = .ok → ids.Nodup ∧ (∀ id ∈ ids, id ∉ x.slotToId) ∧ (x, o).1.slotToId = x.slotToId ++ ids) ∧
      ((x, o).2 ≠ .ok → (x, o).1.slotToId = x.slotToId)) :=
    fun o ho => ⟨hx, fun h => absurd h ho, fun _ => rfl⟩
  unfold addWithIds2d
  split
  · exact hself _ (by simp)
  · split
    · exact hself _ (by simp)
    · dsimp only
      split
      · exact hself _ (by simp)
      · rename_i hlen
        rw [not_ne_iff] at hlen
        cases hcheck : checkIds x.present ids ∅ with
        | error e => exact hself _ (by simp)
        | ok u =>
          rw [checkIds_eq_ok] at hcheck
          obtain ⟨hn, hall⟩ := hcheck
          have hfresh : ∀ id ∈ ids, id ∉ x.slotToId := by
            intro id hid
            have := (hall id hid).1
            rw [hx.present] at this
            exact of_decide_eq_false this
          have hc := TurboQuantIndex.add2d_counted (P := P) (T := T) (K := K) x.inner vectors dim fault
          have hd := TurboQuantIndex.add2d_dimmed (P := P) (T := T) (K := K) hx.dimmed vectors dim fault
          dsimp only
          generalize x.inner.add2d P T K vectors dim fault = r at hc hd
          obtain ⟨inner, o⟩ := r
          cases o with
          | err e =>
            exact ⟨hx.withInner hc, fun h => by simp at h, fun _ => rfl⟩
          | panic =>
            exact ⟨hx.withInner hc, fun h => by simp at h, fun _ => rfl⟩
          | ok =>
            refine ⟨?_, fun _ => ⟨hn, hfresh, rfl⟩, fun h => absurd rfl h⟩
            constructor
            · dsimp only
              rw [List.length_append, hx.rows, hc.rows, TurboQuantIndex.addedRows, hlen]
            · dsimp only
              rw [List.nodup_append]
              exact ⟨hx.nodup, hn, fun a ha b hb hab => hfresh b hb (hab ▸ ha)⟩
            · intro m hm
              obtain ⟨m₀, hm₀, rfl⟩ := Option.map_eq_some_iff.mp hm
              rw [← hx.rows]
              exact (hx.inverts m₀ hm₀).append hn hfresh
            · intro hnone
              exact hx.sorted (Option.map_eq_none_iff.mp hnone)
            · intro hnone id
              have hnone := Option.map_eq_none_iff.mp hnone
              dsimp only
              rw [hnone, Option.isNone_none, if_pos rfl, Finset.mem_union, List.mem_toFinset, ← or_assoc,
                hx.window hnone, List.mem_append]
            · exact hd

/-! ## Removing -/

/-- A removal answers whether the id is live, and drops it. -/
theorem remove_spec (hx : x.Coherent) (id : UInt64) :
    ∃ x', x.remove P id = some (x', (x.table id).isSome) ∧ x'.Coherent ∧
      x'.slotToId = match x.table id with
        | some slot => swapRemove x.slotToId slot
        | none => x.slotToId := by
  unfold remove
  dsimp only
  cases hslot : x.table id with
  | none => exact ⟨x.ids, rfl, hx.ids, Coherent.slotToId_ids x⟩
  | some slot =>
    have hkey := (hx.table id slot).mp hslot
    have hlt := (List.getElem?_eq_some_iff.mp hkey).1
    have hidx : slot < x.inner.nVectors := by
      rw [← hx.rows]
      exact hlt
    obtain ⟨d, hd⟩ := Option.isSome_iff_exists.mp (hx.dimmed (by omega))
    obtain ⟨inner, hinner, hc⟩ := TurboQuantIndex.swapRemove_some (P := P) x.inner hidx hd
    obtain ⟨moved, hlast⟩ : ∃ a, x.slotToId[x.slotToId.length - 1]? = some a :=
      ⟨_, List.getElem?_eq_getElem (by omega)⟩
    have hslots : (if slot ≠ x.slotToId.length - 1 then x.slotToId.set slot moved else x.slotToId).take
        (x.slotToId.length - 1) = swapRemove x.slotToId slot := by
      unfold swapRemove
      rw [hlast]
    have hpair : (if slot ≠ x.slotToId.length - 1 then
          (SlotMap.insert (erase x.table id) moved slot, x.slotToId.set slot moved)
        else (erase x.table id, x.slotToId)) =
        (if slot ≠ x.slotToId.length - 1 then SlotMap.insert (erase x.table id) moved slot
          else erase x.table id,
          if slot ≠ x.slotToId.length - 1 then x.slotToId.set slot moved else x.slotToId) := by
      split
      · rfl
      · rfl
    dsimp only
    rw [Coherent.inner_ids, hinner, Coherent.slotToId_ids]
    dsimp only [Option.bind_eq_bind, Option.bind_some]
    rw [hlast]
    dsimp only [Option.bind_some]
    rw [hpair]
    dsimp only
    rw [hslots]
    refine ⟨_, rfl, ?_, rfl⟩
    constructor
    · rw [length_swapRemove, hx.rows, hc.rows]
    · exact nodup_swapRemove hx.nodup hlt
    · intro m hm
      rw [← Option.some.inj hm]
      exact hx.table.swapRemove hslot hlast
    · intro h
      cases h
    · intro h
      cases h
    · exact hc.dimmed hx.dimmed (Nat.sub_le _ _)

/-! ## Construction -/

/-- An index with no rows and its table built. -/
theorem coherent_empty {inner : TurboQuantIndex} (hn : inner.nVectors = 0) :
    (⟨inner, [], some fun _ => none, [], ∅⟩ : IdMapIndex).Coherent where
  rows := hn.symm
  nodup := List.nodup_nil
  inverts m hm := by
    rw [← Option.some.inj hm]
    intro a i
    simp
  sorted h := by cases h
  window h := by cases h
  dimmed h := by rw [hn] at h; exact absurd h (Nat.lt_irrefl 0)

/-- An index with a checked id for each row and its table unset. -/
theorem coherent_checked {inner : TurboQuantIndex} {slotToId : List UInt64}
    (hlen : slotToId.length = inner.nVectors) (hr : repeats (sortIds slotToId) = false)
    (hd : inner.Dimmed) : (⟨inner, slotToId, none, sortIds slotToId, ∅⟩ : IdMapIndex).Coherent where
  rows := hlen
  nodup := nodup_of_sortIds hr
  inverts m hm := by cases hm
  sorted _ := sortIds_sorted slotToId
  window _ id := by
    dsimp only
    rw [mem_sortIds]
    simp
  dimmed := hd

theorem new_coherent {dim bitWidth : ℕ} (h : IdMapIndex.new dim bitWidth = .ok x) :
    x.Coherent ∧ x.slotToId = [] := by
  rw [IdMapIndex.new, bind_eq_ok] at h
  obtain ⟨inner, hinner, h⟩ := h
  cases h
  refine ⟨coherent_empty ?_, rfl⟩
  unfold TurboQuantIndex.new at hinner
  split at hinner
  · cases hinner
  · split at hinner
    · cases hinner
    · split at hinner
      · cases hinner
      · cases hinner
        rfl

theorem newLazy_coherent {bitWidth : ℕ} (h : newLazy bitWidth = .ok x) :
    x.Coherent ∧ x.slotToId = [] := by
  rw [newLazy, bind_eq_ok] at h
  obtain ⟨inner, hinner, h⟩ := h
  cases h
  refine ⟨coherent_empty ?_, rfl⟩
  unfold TurboQuantIndex.newLazy at hinner
  split at hinner
  · cases hinner
  · cases hinner
    rfl

theorem fromIndexAndIds_coherent {inner : TurboQuantIndex} {slotToId : List UInt64} (hd : inner.Dimmed)
    (h : fromIndexAndIds inner slotToId = .ok x) : x.Coherent := by
  unfold fromIndexAndIds at h
  split at h
  · cases h
  · rename_i hlen
    dsimp only at h
    split at h
    · cases h
    · rename_i hr
      cases h
      exact coherent_checked (not_ne_iff.mp hlen) (Bool.eq_false_iff.mpr hr) hd

theorem fromV7Load_coherent {raw : List UInt8} {g : ℕ} {l : V7Load} {path : Option String}
    (hl : loadImage T raw g 1 = .ok l) (h : fromV7Load P T l path = .ok x) : x.Coherent := by
  obtain ⟨hdim, hids⟩ := TurboQuantIndex.loaded_rows hl
  unfold fromV7Load at h
  dsimp only at h
  split at h
  · cases h
  · rename_i hr
    cases h
    exact coherent_checked (hids rfl) (Bool.eq_false_iff.mpr hr) (TurboQuantIndex.fromV7_dimmed hdim)

theorem load_coherent {raw : List UInt8} {path : String} (h : IdMapIndex.load P T raw path = .ok x) :
    x.Coherent := by
  rw [IdMapIndex.load] at h
  split at h
  · rw [bind_eq_ok] at h
    obtain ⟨l, hl, h⟩ := h
    exact fromV7Load_coherent hl h
  · cases h

theorem fromBytes_coherent {raw : List UInt8} (h : IdMapIndex.fromBytes P T raw = .ok x) :
    x.Coherent := by
  rw [IdMapIndex.fromBytes, bind_eq_ok] at h
  obtain ⟨l, hl, h⟩ := h
  exact fromV7Load_coherent hl h

/-! ## Searching -/

/-- A search that returns names live ids only, and no search changes the ids. -/
theorem search_spec (hx : x.Coherent) (queries : List F32) (k : ℕ) (allowlist : Option (List UInt64)) :
    (x.trySearchWithAllowlist P T S queries k allowlist).1.Coherent ∧
      (x.trySearchWithAllowlist P T S queries k allowlist).1.slotToId = x.slotToId ∧
      ∀ res, (x.trySearchWithAllowlist P T S queries k allowlist).2 = some (.ok res) →
        ∀ id ∈ res.ids, id ∈ x.slotToId := by
  have hids : ∀ {y : IdMapIndex} {slots : List ℤ} {ids : List UInt64}, slots.mapM y.idOf = some ids →
      ∀ id ∈ ids, id ∈ y.slotToId := by
    intro y slots ids hm id hid
    rw [mapM_eq_some] at hm
    obtain ⟨slot, -, hslot⟩ := exists_of_forall₂_right hm hid
    unfold idOf at hslot
    split at hslot
    · cases hslot
    · exact List.mem_of_getElem? hslot
  -- the scan is run on an index whose ids are those of `x`
  have hscan : ∀ y : IdMapIndex, y.Coherent → y.slotToId = x.slotToId → ∀ mask,
      (y.searchMasked P T S queries k mask).1.Coherent ∧
        (y.searchMasked P T S queries k mask).1.slotToId = x.slotToId ∧
        ∀ res, (y.searchMasked P T S queries k mask).2 = some (.ok res) → ∀ id ∈ res.ids, id ∈ x.slotToId := by
    intro y hy hslots mask
    unfold searchMasked
    have hc := TurboQuantIndex.search_counted (P := P) (T := T) (S := S) y.inner queries k mask none
    generalize y.inner.trySearchWithOptions P T S queries k mask none = r at hc
    obtain ⟨inner, o⟩ := r
    refine ⟨?_, ?_, ?_⟩
    · rcases o with _ | e | res
      · exact hy.withInner hc
      · exact hy.withInner hc
      · exact hy.withInner hc
    · rcases o with _ | e | res
      · exact hslots
      · exact hslots
      · exact hslots
    · rcases o with _ | e | res
      · intro res h
        cases h
      · intro res h
        cases h
      · intro res' h id hid
        obtain ⟨ids, hm, heq⟩ := Option.map_eq_some_iff.mp h
        cases heq
        rw [← hslots]
        exact hids hm id hid
  unfold trySearchWithAllowlist
  dsimp only
  split
  · exact hscan x hx rfl none
  · refine ⟨hx, rfl, fun res h => ?_⟩
    cases h
  · split
    · refine ⟨hx.ids, Coherent.slotToId_ids x, fun res h => ?_⟩
      cases h
    · refine ⟨hx.ids, Coherent.slotToId_ids x, fun res h => ?_⟩
      cases h
    · exact hscan x.ids hx.ids (Coherent.slotToId_ids x) _

end

/-! ## Runs -/

section variable {ρ : Type} (P : Platform) (T : Tables) (K : Kernels) (S : ScanKernels)

/-- An id map after any calls, with the rows its slots hold and the map from ids to rows: an add that
returns inserts, a removal erases, and nothing else touches the map. -/
inductive Tracks : IdMapIndex → List ρ → (UInt64 → Option ρ) → Prop
  | new {x : IdMapIndex} {dim bitWidth : ℕ} (h : IdMapIndex.new dim bitWidth = .ok x) :
      Tracks x [] fun _ => none
  | newLazy {x : IdMapIndex} {bitWidth : ℕ} (h : IdMapIndex.newLazy bitWidth = .ok x) :
      Tracks x [] fun _ => none
  | fromParts {x : IdMapIndex} {inner : TurboQuantIndex} {ids : List UInt64} {rows : List ρ}
      {M : UInt64 → Option ρ} (hinner : TurboQuantIndex.Reachable P T K S inner)
      (h : fromIndexAndIds inner ids = .ok x) (hrows : rows.length = inner.nVectors)
      (hM : Names M ids rows) : Tracks x rows M
  | load {x : IdMapIndex} {raw : List UInt8} {path : String} {rows : List ρ} {M : UInt64 → Option ρ}
      (h : IdMapIndex.load P T raw path = .ok x) (hrows : rows.length = x.inner.nVectors)
      (hM : Names M x.slotToId rows) : Tracks x rows M
  | fromBytes {x : IdMapIndex} {raw : List UInt8} {rows : List ρ} {M : UInt64 → Option ρ}
      (h : IdMapIndex.fromBytes P T raw = .ok x) (hrows : rows.length = x.inner.nVectors)
      (hM : Names M x.slotToId rows) : Tracks x rows M
  | add {x : IdMapIndex} {rows : List ρ} {M : UInt64 → Option ρ} (h : Tracks x rows M)
      (vectors : List F32) (dim : ℕ) (ids : List UInt64) (fault : Option Fault) {newRows : List ρ}
      (hnew : newRows.length = ids.length)
      (hok : (x.addWithIds2d P T K vectors dim ids fault).2 = .ok) :
      Tracks (x.addWithIds2d P T K vectors dim ids fault).1 (rows ++ newRows) (insertAll M (ids.zip newRows))
  | failedAdd {x : IdMapIndex} {rows : List ρ} {M : UInt64 → Option ρ} (h : Tracks x rows M)
      (vectors : List F32) (dim : ℕ) (ids : List UInt64) (fault : Option Fault)
      (hfail : (x.addWithIds2d P T K vectors dim ids fault).2 ≠ .ok) :
      Tracks (x.addWithIds2d P T K vectors dim ids fault).1 rows M
  | remove {x x' : IdMapIndex} {rows : List ρ} {M : UInt64 → Option ρ} (h : Tracks x rows M) (id : UInt64)
      {found : Bool} (hr : x.remove P id = some (x', found)) :
      Tracks x' (match x.table id with
        | some slot => swapRemove rows slot
        | none => rows) (erase M id)
  | contains {x : IdMapIndex} {rows : List ρ} {M : UInt64 → Option ρ} (h : Tracks x rows M) (id : UInt64) :
      Tracks (x.contains id).1 rows M
  | search {x : IdMapIndex} {rows : List ρ} {M : UInt64 → Option ρ} (h : Tracks x rows M)
      (queries : List F32) (k : ℕ) (allowlist : Option (List UInt64)) :
      Tracks (x.trySearchWithAllowlist P T S queries k allowlist).1 rows M
  | calibrate {x : IdMapIndex} {rows : List ρ} {M : UInt64 → Option ρ} (h : Tracks x rows M)
      (sample : List F32) (dim : ℕ) (fault : Option Fault) :
      Tracks (x.calibrate2d P T K sample dim fault).1 rows M
  | prepare {x : IdMapIndex} {rows : List ρ} {M : UInt64 → Option ρ} (h : Tracks x rows M) :
      Tracks (x.prepare P T) rows M
  | sync {x : IdMapIndex} {rows : List ρ} {M : UInt64 → Option ρ} (h : Tracks x rows M) (path : String)
      (disk : Disk) : Tracks (x.sync P T path disk).1 rows M

end

section Answers

variable {ρ : Type} {P : Platform} {T : Tables} {K : Kernels} {S : ScanKernels} {x : IdMapIndex}
  {rows : List ρ} {M : UInt64 → Option ρ}

/-- The ids stay coherent, and the map names what the slots hold. -/
theorem Tracks.coherent (h : Tracks P T K S x rows M) :
    x.Coherent ∧ rows.length = x.slotToId.length ∧ Names M x.slotToId rows := by
  have hnone : Names (fun _ => none) ([] : List UInt64) ([] : List ρ) := fun a r => by simp
  induction h with
  | new h =>
    obtain ⟨hx, hslots⟩ := new_coherent h
    rw [hslots]
    exact ⟨hx, rfl, hnone⟩
  | newLazy h =>
    obtain ⟨hx, hslots⟩ := newLazy_coherent h
    rw [hslots]
    exact ⟨hx, rfl, hnone⟩
  | fromParts hinner h hrows hM =>
    have hx := fromIndexAndIds_coherent hinner.dimmed h
    unfold fromIndexAndIds at h
    split at h
    · cases h
    · rename_i hlen
      dsimp only at h
      split at h
      · cases h
      · cases h
        exact ⟨hx, hrows.trans (not_ne_iff.mp hlen).symm, hM⟩
  | load h hrows hM =>
    have hx := load_coherent h
    exact ⟨hx, hrows.trans hx.rows.symm, hM⟩
  | fromBytes h hrows hM =>
    have hx := fromBytes_coherent h
    exact ⟨hx, hrows.trans hx.rows.symm, hM⟩
  | @add x rows M h vectors dim ids fault newRows hnew hok ih =>
    obtain ⟨hx, hlen, hM⟩ := ih
    obtain ⟨hx', hadded, -⟩ := addWithIds2d_cases (P := P) (T := T) (K := K) hx vectors dim ids fault
    obtain ⟨hn, hfresh, hslots⟩ := hadded hok
    rw [hslots]
    refine ⟨hx', ?_, hM.append hlen hn hfresh hnew⟩
    rw [List.length_append, List.length_append, hlen, hnew]
  | failedAdd h vectors dim ids fault hfail ih =>
    obtain ⟨hx, hlen, hM⟩ := ih
    obtain ⟨hx', -, hkept⟩ := addWithIds2d_cases (P := P) (T := T) (K := K) hx vectors dim ids fault
    rw [hkept hfail]
    exact ⟨hx', hlen, hM⟩
  | @remove x x' rows M h id found hr ih =>
    obtain ⟨hx, hlen, hM⟩ := ih
    obtain ⟨x₁, hr', hx', hslots⟩ := remove_spec (P := P) hx id
    rw [hr'] at hr
    cases hr
    rw [hslots]
    cases hslot : x.table id with
    | none =>
      have hnot : M id = none := by
        rw [hM.eq_bind hx.table, hslot]
        rfl
      -- an id that is not there: the reference map loses nothing either
      have herase : erase M id = M := by
        ext a
        rw [erase_apply]
        split
        · rename_i ha
          rw [ha, hnot]
        · rfl
      rw [herase]
      exact ⟨hx', hlen, hM⟩
    | some slot =>
      refine ⟨hx', ?_, hM.swapRemove hlen hx.nodup ((hx.table id slot).mp hslot)⟩
      rw [length_swapRemove, length_swapRemove, hlen]
  | contains h id ih =>
    obtain ⟨hx, hlen, hM⟩ := ih
    refine ⟨hx.ids, ?_⟩
    rw [IdMapIndex.contains, Coherent.slotToId_ids]
    exact ⟨hlen, hM⟩
  | search h queries k allowlist ih =>
    obtain ⟨hx, hlen, hM⟩ := ih
    obtain ⟨hx', hslots, -⟩ := search_spec (P := P) (T := T) (S := S) hx queries k allowlist
    rw [hslots]
    exact ⟨hx', hlen, hM⟩
  | calibrate h sample dim fault ih =>
    obtain ⟨hx, hlen, hM⟩ := ih
    exact ⟨hx.withInner (TurboQuantIndex.calibrate2d_counted _ sample dim fault), hlen, hM⟩
  | @prepare x rows M h ih =>
    obtain ⟨hx, hlen, hM⟩ := ih
    -- a preparation builds the table from the ids as well
    have hc := TurboQuantIndex.prepare_counted (P := P) (T := T) x.inner
    rw [← Coherent.inner_ids] at hc
    refine ⟨?_, ?_⟩
    · have hw := hx.ids.withInner hc
      rwa [Coherent.inner_ids] at hw
    · rw [IdMapIndex.prepare]
      dsimp only
      rw [Coherent.slotToId_ids]
      exact ⟨hlen, hM⟩
  | sync h path disk ih =>
    obtain ⟨hx, hlen, hM⟩ := ih
    exact ⟨hx.withInner (TurboQuantIndex.sync_counted _ path disk), hlen, hM⟩

/-- The ids are a bijection in every run, and every answer is the one of the map from ids to rows. -/
theorem ids_bijective (h : Tracks P T K S x rows M) :
    x.slotToId.length = x.inner.nVectors ∧ rows.length = x.inner.nVectors ∧ x.slotToId.Nodup ∧
    (∀ m, x.idToSlot = some m → ∀ id i, m id = some i ↔ x.slotToId[i]? = some id) ∧
    (x.idToSlot = none → ∀ id, id ∈ x.sortedIds ∨ id ∈ x.deferredAdded ↔ id ∈ x.slotToId) ∧
    (∀ id, M id = (x.table id).bind fun i => rows[i]?) ∧
    (∀ id, (x.contains id).2 = (M id).isSome) ∧
    (∀ id, ∃ x', x.remove P id = some (x', (M id).isSome)) ∧
    (∀ ids, x.batchAddable ids = true ↔ ids.Nodup ∧ ∀ id ∈ ids, M id = none) ∧
    ∀ queries k allowlist res, (x.trySearchWithAllowlist P T S queries k allowlist).2 = some (.ok res) →
      ∀ id ∈ res.ids, (M id).isSome := by
  obtain ⟨hx, hlen, hM⟩ := h.coherent
  have hlive : ∀ id, (x.table id).isSome = (M id).isSome := by
    intro id
    rw [Bool.eq_iff_iff, hx.table.isSome, hM.isSome hlen]
  refine ⟨hx.rows, hlen.trans hx.rows, hx.nodup, hx.inverts, hx.window, hM.eq_bind hx.table, hlive, ?_, ?_, ?_⟩
  · intro id
    obtain ⟨x', hr, -⟩ := remove_spec (P := P) hx id
    rw [hlive] at hr
    exact ⟨x', hr⟩
  · intro ids
    rw [batchAddable_iff, checkIds_eq_ok]
    refine and_congr_right' (forall₂_congr fun id _ => ?_)
    rw [hx.present, decide_eq_false_iff_not, ← hM.isSome hlen, Bool.not_eq_true, Option.isSome_eq_false_iff,
      Option.isNone_iff_eq_none]
    simp
  · intro queries k allowlist res hres id hid
    rw [hM.isSome hlen]
    exact (search_spec (P := P) (T := T) (S := S) hx queries k allowlist).2.2 res hres id hid

end Answers

/-! ## Two ids -/

def twoIds : IdMapIndex := ⟨twoRows, [7, 9], none, sortIds [7, 9], ∅⟩

theorem twoIds_ok : fromIndexAndIds twoRows [7, 9] = .ok twoIds := by
  have hsort : sortIds [7, 9] = [7, 9] := List.mergeSort_of_pairwise (by decide)
  rw [fromIndexAndIds, if_neg (by decide), hsort]
  dsimp only
  rw [if_neg (by decide), twoIds, hsort]

/-- The first of two ids goes, and the second is found in its slot. -/
theorem twoIds_bijective : ∃ x', twoIds.remove plainHost 7 = some (x', true) ∧ x'.slotToId.Nodup ∧
    (x'.contains 7).2 = false ∧ (x'.contains 9).2 = true := by
  have hnodup : ([7, 9] : List UInt64).Nodup := by decide
  have h := Tracks.fromParts (K := zeroKernels) (S := zeroScan) (.opened twoRows_opened) twoIds_ok rfl
    (exists_names hnodup [0, 1])
  obtain ⟨-, -, -, -, -, -, -, hremove, -⟩ := ids_bijective h
  obtain ⟨x', hx'⟩ := hremove 7
  obtain ⟨-, -, hn, -, -, -, hcontains, -⟩ := ids_bijective (h.remove 7 hx')
  refine ⟨x', hx', hn, ?_, ?_⟩
  · rw [hcontains]
    rfl
  · rw [hcontains]
    rfl

end IdMapIndex

end Turbovec
