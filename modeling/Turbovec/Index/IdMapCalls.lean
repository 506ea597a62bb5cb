import Turbovec.Index.Runs
import Turbovec.Lib.SlotMap

/-!
# Calls on an id map

The calls of `IdMapIndex`. The table from ids to slots is built by the first call that needs it, and
what stood in for it is dropped then.
-/

namespace Turbovec

open Pack IoV7 Slice SlotMap

namespace IdMapIndex

/-! ## Presence -/

/-- The place a binary search ends at. -/
def bisect (sorted : List UInt64) (id : UInt64) : ℕ → ℕ → ℕ → ℕ
  | 0, base, _ => base
  | fuel + 1, base, size =>
    if size ≤ 1 then base
    else
      let half := size / 2
      let mid := base + half
      bisect sorted id fuel (if id < entry sorted mid then base else mid) (size - half)

/-- Binary search over a sorted table. -/
def tableContains (sorted : List UInt64) (id : UInt64) : Bool :=
  sorted[bisect sorted id sorted.length 0 sorted.length]? == some id

/-- Whether an add would take `id` for one already in the index. -/
def present (x : IdMapIndex) (id : UInt64) : Bool :=
  match x.idToSlot with
  | none => tableContains x.sortedIds id || decide (id ∈ x.deferredAdded)
  | some m => (m id).isSome

/-- The up-front check of a batch's ids: each absent from the index and new within the batch. -/
def checkIds (present : UInt64 → Bool) : List UInt64 → Finset UInt64 → Except AddError Unit
  | [], _ => .ok ()
  | id :: ids, seen =>
    if present id then .error (.idAlreadyPresent id)
    else if id ∈ seen then .error (.duplicateIdInBatch id)
    else checkIds present ids (insert id seen)

/-! ## Construction -/

def new (dim bitWidth : ℕ) : Except TurboQuantIndex.ConstructError IdMapIndex := do
  let inner ← TurboQuantIndex.new dim bitWidth
  return ⟨inner, [], some fun _ => none, [], ∅⟩

def newLazy (bitWidth : ℕ) : Except TurboQuantIndex.ConstructError IdMapIndex := do
  let inner ← TurboQuantIndex.newLazy bitWidth
  return ⟨inner, [], some fun _ => none, [], ∅⟩

/-- An index wrapped with an id table. -/
def fromIndexAndIds (inner : TurboQuantIndex) (slotToId : List UInt64) : Except String IdMapIndex :=
  if slotToId.length ≠ inner.nVectors then .error s!"{slotToId.length} ids for {inner.nVectors} rows"
  else
    let sorted := sortIds slotToId
    if repeats sorted then .error "duplicate ids"
    else .ok ⟨inner, slotToId, none, sorted, ∅⟩

/-! ## The id-to-slot table -/

/-- The table, built from the slots on first use. -/
def table (x : IdMapIndex) : IdTable :=
  x.idToSlot.getD (insertAll (fun _ => none) x.slotToId.zipIdx)

/-- The index after a use of the table. -/
def ids (x : IdMapIndex) : IdMapIndex :=
  match x.idToSlot with
  | some _ => x
  | none => { x with idToSlot := some x.table, sortedIds := [], deferredAdded := ∅ }

section variable (P : Platform) (T : Tables) (K : Kernels) (S : ScanKernels)

/-! ## Calls -/

def addWithIds2d (x : IdMapIndex) (vectors : List F32) (dim : ℕ) (ids : List UInt64)
    (fault : Option Fault) : IdMapIndex × Outcome AddError :=
  if dim = 0 then (x, .err .zeroDim)
  else if vectors.length % dim ≠ 0 then (x, .err (.vectorBufferNotMultipleOfDim vectors.length dim))
  else
    let n := vectors.length / dim
    if ids.length ≠ n then (x, .err (.idsCountMismatch n ids.length))
    else match checkIds x.present ids ∅ with
      | .error e => (x, .err e)
      | .ok () =>
        let baseSlot := x.inner.nVectors
        match x.inner.add2d P T K vectors dim fault with
        | (inner, .ok) =>
          ({ x with
            inner
            idToSlot := x.idToSlot.map fun m => insertAll m (ids.zipIdx baseSlot)
            deferredAdded := if x.idToSlot.isNone then x.deferredAdded ∪ ids.toFinset else x.deferredAdded
            slotToId := x.slotToId ++ ids }, .ok)
        | (inner, o) => ({ x with inner }, o)

/-- `remove`; none where the inner removal or a slot index is out of bounds. -/
def remove (x : IdMapIndex) (id : UInt64) : Option (IdMapIndex × Bool) :=
  let m := x.table
  let x := x.ids
  match m id with
  | none => some (x, false)
  | some slot => do
    let last := x.slotToId.length - 1
    let (inner, _) ← x.inner.swapRemove P slot
    let movedId ← x.slotToId[last]?
    let m := erase m id
    let (m, slotToId) := if slot ≠ last then (SlotMap.insert m movedId slot, x.slotToId.set slot movedId)
      else (m, x.slotToId)
    return ({ x with inner, idToSlot := some m, slotToId := slotToId.take last }, true)

def contains (x : IdMapIndex) (id : UInt64) : IdMapIndex × Bool := (x.ids, (x.table id).isSome)

/-- Every id of a batch is new within the batch and not taken. -/
def allAddable (taken : UInt64 → Bool) : List UInt64 → Finset UInt64 → Bool
  | [], _ => true
  | id :: ids, seen => decide (id ∉ seen) && !taken id && allAddable taken ids (insert id seen)

/-- `batch_addable`, nobody else at the index. -/
def batchAddable (x : IdMapIndex) (ids : List UInt64) : Bool :=
  if x.idToSlot.isNone then
    allAddable (fun id => tableContains x.sortedIds id || decide (id ∈ x.deferredAdded)) ids ∅
  else allAddable (fun id => (x.contains id).2) ids ∅

structure IdSearchResults where
  scores : List F32
  ids : List UInt64
  nq : ℕ
  k : ℕ
deriving DecidableEq, Repr

/-- The slots an allowlist names; none where a slot is outside the mask. -/
def maskOf (m : IdTable) : List UInt64 → List Bool → Option (Except SearchError (List Bool))
  | [], mask => some (.ok mask)
  | id :: ids, mask =>
    match m id with
    | none => some (.error (.unknownId id))
    | some slot => if slot < mask.length then maskOf m ids (mask.set slot true) else none

/-- The id of a slot the scan returned. A negative slot is out of bounds as an index. -/
def idOf (x : IdMapIndex) (slot : ℤ) : Option UInt64 := if slot < 0 then none else x.slotToId[slot.toNat]?

/-- `try_search_with_allowlist`; none where it indexes out of bounds. -/
def trySearchWithAllowlist (x : IdMapIndex) (queries : List F32) (k : ℕ)
    (allowlist : Option (List UInt64)) : IdMapIndex × Option (Except SearchError IdSearchResults) :=
  let search (x : IdMapIndex) (mask : Option (List Bool)) :=
    match x.inner.trySearchWithOptions P T S queries k mask none with
    | (inner, none) => ({ x with inner }, none)
    | (inner, some (.error e)) => ({ x with inner }, some (.error e))
    | (inner, some (.ok res)) =>
      ({ x with inner }, (res.indices.mapM x.idOf).map fun ids => .ok ⟨res.scores, ids, res.nq, res.k⟩)
  match allowlist with
  | none => search x none
  | some [] => (x, some (.error .allowlistEmpty))
  | some (id :: ids) =>
    match maskOf x.table (id :: ids) (List.replicate x.inner.nVectors false) with
    | none => (x.ids, none)
    | some (.error e) => (x.ids, some (.error e))
    | some (.ok mask) => search x.ids (some mask)

/-- The search of `try_search_with_allowlist` under a mask over the slots. -/
def searchMasked (x : IdMapIndex) (queries : List F32) (k : ℕ) (mask : Option (List Bool)) :
    IdMapIndex × Option (Except SearchError IdSearchResults) :=
  match x.inner.trySearchWithOptions P T S queries k mask none with
  | (inner, none) => ({ x with inner }, none)
  | (inner, some (.error e)) => ({ x with inner }, some (.error e))
  | (inner, some (.ok res)) =>
    ({ x with inner }, (res.indices.mapM x.idOf).map fun ids => .ok ⟨res.scores, ids, res.nq, res.k⟩)

def calibrate2d (x : IdMapIndex) (sample : List F32) (dim : ℕ) (fault : Option Fault) :
    IdMapIndex × Outcome CalibrateError :=
  let (inner, o) := x.inner.calibrate2d P T K sample dim fault
  ({ x with inner }, o)

def prepare (x : IdMapIndex) : IdMapIndex := { x.ids with inner := x.inner.prepare P T }

def sync (x : IdMapIndex) (path : String) (disk : Disk) : IdMapIndex × Bool :=
  let (inner, ok) := x.inner.sync P T path disk
  ({ x with inner }, ok)

end

/-! ## Sorted tables -/

section Sorted

variable {sorted : List UInt64}

/-- A search that starts with `id` in its window ends on it. -/
theorem bisect_spec (h : sorted.Pairwise (· ≤ ·)) {id : UInt64} {fuel base size i : ℕ} (hfuel : size ≤ fuel + 1)
    (hin : base + size ≤ sorted.length) (hlo : base ≤ i) (hhi : i < base + size)
    (hi : sorted[i]? = some id) : sorted[bisect sorted id fuel base size]? = some id := by
  induction fuel generalizing base size i with
  | zero =>
    have : i = base := by omega
    rw [bisect, ← this]
    exact hi
  | succ fuel ih =>
    rw [bisect]
    split
    · have : i = base := by omega
      rw [← this]
      exact hi
    · dsimp only
      have hmid : base + size / 2 < sorted.length := by omega
      have hilt : i < sorted.length := by omega
      rw [List.pairwise_iff_getElem] at h
      have hent : sorted[base + size / 2]? = some (entry sorted (base + size / 2)) := getElem?_eq_entry hmid
      rw [List.getElem?_eq_getElem hmid, Option.some.injEq] at hent
      rw [List.getElem?_eq_getElem hilt, Option.some.injEq] at hi
      split
      · rename_i hlt
        refine ih (by omega) (by omega) hlo ?_ (by rw [List.getElem?_eq_getElem hilt, hi])
        -- the middle entry is past `id`, so `id` lies before it
        by_contra hge
        rcases Nat.lt_or_ge (base + size / 2) i with hmi | hmi
        · have := h _ _ hmid hilt hmi
          rw [hi, hent] at this
          exact absurd hlt (UInt64.not_lt.mpr this)
        · have heq : i = base + size / 2 := by omega
          subst heq
          rw [hi] at hent
          exact absurd hlt (UInt64.not_lt.mpr (UInt64.le_of_eq hent.symm))
      · rename_i hle
        rcases Nat.lt_or_ge i (base + size / 2) with hmi | hmi
        · -- an equal entry in the middle serves as well
          have hab := h _ _ hilt hmid hmi
          rw [hi, hent] at hab
          have heq : entry sorted (base + size / 2) = id := UInt64.le_antisymm (UInt64.not_lt.mp hle) hab
          refine ih (i := base + size / 2) (by omega) (by omega) le_rfl (by omega) ?_
          rw [List.getElem?_eq_getElem hmid, hent, heq]
        · exact ih (by omega) (by omega) hmi (by omega) (by rw [List.getElem?_eq_getElem hilt, hi])

theorem tableContains_eq (h : sorted.Pairwise (· ≤ ·)) (id : UInt64) :
    tableContains sorted id = decide (id ∈ sorted) := by
  rw [tableContains, Bool.eq_iff_iff, beq_iff_eq, decide_eq_true_iff]
  constructor
  · intro hget
    exact List.mem_of_getElem? hget
  · intro hmem
    obtain ⟨i, hi⟩ := List.mem_iff_getElem?.mp hmem
    have hlt := (List.getElem?_eq_some_iff.mp hi).1
    exact bisect_spec h (by omega) (by omega) (Nat.zero_le i) (by omega) hi

theorem sortIds_sorted (ids : List UInt64) : (sortIds ids).Pairwise (· ≤ ·) := by
  have htrans : ∀ a b c : UInt64, decide (a ≤ b) = true → decide (b ≤ c) = true → decide (a ≤ c) = true := by
    intro a b c hab hbc
    rw [decide_eq_true_iff] at hab hbc ⊢
    exact UInt64.le_trans hab hbc
  have htotal : ∀ a b : UInt64, (decide (a ≤ b) || decide (b ≤ a)) = true := by
    intro a b
    rw [Bool.or_eq_true, decide_eq_true_iff, decide_eq_true_iff]
    exact UInt64.le_total a b
  have h := List.pairwise_mergeSort htrans htotal ids
  exact h.imp fun hab => of_decide_eq_true hab

theorem mem_sortIds {ids : List UInt64} {id : UInt64} : id ∈ sortIds ids ↔ id ∈ ids :=
  (List.mergeSort_perm ids _).mem_iff

/-- A sorted list with no two equal neighbours has no duplicate. -/
theorem nodup_of_repeats (h : sorted.Pairwise (· ≤ ·)) (hr : repeats sorted = false) : sorted.Nodup := by
  have hlt : sorted.Pairwise (· < ·) := by
    induction sorted with
    | nil => exact List.Pairwise.nil
    | cons a l ih =>
      cases l with
      | nil => exact List.pairwise_singleton _ _
      | cons b l =>
        rw [repeats, Bool.or_eq_false_iff, beq_eq_false_iff_ne] at hr
        have hab : a < b := UInt64.lt_of_le_of_ne (List.rel_of_pairwise_cons h List.mem_cons_self) hr.1
        have htail := ih h.of_cons hr.2
        refine List.pairwise_cons.mpr ⟨fun c hc => ?_, htail⟩
        rcases List.mem_cons.mp hc with rfl | hc
        · exact hab
        · exact UInt64.lt_trans hab (List.rel_of_pairwise_cons htail hc)
  exact hlt.imp UInt64.ne_of_lt

theorem nodup_of_sortIds {ids : List UInt64} (h : repeats (sortIds ids) = false) : ids.Nodup :=
  (List.mergeSort_perm ids _).nodup_iff.mp (nodup_of_repeats (sortIds_sorted ids) h)

end Sorted

end IdMapIndex

end Turbovec
