import Mathlib.Order.Lattice.Nat
import Turbovec.Lib.Dict

/-!
# The vector stores: an index and its side-car maps

The LangChain and LlamaIndex stores keep an id-mapped index beside three dictionaries: from a document id to
its handle in the index, from the handle back, and from the id to its payload. The native index is used
through the wrapper that hands it a large batch slice by slice.
-/

namespace Turbovec.Python

open Dict

/-! ## The index -/

/-- What the kernel checks of a batch: its dimension and each of its rows. -/
structure Kernel (V : Type) where
  dimOk : ℕ → Bool
  finite : V → Bool

/-- The index as the stores see it: its dimension, once known, and the row of each handle. -/
structure Index (V : Type) where
  dim : Option ℕ
  rows : Dict ℕ V

section Index

variable {V : Type}

/-- `len(index)` -/
def Index.len (ix : Index V) : ℕ := ix.rows.keys.card

/-- `index.contains` -/
def Index.contains (ix : Index V) (h : ℕ) : Bool := decide (h ∈ ix.rows)

/-- `index.remove` -/
def Index.remove (ix : Index V) (h : ℕ) : Index V := { ix with rows := ix.rows.erase h }

/-- `_batch_addable`: distinct ids, none of them in the index. -/
def Index.batchAddable (ix : Index V) (ids : List ℕ) : Bool :=
  decide ids.Nodup && ids.all fun h => !ix.contains h

/-- The native `add_with_ids`: all of the batch or none of it. -/
def rawAddWithIds (K : Kernel V) (ix : Index V) (d : ℕ) (batch : List (ℕ × V)) : Option (Index V) :=
  if ix.batchAddable (batch.map Prod.fst) && (K.dimOk d && (ix.dim.isNone || ix.dim == some d)) &&
      batch.all fun p => K.finite p.2 then
    some { dim := some d, rows := setAll ix.rows batch }
  else
    none

/-- The loop over `range(0, n, cs)`: the slices are committed one after the other, and the exception that
comes before slice `stop` ends it. The flag tells whether one was raised. -/
def addSlices (K : Kernel V) (cs d : ℕ) : ℕ → Index V → List (ℕ × V) → Option ℕ → Index V × Bool
  | 0, ix, _, _ => (ix, false)
  | fuel + 1, ix, batch, stop =>
    if batch.isEmpty then (ix, false)
    else if stop = some 0 then (ix, true)
    else
      match rawAddWithIds K ix d (batch.take cs) with
      | none => (ix, true)
      | some ix' => addSlices K cs d fuel ix' (batch.drop cs) (stop.map Nat.pred)

/-- Is the batch cut into slices of `cs` rows? -/
def chunked (K : Kernel V) (cs : ℕ) (ix : Index V) (batch : List (ℕ × V)) : Bool :=
  decide (0 < cs ∧ cs < batch.length) && batch.all (fun p => K.finite p.2) &&
    ix.batchAddable (batch.map Prod.fst)

/-- `_make_add_with_ids`, with the exception that comes before slice `stop`, if any. -/
def addWithIds (K : Kernel V) (cs : ℕ) (ix : Index V) (d : ℕ) (batch : List (ℕ × V))
    (stop : Option ℕ) : Index V × Bool :=
  if chunked K cs ix batch then
    addSlices K cs d batch.length ix batch stop
  else if stop = some 0 then (ix, true)
  else
    match rawAddWithIds K ix d batch with
    | none => (ix, true)
    | some ix' => (ix', false)

end Index

/-! ## The stores -/

/-- A LangChain or LlamaIndex store. -/
structure Store (ι V D : Type) where
  index : Index V
  strToU64 : Dict ι ℕ
  u64ToStr : Dict ℕ ι
  docs : Dict ι D
  nextU64 : ℕ

/-- A new store on an empty index. -/
def Store.new (ι V D : Type) (dim : Option ℕ) : Store ι V D :=
  { index := { dim, rows := ∅ }, strToU64 := ∅, u64ToStr := ∅, docs := ∅, nextU64 := 0 }

/-- How a call ends. -/
inductive Outcome where
  | returned
  /-- An exception before the index add. -/
  | refused
  /-- An exception out of the index add. -/
  | raised
  deriving DecidableEq

section variable {ι V D : Type} [DecidableEq ι]

/-- One row of the loop that fills the maps before the index add. -/
def Store.mapRow (s : Store ι V D) (r : ι × D) (h : ℕ) : Store ι V D :=
  { s with strToU64 := s.strToU64.insert r.1 h, u64ToStr := s.u64ToStr.insert h r.1,
           docs := s.docs.insert r.1 r.2 }

/-- One row of the unwinding loop. -/
def Store.unmapRow (s : Store ι V D) (i : ι) (h : ℕ) : Store ι V D :=
  let s := { s with u64ToStr := s.u64ToStr.erase h }
  if s.strToU64.lookup i = some h then
    { s with strToU64 := s.strToU64.erase i, docs := s.docs.erase i }
  else
    s

/-- One old entry put back. -/
def Store.restoreRow (s : Store ι V D) (o : ι × ℕ × D) : Store ι V D :=
  { s with strToU64 := s.strToU64.insert o.1 o.2.1, u64ToStr := s.u64ToStr.insert o.2.1 o.1,
           docs := s.docs.insert o.1 o.2.2 }

/-- One replaced vector dropped, the index first. -/
def Store.dropRow (s : Store ι V D) (o : ι × ℕ × D) : Store ι V D :=
  { s with index := s.index.remove o.2.1, u64ToStr := s.u64ToStr.erase o.2.1 }

/-- The handles `_issue_handle` gives to `n` rows. -/
def Store.handles (s : Store ι V D) (n : ℕ) : List ℕ := List.range' (s.nextU64 + 1) n

/-- `[(i, self._str_to_u64[i], self._docs[i]) for i in ids if i in self._str_to_u64]`; `none` where a
payload is missing. -/
def Store.old (s : Store ι V D) : List ι → Option (List (ι × ℕ × D))
  | [] => some []
  | i :: is =>
    match s.strToU64.lookup i with
    | none => s.old is
    | some h =>
      match s.docs.lookup i with
      | none => none
      | some doc => (s.old is).map ((i, h, doc) :: ·)

/-- The locked body of `_store_texts_and_vectors` and of `add`: rows with distinct ids, each with its
payload and its vector. -/
def Store.storeRows (K : Kernel V) (cs : ℕ) (s : Store ι V D) (d : ℕ) (rows : List (ι × D × V))
    (stop : Option ℕ) : Store ι V D × Outcome :=
  if s.index.dim.any (· != d) then (s, .refused)
  else
    let handles := s.handles rows.length
    let s := { s with nextU64 := s.nextU64 + rows.length }
    -- `np.array(…, dtype=np.uint64)` refuses a handle of more than 64 bits.
    if handles.any (2 ^ 64 ≤ ·) then (s, .refused)
    else
      let ids := rows.map fun r => r.1
      match s.old ids with
      | none => (s, .refused)
      | some old =>
        let m := (rows.zip handles).foldl (fun m p => m.mapRow (p.1.1, p.1.2.1) p.2) s
        match addWithIds K cs m.index d (handles.zip (rows.map fun r => r.2.2)) stop with
        | (ix, true) =>
          let u := (ids.zip handles).foldl (fun m p => m.unmapRow p.1 p.2) { m with index := ix }
          (old.foldl Store.restoreRow u, .raised)
        | (ix, false) => (old.foldl Store.dropRow { m with index := ix }, .returned)

/-- `resolve_duplicates` under `KEEP_LAST`, on the rows it selects. -/
def keepLast {β : Type} : List (ι × β) → List (ι × β)
  | [] => []
  | r :: rs => if r.1 ∈ rs.map Prod.fst then keepLast rs else r :: keepLast rs

/-- The framework whose duplicate policy the store follows. -/
inductive Framework where
  | langchain
  | llamaIndex
  deriving DecidableEq

/-- `add_texts` and `add`: an empty batch is nothing to do, and repeated ids keep their last row or are
refused. -/
def Store.add (K : Kernel V) (fw : Framework) (cs : ℕ) (s : Store ι V D) (d : ℕ)
    (rows : List (ι × D × V)) (stop : Option ℕ) : Store ι V D × Outcome :=
  if rows.isEmpty then (s, .returned)
  else
    match fw with
    | .langchain => s.storeRows K cs d (keepLast rows) stop
    | .llamaIndex =>
      if (rows.map Prod.fst).Nodup then s.storeRows K cs d rows stop else (s, .refused)

/-- One id of `delete`, and `_remove_node_by_id`. -/
def Store.removeId (s : Store ι V D) (i : ι) : Store ι V D :=
  match s.strToU64.lookup i with
  | none => s
  | some h =>
    { s with index := s.index.remove h, strToU64 := s.strToU64.erase i,
             u64ToStr := s.u64ToStr.erase h, docs := s.docs.erase i }

/-- `delete` -/
def Store.delete (s : Store ι V D) (ids : List ι) : Store ι V D := ids.foldl Store.removeId s

/-- `clear`: a fresh lazy index, and handles from zero again. -/
def Store.clear (_ : Store ι V D) : Store ι V D := Store.new ι V D none

end

/-! ## Persistence -/

/-- Why `check_persisted_handles` refuses a pair. -/
inductive HandlesError where
  | duplicate
  | count (sidecar index : ℕ)
  | missing
  | watermark (nextU64 largest : ℕ)
  deriving DecidableEq

/-- `check_persisted_handles` -/
def checkPersistedHandles {V : Type} (ix : Index V) (handles : Multiset ℕ) (nextU64 : Option ℕ) :
    Except HandlesError Unit :=
  if handles.toFinset.card ≠ handles.card then .error .duplicate
  else if handles.card ≠ ix.len then .error (.count handles.card ix.len)
  else if ¬ ∀ h ∈ handles, ix.contains h = true then .error .missing
  else if nextU64.any fun n => decide (handles ≠ 0 ∧ n < handles.sup) then
    .error (.watermark (nextU64.getD 0) handles.sup)
  else .ok ()

/-- The JSON side-car of a LangChain or LlamaIndex store. -/
structure Sidecar (ι D : Type) where
  docs : Dict ι D
  strToU64 : Dict ι ℕ
  nextU64 : ℕ

section variable {ι V D : Type} [DecidableEq ι]

/-- What `dump` and `persist` hand to `atomic_save`. -/
def Store.sidecar (s : Store ι V D) : Sidecar ι D :=
  { docs := s.docs, strToU64 := s.strToU64, nextU64 := s.nextU64 }

/-- Why a persisted pair is refused. -/
inductive LoadError where
  | handles (e : HandlesError)
  /-- `check_sidecar_keysets` -/
  | keysets
  deriving DecidableEq

/-- `check_sidecar_keysets` -/
def checkSidecarKeysets (sc : Sidecar ι D) : Except LoadError Unit :=
  if sc.strToU64.keys = sc.docs.keys then .ok () else .error .keysets

/-- The checks of `load` and of `from_persist_path` on the two files they read. -/
def checkLoaded (fw : Framework) (ix : Index V) (sc : Sidecar ι D) : Except LoadError Unit :=
  match fw with
  | .langchain => do
    (checkPersistedHandles ix (values sc.strToU64) (some sc.nextU64)).mapError .handles
    checkSidecarKeysets sc
  | .llamaIndex => do
    if (values sc.strToU64).toFinset.card ≠ (values sc.strToU64).card then
      throw (.handles .duplicate)
    checkSidecarKeysets sc
    (checkPersistedHandles ix (values sc.strToU64) (some sc.nextU64)).mapError .handles

/-- The store `load` returns on a pair that passed: the reverse map is the inverted id map. -/
def Store.LoadedFrom (fw : Framework) (ix : Index V) (sc : Sidecar ι D) (s : Store ι V D) : Prop :=
  checkLoaded fw ix sc = .ok () ∧ s.index = ix ∧ s.sidecar = sc ∧ Inverse s.strToU64 s.u64ToStr

end

end Turbovec.Python
