import Turbovec.Lib.Multimap
import Turbovec.Python.State

/-!
# The Agno store

A store of payloads under integer handles, and the indexes it keeps beside them: from a document id to its
handles, from a name to its ids, and the content hashes. Ids are derived from the content, so several handles
may share one.
-/

namespace Turbovec.Python.Agno

open Dict Multimap

/-! ## The store -/

/-- A document as the caller hands it over. -/
structure Document (V μ : Type) where
  id : Option String
  name : Option String
  content : Option String
  contentId : Option String
  metaData : Option (Dict String μ)
  usage : Option μ
  embedding : Option V

/-- What the store keeps of a document. `update_metadata` adds `filters`. -/
structure Payload (μ : Type) where
  id : String
  name : Option String
  content : String
  metaData : Dict String μ
  usage : Option μ
  contentId : Option String
  contentHash : String
  filters : Option (Dict String μ)

structure Store (V μ : Type) where
  dimensions : ℕ
  distance : String
  index : Option (Index V)
  strToU64 : Dict String (Finset ℕ)
  u64ToDoc : Dict ℕ (Payload μ)
  nextU64 : ℕ
  contentHashes : Finset String
  nameToIds : Dict String (Finset String)

/-- What the store uses of its surroundings: the digest, the length of an embedding, the normalization of a
row and the checks of the kernel. -/
structure Env (V : Type) where
  md5 : String → String
  width : V → ℕ
  l2Normalize : V → V
  kernel : Kernel V

/-- An order in which a set is iterated: each of its elements once. -/
structure IterOrder where
  list : Finset ℕ → List ℕ
  mem_list : ∀ s h, h ∈ list s ↔ h ∈ s
  nodup : ∀ s, (list s).Nodup

variable {V μ : Type}

/-- `__init__` -/
def Store.new (V μ : Type) (dimensions : ℕ) (distance : String) : Store V μ :=
  { dimensions, distance, index := none, strToU64 := ∅, u64ToDoc := ∅, nextU64 := 0, contentHashes := ∅,
    nameToIds := ∅ }

/-- `drop`. The files under `path` are not part of the store. -/
def Store.drop (s : Store V μ) : Store V μ :=
  { s with
    index := none, strToU64 := ∅, u64ToDoc := ∅, nextU64 := 0, contentHashes := ∅, nameToIds := ∅ }

/-! ## Side indexes -/

/-- `any(… for d in values())` -/
instance decidableAny {α : Type} {m : Multiset α} {p : α → Prop} [DecidablePred p] : Decidable (∃ d ∈ m, p d) :=
  Multiset.decidableExistsMultiset

/-- The loop body of `insert` that enters one payload: `if name` leaves out the empty name. -/
def Store.link (s : Store V μ) (h : ℕ) (data : Payload μ) : Store V μ :=
  { s with
    strToU64 := addTo s.strToU64 data.id h
    u64ToDoc := s.u64ToDoc.insert h data
    contentHashes := insert data.contentHash s.contentHashes
    nameToIds :=
      match data.name with
      | none => s.nameToIds
      | some name => if name = "" then s.nameToIds else addTo s.nameToIds name data.id }

/-- `_unlink_payload` -/
def Store.unlinkPayload (s : Store V μ) (h : ℕ) (data : Payload μ) : Store V μ :=
  { s with
    strToU64 := discardFrom s.strToU64 data.id h
    nameToIds :=
      match data.name with
      | none => s.nameToIds
      | some name =>
        if name = "" then s.nameToIds
        else if ∃ d ∈ values s.u64ToDoc, d.id = data.id ∧ d.name = some name then s.nameToIds
        else discardFrom s.nameToIds name data.id
    contentHashes :=
      if data.contentHash = "" then s.contentHashes
      else if ∃ d ∈ values s.u64ToDoc, d.contentHash = data.contentHash then s.contentHashes
      else s.contentHashes.erase data.contentHash }

/-- The side indexes of an overwritten payload, put back. -/
def Store.relink (s : Store V μ) (h : ℕ) (victim : Payload μ) : Store V μ :=
  { s with
    strToU64 := addTo s.strToU64 victim.id h
    nameToIds :=
      match victim.name with
      | none => s.nameToIds
      | some name => if name = "" then s.nameToIds else addTo s.nameToIds name victim.id
    contentHashes :=
      if victim.contentHash = "" then s.contentHashes else insert victim.contentHash s.contentHashes }

/-- `_remove_handle` -/
def Store.removeHandle (s : Store V μ) (h : ℕ) : Store V μ :=
  match s.index with
  | none => s
  | some ix =>
    match s.u64ToDoc.lookup h with
    | none => s
    | some data =>
      { s with index := some (ix.remove h), u64ToDoc := s.u64ToDoc.erase h }.unlinkPayload h data

/-! ## Insertion -/

/-- Why an `insert` raises. -/
inductive InsertError where
  | notInitialized
  /-- the embedder itself raises -/
  | embedder
  /-- "failed to embed … document(s)" -/
  | missing (count : ℕ)
  /-- the embeddings are no batch of the width of the index -/
  | shape
  /-- a handle that is no `uint64` -/
  | overflow
  /-- the `add_with_ids` of the index -/
  | add
  deriving DecidableEq

/-- `doc.meta_data` with the `filters` merged in, when there are any. -/
def mergeFilters (filters : Dict String μ) (doc : Document V μ) : Document V μ :=
  if filters.keys = ∅ then doc else { doc with metaData := some (filters ∪ doc.metaData.getD ∅) }

/-- `_derive_doc_id` -/
def deriveDocId (env : Env V) (doc : Document V μ) (contentHash cleaned : String) : String :=
  let baseId :=
    match doc.id with
    | none => env.md5 cleaned
    | some id => if id = "" then env.md5 cleaned else id
  env.md5 (baseId ++ "_" ++ contentHash)

/-- The side-car payload of a document. -/
def preparePayload (env : Env V) (contentHash : String) (doc : Document V μ) : Payload μ :=
  let cleaned := (doc.content.getD "").map fun c => if c = Char.ofNat 0 then Char.ofNat 0xFFFD else c
  { id := deriveDocId env doc contentHash cleaned
    name := doc.name
    content := cleaned
    metaData := doc.metaData.getD ∅
    usage := doc.usage
    contentId := doc.contentId
    contentHash
    filters := none }

/-- `_u64_to_doc.pop(handle, None)` for every handle, with what each call returned. -/
def popEach (m : Dict ℕ (Payload μ)) : List ℕ → Dict ℕ (Payload μ) × List (ℕ × Option (Payload μ))
  | [] => (m, [])
  | h :: hs =>
    let rest := popEach (m.erase h) hs
    (rest.1, (h, m.lookup h) :: rest.2)

/-- The `except` block of `insert`. -/
def Store.unwind (s : Store V μ) (handles : List ℕ) (old : List (ℕ × Payload μ)) : Store V μ :=
  let popped := popEach s.u64ToDoc handles
  -- the victims are back before `_unlink_payload` scans the surviving payloads
  let restored := { s with u64ToDoc := setAll popped.1 old }
  let unlinked := popped.2.foldl
    (fun t p => match p.2 with | none => t | some data => t.unlinkPayload p.1 data) restored
  old.foldl (fun t p => t.relink p.1 p.2) unlinked

/-- The locked body of `insert`. `refuse` tells that the add raises for a reason outside the batch. -/
def Store.insertLocked (env : Env V) (s : Store V μ) (payloads : List (Payload μ)) (vectors : List V)
    (refuse : Bool) : Store V μ × Option InsertError :=
  match s.index with
  | none => (s, some .notInitialized)
  | some ix =>
    -- `_issue_handle`, once for each document
    let handles := List.range' (s.nextU64 + 1) payloads.length
    let issued := { s with nextU64 := s.nextU64 + payloads.length }
    if handles.any fun h => decide (2 ^ 64 ≤ h) then (issued, some .overflow)
    else
      let old := handles.filterMap fun h => (issued.u64ToDoc.lookup h).map fun data => (h, data)
      let linked := (handles.zip payloads).foldl (fun t p => t.link p.1 p.2) issued
      match if refuse then none else rawAddWithIds env.kernel ix s.dimensions (handles.zip vectors) with
      | some ix' => ({ linked with index := some ix' }, none)
      | none => (linked.unwind handles old, some .add)

/-- `insert`. What `_embed_missing` leaves of the documents is up to the embedder, which may raise. -/
def Store.insert (env : Env V) (s : Store V μ) (contentHash : String) (documents : List (Document V μ))
    (filters : Dict String μ) (embedMissing : List (Document V μ) → Option (List (Document V μ)))
    (refuse : Bool) : Store V μ × Option InsertError :=
  if documents = [] then (s, none)
  else if s.index.isNone then (s, some .notInitialized)
  else
    match embedMissing (documents.map (mergeFilters filters)) with
    | none => (s, some .embedder)
    | some docs =>
      let missing := docs.filter fun doc => doc.embedding.all fun e => env.width e = 0
      if missing ≠ [] then (s, some (.missing missing.length))
      else
        let vectors := docs.filterMap Document.embedding
        if vectors.any fun e => env.width e ≠ s.dimensions then (s, some .shape)
        else
          let rows := if s.distance = "cosine" then vectors.map env.l2Normalize else vectors
          s.insertLocked env (docs.map (preparePayload env contentHash)) rows refuse

/-- `_handles_for_content_hash` and the scans of the deletions: the handles whose payload passes, in the order
of the iteration. -/
def Store.handlesWhere (s : Store V μ) (order : IterOrder) (p : Payload μ → Bool) : List ℕ :=
  (order.list s.u64ToDoc.keys).filter fun h => (s.u64ToDoc.lookup h).any p

/-- `upsert`: the previous generation goes after the insertion. The documents are embedded up front, and once
more by `insert` where one is still missing. -/
def Store.upsert (env : Env V) (s : Store V μ) (contentHash : String) (documents : List (Document V μ))
    (filters : Dict String μ) (embedUpFront embedMissing : List (Document V μ) → Option (List (Document V μ)))
    (refuse : Bool) (order : IterOrder) : Store V μ × Option InsertError :=
  let body (docs : List (Document V μ)) :=
    let oldHandles := s.handlesWhere order fun data => data.contentHash = contentHash
    let inserted := s.insert env contentHash docs filters embedMissing refuse
    match inserted.2 with
    | some e => (inserted.1, some e)
    | none => (oldHandles.foldl Store.removeHandle inserted.1, none)
  if documents = [] then body []
  else if s.index.isNone then (s, some .notInitialized)
  else
    match embedUpFront documents with
    | none => (s, some .embedder)
    | some docs => body docs

/-! ## Deletion -/

/-- `delete_by_id` -/
def Store.deleteById (s : Store V μ) (id : String) (order : IterOrder) : Store V μ × Bool :=
  if s.index.isNone then (s, false)
  else
    match s.strToU64.lookup id with
    | none => (s, false)
    | some handles =>
      if handles = ∅ then (s, false) else ((order.list handles).foldl Store.removeHandle s, true)

/-- The deletions that scan the payloads. -/
def Store.deleteWhere (s : Store V μ) (order : IterOrder) (p : Payload μ → Bool) : Store V μ × Bool :=
  if s.index.isNone then (s, false)
  else
    let handles := s.handlesWhere order p
    (handles.foldl Store.removeHandle s, !handles.isEmpty)

/-- `delete_by_name`, which does nothing for `None`. -/
def Store.deleteByName (s : Store V μ) (name : Option String) (order : IterOrder) : Store V μ × Bool :=
  match name with
  | none => (s, false)
  | some name => s.deleteWhere order fun data => data.name = some name

/-- `_meta_matches`: every key of the filter is there, with the value of the filter. -/
def metaMatches [DecidableEq μ] (data : Payload μ) (items : Dict String μ) : Bool :=
  decide (∀ k ∈ items.keys, data.metaData.lookup k = items.lookup k)

/-- `delete_by_content_id`, which does nothing for `None`. -/
def Store.deleteByContentId (s : Store V μ) (contentId : Option String) (order : IterOrder) :
    Store V μ × Bool :=
  match contentId with
  | none => (s, false)
  | some contentId => s.deleteWhere order fun data => data.contentId = some contentId

/-- `delete_by_metadata`, which does nothing for `None`. -/
def Store.deleteByMetadata [DecidableEq μ] (s : Store V μ) (metadata : Option (Dict String μ))
    (order : IterOrder) : Store V μ × Bool :=
  match metadata with
  | none => (s, false)
  | some items => s.deleteWhere order fun data => metaMatches data items

/-- The payload `update_metadata` leaves: the metadata merged into `meta_data` and into `filters`. -/
def Payload.merge (data : Payload μ) (metadata : Dict String μ) : Payload μ :=
  { data with
    metaData := metadata ∪ data.metaData
    filters := some (metadata ∪ data.filters.getD ∅) }

/-- `update_metadata`, which does nothing for `None`. -/
def Store.updateMetadata (s : Store V μ) (contentId : Option String) (metadata : Dict String μ)
    (order : IterOrder) : Store V μ :=
  match s.index, contentId with
  | some _, some contentId =>
    let handles := s.handlesWhere order fun data => data.contentId = some contentId
    { s with
      u64ToDoc := setAll s.u64ToDoc
        (handles.filterMap fun h => (s.u64ToDoc.lookup h).map fun data => (h, data.merge metadata)) }
  | _, _ => s

/-! ## Persistence -/

/-- `docstore.json` -/
structure Sidecar (μ : Type) where
  schemaVersion : ℕ
  u64ToDoc : List (ℕ × Payload μ)
  nextU64 : ℕ
  dimensions : ℕ
  distance : Option String

/-- The folder under `path`: the side-car, and the index file with what `IdMapIndex.load` makes of it. -/
structure Folder (V μ : Type) where
  indexFile : Option (Option (Index V))
  storeFile : Option (Sidecar μ)

/-- Why `create` raises. -/
inductive LoadError where
  /-- "missing one of …" -/
  | partialSave
  /-- `check_schema_version` -/
  | version (found : ℕ)
  | dimensions (persisted own : ℕ)
  | distance (persisted own : String)
  /-- `IdMapIndex.load` raises -/
  | index
  | handles (e : HandlesError)
  deriving DecidableEq

/-- `_DOCSTORE_SCHEMA_VERSION` -/
def docstoreSchemaVersion : ℕ := 2

/-- `_DOCSTORE_SCHEMA_COMPAT` -/
def docstoreSchemaCompat : List ℕ := [1, 2]

/-- The store with the reverse indexes `_load_from` rebuilds from its payloads. -/
def Store.rebuild (s : Store V μ) (order : IterOrder) : Store V μ :=
  let items := (order.list s.u64ToDoc.keys).filterMap fun h => (s.u64ToDoc.lookup h).map fun data => (h, data)
  { s with
    strToU64 := items.foldl (fun m p => addTo m p.2.id p.1) ∅
    contentHashes :=
      items.foldl (fun c p => if p.2.contentHash = "" then c else Insert.insert p.2.contentHash c) ∅
    nameToIds := items.foldl (fun m p =>
      match p.2.name with
      | none => m
      | some name => if name = "" then m else addTo m name p.2.id) ∅ }

/-- `_load_from` -/
def Store.loadFrom (s : Store V μ) (folder : Folder V μ) (order : IterOrder) : Except LoadError (Store V μ) :=
  match folder.indexFile, folder.storeFile with
  | some indexFile, some state =>
    if state.schemaVersion ∉ docstoreSchemaCompat then .error (.version state.schemaVersion)
    else if state.dimensions ≠ s.dimensions then .error (.dimensions state.dimensions s.dimensions)
    else if state.distance.any fun recorded => recorded ≠ s.distance then
      .error (.distance (state.distance.getD "") s.distance)
    else
      match indexFile with
      | none => .error .index
      | some index =>
        let u64ToDoc := setAll ∅ state.u64ToDoc
        match checkPersistedHandles index u64ToDoc.keys.val (some state.nextU64) with
        | .error e => .error (.handles e)
        | .ok () =>
          -- a side-car without a mode is older than the mode
          let distance := if state.distance.isSome then s.distance else "max_inner_product"
          .ok ({ s with
            distance, index := some index, u64ToDoc, nextU64 := state.nextU64 }.rebuild order)
  | _, _ => .error .partialSave

/-- `create`, with the folder under `path`, if there is one. -/
def Store.create (s : Store V μ) (folder : Option (Folder V μ)) (order : IterOrder) :
    Store V μ × Option LoadError :=
  if s.index.isSome then (s, none)
  else
    let fresh := { s with index := some { dim := some s.dimensions, rows := ∅ } }
    match folder with
    | none => (fresh, none)
    | some folder =>
      if folder.indexFile.isSome ∨ folder.storeFile.isSome then
        match s.loadFrom folder order with
        | .ok loaded => (loaded, none)
        | .error e => (s, some e)
      else (fresh, none)

/-- `save`: the index and the side-car it hands to `atomic_save`, the items in the order of the iteration. -/
def Store.save (s : Store V μ) (order : IterOrder) : Option (Folder V μ) :=
  s.index.map fun index =>
    { indexFile := some (some index)
      storeFile := some
        { schemaVersion := docstoreSchemaVersion
          u64ToDoc := (order.list s.u64ToDoc.keys).filterMap fun h =>
            (s.u64ToDoc.lookup h).map fun data => (h, data)
          nextU64 := s.nextU64
          dimensions := s.dimensions
          distance := some s.distance } }

/-! ## Runs -/

/-- A call, with what comes from outside: what the embedder answers, whether the add of the index raises
although the batch is good, the folder, and the orders of iteration. -/
inductive Op (V μ : Type) where
  | create (folder : Option (Folder V μ)) (order : IterOrder)
  | drop
  | insert (contentHash : String) (documents : List (Document V μ)) (filters : Dict String μ)
    (embedMissing : List (Document V μ) → Option (List (Document V μ))) (refuse : Bool)
  | upsert (contentHash : String) (documents : List (Document V μ)) (filters : Dict String μ)
    (embedUpFront embedMissing : List (Document V μ) → Option (List (Document V μ))) (refuse : Bool)
    (order : IterOrder)
  | deleteById (id : String) (order : IterOrder)
  | deleteByName (name : Option String) (order : IterOrder)
  | deleteByMetadata (metadata : Option (Dict String μ)) (order : IterOrder)
  | deleteByContentId (contentId : Option String) (order : IterOrder)
  | updateMetadata (contentId : Option String) (metadata : Dict String μ) (order : IterOrder)

/-- A call's effect, and whether an insertion raised. -/
def Store.step [DecidableEq μ] (env : Env V) (s : Store V μ) : Op V μ → Store V μ × Option InsertError
  | .create folder order => ((s.create folder order).1, none)
  | .drop => (s.drop, none)
  | .insert contentHash documents filters embedMissing refuse =>
    s.insert env contentHash documents filters embedMissing refuse
  | .upsert contentHash documents filters embedUpFront embedMissing refuse order =>
    s.upsert env contentHash documents filters embedUpFront embedMissing refuse order
  | .deleteById id order => ((s.deleteById id order).1, none)
  | .deleteByName name order => ((s.deleteByName name order).1, none)
  | .deleteByMetadata metadata order => ((s.deleteByMetadata metadata order).1, none)
  | .deleteByContentId contentId order => ((s.deleteByContentId contentId order).1, none)
  | .updateMetadata contentId metadata order => (s.updateMetadata contentId metadata order, none)

def Store.run [DecidableEq μ] (env : Env V) (s : Store V μ) (ops : List (Op V μ)) : Store V μ :=
  ops.foldl (fun s op => (s.step env op).1) s

/-- The call brings no empty content hash: `insert` enters it in the set, and nothing else knows it there. -/
def Op.Hashed : Op V μ → Prop
  | .create folder _ => ∀ f, folder = some f → ∀ sc, f.storeFile = some sc → ∀ p ∈ sc.u64ToDoc, p.2.contentHash ≠ ""
  | .insert contentHash documents _ _ _ => documents = [] ∨ contentHash ≠ ""
  | .upsert contentHash documents _ _ _ _ _ => documents = [] ∨ contentHash ≠ ""
  | _ => True

end Turbovec.Python.Agno
