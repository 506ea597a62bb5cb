import Turbovec.Scan.Exact
import Turbovec.Scan.Windows

/-!
# Streaming search

A streaming search over a classic cache in memory scans chunk after chunk, asks for every row of a chunk at or above the
least floor of the queries, and hands the caller a batch of each query: its rows at or above its own floor. The caller's
verdicts raise the floors or stop the search. A search that completes has sent, of every chunk, each allowed row at or
above the floor. The chunks of planes and of a mapped index are read otherwise, and are not here.
-/

namespace Turbovec.Scan

open TopK Slice

/-! ## The search -/

structure StreamBatch where
  queryIndex : ℕ
  blockBase : ℕ
  scores : List Score
  slots : List ℤ
deriving DecidableEq

inductive StreamControl
  | continue
  | raiseFloor (floor : F32)
  | stop

structure StreamSummary where
  nq : ℕ
  emitted : ℕ
  blocksScanned : ℕ
  completed : Bool
deriving DecidableEq

/-- The callbacks of a streaming search, over what the caller keeps. -/
structure Caller (σ : Type) where
  sink : σ → StreamBatch → StreamControl × σ
  control : σ → StreamControl × σ

/-- A streaming search between two verdicts. -/
structure Stream (σ : Type) where
  floors : List Score
  emitted : ℕ
  chunksScanned : ℕ
  caller : σ
  /-- what the sink was handed -/
  sent : List StreamBatch
deriving DecidableEq

variable {σ ι S : Type}

/-- A floor only rises. -/
def raise (f floor : Score) : Score := if floor.lt f then f else floor

/-- What a verdict does to the floors, and whether it stops the search; none where a raised floor is no number. -/
def Stream.obey (raiseBy : Score → List Score → List Score) (st : Stream σ) :
    StreamControl × σ → Option (Stream σ × Bool)
  | (.continue, s) => some ({ st with caller := s }, false)
  | (.raiseFloor f, s) =>
    if h : f.isNaN = false then some ({ st with floors := raiseBy ⟨f, h⟩ st.floors, caller := s }, false) else none
  | (.stop, s) => some ({ st with caller := s }, true)

/-- Steps one after another, up to one that stops. -/
def runUntilStop (step : ι → S → Option (S × Bool)) : List ι → S → Option (S × Bool)
  | [], s => some (s, false)
  | i :: is, s =>
    match step i s with
    | some (s, false) => runUntilStop step is s
    | r => r

/-- The least floor of the queries. -/
def kernelFloor (floors : List Score) : Score :=
  floors.foldl (fun least floor => if floor.lt least then floor else least) ⟨⟨0x7F800000⟩, by decide⟩

def floorOf (floors : List Score) (qi : ℕ) : Score := floors.getD qi Score.negInf

/-- The entries of a query's row that reach its floor. -/
def batchOf (base qi : ℕ) (floor : Score) (row : List (Score × ℤ)) : StreamBatch :=
  let kept := row.filter fun e => decide (0 ≤ e.2) && !e.1.lt floor
  ⟨qi, base, kept.map Prod.fst, kept.map fun e => e.2 + base⟩

section variable (C : Caller σ)

def sendQuery (base : ℕ) (row : ℕ → List (Score × ℤ)) (qi : ℕ) (st : Stream σ) : Option (Stream σ × Bool) :=
  let batch := batchOf base qi (floorOf st.floors qi) (row qi)
  if batch.scores.isEmpty then some (st, false)
  else Stream.obey (fun f floors => floors.modify qi (raise f))
    { st with emitted := st.emitted + batch.scores.length, sent := st.sent ++ [batch] } (C.sink st.caller batch)

section variable (H : Host) (bits n : ℕ) (score : ℕ → ℕ → Score) (nq : ℕ) (mask : Option (List Bool)) (chunkRows : ℕ)

/-- What the kernels return for the chunk at `base` of a classic owned cache. -/
def chunkSearch (base : ℕ) (floors : List Score) : List Score × List ℤ :=
  let live := min chunkRows (n - base)
  let maskSlice := (packed mask).map fun m => (m.drop (base / 64)).take (divCeil live 64)
  searchClassic H bits live (fun q v => score q (base + v)) nq live maskSlice (kernelFloor floors)

/-- A query's row of the results. -/
def rowOf (out : List Score × List ℤ) (qi : ℕ) : List (Score × ℤ) :=
  let kb := out.1.length / nq
  ((out.1.zip out.2).drop (qi * kb)).take kb

def streamChunk (base : ℕ) (st : Stream σ) : Option (Stream σ × Bool) :=
  match st.obey (fun f floors => floors.map (raise f)) (C.control st.caller) with
  | some (st, false) =>
    runUntilStop (sendQuery C base (rowOf nq (chunkSearch H bits n score nq mask chunkRows base st.floors)))
      (List.range nq) { st with chunksScanned := st.chunksScanned + 1 }
  | r => r

/-- `try_search_streaming_chunked_controlled` over the rows of an index with a classic owned cache, with queries that
are in order -/
def searchStreaming (start : Score) (s : σ) : Option (Stream σ × StreamSummary) :=
  let st : Stream σ := ⟨List.replicate nq start, 0, 0, s, []⟩
  if n = 0 then some (st, ⟨nq, 0, 0, true⟩)
  else if nq = 0 then some (st, ⟨0, 0, 0, true⟩)
  else (runUntilStop (streamChunk C H bits n score nq mask chunkRows) (stepBy n chunkRows) st).map fun (st, stopped) =>
    (st, ⟨nq, st.emitted, st.chunksScanned, !stopped⟩)

end

end

/-- What a query is to be sent of the chunk at `base`: the allowed rows at or above the floor, best first. -/
def wantedBatch (mask : Option (List Bool)) (score : ℕ → Score) (n chunkRows base qi : ℕ) (floor : Score) :
    Option StreamBatch :=
  let rows := sorted rank ((slots (allowedBy mask) score base (base + min chunkRows (n - base))).filter fun e =>
    Score.negInf.lt e.1 && !e.1.lt floor)
  if rows.isEmpty then none else some ⟨qi, base, rows.map Prod.fst, rows.map fun e => (e.2 : ℤ)⟩

/-- The batch a query is handed, if any. -/
def handed (base qi : ℕ) (floor : Score) (row : List (Score × ℤ)) : Option StreamBatch :=
  let batch := batchOf base qi floor row
  if batch.scores.isEmpty then none else some batch

/-- The rows a query was handed, batch after batch. -/
def Stream.rowsOf (st : Stream σ) (qi : ℕ) : List (Score × ℤ) :=
  (st.sent.filter fun batch => batch.queryIndex = qi).flatMap fun batch => batch.scores.zip batch.slots

/-- A floor the caller may ask for. -/
def Caller.Asks (C : Caller σ) (f : F32) : Prop :=
  (∃ s batch, (C.sink s batch).1 = .raiseFloor f) ∨ ∃ s, (C.control s).1 = .raiseFloor f

/-- No floor falls. -/
def Rises (floors floors' : List Score) : Prop := ∀ qi, (floorOf floors qi).key ≤ (floorOf floors' qi).key

/-! ## Floors -/

theorem Rises.refl (floors : List Score) : Rises floors floors := fun _ => le_refl _

theorem Rises.trans {a b c : List Score} (h : Rises a b) (h' : Rises b c) : Rises a c :=
  fun qi => (h qi).trans (h' qi)

theorem key_raise (f floor : Score) : floor.key ≤ (raise f floor).key := by
  unfold raise
  split
  · rename_i h
    exact le_of_lt (Score.lt_iff.mp h)
  · exact le_refl _

theorem rises_map (f : Score) (floors : List Score) : Rises floors (floors.map (raise f)) := by
  intro qi
  rw [floorOf, floorOf, List.getD_eq_getElem?_getD, List.getD_eq_getElem?_getD, List.getElem?_map]
  cases floors[qi]? with
  | none => exact le_refl _
  | some floor => exact key_raise f floor

theorem rises_modify (f : Score) (floors : List Score) (qi : ℕ) : Rises floors (floors.modify qi (raise f)) := by
  intro qi'
  rw [floorOf, floorOf, List.getD_eq_getElem?_getD, List.getD_eq_getElem?_getD, List.getElem?_modify]
  cases floors[qi']? with
  | none => exact le_refl _
  | some floor =>
    show floor.key ≤ (if qi = qi' then raise f floor else floor).key
    split
    · exact key_raise f floor
    · exact le_refl _

/-- A query's verdict leaves the floors of the others. -/
theorem floorOf_modify_ne {f : Score} {floors : List Score} {qi qi' : ℕ} (h : qi ≠ qi') :
    floorOf (floors.modify qi (raise f)) qi' = floorOf floors qi' := by
  rw [floorOf, floorOf, List.getD_eq_getElem?_getD, List.getD_eq_getElem?_getD, List.getElem?_modify]
  cases floors[qi']? with
  | none => rfl
  | some floor =>
    show (if qi = qi' then raise f floor else floor) = floor
    rw [if_neg h]

/-- The kernel's floor is at or below each query's. -/
theorem kernelFloor_le {floors : List Score} {qi : ℕ} (h : qi < floors.length) :
    (kernelFloor floors).key ≤ (floorOf floors qi).key := by
  have hfold : ∀ (l : List Score) (least : Score),
      (l.foldl (fun least floor => if floor.lt least then floor else least) least).key ≤ least.key ∧
        ∀ floor ∈ l, (l.foldl (fun least floor => if floor.lt least then floor else least) least).key ≤ floor.key := by
    intro l
    induction l with
    | nil => exact fun least => ⟨le_refl _, fun floor hf => by cases hf⟩
    | cons first l ih =>
      intro least
      obtain ⟨hle, hall⟩ := ih (if first.lt least then first else least)
      have hmin : (if first.lt least then first else least).key ≤ least.key ∧
          (if first.lt least then first else least).key ≤ first.key := by
        split
        · rename_i hlt
          exact ⟨le_of_lt (Score.lt_iff.mp hlt), le_refl _⟩
        · rename_i hlt
          rw [Score.lt_iff] at hlt
          exact ⟨le_refl _, by omega⟩
      refine ⟨hle.trans hmin.1, fun floor hf => ?_⟩
      rcases List.mem_cons.mp hf with rfl | hf
      · exact hle.trans hmin.2
      · exact hall floor hf
  rw [floorOf, List.getD_eq_getElem?_getD, List.getElem?_eq_getElem h]
  exact (hfold floors _).2 _ (List.getElem_mem h)

/-! ## A chunk -/

/-- The words of a chunk are the words of its part of the mask. -/
theorem packed_slice {mask : Option (List Bool)} {n base live : ℕ} (hmask : ∀ m, mask = some m → m.length = n)
    (hbase : base % 64 = 0) (hin : base + live ≤ n) (hlive : live % 64 = 0 ∨ base + live = n) :
    (packed mask).map (fun m => (m.drop (base / 64)).take (divCeil live 64)) =
      packed (mask.map fun m => (m.drop base).take live) := by
  cases mask with
  | none => rfl
  | some m =>
    have hlen := hmask m rfl
    have hslice : ((m.drop base).take live).length = live := by
      rw [List.length_take, List.length_drop]
      omega
    refine congrArg some ?_
    show ((TurboQuantIndex.packMask m).1.drop (base / 64)).take (divCeil live 64) =
      (TurboQuantIndex.packMask ((m.drop base).take live)).1
    rw [packMask_eq, packMask_eq, hslice]
    apply List.ext_getElem
    · rw [List.length_take, List.length_drop, List.length_map, List.length_map, List.length_range, List.length_range,
        divCeil]
      omega
    · intro w hw hw'
      rw [List.length_map, List.length_range] at hw'
      rw [List.getElem_take, List.getElem_drop, List.getElem_map, List.getElem_map, List.getElem_range,
        List.getElem_range]
      refine congrArg UInt64.ofNat (Nat.eq_of_testBit_eq fun i => ?_)
      by_cases hi : i < 64
      · rw [maskWord_testBit _ _ hi, maskWord_testBit _ _ hi, List.getD_eq_getElem?_getD, List.getD_eq_getElem?_getD,
          List.getElem?_take, List.getElem?_drop, show base + (w * 64 + i) = (base / 64 + w) * 64 + i by omega]
        split
        · rfl
        · -- a bit past the chunk is past the whole mask
          rw [List.getElem?_eq_none (by omega)]
      · have hlarge : ∀ x < 2 ^ 64, Nat.testBit x i = false := fun x hx =>
          Nat.testBit_lt_two_pow (hx.trans_le (Nat.pow_le_pow_right (by decide) (by omega)))
        rw [hlarge _ (maskWord_lt _ _), hlarge _ (maskWord_lt _ _)]

/-- The numbers before one of a range, and those after. -/
theorem range_around {count i : ℕ} (hi : i < count) :
    List.range count = List.range i ++ i :: List.range' (i + 1) (count - (i + 1)) := by
  have happ := @List.range'_append_1 0 i (count - i)
  rw [Nat.zero_add, show i + (count - i) = count by omega] at happ
  rw [← List.range'_succ, List.range_eq_range', List.range_eq_range', show count - (i + 1) + 1 = count - i by omega,
    happ]

/-- The window of one part of a concatenation of parts of one length. -/
theorem window_flatMap_range {α : Type} {f : ℕ → List α} {width count i : ℕ} (hlen : ∀ j, (f j).length = width)
    (hi : i < count) : (((List.range count).flatMap f).drop (i * width)).take width = f i := by
  have hpre : ((List.range i).flatMap f).length = i * width := by
    rw [List.length_flatMap, List.map_congr_left fun j _ => hlen j, List.map_const', List.sum_replicate_nat,
      List.length_range]
  rw [range_around hi, List.flatMap_append, ← hpre, List.drop_left, List.flatMap_cons, ← hlen i, List.take_left]

section

variable {H : Host} {bits n nq chunkRows base qi : ℕ} {score : ℕ → ℕ → Score} {mask : Option (List Bool)}
  {floor : Score} {floors : List Score}

/-- The rows a query's floor keeps of what the kernels return for a chunk. -/
theorem filter_rowOf (hmask : ∀ m, mask = some m → m.length = n) (hqi : qi < nq)
    (hfloor : (kernelFloor floors).key ≤ floor.key) :
    (rowOf nq (searchClassic H bits n score nq n (packed mask) (kernelFloor floors)) qi).filter
        (fun e => decide (0 ≤ e.2) && !e.1.lt floor) =
      (sorted rank ((allowedRows mask (score qi) n).filter fun e => Score.negInf.lt e.1 && !e.1.lt floor)).map
        fun e => (e.1, (e.2 : ℤ)) := by
  have hwidth : ∀ q, min n (allowedRows mask (score q) n).length = (allowedRows mask (score qi) n).length := by
    intro q
    rw [length_allowedRows, length_allowedRows]
    exact Nat.min_eq_right (List.countP_le_length.trans_eq List.length_range)
  have habove : ∀ q, (first rank (allowedRows mask (score qi) n).length
      ((allowedRows mask (score q) n).filter fun e => (kernelFloor floors).nextDown.lt e.1)).length ≤
        (allowedRows mask (score qi) n).length := by
    intro q
    rw [length_first]
    exact Nat.min_le_left _ _
  have hrow : rowOf nq (searchClassic H bits n score nq n (packed mask) (kernelFloor floors)) qi =
      padded (allowedRows mask (score qi) n).length (first rank (allowedRows mask (score qi) n).length
        ((allowedRows mask (score qi) n).filter fun e => (kernelFloor floors).nextDown.lt e.1)) := by
    rw [searchClassic_rows H bits score nq n (kernelFloor floors) hmask]
    simp only [hwidth]
    rw [rowOf]
    dsimp only
    rw [List.zip_map', List.length_map, List.length_flatMap, List.map_congr_left fun q _ => length_padded (habove q),
      List.map_const', List.sum_replicate_nat, List.length_range, Nat.mul_div_cancel_left _ (by omega)]
    rw [show (fun a : Score × ℤ => (a.1, a.2)) = id from rfl, List.map_id]
    exact window_flatMap_range (fun q => length_padded (habove q)) hqi
  -- the heap has room for every allowed row, so none is displaced
  have hshort : ((allowedRows mask (score qi) n).filter fun e => (kernelFloor floors).nextDown.lt e.1).length ≤
      (allowedRows mask (score qi) n).length := List.length_filter_le _ _
  have hnd := allowedRows_nodup hmask (score qi)
  rw [hrow, padded, List.filter_append, List.filter_replicate_of_neg Bool.false_ne_true, List.append_nil,
    List.filter_map, first, List.take_of_length_le (by rw [(sorted_perm _).length_eq]; exact hshort),
    filter_sorted (hnd _), List.filter_filter]
  refine congrArg (fun l => List.map (fun e : Entry => (e.1, (e.2 : ℤ))) (sorted rank l))
    (List.filter_congr fun e _ => ?_)
  rw [Function.comp_apply, decide_eq_true (Int.natCast_nonneg _), Bool.true_and, Bool.eq_iff_iff, Bool.and_eq_true,
    Bool.and_eq_true, Bool.not_eq_true', ← Bool.not_eq_true, Score.lt_iff, Score.lt_iff, Score.lt_iff]
  -- past the floor the threshold of the kernel says nothing more than that the score is not negative infinity
  have hinf := Score.negInf_le (kernelFloor floors)
  dsimp only
  by_cases hkernel : Score.negInf.key < (kernelFloor floors).key
  · rw [Score.nextDown_lt hkernel]
    omega
  · rw [Score.nextDown_eq (by omega), show (kernelFloor floors).key = Score.negInf.key by omega]
    omega

/-- A chunk's allowed rows, counted from its start. -/
theorem slots_chunk (live : ℕ) (score : ℕ → Score) : slots (allowedBy mask) score base (base + live) =
      (allowedRows (mask.map fun m => (m.drop base).take live) (fun v => score (base + v)) live).map
        fun e => (e.1, base + e.2) := by
  have hallowed : ∀ v ∈ List.range live, (allowedBy mask ∘ fun v => base + v) v =
      allowedBy (mask.map fun m => (m.drop base).take live) v := by
    intro v hv
    cases mask with
    | none => rfl
    | some m =>
      show m.getD (base + v) false = ((m.drop base).take live).getD v false
      rw [List.getD_eq_getElem?_getD, List.getD_eq_getElem?_getD, List.getElem?_take, List.getElem?_drop,
        if_pos (List.mem_range.mp hv)]
  rw [slots, Nat.add_sub_cancel_left, List.range'_eq_map_range, List.filter_map, allowedRows, List.map_map,
    List.map_map, List.filter_congr hallowed]
  rfl

/-- What a query's floor keeps of a chunk is what it is to be sent. -/
theorem handed_chunk (hmask : ∀ m, mask = some m → m.length = n) (hchunk : chunkRows % 64 = 0)
    (hbase : base % 64 = 0) (hlt : base < n) (hqi : qi < nq) (hfloor : (kernelFloor floors).key ≤ floor.key) :
    handed base qi floor (rowOf nq (chunkSearch H bits n score nq mask chunkRows base floors) qi) =
      wantedBatch mask (score qi) n chunkRows base qi floor := by
  have hin : base + min chunkRows (n - base) ≤ n := by omega
  have hlive : min chunkRows (n - base) % 64 = 0 ∨ base + min chunkRows (n - base) = n := by
    rcases Nat.le_total chunkRows (n - base) with h | h
    · rw [Nat.min_eq_left h]
      exact Or.inl hchunk
    · rw [Nat.min_eq_right h]
      exact Or.inr (by omega)
  have hslice : ∀ m, (mask.map fun m => (m.drop base).take (min chunkRows (n - base))) = some m →
      m.length = min chunkRows (n - base) := by
    intro m hm
    obtain ⟨whole, hwhole, rfl⟩ := Option.map_eq_some_iff.mp hm
    rw [List.length_take, List.length_drop, hmask whole hwhole]
    omega
  have hrows : sorted rank ((slots (allowedBy mask) (score qi) base (base + min chunkRows (n - base))).filter fun e =>
      Score.negInf.lt e.1 && !e.1.lt floor) =
      (sorted rank ((allowedRows (mask.map fun m => (m.drop base).take (min chunkRows (n - base)))
        (fun v => score qi (base + v)) (min chunkRows (n - base))).filter fun e =>
          Score.negInf.lt e.1 && !e.1.lt floor)).map fun e => (e.1, base + e.2) := by
    have hnd : ((slots (allowedBy mask) (score qi) base (base + min chunkRows (n - base))).map rank).Nodup :=
      slots_nodup
    rw [slots_chunk] at hnd ⊢
    rw [List.filter_map]
    refine sorted_map (hnd.sublist ((List.filter_sublist.map _).map rank)) fun a b hab => ?_
    rw [rank_le] at hab ⊢
    dsimp only
    omega
  unfold chunkSearch
  dsimp only
  rw [packed_slice hmask hbase hin hlive]
  unfold handed batchOf
  rw [filter_rowOf hslice hqi hfloor, wantedBatch, hrows]
  dsimp only
  simp only [List.map_map, List.isEmpty_map]
  have hslots : ((fun e : Score × ℤ => e.2 + (base : ℤ)) ∘ fun e : Entry => (e.1, (e.2 : ℤ))) =
      (fun e : Entry => (e.2 : ℤ)) ∘ fun e : Entry => (e.1, base + e.2) := by
    funext e
    show (e.2 : ℤ) + base = ((base + e.2 : ℕ) : ℤ)
    omega
  rw [hslots]
  rfl

end

/-! ## A run -/

/-- From one point of a search to another some chunks are scanned and some batches sent, and no floor falls. -/
structure Sends (chunks : ℕ) (batches : List StreamBatch) (st st' : Stream σ) : Prop where
  sent : st'.sent = st.sent ++ batches
  emitted : st'.emitted = st.emitted + (batches.map fun b => b.scores.length).sum
  chunksScanned : st'.chunksScanned = st.chunksScanned + chunks
  rises : Rises st.floors st'.floors
  length : st'.floors.length = st.floors.length

section

variable {C : Caller σ} {H : Host} {bits n nq chunkRows base : ℕ} {score : ℕ → ℕ → Score} {mask : Option (List Bool)}
  {st st₁ st₂ : Stream σ} {stopped : Bool}

theorem Sends.refl (st : Stream σ) : Sends 0 [] st st where
  sent := (List.append_nil _).symm
  emitted := rfl
  chunksScanned := rfl
  rises := Rises.refl _
  length := rfl

theorem Sends.trans {c c' : ℕ} {b b' : List StreamBatch} (h : Sends c b st st₁) (h' : Sends c' b' st₁ st₂) :
    Sends (c + c') (b ++ b') st st₂ where
  sent := by rw [h'.sent, h.sent, List.append_assoc]
  emitted := by rw [h'.emitted, h.emitted, List.map_append, List.sum_append, Nat.add_assoc]
  chunksScanned := by rw [h'.chunksScanned, h.chunksScanned, Nat.add_assoc]
  rises := h.rises.trans h'.rises
  length := h'.length.trans h.length

/-- A verdict touches the floors alone. -/
theorem obey_eq {raiseBy : Score → List Score → List Score} {verdict : StreamControl × σ}
    (h : st.obey raiseBy verdict = some (st₁, stopped)) :
    st₁.sent = st.sent ∧ st₁.emitted = st.emitted ∧ st₁.chunksScanned = st.chunksScanned ∧
      (st₁.floors = st.floors ∨ ∃ f : Score, verdict.1 = .raiseFloor f.1 ∧ st₁.floors = raiseBy f st.floors) := by
  obtain ⟨verdict, s⟩ := verdict
  cases verdict with
  | «continue» =>
    cases h
    exact ⟨rfl, rfl, rfl, Or.inl rfl⟩
  | raiseFloor f =>
    unfold Stream.obey at h
    dsimp only at h
    split at h
    · cases h
      exact ⟨rfl, rfl, rfl, Or.inr ⟨_, rfl, rfl⟩⟩
    · cases h
  | stop =>
    cases h
    exact ⟨rfl, rfl, rfl, Or.inl rfl⟩

theorem runUntilStop_cons {step : ι → S → Option (S × Bool)} {i : ι} {is : List ι} {s s' : S}
    (h : runUntilStop step (i :: is) s = some (s', false)) :
    ∃ s₁, step i s = some (s₁, false) ∧ runUntilStop step is s₁ = some (s', false) := by
  rw [runUntilStop] at h
  split at h
  · exact ⟨_, ‹_›, h⟩
  · rename_i hne
    exact absurd h (hne s')

/-- A query is sent its batch if there is one, and its verdict leaves the other floors. -/
theorem sendQuery_sends {row : ℕ → List (Score × ℤ)} {qi : ℕ} (h : sendQuery C base row qi st = some (st₁, stopped)) :
    Sends 0 (handed base qi (floorOf st.floors qi) (row qi)).toList st st₁ ∧
      ∀ qi' ≠ qi, floorOf st₁.floors qi' = floorOf st.floors qi' := by
  unfold sendQuery at h
  unfold handed
  dsimp only at h ⊢
  split at h
  · rename_i hempty
    cases h
    rw [if_pos hempty]
    exact ⟨Sends.refl st, fun _ _ => rfl⟩
  · rename_i hempty
    rw [if_neg hempty]
    obtain ⟨hsent, hemitted, hchunks, hfloors⟩ := obey_eq h
    have hrises : Rises st.floors st₁.floors ∧ st₁.floors.length = st.floors.length ∧
        ∀ qi' ≠ qi, floorOf st₁.floors qi' = floorOf st.floors qi' := by
      rcases hfloors with heq | ⟨f, -, heq⟩
      · rw [heq]
        exact ⟨Rises.refl _, rfl, fun _ _ => rfl⟩
      · rw [heq]
        exact ⟨rises_modify f _ qi, List.length_modify _ _ _, fun qi' hne => floorOf_modify_ne hne.symm⟩
    exact ⟨⟨hsent, hemitted, hchunks, hrises.1, hrises.2.1⟩, hrises.2.2⟩

/-- Every query is sent its batch, at the floor it had before the chunk's batches. -/
theorem sendQueries_sends {row : ℕ → List (Score × ℤ)} {qis : List ℕ} (hnd : qis.Nodup)
    (h : runUntilStop (sendQuery C base row) qis st = some (st₁, false)) :
    Sends 0 (qis.filterMap fun qi => handed base qi (floorOf st.floors qi) (row qi)) st st₁ := by
  induction qis generalizing st with
  | nil =>
    cases h
    exact Sends.refl _
  | cons qi qis ih =>
    obtain ⟨st₂, hfirst, hrest⟩ := runUntilStop_cons h
    obtain ⟨hsends, hothers⟩ := sendQuery_sends hfirst
    rw [List.nodup_cons] at hnd
    have htail := ih hnd.2 hrest
    -- a verdict raises the floor of its own query, and no later query is the first
    have hsame : ∀ qi' ∈ qis, floorOf st₂.floors qi' = floorOf st.floors qi' :=
      fun qi' hmem => hothers qi' fun heq => hnd.1 (heq ▸ hmem)
    have hboth := hsends.trans htail
    rw [List.filterMap_congr fun qi' hmem => by rw [hsame qi' hmem]] at hboth
    rw [List.filterMap_cons]
    split
    · rename_i hnone
      rw [hnone] at hboth
      exact hboth
    · rename_i batch hsome
      rw [hsome] at hboth
      exact hboth

/-- A chunk sends what is wanted of it, at the floors after the control. -/
theorem streamChunk_sends (hmask : ∀ m, mask = some m → m.length = n) (hchunk : chunkRows % 64 = 0)
    (hbase : base % 64 = 0) (hlt : base < n) (hlen : st.floors.length = nq)
    (h : streamChunk C H bits n score nq mask chunkRows base st = some (st₁, false)) :
    ∃ floors, Rises st.floors floors ∧ Rises floors st₁.floors ∧
      Sends 1 ((List.range nq).filterMap fun qi =>
        wantedBatch mask (score qi) n chunkRows base qi (floorOf floors qi)) st st₁ := by
  unfold streamChunk at h
  split at h
  · rename_i st₂ hobey
    obtain ⟨hsent, hemitted, hchunks, hfloors⟩ := obey_eq hobey
    have hrises : Rises st.floors st₂.floors ∧ st₂.floors.length = nq := by
      rcases hfloors with heq | ⟨f, -, heq⟩
      · rw [heq]
        exact ⟨Rises.refl _, hlen⟩
      · rw [heq, List.length_map]
        exact ⟨rises_map f _, hlen⟩
    -- the floors after the control are those the whole chunk is filtered by
    have hsends := sendQueries_sends List.nodup_range h
    rw [List.filterMap_congr fun qi hqi => handed_chunk hmask hchunk hbase hlt (List.mem_range.mp hqi)
      (kernelFloor_le (hrises.2.symm ▸ List.mem_range.mp hqi))] at hsends
    have hcontrol : Sends 1 [] st { st₂ with chunksScanned := st₂.chunksScanned + 1 } :=
      ⟨hsent.trans (List.append_nil _).symm, hemitted, congrArg (· + 1) hchunks, hrises.1, hrises.2.trans hlen.symm⟩
    exact ⟨st₂.floors, hrises.1, hsends.rises, hcontrol.trans hsends⟩
  · rename_i hne
    exact absurd h (hne st₁)

/-- Chunk after chunk, what is wanted is sent, at floors that only rise. -/
theorem streamChunks_sends (hmask : ∀ m, mask = some m → m.length = n) (hchunk : chunkRows % 64 = 0)
    {bases : List ℕ} (hbases : ∀ base ∈ bases, base % 64 = 0 ∧ base < n) (hlen : st.floors.length = nq)
    (h : runUntilStop (streamChunk C H bits n score nq mask chunkRows) bases st = some (st₁, false)) :
    ∃ floors : List (List Score), floors.length = bases.length ∧
      (st.floors :: floors ++ [st₁.floors]).Pairwise Rises ∧
      Sends bases.length ((bases.zip floors).flatMap fun p => (List.range nq).filterMap fun qi =>
        wantedBatch mask (score qi) n chunkRows p.1 qi (floorOf p.2 qi)) st st₁ := by
  induction bases generalizing st with
  | nil =>
    cases h
    exact ⟨[], rfl, List.pairwise_pair.mpr (Rises.refl _), Sends.refl _⟩
  | cons base bases ih =>
    obtain ⟨st₂, hfirst, hrest⟩ := runUntilStop_cons h
    obtain ⟨hbase, hlt⟩ := hbases base List.mem_cons_self
    obtain ⟨chunkFloors, hbefore, hafter, hsends⟩ := streamChunk_sends hmask hchunk hbase hlt hlen hfirst
    obtain ⟨floors, hcount, hpair, htail⟩ := ih (fun b hb => hbases b (List.mem_cons_of_mem _ hb))
      (hsends.length.trans hlen) hrest
    refine ⟨chunkFloors :: floors, congrArg (· + 1) hcount, ?_, ?_⟩
    · rw [List.cons_append, List.pairwise_cons] at hpair ⊢
      -- the floors of a chunk lie between those before it and those of the rest of the run
      have hlater : ∀ x ∈ floors ++ [st₁.floors], Rises chunkFloors x := fun x hx => hafter.trans (hpair.1 x hx)
      refine ⟨fun x hx => ?_, List.pairwise_cons.mpr ⟨hlater, hpair.2⟩⟩
      rcases List.mem_cons.mp hx with rfl | hx
      · exact hbefore
      · exact hbefore.trans (hlater x hx)
    · have hboth := hsends.trans htail
      rw [Nat.add_comm] at hboth
      exact hboth

/-- Every allowed row at or above the floor is in what is wanted of its chunk. -/
theorem mem_wantedBatch {v qi : ℕ} {floor : Score} {scoreOf : ℕ → Score} (hbase : base ≤ v)
    (hv : v < base + min chunkRows (n - base)) (hallowed : allowedBy mask v = true)
    (hinf : Score.negInf.key < (scoreOf v).key) (hfloor : floor.key ≤ (scoreOf v).key) :
    ∃ batch, wantedBatch mask scoreOf n chunkRows base qi floor = some batch ∧ batch.queryIndex = qi ∧
      (scoreOf v, (v : ℤ)) ∈ batch.scores.zip batch.slots := by
  have hmem : (scoreOf v, v) ∈ sorted rank ((slots (allowedBy mask) scoreOf base
      (base + min chunkRows (n - base))).filter fun e => Score.negInf.lt e.1 && !e.1.lt floor) := by
    rw [(sorted_perm _).mem_iff, List.mem_filter, Bool.and_eq_true, Bool.not_eq_true', ← Bool.not_eq_true,
      Score.lt_iff, Score.lt_iff]
    have hrange : v ∈ List.range' base (base + min chunkRows (n - base) - base) :=
      List.mem_range'_1.mpr ⟨hbase, by omega⟩
    refine ⟨List.mem_map.mpr ⟨v, List.mem_filter.mpr ⟨hrange, hallowed⟩, rfl⟩, hinf, ?_⟩
    dsimp only
    omega
  unfold wantedBatch
  dsimp only
  rw [if_neg (by rw [List.isEmpty_iff]; exact List.ne_nil_of_mem hmem)]
  refine ⟨_, rfl, rfl, ?_⟩
  dsimp only
  rw [List.zip_map']
  exact List.mem_map.mpr ⟨_, hmem, rfl⟩

theorem runUntilStop_inv {Inv : S → Prop} {step : ι → S → Option (S × Bool)}
    (hstep : ∀ i s s' stopped, Inv s → step i s = some (s', stopped) → Inv s') {is : List ι} {s s' : S}
    {stopped : Bool} (hs : Inv s) (h : runUntilStop step is s = some (s', stopped)) : Inv s' := by
  induction is generalizing s with
  | nil =>
    cases h
    exact hs
  | cons i is ih =>
    rw [runUntilStop] at h
    split at h
    · rename_i s₁ hi
      exact ih (hstep i s s₁ false hs hi) h
    · exact hstep i s s' stopped hs h

/-- A floor comes from the start or from the caller. -/
def Asked (C : Caller σ) (start : Score) (st : Stream σ) : Prop :=
  ∀ floor ∈ st.floors, floor = start ∨ C.Asks floor.1

theorem asked_raise {start f floor : Score} (hfloor : floor = start ∨ C.Asks floor.1) (hf : C.Asks f.1) :
    raise f floor = start ∨ C.Asks (raise f floor).1 := by
  unfold raise
  split
  · exact Or.inr hf
  · exact hfloor

theorem asked_sendQuery {start : Score} {row : ℕ → List (Score × ℤ)} {qi : ℕ} (hst : Asked C start st)
    (h : sendQuery C base row qi st = some (st₁, stopped)) : Asked C start st₁ := by
  unfold sendQuery at h
  dsimp only at h
  split at h
  · cases h
    exact hst
  · obtain ⟨-, -, -, heq | ⟨f, hverdict, heq⟩⟩ := obey_eq h
    · rw [Asked, heq]
      exact hst
    · intro floor hfloor
      rw [heq, List.mem_iff_getElem?] at hfloor
      obtain ⟨i, hi⟩ := hfloor
      rw [List.getElem?_modify, Option.map_eq_map, Option.map_eq_some_iff] at hi
      obtain ⟨old, hold, rfl⟩ := hi
      have hasked := hst old (List.mem_of_getElem? hold)
      split
      · exact asked_raise hasked (Or.inl ⟨_, _, hverdict⟩)
      · exact hasked

theorem asked_streamChunk {start : Score} (hst : Asked C start st)
    (h : streamChunk C H bits n score nq mask chunkRows base st = some (st₁, stopped)) : Asked C start st₁ := by
  have hcontrol : ∀ st₂ stopped, st.obey (fun f floors => floors.map (raise f)) (C.control st.caller) =
      some (st₂, stopped) → Asked C start st₂ := by
    intro st₂ stopped hobey
    obtain ⟨-, -, -, heq | ⟨f, hverdict, heq⟩⟩ := obey_eq hobey
    · rw [Asked, heq]
      exact hst
    · intro floor hfloor
      rw [heq] at hfloor
      obtain ⟨old, hold, rfl⟩ := List.mem_map.mp hfloor
      exact asked_raise (hst old hold) (Or.inr ⟨_, hverdict⟩)
  unfold streamChunk at h
  split at h
  · rename_i st₂ hobey
    have hnext : Asked C start { st₂ with chunksScanned := st₂.chunksScanned + 1 } := hcontrol st₂ false hobey
    refine runUntilStop_inv (fun _ _ _ _ hs hi => ?_) hnext h
    exact asked_sendQuery hs hi
  · exact hcontrol st₁ stopped h

/-- What is wanted of every chunk has each allowed row at or above the last floor. -/
theorem mem_wanted_chunks (hpos : 0 < chunkRows) {start last : List Score} {floors : List (List Score)}
    (hcount : floors.length = (stepBy n chunkRows).length) (hpair : (start :: floors ++ [last]).Pairwise Rises)
    {qi v : ℕ} (hqi : qi < nq) (hv : v < n) (hallowed : allowedBy mask v = true)
    (hinf : Score.negInf.key < (score qi v).key) (hfloor : (floorOf last qi).key ≤ (score qi v).key) :
    ∃ batch ∈ ((stepBy n chunkRows).zip floors).flatMap fun p => (List.range nq).filterMap fun qi =>
        wantedBatch mask (score qi) n chunkRows p.1 qi (floorOf p.2 qi),
      batch.queryIndex = qi ∧ (score qi v, (v : ℤ)) ∈ batch.scores.zip batch.slots := by
  -- the chunk of the row
  have hdiv := Nat.div_add_mod' v chunkRows
  have hmod := Nat.mod_lt v hpos
  have hmem : v / chunkRows * chunkRows ∈ stepBy n chunkRows :=
    (mem_stepBy_iff hpos).mpr ⟨by omega, Nat.mul_mod_left _ _⟩
  obtain ⟨i, hi, hget⟩ := List.mem_iff_getElem.mp hmem
  have hi' : i < floors.length := hcount ▸ hi
  have hrises : Rises floors[i] last :=
    (List.pairwise_append.mp hpair).2.2 _ (List.mem_cons_of_mem _ (List.getElem_mem hi')) _ (List.mem_singleton_self _)
  obtain ⟨batch, hbatch, hqueryIndex, hrow⟩ := @mem_wantedBatch n chunkRows (v / chunkRows * chunkRows) mask v qi
    (floorOf floors[i] qi) (score qi) (by omega) (by omega) hallowed hinf ((hrises qi).trans hfloor)
  refine ⟨batch, List.mem_flatMap.mpr ⟨(v / chunkRows * chunkRows, floors[i]), ?_, ?_⟩, hqueryIndex, hrow⟩
  · rw [List.mem_iff_getElem]
    exact ⟨i, by rw [List.length_zip]; omega, by rw [List.getElem_zip, hget]⟩
  · exact List.mem_filterMap.mpr ⟨qi, List.mem_range.mpr hqi, hbatch⟩

/-- Without queries every floor of a run is of none. -/
theorem pairwise_rises_nil {start last : List Score} (hstart : start = []) (hlast : last = []) (count : ℕ) :
    (start :: List.replicate count [] ++ [last]).Pairwise Rises := by
  subst hstart hlast
  have hall : ([] : List Score) :: List.replicate count [] ++ [[]] = List.replicate (count + 2) [] := by
    rw [← List.replicate_succ, ← List.replicate_succ']
  rw [hall]
  exact List.pairwise_replicate.mpr (Or.inr (Rises.refl _))

/-- What a search that completes has sent, at which floors. -/
theorem searchStreaming_sends (hmask : ∀ m, mask = some m → m.length = n) (hpos : 0 < chunkRows)
    (hchunk : chunkRows % 64 = 0) {start : Score} {s : σ} {summary : StreamSummary}
    (h : searchStreaming C H bits n score nq mask chunkRows start s = some (st, summary))
    (hdone : summary.completed = true) :
    (∃ floors : List (List Score), floors.length = (stepBy n chunkRows).length ∧
      (List.replicate nq start :: floors ++ [st.floors]).Pairwise Rises ∧
      st.sent = ((stepBy n chunkRows).zip floors).flatMap fun p => (List.range nq).filterMap fun qi =>
        wantedBatch mask (score qi) n chunkRows p.1 qi (floorOf p.2 qi)) ∧
    summary.emitted = (st.sent.map fun batch => batch.scores.length).sum ∧ Asked C start st := by
  have hbases : ∀ base ∈ stepBy n chunkRows, base % 64 = 0 ∧ base < n := by
    intro base hbase
    obtain ⟨hlt, hmod⟩ := (mem_stepBy_iff hpos).mp hbase
    exact ⟨Nat.mod_eq_zero_of_dvd ((Nat.dvd_of_mod_eq_zero hchunk).trans (Nat.dvd_of_mod_eq_zero hmod)), hlt⟩
  have hstart : Asked C start ⟨List.replicate nq start, 0, 0, s, []⟩ :=
    fun floor hfloor => Or.inl (List.eq_of_mem_replicate hfloor)
  unfold searchStreaming at h
  dsimp only at h
  split at h
  · -- no rows, so no chunks
    rename_i hn
    cases h
    subst hn
    have hnil : stepBy 0 chunkRows = [] := by
      rw [List.eq_nil_iff_forall_not_mem]
      exact fun base hbase => absurd (hbases base hbase).2 (Nat.not_lt_zero _)
    rw [hnil]
    exact ⟨⟨[], rfl, List.pairwise_pair.mpr (Rises.refl _), rfl⟩, rfl, hstart⟩
  · split at h
    · -- no queries, so nothing is sent of any chunk
      rename_i hnq
      cases h
      subst hnq
      refine ⟨⟨List.replicate (stepBy n chunkRows).length [], List.length_replicate, pairwise_rises_nil rfl rfl _, ?_⟩,
        rfl, hstart⟩
      exact (List.flatMap_eq_nil_iff.mpr fun _ _ => rfl).symm
    · rw [Option.map_eq_some_iff] at h
      obtain ⟨⟨st', stopped⟩, hrun, heq⟩ := h
      dsimp only at heq
      cases heq
      obtain rfl : stopped = false := by
        cases stopped with
        | false => rfl
        | true => cases hdone
      obtain ⟨floors, hcount, hpair, hsends⟩ := streamChunks_sends hmask hchunk hbases List.length_replicate hrun
      have hsent := hsends.sent
      rw [List.nil_append] at hsent
      refine ⟨⟨floors, hcount, hpair, hsent⟩, ?_, ?_⟩
      · rw [hsent]
        exact hsends.emitted.trans (Nat.zero_add _)
      · refine runUntilStop_inv (fun _ _ _ _ hs hi => ?_) hstart hrun
        exact asked_streamChunk hs hi

/-- A search that completes has sent, chunk after chunk and query after query, the allowed rows at or above the floor
the query had, best first; the floors only rose, so each allowed row at or above the last floor was sent. -/
theorem searchStreaming_exact (hmask : ∀ m, mask = some m → m.length = n) (hpos : 0 < chunkRows)
    (hchunk : chunkRows % 64 = 0) {start : Score} {s : σ} {summary : StreamSummary}
    (h : searchStreaming C H bits n score nq mask chunkRows start s = some (st, summary))
    (hdone : summary.completed = true) :
    (∃ floors : List (List Score), floors.length = (stepBy n chunkRows).length ∧
      (List.replicate nq start :: floors ++ [st.floors]).Pairwise Rises ∧
      st.sent = ((stepBy n chunkRows).zip floors).flatMap fun p => (List.range nq).filterMap fun qi =>
        wantedBatch mask (score qi) n chunkRows p.1 qi (floorOf p.2 qi)) ∧
    summary.emitted = (st.sent.map fun batch => batch.scores.length).sum ∧
    (∀ floor ∈ st.floors, floor = start ∨ C.Asks floor.1) ∧
    ∀ qi < nq, ∀ v < n, allowedBy mask v = true → Score.negInf.key < (score qi v).key →
      (floorOf st.floors qi).key ≤ (score qi v).key →
        ∃ batch ∈ st.sent, batch.queryIndex = qi ∧ (score qi v, (v : ℤ)) ∈ batch.scores.zip batch.slots := by
  obtain ⟨⟨floors, hcount, hpair, hsent⟩, hemitted, hasked⟩ := searchStreaming_sends hmask hpos hchunk h hdone
  refine ⟨⟨floors, hcount, hpair, hsent⟩, hemitted, hasked, fun qi hqi v hv hallowed hinf hfloor => ?_⟩
  rw [hsent]
  exact mem_wanted_chunks hpos hcount hpair hqi hv hallowed hinf hfloor

/-! ## Completion -/

/-- A verdict that lets a search go on. -/
def StreamControl.GoesOn : StreamControl → Prop
  | .continue => True
  | .raiseFloor f => f.isNaN = false
  | .stop => False

theorem obey_goesOn {raiseBy : Score → List Score → List Score} {verdict : StreamControl × σ}
    (hv : verdict.1.GoesOn) : ∃ st₁, st.obey raiseBy verdict = some (st₁, false) := by
  obtain ⟨verdict, s⟩ := verdict
  cases verdict with
  | «continue» => exact ⟨_, rfl⟩
  | raiseFloor f => exact ⟨_, dif_pos hv⟩
  | stop => cases hv

theorem runUntilStop_goesOn {step : ι → S → Option (S × Bool)} (hstep : ∀ i s, ∃ s₁, step i s = some (s₁, false))
    (is : List ι) (s : S) : ∃ s₁, runUntilStop step is s = some (s₁, false) := by
  induction is generalizing s with
  | nil => exact ⟨s, rfl⟩
  | cons i is ih =>
    obtain ⟨s₁, hs₁⟩ := hstep i s
    obtain ⟨s₂, hs₂⟩ := ih s₁
    refine ⟨s₂, ?_⟩
    rw [runUntilStop, hs₁]
    exact hs₂

/-- A search whose caller never stops it completes. -/
theorem searchStreaming_completes (hsink : ∀ s batch, (C.sink s batch).1.GoesOn)
    (hcontrol : ∀ s, (C.control s).1.GoesOn) (start : Score) (s : σ) :
    ∃ st summary, searchStreaming C H bits n score nq mask chunkRows start s = some (st, summary) ∧
      summary.completed = true := by
  have hquery : ∀ (base : ℕ) (row : ℕ → List (Score × ℤ)) (qi : ℕ) (st : Stream σ),
      ∃ st₁, sendQuery C base row qi st = some (st₁, false) := by
    intro base row qi st
    unfold sendQuery
    dsimp only
    split
    · exact ⟨_, rfl⟩
    · exact obey_goesOn (hsink _ _)
  have hstep : ∀ (base : ℕ) (st : Stream σ),
      ∃ st₁, streamChunk C H bits n score nq mask chunkRows base st = some (st₁, false) := by
    intro base st
    obtain ⟨st₁, hobey⟩ : ∃ st₁, st.obey (fun f floors => floors.map (raise f)) (C.control st.caller) =
        some (st₁, false) := obey_goesOn (hcontrol st.caller)
    unfold streamChunk
    rw [hobey]
    exact runUntilStop_goesOn (hquery base _) _ _
  unfold searchStreaming
  dsimp only
  split
  · exact ⟨_, _, rfl, rfl⟩
  · split
    · exact ⟨_, _, rfl, rfl⟩
    · obtain ⟨st₁, hrun⟩ := runUntilStop_goesOn hstep (stepBy n chunkRows) ⟨List.replicate nq start, 0, 0, s, []⟩
      exact ⟨st₁, _, by rw [hrun]; rfl, rfl⟩

/-! ## The best of a stream -/

/-- What is wanted of a chunk, as entries. -/
def chunkEntries (mask : Option (List Bool)) (score : ℕ → Score) (n chunkRows base : ℕ) (floor : Score) : List Entry :=
  sorted rank ((slots (allowedBy mask) score base (base + min chunkRows (n - base))).filter fun e =>
    Score.negInf.lt e.1 && !e.1.lt floor)

/-- Chunks cover the slots in order. -/
theorem slots_chunks {allowed : ℕ → Bool} {scoreOf : ℕ → Score} (hpos : 0 < chunkRows) :
    slots allowed scoreOf 0 n =
      (stepBy n chunkRows).flatMap fun base => slots allowed scoreOf base (base + min chunkRows (n - base)) := by
  have hrun : ∀ m, slots allowed scoreOf 0 (min (m * chunkRows) n) = (List.range m).flatMap fun i =>
      slots allowed scoreOf (i * chunkRows) (i * chunkRows + min chunkRows (n - i * chunkRows)) := by
    intro m
    induction m with
    | zero =>
      rw [slots_none fun v h1 h2 => by omega]
      rfl
    | succ m ih =>
      have hmul : (m + 1) * chunkRows = m * chunkRows + chunkRows := Nat.succ_mul m chunkRows
      rw [List.range_succ, List.flatMap_append, List.flatMap_cons, List.flatMap_nil, List.append_nil, ← ih, hmul]
      by_cases hm : m * chunkRows ≤ n
      · rw [Nat.min_eq_left hm, show min (m * chunkRows + chunkRows) n =
          m * chunkRows + min chunkRows (n - m * chunkRows) by omega]
        exact slots_append _ (Nat.zero_le _) (by omega)
      · have hnone : slots allowed scoreOf (m * chunkRows) (m * chunkRows + min chunkRows (n - m * chunkRows)) = [] :=
          slots_none fun v h1 h2 => by omega
        rw [hnone, List.append_nil]
        congr 1
        omega
  have hcover : n ≤ divCeil n chunkRows * chunkRows := divCeil_le n hpos
  have hall := hrun (divCeil n chunkRows)
  rw [Nat.min_eq_right hcover] at hall
  rw [hall, stepBy, List.flatMap_map]

theorem slots_zero (scoreOf : ℕ → Score) : slots (allowedBy mask) scoreOf 0 n = allowedRows mask scoreOf n := by
  rw [slots, Nat.sub_zero, ← List.range_eq_range']
  rfl

/-- Of the batches of a chunk a query is handed its own. -/
theorem rows_of_chunk {floors : List Score} {qi : ℕ} (hqi : qi < nq) :
    (((List.range nq).filterMap fun q => wantedBatch mask (score q) n chunkRows base q (floorOf floors q)).filter
      fun batch => batch.queryIndex = qi).flatMap (fun batch => batch.scores.zip batch.slots) =
      (chunkEntries mask (score qi) n chunkRows base (floorOf floors qi)).map fun e => (e.1, (e.2 : ℤ)) := by
  have hindex : ∀ q batch, wantedBatch mask (score q) n chunkRows base q (floorOf floors q) = some batch →
      batch.queryIndex = q := by
    intro q batch h
    unfold wantedBatch at h
    dsimp only at h
    split at h
    · cases h
    · cases h
      rfl
  have hothers : ∀ qs : List ℕ, qi ∉ qs → (qs.filterMap fun q =>
      wantedBatch mask (score q) n chunkRows base q (floorOf floors q)).filter (fun batch => batch.queryIndex = qi) =
        [] := by
    intro qs hqs
    rw [List.filter_eq_nil_iff]
    intro batch hbatch heq
    obtain ⟨q, hq, hsome⟩ := List.mem_filterMap.mp hbatch
    have := (hindex q batch hsome).symm.trans (of_decide_eq_true heq)
    exact hqs (this ▸ hq)
  have hbefore : qi ∉ List.range qi := List.not_mem_range_self
  have hafter : qi ∉ List.range' (qi + 1) (nq - (qi + 1)) := fun h => by
    have := (List.mem_range'_1.mp h).1
    omega
  rw [range_around hqi, List.filterMap_append, List.filter_append, hothers _ hbefore, List.nil_append,
    List.filterMap_cons]
  split
  · rename_i hnone
    rw [hothers _ hafter]
    unfold wantedBatch at hnone
    dsimp only at hnone
    split at hnone
    · rename_i hempty
      rw [chunkEntries, List.isEmpty_iff.mp hempty]
      rfl
    · cases hnone
  · rename_i batch hsome
    rw [List.filter_cons, if_pos (decide_eq_true (hindex qi batch hsome)), hothers _ hafter, List.flatMap_singleton]
    unfold wantedBatch at hsome
    dsimp only at hsome
    split at hsome
    · cases hsome
    · cases hsome
      dsimp only
      rw [List.zip_map']
      rfl

/-- Rows at or above the floors of their chunks keep the first `k`, where `k` of them reach the last floor. -/
theorem keeps_chunkEntries {bases : List ℕ} {floors : List (List Score)} {last : List Score} {qi k : ℕ}
    {scoreOf : ℕ → Score} (hcount : floors.length = bases.length) (hlast : ∀ f ∈ floors, Rises f last)
    (hk : (floorOf last qi).key = Score.negInf.key ∨ k ≤ (((bases.zip floors).flatMap fun p =>
      chunkEntries mask scoreOf n chunkRows p.1 (floorOf p.2 qi)).countP fun e => !e.1.lt (floorOf last qi))) :
    Keeps rank k ((bases.flatMap fun base => slots (allowedBy mask) scoreOf base
        (base + min chunkRows (n - base))).filter fun e => Score.negInf.lt e.1)
      ((bases.zip floors).flatMap fun p => chunkEntries mask scoreOf n chunkRows p.1 (floorOf p.2 qi)) := by
  refine ⟨(bases.zip floors).flatMap fun p => (slots (allowedBy mask) scoreOf p.1
    (p.1 + min chunkRows (n - p.1))).filter fun e => Score.negInf.lt e.1 && e.1.lt (floorOf p.2 qi), ?_, fun b hb => ?_⟩
  · have hzip : bases = (bases.zip floors).map Prod.fst := (List.map_fst_zip (by omega)).symm
    rw [List.filter_flatMap]
    conv_lhs => rw [hzip]
    rw [List.flatMap_map]
    refine List.Perm.trans (List.Perm.flatMap_left _ fun p _ => ?_) (List.flatMap_append_perm _ _ _).symm
    -- a chunk's rows above negative infinity are those at or above its floor and the others
    refine (List.filter_append_perm (fun e => !e.1.lt (floorOf p.2 qi)) _).symm.trans ?_
    rw [List.filter_filter, List.filter_filter]
    refine List.Perm.append ?_ ?_
    · rw [chunkEntries]
      refine (List.Perm.of_eq (List.filter_congr fun e _ => ?_)).trans (sorted_perm _).symm
      rw [Bool.and_comm]
    · refine List.Perm.of_eq (List.filter_congr fun e _ => ?_)
      rw [Bool.not_not, Bool.and_comm]
  · obtain ⟨p, hp, hb⟩ := List.mem_flatMap.mp hb
    obtain ⟨-, hb⟩ := List.mem_filter.mp hb
    rw [Bool.and_eq_true, Score.lt_iff, Score.lt_iff] at hb
    have hrises := hlast p.2 (List.of_mem_zip hp).2 qi
    rcases hk with hinf | hk
    · omega
    refine hk.trans (List.countP_mono_left fun e _ he => ?_)
    rw [Bool.not_eq_true', ← Bool.not_eq_true, Score.lt_iff] at he
    rw [decide_eq_true_iff, rank_le]
    omega

/-- A caller that raises no floor past the `k`-th best row it was handed has the first `k` of all allowed rows. -/
theorem searchStreaming_best (hmask : ∀ m, mask = some m → m.length = n) (hpos : 0 < chunkRows)
    (hchunk : chunkRows % 64 = 0) {start : Score} {s : σ} {summary : StreamSummary}
    (h : searchStreaming C H bits n score nq mask chunkRows start s = some (st, summary))
    (hdone : summary.completed = true) {qi k : ℕ} (hqi : qi < nq)
    (hk : (floorOf st.floors qi).key = Score.negInf.key ∨
      k ≤ (st.rowsOf qi).countP fun e => !e.1.lt (floorOf st.floors qi)) :
    ∃ handed : List Entry, st.rowsOf qi = handed.map (fun e => (e.1, (e.2 : ℤ))) ∧
      first rank k handed = first rank k ((allowedRows mask (score qi) n).filter fun e => Score.negInf.lt e.1) := by
  obtain ⟨⟨floors, hcount, hpair, hsent⟩, -, -⟩ := searchStreaming_sends hmask hpos hchunk h hdone
  have hrows : st.rowsOf qi = (((stepBy n chunkRows).zip floors).flatMap fun p =>
      chunkEntries mask (score qi) n chunkRows p.1 (floorOf p.2 qi)).map fun e => (e.1, (e.2 : ℤ)) := by
    rw [Stream.rowsOf, hsent, List.filter_flatMap, List.flatMap_assoc, List.map_flatMap]
    exact List.flatMap_congr fun p _ => rows_of_chunk hqi
  refine ⟨_, hrows, ?_⟩
  rw [hrows, List.countP_map] at hk
  have hkeeps := keeps_chunkEntries hcount (fun f hf => (List.pairwise_append.mp hpair).2.2 f
    (List.mem_cons_of_mem _ hf) _ (List.mem_singleton_self _)) hk
  rw [← slots_chunks hpos, slots_zero] at hkeeps
  exact hkeeps.first_eq (allowedRows_nodup hmask (score qi) _)

end

/-! ## A small index -/

/-- A caller that takes every batch and raises the floor to the best score of each. -/
def keenCaller : Caller Unit where
  sink s batch := (.raiseFloor (batch.scores.headD Score.negInf).1, s)
  control s := (.continue, s)

theorem length_twoMask : ∀ m, some [true, false] = some m → m.length = 2 := by
  intro m hm
  rw [← Option.some.inj hm]
  rfl

/-- Two rows under a mask, one query. -/
theorem searchStreaming_keen :
    searchStreaming keenCaller scalarHost 4 2 (fun _ _ => zeroScore) 1 (some [true, false]) 64 Score.negInf () =
      some (⟨[zeroScore], 1, 1, (), [⟨0, 0, [zeroScore], [0]⟩]⟩, ⟨1, 1, 1, true⟩) := by decide +kernel

theorem searchStreaming_exact_masked : ∃ st summary,
    searchStreaming keenCaller scalarHost 4 2 (fun _ _ => zeroScore) 1 (some [true, false]) 64 Score.negInf () =
      some (st, summary) ∧ summary.completed = true ∧
    ∃ batch ∈ st.sent, batch.queryIndex = 0 ∧ (zeroScore, (0 : ℤ)) ∈ batch.scores.zip batch.slots := by
  refine ⟨_, _, searchStreaming_keen, rfl, ?_⟩
  exact (searchStreaming_exact length_twoMask (by decide) (by decide) searchStreaming_keen rfl).2.2.2 0 (by decide) 0
    (by decide) rfl (by decide) (by decide)

theorem searchStreaming_best_masked : ∃ st summary,
    searchStreaming keenCaller scalarHost 4 2 (fun _ _ => zeroScore) 1 (some [true, false]) 64 Score.negInf () =
      some (st, summary) ∧
    ∃ handed : List Entry, st.rowsOf 0 = handed.map (fun e => (e.1, (e.2 : ℤ))) ∧ first rank 1 handed =
      first rank 1 ((allowedRows (some [true, false]) (fun _ => zeroScore) 2).filter fun e => Score.negInf.lt e.1) := by
  refine ⟨_, _, searchStreaming_keen, ?_⟩
  exact searchStreaming_best length_twoMask (by decide) (by decide) searchStreaming_keen rfl (by decide)
    (Or.inr (by decide))

end Turbovec.Scan
