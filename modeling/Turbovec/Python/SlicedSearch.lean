import Turbovec.Python.Sliced
import Turbovec.Index.Reloaded

/-!
# Sliced searches

`search` of the binding's two classes, and the wrapper that hands a large batch of queries to it slice by slice and
concatenates the answers. A search is steady when its good parts are refused alike or answered row by row, whatever
the parts before left behind; the slices of a steady search are invisible.
-/

namespace Turbovec.Sliced

open Pack IoV7 Slice Grid

/-! ## Searching -/

/-- A batch of which every slice is as good as the whole: some rows, each of the width, every coordinate valid. -/
structure Good (cols : ℕ) (part : List (List F32)) : Prop where
  some : part ≠ []
  wide : ∀ r ∈ part, r.length = cols
  valid : ∀ r ∈ part, ∀ v ∈ r, validCoord v = true

theorem Good.coords {cols : ℕ} {part : List (List F32)} (h : Good cols part) :
    firstInvalidCoord part.flatten cols = none := by
  rw [firstInvalidCoord_eq_none]
  intro v hv
  obtain ⟨r, hr, hv⟩ := List.mem_flatten.mp hv
  exact h.valid r hr v hv

/-- A scan without planes answers the queries of a batch one by one, every query with as many scores, each with its slot.
A planes scan need not: one query alone may skip the ranking that a batch makes. -/
structure QueryWise (S : ScanKernels) : Prop where
  search : ∀ (inp : ScanInput) (rows : List (List F32)), inp.planes = none → (∀ r ∈ rows, r.length = inp.dim) →
    S.search { inp with queries := rows.flatten, nq := rows.length } =
      (rows.flatMap fun r => (S.search { inp with queries := r, nq := 1 }).1,
        rows.flatMap fun r => (S.search { inp with queries := r, nq := 1 }).2)
  uniform : ∀ (inp : ScanInput), inp.planes = none → ∃ width, ∀ r : List F32, r.length = inp.dim →
    (S.search { inp with queries := r, nq := 1 }).1.length = width ∧
      (S.search { inp with queries := r, nq := 1 }).2.length = width

/-- The classic search takes a batch query by query. -/
theorem classicScan_queryWise (H : Scan.Host) (score : ScanInput → List F32 → ℕ → Score) :
    QueryWise (Scan.classicScan H score) := by
  have hone (inp : ScanInput) : ∃ (row : List F32 → List (Score × ℤ)) (width : ℕ), (∀ r, (row r).length = width) ∧
      (∀ rows : List (List F32), (∀ r ∈ rows, r.length = inp.dim) →
        (Scan.classicScan H score).search { inp with queries := rows.flatten, nq := rows.length } =
          (rows.flatMap fun r => (row r).map fun e => e.1.1, rows.flatMap fun r => (row r).map Prod.snd)) ∧
      ∀ r : List F32, r.length = inp.dim → (Scan.classicScan H score).search { inp with queries := r, nq := 1 } =
        ((row r).map fun e => e.1.1, (row r).map Prod.snd) := by
    obtain ⟨row, width, hlen, h⟩ := Scan.classicScan_rows H score inp
    refine ⟨row, width, hlen, h, fun r hr => ?_⟩
    have h := h [r] fun s hs => List.mem_singleton.mp hs ▸ hr
    rwa [List.flatten_singleton, List.flatMap_singleton, List.flatMap_singleton] at h
  constructor
  · intro inp rows _ hrows
    obtain ⟨row, width, -, h, hsingle⟩ := hone inp
    rw [h rows hrows, List.flatMap_congr fun r hr => congrArg Prod.fst (hsingle r (hrows r hr)),
      List.flatMap_congr fun r hr => congrArg Prod.snd (hsingle r (hrows r hr))]
  · intro inp _
    obtain ⟨row, width, hlen, -, hsingle⟩ := hone inp
    refine ⟨width, fun r hr => ?_⟩
    rw [hsingle r hr]
    exact ⟨(List.length_map _).trans (hlen r), (List.length_map _).trans (hlen r)⟩

/-- The cache a search scans is not planes. -/
def Classic (P : Platform) (T : Tables) (x : TurboQuantIndex) : Prop :=
  ∀ dim cache, x.dim = some dim → (x.prepared P T dim).blocked = some cache → cache.isPlanes = false

section search

variable {P : Platform} {T : Tables} {S : ScanKernels} {x : TurboQuantIndex} {cols : ℕ}

/-- The derived members are set once. -/
theorem derived_derived (x : TurboQuantIndex) (dim : ℕ) (cache : BlockedCache) :
    ({ x with blocked := some (x.derived P S dim cache) } : TurboQuantIndex).derived P S dim (x.derived P S dim cache) =
      x.derived P S dim cache := by
  have hp := TurboQuantIndex.derived_planes (P := P) (S := S) x dim cache
  by_cases h : cache.isPlanes = true
  · rw [TurboQuantIndex.derived, if_pos (hp.trans h), TurboQuantIndex.derived, if_pos h]
    dsimp only
    split
    · rfl
    · rfl
  · rw [TurboQuantIndex.derived, if_neg (by rw [hp]; exact h)]

/-- A searched index is prepared already. -/
theorem prepared_scanned {x : TurboQuantIndex} {dim : ℕ} (cache : BlockedCache) :
    ({ x.prepared P T dim with blocked := some cache } : TurboQuantIndex).prepared P T dim =
      { x.prepared P T dim with blocked := some cache } := by
  have hrot : (x.prepared P T dim).rotation = some (x.rotation.getD dim) ∧ (x.prepared P T dim).centroids =
      some (x.centroids.getD (T.codebook x.bitWidth dim).2) := by
    unfold TurboQuantIndex.prepared
    dsimp only
    split
    · exact ⟨rfl, rfl⟩
    · exact ⟨rfl, rfl⟩
  obtain ⟨hr, hc⟩ := hrot
  generalize x.prepared P T dim = y at hr hc
  unfold TurboQuantIndex.prepared
  dsimp only
  rw [hr, hc]
  cases y
  dsimp only at hr hc
  subst hr hc
  rfl

/-- The checks of a search pass for every good part. -/
theorem search_checked {dim : ℕ} (hpos : 0 < dim) (k : ℕ) (mask : Option (List Bool)) (z : TurboQuantIndex)
    (hz : z.dim = some dim) {part : List (List F32)} (hg : Good dim part) :
    z.trySearchWithOptions P T S part.flatten k mask none =
      if z.nVectors = 0 then
        match mask with
        | some m => if m.isEmpty then (z, some (.ok ⟨[], [], part.length, 0⟩))
            else (z, some (.error (.maskLengthMismatch 0 m.length)))
        | none => (z, some (.ok ⟨[], [], part.length, 0⟩))
      else
        let z := z.prepared P T dim
        match (mask.map List.length).filter (· ≠ z.nVectors), z.blocked with
        | some got, _ => (z, some (.error (.maskLengthMismatch z.nVectors got)))
        | none, none => (z, none)
        | none, some cache =>
          let packedMask := mask.map TurboQuantIndex.packMask
          let nAllowed := (packedMask.map Prod.snd).getD z.nVectors
          let cache := z.derived P S dim cache
          let z := { z with blocked := some cache }
          let res := S.search {
            queries := part.flatten, nq := part.length
            rotation := z.rotation.getD dim
            data := cache.data
            centroids := z.centroids.getD []
            scales := z.scales
            tqplusShift := z.tqplusShift
            tqplusScale := z.tqplusScale
            bitWidth := z.bitWidth
            dim
            nVectors := z.nVectors
            nBlocks := cache.nBlocks
            k
            mask := packedMask.map Prod.fst
            planes := z.planesRef cache
            initialThreshold := F32.NEG_INFINITY }
          (z, some (.ok ⟨res.1, res.2, part.length, min (min k z.nVectors) nAllowed⟩)) := by
  have hnan : (F32.NEG_INFINITY).isNaN = false := by decide
  have hlen := length_flatten_wide hg.wide
  have hdiv : part.flatten.length / dim = part.length := by
    rw [hlen, Nat.mul_div_cancel _ hpos]
  unfold TurboQuantIndex.trySearchWithOptions
  dsimp only [Option.getD_none]
  rw [hnan, if_neg Bool.false_ne_true, hz]
  dsimp only
  rewrite [hdiv, if_neg (not_not.mpr hlen), hg.coords]
  rfl

/-- Every good part gets the same refusal, or its own rows' answers, and leaves the same index; that index answers alike. -/
theorem search_parts (hS : QueryWise S) (x : TurboQuantIndex) (hclassic : Classic P T x) (k : ℕ)
    (mask : Option (List Bool))
    (hdim : ∀ d, x.dim = some d → d = cols ∧ 0 < d) :
    ∃ y, y.dim = x.dim ∧ y.nVectors = x.nVectors ∧
      ((∃ o, (∀ res, o ≠ some (.ok res)) ∧ ∀ part, Good cols part →
        x.trySearchWithOptions P T S part.flatten k mask none = (y, o)) ∨
      ∃ (f : List F32 → List F32) (g : List F32 → List ℤ) (width lane : ℕ),
        (∀ r, r.length = cols → (f r).length = lane ∧ (g r).length = lane) ∧
        ∀ z, z = x ∨ z = y → ∀ part, Good cols part → ∃ nq, z.trySearchWithOptions P T S part.flatten k mask none =
          (y, some (.ok ⟨part.flatMap f, part.flatMap g, nq, width⟩))) := by
  have hnan : (F32.NEG_INFINITY).isNaN = false := by decide
  cases hd : x.dim with
  | none =>
    refine ⟨x, hd, rfl, Or.inr ⟨fun _ => [], fun _ => [], 0, 0, fun _ _ => ⟨rfl, rfl⟩, ?_⟩⟩
    rintro z (rfl | rfl) part -
    all_goals
      refine ⟨0, ?_⟩
      unfold TurboQuantIndex.trySearchWithOptions
      dsimp only [Option.getD_none]
      rw [hnan, if_neg Bool.false_ne_true, hd]
      simp
  | some dim =>
    obtain ⟨rfl, hpos⟩ := hdim dim hd
    obtain ⟨hpd, hpn, -⟩ := TurboQuantIndex.prepared_same (P := P) (T := T) x dim
    by_cases hn : x.nVectors = 0
    · refine ⟨x, hd, rfl, ?_⟩
      have hok : (∀ m ∈ mask, m = []) → ∀ z, z = x ∨ z = x → ∀ part, Good dim part → ∃ nq,
          z.trySearchWithOptions P T S part.flatten k mask none =
            (x, some (.ok ⟨part.flatMap fun _ => [], part.flatMap fun _ => [], nq, 0⟩)) := by
        intro hm z hz part hg
        have hz : z = x := hz.elim id id
        subst hz
        refine ⟨part.length, ?_⟩
        rw [search_checked hpos k mask z hd hg, if_pos hn]
        cases mask with
        | none => simp
        | some m =>
          rw [hm m rfl]
          simp
      cases hmask : mask with
      | none =>
        subst hmask
        exact Or.inr ⟨_, _, 0, 0, fun _ _ => ⟨rfl, rfl⟩, hok nofun⟩
      | some m =>
        by_cases hm : m = []
        · subst hmask hm
          exact Or.inr ⟨_, _, 0, 0, fun _ _ => ⟨rfl, rfl⟩, hok fun m hm => (Option.mem_some_iff.mp hm).symm⟩
        · refine Or.inl ⟨some (.error (.maskLengthMismatch 0 m.length)), nofun, fun part hg => ?_⟩
          subst hmask
          rw [search_checked hpos k (some m) x hd hg, if_pos hn]
          dsimp only
          rw [if_neg (by simpa using hm)]
    · cases hw : (mask.map List.length).filter (· ≠ (x.prepared P T dim).nVectors) with
      | some got =>
        refine ⟨x.prepared P T dim, hpd.trans hd, hpn, Or.inl
          ⟨some (.error (.maskLengthMismatch (x.prepared P T dim).nVectors got)), nofun, fun part hg => ?_⟩⟩
        rw [search_checked hpos k mask x hd hg, if_neg hn]
        dsimp only
        rw [hw]
      | none =>
        cases hc : (x.prepared P T dim).blocked with
        | none =>
          refine ⟨x.prepared P T dim, hpd.trans hd, hpn, Or.inl ⟨none, nofun, fun part hg => ?_⟩⟩
          rw [search_checked hpos k mask x hd hg, if_neg hn]
          dsimp only
          rw [hw, hc]
        | some cache =>
          -- the index every part leaves, and what the scan is given
          let y : TurboQuantIndex := { x.prepared P T dim with
            blocked := some ((x.prepared P T dim).derived P S dim cache) }
          let inp : ScanInput := {
            queries := [], nq := 0
            rotation := y.rotation.getD dim
            data := ((x.prepared P T dim).derived P S dim cache).data
            centroids := y.centroids.getD []
            scales := y.scales
            tqplusShift := y.tqplusShift
            tqplusScale := y.tqplusScale
            bitWidth := y.bitWidth
            dim
            nVectors := y.nVectors
            nBlocks := ((x.prepared P T dim).derived P S dim cache).nBlocks
            k
            mask := (mask.map TurboQuantIndex.packMask).map Prod.fst
            planes := y.planesRef ((x.prepared P T dim).derived P S dim cache)
            initialThreshold := F32.NEG_INFINITY }
          have hplanes : inp.planes = none := by
            show y.planesRef ((x.prepared P T dim).derived P S dim cache) = none
            rw [TurboQuantIndex.planesRef, TurboQuantIndex.derived_planes, hclassic dim cache hd hc]
          obtain ⟨lane, hlane⟩ := hS.uniform inp hplanes
          refine ⟨y, hpd.trans hd, hpn, Or.inr ⟨fun r => (S.search { inp with queries := r, nq := 1 }).1,
            fun r => (S.search { inp with queries := r, nq := 1 }).2,
            min (min k y.nVectors) (((mask.map TurboQuantIndex.packMask).map Prod.snd).getD y.nVectors), lane, hlane, ?_⟩⟩
          intro z hz part hg
          refine ⟨part.length, ?_⟩
          have hscan := hS.search inp part hplanes hg.wide
          rcases hz with rfl | rfl
          · rw [search_checked hpos k mask z hd hg, if_neg hn]
            dsimp only
            rw [hw, hc]
            dsimp only
            exact congrArg (fun res : List F32 × List ℤ => (y, some (Except.ok (SearchResults.mk res.1 res.2 part.length
              (min (min k y.nVectors) (((mask.map TurboQuantIndex.packMask).map Prod.snd).getD y.nVectors)))))) hscan
          · have hyn : ¬y.nVectors = 0 := by
              rw [show y.nVectors = x.nVectors from hpn]
              exact hn
            rw [search_checked hpos k mask y (hpd.trans hd) hg, if_neg hyn]
            dsimp only
            rw [show y.prepared P T dim = y from prepared_scanned _]
            have hw' : (mask.map List.length).filter (· ≠ y.nVectors) = none := hw
            rw [hw', show y.blocked = some ((x.prepared P T dim).derived P S dim cache) from rfl]
            dsimp only
            have hder : y.derived P S dim ((x.prepared P T dim).derived P S dim cache) =
                (x.prepared P T dim).derived P S dim cache := derived_derived _ dim cache
            rw [hder]
            exact congrArg (fun res : List F32 × List ℤ => (y, some (Except.ok (SearchResults.mk res.1 res.2 part.length
              (min (min k y.nVectors) (((mask.map TurboQuantIndex.packMask).map Prod.snd).getD y.nVectors)))))) hscan

end search

/-! ## What Python is given -/

/-- The two arrays of an answer, row-major, of one shape. -/
structure Arrays (β : Type) where
  scores : List F32
  ids : List β
  nq : ℕ
  k : ℕ
deriving DecidableEq, Repr

/-- What a search raises. -/
inductive Raised
  | size
  | keyword
  | notContiguous
  | dimMismatch (ncols dim : ℕ)
  | invalidQueryValue (row col : ℕ) (value : F32)
  | maskLength (got expected : ℕ)
  | allowlistEmpty
  | unknownIds (preview : List UInt64) (more : Bool)
  | core (e : SearchError)
  | shape
  | concatenate
  | panic
deriving DecidableEq, Repr

/-- A `mask` or an `allowlist`: left out, not an array of its type, or an array. -/
inductive Keyword (β : Type)
  | absent
  | other (contiguous : Bool)
  | array (contiguous : Bool) (values : List β)

/-- The keyword extracted. -/
def Keyword.extract {β : Type} : Keyword β → Except Raised (Option (List β))
  | .absent => .ok none
  | .other _ => .error .keyword
  | .array false _ => .error .notContiguous
  | .array true values => .ok (some values)

/-- `_snapshot_kwargs`: whether no array among them is out of order. -/
def Keyword.snapshot {β : Type} : Keyword β → Bool
  | .absent => true
  | .other contiguous => contiguous
  | .array contiguous _ => contiguous

/-- `Array2::from_shape_vec`, twice -/
def shaped {β : Type} (scores : List F32) (ids : List β) (nq k : ℕ) : Except Raised (Arrays β) :=
  if scores.length = nq * k ∧ ids.length = nq * k then .ok ⟨scores, ids, nq, k⟩ else .error .shape

/-- The loop over the slices of a search. -/
def searchSlices {σ γ β : Type} (raw : σ → γ → σ × Except Raised (Arrays β)) :
    σ → List γ → σ × Except Raised (List (Arrays β))
  | s, [] => (s, .ok [])
  | s, b :: bs =>
    match raw s b with
    | (s', .error e) => (s', .error e)
    | (s', .ok a) =>
      match searchSlices raw s' bs with
      | (s'', .error e) => (s'', .error e)
      | (s'', .ok as) => (s'', .ok (a :: as))

/-- `np.concatenate(…, axis=0)`, which takes arrays of one width, and at least one. -/
def concatenate {β : Type} : List (Arrays β) → Except Raised (Arrays β)
  | [] => .error .concatenate
  | a :: as =>
    if as.all (fun b => b.k = a.k) then
      .ok ⟨(a :: as).flatMap (·.scores), (a :: as).flatMap (·.ids), ((a :: as).map (·.nq)).sum, a.k⟩
    else .error .concatenate

/-- `_make_search` -/
def search {σ α β : Type} (raw : σ → List (List F32) → σ × Except Raised (Arrays β)) (s : σ) (queries : Batch)
    (keyword : Keyword α) (cs : ℤ) : σ × Except Raised (Arrays β) :=
  if chunkable2d queries cs && keyword.snapshot && finiteOk queries then
    match searchSlices raw s (slices cs queries.rows) with
    | (s', .error e) => (s', .error e)
    | (s', .ok parts) => (s', concatenate parts)
  else raw s queries.rows

/-- The native `search` of an index. -/
def rawSearch (P : Platform) (T : Tables) (S : ScanKernels) (cols : ℕ) (k : Option ℕ) (mask : Keyword Bool)
    (x : TurboQuantIndex) (rows : List (List F32)) : TurboQuantIndex × Except Raised (Arrays ℤ) :=
  match k with
  | none => (x, .error .size)
  | some k =>
    match mask.extract with
    | .error e => (x, .error e)
    | .ok mask =>
      match x.dim.filter (· ≠ cols) with
      | some dim => (x, .error (.dimMismatch cols dim))
      | none =>
        match firstInvalidCoord rows.flatten cols with
        | some (i, j, v) => (x, .error (.invalidQueryValue i j v))
        | none =>
          match (mask.map List.length).filter (· ≠ x.nVectors) with
          | some got => (x, .error (.maskLength got x.nVectors))
          | none =>
            match x.trySearchWithOptions P T S rows.flatten k mask none with
            | (x', some (.ok res)) => (x', shaped res.scores res.indices rows.length res.k)
            | (x', _) => (x', .error .panic)

/-- The native `search` of an index with ids. -/
def rawSearchIds (P : Platform) (T : Tables) (S : ScanKernels) (cols : ℕ) (k : Option ℕ) (allowlist : Keyword UInt64)
    (x : IdMapIndex) (rows : List (List F32)) : IdMapIndex × Except Raised (Arrays UInt64) :=
  match k with
  | none => (x, .error .size)
  | some k =>
    match allowlist.extract with
    | .error e => (x, .error e)
    | .ok (some []) => (x, .error .allowlistEmpty)
    | .ok allow =>
      match x.inner.dim.filter (· ≠ cols) with
      | some dim => (x, .error (.dimMismatch cols dim))
      | none =>
        match firstInvalidCoord rows.flatten cols with
        | some (i, j, v) => (x, .error (.invalidQueryValue i j v))
        | none =>
          let x' := if allow.isSome then x.ids else x
          let unknown := ((allow.getD []).filter fun id => (x.table id).isNone).take 6
          if unknown ≠ [] then (x', .error (.unknownIds (unknown.take 5) (decide (5 < unknown.length))))
          else
            match x'.trySearchWithAllowlist P T S rows.flatten k allow with
            | (x'', some (.ok res)) =>
              let effectiveK := if rows.length = 0 then
                  min (min k x''.inner.nVectors) ((allow.map fun l => l.dedup.length).getD x''.inner.nVectors)
                else res.scores.length / rows.length
              (x'', shaped res.scores res.ids rows.length effectiveK)
            | (x'', some (.error e)) => (x'', .error (.core e))
            | (x'', none) => (x'', .error .panic)

/-! ## Slices of a search -/

section parts

variable {σ α β : Type} {raw : σ → List (List F32) → σ × Except Raised (Arrays β)} {cols : ℕ} {s y : σ}

/-- A search whose good parts are all refused alike, or all answered by the answers of their rows. -/
inductive Steady (cols : ℕ) (raw : σ → List (List F32) → σ × Except Raised (Arrays β)) (s : σ) : Prop
  | refused (y : σ) (e : Raised) (h : ∀ part, Good cols part → raw s part = (y, .error e))
  | answered (y : σ) (f : List F32 → List F32) (g : List F32 → Option (List β)) (width : ℕ)
      (h : ∀ z, z = s ∨ z = y → ∀ part, Good cols part → raw z part = (y, match part.mapM g with
        | none => .error .panic
        | some ids => .ok ⟨part.flatMap f, ids.flatten, part.length, width⟩))

/-- Good slices one after the other collect the answers of all their rows. -/
theorem searchSlices_answered {f : List F32 → List F32} {g : List F32 → Option (List β)} {width : ℕ}
    (h : ∀ z, z = s ∨ z = y → ∀ part, Good cols part → raw z part = (y, match part.mapM g with
      | none => .error .panic
      | some ids => .ok ⟨part.flatMap f, ids.flatten, part.length, width⟩))
    {parts : List (List (List F32))} (hgood : ∀ part ∈ parts, Good cols part) (hsome : parts ≠ []) {z : σ}
    (hz : z = s ∨ z = y) :
    ∃ out, searchSlices raw z parts = (y, out) ∧ match parts.flatten.mapM g with
      | none => out = .error .panic
      | some ids => ∃ as, out = .ok as ∧ as ≠ [] ∧ as.flatMap (·.scores) = parts.flatten.flatMap f ∧
          as.flatMap (·.ids) = ids.flatten ∧ (as.map (·.nq)).sum = parts.flatten.length ∧ ∀ a ∈ as, a.k = width := by
  induction parts generalizing z with
  | nil => exact absurd rfl hsome
  | cons part parts ih =>
    rw [searchSlices, h z hz part (hgood part List.mem_cons_self), List.flatten_cons, List.mapM_append]
    cases hids : part.mapM g with
    | none => exact ⟨_, rfl, rfl⟩
    | some ids =>
      dsimp only
      by_cases hlast : parts = []
      · subst hlast
        refine ⟨_, rfl, ?_⟩
        simp
      · obtain ⟨out, hout, hrest⟩ := ih (fun p hp => hgood p (List.mem_cons_of_mem part hp)) hlast (Or.inr rfl)
        rw [hout]
        cases hids' : parts.flatten.mapM g with
        | none =>
          rw [hids'] at hrest
          dsimp only at hrest
          subst hrest
          exact ⟨_, rfl, rfl⟩
        | some ids' =>
          rw [hids'] at hrest
          dsimp only at hrest
          obtain ⟨as, rfl, -, hscores, hall, hsum, hwidth⟩ := hrest
          refine ⟨_, rfl, _, rfl, List.cons_ne_nil _ _, ?_, ?_, ?_, ?_⟩
          · rw [List.flatMap_cons, hscores, List.flatMap_append]
          · rw [List.flatMap_cons, hall, List.flatten_append]
          · rw [List.map_cons, List.sum_cons, hsum, List.length_append]
          · intro a ha
            rcases List.mem_cons.mp ha with rfl | ha
            · rfl
            · exact hwidth a ha

/-- A sliced search is the unsliced one. -/
theorem Steady.search (h : Steady cols raw s) (queries : Batch) (hcols : queries.cols = cols) (keyword : Keyword α)
    (cs : ℤ) : Sliced.search raw s queries keyword cs = raw s queries.rows := by
  unfold Sliced.search
  split
  next hgo =>
    simp only [Bool.and_eq_true, finiteOk_iff, chunkable2d, decide_eq_true_eq] at hgo
    obtain ⟨⟨⟨⟨hcs, -⟩, hbig⟩, -⟩, hfin⟩ := hgo
    subst hcols
    have hrows : queries.rows ≠ [] := by
      rintro hnil
      rw [hnil, List.length_nil] at hbig
      omega
    have hwhole : Good queries.cols queries.rows := ⟨hrows, queries.wide, hfin⟩
    have hsome : slices cs queries.rows ≠ [] := slices_nonempty hrows
    have hgood : ∀ part ∈ slices cs queries.rows, Good queries.cols part := fun part hp =>
      ⟨slicesOf_ne_nil (by omega) part hp, fun r hr => queries.wide r (mem_of_slices hcs hp hr),
        fun r hr => hfin r (mem_of_slices hcs hp hr)⟩
    cases h with
    | refused y e h =>
      obtain ⟨part, parts, hparts⟩ := List.exists_cons_of_ne_nil hsome
      rw [h queries.rows hwhole, hparts, searchSlices, h part (hgood part (hparts ▸ List.mem_cons_self))]
    | answered y f g width h =>
      obtain ⟨out, hout, hcases⟩ := searchSlices_answered h hgood hsome (Or.inl rfl)
      rw [hout, h s (Or.inl rfl) queries.rows hwhole]
      rw [flatten_slices hcs] at hcases
      cases hids : queries.rows.mapM g with
      | none =>
        rw [hids] at hcases
        dsimp only at hcases
        rw [hcases]
      | some ids =>
        rw [hids] at hcases
        dsimp only at hcases
        obtain ⟨as, rfl, has, hscores, hall, hsum, hwidth⟩ := hcases
        obtain ⟨a, as, rfl⟩ := List.exists_cons_of_ne_nil has
        dsimp only
        rw [concatenate, if_pos, hscores, hall, hsum, hwidth a List.mem_cons_self]
        rw [List.all_eq_true]
        intro b hb
        rw [decide_eq_true_eq, hwidth a List.mem_cons_self, hwidth b (List.mem_cons_of_mem a hb)]
  next => rfl

end parts

/-! ## The native searches are steady -/

section steady

variable {P : Platform} {T : Tables} {S : ScanKernels} {cols : ℕ}

theorem length_flatMap_lane {β : Type} {f : List F32 → List β} {lane : ℕ} {part : List (List F32)}
    (hw : ∀ r ∈ part, r.length = cols) (hf : ∀ r, r.length = cols → (f r).length = lane) :
    (part.flatMap f).length = part.length * lane := by
  induction part with
  | nil => simp
  | cons r part ih =>
    rw [List.flatMap_cons, List.length_append, hf r (hw r List.mem_cons_self),
      ih fun s hs => hw s (List.mem_cons_of_mem r hs), List.length_cons, Nat.succ_mul, Nat.add_comm]

theorem length_flatten_lane {β : Type} {g : List F32 → Option (List β)} {lane : ℕ} {part : List (List F32)}
    {ids : List (List β)} (h : List.Forall₂ (fun r l => g r = some l) part ids)
    (hl : ∀ r ∈ part, ∀ l, g r = some l → l.length = lane) : ids.flatten.length = part.length * lane := by
  induction h with
  | nil => simp
  | @cons r l part ids hrl _ ih =>
    rw [List.flatten_cons, List.length_append, hl r List.mem_cons_self l hrl,
      ih fun s hs => hl s (List.mem_cons_of_mem r hs), List.length_cons, Nat.succ_mul, Nat.add_comm]

theorem mapM_flatMap {α β γ : Type} (idOf : β → Option γ) (g : α → List β) (part : List α) :
    (part.flatMap g).mapM idOf = (part.mapM fun r => (g r).mapM idOf).map List.flatten := by
  induction part with
  | nil => rfl
  | cons r part ih =>
    rw [List.flatMap_cons, List.mapM_append, List.mapM_cons, ih]
    cases (g r).mapM idOf with
    | none => rfl
    | some ids =>
      cases part.mapM fun r => (g r).mapM idOf with
      | none => rfl
      | some rest => rfl

theorem filter_dim {d : Option ℕ} (h : d.filter (· ≠ cols) = none) : ∀ n, d = some n → n = cols := by
  rintro n rfl
  by_contra hn
  rw [Option.filter_some, if_pos (by simpa using hn)] at h
  cases h

/-- The native search of an index is steady. -/
theorem rawSearch_steady (hS : QueryWise S) (x : TurboQuantIndex) (hclassic : Classic P T x)
    (hpos : ∀ d, x.dim = some d → 0 < d) (k : Option ℕ)
    (mask : Keyword Bool) : Steady cols (rawSearch P T S cols k mask) x := by
  cases k with
  | none => exact .refused x .size fun _ _ => rfl
  | some k =>
    cases hmask : mask.extract with
    | error e =>
      refine .refused x e fun part _ => ?_
      rw [rawSearch, hmask]
    | ok mask' =>
      cases hdim : x.dim.filter (· ≠ cols) with
      | some dim =>
        refine .refused x (.dimMismatch cols dim) fun part _ => ?_
        rw [rawSearch, hmask]
        dsimp only
        rw [hdim]
      | none =>
        cases hlen : (mask'.map List.length).filter (· ≠ x.nVectors) with
        | some got =>
          refine .refused x (.maskLength got x.nVectors) fun part hgood => ?_
          rw [rawSearch, hmask]
          dsimp only
          rw [hdim, hgood.coords]
          dsimp only
          rw [hlen]
        | none =>
          -- past the checks the core is asked
          have hpast (z : TurboQuantIndex) (hzd : z.dim = x.dim) (hzn : z.nVectors = x.nVectors)
              (part : List (List F32)) (hgood : Good cols part) :
              rawSearch P T S cols (some k) mask z part =
                match z.trySearchWithOptions P T S part.flatten k mask' none with
                | (x', some (.ok res)) => (x', shaped res.scores res.indices part.length res.k)
                | (x', _) => (x', .error .panic) := by
            rw [rawSearch, hmask]
            dsimp only
            rw [hzd, hdim, hgood.coords]
            dsimp only
            rw [hzn, hlen]
          obtain ⟨y, hyd, hyn, hrefused | ⟨f, g, width, lane, hlane, hall⟩⟩ := search_parts (P := P) (T := T)
            hS x hclassic k mask' fun d hd => ⟨filter_dim hdim d hd, hpos d hd⟩
          · obtain ⟨o, ho, hall⟩ := hrefused
            refine .refused y .panic fun part hgood => ?_
            rw [hpast x rfl rfl part hgood, hall part hgood]
            cases o with
            | none => rfl
            | some r =>
              cases r with
              | error e => rfl
              | ok res => exact absurd rfl (ho res)
          · have hres (z : TurboQuantIndex) (hz : z = x ∨ z = y) (part : List (List F32)) (hgood : Good cols part) :
                rawSearch P T S cols (some k) mask z part =
                  (y, shaped (part.flatMap f) (part.flatMap g) part.length width) := by
              have hsame : z.dim = x.dim ∧ z.nVectors = x.nVectors := by
                rcases hz with rfl | rfl
                · exact ⟨rfl, rfl⟩
                · exact ⟨hyd, hyn⟩
              obtain ⟨nq, hans⟩ := hall z hz part hgood
              rw [hpast z hsame.1 hsame.2 part hgood, hans]
            have hlens (part : List (List F32)) (hgood : Good cols part) :
                (part.flatMap f).length = part.length * lane ∧ (part.flatMap g).length = part.length * lane :=
              ⟨length_flatMap_lane hgood.wide fun r hr => (hlane r hr).1,
                length_flatMap_lane hgood.wide fun r hr => (hlane r hr).2⟩
            by_cases hwl : lane = width
            · refine .answered y f (fun r => some (g r)) width fun z hz part hgood => ?_
              rw [hres z hz part hgood, Slice.mapM_some (g := g) fun _ _ => rfl]
              obtain ⟨hl, hl'⟩ := hlens part hgood
              rw [shaped, if_pos (hwl ▸ ⟨hl, hl'⟩), List.flatMap_def]
              rfl
            · refine .refused y .shape fun part hgood => ?_
              rw [hres x (Or.inl rfl) part hgood, shaped, if_neg]
              rw [(hlens part hgood).1]
              rintro ⟨h, -⟩
              exact hwl (Nat.eq_of_mul_eq_mul_left (List.length_pos_iff.mpr hgood.some) h)

theorem ids_of_built {x : IdMapIndex} (h : x.idToSlot ≠ none) : x.ids = x := by
  unfold IdMapIndex.ids
  cases hm : x.idToSlot with
  | none => exact absurd hm h
  | some m => rfl

theorem built_ids (x : IdMapIndex) : x.ids.idToSlot ≠ none := by
  unfold IdMapIndex.ids
  cases hm : x.idToSlot with
  | none => exact nofun
  | some m => rw [hm]; exact nofun

theorem table_ids (x : IdMapIndex) : x.ids.table = x.table := by
  unfold IdMapIndex.ids
  cases hm : x.idToSlot with
  | none => rfl
  | some m => rfl

/-- Every good part gets the same refusal, or its own rows' answers with their ids. -/
theorem allowlist_parts (hS : QueryWise S) (x : IdMapIndex) (hclassic : Classic P T x.inner) (k : ℕ)
    (allow : Option (List UInt64))
    (hbuilt : allow.isSome = true → x.idToSlot ≠ none)
    (hdim : ∀ d, x.inner.dim = some d → d = cols ∧ 0 < d) :
    ∃ y, y.inner.dim = x.inner.dim ∧ y.idToSlot = x.idToSlot ∧ y.slotToId = x.slotToId ∧
      ((∃ o, (∀ res, o ≠ some (.ok res)) ∧ ∀ part, Good cols part →
        x.trySearchWithAllowlist P T S part.flatten k allow = (y, o)) ∨
      ∃ (f : List F32 → List F32) (g : List F32 → Option (List UInt64)) (lane : ℕ),
        (∀ r, r.length = cols → (f r).length = lane ∧ ∀ l, g r = some l → l.length = lane) ∧
        ∀ z, z = x ∨ z = y → ∀ part, Good cols part → ∃ nq width,
          z.trySearchWithAllowlist P T S part.flatten k allow =
            (y, (part.mapM g).map fun ids => .ok ⟨part.flatMap f, ids.flatten, nq, width⟩)) := by
  -- the search under a mask
  have hmasked (mask : Option (List Bool)) (run : IdMapIndex → List F32 → IdMapIndex × Option (Except SearchError
      IdMapIndex.IdSearchResults)) (hrun : ∀ z, z.slotToId = x.slotToId → z.idToSlot = x.idToSlot →
        z.inner.nVectors = x.inner.nVectors → ∀ queries, run z queries = z.searchMasked P T S queries k mask) :
      ∃ y, y.inner.dim = x.inner.dim ∧ y.idToSlot = x.idToSlot ∧ y.slotToId = x.slotToId ∧
        ((∃ o, (∀ res, o ≠ some (.ok res)) ∧ ∀ part, Good cols part → run x part.flatten = (y, o)) ∨
        ∃ (f : List F32 → List F32) (g : List F32 → Option (List UInt64)) (lane : ℕ),
          (∀ r, r.length = cols → (f r).length = lane ∧ ∀ l, g r = some l → l.length = lane) ∧
          ∀ z, z = x ∨ z = y → ∀ part, Good cols part → ∃ nq width, run z part.flatten =
            (y, (part.mapM g).map fun ids => .ok ⟨part.flatMap f, ids.flatten, nq, width⟩)) := by
    obtain ⟨inner, hd, hn, hrefused | ⟨f, g, width, lane, hlane, hall⟩⟩ := search_parts (P := P) (T := T)
      hS x.inner hclassic k mask hdim
    · obtain ⟨o, ho, hall⟩ := hrefused
      cases o with
      | none =>
        refine ⟨{ x with inner }, hd, rfl, rfl, Or.inl ⟨none, (fun _ h => by cases h), fun part hgood => ?_⟩⟩
        rw [hrun x rfl rfl rfl, IdMapIndex.searchMasked, hall part hgood]
      | some r =>
        cases r with
        | error e =>
          refine ⟨{ x with inner }, hd, rfl, rfl, Or.inl ⟨some (.error e), (fun _ h => by cases h), fun part hgood => ?_⟩⟩
          rw [hrun x rfl rfl rfl, IdMapIndex.searchMasked, hall part hgood]
        | ok res => exact absurd rfl (ho res)
    · refine ⟨{ x with inner }, hd, rfl, rfl, Or.inr ⟨f, fun r => (g r).mapM x.idOf, lane, ?_, ?_⟩⟩
      · intro r hr
        refine ⟨(hlane r hr).1, fun l hl => ?_⟩
        rw [← (hlane r hr).2]
        exact (List.Forall₂.length_eq (mapM_eq_some.mp hl)).symm
      · intro z hz part hgood
        have hinner : z.inner = x.inner ∨ z.inner = inner := by
          rcases hz with rfl | rfl
          · exact Or.inl rfl
          · exact Or.inr rfl
        have hzn : z.inner.nVectors = x.inner.nVectors := by
          rcases hz with rfl | rfl
          · rfl
          · exact hn
        have hids : z.slotToId = x.slotToId ∧ z.idToSlot = x.idToSlot ∧
            ({ z with inner } : IdMapIndex) = { x with inner } := by
          rcases hz with rfl | rfl
          · exact ⟨rfl, rfl, rfl⟩
          · exact ⟨rfl, rfl, rfl⟩
        obtain ⟨nq, hans⟩ := hall z.inner hinner part hgood
        refine ⟨nq, width, ?_⟩
        rw [hrun z hids.1 hids.2.1 hzn, IdMapIndex.searchMasked, hans]
        dsimp only
        rw [hids.2.2, show z.idOf = x.idOf from by funext slot; rw [IdMapIndex.idOf, IdMapIndex.idOf, hids.1],
          mapM_flatMap, Option.map_map]
        rfl
  cases allow with
  | none => exact hmasked none (fun z queries => z.trySearchWithAllowlist P T S queries k none) fun _ _ _ _ _ => rfl
  | some l =>
    have hb := hbuilt rfl
    have hsame (z : IdMapIndex) (hz : z.slotToId = x.slotToId) (hm : z.idToSlot = x.idToSlot) :
        z.ids = z ∧ z.table = x.table := by
      refine ⟨ids_of_built (hm ▸ hb), ?_⟩
      rw [IdMapIndex.table, IdMapIndex.table, hz, hm]
    cases l with
    | nil => exact ⟨x, rfl, rfl, rfl, Or.inl ⟨some (.error .allowlistEmpty), (fun _ h => by cases h), fun part _ => rfl⟩⟩
    | cons id ids =>
      cases hmask : IdMapIndex.maskOf x.table (id :: ids) (List.replicate x.inner.nVectors false) with
      | none =>
        refine ⟨x, rfl, rfl, rfl, Or.inl ⟨none, (fun _ h => by cases h), fun part _ => ?_⟩⟩
        rw [IdMapIndex.trySearchWithAllowlist, hmask, (hsame x rfl rfl).1]
      | some r =>
        cases r with
        | error e =>
          refine ⟨x, rfl, rfl, rfl, Or.inl ⟨some (.error e), (fun _ h => by cases h), fun part _ => ?_⟩⟩
          rw [IdMapIndex.trySearchWithAllowlist, hmask, (hsame x rfl rfl).1]
        | ok mask =>
          refine hmasked (some mask) (fun z queries => z.trySearchWithAllowlist P T S queries k (some (id :: ids))) ?_
          intro z hz hm hn queries
          rewrite [IdMapIndex.trySearchWithAllowlist, (hsame z hz hm).2, hn, hmask, (hsame z hz hm).1]
          rfl

/-- The native search of an index with ids is steady. -/
theorem rawSearchIds_steady (hS : QueryWise S) (x : IdMapIndex) (hclassic : Classic P T x.inner)
    (hpos : ∀ d, x.inner.dim = some d → 0 < d)
    (k : Option ℕ) (allowlist : Keyword UInt64) : Steady cols (rawSearchIds P T S cols k allowlist) x := by
  cases k with
  | none => exact .refused x .size fun _ _ => rfl
  | some k =>
    cases hallow : allowlist.extract with
    | error e =>
      refine .refused x e fun part _ => ?_
      rw [rawSearchIds, hallow]
    | ok allow =>
      by_cases hnil : allow = some []
      · subst hnil
        refine .refused x .allowlistEmpty fun part _ => ?_
        rw [rawSearchIds, hallow]
      · cases hdim : x.inner.dim.filter (· ≠ cols) with
        | some dim =>
          refine .refused x (.dimMismatch cols dim) fun part _ => ?_
          rw [rawSearchIds, hallow]
          split
          next h => cases h
          next h => exact absurd (Except.ok.inj h) hnil
          next h =>
            cases h
            rw [hdim]
        | none =>
          let x' := if allow.isSome then x.ids else x
          let unknown := ((allow.getD []).filter fun id => (x.table id).isNone).take 6
          have hinner : x'.inner = x.inner := by
            show (if allow.isSome then x.ids else x).inner = x.inner
            split
            · exact IdMapIndex.Coherent.inner_ids x
            · rfl
          have hbuilt : allow.isSome = true → x'.idToSlot ≠ none := by
            intro h
            show (if allow.isSome then x.ids else x).idToSlot ≠ none
            rw [if_pos h]
            exact built_ids x
          -- past the first checks
          have hpast (z : IdMapIndex) (hz : z = x ∨ (z.inner.dim = x'.inner.dim ∧ z.idToSlot = x'.idToSlot ∧
              z.slotToId = x'.slotToId)) (part : List (List F32)) (hgood : Good cols part) :
              rawSearchIds P T S cols (some k) allowlist z part =
                let z' := if allow.isSome then z.ids else z
                if unknown ≠ [] then (z', .error (.unknownIds (unknown.take 5) (decide (5 < unknown.length))))
                else
                  match z'.trySearchWithAllowlist P T S part.flatten k allow with
                  | (x'', some (.ok res)) => (x'', shaped res.scores res.ids part.length (res.scores.length / part.length))
                  | (x'', some (.error e)) => (x'', .error (.core e))
                  | (x'', none) => (x'', .error .panic) := by
            have hzd : z.inner.dim = x.inner.dim := by
              rcases hz with rfl | ⟨hd, -, -⟩
              · rfl
              · exact hd.trans (congrArg TurboQuantIndex.dim hinner)
            have hztab : allow.isSome = true → z.table = x.table := by
              intro hsome
              rcases hz with rfl | ⟨-, hm, hs⟩
              · rfl
              · rw [show z.table = x'.table by rw [IdMapIndex.table, IdMapIndex.table, hm, hs]]
                show (if allow.isSome then x.ids else x).table = x.table
                rw [if_pos hsome, table_ids]
            have hunknown : ((allow.getD []).filter fun id => (z.table id).isNone).take 6 = unknown := by
              cases allow with
              | none => rfl
              | some l => rw [hztab rfl]
            rw [rawSearchIds, hallow]
            split
            next h => cases h
            next h => exact absurd (Except.ok.inj h) hnil
            next h =>
              cases h
              rw [hzd, hdim, hgood.coords]
              dsimp only
              rw [hunknown]
              have hcount : part.length ≠ 0 := fun h => hgood.some (List.eq_nil_of_length_eq_zero h)
              split
              · rfl
              · rfl
          have hx' : (if allow.isSome then x.ids else x) = x' := rfl
          by_cases hun : unknown = []
          · obtain ⟨y, hyd, hym, hys, hrefused | ⟨f, g, lane, hlane, hall⟩⟩ := allowlist_parts (P := P) (T := T)
              hS x' (hinner ▸ hclassic) k allow hbuilt fun d hd => by
                rw [hinner] at hd
                exact ⟨filter_dim hdim d hd, hpos d hd⟩
            · obtain ⟨o, ho, hall⟩ := hrefused
              have hres (part : List (List F32)) (hgood : Good cols part) := hpast x (Or.inl rfl) part hgood
              cases o with
              | none =>
                refine .refused y .panic fun part hgood => ?_
                rw [hres part hgood]
                dsimp only
                rw [if_neg (not_not.mpr hun), hx', hall part hgood]
              | some r =>
                cases r with
                | error e =>
                  refine .refused y (.core e) fun part hgood => ?_
                  rw [hres part hgood]
                  dsimp only
                  rw [if_neg (not_not.mpr hun), hx', hall part hgood]
                | ok res => exact absurd rfl (ho res)
            · refine .answered y f g lane fun z hz part hgood => ?_
              -- both indexes ask the core alike
              have hask : ∃ z', (z' = x' ∨ z' = y) ∧ rawSearchIds P T S cols (some k) allowlist z part =
                  match z'.trySearchWithAllowlist P T S part.flatten k allow with
                  | (x'', some (.ok res)) => (x'', shaped res.scores res.ids part.length (res.scores.length / part.length))
                  | (x'', some (.error e)) => (x'', .error (.core e))
                  | (x'', none) => (x'', .error .panic) := by
                rcases hz with rfl | rfl
                · refine ⟨x', Or.inl rfl, ?_⟩
                  rw [hpast z (Or.inl rfl) part hgood]
                  dsimp only
                  rw [if_neg (not_not.mpr hun)]
                · refine ⟨z, Or.inr rfl, ?_⟩
                  rw [hpast z (Or.inr ⟨hyd, hym, hys⟩) part hgood]
                  dsimp only
                  rw [if_neg (not_not.mpr hun)]
                  by_cases hsome : allow.isSome = true
                  · rw [if_pos hsome, ids_of_built (hym ▸ hbuilt hsome)]
                  · rw [if_neg hsome]
              obtain ⟨z', hz', hask⟩ := hask
              obtain ⟨nq, width, hans⟩ := hall z' hz' part hgood
              rw [hask, hans]
              have hpart : 0 < part.length := List.length_pos_iff.mpr hgood.some
              have hscores : (part.flatMap f).length = part.length * lane :=
                length_flatMap_lane hgood.wide fun r hr => (hlane r hr).1
              cases hids : part.mapM g with
              | none => rfl
              | some ids =>
                have hlens : ids.flatten.length = part.length * lane :=
                  length_flatten_lane (mapM_eq_some.mp hids) fun r hr => (hlane r (hgood.wide r hr)).2
                show (y, shaped (part.flatMap f) ids.flatten part.length ((part.flatMap f).length / part.length)) = _
                rw [hscores, Nat.mul_div_cancel_left _ hpart, shaped, if_pos ⟨hscores, hlens⟩]
          · refine .refused x' (.unknownIds (unknown.take 5) (decide (5 < unknown.length))) fun part hgood => ?_
            rw [hpast x (Or.inl rfl) part hgood]
            dsimp only
            rw [if_pos hun]

end steady

/-! ## Runs -/

/-- Five rows of zeros. -/
def fiveRows : Batch := ⟨true, 8, List.replicate 5 (List.replicate 8 0), by
  intro r hr
  rw [List.eq_of_mem_replicate hr, List.length_replicate]⟩

section runs

variable {P : Platform} {T : Tables} {K : Kernels} {S : ScanKernels} {y : TurboQuantIndex}

/-- An index that keeps its invariants holds some content. -/
theorem holds_of_kept {x : TurboQuantIndex} {rows : List (List UInt8)} (h : Kept P T x rows) :
    Holds P T x ⟨x.dim, x.bitWidth, rows, x.scales, x.tqplusShift, x.tqplusScale⟩ :=
  ⟨h.rep, h.keyed, rfl, rfl, rfl, rfl, rfl⟩

/-- In every state of every run, for every chunk size, a sliced add ends as the whole one: with the same outcome and the
same content, and under an id map with the same ids. -/
theorem sliced_adds (hK : K.Sized) (hfit : K.Paired) (hrow : RowWise K) :
    (∀ calls : List TurboQuantIndex.Call, Begun P T y → (∀ c ∈ calls, c.Guarded) → ∀ (vectors : Batch) cs,
      SameEnd P (rawAdd P T K vectors.cols (y.run P T K S calls) vectors.rows)
        (add P T K (y.run P T K S calls) vectors cs)) ∧
    ∀ x : IdMapIndex, IdMapIndex.Ran P T K S y x → ∀ (vectors : Batch) ids plainIds cs,
      SameIdsEnd P (rawAddWithIds P T K vectors.cols x (vectors.rows, ids))
        (addWithIds P T K x vectors ids plainIds cs) := by
  constructor
  · intro calls hy hg
    obtain ⟨rows, h⟩ := hy.kept
    obtain ⟨rows', h'⟩ := h.run (S := S) hK hfit calls hg
    exact (holds_of_kept h').add hK hrow
  · intro x hx
    obtain ⟨hy, calls, hg, hinner⟩ := hx.inner
    obtain ⟨rows, h⟩ := hy.kept
    obtain ⟨rows', h'⟩ := h.run (S := S) hK hfit calls hg
    rw [← hinner] at h'
    exact (holds_of_kept h').addWithIds hx.coherent hK hrow

/-- Five rows added in slices of two, to an index that was searched and to an id map. -/
theorem sliced_adds_five :
    SameEnd plainHost
        (rawAdd plainHost levelTables Encode.intSetting.kernels 8
          (twoRows.run plainHost levelTables Encode.intSetting.kernels zeroScan [.search (List.replicate 8 0) 1 none none]) fiveRows.rows)
        (add plainHost levelTables Encode.intSetting.kernels
          (twoRows.run plainHost levelTables Encode.intSetting.kernels zeroScan [.search (List.replicate 8 0) 1 none none]) fiveRows 2) ∧
      SameIdsEnd plainHost
        (rawAddWithIds plainHost levelTables Encode.intSetting.kernels 8 IdMapIndex.twoIds (fiveRows.rows, [1, 2, 3, 4, 5]))
        (addWithIds plainHost levelTables Encode.intSetting.kernels IdMapIndex.twoIds fiveRows [1, 2, 3, 4, 5] true 2) := by
  have hbegun : Begun plainHost levelTables twoRows := .opened twoRows_opened
  obtain ⟨hindex, hids⟩ := sliced_adds (P := plainHost) (T := levelTables) (S := zeroScan) (y := twoRows)
    Encode.intSetting.kernels_sized Encode.intSetting.kernels_paired (encoder_rowWise Encode.intSetting)
  refine ⟨hindex _ hbegun ?_ fiveRows 2, hids _ (.fromParts hbegun [] (by simp) IdMapIndex.twoIds_ok) fiveRows _ true 2⟩
  intro c hc
  obtain rfl := List.mem_singleton.mp hc
  trivial

/-- In every state of every run, for every chunk size, a sliced search over a cache that is not planes is the whole one:
the same answer, the same error, and the same index behind. -/
theorem sliced_searches (hK : K.Sized) (hfit : K.Paired) (hS : QueryWise S) :
    (∀ calls : List TurboQuantIndex.Call, Begun P T y → (∀ c ∈ calls, c.Guarded) →
      Classic P T (y.run P T K S calls) → ∀ (queries : Batch) k (mask : Keyword Bool) cs,
        search (rawSearch P T S queries.cols k mask) (y.run P T K S calls) queries mask cs =
          rawSearch P T S queries.cols k mask (y.run P T K S calls) queries.rows) ∧
    ∀ x : IdMapIndex, IdMapIndex.Ran P T K S y x → Classic P T x.inner →
      ∀ (queries : Batch) k (allowlist : Keyword UInt64) cs,
        search (rawSearchIds P T S queries.cols k allowlist) x queries allowlist cs =
          rawSearchIds P T S queries.cols k allowlist x queries.rows := by
  constructor
  · intro calls hy hg hclassic queries k mask cs
    obtain ⟨rows, h⟩ := hy.kept
    obtain ⟨rows', h'⟩ := h.run (S := S) hK hfit calls hg
    have hpos : ∀ d, (y.run P T K S calls).dim = some d → 0 < d := fun d hd =>
      Nat.lt_of_lt_of_le (by decide) (h'.rep.dims d hd).2
    exact (rawSearch_steady hS _ hclassic hpos k mask).search queries rfl mask cs
  · intro x hx hclassic queries k allowlist cs
    obtain ⟨hy, calls, hg, hinner⟩ := hx.inner
    obtain ⟨rows, h⟩ := hy.kept
    obtain ⟨rows', h'⟩ := h.run (S := S) hK hfit calls hg
    rw [← hinner] at h'
    have hpos : ∀ d, x.inner.dim = some d → 0 < d := fun d hd => Nat.lt_of_lt_of_le (by decide) (h'.rep.dims d hd).2
    exact (rawSearchIds_steady hS x hclassic hpos k allowlist).search queries rfl allowlist cs

/-- A query scores every other row alike, which ones by its first coordinate. -/
def fiveScan : ScanKernels :=
  Scan.classicScan Scan.armHost fun _ query => Scan.tiedScore (query.headD 0).bits.toNat

/-- Five queries in slices of two, over the index and over the id map of its rows. -/
theorem sliced_searches_five :
    search (rawSearch plainHost levelTables fiveScan 8 (some 1) .absent) twoRows fiveRows
          (.absent : Keyword Bool) 2 =
        rawSearch plainHost levelTables fiveScan 8 (some 1) .absent twoRows fiveRows.rows ∧
      search (rawSearchIds plainHost levelTables fiveScan 8 (some 1) (.array true [9])) IdMapIndex.twoIds fiveRows
          (.array true [9]) 2 =
        rawSearchIds plainHost levelTables fiveScan 8 (some 1) (.array true [9]) IdMapIndex.twoIds fiveRows.rows := by
  have hbegun : Begun plainHost levelTables twoRows := .opened twoRows_opened
  have hclassic : Classic plainHost levelTables twoRows := by
    intro dim cache hd hcache
    obtain rfl : 8 = dim := Option.some.inj hd
    have hplanes : (twoRows.prepared plainHost levelTables 8).blocked.map BlockedCache.isPlanes = some false := by
      decide +kernel
    rw [hcache] at hplanes
    exact Option.some.inj hplanes
  obtain ⟨hindex, hids⟩ := sliced_searches (P := plainHost) (T := levelTables) (S := fiveScan) (y := twoRows)
    zeroKernels_sized zeroKernels_paired (classicScan_queryWise Scan.armHost _)
  exact ⟨hindex [] hbegun (by simp) hclassic fiveRows (some 1) .absent 2,
    hids _ (.fromParts hbegun [] (by simp) IdMapIndex.twoIds_ok) hclassic fiveRows (some 1) (.array true [9]) 2⟩

end runs

end Turbovec.Sliced
