import Turbovec.Index.Rows

/-!
# The stores of an index in every run

A loaded image stores the rows its regions decode to, and from there on, in any run, the packed buffer and
the search cache are two forms of one list.
-/

namespace Turbovec

open Pack IoV7 Slice Grid

/-! ## A loaded image -/

/-- What a load promises of its regions. -/
structure IoV7.V7Load.Stored (l : V7Load) : Prop where
  bits : ValidBits l.bitWidth
  dim_mod : l.dim % 8 = 0
  dim_zero : l.dim = 0 → l.nVectors = 0
  scales : l.scales.length = l.nVectors
  seq : l.layout ≠ LAYOUT_PLANES →
    ∃ code, SeqHold (l.dim / codesPerByte l.bitWidth) l.nVectors code l.seqBlocked
  planes : l.layout = LAYOUT_PLANES → PlanesBits l.bitWidth ∧ ∃ f,
    (∀ v < l.nVectors, (f v).length = l.bitWidth * (l.dim / 8)) ∧
      CanonicalHold l.bitWidth l.dim l.nVectors f l.sign l.low

theorem stored_of_loadImage {T : Tables} {raw : List UInt8} {g kind : ℕ} {l : V7Load}
    (h : loadImage T raw g kind = .ok l) : l.Stored := by
  obtain ⟨img, himg, -, hl⟩ := loadImage_ok h
  obtain ⟨hv, -, -⟩ := parseImage_ok himg
  constructor
  · rw [hl.bitWidth]
    exact hv.geo.bits
  · rw [hl.dim]
    exact hv.geo.dim_mod
  · rw [hl.dim, hl.nVectors]
    exact hv.dim_zero
  · rw [hl.scales, hl.nVectors, List.length_map, List.length_range]
  · intro hlay
    rw [hl.layout] at hlay
    obtain ⟨hseq, -⟩ := hl.seq hlay
    rw [img.geo.rowBytes_eq] at hseq
    rw [hl.dim, hl.bitWidth, hl.nVectors]
    exact ⟨_, hseq⟩
  · intro hlay
    rw [hl.layout] at hlay
    obtain ⟨hcanon, -⟩ := hl.planes hlay
    rw [hl.dim, hl.bitWidth, hl.nVectors]
    exact ⟨hv.geo.planesBits hlay, _, fun v _ => length_packRow _ _ _, hcanon⟩

section Load

variable {P : Platform} {T : Tables} {l : V7Load}

theorem IoV7.V7Load.length_rows (l : V7Load) : l.rows.length = l.nVectors := by
  unfold V7Load.rows
  dsimp only
  split
  · exact length_rowsOf
  · rw [List.length_map, List.length_range]

/-- Row `v` of a sequential image. -/
theorem getD_rows_seq (hlay : l.layout ≠ LAYOUT_PLANES) {v : ℕ} (hv : v < l.nVectors) :
    l.rows.getD v [] =
      packRow l.bitWidth l.dim (seqRowAt l.seqBlocked (l.dim / codesPerByte l.bitWidth) v) := by
  unfold V7Load.rows
  dsimp only
  rw [if_neg hlay, List.getD_eq_getElem?_getD, List.getElem?_map, List.getElem?_range hv]
  rfl

/-- Row `v` of a planes image. -/
theorem getD_rows_planes (h : l.Stored) (hlay : l.layout = LAYOUT_PLANES) {f : ℕ → List UInt8}
    (hf : ∀ v < l.nVectors, (f v).length = l.bitWidth * (l.dim / 8))
    (hold : CanonicalHold l.bitWidth l.dim l.nVectors f l.sign l.low) {v : ℕ} (hv : v < l.nVectors) :
    l.rows.getD v [] = f v := by
  have hp := (h.planes hlay).1
  unfold V7Load.rows
  dsimp only
  rw [if_pos hlay, getD_rowsOf hv, hold.toPacked hp h.dim_mod hf, rowAt_flatMap_range hf hv]

/-- The cache of a loaded image holds its rows, whichever layouts the file and the host use. -/
theorem cacheHolds_cacheOfV7 (h : l.Stored) (hpos : 8 ≤ l.dim) :
    CacheHolds P l.bitWidth l.dim l.nVectors (fun v => l.rows.getD v []) (TurboQuantIndex.cacheOfV7 P l) := by
  have hd := h.dim_mod
  have hw : ∀ v < l.nVectors, (l.rows.getD v []).length = l.bitWidth * (l.dim / 8) := by
    intro v hv
    by_cases hlay : l.layout = LAYOUT_PLANES
    · obtain ⟨-, f, hf, hold⟩ := h.planes hlay
      rw [getD_rows_planes h hlay hf hold hv, hf v hv]
    · rw [getD_rows_seq hlay hv, length_packRow]
  unfold TurboQuantIndex.cacheOfV7
  dsimp only
  rw [blockedGeometry_eq]
  dsimp only
  refine ⟨rfl, ?_⟩
  dsimp only
  split
  · rename_i hlay hwant
    obtain ⟨hn, -, hfor⟩ := planesWanted_iff.mp hwant
    obtain ⟨hp, f, hf, hold⟩ := h.planes (of_decide_eq_true hlay)
    rw [planesGeom_eq hp hd]
    refine regionsHold_planes hpos hn hw hfor ((hold.toNative hfor hd).congr fun v hv => ?_)
    exact (getD_rows_planes h (of_decide_eq_true hlay) hf hold hv).symm
  · rename_i hlay hwant
    obtain ⟨hp, f, hf, hold⟩ := h.planes (of_decide_eq_true hlay)
    refine regionsHold_classic hw (classicHolds_of_lanes h.bits hd hw ?_)
    refine (lanesHold_seqIntoNative (seqHold_repackSeq h.bits hd _)).congr fun v hv g _ => ?_
    rw [hold.toPacked hp hd hf, rowAt_flatMap_range hf hv,
      getD_rows_planes h (of_decide_eq_true hlay) hf hold hv]
  · rename_i hlay hwant
    obtain ⟨hn, -, hfor⟩ := planesWanted_iff.mp hwant
    obtain ⟨code, hseq⟩ := h.seq (of_decide_eq_false hlay)
    refine regionsHold_planes hpos hn hw hfor
      ((planesHold_fromSeqOwned hfor hd (by omega) hseq.length_eq).congr fun v hv => ?_)
    exact (getD_rows_seq (of_decide_eq_false hlay) hv).symm
  · rename_i hlay hwant
    obtain ⟨code, hseq⟩ := h.seq (of_decide_eq_false hlay)
    refine regionsHold_classic hw ⟨code, lanesHold_seqIntoNative hseq, fun v hv => ?_⟩
    dsimp only
    rw [getD_rows_seq (of_decide_eq_false hlay) hv, hseq.seqRowAt hv]

/-- An index opened from an image stores the image's rows. -/
theorem rep_fromV7 (h : l.Stored) (path : Option String) :
    Rep P (TurboQuantIndex.fromV7 P T l path) l.rows := by
  have hdim : (TurboQuantIndex.fromV7 P T l path).dim = if l.dim ≠ 0 then some l.dim else none := rfl
  have hn : (TurboQuantIndex.fromV7 P T l path).nVectors = l.nVectors := rfl
  have hd : ∀ d, (TurboQuantIndex.fromV7 P T l path).dim = some d → d = l.dim ∧ 8 ≤ l.dim := by
    intro d hd
    rw [hdim] at hd
    split at hd
    · rename_i h0
      have := h.dim_mod
      exact ⟨(Option.some.inj hd).symm, by omega⟩
    · cases hd
  constructor
  · exact h.bits
  · intro d hd'
    obtain ⟨rfl, hpos⟩ := hd d hd'
    exact ⟨h.dim_mod, hpos⟩
  · exact TurboQuantIndex.fromV7_dimmed h.dim_zero
  · exact l.length_rows
  · intro d hd' r hr
    obtain ⟨rfl, hpos⟩ := hd d hd'
    obtain ⟨v, hv⟩ := List.mem_iff_getElem?.mp hr
    have hlt := (List.getElem?_eq_some_iff.mp hv).1
    rw [l.length_rows] at hlt
    have hwidth := (cacheHolds_cacheOfV7 (P := P) h hpos).regions.width v hlt
    rw [List.getD_eq_getElem?_getD, hv, Option.getD_some] at hwidth
    exact hwidth
  · exact h.scales
  · intro p hp
    change (if decide (l.nVectors ≠ 0) = true then none else some []) = some p at hp
    split at hp
    · cases hp
    · rename_i h0
      have hzero : l.nVectors = 0 := by
        by_contra hne
        exact h0 (decide_eq_true hne)
      rw [← Option.some.inj hp, List.length_eq_zero_iff.mp (l.length_rows.trans hzero), List.flatten_nil]
  · intro c hc
    change (if decide (l.nVectors ≠ 0) = true then some (TurboQuantIndex.cacheOfV7 P l) else none) =
      some c at hc
    split at hc
    · rename_i h0
      have h0 : l.dim ≠ 0 := fun hz => of_decide_eq_true h0 (h.dim_zero hz)
      have hpos : 8 ≤ l.dim := by
        have := h.dim_mod
        omega
      rw [← Option.some.inj hc, hdim, if_pos h0]
      exact ⟨l.dim, rfl, cacheHolds_cacheOfV7 h hpos⟩
    · cases hc
  · intro hpos
    refine Or.inr ?_
    change (if decide (l.nVectors ≠ 0) = true then some (TurboQuantIndex.cacheOfV7 P l) else none).isSome
    rw [if_pos (decide_eq_true (by
      change 0 < l.nVectors at hpos
      omega))]
    rfl

end Load

/-! ## Runs -/

section variable (P : Platform) (T : Tables) (K : Kernels) (S : ScanKernels)

/-- An index after any calls, with the list of rows they make: pushes, `swap_remove`s, and the re-encoding
of a calibration. -/
inductive Stores : TurboQuantIndex → List (List UInt8) → Prop
  | new {x : TurboQuantIndex} {dim bitWidth : ℕ} (h : TurboQuantIndex.new dim bitWidth = .ok x) :
      Stores x []
  | newLazy {x : TurboQuantIndex} {bitWidth : ℕ} (h : TurboQuantIndex.newLazy bitWidth = .ok x) :
      Stores x []
  | fromParts {x : TurboQuantIndex} {dim : Option ℕ} {bitWidth nVectors : ℕ} {packedCodes : List UInt8}
      {scales tqplusShift tqplusScale : List F32}
      (h : TurboQuantIndex.fromParts T.bounds dim bitWidth nVectors packedCodes scales tqplusShift
        tqplusScale = .ok x) : Stores x (rowsOf (bitWidth * (dim.getD 0 / 8)) nVectors packedCodes)
  | load {x : TurboQuantIndex} {raw : List UInt8} {path : String} {l : V7Load}
      (hl : loadPath T raw 0 0 = .ok l) (h : TurboQuantIndex.load P T raw path = .ok x) : Stores x l.rows
  | fromBytes {x : TurboQuantIndex} {raw : List UInt8} {l : V7Load} (hl : loadImage T raw 0 0 = .ok l)
      (h : TurboQuantIndex.fromBytes P T raw = .ok x) : Stores x l.rows
  | add {x : TurboQuantIndex} {rows : List (List UInt8)} (h : Stores x rows) (vectors : List F32)
      (dim : ℕ) {fault : Option Fault} (hf : ∀ f ∈ fault, f.Guarded)
      (hok : (x.add2d P T K vectors dim fault).2 = .ok) :
      Stores (x.add2d P T K vectors dim fault).1 (rows ++ rowsOf (x.bitWidth * (dim / 8))
        (vectors.length / dim) (encodedRows T K x vectors dim).1)
  | failedAdd {x : TurboQuantIndex} {rows : List (List UInt8)} (h : Stores x rows) (vectors : List F32)
      (dim : ℕ) {fault : Option Fault} (hf : ∀ f ∈ fault, f.Guarded)
      (hfail : (x.add2d P T K vectors dim fault).2 ≠ .ok) :
      Stores (x.add2d P T K vectors dim fault).1 rows
  | calibrate {x : TurboQuantIndex} {rows : List (List UInt8)} (h : Stores x rows) (sample : List F32)
      (dim : ℕ) (fault : Option Fault) (hok : (x.calibrate2d P T K sample dim fault).2 = .ok) :
      Stores (x.calibrate2d P T K sample dim fault).1 (rowsOf (x.bitWidth * (dim / 8)) x.nVectors
        (reencodedRows P T K x dim (TurboQuantIndex.fitted T K x sample dim)).1)
  | failedCalibrate {x : TurboQuantIndex} {rows : List (List UInt8)} (h : Stores x rows)
      (sample : List F32) (dim : ℕ) (fault : Option Fault)
      (hfail : (x.calibrate2d P T K sample dim fault).2 ≠ .ok) :
      Stores (x.calibrate2d P T K sample dim fault).1 rows
  | swapRemove {x x' : TurboQuantIndex} {rows : List (List UInt8)} (h : Stores x rows) {idx last : ℕ}
      (hr : x.swapRemove P idx = some (x', last)) : Stores x' (SlotMap.swapRemove rows idx)
  | search {x : TurboQuantIndex} {rows : List (List UInt8)} (h : Stores x rows) (queries : List F32)
      (k : ℕ) (mask : Option (List Bool)) (threshold : Option F32) :
      Stores (x.trySearchWithOptions P T S queries k mask threshold).1 rows
  | packedCodes {x : TurboQuantIndex} {rows : List (List UInt8)} (h : Stores x rows) :
      Stores (x.readPacked P).1 rows
  | prepare {x : TurboQuantIndex} {rows : List (List UInt8)} (h : Stores x rows) :
      Stores (x.prepare P T) rows
  | sync {x : TurboQuantIndex} {rows : List (List UInt8)} (h : Stores x rows) (path : String)
      (disk : Disk) : Stores (x.sync P T path disk).1 rows

end

section Runs

variable {P : Platform} {T : Tables} {K : Kernels} {S : ScanKernels} {x : TurboQuantIndex}
  {rows : List (List UInt8)}

/-- Every run keeps the index a store of its list. -/
theorem Stores.rep (hK : K.Sized) (h : Stores P T K S x rows) : Rep P x rows := by
  induction h with
  | new h => exact Rep.new h
  | newLazy h => exact Rep.newLazy h
  | fromParts h => exact Rep.fromParts h
  | load hl h =>
    rw [TurboQuantIndex.load] at h
    split at h
    · rw [hl] at h
      cases h
      exact rep_fromV7 (stored_of_loadImage hl) _
    · cases h
  | fromBytes hl h =>
    rw [TurboQuantIndex.fromBytes, hl] at h
    cases h
    exact rep_fromV7 (stored_of_loadImage hl) _
  | add h vectors dim hf hok ih =>
    have := ih.add2d (T := T) hK vectors dim hf
    rwa [hok] at this
  | @failedAdd x rows h vectors dim fault hf hfail ih =>
    have := ih.add2d (T := T) hK vectors dim hf
    generalize x.add2d P T K vectors dim fault = r at this hfail ⊢
    obtain ⟨x', o⟩ := r
    cases o with
    | ok => exact absurd rfl hfail
    | err e => exact this
    | panic => exact this
  | calibrate h sample dim fault hok ih =>
    have := ih.calibrate2d (T := T) hK sample dim fault
    rwa [hok] at this
  | @failedCalibrate x rows h sample dim fault hfail ih =>
    have := ih.calibrate2d (T := T) hK sample dim fault
    generalize x.calibrate2d P T K sample dim fault = r at this hfail ⊢
    obtain ⟨x', o⟩ := r
    cases o with
    | ok => exact absurd rfl hfail
    | err e => exact this
    | panic => exact this
  | @swapRemove x x' rows h idx last hr ih =>
    by_cases hidx : idx < x.nVectors
    · obtain ⟨x₁, hx₁, hrep⟩ := ih.swapRemove hidx
      rw [hx₁] at hr
      cases hr
      exact hrep
    · unfold TurboQuantIndex.swapRemove at hr
      rw [guard, if_neg hidx] at hr
      cases hr
  | search h queries k mask threshold ih => exact ih.search queries k mask threshold
  | packedCodes h ih => exact ih.materialize
  | prepare h ih => exact ih.prepare
  | sync h path disk ih => exact ih.sync path disk

/-- Row `v` of a cache, as packed bytes. -/
def BlockedCache.row (P : Platform) (cache : BlockedCache) (bits dim v : ℕ) : List UInt8 :=
  if cache.isPlanes then planesPackedRow P cache.data cache.low bits (dim / 8) v
  else packRow bits dim (laneRow P cache.data bits (dim / codesPerByte bits) v)

/-- Byte group `g` of the lane of `v`: of the sign region under the planes layout. -/
def BlockedCache.lane (P : Platform) (cache : BlockedCache) (bits dim v g : ℕ) : UInt8 :=
  if cache.isPlanes then laneCode P cache.data 2 (dim / 8) v g
  else laneCode P cache.data bits (dim / codesPerByte bits) v g

/-- The byte groups of a lane. -/
def BlockedCache.groups (cache : BlockedCache) (bits dim : ℕ) : ℕ :=
  if cache.isPlanes then dim / 8 else dim / codesPerByte bits

/-- `cache` is exactly the `rows`: their blocks, their bytes, nothing in the padding. -/
structure BlockedCache.Exact (P : Platform) (cache : BlockedCache) (bits dim : ℕ)
    (rows : List (List UInt8)) : Prop where
  nBlocks : cache.nBlocks = (rows.length + 31) / 32
  data_len : cache.data.length = (rows.length + 31) / 32 * (cache.groups bits dim * 32)
  low_len : cache.isPlanes = true → cache.low.length = rows.length * ((bits - 1) * (dim / 8))
  row : ∀ v < rows.length, cache.row P bits dim v = rows.getD v []
  padding : ∀ v g, rows.length ≤ v → g < cache.groups bits dim → cache.lane P bits dim v g = 0

theorem CacheHolds.exact {bits dim : ℕ} {cache : BlockedCache} (hd : dim % 8 = 0)
    (h : CacheHolds P bits dim rows.length (fun v => rows.getD v []) cache) :
    cache.Exact P bits dim rows := by
  cases hp : cache.isPlanes with
  | true =>
    obtain ⟨hfor, hold⟩ := h.regions.planes (isPlanes_eq_true.mp hp)
    have hbits := planesBits_of_planesFor hfor
    have hg : cache.groups bits dim = dim / 8 := by rw [BlockedCache.groups, if_pos hp]
    constructor
    · exact h.nBlocks
    · rw [hg]
      exact hold.sign.length_eq
    · intro _
      rw [hold.low]
      exact length_flatMap_range fun v hv => length_lowPart hbits (h.regions.width v hv)
    · intro v hv
      rw [BlockedCache.row, if_pos hp]
      exact hold.packedRow hfor hd h.regions.width hv
    · intro v g hv hlt
      rw [hg] at hlt
      rw [BlockedCache.lane, if_pos hp, hold.sign.code v g hlt, if_neg (by omega)]
  | false =>
    obtain ⟨code, hl, hrow⟩ := h.regions.classic (isPlanes_eq_false.mp hp)
    have hp' : ¬cache.isPlanes = true := by rw [hp]; exact Bool.false_ne_true
    have hg : cache.groups bits dim = dim / codesPerByte bits := by rw [BlockedCache.groups, if_neg hp']
    constructor
    · exact h.nBlocks
    · rw [hg]
      exact hl.length_eq
    · intro h'
      exact absurd h' hp'
    · intro v hv
      rw [BlockedCache.row, if_neg hp', hl.laneRow_eq hv]
      exact hrow v hv
    · intro v g hv hlt
      rw [hg] at hlt
      rw [BlockedCache.lane, if_neg hp', hl.code v g hlt, if_neg (by omega)]

/-- In every run, whichever of the two representations are set decode to the one list of rows. -/
theorem representations_agree (hK : K.Sized) (h : Stores P T K S x rows) :
    rows.length = x.nVectors ∧ x.scales.length = x.nVectors ∧
    (0 < x.nVectors → x.dim.isSome ∧ (x.packedCodes.isSome ∨ x.blocked.isSome)) ∧
    ∀ d, x.dim = some d →
      (∀ p, x.packedCodes = some p → p.length = x.nVectors * (x.bitWidth * (d / 8)) ∧
        ∀ v < x.nVectors, rowAt p (x.bitWidth * (d / 8)) v = rows.getD v []) ∧
      ∀ cache, x.blocked = some cache → cache.Exact P x.bitWidth d rows := by
  have hrep := h.rep hK
  refine ⟨hrep.len, hrep.scales, fun hpos => ⟨hrep.dimmed hpos, hrep.live hpos⟩, fun d hd => ⟨?_, ?_⟩⟩
  · intro p hp
    have hwidth := hrep.width d hd
    rw [hrep.packed p hp, length_flatten_rows hwidth, hrep.len]
    refine ⟨rfl, fun v hv => rowAt_flatten hwidth ?_⟩
    rw [hrep.len]
    exact hv
  · intro cache hc
    obtain ⟨d', hd', hold⟩ := hrep.cache cache hc
    rw [hd, Option.some.injEq] at hd'
    subst hd'
    rw [← hrep.len] at hold
    exact hold.exact (hrep.dims d hd).1

end Runs

theorem zeroKernels_sized : zeroKernels.Sized where
  encode := fun _ _ _ _ _ _ _ _ => ⟨List.length_replicate, List.length_replicate⟩
  reencode := fun _ _ _ _ _ _ _ _ => ⟨List.length_replicate, rfl⟩

/-- Two given rows, and the cache `prepare` builds from them. -/
theorem twoRows_representations_agree :
    (∀ cache, (twoRows.prepare plainHost levelTables).blocked = some cache →
      cache.Exact plainHost 2 8 [[0, 0], [0, 0]]) ∧
    rowAt [0, 0, 0, 0] 2 1 = [0, 0] := by
  have h : Stores plainHost levelTables zeroKernels zeroScan twoRows [[0, 0], [0, 0]] :=
    @Stores.fromParts plainHost levelTables zeroKernels zeroScan twoRows (some 8) 2 2 [0, 0, 0, 0] [1, 1]
      [] [] rfl
  obtain ⟨-, -, -, hprep⟩ := representations_agree zeroKernels_sized h.prepare
  obtain ⟨-, hcache⟩ := hprep 8 rfl
  exact ⟨hcache, rfl⟩

end Turbovec
