import Turbovec.Index.CacheRows
import Turbovec.Index.Runs
import Turbovec.Lib.SlotMap

/-!
# The rows an index stores

An index stores a list of packed rows: whichever of its packed buffer and its search cache are set decode
to it. Adds push, removals `swap_remove`, a calibration replaces every row, and nothing else changes the
list.
-/

namespace Turbovec

open Pack IoV7 Slice Grid

/-- The first `n` rows of `w` bytes. -/
def rowsOf (w n : ℕ) (l : List UInt8) : List (List UInt8) := (List.range n).map (rowAt l w)

/-- The rows a loaded image holds. -/
def IoV7.V7Load.rows (l : V7Load) : List (List UInt8) :=
  let nbg := l.dim / codesPerByte l.bitWidth
  if l.layout = LAYOUT_PLANES then
    rowsOf (l.bitWidth * (l.dim / 8)) l.nVectors
      (planesCanonicalToPacked l.sign l.low l.bitWidth nbg l.nVectors)
  else (List.range l.nVectors).map fun v => packRow l.bitWidth l.dim (seqRowAt l.seqBlocked nbg v)

/-- The kernels fill the buffers they are given: a packed row and a scale for each row. -/
structure Kernels.Sized (K : Kernels) : Prop where
  encode : ∀ vectors n dim rotation boundaries centroids bits calibration,
    (K.encode vectors n dim rotation boundaries centroids bits calibration).1.length =
        n * (bits * (dim / 8)) ∧
      (K.encode vectors n dim rotation boundaries centroids bits calibration).2.length = n
  reencode : ∀ packed scales dim bits boundaries centroids old pair,
    (K.reencode packed scales dim bits boundaries centroids old pair).1.length =
        scales.length * (bits * (dim / 8)) ∧
      (K.reencode packed scales dim bits boundaries centroids old pair).2.length = scales.length

/-- The unwinds a mutation guards against: out of a kernel, or out of a repack. -/
def Fault.Guarded : Fault → Prop
  | .cacheUpdate _ => False
  | _ => True

/-- The rows and scales an add of `vectors` encodes. -/
def encodedRows (T : Tables) (K : Kernels) (x : TurboQuantIndex) (vectors : List F32) (dim : ℕ) :
    List UInt8 × List F32 :=
  let y := (x.entered dim).warm T dim
  K.encode vectors (vectors.length / dim) dim (y.rotation.getD dim) (y.boundaries.getD [])
    (y.centroids.getD []) y.bitWidth y.calibration

/-- The rows and scales a calibration to `pair` re-encodes. -/
def reencodedRows (P : Platform) (T : Tables) (K : Kernels) (x : TurboQuantIndex) (dim : ℕ)
    (pair : List F32 × List F32) : List UInt8 × List F32 :=
  let y := x.warm T dim
  K.reencode (y.packed P) y.scales dim y.bitWidth (y.boundaries.getD []) (y.centroids.getD [])
    (y.oldPair dim) pair

/-- `x` stores `rows`. -/
structure Rep (P : Platform) (x : TurboQuantIndex) (rows : List (List UInt8)) : Prop where
  bits : ValidBits x.bitWidth
  dims : ∀ d, x.dim = some d → d % 8 = 0 ∧ 8 ≤ d
  dimmed : x.Dimmed
  len : rows.length = x.nVectors
  width : ∀ d, x.dim = some d → ∀ r ∈ rows, r.length = x.bitWidth * (d / 8)
  scales : x.scales.length = x.nVectors
  packed : ∀ p, x.packedCodes = some p → p = rows.flatten
  cache : ∀ c, x.blocked = some c → ∃ d, x.dim = some d ∧
    CacheHolds P x.bitWidth d x.nVectors (fun v => rows.getD v []) c
  live : 0 < x.nVectors → x.packedCodes.isSome ∨ x.blocked.isSome

section Lists

variable {w n : ℕ} {l : List UInt8} {rows : List (List UInt8)}

@[simp] theorem length_rowsOf : (rowsOf w n l).length = n := by simp [rowsOf]

theorem getD_rowsOf {v : ℕ} (hv : v < n) : (rowsOf w n l).getD v [] = rowAt l w v := by
  rw [List.getD_eq_getElem?_getD, rowsOf, List.getElem?_map, List.getElem?_range hv]
  rfl

theorem length_of_mem_rowsOf (hl : l.length = n * w) {r : List UInt8} (hr : r ∈ rowsOf w n l) :
    r.length = w := by
  obtain ⟨v, hv, rfl⟩ := List.mem_map.mp hr
  exact length_rowAt hl (List.mem_range.mp hv)

theorem flatten_rowsOf (hl : l.length = n * w) : (rowsOf w n l).flatten = l := by
  rw [rowsOf, ← List.flatMap_def]
  exact flatMap_rowAt hl

/-- The rows in order. -/
theorem flatMap_getD : ((List.range rows.length).flatMap fun v => rows.getD v []) = rows.flatten := by
  have h : (List.range rows.length).map (fun v => rows.getD v []) = rows := by
    refine List.ext_getElem? fun i => ?_
    rw [List.getElem?_map]
    by_cases hi : i < rows.length
    · rw [List.getElem?_range hi, Option.map_some, List.getD_eq_getElem?_getD,
        List.getElem?_eq_getElem hi, Option.getD_some]
    · rw [List.getElem?_eq_none (by rw [List.length_range]; omega), List.getElem?_eq_none (by omega)]
      rfl
  conv_rhs => rw [← h]
  rw [List.flatMap_def]

theorem length_flatten_rows (h : ∀ r ∈ rows, r.length = w) : rows.flatten.length = rows.length * w := by
  rw [List.flatten_eq_flatMap]
  exact length_flatMap_const h

theorem rowAt_flatten (h : ∀ r ∈ rows, r.length = w) {v : ℕ} (hv : v < rows.length) :
    rowAt rows.flatten w v = rows.getD v [] := by
  rw [← flatMap_getD]
  refine rowAt_flatMap_range (fun i hi => ?_) hv
  rw [List.getD_eq_getElem?_getD, List.getElem?_eq_getElem hi, Option.getD_some]
  exact h _ (List.getElem_mem hi)

end Lists

namespace Rep

variable {P : Platform} {T : Tables} {K : Kernels} {S : ScanKernels} {x x' : TurboQuantIndex}
  {rows : List (List UInt8)}

/-- The packed rows, set or not, are the rows. -/
theorem packed_eq (h : Rep P x rows) : x.packed P = rows.flatten := by
  have hzero : x.nVectors = 0 → rows.flatten = [] := by
    intro h0
    rw [List.length_eq_zero_iff.mp (h.len.trans h0), List.flatten_nil]
  unfold TurboQuantIndex.packed
  split
  · rename_i hp
    exact h.packed _ hp
  · rename_i hnone
    split
    · rename_i d c hd hc
      split
      · rename_i h0
        exact (hzero h0).symm
      · obtain ⟨d', hd', hold⟩ := h.cache c hc
        rw [hd, Option.some.injEq] at hd'
        subst hd'
        obtain ⟨hmod, hpos⟩ := h.dims d hd
        rw [blockedGeometry_eq]
        dsimp only
        rw [hold.regions.toPacked h.bits hmod, ← h.len, flatMap_getD]
    · rename_i hnot
      refine (hzero ?_).symm
      by_contra hn
      rcases h.live (Nat.pos_of_ne_zero hn) with hp | hc
      · rw [hnone] at hp
        cases hp
      · obtain ⟨c, hc⟩ := Option.isSome_iff_exists.mp hc
        obtain ⟨d, hd, -⟩ := h.cache c hc
        exact hnot d c hd hc

/-- A call that changes none of the stores changes none of the rows. -/
theorem of_same (h : Rep P x rows) (hdim : x'.dim = x.dim) (hbits : x'.bitWidth = x.bitWidth)
    (hn : x'.nVectors = x.nVectors) (hp : x'.packedCodes = x.packedCodes) (hs : x'.scales = x.scales)
    (hc : x'.blocked = x.blocked) : Rep P x' rows where
  bits := by rw [hbits]; exact h.bits
  dims d hd := h.dims d (by rw [← hdim]; exact hd)
  dimmed hpos := by rw [hdim]; exact h.dimmed (by rw [← hn]; exact hpos)
  len := by rw [hn]; exact h.len
  width d hd := by rw [hbits]; exact h.width d (by rw [← hdim]; exact hd)
  scales := by rw [hs, hn]; exact h.scales
  packed p hp' := h.packed p (by rw [← hp]; exact hp')
  cache c hc' := by
    rw [hdim, hbits, hn]
    exact h.cache c (by rw [← hc]; exact hc')
  live hpos := by rw [hp, hc]; exact h.live (by rw [← hn]; exact hpos)

theorem materialize (h : Rep P x rows) : Rep P (x.materialize P) rows where
  bits := h.bits
  dims := h.dims
  dimmed := h.dimmed
  len := h.len
  width := h.width
  scales := h.scales
  packed _ hp := (Option.some.inj hp).symm.trans h.packed_eq
  cache := h.cache
  live _ := Or.inl rfl

theorem warm (h : Rep P x rows) (dim : ℕ) : Rep P (x.warm T dim) rows :=
  h.of_same rfl rfl rfl rfl rfl rfl

/-- The derived members of a cache are no part of the rows. -/
theorem withDerived (h : Rep P x rows) {cache cache' : BlockedCache} (hc : x.blocked = some cache)
    (hdata : cache'.data = cache.data) (hlow : cache'.low = cache.low)
    (hblocks : cache'.nBlocks = cache.nBlocks) : Rep P { x with blocked := some cache' } rows where
  bits := h.bits
  dims := h.dims
  dimmed := h.dimmed
  len := h.len
  width := h.width
  scales := h.scales
  packed := h.packed
  cache c hc' := by
    obtain ⟨d, hd, hold⟩ := h.cache cache hc
    rw [← Option.some.inj hc']
    refine ⟨d, hd, hblocks.trans hold.nBlocks, ?_⟩
    rw [hdata, hlow]
    exact hold.regions
  live _ := Or.inr rfl

/-! ## Adding -/

section Add

variable {vectors : List F32} {n dim : ℕ} {fault : Option Fault}

/-- Rows pushed onto the list. -/
theorem rows_append {codes new : List UInt8} {w : ℕ} (hrows : ∀ r ∈ rows, r.length = w)
    (hcodes : codes = rows.flatten) (hnew : new.length = n * w) :
    (rows ++ rowsOf w n new).flatten = codes ++ new ∧
      (∀ r ∈ rows ++ rowsOf w n new, r.length = w) ∧
      ∀ v < rows.length + n, rowAt (codes ++ new) w v = (rows ++ rowsOf w n new).getD v [] := by
  have hflat : (rows ++ rowsOf w n new).flatten = codes ++ new := by
    rw [List.flatten_append, flatten_rowsOf hnew, hcodes]
  have hwidth : ∀ r ∈ rows ++ rowsOf w n new, r.length = w := by
    intro r hr
    rcases List.mem_append.mp hr with hr | hr
    · exact hrows r hr
    · exact length_of_mem_rowsOf hnew hr
  refine ⟨hflat, hwidth, fun v hv => ?_⟩
  rw [← hflat, rowAt_flatten hwidth (by rw [List.length_append, length_rowsOf]; exact hv)]

/-- An append that returns pushes the encoded rows. -/
theorem appendRows (h : Rep P x rows) (hK : K.Sized) (hdim : x.dim = some dim)
    (hrun : TurboQuantIndex.appendRows P K x vectors n dim fault = .ok x') :
    Rep P x' (rows ++ rowsOf (x.bitWidth * (dim / 8)) n
      (K.encode vectors n dim (x.rotation.getD dim) (x.boundaries.getD []) (x.centroids.getD [])
        x.bitWidth x.calibration).1) := by
  obtain ⟨hcodes, hscales⟩ := hK.encode vectors n dim (x.rotation.getD dim) (x.boundaries.getD [])
    (x.centroids.getD []) x.bitWidth x.calibration
  unfold TurboQuantIndex.appendRows at hrun
  dsimp only at hrun
  generalize K.encode vectors n dim (x.rotation.getD dim) (x.boundaries.getD []) (x.centroids.getD [])
    x.bitWidth x.calibration = new at hrun hcodes hscales ⊢
  obtain ⟨hmod, hpos⟩ := h.dims dim hdim
  obtain ⟨hflat, hwidth, hread⟩ := rows_append (h.width dim hdim) h.packed_eq hcodes
  have hlen : (rows ++ rowsOf (x.bitWidth * (dim / 8)) n new.1).length = x.nVectors + n := by
    rw [List.length_append, length_rowsOf, h.len]
  -- the fields no branch treats differently
  have hrep : ∀ cache : BlockedCache, CacheHolds P x.bitWidth dim (x.nVectors + n)
      (fun v => (rows ++ rowsOf (x.bitWidth * (dim / 8)) n new.1).getD v []) cache →
      ∀ y : TurboQuantIndex, y.dim = x.dim → y.bitWidth = x.bitWidth → y.nVectors = x.nVectors + n →
        y.packedCodes = none → y.blocked = some cache → y.scales = x.scales ++ new.2 →
        Rep P y (rows ++ rowsOf (x.bitWidth * (dim / 8)) n new.1) := by
    intro cache hold y hd hbits hn hp hc hs
    constructor
    · rw [hbits]
      exact h.bits
    · rw [hd]
      exact h.dims
    · intro _
      rw [hd, hdim]
      rfl
    · rw [hn, hlen]
    · intro d hd'
      rw [hd, hdim, Option.some.injEq] at hd'
      rw [hbits, ← hd']
      exact hwidth
    · rw [hs, hn, List.length_append, h.scales, hscales]
    · intro p hp'
      rw [hp] at hp'
      cases hp'
    · intro c hc'
      rw [hc, Option.some.injEq] at hc'
      rw [hd, hbits, hn, ← hc']
      exact ⟨dim, hdim, hold⟩
    · intro _
      rw [hc]
      exact Or.inr rfl
  have hcongr : ∀ cache : BlockedCache, CacheHolds P x.bitWidth dim (x.nVectors + n)
      (rowAt (x.packed P ++ new.1) (x.bitWidth * (dim / 8))) cache →
      CacheHolds P x.bitWidth dim (x.nVectors + n)
        (fun v => (rows ++ rowsOf (x.bitWidth * (dim / 8)) n new.1).getD v []) cache :=
    fun cache hold => ⟨hold.nBlocks, hold.regions.congr fun v hv => hread v (by rw [h.len]; exact hv)⟩
  have hfull : (x.packed P ++ new.1).length = (x.nVectors + n) * (x.bitWidth * (dim / 8)) := by
    rw [← hflat, length_flatten_rows hwidth, hlen]
  split at hrun
  · rename_i hlazy
    simp only [TurboQuantIndex.lazyAppend, Bool.and_eq_true, Option.isNone_iff_eq_none] at hlazy
    obtain ⟨⟨-, hp⟩, hb⟩ := hlazy
    obtain ⟨cache, hc⟩ := Option.isSome_iff_exists.mp hb
    obtain ⟨d, hd, hold⟩ := h.cache cache hc
    rw [hdim, Option.some.injEq] at hd
    subst hd
    have hnew := hold.appendRows h.bits hmod hpos hcodes
    split at hrun
    · cases hrun
    · cases hrun
    · cases hrun
      refine hrep _ ⟨hnew.nBlocks, hnew.regions.congr fun v hv => ?_⟩ _ rfl rfl rfl hp
        (by dsimp only; rw [hc]; rfl) rfl
      rw [← h.len] at hv ⊢
      split
      · rename_i hlt
        rw [List.getD_append _ _ _ _ hlt]
      · rename_i hge
        rw [List.getD_append_right _ _ _ _ (by omega), getD_rowsOf (by omega)]
  · split at hrun
    · cases hrun
    · cases hrun
    · split at hrun
      · cases hrun
        exact hrep _ (hcongr _ (cacheHolds_build h.bits hmod hpos hfull)) _ rfl rfl rfl rfl rfl rfl
      · cases hrun
      · rename_i cache hc _ _ _
        cases hrun
        obtain ⟨d, hd, hold⟩ := h.cache cache hc
        rw [hdim, Option.some.injEq] at hd
        subst hd
        refine hrep _ (hcongr _ (hold.patch h.bits hmod hpos (by omega) hfull fun v hv => ?_)) _ rfl rfl
          rfl rfl rfl rfl
        rw [hread v (by rw [h.len]; omega), List.getD_append _ _ _ _ (by rw [h.len]; exact hv)]

/-- An append whose kernel or repack unwinds leaves the rows; outside the lazy window it leaves them
packed as well. -/
theorem appendRows_unwound (hf : ∀ f ∈ fault, f.Guarded)
    (hrun : TurboQuantIndex.appendRows P K x vectors n dim fault = .error x') :
    x' = if x.lazyAppend then x else x.materialize P := by
  unfold TurboQuantIndex.appendRows at hrun
  dsimp only at hrun
  split at hrun
  · rename_i hlazy
    rw [if_pos hlazy]
    split at hrun
    · cases hrun
      rw [List.take_left]
    · exact absurd (hf _ rfl) id
    · cases hrun
  · rename_i hlazy
    rw [if_neg hlazy]
    split at hrun
    · cases hrun
      rw [List.take_left, List.take_left]
      rfl
    · cases hrun
      rw [List.take_left, List.take_left]
      rfl
    · split at hrun
      · cases hrun
      · exact absurd (hf _ rfl) id
      · cases hrun

end Add

theorem entered (h : Rep P x rows) {dim : ℕ} (hdim : x.checkAddDim dim = .ok ()) :
    Rep P (x.entered dim) rows := by
  cases hd : x.dim with
  | some d =>
    rw [TurboQuantIndex.entered_eq hdim hd]
    exact h
  | none =>
    have hn : x.nVectors = 0 := by
      by_contra hn
      have := h.dimmed (Nat.pos_of_ne_zero hn)
      rw [hd] at this
      cases this
    have hnil : rows = [] := List.length_eq_zero_iff.mp (h.len.trans hn)
    unfold TurboQuantIndex.checkAddDim at hdim
    rw [hd] at hdim
    dsimp only at hdim
    split at hdim
    · cases hdim
    · rename_i h0
      split at hdim
      · cases hdim
      · rename_i h8
        exact {
          bits := h.bits
          dims := fun d hd' => by
            rw [← Option.some.inj hd']
            omega
          dimmed := fun _ => rfl
          len := h.len
          width := fun d _ r hr => by
            rw [hnil] at hr
            cases hr
          scales := h.scales
          packed := h.packed
          cache := fun c hc => by
            obtain ⟨d, hd', -⟩ := h.cache c hc
            rw [hd] at hd'
            cases hd'
          live := h.live }

/-- An add that returns pushes the encoded rows, and any other leaves the rows. -/
theorem add2d (h : Rep P x rows) (hK : K.Sized) (vectors : List F32) (dim : ℕ) {fault : Option Fault}
    (hf : ∀ f ∈ fault, f.Guarded) :
    Rep P (x.add2d P T K vectors dim fault).1
      (match (x.add2d P T K vectors dim fault).2 with
        | .ok => rows ++ rowsOf (x.bitWidth * (dim / 8)) (vectors.length / dim)
            (encodedRows T K x vectors dim).1
        | _ => rows) := by
  have had := TurboQuantIndex.added P T K x vectors dim fault
  generalize x.add2d P T K vectors dim fault = r at had ⊢
  cases had with
  | refused e => exact h
  | ragged hr => exact h
  | nothing hnil =>
    rw [hnil, List.length_nil, Nat.zero_div]
    dsimp only [rowsOf]
    rw [List.range_zero, List.map_nil, List.append_nil]
    exact h
  | done hdim hadd =>
    unfold TurboQuantIndex.add at hadd
    dsimp only at hadd ⊢
    split at hadd
    · cases hadd
    · split at hadd
      · rename_i hn
        cases hadd
        rw [hn]
        dsimp only [rowsOf]
        rw [List.range_zero, List.map_nil, List.append_nil]
        exact h.entered hdim
      · split at hadd
        · cases hadd
        · exact ((h.entered hdim).warm dim).appendRows hK rfl hadd
  | @panicked x' hdim hadd =>
    dsimp only
    have hx' : Rep P x' rows ∧ (x.dim = none → x'.blocked = none) := by
      have hnone : x.dim = none → x.blocked = none := by
        intro hd
        cases hb : x.blocked with
        | none => rfl
        | some c =>
          obtain ⟨d, hd', -⟩ := h.cache c hb
          rw [hd] at hd'
          cases hd'
      unfold TurboQuantIndex.add at hadd
      dsimp only at hadd
      split at hadd
      · cases hadd
        exact ⟨h.entered hdim, hnone⟩
      · split at hadd
        · cases hadd
        · split at hadd
          · cases hadd
            exact ⟨h.entered hdim, hnone⟩
          · rw [appendRows_unwound hf hadd]
            split
            · exact ⟨(h.entered hdim).warm dim, hnone⟩
            · exact ⟨((h.entered hdim).warm dim).materialize, hnone⟩
    unfold TurboQuantIndex.unwound
    split
    · rename_i hd
      rw [Option.isNone_iff_eq_none] at hd
      have hn : x'.nVectors = 0 := by
        by_contra hn
        have := (TurboQuantIndex.add_error hadd).rows
        change x'.nVectors = x.nVectors at this
        have := h.dimmed (by omega)
        rw [hd] at this
        cases this
      exact {
        bits := hx'.1.bits
        dims := fun d hd' => by cases hd'
        dimmed := fun hpos => by
          change 0 < x'.nVectors at hpos
          omega
        len := hx'.1.len
        width := fun d hd' => by cases hd'
        scales := hx'.1.scales
        packed := hx'.1.packed
        cache := fun c hc => by
          change x'.blocked = some c at hc
          rw [hx'.2 hd] at hc
          cases hc
        live := hx'.1.live }
    · exact hx'.1

/-! ## Calibrating -/

theorem uncommitted (h : Rep P x rows) : Rep P x.uncommitted rows := by
  unfold TurboQuantIndex.uncommitted
  split
  · exact h.of_same rfl rfl rfl rfl rfl rfl
  · exact h

theorem checkAddDim_of_calibrate {dim : ℕ} (hdim : x.checkCalibrateDim dim = .ok ()) :
    x.checkAddDim dim = .ok () := by
  unfold TurboQuantIndex.checkCalibrateDim at hdim
  unfold TurboQuantIndex.checkAddDim
  split
  · rename_i d hd
    rw [hd] at hdim
    dsimp only at hdim
    split at hdim
    · cases hdim
    · rename_i heq
      rw [if_neg heq]
  · rename_i hd
    rw [hd] at hdim
    dsimp only at hdim
    split at hdim
    · cases hdim
    · rename_i h0
      rw [if_neg h0]
      split at hdim
      · cases hdim
      · rename_i h8
        rw [if_neg h8]
        split at hdim
        · cases hdim
        · rename_i hmax
          rw [if_neg hmax]

/-- A calibration replaces every row by its re-encoding. -/
theorem commitCalibration (h : Rep P x rows) (hK : K.Sized) {dim : ℕ}
    (hdim : x.checkCalibrateDim dim = .ok ()) (pair : List F32 × List F32) :
    Rep P ((x.warm T dim).commitCalibration P K dim pair)
      (rowsOf (x.bitWidth * (dim / 8)) x.nVectors (reencodedRows P T K x dim pair).1) := by
  have hent := (h.entered (checkAddDim_of_calibrate hdim)).warm (T := T) dim
  obtain ⟨hcodes, hscales⟩ := hK.reencode ((x.warm T dim).packed P) (x.warm T dim).scales dim
    (x.warm T dim).bitWidth ((x.warm T dim).boundaries.getD []) ((x.warm T dim).centroids.getD [])
    ((x.warm T dim).oldPair dim) pair
  have hs : (x.warm T dim).scales.length = x.nVectors := h.scales
  rw [hs] at hcodes hscales
  unfold TurboQuantIndex.commitCalibration
  dsimp only
  split
  · exact {
      bits := h.bits
      dims := hent.dims
      dimmed := fun _ => rfl
      len := length_rowsOf
      width := fun d hd r hr => by
        rw [← Option.some.inj hd]
        exact length_of_mem_rowsOf hcodes hr
      scales := hscales
      packed := fun p hp => by
        rw [← Option.some.inj hp]
        exact (flatten_rowsOf hcodes).symm
      cache := fun c hc => by cases hc
      live := fun _ => Or.inl rfl }
  · rename_i hn
    have hn : x.nVectors = 0 := Nat.eq_zero_of_not_pos hn
    have hnil : rows = [] := List.length_eq_zero_iff.mp (h.len.trans hn)
    have hrows : rowsOf (x.bitWidth * (dim / 8)) x.nVectors (reencodedRows P T K x dim pair).1 = rows := by
      rw [hn, hnil]
      rfl
    rw [hrows]
    exact hent.of_same rfl rfl rfl rfl rfl rfl

/-- A calibrate that returns re-encodes the rows, and any other leaves them. -/
theorem calibrate2d (h : Rep P x rows) (hK : K.Sized) (sample : List F32) (dim : ℕ)
    (fault : Option Fault) : Rep P (x.calibrate2d P T K sample dim fault).1
      (match (x.calibrate2d P T K sample dim fault).2 with
        | .ok => rowsOf (x.bitWidth * (dim / 8)) x.nVectors
            (reencodedRows P T K x dim (TurboQuantIndex.fitted T K x sample dim)).1
        | _ => rows) := by
  have hcal := TurboQuantIndex.calibrated P T K x sample dim fault
  generalize x.calibrate2d P T K sample dim fault = r at hcal ⊢
  cases hcal with
  | refused e => exact h
  | abandoned hdim o ho =>
    cases o with
    | ok => exact absurd rfl ho
    | err e => exact (h.warm dim).uncommitted
    | panic => exact (h.warm dim).uncommitted
  | panicked hdim hn => exact (h.warm dim).materialize
  | done hdim => exact h.commitCalibration hK hdim _

/-! ## Removing -/

theorem markRemoval (h : Rep P x rows) (idx last : ℕ) : Rep P (x.markRemoval idx last) rows := by
  have hdirty : ∀ {y : TurboQuantIndex}, Rep P y rows → ∀ slot, Rep P (y.markDirty slot) rows := by
    intro y hy slot
    unfold TurboQuantIndex.markDirty
    split
    · exact hy.of_same rfl rfl rfl rfl rfl rfl
    · exact hy
  unfold TurboQuantIndex.markRemoval
  split
  · dsimp only
    split
    · exact hdirty (hdirty h idx) last
    · exact hdirty h idx
  · exact h

/-- A removal is the list's `swap_remove`. -/
theorem dropRow (h : Rep P x rows) {idx d : ℕ} (hidx : idx < x.nVectors) (hd : x.dim = some d) :
    Rep P (x.dropRow P idx (x.nVectors - 1) d) (SlotMap.swapRemove rows idx) := by
  obtain ⟨hmod, hpos⟩ := h.dims d hd
  have hrlen : idx < rows.length := by rw [h.len]; exact hidx
  have hlen := SlotMap.length_swapRemove rows idx
  -- slot `v` of the shortened list
  have hread : ∀ v < x.nVectors - 1, (SlotMap.swapRemove rows idx).getD v [] =
      if v = idx then rows.getD (x.nVectors - 1) [] else rows.getD v [] := by
    intro v hv
    rw [List.getD_eq_getElem?_getD, SlotMap.getElem?_swapRemove hrlen, h.len, if_pos hv]
    split
    · rw [List.getD_eq_getElem?_getD]
    · rw [List.getD_eq_getElem?_getD]
  have hw : ∀ v < rows.length, (rows.getD v []).length = x.bitWidth * (d / 8) := by
    intro v hv
    rw [List.getD_eq_getElem?_getD, List.getElem?_eq_getElem hv, Option.getD_some]
    exact h.width d hd _ (List.getElem_mem hv)
  have hbytes : d * x.bitWidth / 8 = x.bitWidth * (d / 8) := by
    obtain ⟨m, rfl⟩ : ∃ m, d = 8 * m := ⟨d / 8, by omega⟩
    rw [Nat.mul_div_cancel_left m (by decide), Nat.mul_assoc, Nat.mul_div_cancel_left _ (by decide),
      Nat.mul_comm]
  unfold TurboQuantIndex.dropRow
  constructor
  · exact h.bits
  · exact h.dims
  · intro _
    exact (congrArg Option.isSome hd).trans rfl
  · rw [hlen, h.len]
  · intro d' hd' r hr
    rw [show d' = d from Option.some.inj (hd'.symm.trans hd)]
    obtain ⟨v, hv⟩ := List.mem_iff_getElem?.mp hr
    rw [SlotMap.getElem?_swapRemove hrlen] at hv
    split at hv
    · split at hv
      · exact h.width d hd r (List.mem_of_getElem? hv)
      · exact h.width d hd r (List.mem_of_getElem? hv)
    · cases hv
  · dsimp only
    rw [List.length_take]
    split
    · rw [List.length_set, h.scales]
      omega
    · rw [h.scales]
      omega
  · intro p hp
    obtain ⟨p₀, hp₀, rfl⟩ := Option.map_eq_some_iff.mp hp
    rw [h.packed p₀ hp₀, hbytes, ← flatMap_getD, ← flatMap_getD, hlen, h.len]
    have hmove : (if idx ≠ x.nVectors - 1 then
          copyWithin ((List.range x.nVectors).flatMap fun v => rows.getD v [])
            ((x.nVectors - 1) * (x.bitWidth * (d / 8))) (x.bitWidth * (d / 8))
            (idx * (x.bitWidth * (d / 8)))
        else (List.range x.nVectors).flatMap fun v => rows.getD v []) =
        (List.range x.nVectors).flatMap fun v =>
          if v = idx then rows.getD (x.nVectors - 1) [] else rows.getD v [] := by
      split
      · exact copyWithin_flatMap (fun v hv => hw v (by rw [h.len]; exact hv)) (by omega) hidx
      · rename_i hlast
        rw [not_ne_iff] at hlast
        refine List.flatMap_congr fun v _ => ?_
        split
        · rename_i hv
          rw [hv, hlast]
        · rfl
    rw [hmove]
    have hsplit : x.nVectors = (x.nVectors - 1) + 1 := by omega
    have hwidth : ∀ v < x.nVectors - 1,
        (if v = idx then rows.getD (x.nVectors - 1) [] else rows.getD v []).length =
          x.bitWidth * (d / 8) := by
      intro v hv
      split
      · exact hw _ (by rw [h.len]; omega)
      · exact hw _ (by rw [h.len]; omega)
    conv_lhs => rw [hsplit]
    rw [Nat.add_sub_cancel, List.range_succ, List.flatMap_append,
      List.take_append_of_le_length (by rw [length_flatMap_range hwidth]),
      List.take_of_length_le (by rw [length_flatMap_range hwidth])]
    exact List.flatMap_congr fun v hv => (hread v (List.mem_range.mp hv)).symm
  · intro c hc
    obtain ⟨c₀, hc₀, rfl⟩ := Option.map_eq_some_iff.mp hc
    obtain ⟨d', hd', hold⟩ := h.cache c₀ hc₀
    rw [hd, Option.some.injEq] at hd'
    subst hd'
    have hn : x.nVectors = (x.nVectors - 1) + 1 := by omega
    rw [hn] at hold
    have hle : idx ≤ x.nVectors - 1 := by omega
    have hrem := hold.removeRow hmod hpos hle
    exact ⟨d, hd, hrem.nBlocks, hrem.regions.congr fun v hv => (hread v hv).symm⟩
  · intro hpos'
    dsimp only
    rw [Option.isSome_map, Option.isSome_map]
    exact h.live (by omega)

theorem capture (h : Rep P x rows) (idx last lane : ℕ) (at_ : Option ℕ) :
    Rep P (x.capture P idx last lane at_) rows :=
  h.of_same rfl rfl rfl rfl rfl rfl

theorem swapRemove (h : Rep P x rows) {idx : ℕ} (hidx : idx < x.nVectors) :
    ∃ x', x.swapRemove P idx = some (x', x.nVectors - 1) ∧ Rep P x' (SlotMap.swapRemove rows idx) := by
  obtain ⟨d, hd⟩ := Option.isSome_iff_exists.mp (h.dimmed (by omega))
  refine ⟨_, TurboQuantIndex.swapRemove_eq x hidx hd, ?_⟩
  have hm := h.markRemoval idx (x.nVectors - 1)
  have hn : (x.markRemoval idx (x.nVectors - 1)).nVectors = x.nVectors := hm.len.symm.trans h.len
  have hdim : (x.markRemoval idx (x.nVectors - 1)).dim = some d := by
    obtain ⟨x', hx', hc⟩ := TurboQuantIndex.swapRemove_some (P := P) x hidx hd
    rw [TurboQuantIndex.swapRemove_eq x hidx hd, Option.some.injEq, Prod.mk.injEq] at hx'
    have := hc.dim d hd
    rw [← hx'.1] at this
    exact this
  have hc := hm.capture idx (x.nVectors - 1) (blockedGeometry x.nVectors x.bitWidth d).2.1
    ((x.markRemoval idx (x.nVectors - 1)).captureAt P idx (blockedGeometry x.nVectors x.bitWidth d).2.1)
  have hidx' : idx < (x.markRemoval idx (x.nVectors - 1)).nVectors := by
    rw [hn]
    exact hidx
  have hdrop := hc.dropRow hidx' hdim
  have hlast : (TurboQuantIndex.capture P (x.markRemoval idx (x.nVectors - 1)) idx (x.nVectors - 1)
      (blockedGeometry x.nVectors x.bitWidth d).2.1 ((x.markRemoval idx (x.nVectors - 1)).captureAt P idx
        (blockedGeometry x.nVectors x.bitWidth d).2.1)).nVectors = x.nVectors := hn
  rw [hlast] at hdrop
  exact hdrop

/-! ## The other calls -/

theorem prepared (h : Rep P x rows) {dim : ℕ} (hd : x.dim = some dim) :
    Rep P (x.prepared P T dim) rows := by
  unfold TurboQuantIndex.prepared
  dsimp only
  split
  · exact h.of_same rfl rfl rfl rfl rfl rfl
  · obtain ⟨hmod, hpos⟩ := h.dims dim hd
    have hwidth := h.width dim hd
    have hlen : (x.packed P).length = x.nVectors * (x.bitWidth * (dim / 8)) := by
      rw [h.packed_eq, length_flatten_rows hwidth, h.len]
    have hbuild := cacheHolds_build (P := P) h.bits hmod hpos hlen
    have hm := h.materialize
    exact {
      bits := h.bits
      dims := h.dims
      dimmed := h.dimmed
      len := h.len
      width := h.width
      scales := h.scales
      packed := hm.packed
      cache := fun c hc => by
        rw [← Option.some.inj hc]
        refine ⟨dim, hd, hbuild.nBlocks, hbuild.regions.congr fun v hv => ?_⟩
        rw [h.packed_eq, rowAt_flatten hwidth (by rw [h.len]; exact hv)]
      live := fun _ => Or.inr rfl }

theorem prepare (h : Rep P x rows) : Rep P (x.prepare P T) rows := by
  unfold TurboQuantIndex.prepare
  split
  · exact h
  · rename_i dim hd
    split
    · exact h
    · exact h.prepared hd

theorem search (h : Rep P x rows) (queries : List F32) (k : ℕ) (mask : Option (List Bool))
    (threshold : Option F32) :
    Rep P (x.trySearchWithOptions P T S queries k mask threshold).1 rows := by
  have hderived : ∀ (y : TurboQuantIndex) (dim : ℕ) (cache : BlockedCache),
      (y.derived P S dim cache).data = cache.data ∧ (y.derived P S dim cache).low = cache.low ∧
        (y.derived P S dim cache).nBlocks = cache.nBlocks := by
    intro y dim cache
    unfold TurboQuantIndex.derived
    split
    · exact ⟨rfl, rfl, rfl⟩
    · exact ⟨rfl, rfl, rfl⟩
  unfold TurboQuantIndex.trySearchWithOptions
  dsimp only
  split
  · exact h
  · split
    · exact h
    · rename_i dim hd
      split
      · exact h
      · split
        · exact h
        · split
          · split
            · split
              · exact h
              · exact h
            · exact h
          · have hp := h.prepared (T := T) hd
            split
            · exact hp
            · exact hp
            · rename_i cache _ hc
              obtain ⟨hdata, hlow, hblocks⟩ := hderived (x.prepared P T dim) dim cache
              exact hp.withDerived hc hdata hlow hblocks

theorem sync (h : Rep P x rows) (path : String) (disk : Disk) : Rep P (x.sync P T path disk).1 rows := by
  unfold TurboQuantIndex.sync
  split
  · exact h
  · have hmat : ∀ c : Bool, Rep P (if c then x.materialize P else x) rows := by
      intro c
      split
      · exact h.materialize
      · exact h
    have hm := hmat x.blocked.isNone
    dsimp only
    split
    · exact hm.of_same rfl rfl rfl rfl rfl rfl
    · exact hm.of_same rfl rfl rfl rfl rfl rfl
    · exact hm.of_same rfl rfl rfl rfl rfl rfl

/-! ## Construction -/

theorem empty {dim : Option ℕ} {bitWidth : ℕ} (hb : ValidBits bitWidth)
    (hd : ∀ d, dim = some d → d % 8 = 0 ∧ 8 ≤ d) : Rep P (TurboQuantIndex.empty dim bitWidth) [] where
  bits := hb
  dims := hd
  dimmed := TurboQuantIndex.empty_dimmed dim bitWidth
  len := rfl
  width d _ r hr := by cases hr
  scales := rfl
  packed p hp := by
    rw [← Option.some.inj hp]
    rfl
  cache c hc := by cases hc
  live h := absurd h (Nat.lt_irrefl 0)

theorem validBits {bitWidth : ℕ} (h : 2 ≤ bitWidth ∧ bitWidth ≤ 4) : ValidBits bitWidth := by
  simp only [ValidBits]
  omega

theorem new {dim bitWidth : ℕ} (h : TurboQuantIndex.new dim bitWidth = .ok x) : Rep P x [] := by
  unfold TurboQuantIndex.new at h
  split at h
  · cases h
  · rename_i hb
    split at h
    · cases h
    · rename_i h8
      split at h
      · cases h
      · cases h
        refine empty (validBits (not_not.mp hb)) fun d hd => ?_
        rw [← Option.some.inj hd]
        omega

theorem newLazy {bitWidth : ℕ} (h : TurboQuantIndex.newLazy bitWidth = .ok x) : Rep P x [] := by
  unfold TurboQuantIndex.newLazy at h
  split at h
  · cases h
  · rename_i hb
    cases h
    exact empty (validBits (not_not.mp hb)) fun d hd => by cases hd

theorem fromParts {B : CalibrationBounds} {dim : Option ℕ} {bitWidth nVectors : ℕ}
    {packedCodes : List UInt8} {scales tqplusShift tqplusScale : List F32}
    (h : TurboQuantIndex.fromParts B dim bitWidth nVectors packedCodes scales tqplusShift tqplusScale =
      .ok x) : Rep P x (rowsOf (bitWidth * (dim.getD 0 / 8)) nVectors packedCodes) := by
  rw [TurboQuantIndex.fromParts, bind_eq_ok] at h
  obtain ⟨_, hlen, h⟩ := h
  rw [bind_eq_ok] at h
  obtain ⟨_, -, h⟩ := h
  cases h
  unfold TurboQuantIndex.checkLengths at hlen
  split at hlen
  · cases hlen
  · rename_i hb
    split at hlen
    · cases hlen
    · split at hlen
      · rename_i d
        dsimp only at hlen
        split at hlen
        · cases hlen
        · rename_i h8
          split at hlen
          · cases hlen
          · split at hlen
            · cases hlen
            · split at hlen
              · cases hlen
              · rename_i hpacked
                split at hlen
                · cases hlen
                · rename_i hscales
                  rw [not_ne_iff] at hpacked hscales
                  have hfull : packedCodes.length = nVectors * (bitWidth * (d / 8)) := by
                    rw [hpacked]
                    ring
                  exact {
                    bits := validBits (not_not.mp hb)
                    dims := fun d' hd' => by
                      rw [← Option.some.inj hd']
                      omega
                    dimmed := fun _ => rfl
                    len := length_rowsOf
                    width := fun d' hd' r hr => by
                      rw [← Option.some.inj hd']
                      exact length_of_mem_rowsOf hfull hr
                    scales := hscales
                    packed := fun p hp => by
                      rw [← Option.some.inj hp]
                      exact (flatten_rowsOf hfull).symm
                    cache := fun c hc => by cases hc
                    live := fun _ => Or.inl rfl }
      · split at hlen
        · cases hlen
        · rename_i hn
          split at hlen
          · cases hlen
          · rename_i hpacked
            split at hlen
            · cases hlen
            · rename_i hscales
              rw [not_ne_iff] at hn hpacked hscales
              subst hn
              exact {
                bits := validBits (not_not.mp hb)
                dims := fun d hd => by cases hd
                dimmed := fun hpos => absurd hpos (Nat.lt_irrefl 0)
                len := rfl
                width := fun d hd => by cases hd
                scales := hscales
                packed := fun p hp => by
                  rw [← Option.some.inj hp]
                  exact List.length_eq_zero_iff.mp hpacked
                cache := fun c hc => by cases hc
                live := fun hpos => absurd hpos (Nat.lt_irrefl 0) }

end Rep

end Turbovec
