import Turbovec.Index.Kernels

/-!
# The slicing wrapper

`add` and `add_with_ids` of the binding, and the wrapper that hands a large batch to them slice by slice. Where the
encoder takes a batch row by row, the slices leave what the whole batch leaves; a batch the core refuses is refused
before its first slice.
-/

namespace Turbovec.Sliced

open Pack IoV7 Slice Grid

/-! ## Batches -/

/-- A two-dimensional array, row by row. `plain` tells whether it passes the tests of the wrapper that do not look at
its size: an ndarray of float32, C-contiguous. -/
structure Batch where
  plain : Bool
  cols : ℕ
  rows : List (List F32)
  wide : ∀ r ∈ rows, r.length = cols

/-- `_chunkable_2d` -/
def chunkable2d (a : Batch) (cs : ℤ) : Bool := decide (0 < cs) && a.plain && decide (cs < a.rows.length)

/-- `_finite_ok`, which is the core's own `first_invalid_coord`. -/
def finiteOk (a : Batch) : Bool :=
  if a.cols = 0 ∨ a.rows.flatten = [] then true else (firstInvalidCoord a.rows.flatten a.cols).isNone

/-- The slices of a list, at most `fuel` of them. -/
def slicesOf {α : Type} (cs : ℕ) : ℕ → List α → List (List α)
  | 0, _ => []
  | fuel + 1, l => if l.isEmpty then [] else l.take cs :: slicesOf cs fuel (l.drop cs)

/-- `snap[start : start + cs] for start in range(0, n, cs)` -/
def slices {α : Type} (cs : ℤ) (l : List α) : List (List α) := slicesOf cs.toNat l.length l

/-- The loop over the slices of an add, which the first error ends. -/
def runSlices {σ β ε : Type} (raw : σ → β → σ × Outcome ε) : σ → List β → σ × Outcome ε
  | s, [] => (s, .ok)
  | s, b :: bs =>
    match raw s b with
    | (s', .ok) => runSlices raw s' bs
    | r => r

section variable (P : Platform) (T : Tables) (K : Kernels)

/-- The native `add`. -/
def rawAdd (cols : ℕ) (x : TurboQuantIndex) (rows : List (List F32)) : TurboQuantIndex × Outcome AddError :=
  x.add2d P T K rows.flatten cols none

/-- `_make_add` -/
def add (x : TurboQuantIndex) (vectors : Batch) (cs : ℤ) : TurboQuantIndex × Outcome AddError :=
  if chunkable2d vectors cs && finiteOk vectors then
    runSlices (rawAdd P T K vectors.cols) x (slices cs vectors.rows)
  else rawAdd P T K vectors.cols x vectors.rows

/-- The native `add_with_ids`. -/
def rawAddWithIds (cols : ℕ) (x : IdMapIndex) (b : List (List F32) × List UInt64) : IdMapIndex × Outcome AddError :=
  x.addWithIds2d P T K b.1.flatten cols b.2 none

/-- `_make_add_with_ids`. `plainIds` tells whether the ids are a C-contiguous one-dimensional array of uint64. -/
def addWithIds (x : IdMapIndex) (vectors : Batch) (ids : List UInt64) (plainIds : Bool) (cs : ℤ) :
    IdMapIndex × Outcome AddError :=
  if chunkable2d vectors cs && plainIds && decide (ids.length = vectors.rows.length) && finiteOk vectors &&
      x.batchAddable ids then
    runSlices (rawAddWithIds P T K vectors.cols) x ((slices cs vectors.rows).zip (slices cs ids))
  else rawAddWithIds P T K vectors.cols x (vectors.rows, ids)

end

/-- Encoding a batch encodes its rows one by one. -/
structure RowWise (K : Kernels) : Prop where
  encode : ∀ (rows : List (List F32)) dim rotation boundaries centroids bits calibration, (∀ r ∈ rows, r.length = dim) →
    K.encode rows.flatten rows.length dim rotation boundaries centroids bits calibration =
      (rows.flatMap fun r => (K.encode r 1 dim rotation boundaries centroids bits calibration).1,
        rows.flatMap fun r => (K.encode r 1 dim rotation boundaries centroids bits calibration).2)

/-- The encoder takes a batch row by row. -/
theorem encoder_rowWise {α β σ : Type} [Add α] [Sub α] [Mul α] [Div α] [Neg α] [Zero α] [One α] [LinearOrder α] [Add β]
    [Sub β] [Mul β] [Zero β] [LT β] [DecidableLT β] (Z : Encode.Setting α β σ) : RowWise Z.kernels where
  encode := by
    intro rows dim rotation boundaries centroids bits calibration hrows
    show Z.encode rows.flatten rows.length dim rotation boundaries centroids bits calibration =
      (rows.flatMap fun r => (Z.encode r 1 dim rotation boundaries centroids bits calibration).1,
        rows.flatMap fun r => (Z.encode r 1 dim rotation boundaries centroids bits calibration).2)
    obtain ⟨f, g, -, h⟩ := Z.encode_rows dim rotation boundaries centroids bits calibration
    have hone (r : List F32) (hr : r ∈ rows) :
        Z.encode r 1 dim rotation boundaries centroids bits calibration = (f r, [g r]) := by
      have h := h [r] fun s hs => List.mem_singleton.mp hs ▸ hrows r hr
      rwa [List.flatten_singleton, List.flatMap_singleton] at h
    rw [h rows hrows, List.flatMap_congr fun r hr => congrArg Prod.fst (hone r hr),
      List.flatMap_congr fun r hr => congrArg Prod.snd (hone r hr), List.map_eq_flatMap]

/-! ## Slices -/

theorem flatten_slicesOf {α : Type} {cs : ℕ} (hcs : 0 < cs) {fuel : ℕ} {l : List α} (h : l.length ≤ fuel) :
    (slicesOf cs fuel l).flatten = l := by
  induction fuel generalizing l with
  | zero => exact (List.eq_nil_of_length_eq_zero (by omega)).symm
  | succ fuel ih =>
    unfold slicesOf
    cases l with
    | nil => rfl
    | cons a l =>
      have hlen : ((a :: l).drop cs).length ≤ fuel := by
        rw [List.length_drop]
        rw [List.length_cons] at h ⊢
        omega
      rw [List.isEmpty_cons, if_neg Bool.false_ne_true, List.flatten_cons, ih hlen, List.take_append_drop]

theorem flatten_slices {α : Type} {cs : ℤ} (hcs : 0 < cs) (l : List α) : (slices cs l).flatten = l :=
  flatten_slicesOf (by omega) le_rfl

theorem slicesOf_ne_nil {α : Type} {cs : ℕ} (hcs : 0 < cs) {fuel : ℕ} {l : List α} :
    ∀ part ∈ slicesOf cs fuel l, part ≠ [] := by
  induction fuel generalizing l with
  | zero => intro part hp; cases hp
  | succ fuel ih =>
    intro part hp
    unfold slicesOf at hp
    cases l with
    | nil => cases hp
    | cons a l =>
      rw [List.isEmpty_cons, if_neg Bool.false_ne_true] at hp
      rcases List.mem_cons.mp hp with rfl | hp
      · obtain ⟨m, rfl⟩ := Nat.exists_eq_succ_of_ne_zero hcs.ne'
        exact List.cons_ne_nil _ _
      · exact ih part hp

theorem slices_nonempty {α : Type} {cs : ℤ} {l : List α} (hl : l ≠ []) : slices cs l ≠ [] := by
  obtain ⟨a, t, rfl⟩ := List.exists_cons_of_ne_nil hl
  unfold slices
  rw [List.length_cons, slicesOf, List.isEmpty_cons, if_neg Bool.false_ne_true]
  exact List.cons_ne_nil _ _

/-- A slice has rows of the batch only. -/
theorem mem_of_slices {α : Type} {cs : ℤ} (hcs : 0 < cs) {l part : List α} (hp : part ∈ slices cs l) {r : α}
    (hr : r ∈ part) : r ∈ l := by
  rw [← flatten_slices hcs l]
  exact List.mem_flatten.mpr ⟨part, hp, hr⟩

/-! ## Coordinates -/

theorem firstInvalidCoord_eq_none {values : List F32} {dim : ℕ} :
    firstInvalidCoord values dim = none ↔ ∀ x ∈ values, validCoord x = true := by
  rw [firstInvalidCoord, Option.map_eq_none_iff, List.findIdx?_eq_none_iff]
  simp

theorem finiteOk_iff (a : Batch) : finiteOk a = true ↔ ∀ r ∈ a.rows, ∀ x ∈ r, validCoord x = true := by
  have hnil : a.cols = 0 ∨ a.rows.flatten = [] → a.rows.flatten = [] := by
    rintro (h | h)
    · rw [List.flatten_eq_nil_iff]
      intro r hr
      exact List.eq_nil_of_length_eq_zero ((a.wide r hr).trans h)
    · exact h
  have hall : (∀ x ∈ a.rows.flatten, validCoord x = true) ↔ ∀ r ∈ a.rows, ∀ x ∈ r, validCoord x = true := by
    constructor
    · exact fun h r hr x hx => h x (List.mem_flatten.mpr ⟨r, hr, hx⟩)
    · intro h x hx
      obtain ⟨r, hr, hx⟩ := List.mem_flatten.mp hx
      exact h r hr x hx
  unfold finiteOk
  rw [← hall]
  split
  next h => simp [hnil h]
  next => rw [Option.isNone_iff_eq_none, firstInvalidCoord_eq_none]

/-! ## What an add leaves -/

/-- What an index holds, without how it holds it. -/
structure Content where
  dim : Option ℕ
  bitWidth : ℕ
  rows : List (List UInt8)
  scales : List F32
  tqplusShift : List F32
  tqplusScale : List F32

section content

variable {P : Platform} {T : Tables} {K : Kernels} {x : TurboQuantIndex} {c : Content} {cols : ℕ}

/-- The index holds the content, and its derived members are those of its dimension. -/
structure Holds (P : Platform) (T : Tables) (x : TurboQuantIndex) (c : Content) : Prop where
  rep : Rep P x c.rows
  keyed : Keyed T x
  dim : x.dim = c.dim
  bitWidth : x.bitWidth = c.bitWidth
  scales : x.scales = c.scales
  tqplusShift : x.tqplusShift = c.tqplusShift
  tqplusScale : x.tqplusScale = c.tqplusScale

theorem Holds.sameContent {y : TurboQuantIndex} (hx : Holds P T x c) (hy : Holds P T y c) : SameContent P x y where
  dim := hy.dim.trans hx.dim.symm
  bitWidth := hy.bitWidth.trans hx.bitWidth.symm
  packed := hy.rep.packed_eq.trans hx.rep.packed_eq.symm
  scales := hy.scales.trans hx.scales.symm
  tqplusShift := hy.tqplusShift.trans hx.tqplusShift.symm
  tqplusScale := hy.tqplusScale.trans hx.tqplusScale.symm

/-- The encoding of one row under the content's calibration. -/
def Content.encodeRow (T : Tables) (K : Kernels) (c : Content) (cols : ℕ) (r : List F32) : List UInt8 × List F32 :=
  K.encode r 1 cols cols (T.codebook c.bitWidth cols).1 (T.codebook c.bitWidth cols).2 c.bitWidth
    (if c.tqplusShift.isEmpty then none else some (c.tqplusShift, c.tqplusScale))

/-- The content with some rows pushed. -/
def Content.push (T : Tables) (K : Kernels) (c : Content) (cols : ℕ) (part : List (List F32)) : Content :=
  { c with
    dim := some cols
    rows := c.rows ++ part.map fun r => (c.encodeRow T K cols r).1
    scales := c.scales ++ part.flatMap fun r => (c.encodeRow T K cols r).2 }

theorem Content.push_push (part part' : List (List F32)) :
    (c.push T K cols part).push T K cols part' = c.push T K cols (part ++ part') := by
  unfold Content.push
  dsimp only
  rw [List.append_assoc, List.append_assoc, List.map_append, List.flatMap_append]
  rfl

theorem rowsOf_flatMap {w : ℕ} {f : List F32 → List UInt8} {part : List (List F32)}
    (hf : ∀ r ∈ part, (f r).length = w) : rowsOf w part.length (part.flatMap f) = part.map f := by
  have hlen : ∀ r ∈ part.map f, r.length = w := by
    intro r hr
    obtain ⟨s, hs, rfl⟩ := List.mem_map.mp hr
    exact hf s hs
  show (List.range part.length).map (rowAt (part.flatMap f) w) = part.map f
  apply List.ext_getElem
  · rw [List.length_map, List.length_map, List.length_range]
  · intro i hi hi'
    rw [List.getElem_map, List.getElem_range, List.flatMap_def]
    exact Grid.rowAt_flatten hlen hi'

/-- Appending without a fault. -/
theorem appendRows_none (y : TurboQuantIndex) (vectors : List F32) (n dim : ℕ) :
    ∃ x', y.appendRows P K vectors n dim none = .ok x' ∧ x'.dim = y.dim ∧ x'.bitWidth = y.bitWidth ∧
      x'.scales = y.scales ++ (K.encode vectors n dim (y.rotation.getD dim) (y.boundaries.getD [])
        (y.centroids.getD []) y.bitWidth y.calibration).2 := by
  unfold TurboQuantIndex.appendRows
  dsimp only
  split
  · exact ⟨_, rfl, rfl, rfl, rfl⟩
  · cases y.blocked with
    | none => exact ⟨_, rfl, rfl, rfl, rfl⟩
    | some cache => exact ⟨_, rfl, rfl, rfl, rfl⟩

theorem length_flatten_wide {part : List (List F32)} (hw : ∀ r ∈ part, r.length = cols) :
    part.flatten.length = part.length * cols := by
  induction part with
  | nil => simp
  | cons r part ih =>
    rw [List.flatten_cons, List.length_append, hw r List.mem_cons_self,
      ih fun s hs => hw s (List.mem_cons_of_mem r hs), List.length_cons, Nat.succ_mul, Nat.add_comm]

/-- Good rows are pushed, whatever holds the content. -/
theorem Holds.rawAdd (h : Holds P T x c) (hK : K.Sized) (hrow : RowWise K) (hdim : x.checkAddDim cols = .ok ())
    {part : List (List F32)} (hne : part ≠ []) (hw : ∀ r ∈ part, r.length = cols)
    (hvalid : ∀ r ∈ part, ∀ v ∈ r, validCoord v = true) :
    (rawAdd P T K cols x part).2 = .ok ∧ Holds P T (rawAdd P T K cols x part).1 (c.push T K cols part) := by
  have hpos : 0 < cols := by
    unfold TurboQuantIndex.checkAddDim at hdim
    cases hd : x.dim with
    | none =>
      rw [hd] at hdim
      dsimp only at hdim
      split at hdim
      · cases hdim
      · omega
    | some d =>
      have := (h.rep.dims d hd).2
      rw [TurboQuantIndex.eq_of_checkAddDim (x := x) (by unfold TurboQuantIndex.checkAddDim; exact hdim) hd] at this
      omega
  have hlen := length_flatten_wide hw
  have hdiv : part.flatten.length / cols = part.length := by
    rw [hlen, Nat.mul_div_cancel _ hpos]
  have hcount : part.length ≠ 0 := fun h0 => hne (List.eq_nil_of_length_eq_zero h0)
  have hcoord : firstInvalidCoord part.flatten cols = none := by
    rw [firstInvalidCoord_eq_none]
    intro v hv
    obtain ⟨r, hr, hv⟩ := List.mem_flatten.mp hv
    exact hvalid r hr v hv
  obtain ⟨x', hok, hxd, hxb, hxs⟩ := appendRows_none (P := P) (K := K) ((x.entered cols).warm T cols) part.flatten
    part.length cols
  have hadd : TurboQuantIndex.add P T K (x.entered cols) part.flatten cols none = .ok x' := by
    unfold TurboQuantIndex.add
    dsimp only
    rw [hdiv, if_neg (not_not.mpr hlen), if_neg hcount, hcoord]
    exact hok
  have hres : x.add2d P T K part.flatten cols none = (x', .ok) := by
    unfold TurboQuantIndex.add2d
    rw [hdim, hcoord]
    dsimp only
    have hempty : part.flatten.isEmpty = false := by
      rw [List.isEmpty_eq_false_iff, ← List.length_pos_iff, hlen]
      exact Nat.mul_pos (Nat.pos_of_ne_zero hcount) hpos
    rw [if_neg (by rw [hlen, Nat.mul_mod_left]; exact not_not.mpr rfl), hempty, if_neg Bool.false_ne_true]
    cases hd : x.dim with
    | none =>
      dsimp only
      rw [show ({ x with dim := some cols } : TurboQuantIndex) = x.entered cols from rfl, hadd]
    | some d =>
      dsimp only
      rw [TurboQuantIndex.entered_eq hdim hd] at hadd
      rw [hadd]
  -- the encoder is given the members under their keys and the calibration, so it encodes each row on its own
  have hown : ∀ d, x.dim = some d → d = cols := fun d hd => TurboQuantIndex.eq_of_checkAddDim hdim hd
  obtain ⟨hr, hb, hc⟩ := h.keyed.getD hown
  have hcal : x.calibration = if c.tqplusShift.isEmpty then none else some (c.tqplusShift, c.tqplusScale) := by
    rw [TurboQuantIndex.calibration, h.tqplusShift, h.tqplusScale]
  have henc : K.encode part.flatten part.length cols (((x.entered cols).warm T cols).rotation.getD cols)
      (((x.entered cols).warm T cols).boundaries.getD []) (((x.entered cols).warm T cols).centroids.getD [])
      ((x.entered cols).warm T cols).bitWidth ((x.entered cols).warm T cols).calibration =
      (part.flatMap fun r => (c.encodeRow T K cols r).1, part.flatMap fun r => (c.encodeRow T K cols r).2) := by
    show K.encode part.flatten part.length cols (x.rotation.getD cols) (x.boundaries.getD (T.codebook x.bitWidth cols).1)
      (x.centroids.getD (T.codebook x.bitWidth cols).2) x.bitWidth x.calibration = _
    rw [hr, hb, hc, hcal, h.bitWidth, hrow.encode part cols _ _ _ _ _ hw]
    rfl
  have hclean : ∀ f ∈ (none : Option Fault), f.Guarded := nofun
  have hrep := h.rep.add2d (T := T) hK part.flatten cols hclean
  have hkeyed := h.keyed.add2d (P := P) (K := K) part.flatten cols none
  have hpair := add2d_pair (P := P) (T := T) (K := K) x part.flatten cols none
  unfold Sliced.rawAdd
  rw [hres] at hrep hkeyed hpair ⊢
  refine ⟨rfl, ?_⟩
  have hrowlen : ∀ r ∈ part, ((c.encodeRow T K cols r).1).length = x.bitWidth * (cols / 8) := by
    intro r _
    have hs := (hK.encode r 1 cols cols (T.codebook c.bitWidth cols).1 (T.codebook c.bitWidth cols).2 c.bitWidth
      (if c.tqplusShift.isEmpty then none else some (c.tqplusShift, c.tqplusScale))).1
    rw [Nat.one_mul] at hs
    rw [h.bitWidth]
    exact hs
  constructor
  · dsimp only at hrep
    unfold encodedRows at hrep
    dsimp only at hrep
    rw [hdiv, henc, rowsOf_flatMap hrowlen] at hrep
    exact hrep
  · exact hkeyed
  · exact hxd
  · exact hxb.trans h.bitWidth
  · rw [hxs, henc]
    exact congrArg (· ++ _) h.scales
  · exact hpair.1.trans h.tqplusShift
  · exact hpair.2.trans h.tqplusScale

/-- A refused dimension refuses every batch alike. -/
theorem rawAdd_refused {e : AddError} (h : x.checkAddDim cols = .error e) (part : List (List F32)) :
    rawAdd P T K cols x part = (x, .err e) := by
  unfold rawAdd TurboQuantIndex.add2d
  rw [h]

/-- Once a dimension is committed it is taken. -/
theorem checkAddDim_of_dim (hd : x.dim = some cols) : x.checkAddDim cols = .ok () := by
  unfold TurboQuantIndex.checkAddDim
  rw [hd]
  exact if_neg (not_not.mpr rfl)

/-- Good slices one after the other push all their rows. -/
theorem Holds.runSlices (hK : K.Sized) (hrow : RowWise K) {parts : List (List (List F32))}
    (hne : ∀ part ∈ parts, part ≠ []) (hw : ∀ part ∈ parts, ∀ r ∈ part, r.length = cols)
    (hvalid : ∀ part ∈ parts, ∀ r ∈ part, ∀ v ∈ r, validCoord v = true) (h : Holds P T x c)
    (hdim : x.checkAddDim cols = .ok ()) (hsome : parts ≠ []) :
    (runSlices (Sliced.rawAdd P T K cols) x parts).2 = .ok ∧
      Holds P T (runSlices (Sliced.rawAdd P T K cols) x parts).1 (c.push T K cols parts.flatten) := by
  induction parts generalizing x c with
  | nil => exact absurd rfl hsome
  | cons part parts ih =>
    obtain ⟨hok, hheld⟩ := h.rawAdd hK hrow hdim (hne part List.mem_cons_self) (hw part List.mem_cons_self)
      (hvalid part List.mem_cons_self)
    have hstep : Sliced.runSlices (Sliced.rawAdd P T K cols) x (part :: parts) =
        Sliced.runSlices (Sliced.rawAdd P T K cols) (Sliced.rawAdd P T K cols x part).1 parts := by
      rw [Sliced.runSlices]
      generalize Sliced.rawAdd P T K cols x part = r at hok
      obtain ⟨x', o⟩ := r
      dsimp only at hok
      rw [hok]
    rw [hstep, List.flatten_cons]
    by_cases hlast : parts = []
    · subst hlast
      rw [List.flatten_nil, List.append_nil]
      exact ⟨rfl, hheld⟩
    · rw [← Content.push_push]
      exact ih (fun p hp => hne p (List.mem_cons_of_mem part hp)) (fun p hp => hw p (List.mem_cons_of_mem part hp))
        (fun p hp => hvalid p (List.mem_cons_of_mem part hp)) hheld (checkAddDim_of_dim hheld.dim) hlast

/-- Two ends of an add: the same outcome, and the same content. -/
structure SameEnd (P : Platform) (r r' : TurboQuantIndex × Outcome AddError) : Prop where
  outcome : r'.2 = r.2
  content : SameContent P r.1 r'.1

/-- The sliced `add` ends as the unsliced one. -/
theorem Holds.add (h : Holds P T x c) (hK : K.Sized) (hrow : RowWise K) (vectors : Batch) (cs : ℤ) :
    SameEnd P (Sliced.rawAdd P T K vectors.cols x vectors.rows) (Sliced.add P T K x vectors cs) := by
  unfold Sliced.add
  split
  next hgo =>
    rw [Bool.and_eq_true, finiteOk_iff, chunkable2d, Bool.and_eq_true, Bool.and_eq_true, decide_eq_true_eq,
      decide_eq_true_eq] at hgo
    obtain ⟨⟨⟨hcs, -⟩, hbig⟩, hfin⟩ := hgo
    have hrows : vectors.rows ≠ [] := by
      rintro hnil
      rw [hnil, List.length_nil] at hbig
      omega
    have hne : ∀ part ∈ slices cs vectors.rows, part ≠ [] := slicesOf_ne_nil (by omega)
    have hsome : slices cs vectors.rows ≠ [] := slices_nonempty hrows
    cases hdim : x.checkAddDim vectors.cols with
    | error e =>
      obtain ⟨part, parts, hparts⟩ := List.exists_cons_of_ne_nil hsome
      rw [hparts, Sliced.runSlices, rawAdd_refused hdim, rawAdd_refused hdim]
      exact ⟨rfl, h.sameContent h⟩
    | ok u =>
      obtain ⟨hok, hwhole⟩ := h.rawAdd hK hrow hdim hrows vectors.wide hfin
      obtain ⟨hok', hsliced⟩ := h.runSlices hK hrow hne
        (fun part hp r hr => vectors.wide r (mem_of_slices hcs hp hr))
        (fun part hp r hr => hfin r (mem_of_slices hcs hp hr)) hdim hsome
      rw [flatten_slices hcs] at hsliced
      exact ⟨hok'.trans hok.symm, hwhole.sameContent hsliced⟩
  next =>
    have hself (y : TurboQuantIndex) : SameContent P y y := ⟨rfl, rfl, rfl, rfl, rfl, rfl⟩
    exact ⟨rfl, hself _⟩

/-! ## What an add with ids leaves -/

section ids

variable {x : IdMapIndex}

/-- Good rows under new ids are pushed, in both windows of the id table. -/
theorem Holds.rawAddWithIds {x : IdMapIndex} (h : Holds P T x.inner c) (hx : x.Coherent) (hK : K.Sized)
    (hrow : RowWise K) (hcols : cols ≠ 0) (hdim : x.inner.checkAddDim cols = .ok ()) {part : List (List F32)}
    {ids : List UInt64} (hne : part ≠ []) (hw : ∀ r ∈ part, r.length = cols)
    (hvalid : ∀ r ∈ part, ∀ v ∈ r, validCoord v = true) (hlen : ids.length = part.length) (hnd : ids.Nodup)
    (hfresh : ∀ id ∈ ids, id ∉ x.slotToId) :
    ∃ x', rawAddWithIds P T K cols x (part, ids) = (x', .ok) ∧ x'.Coherent ∧ x'.slotToId = x.slotToId ++ ids ∧
      Holds P T x'.inner (c.push T K cols part) := by
  have hflat := length_flatten_wide hw
  have hdiv : part.flatten.length / cols = part.length := by
    rw [hflat, Nat.mul_div_cancel _ (Nat.pos_of_ne_zero hcols)]
  have hcheck : IdMapIndex.checkIds x.present ids ∅ = .ok () := by
    rw [IdMapIndex.checkIds_eq_ok]
    refine ⟨hnd, fun id hid => ⟨?_, Finset.notMem_empty id⟩⟩
    rw [hx.present]
    exact decide_eq_false (hfresh id hid)
  obtain ⟨hok, hheld⟩ := h.rawAdd hK hrow hdim hne hw hvalid
  obtain ⟨hco, hpush, -⟩ := IdMapIndex.addWithIds2d_cases hx (P := P) (T := T) (K := K) part.flatten cols ids none
  unfold Sliced.rawAdd at hok hheld
  have hres : ∃ x', x.addWithIds2d P T K part.flatten cols ids none = (x', .ok) ∧
      x'.inner = (x.inner.add2d P T K part.flatten cols none).1 := by
    unfold IdMapIndex.addWithIds2d
    rw [if_neg hcols, if_neg (by rw [hflat, Nat.mul_mod_left]; exact not_not.mpr rfl)]
    dsimp only
    rw [hdiv, if_neg (not_not.mpr hlen), hcheck]
    dsimp only
    generalize x.inner.add2d P T K part.flatten cols none = r at hok
    obtain ⟨inner, o⟩ := r
    dsimp only at hok
    subst hok
    exact ⟨_, rfl, rfl⟩
  obtain ⟨x', hx', hinner⟩ := hres
  rw [hx'] at hco hpush
  refine ⟨x', hx', hco, (hpush rfl).2.2, ?_⟩
  rw [hinner]
  exact hheld

/-- A refused dimension refuses every batch of new ids alike. -/
theorem rawAddWithIds_refused (hcols : cols ≠ 0) {e : AddError} (h : x.inner.checkAddDim cols = .error e)
    {part : List (List F32)} {ids : List UInt64} (hw : ∀ r ∈ part, r.length = cols) (hlen : ids.length = part.length)
    (hcheck : IdMapIndex.checkIds x.present ids ∅ = .ok ()) : rawAddWithIds P T K cols x (part, ids) = (x, .err e) := by
  have hflat := length_flatten_wide hw
  have hdiv : part.flatten.length / cols = part.length := by
    rw [hflat, Nat.mul_div_cancel _ (Nat.pos_of_ne_zero hcols)]
  unfold rawAddWithIds IdMapIndex.addWithIds2d
  dsimp only
  rw [if_neg hcols, if_neg (by rw [hflat, Nat.mul_mod_left]; exact not_not.mpr rfl), hdiv,
    if_neg (not_not.mpr hlen), hcheck]
  dsimp only
  have hrefused := rawAdd_refused (P := P) (T := T) (K := K) h part
  unfold Sliced.rawAdd at hrefused
  rw [hrefused]

/-- Good slices one after the other push all rows and all ids. -/
theorem Holds.runSlices_ids (hK : K.Sized) (hrow : RowWise K) (hcols : cols ≠ 0) {cs : ℕ} (hcs : 0 < cs) {fuel : ℕ}
    {x : IdMapIndex} {c : Content} {rows : List (List F32)} {ids : List UInt64} (hfuel : rows.length ≤ fuel)
    (h : Holds P T x.inner c) (hx : x.Coherent) (hdim : x.inner.checkAddDim cols = .ok ()) (hne : rows ≠ [])
    (hw : ∀ r ∈ rows, r.length = cols) (hvalid : ∀ r ∈ rows, ∀ v ∈ r, validCoord v = true)
    (hlen : ids.length = rows.length) (hnd : ids.Nodup) (hfresh : ∀ id ∈ ids, id ∉ x.slotToId) :
    ∃ x', Sliced.runSlices (Sliced.rawAddWithIds P T K cols) x
        ((slicesOf cs fuel rows).zip (slicesOf cs fuel ids)) = (x', .ok) ∧
      x'.slotToId = x.slotToId ++ ids ∧ Holds P T x'.inner (c.push T K cols rows) := by
  induction fuel generalizing x c rows ids with
  | zero => exact absurd (List.eq_nil_of_length_eq_zero (by omega)) hne
  | succ fuel ih =>
    have hids : ids ≠ [] := by
      rintro rfl
      exact hne (List.eq_nil_of_length_eq_zero hlen.symm)
    have hpos : 0 < rows.length := List.length_pos_iff.mpr hne
    -- the first slice
    have hhead : rows.take cs ≠ [] := by
      rw [Ne, List.take_eq_nil_iff, not_or]
      exact ⟨hcs.ne', hne⟩
    have hheadlen : (ids.take cs).length = (rows.take cs).length := by
      rw [List.length_take, List.length_take, hlen]
    obtain ⟨x₁, hstep, hx₁, hslots, hheld⟩ := h.rawAddWithIds hx hK hrow hcols hdim hhead
      (fun r hr => hw r (List.mem_of_mem_take hr)) (fun r hr => hvalid r (List.mem_of_mem_take hr)) hheadlen
      (hnd.sublist (List.take_sublist cs ids)) fun id hid => hfresh id (List.mem_of_mem_take hid)
    rw [slicesOf, slicesOf, if_neg (by simpa using hne), if_neg (by simpa using hids), List.zip_cons_cons,
      Sliced.runSlices, hstep]
    dsimp only
    by_cases hlast : rows.drop cs = []
    · have hlast' : ids.drop cs = [] := by
        rw [List.drop_eq_nil_iff] at hlast ⊢
        omega
      have hnil : slicesOf cs fuel (rows.drop cs) = [] := by
        rw [hlast]
        cases fuel <;> rfl
      have hrows : rows.take cs = rows := by
        rw [List.drop_eq_nil_iff] at hlast
        exact List.take_of_length_le hlast
      have hids' : ids.take cs = ids := by
        rw [List.drop_eq_nil_iff] at hlast'
        exact List.take_of_length_le hlast'
      rw [hnil, List.zip_nil_left]
      rw [hids'] at hslots
      rw [hrows] at hheld
      exact ⟨x₁, rfl, hslots, hheld⟩
    · have hfuel' : (rows.drop cs).length ≤ fuel := by
        rw [List.length_drop]
        omega
      have htaillen : (ids.drop cs).length = (rows.drop cs).length := by
        rw [List.length_drop, List.length_drop, hlen]
      -- an id of the rest is neither held before nor among the first slice's
      have hrest : ∀ id ∈ ids.drop cs, id ∉ x₁.slotToId := by
        intro id hid
        rw [hslots, List.mem_append, not_or]
        refine ⟨hfresh id (List.mem_of_mem_drop hid), fun htake => ?_⟩
        rw [← List.take_append_drop cs ids, List.nodup_append] at hnd
        exact hnd.2.2 id htake id hid rfl
      obtain ⟨x₂, hrun, hslots₂, hheld₂⟩ := ih hfuel' hheld hx₁ (checkAddDim_of_dim hheld.dim) hlast
        (fun r hr => hw r (List.mem_of_mem_drop hr)) (fun r hr => hvalid r (List.mem_of_mem_drop hr)) htaillen
        (hnd.sublist (List.drop_sublist cs ids)) hrest
      refine ⟨x₂, hrun, ?_, ?_⟩
      · rw [hslots₂, hslots, List.append_assoc, List.take_append_drop]
      · rw [Content.push_push, List.take_append_drop] at hheld₂
        exact hheld₂

/-- Two ends of an add with ids: the same outcome, content and ids. -/
structure SameIdsEnd (P : Platform) (r r' : IdMapIndex × Outcome AddError) : Prop where
  outcome : r'.2 = r.2
  content : SameContent P r.1.inner r'.1.inner
  ids : r'.1.slotToId = r.1.slotToId

/-- The sliced `add_with_ids` ends as the unsliced one. -/
theorem Holds.addWithIds (h : Holds P T x.inner c) (hx : x.Coherent) (hK : K.Sized) (hrow : RowWise K)
    (vectors : Batch) (ids : List UInt64) (plainIds : Bool) (cs : ℤ) :
    SameIdsEnd P (Sliced.rawAddWithIds P T K vectors.cols x (vectors.rows, ids))
      (Sliced.addWithIds P T K x vectors ids plainIds cs) := by
  have hself (r : IdMapIndex × Outcome AddError) : SameIdsEnd P r r := ⟨rfl, ⟨rfl, rfl, rfl, rfl, rfl, rfl⟩, rfl⟩
  unfold Sliced.addWithIds
  split
  next hgo =>
    simp only [Bool.and_eq_true, finiteOk_iff, chunkable2d, decide_eq_true_eq] at hgo
    obtain ⟨⟨⟨⟨⟨⟨hcs, -⟩, hbig⟩, -⟩, hlen⟩, hfin⟩, haddable⟩ := hgo
    have hcs' : 0 < cs.toNat := by omega
    have hrows : vectors.rows ≠ [] := by
      rintro hnil
      rw [hnil, List.length_nil] at hbig
      omega
    have hcheck := IdMapIndex.batchAddable_iff.mp haddable
    obtain ⟨hnd, hnew⟩ := IdMapIndex.checkIds_eq_ok.mp hcheck
    have hfresh : ∀ id ∈ ids, id ∉ x.slotToId := by
      intro id hid
      have hp := (hnew id hid).1
      rw [hx.present] at hp
      exact of_decide_eq_false hp
    have hhead : ∃ rest, (slices cs vectors.rows).zip (slices cs ids) =
        (vectors.rows.take cs.toNat, ids.take cs.toNat) :: rest := by
      obtain ⟨r, rows, hr⟩ := List.exists_cons_of_ne_nil hrows
      obtain ⟨id, ids', hi⟩ := List.exists_cons_of_ne_nil (l := ids) (by
        rintro rfl
        exact hrows (List.eq_nil_of_length_eq_zero hlen.symm))
      unfold slices
      rw [hr, hi, List.length_cons, List.length_cons, slicesOf, slicesOf, List.isEmpty_cons,
        List.isEmpty_cons, if_neg Bool.false_ne_true, if_neg Bool.false_ne_true, List.zip_cons_cons]
      exact ⟨_, rfl⟩
    obtain ⟨rest, hrest⟩ := hhead
    by_cases hcols : vectors.cols = 0
    · -- no width: the first slice is refused as the batch is
      have hzero (b : List (List F32) × List UInt64) :
          Sliced.rawAddWithIds P T K vectors.cols x b = (x, .err .zeroDim) := by
        unfold Sliced.rawAddWithIds IdMapIndex.addWithIds2d
        rw [if_pos hcols]
      rw [hrest, Sliced.runSlices, hzero, hzero]
      exact hself _
    · cases hdim : x.inner.checkAddDim vectors.cols with
      | error e =>
        have hfirst : IdMapIndex.checkIds x.present (ids.take cs.toNat) ∅ = .ok () := by
          rw [IdMapIndex.checkIds_eq_ok]
          exact ⟨hnd.sublist (List.take_sublist _ _), fun id hid => hnew id (List.mem_of_mem_take hid)⟩
        rw [hrest, Sliced.runSlices, rawAddWithIds_refused hcols hdim vectors.wide hlen hcheck,
          rawAddWithIds_refused hcols hdim (fun r hr => vectors.wide r (List.mem_of_mem_take hr))
            (by rw [List.length_take, List.length_take, hlen]) hfirst]
        exact hself _
      | ok u =>
        obtain ⟨x₁, hwhole, -, hslots, hheld⟩ := h.rawAddWithIds hx hK hrow hcols hdim hrows vectors.wide hfin hlen hnd
          hfresh
        obtain ⟨x₂, hsliced, hslots', hheld'⟩ := h.runSlices_ids hK hrow hcols hcs' (le_refl vectors.rows.length) hx hdim
          hrows vectors.wide hfin hlen hnd hfresh
        have hrun : Sliced.runSlices (Sliced.rawAddWithIds P T K vectors.cols) x
            ((slices cs vectors.rows).zip (slices cs ids)) = (x₂, .ok) := by
          unfold slices
          rw [hlen]
          exact hsliced
        rw [hwhole, hrun]
        exact ⟨rfl, hheld.sameContent hheld', hslots'.trans hslots.symm⟩
  next => exact hself _

end ids

end content

end Turbovec.Sliced
