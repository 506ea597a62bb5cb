import Turbovec.Encode.Rows
import Turbovec.Index.Content
import Turbovec.Scan.Exact

/-!
# The encoder and the scan as kernels

An index is given its encoder and its scan. Here they are the ones of `Encode` and of the classic search: the encoder's
values are read from their 32 bits and stored to them, and the scan scores a row by the query and the index it is given.
Both take a batch row by row.
-/

namespace Turbovec

open Pack Slice Grid

theorem flatMap_replicate {α β : Type} (l : List α) (m : ℕ) (b : β) :
    (l.flatMap fun _ => List.replicate m b) = List.replicate (l.length * m) b := by
  rw [List.flatMap_def, List.map_const', List.flatten_replicate_replicate]

/-- The rows of a batch, by their places. -/
theorem map_rowAt_flatten {α : Type} {rows : List (List α)} {d : ℕ} (h : ∀ r ∈ rows, r.length = d) :
    (List.range rows.length).map (rowAt rows.flatten d) = rows := by
  apply List.ext_getElem
  · rw [List.length_map, List.length_range]
  · intro i hi hi'
    rw [List.getElem_map, List.getElem_range, Grid.rowAt_flatten h hi']

/-! ## The encoder -/

namespace Encode

/-- What an encoder is built from: its values and how they are stored, what draws the rotation, and the machine. -/
structure Setting (α β σ : Type) where
  floats : Floats α β
  load : F32 → α
  store : α → F32
  rng : Rng σ
  seed : σ
  invSqrt : ℕ → α
  machine : Machine

namespace Setting

variable {α β σ : Type}
variable [Add α] [Sub α] [Mul α] [Div α] [Neg α] [Zero α] [One α] [LinearOrder α]
variable [Add β] [Sub β] [Mul β] [Zero β] [LT β] [DecidableLT β]

/-- One batch, its workers' buffers not yet written. -/
def batch (Z : Setting α β σ) (bits dim : ℕ) (vectors : List F32) (n : ℕ) : Batch α bits dim where
  machine := Z.machine
  vectors := vectors.map Z.load
  n := n
  bufs _ := (⟨dim, fun _ => 0⟩, ⟨dim, fun _ => 0⟩)
  rowBuf _ := zeroRow bits dim

def encoder (Z : Setting α β σ) (bits dim : ℕ) (rotation : Rotation α) (boundaries centroids : List F32)
    (calibration : Option (List F32 × List F32)) : Encoder α bits dim where
  rotation := rotation
  boundaries := boundaries.map Z.load
  centroids := centroids.map Z.load
  calibration := calibration.map fun pair => (pair.1.map Z.load, pair.2.map Z.load)

/-- What an index encodes with: its own rotation, a whole codebook in order, a pair as wide as a row. -/
def Fits (Z : Setting α β σ) (dim rotation : ℕ) (boundaries : List F32) (bits : ℕ)
    (calibration : Option (List F32 × List F32)) : Prop :=
  ValidBits bits ∧ dim ≠ 0 ∧ dim % 8 = 0 ∧ rotation = dim ∧ boundaries.length = 2 ^ bits - 1 ∧
    (boundaries.map Z.load).Pairwise (· ≤ ·) ∧ ∀ pair ∈ calibration, pair.1.length = dim ∧ pair.2.length = dim

instance (Z : Setting α β σ) (dim rotation : ℕ) (boundaries : List F32) (bits : ℕ)
    (calibration : Option (List F32 × List F32)) : Decidable (Z.Fits dim rotation boundaries bits calibration) :=
  inferInstanceAs (Decidable (_ ∧ _ ∧ _ ∧ _ ∧ _ ∧ _ ∧ _))

/-- The encoder on one batch. What no index asks for comes out as zeros. -/
def encode (Z : Setting α β σ) (vectors : List F32) (n dim rotation : ℕ) (boundaries centroids : List F32) (bits : ℕ)
    (calibration : Option (List F32 × List F32)) : List UInt8 × List F32 :=
  let coded :=
    if vectors.length = n * dim ∧ Z.Fits dim rotation boundaries bits calibration then
      (Rotation.new Z.rng Z.seed Z.invSqrt dim).bind fun R =>
        encodeAll Z.floats (Z.encoder bits dim R boundaries centroids calibration) [Z.batch bits dim vectors n]
    else none
  coded.elim (List.replicate (n * (bits * (dim / 8))) 0, List.replicate n 0) fun out => (out.1, out.2.map Z.store)

/-- The encoder, with calibrations and re-encodings that do nothing. -/
def kernels (Z : Setting α β σ) : Kernels := { zeroKernels with encode := Z.encode }

/-- A batch of whole rows is encoded row by row, each row to as many bytes. -/
theorem encode_rows (Z : Setting α β σ) (dim rotation : ℕ) (boundaries centroids : List F32) (bits : ℕ)
    (calibration : Option (List F32 × List F32)) :
    ∃ (f : List F32 → List UInt8) (g : List F32 → F32), (∀ r, (f r).length = bits * (dim / 8)) ∧
      ∀ rows : List (List F32), (∀ r ∈ rows, r.length = dim) →
        Z.encode rows.flatten rows.length dim rotation boundaries centroids bits calibration =
          (rows.flatMap f, rows.map g) := by
  by_cases hfits : Z.Fits dim rotation boundaries bits calibration ∧ (Rotation.new Z.rng Z.seed Z.invSqrt dim).isSome
  · obtain ⟨hfits, hsome⟩ := hfits
    obtain ⟨R, hR⟩ := Option.isSome_iff_exists.mp hsome
    obtain ⟨hbits, hpos, hmod, -, hlen, hsorted, hwide⟩ := id hfits
    let E : Encoder α bits dim := Z.encoder bits dim R boundaries centroids calibration
    have hpair : E.pair.1.length = dim ∧ E.pair.2.length = dim := by
      cases calibration with
      | none => exact ⟨List.length_replicate, List.length_replicate⟩
      | some pair =>
        obtain ⟨hshift, hscale⟩ := hwide pair rfl
        exact ⟨(List.length_map _).trans hshift, (List.length_map _).trans hscale⟩
    refine ⟨fun r => (encodeRow Z.floats E (r.map Z.load)).1, fun r => Z.store (encodeRow Z.floats E (r.map Z.load)).2,
      fun r => length_encodeRow Z.floats E _, fun rows hrows => ?_⟩
    have hflat : rows.flatten.length = rows.length * dim := by
      rw [List.flatten_eq_flatMap]
      exact length_flatMap_const hrows
    -- The rows of 32 bits, read one by one, are the rows of the batch.
    have hof : (Z.batch bits dim rows.flatten rows.length).Of (rows.map (List.map Z.load)) := by
      refine ⟨fun _ _ => ⟨rfl, rfl⟩, ?_, (List.length_map _).symm, List.map_flatten⟩
      intro r hr
      obtain ⟨s, hs, rfl⟩ := List.mem_map.mp hr
      rw [List.length_map, hrows s hs]
    have hall := encodeAll_eq (E := E) hR hbits hpos hmod ((List.length_map _).trans hlen) hsorted hpair Z.floats
      (List.Forall₂.cons hof List.Forall₂.nil)
    rw [List.flatten_singleton, List.flatMap_map, List.map_map] at hall
    rw [encode, if_pos ⟨hflat, hfits⟩, hR]
    dsimp only [Option.bind_some]
    rw [hall, Option.elim_some, List.map_map]
    rfl
  · -- off the encoder's own conditions every row is zeros
    refine ⟨fun _ => List.replicate (bits * (dim / 8)) 0, fun _ => 0, fun _ => List.length_replicate, fun rows hrows => ?_⟩
    have hnone (E : Rotation α → Encoder α bits dim) (b : Batch α bits dim) :
        (if rows.flatten.length = rows.length * dim ∧ Z.Fits dim rotation boundaries bits calibration then
          (Rotation.new Z.rng Z.seed Z.invSqrt dim).bind fun R => encodeAll Z.floats (E R) [b] else none) = none := by
      split
      · rename_i h
        rw [Option.not_isSome_iff_eq_none.mp fun hsome => hfits ⟨h.2, hsome⟩]
        rfl
      · rfl
    rw [encode, hnone fun R => Z.encoder bits dim R boundaries centroids calibration, flatMap_replicate, List.map_const']
    rfl

theorem kernels_sized (Z : Setting α β σ) : Z.kernels.Sized where
  encode vectors n dim rotation boundaries centroids bits calibration := by
    show (Z.encode vectors n dim rotation boundaries centroids bits calibration).1.length = n * (bits * (dim / 8)) ∧
      (Z.encode vectors n dim rotation boundaries centroids bits calibration).2.length = n
    obtain ⟨f, g, hf, hrows⟩ := Z.encode_rows dim rotation boundaries centroids bits calibration
    by_cases hlen : vectors.length = n * dim
    · -- the vectors are the rows cut from them
      let rows := (List.range n).map (rowAt vectors dim)
      have hwide : ∀ r ∈ rows, r.length = dim := by
        intro r hr
        obtain ⟨i, hi, rfl⟩ := List.mem_map.mp hr
        exact length_rowAt hlen (List.mem_range.mp hi)
      have hcount : rows.length = n := by rw [List.length_map, List.length_range]
      have hvectors : rows.flatten = vectors := by
        rw [← List.flatMap_def]
        exact flatMap_rowAt hlen
      have h := hrows rows hwide
      rw [hvectors, hcount] at h
      rw [h]
      constructor
      · rw [length_flatMap_const fun r _ => hf r, hcount]
      · rw [List.length_map, hcount]
    · rw [encode, if_neg fun h => hlen h.1]
      exact ⟨List.length_replicate, List.length_replicate⟩
  reencode := zeroKernels_sized.reencode

theorem kernels_paired (Z : Setting α β σ) : Z.kernels.Paired := ⟨zeroKernels_paired.shift, zeroKernels_paired.scale⟩

end Setting

/-- Integers for values, in the order of the 32 bits. -/
def intSetting : Setting ℤ ℤ Unit where
  floats := intFloats
  load := F32.key
  store v := ⟨UInt32.ofNat v.toNat⟩
  rng := Rotation.zeroRng
  seed := ()
  invSqrt _ := 1
  machine := ⟨⟨.x86_64, true⟩, true, .avx512⟩

end Encode

/-! ## The scan -/

namespace Scan

open TopK

/-- The classic search as an index's scan. A score is that of a query and a slot, under what else the scan is given. -/
def classicScan (H : Host) (score : ScanInput → List F32 → ℕ → Score) : ScanKernels :=
  { zeroScan with
    search := fun inp =>
      let floor := if h : inp.initialThreshold.isNaN = false then ⟨inp.initialThreshold, h⟩ else Score.negInf
      let out := searchClassic H inp.bitWidth inp.nVectors
        (fun q v => score { inp with queries := [], nq := 0 } (rowAt inp.queries inp.dim q) v) inp.nq inp.k inp.mask floor
      (out.1.map Subtype.val, out.2) }

/-- A batch of whole queries is answered one by one, each as widely. -/
theorem classicScan_rows (H : Host) (score : ScanInput → List F32 → ℕ → Score) (inp : ScanInput) :
    ∃ (row : List F32 → List (Score × ℤ)) (width : ℕ), (∀ r, (row r).length = width) ∧
      ∀ rows : List (List F32), (∀ r ∈ rows, r.length = inp.dim) →
        (classicScan H score).search { inp with queries := rows.flatten, nq := rows.length } =
          (rows.flatMap fun r => (row r).map fun e => e.1.1, rows.flatMap fun r => (row r).map Prod.snd) := by
  let floor : Score := if h : inp.initialThreshold.isNaN = false then ⟨inp.initialThreshold, h⟩ else Score.negInf
  let width := min inp.k (nAllowed inp.mask inp.nVectors)
  let row (r : List F32) : List (Score × ℤ) := padded width (first rank width
    ((slots (allows inp.mask) (score { inp with queries := [], nq := 0 } r) 0 inp.nVectors).filter
      fun e => floor.nextDown.lt e.1))
  refine ⟨row, width, fun r => ?_, fun rows hrows => ?_⟩
  · apply length_padded
    rw [length_first]
    exact Nat.min_le_left _ _
  · have hout := searchClassic_words H inp.bitWidth inp.nVectors
      (fun q v => score { inp with queries := [], nq := 0 } (rowAt rows.flatten inp.dim q) v) rows.length inp.k inp.mask
      floor
    have hrow : ((List.range rows.length).flatMap fun q => row (rowAt rows.flatten inp.dim q)) = rows.flatMap row := by
      conv_rhs => rw [← map_rowAt_flatten hrows, List.flatMap_map]
    refine (congrArg (fun out : List Score × List ℤ => (out.1.map Subtype.val, out.2)) hout).trans ?_
    show ((((List.range rows.length).flatMap fun q => row (rowAt rows.flatten inp.dim q)).map Prod.fst).map Subtype.val,
      ((List.range rows.length).flatMap fun q => row (rowAt rows.flatten inp.dim q)).map Prod.snd) = _
    rw [hrow, List.map_map, List.map_flatMap, List.map_flatMap]
    rfl

end Scan

end Turbovec
