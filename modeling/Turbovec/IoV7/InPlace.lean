import Turbovec.IoV7.RoundTrip

/-!
# Compacting in place

The loader rolls each unit's codes down over the front of the buffer it reads from. A decoder that reads
every unit from an untouched image and appends its parts to fresh buffers yields the same load: the units
after block `k` start past everything the first `k` units have written.
-/

namespace Turbovec.IoV7

open LittleEndian Slice Grid Pack

/-! ## The decoder that copies -/

/-- One unit read from the image: its codes, sign bytes, scales and ids go after those so far. -/
def copyUnit (raw : List UInt8) (geo : Geo) (st : Gathered) (b : ℕ) : Except String Gathered := do
  let at_ := geo.unitAt b
  reject (raw.length < at_ + geo.unitLen) "truncated block unit"
  let scales := (List.range BLOCK).map fun lane => scaleAt raw (at_ + geo.blockBytes + lane * 4)
  reject (!scales.all validScale) s!"invalid per-vector scale in block {b}"
  let ids := if geo.kind = 1 then
      (List.range BLOCK).map fun lane => idAt raw (at_ + geo.blockBytes + BLOCK * 4 + lane * 8)
    else []
  let (sb, lb) := geo.planesParts
  return if geo.layout = LAYOUT_PLANES then
      ⟨st.buf ++ bytesAt raw (at_ + sb) lb, st.sign ++ bytesAt raw at_ sb, st.scales ++ scales,
        st.ids ++ ids⟩
    else ⟨st.buf ++ bytesAt raw at_ geo.blockBytes, st.sign, st.scales ++ scales, st.ids ++ ids⟩

section Decoder

variable (img : ParsedImage)

/-- The units of an image, rolled down its own buffer and padded. -/
def ParsedImage.gatherInPlace (raw : List UInt8) : Except String Gathered :=
  return img.spread (← (List.range (img.nVectors / BLOCK)).foldlM (gatherUnit img.geo) (img.start raw))

/-- Fresh buffers padded to whole blocks. -/
def ParsedImage.pad (st : Gathered) : Gathered :=
  { st with
    buf := resize st.buf img.keptPadded.2
    sign := resize st.sign (if img.geo.layout = LAYOUT_PLANES then
      (img.nVectors + 31) / 32 * img.geo.planesParts.1 else 0) }

/-- The units of an image, copied out and padded. -/
def ParsedImage.gatherByCopy (raw : List UInt8) : Except String Gathered :=
  return img.pad (← (List.range (img.nVectors / BLOCK)).foldlM (copyUnit raw img.geo) ⟨[], [], [], []⟩)

/-- The redo ops and the tail rows over gathered units, and the load. -/
def ParsedImage.finish (expectCalibGen : ℕ) (st : Gathered) : Except String V7Load := do
  let st ← img.ops.foldlM (fun st g => g.2.foldlM (applyOp img.geo) st) st
  let st ← img.tailRows.foldlM (applyTail img.geo) st
  let planes := img.geo.layout = LAYOUT_PLANES
  return ⟨img.geo.dim, img.geo.bitWidth, img.nVectors, img.geo.layout, if planes then [] else st.buf,
    st.sign, if planes then st.buf else [], st.scales, st.ids, img.tqplusShift, img.tqplusScale,
    ⟨img.gen, img.nVectors, expectCalibGen, img.nonce⟩, img.pendingSlots⟩

end Decoder

/-- A load that never writes to the image. -/
def decodeImage (T : Tables) (raw : List UInt8) (expectCalibGen expectKind : ℕ) :
    Except String V7Load := do
  let img ← parseImage T raw expectKind
  img.finish expectCalibGen (← img.gatherByCopy raw)

theorem loadImage_eq (T : Tables) (raw : List UInt8) (expectCalibGen expectKind : ℕ) :
    loadImage T raw expectCalibGen expectKind = (do
      let img ← parseImage T raw expectKind
      img.finish expectCalibGen (← img.gatherInPlace raw)) := by
  unfold loadImage
  apply bind_congr
  intro img
  unfold ParsedImage.gatherInPlace
  rw [bind_assoc]
  rfl

/-! ## One unit -/

section Units

variable {raw : List UInt8} {img : ParsedImage} {k : ℕ} {st : Gathered}

/-- The copied-out part of the buffers after `k` units. -/
def ParsedImage.fresh (img : ParsedImage) (k : ℕ) (st : Gathered) : Gathered :=
  ⟨st.buf.take (k * img.geo.moved.2), st.sign.take (k * img.geo.planesParts.1), st.scales, st.ids⟩

theorem take_overwrite {l : List UInt8} {off : ℕ} (data : List UInt8) (h : off ≤ l.length) :
    (overwrite l off data).take (off + data.length) = l.take off ++ data := by
  have hlen : (l.take off ++ data).length = off + data.length := by
    rw [List.length_append, List.length_take, Nat.min_eq_left h]
  rw [overwrite, ← hlen, List.take_left]

theorem length_signPieces (hg : img.geo.Valid) (hl : img.geo.layout = LAYOUT_PLANES)
    (hk : k ≤ img.nVectors / BLOCK) (hfit : img.geo.unitAt (img.nVectors / BLOCK) ≤ raw.length) :
    ∀ b < k, (bytesAt raw (img.geo.unitAt b) img.geo.planesParts.1).length = img.geo.planesParts.1 := by
  intro b hb
  have hmoved := Geo.moved_le hg
  have hunit := (img.geo.unitAt_add_le (show b < img.nVectors / BLOCK by omega)).trans hfit
  simp only [Geo.moved, hl, if_true, Geo.blockBytes] at hmoved
  simp only [Geo.unitLen] at hunit
  exact length_bytesAt (by omega)

theorem GatheredTo.length_sign (hg : img.geo.Valid) (hl : img.geo.layout = LAYOUT_PLANES)
    (hk : k ≤ img.nVectors / BLOCK) (hfit : img.geo.unitAt (img.nVectors / BLOCK) ≤ raw.length)
    (h : GatheredTo img raw k st) :
    st.sign.length = (img.nVectors + 31) / 32 * img.geo.planesParts.1 := by
  have hle : k ≤ (img.nVectors + 31) / 32 := by
    simp only [BLOCK] at hk
    omega
  rw [h.sign, if_pos hl, List.length_append, length_flatMap_range (length_signPieces hg hl hk hfit),
    List.length_replicate, ← Nat.add_mul, Nat.add_sub_cancel' hle]

/-- No byte from unit `k` on has been written. -/
theorem GatheredTo.untouched (hg : img.geo.Valid) (h : GatheredTo img raw k st) {i : ℕ}
    (hi : img.geo.unitAt k ≤ i) : st.buf[i]? = raw[i]? :=
  h.buf.back i ((mul_le_unitAt (Geo.moved_le hg) k).trans hi)

/-- The next unit adds to the copied-out part what the copying decoder adds. -/
theorem copyUnit_fresh (hg : img.geo.Valid) (hk : k < img.nVectors / BLOCK)
    (hfit : img.geo.unitAt (img.nVectors / BLOCK) ≤ raw.length) (h : GatheredTo img raw k st) :
    copyUnit raw img.geo (img.fresh k st) k = img.fresh (k + 1) <$> gatherUnit img.geo st k := by
  have hunit : img.geo.unitAt k + img.geo.unitLen ≤ raw.length :=
    (img.geo.unitAt_add_le hk).trans hfit
  have hread (off m : ℕ) (hoff : img.geo.unitAt k ≤ off) : bytesAt st.buf off m = bytesAt raw off m :=
    bytesAt_congr fun i hi => h.untouched hg (hoff.trans hi)
  have hscale (lane : ℕ) : scaleAt st.buf (img.geo.unitAt k + img.geo.blockBytes + lane * 4) =
      scaleAt raw (img.geo.unitAt k + img.geo.blockBytes + lane * 4) := by
    rw [scaleAt, scaleAt, hread _ _ (by omega)]
  have hid (lane : ℕ) : idAt st.buf (img.geo.unitAt k + img.geo.blockBytes + BLOCK * 4 + lane * 8) =
      idAt raw (img.geo.unitAt k + img.geo.blockBytes + BLOCK * 4 + lane * 8) := by
    rw [idAt, idAt, hread _ _ (by omega)]
  have hfront := (compacted_succ (Geo.moved_le hg) hunit h.buf).front
  rw [List.range_succ, List.flatMap_append, ← h.buf.front, List.flatMap_singleton] at hfront
  unfold copyUnit gatherUnit
  simp only [hscale, hid, h.buf.length_eq, map_bind, map_pure]
  apply bind_congr
  intro _
  apply bind_congr
  intro _
  by_cases hl : img.geo.layout = LAYOUT_PLANES
  · have hblock : k < (img.nVectors + 31) / 32 := by
      simp only [BLOCK] at hk
      omega
    have hpiece : (bytesAt raw (img.geo.unitAt k) img.geo.planesParts.1).length =
        img.geo.planesParts.1 := length_signPieces hg hl hk hfit k (Nat.lt_succ_self k)
    have hsign := take_overwrite (bytesAt raw (img.geo.unitAt k) img.geo.planesParts.1)
      (show k * img.geo.planesParts.1 ≤ st.sign.length by
        rw [h.length_sign hg hl hk.le hfit]
        exact Nat.mul_le_mul_right _ hblock.le)
    rw [hpiece, ← Nat.succ_mul] at hsign
    simp only [Geo.moved, hl, if_true] at hfront
    simp only [ParsedImage.fresh, Geo.moved, hl, if_true, hfront, hread _ _ (le_refl _), hsign]
  · simp only [Geo.moved, hl, if_false, Nat.add_zero] at hfront
    simp only [ParsedImage.fresh, Geo.moved, hl, if_false, hfront, h.sign, List.take_nil]

/-- All the units: the in-place pass leaves in its buffers what the copying pass collects. -/
theorem copyUnits_fresh (hg : img.geo.Valid) (hk : k ≤ img.nVectors / BLOCK)
    (hfit : img.geo.unitAt (img.nVectors / BLOCK) ≤ raw.length) :
    (List.range k).foldlM (copyUnit raw img.geo) ⟨[], [], [], []⟩ =
      img.fresh k <$> (List.range k).foldlM (gatherUnit img.geo) (img.start raw) := by
  induction k with
  | zero => simp [ParsedImage.fresh, ParsedImage.start]
  | succ k ih =>
    obtain ⟨st, hst, hrun⟩ := gatherUnits_spec hg hfit (show k ≤ img.nVectors / BLOCK by omega)
    rw [List.range_succ, List.foldlM_append, List.foldlM_append, ih (by omega)]
    simp only [List.foldlM_cons, List.foldlM_nil, bind_pure, map_bind, bind_map_left]
    cases hfold : (List.range k).foldlM (gatherUnit img.geo) (img.start raw) with
    | error e => rfl
    | ok st' =>
      have hst' : st' = st := ((hrun st').mp hfold).2
      rw [hst']
      exact copyUnit_fresh hg (by omega) hfit hst

/-- Padding what the in-place pass leaves is padding what the copying pass collects. -/
theorem pad_fresh (hg : img.geo.Valid) (hfit : img.geo.unitAt (img.nVectors / BLOCK) ≤ raw.length)
    (h : GatheredTo img raw (img.nVectors / BLOCK) st) :
    img.pad (img.fresh (img.nVectors / BLOCK) st) = img.spread st := by
  have hkept : img.keptPadded.1 = img.nVectors / BLOCK * img.geo.moved.2 := by
    unfold ParsedImage.keptPadded Geo.moved
    split
    · rfl
    · rfl
  unfold ParsedImage.pad ParsedImage.fresh ParsedImage.spread
  dsimp only
  rw [hkept]
  by_cases hl : img.geo.layout = LAYOUT_PLANES
  · have hpieces := length_flatMap_range (length_signPieces hg hl le_rfl hfit)
    have hle : img.nVectors / BLOCK * img.geo.planesParts.1 ≤
        (img.nVectors + 31) / 32 * img.geo.planesParts.1 :=
      Nat.mul_le_mul_right _ (by simp only [BLOCK]; omega)
    have hsign : resize ((List.range (img.nVectors / BLOCK)).flatMap fun b =>
        bytesAt raw (img.geo.unitAt b) img.geo.planesParts.1)
          ((img.nVectors + 31) / 32 * img.geo.planesParts.1) =
        ((List.range (img.nVectors / BLOCK)).flatMap fun b =>
          bytesAt raw (img.geo.unitAt b) img.geo.planesParts.1) ++
          List.replicate (((img.nVectors + 31) / 32 - img.nVectors / BLOCK) * img.geo.planesParts.1) 0 := by
      rw [resize, hpieces, ← Nat.sub_mul, List.take_of_length_le (by omega)]
    rw [if_pos hl, h.sign, if_pos hl, List.take_left' hpieces, hsign]
  · rw [if_neg hl, h.sign, if_neg hl, List.take_nil]
    rfl

theorem gatherByCopy_eq (hg : img.geo.Valid)
    (hfit : img.geo.unitAt (img.nVectors / BLOCK) ≤ raw.length) :
    img.gatherByCopy raw = img.gatherInPlace raw := by
  obtain ⟨st, hst, hrun⟩ := gatherUnits_spec hg hfit le_rfl
  unfold ParsedImage.gatherByCopy ParsedImage.gatherInPlace
  rw [copyUnits_fresh hg le_rfl hfit, bind_map_left]
  cases hfold : (List.range (img.nVectors / BLOCK)).foldlM (gatherUnit img.geo) (img.start raw) with
  | error e => rfl
  | ok st' =>
    have hst' : st' = st := ((hrun st').mp hfold).2
    rw [hst']
    exact congrArg Except.ok (pad_fresh hg hfit hst)

end Units

/-! ## The whole load -/

/-- Code bytes of a row. -/
def V7Load.groups (l : V7Load) : ℕ := l.dim / codesPerByte l.bitWidth

/-- Every lane past the last row is zero: in the codes and in the sign region; the low region ends with the
last row. -/
structure V7Load.PaddingZero (l : V7Load) : Prop where
  seq : l.layout ≠ LAYOUT_PLANES → l.seqBlocked.length = (l.nVectors + 31) / 32 * (l.groups * 32) ∧
    ∀ v, l.nVectors ≤ v → v < (l.nVectors + 31) / 32 * 32 → ∀ g < l.groups,
      entry l.seqBlocked ((v / 32 * l.groups + g) * 32 + v % 32) = 0
  sign : l.layout = LAYOUT_PLANES → l.sign.length = (l.nVectors + 31) / 32 * (l.dim / 8 * 32) ∧
    ∀ v, l.nVectors ≤ v → v < (l.nVectors + 31) / 32 * 32 → ∀ g < l.dim / 8,
      entry l.sign ((v / 32 * (l.dim / 8) + g) * 32 + v % 32) = 0
  low : l.layout = LAYOUT_PLANES → l.low.length = l.nVectors * ((l.bitWidth - 1) * (l.dim / 8))

section Whole

variable {T : Tables} {raw : List UInt8} {expectCalibGen expectKind : ℕ}

theorem Loaded.paddingZero {img : ParsedImage} {rows : ℕ → Row} {l : V7Load} (hg : img.geo.Valid)
    (h : Loaded img rows expectCalibGen l) : l.PaddingZero := by
  have hgroups : l.groups = img.geo.rowBytes := by
    rw [V7Load.groups, h.dim, h.bitWidth, img.geo.rowBytes_eq]
  constructor
  · intro hl
    rw [h.layout] at hl
    rw [hgroups, h.nVectors]
    exact (h.seq hl).1.padding
  · intro hl
    rw [h.layout] at hl
    rw [h.dim, h.nVectors]
    exact (h.planes hl).1.sign.padding
  · intro hl
    rw [h.layout] at hl
    rw [h.dim, h.nVectors, h.bitWidth, (h.planes hl).1.low]
    exact length_flatMap_range fun v _ => length_lowPart (hg.planesBits hl) (length_packRow _ _ _)

/-- A load from the image's own buffer is a load that never writes to it. -/
theorem loadImage_eq_decodeImage :
    loadImage T raw expectCalibGen expectKind = decodeImage T raw expectCalibGen expectKind := by
  rw [loadImage_eq, decodeImage]
  cases hparse : parseImage T raw expectKind with
  | error e => rfl
  | ok img =>
    obtain ⟨hv, -, hfit⟩ := parseImage_ok hparse
    show (do img.finish expectCalibGen (← img.gatherInPlace raw)) =
      (do img.finish expectCalibGen (← img.gatherByCopy raw))
    rw [gatherByCopy_eq hv.geo hfit]

end Whole

/-- The forward pass over any valid geometry, row count and long enough image: after `k` units no byte from
unit `k` on has changed, and the pass leaves what a pass over an untouched copy collects. A whole load is the
copying decoder's, errors included, with every lane past the last row zero. -/
theorem loadImage_in_place :
    (∀ (img : ParsedImage) (raw : List UInt8), img.geo.Valid →
      img.geo.unitAt (img.nVectors / BLOCK) ≤ raw.length →
      (∀ k ≤ img.nVectors / BLOCK, ∀ st,
        (List.range k).foldlM (gatherUnit img.geo) (img.start raw) = .ok st →
          ∀ i, img.geo.unitAt k ≤ i → st.buf[i]? = raw[i]?) ∧
      img.gatherInPlace raw = img.gatherByCopy raw) ∧
    ∀ (T : Tables) (raw : List UInt8) (expectCalibGen expectKind : ℕ),
      loadImage T raw expectCalibGen expectKind = decodeImage T raw expectCalibGen expectKind ∧
      ∀ l, loadImage T raw expectCalibGen expectKind = .ok l → l.PaddingZero := by
  constructor
  · intro img raw hg hfit
    refine ⟨fun k hk st hst i hi => ?_, (gatherByCopy_eq hg hfit).symm⟩
    obtain ⟨st', hst', hrun⟩ := gatherUnits_spec hg hfit hk
    rw [((hrun st).mp hst).2]
    exact hst'.untouched hg hi
  · intro T raw expectCalibGen expectKind
    refine ⟨loadImage_eq_decodeImage, fun l hl => ?_⟩
    obtain ⟨img, hparse, -, hloaded⟩ := loadImage_ok hl
    exact hloaded.paddingZero (parseImage_ok hparse).1.geo

/-- A written image of 70 rows: two whole blocks and six tail rows. -/
theorem loadImage_in_place_blank : ∃ l, decodeImage blankTables (writeImage (blankSource 70) 0 0) 0 0 = .ok l ∧
    l.PaddingZero ∧ (parsedFull (blankSource 70) 0 0).gatherInPlace (writeImage (blankSource 70) 0 0) =
      (parsedFull (blankSource 70) 0 0).gatherByCopy (writeImage (blankSource 70) 0 0) := by
  have hw : SourceWf blankTables (blankSource 70) := blankSource_wf (by decide)
  obtain ⟨l, hl, -⟩ := loadImage_writeImage hw (show 0 < 2 ^ 64 by decide) rfl
    (show 0 < 2 ^ 64 by decide) (by decide) 0
  have hparse := (fullImage_writeImage hw 0 0).parse hw (by decide) rfl (by decide)
  obtain ⟨hv, -, hfit⟩ := parseImage_ok hparse
  obtain ⟨heq, hpad⟩ := loadImage_in_place.2 blankTables (writeImage (blankSource 70) 0 0) 0 0
  refine ⟨l, heq ▸ hl, hpad l hl, (loadImage_in_place.1 _ _ hv.geo hfit).2⟩

end Turbovec.IoV7
