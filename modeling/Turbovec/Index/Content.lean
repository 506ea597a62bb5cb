import Turbovec.Index.IdMapRuns
import Turbovec.Index.Parts

/-!
# Images from content

What a call derives is keyed by the dimension, so a codebook that is set is the one an image embeds. With
clean codes and current captures, an index is then written from its rows and parts alone: two histories that
reach the same content write the same image.
-/

namespace Turbovec

open Pack IoV7 Slice Grid

/-! ## What is derived from the dimension -/

/-- The rotation and the codebook, where they are set, are those of the committed dimension. -/
structure Keyed (T : Tables) (x : TurboQuantIndex) : Prop where
  rotation : ∀ r, x.rotation = some r → x.dim = some r
  boundaries : ∀ l, x.boundaries = some l → ∃ d, x.dim = some d ∧ l = (T.codebook x.bitWidth d).1
  centroids : ∀ l, x.centroids = some l → ∃ d, x.dim = some d ∧ l = (T.codebook x.bitWidth d).2

section Keys

variable {P : Platform} {T : Tables} {K : Kernels} {S : ScanKernels} {x x' : TurboQuantIndex}
  {rows : List (List UInt8)} {dim : ℕ}

theorem Keyed.booked (h : Keyed T x) : Booked T x := by
  intro d hd
  constructor
  · intro l hl
    obtain ⟨d', hd', hl'⟩ := h.boundaries l hl
    rw [hd, Option.some.injEq] at hd'
    rw [hl', hd']
  · intro l hl
    obtain ⟨d', hd', hl'⟩ := h.centroids l hl
    rw [hd, Option.some.injEq] at hd'
    rw [hl', hd']

theorem keyed_of_none (hr : x.rotation = none) (hb : x.boundaries = none) (hc : x.centroids = none) :
    Keyed T x := by
  constructor
  · intro r h
    rw [hr] at h
    cases h
  · intro l h
    rw [hb] at h
    cases h
  · intro l h
    rw [hc] at h
    cases h

theorem Keyed.of_same (h : Keyed T x) (hr : x'.rotation = x.rotation) (hb : x'.boundaries = x.boundaries)
    (hc : x'.centroids = x.centroids) (hbits : x'.bitWidth = x.bitWidth)
    (hdim : ∀ d, x.dim = some d → x'.dim = some d) : Keyed T x' := by
  constructor
  · intro r hr'
    exact hdim r (h.rotation r (hr ▸ hr'))
  · intro l hl
    obtain ⟨d, hd, hl'⟩ := h.boundaries l (hb ▸ hl)
    exact ⟨d, hdim d hd, hbits ▸ hl'⟩
  · intro l hl
    obtain ⟨d, hd, hl'⟩ := h.centroids l (hc ▸ hl)
    exact ⟨d, hdim d hd, hbits ▸ hl'⟩

/-- What is set once a dimension is entered is its own. -/
theorem Keyed.getD (h : Keyed T x) (hdim : ∀ d, x.dim = some d → d = dim) :
    x.rotation.getD dim = dim ∧ x.boundaries.getD (T.codebook x.bitWidth dim).1 = (T.codebook x.bitWidth dim).1 ∧
      x.centroids.getD (T.codebook x.bitWidth dim).2 = (T.codebook x.bitWidth dim).2 := by
  refine ⟨?_, ?_, ?_⟩
  · cases hr : x.rotation with
    | none => rfl
    | some r => exact hdim r (h.rotation r hr)
  · cases hb : x.boundaries with
    | none => rfl
    | some l =>
      obtain ⟨d, hd, hl⟩ := h.boundaries l hb
      rw [Option.getD_some, hl, hdim d hd]
  · cases hc : x.centroids with
    | none => rfl
    | some l =>
      obtain ⟨d, hd, hl⟩ := h.centroids l hc
      rw [Option.getD_some, hl, hdim d hd]

/-- An index all of whose derived members are unset or those of `dim`. -/
theorem keyed_of_dim (hd : x.dim = some dim) (hr : ∀ r, x.rotation = some r → r = dim)
    (hb : ∀ l, x.boundaries = some l → l = (T.codebook x.bitWidth dim).1)
    (hc : ∀ l, x.centroids = some l → l = (T.codebook x.bitWidth dim).2) : Keyed T x :=
  ⟨fun r h => by rw [hr r h, hd], fun l h => ⟨dim, hd, hb l h⟩, fun l h => ⟨dim, hd, hc l h⟩⟩

theorem Keyed.warmed (h : Keyed T x) (hdim : ∀ d, x.dim = some d → d = dim) :
    Keyed T ((x.entered dim).warm T dim) := by
  obtain ⟨hr, hb, hc⟩ := h.getD hdim
  refine @keyed_of_dim T _ dim rfl ?_ ?_ ?_
  · intro r hr'
    exact (Option.some.inj hr').symm.trans hr
  · intro l hl
    exact (Option.some.inj hl).symm.trans hb
  · intro l hl
    exact (Option.some.inj hl).symm.trans hc

/-- An append changes the rows alone, however it ends. -/
theorem appendRows_frame {vectors : List F32} {n : ℕ} {fault : Option Fault}
    (h : TurboQuantIndex.appendRows P K x vectors n dim fault = .ok x' ∨
      TurboQuantIndex.appendRows P K x vectors n dim fault = .error x') :
    ∃ nVectors packedCodes scales blocked, x' = { x with nVectors, packedCodes, scales, blocked } := by
  unfold TurboQuantIndex.appendRows at h
  dsimp only at h
  rcases h with h | h
  · split at h
    · split at h
      · cases h
      · cases h
      · cases h
        exact ⟨_, _, _, _, rfl⟩
    · split at h
      · cases h
      · cases h
      · split at h
        · cases h
          exact ⟨_, _, _, _, rfl⟩
        · cases h
        · cases h
          exact ⟨_, _, _, _, rfl⟩
  · split at h
    · split at h
      · cases h
        exact ⟨_, _, _, _, rfl⟩
      · cases h
        exact ⟨_, _, _, _, rfl⟩
      · cases h
    · split at h
      · cases h
        exact ⟨_, _, _, _, rfl⟩
      · cases h
        exact ⟨_, _, _, _, rfl⟩
      · split at h
        · cases h
        · cases h
          exact ⟨_, _, _, _, rfl⟩
        · cases h

/-- An add keeps the keys, however it ends. -/
theorem Keyed.add (h : Keyed T x) {vectors : List F32} {fault : Option Fault} (hdim : ∀ d, x.dim = some d → d = dim)
    (hadd : TurboQuantIndex.add P T K (x.entered dim) vectors dim fault = .ok x' ∨
      TurboQuantIndex.add P T K (x.entered dim) vectors dim fault = .error x') : Keyed T x' := by
  have hentered : Keyed T (x.entered dim) := h.of_same rfl rfl rfl rfl fun d hd => congrArg some (hdim d hd).symm
  have happended : ∀ y n, TurboQuantIndex.appendRows P K ((x.entered dim).warm T dim) vectors n dim fault = .ok y ∨
      TurboQuantIndex.appendRows P K ((x.entered dim).warm T dim) vectors n dim fault = .error y → Keyed T y := by
    intro y n hy
    obtain ⟨_, _, _, _, rfl⟩ := appendRows_frame hy
    exact (h.warmed hdim).of_same rfl rfl rfl rfl fun _ hd => hd
  unfold TurboQuantIndex.add at hadd
  dsimp only at hadd
  split at hadd
  · rcases hadd with hadd | hadd
    · cases hadd
    · cases hadd
      exact hentered
  · split at hadd
    · rcases hadd with hadd | hadd
      · cases hadd
        exact hentered
      · cases hadd
    · split at hadd
      · rcases hadd with hadd | hadd
        · cases hadd
        · cases hadd
          exact hentered
      · exact happended x' _ hadd

theorem Keyed.add2d (h : Keyed T x) (vectors : List F32) (dim : ℕ) (fault : Option Fault) :
    Keyed T (x.add2d P T K vectors dim fault).1 := by
  have hadded := TurboQuantIndex.added P T K x vectors dim fault
  generalize x.add2d P T K vectors dim fault = r at hadded ⊢
  cases hadded with
  | refused e => exact h
  | ragged h' => exact h
  | nothing h' => exact h
  | done hdim hadd => exact h.add (fun d hd => TurboQuantIndex.eq_of_checkAddDim hdim hd) (Or.inl hadd)
  | panicked hdim hadd =>
    dsimp only
    unfold TurboQuantIndex.unwound
    split
    · exact keyed_of_none rfl rfl rfl
    · exact h.add (fun d hd => TurboQuantIndex.eq_of_checkAddDim hdim hd) (Or.inr hadd)

theorem Keyed.calibrate2d (h : Keyed T x) (hrep : Rep P x rows) (sample : List F32) (dim : ℕ)
    (fault : Option Fault) : Keyed T (x.calibrate2d P T K sample dim fault).1 := by
  have hcal := TurboQuantIndex.calibrated P T K x sample dim fault
  generalize x.calibrate2d P T K sample dim fault = r at hcal ⊢
  cases hcal with
  | refused e => exact h
  | abandoned hdim o ho =>
    dsimp only
    unfold TurboQuantIndex.uncommitted
    split
    · exact keyed_of_none rfl rfl rfl
    · rename_i hd
      obtain ⟨d, hd⟩ := Option.ne_none_iff_exists'.mp fun hnone => hd (by
        rw [show (x.warm T dim).dim = none from hnone]
        rfl)
      have heq := TurboQuantIndex.eq_of_checkAddDim (Rep.checkAddDim_of_calibrate hdim) hd
      have hkeep : ∀ d', x.dim = some d' → d' = dim := fun d' hd' =>
        TurboQuantIndex.eq_of_checkAddDim (Rep.checkAddDim_of_calibrate hdim) hd'
      exact (h.warmed hkeep).of_same rfl rfl rfl rfl fun d' hd' => by
        rw [← hd', ← heq]
        exact hd
  | panicked hdim hn =>
    obtain ⟨d, hd⟩ := Option.isSome_iff_exists.mp (hrep.dimmed hn)
    have heq := TurboQuantIndex.eq_of_checkAddDim (Rep.checkAddDim_of_calibrate hdim) hd
    have hkeep : ∀ d', x.dim = some d' → d' = dim := fun d' hd' =>
      TurboQuantIndex.eq_of_checkAddDim (Rep.checkAddDim_of_calibrate hdim) hd'
    exact (h.warmed hkeep).of_same rfl rfl rfl rfl fun d' hd' => by
      rw [← hd', ← heq]
      exact hd
  | done hdim =>
    have hkeep : ∀ d', x.dim = some d' → d' = dim := fun d' hd' =>
      TurboQuantIndex.eq_of_checkAddDim (Rep.checkAddDim_of_calibrate hdim) hd'
    dsimp only
    unfold TurboQuantIndex.commitCalibration
    dsimp only
    split
    · exact (h.warmed hkeep).of_same rfl rfl rfl rfl fun _ hd => hd
    · exact (h.warmed hkeep).of_same rfl rfl rfl rfl fun _ hd => hd

theorem Keyed.swapRemove (h : Keyed T x) (idx : ℕ) :
    Keyed T (((x.swapRemove P idx).map Prod.fst).getD x) := by
  cases hr : x.swapRemove P idx with
  | none => exact h
  | some r =>
    obtain ⟨hidx, d, hd⟩ : idx < x.nVectors ∧ ∃ d, x.dim = some d := by
      unfold TurboQuantIndex.swapRemove at hr
      by_cases hidx : idx < x.nVectors
      · cases hd : x.dim with
        | none =>
          rw [hd, guard, if_pos hidx] at hr
          cases hr
        | some d => exact ⟨hidx, d, rfl⟩
      · rw [guard, if_neg hidx] at hr
        cases hr
    rw [TurboQuantIndex.swapRemove_eq x hidx hd] at hr
    obtain rfl := Option.some.inj hr
    obtain ⟨fresh, hmark⟩ := markRemoval_eq x idx (x.nVectors - 1)
    rw [hmark]
    exact h.of_same rfl rfl rfl rfl fun _ hd' => hd'

/-- A search and a prepare derive what they lack. -/
theorem Keyed.prepared (h : Keyed T x) (hd : x.dim = some dim) : Keyed T (x.prepared P T dim) := by
  have hkeep : ∀ d', x.dim = some d' → d' = dim := fun d' hd' => Option.some.inj (hd'.symm.trans hd)
  obtain ⟨hr, -, hc⟩ := h.getD hkeep
  have hkeyed : Keyed T { x with
      rotation := some (x.rotation.getD dim)
      centroids := some (x.centroids.getD (T.codebook x.bitWidth dim).2) } := by
    refine keyed_of_dim hd ?_ ?_ ?_
    · intro r hr'
      exact (Option.some.inj hr').symm.trans hr
    · intro l hl
      obtain ⟨d, hd', hl'⟩ := h.boundaries l hl
      rw [hl', hkeep d hd']
    · intro l hl
      exact (Option.some.inj hl).symm.trans hc
  unfold TurboQuantIndex.prepared
  dsimp only
  split
  · exact hkeyed
  · exact hkeyed.of_same rfl rfl rfl rfl fun _ hd' => hd'

theorem Keyed.search (h : Keyed T x) (queries : List F32) (k : ℕ) (mask : Option (List Bool))
    (threshold : Option F32) : Keyed T (x.trySearchWithOptions P T S queries k mask threshold).1 := by
  unfold TurboQuantIndex.trySearchWithOptions
  dsimp only
  split
  · exact h
  · split
    · exact h
    · rename_i dim hd
      have hprep := h.prepared (P := P) hd
      split
      · exact h
      · split
        · exact h
        · split
          · split
            · split
              · exact h
              · exact h
            · exact h
          · split
            · exact hprep
            · exact hprep
            · exact hprep.of_same rfl rfl rfl rfl fun _ hd' => hd'

theorem Keyed.prepare (h : Keyed T x) : Keyed T (x.prepare P T) := by
  unfold TurboQuantIndex.prepare
  split
  · exact h
  · rename_i dim hd
    split
    · exact h
    · exact h.prepared hd

theorem Keyed.sync (h : Keyed T x) (path : String) (disk : Disk) : Keyed T (x.sync P T path disk).1 := by
  unfold TurboQuantIndex.sync
  split
  · exact h
  · rename_i dim hd
    have hkeep : ∀ d', x.dim = some d' → d' = dim := fun d' hd' => Option.some.inj (hd'.symm.trans hd)
    have hmat : ∀ c : Bool, Keyed T (if c then x.materialize P else x) := by
      intro c
      split
      · exact h.of_same rfl rfl rfl rfl fun _ hd' => hd'
      · exact h
    have hdim : ∀ c : Bool, (if c then x.materialize P else x).dim = some dim := by
      intro c
      split
      · exact hd
      · exact hd
    have hm := hmat x.blocked.isNone
    have hdm := hdim x.blocked.isNone
    dsimp only
    generalize (if x.blocked.isNone = true then x.materialize P else x) = y at hm hdm
    have hkeep : ∀ d', y.dim = some d' → d' = dim := fun d' hd' => Option.some.inj (hd'.symm.trans hdm)
    obtain ⟨-, hb, hc⟩ := hm.getD hkeep
    have hkeyed : Keyed T { y with
        boundaries := some (y.boundaries.getD (T.codebook y.bitWidth dim).1)
        centroids := some (y.centroids.getD (T.codebook y.bitWidth dim).2) } := by
      refine keyed_of_dim hdm ?_ ?_ ?_
      · exact fun r hr => hkeep r (hm.rotation r hr)
      · intro l hl
        exact (Option.some.inj hl).symm.trans hb
      · intro l hl
        exact (Option.some.inj hl).symm.trans hc
    split
    · exact hkeyed
    · exact hkeyed.of_same rfl rfl rfl rfl fun _ hd' => hd'
    · exact hkeyed.of_same rfl rfl rfl rfl fun _ hd' => hd'

/-- A call keeps the keys. -/
theorem Keyed.after (h : Keyed T x) (hrep : Rep P x rows) (c : TurboQuantIndex.Call) :
    Keyed T (x.after P T K S c) := by
  cases c with
  | add vectors dim fault => exact h.add2d vectors dim fault
  | calibrate sample dim fault => exact h.calibrate2d hrep sample dim fault
  | swapRemove idx => exact h.swapRemove idx
  | search queries k mask threshold => exact h.search queries k mask threshold
  | packedCodes => exact h.of_same rfl rfl rfl rfl fun _ hd => hd
  | prepare => exact h.prepare
  | sync path disk => exact h.sync path disk

end Keys

/-! ## Runs -/

/-- The index inside an id map, or one of its own, as it comes to be. -/
inductive Begun (P : Platform) (T : Tables) : TurboQuantIndex → Prop
  | opened {x : TurboQuantIndex} (h : TurboQuantIndex.Opened P T x) : Begun P T x
  | loaded {raw : List UInt8} {l : V7Load} {g kind : ℕ} (h : loadImage T raw g kind = .ok l)
      (path : Option String) : Begun P T (TurboQuantIndex.fromV7 P T l path)

/-- Rows without stray bits, current captures, and a codebook that is the dimension's own. -/
structure Held (P : Platform) (T : Tables) (x : TurboQuantIndex) (rows : List (List UInt8)) : Prop where
  sound : Sound P x rows
  keyed : Keyed T x
  paired : x.tqplusScale.length = x.tqplusShift.length

/-- The calibration kernel fits a pair of the sample's dimension. -/
structure Kernels.Paired (K : Kernels) : Prop where
  shift : ∀ sample n dim rotation centroids, (K.fitCalibration sample n dim rotation centroids).1.length = dim
  scale : ∀ sample n dim rotation centroids, (K.fitCalibration sample n dim rotation centroids).2.length = dim

section Runs

variable {P : Platform} {T : Tables} {K : Kernels} {S : ScanKernels} {x : TurboQuantIndex}
  {rows : List (List UInt8)} {l : V7Load}

theorem keyed_fromV7 (h : l.dim = 0 → l.nVectors = 0) (path : Option String) :
    Keyed T (TurboQuantIndex.fromV7 P T l path) := by
  have hbook := booked_fromV7 (P := P) (T := T) l path
  have hdim : ∀ {o : Option (List F32)} {m : List F32}, (if decide (l.nVectors ≠ 0) = true then o else none) =
      some m → (TurboQuantIndex.fromV7 P T l path).dim = some l.dim := by
    intro o m hm
    split at hm
    · rename_i hn
      exact if_pos fun h0 => absurd (h h0) (of_decide_eq_true hn)
    · cases hm
  constructor
  · intro r hr
    cases hr
  · intro m hm
    have hd := hdim hm
    exact ⟨_, hd, (hbook _ hd).1 m hm⟩
  · intro m hm
    have hd := hdim hm
    exact ⟨_, hd, (hbook _ hd).2 m hm⟩

theorem paired_normalize {shift scale : List F32} (h : scale.length = shift.length) :
    (TurboQuantIndex.normalizeCalibration shift scale).2.length =
      (TurboQuantIndex.normalizeCalibration shift scale).1.length := by
  rcases normalizeCalibration_cases shift scale with hn | hn
  · rw [hn]
  · rw [hn]
    exact h

theorem paired_load {raw : List UInt8} {g kind : ℕ} (h : loadImage T raw g kind = .ok l) :
    l.tqplusScale.length = l.tqplusShift.length := by
  obtain ⟨img, himg, -, hL⟩ := loadImage_ok h
  have hcal := (parseImage_ok himg).1.calibration
  rw [hL.tqplusScale, hL.tqplusShift, hcal.scale_len, hcal.shift_len]

/-- An index that comes to be without stray bits is held. -/
theorem Begun.held (h : Begun P T x) (hc : x.Clean P) : ∃ rows, Held P T x rows := by
  cases h with
  | opened h =>
    obtain ⟨rows, hrep⟩ := TurboQuantIndex.exists_rep_opened h
    obtain ⟨hat, hbuf⟩ := opened_captures h
    suffices hk : Keyed T x ∧ x.tqplusScale.length = x.tqplusShift.length from
      ⟨rows, ⟨hrep, hc, captured_of_nil hat hbuf⟩, hk.1, hk.2⟩
    cases h with
    | new h =>
      unfold TurboQuantIndex.new at h
      split at h
      · cases h
      · split at h
        · cases h
        · split at h
          · cases h
          · cases h
            exact ⟨keyed_of_none rfl rfl rfl, rfl⟩
    | newLazy h =>
      unfold TurboQuantIndex.newLazy at h
      split at h
      · cases h
      · cases h
        exact ⟨keyed_of_none rfl rfl rfl, rfl⟩
    | fromParts h =>
      obtain ⟨hfit, -, -, rfl⟩ := fromParts_eq_ok.mp h
      exact ⟨keyed_of_none rfl rfl rfl, paired_normalize hfit.paired.symm⟩
    | load h =>
      rw [TurboQuantIndex.load] at h
      split at h
      · rw [bind_eq_ok] at h
        obtain ⟨l, hl, h⟩ := h
        cases h
        exact ⟨keyed_fromV7 (stored_of_loadImage hl).dim_zero _, paired_normalize (paired_load hl)⟩
      · cases h
    | fromBytes h =>
      rw [TurboQuantIndex.fromBytes, bind_eq_ok] at h
      obtain ⟨l, hl, h⟩ := h
      cases h
      exact ⟨keyed_fromV7 (stored_of_loadImage hl).dim_zero _, paired_normalize (paired_load hl)⟩
  | loaded h path =>
    have hst := stored_of_loadImage h
    exact ⟨_, ⟨rep_fromV7 hst path, hc, captured_of_nil rfl rfl⟩, keyed_fromV7 hst.dim_zero path,
      paired_normalize (paired_load h)⟩

theorem appendRows_pair {x' : TurboQuantIndex} {vectors : List F32} {n dim : ℕ} {fault : Option Fault}
    (h : TurboQuantIndex.appendRows P K x vectors n dim fault = .ok x' ∨
      TurboQuantIndex.appendRows P K x vectors n dim fault = .error x') :
    x'.tqplusShift = x.tqplusShift ∧ x'.tqplusScale = x.tqplusScale := by
  obtain ⟨_, _, _, _, rfl⟩ := appendRows_frame h
  exact ⟨rfl, rfl⟩

/-- An add does not touch the calibration, however it ends. -/
theorem add2d_pair (x : TurboQuantIndex) (vectors : List F32) (dim : ℕ) (fault : Option Fault) :
    (x.add2d P T K vectors dim fault).1.tqplusShift = x.tqplusShift ∧
      (x.add2d P T K vectors dim fault).1.tqplusScale = x.tqplusScale := by
  have hadd : ∀ x', TurboQuantIndex.add P T K (x.entered dim) vectors dim fault = .ok x' ∨
      TurboQuantIndex.add P T K (x.entered dim) vectors dim fault = .error x' →
      x'.tqplusShift = x.tqplusShift ∧ x'.tqplusScale = x.tqplusScale := by
    intro x' h
    unfold TurboQuantIndex.add at h
    dsimp only at h
    split at h
    · rcases h with h | h
      · cases h
      · cases h
        exact ⟨rfl, rfl⟩
    · split at h
      · rcases h with h | h
        · cases h
          exact ⟨rfl, rfl⟩
        · cases h
      · split at h
        · rcases h with h | h
          · cases h
          · cases h
            exact ⟨rfl, rfl⟩
        · have hpair := appendRows_pair h
          exact hpair
  have hadded := TurboQuantIndex.added P T K x vectors dim fault
  generalize x.add2d P T K vectors dim fault = r at hadded ⊢
  cases hadded with
  | refused e => exact ⟨rfl, rfl⟩
  | ragged h => exact ⟨rfl, rfl⟩
  | nothing h => exact ⟨rfl, rfl⟩
  | done hdim h => exact hadd _ (Or.inl h)
  | panicked hdim h =>
    have := hadd _ (Or.inr h)
    dsimp only
    unfold TurboQuantIndex.unwound
    split
    · exact this
    · exact this

theorem search_pair (x : TurboQuantIndex) (queries : List F32) (k : ℕ) (mask : Option (List Bool))
    (threshold : Option F32) :
    (x.trySearchWithOptions P T S queries k mask threshold).1.tqplusShift = x.tqplusShift ∧
      (x.trySearchWithOptions P T S queries k mask threshold).1.tqplusScale = x.tqplusScale := by
  have hprep : ∀ dim, (x.prepared P T dim).tqplusShift = x.tqplusShift ∧
      (x.prepared P T dim).tqplusScale = x.tqplusScale := by
    intro dim
    unfold TurboQuantIndex.prepared
    dsimp only
    split
    · exact ⟨rfl, rfl⟩
    · exact ⟨rfl, rfl⟩
  unfold TurboQuantIndex.trySearchWithOptions
  dsimp only
  split
  · exact ⟨rfl, rfl⟩
  · split
    · exact ⟨rfl, rfl⟩
    · split
      · exact ⟨rfl, rfl⟩
      · split
        · exact ⟨rfl, rfl⟩
        · split
          · split
            · split
              · exact ⟨rfl, rfl⟩
              · exact ⟨rfl, rfl⟩
            · exact ⟨rfl, rfl⟩
          · split
            · exact hprep _
            · exact hprep _
            · exact hprep _

/-- The calibration after a call: the one before, or the pair a calibrate fitted. -/
theorem after_pair (x : TurboQuantIndex) (c : TurboQuantIndex.Call) :
    (x.after P T K S c).tqplusShift = x.tqplusShift ∧ (x.after P T K S c).tqplusScale = x.tqplusScale ∨
      ∃ sample dim fault, c = .calibrate sample dim fault ∧
        x.checkCalibrateDim dim = .ok () ∧ (x.after P T K S c).dim = some dim ∧
        ((x.after P T K S c).tqplusShift, (x.after P T K S c).tqplusScale) =
          TurboQuantIndex.fitted T K x sample dim := by
  cases c with
  | add vectors dim fault => exact Or.inl (add2d_pair x vectors dim fault)
  | calibrate sample dim fault =>
    have hcal := TurboQuantIndex.calibrated P T K x sample dim fault
    dsimp only [TurboQuantIndex.after]
    generalize x.calibrate2d P T K sample dim fault = r at hcal ⊢
    cases hcal with
    | refused e => exact Or.inl ⟨rfl, rfl⟩
    | abandoned hdim o ho =>
      dsimp only
      unfold TurboQuantIndex.uncommitted
      split
      · exact Or.inl ⟨rfl, rfl⟩
      · exact Or.inl ⟨rfl, rfl⟩
    | panicked hdim hn => exact Or.inl ⟨rfl, rfl⟩
    | done hdim =>
      refine Or.inr ⟨sample, dim, fault, rfl, hdim, rfl, ?_⟩
      rfl
  | swapRemove idx =>
    left
    dsimp only [TurboQuantIndex.after]
    cases hr : x.swapRemove P idx with
    | none => exact ⟨rfl, rfl⟩
    | some r =>
      unfold TurboQuantIndex.swapRemove at hr
      by_cases hidx : idx < x.nVectors
      · cases hd : x.dim with
        | none =>
          rw [hd, guard, if_pos hidx] at hr
          cases hr
        | some d =>
          rw [hd, guard, if_pos hidx] at hr
          obtain rfl := Option.some.inj hr
          obtain ⟨fresh, hmark⟩ := markRemoval_eq x idx (x.nVectors - 1)
          dsimp only [Option.map_some, Option.getD_some]
          rw [hmark]
          exact ⟨rfl, rfl⟩
      · rw [guard, if_neg hidx] at hr
        cases hr
  | search queries k mask threshold => exact Or.inl (search_pair x queries k mask threshold)
  | packedCodes => exact Or.inl ⟨rfl, rfl⟩
  | prepare =>
    left
    dsimp only [TurboQuantIndex.after]
    unfold TurboQuantIndex.prepare
    split
    · exact ⟨rfl, rfl⟩
    · split
      · exact ⟨rfl, rfl⟩
      · unfold TurboQuantIndex.prepared
        dsimp only
        split
        · exact ⟨rfl, rfl⟩
        · exact ⟨rfl, rfl⟩
  | sync path disk =>
    left
    dsimp only [TurboQuantIndex.after]
    unfold TurboQuantIndex.sync
    split
    · exact ⟨rfl, rfl⟩
    · dsimp only
      split
      · split
        · exact ⟨rfl, rfl⟩
        · exact ⟨rfl, rfl⟩
      · split
        · exact ⟨rfl, rfl⟩
        · exact ⟨rfl, rfl⟩
      · split
        · exact ⟨rfl, rfl⟩
        · exact ⟨rfl, rfl⟩

/-- A call keeps the index held. -/
theorem Held.after (hK : K.Sized) (hfit : K.Paired) (h : Held P T x rows) {c : TurboQuantIndex.Call}
    (hg : c.Guarded) : ∃ rows', Held P T (x.after P T K S c) rows' := by
  obtain ⟨rows', hsound⟩ := h.sound.after (T := T) (S := S) hK hg
  refine ⟨rows', hsound, h.keyed.after h.sound.rep c, ?_⟩
  rcases after_pair (P := P) (T := T) (K := K) (S := S) x c with ⟨hshift, hscale⟩ | ⟨sample, dim, _, _, _, _, hpair⟩
  · rw [hshift, hscale]
    exact h.paired
  · have hshift := congrArg (List.length ∘ Prod.fst) hpair
    have hscale := congrArg (List.length ∘ Prod.snd) hpair
    exact (hscale.trans (hfit.scale _ _ dim _ _)).trans (hshift.trans (hfit.shift _ _ dim _ _)).symm

/-- Every run keeps the index held. -/
theorem Held.run (hK : K.Sized) (hfit : K.Paired) (h : Held P T x rows) (calls : List TurboQuantIndex.Call)
    (hg : ∀ c ∈ calls, c.Guarded) : ∃ rows', Held P T (x.run P T K S calls) rows' := by
  induction calls generalizing x rows with
  | nil => exact ⟨rows, h⟩
  | cons c calls ih =>
    obtain ⟨rows', h'⟩ := h.after (S := S) hK hfit (hg c List.mem_cons_self)
    exact ih h' fun c' hc' => hg c' (List.mem_cons_of_mem c hc')

end Runs

/-! ## Calls on an id map -/

namespace IdMapIndex

inductive Call
  | add (vectors : List F32) (dim : ℕ) (ids : List UInt64) (fault : Option Fault)
  | remove (id : UInt64)
  | contains (id : UInt64)
  | search (queries : List F32) (k : ℕ) (allowlist : Option (List UInt64))
  | calibrate (sample : List F32) (dim : ℕ) (fault : Option Fault)
  | prepare
  | sync (path : String) (disk : Disk)

def Call.Guarded : Call → Prop
  | .add _ _ _ fault => ∀ f ∈ fault, f.Guarded
  | _ => True

section variable (P : Platform) (T : Tables) (K : Kernels) (S : ScanKernels)

/-- What a call leaves, however it ends. -/
def after (x : IdMapIndex) : Call → IdMapIndex
  | .add vectors dim ids fault => (x.addWithIds2d P T K vectors dim ids fault).1
  | .remove id => ((x.remove P id).map Prod.fst).getD x
  | .contains id => (x.contains id).1
  | .search queries k allowlist => (x.trySearchWithAllowlist P T S queries k allowlist).1
  | .calibrate sample dim fault => (x.calibrate2d P T K sample dim fault).1
  | .prepare => x.prepare P T
  | .sync path disk => (x.sync P T path disk).1

def run (x : IdMapIndex) (calls : List Call) : IdMapIndex := calls.foldl (after P T K S) x

/-- `to_bytes` -/
def toBytes (x : IdMapIndex) : List UInt8 := x.inner.imageInVersion P T 1 (some x.slotToId) 8

/-- An id map after any calls, over an index that began as `y`. -/
inductive Ran (y : TurboQuantIndex) : IdMapIndex → Prop
  | new {x : IdMapIndex} {dim bitWidth : ℕ} (h : IdMapIndex.new dim bitWidth = .ok x) (hy : x.inner = y) :
      Ran y x
  | newLazy {x : IdMapIndex} {bitWidth : ℕ} (h : IdMapIndex.newLazy bitWidth = .ok x) (hy : x.inner = y) :
      Ran y x
  | load {x : IdMapIndex} {raw : List UInt8} {path : String} (h : IdMapIndex.load P T raw path = .ok x)
      (hy : x.inner = y) : Ran y x
  | fromBytes {x : IdMapIndex} {raw : List UInt8} (h : IdMapIndex.fromBytes P T raw = .ok x)
      (hy : x.inner = y) : Ran y x
  | fromParts {x : IdMapIndex} {ids : List UInt64} (hy : Begun P T y) (calls : List TurboQuantIndex.Call)
      (hg : ∀ c ∈ calls, c.Guarded) (h : fromIndexAndIds (y.run P T K S calls) ids = .ok x) : Ran y x
  | call {x : IdMapIndex} (h : Ran y x) {c : Call} (hg : c.Guarded) : Ran y (x.after P T K S c)

end

section

variable {P : Platform} {T : Tables} {K : Kernels} {S : ScanKernels} {x : IdMapIndex} {y : TurboQuantIndex}

/-- A call on an id map is calls on the index inside. -/
theorem inner_after (x : IdMapIndex) {c : Call} (hg : c.Guarded) :
    ∃ calls : List TurboQuantIndex.Call, (∀ c' ∈ calls, c'.Guarded) ∧
      (x.after P T K S c).inner = x.inner.run P T K S calls := by
  have hnone : ∀ y : IdMapIndex, y.inner = x.inner → ∃ calls : List TurboQuantIndex.Call,
      (∀ c' ∈ calls, c'.Guarded) ∧ y.inner = x.inner.run P T K S calls :=
    fun y hy => ⟨[], by simp, hy⟩
  have hone : ∀ (y : IdMapIndex) (c' : TurboQuantIndex.Call), c'.Guarded → y.inner = x.inner.after P T K S c' →
      ∃ calls : List TurboQuantIndex.Call, (∀ c' ∈ calls, c'.Guarded) ∧ y.inner = x.inner.run P T K S calls :=
    fun y c' hc hy => ⟨[c'], by simpa using hc, hy⟩
  cases c with
  | add vectors dim ids fault =>
    dsimp only [after]
    unfold addWithIds2d
    dsimp only
    split
    · exact hnone _ rfl
    · split
      · exact hnone _ rfl
      · split
        · exact hnone _ rfl
        · split
          · exact hnone _ rfl
          · split
            · rename_i hadd
              exact hone _ (.add vectors dim fault) hg (congrArg Prod.fst hadd).symm
            · rename_i hadd
              exact hone _ (.add vectors dim fault) hg (congrArg Prod.fst hadd).symm
  | remove id =>
    dsimp only [after]
    cases hr : x.remove P id with
    | none => exact hnone _ rfl
    | some r =>
      unfold remove at hr
      dsimp only at hr
      split at hr
      · obtain rfl := Option.some.inj hr
        exact hnone _ (Coherent.inner_ids x)
      · rename_i slot _
        rw [Coherent.inner_ids] at hr
        cases hs : x.inner.swapRemove P slot with
        | none =>
          rw [hs] at hr
          cases hr
        | some p =>
          rw [hs] at hr
          simp only [Option.bind_eq_bind, Option.bind_some, Option.bind_eq_some_iff] at hr
          obtain ⟨movedId, -, hr⟩ := hr
          obtain rfl := Option.some.inj hr
          refine hone _ (.swapRemove slot) trivial ?_
          dsimp only [TurboQuantIndex.after]
          rw [hs]
          rfl
  | contains id => exact hnone _ (Coherent.inner_ids x)
  | search queries k allowlist =>
    have hscan : ∀ (y : IdMapIndex) (mask : Option (List Bool)), y.inner = x.inner →
        (y.searchMasked P T S queries k mask).1.inner = x.inner.after P T K S (.search queries k mask none) := by
      intro y mask hy
      rw [searchMasked, hy]
      dsimp only [TurboQuantIndex.after]
      generalize x.inner.trySearchWithOptions P T S queries k mask none = r
      obtain ⟨inner, _ | _ | res⟩ := r
      · rfl
      · rfl
      · rfl
    dsimp only [after]
    unfold trySearchWithAllowlist
    dsimp only
    split
    · exact hone _ (.search queries k none none) trivial (hscan x none rfl)
    · exact hnone _ rfl
    · split
      · exact hnone _ (Coherent.inner_ids x)
      · exact hnone _ (Coherent.inner_ids x)
      · rename_i mask _
        exact hone _ (.search queries k (some mask) none) trivial (hscan x.ids (some mask) (Coherent.inner_ids x))
  | calibrate sample dim fault => exact hone _ (.calibrate sample dim fault) trivial rfl
  | prepare => exact hone _ .prepare trivial rfl
  | sync path disk => exact hone _ (.sync path disk) trivial rfl

/-- The index inside an id map is one of its own runs. -/
theorem Ran.inner (h : Ran P T K S y x) : Begun P T y ∧ ∃ calls : List TurboQuantIndex.Call,
    (∀ c ∈ calls, c.Guarded) ∧ x.inner = y.run P T K S calls := by
  have hload : ∀ {z : IdMapIndex} {l : V7Load} {path : Option String}, fromV7Load P T l path = .ok z →
      z.inner = TurboQuantIndex.fromV7 P T l path := by
    intro z l path h
    unfold fromV7Load at h
    dsimp only at h
    split at h
    · cases h
    · cases h
      rfl
  induction h with
  | new h hy =>
    rw [IdMapIndex.new, bind_eq_ok] at h
    obtain ⟨inner, hinner, h⟩ := h
    cases h
    subst hy
    exact ⟨.opened (.new hinner), [], by simp, rfl⟩
  | newLazy h hy =>
    rw [IdMapIndex.newLazy, bind_eq_ok] at h
    obtain ⟨inner, hinner, h⟩ := h
    cases h
    subst hy
    exact ⟨.opened (.newLazy hinner), [], by simp, rfl⟩
  | load h hy =>
    rw [IdMapIndex.load] at h
    split at h
    · rw [bind_eq_ok] at h
      obtain ⟨l, hl, h⟩ := h
      rw [hload h] at hy
      subst hy
      exact ⟨.loaded hl _, [], by simp, hload h⟩
    · cases h
  | fromBytes h hy =>
    rw [IdMapIndex.fromBytes, bind_eq_ok] at h
    obtain ⟨l, hl, h⟩ := h
    rw [hload h] at hy
    subst hy
    exact ⟨.loaded hl _, [], by simp, hload h⟩
  | fromParts hy calls hg h =>
    refine ⟨hy, calls, hg, ?_⟩
    unfold fromIndexAndIds at h
    split at h
    · cases h
    · dsimp only at h
      split at h
      · cases h
      · cases h
        rfl
  | @call x h c hg ih =>
    obtain ⟨hy, first, hfirst, heq⟩ := ih
    obtain ⟨rest, hrest, heq'⟩ := inner_after (P := P) (T := T) (K := K) (S := S) x hg
    refine ⟨hy, first ++ rest, ?_, ?_⟩
    · intro c' hc'
      rcases List.mem_append.mp hc' with h | h
      · exact hfirst c' h
      · exact hrest c' h
    · rw [TurboQuantIndex.run, List.foldl_append, heq', heq]
      rfl

end

end IdMapIndex

/-! ## Images of equal content -/

/-- `serialized_len`, of an image of either kind. -/
def TurboQuantIndex.serializedLen (P : Platform) (T : Tables) (x : TurboQuantIndex) (kind : ℕ)
    (ids : Option (List UInt64)) : ℕ := imageLen ((x.seeded P T).syncSource P kind ids 8)

/-- The same rows, scales and calibration, at the same dimension and width. -/
structure SameContent (P : Platform) (x y : TurboQuantIndex) : Prop where
  dim : y.dim = x.dim
  bitWidth : y.bitWidth = x.bitWidth
  packed : y.packed P = x.packed P
  scales : y.scales = x.scales
  tqplusShift : y.tqplusShift = x.tqplusShift
  tqplusScale : y.tqplusScale = x.tqplusScale

section Images

variable {P : Platform} {T : Tables} {K : Kernels} {S : ScanKernels} {x y : TurboQuantIndex}
  {rows rows' : List (List UInt8)}

theorem rows_ext (hlen : rows'.length = rows.length)
    (h : ∀ v < rows.length, rows'.getD v [] = rows.getD v []) : rows' = rows := by
  apply List.ext_getElem hlen
  intro v hv hv'
  have hrow := h v hv'
  rwa [List.getD_eq_getElem?_getD, List.getD_eq_getElem?_getD, List.getElem?_eq_getElem hv,
    List.getElem?_eq_getElem hv', Option.getD_some, Option.getD_some] at hrow

/-- Equal packed rows are equal rows. -/
theorem SameContent.rows_eq (h : SameContent P x y) (hx : Rep P x rows) (hy : Rep P y rows') :
    y.nVectors = x.nVectors ∧ rows' = rows := by
  have hn : y.nVectors = x.nVectors := by
    rw [← hx.scales, ← hy.scales, h.scales]
  have hlen : rows'.length = rows.length := by rw [hx.len, hy.len, hn]
  refine ⟨hn, rows_ext hlen ?_⟩
  intro v hv
  have hv' : v < rows'.length := by omega
  obtain ⟨d, hd⟩ := Option.isSome_iff_exists.mp (hx.dimmed (by rw [← hx.len]; omega))
  have hflat : rows'.flatten = rows.flatten := by rw [← hx.packed_eq, ← hy.packed_eq, h.packed]
  have hwidth : ∀ r ∈ rows', r.length = x.bitWidth * (d / 8) := by
    intro r hr
    rw [← h.bitWidth]
    exact hy.width d (h.dim.trans hd) r hr
  rw [← rowAt_flatten (hx.width d hd) hv, ← rowAt_flatten hwidth hv', hflat]

/-- A held index is given to the writer row by row as it is. -/
theorem Held.rowCodes (h : Held P T x rows) (v : ℕ) :
    (x.seeded P T).rowCodes P v = (x.seeded P T).seqRow P v := by
  have hs := @seeded_same P T x
  obtain ⟨hat, hbuf⟩ := @seeded_captures P T x
  have hsound : Sound P (x.seeded P T) rows := by
    refine ⟨h.sound.rep.seeded, ?_, ?_⟩
    · exact h.sound.clean.of_same hs.dim hs.bitWidth hs.nVectors (seeded_codes x).1
    · exact h.sound.captured.keep hat hbuf (fun d hd => hs.dim.trans hd) hs.bitWidth hs.nVectors.ge fun _ _ => rfl
  exact rowCodes_eq hsound.capturesFresh.bytes v

/-- Held indexes with the same content write the same image. -/
theorem Held.image_eq (hx : Held P T x rows) (hy : Held P T y rows') (h : SameContent P x y) (kind : ℕ)
    (ids : Option (List UInt64)) (version : ℕ) :
    x.imageInVersion P T kind ids version = y.imageInVersion P T kind ids version := by
  obtain ⟨hn, rfl⟩ := h.rows_eq hx.sound.rep hy.sound.rep
  have hs : SameParts x y := ⟨h.dim, h.bitWidth, hn, h.scales, h.tqplusShift, h.tqplusScale⟩
  exact image_of_clean hx.sound.rep hy.sound.rep hs hx.keyed.booked hy.keyed.booked hx.sound.clean hy.sound.clean
    (fun v _ => hx.rowCodes v) (fun v _ => hy.rowCodes v) kind ids version

/-- An image has the length its index announces. -/
theorem Held.length_image (hT : T.Leveled) (h : Held P T x rows) (kind : ℕ) {ids : Option (List UInt64)}
    (hids : ids.isSome = true ↔ kind = 1) :
    (x.imageInVersion P T kind ids 8).length = x.serializedLen P T kind ids := by
  have hs := @seeded_same P T x
  have hpair : (x.seeded P T).tqplusScale.length = (x.seeded P T).tqplusShift.length := by
    rw [hs.tqplusScale, hs.tqplusShift]
    exact h.paired
  have hshape : SourceShaped ((x.seeded P T).syncSource P kind ids 8) :=
    syncSource_shaped hT (seeded_seeded h.keyed.booked) hpair
  have hidsOk : ((x.seeded P T).syncSource P kind ids 8).IdsOk := hids
  have hrep : Rep P (x.seeded P T) rows := h.sound.rep.seeded
  have hrows : ∀ v < (x.seeded P T).nVectors, (((x.seeded P T).syncSource P kind ids 8).rowCodes v).length =
      ((x.seeded P T).syncSource P kind ids 8).geo.rowBytes := length_rowCodes hrep (hrep.rowsGiven fun v _ => h.rowCodes v)
  have htail : TailFits ((x.seeded P T).syncSource P kind ids 8) (x.seeded P T).nVectors := by
    intro k hk
    have := Nat.mod_le (x.seeded P T).nVectors BLOCK
    exact length_recBytes hidsOk (hrows _ (by omega))
  exact (holds_layoutImage (length_superblock hshape) (length_fullHeader_le htail) fun b hb =>
    length_unitBytes hidsOk (length_unitCodes hrep b hb)).1

/-- What an index writes is a function of its content: two histories without stray bits that reach the same
rows, scales, calibration and ids write the same image, of the length both announce. -/
theorem images_of_content (hT : T.Leveled) (hK : K.Sized) (hfit : K.Paired) {y₁ y₂ : TurboQuantIndex}
    (hc₁ : y₁.Clean P) (hc₂ : y₂.Clean P) :
    (∀ calls₁ calls₂ : List TurboQuantIndex.Call, Begun P T y₁ → Begun P T y₂ →
      (∀ c ∈ calls₁, c.Guarded) → (∀ c ∈ calls₂, c.Guarded) →
      SameContent P (y₁.run P T K S calls₁) (y₂.run P T K S calls₂) →
        (y₁.run P T K S calls₁).toBytes P T = (y₂.run P T K S calls₂).toBytes P T ∧
        ((y₁.run P T K S calls₁).toBytes P T).length = (y₁.run P T K S calls₁).serializedLen P T 0 none ∧
        ((y₁.run P T K S calls₁).toBytes P T).length = (y₂.run P T K S calls₂).serializedLen P T 0 none) ∧
    ∀ x₁ x₂ : IdMapIndex, IdMapIndex.Ran P T K S y₁ x₁ → IdMapIndex.Ran P T K S y₂ x₂ →
      SameContent P x₁.inner x₂.inner → x₂.slotToId = x₁.slotToId →
        x₁.toBytes P T = x₂.toBytes P T ∧
        (x₁.toBytes P T).length = x₁.inner.serializedLen P T 1 (some x₁.slotToId) ∧
        (x₁.toBytes P T).length = x₂.inner.serializedLen P T 1 (some x₂.slotToId) := by
  have hheld : ∀ {y : TurboQuantIndex} {calls : List TurboQuantIndex.Call}, Begun P T y → y.Clean P →
      (∀ c ∈ calls, c.Guarded) → ∃ rows, Held P T (y.run P T K S calls) rows := by
    intro y calls hy hc hg
    obtain ⟨rows, h⟩ := hy.held hc
    exact h.run hK hfit calls hg
  constructor
  · intro calls₁ calls₂ hy₁ hy₂ hg₁ hg₂ hsame
    obtain ⟨rows₁, h₁⟩ := hheld hy₁ hc₁ hg₁
    obtain ⟨rows₂, h₂⟩ := hheld hy₂ hc₂ hg₂
    have heq := h₁.image_eq h₂ hsame 0 none 8
    exact ⟨heq, h₁.length_image hT 0 (by simp),
      (congrArg List.length heq).trans (h₂.length_image hT 0 (by simp))⟩
  · intro x₁ x₂ hx₁ hx₂ hsame hids
    obtain ⟨hy₁, calls₁, hg₁, hinner₁⟩ := hx₁.inner
    obtain ⟨hy₂, calls₂, hg₂, hinner₂⟩ := hx₂.inner
    obtain ⟨rows₁, h₁⟩ := hheld hy₁ hc₁ hg₁
    obtain ⟨rows₂, h₂⟩ := hheld hy₂ hc₂ hg₂
    rw [← hinner₁] at h₁
    rw [← hinner₂] at h₂
    have heq := h₁.image_eq h₂ hsame 1 (some x₁.slotToId) 8
    rw [IdMapIndex.toBytes, IdMapIndex.toBytes, hids]
    exact ⟨heq, h₁.length_image hT 1 (by simp),
      (congrArg List.length heq).trans (h₂.length_image hT 1 (by simp))⟩

end Images

theorem zeroKernels_paired : zeroKernels.Paired :=
  ⟨fun _ _ _ _ _ => List.length_replicate, fun _ _ _ _ _ => List.length_replicate⟩

theorem grownBlock_content : SameContent plainHost blockRows grownBlock := by
  refine ⟨rfl, rfl, ?_, ?_, rfl, rfl⟩
  · decide +kernel
  · decide +kernel

namespace IdMapIndex

def firstIds (n : ℕ) : List UInt64 := (List.range n).map UInt64.ofNat

/-- Ids over the rows of the block. -/
def wholeIds : IdMapIndex := ⟨wholeRows, firstIds 32, none, firstIds 32, ∅⟩

theorem wholeIds_ok : fromIndexAndIds wholeRows (firstIds 32) = .ok wholeIds := by
  have hsort : sortIds (firstIds 32) = firstIds 32 := List.mergeSort_of_pairwise (by decide +kernel)
  rw [fromIndexAndIds, if_neg (by decide), hsort]
  dsimp only
  rw [if_neg (by decide +kernel), wholeIds]

def blockIds : IdMapIndex := ⟨blockRows, firstIds 33, none, firstIds 33, ∅⟩

theorem blockIds_ok : fromIndexAndIds blockRows (firstIds 33) = .ok blockIds := by
  have hsort : sortIds (firstIds 33) = firstIds 33 := List.mergeSort_of_pairwise (by decide +kernel)
  rw [fromIndexAndIds, if_neg (by decide), hsort]
  dsimp only
  rw [if_neg (by decide +kernel), blockIds]

/-- The ids after a preparation and one more row. -/
def grownIds : IdMapIndex :=
  (wholeIds.after plainHost levelTables zeroKernels zeroScan .prepare).after plainHost levelTables zeroKernels zeroScan
    (.add (List.replicate 8 0) 8 [32] none)

theorem grownIds_slots : grownIds.slotToId = blockIds.slotToId := by decide +kernel

theorem grownIds_content : SameContent plainHost blockIds.inner grownIds.inner := by
  refine ⟨rfl, rfl, ?_, ?_, rfl, rfl⟩
  · decide +kernel
  · decide +kernel

end IdMapIndex

theorem grownIds_ran : IdMapIndex.Ran plainHost levelTables zeroKernels zeroScan wholeRows IdMapIndex.grownIds := by
  have hwhole : IdMapIndex.Ran plainHost levelTables zeroKernels zeroScan wholeRows IdMapIndex.wholeIds :=
    .fromParts (.opened wholeRows_opened) [] (by simp) IdMapIndex.wholeIds_ok
  exact (hwhole.call (c := .prepare) trivial).call (c := .add (List.replicate 8 0) 8 [32] none)
    (by simp [IdMapIndex.Call.Guarded])

open IdMapIndex in
/-- A row added to a prepared block, and an id with it, is written as the index built from all the rows. -/
theorem images_of_grown :
    grownBlock.packedCodes = none ∧ blockRows.toBytes plainHost levelTables = grownBlock.toBytes plainHost levelTables ∧
      blockIds.toBytes plainHost levelTables = grownIds.toBytes plainHost levelTables := by
  have hwhole : Begun plainHost levelTables wholeRows := .opened wholeRows_opened
  have hblock : Begun plainHost levelTables blockRows := .opened blockRows_opened
  obtain ⟨hrows, hids⟩ := images_of_content (S := zeroScan) levelTables_leveled zeroKernels_sized zeroKernels_paired
    (TurboQuantIndex.clean_of_none rfl : blockRows.Clean plainHost)
    (TurboQuantIndex.clean_of_none rfl : wholeRows.Clean plainHost)
  refine ⟨grownBlock_dropped.1, (hrows [] growBlock hblock hwhole (by simp) growBlock_guarded grownBlock_content).1, ?_⟩
  exact (hids blockIds grownIds (.fromParts hblock [] (by simp) blockIds_ok) grownIds_ran grownIds_content
    grownIds_slots).1

/-- Reading the packed rows changes what an index loaded with stray bits writes. -/
theorem images_differ : TurboQuantIndex.Opened x86Host levelTables strayIndex ∧
    SameContent x86Host strayIndex
      (strayIndex.run x86Host levelTables zeroKernels zeroScan [.packedCodes]) ∧
    strayIndex.toBytes x86Host levelTables ≠
      (strayIndex.run x86Host levelTables zeroKernels zeroScan [.packedCodes]).toBytes x86Host levelTables := by
  have hrun : strayIndex.run x86Host levelTables zeroKernels zeroScan [.packedCodes] =
      strayIndex.materialize x86Host := rfl
  have hx : Rep x86Host strayIndex strayLoad.rows := rep_fromV7 (stored_of_loadImage load_stray) none
  have hw : Writable levelTables strayIndex := by
    refine ⟨fun d hd => ?_, by decide, by decide, by decide, ⟨rfl, rfl, rfl⟩⟩
    rw [← Option.some.inj hd]
    decide
  have hbook : Booked levelTables strayIndex := booked_fromV7 strayLoad none
  rw [hrun]
  refine ⟨strayIndex_opened, ⟨rfl, rfl, rfl, rfl, rfl, rfl⟩, fun heq => ?_⟩
  have hrow := (toBytes_eq_iff levelTables_numbered hx hx.materialize hw ⟨rfl, rfl, rfl, rfl, rfl, rfl⟩ hbook hbook
    rfl rfl rfl).mp heq 0 (by decide)
  exact absurd hrow (by decide +kernel)

end Turbovec
