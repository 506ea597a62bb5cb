import Turbovec.Index.Stores

/-!
# The derived members of a planes cache

A search of a planes cache leaves three members with it: the sample and the centre terms, which every
mutation drops, and the level statistics, which only a new cache or a promotion drops.
-/

namespace Turbovec

open Pack IoV7 Slice Grid

/-! ## The regions of given rows -/

section Unique

variable {P : Platform} {bits dim n : ℕ} {f : ℕ → List UInt8} {sign low sign' low' : List UInt8}

/-- Every byte of a sign block is the slot of some group and lane. -/
theorem exists_planesSlot (hp : planesFor P bits (dim / codesPerByte bits) = true) (hd : dim % 8 = 0) {r : ℕ}
    (hr : r < dim / 8 * 32) : ∃ g < dim / 8, ∃ lane < 32, planesSlot P g lane = r := by
  have hmod : P.arch = .x86_64 → dim / 8 % 4 = 0 := by
    intro hx
    rcases planesBits_of_planesFor hp with rfl | rfl <;>
      simp only [planesFor, hx, if_true, Bool.and_eq_true, beq_iff_eq, codesPerByte] at hp <;> omega
  by_cases hx : P.arch = .x86_64
  · have := hmod hx
    refine ⟨r / 128 * 4 + r % 4, by omega, r % 128 / 64 * 16 + r % 64 / 4, by omega, ?_⟩
    rw [planesSlot, if_pos hx]
    omega
  · refine ⟨r / 32, by omega, r % 32, by omega, ?_⟩
    rw [planesSlot, if_neg hx]
    simp only [BLOCK]
    omega

/-- Rows have one pair of planes regions. -/
theorem PlanesHold.unique (hp : planesFor P bits (dim / codesPerByte bits) = true) (hd : dim % 8 = 0)
    (h : PlanesHold P bits dim n f sign low) (h' : PlanesHold P bits dim n f sign' low') :
    sign = sign' ∧ low = low' := by
  refine ⟨ext_entry (h.sign.length_eq.trans h'.sign.length_eq.symm) fun k hk => ?_, h.low.trans h'.low.symm⟩
  rw [h.sign.length_eq] at hk
  have hpos : 0 < dim / 8 * 32 := Nat.pos_of_mul_pos_left (by omega : 0 < (n + 31) / 32 * (dim / 8 * 32))
  obtain ⟨g, hg, lane, hlane, hr⟩ := exists_planesSlot hp hd (Nat.mod_lt k hpos)
  have hk' : k = k / (dim / 8 * 32) * (dim / 8) * BLOCK + planesSlot P g lane := by
    rw [hr, Nat.mul_assoc]
    exact (Nat.div_add_mod' k _).symm
  have hb : (k / (dim / 8 * 32) * 32 + lane) / BLOCK = k / (dim / 8 * 32) := by
    simp only [BLOCK]
    omega
  have hl : (k / (dim / 8 * 32) * 32 + lane) % BLOCK = lane := by
    simp only [BLOCK]
    omega
  have hcode := h.sign.code (k / (dim / 8 * 32) * 32 + lane) g hg
  rw [← h'.sign.code _ g hg] at hcode
  unfold laneCode at hcode
  rw [hb, hl, readCode_sign hp hd, readCode_sign hp hd, ← hk'] at hcode
  exact hcode

end Unique

namespace TurboQuantIndex

/-! ## Members computed afresh -/

section variable (P : Platform) (T : Tables) (K : Kernels) (S : ScanKernels)

/-- The centre weights of the committed calibration. -/
def weights (x : TurboQuantIndex) (dim : ℕ) (m : F32) : List F32 :=
  (List.range dim).map fun d => S.weight m (x.tqplusShift.getD d 0) (x.tqplusScale.getD d 0)

/-- The planes regions of the stored rows, and their blocks. -/
def regions (x : TurboQuantIndex) (dim : ℕ) : List UInt8 × List UInt8 × ℕ :=
  planesRepack P (x.packed P) x.nVectors x.bitWidth dim

def freshStats (x : TurboQuantIndex) (dim : ℕ) : PlanesStats :=
  planesStats P S (x.regions P dim).1 (x.regions P dim).2.1 x.nVectors x.bitWidth
    (dim / codesPerByte x.bitWidth) (x.centroids.getD [])

def freshSample (x : TurboQuantIndex) (dim : ℕ) : Option (List UInt8 × List F32) :=
  planesSample (x.regions P dim).1 x.scales x.nVectors (dim / 8)

def freshCentre (x : TurboQuantIndex) (dim : ℕ) (m : F32) : List F32 :=
  planesCentre P S (x.regions P dim).1 x.nVectors (dim / 8) (x.weights S dim m)

/-- The index with its planes cache rebuilt from its rows and only the statistics kept. -/
def rebuilt (x : TurboQuantIndex) (dim : ℕ) (cache : BlockedCache) : TurboQuantIndex :=
  { x with blocked := some {
      data := (x.regions P dim).1
      nBlocks := (x.regions P dim).2.2
      low := (x.regions P dim).2.1
      stats := cache.stats
      sample := none
      centre := none } }

/-- The index after the calls. -/
def run (x : TurboQuantIndex) (calls : List Call) : TurboQuantIndex := calls.foldl (after P T K S) x

/-- A call out of which only guarded steps unwind. -/
def Call.Guarded : Call → Prop
  | .add _ _ fault => ∀ f ∈ fault, f.Guarded
  | _ => True

/-- The members are those of the cache's own regions; every set of statistics is one `seen`. -/
structure Members (seen : PlanesStats → Prop) (x : TurboQuantIndex) : Prop where
  sample : ∀ d cache s, x.dim = some d → x.blocked = some cache → cache.sample = some s →
    cache.isPlanes = true ∧ s = planesSample cache.data x.scales x.nVectors (d / 8)
  centre : ∀ d cache w, x.dim = some d → x.blocked = some cache → cache.centre = some w →
    cache.isPlanes = true ∧ ∃ st, cache.stats = some st ∧
      w = planesCentre P S cache.data x.nVectors (d / 8) (x.weights S d st.m)
  stats : ∀ cache st, x.blocked = some cache → cache.stats = some st → seen st

/-- What a call other than a search does to the members: they go with the cache, stay with what they were
computed from, or the sample and the centre terms are dropped. -/
inductive Carries (x x' : TurboQuantIndex) : Prop
  | uncached (h : x'.blocked = none)
  | same (hc : x'.blocked = x.blocked) (hdim : ∀ d, x'.dim = some d → x.dim = some d)
      (hs : x'.scales = x.scales) (hn : x'.nVectors = x.nVectors) (hshift : x'.tqplusShift = x.tqplusShift)
      (hscale : x'.tqplusScale = x.tqplusScale)
  | dropped (cache : BlockedCache) (h : x'.blocked = some cache) (hsample : cache.sample = none)
      (hcentre : cache.centre = none)
      (hstats : cache.stats = none ∨ ∃ old, x.blocked = some old ∧ cache.stats = old.stats)

end

section

variable {P : Platform} {T : Tables} {K : Kernels} {S : ScanKernels} {x x' : TurboQuantIndex}
  {rows : List (List UInt8)} {seen seen' : PlanesStats → Prop}

theorem Carries.members (h : Carries x x') (hx : x.Members P S seen) (hs : ∀ st, seen st → seen' st) :
    x'.Members P S seen' := by
  cases h with
  | uncached h =>
    constructor
    · intro d cache s hd hc
      rw [h] at hc
      cases hc
    · intro d cache w hd hc
      rw [h] at hc
      cases hc
    · intro cache st hc
      rw [h] at hc
      cases hc
  | same hc hdim hscales hn hshift hscale =>
    constructor
    · intro d cache s hd hb hsome
      rw [hscales, hn]
      exact hx.sample d cache s (hdim d hd) (hc ▸ hb) hsome
    · intro d cache w hd hb hsome
      simp only [weights, hn, hshift, hscale]
      exact hx.centre d cache w (hdim d hd) (hc ▸ hb) hsome
    · intro cache st hb hsome
      exact hs st (hx.stats cache st (hc ▸ hb) hsome)
  | dropped cache h hsample hcentre hstats =>
    constructor
    · intro d cache' s hd hb hsome
      rw [h, Option.some.injEq] at hb
      rw [← hb, hsample] at hsome
      cases hsome
    · intro d cache' w hd hb hsome
      rw [h, Option.some.injEq] at hb
      rw [← hb, hcentre] at hsome
      cases hsome
    · intro cache' st hb hsome
      rw [h, Option.some.injEq] at hb
      rw [← hb] at hsome
      rcases hstats with hnone | ⟨old, hold, heq⟩
      · rw [hnone] at hsome
        cases hsome
      · rw [heq] at hsome
        exact hs st (hx.stats old st hold hsome)

/-! ## Adding -/

theorem promoteIfDue_members (cache : BlockedCache) (n bits nbg : ℕ) (hsample : cache.sample = none)
    (hcentre : cache.centre = none) :
    (cache.promoteIfDue P n bits nbg).sample = none ∧ (cache.promoteIfDue P n bits nbg).centre = none ∧
      ((cache.promoteIfDue P n bits nbg).stats = none ∨
        (cache.promoteIfDue P n bits nbg).stats = cache.stats) := by
  unfold BlockedCache.promoteIfDue
  split
  · exact ⟨hsample, hcentre, Or.inr rfl⟩
  · exact ⟨rfl, rfl, Or.inl rfl⟩

theorem build_members (packed : List UInt8) (n bits dim : ℕ) :
    (BlockedCache.build P packed n bits dim).sample = none ∧
      (BlockedCache.build P packed n bits dim).centre = none ∧
      (BlockedCache.build P packed n bits dim).stats = none := by
  unfold BlockedCache.build
  split
  · exact ⟨rfl, rfl, rfl⟩
  · exact ⟨rfl, rfl, rfl⟩

theorem appendRows_members (cache : BlockedCache) (packedRows : List UInt8) (oldN n bits dim : ℕ) :
    (cache.appendRows P packedRows oldN n bits dim).sample = none ∧
      (cache.appendRows P packedRows oldN n bits dim).centre = none ∧
      ((cache.appendRows P packedRows oldN n bits dim).stats = none ∨
        (cache.appendRows P packedRows oldN n bits dim).stats = cache.stats) := by
  unfold BlockedCache.appendRows
  dsimp only
  split
  · exact ⟨rfl, rfl, Or.inr rfl⟩
  · apply promoteIfDue_members
    · rfl
    · rfl

theorem patch_members (cache : BlockedCache) (packed : List UInt8) (oldN newN bits dim : ℕ) :
    (cache.patch P packed oldN newN bits dim).sample = none ∧
      (cache.patch P packed oldN newN bits dim).centre = none ∧
      ((cache.patch P packed oldN newN bits dim).stats = none ∨
        (cache.patch P packed oldN newN bits dim).stats = cache.stats) := by
  unfold BlockedCache.patch
  dsimp only
  by_cases hp : cache.isPlanes = true
  · rw [if_pos hp]
    exact ⟨rfl, rfl, Or.inr rfl⟩
  · rw [if_neg hp]
    apply promoteIfDue_members
    · rfl
    · rfl

theorem removeRow_members (cache : BlockedCache) (idx newN bits dim : ℕ) :
    (cache.removeRow P idx newN bits dim).sample = none ∧
      (cache.removeRow P idx newN bits dim).centre = none ∧
      (cache.removeRow P idx newN bits dim).stats = cache.stats := by
  unfold BlockedCache.removeRow
  dsimp only
  split
  · exact ⟨rfl, rfl, rfl⟩
  · exact ⟨rfl, rfl, rfl⟩

theorem appendRows_carries {vectors : List F32} {n dim : ℕ} {fault : Option Fault}
    (h : appendRows P K x vectors n dim fault = .ok x') : Carries x x' := by
  unfold appendRows at h
  dsimp only at h
  split at h
  · rename_i hlazy
    simp only [lazyAppend, Bool.and_eq_true] at hlazy
    obtain ⟨cache, hc⟩ := Option.isSome_iff_exists.mp hlazy.2
    split at h
    · cases h
    · cases h
    · cases h
      generalize (K.encode vectors n dim (x.rotation.getD dim) (x.boundaries.getD []) (x.centroids.getD [])
        x.bitWidth x.calibration) = new
      obtain ⟨h1, h2, h3⟩ := appendRows_members (P := P) cache new.1 x.nVectors n x.bitWidth dim
      refine .dropped _ (by dsimp only; rw [hc]; rfl) h1 h2 ?_
      exact h3.imp id fun heq => ⟨cache, hc, heq⟩
  · split at h
    · cases h
    · cases h
    · split at h
      · cases h
        obtain ⟨h1, h2, h3⟩ := build_members (P := P) (x.packed P ++ (K.encode vectors n dim
          (x.rotation.getD dim) (x.boundaries.getD []) (x.centroids.getD []) x.bitWidth x.calibration).1)
          (x.nVectors + n) x.bitWidth dim
        exact .dropped _ rfl h1 h2 (Or.inl h3)
      · cases h
      · rename_i cache hc _ _ _
        cases h
        obtain ⟨h1, h2, h3⟩ := patch_members (P := P) cache (x.packed P ++ (K.encode vectors n dim
          (x.rotation.getD dim) (x.boundaries.getD []) (x.centroids.getD []) x.bitWidth x.calibration).1)
          x.nVectors (x.nVectors + n) x.bitWidth dim
        exact .dropped _ rfl h1 h2 (h3.imp id fun heq => ⟨cache, hc, heq⟩)

theorem Carries.of_warm {dim : ℕ} (h : Carries (x.warm T dim) x') : Carries x x' := by
  cases h with
  | uncached h => exact .uncached h
  | same hc hdim hs hn hshift hscale => exact .same hc hdim hs hn hshift hscale
  | dropped cache h hsample hcentre hstats => exact .dropped cache h hsample hcentre hstats

/-- No cache without a dimension. -/
theorem blocked_of_lazy (h : Rep P x rows) (hd : x.dim = none) : x.blocked = none := by
  cases hb : x.blocked with
  | none => rfl
  | some c =>
    obtain ⟨d, hd', -⟩ := h.cache c hb
    rw [hd] at hd'
    cases hd'

theorem add2d_carries (h : Rep P x rows) (vectors : List F32) (dim : ℕ) {fault : Option Fault}
    (hf : ∀ f ∈ fault, f.Guarded) : Carries x (x.add2d P T K vectors dim fault).1 := by
  have hsame : Carries x x := .same rfl (fun _ hd => hd) rfl rfl rfl rfl
  have had := added P T K x vectors dim fault
  generalize x.add2d P T K vectors dim fault = r at had ⊢
  cases had with
  | refused e => exact hsame
  | ragged hr => exact hsame
  | nothing hnil => exact hsame
  | @done x' hdim hadd =>
    dsimp only
    cases hd : x.dim with
    | some d =>
      rw [entered_eq hdim hd] at hadd
      unfold add at hadd
      dsimp only at hadd
      split at hadd
      · cases hadd
      · split at hadd
        · cases hadd
          exact hsame
        · split at hadd
          · cases hadd
          · exact (appendRows_carries hadd).of_warm
    | none =>
      have hb := blocked_of_lazy h hd
      unfold add at hadd
      dsimp only at hadd
      split at hadd
      · cases hadd
      · split at hadd
        · cases hadd
          exact .uncached hb
        · split at hadd
          · cases hadd
          · cases appendRows_carries hadd with
            | uncached h' => exact .uncached h'
            | same hc => exact .uncached (hc.trans hb)
            | dropped cache hc h1 h2 h3 => exact .dropped cache hc h1 h2 h3
  | @panicked x' hdim hadd =>
    dsimp only
    have hx' : x'.blocked = x.blocked ∧ x'.dim = some dim ∧ x'.scales = x.scales ∧
        x'.nVectors = x.nVectors ∧ x'.tqplusShift = x.tqplusShift ∧ x'.tqplusScale = x.tqplusScale := by
      unfold add at hadd
      dsimp only at hadd
      split at hadd
      · cases hadd
        exact ⟨rfl, rfl, rfl, rfl, rfl, rfl⟩
      · split at hadd
        · cases hadd
        · split at hadd
          · cases hadd
            exact ⟨rfl, rfl, rfl, rfl, rfl, rfl⟩
          · rw [Rep.appendRows_unwound hf hadd]
            split
            · exact ⟨rfl, rfl, rfl, rfl, rfl, rfl⟩
            · exact ⟨rfl, rfl, rfl, rfl, rfl, rfl⟩
    obtain ⟨hb, hd, hs, hn, hshift, hscale⟩ := hx'
    unfold unwound
    split
    · rename_i hnone
      exact .uncached (hb.trans (blocked_of_lazy h (Option.isNone_iff_eq_none.mp hnone)))
    · rename_i hsome
      rw [Option.isNone_iff_eq_none] at hsome
      obtain ⟨d, hd'⟩ := Option.ne_none_iff_exists'.mp hsome
      refine .same hb (fun d'' h'' => ?_) hs hn hshift hscale
      rw [hd, ← eq_of_checkAddDim hdim hd', ← hd'] at h''
      exact h''

/-! ## Calibrating -/

theorem calibrate2d_carries (h : Rep P x rows) (hx : x.Members P S seen) (sample : List F32) (dim : ℕ)
    (fault : Option Fault) : Carries x (x.calibrate2d P T K sample dim fault).1 := by
  have hsame : Carries x x := .same rfl (fun _ hd => hd) rfl rfl rfl rfl
  have hcal := calibrated P T K x sample dim fault
  generalize x.calibrate2d P T K sample dim fault = r at hcal ⊢
  cases hcal with
  | refused e => exact hsame
  | abandoned hdim o ho =>
    dsimp only
    unfold uncommitted
    split
    · exact .same rfl (fun _ hd => hd) rfl rfl rfl rfl
    · exact .same rfl (fun _ hd => hd) rfl rfl rfl rfl
  | panicked hdim hn => exact .same rfl (fun _ hd => hd) rfl rfl rfl rfl
  | done hdim =>
    dsimp only
    unfold commitCalibration
    dsimp only
    by_cases hn : (x.warm T dim).nVectors > 0
    · rw [if_pos hn]
      exact .uncached rfl
    · -- a cache of no rows is no planes cache, and holds neither sample nor centre
      rw [if_neg hn]
      have hn : x.nVectors = 0 := Nat.eq_zero_of_not_pos hn
      cases hb : x.blocked with
      | none => exact .uncached hb
      | some cache =>
        obtain ⟨d, hd, hold⟩ := h.cache cache hb
        have hclassic : ¬cache.isPlanes = true := by
          intro hp
          have hlow := (hold.regions.planes (isPlanes_eq_true.mp hp)).2.low
          rw [hn, List.range_zero, List.flatMap_nil] at hlow
          exact isPlanes_eq_true.mp hp hlow
        refine .dropped cache hb ?_ ?_ (Or.inr ⟨cache, hb, rfl⟩)
        · cases hs : cache.sample with
          | none => rfl
          | some s => exact absurd (hx.sample d cache s hd hb hs).1 hclassic
        · cases hw : cache.centre with
          | none => rfl
          | some w => exact absurd (hx.centre d cache w hd hb hw).1 hclassic

/-! ## Removing -/

theorem markRemoval_blocked (x : TurboQuantIndex) (idx last : ℕ) :
    (x.markRemoval idx last).blocked = x.blocked ∧ (x.markRemoval idx last).bitWidth = x.bitWidth := by
  have hdirty : ∀ (y : TurboQuantIndex) (slot : ℕ), (y.markDirty slot).blocked = y.blocked ∧
      (y.markDirty slot).bitWidth = y.bitWidth := by
    intro y slot
    unfold markDirty
    split
    · exact ⟨rfl, rfl⟩
    · exact ⟨rfl, rfl⟩
  unfold markRemoval
  split
  · dsimp only
    split
    · rw [(hdirty _ last).1, (hdirty _ last).2]
      exact hdirty x idx
    · exact hdirty x idx
  · exact ⟨rfl, rfl⟩

/-- The cache after a removal. -/
theorem swapRemove_blocked {idx d last : ℕ} (hidx : idx < x.nVectors) (hd : x.dim = some d)
    (h : x.swapRemove P idx = some (x', last)) :
    x'.blocked = x.blocked.map fun cache => cache.removeRow P idx (x.nVectors - 1) x.bitWidth d := by
  rw [swapRemove_eq x hidx hd] at h
  dsimp only at h
  obtain ⟨hb, hbits⟩ := markRemoval_blocked x idx (x.nVectors - 1)
  cases h
  rw [← hb, ← hbits]
  rfl

theorem swapRemove_carries (h : Rep P x rows) (idx : ℕ) :
    Carries x (((x.swapRemove P idx).map Prod.fst).getD x) := by
  by_cases hidx : idx < x.nVectors
  · obtain ⟨d, hd⟩ := Option.isSome_iff_exists.mp (h.dimmed (by omega))
    obtain ⟨x', hx', -⟩ := h.swapRemove hidx
    have hb := swapRemove_blocked hidx hd hx'
    rw [hx', Option.map_some, Option.getD_some]
    cases hc : x.blocked with
    | none =>
      rw [hc, Option.map_none] at hb
      exact .uncached hb
    | some cache =>
      rw [hc, Option.map_some] at hb
      obtain ⟨h1, h2, h3⟩ := removeRow_members (P := P) cache idx (x.nVectors - 1) x.bitWidth d
      exact .dropped _ hb h1 h2 (Or.inr ⟨cache, hc, h3⟩)
  · unfold swapRemove
    rw [guard, if_neg hidx]
    exact .same rfl (fun _ hd => hd) rfl rfl rfl rfl

/-! ## Preparing -/

theorem prepared_carries (x : TurboQuantIndex) (dim : ℕ) : Carries x (x.prepared P T dim) := by
  unfold prepared
  dsimp only
  split
  · exact .same rfl (fun _ hd => hd) rfl rfl rfl rfl
  · obtain ⟨h1, h2, h3⟩ := build_members (P := P) (x.packed P) x.nVectors x.bitWidth dim
    exact .dropped _ rfl h1 h2 (Or.inl h3)

theorem prepare_carries (x : TurboQuantIndex) : Carries x (x.prepare P T) := by
  unfold prepare
  split
  · exact .same rfl (fun _ hd => hd) rfl rfl rfl rfl
  · split
    · exact .same rfl (fun _ hd => hd) rfl rfl rfl rfl
    · exact prepared_carries x _

theorem sync_carries (x : TurboQuantIndex) (path : String) (disk : Disk) :
    Carries x (x.sync P T path disk).1 := by
  have hmat : ∀ b : Bool, (if b then x.materialize P else x).blocked = x.blocked ∧
      (if b then x.materialize P else x).dim = x.dim ∧
      (if b then x.materialize P else x).scales = x.scales ∧
      (if b then x.materialize P else x).nVectors = x.nVectors ∧
      (if b then x.materialize P else x).tqplusShift = x.tqplusShift ∧
      (if b then x.materialize P else x).tqplusScale = x.tqplusScale := by
    intro b
    cases b with
    | false => exact ⟨rfl, rfl, rfl, rfl, rfl, rfl⟩
    | true => exact ⟨rfl, rfl, rfl, rfl, rfl, rfl⟩
  obtain ⟨hb, hd, hs, hn, hshift, hscale⟩ := hmat x.blocked.isNone
  unfold sync
  split
  · exact .same rfl (fun _ hd => hd) rfl rfl rfl rfl
  · dsimp only
    split
    · exact .same hb (fun _ h => hd ▸ h) hs hn hshift hscale
    · exact .same hb (fun _ h => hd ▸ h) hs hn hshift hscale
    · exact .same hb (fun _ h => hd ▸ h) hs hn hshift hscale

/-! ## Searching -/

/-- A planes cache is the regions of the stored rows. -/
theorem regions_eq (h : Rep P x rows) {dim : ℕ} (hd : x.dim = some dim) {cache : BlockedCache}
    (hc : x.blocked = some cache) (hp : cache.isPlanes = true) :
    x.regions P dim = (cache.data, cache.low, cache.nBlocks) := by
  obtain ⟨d, hd', hold⟩ := h.cache cache hc
  rw [hd, Option.some.injEq] at hd'
  subst hd'
  obtain ⟨hmod, hpos⟩ := h.dims dim hd
  obtain ⟨hfor, hplanes⟩ := hold.regions.planes (isPlanes_eq_true.mp hp)
  have hwidth := h.width dim hd
  have hlen : (x.packed P).length = x.nVectors * (x.bitWidth * (dim / 8)) := by
    rw [h.packed_eq, length_flatten_rows hwidth, h.len]
  have hnew := (planesHold_repack (P := P) (planesBits_of_planesFor hfor) hmod (by omega) hlen).congr
    fun v hv => by
      rw [h.packed_eq, rowAt_flatten hwidth (by rw [h.len]; exact hv)]
  obtain ⟨hsign, hlow⟩ := PlanesHold.unique hfor hmod hnew hplanes
  have hblocks : (x.regions P dim).2.2 = cache.nBlocks := by
    unfold regions planesRepack
    dsimp only
    rw [blockedGeometry_eq, hold.nBlocks]
  rw [← hsign, ← hlow, ← hblocks]
  rfl

/-- What the members are computed from is the rows. -/
theorem regions_of_rep (h : Rep P x rows) (h' : Rep P x' rows) (hn : x'.nVectors = x.nVectors)
    (hbits : x'.bitWidth = x.bitWidth) (dim : ℕ) : x'.regions P dim = x.regions P dim := by
  unfold regions
  rw [h.packed_eq, h'.packed_eq, hn, hbits]

theorem derived_planes (x : TurboQuantIndex) (dim : ℕ) (cache : BlockedCache) :
    (x.derived P S dim cache).isPlanes = cache.isPlanes := by
  unfold derived
  split
  · rfl
  · rfl

theorem derived_members (h : Rep P x rows) (hx : x.Members P S seen) {dim : ℕ} (hd : x.dim = some dim)
    {cache : BlockedCache} (hc : x.blocked = some cache) :
    Members P S (fun st => seen st ∨ st = x.freshStats P S dim)
      { x with blocked := some (x.derived P S dim cache) } := by
  by_cases hp : cache.isPlanes = true
  · have hreg := regions_eq h hd hc hp
    have hst : ∀ st, (x.derived P S dim cache).stats = some st →
        cache.stats = some st ∨ st = x.freshStats P S dim := by
      intro st hst
      unfold derived at hst
      rw [if_pos hp] at hst
      dsimp only at hst
      unfold freshStats
      rw [hreg]
      cases hs : cache.stats with
      | none =>
        rw [hs, Option.getD_none, Option.some.injEq] at hst
        exact Or.inr hst.symm
      | some st' =>
        rw [hs, Option.getD_some] at hst
        exact Or.inl hst
    constructor
    · intro d cache' s hd' hc' hs
      have hdd : d = dim := Option.some.inj (hd'.symm.trans hd)
      rw [← Option.some.inj hc'] at hs ⊢
      refine ⟨(derived_planes x dim cache).trans hp, ?_⟩
      unfold derived at hs ⊢
      rw [if_pos hp] at hs ⊢
      dsimp only at hs ⊢
      rw [Option.some.injEq] at hs
      rw [← hs, hdd]
      cases hsome : cache.sample with
      | none => rfl
      | some s' => exact (hx.sample dim cache s' hd hc hsome).2
    · intro d cache' w hd' hc' hw
      have hdd : d = dim := Option.some.inj (hd'.symm.trans hd)
      rw [← Option.some.inj hc'] at hw ⊢
      refine ⟨(derived_planes x dim cache).trans hp, ?_⟩
      unfold derived at hw ⊢
      rw [if_pos hp] at hw ⊢
      dsimp only at hw ⊢
      refine ⟨_, rfl, ?_⟩
      rw [hdd]
      cases hsome : cache.centre with
      | none =>
        rw [hsome] at hw
        split at hw
        · cases hw
        · exact (Option.some.inj hw).symm
      | some w' =>
        obtain ⟨-, st, hstats, hw'⟩ := hx.centre dim cache w' hd hc hsome
        have hww : w = w' := by
          rw [hsome] at hw
          split at hw
          · exact (Option.some.inj hw).symm
          · exact (Option.some.inj hw).symm
        rw [hww, hw', hstats, Option.getD_some]
        rfl
    · intro cache' st hc' hs
      rw [← Option.some.inj hc'] at hs
      exact (hst st hs).imp (hx.stats cache st hc) id
  · have hsame : x.derived P S dim cache = cache := by
      unfold derived
      rw [if_neg hp]
    rw [hsame]
    have hx' : { x with blocked := some cache } = x := by rw [← hc]
    rw [hx']
    exact Carries.members (.same rfl (fun _ hd => hd) rfl rfl rfl rfl) hx fun st => Or.inl

/-- How a search leaves an index. -/
inductive Searched (P : Platform) (T : Tables) (S : ScanKernels) (x : TurboQuantIndex) :
    TurboQuantIndex → Prop
  | unread : Searched P T S x x
  | refused {dim : ℕ} (hd : x.dim = some dim) : Searched P T S x (x.prepared P T dim)
  | scanned {dim : ℕ} (hd : x.dim = some dim) {cache : BlockedCache}
      (hc : (x.prepared P T dim).blocked = some cache) : Searched P T S x { x.prepared P T dim with
        blocked := some ((x.prepared P T dim).derived P S dim cache) }

theorem searched (x : TurboQuantIndex) (queries : List F32) (k : ℕ) (mask : Option (List Bool))
    (threshold : Option F32) :
    Searched P T S x (x.trySearchWithOptions P T S queries k mask threshold).1 := by
  unfold trySearchWithOptions
  dsimp only
  split
  · exact .unread
  · split
    · exact .unread
    · rename_i dim hd
      split
      · exact .unread
      · split
        · exact .unread
        · split
          · split
            · split
              · exact .unread
              · exact .unread
            · exact .unread
          · split
            · exact .refused hd
            · exact .refused hd
            · rename_i cache _ hc
              exact .scanned hd hc

theorem prepared_same (x : TurboQuantIndex) (dim : ℕ) : (x.prepared P T dim).dim = x.dim ∧
    (x.prepared P T dim).nVectors = x.nVectors ∧ (x.prepared P T dim).bitWidth = x.bitWidth := by
  unfold prepared
  dsimp only
  split
  · exact ⟨rfl, rfl, rfl⟩
  · exact ⟨rfl, rfl, rfl⟩

theorem search_members (h : Rep P x rows) (hx : x.Members P S seen) (queries : List F32) (k : ℕ)
    (mask : Option (List Bool)) (threshold : Option F32) :
    Members P S (fun st => seen st ∨ ∃ d, x.dim = some d ∧
        st = (x.trySearchWithOptions P T S queries k mask threshold).1.freshStats P S d)
      (x.trySearchWithOptions P T S queries k mask threshold).1 := by
  have hrep := h.search (T := T) (S := S) queries k mask threshold
  have hsea := searched (P := P) (T := T) (S := S) x queries k mask threshold
  generalize (x.trySearchWithOptions P T S queries k mask threshold).1 = y at hrep hsea ⊢
  cases hsea with
  | unread => exact Carries.members (.same rfl (fun _ hd => hd) rfl rfl rfl rfl) hx fun st => Or.inl
  | refused hd => exact (prepared_carries x _).members hx fun st => Or.inl
  | @scanned dim hd cache hc =>
    obtain ⟨hdim, -, -⟩ := prepared_same (P := P) (T := T) x dim
    have hprep := h.prepared (T := T) hd
    have hmem := derived_members hprep ((prepared_carries x dim).members hx fun st => id)
      (hdim.trans hd) hc
    have hreg := regions_of_rep hprep hrep rfl rfl dim
    refine Carries.members (.same rfl (fun _ hd => hd) rfl rfl rfl rfl) hmem fun st hst => ?_
    rcases hst with hst | hst
    · exact Or.inl hst
    · refine Or.inr ⟨dim, hd, ?_⟩
      unfold freshStats at hst ⊢
      rw [hst, hreg]

/-- What a scan reads of a planes cache depends on its regions and its statistics. -/
theorem planesRef_derived (hx : x.Members P S seen) {dim : ℕ} (hd : x.dim = some dim) {cache : BlockedCache}
    (hc : x.blocked = some cache) (hp : cache.isPlanes = true) (x' : TurboQuantIndex)
    (hscales : x'.scales = x.scales) (hn : x'.nVectors = x.nVectors) (hbits : x'.bitWidth = x.bitWidth)
    (hcent : x'.centroids = x.centroids) (hshift : x'.tqplusShift = x.tqplusShift)
    (hscale : x'.tqplusScale = x.tqplusScale) :
    x'.planesRef (x'.derived P S dim { cache with sample := none, centre := none }) =
      x.planesRef (x.derived P S dim cache) := by
  have hp' : BlockedCache.isPlanes { cache with sample := none, centre := none } = true := hp
  unfold planesRef
  rw [derived_planes, derived_planes, hp, hp']
  unfold derived
  rw [if_pos hp, if_pos hp', hscales, hn, hbits, hcent, hshift, hscale]
  dsimp only
  have hsample : cache.sample.getD (planesSample cache.data x.scales x.nVectors (dim / 8)) =
      planesSample cache.data x.scales x.nVectors (dim / 8) := by
    cases hs : cache.sample with
    | none => rfl
    | some s => exact (hx.sample dim cache s hd hc hs).2
  rw [hsample, Option.getD_none, Option.getD_none]
  split
  · rfl
  · cases hw : cache.centre with
    | none => rfl
    | some w =>
      obtain ⟨-, st, hst, hw'⟩ := hx.centre dim cache w hd hc hw
      rw [hst, Option.getD_some, Option.getD_some, hw']
      rfl

/-- A search answers as on the rebuilt cache with the same statistics. -/
theorem search_rebuilt (h : Rep P x rows) (hx : x.Members P S seen) {dim : ℕ} (hd : x.dim = some dim)
    {cache : BlockedCache} (hc : x.blocked = some cache) (hp : cache.isPlanes = true) (queries : List F32)
    (k : ℕ) (mask : Option (List Bool)) (threshold : Option F32) :
    ((x.rebuilt P dim cache).trySearchWithOptions P T S queries k mask threshold).2 =
      (x.trySearchWithOptions P T S queries k mask threshold).2 := by
  have hre : x.rebuilt P dim cache = { x with
      blocked := some { cache with sample := none, centre := none } } := by
    unfold rebuilt
    rw [regions_eq h hd hc hp]
  have hprep : x.prepared P T dim = { x with
      rotation := some (x.rotation.getD dim)
      centroids := some (x.centroids.getD (T.codebook x.bitWidth dim).2) } := by
    unfold prepared
    dsimp only
    rw [hc]
  have hprep' : (x.rebuilt P dim cache).prepared P T dim = { x with
      blocked := some { cache with sample := none, centre := none }
      rotation := some (x.rotation.getD dim)
      centroids := some (x.centroids.getD (T.codebook x.bitWidth dim).2) } := by
    rw [hre]
    rfl
  have hmem : Members P S seen { x with
      rotation := some (x.rotation.getD dim)
      centroids := some (x.centroids.getD (T.codebook x.bitWidth dim).2) } :=
    Carries.members (x := x) (.same rfl (fun _ hd => hd) rfl rfl rfl rfl) hx fun st => id
  have href := planesRef_derived hmem hd hc hp { x with
      blocked := some { cache with sample := none, centre := none }
      rotation := some (x.rotation.getD dim)
      centroids := some (x.centroids.getD (T.codebook x.bitWidth dim).2) } rfl rfl rfl rfl rfl rfl
  have hkeep : ∀ (y : TurboQuantIndex) (c : BlockedCache), (y.derived P S dim c).data = c.data ∧
      (y.derived P S dim c).nBlocks = c.nBlocks := by
    intro y c
    unfold derived
    split
    · exact ⟨rfl, rfl⟩
    · exact ⟨rfl, rfl⟩
  unfold trySearchWithOptions
  dsimp only
  split
  · rfl
  · rw [hd, show (x.rebuilt P dim cache).dim = some dim from hd]
    dsimp only
    split
    · rfl
    · cases firstInvalidCoord queries dim with
      | some e => rfl
      | none =>
        dsimp only
        rw [show (x.rebuilt P dim cache).nVectors = x.nVectors from rfl]
        split
        · split
          · split
            · rfl
            · rfl
          · rfl
        · rw [hprep, hprep']
          dsimp only
          rw [hc]
          cases (mask.map List.length).filter (· ≠ x.nVectors) with
          | some got => rfl
          | none =>
            dsimp only
            rw [(hkeep _ _).1, (hkeep _ _).1, (hkeep _ _).2, (hkeep _ _).2]
            have hscan : ∀ {p p' : Option PlanesRef}, p = p' → S.search ⟨queries, queries.length / dim,
                x.rotation.getD dim, cache.data, x.centroids.getD (T.codebook x.bitWidth dim).2, x.scales,
                x.tqplusShift, x.tqplusScale, x.bitWidth, dim, x.nVectors, cache.nBlocks, k,
                (mask.map packMask).map Prod.fst, p, threshold.getD F32.NEG_INFINITY⟩ =
                S.search ⟨queries, queries.length / dim, x.rotation.getD dim, cache.data,
                x.centroids.getD (T.codebook x.bitWidth dim).2, x.scales, x.tqplusShift, x.tqplusScale,
                x.bitWidth, dim, x.nVectors, cache.nBlocks, k, (mask.map packMask).map Prod.fst, p',
                threshold.getD F32.NEG_INFINITY⟩ := by
              intro p p' hpp
              rw [hpp]
            have hres := hscan href
            exact congrArg (fun r => some (Except.ok (SearchResults.mk r.1 r.2 (queries.length / dim)
              (min (min k x.nVectors) (((mask.map packMask).map Prod.snd).getD x.nVectors))))) hres

/-! ## Runs -/

theorem exists_rep_opened (h : Opened P T x) : ∃ rows, Rep P x rows := by
  cases h with
  | new h => exact ⟨_, Rep.new h⟩
  | newLazy h => exact ⟨_, Rep.newLazy h⟩
  | fromParts h => exact ⟨_, Rep.fromParts h⟩
  | load h =>
    rw [TurboQuantIndex.load] at h
    split at h
    · rw [bind_eq_ok] at h
      obtain ⟨l, hl, h⟩ := h
      cases h
      exact ⟨_, rep_fromV7 (stored_of_loadImage hl) _⟩
    · cases h
  | fromBytes h =>
    rw [TurboQuantIndex.fromBytes, bind_eq_ok] at h
    obtain ⟨l, hl, h⟩ := h
    cases h
    exact ⟨_, rep_fromV7 (stored_of_loadImage hl) _⟩

/-- A new index has no derived members. -/
theorem opened_members (h : Opened P T x) : x.Members P S seen := by
  have hcold : ∀ cache, x.blocked = some cache →
      cache.sample = none ∧ cache.centre = none ∧ cache.stats = none := by
    intro cache hc
    have hload : ∀ {l : V7Load} {path : Option String}, x = fromV7 P T l path →
        cache.sample = none ∧ cache.centre = none ∧ cache.stats = none := by
      intro l path hx
      rw [hx] at hc
      change (if decide (l.nVectors ≠ 0) = true then some (cacheOfV7 P l) else none) = some cache at hc
      split at hc
      · rw [← Option.some.inj hc]
        exact ⟨rfl, rfl, rfl⟩
      · cases hc
    cases h with
    | new h =>
      unfold TurboQuantIndex.new at h
      split at h
      · cases h
      · split at h
        · cases h
        · split at h
          · cases h
          · cases h
            cases hc
    | newLazy h =>
      unfold TurboQuantIndex.newLazy at h
      split at h
      · cases h
      · cases h
        cases hc
    | fromParts h =>
      unfold TurboQuantIndex.fromParts at h
      rw [bind_eq_ok] at h
      obtain ⟨-, -, h⟩ := h
      rw [bind_eq_ok] at h
      obtain ⟨-, -, h⟩ := h
      cases h
      cases hc
    | load h =>
      rw [TurboQuantIndex.load] at h
      split at h
      · rw [bind_eq_ok] at h
        obtain ⟨l, hl, h⟩ := h
        exact hload (Except.ok.inj h).symm
      · cases h
    | fromBytes h =>
      rw [TurboQuantIndex.fromBytes, bind_eq_ok] at h
      obtain ⟨l, hl, h⟩ := h
      exact hload (Except.ok.inj h).symm
  constructor
  · intro d cache s hd hc hs
    rw [(hcold cache hc).1] at hs
    cases hs
  · intro d cache w hd hc hw
    rw [(hcold cache hc).2.1] at hw
    cases hw
  · intro cache st hc hst
    rw [(hcold cache hc).2.2] at hst
    cases hst

theorem exists_rep_after (hK : K.Sized) (h : Rep P x rows) {c : Call} (hg : c.Guarded) :
    ∃ rows', Rep P (x.after P T K S c) rows' := by
  cases c with
  | add vectors dim fault => exact ⟨_, h.add2d hK vectors dim hg⟩
  | calibrate sample dim fault => exact ⟨_, h.calibrate2d hK sample dim fault⟩
  | swapRemove idx =>
    dsimp only [after]
    by_cases hidx : idx < x.nVectors
    · obtain ⟨x', hx', hrep⟩ := h.swapRemove hidx
      rw [hx']
      exact ⟨_, hrep⟩
    · unfold swapRemove
      rw [guard, if_neg hidx]
      exact ⟨_, h⟩
  | search queries k mask threshold => exact ⟨_, h.search queries k mask threshold⟩
  | packedCodes => exact ⟨_, h.materialize⟩
  | prepare => exact ⟨_, h.prepare⟩
  | sync path disk => exact ⟨_, h.sync path disk⟩

/-- A call keeps the members current; statistics it adds are those of the rows it leaves. -/
theorem after_members (h : Rep P x rows) (hx : x.Members P S seen) {c : Call} (hg : c.Guarded) :
    Members P S (fun st => seen st ∨ ∃ d, (x.after P T K S c).dim = some d ∧
      st = (x.after P T K S c).freshStats P S d) (x.after P T K S c) := by
  have hinl : ∀ st, seen st → seen st ∨ ∃ d, (x.after P T K S c).dim = some d ∧
      st = (x.after P T K S c).freshStats P S d := fun st => Or.inl
  cases c with
  | add vectors dim fault => exact (add2d_carries h vectors dim hg).members hx hinl
  | calibrate sample dim fault => exact (calibrate2d_carries h hx sample dim fault).members hx hinl
  | swapRemove idx => exact (swapRemove_carries h idx).members hx hinl
  | search queries k mask threshold =>
    have hdim : ∀ d, x.dim = some d →
        (x.trySearchWithOptions P T S queries k mask threshold).1.dim = some d :=
      (search_counted x queries k mask threshold).dim
    refine Carries.members (.same rfl (fun _ hd => hd) rfl rfl rfl rfl)
      (search_members h hx queries k mask threshold) fun st hst => ?_
    rcases hst with hst | ⟨d, hd, hst⟩
    · exact Or.inl hst
    · exact Or.inr ⟨d, hdim d hd, hst⟩
  | packedCodes => exact Carries.members (x := x) (.same rfl (fun _ hd => hd) rfl rfl rfl rfl) hx hinl
  | prepare => exact (prepare_carries x).members hx hinl
  | sync path disk => exact (sync_carries x path disk).members hx hinl

/-- In every run the members are current, and the statistics are of the rows of some state of the run. -/
theorem run_members (hK : K.Sized) (h : Opened P T x) (calls : List Call) (hg : ∀ c ∈ calls, c.Guarded) :
    (∃ rows, Rep P (x.run P T K S calls) rows) ∧
      Members P S (fun st => ∃ m ≤ calls.length, ∃ d, (x.run P T K S (calls.take m)).dim = some d ∧
        st = (x.run P T K S (calls.take m)).freshStats P S d) (x.run P T K S calls) := by
  induction calls using List.reverseRecOn with
  | nil => exact ⟨exists_rep_opened h, opened_members h⟩
  | append_singleton calls c ih =>
    obtain ⟨⟨rows, hrep⟩, hmem⟩ := ih fun c' hc' => hg c' (List.mem_append_left _ hc')
    have hc : c.Guarded := hg c (List.mem_append_right _ (List.mem_singleton_self c))
    have hrun : x.run P T K S (calls ++ [c]) = (x.run P T K S calls).after P T K S c := by
      rw [run, List.foldl_append]
      rfl
    refine ⟨?_, ?_⟩
    · rw [hrun]
      exact exists_rep_after hK hrep hc
    · have hafter := after_members (T := T) (K := K) (S := S) hrep hmem hc
      rw [← hrun] at hafter
      refine Carries.members (.same rfl (fun _ hd => hd) rfl rfl rfl rfl) hafter fun st hst => ?_
      rcases hst with ⟨m, hm, hst⟩ | hst
      · refine ⟨m, ?_, ?_⟩
        · rw [List.length_append]
          omega
        · rw [List.take_append_of_le_length hm]
          exact hst
      · refine ⟨(calls ++ [c]).length, le_rfl, ?_⟩
        rw [List.take_length]
        exact hst

/-- In every run, the sample and the centre terms a planes cache holds are those of its present rows, under
its statistics; these are the statistics of the rows some search of the run met; and a search answers as
on the cache rebuilt from the rows, under those statistics. -/
theorem sample_and_centre_current (hK : K.Sized) (h : Opened P T x) (calls : List Call)
    (hg : ∀ c ∈ calls, c.Guarded) {d : ℕ} (hd : (x.run P T K S calls).dim = some d) {cache : BlockedCache}
    (hc : (x.run P T K S calls).blocked = some cache) (hp : cache.isPlanes = true) :
    (∀ s, cache.sample = some s → s = (x.run P T K S calls).freshSample P d) ∧
    (∀ w, cache.centre = some w → ∃ st, cache.stats = some st ∧
      w = (x.run P T K S calls).freshCentre P S d st.m) ∧
    (∀ st, cache.stats = some st → ∃ m ≤ calls.length, ∃ d', (x.run P T K S (calls.take m)).dim = some d' ∧
      st = (x.run P T K S (calls.take m)).freshStats P S d') ∧
    ∀ queries k mask threshold,
      ((x.run P T K S calls).trySearchWithOptions P T S queries k mask threshold).2 =
        (((x.run P T K S calls).rebuilt P d cache).trySearchWithOptions P T S queries k mask threshold).2 := by
  obtain ⟨⟨rows, hrep⟩, hmem⟩ := run_members (S := S) hK h calls hg
  have hreg := regions_eq hrep hd hc hp
  refine ⟨fun s hs => ?_, fun w hw => ?_, fun st hst => hmem.stats cache st hc hst,
    fun queries k mask threshold => ?_⟩
  · unfold freshSample
    rw [hreg]
    exact (hmem.sample d cache s hd hc hs).2
  · obtain ⟨-, st, hst, hw'⟩ := hmem.centre d cache w hd hc hw
    refine ⟨st, hst, ?_⟩
    unfold freshCentre
    rw [hreg]
    exact hw'
  · exact (search_rebuilt hrep hmem hd hc hp queries k mask threshold).symm

end

/-! ## A set of statistics that outlives its rows -/

section

variable {P : Platform} {S : ScanKernels} {x x' : TurboQuantIndex} {rows : List (List UInt8)}

variable (P S) in
/-- Every derived member of a planes cache is the one computed afresh. -/
def Current (x : TurboQuantIndex) : Prop :=
  ∀ d cache, x.dim = some d → x.blocked = some cache → cache.isPlanes = true →
    (∀ st, cache.stats = some st → st = x.freshStats P S d) ∧
    (∀ s, cache.sample = some s → s = x.freshSample P d) ∧
    ∀ w, cache.centre = some w → w = x.freshCentre P S d (x.freshStats P S d).m

/-- How many codes of a two-bit packed row are on an outer level. -/
def outerCodes (dim : ℕ) (row : List UInt8) : ℕ :=
  ((List.range (dim / 8)).map fun g =>
    countOnes (~~~(entry (signPart 2 dim row) g ^^^ entry (lowPart 2 dim row) g))).sum

theorem planesOuterCount_eq {dim n : ℕ} {f : ℕ → List UInt8} {sign low : List UInt8}
    (hfor : planesFor P 2 (dim / codesPerByte 2) = true) (hd : dim % 8 = 0)
    (hf : ∀ v < n, (f v).length = 2 * (dim / 8)) (h : PlanesHold P 2 dim n f sign low) :
    planesOuterCount P sign low n (dim / codesPerByte 2) =
      (((List.range (min n (STATS_BLOCKS * BLOCK))).map fun v => outerCodes dim (f v)).sum,
        min n (STATS_BLOCKS * BLOCK) * (dim / 8) * 8) := by
  have hb := planesBits_of_planesFor hfor
  have hnsg : dim / codesPerByte 2 / 2 = dim / 8 := by
    simp only [codesPerByte]
    omega
  unfold planesOuterCount outerCodes
  dsimp only
  rw [hnsg]
  congr 2
  refine List.map_congr_left fun v hv => ?_
  have hv : v < n := by
    have := List.mem_range.mp hv
    omega
  congr 1
  refine List.map_congr_left fun g hg => ?_
  have hg := List.mem_range.mp hg
  have hrow := h.low_row hb hf hv
  rw [Nat.one_mul] at hrow
  rw [h.entry_sign hfor hd hv hg, ← hrow, entry_rowAt _ hg]

/-- Two-bit statistics of stored rows: those of how many codes of the first blocks are outer. -/
theorem freshStats_two (h : Rep P x rows) {dim : ℕ} (hd : x.dim = some dim) (hbits : x.bitWidth = 2)
    {cache : BlockedCache} (hc : x.blocked = some cache) (hp : cache.isPlanes = true) :
    x.freshStats P S dim = S.outer (x.centroids.getD [])
      ((List.range (min x.nVectors (STATS_BLOCKS * BLOCK))).map fun v => outerCodes dim (rows.getD v [])).sum
      (min x.nVectors (STATS_BLOCKS * BLOCK) * (dim / 8) * 8) := by
  obtain ⟨d, hd', hold⟩ := h.cache cache hc
  rw [hd, Option.some.injEq] at hd'
  subst hd'
  rw [hbits] at hold
  obtain ⟨hfor, hplanes⟩ := hold.regions.planes (isPlanes_eq_true.mp hp)
  have hcount := planesOuterCount_eq hfor (h.dims dim hd).1 hold.regions.width hplanes
  unfold freshStats planesStats
  rw [regions_eq h hd hc hp, hbits, if_pos rfl]
  dsimp only
  rw [hcount]

/-- A planes cache that keeps a row is a planes cache. -/
theorem removeRow_isPlanes {bits dim n idx : ℕ} {f : ℕ → List UInt8} {cache : BlockedCache}
    (hd : dim % 8 = 0) (hpos : 8 ≤ dim) (h : CacheHolds P bits dim (n + 1) f cache)
    (hp : cache.isPlanes = true) (hidx : idx ≤ n) (hn : 0 < n) :
    (cache.removeRow P idx n bits dim).isPlanes = true := by
  obtain ⟨hfor, hold⟩ := h.regions.planes (isPlanes_eq_true.mp hp)
  have hbits := planesBits_of_planesFor hfor
  have hnew := planesHold_swapRemove hbits hd hold h.regions.width hidx
  have hw : ∀ v < n, (if v = idx then f n else f v).length = bits * (dim / 8) := by
    intro v hv
    split
    · exact h.regions.width n (by omega)
    · exact h.regions.width v (by omega)
  have hlow := hnew.length_low hbits hw
  have hlen : 0 < n * ((bits - 1) * (dim / 8)) := by
    have : 0 < bits - 1 := by
      simp only [PlanesBits] at hbits
      omega
    exact Nat.mul_pos hn (Nat.mul_pos this (by omega))
  rw [isPlanes_eq_true]
  intro hnil
  unfold BlockedCache.removeRow at hnil
  have hsame : BlockedCache.isPlanes { cache with sample := none, centre := none } = cache.isPlanes := rfl
  dsimp only at hnil
  rw [hsame, if_pos hp, blockedGeometry_eq] at hnil
  dsimp only at hnil
  rw [planesGeom_eq hbits hd] at hnil
  dsimp only at hnil
  split at hnil
  · rename_i hne
    rw [if_pos hne] at hlow
    rw [hnil, List.length_nil] at hlow
    omega
  · rename_i hne
    rw [if_neg hne] at hlow
    rw [hnil, List.length_nil] at hlow
    omega

end

/-- A host that searches large two-bit indexes sign plane first. -/
def planesHost : Platform := ⟨.x86_64, true, false, false, false, true, true⟩

/-- The levels -3, -1, 1, 3. -/
def fourLevels : Tables where
  codebook _ _ := ([⟨0xC0000000⟩, 0, ⟨0x40000000⟩], [⟨0xC0400000⟩, ⟨0xBF800000⟩, 1, ⟨0x40400000⟩])
  bounds := ⟨fun _ => 0, fun _ => 0⟩

/-- A scan whose statistics are those of `fourLevels`: mean magnitude 1 with no code on an outer level, and
`1 + 2^-10` with the 32 codes of one row of 2048. -/
def levelScan : ScanKernels :=
  { zeroScan with
    outer := fun _ outer _ => ⟨if outer = 0 then 1 else ⟨0x3F802000⟩, ⟨0x40000000⟩, [1, 0, 0], ⟨0x40000000⟩, 1⟩ }

/-- A row of outer codes, and 32767 rows of inner ones. -/
def levelRows : List (List UInt8) :=
  List.replicate 8 0 :: List.replicate 32767 [255, 255, 255, 255, 0, 0, 0, 0]

def levelIndex : TurboQuantIndex :=
  { empty (some 32) 2 with
    nVectors := 32768, packedCodes := some levelRows.flatten, scales := List.replicate 32768 1 }

theorem levelRows_length : levelRows.length = 32768 := by
  rw [levelRows, List.length_cons, List.length_replicate]

theorem levelRows_width : ∀ r ∈ levelRows, r.length = 8 := by
  intro r hr
  rcases List.mem_cons.mp hr with rfl | hr
  · exact List.length_replicate
  · rw [List.eq_of_mem_replicate hr]
    rfl

theorem levelIndex_opened : Opened planesHost fourLevels levelIndex := by
  have hlen : levelRows.flatten.length = 32 / 8 * 2 * 32768 := by
    rw [length_flatten_rows levelRows_width, levelRows_length]
  have hscales : (List.replicate 32768 (1 : F32)).findIdx? (fun s => !validScale s) = none := by
    rw [List.findIdx?_eq_none_iff]
    intro s hs
    rw [List.eq_of_mem_replicate hs]
    decide
  refine @Opened.fromParts planesHost fourLevels levelIndex (some 32) 2 32768 levelRows.flatten
    (List.replicate 32768 1) [] [] ?_
  unfold TurboQuantIndex.fromParts checkLengths checkValues
  rw [hlen, hscales, List.length_replicate]
  rfl

theorem levelIndex_rep : Rep planesHost levelIndex levelRows where
  bits := Rep.validBits (by decide)
  dims d hd := by
    rw [← Option.some.inj hd]
    decide
  dimmed _ := rfl
  len := levelRows_length
  width d hd := by
    rw [← Option.some.inj hd]
    exact levelRows_width
  scales := List.length_replicate
  packed p hp := (Option.some.inj hp).symm
  cache c hc := by cases hc
  live _ := Or.inl rfl

/-- The two calls: a search, and the removal of the first row. -/
def levelCalls : List Call := [.search (List.replicate 32 0) 1 none none, .swapRemove 0]

theorem levelIndex_built : (BlockedCache.build planesHost (levelIndex.packed planesHost) 32768 2 32).isPlanes =
    true := by
  have hlen : (levelIndex.packed planesHost).length = 32768 * (2 * (32 / 8)) := by
    rw [levelIndex_rep.packed_eq, length_flatten_rows levelRows_width, levelRows_length]
  have hold := planesHold_repack (P := planesHost) (show PlanesBits 2 from Or.inl rfl) (show 32 % 8 = 0 from rfl)
    (by decide) hlen
  have hlow := hold.length_low (Or.inl rfl) fun v hv => length_rowAt hlen hv
  have hwant : planesWanted planesHost 2 (32 / codesPerByte 2) 32768 = true := by decide
  rw [isPlanes_eq_true]
  intro hnil
  unfold BlockedCache.build at hnil
  rw [if_pos hwant] at hnil
  dsimp only at hnil
  rw [hnil] at hlow
  cases hlow

/-- The search keeps a planes cache with statistics of the 32768 rows. -/
theorem levelIndex_searched : ∃ x cache st,
    levelIndex.run planesHost fourLevels zeroKernels levelScan (levelCalls.take 1) = x ∧
      Rep planesHost x levelRows ∧ x.dim = some 32 ∧ x.bitWidth = 2 ∧ x.nVectors = 32768 ∧
      x.blocked = some cache ∧ cache.isPlanes = true ∧ cache.stats = some st ∧
      st = x.freshStats planesHost levelScan 32 := by
  have hrep := levelIndex_rep.search (T := fourLevels) (S := levelScan) (List.replicate 32 0) 1 none none
  have hstate : (levelIndex.trySearchWithOptions planesHost fourLevels levelScan (List.replicate 32 0) 1 none
      none).1 = { levelIndex.prepared planesHost fourLevels 32 with
        blocked := some ((levelIndex.prepared planesHost fourLevels 32).derived planesHost levelScan 32
          (BlockedCache.build planesHost (levelIndex.packed planesHost) 32768 2 32)) } := by
    have hcoords : firstInvalidCoord (List.replicate 32 0) 32 = none := by decide
    have hnan : (F32.NEG_INFINITY).isNaN = false := by decide
    unfold trySearchWithOptions
    dsimp only [Option.getD_none]
    rw [hnan, if_neg Bool.false_ne_true, show levelIndex.dim = some 32 from rfl]
    dsimp only
    rw [if_neg (by decide), hcoords]
    dsimp only
    rw [if_neg (by decide)]
    rfl
  obtain ⟨-, -, hstats⟩ := build_members (P := planesHost) (levelIndex.packed planesHost) 32768 2 32
  have hbuilt := levelIndex_built
  generalize hcache : BlockedCache.build planesHost (levelIndex.packed planesHost) 32768 2 32 = cache
    at hstate hstats hbuilt
  have hplanes := (derived_planes (P := planesHost) (S := levelScan)
    (levelIndex.prepared planesHost fourLevels 32) 32 cache).trans hbuilt
  have hdim : (levelIndex.trySearchWithOptions planesHost fourLevels levelScan (List.replicate 32 0) 1 none
      none).1.dim = some 32 := by
    rw [hstate]
    rfl
  have hblocked : (levelIndex.trySearchWithOptions planesHost fourLevels levelScan (List.replicate 32 0) 1 none
      none).1.blocked =
      some ((levelIndex.prepared planesHost fourLevels 32).derived planesHost levelScan 32 cache) := by
    rw [hstate]
  have hreg := regions_eq hrep hdim hblocked hplanes
  refine ⟨_, (levelIndex.prepared planesHost fourLevels 32).derived planesHost levelScan 32 cache, _, rfl,
    hrep, ?_, ?_, ?_, ?_, hplanes, ?_, rfl⟩
  · change (levelIndex.trySearchWithOptions planesHost fourLevels levelScan (List.replicate 32 0) 1 none
      none).1.dim = some 32
    rw [hstate]
    rfl
  · change (levelIndex.trySearchWithOptions planesHost fourLevels levelScan (List.replicate 32 0) 1 none
      none).1.bitWidth = 2
    rw [hstate]
    rfl
  · change (levelIndex.trySearchWithOptions planesHost fourLevels levelScan (List.replicate 32 0) 1 none
      none).1.nVectors = 32768
    rw [hstate]
    rfl
  · change (levelIndex.trySearchWithOptions planesHost fourLevels levelScan (List.replicate 32 0) 1 none
      none).1.blocked = _
    rw [hstate]
  · change _ = some ((levelIndex.trySearchWithOptions planesHost fourLevels levelScan (List.replicate 32 0) 1
      none none).1.freshStats planesHost levelScan 32)
    unfold freshStats
    rw [hreg, hstate]
    unfold derived
    rw [if_pos hbuilt]
    dsimp only
    rw [hstats]
    rfl

/-- The members the first search leaves are those of the rows. -/
theorem levelIndex_members : ∃ cache,
    (levelIndex.run planesHost fourLevels zeroKernels levelScan (levelCalls.take 1)).blocked = some cache ∧
      ∀ s, cache.sample = some s → s =
        (levelIndex.run planesHost fourLevels zeroKernels levelScan (levelCalls.take 1)).freshSample
          planesHost 32 := by
  obtain ⟨x, cache, st, rfl, hrep, hd, hbits, hn, hc, hp, hst, hfresh⟩ := levelIndex_searched
  have hg : ∀ c ∈ levelCalls.take 1, c.Guarded := by simp [levelCalls, Call.Guarded]
  exact ⟨cache, hc, (sample_and_centre_current zeroKernels_sized levelIndex_opened _ hg hd hc hp).1⟩

theorem levelRows_getD (v : ℕ) (hv : 0 < v) (hlt : v < 32768) :
    levelRows.getD v [] = [255, 255, 255, 255, 0, 0, 0, 0] := by
  obtain ⟨w, rfl⟩ : ∃ w, v = w + 1 := ⟨v - 1, by omega⟩
  rw [levelRows, List.getD_cons_succ, List.getD_eq_getElem?_getD, List.getElem?_replicate, if_pos (by omega)]
  rfl

/-- After the removal the members are not those of the rows: the statistics are of the removed row too. -/
theorem not_members_current : Opened planesHost fourLevels levelIndex ∧ (∀ c ∈ levelCalls, c.Guarded) ∧
    ¬(levelIndex.run planesHost fourLevels zeroKernels levelScan levelCalls).Current planesHost levelScan := by
  refine ⟨levelIndex_opened, by simp [levelCalls, Call.Guarded], fun hcur => ?_⟩
  obtain ⟨x, cache, st, hx, hrep, hd, hbits, hn, hc, hp, hst, hfresh⟩ := levelIndex_searched
  have hrun : levelIndex.run planesHost fourLevels zeroKernels levelScan levelCalls =
      ((x.swapRemove planesHost 0).map Prod.fst).getD x := by
    rw [← hx]
    rfl
  have h0 : 0 < x.nVectors := by omega
  obtain ⟨x', hx', hrep'⟩ := hrep.swapRemove h0
  rw [hx', Option.map_some, Option.getD_some] at hrun
  rw [hrun] at hcur
  obtain ⟨x'', hx'', hcount⟩ := swapRemove_some (P := planesHost) x h0 hd
  rw [hx', Option.some.injEq, Prod.mk.injEq] at hx''
  rw [← hx''.1, hn] at hcount
  have hb := swapRemove_blocked (by omega) hd hx'
  rw [hc, Option.map_some, hn, hbits] at hb
  obtain ⟨d, hd', hold⟩ := hrep.cache cache hc
  rw [hd, Option.some.injEq] at hd'
  rw [← hd', hbits, hn] at hold
  have hp' := removeRow_isPlanes (n := 32767) rfl (by decide) hold hp (Nat.zero_le _) (by decide)
  obtain ⟨hstale, -, -⟩ := hcur 32 _ (hcount.dim 32 hd) hb hp'
  obtain ⟨-, -, hkept⟩ := removeRow_members (P := planesHost) cache 0 32767 2 32
  have heq := hstale st (hkept.trans hst)
  rw [hfresh, freshStats_two hrep hd hbits hc hp,
    freshStats_two hrep' (hcount.dim 32 hd) (hcount.bits.trans hbits) hb hp', hn, hcount.rows] at heq
  have hm := congrArg PlanesStats.m heq
  -- the first row is among the counted ones
  have hone : ((List.range (min 32768 (STATS_BLOCKS * BLOCK))).map fun v =>
      outerCodes 32 (levelRows.getD v [])).sum ≠ 0 := by
    intro hsum
    have hzero := List.sum_eq_zero_iff_forall_eq_nat.mp hsum (outerCodes 32 (levelRows.getD 0 []))
      (List.mem_map.mpr ⟨0, List.mem_range.mpr (by decide), rfl⟩)
    exact absurd hzero (by decide)
  have hnone : ((List.range (min (32768 - 1) (STATS_BLOCKS * BLOCK))).map fun v =>
      outerCodes 32 ((SlotMap.swapRemove levelRows 0).getD v [])).sum = 0 := by
    rw [List.sum_eq_zero_iff_forall_eq_nat]
    intro c hmem
    obtain ⟨v, hv, rfl⟩ := List.mem_map.mp hmem
    have hv : v < 2048 := List.mem_range.mp hv
    rw [List.getD_eq_getElem?_getD, SlotMap.getElem?_swapRemove (by rw [levelRows_length]; decide),
      levelRows_length, if_pos (by omega)]
    split
    · rw [← List.getD_eq_getElem?_getD, levelRows_getD _ (by decide) (by decide)]
      rfl
    · rename_i hne
      rw [← List.getD_eq_getElem?_getD, levelRows_getD v (by omega) (by omega)]
      rfl
  unfold levelScan at hm
  dsimp only at hm
  rw [if_neg hone, if_pos hnone] at hm
  exact absurd hm (by decide)

end TurboQuantIndex

/-! ## A block that grows -/

/-- A search's preparation, then a row added to the cache alone. -/
def growBlock : List TurboQuantIndex.Call := [.prepare, .add (List.replicate 8 0) 8 none]

def grownBlock : TurboQuantIndex := wholeRows.run plainHost levelTables zeroKernels zeroScan growBlock

theorem growBlock_guarded : ∀ c ∈ growBlock, c.Guarded := by
  simp [growBlock, TurboQuantIndex.Call.Guarded]

theorem grownBlock_dropped : grownBlock.packedCodes = none ∧ grownBlock.nVectors = 33 := by
  decide +kernel

end Turbovec
