import Turbovec.Index.Image

/-!
# Code bytes without stray bits

A 3-bit code lies in a 4-bit field. The packed rows have no room for the bit no code uses, so a cache built
from them never has it; an image may bring it into the cache, where it stays until the row's block is
rebuilt. A *clean* cache is free of it, and every call keeps a cache clean: a row's sequential code bytes are
then those of its packed row, whichever layout is live.
-/

namespace Turbovec

open Pack IoV7 Slice Grid

/-- No code byte of the cache has a bit outside its fields. -/
def BlockedCache.Clean (P : Platform) (cache : BlockedCache) (bits dim n : ℕ) : Prop :=
  cache.isPlanes = false → ∀ v < n, ∀ g < dim / codesPerByte bits,
    clearStray bits (laneCode P cache.data bits (dim / codesPerByte bits) v g) =
      laneCode P cache.data bits (dim / codesPerByte bits) v g

/-- No code byte of the image has a bit outside its fields. -/
def IoV7.V7Load.Clean (l : V7Load) : Prop :=
  l.layout ≠ LAYOUT_PLANES → ∀ v < l.nVectors, ∀ b ∈ seqRowAt l.seqBlocked
    (l.dim / codesPerByte l.bitWidth) v, clearStray l.bitWidth b = b

/-- No code byte of the index has a bit outside its fields. -/
def TurboQuantIndex.Clean (P : Platform) (x : TurboQuantIndex) : Prop :=
  ∀ d cache, x.dim = some d → x.blocked = some cache → cache.Clean P x.bitWidth d x.nVectors

/-! ## The cache -/

section Cache

variable {P : Platform} {bits dim n : ℕ} {f : ℕ → List UInt8} {cache : BlockedCache}

/-- At 2 and 4 bits the fields are full. -/
theorem clean_of_ne_three (hb : bits ≠ 3) : cache.Clean P bits dim n :=
  fun _ _ _ _ _ => clearStray_eq_self hb _

theorem clean_of_lanes {code : ℕ → ℕ → UInt8}
    (h : LanesHold P bits (dim / codesPerByte bits) n code cache.data)
    (hcode : ∀ v < n, ∀ g < dim / codesPerByte bits, clearStray bits (code v g) = code v g) :
    cache.Clean P bits dim n := by
  intro _ v hv g hg
  rw [h.code v g hg, if_pos hv]
  exact hcode v hv g hg

/-- What a clean cache says of the code bytes it holds. -/
theorem BlockedCache.Clean.codes {code : ℕ → ℕ → UInt8} (hc : cache.Clean P bits dim n)
    (hp : cache.isPlanes = false) (h : LanesHold P bits (dim / codesPerByte bits) n code cache.data) :
    ∀ v < n, ∀ g < dim / codesPerByte bits, clearStray bits (code v g) = code v g := by
  intro v hv g hg
  have := hc hp v hv g hg
  rwa [h.code v g hg, if_pos hv] at this

/-- An extracted row has no stray bit. -/
theorem clearStray_entry_extractRow (hb : ValidBits bits) (row : List UInt8) {g : ℕ}
    (hg : g < dim / codesPerByte bits) :
    clearStray bits (entry (extractRow bits dim row) g) = entry (extractRow bits dim row) g := by
  rw [entry_extractRow row hg]
  exact clearStray_extractByte hb _ _ _

/-- There are no planes of 3-bit codes. -/
theorem planesWanted_three (nbg n : ℕ) : planesWanted P 3 nbg n = false := by
  cases hw : planesWanted P 3 nbg n with
  | false => rfl
  | true =>
    simp only [planesWanted, Bool.and_eq_true] at hw
    have := planesBits_of_planesFor hw.2
    simp only [PlanesBits] at this
    omega

theorem promoteIfDue_three (cache : BlockedCache) (n nbg : ℕ) :
    cache.promoteIfDue P n 3 nbg = cache := by
  unfold BlockedCache.promoteIfDue
  rw [planesWanted_three, Bool.not_false, Bool.or_true, if_pos rfl]

/-- A 3-bit cache holds its rows as lanes. -/
theorem CacheHolds.lanes_three (h : CacheHolds P 3 dim n f cache) : cache.isPlanes = false ∧
    ∃ code, LanesHold P 3 (dim / codesPerByte 3) n code cache.data := by
  have hp : cache.isPlanes = false := by
    cases hp : cache.isPlanes with
    | false => rfl
    | true =>
      have := planesBits_of_planesFor (h.regions.planes (isPlanes_eq_true.mp hp)).1
      simp only [PlanesBits] at this
      omega
  obtain ⟨code, hl, -⟩ := h.regions.classic (isPlanes_eq_false.mp hp)
  exact ⟨hp, code, hl⟩

variable (hb : ValidBits bits) (hd : dim % 8 = 0)

include hb hd

theorem clean_build (packed : List UInt8) : (BlockedCache.build P packed n bits dim).Clean P bits dim n := by
  by_cases h3 : bits = 3
  · subst h3
    unfold BlockedCache.build
    rw [planesWanted_three, if_neg Bool.false_ne_true]
    apply clean_of_lanes (lanesHold_repack hb hd packed)
    intro v _ g hg
    exact clearStray_entry_extractRow hb _ hg
  · exact clean_of_ne_three h3

theorem CacheHolds.clean_appendRows (h : CacheHolds P bits dim n f cache) (hc : cache.Clean P bits dim n)
    (packedRows : List UInt8) (k : ℕ) :
    (cache.appendRows P packedRows n k bits dim).Clean P bits dim (n + k) := by
  by_cases h3 : bits = 3
  · subst h3
    obtain ⟨hp, code, hl⟩ := h.lanes_three
    have hp' : BlockedCache.isPlanes { cache with sample := none, centre := none } = false := hp
    unfold BlockedCache.appendRows
    dsimp only
    rw [hp', if_neg Bool.false_ne_true, promoteIfDue_three]
    apply clean_of_lanes (lanesHold_appendLanes hb hd hl packedRows)
    intro v _ g hg
    split
    · rename_i hv
      exact hc.codes hp hl v hv g hg
    · exact clearStray_entry_extractRow hb _ hg
  · exact clean_of_ne_three h3

omit hb hd in
/-- Blocks kept below the first rebuilt one, rebuilt ones above: at 3 bits both are lanes. -/
theorem patch_three {packed : List UInt8} {m : ℕ} (hp : cache.isPlanes = false) :
    (cache.patch P packed n m 3 dim).data =
      cache.data.take (n / BLOCK * (dim / codesPerByte 3 * 32)) ++
        repackBlockRange P packed m 3 dim (n / BLOCK) ((m + 31) / 32) := by
  unfold BlockedCache.patch
  dsimp only
  rw [blockedGeometry_eq]
  simp only [hp, Bool.false_eq_true, if_false, promoteIfDue_three]
  rfl

theorem CacheHolds.clean_patch {packed : List UInt8} {m : ℕ} (h : CacheHolds P bits dim n f cache)
    (hc : cache.Clean P bits dim n) (hm : n ≤ m) :
    (cache.patch P packed n m bits dim).Clean P bits dim m := by
  by_cases h3 : bits = 3
  · subst h3
    obtain ⟨hp, code, hl⟩ := h.lanes_three
    have hbelow : ∀ v, v < n / BLOCK * 32 → v < n := by
      intro v hv
      simp only [BLOCK] at hv
      omega
    have hl' := lanesHold_patch hb hd hl packed hm
    rw [← patch_three hp] at hl'
    apply clean_of_lanes hl'
    intro v _ g hg
    split
    · rename_i hv
      exact hc.codes hp hl v (hbelow v hv) g hg
    · exact clearStray_entry_extractRow hb _ hg
  · exact clean_of_ne_three h3

omit hb hd in
theorem CacheHolds.clean_removeRow {idx : ℕ} (h : CacheHolds P bits dim (n + 1) f cache)
    (hc : cache.Clean P bits dim (n + 1)) (hidx : idx ≤ n) :
    (cache.removeRow P idx n bits dim).Clean P bits dim n := by
  by_cases h3 : bits = 3
  · subst h3
    obtain ⟨hp, code, hl⟩ := h.lanes_three
    have hp' : BlockedCache.isPlanes { cache with sample := none, centre := none } = false := hp
    have hcode := hc.codes hp hl
    unfold BlockedCache.removeRow
    dsimp only
    rw [hp', if_neg Bool.false_ne_true, blockedGeometry_eq]
    apply clean_of_lanes (lanesHold_swapRemove hl hidx)
    intro v hv g hg
    split
    · exact hcode n (by omega) g hg
    · exact hcode v (by omega) g hg
  · exact clean_of_ne_three h3

end Cache

/-! ## The rows read back -/

section Rows

variable {P : Platform} {T : Tables} {x : TurboQuantIndex} {rows : List (List UInt8)} {d : ℕ}

theorem row_bytes (hmod : d % 8 = 0) (bits : ℕ) : d * bits / 8 = bits * (d / 8) := by
  obtain ⟨m, rfl⟩ : ∃ m, d = 8 * m := ⟨d / 8, by omega⟩
  rw [Nat.mul_div_cancel_left m (by decide), Nat.mul_assoc, Nat.mul_div_cancel_left _ (by decide),
    Nat.mul_comm]

/-- The row of a cache that is clean, in the sequential layout. -/
theorem CacheHolds.captureRow {bits n v : ℕ} {f : ℕ → List UInt8} {cache : BlockedCache}
    (h : CacheHolds P bits d n f cache) (hb : ValidBits bits) (hmod : d % 8 = 0)
    (hc : cache.Clean P bits d n) (hv : v < n) :
    TurboQuantIndex.captureRow P cache bits (d / codesPerByte bits) v = extractRow bits d (f v) := by
  unfold TurboQuantIndex.captureRow
  cases hp : cache.isPlanes with
  | true =>
    obtain ⟨hfor, hold⟩ := h.regions.planes (isPlanes_eq_true.mp hp)
    rw [if_pos rfl]
    exact hold.readRow hfor hmod h.regions.width hv
  | false =>
    obtain ⟨code, hl, hrow⟩ := h.regions.classic (isPlanes_eq_false.mp hp)
    rw [if_neg Bool.false_ne_true, hl.laneRow_eq hv, ← hrow v hv,
      extractRow_packRow hb hmod (length_tabulate _ _)]
    have hcode := hc.codes hp hl v hv
    symm
    apply (List.map_congr_left fun b hb => ?_).trans (List.map_id _)
    obtain ⟨g, hg, rfl⟩ := List.mem_map.mp hb
    exact hcode g (List.mem_range.mp hg)

/-- A clean index reads each row as its packed form says. -/
theorem Rep.seqRow (h : Rep P x rows) (hc : x.Clean P) (hd : x.dim = some d) {v : ℕ}
    (hv : v < x.nVectors) : x.seqRow P v = extractRow x.bitWidth d (rows.getD v []) := by
  obtain ⟨hmod, hpos⟩ := h.dims d hd
  have hwidth := h.width d hd
  unfold TurboQuantIndex.seqRow
  dsimp only
  rw [hd, Option.getD_some, blockedGeometry_eq]
  dsimp only
  split
  · rename_i packed hp
    have hrow : rowAt packed (x.bitWidth * (d / 8)) v = rows.getD v [] := by
      rw [h.packed packed hp, rowAt_flatten hwidth (by rw [h.len]; exact hv)]
    have hlen : (rows.getD v []).length = x.bitWidth * (d / 8) := by
      rw [List.getD_eq_getElem?_getD, List.getElem?_eq_getElem (by rw [h.len]; exact hv), Option.getD_some]
      exact hwidth _ (List.getElem_mem _)
    rw [row_bytes hmod, hrow, extractCodesFlat_eq h.bits hmod, List.range_one, List.flatMap_singleton,
      rowAt, Nat.zero_mul, List.drop_zero, ← hlen, List.take_length]
  · rename_i hp
    have hlive := h.live (by omega)
    rw [hp] at hlive
    obtain ⟨cache, hcache⟩ := Option.isSome_iff_exists.mp (hlive.resolve_left Bool.false_ne_true)
    obtain ⟨d', hd', hold⟩ := h.cache cache hcache
    rw [hd, Option.some.injEq] at hd'
    subst hd'
    rw [hcache]
    exact hold.captureRow h.bits hmod (hc d cache hd hcache) hv

end Rows

/-! ## The calls -/

namespace TurboQuantIndex

variable {P : Platform} {T : Tables} {K : Kernels} {S : ScanKernels} {x x' : TurboQuantIndex}
  {rows : List (List UInt8)}

theorem Clean.of_same (hc : x.Clean P) (hdim : x'.dim = x.dim) (hbits : x'.bitWidth = x.bitWidth)
    (hn : x'.nVectors = x.nVectors) (hb : x'.blocked = x.blocked) : x'.Clean P := by
  intro d cache hd hcache
  rw [hbits, hn]
  exact hc d cache (hdim ▸ hd) (hb ▸ hcache)

theorem clean_of_none (hb : x.blocked = none) : x.Clean P := by
  intro d cache _ hcache
  rw [hb] at hcache
  cases hcache

theorem Clean.entered (h : Rep P x rows) (hc : x.Clean P) {dim : ℕ} (hdim : x.checkAddDim dim = .ok ()) :
    (x.entered dim).Clean P := by
  cases hd : x.dim with
  | some d =>
    rw [entered_eq hdim hd]
    exact hc
  | none =>
    have hb := blocked_of_lazy h hd
    exact clean_of_none (x := x.entered dim) hb

theorem Clean.appendRows (h : Rep P x rows) (hc : x.Clean P) {vectors : List F32} {n dim : ℕ}
    {fault : Option Fault} (hdim : x.dim = some dim)
    (hrun : TurboQuantIndex.appendRows P K x vectors n dim fault = .ok x') : x'.Clean P := by
  unfold TurboQuantIndex.appendRows at hrun
  dsimp only at hrun
  obtain ⟨hmod, hpos⟩ := h.dims dim hdim
  have hcounts : ∀ cache, x.blocked = some cache → CacheHolds P x.bitWidth dim x.nVectors
      (fun v => rows.getD v []) cache := by
    intro cache hcache
    obtain ⟨d, hd, hold⟩ := h.cache cache hcache
    rw [hdim, Option.some.injEq] at hd
    rw [hd]
    exact hold
  -- whatever cache the call leaves, it is clean at the new row count
  have hnew : ∀ cache : BlockedCache, cache.Clean P x.bitWidth dim (x.nVectors + n) →
      ∀ y : TurboQuantIndex, y.dim = x.dim → y.bitWidth = x.bitWidth → y.nVectors = x.nVectors + n →
        y.blocked = some cache → y.Clean P := by
    intro cache hclean y hd hbits hn hb d cache' hd' hcache'
    rw [hd, hdim, Option.some.injEq] at hd'
    rw [hb, Option.some.injEq] at hcache'
    rw [hbits, hn, ← hd', ← hcache']
    exact hclean
  split at hrun
  · rename_i hlazy
    simp only [lazyAppend, Bool.and_eq_true] at hlazy
    obtain ⟨cache, hcache⟩ := Option.isSome_iff_exists.mp hlazy.2
    split at hrun
    · cases hrun
    · cases hrun
    · cases hrun
      refine hnew _ ?_ _ rfl rfl rfl (by dsimp only; rw [hcache]; rfl)
      exact (hcounts cache hcache).clean_appendRows h.bits hmod (hc dim cache hdim hcache) _ n
  · split at hrun
    · cases hrun
    · cases hrun
    · split at hrun
      · cases hrun
        refine hnew _ ?_ _ rfl rfl rfl rfl
        exact clean_build h.bits hmod _
      · cases hrun
      · rename_i cache hcache _ _ _
        cases hrun
        refine hnew _ ?_ _ rfl rfl rfl rfl
        exact (hcounts cache hcache).clean_patch h.bits hmod (hc dim cache hdim hcache)
          (Nat.le_add_right _ n)

theorem Clean.add2d (h : Rep P x rows) (hc : x.Clean P) (vectors : List F32) (dim : ℕ)
    {fault : Option Fault} (hf : ∀ f ∈ fault, f.Guarded) :
    (x.add2d P T K vectors dim fault).1.Clean P := by
  have had := added P T K x vectors dim fault
  generalize x.add2d P T K vectors dim fault = r at had ⊢
  cases had with
  | refused e => exact hc
  | ragged hr => exact hc
  | nothing hnil => exact hc
  | done hdim hadd =>
    have hent := hc.entered h hdim
    unfold TurboQuantIndex.add at hadd
    dsimp only at hadd ⊢
    split at hadd
    · cases hadd
    · split at hadd
      · cases hadd
        exact hent
      · split at hadd
        · cases hadd
        · exact Clean.appendRows ((h.entered hdim).warm (T := T) dim) (hent.of_same rfl rfl rfl rfl) rfl hadd
  | @panicked x' hdim hadd =>
    have hent := hc.entered h hdim
    have hx' : x'.Clean P ∧ (x.dim = none → x'.blocked = none) := by
      have hnone := blocked_of_lazy h
      unfold TurboQuantIndex.add at hadd
      dsimp only at hadd
      split at hadd
      · cases hadd
        exact ⟨hent, hnone⟩
      · split at hadd
        · cases hadd
        · split at hadd
          · cases hadd
            exact ⟨hent, hnone⟩
          · rw [Rep.appendRows_unwound hf hadd]
            split
            · exact ⟨hent.of_same rfl rfl rfl rfl, hnone⟩
            · exact ⟨hent.of_same rfl rfl rfl rfl, hnone⟩
    dsimp only
    unfold unwound
    split
    · rename_i hd
      rw [Option.isNone_iff_eq_none] at hd
      exact clean_of_none (hx'.2 hd)
    · exact hx'.1

theorem Clean.calibrate2d (h : Rep P x rows) (hc : x.Clean P) (sample : List F32) (dim : ℕ)
    (fault : Option Fault) : (x.calibrate2d P T K sample dim fault).1.Clean P := by
  have hcal := calibrated P T K x sample dim fault
  generalize x.calibrate2d P T K sample dim fault = r at hcal ⊢
  have hun : (uncommitted (x.warm T dim)).Clean P := by
    unfold uncommitted
    split
    · exact hc.of_same rfl rfl rfl rfl
    · exact hc.of_same rfl rfl rfl rfl
  cases hcal with
  | refused e => exact hc
  | abandoned hdim o ho => exact hun
  | panicked hdim hn => exact hc.of_same rfl rfl rfl rfl
  | done hdim =>
    have hent : ((x.entered dim).warm T dim).Clean P :=
      (hc.entered h (Rep.checkAddDim_of_calibrate hdim)).of_same rfl rfl rfl rfl
    dsimp only
    unfold commitCalibration
    dsimp only
    split
    · exact clean_of_none rfl
    · exact hent.of_same rfl rfl rfl rfl

theorem Clean.markRemoval (hc : x.Clean P) (idx last : ℕ) : (x.markRemoval idx last).Clean P := by
  have hdirty : ∀ {y : TurboQuantIndex}, y.Clean P → ∀ slot, (y.markDirty slot).Clean P := by
    intro y hy slot
    unfold markDirty
    split
    · exact hy.of_same rfl rfl rfl rfl
    · exact hy
  unfold TurboQuantIndex.markRemoval
  split
  · dsimp only
    split
    · exact hdirty (hdirty hc idx) last
    · exact hdirty hc idx
  · exact hc

theorem Clean.dropRow (h : Rep P x rows) (hc : x.Clean P) {idx d : ℕ} (hidx : idx < x.nVectors)
    (hd : x.dim = some d) : (x.dropRow P idx (x.nVectors - 1) d).Clean P := by
  intro d' cache hd' hcache
  have hd'' : d' = d := Option.some.inj (hd'.symm.trans hd)
  subst hd''
  obtain ⟨c₀, hc₀, rfl⟩ := Option.map_eq_some_iff.mp hcache
  obtain ⟨d, hd₀, hold⟩ := h.cache c₀ hc₀
  rw [hd, Option.some.injEq] at hd₀
  subst hd₀
  have hclean := hc d' c₀ hd hc₀
  have hn : x.nVectors = (x.nVectors - 1) + 1 := by omega
  rw [hn] at hold hclean
  exact hold.clean_removeRow hclean (by omega)

theorem Clean.prepared (h : Rep P x rows) (hc : x.Clean P) {dim : ℕ} (hd : x.dim = some dim) :
    (x.prepared P T dim).Clean P := by
  unfold TurboQuantIndex.prepared
  dsimp only
  split
  · exact hc.of_same rfl rfl rfl rfl
  · intro d cache hd' hcache
    have hd'' : d = dim := Option.some.inj (hd'.symm.trans hd)
    subst hd''
    rw [← Option.some.inj hcache]
    exact clean_build h.bits (h.dims d hd).1 _

theorem Clean.prepare (h : Rep P x rows) (hc : x.Clean P) : (x.prepare P T).Clean P := by
  unfold TurboQuantIndex.prepare
  split
  · exact hc
  · rename_i dim hd
    split
    · exact hc
    · exact hc.prepared h hd

/-- The derived members of a cache are no part of its code bytes. -/
theorem Clean.withDerived (hc : x.Clean P) {cache cache' : BlockedCache} (hcache : x.blocked = some cache)
    (hdata : cache'.data = cache.data) (hlow : cache'.low = cache.low) :
    ({ x with blocked := some cache' } : TurboQuantIndex).Clean P := by
  intro d c hd hc' hp
  rw [← Option.some.inj hc'] at hp ⊢
  have hp' : cache.isPlanes = false := by
    rw [BlockedCache.isPlanes, ← hlow]
    exact hp
  rw [hdata]
  exact hc d cache hd hcache hp'

theorem Clean.search (h : Rep P x rows) (hc : x.Clean P) (queries : List F32) (k : ℕ)
    (mask : Option (List Bool)) (threshold : Option F32) :
    (x.trySearchWithOptions P T S queries k mask threshold).1.Clean P := by
  have hderived : ∀ (y : TurboQuantIndex) (dim : ℕ) (cache : BlockedCache),
      (y.derived P S dim cache).data = cache.data ∧ (y.derived P S dim cache).low = cache.low := by
    intro y dim cache
    unfold derived
    split
    · exact ⟨rfl, rfl⟩
    · exact ⟨rfl, rfl⟩
  unfold trySearchWithOptions
  dsimp only
  split
  · exact hc
  · split
    · exact hc
    · rename_i dim hd
      split
      · exact hc
      · split
        · exact hc
        · split
          · split
            · split
              · exact hc
              · exact hc
            · exact hc
          · have hp := hc.prepared (T := T) h hd
            split
            · exact hp
            · exact hp
            · rename_i cache _ hcache
              obtain ⟨hdata, hlow⟩ := hderived (x.prepared P T dim) dim cache
              exact hp.withDerived hcache hdata hlow

theorem Clean.sync (hc : x.Clean P) (path : String) (disk : Disk) : (x.sync P T path disk).1.Clean P := by
  unfold TurboQuantIndex.sync
  split
  · exact hc
  · have hmat : ∀ c : Bool, (if c then x.materialize P else x).Clean P := by
      intro c
      split
      · exact hc.of_same rfl rfl rfl rfl
      · exact hc
    have hm := hmat x.blocked.isNone
    dsimp only
    split
    · exact hm.of_same rfl rfl rfl rfl
    · exact hm.of_same rfl rfl rfl rfl
    · exact hm.of_same rfl rfl rfl rfl

/-- An index opened from a clean image is clean. -/
theorem clean_fromV7 {l : V7Load} (h : l.Stored) (hc : l.Clean) (path : Option String) :
    (fromV7 P T l path).Clean P := by
  intro d cache hd hcache
  change (if decide (l.nVectors ≠ 0) = true then some (cacheOfV7 P l) else none) = some cache at hcache
  change (if l.dim ≠ 0 then some l.dim else none) = some d at hd
  split at hcache
  · split at hd
    · rw [← Option.some.inj hcache, ← Option.some.inj hd]
      change (cacheOfV7 P l).Clean P l.bitWidth l.dim l.nVectors
      by_cases h3 : l.bitWidth = 3
      · -- only a sequential image has 3-bit codes, and it is loaded as lanes
        have hlay : l.layout ≠ LAYOUT_PLANES := by
          intro hlay
          have := (h.planes hlay).1
          simp only [PlanesBits] at this
          omega
        obtain ⟨code, hseq⟩ := h.seq hlay
        have hdata : (cacheOfV7 P l).data = seqIntoNative P l.seqBlocked l.bitWidth
            (l.dim / codesPerByte l.bitWidth) := by
          unfold cacheOfV7
          dsimp only
          rw [blockedGeometry_eq, decide_eq_false hlay, h3, planesWanted_three]
        have hl : LanesHold P l.bitWidth (l.dim / codesPerByte l.bitWidth) l.nVectors code
            (seqIntoNative P l.seqBlocked l.bitWidth (l.dim / codesPerByte l.bitWidth)) :=
          lanesHold_seqIntoNative hseq
        rw [← hdata] at hl
        apply clean_of_lanes hl
        intro v hv g hg
        have hrow := hc hlay v hv
        rw [hseq.seqRowAt hv] at hrow
        exact hrow _ (List.mem_map.mpr ⟨g, List.mem_range.mpr hg, rfl⟩)
      · exact clean_of_ne_three h3
    · cases hd
  · cases hcache

end TurboQuantIndex

end Turbovec
