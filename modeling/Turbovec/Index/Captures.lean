import Turbovec.Index.Clean

/-!
# Removal captures

A removal keeps the bytes it moves into a slot the file has committed, one lane of an arena for each slot,
and the next sync writes them without reading the row again. Captures are retired when their slot changes,
and stay with the packed rows live. As long as the index is clean each is the row of its slot.
-/

namespace Turbovec

open Pack IoV7 Slice Grid

/-! ## Lanes of an arena -/

section Arena

variable {l row : List UInt8} {lane off off' : ℕ}

/-- Two lane offsets are a lane apart. -/
theorem lanes_apart (ho : lane ∣ off) (ho' : lane ∣ off') (hne : off ≠ off') :
    off + lane ≤ off' ∨ off' + lane ≤ off := by
  obtain ⟨i, rfl⟩ := ho
  obtain ⟨j, rfl⟩ := ho'
  have hij : i ≠ j := fun h => hne (by rw [h])
  rcases Nat.lt_or_gt_of_ne hij with h | h
  · left
    calc lane * i + lane = lane * (i + 1) := by ring
      _ ≤ lane * j := Nat.mul_le_mul_left lane h
  · right
    calc lane * j + lane = lane * (j + 1) := by ring
      _ ≤ lane * i := Nat.mul_le_mul_left lane h

theorem bytesAt_overwrite_self (hrow : row.length = lane) (hoff : off + lane ≤ l.length) :
    bytesAt (overwrite l off row) off lane = row := by
  have hlen : (overwrite l off row).length = l.length := length_overwrite (by omega)
  refine ext_entry (by rw [length_bytesAt (by omega), hrow]) fun i hi => ?_
  rw [length_bytesAt (by omega)] at hi
  rw [entry_bytesAt _ _ hi, entry_overwrite (by omega), if_pos (by omega), Nat.add_sub_cancel_left]

theorem bytesAt_overwrite_other (hrow : row.length = lane) (hoff : off + lane ≤ l.length)
    (hoff' : off' + lane ≤ l.length) (h : off + lane ≤ off' ∨ off' + lane ≤ off) :
    bytesAt (overwrite l off row) off' lane = bytesAt l off' lane := by
  have hlen : (overwrite l off row).length = l.length := length_overwrite (by omega)
  refine ext_entry (by rw [length_bytesAt (by omega), length_bytesAt hoff']) fun i hi => ?_
  rw [length_bytesAt (by omega)] at hi
  rw [entry_bytesAt _ _ hi, entry_bytesAt _ _ hi, entry_overwrite (by omega), if_neg (by omega)]

theorem bytesAt_resize {n : ℕ} (hn : l.length ≤ n) (hoff : off + lane ≤ l.length) :
    bytesAt (resize l n) off lane = bytesAt l off lane := by
  have hlen := length_resize l n
  refine ext_entry (by rw [length_bytesAt (by omega), length_bytesAt hoff]) fun i hi => ?_
  rw [length_bytesAt (by omega)] at hi
  rw [entry_bytesAt _ _ hi, entry_bytesAt _ _ hi, entry_resize _ (by omega)]

end Arena

/-! ## The invariant -/

/-- How the code bytes of a row stand to the packed row: width, dimension, code bytes, row. -/
abbrev ReadsAs := ℕ → ℕ → List UInt8 → List UInt8 → Prop

/-- Code bytes that are the packed row's own. -/
def Extracts : ReadsAs := fun bits d codes row => codes = extractRow bits d row

/-- Code bytes that pack to the row. -/
def Packs : ReadsAs := fun bits d codes row =>
  packRow bits d codes = row ∧ codes.length = d / codesPerByte bits

/-- The captures of an index of dimension `d` that stores `rows`: lanes of the arena, one for each of some
live slots, with code bytes that read as that slot's row. -/
structure CapturesHold (R : ReadsAs) (x : TurboQuantIndex) (d : ℕ) (rows : List (List UInt8)) : Prop where
  slot_lt : ∀ c ∈ x.syncCaptureAt, c.1 < x.nVectors
  slots : (x.syncCaptureAt.map Prod.fst).Nodup
  offs : (x.syncCaptureAt.map Prod.snd).Nodup
  lane : ∀ c ∈ x.syncCaptureAt, d / codesPerByte x.bitWidth ∣ c.2 ∧
    c.2 + d / codesPerByte x.bitWidth ≤ x.syncCaptureBuf.length
  arena : d / codesPerByte x.bitWidth ∣ x.syncCaptureBuf.length
  arena_le : x.syncCaptureBuf.length ≤ MAX_OPS * (d / codesPerByte x.bitWidth)
  bytes : ∀ c ∈ x.syncCaptureAt,
    R x.bitWidth d (bytesAt x.syncCaptureBuf c.2 (d / codesPerByte x.bitWidth)) (rows.getD c.1 [])

/-- Either nothing is captured or every capture holds. -/
def Captured (R : ReadsAs) (x : TurboQuantIndex) (rows : List (List UInt8)) : Prop :=
  (x.syncCaptureAt = [] ∧ x.syncCaptureBuf = []) ∨ ∃ d, x.dim = some d ∧ CapturesHold R x d rows

section Captured

variable {R : ReadsAs} {P : Platform} {T : Tables} {K : Kernels} {S : ScanKernels} {x x' : TurboQuantIndex}
  {rows rows' : List (List UInt8)}

/-- The captures of a dimensioned index. -/
theorem Captured.hold (h : Captured R x rows) {d : ℕ} (hd : x.dim = some d) : CapturesHold R x d rows := by
  rcases h with ⟨hat, hbuf⟩ | ⟨d', hd', hold⟩
  · constructor <;> simp [hat, hbuf]
  · rw [hd, Option.some.injEq] at hd'
    rw [hd']
    exact hold

/-- Captures kept by a call that keeps the rows of the slots they are of. -/
theorem Captured.keep (h : Captured R x rows) (hat : x'.syncCaptureAt = x.syncCaptureAt)
    (hbuf : x'.syncCaptureBuf = x.syncCaptureBuf) (hdim : ∀ d, x.dim = some d → x'.dim = some d)
    (hbits : x'.bitWidth = x.bitWidth) (hn : x.nVectors ≤ x'.nVectors)
    (hrows : ∀ v < x.nVectors, rows'.getD v [] = rows.getD v []) : Captured R x' rows' := by
  rcases h with ⟨h1, h2⟩ | ⟨d, hd, hold⟩
  · exact Or.inl ⟨hat.trans h1, hbuf.trans h2⟩
  · refine Or.inr ⟨d, hdim d hd, ?_⟩
    constructor
    · intro c hc
      rw [hat] at hc
      exact lt_of_lt_of_le (hold.slot_lt c hc) hn
    · rw [hat]
      exact hold.slots
    · rw [hat]
      exact hold.offs
    · intro c hc
      rw [hat] at hc
      rw [hbuf, hbits]
      exact hold.lane c hc
    · rw [hbuf, hbits]
      exact hold.arena
    · rw [hbuf, hbits]
      exact hold.arena_le
    · intro c hc
      rw [hat] at hc
      rw [hbuf, hbits, hrows c.1 (hold.slot_lt c hc)]
      exact hold.bytes c hc

theorem captured_of_nil (hat : x.syncCaptureAt = []) (hbuf : x.syncCaptureBuf = []) : Captured R x rows :=
  Or.inl ⟨hat, hbuf⟩

/-! ## Removing -/

/-- Where a removal captures: the lane of the slot's capture, or the end of an arena not full. -/
theorem captureAt_eq_some {idx lane off : ℕ} (h : x.captureAt P idx lane = some off) :
    x.packedCodes = none ∧ ((idx, off) ∈ x.syncCaptureAt ∨
      off = x.syncCaptureBuf.length ∧ off < MAX_OPS * lane) := by
  unfold TurboQuantIndex.captureAt at h
  split at h
  · rename_i hgate
    refine ⟨Option.isNone_iff_eq_none.mp hgate.2.2.2, ?_⟩
    split at h
    · rename_i c hc
      have hmem := List.mem_of_find?_eq_some hc
      have hslot := List.find?_some hc
      rw [decide_eq_true_eq] at hslot
      rw [← Option.some.inj h, ← hslot]
      exact Or.inl hmem
    · split at h
      · rename_i hroom
        rw [← Option.some.inj h]
        exact Or.inr ⟨rfl, hroom⟩
      · cases h
  · cases h

/-- The rows after a removal. -/
theorem getD_swapRemove {idx v : ℕ} (hidx : idx < rows.length) (hv : v < rows.length - 1) :
    (SlotMap.swapRemove rows idx).getD v [] =
      if v = idx then rows.getD (rows.length - 1) [] else rows.getD v [] := by
  rw [List.getD_eq_getElem?_getD, SlotMap.getElem?_swapRemove hidx, if_pos hv]
  split
  · rw [List.getD_eq_getElem?_getD]
  · rw [List.getD_eq_getElem?_getD]

/-- The captures a removal of slot `idx` keeps. -/
def keptCaptures (x : TurboQuantIndex) (idx : ℕ) : List (ℕ × ℕ) :=
  x.syncCaptureAt.filter fun c => c.1 ≠ idx ∧ c.1 ≠ x.nVectors - 1

theorem mem_keptCaptures {idx : ℕ} {c : ℕ × ℕ} : c ∈ keptCaptures x idx ↔
    c ∈ x.syncCaptureAt ∧ c.1 ≠ idx ∧ c.1 ≠ x.nVectors - 1 := by
  rw [keptCaptures, List.mem_filter, decide_eq_true_eq]

/-- A capture at a lane none of the kept captures has. -/
structure FreshLane (x : TurboQuantIndex) (d idx off : ℕ) : Prop where
  dvd : d / codesPerByte x.bitWidth ∣ off
  free : ∀ c ∈ keptCaptures x idx, c.2 ≠ off
  fits : off + d / codesPerByte x.bitWidth ≤ MAX_OPS * (d / codesPerByte x.bitWidth)
  place : off + d / codesPerByte x.bitWidth ≤ x.syncCaptureBuf.length ∨ off = x.syncCaptureBuf.length

/-- A slot's own capture, or the end of the arena, is such a lane. -/
theorem CapturesHold.freshLane {d idx off : ℕ} (h : CapturesHold R x d rows)
    (hat : x.captureAt P idx (d / codesPerByte x.bitWidth) = some off) : FreshLane x d idx off := by
  rcases (captureAt_eq_some hat).2 with hmem | ⟨hend, hroom⟩
  · obtain ⟨hdvd, hfit⟩ := h.lane _ hmem
    refine ⟨hdvd, fun c hc heq => ?_, hfit.trans h.arena_le, Or.inl hfit⟩
    -- the offsets are distinct: a kept capture with this one would be the slot's own
    obtain ⟨hc, hne, -⟩ := mem_keptCaptures.mp hc
    have := List.inj_on_of_nodup_map h.offs hc hmem heq
    rw [this] at hne
    exact hne rfl
  · have hdvd : d / codesPerByte x.bitWidth ∣ off := by
      rw [hend]
      exact h.arena
    refine ⟨hdvd, fun c hc heq => ?_, ?_, Or.inr hend⟩
    · have := (h.lane c (mem_keptCaptures.mp hc).1).2
      have hlane : 0 < d / codesPerByte x.bitWidth := by
        by_contra h0
        rw [Nat.eq_zero_of_not_pos h0, Nat.mul_zero] at hroom
        exact absurd hroom (Nat.not_lt_zero _)
      omega
    · obtain ⟨i, rfl⟩ := hdvd
      have hi : i < MAX_OPS := by
        rw [Nat.mul_comm MAX_OPS] at hroom
        exact Nat.lt_of_mul_lt_mul_left hroom
      calc d / codesPerByte x.bitWidth * i + d / codesPerByte x.bitWidth
          = d / codesPerByte x.bitWidth * (i + 1) := by ring
        _ ≤ d / codesPerByte x.bitWidth * MAX_OPS := Nat.mul_le_mul_left _ hi
        _ = MAX_OPS * (d / codesPerByte x.bitWidth) := Nat.mul_comm _ _

/-- What a removal leaves: the kept captures, with or without one of slot `idx`. -/
theorem CapturesHold.remove {d idx : ℕ} (h : CapturesHold R x d rows) (hlen : rows.length = x.nVectors)
    (hidx : idx < x.nVectors) (hbits : x'.bitWidth = x.bitWidth) (hn : x'.nVectors = x.nVectors - 1)
    (hbuf : x.syncCaptureBuf.length ≤ x'.syncCaptureBuf.length)
    (harena : d / codesPerByte x.bitWidth ∣ x'.syncCaptureBuf.length)
    (harena_le : x'.syncCaptureBuf.length ≤ MAX_OPS * (d / codesPerByte x.bitWidth))
    (hkeep : ∀ c ∈ keptCaptures x idx, bytesAt x'.syncCaptureBuf c.2 (d / codesPerByte x.bitWidth) =
      bytesAt x.syncCaptureBuf c.2 (d / codesPerByte x.bitWidth))
    (hat : x'.syncCaptureAt = keptCaptures x idx ∨ ∃ off, idx ≠ x.nVectors - 1 ∧
      x'.syncCaptureAt = keptCaptures x idx ++ [(idx, off)] ∧ FreshLane x d idx off ∧
      off + d / codesPerByte x.bitWidth ≤ x'.syncCaptureBuf.length ∧
      R x.bitWidth d (bytesAt x'.syncCaptureBuf off (d / codesPerByte x.bitWidth))
        (rows.getD (x.nVectors - 1) [])) :
    CapturesHold R x' d (SlotMap.swapRemove rows idx) := by
  have hsub : (keptCaptures x idx).Sublist x.syncCaptureAt := List.filter_sublist
  have hkept : ∀ c ∈ keptCaptures x idx, c.1 < x.nVectors - 1 := by
    intro c hc
    obtain ⟨hmem, -, hlast⟩ := mem_keptCaptures.mp hc
    have := h.slot_lt c hmem
    omega
  have hlane : ∀ c ∈ keptCaptures x idx, d / codesPerByte x.bitWidth ∣ c.2 ∧
      c.2 + d / codesPerByte x.bitWidth ≤ x'.syncCaptureBuf.length := by
    intro c hc
    obtain ⟨hdvd, hfit⟩ := h.lane c (mem_keptCaptures.mp hc).1
    exact ⟨hdvd, hfit.trans hbuf⟩
  have hbytes : ∀ c ∈ keptCaptures x idx, R x.bitWidth d
      (bytesAt x'.syncCaptureBuf c.2 (d / codesPerByte x.bitWidth))
      ((SlotMap.swapRemove rows idx).getD c.1 []) := by
    intro c hc
    obtain ⟨hmem, hne, -⟩ := mem_keptCaptures.mp hc
    have := hkept c hc
    rw [hkeep c hc, getD_swapRemove (by omega) (by omega), if_neg hne]
    exact h.bytes c hmem
  rcases hat with hat | ⟨off, hlast, hat, hfresh, hfit, hrow⟩
  · constructor
    · rw [hat, hn]
      exact hkept
    · rw [hat]
      exact h.slots.sublist (hsub.map _)
    · rw [hat]
      exact h.offs.sublist (hsub.map _)
    · rw [hat, hbits]
      exact hlane
    · rw [hbits]
      exact harena
    · rw [hbits]
      exact harena_le
    · rw [hat, hbits]
      exact hbytes
  · have hcases : ∀ c ∈ x'.syncCaptureAt, c ∈ keptCaptures x idx ∨ c = (idx, off) := by
      intro c hc
      rw [hat, List.mem_append, List.mem_singleton] at hc
      exact hc
    constructor
    · intro c hc
      rw [hn]
      rcases hcases c hc with hc | rfl
      · exact hkept c hc
      · dsimp only
        omega
    · rw [hat, List.map_append, List.map_singleton]
      refine (h.slots.sublist (hsub.map _)).append (List.nodup_singleton _) ?_
      intro v hv hv'
      obtain ⟨c, hc, rfl⟩ := List.mem_map.mp hv
      exact (mem_keptCaptures.mp hc).2.1 (List.mem_singleton.mp hv')
    · rw [hat, List.map_append, List.map_singleton]
      refine (h.offs.sublist (hsub.map _)).append (List.nodup_singleton _) ?_
      intro v hv hv'
      obtain ⟨c, hc, rfl⟩ := List.mem_map.mp hv
      exact hfresh.free c hc (List.mem_singleton.mp hv')
    · intro c hc
      rw [hbits]
      rcases hcases c hc with hc | rfl
      · exact hlane c hc
      · exact ⟨hfresh.dvd, hfit⟩
    · rw [hbits]
      exact harena
    · rw [hbits]
      exact harena_le
    · intro c hc
      rw [hbits]
      rcases hcases c hc with hc | rfl
      · exact hbytes c hc
      · dsimp only
        rw [getD_swapRemove (by omega) (by omega), if_pos rfl, hlen]
        exact hrow

/-- The arena with room for a lane at `off`. -/
def roomAt (x : TurboQuantIndex) (lane off : ℕ) : List UInt8 :=
  if off = x.syncCaptureBuf.length then resize x.syncCaptureBuf (off + lane) else x.syncCaptureBuf

theorem FreshLane.room {d idx off : ℕ} (h : CapturesHold R x d rows) (hf : FreshLane x d idx off) :
    let base := roomAt x (d / codesPerByte x.bitWidth) off
    x.syncCaptureBuf.length ≤ base.length ∧ off + d / codesPerByte x.bitWidth ≤ base.length ∧
    d / codesPerByte x.bitWidth ∣ base.length ∧ base.length ≤ MAX_OPS * (d / codesPerByte x.bitWidth) ∧
    ∀ o, o + d / codesPerByte x.bitWidth ≤ x.syncCaptureBuf.length →
      bytesAt base o (d / codesPerByte x.bitWidth) =
        bytesAt x.syncCaptureBuf o (d / codesPerByte x.bitWidth) := by
  unfold roomAt
  dsimp only
  split
  · rename_i hend
    have hgrow : x.syncCaptureBuf.length ≤ off + d / codesPerByte x.bitWidth := by
      rw [hend]
      exact Nat.le_add_right _ _
    rw [length_resize]
    refine ⟨hgrow, le_rfl, ?_, hf.fits, fun o ho => bytesAt_resize hgrow ho⟩
    exact Nat.dvd_add hf.dvd (dvd_refl _)
  · rename_i hend
    exact ⟨le_rfl, hf.place.resolve_right hend, h.arena, h.arena_le, fun _ _ => rfl⟩

/-- What a removal reads out of the cache reads as the row. -/
def Readable (P : Platform) (R : ReadsAs) (x : TurboQuantIndex) (rows : List (List UInt8)) : Prop :=
  ∀ d cache, x.dim = some d → x.blocked = some cache → ∀ v < x.nVectors,
    (TurboQuantIndex.captureRow P cache x.bitWidth (d / codesPerByte x.bitWidth) v).length =
      d / codesPerByte x.bitWidth ∧
    R x.bitWidth d (TurboQuantIndex.captureRow P cache x.bitWidth (d / codesPerByte x.bitWidth) v)
      (rows.getD v [])

/-- A removal's captures are current. -/
theorem Captured.capture (h : Rep P x rows) (hread : Readable P R x rows) (hcap : Captured R x rows)
    {idx d : ℕ} (hidx : idx < x.nVectors) (hd : x.dim = some d) :
    let lane := d / codesPerByte x.bitWidth
    CapturesHold R ((x.capture P idx (x.nVectors - 1) lane (x.captureAt P idx lane)).dropRow P idx
      (x.nVectors - 1) d) d (SlotMap.swapRemove rows idx) := by
  intro lane
  have hold := hcap.hold hd
  have hkeep : ∀ y : TurboQuantIndex, y.bitWidth = x.bitWidth → y.nVectors = x.nVectors - 1 →
      y.syncCaptureBuf = x.syncCaptureBuf → y.syncCaptureAt = keptCaptures x idx →
        CapturesHold R y d (SlotMap.swapRemove rows idx) := by
    intro y hbits hn hbuf hat
    apply hold.remove h.len hidx hbits hn
    · rw [hbuf]
    · rw [hbuf]
      exact hold.arena
    · rw [hbuf]
      exact hold.arena_le
    · intro c _
      rw [hbuf]
    · exact Or.inl hat
  cases hat : x.captureAt P idx lane with
  | none => exact hkeep _ rfl rfl rfl rfl
  | some off =>
    obtain ⟨hp, -⟩ := captureAt_eq_some hat
    have hlive := h.live (by omega)
    rw [hp] at hlive
    obtain ⟨cache, hcache⟩ := Option.isSome_iff_exists.mp (hlive.resolve_left Bool.false_ne_true)
    by_cases hlast : idx ≠ x.nVectors - 1
    · have hfresh := hold.freshLane hat
      obtain ⟨hle, hfit, hdvd, hmax, hsame⟩ := hfresh.room hold
      obtain ⟨hlen, hrow⟩ := hread d cache hd hcache (x.nVectors - 1) (by omega)
      generalize hbase : roomAt x lane off = base at hle hfit hdvd hmax hsame
      have hbuf : ((x.capture P idx (x.nVectors - 1) lane (some off)).dropRow P idx (x.nVectors - 1)
          d).syncCaptureBuf = overwrite base off
            (TurboQuantIndex.captureRow P cache x.bitWidth lane (x.nVectors - 1)) := by
        unfold TurboQuantIndex.dropRow TurboQuantIndex.capture
        dsimp only
        rw [hcache]
        dsimp only
        rw [if_pos hlast, ← hbase]
        rfl
      have hblen : (overwrite base off (TurboQuantIndex.captureRow P cache x.bitWidth lane
          (x.nVectors - 1))).length = base.length := length_overwrite (by rw [hlen]; exact hfit)
      have hbits : ((x.capture P idx (x.nVectors - 1) lane (some off)).dropRow P idx (x.nVectors - 1)
          d).bitWidth = x.bitWidth := rfl
      apply hold.remove h.len hidx hbits rfl
      · rw [hbuf, hblen]
        exact hle
      · rw [hbuf, hblen]
        exact hdvd
      · rw [hbuf, hblen]
        exact hmax
      · intro c hc
        obtain ⟨hcd, hcf⟩ := hold.lane c (mem_keptCaptures.mp hc).1
        rw [hbuf, bytesAt_overwrite_other hlen hfit (hcf.trans hle)
          (lanes_apart hfresh.dvd hcd (Ne.symm (hfresh.free c hc)))]
        exact hsame c.2 hcf
      · by_cases h32 : idx < 2 ^ 32
        · refine Or.inr ⟨off, hlast, ?_, hfresh, ?_, ?_⟩
          · unfold TurboQuantIndex.dropRow TurboQuantIndex.capture
            dsimp only
            rw [if_pos ⟨hlast, h32⟩]
            rfl
          · rw [hbuf, hblen]
            exact hfit
          · rw [hbuf, bytesAt_overwrite_self hlen hfit]
            exact hrow
        · refine Or.inl ?_
          unfold TurboQuantIndex.dropRow TurboQuantIndex.capture
          dsimp only
          rw [if_neg fun h => h32 h.2]
          rfl
    · refine hkeep _ rfl rfl ?_ ?_
      · unfold TurboQuantIndex.dropRow TurboQuantIndex.capture
        dsimp only
        rw [hcache]
        dsimp only
        rw [if_neg hlast]
      · unfold TurboQuantIndex.dropRow TurboQuantIndex.capture
        dsimp only
        rw [if_neg fun h => hlast h.1]
        rfl

/-! ## The other calls -/

/-- Appending rows leaves the captures as they are. -/
theorem appendRows_captures (y : TurboQuantIndex) (vectors : List F32) (n dim : ℕ) (fault : Option Fault) :
    match TurboQuantIndex.appendRows P K y vectors n dim fault with
    | .ok y' => y'.syncCaptureAt = y.syncCaptureAt ∧ y'.syncCaptureBuf = y.syncCaptureBuf
    | .error y' => y'.syncCaptureAt = y.syncCaptureAt ∧ y'.syncCaptureBuf = y.syncCaptureBuf := by
  unfold TurboQuantIndex.appendRows
  dsimp only
  split
  · rename_i heq
    split at heq
    · split at heq
      · cases heq
      · cases heq
      · cases heq
        exact ⟨rfl, rfl⟩
    · split at heq
      · cases heq
      · cases heq
      · split at heq
        · cases heq
          exact ⟨rfl, rfl⟩
        · cases heq
        · cases heq
          exact ⟨rfl, rfl⟩
  · rename_i heq
    split at heq
    · split at heq
      · cases heq
        exact ⟨rfl, rfl⟩
      · cases heq
        exact ⟨rfl, rfl⟩
      · cases heq
    · split at heq
      · cases heq
        exact ⟨rfl, rfl⟩
      · cases heq
        exact ⟨rfl, rfl⟩
      · split at heq
        · cases heq
        · cases heq
          exact ⟨rfl, rfl⟩
        · cases heq

theorem add_captures (y : TurboQuantIndex) (vectors : List F32) (dim : ℕ) (fault : Option Fault) :
    match TurboQuantIndex.add P T K y vectors dim fault with
    | .ok y' => y'.syncCaptureAt = y.syncCaptureAt ∧ y'.syncCaptureBuf = y.syncCaptureBuf
    | .error y' => y'.syncCaptureAt = y.syncCaptureAt ∧ y'.syncCaptureBuf = y.syncCaptureBuf := by
  unfold TurboQuantIndex.add
  dsimp only
  by_cases hlen : vectors.length ≠ vectors.length / dim * dim
  · rw [if_pos hlen]
    exact ⟨rfl, rfl⟩
  · rw [if_neg hlen]
    by_cases hn : vectors.length / dim = 0
    · rw [if_pos hn]
      exact ⟨rfl, rfl⟩
    · rw [if_neg hn]
      by_cases hv : (firstInvalidCoord vectors dim).isSome = true
      · rw [if_pos hv]
        exact ⟨rfl, rfl⟩
      · rw [if_neg hv]
        exact appendRows_captures (y.warm T dim) vectors _ dim fault

/-- An add leaves the captures as they are, however it ends. -/
theorem add2d_captures (x : TurboQuantIndex) (vectors : List F32) (dim : ℕ) (fault : Option Fault) :
    (x.add2d P T K vectors dim fault).1.syncCaptureAt = x.syncCaptureAt ∧
      (x.add2d P T K vectors dim fault).1.syncCaptureBuf = x.syncCaptureBuf := by
  have had := TurboQuantIndex.added P T K x vectors dim fault
  generalize x.add2d P T K vectors dim fault = r at had ⊢
  cases had with
  | refused e => exact ⟨rfl, rfl⟩
  | ragged h => exact ⟨rfl, rfl⟩
  | nothing h => exact ⟨rfl, rfl⟩
  | done hdim h =>
    have := add_captures (P := P) (T := T) (K := K) (x.entered dim) vectors dim fault
    rw [h] at this
    exact this
  | panicked hdim h =>
    have := add_captures (P := P) (T := T) (K := K) (x.entered dim) vectors dim fault
    rw [h] at this
    dsimp only
    unfold TurboQuantIndex.unwound
    split
    · exact this
    · exact this

/-- Marking a removal changes no more than the fresh slots. -/
theorem markRemoval_eq (x : TurboQuantIndex) (idx last : ℕ) :
    ∃ fresh, x.markRemoval idx last = { x with syncFresh := fresh } := by
  have hdirty : ∀ (y : TurboQuantIndex) (slot : ℕ), ∃ fresh, y.markDirty slot = { y with syncFresh := fresh } := by
    intro y slot
    unfold TurboQuantIndex.markDirty
    split
    · exact ⟨_, rfl⟩
    · exact ⟨y.syncFresh, rfl⟩
  unfold TurboQuantIndex.markRemoval
  split
  · obtain ⟨fresh, hf⟩ := hdirty x idx
    dsimp only
    rw [hf]
    split
    · obtain ⟨fresh', hf'⟩ := hdirty { x with syncFresh := fresh } last
      exact ⟨fresh', hf'⟩
    · exact ⟨fresh, rfl⟩
  · exact ⟨x.syncFresh, rfl⟩

end Captured

/-! ## Runs -/

/-- The index stores the rows, without stray bits, and captures nothing else. -/
structure Sound (P : Platform) (x : TurboQuantIndex) (rows : List (List UInt8)) : Prop where
  rep : Rep P x rows
  clean : x.Clean P
  captured : Captured Extracts x rows

section Runs

variable {R : ReadsAs} {P : Platform} {T : Tables} {K : Kernels} {S : ScanKernels} {x : TurboQuantIndex}
  {rows : List (List UInt8)}

/-- A clean cache reads as the packed rows' own code bytes. -/
theorem readable_extracts (h : Rep P x rows) (hc : x.Clean P) : Readable P Extracts x rows := by
  intro d cache hd hcache v hv
  obtain ⟨d', hd', hold⟩ := h.cache cache hcache
  rw [hd, Option.some.injEq] at hd'
  subst hd'
  have hrow := hold.captureRow h.bits (h.dims d hd).1 (hc d cache hd hcache) hv
  refine ⟨?_, hrow⟩
  rw [hrow, length_extractRow]

/-- Any cache reads as code bytes that pack to the rows. -/
theorem readable_packs (h : Rep P x rows) : Readable P Packs x rows := by
  intro d cache hd hcache v hv
  obtain ⟨d', hd', hold⟩ := h.cache cache hcache
  rw [hd, Option.some.injEq] at hd'
  subst hd'
  have hmod := (h.dims d hd).1
  suffices hread : Packs x.bitWidth d
      (TurboQuantIndex.captureRow P cache x.bitWidth (d / codesPerByte x.bitWidth) v) (rows.getD v []) from
    ⟨hread.2, hread⟩
  rw [TurboQuantIndex.captureRow]
  split
  · rename_i hpl
    obtain ⟨hfor, hpl'⟩ := hold.regions.planes (isPlanes_eq_true.mp hpl)
    rw [hpl'.readRow hfor hmod hold.regions.width hv]
    exact ⟨packRow_extractRow h.bits hmod (hold.regions.width v hv), length_extractRow _ _ _⟩
  · rename_i hpl
    obtain ⟨code, hl, hrow⟩ := hold.regions.classic (isPlanes_eq_false.mp (Bool.not_eq_true _ ▸ hpl))
    rw [hl.laneRow_eq hv]
    exact ⟨hrow v hv, length_tabulate _ _⟩

/-- A removal keeps the rows and the captures. -/
theorem Captured.swapRemove (h : Rep P x rows) (hread : Readable P R x rows) (hcap : Captured R x rows) {idx : ℕ}
    (hidx : idx < x.nVectors) : ∃ x', x.swapRemove P idx = some (x', x.nVectors - 1) ∧
      Rep P x' (SlotMap.swapRemove rows idx) ∧ Captured R x' (SlotMap.swapRemove rows idx) := by
  obtain ⟨d, hd⟩ := Option.isSome_iff_exists.mp (h.dimmed (by omega))
  obtain ⟨fresh, hmark⟩ := markRemoval_eq x idx (x.nVectors - 1)
  have hmarked : Rep P { x with syncFresh := fresh } rows := h.of_same rfl rfl rfl rfl rfl rfl
  have hcap' : Captured R { x with syncFresh := fresh } rows :=
    hcap.keep rfl rfl (fun _ hd => hd) rfl le_rfl fun _ _ => rfl
  refine ⟨_, TurboQuantIndex.swapRemove_eq x hidx hd, ?_⟩
  rw [hmark, blockedGeometry_eq]
  have hrep := hmarked.capture idx (x.nVectors - 1) (d / codesPerByte x.bitWidth)
    (TurboQuantIndex.captureAt P { x with syncFresh := fresh } idx (d / codesPerByte x.bitWidth))
  exact ⟨hrep.dropRow hidx hd, Or.inr ⟨d, hd, hcap'.capture hmarked hread hidx hd⟩⟩

/-- A removal keeps an index clean. -/
theorem TurboQuantIndex.Clean.swapRemove (h : Rep P x rows) (hc : x.Clean P) {idx : ℕ} (hidx : idx < x.nVectors) :
    (((x.swapRemove P idx).map Prod.fst).getD x).Clean P := by
  obtain ⟨d, hd⟩ := Option.isSome_iff_exists.mp (h.dimmed (by omega))
  obtain ⟨fresh, hmark⟩ := markRemoval_eq x idx (x.nVectors - 1)
  have hmarked : Rep P { x with syncFresh := fresh } rows := h.of_same rfl rfl rfl rfl rfl rfl
  rw [TurboQuantIndex.swapRemove_eq x hidx hd]
  dsimp only [Option.map_some, Option.getD_some]
  rw [hmark, blockedGeometry_eq]
  have hrep := hmarked.capture idx (x.nVectors - 1) (d / codesPerByte x.bitWidth)
    (TurboQuantIndex.captureAt P { x with syncFresh := fresh } idx (d / codesPerByte x.bitWidth))
  have hclean : (TurboQuantIndex.capture P { x with syncFresh := fresh } idx (x.nVectors - 1)
      (d / codesPerByte x.bitWidth)
      (TurboQuantIndex.captureAt P { x with syncFresh := fresh } idx (d / codesPerByte x.bitWidth))).Clean P :=
    hc.of_same rfl rfl rfl rfl
  exact hclean.dropRow hrep hidx hd

theorem prepared_captures (x : TurboQuantIndex) (dim : ℕ) :
    (x.prepared P T dim).syncCaptureAt = x.syncCaptureAt ∧
      (x.prepared P T dim).syncCaptureBuf = x.syncCaptureBuf := by
  unfold TurboQuantIndex.prepared
  dsimp only
  split
  · exact ⟨rfl, rfl⟩
  · exact ⟨rfl, rfl⟩

theorem search_captures (x : TurboQuantIndex) (queries : List F32) (k : ℕ) (mask : Option (List Bool))
    (threshold : Option F32) :
    (x.trySearchWithOptions P T S queries k mask threshold).1.syncCaptureAt = x.syncCaptureAt ∧
      (x.trySearchWithOptions P T S queries k mask threshold).1.syncCaptureBuf = x.syncCaptureBuf := by
  unfold TurboQuantIndex.trySearchWithOptions
  dsimp only
  split
  · exact ⟨rfl, rfl⟩
  · split
    · exact ⟨rfl, rfl⟩
    · rename_i dim hd
      split
      · exact ⟨rfl, rfl⟩
      · split
        · exact ⟨rfl, rfl⟩
        · split
          · split
            · split
              · exact ⟨rfl, rfl⟩
              · exact ⟨rfl, rfl⟩
            · exact ⟨rfl, rfl⟩
          · split
            · exact prepared_captures x dim
            · exact prepared_captures x dim
            · exact prepared_captures x dim

/-- A sync drops the captures once it has reached the disk, and before that keeps them. -/
theorem sync_captures (x : TurboQuantIndex) (path : String) (disk : Disk) :
    ((x.sync P T path disk).1.syncCaptureAt = [] ∧ (x.sync P T path disk).1.syncCaptureBuf = []) ∨
      (x.sync P T path disk).1.syncCaptureAt = x.syncCaptureAt ∧
        (x.sync P T path disk).1.syncCaptureBuf = x.syncCaptureBuf := by
  unfold TurboQuantIndex.sync
  split
  · exact Or.inr ⟨rfl, rfl⟩
  · dsimp only
    split
    · right
      dsimp only
      split
      · exact ⟨rfl, rfl⟩
      · exact ⟨rfl, rfl⟩
    · exact Or.inl ⟨rfl, rfl⟩
    · exact Or.inl ⟨rfl, rfl⟩

/-- A call keeps the rows and the captures. -/
theorem Captured.after (hK : K.Sized) (h : Rep P x rows) (hread : Readable P R x rows) (hcap : Captured R x rows)
    {c : TurboQuantIndex.Call} (hg : c.Guarded) :
    ∃ rows', Rep P (x.after P T K S c) rows' ∧ Captured R (x.after P T K S c) rows' := by
  have hsame : ∀ x' : TurboQuantIndex, x'.syncCaptureAt = x.syncCaptureAt →
      x'.syncCaptureBuf = x.syncCaptureBuf → x.Counted x' x.nVectors → Captured R x' rows :=
    fun x' hat hbuf hc => hcap.keep hat hbuf hc.dim hc.bits hc.rows.ge fun _ _ => rfl
  cases c with
  | add vectors dim fault =>
    refine ⟨_, h.add2d hK vectors dim hg, ?_⟩
    have hc := TurboQuantIndex.add2d_counted (P := P) (T := T) (K := K) x vectors dim fault
    obtain ⟨hat, hbuf⟩ := add2d_captures (P := P) (T := T) (K := K) x vectors dim fault
    have hle : x.nVectors ≤ (x.add2d P T K vectors dim fault).1.nVectors := by
      rw [hc.rows]
      omega
    refine hcap.keep hat hbuf hc.dim hc.bits hle fun v hv => ?_
    split
    · exact List.getD_append _ _ _ _ (by rw [h.len]; exact hv)
    · rfl
  | calibrate sample dim fault =>
    dsimp only [TurboQuantIndex.after]
    refine ⟨_, h.calibrate2d hK sample dim fault, ?_⟩
    have hc := TurboQuantIndex.calibrate2d_counted (P := P) (T := T) (K := K) x sample dim fault
    have hcal := TurboQuantIndex.calibrated P T K x sample dim fault
    generalize x.calibrate2d P T K sample dim fault = r at hc hcal ⊢
    cases hcal with
    | refused e => exact hcap
    | abandoned hdim o ho =>
      have hun : Captured R (TurboQuantIndex.uncommitted (x.warm T dim)) rows := by
        refine hsame _ ?_ ?_ hc
        · unfold TurboQuantIndex.uncommitted
          split
          · rfl
          · rfl
        · unfold TurboQuantIndex.uncommitted
          split
          · rfl
          · rfl
      cases o with
      | ok => exact absurd rfl ho
      | err e => exact hun
      | panic => exact hun
    | panicked hdim hn => exact hsame _ rfl rfl hc
    | done hdim => exact captured_of_nil rfl rfl
  | swapRemove idx =>
    dsimp only [TurboQuantIndex.after]
    by_cases hidx : idx < x.nVectors
    · obtain ⟨x', hx', hrep, hcap'⟩ := Captured.swapRemove h hread hcap hidx
      rw [hx']
      exact ⟨_, hrep, hcap'⟩
    · unfold TurboQuantIndex.swapRemove
      rw [guard, if_neg hidx]
      exact ⟨_, h, hcap⟩
  | search queries k mask threshold =>
    refine ⟨_, h.search queries k mask threshold, ?_⟩
    obtain ⟨hat, hbuf⟩ := search_captures (P := P) (T := T) (S := S) x queries k mask threshold
    exact hsame _ hat hbuf (TurboQuantIndex.search_counted x queries k mask threshold)
  | packedCodes =>
    exact ⟨_, h.materialize, hsame _ rfl rfl (.mk rfl rfl fun _ hd => hd)⟩
  | prepare =>
    refine ⟨_, h.prepare, ?_⟩
    have hc := TurboQuantIndex.prepare_counted (P := P) (T := T) x
    refine hsame _ ?_ ?_ hc
    · dsimp only [TurboQuantIndex.after]
      unfold TurboQuantIndex.prepare
      split
      · rfl
      · split
        · rfl
        · exact (prepared_captures x _).1
    · dsimp only [TurboQuantIndex.after]
      unfold TurboQuantIndex.prepare
      split
      · rfl
      · split
        · rfl
        · exact (prepared_captures x _).2
  | sync path disk =>
    refine ⟨_, h.sync path disk, ?_⟩
    rcases sync_captures (P := P) (T := T) x path disk with ⟨hat, hbuf⟩ | ⟨hat, hbuf⟩
    · exact captured_of_nil hat hbuf
    · exact hsame _ hat hbuf (TurboQuantIndex.sync_counted x path disk)

/-- A call keeps an index clean. -/
theorem TurboQuantIndex.Clean.after (h : Rep P x rows) (hc : x.Clean P) {c : TurboQuantIndex.Call}
    (hg : c.Guarded) : (x.after P T K S c).Clean P := by
  cases c with
  | add vectors dim fault => exact hc.add2d h vectors dim hg
  | calibrate sample dim fault => exact hc.calibrate2d h sample dim fault
  | swapRemove idx =>
    by_cases hidx : idx < x.nVectors
    · exact hc.swapRemove h hidx
    · dsimp only [TurboQuantIndex.after]
      unfold TurboQuantIndex.swapRemove
      rw [guard, if_neg hidx]
      exact hc
  | search queries k mask threshold => exact hc.search h queries k mask threshold
  | packedCodes => exact hc.of_same rfl rfl rfl rfl
  | prepare => exact hc.prepare h
  | sync path disk => exact hc.sync path disk

/-- A call keeps the index sound. -/
theorem Sound.after (hK : K.Sized) (h : Sound P x rows) {c : TurboQuantIndex.Call} (hg : c.Guarded) :
    ∃ rows', Sound P (x.after P T K S c) rows' := by
  obtain ⟨rows', hrep, hcap⟩ := Captured.after (T := T) (S := S) hK h.rep (readable_extracts h.rep h.clean)
    h.captured hg
  exact ⟨rows', hrep, h.clean.after h.rep hg, hcap⟩

/-- What `packed_codes`, the writer and the tests see of the captures: distinct live slots, disjoint lanes
within an arena of at most `MAX_OPS` lanes, each the row of its slot; so a row is written the same whether
its capture is read or the row itself. -/
structure CapturesFresh (P : Platform) (x : TurboQuantIndex) : Prop where
  slot_lt : ∀ c ∈ x.syncCaptureAt, c.1 < x.nVectors
  disjoint : x.syncCaptureAt.Pairwise fun c c' => c.1 ≠ c'.1 ∧
    (c.2 + (blockedGeometry x.nVectors x.bitWidth (x.dim.getD 0)).2.1 ≤ c'.2 ∨
      c'.2 + (blockedGeometry x.nVectors x.bitWidth (x.dim.getD 0)).2.1 ≤ c.2)
  inside : ∀ c ∈ x.syncCaptureAt,
    c.2 + (blockedGeometry x.nVectors x.bitWidth (x.dim.getD 0)).2.1 ≤ x.syncCaptureBuf.length
  arena_le : x.syncCaptureBuf.length ≤
    MAX_OPS * (blockedGeometry x.nVectors x.bitWidth (x.dim.getD 0)).2.1
  bytes : x.packedCodes = none → ∀ c ∈ x.syncCaptureAt,
    bytesAt x.syncCaptureBuf c.2 (blockedGeometry x.nVectors x.bitWidth (x.dim.getD 0)).2.1 =
      x.seqRow P c.1
  written : ∀ kind ids version v,
    let src := x.syncSource P kind ids version
    let plain := { src with rowCodes := x.seqRow P }
    opBytes src v = opBytes plain v ∧ recBytes src v = recBytes plain v

/-- A row read through the captures is the row itself when every capture is its row. -/
theorem rowCodes_eq (h : x.packedCodes = none → ∀ c ∈ x.syncCaptureAt,
    bytesAt x.syncCaptureBuf c.2 (blockedGeometry x.nVectors x.bitWidth (x.dim.getD 0)).2.1 =
      x.seqRow P c.1) (v : ℕ) : x.rowCodes P v = x.seqRow P v := by
  unfold TurboQuantIndex.rowCodes
  dsimp only
  split
  · rename_i off hoff
    unfold TurboQuantIndex.captureLookup at hoff
    split at hoff
    · cases hoff
    · rename_i hgate
      rw [Bool.or_eq_true, not_or, Bool.not_eq_true, Option.isSome_eq_false_iff,
        Option.isNone_iff_eq_none] at hgate
      obtain ⟨c, hc, rfl⟩ := Option.map_eq_some_iff.mp hoff
      have hmem := List.mem_reverse.mp (List.mem_of_find?_eq_some hc)
      have hslot := List.find?_some hc
      rw [decide_eq_true_eq] at hslot
      rw [h hgate.1 c hmem, hslot]
  · rfl

/-- A sound index has current captures. -/
theorem Sound.capturesFresh (h : Sound P x rows) : CapturesFresh P x := by
  have hbytes : x.packedCodes = none → ∀ c ∈ x.syncCaptureAt,
      bytesAt x.syncCaptureBuf c.2 (blockedGeometry x.nVectors x.bitWidth (x.dim.getD 0)).2.1 =
        x.seqRow P c.1 := by
    intro _ c hc
    rcases h.captured with ⟨hat, -⟩ | ⟨d, hd, hold⟩
    · rw [hat] at hc
      cases hc
    · rw [hd, Option.getD_some, blockedGeometry_eq, h.rep.seqRow h.clean hd (hold.slot_lt c hc)]
      exact hold.bytes c hc
  have hwritten : ∀ kind ids version, x.syncSource P kind ids version =
      { x.syncSource P kind ids version with rowCodes := x.seqRow P } := by
    intro kind ids version
    have hrows : x.rowCodes P = x.seqRow P := funext (rowCodes_eq hbytes)
    rw [← hrows]
    rfl
  have hdone : ∀ kind ids version v,
      let src := x.syncSource P kind ids version
      let plain := { src with rowCodes := x.seqRow P }
      opBytes src v = opBytes plain v ∧ recBytes src v = recBytes plain v := by
    intro kind ids version v
    dsimp only
    rw [← hwritten]
    exact ⟨rfl, rfl⟩
  rcases h.captured with ⟨hat, hbuf⟩ | ⟨d, hd, hold⟩
  · refine ⟨?_, ?_, ?_, ?_, hbytes, hdone⟩
    · simp [hat]
    · simp [hat]
    · simp [hat]
    · simp [hbuf]
  · refine ⟨hold.slot_lt, ?_, ?_, ?_, hbytes, hdone⟩
    · rw [hd, Option.getD_some, blockedGeometry_eq]
      have hpair := (List.pairwise_map.mp hold.slots).and (List.pairwise_map.mp hold.offs)
      refine hpair.imp_of_mem fun {c c'} hc hc' hne => ⟨hne.1, ?_⟩
      exact lanes_apart (hold.lane c hc).1 (hold.lane c' hc').1 hne.2
    · rw [hd, Option.getD_some, blockedGeometry_eq]
      exact fun c hc => (hold.lane c hc).2
    · rw [hd, Option.getD_some, blockedGeometry_eq]
      exact hold.arena_le

/-- An index as it comes to be captures nothing. -/
theorem opened_captures (h : TurboQuantIndex.Opened P T x) : x.syncCaptureAt = [] ∧ x.syncCaptureBuf = [] := by
  cases h with
  | new h =>
    unfold TurboQuantIndex.new at h
    split at h
    · cases h
    · split at h
      · cases h
      · split at h
        · cases h
        · cases h
          exact ⟨rfl, rfl⟩
  | newLazy h =>
    unfold TurboQuantIndex.newLazy at h
    split at h
    · cases h
    · cases h
      exact ⟨rfl, rfl⟩
  | fromParts h =>
    unfold TurboQuantIndex.fromParts at h
    rw [bind_eq_ok] at h
    obtain ⟨-, -, h⟩ := h
    rw [bind_eq_ok] at h
    obtain ⟨-, -, h⟩ := h
    cases h
    exact ⟨rfl, rfl⟩
  | load h =>
    rw [TurboQuantIndex.load] at h
    split at h
    · rw [bind_eq_ok] at h
      obtain ⟨l, hl, h⟩ := h
      cases h
      exact ⟨rfl, rfl⟩
    · cases h
  | fromBytes h =>
    rw [TurboQuantIndex.fromBytes, bind_eq_ok] at h
    obtain ⟨l, hl, h⟩ := h
    cases h
    exact ⟨rfl, rfl⟩

/-- Every call of a run keeps the index sound. -/
theorem run_sound (hK : K.Sized) (h : TurboQuantIndex.Opened P T x) (hc : x.Clean P)
    (calls : List TurboQuantIndex.Call) (hg : ∀ c ∈ calls, c.Guarded) :
    ∃ rows, Sound P (x.run P T K S calls) rows := by
  induction calls using List.reverseRecOn with
  | nil =>
    obtain ⟨rows, hrep⟩ := TurboQuantIndex.exists_rep_opened h
    obtain ⟨hat, hbuf⟩ := opened_captures h
    exact ⟨rows, hrep, hc, captured_of_nil hat hbuf⟩
  | append_singleton calls c ih =>
    obtain ⟨rows, hsound⟩ := ih fun c' hc' => hg c' (List.mem_append_left _ hc')
    have hcall : c.Guarded := hg c (List.mem_append_right _ (List.mem_singleton_self c))
    have hrun : x.run P T K S (calls ++ [c]) = (x.run P T K S calls).after P T K S c := by
      rw [TurboQuantIndex.run, List.foldl_append]
      rfl
    rw [hrun]
    exact hsound.after hK hcall

/-- In every run of an index that comes to be without stray bits, the captures are those of the live
rows. -/
theorem captures_fresh (hK : K.Sized) (h : TurboQuantIndex.Opened P T x) (hc : x.Clean P)
    (calls : List TurboQuantIndex.Call) (hg : ∀ c ∈ calls, c.Guarded) :
    CapturesFresh P (x.run P T K S calls) := by
  obtain ⟨rows, hsound⟩ := run_sound (S := S) hK h hc calls hg
  exact hsound.capturesFresh

end Runs

/-! ## A stray bit -/

/-- An x86 host without vector-major layouts. -/
def x86Host : Platform := ⟨.x86_64, false, false, false, false, false, false⟩

/-- One block of 3-bit rows of 8 dimensions, each code zero and each unused bit set. -/
def straySource : SyncSource where
  kind := 0
  dim := 8
  bitWidth := 3
  nVectors := 32
  version := 8
  layout := LAYOUT_SEQ
  unitCodes _ _ := List.replicate 128 0x88
  rowCodes _ := List.replicate 4 0x88
  scales := List.replicate 32 0
  ids := none
  tqplusShift := []
  tqplusScale := []
  boundaries := List.replicate 7 0
  centroids := List.replicate 8 0

theorem straySource_rowBytes : straySource.geo.rowBytes = 4 :=
  (rfl : (blockedGeometry 1 3 8).2.1 = 4)

theorem straySource_wf : SourceWf levelTables straySource where
  ok := {
    geo := ⟨(by decide : 2 ≤ 3), (by decide : 3 ≤ 4), (rfl : 8 % 8 = 0), (by decide : 8 ≤ MAX_DIM), Or.inl rfl,
      Or.inr rfl, Or.inl rfl⟩
    kind_le := (by decide : 0 ≤ 1)
    boundaries_len := rfl
    centroids_len := rfl
    codebook := fun _ => rfl
    codebook_num := (by decide : ∀ v ∈ levelTables.canon 3 8, v.isNaN = false)
    calibration := ⟨rfl, rfl, rfl⟩ }
  ids := by simp [SyncSource.IdsOk, straySource]
  rows _ _ := straySource_rowBytes.symm
  units _ _ := by
    rw [Geo.blockBytes, straySource_rowBytes]
    exact List.length_replicate
  n_lt := (by decide : 32 < 2 ^ 64)
  dim_zero h := absurd h (by decide : (8 : ℕ) ≠ 0)

/-- What the image of the block loads as. -/
def strayLoad : V7Load where
  dim := 8
  bitWidth := 3
  nVectors := 32
  layout := LAYOUT_SEQ
  seqBlocked := List.replicate 128 0x88
  sign := []
  low := []
  scales := List.replicate 32 0
  ids := []
  tqplusShift := []
  tqplusScale := []
  cursor := ⟨0, 32, 0, 0⟩
  pendingSlots := []

theorem straySource_row {v : ℕ} (hv : v < 32) : fullRow straySource v =
    ⟨unitCodeRow straySource.geo (unitBytes straySource 0) v, 0, 0⟩ := by
  have hdiv : v / 32 = 0 := by omega
  have hmod : v % 32 = v := by omega
  have hscale : (straySource.row v).scale = 0 := entry_of_getElem? (List.getElem?_replicate_of_lt hv)
  have hlt : v < straySource.nVectors / BLOCK * BLOCK := hv
  rw [fullRow, if_pos hlt, hscale]
  simp only [BLOCK, hdiv, hmod]
  rfl

theorem load_stray : loadImage levelTables (writeImage straySource 0 0) 0 0 = .ok strayLoad := by
  have himg := fullImage_writeImage straySource_wf 0 0
  obtain ⟨l, hl, hL⟩ := loadImage_writeImage straySource_wf (show 0 < 2 ^ 64 by decide) rfl (show 0 < 2 ^ 64 by decide)
    (by decide : ∀ v < 32, validScale (entry straySource.scales v) = true) 0
  have hrow : ∀ v < 32, (parsedFull straySource 0 0).rows (writeImage straySource 0 0) v =
      ⟨unitCodeRow straySource.geo (unitBytes straySource 0) v, 0, 0⟩ :=
    fun v hv => (himg.rows straySource_wf hv).trans (straySource_row hv)
  obtain ⟨hseq, hsign, hlow⟩ := hL.seq (by decide : LAYOUT_SEQ ≠ LAYOUT_PLANES)
  have hcode : ∀ v < 32, ∀ g < 4, entry ((parsedFull straySource 0 0).rows (writeImage straySource 0 0) v).codes g =
      0x88 := by
    intro v hv g hg
    rw [hrow v hv, unitCodeRow, if_neg (show straySource.geo.layout ≠ LAYOUT_PLANES by decide)]
    dsimp only
    rw [straySource_rowBytes, entry_seqLane _ _ hg, unitBytes, List.append_assoc]
    have hin : g * 32 + v < (List.replicate 128 (0x88 : UInt8)).length := by
      rw [List.length_replicate]
      omega
    exact (entry_append_left hin).trans (entry_of_getElem? (List.getElem?_replicate_of_lt (by omega)))
  have hblocks : l.seqBlocked = List.replicate 128 0x88 := by
    have hstray : SeqHold 4 32 (fun _ _ => 0x88) (List.replicate 128 0x88) := by
      refine ⟨rfl, fun v hv g hg => ?_⟩
      rw [if_pos (show v < 32 by omega)]
      exact entry_of_getElem? (List.getElem?_replicate_of_lt (by omega))
    refine SeqHold.unique (SeqHold.congr hseq fun v hv g hg => ?_) hstray
    exact hcode v hv g hg
  have hscales : l.scales = List.replicate 32 0 := by
    rw [hL.scales]
    refine (List.map_congr_left fun v hv => ?_).trans (rfl : ((List.range 32).map fun _ => (0 : F32)) = _)
    rw [hrow v (List.mem_range.mp hv)]
  refine hl.trans ?_
  obtain ⟨dim, bitWidth, nVectors, layout, seqBlocked, sign, low, scales, ids, shift, scale, cursor, slots⟩ := l
  simp only [Except.ok.injEq, strayLoad, V7Load.mk.injEq]
  exact ⟨hL.dim, hL.bitWidth, hL.nVectors, hL.layout, hblocks, hsign, hlow, hscales, hL.ids, hL.tqplusShift,
    hL.tqplusScale, hL.cursor, hL.pendingSlots⟩

/-- Bound by a sync, a row removed, the packed rows read, a row added. -/
def strayCalls : List TurboQuantIndex.Call :=
  [.sync "index" (.landed ⟨0, 32, 0, 1⟩ []), .swapRemove 0, .packedCodes, .add (List.replicate 8 0) 8 none]

def strayIndex : TurboQuantIndex := TurboQuantIndex.fromV7 x86Host levelTables strayLoad none

theorem strayIndex_opened : TurboQuantIndex.Opened x86Host levelTables strayIndex := by
  have h : TurboQuantIndex.fromBytes x86Host levelTables (writeImage straySource 0 0) = .ok strayIndex := by
    rw [TurboQuantIndex.fromBytes, load_stray]
    rfl
  exact .fromBytes h

/-- The block is rebuilt from the packed rows when the row is added, and the capture keeps the bits the
packed rows have no room for. -/
theorem captures_stale : TurboQuantIndex.Opened x86Host levelTables strayIndex ∧
    (∀ c ∈ strayCalls, c.Guarded) ∧
    ¬CapturesFresh x86Host (strayIndex.run x86Host levelTables zeroKernels zeroScan strayCalls) := by
  have hrun : (strayIndex.run x86Host levelTables zeroKernels zeroScan strayCalls).packedCodes = none ∧
      (0, 0) ∈ (strayIndex.run x86Host levelTables zeroKernels zeroScan strayCalls).syncCaptureAt ∧
      bytesAt (strayIndex.run x86Host levelTables zeroKernels zeroScan strayCalls).syncCaptureBuf 0 4 ≠
        (strayIndex.run x86Host levelTables zeroKernels zeroScan strayCalls).seqRow x86Host 0 := by
    decide +kernel
  refine ⟨strayIndex_opened, ?_, fun h => ?_⟩
  · simp [strayCalls, TurboQuantIndex.Call.Guarded]
  · exact hrun.2.2 (h.bytes hrun.1 (0, 0) hrun.2.1)

/-- One block of zero rows. -/
def blockIndex : TurboQuantIndex :=
  { TurboQuantIndex.empty (some 8) 2 with
    nVectors := 32
    packedCodes := some (List.replicate 64 0)
    scales := List.replicate 32 0 }

theorem blockIndex_opened : TurboQuantIndex.Opened x86Host levelTables blockIndex :=
  .fromParts (by decide : TurboQuantIndex.fromParts levelTables.bounds (some 8) 2 32
    (List.replicate 64 0) (List.replicate 32 0) [] [] = .ok blockIndex)

/-- A row added, a sync, a row removed. -/
def blockCalls : List TurboQuantIndex.Call :=
  [.add (List.replicate 8 0) 8 none, .sync "index" (.landed ⟨0, 33, 0, 1⟩ []), .swapRemove 0]

theorem captures_fresh_block :
    CapturesFresh x86Host (blockIndex.run x86Host levelTables zeroKernels zeroScan blockCalls) ∧
    (blockIndex.run x86Host levelTables zeroKernels zeroScan blockCalls).syncCaptureAt = [(0, 0)] := by
  have hclean : blockIndex.Clean x86Host := TurboQuantIndex.clean_of_none rfl
  have hg : ∀ c ∈ blockCalls, c.Guarded := by simp [blockCalls, TurboQuantIndex.Call.Guarded]
  exact ⟨captures_fresh zeroKernels_sized blockIndex_opened hclean blockCalls hg, by decide +kernel⟩

end Turbovec
