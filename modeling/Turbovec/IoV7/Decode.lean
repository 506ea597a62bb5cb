import Turbovec.IoV7.Accepted

/-!
# What a load returns

The rows of an image, as a function: the units' rows, then each record written over its slot, redo ops
first and tail rows last. A load of an accepted image fails exactly on a scale it does not take, and
otherwise its buffers, scales and ids are those rows.
-/

namespace Turbovec.IoV7

open LittleEndian Slice Grid Pack

/-- A row as stored: its code bytes, scale and id. -/
structure Row where
  codes : List UInt8
  scale : F32
  id : UInt64
deriving DecidableEq, Repr

section Rows

variable (geo : Geo)

/-- The row of a record. -/
def recRow (r : List UInt8) : Row :=
  ⟨r.take geo.rowBytes, scaleAt r geo.rowBytes,
    if geo.kind = 1 then idAt r (geo.rowBytes + 4) else 0⟩

/-- The code bytes a unit gives a lane. -/
def unitCodeRow (u : List UInt8) (lane : ℕ) : List UInt8 :=
  if geo.layout = LAYOUT_PLANES then
    extractRow geo.bitWidth geo.dim (planesUnitRow geo.bitWidth geo.dim u lane)
  else seqLane u geo.rowBytes lane

/-- The row a unit gives a lane. -/
def unitRow (u : List UInt8) (lane : ℕ) : Row :=
  ⟨unitCodeRow geo u lane, scaleAt u (geo.blockBytes + lane * 4),
    if geo.kind = 1 then idAt u (geo.blockBytes + BLOCK * 4 + lane * 8) else 0⟩

/-- The rows of an image's first `blocks` units. -/
def unitRows (raw : List UInt8) (blocks v : ℕ) : Row :=
  if v < blocks * BLOCK then unitRow geo (bytesAt raw (geo.unitAt (v / BLOCK)) geo.unitLen) (v % BLOCK)
  else ⟨List.replicate geo.rowBytes 0, 0, 0⟩

theorem unitRows_of_lt (raw : List UInt8) {blocks v : ℕ} (hv : v < blocks * BLOCK) :
    unitRows geo raw blocks v =
      unitRow geo (bytesAt raw (geo.unitAt (v / BLOCK)) geo.unitLen) (v % BLOCK) :=
  if_pos hv

theorem unitRows_of_le (raw : List UInt8) {blocks v : ℕ} (hv : ¬ v < blocks * BLOCK) :
    unitRows geo raw blocks v = ⟨List.replicate geo.rowBytes 0, 0, 0⟩ :=
  if_neg hv

/-- Records written over their slots, in order. -/
def writeRows (rows : ℕ → Row) (recs : List (ℕ × List UInt8)) : ℕ → Row :=
  recs.foldl (fun f r => Function.update f r.1 (recRow geo r.2)) rows

end Rows

/-- The last record written to a slot. -/
def lastRec (recs : List (ℕ × List UInt8)) (v : ℕ) : Option (List UInt8) :=
  (recs.reverse.find? fun r => decide (r.1 = v)).map Prod.snd

section LastRec

variable {recs recs' : List (ℕ × List UInt8)} {v : ℕ}

theorem lastRec_append : lastRec (recs ++ recs') v = (lastRec recs' v).or (lastRec recs v) := by
  simp only [lastRec, List.reverse_append, List.find?_append]
  cases recs'.reverse.find? fun r => decide (r.1 = v) <;> rfl

theorem lastRec_eq_none : lastRec recs v = none ↔ ∀ r ∈ recs, r.1 ≠ v := by
  simp [lastRec]

theorem lastRec_singleton {r : ℕ × List UInt8} :
    lastRec [r] v = if r.1 = v then some r.2 else none := by
  simp only [lastRec, List.reverse_singleton, List.find?_cons, List.find?_nil]
  by_cases h : r.1 = v <;> simp [h]

/-- Records of consecutive slots. -/
theorem lastRec_range (first m : ℕ) (recOf : ℕ → List UInt8) :
    lastRec ((List.range m).map fun k => (first + k, recOf k)) v =
      if first ≤ v ∧ v < first + m then some (recOf (v - first)) else none := by
  induction m with
  | zero =>
    rw [if_neg (by omega)]
    rfl
  | succ m ih =>
    rw [List.range_succ, List.map_append, lastRec_append, ih, List.map_singleton, lastRec_singleton]
    by_cases hv : first + m = v
    · subst hv
      rw [if_pos rfl, if_neg (by omega), if_pos (by omega), Nat.add_sub_cancel_left]
      rfl
    · rw [if_neg hv, Option.none_or]
      exact if_congr (by omega) rfl rfl

/-- The last record of a slot decides its row. -/
theorem writeRows_apply (geo : Geo) (rows : ℕ → Row) :
    writeRows geo rows recs v = (lastRec recs v).elim (rows v) (recRow geo) := by
  induction recs using List.reverseRecOn with
  | nil => rfl
  | append_singleton recs r ih =>
    rw [writeRows, List.foldl_append, List.foldl_cons, List.foldl_nil, ← writeRows, lastRec_append,
      lastRec_singleton]
    by_cases h : r.1 = v
    · rw [if_pos h, h, Function.update_self]
      rfl
    · rw [if_neg h, Function.update_of_ne (Ne.symm h), ih, Option.none_or]

end LastRec

/-- The redo ops in the order they apply. -/
def ParsedImage.flatOps (img : ParsedImage) : List (ℕ × List UInt8) := img.ops.flatMap Prod.snd

/-- The rows an image decodes to. -/
def ParsedImage.rows (img : ParsedImage) (raw : List UInt8) : ℕ → Row :=
  writeRows img.geo (unitRows img.geo raw (img.nVectors / BLOCK)) (img.flatOps ++ img.tailRows)

theorem lastRec_tailRows (img : ParsedImage) (v : ℕ) : lastRec img.tailRows v =
    if img.nVectors / BLOCK * BLOCK ≤ v ∧ v < img.nVectors then
      some (rowAt img.tail img.geo.recLen (v - img.nVectors / BLOCK * BLOCK)) else none := by
  rw [ParsedImage.tailRows, lastRec_range, Nat.div_add_mod']

/-- Every scale the loader reads is one it takes. -/
structure ScalesOk (img : ParsedImage) (raw : List UInt8) : Prop where
  units : ∀ v < img.nVectors / BLOCK * BLOCK,
    validScale (unitRows img.geo raw (img.nVectors / BLOCK) v).scale = true
  recs : ∀ r ∈ img.flatOps ++ img.tailRows, validScale (recRow img.geo r.2).scale = true

/-- The load of the rows `rows`. -/
structure Loaded (img : ParsedImage) (rows : ℕ → Row) (expectCalibGen : ℕ) (l : V7Load) : Prop where
  dim : l.dim = img.geo.dim
  bitWidth : l.bitWidth = img.geo.bitWidth
  nVectors : l.nVectors = img.nVectors
  layout : l.layout = img.geo.layout
  tqplusShift : l.tqplusShift = img.tqplusShift
  tqplusScale : l.tqplusScale = img.tqplusScale
  cursor : l.cursor = ⟨img.gen, img.nVectors, expectCalibGen, img.nonce⟩
  pendingSlots : l.pendingSlots = img.pendingSlots
  scales : l.scales = (List.range img.nVectors).map fun v => (rows v).scale
  ids : l.ids = if img.geo.kind = 1 then (List.range img.nVectors).map fun v => (rows v).id else []
  seq : img.geo.layout ≠ LAYOUT_PLANES →
    SeqHold img.geo.rowBytes img.nVectors (fun v g => entry (rows v).codes g) l.seqBlocked ∧
      l.sign = [] ∧ l.low = []
  planes : img.geo.layout = LAYOUT_PLANES →
    CanonicalHold img.geo.bitWidth img.geo.dim img.nVectors
      (fun v => packRow img.geo.bitWidth img.geo.dim (rows v).codes) l.sign l.low ∧ l.seqBlocked = []

/-! ## Gathering the units -/

theorem getElem?_bytesAt (l : List UInt8) (off : ℕ) {k i : ℕ} (hi : i < k) :
    (bytesAt l off k)[i]? = l[off + i]? := by
  rw [bytesAt, List.getElem?_take_of_lt hi, List.getElem?_drop]

theorem length_bytesAt {l : List UInt8} {off k : ℕ} (h : off + k ≤ l.length) :
    (bytesAt l off k).length = k := by
  rw [bytesAt, List.length_take, List.length_drop]
  omega

/-- Reading inside bytes read before. -/
theorem bytesAt_bytesAt (l : List UInt8) {off k off' k' : ℕ} (h : off' + k' ≤ k) :
    bytesAt (bytesAt l off k) off' k' = bytesAt l (off + off') k' := by
  rw [bytesAt, bytesAt, bytesAt, List.drop_take, List.take_take, List.drop_drop,
    Nat.min_eq_left (by omega)]

theorem take_bytesAt (l : List UInt8) (off : ℕ) {k k' : ℕ} (h : k' ≤ k) :
    (bytesAt l off k).take k' = bytesAt l off k' := by
  rw [bytesAt, bytesAt, List.take_take, Nat.min_eq_left h]

theorem bytesAt_congr {l l' : List UInt8} {off k : ℕ}
    (h : ∀ i, off ≤ i → l[i]? = l'[i]?) : bytesAt l off k = bytesAt l' off k := by
  refine congrArg (List.take k) (List.ext_getElem? fun i => ?_)
  rw [List.getElem?_drop, List.getElem?_drop, h _ (Nat.le_add_right _ _)]

section Gather

variable {T : Tables} {raw : List UInt8} {geo : Geo} {len skip : ℕ}

/-- The buffer after `k` blocks' codes have moved to its front. -/
structure Compacted (raw : List UInt8) (geo : Geo) (skip len k : ℕ) (buf : List UInt8) : Prop where
  length_eq : buf.length = raw.length
  front : buf.take (k * len) = (List.range k).flatMap fun b => bytesAt raw (geo.unitAt b + skip) len
  back : ∀ i, k * len ≤ i → buf[i]? = raw[i]?

theorem mul_le_unitAt (h : skip + len ≤ geo.blockBytes) (k : ℕ) : k * len ≤ geo.unitAt k := by
  have hlen : len ≤ geo.unitLen := by
    simp only [Geo.blockBytes] at h
    simp only [Geo.unitLen]
    omega
  have := Nat.mul_le_mul_left k hlen
  simp only [Geo.unitAt]
  omega

theorem compacted_zero : Compacted raw geo skip len 0 raw := by
  refine ⟨rfl, by simp, fun _ _ => rfl⟩

/-- Moving one unit's codes leaves what the units after it hold. -/
theorem compacted_succ (h : skip + len ≤ geo.blockBytes) {k : ℕ} {buf : List UInt8}
    (hfit : geo.unitAt k + geo.unitLen ≤ raw.length) (hc : Compacted raw geo skip len k buf) :
    Compacted raw geo skip len (k + 1)
      (copyWithin buf (geo.unitAt k + skip) len (k * len)) := by
  have hunit : geo.blockBytes ≤ geo.unitLen := by
    simp only [Geo.blockBytes, Geo.unitLen]
    omega
  have hpos := @mul_le_unitAt geo len skip h k
  have hpiece : (buf.drop (geo.unitAt k + skip)).take len = bytesAt raw (geo.unitAt k + skip) len :=
    bytesAt_congr fun i hi => hc.back i (by omega)
  have hplen : (bytesAt raw (geo.unitAt k + skip) len).length = len := length_bytesAt (by omega)
  have hlen := hc.length_eq
  have hsucc : (k + 1) * len = k * len + len := by rw [Nat.add_mul, Nat.one_mul]
  rw [copyWithin, hpiece]
  refine ⟨by rw [length_overwrite (by omega), hlen], ?_, fun i hi => ?_⟩
  · have hfront : (buf.take (k * len)).length = k * len := by
      rw [List.length_take]
      omega
    rw [List.range_succ, List.flatMap_append, ← hc.front, List.flatMap_singleton, overwrite,
      List.append_assoc, List.take_append, hfront, List.take_of_length_le (by omega), hsucc,
      Nat.add_sub_cancel_left, List.take_append_of_le_length hplen.ge, List.take_of_length_le hplen.le]
  · rw [getElem?_overwrite (by omega), hplen, if_neg (by omega), hc.back i (by omega)]

/-- Where a unit's moved codes start in it, and how long they are. -/
def Geo.moved (geo : Geo) : ℕ × ℕ :=
  if geo.layout = LAYOUT_PLANES then geo.planesParts else (0, geo.blockBytes)

theorem Geo.moved_le (hg : geo.Valid) : geo.moved.1 + geo.moved.2 ≤ geo.blockBytes := by
  rw [Geo.moved]
  split
  · rename_i hl
    rw [Geo.planesParts, Geo.blockBytes, geo.rowBytes_eq, planesGeom_eq (hg.planesBits hl) hg.dim_mod]
    have := hg.dim_mod
    rcases hg.planesBits hl with h | h <;> rw [h] <;> simp only [codesPerByte, BLOCK] <;> omega
  · simp

/-- The buffers after `k` of an image's units. -/
structure GatheredTo (img : ParsedImage) (raw : List UInt8) (k : ℕ) (st : Gathered) : Prop where
  buf : Compacted raw img.geo img.geo.moved.1 img.geo.moved.2 k st.buf
  sign : st.sign = if img.geo.layout = LAYOUT_PLANES then
      ((List.range k).flatMap fun b => bytesAt raw (img.geo.unitAt b) img.geo.planesParts.1) ++
        List.replicate (((img.nVectors + 31) / 32 - k) * img.geo.planesParts.1) 0
    else []
  scales : st.scales = (List.range (k * BLOCK)).map fun v =>
    (unitRows img.geo raw (img.nVectors / BLOCK) v).scale
  ids : st.ids = if img.geo.kind = 1 then (List.range (k * BLOCK)).map fun v =>
    (unitRows img.geo raw (img.nVectors / BLOCK) v).id else []

variable {img : ParsedImage}

theorem gatheredTo_zero : GatheredTo img raw 0 (img.start raw) := by
  refine ⟨compacted_zero, ?_, by simp [ParsedImage.start], by simp [ParsedImage.start]⟩
  simp [ParsedImage.start]

theorem map_range_blocks {α : Type} (k : ℕ) (f : ℕ → α) :
    ((List.range ((k + 1) * BLOCK)).map f) =
      ((List.range (k * BLOCK)).map f) ++ (List.range BLOCK).map fun lane => f (k * BLOCK + lane) := by
  rw [Nat.add_mul, Nat.one_mul, List.range_add, List.map_append, List.map_map]
  rfl

/-- The buffers after one more unit. -/
def gathered (geo : Geo) (st : Gathered) (b : ℕ) : Gathered where
  buf := copyWithin st.buf (geo.unitAt b + geo.moved.1) geo.moved.2 (b * geo.moved.2)
  sign := if geo.layout = LAYOUT_PLANES then
    overwrite st.sign (b * geo.planesParts.1) (bytesAt st.buf (geo.unitAt b) geo.planesParts.1)
    else st.sign
  scales := st.scales ++ (List.range BLOCK).map fun lane =>
    scaleAt st.buf (geo.unitAt b + geo.blockBytes + lane * 4)
  ids := st.ids ++ if geo.kind = 1 then (List.range BLOCK).map fun lane =>
    idAt st.buf (geo.unitAt b + geo.blockBytes + BLOCK * 4 + lane * 8) else []

theorem gatherUnit_ok {st r : Gathered} {b : ℕ} (h : geo.unitAt b + geo.unitLen ≤ st.buf.length) :
    gatherUnit geo st b = .ok r ↔ (∀ lane < BLOCK, validScale
      (scaleAt st.buf (geo.unitAt b + geo.blockBytes + lane * 4)) = true) ∧ r = gathered geo st b := by
  simp only [gatherUnit, bind_eq_ok, reject_eq_ok, exists_and_left, pure, Except.pure,
    Except.ok.injEq, decide_eq_false_iff_not, not_lt, h, true_and, exists_const,
    Bool.not_eq_false', List.all_eq_true, List.mem_map, List.mem_range, forall_exists_index, and_imp,
    forall_apply_eq_imp_iff₂]
  refine and_congr_right fun _ => ?_
  rw [eq_comm]
  by_cases hl : geo.layout = LAYOUT_PLANES
  · simp [gathered, Geo.moved, hl]
  · simp [gathered, Geo.moved, hl]

/-- The sign bytes go into their block of the sign region. -/
theorem overwrite_blocks {piece : ℕ → List UInt8} {d total k : ℕ} (hk : k < total)
    (hp : ∀ b < k + 1, (piece b).length = d) :
    overwrite (((List.range k).flatMap piece) ++ List.replicate ((total - k) * d) 0) (k * d) (piece k) =
      ((List.range (k + 1)).flatMap piece) ++ List.replicate ((total - (k + 1)) * d) 0 := by
  have hlen : ((List.range k).flatMap piece).length = k * d :=
    length_flatMap_range fun b hb => hp b (by omega)
  have hsplit : (total - k) * d = d + (total - (k + 1)) * d := by
    rw [show total - k = 1 + (total - (k + 1)) by omega, Nat.add_mul, Nat.one_mul]
  rw [overwrite, List.take_left' hlen, hp k (by omega), ← List.drop_drop, List.drop_left' hlen,
    List.drop_replicate, hsplit, Nat.add_sub_cancel_left, List.range_succ, List.flatMap_append,
    List.flatMap_singleton]

/-- The next unit is taken exactly when its scales are. -/
theorem gatherUnit_spec (hg : img.geo.Valid) {k : ℕ} {st : Gathered} (hk : k < img.nVectors / BLOCK)
    (hfit : img.geo.unitAt (img.nVectors / BLOCK) ≤ raw.length) (h : GatheredTo img raw k st) :
    ∃ st', GatheredTo img raw (k + 1) st' ∧ ∀ r, gatherUnit img.geo st k = .ok r ↔
      (∀ lane < BLOCK, validScale
        (unitRows img.geo raw (img.nVectors / BLOCK) (k * BLOCK + lane)).scale = true) ∧ r = st' := by
  have hunit : img.geo.unitAt k + img.geo.unitLen ≤ raw.length :=
    (img.geo.unitAt_add_le hk).trans hfit
  have hpos := @mul_le_unitAt img.geo _ _ (Geo.moved_le hg) k
  have hlane (lane : ℕ) (hl : lane < BLOCK) :
      unitRows img.geo raw (img.nVectors / BLOCK) (k * BLOCK + lane) =
        unitRow img.geo (bytesAt raw (img.geo.unitAt k) img.geo.unitLen) lane := by
    rw [unitRows, if_pos (mul_add_lt hk hl), mul_add_div hl, mul_add_mod hl]
  have hread (off m : ℕ) (hoff : off + m ≤ img.geo.unitLen) :
      bytesAt st.buf (img.geo.unitAt k + off) m =
        bytesAt (bytesAt raw (img.geo.unitAt k) img.geo.unitLen) off m := by
    rw [bytesAt_bytesAt _ hoff]
    exact bytesAt_congr fun i hi => h.buf.back i (by omega)
  have hscale (lane : ℕ) (hl : lane < BLOCK) :
      scaleAt st.buf (img.geo.unitAt k + img.geo.blockBytes + lane * 4) =
        (unitRows img.geo raw (img.nVectors / BLOCK) (k * BLOCK + lane)).scale := by
    have hfits : img.geo.blockBytes + lane * 4 + 4 ≤ img.geo.unitLen := by
      simp only [Geo.blockBytes, Geo.unitLen]
      omega
    rw [hlane lane hl, unitRow, scaleAt, scaleAt, Nat.add_assoc, hread _ _ hfits]
  refine ⟨gathered img.geo st k, ⟨compacted_succ (Geo.moved_le hg) hunit h.buf, ?_, ?_, ?_⟩,
    fun r => ?_⟩
  · simp only [gathered]
    split
    · rename_i hl
      have hsb : img.geo.planesParts.1 ≤ img.geo.unitLen := by
        have := Geo.moved_le hg
        simp only [Geo.moved, hl, if_true, Geo.blockBytes] at this
        simp only [Geo.unitLen]
        omega
      have hpiece : bytesAt st.buf (img.geo.unitAt k) img.geo.planesParts.1 =
          bytesAt raw (img.geo.unitAt k) img.geo.planesParts.1 :=
        bytesAt_congr fun i hi => h.buf.back i (by omega)
      have hblock : k < (img.nVectors + 31) / 32 := by
        simp only [BLOCK] at hk
        omega
      rw [h.sign, if_pos hl, hpiece]
      refine @overwrite_blocks (fun b => bytesAt raw (img.geo.unitAt b) img.geo.planesParts.1) _ _ _
        hblock fun b hb => length_bytesAt ?_
      have := img.geo.unitAt_mono (show b ≤ k by omega)
      omega
    · rename_i hl
      rw [h.sign, if_neg hl]
  · simp only [gathered, h.scales, map_range_blocks]
    exact congrArg _ (List.map_congr_left fun lane hl => hscale lane (List.mem_range.mp hl))
  · simp only [gathered, h.ids]
    split
    · rename_i hkind
      rw [map_range_blocks]
      refine congrArg _ (List.map_congr_left fun lane hl => ?_)
      have hl' := List.mem_range.mp hl
      have hfits : img.geo.blockBytes + (BLOCK * 4 + lane * 8) + 8 ≤ img.geo.unitLen := by
        simp only [Geo.blockBytes, Geo.unitLen, Geo.idBytes, hkind, if_true]
        omega
      rw [hlane lane hl', unitRow, if_pos hkind, idAt, idAt,
        show img.geo.unitAt k + img.geo.blockBytes + BLOCK * 4 + lane * 8 =
          img.geo.unitAt k + (img.geo.blockBytes + (BLOCK * 4 + lane * 8)) by omega,
        hread _ _ hfits, Nat.add_assoc]
    · rfl
  · rw [gatherUnit_ok (by rw [h.buf.length_eq]; exact hunit)]
    refine and_congr_left fun _ => forall_congr' fun lane => forall_congr' fun hl => ?_
    rw [hscale lane hl]

/-- All the units are taken exactly when all their scales are. -/
theorem gatherUnits_spec (hg : img.geo.Valid)
    (hfit : img.geo.unitAt (img.nVectors / BLOCK) ≤ raw.length) {k : ℕ}
    (hk : k ≤ img.nVectors / BLOCK) :
    ∃ st, GatheredTo img raw k st ∧
      ∀ r, (List.range k).foldlM (gatherUnit img.geo) (img.start raw) = .ok r ↔
        (∀ v < k * BLOCK, validScale
          (unitRows img.geo raw (img.nVectors / BLOCK) v).scale = true) ∧ r = st := by
  induction k with
  | zero =>
    refine ⟨img.start raw, gatheredTo_zero, fun r => ?_⟩
    rw [List.range_zero, List.foldlM_nil, Nat.zero_mul]
    constructor
    · intro h
      exact ⟨fun v hv => absurd hv (Nat.not_lt_zero v), (Except.ok.inj h).symm⟩
    · rintro ⟨-, rfl⟩
      rfl
  | succ k ih =>
    obtain ⟨st, hst, hrun⟩ := ih (by omega)
    obtain ⟨st', hst', hstep⟩ := gatherUnit_spec hg (by omega) hfit hst
    refine ⟨st', hst', fun r => ?_⟩
    rw [List.range_succ, List.foldlM_append, bind_eq_ok]
    simp only [hrun, List.foldlM_cons, List.foldlM_nil, bind_pure]
    constructor
    · rintro ⟨a, ⟨hv, rfl⟩, hr⟩
      obtain ⟨hl, rfl⟩ := (hstep r).mp hr
      refine ⟨fun v hvk => ?_, rfl⟩
      by_cases hvk' : v < k * BLOCK
      · exact hv v hvk'
      · have := hl (v - k * BLOCK) (by rw [Nat.add_mul, Nat.one_mul] at hvk; omega)
        rwa [Nat.add_sub_cancel' (by omega)] at this
    · rintro ⟨hv, rfl⟩
      refine ⟨st, ⟨fun v hvk => hv v (by rw [Nat.add_mul, Nat.one_mul]; omega), rfl⟩,
        (hstep _).mpr ⟨fun lane hl => hv _ ?_, rfl⟩⟩
      rw [Nat.add_mul, Nat.one_mul]
      omega

end Gather

/-! ## The rows written over them -/

section Records

variable {T : Tables} {raw : List UInt8} {img : ParsedImage}

/-- The buffers hold the codes of the rows `rows`. -/
def Holding (img : ParsedImage) (rows : ℕ → Row) (st : Gathered) : Prop :=
  if img.geo.layout = LAYOUT_PLANES then
    CanonicalHold img.geo.bitWidth img.geo.dim img.nVectors
      (fun v => packRow img.geo.bitWidth img.geo.dim (rows v).codes) st.sign st.buf
  else SeqHold img.geo.rowBytes img.nVectors (fun v g => entry (rows v).codes g) st.buf ∧ st.sign = []

theorem holding_putRow (hg : img.geo.Valid) {rows : ℕ → Row} {st : Gathered}
    (h : Holding img rows st) {v : ℕ} (hv : v < img.nVectors) (row : Row) :
    Holding img (Function.update rows v row) (putRow img.geo st v row.codes) := by
  rw [Holding] at h ⊢
  rw [putRow]
  by_cases hl : img.geo.layout = LAYOUT_PLANES
  · simp only [hl, if_true] at h ⊢
    have hw := h.writeRow (hg.planesBits hl) hg.dim_mod (fun _ _ => length_packRow _ _ _) hv row.codes
    rw [← img.geo.rowBytes_eq] at hw
    convert hw using 2 with w
    by_cases hwv : w = v
    · rw [hwv, Function.update_self, if_pos rfl]
    · rw [Function.update_of_ne hwv, if_neg hwv]
  · simp only [hl, if_false] at h ⊢
    simp only [Geo.blockBytes, BLOCK, Nat.mul_comm 32 img.geo.rowBytes]
    refine ⟨(h.1.writeRow hv row.codes).congr fun w _ g _ => ?_, h.2⟩
    by_cases hwv : w = v
    · rw [hwv, Function.update_self, if_pos rfl]
    · rw [Function.update_of_ne hwv, if_neg hwv]

/-- The rows that the first `m` scales and ids are. -/
structure HoldingTo (img : ParsedImage) (rows : ℕ → Row) (m : ℕ) (st : Gathered) : Prop where
  codes : Holding img rows st
  scales : st.scales = (List.range m).map fun v => (rows v).scale
  ids : st.ids = if img.geo.kind = 1 then (List.range m).map fun v => (rows v).id else []

theorem set_map_range {α : Type} {m v : ℕ} (f : ℕ → α) (a : α) :
    ((List.range m).map f).set v a = (List.range m).map (Function.update f v a) := by
  refine List.ext_getElem? fun i => ?_
  by_cases hi : i < m
  · rw [List.getElem?_set, List.getElem?_map, List.getElem?_map, List.getElem?_range hi,
      Option.map_some, Option.map_some]
    by_cases hvi : v = i
    · subst hvi
      simp [hi]
    · rw [if_neg hvi, Function.update_of_ne (Ne.symm hvi)]
  · rw [List.getElem?_eq_none (by simp; omega), List.getElem?_eq_none (by simp; omega)]

theorem update_scale (rows : ℕ → Row) (v : ℕ) (row : Row) :
    (fun w => (Function.update rows v row w).scale) =
      Function.update (fun w => (rows w).scale) v row.scale :=
  funext fun w => Function.apply_update (fun _ r => Row.scale r) rows v row w

theorem update_id (rows : ℕ → Row) (v : ℕ) (row : Row) :
    (fun w => (Function.update rows v row w).id) = Function.update (fun w => (rows w).id) v row.id :=
  funext fun w => Function.apply_update (fun _ r => Row.id r) rows v row w

@[simp] theorem putRow_scales (geo : Geo) (st : Gathered) (v : ℕ) (codes : List UInt8) :
    (putRow geo st v codes).scales = st.scales := by
  rw [putRow]
  split <;> rfl

@[simp] theorem putRow_ids (geo : Geo) (st : Gathered) (v : ℕ) (codes : List UInt8) :
    (putRow geo st v codes).ids = st.ids := by
  rw [putRow]
  split <;> rfl

/-- A redo op is taken exactly when its scale is. -/
theorem applyOp_spec (hg : img.geo.Valid) {rows : ℕ → Row} {m : ℕ} {st : Gathered}
    (h : HoldingTo img rows m st) {op : ℕ × List UInt8} (hv : op.1 < img.nVectors) :
    ∃ st', HoldingTo img (Function.update rows op.1 (recRow img.geo op.2)) m st' ∧
      ∀ r, applyOp img.geo st op = .ok r ↔
        validScale (recRow img.geo op.2).scale = true ∧ r = st' := by
  refine ⟨{ putRow img.geo st op.1 (recRow img.geo op.2).codes with
    scales := st.scales.set op.1 (recRow img.geo op.2).scale
    ids := if img.geo.kind = 1 then st.ids.set op.1 (recRow img.geo op.2).id else st.ids },
    ⟨?_, ?_, ?_⟩, fun r => ?_⟩
  · exact holding_putRow hg h.codes hv _
  · simp only [h.scales, set_map_range, update_scale]
  · simp only [h.ids]
    split
    · rw [set_map_range, update_id]
    · rfl
  · simp only [applyOp, bind_eq_ok, reject_eq_ok, exists_and_left, exists_const, pure, Except.pure,
      Except.ok.injEq, Bool.not_eq_false', putRow_scales, putRow_ids, recRow]
    refine and_congr_right fun _ => ?_
    rw [eq_comm]
    by_cases hk : img.geo.kind = 1 <;> simp [hk]

/-- A tail row is taken exactly when its scale is. -/
theorem applyTail_spec (hg : img.geo.Valid) {rows : ℕ → Row} {st : Gathered} {row : ℕ × List UInt8}
    (h : HoldingTo img rows row.1 st) (hv : row.1 < img.nVectors) :
    ∃ st', HoldingTo img (Function.update rows row.1 (recRow img.geo row.2)) (row.1 + 1) st' ∧
      ∀ r, applyTail img.geo st row = .ok r ↔
        validScale (recRow img.geo row.2).scale = true ∧ r = st' := by
  have hpush {α : Type} (f : ℕ → α) (a : α) : (List.range row.1).map f ++ [a] =
      (List.range (row.1 + 1)).map (Function.update f row.1 a) := by
    rw [List.range_succ, List.map_append, List.map_singleton, Function.update_self]
    refine congrArg (· ++ [a]) (List.map_congr_left fun v hv => ?_)
    rw [Function.update_of_ne (List.mem_range.mp hv).ne]
  refine ⟨{ putRow img.geo st row.1 (recRow img.geo row.2).codes with
    scales := st.scales ++ [(recRow img.geo row.2).scale]
    ids := if img.geo.kind = 1 then st.ids ++ [(recRow img.geo row.2).id] else st.ids },
    ⟨?_, ?_, ?_⟩, fun r => ?_⟩
  · exact holding_putRow hg h.codes hv _
  · simp only [h.scales, hpush, update_scale]
  · simp only [h.ids]
    split
    · rw [hpush, update_id]
    · rfl
  · simp only [applyTail, bind_eq_ok, reject_eq_ok, exists_and_left, exists_const, pure, Except.pure,
      Except.ok.injEq, Bool.not_eq_false', putRow_scales, putRow_ids, recRow]
    refine and_congr_right fun _ => ?_
    rw [eq_comm]
    by_cases hk : img.geo.kind = 1 <;> simp [hk]

theorem applyOps_spec (hg : img.geo.Valid) {m : ℕ} (ops : List (ℕ × List UInt8)) {rows : ℕ → Row}
    {st : Gathered} (h : HoldingTo img rows m st) (hv : ∀ op ∈ ops, op.1 < img.nVectors) :
    ∃ st', HoldingTo img (writeRows img.geo rows ops) m st' ∧
      ∀ r, ops.foldlM (applyOp img.geo) st = .ok r ↔
        (∀ op ∈ ops, validScale (recRow img.geo op.2).scale = true) ∧ r = st' := by
  induction ops generalizing rows st with
  | nil =>
    refine ⟨st, h, fun r => ?_⟩
    rw [List.foldlM_nil]
    constructor
    · intro hr
      exact ⟨fun op hop => absurd hop List.not_mem_nil, (Except.ok.inj hr).symm⟩
    · rintro ⟨-, rfl⟩
      rfl
  | cons op ops ih =>
    obtain ⟨st', hst', hstep⟩ := applyOp_spec hg h (hv op List.mem_cons_self)
    obtain ⟨st'', hst'', hrun⟩ := ih hst' fun o ho => hv o (List.mem_cons_of_mem _ ho)
    refine ⟨st'', hst'', fun r => ?_⟩
    rw [List.foldlM_cons, bind_eq_ok, List.forall_mem_cons]
    constructor
    · rintro ⟨a, ha, hr⟩
      obtain ⟨hs, rfl⟩ := (hstep a).mp ha
      obtain ⟨hss, rfl⟩ := (hrun r).mp hr
      exact ⟨⟨hs, hss⟩, rfl⟩
    · rintro ⟨⟨hs, hss⟩, rfl⟩
      exact ⟨st', (hstep _).mpr ⟨hs, rfl⟩, (hrun _).mpr ⟨hss, rfl⟩⟩

/-- The tail rows follow the whole blocks one by one. -/
theorem applyTails_spec (hg : img.geo.Valid) (recOf : ℕ → List UInt8) {first : ℕ} {rows : ℕ → Row}
    {st : Gathered} (h : HoldingTo img rows first st) {k : ℕ} (hk : first + k ≤ img.nVectors) :
    ∃ st', HoldingTo img
        (writeRows img.geo rows ((List.range k).map fun i => (first + i, recOf i))) (first + k) st' ∧
      ∀ r, ((List.range k).map fun i => (first + i, recOf i)).foldlM (applyTail img.geo) st = .ok r ↔
        (∀ i < k, validScale (recRow img.geo (recOf i)).scale = true) ∧ r = st' := by
  induction k with
  | zero =>
    refine ⟨st, h, fun r => ?_⟩
    rw [List.range_zero, List.map_nil, List.foldlM_nil]
    constructor
    · intro hr
      exact ⟨fun i hi => absurd hi (Nat.not_lt_zero i), (Except.ok.inj hr).symm⟩
    · rintro ⟨-, rfl⟩
      rfl
  | succ k ih =>
    obtain ⟨st', hst', hrun⟩ := ih (by omega)
    obtain ⟨st'', hst'', hstep⟩ :=
      @applyTail_spec img hg _ st' (first + k, recOf k) hst' (show first + k < _ by omega)
    refine ⟨st'', ?_, fun r => ?_⟩
    · rw [List.range_succ, List.map_append, writeRows, List.foldl_append]
      exact hst''
    · rw [List.range_succ, List.map_append, List.foldlM_append, bind_eq_ok]
      simp only [hrun, List.map_cons, List.map_nil, List.foldlM_cons, List.foldlM_nil, bind_pure]
      constructor
      · rintro ⟨a, ⟨hv, rfl⟩, hr⟩
        obtain ⟨hl, rfl⟩ := (hstep r).mp hr
        refine ⟨fun i hi => ?_, rfl⟩
        rcases Nat.lt_succ_iff_lt_or_eq.mp hi with hi | rfl
        · exact hv i hi
        · exact hl
      · rintro ⟨hv, rfl⟩
        exact ⟨st', ⟨fun i hi => hv i (by omega), rfl⟩, (hstep _).mpr ⟨hv k (by omega), rfl⟩⟩

/-- The buffers between the units and the records. -/
def ParsedImage.spread (img : ParsedImage) (st : Gathered) : Gathered :=
  { st with buf := resize (st.buf.take img.keptPadded.1) img.keptPadded.2 }

theorem entry_bytesAt (l : List UInt8) (off : ℕ) {k i : ℕ} (hi : i < k) :
    entry (bytesAt l off k) i = entry l (off + i) :=
  entry_congr (getElem?_bytesAt l off hi)

/-- The gathered units are the units' rows, with zeros after the last whole block. -/
theorem holdingTo_spread (hg : img.geo.Valid) {st : Gathered}
    (hfit : img.geo.unitAt (img.nVectors / BLOCK) ≤ raw.length)
    (h : GatheredTo img raw (img.nVectors / BLOCK) st) :
    HoldingTo img (unitRows img.geo raw (img.nVectors / BLOCK)) (img.nVectors / BLOCK * BLOCK)
      (img.spread st) := by
  refine ⟨?_, h.scales, h.ids⟩
  have hunit {b : ℕ} (hb : b < img.nVectors / 32) :
      (bytesAt raw (img.geo.unitAt b) img.geo.unitLen).length = img.geo.unitLen :=
    length_bytesAt ((img.geo.unitAt_add_le hb).trans hfit)
  have hblock : img.geo.blockBytes ≤ img.geo.unitLen := by
    simp only [Geo.blockBytes, Geo.unitLen]
    omega
  have hlane (v : ℕ) : v % 32 < 32 := Nat.mod_lt _ (by decide)
  rw [Holding]
  by_cases hl : img.geo.layout = LAYOUT_PLANES
  -- planes: the sign plane and the low rows are gathered apart, and each is padded to the whole index
  · have hb := hg.planesBits hl
    have hsize : 32 * (img.geo.bitWidth * (img.geo.dim / 8)) ≤ img.geo.blockBytes := by
      have := hg.dim_mod
      rw [Geo.blockBytes, img.geo.rowBytes_eq]
      rcases hb with h | h <;> rw [h] <;> simp only [codesPerByte, BLOCK] <;> omega
    have hsplit := @low_add_sign img.geo.bitWidth img.geo.dim hb
    have hparts : img.geo.planesParts =
        (img.geo.dim / 8 * 32, 32 * ((img.geo.bitWidth - 1) * (img.geo.dim / 8))) := by
      rw [Geo.planesParts, img.geo.rowBytes_eq, planesGeom_eq hb hg.dim_mod]
      rfl
    have hcan := @canonicalHold_of_pieces img.geo.bitWidth img.geo.dim img.nVectors hb
      (fun b => bytesAt raw (img.geo.unitAt b) img.geo.unitLen) fun b hbn => by
        rw [hunit hbn]
        exact hsize.trans hblock
    have hsize' : img.geo.dim / 8 * 32 + 32 * ((img.geo.bitWidth - 1) * (img.geo.dim / 8)) ≤
        img.geo.unitLen := by omega
    have hsign : st.sign = resize ((List.range (img.nVectors / 32)).flatMap fun b =>
        (bytesAt raw (img.geo.unitAt b) img.geo.unitLen).take (img.geo.dim / 8 * 32))
          ((img.nVectors + 31) / 32 * (img.geo.dim / 8 * 32)) := by
      simp only [take_bytesAt raw _ (show img.geo.dim / 8 * 32 ≤ img.geo.unitLen by omega)]
      have hlen := @length_flatMap_range _ (img.nVectors / 32) _
        (fun b => bytesAt raw (img.geo.unitAt b) (img.geo.dim / 8 * 32)) fun b hbn =>
          length_bytesAt (show _ ≤ raw.length from
            (Nat.add_le_add_left (show img.geo.dim / 8 * 32 ≤ img.geo.unitLen by omega) _).trans
              ((img.geo.unitAt_add_le hbn).trans hfit))
      have hle : img.nVectors / 32 * (img.geo.dim / 8 * 32) ≤
          (img.nVectors + 31) / 32 * (img.geo.dim / 8 * 32) := Nat.mul_le_mul_right _ (by omega)
      rw [h.sign, if_pos hl, hparts, resize, List.take_of_length_le (by omega), hlen, ← Nat.sub_mul]
      rfl
    have hbuf : (img.spread st).buf = resize ((List.range (img.nVectors / 32)).flatMap fun b =>
        ((bytesAt raw (img.geo.unitAt b) img.geo.unitLen).drop (img.geo.dim / 8 * 32)).take
          (32 * ((img.geo.bitWidth - 1) * (img.geo.dim / 8))))
          (img.nVectors * ((img.geo.bitWidth - 1) * (img.geo.dim / 8))) := by
      have hfront := h.buf.front
      simp only [Geo.moved, hl, if_true, hparts] at hfront
      simp only [ParsedImage.spread, ParsedImage.keptPadded, hl, if_true, hparts, hfront,
        img.geo.rowBytes_eq, planesGeom_eq hb hg.dim_mod]
      exact congrArg (resize · _) (List.flatMap_congr fun b _ => (bytesAt_bytesAt raw hsize').symm)
    rw [if_pos hl, hbuf, show (img.spread st).sign = st.sign from rfl, hsign]
    refine hcan.congr fun v hv => ?_
    by_cases hv : v < img.nVectors / 32 * 32
    · have hrow : (planesUnitRow img.geo.bitWidth img.geo.dim
          (bytesAt raw (img.geo.unitAt (v / 32)) img.geo.unitLen) (v % 32)).length =
            img.geo.bitWidth * (img.geo.dim / 8) :=
        length_planesUnitRow hb (hlane v) (by rw [hunit (by omega)]; exact hsize.trans hblock)
      rw [if_pos hv, unitRows_of_lt _ _ (show v < img.nVectors / BLOCK * BLOCK from hv), unitRow,
        unitCodeRow, if_pos hl]
      exact (packRow_extractRow hg.bits hg.dim_mod hrow).symm
    · rw [if_neg hv, unitRows_of_le _ _ (show ¬ v < img.nVectors / BLOCK * BLOCK from hv),
        packRow_replicate_zero hg.bits]
  -- otherwise a unit's front is its block, one after the other
  · have hcodes := @seqHold_of_pieces img.geo.rowBytes img.nVectors
      (fun b => bytesAt raw (img.geo.unitAt b) img.geo.blockBytes) fun b hbn => by
        rw [length_bytesAt (((Nat.add_le_add_left hblock _).trans (img.geo.unitAt_add_le hbn)).trans
          hfit), Geo.blockBytes, BLOCK, Nat.mul_comm]
    have hbuf : (img.spread st).buf = resize ((List.range (img.nVectors / 32)).flatMap fun b =>
        bytesAt raw (img.geo.unitAt b) img.geo.blockBytes)
          ((img.nVectors + 31) / 32 * (img.geo.rowBytes * 32)) := by
      have hfront := h.buf.front
      simp only [Geo.moved, hl, if_false] at hfront
      simp only [ParsedImage.spread, ParsedImage.keptPadded, hl, if_false, hfront, Nat.add_zero]
      simp only [Geo.blockBytes, BLOCK, Nat.mul_comm 32 img.geo.rowBytes]
    rw [if_neg hl, hbuf, show (img.spread st).sign = st.sign from rfl, h.sign, if_neg hl]
    refine ⟨hcodes.congr fun v hv g hgl => ?_, rfl⟩
    by_cases hv : v < img.nVectors / 32 * 32
    · have hoff : g * BLOCK + v % BLOCK < img.geo.blockBytes := by
        rw [Geo.blockBytes, Nat.mul_comm BLOCK]
        exact mul_add_lt hgl (hlane v)
      rw [if_pos hv, unitRows_of_lt _ _ (show v < img.nVectors / BLOCK * BLOCK from hv), unitRow,
        unitCodeRow, if_neg hl, entry_seqLane _ _ hgl, entry_bytesAt raw _ (hoff.trans_le hblock)]
      exact entry_bytesAt raw _ hoff
    · rw [if_neg hv, unitRows_of_le _ _ (show ¬ v < img.nVectors / BLOCK * BLOCK from hv),
        entry_replicate_zero]

theorem foldlM_ops {m : Type → Type} [Monad m] [LawfulMonad m] {σ α β : Type} (f : σ → α → m σ)
    (gs : List (β × List α)) (s : σ) :
    gs.foldlM (fun s g => g.2.foldlM f s) s = (gs.flatMap Prod.snd).foldlM f s := by
  induction gs generalizing s with
  | nil => rfl
  | cons g gs ih =>
    rw [List.foldlM_cons, List.flatMap_cons, List.foldlM_append]
    exact congrArg _ (funext fun s' => ih s')

/-- A load of an accepted image succeeds exactly when its scales are taken, with its rows. -/
theorem loadImage_spec {expectCalibGen expectKind : ℕ} (h : parseImage T raw expectKind = .ok img) :
    ∃ l, Loaded img (img.rows raw) expectCalibGen l ∧
      ∀ r, loadImage T raw expectCalibGen expectKind = .ok r ↔ ScalesOk img raw ∧ r = l := by
  obtain ⟨hv, -, hfit⟩ := parseImage_ok h
  obtain ⟨st, hst, hunits⟩ := gatherUnits_spec hv.geo hfit (Nat.le_refl _)
  have hblocks : img.nVectors / BLOCK * BLOCK + img.nVectors % BLOCK = img.nVectors :=
    Nat.div_add_mod' _ _
  obtain ⟨st', hst', hops⟩ := applyOps_spec hv.geo img.flatOps (holdingTo_spread hv.geo hfit hst)
    fun op hop => by
      obtain ⟨g, hg, hop⟩ := List.mem_flatMap.mp hop
      obtain ⟨hlt, hslots⟩ := hv.ops g hg
      have hslot := (hslots op hop).1
      have hlt' : op.1 / BLOCK < img.nVectors / BLOCK := hslot ▸ hlt
      simp only [BLOCK] at hlt'
      omega
  obtain ⟨st'', hst'', htail⟩ := applyTails_spec hv.geo
    (fun k => rowAt img.tail img.geo.recLen k) hst' hblocks.le
  rw [hblocks] at hst''
  have hrows : writeRows img.geo (writeRows img.geo (unitRows img.geo raw (img.nVectors / BLOCK))
      img.flatOps) img.tailRows = img.rows raw := by
    rw [ParsedImage.rows, writeRows, writeRows, writeRows, List.foldl_append]
  have hload : Holding img (img.rows raw) st'' := hrows ▸ hst''.codes
  refine ⟨⟨img.geo.dim, img.geo.bitWidth, img.nVectors, img.geo.layout,
    if img.geo.layout = LAYOUT_PLANES then [] else st''.buf, st''.sign,
    if img.geo.layout = LAYOUT_PLANES then st''.buf else [], st''.scales, st''.ids, img.tqplusShift,
    img.tqplusScale, ⟨img.gen, img.nVectors, expectCalibGen, img.nonce⟩, img.pendingSlots⟩,
    ⟨rfl, rfl, rfl, rfl, rfl, rfl, rfl, rfl, hrows ▸ hst''.scales, hrows ▸ hst''.ids, fun hl => ?_,
      fun hl => ?_⟩, fun r => ?_⟩
  · rw [Holding, if_neg hl] at hload
    simp only [hl, if_false]
    exact ⟨hload.1, hload.2, trivial⟩
  · rw [Holding, if_pos hl] at hload
    simp only [hl, if_true]
    exact ⟨hload, trivial⟩
  · simp only [loadImage, bind_eq_ok, h, Except.ok.injEq, exists_eq_left', foldlM_ops, pure,
      Except.pure]
    constructor
    · rintro ⟨a, ha, b, hb, c, hc, rfl⟩
      obtain ⟨hs1, rfl⟩ := (hunits a).mp ha
      obtain ⟨hs2, rfl⟩ := (hops b).mp hb
      obtain ⟨hs3, rfl⟩ := (htail c).mp hc
      refine ⟨⟨hs1, fun r hr => ?_⟩, by simp⟩
      rcases List.mem_append.mp hr with hr | hr
      · exact hs2 r hr
      · obtain ⟨k, hk, rfl⟩ := List.mem_map.mp hr
        exact hs3 k (List.mem_range.mp hk)
    · rintro ⟨hs, rfl⟩
      refine ⟨st, (hunits st).mpr ⟨hs.units, rfl⟩, st', (hops st').mpr
        ⟨fun op hop => hs.recs op (List.mem_append_left _ hop), rfl⟩, st'', (htail st'').mpr
        ⟨fun k hk => hs.recs (img.nVectors / BLOCK * BLOCK + k, rowAt img.tail img.geo.recLen k)
          (List.mem_append_right _ (List.mem_map.mpr ⟨k, List.mem_range.mpr hk, rfl⟩)), rfl⟩, by simp⟩

/-- What a load that succeeds returns. -/
theorem loadImage_ok {expectCalibGen expectKind : ℕ} {l : V7Load}
    (h : loadImage T raw expectCalibGen expectKind = .ok l) :
    ∃ img, parseImage T raw expectKind = .ok img ∧ ScalesOk img raw ∧
      Loaded img (img.rows raw) expectCalibGen l := by
  have hparse := h
  rw [loadImage, bind_eq_ok] at hparse
  obtain ⟨img, himg, -⟩ := hparse
  obtain ⟨l', hl', hrun⟩ := @loadImage_spec T raw img expectCalibGen expectKind himg
  obtain ⟨hs, rfl⟩ := (hrun l).mp h
  exact ⟨img, himg, hs, hl'⟩

end Records

end Turbovec.IoV7
