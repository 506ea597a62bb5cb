import Turbovec.IoV7.Checked
import Turbovec.IoV7.RoundTrip

/-!
# The loader never panics

Each checked function refines its total form: on an accepted geometry every offset is far below a
machine word, every header field is read where its bytes are, and every store of the gather, the redo
ops and the tail lies inside the buffer the geometry sized.
-/

namespace Turbovec.IoV7.Checked

open LittleEndian Slice Grid Pack Panic Panic.Run

/-! ## Geometry -/

section Geometry

variable {ε : Type} {geo : Geo}

theorem rowBytes_le_of (hlo : 2 ≤ geo.bitWidth) (hhi : geo.bitWidth ≤ 4) (hd : geo.dim ≤ MAX_DIM) :
    geo.rowBytes ≤ 8192 := by
  rw [geo.rowBytes_eq, codesPerByte]
  simp only [MAX_DIM] at hd
  have hb : geo.bitWidth = 2 ∨ geo.bitWidth = 3 ∨ geo.bitWidth = 4 := by omega
  rcases hb with h | h | h <;> rw [h] <;> omega

theorem rowBytes_le (hg : geo.Valid) : geo.rowBytes ≤ 8192 :=
  rowBytes_le_of hg.bits_ge hg.bits_le hg.dim_le

theorem idBytes_le (geo : Geo) (rows : ℕ) : geo.idBytes rows ≤ rows * 8 := by
  rw [Geo.idBytes]
  split <;> omega

theorem recLen_le (hg : geo.Valid) : geo.recLen ≤ 8204 := by
  have := rowBytes_le hg
  have := idBytes_le geo 1
  rw [Geo.recLen]
  omega

theorem unitLen_le (hg : geo.Valid) : geo.unitLen ≤ 2 ^ 19 := by
  have := rowBytes_le hg
  have := idBytes_le geo BLOCK
  rw [Geo.unitLen]
  simp only [BLOCK] at *
  omega

theorem hdrLen_le (hg : geo.Valid) : geo.hdrLen ≤ 2 ^ 24 := by
  have := rowBytes_le hg
  have := idBytes_le geo 1
  simp only [Geo.hdrLen, Geo.opSize, MAX_OPS]
  omega

theorem nLevels_le (hg : geo.Valid) : geo.nLevels ≤ 16 :=
  Nat.pow_le_pow_right (by decide) hg.bits_le

theorem sbLen_le (hg : geo.Valid) : geo.sbLen ≤ 2 ^ 18 := by
  have hd := hg.dim_le
  have hn := nLevels_le hg
  have hs : geo.sbFixed ≤ 24 := by
    rw [Geo.sbFixed]
    split <;> omega
  have hc : geo.nCalib ≤ geo.dim := by rcases hg.nCalib with h | h <;> omega
  simp only [MAX_DIM] at hd
  rw [Geo.sbLen]
  omega

theorem hdrAt_le (hg : geo.Valid) {slot : ℕ} (hs : slot ≤ 2) : geo.hdrAt slot ≤ 2 ^ 26 := by
  have h1 := sbLen_le hg
  have h2 := Nat.mul_le_mul hs (hdrLen_le hg)
  rw [Geo.hdrAt]
  omega

theorem unitAt_le (hg : geo.Valid) (b : ℕ) : geo.unitAt b ≤ 2 ^ 26 + b * 2 ^ 19 := by
  have h1 := hdrAt_le hg (Nat.le_refl 2)
  have h2 := Nat.mul_le_mul_left b (unitLen_le hg)
  rw [Geo.unitAt]
  omega

theorem blockedGeometry_ok {nVectors bits dim : ℕ} (hb : 2 ≤ bits) (hb' : bits ≤ 8)
    (hn : nVectors + BLOCK < USIZE)
    (hlen : (Pack.blockedGeometry nVectors bits dim).2.2 < USIZE) :
    (blockedGeometry nVectors bits dim : Run ε _) = ok (Pack.blockedGeometry nVectors bits dim) := by
  have hc : 8 / bits ≠ 0 := (Nat.div_pos hb' (by omega)).ne'
  have hrows : (nVectors + BLOCK - 1) / BLOCK * (dim / (8 / bits)) ≤
      (nVectors + BLOCK - 1) / BLOCK * (dim / (8 / bits)) * BLOCK := Nat.le_mul_of_pos_right _ (by decide)
  simp only [Pack.blockedGeometry, codesPerByte] at hlen
  rw [blockedGeometry, udiv_ok (by omega), ok_bind, udiv_ok hc, ok_bind, usize_ok hn, ok_bind,
    usub_ok (by simp only [BLOCK]; omega), ok_bind, udiv_ok (by decide), ok_bind,
    usize_ok (by omega), ok_bind, usize_ok hlen]
  rfl

theorem rowBytes_ok_of (hlo : 2 ≤ geo.bitWidth) (hhi : geo.bitWidth ≤ 4) (hd : geo.dim ≤ MAX_DIM) :
    (rowBytes geo : Run ε ℕ) = ok geo.rowBytes := by
  have hr := rowBytes_le_of hlo hhi hd
  have h1 : (1 + BLOCK - 1) / BLOCK = 1 := rfl
  rw [rowBytes, blockedGeometry_ok hlo (by omega) (by decide)]
  · rfl
  · simp only [Geo.rowBytes, Pack.blockedGeometry] at hr ⊢
    rw [h1, Nat.one_mul]
    simp only [BLOCK, USIZE]
    omega

theorem rowBytes_ok (hg : geo.Valid) : (rowBytes geo : Run ε ℕ) = ok geo.rowBytes :=
  rowBytes_ok_of hg.bits_ge hg.bits_le hg.dim_le

theorem idBytes_ok {rows : ℕ} (h : rows ≤ BLOCK) :
    (idBytes geo rows : Run ε ℕ) = ok (geo.idBytes rows) := by
  rw [idBytes, Geo.idBytes]
  split
  · exact usize_ok (by simp only [BLOCK] at h; simp only [USIZE]; omega)
  · rfl

theorem recLen_ok (hg : geo.Valid) : (recLen geo : Run ε ℕ) = ok geo.recLen := by
  have := recLen_le hg
  rw [recLen, rowBytes_ok hg, ok_bind, idBytes_ok (by decide), ok_bind, ← Geo.recLen]
  exact usize_ok (by simp only [USIZE]; omega)

theorem opSize_ok (hg : geo.Valid) : (opSize geo : Run ε ℕ) = ok geo.opSize := by
  have := recLen_le hg
  rw [opSize, rowBytes_ok hg, ok_bind, idBytes_ok (by decide), ok_bind, ← Geo.opSize]
  exact usize_ok (by rw [geo.opSize_eq]; simp only [USIZE]; omega)

theorem sbLen_ok (hg : geo.Valid) : (sbLen geo : Run ε ℕ) = ok geo.sbLen := by
  have hs := sbLen_le hg
  have hb := hg.bits_le
  have hassert : (assert (decide (geo.bitWidth < 64)) : Run ε Unit) = ok () :=
    if_pos (decide_eq_true (by omega))
  have hn : (nLevels geo : Run ε ℕ) = ok geo.nLevels := by
    rw [nLevels, hassert]
    rfl
  rw [sbLen, hn, ok_bind, usub_ok (show 1 ≤ geo.nLevels from Nat.pow_pos (by decide)), ok_bind,
    ← Geo.sbLen]
  exact usize_ok (by simp only [USIZE]; omega)

theorem hdrLen_ok (hg : geo.Valid) : (hdrLen geo : Run ε ℕ) = ok geo.hdrLen := by
  have := hdrLen_le hg
  rw [hdrLen, recLen_ok hg, ok_bind, opSize_ok hg, ok_bind]
  simp only [Geo.recLen]
  rw [← Geo.hdrLen]
  exact usize_ok (by simp only [USIZE]; omega)

theorem hdrAt_ok (hg : geo.Valid) {slot : ℕ} (hs : slot ≤ 2) :
    (hdrAt geo slot : Run ε ℕ) = ok (geo.hdrAt slot) := by
  have := hdrAt_le hg hs
  rw [hdrAt, sbLen_ok hg, ok_bind, hdrLen_ok hg, ok_bind, ← Geo.hdrAt]
  exact usize_ok (by simp only [USIZE]; omega)

theorem unitLen_ok (hg : geo.Valid) : (unitLen geo : Run ε ℕ) = ok geo.unitLen := by
  have := unitLen_le hg
  rw [unitLen, rowBytes_ok hg, ok_bind, idBytes_ok (Nat.le_refl _), ok_bind, ← Geo.unitLen]
  exact usize_ok (by simp only [USIZE]; omega)

theorem unitAt_ok (hg : geo.Valid) {b : ℕ} (h : geo.unitAt b < USIZE) :
    (unitAt geo b : Run ε ℕ) = ok (geo.unitAt b) := by
  rw [unitAt, hdrAt_ok hg (Nat.le_refl 2), ok_bind, unitLen_ok hg, ok_bind, ← Geo.unitAt]
  exact usize_ok h

theorem blockBytes_ok (hg : geo.Valid) : (usize (BLOCK * geo.rowBytes) : Run ε ℕ) = ok geo.blockBytes := by
  have := rowBytes_le hg
  exact usize_ok (by simp only [BLOCK, USIZE]; omega)

theorem planesGeom_ok {bits nByteGroups : ℕ} (hb : PlanesBits bits) (hn : nByteGroups ≤ 8192) :
    (planesGeom bits nByteGroups : Run ε _) = ok (Pack.planesGeom bits nByteGroups) := by
  have hpos : bits ≠ 0 ∧ 1 ≤ bits ∧ bits ≤ 4 := by rcases hb with rfl | rfl <;> decide
  have hmul : (bits - 1) * (nByteGroups / bits) ≤ 3 * 8192 :=
    Nat.mul_le_mul (by omega) ((Nat.div_le_self _ _).trans hn)
  rw [planesGeom, udiv_ok hpos.1, ok_bind, usub_ok hpos.2.1, ok_bind,
    usize_ok (by simp only [USIZE]; omega)]
  rfl

end Geometry

/-! ## Checksums -/

section Checksums

variable {ε : Type}

theorem crc32_ok {data : List UInt8} (h : data.length ≤ ISIZE_MAX) :
    (crc32 data : Run ε UInt32) = ok (IoV7.crc32 data) := by
  have hlt : data.length < USIZE := h.trans_lt (by decide)
  rw [crc32, IoV7.crc32]
  split
  · rfl
  · have hrest : (data.drop (data.length / 3)).take (data.length - data.length / 3) =
        data.drop (data.length / 3) := List.take_of_length_le (by rw [List.length_drop])
    have hlen : (data.drop (data.length / 3)).length = data.length - data.length / 3 := List.length_drop
    have hlast : ((data.drop (data.length / 3)).drop (data.length / 3)).take
        ((data.drop (data.length / 3)).length - data.length / 3) = data.drop (data.length / 3 * 2) := by
      rw [List.drop_drop, hlen, List.take_of_length_le (by rw [List.length_drop]; omega),
        show data.length / 3 + data.length / 3 = data.length / 3 * 2 by omega]
    simp only [bind_pure_comp, ok_bind, udiv_ok (show (3 : ℕ) ≠ 0 by decide)]
    rw [slice_ok hlt (by omega), ok_bind, usub_ok (by omega), ok_bind, slice_ok hlt (by omega), ok_bind,
      hrest, slice_ok (by omega) (by omega), ok_bind, usub_ok (by omega), ok_bind,
      slice_ok (by omega) (by omega), hlast]
    rfl

theorem taken_le (s1 s2 : ℕ) (d : DeltaDigest) (data : List UInt8) :
    DeltaDigest.taken s1 s2 d data ≤ data.length := by
  rw [DeltaDigest.taken]
  split
  · exact Nat.min_le_left _ _
  · split
    · exact Nat.min_le_left _ _
    · exact Nat.le_refl _

theorem at_pushRuns (s1 s2 : ℕ) (d : DeltaDigest) (data : List UInt8) :
    (DeltaDigest.pushRuns s1 s2 d data).at_ = d.at_ + data.length ∧
      (DeltaDigest.pushRuns s1 s2 d data).split = d.split := by
  induction d, data using DeltaDigest.pushRuns.induct s1 s2 with
  | case1 d => simp [DeltaDigest.pushRuns]
  | case2 d data hne ih =>
    have htaken := taken_le s1 s2 d data
    rw [DeltaDigest.pushRuns, dif_neg hne, ih.1, ih.2]
    simp only [DeltaDigest.route, List.length_take, List.length_drop]
    exact ⟨by omega, trivial⟩

theorem at_push (d : DeltaDigest) (data : List UInt8) : (d.push data).at_ = d.at_ + data.length := by
  rw [DeltaDigest.push]
  split
  · rfl
  · exact (at_pushRuns _ _ d data).1

theorem pushRuns_ok {s1 s2 : ℕ} {d : DeltaDigest} {data : List UInt8}
    (h : d.at_ + data.length < USIZE) :
    (pushRuns s1 s2 d data : Run ε _) = ok (DeltaDigest.pushRuns s1 s2 d data) := by
  induction d, data using DeltaDigest.pushRuns.induct s1 s2 with
  | case1 d =>
    rw [pushRuns, DeltaDigest.pushRuns]
    rfl
  | case2 d data hne ih =>
    have htaken := taken_le s1 s2 d data
    rw [pushRuns, dif_neg hne, DeltaDigest.pushRuns, dif_neg hne, usize_ok (by omega), ok_bind]
    refine ih ?_
    simp only [DeltaDigest.route, List.length_take, List.length_drop]
    omega

theorem push_ok {d : DeltaDigest} {data : List UInt8} (h : d.at_ + data.length < USIZE) :
    (push d data : Run ε _) = ok (d.push data) := by
  rw [push]
  split
  · rw [usize_ok h]
    rfl
  · rename_i hs
    rw [pushRuns_ok h, DeltaDigest.push, hs]

end Checksums

/-! ## Headers -/

section Headers

variable {bytes : List UInt8} {at_ b opSize nBlocks k p : ℕ}

theorem readLe_ok {l : List UInt8} {off k : ℕ} (h : off + k < USIZE) :
    readLe l off k = ofOption () (readLe? l off k) := by
  rw [readLe, getRange_ok h, ok_bind, readLe?]
  cases slice? l off k <;> rfl

theorem parseOps_ok (hbytes : bytes.length ≤ ISIZE_MAX) (hat : at_ ≤ 2 ^ 26) (hop : opSize ≤ 2 ^ 14)
    (hb : b < 2 ^ 32) :
    parseOps bytes at_ b opSize k p = ofOption () (IoV7.parseOps bytes at_ b opSize k p) := by
  induction k generalizing p with
  | zero => rfl
  | succ k ih =>
    rw [parseOps, IoV7.parseOps]
    refine ofOption_bind rfl fun lane hlane => ofOption_bind rfl fun _ hlt => ?_
    have hp : p < bytes.length := List.getElem?_eq_some_iff.mp hlane |>.1
    have hlt : lane.toNat < BLOCK := (Option.guard_eq_some' _).mp hlt
    simp only [BLOCK, ISIZE_MAX] at hlt hbytes
    rw [usize_ok (by simp only [BLOCK, USIZE]; omega), ok_bind, usize_ok (by simp only [USIZE]; omega),
      ok_bind, usize_ok (by simp only [USIZE]; omega), ok_bind]
    exact ofOption_bind ih fun _ _ => rfl

theorem parseOps_le {ops : List (ℕ × ℕ)} {q : ℕ}
    (h : IoV7.parseOps bytes at_ b opSize k p = some (ops, q)) :
    q ≤ max p (bytes.length + opSize) := by
  induction k generalizing p ops with
  | zero =>
    rw [IoV7.parseOps, Option.some.injEq, Prod.mk.injEq] at h
    omega
  | succ k ih =>
    obtain ⟨lane, rest, hlane, -, hrest, -⟩ := parseOps_succ_eq_some.mp h
    have hp : p < bytes.length := List.getElem?_eq_some_iff.mp hlane |>.1
    have := ih hrest
    omega

theorem parseGroups_ok (hbytes : bytes.length ≤ ISIZE_MAX) (hat : at_ ≤ 2 ^ 26)
    (hop : opSize ≤ 2 ^ 14) (hp : p ≤ bytes.length + 2 ^ 20) :
    parseGroups bytes at_ opSize nBlocks k p =
      ofOption () (IoV7.parseGroups bytes at_ opSize nBlocks k p) := by
  induction k generalizing p with
  | zero => rfl
  | succ k ih =>
    simp only [ISIZE_MAX] at hbytes
    rw [parseGroups, IoV7.parseGroups]
    refine ofOption_bind (readLe_ok (by simp only [USIZE]; omega)) fun b hb => ?_
    refine ofOption_bind rfl fun _ _ => ?_
    rw [usize_ok (by simp only [USIZE]; omega), ok_bind]
    refine ofOption_bind rfl fun nOps hn => ?_
    have hlen : p + 4 < bytes.length := List.getElem?_eq_some_iff.mp hn |>.1
    have hops : nOps.toNat < 256 := nOps.toNat_lt
    rw [alloc_ok (by simp only [ISIZE_MAX]; omega), ok_bind, usize_ok (by simp only [USIZE]; omega),
      ok_bind]
    refine ofOption_bind (parseOps_ok hbytes hat hop (readLe?_lt hb)) fun r hr => ?_
    have hq := parseOps_le hr
    exact ofOption_bind (ih (by omega)) fun _ _ => rfl

theorem parseGroups_le {groups : List OpGroup} {q : ℕ}
    (h : IoV7.parseGroups bytes at_ opSize nBlocks k p = some (groups, q)) :
    q ≤ max p (bytes.length + opSize + 5) := by
  induction k generalizing p groups with
  | zero =>
    rw [IoV7.parseGroups, Option.some.injEq, Prod.mk.injEq] at h
    omega
  | succ k ih =>
    obtain ⟨b, nOps, ops, r, rest, -, -, hn, hops, hrest, -⟩ := parseGroups_succ_eq_some.mp h
    have hlen : p + 4 < bytes.length := List.getElem?_eq_some_iff.mp hn |>.1
    have := parseOps_le hops
    have := ih hrest
    omega

theorem parseMat_ok (hp : p + k * 4 + 4 < USIZE) :
    parseMat bytes k p = ofOption () (IoV7.parseMat bytes k p) := by
  induction k generalizing p with
  | zero => rfl
  | succ k ih =>
    rw [parseMat, IoV7.parseMat]
    refine ofOption_bind (readLe_ok (by omega)) fun b _ => ?_
    rw [usize_ok (by omega), ok_bind]
    exact ofOption_bind (ih (by omega)) fun _ _ => rfl

/-- The length check: past the end of the file or past a word. -/
theorem unitsFit_ok {geo : Geo} (hg : geo.Valid) {fileLen : ℕ} (hf : fileLen ≤ ISIZE_MAX) (n : ℕ)
    {α : Type} (f : Run Unit α) :
    (do
      let units := n / BLOCK * (← unitLen geo)
      ofOption () (guard (units < USIZE))
      let unitsEnd := units + (← unitAt geo 0)
      ofOption () (guard (unitsEnd < USIZE))
      ofOption () (guard (unitsEnd ≤ fileLen))
      f) = (do
        ofOption () (guard (geo.unitAt (n / BLOCK) ≤ fileLen))
        f) := by
  have h0 : geo.unitAt 0 < USIZE := (unitAt_le hg 0).trans_lt (by decide)
  have hsum : n / BLOCK * geo.unitLen + geo.unitAt 0 = geo.unitAt (n / BLOCK) := by
    simp only [Geo.unitAt]
    omega
  rw [unitLen_ok hg, ok_bind]
  simp only [unitAt_ok hg h0, ok_bind, hsum]
  simp only [ISIZE_MAX] at hf
  by_cases h : geo.unitAt (n / BLOCK) ≤ fileLen
  · have h1 : n / BLOCK * geo.unitLen < USIZE := by simp only [USIZE]; omega
    have h2 : geo.unitAt (n / BLOCK) < USIZE := by simp only [USIZE]; omega
    simp only [guard, h, h1, h2, if_true]
    rfl
  · simp only [guard, h, if_false]
    by_cases h1 : n / BLOCK * geo.unitLen < USIZE
    · by_cases h2 : geo.unitAt (n / BLOCK) < USIZE
      · simp only [h1, h2, if_true]
        rfl
      · simp only [h1, h2, if_true, if_false]
        rfl
    · simp only [h1, if_false]
      rfl

theorem parseHeaderAt_ok {geo : Geo} (hg : geo.Valid) {slot fileLen : ℕ}
    (hbytes : bytes.length ≤ ISIZE_MAX) (hat : at_ ≤ 2 ^ 26) (hf : fileLen ≤ ISIZE_MAX) :
    parseHeaderAt bytes at_ geo slot fileLen =
      ofOption () (IoV7.parseHeaderAt bytes at_ geo slot fileLen) := by
  have hrec := recLen_le hg
  have hop : geo.opSize ≤ 2 ^ 14 := by rw [geo.opSize_eq]; omega
  have hlen := hbytes
  simp only [ISIZE_MAX] at hlen
  rw [parseHeaderAt, IoV7.parseHeaderAt, recLen_ok hg, ok_bind, opSize_ok hg, ok_bind]
  refine ofOption_bind (readLe_ok (by decide)) fun gen _ => ofOption_bind rfl fun _ _ => ?_
  refine ofOption_bind (readLe_ok (by decide)) fun n _ => ?_
  rw [unitsFit_ok hg hf]
  refine ofOption_bind rfl fun _ _ => ?_
  have htail : n % BLOCK * geo.recLen ≤ 31 * 8204 :=
    Nat.mul_le_mul (Nat.le_of_lt_succ (Nat.mod_lt _ (by decide))) hrec
  rw [usize_ok (by simp only [USIZE]; omega), ok_bind]
  refine ofOption_bind (readLe_ok (by simp only [USIZE]; omega)) fun nUnits _ => ?_
  refine ofOption_bind rfl fun _ hn => ?_
  have hn : nUnits ≤ MAX_OPS := (Option.guard_eq_some' _).mp hn
  simp only [MAX_OPS] at hn
  rw [alloc_ok (by simp only [ISIZE_MAX]; omega), ok_bind, usize_ok (by simp only [USIZE]; omega),
    ok_bind]
  refine ofOption_bind (parseGroups_ok hbytes hat hop (by omega)) fun g hgroups => ?_
  have hq := parseGroups_le hgroups
  refine ofOption_bind (readLe_ok (by simp only [USIZE]; omega)) fun nMat _ => ?_
  refine ofOption_bind rfl fun _ hm => ?_
  have hm : nMat ≤ MAX_OPS := (Option.guard_eq_some' _).mp hm
  simp only [MAX_OPS] at hm
  rw [alloc_ok (by simp only [ISIZE_MAX]; omega), ok_bind, usize_ok (by simp only [USIZE]; omega),
    ok_bind]
  refine ofOption_bind (parseMat_ok (by simp only [USIZE]; omega)) fun mat _ => ?_
  rw [usize_ok (by simp only [USIZE]; omega), ok_bind]
  refine ofOption_bind (readLe_ok (by simp only [USIZE]; omega)) fun _ _ => ?_
  rw [usize_ok (by simp only [USIZE]; omega), ok_bind]
  refine ofOption_bind (readLe_ok (by simp only [USIZE]; omega)) fun _ _ => ?_
  rw [usize_ok (by simp only [USIZE]; omega), ok_bind]
  refine ofOption_bind (readLe_ok (by simp only [USIZE]; omega)) fun _ _ => ?_
  rw [usize_ok (by simp only [USIZE]; omega), ok_bind]
  refine ofOption_bind (readLe_ok (by simp only [USIZE]; omega)) fun stored hstored => ?_
  have hend := readLe?_le_length hstored
  rw [slice?_of_le (by omega), ofOption_some, ok_bind, List.drop_zero,
    crc32_ok (by rw [List.length_take]; omega), ok_bind]
  refine ofOption_bind rfl fun _ _ => ?_
  rw [usize_ok (by simp only [USIZE]; omega), ok_bind, usize_ok (by simp only [USIZE]; omega)]
  rfl

end Headers

/-! ## Picking a header -/

section Choose

variable {ε : Type} {raw : List UInt8} {geo : Geo}

theorem parseHeaderSlot_ok (hg : geo.Valid) (hraw : raw.length ≤ ISIZE_MAX) {slot fileLen : ℕ}
    (hs : slot < 2) (hf : fileLen ≤ ISIZE_MAX) :
    (parseHeaderSlot raw geo slot fileLen : Run ε _) =
      ok (IoV7.parseHeaderSlot raw geo slot fileLen) := by
  have hat := hdrAt_le hg hs.le
  have hlen := hdrLen_le hg
  have hrun : (do
      let at_ ← hdrAt geo slot
      let bytes ← ofOption () (← getRange raw at_ (← hdrLen geo))
      parseHeaderAt bytes at_ geo slot fileLen : Run Unit ParsedHdr) =
        ofOption () (IoV7.parseHeaderSlot raw geo slot fileLen) := by
    rw [hdrAt_ok hg hs.le, ok_bind, hdrLen_ok hg, ok_bind, getRange_ok (by simp only [USIZE]; omega),
      ok_bind, IoV7.parseHeaderSlot]
    refine ofOption_bind rfl fun bytes hb => parseHeaderAt_ok hg ?_ hat hf
    have := (slice?_eq_some.mp hb).1
    rw [length_of_slice? hb]
    omega
  rw [parseHeaderSlot, hrun, attempt_ofOption]

theorem parseMat_lt {bytes : List UInt8} {k p : ℕ} {mat : List ℕ}
    (h : IoV7.parseMat bytes k p = some mat) : ∀ b ∈ mat, b < 2 ^ 32 := by
  induction k generalizing p mat with
  | zero =>
    rw [IoV7.parseMat, Option.some.injEq] at h
    simp [← h]
  | succ k ih =>
    obtain ⟨b, rest, hb, hrest, rfl⟩ := parseMat_succ_eq_some.mp h
    intro c hc
    rcases List.mem_cons.mp hc with rfl | hc
    · exact readLe?_lt hb
    · exact ih hrest c hc

/-- The units a parsed header names are words of four bytes. -/
theorem deltaBlocks_lt {slot fileLen : ℕ} {h : ParsedHdr}
    (hp : IoV7.parseHeaderSlot raw geo slot fileLen = some h) :
    (∀ b ∈ h.deltaBlocks, b < 2 ^ 32) ∧ h.deltaBlocks.length ≤ MAX_OPS + 2 ^ 32 := by
  rw [IoV7.parseHeaderSlot, Option.bind_eq_bind, Option.bind_eq_some_iff] at hp
  obtain ⟨bytes, -, hp⟩ := hp
  obtain ⟨pMat, hf⟩ := parseHeaderAt_eq_some.mp hp
  have hto := readLe?_lt hf.app_to
  have hmat := hf.nMat_le
  constructor
  · intro b hb
    rcases List.mem_append.mp hb with hb | hb
    · exact parseMat_lt hf.mat b hb
    · obtain ⟨i, hi, rfl⟩ := List.mem_range'.mp hb
      omega
  · rw [ParsedHdr.deltaBlocks, List.length_append, List.length_range']
    omega

theorem feedUnit_ok (hg : geo.Valid) {d : DeltaDigest} {b : ℕ} (hb : b < 2 ^ 32)
    (hd : d.at_ + (4 + geo.unitLen) < USIZE) :
    feedUnit raw geo d b =
      ofOption () ((unitOf raw geo b).map (d.push (leBytes 4 b)).push) := by
  have hat := unitAt_le hg b
  have hlen := unitLen_le hg
  have h4 : (leBytes 4 b).length = 4 := length_leBytes 4 b
  rw [feedUnit, push_ok (by omega), ok_bind, unitAt_ok hg (by simp only [USIZE]; omega), ok_bind,
    unitLen_ok hg, ok_bind, getRange_ok (by simp only [USIZE]; omega), ok_bind, unitOf]
  cases hu : slice? raw (geo.unitAt b) geo.unitLen with
  | none => rfl
  | some u =>
    rw [ofOption_some, ok_bind, push_ok (by rw [at_push, length_of_slice? hu]; omega)]
    rfl

theorem deltaOk_ok (hg : geo.Valid) {h : ParsedHdr} (hblocks : ∀ b ∈ h.deltaBlocks, b < 2 ^ 32)
    (hcount : h.deltaBlocks.length ≤ MAX_OPS + 2 ^ 32) :
    (deltaOk raw geo h : Run ε Bool) = ok (IoV7.deltaOk raw geo h) := by
  have hlen := unitLen_le hg
  have htotal : h.deltaBlocks.length * (4 + geo.unitLen) ≤ (1024 + 2 ^ 32) * (4 + 2 ^ 19) :=
    Nat.mul_le_mul hcount (by omega)
  have hnew : (newDigest (8 + h.deltaBlocks.length * (4 + geo.unitLen)) : Run ε _) =
      ok (DeltaDigest.new (8 + h.deltaBlocks.length * (4 + geo.unitLen))) := by
    rw [newDigest, Nat.min_eq_left (by simp only [USIZE]; omega),
      usize_ok (by simp only [USIZE]; omega)]
    rfl
  have hgen : (leBytes 8 h.gen).length = 8 := length_leBytes 8 h.gen
  have hstart : ((DeltaDigest.new (8 + h.deltaBlocks.length * (4 + geo.unitLen))).push
      (leBytes 8 h.gen)).at_ = 8 := by
    rw [at_push, hgen]
    rfl
  have hrun := @foldlM_ofOption Unit ℕ DeltaDigest () (feedUnit raw geo)
    (fun d b => (unitOf raw geo b).map (d.push (leBytes 4 b)).push)
    (fun l d => d.at_ + l.length * (4 + geo.unitLen) < USIZE ∧ ∀ b ∈ l, b < 2 ^ 32)
    (fun b l d hd => feedUnit_ok hg (hd.2 b List.mem_cons_self) (by
      have := hd.1
      rw [List.length_cons, Nat.add_mul] at this
      omega))
    (fun b l d d' hd hd' => by
      refine ⟨?_, fun c hc => hd.2 c (List.mem_cons_of_mem _ hc)⟩
      obtain ⟨u, hu, rfl⟩ := Option.map_eq_some_iff.mp hd'
      have h4 : (leBytes 4 b).length = 4 := length_leBytes 4 b
      have := hd.1
      rw [List.length_cons, Nat.add_mul] at this
      rw [at_push, at_push, length_of_slice? hu]
      omega)
    h.deltaBlocks _ ⟨by rw [hstart]; simp only [USIZE]; omega, hblocks⟩
  rw [deltaOk, unitLen_ok hg, ok_bind, usize_ok (by simp only [USIZE]; omega), ok_bind, hnew, ok_bind,
    push_ok (by rw [hgen]; exact (by decide : 0 + 8 < USIZE)), ok_bind, hrun, attempt_ofOption, ok_bind, IoV7.deltaOk,
    deltaVerified]
  cases h.deltaBlocks.foldlM (fun d b => (unitOf raw geo b).map (d.push (leBytes 4 b)).push)
    ((DeltaDigest.new (8 + h.deltaBlocks.length * (4 + geo.unitLen))).push (leBytes 8 h.gen)) <;> rfl

theorem findHeader_ok {l : List ParsedHdr}
    (h : ∀ hdr ∈ l, (deltaOk raw geo hdr : Run ε Bool) = ok (IoV7.deltaOk raw geo hdr)) :
    (findHeader raw geo l : Run ε _) = ok (l.find? (IoV7.deltaOk raw geo)) := by
  induction l with
  | nil => rfl
  | cons hdr l ih =>
    rw [findHeader, h hdr List.mem_cons_self, ok_bind, List.find?_cons]
    cases IoV7.deltaOk raw geo hdr with
    | true => rfl
    | false => exact ih fun hdr' hm => h hdr' (List.mem_cons_of_mem _ hm)

theorem chooseHeader_ok (hg : geo.Valid) (hraw : raw.length ≤ ISIZE_MAX) :
    (chooseHeader raw geo : Run ε _) = ok (IoV7.chooseHeader raw geo) := by
  rw [chooseHeader, parseHeaderSlot_ok hg hraw (by decide) hraw, ok_bind,
    parseHeaderSlot_ok hg hraw (by decide) hraw, ok_bind, findHeader_ok]
  · rfl
  · intro hdr hm
    rcases mem_candidates.mp hm with h0 | h1
    · exact deltaOk_ok hg (deltaBlocks_lt h0).1 (deltaBlocks_lt h0).2
    · exact deltaOk_ok hg (deltaBlocks_lt h1).1 (deltaBlocks_lt h1).2

end Choose

/-! ## The superblock -/

section Superblock

variable {raw : List UInt8}

theorem readU32_ok {at_ : ℕ} (h : at_ + 4 < USIZE) : readU32 raw at_ = ofExcept (IoV7.readU32 raw at_) := by
  rw [readU32, getRange_ok h, ok_bind, IoV7.readU32, readLe?]
  cases slice? raw at_ 4 <;> rfl

theorem readU64At_ok {at_ : ℕ} (h : at_ + 8 < USIZE) :
    readU64At raw at_ = ofExcept (IoV7.readU64At raw at_) := by
  rw [readU64At, getRange_ok h, ok_bind, IoV7.readU64At, readLe?]
  cases slice? raw at_ 8 <;> rfl

theorem readF32_ok {at_ : ℕ} (h : at_ + 4 < USIZE) : readF32 raw at_ = ofExcept (IoV7.readF32 raw at_) := by
  rw [readF32, getRange_ok h, ok_bind, IoV7.readF32]
  cases slice? raw at_ 4 <;> rfl

theorem rejectIf_ok (c : Bool) (msg : String) : rejectIf c msg = ofExcept (reject c msg) := by
  cases c <;> rfl

theorem readLayout_ok (h : 7 < raw.length) (version : ℕ) :
    readLayout raw version = ok (if version = 8 then (entry raw 7).toNat else LAYOUT_SEQ) := by
  rw [readLayout]
  split
  · rw [index_ok h]
    rfl
  · rfl

/-- The products of the length check do not saturate. -/
theorem minHeader_eq {dim bitWidth : ℕ} (hd : dim ≤ MAX_DIM) (hb : bitWidth ≤ 4) :
    min (MAX_OPS * (min (dim * bitWidth) (USIZE - 1) / 8)) (USIZE - 1) =
      MAX_OPS * (dim * bitWidth / 8) := by
  have h : dim * bitWidth ≤ 16384 * 4 := Nat.mul_le_mul hd hb
  rw [Nat.min_eq_left (show dim * bitWidth ≤ USIZE - 1 by simp only [USIZE]; omega),
    Nat.min_eq_left (by simp only [MAX_OPS, USIZE]; omega)]

theorem parsePreamble_total (hraw : raw.length ≤ ISIZE_MAX) (expectKind : ℕ) :
    parsePreamble raw expectKind = ofExcept (IoV7.parsePreamble raw expectKind) := by
  have hlt : raw.length < USIZE := hraw.trans_lt (by decide)
  rw [parsePreamble, IoV7.parsePreamble]
  by_cases hlen : raw.length < 11
  · simp only [hlen, decide_true, Bool.true_or]
    rfl
  · rw [decide_eq_false hlen, Bool.false_or, rejectIf_ok, slice_ok hlt (by omega)]
    simp only [reject, Bool.false_eq_true, if_false, ofExcept_ok, ok_bind, List.drop_zero]
    refine ofExcept_bind (rejectIf_ok _ _) fun _ _ => ?_
    rw [index_ok (by omega), ok_bind]
    refine ofExcept_bind (rejectIf_ok _ _) fun _ _ => ofExcept_bind (rejectIf_ok _ _) fun _ _ => ?_
    rw [index_ok (by omega), ok_bind]
    refine ofExcept_bind (rejectIf_ok _ _) fun _ hbits => ?_
    rw [index_ok (by omega), ok_bind]
    refine ofExcept_bind (rejectIf_ok _ _) fun _ _ => ?_
    rw [readLayout_ok (by omega), ok_bind]
    refine ofExcept_bind (rejectIf_ok _ _) fun _ _ => ofExcept_bind (rejectIf_ok _ _) fun _ _ => ?_
    generalize hfixed : (if (if raw.take 4 = V8_MAGIC then 8 else 7) = 8 then 24 else 23) = sbFixed
    have hsb : 23 ≤ sbFixed ∧ sbFixed ≤ 24 := by
      rw [← hfixed]
      split <;> decide
    rw [usub_ok (by omega), ok_bind]
    refine ofExcept_bind (readU32_ok (by simp only [USIZE]; omega)) fun dim _ => ?_
    refine ofExcept_bind (rejectIf_ok _ _) fun _ hdim => ?_
    have hb : (entry raw 5).toNat ≤ 4 := by
      have := reject_eq_ok.mp hbits
      simp only [Bool.or_eq_false_iff, decide_eq_false_iff_not] at this
      omega
    have hd : dim ≤ MAX_DIM := by
      have := reject_eq_ok.mp hdim
      simp only [Bool.and_eq_false_iff, Bool.or_eq_false_iff, decide_eq_false_iff_not,
        bne_eq_false_iff_eq] at this
      omega
    simp only [minHeader_eq hd hb]
    refine ofExcept_bind (rejectIf_ok _ _) fun _ _ => ?_
    rw [usub_ok (by omega), ok_bind]
    refine ofExcept_bind (readU64At_ok (by simp only [USIZE]; omega)) fun nonce _ => ?_
    rw [usub_ok (by omega), ok_bind]
    refine ofExcept_bind (readU32_ok (by simp only [USIZE]; omega)) fun maxOps _ => ?_
    exact ofExcept_bind (rejectIf_ok _ _) fun _ _ => rfl

theorem readF32_le {at_ : ℕ} {v : F32} (h : IoV7.readF32 raw at_ = .ok v) : at_ + 4 ≤ raw.length := by
  obtain ⟨bs, hbs, -⟩ := Option.map_eq_some_iff.mp (orElseError_eq_ok.mp h)
  exact (slice?_eq_some.mp hbs).1

theorem checkCodebook_ok (hraw : raw.length ≤ ISIZE_MAX) {at_ : ℕ} (hat : at_ ≤ 2 ^ 63) (want : List F32) :
    checkCodebook raw at_ want =
      ofExcept (do
        IoV7.checkCodebook raw at_ want
        return at_ + want.length * 4) := by
  induction want generalizing at_ with
  | nil => rfl
  | cons w want ih =>
    simp only [ISIZE_MAX] at hraw
    rw [checkCodebook, IoV7.checkCodebook, bind_assoc]
    refine ofExcept_bind (readF32_ok (by simp only [USIZE]; omega)) fun v hv => ?_
    have hle := readF32_le hv
    rw [bind_assoc]
    refine ofExcept_bind (rejectIf_ok _ _) fun _ _ => ?_
    rw [usize_ok (by simp only [USIZE]; omega), ok_bind, ih (by omega)]
    simp only [List.length_cons, Nat.add_mul, Nat.one_mul, Nat.add_assoc, Nat.add_comm 4]

theorem checkCodebook_le {at_ : ℕ} {want : List F32} (h : IoV7.checkCodebook raw at_ want = .ok ()) :
    at_ + want.length * 4 ≤ max at_ raw.length := by
  induction want generalizing at_ with
  | nil => exact Nat.le_max_left _ _
  | cons w want ih =>
    rw [IoV7.checkCodebook, bind_eq_ok] at h
    obtain ⟨v, hv, h⟩ := h
    obtain ⟨_, -, h⟩ := bind_eq_ok.mp h
    have := ih h
    have := readF32_le hv
    rw [List.length_cons]
    omega

/-- Where the codebook ends. -/
theorem codebookEnd_le (T : Tables) {pre : Preamble} (hb : pre.bitWidth ≤ 4)
    (h : IoV7.checkCodebook raw pre.sbFixed (T.canon pre.bitWidth pre.dim) = .ok ()) :
    pre.sbFixed + T.codebookLen pre.bitWidth pre.dim * 4 ≤ raw.length + 2 ^ 8 := by
  have hfixed : pre.sbFixed ≤ 24 := by
    rw [Preamble.sbFixed]
    split <;> omega
  have hlevels : 2 ^ pre.bitWidth ≤ 2 ^ 4 := Nat.pow_le_pow_right (by decide) hb
  have hle := checkCodebook_le h
  rw [Tables.codebookLen]
  split <;> omega

theorem skipCodebook_ok (T : Tables) (hraw : raw.length ≤ ISIZE_MAX) {pre : Preamble}
    (hb : pre.bitWidth ≤ 4) :
    skipCodebook T raw pre = ofExcept (do
      IoV7.checkCodebook raw pre.sbFixed (T.canon pre.bitWidth pre.dim)
      return pre.sbFixed + T.codebookLen pre.bitWidth pre.dim * 4) := by
  have hfixed : pre.sbFixed ≤ 24 := by
    rw [Preamble.sbFixed]
    split <;> omega
  have hlevels : 2 ^ pre.bitWidth ≤ 2 ^ 4 := Nat.pow_le_pow_right (by decide) hb
  have hpos : 0 < 2 ^ pre.bitWidth := Nat.pow_pos (by decide)
  have hassert : (assert (decide (pre.bitWidth < 64)) : Run String Unit) = ok () :=
    if_pos (decide_eq_true (by omega))
  rw [skipCodebook, hassert, ok_bind, Tables.canon, Tables.codebookLen, Tables.canon]
  split
  · rw [usub_ok (by omega), ok_bind, usize_ok (by simp only [USIZE]; omega)]
    rfl
  · exact checkCodebook_ok hraw (by omega) _

theorem readF32s_ok {n off : ℕ} (h : off + n * 4 + 4 < USIZE) :
    readF32s raw off n = ofExcept (IoV7.readF32s raw off n) := by
  induction n generalizing off with
  | zero => rfl
  | succ n ih =>
    have hrest : (List.map Nat.succ (List.range n)).mapM (fun k => do
        readF32 raw (← usize (off + k * 4)) : ℕ → Run String F32) = readF32s raw (off + 4) n := by
      rw [List.mapM_map, readF32s]
      refine congrArg (List.mapM · _) (funext fun k => ?_)
      simp only [Function.comp, Nat.succ_eq_add_one]
      rw [show off + (k + 1) * 4 = off + 4 + k * 4 by omega]
    rw [readF32s, List.range_succ_eq_map, List.mapM_cons, hrest, ih (by omega), IoV7.readF32s,
      usize_ok (by omega), ok_bind, Nat.zero_mul, Nat.add_zero]
    exact ofExcept_bind (readF32_ok (by omega)) fun _ _ => ofExcept_bind rfl fun _ _ => rfl

theorem parseSuperblock_total (T : Tables) (hraw : raw.length ≤ ISIZE_MAX) (expectKind : ℕ) :
    parseSuperblock T raw expectKind = ofExcept (IoV7.parseSuperblock T raw expectKind) := by
  rw [parseSuperblock, IoV7.parseSuperblock]
  refine ofExcept_bind (parsePreamble_total hraw expectKind) fun pre hpre => ?_
  obtain ⟨-, ⟨hb2, hb4⟩, ⟨-, hd⟩, -, -⟩ := parsePreamble_ok hpre
  have hlen := hraw
  simp only [ISIZE_MAX] at hlen
  rw [skipCodebook_ok T hraw hb4, parseCalibration]
  refine ofExcept_bind_const fun _ hcb => ?_
  have hoff := codebookEnd_le T hb4 hcb
  generalize pre.sbFixed + T.codebookLen pre.bitWidth pre.dim * 4 = off at hoff ⊢
  refine ofExcept_bind (readU32_ok (by simp only [USIZE]; omega)) fun nCalib _ => ?_
  rw [usize_ok (by simp only [USIZE]; omega), ok_bind]
  refine ofExcept_bind (rejectIf_ok _ _) fun _ hcalib => ?_
  have hn : nCalib ≤ MAX_DIM := by
    have := reject_eq_ok.mp hcalib
    simp only [Bool.and_eq_false_iff, bne_eq_false_iff_eq] at this
    omega
  simp only [MAX_DIM] at hn
  rw [alloc_ok (by simp only [ISIZE_MAX]; omega), ok_bind]
  refine ofExcept_bind (readF32s_ok (by simp only [USIZE]; omega)) fun shift _ => ?_
  rw [usize_ok (by simp only [USIZE]; omega), ok_bind]
  refine ofExcept_bind (readF32s_ok (by simp only [USIZE]; omega)) fun scale _ => ?_
  rw [usize_ok (by simp only [USIZE]; omega), ok_bind]
  refine ofExcept_bind rfl fun _ _ => ?_
  refine ofExcept_bind (readU32_ok (by simp only [USIZE]; omega)) fun stored hstored => ?_
  have hend := readLe?_le_length (orElseError_eq_ok.mp hstored)
  rw [slice_ok (by simp only [USIZE]; omega) (by omega), ok_bind, List.drop_zero,
    crc32_ok (by rw [List.length_take]; omega), ok_bind]
  refine ofExcept_bind (rejectIf_ok _ _) fun _ _ => ?_
  dsimp only
  rw [@rowBytes_ok_of _ ⟨pre.kind, pre.dim, pre.bitWidth, nCalib, pre.version, pre.layout⟩ hb2 hb4 hd,
    ok_bind]
  exact ofExcept_bind (rejectIf_ok _ _) fun _ _ => rfl

end Superblock

/-! ## The image -/

section Image

variable {T : Tables} {raw : List UInt8} {expectKind : ℕ}

theorem ofOption_eq {α : Type} (msg : String) (o : Option α) :
    (Run.ofOption msg o : Run String α) = Run.ofExcept (orElseError msg o) := by
  cases o <;> rfl

theorem header_offsets {geo : Geo} (hg : geo.Valid) {slot fileLen : ℕ} (hs : slot < 2) {h : ParsedHdr}
    (hp : IoV7.parseHeaderSlot raw geo slot fileLen = some h) :
    h.tailAt ≤ 2 ^ 27 ∧ ∀ g ∈ h.groups, ∀ op ∈ g.2, op.2 ≤ 2 ^ 27 := by
  have hat := hdrAt_le hg (show slot + 1 ≤ 2 by omega)
  obtain ⟨htail, hops⟩ := parseHeaderSlot_inside hp
  refine ⟨by omega, fun g hm op hop => ?_⟩
  have := hops g hm op hop
  omega

theorem mapM_ofOption {α β : Type} {e : String} {f : α → Run String β} {g : α → Option β} {l : List α}
    (h : ∀ a ∈ l, f a = Run.ofOption e (g a)) : l.mapM f = Run.ofOption e (l.mapM g) := by
  induction l with
  | nil => rfl
  | cons a l ih =>
    rw [List.mapM_cons, List.mapM_cons]
    refine ofOption_bind (h a List.mem_cons_self) fun b _ => ?_
    exact ofOption_bind (ih fun a ha => h a (List.mem_cons_of_mem _ ha)) fun _ _ => rfl

theorem ownOps_ok {recLen : ℕ} (hrec : recLen ≤ 2 ^ 14) {groups : List OpGroup}
    (h : ∀ g ∈ groups, ∀ op ∈ g.2, op.2 ≤ 2 ^ 27) :
    ownOps raw recLen groups = Run.ofOption "truncated pending op" (IoV7.ownOps raw recLen groups) := by
  refine mapM_ofOption fun g hg => ?_
  refine ofOption_bind (mapM_ofOption fun op hop => ?_) fun _ _ => rfl
  have := h g hg op hop
  rw [getRange_ok (by simp only [USIZE]; omega), ok_bind]
  exact ofOption_bind rfl fun _ _ => rfl

theorem blockBytes_le_unitAt (geo : Geo) : BLOCK * geo.rowBytes ≤ geo.unitAt 0 := by
  rw [geo.unitAt_zero, Geo.hdrAt, Geo.hdrLen, Geo.opSize]
  simp only [BLOCK, MAX_OPS]
  omega

theorem parseImage_total (T : Tables) (hraw : raw.length ≤ ISIZE_MAX) (expectKind : ℕ) :
    parseImage T raw expectKind = Run.ofExcept (IoV7.parseImage T raw expectKind) := by
  rw [parseImage, IoV7.parseImage]
  refine ofExcept_bind (parseSuperblock_total T hraw expectKind) fun sb hsb => ?_
  obtain ⟨hg, -, -⟩ := parseSuperblock_ok hsb
  have hrec := recLen_le hg
  have h0 : sb.geo.unitAt 0 < USIZE := (unitAt_le hg 0).trans_lt (by decide)
  dsimp only
  rw [recLen_ok hg, ok_bind, chooseHeader_ok hg hraw, ok_bind]
  refine ofExcept_bind (ofOption_eq _ _) fun chosen hchosen => ?_
  obtain ⟨-, slot, hslot, hp⟩ := IoV7.chooseHeader_ok (orElseError_eq_ok.mp hchosen)
  obtain ⟨htail, hops⟩ := header_offsets hg hslot hp
  refine ofExcept_bind (rejectIf_ok _ _) fun _ _ => ?_
  have hassert : (assert (decide (sb.geo.blockBytes ≤ sb.geo.unitAt 0)) : Run String Unit) = ok () :=
    if_pos (decide_eq_true (blockBytes_le_unitAt sb.geo))
  have hmod : chosen.n % BLOCK * sb.geo.recLen ≤ 31 * 8204 :=
    Nat.mul_le_mul (Nat.le_of_lt_succ (Nat.mod_lt _ (by decide))) hrec
  rw [rowBytes_ok hg, ok_bind, blockBytes_ok hg, ok_bind, unitAt_ok hg h0, ok_bind, hassert, ok_bind,
    usize_ok (by simp only [USIZE]; omega), ok_bind, getRange_ok (by simp only [USIZE]; omega), ok_bind]
  refine ofExcept_bind (ofOption_eq _ _) fun tail _ => ?_
  rw [ownOps_ok (by omega) hops]
  exact ofExcept_bind (ofOption_eq _ _) fun _ _ => rfl

end Image

/-! ## Sizes -/

section Sizes

variable {geo : Geo} {n : ℕ}

/-- What fits a unit for each block fits the image. -/
theorem blocks_mul_le {c : ℕ} (hc : c ≤ geo.unitLen) (n : ℕ) :
    (n / BLOCK + 1) * c ≤ geo.unitAt (n / BLOCK) := by
  have hhdr : geo.unitLen ≤ geo.hdrAt 2 := by
    simp only [Geo.hdrAt, Geo.hdrLen, Geo.opSize, Geo.unitLen, Geo.idBytes, MAX_OPS, BLOCK]
    split <;> omega
  have hmul := Nat.mul_le_mul_left (n / BLOCK) hc
  rw [Geo.unitAt, Nat.add_mul, Nat.one_mul]
  omega

theorem ceil_le (n : ℕ) : (n + 31) / 32 ≤ n / BLOCK + 1 := by
  simp only [BLOCK]
  omega

theorem blockBytes_le_unitLen (geo : Geo) : geo.blockBytes ≤ geo.unitLen := by
  simp only [Geo.blockBytes, Geo.unitLen]
  omega

theorem planesParts_le (hg : geo.Valid) (hl : geo.layout = LAYOUT_PLANES) :
    geo.planesParts.1 + geo.planesParts.2 ≤ geo.blockBytes := by
  have := Geo.moved_le hg
  rwa [Geo.moved, if_pos hl] at this

theorem planesParts_eq (geo : Geo) : geo.planesParts =
    ((Pack.planesGeom geo.bitWidth geo.rowBytes).1 * BLOCK,
      BLOCK * (Pack.planesGeom geo.bitWidth geo.rowBytes).2) := rfl

theorem planesRow_ok (hg : geo.Valid) : planesRow geo = ok
    (if geo.layout = LAYOUT_PLANES then Pack.planesGeom geo.bitWidth geo.rowBytes else (0, 0)) := by
  rw [planesRow]
  split
  · rename_i hl
    rw [rowBytes_ok hg, ok_bind, planesGeom_ok (hg.planesBits hl) (rowBytes_le hg)]
  · rfl

theorem planesParts_ok (hg : geo.Valid) :
    planesParts geo = ok (if geo.layout = LAYOUT_PLANES then geo.planesParts else (0, 0)) := by
  rw [planesParts, planesRow_ok hg, ok_bind]
  by_cases hl : geo.layout = LAYOUT_PLANES
  · simp only [hl, if_true]
    have hle := planesParts_le hg hl
    have hr := rowBytes_le hg
    rw [planesParts_eq, Geo.blockBytes] at hle
    simp only [BLOCK] at hle
    rw [usize_ok (by simp only [BLOCK, USIZE]; omega), ok_bind,
      usize_ok (by simp only [BLOCK, USIZE]; omega)]
    rfl
  · simp only [hl, if_false]
    rfl

/-- The loader's buffers at the sizes the geometry of `n` rows gives them. -/
structure Sized (geo : Geo) (n : ℕ) (st : Gathered) : Prop where
  buf : st.buf.length = if geo.layout = LAYOUT_PLANES then
    n * (Pack.planesGeom geo.bitWidth geo.rowBytes).2 else (n + 31) / 32 * geo.blockBytes
  sign : geo.layout = LAYOUT_PLANES → st.sign.length = (n + 31) / 32 * geo.planesParts.1

/-- Both regions are no longer than the image. -/
theorem Sized.le_unitAt (hg : geo.Valid) {st : Gathered} (h : Sized geo n st) :
    st.buf.length ≤ geo.unitAt (n / BLOCK) ∧
      (geo.layout = LAYOUT_PLANES → st.sign.length ≤ geo.unitAt (n / BLOCK)) := by
  have hunit := blockBytes_le_unitLen geo
  have hceil := ceil_le n
  constructor
  · rw [h.buf]
    split
    · rename_i hl
      have hle := planesParts_le hg hl
      rw [planesParts_eq] at hle
      have hn : n ≤ (n / BLOCK + 1) * BLOCK := by
        simp only [BLOCK]
        omega
      calc n * (Pack.planesGeom geo.bitWidth geo.rowBytes).2
          ≤ (n / BLOCK + 1) * BLOCK * (Pack.planesGeom geo.bitWidth geo.rowBytes).2 :=
            Nat.mul_le_mul_right _ hn
        _ = (n / BLOCK + 1) * (BLOCK * (Pack.planesGeom geo.bitWidth geo.rowBytes).2) :=
            Nat.mul_assoc _ _ _
        _ ≤ geo.unitAt (n / BLOCK) := blocks_mul_le (by simp only at hle; omega) n
    · exact (Nat.mul_le_mul_right _ hceil).trans (blocks_mul_le hunit n)
  · intro hl
    have hle := planesParts_le hg hl
    rw [h.sign hl]
    exact (Nat.mul_le_mul_right _ hceil).trans (blocks_mul_le (by omega) n)

end Sizes

/-! ## Gathering -/

section Gather

variable {geo : Geo} {n : ℕ} {st : Gathered}

theorem readScale_ok {l : List UInt8} {off : ℕ} (hl : l.length < USIZE) (h : off + 4 ≤ l.length) :
    readScale l off = ok (scaleAt l off) := by
  rw [readScale, slice_ok hl h]
  rfl

theorem readId_ok {l : List UInt8} {off : ℕ} (hl : l.length < USIZE) (h : off + 8 ≤ l.length) :
    readId l off = ok (idAt l off) := by
  rw [readId, slice_ok hl h]
  rfl

theorem readIds_ok {l : List UInt8} {off : ℕ} (hl : l.length < USIZE)
    (h : geo.kind = 1 → off + BLOCK * 8 ≤ l.length) : readIds geo l off =
      ok (if geo.kind = 1 then (List.range BLOCK).map fun lane => idAt l (off + lane * 8) else []) := by
  rw [readIds]
  split
  · rename_i hk
    refine mapM_ok fun lane hm => ?_
    have hm := List.mem_range.mp hm
    have := h hk
    rw [usize_ok (by omega), ok_bind, readId_ok hl (by omega)]
  · rfl

theorem readRecId_ok {rec_ : List UInt8} (hl : rec_.length = geo.recLen) (hg : geo.Valid) :
    readRecId geo rec_ geo.rowBytes =
      ok (if geo.kind = 1 then [idAt rec_ (geo.rowBytes + 4)] else []) := by
  have hrow := rowBytes_le hg
  have hrec := recLen_le hg
  rw [readRecId]
  split
  · rename_i hk
    rw [Geo.recLen, Geo.idBytes, if_pos hk] at hl
    rw [usize_ok (by simp only [USIZE]; omega), ok_bind,
      readId_ok (by simp only [USIZE]; omega) (by omega)]
    rfl
  · rfl

theorem copyWithin_ok {l : List UInt8} {src len dst : ℕ} (hl : l.length < USIZE)
    (hs : src + len ≤ l.length) (hd : dst + len ≤ l.length) :
    copyWithin l src len dst = ok (Pack.copyWithin l src len dst) := by
  rw [copyWithin, slice_ok hl hs, ok_bind, copyFrom_ok hl hd]
  · rfl
  · rw [List.length_take, List.length_drop]
    omega

theorem gatherUnit_total (hg : geo.Valid) {b : ℕ} (hb : b < n / BLOCK) (hbuf : st.buf.length ≤ ISIZE_MAX)
    (hfit : geo.unitAt (n / BLOCK) ≤ st.buf.length)
    (hsign : geo.layout = LAYOUT_PLANES → st.sign.length = (n + 31) / 32 * geo.planesParts.1)
    (hroom : geo.layout = LAYOUT_PLANES → st.sign.length ≤ ISIZE_MAX) :
    gatherUnit geo st b = Run.ofExcept (IoV7.gatherUnit geo st b) := by
  have hunit := (geo.unitAt_add_le hb).trans hfit
  have hblock := blockBytes_le_unitLen geo
  have hlt : st.buf.length < USIZE := hbuf.trans_lt (by decide)
  have hids : geo.blockBytes + BLOCK * 4 + geo.idBytes BLOCK = geo.unitLen := rfl
  have hdst (len : ℕ) (hlen : len ≤ geo.blockBytes) : b * len ≤ geo.unitAt b :=
    @mul_le_unitAt geo len 0 (by omega) b
  rw [gatherUnit, IoV7.gatherUnit, unitAt_ok hg (by omega), ok_bind, rowBytes_ok hg, ok_bind,
    blockBytes_ok hg, ok_bind, unitLen_ok hg, ok_bind, usize_ok (by omega), ok_bind]
  refine ofExcept_bind (rejectIf_ok _ _) fun _ _ => ?_
  rw [@mapM_checked String ℕ F32 _ (fun lane => scaleAt st.buf (geo.unitAt b + geo.blockBytes + lane * 4))
    validScale s!"invalid per-vector scale in block {b}" (List.range BLOCK)]
  · dsimp only
    cases hall : ((List.range BLOCK).map fun lane =>
        scaleAt st.buf (geo.unitAt b + geo.blockBytes + lane * 4)).all validScale with
    | false => rfl
    | true =>
      rw [if_pos rfl, ok_bind, usize_ok (by omega), ok_bind, readIds_ok hlt, ok_bind, planesParts_ok hg,
        ok_bind]
      · by_cases hl : geo.layout = LAYOUT_PLANES
        · have hle := planesParts_le hg hl
          have hlb := hdst geo.planesParts.2 (by omega)
          have hsb : (b + 1) * geo.planesParts.1 ≤ st.sign.length := by
            rw [hsign hl]
            refine Nat.mul_le_mul_right _ ?_
            simp only [BLOCK] at hb
            omega
          have hsroom := hroom hl
          simp only [ISIZE_MAX] at hsroom hbuf
          rw [Nat.add_mul, Nat.one_mul] at hsb
          simp only [hl, if_true]
          rw [usize_ok (by simp only [USIZE]; omega), ok_bind, slice_ok hlt (by omega), ok_bind,
            copyFrom_ok (by simp only [USIZE]; omega) (by omega)
              (by rw [List.length_take, List.length_drop]; omega),
            ok_bind, usize_ok (by simp only [USIZE]; omega), ok_bind,
            usize_ok (by simp only [USIZE]; omega), ok_bind, copyWithin_ok hlt (by omega) (by omega)]
          rfl
        · have hbb := hdst geo.blockBytes (Nat.le_refl _)
          simp only [hl, if_false]
          rw [usize_ok (by omega), ok_bind, copyWithin_ok hlt (by omega) (by omega)]
          rfl
      · intro hk
        rw [Geo.idBytes, if_pos hk] at hids
        omega
  · intro lane hm
    have hm := List.mem_range.mp hm
    simp only [BLOCK] at hm hids
    rw [usize_ok (by omega), ok_bind, readScale_ok hlt (by omega), ok_bind]
    cases validScale (scaleAt st.buf (geo.unitAt b + geo.blockBytes + lane * 4)) <;> rfl

end Gather

/-! ## Rows -/

section Rows

variable {geo : Geo} {n : ℕ} {st : Gathered}

theorem planesRowFromCodes_ok {bits nByteGroups : ℕ} (hb : PlanesBits bits) (hn : nByteGroups ≤ 8192)
    {codes : List UInt8} (hc : codes.length = nByteGroups) :
    planesRowFromCodes codes bits nByteGroups = ok (Pack.planesRowFromCodes codes bits nByteGroups) := by
  have hassert : (assert (decide (codes.length = nByteGroups)) : Run String Unit) = ok () :=
    if_pos (decide_eq_true hc)
  rw [planesRowFromCodes, planesGeom_ok hb hn, ok_bind]
  simp only [Pack.planesGeom]
  rcases hb with rfl | rfl
  · rw [hassert, ok_bind, alloc_ok (by simp only [ISIZE_MAX]; omega), ok_bind,
      alloc_ok (by simp only [ISIZE_MAX]; omega), ok_bind, if_pos rfl]
    rw [@mapM_ok String ℕ (UInt8 × UInt8) _ fun g => (entry codes (2 * g), entry codes (2 * g + 1))]
    · rfl
    · intro g hg
      have hg := List.mem_range.mp hg
      rw [index_ok (by omega), ok_bind, index_ok (by omega)]
      rfl
  · rw [hassert, ok_bind, alloc_ok (by simp only [ISIZE_MAX]; omega), ok_bind,
      alloc_ok (by simp only [ISIZE_MAX]; omega), ok_bind, if_neg (by decide)]
    rw [@mapM_ok String ℕ (List UInt8) _ fun g => (List.range 4).map fun j => entry codes (4 * g + j)]
    · rfl
    · intro g hg
      have hg := List.mem_range.mp hg
      refine mapM_ok fun j hj => index_ok ?_
      have hj := List.mem_range.mp hj
      omega

theorem length_planesRowFromCodes {bits nByteGroups : ℕ} (hb : PlanesBits bits) (codes : List UInt8) :
    (Pack.planesRowFromCodes codes bits nByteGroups).1.length = (Pack.planesGeom bits nByteGroups).1 ∧
      (Pack.planesRowFromCodes codes bits nByteGroups).2.length =
        (Pack.planesGeom bits nByteGroups).2 := by
  simp only [Pack.planesRowFromCodes, Pack.planesGeom]
  rcases hb with rfl | rfl
  · simp [planesSplitRow]
  · simp [length_flatMap_range fun p (_ : p < 3) =>
      length_tabulate (nByteGroups / 4) (planeByte codes p)]

theorem planesWriteRowCanonical_ok {bits nByteGroups v : ℕ} (hb : PlanesBits bits)
    (hn : nByteGroups ≤ 8192) {codes : List UInt8} (hc : codes.length = nByteGroups) (hv : v < n)
    {sign low : List UInt8}
    (hs : sign.length = (n + 31) / 32 * ((Pack.planesGeom bits nByteGroups).1 * BLOCK))
    (hl : low.length = n * (Pack.planesGeom bits nByteGroups).2) (hsmax : sign.length ≤ ISIZE_MAX)
    (hlmax : low.length ≤ ISIZE_MAX) :
    planesWriteRowCanonical sign low bits nByteGroups v codes =
      ok (Pack.planesWriteRowCanonical sign low bits nByteGroups v codes) := by
  obtain ⟨hsrow, hlrow⟩ := @length_planesRowFromCodes bits nByteGroups hb codes
  have hvb : v / BLOCK < (n + 31) / 32 := by
    simp only [BLOCK]
    omega
  have hpos (g : ℕ) (hg : g < (Pack.planesGeom bits nByteGroups).1) :
      v / BLOCK * (Pack.planesGeom bits nByteGroups).1 * BLOCK + g * BLOCK + v % BLOCK < sign.length := by
    have hlane : g * BLOCK + v % BLOCK < (Pack.planesGeom bits nByteGroups).1 * BLOCK :=
      mul_add_lt hg (Nat.mod_lt _ (by decide))
    rw [hs, Nat.mul_assoc, Nat.add_assoc]
    exact mul_add_lt hvb hlane
  have hlow : v * (Pack.planesGeom bits nByteGroups).2 + (Pack.planesGeom bits nByteGroups).2 ≤
      low.length := by
    rw [hl, ← Nat.succ_mul]
    exact Nat.mul_le_mul_right _ hv
  simp only [ISIZE_MAX] at hsmax hlmax
  rw [planesWriteRowCanonical, planesGeom_ok hb hn, ok_bind]
  dsimp only
  rw [planesRowFromCodes_ok hb hn hc, ok_bind]
  rw [@foldlM_store String UInt8 ℕ _
    (fun g => v / BLOCK * (Pack.planesGeom bits nByteGroups).1 * BLOCK + g * BLOCK + v % BLOCK)
    (entry (Pack.planesRowFromCodes codes bits nByteGroups).1)]
  · rw [ok_bind, usize_ok (by simp only [USIZE]; omega), ok_bind,
      copyFrom_ok (by simp only [USIZE]; omega) hlow hlrow]
    rfl
  · intro l' g hg hl'
    have hg := List.mem_range.mp hg
    have := hpos g hg
    rw [usize_ok (by simp only [USIZE]; omega), ok_bind, index_ok (by omega), ok_bind]
  · exact fun g hg => hpos g (List.mem_range.mp hg)

theorem putRow_ok (hg : geo.Valid) (hroom : geo.unitAt (n / BLOCK) ≤ ISIZE_MAX) {v : ℕ} (hv : v < n)
    (h : Sized geo n st) {codes : List UInt8} (hc : codes.length = geo.rowBytes) :
    putRow geo st v codes = ok (IoV7.putRow geo st v codes) := by
  obtain ⟨hb, hs⟩ := h.le_unitAt hg
  have hbuf := h.buf
  rw [putRow, IoV7.putRow, rowBytes_ok hg, ok_bind]
  by_cases hl : geo.layout = LAYOUT_PLANES
  · have hs := hs hl
    simp only [hl, if_true] at hbuf ⊢
    rw [planesWriteRowCanonical_ok (hg.planesBits hl) (rowBytes_le hg) hc hv (h.sign hl) hbuf (by omega)
      (by omega)]
    rfl
  · simp only [hl, if_false] at hbuf ⊢
    have hvb : v / BLOCK < (n + 31) / 32 := by
      simp only [BLOCK]
      omega
    have hpos (g : ℕ) (hgr : g < geo.rowBytes) :
        v / BLOCK * geo.blockBytes + g * BLOCK + v % BLOCK < st.buf.length := by
      rw [hbuf, Nat.add_assoc]
      refine mul_add_lt hvb ?_
      rw [Geo.blockBytes, Nat.mul_comm BLOCK]
      exact mul_add_lt hgr (Nat.mod_lt _ (by decide))
    simp only [ISIZE_MAX] at hroom
    rw [blockBytes_ok hg, ok_bind]
    rw [@foldlM_store String UInt8 ℕ _ (fun g => v / BLOCK * geo.blockBytes + g * BLOCK + v % BLOCK)
      (entry codes)]
    · rfl
    · intro l' g hgr hl'
      have hgr := List.mem_range.mp hgr
      have := hpos g hgr
      rw [usize_ok (by simp only [USIZE]; omega), ok_bind, index_ok (by omega), ok_bind]
    · exact fun g hgr => hpos g (List.mem_range.mp hgr)

theorem Sized.putRow (hg : geo.Valid) {v : ℕ} (hv : v < n) (h : Sized geo n st) (codes : List UInt8) :
    Sized geo n (IoV7.putRow geo st v codes) := by
  have hbuf := h.buf
  rw [IoV7.putRow]
  by_cases hl : geo.layout = LAYOUT_PLANES
  · obtain ⟨-, hlrow⟩ := @length_planesRowFromCodes _ geo.rowBytes (hg.planesBits hl) codes
    have hsign := h.sign hl
    simp only [hl, if_true] at hbuf ⊢
    have hlow : v * (Pack.planesGeom geo.bitWidth geo.rowBytes).2 +
        (Pack.planesGeom geo.bitWidth geo.rowBytes).2 ≤ st.buf.length := by
      rw [hbuf, ← Nat.succ_mul]
      exact Nat.mul_le_mul_right _ hv
    refine ⟨?_, fun _ => ?_⟩
    · simp only [Pack.planesWriteRowCanonical, hl, if_true]
      rw [length_overwrite (by rw [hlrow]; exact hlow), hbuf]
    · simp only [Pack.planesWriteRowCanonical, length_scatter]
      exact hsign
  · simp only [hl, if_false] at hbuf ⊢
    exact ⟨by simp only [hl, if_false, length_scatter]; exact hbuf, fun h => absurd h hl⟩

/-- The buffers, and a scale and an id for each of the first `m` rows. -/
structure Filled (geo : Geo) (n m : ℕ) (st : Gathered) : Prop where
  sized : Sized geo n st
  scales : st.scales.length = m
  ids : geo.kind = 1 → st.ids.length = m

theorem applyOp_total (hg : geo.Valid) (hroom : geo.unitAt (n / BLOCK) ≤ ISIZE_MAX) {m b : ℕ}
    (h : Filled geo n m st) {op : ℕ × List UInt8} (hm : op.1 < m) (hn : op.1 < n)
    (hb : op.1 / BLOCK = b) (hlen : op.2.length = geo.recLen) :
    applyOp geo b st op = Run.ofExcept (IoV7.applyOp geo st op) := by
  have hrec := recLen_le hg
  have hrb : geo.rowBytes + 4 ≤ geo.recLen := by
    rw [Geo.recLen]
    omega
  have hassert : (assert (decide (op.1 / BLOCK = b)) : Run String Unit) = ok () :=
    if_pos (decide_eq_true hb)
  have hlt : op.2.length < USIZE := by
    simp only [USIZE]
    omega
  have htake : (op.2.take geo.rowBytes).length = geo.rowBytes := by
    rw [List.length_take]
    omega
  rw [applyOp, IoV7.applyOp, hassert, ok_bind, rowBytes_ok hg, ok_bind, slice_ok hlt (by omega), ok_bind,
    List.drop_zero, putRow_ok hg hroom hn h.sized htake, ok_bind, readScale_ok hlt (by omega), ok_bind]
  refine ofExcept_bind (rejectIf_ok _ _) fun _ _ => ?_
  have hs : op.1 < (IoV7.putRow geo st op.1 (op.2.take geo.rowBytes)).scales.length := by
    rw [putRow_scales, h.scales]
    exact hm
  rw [store_ok hs, ok_bind, readRecId_ok hlen hg, ok_bind]
  by_cases hk : geo.kind = 1
  · have hi : op.1 < (IoV7.putRow geo st op.1 (op.2.take geo.rowBytes)).ids.length := by
      rw [putRow_ids, h.ids hk]
      exact hm
    simp only [hk, if_true, List.foldlM_cons, List.foldlM_nil]
    rw [store_ok hi]
    rfl
  · simp only [hk, if_false]
    rfl

theorem Filled.applyOp (hg : geo.Valid) {m : ℕ} (h : Filled geo n m st) {op : ℕ × List UInt8}
    (hn : op.1 < n) {st' : Gathered} (hst : IoV7.applyOp geo st op = .ok st') : Filled geo n m st' := by
  simp only [IoV7.applyOp, bind_eq_ok, reject_eq_ok, exists_and_left, exists_const, pure, Except.pure,
    Except.ok.injEq] at hst
  obtain ⟨-, rfl⟩ := hst
  have hp := h.sized.putRow hg hn (op.2.take geo.rowBytes)
  refine ⟨⟨hp.buf, hp.sign⟩, by simp [h.scales], fun hk => ?_⟩
  simp [hk, h.ids hk]

theorem applyTail_total (hg : geo.Valid) (hroom : geo.unitAt (n / BLOCK) ≤ ISIZE_MAX)
    (h : Sized geo n st) {tail : List UInt8} {k : ℕ} (hk : k < n % BLOCK)
    (htail : tail.length = n % BLOCK * geo.recLen) :
    applyTail geo tail (n / BLOCK * BLOCK) st k =
      Run.ofExcept (IoV7.applyTail geo st (n / BLOCK * BLOCK + k, rowAt tail geo.recLen k)) := by
  have hrec := recLen_le hg
  have hrb : geo.rowBytes + 4 ≤ geo.recLen := by
    rw [Geo.recLen]
    omega
  have hmod : n % BLOCK < 32 := Nat.mod_lt _ (by decide)
  have hv : n / BLOCK * BLOCK + k < n := by
    have := Nat.div_add_mod' n BLOCK
    omega
  have hmax : n / BLOCK * BLOCK + k < USIZE := by
    have := (blocks_mul_le (show BLOCK ≤ geo.unitLen by simp only [Geo.unitLen]; omega) n).trans hroom
    simp only [ISIZE_MAX, BLOCK] at this
    simp only [BLOCK, USIZE]
    omega
  have hfit : (k + 1) * geo.recLen ≤ tail.length := by
    rw [htail]
    exact Nat.mul_le_mul_right _ hk
  have hsmall : n % BLOCK * geo.recLen ≤ 32 * 8204 := Nat.mul_le_mul hmod.le hrec
  rw [Nat.add_mul, Nat.one_mul] at hfit
  have hrow : (rowAt tail geo.recLen k).length = geo.recLen := length_rowAt htail hk
  have hlt : (rowAt tail geo.recLen k).length < USIZE := by
    simp only [USIZE]
    omega
  have htake : ((rowAt tail geo.recLen k).take geo.rowBytes).length = geo.rowBytes := by
    rw [List.length_take]
    omega
  rw [applyTail, IoV7.applyTail, recLen_ok hg, ok_bind, rowBytes_ok hg, ok_bind, usize_ok hmax, ok_bind,
    usize_ok (by simp only [USIZE]; omega), ok_bind, slice_ok (by simp only [USIZE]; omega) hfit, ok_bind,
    ← rowAt, slice_ok hlt (by omega), ok_bind, List.drop_zero, putRow_ok hg hroom hv h htake, ok_bind,
    readScale_ok hlt (by omega), ok_bind]
  refine ofExcept_bind (rejectIf_ok _ _) fun _ _ => ?_
  rw [readRecId_ok hrow hg, ok_bind]
  by_cases hkind : geo.kind = 1
  · simp only [hkind, if_true]
    rfl
  · simp only [hkind, if_false, List.append_nil]
    rfl

theorem Sized.applyTail (hg : geo.Valid) (h : Sized geo n st) {row : ℕ × List UInt8} (hn : row.1 < n)
    {st' : Gathered} (hst : IoV7.applyTail geo st row = .ok st') : Sized geo n st' := by
  simp only [IoV7.applyTail, bind_eq_ok, reject_eq_ok, exists_and_left, exists_const, pure, Except.pure,
    Except.ok.injEq] at hst
  obtain ⟨-, rfl⟩ := hst
  have hp := h.putRow hg hn (row.2.take geo.rowBytes)
  exact ⟨hp.buf, hp.sign⟩

end Rows

/-! ## The load -/

section Load

variable {T : Tables} {raw : List UInt8} {img : ParsedImage}

theorem length_gathered {geo : Geo} {st : Gathered} {b : ℕ} (hg : geo.Valid)
    (h : geo.unitAt b + geo.unitLen ≤ st.buf.length) :
    (gathered geo st b).buf.length = st.buf.length := by
  have hmoved := Geo.moved_le hg
  have hunit := blockBytes_le_unitLen geo
  have hdst := @mul_le_unitAt geo geo.moved.2 geo.moved.1 hmoved b
  have hpiece : ((st.buf.drop (geo.unitAt b + geo.moved.1)).take geo.moved.2).length = geo.moved.2 := by
    rw [List.length_take, List.length_drop]
    omega
  exact length_overwrite (by rw [hpiece]; omega)

theorem length_gathered_sign {geo : Geo} {st : Gathered} {b n : ℕ} (hl : geo.layout = LAYOUT_PLANES)
    (hb : b < n / BLOCK) (hs : st.sign.length = (n + 31) / 32 * geo.planesParts.1)
    (h : geo.unitAt b + geo.planesParts.1 ≤ st.buf.length) :
    (gathered geo st b).sign.length = (n + 31) / 32 * geo.planesParts.1 := by
  have hlen : (bytesAt st.buf (geo.unitAt b) geo.planesParts.1).length = geo.planesParts.1 :=
    length_bytesAt h
  have hsb : (b + 1) * geo.planesParts.1 ≤ (n + 31) / 32 * geo.planesParts.1 := by
    refine Nat.mul_le_mul_right _ ?_
    simp only [BLOCK] at hb
    omega
  rw [Nat.add_mul, Nat.one_mul] at hsb
  simp only [gathered, hl, if_true]
  rw [length_overwrite (by rw [hlen, hs]; exact hsb), hs]

/-- Gathering the units of an accepted image. -/
theorem gatherUnits_total (hg : img.geo.Valid) (hraw : raw.length ≤ ISIZE_MAX)
    (hfit : img.geo.unitAt (img.nVectors / BLOCK) ≤ raw.length) :
    (List.range (img.nVectors / BLOCK)).foldlM (gatherUnit img.geo) (img.start raw) =
      Run.ofExcept ((List.range (img.nVectors / BLOCK)).foldlM (IoV7.gatherUnit img.geo)
        (img.start raw)) := by
  have hroom (hl : img.geo.layout = LAYOUT_PLANES) :
      (img.nVectors + 31) / 32 * img.geo.planesParts.1 ≤ ISIZE_MAX := by
    have hle := planesParts_le hg hl
    have hunit := blockBytes_le_unitLen img.geo
    exact ((Nat.mul_le_mul_right _ (ceil_le _)).trans (blocks_mul_le (by omega) _)).trans
      (hfit.trans hraw)
  refine foldlM_ofExcept (fun l st => st.buf.length = raw.length ∧ (img.geo.layout = LAYOUT_PLANES →
      st.sign.length = (img.nVectors + 31) / 32 * img.geo.planesParts.1) ∧
      ∀ b ∈ l, b < img.nVectors / BLOCK) (fun b l st h => ?_) (fun b l st st' h hst => ?_) _
    ⟨rfl, fun hl => ?_, fun b hb => List.mem_range.mp hb⟩
  · obtain ⟨hbuf, hsign, hmem⟩ := h
    refine gatherUnit_total hg (hmem b List.mem_cons_self) (hbuf ▸ hraw) (hbuf ▸ hfit) hsign fun hl => ?_
    rw [hsign hl]
    exact hroom hl
  · obtain ⟨hbuf, hsign, hmem⟩ := h
    have hb := hmem b List.mem_cons_self
    have hunit := (img.geo.unitAt_add_le hb).trans hfit
    obtain ⟨-, rfl⟩ := (gatherUnit_ok (hbuf ▸ hunit)).mp hst
    refine ⟨(length_gathered hg (hbuf ▸ hunit)).trans hbuf, fun hl => ?_,
      fun c hc => hmem c (List.mem_cons_of_mem _ hc)⟩
    have hle := planesParts_le hg hl
    have := blockBytes_le_unitLen img.geo
    exact length_gathered_sign hl hb (hsign hl) (by omega)
  · simp only [ParsedImage.start, hl, if_true, List.length_replicate]

/-- Redo ops only target committed blocks. -/
theorem op_slot_lt (hv : img.Valid T) {g : ℕ × List (ℕ × List UInt8)} (hmem : g ∈ img.ops)
    {op : ℕ × List UInt8} (hop : op ∈ g.2) :
    op.1 < img.nVectors / BLOCK * BLOCK ∧ op.1 < img.nVectors := by
  obtain ⟨hlt, hslots⟩ := hv.ops g hmem
  have hslot := (hslots op hop).1
  simp only [BLOCK] at hlt hslot ⊢
  omega

theorem Filled.applyOps (hv : img.Valid T) {m : ℕ} {st st' : Gathered}
    (h : Filled img.geo img.nVectors m st)
    (hst : img.ops.foldlM (fun st g => g.2.foldlM (IoV7.applyOp img.geo) st) st = .ok st') :
    Filled img.geo img.nVectors m st' :=
  foldlM_keeps (Filled img.geo img.nVectors m) (fun _ hg _ _ h hst =>
    foldlM_keeps (Filled img.geo img.nVectors m) (fun _ hop _ _ h hst =>
      h.applyOp hv.geo (op_slot_lt hv hg hop).2 hst) h hst) h hst

theorem applyOps_total (hv : img.Valid T) {m : ℕ}
    (hroom : img.geo.unitAt (img.nVectors / BLOCK) ≤ ISIZE_MAX)
    (hm : img.nVectors / BLOCK * BLOCK ≤ m) {st : Gathered} (hst : Filled img.geo img.nVectors m st) :
    img.ops.foldlM (fun st g => g.2.foldlM (applyOp img.geo g.1) st) st =
      Run.ofExcept (img.ops.foldlM (fun st g => g.2.foldlM (IoV7.applyOp img.geo) st) st) := by
  refine foldlM_ofExcept (fun l st => Filled img.geo img.nVectors m st ∧ ∀ g ∈ l, g ∈ img.ops)
    (fun g l st h => ?_) (fun g l st st' h hst' => ?_) _ ⟨hst, fun g hg => hg⟩
  · have hmem := h.2 g List.mem_cons_self
    refine foldlM_ofExcept (fun l st => Filled img.geo img.nVectors m st ∧ ∀ op ∈ l, op ∈ g.2)
      (fun op l st h => ?_) (fun op l st st' h hst' => ?_) _ ⟨h.1, fun op hop => hop⟩
    · have hop := h.2 op List.mem_cons_self
      obtain ⟨hslot1, hslot2⟩ := op_slot_lt hv hmem hop
      obtain ⟨hb, hlen⟩ := (hv.ops g hmem).2 op hop
      exact applyOp_total hv.geo hroom h.1 (by omega) hslot2 hb hlen
    · have hop := h.2 op List.mem_cons_self
      exact ⟨h.1.applyOp hv.geo (op_slot_lt hv hmem hop).2 hst',
        fun op hop => h.2 op (List.mem_cons_of_mem _ hop)⟩
  · have hmem := h.2 g List.mem_cons_self
    refine ⟨foldlM_keeps (Filled img.geo img.nVectors m) (fun op hop st st' h hst => ?_) h.1 hst',
      fun g hg => h.2 g (List.mem_cons_of_mem _ hg)⟩
    exact h.applyOp hv.geo (op_slot_lt hv hmem hop).2 hst

theorem applyTails_total (hv : img.Valid T)
    (hroom : img.geo.unitAt (img.nVectors / BLOCK) ≤ ISIZE_MAX) {st : Gathered}
    (hst : Sized img.geo img.nVectors st) :
    (List.range (img.nVectors % BLOCK)).foldlM
        (applyTail img.geo img.tail (img.nVectors / BLOCK * BLOCK)) st =
      Run.ofExcept (img.tailRows.foldlM (IoV7.applyTail img.geo) st) := by
  rw [ParsedImage.tailRows, List.foldlM_map]
  refine foldlM_ofExcept (fun l st => Sized img.geo img.nVectors st ∧ ∀ k ∈ l, k < img.nVectors % BLOCK)
    (fun k l st h => ?_) (fun k l st st' h hst' => ?_) _ ⟨hst, fun k hk => List.mem_range.mp hk⟩
  · exact applyTail_total hv.geo hroom h.1 (h.2 k List.mem_cons_self) hv.tail_len
  · have hk := h.2 k List.mem_cons_self
    refine ⟨h.1.applyTail hv.geo ?_ hst', fun k hk => h.2 k (List.mem_cons_of_mem _ hk)⟩
    have := Nat.div_add_mod' img.nVectors BLOCK
    dsimp only
    omega

theorem sized_of_holding (hv : img.Valid T) {rows : ℕ → Row} {st : Gathered}
    (h : Holding img rows st) : Sized img.geo img.nVectors st := by
  rw [Holding] at h
  by_cases hl : img.geo.layout = LAYOUT_PLANES
  · rw [if_pos hl] at h
    have hb := hv.geo.planesBits hl
    have hgeom : Pack.planesGeom img.geo.bitWidth img.geo.rowBytes =
        (img.geo.dim / 8, (img.geo.bitWidth - 1) * (img.geo.dim / 8)) := by
      rw [img.geo.rowBytes_eq, planesGeom_eq hb hv.geo.dim_mod]
    refine ⟨?_, fun _ => ?_⟩
    · rw [if_pos hl, hgeom, h.low, length_flatMap_range fun v _ => length_lowPart hb (length_packRow _ _ _)]
    · rw [planesParts_eq, hgeom]
      exact h.sign.length_eq
  · rw [if_neg hl] at h
    refine ⟨?_, fun hpl => absurd hpl hl⟩
    rw [if_neg hl, h.1.length_eq, Geo.blockBytes]
    simp only [BLOCK, Nat.mul_comm 32]

theorem signLen_ok (hg : img.geo.Valid) (hroom : img.geo.unitAt (img.nVectors / BLOCK) ≤ ISIZE_MAX) :
    signLen img.geo img.nVectors = ok (if img.geo.layout = LAYOUT_PLANES then
      (img.nVectors + 31) / 32 * img.geo.planesParts.1 else 0) := by
  rw [signLen, planesParts_ok hg, ok_bind]
  by_cases hl : img.geo.layout = LAYOUT_PLANES
  · have hle := (planesParts_le hg hl).trans (blockBytes_le_unitLen img.geo)
    have hlen : (img.nVectors + 31) / 32 * img.geo.planesParts.1 ≤ ISIZE_MAX :=
      ((Nat.mul_le_mul_right _ (ceil_le _)).trans (blocks_mul_le (by omega) _)).trans hroom
    simp only [hl, if_true]
    rw [usize_ok (hlen.trans_lt (by decide)), ok_bind, alloc_ok (by omega)]
    rfl
  · simp only [hl, if_false]
    rw [usize_ok (by rw [Nat.mul_zero]; decide), ok_bind, alloc_ok (by omega)]
    rfl

theorem keptPadded_ok (hg : img.geo.Valid)
    (hroom : img.geo.unitAt (img.nVectors / BLOCK) ≤ ISIZE_MAX) {st : Gathered}
    (hst : Sized img.geo img.nVectors st) :
    keptPadded img.geo img.nVectors = ok img.keptPadded := by
  have hbuf := (hst.le_unitAt hg).1.trans hroom
  have hsize := hst.buf
  rw [keptPadded, planesRow_ok hg, ok_bind, ParsedImage.keptPadded]
  by_cases hl : img.geo.layout = LAYOUT_PLANES
  · have hle := (planesParts_le hg hl).trans (blockBytes_le_unitLen img.geo)
    have hkept : img.nVectors / BLOCK * img.geo.planesParts.2 ≤ ISIZE_MAX :=
      ((Nat.mul_le_mul_right _ (Nat.le_succ _)).trans
        (blocks_mul_le (show img.geo.planesParts.2 ≤ img.geo.unitLen by omega) _)).trans hroom
    simp only [hl, if_true] at hsize ⊢
    rw [hsize] at hbuf
    rw [planesParts_ok hg, if_pos hl, ok_bind]
    rw [rowBytes_ok hg, ok_bind, blockBytes_ok hg, ok_bind, usize_ok (hkept.trans_lt (by decide)), ok_bind,
      usize_ok (hbuf.trans_lt (by decide)), ok_bind, alloc_ok (by omega)]
    rfl
  · have hkept : img.nVectors / BLOCK * img.geo.blockBytes ≤ ISIZE_MAX :=
      ((Nat.mul_le_mul_right _ (Nat.le_succ _)).trans
        (blocks_mul_le (blockBytes_le_unitLen img.geo) _)).trans hroom
    simp only [hl, if_false] at hsize ⊢
    rw [hsize] at hbuf
    rw [planesParts_ok hg, if_neg hl, ok_bind]
    rw [rowBytes_ok hg, ok_bind, blockBytes_ok hg, ok_bind, usize_ok (hkept.trans_lt (by decide)), ok_bind,
      usize_ok (hbuf.trans_lt (by decide)), ok_bind, alloc_ok (by omega)]
    rfl

/-- Room for the scales and the ids. -/
theorem rows_mul_le (geo : Geo) {n size : ℕ} (h : 32 * size ≤ geo.unitLen)
    (hroom : geo.unitAt (n / BLOCK) ≤ ISIZE_MAX) : n * size ≤ ISIZE_MAX := by
  have hn : n ≤ (n / BLOCK + 1) * 32 := by
    simp only [BLOCK]
    omega
  calc n * size ≤ (n / BLOCK + 1) * 32 * size := Nat.mul_le_mul_right _ hn
    _ = (n / BLOCK + 1) * (32 * size) := Nat.mul_assoc _ _ _
    _ ≤ ISIZE_MAX := (blocks_mul_le h n).trans hroom

/-- The loader refines its total form: it never panics. -/
theorem loadImage_total (T : Tables) (raw : Bytes) (expectCalibGen expectKind : ℕ) :
    loadImage T raw.data expectCalibGen expectKind =
      Run.ofExcept (IoV7.loadImage T raw.data expectCalibGen expectKind) := by
  obtain ⟨raw, hraw⟩ := raw
  rw [loadImage, IoV7.loadImage]
  refine ofExcept_bind (parseImage_total T hraw expectKind) fun img himg => ?_
  obtain ⟨hv, -, hfit⟩ := parseImage_ok himg
  have hroom := hfit.trans hraw
  obtain ⟨st, hst, hunits⟩ := gatherUnits_spec hv.geo hfit (Nat.le_refl _)
  have hspread := holdingTo_spread hv.geo hfit hst
  have hsized := sized_of_holding hv hspread.codes
  have hscales := rows_mul_le img.geo (show 32 * 4 ≤ img.geo.unitLen by
    simp only [Geo.unitLen, BLOCK]; omega) hroom
  have hids : (if img.geo.kind = 1 then img.nVectors else 0) * 8 ≤ ISIZE_MAX := by
    split
    · rename_i hk
      exact rows_mul_le img.geo (by simp only [Geo.unitLen, Geo.idBytes, hk, if_true, BLOCK]; omega) hroom
    · decide
  have hfirst : img.nVectors / BLOCK * BLOCK < USIZE := by
    simp only [ISIZE_MAX] at hscales
    simp only [BLOCK, USIZE]
    omega
  have hstart : (⟨raw, if img.geo.layout = LAYOUT_PLANES then List.replicate
      (if img.geo.layout = LAYOUT_PLANES then (img.nVectors + 31) / 32 * img.geo.planesParts.1 else 0) 0
      else [], [], []⟩ : Gathered) = img.start raw := by
    rw [ParsedImage.start]
    split <;> rfl
  dsimp only
  rw [alloc_ok hscales, ok_bind, alloc_ok hids, ok_bind, signLen_ok hv.geo hroom, ok_bind, hstart]
  refine ofExcept_bind (gatherUnits_total hv.geo hraw hfit) fun st' hst' => ?_
  obtain ⟨-, rfl⟩ := (hunits st').mp hst'
  have hfilled : Filled img.geo img.nVectors (img.nVectors / BLOCK * BLOCK) (img.spread st') := by
    refine ⟨hsized, by simp [hspread.scales], fun hk => ?_⟩
    rw [hspread.ids, if_pos hk, List.length_map, List.length_range]
  rw [keptPadded_ok hv.geo hroom hsized, ok_bind]
  refine ofExcept_bind (applyOps_total hv hroom (Nat.le_refl _) hfilled) fun st'' hst'' => ?_
  rw [usize_ok hfirst, ok_bind]
  exact ofExcept_bind (applyTails_total hv hroom (hfilled.applyOps hv hst'').sized) fun _ _ => rfl

/-! ## What a load returns -/

/-- Everything the index relies on of a loaded image. -/
structure WellFormed (T : Tables) (expectKind : ℕ) (l : V7Load) : Prop where
  scales_len : l.scales.length = l.nVectors
  scales : ∀ v ∈ l.scales, validScale v = true
  ids_len : l.ids.length = if expectKind = 1 then l.nVectors else 0
  calib_len : (l.tqplusShift.length = 0 ∨ l.tqplusShift.length = l.dim) ∧
    l.tqplusScale.length = l.tqplusShift.length
  calib : validateCalibration T.bounds l.tqplusShift l.tqplusScale = .ok ()
  seq : l.layout ≠ LAYOUT_PLANES → l.sign = [] ∧ l.low = [] ∧
    l.seqBlocked.length = (Pack.blockedGeometry l.nVectors l.bitWidth l.dim).2.2
  planes : l.layout = LAYOUT_PLANES → l.seqBlocked = [] ∧
    l.sign.length = (Pack.blockedGeometry l.nVectors l.bitWidth l.dim).1 *
      ((Pack.planesGeom l.bitWidth (Pack.blockedGeometry l.nVectors l.bitWidth l.dim).2.1).1 * BLOCK) ∧
    l.low.length = l.nVectors *
      (Pack.planesGeom l.bitWidth (Pack.blockedGeometry l.nVectors l.bitWidth l.dim).2.1).2
  pending : ∀ s ∈ l.pendingSlots, s < 32 * (l.nVectors / 32)

theorem validScale_rows {v : ℕ} (h : ScalesOk img raw) : validScale (img.rows raw v).scale = true := by
  rw [ParsedImage.rows, writeRows_apply]
  cases hr : lastRec (img.flatOps ++ img.tailRows) v with
  | some r =>
    rw [lastRec, Option.map_eq_some_iff] at hr
    obtain ⟨r', hr', rfl⟩ := hr
    exact h.recs r' (List.mem_reverse.mp (List.mem_of_find?_eq_some hr'))
  | none =>
    by_cases hv : v < img.nVectors / BLOCK * BLOCK
    · exact h.units v hv
    · simp only [Option.elim_none]
      rw [unitRows_of_le img.geo raw hv]
      exact validScale_zero

theorem wellFormed_of_loaded {expectKind expectCalibGen : ℕ} {l : V7Load} (hv : img.Valid T)
    (hk : img.geo.kind = expectKind) (hs : ScalesOk img raw)
    (hl : Loaded img (img.rows raw) expectCalibGen l) : WellFormed T expectKind l := by
  have hcalib := hv.calibration
  have hgeom : Pack.blockedGeometry l.nVectors l.bitWidth l.dim =
      ((img.nVectors + 31) / 32, img.geo.rowBytes, (img.nVectors + 31) / 32 * (img.geo.rowBytes * 32)) := by
    rw [blockedGeometry_eq, hl.nVectors, hl.bitWidth, hl.dim, img.geo.rowBytes_eq]
  constructor
  · rw [hl.scales, hl.nVectors, List.length_map, List.length_range]
  · rw [hl.scales]
    intro s hmem
    obtain ⟨v, -, rfl⟩ := List.mem_map.mp hmem
    exact validScale_rows hs
  · rw [hl.ids, hl.nVectors, hk]
    split
    · rw [List.length_map, List.length_range]
    · rfl
  · rw [hl.tqplusShift, hl.tqplusScale, hl.dim, hcalib.shift_len, hcalib.scale_len]
    exact ⟨hv.geo.nCalib, rfl⟩
  · rw [hl.tqplusShift, hl.tqplusScale]
    exact hcalib.valid
  · intro hlay
    rw [hl.layout] at hlay
    obtain ⟨hseq, hsign, hlow⟩ := hl.seq hlay
    refine ⟨hsign, hlow, ?_⟩
    rw [hgeom, hseq.length_eq]
  · intro hlay
    rw [hl.layout] at hlay
    obtain ⟨hreg, hseq⟩ := hl.planes hlay
    have hb := hv.geo.planesBits hlay
    rw [hgeom, hl.bitWidth, hl.nVectors, img.geo.rowBytes_eq, planesGeom_eq hb hv.geo.dim_mod]
    refine ⟨hseq, hreg.sign.length_eq, ?_⟩
    rw [hreg.low, length_flatMap_range fun v _ => length_lowPart hb (length_packRow _ _ _)]
  · rw [hl.pendingSlots, hl.nVectors, hv.pending]
    intro s hmem
    obtain ⟨g, hg, hmem⟩ := List.mem_flatMap.mp hmem
    obtain ⟨op, hop, rfl⟩ := List.mem_map.mp hmem
    have := (op_slot_lt hv hg hop).1
    simp only [BLOCK] at this
    omega

/-- Loading any bytes ends in an error or in a well-formed index, and never in a panic. -/
theorem loadImage_never_panics (T : Tables) (raw : Bytes) (expectCalibGen expectKind : ℕ) :
    loadImage T raw.data expectCalibGen expectKind ≠ .panic ∧
      ∀ l, loadImage T raw.data expectCalibGen expectKind = .ok l → WellFormed T expectKind l := by
  rw [loadImage_total]
  refine ⟨ofExcept_ne_panic _, fun l h => ?_⟩
  obtain ⟨img, himg, hs, hl⟩ := loadImage_ok (ofExcept_eq_ok.mp h)
  obtain ⟨hv, hk, -⟩ := parseImage_ok himg
  exact wellFormed_of_loaded hv hk hs hl

/-- A blank image of 33 rows. -/
def blankBytes : Bytes where
  data := writeImage (blankSource 33) 0 0
  length_le := by
    have hw := @blankSource_wf 33 (by decide)
    rw [(fullImage_writeImage hw 0 0).length_eq]
    exact (unitAt_le hw.ok.geo _).trans (by decide)

theorem blankBytes_wellFormed : ∃ l, loadImage blankTables blankBytes.data 0 0 = .ok l ∧
    WellFormed blankTables 0 l := by
  have hscale (v : ℕ) : validScale (entry (List.replicate 33 (0 : F32)) v) = true := by
    rw [entry_replicate_zero]
    exact validScale_zero
  obtain ⟨l, hl, -⟩ := @loadImage_writeImage blankTables (blankSource 33) 0 0
    (@blankSource_wf 33 (by decide)) (by decide) rfl (by decide) (fun v _ => hscale v) 0
  have hrun : loadImage blankTables blankBytes.data 0 0 = .ok l := by
    rw [loadImage_total]
    exact ofExcept_eq_ok.mpr hl
  exact ⟨l, hrun, (loadImage_never_panics blankTables blankBytes 0 0).2 l hrun⟩

end Load

end Turbovec.IoV7.Checked
