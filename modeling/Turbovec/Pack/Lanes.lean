import Turbovec.Pack.Blocked

/-!
# Lane operations

The in-place mutations of a blocked buffer: write, zero, move and append whole lanes. Each is read back
lane by lane, and leaves every other lane as it was.
-/

namespace Turbovec.Pack

open Slice Grid

/-- Vector `v`'s code byte for group `g`. -/
def laneCode (P : Platform) (blocked : List UInt8) (bits nByteGroups v g : ℕ) : UInt8 :=
  readCode P blocked bits nByteGroups (v / BLOCK) g (v % BLOCK)

/-- Vector `v`'s code bytes. -/
def laneRow (P : Platform) (blocked : List UInt8) (bits nByteGroups v : ℕ) : List UInt8 :=
  tabulate nByteGroups (laneCode P blocked bits nByteGroups v)

/-- Store `codes g` for every group of vector `v`. -/
def writeLane (P : Platform) (blocked : List UInt8) (bits nByteGroups v : ℕ) (codes : ℕ → UInt8) :
    List UInt8 :=
  (List.range nByteGroups).foldl
    (fun bl g => writeCode P bl bits nByteGroups (v / BLOCK) g (v % BLOCK) (codes g)) blocked

/-- Copy vector `src`'s code bytes into vector `dst`'s lane. -/
def moveLane (P : Platform) (blocked : List UInt8) (bits nByteGroups src dst : ℕ) : List UInt8 :=
  (List.range nByteGroups).foldl
    (fun bl g => writeCode P bl bits nByteGroups (dst / BLOCK) g (dst % BLOCK)
      (readCode P bl bits nByteGroups (src / BLOCK) g (src % BLOCK))) blocked

/-- `moveLane` with the moved row's code bytes handed out. -/
def moveLaneCapture (P : Platform) (blocked : List UInt8) (bits nByteGroups src dst : ℕ) :
    List UInt8 × List UInt8 :=
  (List.range nByteGroups).foldl
    (fun st g =>
      let code := readCode P st.1 bits nByteGroups (src / BLOCK) g (src % BLOCK)
      (writeCode P st.1 bits nByteGroups (dst / BLOCK) g (dst % BLOCK) code, st.2 ++ [code]))
    (blocked, [])

/-- Zero vector `v`'s code bytes. -/
def zeroLane (P : Platform) (blocked : List UInt8) (bits nByteGroups v : ℕ) : List UInt8 :=
  writeLane P blocked bits nByteGroups v fun _ => 0

/-- `Vec::resize` with zero. -/
def resize (l : List UInt8) (n : ℕ) : List UInt8 :=
  l.take n ++ List.replicate (n - l.length) 0

/-- Append `nNew` vectors' packed rows as lane writes. -/
def appendLanes (P : Platform) (blocked packedRows : List UInt8) (oldN nNew bits dim : ℕ) :
    List UInt8 :=
  let (_, nByteGroups, newLen) := blockedGeometry (oldN + nNew) bits dim
  let codesFlat := extractCodesFlat packedRows nNew bits dim
  (List.range nNew).foldl
    (fun bl i => writeLane P bl bits nByteGroups (oldN + i) fun g =>
      entry codesFlat (i * nByteGroups + g)) (resize blocked newLen)

variable {P : Platform} {bits nbg nb v w g : ℕ} {blocked : List UInt8}

@[simp] theorem length_laneRow (P : Platform) (blocked : List UInt8) (bits nbg v : ℕ) :
    (laneRow P blocked bits nbg v).length = nbg :=
  length_tabulate _ _

theorem entry_laneRow (hg : g < nbg) :
    entry (laneRow P blocked bits nbg v) g = laneCode P blocked bits nbg v g :=
  entry_tabulate _ hg

theorem laneRow_congr {blocked' : List UInt8} {v' : ℕ}
    (h : ∀ g < nbg, laneCode P blocked bits nbg v g = laneCode P blocked' bits nbg v' g) :
    laneRow P blocked bits nbg v = laneRow P blocked' bits nbg v' :=
  tabulate_congr h

/-- A vector of a buffer of `nb` blocks is in one of them. -/
theorem inBlock_of_lt (hl : blocked.length = nb * (nbg * 32)) (hv : v < nb * 32) (hg : g < nbg) :
    InBlock blocked.length nbg (v / BLOCK) g (v % BLOCK) where
  group := hg
  lane := Nat.mod_lt _ (by decide)
  fits := by
    rw [hl]
    refine Nat.mul_le_mul_right _ ?_
    simp only [BLOCK]
    omega

theorem lane_eq_iff : v / BLOCK = w / BLOCK ∧ v % BLOCK = w % BLOCK ↔ v = w := by
  constructor
  · rintro ⟨h1, h2⟩
    rw [← Nat.div_add_mod v BLOCK, h1, h2, Nat.div_add_mod]
  · rintro rfl
    exact ⟨rfl, rfl⟩

theorem laneCode_writeCode (hl : blocked.length = nb * (nbg * 32)) (hv : v < nb * 32)
    (hw : w < nb * 32) {g' : ℕ} (hg : g < nbg) (hg' : g' < nbg) (code : UInt8) :
    laneCode P (writeCode P blocked bits nbg (v / BLOCK) g (v % BLOCK) code) bits nbg w g' =
      if v = w ∧ g = g' then code else laneCode P blocked bits nbg w g' := by
  rw [laneCode, readCode_writeCode (inBlock_of_lt hl hv hg) (inBlock_of_lt hl hw hg')]
  refine if_congr ?_ rfl rfl
  constructor
  · rintro ⟨h1, h2, h3⟩
    exact ⟨lane_eq_iff.1 ⟨h1, h3⟩, h2⟩
  · rintro ⟨rfl, rfl⟩
    exact ⟨rfl, rfl, rfl⟩

theorem length_foldl_writeCode (gs : List ℕ) (codes : ℕ → UInt8) (blocked : List UInt8) :
    (gs.foldl (fun bl g => writeCode P bl bits nbg (v / BLOCK) g (v % BLOCK) (codes g))
      blocked).length = blocked.length := by
  induction gs generalizing blocked with
  | nil => rfl
  | cons g gs ih => rw [List.foldl_cons, ih, length_writeCode]

@[simp] theorem length_writeLane (codes : ℕ → UInt8) :
    (writeLane P blocked bits nbg v codes).length = blocked.length :=
  length_foldl_writeCode _ codes blocked

/-- The written lane holds the codes, every other lane what it held. -/
theorem laneCode_writeLane (hl : blocked.length = nb * (nbg * 32)) (hv : v < nb * 32)
    (hw : w < nb * 32) (hg : g < nbg) (codes : ℕ → UInt8) :
    laneCode P (writeLane P blocked bits nbg v codes) bits nbg w g =
      if v = w then codes g else laneCode P blocked bits nbg w g := by
  have hgen : ∀ m ≤ nbg, laneCode P ((List.range m).foldl (fun bl g =>
      writeCode P bl bits nbg (v / BLOCK) g (v % BLOCK) (codes g)) blocked) bits nbg w g =
        if v = w ∧ g < m then codes g else laneCode P blocked bits nbg w g := by
    intro m hm
    induction m with
    | zero => simp
    | succ m ih =>
      have hlen := @length_foldl_writeCode P bits nbg v
        (List.range m) codes blocked
      rw [List.range_succ, List.foldl_append, List.foldl_cons, List.foldl_nil,
        laneCode_writeCode (hlen.trans hl) hv hw (by omega) hg, ih (by omega)]
      by_cases hvw : v = w
      · by_cases hgm : m = g
        · simp [hvw, hgm]
        · have : g < m + 1 ↔ g < m := by omega
          simp [hvw, hgm, this]
      · simp [hvw]
  have := hgen nbg le_rfl
  rwa [if_congr (and_iff_left hg) rfl rfl] at this

/-- Moving a lane is writing it with the source lane's codes. -/
theorem moveLane_eq (hl : blocked.length = nb * (nbg * 32)) (hv : v < nb * 32) (hw : w < nb * 32)
    (hne : w ≠ v) : moveLane P blocked bits nbg v w =
      writeLane P blocked bits nbg w (laneCode P blocked bits nbg v) := by
  -- after `m` groups the two loops agree, and the source lane is still what it was
  have hgen : ∀ m ≤ nbg, (List.range m).foldl
      (fun bl g => writeCode P bl bits nbg (w / BLOCK) g (w % BLOCK)
        (readCode P bl bits nbg (v / BLOCK) g (v % BLOCK))) blocked =
      (List.range m).foldl (fun bl g => writeCode P bl bits nbg (w / BLOCK) g (w % BLOCK)
        (laneCode P blocked bits nbg v g)) blocked ∧
      ∀ g < nbg, laneCode P ((List.range m).foldl (fun bl g =>
        writeCode P bl bits nbg (w / BLOCK) g (w % BLOCK) (laneCode P blocked bits nbg v g))
          blocked) bits nbg v g = laneCode P blocked bits nbg v g := by
    intro m hm
    induction m with
    | zero => simp only [List.range_zero, List.foldl_nil, implies_true, and_self]
    | succ m ih =>
      obtain ⟨ih1, ih2⟩ := ih (by omega)
      have hlen := @length_foldl_writeCode P bits nbg w
        (List.range m) (laneCode P blocked bits nbg v) blocked
      simp only [List.range_succ, List.foldl_append, List.foldl_cons, List.foldl_nil]
      refine ⟨?_, fun g hg => ?_⟩
      · have hread := ih2 m (by omega)
        rw [laneCode] at hread
        rw [ih1, hread]
      · rw [laneCode_writeCode (hlen.trans hl) hw hv (by omega) hg, if_neg (fun h => hne h.1),
          ih2 g hg]
  rw [moveLane, (hgen nbg le_rfl).1, writeLane]

theorem length_moveLane (hl : blocked.length = nb * (nbg * 32)) (hv : v < nb * 32)
    (hw : w < nb * 32) (hne : w ≠ v) :
    (moveLane P blocked bits nbg v w).length = nb * (nbg * 32) := by
  rw [moveLane_eq hl hv hw hne, length_writeLane, hl]

/-- The destination holds the source's codes, every other lane what it held. -/
theorem laneCode_moveLane (hl : blocked.length = nb * (nbg * 32)) (hv : v < nb * 32)
    (hw : w < nb * 32) (hne : w ≠ v) {u : ℕ} (hu : u < nb * 32) (hg : g < nbg) :
    laneCode P (moveLane P blocked bits nbg v w) bits nbg u g =
      if w = u then laneCode P blocked bits nbg v g else laneCode P blocked bits nbg u g := by
  rw [moveLane_eq hl hv hw hne, laneCode_writeLane hl hw hu hg]

/-- What a capture hands out is the moved row. -/
theorem moveLaneCapture_eq (hl : blocked.length = nb * (nbg * 32)) (hv : v < nb * 32)
    (hw : w < nb * 32) (hne : w ≠ v) : moveLaneCapture P blocked bits nbg v w =
      (moveLane P blocked bits nbg v w, laneRow P blocked bits nbg v) := by
  have hgen : ∀ m ≤ nbg, (List.range m).foldl (fun st g =>
      (writeCode P st.1 bits nbg (w / BLOCK) g (w % BLOCK)
        (readCode P st.1 bits nbg (v / BLOCK) g (v % BLOCK)),
        st.2 ++ [readCode P st.1 bits nbg (v / BLOCK) g (v % BLOCK)])) (blocked, []) =
      ((List.range m).foldl (fun bl g => writeCode P bl bits nbg (w / BLOCK) g (w % BLOCK)
        (laneCode P blocked bits nbg v g)) blocked, tabulate m (laneCode P blocked bits nbg v)) ∧
      ∀ g < nbg, laneCode P ((List.range m).foldl (fun bl g =>
        writeCode P bl bits nbg (w / BLOCK) g (w % BLOCK) (laneCode P blocked bits nbg v g))
          blocked) bits nbg v g = laneCode P blocked bits nbg v g := by
    intro m hm
    induction m with
    | zero =>
      simp only [List.range_zero, List.foldl_nil, implies_true, and_true, tabulate, List.map_nil]
    | succ m ih =>
      obtain ⟨ih1, ih2⟩ := ih (by omega)
      have hlen := @length_foldl_writeCode P bits nbg w
        (List.range m) (laneCode P blocked bits nbg v) blocked
      have hread := ih2 m (by omega)
      rw [laneCode] at hread
      simp only [List.range_succ, List.foldl_append, List.foldl_cons, List.foldl_nil]
      refine ⟨?_, fun g hg => ?_⟩
      · rw [ih1]
        simp only [hread, tabulate, List.range_succ, List.map_append, List.map_cons, List.map_nil]
      · rw [laneCode_writeCode (hlen.trans hl) hw hv (by omega) hg, if_neg (fun h => hne h.1),
          ih2 g hg]
  rw [moveLane_eq hl hv hw hne, writeLane, laneRow, ← (hgen nbg le_rfl).1, moveLaneCapture]

@[simp] theorem length_zeroLane : (zeroLane P blocked bits nbg v).length = blocked.length :=
  length_writeLane _

theorem laneCode_zeroLane (hl : blocked.length = nb * (nbg * 32)) (hv : v < nb * 32)
    (hw : w < nb * 32) (hg : g < nbg) : laneCode P (zeroLane P blocked bits nbg v) bits nbg w g =
      if v = w then 0 else laneCode P blocked bits nbg w g :=
  laneCode_writeLane hl hv hw hg _

/-! ## Growing and cutting -/

/-- A block of zeros holds zero codes. -/
theorem readCode_zero {b lane : ℕ} (hg : g < nbg) (hl : lane < 32)
    (h : ∀ k < nbg * 32, entry blocked (b * (nbg * 32) + k) = 0) :
    readCode P blocked bits nbg b g lane = 0 := by
  have hz : ∀ i, entry ([] : List UInt8) i = 0 := entry_nil
  have hsame : ∀ k < nbg * 32, entry blocked (b * (nbg * 32) + k) =
      entry ([] : List UInt8) (0 * (nbg * 32) + k) := fun k hk => by rw [h k hk, entry_nil]
  rw [readCode_congr hg hl hsame]
  unfold readCode deinterleaveX86CodeByte
  simp only [hz]
  split
  · rfl
  · split
    · rfl
    · cases P.arch <;> simp

theorem length_resize (l : List UInt8) (n : ℕ) : (resize l n).length = n := by
  simp only [resize, List.length_append, List.length_take, List.length_replicate]
  omega

theorem entry_resize (l : List UInt8) {n i : ℕ} (hi : i < n) : entry (resize l n) i = entry l i := by
  rw [resize]
  by_cases h : i < l.length
  · rw [entry_append_left (by rw [List.length_take]; omega), entry_take hi]
  · rw [entry_append_right (by rw [List.length_take]; omega), entry_replicate_zero,
      entry_of_length_le (by omega)]

/-- Growing a buffer by whole blocks adds zero lanes. -/
theorem laneCode_resize {nb' : ℕ} (hl : blocked.length = nb * (nbg * 32)) (hv : v < nb' * 32)
    (hg : g < nbg) : laneCode P (resize blocked (nb' * (nbg * 32))) bits nbg v g =
      if v < nb * 32 then laneCode P blocked bits nbg v g else 0 := by
  have hlane : v % BLOCK < 32 := Nat.mod_lt _ (by decide)
  have hblk : v / BLOCK < nb' := by simp only [BLOCK]; omega
  have hres (k : ℕ) (hk : k < nbg * 32) : entry (resize blocked (nb' * (nbg * 32)))
      (v / BLOCK * (nbg * 32) + k) = entry blocked (v / BLOCK * (nbg * 32) + k) :=
    entry_resize _ (mul_add_lt hblk hk)
  by_cases h : v < nb * 32
  · rw [if_pos h]
    exact readCode_congr hg hlane hres
  · rw [if_neg h]
    refine readCode_zero hg hlane fun k hk => ?_
    rw [hres k hk, entry_of_length_le]
    have : nb ≤ v / BLOCK := by simp only [BLOCK]; omega
    calc blocked.length = nb * (nbg * 32) := hl
      _ ≤ v / BLOCK * (nbg * 32) := Nat.mul_le_mul_right _ this
      _ ≤ v / BLOCK * (nbg * 32) + k := Nat.le_add_right _ _

/-- A lane past the end of the buffer reads as zero. -/
theorem laneCode_of_le (hl : blocked.length = nb * (nbg * 32)) (hv : nb * 32 ≤ v) (hg : g < nbg) :
    laneCode P blocked bits nbg v g = 0 := by
  refine readCode_zero hg (Nat.mod_lt _ (by decide)) fun k hk => entry_of_length_le ?_
  have : nb ≤ v / BLOCK := by simp only [BLOCK]; omega
  calc blocked.length = nb * (nbg * 32) := hl
    _ ≤ v / BLOCK * (nbg * 32) := Nat.mul_le_mul_right _ this
    _ ≤ v / BLOCK * (nbg * 32) + k := Nat.le_add_right _ _

/-! ## A buffer that holds `n` rows -/

theorem lt_blocks {n v : ℕ} (h : v < n) : v < (n + 31) / 32 * 32 := by
  omega

/-- `blocked` has the blocks of `n` vectors, vector `v`'s code byte for group `g` is `f v g`, and its
padding lanes are zero. -/
structure LanesHold (P : Platform) (bits nbg n : ℕ) (f : ℕ → ℕ → UInt8) (blocked : List UInt8) :
    Prop where
  length_eq : blocked.length = (n + 31) / 32 * (nbg * 32)
  code : ∀ v g, g < nbg → laneCode P blocked bits nbg v g = if v < n then f v g else 0

section LanesHold

variable {n : ℕ} {f : ℕ → ℕ → UInt8}

theorem LanesHold.of_lt (hl : blocked.length = (n + 31) / 32 * (nbg * 32))
    (h : ∀ v < (n + 31) / 32 * 32, ∀ g < nbg,
      laneCode P blocked bits nbg v g = if v < n then f v g else 0) :
    LanesHold P bits nbg n f blocked := by
  refine ⟨hl, fun v g hg => ?_⟩
  by_cases hv : v < (n + 31) / 32 * 32
  · exact h v hv g hg
  · rw [laneCode_of_le hl (by omega) hg, if_neg (by omega)]

theorem LanesHold.congr {f' : ℕ → ℕ → UInt8} (h : LanesHold P bits nbg n f blocked)
    (hf : ∀ v < n, ∀ g < nbg, f v g = f' v g) : LanesHold P bits nbg n f' blocked := by
  refine ⟨h.length_eq, fun v g hg => ?_⟩
  rw [h.code v g hg]
  by_cases hv : v < n
  · rw [if_pos hv, if_pos hv, hf v hv g hg]
  · rw [if_neg hv, if_neg hv]

theorem LanesHold.laneRow_eq (h : LanesHold P bits nbg n f blocked) (hv : v < n) :
    laneRow P blocked bits nbg v = tabulate nbg (f v) :=
  tabulate_congr fun g hg => by rw [h.code v g hg, if_pos hv]

theorem lanesHold_packBlockedNative (flat : List UInt8) :
    LanesHold P bits nbg n (fun v g => entry flat (v * nbg + g))
      (packBlockedNative P n ((n + 31) / 32) bits nbg flat) := by
  refine .of_lt (length_packBlockedNative n flat) fun v hv g hg => ?_
  have hb : v / BLOCK < (n + 31) / 32 := by simp only [BLOCK]; omega
  have hlane : v % BLOCK < 32 := Nat.mod_lt _ (by decide)
  rw [laneCode, readCode_packBlockedNative n flat hb hg hlane]
  have : v / BLOCK * 32 + v % BLOCK = v := Nat.div_add_mod' v 32
  rw [this]

/-- The stored form holds `n` rows: vector `v`'s code byte for group `g` is `f v g`, padding zero. -/
structure SeqHold (nbg n : ℕ) (f : ℕ → ℕ → UInt8) (seq : List UInt8) : Prop where
  length_eq : seq.length = (n + 31) / 32 * (nbg * 32)
  code : ∀ v < (n + 31) / 32 * 32, ∀ g < nbg, entry seq ((v / 32 * nbg + g) * 32 + v % 32) =
    if v < n then f v g else 0

theorem SeqHold.congr {f' : ℕ → ℕ → UInt8} {seq : List UInt8} (h : SeqHold nbg n f seq)
    (hf : ∀ v < n, ∀ g < nbg, f v g = f' v g) : SeqHold nbg n f' seq := by
  refine ⟨h.length_eq, fun v hv g hg => ?_⟩
  rw [h.code v hv g hg]
  by_cases hvn : v < n
  · rw [if_pos hvn, if_pos hvn, hf v hvn g hg]
  · rw [if_neg hvn, if_neg hvn]

theorem SeqHold.padding {seq : List UInt8} (h : SeqHold nbg n f seq) :
    seq.length = (n + 31) / 32 * (nbg * 32) ∧ ∀ v, n ≤ v → v < (n + 31) / 32 * 32 → ∀ g < nbg,
      entry seq ((v / 32 * nbg + g) * 32 + v % 32) = 0 := by
  refine ⟨h.length_eq, fun v hn hv g hg => ?_⟩
  rw [h.code v hv g hg, if_neg (by omega)]

/-- Two lists of whole blocks with the same code bytes are equal. -/
theorem ext_blocks {m : ℕ} {x y : List UInt8} (hx : x.length = m * (nbg * 32))
    (hy : y.length = m * (nbg * 32)) (h : ∀ v < m * 32, ∀ g < nbg,
      entry x ((v / 32 * nbg + g) * 32 + v % 32) = entry y ((v / 32 * nbg + g) * 32 + v % 32)) :
    x = y := by
  refine ext_entry (hx.trans hy.symm) fun k hk => ?_
  rw [hx, ← Nat.mul_assoc] at hk
  have hrow : k / 32 < m * nbg := by omega
  have hnbg : 0 < nbg := Nat.pos_of_mul_pos_left (by omega : 0 < m * nbg)
  have hb : k / 32 / nbg < m := by rwa [Nat.div_lt_iff_lt_mul hnbg]
  have hv := h (k / 32 / nbg * 32 + k % 32) (by omega) (k / 32 % nbg) (Nat.mod_lt _ hnbg)
  have h1 : (k / 32 / nbg * 32 + k % 32) / 32 = k / 32 / nbg := by omega
  have h2 : (k / 32 / nbg * 32 + k % 32) % 32 = k % 32 := by omega
  rwa [h1, h2, Nat.div_add_mod', Nat.div_add_mod'] at hv

theorem SeqHold.unique {seq seq' : List UInt8} (h : SeqHold nbg n f seq)
    (h' : SeqHold nbg n f seq') : seq = seq' :=
  ext_blocks h.length_eq h'.length_eq fun v hv g hg => by rw [h.code v hv g hg, h'.code v hv g hg]

theorem lanesHold_seqIntoNative {seq : List UInt8} (h : SeqHold nbg n f seq) :
    LanesHold P bits nbg n f (seqIntoNative P seq bits nbg) := by
  refine .of_lt (length_seqIntoNative h.length_eq) fun v hv g hg => ?_
  have hb : v / BLOCK < (n + 31) / 32 := by simp only [BLOCK]; omega
  have hlane : v % BLOCK < 32 := Nat.mod_lt _ (by decide)
  rw [laneCode, readCode_seqIntoNative h.length_eq hb hg hlane]
  exact h.code v hv g hg

/-- The stored form of a buffer. -/
theorem LanesHold.toSeq (h : LanesHold P bits nbg n f blocked) :
    SeqHold nbg n f (nativeToSeq P blocked bits nbg) := by
  refine ⟨length_nativeToSeq h.length_eq, fun v hv g hg => ?_⟩
  rw [← h.code v g hg]
  exact entry_nativeToSeq h.length_eq (by omega) hg (Nat.mod_lt _ (by decide))

theorem seqHold_packBlockedSequential (flat : List UInt8) :
    SeqHold nbg n (fun v g => entry flat (v * nbg + g))
      (packBlockedSequential n ((n + 31) / 32) nbg flat) := by
  refine ⟨length_packBlockedSequential n flat, fun v hv g hg => ?_⟩
  have hb : v / 32 < (n + 31) / 32 := by omega
  have := entry_packBlockedSequential n flat hb hg (Nat.mod_lt v (show 0 < 32 by decide))
  rw [this, Nat.div_add_mod']

theorem seqHold_repackSeq {dim : ℕ} (hb : ValidBits bits) (hd : dim % 8 = 0) (packed : List UInt8) :
    SeqHold (dim / codesPerByte bits) n
      (fun v g => entry (extractRow bits dim (rowAt packed (bits * (dim / 8)) v)) g)
      (repackSeq packed n bits dim) := by
  simp only [repackSeq, blockedGeometry_eq]
  refine (seqHold_packBlockedSequential _).congr fun v hv g hg => ?_
  rw [← entry_rowAt _ hg, rowAt_extractCodesFlat hb hd _ hv]

/-- Vector `v`'s code bytes in the stored form. -/
def seqRowAt (seq : List UInt8) (nbg v : ℕ) : List UInt8 :=
  tabulate nbg fun g => entry seq ((v / 32 * nbg + g) * 32 + v % 32)

@[simp] theorem length_seqRowAt (seq : List UInt8) (nbg v : ℕ) :
    (seqRowAt seq nbg v).length = nbg :=
  length_tabulate _ _

theorem entry_seqRowAt (seq : List UInt8) (v : ℕ) (hg : g < nbg) :
    entry (seqRowAt seq nbg v) g = entry seq ((v / 32 * nbg + g) * 32 + v % 32) :=
  entry_tabulate _ hg

theorem SeqHold.seqRowAt {seq : List UInt8} (h : SeqHold nbg n f seq) (hv : v < n) :
    seqRowAt seq nbg v = tabulate nbg (f v) :=
  tabulate_congr fun g hg => by rw [h.code v (lt_blocks hv) g hg, if_pos hv]

/-- Lane writes of whole rows past the end. -/
theorem lanesHold_appendRows {nNew : ℕ} (h : LanesHold P bits nbg n f blocked) (flat : List UInt8) :
    LanesHold P bits nbg (n + nNew)
      (fun v g => if v < n then f v g else entry flat ((v - n) * nbg + g))
      ((List.range nNew).foldl
        (fun bl i => writeLane P bl bits nbg (n + i) fun g => entry flat (i * nbg + g))
        (resize blocked ((n + nNew + 31) / 32 * (nbg * 32)))) := by
  have hlen : (resize blocked ((n + nNew + 31) / 32 * (nbg * 32))).length =
      (n + nNew + 31) / 32 * (nbg * 32) := length_resize _ _
  -- after `m` rows the buffer holds them, and the lanes past them are still zero
  have hgen : ∀ m ≤ nNew, ∀ bl, bl = (List.range m).foldl (fun bl i =>
      writeLane P bl bits nbg (n + i) fun g => entry flat (i * nbg + g))
          (resize blocked ((n + nNew + 31) / 32 * (nbg * 32))) →
      bl.length = (n + nNew + 31) / 32 * (nbg * 32) ∧
      ∀ v < (n + nNew + 31) / 32 * 32, ∀ g < nbg, laneCode P bl bits nbg v g =
        if v < n then f v g else if v < n + m then entry flat ((v - n) * nbg + g) else 0 := by
    intro m hm
    induction m with
    | zero =>
      rintro bl rfl
      refine ⟨hlen, fun v hv g hg => ?_⟩
      rw [List.range_zero, List.foldl_nil, laneCode_resize h.length_eq hv hg, h.code v g hg]
      by_cases hvn : v < n
      · rw [if_pos (by omega), if_pos hvn, if_pos hvn]
      · rw [if_neg hvn, ite_self, if_neg hvn, if_neg (show ¬ v < n + 0 by omega)]
    | succ m ih =>
      rintro bl rfl
      obtain ⟨ih1, ih2⟩ := ih (by omega) _ rfl
      rw [List.range_succ, List.foldl_append, List.foldl_cons, List.foldl_nil]
      refine ⟨(length_writeLane _).trans ih1, fun v hv g hg => ?_⟩
      rw [laneCode_writeLane ih1 (by omega) hv hg, ih2 v hv g hg]
      by_cases hvm : n + m = v
      · subst hvm
        rw [if_pos rfl, if_neg (by omega), if_pos (by omega), Nat.add_sub_cancel_left]
      · rw [if_neg hvm]
        by_cases hvn : v < n
        · rw [if_pos hvn, if_pos hvn]
        · rw [if_neg hvn, if_neg hvn]
          exact if_congr (by omega) rfl rfl
  obtain ⟨h1, h2⟩ := hgen nNew le_rfl _ rfl
  refine .of_lt h1 fun v hv g hg => ?_
  rw [h2 v hv g hg]
  by_cases hvn : v < n
  · rw [if_pos hvn, if_pos (by omega), if_pos hvn]
  · rw [if_neg hvn]
    simp only [if_neg hvn]

/-- Appending packed rows as lane writes. -/
theorem lanesHold_appendLanes {dim nNew : ℕ} (hb : ValidBits bits) (hd : dim % 8 = 0)
    (h : LanesHold P bits (dim / codesPerByte bits) n f blocked) (packedRows : List UInt8) :
    LanesHold P bits (dim / codesPerByte bits) (n + nNew)
      (fun v g => if v < n then f v g else
        entry (extractRow bits dim (rowAt packedRows (bits * (dim / 8)) (v - n))) g)
      (appendLanes P blocked packedRows n nNew bits dim) := by
  simp only [appendLanes, blockedGeometry_eq]
  refine (lanesHold_appendRows h _).congr fun v hv g hg => ?_
  by_cases hvn : v < n
  · rw [if_pos hvn, if_pos hvn]
  · rw [if_neg hvn, if_neg hvn, ← entry_rowAt _ hg, rowAt_extractCodesFlat hb hd _ (by omega)]

/-- Cutting a buffer to `m` blocks. -/
theorem laneCode_take {m : ℕ} (hv : v < m * 32) (hg : g < nbg) :
    laneCode P (blocked.take (m * (nbg * 32))) bits nbg v g = laneCode P blocked bits nbg v g := by
  have hb : v / BLOCK < m := by simp only [BLOCK]; omega
  exact readCode_congr hg (Nat.mod_lt _ (by decide)) fun k hk => entry_take (mul_add_lt hb hk)

/-- What `swap_remove` does to the buffer: the last lane moves into the hole, its old place is
zeroed, and the buffer is cut to the new geometry. -/
theorem lanesHold_swapRemove {idx : ℕ} (h : LanesHold P bits nbg (n + 1) f blocked)
    (hidx : idx ≤ n) : LanesHold P bits nbg n (fun v => if v = idx then f n else f v)
      ((zeroLane P (if idx ≠ n then moveLane P blocked bits nbg n idx else blocked) bits nbg n).take
        ((n + 31) / 32 * (nbg * 32))) := by
  have hl := h.length_eq
  have hn : n < (n + 1 + 31) / 32 * 32 := by omega
  have hi : idx < (n + 1 + 31) / 32 * 32 := by omega
  have hmove : (if idx ≠ n then moveLane P blocked bits nbg n idx else blocked).length =
      (n + 1 + 31) / 32 * (nbg * 32) := by
    split
    · exact length_moveLane hl hn hi ‹_›
    · exact hl
  have hle : (n + 31) / 32 ≤ (n + 1 + 31) / 32 := by omega
  refine .of_lt ?_ fun v hv g hg => ?_
  · rw [List.length_take, length_zeroLane, hmove]
    exact Nat.min_eq_left (Nat.mul_le_mul_right _ hle)
  · have hv' : v < (n + 1 + 31) / 32 * 32 := by omega
    rw [laneCode_take hv hg, laneCode_zeroLane hmove hn hv' hg]
    by_cases hvn : n = v
    · rw [if_pos hvn, if_neg (by omega)]
    · rw [if_neg hvn]
      by_cases hne : idx = n
      · rw [if_neg (not_not.2 hne), h.code v g hg]
        by_cases hlt : v < n
        · rw [if_pos (by omega), if_pos hlt, if_neg (by omega)]
        · rw [if_neg (by omega), if_neg hlt]
      · rw [if_pos hne, laneCode_moveLane hl hn hi hne hv' hg]
        by_cases hvi : idx = v
        · rw [if_pos hvi, h.code n g hg, if_pos (by omega), if_pos (show v < n by omega),
            if_pos hvi.symm]
        · rw [if_neg hvi, h.code v g hg]
          by_cases hlt : v < n
          · rw [if_pos (by omega), if_pos hlt, if_neg (Ne.symm hvi)]
          · rw [if_neg (by omega), if_neg hlt]

/-- Rebuilding the blocks from `first` on, from packed rows that agree with the buffer below. -/
theorem lanesHold_splice {first m : ℕ} {patch : List UInt8} {f' : ℕ → ℕ → UInt8}
    (h : LanesHold P bits nbg n f blocked) (hfirst : first = n / 32) (hm : n ≤ m)
    (hp : LanesHold P bits nbg (m - first * 32) (fun v => f' (first * 32 + v)) patch)
    (hf : ∀ v < n, ∀ g < nbg, f v g = f' v g) :
    LanesHold P bits nbg m f' (blocked.take (first * (nbg * 32)) ++ patch) := by
  have hle : first ≤ (n + 31) / 32 := by omega
  have htake : (blocked.take (first * (nbg * 32))).length = first * (nbg * 32) := by
    rw [List.length_take, h.length_eq]
    exact Nat.min_eq_left (Nat.mul_le_mul_right _ hle)
  have hblocks : (m + 31) / 32 = first + (m - first * 32 + 31) / 32 := by omega
  refine .of_lt ?_ fun v hv g hg => ?_
  · rw [List.length_append, htake, hp.length_eq, hblocks, Nat.add_mul]
  · have hlane : v % BLOCK < 32 := Nat.mod_lt _ (by decide)
    by_cases hvf : v < first * 32
    · rw [← @laneCode_take P bits nbg v g _ first hvf hg, List.take_append_of_le_length (by omega),
        List.take_take, Nat.min_self, laneCode_take hvf hg, h.code v g hg, if_pos (by omega),
        if_pos (by omega), hf v (by omega) g hg]
    · have hcongr : laneCode P (blocked.take (first * (nbg * 32)) ++ patch) bits nbg v g =
          laneCode P patch bits nbg (v - first * 32) g := by
        have hmod : (v - first * 32) % BLOCK = v % BLOCK := by simp only [BLOCK]; omega
        have hdiv : v / BLOCK = first + (v - first * 32) / BLOCK := by simp only [BLOCK]; omega
        rw [laneCode, laneCode, hmod]
        refine readCode_congr hg hlane fun k hk => ?_
        rw [hdiv, Nat.add_mul, Nat.add_assoc, entry_append_right (by omega), htake,
          Nat.add_sub_cancel_left]
      rw [hcongr, hp.code _ g hg]
      by_cases hvm : v < m
      · rw [if_pos (by omega), if_pos hvm]
        congr 1
        omega
      · rw [if_neg (by omega), if_neg hvm]

/-- The blocks `first ..` of a list of packed rows. -/
theorem lanesHold_repackBlockRange {dim : ℕ} (hb : ValidBits bits) (hd : dim % 8 = 0)
    (packed : List UInt8) {first m : ℕ} (hfirst : first * 32 ≤ m) :
    LanesHold P bits (dim / codesPerByte bits) (m - first * 32)
      (fun v g => entry (extractRow bits dim (rowAt packed (bits * (dim / 8)) (first * 32 + v))) g)
      (repackBlockRange P packed m bits dim first ((m + 31) / 32)) := by
  have hend : min ((m + 31) / 32 * 32) m = m := by omega
  have hblocks : (m + 31) / 32 - first = (m - first * 32 + 31) / 32 := by omega
  simp only [repackBlockRange, BLOCK, hend, hblocks]
  refine (lanesHold_packBlockedNative _).congr fun v hv g hg => ?_
  rw [← entry_rowAt _ hg, rowAt_extractCodesFlat hb hd _ hv]
  rw [rowAt_drop_take packed (by omega)]

theorem lanesHold_repack {dim : ℕ} (hb : ValidBits bits) (hd : dim % 8 = 0)
    (packed : List UInt8) : LanesHold P bits (dim / codesPerByte bits) n
      (fun v g => entry (extractRow bits dim (rowAt packed (bits * (dim / 8)) v)) g)
      (repack P packed n bits dim).1 := by
  simp only [repack, blockedGeometry_eq]
  refine (lanesHold_packBlockedNative _).congr fun v hv g hg => ?_
  rw [← entry_rowAt _ hg, rowAt_extractCodesFlat hb hd _ hv]

end LanesHold

end Turbovec.Pack
