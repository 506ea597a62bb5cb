import Turbovec.Pack.Lanes

/-!
# The planes layout

At 2 and 4 bits a large index keeps its cache as two regions: the *sign region*, every vector's top bit
plane, blocked like a code buffer of `dim / 8` groups, and the *low region*, one row of the other planes
per vector. A packed row is its low row followed by its sign bytes.
-/

namespace Turbovec.Pack

open LittleEndian Slice Grid

/-! ## When an index takes it -/

def planesFor (P : Platform) (bits nByteGroups : ℕ) : Bool :=
  let signScans := if P.arch = .x86_64 then useVectorMajor P
    else decide (P.arch = .aarch64) && !P.vm8TwoBit
  match bits with
  | 2 => nByteGroups % 8 == 0 && P.planes && signScans
  | 4 => nByteGroups % 16 == 0 && P.planes4 && signScans && useVectorMajor P
  | _ => false

/-- Bytes per vector of the two regions: `(sign, low)`. -/
def planesGeom (bits nByteGroups : ℕ) : ℕ × ℕ :=
  let nsg := nByteGroups / bits
  (nsg, (bits - 1) * nsg)

def planesGeomOk (bits nByteGroups : ℕ) : Bool :=
  match bits with
  | 2 => nByteGroups % 8 == 0
  | 4 => nByteGroups % 16 == 0
  | _ => false

def PLANES_MIN_VECTORS : ℕ := 32768

def planesWanted (P : Platform) (bits nByteGroups nVectors : ℕ) : Bool :=
  decide (nVectors > 0) && decide (nVectors ≥ PLANES_MIN_VECTORS) && planesFor P bits nByteGroups

/-! ## The 2-bit tables -/

def buildGather (odd : Bool) (c : ℕ) : ℕ :=
  let sh := if odd then 1 else 0
  (((c >>> (6 + sh)) &&& 1) <<< 3) ||| (((c >>> (4 + sh)) &&& 1) <<< 2) |||
    (((c >>> (2 + sh)) &&& 1) <<< 1) ||| (((c >>> sh) &&& 1) <<< 0)

def buildSpread (n : ℕ) : ℕ :=
  (((n >>> 3) &&& 1) <<< 6) ||| (((n >>> 2) &&& 1) <<< 4) ||| (((n >>> 1) &&& 1) <<< 2) |||
    (((n >>> 0) &&& 1) <<< 0)

/-- Sign bits (odd positions) of a 2-bit code byte, as a nibble. -/
def gatherSign (c : UInt8) : ℕ := buildGather true c.toNat

/-- Low bits (even positions) of a 2-bit code byte, as a nibble. -/
def gatherLow (c : UInt8) : ℕ := buildGather false c.toNat

/-- The plane byte over two code bytes, from their nibbles. -/
def joinNibbles (hi lo : ℕ) : UInt8 := UInt8.ofNat ((hi <<< 4) ||| lo)

/-- The code bytes for dims `8G .. 8G + 4` and `8G + 4 .. 8G + 8`. -/
def planesToCodeBytes (sign low : UInt8) : UInt8 × UInt8 :=
  (UInt8.ofNat ((buildSpread (sign.toNat >>> 4) <<< 1) ||| buildSpread (low.toNat >>> 4)),
    UInt8.ofNat ((buildSpread (sign.toNat &&& 15) <<< 1) ||| buildSpread (low.toNat &&& 15)))

/-! ## Rows -/

/-- One row of 2-bit code bytes to its sign and low bytes. -/
def planesSplitRow (row : List UInt8) (nsg : ℕ) : List UInt8 × List UInt8 :=
  (tabulate nsg fun g =>
      joinNibbles (gatherSign (entry row (2 * g))) (gatherSign (entry row (2 * g + 1))),
    tabulate nsg fun g =>
      joinNibbles (gatherLow (entry row (2 * g))) (gatherLow (entry row (2 * g + 1))))

/-- Code-byte rows into sign rows and low rows. -/
def planesSplitRows (codesFlat : List UInt8) (nByteGroups : ℕ) : List UInt8 × List UInt8 :=
  let nsg := nByteGroups / 2
  let n := if nByteGroups = 0 then 0 else codesFlat.length / nByteGroups
  ((List.range n).flatMap fun v => (planesSplitRow (rowAt codesFlat nByteGroups v) nsg).1,
    (List.range n).flatMap fun v => (planesSplitRow (rowAt codesFlat nByteGroups v) nsg).2)

/-- Packed rows to (sign rows, low rows). -/
def planesRowsFromPacked (packed : List UInt8) (n bits dim : ℕ) : List UInt8 × List UInt8 :=
  let nsg := dim / 8
  let row := bits * nsg
  let lowRow := (bits - 1) * nsg
  ((List.range n).flatMap fun v => (rowAt packed row v).drop lowRow,
    (List.range n).flatMap fun v => (rowAt packed row v).take lowRow)

/-- Byte offset, inside a sign-region block, of byte-group `g` for `lane`. -/
def planesSlot (P : Platform) (g lane : ℕ) : ℕ :=
  if P.arch = .x86_64 then g / 4 * 128 + lane / 16 * 64 + lane % 16 * 4 + g % 4
  else g * BLOCK + lane

/-- Vector `v`'s packed row from the two regions. -/
def planesPackedRow (P : Platform) (sign low : List UInt8) (bits nsg v : ℕ) : List UInt8 :=
  let lowRow := (bits - 1) * nsg
  let base := v / BLOCK * nsg * BLOCK
  rowAt low lowRow v ++ tabulate nsg fun g => entry sign (base + planesSlot P g (v % BLOCK))

/-- Plane `p`'s byte over the four 4-bit code bytes of group `g`. -/
def planeByte (codes : List UInt8) (p g : ℕ) : UInt8 :=
  UInt8.ofNat ((List.range 4).foldl (fun pl j =>
    let c := (entry codes (4 * g + j)).toNat
    pl ||| ((((c >>> (4 + p)) &&& 1) <<< (7 - 2 * j)) ||| (((c >>> p) &&& 1) <<< (6 - 2 * j)))) 0)

/-- A code-byte row to its sign bytes and its low row. -/
def planesRowFromCodes (codes : List UInt8) (bits nByteGroups : ℕ) : List UInt8 × List UInt8 :=
  let nsg := (planesGeom bits nByteGroups).1
  if bits = 2 then planesSplitRow codes nsg
  else
    (tabulate nsg (planeByte codes 3), (List.range 3).flatMap fun p => tabulate nsg (planeByte codes p))

/-- One vector's code-byte row from the two regions. -/
def planesReadRow (P : Platform) (sign low : List UInt8) (bits nByteGroups v : ℕ) : List UInt8 :=
  if bits ≠ 2 then
    let nsg := (planesGeom bits nByteGroups).1
    extractCodesFlat (planesPackedRow P sign low bits nsg v) 1 bits (nsg * 8)
  else
    let nsg := nByteGroups / 2
    let base := v / BLOCK * nsg * BLOCK
    (List.range nsg).flatMap fun g =>
      let c := planesToCodeBytes (entry sign (base + planesSlot P g (v % BLOCK)))
        (entry low (v * nsg + g))
      [c.1, c.2]

/-! ## The tables, bit by bit -/

theorem testBit_buildGather (odd : Bool) (c i : ℕ) : (buildGather odd c).testBit i =
    (decide (i < 4) && c.testBit (2 * i + if odd then 1 else 0)) := by
  simp only [buildGather, Nat.testBit_or, Bits.testBit_pick]
  match i with
  | 0 => simp
  | 1 => simp
  | 2 => simp
  | 3 => simp
  | i + 4 => simp

theorem testBit_buildSpread (n i : ℕ) : (buildSpread n).testBit i =
    (decide (i < 8) && decide (i % 2 = 0) && n.testBit (i / 2)) := by
  simp only [buildSpread, Nat.testBit_or, Bits.testBit_pick]
  match i with
  | 0 => simp
  | 1 => simp
  | 2 => simp
  | 3 => simp
  | 4 => simp
  | 5 => simp
  | 6 => simp
  | 7 => simp
  | i + 8 => simp

theorem testBit_joinNibbles {hi lo : ℕ} (hlo : ∀ j, 4 ≤ j → lo.testBit j = false) {i : ℕ}
    (h : i < 8) : (joinNibbles hi lo).toNat.testBit i =
      if i < 4 then lo.testBit i else hi.testBit (i - 4) := by
  rw [joinNibbles, Bits.testBit_ofNat h, Nat.testBit_or, Nat.testBit_shiftLeft]
  by_cases h4 : i < 4
  · simp [h4, Nat.not_le.2 h4]
  · simp [h4, Nat.not_lt.1 h4, hlo i (by omega)]

/-- Plane byte `g` gathered from two 2-bit code bytes is the packed row's. -/
theorem testBit_gather_join (odd : Bool) (a b : UInt8) {i : ℕ} (h : i < 8) :
    (joinNibbles (buildGather odd a.toNat) (buildGather odd b.toNat)).toNat.testBit i =
      if i < 4 then b.toNat.testBit (2 * i + if odd then 1 else 0)
      else a.toNat.testBit (2 * (i - 4) + if odd then 1 else 0) := by
  rw [testBit_joinNibbles (fun j hj => by rw [testBit_buildGather]; simp [Nat.not_lt.2 hj]) h,
    testBit_buildGather, testBit_buildGather]
  by_cases h4 : i < 4
  · simp [h4]
  · have : i - 4 < 4 := by omega
    simp [h4, this]

/-- Code byte `j` of group `g` gives bits `7 - 2j` and `6 - 2j`. -/
theorem testBit_planeByte (codes : List UInt8) (p g : ℕ) {i : ℕ} (h : i < 8) :
    (planeByte codes p g).toNat.testBit i =
      (entry codes (4 * g + (7 - i) / 2)).toNat.testBit (i % 2 * 4 + p) := by
  rw [planeByte, Bits.testBit_ofNat h,
    Bits.testBit_foldl (fun j => (decide (i = 7 - 2 * j) &&
      (entry codes (4 * g + j)).toNat.testBit (4 + p)) || (decide (i = 6 - 2 * j) &&
        (entry codes (4 * g + j)).toNat.testBit p)) fun a j => by
      rw [Nat.testBit_or, Nat.testBit_or, Bits.testBit_pick, Bits.testBit_pick],
    Nat.zero_testBit, Bool.false_or,
    @Bits.any_range_eq_of_unique 4 ((7 - i) / 2) _ (by omega) fun j hj hg => ?_]
  · rcases Nat.mod_two_eq_zero_or_one i with h2 | h2
    · have h1 : ¬ i = 7 - 2 * ((7 - i) / 2) := by omega
      have h3 : i = 6 - 2 * ((7 - i) / 2) := by omega
      rw [decide_eq_false h1, decide_eq_true h3, h2]
      simp
    · have h1 : i = 7 - 2 * ((7 - i) / 2) := by omega
      have h3 : ¬ i = 6 - 2 * ((7 - i) / 2) := by omega
      rw [decide_eq_true h1, decide_eq_false h3, h2]
      simp
  · simp only [Bool.or_eq_true, Bool.and_eq_true, decide_eq_true_eq] at hg
    omega

/-- Interleaving two nibbles. -/
theorem testBit_spread_pair (s l : ℕ) {i : ℕ} (h : i < 8) :
    (UInt8.ofNat ((buildSpread s <<< 1) ||| buildSpread l)).toNat.testBit i =
      if i % 2 = 1 then s.testBit (i / 2) else l.testBit (i / 2) := by
  rw [Bits.testBit_ofNat h, Nat.testBit_or, Nat.testBit_shiftLeft, testBit_buildSpread,
    testBit_buildSpread]
  rcases Nat.mod_two_eq_zero_or_one i with h2 | h2
  · have h1 : ¬ (i - 1) % 2 = 0 ∨ i = 0 := by omega
    rcases h1 with h1 | rfl
    · simp [h, h1, h2]
    · simp
  · have h1 : (i - 1) % 2 = 0 := by omega
    have h3 : (i - 1) / 2 = i / 2 := by omega
    have h4 : 1 ≤ i := by omega
    have h5 : i - 1 < 8 := by omega
    simp [h1, h2, h3, h4, h5]

/-! ## A row's two parts -/

/-- The sign bytes of a packed row. -/
def signPart (bits dim : ℕ) (row : List UInt8) : List UInt8 := row.drop ((bits - 1) * (dim / 8))

/-- The low planes of a packed row. -/
def lowPart (bits dim : ℕ) (row : List UInt8) : List UInt8 := row.take ((bits - 1) * (dim / 8))

/-- The widths with a planes layout. -/
def PlanesBits (bits : ℕ) : Prop := bits = 2 ∨ bits = 4

theorem PlanesBits.valid {bits : ℕ} (h : PlanesBits bits) : ValidBits bits := by
  rcases h with rfl | rfl
  · exact Or.inl rfl
  · exact Or.inr (Or.inr rfl)

theorem planesBits_of_planesFor {P : Platform} {bits nbg : ℕ} (h : planesFor P bits nbg = true) :
    PlanesBits bits := by
  unfold planesFor at h
  split at h <;> split at h <;> simp_all [PlanesBits]

section Row

variable {bits dim : ℕ}

theorem planesGeom_eq (hb : PlanesBits bits) (hd : dim % 8 = 0) :
    planesGeom bits (dim / codesPerByte bits) = (dim / 8, (bits - 1) * (dim / 8)) := by
  have h : dim / codesPerByte bits / bits = dim / 8 := by
    rcases hb with rfl | rfl <;> simp only [codesPerByte] <;> omega
  simp only [planesGeom, h]

theorem low_add_sign (hb : PlanesBits bits) : bits * (dim / 8) = (bits - 1) * (dim / 8) + dim / 8 := by
  rcases hb with rfl | rfl <;> simp only [Nat.reduceSub] <;> omega

theorem length_signPart (hb : PlanesBits bits) {row : List UInt8}
    (h : row.length = bits * (dim / 8)) : (signPart bits dim row).length = dim / 8 := by
  rw [signPart, List.length_drop, h, low_add_sign hb, Nat.add_sub_cancel_left]

theorem length_lowPart (hb : PlanesBits bits) {row : List UInt8}
    (h : row.length = bits * (dim / 8)) :
    (lowPart bits dim row).length = (bits - 1) * (dim / 8) := by
  rw [lowPart, List.length_take, h, low_add_sign hb]
  omega

theorem lowPart_append_signPart (row : List UInt8) :
    lowPart bits dim row ++ signPart bits dim row = row :=
  List.take_append_drop _ _

theorem entry_signPart (row : List UInt8) (g : ℕ) :
    entry (signPart bits dim row) g = entry row ((bits - 1) * (dim / 8) + g) :=
  entry_drop _ _ _

theorem entry_lowPart (row : List UInt8) {k : ℕ} (h : k < (bits - 1) * (dim / 8)) :
    entry (lowPart bits dim row) k = entry row k :=
  entry_take h

/-- The plane bytes gathered from a 2-bit code row are those of its packed form. -/
theorem joinNibbles_gather (codes : List UInt8) (odd : Bool) {g : ℕ} (hg : g < dim / 8) :
    joinNibbles (buildGather odd (entry codes (2 * g)).toNat)
      (buildGather odd (entry codes (2 * g + 1)).toNat) =
    entry (packRow 2 dim codes) ((if odd then 1 else 0) * (dim / 8) + g) := by
  have hp : (if odd = true then 1 else 0) < 2 := by split <;> decide
  refine Bits.eq_of_testBit fun i hi => ?_
  rw [testBit_gather_join odd _ _ hi, testBit_packRow_bit (Or.inl rfl) codes hp hg hi]
  simp only [codesPerByte, field, show ¬ (2 = 3) by decide, if_false]
  by_cases h4 : i < 4
  · have h1 : g * (8 / (8 / 2)) + (7 - i) / (8 / 2) = 2 * g + 1 := by omega
    have h2 : (8 / 2 - 1 - (7 - i) % (8 / 2)) = i := by omega
    rw [if_pos h4, h1, h2, Nat.mul_comm i 2]
  · have h1 : g * (8 / (8 / 2)) + (7 - i) / (8 / 2) = 2 * g := by omega
    have h2 : (8 / 2 - 1 - (7 - i) % (8 / 2)) = i - 4 := by omega
    rw [if_neg h4, h1, h2, Nat.mul_comm (i - 4) 2]

/-- Splitting a 2-bit code row splits its packed form. -/
theorem planesSplitRow_eq (codes : List UInt8) : planesSplitRow codes (dim / 8) =
    (signPart 2 dim (packRow 2 dim codes), lowPart 2 dim (packRow 2 dim codes)) := by
  have hlen := length_packRow 2 dim codes
  refine Prod.ext (ext_entry ?_ fun g hg => ?_) (ext_entry ?_ fun g hg => ?_)
  · simp only [planesSplitRow, length_tabulate, length_signPart (Or.inl rfl) hlen]
  · simp only [planesSplitRow, length_tabulate] at hg
    rw [planesSplitRow, entry_tabulate _ hg, entry_signPart]
    exact joinNibbles_gather codes true hg
  · simp only [planesSplitRow, length_tabulate, length_lowPart (Or.inl rfl) hlen]
    omega
  · simp only [planesSplitRow, length_tabulate] at hg
    have := joinNibbles_gather codes false hg
    rw [planesSplitRow, entry_tabulate _ hg, entry_lowPart _ (by omega)]
    simpa only [gatherLow, Bool.false_eq_true, if_false, Nat.zero_mul, Nat.zero_add] using this

/-- Plane byte `g` of plane `p`, from the four code bytes of its group. -/
theorem planeByte_eq (codes : List UInt8) {p g : ℕ} (hp : p < 4) (hg : g < dim / 8) :
    planeByte codes p g = entry (packRow 4 dim codes) (p * (dim / 8) + g) := by
  refine Bits.eq_of_testBit fun i hi => ?_
  rw [testBit_packRow_bit (Or.inr (Or.inr rfl)) codes hp hg hi, testBit_planeByte codes p g hi]
  have h1 : g * (8 / codesPerByte 4) + (7 - i) / codesPerByte 4 = 4 * g + (7 - i) / 2 := by
    simp only [codesPerByte]
    omega
  have h2 : (codesPerByte 4 - 1 - (7 - i) % codesPerByte 4) * field 4 + p = i % 2 * 4 + p := by
    simp only [codesPerByte, field, show ¬ (4 = 3) by decide, if_false]
    omega
  rw [h1, h2]

/-- A row of code bytes to the two parts of its packed form. -/
theorem planesRowFromCodes_eq (hb : PlanesBits bits) (hd : dim % 8 = 0) (codes : List UInt8) :
    planesRowFromCodes codes bits (dim / codesPerByte bits) =
      (signPart bits dim (packRow bits dim codes), lowPart bits dim (packRow bits dim codes)) := by
  have hlen := length_packRow bits dim codes
  have hpb := hb
  rw [planesRowFromCodes, planesGeom_eq hb hd]
  rcases hb with rfl | rfl
  · simp only [if_true]
    exact planesSplitRow_eq codes
  · have hrow (i : ℕ) (_ : i < 3) : (tabulate (dim / 8) (planeByte codes i)).length = dim / 8 :=
      length_tabulate _ _
    simp only [show ¬ (4 = 2) by decide, if_false]
    refine Prod.ext (ext_entry ?_ fun g hg => ?_) (@ext_grid _ _ _ 3 (dim / 8)
      (length_flatMap_range hrow) (length_lowPart hpb hlen) fun p hp g hg => ?_)
    · rw [length_tabulate, length_signPart hpb hlen]
    · rw [length_tabulate] at hg
      rw [entry_tabulate _ hg, planeByte_eq codes (by decide) hg, entry_signPart]
    · rw [getElem?_flatMap_range hrow hp hg, getElem?_tabulate _ hg,
        planeByte_eq codes (by omega) hg, getElem?_eq_entry, entry_lowPart]
      · exact mul_add_lt hp hg
      · rw [length_lowPart hpb hlen]
        exact mul_add_lt hp hg

/-- Code byte `o` of group `g` of a 2-bit row, bit by bit. -/
theorem testBit_extractRow_two (row : List UInt8) {g o i : ℕ} (hg : g < dim / 8) (ho : o < 2)
    (hi : i < 8) : (entry (extractRow 2 dim row) (2 * g + o)).toNat.testBit i =
      (entry row (i % 2 * (dim / 8) + g)).toNat.testBit (4 * (1 - o) + i / 2) := by
  have hlt : 2 * g + o < dim / codesPerByte 2 := by simp only [codesPerByte]; omega
  have ht : 3 - i / 2 < codesPerByte 2 := by simp only [codesPerByte]; omega
  have hp : i % 2 < 2 := Nat.mod_lt _ (by decide)
  have hbit := @testBit_extractByte 2 (Or.inl rfl) (dim / 8) row (2 * g + o) _ _ ht hp
  have hi' : (codesPerByte 2 - 1 - (3 - i / 2)) * field 2 + i % 2 = i := by
    simp only [codesPerByte, field, show ¬ (2 = 3) by decide, if_false]
    omega
  have hbyte : ((2 * g + o) * codesPerByte 2 + (3 - i / 2)) / 8 = g := by
    simp only [codesPerByte]
    omega
  have hpos : 7 - ((2 * g + o) * codesPerByte 2 + (3 - i / 2)) % 8 = 4 * (1 - o) + i / 2 := by
    simp only [codesPerByte]
    omega
  rw [hi', hbyte, hpos] at hbit
  rw [entry_extractRow _ hlt, hbit]

/-- The two code bytes read from the plane bytes of a packed 2-bit row are its own. -/
theorem planesToCodeBytes_eq (row : List UInt8) {g : ℕ} (hg : g < dim / 8) :
    planesToCodeBytes (entry row (dim / 8 + g)) (entry row g) =
      (entry (extractRow 2 dim row) (2 * g), entry (extractRow 2 dim row) (2 * g + 1)) := by
  have hnib (b : UInt8) {i : ℕ} (hi : i < 8) : (b.toNat &&& 15).testBit (i / 2) =
      b.toNat.testBit (i / 2) := by
    rw [show 15 = 2 ^ 4 - 1 from rfl, Nat.and_two_pow_sub_one_eq_mod, Nat.testBit_mod_two_pow]
    simp [show i / 2 < 4 by omega]
  refine Prod.ext (Bits.eq_of_testBit fun i hi => ?_) (Bits.eq_of_testBit fun i hi => ?_)
  · have h := @testBit_extractRow_two dim row g 0 i hg (by decide) hi
    simp only [planesToCodeBytes]
    rw [testBit_spread_pair _ _ hi, Nat.testBit_shiftRight, Nat.testBit_shiftRight]
    rw [Nat.add_zero] at h
    rw [h]
    rcases Nat.mod_two_eq_zero_or_one i with h2 | h2 <;> simp [h2]
  · have h := @testBit_extractRow_two dim row g 1 i hg (by decide) hi
    simp only [planesToCodeBytes]
    rw [testBit_spread_pair _ _ hi, hnib _ hi, hnib _ hi, h]
    rcases Nat.mod_two_eq_zero_or_one i with h2 | h2 <;> simp [h2]

end Row

end Turbovec.Pack
