import Mathlib.Algebra.BigOperators.Ring.Finset
import Turbovec.Lib.Bits
import Turbovec.Scan.Dot

/-!
# The bit-mask dot product

The refine pass rounds a query to signed 6-bit weights and keeps their bits as masks over a row of one bit per
coordinate. The sum of the weights over the row's set bits is then a count of bits: a word at a time, or on
NEON a byte at a time in narrow accumulators.
-/

namespace Turbovec.Scan

open Pack LittleEndian Slice Grid

/-! ## The masks -/

/-- Bits of a query coordinate's magnitude the refine pass keeps. -/
def LOW_BITS : ℕ := 6

/-- Bytes of a low row one group of masks covers. -/
def LOW_CHUNK : ℕ := 64

/-- A loop that ORs a byte into each of a list of places. -/
def orAt {ι : Type} (pos : ι → ℕ) (bit : ι → UInt8) (xs : List ι) (l : List UInt8) : List UInt8 :=
  xs.foldl (fun l x => l.set (pos x) (entry l (pos x) ||| bit x)) l

/-- Where the masks keep byte `byte` of plane `b` of a sign: per group, the six positive planes and then the
six negative ones. -/
def maskAt (neg : Bool) (b byte : ℕ) : ℕ :=
  byte / LOW_CHUNK * (2 * LOW_BITS * LOW_CHUNK) + (if neg then LOW_BITS * LOW_CHUNK else 0) + byte % LOW_CHUNK +
    b * LOW_CHUNK

structure LowPlanes where
  masks : List UInt8
  sumW : ℤ
  rowLen : ℕ

/-- `build_low_planes_scalar` of the rounded query. -/
def buildLowPlanesScalar (w : ℕ → ℤ) (dim : ℕ) : LowPlanes :=
  let nBytes := dim / 8
  { masks := orAt (fun x : ℕ × ℕ => maskAt (decide (w x.1 < 0)) x.2 (x.1 / 8)) (fun x => 0x80 >>> UInt8.ofNat (x.1 % 8))
      ((List.range dim).flatMap fun i =>
        ((List.range LOW_BITS).filter fun b => (w i).natAbs.testBit b).map fun b => (i, b))
      (List.replicate ((nBytes + LOW_CHUNK - 1) / LOW_CHUNK * (2 * LOW_BITS * LOW_CHUNK)) 0)
    sumW := (List.range dim).foldl (fun s i => s + w i) 0
    rowLen := nBytes }

/-! ## A word at a time -/

/-- `count_ones` of a 64-bit word. -/
def countOnes (w : ℕ) : ℤ := ∑ i ∈ Finset.range 64, if w.testBit i then 1 else 0

def lowDotScalar (masks row : List UInt8) : ℤ :=
  (List.range ((row.length + LOW_CHUNK - 1) / LOW_CHUNK)).foldl (fun acc c =>
    let chunk := (row.drop (c * LOW_CHUNK)).take LOW_CHUNK
    let group := (masks.drop (c * (2 * LOW_BITS * LOW_CHUNK))).take (2 * LOW_BITS * LOW_CHUNK)
    (List.range ((chunk.length + 8 - 1) / 8)).foldl (fun acc j =>
      let l := ofLe ((chunk.drop (j * 8)).take 8)
      (List.range LOW_BITS).foldl (fun acc b =>
        let p := ofLe ((group.drop (b * LOW_CHUNK + j * 8)).take 8)
        let n := ofLe ((group.drop ((LOW_BITS + b) * LOW_CHUNK + j * 8)).take 8)
        acc + (countOnes (l &&& p) - countOnes (l &&& n)) * 2 ^ b) acc) acc) 0

/-! ## A byte at a time -/

/-- Set bits of a byte. -/
def byteOnes (b : UInt8) : ℕ := ∑ t ∈ Finset.range 8, if b.toNat.testBit t then 1 else 0

/-- A plane's difference in byte `i` of a register: positive bits less negative ones, the unsigned result
read as signed. -/
def planeDiff (masks : List UInt8) (l : ℕ → UInt8) (group j b i : ℕ) : Int8 :=
  (UInt8.ofNat (byteOnes (l i &&& entry masks (group + b * LOW_CHUNK + j + i))) -
    UInt8.ofNat (byteOnes (l i &&& entry masks (group + (LOW_BITS + b) * LOW_CHUNK + j + i)))).toInt8

/-- Planes `b .. b + 3` of byte `i`, weighted 1, 2 and 4. -/
def threePlanes (masks : List UInt8) (l : ℕ → UInt8) (group j b i : ℕ) : Int8 :=
  (List.range 3).foldl (fun s k => s + planeDiff masks l group j (b + k) i <<< Int8.ofNat k) 0

/-- `vpaddlq_s8` and `vpadalq_s16`: byte pairs widened to 16 bits, and pairs of those added to 32-bit lanes. -/
def addPairs (acc : ℕ → Int32) (x : ℕ → Int8) (i : ℕ) : Int32 :=
  let pair := fun m => (x (2 * m)).toInt16 + (x (2 * m + 1)).toInt16
  acc i + ((pair (2 * i)).toInt32 + (pair (2 * i + 1)).toInt32)

/-- One accumulator of `low_dot_neon`, over planes `b .. b + 3`. -/
def neonAcc (masks row : List UInt8) (b : ℕ) : ℕ → Int32 :=
  (List.range ((row.length + LOW_CHUNK - 1) / LOW_CHUNK)).foldl (fun acc c =>
    let chunk := (row.drop (c * LOW_CHUNK)).take LOW_CHUNK
    (List.range ((chunk.length + 16 - 1) / 16)).foldl (fun acc s =>
      addPairs acc (threePlanes masks (load ((chunk.drop (s * 16)).take 16) 0) (c * (2 * LOW_BITS * LOW_CHUNK)) (s * 16) b))
      acc) fun _ => 0

/-- `vaddlvq_s32`: four lanes summed wide. -/
def addAcross (acc : ℕ → Int32) : ℤ := ∑ i ∈ Finset.range 4, (acc i).toInt

def lowDotNeon (masks row : List UInt8) : ℤ := addAcross (neonAcc masks row 0) + 8 * addAcross (neonAcc masks row 3)

/-! ## What they compute -/

/-- Whether coordinate `i` is set in a row: the first of each byte's is its top bit. -/
def rowBit (row : List UInt8) (i : ℕ) : Bool := (entry row (i / 8)).toNat.testBit (7 - i % 8)

/-- A plane's difference over byte `B` of a row. -/
def diffAt (masks row : List UInt8) (b B : ℕ) : ℤ :=
  byteOnes (entry row B &&& entry masks (maskAt false b B)) - byteOnes (entry row B &&& entry masks (maskAt true b B))

/-- All six planes of a byte. -/
def byteDot (masks row : List UInt8) (B : ℕ) : ℤ := ∑ b ∈ Finset.range LOW_BITS, diffAt masks row b B * 2 ^ b

/-! ## Bytes and chunks -/

theorem byteOnes_le (b : UInt8) : byteOnes b ≤ 8 := by
  have h : byteOnes b ≤ (Finset.range 8).card • 1 := by
    apply Finset.sum_le_card_nsmul
    intro t _
    split
    · exact le_rfl
    · exact Nat.zero_le 1
  exact h

theorem byteOnes_zero : byteOnes 0 = 0 := by decide

theorem diffAt_of_le (masks : List UInt8) {row : List UInt8} (b : ℕ) {B : ℕ} (h : row.length ≤ B) :
    diffAt masks row b B = 0 := by
  rw [diffAt, entry_of_length_le h]
  simp [byteOnes_zero]

/-- A sum over the bytes of a row, taken by chunks and registers with the padding as zeros. -/
theorem sum_chunks {k : ℕ} (hk : k = 8 ∨ k = 16) (n : ℕ) {f : ℕ → ℤ} (hf : ∀ B, n ≤ B → f B = 0) :
    ∑ c ∈ Finset.range ((n + LOW_CHUNK - 1) / LOW_CHUNK),
        ∑ s ∈ Finset.range ((min LOW_CHUNK (n - c * LOW_CHUNK) + k - 1) / k), ∑ i ∈ Finset.range k, f (c * LOW_CHUNK + s * k + i) =
      ∑ B ∈ Finset.range n, f B := by
  have hchunk (c : ℕ) : ∑ s ∈ Finset.range ((min LOW_CHUNK (n - c * LOW_CHUNK) + k - 1) / k),
      ∑ i ∈ Finset.range k, f (c * LOW_CHUNK + s * k + i) = ∑ x ∈ Finset.range LOW_CHUNK, f (c * LOW_CHUNK + x) := by
    have hrow := Wrapped.sum_range_mul ((min LOW_CHUNK (n - c * LOW_CHUNK) + k - 1) / k) k fun x => f (c * LOW_CHUNK + x)
    simp only [← Nat.add_assoc] at hrow
    rw [← hrow]
    apply Eq.symm
    unfold LOW_CHUNK
    rcases hk with rfl | rfl
    · apply Wrapped.sum_range_of_zero (by omega)
      intro x hx _
      exact hf _ (by omega)
    · apply Wrapped.sum_range_of_zero (by omega)
      intro x hx _
      exact hf _ (by omega)
  rw [Finset.sum_congr rfl fun c _ => hchunk c, ← Wrapped.sum_range_mul]
  apply Wrapped.sum_range_of_zero (by unfold LOW_CHUNK; omega)
  intro B hB _
  exact hf B hB

theorem countOnes_eq (l p : List UInt8) : countOnes (ofLe l &&& ofLe p) =
    ∑ k ∈ Finset.range 8, (byteOnes (entry l k &&& entry p k) : ℤ) := by
  rw [countOnes, show 64 = 8 * 8 from rfl, Wrapped.sum_range_mul]
  apply Finset.sum_congr rfl
  intro k _
  rw [byteOnes, Nat.cast_sum]
  apply Finset.sum_congr rfl
  intro t ht
  rw [Finset.mem_range] at ht
  rw [Nat.testBit_and, Nat.mul_comm k 8, Bits.testBit_ofLe _ _ ht, Bits.testBit_ofLe _ _ ht, Bits.testBit_and]
  split
  · rfl
  · rfl

theorem entry_chunk (row : List UInt8) {c x : ℕ} (hx : x < LOW_CHUNK) :
    entry ((row.drop (c * LOW_CHUNK)).take LOW_CHUNK) x = entry row (c * LOW_CHUNK + x) := by
  rw [entry_take hx, entry_drop]

theorem length_chunk (row : List UInt8) (c : ℕ) :
    ((row.drop (c * LOW_CHUNK)).take LOW_CHUNK).length = min LOW_CHUNK (row.length - c * LOW_CHUNK) := by
  rw [List.length_take, List.length_drop]

theorem maskAt_pos {c b x : ℕ} (hx : x < LOW_CHUNK) : maskAt false b (c * LOW_CHUNK + x) =
    c * (2 * LOW_BITS * LOW_CHUNK) + (b * LOW_CHUNK + x) := by
  rw [maskAt, mul_add_div hx, mul_add_mod hx]
  simp only [Bool.false_eq_true, if_false]
  omega

theorem maskAt_neg {c b x : ℕ} (hx : x < LOW_CHUNK) : maskAt true b (c * LOW_CHUNK + x) =
    c * (2 * LOW_BITS * LOW_CHUNK) + ((LOW_BITS + b) * LOW_CHUNK + x) := by
  rw [maskAt, mul_add_div hx, mul_add_mod hx, if_pos rfl, Nat.add_mul]
  omega

/-- The counts of a row of any length, whatever the masks. -/
theorem lowDotScalar_eq (masks row : List UInt8) :
    lowDotScalar masks row = ∑ B ∈ Finset.range row.length, byteDot masks row B := by
  have hzero : ∀ B, row.length ≤ B → byteDot masks row B = 0 := by
    intro B hB
    unfold byteDot
    apply Finset.sum_eq_zero
    intro b _
    rw [diffAt_of_le masks b hB, Int.zero_mul]
  rw [← sum_chunks (Or.inl rfl) _ hzero, lowDotScalar, ← Int.zero_add (∑ c ∈ _, _)]
  apply Wrapped.foldl_int
  intro c _ acc
  dsimp only
  rw [length_chunk]
  apply Wrapped.foldl_int
  intro j hj acc'
  have hword (b : ℕ) (hb : b < LOW_BITS) :
      countOnes (ofLe ((((row.drop (c * LOW_CHUNK)).take LOW_CHUNK).drop (j * 8)).take 8) &&&
          ofLe ((((masks.drop (c * (2 * LOW_BITS * LOW_CHUNK))).take (2 * LOW_BITS * LOW_CHUNK)).drop
            (b * LOW_CHUNK + j * 8)).take 8)) -
        countOnes (ofLe ((((row.drop (c * LOW_CHUNK)).take LOW_CHUNK).drop (j * 8)).take 8) &&&
          ofLe ((((masks.drop (c * (2 * LOW_BITS * LOW_CHUNK))).take (2 * LOW_BITS * LOW_CHUNK)).drop
            ((LOW_BITS + b) * LOW_CHUNK + j * 8)).take 8)) =
        ∑ k ∈ Finset.range 8, diffAt masks row b (c * LOW_CHUNK + j * 8 + k) := by
    rw [countOnes_eq, countOnes_eq, ← Finset.sum_sub_distrib]
    apply Finset.sum_congr rfl
    intro k hk
    rw [Finset.mem_range] at hk
    have hj8 : j * 8 + k < LOW_CHUNK := by
      unfold LOW_CHUNK at *
      omega
    have hmask (q : ℕ) (hq : q < 2 * LOW_BITS) :
        entry ((((masks.drop (c * (2 * LOW_BITS * LOW_CHUNK))).take (2 * LOW_BITS * LOW_CHUNK)).drop
          (q * LOW_CHUNK + j * 8)).take 8) k = entry masks (c * (2 * LOW_BITS * LOW_CHUNK) + (q * LOW_CHUNK + j * 8 + k)) := by
      rw [entry_take hk, entry_drop, entry_take (by unfold LOW_BITS LOW_CHUNK at *; omega), entry_drop]
    rw [entry_take hk, entry_drop, entry_chunk _ hj8, hmask b (by omega), hmask (LOW_BITS + b) (by omega), diffAt,
      Nat.add_assoc (c * LOW_CHUNK), maskAt_pos hj8, maskAt_neg hj8, Nat.add_assoc (b * LOW_CHUNK),
      Nat.add_assoc ((LOW_BITS + b) * LOW_CHUNK)]
  have hplanes : (List.range LOW_BITS).foldl (fun acc b => acc +
      (countOnes (ofLe ((((row.drop (c * LOW_CHUNK)).take LOW_CHUNK).drop (j * 8)).take 8) &&&
          ofLe ((((masks.drop (c * (2 * LOW_BITS * LOW_CHUNK))).take (2 * LOW_BITS * LOW_CHUNK)).drop
            (b * LOW_CHUNK + j * 8)).take 8)) -
        countOnes (ofLe ((((row.drop (c * LOW_CHUNK)).take LOW_CHUNK).drop (j * 8)).take 8) &&&
          ofLe ((((masks.drop (c * (2 * LOW_BITS * LOW_CHUNK))).take (2 * LOW_BITS * LOW_CHUNK)).drop
            ((LOW_BITS + b) * LOW_CHUNK + j * 8)).take 8))) * 2 ^ b) acc' = acc' +
      ∑ b ∈ Finset.range LOW_BITS, (∑ k ∈ Finset.range 8, diffAt masks row b (c * LOW_CHUNK + j * 8 + k)) * 2 ^ b := by
    apply Wrapped.foldl_int
    intro b hb s
    rw [hword b hb]
  rw [hplanes]
  unfold byteDot
  rw [Finset.sum_comm]
  simp only [Finset.sum_mul]

/-! ## Narrow accumulators -/

/-- A weighted difference of two counts fits a byte, so it is itself. -/
theorem shifted_diff : ∀ p < 9, ∀ n < 9, ∀ k < 3, (UInt8.ofNat p - UInt8.ofNat n).toInt8 <<< Int8.ofNat k =
    Int8.ofInt (((p : ℤ) - n) * 2 ^ k) := by
  decide +kernel

/-- Three planes of byte `B`, weighted 1, 2 and 4. -/
def threeAt (masks row : List UInt8) (b B : ℕ) : ℤ := ∑ k ∈ Finset.range 3, diffAt masks row (b + k) B * 2 ^ k

theorem abs_diffAt_le (masks row : List UInt8) (b B : ℕ) : |diffAt masks row b B| ≤ 8 := by
  have hp := byteOnes_le (entry row B &&& entry masks (maskAt false b B))
  have hn := byteOnes_le (entry row B &&& entry masks (maskAt true b B))
  rw [diffAt, abs_le]
  omega

/-- Nothing on the way to a byte accumulator leaves 8 bits. -/
theorem abs_threeAt_le (masks row : List UInt8) (b B : ℕ) {m : ℕ} (hm : m ≤ 3) :
    |∑ k ∈ Finset.range m, diffAt masks row (b + k) B * 2 ^ k| ≤ 56 := by
  have h0 := abs_le.1 (abs_diffAt_le masks row b B)
  have h1 := abs_le.1 (abs_diffAt_le masks row (b + 1) B)
  have h2 := abs_le.1 (abs_diffAt_le masks row (b + 2) B)
  rw [abs_le]
  match m, hm with
  | 0, _ => simp
  | 1, _ =>
    simp only [Finset.sum_range_succ, Finset.sum_range_zero, Nat.add_zero]
    omega
  | 2, _ =>
    simp only [Finset.sum_range_succ, Finset.sum_range_zero, Nat.add_zero]
    omega
  | 3, _ =>
    simp only [Finset.sum_range_succ, Finset.sum_range_zero, Nat.add_zero]
    omega

theorem planeDiff_eq (masks row : List UInt8) {b c x k : ℕ} (hk : k < 3) {l : ℕ → UInt8} {j i : ℕ}
    (hx : x < LOW_CHUNK) (hji : j + i = x) (hl : l i = entry row (c * LOW_CHUNK + x)) :
    planeDiff masks l (c * (2 * LOW_BITS * LOW_CHUNK)) j (b + k) i <<< Int8.ofNat k =
      Int8.ofInt (diffAt masks row (b + k) (c * LOW_CHUNK + x) * 2 ^ k) := by
  have hp := byteOnes_le (entry row (c * LOW_CHUNK + x) &&& entry masks (maskAt false (b + k) (c * LOW_CHUNK + x)))
  have hn := byteOnes_le (entry row (c * LOW_CHUNK + x) &&& entry masks (maskAt true (b + k) (c * LOW_CHUNK + x)))
  have hpos : c * (2 * LOW_BITS * LOW_CHUNK) + (b + k) * LOW_CHUNK + j + i = maskAt false (b + k) (c * LOW_CHUNK + x) := by
    rw [maskAt_pos hx, ← hji]
    omega
  have hneg : c * (2 * LOW_BITS * LOW_CHUNK) + (LOW_BITS + (b + k)) * LOW_CHUNK + j + i =
      maskAt true (b + k) (c * LOW_CHUNK + x) := by
    rw [maskAt_neg hx, ← hji]
    omega
  rw [planeDiff, hl, hpos, hneg, diffAt]
  exact shifted_diff _ (Nat.lt_succ_of_le hp) _ (Nat.lt_succ_of_le hn) k hk

theorem threePlanes_eq (masks row : List UInt8) (b : ℕ) {c x : ℕ} {l : ℕ → UInt8} {j i : ℕ}
    (hx : x < LOW_CHUNK) (hji : j + i = x) (hl : l i = entry row (c * LOW_CHUNK + x)) :
    (threePlanes masks l (c * (2 * LOW_BITS * LOW_CHUNK)) j b i).toInt = threeAt masks row b (c * LOW_CHUNK + x) := by
  have hsum : threePlanes masks l (c * (2 * LOW_BITS * LOW_CHUNK)) j b i =
      Int8.ofInt (threeAt masks row b (c * LOW_CHUNK + x)) := by
    rw [threeAt, Finset.sum_range_succ, Finset.sum_range_succ, Finset.sum_range_one, Int8.ofInt_add, Int8.ofInt_add,
      ← planeDiff_eq masks row (by decide) hx hji hl, ← planeDiff_eq masks row (by decide) hx hji hl,
      ← planeDiff_eq masks row (by decide) hx hji hl]
    show 0 + _ + _ + _ = _
    rw [Int8.zero_add]
  have hfits := abs_le.1 (abs_threeAt_le masks row b (c * LOW_CHUNK + x) le_rfl)
  rw [hsum]
  unfold threeAt
  exact Int8.toInt_ofInt_of_le (by omega) (by omega)

/-- Four bytes to a lane, the pairs within 16 bits. -/
theorem addPairs_eq (acc : ℕ → Int32) {x : ℕ → Int8} {g : ℕ → ℤ} {i : ℕ}
    (hx : ∀ k < 4, (x (4 * i + k)).toInt = g k) :
    addPairs acc x i = acc i + Int32.ofInt (∑ k ∈ Finset.range 4, g k) := by
  have hpair (a b : Int8) : (a.toInt16 + b.toInt16).toInt32 = Int32.ofInt (a.toInt + b.toInt) := by
    have ha := a.le_toInt
    have ha' := a.toInt_lt
    have hb := b.le_toInt
    have hb' := b.toInt_lt
    rw [← Int32.ofInt_int16ToInt, Int16.toInt_add, Int8.toInt_toInt16, Int8.toInt_toInt16,
      Int.bmod_eq_of_le (by omega) (by omega)]
  rw [addPairs]
  dsimp only
  rw [hpair, hpair, ← Int32.ofInt_add, show 2 * (2 * i) = 4 * i + 0 by omega, show 4 * i + 0 + 1 = 4 * i + 1 by omega,
    show 2 * (2 * i + 1) = 4 * i + 2 by omega, show 4 * i + 2 + 1 = 4 * i + 3 by omega, hx 0 (by decide),
    hx 1 (by decide), hx 2 (by decide), hx 3 (by decide)]
  congr 2
  simp only [Finset.sum_range_succ, Finset.sum_range_zero]
  omega

/-- What lane `i` of an accumulator has added. -/
def laneSum (masks row : List UInt8) (b i : ℕ) : ℤ :=
  ∑ c ∈ Finset.range ((row.length + LOW_CHUNK - 1) / LOW_CHUNK),
    ∑ s ∈ Finset.range ((min LOW_CHUNK (row.length - c * LOW_CHUNK) + 16 - 1) / 16),
      ∑ k ∈ Finset.range 4, threeAt masks row b (c * LOW_CHUNK + (s * 16 + (4 * i + k)))

theorem neonAcc_eq (masks row : List UInt8) (b : ℕ) {i : ℕ} (hi : i < 4) :
    neonAcc masks row b i = Int32.ofInt (laneSum masks row b i) := by
  rw [laneSum, neonAcc, ← Int32.zero_add (Int32.ofInt _)]
  apply @Wrapped.foldl_read (ℕ → Int32) (fun acc => acc i)
  intro acc c _
  rw [length_chunk]
  apply @Wrapped.foldl_read (ℕ → Int32) (fun acc => acc i)
  intro acc' s hs
  apply addPairs_eq
  intro k hk
  have hx : s * 16 + (4 * i + k) < LOW_CHUNK := by
    unfold LOW_CHUNK at *
    omega
  apply threePlanes_eq masks row b hx rfl
  rw [load, Nat.zero_add, entry_take (by omega), entry_drop, entry_chunk _ hx]

/-- No lane leaves 32 bits. -/
theorem abs_laneSum_le {masks row : List UInt8} (hrow : 8 * row.length ≤ MAX_DIM) (b i : ℕ) :
    |laneSum masks row b i| ≤ 28672 := by
  have hk (B : ℕ → ℕ) : |∑ k ∈ Finset.range 4, threeAt masks row b (B k)| ≤ 224 :=
    Wrapped.abs_sum_le (Finset.Subset.refl _) (by decide) fun k _ => abs_threeAt_le masks row b (B k) le_rfl
  have hs (c : ℕ) : |∑ s ∈ Finset.range ((min LOW_CHUNK (row.length - c * LOW_CHUNK) + 16 - 1) / 16),
      ∑ k ∈ Finset.range 4, threeAt masks row b (c * LOW_CHUNK + (s * 16 + (4 * i + k)))| ≤ 896 := by
    have hsub : Finset.range ((min LOW_CHUNK (row.length - c * LOW_CHUNK) + 16 - 1) / 16) ⊆ Finset.range 4 := by
      rw [Finset.range_subset_range]
      unfold LOW_CHUNK
      omega
    exact Wrapped.abs_sum_le hsub (by decide) fun s _ => hk fun k => c * LOW_CHUNK + (s * 16 + (4 * i + k))
  have hsub : Finset.range ((row.length + LOW_CHUNK - 1) / LOW_CHUNK) ⊆ Finset.range 32 := by
    rw [Finset.range_subset_range]
    unfold LOW_CHUNK MAX_DIM at *
    omega
  exact Wrapped.abs_sum_le hsub (by decide) fun c _ => hs c

theorem addAcross_neonAcc {masks row : List UInt8} (hrow : 8 * row.length ≤ MAX_DIM) (b : ℕ) :
    addAcross (neonAcc masks row b) = ∑ B ∈ Finset.range row.length, threeAt masks row b B := by
  have hzero : ∀ B, row.length ≤ B → threeAt masks row b B = 0 := by
    intro B hB
    unfold threeAt
    apply Finset.sum_eq_zero
    intro k _
    rw [diffAt_of_le masks (b + k) hB, Int.zero_mul]
  have hlane : ∀ i ∈ Finset.range 4, (neonAcc masks row b i).toInt = laneSum masks row b i := by
    intro i hi
    have hfits := abs_le.1 (@abs_laneSum_le masks row hrow b i)
    rw [neonAcc_eq masks row b (Finset.mem_range.1 hi)]
    exact Int32.toInt_ofInt_of_le (by omega) (by omega)
  rw [addAcross, Finset.sum_congr rfl hlane, ← sum_chunks (Or.inr rfl) _ hzero]
  unfold laneSum
  rw [Finset.sum_comm]
  apply Finset.sum_congr rfl
  intro c _
  rw [Finset.sum_comm]
  apply Finset.sum_congr rfl
  intro s _
  rw [show 16 = 4 * 4 from rfl, Wrapped.sum_range_mul]
  apply Finset.sum_congr rfl
  intro i _
  apply Finset.sum_congr rfl
  intro k _
  congr 1
  omega

theorem lowDotNeon_eq {masks row : List UInt8} (hrow : 8 * row.length ≤ MAX_DIM) :
    lowDotNeon masks row = lowDotScalar masks row := by
  rw [lowDotNeon, addAcross_neonAcc hrow, addAcross_neonAcc hrow, lowDotScalar_eq, Finset.mul_sum,
    ← Finset.sum_add_distrib]
  apply Finset.sum_congr rfl
  intro B _
  simp only [threeAt, byteDot, LOW_BITS, Finset.sum_range_succ, Finset.sum_range_zero]
  ring

/-! ## The weights -/

/-- A bit is set where it was, or where some store sets it. -/
theorem testBit_orAt {ι : Type} (pos : ι → ℕ) (bit : ι → UInt8) (xs : List ι) {l : List UInt8} {p : ℕ}
    (hp : p < l.length) (t : ℕ) : (entry (orAt pos bit xs l) p).toNat.testBit t =
      ((entry l p).toNat.testBit t || xs.any fun x => decide (pos x = p) && (bit x).toNat.testBit t) := by
  induction xs generalizing l with
  | nil => simp [orAt]
  | cons x xs ih =>
    rw [orAt, List.foldl_cons, ← orAt, ih (by rwa [List.length_set]), List.any_cons]
    by_cases hx : pos x = p
    · subst hx
      rw [entry_set_self hp, Bits.testBit_or, decide_eq_true rfl, Bool.true_and, Bool.or_assoc]
    · rw [entry_set_ne hx, decide_eq_false hx, Bool.false_and, Bool.false_or]

theorem testBit_top : ∀ r < 8, ∀ t < 8, ((0x80 : UInt8) >>> UInt8.ofNat r).toNat.testBit t = decide (r + t = 7) := by
  decide

theorem maskAt_inj {neg neg' : Bool} {b b' B B' : ℕ} (hb : b < LOW_BITS) (hb' : b' < LOW_BITS)
    (h : maskAt neg b B = maskAt neg' b' B') : neg = neg' ∧ b = b' ∧ B = B' := by
  unfold maskAt LOW_BITS LOW_CHUNK at *
  cases neg with
  | false =>
    cases neg' with
    | false =>
      simp only [Bool.false_eq_true, if_false] at h
      refine ⟨rfl, ?_⟩
      omega
    | true =>
      simp only [Bool.false_eq_true, if_false, if_true] at h
      omega
  | true =>
    cases neg' with
    | false =>
      simp only [Bool.false_eq_true, if_false, if_true] at h
      omega
    | true =>
      simp only [if_true] at h
      refine ⟨rfl, ?_⟩
      omega

section

variable {w : ℕ → ℤ} {dim : ℕ}

/-- A mask's bit is that of a weight of its sign. -/
theorem testBit_masks (hd : dim % 8 = 0) (neg : Bool) {b B t : ℕ} (hb : b < LOW_BITS) (hB : B < dim / 8) (ht : t < 8) :
    (entry (buildLowPlanesScalar w dim).masks (maskAt neg b B)).toNat.testBit t =
      (decide (decide (w (8 * B + (7 - t)) < 0) = neg) && (w (8 * B + (7 - t))).natAbs.testBit b) := by
  have hlen : maskAt neg b B < (List.replicate ((dim / 8 + LOW_CHUNK - 1) / LOW_CHUNK * (2 * LOW_BITS * LOW_CHUNK))
      (0 : UInt8)).length := by
    rw [List.length_replicate]
    unfold maskAt LOW_BITS LOW_CHUNK at *
    cases neg
    · simp only [Bool.false_eq_true, if_false]
      omega
    · simp only [if_true]
      omega
  rw [buildLowPlanesScalar, testBit_orAt _ _ _ hlen, entry_replicate_zero, UInt8.toNat_zero, Nat.zero_testBit,
    Bool.false_or, Bool.eq_iff_iff, List.any_eq_true, Bool.and_eq_true, decide_eq_true_iff]
  constructor
  · rintro ⟨x, hx, hbit⟩
    simp only [List.mem_flatMap, List.mem_map, List.mem_filter, List.mem_range] at hx
    obtain ⟨i, -, b', ⟨hb', hset⟩, rfl⟩ := hx
    dsimp only at hbit
    rw [Bool.and_eq_true, decide_eq_true_iff, testBit_top _ (Nat.mod_lt _ (by decide)) _ ht, decide_eq_true_iff] at hbit
    obtain ⟨rfl, rfl, hi⟩ := maskAt_inj hb' hb hbit.1
    have hidx : 8 * B + (7 - t) = i := by omega
    rw [hidx]
    exact ⟨rfl, hset⟩
  · rintro ⟨hneg, hset⟩
    refine ⟨(8 * B + (7 - t), b), ?_, ?_⟩
    · simp only [List.mem_flatMap, List.mem_map, List.mem_filter, List.mem_range]
      exact ⟨8 * B + (7 - t), by omega, b, ⟨hb, hset⟩, rfl⟩
    · dsimp only
      rw [hneg, show (8 * B + (7 - t)) / 8 = B by omega, testBit_top _ (Nat.mod_lt _ (by decide)) _ ht,
        show (8 * B + (7 - t)) % 8 + t = 7 by omega]
      simp

/-- A magnitude from its six bits. -/
theorem sum_bits : ∀ m < (64 : ℕ), ∑ b ∈ Finset.range LOW_BITS, (if m.testBit b then (2 : ℤ) ^ b else 0) = (m : ℤ) := by
  decide +kernel

/-- The planes of a byte add up to the weights of its set bits. -/
theorem byteDot_eq (hd : dim % 8 = 0) (hw : ∀ i < dim, |w i| ≤ 63) (row : List UInt8) {B : ℕ} (hB : B < dim / 8) :
    byteDot (buildLowPlanesScalar w dim).masks row B =
      ∑ t ∈ Finset.range 8, if (entry row B).toNat.testBit t then w (8 * B + (7 - t)) else 0 := by
  have hplane (b : ℕ) (hb : b < LOW_BITS) : diffAt (buildLowPlanesScalar w dim).masks row b B * 2 ^ b =
      ∑ t ∈ Finset.range 8, if (entry row B).toNat.testBit t then
        (if w (8 * B + (7 - t)) < 0 then -1 else 1) * (if (w (8 * B + (7 - t))).natAbs.testBit b then 2 ^ b else 0)
        else 0 := by
    rw [diffAt, byteOnes, byteOnes, Nat.cast_sum, Nat.cast_sum, ← Finset.sum_sub_distrib, Finset.sum_mul]
    apply Finset.sum_congr rfl
    intro t ht
    rw [Finset.mem_range] at ht
    rw [Bits.testBit_and, Bits.testBit_and, testBit_masks hd false hb hB ht, testBit_masks hd true hb hB ht]
    by_cases hrow : (entry row B).toNat.testBit t = true
    · by_cases hneg : w (8 * B + (7 - t)) < 0
      · by_cases hbit : (w (8 * B + (7 - t))).natAbs.testBit b = true
        · simp [hrow, hneg, hbit]
        · simp [hrow, hneg, hbit]
      · by_cases hbit : (w (8 * B + (7 - t))).natAbs.testBit b = true
        · simp [hrow, hneg, hbit]
        · simp [hrow, hneg, hbit]
    · simp [hrow]
  rw [byteDot, Finset.sum_congr rfl fun b hb => hplane b (Finset.mem_range.1 hb), Finset.sum_comm]
  apply Finset.sum_congr rfl
  intro t ht
  rw [Finset.mem_range] at ht
  split
  · have hbound := abs_le.1 (hw (8 * B + (7 - t)) (by omega))
    rw [← Finset.mul_sum, sum_bits _ (by omega)]
    split
    · omega
    · omega
  · exact Finset.sum_const_zero

theorem lowDotScalar_weights (hd : dim % 8 = 0) (hw : ∀ i < dim, |w i| ≤ 63) {row : List UInt8}
    (hrow : row.length = dim / 8) : lowDotScalar (buildLowPlanesScalar w dim).masks row =
      ∑ i ∈ Finset.range dim, if rowBit row i then w i else 0 := by
  rw [lowDotScalar_eq, hrow, show Finset.range dim = Finset.range (dim / 8 * 8) by congr 1; omega,
    Wrapped.sum_range_mul]
  apply Finset.sum_congr rfl
  intro B hB
  rw [byteDot_eq hd hw row (Finset.mem_range.1 hB), ← Finset.sum_range_reflect]
  apply Finset.sum_congr rfl
  intro t ht
  rw [Finset.mem_range] at ht
  rw [rowBit, show (B * 8 + t) / 8 = B by omega, show 7 - (B * 8 + t) % 8 = 8 - 1 - t by omega,
    show 8 * B + (7 - (8 - 1 - t)) = B * 8 + t by omega]

theorem sumW_eq : (buildLowPlanesScalar w dim).sumW = ∑ i ∈ Finset.range dim, w i := by
  have h := @Wrapped.foldl_int (fun i s => s + w i) w dim (fun _ _ _ => rfl) 0
  rw [Int.zero_add] at h
  exact h

/-- The count of bits is the sum of the weights over the row's set bits, on every host, so twice it less the
sum of all weights takes each weight with the bit's sign. No accumulator leaves its width: three planes of a
byte stay within 8 bits, and a lane and the sum of weights within 32. -/
theorem low_dot_exact (hd : dim % 8 = 0) (hw : ∀ i < dim, |w i| ≤ 63) {row : List UInt8} (hrow : row.length = dim / 8) :
    lowDotScalar (buildLowPlanesScalar w dim).masks row = (∑ i ∈ Finset.range dim, if rowBit row i then w i else 0) ∧
    (buildLowPlanesScalar w dim).sumW = ∑ i ∈ Finset.range dim, w i ∧
    2 * lowDotScalar (buildLowPlanesScalar w dim).masks row - (buildLowPlanesScalar w dim).sumW =
      (∑ i ∈ Finset.range dim, if rowBit row i then w i else -w i) ∧
    (dim ≤ MAX_DIM →
      lowDotNeon (buildLowPlanesScalar w dim).masks row = lowDotScalar (buildLowPlanesScalar w dim).masks row ∧
      (∀ masks b B m, m ≤ 3 → |∑ k ∈ Finset.range m, diffAt masks row (b + k) B * 2 ^ k| ≤ 56) ∧
      (∀ masks b i, i < 4 → neonAcc masks row b i = Int32.ofInt (laneSum masks row b i) ∧ |laneSum masks row b i| ≤ 28672) ∧
      ∀ S ⊆ Finset.range dim, |∑ i ∈ S, w i| < 2 ^ 31) := by
  refine ⟨lowDotScalar_weights hd hw hrow, sumW_eq, ?_, fun hmax => ⟨?_, fun masks b B m hm => abs_threeAt_le masks row b B hm,
    fun masks b i hi => ⟨neonAcc_eq masks row b hi, ?_⟩, fun S hS => ?_⟩⟩
  · rw [lowDotScalar_weights hd hw hrow, sumW_eq, Finset.mul_sum, ← Finset.sum_sub_distrib]
    apply Finset.sum_congr rfl
    intro i _
    split
    · omega
    · omega
  · exact lowDotNeon_eq (by omega)
  · exact abs_laneSum_le (by omega) b i
  · have hsum := Wrapped.abs_sum_le hS (by decide) fun i hi => hw i (Finset.mem_range.1 (hS hi))
    have hdim : (dim : ℤ) ≤ 16384 := Int.ofNat_le.2 hmax
    omega

end

/-- Sixteen coordinates, alternating in sign, over a row of two bytes. -/
theorem low_dot_exact_sixteen :
    lowDotScalar (buildLowPlanesScalar (fun i => if i % 2 = 0 then (i : ℤ) else -i) 16).masks [0xA0, 0x01] = -13 ∧
    lowDotNeon (buildLowPlanesScalar (fun i => if i % 2 = 0 then (i : ℤ) else -i) 16).masks [0xA0, 0x01] = -13 := by
  obtain ⟨h, -, -, hneon⟩ := @low_dot_exact (fun i => if i % 2 = 0 then (i : ℤ) else -i) 16 rfl (by decide) [0xA0, 0x01] rfl
  have hvalue : (∑ i ∈ Finset.range 16, if rowBit [0xA0, 0x01] i then (if i % 2 = 0 then (i : ℤ) else -i) else 0) = -13 := by
    decide +kernel
  exact ⟨h.trans hvalue, (hneon (by decide)).1.trans (h.trans hvalue)⟩

end Turbovec.Scan
