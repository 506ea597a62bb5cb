import Turbovec.Pack.Regions

/-!
# The stored form and the regions

Sequential blocks to sign and low regions and back. At 4 bits both directions move eight lanes at a
time as 64-bit words, and a buffer the caller gives up is converted in place.
-/

namespace Turbovec.Pack

open LittleEndian Slice Grid Bits

/-! ## Definitions -/

/-- Eight lanes of a block from `l0` on, group byte `j` of group `g`. -/
def seqWord (blk : List UInt8) (g j l0 : ℕ) : ℕ :=
  ofLe ((blk.drop ((4 * g + j) * BLOCK + l0)).take 8)

/-- Plane `p` of group `g` for the eight lanes from `l0` on. -/
def planeWord (blk : List UInt8) (g l0 p : ℕ) : ℕ :=
  (List.range 4).foldl (fun acc j => acc |||
    ((((seqWord blk g j l0 >>> (4 + p)) &&& ONES) <<< (7 - 2 * j)) |||
      (((seqWord blk g j l0 >>> p) &&& ONES) <<< (6 - 2 * j)))) 0

/-- The loop's cells `(g, l0, q, i)`: group, first lane of eight, plane or group byte, lane. -/
def wordCells (nsg inBlock qs : ℕ) : List (ℕ × ℕ × ℕ × ℕ) :=
  (List.range nsg).flatMap fun g => (List.range ((inBlock + 7) / 8)).flatMap fun w =>
    (List.range qs).flatMap fun q =>
      (List.range (min (inBlock - 8 * w) 8)).map fun i => (g, 8 * w, q, i)

/-- One sequential 4-bit block to its sign block and its low rows. -/
def planes4SeqBlock (P : Platform) (blk : List UInt8) (nsg inBlock : ℕ)
    (signBlk lowRows : List UInt8) : List UInt8 × List UInt8 :=
  let lowRow := 3 * nsg
  let signBlk := if inBlock < BLOCK then List.replicate signBlk.length 0 else signBlk
  (scatter (fun x => planesSlot P x.1 (x.2.1 + x.2.2.2))
      (fun x => entry (leBytes 8 (planeWord blk x.1 x.2.1 3)) x.2.2.2) (wordCells nsg inBlock 1)
      signBlk,
    scatter (fun x => (x.2.1 + x.2.2.2) * lowRow + x.2.2.1 * nsg + x.1)
      (fun x => entry (leBytes 8 (planeWord blk x.1 x.2.1 x.2.2.1)) x.2.2.2)
      (wordCells nsg inBlock 3) lowRows)

/-- One sequential 2-bit block to its sign block and its low rows. -/
def planes2SeqBlock (P : Platform) (src : List UInt8) (nsg inBlock : ℕ)
    (signBlk lowRows : List UInt8) : List UInt8 × List UInt8 :=
  let c0 := fun lane g => entry src (2 * g * BLOCK + lane)
  let c1 := fun lane g => entry src ((2 * g + 1) * BLOCK + lane)
  (scatter (fun p => planesSlot P p.2 p.1)
      (fun p => joinNibbles (gatherSign (c0 p.1 p.2)) (gatherSign (c1 p.1 p.2)))
      (cells inBlock nsg) signBlk,
    scatter (fun p => p.1 * nsg + p.2)
      (fun p => joinNibbles (gatherLow (c0 p.1 p.2)) (gatherLow (c1 p.1 p.2)))
      (cells inBlock nsg) lowRows)

/-- Sequential code bytes to `(sign region, low region)`. -/
def planesFromSeq (P : Platform) (seq : List UInt8) (bits nByteGroups nVectors : ℕ) :
    List UInt8 × List UInt8 :=
  if bits ≠ 2 then
    let nsg := (planesGeom bits nByteGroups).1
    let r := planesRepack P (seqToPacked seq nVectors bits (nsg * 8)) nVectors bits (nsg * 8)
    (r.1, r.2.1)
  else
    let nsg := nByteGroups / 2
    let nBlocks := (nVectors + 31) / 32
    let one := fun b =>
      let inBlock := min (nVectors - b * BLOCK) BLOCK
      planes2SeqBlock P (rowAt seq (nByteGroups * BLOCK) b) nsg inBlock
        (List.replicate (nsg * BLOCK) 0) (List.replicate (inBlock * nsg) 0)
    ((List.range nBlocks).flatMap fun b => (one b).1, (List.range nBlocks).flatMap fun b => (one b).2)

/-- Blocks a chunk of the in-place conversion takes. -/
def CHUNK_BLOCKS : ℕ := 256

/-- One chunk of the in-place 4-bit conversion: the blocks from `256 * c` on, their low rows written
back over the front of the buffer. State: the buffer, the sign region, the scratch rows. -/
def planesOwnedChunk (P : Platform) (nByteGroups nVectors : ℕ)
    (st : List UInt8 × List UInt8 × List UInt8) (c : ℕ) : List UInt8 × List UInt8 × List UInt8 :=
  let (nsg, lowRow) := planesGeom 4 nByteGroups
  let blockBytes := nByteGroups * BLOCK
  let c0 := c * CHUNK_BLOCKS
  let c1 := min (c0 + CHUNK_BLOCKS) ((nVectors + 31) / 32)
  let v0 := c0 * BLOCK
  let v1 := min (c1 * BLOCK) nVectors
  let direct := decide (v1 * lowRow ≤ c0 * blockBytes)
  let dst := if direct then (st.1.drop (v0 * lowRow)).take (v1 * lowRow - v0 * lowRow)
    else st.2.2.take ((v1 - v0) * lowRow)
  let one := fun i =>
    let inBlock := min (nVectors - (c0 + i) * BLOCK) BLOCK
    planes4SeqBlock P (rowAt st.1 blockBytes (c0 + i)) nsg inBlock
      (rowAt st.2.1 (nsg * BLOCK) (c0 + i)) (rowAt dst (BLOCK * lowRow) i)
  let lows := (List.range (c1 - c0)).flatMap fun i => (one i).2
  (overwrite st.1 (v0 * lowRow) lows,
    overwrite st.2.1 (c0 * (nsg * BLOCK)) ((List.range (c1 - c0)).flatMap fun i => (one i).1),
    if direct then st.2.2 else overwrite st.2.2 0 lows)

/-- `planesFromSeq` for a buffer the caller gives up. -/
def planesFromSeqOwned (P : Platform) (seq : List UInt8) (bits nByteGroups nVectors : ℕ) :
    List UInt8 × List UInt8 :=
  if bits ≠ 4 then planesFromSeq P seq bits nByteGroups nVectors
  else
    let (nsg, lowRow) := planesGeom bits nByteGroups
    let nBlocks := (nVectors + 31) / 32
    let st := (List.range ((nBlocks + 255) / 256)).foldl (planesOwnedChunk P nByteGroups nVectors)
      (seq, List.replicate (nBlocks * (nsg * BLOCK)) 0,
        List.replicate (CHUNK_BLOCKS * (BLOCK * lowRow)) 0)
    (st.2.1, st.1.take (nVectors * lowRow))

/-- The bytes of up to eight lanes as one word. -/
def packWord (bytes : ℕ → UInt8) (n8 : ℕ) : ℕ :=
  (List.range n8).foldl (fun w i => w ||| ((bytes i).toNat <<< (8 * i))) 0

/-- Group byte `j` of eight lanes, from the four plane words. -/
def joinPlanes (planes : ℕ → ℕ) (j : ℕ) : ℕ :=
  (List.range 4).foldl (fun w p => w |||
    ((((planes p >>> (7 - 2 * j)) &&& ONES) <<< (4 + p)) |||
      (((planes p >>> (6 - 2 * j)) &&& ONES) <<< p))) 0

/-- The two 4-bit regions to sequential code bytes. -/
def planes4ToSeq (P : Platform) (sign low : List UInt8) (nByteGroups nVectors : ℕ) : List UInt8 :=
  let (nsg, lowRow) := planesGeom 4 nByteGroups
  let blockBytes := nByteGroups * BLOCK
  (List.range ((nVectors + 31) / 32)).flatMap fun b =>
    let inBlock := min (nVectors - b * BLOCK) BLOCK
    let sblk := rowAt sign (nsg * BLOCK) b
    let plane := fun g l0 p => packWord (fun i => if p = 3 then entry sblk (planesSlot P g (l0 + i))
      else entry (rowAt low lowRow (b * BLOCK + (l0 + i))) (p * nsg + g)) (min (inBlock - l0) 8)
    scatter (fun x => (4 * x.1 + x.2.2.1) * BLOCK + x.2.1 + x.2.2.2)
      (fun x => entry (leBytes 8 (joinPlanes (plane x.1 x.2.1) x.2.2.1)) x.2.2.2)
      (wordCells nsg inBlock 4) (List.replicate blockBytes 0)

/-- The two regions to sequential code bytes. -/
def planesToSeq (P : Platform) (sign low : List UInt8) (bits nByteGroups nVectors : ℕ) :
    List UInt8 :=
  if bits = 4 then planes4ToSeq P sign low nByteGroups nVectors
  else if bits ≠ 2 then
    let nsg := (planesGeom bits nByteGroups).1
    repackSeq (planesToPacked P sign low bits nsg nVectors) nVectors bits (nsg * 8)
  else
    let nsg := nByteGroups / 2
    (List.range ((nVectors + 31) / 32)).flatMap fun b =>
      let c := fun p : ℕ × ℕ => planesToCodeBytes
        (entry sign (b * nsg * BLOCK + planesSlot P p.2 p.1))
        (entry low ((b * BLOCK + p.1) * nsg + p.2))
      let inBlock := min (nVectors - b * BLOCK) BLOCK
      scatter (fun p => (2 * p.2 + 1) * BLOCK + p.1) (fun p => (c p).2) (cells inBlock nsg)
        (scatter (fun p => 2 * p.2 * BLOCK + p.1) (fun p => (c p).1) (cells inBlock nsg)
          (List.replicate (nByteGroups * BLOCK) 0))

/-! ## Words -/

theorem mem_wordCells {nsg inBlock qs : ℕ} {x : ℕ × ℕ × ℕ × ℕ} : x ∈ wordCells nsg inBlock qs ↔
    x.1 < nsg ∧ x.2.2.1 < qs ∧ x.2.1 % 8 = 0 ∧ x.2.2.2 < 8 ∧ x.2.1 + x.2.2.2 < inBlock := by
  obtain ⟨g, l0, q, i⟩ := x
  simp only [wordCells, List.mem_flatMap, List.mem_range, List.mem_map, Prod.mk.injEq]
  constructor
  · rintro ⟨g, hg, w, hw, q, hq, i, hi, rfl, rfl, rfl, rfl⟩
    exact ⟨hg, hq, by omega, by omega, by omega⟩
  · rintro ⟨hg, hq, hl, hi, hlt⟩
    exact ⟨g, hg, l0 / 8, by omega, q, hq, i, by omega, rfl, by omega, rfl, rfl⟩

/-- The code bytes of one lane of a sequential block. -/
def seqLane (blk : List UInt8) (nbg lane : ℕ) : List UInt8 :=
  tabulate nbg fun g => entry blk (g * BLOCK + lane)

@[simp] theorem length_seqLane (blk : List UInt8) (nbg lane : ℕ) :
    (seqLane blk nbg lane).length = nbg :=
  length_tabulate _ _

theorem entry_seqLane (blk : List UInt8) {nbg g : ℕ} (lane : ℕ) (hg : g < nbg) :
    entry (seqLane blk nbg lane) g = entry blk (g * BLOCK + lane) :=
  entry_tabulate _ hg

theorem testBit_seqWord (blk : List UInt8) (g j l0 : ℕ) {i k : ℕ} (hi : i < 8) (hk : k < 8) :
    (seqWord blk g j l0).testBit (8 * i + k) =
      (entry blk ((4 * g + j) * BLOCK + (l0 + i))).toNat.testBit k := by
  rw [seqWord, testBit_ofLe _ _ hk, entry_take hi, entry_drop, Nat.add_assoc]

/-- Byte `i` of a plane word is the plane byte of lane `l0 + i`. -/
theorem entry_planeWord (blk : List UInt8) {nsg g p i : ℕ} (l0 : ℕ) (hg : g < nsg) (hp : p < 4)
    (hi : i < 8) : entry (leBytes 8 (planeWord blk g l0 p)) i =
      planeByte (seqLane blk (4 * nsg) (l0 + i)) p g := by
  refine eq_of_testBit fun k hk => ?_
  have hstep (j : ℕ) : ∀ a : ℕ, (a ||| ((((seqWord blk g j l0 >>> (4 + p)) &&& ONES) <<<
      (7 - 2 * j)) ||| (((seqWord blk g j l0 >>> p) &&& ONES) <<< (6 - 2 * j)))).testBit
        (8 * i + k) = (a.testBit (8 * i + k) || ((decide (k = 7 - 2 * j) &&
          (entry blk ((4 * g + j) * BLOCK + (l0 + i))).toNat.testBit (4 + p)) ||
        (decide (k = 6 - 2 * j) &&
          (entry blk ((4 * g + j) * BLOCK + (l0 + i))).toNat.testBit p))) := by
    intro a
    rw [Nat.testBit_or, Nat.testBit_or, testBit_pickBytes _ _ (by omega) hi hk,
      testBit_pickBytes _ _ (by omega) hi hk, testBit_seqWord _ _ _ _ hi (by omega),
      testBit_seqWord _ _ _ _ hi (by omega)]
  rw [testBit_leBytes hi hk, planeWord, testBit_foldl _ fun a j => hstep j a, planeByte,
    testBit_ofNat hk, testBit_foldl (fun j => (decide (k = 7 - 2 * j) &&
      (entry (seqLane blk (4 * nsg) (l0 + i)) (4 * g + j)).toNat.testBit (4 + p)) ||
        (decide (k = 6 - 2 * j) &&
          (entry (seqLane blk (4 * nsg) (l0 + i)) (4 * g + j)).toNat.testBit p)) fun a j => by
      rw [Nat.testBit_or, Nat.testBit_or, testBit_pick, testBit_pick]]
  rw [Nat.zero_testBit, Nat.zero_testBit]
  congr 1
  refine any_range_congr fun j hj => ?_
  rw [entry_seqLane _ _ (by omega)]

/-- Byte `i` of a packed word. -/
theorem testBit_packWord (bytes : ℕ → UInt8) {n8 i k : ℕ} (hi : i < n8) (hk : k < 8) :
    (packWord bytes n8).testBit (8 * i + k) = (bytes i).toNat.testBit k := by
  rw [packWord, testBit_foldl (fun i' => decide (8 * i' ≤ 8 * i + k) &&
      (bytes i').toNat.testBit (8 * i + k - 8 * i')) (fun a i' => by
        rw [Nat.testBit_or, Nat.testBit_shiftLeft]), Nat.zero_testBit, Bool.false_or,
    any_range_eq_of_unique hi fun j _ hg => ?_]
  · rw [Nat.add_sub_cancel_left]
    simp
  · simp only [Bool.and_eq_true, decide_eq_true_eq] at hg
    by_contra hne
    have : 8 ≤ 8 * i + k - 8 * j := by omega
    rw [testBit_of_le this] at hg
    exact absurd hg.2 (by decide)

/-- Byte `i` of a joined word is the code byte of the row with these planes. -/
theorem entry_joinPlanes {dim : ℕ} (row : List UInt8) (planes : ℕ → ℕ) {g j i : ℕ}
    (hd : dim % 8 = 0) (hg : g < dim / 8) (hj : j < 4) (hi : i < 8)
    (h : ∀ p < 4, ∀ k < 8, (planes p).testBit (8 * i + k) =
      (entry row (p * (dim / 8) + g)).toNat.testBit k) :
    entry (leBytes 8 (joinPlanes planes j)) i = entry (extractRow 4 dim row) (4 * g + j) := by
  refine eq_of_testBit fun k hk => ?_
  have hstep (a p : ℕ) : (a ||| ((((planes p >>> (7 - 2 * j)) &&& ONES) <<< (4 + p)) |||
      (((planes p >>> (6 - 2 * j)) &&& ONES) <<< p))).testBit (8 * i + k) =
      (a.testBit (8 * i + k) || ((((planes p >>> (7 - 2 * j)) &&& ONES) <<< (4 + p)).testBit
        (8 * i + k) || (((planes p >>> (6 - 2 * j)) &&& ONES) <<< p).testBit (8 * i + k))) := by
    rw [Nat.testBit_or, Nat.testBit_or]
  have hlt : 4 * g + j < dim / codesPerByte 4 := by simp only [codesPerByte]; omega
  -- bit `k` of the byte is bit `k % 4` of the group byte's first or second code
  have hcode := @testBit_extractByte 4 (Or.inr (Or.inr rfl)) (dim / 8) row (4 * g + j) (1 - k / 4)
    (k % 4) (by simp only [codesPerByte]; omega) (by omega)
  have hk' : (codesPerByte 4 - 1 - (1 - k / 4)) * field 4 + k % 4 = k := by
    simp only [codesPerByte, field, show ¬ (4 = 3) by decide, if_false]
    omega
  have hbyte : ((4 * g + j) * codesPerByte 4 + (1 - k / 4)) / 8 = g := by
    simp only [codesPerByte]
    omega
  have hpos : 7 - ((4 * g + j) * codesPerByte 4 + (1 - k / 4)) % 8 = 6 - 2 * j + k / 4 := by
    simp only [codesPerByte]
    omega
  rw [hk', hbyte, hpos] at hcode
  rw [testBit_leBytes hi hk, entry_extractRow _ hlt, hcode, joinPlanes, testBit_foldl _ hstep,
    Nat.zero_testBit, Bool.false_or, @any_range_eq_of_unique 4 (k % 4) _ (by omega) fun p hp hg => ?_]
  · rw [testBit_pickBytes _ _ (by omega) hi hk, testBit_pickBytes _ _ (by omega) hi hk,
      h _ (by omega) _ (by omega), h _ (by omega) _ (by omega)]
    by_cases hk4 : k < 4
    · have h1 : ¬ k = 4 + k % 4 := by omega
      have h2 : k = k % 4 := by omega
      rw [decide_eq_false h1, decide_eq_true h2, Bool.false_and, Bool.true_and, Bool.false_or]
      congr 1
      omega
    · have h1 : k = 4 + k % 4 := by omega
      have h2 : ¬ k = k % 4 := by omega
      rw [decide_eq_true h1, decide_eq_false h2, Bool.false_and, Bool.true_and, Bool.or_false]
      congr 1
      omega
  · rw [testBit_pickBytes _ _ (by omega) hi hk, testBit_pickBytes _ _ (by omega) hi hk] at hg
    simp only [Bool.or_eq_true, Bool.and_eq_true, decide_eq_true_eq] at hg
    omega

/-! ## One block -/

section Slots

variable {P : Platform} {bits dim g g' lane lane' : ℕ}

theorem planesSlot_lt (hp : planesFor P bits (dim / codesPerByte bits) = true) (hd : dim % 8 = 0)
    (hg : g < dim / 8) (hl : lane < 32) : planesSlot P g lane < dim / 8 * 32 := by
  have hmod : P.arch = .x86_64 → dim / 8 % 4 = 0 := by
    intro hx
    rcases planesBits_of_planesFor hp with rfl | rfl <;>
      simp only [planesFor, hx, if_true, Bool.and_eq_true, beq_iff_eq, codesPerByte] at hp <;> omega
  rw [planesSlot]
  split
  · have := hmod ‹_›
    omega
  · simp only [BLOCK]
    omega

theorem planesSlot_inj (hl : lane < 32) (hl' : lane' < 32)
    (h : planesSlot P g lane = planesSlot P g' lane') : g = g' ∧ lane = lane' := by
  simp only [planesSlot, BLOCK] at h
  split at h <;> omega

/-- Stores of every group of the first lanes of a sign block. -/
theorem entry_scatter_slots {ι : Type*} (hp : planesFor P bits (dim / codesPerByte bits) = true)
    (hd : dim % 8 = 0) {lane' group : ι → ℕ} {val : ι → UInt8} {xs : List ι} {inBlock : ℕ}
    {blk : List UInt8} {code : ℕ → ℕ → UInt8} (hlen : blk.length = dim / 8 * 32)
    (hin : inBlock ≤ 32)
    (hzero : inBlock < 32 → ∀ k, entry blk k = 0)
    (hxs : ∀ x ∈ xs, group x < dim / 8 ∧ lane' x < inBlock ∧ val x = code (lane' x) (group x))
    (hall : ∀ l < inBlock, ∀ g < dim / 8, ∃ x ∈ xs, lane' x = l ∧ group x = g)
    (hl : lane < 32) (hg : g < dim / 8) :
    entry (scatter (fun x => planesSlot P (group x) (lane' x)) val xs blk) (planesSlot P g lane) =
      if lane < inBlock then code lane g else 0 := by
  by_cases hlt : lane < inBlock
  · obtain ⟨x, hx, rfl, rfl⟩ := hall lane hlt g hg
    rw [if_pos hlt, @entry_scatter _ _ _ (fun x => planesSlot P (group x) (lane' x)) val xs blk x hx
      (fun y hy h => ?_) (hlen ▸ planesSlot_lt hp hd hg hl), (hxs x hx).2.2]
    obtain ⟨h1, h2⟩ := planesSlot_inj (by have := (hxs y hy).2.1; omega) hl h
    rw [(hxs y hy).2.2, (hxs x hx).2.2, h1, h2]
  · rw [if_neg hlt, entry_congr (getElem?_scatter_of_forall_ne fun y hy h => ?_),
      hzero (by omega)]
    obtain ⟨-, h2⟩ := planesSlot_inj (by have := (hxs y hy).2.1; omega) hl h
    have := (hxs y hy).2.1
    omega

end Slots

/-- What converting one sequential block gives: the sign bytes of its first `inBlock` lanes at their
slots, zero in the others, and their low rows. -/
structure BlockSplit (P : Platform) (bits dim inBlock : ℕ) (blk : List UInt8)
    (r : List UInt8 × List UInt8) : Prop where
  length_sign : r.1.length = dim / 8 * 32
  sign : ∀ lane < 32, ∀ g < dim / 8, entry r.1 (planesSlot P g lane) = if lane < inBlock then
    entry (signPart bits dim (packRow bits dim (seqLane blk (dim / codesPerByte bits) lane))) g else 0
  low : r.2 = (List.range inBlock).flatMap fun lane =>
    lowPart bits dim (packRow bits dim (seqLane blk (dim / codesPerByte bits) lane))

section Block

variable {P : Platform} {bits dim inBlock : ℕ} {blk : List UInt8}

/-- Low rows from stores of every byte of the first lanes. -/
theorem lows_of_scatter {ι : Type*} {pos : ι → ℕ} {val : ι → UInt8}
    {xs : List ι} {lows : List UInt8} {row : ℕ → List UInt8}
    (hrow : ∀ l < inBlock, (row l).length = (bits - 1) * (dim / 8))
    (hlen : lows.length = inBlock * ((bits - 1) * (dim / 8)))
    (hxs : ∀ x ∈ xs, ∃ l < inBlock, ∃ k < (bits - 1) * (dim / 8),
      pos x = l * ((bits - 1) * (dim / 8)) + k ∧ val x = entry (row l) k)
    (hall : ∀ l < inBlock, ∀ k < (bits - 1) * (dim / 8),
      ∃ x ∈ xs, pos x = l * ((bits - 1) * (dim / 8)) + k) :
    scatter pos val xs lows = (List.range inBlock).flatMap row := by
  refine ext_grid ((length_scatter _ _ _ _).trans hlen) (length_flatMap_range hrow)
    fun l hl k hk => ?_
  obtain ⟨x, hx, hpos⟩ := hall l hl k hk
  have hval : ∀ y ∈ xs, pos y = pos x → val y = entry (row l) k := by
    intro y hy h
    obtain ⟨l', hl', k', hk', h1, h2⟩ := hxs y hy
    obtain ⟨rfl, rfl⟩ := mul_add_inj hk' hk ((h1.symm.trans h).trans hpos)
    exact h2
  have hk' : (row l)[k]? = some (entry (row l) k) := getElem?_eq_entry (by rw [hrow l hl]; exact hk)
  rw [getElem?_flatMap_range hrow hl hk, hk', ← hpos,
    getElem?_scatter hx (fun y hy h => (hval y hy h).trans (hval x hx rfl).symm) ?_,
    hval x hx rfl]
  rw [hpos, hlen]
  exact mul_add_lt hl hk

theorem planes2SeqBlock_split (hp : planesFor P 2 (dim / codesPerByte 2) = true) (hd : dim % 8 = 0)
    (hin : inBlock ≤ 32) {signBlk lowRows : List UInt8} (hs : signBlk.length = dim / 8 * 32)
    (hz : ∀ k, entry signBlk k = 0) (hl : lowRows.length = inBlock * (dim / 8)) :
    BlockSplit P 2 dim inBlock blk (planes2SeqBlock P blk (dim / 8) inBlock signBlk lowRows) := by
  have hb : PlanesBits 2 := Or.inl rfl
  have hrow (lane : ℕ) := length_packRow 2 dim (seqLane blk (dim / codesPerByte 2) lane)
  -- the gathered bytes are the plane bytes of the lane's packed row
  have hbyte (odd : Bool) (lane g : ℕ) (hg : g < dim / 8) :
      joinNibbles (buildGather odd (entry blk (2 * g * BLOCK + lane)).toNat)
        (buildGather odd (entry blk ((2 * g + 1) * BLOCK + lane)).toNat) =
      entry (packRow 2 dim (seqLane blk (dim / codesPerByte 2) lane))
        ((if odd then 1 else 0) * (dim / 8) + g) := by
    rw [← joinNibbles_gather _ odd hg, entry_seqLane _ _ (by simp only [codesPerByte]; omega),
      entry_seqLane _ _ (by simp only [codesPerByte]; omega)]
  refine ⟨(length_scatter _ _ _ _).trans hs, fun lane hlane g hg => ?_, ?_⟩
  · refine @entry_scatter_slots P 2 dim g lane (ℕ × ℕ) hp hd (fun x => x.1) (fun x => x.2) _ _ inBlock
      _ (fun l g => entry (signPart 2 dim (packRow 2 dim (seqLane blk (dim / codesPerByte 2) l))) g)
      hs hin (fun _ => hz) (fun x hx => ?_) (fun l hl g hg => ?_) hlane hg
    · obtain ⟨h1, h2⟩ := mem_cells.1 hx
      refine ⟨h2, h1, ?_⟩
      rw [entry_signPart]
      exact hbyte true x.1 x.2 h2
    · exact ⟨(l, g), mem_cells.2 ⟨hl, hg⟩, rfl, rfl⟩
  · refine lows_of_scatter (fun l _ => length_lowPart hb (hrow l))
      (by rw [hl, Nat.one_mul]) (fun x hx => ?_) fun l hl k hk => ⟨(l, k), mem_cells.2 ⟨hl, by omega⟩, by simp⟩
    obtain ⟨h1, h2⟩ := mem_cells.1 hx
    refine ⟨x.1, h1, x.2, by omega, by simp, ?_⟩
    have := hbyte false x.1 x.2 h2
    rw [entry_lowPart _ (by omega)]
    simpa only [gatherLow, Bool.false_eq_true, if_false, Nat.zero_mul, Nat.zero_add] using this

theorem planes4SeqBlock_split (hp : planesFor P 4 (dim / codesPerByte 4) = true) (hd : dim % 8 = 0)
    (hin : inBlock ≤ 32) {signBlk lowRows : List UInt8} (hs : signBlk.length = dim / 8 * 32)
    (hl : lowRows.length = inBlock * (3 * (dim / 8))) :
    BlockSplit P 4 dim inBlock blk (planes4SeqBlock P blk (dim / 8) inBlock signBlk lowRows) := by
  have hb : PlanesBits 4 := Or.inr rfl
  have hnbg : dim / codesPerByte 4 = 4 * (dim / 8) := by simp only [codesPerByte]; omega
  have hrow (lane : ℕ) := length_packRow 4 dim (seqLane blk (dim / codesPerByte 4) lane)
  have hbyte {g p l0 i : ℕ} (hg : g < dim / 8) (hp : p < 4) (hi : i < 8) :
      entry (leBytes 8 (planeWord blk g l0 p)) i =
        entry (packRow 4 dim (seqLane blk (dim / codesPerByte 4) (l0 + i))) (p * (dim / 8) + g) := by
    rw [entry_planeWord blk l0 hg hp hi, ← planeByte_eq _ hp hg, hnbg]
  have hcell {qs l g q : ℕ} (hl : l < inBlock) (hg : g < dim / 8) (hq : q < qs) :
      (g, l / 8 * 8, q, l % 8) ∈ wordCells (dim / 8) inBlock qs :=
    mem_wordCells.2 ⟨hg, hq, Nat.mul_mod_left _ _, Nat.mod_lt _ (by decide), by
      simp only [Nat.div_add_mod']
      exact hl⟩
  refine ⟨?_, fun lane hlane g hg => ?_, ?_⟩
  · rw [planes4SeqBlock, length_scatter]
    split
    · rw [List.length_replicate, hs]
    · exact hs
  · refine @entry_scatter_slots P 4 dim g lane (ℕ × ℕ × ℕ × ℕ) hp hd (fun x => x.2.1 + x.2.2.2)
      (fun x => x.1) _ _ inBlock _
      (fun l g => entry (signPart 4 dim (packRow 4 dim (seqLane blk (dim / codesPerByte 4) l))) g)
      ?_ hin (fun h k => ?_) (fun x hx => ?_) (fun l hl g hg => ?_) hlane hg
    · split
      · rw [List.length_replicate, hs]
      · exact hs
    · rw [if_pos (show inBlock < BLOCK from h), entry_replicate_zero]
    · obtain ⟨h1, -, -, h4, h5⟩ := mem_wordCells.1 hx
      refine ⟨h1, h5, ?_⟩
      rw [hbyte h1 (by decide) h4, entry_signPart]
    · exact ⟨_, hcell hl hg (show 0 < 1 by decide), Nat.div_add_mod' l 8, rfl⟩
  · refine lows_of_scatter (fun l _ => length_lowPart hb (hrow l)) hl (fun x hx => ?_)
      fun l hl k hk => ?_
    · obtain ⟨h1, h2, -, h4, h5⟩ := mem_wordCells.1 hx
      refine ⟨_, h5, x.2.2.1 * (dim / 8) + x.1, mul_add_lt h2 h1, Nat.add_assoc _ _ _, ?_⟩
      rw [hbyte h1 (by omega) h4, entry_lowPart _ (mul_add_lt h2 h1)]
    · have hpos : 0 < dim / 8 := by omega
      have hq : k / (dim / 8) < 3 := by rwa [Nat.div_lt_iff_lt_mul hpos]
      refine ⟨_, hcell hl (Nat.mod_lt k hpos) hq, ?_⟩
      simp only [Nat.div_add_mod', Nat.add_assoc]

end Block

/-! ## Whole regions -/

section Regions

variable {P : Platform} {bits dim n : ℕ}

theorem seqLane_rowAt (seq : List UInt8) (nbg : ℕ) {v : ℕ} :
    seqLane (rowAt seq (nbg * BLOCK) (v / 32)) nbg (v % 32) = seqRowAt seq nbg v := by
  refine tabulate_congr fun g hg => ?_
  have hk : g * BLOCK + v % 32 < nbg * BLOCK := mul_add_lt hg (Nat.mod_lt _ (by decide))
  rw [entry_rowAt _ hk]
  congr 1
  simp only [BLOCK]
  ring

/-- Converted blocks, one after the other, hold the converted rows. -/
theorem planesHold_of_blocks (hp : planesFor P bits (dim / codesPerByte bits) = true)
    (hd : dim % 8 = 0) (seq : List UInt8) {one : ℕ → List UInt8 × List UInt8}
    (h : ∀ b < (n + 31) / 32, BlockSplit P bits dim (min (n - b * 32) 32)
      (rowAt seq (dim / codesPerByte bits * BLOCK) b) (one b)) :
    PlanesHold P bits dim n
      (fun v => packRow bits dim (seqRowAt seq (dim / codesPerByte bits) v))
      ((List.range ((n + 31) / 32)).flatMap fun b => (one b).1)
      ((List.range ((n + 31) / 32)).flatMap fun b => (one b).2) := by
  have hlen (b : ℕ) (hb : b < (n + 31) / 32) := (h b hb).length_sign
  constructor
  · refine .of_lt (length_flatMap_range hlen) fun v hv g hg => ?_
    have hlane : v % 32 < 32 := Nat.mod_lt _ (by decide)
    have hb : v / 32 < (n + 31) / 32 := by omega
    rw [laneCode, readCode_sign hp hd]
    simp only [BLOCK]
    rw [Nat.mul_assoc, entry_flatMap_range hlen hb (planesSlot_lt hp hd hg hlane),
      (h _ hb).sign _ hlane g hg, seqLane_rowAt]
    exact if_congr (by omega) rfl rfl
  · have hrows (b : ℕ) (hb : b < (n + 31) / 32) : (one b).2 =
        (List.range (min (n - b * 32) 32)).flatMap fun lane => lowPart bits dim
          (packRow bits dim (seqRowAt seq (dim / codesPerByte bits) (b * 32 + lane))) := by
      rw [(h b hb).low]
      refine List.flatMap_congr fun lane hl => ?_
      have hlt := List.mem_range.1 hl
      have h1 : (b * 32 + lane) / 32 = b := by omega
      have h2 : (b * 32 + lane) % 32 = lane := by omega
      rw [← seqLane_rowAt, h1, h2]
    rw [List.flatMap_congr fun b hb => hrows b (List.mem_range.1 hb), flatMap_blocks 32 n _
      fun v => lowPart bits dim (packRow bits dim (seqRowAt seq (dim / codesPerByte bits) v)),
      Nat.min_eq_left (by omega)]

theorem rowAt_seqToPacked (seq : List UInt8) {v : ℕ} (hb : ValidBits bits) (hd : dim % 8 = 0)
    (hv : v < n) : rowAt (seqToPacked seq n bits dim) (bits * (dim / 8)) v =
      packRow bits dim (seqRowAt seq (dim / codesPerByte bits) v) := by
  have hrow (v : ℕ) : (unpackRow seq v bits (dim / codesPerByte bits) (dim / 8)).length =
      bits * (dim / 8) := by rw [unpackRow, length_unpackBytes]
  rw [seqToPacked, rowAt_flatMap_range (fun v _ => hrow v) hv, unpackRow, packRow]
  refine unpackBytes_congr fun k hk => ?_
  rw [entry_seqRowAt _ _ (by rw [groups_eq hb hd]; exact hk)]
  rfl

theorem length_seqToPacked (seq : List UInt8) :
    (seqToPacked seq n bits dim).length = n * (bits * (dim / 8)) := by
  rw [seqToPacked, length_flatMap_range fun v _ => by rw [unpackRow, length_unpackBytes]]

/-- The packed rows of sequential blocks. -/
theorem seqToPacked_of_seqHold {code : ℕ → ℕ → UInt8} {seq : List UInt8} (hb : ValidBits bits)
    (hd : dim % 8 = 0) (h : SeqHold (dim / codesPerByte bits) n code seq) : seqToPacked seq n bits dim =
      (List.range n).flatMap fun v => packRow bits dim (tabulate (dim / codesPerByte bits) (code v)) := by
  rw [← flatMap_rowAt (length_seqToPacked _)]
  refine List.flatMap_congr fun v hv => ?_
  have hv := List.mem_range.mp hv
  rw [rowAt_seqToPacked _ hb hd hv, h.seqRowAt hv]

/-- The planes form of a stored buffer holds its rows. -/
theorem planesHold_fromSeq (hp : planesFor P bits (dim / codesPerByte bits) = true)
    (hd : dim % 8 = 0) (hpos : 0 < dim) (seq : List UInt8) : PlanesHold P bits dim n
      (fun v => packRow bits dim (seqRowAt seq (dim / codesPerByte bits) v))
      (planesFromSeq P seq bits (dim / codesPerByte bits) n).1
      (planesFromSeq P seq bits (dim / codesPerByte bits) n).2 := by
  have hb := planesBits_of_planesFor hp
  rw [planesFromSeq]
  by_cases h2 : bits = 2
  · subst h2
    have hnsg : dim / codesPerByte 2 / 2 = dim / 8 := by simp only [codesPerByte]; omega
    simp only [ne_eq, not_true_eq_false, if_false, hnsg, BLOCK]
    exact planesHold_of_blocks hp hd seq fun b hb => planes2SeqBlock_split hp hd (Nat.min_le_right _ _)
      List.length_replicate (fun _ => entry_replicate_zero _ _) List.length_replicate
  · have hdim : dim / 8 * 8 = dim := by omega
    simp only [ne_eq, h2, not_false_eq_true, if_true, planesGeom_eq hb hd, hdim]
    exact (planesHold_repack hb hd hpos (length_seqToPacked seq)).congr
      fun v hv => rowAt_seqToPacked seq hb.valid hd hv

end Regions

/-! ## In place -/

/-- The buffer and the sign region once the blocks below `256 * c` are converted: their low rows stand
at the front of the buffer, and everything from block `256 * c` on is as it was. -/
structure OwnedUpTo (P : Platform) (dim n : ℕ) (seq : List UInt8) (c : ℕ)
    (st : List UInt8 × List UInt8 × List UInt8) : Prop where
  length_buf : st.1.length = seq.length
  rest : ∀ k, c * 256 * (dim / codesPerByte 4 * 32) ≤ k → entry st.1 k = entry seq k
  lows : ∀ v < n, v < c * 256 * 32 → ∀ k < 3 * (dim / 8), entry st.1 (v * (3 * (dim / 8)) + k) =
    entry (lowPart 4 dim (packRow 4 dim (seqRowAt seq (dim / codesPerByte 4) v))) k
  length_sign : st.2.1.length = (n + 31) / 32 * (dim / 8 * 32)
  signs : ∀ b < (n + 31) / 32, b < c * 256 → ∀ lane < 32, ∀ g < dim / 8,
    entry st.2.1 (b * (dim / 8 * 32) + planesSlot P g lane) = if b * 32 + lane < n then
      entry (signPart 4 dim (packRow 4 dim (seqRowAt seq (dim / codesPerByte 4) (b * 32 + lane)))) g
      else 0
  length_scratch : st.2.2.length = 256 * (32 * (3 * (dim / 8)))

section Owned

variable {P : Platform} {dim n : ℕ} {seq : List UInt8}

/-- Chunk `i` of a list of rows, the last one possibly short. -/
theorem length_rowAt_blocks {l : List UInt8} {m d i : ℕ} (hl : l.length = m * d) :
    (rowAt l (32 * d) i).length = min (m - i * 32) 32 * d := by
  rw [rowAt, List.length_take, List.length_drop, hl, ← Nat.mul_assoc, ← Nat.sub_mul,
    Nat.min_comm (m - i * 32), Nat.mul_min_mul_right]

theorem ownedUpTo_step (hp : planesFor P 4 (dim / codesPerByte 4) = true) (hd : dim % 8 = 0)
    (hlen : seq.length = (n + 31) / 32 * (dim / codesPerByte 4 * 32)) {c : ℕ}
    (hc : c * 256 < (n + 31) / 32) {st : List UInt8 × List UInt8 × List UInt8}
    (h : OwnedUpTo P dim n seq c st) : OwnedUpTo P dim n seq (c + 1)
      (planesOwnedChunk P (dim / codesPerByte 4) n st c) := by
  have hb : PlanesBits 4 := Or.inr rfl
  have hnbg : dim / codesPerByte 4 = 4 * (dim / 8) := by simp only [codesPerByte]; omega
  have hgeom := planesGeom_eq hb hd
  simp only [Nat.add_one_sub_one] at hgeom
  obtain ⟨c0, hc0⟩ : ∃ c0, c0 = c * 256 := ⟨_, rfl⟩
  obtain ⟨c1, hc1⟩ : ∃ c1, c1 = min (c0 + 256) ((n + 31) / 32) := ⟨_, rfl⟩
  obtain ⟨v1, hv1⟩ : ∃ v1, v1 = min (c1 * 32) n := ⟨_, rfl⟩
  obtain ⟨R, hR⟩ : ∃ R, R = 3 * (dim / 8) := ⟨_, rfl⟩
  -- the rows to be overwritten, wherever they are kept
  obtain ⟨dst, hdst⟩ : ∃ dst, dst = if v1 * R ≤ c0 * (dim / codesPerByte 4 * 32) then
    (st.1.drop (c0 * 32 * R)).take (v1 * R - c0 * 32 * R) else st.2.2.take ((v1 - c0 * 32) * R) :=
    ⟨_, rfl⟩
  have hdstlen : dst.length = (v1 - c0 * 32) * R := by
    have hfit : v1 * R ≤ st.1.length := by
      have h1 : v1 * R ≤ (n + 31) / 32 * 32 * R := Nat.mul_le_mul_right _ (by omega)
      have h2 : (n + 31) / 32 * 32 * R ≤ (n + 31) / 32 * 32 * (4 * (dim / 8)) :=
        Nat.mul_le_mul_left _ (by omega)
      rw [h.length_buf, hlen, hnbg]
      calc v1 * R ≤ _ := h1.trans h2
        _ = _ := by ring
    have hfit2 : (v1 - c0 * 32) * R ≤ st.2.2.length := by
      rw [h.length_scratch, ← hR, ← Nat.mul_assoc]
      exact Nat.mul_le_mul_right _ (by omega)
    rw [hdst]
    split
    · rw [List.length_take, List.length_drop, Nat.sub_mul]
      omega
    · rw [List.length_take]
      omega
  let one : ℕ → List UInt8 × List UInt8 := fun i =>
    planes4SeqBlock P (rowAt st.1 (dim / codesPerByte 4 * 32) (c0 + i)) (dim / 8)
      (min (n - (c0 + i) * 32) 32) (rowAt st.2.1 (dim / 8 * 32) (c0 + i)) (rowAt dst (32 * R) i)
  have hone (i : ℕ) (hi : i < c1 - c0) : BlockSplit P 4 dim (min (n - (c0 + i) * 32) 32)
      (rowAt seq (dim / codesPerByte 4 * 32) (c0 + i)) (one i) := by
    have hsrc : rowAt st.1 (dim / codesPerByte 4 * 32) (c0 + i) =
        rowAt seq (dim / codesPerByte 4 * 32) (c0 + i) := by
      refine ext_entry ?_ fun k hk => ?_
      · rw [length_rowAt (h.length_buf.trans hlen) (by omega), length_rowAt hlen (by omega)]
      · rw [length_rowAt (h.length_buf.trans hlen) (by omega)] at hk
        rw [entry_rowAt _ hk, entry_rowAt _ hk, h.rest]
        rw [← hc0, Nat.add_mul, Nat.add_assoc]
        exact Nat.le_add_right _ _
    simp only [one, hsrc]
    refine planes4SeqBlock_split hp hd (Nat.min_le_right _ _)
      (length_rowAt h.length_sign (by omega)) ?_
    rw [length_rowAt_blocks hdstlen, ← hR]
    congr 1
    omega
  have hlows : ((List.range (c1 - c0)).flatMap fun i => (one i).2) =
      (List.range (v1 - c0 * 32)).flatMap fun j => lowPart 4 dim (packRow 4 dim
        (seqRowAt seq (dim / codesPerByte 4) (c0 * 32 + j))) := by
    have hmin : min (n - c0 * 32) ((c1 - c0) * 32) = v1 - c0 * 32 := by omega
    rw [← hmin, ← flatMap_blocks 32 (n - c0 * 32) (c1 - c0)]
    refine List.flatMap_congr fun i hi => ?_
    rw [(hone i (List.mem_range.1 hi)).low, show n - (c0 + i) * 32 = n - c0 * 32 - i * 32 by omega]
    refine List.flatMap_congr fun lane hl => ?_
    have hlt := List.mem_range.1 hl
    have h1 : (c0 * 32 + (i * 32 + lane)) / 32 = c0 + i := by omega
    have h2 : (c0 * 32 + (i * 32 + lane)) % 32 = lane := by omega
    rw [← seqLane_rowAt, h1, h2, BLOCK]
  have hrowlen (v : ℕ) : (lowPart 4 dim (packRow 4 dim
      (seqRowAt seq (dim / codesPerByte 4) v))).length = R :=
    (length_lowPart hb (length_packRow _ _ _)).trans hR.symm
  have hlowslen : ((List.range (c1 - c0)).flatMap fun i => (one i).2).length =
      (v1 - c0 * 32) * R := by
    rw [hlows, length_flatMap_range fun j _ => hrowlen _]
  have hsignlen : ((List.range (c1 - c0)).flatMap fun i => (one i).1).length =
      (c1 - c0) * (dim / 8 * 32) := length_flatMap_range fun i hi => (hone i hi).length_sign
  have hstep : planesOwnedChunk P (dim / codesPerByte 4) n st c =
      (overwrite st.1 (c0 * 32 * R) ((List.range (c1 - c0)).flatMap fun i => (one i).2),
        overwrite st.2.1 (c0 * (dim / 8 * 32)) ((List.range (c1 - c0)).flatMap fun i => (one i).1),
        if v1 * R ≤ c0 * (dim / codesPerByte 4 * 32) then st.2.2
        else overwrite st.2.2 0 ((List.range (c1 - c0)).flatMap fun i => (one i).2)) := by
    simp only [planesOwnedChunk, hgeom, CHUNK_BLOCKS, BLOCK, ← hc0, ← hc1, ← hv1, ← hR,
      decide_eq_true_eq, one, hdst]
  have hend : v1 * R ≤ (c + 1) * 256 * (dim / codesPerByte 4 * 32) := by
    have h1 : v1 * R ≤ (c + 1) * 256 * 32 * (4 * (dim / 8)) :=
      Nat.mul_le_mul (by omega) (by omega)
    rw [hnbg]
    calc v1 * R ≤ _ := h1
      _ = _ := by ring
  have hsum : c0 * 32 * R + (v1 - c0 * 32) * R = v1 * R := by
    rw [← Nat.add_mul, Nat.add_sub_cancel' (by omega)]
  have hfit : v1 * R ≤ st.1.length := by
    have h1 : v1 * R ≤ (n + 31) / 32 * 32 * (4 * (dim / 8)) := Nat.mul_le_mul (by omega) (by omega)
    rw [h.length_buf, hlen, hnbg]
    calc v1 * R ≤ _ := h1
      _ = _ := by ring
  have hsfit : c0 * (dim / 8 * 32) + (c1 - c0) * (dim / 8 * 32) ≤ st.2.1.length := by
    rw [h.length_sign, ← Nat.add_mul]
    exact Nat.mul_le_mul_right _ (by omega)
  rw [hstep]
  constructor
  · rw [length_overwrite (by rw [hlowslen]; omega), h.length_buf]
  · intro k hk
    rw [entry_overwrite (by omega), if_neg (by rw [hlowslen]; omega), h.rest k]
    exact le_trans (Nat.mul_le_mul_right _ (by omega)) hk
  · intro v hv hvc k hk
    rw [← hR] at hk ⊢
    rw [entry_overwrite (by omega), hlowslen]
    by_cases hlt : v < c * 256 * 32
    · have hbelow : v * R + k < c0 * 32 * R := mul_add_lt (by omega) hk
      rw [if_neg (by omega), hR]
      exact h.lows v hv hlt k (hR ▸ hk)
    · have hin : v * R + k < v1 * R := mul_add_lt (by omega) hk
      have hoff : v * R + k = c0 * 32 * R + ((v - c0 * 32) * R + k) := by
        rw [← Nat.add_assoc, ← Nat.add_mul, Nat.add_sub_cancel' (by omega)]
      rw [if_pos (by omega), hoff, Nat.add_sub_cancel_left, hlows,
        entry_flatMap_range (fun j _ => hrowlen _) (by omega) hk, Nat.add_sub_cancel' (by omega)]
  · rw [length_overwrite (by rw [hsignlen]; exact hsfit), h.length_sign]
  · intro b hbn hbc lane hlane g hg
    have hslot := planesSlot_lt hp hd hg hlane
    rw [entry_overwrite (by omega), hsignlen]
    by_cases hlt : b < c * 256
    · have hbelow : b * (dim / 8 * 32) + planesSlot P g lane < c0 * (dim / 8 * 32) :=
        mul_add_lt (by omega) hslot
      rw [if_neg (by omega)]
      exact h.signs b hbn hlt lane hlane g hg
    · have hoff : b * (dim / 8 * 32) + planesSlot P g lane =
          c0 * (dim / 8 * 32) + ((b - c0) * (dim / 8 * 32) + planesSlot P g lane) := by
        rw [← Nat.add_assoc, ← Nat.add_mul, Nat.add_sub_cancel' (by omega)]
      have hin : (b - c0) * (dim / 8 * 32) + planesSlot P g lane < (c1 - c0) * (dim / 8 * 32) :=
        mul_add_lt (by omega) hslot
      rw [if_pos (by omega), hoff, Nat.add_sub_cancel_left,
        entry_flatMap_range (fun i hi => (hone i hi).length_sign) (by omega) hslot,
        (hone _ (by omega)).sign lane hlane g hg, Nat.add_sub_cancel' (by omega)]
      have h1 : (b * 32 + lane) / 32 = b := by omega
      have h2 : (b * 32 + lane) % 32 = lane := by omega
      rw [← seqLane_rowAt, h1, h2, BLOCK]
      exact if_congr (by omega) rfl rfl
  · show (if _ then _ else _ : List UInt8).length = _
    split
    · exact h.length_scratch
    · rw [length_overwrite, h.length_scratch]
      rw [hlowslen, h.length_scratch, ← hR, ← Nat.mul_assoc, Nat.zero_add]
      exact Nat.mul_le_mul_right _ (by omega)

/-- Once every block is converted, the sign region and the front of the buffer hold the rows. -/
theorem OwnedUpTo.hold (hp : planesFor P 4 (dim / codesPerByte 4) = true) (hd : dim % 8 = 0)
    (hlen : seq.length = (n + 31) / 32 * (dim / codesPerByte 4 * 32)) {c : ℕ} (hc : n ≤ c * 256 * 32)
    {st : List UInt8 × List UInt8 × List UInt8} (h : OwnedUpTo P dim n seq c st) :
    PlanesHold P 4 dim n (fun v => packRow 4 dim (seqRowAt seq (dim / codesPerByte 4) v)) st.2.1
      (st.1.take (n * (3 * (dim / 8)))) := by
  have hb := planesBits_of_planesFor hp
  obtain ⟨h1, -, h3, h4, h5, -⟩ := h
  have hlow : ∀ v < n, (lowPart 4 dim (packRow 4 dim
      (seqRowAt seq (dim / codesPerByte 4) v))).length = 3 * (dim / 8) :=
    fun v _ => length_lowPart hb (length_packRow _ _ _)
  constructor
  · refine .of_lt h4 fun v hv g hg => ?_
    rw [laneCode, readCode_sign hp hd]
    simp only [BLOCK]
    rw [Nat.mul_assoc, h5 (v / 32) (by omega) (by omega) (v % 32) (Nat.mod_lt _ (by decide)) g hg,
      Nat.div_add_mod']
  · have hfit : n * (3 * (dim / 8)) ≤ seq.length := by
      rw [hlen]
      have hnbg : dim / codesPerByte 4 = 4 * (dim / 8) := by simp only [codesPerByte]; omega
      have hle : n * (3 * (dim / 8)) ≤ (n + 31) / 32 * 32 * (4 * (dim / 8)) :=
        Nat.mul_le_mul (by omega) (by omega)
      rw [hnbg]
      calc n * (3 * (dim / 8)) ≤ _ := hle
        _ = _ := by ring
    refine ext_grid ?_ (length_flatMap_range hlow) fun v hv k hk => ?_
    · rw [List.length_take, h1]
      omega
    · have hlt : v * (3 * (dim / 8)) + k < n * (3 * (dim / 8)) := mul_add_lt hv hk
      have hk' : (lowPart 4 dim (packRow 4 dim (seqRowAt seq (dim / codesPerByte 4) v)))[k]? =
          some (entry (lowPart 4 dim (packRow 4 dim
            (seqRowAt seq (dim / codesPerByte 4) v))) k) :=
        getElem?_eq_entry (by rw [hlow v hv]; exact hk)
      rw [getElem?_flatMap_range hlow hv hk, hk', List.getElem?_take, if_pos hlt,
        getElem?_eq_entry (by omega), h3 v hv (by omega) k hk]

/-- Before the first chunk nothing has been converted. -/
theorem ownedUpTo_zero : OwnedUpTo P dim n seq 0 (seq,
    List.replicate ((n + 31) / 32 * (dim / 8 * 32)) 0,
    List.replicate (256 * (32 * (3 * (dim / 8)))) 0) :=
  ⟨rfl, fun _ _ => rfl, fun v _ hv => absurd hv (by omega), List.length_replicate,
    fun b _ hb => absurd hb (by omega), List.length_replicate⟩

/-- The in-place conversion holds the rows of the buffer it was given. -/
theorem planesHold_fromSeqOwned {bits : ℕ} (hp : planesFor P bits (dim / codesPerByte bits) = true)
    (hd : dim % 8 = 0) (hpos : 0 < dim)
    (hlen : seq.length = (n + 31) / 32 * (dim / codesPerByte bits * 32)) : PlanesHold P bits dim n
      (fun v => packRow bits dim (seqRowAt seq (dim / codesPerByte bits) v))
      (planesFromSeqOwned P seq bits (dim / codesPerByte bits) n).1
      (planesFromSeqOwned P seq bits (dim / codesPerByte bits) n).2 := by
  have hb := planesBits_of_planesFor hp
  rw [planesFromSeqOwned]
  by_cases h4 : bits = 4
  · subst h4
    have hgeom := planesGeom_eq hb hd
    simp only [Nat.add_one_sub_one] at hgeom
    simp only [ne_eq, not_true_eq_false, if_false, hgeom, CHUNK_BLOCKS, BLOCK]
    have hrun : ∀ c ≤ ((n + 31) / 32 + 255) / 256, OwnedUpTo P dim n seq c
        ((List.range c).foldl (planesOwnedChunk P (dim / codesPerByte 4) n)
          (seq, List.replicate ((n + 31) / 32 * (dim / 8 * 32)) 0,
            List.replicate (256 * (32 * (3 * (dim / 8)))) 0)) := by
      intro c hc
      induction c with
      | zero => exact ownedUpTo_zero
      | succ c ih =>
        rw [List.range_succ, List.foldl_append, List.foldl_cons, List.foldl_nil]
        exact ownedUpTo_step hp hd hlen (by omega) (ih (by omega))
    exact (hrun _ le_rfl).hold hp hd hlen (by omega)
  · simp only [ne_eq, h4, not_false_eq_true, if_true]
    exact planesHold_fromSeq hp hd hpos seq

end Owned

/-! ## Back to the stored form -/

section ToSeq

variable {P : Platform} {bits dim n : ℕ} {f : ℕ → List UInt8} {sign low : List UInt8}

/-- Blocks whose bytes are the rows' code bytes make up the stored form. -/
theorem seqHold_of_blocks {nbg : ℕ} {code : ℕ → ℕ → UInt8} {one : ℕ → List UInt8}
    (hlen : ∀ b < (n + 31) / 32, (one b).length = nbg * 32)
    (h : ∀ b < (n + 31) / 32, ∀ lane < 32, ∀ g < nbg, entry (one b) (g * 32 + lane) =
      if b * 32 + lane < n then code (b * 32 + lane) g else 0) :
    SeqHold nbg n code ((List.range ((n + 31) / 32)).flatMap one) := by
  refine ⟨length_flatMap_range hlen, fun v hv g hg => ?_⟩
  have hlane : v % 32 < 32 := Nat.mod_lt _ (by decide)
  have hoff : (v / 32 * nbg + g) * 32 + v % 32 = v / 32 * (nbg * 32) + (g * 32 + v % 32) := by ring
  rw [hoff, entry_flatMap_range hlen (by omega) (mul_add_lt hg hlane), h _ (by omega) _ hlane g hg,
    Nat.div_add_mod']

/-- Stores of every group byte of the first lanes of a zero block. -/
theorem entry_scatter_lanes {ι : Type*} {nbg inBlock : ℕ} {lane' group : ι → ℕ} {val : ι → UInt8}
    {xs : List ι} {code : ℕ → ℕ → UInt8} (hin : inBlock ≤ 32)
    (hxs : ∀ x ∈ xs, lane' x < inBlock ∧ val x = code (lane' x) (group x))
    (hall : ∀ l < inBlock, ∀ g < nbg, ∃ x ∈ xs, lane' x = l ∧ group x = g) {lane g : ℕ}
    (hl : lane < 32) (hg : g < nbg) :
    entry (scatter (fun x => group x * 32 + lane' x) val xs (List.replicate (nbg * 32) 0))
      (g * 32 + lane) = if lane < inBlock then code lane g else 0 := by
  by_cases hlt : lane < inBlock
  · obtain ⟨x, hx, rfl, rfl⟩ := hall lane hlt g hg
    rw [if_pos hlt, @entry_scatter _ _ _ (fun x => group x * 32 + lane' x) val xs _ x hx
      (fun y hy h => ?_) (by rw [List.length_replicate]; exact mul_add_lt hg hl), (hxs x hx).2]
    obtain ⟨h1, h2⟩ := mul_add_inj (by have := (hxs y hy).1; omega) hl h
    rw [(hxs y hy).2, (hxs x hx).2, h1, h2]
  · rw [if_neg hlt, entry_congr (getElem?_scatter_of_forall_ne fun y hy h => ?_),
      entry_replicate_zero]
    obtain ⟨-, h2⟩ := mul_add_inj (by have := (hxs y hy).1; omega) hl h
    have := (hxs y hy).1
    omega

theorem planes4ToSeq_hold (h : PlanesHold P 4 dim n f sign low)
    (hp : planesFor P 4 (dim / codesPerByte 4) = true) (hd : dim % 8 = 0)
    (hf : ∀ v < n, (f v).length = 4 * (dim / 8)) : SeqHold (dim / codesPerByte 4) n
      (fun v g => entry (extractRow 4 dim (f v)) g)
      (planes4ToSeq P sign low (dim / codesPerByte 4) n) := by
  have hb : PlanesBits 4 := Or.inr rfl
  have hnbg : dim / codesPerByte 4 = 4 * (dim / 8) := by simp only [codesPerByte]; omega
  have hgeom := planesGeom_eq hb hd
  simp only [Nat.add_one_sub_one] at hgeom
  simp only [planes4ToSeq, hgeom]
  refine seqHold_of_blocks (fun b _ => by rw [length_scatter, List.length_replicate, BLOCK])
    fun b hblk lane hlane g hg => ?_
  have hin : min (n - b * BLOCK) BLOCK ≤ 32 := Nat.min_le_right _ _
  simp only [Nat.add_assoc _ (Prod.fst _) (Prod.snd _), BLOCK]
  have hcell : ∀ x ∈ wordCells (dim / 8) (min (n - b * 32) 32) 4, x.2.1 + x.2.2.2 <
      min (n - b * 32) 32 ∧ entry (leBytes 8 (joinPlanes (fun p => packWord (fun i =>
        if p = 3 then entry (rowAt sign (dim / 8 * 32) b) (planesSlot P x.1 (x.2.1 + i))
        else entry (rowAt low (3 * (dim / 8)) (b * 32 + (x.2.1 + i))) (p * (dim / 8) + x.1))
          (min (min (n - b * 32) 32 - x.2.1) 8)) x.2.2.1)) x.2.2.2 =
      entry (extractRow 4 dim (f (b * 32 + (x.2.1 + x.2.2.2)))) (4 * x.1 + x.2.2.1) := by
    intro x hx
    obtain ⟨hg, hj, -, hi, hlt⟩ := mem_wordCells.1 hx
    refine ⟨hlt, entry_joinPlanes _ _ hd hg hj hi fun p hpl k hk => ?_⟩
    have hv : b * 32 + (x.2.1 + x.2.2.2) < n := by omega
    rw [testBit_packWord _ (by omega) hk]
    by_cases h3 : p = 3
    · subst h3
      have hslot := planesSlot_lt hp hd hg (show x.2.1 + x.2.2.2 < 32 by omega)
      have hsign := h.entry_sign hp hd hv hg
      have h1 : (b * 32 + (x.2.1 + x.2.2.2)) / BLOCK = b := by simp only [BLOCK]; omega
      have h2 : (b * 32 + (x.2.1 + x.2.2.2)) % BLOCK = x.2.1 + x.2.2.2 := by
        simp only [BLOCK]
        omega
      rw [h1, h2, entry_signPart, BLOCK, Nat.mul_assoc] at hsign
      rw [if_pos rfl, entry_rowAt _ hslot, hsign]
    · have hlow := h.low_row hb hf hv
      simp only [Nat.add_one_sub_one] at hlow
      rw [if_neg h3, hlow, entry_lowPart]
      exact mul_add_lt (show p < 3 by omega) hg
  have hres := @entry_scatter_lanes (ℕ × ℕ × ℕ × ℕ) (dim / codesPerByte 4) (min (n - b * 32) 32)
    (fun x => x.2.1 + x.2.2.2) (fun x => 4 * x.1 + x.2.2.1) _ _
    (fun l g => entry (extractRow 4 dim (f (b * 32 + l))) g) (Nat.min_le_right _ _) hcell
    (fun l hl g hg => ⟨(g / 4, l / 8 * 8, g % 4, l % 8), mem_wordCells.2 ⟨by omega,
      Nat.mod_lt _ (by decide), Nat.mul_mod_left _ _, Nat.mod_lt _ (by decide), by
        simp only [Nat.div_add_mod']; exact hl⟩, Nat.div_add_mod' l 8, Nat.div_add_mod g 4⟩) lane g
    hlane hg
  refine hres.trans (if_congr (by omega) rfl rfl)

/-- Stores of the even group bytes and then of the odd ones. -/
theorem entry_scatter_pairs {nsg inBlock : ℕ} (hin : inBlock ≤ 32) {c : ℕ × ℕ → UInt8 × UInt8}
    {code : ℕ → ℕ → UInt8}
    (hc : ∀ l < inBlock, ∀ g < nsg, c (l, g) = (code l (2 * g), code l (2 * g + 1))) {lane g : ℕ}
    (hl : lane < 32) (hg : g < 2 * nsg) :
    entry (scatter (fun p => (2 * p.2 + 1) * 32 + p.1) (fun p => (c p).2) (cells inBlock nsg)
      (scatter (fun p => 2 * p.2 * 32 + p.1) (fun p => (c p).1) (cells inBlock nsg)
        (List.replicate (2 * nsg * 32) 0))) (g * 32 + lane) =
      if lane < inBlock then code lane g else 0 := by
  -- both loops are one loop over `(lane, group byte)`
  have hboth := @entry_scatter_lanes ((ℕ × ℕ) × Bool) (2 * nsg) inBlock (fun x => x.1.1)
    (fun x => 2 * x.1.2 + if x.2 then 1 else 0) (fun x => if x.2 then (c x.1).2 else (c x.1).1)
    ((cells inBlock nsg).map (fun p => (p, false)) ++ (cells inBlock nsg).map (fun p => (p, true)))
    code hin ?_ ?_ lane g hl hg
  · rw [scatter_append] at hboth
    simp only [scatter, List.foldl_map, Bool.false_eq_true, if_false, if_true, Nat.add_zero] at hboth
    simp only [scatter]
    exact hboth
  · intro x hx
    simp only [List.mem_append, List.mem_map] at hx
    rcases hx with ⟨p, hp, rfl⟩ | ⟨p, hp, rfl⟩ <;> obtain ⟨h1, h2⟩ := mem_cells.1 hp <;>
      exact ⟨h1, by simp [hc p.1 h1 p.2 h2]⟩
  · intro l hl g hg
    have hmem : (l, g / 2) ∈ cells inBlock nsg := mem_cells.2 ⟨hl, by simp only []; omega⟩
    rcases Nat.mod_two_eq_zero_or_one g with h2 | h2
    · refine ⟨((l, g / 2), false), List.mem_append_left _ (List.mem_map.2 ⟨_, hmem, rfl⟩), rfl, ?_⟩
      simp only [Bool.false_eq_true, if_false]
      omega
    · refine ⟨((l, g / 2), true), List.mem_append_right _ (List.mem_map.2 ⟨_, hmem, rfl⟩), rfl, ?_⟩
      simp only [if_true]
      omega

/-- The stored form of the two regions holds their rows' code bytes. -/
theorem PlanesHold.toSeq (h : PlanesHold P bits dim n f sign low)
    (hp : planesFor P bits (dim / codesPerByte bits) = true) (hd : dim % 8 = 0)
    (hf : ∀ v < n, (f v).length = bits * (dim / 8)) : SeqHold (dim / codesPerByte bits) n
      (fun v g => entry (extractRow bits dim (f v)) g)
      (planesToSeq P sign low bits (dim / codesPerByte bits) n) := by
  have hb := planesBits_of_planesFor hp
  have hb' := hb
  rw [planesToSeq]
  rcases hb with rfl | rfl
  · have hnbg : dim / codesPerByte 2 = 2 * (dim / 8) := by simp only [codesPerByte]; omega
    have hnsg : 2 * (dim / 8) / 2 = dim / 8 := by omega
    simp only [show ¬ (2 = 4) by decide, if_false, ne_eq, not_true_eq_false, hnbg, hnsg, BLOCK]
    refine seqHold_of_blocks (fun b _ => by rw [length_scatter, length_scatter,
      List.length_replicate]) fun b hblk lane hlane g hg => ?_
    refine (@entry_scatter_pairs (dim / 8) (min (n - b * 32) 32) (Nat.min_le_right _ _) _
      (fun l g => entry (extractRow 2 dim (f (b * 32 + l))) g) (fun l hl g hg => ?_) lane g
      hlane hg).trans (if_congr (by omega) rfl rfl)
    have hv : b * 32 + l < n := by omega
    have hsign := h.entry_sign hp hd hv hg
    have hlow := h.low_row hb' hf hv
    have h1 : (b * 32 + l) / BLOCK = b := by simp only [BLOCK]; omega
    have h2 : (b * 32 + l) % BLOCK = l := by simp only [BLOCK]; omega
    rw [h1, h2, entry_signPart, BLOCK, Nat.one_mul] at hsign
    rw [Nat.one_mul] at hlow
    have hle : entry low ((b * 32 + l) * (dim / 8) + g) = entry (f (b * 32 + l)) g := by
      rw [← entry_rowAt _ hg, hlow, entry_lowPart _ (by omega)]
    rw [hsign, hle, planesToCodeBytes_eq _ hg]
  · simp only [if_true]
    exact planes4ToSeq_hold h hp hd hf

end ToSeq

end Turbovec.Pack
