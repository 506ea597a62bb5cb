import Turbovec.Pack.PlanesLayouts

/-!
# The in-place conversion, block by block

The 4-bit conversion in place takes its blocks in chunks of 256 and spreads a chunk's blocks over the
pool, in no fixed order. Here a block is one step on the shared buffers: it reads its bytes from the buffer
as it then stands, and writes its low rows either into that same buffer or into the scratch rows. Whatever
the order, a block's bytes are still the stored ones when it is read.
-/

namespace Turbovec.Pack

open LittleEndian Slice Grid

/-! ## Chunks -/

/-- The first block of chunk `c`. -/
def chunkStart (c : ℕ) : ℕ := c * CHUNK_BLOCKS

/-- The end of its blocks. -/
def chunkEnd (nVectors c : ℕ) : ℕ := min (chunkStart c + CHUNK_BLOCKS) ((nVectors + 31) / 32)

/-- The end of its rows. -/
def chunkRows (nVectors c : ℕ) : ℕ := min (chunkEnd nVectors c * BLOCK) nVectors

/-- Whether its low rows end at or before its first source byte. -/
def chunkDirect (nByteGroups nVectors c : ℕ) : Bool :=
  decide (chunkRows nVectors c * (planesGeom 4 nByteGroups).2 ≤ chunkStart c * (nByteGroups * BLOCK))

/-- The lanes of block `b` that hold rows. -/
def blockRows (nVectors b : ℕ) : ℕ := min (nVectors - b * BLOCK) BLOCK

/-- Block `i` of chunk `c`. State: the buffer, the sign region, the scratch rows. -/
def planesOwnedBlock (P : Platform) (nByteGroups nVectors c : ℕ)
    (st : List UInt8 × List UInt8 × List UInt8) (i : ℕ) : List UInt8 × List UInt8 × List UInt8 :=
  let (nsg, lowRow) := planesGeom 4 nByteGroups
  let b := chunkStart c + i
  let direct := chunkDirect nByteGroups nVectors c
  let at_ := if direct then b * BLOCK * lowRow else i * BLOCK * lowRow
  let lowRows := ((if direct then st.1 else st.2.2).drop at_).take (blockRows nVectors b * lowRow)
  let r := planes4SeqBlock P (rowAt st.1 (nByteGroups * BLOCK) b) nsg (blockRows nVectors b)
    (rowAt st.2.1 (nsg * BLOCK) b) lowRows
  (if direct then overwrite st.1 at_ r.2 else st.1, overwrite st.2.1 (b * (nsg * BLOCK)) r.1,
    if direct then st.2.2 else overwrite st.2.2 at_ r.2)

/-- What follows a chunk's blocks: the scratch rows go over the front of the chunk's own bytes. -/
def planesOwnedFlush (nByteGroups nVectors c : ℕ) (st : List UInt8 × List UInt8 × List UInt8) :
    List UInt8 × List UInt8 × List UInt8 :=
  let lowRow := (planesGeom 4 nByteGroups).2
  let v0 := chunkStart c * BLOCK
  if chunkDirect nByteGroups nVectors c then st
  else (overwrite st.1 (v0 * lowRow) (st.2.2.take ((chunkRows nVectors c - v0) * lowRow)), st.2)

/-- The first `c` chunks, the blocks of each in the order given for it. -/
def planesOwnedRun (P : Platform) (nByteGroups nVectors : ℕ) (order : ℕ → List ℕ) (seq : List UInt8)
    (c : ℕ) : List UInt8 × List UInt8 × List UInt8 :=
  let (nsg, lowRow) := planesGeom 4 nByteGroups
  (List.range c).foldl (fun st c => planesOwnedFlush nByteGroups nVectors c
      ((order c).foldl (planesOwnedBlock P nByteGroups nVectors c) st))
    (seq, List.replicate ((nVectors + 31) / 32 * (nsg * BLOCK)) 0,
      List.replicate (CHUNK_BLOCKS * (BLOCK * lowRow)) 0)

def chunkCount (nVectors : ℕ) : ℕ := ((nVectors + 31) / 32 + 255) / 256

/-- The 4-bit conversion in place. -/
def planesOwnedIn (P : Platform) (nByteGroups nVectors : ℕ) (order : ℕ → List ℕ) (seq : List UInt8) :
    List UInt8 × List UInt8 :=
  let st := planesOwnedRun P nByteGroups nVectors order seq (chunkCount nVectors)
  (st.2.1, st.1.take (nVectors * (planesGeom 4 nByteGroups).2))

/-! ## Rows written over rows -/

/-- Row `w` of a list of rows with `m` new rows written from row `w0` on. -/
theorem entry_overwrite_rows {l : List UInt8} {w0 m d w k : ℕ} {row : ℕ → List UInt8}
    (hrow : ∀ j < m, (row j).length = d) (hfit : (w0 + m) * d ≤ l.length) (hk : k < d) :
    entry (overwrite l (w0 * d) ((List.range m).flatMap row)) (w * d + k) =
      if w0 ≤ w ∧ w < w0 + m then entry (row (w - w0)) k else entry l (w * d + k) := by
  have hlen := length_flatMap_range hrow
  rw [Nat.add_mul] at hfit
  rw [entry_overwrite (by omega), hlen, ← Nat.add_mul]
  by_cases hw : w0 ≤ w ∧ w < w0 + m
  · have hoff : w * d + k = w0 * d + ((w - w0) * d + k) := by
      rw [← Nat.add_assoc, ← Nat.add_mul, Nat.add_sub_cancel' hw.1]
    have hlt : w * d + k < (w0 + m) * d := mul_add_lt hw.2 hk
    rw [if_pos hw, if_pos ⟨by omega, hlt⟩, hoff, Nat.add_sub_cancel_left,
      entry_flatMap_range hrow (by omega) hk]
  · rw [if_neg hw, if_neg]
    rintro ⟨h1, h2⟩
    apply hw
    constructor
    · by_contra hlt
      have : w * d + k < w0 * d := mul_add_lt (by omega) hk
      omega
    · by_contra hge
      have : (w0 + m) * d ≤ w * d := Nat.mul_le_mul_right d (by omega)
      omega

/-! ## One block -/

/-- The low row of row `v` of a stored buffer. -/
def storedLow (dim : ℕ) (seq : List UInt8) (v : ℕ) : List UInt8 :=
  lowPart 4 dim (packRow 4 dim (seqRowAt seq (dim / codesPerByte 4) v))

/-- The sign bytes of row `v` of a stored buffer. -/
def storedSign (dim : ℕ) (seq : List UInt8) (v : ℕ) : List UInt8 :=
  signPart 4 dim (packRow 4 dim (seqRowAt seq (dim / codesPerByte 4) v))

/-- The buffers once the chunks below `c` and the blocks `done` of chunk `c` are converted. The blocks'
low rows wait in the buffer or in the scratch rows; everything from the chunk's first source byte on is
as it was. -/
structure Partway (P : Platform) (dim n : ℕ) (seq : List UInt8) (c : ℕ) (done : List ℕ)
    (st : List UInt8 × List UInt8 × List UInt8) : Prop where
  length_buf : st.1.length = seq.length
  rest : ∀ k, c * 256 * (dim / codesPerByte 4 * 32) ≤ k → entry st.1 k = entry seq k
  lows : ∀ v < n, v < c * 256 * 32 → ∀ k < 3 * (dim / 8),
    entry st.1 (v * (3 * (dim / 8)) + k) = entry (storedLow dim seq v) k
  fresh : ∀ i ∈ done, ∀ v < n, v / 32 = c * 256 + i → ∀ k < 3 * (dim / 8),
    (chunkDirect (dim / codesPerByte 4) n c = true →
      entry st.1 (v * (3 * (dim / 8)) + k) = entry (storedLow dim seq v) k) ∧
    (chunkDirect (dim / codesPerByte 4) n c = false →
      entry st.2.2 ((v - c * 256 * 32) * (3 * (dim / 8)) + k) = entry (storedLow dim seq v) k)
  length_sign : st.2.1.length = (n + 31) / 32 * (dim / 8 * 32)
  signs : ∀ b < (n + 31) / 32, b < c * 256 ∨ b - c * 256 ∈ done → ∀ lane < 32, ∀ g < dim / 8,
    entry st.2.1 (b * (dim / 8 * 32) + planesSlot P g lane) =
      if b * 32 + lane < n then entry (storedSign dim seq (b * 32 + lane)) g else 0
  length_scratch : st.2.2.length = 256 * (32 * (3 * (dim / 8)))

section Block

variable {P : Platform} {dim n c : ℕ} {seq : List UInt8} {st : List UInt8 × List UInt8 × List UInt8}

theorem OwnedUpTo.partway (h : OwnedUpTo P dim n seq c st) : Partway P dim n seq c [] st where
  length_buf := h.length_buf
  rest := h.rest
  lows := h.lows
  fresh := fun _ hi => absurd hi List.not_mem_nil
  length_sign := h.length_sign
  signs := fun b hb hbc => h.signs b hb (hbc.resolve_right List.not_mem_nil)
  length_scratch := h.length_scratch

theorem length_storedLow (v : ℕ) : (storedLow dim seq v).length = 3 * (dim / 8) :=
  length_lowPart (Or.inr rfl) (length_packRow _ _ _)

theorem groups_four (hd : dim % 8 = 0) : dim / codesPerByte 4 = 4 * (dim / 8) := by
  simp only [codesPerByte]
  omega

/-- Low rows up to row `v` lie within a stored buffer. -/
theorem lows_fit (hd : dim % 8 = 0) (hlen : seq.length = (n + 31) / 32 * (dim / codesPerByte 4 * 32))
    {v : ℕ} (hv : v ≤ (n + 31) / 32 * 32) : v * (3 * (dim / 8)) ≤ seq.length := by
  have hle : v * (3 * (dim / 8)) ≤ (n + 31) / 32 * 32 * (4 * (dim / 8)) :=
    Nat.mul_le_mul hv (by omega)
  rw [hlen, groups_four hd]
  calc v * (3 * (dim / 8)) ≤ _ := hle
    _ = _ := by ring

/-- In direct mode a chunk's low rows end before its source bytes. -/
theorem chunkDirect_iff (hd : dim % 8 = 0) : chunkDirect (dim / codesPerByte 4) n c = true ↔
    min (min (c * 256 + 256) ((n + 31) / 32) * 32) n * (3 * (dim / 8)) ≤
      c * 256 * (dim / codesPerByte 4 * 32) := by
  have hgeom := planesGeom_eq (Or.inr rfl) hd
  simp only [Nat.add_one_sub_one] at hgeom
  simp only [chunkDirect, chunkRows, chunkEnd, chunkStart, CHUNK_BLOCKS, BLOCK, hgeom,
    decide_eq_true_eq]

/-- What one block's step writes. -/
theorem planesOwnedBlock_eq (hp : planesFor P 4 (dim / codesPerByte 4) = true) (hd : dim % 8 = 0)
    (hlen : seq.length = (n + 31) / 32 * (dim / codesPerByte 4 * 32)) {done : List ℕ}
    (h : Partway P dim n seq c done st) {i : ℕ} (hi : i < 256) (hb : c * 256 + i < (n + 31) / 32) :
    ∃ signs : List UInt8, signs.length = dim / 8 * 32 ∧
      (∀ lane < 32, ∀ g < dim / 8, entry signs (planesSlot P g lane) =
        if (c * 256 + i) * 32 + lane < n then entry (storedSign dim seq ((c * 256 + i) * 32 + lane)) g
        else 0) ∧
      planesOwnedBlock P (dim / codesPerByte 4) n c st i =
        (if chunkDirect (dim / codesPerByte 4) n c then
            overwrite st.1 ((c * 256 + i) * 32 * (3 * (dim / 8)))
              ((List.range (min (n - (c * 256 + i) * 32) 32)).flatMap fun lane =>
                storedLow dim seq ((c * 256 + i) * 32 + lane))
          else st.1,
          overwrite st.2.1 ((c * 256 + i) * (dim / 8 * 32)) signs,
          if chunkDirect (dim / codesPerByte 4) n c then st.2.2
          else overwrite st.2.2 (i * 32 * (3 * (dim / 8)))
            ((List.range (min (n - (c * 256 + i) * 32) 32)).flatMap fun lane =>
              storedLow dim seq ((c * 256 + i) * 32 + lane))) := by
  obtain ⟨b, hbdef⟩ : ∃ b, b = c * 256 + i := ⟨_, rfl⟩
  obtain ⟨m, hm⟩ : ∃ m, m = min (n - b * 32) 32 := ⟨_, rfl⟩
  rw [← hbdef] at hb ⊢
  rw [← hm]
  have hgeom := planesGeom_eq (Or.inr rfl) hd
  simp only [Nat.add_one_sub_one] at hgeom
  -- the block's bytes are still the stored ones
  have hsrc : rowAt st.1 (dim / codesPerByte 4 * 32) b = rowAt seq (dim / codesPerByte 4 * 32) b := by
    have hl := h.length_buf.trans hlen
    refine ext_entry ((length_rowAt hl hb).trans (length_rowAt hlen hb).symm) fun k hk => ?_
    rw [length_rowAt hl hb] at hk
    rw [entry_rowAt _ hk, entry_rowAt _ hk, h.rest]
    rw [hbdef, Nat.add_mul, Nat.add_assoc]
    exact Nat.le_add_right _ _
  have hdst : (((if chunkDirect (dim / codesPerByte 4) n c then st.1 else st.2.2).drop
      (if chunkDirect (dim / codesPerByte 4) n c then b * 32 * (3 * (dim / 8))
        else i * 32 * (3 * (dim / 8)))).take (m * (3 * (dim / 8)))).length = m * (3 * (dim / 8)) := by
    rw [List.length_take, List.length_drop]
    split
    · have hfit := lows_fit hd hlen (show b * 32 + m ≤ (n + 31) / 32 * 32 by omega)
      rw [Nat.add_mul] at hfit
      rw [h.length_buf]
      omega
    · have hfit : (i * 32 + m) * (3 * (dim / 8)) ≤ 256 * 32 * (3 * (dim / 8)) :=
        Nat.mul_le_mul_right _ (by omega)
      rw [Nat.add_mul, Nat.mul_assoc 256] at hfit
      rw [h.length_scratch]
      omega
  have hsplit := @planes4SeqBlock_split P dim m (rowAt seq (dim / codesPerByte 4 * 32) b) hp hd
    (by omega) (rowAt st.2.1 (dim / 8 * 32) b) _ (length_rowAt h.length_sign hb) hdst
  have hlane (lane : ℕ) (hl : lane < 32) : packRow 4 dim (seqLane
      (rowAt seq (dim / codesPerByte 4 * 32) b) (dim / codesPerByte 4) lane) =
        packRow 4 dim (seqRowAt seq (dim / codesPerByte 4) (b * 32 + lane)) := by
    have h1 : (b * 32 + lane) / 32 = b := by omega
    have h2 : (b * 32 + lane) % 32 = lane := by omega
    rw [← seqLane_rowAt, h1, h2, BLOCK]
  have hlows : ((List.range m).flatMap fun lane => lowPart 4 dim (packRow 4 dim (seqLane
      (rowAt seq (dim / codesPerByte 4 * 32) b) (dim / codesPerByte 4) lane))) =
        (List.range m).flatMap fun lane => storedLow dim seq (b * 32 + lane) := by
    apply List.flatMap_congr
    intro lane hl
    rw [hlane lane (by have := List.mem_range.1 hl; omega), storedLow]
  refine ⟨_, hsplit.length_sign, fun lane hl g hg => ?_, ?_⟩
  · rw [hsplit.sign lane hl g hg, hlane lane hl, storedSign]
    exact if_congr (by omega) rfl rfl
  · have hlow := hsplit.low
    rw [hlows] at hlow
    rw [← hlow]
    simp only [planesOwnedBlock, hgeom, chunkStart, CHUNK_BLOCKS, BLOCK, blockRows, ← hbdef, ← hm, hsrc]
    cases chunkDirect (dim / codesPerByte 4) n c <;> rfl

theorem first_le_of_block {v i : ℕ} (h : v / 32 = c * 256 + i) : (c * 256 + i) * 32 ≤ v := by
  omega

/-- A block of chunk `c` by its number within the chunk. -/
theorem block_of_chunk {b : ℕ} (h : c * 256 ≤ b) (h' : b < (c + 1) * 256) :
    b - c * 256 < 256 ∧ c * 256 + (b - c * 256) = b := by
  omega

/-- A block's step leaves the source bytes of its chunk and of every later one. -/
theorem partway_block (hp : planesFor P 4 (dim / codesPerByte 4) = true) (hd : dim % 8 = 0)
    (hlen : seq.length = (n + 31) / 32 * (dim / codesPerByte 4 * 32)) {done : List ℕ}
    (h : Partway P dim n seq c done st) {i : ℕ} (hi : i < 256) (hb : c * 256 + i < (n + 31) / 32) :
    Partway P dim n seq c (done ++ [i]) (planesOwnedBlock P (dim / codesPerByte 4) n c st i) := by
  obtain ⟨signs, hsigns, hsign, heq⟩ := planesOwnedBlock_eq hp hd hlen h hi hb
  obtain ⟨m, hm⟩ : ∃ m, m = min (n - (c * 256 + i) * 32) 32 := ⟨_, rfl⟩
  obtain ⟨R, hR⟩ : ∃ R, R = 3 * (dim / 8) := ⟨_, rfl⟩
  rw [heq, ← hm, ← hR]
  have hrow : ∀ lane < m, (storedLow dim seq ((c * 256 + i) * 32 + lane)).length = R :=
    fun lane _ => (length_storedLow _).trans hR.symm
  have hrows := length_flatMap_range hrow
  have hbuf : ((c * 256 + i) * 32 + m) * R ≤ st.1.length := by
    rw [h.length_buf, hR]
    exact lows_fit hd hlen (by omega)
  have hscratch : (i * 32 + m) * R ≤ st.2.2.length := by
    have hle : (i * 32 + m) * R ≤ 256 * 32 * R := Nat.mul_le_mul_right R (by omega)
    rw [h.length_scratch, ← hR, ← Nat.mul_assoc]
    exact hle
  have hbuf' := hbuf
  have hscratch' := hscratch
  rw [Nat.add_mul] at hbuf' hscratch'
  have hregion : (c * 256 + i + 1) * (dim / 8 * 32) ≤ st.2.1.length := by
    rw [h.length_sign]
    exact Nat.mul_le_mul_right _ hb
  have hregion' := hregion
  rw [Nat.add_mul (c * 256 + i), Nat.one_mul] at hregion'
  -- in direct mode the written rows end before the chunk's source bytes
  have hsafe : chunkDirect (dim / codesPerByte 4) n c = true →
      ((c * 256 + i) * 32 + m) * R ≤ c * 256 * (dim / codesPerByte 4 * 32) := by
    intro hdir
    have hle : ((c * 256 + i) * 32 + m) * R ≤
        min (min (c * 256 + 256) ((n + 31) / 32) * 32) n * R := Nat.mul_le_mul_right R (by omega)
    rw [chunkDirect_iff hd, ← hR] at hdir
    exact hle.trans hdir
  constructor
  · dsimp only
    split
    · rw [length_overwrite (by omega), h.length_buf]
    · exact h.length_buf
  · intro k hk
    dsimp only
    split
    · have := hsafe ‹_›
      rw [Nat.add_mul] at this
      rw [entry_overwrite (by omega), if_neg (by omega), h.rest k hk]
    · exact h.rest k hk
  · intro v hv hvc k hk
    dsimp only
    rw [← hR] at hk ⊢
    split
    · rw [entry_overwrite_rows hrow hbuf hk, if_neg (by omega), hR]
      exact h.lows v hv hvc k (hR ▸ hk)
    · rw [hR]
      exact h.lows v hv hvc k (hR ▸ hk)
  · intro j hj v hv hvj k hk
    rw [← hR] at hk ⊢
    have hold : j ∈ done → _ := fun hmem => h.fresh j hmem v hv hvj k (hR ▸ hk)
    rw [← hR] at hold
    dsimp only
    constructor
    · intro hdir
      rw [if_pos hdir, entry_overwrite_rows hrow hbuf hk]
      by_cases hji : j = i
      · subst hji
        rw [if_pos (by omega), Nat.add_sub_cancel' (first_le_of_block hvj)]
      · have hmem : j ∈ done := (List.mem_append.1 hj).resolve_right fun hx =>
          hji (List.mem_singleton.1 hx)
        rw [if_neg (by omega)]
        exact (hold hmem).1 hdir
    · intro hdir
      rw [if_neg (by rw [hdir]; decide), entry_overwrite_rows hrow hscratch hk]
      by_cases hji : j = i
      · subst hji
        rw [if_pos (by omega),
          show (c * 256 + j) * 32 + (v - c * 256 * 32 - j * 32) = v by omega]
      · have hmem : j ∈ done := (List.mem_append.1 hj).resolve_right fun hx =>
          hji (List.mem_singleton.1 hx)
        rw [if_neg (by omega)]
        exact (hold hmem).2 hdir
  · dsimp only
    rw [length_overwrite (by rw [hsigns]; exact hregion'), h.length_sign]
  · intro b hbn hbd lane hl g hg
    have hslot := planesSlot_lt hp hd hg hl
    dsimp only
    have hone := @entry_overwrite_rows st.2.1 (c * 256 + i) 1 (dim / 8 * 32) b (planesSlot P g lane)
      (fun _ => signs) (fun _ _ => hsigns) hregion hslot
    rw [List.range_one, List.flatMap_cons, List.flatMap_nil, List.append_nil] at hone
    rw [hone]
    by_cases hbi : b = c * 256 + i
    · subst hbi
      rw [if_pos (by omega), hsign lane hl g hg]
    · rw [if_neg (by omega)]
      refine h.signs b hbn ?_ lane hl g hg
      rcases hbd with hbd | hbd
      · exact Or.inl hbd
      · by_cases hlt : b < c * 256
        · exact Or.inl hlt
        · refine Or.inr ((List.mem_append.1 hbd).resolve_right fun hx => hbi ?_)
          have := List.mem_singleton.1 hx
          omega
  · dsimp only
    split
    · exact h.length_scratch
    · rw [length_overwrite (by omega), h.length_scratch]

/-- A chunk's blocks, in any order. -/
theorem partway_blocks (hp : planesFor P 4 (dim / codesPerByte 4) = true) (hd : dim % 8 = 0)
    (hlen : seq.length = (n + 31) / 32 * (dim / codesPerByte 4 * 32)) (blocks : List ℕ)
    (hblocks : ∀ i ∈ blocks, i < 256 ∧ c * 256 + i < (n + 31) / 32) {done : List ℕ}
    (h : Partway P dim n seq c done st) : Partway P dim n seq c (done ++ blocks)
      (blocks.foldl (planesOwnedBlock P (dim / codesPerByte 4) n c) st) := by
  induction blocks generalizing done st with
  | nil => rwa [List.append_nil]
  | cons i blocks ih =>
    obtain ⟨hi, hb⟩ := hblocks i List.mem_cons_self
    have hstep := ih (fun j hj => hblocks j (List.mem_cons_of_mem i hj))
      (partway_block hp hd hlen h hi hb)
    rwa [List.append_assoc, List.singleton_append] at hstep

/-- The flush, once all of a chunk's blocks are converted. -/
theorem ownedUpTo_flush (hd : dim % 8 = 0)
    (hlen : seq.length = (n + 31) / 32 * (dim / codesPerByte 4 * 32)) {done : List ℕ}
    (hc : c * 256 < (n + 31) / 32)
    (hall : ∀ i < 256, c * 256 + i < (n + 31) / 32 → i ∈ done)
    (h : Partway P dim n seq c done st) :
    OwnedUpTo P dim n seq (c + 1) (planesOwnedFlush (dim / codesPerByte 4) n c st) := by
  obtain ⟨R, hR⟩ : ∃ R, R = 3 * (dim / 8) := ⟨_, rfl⟩
  obtain ⟨v1, hv1⟩ : ∃ v1, v1 = min (min (c * 256 + 256) ((n + 31) / 32) * 32) n := ⟨_, rfl⟩
  have hgeom := planesGeom_eq (Or.inr rfl) hd
  simp only [Nat.add_one_sub_one] at hgeom
  have hfirst : c * 256 * 32 ≤ v1 := by omega
  have hcount : v1 - c * 256 * 32 ≤ 256 * 32 := by omega
  have hmem {b : ℕ} (hb : b < (n + 31) / 32) (hc : c * 256 ≤ b) (hc' : b < (c + 1) * 256) :
      b - c * 256 ∈ done := by
    obtain ⟨hlt, heq⟩ := block_of_chunk hc hc'
    exact hall _ hlt (by rwa [heq])
  have hsigns : ∀ b < (n + 31) / 32, b < (c + 1) * 256 → ∀ lane < 32, ∀ g < dim / 8,
      entry st.2.1 (b * (dim / 8 * 32) + planesSlot P g lane) =
        if b * 32 + lane < n then entry (storedSign dim seq (b * 32 + lane)) g else 0 := by
    intro b hb hbc
    refine h.signs b hb ?_
    by_cases hlt : b < c * 256
    · exact Or.inl hlt
    · exact Or.inr (hmem hb (Nat.not_lt.1 hlt) hbc)
  have hlater : c * 256 * (dim / codesPerByte 4 * 32) ≤ (c + 1) * 256 * (dim / codesPerByte 4 * 32) :=
    Nat.mul_le_mul_right (dim / codesPerByte 4 * 32) (by omega)
  unfold planesOwnedFlush
  simp only [hgeom]
  by_cases hdir : chunkDirect (dim / codesPerByte 4) n c = true
  · rw [if_pos hdir]
    refine ⟨h.length_buf, fun k hk => h.rest k (hlater.trans hk), ?_,
      h.length_sign, hsigns, h.length_scratch⟩
    intro v hv hvc k hk
    by_cases hlt : v < c * 256 * 32
    · exact h.lows v hv hlt k hk
    · have hc1 : c * 256 ≤ v / 32 := by omega
      have hc2 : v / 32 < (c + 1) * 256 := by omega
      exact (h.fresh _ (hmem (by omega) hc1 hc2) v hv (by omega) k hk).1 hdir
  · have hdir' : chunkDirect (dim / codesPerByte 4) n c = false := by simpa using hdir
    have hfit : (c * 256 * 32 + (v1 - c * 256 * 32)) * R ≤ st.1.length := by
      rw [h.length_buf, hR]
      exact lows_fit hd hlen (by omega)
    have hrowlen : ∀ j < v1 - c * 256 * 32, (rowAt st.2.2 R j).length = R := by
      intro j hj
      have hl : st.2.2.length = 256 * 32 * R := by rw [h.length_scratch, ← hR, ← Nat.mul_assoc]
      exact length_rowAt hl (by omega)
    have htake : st.2.2.take ((v1 - c * 256 * 32) * R) =
        (List.range (v1 - c * 256 * 32)).flatMap fun j => rowAt st.2.2 R j := by
      have hl : (st.2.2.take ((v1 - c * 256 * 32) * R)).length = (v1 - c * 256 * 32) * R := by
        have hle : (v1 - c * 256 * 32) * R ≤ 256 * 32 * R := Nat.mul_le_mul_right R hcount
        rw [List.length_take, h.length_scratch, ← hR, ← Nat.mul_assoc]
        omega
      rw [← flatMap_rowAt hl]
      apply List.flatMap_congr
      intro j hj
      have hlt : (j + 1) * R ≤ (v1 - c * 256 * 32) * R :=
        Nat.mul_le_mul_right _ (List.mem_range.1 hj)
      rw [Nat.add_mul, Nat.one_mul] at hlt
      rw [rowAt, rowAt, List.drop_take, List.take_take, Nat.min_eq_left (by omega)]
    have hrest : v1 * R ≤ (c + 1) * 256 * (dim / codesPerByte 4 * 32) := by
      have hle : v1 * R ≤ (c + 1) * 256 * 32 * (4 * (dim / 8)) :=
        Nat.mul_le_mul (by omega) (by omega)
      rw [groups_four hd]
      calc v1 * R ≤ _ := hle
        _ = _ := by ring
    have hlensum := length_flatMap_range hrowlen
    have hsum := hfit
    rw [Nat.add_mul] at hsum
    rw [if_neg hdir]
    simp only [chunkRows, chunkEnd, chunkStart, CHUNK_BLOCKS, BLOCK, ← hv1, ← hR, htake]
    refine ⟨?_, fun k hk => ?_, fun v hv hvc k hk => ?_, h.length_sign, hsigns, h.length_scratch⟩
    · rw [length_overwrite (by rw [hlensum]; exact hsum), h.length_buf]
    · have hend : c * 256 * 32 * R + (v1 - c * 256 * 32) * R = v1 * R := by
        rw [← Nat.add_mul, Nat.add_sub_cancel' hfirst]
      rw [entry_overwrite (by omega), if_neg (by rw [hlensum]; omega),
        h.rest k (hlater.trans hk)]
    · rw [← hR] at hk ⊢
      rw [entry_overwrite_rows hrowlen hfit hk]
      by_cases hlt : v < c * 256 * 32
      · rw [if_neg (by omega), hR]
        exact h.lows v hv hlt k (hR ▸ hk)
      · have hc1 : c * 256 ≤ v / 32 := by omega
        have hc2 : v / 32 < (c + 1) * 256 := by omega
        have hfresh := (h.fresh _ (hmem (by omega) hc1 hc2) v hv (by omega) k (hR ▸ hk)).2 hdir'
        rw [if_pos (by omega), entry_rowAt _ hk, hR]
        exact hfresh

/-! ## The run -/

/-- The blocks of chunk `c`, each once. -/
def ChunkOrder (n : ℕ) (order : ℕ → List ℕ) : Prop :=
  ∀ c < chunkCount n, (order c).Perm (List.range (chunkEnd n c - chunkStart c))

theorem chunkEnd_sub : chunkEnd n c - chunkStart c =
    min (c * 256 + 256) ((n + 31) / 32) - c * 256 :=
  rfl

theorem ChunkOrder.mem_iff {order : ℕ → List ℕ} (h : ChunkOrder n order) (hc : c < chunkCount n)
    {i : ℕ} : i ∈ order c ↔ i < 256 ∧ c * 256 + i < (n + 31) / 32 := by
  rw [(h c hc).mem_iff, List.mem_range, chunkEnd_sub]
  omega

/-- Whole chunks, whatever the order within each. -/
theorem ownedUpTo_run (hp : planesFor P 4 (dim / codesPerByte 4) = true) (hd : dim % 8 = 0)
    (hlen : seq.length = (n + 31) / 32 * (dim / codesPerByte 4 * 32)) {order : ℕ → List ℕ}
    (horder : ChunkOrder n order) (hc : c ≤ chunkCount n) :
    OwnedUpTo P dim n seq c (planesOwnedRun P (dim / codesPerByte 4) n order seq c) := by
  have hgeom := planesGeom_eq (Or.inr rfl) hd
  simp only [Nat.add_one_sub_one] at hgeom
  simp only [planesOwnedRun, hgeom, CHUNK_BLOCKS, BLOCK]
  induction c with
  | zero => exact ownedUpTo_zero
  | succ c ih =>
    have hmem (i : ℕ) := @ChunkOrder.mem_iff n c order horder hc i
    have hc' : c * 256 < (n + 31) / 32 := by
      simp only [chunkCount] at hc
      omega
    rw [List.range_succ, List.foldl_append, List.foldl_cons, List.foldl_nil]
    apply ownedUpTo_flush hd hlen hc' (fun i hi hb => (hmem i).2 ⟨hi, hb⟩)
    rw [← List.nil_append (order c)]
    exact partway_blocks hp hd hlen (order c) (fun i hi => (hmem i).1 hi)
      (OwnedUpTo.partway (ih (by omega)))

/-- The slices of chunk `c` lie inside their buffers, and its sign and low rows are cut into one piece for
each of its blocks, the last one possibly short. -/
structure ChunkInBounds (P : Platform) (dim n len c : ℕ) : Prop where
  split : chunkStart c * (dim / codesPerByte 4 * BLOCK) ≤ len
  src : chunkEnd n c * (dim / codesPerByte 4 * BLOCK) ≤ len
  head : chunkDirect (dim / codesPerByte 4) n c = true →
    chunkRows n c * (3 * (dim / 8)) ≤ chunkStart c * (dim / codesPerByte 4 * BLOCK)
  scratch : (chunkRows n c - chunkStart c * BLOCK) * (3 * (dim / 8)) ≤
    CHUNK_BLOCKS * (BLOCK * (3 * (dim / 8)))
  back : chunkRows n c * (3 * (dim / 8)) ≤ len
  rows : chunkStart c * BLOCK ≤ chunkRows n c
  sign : chunkEnd n c * (dim / 8 * BLOCK) ≤ (n + 31) / 32 * (dim / 8 * BLOCK)
  nonempty : ∀ b, chunkStart c ≤ b → b < chunkEnd n c → b * BLOCK < n
  piece : ∀ b, chunkStart c ≤ b → b < chunkEnd n c → blockRows n b * (3 * (dim / 8)) =
    min (BLOCK * (3 * (dim / 8)))
      ((chunkRows n c - chunkStart c * BLOCK) * (3 * (dim / 8)) -
        (b - chunkStart c) * (BLOCK * (3 * (dim / 8))))
  word : ∀ b, ∀ x ∈ wordCells (dim / 8) (blockRows n b) 4,
    (4 * x.1 + x.2.2.1) * BLOCK + x.2.1 + 8 ≤ dim / codesPerByte 4 * BLOCK
  signByte : ∀ b, ∀ x ∈ wordCells (dim / 8) (blockRows n b) 1,
    planesSlot P x.1 (x.2.1 + x.2.2.2) < dim / 8 * BLOCK
  lowByte : ∀ b, ∀ x ∈ wordCells (dim / 8) (blockRows n b) 3,
    (x.2.1 + x.2.2.2) * (3 * (dim / 8)) + x.2.2.1 * (dim / 8) + x.1 <
      blockRows n b * (3 * (dim / 8))

theorem chunkInBounds (hp : planesFor P 4 (dim / codesPerByte 4) = true) (hd : dim % 8 = 0)
    (hc : c < chunkCount n) :
    ChunkInBounds P dim n ((n + 31) / 32 * (dim / codesPerByte 4 * 32)) c := by
  have hc' : c * 256 < (n + 31) / 32 := by
    simp only [chunkCount] at hc
    omega
  have hin (b : ℕ) : blockRows n b ≤ 32 := Nat.min_le_right _ _
  constructor
  · exact Nat.mul_le_mul_right _ hc'.le
  · exact Nat.mul_le_mul_right _ (Nat.min_le_right _ _)
  · intro hdir
    exact (chunkDirect_iff hd).1 hdir
  · simp only [chunkRows, chunkEnd, chunkStart, CHUNK_BLOCKS, BLOCK, ← Nat.mul_assoc 256]
    exact Nat.mul_le_mul_right _ (by omega)
  · have hle : chunkRows n c ≤ (n + 31) / 32 * 32 := by
      simp only [chunkRows, BLOCK]
      omega
    have hmul : chunkRows n c * (3 * (dim / 8)) ≤ (n + 31) / 32 * 32 * (4 * (dim / 8)) :=
      Nat.mul_le_mul hle (by omega)
    rw [groups_four hd]
    calc chunkRows n c * (3 * (dim / 8)) ≤ _ := hmul
      _ = _ := by ring
  · simp only [chunkRows, chunkEnd, chunkStart, CHUNK_BLOCKS, BLOCK]
    omega
  · exact Nat.mul_le_mul_right _ (Nat.min_le_right _ _)
  · intro b _ hb
    simp only [chunkEnd, BLOCK] at hb ⊢
    omega
  · intro b hb hb'
    have heq : blockRows n b =
        min BLOCK (chunkRows n c - chunkStart c * BLOCK - (b - chunkStart c) * BLOCK) := by
      simp only [blockRows, chunkRows, chunkEnd, chunkStart, CHUNK_BLOCKS, BLOCK] at hb hb' ⊢
      omega
    rw [heq, ← Nat.mul_min_mul_right, Nat.sub_mul (chunkRows n c - chunkStart c * BLOCK),
      Nat.mul_assoc (b - chunkStart c)]
  · intro b x hx
    obtain ⟨h1, h2, h3, h4, h5⟩ := mem_wordCells.1 hx
    have := hin b
    rw [groups_four hd]
    simp only [BLOCK]
    omega
  · intro b x hx
    obtain ⟨h1, -, -, -, h5⟩ := mem_wordCells.1 hx
    have := hin b
    exact planesSlot_lt hp hd h1 (by omega)
  · intro b x hx
    obtain ⟨h1, h2, -, -, h5⟩ := mem_wordCells.1 hx
    rw [Nat.add_assoc]
    exact mul_add_lt h5 (mul_add_lt h2 h1)

/-- Whatever the order of a chunk's blocks, at every moment of the chunk its source bytes and all later
ones are the stored ones; every slice is in bounds; and the result is the borrowed conversion's. -/
theorem planesFromSeqOwned_unclobbered (P : Platform) {dim : ℕ} (n : ℕ)
    (hp : planesFor P 4 (dim / codesPerByte 4) = true) (hd : dim % 8 = 0) (hpos : 0 < dim)
    {seq : List UInt8} (hlen : seq.length = (n + 31) / 32 * (dim / codesPerByte 4 * 32))
    {order : ℕ → List ℕ} (horder : ChunkOrder n order) :
    (∀ c < chunkCount n, ∀ k ≤ (order c).length, ∀ b, chunkStart c ≤ b → b < (n + 31) / 32 →
      rowAt (((order c).take k).foldl (planesOwnedBlock P (dim / codesPerByte 4) n c)
          (planesOwnedRun P (dim / codesPerByte 4) n order seq c)).1 (dim / codesPerByte 4 * BLOCK) b =
        rowAt seq (dim / codesPerByte 4 * BLOCK) b) ∧
    (∀ c < chunkCount n, ChunkInBounds P dim n seq.length c) ∧
    n * (3 * (dim / 8)) ≤ seq.length ∧
    planesOwnedIn P (dim / codesPerByte 4) n order seq =
      planesFromSeq P seq 4 (dim / codesPerByte 4) n ∧
    planesFromSeqOwned P seq 4 (dim / codesPerByte 4) n =
      planesFromSeq P seq 4 (dim / codesPerByte 4) n := by
  have hborrowed := @planesHold_fromSeq P 4 dim n hp hd hpos seq
  refine ⟨fun c hc k _ b hb hbn => ?_, fun c hc => hlen ▸ chunkInBounds hp hd hc,
    lows_fit hd hlen (by omega), ?_, (planesHold_fromSeqOwned hp hd hpos hlen).unique hborrowed⟩
  · have hpart := partway_blocks hp hd hlen ((order c).take k)
      (fun i hi => (horder.mem_iff hc).1 (List.mem_of_mem_take hi))
      (OwnedUpTo.partway (ownedUpTo_run hp hd hlen horder hc.le))
    have hl := hpart.length_buf.trans hlen
    refine ext_entry ((length_rowAt hl hbn).trans (length_rowAt hlen hbn).symm) fun j hj => ?_
    rw [BLOCK, length_rowAt hl hbn] at hj
    rw [BLOCK, entry_rowAt _ hj, entry_rowAt _ hj, hpart.rest]
    exact le_trans (Nat.mul_le_mul_right _ hb) (Nat.le_add_right _ _)
  · have hgeom := planesGeom_eq (Or.inr rfl) hd
    simp only [Nat.add_one_sub_one] at hgeom
    have hall : n ≤ chunkCount n * 256 * 32 := by
      simp only [chunkCount]
      omega
    have hown := (ownedUpTo_run hp hd hlen horder le_rfl).hold hp hd hlen hall
    simp only [planesOwnedIn, hgeom]
    exact hown.unique hborrowed

end Block

/-- Two chunks, the blocks of each from the last to the first. -/
theorem planesFromSeqOwned_unclobbered_chunks :
    planesOwnedIn ⟨.x86_64, true, false, false, false, false, true⟩ (32 / codesPerByte 4) 8193
        (fun c => (List.range (chunkEnd 8193 c - chunkStart c)).reverse)
        ((List.range 131584).map fun i => UInt8.ofNat (i * 37)) =
      planesFromSeq ⟨.x86_64, true, false, false, false, false, true⟩
        ((List.range 131584).map fun i => UInt8.ofNat (i * 37)) 4 (32 / codesPerByte 4) 8193 := by
  have hlen : ((List.range 131584).map fun i => UInt8.ofNat (i * 37)).length =
      (8193 + 31) / 32 * (32 / codesPerByte 4 * 32) := by rw [List.length_map, List.length_range]; rfl
  exact (planesFromSeqOwned_unclobbered ⟨.x86_64, true, false, false, false, false, true⟩ 8193 (by decide)
    rfl (by decide) hlen fun _ _ => List.reverse_perm _).2.2.2.1

end Turbovec.Pack
