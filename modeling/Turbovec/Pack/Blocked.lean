import Turbovec.Pack.Native

/-!
# Reading blocked buffers

Each bulk transform of `Native` is read back one code byte at a time, through `readCode`: the layouts
agree on what they hold, and differ only in where.
-/

namespace Turbovec.Pack

open Slice Grid

variable {P : Platform} {bits nbg nb b g lane : ℕ}

/-! ## One block at a time -/

private theorem block_offset {b nbg r : ℕ} : b * nbg * 32 + r = b * (nbg * 32) + r := by
  rw [Nat.mul_assoc]

/-- A code byte depends on its own block's bytes only, wherever the block lies. -/
theorem readCode_congr {x y : List UInt8} {b' : ℕ} (hg : g < nbg) (hl : lane < 32)
    (h : ∀ k < nbg * 32, entry x (b * (nbg * 32) + k) = entry y (b' * (nbg * 32) + k)) :
    readCode P x bits nbg b g lane = readCode P y bits nbg b' g lane := by
  have hseq : entry x ((b * nbg + g) * BLOCK + lane) = entry y ((b' * nbg + g) * BLOCK + lane) := by
    have := h (g * 32 + lane) (by omega)
    simpa only [BLOCK, Nat.add_mul, Nat.mul_assoc, Nat.add_assoc] using this
  unfold readCode
  by_cases h8 : vm8For P bits nbg = true
  · rw [if_pos h8, if_pos h8, vm8ByteIndex_base, vm8ByteIndex_base (b' * nbg * BLOCK)]
    simp only [BLOCK, block_offset]
    exact h _ (vm8_lt (vm8For_mod h8) hg hl)
  · rw [if_neg h8, if_neg h8]
    by_cases h4 : vectorMajorFor P bits nbg = true
    · rw [if_pos h4, if_pos h4, vmByteIndex_base, vmByteIndex_base (b' * nbg * BLOCK)]
      simp only [BLOCK, block_offset]
      exact h _ (vm_lt (vectorMajorFor_mod h4) hg hl)
    · rw [if_neg h4, if_neg h4]
      cases P.arch with
      | x86_64 =>
        have hx (k : ℕ) (hk : k < 32) : entry x ((b * nbg + g) * 32 + k) =
            entry y ((b' * nbg + g) * 32 + k) := by
          have := h (g * 32 + k) (by omega)
          simpa only [Nat.add_mul, Nat.mul_assoc, Nat.add_assoc] using this
        have hj := inv_lt lane
        simp only [deinterleaveX86CodeByte, BLOCK, Nat.add_assoc]
        rw [hx _ (by omega), hx _ (by omega)]
      | aarch64 => exact hseq
      | other => exact hseq

/-! ## The stored order -/

section Chunks

variable {rows : ℕ} {slot : ℕ → ℕ → ℕ} {buf : List UInt8}

private theorem unit_index (hm : nbg % rows = 0) (r : ℕ) :
    b * nbg * 32 + g / rows * (rows * 32) + r = (b * (nbg / rows) + g / rows) * (rows * 32) + r := by
  have h : nbg = rows * (nbg / rows) := (Nat.mul_div_cancel' (Nat.dvd_of_mod_eq_zero hm)).symm
  have : b * nbg * 32 = b * (nbg / rows) * (rows * 32) := by
    calc b * nbg * 32 = b * (rows * (nbg / rows)) * 32 := by rw [← h]
      _ = b * (nbg / rows) * (rows * 32) := by ring
  rw [this, Nat.add_mul]

private theorem unit_seq_index (hm : nbg % rows = 0) :
    (b * (nbg / rows) + g / rows) * (rows * 32) + (g % rows * 32 + lane) =
      (b * nbg + g) * 32 + lane := by
  have h : nbg = rows * (nbg / rows) := (Nat.mul_div_cancel' (Nat.dvd_of_mod_eq_zero hm)).symm
  have hg : g = rows * (g / rows) + g % rows := (Nat.div_add_mod g rows).symm
  calc (b * (nbg / rows) + g / rows) * (rows * 32) + (g % rows * 32 + lane)
      = (b * (rows * (nbg / rows)) + (rows * (g / rows) + g % rows)) * 32 + lane := by ring
    _ = (b * nbg + g) * 32 + lane := by rw [← h, ← hg]

private theorem unit_lt (hm : nbg % rows = 0) (hb : b < nb) (hg : g < nbg) :
    b * (nbg / rows) + g / rows < nb * (nbg / rows) := by
  have h : nbg = rows * (nbg / rows) := (Nat.mul_div_cancel' (Nat.dvd_of_mod_eq_zero hm)).symm
  exact mul_add_lt hb (Nat.div_lt_of_lt_mul (h ▸ hg))

private theorem units_length (hm : nbg % rows = 0) (hl : buf.length = nb * (nbg * 32)) :
    buf.length = nb * (nbg / rows) * (rows * 32) := by
  have h : nbg = rows * (nbg / rows) := (Nat.mul_div_cancel' (Nat.dvd_of_mod_eq_zero hm)).symm
  calc buf.length = nb * (nbg * 32) := hl
    _ = nb * (rows * (nbg / rows) * 32) := by rw [← h]
    _ = nb * (nbg / rows) * (rows * 32) := by ring

/-- Where a code byte of a permuted buffer lies. -/
private def unitIndex (rows : ℕ) (slot : ℕ → ℕ → ℕ) (nbg b g lane : ℕ) : ℕ :=
  b * nbg * 32 + g / rows * (rows * 32) + slot (g % rows) lane

variable (hs : UnitSlots rows slot) (hm : nbg % rows = 0) (hl : buf.length = nb * (nbg * 32))
  (hb : b < nb) (hg : g < nbg) (hlane : lane < 32)

include hs hm hl hb hg hlane

private theorem entry_chunk_toUnit :
    entry (mapChunksExact (rows * 32) (toUnit rows slot) buf) (unitIndex rows slot nbg b g lane) =
      entry buf ((b * nbg + g) * 32 + lane) := by
  have hj : g % rows < rows := Nat.mod_lt _ hs.pos
  have hlen := units_length hm hl
  have hlt := hs.lt _ hj _ hlane
  rw [unitIndex, unit_index hm, entry_mapChunksExact hlen
    (fun xs h => by rw [toUnit, length_scatter, h]) (unit_lt hm hb hg) hlt,
    entry_toUnit hs (length_rowAt hlen (unit_lt hm hb hg)) hj hlane,
    entry_rowAt _ (mul_add_lt hj hlane), unit_seq_index hm]

private theorem entry_chunk_fromUnit :
    entry (mapChunksExact (rows * 32) (fromUnit rows slot) buf) ((b * nbg + g) * 32 + lane) =
      entry buf (unitIndex rows slot nbg b g lane) := by
  have hj : g % rows < rows := Nat.mod_lt _ hs.pos
  have hlen := units_length hm hl
  have hlt := hs.lt _ hj _ hlane
  rw [← unit_seq_index hm, entry_mapChunksExact hlen
    (fun xs h => by rw [fromUnit, length_scatter, h]) (unit_lt hm hb hg) (mul_add_lt hj hlane),
    entry_fromUnit (length_rowAt hlen (unit_lt hm hb hg)) hj hlane, entry_rowAt _ hlt,
    unitIndex, unit_index hm]

end Chunks

private theorem vm8_unitIndex : vm8ByteIndex (b * nbg * BLOCK) g lane =
    unitIndex 8 (fun j v => v / 2 * 16 + v % 2 * 8 + j) nbg b g lane := by
  simp only [vm8ByteIndex, unitIndex, VM8_UNIT, BLOCK, Nat.add_assoc]

private theorem vm_unitIndex : vmByteIndex (b * nbg * BLOCK) g lane =
    unitIndex 4 (fun j v => v / 16 * 64 + v % 16 * 4 + j) nbg b g lane := by
  simp only [vmByteIndex, unitIndex, BLOCK, Nat.add_assoc]

private theorem groups_length {buf : List UInt8} (hl : buf.length = nb * (nbg * 32)) :
    buf.length = nb * nbg * 32 := by
  rw [hl, Nat.mul_assoc]

/-- The nibble pair an interleave stores for a lane reads back as the lane's byte. -/
theorem deinterleave_interleaveGroup (tmp : List UInt8) {lane : ℕ} (hlane : lane < 32) :
    deinterleaveX86CodeByte (interleaveGroup tmp) 0 lane = entry tmp lane := by
  have hj := inv_lt lane
  have hperm : entry PERM0 (entry INV_PERM0 (lane % 16)) = lane % 16 := by
    have : ∀ l < 16, entry PERM0 (entry INV_PERM0 l) = l := by decide
    exact this _ (Nat.mod_lt _ (by decide))
  simp only [deinterleaveX86CodeByte, interleaveGroup, Nat.zero_add]
  rw [entry_append_left (by simpa using hj), entry_append_right (by simp), length_tabulate,
    Nat.add_sub_cancel_left, entry_tabulate _ hj, entry_tabulate _ hj, hperm]
  have h1 (a c : UInt8) : ((a >>> (4 : UInt8)) ||| (c &&& (0xF0 : UInt8))) &&& (0x0F : UInt8) =
      a >>> (4 : UInt8) := by
    rw [UInt8.or_comm]
    exact Bits.merge_lo_lo (Bits.shr4_and_hi a)
  have h2 (a c : UInt8) : ((a >>> (4 : UInt8)) ||| (c &&& (0xF0 : UInt8))) >>> (4 : UInt8) =
      c >>> (4 : UInt8) := by
    rw [UInt8.or_comm]
    exact Bits.merge_lo_hi (Bits.shr4_and_hi a)
  by_cases h : lane < 16
  · rw [if_pos h, Nat.mod_eq_of_lt h, h1, Bits.merge_hi_lo (Bits.shl4_and_lo _), Bits.hi_or_lo]
  · have h16 : lane % 16 + 16 = lane := by omega
    rw [if_neg h, h16, h2, Bits.merge_hi_hi, Bits.lo_shl4_shr4, Bits.hi_or_lo]

theorem seqIntoNative_eq (seq : List UInt8) : seqIntoNative P seq bits nbg =
    if vm8For P bits nbg then vectorMajor8Chunk seq
    else if vectorMajorFor P bits nbg then vectorMajorChunk seq
    else match P.arch with
      | .x86_64 => interleaveChunkX86 seq
      | _ => seq := by
  unfold seqIntoNative nativeTransform
  by_cases h8 : vm8For P bits nbg = true
  · rw [if_pos h8, if_pos h8]
  · rw [if_neg h8, if_neg h8]
    by_cases h4 : vectorMajorFor P bits nbg = true
    · rw [if_pos h4, if_pos h4]
    · rw [if_neg h4, if_neg h4]
      cases P.arch <;> rfl

/-- The native buffer holds the stored bytes. -/
theorem readCode_seqIntoNative {seq : List UInt8} (hl : seq.length = nb * (nbg * 32)) (hb : b < nb)
    (hg : g < nbg) (hlane : lane < 32) :
    readCode P (seqIntoNative P seq bits nbg) bits nbg b g lane =
      entry seq ((b * nbg + g) * 32 + lane) := by
  rw [seqIntoNative_eq]
  unfold readCode
  by_cases h8 : vm8For P bits nbg = true
  · rw [if_pos h8, if_pos h8, vm8_unitIndex]
    exact entry_chunk_toUnit unitSlots_vm8 (vm8For_mod h8) hl hb hg hlane
  · rw [if_neg h8, if_neg h8]
    by_cases h4 : vectorMajorFor P bits nbg = true
    · rw [if_pos h4, if_pos h4, vm_unitIndex]
      exact entry_chunk_toUnit unitSlots_vm (vectorMajorFor_mod h4) hl hb hg hlane
    · rw [if_neg h4, if_neg h4]
      cases P.arch with
      | x86_64 =>
        have hlt : b * nbg + g < nb * nbg := mul_add_lt hb hg
        have hlen (xs : List UInt8) (_ : xs.length = 32) : (interleaveGroup xs).length = 32 := by
          simp [interleaveGroup]
        have hrow := deinterleave_interleaveGroup (rowAt seq 32 (b * nbg + g)) hlane
        rw [entry_rowAt _ hlane] at hrow
        rw [← hrow]
        have hj := inv_lt lane
        have hread (k : ℕ) (hk : k < 32) :=
          entry_mapChunksExact (groups_length hl) hlen hlt hk
        simp only [deinterleaveX86CodeByte, interleaveChunkX86, BLOCK, Nat.add_assoc, Nat.zero_add]
        rw [hread _ (by omega), hread _ (by omega)]
      | aarch64 => rfl
      | other => rfl

/-- The stored bytes of a native buffer. -/
theorem entry_nativeToSeq {blocked : List UInt8} (hl : blocked.length = nb * (nbg * 32))
    (hb : b < nb) (hg : g < nbg) (hlane : lane < 32) :
    entry (nativeToSeq P blocked bits nbg) ((b * nbg + g) * 32 + lane) =
      readCode P blocked bits nbg b g lane := by
  unfold readCode nativeToSeq
  by_cases h8 : vm8For P bits nbg = true
  · rw [if_pos h8, if_pos h8, vm8_unitIndex]
    exact entry_chunk_fromUnit unitSlots_vm8 (vm8For_mod h8) hl hb hg hlane
  · rw [if_neg h8, if_neg h8]
    by_cases h4 : vectorMajorFor P bits nbg = true
    · rw [if_pos h4, if_pos h4, vm_unitIndex]
      exact entry_chunk_fromUnit unitSlots_vm (vectorMajorFor_mod h4) hl hb hg hlane
    · rw [if_neg h4, if_neg h4]
      cases P.arch with
      | x86_64 =>
        have hlt : b * nbg + g < nb * nbg := mul_add_lt hb hg
        have hj := inv_lt lane
        simp only [deinterleaveChunkX86, BLOCK]
        rw [entry_mapChunksExact (groups_length hl) (fun _ _ => length_tabulate _ _) hlt hlane,
          entry_tabulate _ hlane]
        simp only [deinterleaveX86CodeByte, Nat.zero_add]
        rw [entry_rowAt _ (by omega), entry_rowAt _ (by omega), Nat.add_assoc]
      | aarch64 => rfl
      | other => rfl

theorem length_toUnit_chunk {rows : ℕ} {slot : ℕ → ℕ → ℕ} {buf : List UInt8} (hpos : 0 < rows)
    (hm : nbg % rows = 0) (hl : buf.length = nb * (nbg * 32)) :
    (mapChunksExact (rows * 32) (toUnit rows slot) buf).length = buf.length ∧
      (mapChunksExact (rows * 32) (fromUnit rows slot) buf).length = buf.length := by
  have hlen := units_length hm hl
  constructor
  · rw [length_mapChunksExact (by omega) hlen fun xs h => by rw [toUnit, length_scatter, h], ← hlen]
  · rw [length_mapChunksExact (by omega) hlen fun xs h => by rw [fromUnit, length_scatter, h],
      ← hlen]

theorem length_seqIntoNative {seq : List UInt8} (hl : seq.length = nb * (nbg * 32)) :
    (seqIntoNative P seq bits nbg).length = nb * (nbg * 32) := by
  rw [seqIntoNative_eq]
  by_cases h8 : vm8For P bits nbg = true
  · rw [if_pos h8, ← hl]
    exact (length_toUnit_chunk (by decide) (vm8For_mod h8) hl).1
  · rw [if_neg h8]
    by_cases h4 : vectorMajorFor P bits nbg = true
    · rw [if_pos h4, ← hl]
      exact (length_toUnit_chunk (by decide) (vectorMajorFor_mod h4) hl).1
    · rw [if_neg h4]
      cases P.arch with
      | x86_64 =>
        rw [← hl, groups_length hl]
        exact length_mapChunksExact (by decide) (groups_length hl) fun xs _ => by
          simp [interleaveGroup, BLOCK]
      | aarch64 => exact hl
      | other => exact hl

theorem length_nativeToSeq {blocked : List UInt8} (hl : blocked.length = nb * (nbg * 32)) :
    (nativeToSeq P blocked bits nbg).length = nb * (nbg * 32) := by
  unfold nativeToSeq
  by_cases h8 : vm8For P bits nbg = true
  · rw [if_pos h8, ← hl]
    exact (length_toUnit_chunk (by decide) (vm8For_mod h8) hl).2
  · rw [if_neg h8]
    by_cases h4 : vectorMajorFor P bits nbg = true
    · rw [if_pos h4, ← hl]
      exact (length_toUnit_chunk (by decide) (vectorMajorFor_mod h4) hl).2
    · rw [if_neg h4]
      cases P.arch with
      | x86_64 =>
        rw [← hl, groups_length hl]
        exact length_mapChunksExact (by decide) (groups_length hl) fun xs _ => length_tabulate _ _
      | aarch64 => exact hl
      | other => exact hl

/-! ## Packing -/

section Packing

variable (n : ℕ) (flat : List UInt8)

private theorem length_sequentialGroup (b g : ℕ) : (sequentialGroup n nbg flat b g).length = 32 :=
  length_tabulate _ _

private theorem length_nibbleGroup (b g : ℕ) : (nibbleGroup n nbg flat b g).length = 32 := by
  simp [nibbleGroup]

/-- Group `g` of block `b`, in a buffer of 32-byte groups. -/
private theorem entry_groups {f : ℕ → ℕ → List UInt8} (hf : ∀ b g, (f b g).length = 32) (hb : b < nb)
    (hg : g < nbg) {k : ℕ} (hk : k < 32) :
    entry ((List.range nb).flatMap fun b => (List.range nbg).flatMap fun g => f b g)
      ((b * nbg + g) * 32 + k) = entry (f b g) k := by
  have hblock (b : ℕ) : ((List.range nbg).flatMap fun g => f b g).length = nbg * 32 :=
    length_flatMap_range fun g _ => hf b g
  have hoff : (b * nbg + g) * 32 + k = b * (nbg * 32) + (g * 32 + k) := by ring
  rw [hoff, entry_flatMap_range (fun b _ => hblock b) hb (mul_add_lt hg hk),
    entry_flatMap_range (fun g _ => hf b g) hg hk]

private theorem length_groups {f : ℕ → ℕ → List UInt8} (hf : ∀ b g, (f b g).length = 32) :
    ((List.range nb).flatMap fun b => (List.range nbg).flatMap fun g => f b g).length =
      nb * (nbg * 32) :=
  length_flatMap_range fun b _ => length_flatMap_range fun g _ => hf b g

@[simp] theorem length_packBlockedSequential :
    (packBlockedSequential n nb nbg flat).length = nb * (nbg * 32) :=
  length_groups (length_sequentialGroup n flat)

theorem entry_packBlockedSequential (hb : b < nb) (hg : g < nbg) (hlane : lane < 32) :
    entry (packBlockedSequential n nb nbg flat) ((b * nbg + g) * 32 + lane) =
      if b * 32 + lane < n then entry flat ((b * 32 + lane) * nbg + g) else 0 := by
  rw [packBlockedSequential, entry_groups (length_sequentialGroup n flat) hb hg hlane,
    sequentialGroup]
  exact entry_tabulate _ hlane

/-- Interleaving while packing is interleaving the sequential group. -/
private theorem nibbleGroup_eq (b g : ℕ) :
    nibbleGroup n nbg flat b g = interleaveGroup (sequentialGroup n nbg flat b g) := by
  have hperm : ∀ j < 16, entry PERM0 j < 16 := by decide
  have hseq (l : ℕ) (hl : l < 32) : entry (sequentialGroup n nbg flat b g) l =
      if b * BLOCK + l < n then entry flat ((b * BLOCK + l) * nbg + g) else 0 :=
    entry_tabulate _ hl
  refine congrArg₂ (· ++ ·) ?_ ?_
  · refine tabulate_congr fun j hj => ?_
    have := hperm j hj
    rw [hseq _ (by omega), hseq _ (by omega), Bits.shr4_shl4]
    rfl
  · refine tabulate_congr fun j hj => ?_
    have := hperm j hj
    rw [hseq _ (by omega), hseq _ (by omega)]
    rfl

theorem packBlocked_eq :
    packBlocked n nb nbg flat = interleaveChunkX86 (packBlockedSequential n nb nbg flat) := by
  have hlen := @length_packBlockedSequential nbg nb n flat
  have hgroup (xs : List UInt8) (_ : xs.length = 32) : (interleaveGroup xs).length = 32 := by
    simp [interleaveGroup]
  have hnib := @length_nibbleGroup nbg n flat
  refine @ext_grid _ _ _ (nb * nbg) 32 ?_ ?_ fun q hq k hk => ?_
  · rw [packBlocked, length_groups hnib, Nat.mul_assoc]
  · exact length_mapChunksExact (by decide) (groups_length hlen) hgroup
  · have hnbg : 0 < nbg := Nat.pos_of_mul_pos_left (by omega : 0 < nb * nbg)
    have hb : q / nbg < nb := (Nat.div_lt_iff_lt_mul hnbg).2 hq
    have hg : q % nbg < nbg := Nat.mod_lt _ hnbg
    have hrow : rowAt (packBlockedSequential n nb nbg flat) 32 q =
        sequentialGroup n nbg flat (q / nbg) (q % nbg) := by
      refine ext_entry ?_ fun k hk => ?_
      · rw [length_rowAt (groups_length hlen) hq, length_sequentialGroup]
      · rw [length_rowAt (groups_length hlen) hq] at hk
        have := entry_groups (@length_sequentialGroup nbg n flat) hb hg hk
        rw [Nat.div_add_mod'] at this
        rw [entry_rowAt _ hk, packBlockedSequential, this]
    have hleft := entry_groups hnib hb hg hk
    rw [Nat.div_add_mod'] at hleft
    have hright := entry_mapChunksExact (groups_length hlen) hgroup hq hk
    rw [hrow, ← nibbleGroup_eq] at hright
    have hlt : q * 32 + k < nb * nbg * 32 := mul_add_lt hq hk
    rw [getElem?_eq_entry (by rw [packBlocked, length_groups hnib, ← Nat.mul_assoc]; exact hlt),
      getElem?_eq_entry (by
        rw [interleaveChunkX86, BLOCK,
          length_mapChunksExact (by decide) (groups_length hlen) hgroup]
        exact hlt), packBlocked, hleft, interleaveChunkX86, BLOCK, hright]

/-- The encoder and the loader produce one native layout. -/
theorem packBlockedNative_eq : packBlockedNative P n nb bits nbg flat =
    seqIntoNative P (packBlockedSequential n nb nbg flat) bits nbg := by
  have hgroups := @packBlocked_eq nbg nb n flat
  refine Eq.trans ?_ (seqIntoNative_eq _).symm
  unfold packBlockedNative
  cases P.arch with
  | x86_64 => simp only [hgroups]
  | aarch64 => rfl
  | other => rfl

theorem length_packBlockedNative :
    (packBlockedNative P n nb bits nbg flat).length = nb * (nbg * 32) := by
  rw [packBlockedNative_eq, length_seqIntoNative (length_packBlockedSequential n flat)]

/-- Every layout holds vector `v`'s bytes in lane `v % 32` of block `v / 32`, and zeros past the
last vector. -/
theorem readCode_packBlockedNative (hb : b < nb) (hg : g < nbg) (hlane : lane < 32) :
    readCode P (packBlockedNative P n nb bits nbg flat) bits nbg b g lane =
      if b * 32 + lane < n then entry flat ((b * 32 + lane) * nbg + g) else 0 := by
  rw [packBlockedNative_eq, readCode_seqIntoNative (length_packBlockedSequential n flat) hb hg hlane,
    entry_packBlockedSequential n flat hb hg hlane]

end Packing

end Turbovec.Pack
