import Turbovec.Pack.Codes

/-!
# The native blocked layouts

A blocked buffer holds 32-vector blocks. Which byte holds vector `lane`'s code byte for group `g` of a
block depends on the host: whole bytes in one of three orders (sequential, vector-major, the wide
`vm8`), or nibbles interleaved through `perm0` on an x86 without the dot-product kernel. `readCode` and
`writeCode` are the one description of the layout every in-place mutation goes through.
-/

namespace Turbovec.Pack

open Slice Grid

/-! ## The host -/

inductive Arch
  | x86_64
  | aarch64
  | other
deriving DecidableEq, Repr

/-- What the process detects once: the target, its CPU features and the environment switches. -/
structure Platform where
  arch : Arch
  /-- the CPU features of the dot-product kernel (AVX-512 VNNI and VBMI, or `dotprod`) -/
  dotFeatures : Bool
  /-- `i8mm`, unless `TURBOVEC_NO_I8MM` -/
  i8mm : Bool
  /-- `TURBOVEC_NO_VECTOR_MAJOR` or `TURBOVEC_NO_VNNI` -/
  noVectorMajor : Bool
  /-- `TURBOVEC_2BIT_VM8=1` -/
  vm8TwoBit : Bool
  /-- `TURBOVEC_2BIT_PLANES` is not `0` -/
  planes : Bool
  /-- `TURBOVEC_4BIT_PLANES` is not `0` -/
  planes4 : Bool
deriving DecidableEq, Repr

def useVectorMajor (P : Platform) : Bool :=
  !P.noVectorMajor && match P.arch with
    | .x86_64 => P.dotFeatures
    | .aarch64 => P.dotFeatures
    | .other => false

def useVm8 (P : Platform) : Bool :=
  decide (P.arch = .aarch64) && P.i8mm && useVectorMajor P

def vm8TwoBitFor (P : Platform) (bits nByteGroups : ℕ) : Bool :=
  bits == 2 && useVm8 P && nByteGroups % 8 == 0 && P.vm8TwoBit

def vm8For (P : Platform) (bits nByteGroups : ℕ) : Bool :=
  (bits == 4 && useVm8 P && nByteGroups % 8 == 0) || vm8TwoBitFor P bits nByteGroups

def vectorMajorFor (P : Platform) (bits nByteGroups : ℕ) : Bool :=
  (decide (P.arch = .x86_64) || bits == 4) && useVectorMajor P && nByteGroups % 4 == 0

theorem vm8For_mod {P : Platform} {bits nbg : ℕ} (h : vm8For P bits nbg = true) : nbg % 8 = 0 := by
  simp only [vm8For, vm8TwoBitFor, Bool.or_eq_true, Bool.and_eq_true, beq_iff_eq] at h
  tauto

theorem vectorMajorFor_mod {P : Platform} {bits nbg : ℕ} (h : vectorMajorFor P bits nbg = true) :
    nbg % 4 = 0 := by
  simp only [vectorMajorFor, Bool.and_eq_true, beq_iff_eq] at h
  exact h.2

/-! ## Where a code byte lives -/

def vmByteIndex (blockBase g lane : ℕ) : ℕ :=
  blockBase + g / 4 * 128 + lane / 16 * 64 + lane % 16 * 4 + g % 4

def VM_UNIT : ℕ := 4 * BLOCK

def VM8_UNIT : ℕ := 8 * BLOCK

def vm8ByteIndex (blockBase g lane : ℕ) : ℕ :=
  blockBase + g / 8 * VM8_UNIT + lane / 2 * 16 + lane % 2 * 8 + g % 8

def PERM0 : List ℕ := [0, 8, 1, 9, 2, 10, 3, 11, 4, 12, 5, 13, 6, 14, 7, 15]

def INV_PERM0 : List ℕ := [0, 2, 4, 6, 8, 10, 12, 14, 1, 3, 5, 7, 9, 11, 13, 15]

/-- The code byte of `lane` in the x86 hi/lo-nibble group at `groupOff`. -/
def deinterleaveX86CodeByte (blocked : List UInt8) (groupOff lane : ℕ) : UInt8 :=
  let j := entry INV_PERM0 (lane % 16)
  let hiPlane := entry blocked (groupOff + j)
  let loPlane := entry blocked (groupOff + 16 + j)
  if lane < 16 then
    ((hiPlane &&& (0x0F : UInt8)) <<< (4 : UInt8)) ||| (loPlane &&& (0x0F : UInt8))
  else ((hiPlane >>> (4 : UInt8)) <<< (4 : UInt8)) ||| (loPlane >>> (4 : UInt8))

/-- Nibble-merge `code` into the two plane bytes that hold `lane`'s nibbles. -/
def writeX86CodeByte (blocked : List UInt8) (groupOff lane : ℕ) (code : UInt8) : List UInt8 :=
  let j := entry INV_PERM0 (lane % 16)
  let hp := groupOff + j
  let lp := groupOff + 16 + j
  if lane < 16 then
    let b := blocked.set hp ((entry blocked hp &&& (0xF0 : UInt8)) ||| (code >>> (4 : UInt8)))
    b.set lp ((entry b lp &&& (0xF0 : UInt8)) ||| (code &&& (0x0F : UInt8)))
  else
    let b := blocked.set hp ((entry blocked hp &&& (0x0F : UInt8)) ||| (code &&& (0xF0 : UInt8)))
    b.set lp ((entry b lp &&& (0x0F : UInt8)) ||| ((code &&& (0x0F : UInt8)) <<< (4 : UInt8)))

/-- Vector `lane`'s code byte for group `g` of block `b`. -/
def readCode (P : Platform) (blocked : List UInt8) (bits nByteGroups b g lane : ℕ) : UInt8 :=
  if vm8For P bits nByteGroups then entry blocked (vm8ByteIndex (b * nByteGroups * BLOCK) g lane)
  else if vectorMajorFor P bits nByteGroups then
    entry blocked (vmByteIndex (b * nByteGroups * BLOCK) g lane)
  else match P.arch with
    | .x86_64 => deinterleaveX86CodeByte blocked ((b * nByteGroups + g) * BLOCK) lane
    | _ => entry blocked ((b * nByteGroups + g) * BLOCK + lane)

/-- Store vector `lane`'s code byte for group `g` of block `b`. -/
def writeCode (P : Platform) (blocked : List UInt8) (bits nByteGroups b g lane : ℕ)
    (code : UInt8) : List UInt8 :=
  if vm8For P bits nByteGroups then
    blocked.set (vm8ByteIndex (b * nByteGroups * BLOCK) g lane) code
  else if vectorMajorFor P bits nByteGroups then
    blocked.set (vmByteIndex (b * nByteGroups * BLOCK) g lane) code
  else match P.arch with
    | .x86_64 => writeX86CodeByte blocked ((b * nByteGroups + g) * BLOCK) lane code
    | _ => blocked.set ((b * nByteGroups + g) * BLOCK + lane) code

/-! ## Reading after writing -/

/-- A lane of a group of a block that lies in a buffer of `n` bytes. -/
structure InBlock (n nbg b g lane : ℕ) : Prop where
  group : g < nbg
  lane : lane < 32
  fits : (b + 1) * (nbg * 32) ≤ n

theorem InBlock.offset_lt {n nbg b g lane r : ℕ} (h : InBlock n nbg b g lane) (hr : r < nbg * 32) :
    b * nbg * 32 + r < n := by
  have := h.fits
  rw [Nat.succ_mul] at this
  rw [Nat.mul_assoc]
  omega

theorem vm_lt {nbg g lane : ℕ} (hm : nbg % 4 = 0) (hg : g < nbg) (hl : lane < 32) :
    vmByteIndex 0 g lane < nbg * 32 := by
  unfold vmByteIndex
  omega

theorem vm8_lt {nbg g lane : ℕ} (hm : nbg % 8 = 0) (hg : g < nbg) (hl : lane < 32) :
    vm8ByteIndex 0 g lane < nbg * 32 := by
  simp only [vm8ByteIndex, VM8_UNIT, BLOCK]
  omega

theorem seq_lt {nbg g lane : ℕ} (hg : g < nbg) (hl : lane < 32) :
    g * 32 + lane < nbg * 32 := by
  omega

theorem vmByteIndex_base (base g lane : ℕ) :
    vmByteIndex base g lane = base + vmByteIndex 0 g lane := by
  unfold vmByteIndex
  omega

theorem vm8ByteIndex_base (base g lane : ℕ) :
    vm8ByteIndex base g lane = base + vm8ByteIndex 0 g lane := by
  unfold vm8ByteIndex
  omega

theorem vm_inj {g g' lane lane' : ℕ} (hl : lane < 32) (hl' : lane' < 32)
    (h : vmByteIndex 0 g lane = vmByteIndex 0 g' lane') : g = g' ∧ lane = lane' := by
  unfold vmByteIndex at h
  omega

theorem vm8_inj {g g' lane lane' : ℕ} (hl : lane < 32) (hl' : lane' < 32)
    (h : vm8ByteIndex 0 g lane = vm8ByteIndex 0 g' lane') : g = g' ∧ lane = lane' := by
  simp only [vm8ByteIndex, VM8_UNIT, BLOCK] at h
  omega

/-- A layout that keeps each code byte whole, at `b * nbg * 32 + slot g lane`. -/
private theorem entry_set_block {blocked : List UInt8} {nbg b b' r r' : ℕ} {code : UInt8}
    (hr : r < nbg * 32) (hr' : r' < nbg * 32) (hlt : b * nbg * 32 + r < blocked.length) :
    entry (blocked.set (b * nbg * 32 + r) code) (b' * nbg * 32 + r') =
      if b = b' ∧ r = r' then code else entry blocked (b' * nbg * 32 + r') := by
  by_cases h : b * nbg * 32 + r = b' * nbg * 32 + r'
  · rw [← h, entry_set_self hlt, if_pos]
    rw [Nat.mul_assoc, Nat.mul_assoc] at h
    exact mul_add_inj hr hr' h
  · rw [entry_set_ne h, if_neg]
    rintro ⟨rfl, rfl⟩
    exact h rfl

theorem entry_INV_PERM0 {l : ℕ} (h : l < 16) :
    entry INV_PERM0 l = if l < 8 then 2 * l else 2 * (l - 8) + 1 := by
  have : ∀ l < 16, entry INV_PERM0 l = if l < 8 then 2 * l else 2 * (l - 8) + 1 := by decide
  exact this l h

theorem inv_lt (lane : ℕ) : entry INV_PERM0 (lane % 16) < 16 := by
  rw [entry_INV_PERM0 (Nat.mod_lt _ (by omega))]
  split <;> omega

theorem inv_inj {l l' : ℕ} (h : entry INV_PERM0 (l % 16) = entry INV_PERM0 (l' % 16)) :
    l % 16 = l' % 16 := by
  rw [entry_INV_PERM0 (Nat.mod_lt _ (by omega)), entry_INV_PERM0 (Nat.mod_lt _ (by omega))] at h
  split at h <;> split at h <;> omega

@[simp] theorem length_writeX86CodeByte (blocked : List UInt8) (off lane : ℕ) (code : UInt8) :
    (writeX86CodeByte blocked off lane code).length = blocked.length := by
  unfold writeX86CodeByte
  split <;> simp

@[simp] theorem length_writeCode (P : Platform) (blocked : List UInt8) (bits nbg b g lane : ℕ)
    (code : UInt8) : (writeCode P blocked bits nbg b g lane code).length = blocked.length := by
  unfold writeCode
  split
  · simp
  · split
    · simp
    · split <;> simp

/-- The two plane bytes after a nibble merge, and every other byte. -/
theorem entry_writeX86CodeByte {blocked : List UInt8} {off : ℕ} (lane : ℕ) (code : UInt8)
    (hlt : off + 32 ≤ blocked.length) (k : ℕ) :
    entry (writeX86CodeByte blocked off lane code) k =
      if k = off + entry INV_PERM0 (lane % 16) then
        if lane < 16 then (entry blocked k &&& (0xF0 : UInt8)) ||| (code >>> (4 : UInt8))
        else (entry blocked k &&& (0x0F : UInt8)) ||| (code &&& (0xF0 : UInt8))
      else if k = off + 16 + entry INV_PERM0 (lane % 16) then
        if lane < 16 then (entry blocked k &&& (0xF0 : UInt8)) ||| (code &&& (0x0F : UInt8))
        else (entry blocked k &&& (0x0F : UInt8)) ||| ((code &&& (0x0F : UInt8)) <<< (4 : UInt8))
      else entry blocked k := by
  have hj := inv_lt lane
  unfold writeX86CodeByte
  generalize entry INV_PERM0 (lane % 16) = j at hj
  by_cases h1 : k = off + j
  · rw [if_pos h1]
    subst h1
    split
    · rw [entry_set_ne (by omega), entry_set_self (by omega)]
    · rw [entry_set_ne (by omega), entry_set_self (by omega)]
  · rw [if_neg h1]
    by_cases h2 : k = off + 16 + j
    · rw [if_pos h2]
      subst h2
      split
      · rw [entry_set_self (by rw [List.length_set]; omega), entry_set_ne (by omega)]
      · rw [entry_set_self (by rw [List.length_set]; omega), entry_set_ne (by omega)]
    · rw [if_neg h2]
      split
      · rw [entry_set_ne (Ne.symm h2), entry_set_ne (Ne.symm h1)]
      · rw [entry_set_ne (Ne.symm h2), entry_set_ne (Ne.symm h1)]

theorem deinterleave_writeX86_self {blocked : List UInt8} {off lane : ℕ} {code : UInt8}
    (hlt : off + 32 ≤ blocked.length) :
    deinterleaveX86CodeByte (writeX86CodeByte blocked off lane code) off lane = code := by
  have hj := inv_lt lane
  have hhi := entry_writeX86CodeByte lane code hlt (off + entry INV_PERM0 (lane % 16))
  have hlo := entry_writeX86CodeByte lane code hlt (off + 16 + entry INV_PERM0 (lane % 16))
  rw [if_pos rfl] at hhi
  rw [if_neg (by omega), if_pos rfl] at hlo
  simp only [deinterleaveX86CodeByte, hhi, hlo]
  by_cases h16 : lane < 16
  · rw [if_pos h16, if_pos h16, if_pos h16, Bits.merge_lo_lo (Bits.shr4_and_hi code),
      Bits.merge_lo_lo (Bits.lo_and_hi code), Bits.hi_or_lo]
  · rw [if_neg h16, if_neg h16, if_neg h16, Bits.merge_hi_hi, Bits.merge_hi_hi, Bits.hi_shr4, Bits.lo_shl4_shr4, Bits.hi_or_lo]

/-- A nibble merge keeps every other lane's code byte. -/
theorem deinterleave_writeX86_of_ne {blocked : List UInt8} {off off' lane lane' : ℕ}
    {code : UInt8} (hlt : off + 32 ≤ blocked.length) (hoff : off % 32 = 0) (hoff' : off' % 32 = 0)
    (hl : lane < 32) (hl' : lane' < 32) (hne : ¬(off = off' ∧ lane = lane')) :
    deinterleaveX86CodeByte (writeX86CodeByte blocked off lane code) off' lane' =
      deinterleaveX86CodeByte blocked off' lane' := by
  have hj := inv_lt lane
  have hj' := inv_lt lane'
  have hhi := entry_writeX86CodeByte lane code hlt
    (off' + entry INV_PERM0 (lane' % 16))
  have hlo := entry_writeX86CodeByte lane code hlt
    (off' + 16 + entry INV_PERM0 (lane' % 16))
  by_cases hmeet : off = off' ∧ lane % 16 = lane' % 16
  · -- the partner lane: the two lanes share their plane bytes
    obtain ⟨rfl, hmod⟩ := hmeet
    rw [hmod, if_pos rfl] at hhi
    rw [hmod, if_neg (by omega), if_pos rfl] at hlo
    simp only [deinterleaveX86CodeByte, hhi, hlo]
    by_cases h16 : lane' < 16
    · have h : ¬ lane < 16 := by omega
      rw [if_pos h16, if_pos h16, if_neg h, if_neg h, Bits.merge_hi_lo (Bits.hi_and_lo code),
        Bits.merge_hi_lo (Bits.shl4_and_lo code)]
    · have h : lane < 16 := by omega
      rw [if_neg h16, if_neg h16, if_pos h, if_pos h, Bits.merge_lo_hi (Bits.shr4_and_hi code),
        Bits.merge_lo_hi (Bits.lo_and_hi code)]
  · have hjj : off = off' → entry INV_PERM0 (lane' % 16) ≠ entry INV_PERM0 (lane % 16) :=
      fun h e => hmeet ⟨h, (inv_inj e).symm⟩
    rw [if_neg (by omega), if_neg (by omega)] at hhi hlo
    simp only [deinterleaveX86CodeByte, hhi, hlo]

variable {P : Platform} {bits nbg b b' g g' lane lane' : ℕ}

/-- Reading after writing: the written cell holds the code, every other cell what it held. -/
theorem readCode_writeCode {blocked : List UInt8} (h : InBlock blocked.length nbg b g lane)
    (h' : InBlock blocked.length nbg b' g' lane') (code : UInt8) :
    readCode P (writeCode P blocked bits nbg b g lane code) bits nbg b' g' lane' =
      if b = b' ∧ g = g' ∧ lane = lane' then code
      else readCode P blocked bits nbg b' g' lane' := by
  unfold readCode writeCode
  by_cases h8 : vm8For P bits nbg = true
  · have hm := vm8For_mod h8
    rw [if_pos h8, if_pos h8, if_pos h8]
    simp only [BLOCK, vm8ByteIndex_base (_ * _ * 32)]
    rw [entry_set_block (vm8_lt hm h.group h.lane) (vm8_lt hm h'.group h'.lane)
      (h.offset_lt (vm8_lt hm h.group h.lane))]
    refine if_congr (and_congr_right fun _ => ?_) rfl rfl
    exact ⟨vm8_inj h.lane h'.lane, by rintro ⟨rfl, rfl⟩; rfl⟩
  · rw [if_neg h8, if_neg h8, if_neg h8]
    by_cases h4 : vectorMajorFor P bits nbg = true
    · have hm := vectorMajorFor_mod h4
      rw [if_pos h4, if_pos h4, if_pos h4]
      simp only [BLOCK, vmByteIndex_base (_ * _ * 32)]
      rw [entry_set_block (vm_lt hm h.group h.lane) (vm_lt hm h'.group h'.lane)
        (h.offset_lt (vm_lt hm h.group h.lane))]
      refine if_congr (and_congr_right fun _ => ?_) rfl rfl
      exact ⟨vm_inj h.lane h'.lane, by rintro ⟨rfl, rfl⟩; rfl⟩
    · rw [if_neg h4, if_neg h4, if_neg h4]
      have hcell : (b * nbg + g) * BLOCK + lane = b * nbg * 32 + (g * 32 + lane) := by
        simp only [BLOCK]; ring
      have hcell' : (b' * nbg + g') * BLOCK + lane' = b' * nbg * 32 + (g' * 32 + lane') := by
        simp only [BLOCK]; ring
      have hseq : entry (blocked.set ((b * nbg + g) * BLOCK + lane) code)
          ((b' * nbg + g') * BLOCK + lane') = if b = b' ∧ g = g' ∧ lane = lane' then code
            else entry blocked ((b' * nbg + g') * BLOCK + lane') := by
        rw [hcell, hcell', entry_set_block (seq_lt h.group h.lane) (seq_lt h'.group h'.lane)
          (h.offset_lt (seq_lt h.group h.lane))]
        refine if_congr (and_congr_right fun _ => ?_) rfl rfl
        have := h.lane
        have := h'.lane
        omega
      cases P.arch with
      | x86_64 =>
        have hfit : (b * nbg + g) * BLOCK + 32 ≤ blocked.length := by
          have h1 := h.fits
          have h2 : b * nbg + g + 1 ≤ (b + 1) * nbg := by
            rw [Nat.succ_mul]
            have := h.group
            omega
          calc (b * nbg + g) * 32 + 32 = (b * nbg + g + 1) * 32 := by ring
            _ ≤ (b + 1) * nbg * 32 := Nat.mul_le_mul_right 32 h2
            _ = (b + 1) * (nbg * 32) := by ring
            _ ≤ blocked.length := h1
        by_cases hsame : b = b' ∧ g = g' ∧ lane = lane'
        · obtain ⟨rfl, rfl, rfl⟩ := hsame
          rw [if_pos ⟨rfl, rfl, rfl⟩]
          exact deinterleave_writeX86_self hfit
        · rw [if_neg hsame]
          refine deinterleave_writeX86_of_ne hfit (Nat.mul_mod_left _ 32) (Nat.mul_mod_left _ 32)
            h.lane h'.lane ?_
          rintro ⟨hoff, hl⟩
          have hbg := mul_add_inj h.group h'.group (Nat.eq_of_mul_eq_mul_right (by decide) hoff)
          exact hsame ⟨hbg.1, hbg.2, hl⟩
      | aarch64 => exact hseq
      | other => exact hseq

/-! ## Whole buffers -/

/-- The 32 sequential bytes of group `g` of block `blockIdx`. -/
def sequentialGroup (n nByteGroups : ℕ) (codesFlat : List UInt8) (blockIdx g : ℕ) : List UInt8 :=
  tabulate BLOCK fun lane =>
    let vi := blockIdx * BLOCK + lane
    if vi < n then entry codesFlat (vi * nByteGroups + g) else 0

/-- Extracted code bytes into the sequential blocked layout. -/
def packBlockedSequential (n nBlocks nByteGroups : ℕ) (codesFlat : List UInt8) : List UInt8 :=
  (List.range nBlocks).flatMap fun blockIdx =>
    (List.range nByteGroups).flatMap fun g => sequentialGroup n nByteGroups codesFlat blockIdx g

/-- The 16 hi-nibble and 16 lo-nibble bytes of group `g` of block `blockIdx`. -/
def nibbleGroup (n nByteGroups : ℕ) (codesFlat : List UInt8) (blockIdx g : ℕ) : List UInt8 :=
  let byteOf := fun v => if v < n then entry codesFlat (v * nByteGroups + g) else 0
  let va := fun j => blockIdx * BLOCK + entry PERM0 j
  let vb := fun j => blockIdx * BLOCK + entry PERM0 j + 16
  (tabulate 16 fun j =>
    (byteOf (va j) >>> (4 : UInt8)) ||| ((byteOf (vb j) >>> (4 : UInt8)) <<< (4 : UInt8))) ++
  tabulate 16 fun j =>
    (byteOf (va j) &&& (0x0F : UInt8)) ||| ((byteOf (vb j) &&& (0x0F : UInt8)) <<< (4 : UInt8))

/-- Extracted code bytes into the x86 nibble-interleaved layout. -/
def packBlocked (n nBlocks nByteGroups : ℕ) (codesFlat : List UInt8) : List UInt8 :=
  (List.range nBlocks).flatMap fun blockIdx =>
    (List.range nByteGroups).flatMap fun g => nibbleGroup n nByteGroups codesFlat blockIdx g

/-- Permute one unit of `rows` sequential groups: byte `j` of lane `v` goes to `slot j v`. -/
def toUnit (rows : ℕ) (slot : ℕ → ℕ → ℕ) (tmp : List UInt8) : List UInt8 :=
  scatter (fun p => slot p.1 p.2) (fun p => entry tmp (p.1 * BLOCK + p.2)) (cells rows BLOCK) tmp

/-- The other way: byte `j` of lane `v` comes from `slot j v`. -/
def fromUnit (rows : ℕ) (slot : ℕ → ℕ → ℕ) (tmp : List UInt8) : List UInt8 :=
  scatter (fun p => p.1 * BLOCK + p.2) (fun p => entry tmp (slot p.1 p.2)) (cells rows BLOCK) tmp

def vectorMajor8Chunk (buf : List UInt8) : List UInt8 :=
  mapChunksExact VM8_UNIT (toUnit 8 fun j v => v / 2 * 16 + v % 2 * 8 + j) buf

def vectorMajor8ToSeqChunk (buf : List UInt8) : List UInt8 :=
  mapChunksExact VM8_UNIT (fromUnit 8 fun j v => v / 2 * 16 + v % 2 * 8 + j) buf

def vectorMajorChunk (buf : List UInt8) : List UInt8 :=
  mapChunksExact VM_UNIT (toUnit 4 fun j v => v / 16 * 64 + v % 16 * 4 + j) buf

def vectorMajorToSeqChunk (buf : List UInt8) : List UInt8 :=
  mapChunksExact VM_UNIT (fromUnit 4 fun j v => v / 16 * 64 + v % 16 * 4 + j) buf

/-- The `perm0` interleave of one group, from its sequential bytes. -/
def interleaveGroup (tmp : List UInt8) : List UInt8 :=
  (tabulate 16 fun j => (entry tmp (entry PERM0 j) >>> (4 : UInt8)) |||
    (entry tmp (entry PERM0 j + 16) &&& (0xF0 : UInt8))) ++
  tabulate 16 fun j => (entry tmp (entry PERM0 j) &&& (0x0F : UInt8)) |||
    ((entry tmp (entry PERM0 j + 16) &&& (0x0F : UInt8)) <<< (4 : UInt8))

def interleaveChunkX86 (buf : List UInt8) : List UInt8 :=
  mapChunksExact BLOCK interleaveGroup buf

def deinterleaveChunkX86 (blocked : List UInt8) : List UInt8 :=
  mapChunksExact BLOCK (fun b => tabulate BLOCK (deinterleaveX86CodeByte b 0)) blocked

/-- Extracted code bytes to the host's layout. -/
def packBlockedNative (P : Platform) (n nBlocks bits nByteGroups : ℕ) (codesFlat : List UInt8) :
    List UInt8 :=
  if vm8For P bits nByteGroups then
    vectorMajor8Chunk (packBlockedSequential n nBlocks nByteGroups codesFlat)
  else if vectorMajorFor P bits nByteGroups then
    vectorMajorChunk (packBlockedSequential n nBlocks nByteGroups codesFlat)
  else match P.arch with
    | .x86_64 => packBlocked n nBlocks nByteGroups codesFlat
    | _ => packBlockedSequential n nBlocks nByteGroups codesFlat

/-- The stored-to-native transform of this geometry. -/
def nativeTransform (P : Platform) (bits nByteGroups : ℕ) : Option (List UInt8 → List UInt8) :=
  if vm8For P bits nByteGroups then some vectorMajor8Chunk
  else if vectorMajorFor P bits nByteGroups then some vectorMajorChunk
  else match P.arch with
    | .x86_64 => some interleaveChunkX86
    | _ => none

def seqIntoNative (P : Platform) (seq : List UInt8) (bits nByteGroups : ℕ) : List UInt8 :=
  match nativeTransform P bits nByteGroups with
  | some f => f seq
  | none => seq

def nativeToSeq (P : Platform) (blocked : List UInt8) (bits nByteGroups : ℕ) : List UInt8 :=
  if vm8For P bits nByteGroups then vectorMajor8ToSeqChunk blocked
  else if vectorMajorFor P bits nByteGroups then vectorMajorToSeqChunk blocked
  else match P.arch with
    | .x86_64 => deinterleaveChunkX86 blocked
    | _ => blocked

/-- Packed rows to the host's blocked layout. -/
def repack (P : Platform) (packedCodes : List UInt8) (nVectors bits dim : ℕ) : List UInt8 × ℕ :=
  let (nBlocks, nByteGroups, _) := blockedGeometry nVectors bits dim
  let codesFlat := extractCodesFlat packedCodes nVectors bits dim
  (packBlockedNative P nVectors nBlocks bits nByteGroups codesFlat, nBlocks)

/-- Packed rows to the stored layout. -/
def repackSeq (packedCodes : List UInt8) (nVectors bits dim : ℕ) : List UInt8 :=
  let (nBlocks, nByteGroups, _) := blockedGeometry nVectors bits dim
  packBlockedSequential nVectors nBlocks nByteGroups (extractCodesFlat packedCodes nVectors bits dim)

/-- The native blocks `blockStart .. blockEnd`, rebuilt from the packed rows. -/
def repackBlockRange (P : Platform) (packedCodes : List UInt8)
    (nVectors bits dim blockStart blockEnd : ℕ) : List UInt8 :=
  let nByteGroups := dim / codesPerByte bits
  let firstVec := blockStart * BLOCK
  let endVec := min (blockEnd * BLOCK) nVectors
  let nRange := endVec - firstVec
  let bytesPerRow := bits * (dim / 8)
  let subPacked := (packedCodes.drop (firstVec * bytesPerRow)).take
    (endVec * bytesPerRow - firstVec * bytesPerRow)
  packBlockedNative P nRange (blockEnd - blockStart) bits nByteGroups
    (extractCodesFlat subPacked nRange bits dim)

/-! ## Reading whole buffers -/

section Unit

variable {rows : ℕ} {slot : ℕ → ℕ → ℕ}

/-- A slot map of a unit: injective, and inside the unit. -/
structure UnitSlots (rows : ℕ) (slot : ℕ → ℕ → ℕ) : Prop where
  pos : 0 < rows
  lt : ∀ j < rows, ∀ v < 32, slot j v < rows * 32
  inj : ∀ j < rows, ∀ v < 32, ∀ j' < rows, ∀ v' < 32, slot j v = slot j' v' → j = j' ∧ v = v'

theorem unitSlots_vm : UnitSlots 4 fun j v => v / 16 * 64 + v % 16 * 4 + j where
  pos := by decide
  lt := by intros; omega
  inj := by intros; omega

theorem unitSlots_vm8 : UnitSlots 8 fun j v => v / 2 * 16 + v % 2 * 8 + j where
  pos := by decide
  lt := by intros; omega
  inj := by intros; omega

theorem entry_toUnit (hs : UnitSlots rows slot) {tmp : List UInt8} (hl : tmp.length = rows * 32)
    {j v : ℕ} (hj : j < rows) (hv : v < 32) :
    entry (toUnit rows slot tmp) (slot j v) = entry tmp (j * 32 + v) := by
  refine entry_scatter (x := (j, v)) (mem_cells.2 ⟨hj, hv⟩) (fun p hp h => ?_)
    (hl ▸ hs.lt j hj v hv)
  obtain ⟨hp1, hp2⟩ := mem_cells.1 hp
  obtain ⟨h1, h2⟩ := hs.inj _ hp1 _ hp2 _ hj _ hv h
  simp only [h1, h2]

theorem entry_fromUnit {tmp : List UInt8} (hl : tmp.length = rows * 32)
    {j v : ℕ} (hj : j < rows) (hv : v < 32) :
    entry (fromUnit rows slot tmp) (j * 32 + v) = entry tmp (slot j v) := by
  refine entry_scatter (x := (j, v)) (mem_cells.2 ⟨hj, hv⟩) (fun p hp h => ?_)
    (by rw [hl]; exact mul_add_lt hj hv)
  obtain ⟨hp1, hp2⟩ := mem_cells.1 hp
  obtain ⟨h1, h2⟩ := mul_add_inj hp2 hv h
  simp only [h1, h2]

end Unit

end Turbovec.Pack
