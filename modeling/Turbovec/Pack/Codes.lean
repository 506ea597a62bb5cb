import Turbovec.Lib.Bits
import Turbovec.Lib.Grid

/-!
# Packed rows and code bytes

A row of `dim` codes is stored in two forms. The *packed* row is its bit planes, least significant
first, `dim / 8` bytes each, dimension `d` at bit `7 - d % 8` of byte `d / 8`. The *sequential* row is
its code bytes, `8 / bits` codes a byte (two at 3 bits, in four-bit fields), the first in the highest
field. This module is the arithmetic of `pack.rs` between the two.
-/

namespace Turbovec.Pack

open LittleEndian Grid Slice

/-- Vectors in one block. -/
def BLOCK : ℕ := 32

/-- Codes in one code byte. -/
def codesPerByte (bits : ℕ) : ℕ := 8 / bits

/-- Bits a code takes inside a code byte: 3-bit codes occupy four. -/
def field (bits : ℕ) : ℕ := if bits = 3 then 4 else bits

/-- `(n_blocks, n_byte_groups, blocked_len)`. -/
def blockedGeometry (nVectors bits dim : ℕ) : ℕ × ℕ × ℕ :=
  let nByteGroups := dim / codesPerByte bits
  let nBlocks := (nVectors + BLOCK - 1) / BLOCK
  (nBlocks, nByteGroups, nBlocks * nByteGroups * BLOCK)

theorem blockedGeometry_eq (nVectors bits dim : ℕ) : blockedGeometry nVectors bits dim =
    ((nVectors + 31) / 32, dim / codesPerByte bits,
      (nVectors + 31) / 32 * (dim / codesPerByte bits * 32)) := by
  have h : nVectors + 32 - 1 = nVectors + 31 := by omega
  simp only [blockedGeometry, BLOCK, h, Nat.mul_assoc]

/-! ## Packed to code bytes -/

/-- Entry `b` of plane `p`'s extraction table. -/
def buildExtractLut (bits p b : ℕ) : ℕ :=
  (List.range 8).foldl (fun acc j =>
    if b.testBit (7 - j) then
      let outByte := j / codesPerByte bits
      let shiftInByte := (codesPerByte bits - 1 - j % codesPerByte bits) * field bits
      acc ||| 1 <<< (outByte * 8 + shiftInByte + p)
    else acc) 0

/-- The word an 8-dimension chunk extracts to: one lookup a plane, OR-ed together. -/
def extractChunk (packed : List UInt8) (base bits bytesPerPlane c : ℕ) : ℕ :=
  (List.range bits).foldl (fun acc p =>
    acc ||| buildExtractLut bits p (entry packed (base + p * bytesPerPlane + c)).toNat) 0

/-- The code bytes of `nVectors` packed rows, row-major. -/
def extractCodesFlat (packed : List UInt8) (nVectors bits dim : ℕ) : List UInt8 :=
  let bytesPerPlane := dim / 8
  let bytesPerRow := bits * bytesPerPlane
  let nOut := 8 / codesPerByte bits
  (List.range nVectors).flatMap fun v =>
    (List.range bytesPerPlane).flatMap fun c =>
      (leBytes 4 (extractChunk packed (v * bytesPerRow) bits bytesPerPlane c)).take nOut

/-! ## Code bytes to packed -/

/-- Entry `b` of the unpack table: bit `p` of the byte's `c`-th code, for every `p` and `c`. -/
def buildUnpackLut (bits b : ℕ) : ℕ :=
  (List.range (codesPerByte bits)).foldl (fun e c =>
    let shift := (codesPerByte bits - 1 - c) * field bits
    let code := (b >>> shift) &&& (1 <<< bits - 1)
    (List.range bits).foldl (fun e p =>
      if code.testBit p then e ||| 1 <<< (p * codesPerByte bits + (codesPerByte bits - 1 - c))
      else e) e) 0

/-- Plane `p`'s byte `ob` of the packed row whose code bytes are `byteVal`. -/
def unpackByte (byteVal : ℕ → UInt8) (bits p ob : ℕ) : ℕ :=
  let cpb := codesPerByte bits
  let groupsPerOut := 8 / cpb
  (List.range groupsPerOut).foldl (fun acc q =>
    let e := buildUnpackLut bits (byteVal (ob * groupsPerOut + q)).toNat
    acc ||| ((e >>> (p * cpb)) &&& (1 <<< cpb - 1)) <<< (8 - cpb * (q + 1))) 0

/-- The packed row with the given code bytes. -/
def unpackBytes (byteVal : ℕ → UInt8) (bits bytesPerPlane : ℕ) : List UInt8 :=
  (List.range bits).flatMap fun p =>
    tabulate bytesPerPlane fun ob => UInt8.ofNat (unpackByte byteVal bits p ob)

/-- Vector `vecIdx`'s packed row, from the sequential blocked layout. -/
def unpackRow (seq : List UInt8) (vecIdx bits nByteGroups bytesPerPlane : ℕ) : List UInt8 :=
  let groupBase := vecIdx / BLOCK * nByteGroups
  unpackBytes (fun g => entry seq ((groupBase + g) * BLOCK + vecIdx % BLOCK)) bits bytesPerPlane

/-- Sequential blocked layout to packed rows. -/
def seqToPacked (seq : List UInt8) (nVectors bits dim : ℕ) : List UInt8 :=
  (List.range nVectors).flatMap fun v =>
    unpackRow seq v bits (dim / codesPerByte bits) (dim / 8)

/-! ## The two tables, bit by bit -/

/-- The widths the crate supports. -/
def ValidBits (bits : ℕ) : Prop := bits = 2 ∨ bits = 3 ∨ bits = 4

instance (bits : ℕ) : Decidable (ValidBits bits) := inferInstanceAs (Decidable (_ ∨ _ ∨ _))

theorem testBit_buildExtractLut (bits p b k : ℕ) :
    (buildExtractLut bits p b).testBit k = (List.range 8).any fun j => b.testBit (7 - j) &&
      decide (j / codesPerByte bits * 8 +
        (codesPerByte bits - 1 - j % codesPerByte bits) * field bits + p = k) := by
  have h := Bits.testBit_foldl _ (fun a j => Bits.testBit_ite_or_shiftLeft a k
    (j / codesPerByte bits * 8 + (codesPerByte bits - 1 - j % codesPerByte bits) * field bits + p)
    (b.testBit (7 - j))) (List.range 8) 0
  rwa [Nat.zero_testBit, Bool.false_or] at h

theorem testBit_extractChunk (packed : List UInt8) (base bits bpp c k : ℕ) :
    (extractChunk packed base bits bpp c).testBit k = (List.range bits).any fun p =>
      (buildExtractLut bits p (entry packed (base + p * bpp + c)).toNat).testBit k := by
  have h := Bits.testBit_foldl _ (fun a p => Nat.testBit_or a
    (buildExtractLut bits p (entry packed (base + p * bpp + c)).toNat) k) (List.range bits) 0
  rwa [Nat.zero_testBit, Bool.false_or] at h

/-- Code `t` of output byte `o`, bit `p`, is dimension `o * (8 / bits) + t` of plane `p`. -/
theorem testBit_extractChunk_code {bits : ℕ} (hb : ValidBits bits) (packed : List UInt8)
    (base bpp c : ℕ) {o t p : ℕ} (ho : o < 8 / codesPerByte bits) (ht : t < codesPerByte bits)
    (hp : p < bits) :
    (extractChunk packed base bits bpp c).testBit
        (o * 8 + (codesPerByte bits - 1 - t) * field bits + p) =
      (entry packed (base + p * bpp + c)).toNat.testBit (7 - (o * codesPerByte bits + t)) := by
  rw [testBit_extractChunk, Bits.any_range_eq_of_unique hp]
  · rw [testBit_buildExtractLut, Bits.any_range_eq_of_unique (i := o * codesPerByte bits + t)]
    · rcases hb with rfl | rfl | rfl <;> simp only [codesPerByte, field] at * <;>
        norm_num at * <;> intro _ <;> omega
    · rcases hb with rfl | rfl | rfl <;> simp only [codesPerByte] at * <;> omega
    · intro j hj hjk
      rw [Bool.and_eq_true, decide_eq_true_eq] at hjk
      have := hjk.2
      rcases hb with rfl | rfl | rfl <;> simp only [codesPerByte, field] at * <;>
        norm_num at * <;> omega
  · intro q hq hqk
    rw [testBit_buildExtractLut, List.any_eq_true] at hqk
    obtain ⟨j, hj, hjk⟩ := hqk
    rw [List.mem_range] at hj
    rw [Bool.and_eq_true, decide_eq_true_eq] at hjk
    have := hjk.2
    rcases hb with rfl | rfl | rfl <;> simp only [codesPerByte, field] at * <;>
      norm_num at * <;> omega

/-- The unused bit of a 3-bit field is left clear. -/
theorem testBit_extractChunk_stray (packed : List UInt8) (base bpp c o t : ℕ) :
    (extractChunk packed base 3 bpp c).testBit (o * 8 + (1 - t) * 4 + 3) = false := by
  rw [testBit_extractChunk]
  refine Bits.any_range_eq_false fun p hp => ?_
  rw [testBit_buildExtractLut]
  refine Bits.any_range_eq_false fun j hj => ?_
  rw [Bool.and_eq_false_iff, decide_eq_false_iff_not]
  right
  simp only [codesPerByte, field]
  norm_num
  omega

/-! ## One row -/

/-- Code byte `g` of the packed row `row`. -/
def extractByte (bits bytesPerPlane : ℕ) (row : List UInt8) (g : ℕ) : UInt8 :=
  let nOut := 8 / codesPerByte bits
  UInt8.ofNat (extractChunk row 0 bits bytesPerPlane (g / nOut) >>> (8 * (g % nOut)))

/-- The code bytes of one packed row. -/
def extractRow (bits dim : ℕ) (row : List UInt8) : List UInt8 :=
  tabulate (dim / codesPerByte bits) (extractByte bits (dim / 8) row)

@[simp] theorem length_extractRow (bits dim : ℕ) (row : List UInt8) :
    (extractRow bits dim row).length = dim / codesPerByte bits := by
  simp [extractRow]

/-- A dimension the constructors accept: whole bytes of every plane. -/
theorem groups_eq {bits dim : ℕ} (hb : ValidBits bits) (hd : dim % 8 = 0) :
    dim / codesPerByte bits = dim / 8 * (8 / codesPerByte bits) := by
  rcases hb with rfl | rfl | rfl <;> simp only [codesPerByte] <;> omega

theorem extractChunk_rowAt (packed : List UInt8) {bits bpp c v : ℕ} (hc : c < bpp) :
    extractChunk (rowAt packed (bits * bpp) v) 0 bits bpp c =
      extractChunk packed (v * (bits * bpp)) bits bpp c := by
  refine List.foldl_ext _ _ _ fun acc p hp => ?_
  have hlt : p * bpp + c < bits * bpp := mul_add_lt (List.mem_range.1 hp) hc
  rw [Nat.zero_add, entry_rowAt _ hlt, Nat.add_assoc]

/-- The flat extraction is row by row. -/
theorem extractCodesFlat_eq {bits dim : ℕ} (hb : ValidBits bits) (hd : dim % 8 = 0)
    (packed : List UInt8) (n : ℕ) : extractCodesFlat packed n bits dim =
      (List.range n).flatMap fun v => extractRow bits dim (rowAt packed (bits * (dim / 8)) v) := by
  refine List.flatMap_congr fun v _ => ?_
  have hout : 8 / codesPerByte bits ≤ 4 := by
    rcases hb with rfl | rfl | rfl <;> simp [codesPerByte]
  have hlen : ∀ c < dim / 8,
      ((leBytes 4 (extractChunk packed (v * (bits * (dim / 8))) bits (dim / 8) c)).take
        (8 / codesPerByte bits)).length = 8 / codesPerByte bits := by
    intro c _
    simp only [List.length_take, length_leBytes]
    omega
  refine ext_grid (length_flatMap_range hlen) ?_ fun c hc o ho => ?_
  · rw [length_extractRow, groups_eq hb hd]
  · rw [getElem?_flatMap_range hlen hc ho, List.getElem?_take, if_pos ho,
      Bits.getElem?_leBytes (by omega), extractRow, getElem?_tabulate]
    · rw [extractByte, mul_add_div ho, mul_add_mod ho, extractChunk_rowAt _ hc]
    · rw [groups_eq hb hd]
      exact mul_add_lt hc ho

theorem length_extractCodesFlat {bits dim : ℕ} (hb : ValidBits bits) (hd : dim % 8 = 0)
    (packed : List UInt8) (n : ℕ) :
    (extractCodesFlat packed n bits dim).length = n * (dim / codesPerByte bits) := by
  rw [extractCodesFlat_eq hb hd, length_flatMap_range fun _ _ => length_extractRow _ _ _]

theorem rowAt_extractCodesFlat {bits dim : ℕ} (hb : ValidBits bits) (hd : dim % 8 = 0)
    (packed : List UInt8) {n v : ℕ} (hv : v < n) :
    rowAt (extractCodesFlat packed n bits dim) (dim / codesPerByte bits) v =
      extractRow bits dim (rowAt packed (bits * (dim / 8)) v) := by
  rw [extractCodesFlat_eq hb hd, rowAt_flatMap_range (fun _ _ => length_extractRow _ _ _) hv]

/-- Bit `p` of code `t` of byte `g` is dimension `g * (8 / bits) + t` of plane `p`. -/
theorem testBit_extractByte {bits : ℕ} (hb : ValidBits bits) (bpp : ℕ) (row : List UInt8)
    (g : ℕ) {t p : ℕ} (ht : t < codesPerByte bits) (hp : p < bits) :
    (extractByte bits bpp row g).toNat.testBit ((codesPerByte bits - 1 - t) * field bits + p) =
      (entry row (p * bpp + (g * codesPerByte bits + t) / 8)).toNat.testBit
        (7 - (g * codesPerByte bits + t) % 8) := by
  have ho : g % (8 / codesPerByte bits) < 8 / codesPerByte bits := by
    rcases hb with rfl | rfl | rfl <;> simp only [codesPerByte] <;> omega
  have hs : (codesPerByte bits - 1 - t) * field bits + p < 8 := by
    rcases hb with rfl | rfl | rfl <;> simp only [codesPerByte, field] at * <;> norm_num at * <;>
      omega
  rw [extractByte, Bits.testBit_ofNat hs, Nat.testBit_shiftRight, ← Nat.add_assoc, Nat.mul_comm 8,
    testBit_extractChunk_code hb row 0 bpp _ ho ht hp, Nat.zero_add]
  congr 2
  · congr 2
    rcases hb with rfl | rfl | rfl <;> simp only [codesPerByte] at * <;> omega
  · rcases hb with rfl | rfl | rfl <;> simp only [codesPerByte] at * <;> omega

theorem testBit_extractByte_stray (bpp : ℕ) (row : List UInt8) (g t : ℕ) (ht : t < 2) :
    (extractByte 3 bpp row g).toNat.testBit ((1 - t) * 4 + 3) = false := by
  rw [extractByte, Bits.testBit_ofNat (by omega), Nat.testBit_shiftRight, ← Nat.add_assoc,
    Nat.mul_comm 8]
  exact testBit_extractChunk_stray row 0 bpp _ _ t

/-! ## One row back -/

theorem testBit_mask (n p : ℕ) : (1 <<< n - 1).testBit p = decide (p < n) := by
  rw [Nat.one_shiftLeft, Nat.testBit_two_pow_sub_one]

theorem testBit_buildUnpackLut (bits b k : ℕ) :
    (buildUnpackLut bits b).testBit k = (List.range (codesPerByte bits)).any fun c =>
      (List.range bits).any fun p =>
        ((b >>> ((codesPerByte bits - 1 - c) * field bits)) &&& (1 <<< bits - 1)).testBit p &&
          decide (p * codesPerByte bits + (codesPerByte bits - 1 - c) = k) := by
  have hin (c a : ℕ) := Bits.testBit_foldl _ (fun a p => Bits.testBit_ite_or_shiftLeft a k
    (p * codesPerByte bits + (codesPerByte bits - 1 - c))
    (((b >>> ((codesPerByte bits - 1 - c) * field bits)) &&& (1 <<< bits - 1)).testBit p))
    (List.range bits) a
  have h := Bits.testBit_foldl _ (fun a c => hin c a) (List.range (codesPerByte bits)) 0
  rwa [Nat.zero_testBit, Bool.false_or] at h

/-- Field `c` of plane `p` in an unpack entry is bit `p` of the byte's code `c`. -/
theorem testBit_buildUnpackLut_code {bits : ℕ} (hb : ValidBits bits) (b : ℕ) {c p : ℕ}
    (hc : c < codesPerByte bits) (hp : p < bits) :
    (buildUnpackLut bits b).testBit (p * codesPerByte bits + (codesPerByte bits - 1 - c)) =
      b.testBit ((codesPerByte bits - 1 - c) * field bits + p) := by
  rw [testBit_buildUnpackLut, Bits.any_range_eq_of_unique hc, Bits.any_range_eq_of_unique hp]
  · rw [Nat.testBit_and, testBit_mask, Nat.testBit_shiftRight]
    simp [hp]
  · intro q hq hqk
    rw [Bool.and_eq_true, decide_eq_true_eq] at hqk
    have := hqk.2
    rcases hb with rfl | rfl | rfl <;> simp only [codesPerByte] at * <;> omega
  · intro d hd hdk
    rw [List.any_eq_true] at hdk
    obtain ⟨q, hq, hqk⟩ := hdk
    rw [List.mem_range] at hq
    rw [Bool.and_eq_true, decide_eq_true_eq] at hqk
    have := hqk.2
    rcases hb with rfl | rfl | rfl <;> simp only [codesPerByte] at * <;> omega

/-- Bit `i` of plane `p`'s byte `ob` is code `(7 - i) % (8 / bits)` of its code byte. -/
theorem testBit_unpackByte {bits : ℕ} (hb : ValidBits bits) (byteVal : ℕ → UInt8) {p : ℕ}
    (hp : p < bits) (ob : ℕ) {q c : ℕ} (hq : q < 8 / codesPerByte bits)
    (hc : c < codesPerByte bits) :
    (unpackByte byteVal bits p ob).testBit (7 - (q * codesPerByte bits + c)) =
      (byteVal (ob * (8 / codesPerByte bits) + q)).toNat.testBit
        ((codesPerByte bits - 1 - c) * field bits + p) := by
  have h := Bits.testBit_foldl _ (fun a q' => Nat.testBit_or a
    (((buildUnpackLut bits (byteVal (ob * (8 / codesPerByte bits) + q')).toNat >>>
      (p * codesPerByte bits)) &&& (1 <<< codesPerByte bits - 1)) <<<
        (8 - codesPerByte bits * (q' + 1))) (7 - (q * codesPerByte bits + c)))
    (List.range (8 / codesPerByte bits)) 0
  rw [Nat.zero_testBit, Bool.false_or] at h
  refine Eq.trans h ?_
  rw [Bits.any_range_eq_of_unique hq]
  · have he : 8 - codesPerByte bits * (q + 1) + (codesPerByte bits - 1 - c) =
        7 - (q * codesPerByte bits + c) := by
      rcases hb with rfl | rfl | rfl <;> simp only [codesPerByte] at * <;> omega
    rw [← he, Nat.testBit_shiftLeft, Nat.add_sub_cancel_left, Nat.testBit_and, testBit_mask,
      Nat.testBit_shiftRight, testBit_buildUnpackLut_code hb _ hc hp]
    have hlt : codesPerByte bits - 1 - c < codesPerByte bits := by omega
    simp [hlt]
  · intro r hr hrk
    rw [Nat.testBit_shiftLeft, Nat.testBit_and, testBit_mask] at hrk
    simp only [Bool.and_eq_true, decide_eq_true_eq] at hrk
    obtain ⟨h1, -, h2⟩ := hrk
    rcases hb with rfl | rfl | rfl <;> simp only [codesPerByte] at * <;> omega

@[simp] theorem length_unpackBytes (byteVal : ℕ → UInt8) (bits bpp : ℕ) :
    (unpackBytes byteVal bits bpp).length = bits * bpp :=
  length_flatMap_range fun _ _ => length_tabulate _ _

theorem entry_unpackBytes (byteVal : ℕ → UInt8) {bits bpp p ob : ℕ} (hp : p < bits)
    (hob : ob < bpp) : entry (unpackBytes byteVal bits bpp) (p * bpp + ob) =
      UInt8.ofNat (unpackByte byteVal bits p ob) := by
  rw [unpackBytes, entry_flatMap_range (fun _ _ => length_tabulate _ _) hp hob,
    entry_tabulate _ hob]

/-- The packed row whose code bytes are `codes`. -/
def packRow (bits dim : ℕ) (codes : List UInt8) : List UInt8 :=
  unpackBytes (entry codes) bits (dim / 8)

@[simp] theorem length_packRow (bits dim : ℕ) (codes : List UInt8) :
    (packRow bits dim codes).length = bits * (dim / 8) := by
  simp [packRow]

theorem unpackBytes_congr {bits bpp : ℕ} {f g : ℕ → UInt8}
    (h : ∀ k < bpp * (8 / codesPerByte bits), f k = g k) :
    unpackBytes f bits bpp = unpackBytes g bits bpp := by
  refine List.flatMap_congr fun p _ => tabulate_congr fun ob hob => ?_
  congr 1
  refine List.foldl_ext _ _ _ fun acc q hq => ?_
  rw [h _ (mul_add_lt hob (List.mem_range.1 hq))]

/-- Packing the code bytes of a packed row gives the row back. -/
theorem packRow_extractRow {bits dim : ℕ} (hb : ValidBits bits) (hd : dim % 8 = 0)
    {row : List UInt8} (hlen : row.length = bits * (dim / 8)) :
    packRow bits dim (extractRow bits dim row) = row := by
  refine ext_grid (length_packRow _ _ _) hlen fun p hp ob hob => ?_
  have hlt : p * (dim / 8) + ob < row.length := hlen ▸ mul_add_lt hp hob
  rw [getElem?_eq_entry (by rw [length_packRow]; exact mul_add_lt hp hob), getElem?_eq_entry hlt,
    packRow, entry_unpackBytes _ hp hob, Option.some.injEq]
  refine Bits.eq_of_testBit fun i hi => ?_
  have hcpb : 0 < codesPerByte bits := by rcases hb with rfl | rfl | rfl <;> simp [codesPerByte]
  have hc := Nat.mod_lt (7 - i) hcpb
  have hq : (7 - i) / codesPerByte bits < 8 / codesPerByte bits := by
    rcases hb with rfl | rfl | rfl <;> simp only [codesPerByte] <;> omega
  have hi' : 7 - ((7 - i) / codesPerByte bits * codesPerByte bits + (7 - i) % codesPerByte bits) =
      i := by rw [Nat.div_add_mod']; omega
  have hg : ob * (8 / codesPerByte bits) + (7 - i) / codesPerByte bits <
      dim / codesPerByte bits := by
    rw [groups_eq hb hd]
    exact mul_add_lt hob hq
  have hbit := testBit_unpackByte hb (entry (extractRow bits dim row)) hp ob hq hc
  rw [hi'] at hbit
  rw [Bits.testBit_ofNat hi, hbit, extractRow, entry_tabulate _ hg, testBit_extractByte hb _ _ _ hc hp]
  have hdiv : ((ob * (8 / codesPerByte bits) + (7 - i) / codesPerByte bits) * codesPerByte bits +
      (7 - i) % codesPerByte bits) = ob * 8 + (7 - i) := by
    rcases hb with rfl | rfl | rfl <;> simp only [codesPerByte] <;> omega
  rw [hdiv]
  congr 2
  · congr 1; omega
  · omega

/-- Bit `7 - (q * (8 / bits) + c)` of plane byte `ob` is bit `p` of code `c` of the chunk's byte
`q`. -/
theorem testBit_packRow {bits dim : ℕ} (hb : ValidBits bits) (codes : List UInt8) {p ob q c : ℕ}
    (hp : p < bits) (hob : ob < dim / 8) (hq : q < 8 / codesPerByte bits)
    (hc : c < codesPerByte bits) :
    (entry (packRow bits dim codes) (p * (dim / 8) + ob)).toNat.testBit
        (7 - (q * codesPerByte bits + c)) =
      (entry codes (ob * (8 / codesPerByte bits) + q)).toNat.testBit
        ((codesPerByte bits - 1 - c) * field bits + p) := by
  rw [packRow, entry_unpackBytes _ hp hob, Bits.testBit_ofNat (by omega),
    testBit_unpackByte hb _ hp ob hq hc]

/-- Every bit of a plane byte comes from one code. -/
theorem testBit_packRow_bit {bits dim : ℕ} (hb : ValidBits bits) (codes : List UInt8) {p ob i : ℕ}
    (hp : p < bits) (hob : ob < dim / 8) (hi : i < 8) :
    (entry (packRow bits dim codes) (p * (dim / 8) + ob)).toNat.testBit i =
      (entry codes (ob * (8 / codesPerByte bits) + (7 - i) / codesPerByte bits)).toNat.testBit
        ((codesPerByte bits - 1 - (7 - i) % codesPerByte bits) * field bits + p) := by
  have hcpb : 0 < codesPerByte bits := by rcases hb with rfl | rfl | rfl <;> simp [codesPerByte]
  have hq : (7 - i) / codesPerByte bits < 8 / codesPerByte bits := by
    rcases hb with rfl | rfl | rfl <;> simp only [codesPerByte] <;> omega
  have := testBit_packRow hb codes hp hob hq (Nat.mod_lt (7 - i) hcpb)
  rw [Nat.div_add_mod'] at this
  rwa [show 7 - (7 - i) = i by omega] at this

theorem entry_extractRow {bits dim : ℕ} (row : List UInt8) {g : ℕ}
    (hg : g < dim / codesPerByte bits) :
    entry (extractRow bits dim row) g = extractByte bits (dim / 8) row g :=
  entry_tabulate _ hg

/-! ## Stray bits -/

/-- A code byte without the two bits a 3-bit field never uses. -/
def clearStray (bits : ℕ) (b : UInt8) : UInt8 := if bits = 3 then b &&& 0x77 else b

theorem testBit_clearStray {bits : ℕ} (hb : ValidBits bits) (b : UInt8) {s : ℕ} (hs : s < 8) :
    (clearStray bits b).toNat.testBit s =
      (b.toNat.testBit s && decide (s % field bits < bits)) := by
  have hfree {d : ℕ} (hd : 0 < d) : b.toNat.testBit s = (b.toNat.testBit s && decide (s % d < d)) := by
    rw [decide_eq_true (Nat.mod_lt s hd), Bool.and_true]
  rcases hb with rfl | rfl | rfl
  · exact hfree (show 0 < 2 by decide)
  · have h77 : ∀ s < 8, (0x77 : UInt8).toNat.testBit s = decide (s % 4 < 3) := by decide
    simp only [clearStray, field, if_true, UInt8.toNat_and, Nat.testBit_and, h77 s hs]
  · exact hfree (show 0 < 4 by decide)

@[simp] theorem clearStray_clearStray (bits : ℕ) (b : UInt8) :
    clearStray bits (clearStray bits b) = clearStray bits b := by
  unfold clearStray
  split
  · rw [UInt8.and_assoc, UInt8.and_self]
  · rfl

@[simp] theorem clearStray_zero (bits : ℕ) : clearStray bits 0 = 0 := by
  unfold clearStray
  split <;> simp

/-- Every bit of a code byte is a bit of one of its codes, or stray. -/
theorem exists_code_of_bit {bits : ℕ} (hb : ValidBits bits) {s : ℕ} (hs : s < 8) :
    ∃ t < codesPerByte bits, s = (codesPerByte bits - 1 - t) * field bits + s % field bits := by
  refine ⟨codesPerByte bits - 1 - s / field bits, ?_, ?_⟩
  · have : codesPerByte bits - 1 < codesPerByte bits := by
      rcases hb with rfl | rfl | rfl <;> simp [codesPerByte]
    exact lt_of_le_of_lt (Nat.sub_le _ _) this
  · rcases hb with rfl | rfl | rfl <;> simp only [codesPerByte, field] <;> norm_num <;> omega

/-- An extracted byte has no stray bit. -/
theorem clearStray_extractByte {bits : ℕ} (hb : ValidBits bits) (bpp : ℕ) (row : List UInt8)
    (g : ℕ) : clearStray bits (extractByte bits bpp row g) = extractByte bits bpp row g := by
  refine Bits.eq_of_testBit fun s hs => ?_
  rw [testBit_clearStray hb _ hs]
  by_cases h : s % field bits < bits
  · simp [h]
  · have h3 : bits = 3 := by
      rcases hb with rfl | rfl | rfl
      · exact absurd (Nat.mod_lt s (by simp [field])) h
      · rfl
      · exact absurd (Nat.mod_lt s (by simp [field])) h
    subst h3
    have hs3 : s % 4 = 3 := by simp only [field] at h; norm_num at h; omega
    have hs' : s = (1 - (1 - s / 4)) * 4 + 3 := by omega
    have := testBit_extractByte_stray bpp row g (1 - s / 4) (by omega)
    rw [← hs'] at this
    simp [this]

/-- Extracting a packed form gives the code bytes back, stray bits cleared. -/
theorem extractRow_packRow {bits dim : ℕ} (hb : ValidBits bits) (hd : dim % 8 = 0)
    {codes : List UInt8} (hlen : codes.length = dim / codesPerByte bits) :
    extractRow bits dim (packRow bits dim codes) = codes.map (clearStray bits) := by
  refine ext_entry (by simp [hlen]) fun g hg => ?_
  rw [length_extractRow] at hg
  have hge : entry (codes.map (clearStray bits)) g = clearStray bits (entry codes g) :=
    entry_of_getElem? (by rw [List.getElem?_map, getElem?_eq_entry (by omega), Option.map_some])
  rw [extractRow, entry_tabulate _ hg, hge]
  refine Bits.eq_of_testBit fun s hs => ?_
  rw [← clearStray_extractByte hb, testBit_clearStray hb _ hs, testBit_clearStray hb _ hs]
  by_cases hp : s % field bits < bits
  · obtain ⟨t, ht, hst⟩ := exists_code_of_bit hb hs
    have hbit := testBit_extractByte hb (dim / 8) (packRow bits dim codes) g ht hp
    rw [← hst] at hbit
    have hcpb : 8 = 8 / codesPerByte bits * codesPerByte bits := by
      rcases hb with rfl | rfl | rfl <;> simp [codesPerByte]
    have hob : (g * codesPerByte bits + t) / 8 < dim / 8 := by
      have := groups_eq hb hd
      rcases hb with rfl | rfl | rfl <;> simp only [codesPerByte] at * <;> omega
    have hq : (g * codesPerByte bits + t) % 8 / codesPerByte bits < 8 / codesPerByte bits := by
      rcases hb with rfl | rfl | rfl <;> simp only [codesPerByte] at * <;> omega
    have hun := testBit_unpackByte hb (entry codes) hp ((g * codesPerByte bits + t) / 8) hq ht
    have he : (g * codesPerByte bits + t) % 8 / codesPerByte bits * codesPerByte bits + t =
        (g * codesPerByte bits + t) % 8 := by
      rcases hb with rfl | rfl | rfl <;> simp only [codesPerByte] at * <;> omega
    have hg' : (g * codesPerByte bits + t) / 8 * (8 / codesPerByte bits) +
        (g * codesPerByte bits + t) % 8 / codesPerByte bits = g := by
      rcases hb with rfl | rfl | rfl <;> simp only [codesPerByte] at * <;> omega
    rw [he, hg', ← hst] at hun
    rw [hbit, packRow, entry_unpackBytes _ hp hob, Bits.testBit_ofNat (by omega), hun]
  · simp [hp]

/-- At 2 and 4 bits no bit is stray. -/
theorem clearStray_eq_self {bits : ℕ} (h : bits ≠ 3) (b : UInt8) : clearStray bits b = b := by
  simp [clearStray, h]

/-- The packed row of zero codes. -/
theorem packRow_replicate_zero {bits dim : ℕ} (hb : ValidBits bits) (k : ℕ) :
    packRow bits dim (List.replicate k 0) = List.replicate (bits * (dim / 8)) 0 := by
  refine ext_grid (length_packRow _ _ _) (List.length_replicate) fun p hp ob hob => ?_
  have hi := mul_add_lt hp hob
  rw [getElem?_eq_entry (by rwa [length_packRow]), getElem?_eq_entry (by rwa [List.length_replicate]),
    entry_replicate_zero]
  congr 1
  refine Bits.eq_of_testBit fun i hi => ?_
  rw [testBit_packRow_bit hb _ hp hob hi, entry_replicate_zero]
  simp

end Turbovec.Pack
