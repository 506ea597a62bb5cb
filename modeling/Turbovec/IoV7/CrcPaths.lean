import Turbovec.IoV7.Crc
import Turbovec.Lib.Crc
import Turbovec.Pack.Native

/-!
# The checksum on every processor

The checksum is folded by table, by an instruction that takes eight bytes at a time, or by three interleaved chains of
that instruction, as the processor allows. The instructions are the bitwise definition on their operands, and so is
every path on its bytes.
-/

namespace Turbovec.IoV7

open LittleEndian Slice Pack

/-! ## The bitwise definition -/

/-- The reflected Castagnoli polynomial. -/
def castagnoli : BitVec 32 := 0x82F63B78

/-- The register after the low `n` bits of an operand. -/
def crc32cBits (n : ℕ) (crc : UInt32) (operand : ℕ) : UInt32 :=
  ⟨Crc.feed castagnoli crc.toBitVec (Crc.bitsOf n operand)⟩

/-- CRC-32C byte by byte, each byte low bit first. -/
def crc32cBitwise (crc : UInt32) (data : List UInt8) : UInt32 :=
  data.foldl (fun crc b => crc32cBits 8 crc b.toNat) crc

/-! ## Software -/

/-- `CRC_TABLE` -/
def CRC_TABLE : List UInt32 := (List.range 256).map fun i => Nat.iterate crcStep 8 (UInt32.ofNat i)

/-- `crc32c_upd_soft`; none where the table is read past its end. -/
def crc32cUpdSoft (crc : UInt32) (data : List UInt8) : Option UInt32 :=
  data.foldlM (fun crc b => do
    let entry ← CRC_TABLE[(crc.toUInt8 ^^^ b).toNat]?
    return (crc >>> 8) ^^^ entry) crc

/-! ## Hardware -/

/-- `as_chunks::<8>`: the whole words, and the bytes after them. -/
def asChunks8 (data : List UInt8) : List (List UInt8) × List UInt8 :=
  ((List.range (data.length / 8)).map fun i => (data.drop (i * 8)).take 8, data.drop (data.length / 8 * 8))

/-- `data[i * 8..i * 8 + 8].try_into().unwrap()` -/
def wordAt (data : List UInt8) (i : ℕ) : Option UInt64 := (readLe? data (i * 8) 8).map UInt64.ofNat

/-- `data[from..]` -/
def tailFrom (data : List UInt8) (start : ℕ) : Option (List UInt8) :=
  if start ≤ data.length then some (data.drop start) else none

/-- `__crc32cb` -/
def crc32cb (crc : UInt32) (v : UInt8) : UInt32 := crc32cBits 8 crc v.toNat

/-- `__crc32cd` -/
def crc32cd (crc : UInt32) (v : UInt64) : UInt32 := crc32cBits 64 crc v.toNat

/-- `_mm_crc32_u8` -/
def mmCrc32U8 (crc : UInt32) (v : UInt8) : UInt32 := crc32cBits 8 crc v.toNat

/-- `_mm_crc32_u64`, which reads and writes the low half of its register and clears the high one. -/
def mmCrc32U64 (crc v : UInt64) : UInt64 := (crc32cBits 64 crc.toUInt32 v.toNat).toUInt64

/-- `crc32c_upd_hw_aarch64` -/
def crc32cUpdHwAarch64 (crc : UInt32) (data : List UInt8) : UInt32 :=
  let (chunks, tail) := asChunks8 data
  let crc := chunks.foldl (fun crc c => crc32cd crc (UInt64.ofNat (ofLe c))) crc
  tail.foldl crc32cb crc

/-- `crc32c_upd_hw_x86` -/
def crc32cUpdHwX86 (crc : UInt32) (data : List UInt8) : UInt32 :=
  let (chunks, tail) := asChunks8 data
  let wide := chunks.foldl (fun wide c => mmCrc32U64 wide (UInt64.ofNat (ofLe c))) crc.toUInt64
  tail.foldl mmCrc32U8 wide.toUInt32

/-- Three chains of one instruction in lockstep over the words all three have; none where a word is out of bounds. -/
def lockstep {σ : Type} (word : σ → UInt64 → σ) (a b c : List UInt8) (start : σ × σ × σ) : Option (σ × σ × σ) :=
  (List.range (min (min a.length b.length) c.length / 8)).foldlM (fun s i => do
    let va ← wordAt a i
    let vb ← wordAt b i
    let vc ← wordAt c i
    return (word s.1 va, word s.2.1 vb, word s.2.2 vc)) start

/-- `crc32c_three_hw_aarch64` from any three registers. -/
def threeAarch64 (a b c : List UInt8) (start : UInt32 × UInt32 × UInt32) : Option (UInt32 × UInt32 × UInt32) := do
  let n := min (min a.length b.length) c.length / 8
  let (x, y, z) ← lockstep crc32cd a b c start
  let fin := fun (crc : UInt32) (tail : List UInt8) => ~~~(tail.foldl crc32cb crc)
  return (fin x (← tailFrom a (n * 8)), fin y (← tailFrom b (n * 8)), fin z (← tailFrom c (n * 8)))

/-- `crc32c_three_hw_aarch64` -/
def crc32cThreeHwAarch64 (a b c : List UInt8) : Option (UInt32 × UInt32 × UInt32) :=
  threeAarch64 a b c (0xFFFFFFFF, 0xFFFFFFFF, 0xFFFFFFFF)

/-- `crc32c_three_hw_x86` from any three registers. -/
def threeX86 (a b c : List UInt8) (start : UInt64 × UInt64 × UInt64) : Option (UInt32 × UInt32 × UInt32) := do
  let n := min (min a.length b.length) c.length / 8
  let (x, y, z) ← lockstep mmCrc32U64 a b c start
  let fin := fun (crc : UInt32) (tail : List UInt8) => ~~~(tail.foldl mmCrc32U8 crc)
  return (fin x.toUInt32 (← tailFrom a (n * 8)), fin y.toUInt32 (← tailFrom b (n * 8)),
    fin z.toUInt32 (← tailFrom c (n * 8)))

/-- `crc32c_three_hw_x86` -/
def crc32cThreeHwX86 (a b c : List UInt8) : Option (UInt32 × UInt32 × UInt32) :=
  threeX86 a b c (0xFFFFFFFF, 0xFFFFFFFF, 0xFFFFFFFF)

/-! ## Dispatch -/

/-- A processor, and whether it has the instruction: `crc` or `sse4.2`. -/
structure Processor where
  arch : Arch
  hasCrc : Bool

/-- `crc32c_update` -/
def Processor.crc32cUpdate (p : Processor) (crc : UInt32) (data : List UInt8) : Option UInt32 :=
  match p.arch, p.hasCrc with
  | .aarch64, true => some (crc32cUpdHwAarch64 crc data)
  | .x86_64, true => some (crc32cUpdHwX86 crc data)
  | _, _ => crc32cUpdSoft crc data

/-- `crc32c_soft` -/
def crc32cSoft (data : List UInt8) : Option UInt32 := (crc32cUpdSoft 0xFFFFFFFF data).map fun crc => ~~~crc

/-- `crc32_three` -/
def Processor.crc32Three (p : Processor) (a b c : List UInt8) : Option (UInt32 × UInt32 × UInt32) :=
  match p.arch, p.hasCrc with
  | .aarch64, true => crc32cThreeHwAarch64 a b c
  | .x86_64, true => crc32cThreeHwX86 a b c
  | _, _ => do return (← crc32cSoft a, ← crc32cSoft b, ← crc32cSoft c)

/-- `crc32_one` -/
def Processor.crc32One (p : Processor) (data : List UInt8) : Option UInt32 :=
  (p.crc32cUpdate 0xFFFFFFFF data).map fun crc => ~~~crc

/-- `crc32` -/
def Processor.crc32 (p : Processor) (data : List UInt8) : Option UInt32 :=
  if data.length < 4096 then p.crc32One data
  else do
    let third := data.length / 3
    let rest := data.drop third
    let (ca, cb, cc) ← p.crc32Three (data.take third) (rest.take third) (rest.drop third)
    p.crc32One (u32Bytes ca ++ u32Bytes cb ++ u32Bytes cc)

/-! ## One byte -/

theorem toBitVec_crcStep (c : UInt32) : (crcStep c).toBitVec = Crc.step castagnoli c.toBitVec := by
  -- the source's mask is all ones when the low bit is set, and zero when not
  have hmask : (0 - (c &&& 1)).toBitVec = if c.toBitVec.getLsbD 0 then BitVec.allOnes 32 else 0 := by
    rw [UInt32.toBitVec_sub, UInt32.toBitVec_and]
    rw [show (1 : UInt32).toBitVec = 1#32 from rfl, BitVec.and_one_eq_setWidth_ofBool_getLsbD]
    cases c.toBitVec.getLsbD 0 with
    | false => rfl
    | true => rfl
  rw [crcStep, UInt32.toBitVec_xor, UInt32.toBitVec_and, hmask, Crc.step]
  have hshift : (c >>> 1).toBitVec = c.toBitVec >>> 1 := rfl
  rw [hshift]
  cases c.toBitVec.getLsbD 0 with
  | false => exact BitVec.xor_zero
  | true => exact congrArg (c.toBitVec >>> 1 ^^^ ·) BitVec.and_allOnes

theorem toBitVec_crcSteps (n : ℕ) (c : UInt32) :
    (Nat.iterate crcStep n c).toBitVec = (Crc.step castagnoli)^[n] c.toBitVec := by
  induction n generalizing c with
  | zero => rfl
  | succ n ih => rw [Function.iterate_succ_apply, Function.iterate_succ_apply, ih, toBitVec_crcStep]

/-- A byte by table is the byte bit by bit. -/
theorem crc32cBits_byte (crc : UInt32) (b : UInt8) :
    crc32cBits 8 crc b.toNat = (crc >>> 8) ^^^ crcTable (crc.toUInt8 ^^^ b) := by
  apply UInt32.toBitVec_inj.mp
  rw [UInt32.toBitVec_xor, crcTable, toBitVec_crcSteps]
  show Crc.feed castagnoli crc.toBitVec (Crc.bitsOf 8 b.toNat) = _
  rw [Crc.feed_bitsOf castagnoli (by decide) b.toNat_lt, Crc.steps_eq_table]
  have hb : BitVec.ofNat 32 b.toNat = b.toBitVec.setWidth 32 := BitVec.eq_of_toNat_eq (by simp)
  -- the byte meets the low eight bits only, and shifts out of the rest
  have hhigh : (crc.toBitVec ^^^ BitVec.ofNat 32 b.toNat) >>> 8 = (crc >>> 8).toBitVec := by
    rw [BitVec.ushiftRight_xor_distrib, hb]
    have hzero : (b.toBitVec.setWidth 32) >>> 8 = 0 := by
      apply BitVec.eq_of_getLsbD_eq
      intro i hi
      rw [BitVec.getLsbD_ushiftRight, BitVec.getLsbD_setWidth, BitVec.getLsbD_of_ge _ _ (Nat.le_add_right 8 i)]
      simp
    rw [hzero]
    exact BitVec.xor_zero
  have hlow : (crc.toBitVec ^^^ BitVec.ofNat 32 b.toNat).setWidth 8 = (crc.toUInt8 ^^^ b).toBitVec := by
    rw [BitVec.setWidth_xor, hb, BitVec.setWidth_setWidth_of_le _ (by decide), BitVec.setWidth_eq]
    rfl
  rw [hhigh, hlow]
  rfl

/-! ## Paths -/

theorem crc32cBitwise_append (crc : UInt32) (xs ys : List UInt8) :
    crc32cBitwise crc (xs ++ ys) = crc32cBitwise (crc32cBitwise crc xs) ys := List.foldl_append

/-- Bytes folded in two pieces. -/
theorem crc32cBitwise_split (crc : UInt32) (data : List UInt8) (n : ℕ) :
    crc32cBitwise (crc32cBitwise crc (data.take n)) (data.drop n) = crc32cBitwise crc data := by
  rw [← crc32cBitwise_append, List.take_append_drop]

/-- The register the rest of the development folds with is the bitwise one. -/
theorem crc32cUpdate_eq (crc : UInt32) (data : List UInt8) : crc32cUpdate crc data = crc32cBitwise crc data := by
  rw [crc32cUpdate, crc32cBitwise]
  exact List.foldl_ext _ _ _ fun crc b _ => (crc32cBits_byte crc b).symm

/-- A word is its eight bytes. -/
theorem crc32cBits_word (crc : UInt32) {bytes : List UInt8} (h : bytes.length = 8) :
    crc32cBits 64 crc (ofLe bytes) = crc32cBitwise crc bytes := by
  have hbits : Crc.bitsOf 64 (ofLe bytes) = bytes.flatMap fun b => Crc.bitsOf 8 b.toNat := by
    rw [← Crc.bitsOf_ofLe, h]
  have hfold (bytes : List UInt8) (crc : UInt32) :
      (⟨Crc.feed castagnoli crc.toBitVec (bytes.flatMap fun b => Crc.bitsOf 8 b.toNat)⟩ : UInt32) =
        crc32cBitwise crc bytes := by
    induction bytes generalizing crc with
    | nil => rfl
    | cons b bytes ih =>
      rw [List.flatMap_cons, Crc.feed_append]
      exact ih (crc32cBits 8 crc b.toNat)
  rw [crc32cBits, hbits, hfold]

theorem toNat_word {bytes : List UInt8} (h : bytes.length = 8) : (UInt64.ofNat (ofLe bytes)).toNat = ofLe bytes := by
  have hlt := ofLe_lt bytes
  rw [h] at hlt
  exact UInt64.toNat_ofNat_of_lt' hlt

theorem crc32cd_word (crc : UInt32) {bytes : List UInt8} (h : bytes.length = 8) :
    crc32cd crc (UInt64.ofNat (ofLe bytes)) = crc32cBitwise crc bytes := by
  rw [crc32cd, toNat_word h, crc32cBits_word crc h]

theorem mmCrc32U64_word (crc : UInt32) {bytes : List UInt8} (h : bytes.length = 8) :
    mmCrc32U64 crc.toUInt64 (UInt64.ofNat (ofLe bytes)) = (crc32cBitwise crc bytes).toUInt64 := by
  rw [mmCrc32U64, toNat_word h, UInt32.toUInt32_toUInt64, crc32cBits_word crc h]

theorem take_word (data : List UInt8) (n : ℕ) :
    data.take ((n + 1) * 8) = data.take (n * 8) ++ (data.drop (n * 8)).take 8 := by
  rw [Nat.succ_mul, List.take_add]

theorem length_word {data : List UInt8} {n : ℕ} (h : (n + 1) * 8 ≤ data.length) :
    ((data.drop (n * 8)).take 8).length = 8 := by
  rw [List.length_take, List.length_drop]
  omega

/-- A chain of words that reads a register `f` of the bitwise one is the bitwise fold of the words read. -/
theorem words_eq {σ : Type} (f : UInt32 → σ) (word : σ → UInt64 → σ)
    (hword : ∀ crc (bytes : List UInt8), bytes.length = 8 →
      word (f crc) (UInt64.ofNat (ofLe bytes)) = f (crc32cBitwise crc bytes))
    (crc : UInt32) (data : List UInt8) {n : ℕ} (hn : n * 8 ≤ data.length) :
    ((List.range n).map fun i => (data.drop (i * 8)).take 8).foldl (fun s c => word s (UInt64.ofNat (ofLe c))) (f crc) =
      f (crc32cBitwise crc (data.take (n * 8))) := by
  induction n with
  | zero => rw [Nat.zero_mul, List.take_zero]; rfl
  | succ n ih =>
    rw [List.range_succ, List.map_append, List.foldl_append, ih (by omega), take_word, crc32cBitwise_append]
    exact hword _ _ (length_word hn)

/-- Three such chains in lockstep. -/
theorem lockstep_eq {σ : Type} (f : UInt32 → σ) (word : σ → UInt64 → σ)
    (hword : ∀ crc (bytes : List UInt8), bytes.length = 8 →
      word (f crc) (UInt64.ofNat (ofLe bytes)) = f (crc32cBitwise crc bytes))
    (a b c : List UInt8) (x y z : UInt32) : ∃ n, n = min (min a.length b.length) c.length / 8 ∧
      n * 8 ≤ a.length ∧ n * 8 ≤ b.length ∧ n * 8 ≤ c.length ∧
      lockstep word a b c (f x, f y, f z) = some (f (crc32cBitwise x (a.take (n * 8))),
        f (crc32cBitwise y (b.take (n * 8))), f (crc32cBitwise z (c.take (n * 8)))) := by
  refine ⟨_, rfl, by omega, by omega, by omega, ?_⟩
  -- over any number of words that all three parts have: no chain reads another's register
  have hall (n : ℕ) (ha : n * 8 ≤ a.length) (hb : n * 8 ≤ b.length) (hc : n * 8 ≤ c.length) :
      (List.range n).foldlM (fun (s : σ × σ × σ) i => do
        let va ← wordAt a i
        let vb ← wordAt b i
        let vc ← wordAt c i
        return (word s.1 va, word s.2.1 vb, word s.2.2 vc)) (f x, f y, f z) =
      some (f (crc32cBitwise x (a.take (n * 8))), f (crc32cBitwise y (b.take (n * 8))),
        f (crc32cBitwise z (c.take (n * 8)))) := by
    induction n with
    | zero => rw [Nat.zero_mul, List.take_zero, List.take_zero, List.take_zero]; rfl
    | succ n ih =>
      have hat {data : List UInt8} (h : (n + 1) * 8 ≤ data.length) :
          wordAt data n = some (UInt64.ofNat (ofLe ((data.drop (n * 8)).take 8))) := by
        rw [wordAt, readLe?, slice?_of_le (by omega)]
        rfl
      rw [List.range_succ, List.foldlM_append, ih (by omega) (by omega) (by omega), take_word, take_word, take_word,
        crc32cBitwise_append, crc32cBitwise_append, crc32cBitwise_append]
      simp only [List.foldlM_cons, List.foldlM_nil, Option.bind_eq_bind, Option.bind_some, hat ha, hat hb, hat hc,
        hword _ _ (length_word ha), hword _ _ (length_word hb), hword _ _ (length_word hc)]
      rfl
  exact hall _ (by omega) (by omega) (by omega)

theorem crc32cUpdSoft_eq (crc : UInt32) (data : List UInt8) :
    crc32cUpdSoft crc data = some (crc32cBitwise crc data) := by
  have hentry (i : UInt8) : CRC_TABLE[i.toNat]? = some (crcTable i) := by
    rw [CRC_TABLE, List.getElem?_map, List.getElem?_range i.toNat_lt, Option.map_some, UInt32.ofNat_uInt8ToNat]
    rfl
  induction data generalizing crc with
  | nil => rfl
  | cons b data ih =>
    rw [crc32cUpdSoft, List.foldlM_cons, hentry]
    have hbyte : (crc >>> 8) ^^^ crcTable (crc.toUInt8 ^^^ b) = crc32cBits 8 crc b.toNat := (crc32cBits_byte crc b).symm
    show crc32cUpdSoft ((crc >>> 8) ^^^ crcTable (crc.toUInt8 ^^^ b)) data = _
    rw [hbyte, ih]
    rfl

theorem crc32cUpdHwAarch64_eq (crc : UInt32) (data : List UInt8) :
    crc32cUpdHwAarch64 crc data = crc32cBitwise crc data := by
  have hwords := words_eq id crc32cd (fun crc bytes h => crc32cd_word crc h) crc data
    (Nat.div_mul_le_self data.length 8)
  unfold crc32cUpdHwAarch64 asChunks8
  dsimp only
  rw [show crc = id crc from rfl, hwords]
  exact crc32cBitwise_split crc data _

theorem crc32cUpdHwX86_eq (crc : UInt32) (data : List UInt8) :
    crc32cUpdHwX86 crc data = crc32cBitwise crc data := by
  have hwords := words_eq UInt32.toUInt64 mmCrc32U64 (fun crc bytes h => mmCrc32U64_word crc h) crc data
    (Nat.div_mul_le_self data.length 8)
  unfold crc32cUpdHwX86 asChunks8
  dsimp only
  rw [hwords, UInt32.toUInt32_toUInt64]
  exact crc32cBitwise_split crc data _

theorem tailFrom_of_le {data : List UInt8} {start : ℕ} (h : start ≤ data.length) :
    tailFrom data start = some (data.drop start) := if_pos h

theorem threeAarch64_eq (a b c : List UInt8) (x y z : UInt32) :
    threeAarch64 a b c (x, y, z) =
      some (~~~(crc32cBitwise x a), ~~~(crc32cBitwise y b), ~~~(crc32cBitwise z c)) := by
  obtain ⟨n, hn, ha, hb, hc, hloop⟩ := lockstep_eq id crc32cd (fun crc bytes h => crc32cd_word crc h)
    a b c x y z
  have hloop' : lockstep crc32cd a b c (x, y, z) = _ := hloop
  unfold threeAarch64
  rw [hloop', ← hn]
  dsimp only [id, Option.bind_eq_bind, Option.bind_some]
  rw [tailFrom_of_le ha, tailFrom_of_le hb, tailFrom_of_le hc]
  have hrest (crc : UInt32) (data : List UInt8) :
      (data.drop (n * 8)).foldl crc32cb (crc32cBitwise crc (data.take (n * 8))) = crc32cBitwise crc data :=
    crc32cBitwise_split crc data (n * 8)
  exact congrArg some (Prod.ext (congrArg (~~~ ·) (hrest x a))
    (Prod.ext (congrArg (~~~ ·) (hrest y b)) (congrArg (~~~ ·) (hrest z c))))

theorem threeX86_eq (a b c : List UInt8) (x y z : UInt32) :
    threeX86 a b c (x.toUInt64, y.toUInt64, z.toUInt64) =
      some (~~~(crc32cBitwise x a), ~~~(crc32cBitwise y b), ~~~(crc32cBitwise z c)) := by
  obtain ⟨n, hn, ha, hb, hc, hloop⟩ := lockstep_eq UInt32.toUInt64 mmCrc32U64
    (fun crc bytes h => mmCrc32U64_word crc h) a b c x y z
  unfold threeX86
  rw [hloop, ← hn]
  dsimp only [Option.bind_eq_bind, Option.bind_some]
  rw [tailFrom_of_le ha, tailFrom_of_le hb, tailFrom_of_le hc]
  have hrest (crc : UInt32) (data : List UInt8) :
      (data.drop (n * 8)).foldl mmCrc32U8 (crc32cBitwise crc (data.take (n * 8))).toUInt64.toUInt32 =
        crc32cBitwise crc data := by
    rw [UInt32.toUInt32_toUInt64]
    exact crc32cBitwise_split crc data (n * 8)
  exact congrArg some (Prod.ext (congrArg (~~~ ·) (hrest x a))
    (Prod.ext (congrArg (~~~ ·) (hrest y b)) (congrArg (~~~ ·) (hrest z c))))

/-! ## Processors -/

theorem Processor.crc32cUpdate_eq (p : Processor) (crc : UInt32) (data : List UInt8) :
    p.crc32cUpdate crc data = some (crc32cBitwise crc data) := by
  unfold Processor.crc32cUpdate
  split
  · rw [crc32cUpdHwAarch64_eq]
  · rw [crc32cUpdHwX86_eq]
  · exact crc32cUpdSoft_eq crc data

theorem Processor.crc32Three_eq (p : Processor) (a b c : List UInt8) :
    p.crc32Three a b c = some (~~~(crc32cBitwise 0xFFFFFFFF a), ~~~(crc32cBitwise 0xFFFFFFFF b),
      ~~~(crc32cBitwise 0xFFFFFFFF c)) := by
  unfold Processor.crc32Three
  split
  · exact threeAarch64_eq a b c _ _ _
  · exact threeX86_eq a b c 0xFFFFFFFF 0xFFFFFFFF 0xFFFFFFFF
  · rw [crc32cSoft, crc32cSoft, crc32cSoft, crc32cUpdSoft_eq, crc32cUpdSoft_eq, crc32cUpdSoft_eq]
    rfl

/-- Every processor computes the checksum of the format. -/
theorem Processor.crc32_eq (p : Processor) (data : List UInt8) : p.crc32 data = some (IoV7.crc32 data) := by
  have hone (data : List UInt8) : p.crc32One data = some (IoV7.crc32One data) := by
    rw [Processor.crc32One, Processor.crc32cUpdate_eq, IoV7.crc32One, IoV7.crc32cUpdate_eq]
    rfl
  unfold Processor.crc32 IoV7.crc32
  split
  · exact hone data
  · dsimp only
    rw [Processor.crc32Three_eq, IoV7.crc32cUpdate_eq, IoV7.crc32cUpdate_eq, IoV7.crc32cUpdate_eq, List.drop_drop,
      Nat.mul_two]
    exact hone _

/-- Every path folds any bytes into any register as the bitwise definition does, three parts of any lengths at once
included; and every processor computes the same checksum. -/
theorem crc_paths (crc : UInt32) (data a b c : List UInt8) (x y z : UInt32) (p : Processor) :
    crc32cUpdSoft crc data = some (crc32cBitwise crc data) ∧
    crc32cUpdHwAarch64 crc data = crc32cBitwise crc data ∧
    crc32cUpdHwX86 crc data = crc32cBitwise crc data ∧
    threeAarch64 a b c (x, y, z) =
      some (~~~(crc32cBitwise x a), ~~~(crc32cBitwise y b), ~~~(crc32cBitwise z c)) ∧
    threeX86 a b c (x.toUInt64, y.toUInt64, z.toUInt64) =
      some (~~~(crc32cBitwise x a), ~~~(crc32cBitwise y b), ~~~(crc32cBitwise z c)) ∧
    p.crc32cUpdate crc data = some (crc32cBitwise crc data) ∧
    p.crc32Three a b c = some (~~~(crc32cBitwise 0xFFFFFFFF a), ~~~(crc32cBitwise 0xFFFFFFFF b),
      ~~~(crc32cBitwise 0xFFFFFFFF c)) ∧
    p.crc32 data = some (IoV7.crc32 data) :=
  ⟨crc32cUpdSoft_eq crc data, crc32cUpdHwAarch64_eq crc data, crc32cUpdHwX86_eq crc data, threeAarch64_eq a b c x y z,
    threeX86_eq a b c x y z, p.crc32cUpdate_eq crc data, p.crc32Three_eq a b c, p.crc32_eq data⟩

/-- The check value of CRC-32C, of the nine digits. -/
example : ~~~(crc32cBitwise 0xFFFFFFFF [49, 50, 51, 52, 53, 54, 55, 56, 57]) = 0xE3069283 := by decide +kernel

end Turbovec.IoV7
