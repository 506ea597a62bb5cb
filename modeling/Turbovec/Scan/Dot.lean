import Mathlib.Algebra.BigOperators.Ring.Finset
import Mathlib.Algebra.Order.Ring.Abs
import Turbovec.Lib.Wrapped
import Turbovec.Pack.Lanes

/-!
# The permute-dot

At 4 bits a query is rounded to one int8 weight per dimension and the codebook to sixteen int8 levels, and a
row's score is the integer sum of weight times level. The kernels take it from the vector-major block in
32-bit lanes: x86 biases the levels into unsigned bytes, NEON multiplies signed bytes, alone or two queries by
two vectors at a time. All of them compute the same integer.
-/

namespace Turbovec.Scan

open Pack Slice Grid

/-! ## Operands -/

/-- The most dimensions an index may have. -/
def MAX_DIM : ℕ := 16384

/-- `QueryPermuteDot`, as far as the integer sum goes. -/
structure PermuteDot where
  levels : List Int8
  weights : List Int8
  zero : Int32

/-- Where the weights keep dimension `d`: per four byte groups, the four odd dimensions and then the four
even ones. -/
def weightSlot (d : ℕ) : ℕ := d / 2 / 4 * 8 + (if d % 2 = 0 then 4 else 0) + d / 2 % 4

/-- `build_permute_dot` of the rounded codebook and the rounded query. -/
def buildPermuteDot (levels : List Int8) (q : ℕ → Int8) (dim : ℕ) : PermuteDot :=
  let nByteGroups := dim / 2
  let wsum := (List.range nByteGroups).foldl (fun s g => s + ((q (2 * g + 1)).toInt32 + (q (2 * g)).toInt32)) 0
  { levels
    weights := scatter weightSlot q ((List.range nByteGroups).flatMap fun g => [2 * g + 1, 2 * g])
      (List.replicate (nByteGroups * 2) 0)
    zero := -128 * wsum }

/-- `SMMLA` operands of the queries, a pair of them over each quad of byte groups: each row in dimension
order. -/
def buildSmmlaA (pds : List PermuteDot) (quads : ℕ) : List Int8 :=
  let pairs := pds.length / 2
  scatter (fun x : ℕ × ℕ × ℕ × ℕ => (x.1 * pairs + x.2.1) * 16 + x.2.2.1 * 8 + x.2.2.2)
    (fun x => entry (pds.getD (2 * x.2.1 + x.2.2.1) ⟨[], [], 0⟩).weights
      (x.1 * 8 + (if x.2.2.2 % 2 = 0 then 4 else 0) + x.2.2.2 / 2))
    ((List.range quads).flatMap fun q4 => (List.range pairs).flatMap fun p => (List.range 2).flatMap fun r =>
      (List.range 8).map fun k => (q4, p, r, k))
    (List.replicate (quads * pairs * 16) 0)

/-- `SMMLA` operands over each run of eight byte groups: the rows of the even dimensions, then those of the
odd ones. -/
def buildSmmlaAVm8 (pds : List PermuteDot) (octs : ℕ) : List Int8 :=
  let pairs := pds.length / 2
  scatter (fun x : ℕ × ℕ × ℕ × ℕ × ℕ => (x.1 * pairs + x.2.1) * 32 + x.2.2.2.2 * 16 + x.2.2.1 * 8 + x.2.2.2.1)
    (fun x =>
      let g := 8 * x.1 + x.2.2.2.1
      let (q4, slot) := (g / 4, g % 4)
      entry (pds.getD (2 * x.2.1 + x.2.2.1) ⟨[], [], 0⟩).weights
        (q4 * 8 + (if x.2.2.2.2 = 0 then 4 else 0) + slot))
    ((List.range octs).flatMap fun q8 => (List.range pairs).flatMap fun p => (List.range 2).flatMap fun r =>
      (List.range 8).flatMap fun j => (List.range 2).map fun o => (q8, p, r, j, o))
    (List.replicate (octs * pairs * 32) 0)

/-! ## Registers -/

/-- A register is its bytes or lanes by index. -/
def load {α : Type} [Zero α] (l : List α) (off i : ℕ) : α := entry l (off + i)

def loNibbles (c : ℕ → UInt8) (i : ℕ) : UInt8 := c i &&& 0x0F

def hiNibbles (c : ℕ → UInt8) (i : ℕ) : UInt8 := c i >>> 4

/-- `vpshufb` and `TBL` over a table of sixteen; every index is a nibble. -/
def lookup {α : Type} [Zero α] (table : List α) (idx : ℕ → UInt8) (i : ℕ) : α := entry table (idx i).toNat

/-- A signed level as `vpdpbusd`'s unsigned operand. -/
def bias (level : Int8) : UInt8 := level.toUInt8 ^^^ 0x80

/-- Four bytes, in every lane. -/
def set1 (w : List Int8) (off i : ℕ) : Int8 := entry w (off + i % 4)

/-- `vpdpbusd`: four unsigned by signed products into each lane. -/
def dpbusd (acc : ℕ → Int32) (a : ℕ → UInt8) (b : ℕ → Int8) (i : ℕ) : Int32 :=
  (List.range 4).foldl (fun s j => s + Int32.ofNat (a (4 * i + j)).toNat * (b (4 * i + j)).toInt32) (acc i)

/-- `SDOT` by element: four signed products into each lane, the second operand one group of four. -/
def sdotLane (idx : ℕ) (acc : ℕ → Int32) (a b : ℕ → Int8) (i : ℕ) : Int32 :=
  (List.range 4).foldl (fun s j => s + (a (4 * i + j)).toInt32 * (b (4 * idx + j)).toInt32) (acc i)

/-- `SMMLA`: two rows of eight by two columns of eight. -/
def smmla (acc : ℕ → Int32) (a b : ℕ → Int8) (i : ℕ) : Int32 :=
  (List.range 8).foldl (fun s k => s + (a (i / 2 * 8 + k)).toInt32 * (b (i % 2 * 8 + k)).toInt32) (acc i)

/-- `ZIP1` and `ZIP2` of two registers. -/
def zip1 (a b : ℕ → Int8) (i : ℕ) : Int8 := if i % 2 = 0 then a (i / 2) else b (i / 2)

def zip2 (a b : ℕ → Int8) (i : ℕ) : Int8 := if i % 2 = 0 then a (8 + i / 2) else b (8 + i / 2)

/-! ## The kernels -/

/-- `define_permute_dot`: one query over half `h` of a vector-major block, sixteen vectors. -/
def permuteDotX86 (pd : PermuteDot) (codes : List UInt8) (nByteGroups base h : ℕ) : ℕ → Int32 :=
  let levels := pd.levels.map bias
  (List.range (nByteGroups / 4)).foldl (fun acc q4 =>
    let c := load codes (base + q4 * 128 + h * 64)
    let vlo := lookup levels (loNibbles c)
    let vhi := lookup levels (hiNibbles c)
    dpbusd (dpbusd acc vlo (set1 pd.weights (q4 * 8))) vhi (set1 pd.weights (q4 * 8 + 4))) fun _ => pd.zero

/-- `score_block_permute_dot_neon`: one query over code register `r` of a vector-major block, four vectors;
two quads of weights to a register, the last alone where their count is odd. -/
def permuteDotNeon (pd : PermuteDot) (codes : List UInt8) (nByteGroups base r : ℕ) : ℕ → Int32 :=
  let quads := nByteGroups / 4
  (List.range ((quads + 1) / 2)).foldl (fun acc s =>
    let q4 := 2 * s
    let paired := q4 + 1 < quads
    let w := fun i => if paired ∨ i < 8 then load pd.weights (q4 * 8) i else 0
    let c := load codes (base + q4 * 128 + r * 16)
    let acc := sdotLane 1 (sdotLane 0 acc (lookup pd.levels (loNibbles c)) w) (lookup pd.levels (hiNibbles c)) w
    if paired then
      let c := load codes (base + (q4 + 1) * 128 + r * 16)
      sdotLane 3 (sdotLane 2 acc (lookup pd.levels (loNibbles c)) w) (lookup pd.levels (hiNibbles c)) w
    else acc) fun _ => 0

/-- A tile of `score_block_permute_smmla_neon`: query pair `p` over vector pair `t` of a block. -/
def smmlaTile (levels a : List Int8) (codes : List UInt8) (pairs nByteGroups base p t : ℕ) : ℕ → Int32 :=
  (List.range (nByteGroups / 4)).foldl (fun acc q4 =>
    let c := load codes (base + q4 * 128 + t / 2 * 16)
    let vlo := lookup levels (loNibbles c)
    let vhi := lookup levels (hiNibbles c)
    smmla acc (load a (q4 * pairs * 16 + p * 16)) (if t % 2 = 0 then zip1 vhi vlo else zip2 vhi vlo)) fun _ => 0

/-- A tile of `score_block_smmla_vm8`. -/
def smmlaTileVm8 (levels a : List Int8) (codes : List UInt8) (pairs nByteGroups base p t : ℕ) : ℕ → Int32 :=
  (List.range (nByteGroups / 8)).foldl (fun acc q8 =>
    let c := load codes (base + q8 * 256 + t * 16)
    let bo := lookup levels (loNibbles c)
    let be := lookup levels (hiNibbles c)
    smmla (smmla acc (load a (q8 * pairs * 32 + p * 32)) be) (load a (q8 * pairs * 32 + p * 32 + 16)) bo) fun _ => 0

/-- A tile's lanes: the even query's two vectors, then the odd query's. -/
def tileLane (tile : ℕ → ℕ → ℕ → Int32) (q v : ℕ) : Int32 := tile (q / 2) (v / 2) (q % 2 * 2 + v % 2)

/-! ## What they compute -/

/-- The code of dimension `d` in its byte: the high nibble is the even one's. -/
def dimCode (b : UInt8) (d : ℕ) : UInt8 := if d % 2 = 0 then b >>> 4 else b &&& 0x0F

/-- The code of dimension `d` for a vector of a vector-major block. -/
def vmCode (codes : List UInt8) (base lane d : ℕ) : UInt8 := dimCode (entry codes (vmByteIndex base (d / 2) lane)) d

def vm8Code (codes : List UInt8) (base lane d : ℕ) : UInt8 := dimCode (entry codes (vm8ByteIndex base (d / 2) lane)) d

/-- Weight times level, dimension `d`. -/
def term (levels : List Int8) (q : ℕ → Int8) (code : ℕ → UInt8) (d : ℕ) : ℤ :=
  (q d).toInt * (entry levels (code d).toNat).toInt

/-- The integer of a row. -/
def exactDot (levels : List Int8) (q : ℕ → Int8) (code : ℕ → UInt8) (dim : ℕ) : ℤ :=
  ∑ d ∈ Finset.range dim, term levels q code d

section

variable {levels : List Int8} {q : ℕ → Int8} {dim : ℕ} {codes : List UInt8} {base : ℕ}

/-! ## Operands, entry by entry -/

theorem entry_weights (hd : dim % 8 = 0) {d : ℕ} (h : d < dim) :
    entry (buildPermuteDot levels q dim).weights (weightSlot d) = q d := by
  apply @entry_scatter _ _ _ weightSlot
  · rw [List.mem_flatMap]
    refine ⟨d / 2, List.mem_range.2 (by omega), ?_⟩
    rw [List.mem_cons, List.mem_singleton]
    omega
  · intro y _ hy
    congr 1
    unfold weightSlot at hy
    split at hy <;> split at hy <;> omega
  · rw [List.length_replicate]
    unfold weightSlot
    split <;> omega

/-- The odd dimensions of quad `q4`, then the even ones. -/
theorem entry_weights_quad (hd : dim % 8 = 0) {q4 j : ℕ} (hq : q4 < dim / 8) (hj : j < 4) :
    entry (buildPermuteDot levels q dim).weights (q4 * 8 + j) = q (8 * q4 + 2 * j + 1) ∧
      entry (buildPermuteDot levels q dim).weights (q4 * 8 + 4 + j) = q (8 * q4 + 2 * j) := by
  constructor
  · rw [← @entry_weights levels q dim hd (8 * q4 + 2 * j + 1) (by omega), weightSlot, if_neg (by omega)]
    congr 1
    omega
  · rw [← @entry_weights levels q dim hd (8 * q4 + 2 * j) (by omega), weightSlot, if_pos (by omega)]
    congr 1
    omega

/-- A sum over the dimensions, a quad of byte groups at a time. -/
theorem sum_quads (hd : dim % 8 = 0) (f : ℕ → ℤ) : ∑ d ∈ Finset.range dim, f d =
    ∑ q4 ∈ Finset.range (dim / 8), ((∑ j ∈ Finset.range 4, f (8 * q4 + 2 * j + 1)) +
      ∑ j ∈ Finset.range 4, f (8 * q4 + 2 * j)) := by
  rw [show Finset.range dim = Finset.range (dim / 8 * (4 * 2)) by congr 1; omega, Wrapped.sum_range_halves]
  apply Finset.sum_congr rfl
  intro q4 _
  rw [add_comm, show q4 * (4 * 2) = 8 * q4 by omega]

/-- A sum over the dimensions, eight byte groups at a time. -/
theorem sum_octs (hd : dim % 16 = 0) (f : ℕ → ℤ) : ∑ d ∈ Finset.range dim, f d =
    ∑ q8 ∈ Finset.range (dim / 16), ((∑ j ∈ Finset.range 8, f (16 * q8 + 2 * j)) +
      ∑ j ∈ Finset.range 8, f (16 * q8 + 2 * j + 1)) := by
  rw [show Finset.range dim = Finset.range (dim / 16 * (8 * 2)) by congr 1; omega, Wrapped.sum_range_halves]
  apply Finset.sum_congr rfl
  intro q8 _
  rw [show q8 * (8 * 2) = 16 * q8 by omega]

theorem zero_eq (hd : dim % 8 = 0) : (buildPermuteDot levels q dim).zero =
    Int32.ofInt (-128 * ∑ d ∈ Finset.range dim, (q d).toInt) := by
  have hsum : (List.range (dim / 2)).foldl
      (fun s g => s + ((q (2 * g + 1)).toInt32 + (q (2 * g)).toInt32)) (0 : Int32) =
      0 + Int32.ofInt (∑ g ∈ Finset.range (dim / 2), ((q (2 * g + 1)).toInt + (q (2 * g)).toInt)) := by
    apply Wrapped.foldl_add
    intro g _
    rw [Int32.ofInt_add, Int32.ofInt_int8ToInt, Int32.ofInt_int8ToInt]
  have hpairs : ∑ g ∈ Finset.range (dim / 2), ((q (2 * g + 1)).toInt + (q (2 * g)).toInt) =
      ∑ d ∈ Finset.range dim, (q d).toInt := by
    rw [show Finset.range dim = Finset.range (dim / 2 * 2) by congr 1; omega, Wrapped.sum_range_mul]
    apply Finset.sum_congr rfl
    intro g _
    rw [Finset.sum_range_succ, Finset.sum_range_one, Nat.mul_comm 2 g, Nat.add_zero (g * 2), Int.add_comm]
  show -128 * (List.range (dim / 2)).foldl _ 0 = _
  rw [hsum, hpairs, Int32.zero_add, Int32.ofInt_mul]
  rfl

/-- The operand row of query `i` over quad `q4` is its weights in dimension order. -/
theorem load_smmlaA {qs : List (ℕ → Int8)} (hd : dim % 8 = 0) {i q4 k : ℕ} (hi : i < qs.length / 2 * 2)
    (hq : qs[i]? = some q) (hq4 : q4 < dim / 8) (hk : k < 8) :
    load (buildSmmlaA (qs.map fun q => buildPermuteDot levels q dim) (dim / 8))
      (q4 * (qs.length / 2) * 16 + i / 2 * 16) (i % 2 * 8 + k) = q (8 * q4 + k) := by
  have hpos : q4 * (qs.length / 2) * 16 + i / 2 * 16 + (i % 2 * 8 + k) =
      (q4 * (qs.length / 2) + i / 2) * 16 + i % 2 * 8 + k := by ring
  have hmem : (q4, i / 2, i % 2, k) ∈ (List.range (dim / 8)).flatMap fun q4 => (List.range (qs.length / 2)).flatMap
      fun p => (List.range 2).flatMap fun r => (List.range 8).map fun k => (q4, p, r, k) := by
    simp only [List.mem_flatMap, List.mem_range, List.mem_map]
    exact ⟨q4, hq4, i / 2, by omega, i % 2, by omega, k, hk, rfl⟩
  have hstore := @entry_scatter _ _ _ (fun x : ℕ × ℕ × ℕ × ℕ => (x.1 * (qs.length / 2) + x.2.1) * 16 + x.2.2.1 * 8 + x.2.2.2)
    (fun x => entry ((qs.map fun q => buildPermuteDot levels q dim).getD (2 * x.2.1 + x.2.2.1) ⟨[], [], 0⟩).weights
      (x.1 * 8 + (if x.2.2.2 % 2 = 0 then 4 else 0) + x.2.2.2 / 2)) _ (List.replicate (dim / 8 * (qs.length / 2) * 16) 0)
    _ hmem ?_ ?_
  · rw [load, buildSmmlaA, List.length_map, hpos]
    apply hstore.trans
    dsimp only
    rw [show 2 * (i / 2) + i % 2 = i by omega, List.getD_eq_getElem?_getD, List.getElem?_map, hq, Option.map_some,
      Option.getD_some]
    obtain ⟨hodd, heven⟩ := @entry_weights_quad levels q dim hd q4 (k / 2) hq4 (by omega)
    split
    · rw [heven]
      congr 1
      omega
    · rw [Nat.add_zero, hodd]
      congr 1
      omega
  · intro x hx heq
    simp only [List.mem_flatMap, List.mem_range, List.mem_map] at hx
    obtain ⟨a, -, b, hb, c, hc, e, he, rfl⟩ := hx
    dsimp only at heq ⊢
    rw [Nat.add_assoc, Nat.add_assoc] at heq
    obtain ⟨hrow, hcell⟩ := mul_add_inj (by omega) (by omega) heq
    obtain ⟨rfl, rfl⟩ := mul_add_inj hb (by omega) hrow
    obtain ⟨rfl, rfl⟩ : c = i % 2 ∧ e = k := by omega
    rfl
  · dsimp only
    rw [List.length_replicate, Nat.add_assoc]
    exact mul_add_lt (mul_add_lt hq4 (by omega)) (by omega)

theorem load_smmlaAVm8 {qs : List (ℕ → Int8)} (hd : dim % 16 = 0) {i q8 j o : ℕ} (hi : i < qs.length / 2 * 2)
    (hq : qs[i]? = some q) (hq8 : q8 < dim / 16) (hj : j < 8) (ho : o < 2) :
    load (buildSmmlaAVm8 (qs.map fun q => buildPermuteDot levels q dim) (dim / 16))
      (q8 * (qs.length / 2) * 32 + i / 2 * 32 + o * 16) (i % 2 * 8 + j) = q (16 * q8 + 2 * j + o) := by
  have hpos : q8 * (qs.length / 2) * 32 + i / 2 * 32 + o * 16 + (i % 2 * 8 + j) =
      (q8 * (qs.length / 2) + i / 2) * 32 + o * 16 + i % 2 * 8 + j := by ring
  have hmem : (q8, i / 2, i % 2, j, o) ∈ (List.range (dim / 16)).flatMap fun q8 =>
      (List.range (qs.length / 2)).flatMap fun p => (List.range 2).flatMap fun r =>
        (List.range 8).flatMap fun j => (List.range 2).map fun o => (q8, p, r, j, o) := by
    simp only [List.mem_flatMap, List.mem_range, List.mem_map]
    exact ⟨q8, hq8, i / 2, by omega, i % 2, by omega, j, hj, o, ho, rfl⟩
  have hstore := @entry_scatter _ _ _
    (fun x : ℕ × ℕ × ℕ × ℕ × ℕ => (x.1 * (qs.length / 2) + x.2.1) * 32 + x.2.2.2.2 * 16 + x.2.2.1 * 8 + x.2.2.2.1)
    (fun x => entry ((qs.map fun q => buildPermuteDot levels q dim).getD (2 * x.2.1 + x.2.2.1) ⟨[], [], 0⟩).weights
      ((8 * x.1 + x.2.2.2.1) / 4 * 8 + (if x.2.2.2.2 = 0 then 4 else 0) + (8 * x.1 + x.2.2.2.1) % 4)) _
    (List.replicate (dim / 16 * (qs.length / 2) * 32) 0) _ hmem ?_ ?_
  · rw [load, buildSmmlaAVm8, List.length_map, hpos]
    apply hstore.trans
    dsimp only
    rw [show 2 * (i / 2) + i % 2 = i by omega, List.getD_eq_getElem?_getD, List.getElem?_map, hq, Option.map_some,
      Option.getD_some, ← @entry_weights levels q dim (by omega) (16 * q8 + 2 * j + o) (by omega), weightSlot]
    congr 1
    split
    · rw [if_pos (by omega)]
      omega
    · rw [if_neg (by omega)]
      omega
  · intro x hx heq
    simp only [List.mem_flatMap, List.mem_range, List.mem_map] at hx
    obtain ⟨a, -, b, hb, c, hc, e, he, f, hf, rfl⟩ := hx
    dsimp only at heq ⊢
    rw [Nat.add_assoc, Nat.add_assoc, Nat.add_assoc, Nat.add_assoc] at heq
    obtain ⟨hrow, hcell⟩ := mul_add_inj (by omega) (by omega) heq
    obtain ⟨rfl, rfl⟩ := mul_add_inj hb (by omega) hrow
    obtain ⟨rfl, rfl, rfl⟩ : c = i % 2 ∧ e = j ∧ f = o := by omega
    rfl
  · dsimp only
    rw [List.length_replicate, Nat.add_assoc, Nat.add_assoc]
    exact mul_add_lt (mul_add_lt hq8 (by omega)) (by omega)

/-! ## Code bytes -/

theorem vmCode_odd (lane q4 : ℕ) {j : ℕ} (hj : j < 4) : vmCode codes base lane (8 * q4 + 2 * j + 1) =
    entry codes (base + q4 * 128 + (4 * lane + j)) &&& 0x0F := by
  rw [vmCode, dimCode, if_neg (by omega), vmByteIndex]
  congr 2
  omega

theorem vmCode_even (lane q4 : ℕ) {j : ℕ} (hj : j < 4) : vmCode codes base lane (8 * q4 + 2 * j) =
    entry codes (base + q4 * 128 + (4 * lane + j)) >>> 4 := by
  rw [vmCode, dimCode, if_pos (by omega), vmByteIndex]
  congr 2
  omega

theorem toNat_and_lo (b : UInt8) : (b &&& 0x0F).toNat < 16 := by
  rw [UInt8.toNat_and]
  exact Nat.lt_of_le_of_lt Nat.and_le_right (by decide)

theorem toNat_shr_lt (b : UInt8) : (b >>> 4).toNat < 16 := by
  have hb := b.toNat_lt
  show b.toNat >>> 4 < 16
  rw [Nat.shiftRight_eq_div_pow]
  omega

theorem dimCode_lt (b : UInt8) (d : ℕ) : (dimCode b d).toNat < 16 := by
  unfold dimCode
  split
  · exact toNat_shr_lt b
  · exact toNat_and_lo b

/-- The bias is exactly 128. -/
theorem toNat_bias (level : Int8) : ((bias level).toNat : ℤ) = level.toInt + 128 := by
  have hall : ∀ n < 256, ((UInt8.ofNat n ^^^ 0x80).toNat : ℤ) = (UInt8.ofNat n).toInt8.toInt + 128 := by decide +kernel
  have h := hall level.toUInt8.toNat level.toUInt8.toNat_lt
  rw [UInt8.ofNat_toNat, Int8.toInt8_toUInt8] at h
  exact h

theorem lookup_bias (hl : levels.length = 16) {idx : ℕ → UInt8} {i : ℕ} (hi : (idx i).toNat < 16) :
    ((lookup (levels.map bias) idx i).toNat : ℤ) = (entry levels (idx i).toNat).toInt + 128 := by
  have hlt : (idx i).toNat < levels.length := by omega
  rw [← toNat_bias]
  congr 2
  apply entry_of_getElem?
  rw [List.getElem?_map, getElem?_eq_entry hlt, Option.map_some]

/-! ## One instruction -/

theorem dpbusd_eq (acc : ℕ → Int32) (a : ℕ → UInt8) (b : ℕ → Int8) (i : ℕ) : dpbusd acc a b i = acc i +
    Int32.ofInt (∑ j ∈ Finset.range 4, ((a (4 * i + j)).toNat : ℤ) * (b (4 * i + j)).toInt) := by
  unfold dpbusd
  apply Wrapped.foldl_add
  intro j _
  rw [← Int32.ofInt_eq_ofNat, Wrapped.ofInt_mul_toInt32]

theorem sdotLane_eq (idx : ℕ) (acc : ℕ → Int32) (a b : ℕ → Int8) (i : ℕ) : sdotLane idx acc a b i = acc i +
    Int32.ofInt (∑ j ∈ Finset.range 4, (a (4 * i + j)).toInt * (b (4 * idx + j)).toInt) := by
  unfold sdotLane
  apply Wrapped.foldl_add
  intro j _
  rw [Wrapped.toInt32_mul_toInt32]

theorem smmla_eq (acc : ℕ → Int32) (a b : ℕ → Int8) (i : ℕ) : smmla acc a b i = acc i +
    Int32.ofInt (∑ k ∈ Finset.range 8, (a (i / 2 * 8 + k)).toInt * (b (i % 2 * 8 + k)).toInt) := by
  unfold smmla
  apply Wrapped.foldl_add
  intro k _
  rw [Wrapped.toInt32_mul_toInt32]

/-! ## The loops -/

/-- Weight times level biased, dimension `d`. -/
def biasedTerm (levels : List Int8) (q : ℕ → Int8) (code : ℕ → UInt8) (d : ℕ) : ℤ :=
  ((entry levels (code d).toNat).toInt + 128) * (q d).toInt

@[simp] theorem levels_buildPermuteDot : (buildPermuteDot levels q dim).levels = levels := rfl

theorem permuteDotX86_eq (hl : levels.length = 16) (hd : dim % 8 = 0) (h i : ℕ) :
    permuteDotX86 (buildPermuteDot levels q dim) codes (dim / 2) base h i =
      Int32.ofInt (-128 * ∑ d ∈ Finset.range dim, (q d).toInt) +
        Int32.ofInt (∑ d ∈ Finset.range dim, biasedTerm levels q (vmCode codes base (16 * h + i)) d) := by
  rw [← @zero_eq levels q dim hd, sum_quads hd, permuteDotX86, show dim / 2 / 4 = dim / 8 by omega]
  apply @Wrapped.foldl_read (ℕ → Int32) (fun acc => acc i)
  intro acc q4 hq
  rw [dpbusd_eq, dpbusd_eq, Int32.add_assoc, ← Int32.ofInt_add, levels_buildPermuteDot]
  have hbyte (j : ℕ) : load codes (base + q4 * 128 + h * 64) (4 * i + j) =
      entry codes (base + q4 * 128 + (4 * (16 * h + i) + j)) := by
    unfold load
    congr 1
    omega
  congr 3
  · apply Finset.sum_congr rfl
    intro j hj
    rw [Finset.mem_range] at hj
    rw [lookup_bias hl (i := 4 * i + j) (toNat_and_lo _), biasedTerm, vmCode_odd _ _ hj, loNibbles, hbyte, set1,
      show q4 * 8 + (4 * i + j) % 4 = q4 * 8 + j by omega, (entry_weights_quad hd hq hj).1]
  · apply Finset.sum_congr rfl
    intro j hj
    rw [Finset.mem_range] at hj
    rw [lookup_bias hl (i := 4 * i + j) (toNat_shr_lt _), biasedTerm, vmCode_even _ _ hj, hiNibbles, hbyte, set1,
      show q4 * 8 + 4 + (4 * i + j) % 4 = q4 * 8 + 4 + j by omega, (entry_weights_quad hd hq hj).2]

/-- Two `SDOT`s over a quad: its odd dimensions, then its even ones. -/
theorem sdotLane_quad (hd : dim % 8 = 0) {q4 idx : ℕ} (hq : q4 < dim / 8) {w : ℕ → Int8}
    (hw : ∀ i < 8, w (4 * idx + i) = entry (buildPermuteDot levels q dim).weights (q4 * 8 + i)) (acc : ℕ → Int32)
    (r i : ℕ) :
    sdotLane (idx + 1) (sdotLane idx acc (lookup levels (loNibbles (load codes (base + q4 * 128 + r * 16)))) w)
        (lookup levels (hiNibbles (load codes (base + q4 * 128 + r * 16)))) w i =
      acc i + Int32.ofInt ((∑ j ∈ Finset.range 4, term levels q (vmCode codes base (4 * r + i)) (8 * q4 + 2 * j + 1)) +
        ∑ j ∈ Finset.range 4, term levels q (vmCode codes base (4 * r + i)) (8 * q4 + 2 * j)) := by
  rw [sdotLane_eq, sdotLane_eq, Int32.add_assoc, ← Int32.ofInt_add]
  have hbyte (j : ℕ) : load codes (base + q4 * 128 + r * 16) (4 * i + j) =
      entry codes (base + q4 * 128 + (4 * (4 * r + i) + j)) := by
    unfold load
    congr 1
    omega
  congr 3
  · apply Finset.sum_congr rfl
    intro j hj
    rw [Finset.mem_range] at hj
    rw [hw j (by omega), (entry_weights_quad hd hq hj).1, lookup, loNibbles, hbyte, term, vmCode_odd _ _ hj,
      Int.mul_comm]
  · apply Finset.sum_congr rfl
    intro j hj
    rw [Finset.mem_range] at hj
    rw [show 4 * (idx + 1) + j = 4 * idx + (4 + j) by omega, hw (4 + j) (by omega), ← Nat.add_assoc,
      (entry_weights_quad hd hq hj).2, lookup, hiNibbles, hbyte, term, vmCode_even _ _ hj, Int.mul_comm]

theorem permuteDotNeon_eq (hd : dim % 8 = 0) (r i : ℕ) :
    permuteDotNeon (buildPermuteDot levels q dim) codes (dim / 2) base r i =
      Int32.ofInt (exactDot levels q (vmCode codes base (4 * r + i)) dim) := by
  rw [exactDot, sum_quads hd, ← Wrapped.sum_range_pairs, permuteDotNeon, show dim / 2 / 4 = dim / 8 by omega,
    ← Int32.zero_add (Int32.ofInt _)]
  apply @Wrapped.foldl_read (ℕ → Int32) (fun acc => acc i)
  intro acc s hs
  dsimp only
  have hq : 2 * s < dim / 8 := by omega
  have hfirst : ∀ k < 8, (if 2 * s + 1 < dim / 8 ∨ 4 * 0 + k < 8 then
      load (buildPermuteDot levels q dim).weights (2 * s * 8) (4 * 0 + k) else 0) =
        entry (buildPermuteDot levels q dim).weights (2 * s * 8 + k) := by
    intro k hk
    rw [if_pos (Or.inr (by omega)), load, Nat.mul_zero, Nat.zero_add]
  rw [levels_buildPermuteDot]
  split
  · rename_i hpair
    have hsecond : ∀ k < 8, (if 2 * s + 1 < dim / 8 ∨ 4 * 2 + k < 8 then
        load (buildPermuteDot levels q dim).weights (2 * s * 8) (4 * 2 + k) else 0) =
          entry (buildPermuteDot levels q dim).weights ((2 * s + 1) * 8 + k) := by
      intro k _
      rw [if_pos (Or.inl hpair), load]
      congr 1
      omega
    rw [sdotLane_quad hd hpair hsecond, sdotLane_quad hd hq hfirst, Int32.add_assoc, ← Int32.ofInt_add]
  · rw [sdotLane_quad hd hq hfirst, Int.add_zero]

/-- A column of the zipped operand is a vector's eight dimensions in order. -/
theorem zip_lookup (q4 t : ℕ) {c k : ℕ} (_ : c < 2) (hk : k < 8) :
    (if t % 2 = 0 then zip1 (lookup levels (hiNibbles (load codes (base + q4 * 128 + t / 2 * 16))))
        (lookup levels (loNibbles (load codes (base + q4 * 128 + t / 2 * 16))))
      else zip2 (lookup levels (hiNibbles (load codes (base + q4 * 128 + t / 2 * 16))))
        (lookup levels (loNibbles (load codes (base + q4 * 128 + t / 2 * 16))))) (c * 8 + k) =
      entry levels (vmCode codes base (2 * t + c) (8 * q4 + k)).toNat := by
  have hbyte : load codes (base + q4 * 128 + t / 2 * 16) (t % 2 * 8 + (c * 8 + k) / 2) =
      entry codes (base + q4 * 128 + (4 * (2 * t + c) + k / 2)) := by
    unfold load
    congr 1
    omega
  have hcode : (if (c * 8 + k) % 2 = 0 then
        lookup levels (hiNibbles (load codes (base + q4 * 128 + t / 2 * 16))) (t % 2 * 8 + (c * 8 + k) / 2)
      else lookup levels (loNibbles (load codes (base + q4 * 128 + t / 2 * 16))) (t % 2 * 8 + (c * 8 + k) / 2)) =
        entry levels (vmCode codes base (2 * t + c) (8 * q4 + k)).toNat := by
    split
    · rw [lookup, hiNibbles, hbyte, show 8 * q4 + k = 8 * q4 + 2 * (k / 2) by omega, vmCode_even _ _ (by omega)]
    · rw [lookup, loNibbles, hbyte, show 8 * q4 + k = 8 * q4 + 2 * (k / 2) + 1 by omega, vmCode_odd _ _ (by omega)]
  rw [← hcode]
  split
  · rename_i ht
    rw [zip1, ht, Nat.zero_mul, Nat.zero_add]
  · rename_i ht
    rw [zip2, show t % 2 * 8 = 8 by omega]

theorem smmlaTile_eq {qs : List (ℕ → Int8)} (hd : dim % 8 = 0) {i : ℕ} (hi : i < qs.length / 2 * 2)
    (hq : qs[i]? = some q) (v : ℕ) :
    tileLane (smmlaTile levels (buildSmmlaA (qs.map fun q => buildPermuteDot levels q dim) (dim / 2 / 4)) codes
      (qs.length / 2) (dim / 2) base) i v = Int32.ofInt (exactDot levels q (vmCode codes base v) dim) := by
  rw [exactDot, show Finset.range dim = Finset.range (dim / 8 * 8) by congr 1; omega, Wrapped.sum_range_mul, tileLane,
    smmlaTile, show dim / 2 / 4 = dim / 8 by omega, ← Int32.zero_add (Int32.ofInt _)]
  apply @Wrapped.foldl_read (ℕ → Int32) (fun acc => acc (i % 2 * 2 + v % 2))
  intro acc q4 hq4
  rw [smmla_eq, show (i % 2 * 2 + v % 2) / 2 = i % 2 by omega, show (i % 2 * 2 + v % 2) % 2 = v % 2 by omega]
  refine congrArg (fun m => _ + Int32.ofInt m) (Finset.sum_congr rfl fun k hk => ?_)
  rw [Finset.mem_range] at hk
  rw [load_smmlaA hd hi hq hq4 hk, zip_lookup q4 (v / 2) (by omega) hk, show 2 * (v / 2) + v % 2 = v by omega, term,
    Nat.mul_comm 8 q4]

theorem smmlaTileVm8_eq {qs : List (ℕ → Int8)} (hd : dim % 16 = 0) {i : ℕ} (hi : i < qs.length / 2 * 2)
    (hq : qs[i]? = some q) (v : ℕ) :
    tileLane (smmlaTileVm8 levels (buildSmmlaAVm8 (qs.map fun q => buildPermuteDot levels q dim) (dim / 2 / 8)) codes
      (qs.length / 2) (dim / 2) base) i v = Int32.ofInt (exactDot levels q (vm8Code codes base v) dim) := by
  rw [exactDot, sum_octs hd, tileLane, smmlaTileVm8, show dim / 2 / 8 = dim / 16 by omega,
    ← Int32.zero_add (Int32.ofInt _)]
  apply @Wrapped.foldl_read (ℕ → Int32) (fun acc => acc (i % 2 * 2 + v % 2))
  intro acc q8 hq8
  have hbyte (j : ℕ) : load codes (base + q8 * 256 + v / 2 * 16) (v % 2 * 8 + j) =
      entry codes (base + q8 * 256 + v / 2 * 16 + v % 2 * 8 + j) := by
    rw [load, Nat.add_assoc _ (v % 2 * 8)]
  have hindex {d j : ℕ} (hj : j < 8) (hdj : d / 2 = 8 * q8 + j) :
      vm8ByteIndex base (d / 2) v = base + q8 * 256 + v / 2 * 16 + v % 2 * 8 + j := by
    rw [hdj, vm8ByteIndex, show (8 * q8 + j) / 8 = q8 by omega, show (8 * q8 + j) % 8 = j by omega]
    rfl
  rw [smmla_eq, smmla_eq, show (i % 2 * 2 + v % 2) / 2 = i % 2 by omega, show (i % 2 * 2 + v % 2) % 2 = v % 2 by omega,
    Int32.add_assoc, ← Int32.ofInt_add]
  refine congrArg (fun m => _ + Int32.ofInt m) (congrArg₂ (· + ·) ?_ ?_)
  · apply Finset.sum_congr rfl
    intro j hj
    rw [Finset.mem_range] at hj
    have hload := @load_smmlaAVm8 levels q dim qs hd i q8 j 0 hi hq hq8 hj (by decide)
    rw [Nat.zero_mul, Nat.add_zero] at hload
    rw [hload, lookup, hiNibbles, hbyte, term, vm8Code, hindex hj (by omega), dimCode, if_pos (by omega), Nat.add_zero]
  · apply Finset.sum_congr rfl
    intro j hj
    rw [Finset.mem_range] at hj
    have hload := @load_smmlaAVm8 levels q dim qs hd i q8 j 1 hi hq hq8 hj (by decide)
    rw [Nat.one_mul] at hload
    rw [hload, lookup, loNibbles, hbyte, term, vm8Code, hindex hj (by omega), dimCode, if_neg (by omega)]

/-! ## No sum leaves 32 bits -/

theorem abs_toInt_le (a : Int8) : |a.toInt| ≤ 128 := by
  have hlo := a.le_toInt
  have hhi := a.toInt_lt
  rw [abs_le]
  omega

theorem abs_term_le (code : ℕ → UInt8) (d : ℕ) : |term levels q code d| ≤ 16384 := by
  rw [term, abs_mul]
  calc |(q d).toInt| * |(entry levels (code d).toNat).toInt| ≤ 128 * 128 :=
        mul_le_mul (abs_toInt_le _) (abs_toInt_le _) (abs_nonneg _) (by decide)
    _ = 16384 := by decide

theorem abs_biasedTerm_le (code : ℕ → UInt8) (d : ℕ) : |biasedTerm levels q code d| ≤ 32640 := by
  have hlevel : |(entry levels (code d).toNat).toInt + 128| ≤ 255 := by
    have hlo := (entry levels (code d).toNat).le_toInt
    have hhi := (entry levels (code d).toNat).toInt_lt
    rw [abs_le]
    omega
  rw [biasedTerm, abs_mul]
  calc |(entry levels (code d).toNat).toInt + 128| * |(q d).toInt| ≤ 255 * 128 :=
        mul_le_mul hlevel (abs_toInt_le _) (abs_nonneg _) (by decide)
    _ = 32640 := by decide

/-- Any part of the terms sums within 32 bits, signed or from the seed. -/
theorem partial_fits (hmax : dim ≤ MAX_DIM) (code : ℕ → UInt8) {S : Finset ℕ} (hS : S ⊆ Finset.range dim) :
    |∑ d ∈ S, term levels q code d| < 2 ^ 31 ∧
      |-128 * ∑ d ∈ Finset.range dim, (q d).toInt + ∑ d ∈ S, biasedTerm levels q code d| < 2 ^ 31 := by
  have hdim : (dim : ℤ) ≤ 16384 := Int.ofNat_le.2 hmax
  have hterms := Wrapped.abs_sum_le hS (by decide) fun d _ => @abs_term_le levels q code d
  have hbiased := Wrapped.abs_sum_le hS (by decide) fun d _ => @abs_biasedTerm_le levels q code d
  have hweights := Wrapped.abs_sum_le (Finset.Subset.refl (Finset.range dim)) (by decide) fun d _ => abs_toInt_le (q d)
  rw [abs_le] at hterms hbiased hweights
  rw [abs_lt, abs_lt]
  omega

theorem toInt_exactDot (hmax : dim ≤ MAX_DIM) (code : ℕ → UInt8) :
    (Int32.ofInt (exactDot levels q code dim)).toInt = exactDot levels q code dim := by
  have hfits := (@partial_fits levels q dim hmax code _ (Finset.Subset.refl _)).1
  rw [abs_lt] at hfits
  exact Int32.toInt_ofInt_of_le (by unfold exactDot; omega) hfits.2

/-- The seed takes the bias off again. -/
theorem biased_eq (code : ℕ → UInt8) : -128 * ∑ d ∈ Finset.range dim, (q d).toInt +
    ∑ d ∈ Finset.range dim, biasedTerm levels q code d = exactDot levels q code dim := by
  rw [exactDot, Finset.mul_sum, ← Finset.sum_add_distrib]
  apply Finset.sum_congr rfl
  intro d _
  rw [biasedTerm, term]
  ring

/-- Every kernel ends with the integer of the row, and no sum on the way to it leaves 32 bits, in whatever
order the terms are added. -/
theorem permute_dot_exact (hl : levels.length = 16) (hd : dim % 8 = 0) (hmax : dim ≤ MAX_DIM) (q : ℕ → Int8)
    (codes : List UInt8) (base : ℕ) :
    (∀ v, (permuteDotX86 (buildPermuteDot levels q dim) codes (dim / 2) base (v / 16) (v % 16)).toInt =
      exactDot levels q (vmCode codes base v) dim) ∧
    (∀ v, (permuteDotNeon (buildPermuteDot levels q dim) codes (dim / 2) base (v / 4) (v % 4)).toInt =
      exactDot levels q (vmCode codes base v) dim) ∧
    (∀ (qs : List (ℕ → Int8)) (i : ℕ), i < qs.length / 2 * 2 → qs[i]? = some q → ∀ v,
      (tileLane (smmlaTile levels (buildSmmlaA (qs.map fun q => buildPermuteDot levels q dim) (dim / 2 / 4)) codes
        (qs.length / 2) (dim / 2) base) i v).toInt = exactDot levels q (vmCode codes base v) dim) ∧
    (dim % 16 = 0 → ∀ (qs : List (ℕ → Int8)) (i : ℕ), i < qs.length / 2 * 2 → qs[i]? = some q → ∀ v,
      (tileLane (smmlaTileVm8 levels (buildSmmlaAVm8 (qs.map fun q => buildPermuteDot levels q dim) (dim / 2 / 8)) codes
        (qs.length / 2) (dim / 2) base) i v).toInt = exactDot levels q (vm8Code codes base v) dim) ∧
    ∀ (code : ℕ → UInt8) (S : Finset ℕ), S ⊆ Finset.range dim → |∑ d ∈ S, term levels q code d| < 2 ^ 31 ∧
      |-128 * ∑ d ∈ Finset.range dim, (q d).toInt + ∑ d ∈ S, biasedTerm levels q code d| < 2 ^ 31 := by
  refine ⟨fun v => ?_, fun v => ?_, fun qs i hi hq v => ?_, fun hd' qs i hi hq v => ?_,
    fun code S hS => partial_fits hmax code hS⟩
  · rw [permuteDotX86_eq hl hd, ← Int32.ofInt_add, biased_eq, Nat.div_add_mod, toInt_exactDot hmax]
  · rw [permuteDotNeon_eq hd, Nat.div_add_mod, toInt_exactDot hmax]
  · rw [smmlaTile_eq hd hi hq, toInt_exactDot hmax]
  · rw [smmlaTileVm8_eq hd' hi hq, toInt_exactDot hmax]

end

/-- A block of one byte throughout, its even codes 1 and its odd ones 15. -/
theorem permute_dot_exact_eight :
    (permuteDotX86 (buildPermuteDot [-8, -7, -6, -5, -4, -3, -2, -1, 0, 1, 2, 3, 4, 5, 6, 7] (fun d => Int8.ofNat d) 8)
      (List.replicate 128 0x1F) 4 0 0 0).toInt = 28 := by
  have h := (@permute_dot_exact [-8, -7, -6, -5, -4, -3, -2, -1, 0, 1, 2, 3, 4, 5, 6, 7] 8 rfl rfl (by decide)
    (fun d => Int8.ofNat d) (List.replicate 128 0x1F) 0).1 0
  rw [show (28 : ℤ) = exactDot [-8, -7, -6, -5, -4, -3, -2, -1, 0, 1, 2, 3, 4, 5, 6, 7] (fun d => Int8.ofNat d)
    (vmCode (List.replicate 128 0x1F) 0 0) 8 by decide +kernel]
  exact h

end Turbovec.Scan
