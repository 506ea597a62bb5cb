import Turbovec.Pack.PlanesSeq

/-!
# Block units

A file stores whole blocks as *units*: a block's sequential code bytes, or its sign bytes in the
canonical order (group `g` of lane `l` at `g * 32 + l`) followed by its low rows. This module has the
windows of whole blocks the writer cuts out of a cache, the canonical regions the loader fills, and the
packed row a unit gives each of its lanes.
-/

namespace Turbovec.Pack

open LittleEndian Slice Grid

/-! ## Windows of whole blocks -/

section Windows

variable {P : Platform} {bits nbg dim n first k : ℕ}

/-- The rows in `k` blocks from block `first` on. -/
def windowRows (n first k : ℕ) : ℕ := min (k * 32) (n - first * 32)

theorem windowRows_blocks (h : first + k ≤ (n + 31) / 32) :
    (windowRows n first k + 31) / 32 = k := by
  simp only [windowRows]
  omega

theorem windowRows_lt {v : ℕ} (hv : v < windowRows n first k) : first * 32 + v < n := by
  simp only [windowRows] at hv
  omega

theorem length_window {l : List UInt8} {m d : ℕ} (hl : l.length = m * d) (h : first + k ≤ m) :
    ((l.drop (first * d)).take (k * d)).length = k * d := by
  have hle : (first + k) * d ≤ m * d := Nat.mul_le_mul_right _ h
  rw [Nat.add_mul] at hle
  rw [List.length_take, List.length_drop]
  omega

theorem entry_window {l : List UInt8} {d i j : ℕ} (hi : i < k) (hj : j < d) :
    entry ((l.drop (first * d)).take (k * d)) (i * d + j) = entry l ((first + i) * d + j) := by
  rw [entry_take (mul_add_lt hi hj), entry_drop, ← Nat.add_assoc, Nat.add_mul]

theorem lanesHold_window {f : ℕ → ℕ → UInt8} {blocked : List UInt8}
    (h : LanesHold P bits nbg n f blocked) (hk : first + k ≤ (n + 31) / 32) :
    LanesHold P bits nbg (windowRows n first k) (fun v => f (first * 32 + v))
      ((blocked.drop (first * (nbg * 32))).take (k * (nbg * 32))) := by
  have hblocks := windowRows_blocks hk
  refine .of_lt ?_ fun v hv g hg => ?_
  · rw [hblocks, length_window h.length_eq hk]
  · rw [hblocks] at hv
    have hb : v / BLOCK < k := by simp only [BLOCK]; omega
    have hmod : (first * 32 + v) % BLOCK = v % BLOCK := by simp only [BLOCK]; omega
    have hdiv : (first * 32 + v) / BLOCK = first + v / BLOCK := by simp only [BLOCK]; omega
    have hread : laneCode P ((blocked.drop (first * (nbg * 32))).take (k * (nbg * 32))) bits nbg v g =
        laneCode P blocked bits nbg (first * 32 + v) g := by
      rw [laneCode, laneCode, hmod, hdiv]
      exact readCode_congr hg (Nat.mod_lt _ (by decide)) fun j hj => entry_window hb hj
    rw [hread, h.code _ g hg]
    refine if_congr ?_ rfl rfl
    simp only [windowRows]
    omega

theorem planesHold_window {f : ℕ → List UInt8} {sign low : List UInt8} (hb : PlanesBits bits)
    (h : PlanesHold P bits dim n f sign low) (hf : ∀ v < n, (f v).length = bits * (dim / 8))
    (hk : first + k ≤ (n + 31) / 32) :
    PlanesHold P bits dim (windowRows n first k) (fun v => f (first * 32 + v))
      ((sign.drop (first * (dim / 8 * 32))).take (k * (dim / 8 * 32)))
      ((low.drop (first * 32 * ((bits - 1) * (dim / 8)))).take
        (windowRows n first k * ((bits - 1) * (dim / 8)))) where
  sign := lanesHold_window h.sign hk
  low := by
    by_cases hempty : windowRows n first k = 0
    · rw [hempty, Nat.zero_mul, List.take_zero]
      rfl
    · have hfit : first * 32 + windowRows n first k ≤ n := by
        simp only [windowRows] at hempty ⊢
        omega
      rw [h.low]
      exact drop_take_flatMap_range (fun v hv => length_lowPart hb (hf v hv)) hfit

end Windows

/-! ## Sequential codes -/

section Seq

variable {nbg n : ℕ} {f : ℕ → ℕ → UInt8} {seq : List UInt8}

/-- The whole blocks one after the other, then zeros up to whole blocks. -/
theorem seqHold_of_pieces {piece : ℕ → List UInt8}
    (hp : ∀ b < n / 32, (piece b).length = nbg * 32) :
    SeqHold nbg n (fun v g => if v < n / 32 * 32 then entry (piece (v / 32)) (g * 32 + v % 32) else 0)
      (resize ((List.range (n / 32)).flatMap piece) ((n + 31) / 32 * (nbg * 32))) := by
  have hlen := length_flatMap_range hp
  have hle : n / 32 * (nbg * 32) ≤ (n + 31) / 32 * (nbg * 32) :=
    Nat.mul_le_mul_right _ (by omega)
  rw [resize, List.take_of_length_le (by omega), hlen]
  refine ⟨by rw [List.length_append, hlen, List.length_replicate]; omega, fun v hv g hg => ?_⟩
  have hlane : v % 32 < 32 := Nat.mod_lt _ (by decide)
  have hoff : (v / 32 * nbg + g) * 32 + v % 32 = v / 32 * (nbg * 32) + (g * 32 + v % 32) := by ring
  rw [hoff]
  by_cases hb : v / 32 < n / 32
  · rw [if_pos (show v < n by omega), if_pos (show v < n / 32 * 32 by omega),
      entry_append_left (by rw [hlen]; exact mul_add_lt hb (mul_add_lt hg hlane)),
      entry_flatMap_range hp hb (mul_add_lt hg hlane)]
  · have hge : n / 32 * (nbg * 32) ≤ v / 32 * (nbg * 32) := Nat.mul_le_mul_right _ (by omega)
    rw [entry_append_right (by omega), entry_replicate_zero, if_neg (show ¬ v < n / 32 * 32 by omega),
      ite_self]

/-- Writing one row's codes into the sequential form. -/
theorem SeqHold.writeRow (h : SeqHold nbg n f seq) {v : ℕ} (hv : v < n) (codes : List UInt8) :
    SeqHold nbg n (fun w g => if w = v then entry codes g else f w g)
      (scatter (fun g => v / 32 * (nbg * 32) + g * 32 + v % 32) (entry codes) (List.range nbg) seq) := by
  have hpos (g : ℕ) : v / 32 * (nbg * 32) + g * 32 + v % 32 = (v / 32 * nbg + g) * 32 + v % 32 := by
    ring
  have hlane : ∀ u : ℕ, u % 32 < 32 := fun u => Nat.mod_lt _ (by decide)
  simp only [hpos]
  refine ⟨(length_scatter _ _ _ _).trans h.length_eq, fun w hw g hg => ?_⟩
  by_cases hwv : w = v
  · subst hwv
    rw [if_pos hv, if_pos rfl]
    refine @entry_scatter _ _ _ (fun g => (w / 32 * nbg + g) * 32 + w % 32) _ _ _ g
      (List.mem_range.2 hg) (fun y _ hy => ?_) ?_
    · rw [show y = g by omega]
    · rw [h.length_eq, ← Nat.mul_assoc]
      exact mul_add_lt (mul_add_lt (by omega) hg) (hlane w)
  · rw [if_neg hwv, ← h.code w hw g hg]
    refine entry_congr (getElem?_scatter_of_forall_ne fun y hy heq => hwv ?_)
    obtain ⟨h1, h2⟩ := mul_add_inj (hlane v) (hlane w) heq
    obtain ⟨h3, -⟩ := mul_add_inj (List.mem_range.1 hy) hg h1
    omega

end Seq

/-! ## Canonical regions -/

/-- The canonical regions hold the two parts of the packed rows `f 0 .. f (n - 1)`. -/
structure CanonicalHold (bits dim n : ℕ) (f : ℕ → List UInt8) (sign low : List UInt8) : Prop where
  sign : SeqHold (dim / 8) n (fun v g => entry (signPart bits dim (f v)) g) sign
  low : low = (List.range n).flatMap fun v => lowPart bits dim (f v)

section Canonical

variable {P : Platform} {bits dim n : ℕ} {f : ℕ → List UInt8} {sign low : List UInt8}

/-- Under the planes layout the sign region's host order is that of a 2-bit code buffer. -/
theorem planesSignToNative_eq (hp : planesFor P bits (dim / codesPerByte bits) = true)
    (hd : dim % 8 = 0) (sign : List UInt8) :
    planesSignToNative P sign (dim / 8) = seqIntoNative P sign 2 (dim / 8) ∧
      (if planesSignPermuted P (dim / 8) then vectorMajorToSeqChunk sign else sign) =
        nativeToSeq P sign 2 (dim / 8) := by
  have h8 : vm8For P 2 (dim / 8) = false := by
    rcases planesBits_of_planesFor hp with rfl | rfl <;>
      by_cases hx : P.arch = .x86_64 <;>
        simp [planesFor, hx, vm8For, vm8TwoBitFor, useVm8] at hp ⊢ <;> tauto
  by_cases hx : P.arch = .x86_64
  · have hvm : vectorMajorFor P 2 (dim / 8) = true := by
      rcases planesBits_of_planesFor hp with rfl | rfl <;>
        simp only [planesFor, hx, if_true, Bool.and_eq_true, beq_iff_eq, codesPerByte] at hp <;>
        simp only [vectorMajorFor, hx, hp, decide_true, Bool.true_or, Bool.true_and,
          beq_iff_eq] <;> omega
    simp [planesSignToNative, planesSignPermuted, seqIntoNative, nativeToSeq, nativeTransform, h8,
      hvm, hx]
  · have hvm : vectorMajorFor P 2 (dim / 8) = false := by simp [vectorMajorFor, hx]
    have ha : P.arch = .aarch64 := by
      rcases planesBits_of_planesFor hp with rfl | rfl <;>
        simp only [planesFor, hx, if_false, Bool.and_eq_true, decide_eq_true_eq] at hp <;> tauto
    simp [planesSignToNative, planesSignPermuted, seqIntoNative, nativeToSeq, nativeTransform, h8,
      hvm, ha]

theorem CanonicalHold.congr {f' : ℕ → List UInt8} (h : CanonicalHold bits dim n f sign low)
    (hf : ∀ v < n, f v = f' v) : CanonicalHold bits dim n f' sign low where
  sign := h.sign.congr fun v hv g _ => by rw [hf v hv]
  low := by
    rw [h.low]
    exact List.flatMap_congr fun v hv => by rw [hf v (List.mem_range.1 hv)]

/-- A canonical sign region in the host's order. -/
theorem CanonicalHold.toNative (h : CanonicalHold bits dim n f sign low)
    (hp : planesFor P bits (dim / codesPerByte bits) = true) (hd : dim % 8 = 0) :
    PlanesHold P bits dim n f (planesSignToNative P sign (dim / 8)) low where
  sign := by
    rw [(planesSignToNative_eq hp hd sign).1]
    exact lanesHold_seqIntoNative h.sign
  low := h.low

theorem CanonicalHold.toPacked (hb : PlanesBits bits) (hd : dim % 8 = 0)
    (h : CanonicalHold bits dim n f sign low) (hf : ∀ v < n, (f v).length = bits * (dim / 8)) :
    planesCanonicalToPacked sign low bits (dim / codesPerByte bits) n = (List.range n).flatMap f := by
  simp only [planesCanonicalToPacked, planesGeom_eq hb hd]
  refine List.flatMap_congr fun v hv => ?_
  have hvn := List.mem_range.1 hv
  have hlow : rowAt low ((bits - 1) * (dim / 8)) v = lowPart bits dim (f v) := by
    rw [h.low, rowAt_flatMap_range (fun v hv => length_lowPart hb (hf v hv)) hvn]
  conv_rhs => rw [← @lowPart_append_signPart bits dim (f v)]
  rw [hlow]
  congr 1
  refine (eq_tabulate (length_signPart hb (hf v hvn)) fun g hg => ?_).symm
  have hcode := h.sign.code v (lt_blocks hvn) g hg
  rw [if_pos hvn] at hcode
  rw [getElem?_eq_entry (by rwa [length_signPart hb (hf v hvn)]), ← hcode]
  congr 2
  simp only [BLOCK]
  ring

/-- Writing one row into the canonical regions. -/
theorem CanonicalHold.writeRow (hb : PlanesBits bits) (hd : dim % 8 = 0)
    (h : CanonicalHold bits dim n f sign low) (hf : ∀ v < n, (f v).length = bits * (dim / 8))
    {v : ℕ} (hv : v < n) (codes : List UInt8) :
    CanonicalHold bits dim n (fun w => if w = v then packRow bits dim codes else f w)
      (planesWriteRowCanonical sign low bits (dim / codesPerByte bits) v codes).1
      (planesWriteRowCanonical sign low bits (dim / codesPerByte bits) v codes).2 := by
  have hrow := length_packRow bits dim codes
  simp only [planesWriteRowCanonical, planesGeom_eq hb hd, planesRowFromCodes_eq hb hd]
  constructor
  · have hpos (g : ℕ) : v / BLOCK * (dim / 8) * BLOCK + g * BLOCK + v % BLOCK =
        v / 32 * (dim / 8 * 32) + g * 32 + v % 32 := by
      simp only [BLOCK]
      ring
    simp only [hpos]
    exact (h.sign.writeRow hv _).congr fun w _ g _ => by split <;> rfl
  · have hlen : ∀ w < n, (lowPart bits dim (f w)).length = (bits - 1) * (dim / 8) :=
      fun w hw => length_lowPart hb (hf w hw)
    have hlen' : ∀ w < n, (lowPart bits dim (if w = v then packRow bits dim codes else f w)).length =
        (bits - 1) * (dim / 8) := by
      intro w hw
      split
      · exact length_lowPart hb hrow
      · exact hlen w hw
    have hl : low.length = n * ((bits - 1) * (dim / 8)) := by rw [h.low, length_flatMap_range hlen]
    have hfit : (v + 1) * ((bits - 1) * (dim / 8)) ≤ n * ((bits - 1) * (dim / 8)) :=
      Nat.mul_le_mul_right _ hv
    rw [Nat.add_mul, Nat.one_mul] at hfit
    refine ext_grid (by rw [length_overwrite (by rw [length_lowPart hb hrow]; omega), hl])
      (length_flatMap_range hlen') fun w hw j hj => ?_
    rw [getElem?_flatMap_range hlen' hw hj, getElem?_overwrite (by omega), length_lowPart hb hrow]
    by_cases hwv : w = v
    · subst hwv
      rw [if_pos (by omega), if_pos rfl, Nat.add_sub_cancel_left]
    · rw [if_neg fun hin => hwv ?_, if_neg hwv, h.low, getElem?_flatMap_range hlen hw hj]
      exact (mul_add_inj hj
        (show w * ((bits - 1) * (dim / 8)) + j - v * ((bits - 1) * (dim / 8)) < _ by omega)
        (show w * ((bits - 1) * (dim / 8)) + j = v * ((bits - 1) * (dim / 8)) +
          (w * ((bits - 1) * (dim / 8)) + j - v * ((bits - 1) * (dim / 8))) by omega)).1

end Canonical

/-! ## A unit's code bytes -/

/-- The packed row a sequential unit gives a lane. -/
def seqUnitRow (bits dim : ℕ) (u : List UInt8) (lane : ℕ) : List UInt8 :=
  packRow bits dim (seqLane u (dim / codesPerByte bits) lane)

/-- The packed row a planes unit gives a lane: its low row, then its sign bytes. -/
def planesUnitRow (bits dim : ℕ) (u : List UInt8) (lane : ℕ) : List UInt8 :=
  rowAt (u.drop (dim / 8 * 32)) ((bits - 1) * (dim / 8)) lane ++
    tabulate (dim / 8) fun g => entry u (g * 32 + lane)

/-- The code bytes of the planes unit over the packed rows `rows 0 .. rows 31`. -/
def planesUnit (bits dim : ℕ) (rows : ℕ → List UInt8) : List UInt8 :=
  ((List.range (dim / 8)).flatMap fun g =>
      tabulate 32 fun lane => entry (signPart bits dim (rows lane)) g) ++
    (List.range 32).flatMap fun lane => lowPart bits dim (rows lane)

section Unit

variable {P : Platform} {bits dim n : ℕ} {f : ℕ → List UInt8} {sign low : List UInt8}

theorem length_planesUnitSign (rows : ℕ → List UInt8) : ((List.range (dim / 8)).flatMap fun g =>
    tabulate 32 fun lane => entry (signPart bits dim (rows lane)) g).length = dim / 8 * 32 :=
  length_flatMap_range fun _ _ => length_tabulate _ _

theorem length_planesUnit (hb : PlanesBits bits) (hd : dim % 8 = 0) {rows : ℕ → List UInt8}
    (hf : ∀ v < 32, (rows v).length = bits * (dim / 8)) :
    (planesUnit bits dim rows).length = 32 * (dim / codesPerByte bits) := by
  rw [planesUnit, List.length_append, length_planesUnitSign,
    length_flatMap_range fun v hv => length_lowPart hb (hf v hv)]
  rcases hb with rfl | rfl <;> simp only [codesPerByte] <;> omega

theorem planesUnitRow_planesUnit (hb : PlanesBits bits) {rows : ℕ → List UInt8}
    (hf : ∀ v < 32, (rows v).length = bits * (dim / 8)) {lane : ℕ} (hl : lane < 32)
    (rest : List UInt8) : planesUnitRow bits dim (planesUnit bits dim rows ++ rest) lane = rows lane := by
  have hsign := @length_planesUnitSign bits dim rows
  have hlow : ∀ v < 32, (lowPart bits dim (rows v)).length = (bits - 1) * (dim / 8) :=
    fun v hv => length_lowPart hb (hf v hv)
  have hlen := length_flatMap_range hlow
  have hle : (lane + 1) * ((bits - 1) * (dim / 8)) ≤ 32 * ((bits - 1) * (dim / 8)) :=
    Nat.mul_le_mul_right _ hl
  rw [Nat.add_mul, Nat.one_mul] at hle
  conv_rhs => rw [← @lowPart_append_signPart bits dim (rows lane)]
  rw [planesUnitRow, planesUnit, List.append_assoc, List.drop_left' hsign]
  congr 1
  · rw [rowAt, List.drop_append_of_le_length (by omega),
      List.take_append_of_le_length (by rw [List.length_drop]; omega)]
    exact rowAt_flatMap_range hlow hl
  · refine (eq_tabulate (length_signPart hb (hf lane hl)) fun g hg => ?_).symm
    rw [getElem?_eq_entry (by rwa [length_signPart hb (hf lane hl)]),
      entry_append_left (by rw [hsign]; exact mul_add_lt hg hl),
      entry_flatMap_range (fun _ _ => length_tabulate _ _) hg hl, entry_tabulate _ hl]

theorem length_planesUnitRow (hb : PlanesBits bits) {u : List UInt8} {lane : ℕ} (hl : lane < 32)
    (hu : 32 * (bits * (dim / 8)) ≤ u.length) :
    (planesUnitRow bits dim u lane).length = bits * (dim / 8) := by
  have hsplit := @low_add_sign bits dim hb
  have hle : (lane + 1) * ((bits - 1) * (dim / 8)) ≤ 32 * ((bits - 1) * (dim / 8)) :=
    Nat.mul_le_mul_right _ hl
  rw [Nat.add_mul, Nat.one_mul] at hle
  rw [planesUnitRow, List.length_append, length_tabulate, rowAt, List.length_take, List.length_drop,
    List.length_drop]
  omega

/-- The sign and low bytes of whole units, then zeros up to whole blocks. -/
theorem canonicalHold_of_pieces (hb : PlanesBits bits) {u : ℕ → List UInt8}
    (hu : ∀ b < n / 32, 32 * (bits * (dim / 8)) ≤ (u b).length) :
    CanonicalHold bits dim n
      (fun v => if v < n / 32 * 32 then planesUnitRow bits dim (u (v / 32)) (v % 32)
        else List.replicate (bits * (dim / 8)) 0)
      (resize ((List.range (n / 32)).flatMap fun b => (u b).take (dim / 8 * 32))
        ((n + 31) / 32 * (dim / 8 * 32)))
      (resize ((List.range (n / 32)).flatMap fun b =>
        ((u b).drop (dim / 8 * 32)).take (32 * ((bits - 1) * (dim / 8))))
        (n * ((bits - 1) * (dim / 8)))) := by
  have hsplit := @low_add_sign bits dim hb
  have hlane (v : ℕ) : v % 32 < 32 := Nat.mod_lt _ (by decide)
  have hlow {b : ℕ} (hbn : b < n / 32) :
      (((u b).drop (dim / 8 * 32)).take (32 * ((bits - 1) * (dim / 8)))).length =
        32 * ((bits - 1) * (dim / 8)) := by
    have := hu b hbn
    rw [List.length_take, List.length_drop]
    omega
  have hrow {b lane : ℕ} (hbn : b < n / 32) (hl : lane < 32) :
      (rowAt ((u b).drop (dim / 8 * 32)) ((bits - 1) * (dim / 8)) lane).length =
        (bits - 1) * (dim / 8) := by
    have := hu b hbn
    have hle : (lane + 1) * ((bits - 1) * (dim / 8)) ≤ 32 * ((bits - 1) * (dim / 8)) :=
      Nat.mul_le_mul_right _ hl
    rw [Nat.add_mul, Nat.one_mul] at hle
    rw [rowAt, List.length_take, List.length_drop, List.length_drop]
    omega
  constructor
  · refine (seqHold_of_pieces fun b hbn => ?_).congr fun v _ g hg => ?_
    · have := hu b hbn
      rw [List.length_take]
      omega
    · by_cases hv : v < n / 32 * 32
      · have hvb : v / 32 < n / 32 := by omega
        rw [if_pos hv, if_pos hv, entry_take (mul_add_lt hg (hlane v)), planesUnitRow, signPart,
          List.drop_left' (hrow hvb (hlane v)), entry_tabulate _ hg]
      · rw [if_neg hv, if_neg hv, entry_signPart, entry_replicate_zero]
  · have hlen := @length_flatMap_range _ (n / 32) _ (fun b => ((u b).drop (dim / 8 * 32)).take
      (32 * ((bits - 1) * (dim / 8)))) fun b hbn => hlow hbn
    rw [← Nat.mul_assoc (n / 32)] at hlen
    have hle : n / 32 * 32 * ((bits - 1) * (dim / 8)) ≤ n * ((bits - 1) * (dim / 8)) :=
      Nat.mul_le_mul_right _ (Nat.div_mul_le_self n 32)
    have hrange : List.range n =
        List.range (n / 32 * 32) ++ (List.range (n % 32)).map (n / 32 * 32 + ·) := by
      rw [← List.range_add, Nat.div_add_mod']
    rw [hrange, List.flatMap_append, List.flatMap_map, resize, List.take_of_length_le (by omega), hlen,
      ← Nat.sub_mul,
      show n - n / 32 * 32 = n % 32 by omega]
    congr 1
    · have hmin : min (n / 32 * 32) (n / 32 * 32) = n / 32 * 32 := Nat.min_self _
      conv_rhs => rw [← hmin, ← flatMap_blocks]
      refine List.flatMap_congr fun b hbn => ?_
      have hbn := List.mem_range.1 hbn
      rw [show min (n / 32 * 32 - b * 32) 32 = 32 by omega, ← flatMap_rowAt (hlow hbn)]
      refine List.flatMap_congr fun lane hl => ?_
      have hl := List.mem_range.1 hl
      have hle : (lane + 1) * ((bits - 1) * (dim / 8)) ≤ 32 * ((bits - 1) * (dim / 8)) :=
        Nat.mul_le_mul_right _ hl
      rw [Nat.add_mul, Nat.one_mul] at hle
      rw [hmin, if_pos (show b * 32 + lane < n / 32 * 32 by omega), mul_add_div hl, mul_add_mod hl,
        lowPart, planesUnitRow, List.take_left' (hrow hbn hl), rowAt, rowAt, List.drop_take,
        List.take_take, Nat.min_eq_left (by omega)]
    · have hzero (k : ℕ) : lowPart bits dim (if n / 32 * 32 + k < n / 32 * 32 then
          planesUnitRow bits dim (u ((n / 32 * 32 + k) / 32)) ((n / 32 * 32 + k) % 32)
          else List.replicate (bits * (dim / 8)) 0) = List.replicate ((bits - 1) * (dim / 8)) 0 := by
        rw [if_neg (by omega), lowPart, List.take_replicate, Nat.min_eq_left (by omega)]
      simp only [hzero, List.flatMap_def, List.map_const', List.length_range,
        List.flatten_replicate_replicate]

/-- Row `v`, zero past the last one. -/
def paddedRow (bits dim n : ℕ) (f : ℕ → List UInt8) (v : ℕ) : List UInt8 :=
  if v < n then f v else List.replicate (bits * (dim / 8)) 0

theorem length_paddedRow (hf : ∀ v < n, (f v).length = bits * (dim / 8)) (v : ℕ) :
    (paddedRow bits dim n f v).length = bits * (dim / 8) := by
  unfold paddedRow
  split
  · exact hf v ‹_›
  · exact List.length_replicate

theorem entry_signPart_paddedRow (v g : ℕ) : entry (signPart bits dim (paddedRow bits dim n f v)) g =
    if v < n then entry (signPart bits dim (f v)) g else 0 := by
  unfold paddedRow
  split
  · rfl
  · rw [entry_signPart, entry_replicate_zero]

theorem lowPart_replicate (hb : PlanesBits bits) :
    lowPart bits dim (List.replicate (bits * (dim / 8)) 0) =
      List.replicate ((bits - 1) * (dim / 8)) 0 := by
  have hsplit := @low_add_sign bits dim hb
  rw [lowPart, List.take_replicate, Nat.min_eq_left (by omega)]

/-- The unit a planes cache writes for one of its blocks, the last one possibly short. -/
theorem PlanesHold.unitCodes_eq (h : PlanesHold P bits dim n f sign low)
    (hp : planesFor P bits (dim / codesPerByte bits) = true) (hd : dim % 8 = 0)
    (hf : ∀ v < n, (f v).length = bits * (dim / 8)) {b : ℕ} (hblk : b < (n + 31) / 32) :
    planesUnitCodes P sign low bits (dim / codesPerByte bits) b n =
      planesUnit bits dim fun lane => paddedRow bits dim n f (b * 32 + lane) := by
  have hb := planesBits_of_planesFor hp
  obtain ⟨m, hm⟩ : ∃ m, m = min (b * 32 + 32) n - b * 32 := ⟨_, rfl⟩
  have hcut : min (b * 32 + 32) n * ((bits - 1) * (dim / 8)) - b * 32 * ((bits - 1) * (dim / 8)) =
      m * ((bits - 1) * (dim / 8)) := by
    rw [hm]
    exact (Nat.sub_mul _ _ _).symm
  -- the low rows, and zeros in the place of the missing ones
  have hlow : (low.drop (b * 32 * ((bits - 1) * (dim / 8)))).take (m * ((bits - 1) * (dim / 8))) =
      (List.range m).flatMap fun lane => lowPart bits dim (f (b * 32 + lane)) := by
    rw [h.low, drop_take_flatMap_range (fun v hv => length_lowPart hb (hf v hv)) (by omega)]
  have hlowlen : ((List.range m).flatMap fun lane => lowPart bits dim (f (b * 32 + lane))).length =
      m * ((bits - 1) * (dim / 8)) :=
    length_flatMap_range fun v hv => length_lowPart hb (hf _ (by omega))
  have hrows : (List.range 32).flatMap (fun lane => lowPart bits dim
      (paddedRow bits dim n f (b * 32 + lane))) =
      ((List.range m).flatMap fun lane => lowPart bits dim (f (b * 32 + lane))) ++
        List.replicate ((32 - m) * ((bits - 1) * (dim / 8))) 0 := by
    have hrange : List.range 32 = List.range m ++ (List.range (32 - m)).map (m + ·) := by
      rw [← List.range_add, Nat.add_sub_cancel' (by omega)]
    have hzero (k : ℕ) (hk : k ∈ List.range (32 - m)) :
        lowPart bits dim (paddedRow bits dim n f (b * 32 + (m + k))) =
          List.replicate ((bits - 1) * (dim / 8)) 0 := by
      have := List.mem_range.1 hk
      rw [paddedRow, if_neg (by omega), lowPart_replicate hb]
    rw [hrange, List.flatMap_append, List.flatMap_map]
    congr 1
    · apply List.flatMap_congr
      intro lane hl
      have := List.mem_range.1 hl
      rw [paddedRow, if_pos (by omega)]
    · rw [List.flatMap_congr hzero]
      simp only [List.flatMap_def, List.map_const', List.length_range,
        List.flatten_replicate_replicate]
  -- the block's sign bytes, canonical
  have hwin := lanesHold_window h.sign (show b + 1 ≤ (n + 31) / 32 by omega)
  have hwrows : windowRows n b 1 = m := by simp only [windowRows]; omega
  rw [hwrows, Nat.one_mul] at hwin
  have hcan : nativeToSeq P (rowAt sign (dim / 8 * 32) b) 2 (dim / 8) =
      (List.range (dim / 8)).flatMap fun g => tabulate 32 fun lane =>
        entry (signPart bits dim (paddedRow bits dim n f (b * 32 + lane))) g := by
    have hseq := hwin.toSeq
    have hblocks : (m + 31) / 32 = 1 := by omega
    have hlen : (nativeToSeq P (rowAt sign (dim / 8 * 32) b) 2 (dim / 8)).length = dim / 8 * 32 := by
      refine hseq.length_eq.trans ?_
      rw [hblocks, Nat.one_mul]
    refine ext_entry (hlen.trans ?_) fun i hi => ?_
    · rw [length_flatMap_range fun _ _ => length_tabulate _ _]
    · rw [hlen] at hi
      have hlane : i % 32 < 32 := Nat.mod_lt _ (by decide)
      have hg : i / 32 < dim / 8 := by omega
      have hcode := hseq.code (i % 32) (by omega) (i / 32) hg
      rw [Nat.div_eq_of_lt hlane, Nat.mod_eq_of_lt hlane, Nat.zero_mul, Nat.zero_add,
        Nat.div_add_mod'] at hcode
      conv_rhs => rw [← Nat.div_add_mod' i 32]
      rw [entry_flatMap_range (fun _ _ => length_tabulate _ _) hg hlane, entry_tabulate _ hlane,
        entry_signPart_paddedRow]
      exact hcode.trans (if_congr (by omega) rfl rfl)
  have hperm := (planesSignToNative_eq hp hd (rowAt sign (dim / 8 * 32) b)).2
  have hlen := List.length_append.trans (congrArg₂ (· + ·)
    (@length_planesUnitSign bits dim fun lane => paddedRow bits dim n f (b * 32 + lane)) hlowlen)
  have hpad : dim / 8 * 32 + 32 * ((bits - 1) * (dim / 8)) -
      (dim / 8 * 32 + m * ((bits - 1) * (dim / 8))) = (32 - m) * ((bits - 1) * (dim / 8)) := by
    rw [Nat.add_sub_add_left]
    exact (Nat.sub_mul _ _ _).symm
  have hfit : m * ((bits - 1) * (dim / 8)) ≤ 32 * ((bits - 1) * (dim / 8)) :=
    Nat.mul_le_mul_right _ (by omega)
  simp only [planesUnitCodes, planesGeom_eq hb hd, BLOCK, hcut, hlow, hperm, hcan]
  rw [resize, List.take_of_length_le (by omega), hlen, hpad, planesUnit, hrows, List.append_assoc]

/-- The unit a planes cache writes for one of its whole blocks. -/
theorem PlanesHold.unitCodes (h : PlanesHold P bits dim n f sign low)
    (hp : planesFor P bits (dim / codesPerByte bits) = true) (hd : dim % 8 = 0)
    (hf : ∀ v < n, (f v).length = bits * (dim / 8)) {b : ℕ} (hblk : b * 32 + 32 ≤ n) :
    planesUnitCodes P sign low bits (dim / codesPerByte bits) b n =
      planesUnit bits dim fun lane => f (b * 32 + lane) := by
  have hrow (lane : ℕ) (hl : lane < 32) : paddedRow bits dim n f (b * 32 + lane) = f (b * 32 + lane) :=
    if_pos (by omega)
  rw [h.unitCodes_eq hp hd hf (by omega), planesUnit, planesUnit]
  congr 1
  · refine List.flatMap_congr fun g _ => tabulate_congr fun lane hl => ?_
    rw [hrow lane hl]
  · refine List.flatMap_congr fun lane hl => ?_
    rw [hrow lane (List.mem_range.1 hl)]

end Unit

end Turbovec.Pack
