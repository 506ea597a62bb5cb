import Turbovec.Pack.Units

/-!
# Code layouts as bijections

The packed rows, the stored form and the native buffers hold the same codes: each conversion undoes its
inverse, and a lane operation on a native buffer gives the buffer a repack of the changed rows gives,
padding included.
-/

namespace Turbovec.Pack

open Slice Grid

variable {P : Platform} {bits nbg nb n dim : ℕ}

/-! ## Stored and native -/

/-- The stored form of a native buffer is what the buffer was made from. -/
theorem nativeToSeq_seqIntoNative {seq : List UInt8} (hl : seq.length = nb * (nbg * 32)) :
    nativeToSeq P (seqIntoNative P seq bits nbg) bits nbg = seq := by
  have hn : (seqIntoNative P seq bits nbg).length = nb * (nbg * 32) := length_seqIntoNative hl
  apply ext_blocks (length_nativeToSeq hn) hl
  intro v hv g hg
  have hb : v / 32 < nb := by omega
  have hlane : v % 32 < 32 := Nat.mod_lt _ (by decide)
  rw [entry_nativeToSeq hn hb hg hlane, readCode_seqIntoNative hl hb hg hlane]

/-- The native form of a stored buffer is what the buffer was made from: nothing of a native buffer is
left out of its codes. -/
theorem seqIntoNative_nativeToSeq {blocked : List UInt8} (hl : blocked.length = nb * (nbg * 32)) :
    seqIntoNative P (nativeToSeq P blocked bits nbg) bits nbg = blocked :=
  rightInverse_of_length (fun _ => length_seqIntoNative) (fun _ => length_nativeToSeq)
    (fun _ => nativeToSeq_seqIntoNative) hl

/-- The codes determine the native buffer. -/
theorem LanesHold.unique {f : ℕ → ℕ → UInt8} {x y : List UInt8} (hx : LanesHold P bits nbg n f x)
    (hy : LanesHold P bits nbg n f y) : x = y := by
  have hseq := hx.toSeq.unique hy.toSeq
  rw [← seqIntoNative_nativeToSeq hx.length_eq, hseq, seqIntoNative_nativeToSeq hy.length_eq]

/-! ## Packed and stored -/

/-- A stored buffer of `n` rows as the packer leaves it: whole blocks, padding lanes zero, and no stray
bit in a 3-bit field. -/
structure CleanSeq (bits nbg n : ℕ) (seq : List UInt8) : Prop where
  length_eq : seq.length = (n + 31) / 32 * (nbg * 32)
  padding : ∀ v, n ≤ v → v < (n + 31) / 32 * 32 → ∀ g < nbg,
    entry seq ((v / 32 * nbg + g) * 32 + v % 32) = 0
  stray : ∀ i, clearStray bits (entry seq i) = entry seq i

theorem CleanSeq.seqHold {seq : List UInt8} (h : CleanSeq bits nbg n seq) :
    SeqHold nbg n (fun v g => entry (seqRowAt seq nbg v) g) seq := by
  refine ⟨h.length_eq, fun v hv g hg => ?_⟩
  by_cases hvn : v < n
  · rw [if_pos hvn, entry_seqRowAt _ _ hg]
  · rw [if_neg hvn, h.padding v (by omega) hv g hg]

/-- The stored form keeps a row's code bytes in its lane. -/
theorem seqRowAt_repackSeq (hb : ValidBits bits) (hd : dim % 8 = 0) (packed : List UInt8) {v : ℕ} (hv : v < n) :
    seqRowAt (repackSeq packed n bits dim) (dim / codesPerByte bits) v =
      extractRow bits dim (rowAt packed (bits * (dim / 8)) v) := by
  have hcodes : tabulate (dim / codesPerByte bits)
      (entry (extractRow bits dim (rowAt packed (bits * (dim / 8)) v))) =
        extractRow bits dim (rowAt packed (bits * (dim / 8)) v) :=
    (eq_tabulate (length_extractRow _ _ _) fun g hg =>
      getElem?_eq_entry (by rwa [length_extractRow])).symm
  rw [(@seqHold_repackSeq bits n dim hb hd packed).seqRowAt hv]
  exact hcodes

/-- Packed rows to the stored form and back. -/
theorem seqToPacked_repackSeq (hb : ValidBits bits) (hd : dim % 8 = 0) {packed : List UInt8}
    (hl : packed.length = n * (bits * (dim / 8))) :
    seqToPacked (repackSeq packed n bits dim) n bits dim = packed := by
  have hrow : ∀ v < n, rowAt (seqToPacked (repackSeq packed n bits dim) n bits dim) (bits * (dim / 8)) v =
      rowAt packed (bits * (dim / 8)) v := by
    intro v hv
    rw [rowAt_seqToPacked _ hb hd hv, seqRowAt_repackSeq hb hd packed hv, packRow_extractRow hb hd (length_rowAt hl hv)]
  rw [← flatMap_rowAt (length_seqToPacked (repackSeq packed n bits dim)),
    List.flatMap_congr fun v hv => hrow v (List.mem_range.1 hv), flatMap_rowAt hl]

/-- The stored form to packed rows and back. -/
theorem repackSeq_seqToPacked (hb : ValidBits bits) (hd : dim % 8 = 0) {seq : List UInt8}
    (h : CleanSeq bits (dim / codesPerByte bits) n seq) :
    repackSeq (seqToPacked seq n bits dim) n bits dim = seq := by
  apply SeqHold.unique _ h.seqHold
  apply (seqHold_repackSeq hb hd _).congr
  intro v hv g hg
  have hclear : (seqRowAt seq (dim / codesPerByte bits) v).map (clearStray bits) =
      seqRowAt seq (dim / codesPerByte bits) v := by
    rw [seqRowAt, tabulate, List.map_map]
    exact List.map_congr_left fun g _ => h.stray _
  rw [rowAt_seqToPacked _ hb hd hv, extractRow_packRow hb hd (length_seqRowAt _ _ _), hclear]

/-- What the packer leaves is clean. -/
theorem cleanSeq_repackSeq (hb : ValidBits bits) (hd : dim % 8 = 0) (packed : List UInt8) :
    CleanSeq bits (dim / codesPerByte bits) n (repackSeq packed n bits dim) := by
  have hseq := @seqHold_repackSeq bits n dim hb hd packed
  constructor
  · exact hseq.length_eq
  · intro v hnv hv g hg
    rw [hseq.code v hv g hg, if_neg (by omega)]
  · intro i
    by_cases hi : i < (repackSeq packed n bits dim).length
    · rw [hseq.length_eq, ← Nat.mul_assoc] at hi
      have hnbg : 0 < dim / codesPerByte bits :=
        Nat.pos_of_mul_pos_left (by omega : 0 < (n + 31) / 32 * (dim / codesPerByte bits))
      have hb' : i / 32 / (dim / codesPerByte bits) < (n + 31) / 32 := by
        rw [Nat.div_lt_iff_lt_mul hnbg]
        omega
      have hcode := hseq.code (i / 32 / (dim / codesPerByte bits) * 32 + i % 32) (by omega)
        (i / 32 % (dim / codesPerByte bits)) (Nat.mod_lt _ hnbg)
      have h1 : (i / 32 / (dim / codesPerByte bits) * 32 + i % 32) / 32 =
          i / 32 / (dim / codesPerByte bits) := by omega
      have h2 : (i / 32 / (dim / codesPerByte bits) * 32 + i % 32) % 32 = i % 32 := by omega
      rw [h1, h2, Nat.div_add_mod', Nat.div_add_mod'] at hcode
      rw [hcode]
      split
      · rw [entry_extractRow _ (Nat.mod_lt _ hnbg), clearStray_extractByte hb]
      · exact clearStray_zero bits
    · rw [entry_of_length_le (by omega), clearStray_zero]

/-! ## Lane operations and the repack -/

/-- The native buffer a from-scratch repack gives a list of packed rows. -/
def cacheOf (P : Platform) (bits dim : ℕ) (rows : List (List UInt8)) : List UInt8 :=
  (repack P rows.flatten rows.length bits dim).1

/-- The rows are packed rows of one geometry. -/
def PackedRows (bits dim : ℕ) (rows : List (List UInt8)) : Prop :=
  ∀ row ∈ rows, row.length = bits * (dim / 8)

section Rows

variable {rows new : List (List UInt8)} {last : List UInt8}

theorem rowAt_rows (h : PackedRows bits dim rows) {v : ℕ} (hv : v < rows.length) :
    rowAt rows.flatten (bits * (dim / 8)) v = rows.getD v [] := by
  rw [rowAt_flatten h hv, List.getD_eq_getElem _ _ hv]

theorem lanesHold_cacheOf (hb : ValidBits bits) (hd : dim % 8 = 0) (h : PackedRows bits dim rows) :
    LanesHold P bits (dim / codesPerByte bits) rows.length
      (fun v g => entry (extractRow bits dim (rows.getD v [])) g) (cacheOf P bits dim rows) := by
  apply (lanesHold_repack hb hd _).congr
  intro v hv g hg
  rw [rowAt_rows h hv]

theorem appendLanes_cacheOf (hb : ValidBits bits) (hd : dim % 8 = 0) (h : PackedRows bits dim rows)
    (hnew : PackedRows bits dim new) :
    appendLanes P (cacheOf P bits dim rows) new.flatten rows.length new.length bits dim =
      cacheOf P bits dim (rows ++ new) := by
  have hboth : PackedRows bits dim (rows ++ new) := by
    intro row hrow
    exact (List.mem_append.1 hrow).elim (h row) (hnew row)
  have hall := lanesHold_cacheOf (P := P) hb hd hboth
  rw [List.length_append] at hall
  refine LanesHold.unique ?_ hall
  apply (lanesHold_appendLanes hb hd (lanesHold_cacheOf hb hd h) new.flatten).congr
  intro v hv g hg
  by_cases hvn : v < rows.length
  · rw [if_pos hvn, List.getD_append _ _ _ _ hvn]
  · rw [if_neg hvn, rowAt_rows hnew (by omega), List.getD_append_right _ _ _ _ (by omega)]

/-- Removing row `idx` in place: the last row moves into the hole, its old lane is zeroed and the buffer is
cut to the new geometry. -/
theorem removeLane_cacheOf (hb : ValidBits bits) (hd : dim % 8 = 0)
    (h : PackedRows bits dim (rows ++ [last])) {idx : ℕ} (hidx : idx ≤ rows.length) :
    (zeroLane P
        (if idx ≠ rows.length then
          moveLane P (cacheOf P bits dim (rows ++ [last])) bits (dim / codesPerByte bits) rows.length idx
        else cacheOf P bits dim (rows ++ [last])) bits (dim / codesPerByte bits) rows.length).take
        (blockedGeometry rows.length bits dim).2.2 =
      cacheOf P bits dim (rows.set idx last) := by
  have hset : PackedRows bits dim (rows.set idx last) := by
    intro row hrow
    rcases List.mem_or_eq_of_mem_set hrow with hrow | rfl
    · exact h row (List.mem_append_left _ hrow)
    · exact h row (List.mem_append_right _ (List.mem_singleton_self row))
  have hold := lanesHold_cacheOf (P := P) hb hd h
  rw [List.length_append, List.length_singleton] at hold
  have hnew := lanesHold_cacheOf (P := P) hb hd hset
  rw [List.length_set] at hnew
  refine LanesHold.unique (n := rows.length) ?_ hnew
  rw [blockedGeometry_eq]
  apply (lanesHold_swapRemove hold hidx).congr
  intro v hv g hg
  by_cases hvi : v = idx
  · subst hvi
    rw [if_pos rfl, List.getD_append_right _ _ _ _ le_rfl, Nat.sub_self]
    simp [hv]
  · rw [if_neg hvi, List.getD_append _ _ _ _ hv]
    simp [Ne.symm hvi]

/-- Any run of blocks, rebuilt from the rows, is that part of the whole repack. -/
theorem repackBlockRange_cacheOf (hb : ValidBits bits) (hd : dim % 8 = 0) (h : PackedRows bits dim rows)
    {first k : ℕ} (hfirst : first * 32 ≤ rows.length) (hk : first + k ≤ (rows.length + 31) / 32) :
    repackBlockRange P rows.flatten rows.length bits dim first (first + k) =
      ((cacheOf P bits dim rows).drop (first * (dim / codesPerByte bits * 32))).take
        (k * (dim / codesPerByte bits * 32)) := by
  have hwin := lanesHold_window (lanesHold_cacheOf (P := P) hb hd h) hk
  have hrows : min ((first + k) * 32) rows.length - first * 32 = windowRows rows.length first k := by
    simp only [windowRows]
    omega
  have hblocks : first + k - first = (windowRows rows.length first k + 31) / 32 := by
    rw [windowRows_blocks hk]
    omega
  apply LanesHold.unique _ hwin
  simp only [repackBlockRange, BLOCK, hrows, hblocks]
  apply (lanesHold_packBlockedNative _).congr
  intro v hv g hg
  have hlt := windowRows_lt hv
  have hend : first * 32 + v < min ((first + k) * 32) rows.length := by omega
  rw [← entry_rowAt _ hg, rowAt_extractCodesFlat hb hd _ hv, ← rowAt_rows h hlt, rowAt_drop_take _ hend]

/-- An append that rebuilds the blocks from the first one it touches. -/
theorem spliceBlocks_cacheOf (hb : ValidBits bits) (hd : dim % 8 = 0) (h : PackedRows bits dim (rows ++ new)) :
    (cacheOf P bits dim rows).take (rows.length / 32 * (dim / codesPerByte bits * 32)) ++
        repackBlockRange P (rows ++ new).flatten (rows ++ new).length bits dim (rows.length / 32)
          (((rows ++ new).length + 31) / 32) =
      cacheOf P bits dim (rows ++ new) := by
  have hrows : PackedRows bits dim rows := fun row hrow => h row (List.mem_append_left _ hrow)
  have hlen : rows.length ≤ (rows ++ new).length := by
    rw [List.length_append]
    omega
  have hpatch := lanesHold_repackBlockRange (P := P) hb hd (rows ++ new).flatten
    (show rows.length / 32 * 32 ≤ (rows ++ new).length by omega)
  apply LanesHold.unique _ (lanesHold_cacheOf hb hd h)
  apply lanesHold_splice (lanesHold_cacheOf hb hd hrows) rfl hlen
  · apply hpatch.congr
    intro v hv g hg
    rw [rowAt_rows h (by omega)]
  · intro v hv g hg
    rw [List.getD_append _ _ _ _ hv]

end Rows

/-! ## The layouts together -/

/-- The conversions are inverse bijections, a lane write changes one code, and every lane operation gives,
byte for byte, the buffer a repack of the resulting rows gives. -/
theorem layouts_exact (P : Platform) {bits dim : ℕ} (hb : ValidBits bits) (hd : dim % 8 = 0) (n : ℕ) :
    (∀ packed : List UInt8, packed.length = n * (bits * (dim / 8)) →
      CleanSeq bits (dim / codesPerByte bits) n (repackSeq packed n bits dim) ∧
      seqToPacked (repackSeq packed n bits dim) n bits dim = packed) ∧
    (∀ seq, CleanSeq bits (dim / codesPerByte bits) n seq →
      repackSeq (seqToPacked seq n bits dim) n bits dim = seq) ∧
    (∀ nbg nb (buf : List UInt8), buf.length = nb * (nbg * 32) →
      nativeToSeq P (seqIntoNative P buf bits nbg) bits nbg = buf ∧
      seqIntoNative P (nativeToSeq P buf bits nbg) bits nbg = buf) ∧
    (∀ nbg (blocked : List UInt8) b g lane b' g' lane' code, InBlock blocked.length nbg b g lane →
      InBlock blocked.length nbg b' g' lane' →
      readCode P (writeCode P blocked bits nbg b g lane code) bits nbg b' g' lane' =
        if b = b' ∧ g = g' ∧ lane = lane' then code else readCode P blocked bits nbg b' g' lane') ∧
    (∀ rows new, PackedRows bits dim rows → PackedRows bits dim new →
      appendLanes P (cacheOf P bits dim rows) new.flatten rows.length new.length bits dim =
        cacheOf P bits dim (rows ++ new)) ∧
    (∀ rows last, PackedRows bits dim (rows ++ [last]) → ∀ idx ≤ rows.length,
      (zeroLane P
          (if idx ≠ rows.length then
            moveLane P (cacheOf P bits dim (rows ++ [last])) bits (dim / codesPerByte bits) rows.length idx
          else cacheOf P bits dim (rows ++ [last])) bits (dim / codesPerByte bits) rows.length).take
          (blockedGeometry rows.length bits dim).2.2 =
        cacheOf P bits dim (rows.set idx last)) ∧
    (∀ rows first k, PackedRows bits dim rows → first * 32 ≤ rows.length →
      first + k ≤ (rows.length + 31) / 32 →
      repackBlockRange P rows.flatten rows.length bits dim first (first + k) =
        ((cacheOf P bits dim rows).drop (first * (dim / codesPerByte bits * 32))).take
          (k * (dim / codesPerByte bits * 32))) ∧
    (∀ rows new, PackedRows bits dim (rows ++ new) →
      (cacheOf P bits dim rows).take (rows.length / 32 * (dim / codesPerByte bits * 32)) ++
          repackBlockRange P (rows ++ new).flatten (rows ++ new).length bits dim (rows.length / 32)
            (((rows ++ new).length + 31) / 32) =
        cacheOf P bits dim (rows ++ new)) := by
  refine ⟨fun packed hl => ⟨cleanSeq_repackSeq hb hd packed, seqToPacked_repackSeq hb hd hl⟩,
    fun seq hseq => repackSeq_seqToPacked hb hd hseq,
    fun nbg nb buf hl => ⟨nativeToSeq_seqIntoNative hl, seqIntoNative_nativeToSeq hl⟩, ?_, ?_, ?_, ?_, ?_⟩
  · intro nbg blocked b g lane b' g' lane' code h h'
    exact readCode_writeCode h h' code
  · intro rows new h hnew
    exact appendLanes_cacheOf hb hd h hnew
  · intro rows last h idx hidx
    exact removeLane_cacheOf hb hd h hidx
  · intro rows first k h hfirst hk
    exact repackBlockRange_cacheOf hb hd h hfirst hk
  · intro rows new h
    exact spliceBlocks_cacheOf hb hd h

/-- Forty rows of three bits, with two more appended, and without the sixth. -/
theorem layouts_exact_forty :
    let P : Platform := ⟨.x86_64, true, false, false, false, false, false⟩
    let rows := (List.range 40).map fun i => [UInt8.ofNat (i * 37), UInt8.ofNat i, 0b01100111]
    let last := [0b10110010, 0b01100111, 0b11110000]
    seqToPacked (repackSeq rows.flatten 40 3 8) 40 3 8 = rows.flatten ∧
      appendLanes P (cacheOf P 3 8 rows) (last ++ last) 40 2 3 8 = cacheOf P 3 8 (rows ++ [last, last]) ∧
      (zeroLane P (moveLane P (cacheOf P 3 8 (rows ++ [last])) 3 (8 / codesPerByte 3) 40 5) 3 (8 / codesPerByte 3) 40).take
        (blockedGeometry 40 3 8).2.2 = cacheOf P 3 8 (rows.set 5 last) := by
  intro P rows last
  have hrows : PackedRows 3 8 rows := by
    intro row hrow
    obtain ⟨i, -, rfl⟩ := List.mem_map.mp hrow
    rfl
  have hlast : PackedRows 3 8 [last, last] := by
    intro row hrow
    rcases List.mem_cons.mp hrow with rfl | hrow
    · rfl
    · rw [List.mem_singleton.mp hrow]
      rfl
  have hmore : PackedRows 3 8 (rows ++ [last]) := by
    intro row hrow
    rcases List.mem_append.mp hrow with hrow | hrow
    · exact hrows row hrow
    · rw [List.mem_singleton.mp hrow]
      rfl
  obtain ⟨hpacked, -, -, -, happend, hremove, -⟩ := layouts_exact P (show ValidBits 3 by decide) (show 8 % 8 = 0 from rfl) 40
  exact ⟨(hpacked rows.flatten rfl).2, happend rows [last, last] hrows hlast, hremove rows last hmore 5 (by decide)⟩

end Turbovec.Pack
