import Turbovec.Rotation.Rotate

/-!
# Every rotation path evaluates the same expression

The gather kernels, the two ways of rotating a row and the block kernels, compared over any operations.
-/

namespace Turbovec
namespace Rotation

open Passes

variable {α σ : Type*}

/-! ## The shuffle -/

theorem swap_perm {perm : List ℕ} {i j : ℕ} (hi : i < perm.length) (hj : j < perm.length) :
    (swap perm i j).Perm perm := by
  unfold swap
  rw [List.getD_eq_getElem?_getD, List.getD_eq_getElem?_getD, List.getElem?_eq_getElem hi, List.getElem?_eq_getElem hj]
  exact List.set_set_perm hi hj

theorem shuffle_perm (rng : Rng σ) {is perm : List ℕ} (g : σ) (h : ∀ i ∈ is, i < perm.length) :
    (is.foldl (shuffleStep rng) (perm, g)).1.Perm perm := by
  induction is generalizing perm g with
  | nil => exact List.Perm.refl perm
  | cons i is ih =>
    rw [List.foldl_cons]
    have hi : i < perm.length := h i List.mem_cons_self
    have hj : (rng.nextU64 g).1.toNat % (i + 1) < perm.length :=
      Nat.lt_of_lt_of_le (Nat.mod_lt _ (Nat.succ_pos i)) hi
    have hstep := swap_perm hi hj
    apply List.Perm.trans _ hstep
    apply ih
    intro i' hi'
    rw [hstep.length_eq]
    exact h i' (List.mem_cons_of_mem i hi')

/-- Whatever the generator returns, the shuffle is a permutation of the coordinates. -/
theorem fisherYates_perm (rng : Rng σ) {dim : ℕ} (hdim : dim < 2 ^ 32) (g : σ) :
    (fisherYates rng dim g).1.Perm (List.range dim) := by
  unfold fisherYates
  rw [Nat.mod_eq_of_lt hdim]
  apply shuffle_perm
  intro i hi
  rw [List.mem_reverse, List.mem_range'_1] at hi
  rw [List.length_range]
  omega

/-! ## Construction -/

theorem signRow_length [One α] [Neg α] (rng : Rng σ) (n : ℕ) (g : σ) : (signRow (α := α) rng n g).1.length = n := by
  induction n generalizing g with
  | zero => rfl
  | succ n ih => exact congrArg Nat.succ (ih _)

theorem mem_signRow [One α] [Neg α] (rng : Rng σ) (n : ℕ) (g : σ) :
    ∀ s ∈ (signRow (α := α) rng n g).1, s = 1 ∨ s = -1 := by
  induction n generalizing g with
  | zero => simp [signRow]
  | succ n ih =>
    intro s hs
    rcases List.mem_cons.mp hs with rfl | hs
    · split
      · exact Or.inr rfl
      · exact Or.inl rfl
    · exact ih _ s hs

/-- The entries of a permutation of the coordinates. -/
theorem perm_getD {perm : List ℕ} {dim : ℕ} (h : perm.Perm (List.range dim)) :
    (∀ i < dim, perm.getD i 0 < dim) ∧ ∀ i < dim, ∀ j < dim, perm.getD i 0 = perm.getD j 0 → i = j := by
  have hlen : perm.length = dim := by rw [h.length_eq, List.length_range]
  have hget (i : ℕ) (hi : i < dim) : perm.getD i 0 = perm.get ⟨i, hlen ▸ hi⟩ := by
    rw [List.getD_eq_getElem?_getD, List.getElem?_eq_getElem (hlen ▸ hi), Option.getD_some, List.get_eq_getElem]
  constructor
  · intro i hi
    rw [hget i hi]
    exact List.mem_range.mp (h.mem_iff.mp (List.get_mem _ _))
  · intro i hi j hj heq
    rw [hget i hi, hget j hj] at heq
    have hnd : perm.Nodup := h.nodup_iff.mpr List.nodup_range
    exact Fin.mk.inj_iff.mp ((List.Nodup.get_inj_iff hnd).mp heq)

/-- The pre-scattered signs, read through the permutation, are the signs. -/
theorem preScatter_getD [One α] {dim : ℕ} {perm : List ℕ} (h : perm.Perm (List.range dim)) (signs : List α) :
    (preScatter dim perm signs).length = dim ∧
      ∀ i < dim, (preScatter dim perm signs).getD (perm.getD i 0) 1 = signs.getD i 1 := by
  obtain ⟨hlt, hinj⟩ := perm_getD h
  have hlen : perm.length = dim := by rw [h.length_eq, List.length_range]
  unfold preScatter
  rw [hlen]
  -- induction on the entries scattered so far
  have hrun : ∀ n ≤ dim, ((List.range n).foldl (fun pre i => pre.set (perm.getD i 0) (signs.getD i 1))
      (List.replicate dim 1)).length = dim ∧ ∀ i < n, ((List.range n).foldl
        (fun pre i => pre.set (perm.getD i 0) (signs.getD i 1)) (List.replicate dim 1)).getD (perm.getD i 0) 1 =
          signs.getD i 1 := by
    intro n
    induction n with
    | zero => simp
    | succ n ih =>
      intro hn
      obtain ⟨hl, hget⟩ := ih (by omega)
      rw [List.range_succ, List.foldl_append, List.foldl_cons, List.foldl_nil]
      refine ⟨by rw [List.length_set, hl], fun i hi => ?_⟩
      rw [List.getD_eq_getElem?_getD, List.getElem?_set]
      by_cases heq : perm.getD n 0 = perm.getD i 0
      · rw [if_pos heq, if_pos (by rw [hl]; exact hlt n (by omega)), hinj n (by omega) i (by omega) heq]
        rfl
      · rw [if_neg heq, ← List.getD_eq_getElem?_getD]
        apply hget
        rcases Nat.lt_succ_iff_lt_or_eq.mp hi with hi | rfl
        · exact hi
        · exact absurd rfl heq
  exact hrun dim (Nat.le_refl dim)

/-- What the constructor promises of a rotation. -/
structure Built [One α] [Neg α] (invSqrt : ℕ → α) (R : Rotation α) : Prop where
  dim_le : R.dim ≤ IoV7.MAX_DIM
  block : ∃ e Q, 3 ≤ e ∧ R.block = 2 ^ e ∧ R.dim = Q * 2 ^ e
  inv : R.invSqrtBlock = invSqrt R.block
  perm : ∀ round < K, (R.perms.getD round []).Perm (List.range R.dim)
  signs_length : ∀ round < K, (R.signs.getD round []).length = R.dim
  signs : ∀ round < K, ∀ s ∈ R.signs.getD round [], s = 1 ∨ s = -1
  pre : R.signs1Pre.length = R.dim ∧
    ∀ i < R.dim, R.signs1Pre.getD ((R.perms.getD 1 []).getD i 0) 1 = (R.signs.getD 1 []).getD i 1

theorem new_built [One α] [Neg α] {rng : Rng σ} {seed : σ} {invSqrt : ℕ → α} {dim : ℕ} {R : Rotation α}
    (h : new rng seed invSqrt dim = some R) : R.Built invSqrt ∧ R.dim = dim := by
  unfold new at h
  split at h
  · cases h
  · rename_i hpos
    split at h
    · cases h
    · rename_i hmax
      rw [not_not] at hpos hmax
      have hmax' : dim ≤ 16384 := hmax
      have hperm (g : σ) := fisherYates_perm rng (show dim < 2 ^ 32 by omega) g
      obtain rfl := Option.some.inj h
      refine ⟨⟨hmax, blockSize_eq hpos.1 hpos.2 (by omega), rfl, ?_, ?_, ?_, preScatter_getD (hperm _) _⟩, rfl⟩
      · intro round hr
        have hcases : round = 0 ∨ round = 1 := by unfold K at hr; omega
        rcases hcases with rfl | rfl
        · exact hperm _
        · exact hperm _
      · intro round hr
        have hcases : round = 0 ∨ round = 1 := by unfold K at hr; omega
        rcases hcases with rfl | rfl
        · exact signRow_length rng dim _
        · exact signRow_length rng dim _
      · intro round hr
        have hcases : round = 0 ∨ round = 1 := by unfold K at hr; omega
        rcases hcases with rfl | rfl
        · exact mem_signRow rng dim _
        · exact mem_signRow rng dim _

/-! ## The gather -/

/-- The cells a store writes. -/
def storeCells (st : ℕ × ℕ) : List ℕ := List.range' st.1 st.2

theorem lanesFrom_cells (lanes i n : ℕ) :
    (lanesFrom lanes i n).flatMap storeCells = List.range' i ((n - i) / lanes * lanes) := by
  unfold lanesFrom
  generalize (n - i) / lanes = k
  induction k with
  | zero => simp
  | succ k ih =>
    rw [List.range_succ, List.map_append, List.flatMap_append, ih, Nat.succ_mul, ← List.range'_append_1]
    simp [storeCells]

/-- Each kernel's gather stores to every element once, in order. -/
theorem gatherStores_cells (kernel : Kernel) (n : ℕ) : (gatherStores kernel n).flatMap storeCells = List.range n := by
  have htail (i : ℕ) (hi : i ≤ n) : (lanesFrom 1 i n).flatMap storeCells = List.range' i (n - i) := by
    rw [lanesFrom_cells, Nat.div_one, Nat.mul_one]
  have hend (lanes i : ℕ) (hi : i ≤ n) : lanesEnd lanes i n ≤ n := by
    have := Nat.div_mul_le_self (n - i) lanes
    unfold lanesEnd
    omega
  have hglue (lanes i : ℕ) (hi : i ≤ n) : List.range' i ((n - i) / lanes * lanes) ++
      List.range' (lanesEnd lanes i n) (n - lanesEnd lanes i n) = List.range' i (n - i) := by
    have hle := hend lanes i hi
    unfold lanesEnd at hle ⊢
    rw [List.range'_append_1]
    congr 1
    omega
  have h0 := Nat.zero_le n
  rw [List.range_eq_range']
  cases kernel with
  | scalar => exact htail 0 h0
  | neon => exact htail 0 h0
  | avx2 =>
    unfold gatherStores
    rw [List.flatMap_append, lanesFrom_cells, htail _ (hend 8 0 h0), hglue 8 0 h0]
    rfl
  | avx512 =>
    have h16 := hend 16 0 h0
    unfold gatherStores
    rw [List.flatMap_append, List.flatMap_append, lanesFrom_cells, lanesFrom_cells, htail _ (hend 8 _ h16),
      List.append_assoc, hglue 8 _ h16, hglue 16 0 h0]
    rfl

section gather variable [One α] [Mul α]

/-- The element a gather puts at `i`. -/
def gathered (mode : Mode) (src : ℕ → α) (perm : List ℕ) (signs : List α) (inv : α) (i : ℕ) : α :=
  gatherOne mode (src (perm.getD i 0)) (signs.getD i 1) inv

theorem gatherVec_eq (mode : Mode) (src : ℕ → α) (perm : List ℕ) (signs : List α) (inv : α) (i l : ℕ) :
    gatherVec mode src perm signs inv i l = gathered mode src perm signs inv (i + l) := by
  cases mode <;> rfl

theorem gatherStore_apply (mode : Mode) (src : ℕ → α) (perm : List ℕ) (signs : List α) (inv : α) (dst : ℕ → α)
    (st : ℕ × ℕ) (x : ℕ) : gatherStore mode src perm signs inv dst st x =
      if x ∈ storeCells st then gathered mode src perm signs inv x else dst x := by
  unfold gatherStore storeCells
  simp only [List.mem_range'_1]
  by_cases hw : st.2 = 1
  · rw [if_pos hw, hw, Function.update_apply]
    by_cases hx : x = st.1
    · rw [if_pos hx, if_pos (by omega), ← hx]
      rfl
    · rw [if_neg hx, if_neg (by omega)]
  · rw [if_neg hw, storeu]
    by_cases hx : st.1 ≤ x ∧ x < st.1 + st.2
    · rw [if_pos hx, if_pos hx, gatherVec_eq, Nat.add_sub_cancel' hx.1]
    · rw [if_neg hx, if_neg hx]

theorem gather_foldl (mode : Mode) (src : ℕ → α) (perm : List ℕ) (signs : List α) (inv : α) (dst : ℕ → α)
    (sts : List (ℕ × ℕ)) (x : ℕ) : sts.foldl (gatherStore mode src perm signs inv) dst x =
      if x ∈ sts.flatMap storeCells then gathered mode src perm signs inv x else dst x := by
  induction sts generalizing dst with
  | nil => simp
  | cons st sts ih =>
    rw [List.foldl_cons, ih, gatherStore_apply, List.flatMap_cons]
    simp only [List.mem_append]
    by_cases hx : x ∈ sts.flatMap storeCells
    · rw [if_pos hx, if_pos (Or.inr hx)]
    · rw [if_neg hx]
      simp only [hx, or_false]

/-- A gather between slices of one length, by any kernel. -/
theorem permuteGather_some (kernel : Kernel) (mode : Mode) (src dst : Buf α) {perm : List ℕ} {signs : List α} (inv : α)
    (hsrc : src.len = dst.len) (hperm : perm.length = dst.len) (hsigns : signs.length = dst.len) :
    ∃ out, permuteGather kernel mode src perm signs inv dst = some out ∧ out.len = dst.len ∧
      ∀ x < dst.len, out.cells x = gathered mode src.cells perm signs inv x := by
  refine ⟨_, if_pos ⟨hsrc, hperm, hsigns⟩, rfl, fun x hx => ?_⟩
  show (gatherStores kernel dst.len).foldl (gatherStore mode src.cells perm signs inv) dst.cells x = _
  rw [gather_foldl, gatherStores_cells, if_pos (List.mem_range.mpr hx)]

end gather

/-! ## The transform of a row -/

section apply variable [Add α] [Sub α] [Mul α]

/-- A row after the transform of its blocks. -/
def whtRow (e : ℕ) (inv : α) (m : ℕ → α) : ℕ → α := fun x =>
  ladder 0 e (fun l => m (x / 2 ^ e * 2 ^ e + l)) (x % 2 ^ e) * inv

theorem wht_apply {invSqrt : ℕ → α} {R : Rotation α} {e Q : ℕ} (he : 3 ≤ e) (hblock : R.block = 2 ^ e)
    (hdim : R.dim = Q * 2 ^ e) (hinv : R.invSqrtBlock = invSqrt R.block) (kernel : Kernel) (buf : Buf α) :
    (R.wht kernel buf).len = buf.len ∧
      ∀ x < R.dim, (R.wht kernel buf).cells x = whtRow e (invSqrt (2 ^ e)) buf.cells x := by
  refine ⟨rfl, fun x hx => ?_⟩
  have hpos := Nat.two_pow_pos e
  unfold wht
  simp only [hblock, hdim, hinv]
  have hstep (m : ℕ → α) (j x : ℕ) : whtAt kernel (2 ^ e) (invSqrt (2 ^ e)) m j x =
      if j ≤ x ∧ x < j + 2 ^ e then transformed e (invSqrt (2 ^ e)) (fun l => m (j + l)) (x - j) else m x := by
    unfold whtAt
    rw [whtBlock_eq kernel he]
  have hcongr (v v' : ℕ → α) (h : ∀ l < 2 ^ e, v l = v' l) :
      ∀ l < 2 ^ e, transformed e (invSqrt (2 ^ e)) v l = transformed e (invSqrt (2 ^ e)) v' l := by
    intro l hl
    unfold transformed
    rw [if_pos hl, if_pos hl, ladder_congr (by omega) h l hl]
  rw [tiles_apply hpos hstep hcongr, if_pos (by omega), transformed, if_pos (Nat.mod_lt x hpos)]
  rfl

/-- The transform reads the row alone. -/
theorem whtRow_congr {e Q : ℕ} (inv : α) {m m' : ℕ → α} (h : ∀ x < Q * 2 ^ e, m x = m' x) :
    ∀ x < Q * 2 ^ e, whtRow e inv m x = whtRow e inv m' x := by
  intro x hx
  have hpos := Nat.two_pow_pos e
  unfold whtRow
  congr 1
  apply ladder_congr (by omega) _ _ (Nat.mod_lt x hpos)
  intro l hl
  apply h
  have hq : x / 2 ^ e < Q := (lt_of_tile hpos).mp hx
  calc x / 2 ^ e * 2 ^ e + l < x / 2 ^ e * 2 ^ e + 2 ^ e := Nat.add_lt_add_left hl _
    _ = (x / 2 ^ e + 1) * 2 ^ e := (Nat.succ_mul _ _).symm
    _ ≤ Q * 2 ^ e := Nat.mul_le_mul_right _ hq

/-- One round on a row: gather with signs, then transform. -/
def round [One α] (R : Rotation α) (e : ℕ) (inv : α) (r : ℕ) (m : ℕ → α) : ℕ → α :=
  whtRow e inv (gathered .signed m (R.perms.getD r []) (R.signs.getD r []) 1)

/-- The rotation of a row, as a map of its coordinates. -/
def rotated [One α] (R : Rotation α) (e : ℕ) (inv : α) (m : ℕ → α) : ℕ → α := R.round e inv 1 (R.round e inv 0 m)

end apply

theorem Built.perm_length [One α] [Neg α] {invSqrt : ℕ → α} {R : Rotation α} (h : R.Built invSqrt) {r : ℕ}
    (hr : r < K) : (R.perms.getD r []).length = R.dim := by
  rw [(h.perm r hr).length_eq, List.length_range]

theorem gathered_congr [One α] [Neg α] [Mul α] {invSqrt : ℕ → α} {R : Rotation α} (h : R.Built invSqrt) {r : ℕ} (hr : r < K) {m m' : ℕ → α} (hm : ∀ x < R.dim, m x = m' x)
    (mode : Mode) (signs : List α) (inv : α) : ∀ x < R.dim,
      gathered mode m (R.perms.getD r []) signs inv x = gathered mode m' (R.perms.getD r []) signs inv x := by
  intro x hx
  unfold gathered
  rw [hm _ ((perm_getD (h.perm r hr)).1 x hx)]

section rows variable [Add α] [Sub α] [Mul α] [One α] [Neg α] {invSqrt : ℕ → α} {R : Rotation α}

/-- A round of `apply_with_scratch`, by any kernel. -/
theorem applyRound_some (h : R.Built invSqrt) {e Q : ℕ} (he : 3 ≤ e) (hblock : R.block = 2 ^ e)
    (hdim : R.dim = Q * 2 ^ e) (kernel : Kernel) {row scratch : Buf α} (hrow : row.len = R.dim)
    (hscratch : scratch.len = R.dim) {r : ℕ} (hr : r < K) :
    ∃ out, R.applyRound kernel (row, scratch) r = some (out, row) ∧ out.len = R.dim ∧
      ∀ x < R.dim, out.cells x = R.round e (invSqrt (2 ^ e)) r row.cells x := by
  obtain ⟨out, hout, hlen, hcells⟩ := permuteGather_some kernel .signed row scratch 1
    (hrow.trans hscratch.symm) ((h.perm_length hr).trans hscratch.symm) ((h.signs_length r hr).trans hscratch.symm)
  obtain ⟨hlen', hwht⟩ := wht_apply he hblock hdim h.inv kernel out
  rw [hscratch] at hcells hlen
  refine ⟨R.wht kernel out, ?_, hlen'.trans hlen, fun x hx => ?_⟩
  · unfold applyRound
    rw [hout]
    rfl
  · rw [hwht x hx]
    rw [hdim] at hcells hx
    exact whtRow_congr _ hcells x hx

/-- `apply_with_scratch` on slices of the right lengths, whatever the scratch holds. -/
theorem applyWithScratch_some (h : R.Built invSqrt) {e Q : ℕ} (he : 3 ≤ e) (hblock : R.block = 2 ^ e)
    (hdim : R.dim = Q * 2 ^ e) (kernel : Kernel) {row scratch : Buf α} (hrow : row.len = R.dim)
    (hscratch : scratch.len = R.dim) :
    ∃ out left, R.applyWithScratch kernel row scratch = some (out, left) ∧ out.len = R.dim ∧
      ∀ x < R.dim, out.cells x = R.rotated e (invSqrt (2 ^ e)) row.cells x := by
  obtain ⟨a, ha, hla, hca⟩ := applyRound_some h he hblock hdim kernel hrow hscratch (r := 0) (by decide)
  obtain ⟨b, hb, hlb, hcb⟩ := applyRound_some h he hblock hdim kernel hla hrow (r := 1) (by decide)
  refine ⟨b, a, ?_, hlb, fun x hx => ?_⟩
  · unfold applyWithScratch
    rw [if_pos ⟨hrow, hscratch⟩]
    rw [show List.range K = [0, 1] from rfl, List.foldlM_cons, ha, Option.bind_eq_bind, Option.bind_some,
      List.foldlM_cons, hb]
    rfl
  · rw [hcb x hx]
    unfold rotated round
    have hg := gathered_congr h (r := 1) (by decide) hca .signed (R.signs.getD 1 []) 1
    rw [hdim] at hg hx
    exact whtRow_congr _ hg x hx

/-- `apply_scaled_into` leaves in the destination what `apply_with_scratch` leaves of the scaled source. -/
theorem applyScaledInto_some (h : R.Built invSqrt) {e Q : ℕ} (he : 3 ≤ e) (hblock : R.block = 2 ^ e)
    (hdim : R.dim = Q * 2 ^ e) (kernel : Kernel) {src dst scratch : Buf α} (inv : α) (hsrc : src.len = R.dim)
    (hdst : dst.len = R.dim) (hscratch : scratch.len = R.dim) :
    ∃ out left, R.applyScaledInto kernel src inv dst scratch = some (out, left) ∧ out.len = R.dim ∧
      ∀ x < R.dim, out.cells x = R.rotated e (invSqrt (2 ^ e)) (src.scale inv).cells x := by
  obtain ⟨a, ha, hla, hca⟩ := permuteGather_some kernel .scaled src scratch inv
    (hsrc.trans hscratch.symm) ((h.perm_length (r := 0) (by decide)).trans hscratch.symm)
    ((h.signs_length 0 (by decide)).trans hscratch.symm)
  rw [hscratch] at hla hca
  obtain ⟨-, hwa⟩ := wht_apply he hblock hdim h.inv kernel a
  obtain ⟨b, hb, hlb, hcb⟩ := permuteGather_some kernel .move (mulSigns R.signs1Pre (R.wht kernel a)) dst
    (1 : α) (hla.trans hdst.symm) ((h.perm_length (r := 1) (by decide)).trans hdst.symm) (h.pre.1.trans hdst.symm)
  rw [hdst] at hlb hcb
  obtain ⟨-, hwb⟩ := wht_apply he hblock hdim h.inv kernel b
  refine ⟨R.wht kernel b, mulSigns R.signs1Pre (R.wht kernel a), ?_, hlb, fun x hx => ?_⟩
  · unfold applyScaledInto
    rw [if_pos ⟨hsrc, hdst, hscratch⟩, ha, Option.bind_eq_bind, Option.bind_some]
    dsimp only
    rw [hb]
    rfl
  · rw [hwb x hx]
    unfold rotated round
    have hcells : ∀ x < R.dim, b.cells x = gathered .signed (whtRow e (invSqrt (2 ^ e))
        (gathered .signed (src.scale inv).cells (R.perms.getD 0 []) (R.signs.getD 0 []) 1)) (R.perms.getD 1 [])
        (R.signs.getD 1 []) 1 x := by
      intro x hx
      obtain ⟨hlt, -⟩ := perm_getD (h.perm 1 (by decide))
      have hp := hlt x hx
      have hmin : (R.perms.getD 1 []).getD x 0 < min (R.wht kernel a).len R.signs1Pre.length := by
        rw [h.pre.1]
        exact Nat.lt_min.mpr ⟨lt_of_lt_of_eq hp hla.symm, hp⟩
      -- the pre-scattered sign of the source position is the sign the gather would have taken
      have hsign : (mulSigns R.signs1Pre (R.wht kernel a)).cells ((R.perms.getD 1 []).getD x 0) =
          (R.wht kernel a).cells ((R.perms.getD 1 []).getD x 0) * (R.signs.getD 1 []).getD x 1 := by
        unfold mulSigns
        rw [← h.pre.2 x hx]
        exact if_pos hmin
      have hrow : (R.wht kernel a).cells ((R.perms.getD 1 []).getD x 0) = whtRow e (invSqrt (2 ^ e))
          (gathered .signed (src.scale inv).cells (R.perms.getD 0 []) (R.signs.getD 0 []) 1)
          ((R.perms.getD 1 []).getD x 0) := by
        rw [hwa _ hp]
        rw [hdim] at hca hp
        exact whtRow_congr _ hca _ hp
      rw [hcb x hx]
      show (mulSigns R.signs1Pre (R.wht kernel a)).cells ((R.perms.getD 1 []).getD x 0) = _
      rw [hsign, hrow]
      rfl
    rw [hdim] at hcells hx
    exact whtRow_congr _ hcells x hx

/-! ## Every path, one expression -/

/-- The block kernels leave what the scalar loop leaves, every stage in order and then one scale; the two
ways of rotating a row agree; and each gather stores once to every element of its destination. -/
theorem paths_agree (rng : Rng σ) (seed : σ) (invSqrt : ℕ → α) :
    (∀ (kernel : Kernel) (e : ℕ), 3 ≤ e → ∀ (blk : ℕ → α) (inv : α),
      whtBlock kernel blk (2 ^ e) inv = whtBlockScalar blk (2 ^ e) inv ∧
        ∀ x < 2 ^ e, whtBlock kernel blk (2 ^ e) inv x = ladder 0 e blk x * inv) ∧
    (∀ (dim : ℕ) (R : Rotation α), new rng seed invSqrt dim = some R →
      ∀ (kernel kernel' : Kernel) (src dst scratch scratch' : Buf α) (inv : α), src.len = dim → dst.len = dim →
        scratch.len = dim → scratch'.len = dim → ∃ out left out' left',
          R.applyScaledInto kernel src inv dst scratch = some (out, left) ∧
          R.applyWithScratch kernel' (src.scale inv) scratch' = some (out', left') ∧
          out.len = dim ∧ out'.len = dim ∧ ∀ x < dim, out.cells x = out'.cells x) ∧
    ∀ (kernel : Kernel) (n : ℕ), (gatherStores kernel n).flatMap storeCells = List.range n := by
  refine ⟨fun kernel e he blk inv => ⟨?_, fun x hx => ?_⟩, ?_, gatherStores_cells⟩
  · rw [whtBlock_eq kernel he, whtBlockScalar_eq]
  · rw [whtBlock_eq kernel he, transformed, if_pos hx]
  · intro dim R hR kernel kernel' src dst scratch scratch' inv hsrc hdst hscratch hscratch'
    obtain ⟨h, rfl⟩ := new_built hR
    obtain ⟨e, Q, he, hblock, hdim⟩ := h.block
    obtain ⟨out, left, hout, hlen, hcells⟩ := applyScaledInto_some h he hblock hdim kernel inv hsrc hdst hscratch
    have hscaled : (src.scale inv).len = R.dim := hsrc
    obtain ⟨out', left', hout', hlen', hcells'⟩ := applyWithScratch_some h he hblock hdim kernel' hscaled hscratch'
    refine ⟨out, left, out', left', hout, hout', hlen, hlen', fun x hx => ?_⟩
    rw [hcells x hx, hcells' x hx]

end rows

/-- A generator that always returns zero. -/
def zeroRng : Rng Unit := ⟨fun g => (0, g), fun g => (0, g)⟩

/-- The paths on a row of eight. -/
theorem paths_agree_eight : ∃ R : Rotation ℤ, new zeroRng () (fun _ => 1) 8 = some R ∧
    ∃ out left out' left', R.applyScaledInto .avx512 ⟨8, fun i => i⟩ 3 ⟨8, fun _ => 0⟩ ⟨8, fun _ => 0⟩ = some (out, left) ∧
      R.applyWithScratch .neon (Buf.scale ⟨8, fun i => i⟩ 3) ⟨8, fun _ => 5⟩ = some (out', left') ∧
      out.len = 8 ∧ out'.len = 8 ∧ ∀ x < 8, out.cells x = out'.cells x := by
  refine ⟨_, rfl, ?_⟩
  exact (paths_agree zeroRng () fun _ => (1 : ℤ)).2.1 8 _ rfl .avx512 .neon ⟨8, fun i => i⟩ ⟨8, fun _ => 0⟩
    ⟨8, fun _ => 0⟩ ⟨8, fun _ => 5⟩ 3 rfl rfl rfl rfl

end Rotation
end Turbovec
