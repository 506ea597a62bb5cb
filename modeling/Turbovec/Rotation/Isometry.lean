import Turbovec.Rotation.Paths
import Turbovec.Lib.Wrapped
import Mathlib.Tactic.LinearCombination

/-!
# The rotation is an isometry

In exact arithmetic the stages of a block are a linear map whose square is the block size, so with the scale
they are their own inverse and keep every inner product; a gather through a permutation with signs keeps it too.
-/

namespace Turbovec
namespace Rotation

open Passes
open Finset (range)

variable {α σ : Type*} [CommRing α]

/-! ## The stages of a block -/

theorem butterfly_linear (len : ℕ) (a : α) (u v : ℕ → α) (x : ℕ) :
    butterfly len (fun y => a * u y + v y) x = a * butterfly len u x + butterfly len v x := by
  unfold butterfly
  split <;> ring

theorem ladder_linear (a k : ℕ) (c : α) (u v : ℕ → α) (x : ℕ) :
    ladder a k (fun y => c * u y + v y) x = c * ladder a k u x + ladder a k v x := by
  induction k generalizing x with
  | zero => rfl
  | succ k ih =>
    rw [ladder_succ, ladder_succ, ladder_succ, ← butterfly_linear]
    congr 1
    funext y
    exact ih y

theorem ladder_smul (k : ℕ) (c : α) (u : ℕ → α) (x : ℕ) : ladder 0 k (fun y => u y * c) x = ladder 0 k u x * c := by
  have h := ladder_linear 0 k (c - 1) u u x
  rw [show (fun y => (c - 1) * u y + u y) = fun y => u y * c from funext fun y => by ring] at h
  rw [h]
  ring

section halves variable (k : ℕ) (m : ℕ → α)

/-- The last stage, on the lower half: the two halves' transforms added. -/
theorem ladder_lower {x : ℕ} (hx : x < 2 ^ k) :
    ladder 0 (k + 1) m x = ladder 0 k m x + ladder 0 k (fun y => m (2 ^ k + y)) x := by
  have hshift := ladder_shift (Nat.le_refl k) 1 m x
  rw [Nat.one_mul] at hshift
  rw [ladder_succ, Nat.zero_add, butterfly_low hx _ (q := 0) (by omega), Nat.add_comm x, hshift]

/-- On the upper half: subtracted. -/
theorem ladder_upper {x : ℕ} (hx : x < 2 ^ k) :
    ladder 0 (k + 1) m (2 ^ k + x) = ladder 0 k m x - ladder 0 k (fun y => m (2 ^ k + y)) x := by
  have hshift := ladder_shift (Nat.le_refl k) 1 m x
  rw [Nat.one_mul] at hshift
  rw [ladder_succ, Nat.zero_add, Nat.add_comm (2 ^ k), butterfly_high hx _ (q := 0) (by omega), Nat.add_comm x, hshift]

end halves

/-- The stages of a block, twice, are the block size. -/
theorem ladder_ladder (k : ℕ) (m : ℕ → α) : ∀ x < 2 ^ k, ladder 0 k (ladder 0 k m) x = 2 ^ k * m x := by
  induction k generalizing m with
  | zero =>
    intro x _
    rw [pow_zero, one_mul]
    rfl
  | succ k ih =>
    -- the transform of a sum and of a difference of the two halves' transforms
    have hlow (x : ℕ) (hx : x < 2 ^ k) : ladder 0 k (ladder 0 (k + 1) m) x =
        2 ^ k * m x + 2 ^ k * m (2 ^ k + x) := by
      have hsum : ∀ y < 2 ^ k, ladder 0 (k + 1) m y = 1 * ladder 0 k m y + ladder 0 k (fun y => m (2 ^ k + y)) y := by
        intro y hy
        rw [ladder_lower k m hy, one_mul]
      rw [ladder_congr (by omega) hsum x hx, ladder_linear, ih _ x hx, ih _ x hx, one_mul]
    have hhigh (x : ℕ) (hx : x < 2 ^ k) : ladder 0 k (fun y => ladder 0 (k + 1) m (2 ^ k + y)) x =
        2 ^ k * m x - 2 ^ k * m (2 ^ k + x) := by
      have hsub : ∀ y < 2 ^ k, ladder 0 (k + 1) m (2 ^ k + y) =
          -1 * ladder 0 k (fun y => m (2 ^ k + y)) y + ladder 0 k m y := by
        intro y hy
        rw [ladder_upper k m hy]
        ring
      rw [ladder_congr (by omega) hsub x hx, ladder_linear, ih _ x hx, ih _ x hx]
      ring
    intro x hx
    rw [pow_succ] at hx
    rcases Nat.lt_or_ge x (2 ^ k) with hlt | hge
    · rw [ladder_lower k _ hlt, hlow x hlt, hhigh x hlt]
      ring
    · obtain ⟨y, rfl⟩ := Nat.exists_eq_add_of_le hge
      rw [ladder_upper k _ (by omega), hlow y (by omega), hhigh y (by omega)]
      ring

/-- The stages of a block multiply inner products by the block size. -/
theorem ladder_inner (k : ℕ) (u v : ℕ → α) :
    ∑ x ∈ range (2 ^ k), ladder 0 k u x * ladder 0 k v x = 2 ^ k * ∑ x ∈ range (2 ^ k), u x * v x := by
  induction k generalizing u v with
  | zero =>
    rw [pow_zero, pow_zero, one_mul]
    rfl
  | succ k ih =>
    have hcells : ∀ x ∈ range (2 ^ k), ladder 0 (k + 1) u x * ladder 0 (k + 1) v x +
        ladder 0 (k + 1) u (2 ^ k + x) * ladder 0 (k + 1) v (2 ^ k + x) =
          2 * (ladder 0 k u x * ladder 0 k v x) +
            2 * (ladder 0 k (fun y => u (2 ^ k + y)) x * ladder 0 k (fun y => v (2 ^ k + y)) x) := by
      intro x hx
      rw [Finset.mem_range] at hx
      rw [ladder_lower k u hx, ladder_lower k v hx, ladder_upper k u hx, ladder_upper k v hx]
      ring
    rw [pow_succ, Nat.mul_two, Finset.sum_range_add, Finset.sum_range_add, ← Finset.sum_add_distrib,
      Finset.sum_congr rfl hcells, Finset.sum_add_distrib, ← Finset.mul_sum, ← Finset.mul_sum, ih, ih]
    ring

/-! ## The transform of a row -/

section row variable {e Q : ℕ} {inv : α}

theorem whtRow_tile (m : ℕ → α) {q r : ℕ} (hr : r < 2 ^ e) :
    whtRow e inv m (q * 2 ^ e + r) = ladder 0 e (fun l => m (q * 2 ^ e + l)) r * inv := by
  unfold whtRow
  rw [Grid.mul_add_div hr, Grid.mul_add_mod hr]

theorem whtRow_linear (a : α) (u v : ℕ → α) (x : ℕ) :
    whtRow e inv (fun y => a * u y + v y) x = a * whtRow e inv u x + whtRow e inv v x := by
  unfold whtRow
  rw [ladder_linear]
  ring

/-- With the scale, the transform is its own inverse. -/
theorem whtRow_whtRow (hinv : inv * inv * 2 ^ e = 1) (m : ℕ → α) (x : ℕ) : whtRow e inv (whtRow e inv m) x = m x := by
  have hpos := Nat.two_pow_pos e
  have hr := Nat.mod_lt x hpos
  have hin : ∀ l < 2 ^ e, whtRow e inv m (x / 2 ^ e * 2 ^ e + l) =
      ladder 0 e (fun l => m (x / 2 ^ e * 2 ^ e + l)) l * inv := fun l hl => whtRow_tile m hl
  have hout := ladder_ladder e (fun l => m (x / 2 ^ e * 2 ^ e + l)) _ hr
  rw [Nat.div_add_mod'] at hout
  show ladder 0 e (fun l => whtRow e inv m (x / 2 ^ e * 2 ^ e + l)) (x % 2 ^ e) * inv = m x
  rw [ladder_congr (by omega) hin _ hr, ladder_smul, hout]
  linear_combination m x * hinv

theorem whtRow_inner (hinv : inv * inv * 2 ^ e = 1) (u v : ℕ → α) :
    ∑ x ∈ range (Q * 2 ^ e), whtRow e inv u x * whtRow e inv v x = ∑ x ∈ range (Q * 2 ^ e), u x * v x := by
  rw [Wrapped.sum_range_mul, Wrapped.sum_range_mul]
  apply Finset.sum_congr rfl
  intro q _
  have hcells : ∀ r ∈ range (2 ^ e), whtRow e inv u (q * 2 ^ e + r) * whtRow e inv v (q * 2 ^ e + r) =
      inv * inv * (ladder 0 e (fun l => u (q * 2 ^ e + l)) r * ladder 0 e (fun l => v (q * 2 ^ e + l)) r) := by
    intro r hr
    rw [Finset.mem_range] at hr
    rw [whtRow_tile u hr, whtRow_tile v hr]
    ring
  rw [Finset.sum_congr rfl hcells, ← Finset.mul_sum, ladder_inner]
  linear_combination (∑ r ∈ range (2 ^ e), u (q * 2 ^ e + r) * v (q * 2 ^ e + r)) * hinv

end row

/-! ## The gather with signs -/

section rounds variable {invSqrt : ℕ → α} {R : Rotation α}

omit [CommRing α] in
theorem mem_of_getD {l : List α} {x : ℕ} (hx : x < l.length) (d : α) : l.getD x d ∈ l := by
  rw [List.getD_eq_getElem?_getD, List.getElem?_eq_getElem hx, Option.getD_some]
  exact List.getElem_mem hx

/-- The sign of an element is its own inverse. -/
theorem Built.sign_sq (h : R.Built invSqrt) {r x : ℕ} (hr : r < K) (hx : x < R.dim) :
    (R.signs.getD r []).getD x 1 * (R.signs.getD r []).getD x 1 = 1 := by
  have hlen : x < (R.signs.getD r []).length := by
    rw [h.signs_length r hr]
    exact hx
  rcases h.signs r hr _ (mem_of_getD hlen 1) with h1 | h1
  · rw [h1, one_mul]
  · rw [h1]
    ring

/-- A sum over the coordinates, read through a permutation of them. -/
theorem sum_perm {perm : List ℕ} {dim : ℕ} (h : perm.Perm (List.range dim)) (f : ℕ → α) :
    ∑ x ∈ range dim, f (perm.getD x 0) = ∑ x ∈ range dim, f x := by
  obtain ⟨hlt, hinj⟩ := perm_getD h
  have hmaps : ∀ x ∈ range dim, perm.getD x 0 ∈ range dim := by
    intro x hx
    rw [Finset.mem_range] at *
    exact hlt x hx
  have hinjOn : Set.InjOn (fun x => perm.getD x 0) (range dim : Finset ℕ) := by
    intro x hx y hy heq
    rw [Finset.mem_coe, Finset.mem_range] at hx hy
    exact hinj x hx y hy heq
  exact Finset.sum_nbij (fun x => perm.getD x 0) hmaps hinjOn
    (Finset.surjOn_of_injOn_of_card_le _ hmaps hinjOn (Nat.le_refl _)) fun _ _ => rfl

theorem round_linear (e : ℕ) (inv : α) (r : ℕ) (a : α) (u v : ℕ → α) (x : ℕ) :
    R.round e inv r (fun y => a * u y + v y) x = a * R.round e inv r u x + R.round e inv r v x := by
  unfold round
  rw [← whtRow_linear]
  congr 1
  funext y
  show (a * u _ + v _) * _ = a * (u _ * _) + v _ * _
  ring

theorem round_inner (h : R.Built invSqrt) {e Q : ℕ} (hdim : R.dim = Q * 2 ^ e) {inv : α}
    (hinv : inv * inv * 2 ^ e = 1) {r : ℕ} (hr : r < K) (u v : ℕ → α) :
    ∑ x ∈ range R.dim, R.round e inv r u x * R.round e inv r v x = ∑ x ∈ range R.dim, u x * v x := by
  have hcells : ∀ x ∈ range R.dim,
      gathered .signed u (R.perms.getD r []) (R.signs.getD r []) 1 x *
        gathered .signed v (R.perms.getD r []) (R.signs.getD r []) 1 x =
      u ((R.perms.getD r []).getD x 0) * v ((R.perms.getD r []).getD x 0) := by
    intro x hx
    rw [Finset.mem_range] at hx
    show u _ * _ * (v _ * _) = _
    linear_combination (u ((R.perms.getD r []).getD x 0) * v ((R.perms.getD r []).getD x 0)) * h.sign_sq hr hx
  unfold round
  have hwht := whtRow_inner (Q := Q) hinv (gathered .signed u (R.perms.getD r []) (R.signs.getD r []) 1)
    (gathered .signed v (R.perms.getD r []) (R.signs.getD r []) 1)
  rw [← hdim] at hwht
  rw [hwht, Finset.sum_congr rfl hcells]
  exact sum_perm (h.perm r hr) fun x => u x * v x

/-- A round undone: transform, multiply by the signs, and send each element to its source. -/
def unround (R : Rotation α) (e : ℕ) (inv : α) (r : ℕ) (m : ℕ → α) : ℕ → α := fun x =>
  whtRow e inv m ((R.perms.getD r []).idxOf x) * (R.signs.getD r []).getD ((R.perms.getD r []).idxOf x) 1

/-- The rounds undone, the last one first. -/
def unrotated (R : Rotation α) (e : ℕ) (inv : α) (m : ℕ → α) : ℕ → α := R.unround e inv 0 (R.unround e inv 1 m)

/-- The position of an element, and the element at a position. -/
theorem Built.idxOf (h : R.Built invSqrt) {r x : ℕ} (hr : r < K) (hx : x < R.dim) :
    (R.perms.getD r []).idxOf x < R.dim ∧ (R.perms.getD r []).getD ((R.perms.getD r []).idxOf x) 0 = x ∧
      (R.perms.getD r []).idxOf ((R.perms.getD r []).getD x 0) = x := by
  have hperm := h.perm r hr
  have hlen := h.perm_length hr
  have hmem : x ∈ R.perms.getD r [] := hperm.mem_iff.mpr (List.mem_range.mpr hx)
  have hlt := List.idxOf_lt_length_of_mem hmem
  refine ⟨by omega, ?_, ?_⟩
  · rw [List.getD_eq_getElem?_getD, List.getElem?_eq_getElem hlt, Option.getD_some, List.getElem_idxOf]
  · rw [List.getD_eq_getElem?_getD, List.getElem?_eq_getElem (by omega), Option.getD_some]
    exact List.Nodup.idxOf_getElem (hperm.nodup_iff.mpr List.nodup_range) x (by omega)

theorem unround_round (h : R.Built invSqrt) {e : ℕ} {inv : α} (hinv : inv * inv * 2 ^ e = 1) {r : ℕ} (hr : r < K)
    (m : ℕ → α) : ∀ x < R.dim, R.unround e inv r (R.round e inv r m) x = m x := by
  intro x hx
  obtain ⟨hlt, hget, -⟩ := h.idxOf hr hx
  unfold unround round
  rw [whtRow_whtRow hinv]
  show m ((R.perms.getD r []).getD ((R.perms.getD r []).idxOf x) 0) * _ * _ = m x
  rw [hget, mul_assoc, h.sign_sq hr hlt, mul_one]

theorem round_unround (h : R.Built invSqrt) {e Q : ℕ} (hdim : R.dim = Q * 2 ^ e) {inv : α}
    (hinv : inv * inv * 2 ^ e = 1) {r : ℕ} (hr : r < K) (m : ℕ → α) :
    ∀ x < R.dim, R.round e inv r (R.unround e inv r m) x = m x := by
  intro x hx
  have hcells : ∀ y < R.dim,
      gathered .signed (R.unround e inv r m) (R.perms.getD r []) (R.signs.getD r []) 1 y = whtRow e inv m y := by
    intro y hy
    show whtRow e inv m _ * _ * _ = _
    rw [(h.idxOf hr hy).2.2, mul_assoc, h.sign_sq hr hy, mul_one]
  unfold round
  rw [hdim] at hcells hx
  rw [whtRow_congr inv hcells x hx, whtRow_whtRow hinv]

/-- A round reads the row alone. -/
theorem round_congr (h : R.Built invSqrt) {e Q : ℕ} (hdim : R.dim = Q * 2 ^ e) (inv : α) {r : ℕ} (hr : r < K)
    {m m' : ℕ → α} (hm : ∀ x < R.dim, m x = m' x) : ∀ x < R.dim, R.round e inv r m x = R.round e inv r m' x := by
  intro x hx
  have hg := gathered_congr h hr hm .signed (R.signs.getD r []) 1
  rw [hdim] at hg hx
  exact whtRow_congr inv hg x hx

theorem unround_congr (h : R.Built invSqrt) {e Q : ℕ} (hdim : R.dim = Q * 2 ^ e) (inv : α) {r : ℕ} (hr : r < K)
    {m m' : ℕ → α} (hm : ∀ x < R.dim, m x = m' x) : ∀ x < R.dim, R.unround e inv r m x = R.unround e inv r m' x := by
  intro x hx
  have hlt := (h.idxOf hr hx).1
  unfold unround
  congr 1
  rw [hdim] at hm hlt
  exact whtRow_congr inv hm _ hlt

theorem unrotated_rotated (h : R.Built invSqrt) {e Q : ℕ} (hdim : R.dim = Q * 2 ^ e) {inv : α}
    (hinv : inv * inv * 2 ^ e = 1) (m : ℕ → α) : ∀ x < R.dim, R.unrotated e inv (R.rotated e inv m) x = m x := by
  intro x hx
  unfold unrotated rotated
  rw [unround_congr h hdim inv (by decide) (unround_round h hinv (r := 1) (by decide) _) x hx]
  exact unround_round h hinv (by decide) m x hx

theorem rotated_unrotated (h : R.Built invSqrt) {e Q : ℕ} (hdim : R.dim = Q * 2 ^ e) {inv : α}
    (hinv : inv * inv * 2 ^ e = 1) (m : ℕ → α) : ∀ x < R.dim, R.rotated e inv (R.unrotated e inv m) x = m x := by
  intro x hx
  unfold unrotated rotated
  rw [round_congr h hdim inv (by decide) (round_unround h hdim hinv (r := 0) (by decide) _) x hx]
  exact round_unround h hdim hinv (by decide) m x hx

end rounds

/-! ## The rotation -/

theorem new_some (rng : Rng σ) (seed : σ) (invSqrt : ℕ → α) {dim : ℕ} (hpos : 0 < dim)
    (h8 : dim % 8 = 0) (hmax : dim ≤ IoV7.MAX_DIM) : ∃ R, new rng seed invSqrt dim = some R := by
  unfold new
  rw [if_neg (not_not.mpr ⟨hpos, h8⟩), if_neg (not_not.mpr hmax)]
  exact ⟨_, rfl⟩

/-- At every dimension the constructor takes and whatever the generator returns: the shuffles are permutations,
the blocks divide the row, the stages of a block square to its size, and rotating a row is a linear map that keeps
inner products and that the reversed stages undo. -/
theorem rotation_isometry (rng : Rng σ) (seed : σ) (invSqrt : ℕ → α) {dim : ℕ} (hpos : 0 < dim) (h8 : dim % 8 = 0)
    (hmax : dim ≤ IoV7.MAX_DIM) (hinv : invSqrt (blockSize dim) * invSqrt (blockSize dim) * (blockSize dim : α) = 1) :
    (∀ g, (fisherYates rng dim g).1.Perm (List.range dim)) ∧
    blockSize dim ∣ dim ∧
    (∀ (m : ℕ → α), ∀ x < blockSize dim,
      whtStages (blockSize dim) 1 (whtStages (blockSize dim) 1 m) x = (blockSize dim : α) * m x) ∧
    ∃ R e, new rng seed invSqrt dim = some R ∧ R.dim = dim ∧ R.block = 2 ^ e ∧
      (∀ (kernel : Kernel) (row scratch : Buf α), row.len = dim → scratch.len = dim → ∃ out left,
        R.applyWithScratch kernel row scratch = some (out, left) ∧ out.len = dim ∧
          ∀ x < dim, out.cells x = R.rotated e (invSqrt (2 ^ e)) row.cells x) ∧
      (∀ (a : α) (u v : ℕ → α), ∀ x < dim, R.rotated e (invSqrt (2 ^ e)) (fun y => a * u y + v y) x =
        a * R.rotated e (invSqrt (2 ^ e)) u x + R.rotated e (invSqrt (2 ^ e)) v x) ∧
      (∀ u v : ℕ → α, ∑ x ∈ range dim, R.rotated e (invSqrt (2 ^ e)) u x * R.rotated e (invSqrt (2 ^ e)) v x =
        ∑ x ∈ range dim, u x * v x) ∧
      ∀ m : ℕ → α, ∀ x < dim, R.unrotated e (invSqrt (2 ^ e)) (R.rotated e (invSqrt (2 ^ e)) m) x = m x ∧
        R.rotated e (invSqrt (2 ^ e)) (R.unrotated e (invSqrt (2 ^ e)) m) x = m x := by
  have hmax' : dim ≤ 16384 := hmax
  obtain ⟨R, hR⟩ := new_some rng seed invSqrt hpos h8 hmax
  obtain ⟨h, rfl⟩ := new_built hR
  obtain ⟨e, Q, he, hsize, hdim⟩ := blockSize_eq hpos h8 (show R.dim < 2 ^ 64 by omega)
  have hblock : R.block = 2 ^ e := by
    rw [← hsize]
    unfold new at hR
    rw [if_neg (not_not.mpr ⟨hpos, h8⟩), if_neg (not_not.mpr hmax)] at hR
    rw [← Option.some.inj hR]
  rw [hsize, Nat.cast_pow, Nat.cast_ofNat] at hinv
  refine ⟨fisherYates_perm rng (by omega), ⟨Q, ?_⟩, ?_, R, e, hR, rfl, hblock, ?_, ?_, ?_, ?_⟩
  · rw [hsize, Nat.mul_comm]
    exact hdim
  · intro m x hx
    have hstages (m : ℕ → α) : Reached e e m (whtStages (2 ^ e) 1 m) :=
      Reached.whtStages (a := 0) ⟨fun _ _ => rfl, fun _ _ => rfl⟩ (Nat.zero_le e)
    rw [hsize] at hx ⊢
    rw [(hstages _).inside x hx, ladder_congr (by omega) (hstages m).inside x hx, ladder_ladder e m x hx, Nat.cast_pow,
      Nat.cast_ofNat]
  · intro kernel row scratch hrow hscratch
    exact applyWithScratch_some h he hblock hdim kernel hrow hscratch
  · intro a u v x hx
    unfold rotated
    rw [← round_linear]
    apply round_congr h hdim _ (by decide) _ x hx
    intro y _
    exact round_linear e _ 0 a u v y
  · intro u v
    unfold rotated
    rw [round_inner h hdim hinv (by decide), round_inner h hdim hinv (by decide)]
  · intro m x hx
    exact ⟨unrotated_rotated h hdim hinv m x hx, rotated_unrotated h hdim hinv m x hx⟩

/-- A row of sixty-four, whose scale is one eighth. -/
theorem rotation_isometry_sixty_four : ∃ R e, new zeroRng () (fun _ => (1 / 8 : ℚ)) 64 = some R ∧
    (∀ u v : ℕ → ℚ, ∑ x ∈ range 64, R.rotated e (1 / 8) u x * R.rotated e (1 / 8) v x = ∑ x ∈ range 64, u x * v x) ∧
      ∀ m : ℕ → ℚ, ∀ x < 64, R.unrotated e (1 / 8) (R.rotated e (1 / 8) m) x = m x := by
  have hsize : blockSize 64 = 64 := by decide
  have hinv : (1 / 8 : ℚ) * (1 / 8) * (blockSize 64 : ℚ) = 1 := by
    rw [hsize]
    norm_num
  obtain ⟨-, -, -, R, e, hR, -, -, -, -, hinner, hundo⟩ :=
    rotation_isometry zeroRng () (fun _ => (1 / 8 : ℚ)) (by decide) (by decide) (by decide) hinv
  exact ⟨R, e, hR, hinner, fun m x hx => (hundo m x hx).1⟩

end Rotation
end Turbovec
