import Turbovec.Lib.Grid
import Mathlib.Data.List.Nodup
import Mathlib.Data.List.Lattice

/-!
# Passes that rewrite a buffer in place

A pass is a loop over jobs. Each job owns some cells, and rewrites them to values that depend on its
own cells only, so the pass gives every cell the value its job would have given it in the buffer the
pass started with.
-/

namespace Passes

variable {α κ : Type*} [DecidableEq κ]

/-- Each of the jobs `ks` sets the cells it owns to `val`, and leaves the others. -/
structure Sweep (ks : List κ) (owner : ℕ → κ) (val : (ℕ → α) → ℕ → α) (step : (ℕ → α) → κ → ℕ → α) : Prop where
  nodup : ks.Nodup
  step_eq : ∀ m, ∀ k ∈ ks, ∀ x, step m k x = if owner x = k then val m x else m x
  val_congr : ∀ m m' x, owner x ∈ ks → (∀ y, owner y = owner x → m y = m' y) → val m x = val m' x

/-- The jobs left to do are a sweep too. -/
theorem Sweep.tail {k : κ} {ks : List κ} {owner : ℕ → κ} {val : (ℕ → α) → ℕ → α} {step : (ℕ → α) → κ → ℕ → α}
    (h : Sweep (k :: ks) owner val step) : Sweep ks owner val step where
  nodup := (List.nodup_cons.mp h.nodup).2
  step_eq m k' hk' := h.step_eq m k' (List.mem_cons_of_mem k hk')
  val_congr m m' x hx := h.val_congr m m' x (List.mem_cons_of_mem k hx)

/-- What a whole pass leaves in a cell. -/
theorem Sweep.foldl_apply {ks : List κ} {owner : ℕ → κ} {val : (ℕ → α) → ℕ → α} {step : (ℕ → α) → κ → ℕ → α}
    (h : Sweep ks owner val step) (m : ℕ → α) (x : ℕ) :
    ks.foldl step m x = if owner x ∈ ks then val m x else m x := by
  induction ks generalizing m with
  | nil => simp
  | cons k ks ih =>
    rw [List.foldl_cons, ih h.tail]
    have hk := h.step_eq m k List.mem_cons_self
    by_cases hx : owner x ∈ ks
    · -- a later job's cells are as they were
      have hne : owner x ≠ k := by
        intro heq
        rw [heq] at hx
        exact (List.nodup_cons.mp h.nodup).1 hx
      rw [if_pos hx, if_pos (List.mem_cons_of_mem k hx)]
      apply h.val_congr _ _ x (List.mem_cons_of_mem k hx)
      intro y hy
      rw [hk y, if_neg (hy ▸ hne)]
    · rw [if_neg hx, hk x]
      simp only [List.mem_cons, hx, or_false]

/-! ## Loop bounds -/

/-- Trips of `while i < n { …; i += step }` from zero. -/
def trips (n step : ℕ) : ℕ := (n + step - 1) / step

theorem trips_mul (k : ℕ) {step : ℕ} (h : 0 < step) : trips (k * step) step = k := by
  unfold trips
  rw [Nat.add_sub_assoc h, Nat.mul_comm, Nat.mul_add_div h, Nat.div_eq_of_lt (Nat.sub_lt h Nat.one_pos), Nat.add_zero]

/-- The values of `j` in `while i < n { j = i; while j < i + run { …; j += lanes }; i += stride }`, in order. -/
def starts (stride run lanes n : ℕ) : List ℕ :=
  (List.range (trips n stride)).flatMap fun q => (List.range (trips run lanes)).map fun t => q * stride + t * lanes

variable {stride T L Q : ℕ}

theorem mem_starts (hs : 0 < stride) (hL : 0 < L) {j : ℕ} :
    j ∈ starts stride (T * L) L (Q * stride) ↔ ∃ q < Q, ∃ t < T, j = q * stride + t * L := by
  unfold starts
  rw [trips_mul _ hs, trips_mul _ hL]
  simp only [List.mem_flatMap, List.mem_range, List.mem_map, eq_comm]

theorem nodup_starts (hL : 0 < L) (hT : 0 < T) (h : T * L ≤ stride) : (starts stride (T * L) L (Q * stride)).Nodup := by
  have hTL : 0 < T * L := Nat.mul_pos hT hL
  have hlt {t : ℕ} (ht : t < T) : t * L < stride :=
    Nat.lt_of_lt_of_le (Nat.mul_lt_mul_of_pos_right ht hL) h
  unfold starts
  rw [trips_mul Q (Nat.lt_of_lt_of_le hTL h), trips_mul T hL, List.nodup_flatMap]
  constructor
  · intro q _
    apply List.Nodup.map _ List.nodup_range
    intro t t' htt
    exact Nat.eq_of_mul_eq_mul_right hL (Nat.add_left_cancel htt)
  · apply List.Nodup.pairwise_of_forall_ne List.nodup_range
    intro q _ q' _ hne
    simp only [Function.onFun, List.Disjoint, List.mem_map, List.mem_range]
    rintro j ⟨t, ht, rfl⟩ ⟨t', ht', heq⟩
    exact hne (Grid.mul_add_inj (hlt ht') (hlt ht) heq).1.symm

end Passes
