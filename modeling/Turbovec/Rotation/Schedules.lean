import Turbovec.Rotation.Hadamard

/-!
# The kernels evaluate the scalar loop's expressions

Each pass of a kernel is the stages it replaces, as maps of the whole block; so every kernel is the ladder
of all stages, followed by one scale.
-/

namespace Turbovec
namespace Rotation

open Passes

variable {α : Type*}

/-! ## Passes over tiles -/

theorem mem_tile {g q x : ℕ} (hg : 0 < g) : x / g * g = q * g ↔ q * g ≤ x ∧ x < q * g + g := by
  have hmod := Nat.mod_lt x hg
  have hdiv := Nat.div_add_mod' x g
  constructor
  · intro h
    omega
  · rintro ⟨hle, hlt⟩
    rw [Nat.div_eq_of_lt_le hle (by rwa [Nat.succ_mul])]

theorem lt_of_tile {g Q x : ℕ} (hg : 0 < g) : x < Q * g ↔ x / g < Q := by
  rw [Nat.div_lt_iff_lt_mul hg]

theorem mem_tiles {g Q x : ℕ} (hg : 0 < g) : x / g * g ∈ starts g g g (Q * g) ↔ x < Q * g := by
  have h := @mem_starts g 1 g Q hg hg (x / g * g)
  rw [Nat.one_mul] at h
  rw [h, lt_of_tile hg]
  constructor
  · rintro ⟨q, hq, t, ht, heq⟩
    obtain rfl : t = 0 := by omega
    rw [Nat.zero_mul, Nat.add_zero] at heq
    rw [Nat.eq_of_mul_eq_mul_right hg heq]
    exact hq
  · intro hq
    exact ⟨x / g, hq, 0, Nat.one_pos, by rw [Nat.zero_mul, Nat.add_zero]⟩

/-- A pass that transforms tiles of `g` cells, one after the other. -/
theorem tiles_apply {g Q : ℕ} (hg : 0 < g) {f : (ℕ → α) → ℕ → α} {step : (ℕ → α) → ℕ → ℕ → α}
    (hstep : ∀ m j x, step m j x = if j ≤ x ∧ x < j + g then f (fun l => m (j + l)) (x - j) else m x)
    (hf : ∀ v v' : ℕ → α, (∀ l < g, v l = v' l) → ∀ l < g, f v l = f v' l) (m : ℕ → α) (x : ℕ) :
    (starts g g g (Q * g)).foldl step m x = if x < Q * g then f (fun l => m (x / g * g + l)) (x % g) else m x := by
  have hmod (x : ℕ) : x - x / g * g = x % g := by
    have := Nat.div_add_mod' x g
    omega
  have hsweep : Sweep (starts g g g (Q * g)) (fun x => x / g * g)
      (fun m x => f (fun l => m (x / g * g + l)) (x % g)) step := by
    constructor
    · have h := @nodup_starts g 1 g Q hg Nat.one_pos (by omega)
      rwa [Nat.one_mul] at h
    · intro m j hj x
      have h := @mem_starts g 1 g Q hg hg j
      rw [Nat.one_mul] at h
      obtain ⟨q, _, t, ht, rfl⟩ := h.mp hj
      obtain rfl : t = 0 := by omega
      rw [Nat.zero_mul, Nat.add_zero, hstep]
      by_cases hx : x / g * g = q * g
      · rw [if_pos hx, if_pos ((mem_tile hg).mp hx), ← hx, hmod]
      · rw [if_neg hx, if_neg (hx ∘ (mem_tile hg).mpr)]
    · intro m m' x _ hm
      apply hf _ _ _ _ (Nat.mod_lt _ hg)
      intro l hl
      apply hm
      exact (mem_tile hg).mpr ⟨Nat.le_add_right _ _, Nat.add_lt_add_left hl _⟩
  rw [hsweep.foldl_apply]
  simp only [mem_tiles hg]

theorem scalePass_apply [Mul α] {lanes Q : ℕ} (hg : 0 < lanes) (inv : α) (m : ℕ → α) (x : ℕ) :
    scalePass lanes (Q * lanes) inv m x = if x < Q * lanes then m x * inv else m x := by
  unfold scalePass
  rw [tiles_apply hg (f := fun v l => v l * inv)]
  · show (if x < Q * lanes then m (x / lanes * lanes + x % lanes) * inv else m x) = _
    rw [Nat.div_add_mod']
  · intro m j x
    split
    · rename_i h
      show m x * inv = m (j + (x - j)) * inv
      rw [Nat.add_sub_cancel' h.1]
    · rfl
  · intro v v' h l hl
    rw [h l hl]

/-! ## Cells of a radix pass -/

/-- The job of a radix pass that owns a cell. -/
def owner (stride len lanes x : ℕ) : ℕ := x / stride * stride + x % len / lanes * lanes

variable {R T L Q : ℕ}

/-- A cell in the `t`-th job of the `q`-th group of runs: slot `s`, lane `l`. -/
theorem cell_lt {s t l : ℕ} (hs : s < R) (ht : t < T) (hl : l < L) : t * L + l < T * L ∧
    s * (T * L) + (t * L + l) < R * (T * L) := by
  have htl : t * L + l < T * L := by
    calc t * L + l < t * L + L := Nat.add_lt_add_left hl _
      _ = (t + 1) * L := (Nat.succ_mul t L).symm
      _ ≤ T * L := Nat.mul_le_mul_right L ht
  refine ⟨htl, ?_⟩
  calc s * (T * L) + (t * L + l) < s * (T * L) + T * L := Nat.add_lt_add_left htl _
    _ = (s + 1) * (T * L) := (Nat.succ_mul s _).symm
    _ ≤ R * (T * L) := Nat.mul_le_mul_right _ hs

/-- The coordinates of a cell, read back from its address. -/
theorem cell_coords {q s t l : ℕ} (hs : s < R) (ht : t < T) (hl : l < L) :
    (q * (R * (T * L)) + (s * (T * L) + (t * L + l))) / (R * (T * L)) = q ∧
    (q * (R * (T * L)) + (s * (T * L) + (t * L + l))) % (R * (T * L)) / (T * L) = s ∧
    (q * (R * (T * L)) + (s * (T * L) + (t * L + l))) % (T * L) = t * L + l ∧
    owner (R * (T * L)) (T * L) L (q * (R * (T * L)) + (s * (T * L) + (t * L + l))) = q * (R * (T * L)) + t * L := by
  obtain ⟨htl, hlt⟩ := cell_lt hs ht hl
  have hmod : (q * (R * (T * L)) + (s * (T * L) + (t * L + l))) % (T * L) = t * L + l := by
    rw [← Nat.add_assoc, ← Nat.mul_assoc, ← Nat.add_mul, Grid.mul_add_mod htl]
  refine ⟨Grid.mul_add_div hlt, ?_, hmod, ?_⟩
  · rw [Grid.mul_add_mod hlt, Grid.mul_add_div htl]
  · unfold owner
    rw [hmod, Grid.mul_add_div hlt, Grid.mul_add_div hl]

/-- Every cell has coordinates. -/
theorem exists_cell (hR : 0 < R) (hT : 0 < T) (hL : 0 < L) (x : ℕ) :
    ∃ q, ∃ s < R, ∃ t < T, ∃ l < L, x = q * (R * (T * L)) + (s * (T * L) + (t * L + l)) := by
  have hTL : 0 < T * L := Nat.mul_pos hT hL
  refine ⟨x / (R * (T * L)), x % (R * (T * L)) / (T * L), ?_, x % (R * (T * L)) % (T * L) / L, ?_,
    x % (R * (T * L)) % (T * L) % L, Nat.mod_lt _ hL, ?_⟩
  · rw [Nat.div_lt_iff_lt_mul hTL]
    exact Nat.mod_lt _ (Nat.mul_pos hR hTL)
  · rw [Nat.div_lt_iff_lt_mul hL]
    exact Nat.mod_lt _ hTL
  · rw [Nat.div_add_mod', Nat.div_add_mod', Nat.div_add_mod']

/-! ## Strided stores -/

theorem storeStrided_below {lanes len : ℕ} (vs : List (ℕ → α)) (m : ℕ → α) {p x : ℕ} (hx : x < p) :
    storeStrided lanes len m p vs x = m x := by
  induction vs generalizing m p with
  | nil => rfl
  | cons v vs ih =>
    unfold storeStrided
    rw [ih _ (by omega), storeu, if_neg (by omega)]

theorem storeStrided_slot {lanes len : ℕ} (h : lanes ≤ len) (vs : List (ℕ → α)) (m : ℕ → α) (p : ℕ) {s l : ℕ}
    (hs : s < vs.length) (hl : l < lanes) : storeStrided lanes len m p vs (p + s * len + l) = vs[s] l := by
  induction vs generalizing m p s with
  | nil => exact absurd hs (Nat.not_lt_zero s)
  | cons v vs ih =>
    unfold storeStrided
    cases s with
    | zero =>
      rw [Nat.zero_mul, Nat.add_zero, storeStrided_below _ _ (by omega), storeu, if_pos (by omega),
        Nat.add_sub_cancel_left]
      rfl
    | succ s =>
      rw [Nat.succ_mul, Nat.add_comm (s * len), ← Nat.add_assoc, ih _ _ (Nat.lt_of_succ_lt_succ hs)]
      rfl

theorem storeStrided_other {lanes len : ℕ} (vs : List (ℕ → α)) (m : ℕ → α) (p : ℕ) {x : ℕ}
    (hx : ∀ s < vs.length, ∀ l < lanes, x ≠ p + s * len + l) : storeStrided lanes len m p vs x = m x := by
  induction vs generalizing m p with
  | nil => rfl
  | cons v vs ih =>
    unfold storeStrided
    rw [ih, storeu, if_neg]
    · rintro ⟨hle, hlt⟩
      exact hx 0 (Nat.zero_lt_succ _) (x - p) (by omega) (by omega)
    · intro s hs l hl heq
      apply hx (s + 1) (Nat.succ_lt_succ hs) l hl
      rw [heq, Nat.succ_mul]
      omega

/-! ## Radix passes -/

/-- A network of `radix` values that acts on registers lane by lane. -/
structure LaneNet (radix : ℕ) (net : (ℕ → ℕ → α) → List (ℕ → α)) (one : (ℕ → α) → List α) : Prop where
  lane : ∀ v l, (net v).map (· l) = one fun s => v s l
  length : ∀ v, (one v).length = radix
  congr : ∀ v v', (∀ s < radix, v s = v' s) → one v = one v'

theorem LaneNet.length_net {net : (ℕ → ℕ → α) → List (ℕ → α)} {one : (ℕ → α) → List α} (h : LaneNet R net one)
    (v : ℕ → ℕ → α) : (net v).length = R := by
  rw [← h.length fun s => v s 0, ← h.lane, List.length_map]

/-- A cell after a radix pass: its slot of the network on the cells `len` apart. -/
theorem radixPass_apply {net : (ℕ → ℕ → α) → List (ℕ → α)} {one : (ℕ → α) → List α} (h : LaneNet R net one)
    (hR : 0 < R) (hT : 0 < T) (hL : 0 < L) (m : ℕ → α) {q s t l : ℕ} (hq : q < Q) (hs : s < R) (ht : t < T)
    (hl : l < L) : radixPass R net L (T * L) (Q * (R * (T * L))) m (q * (R * (T * L)) + (s * (T * L) + (t * L + l))) =
      (one fun s' => m (q * (R * (T * L)) + (t * L + l) + s' * (T * L))).getD s (m 0) := by
  have hTL : 0 < T * L := Nat.mul_pos hT hL
  have hS : 0 < R * (T * L) := Nat.mul_pos hR hTL
  have hLT : L ≤ T * L := Nat.le_mul_of_pos_left L hT
  have hsweep : Sweep (starts (R * (T * L)) (T * L) L (Q * (R * (T * L)))) (owner (R * (T * L)) (T * L) L)
      (fun m x => (one fun s' => m (x / (R * (T * L)) * (R * (T * L)) + x % (T * L) + s' * (T * L))).getD
        (x % (R * (T * L)) / (T * L)) (m x))
      (fun m j => storeStrided L (T * L) m j (net fun s => loadu m (j + s * (T * L)))) := by
    constructor
    · exact nodup_starts hL hT (Nat.le_mul_of_pos_left _ hR)
    · intro m j hj x
      obtain ⟨q, _, t, ht, rfl⟩ := (mem_starts hS hL).mp hj
      have haddr (s l : ℕ) : q * (R * (T * L)) + t * L + s * (T * L) + l =
          q * (R * (T * L)) + (s * (T * L) + (t * L + l)) := by omega
      by_cases hx : owner (R * (T * L)) (T * L) L x = q * (R * (T * L)) + t * L
      · -- the job's own cells take their lane of the network
        rw [if_pos hx]
        obtain ⟨q', s, hs, t', ht', l, hl, rfl⟩ := exists_cell hR hT hL x
        obtain ⟨hdiv, hslot, hmod, hown⟩ := cell_coords (q := q') hs ht' hl
        rw [hown] at hx
        obtain ⟨rfl, htt⟩ := Grid.mul_add_inj (by have := (cell_lt hs ht' hl).2; omega)
          (by have := (cell_lt hs ht hl).2; omega) hx
        obtain rfl := Nat.eq_of_mul_eq_mul_right hL htt
        have hslen : s < (net fun s' => loadu m (q' * (R * (T * L)) + t' * L + s' * (T * L))).length := by
          rw [h.length_net]
          exact hs
        rw [hdiv, hslot, hmod, ← haddr, storeStrided_slot hLT _ _ _ hslen hl]
        have hlane := h.lane (fun s' => loadu m (q' * (R * (T * L)) + t' * L + s' * (T * L))) l
        have hone : (one fun s' => m (q' * (R * (T * L)) + (t' * L + l) + s' * (T * L))) =
            one fun s' => loadu m (q' * (R * (T * L)) + t' * L + s' * (T * L)) l := by
          apply h.congr
          intro s' _
          unfold loadu
          congr 1
          omega
        rw [hone, ← hlane, List.getD_eq_getElem?_getD, List.getElem?_eq_getElem (by rw [List.length_map]; exact hslen), Option.getD_some, List.getElem_map]
      · rw [if_neg hx]
        apply storeStrided_other
        intro s hs l hl heq
        rw [h.length_net] at hs
        rw [heq, haddr, (cell_coords hs ht hl).2.2.2] at hx
        exact hx rfl
    · intro m m' x _ hm
      obtain ⟨q, s, hs, t, ht, l, hl, rfl⟩ := exists_cell hR hT hL x
      obtain ⟨hdiv, hslot, hmod, hown⟩ := cell_coords (q := q) hs ht hl
      rw [hdiv, hslot, hmod, hm _ rfl]
      congr 1
      apply h.congr
      intro s' hs'
      apply hm
      rw [hown, Nat.add_assoc, Nat.add_comm (t * L + l), (cell_coords hs' ht hl).2.2.2]
  unfold radixPass
  obtain ⟨hdiv, hslot, hmod, hown⟩ := cell_coords (q := q) hs ht hl
  rw [hsweep.foldl_apply, hown, if_pos ((mem_starts hS hL).mpr ⟨q, hq, t, ht, rfl⟩), hdiv, hslot, hmod]
  have hlen := h.length fun s' => m (q * (R * (T * L)) + (t * L + l) + s' * (T * L))
  rw [List.getD_eq_getElem?_getD, List.getD_eq_getElem?_getD, List.getElem?_eq_getElem (by omega), Option.getD_some,
    Option.getD_some]

/-- A radix pass leaves the cells past the block. -/
theorem radixPass_past {net : (ℕ → ℕ → α) → List (ℕ → α)} {one : (ℕ → α) → List α} (h : LaneNet R net one)
    (hR : 0 < R) (hT : 0 < T) (hL : 0 < L) (m : ℕ → α) {x : ℕ} (hx : Q * (R * (T * L)) ≤ x) :
    radixPass R net L (T * L) (Q * (R * (T * L))) m x = m x := by
  have hS : 0 < R * (T * L) := Nat.mul_pos hR (Nat.mul_pos hT hL)
  unfold radixPass
  have hstep : ∀ j ∈ starts (R * (T * L)) (T * L) L (Q * (R * (T * L))), ∀ m : ℕ → α,
      storeStrided L (T * L) m j (net fun s => loadu m (j + s * (T * L))) x = m x := by
    intro j hj m
    obtain ⟨q, hq, t, ht, rfl⟩ := (mem_starts hS hL).mp hj
    apply storeStrided_other
    intro s hs l hl heq
    rw [h.length_net] at hs
    have hlt := (cell_lt hs ht hl).2
    have hle := Nat.mul_le_mul_right (R * (T * L)) (Nat.succ_le_of_lt hq)
    rw [Nat.succ_mul] at hle
    omega
  generalize starts (R * (T * L)) (T * L) L (Q * (R * (T * L))) = js at hstep
  induction js generalizing m with
  | nil => rfl
  | cons j js ih =>
    rw [List.foldl_cons, ih _ fun j' hj' => hstep j' (List.mem_cons_of_mem j hj')]
    exact hstep j List.mem_cons_self m

/-! ## The networks are stages -/

section stages variable [Add α] [Sub α]

theorem slot_eq {n r w s k : ℕ} (q : ℕ) : q * (2 * w * k * n) + r + s * n =
    (q * k + s / (2 * w)) * (2 * (w * n)) + (s % (2 * w) * n + r) := by
  have hs := Nat.div_add_mod' s (2 * w)
  calc q * (2 * w * k * n) + r + s * n
      = q * (2 * w * k * n) + r + (s / (2 * w) * (2 * w) + s % (2 * w)) * n := by rw [hs]
    _ = _ := by ring

theorem slot_lt {n r w u : ℕ} (hr : r < n) (hu : u < w) : u * n + r < w * n := by
  calc u * n + r < u * n + n := Nat.add_lt_add_left hr _
    _ = (u + 1) * n := (Nat.succ_mul u n).symm
    _ ≤ w * n := Nat.mul_le_mul_right n hu

/-- A stage of `w` slots on a slot in the lower half of its pair. -/
theorem slot_low {n r K w s : ℕ} (hr : r < n) (m : ℕ → α) (q : ℕ) (hK : 2 * w ∣ K) (hs : s % (2 * w) < w) :
    butterfly (w * n) m (q * (K * n) + r + s * n) =
      m (q * (K * n) + r + s * n) + m (q * (K * n) + r + (s + w) * n) := by
  obtain ⟨k, rfl⟩ := hK
  rw [butterfly_low (slot_lt hr hs) m (slot_eq q), Nat.add_mul s w n, Nat.add_assoc _ (s * n)]

/-- A stage of `w` slots on a slot in the upper half. -/
theorem slot_high {n r K w s : ℕ} (hr : r < n) (m : ℕ → α) (q : ℕ) (hK : 2 * w ∣ K) (hw : w ≤ s)
    (hs : (s - w) % (2 * w) < w) : butterfly (w * n) m (q * (K * n) + r + s * n) =
      m (q * (K * n) + r + (s - w) * n) - m (q * (K * n) + r + s * n) := by
  obtain ⟨k, rfl⟩ := hK
  have haddr : q * (2 * w * k * n) + r + s * n = q * (2 * w * k * n) + r + (s - w) * n + w * n := by
    rw [Nat.add_assoc _ ((s - w) * n), ← Nat.add_mul, Nat.sub_add_cancel hw]
  rw [haddr, butterfly_high (slot_lt hr hs) m (slot_eq q)]

/-- The network on the slots of a cell is `b` stages from `2 ^ a` on. -/
def IsStages (b : ℕ) (one : (ℕ → α) → List α) : Prop :=
  ∀ a q r, r < 2 ^ a → ∀ (m : ℕ → α) (s : ℕ), s < 2 ^ b → ∀ d,
    (one fun s' => m (q * (2 ^ b * 2 ^ a) + r + s' * 2 ^ a)).getD s d = ladder a b m (q * (2 ^ b * 2 ^ a) + r + s * 2 ^ a)

theorem ladder_one (a : ℕ) (m : ℕ → α) : ladder a 1 m = butterfly (1 * 2 ^ a) m := by
  rw [Nat.one_mul]
  rfl

theorem ladder_two (a : ℕ) (m : ℕ → α) : ladder a 2 m = butterfly (2 * 2 ^ a) (butterfly (1 * 2 ^ a) m) := by
  rw [← ladder_one, ← Nat.pow_succ']
  rfl

theorem ladder_three (a : ℕ) (m : ℕ → α) :
    ladder a 3 m = butterfly (4 * 2 ^ a) (butterfly (2 * 2 ^ a) (butterfly (1 * 2 ^ a) m)) := by
  rw [← ladder_two, show 4 * 2 ^ a = 2 ^ (a + 2) by rw [Nat.pow_add]; omega]
  rfl

theorem radix2_stages : IsStages (α := α) 1 radix2 := by
  intro a q r hr m s hs d
  rw [ladder_one]
  interval_cases s <;>
    simp (disch := decide) only [slot_low hr, slot_high hr, Nat.reduceAdd, Nat.reduceSub, Nat.reducePow] <;> rfl

theorem radix4_stages : IsStages (α := α) 2 radix4 := by
  intro a q r hr m s hs d
  rw [ladder_two]
  interval_cases s <;>
    simp (disch := decide) only [slot_low hr, slot_high hr, Nat.reduceAdd, Nat.reduceSub, Nat.reducePow] <;> rfl

theorem radix8_stages : IsStages (α := α) 3 radix8 := by
  intro a q r hr m s hs d
  rw [ladder_three]
  interval_cases s <;>
    simp (disch := decide) only [slot_low hr, slot_high hr, Nat.reduceAdd, Nat.reduceSub, Nat.reducePow] <;> rfl

theorem radix2_net : LaneNet (α := α) 2 radix2 radix2 where
  lane _ _ := rfl
  length _ := rfl
  congr v v' h := by simp only [radix2, h 0 (by decide), h 1 (by decide)]

theorem radix4_net : LaneNet (α := α) 4 radix4 radix4 where
  lane _ _ := rfl
  length _ := rfl
  congr v v' h := by simp only [radix4, h 0 (by decide), h 1 (by decide), h 2 (by decide), h 3 (by decide)]

theorem radix8_net : LaneNet (α := α) 8 radix8 radix8 where
  lane _ _ := rfl
  length _ := rfl
  congr v v' h := by
    simp only [radix8, h 0 (by decide), h 1 (by decide), h 2 (by decide), h 3 (by decide), h 4 (by decide),
      h 5 (by decide), h 6 (by decide), h 7 (by decide)]

/-! ## Runs of stages -/

/-- A buffer after the first `a` stages of a block of `2 ^ e`. -/
structure Reached (e a : ℕ) (m₀ m : ℕ → α) : Prop where
  inside : ∀ x < 2 ^ e, m x = ladder 0 a m₀ x
  outside : ∀ x, 2 ^ e ≤ x → m x = m₀ x

/-- A radix pass takes the stages of its network. -/
theorem Reached.pass {e a b c : ℕ} {m₀ m : ℕ → α} (h : Reached e a m₀ m) {net : (ℕ → ℕ → α) → List (ℕ → α)}
    {one : (ℕ → α) → List α} (hnet : LaneNet (2 ^ b) net one) (hstages : IsStages b one) (hc : c ≤ a)
    (he : a + b ≤ e) : Reached e (a + b) m₀ (radixPass (2 ^ b) net (2 ^ c) (2 ^ a) (2 ^ e) m) := by
  have hrun : 2 ^ a = 2 ^ (a - c) * 2 ^ c := by
    rw [← Nat.pow_add, Nat.sub_add_cancel hc]
  have hblock : 2 ^ e = 2 ^ (e - (a + b)) * (2 ^ b * 2 ^ a) := by
    rw [← Nat.pow_add, ← Nat.pow_add]
    congr 1
    omega
  have hR := Nat.two_pow_pos b
  have hT := Nat.two_pow_pos (a - c)
  have hL := Nat.two_pow_pos c
  have hcell (x : ℕ) (hx : x < 2 ^ e) :
      radixPass (2 ^ b) net (2 ^ c) (2 ^ a) (2 ^ e) m x = ladder a b m x := by
    obtain ⟨q, s, hs, t, ht, l, hl, rfl⟩ := exists_cell hR hT hL x
    have hlt := (cell_lt hs ht hl).1
    have hq : q < 2 ^ (e - (a + b)) := by
      rw [hblock, hrun] at hx
      exact Nat.lt_of_mul_lt_mul_right (Nat.lt_of_le_of_lt (Nat.le_add_right _ _) hx)
    have happly := radixPass_apply hnet hR hT hL m hq hs ht hl
    rw [← hrun] at happly hlt
    rw [← hrun, hblock, happly, hstages a q _ hlt m s hs]
    congr 1
    omega
  constructor
  · intro x hx
    rw [hcell x hx, ladder_add 0 a b, Nat.zero_add]
    exact ladder_congr he h.inside x hx
  · intro x hx
    rw [← h.outside x hx, hblock, hrun]
    rw [hblock, hrun] at hx
    exact radixPass_past hnet hR hT hL m hx

/-- The scalar butterfly is the radix-2 network on single cells. -/
theorem butterflyStep_eq (len : ℕ) (m : ℕ → α) (j : ℕ) :
    butterflyStep len m j = storeStrided 1 len m j (radix2 fun s => loadu m (j + s * len)) := by
  funext x
  simp only [butterflyStep, storeStrided, radix2, storeu, loadu, Function.update_apply, Pi.add_apply, Pi.sub_apply,
    Nat.zero_mul, Nat.one_mul, Nat.add_zero]
  by_cases hx : x = j + len
  · rw [if_pos hx, if_pos (by omega), show x - (j + len) = 0 by omega]
    rfl
  · rw [if_neg hx, if_neg (show ¬(j + len ≤ x ∧ x < j + len + 1) by omega)]
    by_cases hxj : x = j
    · rw [if_pos hxj, if_pos (by omega), show x - j = 0 by omega]
      rfl
    · rw [if_neg hxj, if_neg (by omega)]

theorem lt_pow_iff {a b : ℕ} : 2 ^ a < 2 ^ b ↔ a < b := Nat.pow_lt_pow_iff_right (by decide)

/-- The scalar loop takes every stage that is left. -/
theorem Reached.whtStages {e a : ℕ} {m₀ m : ℕ → α} (h : Reached e a m₀ m) (ha : a ≤ e) :
    Reached e e m₀ (whtStages (2 ^ e) (2 ^ a) m) := by
  induction hn : e - a generalizing a m with
  | zero =>
    obtain rfl : a = e := by omega
    rw [Rotation.whtStages, if_neg fun hlt => Nat.lt_irrefl _ hlt.2]
    exact h
  | succ n ih =>
    have hpass := h.pass radix2_net (b := 1) radix2_stages (Nat.zero_le a) (by omega)
    have hnext := ih hpass (by omega) (by omega)
    rw [Nat.pow_succ'] at hnext
    rw [Rotation.whtStages, if_pos ⟨(Nat.two_pow_pos a).ne', lt_pow_iff.mpr (by omega)⟩]
    have hstep : butterflyStep (2 ^ a) = fun (m : ℕ → α) j =>
        storeStrided 1 (2 ^ a) m j (radix2 fun s => loadu m (j + s * 2 ^ a)) := by
      funext m j
      exact butterflyStep_eq (2 ^ a) m j
    rw [hstep]
    exact hnext

/-- The radix-8 passes stop with at most two stages left. -/
theorem Reached.radix8Passes {e a c : ℕ} {m₀ m : ℕ → α} (h : Reached e a m₀ m) (ha : a ≤ e) (hc : c ≤ a) :
    ∃ a' m', radix8Passes (2 ^ c) (2 ^ e) (2 ^ a) m = (2 ^ a', m') ∧ c ≤ a' ∧ a' ≤ e ∧ e ≤ a' + 2 ∧
      Reached e a' m₀ m' := by
  induction hn : e - a using Nat.strong_induction_on generalizing a m with
  | _ n ih =>
    have hfour : 4 * 2 ^ a = 2 ^ (a + 2) := by
      rw [Nat.pow_add]
      omega
    rw [Rotation.radix8Passes]
    by_cases hlt : a + 2 < e
    · rw [if_pos ⟨(Nat.two_pow_pos a).ne', by rw [hfour]; exact lt_pow_iff.mpr hlt⟩, show 8 * 2 ^ a = 2 ^ (a + 3) by rw [Nat.pow_add]; omega]
      apply ih _ _ _ (by omega) (by omega) rfl
      · omega
      · exact h.pass radix8_net (b := 3) radix8_stages hc (by omega)
    · rw [if_neg fun hlt' => hlt (lt_pow_iff.mp (hfour ▸ hlt'.2))]
      exact ⟨a, m, rfl, hc, ha, by omega, h⟩

/-- The passes of a kernel take every stage that is left. -/
theorem Reached.highStages {e a c : ℕ} {m₀ m : ℕ → α} (h : Reached e a m₀ m) (ha : a ≤ e) (hc : c ≤ a) :
    Reached e e m₀ (highStages (2 ^ c) (2 ^ e) (2 ^ a) m) := by
  obtain ⟨a', m', heq, hca, hae, hea, hr⟩ := h.radix8Passes ha hc
  have htwo : 2 * 2 ^ a' = 2 ^ (a' + 1) := Nat.pow_succ'.symm
  unfold Rotation.highStages
  rw [heq]
  simp only [htwo]
  by_cases h4 : a' + 1 < e
  · -- two stages are left: one radix-4 pass, and the radix-2 test fails after it
    obtain rfl : a' + 2 = e := by omega
    rw [if_pos (lt_pow_iff.mpr h4)]
    simp only [show 4 * 2 ^ a' = 2 ^ (a' + 2) by rw [Nat.pow_add]; omega, Nat.lt_irrefl, if_false]
    exact hr.pass radix4_net (b := 2) radix4_stages hca (Nat.le_refl _)
  · rw [if_neg (h4 ∘ lt_pow_iff.mp)]
    simp only [lt_pow_iff]
    by_cases h2 : a' < e
    · obtain rfl : a' + 1 = e := by omega
      rw [if_pos h2]
      exact hr.pass radix2_net (b := 1) radix2_stages hca (Nat.le_refl _)
    · obtain rfl : a' = e := by omega
      rw [if_neg h2]
      exact hr

/-! ## The fused low stages -/

theorem fusedAvx2_eq (v : ℕ → α) {l : ℕ} (hl : l < 2 ^ 3) : fusedAvx2 v l = ladder 0 3 v l := by
  interval_cases l <;> rfl

theorem fusedAvx512_eq (v : ℕ → α) {l : ℕ} (hl : l < 2 ^ 4) : fusedAvx512 v l = ladder 0 4 v l := by
  interval_cases l <;> rfl

theorem fusedNeon_eq (v : ℕ → α) {l : ℕ} (hl : l < 2 ^ 3) : fusedNeon v l = ladder 0 2 v l := by
  interval_cases l <;> rfl

/-- A pass of register groups takes the stages its groups take. -/
theorem fusedPass_reached {g k e : ℕ} (hk : k ≤ g) (he : g ≤ e) {fused : (ℕ → α) → ℕ → α}
    (hfused : ∀ v, ∀ l < 2 ^ g, fused v l = ladder 0 k v l) (m : ℕ → α) :
    Reached e k m (fusedPass (2 ^ g) fused (2 ^ e) m) := by
  have hpos := Nat.two_pow_pos g
  have hblock : 2 ^ e = 2 ^ (e - g) * 2 ^ g := by
    rw [← Nat.pow_add, Nat.sub_add_cancel he]
  have hcongr (v v' : ℕ → α) (h : ∀ l < 2 ^ g, v l = v' l) : ∀ l < 2 ^ g, fused v l = fused v' l := by
    intro l hl
    rw [hfused v l hl, hfused v' l hl, ladder_congr (by omega) h l hl]
  have happly (x : ℕ) := @tiles_apply α (2 ^ g) (2 ^ (e - g)) hpos fused
    (fun m j => storeu (2 ^ g) m j (fused (loadu m j))) (fun _ _ _ => rfl) hcongr m x
  rw [← hblock] at happly
  constructor
  · intro x hx
    unfold fusedPass
    rw [happly, if_pos hx, hfused _ _ (Nat.mod_lt x hpos), ← ladder_shift hk, Nat.div_add_mod']
  · intro x hx
    unfold fusedPass
    rw [happly, if_neg (by omega)]

end stages

/-! ## The kernels -/

section kernels variable [Add α] [Sub α] [Mul α]

/-- All stages of the block, then one scale; the cells past the block as they were. -/
def transformed (e : ℕ) (inv : α) (m : ℕ → α) : ℕ → α := fun x =>
  if x < 2 ^ e then ladder 0 e m x * inv else m x

theorem Reached.scalePass {e c : ℕ} {m₀ m : ℕ → α} (h : Reached e e m₀ m) (hc : c ≤ e) (inv : α) :
    scalePass (2 ^ c) (2 ^ e) inv m = transformed e inv m₀ := by
  have hblock : 2 ^ e = 2 ^ (e - c) * 2 ^ c := by
    rw [← Nat.pow_add, Nat.sub_add_cancel hc]
  funext x
  have happly := @scalePass_apply α _ (2 ^ c) (2 ^ (e - c)) (Nat.two_pow_pos c) inv m x
  rw [← hblock] at happly
  rw [happly, transformed]
  split
  · rw [h.inside x ‹_›]
  · exact h.outside x (by omega)

theorem whtBlockScalar_eq (e : ℕ) (m : ℕ → α) (inv : α) : whtBlockScalar m (2 ^ e) inv = transformed e inv m := by
  have h : Reached e 0 m m := ⟨fun _ _ => rfl, fun _ _ => rfl⟩
  exact (h.whtStages (Nat.zero_le e)).scalePass (c := 0) (Nat.zero_le e) inv

theorem whtBlockNeon_eq {e : ℕ} (he : 3 ≤ e) (m : ℕ → α) (inv : α) :
    whtBlockNeon m (2 ^ e) inv = transformed e inv m := by
  have h := fusedPass_reached (k := 2) (by decide) he (fun v l => fusedNeon_eq v) m
  exact (h.highStages (c := 2) (by omega) (Nat.le_refl 2)).scalePass (c := 2) (by omega) inv

theorem whtBlockAvx2_eq {e : ℕ} (he : 3 ≤ e) (m : ℕ → α) (inv : α) :
    whtBlockAvx2 m (2 ^ e) inv = transformed e inv m := by
  have h := fusedPass_reached (k := 3) (by decide) he (fun v l => fusedAvx2_eq v) m
  exact (h.highStages (c := 3) he (Nat.le_refl 3)).scalePass he inv

theorem whtBlockAvx512_eq {e : ℕ} (he : 3 ≤ e) (m : ℕ → α) (inv : α) :
    whtBlockAvx512 m (2 ^ e) inv = transformed e inv m := by
  unfold whtBlockAvx512
  have h16 : 2 ^ e < 16 ↔ e < 4 := @lt_pow_iff e 4
  by_cases hlt : e < 4
  · rw [if_pos (h16.mpr hlt)]
    exact whtBlockAvx2_eq he m inv
  · rw [if_neg (hlt ∘ h16.mp)]
    have h := fusedPass_reached (k := 4) (by decide) (by omega : 4 ≤ e) (fun v l => fusedAvx512_eq v) m
    exact (h.highStages (c := 4) (by omega) (Nat.le_refl 4)).scalePass (c := 4) (by omega) inv

/-- Every kernel leaves the same cells. -/
theorem whtBlock_eq (kernel : Kernel) {e : ℕ} (he : 3 ≤ e) (m : ℕ → α) (inv : α) :
    whtBlock kernel m (2 ^ e) inv = transformed e inv m := by
  cases kernel with
  | scalar => exact whtBlockScalar_eq e m inv
  | neon => exact whtBlockNeon_eq he m inv
  | avx2 => exact whtBlockAvx2_eq he m inv
  | avx512 => exact whtBlockAvx512_eq he m inv

end kernels

end Rotation
end Turbovec
