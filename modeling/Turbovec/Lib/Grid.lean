import Turbovec.Lib.Slice
import Mathlib.Data.Fintype.EquivFin
import Mathlib.Data.Fintype.Vector
import Mathlib.Data.List.Nodup
import Mathlib.Data.List.Range

/-!
# Lists laid out as grids

`tabulate n f` is the list `f 0, …, f (n - 1)`; a row-major grid is a `flatMap` of rows of one
length. `scatter` runs a loop of single-place stores. The lemmas read these lists back by index.
-/

namespace Grid

open Slice

variable {α ι : Type*}

/-! ## Index arithmetic -/

theorem mul_add_lt {i j m d : ℕ} (hi : i < m) (hj : j < d) : i * d + j < m * d := by
  calc i * d + j < i * d + d := by omega
    _ = (i + 1) * d := by ring
    _ ≤ m * d := Nat.mul_le_mul_right d hi

theorem mul_add_div {i j d : ℕ} (hj : j < d) : (i * d + j) / d = i := by
  rw [Nat.add_comm, Nat.add_mul_div_right _ _ (by omega), Nat.div_eq_of_lt hj, Nat.zero_add]

theorem mul_add_mod {i j d : ℕ} (hj : j < d) : (i * d + j) % d = j := by
  rw [Nat.add_comm, Nat.add_mul_mod_self_right, Nat.mod_eq_of_lt hj]

theorem mul_add_inj {i i' j j' d : ℕ} (hj : j < d) (hj' : j' < d)
    (h : i * d + j = i' * d + j') : i = i' ∧ j = j' := by
  constructor
  · rw [← mul_add_div (i := i) hj, h, mul_add_div hj']
  · rw [← mul_add_mod (i := i) hj, h, mul_add_mod hj']

/-! ## Tabulated lists -/

/-- The list `f 0, f 1, …, f (n - 1)`. -/
def tabulate (n : ℕ) (f : ℕ → α) : List α :=
  (List.range n).map f

@[simp] theorem length_tabulate (n : ℕ) (f : ℕ → α) : (tabulate n f).length = n := by
  simp [tabulate]

theorem getElem?_tabulate {n : ℕ} (f : ℕ → α) {i : ℕ} (h : i < n) :
    (tabulate n f)[i]? = some (f i) := by
  simp [tabulate, h]

@[simp] theorem getElem_tabulate {n : ℕ} (f : ℕ → α) {i : ℕ} (h : i < (tabulate n f).length) :
    (tabulate n f)[i] = f i := by
  simp [tabulate]

theorem tabulate_congr {n : ℕ} {f g : ℕ → α} (h : ∀ i < n, f i = g i) :
    tabulate n f = tabulate n g :=
  List.map_congr_left fun i hi => h i (List.mem_range.1 hi)

theorem tabulate_add (m n : ℕ) (f : ℕ → α) :
    tabulate (m + n) f = tabulate m f ++ tabulate n (fun i => f (m + i)) := by
  simp only [tabulate, List.range_add, List.map_append, List.map_map]
  rfl

theorem eq_tabulate {l : List α} {n : ℕ} {f : ℕ → α} (hlen : l.length = n)
    (h : ∀ i < n, l[i]? = some (f i)) : l = tabulate n f := by
  apply List.ext_getElem?
  intro i
  by_cases hi : i < n
  · rw [h i hi, getElem?_tabulate f hi]
  · rw [List.getElem?_eq_none (by omega), List.getElem?_eq_none (by simp; omega)]

/-! ## Rows of one length -/

theorem length_flatMap_const {l : List ι} {f : ι → List α} {d : ℕ}
    (h : ∀ i ∈ l, (f i).length = d) : (l.flatMap f).length = l.length * d := by
  induction l with
  | nil => simp
  | cons a l ih =>
    rw [List.flatMap_cons, List.length_append, h a (by simp),
      ih fun i hi => h i (by simp [hi]), List.length_cons]
    ring

/-- Entry `j` of row `i` of a row-major grid. -/
theorem getElem?_flatMap_const {l : List ι} {f : ι → List α} {d : ℕ}
    (h : ∀ i ∈ l, (f i).length = d) {i j : ℕ} (hj : j < d) :
    (l.flatMap f)[i * d + j]? = l[i]?.bind fun x => (f x)[j]? := by
  induction l generalizing i with
  | nil => simp
  | cons a l ih =>
    have ha := h a (by simp)
    rw [List.flatMap_cons]
    cases i with
    | zero =>
      rw [Nat.zero_mul, Nat.zero_add, List.getElem?_append_left (by omega)]
      simp
    | succ i =>
      have hge : (f a).length ≤ (i + 1) * d + j := by rw [ha, Nat.succ_mul]; omega
      rw [List.getElem?_append_right hge, ha]
      have : (i + 1) * d + j - d = i * d + j := by rw [Nat.succ_mul]; omega
      rw [this, ih fun x hx => h x (by simp [hx])]
      simp

theorem length_flatMap_range {m d : ℕ} {f : ℕ → List α} (h : ∀ i < m, (f i).length = d) :
    ((List.range m).flatMap f).length = m * d := by
  rw [length_flatMap_const fun i hi => h i (List.mem_range.1 hi), List.length_range]

theorem getElem?_flatMap_range {m d : ℕ} {f : ℕ → List α} (h : ∀ i < m, (f i).length = d)
    {i j : ℕ} (hi : i < m) (hj : j < d) :
    ((List.range m).flatMap f)[i * d + j]? = (f i)[j]? := by
  rw [getElem?_flatMap_const (fun x hx => h x (List.mem_range.1 hx)) hj]
  simp [hi]

/-- The window of whole rows `i .. i + k` of a row-major grid. -/
theorem drop_take_flatMap_range {m d : ℕ} {f : ℕ → List α} (h : ∀ i < m, (f i).length = d)
    {i k : ℕ} (hik : i + k ≤ m) :
    (((List.range m).flatMap f).drop (i * d)).take (k * d) =
      (List.range k).flatMap fun j => f (i + j) := by
  obtain ⟨r, rfl⟩ := Nat.exists_eq_add_of_le hik
  rw [Nat.add_assoc, List.range_add, List.flatMap_append]
  have h1 : ((List.range i).flatMap f).length = i * d :=
    length_flatMap_range fun j hj => h j (by omega)
  rw [List.drop_append_of_le_length (by omega), List.drop_of_length_le (by omega),
    List.nil_append, List.range_add, List.map_append, List.flatMap_append]
  have h2 : (((List.range k).map (i + ·)).flatMap f).length = k * d := by
    rw [List.flatMap_map]
    exact length_flatMap_range fun j hj => h (i + j) (by omega)
  rw [List.take_append_of_le_length (by omega), List.take_of_length_le (by omega),
    List.flatMap_map]

/-- Two lists of one length that agree entry by entry along a grid are equal. -/
theorem ext_grid {l l' : List α} {m d : ℕ} (hl : l.length = m * d) (hl' : l'.length = m * d)
    (h : ∀ i < m, ∀ j < d, l[i * d + j]? = l'[i * d + j]?) : l = l' := by
  apply List.ext_getElem?
  intro k
  by_cases hk : k < m * d
  · have hd : 0 < d := Nat.pos_of_mul_pos_left (by omega : 0 < m * d)
    have hi : k / d < m := by rwa [Nat.div_lt_iff_lt_mul hd]
    have := h (k / d) hi (k % d) (Nat.mod_lt _ hd)
    rwa [Nat.div_add_mod'] at this
  · rw [List.getElem?_eq_none (by omega), List.getElem?_eq_none (by omega)]

/-- Row `i` of a row-major list of rows of length `d`. -/
def rowAt (l : List α) (d i : ℕ) : List α :=
  (l.drop (i * d)).take d

theorem length_rowAt {l : List α} {m d i : ℕ} (hl : l.length = m * d) (hi : i < m) :
    (rowAt l d i).length = d := by
  have h : (i + 1) * d ≤ m * d := Nat.mul_le_mul_right d hi
  simp only [rowAt, List.length_take, List.length_drop]
  rw [Nat.succ_mul] at h
  omega

theorem entry_rowAt [Zero α] (l : List α) {d i j : ℕ} (hj : j < d) :
    entry (rowAt l d i) j = entry l (i * d + j) := by
  rw [rowAt, entry_take hj, entry_drop]

theorem rowAt_flatMap_range {m d : ℕ} {f : ℕ → List α} (h : ∀ i < m, (f i).length = d)
    {i : ℕ} (hi : i < m) : rowAt ((List.range m).flatMap f) d i = f i := by
  have := drop_take_flatMap_range h (i := i) (k := 1) (by omega)
  simpa [rowAt] using this

/-- A row of the rows `a .. b`. -/
theorem rowAt_drop_take (l : List α) {d a b i : ℕ} (h : a + i < b) :
    rowAt ((l.drop (a * d)).take (b * d - a * d)) d i = rowAt l d (a + i) := by
  have hle : (a + i + 1) * d ≤ b * d := Nat.mul_le_mul_right _ h
  rw [Nat.add_mul, Nat.add_mul, Nat.one_mul] at hle
  rw [rowAt, rowAt, List.drop_take, List.take_take, List.drop_drop, Nat.add_mul,
    Nat.min_eq_left (by omega)]

/-- A list of whole rows is its rows one after the other. -/
theorem flatMap_rowAt {l : List α} {m d : ℕ} (hl : l.length = m * d) :
    ((List.range m).flatMap fun i => rowAt l d i) = l := by
  have hlen : ∀ i < m, (rowAt l d i).length = d := fun i hi => length_rowAt hl hi
  refine ext_grid (length_flatMap_range hlen) hl fun i hi j hj => ?_
  rw [getElem?_flatMap_range hlen hi hj, rowAt, List.getElem?_take, if_pos hj, List.getElem?_drop]

theorem entry_tabulate [Zero α] {n : ℕ} (f : ℕ → α) {i : ℕ} (h : i < n) :
    entry (tabulate n f) i = f i :=
  entry_of_getElem? (getElem?_tabulate f h)

theorem entry_flatMap_range [Zero α] {m d : ℕ} {f : ℕ → List α} (h : ∀ i < m, (f i).length = d)
    {i j : ℕ} (hi : i < m) (hj : j < d) :
    entry ((List.range m).flatMap f) (i * d + j) = entry (f i) j :=
  entry_congr (getElem?_flatMap_range h hi hj)

/-- Blocks of `d` items, the last one possibly short, are the items. -/
theorem flatMap_blocks (d n k : ℕ) (f : ℕ → List α) :
    ((List.range k).flatMap fun b => (List.range (min (n - b * d) d)).flatMap fun i =>
      f (b * d + i)) = (List.range (min n (k * d))).flatMap f := by
  induction k with
  | zero => simp
  | succ k ih =>
    rw [List.range_succ, List.flatMap_append, ih, List.flatMap_cons, List.flatMap_nil,
      List.append_nil, Nat.add_mul, Nat.one_mul]
    by_cases h : n ≤ k * d
    · rw [Nat.sub_eq_zero_of_le h, Nat.zero_min, List.range_zero, List.flatMap_nil, List.append_nil,
        Nat.min_eq_left h, Nat.min_eq_left (by omega)]
    · rw [Nat.min_eq_right (by omega : k * d ≤ n),
        show min n (k * d + d) = k * d + min (n - k * d) d by omega, List.range_add,
        List.flatMap_append, List.flatMap_map]

/-! ## Stores -/

/-- A loop of stores: for each `x` of `xs` in order, put `val x` at `pos x`. -/
def scatter (pos : ι → ℕ) (val : ι → α) (xs : List ι) (l : List α) : List α :=
  xs.foldl (fun l x => l.set (pos x) (val x)) l

@[simp] theorem length_scatter (pos : ι → ℕ) (val : ι → α) (xs : List ι) (l : List α) :
    (scatter pos val xs l).length = l.length := by
  induction xs generalizing l with
  | nil => rfl
  | cons x xs ih => simp [scatter, List.foldl_cons] at *; rw [ih]; simp

theorem getElem?_scatter_of_forall_ne {pos : ι → ℕ} {val : ι → α} {xs : List ι} {l : List α}
    {k : ℕ} (h : ∀ x ∈ xs, pos x ≠ k) : (scatter pos val xs l)[k]? = l[k]? := by
  induction xs generalizing l with
  | nil => rfl
  | cons x xs ih =>
    rw [scatter, List.foldl_cons, ← scatter, ih fun y hy => h y (by simp [hy]),
      List.getElem?_set_ne (h x (by simp))]

theorem scatter_append (pos : ι → ℕ) (val : ι → α) (xs ys : List ι) (l : List α) :
    scatter pos val (xs ++ ys) l = scatter pos val ys (scatter pos val xs l) := by
  simp [scatter, List.foldl_append]

/-- A place that some stores hit, all with one value, ends with that value. -/
theorem getElem?_scatter {pos : ι → ℕ} {val : ι → α} {xs : List ι} {l : List α} {x : ι}
    (hx : x ∈ xs) (hval : ∀ y ∈ xs, pos y = pos x → val y = val x) (hlt : pos x < l.length) :
    (scatter pos val xs l)[pos x]? = some (val x) := by
  induction xs using List.reverseRecOn with
  | nil => simp at hx
  | append_singleton ys y ih =>
    rw [scatter_append]
    change ((scatter pos val ys l).set (pos y) (val y))[pos x]? = _
    by_cases hy : pos y = pos x
    · rw [hy, List.getElem?_set_self (by simpa using hlt), hval y (by simp) hy]
    · rw [List.getElem?_set_ne hy]
      have hx' : x ∈ ys := by
        rcases List.mem_append.1 hx with h | h
        · exact h
        · rw [List.mem_singleton.1 h] at hy
          exact absurd rfl hy
      exact ih hx' fun z hz => hval z (by simp [hz])

theorem entry_scatter [Zero α] {pos : ι → ℕ} {val : ι → α} {xs : List ι} {l : List α} {x : ι}
    (hx : x ∈ xs) (hval : ∀ y ∈ xs, pos y = pos x → val y = val x) (hlt : pos x < l.length) :
    entry (scatter pos val xs l) (pos x) = val x :=
  entry_of_getElem? (getElem?_scatter hx hval hlt)

/-- The cells of an `m`-by-`d` grid, row by row. -/
def cells (m d : ℕ) : List (ℕ × ℕ) :=
  (List.range m).product (List.range d)

theorem mem_cells {m d : ℕ} {p : ℕ × ℕ} : p ∈ cells m d ↔ p.1 < m ∧ p.2 < d := by
  obtain ⟨i, j⟩ := p
  rw [cells, List.pair_mem_product, List.mem_range, List.mem_range]

/-! ## Whole chunks -/

/-- Apply `f` to each whole chunk of `d` entries and leave a remainder as it is. -/
def mapChunksExact (d : ℕ) (f : List α → List α) (l : List α) : List α :=
  ((List.range (l.length / d)).flatMap fun i => f (rowAt l d i)) ++ l.drop (l.length / d * d)

theorem mapChunksExact_eq {d m : ℕ} (hd : 0 < d) {f : List α → List α} {l : List α}
    (hl : l.length = m * d) :
    mapChunksExact d f l = (List.range m).flatMap fun i => f (rowAt l d i) := by
  have hm : l.length / d = m := by rw [hl, Nat.mul_div_cancel _ hd]
  rw [mapChunksExact, hm, List.drop_of_length_le (by omega), List.append_nil]

theorem length_mapChunksExact {d m : ℕ} (hd : 0 < d) {f : List α → List α} {l : List α}
    (hl : l.length = m * d) (hf : ∀ xs, xs.length = d → (f xs).length = d) :
    (mapChunksExact d f l).length = m * d := by
  rw [mapChunksExact_eq hd hl, length_flatMap_range fun i hi => hf _ (length_rowAt hl hi)]

theorem entry_mapChunksExact [Zero α] {d m : ℕ} {f : List α → List α} {l : List α}
    (hl : l.length = m * d) (hf : ∀ xs, xs.length = d → (f xs).length = d) {i k : ℕ} (hi : i < m)
    (hk : k < d) : entry (mapChunksExact d f l) (i * d + k) = entry (f (rowAt l d i)) k := by
  rw [mapChunksExact_eq (by omega) hl,
    entry_flatMap_range (fun i hi => hf _ (length_rowAt hl hi)) hi hk]

/-! ## Rows in a list -/

/-- Row `i` of the rows one after the other. -/
theorem rowAt_flatten {rows : List (List α)} {d : ℕ} (h : ∀ r ∈ rows, r.length = d) {i : ℕ}
    (hi : i < rows.length) : rowAt rows.flatten d i = rows[i] := by
  induction rows generalizing i with
  | nil => exact absurd hi (Nat.not_lt_zero i)
  | cons r rows ih =>
    have hr : r.length = d := h r (List.mem_cons_self ..)
    cases i with
    | zero => simp [rowAt, ← hr]
    | succ i =>
      have htail := ih (fun s hs => h s (List.mem_cons_of_mem r hs)) (Nat.lt_of_succ_lt_succ hi)
      have hskip : (r ++ rows.flatten).drop ((i + 1) * d) = rows.flatten.drop (i * d) := by
        rw [List.drop_append, List.drop_of_length_le (by rw [hr, Nat.succ_mul]; omega), hr,
          Nat.succ_mul, Nat.add_sub_cancel, List.nil_append]
      rw [List.flatten_cons, rowAt, hskip]
      exact htail

theorem length_flatten_rows {rows : List (List α)} {d : ℕ} (h : ∀ r ∈ rows, r.length = d) :
    rows.flatten.length = rows.length * d := by
  rw [← List.flatMap_id]
  exact length_flatMap_const h

/-! ## Maps of lists of one length -/

/-- Over a finite alphabet a left inverse between lists of one length is a right inverse. -/
theorem rightInverse_of_length [Finite α] {n : ℕ} {f g : List α → List α}
    (hf : ∀ l, l.length = n → (f l).length = n) (hg : ∀ l, l.length = n → (g l).length = n)
    (h : ∀ l, l.length = n → g (f l) = l) {l : List α} (hl : l.length = n) : f (g l) = l := by
  have : Fintype α := Fintype.ofFinite α
  let f' (v : List.Vector α n) : List.Vector α n := ⟨f v.1, hf v.1 v.2⟩
  let g' (v : List.Vector α n) : List.Vector α n := ⟨g v.1, hg v.1 v.2⟩
  have hleft : Function.LeftInverse g' f' := fun v => Subtype.ext (h v.1 v.2)
  -- `f'` is injective, so onto: the lists of length `n` are finitely many
  have hright : Function.LeftInverse f' g' :=
    hleft.rightInverse_of_surjective (Finite.injective_iff_surjective.1 hleft.injective)
  exact congrArg Subtype.val (hright ⟨l, hl⟩)

end Grid
