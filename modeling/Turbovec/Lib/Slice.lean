import Mathlib.Data.List.Basic
import Mathlib.Data.List.Forall2
import Mathlib.Data.UInt
import Mathlib.Tactic.Ring

/-!
# Slices of a list and positioned writes

`slice? l off len` is a bounds-checked read of a window, `overwrite` replaces a window that
lies inside the list, and `writeAt` is the positioned write of a file that grows when it is
written past its end (the gap reads as a filler value).

`Holds l off xs` says that `xs` sits in `l` at `off`. The proofs about files are stated with it:
a write establishes it on its own window (`holds_writeAt_self`) and keeps it on every disjoint one
(`Holds.writeAt_of_disjoint`), and it splits along appends (`holds_append`).
-/

namespace Slice

variable {α : Type*}

/-! ## Reading a window -/

/-- The window `l[off .. off + len]`, or `none` when it does not lie inside `l`. -/
def slice? (l : List α) (off len : ℕ) : Option (List α) :=
  if off + len ≤ l.length then some ((l.drop off).take len) else none

/-- `xs` sits in `l` at offset `off`. -/
def Holds (l : List α) (off : ℕ) (xs : List α) : Prop :=
  slice? l off xs.length = some xs

theorem slice?_eq_some {l : List α} {off len : ℕ} {xs : List α} :
    slice? l off len = some xs ↔ off + len ≤ l.length ∧ (l.drop off).take len = xs := by
  unfold slice?
  split <;> simp_all

theorem slice?_isSome {l : List α} {off len : ℕ} :
    (slice? l off len).isSome ↔ off + len ≤ l.length := by
  unfold slice?
  split <;> simp_all

theorem slice?_of_le {l : List α} {off len : ℕ} (h : off + len ≤ l.length) :
    slice? l off len = some ((l.drop off).take len) := by
  simp [slice?, h]

theorem length_of_slice? {l : List α} {off len : ℕ} {xs : List α}
    (h : slice? l off len = some xs) : xs.length = len := by
  obtain ⟨hle, rfl⟩ := slice?_eq_some.1 h
  simp only [List.length_take, List.length_drop]
  omega

theorem holds_of_slice? {l : List α} {off len : ℕ} {xs : List α}
    (h : slice? l off len = some xs) : Holds l off xs := by
  rw [Holds, length_of_slice? h, h]

theorem holds_iff_getElem? {l : List α} {off : ℕ} {xs : List α} :
    Holds l off xs ↔ off + xs.length ≤ l.length ∧ ∀ k < xs.length, l[off + k]? = xs[k]? := by
  rw [Holds, slice?_eq_some]
  refine and_congr_right fun hle => ?_
  constructor
  · intro h k hk
    have := congrArg (·[k]?) h
    simpa [List.getElem?_take, hk] using this
  · intro h
    apply List.ext_getElem?
    intro k
    by_cases hk : k < xs.length
    · simp only [List.getElem?_take, hk, if_true, List.getElem?_drop]
      exact h k hk
    · rw [List.getElem?_eq_none (by simp; omega), List.getElem?_eq_none (by omega)]

theorem Holds.le_length {l : List α} {off : ℕ} {xs : List α} (h : Holds l off xs) :
    off + xs.length ≤ l.length :=
  (slice?_eq_some.1 h).1

theorem Holds.getElem? {l : List α} {off : ℕ} {xs : List α} (h : Holds l off xs)
    {k : ℕ} (hk : k < xs.length) : l[off + k]? = xs[k]? :=
  (holds_iff_getElem?.1 h).2 k hk

theorem Holds.slice? {l : List α} {off : ℕ} {xs : List α} (h : Holds l off xs)
    {len : ℕ} (hlen : xs.length = len) : slice? l off len = some xs := by
  rw [← hlen]; exact h

@[simp] theorem holds_nil {l : List α} {off : ℕ} : Holds l off [] ↔ off ≤ l.length := by
  simp [Holds, slice?_eq_some]

/-- Two lists at one place are one list, when they have one length. -/
theorem Holds.unique {l : List α} {off : ℕ} {xs ys : List α} (hx : Holds l off xs)
    (hy : Holds l off ys) (h : xs.length = ys.length) : xs = ys := by
  rw [Holds, h] at hx
  exact Option.some.inj (hx.symm.trans hy)

theorem holds_append {l : List α} {off : ℕ} {xs ys : List α} :
    Holds l off (xs ++ ys) ↔ Holds l off xs ∧ Holds l (off + xs.length) ys := by
  simp only [holds_iff_getElem?, List.length_append]
  constructor
  · rintro ⟨hle, h⟩
    refine ⟨⟨by omega, fun k hk => ?_⟩, by omega, fun k hk => ?_⟩
    · rw [h k (by omega), List.getElem?_append_left hk]
    · rw [Nat.add_assoc, h (xs.length + k) (by omega), List.getElem?_append_right (by omega)]
      congr 1
      omega
  · rintro ⟨⟨_, hx⟩, hle, hy⟩
    refine ⟨by omega, fun k hk => ?_⟩
    by_cases hkx : k < xs.length
    · rw [hx k hkx, List.getElem?_append_left hkx]
    · rw [List.getElem?_append_right (by omega), ← hy (k - xs.length) (by omega)]
      congr 1
      omega

theorem holds_append_of {l : List α} {off off' : ℕ} {xs ys : List α} (hx : Holds l off xs)
    (hy : Holds l off' ys) (h : off' = off + xs.length) : Holds l off (xs ++ ys) :=
  holds_append.2 ⟨hx, h ▸ hy⟩

/-- A list at an offset inside a held list. -/
theorem Holds.trans {l xs ys : List α} {off off' : ℕ} (hx : Holds l off xs)
    (hy : Holds xs off' ys) : Holds l (off + off') ys := by
  have hle := hx.le_length
  have hle' := hy.le_length
  refine holds_iff_getElem?.2 ⟨by omega, fun k hk => ?_⟩
  rw [Nat.add_assoc, hx.getElem? (by omega), hy.getElem? hk]

theorem holds_self {l : List α} : Holds l 0 l := by
  simp [Holds, slice?_eq_some]

theorem holds_mid {xs ys zs : List α} {off : ℕ} (h : xs.length = off) :
    Holds (xs ++ ys ++ zs) off ys := by
  subst h
  simp [Holds, slice?_eq_some]

/-- A read inside a held list reads the list. -/
theorem Holds.slice?_add {l xs : List α} {off : ℕ} (hx : Holds l off xs) {off' len : ℕ}
    (h : off' + len ≤ xs.length) : Slice.slice? l (off + off') len = Slice.slice? xs off' len := by
  have hy : Holds xs off' ((xs.drop off').take len) :=
    holds_of_slice? (slice?_of_le h)
  have hlen : ((xs.drop off').take len).length = len := by simp; omega
  rw [(hx.trans hy).slice? hlen, hy.slice? hlen]

/-- Reads inside a common prefix agree. -/
theorem slice?_take {l : List α} {n off len : ℕ} (h : off + len ≤ n) :
    slice? (l.take n) off len = slice? l off len := by
  unfold slice?
  simp only [List.length_take]
  by_cases hl : off + len ≤ l.length
  · rw [if_pos (by omega), if_pos hl, List.drop_take, List.take_take, Nat.min_eq_left (by omega)]
  · rw [if_neg (by omega), if_neg hl]

/-! ## Reading an entry -/

/-- Entry `i`, zero past the end. -/
def entry [Zero α] (l : List α) (i : ℕ) : α :=
  l[i]?.getD 0

section Entry

variable [Zero α]

theorem entry_of_getElem? {l : List α} {i : ℕ} {a : α} (h : l[i]? = some a) : entry l i = a := by
  rw [entry, h, Option.getD_some]

theorem getElem?_eq_entry {l : List α} {i : ℕ} (h : i < l.length) : l[i]? = some (entry l i) := by
  rw [entry, List.getElem?_eq_getElem h, Option.getD_some]

theorem entry_of_length_le {l : List α} {i : ℕ} (h : l.length ≤ i) : entry l i = 0 := by
  rw [entry, List.getElem?_eq_none h, Option.getD_none]

theorem entry_congr {l l' : List α} {i j : ℕ} (h : l[i]? = l'[j]?) : entry l i = entry l' j := by
  rw [entry, h, entry]

theorem ext_entry {l l' : List α} (hlen : l.length = l'.length)
    (h : ∀ i < l.length, entry l i = entry l' i) : l = l' := by
  apply List.ext_getElem?
  intro i
  by_cases hi : i < l.length
  · rw [getElem?_eq_entry hi, getElem?_eq_entry (hlen ▸ hi), h i hi]
  · rw [List.getElem?_eq_none (by omega), List.getElem?_eq_none (by omega)]

@[simp] theorem entry_nil (i : ℕ) : entry ([] : List α) i = 0 := by
  simp [entry]

theorem entry_replicate_zero (n i : ℕ) : entry (List.replicate n (0 : α)) i = 0 := by
  by_cases h : i < n
  · rw [entry_of_getElem? (List.getElem?_replicate_of_lt h)]
  · exact entry_of_length_le (by simp; omega)

theorem entry_append_left {l l' : List α} {i : ℕ} (h : i < l.length) :
    entry (l ++ l') i = entry l i :=
  entry_congr (List.getElem?_append_left h)

theorem entry_append_right {l l' : List α} {i : ℕ} (h : l.length ≤ i) :
    entry (l ++ l') i = entry l' (i - l.length) :=
  entry_congr (List.getElem?_append_right h)

theorem entry_take {l : List α} {n i : ℕ} (h : i < n) : entry (l.take n) i = entry l i :=
  entry_congr (by rw [List.getElem?_take, if_pos h])

theorem entry_drop (l : List α) (n i : ℕ) : entry (l.drop n) i = entry l (n + i) :=
  entry_congr List.getElem?_drop

theorem entry_set_self {l : List α} {i : ℕ} {a : α} (h : i < l.length) :
    entry (l.set i a) i = a :=
  entry_of_getElem? (List.getElem?_set_self h)

theorem entry_set_ne {l : List α} {i j : ℕ} {a : α} (h : i ≠ j) :
    entry (l.set i a) j = entry l j :=
  entry_congr (List.getElem?_set_ne h)

end Entry

/-! ## Writing a window -/

/-- Replace the window of `data`'s length at `off`. -/
def overwrite (l : List α) (off : ℕ) (data : List α) : List α :=
  l.take off ++ data ++ l.drop (off + data.length)

/-- A positioned write into a file: the gap between the old end and `off`, if there is one, reads
as `filler`. Writing nothing does not grow the file. -/
def writeAt (filler : α) (l : List α) (off : ℕ) (data : List α) : List α :=
  if data = [] then l
  else overwrite (l ++ List.replicate (off - l.length) filler) off data

theorem length_overwrite {l : List α} {off : ℕ} {data : List α} (h : off + data.length ≤ l.length) :
    (overwrite l off data).length = l.length := by
  simp only [overwrite, List.length_append, List.length_take, List.length_drop]
  omega

theorem getElem?_overwrite {l : List α} {off : ℕ} {data : List α} (h : off ≤ l.length) (i : ℕ) :
    (overwrite l off data)[i]? =
      if off ≤ i ∧ i < off + data.length then data[i - off]? else l[i]? := by
  unfold overwrite
  by_cases h1 : i < off
  · rw [if_neg (by omega), List.append_assoc,
      List.getElem?_append_left (by rw [List.length_take]; omega), List.getElem?_take, if_pos h1]
  · by_cases h2 : i < off + data.length
    · rw [if_pos (by omega), List.append_assoc,
        List.getElem?_append_right (by rw [List.length_take]; omega), List.length_take,
        Nat.min_eq_left h, List.getElem?_append_left (by omega)]
    · rw [if_neg (by omega), List.getElem?_append_right (by simp; omega), List.getElem?_drop]
      congr 1
      simp only [List.length_append, List.length_take]
      omega

theorem entry_overwrite [Zero α] {l : List α} {off : ℕ} {data : List α} (h : off ≤ l.length)
    (i : ℕ) : entry (overwrite l off data) i =
      if off ≤ i ∧ i < off + data.length then entry data (i - off) else entry l i := by
  rw [entry, getElem?_overwrite h]
  split <;> rfl

@[simp] theorem writeAt_nil (filler : α) (l : List α) (off : ℕ) : writeAt filler l off [] = l := by
  simp [writeAt]

theorem length_writeAt (filler : α) (l : List α) (off : ℕ) {data : List α} (h : data ≠ []) :
    (writeAt filler l off data).length = max l.length (off + data.length) := by
  simp only [writeAt, h, if_false, overwrite, List.length_append, List.length_take,
    List.length_drop, List.length_replicate]
  omega

theorem length_le_length_writeAt (filler : α) (l : List α) (off : ℕ) (data : List α) :
    l.length ≤ (writeAt filler l off data).length := by
  by_cases h : data = []
  · simp [h]
  · rw [length_writeAt filler l off h]
    omega

theorem getElem?_writeAt (filler : α) (l : List α) (off : ℕ) (data : List α) (i : ℕ) :
    (writeAt filler l off data)[i]? =
      if off ≤ i ∧ i < off + data.length then data[i - off]?
      else if i < l.length then l[i]?
      else if data ≠ [] ∧ i < off then some filler else none := by
  by_cases h : data = []
  · subst h
    simp only [writeAt_nil, List.length_nil]
    rw [if_neg (by omega)]
    split
    · rfl
    · rw [List.getElem?_eq_none (by omega)]
      simp
  · simp only [writeAt, h, if_false]
    rw [getElem?_overwrite (by simp; omega)]
    by_cases h1 : off ≤ i ∧ i < off + data.length
    · rw [if_pos h1, if_pos h1]
    · rw [if_neg h1, if_neg h1]
      by_cases h2 : i < l.length
      · rw [if_pos h2, List.getElem?_append_left h2]
      · rw [if_neg h2, List.getElem?_append_right (by omega), List.getElem?_replicate]
        by_cases h3 : i < off
        · rw [if_pos (by omega), if_pos ⟨by simpa using h, h3⟩]
        · rw [if_neg (by omega), if_neg (by tauto)]

/-- What a write puts into the file is there after it. -/
theorem holds_writeAt_self (filler : α) (l : List α) (off : ℕ) {data : List α} (h : data ≠ []) :
    Holds (writeAt filler l off data) off data := by
  refine holds_iff_getElem?.2 ⟨by rw [length_writeAt _ _ _ h]; omega, fun k hk => ?_⟩
  rw [getElem?_writeAt, if_pos (by omega), Nat.add_sub_cancel_left]

/-- A write leaves every window it does not meet as it was. -/
theorem Holds.writeAt_of_disjoint {l : List α} {off off' : ℕ} {xs data : List α} (filler : α)
    (h : Holds l off xs) (hd : off' + data.length ≤ off ∨ off + xs.length ≤ off') :
    Holds (writeAt filler l off' data) off xs := by
  have hle := h.le_length
  have hgrow := length_le_length_writeAt filler l off' data
  refine holds_iff_getElem?.2 ⟨by omega, fun k hk => ?_⟩
  rw [getElem?_writeAt, if_neg (by omega), if_pos (by omega), h.getElem? hk]

theorem getElem?_writeAt_of_lt (filler : α) {l : List α} {off : ℕ} {data : List α} {i : ℕ}
    (hi : i < l.length) (hd : i < off ∨ off + data.length ≤ i) :
    (writeAt filler l off data)[i]? = l[i]? := by
  rw [getElem?_writeAt, if_neg (by omega), if_pos hi]

/-- A window inside the list is a plain `overwrite`. -/
theorem writeAt_eq_overwrite (filler : α) {l : List α} {off : ℕ} {data : List α}
    (h : off + data.length ≤ l.length) : writeAt filler l off data = overwrite l off data := by
  unfold writeAt
  split
  · subst_vars
    simp [overwrite]
  · rw [Nat.sub_eq_zero_of_le (by omega)]
    simp

/-! ## Optional maps -/

section OptionalMaps

variable {α β : Type} {f : α → Option β} {l : List α} {l' : List β}

theorem mapM_eq_some : l.mapM f = some l' ↔ List.Forall₂ (fun a b => f a = some b) l l' := by
  induction l generalizing l' with
  | nil =>
    rw [List.mapM_nil, Option.pure_def, Option.some.injEq, List.forall₂_nil_left_iff, eq_comm]
  | cons a l ih =>
    simp only [List.mapM_cons, Option.bind_eq_bind, Option.bind_eq_some_iff, Option.pure_def,
      Option.some.injEq, List.forall₂_cons_left_iff]
    constructor
    · rintro ⟨b, hb, bs, hbs, rfl⟩
      exact ⟨b, bs, hb, ih.mp hbs, rfl⟩
    · rintro ⟨b, bs, hb, hbs, rfl⟩
      exact ⟨b, hb, bs, ih.mpr hbs, rfl⟩

theorem exists_of_forall₂_right {R : α → β → Prop} (h : List.Forall₂ R l l') {b : β}
    (hb : b ∈ l') : ∃ a ∈ l, R a b := by
  induction h with
  | nil => cases hb
  | cons hab _ ih =>
    rcases List.mem_cons.mp hb with rfl | hb
    · exact ⟨_, List.mem_cons_self, hab⟩
    · obtain ⟨a, ha, hr⟩ := ih hb
      exact ⟨a, List.mem_cons_of_mem _ ha, hr⟩

/-- Related lists have equal images under functions that agree on related values. -/
theorem map_eq_of_forall₂ {γ : Type} {R : α → β → Prop} {g : α → γ} {g' : β → γ}
    (h : List.Forall₂ R l l') (hg : ∀ a b, R a b → g a = g' b) : l.map g = l'.map g' := by
  induction h with
  | nil => rfl
  | cons hab _ ih => rw [List.map_cons, List.map_cons, hg _ _ hab, ih]

/-- A map that never fails. -/
theorem mapM_some {γ δ : Type*} {f : γ → Option δ} {g : γ → δ} {l : List γ} (h : ∀ x ∈ l, f x = some (g x)) :
    l.mapM f = some (l.map g) := by
  induction l with
  | nil => rfl
  | cons x l ih =>
    rw [List.mapM_cons, h x List.mem_cons_self, ih fun y hy => h y (List.mem_cons_of_mem x hy)]
    rfl

end OptionalMaps

end Slice
