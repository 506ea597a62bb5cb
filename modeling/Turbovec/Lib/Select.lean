import Mathlib.Data.List.Perm.Basic
import Mathlib.Order.Defs.LinearOrder
import Mathlib.Order.Lattice

/-!
# Selection by rank

A selection puts a value of a rank where a sort would put it, with no greater key before it and no smaller key
after it. The value is an order statistic of its rank, which the list determines up to order and equal keys; and a
second selection in the part after the first finds a later order statistic of the whole list.
-/

namespace Select

variable {β γ α α' : Type*} [LinearOrder α] [LinearOrder α'] {key : β → α}

/-- A value of the list with at most `k` keys less than its key and more than `k` at most it. -/
def IsOrderStat (key : β → α) (l : List β) (k : ℕ) (v : β) : Prop :=
  v ∈ l ∧ l.countP (fun x => decide (key x < key v)) ≤ k ∧ k < l.countP fun x => decide (key x ≤ key v)

/-- A rearrangement of the list around a value of rank `k`. -/
structure Splits (key : β → α) (l : List β) (k : ℕ) (r : List β × β × List β) : Prop where
  perm : (r.1 ++ r.2.1 :: r.2.2).Perm l
  length : r.1.length = k
  below : ∀ x ∈ r.1, key x ≤ key r.2.1
  above : ∀ x ∈ r.2.2, key r.2.1 ≤ key x

/-- The contract of a selection function. -/
def Selects (key : β → α) (select : List β → ℕ → List β × β × List β) : Prop :=
  ∀ l k, k < l.length → Splits key l k (select l k)

variable {l l' : List β} {k j : ℕ} {v w : β} {r r' : List β × β × List β}

theorem IsOrderStat.perm (h : IsOrderStat key l k v) (hp : l.Perm l') : IsOrderStat key l' k v :=
  ⟨hp.mem_iff.mp h.1, hp.countP_eq _ ▸ h.2.1, hp.countP_eq _ ▸ h.2.2⟩

/-- A rank has one key. -/
theorem IsOrderStat.unique (hv : IsOrderStat key l k v) (hw : IsOrderStat key l k w) : key v = key w := by
  have hle {v w : β} (hv : IsOrderStat key l k v) (hw : IsOrderStat key l k w) : key v ≤ key w := by
    by_contra hlt
    have hmono : l.countP (fun x => decide (key x ≤ key w)) ≤ l.countP fun x => decide (key x < key v) := by
      apply List.countP_mono_left
      intro x _ hx
      rw [decide_eq_true_eq] at *
      exact lt_of_le_of_lt hx (not_le.mp hlt)
    have h1 := hw.2.2
    have h2 := hv.2.1
    omega
  exact le_antisymm (hle hv hw) (hle hw hv)

/-- An order statistic of images is one of the values, when the images' order refines theirs. -/
theorem IsOrderStat.of_map {f : γ → β} {key' : γ → α'} (hf : ∀ x y, key' x < key' y → key (f x) < key (f y))
    {l : List γ} {v : γ} (hv : v ∈ l) (h : IsOrderStat key (l.map f) k (f v)) : IsOrderStat key' l k v := by
  obtain ⟨-, hlt, hle⟩ := h
  rw [List.countP_map] at hlt hle
  refine ⟨hv, Nat.le_trans ?_ hlt, Nat.lt_of_lt_of_le hle ?_⟩
  · apply List.countP_mono_left
    intro x _ hx
    exact decide_eq_true (hf x v (of_decide_eq_true hx))
  · apply List.countP_mono_left
    intro x _ hx
    apply decide_eq_true
    by_contra hlt
    exact absurd (hf v x (not_le.mp hlt)) (not_lt.mpr (of_decide_eq_true hx))

/-- What a split leaves at its place is an order statistic. -/
theorem Splits.isOrderStat (h : Splits key l k r) : IsOrderStat key l k r.2.1 := by
  apply IsOrderStat.perm _ h.perm
  refine ⟨List.mem_append_right _ List.mem_cons_self, ?_, ?_⟩
  · have hpost : r.2.2.countP (fun x => decide (key x < key r.2.1)) = 0 := by
      rw [List.countP_eq_zero]
      intro x hx hlt
      exact not_lt.mpr (h.above x hx) (of_decide_eq_true hlt)
    have hpre : r.1.countP (fun x => decide (key x < key r.2.1)) ≤ r.1.length := List.countP_le_length
    rw [List.countP_append, List.countP_cons_of_neg (by simp), hpost, ← h.length]
    exact hpre
  · have hpre : r.1.countP (fun x => decide (key x ≤ key r.2.1)) = r.1.length :=
      List.countP_eq_length.mpr fun x hx => decide_eq_true (h.below x hx)
    rw [List.countP_append, List.countP_cons_of_pos (by simp), hpre, h.length]
    omega

/-- Splitting the part after a split splits the list. -/
theorem Splits.trans (h : Splits key l k r) (h' : Splits key r.2.2 j r') :
    Splits key l (k + 1 + j) (r.1 ++ r.2.1 :: r'.1, r'.2.1, r'.2.2) := by
  have hmem {x : β} (hx : x ∈ r'.1 ++ r'.2.1 :: r'.2.2) : key r.2.1 ≤ key x := h.above x (h'.perm.mem_iff.mp hx)
  constructor
  · apply List.Perm.trans _ h.perm
    rw [List.append_assoc, List.cons_append]
    exact (h'.perm.cons _).append_left _
  · rw [List.length_append, List.length_cons, h.length, h'.length]
    omega
  · intro x hx
    have hv : key r.2.1 ≤ key r'.2.1 := hmem (List.mem_append_right _ List.mem_cons_self)
    rcases List.mem_append.mp hx with hx | hx
    · exact le_trans (h.below x hx) hv
    · rcases List.mem_cons.mp hx with rfl | hx
      · exact hv
      · exact h'.below x hx
  · exact h'.above

theorem Splits.length_after (h : Splits key l k r) : r.2.2.length = l.length - (k + 1) := by
  have hlen := h.perm.length_eq
  rw [List.length_append, List.length_cons, h.length] at hlen
  omega

end Select
