import Mathlib.Data.List.Nodup
import Mathlib.Order.Lattice
import Mathlib.Order.Nat

/-!
# The first `k` of a list

Items are ranked in a linear order, least first. A sublist *keeps* the first `k` of a list when every item
it leaves out has `k` items of the sublist at or before it. What keeps the first `k` can be cut, split into
parts and merged again without changing them.
-/

namespace Turbovec.TopK

section variable {α ρ : Type} [LinearOrder ρ] (rank : α → ρ)

/-- Least rank first. -/
def sorted (l : List α) : List α := l.mergeSort fun a b => decide (rank a ≤ rank b)

/-- The first `k` items, in order. -/
def first (k : ℕ) (l : List α) : List α := (sorted rank l).take k

/-- How many items are at or before `r`. -/
def upTo (r : ρ) (l : List α) : ℕ := l.countP fun a => decide (rank a ≤ r)

/-- `c` is `l` without some items that each have `k` items of `c` at or before them. -/
def Keeps (k : ℕ) (l c : List α) : Prop := ∃ d, l.Perm (c ++ d) ∧ ∀ b ∈ d, k ≤ upTo rank (rank b) c

end

section

variable {α ρ : Type} [LinearOrder ρ] {rank : α → ρ} {k : ℕ} {l l' c c' : List α}

/-! ## Sorting -/

theorem sorted_perm (l : List α) : (sorted rank l).Perm l := List.mergeSort_perm l _

theorem sorted_pairwise (l : List α) : (sorted rank l).Pairwise fun a b => rank a ≤ rank b := by
  have htrans : ∀ a b c : α, decide (rank a ≤ rank b) = true → decide (rank b ≤ rank c) = true →
      decide (rank a ≤ rank c) = true := by
    intro a b c hab hbc
    rw [decide_eq_true_iff] at hab hbc ⊢
    exact hab.trans hbc
  have htotal : ∀ a b : α, (decide (rank a ≤ rank b) || decide (rank b ≤ rank a)) = true := by
    intro a b
    rw [Bool.or_eq_true, decide_eq_true_iff, decide_eq_true_iff]
    exact le_total _ _
  exact (List.pairwise_mergeSort htrans htotal l).imp fun h => of_decide_eq_true h

/-- A sorted arrangement of items of distinct rank is the sorted list. -/
theorem sorted_unique (hnd : (l.map rank).Nodup) (hp : l.Perm l')
    (hs : l'.Pairwise fun a b => rank a ≤ rank b) : sorted rank l = l' := by
  refine List.Perm.eq_of_pairwise (fun a b ha hb hab hba => ?_) (sorted_pairwise l) hs
    ((sorted_perm l).trans hp)
  have ha : a ∈ l := (sorted_perm l).mem_iff.mp ha
  have hb : b ∈ l := hp.mem_iff.mpr hb
  exact List.inj_on_of_nodup_map hnd ha hb (le_antisymm hab hba)

theorem sorted_perm_eq (hnd : (l.map rank).Nodup) (hp : l.Perm l') : sorted rank l = sorted rank l' :=
  sorted_unique hnd (hp.trans (sorted_perm l').symm) (sorted_pairwise l')

/-- Filtering keeps the order of a sorted list. -/
theorem filter_sorted (hnd : (l.map rank).Nodup) (p : α → Bool) :
    (sorted rank l).filter p = sorted rank (l.filter p) :=
  (sorted_unique (hnd.sublist (List.filter_sublist.map rank)) ((sorted_perm l).symm.filter p)
    ((sorted_pairwise l).filter p)).symm

/-- A map that keeps the order keeps a list sorted. -/
theorem sorted_map {β : Type} {rank' : β → ρ} {f : α → β} (hnd : ((l.map f).map rank').Nodup)
    (hmono : ∀ a b, rank a ≤ rank b → rank' (f a) ≤ rank' (f b)) :
    sorted rank' (l.map f) = (sorted rank l).map f :=
  sorted_unique hnd ((sorted_perm l).symm.map f)
    (List.pairwise_map.mpr ((sorted_pairwise l).imp fun {a b} => hmono a b))

theorem length_first (k : ℕ) (l : List α) : (first rank k l).length = min k l.length := by
  rw [first, List.length_take, (sorted_perm l).length_eq]

/-- Where `k` items are at or before `r`, the first `k` are. -/
theorem first_le {r : ρ} (h : k ≤ upTo rank r l) : ∀ a ∈ first rank k l, rank a ≤ r := by
  intro a ha
  by_contra hgt
  rw [not_le] at hgt
  obtain ⟨i, hi, rfl⟩ := List.mem_iff_getElem.mp ha
  have hik : i < k := by
    rw [first, List.length_take] at hi
    omega
  have his : i < (sorted rank l).length := by
    rw [first, List.length_take] at hi
    omega
  have hget : (first rank k l)[i] = (sorted rank l)[i] := List.getElem_take
  rw [hget] at hgt
  -- past position `i` no item is at or before `r`
  have hcount : upTo rank r (sorted rank l) ≤ i := by
    rw [upTo, ← List.take_append_drop i (sorted rank l), List.countP_append]
    have hdrop : ((sorted rank l).drop i).countP (fun a => decide (rank a ≤ r)) = 0 := by
      rw [List.countP_eq_zero]
      intro b hb
      rw [decide_eq_true_iff, not_le]
      obtain ⟨j, hj, rfl⟩ := List.mem_iff_getElem.mp hb
      rw [List.getElem_drop]
      rcases Nat.eq_zero_or_pos j with rfl | hj0
      · exact hgt
      · have hlt : i + j < (sorted rank l).length := by
          rw [List.length_drop] at hj
          omega
        exact hgt.trans_le (List.pairwise_iff_getElem.mp (sorted_pairwise l) i (i + j) his hlt (by omega))
    have htake : ((sorted rank l).take i).countP (fun a => decide (rank a ≤ r)) ≤ i :=
      List.countP_le_length.trans (List.length_take_le _ _)
    omega
  rw [upTo, (sorted_perm l).countP_eq] at hcount
  rw [upTo] at h
  omega

/-! ## Keeping the first `k` -/

theorem upTo_mono {r r' : ρ} (h : r ≤ r') (l : List α) : upTo rank r l ≤ upTo rank r' l := by
  apply List.countP_mono_left
  intro a _ ha
  rw [decide_eq_true_iff] at ha ⊢
  exact ha.trans h

theorem upTo_append (r : ρ) (l l' : List α) : upTo rank r (l ++ l') = upTo rank r l + upTo rank r l' :=
  List.countP_append

theorem upTo_perm (r : ρ) (h : l.Perm l') : upTo rank r l = upTo rank r l' := h.countP_eq _

theorem upTo_eq_length {r : ρ} (h : ∀ a ∈ l, rank a ≤ r) : upTo rank r l = l.length := by
  rw [upTo, List.countP_eq_length]
  intro a ha
  rw [decide_eq_true_iff]
  exact h a ha

theorem Keeps.refl (l : List α) : Keeps rank k l l :=
  ⟨[], by rw [List.append_nil], fun b hb => by cases hb⟩

theorem Keeps.perm (h : Keeps rank k l c) (hp : c.Perm c') : Keeps rank k l c' := by
  obtain ⟨d, hd, hk⟩ := h
  refine ⟨d, hd.trans (hp.append_right d), fun b hb => ?_⟩
  rw [← upTo_perm _ hp]
  exact hk b hb

theorem Keeps.subset (h : Keeps rank k l c) : ∀ a ∈ c, a ∈ l := by
  obtain ⟨d, hd, -⟩ := h
  intro a ha
  exact hd.mem_iff.mpr (List.mem_append_left d ha)

theorem Keeps.append (h : Keeps rank k l c) (h' : Keeps rank k l' c') : Keeps rank k (l ++ l') (c ++ c') := by
  obtain ⟨d, hd, hk⟩ := h
  obtain ⟨d', hd', hk'⟩ := h'
  refine ⟨d ++ d', ?_, fun b hb => ?_⟩
  · calc (l ++ l').Perm ((c ++ d) ++ (c' ++ d')) := hd.append hd'
      _ = c ++ (d ++ (c' ++ d')) := List.append_assoc ..
      _ = c ++ ((d ++ c') ++ d') := by rw [List.append_assoc d]
      _ |>.Perm (c ++ ((c' ++ d) ++ d')) := (List.perm_append_comm.append_right d').append_left c
      _ = (c ++ c') ++ (d ++ d') := by simp only [List.append_assoc]
  · rw [upTo_append]
    rcases List.mem_append.mp hb with hb | hb
    · exact (hk b hb).trans (Nat.le_add_right _ _)
    · exact (hk' b hb).trans (Nat.le_add_left _ _)

/-- The parts of a list, each kept, keep the list. -/
theorem Keeps.flatMap {ι : Type} (is : List ι) {f g : ι → List α} (h : ∀ i ∈ is, Keeps rank k (f i) (g i)) :
    Keeps rank k (is.flatMap f) (is.flatMap g) := by
  induction is with
  | nil => exact Keeps.refl []
  | cons i is ih =>
    rw [List.flatMap_cons, List.flatMap_cons]
    exact (h i List.mem_cons_self).append (ih fun j hj => h j (List.mem_cons_of_mem i hj))

theorem Keeps.trans (h : Keeps rank k l c) (h' : Keeps rank k c c') : Keeps rank k l c' := by
  obtain ⟨d, hd, hk⟩ := h
  obtain ⟨d', hd', hk'⟩ := h'
  refine ⟨d' ++ d, ?_, fun b hb => ?_⟩
  · rw [← List.append_assoc]
    exact hd.trans (hd'.append_right d)
  · rcases List.mem_append.mp hb with hb | hb
    · exact hk' b hb
    · by_cases hsome : ∃ a ∈ d', rank a ≤ rank b
      · obtain ⟨a, ha, hab⟩ := hsome
        exact (hk' a ha).trans (upTo_mono hab c')
      · have hzero : upTo rank (rank b) d' = 0 := by
          rw [upTo, List.countP_eq_zero]
          intro a ha
          rw [decide_eq_true_iff]
          exact fun hab => hsome ⟨a, ha, hab⟩
        have := hk b hb
        rw [upTo_perm _ hd', upTo_append, hzero] at this
        exact this

/-- Items renamed, their order kept. -/
theorem Keeps.map {β : Type} {rank' : β → ρ} {f : α → β}
    (hf : ∀ a b, rank' (f a) ≤ rank' (f b) ↔ rank a ≤ rank b) (h : Keeps rank k l c) :
    Keeps rank' k (l.map f) (c.map f) := by
  obtain ⟨d, hd, hk⟩ := h
  refine ⟨d.map f, ?_, fun b hb => ?_⟩
  · rw [← List.map_append]
    exact hd.map f
  · obtain ⟨e, he, rfl⟩ := List.mem_map.mp hb
    have hcount : upTo rank' (rank' (f e)) (c.map f) = upTo rank (rank e) c := by
      rw [upTo, upTo, List.countP_map]
      apply List.countP_congr
      intro a _
      rw [Function.comp_apply, decide_eq_true_iff, decide_eq_true_iff]
      exact hf a e
    rw [hcount]
    exact hk e he

/-- The first `k` items keep the first `k`. -/
theorem keeps_first (k : ℕ) (l : List α) : Keeps rank k l (first rank k l) := by
  refine ⟨(sorted rank l).drop k, ?_, fun b hb => ?_⟩
  · rw [first, List.take_append_drop]
    exact (sorted_perm l).symm
  · have hlen : k ≤ (sorted rank l).length := by
      have := List.length_pos_of_mem hb
      rw [List.length_drop] at this
      omega
    have hle : ∀ a ∈ first rank k l, rank a ≤ rank b := by
      have hpw : (sorted rank l).Pairwise fun a b => rank a ≤ rank b := sorted_pairwise l
      rw [← List.take_append_drop k (sorted rank l), List.pairwise_append] at hpw
      intro a ha
      exact hpw.2.2 a ha b hb
    rw [upTo_eq_length hle, first, List.length_take]
    omega

/-- What keeps the first `k` has the same first `k`. -/
theorem Keeps.first_eq (hnd : (l.map rank).Nodup) (h : Keeps rank k l c) :
    first rank k c = first rank k l := by
  obtain ⟨d, hd, hk⟩ := h
  have hnd' : ((c ++ d).map rank).Nodup := (hd.map rank).nodup_iff.mp hnd
  rcases List.eq_nil_or_concat d with rfl | ⟨d₀, b₀, hd₀⟩
  · rw [List.append_nil] at hd
    rw [first, first, sorted_perm_eq hnd hd]
  · have hb₀ : b₀ ∈ d := by rw [hd₀]; simp
    have hlen : (first rank k c).length = k := by
      have := (hk b₀ hb₀).trans List.countP_le_length
      rw [length_first]
      omega
    -- the first `k` of `c`, then everything else
    have hsorted : sorted rank l = first rank k c ++ sorted rank ((sorted rank c).drop k ++ d) := by
      refine sorted_unique hnd ?_ ?_
      · calc l.Perm (c ++ d) := hd
          _ |>.Perm (sorted rank c ++ d) := (sorted_perm c).symm.append_right d
          _ = first rank k c ++ ((sorted rank c).drop k ++ d) := by
            rw [← List.append_assoc, first, List.take_append_drop]
          _ |>.Perm (first rank k c ++ sorted rank ((sorted rank c).drop k ++ d)) :=
            (sorted_perm _).symm.append_left _
      · have hpw : (sorted rank c).Pairwise fun a b => rank a ≤ rank b := sorted_pairwise c
        rw [← List.take_append_drop k (sorted rank c), List.pairwise_append] at hpw
        rw [List.pairwise_append]
        refine ⟨hpw.1, sorted_pairwise _, fun a ha b hb => ?_⟩
        rcases List.mem_append.mp ((sorted_perm _).mem_iff.mp hb) with hb | hb
        · exact hpw.2.2 a ha b hb
        · exact first_le (hk b hb) a ha
    have htake : first rank k l = (first rank k c ++ sorted rank ((sorted rank c).drop k ++ d)).take k := by
      rw [← hsorted, first]
    rw [htake, List.take_append_of_le_length hlen.ge, List.take_of_length_le hlen.le]

/-- A perm of the first `k` has the same members. -/
theorem Keeps.perm_first (hnd : (l.map rank).Nodup) (h : Keeps rank k l c) (hlen : c.length ≤ k) :
    c.Perm (first rank k l) := by
  rw [← h.first_eq hnd, first, List.take_of_length_le (by rw [(sorted_perm c).length_eq]; exact hlen)]
  exact (sorted_perm c).symm

/-! ## One more item -/

/-- An item at or after `k` kept ones changes nothing. -/
theorem Keeps.skip {e : α} (h : Keeps rank k l c) (he : k ≤ upTo rank (rank e) c) :
    Keeps rank k (l ++ [e]) c := by
  obtain ⟨d, hd, hk⟩ := h
  refine ⟨d ++ [e], ?_, fun b hb => ?_⟩
  · rw [← List.append_assoc]
    exact hd.append_right [e]
  · rcases List.mem_append.mp hb with hb | hb
    · exact hk b hb
    · rw [List.mem_singleton.mp hb]
      exact he

/-- In a list of `k`, a last item gives its place to one at or before it. -/
theorem Keeps.replace {e w : α} {i : ℕ} (h : Keeps rank k l c) (hlen : c.length = k) (hi : getElem? c i = some w)
    (hlast : ∀ a ∈ c, rank a ≤ rank w) (he : rank e ≤ rank w) : Keeps rank k (l ++ [e]) (c.set i e) := by
  obtain ⟨d, hd, hk⟩ := h
  obtain ⟨hlt, hw⟩ := List.getElem?_eq_some_iff.mp hi
  have hset : c.set i e = c.take i ++ e :: c.drop (i + 1) := List.set_eq_take_append_cons_drop .. |>.trans
    (by rw [if_pos hlt])
  have hsplit : c = c.take i ++ w :: c.drop (i + 1) := by
    rw [← hw, List.getElem_cons_drop, List.take_append_drop]
  have hmem : ∀ a ∈ c.set i e, rank a ≤ rank w := by
    intro a ha
    rcases List.mem_or_eq_of_mem_set ha with ha | rfl
    · exact hlast a ha
    · exact he
  refine ⟨w :: d, ?_, fun b hb => ?_⟩
  · have hcw : (c ++ [e]).Perm (c.set i e ++ [w]) := by
      rw [hset]
      nth_rewrite 1 [hsplit]
      rw [List.append_assoc, List.append_assoc]
      refine List.Perm.append_left _ ?_
      rw [List.cons_append, List.cons_append]
      calc (w :: (c.drop (i + 1) ++ [e])).Perm (w :: e :: c.drop (i + 1)) :=
            (List.perm_append_singleton e _).cons w
        _ |>.Perm (e :: w :: c.drop (i + 1)) := List.Perm.swap e w _
        _ |>.Perm (e :: (c.drop (i + 1) ++ [w])) := (List.perm_append_singleton w _).symm.cons e
    calc (l ++ [e]).Perm ((c ++ d) ++ [e]) := hd.append_right [e]
      _ = c ++ (d ++ [e]) := List.append_assoc ..
      _ |>.Perm (c ++ ([e] ++ d)) := List.perm_append_comm.append_left c
      _ = (c ++ [e]) ++ d := (List.append_assoc ..).symm
      _ |>.Perm ((c.set i e ++ [w]) ++ d) := hcw.append_right d
      _ = c.set i e ++ w :: d := by rw [List.append_assoc]; rfl
  · have hwb : rank w ≤ rank b := by
      rcases List.mem_cons.mp hb with rfl | hb
      · exact le_rfl
      · -- all `k` items of `c` are at or before `b`, `w` among them
        have hall : upTo rank (rank b) c = c.length :=
          le_antisymm List.countP_le_length (by rw [hlen]; exact hk b hb)
        rw [upTo, List.countP_eq_length] at hall
        exact of_decide_eq_true (hall w (List.mem_of_getElem? hi))
    rw [upTo_eq_length fun a ha => (hmem a ha).trans hwb, List.length_set, hlen]

end

end Turbovec.TopK
