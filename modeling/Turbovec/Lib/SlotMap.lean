import Mathlib.Data.List.Nodup
import Mathlib.Logic.Function.Basic
import Turbovec.Lib.Slice

/-!
# Keys over slots

A list of distinct keys, one for each slot, and the two maps kept beside it: from a key to its slot, and
from a key to what the slot holds. Slots are pushed at the end and removed by moving the last one into
the hole.
-/

namespace Turbovec.SlotMap

open Slice

section variable {α β : Type} [DecidableEq α]

/-- `HashMap::insert` -/
def insert (m : α → Option β) (a : α) (v : β) : α → Option β := Function.update m a (some v)

/-- `HashMap::remove` -/
def erase (m : α → Option β) (a : α) : α → Option β := Function.update m a none

def insertAll (m : α → Option β) (l : List (α × β)) : α → Option β :=
  l.foldl (fun m p => insert m p.1 p.2) m

theorem insert_apply (m : α → Option β) (a : α) (v : β) (b : α) :
    insert m a v b = if b = a then some v else m b :=
  Function.update_apply _ _ _ _

theorem erase_apply (m : α → Option β) (a b : α) : erase m a b = if b = a then none else m b :=
  Function.update_apply _ _ _ _

/-- Distinct keys inserted are found with their values; the others as before. -/
theorem insertAll_eq_some {l : List (α × β)} (hl : (l.map Prod.fst).Nodup) (m : α → Option β) {b : α}
    {v : β} : insertAll m l b = some v ↔ (b, v) ∈ l ∨ b ∉ l.map Prod.fst ∧ m b = some v := by
  induction l generalizing m with
  | nil => simp [insertAll]
  | cons p l ih =>
    rw [List.map_cons, List.nodup_cons] at hl
    have hstep : insertAll m (p :: l) = insertAll (insert m p.1 p.2) l := rfl
    rw [hstep, ih hl.2, insert_apply, List.map_cons, List.mem_cons, List.mem_cons]
    by_cases hb : b = p.1
    · subst hb
      have hnot : ∀ w, (p.1, w) ∉ l := fun w hw => hl.1 (List.mem_map.mpr ⟨_, hw, rfl⟩)
      simp only [if_true, Option.some.injEq, hnot, hl.1, not_false_eq_true, true_and, false_or,
        not_true, false_and, or_false, Prod.ext_iff]
      exact eq_comm
    · have hne : (b, v) ≠ p := fun h => hb (congrArg Prod.fst h)
      simp only [hb, hne, false_or, if_false]

end

/-! ## Removal by the last slot -/

section Removal

variable {α : Type}

/-- `Vec::swap_remove` -/
def swapRemove (l : List α) (i : ℕ) : List α :=
  match l[l.length - 1]? with
  | some a => (if i ≠ l.length - 1 then l.set i a else l).take (l.length - 1)
  | none => []

@[simp] theorem length_swapRemove (l : List α) (i : ℕ) : (swapRemove l i).length = l.length - 1 := by
  unfold swapRemove
  split
  · rw [List.length_take]
    split
    · rw [List.length_set]
      omega
    · omega
  · rename_i h
    rw [List.getElem?_eq_none_iff] at h
    rw [List.length_nil]
    omega

theorem getElem?_swapRemove {l : List α} {i : ℕ} (hi : i < l.length) (j : ℕ) :
    (swapRemove l i)[j]? =
      if j < l.length - 1 then if j = i then l[l.length - 1]? else l[j]? else none := by
  unfold swapRemove
  have hlast := List.getElem?_eq_getElem (l := l) (i := l.length - 1) (by omega)
  rw [hlast]
  dsimp only
  rw [List.getElem?_take]
  by_cases hj : j < l.length - 1
  · rw [if_pos hj, if_pos hj]
    by_cases hij : j = i
    · subst hij
      rw [if_pos rfl, if_pos (by omega), List.getElem?_set_self hi]
    · rw [if_neg hij]
      split
      · exact List.getElem?_set_ne (Ne.symm hij)
      · rfl
  · rw [if_neg hj, if_neg hj]

/-- A duplicate-free list holds each key once. -/
theorem index_unique {l : List α} (hl : l.Nodup) {j k : ℕ} {a : α} (hj : l[j]? = some a)
    (hk : l[k]? = some a) : j = k := by
  rw [List.nodup_iff_getElem?_ne_getElem?] at hl
  rcases Nat.lt_trichotomy j k with hlt | heq | hgt
  · exact absurd (hj.trans hk.symm) (hl j k hlt (List.getElem?_eq_some_iff.mp hk).1)
  · exact heq
  · exact absurd (hk.trans hj.symm) (hl k j hgt (List.getElem?_eq_some_iff.mp hj).1)

/-- Distinct keys stay distinct. -/
theorem nodup_swapRemove {l : List α} (hl : l.Nodup) {i : ℕ} (hi : i < l.length) :
    (swapRemove l i).Nodup := by
  -- slot `j` now holds what slot `moved j` held
  have hread : ∀ j, j < l.length - 1 →
      (swapRemove l i)[j]? = l[if j = i then l.length - 1 else j]? := by
    intro j hj
    rw [getElem?_swapRemove hi, if_pos hj]
    split
    · rfl
    · rfl
  rw [List.nodup_iff_getElem?_ne_getElem?]
  intro j k hjk hk heq
  rw [length_swapRemove] at hk
  rw [hread j (by omega), hread k hk] at heq
  have hlt : (if k = i then l.length - 1 else k) < l.length := by
    split
    · omega
    · omega
  rw [List.getElem?_eq_getElem hlt] at heq
  have := index_unique hl heq (List.getElem?_eq_getElem hlt)
  split at this
  · split at this
    · omega
    · omega
  · split at this
    · omega
    · omega

end Removal

/-! ## The two maps -/

section Maps

variable {α ρ : Type}

/-- `m` sends each key to its slot, and nothing else. -/
def Inverts (m : α → Option ℕ) (keys : List α) : Prop := ∀ a i, m a = some i ↔ keys[i]? = some a

/-- `m` sends each key to what its slot holds, and nothing else. -/
def Names (m : α → Option ρ) (keys : List α) (rows : List ρ) : Prop :=
  ∀ (a : α) (r : ρ), m a = some r ↔ ∃ i : ℕ, keys[i]? = some a ∧ rows[i]? = some r

variable {m : α → Option ℕ} {M : α → Option ρ} {keys : List α} {rows : List ρ}

theorem Inverts.nodup (h : Inverts m keys) : keys.Nodup := by
  rw [List.nodup_iff_getElem?_ne_getElem?]
  intro i j hij hj heq
  rw [List.getElem?_eq_getElem hj] at heq
  have hi := (h _ _).mpr heq
  rw [(h _ _).mpr (List.getElem?_eq_getElem hj)] at hi
  have := Option.some.inj hi
  omega

theorem Inverts.isSome (h : Inverts m keys) (a : α) : (m a).isSome ↔ a ∈ keys := by
  rw [Option.isSome_iff_exists, List.mem_iff_getElem?]
  exact exists_congr fun i => h a i

theorem Inverts.unique {m' : α → Option ℕ} (h : Inverts m keys) (h' : Inverts m' keys) : m = m' := by
  ext a i
  rw [h, h']

theorem Names.isSome (h : Names M keys rows) (hlen : rows.length = keys.length) (a : α) :
    (M a).isSome ↔ a ∈ keys := by
  rw [Option.isSome_iff_exists, List.mem_iff_getElem?]
  constructor
  · intro ⟨r, hr⟩
    obtain ⟨i, hi, -⟩ := (h a r).mp hr
    exact ⟨i, hi⟩
  · intro ⟨i, hi⟩
    have hlt := (List.getElem?_eq_some_iff.mp hi).1
    exact ⟨_, (h a _).mpr ⟨i, hi, List.getElem?_eq_getElem (by omega)⟩⟩

/-- The slot map and the row map agree. -/
theorem Names.eq_bind (h : Names M keys rows) (hm : Inverts m keys) (a : α) :
    M a = (m a).bind fun i => rows[i]? := by
  ext r
  rw [h, Option.bind_eq_some_iff]
  exact exists_congr fun i => and_congr_left' (hm a i).symm

variable [DecidableEq α]

/-- Distinct keys, collected with their slots. -/
theorem inverts_collect (h : keys.Nodup) : Inverts (insertAll (fun _ => none) keys.zipIdx) keys := by
  intro a i
  rw [insertAll_eq_some (by rw [List.zipIdx_map_fst]; exact h), List.mem_zipIdx_iff_getElem?]
  simp

theorem exists_names (h : keys.Nodup) (rows : List ρ) :
    Names (fun a => (insertAll (fun _ => none) keys.zipIdx a).bind fun i => rows[i]?) keys rows := by
  intro a r
  rw [Option.bind_eq_some_iff]
  exact exists_congr fun i => and_congr_left' (inverts_collect h a i)

section Append

variable {new : List α}

/-- New keys pushed. -/
theorem Inverts.append (h : Inverts m keys) (hnew : new.Nodup) (hfresh : ∀ a ∈ new, a ∉ keys) :
    Inverts (insertAll m (new.zipIdx keys.length)) (keys ++ new) := by
  intro a i
  rw [insertAll_eq_some (by rw [List.zipIdx_map_fst]; exact hnew), List.zipIdx_map_fst, h,
    List.mk_mem_zipIdx_iff_le_and_getElem?_sub, List.getElem?_append]
  split
  · rename_i hlt
    constructor
    · intro hor
      rcases hor with ⟨hle, -⟩ | ⟨-, hk⟩
      · omega
      · exact hk
    · intro hk
      exact Or.inr ⟨fun hmem => hfresh a hmem (List.mem_of_getElem? hk), hk⟩
  · rename_i hge
    constructor
    · intro hor
      rcases hor with ⟨-, hk⟩ | ⟨-, hk⟩
      · exact hk
      · exact absurd (List.getElem?_eq_some_iff.mp hk).1 hge
    · intro hk
      exact Or.inl ⟨by omega, hk⟩

theorem Names.append (h : Names M keys rows) (hlen : rows.length = keys.length) (hnew : new.Nodup)
    (hfresh : ∀ a ∈ new, a ∉ keys) {newRows : List ρ} (hnewLen : newRows.length = new.length) :
    Names (insertAll M (new.zip newRows)) (keys ++ new) (rows ++ newRows) := by
  have hkeys : (new.zip newRows).map Prod.fst = new := List.map_fst_zip (by omega)
  intro a r
  rw [insertAll_eq_some (by rw [hkeys]; exact hnew), hkeys, h]
  constructor
  · intro hor
    rcases hor with hmem | ⟨-, i, hk, hr⟩
    · obtain ⟨i, hi⟩ := List.mem_iff_getElem?.mp hmem
      rw [List.getElem?_zip_eq_some] at hi
      refine ⟨keys.length + i, ?_, ?_⟩
      · rw [List.getElem?_append_right (by omega), Nat.add_sub_cancel_left]
        exact hi.1
      · rw [List.getElem?_append_right (by omega), hlen, Nat.add_sub_cancel_left]
        exact hi.2
    · have hlt := (List.getElem?_eq_some_iff.mp hk).1
      exact ⟨i, by rwa [List.getElem?_append_left hlt], by rwa [List.getElem?_append_left (by omega)]⟩
  · intro ⟨i, hk, hr⟩
    by_cases hlt : i < keys.length
    · rw [List.getElem?_append_left hlt] at hk
      rw [List.getElem?_append_left (by omega)] at hr
      exact Or.inr ⟨fun hmem => hfresh a hmem (List.mem_of_getElem? hk), i, hk, hr⟩
    · rw [List.getElem?_append_right (by omega)] at hk hr
      rw [hlen] at hr
      exact Or.inl (List.mem_of_getElem? (List.getElem?_zip_eq_some.mpr ⟨hk, hr⟩))

end Append

section Remove

variable {a : α} {i : ℕ}

/-- The last key moves into the hole. -/
theorem Inverts.swapRemove (h : Inverts m keys) (hi : m a = some i) {moved : α}
    (hlast : keys[keys.length - 1]? = some moved) :
    Inverts (if i ≠ keys.length - 1 then insert (erase m a) moved i else erase m a)
      (SlotMap.swapRemove keys i) := by
  have hkey := (h a i).mp hi
  have hlt := (List.getElem?_eq_some_iff.mp hkey).1
  have hlastSlot := (h _ _).mpr hlast
  intro b j
  rw [getElem?_swapRemove hlt]
  by_cases hne : i = keys.length - 1
  -- the last key is the one removed, and nothing moves
  · rw [if_neg (not_not.mpr hne), erase_apply]
    by_cases hb : b = a
    · subst hb
      rw [if_pos rfl]
      constructor
      · intro hn
        cases hn
      intro hk
      split at hk
      · split at hk
        · omega
        · have := (h b j).mpr hk
          rw [hi] at this
          have := Option.some.inj this
          omega
      · cases hk
    · rw [if_neg hb, h]
      constructor
      · intro hk
        have hjlt := (List.getElem?_eq_some_iff.mp hk).1
        have hji : j ≠ i := by
          intro hji
          rw [hji, hkey] at hk
          exact hb (Option.some.inj hk).symm
        rw [if_pos (by omega), if_neg hji]
        exact hk
      · intro hk
        split at hk
        · split at hk
          · omega
          · exact hk
        · cases hk
  · rw [if_pos hne, insert_apply, erase_apply]
    by_cases hb : b = moved
    -- the moved key is at the hole, and no more at the end
    · rw [if_pos hb, Option.some.injEq]
      constructor
      · intro hij
        rw [if_pos (by omega), if_pos hij.symm, hlast, hb]
      · intro hk
        split at hk
        · split at hk
          · omega
          · have := (h b j).mpr hk
            rw [hb, hlastSlot] at this
            have := Option.some.inj this
            omega
        · cases hk
    · rw [if_neg hb]
      by_cases hba : b = a
      -- the removed key is nowhere: the hole has the moved one
      · rw [if_pos hba]
        refine ⟨fun hn => (by cases hn), fun hk => ?_⟩
        split at hk
        · split at hk
          · rw [hlast] at hk
            exact absurd (Option.some.inj hk).symm hb
          · have := (h b j).mpr hk
            rw [hba, hi] at this
            have := Option.some.inj this
            omega
        · cases hk
      -- any other key stays, for it is neither at the hole nor at the end
      · rw [if_neg hba, h]
        constructor
        · intro hk
          have hjlt := (List.getElem?_eq_some_iff.mp hk).1
          have hji : j ≠ i := by
            intro hji
            rw [hji, hkey] at hk
            exact hba (Option.some.inj hk).symm
          have hjl : j ≠ keys.length - 1 := by
            intro hjl
            rw [hjl, hlast] at hk
            exact hb (Option.some.inj hk).symm
          rw [if_pos (by omega), if_neg hji]
          exact hk
        · intro hk
          split at hk
          · split at hk
            · rw [hlast] at hk
              exact absurd (Option.some.inj hk).symm hb
            · exact hk
          · cases hk

/-- A removal drops one key, and every other key keeps what its slot holds. -/
theorem Names.swapRemove (h : Names M keys rows) (hlen : rows.length = keys.length) (hn : keys.Nodup)
    (hkey : keys[i]? = some a) :
    Names (erase M a) (SlotMap.swapRemove keys i) (SlotMap.swapRemove rows i) := by
  have hlt := (List.getElem?_eq_some_iff.mp hkey).1
  intro b r
  rw [erase_apply]
  constructor
  · intro hr
    split at hr
    · cases hr
    · rename_i hb
      obtain ⟨j, hk, hr⟩ := (h b r).mp hr
      have hjlt := (List.getElem?_eq_some_iff.mp hk).1
      have hji : j ≠ i := by
        intro hji
        rw [hji, hkey] at hk
        exact hb (Option.some.inj hk).symm
      -- the key sits in its own slot, or it was the last and is now in the hole
      refine ⟨if j = keys.length - 1 then i else j, ?_, ?_⟩
      · rw [getElem?_swapRemove hlt]
        split
        · rename_i hj
          rw [if_pos (by omega), if_pos rfl, ← hj]
          exact hk
        · rw [if_pos (by omega)]
          exact hk
      · rw [getElem?_swapRemove (by omega), hlen]
        split
        · rename_i hj
          rw [if_pos (by omega), if_pos rfl, ← hj]
          exact hr
        · rw [if_pos (by omega)]
          exact hr
  · intro ⟨j, hk, hr⟩
    rw [getElem?_swapRemove hlt] at hk
    rw [getElem?_swapRemove (by omega), hlen] at hr
    split at hk
    · rename_i hj
      rw [if_pos hj] at hr
      split at hk
      · rename_i hji
        rw [if_pos hji] at hr
        rw [if_neg]
        · exact (h b r).mpr ⟨_, hk, hr⟩
        · intro hb
          subst hb
          have := index_unique hn hk hkey
          omega
      · rename_i hji
        rw [if_neg hji] at hr
        rw [if_neg]
        · exact (h b r).mpr ⟨_, hk, hr⟩
        · intro hb
          subst hb
          exact hji (index_unique hn hk hkey)
    · cases hk

end Remove

end Maps

end Turbovec.SlotMap
