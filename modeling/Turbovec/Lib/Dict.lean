import Mathlib.Data.Finmap

/-!
# Finite maps under a run of updates

A dictionary is a finite map: equal when they give every key the same value, whatever the order of their
insertions. Runs of insertions and of removals, and the pairs of dictionaries that invert each other.
-/

namespace Turbovec

/-- A dictionary from `κ` to `υ`. -/
abbrev Dict (κ υ : Type) : Type := Finmap fun _ : κ => υ

namespace Dict

section variable {κ υ : Type} [DecidableEq κ]

/-- `m[k] = v` for every pair, in order. -/
def setAll (m : Dict κ υ) (l : List (κ × υ)) : Dict κ υ :=
  l.foldl (fun m p => m.insert p.1 p.2) m

/-- `m.pop(k, None)` for every key, in order. -/
def popAll (m : Dict κ υ) (l : List κ) : Dict κ υ := l.foldl (fun m k => m.erase k) m

@[simp] theorem setAll_nil (m : Dict κ υ) : setAll m [] = m := rfl

@[simp] theorem setAll_cons (m : Dict κ υ) (p : κ × υ) (l : List (κ × υ)) :
    setAll m (p :: l) = setAll (m.insert p.1 p.2) l := rfl

@[simp] theorem popAll_nil (m : Dict κ υ) : popAll m [] = m := rfl

@[simp] theorem popAll_cons (m : Dict κ υ) (k : κ) (l : List κ) :
    popAll m (k :: l) = popAll (m.erase k) l := rfl

theorem setAll_append (m : Dict κ υ) (l l' : List (κ × υ)) :
    setAll m (l ++ l') = setAll (setAll m l) l' := List.foldl_append

theorem lookup_insert_eq (m : Dict κ υ) (k : κ) (v : υ) (x : κ) :
    (m.insert k v).lookup x = if x = k then some v else m.lookup x := by
  by_cases h : x = k
  · rw [if_pos h, h, Finmap.lookup_insert]
  · rw [if_neg h, Finmap.lookup_insert_of_ne _ h]

theorem lookup_erase_eq (m : Dict κ υ) (k x : κ) :
    (m.erase k).lookup x = if x = k then none else m.lookup x := by
  by_cases h : x = k
  · rw [if_pos h, h, Finmap.lookup_erase]
  · rw [if_neg h, Finmap.lookup_erase_ne h]

/-- A key that no pair names keeps its value. -/
theorem of_lookup_erase {m : Dict κ υ} {k a : κ} {v : υ} (h : (m.erase a).lookup k = some v) :
    k ≠ a ∧ m.lookup k = some v := by
  rw [lookup_erase_eq] at h
  split at h
  · cases h
  next hne => exact ⟨hne, h⟩

theorem lookup_setAll_of_notMem {m : Dict κ υ} {l : List (κ × υ)} {k : κ} (h : k ∉ l.map Prod.fst) :
    (setAll m l).lookup k = m.lookup k := by
  induction l generalizing m with
  | nil => rfl
  | cons p l ih =>
    rw [List.map_cons, List.mem_cons, not_or] at h
    rw [setAll_cons, ih h.2, Finmap.lookup_insert_of_ne _ h.1]

/-- A key named once has the value of its pair. -/
theorem lookup_setAll_of_mem {m : Dict κ υ} {l : List (κ × υ)} (hl : (l.map Prod.fst).Nodup) {k : κ}
    {v : υ} (h : (k, v) ∈ l) : (setAll m l).lookup k = some v := by
  induction l generalizing m with
  | nil => cases h
  | cons p l ih =>
    rw [List.map_cons, List.nodup_cons] at hl
    rw [setAll_cons]
    rcases List.mem_cons.mp h with rfl | h
    · rw [lookup_setAll_of_notMem hl.1, Finmap.lookup_insert]
    · exact ih hl.2 h

/-- A value found was set by some pair, or was there before. -/
theorem of_lookup_setAll {m : Dict κ υ} {l : List (κ × υ)} {k : κ} {v : υ}
    (h : (setAll m l).lookup k = some v) : (k, v) ∈ l ∨ m.lookup k = some v := by
  induction l generalizing m with
  | nil => exact Or.inr h
  | cons p l ih =>
    rw [setAll_cons] at h
    rcases ih h with h | h
    · exact Or.inl (List.mem_cons_of_mem _ h)
    · rw [lookup_insert_eq] at h
      split at h
      next hk =>
        left
        rw [hk, ← Option.some.inj h]
        exact List.mem_cons_self
      next => exact Or.inr h

theorem lookup_setAll_eq_some {m : Dict κ υ} {l : List (κ × υ)} (hl : (l.map Prod.fst).Nodup) {k : κ}
    {v : υ} : (setAll m l).lookup k = some v ↔
      (k, v) ∈ l ∨ k ∉ l.map Prod.fst ∧ m.lookup k = some v := by
  by_cases hk : k ∈ l.map Prod.fst
  · obtain ⟨⟨a, w⟩, hp, rfl⟩ := List.mem_map.mp hk
    rw [lookup_setAll_of_mem hl hp]
    constructor
    · intro h
      exact Or.inl (Option.some.inj h ▸ hp)
    · rintro (h | h)
      · have hfst := List.inj_on_of_nodup_map hl hp h rfl
        exact congrArg some (congrArg Prod.snd hfst)
      · exact absurd hk h.1
  · rw [lookup_setAll_of_notMem hk]
    constructor
    · intro h
      exact Or.inr ⟨hk, h⟩
    · rintro (h | h)
      · exact absurd (List.mem_map.mpr ⟨_, h, rfl⟩) hk
      · exact h.2

theorem lookup_popAll (m : Dict κ υ) (l : List κ) (k : κ) :
    (popAll m l).lookup k = if k ∈ l then none else m.lookup k := by
  induction l generalizing m with
  | nil => simp
  | cons a l ih =>
    rw [popAll_cons, ih, lookup_erase_eq]
    by_cases h : k = a <;> by_cases hl : k ∈ l <;> simp [h, hl]

/-- Entries set and popped again, and the ones they had replaced put back: the dictionary of before. -/
theorem setAll_popAll_setAll {m : Dict κ υ} {l old : List (κ × υ)} (hold : (old.map Prod.fst).Nodup)
    (hsound : ∀ p ∈ old, m.lookup p.1 = some p.2)
    (hall : ∀ k ∈ l.map Prod.fst, ∀ v, m.lookup k = some v → (k, v) ∈ old) :
    setAll (popAll (setAll m l) (l.map Prod.fst)) old = m := by
  apply Finmap.ext_lookup
  intro k
  by_cases hk : k ∈ old.map Prod.fst
  · obtain ⟨⟨a, v⟩, hp, rfl⟩ := List.mem_map.mp hk
    rw [lookup_setAll_of_mem hold hp, hsound _ hp]
  · rw [lookup_setAll_of_notMem hk, lookup_popAll]
    split
    next hl =>
      cases hm : m.lookup k with
      | none => rfl
      | some v => exact absurd (List.mem_map.mpr ⟨_, hall k hl v hm, rfl⟩) hk
    next hl => exact lookup_setAll_of_notMem hl

/-- New entries set and popped again: the dictionary of before. -/
theorem popAll_setAll {m : Dict κ υ} {l : List (κ × υ)} (h : ∀ k ∈ l.map Prod.fst, m.lookup k = none) :
    popAll (setAll m l) (l.map Prod.fst) = m := by
  apply Finmap.ext_lookup
  intro k
  rw [lookup_popAll]
  split
  next hl => exact (h k hl).symm
  next hl => exact lookup_setAll_of_notMem hl

theorem mem_setAll {m : Dict κ υ} {l : List (κ × υ)} {k : κ} :
    k ∈ setAll m l ↔ k ∈ l.map Prod.fst ∨ k ∈ m := by
  induction l generalizing m with
  | nil => simp
  | cons p l ih =>
    rw [setAll_cons, ih, Finmap.mem_insert, List.map_cons, List.mem_cons]
    tauto

theorem mem_popAll {m : Dict κ υ} {l : List κ} {k : κ} : k ∈ popAll m l ↔ k ∉ l ∧ k ∈ m := by
  rw [Finmap.mem_iff, Finmap.mem_iff, lookup_popAll]
  by_cases h : k ∈ l <;> simp [h]

theorem mem_iff_lookup {m : Dict κ υ} {k : κ} : k ∈ m ↔ ∃ v, m.lookup k = some v := Finmap.mem_iff

end

/-! ## Values -/

section variable {κ υ : Type} [DecidableEq κ]

/-- `m.values()` -/
def values (m : Dict κ υ) : Multiset υ := m.entries.map Sigma.snd

omit [DecidableEq κ] in
theorem card_values (m : Dict κ υ) : (values m).card = m.keys.card := by
  rw [values, Multiset.card_map, Finset.card_def]
  exact (Multiset.card_map Sigma.fst m.entries).symm

theorem mem_entries {m : Dict κ υ} {k : κ} {v : υ} :
    (⟨k, v⟩ : Sigma fun _ => υ) ∈ m.entries ↔ m.lookup k = some v := by
  induction m using Finmap.induction_on with
  | H a => exact AList.mem_lookup_iff.symm

theorem mem_values {m : Dict κ υ} {v : υ} : v ∈ values m ↔ ∃ k, m.lookup k = some v := by
  rw [values, Multiset.mem_map]
  constructor
  · rintro ⟨⟨k, w⟩, h, rfl⟩
    exact ⟨k, mem_entries.mp h⟩
  · rintro ⟨k, h⟩
    exact ⟨⟨k, v⟩, mem_entries.mpr h, rfl⟩

/-- The values are distinct when no two keys share one. -/
theorem nodup_values {m : Dict κ υ}
    (h : ∀ k k' v, m.lookup k = some v → m.lookup k' = some v → k = k') : (values m).Nodup := by
  have hnd : m.entries.Nodup := m.nodupKeys.nodup
  refine Multiset.Nodup.map_on ?_ hnd
  rintro ⟨k, v⟩ hk ⟨k', v'⟩ hk' rfl
  have hkk := h k k' v (mem_entries.mp hk) (mem_entries.mp hk')
  rw [hkk]

/-- The two dictionaries invert each other. -/
def Inverse {ι : Type} [DecidableEq ι] (f : Dict ι κ) (g : Dict κ ι) : Prop :=
  ∀ i k, f.lookup i = some k ↔ g.lookup k = some i

theorem Inverse.values_nodup {ι : Type} [DecidableEq ι] {f : Dict ι κ} {g : Dict κ ι}
    (h : Inverse f g) : (values f).Nodup := by
  apply nodup_values
  intro i j k hi hj
  have hik := (h i k).mp hi
  have hjk := (h j k).mp hj
  rw [hik] at hjk
  exact Option.some.inj hjk

end

end Dict

end Turbovec
