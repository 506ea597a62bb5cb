import Turbovec.Lib.Dict

/-!
# Dictionaries of sets

A dictionary from a key to the set of its members, kept with no empty set: `setdefault(k, set()).add(v)` adds a
member and `discard` drops one, and the key with its last. Such a dictionary is a function of its memberships.
-/

namespace Turbovec

namespace Multimap

open Dict

variable {κ υ : Type} [DecidableEq κ] [DecidableEq υ]

/-- `m.get(k, set())` -/
def members (m : Dict κ (Finset υ)) (k : κ) : Finset υ := (m.lookup k).getD ∅

/-- `m.setdefault(k, set()).add(v)` -/
def addTo (m : Dict κ (Finset υ)) (k : κ) (v : υ) : Dict κ (Finset υ) :=
  m.insert k (insert v (members m k))

/-- `m[k].discard(v)`, and `del m[k]` when that leaves nothing. A missing key stays missing. -/
def discardFrom (m : Dict κ (Finset υ)) (k : κ) (v : υ) : Dict κ (Finset υ) :=
  match m.lookup k with
  | none => m
  | some s => if s.erase v = ∅ then m.erase k else m.insert k (s.erase v)

/-- No key is kept for an empty set. -/
def NoEmpty (m : Dict κ (Finset υ)) : Prop := ∀ k s, m.lookup k = some s → s.Nonempty

omit [DecidableEq υ] in
theorem noEmpty_empty : NoEmpty (∅ : Dict κ (Finset υ)) := by
  intro k s h
  rw [Finmap.lookup_empty] at h
  cases h

omit [DecidableEq υ] in
@[simp] theorem members_empty (k : κ) : members (∅ : Dict κ (Finset υ)) k = ∅ := by
  rw [members, Finmap.lookup_empty]
  rfl

/-- A key is there when it has a member. -/
theorem NoEmpty.lookup_eq {m : Dict κ (Finset υ)} (h : NoEmpty m) (k : κ) :
    m.lookup k = if members m k = ∅ then none else some (members m k) := by
  unfold members
  cases hk : m.lookup k with
  | none => rfl
  | some s => exact (if_neg (h k s hk).ne_empty).symm

/-- Two such dictionaries with the same memberships are the same. -/
theorem NoEmpty.ext {m m' : Dict κ (Finset υ)} (h : NoEmpty m) (h' : NoEmpty m')
    (hmem : ∀ k v, v ∈ members m k ↔ v ∈ members m' k) : m = m' := by
  apply Finmap.ext_lookup
  intro k
  have hk : members m k = members m' k := by
    ext v
    exact hmem k v
  rw [h.lookup_eq, h'.lookup_eq, hk]

theorem mem_addTo {m : Dict κ (Finset υ)} {k k' : κ} {v v' : υ} :
    v' ∈ members (addTo m k v) k' ↔ v' ∈ members m k' ∨ k' = k ∧ v' = v := by
  unfold addTo
  rw [members, lookup_insert_eq]
  by_cases hk : k' = k
  · subst hk
    rw [if_pos rfl, Option.getD_some, Finset.mem_insert]
    tauto
  · rw [if_neg hk]
    show v' ∈ members m k' ↔ _
    tauto

theorem NoEmpty.addTo {m : Dict κ (Finset υ)} (h : NoEmpty m) (k : κ) (v : υ) : NoEmpty (addTo m k v) := by
  intro k' s hs
  unfold Multimap.addTo at hs
  rw [lookup_insert_eq] at hs
  split at hs
  next =>
    rw [← Option.some.inj hs]
    exact Finset.insert_nonempty _ _
  next => exact h k' s hs

theorem mem_discardFrom {m : Dict κ (Finset υ)} {k k' : κ} {v v' : υ} :
    v' ∈ members (discardFrom m k v) k' ↔ v' ∈ members m k' ∧ ¬(k' = k ∧ v' = v) := by
  unfold discardFrom
  cases hm : m.lookup k with
  | none =>
    dsimp only
    constructor
    · intro h
      refine ⟨h, ?_⟩
      rintro ⟨rfl, -⟩
      rw [members, hm] at h
      cases h
    · exact fun h => h.1
  | some s =>
    dsimp only
    have herase : k' = k → (v' ∈ s.erase v ↔ v' ∈ members m k' ∧ ¬(k' = k ∧ v' = v)) := by
      rintro rfl
      rw [members, hm, Option.getD_some, Finset.mem_erase]
      tauto
    split
    next hs =>
      rw [members, lookup_erase_eq]
      by_cases hk : k' = k
      · rw [if_pos hk, ← herase hk, hs]
        rfl
      · rw [if_neg hk]
        show v' ∈ members m k' ↔ _
        tauto
    next hs =>
      rw [members, lookup_insert_eq]
      by_cases hk : k' = k
      · rw [if_pos hk, ← herase hk]
        rfl
      · rw [if_neg hk]
        show v' ∈ members m k' ↔ _
        tauto

theorem NoEmpty.discardFrom {m : Dict κ (Finset υ)} (h : NoEmpty m) (k : κ) (v : υ) :
    NoEmpty (discardFrom m k v) := by
  unfold Multimap.discardFrom
  cases hm : m.lookup k with
  | none => exact h
  | some s =>
    dsimp only
    split
    next hs =>
      intro k' t ht
      rw [lookup_erase_eq] at ht
      split at ht
      next => cases ht
      next => exact h k' t ht
    next hs =>
      intro k' t ht
      rw [lookup_insert_eq] at ht
      split at ht
      next =>
        rw [← Option.some.inj ht]
        exact Finset.nonempty_iff_ne_empty.mpr hs
      next => exact h k' t ht

end Multimap

end Turbovec
