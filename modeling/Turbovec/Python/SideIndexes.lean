import Turbovec.Python.Agno
import Turbovec.Python.Persist
import Mathlib.Data.Finset.Sort

/-!
# The side indexes of the Agno store

The id map, the name map and the content hashes are a function of the payloads. One membership lemma for each of
linking and unlinking a payload, batches by induction, and from these every call and every run: a removal drops
a side entry when its last holder goes, and a raised insertion takes back exactly what it entered.
-/

namespace Turbovec.Python.Agno

open Dict Multimap

variable {V μ : Type}

/-! ## What the side indexes mirror -/

/-- The payload is listed under the name: `if name`. -/
def Payload.Lists (d : Payload μ) (name id : String) : Prop := d.name = some name ∧ name ≠ "" ∧ d.id = id

/-- Some payload of the map is as asked. -/
def Some (m : Dict ℕ (Payload μ)) (P : Payload μ → Prop) : Prop := ∃ h d, m.lookup h = some d ∧ P d

/-- The side indexes are what the payloads make of them: each id has the handles of its payloads, each name the
ids of its payloads, and the content hashes are those of the payloads. No key is kept for nothing. -/
structure Mirrors (m : Dict ℕ (Payload μ)) (s : Store V μ) : Prop where
  ids_noEmpty : NoEmpty s.strToU64
  ids : ∀ id h, h ∈ members s.strToU64 id ↔ ∃ d, m.lookup h = some d ∧ d.id = id
  names_noEmpty : NoEmpty s.nameToIds
  names : ∀ name id, id ∈ members s.nameToIds name ↔ Some m fun d => d.Lists name id
  hashes : ∀ c, c ∈ s.contentHashes ↔ Some m fun d => d.contentHash = c

/-- The handles of the index. -/
def Store.indexed (s : Store V μ) : Finset ℕ := (s.index.map fun ix => ix.rows.keys).getD ∅

/-- The three side indexes. -/
def Store.sides (s : Store V μ) : Dict String (Finset ℕ) × Dict String (Finset String) × Finset String :=
  (s.strToU64, s.nameToIds, s.contentHashes)

/-- The payloads leave no choice. -/
theorem Mirrors.unique {m : Dict ℕ (Payload μ)} {s s' : Store V μ} (h : Mirrors m s) (h' : Mirrors m s') :
    s.sides = s'.sides := by
  have hids : s.strToU64 = s'.strToU64 :=
    h.ids_noEmpty.ext h'.ids_noEmpty fun id x => (h.ids id x).trans (h'.ids id x).symm
  have hnames : s.nameToIds = s'.nameToIds :=
    h.names_noEmpty.ext h'.names_noEmpty fun n x => (h.names n x).trans (h'.names n x).symm
  have hhashes : s.contentHashes = s'.contentHashes := by
    ext c
    rw [h.hashes, h'.hashes]
  rw [Store.sides, Store.sides, hids, hnames, hhashes]

theorem Mirrors.of_sides {m : Dict ℕ (Payload μ)} {s s' : Store V μ} (h : Mirrors m s)
    (heq : s'.sides = s.sides) : Mirrors m s' := by
  obtain ⟨hids, hrest⟩ := Prod.mk.injEq .. ▸ heq
  obtain ⟨hnames, hhashes⟩ := Prod.mk.injEq .. ▸ hrest
  constructor
  · rw [hids]
    exact h.ids_noEmpty
  · rw [hids]
    exact h.ids
  · rw [hnames]
    exact h.names_noEmpty
  · rw [hnames]
    exact h.names
  · rw [hhashes]
    exact h.hashes

theorem exists_values {m : Dict ℕ (Payload μ)} {P : Payload μ → Prop} : (∃ d ∈ values m, P d) ↔ Some m P := by
  constructor
  · rintro ⟨d, hd, hp⟩
    obtain ⟨h, hl⟩ := mem_values.mp hd
    exact ⟨h, d, hl, hp⟩
  · rintro ⟨h, d, hl, hp⟩
    exact ⟨d, mem_values.mpr ⟨h, hl⟩, hp⟩

/-! ### Linking -/

section link
variable (s : Store V μ) (h : ℕ) (data : Payload μ)

@[simp] theorem link_u64ToDoc : (s.link h data).u64ToDoc = s.u64ToDoc.insert h data := rfl
@[simp] theorem link_index : (s.link h data).index = s.index := rfl
@[simp] theorem link_nextU64 : (s.link h data).nextU64 = s.nextU64 := rfl

theorem mem_link_ids (id : String) (x : ℕ) : x ∈ members (s.link h data).strToU64 id ↔
    x ∈ members s.strToU64 id ∨ id = data.id ∧ x = h := mem_addTo

theorem mem_link_names (name id : String) : id ∈ members (s.link h data).nameToIds name ↔
    id ∈ members s.nameToIds name ∨ data.Lists name id := by
  unfold Store.link Payload.Lists
  dsimp only
  cases data.name with
  | none => simp
  | some n =>
    dsimp only
    by_cases hn : n = ""
    · subst hn
      rw [if_pos rfl]
      constructor
      · exact Or.inl
      · rintro (hmem | ⟨hname, hne, -⟩)
        · exact hmem
        · exact absurd (Option.some.inj hname).symm hne
    · rw [if_neg hn, mem_addTo, Option.some.injEq]
      constructor
      · rintro (hmem | ⟨rfl, rfl⟩)
        · exact Or.inl hmem
        · exact Or.inr ⟨rfl, hn, rfl⟩
      · rintro (hmem | ⟨rfl, -, rfl⟩)
        · exact Or.inl hmem
        · exact Or.inr ⟨rfl, rfl⟩

theorem mem_link_hashes (c : String) : c ∈ (s.link h data).contentHashes ↔
    c ∈ s.contentHashes ∨ data.contentHash = c := by
  show c ∈ Insert.insert data.contentHash s.contentHashes ↔ _
  rw [Finset.mem_insert]
  tauto

theorem link_noEmpty (hids : NoEmpty s.strToU64) (hnames : NoEmpty s.nameToIds) :
    NoEmpty (s.link h data).strToU64 ∧ NoEmpty (s.link h data).nameToIds := by
  constructor
  · exact hids.addTo _ _
  · unfold Store.link
    dsimp only
    cases data.name with
    | none => exact hnames
    | some n =>
      dsimp only
      split
      · exact hnames
      · exact hnames.addTo _ _

end link

/-! ### Unlinking -/

section unlink
variable (s : Store V μ) (h : ℕ) (data : Payload μ)

@[simp] theorem unlink_u64ToDoc : (s.unlinkPayload h data).u64ToDoc = s.u64ToDoc := rfl
@[simp] theorem unlink_index : (s.unlinkPayload h data).index = s.index := rfl
@[simp] theorem unlink_nextU64 : (s.unlinkPayload h data).nextU64 = s.nextU64 := rfl

theorem mem_unlink_ids (id : String) (x : ℕ) : x ∈ members (s.unlinkPayload h data).strToU64 id ↔
    x ∈ members s.strToU64 id ∧ ¬(id = data.id ∧ x = h) := mem_discardFrom

/-- A name keeps an id that a surviving payload has under it. -/
theorem mem_unlink_names (name id : String) : id ∈ members (s.unlinkPayload h data).nameToIds name ↔
    id ∈ members s.nameToIds name ∧ ((Some s.u64ToDoc fun d => d.Lists name id) ∨ ¬data.Lists name id) := by
  unfold Store.unlinkPayload
  dsimp only
  cases hname : data.name with
  | none =>
    have hno : ¬data.Lists name id := by
      rintro ⟨hsome, -⟩
      rw [hname] at hsome
      cases hsome
    dsimp only
    tauto
  | some n =>
    have hlists : data.Lists name id ↔ n = name ∧ name ≠ "" ∧ data.id = id := by
      rw [Payload.Lists, hname, Option.some.injEq]
    dsimp only
    -- the empty name was never entered
    by_cases hn : n = ""
    · rw [if_pos hn]
      have hno : ¬data.Lists name id := by
        rw [hlists]
        rintro ⟨rfl, hne, -⟩
        exact hne hn
      tauto
    · rw [if_neg hn]
      -- the scan goes over the payloads that are left
      by_cases hlive : ∃ d ∈ values s.u64ToDoc, d.id = data.id ∧ d.name = some n
      · rw [if_pos hlive]
        have hkeep : data.Lists name id → Some s.u64ToDoc fun d => d.Lists name id := by
          rw [hlists]
          rintro ⟨rfl, hne, rfl⟩
          obtain ⟨x, d, hl, hid, hdn⟩ := exists_values.mp hlive
          exact ⟨x, d, hl, hdn, hne, hid⟩
        tauto
      · rw [if_neg hlive, mem_discardFrom]
        have hgone : data.Lists name id → ¬Some s.u64ToDoc fun d => d.Lists name id := by
          rw [hlists]
          rintro ⟨rfl, -, rfl⟩ ⟨x, d, hl, hdn, -, hid⟩
          exact hlive (exists_values.mpr ⟨x, d, hl, hid, hdn⟩)
        have hkey : name = n ∧ id = data.id ↔ data.Lists name id := by
          rw [hlists]
          constructor
          · rintro ⟨rfl, rfl⟩
            exact ⟨rfl, hn, rfl⟩
          · rintro ⟨rfl, -, rfl⟩
            exact ⟨rfl, rfl⟩
        rw [hkey]
        tauto

/-- A content hash stays while a surviving payload carries it. -/
theorem mem_unlink_hashes (hne : data.contentHash ≠ "") (c : String) :
    c ∈ (s.unlinkPayload h data).contentHashes ↔
      c ∈ s.contentHashes ∧ ((Some s.u64ToDoc fun d => d.contentHash = c) ∨ data.contentHash ≠ c) := by
  unfold Store.unlinkPayload
  dsimp only
  rw [if_neg hne]
  by_cases hlive : ∃ d ∈ values s.u64ToDoc, d.contentHash = data.contentHash
  · rw [if_pos hlive]
    have hkeep : data.contentHash = c → Some s.u64ToDoc fun d => d.contentHash = c := by
      rintro rfl
      exact exists_values.mp hlive
    tauto
  · rw [if_neg hlive, Finset.mem_erase]
    have hgone : data.contentHash = c → ¬Some s.u64ToDoc fun d => d.contentHash = c := by
      rintro rfl hsome
      exact hlive (exists_values.mpr hsome)
    have hsymm : c ≠ data.contentHash ↔ data.contentHash ≠ c := ne_comm
    tauto

theorem unlink_noEmpty (hids : NoEmpty s.strToU64) (hnames : NoEmpty s.nameToIds) :
    NoEmpty (s.unlinkPayload h data).strToU64 ∧ NoEmpty (s.unlinkPayload h data).nameToIds := by
  constructor
  · exact hids.discardFrom _ _
  · unfold Store.unlinkPayload
    dsimp only
    cases data.name with
    | none => exact hnames
    | some n =>
      dsimp only
      split
      · exact hnames
      · split
        · exact hnames
        · exact hnames.discardFrom _ _

end unlink

/-! ## Folds over a batch -/

section fold
variable {m : Dict ℕ (Payload μ)} {l : List (ℕ × Payload μ)}

/-- The payloads of a map under a fresh batch: those of the batch and those of before. -/
theorem lookup_setAll_fresh (hnd : (l.map Prod.fst).Nodup) (hfresh : ∀ h ∈ l.map Prod.fst, m.lookup h = none)
    {x : ℕ} {d : Payload μ} : (setAll m l).lookup x = some d ↔ m.lookup x = some d ∨ (x, d) ∈ l := by
  rw [lookup_setAll_eq_some hnd]
  have hkey : m.lookup x = some d → x ∉ l.map Prod.fst := by
    intro hx hmem
    rw [hfresh x hmem] at hx
    cases hx
  tauto

theorem some_setAll_fresh (hnd : (l.map Prod.fst).Nodup) (hfresh : ∀ h ∈ l.map Prod.fst, m.lookup h = none)
    {P : Payload μ → Prop} : Some (setAll m l) P ↔ Some m P ∨ ∃ p ∈ l, P p.2 := by
  unfold Some
  constructor
  · rintro ⟨h, d, hl, hp⟩
    rcases (lookup_setAll_fresh hnd hfresh).mp hl with hl | hl
    · exact Or.inl ⟨h, d, hl, hp⟩
    · exact Or.inr ⟨(h, d), hl, hp⟩
  · rintro (⟨h, d, hl, hp⟩ | ⟨⟨h, d⟩, hl, hp⟩)
    · exact ⟨h, d, (lookup_setAll_fresh hnd hfresh).mpr (Or.inl hl), hp⟩
    · exact ⟨h, d, (lookup_setAll_fresh hnd hfresh).mpr (Or.inr hl), hp⟩

def Store.linkAll (s : Store V μ) (l : List (ℕ × Payload μ)) : Store V μ :=
  l.foldl (fun t p => t.link p.1 p.2) s

/-- The side indexes after a batch is linked: what was there, and what the batch has. -/
structure Linked (s t : Store V μ) (l : List (ℕ × Payload μ)) : Prop where
  index : t.index = s.index
  nextU64 : t.nextU64 = s.nextU64
  u64ToDoc : t.u64ToDoc = setAll s.u64ToDoc l
  noEmpty : NoEmpty s.strToU64 → NoEmpty s.nameToIds → NoEmpty t.strToU64 ∧ NoEmpty t.nameToIds
  ids : ∀ id x, x ∈ members t.strToU64 id ↔ x ∈ members s.strToU64 id ∨ ∃ p ∈ l, id = p.2.id ∧ x = p.1
  names : ∀ name id, id ∈ members t.nameToIds name ↔
    id ∈ members s.nameToIds name ∨ ∃ p ∈ l, p.2.Lists name id
  hashes : ∀ c, c ∈ t.contentHashes ↔ c ∈ s.contentHashes ∨ ∃ p ∈ l, p.2.contentHash = c

theorem linkAll_linked (s : Store V μ) (l : List (ℕ × Payload μ)) : Linked s (s.linkAll l) l := by
  induction l generalizing s with
  | nil => exact ⟨rfl, rfl, rfl, And.intro, by simp [Store.linkAll], by simp [Store.linkAll], by simp [Store.linkAll]⟩
  | cons p l ih =>
    have h := ih (s.link p.1 p.2)
    constructor
    · exact h.index
    · exact h.nextU64
    · exact h.u64ToDoc
    · intro hids hnames
      obtain ⟨hids, hnames⟩ := link_noEmpty s p.1 p.2 hids hnames
      exact h.noEmpty hids hnames
    · intro id x
      rw [List.exists_mem_cons_iff]
      exact (h.ids id x).trans ((or_congr_left (mem_link_ids s p.1 p.2 id x)).trans or_assoc)
    · intro name id
      rw [List.exists_mem_cons_iff]
      exact (h.names name id).trans ((or_congr_left (mem_link_names s p.1 p.2 name id)).trans or_assoc)
    · intro c
      rw [List.exists_mem_cons_iff]
      exact (h.hashes c).trans ((or_congr_left (mem_link_hashes s p.1 p.2 c)).trans or_assoc)

def Store.unlinkAll (s : Store V μ) (l : List (ℕ × Payload μ)) : Store V μ :=
  l.foldl (fun t p => t.unlinkPayload p.1 p.2) s

/-- The side indexes after a batch is unlinked: what was there, less what the batch has and no survivor needs. -/
structure Unlinked (s t : Store V μ) (l : List (ℕ × Payload μ)) : Prop where
  index : t.index = s.index
  nextU64 : t.nextU64 = s.nextU64
  u64ToDoc : t.u64ToDoc = s.u64ToDoc
  noEmpty : NoEmpty s.strToU64 → NoEmpty s.nameToIds → NoEmpty t.strToU64 ∧ NoEmpty t.nameToIds
  ids : ∀ id x, x ∈ members t.strToU64 id ↔
    x ∈ members s.strToU64 id ∧ ¬∃ p ∈ l, id = p.2.id ∧ x = p.1
  names : ∀ name id, id ∈ members t.nameToIds name ↔ id ∈ members s.nameToIds name ∧
    ((Some s.u64ToDoc fun d => d.Lists name id) ∨ ¬∃ p ∈ l, p.2.Lists name id)
  hashes : ∀ c, c ∈ t.contentHashes ↔ c ∈ s.contentHashes ∧
    ((Some s.u64ToDoc fun d => d.contentHash = c) ∨ ¬∃ p ∈ l, p.2.contentHash = c)

theorem unlinkAll_unlinked (s : Store V μ) (hne : ∀ p ∈ l, p.2.contentHash ≠ "") :
    Unlinked s (s.unlinkAll l) l := by
  induction l generalizing s with
  | nil => exact ⟨rfl, rfl, rfl, And.intro, by simp [Store.unlinkAll], by simp [Store.unlinkAll], by simp [Store.unlinkAll]⟩
  | cons p l ih =>
    have h := ih (s.unlinkPayload p.1 p.2) fun q hq => hne q (List.mem_cons_of_mem p hq)
    constructor
    · exact h.index
    · exact h.nextU64
    · exact h.u64ToDoc
    · intro hids hnames
      obtain ⟨hids, hnames⟩ := unlink_noEmpty s p.1 p.2 hids hnames
      exact h.noEmpty hids hnames
    · intro id x
      rw [List.exists_mem_cons_iff, not_or, ← and_assoc, ← mem_unlink_ids]
      exact h.ids id x
    · intro name id
      rw [List.exists_mem_cons_iff, not_or, or_and_left, ← and_assoc, ← mem_unlink_names s p.1 p.2]
      exact h.names name id
    · intro c
      rw [List.exists_mem_cons_iff, not_or, or_and_left, ← and_assoc,
        ← mem_unlink_hashes s p.1 p.2 (hne p List.mem_cons_self)]
      exact h.hashes c

/-- A fresh batch linked: the side indexes mirror the payloads with the batch. -/
theorem Mirrors.linkAll {s t : Store V μ} (h : Mirrors s.u64ToDoc s) (hl : Linked s t l)
    (hnd : (l.map Prod.fst).Nodup) (hfresh : ∀ x ∈ l.map Prod.fst, s.u64ToDoc.lookup x = none) :
    Mirrors t.u64ToDoc t := by
  obtain ⟨hids, hnames⟩ := hl.noEmpty h.ids_noEmpty h.names_noEmpty
  rw [hl.u64ToDoc]
  constructor
  · exact hids
  · intro id x
    rw [hl.ids, h.ids]
    constructor
    · rintro (⟨d, hx, hid⟩ | ⟨⟨y, d⟩, hp, rfl, rfl⟩)
      · exact ⟨d, (lookup_setAll_fresh hnd hfresh).mpr (Or.inl hx), hid⟩
      · exact ⟨d, (lookup_setAll_fresh hnd hfresh).mpr (Or.inr hp), rfl⟩
    · rintro ⟨d, hx, hid⟩
      rcases (lookup_setAll_fresh hnd hfresh).mp hx with hx | hx
      · exact Or.inl ⟨d, hx, hid⟩
      · exact Or.inr ⟨(x, d), hx, hid.symm, rfl⟩
  · exact hnames
  · intro name id
    rw [hl.names, h.names, some_setAll_fresh hnd hfresh]
  · intro c
    rw [hl.hashes, h.hashes, some_setAll_fresh hnd hfresh]

/-- A fresh batch linked and unlinked again over the payloads of before: the side indexes of before. -/
theorem Mirrors.unlinkAll {s t u : Store V μ} (h : Mirrors s.u64ToDoc s) (hl : Linked s t l)
    (hu : Unlinked { t with u64ToDoc := s.u64ToDoc } u l)
    (hfresh : ∀ x ∈ l.map Prod.fst, s.u64ToDoc.lookup x = none) : Mirrors s.u64ToDoc u := by
  obtain ⟨hids, hnames⟩ := hl.noEmpty h.ids_noEmpty h.names_noEmpty
  obtain ⟨hids, hnames⟩ := hu.noEmpty hids hnames
  constructor
  · exact hids
  · intro id x
    have hmem : x ∈ members t.strToU64 id ↔ _ := hl.ids id x
    -- a fresh handle had no payload before
    have hdisj : (∃ d, s.u64ToDoc.lookup x = some d ∧ d.id = id) → ¬∃ p ∈ l, id = p.2.id ∧ x = p.1 := by
      rintro ⟨d, hx, -⟩ ⟨p, hp, -, rfl⟩
      rw [hfresh _ (List.mem_map_of_mem hp)] at hx
      cases hx
    rw [h.ids] at hmem
    rw [hu.ids]
    show x ∈ members t.strToU64 id ∧ _ ↔ _
    rw [hmem, or_and_right, and_not_self_iff, or_false, and_iff_left_iff_imp]
    exact hdisj
  · exact hnames
  · intro name id
    have hmem : id ∈ members t.nameToIds name ↔ _ := hl.names name id
    rw [h.names] at hmem
    rw [hu.names]
    show id ∈ members t.nameToIds name ∧ _ ↔ _
    rw [hmem, ← or_and_left, and_not_self_iff, or_false]
  · intro c
    have hmem : c ∈ t.contentHashes ↔ _ := hl.hashes c
    rw [h.hashes] at hmem
    rw [hu.hashes]
    show c ∈ t.contentHashes ∧ _ ↔ _
    rw [hmem, ← or_and_left, and_not_self_iff, or_false]

theorem popEach_fst (m : Dict ℕ (Payload μ)) (hs : List ℕ) : (popEach m hs).1 = popAll m hs := by
  induction hs generalizing m with
  | nil => rfl
  | cons h hs ih => exact ih (m.erase h)

theorem popEach_snd (m : Dict ℕ (Payload μ)) {hs : List ℕ} (hnd : hs.Nodup) :
    (popEach m hs).2 = hs.map fun h => (h, m.lookup h) := by
  induction hs generalizing m with
  | nil => rfl
  | cons h hs ih =>
    obtain ⟨hnot, hnd⟩ := List.nodup_cons.mp hnd
    show (h, m.lookup h) :: (popEach (m.erase h) hs).2 = _
    rw [ih (m.erase h) hnd, List.map_cons]
    congr 1
    apply List.map_congr_left
    intro x hx
    rw [lookup_erase_eq, if_neg]
    rintro rfl
    exact hnot hx

/-- The popped entries of a batch are the batch. -/
theorem popEach_setAll (hnd : (l.map Prod.fst).Nodup) :
    (popEach (setAll m l) (l.map Prod.fst)).2 = l.map fun p => (p.1, some p.2) := by
  rw [popEach_snd _ hnd, List.map_map]
  apply List.map_congr_left
  rintro ⟨h, d⟩ hp
  show (h, (setAll m l).lookup h) = (h, some d)
  rw [lookup_setAll_of_mem hnd hp]

/-- The unwinding of a fresh batch. -/
theorem unwind_fresh {s t : Store V μ} (hl : Linked s t l) (hnd : (l.map Prod.fst).Nodup)
    (hfresh : ∀ x ∈ l.map Prod.fst, s.u64ToDoc.lookup x = none) :
    t.unwind (l.map Prod.fst) [] = { t with u64ToDoc := s.u64ToDoc }.unlinkAll l := by
  unfold Store.unwind
  dsimp only
  rw [setAll_nil, List.foldl_nil, popEach_fst, hl.u64ToDoc, popEach_setAll hnd, popAll_setAll hfresh,
    List.foldl_map]
  rfl

end fold

/-! ## The invariant -/

/-- The index has the handles of the payloads, the side indexes mirror them, none has an empty hash and no
handle is above the watermark. -/
structure Store.Synced (s : Store V μ) : Prop where
  handles : s.indexed = s.u64ToDoc.keys
  mirrors : Mirrors s.u64ToDoc s
  hashed : ∀ h d, s.u64ToDoc.lookup h = some d → d.contentHash ≠ ""
  watermark : ∀ h ∈ s.u64ToDoc, h ≤ s.nextU64

theorem mirrors_empty {s : Store V μ} (hids : s.strToU64 = ∅) (hnames : s.nameToIds = ∅)
    (hhashes : s.contentHashes = ∅) : Mirrors ∅ s := by
  have hno (P : Payload μ → Prop) : ¬Some ∅ P := by
    rintro ⟨h, d, hl, -⟩
    rw [Finmap.lookup_empty] at hl
    cases hl
  constructor
  · rw [hids]
    exact noEmpty_empty
  · intro id h
    rw [hids, members_empty, Finmap.lookup_empty]
    simp
  · rw [hnames]
    exact noEmpty_empty
  · intro name id
    rw [hnames, members_empty]
    exact iff_of_false (Finset.notMem_empty _) (hno _)
  · intro c
    rw [hhashes]
    exact iff_of_false (Finset.notMem_empty _) (hno _)

theorem new_synced (V μ : Type) (dimensions : ℕ) (distance : String) :
    (Store.new V μ dimensions distance).Synced := by
  constructor
  · rfl
  · exact mirrors_empty rfl rfl rfl
  · intro h d hl
    cases hl
  · intro h hh
    exact absurd hh (Finmap.notMem_empty)

theorem Store.Synced.drop {s : Store V μ} : s.drop.Synced := new_synced V μ s.dimensions s.distance

/-! ## Calls -/

section calls
variable {s : Store V μ}

theorem some_erase {m : Dict ℕ (Payload μ)} {h : ℕ} {data : Payload μ} (hl : m.lookup h = some data)
    {P : Payload μ → Prop} : Some m P ↔ P data ∨ Some (m.erase h) P := by
  constructor
  · rintro ⟨x, d, hx, hp⟩
    by_cases hxh : x = h
    · subst hxh
      rw [hl] at hx
      exact Or.inl (Option.some.inj hx ▸ hp)
    · exact Or.inr ⟨x, d, by rwa [lookup_erase_eq, if_neg hxh], hp⟩
  · rintro (hp | ⟨x, d, hx, hp⟩)
    · exact ⟨h, data, hl, hp⟩
    · rw [lookup_erase_eq] at hx
      split at hx
      next => cases hx
      next => exact ⟨x, d, hx, hp⟩

/-- One handle removed: its payload gone from the map and unlinked. -/
theorem Store.Synced.removeHandle (hs : s.Synced) (h : ℕ) : (s.removeHandle h).Synced := by
  unfold Store.removeHandle
  cases hix : s.index with
  | none => exact hs
  | some ix =>
    dsimp only
    cases hl : s.u64ToDoc.lookup h with
    | none => exact hs
    | some data =>
      dsimp only
      obtain ⟨hids, hnames⟩ := unlink_noEmpty { s with index := some (ix.remove h), u64ToDoc := s.u64ToDoc.erase h }
        h data hs.mirrors.ids_noEmpty hs.mirrors.names_noEmpty
      have hkeys : ix.rows.keys = s.u64ToDoc.keys := by
        have hhandles := hs.handles
        rwa [Store.indexed, hix] at hhandles
      constructor
      · ext x
        show x ∈ (ix.rows.erase h).keys ↔ x ∈ (s.u64ToDoc.erase h).keys
        rw [Finmap.mem_keys, Finmap.mem_keys, Finmap.mem_erase, Finmap.mem_erase, ← Finmap.mem_keys, hkeys,
          Finmap.mem_keys]
      · constructor
        · exact hids
        · intro id x
          rw [mem_unlink_ids, hs.mirrors.ids]
          show _ ↔ ∃ d, (s.u64ToDoc.erase h).lookup x = some d ∧ d.id = id
          rw [lookup_erase_eq]
          by_cases hx : x = h
          · subst hx
            rw [if_pos rfl, hl]
            constructor
            · rintro ⟨⟨d, hd, hid⟩, hnot⟩
              exact absurd ⟨hid ▸ congrArg Payload.id (Option.some.inj hd).symm, rfl⟩ hnot
            · rintro ⟨d, hd, -⟩
              cases hd
          · rw [if_neg hx]
            constructor
            · exact fun hmem => hmem.1
            · exact fun hmem => ⟨hmem, fun heq => hx heq.2⟩
        · exact hnames
        · intro name id
          rw [mem_unlink_names, hs.mirrors.names, some_erase hl]
          dsimp only [unlink_u64ToDoc]
          tauto
        · intro c
          rw [mem_unlink_hashes _ _ _ (hs.hashed h data hl), hs.mirrors.hashes, some_erase hl]
          dsimp only [unlink_u64ToDoc]
          tauto
      · intro x d hx
        rw [unlink_u64ToDoc, lookup_erase_eq] at hx
        split at hx
        next => cases hx
        next => exact hs.hashed x d hx
      · intro x hx
        rw [unlink_u64ToDoc, Finmap.mem_erase] at hx
        exact hs.watermark x hx.2

theorem Store.Synced.removeAll (hs : s.Synced) (l : List ℕ) : (l.foldl Store.removeHandle s).Synced := by
  induction l generalizing s with
  | nil => exact hs
  | cons h l ih => exact ih (hs.removeHandle h)

theorem Store.Synced.deleteById (hs : s.Synced) (id : String) (order : IterOrder) :
    (s.deleteById id order).1.Synced := by
  unfold Store.deleteById
  split
  · exact hs
  · split
    · exact hs
    · split
      · exact hs
      · exact hs.removeAll _

theorem Store.Synced.deleteWhere (hs : s.Synced) (order : IterOrder) (p : Payload μ → Bool) :
    (s.deleteWhere order p).1.Synced := by
  unfold Store.deleteWhere
  split
  · exact hs
  · exact hs.removeAll _

/-- Payloads rewritten in place that keep their ids, names and hashes. -/
theorem Store.Synced.rewrite (hs : s.Synced) {l : List (ℕ × Payload μ)} (hnd : (l.map Prod.fst).Nodup)
    (hl : ∀ p ∈ l, ∃ d, s.u64ToDoc.lookup p.1 = some d ∧
      p.2.id = d.id ∧ p.2.name = d.name ∧ p.2.contentHash = d.contentHash) :
    { s with u64ToDoc := setAll s.u64ToDoc l }.Synced := by
  -- the side indexes read nothing of a payload but these three fields
  have hlook (x : ℕ) : ((setAll s.u64ToDoc l).lookup x).map (fun d => (d.id, d.name, d.contentHash)) =
      (s.u64ToDoc.lookup x).map fun d => (d.id, d.name, d.contentHash) := by
    by_cases hx : x ∈ l.map Prod.fst
    · obtain ⟨⟨y, d⟩, hp, rfl⟩ := List.mem_map.mp hx
      obtain ⟨d', hd', hid, hname, hhash⟩ := hl _ hp
      rw [lookup_setAll_of_mem hnd hp, hd', Option.map_some, Option.map_some]
      dsimp only at hid hname hhash
      rw [hid, hname, hhash]
    · rw [lookup_setAll_of_notMem hx]
  have hex (x : ℕ) (P : String × Option String × String → Prop) :
      (∃ d, (setAll s.u64ToDoc l).lookup x = some d ∧ P (d.id, d.name, d.contentHash)) ↔
        ∃ d, s.u64ToDoc.lookup x = some d ∧ P (d.id, d.name, d.contentHash) := by
    have h := hlook x
    cases hnew : (setAll s.u64ToDoc l).lookup x <;> cases hold : s.u64ToDoc.lookup x <;>
      rw [hnew, hold] at h <;> simp_all
  have hsome (P : String × Option String × String → Prop) :
      (Some (setAll s.u64ToDoc l) fun d => P (d.id, d.name, d.contentHash)) ↔
        Some s.u64ToDoc fun d => P (d.id, d.name, d.contentHash) :=
    exists_congr fun x => hex x P
  have hmem (x : ℕ) : x ∈ setAll s.u64ToDoc l ↔ x ∈ s.u64ToDoc := by
    have h := hex x fun _ => True
    simp only [and_true] at h
    rw [mem_iff_lookup, mem_iff_lookup, h]
  constructor
  · ext x
    show x ∈ s.indexed ↔ x ∈ (setAll s.u64ToDoc l).keys
    rw [hs.handles, Finmap.mem_keys, Finmap.mem_keys, hmem]
  · constructor
    · exact hs.mirrors.ids_noEmpty
    · intro id x
      exact (hs.mirrors.ids id x).trans (hex x fun q => q.1 = id).symm
    · exact hs.mirrors.names_noEmpty
    · intro name id
      exact (hs.mirrors.names name id).trans
        (hsome fun q => q.2.1 = some name ∧ name ≠ "" ∧ q.1 = id).symm
    · intro c
      exact (hs.mirrors.hashes c).trans (hsome fun q => q.2.2 = c).symm
  · intro x d hx
    obtain ⟨d', hd', heq⟩ := (hex x fun q => q = (d.id, d.name, d.contentHash)).mp ⟨d, hx, rfl⟩
    have hhash : d'.contentHash = d.contentHash := congrArg (fun q => q.2.2) heq
    rw [← hhash]
    exact hs.hashed x d' hd'
  · intro x hx
    exact hs.watermark x ((hmem x).mp hx)

theorem mem_handlesWhere {order : IterOrder} {p : Payload μ → Bool} {h : ℕ} :
    h ∈ s.handlesWhere order p ↔ ∃ d, s.u64ToDoc.lookup h = some d ∧ p d = true := by
  rw [Store.handlesWhere, List.mem_filter, order.mem_list, Finmap.mem_keys, mem_iff_lookup, Option.any_eq_true]
  constructor
  · exact fun hh => hh.2
  · exact fun ⟨d, hd, hp⟩ => ⟨⟨d, hd⟩, d, hd, hp⟩

/-- The items of the payload map at some of its handles. -/
theorem items_fst {m : Dict ℕ (Payload μ)} (f : Payload μ → Payload μ) {l : List ℕ} (hl : ∀ h ∈ l, h ∈ m) :
    (l.filterMap fun h => (m.lookup h).map fun d => (h, f d)).map Prod.fst = l := by
  induction l with
  | nil => rfl
  | cons h l ih =>
    obtain ⟨d, hd⟩ := mem_iff_lookup.mp (hl h List.mem_cons_self)
    rw [List.filterMap_cons, hd]
    exact congrArg (h :: ·) (ih fun x hx => hl x (List.mem_cons_of_mem h hx))

theorem Store.Synced.updateMetadata (hs : s.Synced) (contentId : Option String) (metadata : Dict String μ)
    (order : IterOrder) : (s.updateMetadata contentId metadata order).Synced := by
  unfold Store.updateMetadata
  split
  next content _ _ =>
    dsimp only
    apply hs.rewrite
    · rw [items_fst]
      · exact (order.nodup _).filter _
      · intro h hh
        obtain ⟨d, hd, -⟩ := mem_handlesWhere.mp hh
        exact mem_iff_lookup.mpr ⟨d, hd⟩
    · rintro ⟨h, d⟩ hp
      obtain ⟨x, -, hx⟩ := List.mem_filterMap.mp hp
      obtain ⟨d', hd', heq⟩ := Option.map_eq_some_iff.mp hx
      obtain ⟨rfl, rfl⟩ := Prod.mk.inj heq
      exact ⟨d', hd', rfl, rfl, rfl⟩
  next => exact hs

end calls

/-! ## Insertion -/

section insertion
variable {s : Store V μ}

/-- The handles an insertion issues are fresh. -/
theorem Store.Synced.fresh (hs : s.Synced) {n h : ℕ} (hh : h ∈ List.range' (s.nextU64 + 1) n) :
    s.u64ToDoc.lookup h = none := by
  cases hl : s.u64ToDoc.lookup h with
  | none => rfl
  | some d =>
    have hle := hs.watermark h (mem_iff_lookup.mpr ⟨d, hl⟩)
    have hge := (List.mem_range'_1.mp hh).1
    omega

/-- What an insertion leaves: a synced store, which is the one of before but for the watermark when it raises. -/
structure Inserted (s : Store V μ) (r : Store V μ × Option InsertError) : Prop where
  synced : r.1.Synced
  raised : r.2 ≠ none → r.1.sides = s.sides ∧ r.1.u64ToDoc = s.u64ToDoc ∧ r.1.index = s.index

theorem Store.Synced.inserted (hs : s.Synced) (e : Option InsertError) : Inserted s (s, e) :=
  ⟨hs, fun _ => ⟨rfl, rfl, rfl⟩⟩

/-- The watermark may run ahead. -/
theorem Store.Synced.issued (hs : s.Synced) (n : ℕ) : { s with nextU64 := s.nextU64 + n }.Synced :=
  { handles := hs.handles
    mirrors := hs.mirrors.of_sides rfl
    hashed := hs.hashed
    watermark := fun h hh => (hs.watermark h hh).trans (Nat.le_add_right _ _) }

theorem keys_of_rawAddWithIds {K : Kernel V} {ix ix' : Index V} {d : ℕ} {batch : List (ℕ × V)}
    (h : rawAddWithIds K ix d batch = some ix') (x : ℕ) :
    x ∈ ix'.rows ↔ x ∈ batch.map Prod.fst ∨ x ∈ ix.rows := by
  unfold rawAddWithIds at h
  split at h
  next =>
    rw [← Option.some.inj h]
    exact mem_setAll
  next => cases h

section batch
variable {l : List (ℕ × Payload μ)} {n : ℕ} {t u : Store V μ}

/-- A fresh batch linked and in the index. -/
theorem Store.Synced.commit (hs : s.Synced) (hl : Linked { s with nextU64 := s.nextU64 + n } t l)
    (hnd : (l.map Prod.fst).Nodup) (hfresh : ∀ x ∈ l.map Prod.fst, s.u64ToDoc.lookup x = none)
    (hne : ∀ p ∈ l, p.2.contentHash ≠ "") (hle : ∀ x ∈ l.map Prod.fst, x ≤ s.nextU64 + n) {ix : Index V}
    (hix : ∀ x, x ∈ ix.rows ↔ x ∈ l.map Prod.fst ∨ x ∈ s.u64ToDoc) : { t with index := some ix }.Synced := by
  have hdoc : t.u64ToDoc = setAll s.u64ToDoc l := hl.u64ToDoc
  constructor
  · ext x
    show x ∈ ix.rows.keys ↔ x ∈ t.u64ToDoc.keys
    rw [Finmap.mem_keys, Finmap.mem_keys, hix, hdoc, mem_setAll]
  · exact ((hs.issued n).mirrors.linkAll hl hnd hfresh).of_sides rfl
  · show ∀ h d, t.u64ToDoc.lookup h = some d → _
    rw [hdoc]
    intro h d hd
    rcases (lookup_setAll_fresh hnd hfresh).mp hd with hd | hd
    · exact hs.hashed h d hd
    · exact hne _ hd
  · show ∀ h ∈ t.u64ToDoc, h ≤ t.nextU64
    rw [hdoc, hl.nextU64]
    intro h hh
    rcases mem_setAll.mp hh with hh | hh
    · exact hle h hh
    · exact (hs.watermark h hh).trans (Nat.le_add_right _ _)

/-- A fresh batch linked, popped and unlinked: the store of before with the watermark ahead. -/
theorem Store.Synced.rollback (hs : s.Synced) (hl : Linked { s with nextU64 := s.nextU64 + n } t l)
    (hu : Unlinked { t with u64ToDoc := s.u64ToDoc } u l)
    (hfresh : ∀ x ∈ l.map Prod.fst, s.u64ToDoc.lookup x = none) :
    u.Synced ∧ u.sides = s.sides ∧ u.u64ToDoc = s.u64ToDoc ∧ u.index = s.index := by
  have hdoc : u.u64ToDoc = s.u64ToDoc := hu.u64ToDoc
  have hindex : u.index = s.index := hu.index.trans hl.index
  have hnext : u.nextU64 = s.nextU64 + n := hu.nextU64.trans hl.nextU64
  have hback : Mirrors s.u64ToDoc u := (hs.issued n).mirrors.unlinkAll hl hu hfresh
  refine ⟨?_, hback.unique hs.mirrors, hdoc, hindex⟩
  constructor
  · rw [Store.indexed, hindex, hdoc]
    exact hs.handles
  · rw [hdoc]
    exact hback
  · rw [hdoc]
    exact hs.hashed
  · rw [hdoc, hnext]
    exact fun h hh => (hs.watermark h hh).trans (Nat.le_add_right _ _)

end batch

/-- What the locked body comes to under fresh handles: the handles issued, the batch linked and in the index, or the
batch linked and unlinked again. -/
theorem insertLocked_cases (env : Env V) {payloads : List (Payload μ)} (vectors : List V) (refuse : Bool)
    {ix : Index V} (hix : s.index = some ix)
    (hfree : ∀ h ∈ List.range' (s.nextU64 + 1) payloads.length, s.u64ToDoc.lookup h = none) :
    let handles := List.range' (s.nextU64 + 1) payloads.length
    let l := handles.zip payloads
    let r := s.insertLocked env payloads vectors refuse
    r = ({ s with nextU64 := s.nextU64 + payloads.length }, some .overflow) ∨
      ∃ t, Linked { s with nextU64 := s.nextU64 + payloads.length } t l ∧
        ((∃ ix', rawAddWithIds env.kernel ix s.dimensions (handles.zip vectors) = some ix' ∧
            r = ({ t with index := some ix' }, none)) ∨
          r = ({ t with u64ToDoc := s.u64ToDoc }.unlinkAll l, some .add)) := by
  intro handles l r
  have hr : r = s.insertLocked env payloads vectors refuse := rfl
  have hfst : l.map Prod.fst = handles := List.map_fst_zip List.length_range'.le
  have hnd : (l.map Prod.fst).Nodup := by
    rw [hfst]
    exact List.nodup_range'
  have hfresh : ∀ x ∈ l.map Prod.fst, s.u64ToDoc.lookup x = none := by
    rw [hfst]
    exact hfree
  -- a fresh handle overwrites nothing
  have hold : (handles.filterMap fun h => (s.u64ToDoc.lookup h).map fun data => (h, data)) = [] := by
    rw [List.filterMap_eq_nil_iff]
    intro h hh
    rw [hfree h hh]
    rfl
  have hl := linkAll_linked { s with nextU64 := s.nextU64 + payloads.length } l
  have hunwind := unwind_fresh hl hnd hfresh
  rw [hfst] at hunwind
  unfold Store.insertLocked at hr
  split at hr
  next hnone =>
    rw [hix] at hnone
    cases hnone
  next ix₀ hix₀ =>
    obtain rfl : ix₀ = ix := Option.some.inj (hix₀.symm.trans hix)
    dsimp only at hr
    split at hr
    next => exact Or.inl hr
    next =>
      refine Or.inr ⟨_, hl, ?_⟩
      split at hr
      next ix' hadd =>
        refine Or.inl ⟨ix', ?_, hr⟩
        split at hadd
        · cases hadd
        · exact hadd
      next =>
        refine Or.inr (hr.trans ?_)
        rw [hold]
        exact congrArg (·, some InsertError.add) hunwind

/-- The handles of a batch, each with its vector, in the index. -/
theorem mem_rows_insertLocked {K : Kernel V} {ix ix' : Index V} {d lo n : ℕ} {vectors : List V}
    (hvec : vectors.length = n)
    (h : rawAddWithIds K ix d ((List.range' (lo + 1) n).zip vectors) = some ix') (x : ℕ) :
    x ∈ ix'.rows ↔ (lo < x ∧ x ≤ lo + n) ∨ x ∈ ix.rows := by
  rw [keys_of_rawAddWithIds h, List.map_fst_zip (List.length_range'.trans hvec.symm).le, List.mem_range'_1]
  exact or_congr_left ⟨fun hx => ⟨by omega, by omega⟩, fun hx => ⟨by omega, by omega⟩⟩

theorem Store.Synced.insertLocked (hs : s.Synced) (env : Env V) {payloads : List (Payload μ)}
    {vectors : List V} (refuse : Bool) (hpay : ∀ p ∈ payloads, p.contentHash ≠ "")
    (hvec : vectors.length = payloads.length) : Inserted s (s.insertLocked env payloads vectors refuse) := by
  cases hix : s.index with
  | none =>
    unfold Store.insertLocked
    rw [hix]
    exact hs.inserted _
  | some ix =>
    set l := (List.range' (s.nextU64 + 1) payloads.length).zip payloads with hzip
    have hfst : l.map Prod.fst = List.range' (s.nextU64 + 1) payloads.length := List.map_fst_zip List.length_range'.le
    have hfresh : ∀ x ∈ l.map Prod.fst, s.u64ToDoc.lookup x = none := by
      rw [hfst]
      exact fun x hx => hs.fresh hx
    have hnd : (l.map Prod.fst).Nodup := by
      rw [hfst]
      exact List.nodup_range'
    have hbatch : ∀ p ∈ l, p.2.contentHash ≠ "" := fun p hp => hpay _ (List.of_mem_zip hp).2
    rcases insertLocked_cases env vectors refuse hix (fun h hh => hs.fresh hh) with
      hr | ⟨t, hl, ⟨ix', hraw, hr⟩ | hr⟩
    · rw [hr]
      exact ⟨hs.issued _, fun _ => ⟨rfl, rfl, rfl⟩⟩
    · rw [hr]
      refine ⟨hs.commit hl hnd hfresh hbatch ?_ ?_, fun h => absurd rfl h⟩
      · rw [hfst]
        intro x hx
        have hlt := (List.mem_range'_1.mp hx).2
        omega
      · intro x
        have hkeys : x ∈ ix.rows.keys ↔ x ∈ s.u64ToDoc.keys := by
          have hh := hs.handles
          rw [Store.indexed, hix] at hh
          exact Finset.ext_iff.mp hh x
        rw [Finmap.mem_keys, Finmap.mem_keys] at hkeys
        rw [mem_rows_insertLocked hvec hraw, hfst, hkeys, List.mem_range'_1]
        exact or_congr_left ⟨fun hx => ⟨by omega, by omega⟩, fun hx => ⟨by omega, by omega⟩⟩
    · rw [hr]
      obtain ⟨hsynced, hsame⟩ := hs.rollback hl (unlinkAll_unlinked { t with u64ToDoc := s.u64ToDoc } hbatch) hfresh
      exact ⟨hsynced, fun _ => hsame⟩

/-- Documents that all have an embedding give a vector each. -/
theorem length_vectors (env : Env V) {docs : List (Document V μ)}
    (h : (docs.filter fun doc => doc.embedding.all fun e => env.width e = 0) = []) :
    (docs.filterMap Document.embedding).length = docs.length := by
  induction docs with
  | nil => rfl
  | cons doc docs ih =>
    rw [List.filter_cons] at h
    split at h
    next => cases h
    next hdoc =>
      cases he : doc.embedding with
      | none =>
        rw [he] at hdoc
        exact absurd rfl hdoc
      | some e =>
        rw [List.filterMap_cons, he]
        exact congrArg Nat.succ (ih h)

/-- An insertion ends before the lock, or is the locked body on payloads and vectors of one number. -/
theorem insert_cases (s : Store V μ) (env : Env V) (contentHash : String) (documents : List (Document V μ))
    (filters : Dict String μ) (embedMissing : List (Document V μ) → Option (List (Document V μ))) (refuse : Bool) :
    (∃ e, s.insert env contentHash documents filters embedMissing refuse = (s, e)) ∨
      documents ≠ [] ∧ ∃ payloads vectors, (∀ p ∈ payloads, p.contentHash = contentHash) ∧
        vectors.length = payloads.length ∧
        s.insert env contentHash documents filters embedMissing refuse =
          s.insertLocked env payloads vectors refuse := by
  unfold Store.insert
  split
  · exact Or.inl ⟨_, rfl⟩
  next hdocs =>
    split
    · exact Or.inl ⟨_, rfl⟩
    · cases embedMissing (documents.map (mergeFilters filters)) with
      | none => exact Or.inl ⟨_, rfl⟩
      | some docs =>
        dsimp only
        split
        · exact Or.inl ⟨_, rfl⟩
        next hmissing =>
          split
          · exact Or.inl ⟨_, rfl⟩
          · refine Or.inr ⟨hdocs, _, _, fun p hp => ?_, ?_, rfl⟩
            · obtain ⟨doc, -, rfl⟩ := List.mem_map.mp hp
              rfl
            · have hlen := length_vectors env (not_not.mp hmissing)
              rw [List.length_map, ← hlen]
              split
              · exact List.length_map _
              · rfl

theorem Store.Synced.insert (hs : s.Synced) (env : Env V) (contentHash : String)
    (documents : List (Document V μ)) (filters : Dict String μ)
    (embedMissing : List (Document V μ) → Option (List (Document V μ))) (refuse : Bool)
    (hne : documents = [] ∨ contentHash ≠ "") :
    Inserted s (s.insert env contentHash documents filters embedMissing refuse) := by
  rcases insert_cases s env contentHash documents filters embedMissing refuse with
    ⟨e, heq⟩ | ⟨hdocs, payloads, vectors, hpay, hvec, heq⟩
  · rw [heq]
    exact hs.inserted _
  · rw [heq]
    exact hs.insertLocked env refuse (fun p hp => hpay p hp ▸ hne.resolve_left hdocs) hvec

/-- What an `upsert` makes of its insertion: the old handles go after one that returns. -/
def thenRemove (inserted : Store V μ × Option InsertError) (old : List ℕ) : Store V μ × Option InsertError :=
  match inserted.2 with
  | some e => (inserted.1, some e)
  | none => (old.foldl Store.removeHandle inserted.1, none)

theorem upsert_cases (s : Store V μ) (env : Env V) (contentHash : String) (documents : List (Document V μ))
    (filters : Dict String μ) (embedUpFront embedMissing : List (Document V μ) → Option (List (Document V μ)))
    (refuse : Bool) (order : IterOrder) :
    (∃ e, s.upsert env contentHash documents filters embedUpFront embedMissing refuse order = (s, e)) ∨
      ∃ docs old, (documents = [] → docs = []) ∧
        s.upsert env contentHash documents filters embedUpFront embedMissing refuse order =
          thenRemove (s.insert env contentHash docs filters embedMissing refuse) old := by
  unfold Store.upsert
  dsimp only
  split
  · exact Or.inr ⟨[], _, fun _ => rfl, rfl⟩
  next hdocs =>
    split
    · exact Or.inl ⟨_, rfl⟩
    · cases embedUpFront documents with
      | none => exact Or.inl ⟨_, rfl⟩
      | some docs => exact Or.inr ⟨docs, _, fun h => absurd h hdocs, rfl⟩

theorem Inserted.thenRemove {r : Store V μ × Option InsertError} (h : Inserted s r) (old : List ℕ) :
    Inserted s (thenRemove r old) := by
  unfold Agno.thenRemove
  split
  next e he =>
    refine ⟨h.synced, fun _ => h.raised ?_⟩
    rw [he]
    exact Option.some_ne_none e
  next => exact ⟨h.synced.removeAll old, fun hno => absurd rfl hno⟩

theorem Store.Synced.upsert (hs : s.Synced) (env : Env V) (contentHash : String)
    (documents : List (Document V μ)) (filters : Dict String μ)
    (embedUpFront embedMissing : List (Document V μ) → Option (List (Document V μ))) (refuse : Bool)
    (order : IterOrder) (hne : documents = [] ∨ contentHash ≠ "") :
    Inserted s (s.upsert env contentHash documents filters embedUpFront embedMissing refuse order) := by
  rcases upsert_cases s env contentHash documents filters embedUpFront embedMissing refuse order with
    ⟨e, heq⟩ | ⟨docs, old, hdocs, heq⟩
  · rw [heq]
    exact hs.inserted e
  · rw [heq]
    exact (hs.insert env contentHash docs filters embedMissing refuse (hne.imp_left hdocs)).thenRemove old

end insertion

/-! ## Loading -/

section loading
variable {s : Store V μ}

/-- Linking a list of payloads fills the reverse indexes as `_load_from` does. -/
theorem linkAll_indexes (t : Store V μ) (l : List (ℕ × Payload μ)) :
    (t.linkAll l).strToU64 = l.foldl (fun m p => addTo m p.2.id p.1) t.strToU64 ∧
      (t.linkAll l).nameToIds = l.foldl (fun m p =>
        match p.2.name with
        | none => m
        | some name => if name = "" then m else addTo m name p.2.id) t.nameToIds := by
  induction l generalizing t with
  | nil => exact ⟨rfl, rfl⟩
  | cons p l ih => exact ih (t.link p.1 p.2)

/-- The reverse indexes of a load mirror the payloads, when none has an empty hash. -/
theorem rebuild_mirrors (order : IterOrder) (hne : ∀ h d, s.u64ToDoc.lookup h = some d → d.contentHash ≠ "") :
    Mirrors s.u64ToDoc (s.rebuild order) := by
  set items := (order.list s.u64ToDoc.keys).filterMap fun h => (s.u64ToDoc.lookup h).map fun data => (h, data)
    with hitems
  have hmem (x : ℕ) (d : Payload μ) : (x, d) ∈ items ↔ s.u64ToDoc.lookup x = some d := by
    rw [hitems, List.mem_filterMap]
    constructor
    · rintro ⟨h, -, heq⟩
      obtain ⟨d', hd', heq⟩ := Option.map_eq_some_iff.mp heq
      obtain ⟨rfl, rfl⟩ := Prod.mk.inj heq
      exact hd'
    · intro hx
      refine ⟨x, (order.mem_list _ _).mpr (Finmap.mem_keys.mpr (mem_iff_lookup.mpr ⟨d, hx⟩)), ?_⟩
      rw [hx]
      rfl
  have hsome (P : Payload μ → Prop) : (∃ p ∈ items, P p.2) ↔ Some s.u64ToDoc P := by
    constructor
    · rintro ⟨⟨x, d⟩, hp, h⟩
      exact ⟨x, d, (hmem x d).mp hp, h⟩
    · rintro ⟨x, d, hx, h⟩
      exact ⟨(x, d), (hmem x d).mpr hx, h⟩
  have hhash (c : String) (l : List (ℕ × Payload μ)) (hl : ∀ p ∈ l, p.2.contentHash ≠ "") (z : Finset String) :
      c ∈ l.foldl (fun c p => if p.2.contentHash = "" then c else Insert.insert p.2.contentHash c) z ↔
        c ∈ z ∨ ∃ p ∈ l, p.2.contentHash = c := by
    induction l generalizing z with
    | nil => simp
    | cons p l ih =>
      rw [List.foldl_cons, ih fun q hq => hl q (List.mem_cons_of_mem p hq), if_neg (hl p List.mem_cons_self),
        List.exists_mem_cons_iff, Finset.mem_insert]
      tauto
  have hl := linkAll_linked (Store.new V μ s.dimensions s.distance) items
  -- over an empty store the rebuilt maps are those of linking every item
  obtain ⟨hids, hnames⟩ := linkAll_indexes (Store.new V μ s.dimensions s.distance) items
  obtain ⟨hide, hnamee⟩ := hl.noEmpty noEmpty_empty noEmpty_empty
  have hrids : (s.rebuild order).strToU64 = _ := hids.symm
  have hrnames : (s.rebuild order).nameToIds = _ := hnames.symm
  constructor
  · rw [hrids]
    exact hide
  · intro id x
    rw [hrids, hl.ids]
    show x ∈ members ∅ id ∨ _ ↔ _
    rw [members_empty, or_iff_right (Finset.notMem_empty x)]
    constructor
    · rintro ⟨⟨y, d⟩, hp, rfl, rfl⟩
      exact ⟨d, (hmem x d).mp hp, rfl⟩
    · rintro ⟨d, hx, rfl⟩
      exact ⟨(x, d), (hmem x d).mpr hx, rfl, rfl⟩
  · rw [hrnames]
    exact hnamee
  · intro name id
    rw [hrnames, hl.names]
    show id ∈ members ∅ name ∨ _ ↔ _
    rw [members_empty, or_iff_right (Finset.notMem_empty id), hsome fun d => d.Lists name id]
  · intro c
    refine (hhash c items (fun p hp => hne p.1 p.2 ((hmem p.1 p.2).mp hp)) ∅).trans ?_
    rw [or_iff_right (Finset.notMem_empty c), hsome fun d => d.contentHash = c]

/-- A load that returns has read both files, and their handles have passed the check. -/
theorem loadFrom_ok {folder : Folder V μ} {order : IterOrder} {loaded : Store V μ}
    (h : s.loadFrom folder order = .ok loaded) : ∃ ix sc, folder.indexFile = some (some ix) ∧
      folder.storeFile = some sc ∧
      checkPersistedHandles ix (setAll ∅ sc.u64ToDoc).keys.val (some sc.nextU64) = .ok () ∧ ∃ distance,
      loaded = Store.rebuild { s with distance, index := some ix, u64ToDoc := setAll ∅ sc.u64ToDoc,
                                      nextU64 := sc.nextU64 } order := by
  unfold Store.loadFrom at h
  split at h
  next indexFile state hindex hstate =>
    split at h
    · cases h
    · split at h
      · cases h
      · split at h
        · cases h
        · split at h
          · cases h
          next index =>
            dsimp only at h
            split at h
            · cases h
            next hcheck => exact ⟨index, state, hindex, hstate, hcheck, _, (Except.ok.inj h).symm⟩
  next => cases h

theorem loadFrom_synced {folder : Folder V μ} {order : IterOrder} {loaded : Store V μ}
    (hfolder : ∀ sc, folder.storeFile = some sc → ∀ p ∈ sc.u64ToDoc, p.2.contentHash ≠ "")
    (h : s.loadFrom folder order = .ok loaded) : loaded.Synced := by
  obtain ⟨index, state, -, hstate, hcheck, distance, rfl⟩ := loadFrom_ok h
  have hne : ∀ x d, (setAll ∅ state.u64ToDoc).lookup x = some d → d.contentHash ≠ "" := by
    intro x d hx
    rcases of_lookup_setAll hx with hx | hx
    · exact hfolder state hstate _ hx
    · rw [Finmap.lookup_empty] at hx
      cases hx
  constructor
  · show index.rows.keys = (setAll ∅ state.u64ToDoc).keys
    rw [handles_of_checkPersistedHandles hcheck]
    exact Finset.val_toFinset _
  · exact rebuild_mirrors order hne
  · exact hne
  · intro x hx
    exact le_of_checkPersistedHandles hcheck x (Finmap.mem_keys.mpr hx)

theorem Store.Synced.create (hs : s.Synced) {folder : Option (Folder V μ)} {order : IterOrder}
    (hfolder : ∀ f, folder = some f → ∀ sc, f.storeFile = some sc → ∀ p ∈ sc.u64ToDoc, p.2.contentHash ≠ "") :
    (s.create folder order).1.Synced := by
  unfold Store.create
  cases hix : s.index with
  | some ix => exact hs
  | none =>
    -- a store without an index has no payloads
    have hempty : s.u64ToDoc.keys = ∅ := by
      rw [← hs.handles, Store.indexed, hix]
      rfl
    have hfresh : { s with index := some { dim := some s.dimensions, rows := ∅ } }.Synced :=
      { handles := hempty.symm
        mirrors := hs.mirrors.of_sides rfl
        hashed := hs.hashed
        watermark := hs.watermark }
    rw [if_neg (by simp)]
    dsimp only
    cases folder with
    | none => exact hfresh
    | some f =>
      dsimp only
      split
      · cases hload : s.loadFrom f order with
        | ok loaded => exact loadFrom_synced (hfolder f rfl) hload
        | error e => exact hs
      · exact hfresh

end loading

/-! ## Every run -/

section runs
variable [DecidableEq μ] {s : Store V μ}

/-- A call that brings no empty hash keeps the invariant, and a raised insertion changes only the watermark. -/
theorem Store.Synced.step (hs : s.Synced) (env : Env V) {op : Op V μ} (hop : op.Hashed) :
    Inserted s (s.step env op) := by
  cases op with
  | create folder order => exact ⟨hs.create hop, fun h => absurd rfl h⟩
  | drop => exact ⟨Store.Synced.drop, fun h => absurd rfl h⟩
  | insert contentHash documents filters embedMissing refuse => exact hs.insert env _ _ _ _ _ hop
  | upsert contentHash documents filters embedUpFront embedMissing refuse order =>
    exact hs.upsert env _ _ _ _ _ _ _ hop
  | deleteById id order => exact ⟨hs.deleteById id order, fun h => absurd rfl h⟩
  | deleteByName name order =>
    refine ⟨?_, fun h => absurd rfl h⟩
    cases name with
    | none => exact hs
    | some name => exact hs.deleteWhere _ _
  | deleteByMetadata metadata order =>
    refine ⟨?_, fun h => absurd rfl h⟩
    cases metadata with
    | none => exact hs
    | some items => exact hs.deleteWhere _ _
  | deleteByContentId contentId order =>
    refine ⟨?_, fun h => absurd rfl h⟩
    cases contentId with
    | none => exact hs
    | some contentId => exact hs.deleteWhere _ _
  | updateMetadata contentId metadata order =>
    exact ⟨hs.updateMetadata contentId metadata order, fun h => absurd rfl h⟩

theorem Store.Synced.run (hs : s.Synced) (env : Env V) {ops : List (Op V μ)} (hops : ∀ op ∈ ops, op.Hashed) :
    (s.run env ops).Synced := by
  induction ops generalizing s with
  | nil => exact hs
  | cons op ops ih =>
    have hstep := (hs.step env (hops op List.mem_cons_self)).synced
    exact ih hstep fun o ho => hops o (List.mem_cons_of_mem op ho)

end runs

/-! ## Saves -/

section saves
variable {s : Store V μ}

/-- The items of a map, entered in an empty one. -/
theorem setAll_items (m : Dict ℕ (Payload μ)) (order : IterOrder) :
    setAll ∅ ((order.list m.keys).filterMap fun h => (m.lookup h).map fun data => (h, data)) = m := by
  set items := (order.list m.keys).filterMap fun h => (m.lookup h).map fun data => (h, data) with hitems
  have hfst : items.map Prod.fst = order.list m.keys := by
    rw [hitems]
    exact items_fst (fun d => d) fun h hh => Finmap.mem_keys.mp ((order.mem_list _ _).mp hh)
  apply Finmap.ext_lookup
  intro x
  cases hx : m.lookup x with
  | none =>
    rw [lookup_setAll_of_notMem, Finmap.lookup_empty]
    rw [hfst, order.mem_list, Finmap.mem_keys, mem_iff_lookup, hx]
    rintro ⟨d, hd⟩
    cases hd
  | some d =>
    apply lookup_setAll_of_mem
    · rw [hfst]
      exact order.nodup _
    · rw [hitems, List.mem_filterMap]
      refine ⟨x, (order.mem_list _ _).mpr (Finmap.mem_keys.mpr (mem_iff_lookup.mpr ⟨d, hx⟩)), ?_⟩
      rw [hx]
      rfl

/-- A save of a synced store loads as that store, its side indexes rebuilt from the payloads. -/
theorem Store.Synced.create_save (hs : s.Synced) {order order' : IterOrder} {folder : Folder V μ}
    (h : s.save order = some folder) :
    (Store.new V μ s.dimensions s.distance).create (some folder) order' = (s, none) := by
  obtain ⟨index, hix, rfl⟩ := Option.map_eq_some_iff.mp h
  have hkeys : index.rows.keys = s.u64ToDoc.keys := by
    have hh := hs.handles
    rwa [Store.indexed, hix] at hh
  have hcheck : checkPersistedHandles index s.u64ToDoc.keys.val (some s.nextU64) = .ok () := by
    apply checkPersistedHandles_ok
    · exact s.u64ToDoc.keys.nodup
    · rw [Index.len, hkeys]
      rfl
    · intro x hx
      rw [← Finmap.mem_keys, hkeys]
      exact hx
    · intro x hx
      exact hs.watermark x (Finmap.mem_keys.mp hx)
  have hsides := (rebuild_mirrors (s := s) order' hs.hashed).unique hs.mirrors
  obtain ⟨hids, hrest⟩ := Prod.mk.inj hsides
  obtain ⟨hnames, hhashes⟩ := Prod.mk.inj hrest
  -- rebuilt and kept maps mirror the same payloads
  have hrebuild : s.rebuild order' = s := by
    cases s
    unfold Store.rebuild at hids hnames hhashes ⊢
    dsimp only at hids hnames hhashes ⊢
    rw [hids, hnames, hhashes]
  have hload : (Store.new V μ s.dimensions s.distance).loadFrom
      { indexFile := some (some index)
        storeFile := some
          { schemaVersion := docstoreSchemaVersion
            u64ToDoc := (order.list s.u64ToDoc.keys).filterMap fun h =>
              (s.u64ToDoc.lookup h).map fun data => (h, data)
            nextU64 := s.nextU64
            dimensions := s.dimensions
            distance := some s.distance } } order' = .ok s := by
    unfold Store.loadFrom
    dsimp only
    rw [if_neg (by decide), if_neg (fun hne => hne rfl), if_neg (by simp [Store.new]), setAll_items, hcheck]
    show Except.ok (Store.rebuild { s with index := some index } order') = _
    rw [← hix]
    exact congrArg Except.ok hrebuild
  unfold Store.create
  rw [if_neg (by simp [Store.new])]
  dsimp only
  rw [if_pos (Or.inl (show (some (some index)).isSome = true from rfl)), hload]

end saves

/-- In every run that brings no empty content hash: the index has the handles of the payloads, the side indexes
are what the payloads make of them and what loading a save rebuilds, and a raised insertion leaves the index,
the payloads and the side indexes of before. -/
theorem side_indexes_synced [DecidableEq μ] (env : Env V) (dimensions : ℕ) (distance : String)
    (ops : List (Op V μ)) (op : Op V μ) (hops : ∀ o ∈ ops, o.Hashed) (hop : op.Hashed) :
    let s := (Store.new V μ dimensions distance).run env ops
    s.indexed = s.u64ToDoc.keys ∧ Mirrors s.u64ToDoc s ∧
      (∀ order order' folder, s.save order = some folder →
        (Store.new V μ s.dimensions s.distance).create (some folder) order' = (s, none)) ∧
      ((s.step env op).2 ≠ none → (s.step env op).1.sides = s.sides ∧
        (s.step env op).1.u64ToDoc = s.u64ToDoc ∧ (s.step env op).1.index = s.index) := by
  intro s
  have hs : s.Synced := (new_synced V μ dimensions distance).run env hops
  refine ⟨hs.handles, hs.mirrors, ?_, (hs.step env hop).raised⟩
  intro order order' folder h
  exact hs.create_save h

/-- Ascending, as the handles are issued. -/
def ascending : IterOrder where
  list s := s.sort (· ≤ ·)
  mem_list _ _ := Finset.mem_sort (· ≤ ·)
  nodup s := Finset.sort_nodup s (· ≤ ·)

/-- Surroundings that take every row. -/
def plainEnv : Env ℕ where
  md5 text := text
  width _ := 8
  l2Normalize e := e
  kernel := { dimOk := fun _ => true, finite := fun _ => true }

def plainDocument : Document ℕ ℕ :=
  { id := some "a", name := some "n", content := none, contentId := none, metaData := none, usage := none,
    embedding := some 1 }

/-- Two documents of one id and name, and a third insertion of the same that raises. -/
theorem side_indexes_synced_two :
    let s := (Store.new ℕ ℕ 8 "cosine").run plainEnv
      [.create none ascending, .insert "h" [plainDocument, plainDocument] ∅ some false]
    Mirrors s.u64ToDoc s ∧ (s.step plainEnv (.insert "h" [plainDocument] ∅ some true)).1.sides = s.sides := by
  intro s
  have h := side_indexes_synced plainEnv 8 "cosine"
    [.create none ascending, .insert "h" [plainDocument, plainDocument] ∅ some false]
    (.insert "h" [plainDocument] ∅ some true)
    (by
      intro o ho
      rcases List.mem_cons.mp ho with rfl | ho
      · intro f hf
        cases hf
      · rw [List.mem_singleton.mp ho]
        exact Or.inr (by decide))
    (Or.inr (by decide))
  exact ⟨h.2.1, (h.2.2.2 (by decide +kernel)).1⟩

/-- A raised insertion under the empty hash leaves that hash behind, with no payload. -/
theorem empty_hash_stays :
    let s := (Store.new ℕ ℕ 8 "cosine").run plainEnv [.create none ascending]
    let r := s.step plainEnv (.insert "" [plainDocument] ∅ some true)
    r.2 = some .add ∧ r.1.u64ToDoc.keys = ∅ ∧ s.contentHashes = ∅ ∧ r.1.contentHashes = {""} := by
  decide +kernel

end Turbovec.Python.Agno
