import Mathlib.Algebra.Order.BigOperators.Group.Finset
import Turbovec.Index.Reloaded
import Turbovec.Lib.Threads

/-!
# Asking whether a batch can be added

`batch_addable` answers from the load-time tables while the id-to-slot map is unset and from the map after
that; a reader that builds the map empties the tables behind their locks. Both only borrow the index, so any
number of threads may be at it at once. Here every access is one step, the steps of the threads are taken
in any order, and the answer is still the one the up-front check of an add gives.
-/

namespace Turbovec

open IoV7 Slice SlotMap Threads

namespace IdMapIndex

/-! ## The steps -/

/-- What the threads share: the map, the two tables, and who holds each table's lock. -/
structure Cells (τ : Type) where
  map : Option IdTable
  sorted : List UInt64
  deferred : Finset UInt64
  sortedLock : Option τ
  deferredLock : Option τ

/-- A place in `ids`. -/
inductive IdsPlace
  | probe
  | init
  | lockSorted
  | clearSorted
  | unlockSorted
  | lockDeferred
  | clearDeferred
  | unlockDeferred
  | ready
deriving DecidableEq

/-- A place in a call. A `batch_addable` carries its batch, the ids still to test and those seen. -/
inductive Place
  | idle
  | ids (p : IdsPlace)
  | probe (batch : List UInt64)
  | lockSorted (batch : List UInt64)
  | lockDeferred (batch : List UInt64)
  | recheck (batch : List UInt64)
  /-- under both locks, from the tables -/
  | scan (batch rest : List UInt64) (seen : Finset UInt64)
  | leaveDeferred (batch : List UInt64) (answer : Bool)
  | leaveSorted (batch : List UInt64) (answer : Bool)
  | dropSorted (batch : List UInt64)
  | dropDeferred (batch : List UInt64)
  /-- from the map -/
  | fall (batch rest : List UInt64) (seen : Finset UInt64)
  /-- inside `contains` -/
  | look (batch : List UInt64) (id : UInt64) (rest : List UInt64) (seen : Finset UInt64) (p : IdsPlace)
  | answered (batch : List UInt64) (answer : Bool)

section

variable {τ : Type}

/-- One step of `ids`; none where the thread waits for a lock, or is done. -/
def idsStep (slotToId : List UInt64) (t : τ) (s : Cells τ) : IdsPlace → Option (Cells τ × IdsPlace)
  | .probe => some (s, if s.map.isSome then .ready else .init)
  | .init =>
    some ({ s with map := some (s.map.getD (insertAll (fun _ => none) slotToId.zipIdx)) }, .lockSorted)
  | .lockSorted =>
    if s.sortedLock.isNone then some ({ s with sortedLock := some t }, .clearSorted) else none
  | .clearSorted => some ({ s with sorted := [] }, .unlockSorted)
  | .unlockSorted => some ({ s with sortedLock := none }, .lockDeferred)
  | .lockDeferred =>
    if s.deferredLock.isNone then some ({ s with deferredLock := some t }, .clearDeferred) else none
  | .clearDeferred => some ({ s with deferred := ∅ }, .unlockDeferred)
  | .unlockDeferred => some ({ s with deferredLock := none }, .ready)
  | .ready => none

/-- One step of a call; none where the thread waits for a lock, or has no call to go on with. -/
def callStep (slotToId : List UInt64) (t : τ) (s : Cells τ) : Place → Option (Cells τ × Place)
  | .idle => none
  | .ids p => (idsStep slotToId t s p).map fun r => (r.1, .ids r.2)
  | .probe batch => some (s, if s.map.isNone then .lockSorted batch else .fall batch batch ∅)
  | .lockSorted batch =>
    if s.sortedLock.isNone then some ({ s with sortedLock := some t }, .lockDeferred batch) else none
  | .lockDeferred batch =>
    if s.deferredLock.isNone then some ({ s with deferredLock := some t }, .recheck batch) else none
  | .recheck batch => some (s, if s.map.isNone then .scan batch batch ∅ else .dropSorted batch)
  | .scan batch [] _ => some (s, .leaveDeferred batch true)
  | .scan batch (id :: rest) seen =>
    some (s, if id ∉ seen ∧ tableContains s.sorted id = false ∧ id ∉ s.deferred then
      .scan batch rest (insert id seen) else .leaveDeferred batch false)
  | .leaveDeferred batch answer => some ({ s with deferredLock := none }, .leaveSorted batch answer)
  | .leaveSorted batch answer => some ({ s with sortedLock := none }, .answered batch answer)
  | .dropSorted batch => some ({ s with sortedLock := none }, .dropDeferred batch)
  | .dropDeferred batch => some ({ s with deferredLock := none }, .fall batch batch ∅)
  | .fall batch [] _ => some (s, .answered batch true)
  | .fall batch (id :: rest) seen =>
    some (s, if id ∉ seen then .look batch id rest (insert id seen) .probe else .answered batch false)
  | .look batch id rest seen .ready =>
    s.map.map fun m => (s, if (m id).isNone then .fall batch rest seen else .answered batch false)
  | .look batch id rest seen p =>
    (idsStep slotToId t s p).map fun r => (r.1, .look batch id rest seen r.2)
  | .answered _ _ => none

/-- Whether a thread may begin a call. -/
def Place.Free : Place → Prop
  | .idle | .ids .ready | .answered _ _ => True
  | _ => False

/-- A thread goes on with its call, or begins one. -/
inductive Act (slotToId : List UInt64) (t : τ) (s : Cells τ) (l : Place) : Cells τ → Place → Prop
  | go {s' : Cells τ} {l' : Place} (h : callStep slotToId t s l = some (s', l')) : Act slotToId t s l s' l'
  | ids (h : l.Free) : Act slotToId t s l s (.ids .probe)
  | batchAddable (h : l.Free) (batch : List UInt64) : Act slotToId t s l s (.probe batch)

/-- The cells of an index nobody is reading. -/
def cells (x : IdMapIndex) : Cells τ := ⟨x.idToSlot, x.sortedIds, x.deferredAdded, none, none⟩

/-- The index with the map and the tables as the readers left them. -/
def withCells (x : IdMapIndex) (s : Cells τ) : IdMapIndex :=
  { x with idToSlot := s.map, sortedIds := s.sorted, deferredAdded := s.deferred }

end

/-! ## What holds at each place -/

/-- The map has been published. -/
def IdsPlace.built : IdsPlace → Bool
  | .probe | .init => false
  | _ => true

def IdsPlace.holdsSorted : IdsPlace → Bool
  | .clearSorted | .unlockSorted => true
  | _ => false

def IdsPlace.holdsDeferred : IdsPlace → Bool
  | .clearDeferred | .unlockDeferred => true
  | _ => false

def Place.holdsSorted : Place → Bool
  | .lockDeferred _ | .recheck _ | .scan _ _ _ | .leaveDeferred _ _ | .leaveSorted _ _ | .dropSorted _ => true
  | .ids p | .look _ _ _ _ p => p.holdsSorted
  | _ => false

def Place.holdsDeferred : Place → Bool
  | .recheck _ | .scan _ _ _ | .leaveDeferred _ _ | .dropSorted _ | .dropDeferred _ => true
  | .ids p | .look _ _ _ _ p => p.holdsDeferred
  | _ => false

/-- About to take the sorted table's lock. -/
def Place.wantsSorted : Place → Bool
  | .lockSorted _ | .ids .lockSorted | .look _ _ _ _ .lockSorted => true
  | _ => false

/-- About to take the deferred set's lock. -/
def Place.wantsDeferred : Place → Bool
  | .lockDeferred _ | .ids .lockDeferred | .look _ _ _ _ .lockDeferred => true
  | _ => false

/-- The answer an add's up-front check of the batch would agree with. -/
def Right (x : IdMapIndex) (batch : List UInt64) (answer : Bool) : Prop :=
  answer = true ↔ batch.Nodup ∧ ∀ id ∈ batch, id ∉ x.slotToId

/-- The ids before `rest` have been tested and passed. -/
def Tested (x : IdMapIndex) (batch rest : List UInt64) (seen : Finset UInt64) : Prop :=
  ∃ pre, batch = pre ++ rest ∧ seen = pre.toFinset ∧ pre.Nodup ∧ ∀ id ∈ pre, id ∉ x.slotToId

section Tested

variable {x : IdMapIndex} {batch rest : List UInt64} {id : UInt64} {seen : Finset UInt64}

theorem tested_start (x : IdMapIndex) (batch : List UInt64) : Tested x batch batch ∅ :=
  ⟨[], rfl, rfl, List.nodup_nil, fun _ h => absurd h List.not_mem_nil⟩

theorem Tested.passed (h : Tested x batch [] seen) : Right x batch true := by
  obtain ⟨pre, rfl, -, hn, hp⟩ := h
  rw [List.append_nil]
  exact iff_of_true rfl ⟨hn, hp⟩

theorem Tested.next (h : Tested x batch (id :: rest) seen) (hs : id ∉ seen) (hx : id ∉ x.slotToId) :
    Tested x batch rest (insert id seen) := by
  obtain ⟨pre, rfl, rfl, hn, hp⟩ := h
  rw [List.mem_toFinset] at hs
  refine ⟨pre ++ [id], by rw [List.append_assoc, List.singleton_append], ?_, ?_, ?_⟩
  · ext a
    simp
  · rw [List.nodup_append]
    refine ⟨hn, List.nodup_singleton id, fun a ha b hb hab => hs ?_⟩
    rwa [← List.mem_singleton.1 hb, ← hab]
  · intro a ha
    rcases List.mem_append.1 ha with ha | ha
    · exact hp a ha
    · rwa [List.mem_singleton.1 ha]

/-- A repeat in the batch or an id of the index refuses it. -/
theorem Tested.refused (h : Tested x batch (id :: rest) seen) (hbad : id ∈ seen ∨ id ∈ x.slotToId) :
    Right x batch false := by
  obtain ⟨pre, rfl, rfl, -, -⟩ := h
  refine iff_of_false (by decide) ?_
  rintro ⟨hn, hp⟩
  rcases hbad with hs | hx
  · rw [List.mem_toFinset] at hs
    rw [List.nodup_append] at hn
    exact hn.2.2 id hs id List.mem_cons_self rfl
  · exact hp id (List.mem_append_right _ List.mem_cons_self) hx

end Tested

section

variable {τ : Type}

/-- What every interleaving keeps of the cells: until the map is published the tables are those of the
load, and what is published inverts the slots. -/
structure Kept (x : IdMapIndex) (s : Cells τ) : Prop where
  intact : s.map = none →
    x.idToSlot = none ∧ s.sorted = x.sortedIds ∧ s.deferred = x.deferredAdded
  table : ∀ m, s.map = some m → m = x.table

/-- What a place says beyond its locks. -/
def Fact (x : IdMapIndex) (s : Cells τ) : Place → Prop
  | .idle | .probe _ | .lockSorted _ | .lockDeferred _ | .recheck _ => True
  | .ids p => p.built = true → s.map.isSome = true
  | .scan batch rest seen => Tested x batch rest seen ∧
      x.idToSlot = none ∧ s.sorted = x.sortedIds ∧ s.deferred = x.deferredAdded
  | .leaveDeferred batch answer | .leaveSorted batch answer | .answered batch answer =>
      Right x batch answer
  | .dropSorted _ | .dropDeferred _ => s.map.isSome = true
  | .fall batch rest seen => Tested x batch rest seen ∧ s.map.isSome = true
  | .look batch id rest seen _ => (∃ seen', Tested x batch (id :: rest) seen' ∧ id ∉ seen' ∧
      seen = insert id seen') ∧ s.map.isSome = true

/-- A thread holds exactly the locks its place says, and what its place says is so. -/
structure At (x : IdMapIndex) (t : τ) (s : Cells τ) (l : Place) : Prop where
  sorted : l.holdsSorted = true ↔ s.sortedLock = some t
  deferred : l.holdsDeferred = true ↔ s.deferredLock = some t
  fact : Fact x s l

/-- What a step of thread `t` leaves alone. -/
structure Frame (t : τ) (s s' : Cells τ) : Prop where
  map : s.map.isSome = true → s'.map.isSome = true
  sortedLock : ∀ u ≠ t, s'.sortedLock = some u ↔ s.sortedLock = some u
  deferredLock : ∀ u ≠ t, s'.deferredLock = some u ↔ s.deferredLock = some u
  sorted : s'.sorted = s.sorted ∨ s.sortedLock = some t
  deferred : s'.deferred = s.deferred ∨ s.deferredLock = some t

theorem Frame.refl (t : τ) (s : Cells τ) : Frame t s s :=
  ⟨id, fun _ _ => Iff.rfl, fun _ _ => Iff.rfl, Or.inl rfl, Or.inl rfl⟩

variable {x : IdMapIndex} {t u : τ} {s s' : Cells τ}

/-! ## One step -/

/-- One step of `ids`, its place holding exactly its locks. -/
structure IdsStepped (x : IdMapIndex) (t : τ) (s s' : Cells τ) (p' : IdsPlace) : Prop where
  kept : Kept x s'
  frame : Frame t s s'
  sorted : p'.holdsSorted = true ↔ s'.sortedLock = some t
  deferred : p'.holdsDeferred = true ↔ s'.deferredLock = some t
  built : p'.built = true → s'.map.isSome = true

theorem idsStep_spec (hk : Kept x s) {p p' : IdsPlace}
    (hs : p.holdsSorted = true ↔ s.sortedLock = some t)
    (hd : p.holdsDeferred = true ↔ s.deferredLock = some t)
    (hb : p.built = true → s.map.isSome = true)
    (h : idsStep x.slotToId t s p = some (s', p')) : IdsStepped x t s s' p' := by
  have hkept {s'' : Cells τ} (hmap : s''.map = s.map) (hsome : s.map.isSome = true) : Kept x s'' := by
    refine ⟨fun hn => ?_, fun m hm => hk.table m (hmap ▸ hm)⟩
    rw [← hmap, hn] at hsome
    cases hsome
  cases p with
  | probe =>
    simp only [idsStep, Option.some.injEq, Prod.mk.injEq] at h
    obtain ⟨rfl, rfl⟩ := h
    refine ⟨hk, .refl t s, ?_, ?_, ?_⟩
    · rw [← hs]
      split <;> rfl
    · rw [← hd]
      split <;> rfl
    · split
      · intro _
        assumption
      · intro hfalse
        cases hfalse
  | init =>
    simp only [idsStep, Option.some.injEq, Prod.mk.injEq] at h
    obtain ⟨rfl, rfl⟩ := h
    refine ⟨⟨fun hn => (by cases hn), fun m hm => ?_⟩, ⟨fun _ => rfl, fun _ _ => Iff.rfl, fun _ _ => Iff.rfl,
      Or.inl rfl, Or.inl rfl⟩, hs, hd, fun _ => rfl⟩
    rw [Option.some.injEq] at hm
    cases hmap : s.map with
    | some m' =>
      rw [hmap] at hm
      exact hm.symm.trans (hk.table m' hmap)
    | none =>
      rw [hmap] at hm
      rw [IdMapIndex.table, (hk.intact hmap).1]
      exact hm.symm
  | lockSorted =>
    simp only [idsStep] at h
    split at h
    · rename_i hfree
      rw [Option.isNone_iff_eq_none] at hfree
      simp only [Option.some.injEq, Prod.mk.injEq] at h
      obtain ⟨rfl, rfl⟩ := h
      refine ⟨hkept rfl (hb rfl), ⟨id, fun u hu => ?_, fun _ _ => Iff.rfl, Or.inl rfl, Or.inl rfl⟩,
        iff_of_true rfl rfl, hd, fun _ => hb rfl⟩
      rw [hfree]
      simp [Ne.symm hu]
    · cases h
  | clearSorted =>
    simp only [idsStep, Option.some.injEq, Prod.mk.injEq] at h
    obtain ⟨rfl, rfl⟩ := h
    exact ⟨hkept rfl (hb rfl), ⟨id, fun _ _ => Iff.rfl, fun _ _ => Iff.rfl, Or.inr (hs.1 rfl),
      Or.inl rfl⟩, hs, hd, fun _ => hb rfl⟩
  | unlockSorted =>
    simp only [idsStep, Option.some.injEq, Prod.mk.injEq] at h
    obtain ⟨rfl, rfl⟩ := h
    refine ⟨hkept rfl (hb rfl), ⟨id, fun u hu => ?_, fun _ _ => Iff.rfl, Or.inl rfl, Or.inl rfl⟩,
      iff_of_false (by decide) (by simp), hd, fun _ => hb rfl⟩
    rw [hs.1 rfl]
    simp [Ne.symm hu]
  | lockDeferred =>
    simp only [idsStep] at h
    split at h
    · rename_i hfree
      rw [Option.isNone_iff_eq_none] at hfree
      simp only [Option.some.injEq, Prod.mk.injEq] at h
      obtain ⟨rfl, rfl⟩ := h
      refine ⟨hkept rfl (hb rfl), ⟨id, fun _ _ => Iff.rfl, fun u hu => ?_, Or.inl rfl, Or.inl rfl⟩,
        hs, iff_of_true rfl rfl, fun _ => hb rfl⟩
      rw [hfree]
      simp [Ne.symm hu]
    · cases h
  | clearDeferred =>
    simp only [idsStep, Option.some.injEq, Prod.mk.injEq] at h
    obtain ⟨rfl, rfl⟩ := h
    exact ⟨hkept rfl (hb rfl), ⟨id, fun _ _ => Iff.rfl, fun _ _ => Iff.rfl, Or.inl rfl,
      Or.inr (hd.1 rfl)⟩, hs, hd, fun _ => hb rfl⟩
  | unlockDeferred =>
    simp only [idsStep, Option.some.injEq, Prod.mk.injEq] at h
    obtain ⟨rfl, rfl⟩ := h
    refine ⟨hkept rfl (hb rfl), ⟨id, fun _ _ => Iff.rfl, fun u hu => ?_, Or.inl rfl, Or.inl rfl⟩,
      hs, iff_of_false (by decide) (by simp), fun _ => hb rfl⟩
    rw [hd.1 rfl]
    simp [Ne.symm hu]
  | ready => cases h

theorem callStep_look {slotToId batch rest : List UInt64} {id : UInt64} {seen : Finset UInt64} {p : IdsPlace}
    (hp : p ≠ .ready) : callStep slotToId t s (.look batch id rest seen p) =
      (idsStep slotToId t s p).map fun r => (r.1, .look batch id rest seen r.2) := by
  cases p with
  | ready => exact absurd rfl hp
  | _ => rfl

/-- A step of a call, its place holding exactly its locks and its answer right. -/
structure Stepped (x : IdMapIndex) (t : τ) (s s' : Cells τ) (l' : Place) : Prop where
  kept : Kept x s'
  frame : Frame t s s'
  at_ : At x t s' l'

theorem callStep_spec (hx : x.Coherent) (hk : Kept x s) {l l' : Place} (ha : At x t s l)
    (h : callStep x.slotToId t s l = some (s', l')) : Stepped x t s s' l' := by
  obtain ⟨hs, hd, hf⟩ := ha
  -- a step that only moves on, holding what it held
  have hmove {l'' : Place} (h1 : l''.holdsSorted = l.holdsSorted) (h2 : l''.holdsDeferred = l.holdsDeferred)
      (hfact : Fact x s l'') : Stepped x t s s l'' :=
    ⟨hk, .refl t s, h1 ▸ hs, h2 ▸ hd, hfact⟩
  have hkept {s'' : Cells τ} (hmap : s''.map = s.map) (hsor : s''.sorted = s.sorted)
      (hdef : s''.deferred = s.deferred) : Kept x s'' :=
    ⟨fun hn => hsor ▸ hdef ▸ hk.intact (hmap ▸ hn), fun m hm => hk.table m (hmap ▸ hm)⟩
  -- taking and releasing a lock
  have hframe {s'' : Cells τ} (hmap : s''.map = s.map) (hsor : s''.sorted = s.sorted)
      (hdef : s''.deferred = s.deferred)
      (h1 : ∀ u ≠ t, s''.sortedLock = some u ↔ s.sortedLock = some u)
      (h2 : ∀ u ≠ t, s''.deferredLock = some u ↔ s.deferredLock = some u) : Frame t s s'' :=
    ⟨fun hm => by rwa [hmap], h1, h2, Or.inl hsor, Or.inl hdef⟩
  cases l with
  | idle => cases h
  | ids p =>
    simp only [callStep, Option.map_eq_some_iff] at h
    obtain ⟨⟨s₁, p'⟩, hstep, heq⟩ := h
    simp only [Prod.mk.injEq] at heq
    obtain ⟨rfl, rfl⟩ := heq
    obtain ⟨hk', hfr, hs', hd', hb'⟩ := idsStep_spec hk hs hd hf hstep
    exact ⟨hk', hfr, hs', hd', hb'⟩
  | probe batch =>
    simp only [callStep, Option.some.injEq, Prod.mk.injEq] at h
    obtain ⟨rfl, rfl⟩ := h
    split
    · exact hmove rfl rfl trivial
    · rename_i hsome
      refine hmove rfl rfl ⟨tested_start x batch, ?_⟩
      exact Option.isSome_iff_ne_none.2 fun hnone => hsome (Option.isNone_iff_eq_none.2 hnone)
  | lockSorted batch =>
    simp only [callStep] at h
    split at h
    · rename_i hfree
      rw [Option.isNone_iff_eq_none] at hfree
      simp only [Option.some.injEq, Prod.mk.injEq] at h
      obtain ⟨rfl, rfl⟩ := h
      refine ⟨hkept rfl rfl rfl, hframe rfl rfl rfl (fun u hu => ?_) fun _ _ => Iff.rfl,
        iff_of_true rfl rfl, hd, trivial⟩
      rw [hfree]
      simp [Ne.symm hu]
    · cases h
  | lockDeferred batch =>
    simp only [callStep] at h
    split at h
    · rename_i hfree
      rw [Option.isNone_iff_eq_none] at hfree
      simp only [Option.some.injEq, Prod.mk.injEq] at h
      obtain ⟨rfl, rfl⟩ := h
      refine ⟨hkept rfl rfl rfl, hframe rfl rfl rfl (fun _ _ => Iff.rfl) fun u hu => ?_, hs,
        iff_of_true rfl rfl, trivial⟩
      rw [hfree]
      simp [Ne.symm hu]
    · cases h
  | recheck batch =>
    simp only [callStep, Option.some.injEq, Prod.mk.injEq] at h
    obtain ⟨rfl, rfl⟩ := h
    split
    · rename_i hnone
      exact hmove rfl rfl ⟨tested_start x batch, hk.intact (Option.isNone_iff_eq_none.1 hnone)⟩
    · rename_i hsome
      exact hmove rfl rfl
        (Option.isSome_iff_ne_none.2 fun hnone => hsome (Option.isNone_iff_eq_none.2 hnone))
  | scan batch rest seen =>
    obtain ⟨ht, hnone, hsor, hdef⟩ := hf
    cases rest with
    | nil =>
      simp only [callStep, Option.some.injEq, Prod.mk.injEq] at h
      obtain ⟨rfl, rfl⟩ := h
      exact hmove rfl rfl ht.passed
    | cons id rest =>
      simp only [callStep, Option.some.injEq, Prod.mk.injEq] at h
      obtain ⟨rfl, rfl⟩ := h
      -- the tables together are the live ids
      have hlive : tableContains s.sorted id = false ∧ id ∉ s.deferred ↔ id ∉ x.slotToId := by
        rw [hsor, hdef, tableContains_eq (hx.sorted hnone), decide_eq_false_iff_not, ← not_or,
          hx.window hnone id]
      split
      · rename_i hnew
        exact hmove rfl rfl ⟨ht.next hnew.1 (hlive.1 hnew.2), hnone, hsor, hdef⟩
      · rename_i hold
        have hbad : id ∈ seen ∨ id ∈ x.slotToId := by
          rw [hlive] at hold
          tauto
        exact hmove rfl rfl (ht.refused hbad)
  | leaveDeferred batch answer =>
    simp only [callStep, Option.some.injEq, Prod.mk.injEq] at h
    obtain ⟨rfl, rfl⟩ := h
    refine ⟨hkept rfl rfl rfl, hframe rfl rfl rfl (fun _ _ => Iff.rfl) fun u hu => ?_, hs,
      iff_of_false Bool.false_ne_true (by simp), hf⟩
    rw [hd.1 rfl]
    simp [Ne.symm hu]
  | leaveSorted batch answer =>
    simp only [callStep, Option.some.injEq, Prod.mk.injEq] at h
    obtain ⟨rfl, rfl⟩ := h
    refine ⟨hkept rfl rfl rfl, hframe rfl rfl rfl (fun u hu => ?_) fun _ _ => Iff.rfl,
      iff_of_false Bool.false_ne_true (by simp), hd, hf⟩
    rw [hs.1 rfl]
    simp [Ne.symm hu]
  | dropSorted batch =>
    simp only [callStep, Option.some.injEq, Prod.mk.injEq] at h
    obtain ⟨rfl, rfl⟩ := h
    refine ⟨hkept rfl rfl rfl, hframe rfl rfl rfl (fun u hu => ?_) fun _ _ => Iff.rfl,
      iff_of_false Bool.false_ne_true (by simp), hd, hf⟩
    rw [hs.1 rfl]
    simp [Ne.symm hu]
  | dropDeferred batch =>
    simp only [callStep, Option.some.injEq, Prod.mk.injEq] at h
    obtain ⟨rfl, rfl⟩ := h
    refine ⟨hkept rfl rfl rfl, hframe rfl rfl rfl (fun _ _ => Iff.rfl) fun u hu => ?_, hs,
      iff_of_false Bool.false_ne_true (by simp), tested_start x batch, hf⟩
    rw [hd.1 rfl]
    simp [Ne.symm hu]
  | fall batch rest seen =>
    obtain ⟨ht, hsome⟩ := hf
    cases rest with
    | nil =>
      simp only [callStep, Option.some.injEq, Prod.mk.injEq] at h
      obtain ⟨rfl, rfl⟩ := h
      exact hmove rfl rfl ht.passed
    | cons id rest =>
      simp only [callStep, Option.some.injEq, Prod.mk.injEq] at h
      obtain ⟨rfl, rfl⟩ := h
      split
      · rename_i hnew
        exact hmove rfl rfl ⟨⟨seen, ht, hnew, rfl⟩, hsome⟩
      · rename_i hold
        exact hmove rfl rfl (ht.refused (Or.inl (not_not.1 hold)))
  | look batch id rest seen p =>
    obtain ⟨⟨seen', ht, hnew, rfl⟩, hsome⟩ := hf
    by_cases hp : p = .ready
    · subst hp
      simp only [callStep, Option.map_eq_some_iff, Prod.mk.injEq] at h
      obtain ⟨m, hm, rfl, rfl⟩ := h
      have hlive : (m id).isNone = true ↔ id ∉ x.slotToId := by
        rw [hk.table m hm, ← hx.table.isSome id, Bool.not_eq_true, Option.isSome_eq_false_iff]
      split
      · rename_i habsent
        exact hmove rfl rfl ⟨ht.next hnew (hlive.1 habsent), hsome⟩
      · rename_i hpresent
        exact hmove rfl rfl (ht.refused (Or.inr (not_not.1 (hlive.not.1 hpresent))))
    · rw [callStep_look hp, Option.map_eq_some_iff] at h
      obtain ⟨⟨s₁, p'⟩, hstep, heq⟩ := h
      simp only [Prod.mk.injEq] at heq
      obtain ⟨rfl, rfl⟩ := heq
      obtain ⟨hk', hfr, hs', hd', -⟩ := idsStep_spec hk hs hd (fun _ => hsome) hstep
      exact ⟨hk', hfr, hs', hd', ⟨seen', ht, hnew, rfl⟩, hfr.map hsome⟩
  | answered batch answer => cases h

/-- A thread between calls holds no lock, so it may begin one. -/
theorem At.begin {l m : Place} (ha : At x t s l) (hfree : l.Free) (h1 : m.holdsSorted = false)
    (h2 : m.holdsDeferred = false) (hfact : Fact x s m) : At x t s m := by
  have hl : l.holdsSorted = false ∧ l.holdsDeferred = false := by
    unfold Place.Free at hfree
    split at hfree
    · exact ⟨rfl, rfl⟩
    · exact ⟨rfl, rfl⟩
    · exact ⟨rfl, rfl⟩
    · cases hfree
  refine ⟨?_, ?_, hfact⟩
  · rw [h1, ← hl.1]
    exact ha.sorted
  · rw [h2, ← hl.2]
    exact ha.deferred

/-- Another thread's step leaves a thread's locks, and what its place says. -/
theorem At.frame {m : Place} (ha : At x u s m) (hut : u ≠ t) (hfr : Frame t s s') : At x u s' m := by
  obtain ⟨hs, hd, hf⟩ := ha
  refine ⟨hs.trans (hfr.sortedLock u hut).symm, hd.trans (hfr.deferredLock u hut).symm, ?_⟩
  cases m with
  | ids p => exact fun hb => hfr.map (hf hb)
  | scan batch rest seen =>
    obtain ⟨ht, hnone, hsor, hdef⟩ := hf
    -- it holds both locks, so nobody else has emptied the tables
    have h1 : s'.sorted = s.sorted := hfr.sorted.resolve_right fun hlock =>
      hut (Option.some.inj ((hs.1 rfl).symm.trans hlock))
    have h2 : s'.deferred = s.deferred := hfr.deferred.resolve_right fun hlock =>
      hut (Option.some.inj ((hd.1 rfl).symm.trans hlock))
    exact ⟨ht, hnone, h1.trans hsor, h2.trans hdef⟩
  | dropSorted batch => exact hfr.map hf
  | dropDeferred batch => exact hfr.map hf
  | fall batch rest seen => exact ⟨hf.1, hfr.map hf.2⟩
  | look batch id rest seen p => exact ⟨hf.1, hfr.map hf.2⟩
  | _ => exact hf

/-- No step breaks an assertion, its own thread's or another's. -/
theorem outline (hx : x.Coherent) : Outline (Act x.slotToId) (Kept x) (At (τ := τ) x) where
  own := by
    intro t s l s' l' hact hk ha
    cases hact with
    | go h => exact ⟨(callStep_spec hx hk ha h).kept, (callStep_spec hx hk ha h).at_⟩
    | ids hfree => exact ⟨hk, ha.begin hfree rfl rfl fun hb => (by cases hb)⟩
    | batchAddable hfree batch => exact ⟨hk, ha.begin hfree rfl rfl trivial⟩
  other := by
    intro t u s l s' l' m htu hact hk ha hu
    cases hact with
    | go h => exact hu.frame (Ne.symm htu) (callStep_spec hx hk ha h).frame
    | ids hfree => exact hu
    | batchAddable hfree batch => exact hu

/-! ## Every call ends -/

/-- A lock is held by a thread whose place says so; one that waits for the first holds neither. -/
theorem Place.wantsSorted_holds {l : Place} (h : l.wantsSorted = true) :
    l.holdsSorted = false ∧ l.holdsDeferred = false := by
  unfold Place.wantsSorted at h
  split at h
  · exact ⟨rfl, rfl⟩
  · exact ⟨rfl, rfl⟩
  · exact ⟨rfl, rfl⟩
  · cases h

theorem Place.wantsDeferred_holds {l : Place} (h : l.wantsDeferred = true) : l.holdsDeferred = false := by
  unfold Place.wantsDeferred at h
  split at h
  · rfl
  · rfl
  · rfl
  · cases h

/-- Only a wait for a lock stops a step of `ids`. -/
theorem idsStep_isSome {p : IdsPlace} (hp : p ≠ .ready) (h1 : p = .lockSorted → s.sortedLock = none)
    (h2 : p = .lockDeferred → s.deferredLock = none) :
    ∃ r, idsStep x.slotToId t s p = some r := by
  cases p with
  | lockSorted => exact ⟨_, by rw [idsStep, h1 rfl, if_pos Option.isNone_none]⟩
  | lockDeferred => exact ⟨_, by rw [idsStep, h2 rfl, if_pos Option.isNone_none]⟩
  | ready => exact absurd rfl hp
  | _ => exact ⟨_, rfl⟩

/-- Only a wait for a lock stops a call. -/
theorem callStep_isSome {l : Place} (ha : At x t s l) (hl : ¬ l.Free)
    (h1 : l.wantsSorted = true → s.sortedLock = none) (h2 : l.wantsDeferred = true → s.deferredLock = none) :
    ∃ r, callStep x.slotToId t s l = some r := by
  cases l with
  | idle => exact absurd trivial hl
  | answered batch answer => exact absurd trivial hl
  | ids p =>
    have hp : p ≠ .ready := fun h => hl (h ▸ trivial)
    obtain ⟨r, hr⟩ := @idsStep_isSome τ x t s p hp (fun h => h1 (h ▸ rfl)) fun h => h2 (h ▸ rfl)
    exact ⟨_, by rw [callStep, hr, Option.map_some]⟩
  | look batch id rest seen p =>
    by_cases hp : p = .ready
    · subst hp
      obtain ⟨m, hm⟩ := Option.isSome_iff_exists.1 ha.fact.2
      exact ⟨_, by rw [callStep, hm, Option.map_some]⟩
    · obtain ⟨r, hr⟩ := @idsStep_isSome τ x t s p hp (fun h => h1 (h ▸ rfl)) fun h => h2 (h ▸ rfl)
      exact ⟨_, by rw [callStep_look hp, hr, Option.map_some]⟩
  | lockSorted batch => exact ⟨_, by rw [callStep, h1 rfl, if_pos Option.isNone_none]⟩
  | lockDeferred batch => exact ⟨_, by rw [callStep, h2 rfl, if_pos Option.isNone_none]⟩
  | scan batch rest seen =>
    cases rest with
    | nil => exact ⟨_, rfl⟩
    | cons id rest => exact ⟨_, rfl⟩
  | fall batch rest seen =>
    cases rest with
    | nil => exact ⟨_, rfl⟩
    | cons id rest => exact ⟨_, rfl⟩
  | _ => exact ⟨_, rfl⟩

/-- Where a thread is in a call, some thread can go on: the locks are taken in one order. -/
theorem progress {w : World τ (Cells τ) Place} (hw : ∀ t, At x t w.shared (w.place t)) {t : τ}
    (ht : ¬ (w.place t).Free) : ∃ u r, callStep x.slotToId u w.shared (w.place u) = some r := by
  have hholds {u : τ} (h : (w.place u).holdsSorted = true ∨ (w.place u).holdsDeferred = true) :
      ¬ (w.place u).Free := by
    intro hfree
    unfold Place.Free at hfree
    split at hfree
    · rename_i heq
      simp [heq, Place.holdsSorted, Place.holdsDeferred] at h
    · rename_i heq
      simp [heq, Place.holdsSorted, Place.holdsDeferred, IdsPlace.holdsSorted, IdsPlace.holdsDeferred] at h
    · rename_i heq
      simp [heq, Place.holdsSorted, Place.holdsDeferred] at h
    · exact hfree
  cases hd : w.shared.deferredLock with
  | some u =>
    -- whoever holds the second lock waits for nothing
    have hu := (hw u).deferred.2 hd
    refine ⟨u, callStep_isSome (hw u) (hholds (Or.inr hu)) (fun h => ?_) fun h => ?_⟩
    · rw [(Place.wantsSorted_holds h).2] at hu
      cases hu
    · rw [Place.wantsDeferred_holds h] at hu
      cases hu
  | none =>
    cases hs : w.shared.sortedLock with
    | some u =>
      have hu := (hw u).sorted.2 hs
      refine ⟨u, callStep_isSome (hw u) (hholds (Or.inl hu)) (fun h => ?_) fun _ => hd⟩
      rw [(Place.wantsSorted_holds h).1] at hu
      cases hu
    | none => exact ⟨t, callStep_isSome (hw t) ht (fun _ => hs) fun _ => hd⟩

def IdsPlace.rank : IdsPlace → ℕ
  | .probe => 8
  | .init => 7
  | .lockSorted => 6
  | .clearSorted => 5
  | .unlockSorted => 4
  | .lockDeferred => 3
  | .clearDeferred => 2
  | .unlockDeferred => 1
  | .ready => 0

/-- A bound on the steps a call still takes. -/
def Place.rank : Place → ℕ
  | .idle | .answered _ _ => 0
  | .ids p => p.rank
  | .leaveSorted _ _ => 1
  | .leaveDeferred _ _ => 2
  | .scan _ rest _ => 3 + rest.length
  | .fall _ rest _ => 10 * rest.length + 1
  | .look _ _ rest _ p => 10 * rest.length + 2 + p.rank
  | .dropDeferred batch => 10 * batch.length + 2
  | .dropSorted batch => 10 * batch.length + 3
  | .recheck batch => 10 * batch.length + 4
  | .lockDeferred batch => 10 * batch.length + 5
  | .lockSorted batch => 10 * batch.length + 6
  | .probe batch => 10 * batch.length + 7

/-- The batch a call asks about. -/
def Place.asked : Place → Option (List UInt64)
  | .idle | .ids _ => none
  | .probe batch | .lockSorted batch | .lockDeferred batch | .recheck batch | .scan batch _ _
  | .leaveDeferred batch _ | .leaveSorted batch _ | .dropSorted batch | .dropDeferred batch
  | .fall batch _ _ | .look batch _ _ _ _ | .answered batch _ => some batch

theorem idsStep_rank {slotToId : List UInt64} {p p' : IdsPlace}
    (h : idsStep slotToId t s p = some (s', p')) : p'.rank < p.rank := by
  cases p with
  | probe =>
    simp only [idsStep, Option.some.injEq, Prod.mk.injEq] at h
    rw [← h.2]
    split
    · decide
    · decide
  | lockSorted =>
    simp only [idsStep, Option.ite_none_right_eq_some, Option.some.injEq, Prod.mk.injEq] at h
    rw [← h.2.2]
    decide
  | lockDeferred =>
    simp only [idsStep, Option.ite_none_right_eq_some, Option.some.injEq, Prod.mk.injEq] at h
    rw [← h.2.2]
    decide
  | ready => cases h
  | _ =>
    simp only [idsStep, Option.some.injEq, Prod.mk.injEq] at h
    rw [← h.2]
    decide

/-- Every step of a call brings its end nearer, and stays with its batch. -/
theorem callStep_toward {slotToId : List UInt64} {l l' : Place}
    (h : callStep slotToId t s l = some (s', l')) : l'.rank < l.rank ∧ l'.asked = l.asked := by
  cases l with
  | idle => cases h
  | answered batch answer => cases h
  | ids p =>
    simp only [callStep, Option.map_eq_some_iff, Prod.mk.injEq] at h
    obtain ⟨⟨s₁, p'⟩, hstep, -, rfl⟩ := h
    exact ⟨idsStep_rank hstep, rfl⟩
  | look batch id rest seen p =>
    by_cases hp : p = .ready
    · subst hp
      simp only [callStep, Option.map_eq_some_iff, Prod.mk.injEq] at h
      obtain ⟨m, -, -, rfl⟩ := h
      split
      · exact ⟨Nat.lt_succ_self _, rfl⟩
      · exact ⟨Nat.succ_pos _, rfl⟩
    · rw [callStep_look hp] at h
      simp only [Option.map_eq_some_iff, Prod.mk.injEq] at h
      obtain ⟨⟨s₁, p'⟩, hstep, -, rfl⟩ := h
      exact ⟨Nat.add_lt_add_left (idsStep_rank hstep) _, rfl⟩
  | lockSorted batch =>
    simp only [callStep, Option.ite_none_right_eq_some, Option.some.injEq, Prod.mk.injEq] at h
    rw [← h.2.2]
    exact ⟨Nat.lt_succ_self _, rfl⟩
  | lockDeferred batch =>
    simp only [callStep, Option.ite_none_right_eq_some, Option.some.injEq, Prod.mk.injEq] at h
    rw [← h.2.2]
    exact ⟨Nat.lt_succ_self _, rfl⟩
  | probe batch =>
    simp only [callStep, Option.some.injEq, Prod.mk.injEq] at h
    rw [← h.2]
    split
    · exact ⟨Nat.lt_succ_self _, rfl⟩
    · exact ⟨Nat.add_lt_add_left (by decide) _, rfl⟩
  | recheck batch =>
    simp only [callStep, Option.some.injEq, Prod.mk.injEq] at h
    rw [← h.2]
    split
    -- the scan takes a step an id, where the fall-back would take ten
    · refine ⟨?_, rfl⟩
      show 3 + batch.length < 10 * batch.length + 4
      omega
    · exact ⟨Nat.lt_succ_self _, rfl⟩
  | scan batch rest seen =>
    cases rest with
    | nil =>
      simp only [callStep, Option.some.injEq, Prod.mk.injEq] at h
      rw [← h.2]
      exact ⟨Nat.lt_succ_self _, rfl⟩
    | cons id rest =>
      simp only [callStep, Option.some.injEq, Prod.mk.injEq] at h
      rw [← h.2]
      split
      · exact ⟨Nat.lt_succ_self _, rfl⟩
      · refine ⟨?_, rfl⟩
        show 2 < 3 + (rest.length + 1)
        omega
  | fall batch rest seen =>
    cases rest with
    | nil =>
      simp only [callStep, Option.some.injEq, Prod.mk.injEq] at h
      rw [← h.2]
      exact ⟨Nat.one_pos, rfl⟩
    | cons id rest =>
      simp only [callStep, Option.some.injEq, Prod.mk.injEq] at h
      rw [← h.2]
      split
      -- the look at this id is paid by the ten steps it had
      · refine ⟨?_, rfl⟩
        show 10 * rest.length + 2 + 8 < 10 * (rest.length + 1) + 1
        omega
      · exact ⟨Nat.succ_pos _, rfl⟩
  | dropDeferred batch =>
    simp only [callStep, Option.some.injEq, Prod.mk.injEq] at h
    rw [← h.2]
    exact ⟨Nat.lt_succ_self _, rfl⟩
  | dropSorted batch =>
    simp only [callStep, Option.some.injEq, Prod.mk.injEq] at h
    rw [← h.2]
    exact ⟨Nat.lt_succ_self _, rfl⟩
  | leaveDeferred batch answer =>
    simp only [callStep, Option.some.injEq, Prod.mk.injEq] at h
    rw [← h.2]
    exact ⟨Nat.lt_succ_self _, rfl⟩
  | leaveSorted batch answer =>
    simp only [callStep, Option.some.injEq, Prod.mk.injEq] at h
    rw [← h.2]
    exact ⟨Nat.one_pos, rfl⟩

/-! ## Every interleaving -/

theorem kept_cells (x : IdMapIndex) : Kept x (cells (τ := τ) x) := by
  refine ⟨fun hm => ⟨hm, rfl, rfl⟩, fun m hm => ?_⟩
  have hmap : x.idToSlot = some m := hm
  rw [IdMapIndex.table, hmap, Option.getD_some]

theorem at_cells (x : IdMapIndex) (t : τ) : At x t (cells x) .idle :=
  ⟨iff_of_false Bool.false_ne_true (by simp [cells]), iff_of_false Bool.false_ne_true (by simp [cells]), trivial⟩

/-- The ids are coherent in whatever state the readers are. -/
theorem Kept.coherent (hx : x.Coherent) (hk : Kept x s) : (x.withCells s).Coherent where
  rows := hx.rows
  nodup := hx.nodup
  inverts := by
    intro m hm
    rw [hk.table m hm]
    exact hx.table
  sorted := by
    intro hm
    obtain ⟨hnone, hsorted, -⟩ := hk.intact hm
    show s.sorted.Pairwise _
    rw [hsorted]
    exact hx.sorted hnone
  window := by
    intro hm id
    obtain ⟨hnone, hsorted, hdeferred⟩ := hk.intact hm
    show id ∈ s.sorted ∨ id ∈ s.deferred ↔ _
    rw [hsorted, hdeferred]
    exact hx.window hnone id
  dimmed := hx.dimmed

theorem Place.Free.stuck {l : Place} (h : l.Free) : callStep x.slotToId t s l = none := by
  unfold Place.Free at h
  split at h
  · rfl
  · rfl
  · rfl
  · cases h

/-- A place between calls that asks is an answer. -/
theorem Place.Free.answered {l : Place} (h : l.Free) {batch : List UInt64} (hasked : l.asked = some batch) :
    ∃ answer, l = .answered batch answer := by
  cases l with
  | answered batch' answer =>
    rw [Place.asked, Option.some.injEq] at hasked
    exact ⟨answer, by rw [hasked]⟩
  | idle => cases hasked
  | ids p => cases hasked
  | _ => exact absurd h id

/-- A call alone at the index comes to its answer. -/
theorem answers_alone [DecidableEq τ] (hx : x.Coherent) {batch : List UInt64} {n : ℕ} {w : World τ (Cells τ) Place}
    (hk : Kept x w.shared) (hw : ∀ t, At x t w.shared (w.place t)) (hn : (w.place t).rank < n)
    (hothers : ∀ u ≠ t, (w.place u).Free) (hasked : (w.place t).asked = some batch) :
    ∃ w' answer, Reaches (Act x.slotToId) w w' ∧ w'.place t = .answered batch answer := by
  induction n generalizing w with
  | zero => exact absurd hn (Nat.not_lt_zero _)
  | succ n ih =>
    by_cases hfree : (w.place t).Free
    · obtain ⟨answer, hans⟩ := hfree.answered hasked
      exact ⟨w, answer, .refl, hans⟩
    · obtain ⟨u, r, hr⟩ := progress hw hfree
      have hut : u = t := by
        by_contra hne
        rw [(hothers u hne).stuck] at hr
        cases hr
      subst hut
      have hstep : Step (Act x.slotToId) w ⟨r.1, Function.update w.place u r.2⟩ := .mk u (.go hr)
      obtain ⟨hk', hw'⟩ := (outline hx).step hstep hk hw
      obtain ⟨hrank, hask⟩ := callStep_toward hr
      have hself : (World.mk r.1 (Function.update w.place u r.2)).place u = r.2 := Function.update_self _ _ _
      have hothers' : ∀ v ≠ u, ((World.mk r.1 (Function.update w.place u r.2)).place v).Free := by
        intro v hv
        dsimp only
        rw [Function.update_of_ne hv]
        exact hothers v hv
      obtain ⟨w', answer, hreach, hans⟩ := ih hk' hw' (by rw [hself]; omega) hothers' (by rw [hself, hask, hasked])
      exact ⟨w', answer, Relation.ReflTransGen.head hstep hreach, hans⟩

/-- Calls together at the index all come to their answers. -/
theorem answers_all [DecidableEq τ] [Fintype τ] (hx : x.Coherent) {n : ℕ} {w : World τ (Cells τ) Place}
    (hk : Kept x w.shared) (hw : ∀ t, At x t w.shared (w.place t)) (hn : ∑ t, (w.place t).rank < n) :
    ∃ w', Reaches (Act x.slotToId) w w' ∧
      ∀ t batch, (w.place t).asked = some batch → ∃ answer, w'.place t = .answered batch answer := by
  induction n generalizing w with
  | zero => exact absurd hn (Nat.not_lt_zero _)
  | succ n ih =>
    by_cases hfree : ∀ t, (w.place t).Free
    · exact ⟨w, .refl, fun t batch hasked => (hfree t).answered hasked⟩
    · obtain ⟨t, ht⟩ := not_forall.mp hfree
      obtain ⟨u, r, hr⟩ := progress hw ht
      have hstep : Step (Act x.slotToId) w ⟨r.1, Function.update w.place u r.2⟩ := .mk u (.go hr)
      obtain ⟨hk', hw'⟩ := (outline hx).step hstep hk hw
      obtain ⟨hrank, hask⟩ := callStep_toward hr
      have hasked : ∀ v, (Function.update w.place u r.2 v).asked = (w.place v).asked := by
        intro v
        by_cases hv : v = u
        · rw [hv, Function.update_self, hask]
        · rw [Function.update_of_ne hv]
      -- one call is nearer its answer, and the others stay where they are
      have hlt : ∑ v, (Function.update w.place u r.2 v).rank < ∑ v, (w.place v).rank := by
        refine Finset.sum_lt_sum (fun v _ => ?_) ⟨u, Finset.mem_univ u, by rwa [Function.update_self]⟩
        by_cases hv : v = u
        · rw [hv, Function.update_self]
          exact hrank.le
        · rw [Function.update_of_ne hv]
      obtain ⟨w', hreach, hans⟩ := ih hk' hw' (Nat.lt_of_lt_of_le hlt (Nat.le_of_lt_succ hn))
      exact ⟨w', Relation.ReflTransGen.head hstep hreach, fun v batch hv => hans v batch ((hasked v).trans hv)⟩

end

/-! ## Any run, any interleaving -/

section variable (P : Pack.Platform) (T : Tables) (K : Kernels) (S : ScanKernels)

/-- An id map over its whole life: calls with the index to themselves, and between them readers at it
together. -/
inductive Lived : IdMapIndex → Prop
  | new {x : IdMapIndex} {dim bitWidth : ℕ} (h : IdMapIndex.new dim bitWidth = .ok x) : Lived x
  | newLazy {x : IdMapIndex} {bitWidth : ℕ} (h : IdMapIndex.newLazy bitWidth = .ok x) : Lived x
  | fromParts {x : IdMapIndex} {inner : TurboQuantIndex} {ids : List UInt64}
      (hinner : TurboQuantIndex.Reachable P T K S inner) (h : fromIndexAndIds inner ids = .ok x) : Lived x
  | load {x : IdMapIndex} {raw : List UInt8} {path : String} (h : IdMapIndex.load P T raw path = .ok x) :
      Lived x
  | fromBytes {x : IdMapIndex} {raw : List UInt8} (h : IdMapIndex.fromBytes P T raw = .ok x) : Lived x
  | call {x : IdMapIndex} (h : Lived x) (c : Call) : Lived (x.after P T K S c)
  | readers {x : IdMapIndex} (h : Lived x) {τ : Type} [DecidableEq τ] {w : World τ (Cells τ) Place}
      (hr : Reaches (Act x.slotToId) ⟨cells x, fun _ => .idle⟩ w) : Lived (x.withCells w.shared)

end

variable {P : Pack.Platform} {T : Tables} {K : Kernels} {S : ScanKernels} {x : IdMapIndex}

theorem reaches_at {τ : Type} [DecidableEq τ] (hx : x.Coherent) {w : World τ (Cells τ) Place}
    (hr : Reaches (Act x.slotToId) ⟨cells x, fun _ => .idle⟩ w) :
    Kept x w.shared ∧ ∀ t, At x t w.shared (w.place t) :=
  (outline hx).reaches hr (kept_cells x) fun t => at_cells x t

theorem Lived.coherent (h : Lived P T K S x) : x.Coherent := by
  induction h with
  | new h => exact (new_coherent h).1
  | newLazy h => exact (newLazy_coherent h).1
  | fromParts hinner h => exact fromIndexAndIds_coherent hinner.dimmed h
  | load h => exact load_coherent h
  | fromBytes h => exact fromBytes_coherent h
  | call _ c ih => exact ih.after c
  | readers _ hr ih => exact (reaches_at ih hr).1.coherent ih

/-- A batch is addable exactly when an add's up-front check passes it, alone and in every interleaving with
any number of readers. No thread waits for the first lock holding the second, so every call ends. -/
theorem batchAddable_as_add (h : Lived P T K S x) :
    (∀ batch, x.batchAddable batch = true ↔ checkIds x.present batch ∅ = .ok ()) ∧
    ∀ {τ : Type} [DecidableEq τ] {w : World τ (Cells τ) Place},
      Reaches (Act x.slotToId) ⟨cells x, fun _ => .idle⟩ w →
      (∀ t batch answer, w.place t = .answered batch answer → answer = x.batchAddable batch) ∧
      (∀ t, (w.place t).wantsSorted = true → w.shared.deferredLock ≠ some t) ∧
      (∀ t, ¬ (w.place t).Free → ∃ u r, callStep x.slotToId u w.shared (w.place u) = some r) ∧
      (∀ t r, callStep x.slotToId t w.shared (w.place t) = some r →
        r.2.rank < (w.place t).rank ∧ r.2.asked = (w.place t).asked) ∧
      ∀ t batch, (w.place t).asked = some batch → (∀ u ≠ t, (w.place u).Free) →
        ∃ w' answer, Reaches (Act x.slotToId) w w' ∧ w'.place t = .answered batch answer := by
  have hx := h.coherent
  refine ⟨fun batch => batchAddable_iff, fun {τ} _ {w} hr => ?_⟩
  obtain ⟨hk, hw⟩ := reaches_at hx hr
  refine ⟨fun t batch answer hans => ?_, fun t hwant hlock => ?_, fun t ht => progress hw ht,
    fun t r hr => callStep_toward hr, fun t batch hasked hothers =>
      answers_alone hx hk hw (Nat.lt_succ_self _) hothers hasked⟩
  · have hright : Right x batch answer := by
      have := (hw t).fact
      rwa [hans] at this
    rw [Bool.eq_iff_iff, batchAddable_iff, checkIds_eq_ok]
    apply Iff.trans hright
    refine and_congr_right' (forall₂_congr fun id _ => ?_)
    rw [hx.present, decide_eq_false_iff_not]
    simp
  · have hholds := (hw t).deferred.2 hlock
    rw [(Place.wantsSorted_holds hwant).2] at hholds
    cases hholds

/-- Two ids, loaded and not yet asked for. One thread asks for `7` and another for `8`, the second waiting for a lock
of the first; `7` cannot be added and `8` can. -/
theorem batchAddable_as_add_two : ∃ w₁ w : World Bool (Cells Bool) Place,
    Reaches (Act twoIds.slotToId) ⟨cells twoIds, fun _ => .idle⟩ w₁ ∧ w₁.shared.sortedLock = some true ∧
      w₁.place false = .lockSorted [8] ∧ Reaches (Act twoIds.slotToId) w₁ w ∧
      w.place true = .answered [7] false ∧ w.place false = .answered [8] true := by
  have h : Lived plainHost levelTables zeroKernels zeroScan twoIds :=
    .fromParts (.opened twoRows_opened) twoIds_ok
  obtain ⟨hadd, hreach⟩ := batchAddable_as_add h
  have h0 := Relation.ReflTransGen.refl (r := Step (Act twoIds.slotToId)) (a := ⟨cells twoIds, fun _ : Bool => .idle⟩)
  have h1 := h0.tail (.mk true (.batchAddable (l := .idle) trivial [7]))
  have h2 := h1.tail (.mk false (.batchAddable (l := .idle) trivial [8]))
  have h3 := h2.tail (.mk true (.go (l := .probe [7]) rfl))
  have h4 := h3.tail (.mk false (.go (l := .probe [8]) rfl))
  have h5 := h4.tail (.mk true (.go (l := .lockSorted [7]) rfl))
  obtain ⟨hk, hw⟩ := reaches_at h.coherent h5
  obtain ⟨w, hr, hans⟩ := answers_all h.coherent hk hw (Nat.lt_succ_self _)
  have hright := (hreach (h5.trans hr)).1
  obtain ⟨a, ha⟩ := hans true [7] rfl
  obtain ⟨b, hb⟩ := hans false [8] rfl
  refine ⟨_, w, h5, rfl, rfl, hr, ?_, ?_⟩
  · have hno : twoIds.batchAddable [7] = false := by
      rw [← Bool.not_eq_true, hadd, checkIds_eq_ok]
      rintro ⟨-, hnew⟩
      have hpresent := (hnew 7 List.mem_cons_self).1
      rw [h.coherent.present, decide_eq_false_iff_not] at hpresent
      exact hpresent List.mem_cons_self
    rw [ha, hright true [7] a ha, hno]
  · have hyes : twoIds.batchAddable [8] = true := by
      rw [hadd, checkIds_eq_ok]
      refine ⟨List.nodup_singleton 8, fun id hid => ⟨?_, Finset.notMem_empty id⟩⟩
      rw [h.coherent.present, decide_eq_false_iff_not, List.mem_singleton.mp hid]
      decide
    rw [hb, hright false [8] b hb, hyes]

end IdMapIndex

end Turbovec
