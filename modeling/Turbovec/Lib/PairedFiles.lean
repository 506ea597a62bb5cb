import Mathlib.Logic.Function.Basic

/-!
# Two files saved as a pair

Several writers save pairs of files at the same two names. A save writes both under temporary names and
then replaces the first and the second, each replacement in one step; any writer can stop for good between
two steps. Whatever is read afterwards was written by some save, but the two files may be of different ones.

The first file holds rows under keys. Where no writer issues a key that lies in another writer's rows, in a save under
way or in the files, all the first files about agree on the keys they share.
-/

namespace Turbovec.PairedFiles

/-- A kind of store that is saved as a pair of files and loaded from one. -/
structure Saver (St I S : Type) where
  Saves : St → I × S → Prop
  Fresh : St → Prop
  Changes : St → St → Prop
  Loads : I → S → St → Prop

/-- How far a save has come. -/
inductive Progress where
  | written
  | firstReplaced

/-- The stores, their saves under way, for each of the two files the pair it is a half of, and every pair a save was
begun for. -/
structure World (κ St I S : Type) where
  store : κ → St
  saving : κ → Option (Progress × I × S)
  first : Option (I × S)
  second : Option (I × S)
  saves : List (I × S)

section

variable {κ St I S : Type} [DecidableEq κ] (sys : Saver St I S)

/-- One step of the stores: a store holds its lock while it saves, so that it changes between saves only. A change
may have to meet a condition. -/
inductive Step (ok : World κ St I S → κ → St → Prop) : World κ St I S → World κ St I S → Prop
  | change (w : World κ St I S) (k : κ) (t : St) (hk : w.saving k = none)
      (ht : sys.Changes (w.store k) t) (hok : ok w k t) : Step ok w { w with store := Function.update w.store k t }
  | begin (w : World κ St I S) (k : κ) (p : I × S) (hk : w.saving k = none) (hp : sys.Saves (w.store k) p) : Step ok w
      { w with saving := Function.update w.saving k (some (.written, p)), saves := p :: w.saves }
  | replaceFirst (w : World κ St I S) (k : κ) (p : I × S) (hk : w.saving k = some (.written, p)) : Step ok w
      { w with saving := Function.update w.saving k (some (.firstReplaced, p)), first := some p }
  | replaceSecond (w : World κ St I S) (k : κ) (p : I × S)
      (hk : w.saving k = some (.firstReplaced, p)) : Step ok w
      { w with saving := Function.update w.saving k none, second := some p }
  -- A crash loses the store; a failed replacement gives up the save and keeps it.
  | crash (w : World κ St I S) (k : κ) (t : St) (ht : sys.Fresh t ∨ t = w.store k) : Step ok w
      { w with saving := Function.update w.saving k none, store := Function.update w.store k t }
  | load (w : World κ St I S) (k : κ) (t : St) (a b : I × S) (hk : w.saving k = none)
      (ha : w.first = some a) (hb : w.second = some b) (ht : sys.Loads a.1 b.2 t) :
      Step ok w { w with store := Function.update w.store k t }

/-- What fresh stores reach, from no files. -/
inductive Reached (ok : World κ St I S → κ → St → Prop) : World κ St I S → Prop
  | start (store : κ → St) (h : ∀ k, sys.Fresh (store k)) :
      Reached ok { store, saving := fun _ => none, first := none, second := none, saves := [] }
  | step {w w' : World κ St I S} (h : Reached ok w) (hstep : Step sys ok w w') : Reached ok w'

/-! ## What is about -/

/-- Where a pair lies: in a store that can be saved as it, in a save under way, or in one of the files. -/
inductive Holder (κ : Type) where
  | store (k : κ)
  | saving (k : κ)
  | first
  | second

def World.Holds (w : World κ St I S) : Holder κ → I × S → Prop
  | .store k, p => sys.Saves (w.store k) p
  | .saving k, p => ∃ b, w.saving k = some (b, p)
  | .first, p => w.first = some p
  | .second, p => w.second = some p

variable {sys} {ok : World κ St I S → κ → St → Prop} {w w' : World κ St I S}

omit [DecidableEq κ] in
theorem World.holds_of {P : I × S → Prop} (hstore : ∀ k p, sys.Saves (w.store k) p → P p)
    (hsaving : ∀ k b p, w.saving k = some (b, p) → P p) (hfirst : ∀ p, w.first = some p → P p)
    (hsecond : ∀ p, w.second = some p → P p) : ∀ x p, w.Holds sys x p → P p := by
  intro x p hp
  cases x with
  | store k => exact hstore k p hp
  | saving k =>
    obtain ⟨b, hb⟩ := hp
    exact hsaving k b p hb
  | first => exact hfirst p hp
  | second => exact hsecond p hp

theorem of_update {β : Type} {f : κ → β} {k k' : κ} {o b : β} (h : Function.update f k o k' = b) :
    (k' = k ∧ o = b) ∨ k' ≠ k ∧ f k' = b := by
  rw [Function.update_apply] at h
  split at h
  next heq => exact Or.inl ⟨heq, h⟩
  next hne => exact Or.inr ⟨hne, h⟩

/-- The files, and what waits to replace them, are of saves begun before. -/
structure FromSaves (w : World κ St I S) : Prop where
  saving : ∀ k b p, w.saving k = some (b, p) → p ∈ w.saves
  first : ∀ p, w.first = some p → p ∈ w.saves
  second : ∀ p, w.second = some p → p ∈ w.saves

theorem FromSaves.step (h : FromSaves w) (hstep : Step sys ok w w') : FromSaves w' := by
  cases hstep with
  | change k t hk ht hok => exact ⟨h.saving, h.first, h.second⟩
  | begin k p hk hp =>
    refine ⟨fun k' b q hq => ?_, fun q hq => List.mem_cons_of_mem _ (h.first q hq),
      fun q hq => List.mem_cons_of_mem _ (h.second q hq)⟩
    rcases of_update hq with ⟨-, heq⟩ | ⟨-, hq⟩
    · rw [Option.some.injEq, Prod.mk.injEq] at heq
      exact heq.2 ▸ List.mem_cons_self
    · exact List.mem_cons_of_mem _ (h.saving k' b q hq)
  | replaceFirst k p hk =>
    have hp := h.saving k _ p hk
    refine ⟨fun k' b q hq => ?_, fun q hq => Option.some.inj hq ▸ hp, h.second⟩
    rcases of_update hq with ⟨-, heq⟩ | ⟨-, hq⟩
    · rw [Option.some.injEq, Prod.mk.injEq] at heq
      exact heq.2 ▸ hp
    · exact h.saving k' b q hq
  | replaceSecond k p hk =>
    refine ⟨fun k' b q hq => ?_, h.first, fun q hq => Option.some.inj hq ▸ h.saving k _ p hk⟩
    rcases of_update hq with ⟨-, heq⟩ | ⟨-, hq⟩
    · cases heq
    · exact h.saving k' b q hq
  | crash k t ht =>
    refine ⟨fun k' b q hq => ?_, h.first, h.second⟩
    rcases of_update hq with ⟨-, heq⟩ | ⟨-, hq⟩
    · cases heq
    · exact h.saving k' b q hq
  | load k t a b hk ha hb ht => exact ⟨h.saving, h.first, h.second⟩

theorem Reached.fromSaves (h : Reached sys ok w) : FromSaves w := by
  induction h with
  | start store hfresh => exact ⟨fun k b p hp => (by cases hp), fun p hp => (by cases hp), fun p hp => (by cases hp)⟩
  | step _ hstep ih => exact ih.step hstep

/-- Where a store that a step has left comes from, when no call has changed it. -/
def Renewed (sys : Saver St I S) (w : World κ St I S) (t : St) : Prop :=
  sys.Fresh t ∨ ∃ a b, w.first = some a ∧ w.second = some b ∧ sys.Loads a.1 b.2 t

/-- A step changes a store by a call, or leaves only pairs that were about before and stores that are new, loaded or
the old ones. -/
theorem Step.origin (hstep : Step sys ok w w') :
    (∃ k t, w' = { w with store := Function.update w.store k t } ∧ ok w k t) ∨
      (∀ x p, w'.Holds sys x p → (∃ y, w.Holds sys y p) ∨ ∃ t, Renewed sys w t ∧ sys.Saves t p) ∧
        ∀ k, w'.store k = w.store k ∨ Renewed sys w (w'.store k) := by
  have hstore : ∀ {p} k, sys.Saves (w.store k) p → (∃ y, w.Holds sys y p) ∨ ∃ t, Renewed sys w t ∧ sys.Saves t p :=
    fun k hp => Or.inl ⟨.store k, hp⟩
  have hsaving : ∀ {p} k b, w.saving k = some (b, p) →
      (∃ y, w.Holds sys y p) ∨ ∃ t, Renewed sys w t ∧ sys.Saves t p := fun k b hp => Or.inl ⟨.saving k, b, hp⟩
  have hfirst : ∀ p, w.first = some p → (∃ y, w.Holds sys y p) ∨ ∃ t, Renewed sys w t ∧ sys.Saves t p :=
    fun p hp => Or.inl ⟨.first, hp⟩
  have hsecond : ∀ p, w.second = some p → (∃ y, w.Holds sys y p) ∨ ∃ t, Renewed sys w t ∧ sys.Saves t p :=
    fun p hp => Or.inl ⟨.second, hp⟩
  -- Only the stores can hold a pair that was not about; the files and the saves take theirs from one another.
  cases hstep with
  | change k t hk ht hok => exact Or.inl ⟨k, t, rfl, hok⟩
  | begin k p hk hp =>
    refine Or.inr ⟨World.holds_of (fun k' q hq => hstore k' hq) (fun k' b q hq => ?_) hfirst hsecond,
      fun _ => Or.inl rfl⟩
    rcases of_update hq with ⟨-, heq⟩ | ⟨-, hq⟩
    · rw [Option.some.injEq, Prod.mk.injEq] at heq
      exact hstore k (heq.2 ▸ hp)
    · exact hsaving k' b hq
  | replaceFirst k p hk =>
    refine Or.inr ⟨World.holds_of (fun k' q hq => hstore k' hq) (fun k' b q hq => ?_)
      (fun q hq => hsaving k _ (Option.some.inj hq ▸ hk)) hsecond, fun _ => Or.inl rfl⟩
    rcases of_update hq with ⟨-, heq⟩ | ⟨-, hq⟩
    · rw [Option.some.injEq, Prod.mk.injEq] at heq
      exact hsaving k _ (heq.2 ▸ hk)
    · exact hsaving k' b hq
  | replaceSecond k p hk =>
    refine Or.inr ⟨World.holds_of (fun k' q hq => hstore k' hq) (fun k' b q hq => ?_) hfirst
      (fun q hq => hsaving k _ (Option.some.inj hq ▸ hk)), fun _ => Or.inl rfl⟩
    rcases of_update hq with ⟨-, heq⟩ | ⟨-, hq⟩
    · cases heq
    · exact hsaving k' b hq
  | crash k t ht =>
    have hnew : ∀ k', Function.update w.store k t k' = w.store k' ∨ Renewed sys w (Function.update w.store k t k') := by
      intro k'
      rcases of_update (rfl : Function.update w.store k t k' = _) with ⟨rfl, heq⟩ | ⟨-, heq⟩
      · rw [← heq]
        exact ht.symm.imp_right Or.inl
      · exact Or.inl heq.symm
    refine Or.inr ⟨World.holds_of (fun k' q hq => ?_) (fun k' b q hq => ?_) hfirst hsecond, hnew⟩
    · rcases hnew k' with heq | hre
      · exact hstore k' (heq ▸ hq)
      · exact Or.inr ⟨_, hre, hq⟩
    · rcases of_update hq with ⟨-, heq⟩ | ⟨-, hq⟩
      · cases heq
      · exact hsaving k' b hq
  | load k t a b hk ha hb ht =>
    have hnew : ∀ k', Function.update w.store k t k' = w.store k' ∨ Renewed sys w (Function.update w.store k t k') := by
      intro k'
      rcases of_update (rfl : Function.update w.store k t k' = _) with ⟨-, heq⟩ | ⟨-, heq⟩
      · rw [← heq]
        exact Or.inr (Or.inr ⟨a, b, ha, hb, ht⟩)
      · exact Or.inl heq.symm
    refine Or.inr ⟨World.holds_of (fun k' q hq => ?_) (fun k' b q hq => hsaving k' b hq) hfirst hsecond, hnew⟩
    rcases hnew k' with heq | hre
    · exact hstore k' (heq ▸ hq)
    · exact Or.inr ⟨_, hre, hq⟩

/-! ## Agreement -/

variable {H V : Type} (row : I → H → Option V)

/-- The first files have the same row under each key they share. -/
def Agree (i j : I) : Prop := ∀ h v v', row i h = some v → row j h = some v' → v = v'

/-- The laws of a kind of store whose changes keep what they find: a changed store has rows of before and rows under
keys that the change issued, and a loaded one those of the first file. -/
structure Lawful (sys : Saver St I S) (row : I → H → Option V) (Issues : St → St → H → Prop) (Keeps : St → St → Prop)
    (Inv : St → Prop) : Prop where
  one : ∀ s p q, sys.Saves s p → sys.Saves s q → p.1 = q.1
  fresh : ∀ t, sys.Fresh t → Inv t ∧ ∀ p, sys.Saves t p → ∀ h, row p.1 h = none
  changes : ∀ s t, Inv s → Keeps s t → Inv t ∧ ∀ p h v, sys.Saves t p → row p.1 h = some v →
    (∃ q, sys.Saves s q ∧ row q.1 h = some v) ∨ Issues s t h
  loads : ∀ i j t, sys.Loads i j t → Inv t ∧ ∀ p, sys.Saves t p → p.1 = i

variable (sys) (Issues : St → St → H → Prop) (Keeps : St → St → Prop)

/-- A change that keeps what it finds and issues no key of another store, of a save under way or of the files. -/
def Careful (w : World κ St I S) (k : κ) (t : St) : Prop :=
  Keeps (w.store k) t ∧
    ∀ h, Issues (w.store k) t h → ∀ x, x ≠ .store k → ∀ q, w.Holds sys x q → row q.1 h = none

variable {sys row Issues Keeps} {Inv : St → Prop}

/-- What a run of careful changes keeps: the pairs about are those of stores that keep the invariant, and all their
first files agree. -/
structure Matched (sys : Saver St I S) (row : I → H → Option V) (Inv : St → Prop) (w : World κ St I S) : Prop where
  saved : ∀ x p, w.Holds sys x p → ∃ s, Inv s ∧ sys.Saves s p
  store : ∀ k, Inv (w.store k)
  agree : ∀ x y p q, w.Holds sys x p → w.Holds sys y q → Agree row p.1 q.1

/-- A careful change. -/
theorem Matched.change (hl : Lawful sys row Issues Keeps Inv) (hw : Matched sys row Inv w) {k : κ} {t : St}
    (hok : Careful sys row Issues Keeps w k t) :
    Matched sys row Inv { w with store := Function.update w.store k t } := by
  obtain ⟨hkeeps, hfree⟩ := hok
  obtain ⟨ht, hrows⟩ := hl.changes _ t (hw.store k) hkeeps
  -- Every other holder holds what it held.
  have hother : ∀ x p, World.Holds sys { w with store := Function.update w.store k t } x p →
      sys.Saves t p ∨ x ≠ .store k ∧ w.Holds sys x p := by
    intro x p hp
    cases x with
    | store k' =>
      change sys.Saves (Function.update w.store k t k') p at hp
      rcases of_update (rfl : Function.update w.store k t k' = _) with ⟨-, heq⟩ | ⟨hne, heq⟩
      · rw [← heq] at hp
        exact Or.inl hp
      · rw [← heq] at hp
        exact Or.inr ⟨fun h => hne (by injection h), hp⟩
    | saving k' => exact Or.inr ⟨fun h => (by cases h), hp⟩
    | first => exact Or.inr ⟨fun h => (by cases h), hp⟩
    | second => exact Or.inr ⟨fun h => (by cases h), hp⟩
  have hnew : ∀ p q y, sys.Saves t p → y ≠ .store k → w.Holds sys y q → Agree row p.1 q.1 := by
    intro p q y hp hy hq h v v' hv hv'
    rcases hrows p h v hp hv with ⟨p₀, hp₀, hv₀⟩ | hissued
    · exact hw.agree (.store k) y p₀ q hp₀ hq h v v' hv₀ hv'
    · rw [hfree h hissued y hy q hq] at hv'
      cases hv'
  refine ⟨fun x p hp => ?_, fun k' => ?_, fun x y p q hp hq => ?_⟩
  · rcases hother x p hp with hsave | ⟨-, hheld⟩
    · exact ⟨t, ht, hsave⟩
    · exact hw.saved x p hheld
  · show Inv (Function.update w.store k t k')
    rcases of_update (rfl : Function.update w.store k t k' = _) with ⟨-, heq⟩ | ⟨-, heq⟩
    · rw [← heq]
      exact ht
    · rw [← heq]
      exact hw.store k'
  · rcases hother x p hp with hsave | ⟨hx, hheld⟩ <;> rcases hother y q hq with hsave' | ⟨hy, hheld'⟩
    · intro h v v' hv hv'
      rw [hl.one t p q hsave hsave', hv'] at hv
      exact (Option.some.inj hv).symm
    · exact hnew p q y hsave hy hheld'
    · intro h v v' hv hv'
      exact (hnew q p x hsave' hx hheld h v' v hv' hv).symm
    · exact hw.agree x y p q hheld hheld'

/-- In a run of careful changes all the first files about agree. -/
theorem Reached.matched (hl : Lawful sys row Issues Keeps Inv) (h : Reached sys (Careful sys row Issues Keeps) w) :
    Matched sys row Inv w := by
  induction h with
  | start store hfresh =>
    have hinv := fun k => (hl.fresh _ (hfresh k)).1
    have hnone := fun k => (hl.fresh _ (hfresh k)).2
    refine ⟨World.holds_of (fun k p hp => ⟨_, hinv k, hp⟩) ?_ ?_ ?_, hinv, fun x y p q hp _ h v v' hv => ?_⟩
    · intro k b p hp
      cases hp
    · intro p hp
      cases hp
    · intro p hp
      cases hp
    · have hempty : ∀ x p, World.Holds sys ⟨store, fun _ => none, none, none, []⟩ x p → row p.1 h = none :=
        World.holds_of (fun k p hp => hnone k p hp h) (fun k b p hp => (by cases hp)) (fun p hp => (by cases hp))
          fun p hp => (by cases hp)
      rw [hempty x p hp] at hv
      cases hv
  | @step w w' _ hstep ih =>
    rcases hstep.origin with ⟨k, t, rfl, hok⟩ | ⟨hheld, hstores⟩
    · exact ih.change hl hok
    -- A renewed store is empty, or has the rows of the first file.
    have hrenewed : ∀ t, Renewed sys w t → Inv t ∧ ∀ p, sys.Saves t p →
        (∃ y q, w.Holds sys y q ∧ q.1 = p.1) ∨ ∀ h, row p.1 h = none := by
      rintro t (hf | ⟨a, b, ha, -, ht⟩)
      · exact ⟨(hl.fresh t hf).1, fun p hp => Or.inr ((hl.fresh t hf).2 p hp)⟩
      · obtain ⟨hinv, hsame⟩ := hl.loads _ _ t ht
        exact ⟨hinv, fun p hp => Or.inl ⟨.first, a, ha, (hsame p hp).symm⟩⟩
    have hsource : ∀ x p, w'.Holds sys x p → (∃ y q, w.Holds sys y q ∧ q.1 = p.1) ∨ ∀ h, row p.1 h = none := by
      intro x p hp
      rcases hheld x p hp with ⟨y, hy⟩ | ⟨t, ht, hsave⟩
      · exact Or.inl ⟨y, p, hy, rfl⟩
      · exact (hrenewed t ht).2 p hsave
    refine ⟨fun x p hp => ?_, fun k => ?_, fun x y p q hp hq h v v' hv hv' => ?_⟩
    · rcases hheld x p hp with ⟨y, hy⟩ | ⟨t, ht, hsave⟩
      · exact ih.saved y p hy
      · exact ⟨t, (hrenewed t ht).1, hsave⟩
    · rcases hstores k with heq | hre
      · exact heq ▸ ih.store k
      · exact (hrenewed _ hre).1
    · rcases hsource x p hp with ⟨x₀, p₀, hp₀, hpp⟩ | hnone
      · rcases hsource y q hq with ⟨y₀, q₀, hq₀, hqq⟩ | hnone
        · exact ih.agree x₀ y₀ p₀ q₀ hp₀ hq₀ h v v' (hpp ▸ hv) (hqq ▸ hv')
        · rw [hnone] at hv'
          cases hv'
      · rw [hnone] at hv
        cases hv

end

end Turbovec.PairedFiles
