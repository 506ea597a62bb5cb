import Mathlib.Data.Set.Basic
import Mathlib.Logic.Function.Basic
import Mathlib.Logic.Relation

/-!
# Threads over a shared state

Any number of threads take atomic steps over one shared state, in any order. An assertion at each thread's
place holds in every reachable world when no thread's step breaks its own assertion or another thread's.
-/

namespace Threads

variable {τ σ ℓ : Type*} [DecidableEq τ]

/-- The shared state and each thread's place. -/
structure World (τ σ ℓ : Type*) where
  shared : σ
  place : τ → ℓ

/-- One step of one thread. -/
inductive Step (act : τ → σ → ℓ → σ → ℓ → Prop) (w : World τ σ ℓ) : World τ σ ℓ → Prop
  | mk (t : τ) {s : σ} {l : ℓ} (h : act t w.shared (w.place t) s l) :
      Step act w ⟨s, Function.update w.place t l⟩

/-- The worlds any interleaving reaches. -/
def Reaches (act : τ → σ → ℓ → σ → ℓ → Prop) : World τ σ ℓ → World τ σ ℓ → Prop :=
  Relation.ReflTransGen (Step act)

variable {act : τ → σ → ℓ → σ → ℓ → Prop} {G : σ → Prop} {A : τ → σ → ℓ → Prop}

/-- An invariant of the shared state and an assertion for each thread, kept by every step of the thread
itself and by every step of another. -/
structure Outline (act : τ → σ → ℓ → σ → ℓ → Prop) (G : σ → Prop) (A : τ → σ → ℓ → Prop) : Prop where
  own : ∀ {t s l s' l'}, act t s l s' l' → G s → A t s l → G s' ∧ A t s' l'
  other : ∀ {t u s l s' l' m}, t ≠ u → act t s l s' l' → G s → A t s l → A u s m → A u s' m

theorem Outline.step (h : Outline act G A) {w w' : World τ σ ℓ} (hs : Step act w w') (hG : G w.shared)
    (hA : ∀ t, A t w.shared (w.place t)) : G w'.shared ∧ ∀ t, A t w'.shared (w'.place t) := by
  obtain ⟨t, hact⟩ := hs
  obtain ⟨hG', hA'⟩ := h.own hact hG (hA t)
  refine ⟨hG', fun u => ?_⟩
  by_cases hut : u = t
  · subst hut
    dsimp only
    rwa [Function.update_self]
  · dsimp only
    rw [Function.update_of_ne hut]
    exact h.other (Ne.symm hut) hact hG (hA t) (hA u)

/-- The assertions hold in every reachable world. -/
theorem Outline.reaches (h : Outline act G A) {w w' : World τ σ ℓ} (hr : Reaches act w w')
    (hG : G w.shared) (hA : ∀ t, A t w.shared (w.place t)) :
    G w'.shared ∧ ∀ t, A t w'.shared (w'.place t) := by
  induction hr with
  | refl => exact ⟨hG, hA⟩
  | tail _ hs ih => exact h.step hs ih.1 ih.2

end Threads
