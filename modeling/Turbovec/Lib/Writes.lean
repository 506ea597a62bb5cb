import Turbovec.Lib.Slice

/-!
# Runs of positioned writes

A run of positioned writes into one file. A window that no write of the run meets is held throughout; where the writes
of a run do not meet each other, the file ends up holding every one of them.
-/

namespace Slice

variable {α : Type}

/-- Positioned writes, one after another. -/
def writeAll (filler : α) (l : List α) (ops : List (ℕ × List α)) : List α :=
  ops.foldl (fun l op => writeAt filler l op.1 op.2) l

/-- Two windows that do not meet. -/
def Apart (a b : ℕ × List α) : Prop := a.1 + a.2.length ≤ b.1 ∨ b.1 + b.2.length ≤ a.1

theorem Apart.symm {a b : ℕ × List α} (h : Apart a b) : Apart b a := Or.symm h

section

variable {filler : α} {l xs : List α} {ops : List (ℕ × List α)} {off : ℕ}

/-- Writing never shortens a file. -/
theorem length_le_length_writeAll : l.length ≤ (writeAll filler l ops).length := by
  induction ops generalizing l with
  | nil => exact Nat.le_refl _
  | cons op ops ih => exact (length_le_length_writeAt filler l op.1 op.2).trans ih

/-- A window no write meets is as it was. -/
theorem Holds.writeAll (h : Holds l off xs) (hd : ∀ op ∈ ops, Apart op (off, xs)) :
    Holds (writeAll filler l ops) off xs := by
  induction ops generalizing l with
  | nil => exact h
  | cons op ops ih =>
    exact ih (h.writeAt_of_disjoint filler (hd op List.mem_cons_self)) fun op' hop' =>
      hd op' (List.mem_cons_of_mem op hop')

/-- Writes that do not meet each other are all there in the end. -/
theorem holds_writeAll (hp : ops.Pairwise Apart) {op : ℕ × List α} (hop : op ∈ ops) (hne : op.2 ≠ []) :
    Holds (writeAll filler l ops) op.1 op.2 := by
  induction ops generalizing l with
  | nil => cases hop
  | cons first ops ih =>
    rw [List.pairwise_cons] at hp
    rcases List.mem_cons.mp hop with rfl | hop
    · -- the write itself, and then writes apart from it
      exact (holds_writeAt_self filler l op.1 hne).writeAll fun op' hop' => (hp.1 op' hop').symm
    · exact ih hp.2 hop

/-- A window that each write fills or does not meet is as it was, or filled. -/
theorem holds_writeAll_or {ys : List α} (h : Holds l off xs ∨ Holds l off ys) (hne : ys ≠ [])
    (hd : ∀ op ∈ ops, op = (off, ys) ∨ Apart op (off, xs) ∧ Apart op (off, ys)) :
    Holds (writeAll filler l ops) off xs ∨ Holds (writeAll filler l ops) off ys := by
  induction ops generalizing l with
  | nil => exact h
  | cons op ops ih =>
    refine ih ?_ fun op' hop' => hd op' (List.mem_cons_of_mem op hop')
    rcases hd op List.mem_cons_self with rfl | ⟨hx, hy⟩
    · exact Or.inr (holds_writeAt_self filler l off hne)
    · rcases h with h | h
      · exact Or.inl (h.writeAt_of_disjoint filler hx)
      · exact Or.inr (h.writeAt_of_disjoint filler hy)

end

end Slice
