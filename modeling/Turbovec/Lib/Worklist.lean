import Mathlib.Algebra.BigOperators.Group.Finset.Basic
import Mathlib.Data.Fintype.Basic
import Mathlib.Logic.Relation

/-!
# Walks with a stack and a visited set

A walk pops an entry, skips it if it stands at a place visited before, and otherwise checks it and pushes its children.
Two entries at one place have the same children and pass the same check, so that a walk which ends without an error has
checked every object reachable from where it started. It takes at most as many turns as there are edges.
-/

namespace Worklist

/-- What a walk does: entries stand for objects, some of which have a place; visiting an entry checks it and gives its
children, the last one to be popped first. -/
structure Walk (N O L ε : Type*) where
  obj : N → O
  place : O → Option L
  visit : N → Except ε (List N)

variable {N O L ε : Type*}

section run

variable [DecidableEq L] (W : Walk N O L ε)

/-- The walk; none when it is out of fuel. -/
def Walk.run : ℕ → List N → Finset L → Option (Except ε Unit)
  | _, [], _ => some (.ok ())
  | 0, _ :: _, _ => none
  | fuel + 1, n :: stack, seen =>
    match W.place (W.obj n) with
    | some l =>
      if l ∈ seen then Walk.run fuel stack seen
      else match W.visit n with
        | .error e => some (.error e)
        | .ok children => Walk.run fuel (children.reverse ++ stack) (insert l seen)
    | none =>
      match W.visit n with
      | .error e => some (.error e)
      | .ok _ => Walk.run fuel stack seen

end run

/-- A walk over a graph, which raises at the bad objects. -/
structure Walk.Over (W : Walk N O L ε) (Child : O → O → Prop) (Bad : O → Prop) : Prop where
  /-- a place is of one object -/
  inj : ∀ {o o' l}, W.place o = some l → W.place o' = some l → o = o'
  /-- an object without a place is a leaf -/
  leaf : ∀ {o o'}, W.place o = none → ¬Child o o'
  raised : ∀ {n e}, W.visit n = .error e → Bad (W.obj n)
  passed : ∀ {n children}, W.visit n = .ok children →
    ¬Bad (W.obj n) ∧ ∀ o, Child (W.obj n) o ↔ ∃ m ∈ children, W.obj m = o

namespace Walk

variable {W : Walk N O L ε} {Child : O → O → Prop} {Bad : O → Prop}

/-! ## What has been done -/

/-- What a walk has done at some turn: a checked object's children are checked, seen or still to come. -/
structure Covers (W : Walk N O L ε) (Child : O → O → Prop) (Bad : O → Prop) (Done : O → Prop) (stack : List N)
    (seen : Finset L) : Prop where
  seen : ∀ {o l}, W.place o = some l → l ∈ seen → Done o
  good : ∀ {o}, Done o → ¬Bad o
  children : ∀ {o o'}, Done o → Child o o' → Done o' ∨ ∃ n ∈ stack, W.obj n = o'

/-- An object checked once more covers what it covered before, and its children are to come. -/
theorem Covers.visit {Done : O → Prop} {n : N} {stack : List N} {seen : Finset L}
    (h : Covers W Child Bad Done (n :: stack) seen) (hW : W.Over Child Bad) {children : List N}
    (hv : W.visit n = .ok children) (seen' : Finset L)
    (hseen : ∀ {o l}, W.place o = some l → l ∈ seen' → l ∈ seen ∨ o = W.obj n) :
    Covers W Child Bad (fun o => Done o ∨ o = W.obj n) (children.reverse ++ stack) seen' where
  seen hl hmem := (hseen hl hmem).imp (h.seen hl) id
  good hdone := by
    rcases hdone with hdone | rfl
    · exact h.good hdone
    · exact (hW.passed hv).1
  children := by
    rintro o o' (hdone | rfl) hchild
    · rcases h.children hdone hchild with hdone' | ⟨m, hm, rfl⟩
      · exact Or.inl (Or.inl hdone')
      · rcases List.mem_cons.mp hm with rfl | hm
        · exact Or.inl (Or.inr rfl)
        · exact Or.inr ⟨m, List.mem_append_right _ hm, rfl⟩
    · obtain ⟨m, hm, rfl⟩ := ((hW.passed hv).2 o').mp hchild
      exact Or.inr ⟨m, List.mem_append_left _ (List.mem_reverse.mpr hm), rfl⟩

/-! ## Ends -/

section ends

variable [DecidableEq L]

/-- An error is of a visit to an entry with any property the children of an entry inherit. -/
theorem run_error {P : N → Prop} (hP : ∀ n children, P n → W.visit n = .ok children → ∀ m ∈ children, P m)
    {fuel : ℕ} {stack : List N} {seen : Finset L} (hstack : ∀ n ∈ stack, P n) {e : ε}
    (h : W.run fuel stack seen = some (.error e)) : ∃ n, P n ∧ W.visit n = .error e := by
  induction fuel generalizing stack seen with
  | zero =>
    cases stack with
    | nil => cases h
    | cons n stack => cases h
  | succ fuel ih =>
    cases stack with
    | nil => cases h
    | cons n stack =>
      have hn : P n := hstack n List.mem_cons_self
      have hrest : ∀ m ∈ stack, P m := fun m hm => hstack m (List.mem_cons_of_mem n hm)
      rw [run] at h
      cases hv : W.visit n with
      | error e' =>
        rw [hv] at h
        cases hl : W.place (W.obj n) with
        | none =>
          rw [hl] at h
          cases h
          exact ⟨n, hn, hv⟩
        | some l =>
          rw [hl] at h
          dsimp only at h
          split at h
          · exact ih hrest h
          · cases h
            exact ⟨n, hn, hv⟩
      | ok children =>
        rw [hv] at h
        cases hl : W.place (W.obj n) with
        | none =>
          rw [hl] at h
          exact ih hrest h
        | some l =>
          rw [hl] at h
          dsimp only at h
          split at h
          · exact ih hrest h
          · refine ih (fun m hm => ?_) h
            rcases List.mem_append.mp hm with hm | hm
            · exact hP n children hn hv m (List.mem_reverse.mp hm)
            · exact hrest m hm

/-- A walk that ends has checked some objects: those it had, those on its stack, and all their children. -/
theorem run_ok (hW : W.Over Child Bad) {fuel : ℕ} {stack : List N} {seen : Finset L} {Done : O → Prop}
    (hcov : Covers W Child Bad Done stack seen) (h : W.run fuel stack seen = some (.ok ())) :
    ∃ All : O → Prop, (∀ o, Done o → All o) ∧ (∀ n ∈ stack, All (W.obj n)) ∧ (∀ o, All o → ¬Bad o) ∧
      ∀ o o', All o → Child o o' → All o' := by
  induction fuel generalizing stack seen Done with
  | zero =>
    cases stack with
    | nil =>
      refine ⟨Done, fun _ => id, nofun, fun _ => hcov.good, fun o o' ho hchild => ?_⟩
      exact (hcov.children ho hchild).resolve_right nofun
    | cons n stack => cases h
  | succ fuel ih =>
    cases stack with
    | nil =>
      refine ⟨Done, fun _ => id, nofun, fun _ => hcov.good, fun o o' ho hchild => ?_⟩
      exact (hcov.children ho hchild).resolve_right nofun
    | cons n stack =>
      rw [run] at h
      cases hl : W.place (W.obj n) with
      | none =>
        rw [hl] at h
        cases hv : W.visit n with
        | error e =>
          rw [hv] at h
          cases h
        | ok children =>
          rw [hv] at h
          -- a leaf has no children to push
          have hnil : children = [] := by
            cases children with
            | nil => rfl
            | cons m children => exact absurd (((hW.passed hv).2 _).mpr ⟨m, List.mem_cons_self, rfl⟩) (hW.leaf hl)
          have hcov' := hcov.visit hW hv seen fun _ hmem => Or.inl hmem
          rw [hnil, List.reverse_nil, List.nil_append] at hcov'
          obtain ⟨All, hdone, hstack, hgood, hclosed⟩ := ih hcov' h
          refine ⟨All, fun o ho => hdone o (Or.inl ho), ?_, hgood, hclosed⟩
          intro m hm
          rcases List.mem_cons.mp hm with rfl | hm
          · exact hdone _ (Or.inr rfl)
          · exact hstack m hm
      | some l =>
        rw [hl] at h
        dsimp only at h
        split at h
        next hmem =>
          -- skipped: another entry stood there
          have hskip : Covers W Child Bad Done stack seen := by
            refine ⟨hcov.seen, hcov.good, fun ho hchild => ?_⟩
            rcases hcov.children ho hchild with hdone | ⟨m, hm, rfl⟩
            · exact Or.inl hdone
            · rcases List.mem_cons.mp hm with rfl | hm
              · exact Or.inl (hcov.seen hl hmem)
              · exact Or.inr ⟨m, hm, rfl⟩
          obtain ⟨All, hdone, hstack, hgood, hclosed⟩ := ih hskip h
          refine ⟨All, hdone, ?_, hgood, hclosed⟩
          intro m hm
          rcases List.mem_cons.mp hm with rfl | hm
          · exact hdone _ (hcov.seen hl hmem)
          · exact hstack m hm
        next hmem =>
          cases hv : W.visit n with
          | error e =>
            rw [hv] at h
            cases h
          | ok children =>
            rw [hv] at h
            have hcov' := hcov.visit hW hv (insert l seen) fun ho hmem => by
              rcases Finset.mem_insert.mp hmem with rfl | hmem
              · exact Or.inr (hW.inj ho hl)
              · exact Or.inl hmem
            obtain ⟨All, hdone, hstack, hgood, hclosed⟩ := ih hcov' h
            refine ⟨All, fun o ho => hdone o (Or.inl ho), ?_, hgood, hclosed⟩
            intro m hm
            rcases List.mem_cons.mp hm with rfl | hm
            · exact hdone _ (Or.inr rfl)
            · exact hstack m (List.mem_append_right _ hm)

/-- A walk from one entry that ends without an error ends where every reachable object is good, and one that ends with
an error has reached a bad one. -/
theorem run_iff (hW : W.Over Child Bad) {fuel : ℕ} {n : N} {r : Except ε Unit} (h : W.run fuel [n] ∅ = some r) :
    (∃ e, r = .error e) ↔ ∃ o, Relation.ReflTransGen Child (W.obj n) o ∧ Bad o := by
  constructor
  · rintro ⟨e, rfl⟩
    have hreach : ∀ m children, Relation.ReflTransGen Child (W.obj n) (W.obj m) → W.visit m = .ok children →
        ∀ m' ∈ children, Relation.ReflTransGen Child (W.obj n) (W.obj m') := by
      intro m children hm hv m' hm'
      exact hm.tail (((hW.passed hv).2 _).mpr ⟨m', hm', rfl⟩)
    obtain ⟨m, hm, hv⟩ := run_error (P := fun m => Relation.ReflTransGen Child (W.obj n) (W.obj m)) hreach
      (fun m hm => by rw [List.mem_singleton.mp hm]) h
    exact ⟨_, hm, hW.raised hv⟩
  · rintro ⟨o, ho, hbad⟩
    cases r with
    | error e => exact ⟨e, rfl⟩
    | ok u =>
      have hcov : Covers W Child Bad (fun _ => False) [n] ∅ :=
        ⟨fun _ hmem => absurd hmem (Finset.notMem_empty _), False.elim, False.elim⟩
      obtain ⟨All, -, hstack, hgood, hclosed⟩ := run_ok hW hcov h
      have hall : ∀ o, Relation.ReflTransGen Child (W.obj n) o → All o := by
        intro o ho
        induction ho with
        | refl => exact hstack n List.mem_cons_self
        | tail _ hchild ih => exact hclosed _ _ ih hchild
      exact absurd hbad (hgood o (hall o ho))

/-! ## Fuel -/

/-- A walk needs no more turns than entries on its stack and edges out of places not seen. -/
theorem run_some [Fintype L] {weight : L → ℕ} (hweight : ∀ {n l children}, W.place (W.obj n) = some l →
    W.visit n = .ok children → children.length ≤ weight l) {fuel : ℕ} {stack : List N} {seen : Finset L}
    (hfuel : stack.length + ∑ l ∈ seenᶜ, weight l ≤ fuel) : ∃ r, W.run fuel stack seen = some r := by
  induction fuel generalizing stack seen with
  | zero =>
    cases stack with
    | nil => exact ⟨_, rfl⟩
    | cons n stack =>
      rw [List.length_cons] at hfuel
      omega
  | succ fuel ih =>
    cases stack with
    | nil => exact ⟨_, rfl⟩
    | cons n stack =>
      rw [List.length_cons] at hfuel
      rw [run]
      cases hl : W.place (W.obj n) with
      | none =>
        cases hv : W.visit n with
        | error e => exact ⟨_, rfl⟩
        | ok children => exact ih (by omega)
      | some l =>
        dsimp only
        split
        next hmem => exact ih (by omega)
        next hmem =>
          cases hv : W.visit n with
          | error e => exact ⟨_, rfl⟩
          | ok children =>
            have hsum : weight l + ∑ l ∈ (insert l seen)ᶜ, weight l = ∑ l ∈ seenᶜ, weight l := by
              rw [Finset.compl_insert, Finset.add_sum_erase _ _ (Finset.mem_compl.mpr hmem)]
            have hlen := hweight hl hv
            apply ih
            rw [List.length_append, List.length_reverse]
            omega

/-- More fuel changes nothing. -/
theorem run_mono {fuel fuel' : ℕ} (hle : fuel ≤ fuel') {stack : List N} {seen : Finset L} {r : Except ε Unit}
    (h : W.run fuel stack seen = some r) : W.run fuel' stack seen = some r := by
  induction fuel generalizing fuel' stack seen with
  | zero =>
    cases stack with
    | nil =>
      cases h
      cases fuel' <;> rfl
    | cons n stack => cases h
  | succ fuel ih =>
    obtain ⟨fuel', rfl⟩ : ∃ k, fuel' = k + 1 := ⟨fuel' - 1, by omega⟩
    cases stack with
    | nil =>
      cases h
      rfl
    | cons n stack =>
      have hstep := fun {stack : List N} {seen : Finset L} (h : W.run fuel stack seen = some r) =>
        ih (Nat.le_of_succ_le_succ hle) h
      rw [run] at h ⊢
      cases hl : W.place (W.obj n) with
      | none =>
        rw [hl] at h
        cases hv : W.visit n with
        | error e => rwa [hv] at h
        | ok children =>
          rw [hv] at h
          exact hstep h
      | some l =>
        rw [hl] at h
        dsimp only at h ⊢
        split at h
        next hmem =>
          rw [if_pos hmem]
          exact hstep h
        next hmem =>
          rw [if_neg hmem]
          cases hv : W.visit n with
          | error e => rwa [hv] at h
          | ok children =>
            rw [hv] at h
            exact hstep h

end ends

end Walk

end Worklist
